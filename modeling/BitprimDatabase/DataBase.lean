/-
  File:      BitprimDatabase/DataBase.lean
  Subject:   THE DATA BASE (data_base.cpp): the writers over the block and transaction tables, the
             pool and the indexes, one call after another. `insert`, `push` and `pop` of blocks,
             `push` of a transaction, `pop_above`.

  The table of a missing file, a full disk and the thread pool are not modelled: a table is
  created and resized, and `flushes` says what flushing the tables answers.
-/
import BitprimDatabase.Store
import BitprimDatabase.Databases.BlockDatabase
import BitprimDatabase.Databases.Indexes

namespace Libbitcoin.Database

open Lib

/-! ## 1. The state -/

/-- The settings the data base reads. -/
structure Settings where
  flushWrites : Bool
  indexStartHeight : Nat
  blockTableBuckets : Nat
  transactionTableBuckets : Nat
  transactionUnconfirmedTableBuckets : Nat
  spendTableBuckets : Nat
  historyTableBuckets : Nat
  cacheCapacity : Nat

/-- Settings for the examples: one bucket a table, every height indexed, no cache. -/
def Settings.sample : Settings := ⟨false, 0, 1, 1, 1, 1, 1, 0⟩

/-- The error codes of the writers. -/
inductive Code where
  | success
  | emptyBlock
  | storeBlockDuplicate
  | storeBlockInvalidHeight
  | storeBlockMissingParent
  | unspentDuplicate
  | operationFailed
  deriving DecidableEq

structure DataBase where
  settings : Settings
  flushes : Bool
  store : Store
  blocks : BlockDatabase
  transactions : TransactionDatabase
  transactionsUnconfirmed : TransactionUnconfirmedDatabase
  spends : SpendDatabase
  history : HistoryDatabase
  stealth : StealthDatabase

namespace DataBase

/-- The bytes in front of the slabs were written: a gap decodes to something else. -/
def setStray (db : DataBase) (stray : BlockResult) : DataBase :=
  { db with blocks.stray := stray }

variable [Core]

/-! ## 2. Verification -/

def getNextHeight (blocks : BlockDatabase) : Nat :=
  match blocks.top with
  | none => 0
  | some currentHeight => currentHeight + 1

/-- The hash of the block below; `get` has a result below the top. -/
def getPreviousHash (blocks : BlockDatabase) (height : Nat) : HashDigest :=
  if height = 0 then nullHash
  else
    match blocks.get (height - 1) with
    | none => nullHash
    | some result => result.header.hash

def verifyInsert (db : DataBase) (b : Block) (height : Nat) : Code :=
  if b.transactions.isEmpty then .emptyBlock
  else if db.blocks.exists? height then .storeBlockDuplicate
  else .success

def verifyPush (db : DataBase) (b : Block) (height : Nat) : Code :=
  if b.transactions.isEmpty then .emptyBlock
  else if getNextHeight db.blocks ≠ height then .storeBlockInvalidHeight
  else if b.header.previousBlockHash ≠ getPreviousHash db.blocks height then
    .storeBlockMissingParent
  else .success

def verifyPushTransaction (db : DataBase) (tx : Transaction) : Code :=
  match db.transactions.get tx.hash maxSize false with
  | none => .success
  | some result => if !result.isSpent maxSize then .unspentDuplicate else .success

/-! ## 3. Push -/

/-- One input of `push_inputs`. -/
def pushInput (txHash : HashDigest) (height : Nat) (db : DataBase) (input : Input × Nat) :
    DataBase :=
  let point : Point := ⟨txHash, input.2⟩
  let db := { db with spends := db.spends.store input.1.previousOutput point }
  match Core.address input.1.script with
  | none => db
  | some address =>
    { db with history := db.history.addInput address point height input.1.previousOutput }

def pushInputs (db : DataBase) (txHash : HashDigest) (height : Nat) (inputs : List Input) :
    DataBase :=
  inputs.zipIdx.foldl (pushInput txHash height) db

/-- One output of `push_outputs`. -/
def pushOutput (txHash : HashDigest) (height : Nat) (db : DataBase) (output : Output × Nat) :
    DataBase :=
  match Core.address output.1.script with
  | none => db
  | some address =>
    { db with history := db.history.addOutput address ⟨txHash, output.2⟩ height output.1.value }

def pushOutputs (db : DataBase) (txHash : HashDigest) (height : Nat) (outputs : List Output) :
    DataBase :=
  outputs.zipIdx.foldl (pushOutput txHash height) db

/-- One pair of neighbouring outputs of `push_stealth`. -/
def pushStealthPair (txHash : HashDigest) (height : Nat) (db : DataBase)
    (pair : Output × Output) : DataBase :=
  match Core.address pair.2.script, Core.ephemeralKey pair.1.script,
      Core.stealthPrefix pair.1.script with
  | some address, some key, some stealthPrefix =>
    { db with stealth := db.stealth.store stealthPrefix height ⟨key, address, txHash⟩ }
  | _, _, _ => db

/-- Stealth outputs are paired by convention. -/
def pushStealth (db : DataBase) (txHash : HashDigest) (height : Nat) (outputs : List Output) :
    DataBase :=
  (outputs.zip outputs.tail).foldl (pushStealthPair txHash height) db

/-- The indexes of a transaction. -/
def pushIndexes (db : DataBase) (height : Nat) (tx : Transaction) (position : Nat) : DataBase :=
  let db := if position ≠ 0 then db.pushInputs tx.hash height tx.inputs else db
  let db := db.pushOutputs tx.hash height tx.outputs
  db.pushStealth tx.hash height tx.outputs

/-- One transaction of `push_transactions`. -/
def pushTransaction (height : Nat) (db : DataBase) (tx : Transaction × Nat) : DataBase :=
  let db :=
    { db with
      transactions := db.transactions.store tx.1 height tx.2
      transactionsUnconfirmed := (db.transactionsUnconfirmed.unlinkIfExists tx.1.hash).1 }
  if height < db.settings.indexStartHeight then db else db.pushIndexes height tx.1 tx.2

/-- The transactions at positions `bucket`, `bucket + buckets`, …; all of them where a writer is
    alone, with bucket 0 of 1. -/
def pushTransactions (db : DataBase) (b : Block) (height bucket buckets : Nat) :
    DataBase × Bool :=
  ((b.transactions.zipIdx.filter fun tx => tx.2 % buckets == bucket).foldl
    (pushTransaction height) db, true)

/-- Spend the points in order, up to the first that fails. -/
def spendAll (transactions : TransactionDatabase) (height : Nat) :
    List Point → TransactionDatabase × Bool
  | [] => (transactions, true)
  | point :: points =>
    match transactions.spend point height with
    | (transactions, false) => (transactions, false)
    | (transactions, true) => spendAll transactions height points

/-- Mark the spends; the coinbase is skipped. -/
def pushHeights (db : DataBase) (b : Block) (height : Nat) : DataBase × Bool :=
  let (transactions, result) := spendAll db.transactions height b.previousOutputs
  ({ db with transactions := transactions }, result)

/-- The three phases every writer of a block goes through. -/
def writeBlock (db : DataBase) (b : Block) (height : Nat) : DataBase × Bool :=
  match db.pushTransactions b height 0 1 with
  | (db, false) => (db, false)
  | (db, true) =>
    match db.pushHeights b height with
    | (db, false) => (db, false)
    | (db, true) => ({ db with blocks := db.blocks.store b height }, true)

/-- Add a block at a height, gaps allowed or created. -/
def insert (db : DataBase) (b : Block) (height : Nat) : DataBase × Code :=
  match db.verifyInsert b height with
  | .success =>
    match db.writeBlock b height with
    | (db, false) => (db, .operationFailed)
    | (db, true) => (db, .success)
  | ec => (db, ec)

/-- `end_write` at the end of a writer. -/
def finish (db : DataBase) : DataBase × Code :=
  let (store, result) := db.store.endWrite db.flushes
  ({ db with store := store }, if result then .success else .operationFailed)

/-- Add an unconfirmed transaction. -/
def pushUnconfirmed (db : DataBase) (tx : Transaction) (forks : Nat) : DataBase × Code :=
  match db.verifyPushTransaction tx with
  | .success =>
    match db.store.beginWrite with
    | (store, false) => ({ db with store := store }, .operationFailed)
    | (store, true) =>
      finish { db with
        store := store
        transactions := db.transactions.store tx forks unconfirmed
        transactionsUnconfirmed := db.transactionsUnconfirmed.store tx }
  | ec => (db, ec)

/-- Add a block on top. A failure behind `begin_write` is returned without `end_write`. -/
def push (db : DataBase) (b : Block) (height : Nat) : DataBase × Code :=
  match db.verifyPush b height with
  | .success =>
    match db.store.beginWrite with
    | (store, false) => ({ db with store := store }, .operationFailed)
    | (store, true) =>
      match writeBlock { db with store := store } b height with
      | (db, false) => (db, .operationFailed)
      | (db, true) => db.finish
  | ec => (db, ec)

/-- Created tables, before the first block is stored. -/
def start (settings : Settings) (flushes : Bool) (stray : BlockResult) : DataBase where
  settings := settings
  flushes := flushes
  store := (Store.open ⟨settings.flushWrites, false, 0⟩).1
  blocks := .create settings.blockTableBuckets stray
  transactions := .create settings.transactionTableBuckets settings.cacheCapacity
  transactionsUnconfirmed := .create settings.transactionUnconfirmedTableBuckets
  spends := .create settings.spendTableBuckets
  history := .create settings.historyTableBuckets
  stealth := .create

/-- Create the tables and store the first block; the result of its push is ignored. -/
def create (settings : Settings) (flushes : Bool) (stray : BlockResult) (genesis : Block) :
    DataBase :=
  ((start settings flushes stray).push genesis 0).1

/-! ## 4. Pop -/

/-- The transactions of the block read back, in order; `none` where one is not found confirmed at
    the height and its position. -/
def readTransactions (db : DataBase) (height : Nat) : List (HashDigest × Nat) →
    Option (List Transaction)
  | [] => some []
  | (hash, position) :: rest =>
    match db.transactions.get hash height true with
    | none => none
    | some tx =>
      if tx.height ≠ height ∨ tx.position ≠ position then none
      else (db.readTransactions height rest).map fun txs => tx.transaction hash :: txs

/-- `transactions.reserve(count)` and the loop that reads the block back: `none` where the vector
    cannot be reserved, which throws, or a transaction is not found. -/
def readBlock (db : DataBase) (height : Nat) (block : BlockResult) : Option (List Transaction) :=
  if db.blocks.reserves height then db.readTransactions height block.slab.hashes.zipIdx else none

/-- Whether `pop` throws. -/
def popThrows (db : DataBase) : Bool :=
  match db.blocks.top with
  | none => false
  | some height => !db.blocks.reserves height

/-- Undo the history row of an output. -/
def popOutput (db : DataBase) (output : Output) : DataBase :=
  match Core.address output.script with
  | none => db
  | some address => { db with history := (db.history.deleteLastRow address).1 }

/-- Loop in reverse. The deletion may find nothing. -/
def popOutputs (db : DataBase) (outputs : List Output) (height : Nat) : DataBase :=
  if height < db.settings.indexStartHeight then db else outputs.reverse.foldl popOutput db

/-- Undo the spend and the history row of an input. -/
def popIndexes (db : DataBase) (input : Input) : DataBase :=
  let db := { db with spends := (db.spends.unlink input.previousOutput).1 }
  match Core.address input.script with
  | none => db
  | some address => { db with history := (db.history.deleteLastRow address).1 }

/-- The loop of `pop_inputs`, over the reversed inputs. -/
def popInputsFrom (height : Nat) : DataBase → List Input → DataBase × Bool
  | db, [] => (db, true)
  | db, input :: inputs =>
    match db.transactions.unspend input.previousOutput with
    | (transactions, false) => ({ db with transactions := transactions }, false)
    | (transactions, true) =>
      let db := { db with transactions := transactions }
      if height < db.settings.indexStartHeight then popInputsFrom height db inputs
      else popInputsFrom height (db.popIndexes input) inputs

def popInputs (db : DataBase) (inputs : List Input) (height : Nat) : DataBase × Bool :=
  popInputsFrom height db inputs.reverse

/-- The loop of `pop`, over the reversed transactions: remove the transaction, its outputs, its
    inputs. -/
def popTransactions (height : Nat) : DataBase → List Transaction → DataBase × Bool
  | db, [] => (db, true)
  | db, tx :: txs =>
    match db.transactions.unconfirm tx.hash with
    | (transactions, false) => ({ db with transactions := transactions }, false)
    | (transactions, true) =>
      let db :=
        { db with
          transactions := transactions
          transactionsUnconfirmed := db.transactionsUnconfirmed.store tx }
      let db := db.popOutputs tx.outputs height
      if tx.isCoinbase then popTransactions height db txs
      else
        match db.popInputs tx.inputs height with
        | (db, false) => (db, false)
        | (db, true) => popTransactions height db txs

/-- Remove the top block; `none` is a false return, or a throw in front of the first change. -/
def pop (db : DataBase) : DataBase × Option Block :=
  match db.blocks.top with
  | none => (db, none)
  | some height =>
    match db.blocks.get height with
    | none => (db, none)
    | some block =>
      match db.readBlock height block with
      | none => (db, none)
      | some transactions =>
        match popTransactions height db transactions.reverse with
        | (db, false) => (db, none)
        | (db, true) =>
          match db.blocks.unlink height with
          | (blocks, false) => ({ db with blocks := blocks }, none)
          | (blocks, true) => ({ db with blocks := blocks }, some ⟨block.header, transactions⟩)

/-! ## 5. Pop above a fork point -/

/-- The difference of two `size_t`. -/
def subSize (a b : Nat) : Nat := (a + (maxSize + 1) - b) % (maxSize + 1)

/-- What a vector of pointers can reserve; `reserve` throws beyond it. -/
def maxReserve : Nat := 576460752303423487

/-- The loop of `pop_above`: the blocks popped so far, the lowest first, and the code; `none` where
    a pop throws. -/
def popBlocks : Nat → DataBase → List Block → DataBase × List Block × Option Code
  | 0, db, out => (db, out, some .success)
  | n + 1, db, out =>
    if db.popThrows then (db, out, none)
    else
      match db.pop with
      | (db, none) => (db, out, some .operationFailed)
      | (db, some b) => popBlocks n db (b :: out)

/-- Pop the blocks above the given hash. The code is what the handler is called with; `none` where
    a `reserve` throws, the one for the blocks or that of a pop, and no handler is called. -/
def popAbove (db : DataBase) (forkHash : HashDigest) : DataBase × List Block × Option Code :=
  match db.blocks.getByHash forkHash, db.blocks.top with
  | some result, some top =>
    let fork := result.height
    let size := subSize top fork
    if size = 0 then (db, [], some .success)
    else if size > maxReserve then (db, [], none)
    else popBlocks (top - fork) db []
  | _, _ => (db, [], some .operationFailed)

end DataBase

end Libbitcoin.Database
