/-
  File:      BitprimDatabase/DataBase/Files.lean
  Subject:   **THE DATA BASE ON ITS FILES** (data_base.cpp, store.hpp): the writers of DataBase.lean
             over the bytes of the eight files, every read of them and every write to them.

      block_table  block_index  transaction_table  transaction_unconfirmed_table
      spend_table  history_table  history_rows  stealth_rows

  * `Files` -- the files under their managers, the output cache, the locks;
  * `push`, `insert`, `pushUnconfirmed`, `pop`, `popAbove`, `synchronize`, `reopen` -- as the source
    has them. `none` is a call that throws, a file that cannot grow, or a search that does not end;
  * `perform` -- an operation with what it answers.

  The index files are there where no height is indexed, too; then no writer comes to them.
-/
import BitprimDatabase.DataBase.PoolFile
import BitprimDatabase.DataBase.PoolMirror
import BitprimDatabase.DataBase.Synchronize
import BitprimDatabase.Databases.ReopenFiles
import BitprimDatabase.Databases.StealthFile

namespace Libbitcoin.Database

open Lib

/-! ## 1. The state -/

/-- What the files depend on: the forms of the core library, `std::hash` of the three keys, the disk
    with the growth of the files. -/
structure Env where
  form : StoreForm
  hashDigest : Key 32 → Nat
  hashShort : Key 20 → Nat
  hashPoint : Key 36 → Nat
  disk : Disk

/-- What the eight files hold where nothing is written. -/
structure Contents where
  blockTable : Memory
  blockIndex : Memory
  transactionTable : Memory
  transactionUnconfirmedTable : Memory
  spendTable : Memory
  historyTable : Memory
  historyRows : Memory
  stealthRows : Memory

structure Files where
  settings : Settings
  flushes : Bool
  store : Store
  blocks : BlockFile
  transactions : TransactionFile
  transactionsUnconfirmed : PoolFile
  spends : SpendFile
  history : HistoryFile
  stealth : StealthFile

/-- A point with the index that four bytes keep. -/
def WirePoint.of (point : Point) : WirePoint := ⟨⟨point.hash, u32 point.index⟩, u32_le _⟩

/-- What an operation answers. -/
inductive Answer where
  | code (ec : Code)
  | popped (out : Option Block)
  | above (out : List Block) (ec : Option Code)

namespace Files

variable [Core] (env : Env)

/-! ## 2. Verification -/

def getNextHeight (blocks : BlockFile) : Nat :=
  match blocks.top with
  | none => 0
  | some currentHeight => currentHeight + 1

def getPreviousHash (blocks : BlockFile) (height : Nat) : HashDigest :=
  if height = 0 then nullHash
  else
    match blocks.get (height - 1) with
    | none => nullHash
    | some result => result.header.hash

def verifyInsert (f : Files) (b : Block) (height : Nat) : Code :=
  if b.transactions.isEmpty then .emptyBlock
  else if f.blocks.exists? height then .storeBlockDuplicate
  else .success

def verifyPush (f : Files) (b : Block) (height : Nat) : Code :=
  if b.transactions.isEmpty then .emptyBlock
  else if getNextHeight f.blocks ≠ height then .storeBlockInvalidHeight
  else if b.header.previousBlockHash ≠ getPreviousHash f.blocks height then
    .storeBlockMissingParent
  else .success

/-- `is_spent` loops over the outputs the slab counts. -/
def verifyPushTransaction (f : Files) (tx : Transaction) : Option Code :=
  let m := f.transactions.lookup.bytes
  match f.transactions.find env.hashDigest tx.hash maxSize false with
  | none => none
  | some none => some .success
  | some (some slab) =>
    let outputs := (env.form.read m (slab + 4 + 4 + (4 + 4))).1
    (TransactionResult.isSpent env.form m slab (outputs + 1) maxSize).map fun spent =>
      if !spent then .unspentDuplicate else .success

/-! ## 3. Push -/

/-- One input of `push_inputs`. -/
def pushInput (txHash : HashDigest) (height : Nat) (f : Files) (input : Input × Nat) :
    Option Files :=
  let point : Point := ⟨txHash, input.2⟩
  (f.spends.store env.hashPoint env.disk (.of input.1.previousOutput) (.of point)).bind fun spends =>
    let f := { f with spends := spends }
    match Core.address input.1.script with
    | none => some f
    | some address =>
      (f.history.addInput env.hashShort env.disk address point height input.1.previousOutput).map
        fun history => { f with history := history }

def pushInputs (f : Files) (txHash : HashDigest) (height : Nat) (inputs : List Input) :
    Option Files :=
  runSome (pushInput env txHash height) f inputs.zipIdx

/-- One output of `push_outputs`. -/
def pushOutput (txHash : HashDigest) (height : Nat) (f : Files) (output : Output × Nat) :
    Option Files :=
  match Core.address output.1.script with
  | none => some f
  | some address =>
    (f.history.addOutput env.hashShort env.disk address ⟨txHash, output.2⟩ height
      output.1.value).map fun history => { f with history := history }

def pushOutputs (f : Files) (txHash : HashDigest) (height : Nat) (outputs : List Output) :
    Option Files :=
  runSome (pushOutput env txHash height) f outputs.zipIdx

/-- One pair of neighbouring outputs of `push_stealth`. -/
def pushStealthPair (txHash : HashDigest) (height : Nat) (f : Files) (pair : Output × Output) :
    Option Files :=
  match Core.address pair.2.script, Core.ephemeralKey pair.1.script,
      Core.stealthPrefix pair.1.script with
  | some address, some key, some stealthPrefix =>
    (f.stealth.store env.disk stealthPrefix height ⟨key, address, txHash⟩).map
      fun stealth => { f with stealth := stealth }
  | _, _, _ => some f

def pushStealth (f : Files) (txHash : HashDigest) (height : Nat) (outputs : List Output) :
    Option Files :=
  runSome (pushStealthPair env txHash height) f (outputs.zip outputs.tail)

/-- The indexes of a transaction. -/
def pushIndexes (f : Files) (height : Nat) (tx : Transaction) (position : Nat) : Option Files :=
  (if position ≠ 0 then f.pushInputs env tx.hash height tx.inputs else some f).bind fun f =>
    (f.pushOutputs env tx.hash height tx.outputs).bind fun f =>
      f.pushStealth env tx.hash height tx.outputs

/-- One transaction of `push_transactions`. -/
def pushTransaction (height : Nat) (f : Files) (tx : Transaction × Nat) : Option Files :=
  (f.transactions.store env.form env.hashDigest env.disk tx.1 height tx.2).bind fun transactions =>
    (f.transactionsUnconfirmed.unlinkIfExists env.hashDigest tx.1.hash).bind fun unlinked =>
      let f := { f with transactions := transactions, transactionsUnconfirmed := unlinked.1 }
      if height < f.settings.indexStartHeight then some f
      else f.pushIndexes env height tx.1 tx.2

/-- The transactions at positions `bucket`, `bucket + buckets`, …. -/
def pushTransactions (f : Files) (b : Block) (height bucket buckets : Nat) :
    Option (Files × Bool) :=
  (runSome (pushTransaction env height) f
    (b.transactions.zipIdx.filter fun tx => tx.2 % buckets == bucket)).map fun f => (f, true)

/-- Spend the points in order, up to the first that fails. -/
def spendAll (transactions : TransactionFile) (height : Nat) :
    List Point → Option (TransactionFile × Bool)
  | [] => some (transactions, true)
  | point :: points =>
    match transactions.spend env.form env.hashDigest point height with
    | none => none
    | some (transactions, false) => some (transactions, false)
    | some (transactions, true) => spendAll transactions height points

/-- The transactions are synchronized in front of the spends; the coinbase is skipped. -/
def pushHeights (f : Files) (b : Block) (height : Nat) : Option (Files × Bool) :=
  (spendAll env f.transactions.synchronize height b.previousOutputs).map
    fun (transactions, result) => ({ f with transactions := transactions }, result)

def synchronize (f : Files) : Files :=
  let f :=
    if f.settings.useIndexes then
      { f with
        spends := f.spends.synchronize
        history := f.history.synchronize
        stealth := f.stealth.synchronize }
    else f
  { f with
    transactions := f.transactions.synchronize
    transactionsUnconfirmed := f.transactionsUnconfirmed.synchronize
    blocks := f.blocks.synchronize }

/-- What every writer of a block does: the transactions, the spends, the block, `synchronize`. -/
def writeBlock (f : Files) (b : Block) (height : Nat) : Option (Files × Bool) :=
  match f.pushTransactions env b height 0 1 with
  | none => none
  | some (f, false) => some (f, false)
  | some (f, true) =>
    match f.pushHeights env b height with
    | none => none
    | some (f, false) => some (f, false)
    | some (f, true) =>
      (f.blocks.store env.form.toSizeCodec env.hashDigest env.disk b height).map fun blocks =>
        (synchronize { f with blocks := blocks }, true)

/-- Add a block at a height, gaps allowed or created. -/
def insert (f : Files) (b : Block) (height : Nat) : Option (Files × Code) :=
  match f.verifyInsert b height with
  | .success =>
    (f.writeBlock env b height).map fun (f, result) =>
      (f, if result then .success else .operationFailed)
  | ec => some (f, ec)

/-- `end_write` at the end of a writer. -/
def finish (f : Files) : Files × Code :=
  let (store, result) := f.store.endWrite f.flushes
  ({ f with store := store }, if result then .success else .operationFailed)

/-- Add an unconfirmed transaction. -/
def pushUnconfirmed (f : Files) (tx : Transaction) (forks : Nat) : Option (Files × Code) :=
  match f.verifyPushTransaction env tx with
  | none => none
  | some .success =>
    match f.store.beginWrite with
    | (store, false) => some ({ f with store := store }, .operationFailed)
    | (store, true) =>
      (f.transactions.store env.form env.hashDigest env.disk tx forks unconfirmed).bind
        fun transactions =>
          (f.transactionsUnconfirmed.store env.form env.hashDigest env.disk tx).map fun pool =>
            finish
              { f with
                store := store
                transactions := transactions.synchronize
                transactionsUnconfirmed := pool.synchronize }
  | some ec => some (f, ec)

/-- Add a block on top. A failure behind `begin_write` is returned without `end_write`. -/
def push (f : Files) (b : Block) (height : Nat) : Option (Files × Code) :=
  match f.verifyPush b height with
  | .success =>
    match f.store.beginWrite with
    | (store, false) => some ({ f with store := store }, .operationFailed)
    | (store, true) =>
      (writeBlock env { f with store := store } b height).map fun (f, result) =>
        if result then f.finish else (f, .operationFailed)
  | ec => some (f, ec)

/-! ## 4. Pop -/

/-- The transactions of the block read back, in order. The outer `none` is a search that does not end,
    the inner one a transaction that is not found confirmed at the height and its position. -/
def readTransactions (f : Files) (height : Nat) : List (HashDigest × Nat) →
    Option (Option (List Transaction))
  | [] => some (some [])
  | (hash, position) :: rest =>
    match f.transactions.find env.hashDigest hash height true with
    | none => none
    | some none => some none
    | some (some slab) =>
      let m := f.transactions.lookup.bytes
      if TransactionResult.height m slab ≠ height ∨ TransactionResult.position m slab ≠ position then
        some none
      else
        (f.readTransactions height rest).map fun txs =>
          txs.map fun txs => TransactionResult.transaction env.form m slab hash :: txs

/-- Undo the history row of an output. -/
def popOutput (f : Files) (output : Output) : Option Files :=
  match Core.address output.script with
  | none => some f
  | some address =>
    (f.history.deleteLastRow env.hashShort address).map fun r => { f with history := r.1 }

/-- Loop in reverse. The deletion may find nothing. -/
def popOutputs (f : Files) (outputs : List Output) (height : Nat) : Option Files :=
  if height < f.settings.indexStartHeight then some f
  else runSome (popOutput env) f outputs.reverse

/-- Undo the spend and the history row of an input. -/
def popIndexes (f : Files) (input : Input) : Option Files :=
  (f.spends.unlink env.hashPoint (.of input.previousOutput)).bind fun r =>
    let f := { f with spends := r.1 }
    match Core.address input.script with
    | none => some f
    | some address =>
      (f.history.deleteLastRow env.hashShort address).map fun r => { f with history := r.1 }

/-- The loop of `pop_inputs`, over the reversed inputs. -/
def popInputsFrom (height : Nat) : Files → List Input → Option (Files × Bool)
  | f, [] => some (f, true)
  | f, input :: inputs =>
    match f.transactions.unspend env.form env.hashDigest input.previousOutput with
    | none => none
    | some (transactions, false) => some ({ f with transactions := transactions }, false)
    | some (transactions, true) =>
      let f := { f with transactions := transactions }
      if height < f.settings.indexStartHeight then popInputsFrom height f inputs
      else (f.popIndexes env input).bind fun f => popInputsFrom height f inputs

def popInputs (f : Files) (inputs : List Input) (height : Nat) : Option (Files × Bool) :=
  popInputsFrom env height f inputs.reverse

/-- The loop of `pop`, over the reversed transactions: remove the transaction, its outputs, its
    inputs. -/
def popTransactions (height : Nat) : Files → List Transaction → Option (Files × Bool)
  | f, [] => some (f, true)
  | f, tx :: txs =>
    match f.transactions.unconfirm env.hashDigest tx.hash with
    | none => none
    | some (transactions, false) => some ({ f with transactions := transactions }, false)
    | some (transactions, true) =>
      (f.transactionsUnconfirmed.store env.form env.hashDigest env.disk tx).bind fun pool =>
        let f := { f with transactions := transactions, transactionsUnconfirmed := pool }
        (f.popOutputs env tx.outputs height).bind fun f =>
          if tx.isCoinbase then popTransactions height f txs
          else
            match f.popInputs env tx.inputs height with
            | none => none
            | some (f, false) => some (f, false)
            | some (f, true) => popTransactions height f txs

/-- The hashes a block record counts, each with its position. -/
def recordHashes (block : BlockRecord) : List (HashDigest × Nat) :=
  (List.range (block.transactionCount env.form.toSizeCodec)).map fun position =>
    (block.transactionHash env.form.toSizeCodec position, position)

/-- `transactions.reserve(count)`, which throws beyond what a vector holds, and the loop that reads
    the block back. -/
def readBlock (f : Files) (height : Nat) (block : BlockRecord) :
    Option (Option (List Transaction)) :=
  if f.blocks.reserves height (block.transactionCount env.form.toSizeCodec) then
    f.readTransactions env height (recordHashes env block)
  else none

/-- Remove the top block; an answer of `none` is a false return. -/
def pop (f : Files) : Option (Files × Option Block) :=
  match f.blocks.top with
  | none => some (f, none)
  | some height =>
    match f.blocks.get height with
    | none => some (f, none)
    | some block =>
      match f.readBlock env height block with
      | none => none
      | some none => some (f, none)
      | some (some transactions) =>
        match popTransactions env height f transactions.reverse with
        | none => none
        | some (f, false) => some (f, none)
        | some (f, true) =>
          match f.blocks.unlink height with
          | (blocks, false) => some ({ f with blocks := blocks }, none)
          | (blocks, true) =>
            some (synchronize { f with blocks := blocks }, some ⟨block.header, transactions⟩)

/-- The loop of `pop_above`: the blocks popped so far, the lowest first, and the code. -/
def popBlocks : Nat → Files → List Block → Option (Files × List Block × Code)
  | 0, f, out => some (f, out, .success)
  | n + 1, f, out =>
    match f.pop env with
    | none => none
    | some (f, none) => some (f, out, .operationFailed)
    | some (f, some b) => popBlocks n f (b :: out)

/-- Pop the blocks above the given hash. The code is what the handler is called with. -/
def popAbove (f : Files) (forkHash : HashDigest) : Option (Files × List Block × Option Code) :=
  match f.blocks.getByHash env.hashDigest forkHash with
  | none => none
  | some found =>
    match found, f.blocks.top with
    | some result, some top =>
      let fork := result.height
      let size := DataBase.subSize top fork
      if size = 0 then some (f, [], some .success)
      else if size > DataBase.maxReserve then some (f, [], none)
      else (popBlocks env (top - fork) f []).map fun (f, out, ec) => (f, out, some ec)
    | _, _ => some (f, [], some .operationFailed)

/-! ## 5. Create, close and open -/

/-- Created tables, before the first block is stored. -/
def start (settings : Settings) (flushes : Bool) (contents : Contents) : Option Files :=
  (BlockFile.create env.disk settings.blockTableBuckets contents.blockTable
      contents.blockIndex).bind fun blocks =>
    (TransactionFile.create env.disk settings.transactionTableBuckets settings.cacheCapacity
        contents.transactionTable).bind fun transactions =>
      (PoolFile.create env.disk settings.transactionUnconfirmedTableBuckets
          contents.transactionUnconfirmedTable).bind fun pool =>
        (SpendFile.create env.disk settings.spendTableBuckets contents.spendTable).bind fun spends =>
          (HistoryFile.create env.disk settings.historyTableBuckets contents.historyTable
              contents.historyRows).bind fun history =>
            (StealthFile.create env.disk contents.stealthRows).map fun stealth =>
              { settings := settings
                flushes := flushes
                store := (Store.open ⟨settings.flushWrites, false, 0⟩).1
                blocks := blocks
                transactions := transactions
                transactionsUnconfirmed := pool
                spends := spends
                history := history
                stealth := stealth }

/-- The three index tables closed and opened. -/
def reopenIndexes (f : Files) (rest : Contents) : Option Files :=
  (f.spends.reopen rest.spendTable).bind fun spends =>
    (f.history.reopen rest.historyTable rest.historyRows).bind fun history =>
      (f.stealth.reopen rest.stealthRows).map fun stealth =>
        { f with spends := spends, history := history, stealth := stealth }

/-- `close`, which does not synchronize, and `open`: `none` where a lock is refused or a file does not
    start. -/
def reopen (f : Files) (rest : Contents) : Option Files :=
  match f.store.close with
  | (_, false) => none
  | (store, true) =>
    match store.open with
    | (_, false) => none
    | (store, true) =>
      (f.blocks.reopen rest.blockTable rest.blockIndex).bind fun blocks =>
        (f.transactions.reopen f.settings.cacheCapacity rest.transactionTable).bind
          fun transactions =>
            (f.transactionsUnconfirmed.reopen rest.transactionUnconfirmedTable).bind fun pool =>
              let f :=
                { f with
                  store := store
                  blocks := blocks
                  transactions := transactions
                  transactionsUnconfirmed := pool }
              if f.settings.useIndexes then f.reopenIndexes rest else some f

/-! ## 6. Operations -/

/-- An operation and what it answers. -/
def perform (f : Files) : Op → Option (Files × Answer)
  | .pushUnconfirmed tx forks => (f.pushUnconfirmed env tx forks).map fun r => (r.1, .code r.2)
  | .push b height => (f.push env b height).map fun r => (r.1, .code r.2)
  | .insert b height => (f.insert env b height).map fun r => (r.1, .code r.2)
  | .pop => (f.pop env).map fun r => (r.1, .popped r.2)
  | .popAbove forkHash => (f.popAbove env forkHash).map fun r => (r.1, .above r.2.1 r.2.2)

end Files

namespace DataBase

variable [Core]

/-- The operation on the tables, and what it answers. -/
def perform (db : DataBase) : Op → DataBase × Answer
  | .pushUnconfirmed tx forks => ((db.pushUnconfirmed tx forks).1, .code (db.pushUnconfirmed tx forks).2)
  | .push b height => ((db.push b height).1, .code (db.push b height).2)
  | .insert b height => ((db.insert b height).1, .code (db.insert b height).2)
  | .pop => (db.pop.1, .popped db.pop.2)
  | .popAbove forkHash => ((db.popAbove forkHash).1, .above (db.popAbove forkHash).2.1
      (db.popAbove forkHash).2.2)

omit [Core] in
/-- The tables behind `close` and `open`: the cache is empty, the locks are taken anew. -/
def reopen (db : DataBase) : DataBase :=
  { db with
    store := db.store.close.1.open.1
    transactions :=
      { db.transactions with cache := UnspentOutputs.create db.settings.cacheCapacity } }

end DataBase

end Libbitcoin.Database
