/-
  File:      BitprimDatabase/DataBase/Synchronize.lean
  Subject:   THE WRITERS WITH THEIR CALLS OF `synchronize` (data_base.cpp). The managers count their
             allocations in memory; the counters in the files are those of the last `synchronize`,
             which a writer calls behind its last write, on success only. `push_heights`
             synchronizes the transactions first, the push of a transaction its two tables.

  * `Counters`, `Mapped` -- the counters, and the data base with those in its files; `Fits` -- those
    of four bytes have not run over;
  * `push`, `insert`, `pop`, … -- the writers of `DataBase` with the synchronizations where the source
    has them; the `_db` lemmas say that they do the same to the data base;
  * `pushAllTransactions_tables`, `popTransactions_tables` -- **what a writer allocates in front of
    its `synchronize`**: a block its spends and history rows, a pop its pool entries.

  The tasks of a bucketed push are given by the order in which they push the transactions.
-/
import BitprimDatabase.DataBase.Buckets
import BitprimDatabase.Primitives.Restart

namespace Libbitcoin.Database

open Lib

/-! ## 1. Counters -/

/-- The payload sizes of the slab tables and the record counts of the others. -/
structure Counters where
  blocks : Nat
  blockIndex : Nat
  transactions : Nat
  transactionsUnconfirmed : Nat
  spends : Nat
  history : Nat
  historyRows : Nat
  stealthRows : Nat
  deriving DecidableEq

/-- `store::without_indexes`. -/
def withoutIndexes : Nat := maxUint32

/-- `use_indexes`: the index tables are there. -/
def Settings.useIndexes (settings : Settings) : Bool :=
  decide (settings.indexStartHeight < withoutIndexes)

/-- What the tables have allocated. -/
def DataBase.allocated (db : DataBase) : Counters where
  blocks := db.blocks.lookup.free
  blockIndex := db.blocks.count
  transactions := db.transactions.lookup.free
  transactionsUnconfirmed := db.transactionsUnconfirmed.lookup.free
  spends := db.spends.lookup.free
  history := db.history.rowsMultimap.map.free
  historyRows := db.history.rowsMultimap.records.count
  stealthRows := db.stealth.rows.length

/-- The counters of the managers: a record count is four bytes and has no guard against overflows. -/
def DataBase.counters (db : DataBase) : Counters :=
  { db.allocated with
    spends := u32 db.allocated.spends
    history := u32 db.allocated.history
    historyRows := u32 db.allocated.historyRows
    stealthRows := u32 db.allocated.stealthRows }

/-- **The record counts have not run over**: no table of the indexes has 2^32 records. -/
def DataBase.Fits (db : DataBase) : Prop :=
  db.settings.useIndexes = true → db.allocated.spends ≤ maxUint32 ∧
    db.allocated.history ≤ maxUint32 ∧ db.allocated.historyRows ≤ maxUint32 ∧
    db.allocated.stealthRows ≤ maxUint32

instance (db : DataBase) : Decidable db.Fits :=
  inferInstanceAs (Decidable (_ → _))

/-- The data base, and the counters in its files. -/
structure Mapped where
  db : DataBase
  file : Counters

/-- A block with the order in which the passes of its bucket tasks push the transactions. -/
structure BucketedBlock where
  block : Block
  order : List (Transaction × Nat)
  perm : order.Perm block.transactions.zipIdx

/-- The passes of one bucket alone. -/
def BucketedBlock.serial (b : Block) : BucketedBlock := ⟨b, b.transactions.zipIdx, .refl _⟩

/-! ## 2. The writers -/

namespace Mapped

/-- Created tables, before the first block is stored: `create` writes the counters. -/
def start [Core] (settings : Settings) (flushes : Bool) (stray : BlockResult) : Mapped :=
  ⟨DataBase.start settings flushes stray, (DataBase.start settings flushes stray).counters⟩

def setDb (s : Mapped) (db : DataBase) : Mapped := { s with db := db }

def setStore (s : Mapped) (store : Store) : Mapped := s.setDb { s.db with store := store }

def synchronize (s : Mapped) : Mapped :=
  let counters := s.db.counters
  if s.db.settings.useIndexes then { s with file := counters }
  else
    { s with
      file :=
        { counters with
          spends := s.file.spends
          history := s.file.history
          historyRows := s.file.historyRows
          stealthRows := s.file.stealthRows } }

/-- `end_write` at the end of a writer. -/
def finish (s : Mapped) : Mapped × Code := (s.setDb s.db.finish.1, s.db.finish.2)

def beginInsert (s : Mapped) : Mapped × Bool :=
  (s.setStore s.db.store.beginWrite.1, s.db.store.beginWrite.2)

def endInsert (s : Mapped) : Mapped × Bool :=
  (s.setStore (s.db.store.endWrite s.db.flushes).1, (s.db.store.endWrite s.db.flushes).2)

variable [Core]

/-- The transactions are synchronized in front of the spends. -/
def pushHeights (s : Mapped) (b : Block) (height : Nat) : Mapped × Bool :=
  let s := { s with file := { s.file with transactions := s.db.counters.transactions } }
  let (db, result) := s.db.pushHeights b height
  (s.setDb db, result)

/-- What every writer of a block does behind `push_transactions`: the spends, the block,
    `synchronize`. -/
def complete (s : Mapped) (b : Block) (height : Nat) : Mapped × Bool :=
  match s.pushHeights b height with
  | (s, false) => (s, false)
  | (s, true) => ((s.setDb { s.db with blocks := s.db.blocks.store b height }).synchronize, true)

def writeBlock (s : Mapped) (b : Block) (height : Nat) : Mapped × Bool :=
  match s.db.pushTransactions b height 0 1 with
  | (db, false) => (s.setDb db, false)
  | (db, true) => (s.setDb db).complete b height

def insert (s : Mapped) (b : Block) (height : Nat) : Mapped × Code :=
  match s.db.verifyInsert b height with
  | .success =>
    match s.writeBlock b height with
    | (s, false) => (s, .operationFailed)
    | (s, true) => (s, .success)
  | ec => (s, ec)

def push (s : Mapped) (b : Block) (height : Nat) : Mapped × Code :=
  match s.db.verifyPush b height with
  | .success =>
    match s.db.store.beginWrite with
    | (store, false) => (s.setStore store, .operationFailed)
    | (store, true) =>
      match (s.setStore store).writeBlock b height with
      | (s, false) => (s, .operationFailed)
      | (s, true) => s.finish
  | ec => (s, ec)

/-- The two tables of an unconfirmed transaction are synchronized in front of `end_write`. -/
def pushUnconfirmed (s : Mapped) (tx : Transaction) (forks : Nat) : Mapped × Code :=
  match s.db.verifyPushTransaction tx with
  | .success =>
    match s.db.store.beginWrite with
    | (store, false) => (s.setStore store, .operationFailed)
    | (store, true) =>
      let s := s.setDb
        { s.db with
          store := store
          transactions := s.db.transactions.store tx forks unconfirmed
          transactionsUnconfirmed := s.db.transactionsUnconfirmed.store tx }
      finish
        { s with
          file :=
            { s.file with
              transactions := s.db.counters.transactions
              transactionsUnconfirmed := s.db.counters.transactionsUnconfirmed } }
  | ec => (s, ec)

def pop (s : Mapped) : Mapped × Option Block :=
  match s.db.pop with
  | (db, none) => (s.setDb db, none)
  | (db, some b) => ((s.setDb db).synchronize, some b)

/-- The loop of `pop_above`. -/
def popBlocks : Nat → Mapped → List Block → Mapped × List Block × Option Code
  | 0, s, out => (s, out, some .success)
  | n + 1, s, out =>
    if s.db.popThrows then (s, out, none)
    else
      match s.pop with
      | (s, none) => (s, out, some .operationFailed)
      | (s, some b) => popBlocks n s (b :: out)

def popAbove (s : Mapped) (forkHash : HashDigest) : Mapped × List Block × Option Code :=
  match s.db.blocks.getByHash forkHash, s.db.blocks.top with
  | some result, some top =>
    let fork := result.height
    let size := DataBase.subSize top fork
    if size = 0 then (s, [], some .success)
    else if size > DataBase.maxReserve then (s, [], none)
    else popBlocks (top - fork) s []
  | _, _ => (s, [], some .operationFailed)

/-- `do_push`, with its bucket tasks and `handle_push_transactions`. -/
def doPush (s : Mapped) (b : BucketedBlock) (height : Nat) : Mapped × Code :=
  match s.db.verifyPush b.block height with
  | .success =>
    match (s.setDb (b.order.foldl (DataBase.pushTransaction height) s.db)).complete b.block height with
    | (s, false) => (s, .operationFailed)
    | (s, true) => (s, .success)
  | ec => (s, ec)

/-- `push_all`, the blocks one after another up to the first that fails. -/
def pushAll : Mapped → List BucketedBlock → Nat → Mapped × Code
  | s, [], _ => (s, .success)
  | s, b :: blocks, height =>
    match s.doPush b height with
    | (s, .success) => pushAll s blocks (succSize height)
    | (s, ec) => (s, ec)

/-- `reorganize` up to the call of its handler; `none` where it throws. -/
def reorganize (s : Mapped) (forkPoint : Checkpoint) (incoming : List BucketedBlock) :
    Mapped × Option Code :=
  match safeAdd forkPoint.height 1 with
  | none => (s, none)
  | some nextHeight =>
    match s.db.store.beginWrite with
    | (store, false) => (s.setStore store, some .operationFailed)
    | (store, true) =>
      match (s.setStore store).popAbove forkPoint.hash with
      | (s, _, some .success) =>
        match s.pushAll incoming nextHeight with
        | (s, .success) => (s.finish.1, some s.finish.2)
        | (s, ec) => (s, some ec)
      | (s, _, ec) => (s, ec)

/-! ## 3. The same writers -/

omit [Core] in
@[simp] theorem setDb_db (s : Mapped) (db : DataBase) : (s.setDb db).db = db := rfl

omit [Core] in
@[simp] theorem setStore_db (s : Mapped) (store : Store) :
    (s.setStore store).db = { s.db with store := store } := rfl

omit [Core] in
@[simp] theorem synchronize_db (s : Mapped) : s.synchronize.db = s.db := by
  unfold synchronize
  dsimp only
  split <;> rfl

omit [Core] in
theorem complete_db (s : Mapped) (b : Block) (height : Nat) :
    ((s.complete b height).1.db, (s.complete b height).2) = s.db.complete b height := by
  unfold complete DataBase.complete pushHeights
  dsimp only
  rcases s.db.pushHeights b height with ⟨db, r⟩
  cases r with
  | false => rfl
  | true =>
      dsimp only
      rw [synchronize_db]
      rfl

theorem writeBlock_db (s : Mapped) (b : Block) (height : Nat) :
    ((s.writeBlock b height).1.db, (s.writeBlock b height).2) = s.db.writeBlock b height := by
  unfold writeBlock DataBase.writeBlock
  rcases s.db.pushTransactions b height 0 1 with ⟨db, r⟩
  cases r with
  | false => rfl
  | true => exact (s.setDb db).complete_db b height

theorem insert_db (s : Mapped) (b : Block) (height : Nat) :
    ((s.insert b height).1.db, (s.insert b height).2) = s.db.insert b height := by
  unfold insert DataBase.insert
  cases s.db.verifyInsert b height with
  | success =>
      dsimp only
      rw [← s.writeBlock_db b height]
      rcases s.writeBlock b height with ⟨s', r⟩
      cases r <;> rfl
  | _ => rfl

theorem push_db (s : Mapped) (b : Block) (height : Nat) :
    ((s.push b height).1.db, (s.push b height).2) = s.db.push b height := by
  unfold push DataBase.push
  cases s.db.verifyPush b height with
  | success =>
      rcases s.db.store.beginWrite with ⟨store, r⟩
      cases r with
      | false => rfl
      | true =>
          dsimp only
          rw [← setStore_db, ← (s.setStore store).writeBlock_db b height]
          rcases (s.setStore store).writeBlock b height with ⟨s', r⟩
          cases r <;> rfl
  | _ => rfl

theorem pushUnconfirmed_db (s : Mapped) (tx : Transaction) (forks : Nat) :
    ((s.pushUnconfirmed tx forks).1.db, (s.pushUnconfirmed tx forks).2) =
      s.db.pushUnconfirmed tx forks := by
  unfold pushUnconfirmed DataBase.pushUnconfirmed
  cases s.db.verifyPushTransaction tx with
  | success =>
      rcases s.db.store.beginWrite with ⟨store, r⟩
      cases r <;> rfl
  | _ => rfl

theorem pop_db (s : Mapped) : (s.pop.1.db, s.pop.2) = s.db.pop := by
  unfold pop
  rcases s.db.pop with ⟨db, out⟩
  cases out with
  | none => rfl
  | some b =>
      dsimp only
      rw [synchronize_db]
      rfl

theorem popBlocks_db (n : Nat) (s : Mapped) (out : List Block) :
    ((popBlocks n s out).1.db, (popBlocks n s out).2) = DataBase.popBlocks n s.db out := by
  induction n generalizing s out with
  | zero => rfl
  | succ n ih =>
      unfold popBlocks DataBase.popBlocks
      rw [← s.pop_db]
      split
      · rfl
      · rcases s.pop with ⟨s', b⟩
        cases b with
        | none => rfl
        | some b => exact ih s' (b :: out)

theorem popAbove_db (s : Mapped) (forkHash : HashDigest) :
    ((s.popAbove forkHash).1.db, (s.popAbove forkHash).2) = s.db.popAbove forkHash := by
  unfold popAbove DataBase.popAbove
  cases s.db.blocks.getByHash forkHash with
  | none => rfl
  | some result =>
      cases s.db.blocks.top with
      | none => rfl
      | some top =>
          dsimp only
          rw [← popBlocks_db]
          split
          · rfl
          · split <;> rfl

/-- The tables of bucket tasks that have ended are those of some order of the transactions. -/
theorem bucketed_of_ended (db : DataBase) {b : Block} (height : Nat) {buckets : Nat}
    (hsize : b.transactions.length ≤ maxSize) (hbuckets : 0 < buckets) {schedule : List Nat}
    (h : (Bucketing.after db b height buckets schedule).Ended b) :
    ∃ bucketed : BucketedBlock, bucketed.block = b ∧
      (Bucketing.after db b height buckets schedule).db =
        bucketed.order.foldl (DataBase.pushTransaction height) db :=
  ⟨⟨b, _, (Bucketing.after_merged hsize schedule).perm hbuckets h⟩, rfl,
    Bucketing.after_pushed schedule⟩

end Mapped

/-! ## 4. What the loops allocate -/

namespace TransactionDatabase

theorem spend_free (t : TransactionDatabase) (point : Point) (height : Nat) :
    (t.spend point height).1.lookup.free = t.lookup.free := by
  unfold spend
  extract_lets t'
  have hfree : t'.lookup.free = t.lookup.free := by
    show (if _ then _ else _ : TransactionDatabase).lookup.free = _
    split <;> rfl
  split
  · exact hfree
  · split
    · exact hfree
    · exact (Table.write_free ..).trans hfree

theorem confirm_free (t : TransactionDatabase) (hash : HashDigest) (height position : Nat) :
    (t.confirm hash height position).1.lookup.free = t.lookup.free := by
  unfold confirm
  split
  · rfl
  · exact Table.write_free ..

end TransactionDatabase

theorem RecordMultimap.deleteLastRow_counters {K R : Type} [DecidableEq K] (m : RecordMultimap K R)
    (key : K) : (m.deleteLastRow key).1.map.free = m.map.free ∧
      (m.deleteLastRow key).1.records.count = m.records.count := by
  unfold deleteLastRow
  split
  · exact ⟨rfl, rfl⟩
  · split
    · exact ⟨(m.map.unlinkIfFound_frame key).2, rfl⟩
    · exact ⟨Table.write_free .., rfl⟩

namespace DataBase

theorem spendAll_free (t : TransactionDatabase) (height : Nat) (points : List Point) :
    (spendAll t height points).1.lookup.free = t.lookup.free := by
  induction points generalizing t with
  | nil => rfl
  | cons p points ih =>
      have hp := t.spend_free p height
      unfold spendAll
      rcases hs : t.spend p height with ⟨t', r⟩
      rw [hs] at hp
      cases r with
      | false => exact hp
      | true => exact (ih t').trans hp

variable [Core]

/-- The items of a record table, each one record long. -/
def records {K V : Type} (rows : List (K × V)) : List (K × V × Nat) :=
  rows.map fun row => (row.1, row.2, 1)

/-- **The effect on the index tables**: items and rows are stored, in order. -/
structure Indexed (db db' : DataBase) (spendRows : List (Point × Point))
    (historyRows : List (ShortHash × HistoryRow)) : Prop where
  spends_eq : db'.spends.lookup.toHashTable =
    db.spends.lookup.toHashTable.storeItems (records spendRows)
  history_eq : db'.history.rowsMultimap = db.history.rowsMultimap.addRows historyRows

omit [Core] in
theorem Indexed.trans {a b c : DataBase} {spendRows spendRows' : List (Point × Point)}
    {historyRows historyRows' : List (ShortHash × HistoryRow)}
    (h : Indexed a b spendRows historyRows) (h' : Indexed b c spendRows' historyRows') :
    Indexed a c (spendRows ++ spendRows') (historyRows ++ historyRows') where
  spends_eq := by
    rw [h'.spends_eq, h.spends_eq, show records (spendRows ++ spendRows') = _ from List.map_append]
    exact (run_append ..).symm
  history_eq := by
    rw [h'.history_eq, h.history_eq]
    exact (run_append ..).symm

omit [Core] in
/-- A loop whose steps store rows stores the rows of all its steps. -/
theorem indexed_foldl {X : Type} {I : DataBase → Prop} {f : DataBase → X → DataBase}
    {spendRows : X → List (Point × Point)} {historyRows : X → List (ShortHash × HistoryRow)}
    (h : ∀ db x, I db → I (f db x) ∧ Indexed db (f db x) (spendRows x) (historyRows x))
    (db : DataBase) (h0 : I db) (l : List X) :
    Indexed db (l.foldl f db) (l.flatMap spendRows) (l.flatMap historyRows) := by
  induction l generalizing db with
  | nil => exact ⟨rfl, rfl⟩
  | cons x l ih =>
      obtain ⟨hI, hx⟩ := h db x h0
      exact hx.trans (ih _ hI)

theorem pushInputs_indexed (db : DataBase) (tx : Transaction) (height : Nat) :
    Indexed db (db.pushInputs tx.hash height tx.inputs) tx.spendRows (tx.inputRows height) := by
  have hstep (db : DataBase) (i : Input × Nat) (_ : True) : True ∧
      Indexed db (pushInput tx.hash height db i) [(i.1.previousOutput, ⟨tx.hash, i.2⟩)]
        (addressRow (Core.address i.1.script)
          (HistoryDatabase.inputRow ⟨tx.hash, i.2⟩ height i.1.previousOutput)) := by
    unfold pushInput addressRow
    cases Core.address i.1.script <;> exact ⟨True.intro, rfl, rfl⟩
  have h := indexed_foldl hstep db True.intro tx.inputs.zipIdx
  rw [← List.map_eq_flatMap] at h
  exact h

theorem pushOutputs_indexed (db : DataBase) (tx : Transaction) (height : Nat) :
    Indexed db (db.pushOutputs tx.hash height tx.outputs) [] (tx.outputRows height) := by
  have hstep (db : DataBase) (o : Output × Nat) (_ : True) : True ∧
      Indexed db (pushOutput tx.hash height db o) [] (addressRow (Core.address o.1.script)
        (HistoryDatabase.outputRow ⟨tx.hash, o.2⟩ height o.1.value)) := by
    unfold pushOutput addressRow
    cases Core.address o.1.script <;> exact ⟨True.intro, rfl, rfl⟩
  have h := indexed_foldl hstep db True.intro tx.outputs.zipIdx
  rw [show (tx.outputs.zipIdx.flatMap fun _ => ([] : List (Point × Point))) = [] by simp] at h
  exact h

theorem pushIndexes_indexed (db : DataBase) (height : Nat) (tx : Transaction) (position : Nat) :
    Indexed db (db.pushIndexes height tx position) (if position ≠ 0 then tx.spendRows else [])
      (tx.historyRows position height) := by
  have hin : Indexed db (if position ≠ 0 then db.pushInputs tx.hash height tx.inputs else db)
      (if position ≠ 0 then tx.spendRows else [])
      (if position ≠ 0 then tx.inputRows height else []) := by
    split
    · exact db.pushInputs_indexed tx height
    · exact ⟨rfl, rfl⟩
  unfold pushIndexes
  extract_lets db₁ db₂
  have hout : Indexed db₁ db₂ [] (tx.outputRows height) := db₁.pushOutputs_indexed tx height
  obtain ⟨_, hs, hh⟩ := db₂.pushStealth_spec tx.hash height tx.outputs
  have h := hin.trans hout
  rw [List.append_nil] at h
  exact ⟨hs ▸ h.spends_eq, hh ▸ h.history_eq⟩

/-- **What the transactions of a block allocate** besides their own slabs: the rows of the indexes,
    and nothing in the pool. -/
theorem pushAllTransactions_tables (height : Nat) (db : DataBase) (l : List (Transaction × Nat)) :
    Indexed db (l.foldl (pushTransaction height) db)
      (l.flatMap fun tx => if height < db.settings.indexStartHeight then []
        else if tx.2 ≠ 0 then tx.1.spendRows else [])
      (l.flatMap fun tx => if height < db.settings.indexStartHeight then []
        else tx.1.historyRows tx.2 height) ∧
    (l.foldl (pushTransaction height) db).transactionsUnconfirmed.lookup.free =
      db.transactionsUnconfirmed.lookup.free := by
  constructor
  · refine indexed_foldl (I := fun d => d.settings = db.settings) (fun d tx hd => ?_) db rfl l
    refine ⟨(pushTransaction_spec height d tx).1.trans hd, ?_⟩
    rw [← hd]
    unfold pushTransaction
    by_cases hh : height < d.settings.indexStartHeight
    · simp only [hh, if_true]
      exact ⟨rfl, rfl⟩
    · simp only [hh, if_false]
      have h := pushIndexes_indexed
        { d with
          transactions := d.transactions.store tx.1 height tx.2
          transactionsUnconfirmed := (d.transactionsUnconfirmed.unlinkIfExists tx.1.hash).1 }
        height tx.1 tx.2
      exact ⟨h.spends_eq, h.history_eq⟩
  · refine run_of_step (P := fun d : DataBase => d.transactionsUnconfirmed.lookup.free =
      db.transactionsUnconfirmed.lookup.free) (fun d tx hd => ?_) l rfl
    have hunlink : (d.transactionsUnconfirmed.unlinkIfExists tx.1.hash).1.lookup.free =
        d.transactionsUnconfirmed.lookup.free := (d.transactionsUnconfirmed.lookup.unlinkIfFound_frame _).2
    unfold pushTransaction
    dsimp only
    split
    · exact hunlink.trans hd
    · have h := (pushIndexes_spec
        { d with
          transactions := d.transactions.store tx.1 height tx.2
          transactionsUnconfirmed := (d.transactionsUnconfirmed.unlinkIfExists tx.1.hash).1 }
        height tx.1 tx.2).1.pool_eq
      rw [h]
      exact hunlink.trans hd

/-- **The effect of a pop's loop**: the pool's items are stored, no other counter moves. -/
structure PutBack (db db' : DataBase) (items : List (HashDigest × TransactionSlab × Nat)) :
    Prop where
  settings_eq : db'.settings = db.settings
  store_eq : db'.store = db.store
  pool_eq : db'.transactionsUnconfirmed.lookup.toHashTable =
    db.transactionsUnconfirmed.lookup.toHashTable.storeItems items
  allocated_eq : db'.allocated = { db.allocated with
    transactionsUnconfirmed := db'.transactionsUnconfirmed.lookup.free }

omit [Core] in
theorem PutBack.refl (db : DataBase) : PutBack db db [] := ⟨rfl, rfl, rfl, rfl⟩

omit [Core] in
theorem PutBack.trans {a b c : DataBase} {items items' : List (HashDigest × TransactionSlab × Nat)}
    (h : PutBack a b items) (h' : PutBack b c items') : PutBack a c (items ++ items') where
  settings_eq := h'.settings_eq.trans h.settings_eq
  store_eq := h'.store_eq.trans h.store_eq
  pool_eq := by
    rw [h'.pool_eq, h.pool_eq]
    exact (run_append ..).symm
  allocated_eq := by
    rw [h'.allocated_eq, h.allocated_eq]

omit [Core] in
/-- A loop that stores nothing in the pool. -/
theorem putBack_nil_foldl {X : Type} {f : DataBase → X → DataBase}
    (h : ∀ db x, PutBack db (f db x) []) (db : DataBase) (l : List X) :
    PutBack db (l.foldl f db) [] :=
  run_of_step (P := fun d => PutBack db d []) (fun d x hd => hd.trans (h d x)) l (.refl db)

omit [Core] in
/-- The deletion of a history row of the key. -/
theorem deleteLastRow_putBack (db : DataBase) (key : ShortHash) :
    PutBack db { db with history := (db.history.deleteLastRow key).1 } [] := by
  obtain ⟨hmap, hrows⟩ := db.history.rowsMultimap.deleteLastRow_counters key
  refine ⟨rfl, rfl, rfl, ?_⟩
  unfold allocated HistoryDatabase.deleteLastRow
  rw [hmap, hrows]

theorem popOutputs_putBack (db : DataBase) (outputs : List Output) (height : Nat) :
    PutBack db (db.popOutputs outputs height) [] := by
  unfold popOutputs
  split
  · exact .refl db
  · refine putBack_nil_foldl (fun db o => ?_) db outputs.reverse
    unfold popOutput
    cases Core.address o.script with
    | none => exact .refl db
    | some address => exact db.deleteLastRow_putBack address

theorem popIndexes_putBack (db : DataBase) (input : Input) : PutBack db (db.popIndexes input) [] := by
  have hspends : PutBack db
      { db with spends := (db.spends.unlink input.previousOutput).1 } [] := by
    refine ⟨rfl, rfl, rfl, ?_⟩
    unfold allocated SpendDatabase.unlink
    rw [(db.spends.lookup.unlinkIfFound_frame _).2]
  unfold popIndexes
  cases Core.address input.script with
  | none => exact hspends
  | some address => exact hspends.trans (deleteLastRow_putBack _ address)

omit [Core] in
/-- Edits of slabs in place. -/
theorem transactions_putBack (db : DataBase) {t : TransactionDatabase}
    (h : t.lookup.free = db.transactions.lookup.free) :
    PutBack db { db with transactions := t } [] := by
  refine ⟨rfl, rfl, rfl, ?_⟩
  unfold allocated
  rw [h]

theorem popInputsFrom_putBack (height : Nat) (db : DataBase) (inputs : List Input) :
    PutBack db (popInputsFrom height db inputs).1 [] := by
  induction inputs generalizing db with
  | nil => exact .refl db
  | cons input inputs ih =>
      have hfree := db.transactions.spend_free input.previousOutput notSpent
      unfold popInputsFrom TransactionDatabase.unspend
      rcases hs : db.transactions.spend input.previousOutput notSpent with ⟨t, r⟩
      rw [hs] at hfree
      have ht := db.transactions_putBack hfree
      cases r with
      | false => exact ht
      | true =>
          dsimp only
          split
          · exact ht.trans (ih _)
          · exact (ht.trans (popIndexes_putBack _ input)).trans (ih _)

omit [Core] in
/-- The indexes have not grown. -/
theorem PutBack.fits {db db' : DataBase} {items : List (HashDigest × TransactionSlab × Nat)}
    (h : PutBack db db' items) (hf : db.Fits) : db'.Fits := by
  intro hi
  rw [h.settings_eq] at hi
  rw [h.allocated_eq]
  exact hf hi

/-- **The loop of `pop` stores in the pool** as soon as the first transaction is demoted, whether it
    succeeds or not. -/
theorem popTransactions_tables (height : Nat) (db : DataBase) (txs : List Transaction) :
    ∃ items, PutBack db (popTransactions height db txs).1 items ∧
      ∀ tx rest, txs = tx :: rest → db.transactions.slabs tx.hash ≠ [] → items ≠ [] := by
  induction txs generalizing db with
  | nil => exact ⟨[], .refl db, fun _ _ h => by cases h⟩
  | cons tx txs ih =>
      obtain ⟨hfound, _⟩ := unconfirm_spec db.transactions tx.hash
      have hfree := db.transactions.confirm_free tx.hash Core.unverified unconfirmed
      unfold popTransactions
      rcases hu : db.transactions.unconfirm tx.hash with ⟨t, r⟩
      rw [hu] at hfound
      rw [show db.transactions.confirm tx.hash Core.unverified unconfirmed = (t, r) from hu] at hfree
      have ht := db.transactions_putBack hfree
      cases r with
      | false =>
          refine ⟨[], ht, fun tx' rest he hne => ?_⟩
          cases he
          exact absurd (hfound.mpr hne) Bool.false_ne_true
      | true =>
          dsimp only
          have hstored : PutBack { db with transactions := t }
              { db with
                transactions := t
                transactionsUnconfirmed := db.transactionsUnconfirmed.store tx }
              [(tx.hash, tx.toSlab 0 unconfirmed, slabExtent tx)] := ⟨rfl, rfl, rfl, rfl⟩
          have hout := (ht.trans hstored).trans (popOutputs_putBack _ tx.outputs height)
          have hne (items : List (HashDigest × TransactionSlab × Nat)) :
              [(tx.hash, tx.toSlab 0 unconfirmed, slabExtent tx)] ++ items ≠ [] :=
            List.cons_ne_nil _ _
          split
          · obtain ⟨items, hrest, _⟩ := ih (popOutputs
              { db with
                transactions := t
                transactionsUnconfirmed := db.transactionsUnconfirmed.store tx } tx.outputs height)
            exact ⟨_, hout.trans hrest, fun _ _ _ _ => hne items⟩
          · unfold popInputs
            have hin := popInputsFrom_putBack height (popOutputs
              { db with
                transactions := t
                transactionsUnconfirmed := db.transactionsUnconfirmed.store tx } tx.outputs height)
              tx.inputs.reverse
            rcases hp : popInputsFrom height (popOutputs
              { db with
                transactions := t
                transactionsUnconfirmed := db.transactionsUnconfirmed.store tx } tx.outputs height)
              tx.inputs.reverse with ⟨db₂, r⟩
            rw [hp] at hin
            cases r with
            | false => exact ⟨_, hout.trans hin, fun _ _ _ _ => hne []⟩
            | true =>
                obtain ⟨items, hrest, _⟩ := ih db₂
                exact ⟨_, (hout.trans hin).trans hrest, fun _ _ _ _ => hne items⟩

end DataBase

end Libbitcoin.Database
