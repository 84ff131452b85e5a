/-
  File:      BitprimDatabase/DataBase/Push.lean
  Subject:   WHAT WRITING A BLOCK DOES to each table, as edits of the stacks under its keys.

  * `spendRows`, `historyRows` -- the index rows of a transaction and of a block, in the order
    the loops write them;
  * **`writeBlock_spec`**: the three phases succeed exactly where every previous output is
    spendable once the transactions are stored; then the pool is popped, the rows are pushed, the
    spender heights are written and the block is stored (`Written`);
  * `push_success`, `insert_success` -- a writer that answers success has written its block.
-/
import BitprimDatabase.DataBase.Slabs

namespace Libbitcoin.Database

open Lib

variable [Core]

/-! ## 1. Index rows -/

/-- A row under its address, none without an address. -/
def addressRow (address : Option ShortHash) (row : HistoryRow) : List (ShortHash × HistoryRow) :=
  match address with
  | none => []
  | some address => [(address, row)]

namespace Transaction

/-- The spends of the inputs, the first input first. -/
def spendRows (tx : Transaction) : List (Point × Point) :=
  tx.inputs.zipIdx.map fun i => (i.1.previousOutput, ⟨tx.hash, i.2⟩)

def inputRows (tx : Transaction) (height : Nat) : List (ShortHash × HistoryRow) :=
  tx.inputs.zipIdx.flatMap fun i => addressRow (Core.address i.1.script)
    (HistoryDatabase.inputRow ⟨tx.hash, i.2⟩ height i.1.previousOutput)

def outputRows (tx : Transaction) (height : Nat) : List (ShortHash × HistoryRow) :=
  tx.outputs.zipIdx.flatMap fun o => addressRow (Core.address o.1.script)
    (HistoryDatabase.outputRow ⟨tx.hash, o.2⟩ height o.1.value)

/-- The history rows of a transaction at a position: inputs behind the first position, outputs. -/
def historyRows (tx : Transaction) (position height : Nat) : List (ShortHash × HistoryRow) :=
  (if position ≠ 0 then tx.inputRows height else []) ++ tx.outputRows height

end Transaction

/-- The spends of a block, from the height on from which blocks are indexed. -/
def Block.spendRows (b : Block) (start height : Nat) : List (Point × Point) :=
  b.transactions.zipIdx.flatMap fun t =>
    if height < start then [] else if t.2 ≠ 0 then t.1.spendRows else []

def Block.historyRows (b : Block) (start height : Nat) : List (ShortHash × HistoryRow) :=
  b.transactions.zipIdx.flatMap fun t =>
    if height < start then [] else t.1.historyRows t.2 height

namespace DataBase

/-! ## 2. The indexes of a transaction -/

/-- The two states differ in the indexes only. -/
structure IndexesOnly (db db' : DataBase) : Prop where
  settings_eq : db'.settings = db.settings
  flushes_eq : db'.flushes = db.flushes
  store_eq : db'.store = db.store
  blocks_eq : db'.blocks = db.blocks
  transactions_eq : db'.transactions = db.transactions
  pool_eq : db'.transactionsUnconfirmed = db.transactionsUnconfirmed

omit [Core] in
theorem IndexesOnly.refl (db : DataBase) : IndexesOnly db db := ⟨rfl, rfl, rfl, rfl, rfl, rfl⟩

omit [Core] in
theorem IndexesOnly.trans {a b c : DataBase} (h : IndexesOnly a b) (h' : IndexesOnly b c) :
    IndexesOnly a c :=
  ⟨h'.1.trans h.1, h'.2.trans h.2, h'.3.trans h.3, h'.4.trans h.4, h'.5.trans h.5, h'.6.trans h.6⟩

omit [Core] in
theorem indexesOnly_foldl {X : Type} {f : DataBase → X → DataBase}
    (h : ∀ db x, IndexesOnly db (f db x)) (db : DataBase) (l : List X) :
    IndexesOnly db (l.foldl f db) := by
  induction l generalizing db with
  | nil => exact .refl db
  | cons x l ih => exact (h db x).trans (ih _)

theorem pushInput_indexesOnly (txHash : HashDigest) (height : Nat) (db : DataBase)
    (input : Input × Nat) : IndexesOnly db (pushInput txHash height db input) := by
  unfold pushInput
  cases Core.address input.1.script <;> exact ⟨rfl, rfl, rfl, rfl, rfl, rfl⟩

theorem pushOutput_indexesOnly (txHash : HashDigest) (height : Nat) (db : DataBase)
    (output : Output × Nat) : IndexesOnly db (pushOutput txHash height db output) := by
  unfold pushOutput
  cases Core.address output.1.script <;> exact ⟨rfl, rfl, rfl, rfl, rfl, rfl⟩

theorem pushStealth_spec (db : DataBase) (txHash : HashDigest) (height : Nat)
    (outputs : List Output) : IndexesOnly db (db.pushStealth txHash height outputs) ∧
      (db.pushStealth txHash height outputs).spends = db.spends ∧
      (db.pushStealth txHash height outputs).history = db.history := by
  have hstep (db : DataBase) (pair : Output × Output) :
      IndexesOnly db (pushStealthPair txHash height db pair) ∧
        (pushStealthPair txHash height db pair).spends = db.spends ∧
        (pushStealthPair txHash height db pair).history = db.history := by
    unfold pushStealthPair
    split <;> exact ⟨⟨rfl, rfl, rfl, rfl, rfl, rfl⟩, rfl, rfl⟩
  unfold pushStealth
  generalize outputs.zip outputs.tail = l
  induction l generalizing db with
  | nil => exact ⟨.refl db, rfl, rfl⟩
  | cons pair l ih =>
      obtain ⟨h₁, h₂, h₃⟩ := hstep db pair
      obtain ⟨i₁, i₂, i₃⟩ := ih (pushStealthPair txHash height db pair)
      exact ⟨h₁.trans i₁, i₂.trans h₂, i₃.trans h₃⟩

/-- The rows of each address. -/
def rows (db : DataBase) : Stacks ShortHash HistoryRow := db.history.rows

/-- The spends of each output point. -/
def spendsOf (db : DataBase) : Stacks Point Point := db.spends.spends

theorem pushInputs_spends (db : DataBase) (tx : Transaction) (height : Nat) :
    (db.pushInputs tx.hash height tx.inputs).spendsOf = db.spendsOf.pushAll tx.spendRows := by
  have := Stacks.foldl_pushAll spendsOf (pushInput tx.hash height)
    (fun i => [(i.1.previousOutput, ⟨tx.hash, i.2⟩)])
    (fun db i => by
      unfold pushInput spendsOf
      cases Core.address i.1.script <;> simp) db tx.inputs.zipIdx
  rw [← List.map_eq_flatMap] at this
  exact this

theorem pushInputs_rows (db : DataBase) (tx : Transaction) (height : Nat) :
    (db.pushInputs tx.hash height tx.inputs).rows = db.rows.pushAll (tx.inputRows height) :=
  Stacks.foldl_pushAll rows (pushInput tx.hash height) _
    (fun db i => by
      unfold pushInput rows addressRow
      cases Core.address i.1.script <;> simp) _ _

theorem pushOutputs_rows (db : DataBase) (tx : Transaction) (height : Nat) :
    (db.pushOutputs tx.hash height tx.outputs).rows = db.rows.pushAll (tx.outputRows height) :=
  Stacks.foldl_pushAll rows (pushOutput tx.hash height) _
    (fun db o => by
      unfold pushOutput rows addressRow
      cases Core.address o.1.script <;> simp) _ _

theorem pushOutputs_spends (db : DataBase) (txHash : HashDigest) (height : Nat)
    (outputs : List Output) :
    (db.pushOutputs txHash height outputs).spends = db.spends := by
  unfold pushOutputs
  generalize outputs.zipIdx = l
  induction l generalizing db with
  | nil => rfl
  | cons o l ih =>
      rw [List.foldl_cons, ih]
      unfold pushOutput
      cases Core.address o.1.script <;> rfl

theorem pushIndexes_spec (db : DataBase) (height : Nat) (tx : Transaction) (position : Nat) :
    IndexesOnly db (db.pushIndexes height tx position) ∧
      (db.pushIndexes height tx position).spendsOf =
        db.spendsOf.pushAll (if position ≠ 0 then tx.spendRows else []) ∧
      (db.pushIndexes height tx position).rows =
        db.rows.pushAll (tx.historyRows position height) := by
  unfold pushIndexes
  extract_lets db₁ db₂
  have h₁ : IndexesOnly db db₁ ∧
      db₁.spendsOf = db.spendsOf.pushAll (if position ≠ 0 then tx.spendRows else []) ∧
      db₁.rows = db.rows.pushAll (if position ≠ 0 then tx.inputRows height else []) := by
    show IndexesOnly db (if _ then _ else _) ∧ DataBase.spendsOf (if _ then _ else _) = _ ∧
      DataBase.rows (if _ then _ else _) = _
    by_cases hp : position ≠ 0
    · simp only [if_pos hp]
      exact ⟨indexesOnly_foldl (pushInput_indexesOnly _ _) _ _, pushInputs_spends db tx height,
        pushInputs_rows db tx height⟩
    · simp only [if_neg hp]
      exact ⟨.refl db, rfl, rfl⟩
  have h₂ : IndexesOnly db₁ db₂ := indexesOnly_foldl (pushOutput_indexesOnly _ _) _ _
  obtain ⟨h₃, hs, hh⟩ := db₂.pushStealth_spec tx.hash height tx.outputs
  refine ⟨(h₁.1.trans h₂).trans h₃, ?_, ?_⟩
  · rw [spendsOf, hs, ← h₁.2.1]
    exact congrArg SpendDatabase.spends (pushOutputs_spends db₁ _ _ _)
  · rw [rows, hh, Transaction.historyRows, Stacks.pushAll_append, ← h₁.2.2]
    exact pushOutputs_rows db₁ tx height

/-! ## 3. The transactions of a block -/

/-- The pool entries of each hash. -/
def poolOf (db : DataBase) : Stacks HashDigest TransactionSlab := db.transactionsUnconfirmed.entries

/-- The state after one transaction. -/
theorem pushTransaction_spec (height : Nat) (db : DataBase) (tx : Transaction × Nat) :
    let db' := pushTransaction height db tx
    db'.settings = db.settings ∧ db'.flushes = db.flushes ∧ db'.store = db.store ∧
      db'.blocks = db.blocks ∧ db'.transactions = db.transactions.store tx.1 height tx.2 ∧
      db'.poolOf = db.poolOf.popAll [tx.1.hash] ∧
      db'.spendsOf = db.spendsOf.pushAll (if height < db.settings.indexStartHeight then []
        else if tx.2 ≠ 0 then tx.1.spendRows else []) ∧
      db'.rows = db.rows.pushAll (if height < db.settings.indexStartHeight then []
        else tx.1.historyRows tx.2 height) := by
  have hpool : (db.transactionsUnconfirmed.unlinkIfExists tx.1.hash).1.entries =
      db.poolOf.popAll [tx.1.hash] := by
    rw [TransactionUnconfirmedDatabase.unlinkIfExists_entries]
    rfl
  unfold pushTransaction
  by_cases hh : height < db.settings.indexStartHeight
  · simp only [hh, if_true]
    exact ⟨trivial, trivial, trivial, trivial, trivial, hpool, rfl, rfl⟩
  · simp only [hh, if_false]
    obtain ⟨h, hs, hr⟩ := pushIndexes_spec
      { db with
        transactions := db.transactions.store tx.1 height tx.2
        transactionsUnconfirmed := (db.transactionsUnconfirmed.unlinkIfExists tx.1.hash).1 }
      height tx.1 tx.2
    refine ⟨h.settings_eq, h.flushes_eq, h.store_eq, h.blocks_eq, h.transactions_eq, ?_, hs, hr⟩
    rw [poolOf, h.pool_eq]
    exact hpool

/-- The state after a list of transactions. -/
theorem pushAllTransactions_spec (height : Nat) (db : DataBase) (l : List (Transaction × Nat)) :
    let db' := l.foldl (pushTransaction height) db
    db'.settings = db.settings ∧ db'.flushes = db.flushes ∧ db'.store = db.store ∧
      db'.blocks = db.blocks ∧ db'.transactions = storeAll db.transactions height l ∧
      db'.poolOf = db.poolOf.popAll (l.map fun tx => tx.1.hash) ∧
      db'.spendsOf = db.spendsOf.pushAll (l.flatMap fun tx =>
        if height < db.settings.indexStartHeight then []
        else if tx.2 ≠ 0 then tx.1.spendRows else []) ∧
      db'.rows = db.rows.pushAll (l.flatMap fun tx =>
        if height < db.settings.indexStartHeight then [] else tx.1.historyRows tx.2 height) := by
  induction l generalizing db with
  | nil => exact ⟨rfl, rfl, rfl, rfl, rfl, rfl, rfl, rfl⟩
  | cons tx l ih =>
      obtain ⟨h₁, h₂, h₃, h₄, h₅, h₆, h₇, h₈⟩ := pushTransaction_spec height db tx
      obtain ⟨i₁, i₂, i₃, i₄, i₅, i₆, i₇, i₈⟩ := ih (pushTransaction height db tx)
      rw [h₁] at i₇ i₈
      refine ⟨i₁.trans h₁, i₂.trans h₂, i₃.trans h₃, i₄.trans h₄, ?_, ?_, ?_, ?_⟩
      · rw [List.foldl_cons, i₅, h₅]
        rfl
      · rw [List.foldl_cons, i₆, h₆]
        rfl
      · rw [List.foldl_cons, i₇, h₇, List.flatMap_cons, Stacks.pushAll_append]
      · rw [List.foldl_cons, i₈, h₈, List.flatMap_cons, Stacks.pushAll_append]

/-- Bucket 0 of 1 is every transaction. -/
theorem pushTransactions_eq (db : DataBase) (b : Block) (height : Nat) :
    db.pushTransactions b height 0 1 =
      (b.transactions.zipIdx.foldl (pushTransaction height) db, true) := by
  unfold pushTransactions
  rw [List.filter_eq_self.mpr]
  intro tx _
  rw [Nat.mod_one]
  rfl

/-! ## 4. A written block -/

/-- The slabs once the transactions of a block are stored, before the spends. -/
def stored (db : DataBase) (b : Block) (height : Nat) : Slabs :=
  (storeAll db.transactions height b.transactions.zipIdx).slabs

/-- **The effect of writing a block**, the locks apart. -/
structure Written (db : DataBase) (b : Block) (height : Nat) (db' : DataBase) : Prop where
  settings_eq : db'.settings = db.settings
  flushes_eq : db'.flushes = db.flushes
  blocks_eq : db'.blocks = db.blocks.store b height
  slabs_eq : db'.transactions.slabs = spendSlabs (db.stored b height) b.previousOutputs height
  pool_eq : db'.poolOf = db.poolOf.popAll b.hashes
  spends_eq : db'.spendsOf = db.spendsOf.pushAll (b.spendRows db.settings.indexStartHeight height)
  rows_eq : db'.rows = db.rows.pushAll (b.historyRows db.settings.indexStartHeight height)

omit [Core] in
theorem zipIdx_map_hash (b : Block) :
    (b.transactions.zipIdx.map fun tx => tx.1.hash) = b.hashes := by
  rw [show (fun tx : Transaction × Nat => tx.1.hash) = Transaction.hash ∘ Prod.fst from rfl,
    ← List.map_map, List.zipIdx_map_fst]
  rfl

omit [Core] in
theorem hashes_zipIdx (b : Block) :
    b.hashes.zipIdx = b.transactions.zipIdx.map fun tx => (tx.1.hash, tx.2) := by
  unfold Block.hashes
  rw [List.zipIdx_map]
  rfl

/-- **The three phases.** -/
theorem writeBlock_spec (db : DataBase) (b : Block) (height : Nat) :
    ((db.writeBlock b height).2 = true ↔
        ∀ p ∈ b.previousOutputs, Spendable (db.stored b height) p height) ∧
      ((db.writeBlock b height).2 = true →
        Written db b height (db.writeBlock b height).1 ∧
          (db.writeBlock b height).1.store = db.store) := by
  obtain ⟨h₁, h₂, h₃, h₄, h₅, h₆, h₇, h₈⟩ := pushAllTransactions_spec height db b.transactions.zipIdx
  unfold writeBlock
  rw [pushTransactions_eq]
  simp only [pushHeights]
  generalize b.transactions.zipIdx.foldl (pushTransaction height) db = db₁ at *
  obtain ⟨hiff, hslabs⟩ := spendAll_spec db₁.transactions height b.previousOutputs
  rw [h₅] at hiff hslabs ⊢
  rcases hs : spendAll (storeAll db.transactions height b.transactions.zipIdx) height
    b.previousOutputs with ⟨t, r⟩
  rw [hs] at hiff hslabs
  cases r with
  | false => exact ⟨hiff, fun h => by cases h⟩
  | true =>
      refine ⟨hiff, fun _ => ⟨⟨h₁, h₂, ?_, hslabs rfl, ?_, h₇, h₈⟩, h₃⟩⟩
      · show db₁.blocks.store b height = _
        rw [h₄]
      · show db₁.poolOf = _
        rw [h₆, zipIdx_map_hash]

/-- `insert` answers success exactly where the block passes, and is written. -/
theorem insert_success (db : DataBase) (b : Block) (height : Nat) :
    ((db.insert b height).2 = .success ↔ db.verifyInsert b height = .success ∧
        ∀ p ∈ b.previousOutputs, Spendable (db.stored b height) p height) ∧
      ((db.insert b height).2 = .success →
        Written db b height (db.insert b height).1 ∧ (db.insert b height).1.store = db.store) := by
  obtain ⟨hiff, hw⟩ := db.writeBlock_spec b height
  unfold insert
  cases hv : db.verifyInsert b height with
  | success =>
      rcases hb : db.writeBlock b height with ⟨db', r⟩
      rw [hb] at hiff hw
      cases r with
      | false => exact ⟨by simpa using hiff, fun h => by cases h⟩
      | true => exact ⟨by simpa using hiff, fun _ => hw rfl⟩
  | _ => exact ⟨by simp, fun h => by cases h⟩

theorem writeBlock_failure {db : DataBase} {b : Block} {height : Nat}
    (h : (db.writeBlock b height).2 = false) : (db.writeBlock b height).1.blocks = db.blocks := by
  obtain ⟨_, _, _, h₄, _⟩ := pushAllTransactions_spec height db b.transactions.zipIdx
  unfold writeBlock at h ⊢
  rw [pushTransactions_eq] at h ⊢
  simp only [pushHeights] at h ⊢
  rcases hsp : spendAll (b.transactions.zipIdx.foldl (pushTransaction height) db).transactions height
    b.previousOutputs with ⟨t, r⟩
  rw [hsp] at h
  cases r with
  | false => exact h₄
  | true => cases h

/-- A block push fails before the block is stored, or wrote the block; only the flush can fail
    behind that. -/
theorem push_cases (db : DataBase) (b : Block) (height : Nat) :
    ((db.push b height).2 ≠ .success ∧ (db.push b height).1.blocks = db.blocks) ∨
      (db.verifyPush b height = .success ∧
        (∀ p ∈ b.previousOutputs, Spendable (db.stored b height) p height) ∧
        Written db b height (db.push b height).1) := by
  unfold push
  cases hv : db.verifyPush b height with
  | success =>
      rcases hb : db.store.beginWrite with ⟨s, r⟩
      cases r with
      | false => exact .inl ⟨by simp, rfl⟩
      | true =>
          obtain ⟨hiff, hw⟩ := writeBlock_spec { db with store := s } b height
          have hf := @writeBlock_failure _ { db with store := s } b height
          simp only
          rcases hwb : writeBlock { db with store := s } b height with ⟨db', r'⟩
          rw [hwb] at hiff hw hf
          cases r' with
          | false => exact .inl ⟨by simp, hf rfl⟩
          | true =>
              obtain ⟨hw, _⟩ := hw rfl
              exact .inr ⟨trivial, hiff.mp rfl, hw.1, hw.2, hw.3, hw.4, hw.5, hw.6, hw.7⟩
  | _ => exact .inl ⟨by simp, rfl⟩

/-- A block push that answers success passed the checks and wrote the block. -/
theorem push_success {db : DataBase} {b : Block} {height : Nat}
    (h : (db.push b height).2 = .success) :
    db.verifyPush b height = .success ∧
      (∀ p ∈ b.previousOutputs, Spendable (db.stored b height) p height) ∧
      Written db b height (db.push b height).1 :=
  (db.push_cases b height).resolve_left fun hf => hf.1 h

/-- The locks let a writer through: the counter is even, and a flush succeeds. -/
def Writable (db : DataBase) : Prop :=
  Store.isWriteLocked db.store.sequence = false ∧
    (db.store.flushEachWrite = true → db.flushes = true)

/-- **A block push comes to `end_write`** where the checks pass, the previous outputs are spendable and
    `begin_write` lets it through. -/
theorem push_finishes {db : DataBase} {b : Block} {height : Nat}
    (hv : db.verifyPush b height = .success)
    (hs : ∀ p ∈ b.previousOutputs, Spendable (db.stored b height) p height)
    (heven : Store.isWriteLocked db.store.sequence = false) :
    ∃ db', db.push b height = db'.finish ∧
      Written { db with store := db.store.beginWrite.1 } b height db' ∧
      db'.store = db.store.beginWrite.1 := by
  have hbegin : db.store.beginWrite = (db.store.beginWrite.1, true) := by
    rw [Store.beginWrite_eq, heven]
    rfl
  obtain ⟨hiff, hwrite⟩ := writeBlock_spec { db with store := db.store.beginWrite.1 } b height
  have hr := hiff.mpr hs
  rcases hwb : writeBlock { db with store := db.store.beginWrite.1 } b height with ⟨db', r⟩
  rw [hwb] at hr hwrite
  cases hr
  obtain ⟨hwritten, hstore⟩ := hwrite rfl
  refine ⟨db', ?_, hwritten, hstore⟩
  unfold push
  rw [hv, hbegin]
  dsimp only
  rw [hwb]

/-- **A block push answers success** where the checks pass, the previous outputs are spendable and
    the locks let it through; and it leaves them so. -/
theorem push_of_checks {db : DataBase} {b : Block} {height : Nat}
    (hv : db.verifyPush b height = .success)
    (hs : ∀ p ∈ b.previousOutputs, Spendable (db.stored b height) p height) (hw : db.Writable) :
    (db.push b height).2 = .success ∧ (db.push b height).1.Writable := by
  obtain ⟨heven, hflush⟩ := hw
  obtain ⟨db', hpush, hwritten, hstore⟩ := push_finishes hv hs heven
  have hflushes : db'.flushes = db.flushes := hwritten.flushes_eq
  have hodd : Store.isWriteLocked db.store.beginWrite.1.sequence = true := by
    rw [Store.beginWrite_sequence, Store.isWriteLocked_succ, heven]
    rfl
  have hflush' : db.store.beginWrite.1.flushEachWrite = true → db.flushes = true := by
    rw [Store.beginWrite_flushEachWrite]
    exact hflush
  rw [hpush, finish, hstore, hflushes, Store.endWrite_eq hodd]
  refine ⟨?_, ?_, hflush'⟩
  · cases hf : db.store.beginWrite.1.flushEachWrite with
    | false => rfl
    | true => rw [hflush' hf]; rfl
  · rw [Store.isWriteLocked_succ, hodd]
    rfl

/-- A transaction push that answers success passed the check and stored the transaction in the
    transaction table and the pool. -/
theorem pushUnconfirmed_success {db : DataBase} {tx : Transaction} {forks : Nat}
    (h : (db.pushUnconfirmed tx forks).2 = .success) :
    db.verifyPushTransaction tx = .success ∧
      ∃ store, (db.pushUnconfirmed tx forks).1 =
        { db with
          store := store
          transactions := db.transactions.store tx forks unconfirmed
          transactionsUnconfirmed := db.transactionsUnconfirmed.store tx } := by
  unfold pushUnconfirmed at h ⊢
  cases hv : db.verifyPushTransaction tx with
  | success =>
      rw [hv] at h
      rcases hb : db.store.beginWrite with ⟨s, r⟩
      rw [hb] at h
      cases r with
      | false => cases h
      | true => exact ⟨rfl, _, rfl⟩
  | _ => rw [hv] at h; cases h

end DataBase

end Libbitcoin.Database
