/-
  File:      BitprimDatabase/DataBase/Visible.lean
  Subject:   **WHAT A READER FINDS OF A PUSHED BLOCK**: the block by height and by hash, its
             transactions confirmed, the outputs it spends spent, its own outputs not spent, none
             of it in the pool, and its rows in the indexes.

  * `Visible` -- all of it, in terms of the queries of the tables;
  * `Fresh` -- nothing of the block is left over from an earlier life: the outputs of slabs to be
    confirmed in place are not spent, and no history row of the block is there yet;
  * **`visible_iff_fresh`**: a successful push makes its block visible exactly where the block is
    fresh. A pop does not reset the spender heights of the outputs it demotes, and deletes the
    newest row of an address, which is the popped block's own only if blocks leave in the reverse
    of the order they came in.
-/
import BitprimDatabase.DataBase.Pool

namespace Libbitcoin.Database

open Lib

variable [Core]

/-! ## 1. The rows of a block -/

omit [Core] in
theorem exists_zipIdx {A : Type} {a : A} {l : List A} (h : a ∈ l) : ∃ i, (a, i) ∈ l.zipIdx := by
  obtain ⟨i, hi, rfl⟩ := List.mem_iff_getElem.mp h
  exact ⟨i, List.mem_zipIdx_iff_getElem?.mpr (List.getElem?_eq_getElem hi)⟩

/-- A row the history owes an address: of an output of the block, or of an input that is not a
    coinbase's. -/
def Block.RowDue (b : Block) (height : Nat) (address : ShortHash) (row : HistoryRow) : Prop :=
  ∃ tx ∈ b.transactions,
    (∃ o ∈ tx.outputs.zipIdx, Core.address o.1.script = some address ∧
      row = ⟨.output, ⟨tx.hash, o.2⟩, height, o.1.value⟩) ∨
    (tx.isCoinbase = false ∧ ∃ i ∈ tx.inputs.zipIdx, Core.address i.1.script = some address ∧
      row = ⟨.spend, ⟨tx.hash, i.2⟩, height, Core.checksum i.1.previousOutput⟩)

omit [Core] in
theorem mem_addressRow {address : Option ShortHash} {row : HistoryRow}
    {kv : ShortHash × HistoryRow} :
    kv ∈ addressRow address row ↔ address = some kv.1 ∧ kv.2 = row := by
  obtain ⟨key, value⟩ := kv
  cases address with
  | none => simp [addressRow]
  | some a => simp [addressRow, eq_comm]

/-- Only the first transaction is a coinbase. -/
def Block.CoinbaseFirst (b : Block) : Prop :=
  ∀ t ∈ b.transactions.zipIdx, t.2 = 0 ↔ t.1.isCoinbase = true

/-- The outputs of a block arrive marked not spent. -/
def Block.ArrivesUnspent (b : Block) : Prop :=
  ∀ tx ∈ b.transactions, ∀ o ∈ tx.outputs, o.spenderHeight = notSpent

instance (b : Block) : Decidable b.CoinbaseFirst :=
  inferInstanceAs (Decidable (∀ t ∈ b.transactions.zipIdx, t.2 = 0 ↔ t.1.isCoinbase = true))

instance (b : Block) : Decidable b.ArrivesUnspent :=
  inferInstanceAs (Decidable (∀ tx ∈ b.transactions, ∀ o ∈ tx.outputs, o.spenderHeight = notSpent))

omit [Core] in
theorem Block.CoinbaseFirst.pos_iff {b : Block} (hc : b.CoinbaseFirst) {t : Transaction × Nat}
    (ht : t ∈ b.transactions.zipIdx) : t.2 ≠ 0 ↔ t.1.isCoinbase = false := by
  rw [Ne, hc t ht, Bool.not_eq_true]

/-- The rows the loops write are the rows due. -/
theorem mem_historyRows {b : Block} (hc : b.CoinbaseFirst) {start height : Nat}
    (hs : start ≤ height) (hh : height ≤ maxUint32) {kv : ShortHash × HistoryRow} :
    kv ∈ b.historyRows start height ↔ b.RowDue height kv.1 kv.2 := by
  have hrow (t : Transaction × Nat) (ht : t ∈ b.transactions.zipIdx) :
      kv ∈ t.1.historyRows t.2 height ↔
        (∃ o ∈ t.1.outputs.zipIdx, Core.address o.1.script = some kv.1 ∧
          kv.2 = ⟨.output, ⟨t.1.hash, o.2⟩, height, o.1.value⟩) ∨
        (t.1.isCoinbase = false ∧ ∃ i ∈ t.1.inputs.zipIdx,
          Core.address i.1.script = some kv.1 ∧
            kv.2 = ⟨.spend, ⟨t.1.hash, i.2⟩, height, Core.checksum i.1.previousOutput⟩) := by
    unfold Transaction.historyRows Transaction.inputRows Transaction.outputRows
      HistoryDatabase.inputRow HistoryDatabase.outputRow
    rw [u32_of_le hh, ← hc.pos_iff ht, or_comm]
    by_cases hp : t.2 ≠ 0
    · simp [hp, mem_addressRow]
    · simp [hp, mem_addressRow]
  unfold Block.historyRows Block.RowDue
  rw [List.mem_flatMap]
  simp only [if_neg (Nat.not_lt.mpr hs)]
  constructor
  · intro ⟨t, ht, h⟩
    exact ⟨t.1, List.fst_mem_of_mem_zipIdx ht, (hrow t ht).mp h⟩
  · intro ⟨tx, htx, h⟩
    obtain ⟨i, ht⟩ := exists_zipIdx htx
    exact ⟨(tx, i), ht, (hrow _ ht).mpr h⟩

/-- Two rows of different outputs or inputs. -/
def Apart (kv kv' : ShortHash × HistoryRow) : Prop :=
  (kv.2.kind, kv.2.point) ≠ (kv'.2.kind, kv'.2.point)

theorem inputRows_apart (tx : Transaction) (height : Nat) :
    (tx.inputRows height).Pairwise Apart := by
  unfold Transaction.inputRows
  refine List.pairwise_flatMap.mpr ⟨fun i _ => ?_, (DataBase.zipIdx_pairwise _ 0).imp fun hlt => ?_⟩
  · cases Core.address i.1.script <;> simp [addressRow]
  · intro kv hkv kv' hkv' he
    rw [(mem_addressRow.mp hkv).2, (mem_addressRow.mp hkv').2] at he
    simp [HistoryDatabase.inputRow] at he
    omega

theorem outputRows_apart (tx : Transaction) (height : Nat) :
    (tx.outputRows height).Pairwise Apart := by
  unfold Transaction.outputRows
  refine List.pairwise_flatMap.mpr ⟨fun o _ => ?_, (DataBase.zipIdx_pairwise _ 0).imp fun hlt => ?_⟩
  · cases Core.address o.1.script <;> simp [addressRow]
  · intro kv hkv kv' hkv' he
    rw [(mem_addressRow.mp hkv).2, (mem_addressRow.mp hkv').2] at he
    simp [HistoryDatabase.outputRow] at he
    omega

/-- The rows of a transaction have its hash, and an input row is no output row. -/
theorem historyRows_kind {tx : Transaction} {height : Nat} {kv : ShortHash × HistoryRow} :
    (kv ∈ tx.inputRows height → kv.2.kind = .spend ∧ kv.2.point.hash = tx.hash) ∧
      (kv ∈ tx.outputRows height → kv.2.kind = .output ∧ kv.2.point.hash = tx.hash) := by
  constructor
  · intro h
    obtain ⟨i, _, h⟩ := List.mem_flatMap.mp h
    rw [(mem_addressRow.mp h).2]
    exact ⟨rfl, rfl⟩
  · intro h
    obtain ⟨o, _, h⟩ := List.mem_flatMap.mp h
    rw [(mem_addressRow.mp h).2]
    exact ⟨rfl, rfl⟩

theorem mem_historyRows_hash {tx : Transaction} {position height : Nat}
    {kv : ShortHash × HistoryRow} (h : kv ∈ tx.historyRows position height) :
    kv.2.point.hash = tx.hash := by
  unfold Transaction.historyRows at h
  rcases List.mem_append.mp h with h | h
  · split at h
    · exact (historyRows_kind.1 h).2
    · exact absurd h List.not_mem_nil
  · exact (historyRows_kind.2 h).2

/-- **With distinct hashes the rows of a block are of different outputs and inputs.** -/
theorem blockRows_apart {b : Block} (hd : b.hashes.Nodup) (start height : Nat) :
    (b.historyRows start height).Pairwise Apart := by
  have hn : b.transactions.zipIdx.Pairwise fun t t' => t.1.hash ≠ t'.1.hash := by
    have := hd
    rw [← DataBase.zipIdx_map_hash] at this
    exact List.pairwise_map.mp this
  unfold Block.historyRows
  refine List.pairwise_flatMap.mpr ⟨fun t _ => ?_, hn.imp fun hne kv hkv kv' hkv' he => ?_⟩
  · split
    · exact .nil
    · unfold Transaction.historyRows
      refine List.pairwise_append.mpr ⟨?_, outputRows_apart _ _, fun kv hkv kv' hkv' he => ?_⟩
      · split
        · exact inputRows_apart _ _
        · exact .nil
      · split at hkv
        · have h := (historyRows_kind.1 hkv).1
          have h' := (historyRows_kind.2 hkv').1
          rw [Prod.mk.injEq, h, h'] at he
          exact absurd he.1 (by decide)
        · exact absurd hkv List.not_mem_nil
  · split at hkv
    · exact absurd hkv List.not_mem_nil
    · rw [if_neg (by assumption)] at hkv'
      rw [Prod.mk.injEq] at he
      exact hne (by rw [← mem_historyRows_hash hkv, ← mem_historyRows_hash hkv', he.2])

namespace DataBase

/-! ## 2. What a reader finds -/

/-- The history rows of an output or an input. -/
def rowsAt (db : DataBase) (address : ShortHash) (kind : PointKind) (point : Point) :
    List HistoryRow :=
  (db.history.get address 0 0).filter fun row => row.kind = kind ∧ row.point = point

/-- **The block is fully visible.** -/
structure Visible (db : DataBase) (b : Block) (height : Nat) : Prop where
  top : db.blocks.top = some height
  block : ∃ r, db.blocks.get height = some r ∧ db.blocks.getByHash b.header.hash = some r ∧
    r.header = b.header ∧ r.height = height ∧ r.slab.hashes = b.hashes
  confirmed : ∀ t ∈ b.transactions.zipIdx, ∀ forkHeight ≥ height, ∃ slab,
    db.transactions.get t.1.hash forkHeight true = some slab ∧ slab.height = height ∧
      slab.position = t.2 ∧ (slab.transaction t.1.hash).content = t.1.content
  spent : ∀ tx ∈ b.transactions, tx.isCoinbase = false → ∀ input ∈ tx.inputs, ∃ slab o,
    db.transactions.get input.previousOutput.hash height true = some slab ∧
      slab.outputs[input.previousOutput.index]? = some o ∧ o.spenderHeight = height
  unspent : ∀ tx ∈ b.transactions, ∀ i < tx.outputs.length, ⟨tx.hash, i⟩ ∉ b.previousOutputs →
    ∃ slab o, db.transactions.get tx.hash height true = some slab ∧
      slab.outputs[i]? = some o ∧ o.spenderHeight = notSpent
  pool : ∀ tx ∈ b.transactions, db.transactionsUnconfirmed.get tx.hash = none
  spends : db.settings.indexStartHeight ≤ height → ∀ tx ∈ b.transactions, tx.isCoinbase = false →
    ∀ i ∈ tx.inputs.zipIdx, db.spends.get i.1.previousOutput = ⟨tx.hash, i.2⟩
  history : db.settings.indexStartHeight ≤ height → ∀ address row,
    b.RowDue height address row → db.rowsAt address row.kind row.point = [row]

/-- **Nothing of the block is left over**: the outputs of a slab to be confirmed in place are not
    spent, and no output or input of the block has a history row. -/
structure Fresh (db : DataBase) (b : Block) (height : Nat) : Prop where
  outputs : ∀ t ∈ b.transactions.zipIdx, t.2 ≠ 0 → t.1.pooled = true → ∀ slab,
    db.transactions.get t.1.hash maxSize false = some slab → ∀ i o, slab.outputs[i]? = some o →
      ⟨t.1.hash, i⟩ ∉ b.previousOutputs → o.spenderHeight = notSpent
  rows : db.settings.indexStartHeight ≤ height → ∀ address row,
    b.RowDue height address row → db.rowsAt address row.kind row.point = []

omit [Core] in
theorem rowsAt_eq (db : DataBase) (address : ShortHash) (kind : PointKind) (point : Point) :
    db.rowsAt address kind point =
      (db.rows address).filter fun row => row.kind = kind ∧ row.point = point := by
  unfold rowsAt
  rw [HistoryDatabase.get_all]
  rfl

/-! ## 3. The parts of a written block -/

section Written

variable {content : HashDigest → Content} {db db' : DataBase} {b : Block} {height : Nat}

theorem Written.top_eq (hw : Written db b height db') (hcount : db.blocks.count = height)
    (hh : height < maxUint32) : db'.blocks.top = some height := by
  rw [BlockDatabase.top_eq_some, hw.blocks_eq, BlockDatabase.store_count _ _ hh, hcount]
  exact Nat.max_eq_right (Nat.le_succ height)

/-- The block is found by its height and by its hash. -/
theorem Written.block_eq (hw : Written db b height db') (hh : height < maxUint32) :
    db'.blocks.get height = some ⟨b.header.hash, b.toSlab height⟩ ∧
      db'.blocks.getByHash b.header.hash = some ⟨b.header.hash, b.toSlab height⟩ := by
  rw [hw.blocks_eq]
  refine ⟨BlockDatabase.store_get_same _ _ hh, ?_⟩
  rw [BlockDatabase.getByHash_eq, BlockDatabase.store_slabs, Stacks.push_same]
  rfl

/-- The newest slab of a transaction of the block: the outputs stored, with the spends of the
    block. -/
theorem Written.head (hw : Written db b height db') (hd : b.hashes.Nodup) (ha : Asserted b height)
    {t : Transaction × Nat} (ht : t ∈ b.transactions.zipIdx) : ∃ slab : TransactionSlab,
      (∀ forkHeight ≥ height, db'.transactions.get t.1.hash forkHeight true =
        some (slab.spendAt (indexesOf b.previousOutputs t.1.hash) height)) ∧
      slab.height = height ∧ slab.position = t.2 ∧
      slab.outputs = db.transactions.outputsStored t.1 t.2 := by
  obtain ⟨slab, hs, hsh, hsp, ho⟩ := db.stored_head hd height ht
  obtain ⟨hu, hne⟩ := position_bound ha.2 ht
  rw [u32_of_lt ha.1] at hsh
  rw [hu] at hsp
  refine ⟨slab, fun forkHeight hf => db'.transactions.find_true.mpr ⟨?_, ?_, ?_⟩, hsh, hsp, ho⟩
  · rw [hw.slabs_eq, spendSlabs_head, hs]
    rfl
  · show slab.height ≤ forkHeight
    rw [hsh]
    exact hf
  · show slab.position ≠ unconfirmed
    rw [hsp]
    exact hne

/-- The outputs the block spends are spent at its height. -/
theorem Written.spent (hw : Written db b height db') (hh : height < maxUint32)
    (hs : ∀ p ∈ b.previousOutputs, Spendable (db.stored b height) p height) :
    ∀ p ∈ b.previousOutputs, ∃ slab o, db'.transactions.get p.hash height true = some slab ∧
      slab.outputs[p.index]? = some o ∧ o.spenderHeight = height := by
  intro p hp
  obtain ⟨slab, hslab, hle, hne, hi⟩ := hs p hp
  have hm : p.index ∈ indexesOf b.previousOutputs p.hash := mem_indexesOf.mpr hp
  refine ⟨slab.spendAt (indexesOf b.previousOutputs p.hash) height,
    { slab.outputs[p.index] with spenderHeight := u32 height }, ?_, ?_, u32_of_lt hh⟩
  · refine db'.transactions.find_true.mpr ⟨?_, hle, hne⟩
    rw [hw.slabs_eq, spendSlabs_head, hslab]
    rfl
  · rw [spendAt_getElem?, List.getElem?_eq_getElem hi]
    simp [hm]

/-- The spends of the inputs. -/
theorem Written.spends (hw : Written db b height db') (hc : b.CoinbaseFirst)
    (hn : b.previousOutputs.Nodup) (hs : db.settings.indexStartHeight ≤ height) :
    ∀ tx ∈ b.transactions, tx.isCoinbase = false → ∀ i ∈ tx.inputs.zipIdx,
      db'.spends.get i.1.previousOutput = ⟨tx.hash, i.2⟩ := by
  intro tx htx hcb i hi
  obtain ⟨k, ht⟩ := exists_zipIdx htx
  have hpos := (hc.pos_iff ht).mpr hcb
  have hkeys := blockSpendRows_keys b db.settings.indexStartHeight height
  rw [if_neg (Nat.not_lt.mpr hs)] at hkeys
  have hm : (i.1.previousOutput, (⟨tx.hash, i.2⟩ : Point)) ∈
      b.spendRows db.settings.indexStartHeight height := by
    unfold Block.spendRows
    refine List.mem_flatMap.mpr ⟨(tx, k), ht, ?_⟩
    rw [if_neg (Nat.not_lt.mpr hs), if_pos hpos]
    exact List.mem_map_of_mem hi
  have htop := Stacks.pushAll_of_mem db.spendsOf (by rw [hkeys]; exact hn) hm
  rw [← hw.spends_eq] at htop
  rw [SpendDatabase.get_eq]
  exact congrArg (fun l : List Point => l.head?.getD ⟨nullHash, 0⟩) htop

omit [Core] in
/-- A row whose place no other row of the list has is the only one there. -/
theorem filter_apart {l : List (ShortHash × HistoryRow)} (h : l.Pairwise Apart)
    {kv : ShortHash × HistoryRow} (hm : kv ∈ l) :
    l.filter (fun kv' => kv'.2.kind = kv.2.kind ∧ kv'.2.point = kv.2.point) = [kv] := by
  induction l with
  | nil => cases hm
  | cons kv' l ih =>
      obtain ⟨hfirst, hl⟩ := List.pairwise_cons.mp h
      rcases List.mem_cons.mp hm with rfl | hm
      · rw [List.filter_cons_of_pos (by simp), List.filter_eq_nil_iff.mpr]
        intro kv' hkv' he
        have he : kv'.2.kind = kv.2.kind ∧ kv'.2.point = kv.2.point := by simpa using he
        exact hfirst kv' hkv' (by rw [he.1, he.2])
      · rw [List.filter_cons_of_neg, ih hl hm]
        intro he
        have he : kv'.2.kind = kv.2.kind ∧ kv'.2.point = kv.2.point := by simpa using he
        exact hfirst kv hm (by rw [he.1, he.2])

/-- A row due comes on top of those already there. -/
theorem Written.rowsAt_eq (hw : Written db b height db') (hd : b.hashes.Nodup)
    {kv : ShortHash × HistoryRow}
    (hm : kv ∈ b.historyRows db.settings.indexStartHeight height) :
    db'.rowsAt kv.1 kv.2.kind kv.2.point =
      kv.2 :: db.rowsAt kv.1 kv.2.kind kv.2.point := by
  have hone := filter_apart (blockRows_apart hd _ _) hm
  rw [DataBase.rowsAt_eq, DataBase.rowsAt_eq, hw.rows_eq, Stacks.pushAll_apply, List.filter_append,
    List.filter_reverse, List.filter_map, List.filter_comm]
  have hpred : ((fun row : HistoryRow => decide (row.kind = kv.2.kind ∧ row.point = kv.2.point)) ∘
      Prod.snd) = fun kv' : ShortHash × HistoryRow =>
        decide (kv'.2.kind = kv.2.kind ∧ kv'.2.point = kv.2.point) := rfl
  rw [hpred, hone]
  simp

omit [Core] in
/-- The lists of outputs of a hash are as long as the content says. -/
theorem outputsStored_length {db : DataBase} (hs : GenuineSlabs content db.transactions.slabs)
    {tx : Transaction} (hg : Database.Genuine content tx) (position : Nat) :
    (db.transactions.outputsStored tx position).length = tx.outputs.length := by
  unfold TransactionDatabase.outputsStored
  split
  · rename_i hp
    cases hslabs : db.transactions.slabs tx.hash with
    | nil => simp [TransactionDatabase.inPlace, hslabs] at hp
    | cons slab rest =>
        have hc : slab.content = tx.content :=
          (hs tx.hash slab (by rw [hslabs]; exact List.mem_cons_self)).trans hg.symm
        have hl : (contentOf slab.outputs).length = (contentOf tx.outputs).length :=
          congrArg (fun c : Content => c.outputs.length) hc
        simpa [contentOf] using hl
  · exact List.length_map _

omit [Core] in
/-- The outputs of a transaction just stored are not spent where the store wrote them; a slab
    rewritten in place keeps its own. -/
theorem outputsStored_unspent_iff {db : DataBase} {t : Transaction × Nat}
    (hu : ∀ o ∈ t.1.outputs, o.spenderHeight = notSpent) (hne : t.2 ≠ unconfirmed)
    (p : Nat → Prop) :
    (∀ i o, (db.transactions.outputsStored t.1 t.2)[i]? = some o → p i →
        o.spenderHeight = notSpent) ↔
      (t.2 ≠ 0 → t.1.pooled = true → ∀ slab,
        db.transactions.get t.1.hash maxSize false = some slab → ∀ i o, slab.outputs[i]? = some o →
          p i → o.spenderHeight = notSpent) := by
  unfold TransactionDatabase.outputsStored TransactionDatabase.get
  rw [TransactionDatabase.find_false]
  by_cases hp : db.transactions.inPlace t.1 t.2 = true
  · rw [if_pos hp]
    unfold TransactionDatabase.inPlace at hp
    simp only [Bool.and_eq_true, bne_iff_ne, ne_eq] at hp
    obtain ⟨⟨⟨_, h0⟩, hpool⟩, hslabs⟩ := hp
    cases hs : db.transactions.slabs t.1.hash with
    | nil => simp [hs] at hslabs
    | cons slab rest => simp [h0, hpool]
  · rw [if_neg hp]
    refine iff_of_true (fun i o ho _ => ?_) fun h0 hpool slab hs => absurd ?_ hp
    · rw [List.getElem?_map] at ho
      obtain ⟨o', ho', rfl⟩ := Option.map_eq_some_iff.mp ho
      show u32 o'.spenderHeight = notSpent
      rw [hu o' (List.mem_of_getElem? ho')]
      rfl
    · unfold TransactionDatabase.inPlace
      cases hslabs : db.transactions.slabs t.1.hash with
      | nil =>
          rw [hslabs] at hs
          cases hs
      | cons _ _ => simp [hne, h0, hpool]

/-- **The outputs of a written block are not spent**, those the block spends apart, exactly where
    the outputs stored are not. -/
theorem Written.unspent_iff (hw : Written db b height db') (hd : b.hashes.Nodup)
    (ha : Asserted b height) (hs : GenuineSlabs content db.transactions.slabs)
    (hg : b.Genuine content) {t : Transaction × Nat} (ht : t ∈ b.transactions.zipIdx) :
    (∀ i < t.1.outputs.length, ⟨t.1.hash, i⟩ ∉ b.previousOutputs → ∃ slab o,
        db'.transactions.get t.1.hash height true = some slab ∧ slab.outputs[i]? = some o ∧
          o.spenderHeight = notSpent) ↔
      ∀ i o, (db.transactions.outputsStored t.1 t.2)[i]? = some o →
        ⟨t.1.hash, i⟩ ∉ b.previousOutputs → o.spenderHeight = notSpent := by
  obtain ⟨slab, hget, _, _, hout⟩ := hw.head hd ha ht
  have hlen := outputsStored_length hs (hg t.1 (List.fst_mem_of_mem_zipIdx ht)) t.2
  have hkeep (i : Nat) (hi : ⟨t.1.hash, i⟩ ∉ b.previousOutputs) :
      (slab.spendAt (indexesOf b.previousOutputs t.1.hash) height).outputs[i]? =
        (db.transactions.outputsStored t.1 t.2)[i]? := by
    have hi : i ∉ indexesOf b.previousOutputs t.1.hash := fun h => hi (mem_indexesOf.mp h)
    rw [spendAt_getElem?, ← hout]
    simp [hi]
  constructor
  · intro h i o ho hi
    obtain ⟨hlt, _⟩ := List.getElem?_eq_some_iff.mp ho
    obtain ⟨slab', o', hs', ho', hu⟩ := h i (hlen ▸ hlt) hi
    cases (hget height (Nat.le_refl _)).symm.trans hs'
    rw [hkeep i hi, ho] at ho'
    cases ho'
    exact hu
  · intro h i hlt hi
    have ho := List.getElem?_eq_getElem (hlen ▸ hlt)
    exact ⟨_, _, hget height (Nat.le_refl _), (hkeep i hi).trans ho, h i _ ho hi⟩

end Written

/-! ## 4. Visible exactly where fresh -/

/-- **The exact condition**: a block accepted by `push` is fully visible exactly where nothing of it
    was left over. -/
theorem visible_iff_fresh {content : HashDigest → Content} {db : DataBase} {b : Block}
    {height : Nat} (hr : Reachable content db) (hg : b.Genuine content) (hd : b.hashes.Nodup)
    (hn : b.previousOutputs.Nodup) (hc : b.CoinbaseFirst) (hu : b.ArrivesUnspent)
    (ha : Asserted b height) (hp : (db.push b height).2 = .success) :
    (db.push b height).1.Visible b height ↔ db.Fresh b height := by
  obtain ⟨hv, hspend, hw⟩ := push_success hp
  have hcount := (verifyPush_success hv).2.1
  have hh : height ≤ maxUint32 := Nat.le_of_lt ha.1
  have hunspent (t : Transaction × Nat) (ht : t ∈ b.transactions.zipIdx) :=
    (hw.unspent_iff hd ha hr.genuine hg ht).trans
      (outputsStored_unspent_iff (hu t.1 (List.fst_mem_of_mem_zipIdx ht))
        (position_bound ha.2 ht).2 fun i => ⟨t.1.hash, i⟩ ∉ b.previousOutputs)
  have hrows (hs : db.settings.indexStartHeight ≤ height) (address : ShortHash) (row : HistoryRow)
      (hdue : b.RowDue height address row) : _ :=
    hw.rowsAt_eq hd ((@mem_historyRows _ _ hc _ _ hs hh (address, row)).mpr hdue)
  constructor
  · intro hvis
    refine ⟨fun t ht => (hunspent t ht).mp (hvis.unspent t.1 (List.fst_mem_of_mem_zipIdx ht)), ?_⟩
    intro hs address row hdue
    have hone := hvis.history (hw.settings_eq ▸ hs) address row hdue
    rw [hrows hs address row hdue] at hone
    exact (List.cons.inj hone).2
  · intro hf
    refine ⟨hw.top_eq hcount ha.1, ?_, ?_, ?_, ?_, ?_, ?_, ?_⟩
    · exact ⟨_, (hw.block_eq ha.1).1, (hw.block_eq ha.1).2, rfl, u32_of_lt ha.1, rfl⟩
    · intro t ht forkHeight hf
      obtain ⟨tx, hback, _, hcontent⟩ := hw.readBack hr.genuine hg hd hh ha.2 ht
      obtain ⟨slab, hs, hsh, hsp, hne, rfl⟩ := hback
      exact ⟨slab, (db.push b height).1.transactions.find_true.mpr
        ⟨hs, hsh ▸ hf, by rw [hsp]; exact hne⟩, hsh, hsp, hcontent⟩
    · intro tx htx hcb input hi
      obtain ⟨k, ht⟩ := exists_zipIdx htx
      refine hw.spent ha.1 hspend _ ?_
      rw [← spendRows_points]
      obtain ⟨j, hj⟩ := exists_zipIdx hi
      refine List.mem_map.mpr ⟨(input.previousOutput, ⟨tx.hash, j⟩), ?_, rfl⟩
      refine List.mem_flatMap.mpr ⟨(tx, k), ht, ?_⟩
      rw [if_pos ((hc.pos_iff ht).mpr hcb)]
      exact List.mem_map.mpr ⟨_, hj, rfl⟩
    · intro tx htx
      obtain ⟨k, ht⟩ := exists_zipIdx htx
      exact (hunspent _ ht).mpr (hf.outputs _ ht)
    · intro tx htx
      have hnil := hw.pool_nil hr.poolSound (List.mem_map_of_mem htx)
      rw [TransactionUnconfirmedDatabase.get_eq]
      exact congrArg List.head? hnil
    · exact fun hs => hw.spends hc hn (hw.settings_eq ▸ hs)
    · intro hs address row hdue
      rw [hw.settings_eq] at hs
      rw [hrows hs address row hdue, hf.rows hs address row hdue]

omit [Core] in
/-- A block that spends the output of the first block is fully visible behind its push. -/
theorem spendingBlock_visible :
    @Visible Core.sample (@push Core.sample sample spendingBlock 1).1 spendingBlock 1 := by
  have hg : ∀ tx ∈ Block.sampleGenesis.transactions ++ spendingBlock.transactions,
      tx.content = contentIn (Block.sampleGenesis.transactions ++ spendingBlock.transactions)
        tx.hash := by decide +kernel
  have hc : spendingBlock.CoinbaseFirst := by decide +kernel
  have hpooled : ∀ tx ∈ spendingBlock.transactions, tx.pooled = false := by decide +kernel
  have hrows : ∀ kv ∈ @Block.historyRows Core.sample spendingBlock 0 1,
      rowsAt sample kv.1 kv.2.kind kv.2.point = [] := by decide +kernel
  refine (@visible_iff_fresh Core.sample _ sample spendingBlock 1
    (sample_reachable fun tx h => hg tx (List.mem_append_left _ h))
    (fun tx h => hg tx (List.mem_append_right _ h)) (by decide +kernel) (by decide +kernel) hc
    (by decide +kernel) ⟨by decide, by decide +kernel⟩ (by decide +kernel)).mpr
      (@Fresh.mk Core.sample _ _ _ ?_ ?_)
  · intro t ht _ hp
    rw [hpooled t.1 (List.fst_mem_of_mem_zipIdx ht)] at hp
    cases hp
  · intro _ address row hdue
    exact hrows _ ((@mem_historyRows Core.sample _ hc 0 1 (Nat.zero_le 1) (by decide)
      (address, row)).mpr hdue)

/-- Two blocks that pay one address. -/
def secondBlock : Block := .sample 2 1 [.sampleCoinbase 201 7]

def thirdBlock : Block := .sample 3 2 [.sampleCoinbase 301 7]

/-- The third block is inserted before the second one, and popped: the pop deletes the newest row of
    the address, which is the second block's. -/
def popAfterInserts : DataBase :=
  (@pop Core.sample (@insert Core.sample (@insert Core.sample sample thirdBlock 2).1
    secondBlock 1).1).1

omit [Core] in
theorem popAfterInserts_reachable {content : HashDigest → Content}
    (h : Block.sampleGenesis.Genuine content) (h₂ : secondBlock.Genuine content)
    (h₃ : thirdBlock.Genuine content) : @Reachable Core.sample content popAfterInserts := by
  have hr := @Reachable.of_insert Core.sample _ _ (sample_reachable h) thirdBlock 2 h₃
    (by decide +kernel)
  have hr := @Reachable.of_insert Core.sample _ _ hr secondBlock 1 h₂ (by decide +kernel)
  exact @Reachable.of_pop Core.sample _ _ hr (by decide +kernel)

omit [Core] in
/-- The third block pushed again has two rows for its one output. -/
theorem thirdBlock_twice :
    @Reachable Core.sample (contentIn [.sampleCoinbase 101 1, .sampleCoinbase 201 7,
        .sampleCoinbase 301 7]) popAfterInserts ∧
      thirdBlock.Genuine (contentIn [.sampleCoinbase 101 1, .sampleCoinbase 201 7,
        .sampleCoinbase 301 7]) ∧
      thirdBlock.hashes.Nodup ∧
      (∀ hash ∈ thirdBlock.hashes, popAfterInserts.transactions.get hash maxSize true = none) ∧
      thirdBlock.previousOutputs.Nodup ∧ thirdBlock.CoinbaseFirst ∧ thirdBlock.ArrivesUnspent ∧
      Asserted thirdBlock 2 ∧ (@push Core.sample popAfterInserts thirdBlock 2).2 = .success ∧
      ¬ @Visible Core.sample (@push Core.sample popAfterInserts thirdBlock 2).1 thirdBlock 2 := by
  have hg₁ : ∀ tx ∈ Block.sampleGenesis.transactions, tx.content = contentIn
      [.sampleCoinbase 101 1, .sampleCoinbase 201 7, .sampleCoinbase 301 7] tx.hash := by
    decide +kernel
  have hg₂ : ∀ tx ∈ secondBlock.transactions, tx.content = contentIn
      [.sampleCoinbase 101 1, .sampleCoinbase 201 7, .sampleCoinbase 301 7] tx.hash := by
    decide +kernel
  have hg₃ : ∀ tx ∈ thirdBlock.transactions, tx.content = contentIn
      [.sampleCoinbase 101 1, .sampleCoinbase 201 7, .sampleCoinbase 301 7] tx.hash := by
    decide +kernel
  have hnone : (thirdBlock.hashes.all fun hash =>
      (popAfterInserts.transactions.get hash maxSize true).isNone) = true := by decide +kernel
  refine ⟨popAfterInserts_reachable hg₁ hg₂ hg₃, hg₃, by decide +kernel,
    fun hash h => Option.isNone_iff_eq_none.mp (List.all_eq_true.mp hnone hash h),
    by decide +kernel, by decide +kernel, by decide +kernel, ⟨by decide, by decide +kernel⟩,
    by decide +kernel, fun hvis => ?_⟩
  have htwo : ((@push Core.sample popAfterInserts thirdBlock 2).1.rowsAt 7 .output
      ⟨301, 0⟩).length = 2 := by decide +kernel
  have hstart : (@push Core.sample popAfterInserts thirdBlock 2).1.settings.indexStartHeight ≤ 2 := by
    decide +kernel
  have hdue : @Block.RowDue Core.sample thirdBlock 2 7 ⟨.output, ⟨301, 0⟩, 2, 50⟩ :=
    ⟨.sampleCoinbase 301 7, by decide +kernel, .inl ⟨(⟨notSpent, 50, Script.sample 7⟩, 0),
      by decide +kernel, by decide +kernel, rfl⟩⟩
  rw [@Visible.history Core.sample _ _ _ hvis hstart _ _ hdue] at htwo
  cases htwo

end DataBase

end Libbitcoin.Database
