/-
  File:      BitprimDatabase/DataBase/PushPop.lean
  Subject:   **POP UNDOES PUSH**: a block of distinct transactions that spend unspent outputs,
             pushed and popped again, leaves the chain, the spender heights of every other
             transaction, the spend index and the history as they were.

  * `unwindable_of_earlier` -- transactions that spend outputs of earlier ones only can be
    unwound from the last one on;
  * `unwind_spendSlabs` -- unspending what was unspent before its spending restores the slabs;
  * the row lists of push and the key lists of pop are each other's reverse, so the stacks of the
    indexes come back by `Stacks.popAll_pushAll`.
-/
import Mathlib.Data.List.Induction
import BitprimDatabase.DataBase.Reachable

namespace Libbitcoin.Database

open Lib

variable [Core]

/-! ## 1. Unwinding -/

omit [Core] in
theorem spendAt_append (indexes indexes' : List Nat) (height : Nat) (slab : TransactionSlab) :
    (slab.spendAt indexes height).spendAt indexes' height =
      slab.spendAt (indexes ++ indexes') height := by
  induction indexes generalizing slab with
  | nil => rw [spendAt_nil, List.nil_append]
  | cons index indexes ih => rw [← spendAt_spend, ih, spendAt_spend, List.cons_append]

/-- What unwinding does to the newest slab of a hash. -/
def unwindSlab (txs : List Transaction) (hash : HashDigest) (slab : TransactionSlab) :
    TransactionSlab :=
  let slab := slab.spendAt (indexesOf (txs.flatMap Transaction.popPoints) hash) notSpent
  if hash ∈ txs.map Transaction.hash then slab.confirm Core.unverified unconfirmed else slab

theorem unwindOne_apply (s : Slabs) (tx : Transaction) (hash : HashDigest) :
    unwindOne s tx hash = (s hash).modifyHead (unwindSlab [tx] hash) := by
  rw [unwindOne, spendSlabs_apply]
  unfold unwindSlab
  simp only [List.flatMap_singleton, List.map_singleton, List.mem_singleton]
  by_cases h : hash = tx.hash
  · subst h
    rw [Stacks.modifyTop_same]
    simp only [if_true]
    cases s tx.hash <;> rfl
  · rw [Stacks.modifyTop_ne _ _ h]
    simp only [if_neg h]

theorem unwindSlab_cons (tx : Transaction) (txs : List Transaction) (hash : HashDigest)
    (slab : TransactionSlab) :
    unwindSlab txs hash (unwindSlab [tx] hash slab) = unwindSlab (tx :: txs) hash slab := by
  have hout : indexesOf ((tx :: txs).flatMap Transaction.popPoints) hash =
      indexesOf tx.popPoints hash ++ indexesOf (txs.flatMap Transaction.popPoints) hash := by
    unfold indexesOf
    rw [List.flatMap_cons, List.filter_append, List.map_append]
  unfold unwindSlab
  rw [hout, ← spendAt_append]
  simp only [List.flatMap_singleton, List.map_cons, List.map_nil, List.mem_cons, List.not_mem_nil,
    or_false]
  by_cases h : hash = tx.hash <;> by_cases hm : hash ∈ txs.map Transaction.hash
  · rw [if_pos h, if_pos hm, if_pos (.inl h)]
    rfl
  · rw [if_pos h, if_neg hm, if_pos (.inl h)]
    rfl
  · rw [if_neg h, if_pos hm, if_pos (.inr hm)]
  · rw [if_neg h, if_neg hm, if_neg (not_or.mpr ⟨h, hm⟩)]

/-- **Unwinding edits the newest slab of each hash.** -/
theorem unwind_apply (s : Slabs) (txs : List Transaction) (hash : HashDigest) :
    unwind s txs hash = (s hash).modifyHead (unwindSlab txs hash) := by
  induction txs generalizing s with
  | nil =>
      show s hash = _
      cases s hash with
      | nil => rfl
      | cons slab rest =>
          rw [List.modifyHead_cons, unwindSlab]
          exact congrArg (· :: rest) (spendAt_nil notSpent slab).symm
  | cons tx txs ih =>
      show unwind (unwindOne s tx) txs hash = _
      rw [ih, unwindOne_apply]
      cases s hash with
      | nil => rfl
      | cons slab rest =>
          rw [List.modifyHead_cons, List.modifyHead_cons, List.modifyHead_cons, unwindSlab_cons]

theorem unwindSlab_content (txs : List Transaction) (hash : HashDigest) (slab : TransactionSlab) :
    (unwindSlab txs hash slab).content = slab.content := by
  unfold unwindSlab
  split
  · rw [confirm_content, spendAt_content]
  · exact spendAt_content ..

/-- The content of the newest slab of a hash. -/
def newestContent (s : Slabs) (hash : HashDigest) : Option Content :=
  (s hash).head?.map TransactionSlab.content

/-- Unwinding leaves the contents. -/
theorem unwind_newestContent (s : Slabs) (txs : List Transaction) (hash : HashDigest) :
    newestContent (unwind s txs) hash = newestContent s hash := by
  unfold newestContent
  rw [unwind_apply]
  cases s hash with
  | nil => rfl
  | cons slab rest => exact congrArg some (unwindSlab_content txs hash slab)

/-- No output of `u` is spent by `tx`. -/
def NoSpendOf (tx u : Transaction) : Prop := ∀ p ∈ tx.popPoints, p.hash ≠ u.hash

omit [Core] in
theorem spendable_confirm_ne {s : Slabs} {p : Point} {height : Nat} {hash : HashDigest}
    (h : p.hash ≠ hash) (f : TransactionSlab → TransactionSlab) :
    Spendable (s.modifyTop hash f) p height ↔ Spendable s p height := by
  unfold Spendable
  rw [Stacks.modifyTop_ne _ _ h]

omit [Core] in
theorem spendable_spendSlabs {s : Slabs} {p : Point} {height : Nat} (points : List Point)
    (spenderHeight : Nat) :
    Spendable (spendSlabs s points spenderHeight) p height ↔ Spendable s p height := by
  induction points generalizing s with
  | nil => exact Iff.rfl
  | cons q points ih => exact ih.trans (spendable_modifyTop _ _ _)

theorem spendable_unwindOne_ne {s : Slabs} {p : Point} {height : Nat} {tx : Transaction}
    (h : p.hash ≠ tx.hash) : Spendable (unwindOne s tx) p height ↔ Spendable s p height :=
  (spendable_spendSlabs _ _).trans (spendable_confirm_ne h _)

theorem unwindOne_ne_nil {s : Slabs} {hash : HashDigest} (tx : Transaction) (h : s hash ≠ []) :
    unwindOne s tx hash ≠ [] := by
  rw [unwindOne_apply]
  cases hs : s hash with
  | nil => exact absurd hs h
  | cons slab rest => exact List.cons_ne_nil _ _

/-- **Transactions that spend earlier outputs only are unwindable from the last one on.** The
    induction is on the last transaction: no other one spends an output of it. -/
theorem unwindable_of_earlier {s : Slabs} {txs : List Transaction}
    (hne : ∀ tx ∈ txs, s tx.hash ≠ []) (hsp : ∀ tx ∈ txs, ∀ p ∈ tx.popPoints, Spendable s p notSpent)
    (hself : ∀ tx ∈ txs, NoSpendOf tx tx) (hpw : txs.Pairwise NoSpendOf) :
    Unwindable s txs.reverse := by
  induction txs using List.reverseRecOn generalizing s with
  | nil => trivial
  | append_singleton txs tx ih =>
      obtain ⟨hpw, _, hlast⟩ := List.pairwise_append.mp hpw
      have hmem : ∀ u ∈ txs, u ∈ txs ++ [tx] := fun u hu => List.mem_append_left _ hu
      have htx : tx ∈ txs ++ [tx] := List.mem_append_right _ List.mem_cons_self
      rw [List.reverse_append]
      refine ⟨hne tx htx, fun p hp => ?_, ?_⟩
      · exact (spendable_confirm_ne (hself tx htx p hp) _).mpr (hsp tx htx p hp)
      · refine ih (fun u hu => unwindOne_ne_nil tx (hne u (hmem u hu))) (fun u hu p hp => ?_)
          (fun u hu => hself u (hmem u hu)) hpw
        exact (spendable_unwindOne_ne (hlast u hu tx List.mem_cons_self p hp)).mpr
          (hsp u (hmem u hu) p hp)

theorem unwindOne_nil {s : Slabs} {hash : HashDigest} (tx : Transaction) (h : s hash = []) :
    unwindOne s tx hash = [] := by
  rw [unwindOne_apply, h]
  rfl

/-- The newest slab of the transaction just unwound cannot be spent. -/
theorem not_spendable_confirm {s : Slabs} {tx : Transaction} {p : Point} {height : Nat}
    (h : p.hash = tx.hash) :
    ¬ Spendable (s.modifyTop tx.hash (TransactionSlab.confirm Core.unverified unconfirmed)) p
      height := by
  intro hsp
  obtain ⟨slab, hs, _, hne, _⟩ := hsp
  rw [h, Stacks.modifyTop_head, if_pos rfl] at hs
  obtain ⟨slab', _, rfl⟩ := Option.map_eq_some_iff.mp hs
  exact hne u32_maxUint32

/-- **What unwinding from the last transaction on needs**: every transaction has a slab, every
    output it spends is spendable, and none of them is its own or a later transaction's. -/
theorem unwindable_iff {s : Slabs} {txs : List Transaction} :
    Unwindable s txs.reverse ↔ (∀ tx ∈ txs, s tx.hash ≠ []) ∧
      (∀ tx ∈ txs, ∀ p ∈ tx.popPoints, Spendable s p notSpent) ∧
      (∀ tx ∈ txs, NoSpendOf tx tx) ∧ txs.Pairwise NoSpendOf := by
  refine ⟨fun h => ?_, fun h => unwindable_of_earlier h.1 h.2.1 h.2.2.1 h.2.2.2⟩
  induction txs using List.reverseRecOn generalizing s with
  | nil =>
      exact ⟨fun _ hm => absurd hm List.not_mem_nil, fun _ hm => absurd hm List.not_mem_nil,
        fun _ hm => absurd hm List.not_mem_nil, List.Pairwise.nil⟩
  | append_singleton txs tx ih =>
      rw [List.reverse_append] at h
      obtain ⟨hne, hsp, hrest⟩ := h
      obtain ⟨ihne, ihsp, ihself, ihpw⟩ := ih hrest
      have hself : NoSpendOf tx tx := fun p hp he => not_spendable_confirm he (hsp p hp)
      have hlast : ∀ u ∈ txs, NoSpendOf u tx := fun u hu p hp he =>
        not_spendable_confirm he ((spendable_spendSlabs _ _).mp (ihsp u hu p hp))
      refine ⟨fun u hu => ?_, fun u hu p hp => ?_, fun u hu => ?_, ?_⟩
      · rcases List.mem_append.mp hu with hu | hu
        · exact fun hnil => ihne u hu (unwindOne_nil tx hnil)
        · exact List.mem_singleton.mp hu ▸ hne
      · rcases List.mem_append.mp hu with hu | hu
        · exact (spendable_unwindOne_ne (hlast u hu p hp)).mp (ihsp u hu p hp)
        · cases List.mem_singleton.mp hu
          exact (spendable_confirm_ne (hself p hp) _).mp (hsp p hp)
      · rcases List.mem_append.mp hu with hu | hu
        · exact ihself u hu
        · exact List.mem_singleton.mp hu ▸ hself
      · refine List.pairwise_append.mpr ⟨ihpw, List.pairwise_singleton _ _, fun u hu v hv => ?_⟩
        exact List.mem_singleton.mp hv ▸ hlast u hu

/-- A hash outside the unwound transactions only sees the unspends. -/
theorem unwind_notMem {s : Slabs} {txs : List Transaction} {hash : HashDigest}
    (h : ∀ tx ∈ txs, tx.hash ≠ hash) :
    unwind s txs hash = spendSlabs s (txs.flatMap Transaction.popPoints) notSpent hash := by
  have hnot : hash ∉ txs.map Transaction.hash := by
    intro hm
    obtain ⟨tx, htx, he⟩ := List.mem_map.mp hm
    exact h tx htx he
  rw [unwind_apply, spendSlabs_apply]
  unfold unwindSlab
  simp only [if_neg hnot]

/-- The newest slab of an unwound transaction is unconfirmed. -/
theorem unwind_mem {s : Slabs} {txs : List Transaction} {tx : Transaction} (h : tx ∈ txs)
    (hne : s tx.hash ≠ []) :
    ∃ slab, (unwind s txs tx.hash).head? = some slab ∧ slab.position = unconfirmed := by
  obtain ⟨slab, rest, hs⟩ := List.exists_cons_of_ne_nil hne
  refine ⟨unwindSlab txs tx.hash slab, ?_, ?_⟩
  · rw [unwind_apply, hs]
    rfl
  · unfold unwindSlab
    rw [if_pos (List.mem_map_of_mem h)]
    exact u32_maxUint32

omit [Core] in
theorem spendAt_undo {slab : TransactionSlab} {indexes indexes' : List Nat} {height : Nat}
    (hmem : ∀ i, i ∈ indexes' ↔ i ∈ indexes)
    (h : ∀ i ∈ indexes, ∀ o, slab.outputs[i]? = some o → o.spenderHeight = notSpent) :
    (slab.spendAt indexes height).spendAt indexes' notSpent = slab := by
  have hout : ((slab.spendAt indexes height).spendAt indexes' notSpent).outputs = slab.outputs := by
    refine List.ext_getElem? fun i => ?_
    rw [spendAt_getElem?, spendAt_getElem?]
    cases ho : slab.outputs[i]? with
    | none => rfl
    | some o =>
        by_cases hi : i ∈ indexes
        · have hn := h i hi o ho
          simp only [Option.map_some, (hmem i).mpr hi, hi, if_true]
          congr 1
          cases o
          simp only at hn
          subst hn
          rfl
        · have hi' : i ∉ indexes' := fun h => hi ((hmem i).mp h)
          simp [hi, hi']
  cases slab
  simp only [TransactionSlab.spendAt] at hout ⊢
  rw [hout]

/-- **What was unspent before it was spent is restored by unspending it.** -/
theorem unwind_spendSlabs {s : Slabs} {points : List Point} {height : Nat}
    {txs : List Transaction} {hash : HashDigest} (hnot : ∀ tx ∈ txs, tx.hash ≠ hash)
    (hmem : ∀ p, p ∈ txs.flatMap Transaction.popPoints ↔ p ∈ points)
    (h : ∀ p ∈ points, p.hash = hash → ∀ slab, (s hash).head? = some slab →
      ∀ o, slab.outputs[p.index]? = some o → o.spenderHeight = notSpent) :
    unwind (spendSlabs s points height) txs hash = s hash := by
  rw [unwind_notMem hnot, spendSlabs_apply, spendSlabs_apply]
  cases hs : s hash with
  | nil => rfl
  | cons slab rest =>
      have hslab : (slab.spendAt (indexesOf points hash) height).spendAt
          (indexesOf (txs.flatMap Transaction.popPoints) hash) notSpent = slab :=
        spendAt_undo (fun i => by rw [mem_indexesOf, mem_indexesOf, hmem]) fun i hi o ho =>
          h _ (mem_indexesOf.mp hi) rfl slab (by rw [hs]; rfl) o ho
      rw [List.modifyHead_cons, List.modifyHead_cons, hslab]

/-! ## 2. Rows and keys -/

omit [Core] in
/-- Loops over related lists that do the same for related elements. -/
theorem flatMap_eq_of_forall₂ {A B C : Type} {R : A → B → Prop} {f : A → List C} {g : B → List C}
    {l : List A} {l' : List B} (h : List.Forall₂ R l l') (hfg : ∀ a b, R a b → f a = g b) :
    l.flatMap f = l'.flatMap g := by
  induction h with
  | nil => rfl
  | cons hab _ ih => rw [List.flatMap_cons, List.flatMap_cons, hfg _ _ hab, ih]

omit [Core] in
theorem exists_forall₂ {A B : Type} {R : A → B → Prop} {l : List A} (h : ∀ a ∈ l, ∃ b, R a b) :
    ∃ l', List.Forall₂ R l l' := by
  induction l with
  | nil => exact ⟨[], .nil⟩
  | cons a l ih =>
      obtain ⟨b, hb⟩ := h a List.mem_cons_self
      obtain ⟨l', hl⟩ := ih fun a ha => h a (List.mem_cons_of_mem _ ha)
      exact ⟨b :: l', .cons hb hl⟩

/-- A transaction of the block and its position, and the transaction with the same hash and
    content; the coinbase, and only it, is at the first position. -/
structure SameAt (t : Transaction × Nat) (tx : Transaction) : Prop where
  hash_eq : tx.hash = t.1.hash
  content_eq : tx.content = t.1.content
  coinbase_iff : t.2 = 0 ↔ t.1.isCoinbase = true

omit [Core] in
theorem SameAt.inputs_eq {t : Transaction × Nat} {tx : Transaction} (h : SameAt t tx) :
    tx.inputs = t.1.inputs := congrArg Content.inputs h.content_eq

omit [Core] in
theorem SameAt.isCoinbase_eq {t : Transaction × Nat} {tx : Transaction} (h : SameAt t tx) :
    tx.isCoinbase = t.1.isCoinbase := by
  unfold Transaction.isCoinbase
  rw [h.inputs_eq]

omit [Core] in
/-- The spends a transaction pushed are the previous outputs its pop unspends, reversed. -/
theorem SameAt.popPoints_eq {t : Transaction × Nat} {tx : Transaction} (h : SameAt t tx) :
    (if t.2 ≠ 0 then t.1.spendRows else []).map Prod.fst = tx.popPoints.reverse := by
  unfold Transaction.popPoints Transaction.spendRows
  rw [h.isCoinbase_eq, h.inputs_eq]
  by_cases hp : t.2 = 0
  · simp [hp, h.coinbase_iff.mp hp]
  · have hc : ¬ t.1.isCoinbase = true := fun hc => hp (h.coinbase_iff.mpr hc)
    rw [if_pos hp, if_neg hc, List.map_reverse, List.reverse_reverse, List.map_map,
      show (Prod.fst ∘ fun i : Input × Nat => ((i.1.previousOutput, ⟨t.1.hash, i.2⟩) : Point × Point)) =
        Input.previousOutput ∘ Prod.fst from rfl, ← List.map_map, List.zipIdx_map_fst]

omit [Core] in
theorem addressRow_map_fst (address : Option ShortHash) (row : HistoryRow) :
    (addressRow address row).map Prod.fst = addressKey address := by
  cases address <;> rfl

omit [Core] in
theorem addressKey_reverse (address : Option ShortHash) :
    (addressKey address).reverse = addressKey address := by
  cases address <;> rfl

omit [Core] in
/-- A loop over an indexed list that does not look at the index. -/
theorem zipIdx_flatMap_fst {A C : Type} (l : List A) (k : Nat) (f : A → List C) :
    ((l.zipIdx k).flatMap fun i => f i.1) = l.flatMap f := by
  rw [← List.flatMap_map (f := Prod.fst) (g := f), List.zipIdx_map_fst]

theorem inputRows_keys (tx : Transaction) (height : Nat) : (tx.inputRows height).map Prod.fst =
    tx.inputs.flatMap fun i => addressKey (Core.address i.script) := by
  unfold Transaction.inputRows
  rw [List.map_flatMap]
  simp only [addressRow_map_fst]
  exact zipIdx_flatMap_fst tx.inputs 0 fun i => addressKey (Core.address i.script)

theorem outputRows_keys (tx : Transaction) (height : Nat) : (tx.outputRows height).map Prod.fst =
    tx.outputs.flatMap fun o => addressKey (Core.address o.script) := by
  unfold Transaction.outputRows
  rw [List.map_flatMap]
  simp only [addressRow_map_fst]
  exact zipIdx_flatMap_fst tx.outputs 0 fun o => addressKey (Core.address o.script)

/-- The addresses of the rows a transaction pushed are the ones its pop deletes a row of,
    reversed. -/
theorem SameAt.popKeys_eq {t : Transaction × Nat} {tx : Transaction} (h : SameAt t tx)
    (height : Nat) : (t.1.historyRows t.2 height).map Prod.fst = tx.popKeys.reverse := by
  have hout : (tx.outputs.flatMap fun o => addressKey (Core.address o.script)) =
      t.1.outputs.flatMap fun o => addressKey (Core.address o.script) := by
    have hc : contentOf tx.outputs = contentOf t.1.outputs := congrArg Content.outputs h.content_eq
    have hkey (l : List Output) : (l.flatMap fun o => addressKey (Core.address o.script)) =
        (contentOf l).flatMap fun vs => addressKey (Core.address vs.2) := by
      unfold contentOf
      rw [List.flatMap_map]
    rw [hkey, hkey, hc]
  unfold Transaction.historyRows Transaction.popKeys
  rw [List.map_append, List.reverse_append, List.reverse_flatMap, List.reverse_reverse,
    outputRows_keys, ← hout, h.isCoinbase_eq, h.inputs_eq]
  congr 1
  · by_cases hp : t.2 = 0
    · simp [hp, h.coinbase_iff.mp hp]
    · have hc : ¬ t.1.isCoinbase = true := fun hc => hp (h.coinbase_iff.mpr hc)
      rw [if_pos hp, if_neg hc, List.reverse_flatMap, List.reverse_reverse, inputRows_keys]
      simp only [Function.comp_def, addressKey_reverse]
  · simp only [Function.comp_def, addressKey_reverse]

section Lists

variable {l : List (Transaction × Nat)} {txs : List Transaction} {height start : Nat}

omit [Core] in
/-- The spends of a block and the points of its pop. -/
theorem spendRows_keys (h : List.Forall₂ SameAt l txs) :
    ((l.flatMap fun t => if height < start then [] else if t.2 ≠ 0 then t.1.spendRows else []).map
      Prod.fst).reverse = if height < start then [] else txs.reverse.flatMap Transaction.popPoints := by
  by_cases hs : height < start
  · simp [hs]
  · simp only [if_neg hs]
    rw [List.map_flatMap, flatMap_eq_of_forall₂ (g := fun tx => tx.popPoints.reverse) h
      fun t tx ht => ht.popPoints_eq, List.reverse_flatMap]
    simp only [Function.comp_def, List.reverse_reverse]

/-- The history rows of a block and the addresses of its pop. -/
theorem historyRows_keys (h : List.Forall₂ SameAt l txs) :
    ((l.flatMap fun t => if height < start then [] else t.1.historyRows t.2 height).map
      Prod.fst).reverse = if height < start then [] else txs.reverse.flatMap Transaction.popKeys := by
  by_cases hs : height < start
  · simp [hs]
  · simp only [if_neg hs]
    rw [List.map_flatMap, flatMap_eq_of_forall₂ (g := fun tx => tx.popKeys.reverse) h
      fun t tx ht => ht.popKeys_eq height, List.reverse_flatMap]
    simp only [Function.comp_def, List.reverse_reverse]

end Lists

omit [Core] in
/-- The points a block marks as spent are those its indexes record, in the same order. -/
theorem spendRows_points (b : Block) :
    (b.transactions.zipIdx.flatMap fun t => if t.2 ≠ 0 then t.1.spendRows else []).map Prod.fst =
      b.previousOutputs := by
  unfold Block.previousOutputs
  cases b.transactions with
  | nil => rfl
  | cons cb rest =>
      have hrest : ((rest.zipIdx 1).flatMap fun t => if t.2 ≠ 0 then t.1.spendRows else []) =
          (rest.zipIdx 1).flatMap fun t => t.1.spendRows := by
        refine List.flatMap_congr fun t ht => if_pos ?_
        have := List.le_snd_of_mem_zipIdx ht
        omega
      rw [List.zipIdx_cons, List.flatMap_cons, hrest, zipIdx_flatMap_fst rest 1, List.tail_cons]
      simp only [ne_eq, not_true, if_false, List.nil_append, List.map_flatMap]
      refine List.flatMap_congr fun tx _ => ?_
      unfold Transaction.spendRows
      rw [List.map_map, show (Prod.fst ∘ fun i : Input × Nat =>
        ((i.1.previousOutput, ⟨tx.hash, i.2⟩) : Point × Point)) = Input.previousOutput ∘ Prod.fst
        from rfl, ← List.map_map, List.zipIdx_map_fst]

omit [Core] in
/-- The outpoints of the spends of a block. -/
theorem blockSpendRows_keys (b : Block) (start height : Nat) :
    (b.spendRows start height).map Prod.fst =
      if height < start then [] else b.previousOutputs := by
  unfold Block.spendRows
  by_cases h : height < start
  · simp [h]
  · simp only [h, if_false]
    exact spendRows_points b

/-! ## 3. The block just pushed -/

namespace DataBase

omit [Core] in
theorem verifyPush_success {db : DataBase} {b : Block} {height : Nat}
    (h : db.verifyPush b height = .success) :
    b.transactions ≠ [] ∧ db.blocks.count = height ∧
      b.header.previousBlockHash = getPreviousHash db.blocks height := by
  unfold verifyPush at h
  split at h
  · cases h
  · rename_i he
    split at h
    · cases h
    · rename_i hh
      split at h
      · cases h
      · rename_i hp
        refine ⟨by simpa using he, ?_, not_not.mp hp⟩
        rw [← not_not.mp hh, getNextHeight]
        cases ht : db.blocks.top with
        | none => exact BlockDatabase.top_eq_none.mp ht
        | some top => exact BlockDatabase.top_eq_some.mp ht

/-- The newest slab of a transaction of the block, where the hashes are distinct. -/
theorem stored_head (db : DataBase) {b : Block} (hd : b.hashes.Nodup) (height : Nat)
    {t : Transaction × Nat} (ht : t ∈ b.transactions.zipIdx) :
    ∃ slab, (db.stored b height t.1.hash).head? = some slab ∧ slab.height = u32 height ∧
      slab.position = u32 t.2 ∧ slab.outputs = db.transactions.outputsStored t.1 t.2 := by
  have hn : (b.transactions.zipIdx.map fun tx => tx.1.hash).Nodup := by
    rw [zipIdx_map_hash]
    exact hd
  obtain ⟨slab, hs, h⟩ := db.transactions.store_head t.1 height t.2
  refine ⟨slab, ?_, h⟩
  unfold stored
  rw [storeAll_slabs_mem _ height hn ht]
  exact hs

theorem stored_notMem (db : DataBase) {b : Block} (height : Nat) {hash : HashDigest}
    (h : hash ∉ b.hashes) : db.stored b height hash = db.transactions.slabs hash := by
  refine storeAll_slabs_notMem _ height fun t ht he => h ?_
  exact he ▸ List.mem_map_of_mem (List.fst_mem_of_mem_zipIdx ht)

omit [Core] in
/-- A position of a block the store can hold. -/
theorem position_bound {b : Block} (hn : b.transactions.length ≤ maxUint32)
    {t : Transaction × Nat} (ht : t ∈ b.transactions.zipIdx) : u32 t.2 = t.2 ∧ t.2 ≠ unconfirmed := by
  have := List.snd_lt_of_mem_zipIdx ht
  exact ⟨u32_of_lt (by omega), by unfold unconfirmed; omega⟩

/-- **A written block is read back**: each transaction at its height and position, with its own
    content. -/
theorem Written.readBack {content : HashDigest → Content} {db db' : DataBase} {b : Block}
    {height : Nat} (hw : Written db b height db') (hs : GenuineSlabs content db.transactions.slabs)
    (hg : b.Genuine content) (hd : b.hashes.Nodup) (hh : height ≤ maxUint32)
    (hn : b.transactions.length ≤ maxUint32) {t : Transaction × Nat}
    (ht : t ∈ b.transactions.zipIdx) :
    ∃ tx, db'.ReadBack height (t.1.hash, t.2) tx ∧ tx.hash = t.1.hash ∧
      tx.content = t.1.content := by
  obtain ⟨slab, hslab, hsh, hsp, _⟩ := db.stored_head hd height ht
  have hhead : (db'.transactions.slabs t.1.hash).head? =
      some (slab.spendAt (indexesOf b.previousOutputs t.1.hash) height) := by
    rw [hw.slabs_eq, spendSlabs_head, hslab]
    rfl
  obtain ⟨hu, hne⟩ := position_bound hn ht
  refine ⟨_, ⟨_, hhead, hsh.trans (u32_of_le hh), hsp.trans hu, hne, rfl⟩, rfl, ?_⟩
  have hgen : slab.content = content t.1.hash :=
    hs.stored hg height _ slab (List.mem_of_mem_head? hslab)
  have hcontent := spendAt_content (indexesOf b.previousOutputs t.1.hash) height slab
  exact hcontent.trans (hgen.trans (hg t.1 (List.fst_mem_of_mem_zipIdx ht)).symm)

/-! ## 4. Pop after push -/

/-- The output the point refers to is confirmed at or below the height and not spent. -/
def UnspentAt (db : DataBase) (p : Point) (height : Nat) : Prop :=
  ∃ slab o, db.transactions.get p.hash height true = some slab ∧
    slab.outputs[p.index]? = some o ∧ o.spenderHeight = notSpent

/-- **A block that connects**: the first transaction is the only coinbase, every other input
    spends a distinct output that is not spent, confirmed in the chain or of an earlier
    transaction of the block, and no transaction of the block is already confirmed. -/
structure Connects (db : DataBase) (b : Block) (height : Nat) : Prop where
  coinbase : ∀ t ∈ b.transactions.zipIdx, t.2 = 0 ↔ t.1.isCoinbase = true
  distinct : b.previousOutputs.Nodup
  unspent : ∀ t ∈ b.transactions.zipIdx, t.2 ≠ 0 → ∀ input ∈ t.1.inputs,
    db.UnspentAt input.previousOutput height ∨
      ∃ t' ∈ b.transactions.zipIdx, t'.2 < t.2 ∧ t'.1.hash = input.previousOutput.hash ∧
        ∃ o, t'.1.outputs[input.previousOutput.index]? = some o ∧ o.spenderHeight = notSpent
  unconfirmed : ∀ hash ∈ b.hashes, db.transactions.get hash maxSize true = none

/-- Two blocks are equal as the core library compares them: headers and transactions, these up to
    validation metadata. -/
def SameBlock (b b' : Block) : Prop :=
  b.header = b'.header ∧
    List.Forall₂ (fun tx tx' => tx.hash = tx'.hash ∧ tx.content = tx'.content) b.transactions
      b'.transactions

/-- **What a pop right after a push restores.** -/
structure Restored (db : DataBase) (b : Block) (db' : DataBase) : Prop where
  top_eq : db'.blocks.top = db.blocks.top
  get_eq : ∀ height, db'.blocks.get height = db.blocks.get height
  others_eq : ∀ hash ∉ b.hashes, ∀ forkHeight requireConfirmed,
    db'.transactions.get hash forkHeight requireConfirmed =
      db.transactions.get hash forkHeight requireConfirmed
  unconfirmed : ∀ hash ∈ b.hashes, ∀ forkHeight, db'.transactions.get hash forkHeight true = none ∧
    ∃ slab, db'.transactions.get hash forkHeight false = some slab
  pooled : ∀ hash ∈ b.hashes, ∃ slab, db'.transactionsUnconfirmed.get hash = some slab
  spends_eq : ∀ outpoint, db'.spends.get outpoint = db.spends.get outpoint
  history_eq : ∀ key limit fromHeight,
    db'.history.get key limit fromHeight = db.history.get key limit fromHeight

omit [Core] in
theorem forall₂_mem_right {A B : Type} {R : A → B → Prop} {l : List A} {l' : List B}
    (h : List.Forall₂ R l l') : ∀ b ∈ l', ∃ a ∈ l, R a b := by
  induction h with
  | nil => exact fun _ hb => absurd hb List.not_mem_nil
  | cons hab _ ih =>
      intro b hb
      rcases List.mem_cons.mp hb with rfl | hb
      · exact ⟨_, List.mem_cons_self, hab⟩
      · obtain ⟨a, ha, h⟩ := ih b hb
        exact ⟨a, List.mem_cons_of_mem _ ha, h⟩

omit [Core] in
theorem pairwise_of_forall₂ {A B : Type} {R : A → B → Prop} {S : A → A → Prop} {T : B → B → Prop}
    {l : List A} {l' : List B} (h : List.Forall₂ R l l') (hl : l.Pairwise S)
    (hT : ∀ a a' b b', R a b → R a' b' → S a a' → T b b') : l'.Pairwise T := by
  induction h with
  | nil => exact .nil
  | cons hab h ih =>
      obtain ⟨hfirst, hl⟩ := List.pairwise_cons.mp hl
      refine List.Pairwise.cons (fun b' hb' => ?_) (ih hl)
      obtain ⟨a', ha', hab'⟩ := forall₂_mem_right h b' hb'
      exact hT _ _ _ _ hab hab' (hfirst a' ha')

omit [Core] in
theorem zipIdx_pairwise {A : Type} (l : List A) (k : Nat) :
    (l.zipIdx k).Pairwise fun a b => a.2 < b.2 := by
  induction l generalizing k with
  | nil => exact .nil
  | cons a l ih =>
      rw [List.zipIdx_cons]
      exact List.Pairwise.cons (fun b hb => List.le_snd_of_mem_zipIdx hb) (ih (k + 1))

omit [Core] in
/-- No transaction of a connecting block spends an output of itself or of a later one. -/
theorem Connects.hash_ne {db : DataBase} {b : Block} {height : Nat} (hc : db.Connects b height)
    (hd : b.hashes.Nodup) (hh : height ≤ maxUint32) {t u : Transaction × Nat}
    (ht : t ∈ b.transactions.zipIdx) (hu : u ∈ b.transactions.zipIdx) (h0 : t.2 ≠ 0)
    (hle : t.2 ≤ u.2) {input : Input} (hi : input ∈ t.1.inputs) :
    input.previousOutput.hash ≠ u.1.hash := by
  intro he
  have hmem : u.1.hash ∈ b.hashes := List.mem_map_of_mem (List.fst_mem_of_mem_zipIdx hu)
  rcases hc.unspent t ht h0 input hi with ⟨slab, _, hget, _⟩ | ⟨t', ht', hlt, he', _⟩
  · have hnone := hc.unconfirmed _ hmem
    obtain ⟨hs, hle, hne⟩ := db.transactions.find_true.mp hget
    rw [he] at hs
    have : db.transactions.find u.1.hash maxSize true = some slab :=
      db.transactions.find_true.mpr ⟨hs, by unfold maxSize; unfold maxUint32 at hh; omega, hne⟩
    rw [TransactionDatabase.get, this] at hnone
    cases hnone
  · -- a hash stands at one position
    have hpos : t'.2 = u.2 := by
      have h₁ := List.mem_zipIdx_iff_getElem?.mp ht'
      have h₂ := List.mem_zipIdx_iff_getElem?.mp hu
      have hh₁ : b.hashes[t'.2]? = some u.1.hash := by
        unfold Block.hashes
        rw [List.getElem?_map, h₁]
        exact congrArg some (he'.trans he)
      have hh₂ : b.hashes[u.2]? = some u.1.hash := by
        unfold Block.hashes
        rw [List.getElem?_map, h₂]
        rfl
      obtain ⟨hlt, _⟩ := List.getElem?_eq_some_iff.mp hh₁
      exact (List.getElem?_inj hlt hd).mp (hh₁.trans hh₂.symm)
    omega

/-- The tables after the pop, from the edits of the push and of the pop. -/
theorem restored_of_popped {db db' db'' : DataBase} {b : Block} {height : Nat}
    {txs : List Transaction} (hw : Written db b height db') (hp : Popped db' height txs db'')
    (hcount : db.blocks.count = height) (hh : height < maxUint32)
    (hsame : List.Forall₂ SameAt b.transactions.zipIdx txs)
    (hpoints : ∀ p, p ∈ txs.reverse.flatMap Transaction.popPoints ↔ p ∈ b.previousOutputs)
    (hunspent : ∀ p ∈ b.previousOutputs, p.hash ∉ b.hashes → ∀ slab,
      (db.transactions.slabs p.hash).head? = some slab →
        ∀ o, slab.outputs[p.index]? = some o → o.spenderHeight = notSpent) :
    Restored db b db'' := by
  have hlt : height < db'.blocks.count := by
    rw [hw.blocks_eq, BlockDatabase.store_count _ _ hh]
    omega
  have hhash : ∀ hash, hash ∈ b.hashes ↔ ∃ tx ∈ txs.reverse, tx.hash = hash := by
    intro hash
    constructor
    · intro hm
      obtain ⟨tx, htx, rfl⟩ := List.mem_map.mp hm
      obtain ⟨i, hi⟩ := List.mem_iff_getElem?.mp htx
      obtain ⟨tx', htx', h⟩ := forall₂_mem_right hsame.flip (tx, i)
        (List.mem_zipIdx_iff_getElem?.mpr hi)
      exact ⟨tx', List.mem_reverse.mpr htx', h.hash_eq⟩
    · rintro ⟨tx, htx, rfl⟩
      obtain ⟨t, ht, h⟩ := forall₂_mem_right hsame tx (List.mem_reverse.mp htx)
      rw [h.hash_eq]
      exact List.mem_map_of_mem (List.fst_mem_of_mem_zipIdx ht)
  refine ⟨?_, fun k => ?_, fun hash hnot forkHeight rc => ?_, fun hash hm forkHeight => ?_,
    fun hash hm => ?_, fun outpoint => ?_, fun key limit fromHeight => ?_⟩
  · rw [hp.blocks_eq, BlockDatabase.unlink_of_lt hlt]
    unfold BlockDatabase.top
    rw [hcount]
  · rw [hp.blocks_eq, BlockDatabase.unlink_get hlt]
    split
    · rename_i hk
      rw [hw.blocks_eq]
      exact BlockDatabase.store_get_lt _ _ hh (by omega) (by omega)
    · rename_i hk
      rw [BlockDatabase.get_eq, if_neg (by omega)]
  · have hslabs : db''.transactions.slabs hash = db.transactions.slabs hash := by
      rw [hp.slabs_eq, hw.slabs_eq, unwind_spendSlabs (fun tx htx he => hnot ((hhash hash).mpr
        ⟨tx, htx, he⟩)) hpoints, stored_notMem db height hnot]
      rintro p hpb rfl slab hs
      rw [stored_notMem db height hnot] at hs
      exact hunspent p hpb hnot slab hs
    unfold TransactionDatabase.get
    rw [TransactionDatabase.find_eq, TransactionDatabase.find_eq, hslabs]
  · have hne : db'.transactions.slabs hash ≠ [] := by
      intro hnil
      obtain ⟨tx, htx, rfl⟩ := List.mem_map.mp hm
      obtain ⟨i, hi⟩ := List.mem_iff_getElem?.mp htx
      obtain ⟨slab, hs, _⟩ := storeAll_head db.transactions height (l := b.transactions.zipIdx)
        ⟨(tx, i), List.mem_zipIdx_iff_getElem?.mpr hi, rfl⟩
      have := congrArg List.head? hnil
      rw [hw.slabs_eq, spendSlabs_head] at this
      unfold stored at this
      rw [hs] at this
      cases this
    obtain ⟨tx, htx, rfl⟩ := (hhash hash).mp hm
    obtain ⟨slab, hs, hpos⟩ := unwind_mem htx hne
    rw [← hp.slabs_eq] at hs
    refine ⟨?_, slab, (db''.transactions.find_false _ forkHeight).trans hs⟩
    cases hf : db''.transactions.get tx.hash forkHeight true with
    | none => rfl
    | some slab' =>
        obtain ⟨hs', _, hne'⟩ := db''.transactions.find_true.mp hf
        cases hs.symm.trans hs'
        exact absurd hpos hne'
  · obtain ⟨tx, htx, rfl⟩ := (hhash hash).mp hm
    rw [TransactionUnconfirmedDatabase.get_eq]
    have hpool : db''.transactionsUnconfirmed.entries = _ := hp.pool_eq
    rw [hpool, Stacks.pushAll_apply]
    have : (tx.hash, tx.toSlab 0 Database.unconfirmed) ∈ (txs.reverse.map fun tx =>
        (tx.hash, tx.toSlab 0 Database.unconfirmed)).filter fun kv => kv.1 = tx.hash :=
      List.mem_filter.mpr ⟨List.mem_map.mpr ⟨tx, htx, rfl⟩, by simp⟩
    cases hl : ((txs.reverse.map fun tx =>
        (tx.hash, tx.toSlab 0 Database.unconfirmed)).filter fun kv => kv.1 = tx.hash) with
    | nil => rw [hl] at this; cases this
    | cons a l =>
        cases hr : ((a :: l).map Prod.snd).reverse with
        | nil => simp at hr
        | cons slab rest => exact ⟨slab, rfl⟩
  · have hs : db''.spendsOf = db.spendsOf := by
      rw [hp.spends_eq, hw.spends_eq, hw.settings_eq]
      exact (congrArg (Stacks.popAll _) (spendRows_keys hsame).symm).trans
        (Stacks.popAll_pushAll _ _)
    rw [SpendDatabase.get_eq, SpendDatabase.get_eq]
    show (db''.spendsOf outpoint).head?.getD _ = (db.spendsOf outpoint).head?.getD _
    rw [hs]
  · have hs : db''.rows = db.rows := by
      rw [hp.rows_eq, hw.rows_eq, hw.settings_eq]
      exact (congrArg (Stacks.popAll _) (historyRows_keys hsame).symm).trans
        (Stacks.popAll_pushAll _ _)
    unfold HistoryDatabase.get
    exact congrArg (fun s => HistoryDatabase.select limit fromHeight (s key) []) hs

/-- **Pop undoes push.** -/
theorem pop_restores {content : HashDigest → Content} {db : DataBase} {b : Block} {height : Nat}
    (hr : Reachable content db) (hg : b.Genuine content) (hh : height < maxUint32)
    (hn : b.transactions.length ≤ maxUint32) (hd : b.hashes.Nodup)
    (hc : db.Connects b height) (hp : (db.push b height).2 = .success) :
    ∃ out, (db.push b height).1.pop.2 = some out ∧ SameBlock out b ∧
      Restored db b (db.push b height).1.pop.1 := by
  obtain ⟨hv, hspend, hw⟩ := push_success hp
  obtain ⟨_, hcount, _⟩ := verifyPush_success hv
  have hle := Nat.le_of_lt hh
  generalize (db.push b height).1 = db' at hw
  -- the transactions read back
  have hread : ∀ t ∈ b.transactions.zipIdx, ∃ tx, (t ∈ b.transactions.zipIdx ∧ SameAt t tx) ∧
      db'.ReadBack height (t.1.hash, t.2) tx := by
    intro t ht
    obtain ⟨tx, hrb, he, hce⟩ := hw.readBack hr.genuine hg hd hle hn ht
    exact ⟨tx, ⟨ht, he, hce, hc.coinbase t ht⟩, hrb⟩
  obtain ⟨txs, hall⟩ := exists_forall₂ hread
  have hmemSame := hall.imp fun _ _ h => h.1
  have hsame : List.Forall₂ SameAt b.transactions.zipIdx txs := hmemSame.imp fun _ _ h => h.2
  have hback : List.Forall₂ (db'.ReadBack height) b.hashes.zipIdx txs := by
    rw [hashes_zipIdx, List.forall₂_map_left_iff]
    exact hall.imp fun _ _ h => h.2
  -- the points unspent are the points spent
  have hpoints : ∀ p, p ∈ txs.reverse.flatMap Transaction.popPoints ↔ p ∈ b.previousOutputs := by
    intro p
    have h := @spendRows_keys _ _ 0 0 hsame
    simp only [Nat.lt_irrefl, if_false, spendRows_points] at h
    rw [← h, List.mem_reverse]
  have hin : ∀ {t tx}, t ∈ b.transactions.zipIdx ∧ SameAt t tx → ∀ p ∈ tx.popPoints,
      t.2 ≠ 0 ∧ ∃ input ∈ t.1.inputs, p = input.previousOutput := by
    rintro t tx ⟨_, hst⟩ p hp
    unfold Transaction.popPoints at hp
    rw [hst.isCoinbase_eq, hst.inputs_eq] at hp
    by_cases h0 : t.2 = 0
    · rw [if_pos (hst.coinbase_iff.mp h0)] at hp
      cases hp
    · rw [if_neg fun h => h0 (hst.coinbase_iff.mpr h)] at hp
      obtain ⟨input, hi, rfl⟩ := List.mem_map.mp hp
      exact ⟨h0, input, List.mem_reverse.mp hi, rfl⟩
  have hno : ∀ {t tx u v}, t ∈ b.transactions.zipIdx ∧ SameAt t tx →
      u ∈ b.transactions.zipIdx ∧ SameAt u v → t.2 ≤ u.2 → NoSpendOf tx v := by
    intro t tx u v ht hu hle' p hp
    obtain ⟨h0, input, hi, rfl⟩ := hin ht p hp
    rw [hu.2.hash_eq]
    exact hc.hash_ne hd hle ht.1 hu.1 h0 hle' hi
  have hunwind : Unwindable db'.transactions.slabs txs.reverse := by
    refine unwindable_of_earlier (fun tx htx => ?_) (fun tx htx p hp => ?_) (fun tx htx => ?_)
      (pairwise_of_forall₂ hmemSame (zipIdx_pairwise _ 0)
        fun _ _ _ _ h h' hlt => hno h h' (Nat.le_of_lt hlt))
    · obtain ⟨t, ht, ⟨_, hst⟩, slab, hs, _⟩ := forall₂_mem_right hall tx htx
      rw [hst.hash_eq]
      intro hnil
      rw [hnil] at hs
      cases hs
    · have hpb : p ∈ b.previousOutputs :=
        (hpoints p).mp (List.mem_flatMap.mpr ⟨tx, List.mem_reverse.mpr htx, hp⟩)
      rw [hw.slabs_eq]
      obtain ⟨slab, hs, hle', h⟩ := hspend p hpb
      exact (spendable_spendSlabs _ _).mpr ⟨slab, hs, Nat.le_trans hle' hle, h⟩
    · obtain ⟨t, _, h⟩ := forall₂_mem_right hmemSame tx htx
      exact hno h h (Nat.le_refl _)
  -- the pop
  have hcount' : db'.blocks.count = height + 1 := by
    rw [hw.blocks_eq, BlockDatabase.store_count _ _ hh, hcount]
    exact Nat.max_eq_right (Nat.le_succ _)
  have hat : db'.blocks.at? height = some ⟨b.header.hash, b.toSlab height⟩ := by
    rw [hw.blocks_eq, BlockDatabase.store_at _ _ hh, if_pos rfl]
  have hget := BlockDatabase.get_of_at hat
  have hres := BlockDatabase.reserves_of_at hat
  have hpops : db'.PopsTo height txs ⟨b.header, txs⟩ :=
    ⟨BlockDatabase.top_eq_some.mpr hcount', _, hget, hres, hback, hunwind, rfl⟩
  have hpop := (db'.pop_spec ⟨b.header, txs⟩).1.mpr ⟨height, txs, hpops⟩
  obtain ⟨height', txs', ⟨ht', _, hget', _, hback', _, hout⟩, hpd⟩ := (db'.pop_spec _).2 hpop
  cases ht'.symm.trans hpops.1
  cases congrArg Block.transactions hout
  refine ⟨_, hpop, ⟨rfl, ?_⟩, restored_of_popped hw hpd hcount hh hsame hpoints ?_⟩
  · have hfst : List.Forall₂ (fun tx tx' : Transaction => tx.hash = tx'.hash ∧
        tx.content = tx'.content) txs (b.transactions.zipIdx.map Prod.fst) :=
      List.forall₂_map_right_iff.mpr (hsame.flip.imp fun _ _ h => ⟨h.1, h.2⟩)
    rwa [List.zipIdx_map_fst] at hfst
  · intro p hp hnot slab hs o ho
    obtain ⟨tx, htx, hpt⟩ := List.mem_flatMap.mp ((hpoints p).mpr hp)
    obtain ⟨t, ht, h⟩ := forall₂_mem_right hmemSame tx (List.mem_reverse.mp htx)
    obtain ⟨h0, input, hi, rfl⟩ := hin h p hpt
    rcases hc.unspent t ht h0 input hi with ⟨slab', o', hf, ho', hn'⟩ | ⟨t', ht', _, he, _⟩
    · cases hs.symm.trans (db.transactions.find_true.mp hf).1
      cases ho.symm.trans ho'
      exact hn'
    · exact absurd (he ▸ List.mem_map_of_mem (List.fst_mem_of_mem_zipIdx ht')) hnot

/-- A created data base for the examples. -/
def sample : DataBase := @create Core.sample Settings.sample true .sampleStray .sampleGenesis

omit [Core] in
theorem sample_reachable {content : HashDigest → Content}
    (h : Block.sampleGenesis.Genuine content) : @Reachable Core.sample content sample :=
  @Reachable.create Core.sample content _ _ _ _ h

/-- A block whose second transaction spends the output of the first block. -/
def spendingBlock : Block :=
  .sample 2 1 [.sampleCoinbase 201 2, .sampleSpend 202 ⟨101, 0⟩ 1]

omit [Core] in
theorem spendingBlock_popped :
    ∃ out, (@pop Core.sample (@push Core.sample sample spendingBlock 1).1).2 = some out ∧
      SameBlock out spendingBlock ∧
      Restored sample spendingBlock (@pop Core.sample (@push Core.sample sample spendingBlock 1).1).1 := by
  have hg : ∀ tx ∈ Block.sampleGenesis.transactions ++ spendingBlock.transactions,
      tx.content = contentIn (Block.sampleGenesis.transactions ++ spendingBlock.transactions)
        tx.hash := by decide +kernel
  have hget : (sample.transactions.get 101 1 true).isSome = true := by decide +kernel
  have hout : ((sample.transactions.get 101 1 true).bind fun slab => slab.outputs[0]?).map
      Output.spenderHeight = some notSpent := by decide +kernel
  have hnone : (spendingBlock.hashes.all fun hash =>
      (sample.transactions.get hash maxSize true).isNone) = true := by decide +kernel
  refine @pop_restores Core.sample _ sample spendingBlock 1
    (sample_reachable fun tx h => hg tx (List.mem_append_left _ h))
    (fun tx h => hg tx (List.mem_append_right _ h)) (by decide) (by decide +kernel)
    (by decide +kernel) ⟨by decide +kernel, by decide +kernel, fun t ht h0 input hi => .inl ?_,
      fun hash h => Option.isNone_iff_eq_none.mp (List.all_eq_true.mp hnone hash h)⟩
    (by decide +kernel)
  obtain ⟨slab, hs⟩ := Option.isSome_iff_exists.mp hget
  have hprev : input.previousOutput = ⟨101, 0⟩ := by
    have : ∀ t ∈ spendingBlock.transactions.zipIdx, t.2 ≠ 0 → ∀ input ∈ t.1.inputs,
        input.previousOutput = ⟨101, 0⟩ := by decide +kernel
    exact this t ht h0 input hi
  rw [hs] at hout
  obtain ⟨o, ho, hn⟩ := Option.map_eq_some_iff.mp hout
  rw [hprev]
  exact ⟨slab, o, hs, ho, hn⟩

/-- A block with the same transaction twice, one without inputs. -/
def duplicateBlock : Block :=
  .sample 2 1 [.sampleCoinbase 201 2, ⟨202, 1, 0, [], [⟨notSpent, 50, []⟩], false⟩,
    ⟨202, 1, 0, [], [⟨notSpent, 50, []⟩], false⟩]

omit [Core] in
/-- Without distinct hashes a connecting block is pushed and cannot be popped: only the second
    slab of the hash is read. -/
theorem duplicateBlock_not_popped :
    @Reachable Core.sample (contentIn (Block.sampleGenesis.transactions ++
        duplicateBlock.transactions)) sample ∧
      duplicateBlock.Genuine (contentIn (Block.sampleGenesis.transactions ++
        duplicateBlock.transactions)) ∧
      Connects sample duplicateBlock 1 ∧
      (@push Core.sample sample duplicateBlock 1).2 = .success ∧
      (@pop Core.sample (@push Core.sample sample duplicateBlock 1).1).2 = none := by
  have hg : ∀ tx ∈ Block.sampleGenesis.transactions ++ duplicateBlock.transactions,
      tx.content = contentIn (Block.sampleGenesis.transactions ++ duplicateBlock.transactions)
        tx.hash := by decide +kernel
  have hin : ∀ t ∈ duplicateBlock.transactions.zipIdx, t.2 ≠ 0 → t.1.inputs = [] := by
    decide +kernel
  have hnone : (duplicateBlock.hashes.all fun hash =>
      (sample.transactions.get hash maxSize true).isNone) = true := by decide +kernel
  refine ⟨sample_reachable fun tx h => hg tx (List.mem_append_left _ h),
    fun tx h => hg tx (List.mem_append_right _ h), ⟨by decide +kernel, by decide +kernel,
      fun t ht h0 input hi => ?_,
      fun hash h => Option.isNone_iff_eq_none.mp (List.all_eq_true.mp hnone hash h)⟩,
    by decide +kernel, Option.isNone_iff_eq_none.mp (by decide +kernel)⟩
  rw [hin t ht h0] at hi
  cases hi

end DataBase

end Libbitcoin.Database
