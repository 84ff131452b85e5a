/-
  File:      BitprimDatabase/DataBase/Slabs.lean
  Subject:   THE SLABS UNDER THE LOOPS OF THE WRITERS: what storing a list of transactions and
             spending a list of points do to the newest slab of each hash.

  * `storeAll` with distinct hashes stores each transaction over what its hash held before;
  * `spendAll` succeeds exactly where every point is `Spendable` before the first is spent, and
    then edits the spender heights at the points and nothing else.
-/
import BitprimDatabase.DataBase

namespace Libbitcoin.Database

open Lib

/-- Slabs by transaction hash, newest first. -/
abbrev Slabs := Stacks HashDigest TransactionSlab

/-! ## 1. Storing -/

section Store

variable [Core]

/-- Store transactions at their positions, in order. -/
def storeAll (t : TransactionDatabase) (height : Nat) (l : List (Transaction × Nat)) :
    TransactionDatabase :=
  l.foldl (fun t tx => t.store tx.1 height tx.2) t

@[simp] theorem storeAll_cons (t : TransactionDatabase) (height : Nat) (tx : Transaction × Nat)
    (l : List (Transaction × Nat)) :
    storeAll t height (tx :: l) = storeAll (t.store tx.1 height tx.2) height l := rfl

theorem store_slabs_ne (t : TransactionDatabase) (tx : Transaction) (height position : Nat)
    {hash : HashDigest} (h : hash ≠ tx.hash) :
    (t.store tx height position).slabs hash = t.slabs hash := by
  rw [TransactionDatabase.store_slabs]
  split
  · exact Stacks.modifyTop_ne _ _ h
  · exact Stacks.push_ne _ _ h

theorem storeAll_slabs_notMem (t : TransactionDatabase) (height : Nat)
    {l : List (Transaction × Nat)} {hash : HashDigest} (h : ∀ tx ∈ l, tx.1.hash ≠ hash) :
    (storeAll t height l).slabs hash = t.slabs hash := by
  induction l generalizing t with
  | nil => rfl
  | cons tx l ih =>
      rw [storeAll_cons, ih _ fun tx' h' => h tx' (List.mem_cons_of_mem _ h')]
      exact store_slabs_ne t tx.1 height tx.2 (h tx List.mem_cons_self).symm

/-- What a store leaves under the transaction's hash only depends on what was there. -/
theorem store_slabs_congr {t t' : TransactionDatabase} {tx : Transaction}
    (h : t'.slabs tx.hash = t.slabs tx.hash) (height position : Nat) :
    (t'.store tx height position).slabs tx.hash = (t.store tx height position).slabs tx.hash := by
  have hp : t'.inPlace tx position = t.inPlace tx position := by
    unfold TransactionDatabase.inPlace
    rw [h]
  rw [TransactionDatabase.store_slabs, TransactionDatabase.store_slabs, hp]
  split
  · rw [Stacks.modifyTop_same, Stacks.modifyTop_same, h]
  · rw [Stacks.push_same, Stacks.push_same, h]

/-- **Distinct hashes do not see each other.** -/
theorem storeAll_slabs_mem (t : TransactionDatabase) (height : Nat)
    {l : List (Transaction × Nat)} (hn : (l.map fun tx => tx.1.hash).Nodup)
    {tx : Transaction × Nat} (h : tx ∈ l) :
    (storeAll t height l).slabs tx.1.hash = (t.store tx.1 height tx.2).slabs tx.1.hash := by
  induction l generalizing t with
  | nil => cases h
  | cons tx' l ih =>
      obtain ⟨hnot, hn'⟩ := List.nodup_cons.mp hn
      rw [storeAll_cons]
      rcases List.mem_cons.mp h with rfl | h
      · refine storeAll_slabs_notMem _ height fun tx' h' he => hnot ?_
        exact List.mem_map.mpr ⟨tx', h', he⟩
      · rw [ih _ hn' h]
        refine store_slabs_congr (store_slabs_ne t tx'.1 height tx'.2 fun he => hnot ?_) _ _
        exact List.mem_map.mpr ⟨tx, h, he⟩

/-- Transactions with distinct hashes are stored in any order. -/
theorem storeAll_slabs_perm (t : TransactionDatabase) (height : Nat)
    {l l' : List (Transaction × Nat)} (h : l.Perm l') (hn : (l.map fun tx => tx.1.hash).Nodup) :
    (storeAll t height l).slabs = (storeAll t height l').slabs := by
  funext hash
  by_cases hm : ∃ tx ∈ l, tx.1.hash = hash
  · obtain ⟨tx, htx, rfl⟩ := hm
    have hn' : (l'.map fun tx => tx.1.hash).Nodup := (h.map _).nodup_iff.mp hn
    rw [storeAll_slabs_mem t height hn htx, storeAll_slabs_mem t height hn' (h.mem_iff.mp htx)]
  · rw [storeAll_slabs_notMem t height fun tx htx he => hm ⟨tx, htx, he⟩,
      storeAll_slabs_notMem t height fun tx htx he => hm ⟨tx, h.mem_iff.mpr htx, he⟩]

/-- The newest slab of a stored hash has the height and the position of one of the transactions
    stored under it. -/
theorem storeAll_head (t : TransactionDatabase) (height : Nat) {l : List (Transaction × Nat)}
    {hash : HashDigest} (h : ∃ tx ∈ l, tx.1.hash = hash) :
    ∃ slab, ((storeAll t height l).slabs hash).head? = some slab ∧ slab.height = u32 height ∧
      ∃ tx ∈ l, tx.1.hash = hash ∧ slab.position = u32 tx.2 := by
  induction l generalizing t with
  | nil =>
      obtain ⟨_, h, _⟩ := h
      cases h
  | cons tx' l ih =>
      rw [storeAll_cons]
      by_cases hl : ∃ tx ∈ l, tx.1.hash = hash
      · obtain ⟨slab, hs, hh, tx, htx, he, hp⟩ := ih (t.store tx'.1 height tx'.2) hl
        exact ⟨slab, hs, hh, tx, List.mem_cons_of_mem _ htx, he, hp⟩
      · obtain ⟨tx, htx, he⟩ := h
        rcases List.mem_cons.mp htx with rfl | htx
        · obtain ⟨slab, hs, hh, hp, _⟩ := t.store_head tx.1 height tx.2
          refine ⟨slab, ?_, hh, tx, List.mem_cons_self, he, hp⟩
          rw [storeAll_slabs_notMem _ height fun tx' h' he' => hl ⟨tx', h', he'⟩, ← he]
          exact hs
        · exact absurd ⟨tx, htx, he⟩ hl

end Store

/-! ## 2. Spending -/

/-- The newest slab of the point's hash is confirmed at or below the height and has the output. -/
def Spendable (s : Slabs) (point : Point) (height : Nat) : Prop :=
  ∃ slab, (s point.hash).head? = some slab ∧ slab.height ≤ height ∧
    slab.position ≠ unconfirmed ∧ point.index < slab.outputs.length

/-- The spender heights written at the points, in order. -/
def spendSlabs (s : Slabs) (points : List Point) (height : Nat) : Slabs :=
  points.foldl (fun s point => s.modifyTop point.hash (TransactionSlab.spend point.index height)) s

/-- The spender heights written at the indexes. -/
def TransactionSlab.spendAt (indexes : List Nat) (height : Nat) (slab : TransactionSlab) :
    TransactionSlab :=
  { slab with
    outputs := slab.outputs.mapIdx fun i o =>
      if i ∈ indexes then { o with spenderHeight := u32 height } else o }

/-- The indexes of the points of one transaction. -/
def indexesOf (points : List Point) (hash : HashDigest) : List Nat :=
  (points.filter fun p => p.hash = hash).map Point.index

theorem mem_indexesOf {points : List Point} {hash : HashDigest} {index : Nat} :
    index ∈ indexesOf points hash ↔ ⟨hash, index⟩ ∈ points := by
  unfold indexesOf
  constructor
  · intro h
    obtain ⟨p, hp, rfl⟩ := List.mem_map.mp h
    obtain ⟨hp, he⟩ := List.mem_filter.mp hp
    have he : p.hash = hash := by simpa using he
    exact he ▸ hp
  · intro h
    exact List.mem_map.mpr ⟨_, List.mem_filter.mpr ⟨h, by simp⟩, rfl⟩

@[simp] theorem spendAt_length (indexes : List Nat) (height : Nat) (slab : TransactionSlab) :
    (slab.spendAt indexes height).outputs.length = slab.outputs.length := by
  simp [TransactionSlab.spendAt]

theorem spendAt_getElem? (indexes : List Nat) (height : Nat) (slab : TransactionSlab) (i : Nat) :
    (slab.spendAt indexes height).outputs[i]? = slab.outputs[i]?.map fun o =>
      if i ∈ indexes then { o with spenderHeight := u32 height } else o := by
  simp [TransactionSlab.spendAt]

theorem spendAt_nil (height : Nat) (slab : TransactionSlab) : slab.spendAt [] height = slab := by
  cases slab
  simp only [TransactionSlab.spendAt, List.not_mem_nil, if_false]
  congr 1
  exact List.ext_getElem? fun i => by simp

theorem spendAt_spend (index : Nat) (indexes : List Nat) (height : Nat) (slab : TransactionSlab) :
    (slab.spend index height).spendAt indexes height = slab.spendAt (index :: indexes) height := by
  unfold TransactionSlab.spendAt TransactionSlab.spend
  congr 1
  refine List.ext_getElem? fun i => ?_
  rw [List.getElem?_mapIdx, List.getElem?_mapIdx, List.getElem?_modify]
  cases slab.outputs[i]? with
  | none => rfl
  | some o =>
      by_cases hi : index = i
      · subst hi
        simp
      · have hne : i ≠ index := fun h => hi h.symm
        simp [hi, hne]

/-- **Spending points edits the newest slab of each hash at its own indexes.** -/
theorem spendSlabs_apply (s : Slabs) (points : List Point) (height : Nat) (hash : HashDigest) :
    spendSlabs s points height hash =
      (s hash).modifyHead (TransactionSlab.spendAt (indexesOf points hash) height) := by
  induction points generalizing s with
  | nil =>
      show s hash = _
      cases hs : s hash with
      | nil => rfl
      | cons slab rest => exact congrArg (· :: rest) (spendAt_nil height slab).symm
  | cons p points ih =>
      show spendSlabs (s.modifyTop p.hash _) points height hash = _
      rw [ih]
      by_cases hp : p.hash = hash
      · subst hp
        rw [Stacks.modifyTop_same]
        cases s p.hash with
        | nil => rfl
        | cons slab rest =>
            simp [indexesOf, spendAt_spend]
      · rw [Stacks.modifyTop_ne _ _ (Ne.symm hp)]
        simp [indexesOf, hp]

theorem spendSlabs_head (s : Slabs) (points : List Point) (height : Nat) (hash : HashDigest) :
    (spendSlabs s points height hash).head? =
      (s hash).head?.map (TransactionSlab.spendAt (indexesOf points hash) height) := by
  rw [spendSlabs_apply]
  cases s hash <;> rfl

/-- A spend of any output leaves what is spendable. -/
theorem spendable_modifyTop {s : Slabs} {p : Point} {height : Nat} (hash : HashDigest)
    (index spenderHeight : Nat) :
    Spendable (s.modifyTop hash (TransactionSlab.spend index spenderHeight)) p height ↔
      Spendable s p height := by
  unfold Spendable
  rw [Stacks.modifyTop_head]
  by_cases h : p.hash = hash
  · rw [if_pos h]
    cases (s p.hash).head? with
    | none => simp
    | some slab => simp [TransactionSlab.spend]
  · rw [if_neg h]

theorem spend_iff (t : TransactionDatabase) (point : Point) (height : Nat) :
    ((t.spend point height).2 = true ↔ Spendable t.slabs point height) ∧
      ((t.spend point height).2 = true → (t.spend point height).1.slabs =
        t.slabs.modifyTop point.hash (TransactionSlab.spend point.index height)) := by
  rcases t.spend_spec point height with ⟨slab, hf, hi, hr, hs⟩ | ⟨hn, hr, hs⟩
  · obtain ⟨hh, hle, hp⟩ := t.find_true.mp hf
    exact ⟨iff_of_true hr ⟨slab, hh, hle, hp, hi⟩, fun _ => hs⟩
  · refine ⟨iff_of_false (by simp [hr]) ?_, fun h => absurd h (by simp [hr])⟩
    rintro ⟨slab, hh, hle, hp, hi⟩
    exact absurd hi (Nat.not_lt.mpr (hn slab (t.find_true.mpr ⟨hh, hle, hp⟩)))

/-- **`spendAll` succeeds exactly where every point is spendable**, and then writes the spender
    height at each of them. -/
theorem spendAll_spec [Core] (t : TransactionDatabase) (height : Nat) (points : List Point) :
    ((DataBase.spendAll t height points).2 = true ↔ ∀ p ∈ points, Spendable t.slabs p height) ∧
      ((DataBase.spendAll t height points).2 = true →
        (DataBase.spendAll t height points).1.slabs = spendSlabs t.slabs points height) := by
  induction points generalizing t with
  | nil => exact ⟨by simp [DataBase.spendAll], fun _ => rfl⟩
  | cons p points ih =>
      obtain ⟨hiff, hslabs⟩ := spend_iff t p height
      unfold DataBase.spendAll
      rcases hsp : t.spend p height with ⟨t', b⟩
      rw [hsp] at hiff hslabs
      cases b with
      | false =>
          refine ⟨iff_of_false (by simp) fun h => ?_, fun h => by cases h⟩
          exact absurd (hiff.mpr (h p List.mem_cons_self)) (by simp)
      | true =>
          obtain ⟨ih₁, ih₂⟩ := ih t'
          have hs : t'.slabs = _ := hslabs rfl
          constructor
          · show (DataBase.spendAll t' height points).2 = true ↔ _
            rw [ih₁, List.forall_mem_cons]
            constructor
            · refine fun h => ⟨hiff.mp rfl, fun q hq => ?_⟩
              have := h q hq
              rwa [hs, spendable_modifyTop] at this
            · rintro ⟨_, h⟩ q hq
              rw [hs, spendable_modifyTop]
              exact h q hq
          · intro h
            show (DataBase.spendAll t' height points).1.slabs = _
            rw [ih₂ h, hs]
            rfl

end Libbitcoin.Database
