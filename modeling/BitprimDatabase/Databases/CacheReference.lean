/-
  File:      BitprimDatabase/Databases/CacheReference.lean
  Subject:   **THE OUTPUT CACHE AGAINST A BOUNDED NEWEST-FIRST MAP** (unspent_outputs.cpp), over every
             sequence of adds and removals.

  * `Reference` -- the reference: cached transactions, the one added last first, at most `capacity`
    of them; an add replaces the entry of its hash;
  * `Aged` -- the entries of the cache stand in the order of their sequence numbers and are at most
    `capacity`; `makeRoom_entries`: what makes room is the last of them;
  * `Renews` -- per add, when the cache does what the reference does: the bimap refuses the insert
    where an entry of the hash outlives the eviction;
  * **`cache_reference_iff`** -- the entries are those of the reference throughout exactly where every
    add renews, and then so are the answers.
-/
import BitprimDatabase.Lib.Run
import BitprimDatabase.Databases.UnspentOutputs

namespace Libbitcoin.Database

open Lib

/-! ## 1. The calls and the reference -/

/-- The calls that change the cache. -/
inductive CacheOp where
  | add (tx : Transaction) (height : Nat) (confirmed : Bool)
  | removePoint (point : Point)
  | remove (hash : HashDigest)

/-- **The reference**: the cached transactions, the one added last first. -/
abbrev Reference := List UnspentTransaction

namespace Reference

/-- What is left of an entry once an output is removed. -/
def dropOutput (point : Point) (u : UnspentTransaction) : Option UnspentTransaction :=
  if u.hash == point.hash then
    let outputs := u.outputs.filter fun io => io.1 != point.index
    if outputs.isEmpty then none else some { u with outputs := outputs }
  else some u

theorem dropOutput_hash {point : Point} {u u' : UnspentTransaction}
    (h : dropOutput point u = some u') : u'.hash = u.hash := by
  unfold dropOutput at h
  dsimp only at h
  split at h
  · split at h
    · cases h
    · cases h
      rfl
  · cases h
    rfl

def apply (capacity : Nat) (entries : Reference) : CacheOp → Reference
  | .add tx height confirmed =>
    if tx.outputs.isEmpty then entries
    else (UnspentTransaction.ofTransaction tx height confirmed ::
      entries.filter fun u => u.hash != tx.hash).take capacity
  | .removePoint point => entries.filterMap (dropOutput point)
  | .remove hash => entries.filter fun u => u.hash != hash

/-- A hit is the output of the entry, confirmed if required, not above the fork. -/
def getIsConfirmed (entries : Reference) (point : Point) (forkHeight : Nat)
    (requireConfirmed : Bool) : Option UnspentOutputs.Hit :=
  (entries.find? fun u => u.hash == point.hash).bind fun u =>
    if (!requireConfirmed || u.isConfirmed) && decide (u.height ≤ forkHeight) then
      (u.output point.index).map fun o => ⟨o, u.height, u.isCoinbase, u.isConfirmed⟩
    else none

def get (entries : Reference) (point : Point) (forkHeight : Nat) (requireConfirmed : Bool) :
    Option (Output × Nat × Bool) :=
  (entries.getIsConfirmed point forkHeight requireConfirmed).map
    fun h => (h.output, h.height, h.coinbase)

end Reference

namespace UnspentOutputs

def apply (c : UnspentOutputs) : CacheOp → UnspentOutputs
  | .add tx height confirmed => c.add tx height confirmed
  | .removePoint point => c.removePoint point
  | .remove hash => c.remove hash

/-- The cached transactions, in the order of the bimap's relations. -/
def entries (c : UnspentOutputs) : Reference := c.unspent.map Prod.fst

/-- The entries that outlive the room `add` makes. -/
def outliving (c : UnspentOutputs) : Reference :=
  if c.sequence = maxUint32 then []
  else if c.entries.length ≥ c.capacity then c.entries.dropLast
  else c.entries

/-- **When an add does what the reference does**: no entry of its hash outlives the room made, or
    the cache is not full and the entry is the newest one already and the same; where the map is
    cleared, nothing else was to be kept. -/
def Renews (c : UnspentOutputs) (tx : Transaction) (height : Nat) (confirmed : Bool) : Prop :=
  tx.outputs = [] ∨
    if c.sequence = maxUint32 then c.capacity = 1 ∨ ∀ u ∈ c.entries, u.hash = tx.hash
    else (∀ u ∈ c.outliving, u.hash ≠ tx.hash) ∨
      (c.entries.length < c.capacity ∧
        c.entries.head? = some (UnspentTransaction.ofTransaction tx height confirmed))

instance (c : UnspentOutputs) (tx : Transaction) (height : Nat) (confirmed : Bool) :
    Decidable (c.Renews tx height confirmed) :=
  inferInstanceAs (Decidable (tx.outputs = [] ∨
    if c.sequence = maxUint32 then c.capacity = 1 ∨ ∀ u ∈ c.entries, u.hash = tx.hash
    else (∀ u ∈ c.outliving, u.hash ≠ tx.hash) ∨
      (c.entries.length < c.capacity ∧
        c.entries.head? = some (UnspentTransaction.ofTransaction tx height confirmed))))

/-- The condition on a call. -/
def Keeps (c : UnspentOutputs) : CacheOp → Prop
  | .add tx height confirmed => c.Renews tx height confirmed
  | .removePoint _ => True
  | .remove _ => True

instance (c : UnspentOutputs) (op : CacheOp) : Decidable (c.Keeps op) :=
  match op with
  | .add tx height confirmed => inferInstanceAs (Decidable (c.Renews tx height confirmed))
  | .removePoint _ => .isTrue True.intro
  | .remove _ => .isTrue True.intro

/-! ## 2. The order of the entries -/

/-- **The entries stand in the order of their sequence numbers, newest first**, and fit. -/
structure Aged (c : UnspentOutputs) : Prop where
  wf : c.WF
  descending : c.unspent.Pairwise fun us us' => us'.2 < us.2
  length_le : c.unspent.length ≤ c.capacity

theorem create_aged (capacity : Nat) : (create capacity).Aged :=
  ⟨create_wf capacity, .nil, Nat.zero_le _⟩

theorem length_entries (c : UnspentOutputs) : c.entries.length = c.unspent.length :=
  List.length_map ..

/-- The oldest of entries in order is the last one. -/
theorem eraseOldest_eq {l : List (UnspentTransaction × Nat)}
    (h : l.Pairwise fun us us' => us'.2 < us.2) : eraseOldest l = l.dropLast := by
  rcases List.eq_nil_or_concat l with rfl | ⟨xs, x, rfl⟩
  · rfl
  · rw [List.concat_eq_append] at h ⊢
    obtain ⟨_, _, hlt⟩ := List.pairwise_append.mp h
    have hmin : ((xs ++ [x]).map Prod.snd).min? = some x.2 := by
      refine List.min?_eq_some_iff.mpr ⟨by simp, fun n hn => ?_⟩
      obtain ⟨us, hus, rfl⟩ := List.mem_map.mp hn
      rcases List.mem_append.mp hus with hus | hus
      · exact Nat.le_of_lt (hlt us hus x (List.mem_singleton_self x))
      · exact Nat.le_of_eq (congrArg Prod.snd (List.mem_singleton.mp hus).symm)
    unfold eraseOldest
    rw [hmin]
    dsimp only
    have hkeep : ∀ us ∈ xs, (us.2 != x.2) = true := fun us hus =>
      bne_iff_ne.mpr (Nat.ne_of_gt (hlt us hus x (List.mem_singleton_self x)))
    rw [List.filter_append, List.filter_eq_self.mpr hkeep, List.dropLast_concat]
    simp

section Aged

variable {c : UnspentOutputs}

theorem Aged.makeRoom_unspent (h : c.Aged) : c.makeRoom.unspent =
    if c.sequence = maxUint32 then []
    else if c.unspent.length ≥ c.capacity then c.unspent.dropLast
    else c.unspent := by
  by_cases hs : c.sequence = maxUint32
  · rw [if_pos hs, makeRoom_wrap hs]
  · unfold makeRoom
    simp only [hs, if_false]
    by_cases hl : c.unspent.length ≥ c.capacity
    · rw [if_pos hl, if_pos hl, eraseOldest_eq h.descending]
    · rw [if_neg hl, if_neg hl]

/-- **What outlives the room made**: everything, or everything but the oldest entry. -/
theorem Aged.makeRoom_entries (h : c.Aged) : c.makeRoom.entries = c.outliving := by
  unfold outliving entries
  rw [h.makeRoom_unspent, List.length_map]
  split
  · rfl
  · split
    · rw [List.map_dropLast]
    · rfl

theorem find_eq (c : UnspentOutputs) (hash : HashDigest) :
    c.find hash = c.entries.find? fun u => u.hash == hash := by
  unfold find entries
  rw [List.find?_map]
  rfl

/-- **The entries after an add.** -/
theorem Aged.add_entries (h : c.Aged) {tx : Transaction} (hcap : 0 < c.capacity)
    (ho : tx.outputs ≠ []) (height : Nat) (confirmed : Bool) :
    (c.add tx height confirmed).entries =
      if ∃ u ∈ c.outliving, u.hash = tx.hash then c.outliving
      else UnspentTransaction.ofTransaction tx height confirmed :: c.outliving := by
  have hd : ¬(c.disabled ∨ tx.outputs = []) := by
    have : c.disabled = false := beq_false_of_ne (Nat.ne_of_gt hcap)
    simp [this, ho]
  have hadd := h.wf.add_unspent hd height confirmed
  rw [← h.makeRoom_entries]
  unfold entries at hadd ⊢
  rw [hadd]
  cases hf : c.makeRoom.find tx.hash with
  | some u =>
      obtain ⟨⟨n, hm⟩, hu⟩ := find_mem hf
      rw [if_pos ⟨u, List.mem_map.mpr ⟨_, hm, rfl⟩, hu⟩]
  | none =>
      rw [if_neg]
      · rfl
      · rintro ⟨u, hu, he⟩
        obtain ⟨us, hus, rfl⟩ := List.mem_map.mp hu
        exact find_none.mp hf us hus he

theorem Aged.makeRoom_lt (h : c.Aged) (hcap : 0 < c.capacity) :
    c.makeRoom.unspent.length < c.capacity := by
  have hle := h.length_le
  rw [h.makeRoom_unspent]
  split
  · exact hcap
  · split
    · rw [List.length_dropLast]
      omega
    · omega

theorem Aged.add (h : c.Aged) (tx : Transaction) (height : Nat) (confirmed : Bool) :
    (c.add tx height confirmed).Aged := by
  by_cases hd : c.disabled ∨ tx.outputs = []
  · rw [add_skip hd]
    exact h
  · have hcap : 0 < c.capacity := by
      have : c.capacity ≠ 0 := by simpa [disabled] using (not_or.mp hd).1
      omega
    have hlt := h.makeRoom_lt hcap
    have hdesc : c.makeRoom.unspent.Pairwise fun us us' => us'.2 < us.2 :=
      h.descending.sublist c.makeRoom_sublist
    refine ⟨h.wf.add tx height confirmed, ?_, ?_⟩
    · rw [h.wf.add_unspent hd height confirmed]
      split
      · exact hdesc
      · exact .cons (fun us hus => h.wf.sequence_ne hus) hdesc
    · rw [add_capacity, h.wf.add_unspent hd height confirmed]
      split
      · exact Nat.le_of_lt hlt
      · exact hlt

theorem WF.remove (h : c.WF) (hash : HashDigest) : (c.remove hash).WF := by
  unfold UnspentOutputs.remove
  split
  · exact h
  · rename_i hd
    exact
      { hash_unique := h.hash_unique.filter _
        sequence_le := fun us hus => h.sequence_le us (List.mem_of_mem_filter hus)
        sequence_bound := h.sequence_bound
        outputs_ne := fun us hus => h.outputs_ne us (List.mem_of_mem_filter hus)
        index_unique := fun us hus => h.index_unique us (List.mem_of_mem_filter hus)
        disabled_empty := fun h0 => absurd (beq_iff_eq.mpr h0) hd }

theorem remove_capacity (c : UnspentOutputs) (hash : HashDigest) :
    (c.remove hash).capacity = c.capacity := by
  unfold UnspentOutputs.remove
  split <;> rfl

theorem remove_entries (hcap : 0 < c.capacity) (hash : HashDigest) :
    (c.remove hash).entries = c.entries.filter fun u => u.hash != hash := by
  unfold UnspentOutputs.remove
  rw [if_neg (by simpa [disabled] using Nat.ne_of_gt hcap)]
  unfold entries
  rw [List.filter_map]
  rfl

/-- The relations after the removal of an output: each keeps its sequence number. -/
theorem removePoint_unspent (hcap : 0 < c.capacity) (point : Point) :
    (c.removePoint point).unspent = c.unspent.filterMap fun us =>
      (Reference.dropOutput point us.1).map fun u => (u, us.2) := by
  unfold removePoint
  rw [if_neg (by simpa [disabled] using Nat.ne_of_gt hcap)]
  refine List.filterMap_congr fun us _ => ?_
  unfold Reference.dropOutput
  dsimp only
  split
  · split <;> rfl
  · rfl

theorem removePoint_entries (hcap : 0 < c.capacity) (point : Point) :
    (c.removePoint point).entries = c.entries.filterMap (Reference.dropOutput point) := by
  unfold entries
  rw [removePoint_unspent hcap, List.map_filterMap, List.filterMap_map]
  refine List.filterMap_congr fun us _ => ?_
  rw [Option.map_map]
  exact Option.map_id'

theorem Aged.removePoint (h : c.Aged) (hcap : 0 < c.capacity) (point : Point) :
    (c.removePoint point).Aged := by
  refine ⟨h.wf.removePoint point, ?_, ?_⟩
  · rw [removePoint_unspent hcap]
    refine h.descending.filterMap _ fun us us' hlt v hv v' hv' => ?_
    obtain ⟨_, _, rfl⟩ := Option.map_eq_some_iff.mp hv
    obtain ⟨_, _, rfl⟩ := Option.map_eq_some_iff.mp hv'
    exact hlt
  · rw [removePoint_capacity, removePoint_unspent hcap]
    exact Nat.le_trans (List.length_filterMap_le _ _) h.length_le

theorem Aged.remove (h : c.Aged) (hash : HashDigest) : (c.remove hash).Aged := by
  refine ⟨h.wf.remove hash, ?_, ?_⟩
  · unfold UnspentOutputs.remove
    split
    · exact h.descending
    · exact h.descending.filter _
  · rw [remove_capacity]
    unfold UnspentOutputs.remove
    split
    · exact h.length_le
    · exact Nat.le_trans (List.length_filter_le _ _) h.length_le

theorem apply_capacity (c : UnspentOutputs) (op : CacheOp) :
    (c.apply op).capacity = c.capacity := by
  cases op with
  | add tx height confirmed => exact c.add_capacity tx height confirmed
  | removePoint point => exact c.removePoint_capacity point
  | remove hash => exact c.remove_capacity hash

/-- **Every call keeps the order.** -/
theorem Aged.apply (h : c.Aged) (hcap : 0 < c.capacity) (op : CacheOp) : (c.apply op).Aged := by
  cases op with
  | add tx height confirmed => exact h.add tx height confirmed
  | removePoint point => exact h.removePoint hcap point
  | remove hash => exact h.remove hash

end Aged

/-! ## 3. One add -/

section Add

variable {es : Reference} {e : UnspentTransaction} {capacity : Nat}

/-- The other entries, where no entry has the hash. -/
theorem filter_of_absent {hash : HashDigest} (h : ∀ u ∈ es, u.hash ≠ hash) :
    es.filter (fun u => u.hash != hash) = es :=
  List.filter_eq_self.mpr fun u hu => bne_iff_ne.mpr (h u hu)

/-- The other entries, where one has the hash. -/
theorem filter_of_mem (hu : es.Pairwise fun u u' => u.hash ≠ u'.hash) {xs ys : Reference}
    {u : UnspentTransaction} (he : es = xs ++ u :: ys) :
    es.filter (fun u' => u'.hash != u.hash) = xs ++ ys := by
  subst he
  obtain ⟨_, hys, hxs⟩ := List.pairwise_append.mp hu
  rw [List.filter_append, List.filter_cons_of_neg (by simp),
    filter_of_absent fun u' hm => hxs u' hm u List.mem_cons_self,
    filter_of_absent fun u' hm => ((List.pairwise_cons.mp hys).1 u' hm).symm]

/-- Room is left. -/
theorem insert_eq_iff (hu : es.Pairwise fun u u' => u.hash ≠ u'.hash) (hlt : es.length < capacity) :
    (if ∃ u ∈ es, u.hash = e.hash then es else e :: es) =
        (e :: es.filter fun u => u.hash != e.hash).take capacity ↔
      (∀ u ∈ es, u.hash ≠ e.hash) ∨ es.head? = some e := by
  have htake : (e :: es.filter fun u => u.hash != e.hash).take capacity =
      e :: es.filter fun u => u.hash != e.hash := by
    refine List.take_of_length_le ?_
    have := List.length_filter_le (fun u : UnspentTransaction => u.hash != e.hash) es
    rw [List.length_cons]
    omega
  rw [htake]
  by_cases hm : ∃ u ∈ es, u.hash = e.hash
  · have hnot : ¬ ∀ u ∈ es, u.hash ≠ e.hash := by
      obtain ⟨u, hm, he⟩ := hm
      exact fun h => h u hm he
    rw [if_pos hm, or_iff_right hnot]
    constructor
    · intro he
      rw [he]
      rfl
    · intro hhead
      obtain ⟨rest, rfl⟩ : ∃ rest, es = e :: rest := List.head?_eq_some_iff.mp hhead
      have hsplit : e :: rest = [] ++ e :: rest := rfl
      rw [filter_of_mem hu hsplit]
      rfl
  · have habs : ∀ u ∈ es, u.hash ≠ e.hash := fun u hu he => hm ⟨u, hu, he⟩
    rw [if_neg hm, filter_of_absent habs]
    exact iff_of_true rfl (.inl habs)

/-- The cache is full: the oldest entry goes first. -/
theorem evict_eq_iff (hu : es.Pairwise fun u u' => u.hash ≠ u'.hash) (hlen : es.length = capacity)
    (hcap : 0 < capacity) :
    (if ∃ u ∈ es.dropLast, u.hash = e.hash then es.dropLast else e :: es.dropLast) =
        (e :: es.filter fun u => u.hash != e.hash).take capacity ↔
      ∀ u ∈ es.dropLast, u.hash ≠ e.hash := by
  rcases List.eq_nil_or_concat es with rfl | ⟨xs, x, rfl⟩
  · rw [← hlen] at hcap
    exact absurd hcap (Nat.lt_irrefl 0)
  rw [List.concat_eq_append] at hu hlen ⊢
  rw [List.dropLast_concat]
  rw [List.length_append] at hlen
  by_cases hm : ∃ u ∈ xs, u.hash = e.hash
  · have hnot : ¬ ∀ u ∈ xs, u.hash ≠ e.hash := by
      obtain ⟨u, hm, he⟩ := hm
      exact fun h => h u hm he
    rw [if_pos hm]
    refine iff_of_false (fun he => ?_) hnot
    -- the reference keeps `capacity` entries, the refused insert leaves one fewer
    obtain ⟨u, hmem, hhash⟩ := hm
    obtain ⟨ys, zs, rfl⟩ := List.append_of_mem hmem
    have hsplit : ys ++ u :: zs ++ [x] = ys ++ u :: (zs ++ [x]) := by simp
    have hlength := congrArg List.length he
    rw [← hhash, filter_of_mem hu hsplit, List.length_take] at hlength
    simp only [List.length_append, List.length_cons, List.length_nil] at hlength hlen
    omega
  · have habs : ∀ u ∈ xs, u.hash ≠ e.hash := fun u hu he => hm ⟨u, hu, he⟩
    rw [if_neg hm]
    refine iff_of_true ?_ habs
    rw [List.filter_append, filter_of_absent habs, ← List.cons_append, List.take_left']
    simpa using hlen

/-- The map is cleared. -/
theorem clear_eq_iff (hcap : 0 < capacity) :
    [e] = (e :: es.filter fun u => u.hash != e.hash).take capacity ↔
      capacity = 1 ∨ ∀ u ∈ es, u.hash = e.hash := by
  obtain ⟨n, rfl⟩ := Nat.exists_eq_succ_of_ne_zero (Nat.ne_of_gt hcap)
  rw [List.take_succ_cons, List.cons_eq_cons, and_iff_right rfl, eq_comm, List.take_eq_nil_iff,
    List.filter_eq_nil_iff]
  simp

end Add

/-- **An add does what the reference does exactly where it renews.** -/
theorem Aged.add_iff {c : UnspentOutputs} (h : c.Aged) (hcap : 0 < c.capacity) (tx : Transaction)
    (height : Nat) (confirmed : Bool) :
    (c.add tx height confirmed).entries =
        c.entries.apply c.capacity (.add tx height confirmed) ↔ c.Renews tx height confirmed := by
  have hunique : c.entries.Pairwise fun u u' => u.hash ≠ u'.hash :=
    List.pairwise_map.mpr h.wf.hash_unique
  have hlen := c.length_entries
  have hle := h.length_le
  unfold Reference.apply Renews
  dsimp only
  by_cases ho : tx.outputs = []
  · rw [if_pos (by simp [ho]), add_skip (.inr ho)]
    exact iff_of_true rfl (.inl ho)
  · rw [if_neg (by simpa using ho), h.add_entries hcap ho, or_iff_right ho]
    have hhash : tx.hash = (UnspentTransaction.ofTransaction tx height confirmed).hash := rfl
    by_cases hs : c.sequence = maxUint32
    · have hout : c.outliving = [] := if_pos hs
      rw [if_pos hs, hout, if_neg (by simp), hhash]
      exact clear_eq_iff hcap
    · rw [if_neg hs]
      by_cases hl : c.entries.length ≥ c.capacity
      · have hout : c.outliving = c.entries.dropLast := by
          unfold outliving
          rw [if_neg hs, if_pos hl]
        rw [hout, hhash, evict_eq_iff hunique (by omega) hcap]
        refine (or_iff_left fun hroom => ?_).symm
        exact absurd hroom.1 (Nat.not_lt_of_le hl)
      · have hout : c.outliving = c.entries := by
          unfold outliving
          rw [if_neg hs, if_neg hl]
        have hlt := Nat.lt_of_not_le hl
        rw [hout, hhash, insert_eq_iff hunique hlt, and_iff_right hlt]

/-! ## 4. Runs -/

/-- The cache and the reference next to it. -/
structure Mirrored where
  cache : UnspentOutputs
  reference : Reference

namespace Mirrored

def create (capacity : Nat) : Mirrored := ⟨UnspentOutputs.create capacity, []⟩

def step (s : Mirrored) (op : CacheOp) : Mirrored :=
  ⟨s.cache.apply op, s.reference.apply s.cache.capacity op⟩

/-- The entries of the cache are those of the reference, in its order. -/
def Alike (s : Mirrored) : Prop := s.cache.entries = s.reference

/-- The cache answers what the reference answers. -/
def AnswersAlike (s : Mirrored) : Prop :=
  ∀ point forkHeight requireConfirmed,
    s.cache.getIsConfirmed point forkHeight requireConfirmed =
        s.reference.getIsConfirmed point forkHeight requireConfirmed ∧
      s.cache.get point forkHeight requireConfirmed =
        s.reference.get point forkHeight requireConfirmed

end Mirrored

/-- The entries decide the answers. -/
theorem getIsConfirmed_entries {c : UnspentOutputs} (hcap : 0 < c.capacity) (point : Point)
    (forkHeight : Nat) (requireConfirmed : Bool) :
    c.getIsConfirmed point forkHeight requireConfirmed =
      c.entries.getIsConfirmed point forkHeight requireConfirmed := by
  have hd : c.disabled = false := beq_false_of_ne (Nat.ne_of_gt hcap)
  unfold getIsConfirmed Reference.getIsConfirmed
  rw [hd, if_neg Bool.false_ne_true, find_eq]
  cases c.entries.find? fun u => u.hash == point.hash with
  | none => rfl
  | some u =>
      rw [Option.bind_some]
      dsimp only
      by_cases hr : (requireConfirmed && !u.isConfirmed) = true
      · have hn : (!requireConfirmed || u.isConfirmed) = false := by
          cases requireConfirmed <;> cases hu : u.isConfirmed <;> simp_all
        rw [if_pos hr, hn]
        rfl
      · have hn : (!requireConfirmed || u.isConfirmed) = true := by
          cases requireConfirmed <;> cases hu : u.isConfirmed <;> simp_all
        rw [if_neg hr, hn, Bool.true_and]
        by_cases hh : u.height > forkHeight
        · rw [if_neg (by simpa using hh)]
          cases u.output point.index with
          | none => rfl
          | some o => exact if_pos hh
        · rw [if_pos (by simpa using hh)]
          cases u.output point.index with
          | none => rfl
          | some o => exact if_neg hh

theorem Mirrored.Alike.answers {s : Mirrored} (h : s.Alike) (hcap : 0 < s.cache.capacity) :
    s.AnswersAlike := by
  have hall := getIsConfirmed_entries hcap
  rw [h] at hall
  refine fun point forkHeight requireConfirmed => ⟨hall point forkHeight requireConfirmed, ?_⟩
  unfold UnspentOutputs.get Reference.get
  rw [hall]

/-- **One call.** -/
theorem Mirrored.step_alike {s : Mirrored} (ha : s.cache.Aged) (hcap : 0 < s.cache.capacity)
    (h : s.Alike) (op : CacheOp) : (s.step op).Alike ↔ s.cache.Keeps op := by
  unfold Mirrored.Alike at h ⊢
  cases op with
  | add tx height confirmed =>
      have hadd := ha.add_iff hcap tx height confirmed
      rw [h] at hadd
      exact hadd
  | removePoint point =>
      refine iff_of_true ?_ True.intro
      exact (removePoint_entries hcap point).trans (congrArg _ h)
  | remove hash =>
      refine iff_of_true ?_ True.intro
      exact (remove_entries hcap hash).trans (congrArg _ h)

/-- **The cache is the bounded newest-first map exactly where every add renews**, and then it answers
    what the map answers, in every state of the run. -/
theorem cache_reference_iff {capacity : Nat} (hcap : 0 < capacity) (ops : List CacheOp) :
    (Always Mirrored.step Mirrored.Alike (Mirrored.create capacity) ops ↔
        EveryStep Mirrored.step (fun s op => s.cache.Keeps op) (Mirrored.create capacity) ops) ∧
      (EveryStep Mirrored.step (fun s op => s.cache.Keeps op) (Mirrored.create capacity) ops →
        Always Mirrored.step Mirrored.AnswersAlike (Mirrored.create capacity) ops) := by
  have hiff : Always Mirrored.step Mirrored.Alike (Mirrored.create capacity) ops ↔
      EveryStep Mirrored.step (fun s op => s.cache.Keeps op) (Mirrored.create capacity) ops := by
    refine always_iff_everyStep (I := fun s => s.cache.Aged ∧ 0 < s.cache.capacity) ?_ ?_ ?_ ?_
      (EveryStep.trivial _ _)
    · rintro s op ⟨ha, hpos⟩ - -
      refine ⟨ha.apply hpos op, ?_⟩
      show 0 < (s.cache.apply op).capacity
      rwa [s.cache.apply_capacity op]
    · rintro s op ⟨ha, hpos⟩ halike -
      exact s.step_alike ha hpos halike op
    · exact ⟨create_aged capacity, hcap⟩
    · rfl
  refine ⟨hiff, fun h => ?_⟩
  refine always_iff_prefix.mpr fun xs ys hxy => ?_
  have hcapacity : (run Mirrored.step (Mirrored.create capacity) xs).cache.capacity = capacity :=
    run_of_step (P := fun s : Mirrored => s.cache.capacity = capacity)
      (fun s op he => (s.cache.apply_capacity op).trans he) xs rfl
  have halike := always_iff_prefix.mp (hiff.mpr h) xs ys hxy
  exact halike.answers (by rwa [hcapacity])

/-- A transaction is cached, spent, and cached again next to another one. -/
def refilled : List CacheOp :=
  [.add (.sampleSpend 102 ⟨101, 0⟩ 2) 1 true, .add (.sampleSpend 103 ⟨101, 1⟩ 3) 2 false,
    .removePoint ⟨103, 0⟩, .add (.sampleSpend 103 ⟨101, 1⟩ 3) 3 true, .remove 102]

theorem refilled_alike :
    EveryStep Mirrored.step (fun s op => s.cache.Keeps op) (Mirrored.create 2) refilled ∧
      Always Mirrored.step Mirrored.AnswersAlike (Mirrored.create 2) refilled := by
  have h : EveryStep Mirrored.step (fun s op => s.cache.Keeps op) (Mirrored.create 2) refilled := by
    decide +kernel
  exact ⟨h, (cache_reference_iff (by decide) refilled).2 h⟩

/-- A full cache, and the newer one of its transactions is added again, now confirmed. -/
def refused : List CacheOp :=
  [.add (.sampleSpend 102 ⟨101, 0⟩ 2) 1 true, .add (.sampleSpend 103 ⟨101, 1⟩ 3) 2 false,
    .add (.sampleSpend 103 ⟨101, 1⟩ 3) 3 true]

/-- **The older transaction is evicted for an insert that is refused**: its output is a miss, and
    the newer one stays unconfirmed. -/
theorem refused_loses :
    ¬ Always Mirrored.step Mirrored.AnswersAlike (Mirrored.create 2) refused := by
  intro h
  have hmiss : (run Mirrored.step (Mirrored.create 2) refused).cache.getIsConfirmed ⟨102, 0⟩ 3 true =
      none := by decide +kernel
  have hhit : ((run Mirrored.step (Mirrored.create 2) refused).reference.getIsConfirmed ⟨102, 0⟩ 3
      true).isSome = true := by decide +kernel
  rw [← (h.last ⟨102, 0⟩ 3 true).1, hmiss] at hhit
  cases hhit

end UnspentOutputs

end Libbitcoin.Database
