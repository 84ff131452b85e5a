/-
  File:      BitprimDatabase/Databases/CacheAge.lean
  Subject:   **THE AGE OF THE CACHED TRANSACTIONS** (unspent_outputs.cpp `add`, `remove`), over every
             sequence of adds and removals, beyond the last sequence number.

  * `Dated` -- the cache, the number of calls so far and the call that inserted the entry of a hash;
    `Inserts` -- the bimap takes the insert;
  * `Dated.Ordered` -- **the bound and the order**: at most `capacity` entries, their sequence numbers
    distinct and in the order of their insertion, none without outputs;
  * `Dated.EvictsOldest` -- an add evicts the oldest entry only; `Dated.Leaves` -- what an add leaves,
    where it clears the cache too;
  * **`cache_age`** -- the order holds in every state, and every add leaves what it should;
    `wrapped_evicts_newest` -- the add behind the last sequence number takes the newest entry too.
-/
import Mathlib.Logic.Function.Basic
import BitprimDatabase.Databases.CacheReference

namespace Libbitcoin.Database

open Lib

/-- Two numbers that fall along a list order its items alike. -/
theorem lt_iff_lt_of_pairwise {α : Type} {f g : α → Nat} {l : List α}
    (hf : l.Pairwise fun x y => f y < f x) (hg : l.Pairwise fun x y => g y < g x) :
    ∀ x ∈ l, ∀ y ∈ l, f x < f y ↔ g x < g y := by
  induction l with
  | nil => exact fun x hx => (nomatch hx)
  | cons z l ih =>
      obtain ⟨hfz, hf⟩ := List.pairwise_cons.mp hf
      obtain ⟨hgz, hg⟩ := List.pairwise_cons.mp hg
      intro x hx y hy
      rcases List.mem_cons.mp hx with rfl | hxl <;> rcases List.mem_cons.mp hy with rfl | hyl
      · exact iff_of_false (Nat.lt_irrefl _) (Nat.lt_irrefl _)
      · exact iff_of_false (Nat.lt_asymm (hfz y hyl)) (Nat.lt_asymm (hgz y hyl))
      · exact iff_of_true (hfz x hxl) (hgz x hxl)
      · exact ih hf hg x hxl y hyl

namespace UnspentOutputs

/-! ## 1. The cache and when its entries were inserted -/

/-- **The bimap takes what `add` inserts**: neither the hash nor the sequence number is there. -/
def Inserts (c : UnspentOutputs) (tx : Transaction) : Prop :=
  ¬(c.disabled ∨ tx.outputs = []) ∧
    ∀ us ∈ c.makeRoom.unspent, us.1.hash ≠ tx.hash ∧ us.2 ≠ u32 (c.sequence + 1)

instance (c : UnspentOutputs) (tx : Transaction) : Decidable (c.Inserts tx) :=
  inferInstanceAs (Decidable (¬(c.disabled ∨ tx.outputs = []) ∧
    ∀ us ∈ c.makeRoom.unspent, us.1.hash ≠ tx.hash ∧ us.2 ≠ u32 (c.sequence + 1)))

/-- The cache, the calls so far, and the call that inserted the entry of a hash. -/
structure Dated where
  cache : UnspentOutputs
  clock : Nat
  inserted : HashDigest → Nat

namespace Dated

def create (capacity : Nat) : Dated := ⟨UnspentOutputs.create capacity, 0, fun _ => 0⟩

/-- The dates after a call. -/
def insertedBy (s : Dated) : CacheOp → HashDigest → Nat
  | .add tx _ _ =>
    if s.cache.Inserts tx then Function.update s.inserted tx.hash s.clock else s.inserted
  | .removePoint _ => s.inserted
  | .remove _ => s.inserted

def step (s : Dated) (op : CacheOp) : Dated :=
  ⟨s.cache.apply op, s.clock + 1, s.insertedBy op⟩

/-- When an entry was inserted. -/
def date (s : Dated) (us : UnspentTransaction × Nat) : Nat := s.inserted us.1.hash

/-- **The bound and the order of the entries.** -/
structure Ordered (capacity : Nat) (s : Dated) : Prop where
  length_le : s.cache.unspent.length ≤ capacity
  distinct : (s.cache.unspent.map Prod.snd).Nodup
  later_larger : ∀ us ∈ s.cache.unspent, ∀ us' ∈ s.cache.unspent,
    us.2 < us'.2 ↔ s.date us < s.date us'
  outputs_ne : ∀ us ∈ s.cache.unspent, us.1.outputs ≠ []

/-- The entry inserted earliest among those present. -/
def Oldest (s : Dated) (us : UnspentTransaction × Nat) : Prop :=
  us ∈ s.cache.unspent ∧ ∀ us' ∈ s.cache.unspent, us' ≠ us → s.date us < s.date us'

/-- **What an add at capacity evicts is the oldest entry.** -/
def EvictsOldest (s : Dated) : CacheOp → Prop
  | .add tx height confirmed =>
    s.cache.capacity ≤ s.cache.unspent.length →
      ∀ us ∈ s.cache.unspent, us ∉ (s.cache.add tx height confirmed).unspent → s.Oldest us
  | .removePoint _ => True
  | .remove _ => True

/-- **What an add leaves**: without outputs everything; behind the last sequence number nothing but
    the new entry, under the number 0; at capacity everything but the oldest entry. -/
def Leaves (s : Dated) : CacheOp → Prop
  | .add tx height confirmed =>
    if tx.outputs = [] then s.cache.add tx height confirmed = s.cache
    else if s.cache.sequence = maxUint32 then
      (s.cache.add tx height confirmed).unspent =
        [(UnspentTransaction.ofTransaction tx height confirmed, 0)]
    else if s.cache.capacity ≤ s.cache.unspent.length then
      ∃ oldest, s.Oldest oldest ∧ ∀ us ∈ s.cache.unspent,
        us ∈ (s.cache.add tx height confirmed).unspent ↔ us ≠ oldest
    else ∀ us ∈ s.cache.unspent, us ∈ (s.cache.add tx height confirmed).unspent
  | .removePoint _ => True
  | .remove _ => True

/-! ## 2. Every call keeps the order -/

/-- The invariant: the entries are in the order of their sequence numbers and of their dates. -/
structure Inv (capacity : Nat) (s : Dated) : Prop where
  aged : s.cache.Aged
  capacity_eq : s.cache.capacity = capacity
  dated : s.cache.unspent.Pairwise fun us us' => s.date us' < s.date us
  past : ∀ us ∈ s.cache.unspent, s.date us < s.clock

theorem create_inv (capacity : Nat) : (create capacity).Inv capacity :=
  ⟨create_aged capacity, rfl, .nil, fun _ h => (nomatch h)⟩

section Inv

variable {capacity : Nat} {s : Dated}

theorem Inv.ordered (h : s.Inv capacity) : s.Ordered capacity where
  length_le := h.capacity_eq ▸ h.aged.length_le
  distinct := List.pairwise_map.mpr (h.aged.descending.imp fun hlt => Nat.ne_of_gt hlt)
  later_larger := lt_iff_lt_of_pairwise h.aged.descending h.dated
  outputs_ne := h.aged.wf.outputs_ne

/-- What is left keeps its dates. -/
theorem Inv.sublist (h : s.Inv capacity) {op : CacheOp} (ha : (s.cache.apply op).Aged)
    (hsub : (s.cache.apply op).unspent.Sublist s.cache.unspent) (hd : s.insertedBy op = s.inserted) :
    (s.step op).Inv capacity := by
  have hdate : (s.step op).date = s.date := by
    funext us
    exact congrFun hd us.1.hash
  refine ⟨ha, (s.cache.apply_capacity op).trans h.capacity_eq, ?_, fun us hus => ?_⟩
  · rw [hdate]
    exact h.dated.sublist hsub
  · rw [hdate]
    exact Nat.lt_succ_of_lt (h.past us (hsub.subset hus))

/-- Where the bimap takes the insert, and what is there then. -/
theorem inserts_cases (hw : s.cache.WF) (tx : Transaction) (height : Nat) (confirmed : Bool) :
    (s.cache.Inserts tx ∧ (s.cache.add tx height confirmed).unspent =
        (UnspentTransaction.ofTransaction tx height confirmed, u32 (s.cache.sequence + 1)) ::
          s.cache.makeRoom.unspent) ∨
      (¬ s.cache.Inserts tx ∧
        (s.cache.add tx height confirmed).unspent.Sublist s.cache.unspent) := by
  by_cases hd : s.cache.disabled ∨ tx.outputs = []
  · rw [add_skip hd]
    exact .inr ⟨fun h => h.1 hd, List.Sublist.refl _⟩
  · rw [hw.add_unspent hd height confirmed]
    cases hf : s.cache.makeRoom.find tx.hash with
    | some u =>
        obtain ⟨⟨n, hm⟩, hu⟩ := find_mem hf
        exact .inr ⟨fun h => (h.2 _ hm).1 hu, s.cache.makeRoom_sublist⟩
    | none =>
        refine .inl ⟨⟨hd, fun us hus => ⟨find_none.mp hf us hus, ?_⟩⟩, rfl⟩
        exact Nat.ne_of_lt (hw.sequence_ne hus)

theorem Inv.add (h : s.Inv capacity) (tx : Transaction) (height : Nat) (confirmed : Bool) :
    (s.step (.add tx height confirmed)).Inv capacity := by
  have ha : (s.cache.apply (.add tx height confirmed)).Aged := h.aged.add tx height confirmed
  rcases inserts_cases h.aged.wf tx height confirmed with ⟨hins, hu⟩ | ⟨hnot, hsub⟩
  · have hdates : (s.step (.add tx height confirmed)).inserted =
        Function.update s.inserted tx.hash s.clock := if_pos hins
    have hu : (s.step (.add tx height confirmed)).cache.unspent = _ := hu
    -- what outlives the eviction has another hash, and the date it had
    have hold : ∀ us ∈ s.cache.makeRoom.unspent,
        (s.step (.add tx height confirmed)).date us = s.date us := by
      intro us hus
      unfold date
      rw [hdates, Function.update_of_ne (hins.2 us hus).1]
    have hnew : (s.step (.add tx height confirmed)).date
        (UnspentTransaction.ofTransaction tx height confirmed, u32 (s.cache.sequence + 1)) =
          s.clock := by
      unfold date
      rw [hdates]
      exact Function.update_self ..
    have hpast : ∀ us ∈ s.cache.makeRoom.unspent, s.date us < s.clock :=
      fun us hus => h.past us (s.cache.makeRoom_sublist.subset hus)
    refine ⟨ha, (s.cache.apply_capacity _).trans h.capacity_eq, ?_, ?_⟩
    · rw [hu]
      refine .cons (fun us hus => ?_) ?_
      · rw [hnew, hold us hus]
        exact hpast us hus
      · refine (h.dated.sublist s.cache.makeRoom_sublist).imp_of_mem fun hus hus' hlt => ?_
        rw [hold _ hus, hold _ hus']
        exact hlt
    · rw [hu]
      intro us hus
      rcases List.mem_cons.mp hus with rfl | hus
      · rw [hnew]
        exact Nat.lt_succ_self _
      · rw [hold us hus]
        exact Nat.lt_succ_of_lt (hpast us hus)
  · exact h.sublist ha hsub (if_neg hnot)

theorem Inv.remove (h : s.Inv capacity) (hash : HashDigest) :
    (s.step (.remove hash)).Inv capacity := by
  refine h.sublist (h.aged.remove hash) ?_ rfl
  show (s.cache.remove hash).unspent.Sublist _
  unfold UnspentOutputs.remove
  split
  · exact List.Sublist.refl _
  · exact List.filter_sublist

/-- What is left of the entries keeps their hashes, and so their dates. -/
theorem Inv.removePoint (h : s.Inv capacity) (hcap : 0 < capacity) (point : Point) :
    (s.step (.removePoint point)).Inv capacity := by
  have hpos : 0 < s.cache.capacity := h.capacity_eq ▸ hcap
  have hu : (s.step (.removePoint point)).cache.unspent = _ := removePoint_unspent hpos point
  have hdate : (s.step (.removePoint point)).date = s.date := rfl
  have hkeep (us us' : UnspentTransaction × Nat)
      (hus' : us' ∈ (Reference.dropOutput point us.1).map fun u => (u, us.2)) :
      s.date us' = s.date us := by
    obtain ⟨u, hu, rfl⟩ := Option.map_eq_some_iff.mp hus'
    have hhash : u.hash = us.1.hash := Reference.dropOutput_hash hu
    exact congrArg s.inserted hhash
  refine ⟨h.aged.removePoint hpos point, (s.cache.apply_capacity _).trans h.capacity_eq, ?_, ?_⟩
  · rw [hu, hdate]
    refine h.dated.filterMap _ fun us us' hlt v hv v' hv' => ?_
    rw [hkeep us v hv, hkeep us' v' hv']
    exact hlt
  · rw [hu, hdate]
    intro us' hus'
    obtain ⟨us, hus, hv⟩ := List.mem_filterMap.mp hus'
    rw [hkeep us us' hv]
    exact Nat.lt_succ_of_lt (h.past us hus)

/-- **Every call keeps the order.** -/
theorem Inv.step (h : s.Inv capacity) (hcap : 0 < capacity) (op : CacheOp) :
    (s.step op).Inv capacity := by
  cases op with
  | add tx height confirmed => exact h.add tx height confirmed
  | removePoint point => exact h.removePoint hcap point
  | remove hash => exact h.remove hash

/-! ## 3. What an add leaves -/

/-- An entry outlives an add where the cache is not full, or holds an older one. -/
theorem mem_add_of_mem {c : UnspentOutputs} (hw : c.WF) {tx : Transaction} (ho : tx.outputs ≠ [])
    (hs : c.sequence ≠ maxUint32) (height : Nat) (confirmed : Bool) {us : UnspentTransaction × Nat}
    (hus : us ∈ c.unspent) : us ∈ (c.add tx height confirmed).unspent ↔
      c.unspent.length < c.capacity ∨ ∃ us' ∈ c.unspent, us'.2 < us.2 := by
  have hbound := hw.sequence_bound
  have hle := hw.sequence_le us hus
  rw [hw.mem_add]
  constructor
  · rintro (⟨-, hnil | hsurvives⟩ | ⟨-, -, -, hnew⟩)
    · exact absurd hnil ho
    · exact hsurvives.2.2
    · have hseq : us.2 = u32 (c.sequence + 1) := congrArg Prod.snd hnew
      rw [u32_of_le (by omega)] at hseq
      omega
  · exact fun h => .inl ⟨hus, .inr ⟨hus, hs, h⟩⟩

/-- A full cache has an oldest entry. -/
theorem Inv.exists_oldest (h : s.Inv capacity) (hne : s.cache.unspent ≠ []) :
    ∃ oldest, s.Oldest oldest := by
  rcases List.eq_nil_or_concat s.cache.unspent with hnil | ⟨newer, oldest, he⟩
  · exact absurd hnil hne
  · have hdated := h.dated
    rw [he, List.concat_eq_append] at hdated
    obtain ⟨-, -, hlt⟩ := List.pairwise_append.mp hdated
    refine ⟨oldest, by simp [he], fun us hus hother => ?_⟩
    rw [he, List.concat_eq_append, List.mem_append, List.mem_singleton] at hus
    exact hlt us (hus.resolve_right hother) oldest (List.mem_singleton_self _)

/-- **What an add leaves.** -/
theorem Inv.leaves (h : s.Inv capacity) (hcap : 0 < capacity) (op : CacheOp) : s.Leaves op := by
  cases op with
  | removePoint point => exact True.intro
  | remove hash => exact True.intro
  | add tx height confirmed =>
      have hw := h.aged.wf
      have hpos : 0 < s.cache.capacity := h.capacity_eq ▸ hcap
      unfold Leaves
      dsimp only
      split
      · rename_i ho
        exact add_skip (.inr ho) height confirmed
      rename_i ho
      split
      · rename_i hs
        have hd : ¬(s.cache.disabled ∨ tx.outputs = []) := by
          have : s.cache.disabled = false := beq_false_of_ne (Nat.ne_of_gt hpos)
          simp [this, ho]
        have hroom : s.cache.makeRoom.unspent = [] := makeRoom_wrap hs
        have hnone : s.cache.makeRoom.find tx.hash = none :=
          find_none.mpr fun us hus => by
            rw [hroom] at hus
            cases hus
        rw [hw.add_unspent hd height confirmed, hnone, hs, hroom]
        rfl
      rename_i hs
      split
      · rename_i hfull
        have hne : s.cache.unspent ≠ [] := List.length_pos_iff.mp (by omega)
        obtain ⟨oldest, hmem, hold⟩ := h.exists_oldest hne
        refine ⟨oldest, ⟨hmem, hold⟩, fun us hus => ?_⟩
        rw [mem_add_of_mem hw ho hs height confirmed hus, or_iff_right (by omega)]
        constructor
        · rintro ⟨us', hus', hlt⟩ rfl
          have hdate := (h.ordered.later_larger us' hus' us hus).mp hlt
          exact Nat.lt_asymm hdate (hold us' hus' fun he => Nat.lt_irrefl _ (he ▸ hlt))
        · intro hother
          exact ⟨oldest, hmem, (h.ordered.later_larger oldest hmem us hus).mpr (hold us hus hother)⟩
      · rename_i hroom
        intro us hus
        exact (mem_add_of_mem hw ho hs height confirmed hus).mpr (.inl (by omega))

end Inv

/-! ## 4. Runs -/

/-- **The bound and the order hold in every state of every run, and every add leaves what it should**:
    everything, everything but the oldest entry, or, behind the last sequence number, nothing. -/
theorem cache_age {capacity : Nat} (hcap : 0 < capacity) (ops : List CacheOp) :
    Always step (Ordered capacity) (create capacity) ops ∧
      EveryStep step Leaves (create capacity) ops := by
  have hinv : ∀ xs ys, ops = xs ++ ys → (run step (create capacity) xs).Inv capacity :=
    fun xs _ _ => run_of_step (fun s op h => h.step hcap op) xs (create_inv capacity)
  refine ⟨ always_iff_prefix.mpr fun xs ys he => (hinv xs ys he).ordered, ?_⟩
  exact everyStep_iff_prefix.mpr fun xs op ys he => (hinv xs (op :: ys) he).leaves hcap op

/-- A transaction is cached, spent, and cached again next to another one. -/
theorem refilled_age : Always step (Ordered 2) (create 2) refilled ∧
    EveryStep step Leaves (create 2) refilled := cache_age (by decide) refilled

/-- The cache of a run, without its dates. -/
theorem run_cache (s : Dated) (ops : List CacheOp) :
    (run step s ops).cache = run UnspentOutputs.apply s.cache ops := by
  induction ops generalizing s with
  | nil => rfl
  | cons op ops ih => exact ih (s.step op)

/-- Two transactions in turn. -/
def alternate (i : Nat) : Transaction :=
  .sampleSpend (if i % 2 = 0 then 102 else 103) ⟨101, 0⟩ 2

def alternating (n : Nat) : List CacheOp := (List.range n).map fun i => .add (alternate i) 1 true

def alternateEntry (i : Nat) : UnspentTransaction := .ofTransaction (alternate i) 1 true

theorem alternate_hash_ne (i : Nat) : (alternate i).hash ≠ (alternate (i + 1)).hash := by
  show (if i % 2 = 0 then 102 else 103 : HashDigest) ≠ if (i + 1) % 2 = 0 then 102 else 103
  rcases Nat.mod_two_eq_zero_or_one i with h | h
  · rw [if_pos h, if_neg (by omega)]
    decide
  · rw [if_neg (by omega), if_pos (by omega)]
    decide

/-- One of the two is evicted and cached again. -/
theorem add_alternate {n : Nat} (hn : n + 2 < maxUint32) :
    UnspentOutputs.add ⟨2, n + 2, [(alternateEntry (n + 1), n + 2), (alternateEntry n, n + 1)]⟩
        (alternate (n + 2)) 1 true =
      ⟨2, n + 3, [(alternateEntry (n + 2), n + 3), (alternateEntry (n + 1), n + 2)]⟩ := by
  have hroom : makeRoom
      ⟨2, n + 2, [(alternateEntry (n + 1), n + 2), (alternateEntry n, n + 1)]⟩ =
        ⟨2, n + 2, [(alternateEntry (n + 1), n + 2)]⟩ := by
    unfold makeRoom
    rw [if_neg (Nat.ne_of_lt hn)]
    dsimp only
    refine (if_pos (Nat.le_refl 2)).trans ?_
    rw [eraseOldest_eq (by simp)]
    rfl
  have hhash : ((alternateEntry (n + 1)).hash == (alternate (n + 2)).hash) = false :=
    beq_false_of_ne (alternate_hash_ne (n + 1))
  have hseq : u32 (n + 2 + 1) = n + 3 := u32_of_le hn
  have hskip : ¬ ((⟨2, n + 2, [(alternateEntry (n + 1), n + 2), (alternateEntry n, n + 1)]⟩ :
      UnspentOutputs).disabled || (alternate (n + 2)).outputs.isEmpty) = true := Bool.false_ne_true
  unfold UnspentOutputs.add
  rw [if_neg hskip, hroom]
  dsimp only
  rw [hseq]
  unfold insert
  rw [if_neg]
  · rfl
  · show ¬ ((alternateEntry (n + 1)).hash == (alternate (n + 2)).hash || n + 2 == n + 3 || false) = true
    rw [hhash]
    simp

theorem run_alternating {n : Nat} (hn : n + 2 ≤ maxUint32) :
    run UnspentOutputs.apply (UnspentOutputs.create 2) (alternating (n + 2)) =
      ⟨2, n + 2, [(alternateEntry (n + 1), n + 2), (alternateEntry n, n + 1)]⟩ := by
  induction n with
  | zero => decide +kernel
  | succ n ih =>
      have hsplit : alternating (n + 1 + 2) =
          alternating (n + 2) ++ [.add (alternate (n + 2)) 1 true] := by
        unfold alternating
        rw [show n + 1 + 2 = n + 2 + 1 from rfl, List.range_succ, List.map_append]
        rfl
      rw [hsplit, run_append, ih (by omega)]
      exact add_alternate (by omega)

/-- The entry with the last sequence number goes, and is not the oldest. -/
theorem not_evictsOldest {n : Nat} (hn : n + 2 = maxUint32) : ¬ EveryStep step EvictsOldest (create 2)
    (alternating (n + 2) ++ [.add (alternate 0) 1 true]) := by
  intro h
  have hlast := everyStep_iff_prefix.mp h (alternating (n + 2)) _ [] rfl
  have hinv : (run step (create 2) (alternating (n + 2))).Inv 2 :=
    run_of_step (fun s op h => h.step (by decide) op) _ (create_inv 2)
  have hcache := (run_cache (create 2) (alternating (n + 2))).trans
    (run_alternating (Nat.le_of_eq hn))
  generalize run step (create 2) (alternating (n + 2)) = s at hlast hinv hcache
  have hmem : (alternateEntry (n + 1), n + 2) ∈ s.cache.unspent := by simp [hcache]
  have hmem' : (alternateEntry n, n + 1) ∈ s.cache.unspent := by simp [hcache]
  have hleaves := hinv.leaves (by decide) (.add (alternate 0) 1 true)
  unfold Leaves at hleaves
  dsimp only at hleaves
  rw [if_neg (by decide), if_pos (by rw [hcache]; exact hn)] at hleaves
  have hevicted : (alternateEntry (n + 1), n + 2) ∉
      (s.cache.add (alternate 0) 1 true).unspent := by
    rw [hleaves, List.mem_singleton]
    exact fun he => absurd (congrArg Prod.snd he) (Nat.succ_ne_zero _)
  have hold := hlast (by rw [hcache]; exact Nat.le_refl 2) _ hmem hevicted
  have hdate := hold.2 _ hmem' fun he => Nat.succ_ne_self _ (congrArg Prod.snd he).symm
  have hlt := (hinv.ordered.later_larger _ hmem _ hmem').mpr hdate
  exact absurd hlt (Nat.lt_asymm (Nat.lt_succ_self (n + 1)))

/-- **At the last sequence number a full cache loses its newest entry too.** -/
theorem wrapped_evicts_newest : ¬ EveryStep step EvictsOldest (create 2)
    (alternating maxUint32 ++ [.add (alternate 0) 1 true]) := by
  obtain ⟨n, hn⟩ : ∃ n, n + 2 = maxUint32 := ⟨4294967293, rfl⟩
  rw [← hn]
  exact not_evictsOldest hn

end Dated

end UnspentOutputs

end Libbitcoin.Database
