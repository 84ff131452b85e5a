/-
  File:      BitprimDatabase/Lib/Strides.lean
  Subject:   STRIDED LOOPS OVER ONE LIST: `buckets` loops, each over the positions that leave its own
             remainder, interleaved pass by pass in any order.

  * `Strides` -- the loop variables, and the items processed so far in the order of the passes;
  * `Merged` -- **the invariant**: what a bucket has processed is its own items up to its position,
    in order. It needs of the increment `next` that it goes on by `buckets`, or past the end where
    that would (`Strides.Next`);
  * `Merged.perm` -- once every loop has ended each item was processed exactly once;
  * **`length_le`**: no schedule of passes is longer than the list; `exists_ended`: every schedule
    goes on to one that ends all loops.
-/
import Mathlib.Data.List.Perm.Subperm
import BitprimDatabase.Lib.Run

namespace Lib

variable {α : Type}

structure Strides (α : Type) where
  positions : List Nat
  processed : List (α × Nat)

namespace Strides

/-! ## 1. The loops -/

/-- The loop of a bucket starts at the bucket. -/
def begin (buckets : Nat) : Strides α := ⟨List.range buckets, []⟩

/-- The item a loop is at; none behind its end. -/
def current (items : List α) (s : Strides α) (bucket : Nat) : Option (α × Nat) :=
  match s.positions[bucket]? with
  | none => none
  | some position => items[position]?.map fun item => (item, position)

/-- One pass of a loop; nothing behind its end. -/
def step (items : List α) (next : Nat → Nat) (s : Strides α) (bucket : Nat) : Strides α :=
  match s.current items bucket with
  | none => s
  | some item => ⟨s.positions.set bucket (next item.2), s.processed ++ [item]⟩

def Ended (items : List α) (s : Strides α) : Prop := ∀ bucket, s.current items bucket = none

/-- The pass is one of a loop that has not ended. -/
def Running (items : List α) (s : Strides α) (bucket : Nat) : Prop :=
  (s.current items bucket).isSome = true

instance (items : List α) (s : Strides α) (bucket : Nat) : Decidable (s.Running items bucket) :=
  inferInstanceAs (Decidable (_ = _))

/-- The remainder of an item's position. -/
def inBucket (buckets bucket : Nat) (item : α × Nat) : Bool := item.2 % buckets == bucket

/-- **The increment**: by `buckets`, or past the end where that is past it. -/
def Next (items : List α) (buckets : Nat) (next : Nat → Nat) : Prop :=
  ∀ position < items.length, next position = position + buckets ∨
    (items.length ≤ next position ∧ items.length ≤ position + buckets)

theorem current_eq_some {items : List α} {s : Strides α} {bucket : Nat} {item : α × Nat} :
    s.current items bucket = some item ↔
      s.positions[bucket]? = some item.2 ∧ items[item.2]? = some item.1 := by
  unfold current
  cases hp : s.positions[bucket]? with
  | none => simp
  | some position =>
      obtain ⟨a, p⟩ := item
      simp only [Option.map_eq_some_iff, Prod.mk.injEq, Option.some.injEq]
      constructor
      · rintro ⟨a', ha, rfl, rfl⟩
        exact ⟨rfl, ha⟩
      · rintro ⟨rfl, ha⟩
        exact ⟨a, ha, rfl, rfl⟩

theorem step_running {items : List α} {next : Nat → Nat} {s : Strides α} {bucket : Nat}
    {item : α × Nat} (h : s.current items bucket = some item) :
    s.step items next bucket =
      ⟨s.positions.set bucket (next item.2), s.processed ++ [item]⟩ := by
  unfold step
  rw [h]

theorem step_ended {items : List α} {next : Nat → Nat} {s : Strides α} {bucket : Nat}
    (h : s.current items bucket = none) : s.step items next bucket = s := by
  unfold step
  rw [h]

/-- An item, those before it and those behind it. -/
theorem zipIdx_eq_append {items : List α} {position : Nat} {item : α}
    (h : items[position]? = some item) : ∃ before behind,
      items.zipIdx = before ++ (item, position) :: behind ∧ (∀ t ∈ before, t.2 < position) ∧
        ∀ t ∈ behind, position < t.2 ∧ t.2 < items.length := by
  obtain ⟨hlt, rfl⟩ := List.getElem?_eq_some_iff.mp h
  have hlen : (items.take position).length = position := List.length_take_of_le (Nat.le_of_lt hlt)
  refine ⟨(items.take position).zipIdx, (items.drop (position + 1)).zipIdx (position + 1), ?_,
    fun t ht => ?_, fun t ht => ?_⟩
  · have hsplit := List.take_append_drop position items
    rw [List.drop_eq_getElem_cons hlt] at hsplit
    have hzip := congrArg (List.zipIdx · 0) hsplit
    simp only [List.zipIdx_append, List.zipIdx_cons, hlen, Nat.zero_add] at hzip
    exact hzip.symm
  · have := List.snd_lt_of_mem_zipIdx ht
    omega
  · have hle := List.le_snd_of_mem_zipIdx ht
    have hub := List.snd_lt_of_mem_zipIdx ht
    rw [List.length_drop] at hub
    omega

/-! ## 2. The invariant -/

/-- **What a state of the loops can be.** -/
structure Merged (items : List α) (buckets : Nat) (s : Strides α) : Prop where
  length_eq : s.positions.length = buckets
  stride : ∀ bucket position, s.positions[bucket]? = some position →
    position % buckets = bucket ∨ items.length ≤ position
  processed_eq : ∀ bucket position, s.positions[bucket]? = some position →
    s.processed.filter (inBucket buckets bucket) =
      items.zipIdx.filter fun item => inBucket buckets bucket item && decide (item.2 < position)

section Merged

variable {items : List α} {buckets : Nat} {s : Strides α}

theorem begin_position {bucket position : Nat}
    (h : (begin (α := α) buckets).positions[bucket]? = some position) :
    position = bucket ∧ bucket < buckets := by
  unfold begin at h
  obtain ⟨hlt, rfl⟩ := List.getElem?_eq_some_iff.mp h
  exact ⟨List.getElem_range hlt, List.length_range (n := buckets) ▸ hlt⟩

theorem begin_merged (items : List α) (buckets : Nat) : Merged items buckets (begin buckets) where
  length_eq := List.length_range
  stride bucket position h := by
    obtain ⟨rfl, hlt⟩ := begin_position h
    exact .inl (Nat.mod_eq_of_lt hlt)
  processed_eq bucket position h := by
    obtain ⟨rfl, _⟩ := begin_position h
    refine (List.filter_eq_nil_iff.mpr fun item _ => ?_).symm
    have := Nat.mod_le item.2 buckets
    simp only [inBucket, Bool.and_eq_true, beq_iff_eq, decide_eq_true_eq]
    omega

/-- The items of a bucket up to the next position are those up to this one, and the one at it. -/
theorem filter_next {next : Nat → Nat} (hnext : Next items buckets next) (hpos : 0 < buckets)
    {bucket : Nat} {item : α × Nat} (hget : items[item.2]? = some item.1)
    (hbucket : item.2 % buckets = bucket) :
    (items.zipIdx.filter fun t => inBucket buckets bucket t && decide (t.2 < next item.2)) =
      (items.zipIdx.filter fun t => inBucket buckets bucket t && decide (t.2 < item.2)) ++ [item] := by
  obtain ⟨before, behind, hzip, hbefore, hbehind⟩ := zipIdx_eq_append hget
  obtain ⟨hlt, _⟩ := List.getElem?_eq_some_iff.mp hget
  have hnext := hnext item.2 hlt
  have hgt : item.2 < next item.2 := by omega
  -- no position of the bucket lies between two passes
  have hgap : ∀ t ∈ behind, ¬ (inBucket buckets bucket t && decide (t.2 < next item.2)) = true := by
    intro t ht h
    simp only [inBucket, Bool.and_eq_true, beq_iff_eq, decide_eq_true_eq] at h
    obtain ⟨hmod, hlt'⟩ := h
    obtain ⟨hgt, hlen⟩ := hbehind t ht
    have hdvd : buckets ∣ t.2 - item.2 :=
      Nat.dvd_of_mod_eq_zero (Nat.sub_mod_eq_zero_of_mod_eq (hmod.trans hbucket.symm))
    have := Nat.le_of_dvd (by omega) hdvd
    omega
  have hdone : ∀ t ∈ behind, ¬ (inBucket buckets bucket t && decide (t.2 < item.2)) = true := by
    intro t ht h
    have := (hbehind t ht).1
    simp only [Bool.and_eq_true, decide_eq_true_eq] at h
    omega
  have hsame : (before.filter fun t => inBucket buckets bucket t && decide (t.2 < next item.2)) =
      before.filter fun t => inBucket buckets bucket t && decide (t.2 < item.2) := by
    refine List.filter_congr fun t ht => ?_
    have := hbefore t ht
    rw [decide_eq_true this, decide_eq_true (Nat.lt_trans this hgt)]
  have hat : (inBucket buckets bucket item && decide (item.2 < next item.2)) = true := by
    simp only [inBucket, Bool.and_eq_true, beq_iff_eq, decide_eq_true_eq]
    exact ⟨hbucket, hgt⟩
  have hnot : ¬ (inBucket buckets bucket item && decide (item.2 < item.2)) = true := by
    simp
  rw [hzip, List.filter_append, List.filter_append, hsame,
    List.filter_cons_of_pos (p := fun t => inBucket buckets bucket t && decide (t.2 < next item.2)) hat,
    List.filter_cons_of_neg (p := fun t => inBucket buckets bucket t && decide (t.2 < item.2)) hnot,
    List.filter_eq_nil_iff.mpr hgap, List.filter_eq_nil_iff.mpr hdone, List.append_nil]

/-- **A pass keeps the invariant.** -/
theorem Merged.step {next : Nat → Nat} (hnext : Next items buckets next) (h : Merged items buckets s)
    (i : Nat) : Merged items buckets (s.step items next i) := by
  cases hc : s.current items i with
  | none =>
      rw [step_ended hc]
      exact h
  | some item =>
      obtain ⟨hposition, hget⟩ := current_eq_some.mp hc
      obtain ⟨hi, _⟩ := List.getElem?_eq_some_iff.mp hposition
      obtain ⟨hlt, _⟩ := List.getElem?_eq_some_iff.mp hget
      have hbucket : item.2 % buckets = i :=
        (h.stride i item.2 hposition).resolve_right (Nat.not_le_of_lt hlt)
      have hpos : 0 < buckets := by
        have := h.length_eq
        omega
      rw [step_running hc]
      refine ⟨?_, fun bucket position hp => ?_, fun bucket position hp => ?_⟩
      · rw [List.length_set]
        exact h.length_eq
      · by_cases hb : i = bucket
        · subst hb
          rw [List.getElem?_set_self hi] at hp
          cases hp
          rcases hnext item.2 hlt with he | ⟨hle, _⟩
          · rw [he, Nat.add_mod_right]
            exact .inl hbucket
          · exact .inr hle
        · rw [List.getElem?_set_ne hb] at hp
          exact h.stride bucket position hp
      · rw [List.filter_append]
        by_cases hb : i = bucket
        · subst hb
          rw [List.getElem?_set_self hi] at hp
          cases hp
          rw [h.processed_eq i item.2 hposition, filter_next hnext hpos hget hbucket,
            List.filter_cons_of_pos (by simp [inBucket, hbucket]), List.filter_nil]
        · rw [List.getElem?_set_ne hb] at hp
          rw [h.processed_eq bucket position hp,
            List.filter_cons_of_neg (by simp [inBucket, hbucket, hb]), List.filter_nil,
            List.append_nil]

/-- The position of the loop of a bucket. -/
theorem Merged.position (h : Merged items buckets s) {bucket : Nat} (hb : bucket < buckets) :
    ∃ position, s.positions[bucket]? = some position := by
  rw [← h.length_eq] at hb
  exact ⟨_, List.getElem?_eq_getElem hb⟩

theorem count_inBucket [DecidableEq α] (l : List (α × Nat)) (buckets : Nat) (item : α × Nat) :
    (l.filter (inBucket buckets (item.2 % buckets))).count item = l.count item :=
  List.count_filter (by simp [inBucket])

/-- Nothing is processed more often than it is in the list. -/
theorem Merged.subperm [DecidableEq α] (h : Merged items buckets s) (hpos : 0 < buckets) :
    s.processed.Subperm items.zipIdx := by
  refine List.subperm_ext_iff.mpr fun item _ => ?_
  obtain ⟨position, hposition⟩ := h.position (Nat.mod_lt item.2 hpos)
  rw [← count_inBucket s.processed buckets item, h.processed_eq _ _ hposition]
  exact List.filter_sublist.count_le item

/-- What a bucket has processed once its loop has ended: its items, in order. -/
theorem Merged.ended (h : Merged items buckets s) {bucket : Nat} (hb : bucket < buckets)
    (he : s.current items bucket = none) :
    s.processed.filter (inBucket buckets bucket) =
      items.zipIdx.filter (inBucket buckets bucket) := by
  obtain ⟨position, hposition⟩ := h.position hb
  have hle : items.length ≤ position := by
    refine Nat.le_of_not_lt fun hlt => ?_
    have hat : s.current items bucket = some (items[position], position) :=
      current_eq_some.mpr ⟨hposition, List.getElem?_eq_getElem hlt⟩
    rw [he] at hat
    cases hat
  rw [h.processed_eq bucket position hposition]
  refine List.filter_congr fun item hitem => ?_
  have := List.snd_lt_of_mem_zipIdx hitem
  rw [decide_eq_true (by omega), Bool.and_true]

/-- **Exactly once**: once every loop has ended the processed items are those of the list. -/
theorem Merged.perm [DecidableEq α] (h : Merged items buckets s) (hpos : 0 < buckets)
    (he : Ended items s) : s.processed.Perm items.zipIdx := by
  refine List.perm_iff_count.mpr fun item => ?_
  rw [← count_inBucket s.processed buckets item, h.ended (Nat.mod_lt _ hpos) (he _), count_inBucket]

end Merged

/-! ## 3. Schedules -/

section Schedules

variable {items : List α} {buckets : Nat} {next : Nat → Nat} {s : Strides α}

theorem Merged.run (hnext : Next items buckets next) (h : Merged items buckets s)
    (schedule : List Nat) : Merged items buckets (Lib.run (Strides.step items next) s schedule) :=
  run_of_step (fun _ i h => h.step hnext i) schedule h

/-- What is left to process. -/
def remaining (items : List α) (s : Strides α) : Nat := items.length - s.processed.length

/-- A pass of a running loop leaves one item less. -/
theorem Merged.remaining_step [DecidableEq α] (hnext : Next items buckets next) (hpos : 0 < buckets)
    (h : Merged items buckets s) {i : Nat} (hr : s.Running items i) :
    (s.step items next i).remaining items < s.remaining items := by
  obtain ⟨item, hc⟩ := Option.isSome_iff_exists.mp hr
  have hle := ((h.step hnext i).subperm hpos).length_le
  have hlen : (s.step items next i).processed.length = s.processed.length + 1 := by
    rw [step_running hc, List.length_append]
    rfl
  rw [List.length_zipIdx] at hle
  unfold remaining
  omega

/-- **Termination**: no schedule of passes is longer than the list. -/
theorem length_le [DecidableEq α] (hnext : Next items buckets next) (hpos : 0 < buckets)
    {schedule : List Nat}
    (hs : EveryStep (Strides.step items next) (Running items) (begin buckets) schedule) :
    schedule.length ≤ items.length :=
  length_le_of_decreasing (I := Merged items buckets)
    (fun _ i h hr => ⟨h.step hnext i, h.remaining_step hnext hpos hr⟩) (begin_merged items buckets) hs

/-- **Progress**: from every state of the loops some passes end them all. -/
theorem Merged.exists_ended [DecidableEq α] (hnext : Next items buckets next) (hpos : 0 < buckets)
    (h : Merged items buckets s) : ∃ rest, EveryStep (Strides.step items next) (Running items) s rest ∧
      Ended items (Lib.run (Strides.step items next) s rest) := by
  generalize hn : s.remaining items = n
  induction n using Nat.strongRecOn generalizing s with
  | ind n ih =>
      by_cases he : Ended items s
      · exact ⟨[], True.intro, he⟩
      · obtain ⟨i, hi⟩ := not_forall.mp he
        have hr : s.Running items i := Option.isSome_iff_ne_none.mpr hi
        obtain ⟨rest, hrest, hended⟩ :=
          ih _ (hn ▸ h.remaining_step hnext hpos hr) (h.step hnext i) rfl
        exact ⟨i :: rest, ⟨hr, hrest⟩, hended⟩

/-- Only items of the bucket were processed. -/
def Alone (items : List α) (buckets bucket : Nat) (s : Strides α) : Prop :=
  Merged items buckets s ∧ ∀ item ∈ s.processed, inBucket buckets bucket item = true

theorem Alone.step (hnext : Next items buckets next) {bucket : Nat}
    (h : Alone items buckets bucket s) :
    Alone items buckets bucket (Strides.step items next s bucket) := by
  refine ⟨h.1.step hnext bucket, fun item hitem => ?_⟩
  cases hc : s.current items bucket with
  | none =>
      rw [step_ended hc] at hitem
      exact h.2 item hitem
  | some last =>
      obtain ⟨hposition, hget⟩ := current_eq_some.mp hc
      rw [step_running hc] at hitem
      rcases List.mem_append.mp hitem with hitem | hitem
      · exact h.2 item hitem
      · cases List.mem_singleton.mp hitem
        obtain ⟨hlt, _⟩ := List.getElem?_eq_some_iff.mp hget
        have := (h.1.stride bucket item.2 hposition).resolve_right (Nat.not_le_of_lt hlt)
        simp [inBucket, this]

/-- **A bucket that runs alone** processes its own items, in order. -/
theorem alone_processed (hnext : Next items buckets next) {bucket : Nat} (hb : bucket < buckets)
    (n : Nat) (he : (Lib.run (Strides.step items next) (begin buckets)
      (List.replicate n bucket)).current items bucket = none) :
    (Lib.run (Strides.step items next) (begin buckets) (List.replicate n bucket)).processed =
      items.zipIdx.filter (inBucket buckets bucket) := by
  have halone : Alone items buckets bucket
      (Lib.run (Strides.step items next) (begin buckets) (List.replicate n bucket)) :=
    run_of_mem (fun _ _ h hi => hi ▸ h.step hnext) (fun i hi => List.eq_of_mem_replicate hi)
      ⟨begin_merged items buckets, fun _ hm => absurd hm List.not_mem_nil⟩
  rw [← halone.1.ended hb he]
  exact (List.filter_eq_self.mpr halone.2).symm

end Schedules

end Strides

end Lib
