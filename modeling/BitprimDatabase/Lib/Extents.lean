/-
  File:      BitprimDatabase/Lib/Extents.lean
  Subject:   EXTENTS HANDED OUT BEHIND A COUNTER: numbers in a row, taken from a counter that is set
             back at will.

  * `Extent` -- a first number and how many; `Apart` -- two of them share no number;
  * `Packed` -- **the invariant**: extents below the counter, apart from each other;
  * `Packed.take` -- what is taken next is apart from them; `Packed.cut` -- the counter is set back,
    and what lies above it is given back;
  * `Packed.scale` -- where each number stands for a fixed number of bytes, so do their bytes.
-/
import Mathlib.Data.List.Pairwise

namespace Lib

structure Extent where
  first : Nat
  count : Nat
  deriving DecidableEq

namespace Extent

/-- The number behind the extent. -/
def stop (e : Extent) : Nat := e.first + e.count

instance : Membership Nat Extent := ⟨fun e i => e.first ≤ i ∧ i < e.stop⟩

instance (i : Nat) (e : Extent) : Decidable (i ∈ e) :=
  inferInstanceAs (Decidable (e.first ≤ i ∧ i < e.stop))

/-- One ends in front of the other. -/
def Apart (e e' : Extent) : Prop := e.stop ≤ e'.first ∨ e'.stop ≤ e.first

instance (e e' : Extent) : Decidable (e.Apart e') :=
  inferInstanceAs (Decidable (e.stop ≤ e'.first ∨ e'.stop ≤ e.first))

/-- What is left of it below a bound. -/
def below (bound : Nat) (e : Extent) : Extent := ⟨e.first, min e.stop bound - e.first⟩

theorem below_stop {bound : Nat} {e : Extent} (h : e.first < bound) :
    (e.below bound).stop = min e.stop bound := by
  unfold below stop
  dsimp only
  omega

/-- The bytes of an extent, where each number stands for `size` of them behind `base`. -/
def scale (base size : Nat) (e : Extent) : Extent := ⟨base + e.first * size, e.count * size⟩

theorem scale_stop (base size : Nat) (e : Extent) :
    (e.scale base size).stop = base + e.stop * size := by
  unfold scale stop
  dsimp only
  rw [Nat.add_mul, Nat.add_assoc]

theorem Apart.scale {e e' : Extent} (h : e.Apart e') (base size : Nat) :
    (e.scale base size).Apart (e'.scale base size) := by
  unfold Apart
  rw [scale_stop, scale_stop]
  exact h.imp (fun h => Nat.add_le_add_left (Nat.mul_le_mul_right _ h) _)
    fun h => Nat.add_le_add_left (Nat.mul_le_mul_right _ h) _

end Extent

/-- What is left of the extents once the counter is set back. -/
def cut (bound : Nat) (l : List Extent) : List Extent :=
  (l.filter fun e => decide (e.first < bound)).map (Extent.below bound)

theorem mem_cut {bound : Nat} {l : List Extent} {e : Extent} :
    e ∈ cut bound l ↔ ∃ e' ∈ l, e'.first < bound ∧ e = e'.below bound := by
  unfold cut
  rw [List.mem_map]
  constructor
  · rintro ⟨e', he', rfl⟩
    obtain ⟨hm, hlt⟩ := List.mem_filter.mp he'
    exact ⟨e', hm, of_decide_eq_true hlt, rfl⟩
  · rintro ⟨e', hm, hlt, rfl⟩
    exact ⟨e', List.mem_filter.mpr ⟨hm, decide_eq_true hlt⟩, rfl⟩

/-- **The extents lie below the counter and are apart.** -/
structure Packed (top : Nat) (l : List Extent) : Prop where
  le_top : ∀ e ∈ l, e.stop ≤ top
  apart : l.Pairwise Extent.Apart

namespace Packed

variable {top : Nat} {l : List Extent}

theorem nil (top : Nat) : Packed top [] := ⟨fun _ h => (nomatch h), .nil⟩

/-- No number from the counter on is in an extent. -/
theorem not_mem (h : Packed top l) {e : Extent} (he : e ∈ l) {i : Nat} (hi : top ≤ i) : i ∉ e :=
  fun hm => Nat.not_lt_of_le (Nat.le_trans (h.le_top e he) hi) hm.2

/-- **What is taken next.** -/
theorem take (h : Packed top l) (n : Nat) : Packed (top + n) (⟨top, n⟩ :: l) where
  le_top e he := by
    rcases List.mem_cons.mp he with rfl | he
    · exact Nat.le_refl _
    · exact Nat.le_add_right_of_le (h.le_top e he)
  apart := .cons (fun e he => .inr (h.le_top e he)) h.apart

/-- **The counter is set back.** -/
theorem cut (h : Packed top l) (bound : Nat) : Packed bound (Lib.cut bound l) where
  le_top e he := by
    obtain ⟨e', -, hlt, rfl⟩ := mem_cut.mp he
    rw [Extent.below_stop hlt]
    exact Nat.min_le_right _ _
  apart := by
    refine List.pairwise_map.mpr ((h.apart.filter _).imp_of_mem fun he he' hap => ?_)
    have hlt := of_decide_eq_true (List.mem_filter.mp he).2
    have hlt' := of_decide_eq_true (List.mem_filter.mp he').2
    unfold Extent.Apart at hap ⊢
    rw [Extent.below_stop hlt, Extent.below_stop hlt']
    exact hap.imp (fun h => Nat.le_trans (Nat.min_le_left _ _) h)
      fun h => Nat.le_trans (Nat.min_le_left _ _) h

/-- **The bytes of the extents.** -/
theorem scale (h : Packed top l) (base size : Nat) :
    Packed (base + top * size) (l.map (Extent.scale base size)) where
  le_top e he := by
    obtain ⟨e', he', rfl⟩ := List.mem_map.mp he
    rw [Extent.scale_stop]
    exact Nat.add_le_add_left (Nat.mul_le_mul_right _ (h.le_top e' he')) _
  apart := List.pairwise_map.mpr (h.apart.imp fun hap => hap.scale base size)

end Packed

end Lib
