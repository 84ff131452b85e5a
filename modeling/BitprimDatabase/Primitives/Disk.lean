/-
  File:      BitprimDatabase/Primitives/Disk.lean
  Subject:   THE DISK A MAPPED FILE GROWS ON (memory_map.cpp): `file_size_` is what is mapped,
             `logical_size_` what `close` leaves. A file that is too small is grown to the
             expansion of the size asked for; where the disk has not as much, `reserve` throws.

  * `reserve`, `resize` -- the sizes behind the call, `none` where it throws; `reserve_eq_none` says
    when; `Fits` -- what both keep;
  * `Grants` -- up to which size no `reserve` throws, whatever is mapped; `ofRate_grants` computes it.

  NOT here: the mapping, its lock and the closed file (MemoryMap.lean, MappedRows.lean).
-/
import Mathlib.Logic.Basic

namespace Libbitcoin.Database

/-- `file_size_` and `logical_size_`. -/
structure MappedSize where
  fileSize : Nat
  logicalSize : Nat

/-- What is mapped of a file that was closed and opened again. -/
def MappedSize.reopened (s : MappedSize) : MappedSize := ⟨s.logicalSize, s.logicalSize⟩

/-- The largest size `ftruncate` grants, and what a size is expanded to
    (`size * ((expansion + 100.0) / 100.0)`). -/
structure Disk where
  size : Nat
  expand : Nat → Nat
  le_expand : ∀ size, size ≤ expand size

namespace Disk

/-- The expansion computed exactly, by a rate in percent (`file_growth_rate`). -/
def ofRate (size expansion : Nat) : Disk where
  size := size
  expand n := n * (expansion + 100) / 100
  le_expand n := (Nat.le_div_iff_mul_le (by decide)).mpr
    (Nat.mul_le_mul_left n (Nat.le_add_left 100 expansion))

variable (disk : Disk) (s : MappedSize) (size : Nat)

/-- `memory_map::reserve`. -/
def reserve : Option MappedSize :=
  if size > s.fileSize then
    if disk.expand size > disk.size then none else some ⟨disk.expand size, size⟩
  else some ⟨s.fileSize, size⟩

/-- `memory_map::resize`: without expansion. -/
def resize : Option MappedSize :=
  if size > s.fileSize then if size > disk.size then none else some ⟨size, size⟩
  else some ⟨s.fileSize, size⟩

/-- **What is mapped is on the disk, and all that is in use is mapped.** -/
structure Fits (s : MappedSize) : Prop where
  logical_le : s.logicalSize ≤ s.fileSize
  file_le : s.fileSize ≤ disk.size

variable {disk s size} {s' : MappedSize}

theorem Fits.le (h : disk.Fits s) : s.logicalSize ≤ disk.size := Nat.le_trans h.logical_le h.file_le

theorem Fits.reopened (h : disk.Fits s) : disk.Fits s.reopened := ⟨Nat.le_refl _, h.le⟩

/-- **When `reserve` throws.** -/
theorem reserve_eq_none :
    disk.reserve s size = none ↔ s.fileSize < size ∧ disk.size < disk.expand size := by
  unfold reserve
  by_cases hs : size > s.fileSize
  · by_cases hd : disk.expand size > disk.size <;> simp [hs, hd]
  · simp [hs]

theorem reserve_of_le (hs : size ≤ s.fileSize) : disk.reserve s size = some ⟨s.fileSize, size⟩ :=
  if_neg (Nat.not_lt.mpr hs)

theorem reserve_eq_some (hf : s.fileSize ≤ disk.size) (h : disk.reserve s size = some s') :
    disk.Fits s' ∧ s'.logicalSize = size := by
  unfold reserve at h
  split at h
  · split at h
    · cases h
    · rename_i hd
      cases h
      exact ⟨⟨disk.le_expand size, Nat.le_of_not_lt hd⟩, rfl⟩
  · rename_i hs
    cases h
    exact ⟨⟨Nat.le_of_not_lt hs, hf⟩, rfl⟩

/-- A file that is too small is resized to the size asked for. -/
theorem resize_of_lt (hs : s.fileSize < size) :
    disk.resize s size = if size ≤ disk.size then some ⟨size, size⟩ else none := by
  unfold resize
  rw [if_pos hs]
  by_cases hd : size ≤ disk.size
  · rw [if_neg (Nat.not_lt.mpr hd), if_pos hd]
  · rw [if_pos (Nat.lt_of_not_le hd), if_neg hd]

theorem resize_eq_some (hf : s.fileSize ≤ disk.size ∨ s.fileSize < size)
    (h : disk.resize s size = some s') :
    disk.Fits s' ∧ s'.logicalSize = size := by
  unfold resize at h
  split at h
  · split at h
    · cases h
    · rename_i hd
      cases h
      exact ⟨⟨Nat.le_refl size, Nat.le_of_not_lt hd⟩, rfl⟩
  · rename_i hs
    cases h
    exact ⟨⟨Nat.le_of_not_lt hs, hf.resolve_right hs⟩, rfl⟩

/-- Up to this size a file can be grown. -/
def Grants (disk : Disk) (n : Nat) : Prop := ∀ size ≤ n, disk.expand size ≤ disk.size

theorem Grants.le {n : Nat} (h : disk.Grants n) : n ≤ disk.size :=
  Nat.le_trans (disk.le_expand n) (h n (Nat.le_refl n))

theorem Grants.mono {n m : Nat} (h : disk.Grants n) (hm : m ≤ n) : disk.Grants m :=
  fun size hs => h size (Nat.le_trans hs hm)

/-- **Within what the disk grants no `reserve` throws.** -/
theorem Grants.reserve {n : Nat} (h : disk.Grants n) (hs : size ≤ n) :
    ∃ s', disk.reserve s size = some s' :=
  Option.ne_none_iff_exists'.mp fun hn =>
    Nat.not_lt.mpr (h size hs) (reserve_eq_none.mp hn).2

/-- With the rate of growth, a size is granted up to the largest one whose expansion is. -/
theorem ofRate_grants {size expansion n : Nat} :
    (ofRate size expansion).Grants n ↔ n * (expansion + 100) / 100 ≤ size :=
  ⟨fun h => h n (Nat.le_refl n), fun h _ hk =>
    Nat.le_trans (Nat.div_le_div_right (Nat.mul_le_mul_right _ hk)) h⟩

/-- The growth of the default settings, up to the largest file. -/
def sample : Disk := ofRate 9223372036854775807 50

end Disk

end Libbitcoin.Database
