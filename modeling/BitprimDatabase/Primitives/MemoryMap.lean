/-
  File:      BitprimDatabase/Primitives/MemoryMap.lean
  Subject:   THE MAPPED FILE AND ITS TWO MANAGERS (memory_map.cpp, slab_manager.cpp,
             record_manager.cpp): how a file grows, and what is handed out of it.

      [ header ] [ size or count:w ] [ units ]      a unit: a byte of a slab, or a record

  * `MemoryMap` -- `file_size_` is what is mapped, `logical_size_` what `close` leaves;
    `reserve` grows the one and overwrites the other, also by less;
  * `FileManager` -- `create`, `start`, `sync`, `newSlab`, `newRecords`, `setCount`; the two
    allocations (`newUnits`) are `allocate` on the units of the manager.

  Where the disk is full `reserve` throws (`none`) and nothing has changed.
-/
import BitprimDatabase.ChainTypes
import BitprimDatabase.Primitives.TableFile

namespace Libbitcoin.Database

open Lib

/-- Where a file grows: the largest size `ftruncate` grants, and the floating-point product
    `size * ((expansion + 100.0) / 100.0)`. -/
structure Platform where
  disk : Nat
  expand : Nat → Nat → Nat

namespace Platform

/-- The expansion is computed exactly. -/
def Exact (p : Platform) : Prop :=
  ∀ size expansion, p.expand size expansion = size * (expansion + 100) / 100

/-- Exact, up to the largest file. -/
def exact : Platform := ⟨maxObject, fun size expansion => size * (expansion + 100) / 100⟩

theorem exact_exact : exact.Exact := fun _ _ => rfl

theorem Exact.le_expand {p : Platform} (hp : p.Exact) (size expansion : Nat) :
    size ≤ p.expand size expansion := by
  rw [hp, Nat.le_div_iff_mul_le (by decide)]
  exact Nat.mul_le_mul_left _ (Nat.le_add_left _ _)

/-- The disk that a file with an expansion grows on. -/
def toDisk (p : Platform) (hp : p.Exact) (expansion : Nat) : Disk :=
  ⟨p.disk, fun size => p.expand size expansion, fun size => hp.le_expand size expansion⟩

end Platform

/-! ## 1. The mapped file -/

structure MemoryMap where
  bytes : Memory
  fileSize : Nat
  logicalSize : Nat
  closed : Bool
  expansion : Nat

namespace MemoryMap

/-- The constructor on a file of that size. -/
def construct (file : TableFile.Closed) (expansion : Nat) : MemoryMap :=
  ⟨file.bytes, file.size, file.size, true, expansion⟩

/-- `memory_map::open`: an empty file cannot be mapped. -/
def openFile (f : MemoryMap) : Option MemoryMap :=
  if !f.closed then none
  else if f.fileSize = 0 then none
  else some { f with closed := false }

def close (f : MemoryMap) : TableFile.Closed := ⟨f.bytes, f.logicalSize⟩

def truncateMapped (p : Platform) (f : MemoryMap) (size : Nat) : Option MemoryMap :=
  if size > p.disk then none else some { f with fileSize := size }

/-- `reserve(size, expansion)`. -/
def reserveWith (p : Platform) (f : MemoryMap) (size expansion : Nat) : Option MemoryMap :=
  if f.closed then none
  else
    let grown :=
      if size > f.fileSize then f.truncateMapped p (p.expand size expansion) else some f
    grown.map fun f => { f with logicalSize := size }

def resize (p : Platform) (f : MemoryMap) (size : Nat) : Option MemoryMap := f.reserveWith p size 0

def reserve (p : Platform) (f : MemoryMap) (size : Nat) : Option MemoryMap :=
  f.reserveWith p size f.expansion

/-- The file is closed, or too small and cannot grow. -/
def Refuses (p : Platform) (f : MemoryMap) (size expansion : Nat) : Prop :=
  f.closed = true ∨ (f.fileSize < size ∧ p.disk < p.expand size expansion)

instance (p : Platform) (f : MemoryMap) (size expansion : Nat) :
    Decidable (f.Refuses p size expansion) :=
  inferInstanceAs (Decidable (f.closed = true ∨ (f.fileSize < size ∧ p.disk < p.expand size expansion)))

variable {p : Platform} {f f' : MemoryMap} {size expansion : Nat}

/-- **When `reserve` throws.** -/
theorem reserveWith_eq_none : f.reserveWith p size expansion = none ↔ f.Refuses p size expansion := by
  unfold reserveWith Refuses truncateMapped
  by_cases hc : f.closed = true
  · simp [hc]
  · by_cases hs : size > f.fileSize
    · by_cases hd : p.expand size expansion > p.disk <;> simp [hc, hs, hd]
    · simp [hc, hs]

/-- **What `reserve` leaves**: the logical size asked for, in an open file that did not shrink. -/
structure Reserved (p : Platform) (f : MemoryMap) (size : Nat) (f' : MemoryMap) : Prop where
  was_open : f.closed = false
  closed : f'.closed = false
  bytes : f'.bytes = f.bytes
  logicalSize : f'.logicalSize = size
  expansion : f'.expansion = f.expansion
  size_le : p.Exact → size ≤ f'.fileSize
  disk : f.fileSize ≤ p.disk → f'.fileSize ≤ p.disk

theorem reserveWith_eq_some (h : f.reserveWith p size expansion = some f') :
    Reserved p f size f' := by
  unfold reserveWith at h
  split at h
  · cases h
  rename_i hopen
  have hopen : f.closed = false := Bool.eq_false_iff.mpr hopen
  dsimp only at h
  split at h
  · unfold truncateMapped at h
    split at h
    · cases h
    · rename_i hdisk
      cases h
      exact ⟨hopen, hopen, rfl, rfl, rfl, fun hp => hp.le_expand _ _,
        fun _ => Nat.le_of_not_lt hdisk⟩
  · rename_i hsize
    cases h
    exact ⟨hopen, hopen, rfl, rfl, rfl, fun _ => Nat.le_of_not_lt hsize, id⟩

/-- The sizes of the mapped file. -/
def mappedSize (f : MemoryMap) : MappedSize := ⟨f.fileSize, f.logicalSize⟩

def withSize (f : MemoryMap) (s : MappedSize) : MemoryMap :=
  { f with
    fileSize := s.fileSize
    logicalSize := s.logicalSize }

theorem reserveWith_eq (hopen : f.closed = false) (size expansion : Nat) :
    f.reserveWith p size expansion =
      if size > f.fileSize then
        if p.expand size expansion > p.disk then none
        else some (f.withSize ⟨p.expand size expansion, size⟩)
      else some (f.withSize ⟨f.fileSize, size⟩) := by
  unfold reserveWith truncateMapped
  rw [if_neg (by rw [hopen]; exact Bool.false_ne_true)]
  dsimp only
  split
  · split <;> rfl
  · rfl

/-- **What the table files call for is what an open file does.** -/
theorem reserve_eq (hp : p.Exact) (hopen : f.closed = false) (size : Nat) : f.reserve p size =
    ((p.toDisk hp f.expansion).reserve f.mappedSize size).map f.withSize := by
  unfold reserve Disk.reserve
  rw [reserveWith_eq hopen]
  rw [apply_ite (Option.map f.withSize), apply_ite (Option.map f.withSize)]
  rfl

theorem resize_eq (hp : p.Exact) (hopen : f.closed = false) (expansion size : Nat) :
    f.resize p size = ((p.toDisk hp expansion).resize f.mappedSize size).map f.withSize := by
  have hexpand : p.expand size 0 = size := by
    rw [hp, Nat.zero_add, Nat.mul_div_cancel _ (by decide)]
  unfold resize Disk.resize
  rw [reserveWith_eq hopen, hexpand]
  rw [apply_ite (Option.map f.withSize), apply_ite (Option.map f.withSize)]
  rfl

theorem resize_of_le (hopen : f.closed = false) (hs : size ≤ f.fileSize) :
    f.resize p size = some { f with logicalSize := size } :=
  (reserveWith_eq hopen size 0).trans (if_neg (Nat.not_lt.mpr hs))

end MemoryMap

/-! ## 2. The managers -/

/-- What the managers count: the bytes of slabs (`slab_manager`) or records (`record_manager`). -/
inductive Units where
  | bytes
  | records (size : Nat)
  deriving DecidableEq

namespace Units

/-- The bytes of the stored size or count, and of a bucket. -/
def width : Units → Nat
  | bytes => 8
  | records _ => 4

/-- What is counted in an empty file: the size word itself, or no record. -/
def first : Units → Nat
  | bytes => 8
  | records _ => 0

/-- The bytes in front of the first unit that is counted. -/
def skip : Units → Nat
  | bytes => 0
  | records _ => 4

/-- The bytes of a unit. -/
def unit : Units → Nat
  | bytes => 1
  | records size => size

/-- `slab_hash_table_header_size`, `record_hash_table_header_size`. -/
def headerSize (u : Units) (buckets : Nat) : Nat := u.width + u.width * buckets

/-- Where a unit starts behind the header, in numbers without a limit. -/
def offset (u : Units) (count : Nat) : Nat := u.skip + count * u.unit

/-- `record_to_position`. -/
def position (u : Units) (count : Nat) : Nat := u.offset count % sizeLimit

theorem four_le_width (u : Units) : 4 ≤ u.width := by
  cases u with
  | bytes => exact Nat.le_add_right 4 4
  | records _ => exact Nat.le_refl 4

theorem offset_le {u : Units} {c c' : Nat} (h : c ≤ c') : u.offset c ≤ u.offset c' :=
  Nat.add_le_add_left (Nat.mul_le_mul_right _ h) _

/-- The units start behind the counter. -/
theorem offset_first (u : Units) : u.offset u.first = u.width := by
  cases u with
  | bytes => rfl
  | records size => exact congrArg (4 + ·) (Nat.zero_mul size)

end Units

/-- A manager on its file: `header_size_`, and `payload_size_` or `record_count_`. -/
structure FileManager (u : Units) where
  file : MemoryMap
  headerSize : Nat
  count : Nat

namespace FileManager

variable {u : Units}

/-- The size of the file that the count asks for. -/
def required (m : FileManager u) (count : Nat) : Nat := (m.headerSize + u.position count) % sizeLimit

/-- `sync`: write the size or count to the file. -/
def sync (m : FileManager u) : FileManager u :=
  { m with file := { m.file with bytes := m.file.bytes.writeWord m.headerSize u.width m.count } }

def create (p : Platform) (m : FileManager u) : Option (FileManager u) :=
  if m.count ≠ u.first then none
  else (m.file.resize p (m.required m.count)).map fun file => { m with file := file }.sync

/-- `start`: read the size or count, `none` where it exceeds the file. -/
def start (m : FileManager u) : Option (FileManager u) :=
  let count := m.file.bytes.readWord m.headerSize u.width
  if m.required count ≤ m.file.fileSize then some { m with count := count } else none

def newSlab (p : Platform) (m : FileManager .bytes) (size : Nat) :
    Option (FileManager .bytes × Nat) :=
  let nextSlabPosition := m.count
  let requiredSize := (m.headerSize + m.count + size) % sizeLimit
  (m.file.reserve p requiredSize).map fun file =>
    ({ m with file := file, count := (m.count + size) % sizeLimit }, nextSlabPosition)

/-- The sum of the count and of a `size_t` is narrowed to an index. -/
def newRecords {recordSize : Nat} (p : Platform) (m : FileManager (.records recordSize))
    (count : Nat) : Option (FileManager (.records recordSize) × Nat) :=
  let nextRecordIndex := m.count
  let position := Units.position (.records recordSize) (u32 ((m.count + count) % sizeLimit))
  let requiredSize := (m.headerSize + position) % sizeLimit
  (m.file.reserve p requiredSize).map fun file =>
    ({ m with file := file, count := u32 (m.count + count) }, nextRecordIndex)

/-- `record_manager::set_count`, which asserts that the value is not above the count. -/
def setCount (m : FileManager u) (value : Nat) : FileManager u := { m with count := value }

/-- The allocation of the manager. -/
def newUnits (p : Platform) : {u : Units} → FileManager u → Nat → Option (FileManager u × Nat)
  | .bytes, m, size => m.newSlab p size
  | .records _, m, count => m.newRecords p count

/-- **Hand out units**: what `new_slab` and `new_records` do. -/
def allocate (p : Platform) (m : FileManager u) (units : Nat) : Option (FileManager u × Nat) :=
  let next := m.count
  let count := (m.count + units) % Memory.limit u.width
  (m.file.reserve p (m.required count)).map fun file =>
    ({ m with file := file, count := count }, next)

theorem newSlab_eq (p : Platform) (m : FileManager .bytes) (size : Nat) :
    m.newSlab p size = m.allocate p size := by
  have hsize : (m.headerSize + m.count + size) % sizeLimit =
      m.required ((m.count + size) % Memory.limit (Units.width .bytes)) := by
    have hlim : sizeLimit = 18446744073709551616 := rfl
    have hwidth : Memory.limit (Units.width .bytes) = 18446744073709551616 := rfl
    have hpos (n : Nat) : Units.position .bytes n = (0 + n * 1) % sizeLimit := rfl
    unfold required
    rw [hpos, hlim, hwidth]
    omega
  unfold newSlab allocate
  rw [hsize]
  rfl

theorem newRecords_eq {recordSize : Nat} (p : Platform) (m : FileManager (.records recordSize))
    (count : Nat) : m.newRecords p count = m.allocate p count := by
  have hsum : u32 ((m.count + count) % sizeLimit) = (m.count + count) % Memory.limit 4 :=
    Nat.mod_mod_of_dvd _ (by decide)
  unfold newRecords allocate
  rw [hsum]
  rfl

theorem newUnits_eq (p : Platform) (m : FileManager u) (units : Nat) :
    m.newUnits p units = m.allocate p units := by
  cases u with
  | bytes => exact m.newSlab_eq p units
  | records _ => exact m.newRecords_eq p units

/-- **What an allocation leaves.** -/
theorem newUnits_eq_some {p : Platform} {m m' : FileManager u} {units item : Nat}
    (h : m.newUnits p units = some (m', item)) :
    item = m.count ∧ m'.headerSize = m.headerSize ∧
      m'.count = (m.count + units) % Memory.limit u.width ∧
      m.file.Reserved p (m.required ((m.count + units) % Memory.limit u.width)) m'.file := by
  rw [newUnits_eq] at h
  unfold allocate at h
  dsimp only at h
  obtain ⟨file, hfile, he⟩ := Option.map_eq_some_iff.mp h
  cases he
  exact ⟨rfl, rfl, rfl, MemoryMap.reserveWith_eq_some hfile⟩

/-- **An allocation whose totals do not run over.** -/
theorem newUnits_within {p : Platform} {m m' : FileManager u} {units item : Nat}
    (hcount : m.count + units < Memory.limit u.width)
    (hsize : m.headerSize + u.offset (m.count + units) < sizeLimit)
    (h : m.newUnits p units = some (m', item)) :
    item = m.count ∧ m'.headerSize = m.headerSize ∧ m'.count = m.count + units ∧
      m.file.Reserved p (m.headerSize + u.offset (m.count + units)) m'.file := by
  have hoffset : u.offset (m.count + units) < sizeLimit :=
    Nat.lt_of_le_of_lt (Nat.le_add_left _ _) hsize
  have hrequired : m.required (m.count + units) = m.headerSize + u.offset (m.count + units) := by
    unfold required Units.position
    rw [Nat.mod_eq_of_lt hoffset, Nat.mod_eq_of_lt hsize]
  have hnew := newUnits_eq_some h
  rwa [Nat.mod_eq_of_lt hcount, hrequired] at hnew

end FileManager

end Libbitcoin.Database
