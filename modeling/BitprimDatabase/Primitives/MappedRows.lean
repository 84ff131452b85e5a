/-
  File:      BitprimDatabase/Primitives/MappedRows.lean
  Subject:   **ROWS WRITTEN THROUGH A MAPPING THAT MOVES** (memory_map.cpp, accessor.cpp, allocator.cpp,
             record_manager.cpp, record_list.cpp, record_multimap.ipp). Any number of threads take a
             record of one file, link it and write its row, each through an address; growing the file
             moves the mapping, and every address into it is gone.

  * `Appending`, `MappedRows`, `act` -- where each thread is, and its next step: `new_records` under
    the lock of the manager, `reserve` under the upgrade lock, `access` under the shared one;
  * `Access` -- `add_to_list` keeps the pointer while it writes the row, `create_new` has dropped it;
  * `RowsInv` -- an address held under the lock points into the mapping, to the thread's own record;
  * **`rows_intact`** -- where no dropped address is written through after the mapping has moved, no
    write misses the file and every row returned stands in its own record; so always where every row
    goes through `add_to_list`;
  * `droppedPointer` -- a run in which `create_new` writes its row into a mapping that is gone.
-/
import BitprimDatabase.Lib.Run
import BitprimDatabase.Lib.UpgradeLock
import BitprimDatabase.Primitives.RecordIndexes

namespace Libbitcoin.Database

open Lib

/-! ## 1. The machine -/

/-- How a row is written: the pointer to its record is kept (`add_to_list`), or only its address
    (`create_new`). -/
inductive Access where
  | held
  | dropped
  deriving DecidableEq

/-- A row and the index it links to. -/
structure Appending where
  access : Access
  next : Nat
  row : List UInt8
  deriving DecidableEq

/-- Where a thread is: what it does next. -/
inductive AppendStage where
  | lockManager
  | lockUpgrade
  | lockExclusive
  | remap
  | assign
  | release
  | count
  | getLink (record : Nat)
  | writeLink (record address : Nat)
  | getRow (record : Nat)
  | dropRow (record address : Nat)
  | writeRow (record address written : Nat)
  | done (record : Nat)
  deriving DecidableEq

/-- The manager with its file, where the file is mapped, the two locks, the threads, and the rows of
    the calls that have returned. -/
structure MappedRows (recordSize n : Nat) where
  manager : FileManager (.records recordSize)
  data : Nat
  lock : UpgradeLock (Fin n)
  mutex : Option (Fin n)
  doing : Fin n → Option (Appending × AppendStage)
  returned : List (Nat × Appending)

/-- A call, the next step of a thread, the step that moves the mapping, a return. -/
inductive AppendTurn (n : Nat) where
  | call (thread : Fin n) (op : Appending)
  | step (thread : Fin n)
  | remap (thread : Fin n) (data : Nat)
  | answer (thread : Fin n)

namespace AppendStage

/-- How the thread holds the lock of the mapping. -/
def mode (access : Access) : AppendStage → Option Mode
  | lockExclusive | assign => some .upgrade
  | remap => some .exclusive
  | release | writeLink _ _ | dropRow _ _ => some .shared
  | writeRow _ _ _ => if access = .held then some .shared else none
  | _ => none

/-- In the critical section of `new_records`. -/
def managing : AppendStage → Bool
  | lockUpgrade | lockExclusive | remap | assign | release | count => true
  | _ => false

/-- The record the thread has taken. -/
def own : AppendStage → Option Nat
  | getLink record | writeLink record _ | getRow record | dropRow record _ | writeRow record _ _
  | done record => some record
  | _ => none

/-- The turns left to a call with a row of so many bytes. -/
def left (size : Nat) : AppendStage → Nat
  | lockManager => size + 13
  | lockUpgrade => size + 12
  | lockExclusive => size + 11
  | remap => size + 10
  | assign => size + 9
  | release => size + 8
  | count => size + 7
  | getLink _ => size + 6
  | writeLink _ _ => size + 5
  | getRow _ => size + 4
  | dropRow _ _ => size + 3
  | writeRow _ _ written => size - written + 2
  | done _ => 1

end AppendStage

namespace MappedRows

variable {recordSize n : Nat}

/-- The thread goes on. -/
def goto (s : MappedRows recordSize n) (i : Fin n) (op : Appending) (stage : AppendStage) :
    MappedRows recordSize n :=
  { s with doing := Function.update s.doing i (some (op, stage)) }

def setLock (s : MappedRows recordSize n) (lock : UpgradeLock (Fin n)) : MappedRows recordSize n :=
  { s with lock := lock }

def setMutex (s : MappedRows recordSize n) (mutex : Option (Fin n)) : MappedRows recordSize n :=
  { s with mutex := mutex }

def setFile (s : MappedRows recordSize n) (file : MemoryMap) : MappedRows recordSize n :=
  { s with manager := { s.manager with file := file } }

/-- The size `new_records(1)` asks for. -/
def size (s : MappedRows recordSize n) : Nat := s.manager.required (u32 (s.manager.count + 1))

/-- Where a record stands in the file. -/
def offset (s : MappedRows recordSize n) (record : Nat) : Nat := s.manager.required record

/-- Write bytes at an address; `none` where it is not mapped. -/
def poke (s : MappedRows recordSize n) (address : Nat) (bytes : List UInt8) :
    Option (MappedRows recordSize n) :=
  if s.data ≤ address ∧ address + bytes.length ≤ s.data + s.manager.file.fileSize then
    some (s.setFile { s.manager.file with
      bytes := s.manager.file.bytes.write (address - s.data) bytes })
  else none

/-- The next step of a thread; `none` where it waits, or the step is not one of these. -/
def stepFrom (s : MappedRows recordSize n) (i : Fin n) (op : Appending) :
    AppendStage → Option (MappedRows recordSize n)
  -- `new_records`
  | .lockManager =>
    if s.mutex = none then some ((s.setMutex (some i)).goto i op .lockUpgrade) else none
  -- `reserve`
  | .lockUpgrade =>
    if s.manager.file.closed then none
    else (s.lock.lockUpgrade i).map fun lock =>
      (s.setLock lock).goto i op (if s.size > s.manager.file.fileSize then .lockExclusive else .assign)
  | .lockExclusive => (s.lock.unlockUpgradeAndLock i).map fun lock =>
      (s.setLock lock).goto i op .remap
  | .remap => none
  | .assign => (s.lock.unlockUpgradeAndLockShared i).map fun lock =>
      ((s.setLock lock).setFile { s.manager.file with logicalSize := s.size }).goto i op .release
  -- nobody keeps what `reserve` returns
  | .release => (s.lock.unlockShared i).map fun lock => (s.setLock lock).goto i op .count
  | .count => some ((MappedRows.setMutex
      { s with manager := { s.manager with count := u32 (s.manager.count + 1) } } none).goto i op
        (.getLink s.manager.count))
  -- `record_list::insert`
  | .getLink record => (s.lock.lockShared i).map fun lock =>
      (s.setLock lock).goto i op (.writeLink record (s.data + s.offset record))
  | .writeLink record address => (s.poke address (Memory.toLE 4 op.next)).bind fun s =>
      (s.lock.unlockShared i).map fun lock => (s.setLock lock).goto i op (.getRow record)
  -- `record_list::get`
  | .getRow record => (s.lock.lockShared i).map fun lock =>
      let address := s.data + s.offset record + 4
      (s.setLock lock).goto i op
        (if op.access = .held then .writeRow record address 0 else .dropRow record address)
  | .dropRow record address => (s.lock.unlockShared i).map fun lock =>
      (s.setLock lock).goto i op (.writeRow record address 0)
  | .writeRow record address k =>
    match op.row[k]? with
    | some b => (s.poke (address + k) [b]).map fun s => s.goto i op (.writeRow record address (k + 1))
    | none =>
      if op.access = .held then
        (s.lock.unlockShared i).map fun lock => (s.setLock lock).goto i op (.done record)
      else some (s.goto i op (.done record))
  | .done _ => none

/-- `truncate_mapped`: the system maps the file where it has room. -/
def remapFrom (p : Platform) (s : MappedRows recordSize n) (i : Fin n) (op : Appending) (data : Nat) :
    Option (MappedRows recordSize n) :=
  (s.manager.file.truncateMapped p (p.expand s.size s.manager.file.expansion)).bind fun file =>
    (s.lock.unlockAndLockUpgrade i).map fun lock =>
      ({ (s.setFile file).setLock lock with data := data } : MappedRows recordSize n).goto i op .assign

/-- One turn. -/
def act (p : Platform) (s : MappedRows recordSize n) : AppendTurn n → Option (MappedRows recordSize n)
  | .call i op =>
    match s.doing i with
    | none => some (s.goto i op .lockManager)
    | some _ => none
  | .step i => (s.doing i).bind fun r => s.stepFrom i r.1 r.2
  | .remap i data =>
    match s.doing i with
    | some (op, .remap) => s.remapFrom p i op data
    | _ => none
  | .answer i =>
    match s.doing i with
    | some (op, .done record) => some { s with
        doing := Function.update s.doing i none, returned := (record, op) :: s.returned }
    | _ => none

/-- The threads before their first call. -/
def initial (manager : FileManager (.records recordSize)) (data : Nat) : MappedRows recordSize n :=
  ⟨manager, data, .free, none, fun _ => none, []⟩

/-- Room for one more record, in the count and below the numbers of a file position. -/
def HasRoom (s : MappedRows recordSize n) : Prop :=
  s.manager.count + 1 ≤ maxUint32 ∧
    s.manager.headerSize + (4 + (s.manager.count + 1) * recordSize) < sizeLimit

/-- The index and the row have the widths of a record. -/
def Fits (recordSize : Nat) (op : Appending) : Prop :=
  op.next < Memory.limit 4 ∧ 4 + op.row.length ≤ recordSize

/-- **What callers keep to**, and room wherever a thread takes a record. -/
def Allowed (s : MappedRows recordSize n) : AppendTurn n → Prop
  | .call _ op => Fits recordSize op
  | .step i => (s.doing i).map Prod.snd = some .lockUpgrade → s.HasRoom
  | _ => True

instance (s : MappedRows recordSize n) (t : AppendTurn n) : Decidable (s.Allowed t) :=
  match t with
  | .call _ _ => inferInstanceAs (Decidable (_ ∧ _))
  | .step i => inferInstanceAs
      (Decidable ((s.doing i).map Prod.snd = some .lockUpgrade → _ ∧ _))
  | .remap _ _ | .answer _ => .isTrue True.intro

/-- **A dropped address still points into the mapping** wherever a byte is written through it. -/
def Steady (s : MappedRows recordSize n) : AppendTurn n → Prop
  | .step i => ∀ op record address k, s.doing i = some (op, .writeRow record address k) →
      op.access = .dropped → k < op.row.length → address = s.data + s.offset record + 4
  | _ => True

/-! ## 2. What every step keeps -/

/-- How a thread holds the lock of the mapping. -/
def holds (d : Option (Appending × AppendStage)) : Option Mode := d.bind fun r => r.2.mode r.1.access

/-- The thread is in the critical section of `new_records`. -/
def inManager (d : Option (Appending × AppendStage)) : Bool := d.any fun r => r.2.managing

/-- The record a thread has taken. -/
def taken (d : Option (Appending × AppendStage)) : Option Nat := d.bind fun r => r.2.own

def bytes (s : MappedRows recordSize n) : Memory := s.manager.file.bytes

/-- The record links to the index of the call. -/
def Linked (s : MappedRows recordSize n) (op : Appending) (record : Nat) : Prop :=
  record < s.manager.count ∧ s.bytes.readWord (s.offset record) 4 = op.next

/-- **The row of a call stands in its record.** -/
def Whole (s : MappedRows recordSize n) (op : Appending) (record : Nat) : Prop :=
  s.Linked op record ∧ s.bytes.read (s.offset record + 4) op.row.length = op.row

/-- What a thread knows where it is. -/
def Ok (s : MappedRows recordSize n) (op : Appending) : AppendStage → Prop
  | .lockManager | .lockUpgrade => True
  | .lockExclusive | .remap => s.HasRoom
  | .assign | .release | .count => s.HasRoom ∧ s.size ≤ s.manager.file.fileSize
  | .getLink record => record < s.manager.count
  | .writeLink record address => record < s.manager.count ∧ address = s.data + s.offset record
  | .getRow record => s.Linked op record
  | .dropRow record address => op.access = .dropped ∧ s.Linked op record ∧
      address = s.data + s.offset record + 4
  | .writeRow record address k => s.Linked op record ∧ k ≤ op.row.length ∧
      s.bytes.read (s.offset record + 4) k = op.row.take k ∧
      (op.access = .held → address = s.data + s.offset record + 4)
  | .done record => s.Whole op record

/-- **The file has room for what is counted, each thread holds the locks of its place, and the records
    of the threads and of the rows returned are apart.** -/
structure RowsInv (s : MappedRows recordSize n) : Prop where
  opened : s.manager.file.closed = false
  count_le : s.manager.count ≤ maxUint32
  fits : s.manager.headerSize + (4 + s.manager.count * recordSize) < sizeLimit
  mapped : s.manager.headerSize + (4 + s.manager.count * recordSize) ≤ s.manager.file.fileSize
  lock : ∀ i, s.lock i = holds (s.doing i)
  sound : s.lock.Sound
  mutex : ∀ i, inManager (s.doing i) = true ↔ s.mutex = some i
  ok : ∀ i op stage, s.doing i = some (op, stage) → Fits recordSize op ∧ s.Ok op stage
  apart : ∀ i j record, taken (s.doing i) = some record → taken (s.doing j) = some record → i = j
  whole : ∀ q ∈ s.returned, Fits recordSize q.2 ∧ s.Whole q.2 q.1
  fresh : ∀ i record, taken (s.doing i) = some record → ∀ q ∈ s.returned, q.1 ≠ record
  nodup : (s.returned.map Prod.fst).Nodup

variable {s s' : MappedRows recordSize n} {i j : Fin n} {op : Appending} {stage : AppendStage}
  {record address k : Nat}

/-- Where a record that is counted stands. -/
theorem RowsInv.offset_eq (h : RowsInv s) (hr : record ≤ s.manager.count) :
    s.offset record = s.manager.headerSize + (4 + record * recordSize) := by
  have hle : record * recordSize ≤ s.manager.count * recordSize := Nat.mul_le_mul_right _ hr
  have hfits := h.fits
  exact RecordIndexes.required_eq (by omega)

/-- A record lies below the end of the mapping, and apart from the others. -/
theorem RowsInv.record_apart (h : RowsInv s) {a b : Nat} (ha : a < s.manager.count)
    (hb : b < s.manager.count) (hab : a ≠ b) :
    s.offset a + recordSize ≤ s.offset b ∨ s.offset b + recordSize ≤ s.offset a := by
  rw [h.offset_eq (Nat.le_of_lt ha), h.offset_eq (Nat.le_of_lt hb)]
  rcases Nat.lt_or_gt_of_ne hab with hlt | hlt
  · have := Nat.mul_le_mul_right recordSize (Nat.succ_le_of_lt hlt)
    rw [Nat.succ_mul] at this
    omega
  · have := Nat.mul_le_mul_right recordSize (Nat.succ_le_of_lt hlt)
    rw [Nat.succ_mul] at this
    omega

theorem RowsInv.record_le (h : RowsInv s) (hr : record < s.manager.count) :
    s.offset record + recordSize ≤ s.manager.file.fileSize := by
  rw [h.offset_eq (Nat.le_of_lt hr)]
  have := Nat.mul_le_mul_right recordSize (Nat.succ_le_of_lt hr)
  rw [Nat.succ_mul] at this
  have := h.mapped
  omega

/-! ## 3. What the others keep -/

/-- The bytes of a record are the same. -/
def SameRecord (s s' : MappedRows recordSize n) (record : Nat) : Prop :=
  ∀ k < recordSize, s'.bytes (s.offset record + k) = s.bytes (s.offset record + k)

section Frame

variable (hheader : s'.manager.headerSize = s.manager.headerSize)
  (hcount : s.manager.count ≤ s'.manager.count)

include hheader

theorem offset_congr (record : Nat) : s'.offset record = s.offset record := by
  unfold offset FileManager.required
  rw [hheader]

theorem SameRecord.read_eq (hs : SameRecord s s' record) {a m : Nat} (h : a + m ≤ recordSize) :
    s'.bytes.read (s'.offset record + a) m = s.bytes.read (s.offset record + a) m := by
  rw [offset_congr hheader]
  refine Memory.read_congr fun i h₁ h₂ => ?_
  have hk := hs (i - s.offset record) (by omega)
  rwa [Nat.add_sub_cancel' (by omega)] at hk

include hcount

theorem Linked.frame (h : s.Linked op record) (hf : Fits recordSize op)
    (hs : SameRecord s s' record) : s'.Linked op record := by
  have hread := hs.read_eq hheader (a := 0) (m := 4) (by have := hf.2; omega)
  refine ⟨Nat.lt_of_lt_of_le h.1 hcount, ?_⟩
  exact (congrArg Memory.ofLE hread).trans h.2

theorem Whole.frame (h : s.Whole op record) (hf : Fits recordSize op)
    (hs : SameRecord s s' record) : s'.Whole op record :=
  ⟨h.1.frame hheader hcount hf hs, (hs.read_eq hheader hf.2).trans h.2⟩

/-- **What a thread knows stays true** where its record stays, the mapping stays while it holds the
    lock, and the count while it is in the manager. -/
theorem Ok.frame (h : s.Ok op stage) (hf : Fits recordSize op)
    (hs : ∀ record, stage.own = some record → SameRecord s s' record)
    (hdata : stage.mode op.access = some .shared → s'.data = s.data)
    (hmanager : stage.managing = true → s'.manager.count = s.manager.count ∧
      s.manager.file.fileSize ≤ s'.manager.file.fileSize) : s'.Ok op stage := by
  have hroom (hm : stage.managing = true) (hr : s.HasRoom) : s'.HasRoom := by
    unfold HasRoom
    rw [(hmanager hm).1, hheader]
    exact hr
  have hsize (hm : stage.managing = true) (hle : s.size ≤ s.manager.file.fileSize) :
      s'.size ≤ s'.manager.file.fileSize := by
    unfold size FileManager.required
    rw [(hmanager hm).1, hheader]
    exact Nat.le_trans hle (hmanager hm).2
  cases stage with
  | lockManager => exact True.intro
  | lockUpgrade => exact True.intro
  | lockExclusive => exact hroom rfl h
  | remap => exact hroom rfl h
  | assign => exact ⟨hroom rfl h.1, hsize rfl h.2⟩
  | release => exact ⟨hroom rfl h.1, hsize rfl h.2⟩
  | count => exact ⟨hroom rfl h.1, hsize rfl h.2⟩
  | getLink record => exact Nat.lt_of_lt_of_le h hcount
  | writeLink record address =>
      refine ⟨Nat.lt_of_lt_of_le h.1 hcount, ?_⟩
      rw [hdata rfl, offset_congr hheader]
      exact h.2
  | getRow record => exact Linked.frame hheader hcount h hf (hs record rfl)
  | dropRow record address =>
      refine ⟨h.1, Linked.frame hheader hcount h.2.1 hf (hs record rfl), ?_⟩
      rw [hdata rfl, offset_congr hheader]
      exact h.2.2
  | writeRow record address k =>
      obtain ⟨hlinked, hk, hread, haddress⟩ := h
      refine ⟨Linked.frame hheader hcount hlinked hf (hs record rfl), hk, ?_, fun ha => ?_⟩
      · exact ((hs record rfl).read_eq hheader (by have := hf.2; omega)).trans hread
      · rw [hdata (if_pos ha), offset_congr hheader]
        exact haddress ha
  | done record => exact Whole.frame hheader hcount h hf (hs record rfl)

end Frame

/-- The record of a thread is counted. -/
theorem Ok.taken_lt (h : s.Ok op stage) (hr : stage.own = some record) : record < s.manager.count := by
  cases stage with
  | getLink _ => cases hr; exact h
  | writeLink _ _ => cases hr; exact h.1
  | getRow _ => cases hr; exact h.1
  | dropRow _ _ => cases hr; exact h.2.1.1
  | writeRow _ _ _ => cases hr; exact h.1.1
  | done _ => cases hr; exact h.1.1
  | _ => cases hr

theorem RowsInv.taken_lt (h : RowsInv s) (hr : taken (s.doing i) = some record) :
    record < s.manager.count := by
  obtain ⟨r, hd, hown⟩ := Option.bind_eq_some_iff.mp hr
  exact (h.ok i r.1 r.2 hd).2.taken_lt hown

/-- At most one thread is in the manager. -/
theorem RowsInv.manager_alone (h : RowsInv s) (hi : inManager (s.doing i) = true) (hj : j ≠ i) :
    inManager (s.doing j) = false := by
  refine Bool.eq_false_iff.mpr fun hm => hj ?_
  exact Option.some.inj (((h.mutex j).mp hm).symm.trans ((h.mutex i).mp hi))

/-- The locks of a thread that goes on with them. -/
theorem RowsInv.lock_update (h : RowsInv s) (d : Option (Appending × AppendStage))
    (hsame : holds d = holds (s.doing i)) : s.lock = Function.update s.lock i (holds d) := by
  rw [hsame, ← h.lock i, Function.update_eq_self]

/-- **One thread goes on**: what it has to see to. -/
theorem RowsInv.goto (h : RowsInv s) {d : Option (Appending × AppendStage)}
    (hdoing : s'.doing = Function.update s.doing i d)
    (hheader : s'.manager.headerSize = s.manager.headerSize)
    (hcount : s.manager.count ≤ s'.manager.count) (hle : s'.manager.count ≤ maxUint32)
    (hfits : s'.manager.headerSize + (4 + s'.manager.count * recordSize) < sizeLimit)
    (hmapped : s'.manager.headerSize + (4 + s'.manager.count * recordSize) ≤
      s'.manager.file.fileSize)
    (hmanager : inManager (s.doing i) = true ∨ s'.manager.count = s.manager.count ∧
      s'.manager.file.fileSize = s.manager.file.fileSize)
    (hdata : s'.data = s.data ∨ s.lock i = some .exclusive)
    (hlock : s'.lock = Function.update s.lock i (holds d)) (hsound : s'.lock.Sound)
    (hmutex : (inManager d = true ↔ s'.mutex = some i) ∧
      ∀ j ≠ i, (inManager (s.doing j) = true ↔ s'.mutex = some j))
    (hbytes : ∀ record < s.manager.count, taken (s.doing i) ≠ some record → SameRecord s s' record)
    (hok : ∀ op stage, d = some (op, stage) → Fits recordSize op ∧ s'.Ok op stage)
    (htaken : ∀ record, taken d = some record →
      taken (s.doing i) = some record ∨ s.manager.count ≤ record)
    (hreturned : s'.returned = s.returned)
    (hopened : s'.manager.file.closed = s.manager.file.closed) : RowsInv s' := by
  have hself : s'.doing i = d := by rw [hdoing, Function.update_self]
  have hother {j : Fin n} (hj : j ≠ i) : s'.doing j = s.doing j := by
    rw [hdoing, Function.update_of_ne hj]
  have hfresh (j : Fin n) {record : Nat} (hr : taken (s'.doing j) = some record) :
      taken (s.doing j) = some record ∨ s.manager.count ≤ record := by
    by_cases hj : j = i
    · subst hj
      exact htaken record (hself ▸ hr)
    · exact .inl (hother hj ▸ hr)
  refine ⟨hopened.trans h.opened, hle, hfits, hmapped, fun j => ?_, hsound, fun j => ?_,
    fun j op stage hd => ?_,
    fun j k record hj hk => ?_, fun q hq => ?_, fun j record hr q hq => ?_, ?_⟩
  · by_cases hj : j = i
    · subst hj
      rw [hlock, hself, Function.update_self]
    · rw [hlock, hother hj, Function.update_of_ne hj]
      exact h.lock j
  · by_cases hj : j = i
    · subst hj
      rw [hself]
      exact hmutex.1
    · rw [hother hj]
      exact hmutex.2 j hj
  · by_cases hj : j = i
    · subst hj
      exact hok op stage (hself ▸ hd)
    · rw [hother hj] at hd
      obtain ⟨hf, hokj⟩ := h.ok j op stage hd
      refine ⟨hf, hokj.frame hheader hcount hf (fun record hr => ?_) (fun hmode => ?_) fun hm => ?_⟩
      · have hrj : taken (s.doing j) = some record := by rw [hd]; exact hr
        exact hbytes record (hokj.taken_lt hr) fun hri => hj (h.apart j i record hrj hri)
      -- the mapping moves where no other thread holds the lock
      · refine hdata.resolve_right fun hexclusive => ?_
        have hnone := h.sound.alone hexclusive hj
        rw [h.lock j, hd] at hnone
        exact Option.some_ne_none _ (hmode.symm.trans hnone)
      · rcases hmanager with hi | ⟨hsame, hsize⟩
        · have hout := h.manager_alone hi hj
          rw [hd] at hout
          exact absurd hm (Bool.eq_false_iff.mp hout)
        · exact ⟨hsame, hsize.ge⟩
  -- a record is had by the one that takes it
  · by_contra hjk
    rcases hfresh j hj with hj' | hj' <;> rcases hfresh k hk with hk' | hk'
    · exact hjk (h.apart j k record hj' hk')
    · exact absurd (h.taken_lt hj') (Nat.not_lt.mpr hk')
    · exact absurd (h.taken_lt hk') (Nat.not_lt.mpr hj')
    · have hi (l : Fin n) (hl : taken (s'.doing l) = some record) : l = i := by
        by_contra hli
        rw [hother hli] at hl
        exact absurd (h.taken_lt hl) (Nat.not_lt.mpr hj')
      exact hjk ((hi j hj).trans (hi k hk).symm)
  · rw [hreturned] at hq
    obtain ⟨hf, hw⟩ := h.whole q hq
    exact ⟨hf, hw.frame hheader hcount hf
      (hbytes q.1 hw.1.1 fun hr => h.fresh i q.1 hr q hq rfl)⟩
  · rw [hreturned] at hq
    rcases hfresh j hr with hj | hj
    · exact h.fresh j record hj q hq
    · exact fun he => absurd (he ▸ (h.whole q hq).2.1.1) (Nat.not_lt.mpr hj)
  · rw [hreturned]
    exact h.nodup

/-! ## 4. The steps -/

/-- A step that changes the locks and the logical size only. -/
theorem RowsInv.stay (h : RowsInv s) (after : AppendStage) {lock : UpgradeLock (Fin n)}
    {mutex : Option (Fin n)} {size : Nat}
    (hlock : lock = Function.update s.lock i (after.mode op.access)) (hsound : lock.Sound)
    (hmutex : (after.managing = true ↔ mutex = some i) ∧
      ∀ j ≠ i, (inManager (s.doing j) = true ↔ mutex = some j))
    (hf : Fits recordSize op) (hok : s.Ok op after)
    (htaken : after.own = none ∨ after.own = taken (s.doing i)) :
    RowsInv ((((s.setFile { s.manager.file with logicalSize := size }).setLock lock).setMutex
      mutex).goto i op after) := by
  refine h.goto (d := some (op, after)) rfl rfl (Nat.le_refl _) h.count_le h.fits h.mapped
    (.inr ⟨rfl, rfl⟩) (.inl rfl) hlock hsound hmutex (fun _ _ _ _ _ => rfl) (fun op' stage' hd => ?_)
    (fun record hr => ?_) rfl rfl
  · cases hd
    exact ⟨hf, hok.frame rfl (Nat.le_refl _) hf (fun _ _ _ _ => rfl) (fun _ => rfl)
      fun _ => ⟨rfl, Nat.le_refl _⟩⟩
  · rcases htaken with hnone | hsame
    · exact absurd (hr.symm.trans hnone) (Option.some_ne_none _)
    · exact .inl (hsame ▸ hr)

/-- The lock of the mapping changes hands. -/
theorem RowsInv.relock (h : RowsInv s) (after : AppendStage) {before : AppendStage}
    (hd : s.doing i = some (op, before)) {old new : Option Mode} {lock : UpgradeLock (Fin n)} {size : Nat}
    (hc : s.lock.change i old new = some lock) (hmode : after.mode op.access = new)
    (hmanaging : after.managing = before.managing) (hok : s.Ok op after)
    (htaken : after.own = none ∨ after.own = before.own) :
    RowsInv
      (((s.setFile { s.manager.file with logicalSize := size }).setLock lock).goto i op after) := by
  have hm := h.mutex i
  rw [hd] at hm
  refine h.stay after ?_ (h.sound.change hc)
    ⟨(Bool.eq_iff_iff.mp hmanaging).trans hm, fun j _ => h.mutex j⟩ (h.ok i op before hd).1 hok
    (by rw [hd]; exact htaken)
  rw [hmode]
  exact (UpgradeLock.change_eq_some hc).2.2

/-- A thread goes on with the locks it has. -/
theorem RowsInv.keep (h : RowsInv s) (after : AppendStage) {before : AppendStage}
    (hd : s.doing i = some (op, before)) (hmode : after.mode op.access = before.mode op.access)
    (hmanaging : after.managing = before.managing) (hok : s.Ok op after)
    (htaken : after.own = none ∨ after.own = before.own) : RowsInv (s.goto i op after) := by
  have hm := h.mutex i
  rw [hd] at hm
  exact h.stay after (h.lock_update (some (op, after)) (by rw [hd]; exact hmode)) h.sound
    ⟨(Bool.eq_iff_iff.mp hmanaging).trans hm, fun j _ => h.mutex j⟩ (h.ok i op before hd).1 hok
    (by rw [hd]; exact htaken)

/-- A write into a record is mapped. -/
theorem RowsInv.poke_eq (h : RowsInv s) (hr : record < s.manager.count) {l : List UInt8}
    (hlen : k + l.length ≤ recordSize) : s.poke (s.data + s.offset record + k) l =
      some (s.setFile { s.manager.file with bytes := s.bytes.write (s.offset record + k) l }) := by
  have hle := h.record_le hr
  unfold poke
  rw [if_pos ⟨by omega, by omega⟩, Nat.add_assoc, Nat.add_sub_cancel_left]
  rfl

/-- A write into a record leaves the others alone. -/
theorem RowsInv.write_same (h : RowsInv s) (hr : record < s.manager.count) {l : List UInt8}
    (hlen : k + l.length ≤ recordSize) {other : Nat} (ho : other < s.manager.count)
    (hne : other ≠ record) {i : Nat} (hi : i < recordSize) :
    s.bytes.write (s.offset record + k) l (s.offset other + i) = s.bytes (s.offset other + i) := by
  refine Memory.write_outside _ ?_
  rcases h.record_apart hr ho (Ne.symm hne) with hle | hle <;> omega

/-- A thread writes into its record, and goes on. -/
theorem RowsInv.wrote (h : RowsInv s) (after : AppendStage) {before : AppendStage}
    (hd : s.doing i = some (op, before)) (hown : before.own = some record)
    (htaken : after.own = before.own) {l : List UInt8} (hlen : k + l.length ≤ recordSize)
    {lock : UpgradeLock (Fin n)} (hlock : lock = Function.update s.lock i (after.mode op.access))
    (hsound : lock.Sound)
    (hmanaging : after.managing = before.managing)
    (hok : (s.setFile { s.manager.file with
      bytes := s.bytes.write (s.offset record + k) l }).Ok op after) :
    RowsInv (((s.setFile { s.manager.file with
      bytes := s.bytes.write (s.offset record + k) l }).setLock lock).goto i op after) := by
  have hm := h.mutex i
  obtain ⟨hf, hbefore⟩ := h.ok i op before hd
  have hr := hbefore.taken_lt hown
  have htakeni : taken (s.doing i) = some record := by rw [hd]; exact hown
  rw [hd] at hm
  refine h.goto (d := some (op, after)) rfl rfl (Nat.le_refl _) h.count_le h.fits h.mapped
    (.inr ⟨rfl, rfl⟩) (.inl rfl) hlock hsound
    ⟨(Bool.eq_iff_iff.mp hmanaging).trans hm, fun j _ => h.mutex j⟩
    (fun other ho hne i hi => h.write_same hr hlen ho (fun he => hne (he ▸ htakeni)) hi)
    (fun op' stage' hd => ?_) (fun record' hr' => .inl ?_) rfl rfl
  · cases hd
    exact ⟨hf, hok.frame rfl (Nat.le_refl _) hf (fun _ _ _ _ => rfl) (fun _ => rfl)
      fun _ => ⟨rfl, Nat.le_refl _⟩⟩
  · rw [htakeni, ← hown, ← htaken]
    exact hr'

/-- The link of a record is written. -/
theorem RowsInv.writeLink (h : RowsInv s) (hd : s.doing i = some (op, .writeLink record address))
    (hc : s.stepFrom i op (.writeLink record address) = some s') : RowsInv s' := by
  obtain ⟨hf, hr, haddress⟩ := h.ok i op _ hd
  have hlen : 0 + (Memory.toLE 4 op.next).length ≤ recordSize := by
    have := hf.2
    rw [Memory.length_toLE]
    omega
  have hpoke := h.poke_eq hr hlen
  have hc : ((s.poke address (Memory.toLE 4 op.next)).bind fun s =>
      (s.lock.unlockShared i).map fun lock => (s.setLock lock).goto i op (.getRow record)) = some s' :=
    hc
  rw [haddress, show s.data + s.offset record = s.data + s.offset record + 0 from rfl, hpoke] at hc
  obtain ⟨lock, hlock, rfl⟩ := Option.map_eq_some_iff.mp hc
  refine h.wrote (.getRow record) hd rfl rfl hlen (UpgradeLock.change_eq_some hlock).2.2
    (h.sound.change hlock) rfl ⟨hr, ?_⟩
  exact Memory.readWord_writeWord _ hf.1

/-- A byte of a row goes into the record of its thread. -/
theorem RowsInv.pokeRow_eq (h : RowsInv s) (hd : s.doing i = some (op, .writeRow record address k))
    (hsteady : s.Steady (.step i)) (hlt : k < op.row.length) (b : UInt8) :
    address = s.data + s.offset record + 4 ∧ s.poke (address + k) [b] = some (s.setFile
      { s.manager.file with bytes := s.bytes.write (s.offset record + (4 + k)) [b] }) := by
  obtain ⟨hf, hlinked, _, _, haddress⟩ := h.ok i op _ hd
  have hfit := hf.2
  have hcurrent : address = s.data + s.offset record + 4 := by
    cases ha : op.access with
    | held => exact haddress ha
    | dropped => exact hsteady op record address k hd ha hlt
  have hlen : 4 + k + [b].length ≤ recordSize := by
    rw [List.length_singleton]
    omega
  refine ⟨hcurrent, ?_⟩
  rw [hcurrent, Nat.add_assoc _ 4 k]
  exact h.poke_eq hlinked.1 hlen

/-- A byte of a row is written, or the last one was. -/
theorem RowsInv.writeRow (h : RowsInv s) (hd : s.doing i = some (op, .writeRow record address k))
    (hsteady : s.Steady (.step i)) (hc : s.stepFrom i op (.writeRow record address k) = some s') :
    RowsInv s' := by
  obtain ⟨hf, hlinked, hk, hread, haddress⟩ := h.ok i op _ hd
  have hfit := hf.2
  unfold stepFrom at hc
  dsimp only at hc
  rcases Nat.lt_or_ge k op.row.length with hlt | hge
  · obtain ⟨b, hb⟩ : ∃ b, op.row[k]? = some b := ⟨_, List.getElem?_eq_getElem hlt⟩
    obtain ⟨hcurrent, hpoke⟩ := h.pokeRow_eq hd hsteady hlt b
    have hlen : 4 + k + [b].length ≤ recordSize := by
      rw [List.length_singleton]
      omega
    rw [hb] at hc
    dsimp only at hc
    rw [hpoke] at hc
    cases hc
    have hlock := h.lock_update (some (op, .writeRow record address (k + 1))) (by rw [hd]; rfl)
    refine h.wrote (.writeRow record address (k + 1)) hd rfl rfl hlen hlock h.sound rfl
      ⟨⟨hlinked.1, ?_⟩, hlt, ?_, fun _ => hcurrent⟩
    · refine (Memory.readWord_write_disjoint _ (.inl ?_)).trans hlinked.2
      exact Nat.add_le_add_left (Nat.le_add_right 4 k) _
    · show (s.bytes.write (s.offset record + (4 + k)) [b]).read (s.offset record + 4) (k + 1) = _
      rw [Memory.read_append, List.take_add_one, hb, Nat.add_assoc (s.offset record)]
      refine congr_arg₂ (· ++ ·) ?_ (Memory.read_write _ _ [b])
      exact (Memory.read_write_disjoint _ (.inl (Nat.add_assoc ..).le)).trans hread
  · have hlast : k = op.row.length := Nat.le_antisymm hk hge
    have hwhole : s.Whole op record := by
      refine ⟨hlinked, ?_⟩
      rw [← hlast, hread, hlast, List.take_length]
    rw [List.getElem?_eq_none hge] at hc
    dsimp only at hc
    split at hc
    · rename_i ha
      obtain ⟨lock, hlock, rfl⟩ := Option.map_eq_some_iff.mp hc
      exact h.relock (.done record) hd hlock rfl rfl hwhole (.inr rfl)
    · rename_i ha
      cases hc
      exact h.keep (.done record) hd (if_neg ha).symm rfl hwhole (.inr rfl)

/-- The new record is counted. -/
theorem RowsInv.counted (h : RowsInv s) (hd : s.doing i = some (op, .count))
    (hc : s.stepFrom i op .count = some s') : RowsInv s' := by
  obtain ⟨hf, hroom, hsize⟩ := h.ok i op _ hd
  have hmine : s.mutex = some i := (h.mutex i).mp (by rw [hd]; rfl)
  have hcount : u32 (s.manager.count + 1) = s.manager.count + 1 := u32_of_le hroom.1
  have hmapped : s.manager.headerSize + (4 + (s.manager.count + 1) * recordSize) ≤
      s.manager.file.fileSize := by
    unfold size at hsize
    rwa [hcount, RecordIndexes.required_eq hroom.2] at hsize
  cases hc
  refine h.goto (i := i) (d := some (op, .getLink s.manager.count)) rfl rfl ?_ ?_ ?_ ?_
    (.inl (by rw [hd]; rfl)) (.inl rfl)
    (h.lock_update (some (op, .getLink s.manager.count)) (by rw [hd]; rfl)) h.sound
    ⟨iff_of_false (fun he => nomatch he) (fun he => nomatch he), fun j hj => ?_⟩
    (fun _ _ _ _ _ => rfl) (fun op' stage' he => ?_) (fun record hr => .inr ?_) rfl rfl
  · exact hcount.symm ▸ Nat.le_add_right _ 1
  · exact hcount.symm ▸ hroom.1
  · exact hcount.symm ▸ hroom.2
  · exact hcount.symm ▸ hmapped
  · refine iff_of_false (fun hin => hj ?_) (fun he => nomatch he)
    exact Option.some.inj (((h.mutex j).mp hin).symm.trans hmine)
  · cases he
    exact ⟨hf, show s.manager.count < u32 (s.manager.count + 1) from hcount.symm ▸ Nat.lt_succ_self _⟩
  · cases hr
    exact Nat.le_refl _

/-- **A step of a thread keeps the invariant.** -/
theorem RowsInv.stepFrom (h : RowsInv s) (hd : s.doing i = some (op, stage))
    (hallowed : s.Allowed (.step i)) (hsteady : s.Steady (.step i))
    (hc : s.stepFrom i op stage = some s') : RowsInv s' := by
  obtain ⟨hf, hok⟩ := h.ok i op stage hd
  cases stage with
  | lockManager =>
      obtain ⟨hfree, he⟩ := Option.ite_none_right_eq_some.mp hc
      cases he
      refine h.stay .lockUpgrade (h.lock_update (some (op, .lockUpgrade)) (by rw [hd]; rfl)) h.sound
        ⟨iff_of_true rfl rfl, fun j hj => ?_⟩ hf True.intro (.inl rfl)
      rw [h.mutex j, hfree]
      exact iff_of_false (fun he => nomatch he) fun he => hj (Option.some.inj he).symm
  | lockUpgrade =>
      have hroom := hallowed (by rw [hd]; rfl)
      obtain ⟨_, he⟩ := Option.ite_none_left_eq_some.mp hc
      obtain ⟨lock, hlock, rfl⟩ := Option.map_eq_some_iff.mp he
      split
      · exact h.relock .lockExclusive hd hlock rfl rfl hroom (.inl rfl)
      · rename_i hsize
        exact h.relock .assign hd hlock rfl rfl ⟨hroom, Nat.le_of_not_lt hsize⟩ (.inl rfl)
  | lockExclusive =>
      obtain ⟨lock, hlock, rfl⟩ := Option.map_eq_some_iff.mp hc
      exact h.relock .remap hd hlock rfl rfl hok (.inl rfl)
  | remap => cases hc
  | assign =>
      obtain ⟨lock, hlock, rfl⟩ := Option.map_eq_some_iff.mp hc
      exact h.relock .release hd hlock rfl rfl hok (.inl rfl)
  | release =>
      obtain ⟨lock, hlock, rfl⟩ := Option.map_eq_some_iff.mp hc
      exact h.relock .count hd hlock rfl rfl hok (.inl rfl)
  | count => exact h.counted hd hc
  | getLink record =>
      obtain ⟨lock, hlock, rfl⟩ := Option.map_eq_some_iff.mp hc
      exact h.relock (.writeLink record (s.data + s.offset record)) hd hlock rfl rfl ⟨hok, rfl⟩
        (.inr rfl)
  | writeLink record address => exact h.writeLink hd hc
  | getRow record =>
      obtain ⟨lock, hlock, rfl⟩ := Option.map_eq_some_iff.mp hc
      split
      · rename_i ha
        refine h.relock (.writeRow record (s.data + s.offset record + 4) 0) hd hlock (if_pos ha) rfl
          ⟨hok, Nat.zero_le _, ?_, fun _ => rfl⟩ (.inr rfl)
        rw [List.take_zero]
        rfl
      · rename_i ha
        have hdropped : op.access = .dropped := by
          cases haccess : op.access with
          | held => exact absurd haccess ha
          | dropped => rfl
        exact h.relock (.dropRow record (s.data + s.offset record + 4)) hd hlock rfl rfl
          ⟨hdropped, hok, rfl⟩ (.inr rfl)
  | dropRow record address =>
      obtain ⟨lock, hlock, rfl⟩ := Option.map_eq_some_iff.mp hc
      obtain ⟨hdropped, hlinked, _⟩ := hok
      have hnot : op.access ≠ .held := by
        rw [hdropped]
        exact fun he => nomatch he
      refine h.relock (.writeRow record address 0) hd hlock (if_neg hnot) rfl
        ⟨hlinked, Nat.zero_le _, ?_, fun ha => absurd ha hnot⟩ (.inr rfl)
      rw [List.take_zero]
      rfl
  | writeRow record address k => exact h.writeRow hd hsteady hc
  | done record => cases hc

/-- **The mapping grows**, and may move: nobody else holds an address into it. -/
theorem RowsInv.remap {p : Platform} (hp : p.Exact) (h : RowsInv s) {data : Nat}
    (hd : s.doing i = some (op, .remap)) (hc : s.remapFrom p i op data = some s') : RowsInv s' := by
  obtain ⟨hf, hroom⟩ := h.ok i op _ hd
  have hl := h.lock i
  have hm := h.mutex i
  rw [hd] at hl hm
  obtain ⟨file, hfile, hc⟩ := Option.bind_eq_some_iff.mp hc
  obtain ⟨lock, hlock, rfl⟩ := Option.map_eq_some_iff.mp hc
  unfold MemoryMap.truncateMapped at hfile
  obtain ⟨_, hfile⟩ := Option.ite_none_left_eq_some.mp hfile
  cases hfile
  have hsize : s.size ≤ p.expand s.size s.manager.file.expansion := hp.le_expand _ _
  have hmapped : s.manager.headerSize + (4 + s.manager.count * recordSize) ≤
      p.expand s.size s.manager.file.expansion := by
    refine Nat.le_trans ?_ hsize
    unfold size
    rw [show u32 (s.manager.count + 1) = s.manager.count + 1 from u32_of_le hroom.1,
      RecordIndexes.required_eq hroom.2, Nat.succ_mul]
    omega
  refine h.goto (d := some (op, .assign)) rfl rfl (Nat.le_refl _) h.count_le h.fits hmapped
    (.inl (by rw [hd]; rfl)) (.inr hl) (UpgradeLock.change_eq_some hlock).2.2 (h.sound.change hlock)
    ⟨hm, fun j _ => h.mutex j⟩ (fun _ _ _ _ _ => rfl) (fun op' stage' he => ?_)
    (fun _ hr => (nomatch hr)) rfl rfl
  cases he
  exact ⟨hf, hroom, hsize⟩

/-- A call begins. -/
theorem RowsInv.call (h : RowsInv s) (hd : s.doing i = none) (hf : Fits recordSize op) :
    RowsInv (s.goto i op .lockManager) := by
  have hm := h.mutex i
  rw [hd] at hm
  exact h.stay .lockManager (h.lock_update (some (op, .lockManager)) (by rw [hd]; rfl)) h.sound
    ⟨hm, fun j _ => h.mutex j⟩ hf True.intro (.inl rfl)

/-- A call returns. -/
theorem RowsInv.answer (h : RowsInv s) (hd : s.doing i = some (op, .done record)) :
    RowsInv { s with
      doing := Function.update s.doing i none, returned := (record, op) :: s.returned } := by
  obtain ⟨hf, hwhole⟩ := h.ok i op _ hd
  have hm := h.mutex i
  have htaken : taken (s.doing i) = some record := by rw [hd]; rfl
  have hlock := h.lock_update none (by rw [hd]; rfl)
  rw [hd] at hm
  have h' : RowsInv { s with doing := Function.update s.doing i none } := by
    exact h.goto (d := none) rfl rfl (Nat.le_refl _) h.count_le h.fits h.mapped (.inr ⟨rfl, rfl⟩)
      (.inl rfl) hlock h.sound ⟨hm, fun j _ => h.mutex j⟩ (fun _ _ _ _ _ => rfl)
      (fun _ _ he => nomatch he)
      (fun _ hr => (nomatch hr)) rfl rfl
  refine ⟨h'.opened, h'.count_le, h'.fits, h'.mapped, h'.lock, h'.sound, h'.mutex, h'.ok, h'.apart,
    List.forall_mem_cons.mpr ⟨⟨hf, hwhole⟩, h'.whole⟩, fun j r hr => ?_, ?_⟩
  · refine List.forall_mem_cons.mpr ⟨fun he => ?_, h'.fresh j r hr⟩
    have hr : taken (Function.update s.doing i none j) = some r := hr
    by_cases hj : j = i
    · rw [hj, Function.update_self] at hr
      cases hr
    · rw [Function.update_of_ne hj, ← he] at hr
      exact hj (h.apart j i record hr htaken)
  · refine List.nodup_cons.mpr ⟨fun hm => ?_, h.nodup⟩
    obtain ⟨q, hq, he⟩ := List.mem_map.mp hm
    exact h.fresh i record htaken q hq he

/-- **Every turn keeps the invariant.** -/
theorem RowsInv.act {p : Platform} (hp : p.Exact) (h : RowsInv s) {t : AppendTurn n}
    (ha : s.Allowed t) (hs : s.Steady t) (hc : s.act p t = some s') : RowsInv s' := by
  unfold MappedRows.act at hc
  cases t with
  | call i op =>
      dsimp only at hc
      split at hc
      · rename_i hd
        cases hc
        exact h.call hd ha
      · cases hc
  | step i =>
      obtain ⟨r, hd, hc⟩ := Option.bind_eq_some_iff.mp hc
      exact h.stepFrom hd ha hs hc
  | remap i data =>
      dsimp only at hc
      split at hc
      · rename_i hd
        exact h.remap hp hd hc
      · cases hc
  | answer i =>
      dsimp only at hc
      split at hc
      · rename_i hd
        cases hc
        exact h.answer hd
      · cases hc

/-! ## 5. Runs -/

/-- A thread keeps to its call, and a step takes one turn off. -/
theorem stepFrom_doing (hc : s.stepFrom i op stage = some s') : ∃ stage',
    s'.doing = Function.update s.doing i (some (op, stage')) ∧
      stage'.left op.row.length < stage.left op.row.length := by
  cases stage with
  | lockManager =>
      obtain ⟨_, he⟩ := Option.ite_none_right_eq_some.mp hc
      cases he
      exact ⟨_, rfl, Nat.lt_succ_self _⟩
  | lockUpgrade =>
      obtain ⟨_, he⟩ := Option.ite_none_left_eq_some.mp hc
      obtain ⟨lock, _, rfl⟩ := Option.map_eq_some_iff.mp he
      refine ⟨_, rfl, ?_⟩
      split
      · exact Nat.lt_succ_self _
      · exact Nat.add_lt_add_left (show 9 < 12 by decide) _
  | remap => cases hc
  | count =>
      cases hc
      exact ⟨_, rfl, Nat.lt_succ_self _⟩
  | writeLink record address =>
      obtain ⟨s₁, hpoke, hc⟩ := Option.bind_eq_some_iff.mp hc
      obtain ⟨_, he⟩ := Option.ite_none_right_eq_some.mp hpoke
      cases he
      obtain ⟨lock, _, rfl⟩ := Option.map_eq_some_iff.mp hc
      exact ⟨_, rfl, Nat.lt_succ_self _⟩
  | getRow record =>
      obtain ⟨lock, _, rfl⟩ := Option.map_eq_some_iff.mp hc
      refine ⟨_, rfl, ?_⟩
      split
      · exact Nat.add_lt_add_left (show 2 < 4 by decide) _
      · exact Nat.lt_succ_self _
  | writeRow record address k =>
      unfold stepFrom at hc
      dsimp only at hc
      split at hc
      · rename_i b hb
        obtain ⟨s₁, hpoke, rfl⟩ := Option.map_eq_some_iff.mp hc
        obtain ⟨_, he⟩ := Option.ite_none_right_eq_some.mp hpoke
        cases he
        obtain ⟨hlt, _⟩ := List.getElem?_eq_some_iff.mp hb
        refine ⟨_, rfl, Nat.add_lt_add_right ?_ 2⟩
        omega
      · split at hc
        · obtain ⟨lock, _, rfl⟩ := Option.map_eq_some_iff.mp hc
          exact ⟨_, rfl, Nat.lt_add_left _ (Nat.lt_succ_self 1)⟩
        · cases hc
          exact ⟨_, rfl, Nat.lt_add_left _ (Nat.lt_succ_self 1)⟩
  | done record => cases hc
  | _ =>
      obtain ⟨lock, _, rfl⟩ := Option.map_eq_some_iff.mp hc
      exact ⟨_, rfl, Nat.lt_succ_self _⟩

/-- Every call keeps its pointer. -/
def Held (s : MappedRows recordSize n) : Prop :=
  ∀ i op stage, s.doing i = some (op, stage) → op.access = .held

theorem Held.update (h : Held s) (hdoing : s'.doing = Function.update s.doing i (some (op, stage)))
    (hop : op.access = .held) : Held s' := by
  intro j op' stage' hj
  rw [hdoing] at hj
  by_cases hji : j = i
  · rw [hji, Function.update_self] at hj
    cases hj
    exact hop
  · rw [Function.update_of_ne hji] at hj
    exact h j op' stage' hj

theorem Held.act {p : Platform} (h : Held s) {t : AppendTurn n}
    (ht : ∀ i op, t = .call i op → op.access = .held) (hc : s.act p t = some s') : Held s' := by
  unfold MappedRows.act at hc
  cases t with
  | call i op =>
      dsimp only at hc
      split at hc
      · cases hc
        exact h.update rfl (ht i op rfl)
      · cases hc
  | step i =>
      obtain ⟨r, hd, hc⟩ := Option.bind_eq_some_iff.mp hc
      obtain ⟨stage', hdoing, _⟩ := stepFrom_doing hc
      exact h.update hdoing (h i r.1 r.2 hd)
  | remap i data =>
      dsimp only at hc
      split at hc
      · rename_i op hd
        obtain ⟨file, _, hc⟩ := Option.bind_eq_some_iff.mp hc
        obtain ⟨lock, _, rfl⟩ := Option.map_eq_some_iff.mp hc
        exact h.update rfl (h i op _ hd)
      · cases hc
  | answer i =>
      dsimp only at hc
      split at hc
      · cases hc
        intro j op' stage' hj
        have hj : Function.update s.doing i none j = some (op', stage') := hj
        by_cases hji : j = i
        · rw [hji, Function.update_self] at hj
          cases hj
        · rw [Function.update_of_ne hji] at hj
          exact h j op' stage' hj
      · cases hc

theorem Held.steady_step (h : Held s) (j : Fin n) : s.Steady (.step j) := by
  intro op record address k hd hdropped
  rw [h j op _ hd] at hdropped
  cases hdropped

/-- **Where every row goes through `add_to_list` no address is dropped.** -/
theorem Held.steady {p : Platform} (h : Held s) {turns : List (AppendTurn n)}
    (hturns : ∀ i op, .call i op ∈ turns → op.access = .held) :
    EverySome (MappedRows.act p) Steady s turns := by
  induction turns generalizing s with
  | nil => exact True.intro
  | cons t turns ih =>
      refine ⟨?_, fun s' hc => ih (h.act (fun i op ht => hturns i op (ht ▸ List.mem_cons_self)) hc)
        fun i op ht => hturns i op (List.mem_cons_of_mem _ ht)⟩
      cases t with
      | step i => exact h.steady_step i
      | _ => exact True.intro

/-- A created file has no record, and no thread is in a call. -/
theorem initial_inv {p : Platform} (hp : p.Exact) {m manager : FileManager (.records recordSize)}
    (hc : m.create p = some manager) (hheader : manager.headerSize + 4 < sizeLimit) (data : Nat) :
    RowsInv (initial manager data : MappedRows recordSize n) := by
  unfold FileManager.create at hc
  obtain ⟨hfirst, hc⟩ := Option.ite_none_left_eq_some.mp hc
  obtain ⟨file, hfile, rfl⟩ := Option.map_eq_some_iff.mp hc
  have hcount : m.count = 0 := not_not.mp hfirst
  have hzero : m.headerSize + (4 + m.count * recordSize) = m.headerSize + 4 := by
    rw [hcount, Nat.zero_mul, Nat.add_zero]
  have hreserved := MemoryMap.reserveWith_eq_some hfile
  have hmapped := hreserved.size_le hp
  rw [RecordIndexes.required_eq (hzero.symm ▸ hheader)] at hmapped
  exact ⟨hreserved.closed, hcount.symm ▸ Nat.zero_le _, hzero.symm ▸ hheader, hmapped, fun _ => rfl,
    UpgradeLock.free_sound, fun _ => iff_of_false (fun he => nomatch he) (fun he => nomatch he),
    fun _ _ _ he => (nomatch he), fun _ _ _ he => (nomatch he), fun _ he => (nomatch he),
    fun _ _ he => (nomatch he), List.nodup_nil⟩

/-- **Rows are written where they belong**: from `create` on, whatever the order of the steps and
    wherever the file is mapped, the calls that have returned have records of their own, each with its
    link and its row; where no dropped address is written through after a remap, and so wherever every
    row goes through `add_to_list`. -/
theorem rows_intact {p : Platform} (hp : p.Exact) {m manager : FileManager (.records recordSize)}
    (hc : m.create p = some manager) (hheader : manager.headerSize + 4 < sizeLimit) {data : Nat}
    {turns : List (AppendTurn n)}
    (ha : EverySome (MappedRows.act p) Allowed (initial manager data) turns)
    (hs : EverySome (MappedRows.act p) Steady (initial manager data) turns ∨
      ∀ i op, .call i op ∈ turns → op.access = .held)
    (hr : runSome (MappedRows.act p) (initial manager data) turns = some s) :
    (s.returned.map Prod.fst).Nodup ∧ ∀ q ∈ s.returned, s.Whole q.2 q.1 := by
  have hheld : Held (initial manager data : MappedRows recordSize n) := fun _ _ _ he => nomatch he
  have hsteady : EverySome (MappedRows.act p) Steady (initial manager data) turns :=
    hs.elim id hheld.steady
  have h : RowsInv s := EverySome.keeps (fun _ _ _ h hG hc => h.act hp hG.1 hG.2 hc)
    (initial_inv hp hc hheader data) (ha.and hsteady) hr
  exact ⟨h.nodup, fun q hq => (h.whole q hq).2⟩

/-- A file of ten bytes for records of six. -/
def sampleManager : FileManager (.records 6) := ⟨⟨fun _ => 0, 10, 10, false, 50⟩, 0, 0⟩

/-- The second thread has to grow the file, and waits until the first one has written its row. -/
def movingRows (i j : Fin n) : List (AppendTurn n) :=
  [.call i ⟨.held, maxUint32, [7, 8]⟩] ++ List.replicate 9 (.step i) ++
    [.call j ⟨.held, 0, [9, 6]⟩] ++ List.replicate 2 (.step j) ++ List.replicate 2 (.step i) ++
    [.step j, .remap j 5000] ++ List.replicate 9 (.step j) ++ [.answer i, .answer j]

theorem movingRows_intact : ∃ (manager : FileManager (.records 6)) (s : MappedRows 6 2),
    sampleManager.create .exact = some manager ∧
    runSome (MappedRows.act .exact) (initial manager 1000) (movingRows 0 1) = some s ∧
    s.data = 5000 ∧ s.returned = [(1, ⟨.held, 0, [9, 6]⟩), (0, ⟨.held, maxUint32, [7, 8]⟩)] ∧
    (s.returned.map Prod.fst).Nodup ∧ ∀ q ∈ s.returned, s.Whole q.2 q.1 := by
  have hb : ((sampleManager.create .exact).bind fun manager =>
      (runSome (MappedRows.act .exact) (initial manager 1000) (movingRows (0 : Fin 2) 1)).bind fun s =>
        if EverySome (MappedRows.act .exact) Allowed (initial manager 1000) (movingRows (0 : Fin 2) 1) ∧
          manager.headerSize + 4 < sizeLimit ∧ s.data = 5000 ∧
          s.returned = [(1, ⟨.held, 0, [9, 6]⟩), (0, ⟨.held, maxUint32, [7, 8]⟩)] then some s
        else none).isSome = true := by decide +kernel
  obtain ⟨_, hb⟩ := Option.isSome_iff_exists.mp hb
  obtain ⟨manager, hc, hb⟩ := Option.bind_eq_some_iff.mp hb
  obtain ⟨s, hr, hb⟩ := Option.bind_eq_some_iff.mp hb
  obtain ⟨⟨ha, hheader, hdata, hreturned⟩, _⟩ := Option.ite_none_right_eq_some.mp hb
  refine ⟨manager, s, hc, hr, hdata, hreturned,
    rows_intact Platform.exact_exact hc hheader ha (.inr fun i op ht => ?_) hr⟩
  simp [movingRows] at ht
  rcases ht with ⟨_, rfl⟩ | ⟨_, rfl⟩ <;> rfl

/-- The first thread has dropped the pointer to its record when the mapping moves. -/
def droppedPointer (i j : Fin n) (data : Nat) : List (AppendTurn n) :=
  [.call i ⟨.dropped, maxUint32, [7, 8]⟩] ++ List.replicate 9 (.step i) ++
    [.call j ⟨.held, 0, [9, 6]⟩] ++ List.replicate 3 (.step j) ++ [.remap j data] ++
    List.replicate 9 (.step j) ++ List.replicate 3 (.step i) ++ [.answer i, .answer j]

-- the row lands in the link of the other record, or its address is not mapped
example : ((sampleManager.create .exact).bind fun manager =>
    (runSome (MappedRows.act .exact) (initial manager 1000)
      (droppedPointer (0 : Fin 2) 1 996)).map fun s => (s.bytes.read 8 2, s.bytes.read 10 4)) =
    some ([0, 0], [0, 0, 7, 8]) := by decide +kernel

example : ((sampleManager.create .exact).bind fun manager =>
    runSome (MappedRows.act .exact) (initial manager 1000)
      (droppedPointer (0 : Fin 2) 1 5000)).isNone := by decide +kernel

end MappedRows

end Libbitcoin.Database
