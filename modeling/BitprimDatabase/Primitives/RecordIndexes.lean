/-
  File:      BitprimDatabase/Primitives/RecordIndexes.lean
  Subject:   **THE INDEXES OF RECORDS** (record_manager.cpp `new_records`, `set_count`,
             record_list.cpp), over every sequence of calls on a manager.

  * `RecordIndexes` -- the manager, and the extents of indexes handed out and not given back;
  * `Sound` -- **a call fails and changes nothing, or returns fresh indexes below the sentinel**, the
    count is their end and the file is large enough;
  * `Fits` -- the file refuses, or neither the 32-bit count nor the 64-bit size runs over: nothing in
    `new_records` checks it;
  * **`sound_iff_fits`** -- every call of a run is sound exactly where every call fits;
  * `newRecords_rows`, `Inv.ne_empty` -- the file of rows grants what is granted here, and only that; no
    row that fits is `record_list::empty`.
-/
import BitprimDatabase.Lib.Extents
import BitprimDatabase.Lib.Run
import BitprimDatabase.Primitives.MemoryMap
import BitprimDatabase.Primitives.MultimapFile

namespace Libbitcoin.Database

open Lib

/-- The calls that change the count; `set_count` takes an `array_index`. -/
inductive RecordOp where
  | newRecords (count : Nat)
  | setCount (value : UInt32)

structure RecordIndexes (recordSize : Nat) where
  manager : FileManager (.records recordSize)
  allocated : List Extent

namespace RecordIndexes

variable {recordSize : Nat}

/-! ## 1. The calls -/

/-- A manager that was created or started: what it counts is allocated. -/
def start (m : FileManager (.records recordSize)) : RecordIndexes recordSize := ⟨m, [⟨0, m.count⟩]⟩

def step (p : Platform) (s : RecordIndexes recordSize) : RecordOp → RecordIndexes recordSize
  | .newRecords count =>
    match s.manager.newRecords p count with
    | none => s
    | some (m, first) => ⟨m, ⟨first, count⟩ :: s.allocated⟩
  | .setCount value => ⟨s.manager.setCount value.toNat, cut value.toNat s.allocated⟩

/-- **What a call that returns should do.** -/
structure Returned (s : RecordIndexes recordSize) (count : Nat)
    (m : FileManager (.records recordSize)) (first : Nat) : Prop where
  index_lt : ∀ i < count, first + i < maxUint32
  fresh : ∀ i < count, ∀ e ∈ s.allocated, first + i ∉ e
  count_eq : m.count = first + count
  reserved : m.headerSize + (4 + (first + count) * recordSize) ≤ m.file.logicalSize

def Sound (p : Platform) (s : RecordIndexes recordSize) : RecordOp → Prop
  | .newRecords count =>
    (s.manager.newRecords p count = none ∧ s.step p (.newRecords count) = s) ∨
      ∃ m first, s.manager.newRecords p count = some (m, first) ∧ s.Returned count m first
  | .setCount _ => True

/-- **The condition**: the file refuses the size asked for, or the count stays below 2 ^ 32 and the
    size below 2 ^ 64. -/
def Fits (p : Platform) (s : RecordIndexes recordSize) : RecordOp → Prop
  | .newRecords count =>
    s.manager.file.Refuses p (s.manager.required (u32 (s.manager.count + count)))
        s.manager.file.expansion ∨
      (s.manager.count + count ≤ maxUint32 ∧
        s.manager.headerSize + (4 + (s.manager.count + count) * recordSize) < sizeLimit)
  | .setCount _ => True

instance (p : Platform) (s : RecordIndexes recordSize) (op : RecordOp) : Decidable (s.Fits p op) :=
  match op with
  | .newRecords count => inferInstanceAs (Decidable (
      s.manager.file.Refuses p (s.manager.required (u32 (s.manager.count + count)))
          s.manager.file.expansion ∨
        (s.manager.count + count ≤ maxUint32 ∧
          s.manager.headerSize + (4 + (s.manager.count + count) * recordSize) < sizeLimit)))
  | .setCount _ => .isTrue True.intro

/-! ## 2. One call -/

/-- What is allocated lies below the count. -/
def Inv (s : RecordIndexes recordSize) : Prop := Packed s.manager.count s.allocated

theorem start_inv (m : FileManager (.records recordSize)) : (start m).Inv := by
  have hone := (Packed.nil 0).take m.count
  rwa [Nat.zero_add] at hone

section Call

variable {p : Platform} {s : RecordIndexes recordSize}

/-- What `new_records` answers. -/
theorem newRecords_cases (p : Platform) (m : FileManager (.records recordSize)) (count : Nat) :
    (m.file.Refuses p (m.required (u32 (m.count + count))) m.file.expansion ∧
        m.newRecords p count = none) ∨
      (¬ m.file.Refuses p (m.required (u32 (m.count + count))) m.file.expansion ∧ ∃ file,
        m.newRecords p count = some (⟨file, m.headerSize, u32 (m.count + count)⟩, m.count) ∧
          file.logicalSize = m.required (u32 (m.count + count))) := by
  rw [FileManager.newRecords_eq, ← MemoryMap.reserveWith_eq_none]
  unfold FileManager.allocate
  dsimp only
  cases hf : m.file.reserve p (m.required ((m.count + count) % Memory.limit 4)) with
  | none => exact .inl ⟨hf, congrArg _ hf⟩
  | some file =>
      refine .inr ⟨fun hnone => ?_, file, congrArg _ hf, (MemoryMap.reserveWith_eq_some hf).logicalSize⟩
      exact Option.some_ne_none file (hf.symm.trans hnone)

/-- The size asked for does not run over. -/
theorem required_eq {m : FileManager (.records recordSize)} {count : Nat}
    (h : m.headerSize + (4 + count * recordSize) < sizeLimit) :
    m.required count = m.headerSize + (4 + count * recordSize) := by
  show (m.headerSize + (4 + count * recordSize) % sizeLimit) % sizeLimit = _
  rw [Nat.mod_eq_of_lt (Nat.lt_of_le_of_lt (Nat.le_add_left _ _) h), Nat.mod_eq_of_lt h]

/-- **One call.** -/
theorem Inv.sound_iff (h : s.Inv) (op : RecordOp) : s.Sound p op ↔ s.Fits p op := by
  cases op with
  | setCount value => exact Iff.rfl
  | newRecords count =>
      unfold Sound Fits
      dsimp only
      rcases newRecords_cases p s.manager count with ⟨hrefuses, hnone⟩ | ⟨hgrants, file, hsome, hlogical⟩
      · refine iff_of_true (.inl ⟨hnone, ?_⟩) (.inl hrefuses)
        unfold step
        dsimp only
        rw [hnone]
      · rw [or_iff_right hgrants, hsome]
        constructor
        · rintro (⟨hnone, -⟩ | ⟨m, first, he, hreturned⟩)
          · cases hnone
          · cases he
            have hcount : u32 (s.manager.count + count) = s.manager.count + count :=
              hreturned.count_eq
            have hreserved : s.manager.headerSize + (4 + (s.manager.count + count) * recordSize) ≤
                file.logicalSize := hreturned.reserved
            refine ⟨hcount ▸ u32_le _, Nat.lt_of_le_of_lt hreserved ?_⟩
            rw [hlogical]
            exact Nat.mod_lt _ (by decide)
        · rintro ⟨hcount, hsize⟩
          rw [u32_of_le hcount] at hlogical ⊢
          rw [required_eq hsize] at hlogical
          refine .inr ⟨_, _, rfl, fun i hi => ?_, fun i _ e he => ?_, rfl, Nat.le_of_eq hlogical.symm⟩
          · omega
          · exact Packed.not_mem h he (Nat.le_add_right _ _)

/-- **A call that fits keeps what is allocated below the count.** -/
theorem Inv.step (h : s.Inv) (op : RecordOp) (hfits : s.Fits p op) : (s.step p op).Inv := by
  cases op with
  | setCount value => exact Packed.cut h value.toNat
  | newRecords count =>
      unfold RecordIndexes.step
      rcases newRecords_cases p s.manager count with ⟨_, hnone⟩ | ⟨hgrants, file, hsome, -⟩
      · dsimp only
        rw [hnone]
        exact h
      · obtain ⟨hcount, -⟩ := hfits.resolve_left hgrants
        dsimp only
        rw [hsome, u32_of_le hcount]
        exact Packed.take h count

end Call

/-! ## 3. Runs -/

/-- **Every call of a run is sound exactly where every call fits.** -/
theorem sound_iff_fits (p : Platform) (m : FileManager (.records recordSize))
    (ops : List RecordOp) :
    EveryStep (step p) (Sound p) (start m) ops ↔ EveryStep (step p) (Fits p) (start m) ops :=
  everyStep_congr (fun _ op h hfits => Inv.step h op hfits) (fun _ op h => Inv.sound_iff h op)
    (start_inv m)

/-- A manager of records of eight bytes on an empty file of four. -/
def sampleManager : FileManager (.records 8) := ⟨⟨fun _ => 0, 4, 4, false, 50⟩, 0, 0⟩

theorem rewound_sound : EveryStep (step .exact) (Sound .exact) (start sampleManager)
    [.newRecords 5, .setCount 2, .newRecords 4294967293] :=
  (sound_iff_fits .exact sampleManager _).mpr (by decide +kernel)

/-- **The last index is the sentinel, and the count wraps to 0 behind it.** -/
theorem lastRecord_unsound : ¬ EveryStep (step .exact) (Sound .exact) (start sampleManager)
    [.newRecords 4294967295, .newRecords 1] := by
  rintro ⟨-, hsound, -⟩
  have hlast : ((step .exact (start sampleManager) (.newRecords 4294967295)).manager.newRecords
      .exact 1).map (fun r => (r.1.count, r.2)) = some (0, 4294967295) := by decide +kernel
  rcases hsound with ⟨hnone, -⟩ | ⟨m, first, hsome, hreturned⟩
  · rw [hnone] at hlast
    cases hlast
  · rw [hsome] at hlast
    have hfirst : first = maxUint32 := congrArg Prod.snd (Option.some.inj hlast)
    have hlt := hreturned.index_lt 0 Nat.one_pos
    omega

/-! ## 4. The file of rows -/

/-- The file of rows has no header. -/
def toRecordListFile (m : FileManager (.records recordSize)) : RecordListFile recordSize :=
  ⟨m.file.mappedSize, m.file.bytes, m.count⟩

section Rows

variable {p : Platform} {m m' : FileManager (.records recordSize)} {index : Nat}

/-- **A row is granted here exactly where the file of rows grants it**, and the same one. -/
theorem newRecords_rows (hp : p.Exact) (hopen : m.file.closed = false) (hheader : m.headerSize = 0) :
    (toRecordListFile m).newRecords (p.toDisk hp m.file.expansion) =
      (m.newRecords p 1).map fun r => (toRecordListFile r.1, r.2) := by
  have hsize : m.required ((m.count + 1) % Memory.limit 4) =
      RecordListFile.position recordSize ((m.count + 1) % Memory.limit 4) % sizeLimit := by
    unfold FileManager.required
    rw [hheader, Nat.zero_add]
    exact Nat.mod_mod _ _
  rw [FileManager.newRecords_eq]
  unfold FileManager.allocate RecordListFile.newRecords
  dsimp only
  rw [show Memory.limit (Units.records recordSize).width = Memory.limit 4 from rfl, hsize,
    MemoryMap.reserve_eq hp hopen, Option.map_map, Option.map_map]
  rfl

/-- **A row that fits is not the end of the lists.** -/
theorem Inv.ne_empty {s : RecordIndexes recordSize} (h : s.Inv) (hfits : s.Fits p (.newRecords 1))
    (hn : s.manager.newRecords p 1 = some (m', index)) : index ≠ RecordListFile.empty := by
  rcases (Inv.sound_iff h _).mpr hfits with ⟨hnone, -⟩ | ⟨_, _, hsome, hreturned⟩
  · rw [hn] at hnone
    cases hnone
  · rw [hn] at hsome
    cases hsome
    exact Nat.ne_of_lt (hreturned.index_lt 0 Nat.one_pos)

end Rows

end RecordIndexes

end Libbitcoin.Database
