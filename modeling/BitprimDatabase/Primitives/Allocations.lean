/-
  File:      BitprimDatabase/Primitives/Allocations.lean
  Subject:   **WHAT IS HANDED OUT OF A TABLE FILE** (hash_table_header.ipp, slab_manager.cpp,
             record_manager.cpp, memory_map.cpp): a file with buckets, over every sequence of
             allocations, truncations of records, writes and restarts.

  * `Allocations` -- the header, the manager and the extents in use; `regions` -- their bytes;
  * `create`, `restart` -- the header and the manager on an opened file, new or closed before;
  * `Safe` -- **the regions are apart, off the buckets and the counter, mapped and below the logical
    size, and a restart finds the same count and the same bytes in them**;
  * `Inv` -- the extents are packed below the count, and the count is paid for by the logical size;
  * **`allocations_safe`** -- every state of a run whose totals do not run over is safe;
  * `toTableFile` -- `tableFile_create`, `newItem_eq_newUnits`, `tableFile_start`: what is granted
    here, and only that, `TableFile` grants.
-/
import BitprimDatabase.Lib.Extents
import BitprimDatabase.Lib.Run
import BitprimDatabase.Primitives.MemoryMap

namespace Libbitcoin.Database

open Lib

/-- The calls on a table file, and what is done to its bytes. -/
inductive AllocationOp where
  | allocate (units : Nat)
  | setCount (value : Nat)
  | write (address : Nat) (bytes : List UInt8)
  | restart (rest : Memory)

structure Allocations (u : Units) where
  buckets : Nat
  manager : FileManager u
  live : List Extent

namespace Allocations

variable {u : Units}

/-! ## 1. The file -/

/-- `hash_table_header::item_position`. -/
def itemPosition (u : Units) (index : Nat) : Nat := 4 + index * u.width

/-- `hash_table_header::create`. -/
def headerCreate (p : Platform) (u : Units) (f : MemoryMap) (buckets : Nat) : Option MemoryMap :=
  if buckets = 0 then none
  else
    (f.resize p (itemPosition u buckets)).map fun f =>
      { f with
        bytes := (f.bytes.writeWord 0 4 buckets).write 4 (List.replicate (buckets * u.width) 255) }

/-- `hash_table_header::start`. -/
def headerStart (u : Units) (f : MemoryMap) (buckets : Nat) : Bool :=
  decide (itemPosition u buckets ≤ f.fileSize) &&
    (buckets == 0 || f.bytes.readWord 0 4 == buckets)

/-- What a database does with an opened file: it resizes it for both, and creates the header and the
    manager, which resize it again. -/
def create (p : Platform) (u : Units) (f : MemoryMap) (buckets : Nat) : Option (Allocations u) :=
  (f.resize p (u.headerSize buckets + u.width)).bind fun f =>
    (headerCreate p u f buckets).bind fun f =>
      ((FileManager.mk f (u.headerSize buckets) u.first).create p).map fun m => ⟨buckets, m, []⟩

/-- Synchronize, close, and start on the file again. What a later growth puts behind its end is
    `rest`. -/
def restart (s : Allocations u) (rest : Memory) : Option (Allocations u) :=
  let file := s.manager.sync.file.close
  let bytes : Memory := fun i => if i < file.size then file.bytes i else rest i
  (MemoryMap.construct ⟨bytes, file.size⟩ s.manager.file.expansion).openFile.bind fun f =>
    if headerStart u f s.buckets then
      (FileManager.mk f (u.headerSize s.buckets) u.first).start.map fun m => { s with manager := m }
    else none

/-- The bytes of what is in use. -/
def regions (s : Allocations u) : List Extent :=
  s.live.map (Extent.scale (s.manager.headerSize + u.skip) u.unit)

/-- The bucket count and the buckets. -/
def bucketArray (s : Allocations u) : Extent := ⟨0, itemPosition u s.buckets⟩

/-- The stored size or count. -/
def counter (s : Allocations u) : Extent := ⟨s.manager.headerSize, u.width⟩

/-- What a table writes to: the buckets and the regions. -/
def writable (s : Allocations u) : List Extent := ⟨4, s.buckets * u.width⟩ :: s.regions

def writeBytes (s : Allocations u) (address : Nat) (bytes : List UInt8) : Allocations u :=
  { s with
    manager :=
      { s.manager with
        file := { s.manager.file with bytes := s.manager.file.bytes.write address bytes } } }

/-- An allocation that throws leaves everything as it was. -/
def step (p : Platform) (s : Allocations u) : AllocationOp → Allocations u
  | .allocate units =>
    match s.manager.newUnits p units with
    | none => s
    | some (m, first) => ⟨s.buckets, m, ⟨first, units⟩ :: s.live⟩
  | .setCount value => ⟨s.buckets, s.manager.setCount value, cut value s.live⟩
  | .write address bytes => s.writeBytes address bytes
  | .restart rest => (s.restart rest).getD s

/-- **The totals do not run over**; only records are given back, as `set_count` asserts, and only what
    is in use is written. -/
def Fits (s : Allocations u) : AllocationOp → Prop
  | .allocate units =>
    s.manager.count + units < Memory.limit u.width ∧
      s.manager.headerSize + u.offset (s.manager.count + units) < sizeLimit
  | .setCount value => u ≠ .bytes ∧ value ≤ s.manager.count
  | .write address bytes =>
    ∃ e ∈ s.writable, e.first ≤ address ∧ address + bytes.length ≤ e.stop
  | .restart _ => True

instance (s : Allocations u) (op : AllocationOp) : Decidable (s.Fits op) :=
  match op with
  | .allocate units => inferInstanceAs (Decidable (
      s.manager.count + units < Memory.limit u.width ∧
        s.manager.headerSize + u.offset (s.manager.count + units) < sizeLimit))
  | .setCount value => inferInstanceAs (Decidable (u ≠ .bytes ∧ value ≤ s.manager.count))
  | .write address bytes => inferInstanceAs (Decidable (
      ∃ e ∈ s.writable, e.first ≤ address ∧ address + bytes.length ≤ e.stop))
  | .restart _ => .isTrue True.intro

/-- **What holds at all times.** -/
structure Safe (s : Allocations u) : Prop where
  apart : s.regions.Pairwise Extent.Apart
  off_buckets : ∀ e ∈ s.regions, s.bucketArray.Apart e
  off_counter : ∀ e ∈ s.regions, s.counter.Apart e
  mapped : ∀ e ∈ s.regions, e.stop ≤ s.manager.file.fileSize
  logical : ∀ e ∈ s.regions, e.stop ≤ s.manager.file.logicalSize
  restarts : ∀ rest, ∃ s', s.restart rest = some s' ∧ s'.manager.count = s.manager.count ∧
    ∀ e ∈ s.regions, ∀ i ∈ e, s'.manager.file.bytes i = s.manager.file.bytes i

/-! ## 2. The invariant -/

theorem itemPosition_le_headerSize (u : Units) (buckets : Nat) :
    itemPosition u buckets ≤ u.headerSize buckets := by
  have hfour := u.four_le_width
  unfold itemPosition Units.headerSize
  rw [Nat.mul_comm]
  omega

/-- **The invariant**: what is in use lies below the count, and the count is paid for. -/
structure Inv (s : Allocations u) : Prop where
  isOpen : s.manager.file.closed = false
  header : s.manager.headerSize = u.headerSize s.buckets
  stored : s.manager.file.bytes.readWord 0 4 = s.buckets
  packed : Packed s.manager.count s.live
  first_le : u.first ≤ s.manager.count
  live_first : ∀ e ∈ s.live, u.first ≤ e.first
  count_lt : s.manager.count < Memory.limit u.width
  paid : s.manager.headerSize + u.offset s.manager.count ≤ s.manager.file.logicalSize
  mapped : s.manager.file.logicalSize ≤ s.manager.file.fileSize

section Inv

variable {s : Allocations u}

theorem Inv.buckets_le (h : s.Inv) : itemPosition u s.buckets ≤ s.manager.headerSize :=
  h.header ▸ itemPosition_le_headerSize u s.buckets

theorem Inv.counter_le (h : s.Inv) :
    s.manager.headerSize + u.width ≤ s.manager.file.logicalSize := by
  have hoffset := Units.offset_le (u := u) h.first_le
  rw [u.offset_first] at hoffset
  exact Nat.le_trans (Nat.add_le_add_left hoffset _) h.paid

/-- **A region lies behind the counter and below the logical size.** -/
theorem Inv.region (h : s.Inv) {e : Extent} (he : e ∈ s.regions) :
    s.manager.headerSize + u.width ≤ e.first ∧ e.stop ≤ s.manager.file.logicalSize := by
  have hpacked := h.packed.scale (s.manager.headerSize + u.skip) u.unit
  refine ⟨?_, Nat.le_trans (hpacked.le_top e he) ?_⟩
  · obtain ⟨e', he', rfl⟩ := List.mem_map.mp he
    have hoffset := Units.offset_le (u := u) (h.live_first e' he')
    rw [u.offset_first] at hoffset
    exact Nat.le_trans (Nat.add_le_add_left hoffset _) (Nat.le_of_eq (Nat.add_assoc ..).symm)
  · exact Nat.le_trans (Nat.le_of_eq (Nat.add_assoc ..)) h.paid

/-- The bucket count is read below the logical size. -/
theorem Inv.four_le (h : s.Inv) : 4 ≤ itemPosition u s.buckets ∧
    itemPosition u s.buckets ≤ s.manager.file.logicalSize := by
  refine ⟨Nat.le_add_right _ _, Nat.le_trans h.buckets_le ?_⟩
  exact Nat.le_trans (Nat.le_add_right _ _) h.counter_le

/-- The synchronized file differs in the counter only. -/
theorem sync_outside (m : FileManager u) {i : Nat}
    (hi : i < m.headerSize ∨ m.headerSize + u.width ≤ i) :
    m.sync.file.bytes i = m.file.bytes i :=
  Memory.writeWord_outside _ hi

/-- The file once it was closed and opened again, with these bytes. -/
def reopenedFile (s : Allocations u) (bytes : Memory) : MemoryMap :=
  ⟨bytes, s.manager.file.logicalSize, s.manager.file.logicalSize, false, s.manager.file.expansion⟩

section Restart

variable {bytes : Memory}
  (hbytes : ∀ i < s.manager.file.logicalSize, bytes i = s.manager.sync.file.bytes i)
include hbytes

theorem Inv.stored_of_synced (h : s.Inv) : bytes.readWord 0 4 = s.buckets := by
  have hfour := h.four_le
  have hbuckets := h.buckets_le
  refine (congrArg Memory.ofLE (Memory.read_congr fun i _ hi => ?_)).trans h.stored
  rw [hbytes i (by omega), sync_outside s.manager (.inl (by omega))]

theorem Inv.headerStart_eq (h : s.Inv) : headerStart u (s.reopenedFile bytes) s.buckets = true := by
  unfold headerStart reopenedFile
  dsimp only
  rw [h.stored_of_synced hbytes, decide_eq_true h.four_le.2, beq_self_eq_true, Bool.or_true,
    Bool.and_true]

/-- The manager reads the count that was written, and finds the file large enough. -/
theorem Inv.start_eq (h : s.Inv) :
    (FileManager.mk (u := u) (s.reopenedFile bytes) s.manager.headerSize u.first).start =
      some ⟨s.reopenedFile bytes, s.manager.headerSize, s.manager.count⟩ := by
  have hcounter := h.counter_le
  have hcount : bytes.readWord s.manager.headerSize u.width = s.manager.count := by
    have hsync : s.manager.sync.file.bytes.readWord s.manager.headerSize u.width =
        s.manager.count := Memory.readWord_writeWord _ h.count_lt
    refine (congrArg Memory.ofLE (Memory.read_congr fun i _ hi => ?_)).trans hsync
    exact hbytes i (by omega)
  have hminimum : (s.manager.headerSize + u.position s.manager.count) % sizeLimit ≤
      s.manager.file.logicalSize := by
    refine Nat.le_trans (Nat.mod_le _ _) (Nat.le_trans ?_ h.paid)
    exact Nat.add_le_add_left (Nat.mod_le _ _) _
  unfold FileManager.start reopenedFile
  dsimp only
  rw [hcount]
  exact if_pos hminimum

end Restart

/-- **A restart** maps what `close` left, and reads the count that was written. -/
theorem Inv.restart_eq (h : s.Inv) (rest : Memory) : ∃ bytes : Memory,
    s.restart rest =
        some ⟨s.buckets, ⟨s.reopenedFile bytes, s.manager.headerSize, s.manager.count⟩, s.live⟩ ∧
      ∀ i < s.manager.file.logicalSize, bytes i = s.manager.sync.file.bytes i := by
  let bytes : Memory := fun i =>
    if i < s.manager.file.logicalSize then s.manager.sync.file.bytes i else rest i
  have hbytes : ∀ i < s.manager.file.logicalSize, bytes i = s.manager.sync.file.bytes i :=
    fun i hi => if_pos hi
  have hopen : (MemoryMap.construct ⟨bytes, s.manager.file.logicalSize⟩
      s.manager.file.expansion).openFile = some (s.reopenedFile bytes) := by
    have hfour := h.four_le
    exact if_neg (by show ¬ s.manager.file.logicalSize = 0; omega)
  refine ⟨bytes, ?_, hbytes⟩
  show (MemoryMap.openFile (MemoryMap.construct ⟨bytes, s.manager.file.logicalSize⟩
    s.manager.file.expansion)).bind _ = _
  rw [hopen, Option.bind_some, if_pos (h.headerStart_eq hbytes), ← h.header, h.start_eq hbytes]
  rfl

/-- **A state with the invariant is safe.** -/
theorem Inv.safe (h : s.Inv) : s.Safe where
  apart := (h.packed.scale _ _).apart
  off_buckets e he := by
    have hregion := h.region he
    have hbuckets := h.buckets_le
    exact .inl (by show 0 + itemPosition u s.buckets ≤ e.first; omega)
  off_counter e he := .inl (h.region he).1
  mapped e he := Nat.le_trans (h.region he).2 h.mapped
  logical e he := (h.region he).2
  restarts rest := by
    obtain ⟨bytes, hrestart, hbytes⟩ := h.restart_eq rest
    refine ⟨_, hrestart, rfl, fun e he i hi => ?_⟩
    have hregion := h.region he
    have hfirst := hi.1
    have hstop := hi.2
    exact (hbytes i (by omega)).trans (sync_outside s.manager (.inr (by omega)))

end Inv

/-! ## 3. Every step keeps the invariant -/

section Step

variable {p : Platform} {s : Allocations u}

theorem Inv.allocate (hp : p.Exact) (h : s.Inv) {units : Nat} (hfits : s.Fits (.allocate units)) :
    (s.step p (.allocate units)).Inv := by
  obtain ⟨hcount, hsize⟩ := hfits
  unfold step
  dsimp only
  cases ha : s.manager.newUnits p units with
  | none => exact h
  | some r =>
      obtain ⟨m, first⟩ := r
      obtain ⟨rfl, hheader, hm, hfile⟩ := FileManager.newUnits_within hcount hsize ha
      exact
        { isOpen := hfile.closed
          header := hheader.trans h.header
          stored := (congrArg (fun b => b.readWord 0 4) hfile.bytes).trans h.stored
          packed := by
            show Packed m.count _
            rw [hm]
            exact h.packed.take units
          first_le := by
            show u.first ≤ m.count
            rw [hm]
            exact Nat.le_add_right_of_le h.first_le
          live_first := fun e he => by
            rcases List.mem_cons.mp he with rfl | he
            · exact h.first_le
            · exact h.live_first e he
          count_lt := by
            show m.count < _
            rw [hm]
            exact hcount
          paid := by
            show m.headerSize + u.offset m.count ≤ m.file.logicalSize
            rw [hm, hheader, hfile.logicalSize]
          mapped := by
            show m.file.logicalSize ≤ m.file.fileSize
            rw [hfile.logicalSize]
            exact hfile.size_le hp }

/-- The logical size stays, and pays for what is left. -/
theorem Inv.setCount (h : s.Inv) {value : Nat} (hfits : s.Fits (.setCount value)) :
    (s.step p (.setCount value)).Inv := by
  obtain ⟨hrecords, hvalue⟩ := hfits
  exact
    { isOpen := h.isOpen
      header := h.header
      stored := h.stored
      packed := h.packed.cut value
      first_le := by
        cases u with
        | bytes => exact absurd rfl hrecords
        | records size => exact Nat.zero_le _
      live_first := fun e he => by
        obtain ⟨e', he', -, rfl⟩ := mem_cut.mp he
        exact h.live_first e' he'
      count_lt := Nat.lt_of_le_of_lt hvalue h.count_lt
      paid := Nat.le_trans (Nat.add_le_add_left (Units.offset_le hvalue) _) h.paid
      mapped := h.mapped }

/-- What is written leaves the bucket count alone. -/
theorem Inv.write (h : s.Inv) {address : Nat} {bytes : List UInt8}
    (hfits : s.Fits (.write address bytes)) : (s.step p (.write address bytes)).Inv := by
  have hbehind : 4 ≤ address := by
    obtain ⟨e, he, hfirst, -⟩ := hfits
    rcases List.mem_cons.mp he with rfl | he
    · exact hfirst
    · have hregion := (h.region he).1
      have hfour := u.four_le_width
      omega
  have hstored : (s.manager.file.bytes.write address bytes).readWord 0 4 =
      s.manager.file.bytes.readWord 0 4 := Memory.readWord_write_disjoint _ (.inl hbehind)
  exact { h with stored := hstored.trans h.stored }

theorem Inv.restart (h : s.Inv) (rest : Memory) : (s.step p (.restart rest)).Inv := by
  obtain ⟨bytes, hrestart, hbytes⟩ := h.restart_eq rest
  have hstep : s.step p (.restart rest) = _ := congrArg (Option.getD · s) hrestart
  have hstored : bytes.readWord 0 4 = s.buckets := h.stored_of_synced hbytes
  rw [hstep]
  exact
    { isOpen := rfl
      header := h.header
      stored := hstored
      packed := h.packed
      first_le := h.first_le
      live_first := h.live_first
      count_lt := h.count_lt
      paid := h.paid
      mapped := Nat.le_refl _ }

/-- **Every step whose totals do not run over keeps the invariant.** -/
theorem Inv.step (hp : p.Exact) (h : s.Inv) (op : AllocationOp) (hfits : s.Fits op) :
    (s.step p op).Inv := by
  cases op with
  | allocate units => exact h.allocate hp hfits
  | setCount value => exact h.setCount hfits
  | write address bytes => exact h.write hfits
  | restart rest => exact h.restart rest

end Step

/-! ## 4. Runs from a created file -/

/-- The size of a created file. -/
theorem required_first (f : MemoryMap) {buckets : Nat} (hb : buckets < Memory.limit 4) :
    (FileManager.mk (u := u) f (u.headerSize buckets) u.first).required u.first =
      u.headerSize buckets + u.width := by
  have hlim4 : Memory.limit 4 = 4294967296 := rfl
  have hlim : sizeLimit = 18446744073709551616 := rfl
  have hwidth : u.width ≤ 8 := by
    cases u with
    | bytes => exact Nat.le_refl 8
    | records _ => exact Nat.le_add_right 4 4
  have hmul : u.width * buckets ≤ 8 * buckets := Nat.mul_le_mul_right _ hwidth
  show (u.headerSize buckets + u.offset u.first % sizeLimit) % sizeLimit = _
  have hlt : u.headerSize buckets + u.width < sizeLimit := by
    unfold Units.headerSize
    omega
  rw [u.offset_first, Nat.mod_eq_of_lt (Nat.lt_of_le_of_lt (Nat.le_add_left _ _) hlt),
    Nat.mod_eq_of_lt hlt]

/-- **The header and the manager resize the same file, the manager last.** -/
theorem create_inv {p : Platform} (hp : p.Exact) {f : MemoryMap} {buckets : Nat}
    (hb : buckets < Memory.limit 4) {s : Allocations u} (hc : create p u f buckets = some s) :
    s.Inv := by
  obtain ⟨f₁, -, hc⟩ := Option.bind_eq_some_iff.mp hc
  obtain ⟨f₂, hheader, hc⟩ := Option.bind_eq_some_iff.mp hc
  obtain ⟨m, hm, rfl⟩ := Option.map_eq_some_iff.mp hc
  unfold headerCreate at hheader
  obtain ⟨_, hheader⟩ := Option.ite_none_left_eq_some.mp hheader
  obtain ⟨f₃, -, rfl⟩ := Option.map_eq_some_iff.mp hheader
  unfold FileManager.create at hm
  obtain ⟨_, hm⟩ := Option.ite_none_left_eq_some.mp hm
  obtain ⟨file, hfile, rfl⟩ := Option.map_eq_some_iff.mp hm
  have hreserved := MemoryMap.reserveWith_eq_some hfile
  have hlogical := hreserved.logicalSize
  have hsize := hreserved.size_le hp
  rw [required_first _ hb] at hlogical hsize
  have hfour : 4 ≤ u.headerSize buckets :=
    Nat.le_trans (Nat.le_add_right _ _) (itemPosition_le_headerSize u buckets)
  have hstored : (file.bytes.writeWord (u.headerSize buckets) u.width u.first).readWord 0 4 =
      buckets := by
    rw [Memory.readWord_writeWord_disjoint _ (.inl (by omega)), hreserved.bytes]
    dsimp only
    rw [Memory.readWord_write_disjoint _ (.inl (Nat.le_refl (0 + 4))),
      Memory.readWord_writeWord _ hb]
  exact
    { isOpen := hreserved.closed
      header := rfl
      stored := hstored
      packed := Packed.nil _
      first_le := Nat.le_refl _
      live_first := fun _ he => (nomatch he)
      count_lt := by
        cases u with
        | bytes => exact (by decide : 8 < Memory.limit 8)
        | records _ => exact Memory.limit_pos 4
      paid := by
        show u.headerSize buckets + u.offset u.first ≤ file.logicalSize
        rw [u.offset_first, hlogical]
      mapped := by
        show file.logicalSize ≤ file.fileSize
        rw [hlogical]
        exact hsize }

/-- **Every state of a run whose totals do not run over is safe**: what is handed out and not given
    back is apart, mapped and below what `close` leaves, and a restart keeps the count and the bytes
    in use. -/
theorem allocations_safe {p : Platform} (hp : p.Exact) {f : MemoryMap} {buckets : Nat}
    (hb : buckets < Memory.limit 4) {s : Allocations u} (hc : create p u f buckets = some s)
    {ops : List AllocationOp} (hfits : EveryStep (step p) Fits s ops) :
    Always (step p) Safe s ops := by
  have hinv := always_of_step (P := Inv) (fun _ op h hfits => h.step hp op hfits)
    (create_inv hp hb hc) hfits
  exact always_iff_prefix.mpr fun xs ys he => ( always_iff_prefix.mp hinv xs ys he).safe

/-- An opened file of one byte. -/
def sampleFile : MemoryMap := ⟨fun _ => 0, 1, 1, false, 50⟩

/-- Records are handed out and given back, one is written and the file is closed between. -/
def sampleOps : List AllocationOp :=
  [.allocate 5, .write 60 [1, 2, 3], .setCount 2, .restart fun _ => 7, .allocate 1, .allocate 3]

theorem sampleOps_safe : ∃ s, create .exact (.records 10) sampleFile 3 = some s ∧
    Always (step .exact) Safe s sampleOps := by
  have hrun : ((create .exact (.records 10) sampleFile 3).bind fun s =>
      if EveryStep (step .exact) Fits s sampleOps then some s else none).isSome = true := by
    decide +kernel
  obtain ⟨_, hrun⟩ := Option.isSome_iff_exists.mp hrun
  obtain ⟨s, hc, hrun⟩ := Option.bind_eq_some_iff.mp hrun
  obtain ⟨hfits, _⟩ := Option.ite_none_right_eq_some.mp hrun
  exact ⟨s, hc, allocations_safe Platform.exact_exact (by decide) hc hfits⟩

end Allocations

/-! ## 5. The table file -/

/-- The units a table's manager counts. -/
def Manager.units (keySize : Nat) : Manager → Units
  | slab => .bytes
  | record valueSize => .records (keySize + 4 + valueSize)

namespace Allocations

variable {m : Manager} {keySize : Nat}

theorem units_width (m : Manager) (keySize : Nat) : (m.units keySize).width = m.width := by
  cases m <;> rfl

theorem units_first (m : Manager) (keySize : Nat) : (m.units keySize).first = m.first := by
  cases m <;> rfl

theorem units_headerSize (m : Manager) (keySize buckets : Nat) :
    (m.units keySize).headerSize buckets = m.headerSize buckets := by
  cases m <;> rfl

theorem units_offset (m : Manager) (keySize item : Nat) :
    (m.units keySize).offset item = m.position keySize item := by
  cases m with
  | slab => exact (Nat.zero_add _).trans (Nat.mul_one item)
  | record _ => rfl

theorem units_itemPosition (m : Manager) (keySize index : Nat) :
    itemPosition (m.units keySize) index = TableFile.itemPosition m index := by
  cases m <;> rfl

/-- The table file. -/
def toTableFile (s : Allocations (m.units keySize)) : TableFile m keySize :=
  ⟨s.manager.file.mappedSize, s.buckets, s.manager.headerSize, s.manager.file.bytes, s.manager.count⟩

/-- **An item is granted here exactly where the table file grants it**, and the same one. -/
theorem newItem_eq_newUnits {p : Platform} (hp : p.Exact) {s : Allocations (m.units keySize)}
    (hopen : s.manager.file.closed = false) (valueSize : Nat) :
    s.toTableFile.newItem (p.toDisk hp s.manager.file.expansion) valueSize =
      (s.manager.newUnits p (m.extent keySize valueSize)).map fun r =>
        (toTableFile ⟨s.buckets, r.1, s.live⟩, r.2) := by
  have hsize : s.manager.required ((s.manager.count + m.extent keySize valueSize) %
        Memory.limit (m.units keySize).width) =
      (s.manager.headerSize + m.position keySize ((s.manager.count + m.extent keySize valueSize) %
        Memory.limit m.width)) % sizeLimit := by
    unfold FileManager.required Units.position
    rw [units_width, units_offset, Nat.add_mod_mod]
  rw [FileManager.newUnits_eq]
  unfold FileManager.allocate TableFile.newItem
  dsimp only
  rw [hsize, MemoryMap.reserve_eq hp hopen, Option.map_map, Option.map_map, units_width]
  rfl

/-- The header in what is mapped already. -/
theorem headerCreate_within {p : Platform} {f : MemoryMap} (hopen : f.closed = false)
    {buckets : Nat} (hpos : buckets ≠ 0) (hn : TableFile.itemPosition m buckets ≤ f.fileSize) :
    headerCreate p (m.units keySize) f buckets = some { f with
      logicalSize := TableFile.itemPosition m buckets
      bytes := (f.bytes.writeWord 0 4 buckets).write 4 (List.replicate (buckets * m.width) 255) } := by
  unfold headerCreate
  rw [if_neg hpos, units_itemPosition, MemoryMap.resize_of_le hopen hn, units_width]
  rfl

/-- The manager in what is mapped already. -/
theorem managerCreate_within {p : Platform} {f : MemoryMap} (hopen : f.closed = false)
    {buckets : Nat} (hb : buckets < Memory.limit 4) (hn : m.headerSize buckets + m.width ≤ f.fileSize) :
    (FileManager.mk (u := m.units keySize) f (m.headerSize buckets) (m.units keySize).first).create p =
      some (FileManager.mk { f with logicalSize := m.headerSize buckets + m.width }
        (m.headerSize buckets) (m.units keySize).first).sync := by
  have hrequired := required_first (u := m.units keySize) f hb
  rw [units_headerSize, units_width] at hrequired
  unfold FileManager.create
  dsimp only
  rw [if_neg fun h => h rfl, hrequired, MemoryMap.resize_of_le hopen hn]
  rfl

/-- **A file of one byte is created here exactly where it is created as a table file.** -/
theorem tableFile_create {p : Platform} (hp : p.Exact) {f : MemoryMap} (hopen : f.closed = false)
    (hone : f.mappedSize = ⟨1, 1⟩) {buckets : Nat} (hb : buckets < Memory.limit 4) :
    TableFile.create m keySize (p.toDisk hp f.expansion) buckets f.bytes =
      (create p (m.units keySize) f buckets).map toTableFile := by
  have hfirst : m.position keySize m.first = m.width := by
    rw [← units_offset, ← units_first m keySize, Units.offset_first, units_width]
  have hfour : 4 ≤ m.width := by
    rw [← units_width m keySize]
    exact (m.units keySize).four_le_width
  have hitem : TableFile.itemPosition m buckets < m.headerSize buckets + m.width := by
    rw [← units_itemPosition m keySize, ← units_headerSize m keySize]
    have := itemPosition_le_headerSize (m.units keySize) buckets
    omega
  have hone' : (1 : Nat) < TableFile.itemPosition m buckets :=
    Nat.lt_of_lt_of_le (by decide) (Nat.le_add_right 4 _)
  have hresize := MemoryMap.resize_eq hp hopen f.expansion (m.headerSize buckets + m.width)
  rw [hone, Disk.resize_of_lt (Nat.lt_trans hone' hitem)] at hresize
  unfold TableFile.create create
  dsimp only
  rw [hfirst, units_headerSize, units_width, hresize]
  by_cases hpos : buckets = 0
  · rw [if_pos hpos]
    unfold headerCreate
    simp only [if_pos hpos, Option.bind_none, Option.bind_fun_none, Option.map_none]
  rw [if_neg hpos, Disk.resize_of_lt hone']
  by_cases hd : m.headerSize buckets + m.width ≤ (p.toDisk hp f.expansion).size
  · -- the file is mapped as a whole from the first call on
    rw [if_pos hd, if_pos (Nat.le_trans (Nat.le_of_lt hitem) hd), Option.map_some, Option.bind_some,
      Option.bind_some, Disk.resize_of_lt hitem, if_pos hd, Option.map_some]
    rw [headerCreate_within (f := f.withSize _) hopen hpos (Nat.le_of_lt hitem), Option.bind_some]
    rw [managerCreate_within ?_ hb ?_, Option.map_some, Option.map_some]
    · unfold toTableFile TableFile.sync FileManager.sync
      dsimp only
      rw [units_width, units_first]
      rfl
    · exact hopen
    · exact Nat.le_refl _
  · rw [if_neg hd, Option.map_none, Option.bind_none, Option.map_none]
    split
    · rw [Option.bind_some, Disk.resize_of_lt hitem, if_neg hd, Option.map_none]
    · rfl

/-- **A file that starts again here starts again as a table file.** -/
theorem tableFile_start {s s' : Allocations (m.units keySize)} {rest : Memory}
    (hr : s.restart rest = some s') :
    TableFile.start m keySize ⟨s'.manager.file.bytes, s.toTableFile.sync.close.size⟩ s.buckets =
      some s'.toTableFile := by
  obtain ⟨f, hopen, hr⟩ := Option.bind_eq_some_iff.mp hr
  obtain ⟨hheader, hr⟩ := Option.ite_none_right_eq_some.mp hr
  obtain ⟨m', hstart, rfl⟩ := Option.map_eq_some_iff.mp hr
  unfold MemoryMap.openFile at hopen
  obtain ⟨_, hopen⟩ := Option.ite_none_left_eq_some.mp hopen
  obtain ⟨_, hopen⟩ := Option.ite_none_left_eq_some.mp hopen
  cases hopen
  unfold FileManager.start at hstart
  obtain ⟨hminimum, hstart⟩ := Option.ite_none_right_eq_some.mp hstart
  cases hstart
  unfold headerStart at hheader
  rw [units_itemPosition] at hheader
  unfold FileManager.required Units.position at hminimum
  rw [units_offset, Nat.add_mod_mod, units_headerSize, units_width] at hminimum
  unfold TableFile.start TableFile.headerStart toTableFile
  dsimp only
  rw [units_headerSize, units_width]
  exact if_pos ⟨hheader, hminimum⟩

end Allocations

end Libbitcoin.Database
