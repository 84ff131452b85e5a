/-
  File:      BitprimDatabase/Primitives/AddRowsFile.lean
  Subject:   **CONCURRENT CALLS OF `add_row` ON THE BYTES OF THE TWO FILES** (record_multimap.ipp,
             record_list.cpp, record_hash_table.ipp, record_manager.cpp): the calls of AddRows.lean
             with the counts and the indexes as the code has them, four bytes wide, where
             2^32-1 is the end of every list.

  * `step` -- the next step of one call on the files, `none` where it throws; `Publishes` -- a write
    finds what its call has read; `Kept` -- what `lookup` and iterating yield in the end;
  * `Room` -- every call that has still to allocate finds a number below the sentinel;
  * `Simulates`, `Simulates.step` -- the files hold the state of AddRows.lean, and every step that
    does not throw is its step;
  * **`kept_iff_publishes`**: as long as the counts do not come to the sentinel, no row is lost
    exactly where every write finds what its call has read.

  NOT here: the remaps of the two files (MappedRows.lean); a call holds the address it has found
  as the position of the item. The allocation of an item and its locked link are one step.
-/
import Mathlib.Data.Fintype.Card
import BitprimDatabase.Primitives.AddRows
import BitprimDatabase.Primitives.MultimapFile
import BitprimDatabase.Primitives.TableImage

namespace Libbitcoin.Database

open Lib

/-! ## 1. The machine -/

/-- The two files, and the stages of `n` calls. -/
structure AddRowsFile (keySize recordSize n : Nat) where
  files : MultimapFile keySize recordSize
  stage : Fin n → Stage

namespace AddRowsFile

variable {keySize recordSize n : Nat}

/-- The calls before their first step. -/
def start (files : MultimapFile keySize recordSize) : AddRowsFile keySize recordSize n :=
  ⟨files, fun _ => .find⟩

/-- A call goes on to another stage. -/
def goto (s : AddRowsFile keySize recordSize n) (i : Fin n) (stage : Stage) :
    AddRowsFile keySize recordSize n := { s with stage := Function.update s.stage i stage }

/-- The files behind a step of a call. -/
def write (s : AddRowsFile keySize recordSize n) (i : Fin n)
    (files : MultimapFile keySize recordSize) (stage : Stage) :
    AddRowsFile keySize recordSize n := ⟨files, Function.update s.stage i stage⟩

/-- All calls have returned. -/
def Returned (s : AddRowsFile keySize recordSize n) : Prop :=
  ∀ i, ∃ record, s.stage i = .done record

variable (hash : Key keySize → Nat) (disk : Disk) (calls : Fin n → Key keySize × List UInt8)

/-- The next step of a call, `none` where it throws. -/
def step (s : AddRowsFile keySize recordSize n) (i : Fin n) :
    Option (AddRowsFile keySize recordSize n) :=
  let f := s.files
  match s.stage i with
  | .find => (f.findStart hash (calls i).1).map fun startInfo =>
      match startInfo with
      | none => s.goto i .create
      | some item => s.goto i (.readBegin item)
  | .readBegin item => some (s.goto i (.insert item (f.readBegin item)))
  | .insert item oldBegin => (f.records.insert disk oldBegin).map fun (records, newBegin) =>
      s.write i ⟨f.map, records.writeRow newBegin (calls i).2⟩ (.writeBegin item newBegin)
  | .writeBegin item newBegin =>
      some (s.write i ⟨f.writeBegin item newBegin, f.records⟩ (.done newBegin))
  | .create => (f.records.create disk).map fun (records, first) =>
      s.write i ⟨f.map, records.writeRow first (calls i).2⟩ (.store first)
  | .store first => (f.map.store hash disk (calls i).1 (Memory.toLE 4 first)).map fun (map, _) =>
      s.write i ⟨map, f.records⟩ (.done first)
  | .done _ => some s

/-- A write of a call finds the item and the first record in front of which the new one was
    inserted; a link of a new item finds no item. -/
def Finds (f : MultimapFile keySize recordSize) (key : Key keySize) : Stage → Prop
  | .writeBegin item newBegin => f.findStart hash key = some (some item) ∧
      f.readBegin item = f.records.next newBegin
  | .store _ => f.findStart hash key = some none
  | _ => True

instance (f : MultimapFile keySize recordSize) (key : Key keySize) :
    (stage : Stage) → Decidable (Finds hash f key stage)
  | .writeBegin _ _ => inferInstanceAs (Decidable (_ ∧ _))
  | .store _ => inferInstanceAs (Decidable (_ = _))
  | .find => .isTrue True.intro
  | .readBegin _ => .isTrue True.intro
  | .insert _ _ => .isTrue True.intro
  | .create => .isTrue True.intro
  | .done _ => .isTrue True.intro

/-- **A write finds what its call has read.** -/
def Publishes (s : AddRowsFile keySize recordSize n) (i : Fin n) : Prop :=
  Finds hash s.files (calls i).1 (s.stage i)

instance (s : AddRowsFile keySize recordSize n) (i : Fin n) :
    Decidable (Publishes hash calls s i) :=
  inferInstanceAs (Decidable (Finds hash s.files (calls i).1 (s.stage i)))

/-- **No row lost and none duplicated**: iterating from `lookup` yields, for every key, the rows it
    yielded before and one for each of its calls. -/
def Kept (valueSize : Nat) (f : MultimapFile keySize recordSize)
    (s : AddRowsFile keySize recordSize n) : Prop :=
  ∀ key, ∃ before after, f.rows hash valueSize key = some before ∧
    s.files.rows hash valueSize key = some after ∧ after.Perm
      ((((List.finRange n).filter fun i => (calls i).1 = key).map fun i => (calls i).2) ++ before)

end AddRowsFile

/-! ## 2. Room in the counts -/

namespace Stage

variable {n : Nat} {P : Stage → Prop} [DecidablePred P] {stage : Fin n → Stage} {i : Fin n}
  {next : Stage}

/-- The calls whose stage meets a condition. -/
def waiting (P : Stage → Prop) [DecidablePred P] (stage : Fin n → Stage) : Nat :=
  (Finset.univ.filter fun i => P (stage i)).card

theorem waiting_pos (h : P (stage i)) : 0 < waiting P stage :=
  Finset.card_pos.mpr ⟨i, Finset.mem_filter.mpr ⟨Finset.mem_univ i, h⟩⟩

theorem waiting_le (P : Stage → Prop) [DecidablePred P] (stage : Fin n → Stage) :
    waiting P stage ≤ n :=
  (Finset.card_filter_le ..).trans (Nat.le_of_eq (Finset.card_fin n))

/-- A call that goes on within the condition, or outside it. -/
theorem waiting_same (h : P next ↔ P (stage i)) :
    waiting P (Function.update stage i next) = waiting P stage := by
  refine congrArg Finset.card (Finset.filter_congr fun j _ => ?_)
  by_cases hj : j = i
  · subst hj
    rw [Function.update_self]
    exact h
  · rw [Function.update_of_ne hj]

/-- A call that leaves the condition. -/
theorem waiting_succ (h : P (stage i)) (h' : ¬ P next) :
    waiting P (Function.update stage i next) + 1 = waiting P stage := by
  have herase : (Finset.univ.filter fun j => P (Function.update stage i next j)) =
      (Finset.univ.filter fun j => P (stage j)).erase i := by
    ext j
    rw [Finset.mem_erase, Finset.mem_filter, Finset.mem_filter]
    by_cases hj : j = i
    · subst hj
      simp [h']
    · simp [hj]
  have hmem : i ∈ Finset.univ.filter fun j => P (stage j) :=
    Finset.mem_filter.mpr ⟨Finset.mem_univ i, h⟩
  unfold waiting
  rw [herase, Finset.card_erase_add_one hmem]

end Stage

namespace AddRows

variable {K R : Type} [DecidableEq K] {n : Nat} (calls : Fin n → K × R) {s : AddRows K R n}

/-- **Every call under way finds a number below the sentinel**: those that have still to insert
    their record, and those that have still to publish it. -/
structure Room (s : AddRows K R n) : Prop where
  records : s.records.count + Stage.waiting (fun stage => stage.own = none) s.stage ≤ maxUint32
  items : s.map.free + Stage.waiting (fun stage => stage.result = none) s.stage ≤ maxUint32

theorem Room.start {m : RecordMultimap K R} (hrecords : m.records.count + n ≤ maxUint32)
    (hitems : m.map.free + n ≤ maxUint32) : Room (start m : AddRows K R n) where
  records := Nat.le_trans (Nat.add_le_add_left (Stage.waiting_le ..) _) hrecords
  items := Nat.le_trans (Nat.add_le_add_left (Stage.waiting_le ..) _) hitems

/-- A step moves one call. -/
theorem step_stage (s : AddRows K R n) (i : Fin n) :
    (step calls s i).stage = Function.update s.stage i ((step calls s i).stage i) := by
  funext j
  by_cases hj : j = i
  · subst hj
    rw [Function.update_self]
  · rw [Function.update_of_ne hj, step_stage_ne calls s hj]

/-- **A call takes one number of each count at most.** -/
theorem Room.step (h : Room s) (i : Fin n) : Room (AddRows.step calls s i) := by
  have he := step_effect calls s i
  have hstage := step_stage calls s i
  obtain ⟨hrecords, hitems⟩ := h
  generalize AddRows.step calls s i = s' at he hstage ⊢
  -- the stages a call goes through without a number, with one, and with the other
  have hsame (P : Stage → Prop) [DecidablePred P] (hP : P (s'.stage i) ↔ P (s.stage i)) :
      Stage.waiting P s'.stage = Stage.waiting P s.stage := by
    rw [hstage, Stage.waiting_same hP]
  have hsucc (P : Stage → Prop) [DecidablePred P] (hP : P (s.stage i)) (hP' : ¬ P (s'.stage i)) :
      Stage.waiting P s'.stage + 1 = Stage.waiting P s.stage := by
    rw [hstage, Stage.waiting_succ hP hP']
  have hquiet (hm : s'.map = s.map) (hr : s'.records = s.records)
      (ho : (s'.stage i).own = none ↔ (s.stage i).own = none)
      (hp : (s'.stage i).result = none ↔ (s.stage i).result = none) : Room s' :=
    ⟨by rwa [hr, hsame (fun stage => stage.own = none) ho],
      by rwa [hm, hsame (fun stage => stage.result = none) hp]⟩
  cases he with
  | missing hs _ hm hr hs' =>
      exact hquiet hm hr (by rw [hs, hs']; exact Iff.rfl) (by rw [hs, hs']; exact Iff.rfl)
  | found p hs _ hm hr hs' =>
      exact hquiet hm hr (by rw [hs, hs']; exact Iff.rfl) (by rw [hs, hs']; exact Iff.rfl)
  | read p item hs _ hm hr hs' =>
      exact hquiet hm hr (by rw [hs, hs']; exact Iff.rfl) (by rw [hs, hs']; exact Iff.rfl)
  | inserted p old hs hm hr hs' =>
      obtain ⟨_, hr⟩ := hr
      have h₁ := hsucc (fun stage => stage.own = none) (by rw [hs]; rfl)
        (by rw [hs']; exact Option.some_ne_none _)
      have h₂ := hsame (fun stage => stage.result = none) (by rw [hs, hs']; exact Iff.rfl)
      refine ⟨?_, by rwa [hm, h₂]⟩
      rw [hr]
      show s.records.count + 1 + _ ≤ _
      omega
  | written p new hs hm hr hs' =>
      have h₁ := hsame (fun stage => stage.own = none) (by rw [hs, hs']; exact Iff.rfl)
      have h₂ := hsucc (fun stage => stage.result = none) (by rw [hs]; rfl)
        (by rw [hs']; exact Option.some_ne_none _)
      refine ⟨by rwa [hr, h₁], ?_⟩
      rw [hm]
      show s.map.free + _ ≤ _
      omega
  | created hs hm hr hs' =>
      obtain ⟨_, hr⟩ := hr
      have h₁ := hsucc (fun stage => stage.own = none) (by rw [hs]; rfl)
        (by rw [hs']; exact Option.some_ne_none _)
      have h₂ := hsame (fun stage => stage.result = none) (by rw [hs, hs']; exact Iff.rfl)
      refine ⟨?_, by rwa [hm, h₂]⟩
      rw [hr]
      show s.records.count + 1 + _ ≤ _
      omega
  | stored first hs hm hr hs' =>
      have h₁ := hsame (fun stage => stage.own = none) (by rw [hs, hs']; exact Iff.rfl)
      have h₂ := hsucc (fun stage => stage.result = none) (by rw [hs]; rfl)
        (by rw [hs']; exact Option.some_ne_none _)
      refine ⟨by rwa [hr, h₁], ?_⟩
      rw [hm]
      show s.map.free + 1 + _ ≤ _
      omega
  | stays he _ => exact he ▸ ⟨hrecords, hitems⟩

end AddRows

/-! ## 3. The files hold the state -/

/-- The table without the items that were unlinked is in the file as well. -/
theorem TableFile.Rep.linked {m : Manager} {keySize : Nat} {hash : Key keySize → Nat}
    {f : TableFile m keySize} {t : HashTable (Key keySize) (List UInt8)} (h : TableFile.Rep hash f t) :
    TableFile.Rep hash f t.linked :=
  { h with
    key := fun p r hr => h.key p r (HashTable.linked_row.mp hr).1
    next := fun p r hr => h.next p r (HashTable.linked_row.mp hr).1
    value := fun p r hr => h.value p r (HashTable.linked_row.mp hr).1
    row_first := fun p r hr => h.row_first p r (HashTable.linked_row.mp hr).1
    row_lt := fun p r hr => h.row_lt p r (HashTable.linked_row.mp hr).1
    apart := fun p r q hr hlt hq => h.apart p r q (HashTable.linked_row.mp hr).1 hlt (hq.imp_right
      fun hq => by
        obtain ⟨r', hr'⟩ := Option.isSome_iff_exists.mp hq
        rw [(HashTable.linked_row.mp hr').1]
        rfl) }

theorem RecordMultimap.mem_stack_lt {K R : Type} [DecidableEq K] (m : RecordMultimap K R) {key : K}
    {begin : Nat} (h : begin ∈ m.map.stack key) : begin < m.records.count := by
  cases hl : m.lookup key with
  | none =>
      rw [m.stack_of_lookup_none hl] at h
      cases h
  | some first =>
      rw [m.stack_of_lookup_some hl, List.mem_singleton] at h
      exact h ▸ m.lookup_lt hl

namespace AddRowsFile

variable {keySize recordSize n : Nat}

/-- **The files hold the table and the records**, at the same positions; the rows have one size. -/
structure Holds (hash : Key keySize → Nat) (disk : Disk) (valueSize : Nat)
    (f : MultimapFile keySize recordSize) (s : AddRows (Key keySize) (List UInt8) n) : Prop where
  map : TableFile.Rep hash f.map (s.map.toHashTable.mapValues (Memory.toLE 4))
  fits : disk.Fits f.map.toMappedSize
  records : f.records.Rep disk s.records
  size : ∀ i next row, s.records.record i = some (next, row) → row.length = valueSize

variable {hash : Key keySize → Nat} {disk : Disk} {valueSize : Nat} {f : MultimapFile keySize recordSize}
  {s : AddRows (Key keySize) (List UInt8) n}

theorem Holds.findStart (h : Holds hash disk valueSize f s) (key : Key keySize) :
    f.findStart hash key = some (s.map.find key) := by
  unfold MultimapFile.findStart
  rw [h.map.find_eq (s.map.wf.mapValues _) key (Nat.lt_succ_self _), s.map.wf.mapValues_find]

theorem Holds.record_lt (h : Holds hash disk valueSize f s) {j : Nat} (hj : j < s.records.count) :
    j < Memory.limit 4 := by
  have := h.records.count_eq
  have := h.records.count_le
  show j < maxUint32 + 1
  omega

theorem Holds.readBegin (h : Holds hash disk valueSize f s) {p : Nat} {item : Row (Key keySize) Nat}
    (hr : s.map.row p = some item) : f.readBegin p = item.value := by
  have hvalue : f.map.bytes.Holds (f.map.data p) (Memory.toLE 4 item.value) :=
    h.map.value p _ (HashTable.mapValues_row hr)
  exact hvalue.word (h.record_lt (s.value_lt p item hr))

/-- **`lookup` and iterating on the files yield the rows of the state.** -/
theorem Holds.rows (h : Holds hash disk valueSize f s) (key : Key keySize) :
    f.rows hash valueSize key = some (s.rows key) := by
  have hlookup : f.lookup hash key = some (RecordListFile.encode (s.map.get key)) := by
    unfold MultimapFile.lookup
    rw [h.findStart]
    cases hf : s.map.find key with
    | none =>
        rw [AddRows.get_of_find_none hf]
        rfl
    | some p =>
        obtain ⟨_, _, item, _, hr, _⟩ := s.map.wf.find_some hf
        rw [AddRows.get_of_find hf hr]
        exact congrArg some (h.readBegin hr)
  unfold MultimapFile.rows
  rw [hlookup, Option.bind_some, h.records.valuesFrom_eq h.size (s.get_lt key) (Nat.succ_pos _)
    fun i hi => ?_]
  · rfl
  · have := s.get_lt key i hi
    have := h.records.count_eq
    omega

/-- **Files that hold a multimap hold the start of the calls**, over the items that are linked. -/
theorem exists_start {m : RecordMultimap (Key keySize) (List UInt8)} (hf : f.Rep hash disk m)
    (hrows : ∀ i next row, m.records.record i = some (next, row) → row.length = valueSize) :
    ∃ m' : RecordMultimap (Key keySize) (List UInt8), m'.rows = m.rows ∧
      m'.records.count = f.records.count ∧ m'.map.free = f.map.count ∧
      Holds hash disk valueSize f (AddRows.start m' : AddRows _ _ n) := by
  obtain ⟨t, values, hh, hcodes⟩ := hf.map
  have hvalues : ∀ key, values key = (m.map.stack key).map (Memory.toLE 4) := hcodes
  have hlimit {begin : Nat} (hb : begin < m.records.count) : begin < Memory.limit 4 := by
    have := hf.records.count_eq
    have := hf.records.count_le
    show begin < maxUint32 + 1
    omega
  -- what a linked item holds is the first record of its key
  have hitem {p : Nat} {r : Row (Key keySize) (List UInt8)} (hr : t.linked.row p = some r) :
      ∃ begin < m.records.count, r.value = Memory.toLE 4 begin := by
    have hmem := HashTable.linked_mem_stack hr
    rw [hh.stack_eq, hvalues] at hmem
    obtain ⟨begin, hb, he⟩ := List.mem_map.mp hmem
    exact ⟨begin, m.mem_stack_lt hb, he.symm⟩
  have hstack (key : Key keySize) :
      (t.linked.mapValues Memory.ofLE).stack key = m.map.stack key := by
    rw [HashTable.mapValues_stack, hh.wf.linked_stack_eq, hh.stack_eq, hvalues, List.map_map]
    refine (List.map_congr_left fun begin hb => ?_).trans (List.map_id _)
    exact Memory.ofLE_toLE (hlimit (m.mem_stack_lt hb))
  let m' : RecordMultimap (Key keySize) (List UInt8) :=
    { map := ⟨t.linked.mapValues Memory.ofLE, hh.wf.linked.mapValues _⟩
      records := m.records
      value_lt := fun p item hr => by
        obtain ⟨r, hr₀, rfl⟩ := HashTable.row_of_mapValues hr
        obtain ⟨begin, hb, he⟩ := hitem hr₀
        show Memory.ofLE r.value < _
        rw [he, Memory.ofLE_toLE (hlimit hb)]
        exact hb
      one_begin := fun key => Nat.le_trans (Nat.le_of_eq (congrArg List.length (hstack key)))
        (m.one_begin key) }
  have himage : (t.linked.mapValues Memory.ofLE).mapValues (Memory.toLE 4) = t.linked := by
    have hrow (p : Nat) :
        ((t.linked.mapValues Memory.ofLE).mapValues (Memory.toLE 4)).row p = t.linked.row p := by
      show ((t.linked.row p).map _).map _ = _
      cases hr : t.linked.row p with
      | none => rfl
      | some r =>
          obtain ⟨begin, hb, he⟩ := hitem hr
          simp only [Option.map_some]
          rw [he, Memory.ofLE_toLE (hlimit hb), ← he]
    exact congrArg (fun row => HashTable.mk _ _ _ row _) (funext hrow)
  refine ⟨m', ?_, hf.records.count_eq, hh.rep.free_eq, ?_, hh.fits, hf.records, hrows⟩
  · funext key
    have hlookup : m'.lookup key = m.lookup key := by
      show m'.map.get key = m.map.get key
      rw [Table.get_eq, Table.get_eq]
      exact congrArg List.head? (hstack key)
    show m.records.rows (m'.lookup key) = m.records.rows (m.lookup key)
    rw [hlookup]
  · show TableFile.Rep hash f.map ((t.linked.mapValues Memory.ofLE).mapValues (Memory.toLE 4))
    rw [himage]
    exact hh.rep.linked

/-! ## 4. Every step on the files is a step of the state -/

variable {calls : Fin n → Key keySize × List UInt8}
  {m : RecordMultimap (Key keySize) (List UInt8)} {t t' : AddRowsFile keySize recordSize n}

/-- **The calls on the files stand where the calls on the state stand.** -/
structure Simulates (hash : Key keySize → Nat) (disk : Disk) (valueSize : Nat)
    (calls : Fin n → Key keySize × List UInt8) (m : RecordMultimap (Key keySize) (List UInt8))
    (t : AddRowsFile keySize recordSize n) (s : AddRows (Key keySize) (List UInt8) n) : Prop where
  stage_eq : t.stage = s.stage
  holds : Holds hash disk valueSize t.files s
  inv : AddRows.Inv calls m s
  room : s.Room

/-- A value written for a call. -/
theorem Simulates.insert (h : Simulates hash disk valueSize calls m t s) (hd : disk.size ≤ maxObject)
    (hsize : recordSize ≤ maxObject) (hvalue : 4 + valueSize ≤ recordSize)
    (hcalls : ∀ i, (calls i).2.length = valueSize) {i : Fin n} (hs : (s.stage i).own = none)
    (index : Option Nat) (hi : ∀ j, index = some j → j < s.records.count)
    {records : RecordListFile recordSize} {record : Nat}
    (hc : t.files.records.insert disk (RecordListFile.encode index) = some (records, record)) :
    record = s.records.count ∧
      (records.writeRow record (calls i).2).Rep disk (s.records.insert index (calls i).2 hi).1 ∧
      ∀ j next row, (s.records.insert index (calls i).2 hi).1.record j = some (next, row) →
        row.length = valueSize := by
  have hroom : t.files.records.count < maxUint32 := by
    have := h.holds.records.count_eq
    have := h.room.records
    have := Stage.waiting_pos (P := fun stage => stage.own = none) hs
    omega
  have hlen : 4 + (calls i).2.length ≤ recordSize := by
    rw [hcalls]
    exact hvalue
  obtain ⟨hnew, _, hrep⟩ := h.holds.records.insert hd hsize hroom index hi hlen hc
  refine ⟨hnew, hrep, fun j next row hj => ?_⟩
  by_cases hjn : j = s.records.count
  · rw [hjn, RecordList.insert_record_new] at hj
    cases hj
    exact hcalls i
  · exact h.holds.size j next row ((Function.update_of_ne hjn ..).symm.trans hj)

/-- **A step that does not throw is a step of the state.** -/
theorem Simulates.step (h : Simulates hash disk valueSize calls m t s) (hd : disk.size ≤ maxObject)
    (hsize : recordSize ≤ maxObject) (hkey : keySize + 8 ≤ maxObject)
    (hvalue : 4 + valueSize ≤ recordSize) (hcalls : ∀ i, (calls i).2.length = valueSize) {i : Fin n}
    (hc : step hash disk calls t i = some t') :
    Simulates hash disk valueSize calls m t' (AddRows.step calls s i) := by
  have hinv := h.inv.step calls i
  have hroom := h.room.step calls i
  have he := AddRows.step_effect calls s i
  have hstage := AddRows.step_stage calls s i
  generalize AddRows.step calls s i = s' at hinv hroom he hstage ⊢
  have hgo (stage : Stage) (hs' : s'.stage i = stage) :
      Function.update t.stage i stage = s'.stage := by
    rw [hstage, hs', h.stage_eq]
  have hat {stage : Stage} (hs : s.stage i = stage) : t.stage i = stage := by
    rw [h.stage_eq, hs]
  -- a step that leaves the files
  have hkeep (hm : s'.map = s.map) (hr : s'.records = s.records) :
      Holds hash disk valueSize t.files s' :=
    ⟨hm ▸ h.holds.map, h.holds.fits, hr ▸ h.holds.records, hr ▸ h.holds.size⟩
  unfold AddRowsFile.step at hc
  cases he with
  | missing hs hf hm hr hs' =>
      rw [hat hs] at hc
      simp only [h.holds.findStart, hf, Option.map_some, Option.some.injEq] at hc
      subst hc
      exact ⟨hgo _ hs', hkeep hm hr, hinv, hroom⟩
  | found p hs hf hm hr hs' =>
      rw [hat hs] at hc
      simp only [h.holds.findStart, hf, Option.map_some, Option.some.injEq] at hc
      subst hc
      exact ⟨hgo _ hs', hkeep hm hr, hinv, hroom⟩
  | read p item hs hi hm hr hs' =>
      rw [hat hs] at hc
      simp only [h.holds.readBegin hi, Option.some.injEq] at hc
      subst hc
      exact ⟨hgo _ hs', hkeep hm hr, hinv, hroom⟩
  | inserted p old hs hm hr hs' =>
      obtain ⟨hlt, hr⟩ := hr
      rw [hat hs] at hc
      obtain ⟨⟨records, newBegin⟩, hins, rfl⟩ := Option.map_eq_some_iff.mp hc
      obtain ⟨rfl, hrep, hrows⟩ := h.insert hd hsize hvalue hcalls (i := i) (by rw [hs]; rfl)
        (some old) hlt hins
      exact ⟨hgo _ hs', ⟨hm ▸ h.holds.map, h.holds.fits, hr ▸ hrep, hr ▸ hrows⟩, hinv, hroom⟩
  | written p new hs hm hr hs' =>
      rw [hat hs] at hc
      cases hc
      obtain ⟨item, hitem, _⟩ := h.inv.item_known _ p (.inr ⟨i, rfl, by rw [hs]; rfl⟩)
      have hrep : TableFile.Rep hash
          (t.files.map.writeData p (Memory.toLE 4 item.value).length fun _ => Memory.toLE 4 new)
          ((s.map.toHashTable.mapValues (Memory.toLE 4)).writeValue p fun _ => Memory.toLE 4 new) :=
        h.holds.map.writeData (HashTable.mapValues_row hitem) (by simp)
      rw [← HashTable.mapValues_writeValue, Memory.length_toLE] at hrep
      exact ⟨hgo _ hs', ⟨hm ▸ hrep, h.holds.fits, hr ▸ h.holds.records, hr ▸ h.holds.size⟩,
        hinv, hroom⟩
  | created hs hm hr hs' =>
      obtain ⟨hlt, hr⟩ := hr
      rw [hat hs] at hc
      obtain ⟨⟨records, first⟩, hins, rfl⟩ := Option.map_eq_some_iff.mp hc
      obtain ⟨rfl, hrep, hrows⟩ := h.insert hd hsize hvalue hcalls (i := i) (by rw [hs]; rfl)
        none hlt hins
      exact ⟨hgo _ hs', ⟨hm ▸ h.holds.map, h.holds.fits, hr ▸ hrep, hr ▸ hrows⟩, hinv, hroom⟩
  | stored first hs hm hr hs' =>
      rw [hat hs] at hc
      obtain ⟨⟨map, off⟩, hstore, rfl⟩ := Option.map_eq_some_iff.mp hc
      have hcount : t.files.map.count + 1 < Memory.limit 4 := by
        have hfree : s.map.free = t.files.map.count := h.holds.map.free_eq
        have := h.room.items
        have : 0 < Stage.waiting (fun stage => stage.result = none) s.stage :=
          Stage.waiting_pos (i := i) (by rw [hs]; rfl)
        show _ < maxUint32 + 1
        omega
      obtain ⟨hrep, _, hfits, _⟩ := h.holds.map.store (s.map.wf.mapValues _) hd h.holds.fits
        (calls i).1 (Nat.le_of_eq (Memory.length_toLE 4 first))
        (by show keySize + 4 + 4 ≤ maxObject; omega) hcount hstore
      rw [← HashTable.mapValues_store] at hrep
      exact ⟨hgo _ hs', ⟨hm ▸ hrep, hfits, hr ▸ h.holds.records, hr ▸ h.holds.size⟩, hinv, hroom⟩
  | stays he hs =>
      rcases hs with ⟨record, hs⟩ | ⟨p, hs, hi⟩
      · rw [hat hs] at hc
        cases hc
        exact he ▸ h
      · -- the item a call has found is there
        obtain ⟨item, hitem, _⟩ := h.inv.item_known _ p (.inr ⟨i, rfl, by rw [hs]; rfl⟩)
        cases hi.symm.trans hitem

/-- A write on the files finds what its call has read exactly where it does on the state. -/
theorem Simulates.publishes_iff (h : Simulates hash disk valueSize calls m t s) (i : Fin n) :
    Publishes hash calls t i ↔ AddRows.Publishes calls s i := by
  unfold Publishes AddRows.Publishes
  rw [h.stage_eq]
  cases hs : s.stage i with
  | writeBegin p new =>
      show _ ∧ _ ↔ _
      rw [h.holds.findStart, Option.some.injEq]
      refine and_congr_right fun hf => ?_
      obtain ⟨_, _, item, _, hr, _⟩ := s.map.wf.find_some hf
      obtain ⟨old, hnext, _⟩ := h.inv.link_known i p new hs
      obtain ⟨⟨link, row⟩, hrow⟩ := Option.isSome_iff_exists.mp ((s.records.isSome_iff new).mpr
        (s.record_lt i new (by rw [hs]; rfl)))
      have hlink : link = some old := (RecordList.next_eq hrow).symm.trans hnext
      rw [h.holds.readBegin hr, AddRows.get_of_find hf hr, h.holds.records.next new link row hrow,
        hnext, hlink, Option.some.injEq]
      exact Iff.rfl
  | store first =>
      show _ = _ ↔ _
      rw [h.holds.findStart, Option.some.injEq]
  | _ => exact Iff.rfl

/-! ## 5. Every schedule -/

/-- **No row is lost exactly where every write finds what its call has read**: over every schedule
    of any calls on any files, as long as the counts of the records and of the items do not come to
    the sentinel, once all calls have returned. -/
theorem kept_iff_publishes (hash : Key keySize → Nat) {disk : Disk} {valueSize : Nat}
    (hd : disk.size ≤ maxObject) (hsize : recordSize ≤ maxObject) (hkey : keySize + 8 ≤ maxObject)
    (hvalue : 4 + valueSize ≤ recordSize) {f : MultimapFile keySize recordSize}
    {m : RecordMultimap (Key keySize) (List UInt8)} (hf : f.Rep hash disk m)
    (hrows : ∀ i next row, m.records.record i = some (next, row) → row.length = valueSize)
    (calls : Fin n → Key keySize × List UInt8) (hcalls : ∀ i, (calls i).2.length = valueSize)
    (hrecords : f.records.count + n ≤ maxUint32) (hitems : f.map.count + n ≤ maxUint32)
    (schedule : List (Fin n)) {t : AddRowsFile keySize recordSize n}
    (ht : runSome (step hash disk calls) (start f) schedule = some t) (hret : t.Returned) :
    Kept hash calls valueSize f t ↔
      EverySome (step hash disk calls) (Publishes hash calls) (start f) schedule := by
  obtain ⟨m', hm, hcount, hfree, hstart⟩ := exists_start (n := n) hf hrows
  have h₀ : Simulates hash disk valueSize calls m' (start f) (AddRows.start m') :=
    ⟨rfl, hstart, AddRows.inv_start calls m', .start (hcount ▸ hrecords) (hfree ▸ hitems)⟩
  have hstep : ∀ t s i t', Simulates hash disk valueSize calls m' t s →
      step hash disk calls t i = some t' →
      Simulates hash disk valueSize calls m' t' (AddRows.step calls s i) :=
    fun _ _ _ _ h hc => h.step hd hsize hkey hvalue hcalls hc
  have h : Simulates hash disk valueSize calls m' t
      (run (AddRows.step calls) (AddRows.start m') schedule) :=
    runSome_refines (G := fun _ => True) (fun t s i t' h _ hc => hstep t s i t' h hc) h₀
      (fun _ _ => True.intro) ht
  rw [everySome_iff_everyStep hstep (fun _ _ i h => h.publishes_iff i) h₀ ht,
    ← AddRows.kept_iff_everyStep calls m' schedule (fun i => h.stage_eq ▸ hret i)]
  -- what the files yield are the rows of the state
  refine forall_congr' fun key => ?_
  rw [hf.rows_eq hrows, h.holds.rows, hm]
  constructor
  · rintro ⟨before, after, hb, ha, hperm⟩
    cases hb
    cases ha
    exact hperm
  · exact fun hperm => ⟨_, _, rfl, rfl, hperm⟩

theorem returned_of_result {t : AddRowsFile keySize recordSize n}
    (h : ∀ i, (t.stage i).result.isSome = true) : t.Returned := by
  intro i
  obtain ⟨record, hr⟩ := Option.isSome_iff_exists.mp (h i)
  refine ⟨record, ?_⟩
  cases hs : t.stage i <;> rw [hs] at hr <;> cases hr
  rfl

/-- Two calls on one key, each with a row of its own. -/
def sampleCalls (i : Fin 2) : Key 1 × List UInt8 := (⟨[5], rfl⟩, [UInt8.ofNat i.val])

/-- The files of a multimap of one bucket without rows. -/
def sampleFiles : Option (MultimapFile 1 5) :=
  (TableFile.create (.record 4) 1 .sample 1 fun _ => 0).bind fun map =>
    (RecordListFile.createFile 5 .sample fun _ => 0).map fun records => ⟨map, records⟩

/-- One call after the other. -/
def oneByOne : List (Fin 2) := [0, 0, 0, 1, 1, 1, 1]

theorem oneByOne_kept : ∃ f t, sampleFiles = some f ∧
    runSome (step (fun _ => 0) .sample sampleCalls) (start f) oneByOne = some t ∧
    Kept (fun _ => 0) sampleCalls 1 f t := by
  have hrun : (sampleFiles.bind fun f =>
      (runSome (step (fun _ => 0) .sample sampleCalls) (start f) oneByOne).map fun t =>
        (decide (∀ i, (t.stage i).result.isSome = true),
          decide (EverySome (step (fun _ => 0) .sample sampleCalls) (Publishes (fun _ => 0) sampleCalls)
            (start f) oneByOne), f.records.count, f.map.count)) = some (true, true, 0, 0) := by
    decide +kernel
  obtain ⟨f, hf, hrun⟩ := Option.bind_eq_some_iff.mp hrun
  obtain ⟨t, ht, hrun⟩ := Option.map_eq_some_iff.mp hrun
  simp only [Prod.mk.injEq, decide_eq_true_eq] at hrun
  obtain ⟨hret, hpub, hrecords, hitems⟩ := hrun
  obtain ⟨map, hmap, hf'⟩ := Option.bind_eq_some_iff.mp hf
  obtain ⟨records, hrec, rfl⟩ := Option.map_eq_some_iff.mp hf'
  obtain ⟨hrep, _⟩ := MultimapFile.create_rep (fun _ => 0) (by decide) (by decide) hmap
    hrec
  exact ⟨_, t, hf, ht, (kept_iff_publishes (fun _ => 0) (by decide) (by decide) (by decide)
    (by decide) hrep (fun _ _ _ h => by cases h) sampleCalls (fun _ => rfl)
    (by rw [hrecords]; decide) (by rw [hitems]; decide) oneByOne ht (returned_of_result hret)).mpr
    hpub⟩

/-- Both calls look the key up, insert a record in front of the one they read, and write it: the
    first one's row is gone. -/
def bothRead : List (Fin 2) := [0, 0, 1, 1, 0, 1, 0, 1]

theorem bothRead_lost : ∃ f t,
    (sampleFiles.bind fun f => f.addRow (fun _ => 0) .sample ⟨[5], rfl⟩ [7]) = some f ∧
    runSome (step (fun _ => 0) .sample sampleCalls) (start f) bothRead = some t ∧ t.Returned ∧
    f.rows (fun _ => 0) 1 ⟨[5], rfl⟩ = some [[7]] ∧
    t.files.rows (fun _ => 0) 1 ⟨[5], rfl⟩ = some [[1], [7]] ∧
    ¬ Kept (fun _ => 0) sampleCalls 1 f t := by
  have hrun : ((sampleFiles.bind fun f => f.addRow (fun _ => 0) .sample ⟨[5], rfl⟩ [7]).bind fun f =>
      (runSome (step (fun _ => 0) .sample sampleCalls) (start f) bothRead).map fun t =>
        (decide (∀ i, (t.stage i).result.isSome = true), f.rows (fun _ => 0) 1 ⟨[5], rfl⟩,
          t.files.rows (fun _ => 0) 1 ⟨[5], rfl⟩)) = some (true, some [[7]], some [[1], [7]]) := by
    decide +kernel
  obtain ⟨f, hf, hrun⟩ := Option.bind_eq_some_iff.mp hrun
  obtain ⟨t, ht, hrun⟩ := Option.map_eq_some_iff.mp hrun
  simp only [Prod.mk.injEq, decide_eq_true_eq] at hrun
  obtain ⟨hret, hbefore, hafter⟩ := hrun
  refine ⟨f, t, hf, ht, returned_of_result hret, hbefore, hafter, fun h => ?_⟩
  obtain ⟨before, after, hb, ha, hperm⟩ := h ⟨[5], rfl⟩
  cases hbefore.symm.trans hb
  cases hafter.symm.trans ha
  have hlen := hperm.length_eq
  revert hlen
  decide +kernel

end AddRowsFile

end Libbitcoin.Database
