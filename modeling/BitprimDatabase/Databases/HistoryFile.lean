/-
  File:      BitprimDatabase/Databases/HistoryFile.lean
  Subject:   **THE HISTORY IN ITS FILES** (history_database.cpp): a multimap from an address hash to
             rows of a kind, a point, a height and a value or checksum.

      a row:  [ kind:1 ] [ point:36 ] [ height:4 ] [ value or checksum:8 ]

  * `addOutput`, `addInput`, `deleteLastRow`, `get` -- on the bytes; `Call` -- the writing calls;
  * `select_eq` -- the loop of `get` filters by height, then cuts at the limit;
  * `Holds` -- the files hold the rows of each address, newest first; kept by every call;
  * **`history_isStack`** -- what the calls answer behind any run;
  * `get_eq_historyDatabase` -- the rows of Indexes.lean answer the same.
-/
import BitprimDatabase.Databases.Indexes
import BitprimDatabase.Databases.WireForms
import BitprimDatabase.Primitives.MultimapFile

namespace Libbitcoin.Database

open Lib

/-! ## 1. The bytes of a row -/

/-- What the core library counts a kind as. -/
def PointKind.toByte : PointKind → UInt8
  | output => 0
  | spend => 1

def PointKind.ofByte (b : UInt8) : PointKind := if b = 0 then output else spend

theorem PointKind.ofByte_toByte (kind : PointKind) : ofByte kind.toByte = kind := by
  cases kind <;> rfl

/-- Where the height stands in a row, and the size of a record of the rows file. -/
def heightPosition : Nat := 1 + 36

def rowRecordSize : Nat := 32 + 4 + (1 + 36 + 4 + 8)

/-- What `add_output` and `add_input` write. -/
def rowBytes (row : HistoryRow) : List UInt8 :=
  row.kind.toByte :: (pointBytes row.point ++
    (Memory.toLE 4 row.height ++ Memory.toLE 8 row.valueOrChecksum))

def readHeight (m : Memory) (a : Nat) : Nat := m.readWord (a + heightPosition) 4

/-- The fields in the order of the deserializer. -/
def readRow (m : Memory) (a : Nat) : HistoryRow :=
  ⟨.ofByte (m a), readPoint m (a + 1), m.readWord (a + 1 + 36) 4, m.readWord (a + 1 + 36 + 4) 8⟩

/-- The types of the fields: four bytes for an index and a height, eight for a value. -/
def HistoryRow.Fits (row : HistoryRow) : Prop :=
  row.point.index ≤ maxUint32 ∧ row.height ≤ maxUint32 ∧ row.valueOrChecksum ≤ maxSize

@[simp] theorem length_rowBytes (row : HistoryRow) : (rowBytes row).length = 49 := by
  simp [rowBytes]

/-- **A row is read back**, and the height that is peeked at is its height. -/
theorem readRow_of_holds {m : Memory} {a : Nat} {row : HistoryRow} (hf : row.Fits)
    (h : m.Holds a (rowBytes row)) : readRow m a = row ∧ readHeight m a = row.height := by
  obtain ⟨hkind, h⟩ := Memory.holds_cons.mp h
  obtain ⟨hpoint, h⟩ := Memory.holds_append.mp h
  obtain ⟨hheight, hvalue⟩ := Memory.holds_append.mp h
  rw [length_pointBytes] at hheight hvalue
  rw [Memory.length_toLE] at hvalue
  have hread : m.readWord (a + 1 + 36) 4 = row.height :=
    hheight.word (Nat.lt_succ_of_le hf.2.1)
  refine ⟨?_, hread⟩
  unfold readRow
  rw [hkind, PointKind.ofByte_toByte, WirePoint.read ⟨row.point, hf.1⟩ hpoint, hread,
    hvalue.word (Nat.lt_succ_of_le hf.2.2)]

/-! ## 2. The calls -/

structure HistoryFile where
  rowsMultimap : MultimapFile 20 rowRecordSize

namespace HistoryFile

/-- The table and the rows in two opened files. -/
def create (disk : Disk) (buckets : Nat) (lookupBytes rowsBytes : Memory) : Option HistoryFile :=
  match TableFile.create (.record 4) 20 disk buckets lookupBytes,
      RecordListFile.createFile rowRecordSize disk rowsBytes with
  | some map, some records => some ⟨⟨map, records⟩⟩
  | _, _ => none

section Calls

variable (hash : Key 20 → Nat) (disk : Disk) (f : HistoryFile)

def addOutput (key : ShortHash) (outpoint : Point) (outputHeight value : Nat) :
    Option HistoryFile :=
  (f.rowsMultimap.addRow hash disk (shortHashKey key)
    (rowBytes (HistoryDatabase.outputRow outpoint outputHeight value))).map HistoryFile.mk

def addInput [Core] (key : ShortHash) (inpoint : Point) (inputHeight : Nat) (previous : Point) :
    Option HistoryFile :=
  (f.rowsMultimap.addRow hash disk (shortHashKey key)
    (rowBytes (HistoryDatabase.inputRow inpoint inputHeight previous))).map HistoryFile.mk

def deleteLastRow (key : ShortHash) : Option (HistoryFile × Bool) :=
  (f.rowsMultimap.deleteLastRow hash (shortHashKey key)).map fun r => (⟨r.1⟩, r.2)

end Calls

/-- The loop of `get` over the records from an index; `none` where the fuel does not reach the
    end. -/
def select (records : RecordListFile rowRecordSize) (limit fromHeight : Nat) :
    Nat → Nat → List HistoryRow → Option (List HistoryRow)
  | 0, _, _ => none
  | fuel + 1, index, result =>
    if index = RecordListFile.empty then some result
    else if limit > 0 && decide (result.length ≥ limit) then some result
    else
      let address := records.data index
      if fromHeight == 0 || decide (readHeight records.bytes address ≥ fromHeight) then
        select records limit fromHeight fuel (records.next index)
          (result ++ [readRow records.bytes address])
      else select records limit fromHeight fuel (records.next index) result

def get (hash : Key 20 → Nat) (f : HistoryFile) (key : ShortHash) (limit fromHeight : Nat) :
    Option (List HistoryRow) :=
  (f.rowsMultimap.lookup hash (shortHashKey key)).bind fun start =>
    select f.rowsMultimap.records limit fromHeight (f.rowsMultimap.records.count + 1) start []

/-- The writing calls. -/
inductive Call where
  | addOutput (key : ShortHash) (outpoint : Point) (outputHeight value : Nat)
  | addInput (key : ShortHash) (inpoint : Point) (inputHeight : Nat) (previous : Point)
  | deleteLastRow (key : ShortHash)

namespace Call

variable [Core]

/-- The call on the files, `none` where it throws. -/
def apply (hash : Key 20 → Nat) (disk : Disk) (f : HistoryFile) : Call → Option HistoryFile
  | addOutput key outpoint outputHeight value => f.addOutput hash disk key outpoint outputHeight value
  | addInput key inpoint inputHeight previous => f.addInput hash disk key inpoint inputHeight previous
  | deleteLastRow key => (f.deleteLastRow hash key).map Prod.fst

/-- **The call on the rows of each address.** -/
def spec (s : Stacks ShortHash HistoryRow) : Call → Stacks ShortHash HistoryRow
  | addOutput key outpoint outputHeight value => s.push key ⟨.output, outpoint, outputHeight, value⟩
  | addInput key inpoint inputHeight previous =>
    s.push key ⟨.spend, inpoint, inputHeight, Core.checksum previous⟩
  | deleteLastRow key => s.pop key

/-- The arguments have the types of the source, and the height fits four bytes. -/
def Fits : Call → Prop
  | addOutput _ outpoint outputHeight value =>
    HistoryRow.Fits ⟨.output, outpoint, outputHeight, value⟩
  | addInput _ inpoint inputHeight previous =>
    HistoryRow.Fits ⟨.spend, inpoint, inputHeight, Core.checksum previous⟩
  | deleteLastRow _ => True

/-- The rows a call adds. -/
def additions : Call → Nat
  | addOutput _ _ _ _ => 1
  | addInput _ _ _ _ => 1
  | deleteLastRow _ => 0

end Call

/-! ## 3. Filter and limit -/

/-- The rows from a height on, cut at the limit. -/
def restrict (limit fromHeight : Nat) (rows : List HistoryRow) : List HistoryRow :=
  let rows := rows.filter fun row => fromHeight ≤ row.height
  if limit = 0 then rows else rows.take limit

/-- The loop of `get` over rows, with the rows found so far. -/
theorem select_append (limit fromHeight : Nat) (rows result : List HistoryRow)
    (hr : limit ≠ 0 → result.length ≤ limit) :
    HistoryDatabase.select limit fromHeight rows result =
      if limit = 0 then result ++ rows.filter fun row => fromHeight ≤ row.height
      else (result ++ rows.filter fun row => fromHeight ≤ row.height).take limit := by
  induction rows generalizing result with
  | nil =>
      simp only [HistoryDatabase.select, List.filter_nil, List.append_nil]
      split
      · rfl
      · rename_i hl
        exact (List.take_of_length_le (hr hl)).symm
  | cons row rows ih =>
      unfold HistoryDatabase.select
      by_cases hfull : (limit > 0 && decide (result.length ≥ limit)) = true
      · obtain ⟨hl, hlen⟩ : 0 < limit ∧ limit ≤ result.length := by simpa using hfull
        have heq : result.length = limit := Nat.le_antisymm (hr (Nat.ne_of_gt hl)) hlen
        rw [if_pos hfull, if_neg (Nat.ne_of_gt hl), ← heq]
        exact List.take_left.symm
      · have hroom : limit ≠ 0 → result.length < limit := fun hl => by
          have := hr hl
          have hne : ¬ (0 < limit ∧ limit ≤ result.length) := by simpa using hfull
          omega
        rw [if_neg hfull]
        by_cases hh : fromHeight ≤ row.height
        · have hcond : (fromHeight == 0 || decide (row.height ≥ fromHeight)) = true := by simp [hh]
          rw [if_pos hcond, ih (result ++ [row]) (fun hl => by
              rw [List.length_append]
              exact hroom hl),
            List.filter_cons_of_pos (by simpa using hh), List.append_assoc]
          rfl
        · have hcond : ¬ (fromHeight == 0 || decide (row.height ≥ fromHeight)) = true := by
            simp only [Bool.or_eq_true, beq_iff_eq, decide_eq_true_eq, not_or]
            omega
          rw [if_neg hcond, ih result hr, List.filter_cons_of_neg (by simpa using hh)]

/-- **The loop of `get` filters by height, then cuts at the limit.** -/
theorem select_eq (limit fromHeight : Nat) (rows : List HistoryRow) :
    HistoryDatabase.select limit fromHeight rows [] = restrict limit fromHeight rows :=
  select_append limit fromHeight rows [] fun _ => Nat.zero_le _

/-! ## 4. The rows the files hold -/

variable {hash : Key 20 → Nat} {disk : Disk} {f f' : HistoryFile}
  {s : Stacks ShortHash HistoryRow}

/-- The loop of `get` over the records of a list whose rows are coded. -/
theorem select_rep {records : RecordListFile rowRecordSize} {l : RecordList (List UInt8)}
    (h : records.Rep disk l) (limit fromHeight : Nat) {rows result : List HistoryRow}
    {begin : Option Nat} (hb : ∀ i, begin = some i → i < l.count)
    (hrows : l.rows begin = rows.map rowBytes) (hfits : ∀ row ∈ rows, row.Fits) {fuel : Nat}
    (hpos : 0 < fuel) (hfuel : ∀ i, begin = some i → i + 1 < fuel) :
    select records limit fromHeight fuel (RecordListFile.encode begin) result =
      some (HistoryDatabase.select limit fromHeight rows result) := by
  induction fuel generalizing begin rows result with
  | zero => exact absurd hpos (Nat.lt_irrefl 0)
  | succ fuel ih =>
      cases begin with
      | none =>
          rw [RecordList.rows_none] at hrows
          rw [List.map_eq_nil_iff.mp hrows.symm]
          rfl
      | some i =>
          have hi := hb i rfl
          obtain ⟨⟨n, bytes⟩, hr⟩ := Option.isSome_iff_exists.mp ((l.isSome_iff i).mpr hi)
          rw [RecordList.rows_some l hr] at hrows
          cases rows with
          | nil => cases hrows
          | cons row rows =>
              rw [List.map_cons, List.cons.injEq] at hrows
              obtain ⟨hbytes, hrest⟩ := hrows
              obtain ⟨hrow, hrowsFit⟩ := List.forall_mem_cons.mp hfits
              have hholds : records.bytes.Holds (records.data i) (rowBytes row) := by
                rw [← hbytes]
                exact h.row i n bytes hr
              obtain ⟨hread, hheight⟩ := readRow_of_holds hrow hholds
              have hbound : ∀ j, n = some j → j < i := fun j hj => l.link_lt i j bytes (hj ▸ hr)
              have hlt := hfuel i rfl
              have ih (result : List HistoryRow) :
                  select records limit fromHeight fuel (RecordListFile.encode n) result =
                    some (HistoryDatabase.select limit fromHeight rows result) := by
                refine ih (fun j hj => Nat.lt_trans (hbound j hj) hi) hrest hrowsFit (by omega)
                  fun j hj => ?_
                have := hbound j hj
                omega
              rw [show RecordListFile.encode (some i) = i from rfl]
              unfold select HistoryDatabase.select
              rw [if_neg (h.ne_empty hi)]
              split
              · rfl
              · dsimp only
                rw [hheight, hread, h.next i n bytes hr]
                split
                · exact ih _
                · exact ih _

/-- **The files hold the rows of each address**, newest first; there are no more addresses than
    rows. -/
def Holds (hash : Key 20 → Nat) (disk : Disk) (f : HistoryFile) (s : Stacks ShortHash HistoryRow) :
    Prop :=
  ∃ m, f.rowsMultimap.Rep hash disk m ∧ Stacks.Codes shortHashKey rowBytes s m.rows ∧
    (∀ key, ∀ row ∈ s key, row.Fits) ∧ f.rowsMultimap.map.count ≤ f.rowsMultimap.records.count

theorem Holds.get_eq (h : f.Holds hash disk s) (key : ShortHash) (limit fromHeight : Nat) :
    f.get hash key limit fromHeight = some (restrict limit fromHeight (s key)) := by
  obtain ⟨m, hm, hcodes, hfits, _⟩ := h
  unfold get
  rw [hm.lookup_eq, Option.bind_some, select_rep hm.records limit fromHeight
    (fun _ hl => m.lookup_lt hl) (hcodes key) (hfits key) (Nat.succ_pos _) (fun i hl => ?_),
    select_eq]
  have := m.lookup_lt hl
  have := hm.records.count_eq
  omega

/-- An address without rows has no item in the table. -/
theorem Holds.lookup_none {m : RecordMultimap (Key 20) (List UInt8)}
    (hcodes : Stacks.Codes shortHashKey rowBytes s m.rows) {key : ShortHash} (hs : s key = []) :
    m.lookup (shortHashKey key) = none := by
  cases hl : m.lookup (shortHashKey key) with
  | none => rfl
  | some begin =>
      obtain ⟨row, hr⟩ := m.rows_of_lookup hl
      rw [hcodes.eq_nil.mpr hs] at hr
      cases hr

/-- The deletion of an address without rows changes nothing. -/
theorem Holds.deleteLastRow_absent (h : f.Holds hash disk s) {key : ShortHash} (hs : s key = []) :
    f.deleteLastRow hash key = some (f, false) := by
  obtain ⟨m, hm, hcodes, _⟩ := h
  unfold deleteLastRow
  rw [hm.deleteLastRow_absent (lookup_none hcodes hs)]
  rfl

/-- **The deletion of the newest row.** -/
theorem Holds.deleteLastRow (h : f.Holds hash disk s) (key : ShortHash) :
    ∃ f', f.deleteLastRow hash key = some (f', !(s key).isEmpty) ∧ f'.Holds hash disk (s.pop key) ∧
      f'.rowsMultimap.records.count = f.rowsMultimap.records.count := by
  obtain ⟨m, hm, hcodes, hfits, hle⟩ := h
  obtain ⟨g, hg, hrep, hmap, hrecords⟩ := hm.deleteLastRow (shortHashKey key)
  refine ⟨⟨g⟩, ?_, ⟨_, hrep, ?_, fun k row hrow => ?_, ?_⟩, congrArg RecordListFile.count hrecords⟩
  · unfold HistoryFile.deleteLastRow
    rw [hg, RecordMultimap.deleteLastRow_result, hcodes key, List.isEmpty_map]
    rfl
  · rw [RecordMultimap.deleteLastRow_rows]
    exact hcodes.pop shortHashKey_injective key
  · by_cases hk : k = key
    · subst hk
      rw [Stacks.pop_same] at hrow
      exact hfits k row (List.mem_of_mem_tail hrow)
    · rw [Stacks.pop_ne _ hk] at hrow
      exact hfits k row hrow
  · rw [hmap, hrecords]
    exact hle

/-- **The addition of a row.** -/
theorem Holds.addRow (h : f.Holds hash disk s) (hd : disk.size ≤ maxObject)
    (hroom : f.rowsMultimap.records.count < maxUint32) {key : ShortHash} {row : HistoryRow}
    (hrow : row.Fits) {g : MultimapFile 20 rowRecordSize}
    (hc : f.rowsMultimap.addRow hash disk (shortHashKey key) (rowBytes row) = some g) :
    Holds hash disk ⟨g⟩ (s.push key row) ∧
      g.records.count = f.rowsMultimap.records.count + 1 := by
  obtain ⟨m, hm, hcodes, hfits, hle⟩ := h
  have hsize : 4 + (rowBytes row).length ≤ rowRecordSize := by
    rw [length_rowBytes]
    decide
  obtain ⟨hrep, hmap, hrecords⟩ := hm.addRow hd (by decide) (by decide)
    (Nat.lt_of_le_of_lt hle hroom) hroom hsize hc
  refine ⟨⟨_, hrep, ?_, fun k row' hrow' => ?_, ?_⟩, hrecords⟩
  · rw [RecordMultimap.addRow_rows]
    exact hcodes.push shortHashKey_injective key row
  · rcases Stacks.mem_of_mem_push hrow' with ⟨_, rfl⟩ | hrow'
    · exact hrow
    · exact hfits k row' hrow'
  · show g.map.count ≤ g.records.count
    omega

variable [Core]

/-- **One call**: the files go on to hold the rows. -/
theorem Holds.apply (h : f.Holds hash disk s) (hd : disk.size ≤ maxObject) {c : Call} (hfit : c.Fits)
    (hroom : f.rowsMultimap.records.count + c.additions ≤ maxUint32)
    (hc : c.apply hash disk f = some f') : f'.Holds hash disk (c.spec s) ∧
      f'.rowsMultimap.records.count ≤ f.rowsMultimap.records.count + c.additions := by
  cases c with
  | addOutput key outpoint outputHeight value =>
      obtain ⟨g, hg, rfl⟩ := Option.map_eq_some_iff.mp hc
      unfold HistoryDatabase.outputRow at hg
      rw [u32_of_le hfit.2.1] at hg
      obtain ⟨h', hcount⟩ := h.addRow hd hroom hfit hg
      exact ⟨h', Nat.le_of_eq hcount⟩
  | addInput key inpoint inputHeight previous =>
      obtain ⟨g, hg, rfl⟩ := Option.map_eq_some_iff.mp hc
      unfold HistoryDatabase.inputRow at hg
      rw [u32_of_le hfit.2.1] at hg
      obtain ⟨h', hcount⟩ := h.addRow hd hroom hfit hg
      exact ⟨h', Nat.le_of_eq hcount⟩
  | deleteLastRow key =>
      obtain ⟨g, hg, h', hcount⟩ := h.deleteLastRow key
      obtain ⟨⟨g', b⟩, hg', rfl⟩ := Option.map_eq_some_iff.mp hc
      rw [hg] at hg'
      cases hg'
      exact ⟨h', Nat.le_of_eq hcount⟩

/-- **A run from created files.** -/
theorem holds_of_create (hd : disk.size ≤ maxObject) {buckets : Nat} (hb : buckets < Memory.limit 4)
    {lookupBytes rowsBytes : Memory} (hc : create disk buckets lookupBytes rowsBytes = some f)
    {calls : List Call} (hfit : ∀ c ∈ calls, c.Fits)
    (hroom : (calls.map Call.additions).sum ≤ maxUint32)
    (hr : runSome (Call.apply hash disk) f calls = some f') :
    f'.Holds hash disk (run Call.spec (fun _ => []) calls) ∧
      f'.rowsMultimap.records.count ≤ (calls.map Call.additions).sum := by
  unfold create at hc
  split at hc
  · rename_i map records hmap hrecords
    cases hc
    obtain ⟨hrep, hzero, hzero'⟩ := MultimapFile.create_rep hash hd hb hmap hrecords
    have h₀ : Holds hash disk ⟨⟨map, records⟩⟩ fun _ => [] := by
      refine ⟨_, hrep, fun key => ?_, fun _ _ hrow => absurd hrow List.not_mem_nil, ?_⟩
      · exact RecordMultimap.create_rows hash buckets (shortHashKey key)
      · exact hzero.trans_le (Nat.zero_le _)
    have h := runSome_simulates (G := fun _ c => c.Fits)
      (u := fun f : HistoryFile => f.rowsMultimap.records.count) (c := Call.additions)
      (fun f s c f' h hfit hroom hc => h.apply hd hfit hroom hc) h₀ (.of_mem _ hfit)
      (by rw [hzero', Nat.zero_add]; exact hroom) hr
    rwa [hzero', Nat.zero_add] at h
  · cases hc

/-! ## 5. The history is a stack for each address -/

/-- **What the calls answer** where the rows are `s`; a call returns where the disk grants both
    files the room. -/
structure Serves (hash : Key 20 → Nat) (disk : Disk) (f : HistoryFile)
    (s : Stacks ShortHash HistoryRow) : Prop where
  get : ∀ key limit fromHeight,
    f.get hash key limit fromHeight = some (restrict limit fromHeight (s key))
  deleteAbsent : ∀ key, s key = [] → f.deleteLastRow hash key = some (f, false)
  deletePresent : ∀ key, s key ≠ [] → ∃ f', f.deleteLastRow hash key = some (f', true) ∧
    ∀ other limit fromHeight,
      f'.get hash other limit fromHeight = some (restrict limit fromHeight (s.pop key other))
  returns : disk.Grants (f.rowsMultimap.map.logicalSize + 28) →
    disk.Grants (f.rowsMultimap.records.logicalSize + rowRecordSize) →
      ∀ c : Call, ∃ f', c.apply hash disk f = some f'

omit [Core] in
/-- **A row** takes a record, and a start info where it is the first of its address. -/
theorem Holds.addRow_returns (h : f.Holds hash disk s) (hd : disk.size ≤ maxObject) (key : ShortHash)
    (row : HistoryRow) (hroom : f.rowsMultimap.records.count < maxUint32)
    (hmap : disk.Grants (f.rowsMultimap.map.logicalSize + 28))
    (hrecords : disk.Grants (f.rowsMultimap.records.logicalSize + rowRecordSize)) : ∃ g,
    f.rowsMultimap.addRow hash disk (shortHashKey key) (rowBytes row) = some g ∧
      g.map.logicalSize ≤ f.rowsMultimap.map.logicalSize + 28 ∧
        g.records.logicalSize = f.rowsMultimap.records.logicalSize + rowRecordSize := by
  obtain ⟨m, hm, _, _, hle⟩ := h
  exact hm.addRow_returns hd (by decide) (Nat.lt_of_le_of_lt hle hroom) hroom _ _ hmap hrecords

theorem Holds.serves (h : f.Holds hash disk s) (hd : disk.size ≤ maxObject)
    (hroom : f.rowsMultimap.records.count < maxUint32) : Serves hash disk f s where
  get := h.get_eq
  deleteAbsent _ hs := h.deleteLastRow_absent hs
  deletePresent key hs := by
    obtain ⟨f', hf', h', _⟩ := h.deleteLastRow key
    refine ⟨f', ?_, h'.get_eq⟩
    rw [hf', List.isEmpty_eq_false_iff.mpr hs]
    rfl
  returns hmap hrecords c := by
    have hadd (key : ShortHash) (row : HistoryRow) : ∃ f', (f.rowsMultimap.addRow hash disk
        (shortHashKey key) (rowBytes row)).map HistoryFile.mk = some f' := by
      obtain ⟨g, hg, _⟩ := h.addRow_returns hd key row hroom hmap hrecords
      exact ⟨⟨g⟩, congrArg _ hg⟩
    cases c with
    | addOutput key outpoint outputHeight value => exact hadd key _
    | addInput key inpoint inputHeight previous => exact hadd key _
    | deleteLastRow key =>
        obtain ⟨f', hf', _⟩ := h.deleteLastRow key
        exact ⟨f', congrArg (Option.map Prod.fst) hf'⟩

/-- **The history is a stack for each address**: behind every sequence of calls on created files
    `get` returns the rows added and not deleted, newest first, from a height on and up to a limit;
    a deletion removes the newest row or answers false and changes nothing. -/
theorem history_isStack (hash : Key 20 → Nat) {disk : Disk} {buckets : Nat} (hd : disk.size ≤ maxObject)
    (hb : buckets < Memory.limit 4) {lookupBytes rowsBytes : Memory} {f f' : HistoryFile}
    (hc : create disk buckets lookupBytes rowsBytes = some f) {calls : List Call}
    (hfit : ∀ c ∈ calls, c.Fits) (hroom : (calls.map Call.additions).sum < maxUint32)
    (hr : runSome (Call.apply hash disk) f calls = some f') :
    Serves hash disk f' (run Call.spec (fun _ => []) calls) := by
  obtain ⟨h, hle⟩ := holds_of_create hd hb hc hfit (Nat.le_of_lt hroom) hr
  exact h.serves hd (Nat.lt_of_le_of_lt hle hroom)

/-! ## 6. The rows of Indexes.lean -/

/-- The call on the rows of Indexes.lean. -/
def Call.applyDatabase (db : HistoryDatabase) : Call → HistoryDatabase
  | addOutput key outpoint outputHeight value => db.addOutput key outpoint outputHeight value
  | addInput key inpoint inputHeight previous => db.addInput key inpoint inputHeight previous
  | deleteLastRow key => (db.deleteLastRow key).1

theorem applyDatabase_rows (db : HistoryDatabase) {c : Call} (hfit : c.Fits) :
    (c.applyDatabase db).rows = c.spec db.rows := by
  cases c with
  | addOutput key outpoint outputHeight value =>
      refine (HistoryDatabase.addOutput_rows ..).trans ?_
      unfold HistoryDatabase.outputRow
      rw [u32_of_le hfit.2.1]
      rfl
  | addInput key inpoint inputHeight previous =>
      refine (HistoryDatabase.addInput_rows ..).trans ?_
      unfold HistoryDatabase.inputRow
      rw [u32_of_le hfit.2.1]
      rfl
  | deleteLastRow key => exact HistoryDatabase.deleteLastRow_rows ..

/-- **The files answer as the rows of Indexes.lean do.** -/
theorem get_eq_historyDatabase {buckets : Nat} (hd : disk.size ≤ maxObject)
    (hb : buckets < Memory.limit 4) {lookupBytes rowsBytes : Memory}
    (hc : create disk buckets lookupBytes rowsBytes = some f) {calls : List Call}
    (hfit : ∀ c ∈ calls, c.Fits) (hroom : (calls.map Call.additions).sum < maxUint32)
    (hr : runSome (Call.apply hash disk) f calls = some f') (key : ShortHash)
    (limit fromHeight : Nat) : f'.get hash key limit fromHeight =
      some ((run Call.applyDatabase (.create buckets) calls).get key limit fromHeight) := by
  have hrows : (run Call.applyDatabase (.create buckets) calls).rows =
      run Call.spec (fun _ => []) calls := by
    have hgen (calls : List Call) (hfit : ∀ c ∈ calls, c.Fits) (db : HistoryDatabase) :
        (run Call.applyDatabase db calls).rows = run Call.spec db.rows calls := by
      induction calls generalizing db with
      | nil => rfl
      | cons c calls ih =>
          obtain ⟨hc, hcs⟩ := List.forall_mem_cons.mp hfit
          refine (ih hcs (c.applyDatabase db)).trans ?_
          rw [applyDatabase_rows db hc]
          rfl
    rw [hgen calls hfit, show (HistoryDatabase.create buckets).rows = fun _ => [] from
      funext fun key => HistoryDatabase.create_rows buckets key]
  rw [(holds_of_create hd hb hc hfit (Nat.le_of_lt hroom) hr).1.get_eq, ← hrows, ← select_eq]
  rfl

end HistoryFile

/-! ## 7. One address -/

namespace HistoryFile

/-- Two rows of one address, the newest deleted, and one added again. -/
def sampleCalls : List Call :=
  [.addOutput 5 ⟨7, 0⟩ 10 50, .addInput 5 ⟨8, 1⟩ 11 ⟨7, 0⟩, .deleteLastRow 5,
    .addOutput 5 ⟨9, 0⟩ 12 60]

theorem sampleCalls_stack : ∃ f f', create .sample 1 (fun _ => 0) (fun _ => 0) = some f ∧
    runSome (@Call.apply Core.sample (fun _ => 0) .sample) f sampleCalls = some f' ∧
    @Serves Core.sample (fun _ => 0) .sample f' (run (@Call.spec Core.sample) (fun _ => []) sampleCalls) ∧
    f'.get (fun _ => 0) 5 1 10 = some [⟨.output, ⟨9, 0⟩, 12, 60⟩] := by
  have hsome : ((create .sample 1 (fun _ => 0) fun _ => 0).bind fun f =>
      runSome (@Call.apply Core.sample (fun _ => 0) .sample) f sampleCalls).isSome = true := by
    decide +kernel
  obtain ⟨f', hsome⟩ := Option.isSome_iff_exists.mp hsome
  obtain ⟨f, hc, hr⟩ := Option.bind_eq_some_iff.mp hsome
  have hfit : ∀ c ∈ sampleCalls, @Call.Fits Core.sample c := by
    unfold sampleCalls
    refine List.forall_mem_cons.mpr ⟨?_, List.forall_mem_cons.mpr ⟨?_,
      List.forall_mem_cons.mpr ⟨True.intro, List.forall_mem_cons.mpr ⟨?_,
        fun _ h => absurd h List.not_mem_nil⟩⟩⟩⟩
    all_goals exact ⟨by decide, by decide, by decide +kernel⟩
  have h := @history_isStack Core.sample (fun _ => 0) .sample 1 (by decide) (by decide) _ _ f f' hc
    sampleCalls hfit (by decide) hr
  exact ⟨f, f', hc, hr, h, (@h.get 5 1 10).trans (by decide +kernel)⟩

end HistoryFile

end Libbitcoin.Database
