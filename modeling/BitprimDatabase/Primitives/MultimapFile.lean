/-
  File:      BitprimDatabase/Primitives/MultimapFile.lean
  Subject:   **THE MULTIMAP IN ITS TWO FILES** (record_multimap.ipp, record_list.cpp,
             record_manager.cpp): a record table from a key to the index of its first row, and a file
             of linked rows.

      a row:  [ next:4 ] [ value ]          behind a count of four bytes, without a header

  * `RecordListFile` -- the file of rows; `RecordListFile.Rep` -- it holds a `RecordList`;
  * `MultimapFile` -- `lookup`, `addRow`, `deleteLastRow` on the bytes; `rows` iterates;
  * **`Rep.addRow`**, **`Rep.deleteLastRow`** -- a call on the files is the call on `RecordMultimap`.
-/
import BitprimDatabase.ChainTypes
import BitprimDatabase.Lib.Layout
import BitprimDatabase.Primitives.RecordMultimap
import BitprimDatabase.Primitives.TableCalls

namespace Libbitcoin.Database

open Lib

/-! ## 1. The file of rows -/

/-- The file and `record_count_` of the manager constructed on it. -/
structure RecordListFile (recordSize : Nat) extends MappedSize where
  bytes : Memory
  count : Nat

namespace RecordListFile

variable {recordSize : Nat}

/-- `record_list::empty`. -/
def empty : Nat := maxUint32

/-- `record_to_position`. -/
def position (recordSize record : Nat) : Nat := 4 + record * recordSize

/-- `record_manager::get`. -/
def address (_ : RecordListFile recordSize) (index : Nat) : Nat := position recordSize index

/-- `record_manager::create` on an opened file of one byte. -/
def createFile (recordSize : Nat) (disk : Disk) (bytes : Memory) : Option (RecordListFile recordSize) :=
  (disk.resize ⟨1, 1⟩ (position recordSize 0)).map fun size => ⟨size, bytes.writeWord 0 4 0, 0⟩

/-- `record_manager::new_records(1)`. -/
def newRecords (f : RecordListFile recordSize) (disk : Disk) :
    Option (RecordListFile recordSize × Nat) :=
  let count := (f.count + 1) % Memory.limit 4
  (disk.reserve f.toMappedSize (position recordSize count % sizeLimit)).map fun size =>
    (⟨size, f.bytes, count⟩, f.count)

/-- A new record in front of the record at `index`, and its own index. -/
def insert (f : RecordListFile recordSize) (disk : Disk) (index : Nat) :
    Option (RecordListFile recordSize × Nat) :=
  (f.newRecords disk).map fun (f, record) =>
    ({ f with bytes := f.bytes.writeWord (f.address record) 4 index }, record)

/-- A new record with no next one. -/
def create (f : RecordListFile recordSize) (disk : Disk) : Option (RecordListFile recordSize × Nat) :=
  f.insert disk empty

def next (f : RecordListFile recordSize) (index : Nat) : Nat := f.bytes.readWord (f.address index) 4

/-- Where the value of a record stands (`record_list::get`). -/
def data (f : RecordListFile recordSize) (index : Nat) : Nat := f.address index + 4

/-- Write the value of a record. -/
def writeRow (f : RecordListFile recordSize) (index : Nat) (value : List UInt8) :
    RecordListFile recordSize :=
  { f with bytes := f.bytes.write (f.data index) value }

/-- The values iterating from a record visits (`record_multimap_iterator`), of a size the reader
    knows; `none` where the fuel does not reach the end. -/
def valuesFrom (f : RecordListFile recordSize) (valueSize : Nat) :
    Nat → Nat → Option (List (List UInt8))
  | 0, _ => none
  | fuel + 1, index =>
    if index = empty then some []
    else (f.valuesFrom valueSize fuel (f.next index)).map fun values =>
      f.bytes.read (f.data index) valueSize :: values

/-- `record_manager::sync`. -/
def sync (f : RecordListFile recordSize) : RecordListFile recordSize :=
  { f with bytes := f.bytes.writeWord 0 4 f.count }

/-- `memory_map::close`. -/
def close (f : RecordListFile recordSize) : TableFile.Closed := ⟨f.bytes, f.logicalSize⟩

/-- `record_manager::start` on an opened file: `none` where the count exceeds the file. -/
def start (recordSize : Nat) (file : TableFile.Closed) : Option (RecordListFile recordSize) :=
  let count := file.bytes.readWord 0 4
  if position recordSize count % sizeLimit ≤ file.size then
    some ⟨⟨file.size, file.size⟩, file.bytes, count⟩
  else none

/-- An index as its word. -/
def encode (index : Option Nat) : Nat := index.getD empty

/-- **The file holds the list of records.** -/
structure Rep (disk : Disk) (f : RecordListFile recordSize) (l : RecordList (List UInt8)) : Prop where
  count_eq : l.count = f.count
  count_le : f.count ≤ maxUint32
  next : ∀ i n row, l.record i = some (n, row) → f.next i = encode n
  row : ∀ i n row, l.record i = some (n, row) → f.bytes.Holds (f.data i) row
  size : ∀ i n row, l.record i = some (n, row) → 4 + row.length ≤ recordSize
  logical : f.logicalSize = position recordSize f.count
  fits : disk.Fits f.toMappedSize

variable {f f' : RecordListFile recordSize} {l : RecordList (List UInt8)} {disk : Disk}

/-- A created file holds no record. -/
theorem createFile_rep {bytes : Memory} (hc : createFile recordSize disk bytes = some f) :
    Rep disk f RecordList.empty ∧ f.count = 0 := by
  obtain ⟨size, hsize, rfl⟩ := Option.map_eq_some_iff.mp hc
  obtain ⟨hfit, hlogical⟩ := Disk.resize_eq_some (.inr (Nat.lt_of_lt_of_le (by decide : 1 < 4)
    (Nat.le_add_right 4 _))) hsize
  exact ⟨⟨rfl, Nat.zero_le _, fun _ _ _ h => (nomatch h), fun _ _ _ h => (nomatch h),
    fun _ _ _ h => (nomatch h), hlogical, hfit⟩, rfl⟩

/-- An index of a record is not the sentinel. -/
theorem Rep.ne_empty (h : Rep disk f l) {i : Nat} (hi : i < l.count) : i ≠ empty := by
  have := h.count_eq
  have := h.count_le
  unfold empty
  omega

/-- **Iterating visits the rows of the list.** -/
theorem Rep.valuesFrom_eq (h : Rep disk f l) {valueSize : Nat}
    (hsize : ∀ i n row, l.record i = some (n, row) → row.length = valueSize) {begin : Option Nat}
    (hb : ∀ i, begin = some i → i < l.count) {fuel : Nat} (hpos : 0 < fuel)
    (hfuel : ∀ i, begin = some i → i + 1 < fuel) :
    f.valuesFrom valueSize fuel (encode begin) = some (l.rows begin) := by
  induction fuel generalizing begin with
  | zero => exact absurd hpos (Nat.lt_irrefl 0)
  | succ fuel ih =>
      cases begin with
      | none =>
          rw [RecordList.rows_none]
          rfl
      | some i =>
          have hi := hb i rfl
          obtain ⟨⟨n, row⟩, hr⟩ := Option.isSome_iff_exists.mp ((l.isSome_iff i).mpr hi)
          have hbound : ∀ j, n = some j → j < i := fun j hj => l.link_lt i j row (hj ▸ hr)
          have hlt := hfuel i rfl
          have ih : f.valuesFrom valueSize fuel (encode n) = some (l.rows n) :=
            ih (fun j hj => Nat.lt_trans (hbound j hj) hi) (by omega) fun j hj => by
              have := hbound j hj
              omega
          have hread : f.bytes.read (f.data i) valueSize = row := by
            have := h.row i n row hr
            rwa [Memory.Holds, hsize i n row hr] at this
          rw [show encode (some i) = i from rfl]
          unfold valuesFrom
          rw [if_neg (h.ne_empty hi), h.next i n row hr, ih, Option.map_some, hread,
            RecordList.rows_some l hr]

/-- Records are apart. -/
theorem address_add_le (f : RecordListFile recordSize) {i j : Nat} (h : i < j) :
    f.address i + recordSize ≤ f.address j := by
  have hmul : (i + 1) * recordSize ≤ j * recordSize := Nat.mul_le_mul_right _ h
  rw [Nat.succ_mul] at hmul
  show 4 + i * recordSize + recordSize ≤ 4 + j * recordSize
  omega

/-- The record allocated next. -/
theorem newRecords_eq (hlog : f.logicalSize = position recordSize f.count)
    (hfits : disk.Fits f.toMappedSize) (hd : disk.size ≤ maxObject) (hsize : recordSize ≤ maxObject)
    (hroom : f.count < maxUint32) : f.newRecords disk =
      (disk.reserve f.toMappedSize (f.logicalSize + recordSize)).map fun size =>
        (⟨size, f.bytes, f.count + 1⟩, f.count) := by
  have hfits := hfits.le
  have hlim : sizeLimit = 18446744073709551616 := rfl
  have hmax : maxObject = 9223372036854775807 := rfl
  have hcount : (f.count + 1) % Memory.limit 4 = f.count + 1 :=
    Nat.mod_eq_of_lt (Nat.succ_lt_succ hroom)
  have hpos : position recordSize (f.count + 1) = f.logicalSize + recordSize := by
    rw [hlog]
    show 4 + (f.count + 1) * recordSize = 4 + f.count * recordSize + recordSize
    rw [Nat.succ_mul]
    omega
  unfold newRecords
  dsimp only
  rw [hcount, hpos, Nat.mod_eq_of_lt (by omega)]

/-- The bytes behind `sync`. -/
theorem sync_outside (f : RecordListFile recordSize) {i : Nat} (hi : 4 ≤ i) :
    f.sync.bytes i = f.bytes i := by
  show f.bytes.writeWord 0 4 f.count i = f.bytes i
  exact Memory.writeWord_outside _ (.inr hi)

/-- **A file that was synchronized and closed** is started with its count. -/
theorem start_eq (hlog : f.logicalSize = position recordSize f.count) (hcount : f.count ≤ maxUint32)
    {bytes : Memory} (hbytes : ∀ i < f.logicalSize, bytes i = f.sync.bytes i) :
    start recordSize ⟨bytes, f.logicalSize⟩ =
      some ⟨f.reopened, bytes, f.count⟩ := by
  have hfour : 4 ≤ f.logicalSize := hlog ▸ Nat.le_add_right _ _
  have hword : bytes.readWord 0 4 = f.count := by
    have hsync : (f.bytes.writeWord 0 4 f.count).readWord 0 4 = f.count :=
      Memory.readWord_writeWord _ (Nat.lt_succ_of_le hcount)
    refine (congrArg Memory.ofLE (Memory.read_congr fun i _ hi => hbytes i ?_)).trans hsync
    omega
  unfold start
  dsimp only
  rw [hword, ← hlog, if_pos (Nat.mod_le _ _)]
  rfl

/-- Close and start again, with `rest` behind the end of the file. -/
def reopen (f : RecordListFile recordSize) (rest : Memory) : Option (RecordListFile recordSize) :=
  let file := f.close
  start recordSize ⟨fun i => if i < file.size then file.bytes i else rest i, file.size⟩

/-- The count word in the file is the count of the manager. -/
def Synced (f : RecordListFile recordSize) : Prop := f.bytes.Holds 0 (Memory.toLE 4 f.count)

theorem sync_synced (f : RecordListFile recordSize) : f.sync.Synced :=
  f.bytes.holds_write 0 (Memory.toLE 4 f.count)

theorem createFile_synced {bytes : Memory} (hc : createFile recordSize disk bytes = some f) :
    f.Synced := by
  obtain ⟨size, _, rfl⟩ := Option.map_eq_some_iff.mp hc
  exact bytes.holds_write 0 (Memory.toLE 4 0)

/-- **A synchronized file is reopened** with its count, and every byte of the records. -/
theorem reopen_eq (hlog : f.logicalSize = position recordSize f.count) (hcount : f.count ≤ maxUint32)
    (hs : f.Synced) (rest : Memory) : ∃ bytes,
      f.reopen rest = some ⟨f.reopened, bytes, f.count⟩ ∧
      (∀ i < f.logicalSize, bytes i = f.bytes i) ∧
        ({ f with bytes := bytes } : RecordListFile recordSize).Synced := by
  let bytes : Memory := fun i => if i < f.logicalSize then f.bytes i else rest i
  have hbytes : ∀ i < f.logicalSize, bytes i = f.bytes i := fun i hi => if_pos hi
  have hsync : f.sync.bytes = f.bytes := hs.write_self
  have hfour : 4 ≤ f.logicalSize := hlog ▸ Nat.le_add_right _ _
  refine ⟨bytes, start_eq hlog hcount (hsync.symm ▸ hbytes), hbytes, hs.congr fun i _ hi => hbytes i ?_⟩
  rw [Memory.length_toLE] at hi
  omega

/-- **An insert and the write of its value** on the file are the insert on the list. -/
theorem Rep.insert (h : Rep disk f l) (hd : disk.size ≤ maxObject) (hsize : recordSize ≤ maxObject)
    (hroom : f.count < maxUint32) (index : Option Nat) (hi : ∀ j, index = some j → j < l.count)
    {value : List UInt8} (hv : 4 + value.length ≤ recordSize) {record : Nat}
    (hc : f.insert disk (encode index) = some (f', record)) :
    record = l.count ∧ f'.count = f.count + 1 ∧
      Rep disk (f'.writeRow record value) (l.insert index value hi).1 := by
  unfold RecordListFile.insert at hc
  rw [newRecords_eq h.logical h.fits hd hsize hroom, Option.map_map] at hc
  obtain ⟨size, hreserve, hc⟩ := Option.map_eq_some_iff.mp hc
  obtain ⟨hfit, hlogical⟩ := Disk.reserve_eq_some h.fits.file_le hreserve
  cases hc
  have henc : encode index < Memory.limit 4 := by
    cases hx : index with
    | none => exact Nat.lt_succ_self _
    | some j =>
        have := hi j hx
        have := h.count_eq
        show j < maxUint32 + 1
        omega
  have hword : Memory.Disjoint (f.address f.count) 4 (f.address f.count + 4) value.length :=
    .inl (Nat.le_refl _)
  -- the bytes of the records in front stay
  have hout (i : Nat) (hi : i < f.address f.count) :
      ((f.bytes.writeWord (f.address f.count) 4 (encode index)).write (f.address f.count + 4) value) i =
        f.bytes i := by
    rw [Memory.write_outside _ (.inl (by omega)), Memory.writeWord_outside _ (.inl hi)]
  have hold {i : Nat} {n : Option Nat} {row : List UInt8} (hr : l.record i = some (n, row)) :
      f.address i + (4 + row.length) ≤ f.address f.count := by
    have hlt := f.address_add_le (h.count_eq ▸ RecordList.record_lt hr)
    have := h.size i n row hr
    omega
  have hrecord {i : Nat} {n : Option Nat} {row : List UInt8}
      (hr : (l.insert index value hi).1.record i = some (n, row)) :
      (i = f.count ∧ n = index ∧ row = value) ∨ l.record i = some (n, row) := by
    by_cases hil : i = l.count
    · rw [hil, RecordList.insert_record_new] at hr
      cases hr
      exact .inl ⟨hil.trans h.count_eq, rfl, rfl⟩
    · exact .inr ((Function.update_of_ne hil ..).symm.trans hr)
  refine ⟨h.count_eq.symm, rfl, congrArg (· + 1) h.count_eq, hroom, fun i n row hr => ?_,
    fun i n row hr => ?_, fun i n row hr => ?_, ?_, hfit⟩
  · rcases hrecord hr with ⟨rfl, rfl, rfl⟩ | hr
    · exact (Memory.readWord_write_disjoint _ hword).trans (Memory.readWord_writeWord _ henc)
    · have := hold hr
      refine Eq.trans (congrArg Memory.ofLE (Memory.read_congr fun j _ hj => hout j ?_))
        (h.next i n row hr)
      have hj : j < f.address i + 4 := hj
      omega
  · rcases hrecord hr with ⟨rfl, rfl, rfl⟩ | hr
    · exact Memory.holds_write _ _ _
    · have := hold hr
      refine (h.row i n row hr).congr fun j _ hj => hout j ?_
      have hj : j < f.address i + 4 + row.length := hj
      omega
  · rcases hrecord hr with ⟨rfl, rfl, rfl⟩ | hr
    · exact hv
    · exact h.size i n row hr
  · show size.logicalSize = 4 + (f.count + 1) * recordSize
    rw [hlogical]
    have hlog : f.logicalSize = 4 + f.count * recordSize := h.logical
    rw [Nat.succ_mul]
    omega

end RecordListFile

/-! ## 2. The multimap -/

/-- The table of first rows, and the rows. -/
structure MultimapFile (keySize recordSize : Nat) where
  map : TableFile (.record 4) keySize
  records : RecordListFile recordSize

namespace MultimapFile

variable {keySize recordSize : Nat}

/-- The index a start info holds. -/
def readBegin (f : MultimapFile keySize recordSize) (item : Nat) : Nat :=
  f.map.bytes.readWord (f.map.data item) 4

/-- Write an index to a start info. -/
def writeBegin (f : MultimapFile keySize recordSize) (item begin : Nat) :
    TableFile (.record 4) keySize :=
  f.map.writeData item 4 fun _ => Memory.toLE 4 begin

section Calls

variable (hash : Key keySize → Nat) (disk : Disk) (f : MultimapFile keySize recordSize)

/-- `map_.find`; `none` is a search that does not end. -/
def findStart (key : Key keySize) : Option (Option Nat) := f.map.find hash (f.map.count + 1) key

def lookup (key : Key keySize) : Option Nat :=
  (f.findStart hash key).map fun startInfo =>
    match startInfo with
    | none => RecordListFile.empty
    | some item => f.readBegin item

/-- The rows iterating from `lookup` yields (`record_multimap_iterable`). -/
def rows (valueSize : Nat) (key : Key keySize) : Option (List (List UInt8)) :=
  (f.lookup hash key).bind fun begin =>
    f.records.valuesFrom valueSize (f.records.count + 1) begin

/-- A first record for the key. -/
def createNew (key : Key keySize) (value : List UInt8) : Option (MultimapFile keySize recordSize) :=
  (f.records.create disk).bind fun (records, first) =>
    (f.map.store hash disk key (Memory.toLE 4 first)).map fun (map, _) =>
      ⟨map, records.writeRow first value⟩

/-- A record in front of the first one, which is then the first. -/
def addToList (item : Nat) (value : List UInt8) : Option (MultimapFile keySize recordSize) :=
  (f.records.insert disk (f.readBegin item)).map fun (records, newBegin) =>
    ⟨f.writeBegin item newBegin, records.writeRow newBegin value⟩

def addRow (key : Key keySize) (value : List UInt8) : Option (MultimapFile keySize recordSize) :=
  (f.findStart hash key).bind fun startInfo =>
    match startInfo with
    | none => f.createNew hash disk key value
    | some item => f.addToList disk item value

/-- Unlink the key of its last row, else its second row is the first. -/
def deleteLastRow (key : Key keySize) : Option (MultimapFile keySize recordSize × Bool) :=
  (f.findStart hash key).bind fun startInfo =>
    match startInfo with
    | none => some (f, false)
    | some item =>
      let newBegin := f.records.next (f.readBegin item)
      if newBegin = RecordListFile.empty then
        (f.map.unlink hash f.map.count key).map fun (map, b) => (⟨map, f.records⟩, b)
      else some (⟨f.writeBegin item newBegin, f.records⟩, true)

end Calls

/-- **The files hold the multimap**: the table holds the first index under each key, the rows are the
    records. -/
structure Rep (hash : Key keySize → Nat) (disk : Disk) (f : MultimapFile keySize recordSize)
    (m : RecordMultimap (Key keySize) (List UInt8)) : Prop where
  map : ∃ t s, TableFile.Holding hash disk f.map t s ∧
    Stacks.Codes id (Memory.toLE 4) m.map.stack s
  records : f.records.Rep disk m.records

variable {hash : Key keySize → Nat} {disk : Disk} {f f' : MultimapFile keySize recordSize}
  {m : RecordMultimap (Key keySize) (List UInt8)}

/-- Created files hold no row. -/
theorem create_rep (hash : Key keySize → Nat) (hd : disk.size ≤ maxObject) {buckets : Nat}
    (hb : buckets < Memory.limit 4) {bytes bytes' : Memory}
    {map : TableFile (.record 4) keySize} {records : RecordListFile recordSize}
    (hm : TableFile.create (.record 4) keySize disk buckets bytes = some map)
    (hr : RecordListFile.createFile recordSize disk bytes' = some records) :
    Rep hash disk ⟨map, records⟩ (.create hash buckets) ∧ map.count = 0 ∧ records.count = 0 := by
  obtain ⟨⟨t, ht⟩, hfirst⟩ := TableFile.create_holding hash hd hb hm
  obtain ⟨hrows, hzero⟩ := RecordListFile.createFile_rep hr
  refine ⟨⟨⟨t, fun _ => [], ht, fun key => ?_⟩, hrows⟩, hfirst, hzero⟩
  exact (congrArg (List.map _) (Table.create_stack hash buckets 0 key)).symm

theorem Rep.lookup_lt (h : Rep hash disk f m) {key : Key keySize} {begin : Nat}
    (hl : m.lookup key = some begin) : begin < maxUint32 := by
  have := m.lookup_lt hl
  have := h.records.count_eq
  have := h.records.count_le
  omega

/-- A key with rows is found, and its start info holds the first index. -/
theorem Rep.find_some (h : Rep hash disk f m) {key : Key keySize} {begin : Nat}
    (hl : m.lookup key = some begin) :
    ∃ item, f.findStart hash key = some (some item) ∧ f.readBegin item = begin := by
  obtain ⟨t, s, hh, hc⟩ := h.map
  have hs : s key = [Memory.toLE 4 begin] := by
    have hs := hc key
    rw [m.stack_of_lookup_some hl] at hs
    exact hs
  obtain ⟨item, hfind, hread⟩ := hh.found hs
  refine ⟨item, hfind _ (Nat.lt_succ_self _), ?_⟩
  have hholds : f.map.bytes.Holds (f.map.data item) (Memory.toLE 4 begin) := hread
  exact hholds.word (Nat.lt_succ_of_lt (h.lookup_lt hl))

theorem Rep.find_none (h : Rep hash disk f m) {key : Key keySize} (hl : m.lookup key = none) :
    f.findStart hash key = some none := by
  obtain ⟨t, s, hh, hc⟩ := h.map
  refine hh.absent (hc.eq_nil.mpr (m.stack_of_lookup_none hl)) (Nat.lt_succ_self _)

/-- `lookup` on the files. -/
theorem Rep.lookup_eq (h : Rep hash disk f m) (key : Key keySize) :
    f.lookup hash key = some (RecordListFile.encode (m.lookup key)) := by
  unfold lookup
  cases hl : m.lookup key with
  | none =>
      rw [h.find_none hl]
      rfl
  | some begin =>
      obtain ⟨item, hfind, hbegin⟩ := h.find_some hl
      rw [hfind]
      exact congrArg some hbegin

/-- `lookup` and iterating on the files yield the rows of the multimap. -/
theorem Rep.rows_eq (h : Rep hash disk f m) {valueSize : Nat}
    (hsize : ∀ i n row, m.records.record i = some (n, row) → row.length = valueSize)
    (key : Key keySize) : f.rows hash valueSize key = some (m.rows key) := by
  unfold rows
  rw [h.lookup_eq, Option.bind_some, h.records.valuesFrom_eq hsize (fun _ hl => m.lookup_lt hl)
    (Nat.succ_pos _) fun i hl => ?_]
  · rfl
  · have := m.lookup_lt hl
    have := h.records.count_eq
    omega

/-- Writing a first index through the memory of a start info. -/
theorem Rep.writeBegin (h : Rep hash disk f m) {key : Key keySize}
    {item begin : Nat} (begin' : Nat) (hl : m.lookup key = some begin)
    (hfind : f.findStart hash key = some (some item)) {s' : Stacks (Key keySize) Nat}
    (hs' : s' = m.map.stack.modifyTop key fun _ => begin') :
    (∃ t s, TableFile.Holding hash disk (f.writeBegin item begin') t s ∧
      Stacks.Codes id (Memory.toLE 4) s' s) ∧ (f.writeBegin item begin').count = f.map.count := by
  obtain ⟨t, s, hh, hc⟩ := h.map
  have hstack : s key = [Memory.toLE 4 begin] := by
    have hs := hc key
    rw [m.stack_of_lookup_some hl] at hs
    exact hs
  have hlen : (Memory.toLE 4 begin').length = (Memory.toLE 4 begin).length := by simp
  obtain ⟨⟨t', ht'⟩, _⟩ := hh.rewrite hstack hlen (Nat.lt_succ_self _) hfind
  rw [Memory.length_toLE] at ht'
  subst hs'
  exact ⟨⟨t', _, ht', hc.modifyTop Function.injective_id key fun _ _ => rfl⟩, rfl⟩

/-- **`add_row` on the files is `add_row` on the multimap.** -/
theorem Rep.addRow (h : Rep hash disk f m) (hd : disk.size ≤ maxObject) (hsize : recordSize ≤ maxObject)
    (hkey : keySize + 8 ≤ maxObject) (hmap : f.map.count < maxUint32)
    (hrecords : f.records.count < maxUint32) {key : Key keySize} {value : List UInt8}
    (hv : 4 + value.length ≤ recordSize) (hc : f.addRow hash disk key value = some f') :
    Rep hash disk f' (m.addRow key value) ∧ f'.map.count ≤ f.map.count + 1 ∧
      f'.records.count = f.records.count + 1 := by
  unfold MultimapFile.addRow at hc
  unfold RecordMultimap.addRow
  split
  · rename_i hl
    rw [h.find_none hl, Option.bind_some] at hc
    obtain ⟨⟨records, first⟩, hr, hc⟩ := Option.bind_eq_some_iff.mp hc
    obtain ⟨⟨map, off⟩, hm, rfl⟩ := Option.map_eq_some_iff.mp hc
    obtain ⟨hfirst, hcount, hrows⟩ := h.records.insert hd hsize hrecords none
      (fun _ he => by cases he) hv hr
    obtain ⟨t, s, hh, hcodes⟩ := h.map
    have hallowed : (TableFile.Call.store key (Memory.toLE 4 first)).Allowed (.record 4) s := by
      refine ⟨Nat.le_of_eq (Memory.length_toLE 4 _), ?_⟩
      show keySize + 4 + 4 ≤ maxObject
      omega
    obtain ⟨ht', _, hle⟩ := hh.stored hd hallowed (Nat.succ_lt_succ hmap) hm
    refine ⟨⟨⟨_, _, ht', ?_⟩, hrows⟩, Nat.le_of_eq hle, hcount⟩
    rw [hfirst]
    show Stacks.Codes id _ (m.map.store key _ 1 Nat.one_pos).stack _
    rw [Table.store_stack]
    exact hcodes.push Function.injective_id key _
  · rename_i oldBegin hl
    obtain ⟨item, hfind, hbegin⟩ := h.find_some hl
    rw [hfind, Option.bind_some] at hc
    obtain ⟨⟨records, newBegin⟩, hr, rfl⟩ := Option.map_eq_some_iff.mp hc
    rw [hbegin] at hr
    obtain ⟨hnew, hcount, hrows⟩ := h.records.insert hd hsize hrecords (some oldBegin)
      (fun _ he => Option.some.inj he ▸ m.lookup_lt hl) hv hr
    obtain ⟨hmap', hmapCount⟩ := h.writeBegin newBegin hl hfind rfl
    refine ⟨⟨?_, hrows⟩, Nat.le_succ_of_le (Nat.le_of_eq hmapCount), hcount⟩
    rw [hnew] at hmap'
    show ∃ t s, _ ∧ Stacks.Codes id _ (m.map.write key _).stack s
    rw [Table.write_stack, hnew]
    exact hmap'

/-- **A row** takes a record, and an item of the table where it is the first of its key. -/
theorem Rep.addRow_returns (h : Rep hash disk f m) (hd : disk.size ≤ maxObject)
    (hsize : recordSize ≤ maxObject) (hmap : f.map.count < maxUint32)
    (hrecords : f.records.count < maxUint32) (key : Key keySize) (value : List UInt8)
    (hmapFits : disk.Grants (f.map.logicalSize + (keySize + 8)))
    (hfits : disk.Grants (f.records.logicalSize + recordSize)) : ∃ f',
    f.addRow hash disk key value = some f' ∧
      f'.map.logicalSize ≤ f.map.logicalSize + (keySize + 8) ∧
        f'.records.logicalSize = f.records.logicalSize + recordSize := by
  have hinsert (index : Nat) : ∃ records first, f.records.insert disk index = some (records, first) ∧
      records.logicalSize = f.records.logicalSize + recordSize := by
    obtain ⟨size, hreserve⟩ := @Disk.Grants.reserve _ f.records.toMappedSize _ _ hfits (Nat.le_refl _)
    unfold RecordListFile.insert
    rw [RecordListFile.newRecords_eq h.records.logical h.records.fits hd hsize hrecords, hreserve]
    exact ⟨_, _, rfl, (Disk.reserve_eq_some h.records.fits.file_le hreserve).2⟩
  unfold MultimapFile.addRow
  cases hl : m.lookup key with
  | none =>
      obtain ⟨records, first, hr, hlog⟩ := hinsert RecordListFile.empty
      obtain ⟨t, s, hh, _⟩ := h.map
      obtain ⟨map, off, hm, hlog'⟩ := hh.store_returns hd key (Memory.toLE 4 first)
        (Nat.le_of_eq (Memory.length_toLE 4 _)) (Nat.succ_lt_succ hmap) hmapFits
      refine ⟨⟨map, records.writeRow first value⟩, ?_, Nat.le_of_eq hlog', hlog⟩
      rw [h.find_none hl, Option.bind_some]
      dsimp only
      unfold createNew RecordListFile.create
      rw [hr, Option.bind_some]
      dsimp only
      rw [hm]
      rfl
  | some begin =>
      obtain ⟨item, hfind, _⟩ := h.find_some hl
      obtain ⟨records, newBegin, hr, hlog⟩ := hinsert (f.readBegin item)
      refine ⟨⟨f.writeBegin item newBegin, records.writeRow newBegin value⟩, ?_,
        Nat.le_add_right _ _, hlog⟩
      rw [hfind, Option.bind_some]
      dsimp only
      unfold addToList
      rw [hr]
      rfl

/-- A key without rows: nothing is deleted. -/
theorem Rep.deleteLastRow_absent (h : Rep hash disk f m) {key : Key keySize}
    (hl : m.lookup key = none) : f.deleteLastRow hash key = some (f, false) := by
  unfold MultimapFile.deleteLastRow
  rw [h.find_none hl]
  rfl

/-- **`delete_last_row` on the files is `delete_last_row` on the multimap.** -/
theorem Rep.deleteLastRow (h : Rep hash disk f m) (key : Key keySize) :
    ∃ f', f.deleteLastRow hash key = some (f', (m.deleteLastRow key).2) ∧
      Rep hash disk f' (m.deleteLastRow key).1 ∧ f'.map.count = f.map.count ∧
      f'.records = f.records := by
  unfold RecordMultimap.deleteLastRow
  split
  · rename_i hl
    exact ⟨f, h.deleteLastRow_absent hl, h, rfl, rfl⟩
  · rename_i oldBegin hl
    obtain ⟨item, hfind, hbegin⟩ := h.find_some hl
    obtain ⟨⟨n, row⟩, hr⟩ := Option.isSome_iff_exists.mp
      ((m.records.isSome_iff oldBegin).mpr (m.lookup_lt hl))
    have hnext : f.records.next oldBegin = RecordListFile.encode (m.records.next oldBegin) := by
      rw [h.records.next oldBegin n row hr, RecordList.next_eq hr]
    have hfile : f.deleteLastRow hash key =
        if RecordListFile.encode (m.records.next oldBegin) = RecordListFile.empty then
          (f.map.unlink hash f.map.count key).map fun (map, b) => (⟨map, f.records⟩, b)
        else some (⟨f.writeBegin item (RecordListFile.encode (m.records.next oldBegin)), f.records⟩,
          true) := by
      unfold MultimapFile.deleteLastRow
      rw [hfind, Option.bind_some]
      dsimp only
      rw [hbegin, hnext]
    split
    · rename_i hn
      rw [hn, if_pos (show RecordListFile.encode none = RecordListFile.empty from rfl)] at hfile
      obtain ⟨t, s, hh, hcodes⟩ := h.map
      have hstack := m.stack_of_lookup_some hl
      have hs : s key ≠ [] := fun he => by
        rw [hcodes.eq_nil.mp he] at hstack
        cases hstack
      obtain ⟨map, hu, ⟨t', ht'⟩, hcount⟩ := hh.unlinks hs
      have hb : (m.unlink key).2 = true := by
        show (m.map.unlinkIfFound key).2 = true
        rw [Table.unlinkIfFound_result, hstack]
        rfl
      refine ⟨⟨map, f.records⟩, ?_, ⟨⟨t', _, ht', ?_⟩, h.records⟩, hcount, rfl⟩
      · rw [hfile, hu, hb]
        rfl
      · show Stacks.Codes id _ (m.map.unlinkIfFound key).1.stack _
        rw [Table.unlinkIfFound_stack]
        exact hcodes.pop Function.injective_id key
    · rename_i newBegin hn
      have hlt : newBegin < m.records.count :=
        Nat.lt_trans (m.records.descends _ _ hn) (m.lookup_lt hl)
      rw [hn, show RecordListFile.encode (some newBegin) = newBegin from rfl,
        if_neg (h.records.ne_empty hlt)] at hfile
      obtain ⟨hmap', hcount⟩ := h.writeBegin newBegin hl hfind rfl
      refine ⟨_, hfile, ⟨?_, h.records⟩, hcount, rfl⟩
      show ∃ t s, _ ∧ Stacks.Codes id _ (m.map.write key _).stack s
      rw [Table.write_stack]
      exact hmap'

end MultimapFile

end Libbitcoin.Database
