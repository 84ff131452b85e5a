/-
  File:      BitprimDatabase/Primitives/TableFile.lean
  Subject:   THE HASH TABLE IN ITS FILE (hash_table_header.ipp, slab_manager.cpp,
             record_manager.cpp, slab_row.ipp, record_row.ipp, memory_map.cpp). The bytes behind
             `slab_hash_table` and `record_hash_table`: the bucket count, the bucket words, the
             stored size or count, the items.

      [ buckets:4 ] [ bucket:w ] ... [ bucket:w ] [ gap:w-4 ] [ size or count:w ] [ items ]
      an item:  [ key ] [ next:w ] [ value ]

  * `Manager` -- the slab manager counts bytes in eight bytes, the record manager records in four;
  * `create`, `store`, `find`, `update`, `unlink`, `forEach`, `sync`, `close`, `start` -- on bytes;
  * `Rep` -- the file holds a `HashTable`; every call on the file does what the call on the table
    does, as long as the counter does not run over.

  A file that is mapped too short is grown as Disk.lean has it, and where the disk has not the
  expansion of what a call needs, `reserve` throws (`none`). What the bytes hold outside the items is
  arbitrary.

  NOT here: the mapping that moves under a remap and its locks (MemoryMap.lean, MappedRows.lean); and
  of `update` only what its comment says: the template hands a `memory_ptr` to a writer that takes a
  serializer, so no call of it can be instantiated, and nothing but the calls of TableCalls.lean
  and Reopen.lean rests on it.
-/
import BitprimDatabase.Lib.Bytes
import BitprimDatabase.Primitives.Disk
import BitprimDatabase.Primitives.Table

namespace Libbitcoin.Database

open Lib

/-- A fixed-size key (`std::array<uint8_t, n>`). -/
abbrev Key (n : Nat) := { l : List UInt8 // l.length = n }

/-- The two allocators; the values of records have a fixed size. -/
inductive Manager where
  | slab
  | record (valueSize : Nat)

/-- `size_t` and `file_offset` are reduced by it. -/
def sizeLimit : Nat := Memory.limit 8

/-- The largest file, and the largest object in memory (`off_t`, `ptrdiff_t`). -/
def maxObject : Nat := 9223372036854775807

namespace Manager

/-- The bytes of a link, of a bucket and of the stored size or count. -/
def width : Manager → Nat
  | slab => 8
  | record _ => 4

/-- What is counted in an empty file: the size word itself, or no record. -/
def first : Manager → Nat
  | slab => 8
  | record _ => 0

/-- The bytes of an item in front of its value. -/
def prefixSize (m : Manager) (keySize : Nat) : Nat := keySize + m.width

/-- `slab_hash_table_header_size`, `record_hash_table_header_size`: what the databases construct the
    manager with. The header of a slab table leaves eight bytes for its four-byte bucket count. -/
def headerSize (m : Manager) (buckets : Nat) : Nat := m.width + m.width * buckets

/-- Where an item starts behind the header (`record_to_position`). -/
def position (m : Manager) (keySize item : Nat) : Nat :=
  match m with
  | slab => item
  | record valueSize => 4 + item * (keySize + 4 + valueSize)

/-- The bytes the file grows by for an item. -/
def itemBytes (m : Manager) (keySize valueSize : Nat) : Nat :=
  match m with
  | slab => keySize + 8 + valueSize
  | record valueSize => keySize + 4 + valueSize

/-- What the counter grows by for an item. -/
def extent (m : Manager) (keySize valueSize : Nat) : Nat :=
  match m with
  | slab => keySize + 8 + valueSize
  | record _ => 1

/-- A value of a record fits in it. -/
def Fits (m : Manager) (value : List UInt8) : Prop :=
  match m with
  | slab => True
  | record valueSize => value.length ≤ valueSize

theorem four_le_width (m : Manager) : 4 ≤ m.width := by
  cases m with
  | slab => exact Nat.le_add_right 4 4
  | record _ => exact Nat.le_refl 4

theorem extent_pos (m : Manager) (keySize valueSize : Nat) : 0 < m.extent keySize valueSize := by
  cases m with
  | slab => exact Nat.add_pos_left (Nat.add_pos_right _ (by decide)) _
  | record _ => exact Nat.one_pos

/-- The counter has room for an item: the record count is four bytes, and its last number is the
    sentinel. A slab table runs out of disk first. -/
def Room (m : Manager) (count : Nat) : Prop :=
  match m with
  | slab => True
  | record _ => count + 1 < Memory.limit 4

theorem position_add_extent (m : Manager) (keySize item valueSize : Nat) :
    m.position keySize (item + m.extent keySize valueSize) =
      m.position keySize item + m.itemBytes keySize valueSize := by
  cases m with
  | slab => rfl
  | record v =>
      show 4 + (item + 1) * (keySize + 4 + v) = 4 + item * (keySize + 4 + v) + (keySize + 4 + v)
      rw [Nat.add_mul, Nat.one_mul]
      omega

/-- An item lies behind the counter. -/
theorem width_le_position {m : Manager} {keySize item : Nat} (h : m.first ≤ item) :
    m.width ≤ m.position keySize item := by
  cases m with
  | slab => exact h
  | record _ => exact Nat.le_add_right _ _

/-- Items stand in the order of their numbers. -/
theorem position_mono (m : Manager) (keySize : Nat) {i j : Nat} (h : i ≤ j) :
    m.position keySize i ≤ m.position keySize j := by
  cases m with
  | slab => exact h
  | record v => exact Nat.add_le_add_left (Nat.mul_le_mul_right _ h) 4

/-- An item has room for its key, its link and a value that fits. -/
theorem size_le_itemBytes {m : Manager} (keySize : Nat) {value : List UInt8} (h : m.Fits value) :
    m.prefixSize keySize + value.length ≤ m.itemBytes keySize value.length := by
  cases m with
  | slab => exact Nat.le_refl _
  | record valueSize =>
      have h : value.length ≤ valueSize := h
      show keySize + 4 + value.length ≤ keySize + 4 + valueSize
      omega

end Manager

/-- The file and what the header and the manager constructed on it hold: `buckets_`,
    `header_size_`, and `payload_size_` or `record_count_`. -/
structure TableFile (m : Manager) (keySize : Nat) extends MappedSize where
  buckets : Nat
  headerSize : Nat
  bytes : Memory
  count : Nat

namespace TableFile

variable {m : Manager} {keySize : Nat}

/-! ## 1. The header and the manager -/

/-- `hash_table_header::empty`. -/
def empty (m : Manager) : Nat := Memory.limit m.width - 1

/-- `hash_table_header::item_position`; of the bucket count it is the end of the buckets. -/
def itemPosition (m : Manager) (index : Nat) : Nat := 4 + index * m.width

def bucketIndex (f : TableFile m keySize) (hash : Key keySize → Nat) (key : Key keySize) : Nat :=
  remainder hash key f.buckets

def readBucket (f : TableFile m keySize) (index : Nat) : Nat :=
  f.bytes.readWord (itemPosition m index) m.width

def readBucketValue (f : TableFile m keySize) (hash : Key keySize → Nat) (key : Key keySize) : Nat :=
  f.readBucket (f.bucketIndex hash key)

def link (f : TableFile m keySize) (hash : Key keySize → Nat) (key : Key keySize) (begin : Nat) :
    TableFile m keySize :=
  { f with bytes := f.bytes.writeWord (itemPosition m (f.bucketIndex hash key)) m.width begin }

/-- `slab_manager::get`, `record_manager::get`. -/
def address (f : TableFile m keySize) (item : Nat) : Nat :=
  (f.headerSize + m.position keySize item) % sizeLimit

/-- The user data of an item (`raw_data(prefix_size)`). -/
def data (f : TableFile m keySize) (item : Nat) : Nat := f.address item + m.prefixSize keySize

def compare (f : TableFile m keySize) (item : Nat) (key : Key keySize) : Bool :=
  f.bytes.read (f.address item) keySize == key.val

def nextPosition (f : TableFile m keySize) (item : Nat) : Nat :=
  f.bytes.readWord (f.address item + keySize) m.width

def writeNextPosition (f : TableFile m keySize) (item next : Nat) : TableFile m keySize :=
  { f with bytes := f.bytes.writeWord (f.address item + keySize) m.width next }

/-- `slab_manager::new_slab`, `record_manager::new_records(1)`. -/
def newItem (f : TableFile m keySize) (disk : Disk) (valueSize : Nat) :
    Option (TableFile m keySize × Nat) :=
  let item := f.count
  let count := (f.count + m.extent keySize valueSize) % Memory.limit m.width
  (disk.reserve f.toMappedSize ((f.headerSize + m.position keySize count) % sizeLimit)).map
    fun size => ({ f with toMappedSize := size, count := count }, item)

/-- `sync`: write the size or count to the file. -/
def sync (f : TableFile m keySize) : TableFile m keySize :=
  { f with bytes := f.bytes.writeWord f.headerSize m.width f.count }

/-! ## 2. The calls -/

/-- `header.create` and `manager.create` on an opened file of one byte, whatever it holds. -/
def create (m : Manager) (keySize : Nat) (disk : Disk) (buckets : Nat) (bytes : Memory) :
    Option (TableFile m keySize) :=
  if buckets = 0 then none
  else
    (disk.resize ⟨1, 1⟩ (itemPosition m buckets)).bind fun size =>
      let f : TableFile m keySize :=
        { toMappedSize := size
          buckets := buckets
          headerSize := m.headerSize buckets
          bytes := (bytes.writeWord 0 4 buckets).write 4 (List.replicate (buckets * m.width) 255)
          count := m.first }
      (disk.resize size (f.headerSize + m.position keySize m.first)).map fun size =>
        sync { f with toMappedSize := size }

/-- Create the item (`row.create`): key and value. -/
def createItem (f : TableFile m keySize) (disk : Disk) (key : Key keySize) (value : List UInt8) :
    Option (TableFile m keySize × Nat) :=
  (f.newItem disk value.length).map fun (f, item) =>
    ({ f with bytes := (f.bytes.write (f.address item) key.val).write (f.data item) value }, item)

/-- The offset of an item's data (`offset`), what `store` and `update` of a slab table answer. -/
def offset (m : Manager) (keySize item : Nat) : Nat := item + m.prefixSize keySize

/-- Link the item to the current first item of its bucket, then the bucket to the item. -/
def store (f : TableFile m keySize) (hash : Key keySize → Nat) (disk : Disk) (key : Key keySize)
    (value : List UInt8) : Option (TableFile m keySize × Nat) :=
  (f.createItem disk key value).map fun (f, item) =>
    ((f.writeNextPosition item (f.readBucketValue hash key)).link hash key item,
      offset m keySize item)

/-- The loop of `find` and `update`; `none` where the fuel does not reach the end. -/
def seek (f : TableFile m keySize) (key : Key keySize) : Nat → Nat → Option (Option Nat)
  | 0, _ => none
  | fuel + 1, current =>
    if current = empty m then some none
    else if f.compare current key then some (some current)
    else if f.nextPosition current = current then some none
    else f.seek key fuel (f.nextPosition current)

def find (f : TableFile m keySize) (hash : Key keySize → Nat) (fuel : Nat) (key : Key keySize) :
    Option (Option Nat) :=
  f.seek key fuel (f.readBucketValue hash key)

/-- Execute a writer against the bytes of a value. -/
def writeData (f : TableFile m keySize) (item size : Nat) (write : List UInt8 → List UInt8) :
    TableFile m keySize :=
  { f with bytes := f.bytes.write (f.data item) (write (f.bytes.read (f.data item) size)) }

/-- Execute a writer against the value of a key that is found; the offset, or 0. -/
def update (f : TableFile m keySize) (hash : Key keySize → Nat) (fuel : Nat) (key : Key keySize)
    (size : Nat) (write : List UInt8 → List UInt8) : Option (TableFile m keySize × Nat) :=
  (f.find hash fuel key).map fun result =>
    match result with
    | none => (f, 0)
    | some item => (f.writeData item size write, offset m keySize item)

/-- Unlink an item from its predecessor. -/
def release (f : TableFile m keySize) (item previous : Nat) : TableFile m keySize :=
  f.writeNextPosition previous (f.nextPosition item)

/-- The loop of `unlink` behind the first item. -/
def unlinkFrom (f : TableFile m keySize) (key : Key keySize) :
    Nat → Nat → Nat → Option (TableFile m keySize × Bool)
  | 0, _, _ => none
  | fuel + 1, previous, current =>
    if current = empty m then some (f, false)
    else if f.compare current key then some (f.release current previous, true)
    else if f.nextPosition current = current then some (f, false)
    else f.unlinkFrom key fuel current (f.nextPosition current)

/-- Unlink the first item with the key. -/
def unlink (f : TableFile m keySize) (hash : Key keySize → Nat) (fuel : Nat) (key : Key keySize) :
    Option (TableFile m keySize × Bool) :=
  let begin := f.readBucketValue hash key
  if f.compare begin key then some (f.link hash key (f.nextPosition begin), true)
  else f.unlinkFrom key fuel begin (f.nextPosition begin)

/-- The loop of `for_each` over one bucket: the data it visits, and whether the function lets it go
    on. -/
def visitFrom (f : TableFile m keySize) (visit : Nat → Bool) : Nat → Nat → Option (List Nat × Bool)
  | 0, _ => none
  | fuel + 1, current =>
    if current = empty m then some ([], true)
    else if !visit (f.data current) then some ([f.data current], false)
    else if f.nextPosition current = current then some ([f.data current], true)
    else (f.visitFrom visit fuel (f.nextPosition current)).map fun r => (f.data current :: r.1, r.2)

/-- The loop of `for_each` over the buckets. -/
def forEachFrom (f : TableFile m keySize) (visit : Nat → Bool) (fuel : Nat) :
    List Nat → Option (List Nat)
  | [] => some []
  | index :: rest =>
    match f.visitFrom visit fuel (f.readBucket index) with
    | none => none
    | some (visited, false) => some visited
    | some (visited, true) => (f.forEachFrom visit fuel rest).map fun l => visited ++ l

/-- What `for_each` visits, up to the first item the function refuses. -/
def forEach (f : TableFile m keySize) (visit : Nat → Bool) (fuel : Nat) : Option (List Nat) :=
  f.forEachFrom visit fuel (List.range f.buckets)

/-! ## 3. Closing and reopening -/

/-- `close` truncates the file to its logical size. -/
structure Closed where
  bytes : Memory
  size : Nat

def close (f : TableFile m keySize) : Closed := ⟨f.bytes, f.logicalSize⟩

/-- `header.start`: a bucket count of 0 trusts what is read from the file. -/
def headerStart (m : Manager) (file : Closed) (buckets : Nat) : Bool :=
  decide (itemPosition m buckets ≤ file.size) &&
    (buckets == 0 || file.bytes.readWord 0 4 == buckets)

/-- A header and a manager constructed on the file with a bucket count, `none` unless both
    start. -/
def start (m : Manager) (keySize : Nat) (file : Closed) (buckets : Nat) :
    Option (TableFile m keySize) :=
  let headerSize := m.headerSize buckets
  let count := file.bytes.readWord headerSize m.width
  if headerStart m file buckets ∧
      (headerSize + m.position keySize count) % sizeLimit ≤ file.size then
    some ⟨⟨file.size, file.size⟩, buckets, headerSize, file.bytes, count⟩
  else none

/-! ## 4. The table a file holds -/

/-- A link as its word. -/
def encode (m : Manager) (link : Option Nat) : Nat := link.getD (empty m)

/-- **The file holds the table.** -/
structure Rep (hash : Key keySize → Nat) (f : TableFile m keySize)
    (t : HashTable (Key keySize) (List UInt8)) : Prop where
  hash_eq : t.hash = hash
  size_eq : t.size = f.buckets
  buckets_pos : 0 < f.buckets
  headerSize_eq : f.headerSize = m.headerSize f.buckets
  stored : f.bytes.readWord 0 4 = f.buckets
  bucket : ∀ i < f.buckets, f.readBucket i = encode m (t.bucket i)
  key : ∀ p r, t.row p = some r → f.bytes.read (f.address p) keySize = r.key.val
  next : ∀ p r, t.row p = some r → f.nextPosition p = encode m r.next
  value : ∀ p r, t.row p = some r → f.bytes.read (f.data p) r.value.length = r.value
  free_eq : t.free = f.count
  count_lt : f.count < Memory.limit m.width
  first_le : m.first ≤ f.count
  row_first : ∀ p r, t.row p = some r → m.first ≤ p
  row_lt : ∀ p r, t.row p = some r → p < t.free
  apart : ∀ p r q, t.row p = some r → p < q → (q = t.free ∨ (t.row q).isSome) →
    m.position keySize p + (m.prefixSize keySize + r.value.length) ≤ m.position keySize q
  logical : f.logicalSize = f.headerSize + m.position keySize f.count
  small : f.logicalSize < sizeLimit

section Rep

variable {hash : Key keySize → Nat} {f : TableFile m keySize}
  {t : HashTable (Key keySize) (List UInt8)}

theorem empty_lt (m : Manager) : empty m < Memory.limit m.width :=
  Nat.sub_lt (Memory.limit_pos _) Nat.one_pos

/-- An item below the counter is not the sentinel. -/
theorem Rep.item_lt (h : Rep hash f t) {p : Nat} (hp : p < t.free) : p < empty m := by
  have := h.count_lt
  have := h.free_eq
  unfold empty
  omega

theorem Rep.bucketIndex_eq (h : Rep hash f t) (key : Key keySize) :
    f.bucketIndex hash key = t.bucketIndex key := by
  unfold bucketIndex HashTable.bucketIndex
  rw [h.hash_eq, h.size_eq]

theorem Rep.bucketIndex_lt (h : Rep hash f t) (key : Key keySize) :
    t.bucketIndex key < f.buckets := by
  have hpos := h.buckets_pos
  unfold HashTable.bucketIndex remainder
  rw [h.size_eq, if_neg (by omega)]
  exact Nat.mod_lt _ hpos

theorem Rep.readBucketValue_eq (h : Rep hash f t) (key : Key keySize) :
    f.readBucketValue hash key = encode m (t.readBucketValue key) := by
  unfold readBucketValue
  rw [h.bucketIndex_eq]
  exact h.bucket _ (h.bucketIndex_lt key)

/-- **The buckets end where the manager starts, or in front of it.** -/
theorem itemPosition_le_headerSize (m : Manager) (buckets : Nat) :
    itemPosition m buckets ≤ m.headerSize buckets := by
  have hfour := m.four_le_width
  unfold itemPosition Manager.headerSize
  rw [Nat.mul_comm]
  omega

/-- A bucket word ends with the buckets. -/
theorem itemPosition_add_width {m : Manager} {i buckets : Nat} (hi : i < buckets) :
    4 ≤ itemPosition m i ∧ itemPosition m i + m.width ≤ itemPosition m buckets := by
  unfold itemPosition
  have hmul : (i + 1) * m.width ≤ buckets * m.width := Nat.mul_le_mul_right _ hi
  rw [Nat.add_mul, Nat.one_mul] at hmul
  exact ⟨Nat.le_add_right _ _, by omega⟩

/-- The bucket words lie in front of the items. -/
theorem Rep.bucket_before (h : Rep hash f t) {i : Nat} (hi : i < f.buckets) :
    4 ≤ itemPosition m i ∧ itemPosition m i + m.width ≤ f.headerSize := by
  obtain ⟨hfour, hend⟩ := itemPosition_add_width (m := m) hi
  rw [h.headerSize_eq]
  exact ⟨hfour, Nat.le_trans hend (itemPosition_le_headerSize m f.buckets)⟩

/-- The bucket count lies in front of the manager. -/
theorem Rep.four_le_headerSize (h : Rep hash f t) : 4 ≤ f.headerSize := by
  have := (h.bucket_before h.buckets_pos).1
  have := (h.bucket_before h.buckets_pos).2
  omega

/-- An address within the file is not reduced. -/
theorem address_eq {item : Nat} (h : f.headerSize + m.position keySize item < sizeLimit) :
    f.address item = f.headerSize + m.position keySize item := Nat.mod_eq_of_lt h

/-- The first address behind the items. -/
theorem Rep.address_count (h : Rep hash f t) : f.address f.count = f.logicalSize := by
  rw [address_eq (h.logical ▸ h.small), h.logical]

/-- An item lies in the file. -/
theorem Rep.address_item (h : Rep hash f t) {p : Nat} {r : Row (Key keySize) (List UInt8)}
    (hr : t.row p = some r) : f.address p = f.headerSize + m.position keySize p := by
  have hend := h.apart p r t.free hr (h.row_lt p r hr) (.inl rfl)
  have hlog := h.logical
  have hsmall := h.small
  rw [h.free_eq] at hend
  exact address_eq (by omega)

theorem Rep.address_ge (h : Rep hash f t) {p : Nat} {r : Row (Key keySize) (List UInt8)}
    (hr : t.row p = some r) : f.headerSize + m.width ≤ f.address p := by
  rw [h.address_item hr]
  exact Nat.add_le_add_left (Manager.width_le_position (h.row_first p r hr)) _

theorem Rep.compare_eq (h : Rep hash f t) {p : Nat} {r : Row (Key keySize) (List UInt8)}
    (hr : t.row p = some r) (key : Key keySize) : f.compare p key = decide (r.key = key) := by
  unfold compare
  rw [h.key p r hr]
  by_cases hk : r.key = key
  · simp [hk]
  · have : r.key.val ≠ key.val := fun he => hk (Subtype.ext he)
    simp [hk, this]

/-! ### find -/

/-- The loop of `find` over a chain. -/
theorem Rep.seek_eq (h : Rep hash f t) (hw : t.WF) (key : Key keySize) {head : Option Nat}
    {ps : List Nat} (hc : Chain t.next head ps) (hps : ∀ p ∈ ps, ∃ r, t.row p = some r) {fuel : Nat}
    (hf : ps.length < fuel) : f.seek key fuel (encode m head) =
      some (ps.find? fun p => (t.valueFor key p).isSome) := by
  induction hc generalizing fuel with
  | nil =>
      cases fuel with
      | zero => exact absurd hf (Nat.not_lt_zero _)
      | succ fuel => simp [seek, encode]
  | cons p ps hc ih =>
      cases fuel with
      | zero => exact absurd hf (Nat.not_lt_zero _)
      | succ fuel =>
          obtain ⟨r, hr⟩ := hps p List.mem_cons_self
          have hp : p ≠ empty m := Nat.ne_of_lt (h.item_lt (hw.row_lt p r hr))
          have hn : t.next p = r.next := by simp [HashTable.next, hr]
          have hself : f.nextPosition p ≠ p := by
            rw [h.next p r hr]
            cases hnr : r.next with
            | none => exact hp.symm
            | some q => exact Nat.ne_of_lt (hw.next_row p r q hr hnr).1
          have ih := ih (fun q hq => hps q (List.mem_cons_of_mem _ hq))
            (Nat.lt_of_succ_lt_succ hf)
          rw [hn, ← h.next p r hr] at ih
          rw [show encode m (some p) = p from rfl]
          unfold seek
          rw [if_neg hp, h.compare_eq hr, if_neg hself, ih]
          by_cases hk : r.key = key
          · simp [HashTable.valueFor, hr, hk]
          · simp [HashTable.valueFor, hr, hk]

/-- **`find` on the file is `find` on the table**: the loop ends within the number of items. -/
theorem Rep.find_eq (h : Rep hash f t) (hw : t.WF) (key : Key keySize) {fuel : Nat}
    (hf : f.count < fuel) : f.find hash fuel key = some (t.find key) := by
  unfold find
  rw [h.readBucketValue_eq, hw.find_eq]
  refine h.seek_eq hw key (hw.chain _) (fun p hp => (hw.mem_chain hp).imp fun _ hr => hr.1) ?_
  have := hw.chain_length (t.bucketIndex key)
  have := h.free_eq
  omega

/-! ### Writes -/

/-- **The words in front of the items, and the counter**: what an allocation and a start look at. -/
structure Headed (f : TableFile m keySize) : Prop where
  buckets_pos : 0 < f.buckets
  headerSize_eq : f.headerSize = m.headerSize f.buckets
  stored : f.bytes.readWord 0 4 = f.buckets
  count_lt : f.count < Memory.limit m.width
  first_le : m.first ≤ f.count
  logical : f.logicalSize = f.headerSize + m.position keySize f.count
  small : f.logicalSize < sizeLimit

theorem Rep.headed (h : Rep hash f t) : f.Headed :=
  ⟨h.buckets_pos, h.headerSize_eq, h.stored, h.count_lt, h.first_le, h.logical, h.small⟩

/-- The counter after an item with room for it, and the size the file is reserved at. -/
theorem Headed.newItem_eq (h : f.Headed) {disk : Disk} (hd : disk.size ≤ maxObject)
    (hl : disk.Fits f.toMappedSize) {valueSize : Nat} (hv : m.itemBytes keySize valueSize ≤ maxObject)
    (hroom : m.Room f.count) :
    f.count + m.extent keySize valueSize < Memory.limit m.width ∧
      f.newItem disk valueSize =
        (disk.reserve f.toMappedSize (f.logicalSize + m.itemBytes keySize valueSize)).map
          fun size => ({ f with
            toMappedSize := size
            count := f.count + m.extent keySize valueSize }, f.count) := by
  have hl := hl.le
  have hlog := h.logical
  have hlim : sizeLimit = 18446744073709551616 := rfl
  have hmax : maxObject = 9223372036854775807 := rfl
  have hsum : f.headerSize + (m.position keySize f.count + m.itemBytes keySize valueSize) =
      f.logicalSize + m.itemBytes keySize valueSize := by omega
  have hlt : f.logicalSize + m.itemBytes keySize valueSize < sizeLimit := by omega
  have hcount : f.count + m.extent keySize valueSize < Memory.limit m.width := by
    cases m with
    | slab =>
        have hpos : f.logicalSize = f.headerSize + f.count := hlog
        have hlt : f.logicalSize + (keySize + 8 + valueSize) < Memory.limit 8 := hlt
        show f.count + (keySize + 8 + valueSize) < Memory.limit 8
        omega
    | record v => exact hroom
  refine ⟨hcount, ?_⟩
  unfold newItem
  dsimp only
  rw [Nat.mod_eq_of_lt hcount, Manager.position_add_extent, hsum, Nat.mod_eq_of_lt hlt]

theorem Rep.newItem_eq (h : Rep hash f t) {disk : Disk} (hd : disk.size ≤ maxObject)
    (hl : disk.Fits f.toMappedSize) {valueSize : Nat} (hv : m.itemBytes keySize valueSize ≤ maxObject)
    (hroom : m.Room f.count) :
    f.count + m.extent keySize valueSize < Memory.limit m.width ∧
      f.newItem disk valueSize =
        (disk.reserve f.toMappedSize (f.logicalSize + m.itemBytes keySize valueSize)).map
          fun size => ({ f with
            toMappedSize := size
            count := f.count + m.extent keySize valueSize }, f.count) :=
  h.headed.newItem_eq hd hl hv hroom

/-- The bytes of an item: key, link and value. -/
def itemSize (m : Manager) (r : Row (Key keySize) (List UInt8)) : Nat :=
  m.prefixSize keySize + r.value.length

/-- The bytes of two items are apart. -/
theorem Rep.items_disjoint (h : Rep hash f t) {p q : Nat} {r r' : Row (Key keySize) (List UInt8)}
    (hr : t.row p = some r) (hr' : t.row q = some r') (hne : p ≠ q) :
    Memory.Disjoint (f.address p) (itemSize m r) (f.address q) (itemSize m r') := by
  unfold Memory.Disjoint itemSize
  rw [h.address_item hr, h.address_item hr']
  rcases Nat.lt_or_gt_of_ne hne with hlt | hlt
  · have := h.apart p r q hr hlt (.inr (by rw [hr']; rfl))
    exact .inl (by omega)
  · have := h.apart q r' p hr' hlt (.inr (by rw [hr]; rfl))
    exact .inr (by omega)

/-- What the bytes of an item say. -/
structure Holds (f : TableFile m keySize) (p : Nat) (r : Row (Key keySize) (List UInt8)) :
    Prop where
  key : f.bytes.read (f.address p) keySize = r.key.val
  next : f.nextPosition p = encode m r.next
  value : f.bytes.read (f.data p) r.value.length = r.value

theorem Rep.holds (h : Rep hash f t) {p : Nat} {r : Row (Key keySize) (List UInt8)}
    (hr : t.row p = some r) : f.Holds p r := ⟨h.key p r hr, h.next p r hr, h.value p r hr⟩

/-- An item is left alone by writes outside its bytes. -/
theorem Holds.congr {f : TableFile m keySize} {p : Nat} {r : Row (Key keySize) (List UInt8)}
    (h : f.Holds p r) {bytes : Memory} (he : ∀ i, f.address p ≤ i →
      i < f.address p + itemSize m r → bytes i = f.bytes i) :
    ({ f with bytes := bytes } : TableFile m keySize).Holds p r := by
  unfold itemSize Manager.prefixSize at he
  refine ⟨?_, ?_, ?_⟩
  · refine (Memory.read_congr fun i h₁ h₂ => he i ?_ ?_).trans h.key
    · exact h₁
    · have h₂ : i < f.address p + keySize := h₂
      omega
  · refine (congrArg Memory.ofLE (Memory.read_congr fun i h₁ h₂ => he i ?_ ?_)).trans h.next
    · have h₁ : f.address p + keySize ≤ i := h₁
      omega
    · have h₂ : i < f.address p + keySize + m.width := h₂
      omega
  · refine (Memory.read_congr fun i h₁ h₂ => he i ?_ ?_).trans h.value
    · have h₁ : f.address p + (keySize + m.width) ≤ i := h₁
      omega
    · have h₂ : i < f.address p + (keySize + m.width) + r.value.length := h₂
      omega

/-- A rewritten file holds a rewritten table: the same items, of the same sizes. -/
theorem Rep.rewrite (h : Rep hash f t) {bytes : Memory}
    {t' : HashTable (Key keySize) (List UInt8)} (hhash : t'.hash = t.hash) (hsize : t'.size = t.size)
    (hfree : t'.free = t.free) (hstored : ∀ i < 4, bytes i = f.bytes i)
    (hbucket : ∀ i < f.buckets,
      bytes.readWord (itemPosition m i) m.width = encode m (t'.bucket i))
    (hrow : ∀ p r', t'.row p = some r' → ({ f with bytes := bytes } : TableFile m keySize).Holds p r' ∧
      ∃ r, t.row p = some r ∧ r'.value.length = r.value.length) :
    Rep hash ({ f with bytes := bytes } : TableFile m keySize) t' where
  hash_eq := hhash.trans h.hash_eq
  size_eq := hsize.trans h.size_eq
  buckets_pos := h.buckets_pos
  headerSize_eq := h.headerSize_eq
  stored := by
    refine (congrArg Memory.ofLE (Memory.read_congr fun i _ hi => hstored i ?_)).trans h.stored
    omega
  bucket := hbucket
  key p r hr := (hrow p r hr).1.key
  next p r hr := (hrow p r hr).1.next
  value p r hr := (hrow p r hr).1.value
  free_eq := hfree.trans h.free_eq
  count_lt := h.count_lt
  first_le := h.first_le
  row_first p r hr := by
    obtain ⟨_, r₀, hr₀, _⟩ := hrow p r hr
    exact h.row_first p r₀ hr₀
  row_lt p r hr := by
    obtain ⟨_, r₀, hr₀, _⟩ := hrow p r hr
    exact hfree ▸ h.row_lt p r₀ hr₀
  apart p r q hr hlt hq := by
    obtain ⟨_, r₀, hr₀, hl⟩ := hrow p r hr
    rw [hl]
    refine h.apart p r₀ q hr₀ hlt ?_
    rcases hq with hq | hq
    · exact .inl (hq.trans hfree)
    · obtain ⟨r', hr'⟩ := Option.isSome_iff_exists.mp hq
      obtain ⟨_, r₁, hr₁, _⟩ := hrow q r' hr'
      exact .inr (by rw [hr₁]; rfl)
  logical := h.logical
  small := h.small

/-- The bucket words and the count lie in the file. -/
theorem Headed.headerSize_le (h : f.Headed) : 4 ≤ f.headerSize ∧
    itemPosition m f.buckets ≤ f.headerSize ∧ f.headerSize + m.width ≤ f.logicalSize := by
  have hcount : m.width ≤ m.position keySize f.count := Manager.width_le_position h.first_le
  have hend := itemPosition_le_headerSize m f.buckets
  have hfour : 4 ≤ itemPosition m f.buckets := Nat.le_add_right _ _
  have := h.logical
  rw [← h.headerSize_eq] at hend
  exact ⟨Nat.le_trans hfour hend, hend, by omega⟩

theorem Rep.headerSize_le (h : Rep hash f t) : 4 ≤ f.headerSize ∧
    f.headerSize + m.width ≤ f.logicalSize := by
  have hcount : m.width ≤ m.position keySize f.count := Manager.width_le_position h.first_le
  have := h.logical
  exact ⟨h.four_le_headerSize, by omega⟩

/-- An item ends below the logical size. -/
theorem Rep.item_le (h : Rep hash f t) (hw : t.WF) {p : Nat}
    {r : Row (Key keySize) (List UInt8)} (hr : t.row p = some r) :
    f.address p + itemSize m r ≤ f.address f.count := by
  have hend := h.apart p r t.free hr (hw.row_lt p r hr) (.inl rfl)
  have hlog := h.logical
  rw [h.free_eq] at hend
  unfold itemSize
  rw [h.address_count, h.address_item hr]
  omega

/-- **The count word and what stands behind the end are no part of the table.** -/
theorem Rep.frame (h : Rep hash f t) (hw : t.WF) {bytes : Memory} (he : ∀ i < f.logicalSize,
      i < f.headerSize ∨ f.headerSize + m.width ≤ i → bytes i = f.bytes i) :
    Rep hash ({ f with bytes := bytes } : TableFile m keySize) t := by
  obtain ⟨hfour, hhead⟩ := h.headerSize_le
  have hlog := h.address_count
  refine h.rewrite rfl rfl rfl (fun i hi => he i (by omega) (.inl (by omega))) (fun i hi => ?_)
    fun p r hr => ⟨(h.holds hr).congr fun i h₁ h₂ => he i ?_ (.inr ?_), r, hr, rfl⟩
  · have := (h.bucket_before hi).2
    refine (congrArg Memory.ofLE (Memory.read_congr fun j _ hj => he j ?_ (.inl ?_))).trans
      (h.bucket i hi)
    · omega
    · omega
  · have := h.item_le hw hr
    omega
  · have := h.address_ge hr
    omega

/-- The word a link is written as. -/
theorem Rep.encode_lt (h : Rep hash f t) {link : Option Nat} (hl : ∀ p, link = some p → p < t.free) :
    encode m link < Memory.limit m.width := by
  cases link with
  | none => exact empty_lt m
  | some p =>
      have := h.item_lt (hl p rfl)
      have := empty_lt m
      show p < _
      omega

/-- **A bucket write.** -/
theorem Rep.link (h : Rep hash f t) {key : Key keySize} {begin : Option Nat}
    (hb : ∀ p, begin = some p → p < t.free) :
    Rep hash (f.link hash key (encode m begin)) (t.link key begin) := by
  have hlt := h.bucketIndex_lt key
  obtain ⟨hge, hle⟩ := h.bucket_before hlt
  have hidx := h.bucketIndex_eq key
  have hout (i : Nat) (hi : i < itemPosition m (t.bucketIndex key) ∨
      itemPosition m (t.bucketIndex key) + m.width ≤ i) :
      f.bytes.writeWord (itemPosition m (t.bucketIndex key)) m.width (encode m begin) i =
        f.bytes i := Memory.writeWord_outside _ hi
  unfold TableFile.link
  rw [hidx]
  refine h.rewrite rfl rfl rfl (fun i hi => hout i (.inl (by omega))) (fun i hi => ?_)
    fun p r hr => ⟨(h.holds hr).congr fun i hi _ => hout i (.inr ?_), r, hr, rfl⟩
  · show _ = encode m (Function.update t.bucket (t.bucketIndex key) begin i)
    by_cases he : i = t.bucketIndex key
    · subst he
      rw [Function.update_self, Memory.readWord_writeWord _ (h.encode_lt hb)]
    · rw [Function.update_of_ne he, Memory.readWord_writeWord_disjoint]
      · exact h.bucket i hi
      · unfold Memory.Disjoint itemPosition
        rcases Nat.lt_or_gt_of_ne he with hlt' | hlt'
        · have := Nat.mul_le_mul_right m.width (Nat.succ_le_of_lt hlt')
          rw [Nat.succ_mul] at this
          exact .inl (by omega)
        · have := Nat.mul_le_mul_right m.width (Nat.succ_le_of_lt hlt')
          rw [Nat.succ_mul] at this
          exact .inr (by omega)
  · have := h.address_ge hr
    omega

/-- **One item is rewritten**, within its bytes and to the same size. -/
theorem Rep.rewriteItem (h : Rep hash f t) {q : Nat} {rq : Row (Key keySize) (List UInt8)}
    (hq : t.row q = some rq)
    (edit : Row (Key keySize) (List UInt8) → Row (Key keySize) (List UInt8)) {bytes : Memory}
    (hout : ∀ i, i < f.address q ∨ f.address q + itemSize m rq ≤ i → bytes i = f.bytes i)
    (hholds : ({ f with bytes := bytes } : TableFile m keySize).Holds q (edit rq))
    (hlength : (edit rq).value.length = rq.value.length) :
    Rep hash ({ f with bytes := bytes } : TableFile m keySize)
      { t with row := Function.update t.row q ((t.row q).map edit) } := by
  have hge := h.address_ge hq
  have hhead := h.four_le_headerSize
  refine h.rewrite rfl rfl rfl (fun i hi => hout i (.inl (by omega))) (fun i hi => ?_)
    fun p r hr => ?_
  · refine (congrArg Memory.ofLE (Memory.read_congr fun j _ hj => hout j (.inl ?_))).trans
      (h.bucket i hi)
    have := (h.bucket_before hi).2
    omega
  · by_cases hp : p = q
    · subst hp
      have hr' : some (edit rq) = some r := by
        rw [← hr]
        show _ = Function.update t.row p _ p
        rw [Function.update_self, hq]
        rfl
      cases hr'
      exact ⟨hholds, rq, hq, hlength⟩
    · have hr' : t.row p = some r := by
        rw [← hr]
        exact (Function.update_of_ne hp _ _).symm
      refine ⟨(h.holds hr').congr fun i h₁ h₂ => hout i ?_, r, hr', rfl⟩
      have := h.items_disjoint hr' hq hp
      unfold Memory.Disjoint at this
      omega

/-- **A link write.** -/
theorem Rep.writeNext (h : Rep hash f t) {q : Nat} {rq : Row (Key keySize) (List UInt8)}
    (hq : t.row q = some rq) {next : Option Nat} (hn : ∀ p, next = some p → p < t.free) :
    Rep hash (f.writeNextPosition q (encode m next)) (t.writeNext q next) := by
  have hpre : m.prefixSize keySize = keySize + m.width := rfl
  have hsize : itemSize m rq = m.prefixSize keySize + rq.value.length := rfl
  have hout (i : Nat) (hi : i < f.address q + keySize ∨ f.address q + keySize + m.width ≤ i) :
      f.bytes.writeWord (f.address q + keySize) m.width (encode m next) i = f.bytes i :=
    Memory.writeWord_outside _ hi
  refine h.rewriteItem hq (fun r => { r with next := next }) (fun i hi => hout i ?_) ⟨?_, ?_, ?_⟩ rfl
  · omega
  · refine (Memory.read_congr fun i h₁ h₂ => hout i (.inl ?_)).trans (h.key q rq hq)
    exact h₂
  · exact Memory.readWord_writeWord _ (h.encode_lt hn)
  · refine (Memory.read_congr fun i h₁ h₂ => hout i (.inr ?_)).trans (h.value q rq hq)
    have h₁ : f.address q + m.prefixSize keySize ≤ i := h₁
    omega

/-- **A write of a value that keeps its size.** -/
theorem Rep.writeData (h : Rep hash f t) {q : Nat} {rq : Row (Key keySize) (List UInt8)}
    (hq : t.row q = some rq) {write : List UInt8 → List UInt8}
    (hs : (write rq.value).length = rq.value.length) :
    Rep hash (f.writeData q rq.value.length write) (t.writeValue q write) := by
  have hpre : m.prefixSize keySize = keySize + m.width := rfl
  have hsize : itemSize m rq = m.prefixSize keySize + rq.value.length := rfl
  have hdata : f.data q = f.address q + m.prefixSize keySize := rfl
  have hout (i : Nat) (hi : i < f.data q ∨ f.data q + rq.value.length ≤ i) :
      f.bytes.write (f.data q) (write rq.value) i = f.bytes i :=
    Memory.write_outside _ (by rwa [hs])
  unfold TableFile.writeData
  rw [h.value q rq hq]
  refine h.rewriteItem hq (fun r => { r with value := write r.value }) (fun i hi => hout i ?_)
    ⟨?_, ?_, ?_⟩ hs
  · omega
  · refine (Memory.read_congr fun i h₁ h₂ => hout i (.inl ?_)).trans (h.key q rq hq)
    have h₂ : i < f.address q + keySize := h₂
    omega
  · refine (congrArg Memory.ofLE (Memory.read_congr fun i h₁ h₂ => hout i (.inl ?_))).trans
      (h.next q rq hq)
    have h₂ : i < f.address q + keySize + m.width := h₂
    omega
  · exact Memory.read_write _ _ _

/-! ### store -/

/-- The bytes with an item behind the last one, and its link; the bucket does not lead to it yet. -/
def appendedBytes (f : TableFile m keySize) (key : Key keySize) (value : List UInt8)
    (next : Option Nat) : Memory :=
  ((f.bytes.write (f.address f.count) key.val).write (f.data f.count) value).writeWord
    (f.address f.count + keySize) m.width (encode m next)

theorem appendedBytes_outside (f : TableFile m keySize) (key : Key keySize) (value : List UInt8)
    (next : Option Nat) {i : Nat} (hi : i < f.address f.count ∨
      f.address f.count + (m.prefixSize keySize + value.length) ≤ i) :
    f.appendedBytes key value next i = f.bytes i := by
  have hkey := key.property
  have hpre : m.prefixSize keySize = keySize + m.width := rfl
  have hdata : f.data f.count = f.address f.count + m.prefixSize keySize := rfl
  unfold appendedBytes
  rw [Memory.writeWord_outside _ (by omega), Memory.write_outside _ (by omega),
    Memory.write_outside _ (by omega)]

/-- The new item is in its bytes. -/
theorem appendedBytes_holds (f : TableFile m keySize) (key : Key keySize) (value : List UInt8)
    {next : Option Nat} (hn : encode m next < Memory.limit m.width) :
    ({ f with bytes := f.appendedBytes key value next } : TableFile m keySize).Holds f.count
      ⟨key, next, value⟩ := by
  have hkey := key.property
  have hpre : m.prefixSize keySize = keySize + m.width := rfl
  have hdata : f.data f.count = f.address f.count + m.prefixSize keySize := rfl
  let bytes := (f.bytes.write (f.address f.count) key.val).write (f.data f.count) value
  refine ⟨?_, Memory.readWord_writeWord _ hn, ?_⟩
  · show (f.appendedBytes key value next).read (f.address f.count) keySize = key.val
    have h₁ : (f.appendedBytes key value next).read (f.address f.count) keySize =
        bytes.read (f.address f.count) keySize :=
      Memory.read_writeWord_disjoint _ (.inl (Nat.le_refl _))
    have h₂ : bytes.read (f.address f.count) keySize =
        (f.bytes.write (f.address f.count) key.val).read (f.address f.count) keySize :=
      Memory.read_write_disjoint _ (.inl (by omega))
    have h₃ := f.bytes.read_write (f.address f.count) key.val
    rw [h₁, h₂]
    rwa [hkey] at h₃
  · show (f.appendedBytes key value next).read (f.data f.count) value.length = value
    have h₁ : (f.appendedBytes key value next).read (f.data f.count) value.length =
        bytes.read (f.data f.count) value.length :=
      Memory.read_writeWord_disjoint _ (.inr (by omega))
    rw [h₁]
    exact Memory.read_write _ _ _

/-- The new item stands behind all that is linked and in use. -/
theorem Rep.le_address_count (h : Rep hash f t) : f.headerSize + m.width ≤ f.address f.count := by
  rw [h.address_count, h.logical]
  exact Nat.add_le_add_left (Manager.width_le_position h.first_le) _

/-- The rows of the file with the new item: its own, and the old ones. -/
theorem Rep.appended_holds (h : Rep hash f t) (hw : t.WF) (key : Key keySize) (value : List UInt8)
    {t₁ : HashTable (Key keySize) (List UInt8)}
    (hrow : ∀ p, t₁.row p = if p = t.free then some ⟨key, t.readBucketValue key, value⟩ else t.row p)
    {p : Nat} {r : Row (Key keySize) (List UInt8)} (hr : t₁.row p = some r) :
    ({ f with bytes := f.appendedBytes key value (t.readBucketValue key) } :
      TableFile m keySize).Holds p r := by
  rw [hrow] at hr
  split at hr
  · rename_i hp
    cases hr
    rw [hp, h.free_eq]
    exact f.appendedBytes_holds key value (h.encode_lt fun p hp => hw.bucket_lt hp)
  · refine (h.holds hr).congr fun i h₁ h₂ => f.appendedBytes_outside key value _ ?_
    have := h.item_le hw hr
    omega

/-- The items behind the new one: it ends at the new end, and the old ones in front of it. -/
theorem Rep.appended_apart (h : Rep hash f t) (hw : t.WF) (key : Key keySize) {value : List UInt8}
    (hfits : m.Fits value) {t₁ : HashTable (Key keySize) (List UInt8)}
    (hrow : ∀ p, t₁.row p = if p = t.free then some ⟨key, t.readBucketValue key, value⟩ else t.row p)
    (hfree : t₁.free = t.free + m.extent keySize value.length)
    {p q : Nat} {r : Row (Key keySize) (List UInt8)} (hr : t₁.row p = some r) (hlt : p < q)
    (hq : q = t₁.free ∨ (t₁.row q).isSome) :
    m.position keySize p + (m.prefixSize keySize + r.value.length) ≤ m.position keySize q := by
  have hstep : m.position keySize t.free + m.itemBytes keySize value.length =
      m.position keySize t₁.free := by
    rw [hfree, Manager.position_add_extent]
  have hsize := Manager.size_le_itemBytes keySize hfits
  rw [hrow] at hr
  split at hr
  · -- the new item, with no other behind it
    rename_i hp
    cases hr
    rcases hq with rfl | hq
    · rw [hp]
      show m.position keySize t.free + (m.prefixSize keySize + value.length) ≤ _
      omega
    · obtain ⟨r', hr'⟩ := Option.isSome_iff_exists.mp hq
      rw [hrow, if_neg (by omega)] at hr'
      have := hw.row_lt q r' hr'
      omega
  · have hold := h.apart p r t.free hr (hw.row_lt p r hr) (.inl rfl)
    rcases hq with rfl | hq
    · omega
    · obtain ⟨r', hr'⟩ := Option.isSome_iff_exists.mp hq
      rw [hrow] at hr'
      split at hr'
      · rename_i hq
        rw [hq]
        exact hold
      · exact h.apart p r q hr hlt (.inr (by rw [hr']; rfl))

/-- **The file with the new item, which no bucket leads to yet.** -/
theorem Rep.appended (h : Rep hash f t) (hw : t.WF) (key : Key keySize) {value : List UInt8}
    (hfits : m.Fits value) (hcount : f.count + m.extent keySize value.length < Memory.limit m.width)
    {size : MappedSize} (hsize : size.logicalSize = f.logicalSize + m.itemBytes keySize value.length)
    (hsmall : size.logicalSize < sizeLimit) :
    Rep hash ({ f with
      toMappedSize := size
      bytes := f.appendedBytes key value (t.readBucketValue key)
      count := f.count + m.extent keySize value.length } : TableFile m keySize)
      ((t.allocate key value (m.extent keySize value.length)).writeNext t.free
        (t.readBucketValue key)) := by
  have hge := h.le_address_count
  have hhead := h.four_le_headerSize
  have hout (i : Nat) (hi : i < f.address f.count) :
      f.appendedBytes key value (t.readBucketValue key) i = f.bytes i :=
    f.appendedBytes_outside key value _ (.inl hi)
  let t₁ : HashTable (Key keySize) (List UInt8) :=
    (t.allocate key value (m.extent keySize value.length)).writeNext t.free (t.readBucketValue key)
  have hrow (p : Nat) : t₁.row p =
      if p = t.free then some ⟨key, t.readBucketValue key, value⟩ else t.row p :=
    HashTable.store_row t key value (m.extent keySize value.length) p
  show Rep hash _ t₁
  exact
    { hash_eq := h.hash_eq
      size_eq := h.size_eq
      buckets_pos := h.buckets_pos
      headerSize_eq := h.headerSize_eq
      stored := by
        refine (congrArg Memory.ofLE (Memory.read_congr fun i _ hi => hout i ?_)).trans h.stored
        omega
      bucket := fun i hi => by
        have := (h.bucket_before hi).2
        refine (congrArg Memory.ofLE (Memory.read_congr fun j _ hj => hout j ?_)).trans
          (h.bucket i hi)
        omega
      key := fun p r hr => (h.appended_holds hw key value hrow hr).key
      next := fun p r hr => (h.appended_holds hw key value hrow hr).next
      value := fun p r hr => (h.appended_holds hw key value hrow hr).value
      free_eq := congrArg (· + m.extent keySize value.length) h.free_eq
      count_lt := hcount
      first_le := Nat.le_trans h.first_le (Nat.le_add_right _ _)
      row_first := fun p r hr => by
        rw [hrow] at hr
        split at hr
        · rename_i hp
          rw [hp, h.free_eq]
          exact h.first_le
        · exact h.row_first p r hr
      row_lt := fun p r hr => by
        have hpos := m.extent_pos keySize value.length
        show p < t.free + m.extent keySize value.length
        rw [hrow] at hr
        split at hr
        · omega
        · have := hw.row_lt p r hr
          omega
      apart := fun p r q hr hlt hq => h.appended_apart hw key hfits hrow rfl hr hlt hq
      logical := by
        have := h.logical
        have := Manager.position_add_extent m keySize f.count value.length
        show size.logicalSize = f.headerSize + m.position keySize (f.count + _)
        omega
      small := hsmall }

/-- **`store` on the file is `store` on the table**, where it does not throw. -/
theorem Rep.store (h : Rep hash f t) (hw : t.WF) {disk : Disk} (hd : disk.size ≤ maxObject)
    (hl : disk.Fits f.toMappedSize) (key : Key keySize) {value : List UInt8} (hfits : m.Fits value)
    (hv : m.itemBytes keySize value.length ≤ maxObject) (hroom : m.Room f.count)
    {f' : TableFile m keySize} {off : Nat} (hs : f.store hash disk key value = some (f', off)) :
    Rep hash f' (t.store key value (m.extent keySize value.length)).1 ∧
      off = offset m keySize t.free ∧ disk.Fits f'.toMappedSize ∧
      f'.logicalSize = f.logicalSize + m.itemBytes keySize value.length := by
  obtain ⟨hcount, hnew⟩ := h.newItem_eq hd hl hv hroom
  unfold TableFile.store createItem at hs
  rw [hnew, Option.map_map] at hs
  obtain ⟨⟨⟨size, _⟩, _⟩, hcreated, hs⟩ := Option.map_eq_some_iff.mp hs
  obtain ⟨size, hreserve, hcreated⟩ := Option.map_eq_some_iff.mp hcreated
  obtain ⟨hfit, hsize⟩ := Disk.reserve_eq_some hl.file_le hreserve
  cases hcreated
  cases hs
  refine ⟨?_, by rw [h.free_eq], hfit, hsize⟩
  have hsmall : size.logicalSize < sizeLimit := Nat.lt_of_le_of_lt (Nat.le_trans hfit.le hd) (by decide)
  have happended := h.appended hw key hfits hcount hsize hsmall
  have hlink := @Rep.link _ _ _ _ _ happended key (some t.free) fun p hp => by
    cases hp
    exact Nat.lt_add_of_pos_right (m.extent_pos keySize value.length)
  rw [show encode m (some t.free) = f.count from h.free_eq] at hlink
  -- the item is created and linked to what its bucket leads to
  let created : TableFile m keySize :=
    { f with
      toMappedSize := size
      bytes := (f.bytes.write (f.address f.count) key.val).write (f.data f.count) value
      count := f.count + m.extent keySize value.length }
  have hval : created.readBucketValue hash key = encode m (t.readBucketValue key) := by
    have hge : f.headerSize ≤ f.address f.count := by
      rw [h.address_count, h.logical]
      exact Nat.le_add_right _ _
    have hbucket := (h.bucket_before (h.bucketIndex_lt key)).2
    have hkey := key.property
    have hdata : f.data f.count = f.address f.count + m.prefixSize keySize := rfl
    rw [← h.readBucketValue_eq]
    refine congrArg Memory.ofLE (Memory.read_congr fun i _ hi => ?_)
    have hi : i < itemPosition m (f.bucketIndex hash key) + m.width := hi
    rw [h.bucketIndex_eq] at hi
    show Memory.write _ _ _ i = _
    rw [Memory.write_outside _ (by omega), Memory.write_outside _ (by omega)]
  show Rep hash ((created.writeNextPosition f.count (created.readBucketValue hash key)).link hash key
    f.count) _
  rw [hval]
  exact hlink

/-- The loop of `unlink` over a chain that holds the key. -/
theorem Rep.unlinkFrom_eq (h : Rep hash f t) (hw : t.WF) {key : Key keySize} {fuel : Nat}
    {previous : Nat} {rp : Row (Key keySize) (List UInt8)} (hp : t.row previous = some rp)
    {current : Option Nat} (hc : ∀ p, current = some p → ∃ r, t.row p = some r)
    {t' : HashTable (Key keySize) (List UInt8)} {b : Bool}
    (hu : t.unlinkFrom key fuel previous current = some (t', b)) :
    ∃ f', f.unlinkFrom key fuel previous (encode m current) = some (f', b) ∧ Rep hash f' t' ∧
      f'.toMappedSize = f.toMappedSize ∧ f'.count = f.count := by
  induction fuel generalizing previous rp current with
  | zero => cases hu
  | succ fuel ih =>
      cases current with
      | none =>
          cases hu
          refine ⟨f, ?_, h, rfl, rfl⟩
          simp [unlinkFrom, encode]
      | some p =>
          obtain ⟨r, hr⟩ := hc p rfl
          have hne : p ≠ empty m := Nat.ne_of_lt (h.item_lt (hw.row_lt p r hr))
          have hnext := h.next p r hr
          unfold HashTable.unlinkFrom at hu
          rw [hr] at hu
          dsimp only at hu
          unfold unlinkFrom
          rw [show encode m (some p) = p from rfl, if_neg hne, h.compare_eq hr]
          by_cases hk : r.key = key
          · rw [if_pos hk] at hu
            cases hu
            refine ⟨f.release p previous, by simp [hk], ?_, rfl, rfl⟩
            unfold release
            rw [hnext]
            refine h.writeNext hp fun q hq => ?_
            obtain ⟨_, r', hr', _⟩ := hw.next_row p r q hr hq
            exact hw.row_lt q r' hr'
          · have hself : r.next ≠ some p := hw.next_ne_self hr
            have hself' : f.nextPosition p ≠ p := by
              rw [hnext]
              cases hn : r.next with
              | none => exact hne.symm
              | some q => exact fun he => hself (hn.trans (congrArg some he))
            rw [if_neg hk, if_neg hself] at hu
            rw [if_neg (by simpa using hk), if_neg hself', hnext]
            refine ih hr (fun q hq => ?_) hu
            obtain ⟨_, r', hr', _⟩ := hw.next_row p r q hr hq
            exact ⟨r', hr'⟩

/-- **`unlink` on the file is `unlink` on the table.** -/
theorem Rep.unlink (h : Rep hash f t) (hw : t.WF) {key : Key keySize}
    {t' : HashTable (Key keySize) (List UInt8)} {b : Bool} (hu : t.unlink key = some (t', b)) :
    ∃ f', f.unlink hash f.count key = some (f', b) ∧ Rep hash f' t' ∧
      f'.toMappedSize = f.toMappedSize ∧ f'.count = f.count := by
  unfold HashTable.unlink at hu
  cases hb : t.readBucketValue key with
  | none =>
      rw [hb] at hu
      cases hu
  | some begin =>
      obtain ⟨r, hr, _⟩ := hw.bucket_row _ begin hb
      have hnext := h.next begin r hr
      have hlow : ∀ q, r.next = some q → ∃ r', t.row q = some r' := fun q hq =>
        (hw.next_row begin r q hr hq).2.imp fun _ h => h.1
      rw [hb] at hu
      simp only [Option.bind_some, hr, Option.map_some] at hu
      unfold TableFile.unlink
      rw [h.readBucketValue_eq, hb, show encode m (some begin) = begin from rfl]
      dsimp only
      rw [h.compare_eq hr]
      by_cases hk : r.key = key
      · rw [if_pos hk] at hu
        cases hu
        refine ⟨f.link hash key (f.nextPosition begin), by simp [hk], ?_, rfl, rfl⟩
        rw [hnext]
        refine h.link fun q hq => ?_
        obtain ⟨r', hr'⟩ := hlow q hq
        exact hw.row_lt q r' hr'
      · rw [if_neg hk, h.free_eq] at hu
        obtain ⟨f', hf, hrest⟩ := h.unlinkFrom_eq hw hr hlow hu
        refine ⟨f', ?_, hrest⟩
        simp only [decide_eq_true_eq, hk, if_false, hnext]
        exact hf

/-- **`update` on the file is a write on the table.** -/
theorem Rep.update (h : Rep hash f t) (hw : t.WF) {key : Key keySize} {p : Nat}
    {r : Row (Key keySize) (List UInt8)} (hf : t.find key = some p) (hr : t.row p = some r)
    {write : List UInt8 → List UInt8} (hs : (write r.value).length = r.value.length) {fuel : Nat}
    (hfuel : f.count < fuel) :
    ∃ f', f.update hash fuel key r.value.length write = some (f', offset m keySize p) ∧
      Rep hash f' (t.writeValue p write) ∧ f'.toMappedSize = f.toMappedSize ∧
        f'.count = f.count := by
  refine ⟨f.writeData p r.value.length write, ?_, h.writeData hr hs, rfl, rfl⟩
  unfold TableFile.update
  rw [h.find_eq hw key hfuel, hf]
  rfl

end Rep

/-! ### The bytes of a store -/

/-- The bytes after a store: the item, its link, the bucket. -/
def storedBytes (f : TableFile m keySize) (hash : Key keySize → Nat) (key : Key keySize)
    (value : List UInt8) : Memory :=
  let bucket := itemPosition m (f.bucketIndex hash key)
  let bytes := (f.bytes.write (f.address f.count) key.val).write (f.data f.count) value
  (bytes.writeWord (f.address f.count + keySize) m.width (bytes.readWord bucket m.width)).writeWord
    bucket m.width f.count

/-- **A store in one step**, whatever the file holds. -/
theorem store_eq (f : TableFile m keySize) (hash : Key keySize → Nat) (disk : Disk)
    (key : Key keySize) (value : List UInt8) : f.store hash disk key value =
      let count := (f.count + m.extent keySize value.length) % Memory.limit m.width
      (disk.reserve f.toMappedSize ((f.headerSize + m.position keySize count) % sizeLimit)).map
        fun size => (⟨size, f.buckets, f.headerSize, f.storedBytes hash key value, count⟩,
          offset m keySize f.count) := by
  unfold store createItem newItem
  rw [Option.map_map, Option.map_map]
  rfl

/-- A store writes one item and one bucket word. -/
theorem storedBytes_outside (f : TableFile m keySize) (hash : Key keySize → Nat) (key : Key keySize)
    (value : List UInt8) {i : Nat} (hitem : i < f.address f.count ∨
      f.address f.count + (m.prefixSize keySize + value.length) ≤ i)
    (hbucket : i < itemPosition m (f.bucketIndex hash key) ∨
      itemPosition m (f.bucketIndex hash key) + m.width ≤ i) :
    f.storedBytes hash key value i = f.bytes i := by
  have hkey := key.property
  have hpre : m.prefixSize keySize = keySize + m.width := rfl
  have hdata : f.data f.count = f.address f.count + m.prefixSize keySize := rfl
  unfold storedBytes
  rw [Memory.writeWord_outside _ hbucket, Memory.writeWord_outside _ (by omega),
    Memory.write_outside _ (by omega), Memory.write_outside _ (by omega)]

/-- A created file holds the empty table. -/
theorem create_rep (hash : Key keySize → Nat) {disk : Disk} (hd : disk.size ≤ maxObject)
    {buckets : Nat} (hb : buckets < Memory.limit 4) {bytes : Memory} {f : TableFile m keySize}
    (hc : create m keySize disk buckets bytes = some f) :
    Rep hash f (HashTable.create hash buckets m.first) ∧ disk.Fits f.toMappedSize ∧
      f.buckets = buckets ∧ 0 < buckets := by
  unfold create at hc
  split at hc
  · cases hc
  rename_i hpos
  obtain ⟨size₀, hheader, hc⟩ := Option.bind_eq_some_iff.mp hc
  obtain ⟨size, hmanager, hc⟩ := Option.map_eq_some_iff.mp hc
  obtain ⟨hfit₀, _⟩ := Disk.resize_eq_some (.inr (Nat.lt_of_lt_of_le (by decide : 1 < 4)
    (Nat.le_add_right 4 _))) hheader
  obtain ⟨hfit, hlogical⟩ := Disk.resize_eq_some (.inl hfit₀.file_le) hmanager
  subst hc
  have hend : itemPosition m buckets = 4 + buckets * m.width := rfl
  have hhead := itemPosition_le_headerSize m buckets
  have hfirst : m.first < Memory.limit m.width := by
    cases m with
    | slab => exact (by decide : (8 : Nat) < Memory.limit 8)
    | record _ => exact Memory.limit_pos 4
  let filled := (bytes.writeWord 0 4 buckets).write 4 (List.replicate (buckets * m.width) 255)
  let synced := filled.writeWord (m.headerSize buckets) m.width m.first
  have hstored : synced.readWord 0 4 = buckets := by
    have h₁ : synced.readWord 0 4 = filled.readWord 0 4 :=
      Memory.readWord_writeWord_disjoint _ (.inl (by omega))
    have h₂ : filled.readWord 0 4 = (bytes.writeWord 0 4 buckets).readWord 0 4 :=
      Memory.readWord_write_disjoint _ (.inl (Nat.le_refl _))
    rw [h₁, h₂, Memory.readWord_writeWord _ hb]
  have hbucket (i : Nat) (hi : i < buckets) :
      synced.readWord (itemPosition m i) m.width = empty m := by
    have hmul : (i + 1) * m.width ≤ buckets * m.width := Nat.mul_le_mul_right _ hi
    rw [Nat.succ_mul] at hmul
    have h₁ : synced.readWord (4 + i * m.width) m.width = filled.readWord (4 + i * m.width) m.width :=
      Memory.readWord_writeWord_disjoint _ (.inl (by omega))
    have h₂ : filled.read (4 + i * m.width) m.width =
        ((List.replicate (buckets * m.width) 255).drop (i * m.width)).take m.width :=
      Memory.read_write_inside _ (by rw [List.length_replicate]; exact hmul)
    show synced.readWord (4 + i * m.width) m.width = empty m
    rw [h₁, Memory.readWord, h₂, List.drop_replicate, List.take_replicate,
      Nat.min_eq_left (by omega), Memory.ofLE_ones]
    rfl
  exact
    ⟨{ hash_eq := rfl
       size_eq := rfl
       buckets_pos := Nat.pos_of_ne_zero hpos
       headerSize_eq := rfl
       stored := hstored
       bucket := hbucket
       key := fun _ _ hr => by cases hr
       next := fun _ _ hr => by cases hr
       value := fun _ _ hr => by cases hr
       free_eq := rfl
       count_lt := hfirst
       first_le := Nat.le_refl _
       row_first := fun _ _ hr => by cases hr
       row_lt := fun _ _ hr => by cases hr
       apart := fun _ _ _ hr => by cases hr
       logical := hlogical
       small := Nat.lt_of_le_of_lt (Nat.le_trans hfit.le hd) (by decide) }, hfit, rfl,
      Nat.pos_of_ne_zero hpos⟩

end TableFile

end Libbitcoin.Database
