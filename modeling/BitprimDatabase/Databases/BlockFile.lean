/-
  File:      BitprimDatabase/Databases/BlockFile.lean
  Subject:   **THE BLOCK TABLE IN ITS FILES** (block_database.cpp): a slab table whose keys are block
             hashes, and an index file from height to the position of a slab.

      a slab:     [ hash:32 ] [ next:8 ] [ record ]
      the index:  [ count:4 ] [ position:8 ] ... [ position:8 ]

  * `get`, `getByHash`, `store`, `unlink` -- on the bytes; a read by height steps back over the prefix
    of the slab for the hash;
  * `Holds` -- the files hold the blocks of BlockDatabase.lean; **`Holds.store`**, **`Holds.unlink`**;
  * **`block_roundTrip`** -- a stored block is read back behind every later store that does not replace
    it.
-/
import BitprimDatabase.Databases.BlockForms
import BitprimDatabase.Databases.HeightIndex
import BitprimDatabase.Primitives.TableCalls

namespace Libbitcoin.Database

open Lib

/-! ## 1. The calls -/

/-- `slab_hash_table::store`: the slab is allocated at a size, and filled by a writer. -/
def TableFile.storeSized {keySize : Nat} (f : TableFile .slab keySize) (hash : Key keySize → Nat)
    (disk : Disk) (key : Key keySize) (value : List UInt8) (size : Nat) :
    Option (TableFile .slab keySize × Nat) :=
  (f.newItem disk size).map fun (f, item) =>
    let f := { f with bytes := (f.bytes.write (f.address item) key.val).write (f.data item) value }
    ((f.writeNextPosition item (f.readBucketValue hash key)).link hash key item,
      TableFile.offset .slab keySize item)

/-- A writer that fills the size. -/
theorem TableFile.storeSized_eq {keySize : Nat} (f : TableFile .slab keySize)
    (hash : Key keySize → Nat) (disk : Disk) (key : Key keySize) {value : List UInt8} {size : Nat}
    (h : value.length = size) :
    f.storeSized hash disk key value size = f.store hash disk key value := by
  subst h
  unfold storeSized store createItem
  rw [Option.map_map]
  exact congrArg (fun g => Option.map g (f.newItem disk value.length)) (funext fun _ => rfl)

/-- The lookup file, the index file and the count of the index manager. -/
structure BlockFile where
  lookup : TableFile .slab 32
  index : Memory
  indexSize : MappedSize
  count : Nat

namespace BlockFile

/-- Where a position stands in the index file (`record_to_position`). -/
def indexPosition (height : Nat) : Nat := 4 + height * 8

/-- The index file holds its count, and no position. -/
def create (disk : Disk) (buckets : Nat) (bytes index : Memory) : Option BlockFile :=
  (TableFile.create .slab 32 disk buckets bytes).bind fun lookup =>
    (disk.resize ⟨1, 1⟩ (indexPosition 0)).map fun size => ⟨lookup, index.writeWord 0 4 0, size, 0⟩

def readPosition (f : BlockFile) (height : Nat) : Nat := f.index.readWord (indexPosition height) 8

/-- Positions from `first` on are cleared. -/
def zeroize (index : Memory) (first count : Nat) : Memory :=
  (List.range' first count).foldl
    (fun index height => index.writeWord (indexPosition height) 8 emptyPosition) index

section Calls

variable (codec : SizeCodec) (hash : Key 32 → Nat) (disk : Disk)

/-- `record_manager::new_records` on the index. -/
def newRecords (f : BlockFile) (count : Nat) : Option BlockFile :=
  let count := u32 (f.count + count)
  (disk.reserve f.indexSize (indexPosition count)).map fun size =>
    { f with indexSize := size, count := count }

/-- Grow the index where it is too short, and write the position. The count is a height in 32 bits:
    behind the last one the position is written outside of what is mapped, and the process dies. -/
def writePosition (f : BlockFile) (position height : Nat) : Option BlockFile :=
  let newCount := u32 (height + 1)
  let initialCount := f.count
  let grown :=
    if newCount > initialCount then
      (f.newRecords disk (newCount - initialCount)).map fun f =>
        { f with index := zeroize f.index initialCount (newCount - initialCount - 1) }
    else some f
  grown.bind fun f =>
    if f.indexSize.fileSize < indexPosition height + 8 then none
    else some { f with index := f.index.writeWord (indexPosition height) 8 position }

/-- Add the slab and write its position to the index. -/
def store (f : BlockFile) (b : Block) (height : Nat) : Option BlockFile :=
  let height32 := u32 height
  (f.lookup.storeSized hash disk (hashKey b.header.hash) (recordBytes codec b height32)
    (recordSize codec b)).bind fun r => { f with lookup := r.1 }.writePosition disk r.2 height32

/-- The slab the index points at; its hash is in front of it. -/
def get (f : BlockFile) (height : Nat) : Option BlockRecord :=
  if height ≥ f.count then none
  else
    let slab := f.lookup.address (f.readPosition height)
    some ⟨f.lookup.bytes, slab, readHash f.lookup.bytes (slab - Manager.slab.prefixSize 32)⟩

/-- The newest slab with the hash. The outer `none` is a search that does not end. -/
def getByHash (f : BlockFile) (blockHash : HashDigest) : Option (Option BlockRecord) :=
  (f.lookup.find hash (f.lookup.count + 1) (hashKey blockHash)).map fun memory =>
    memory.map fun item => ⟨f.lookup.bytes, f.lookup.data item, blockHash⟩

/-- Cut the index off at a height; `false` where there is nothing to cut. -/
def unlink (f : BlockFile) (fromHeight : Nat) : BlockFile × Bool :=
  if f.count > fromHeight then ({ f with count := fromHeight }, true) else (f, false)

/-- Whether a vector of the transactions counted at the height can be reserved. A stored block had
    one of its size; a gap has the count of the bytes in front of the slabs. -/
def reserves [Core] (f : BlockFile) (height count : Nat) : Bool :=
  f.readPosition height != emptyPosition || decide (count ≤ Core.transactionLimit)

/-- The call on the files, `none` where it throws. -/
def apply (f : BlockFile) : BlockOp → Option BlockFile
  | .store b height => f.store codec hash disk b height
  | .unlink fromHeight => some (f.unlink fromHeight).1

end Calls

/-! ## 2. The index -/

theorem readWord_zeroize (index : Memory) (first count height : Nat) :
    (zeroize index first count).readWord (indexPosition height) 8 =
      if first ≤ height ∧ height < first + count then emptyPosition
      else index.readWord (indexPosition height) 8 := by
  induction count generalizing index first with
  | zero =>
      rw [if_neg (by omega)]
      rfl
  | succ count ih =>
      unfold zeroize at ih ⊢
      rw [List.range'_succ, List.foldl_cons, ih]
      by_cases hh : height = first
      · subst hh
        rw [if_neg (by omega), if_pos (by omega), Memory.readWord_writeWord _ (by decide)]
      · have hdisjoint : Memory.Disjoint (indexPosition height) 8 (indexPosition first) 8 := by
          unfold Memory.Disjoint indexPosition
          omega
        rw [Memory.readWord_writeWord_disjoint _ hdisjoint]
        exact if_congr (by omega) rfl rfl

/-- **A position is written**, and the heights up to it are cleared. -/
theorem writePosition_spec {disk : Disk} {f f' : BlockFile} {position height : Nat}
    (hp : position < Memory.limit 8) (hheight : height < maxUint32)
    (hw : f.writePosition disk position height = some f') :
    f'.lookup = f.lookup ∧ f'.count = max f.count (height + 1) ∧ ∀ k, f'.readPosition k =
      if k = height then position
      else if f.count ≤ k ∧ k < height then emptyPosition else f.readPosition k := by
  have hword (index : Memory) (k : Nat) :
      (index.writeWord (indexPosition height) 8 position).readWord (indexPosition k) 8 =
        if k = height then position else index.readWord (indexPosition k) 8 := by
    by_cases hk : k = height
    · subst hk
      rw [if_pos rfl, Memory.readWord_writeWord _ hp]
    · have hdisjoint : Memory.Disjoint (indexPosition k) 8 (indexPosition height) 8 := by
        unfold Memory.Disjoint indexPosition
        omega
      rw [if_neg hk, Memory.readWord_writeWord_disjoint _ hdisjoint]
  unfold writePosition at hw
  dsimp only at hw
  rw [u32_of_le (Nat.succ_le_of_lt hheight)] at hw
  obtain ⟨g, hg, hw⟩ := Option.bind_eq_some_iff.mp hw
  obtain ⟨_, hw⟩ := Option.ite_none_left_eq_some.mp hw
  cases hw
  by_cases hgrow : height + 1 > f.count
  · rw [if_pos hgrow] at hg
    obtain ⟨g₁, hg₁, rfl⟩ := Option.map_eq_some_iff.mp hg
    obtain ⟨size, _, rfl⟩ := Option.map_eq_some_iff.mp hg₁
    have hcount : u32 (f.count + (height + 1 - f.count)) = height + 1 := by
      rw [Nat.add_sub_cancel' (Nat.le_of_lt hgrow), u32_of_le (Nat.succ_le_of_lt hheight)]
    refine ⟨rfl, ?_, fun k => ?_⟩
    · show u32 _ = _
      rw [hcount, Nat.max_eq_right (Nat.le_of_lt hgrow)]
    · show ((zeroize f.index _ _).writeWord _ 8 position).readWord (indexPosition k) 8 = _
      rw [hword, readWord_zeroize]
      by_cases hk : k = height
      · rw [if_pos hk, if_pos hk]
      · rw [if_neg hk, if_neg hk]
        exact if_congr (by omega) rfl rfl
  · rw [if_neg hgrow] at hg
    cases hg
    refine ⟨rfl, (Nat.max_eq_left (Nat.le_of_not_lt hgrow)).symm, fun k => ?_⟩
    show (f.index.writeWord _ 8 position).readWord (indexPosition k) 8 = _
    rw [hword]
    by_cases hk : k = height
    · rw [if_pos hk, if_pos hk]
    · rw [if_neg hk, if_neg hk, if_neg (by omega)]
      rfl

/-! ## 3. The blocks the files hold -/

variable {codec : SizeCodec} {hash : Key 32 → Nat} {disk : Disk} {f f' : BlockFile}
  {db : BlockDatabase}

/-- The record of a slab. -/
def slabRecord (codec : SizeCodec) (slab : BlockSlab) : List UInt8 :=
  headerBytes slab.header ++ (Memory.toLE 4 slab.height ++ (codec.write slab.hashes.length ++
    slab.hashes.flatMap hashBytes))

/-- `store` writes the record of the slab. -/
theorem recordBytes_eq (codec : SizeCodec) (b : Block) (height : Nat) :
    recordBytes codec b (u32 height) = slabRecord codec (b.toSlab height) := by
  show _ = headerBytes b.header ++ (Memory.toLE 4 (u32 height) ++ (codec.write b.hashes.length ++
    b.hashes.flatMap hashBytes))
  unfold Block.hashes recordBytes
  rw [List.length_map, List.flatMap_map]

/-- What the index says of a height. -/
def Points (codec : SizeCodec) (t : HashTable (Key 32) (List UInt8)) (position : Nat) :
    Option BlockResult → Prop
  | none => position = emptyPosition
  | some r => ∃ p next, position = TableFile.offset .slab 32 p ∧
      t.row p = some ⟨hashKey r.hash, next, slabRecord codec r.slab⟩

/-- **The files hold the blocks**: the slabs under their hashes, and at each height the position of
    its slab. -/
structure Holds (codec : SizeCodec) (hash : Key 32 → Nat) (disk : Disk) (f : BlockFile)
    (db : BlockDatabase) : Prop where
  slabs : ∃ t s', TableFile.Holding hash disk f.lookup t s' ∧
    Stacks.Codes hashKey (slabRecord codec) db.slabs s' ∧
      ∀ height < f.count, Points codec t (f.readPosition height) (db.at? height)
  count_eq : f.count = db.count

/-- **`get`** of a height with a block: its record, and its hash from the prefix. -/
theorem Holds.get_eq (h : f.Holds codec hash disk db) {height : Nat} {r : BlockResult}
    (hr : db.at? height = some r) : ∃ a, f.get height = some ⟨f.lookup.bytes, a, r.hash⟩ ∧
      f.lookup.bytes.Holds a (slabRecord codec r.slab) := by
  obtain ⟨t, s', ht, _, hpoints⟩ := h.slabs
  have hlt : height < f.count := h.count_eq ▸ BlockDatabase.at_lt hr
  have hpoint := hpoints height hlt
  rw [hr] at hpoint
  obtain ⟨p, next, hposition, hrow⟩ := hpoint
  have hkey : f.lookup.bytes.Holds (f.lookup.address p) (hashBytes r.hash) := by
    unfold Memory.Holds
    rw [length_hashBytes]
    exact ht.rep.key p _ hrow
  refine ⟨f.lookup.data p, ?_, ht.rep.value p _ hrow⟩
  have hback : f.lookup.data p - Manager.slab.prefixSize 32 = f.lookup.address p :=
    Nat.add_sub_cancel ..
  unfold get
  rw [if_neg (Nat.not_le.mpr hlt), hposition, ht.rep.address_offset ht.wf hrow]
  dsimp only
  rw [hback, readHash_of_holds hkey]

/-- A height with a block has a position, behind the prefix of its slab. -/
theorem Holds.readPosition_ne (h : f.Holds codec hash disk db) {height : Nat} {r : BlockResult}
    (hr : db.at? height = some r) : f.readPosition height ≠ emptyPosition := by
  obtain ⟨t, s', _, _, hpoints⟩ := h.slabs
  have hpoint := hpoints height (h.count_eq ▸ BlockDatabase.at_lt hr)
  rw [hr] at hpoint
  obtain ⟨p, _, hposition, _⟩ := hpoint
  rw [hposition]
  exact Nat.succ_ne_zero (p + 39)

/-- **`get`** of a hash with a block. -/
theorem Holds.getByHash_eq (h : f.Holds codec hash disk db) {blockHash : HashDigest}
    {slab : BlockSlab} (hs : (db.slabs blockHash).head? = some slab) :
    ∃ a, f.getByHash hash blockHash = some (some ⟨f.lookup.bytes, a, blockHash⟩) ∧
      f.lookup.bytes.Holds a (slabRecord codec slab) := by
  obtain ⟨t, s', ht, hc, _⟩ := h.slabs
  obtain ⟨rest, hcons⟩ := List.head?_eq_some_iff.mp hs
  have hs' := hc blockHash
  rw [hcons, List.map_cons] at hs'
  obtain ⟨item, hfind, hread⟩ := ht.found hs'
  refine ⟨f.lookup.data item, ?_, hread⟩
  unfold getByHash
  rw [hfind _ (Nat.lt_succ_self _)]
  rfl

/-- **A store**: the files go on to hold the blocks, and the slab takes what was asked for. -/
theorem Holds.store (h : f.Holds codec hash disk db) (hd : disk.size ≤ maxObject) {b : Block}
    (hw : b.Wire codec) {height : Nat} (hheight : height < maxUint32)
    (hs : f.store codec hash disk b height = some f') :
    f'.Holds codec hash disk (db.store b height) ∧
      f'.lookup.count = f.lookup.count + (40 + recordSize codec b) := by
  obtain ⟨t, s', ht, hcodes, hpoints⟩ := h.slabs
  have hlen := length_recordBytes codec hw.count (u32 height)
  unfold BlockFile.store at hs
  dsimp only at hs
  rw [TableFile.storeSized_eq _ _ _ _ hlen] at hs
  obtain ⟨⟨g, off⟩, hg, hs⟩ := Option.bind_eq_some_iff.mp hs
  have hallowed : (TableFile.Call.store (hashKey b.header.hash)
      (recordBytes codec b (u32 height))).Allowed .slab s' :=
    ⟨True.intro, by rw [hlen]; exact hw.size⟩
  obtain ⟨ht', hoff, hcount⟩ := ht.stored hd hallowed True.intro hg
  have hgrow : g.count = f.lookup.count + (40 + recordSize codec b) := by
    rw [hcount, hlen]
    rfl
  have hoff : off = t.free + 40 := hoff
  have hfree := ht.rep.free_eq
  have hlt : g.count < Memory.limit 8 := ht'.rep.count_lt
  obtain ⟨hlookup, hindex, hposition⟩ := writePosition_spec (by omega)
    (by rwa [u32_of_lt hheight]) hs
  rw [u32_of_lt hheight] at hindex hposition
  have hlookup : f'.lookup = g := hlookup
  have hindex : f'.count = max f.count (height + 1) := hindex
  have hposition (k : Nat) : f'.readPosition k = if k = height then off
      else if f.count ≤ k ∧ k < height then emptyPosition else f.readPosition k := hposition k
  refine ⟨⟨⟨_, _, hlookup ▸ ht', ?_, fun k hk => ?_⟩, ?_⟩, hlookup ▸ hgrow⟩
  · rw [db.store_slabs, recordBytes_eq]
    exact hcodes.push hashKey_injective b.header.hash (b.toSlab height)
  · rw [hposition k, db.store_at b hheight]
    by_cases hkh : k = height
    · rw [if_pos hkh, if_pos hkh]
      refine ⟨t.free, t.readBucketValue (hashKey b.header.hash), hoff, ?_⟩
      rw [HashTable.store_row, if_pos rfl, recordBytes_eq]
    · rw [if_neg hkh, if_neg hkh]
      by_cases hold : k < f.count
      · rw [if_neg (by omega)]
        have hpoint := hpoints k hold
        cases hat : db.at? k with
        | none =>
            rw [hat] at hpoint
            exact hpoint
        | some r =>
            rw [hat] at hpoint
            obtain ⟨p, next, hp, hrow⟩ := hpoint
            refine ⟨p, next, hp, ?_⟩
            rw [HashTable.store_row, if_neg (Nat.ne_of_lt (ht.wf.row_lt p _ hrow)), hrow]
      · have hnone : db.at? k = none := by
          unfold BlockDatabase.at?
          rw [if_neg (h.count_eq ▸ hold)]
        rw [if_pos (by omega), hnone]
        rfl
  · rw [hindex, db.store_count b hheight, h.count_eq]

/-- **An unlink**: the heights below stay. -/
theorem Holds.unlink (h : f.Holds codec hash disk db) (fromHeight : Nat) :
    (f.unlink fromHeight).1.Holds codec hash disk (db.unlink fromHeight).1 ∧
      (f.unlink fromHeight).2 = (db.unlink fromHeight).2 := by
  by_cases hlt : fromHeight < f.count
  · have hlt' : fromHeight < db.count := h.count_eq ▸ hlt
    obtain ⟨t, s', ht, hcodes, hpoints⟩ := h.slabs
    rw [BlockDatabase.unlink_of_lt hlt']
    unfold BlockFile.unlink
    rw [if_pos hlt]
    refine ⟨⟨⟨t, s', ht, hcodes, fun k hk => ?_⟩, rfl⟩, rfl⟩
    have hk : k < fromHeight := hk
    have hpoint := hpoints k (Nat.lt_trans hk hlt)
    unfold BlockDatabase.at? at hpoint ⊢
    rw [if_pos (Nat.lt_trans hk hlt')] at hpoint
    rw [if_pos hk]
    exact hpoint
  · have hlt' : ¬ db.count > fromHeight := h.count_eq ▸ hlt
    unfold BlockFile.unlink BlockDatabase.unlink
    rw [if_neg hlt, dif_neg hlt']
    exact ⟨h, rfl⟩

/-! ## 4. Runs -/

/-- Stored blocks have the widths of their records, at heights that are asserted. -/
def Wire (codec : SizeCodec) (op : BlockOp) : Prop :=
  op.Asserted ∧ ∀ b height, op = .store b height → b.Wire codec

/-- **One call**: the files go on to hold the blocks. -/
theorem Holds.apply (h : f.Holds codec hash disk db) (hd : disk.size ≤ maxObject) {op : BlockOp}
    (hw : Wire codec op) (hc : f.apply codec hash disk op = some f') :
    f'.Holds codec hash disk (op.apply db) := by
  cases op with
  | store b height => exact (h.store hd (hw.2 b height rfl) hw.1 hc).1
  | unlink fromHeight =>
      cases hc
      exact (h.unlink fromHeight).1

/-- **A run from created files.** -/
theorem holds_of_create [Core] (hd : disk.size ≤ maxObject) {buckets : Nat} (hb : buckets < Memory.limit 4)
    {bytes index : Memory} (hc : create disk buckets bytes index = some f) {ops : List BlockOp}
    (hw : ∀ op ∈ ops, Wire codec op)
    (hr : runSome (BlockFile.apply codec hash disk) f ops = some f') (stray : BlockResult) :
    f'.Holds codec hash disk (run BlockOp.apply (BlockDatabase.create buckets stray) ops) := by
  obtain ⟨g, hg, hc⟩ := Option.bind_eq_some_iff.mp hc
  obtain ⟨⟨t, ht⟩, _⟩ := TableFile.create_holding hash hd hb hg
  have hempty := BlockDatabase.create_slabs buckets stray
  have h₀ : f.Holds codec hash disk (BlockDatabase.create buckets stray) := by
    obtain ⟨size, _, rfl⟩ := Option.map_eq_some_iff.mp hc
    exact ⟨⟨t, fun _ => [], ht, fun k => by rw [hempty]; rfl,
      fun k hk => absurd hk (Nat.not_lt_zero k)⟩, rfl⟩
  exact runSome_refines (fun f db op f' h hw hc => h.apply hd hw hc) h₀ hw hr

/-- Later stores leave what they do not replace. -/
theorem stores_keep (b : Block) (height : Nat) {later : List (Block × Nat)}
    (hlater : ∀ x ∈ later, x.2 < maxUint32) (db : BlockDatabase) :
    ((∀ x ∈ later, x.1.header.hash ≠ b.header.hash) →
      (db.slabs b.header.hash).head? = some (b.toSlab height) →
      ((run BlockOp.apply db (BlockDatabase.storeOps later)).slabs b.header.hash).head? =
        some (b.toSlab height)) ∧
    ((∀ x ∈ later, x.2 ≠ height) → db.at? height = some ⟨b.header.hash, b.toSlab height⟩ →
      (run BlockOp.apply db (BlockDatabase.storeOps later)).at? height =
        some ⟨b.header.hash, b.toSlab height⟩) := by
  induction later generalizing db with
  | nil => exact ⟨fun _ h => h, fun _ h => h⟩
  | cons x later ih =>
      obtain ⟨hx, hrest⟩ := List.forall_mem_cons.mp hlater
      obtain ⟨hhash, hheight⟩ := ih hrest (db.store x.1 x.2)
      refine ⟨fun hne h => ?_, fun hne h => ?_⟩
      · obtain ⟨hxne, hne⟩ := List.forall_mem_cons.mp hne
        refine hhash hne ?_
        rw [db.store_slabs, Stacks.push_head, if_neg (Ne.symm hxne), h]
      · obtain ⟨hxne, hne⟩ := List.forall_mem_cons.mp hne
        refine hheight hne ?_
        rw [db.store_at x.1 hx, if_neg (Ne.symm hxne), h]

/-- **Block records are read back.** A block stored in any state takes exactly the slab it asks for,
    and behind any later stores it is read by its hash unless another block with the hash was stored,
    and by its height unless another block was stored there. -/
theorem block_roundTrip (codec : SizeCodec) (hash : Key 32 → Nat) {disk : Disk} {buckets : Nat}
    (hd : disk.size ≤ maxObject) (hb : buckets < Memory.limit 4) {bytes index : Memory}
    {f₀ f f' f'' : BlockFile} (hc : create disk buckets bytes index = some f₀) {ops : List BlockOp}
    (hw : ∀ op ∈ ops, Wire codec op)
    (hr : runSome (BlockFile.apply codec hash disk) f₀ ops = some f) {b : Block}
    (hblock : b.Wire codec) {height : Nat} (hheight : height < maxUint32)
    (hs : f.store codec hash disk b height = some f') {later : List (Block × Nat)}
    (hlater : ∀ x ∈ later, x.1.Wire codec ∧ x.2 < maxUint32)
    (hl : runSome (BlockFile.apply codec hash disk) f' (BlockDatabase.storeOps later) = some f'') :
    (recordBytes codec b height).length = recordSize codec b ∧
      f'.lookup.count = f.lookup.count + (40 + recordSize codec b) ∧
      ((∀ x ∈ later, x.1.header.hash ≠ b.header.hash) →
        ∃ r, f''.getByHash hash b.header.hash = some (some r) ∧ Answers codec r b height) ∧
      ((∀ x ∈ later, x.2 ≠ height) → ∃ r, f''.get height = some r ∧ Answers codec r b height) := by
  let _ : Core := Core.sample
  have h := holds_of_create hd hb hc hw hr BlockResult.sampleStray
  obtain ⟨h', hcount⟩ := h.store hd hblock hheight hs
  have hlaterOps : ∀ op ∈ BlockDatabase.storeOps later, Wire codec op := by
    intro op hop
    obtain ⟨x, hx, rfl⟩ := List.mem_map.mp hop
    refine ⟨(hlater x hx).2, fun b' height' he => ?_⟩
    cases he
    exact (hlater x hx).1
  have h'' := runSome_refines (fun f db op f' h hw hc => h.apply hd hw hc) h' hlaterOps hl
  obtain ⟨hhash, hindex⟩ := stores_keep b height (fun x hx => (hlater x hx).2) _
  have hanswers {m : Memory} {a : Nat} (hm : m.Holds a (slabRecord codec (b.toSlab height))) :
      Answers codec ⟨m, a, b.header.hash⟩ b height := by
    rw [← recordBytes_eq, u32_of_lt hheight] at hm
    exact BlockRecord.answers hblock (Nat.le_of_lt hheight) hm
  refine ⟨length_recordBytes codec hblock.count height, hcount, fun hne => ?_, fun hne => ?_⟩
  · obtain ⟨a, hget, hm⟩ := h''.getByHash_eq (hhash hne (by
      rw [BlockDatabase.store_slabs, Stacks.push_same]
      rfl))
    exact ⟨_, hget, hanswers hm⟩
  · obtain ⟨a, hget, hm⟩ := h''.get_eq (hindex hne (by
      rw [BlockDatabase.store_at _ b hheight, if_pos rfl]))
    exact ⟨_, hget, hanswers hm⟩

/-! ## 5. Two blocks in one bucket -/

/-- A block of two transactions, and one without. -/
def samplePair : Block :=
  .sample 11 3 [.sampleCoinbase 101 1, .sampleSpend 102 ⟨101, 0⟩ 2]

def sampleBare : Block := .sample 12 11 []

theorem samplePair_wire : samplePair.Wire .variable :=
  ⟨⟨by decide, by decide, by decide, by decide⟩, by decide, by decide⟩

theorem sampleBare_wire : sampleBare.Wire .variable :=
  ⟨⟨by decide, by decide, by decide, by decide⟩, by decide, by decide⟩

/-- The stores on created files. -/
def sampleRun (stores : List (Block × Nat)) : Option BlockFile :=
  (create .sample 1 (fun _ => 7) fun _ => 7).bind fun f =>
    runSome (BlockFile.apply .variable (fun _ => 0) .sample) f (BlockDatabase.storeOps stores)

/-- A block above a gap, and a later one at the height below it. -/
theorem oneBucket_roundTrip : ∃ f₀ f f' f'', create .sample 1 (fun _ => 7) (fun _ => 7) = some f₀ ∧
    runSome (BlockFile.apply .variable (fun _ => 0) .sample) f₀ [.store sampleBare 0, .unlink 0] =
      some f ∧
    f.store .variable (fun _ => 0) .sample samplePair 2 = some f' ∧
    runSome (BlockFile.apply .variable (fun _ => 0) .sample) f'
      (BlockDatabase.storeOps [(sampleBare, 1)]) = some f'' ∧
    (∃ r, f''.getByHash (fun _ => 0) 11 = some (some r) ∧ Answers .variable r samplePair 2) ∧
    ∃ r, f''.get 2 = some r ∧ Answers .variable r samplePair 2 := by
  have hsome : ((create .sample 1 (fun _ => 7) fun _ => 7).bind fun f =>
      (runSome (BlockFile.apply .variable (fun _ => 0) .sample) f
        [.store sampleBare 0, .unlink 0]).bind fun f =>
          (f.store .variable (fun _ => 0) .sample samplePair 2).bind fun f =>
            runSome (BlockFile.apply .variable (fun _ => 0) .sample) f
              (BlockDatabase.storeOps [(sampleBare, 1)])).isSome = true := by decide +kernel
  obtain ⟨f'', hsome⟩ := Option.isSome_iff_exists.mp hsome
  obtain ⟨f₀, hc, hsome⟩ := Option.bind_eq_some_iff.mp hsome
  obtain ⟨f, hr, hsome⟩ := Option.bind_eq_some_iff.mp hsome
  obtain ⟨f', hs, hl⟩ := Option.bind_eq_some_iff.mp hsome
  have hw : ∀ op ∈ [BlockOp.store sampleBare 0, .unlink 0], Wire .variable op := by
    intro op hop
    rw [List.mem_cons, List.mem_singleton] at hop
    rcases hop with rfl | rfl
    · refine ⟨by decide, fun b height he => ?_⟩
      cases he
      exact sampleBare_wire
    · exact ⟨True.intro, fun b height he => by cases he⟩
  have hlater : ∀ x ∈ [(sampleBare, 1)], x.1.Wire .variable ∧ x.2 < maxUint32 := by
    intro x hx
    cases List.mem_singleton.mp hx
    exact ⟨sampleBare_wire, by decide⟩
  obtain ⟨_, _, hhash, hheight⟩ := block_roundTrip .variable (fun _ => 0) (by decide) (by decide) hc
    hw hr samplePair_wire (by decide) hs hlater hl
  exact ⟨f₀, f, f', f'', hc, hr, hs, hl, hhash (by decide), hheight (by decide)⟩

/-- A later store at the height, a later store of the hash, and a height whose count starts over: the
    position of that one is outside of the index. -/
theorem replaced_blocks :
    (∃ f r, sampleRun [(samplePair, 0), (sampleBare, 0)] = some f ∧ f.get 0 = some r ∧
      ¬ Answers .variable r samplePair 0) ∧
    (∃ f r, sampleRun [(samplePair, 0), (samplePair, 1)] = some f ∧
      f.getByHash (fun _ => 0) 11 = some (some r) ∧ ¬ Answers .variable r samplePair 0) ∧
    sampleRun [(samplePair, 4294967295)] = none := by
  refine ⟨?_, ?_, by decide +kernel⟩
  · have hget : ((sampleRun [(samplePair, 0), (sampleBare, 0)]).bind fun f =>
        (f.get 0).map BlockRecord.hash) = some 12 := by decide +kernel
    obtain ⟨f, hf, hget⟩ := Option.bind_eq_some_iff.mp hget
    obtain ⟨r, hr, hhash⟩ := Option.map_eq_some_iff.mp hget
    refine ⟨f, r, hf, hr, fun h => ?_⟩
    rw [h.hash] at hhash
    exact absurd hhash (by decide)
  · have hget : ((sampleRun [(samplePair, 0), (samplePair, 1)]).bind fun f =>
        (f.getByHash (fun _ => 0) 11).bind fun found => found.map BlockRecord.height) = some 1 := by
      decide +kernel
    obtain ⟨f, hf, hget⟩ := Option.bind_eq_some_iff.mp hget
    obtain ⟨found, hfound, hget⟩ := Option.bind_eq_some_iff.mp hget
    obtain ⟨r, rfl, hheight⟩ := Option.map_eq_some_iff.mp hget
    refine ⟨f, r, hf, hfound, fun h => ?_⟩
    rw [h.height] at hheight
    cases hheight

end BlockFile

end Libbitcoin.Database
