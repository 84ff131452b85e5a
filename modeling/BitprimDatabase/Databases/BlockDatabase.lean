/-
  File:      BitprimDatabase/Databases/BlockDatabase.lean
  Subject:   THE BLOCK TABLE (block_database.cpp, block_result.cpp): a slab hash table from block
             hash to header, height and transaction hashes, and an index from height to the
             position of a slab.

  A block that is unlinked leaves the index only: its slab stays linked under its hash. A height
  below the count may have no block (position `empty`): `get` by height does not test for it and
  reads the bytes in front of the slabs. What they decode to is `stray`, any result: its count may
  be a number of transactions that no vector can reserve (`reserves`).

  `at?` is the block the index holds at a height, `slabs` the blocks under a hash.

  NOT here: the bytes that `stray` is decoded from (BlockFile.lean). They are the size word of the
  slabs, the first slab and the last buckets, so a later store can change them; no operation below
  does, and `DataBase.setStray` puts any other result in their place.
-/
import BitprimDatabase.Primitives.Table
import BitprimDatabase.ChainTypes

namespace Libbitcoin.Database

open Lib

/-- The slab of a block; the height is written as four bytes. -/
structure BlockSlab where
  header : Header
  height : Nat
  hashes : List HashDigest
  height_le : height ≤ maxUint32
  deriving DecidableEq

/-- A slab and the hash it was found by or read with. -/
structure BlockResult where
  hash : HashDigest
  slab : BlockSlab
  deriving DecidableEq

namespace BlockResult

def header (r : BlockResult) : Header := { r.slab.header with hash := r.hash }

def height (r : BlockResult) : Nat := r.slab.height

def transactionCount (r : BlockResult) : Nat := r.slab.hashes.length

/-- The hash at an index below the transaction count. -/
def transactionHash (r : BlockResult) (index : Nat) : HashDigest := r.slab.hashes[index]?.getD nullHash

end BlockResult

/-- Bytes for the examples that decode to no transactions. -/
def BlockResult.sampleStray : BlockResult :=
  ⟨nullHash, ⟨⟨nullHash, 0, 0, 0, 0, 0, 0⟩, 0, [], Nat.zero_le _⟩⟩

/-- What `store` writes. -/
def Block.toSlab (b : Block) (height : Nat) : BlockSlab :=
  ⟨b.header, u32 height, b.hashes, u32_le height⟩

/-- The position of no block (`block_database::empty`). -/
def emptyPosition : Nat := 0

/-- The slabs by hash, and the height index: a 32-bit count of positions, with no slab at
    `emptyPosition`. Every slab is linked under its hash. -/
structure BlockDatabase where
  lookup : Table HashDigest BlockSlab
  index : Nat → Nat
  count : Nat
  stray : BlockResult
  count_le : count ≤ maxUint32
  index_lt : ∀ height, index height < lookup.free
  row_empty : lookup.row emptyPosition = none
  row_linked : ∀ position row, lookup.row position = some row → row.value ∈ lookup.stack row.key

/-- The bytes of a slab: its prefix, header, height, count and hashes. -/
def blockExtent (b : Block) : Nat := 40 + (80 + 4 + 9 + 32 * b.transactions.length)

theorem blockExtent_pos (b : Block) : 0 < blockExtent b := Nat.add_pos_left (by decide) _

namespace BlockDatabase

/-! ## 1. The operations -/

def create [Core] (buckets : Nat) (stray : BlockResult) : BlockDatabase where
  lookup := Table.create Core.hashDigest buckets 8
  index _ := emptyPosition
  count := 0
  stray := stray
  count_le := Nat.zero_le _
  index_lt _ := Nat.zero_lt_succ 7
  row_empty := rfl
  row_linked _ _ h := by cases h

/-- A block at the height, not a gap. -/
def exists? (db : BlockDatabase) (height : Nat) : Bool :=
  decide (height < db.count) && db.index height != emptyPosition

/-- The slab the index points at with its key, unless the height is past the end. -/
def get (db : BlockDatabase) (height : Nat) : Option BlockResult :=
  if height ≥ db.count then none
  else
    match db.lookup.row (db.index height) with
    | none => some db.stray
    | some row => some ⟨row.key, row.value⟩

/-- The newest slab with the hash. -/
def getByHash (db : BlockDatabase) (hash : HashDigest) : Option BlockResult :=
  (db.lookup.get hash).map fun slab => ⟨hash, slab⟩

/-- Positions from `first` on are cleared, necessary for parallel import as gaps are created. -/
def zeroize (index : Nat → Nat) (first count : Nat) (height : Nat) : Nat :=
  if first ≤ height ∧ height < first + count then emptyPosition else index height

/-- The index with the position written at the height, grown where it is too short. -/
def writePosition (index : Nat → Nat) (count position height : Nat) : Nat → Nat :=
  let newCount := u32 (height + 1)
  let index := if newCount > count then zeroize index count (newCount - count - 1) else index
  Function.update index height position

theorem writePosition_lt {index : Nat → Nat} {count position height free h : Nat}
    (hp : position < free) (hi : index h < free) :
    writePosition index count position height h < free := by
  have h0 : emptyPosition < free := Nat.lt_of_le_of_lt (Nat.zero_le _) hp
  unfold writePosition
  by_cases hh : h = height
  · subst hh
    rw [Function.update_self]
    exact hp
  · rw [Function.update_of_ne hh]
    split
    · unfold zeroize
      split
      · exact h0
      · exact hi
    · exact hi

/-- Below the last height the count does not wrap. -/
theorem writePosition_apply (index : Nat → Nat) (count position : Nat) {height : Nat}
    (hlt : height < maxUint32) (h : Nat) : writePosition index count position height h =
      if h = height then position
      else if count ≤ h ∧ h < height then emptyPosition else index h := by
  unfold writePosition
  rw [u32_of_le (Nat.succ_le_of_lt hlt)]
  by_cases hh : h = height
  · subst hh
    simp
  · simp only [Function.update_of_ne hh, hh, if_false]
    by_cases hc : height + 1 > count
    · simp only [hc, if_true, zeroize]
      congr 1
      exact propext (by omega)
    · rw [if_neg hc, if_neg (by omega)]

/-- Add the slab and write its position to the index. -/
def store (db : BlockDatabase) (b : Block) (height : Nat) : BlockDatabase where
  lookup := db.lookup.store b.header.hash (b.toSlab height) (blockExtent b) (blockExtent_pos b)
  index := writePosition db.index db.count db.lookup.free (u32 height)
  count := max db.count (u32 (u32 height + 1))
  stray := db.stray
  count_le := Nat.max_le.mpr ⟨db.count_le, u32_le _⟩
  index_lt h := by
    have hpos := blockExtent_pos b
    have hi := db.index_lt h
    show _ < db.lookup.free + blockExtent b
    exact writePosition_lt (by omega) (by omega)
  row_empty := by
    have hi := db.index_lt 0
    show ((db.lookup.toHashTable.store _ _ _).1).row emptyPosition = none
    rw [HashTable.store_row, if_neg (by unfold emptyPosition; omega)]
    exact db.row_empty
  row_linked p row hrow := by
    rw [Table.store_stack]
    rw [show (db.lookup.store _ _ _ (blockExtent_pos b)).row p = _ from HashTable.store_row ..] at hrow
    split at hrow
    · cases hrow
      rw [Stacks.push_same]
      exact List.mem_cons_self
    · have hmem := db.row_linked p row hrow
      by_cases hk : row.key = b.header.hash
      · rw [hk, Stacks.push_same]
        exact List.mem_cons_of_mem _ (hk ▸ hmem)
      · rw [Stacks.push_ne _ _ hk]
        exact hmem

/-- Whether a vector of the transactions at the height can be reserved. A stored block had one of
    its size; the count read at a gap is that of the stray bytes. -/
def reserves [Core] (db : BlockDatabase) (height : Nat) : Bool :=
  match db.lookup.row (db.index height) with
  | none => decide (db.stray.transactionCount ≤ Core.transactionLimit)
  | some _ => true

/-- Cut the index off at a height; `false` where there is nothing to cut. -/
def unlink (db : BlockDatabase) (fromHeight : Nat) : BlockDatabase × Bool :=
  if h : db.count > fromHeight then
    ({ db with count := fromHeight, count_le := Nat.le_trans (Nat.le_of_lt h) db.count_le }, true)
  else (db, false)

/-- The height of the last position. -/
def top (db : BlockDatabase) : Option Nat := if db.count = 0 then none else some (db.count - 1)

/-- The heights without a block. -/
def gaps (db : BlockDatabase) : List Nat :=
  (List.range db.count).filter fun height => db.index height == emptyPosition

/-! ## 2. What the operations do to the index and the slabs -/

/-- The slabs of a hash, newest first. -/
def slabs (db : BlockDatabase) : Stacks HashDigest BlockSlab := db.lookup.stack

/-- The block at a height, `none` at a gap and past the end. -/
def at? (db : BlockDatabase) (height : Nat) : Option BlockResult :=
  if height < db.count then
    (db.lookup.row (db.index height)).map fun row => ⟨row.key, row.value⟩
  else none

theorem get_eq (db : BlockDatabase) (height : Nat) :
    db.get height = if height < db.count then some ((db.at? height).getD db.stray) else none := by
  unfold get at?
  by_cases h : height < db.count
  · simp only [h, Nat.not_le.mpr h, if_false, if_true]
    cases db.lookup.row (db.index height) <;> rfl
  · simp [h, Nat.le_of_not_lt h]

theorem get_of_at {db : BlockDatabase} {height : Nat} {r : BlockResult}
    (h : db.at? height = some r) : db.get height = some r := by
  have hlt : height < db.count := by
    by_contra hge
    rw [at?, if_neg hge] at h
    cases h
  rw [get_eq, if_pos hlt, h]
  rfl

/-- A block can be read back. -/
theorem reserves_of_at [Core] {db : BlockDatabase} {height : Nat} {r : BlockResult}
    (h : db.at? height = some r) : db.reserves height = true := by
  unfold at? at h
  split at h
  · obtain ⟨row, hrow, _⟩ := Option.map_eq_some_iff.mp h
    unfold reserves
    rw [hrow]
  · cases h

theorem at_lt {db : BlockDatabase} {height : Nat} {r : BlockResult}
    (h : db.at? height = some r) : height < db.count := by
  by_contra hge
  rw [at?, if_neg hge] at h
  cases h

theorem getByHash_eq (db : BlockDatabase) (hash : HashDigest) :
    db.getByHash hash = (db.slabs hash).head?.map fun slab => ⟨hash, slab⟩ := by
  rw [getByHash, Table.get_eq]
  rfl

@[simp] theorem create_slabs [Core] (buckets : Nat) (stray : BlockResult) (hash : HashDigest) :
    (create buckets stray).slabs hash = [] := Table.create_stack ..

@[simp] theorem create_at [Core] (buckets : Nat) (stray : BlockResult) (height : Nat) :
    (create buckets stray).at? height = none := rfl

@[simp] theorem store_slabs (db : BlockDatabase) (b : Block) (height : Nat) :
    (db.store b height).slabs = db.slabs.push b.header.hash (b.toSlab height) :=
  Table.store_stack _ _ _ _ (blockExtent_pos b)

@[simp] theorem store_stray (db : BlockDatabase) (b : Block) (height : Nat) :
    (db.store b height).stray = db.stray := rfl

theorem store_count (db : BlockDatabase) (b : Block) {height : Nat} (h : height < maxUint32) :
    (db.store b height).count = max db.count (height + 1) := by
  show max db.count (u32 (u32 height + 1)) = _
  rw [u32_of_lt h, u32_of_le (Nat.succ_le_of_lt h)]

/-- **After a store the height has the block**, every other height has what it had. -/
theorem store_at (db : BlockDatabase) (b : Block) {height : Nat} (h : height < maxUint32)
    (k : Nat) : (db.store b height).at? k =
      if k = height then some ⟨b.header.hash, b.toSlab height⟩ else db.at? k := by
  have hrow (p : Nat) : (db.store b height).lookup.row p =
      if p = db.lookup.free then some ⟨b.header.hash, db.lookup.readBucketValue b.header.hash,
        b.toSlab height⟩ else db.lookup.row p := HashTable.store_row ..
  have hidx : (db.store b height).index k =
      if k = height then db.lookup.free
      else if db.count ≤ k ∧ k < height then emptyPosition else db.index k := by
    show writePosition db.index db.count db.lookup.free (u32 height) k = _
    rw [u32_of_lt h, writePosition_apply _ _ _ h]
  have hfree := db.index_lt k
  unfold at?
  rw [store_count db b h, hidx, hrow]
  by_cases hk : k = height
  · subst hk
    rw [if_pos (by omega)]
    simp
  · have hne : (if db.count ≤ k ∧ k < height then emptyPosition else db.index k) ≠ db.lookup.free := by
      split
      · unfold emptyPosition
        omega
      · omega
    rw [if_neg hk, if_neg hk, if_neg hne]
    by_cases hc : k < db.count
    · rw [if_pos hc, if_pos (by omega), if_neg (by omega)]
    · rw [if_neg hc]
      by_cases hb : k < height
      · rw [if_pos (by omega), if_pos ⟨by omega, hb⟩, db.row_empty]
        rfl
      · rw [if_neg (by omega)]

/-- After a store the height is taken, every other one as before. -/
theorem store_exists (db : BlockDatabase) (b : Block) {height : Nat} (h : height < maxUint32)
    (k : Nat) : (db.store b height).exists? k = (decide (k = height) || db.exists? k) := by
  have hidx : (db.store b height).index k =
      if k = height then db.lookup.free
      else if db.count ≤ k ∧ k < height then emptyPosition else db.index k := by
    show writePosition db.index db.count db.lookup.free (u32 height) k = _
    rw [u32_of_lt h, writePosition_apply _ _ _ h]
  have hfree := db.index_lt k
  unfold exists?
  rw [store_count db b h, hidx]
  by_cases hk : k = height
  · subst hk
    have hne : db.lookup.free ≠ emptyPosition := by
      unfold emptyPosition
      omega
    simp [hne]
  · rw [if_neg hk]
    by_cases hc : k < db.count
    · rw [if_neg (by omega)]
      simp [hk, hc]
    · by_cases hb : k < height
      · rw [if_pos (by omega)]
        simp [hk, hc]
      · simp [hk, hc, show ¬ k < height + 1 by omega]

/-- Without a free height below the count there is no gap. -/
theorem gaps_eq_nil {db : BlockDatabase} (h : ∀ k < db.count, db.exists? k = true) :
    db.gaps = [] := by
  refine List.filter_eq_nil_iff.mpr fun k hk => ?_
  have := h k (List.mem_range.mp hk)
  unfold exists? at this
  simp_all

/-- A height below the count keeps what `get` answers. -/
theorem store_get_lt (db : BlockDatabase) (b : Block) {height : Nat} (h : height < maxUint32)
    {k : Nat} (hk : k < db.count) (hne : k ≠ height) :
    (db.store b height).get k = db.get k := by
  rw [get_eq, get_eq, store_at db b h, if_neg hne, store_count db b h, if_pos hk, if_pos (by omega)]
  rfl

/-- The block just stored. -/
theorem store_get_same (db : BlockDatabase) (b : Block) {height : Nat} (h : height < maxUint32) :
    (db.store b height).get height = some ⟨b.header.hash, b.toSlab height⟩ := by
  refine get_of_at ?_
  rw [store_at db b h, if_pos rfl]

theorem unlink_of_lt {db : BlockDatabase} {fromHeight : Nat} (h : fromHeight < db.count) :
    db.unlink fromHeight =
      ({ db with
          count := fromHeight
          count_le := Nat.le_trans (Nat.le_of_lt h) db.count_le }, true) := dif_pos h

/-- A cut leaves the heights below it. -/
theorem unlink_get {db : BlockDatabase} {fromHeight : Nat} (h : fromHeight < db.count) (k : Nat) :
    (db.unlink fromHeight).1.get k = if k < fromHeight then db.get k else none := by
  rw [unlink_of_lt h]
  unfold get
  by_cases hk : k < fromHeight
  · simp [hk, Nat.lt_trans hk h, Nat.not_le.mpr]
  · simp [hk, Nat.le_of_not_lt hk]

theorem unlink_reserves [Core] (db : BlockDatabase) (fromHeight k : Nat) :
    (db.unlink fromHeight).1.reserves k = db.reserves k := by
  unfold unlink
  split <;> rfl

@[simp] theorem unlink_slabs (db : BlockDatabase) (fromHeight : Nat) :
    (db.unlink fromHeight).1.slabs = db.slabs := by
  unfold unlink
  split <;> rfl

theorem top_eq_some {db : BlockDatabase} {height : Nat} :
    db.top = some height ↔ db.count = height + 1 := by
  unfold top
  split
  · simp_all
  · simp only [Option.some.injEq]
    omega

theorem top_eq_none {db : BlockDatabase} : db.top = none ↔ db.count = 0 := by
  unfold top
  split <;> simp_all

end BlockDatabase

end Libbitcoin.Database
