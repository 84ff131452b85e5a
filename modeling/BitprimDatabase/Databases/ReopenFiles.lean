/-
  File:      BitprimDatabase/Databases/ReopenFiles.lean
  Subject:   THE DATABASES CLOSED AND OPENED (block_database.cpp, transaction_database.cpp,
             spend_database.cpp, history_database.cpp): `synchronize` writes the counts of the
             managers, `close` cuts the files at their logical size, `open` starts on what they hold.

  * `synchronize`, `reopen`, `Synced` -- of each database; what stands behind the end of a file is
    arbitrary when it is opened;
  * **`Holds.synchronize`**, **`Holds.reopen`** -- the files go on to hold what they held; the cache
    of the transaction table is empty.
-/
import BitprimDatabase.Databases.BlockFile
import BitprimDatabase.Databases.HistoryFile
import BitprimDatabase.Databases.SpendFile
import BitprimDatabase.Databases.TransactionFile
import BitprimDatabase.Primitives.Reopen

namespace Libbitcoin.Database

open Lib

/-! ## 1. Transactions -/

namespace TransactionFile

variable {form : StoreForm} {hash : Key 32 → Nat} {disk : Disk} {f f' : TransactionFile}
  {db : TransactionDatabase}

def synchronize (f : TransactionFile) : TransactionFile := { f with lookup := f.lookup.sync }

/-- Close and open: the cache is constructed anew. -/
def reopen (f : TransactionFile) (cacheCapacity : Nat) (rest : Memory) : Option TransactionFile :=
  (f.lookup.reopen rest).map fun lookup => ⟨lookup, UnspentOutputs.create cacheCapacity⟩

theorem Holds.synchronize (h : f.Holds form hash disk db) :
    f.synchronize.Holds form hash disk db := by
  obtain ⟨t, s', ht, hc⟩ := h.slabs
  exact ⟨⟨t, s', ht.sync, hc⟩, h.wire, h.cache_eq⟩

theorem Holds.reopen (h : f.Holds form hash disk db) (hs : f.lookup.Synced) (cacheCapacity : Nat)
    (rest : Memory) : ∃ f', f.reopen cacheCapacity rest = some f' ∧
      f'.Holds form hash disk { db with cache := UnspentOutputs.create cacheCapacity } ∧
        f'.lookup.Synced := by
  obtain ⟨t, s', ht, hc⟩ := h.slabs
  obtain ⟨g, hg, ht', _, hs'⟩ := ht.reopen hs rest
  refine ⟨⟨g, _⟩, ?_, ⟨⟨t, s', ht', hc⟩, h.wire, rfl⟩, hs'⟩
  unfold TransactionFile.reopen
  rw [hg]
  rfl

end TransactionFile

/-! ## 2. Spends -/

namespace SpendFile

variable {hash : Key 36 → Nat} {disk : Disk} {f : SpendFile} {s : Stacks WirePoint WirePoint}

def synchronize (f : SpendFile) : SpendFile := ⟨f.lookup.sync⟩

/-- Close and open. -/
def reopen (f : SpendFile) (rest : Memory) : Option SpendFile := (f.lookup.reopen rest).map mk

theorem Holds.synchronize (h : f.Holds hash disk s) : f.synchronize.Holds hash disk s := by
  obtain ⟨t, s', ht, hc⟩ := h
  exact ⟨t, s', ht.sync, hc⟩

theorem Holds.reopen (h : f.Holds hash disk s) (hs : f.lookup.Synced) (rest : Memory) :
    ∃ f', f.reopen rest = some f' ∧ f'.Holds hash disk s ∧ f'.lookup.count = f.lookup.count ∧
      f'.lookup.Synced := by
  obtain ⟨t, s', ht, hc⟩ := h
  obtain ⟨g, hg, ht', hcount, hs'⟩ := ht.reopen hs rest
  refine ⟨⟨g⟩, ?_, ⟨t, s', ht', hc⟩, hcount, hs'⟩
  unfold SpendFile.reopen
  rw [hg]
  rfl

end SpendFile

/-! ## 3. History -/

namespace HistoryFile

variable {hash : Key 20 → Nat} {disk : Disk} {f : HistoryFile} {s : Stacks ShortHash HistoryRow}

def synchronize (f : HistoryFile) : HistoryFile :=
  ⟨⟨f.rowsMultimap.map.sync, f.rowsMultimap.records.sync⟩⟩

/-- Close and open. -/
def reopen (f : HistoryFile) (rest restRows : Memory) : Option HistoryFile :=
  match f.rowsMultimap.map.reopen rest, f.rowsMultimap.records.reopen restRows with
  | some map, some records => some ⟨⟨map, records⟩⟩
  | _, _ => none

/-- The counts in both files are those of the managers. -/
def Synced (f : HistoryFile) : Prop := f.rowsMultimap.map.Synced ∧ f.rowsMultimap.records.Synced

theorem synchronize_synced (f : HistoryFile) : f.synchronize.Synced :=
  ⟨f.rowsMultimap.map.sync_synced, f.rowsMultimap.records.sync_synced⟩

/-- The bytes of the rows are all that counts. -/
theorem recordsRep_congr {records : RecordListFile rowRecordSize} {l : RecordList (List UInt8)}
    (h : records.Rep disk l) {size : MappedSize} (hlogical : size.logicalSize = records.logicalSize)
    (hfit : disk.Fits size) {bytes : Memory}
    (hbytes : ∀ i < records.logicalSize, 4 ≤ i → bytes i = records.bytes i) :
    RecordListFile.Rep disk (⟨size, bytes, records.count⟩ : RecordListFile rowRecordSize) l := by
  -- a record ends in front of the end, and starts behind the count
  have hin (i n : Nat) (row : List UInt8) (m : Option Nat) (hr : l.record i = some (m, row))
      (hn : n < 4 + row.length) : records.address i + n < records.logicalSize := by
    have hi : i < records.count := by
      rw [← h.count_eq]
      exact (l.isSome_iff i).mp (by rw [hr]; rfl)
    have hend := records.address_add_le hi
    have hsize := h.size i m row hr
    have hlog : records.logicalSize = records.address records.count := h.logical
    omega
  have hfour (i : Nat) : 4 ≤ records.address i := Nat.le_add_right _ _
  refine ⟨h.count_eq, h.count_le, fun i n row hr => ?_, fun i n row hr => ?_, h.size,
    hlogical.trans h.logical, hfit⟩
  · refine (congrArg Memory.ofLE (Memory.read_congr fun j hj hend => ?_)).trans (h.next i n row hr)
    have hj : records.address i ≤ j := hj
    have hend : j < records.address i + 4 := hend
    have := hin i (j - records.address i) row n hr (by omega)
    have := hfour i
    exact hbytes j (by omega) (by omega)
  · refine (h.row i n row hr).congr fun j hj hend => ?_
    have hdata : records.data i = records.address i + 4 := rfl
    rw [hdata] at hj hend
    have := hin i (j - records.address i) row n hr (by omega)
    exact hbytes j (by omega) (by omega)

theorem Holds.synchronize (h : f.Holds hash disk s) : f.synchronize.Holds hash disk s := by
  obtain ⟨m, hm, hcodes, hfits, hle⟩ := h
  obtain ⟨t, s', ht, hc⟩ := hm.map
  refine ⟨m, ⟨⟨t, s', ht.sync, hc⟩, ?_⟩, hcodes, hfits, hle⟩
  exact recordsRep_congr hm.records rfl hm.records.fits fun i _ hi =>
    f.rowsMultimap.records.sync_outside hi

theorem Holds.reopen (h : f.Holds hash disk s) (hs : f.Synced) (rest restRows : Memory) :
    ∃ f', f.reopen rest restRows = some f' ∧ f'.Holds hash disk s ∧
      f'.rowsMultimap.records.count = f.rowsMultimap.records.count ∧ f'.Synced := by
  obtain ⟨m, hm, hcodes, hfits, hle⟩ := h
  obtain ⟨t, s', ht, hc⟩ := hm.map
  obtain ⟨g, hg, ht', hcount, hg'⟩ := ht.reopen hs.1 rest
  obtain ⟨bytes, hr, hbytes, hr'⟩ :=
    RecordListFile.reopen_eq hm.records.logical hm.records.count_le hs.2 restRows
  refine ⟨⟨⟨g, ⟨f.rowsMultimap.records.reopened, bytes, f.rowsMultimap.records.count⟩⟩⟩, ?_,
    ⟨m, ⟨⟨t, s', ht', hc⟩, ?_⟩, hcodes, hfits, ?_⟩, rfl, hg', hr'⟩
  · unfold HistoryFile.reopen
    rw [hg, hr]
  · refine recordsRep_congr hm.records ?_ hm.records.fits.reopened fun i hi _ => hbytes i hi
    rfl
  · exact hcount.trans_le hle

end HistoryFile

/-! ## 4. Blocks -/

namespace BlockFile

variable {codec : SizeCodec} {hash : Key 32 → Nat} {disk : Disk} {f f' : BlockFile}
  {db : BlockDatabase}

/-- The index of the highest existing block, independent of gaps. -/
def top (f : BlockFile) : Option Nat := if f.count = 0 then none else some (f.count - 1)

/-- The index has a position at the height. -/
def exists? (f : BlockFile) (height : Nat) : Bool :=
  decide (height < f.count) && f.readPosition height != emptyPosition

def synchronize (f : BlockFile) : BlockFile :=
  { f with lookup := f.lookup.sync, index := f.index.writeWord 0 4 f.count }

/-- Start on the index file that was closed: `none` where its count exceeds it. -/
def startIndex (lookup : TableFile .slab 32) (index : Memory) (indexSize : Nat) : Option BlockFile :=
  let count := index.readWord 0 4
  if indexPosition count ≤ indexSize then some ⟨lookup, index, ⟨indexSize, indexSize⟩, count⟩
  else none

/-- Close and open. -/
def reopen (f : BlockFile) (rest restIndex : Memory) : Option BlockFile :=
  (f.lookup.reopen rest).bind fun lookup =>
    startIndex lookup (fun i => if i < f.indexSize.logicalSize then f.index i else restIndex i)
      f.indexSize.logicalSize

/-- The counts in both files are those of the managers. -/
def Synced (f : BlockFile) : Prop := f.lookup.Synced ∧ f.index.Holds 0 (Memory.toLE 4 f.count)

theorem synchronize_synced (f : BlockFile) : f.synchronize.Synced :=
  ⟨f.lookup.sync_synced, f.index.holds_write 0 (Memory.toLE 4 f.count)⟩

/-- The index file is as long as the count says, or longer. -/
structure Indexed (disk : Disk) (f : BlockFile) : Prop where
  le : indexPosition f.count ≤ f.indexSize.logicalSize
  fits : disk.Fits f.indexSize

theorem Indexed.unlink (h : f.Indexed disk) (fromHeight : Nat) :
    (f.unlink fromHeight).1.Indexed disk := by
  unfold BlockFile.unlink
  split
  · rename_i hlt
    have hle := h.le
    refine ⟨?_, h.fits⟩
    unfold indexPosition at hle ⊢
    dsimp only
    omega
  · exact h

theorem Indexed.store (h : f.Indexed disk) {b : Block} {height : Nat}
    (hs : f.store codec hash disk b height = some f') : f'.Indexed disk := by
  obtain ⟨r, _, hw⟩ := Option.bind_eq_some_iff.mp hs
  obtain ⟨g, hg, hw⟩ := Option.bind_eq_some_iff.mp hw
  obtain ⟨_, hw⟩ := Option.ite_none_left_eq_some.mp hw
  cases hw
  suffices hg : Indexed disk g from ⟨hg.le, hg.fits⟩
  dsimp only at hg
  split at hg
  · obtain ⟨g₁, hg₁, rfl⟩ := Option.map_eq_some_iff.mp hg
    obtain ⟨size, hsize, rfl⟩ := Option.map_eq_some_iff.mp hg₁
    obtain ⟨hfit, hlogical⟩ := Disk.reserve_eq_some h.fits.file_le hsize
    exact ⟨Nat.le_of_eq hlogical.symm, hfit⟩
  · cases hg
    exact ⟨h.le, h.fits⟩

theorem Holds.top_eq (h : f.Holds codec hash disk db) : f.top = db.top := by
  unfold top BlockDatabase.top
  rw [h.count_eq]

/-- A position at a height with a block, none at a gap. -/
theorem Holds.exists_eq (h : f.Holds codec hash disk db) (height : Nat) :
    f.exists? height = (db.at? height).isSome := by
  obtain ⟨t, s', ht, _, hpoints⟩ := h.slabs
  unfold exists?
  by_cases hlt : height < f.count
  · have hpoint := hpoints height hlt
    rw [decide_eq_true hlt, Bool.true_and]
    cases hat : db.at? height with
    | none =>
        rw [hat] at hpoint
        have hpoint : f.readPosition height = emptyPosition := hpoint
        rw [hpoint]
        rfl
    | some r =>
        rw [hat] at hpoint
        obtain ⟨p, _, hp, _⟩ := hpoint
        have hp : f.readPosition height = p + 40 := hp
        rw [hp]
        exact bne_iff_ne.mpr (Nat.succ_ne_zero _)
  · have hnone : db.at? height = none := by
      unfold BlockDatabase.at?
      rw [if_neg (h.count_eq ▸ hlt)]
    rw [decide_eq_false hlt, hnone]
    rfl

/-- The positions, and the tables, are all that counts. -/
theorem Holds.congr (h : f.Holds codec hash disk db) {lookup : TableFile .slab 32}
    (hlookup : ∀ t s, TableFile.Holding hash disk f.lookup t s → TableFile.Holding hash disk lookup t s)
    {index : Memory} {indexSize : MappedSize} (hindex : ∀ height < f.count,
      index.readWord (indexPosition height) 8 = f.readPosition height) :
    Holds codec hash disk ⟨lookup, index, indexSize, f.count⟩ db := by
  obtain ⟨t, s', ht, hc, hpoints⟩ := h.slabs
  refine ⟨⟨t, s', hlookup t s' ht, hc, fun height hh => ?_⟩, h.count_eq⟩
  show Points codec t (index.readWord (indexPosition height) 8) _
  rw [hindex height hh]
  exact hpoints height hh

theorem Holds.synchronize (h : f.Holds codec hash disk db) :
    f.synchronize.Holds codec hash disk db := by
  refine h.congr (fun t s ht => ht.sync) fun height _ => ?_
  refine Memory.readWord_writeWord_disjoint _ (.inr ?_)
  unfold indexPosition
  omega

theorem Holds.reopen (h : f.Holds codec hash disk db) (hi : f.Indexed disk) (hs : f.Synced)
    (rest restIndex : Memory) : ∃ f', f.reopen rest restIndex = some f' ∧
      f'.Holds codec hash disk db ∧ f'.Indexed disk ∧ f'.Synced := by
  obtain ⟨t, s', ht, hc, hpoints⟩ := h.slabs
  obtain ⟨g, hg, _, _, hg'⟩ := ht.reopen hs.1 rest
  let index : Memory := fun i => if i < f.indexSize.logicalSize then f.index i else restIndex i
  have hsize := hi.le
  unfold indexPosition at hsize
  have hcountLt : f.count < Memory.limit 4 := by
    rw [h.count_eq]
    exact Nat.lt_succ_of_le db.count_le
  have hcountWord : index.Holds 0 (Memory.toLE 4 f.count) := hs.2.congr fun i _ hlt => by
    rw [Memory.length_toLE] at hlt
    exact if_pos (by omega)
  have hcount : index.readWord 0 4 = f.count := hcountWord.word hcountLt
  refine ⟨⟨g, index, f.indexSize.reopened, f.count⟩, ?_, ?_, ⟨hi.le, hi.fits.reopened⟩, hg',
    hcountWord⟩
  · unfold BlockFile.reopen
    rw [hg, Option.bind_some]
    unfold startIndex
    dsimp only
    rw [show (fun i => if i < f.indexSize.logicalSize then f.index i else restIndex i) = index
      from rfl, hcount]
    exact if_pos hi.le
  · refine h.congr (fun t s ht => ?_) fun height hh => ?_
    · obtain ⟨g₁, hg₁, ht', _⟩ := ht.reopen hs.1 rest
      cases hg.symm.trans hg₁
      exact ht'
    · refine congrArg Memory.ofLE (Memory.read_congr fun i _ hlt => if_pos ?_)
      unfold indexPosition at hlt
      omega

end BlockFile

end Libbitcoin.Database
