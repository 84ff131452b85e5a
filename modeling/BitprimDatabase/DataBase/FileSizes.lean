/-
  File:      BitprimDatabase/DataBase/FileSizes.lean
  Subject:   **WHAT THE CALLS TAKE OF THE DISK**: on files that hold their tables a store returns
             where the disk grants the file what it adds, and every other call keeps the sizes.

  * `TransactionFile.Holds.store_returns`, `BlockFile.Holds.store_returns`, … -- the stores, with the
    sizes they leave;
  * `TableFile.unlink_size`, `TransactionFile.spend_size`, … -- the calls that take nothing.
-/
import BitprimDatabase.DataBase.FilesHold

namespace Libbitcoin.Database

open Lib

/-! ## 1. Tables and lists of records -/

namespace TableFile

variable {m : Manager} {keySize : Nat} {hash : Key keySize → Nat} {disk : Disk}
  {f f' : TableFile m keySize}

theorem unlinkFrom_size {key : Key keySize} {fuel previous current : Nat} {b : Bool}
    (hc : f.unlinkFrom key fuel previous current = some (f', b)) : f'.logicalSize = f.logicalSize := by
  induction fuel generalizing previous current with
  | zero => cases hc
  | succ fuel ih =>
      unfold unlinkFrom at hc
      split at hc
      · cases hc
        rfl
      split at hc
      · cases hc
        rfl
      split at hc
      · cases hc
        rfl
      · exact ih hc

theorem unlink_size {fuel : Nat} {key : Key keySize} {b : Bool}
    (hc : f.unlink hash fuel key = some (f', b)) : f'.logicalSize = f.logicalSize := by
  unfold unlink at hc
  dsimp only at hc
  split at hc
  · cases hc
    rfl
  · exact unlinkFrom_size hc

theorem reopen_size {rest : Memory} (hc : f.reopen rest = some f') :
    f'.logicalSize = f.logicalSize := by
  unfold reopen start at hc
  dsimp only at hc
  split at hc
  · cases hc
    rfl
  · cases hc

end TableFile

namespace RecordListFile

variable {recordSize : Nat} {f f' : RecordListFile recordSize}

theorem reopen_size {rest : Memory} (hc : f.reopen rest = some f') :
    f'.logicalSize = f.logicalSize := by
  unfold reopen start at hc
  dsimp only at hc
  split at hc
  · cases hc
    rfl
  · cases hc

end RecordListFile

/-! ## 2. Transactions and the pool -/

/-- The bytes of an item of a transaction table. -/
def storeBytes (form : StoreForm) (tx : Transaction) : Nat :=
  40 + (slabBytes form (tx.toSlab 0 0)).length

/-- The words in front do not count. -/
theorem length_slabBytes (form : StoreForm) (tx : Transaction) (height position : Nat) :
    (slabBytes form (tx.toSlab height position)).length = (slabBytes form (tx.toSlab 0 0)).length := by
  rw [slabBytes_toSlab, slabBytes_toSlab]
  simp only [List.length_append, Memory.length_toLE]

namespace TransactionFile

variable {form : StoreForm} {hash : Key 32 → Nat} {disk : Disk} {f f' : TransactionFile}
  {db : TransactionDatabase}

theorem confirm_size {txHash : HashDigest} {height position : Nat} {r : Bool}
    (hc : f.confirm hash txHash height position = some (f', r)) :
    f'.lookup.logicalSize = f.lookup.logicalSize := by
  unfold confirm at hc
  split at hc
  · cases hc
  · cases hc
    rfl
  · cases hc
    rfl

theorem writeSpend_size (form : StoreForm) (f : TransactionFile) (slab index spenderHeight : Nat) :
    (f.writeSpend form slab index spenderHeight).1.lookup.logicalSize = f.lookup.logicalSize := by
  unfold writeSpend
  dsimp only
  split <;> rfl

theorem spend_size {point : Point} {spenderHeight : Nat} {r : Bool}
    (hc : f.spend form hash point spenderHeight = some (f', r)) :
    f'.lookup.logicalSize = f.lookup.logicalSize := by
  have hcache : (if spenderHeight != notSpent then { f with cache := f.cache.removePoint point }
      else f).lookup = f.lookup := by split <;> rfl
  unfold spend at hc
  dsimp only at hc
  split at hc
  · cases hc
  · cases hc
    rw [hcache]
  · have hsize := congrArg (fun r => r.1.lookup.logicalSize) (Option.some.inj hc)
    rw [← hcache]
    exact hsize.symm.trans (writeSpend_size ..)

/-- **A store** adds an item, or confirms in place. -/
theorem Holds.store_returns [Core] (h : f.Holds form hash disk db) (hd : disk.size ≤ maxObject)
    (tx : Transaction) (height position : Nat)
    (hdisk : disk.Grants (f.lookup.logicalSize + storeBytes form tx)) : ∃ f',
    f.store form hash disk tx height position = some f' ∧
      f'.lookup.logicalSize ≤ f.lookup.logicalSize + storeBytes form tx := by
  have hnew (g : TransactionFile) (db' : TransactionDatabase) (hg : g.Holds form hash disk db')
      (hsize : g.lookup.logicalSize = f.lookup.logicalSize) : ∃ f',
      g.storeNew form hash disk tx height position = some f' ∧
        f'.lookup.logicalSize ≤ f.lookup.logicalSize + storeBytes form tx := by
    obtain ⟨t, s', ht, _⟩ := hg.slabs
    have hitem : Manager.slab.itemBytes 32 (slabBytes form (tx.toSlab height position)).length =
        storeBytes form tx := by
      rw [length_slabBytes]
      rfl
    obtain ⟨lookup, off, hs, hl⟩ := ht.store_returns hd (hashKey tx.hash)
      (slabBytes form (tx.toSlab height position)) True.intro True.intro
      (by rw [hitem, hsize]; exact hdisk)
    rw [hitem, hsize] at hl
    refine ⟨⟨lookup, g.cache.add tx height (position != unconfirmed)⟩, ?_, Nat.le_of_eq hl⟩
    unfold TransactionFile.storeNew
    rw [← slabBytes_toSlab]
    dsimp only
    rw [hs]
    rfl
  unfold TransactionFile.store
  split
  · obtain ⟨g, hg, hheld⟩ := h.confirm tx.hash height position
    have hsize := confirm_size hg
    rw [hg]
    cases (db.confirm tx.hash height position).2 with
    | true => exact ⟨_, rfl, hsize.trans_le (Nat.le_add_right _ _)⟩
    | false => exact hnew g _ hheld hsize
  · exact hnew f db h rfl

end TransactionFile

namespace PoolFile

variable {form : StoreForm} {hash : Key 32 → Nat} {disk : Disk} {f f' : PoolFile}
  {db : TransactionUnconfirmedDatabase}

theorem unlinkIfExists_size {txHash : HashDigest} {r : Bool}
    (hc : f.unlinkIfExists hash txHash = some (f', r)) :
    f'.lookup.logicalSize = f.lookup.logicalSize := by
  unfold unlinkIfExists at hc
  split at hc
  · cases hc
  · cases hc
    rfl
  · obtain ⟨⟨lookup, b⟩, hu, he⟩ := Option.map_eq_some_iff.mp hc
    cases he
    exact TableFile.unlink_size hu

/-- **A store** adds an item. -/
theorem Holds.store_returns (h : f.Holds form hash disk db) (hd : disk.size ≤ maxObject)
    (tx : Transaction) (hdisk : disk.Grants (f.lookup.logicalSize + storeBytes form tx)) : ∃ f',
    f.store form hash disk tx = some f' ∧
      f'.lookup.logicalSize = f.lookup.logicalSize + storeBytes form tx := by
  obtain ⟨t, s', ht, _⟩ := h.slabs
  have hitem : Manager.slab.itemBytes 32 (slabBytes form (tx.toSlab 0 unconfirmed)).length =
      storeBytes form tx := by
    rw [length_slabBytes]
    rfl
  obtain ⟨lookup, off, hs, hl⟩ := ht.store_returns hd (hashKey tx.hash)
    (slabBytes form (tx.toSlab 0 unconfirmed)) True.intro True.intro (by rw [hitem]; exact hdisk)
  rw [hitem] at hl
  refine ⟨⟨lookup⟩, ?_, hl⟩
  unfold PoolFile.store
  rw [← slabBytes_toSlab]
  dsimp only
  rw [hs]
  rfl

end PoolFile

/-! ## 3. The indexes -/

namespace SpendFile

variable {hash : Key 36 → Nat} {disk : Disk} {f f' : SpendFile} {s : Stacks WirePoint WirePoint}

theorem unlink_size {outpoint : WirePoint} {r : Bool}
    (hc : f.unlink hash outpoint = some (f', r)) : f'.lookup.logicalSize = f.lookup.logicalSize := by
  unfold unlink at hc
  split at hc
  · cases hc
  · cases hc
    rfl
  · obtain ⟨⟨lookup, b⟩, hu, he⟩ := Option.map_eq_some_iff.mp hc
    cases he
    exact TableFile.unlink_size hu

theorem Holds.store_returns (h : f.Holds hash disk s) (hd : disk.size ≤ maxObject)
    (outpoint spend : WirePoint) (hroom : f.lookup.count < maxUint32)
    (hdisk : disk.Grants (f.lookup.logicalSize + 76)) : ∃ f',
    f.store hash disk outpoint spend = some f' ∧
      f'.lookup.logicalSize = f.lookup.logicalSize + 76 := by
  obtain ⟨t, s', ht, _⟩ := h
  have hlen : (pointBytes spend.val).length = 36 := length_pointBytes _
  obtain ⟨lookup, off, hs, hl⟩ := ht.store_returns hd outpoint.key (pointBytes spend.val)
    (Nat.le_of_eq hlen) (Nat.succ_lt_succ hroom) hdisk
  refine ⟨⟨lookup⟩, ?_, hl⟩
  unfold SpendFile.store
  rw [hs]
  rfl

end SpendFile

namespace HistoryFile

variable {hash : Key 20 → Nat} {f f' : HistoryFile}

theorem deleteLastRow_size {key : ShortHash} {r : Bool}
    (hc : f.deleteLastRow hash key = some (f', r)) :
    f'.rowsMultimap.map.logicalSize = f.rowsMultimap.map.logicalSize ∧
      f'.rowsMultimap.records.logicalSize = f.rowsMultimap.records.logicalSize := by
  unfold deleteLastRow at hc
  obtain ⟨⟨g, b⟩, hg, he⟩ := Option.map_eq_some_iff.mp hc
  cases he
  unfold MultimapFile.deleteLastRow at hg
  obtain ⟨start, _, hg⟩ := Option.bind_eq_some_iff.mp hg
  split at hg
  · cases hg
    exact ⟨rfl, rfl⟩
  · dsimp only at hg
    split at hg
    · obtain ⟨⟨map, b⟩, hu, he⟩ := Option.map_eq_some_iff.mp hg
      cases he
      exact ⟨TableFile.unlink_size hu, rfl⟩
    · cases hg
      exact ⟨rfl, rfl⟩

end HistoryFile

namespace StealthFile

variable {disk : Disk} {f f' : StealthFile} {db : StealthDatabase}

theorem Holds.store_returns (h : f.Holds disk db) (hd : disk.size ≤ maxObject)
    (stealthPrefix height : Nat) (row : StealthCompact) (hroom : f.rows.count < maxUint32)
    (hdisk : disk.Grants (f.rows.logicalSize + stealthRowSize)) : ∃ f',
    f.store disk stealthPrefix height row = some f' ∧
      f'.rows.logicalSize = f.rows.logicalSize + stealthRowSize := by
  obtain ⟨size, hreserve⟩ := @Disk.Grants.reserve _ f.rows.toMappedSize _ _ hdisk (Nat.le_refl _)
  unfold StealthFile.store
  rw [RecordListFile.newRecords_eq h.logical h.within hd (by decide) hroom, hreserve]
  exact ⟨_, rfl, (Disk.reserve_eq_some h.within.file_le hreserve).2⟩

end StealthFile

/-! ## 4. Blocks -/

namespace BlockFile

variable {codec : SizeCodec} {hash : Key 32 → Nat} {disk : Disk} {f f' : BlockFile}
  {db : BlockDatabase}

theorem unlink_size (f : BlockFile) (fromHeight : Nat) :
    (f.unlink fromHeight).1.lookup.logicalSize = f.lookup.logicalSize ∧
      (f.unlink fromHeight).1.indexSize = f.indexSize := by
  unfold unlink
  split <;> exact ⟨rfl, rfl⟩

/-- The index grows up to the height. -/
theorem Indexed.writePosition_returns (h : f.Indexed disk) (position : Nat) {height : Nat}
    (hheight : height < maxUint32)
    (hdisk : disk.Grants (indexPosition (height + 1))) : ∃ f',
    f.writePosition disk position height = some f' ∧ f'.lookup = f.lookup ∧
      f'.indexSize.logicalSize ≤ max f.indexSize.logicalSize (indexPosition (height + 1)) := by
  have hnext : indexPosition height + 8 = indexPosition (height + 1) := by
    unfold indexPosition
    omega
  unfold writePosition
  dsimp only
  rw [u32_of_le (Nat.succ_le_of_lt hheight), hnext]
  by_cases hgrow : height + 1 > f.count
  · have hsum : u32 (f.count + (height + 1 - f.count)) = height + 1 := by
      rw [Nat.add_sub_cancel' (Nat.le_of_lt hgrow), u32_of_le (Nat.succ_le_of_lt hheight)]
    obtain ⟨size, hreserve⟩ := @Disk.Grants.reserve _ f.indexSize _ _ hdisk (Nat.le_refl _)
    obtain ⟨hfit, hlogical⟩ := Disk.reserve_eq_some h.fits.file_le hreserve
    rw [if_pos hgrow]
    unfold newRecords
    dsimp only
    rw [hsum, hreserve, Option.map_some, Option.map_some, Option.bind_some,
      if_neg (Nat.not_lt.mpr (hlogical ▸ hfit.logical_le))]
    exact ⟨_, rfl, rfl, Nat.le_trans (Nat.le_of_eq hlogical) (Nat.le_max_right _ _)⟩
  · have hle : indexPosition (height + 1) ≤ f.indexSize.fileSize := by
      refine Nat.le_trans (Nat.le_trans ?_ h.le) h.fits.logical_le
      unfold indexPosition
      omega
    rw [if_neg hgrow, Option.bind_some, if_neg (Nat.not_lt.mpr hle)]
    exact ⟨_, rfl, rfl, Nat.le_max_left _ _⟩

/-- **A store** takes a slab, and the index up to the height. -/
theorem Holds.store_returns (h : f.Holds codec hash disk db) (hi : f.Indexed disk)
    (hd : disk.size ≤ maxObject) {b : Block} (hw : b.Wire codec) {height : Nat}
    (hheight : height < maxUint32)
    (hdisk : disk.Grants (f.lookup.logicalSize + (40 + recordSize codec b)))
    (hindex : disk.Grants (indexPosition (height + 1))) : ∃ f',
    f.store codec hash disk b height = some f' ∧
      f'.lookup.logicalSize = f.lookup.logicalSize + (40 + recordSize codec b) ∧
        f'.indexSize.logicalSize ≤ max f.indexSize.logicalSize (indexPosition (height + 1)) := by
  obtain ⟨t, s', ht, _⟩ := h.slabs
  have hlen := length_recordBytes codec hw.count (u32 height)
  have hitem : Manager.slab.itemBytes 32 (recordBytes codec b (u32 height)).length =
      40 + recordSize codec b := congrArg (32 + 8 + ·) hlen
  obtain ⟨lookup, off, hs, hl⟩ := ht.store_returns hd (hashKey b.header.hash)
    (recordBytes codec b (u32 height)) True.intro True.intro (by rw [hitem]; exact hdisk)
  have hi' : Indexed disk { f with lookup := lookup } := ⟨hi.le, hi.fits⟩
  obtain ⟨f', hf', hlookup, hsize⟩ := hi'.writePosition_returns off hheight hindex
  refine ⟨f', ?_, by rw [hlookup, ← hitem]; exact hl, hsize⟩
  unfold BlockFile.store
  dsimp only
  rw [TableFile.storeSized_eq _ _ _ _ hlen, hs, Option.bind_some, u32_of_lt hheight]
  exact hf'

end BlockFile

end Libbitcoin.Database
