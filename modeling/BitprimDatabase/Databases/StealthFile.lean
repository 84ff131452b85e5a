/-
  File:      BitprimDatabase/Databases/StealthFile.lean
  Subject:   **THE STEALTH ROWS IN THEIR FILE** (stealth_database.cpp): an array of records without an
             index, searched from the first to the last.

      a row:  [ prefix:4 ] [ height:4 ] [ ephemeral key:32 ] [ address:20 ] [ transaction:32 ]

  * `store`, `scan`, `reopen`, `restart` -- on the bytes; a row is never removed;
  * `Holds` -- the file holds the rows of Indexes.lean in the order of their storing;
  * **`scan_exact`** -- behind every sequence of stores and restarts `scan` answers the stored rows
    whose prefix the filter is a prefix of, from a height on, in order.

  The filter is the core library's: `isPrefixOf` is its `is_prefix_of`.
-/
import BitprimDatabase.Databases.Indexes
import BitprimDatabase.Databases.WireForms
import BitprimDatabase.Primitives.MultimapFile

namespace Libbitcoin.Database

open Lib

/-! ## 1. The bytes of a row -/

/-- Prefix, height and stealth data. -/
abbrev StealthRow := Nat × Nat × StealthCompact

/-- `row_size`. -/
def stealthRowSize : Nat := 4 + 4 + 32 + 20 + 32

/-- What `store` writes behind prefix and height. -/
def StealthCompact.bytes (row : StealthCompact) : List UInt8 :=
  hashBytes row.ephemeralPublicKeyHash ++
    (shortHashBytes row.publicKeyHash ++ hashBytes row.transactionHash)

def stealthRowBytes (row : StealthRow) : List UInt8 :=
  Memory.toLE 4 row.1 ++ (Memory.toLE 4 row.2.1 ++ row.2.2.bytes)

/-- The fields in the order of the deserializer. -/
def readCompact (m : Memory) (a : Nat) : StealthCompact :=
  ⟨readHash m a, readShortHash m (a + 32), readHash m (a + 32 + 20)⟩

/-- The types of prefix and height. -/
def StealthRow.Fits (row : StealthRow) : Prop := row.1 ≤ maxUint32 ∧ row.2.1 ≤ maxUint32

theorem length_stealthRowBytes (row : StealthRow) : (stealthRowBytes row).length = stealthRowSize := by
  simp [stealthRowBytes, StealthCompact.bytes, stealthRowSize]

/-- **A row is read back** field by field. -/
theorem readStealthRow_of_holds {m : Memory} {a : Nat} {row : StealthRow} (hf : row.Fits)
    (h : m.Holds a (stealthRowBytes row)) : m.readWord a 4 = row.1 ∧
      m.readWord (a + 4) 4 = row.2.1 ∧ readCompact m (a + 4 + 4) = row.2.2 := by
  obtain ⟨hpre, h⟩ := Memory.holds_append.mp h
  obtain ⟨hheight, h⟩ := Memory.holds_append.mp h
  obtain ⟨hkey, h⟩ := Memory.holds_append.mp h
  obtain ⟨haddress, hhash⟩ := Memory.holds_append.mp h
  rw [Memory.length_toLE] at hheight hkey haddress hhash
  rw [Memory.length_toLE] at hkey haddress hhash
  rw [length_hashBytes] at haddress hhash
  rw [length_shortHashBytes] at hhash
  refine ⟨hpre.word (Nat.lt_succ_of_le hf.1), hheight.word (Nat.lt_succ_of_le hf.2), ?_⟩
  unfold readCompact
  rw [readHash_of_holds hkey, readShortHash_of_holds haddress, readHash_of_holds hhash]

/-! ## 2. The calls -/

structure StealthFile where
  rows : RecordListFile stealthRowSize

namespace StealthFile

/-- The rows in an opened file. -/
def create (disk : Disk) (bytes : Memory) : Option StealthFile :=
  (RecordListFile.createFile stealthRowSize disk bytes).map StealthFile.mk

/-- Allocate a row and write it. -/
def store (f : StealthFile) (disk : Disk) (stealthPrefix height : Nat) (row : StealthCompact) :
    Option StealthFile :=
  (f.rows.newRecords disk).map fun (rows, index) =>
    ⟨{ rows with
      bytes := rows.bytes.write (rows.address index)
        (Memory.toLE 4 stealthPrefix ++ (Memory.toLE 4 height ++ row.bytes)) }⟩

/-- One pass of the loop of `scan`. -/
def scanRow (f : StealthFile) (isPrefixOf : Nat → Bool) (fromHeight : Nat)
    (result : List StealthCompact) (row : Nat) : List StealthCompact :=
  let record := f.rows.address row
  let field := f.rows.bytes.readWord record 4
  if !isPrefixOf field then result
  else
    let record := record + 4
    let height := f.rows.bytes.readWord record 4
    if height < fromHeight then result else result ++ [readCompact f.rows.bytes (record + 4)]

def scan (f : StealthFile) (isPrefixOf : Nat → Bool) (fromHeight : Nat) : List StealthCompact :=
  (List.range f.rows.count).foldl (f.scanRow isPrefixOf fromHeight) []

def synchronize (f : StealthFile) : StealthFile := ⟨f.rows.sync⟩

/-- Close and open, with `rest` behind the end of the file. -/
def reopen (f : StealthFile) (rest : Memory) : Option StealthFile := (f.rows.reopen rest).map mk

/-- Synchronize, close and open. -/
def restart (f : StealthFile) (rest : Memory) : Option StealthFile := f.synchronize.reopen rest

/-- The calls; a restart finds anything behind the end of the file. -/
inductive Call where
  | store (stealthPrefix height : Nat) (row : StealthCompact)
  | restart (rest : Memory)

namespace Call

/-- The call on the file, `none` where it throws. -/
def apply (disk : Disk) (f : StealthFile) : Call → Option StealthFile
  | store stealthPrefix height row => f.store disk stealthPrefix height row
  | restart rest => f.restart rest

/-- The call on the rows of Indexes.lean. -/
def applyDatabase (db : StealthDatabase) : Call → StealthDatabase
  | store stealthPrefix height row => db.store stealthPrefix height row
  | restart _ => db

/-- Prefix and height have four bytes. -/
def Fits : Call → Prop
  | store stealthPrefix height _ => stealthPrefix ≤ maxUint32 ∧ height ≤ maxUint32
  | restart _ => True

def additions : Call → Nat
  | store _ _ _ => 1
  | restart _ => 0

end Call

/-! ## 3. The rows a file holds -/

/-- **The file holds the rows**, in order. -/
structure Holds (disk : Disk) (f : StealthFile) (db : StealthDatabase) : Prop where
  count_eq : f.rows.count = db.rows.length
  count_le : f.rows.count ≤ maxUint32
  logical : f.rows.logicalSize = RecordListFile.position stealthRowSize f.rows.count
  within : disk.Fits f.rows.toMappedSize
  fits : ∀ row ∈ db.rows, StealthRow.Fits row
  row : ∀ i row, db.rows[i]? = some row → f.rows.bytes.Holds (f.rows.address i) (stealthRowBytes row)

variable {disk : Disk} {f f' : StealthFile} {db : StealthDatabase}

theorem create_holds {bytes : Memory} (hc : create disk bytes = some f) :
    f.Holds disk .create ∧ f.rows.count = 0 := by
  obtain ⟨rows, hr, rfl⟩ := Option.map_eq_some_iff.mp hc
  obtain ⟨hrep, hzero⟩ := RecordListFile.createFile_rep hr
  exact ⟨⟨hzero, hrep.count_le, hrep.logical, hrep.fits, fun _ h => (nomatch h),
    fun _ _ h => (nomatch h)⟩, hzero⟩

/-- A row ends in front of the rows behind it, and of the end. -/
theorem Holds.row_end (h : f.Holds disk db) {i : Nat} {row : StealthRow}
    (hr : db.rows[i]? = some row) :
    f.rows.address i + stealthRowSize ≤ f.rows.address f.rows.count ∧ 4 ≤ f.rows.address i := by
  obtain ⟨hi, _⟩ := List.getElem?_eq_some_iff.mp hr
  exact ⟨f.rows.address_add_le (h.count_eq ▸ hi), Nat.le_add_right _ _⟩

/-- Four bytes of a height are written. -/
theorem store_u32 (f : StealthFile) (disk : Disk) (stealthPrefix height : Nat) (row : StealthCompact) :
    f.store disk stealthPrefix (u32 height) row = f.store disk stealthPrefix height row := by
  unfold StealthFile.store
  rw [show Memory.toLE 4 (u32 height) = Memory.toLE 4 height from Memory.toLE_mod 4 height]

/-- **A store** puts a row behind the others. -/
theorem Holds.store (h : f.Holds disk db) (hd : disk.size ≤ maxObject) (hroom : f.rows.count < maxUint32)
    {stealthPrefix height : Nat} (hp : stealthPrefix ≤ maxUint32) {row : StealthCompact}
    (hs : f.store disk stealthPrefix height row = some f') :
    f'.Holds disk (db.store stealthPrefix height row) ∧ f'.rows.count = f.rows.count + 1 := by
  rw [← store_u32] at hs
  unfold StealthFile.store at hs
  rw [RecordListFile.newRecords_eq h.logical h.within hd (by decide) hroom, Option.map_map] at hs
  obtain ⟨size, hreserve, hs⟩ := Option.map_eq_some_iff.mp hs
  obtain ⟨hfit, hlogical⟩ := Disk.reserve_eq_some h.within.file_le hreserve
  cases hs
  have hsize := length_stealthRowBytes (stealthPrefix, u32 height, row)
  refine ⟨⟨?_, hroom, ?_, hfit, fun row' hm => ?_, fun i row' hr => ?_⟩, rfl⟩
  · show f.rows.count + 1 = (db.rows ++ [_]).length
    rw [List.length_append, h.count_eq]
    rfl
  · show size.logicalSize = 4 + (f.rows.count + 1) * stealthRowSize
    rw [hlogical]
    have hlog : f.rows.logicalSize = 4 + f.rows.count * stealthRowSize := h.logical
    rw [Nat.succ_mul]
    omega
  · rcases List.mem_append.mp hm with hm | hm
    · exact h.fits row' hm
    · rw [List.mem_singleton.mp hm]
      exact ⟨hp, u32_le height⟩
  · rcases Nat.lt_or_ge i db.rows.length with hi | hi
    · have hr : db.rows[i]? = some row' := (List.getElem?_append_left hi).symm.trans hr
      refine (h.row i row' hr).write (.inl ?_)
      rw [length_stealthRowBytes]
      exact (h.row_end hr).1
    · have hr : [(stealthPrefix, u32 height, row)][i - db.rows.length]? = some row' :=
        (List.getElem?_append_right hi).symm.trans hr
      obtain ⟨hlt, he⟩ := List.getElem?_eq_some_iff.mp hr
      have hi : i = f.rows.count := by
        have := h.count_eq
        have hlt : i - db.rows.length < 1 := hlt
        omega
      subst hi
      rw [List.getElem_singleton] at he
      subst he
      exact Memory.holds_write ..

/-- The bytes of the rows are all that counts. -/
theorem Holds.congr (h : f.Holds disk db) {size : MappedSize}
    (hlogical : size.logicalSize = f.rows.logicalSize) (hfit : disk.Fits size) {bytes : Memory}
    (hbytes : ∀ i < f.rows.logicalSize, 4 ≤ i → bytes i = f.rows.bytes i) :
    Holds disk ⟨⟨size, bytes, f.rows.count⟩⟩ db := by
  refine ⟨h.count_eq, h.count_le, hlogical.trans h.logical, hfit, h.fits, fun i row hr =>
    (h.row i row hr).congr fun j hj hend => ?_⟩
  obtain ⟨hle, hfour⟩ := h.row_end hr
  rw [length_stealthRowBytes] at hend
  have hlog : f.rows.logicalSize = f.rows.address f.rows.count := h.logical
  exact hbytes j (hlog ▸ Nat.lt_of_lt_of_le hend hle) (Nat.le_trans hfour hj)

theorem Holds.synchronize (h : f.Holds disk db) : f.synchronize.Holds disk db :=
  h.congr rfl h.within fun _ _ hfour => f.rows.sync_outside hfour

/-- **A synchronized file is reopened** with its rows. -/
theorem Holds.reopen (h : f.Holds disk db) (hs : f.rows.Synced) (rest : Memory) :
    ∃ f', f.reopen rest = some f' ∧ f'.Holds disk db ∧ f'.rows.count = f.rows.count ∧
      f'.rows.Synced := by
  obtain ⟨bytes, hf, hbytes, hs'⟩ := RecordListFile.reopen_eq h.logical h.count_le hs rest
  refine ⟨⟨⟨f.rows.reopened, bytes, f.rows.count⟩⟩, ?_,
    h.congr (show f.rows.reopened.logicalSize = _ from rfl) h.within.reopened
      fun i hi _ => hbytes i hi, rfl, hs'⟩
  unfold StealthFile.reopen
  rw [hf]
  rfl

/-- **A restart** keeps the rows. -/
theorem Holds.restart (h : f.Holds disk db) (rest : Memory) :
    ∃ f', f.restart rest = some f' ∧ f'.Holds disk db ∧ f'.rows.count = f.rows.count := by
  obtain ⟨f', hf, h', hcount, _⟩ := h.synchronize.reopen f.rows.sync_synced rest
  exact ⟨f', hf, h', hcount⟩

/-- One pass of the loop looks at one row. -/
theorem Holds.scanRow_eq (h : f.Holds disk db) (isPrefixOf : Nat → Bool) (fromHeight : Nat)
    (result : List StealthCompact) {i : Nat} {row : StealthRow} (hr : db.rows[i]? = some row) :
    f.scanRow isPrefixOf fromHeight result i =
      result ++ StealthDatabase.scan ⟨[row]⟩ isPrefixOf fromHeight := by
  obtain ⟨hpre, hheight, hdata⟩ :=
    readStealthRow_of_holds (h.fits row (List.mem_of_getElem? hr)) (h.row i row hr)
  unfold scanRow StealthDatabase.scan
  dsimp only
  rw [hpre, hheight, hdata]
  cases hp : isPrefixOf row.1 with
  | false => simp [hp]
  | true =>
      by_cases hh : row.2.1 < fromHeight
      · simp [hp, hh]
      · simp [hp, hh, Nat.le_of_not_lt hh]

/-- **The loop of `scan`** is the filter of the rows. -/
theorem Holds.scan_eq (h : f.Holds disk db) (isPrefixOf : Nat → Bool) (fromHeight : Nat) :
    f.scan isPrefixOf fromHeight = db.scan isPrefixOf fromHeight := by
  have hloop (n : Nat) (hn : n ≤ db.rows.length) :
      (List.range n).foldl (f.scanRow isPrefixOf fromHeight) [] =
        StealthDatabase.scan ⟨db.rows.take n⟩ isPrefixOf fromHeight := by
    induction n with
    | zero => rfl
    | succ n ih =>
        have hr : db.rows[n]? = some db.rows[n] := List.getElem?_eq_getElem hn
        rw [List.range_succ, List.foldl_append, ih (Nat.le_of_succ_le hn), List.foldl_cons,
          List.foldl_nil, h.scanRow_eq isPrefixOf fromHeight _ hr, List.take_add_one, hr]
        unfold StealthDatabase.scan
        rw [← List.map_append, ← List.filter_append]
        rfl
  unfold scan
  rw [h.count_eq, hloop _ (Nat.le_refl _), List.take_length]

/-! ## 4. Runs -/

/-- **One call**: the file goes on to hold the rows. -/
theorem Holds.apply (h : f.Holds disk db) (hd : disk.size ≤ maxObject) {c : Call} (hfit : c.Fits)
    (hroom : f.rows.count + c.additions ≤ maxUint32) (hc : c.apply disk f = some f') :
    f'.Holds disk (c.applyDatabase db) ∧ f'.rows.count ≤ f.rows.count + c.additions := by
  cases c with
  | store stealthPrefix height row =>
      obtain ⟨h', hcount⟩ := h.store hd hroom hfit.1 hc
      exact ⟨h', Nat.le_of_eq hcount⟩
  | restart rest =>
      obtain ⟨f₁, hf, h', hcount⟩ := h.restart rest
      cases hf.symm.trans hc
      exact ⟨h', Nat.le_of_eq hcount⟩

/-- **What the calls answer**: the scan, that a restart comes back, and when a store throws. -/
structure Serves (disk : Disk) (f : StealthFile) (db : StealthDatabase) : Prop where
  scan : ∀ isPrefixOf fromHeight, f.scan isPrefixOf fromHeight = db.scan isPrefixOf fromHeight
  restarts : ∀ rest, ∃ f', f.restart rest = some f' ∧
    ∀ isPrefixOf fromHeight, f'.scan isPrefixOf fromHeight = db.scan isPrefixOf fromHeight
  storeThrows : ∀ stealthPrefix height row, f.store disk stealthPrefix height row = none ↔
    f.rows.fileSize < f.rows.logicalSize + stealthRowSize ∧
      disk.size < disk.expand (f.rows.logicalSize + stealthRowSize)

theorem Holds.serves (h : f.Holds disk db) (hd : disk.size ≤ maxObject)
    (hroom : f.rows.count < maxUint32) : Serves disk f db where
  scan := h.scan_eq
  restarts rest := by
    obtain ⟨f', hf, h', _⟩ := h.restart rest
    exact ⟨f', hf, h'.scan_eq⟩
  storeThrows stealthPrefix height row := by
    unfold StealthFile.store
    rw [RecordListFile.newRecords_eq h.logical h.within hd (by decide) hroom,
      Option.map_eq_none_iff, Option.map_eq_none_iff]
    exact Disk.reserve_eq_none

/-- **`scan` is exact**: behind every sequence of stores and restarts on a created file it answers the
    stored rows that the filter and the height let through, in the order of their storing. -/
theorem scan_exact (hd : disk.size ≤ maxObject) {bytes : Memory} (hc : create disk bytes = some f)
    {calls : List Call} (hfit : ∀ c ∈ calls, c.Fits)
    (hroom : (calls.map Call.additions).sum < maxUint32)
    (hr : runSome (Call.apply disk) f calls = some f') :
    Serves disk f' (run Call.applyDatabase .create calls) := by
  obtain ⟨h₀, hzero⟩ := create_holds hc
  obtain ⟨h, hle⟩ := runSome_simulates (G := fun _ c => c.Fits) (u := fun f => f.rows.count)
    (c := Call.additions) (fun f db c f' h hfit hroom hc => h.apply hd hfit hroom hc) h₀
    (.of_mem _ hfit) (by rw [hzero, Nat.zero_add]; exact Nat.le_of_lt hroom) hr
  rw [hzero, Nat.zero_add] at hle
  exact h.serves hd (Nat.lt_of_le_of_lt hle hroom)

/-- Two rows, a restart between them. -/
def sampleCalls : List Call :=
  [.store 5 10 ⟨1, 2, 3⟩, .restart fun _ => 9, .store 7 11 ⟨4, 5, 6⟩]

theorem sampleScan_exact : ∃ f f', create .sample (fun _ => 0) = some f ∧
    runSome (Call.apply .sample) f sampleCalls = some f' ∧
    Serves .sample f' (run Call.applyDatabase .create sampleCalls) ∧
    f'.scan (fun field => field == 7) 11 = [⟨4, 5, 6⟩] := by
  have hsome : ((create .sample fun _ => 0).bind fun f =>
      runSome (Call.apply .sample) f sampleCalls).isSome = true := by decide +kernel
  obtain ⟨f', hsome⟩ := Option.isSome_iff_exists.mp hsome
  obtain ⟨f, hc, hr⟩ := Option.bind_eq_some_iff.mp hsome
  have hfit : ∀ c ∈ sampleCalls, c.Fits := by
    unfold sampleCalls
    exact List.forall_mem_cons.mpr ⟨⟨by decide, by decide⟩, List.forall_mem_cons.mpr ⟨True.intro,
      List.forall_mem_cons.mpr ⟨⟨by decide, by decide⟩, fun _ h => absurd h List.not_mem_nil⟩⟩⟩
  have h := scan_exact (show Disk.sample.size ≤ maxObject by decide) hc hfit (by decide) hr
  exact ⟨f, f', hc, hr, h, (h.scan _ _).trans (by decide +kernel)⟩

end StealthFile

end Libbitcoin.Database
