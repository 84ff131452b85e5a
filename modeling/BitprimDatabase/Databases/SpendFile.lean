/-
  File:      BitprimDatabase/Databases/SpendFile.lean
  Subject:   **THE SPEND INDEX IN ITS FILE** (spend_database.cpp): a record table whose keys and values
             are points.

      a record:  [ output point:36 ] [ next:4 ] [ input point:36 ]

  * `get`, `store`, `unlink` -- on the bytes; `Call` -- the writing calls;
  * `Holds` -- the file holds the spends of each output point, newest first; kept by every call;
  * **`spendIndex_isStack`** -- what the calls answer behind any run, and when they throw;
  * `get_eq_spendDatabase` -- the table of points in Indexes.lean answers the same.
-/
import BitprimDatabase.Databases.Indexes
import BitprimDatabase.Databases.WireForms
import BitprimDatabase.Primitives.TableCalls

namespace Libbitcoin.Database

open Lib

/-- The table of spends; a value is as large as a key. -/
structure SpendFile where
  lookup : TableFile (.record 36) 36

namespace SpendFile

/-! ## 1. The calls -/

def create (disk : Disk) (buckets : Nat) (bytes : Memory) : Option SpendFile :=
  (TableFile.create (.record 36) 36 disk buckets bytes).map SpendFile.mk

variable (hash : Key 36 → Nat) (disk : Disk)

/-- The input point of the newest record; `none` stands for the default point, which is not valid. The
    outer `none` is a search that does not end. -/
def get (f : SpendFile) (outpoint : WirePoint) : Option (Option Point) :=
  (f.lookup.find hash (f.lookup.count + 1) outpoint.key).map fun memory =>
    memory.map fun item => readPoint f.lookup.bytes (f.lookup.data item)

/-- Where the file cannot grow it throws. -/
def store (f : SpendFile) (outpoint spend : WirePoint) : Option SpendFile :=
  (f.lookup.store hash disk outpoint.key (pointBytes spend.val)).map fun r => ⟨r.1⟩

/-- Spends are optional, so the key is looked up first. -/
def unlink (f : SpendFile) (outpoint : WirePoint) : Option (SpendFile × Bool) :=
  match f.lookup.find hash (f.lookup.count + 1) outpoint.key with
  | none => none
  | some none => some (f, false)
  | some (some _) =>
    (f.lookup.unlink hash f.lookup.count outpoint.key).map fun r => (⟨r.1⟩, r.2)

/-- The writing calls. -/
inductive Call where
  | store (outpoint spend : WirePoint)
  | unlink (outpoint : WirePoint)

namespace Call

/-- The call on the file, `none` where it throws. -/
def apply (f : SpendFile) : Call → Option SpendFile
  | store outpoint spend => f.store hash disk outpoint spend
  | unlink outpoint => (f.unlink hash outpoint).map Prod.fst

/-- The call on the spends of each output point. -/
def spec (s : Stacks WirePoint WirePoint) : Call → Stacks WirePoint WirePoint
  | store outpoint spend => s.push outpoint spend
  | unlink outpoint => s.pop outpoint

/-- The records a call allocates. -/
def records : Call → Nat
  | store _ _ => 1
  | unlink _ => 0

end Call

/-! ## 2. The spends a file holds -/

variable {hash : Key 36 → Nat} {disk : Disk} {f f' : SpendFile} {s : Stacks WirePoint WirePoint}

/-- **The file holds the spends of each output point**, newest first. -/
def Holds (hash : Key 36 → Nat) (disk : Disk) (f : SpendFile) (s : Stacks WirePoint WirePoint) :
    Prop :=
  ∃ t s', TableFile.Holding hash disk f.lookup t s' ∧
    Stacks.Codes WirePoint.key (fun spend => pointBytes spend.val) s s'

theorem Holds.get_eq (h : f.Holds hash disk s) (outpoint : WirePoint) :
    f.get hash outpoint = some ((s outpoint).head?.map Subtype.val) := by
  obtain ⟨t, s', h, hc⟩ := h
  unfold get
  cases hs : s outpoint with
  | nil => simp [h.absent (hc.eq_nil.mpr hs) (Nat.lt_succ_self _)]
  | cons spend rest =>
      have hs' := hc outpoint
      rw [hs, List.map_cons] at hs'
      obtain ⟨item, hfind, hread⟩ := h.found hs'
      rw [hfind _ (Nat.lt_succ_self _)]
      exact congrArg (fun p => some (some p)) (spend.read hread)

/-- The unlink of an output point without spends changes nothing. -/
theorem Holds.unlink_absent (h : f.Holds hash disk s) {outpoint : WirePoint}
    (hs : s outpoint = []) : f.unlink hash outpoint = some (f, false) := by
  obtain ⟨t, s', h, hc⟩ := h
  unfold unlink
  rw [h.absent (hc.eq_nil.mpr hs) (Nat.lt_succ_self _)]

/-- The unlink of an output point with spends goes on to the table. -/
theorem Holds.unlink_present (h : f.Holds hash disk s) {outpoint : WirePoint}
    (hs : s outpoint ≠ []) : ∃ f', f.unlink hash outpoint = some (f', true) := by
  obtain ⟨t, s', h, hc⟩ := h
  have hs' : s' outpoint.key ≠ [] := fun he => hs (hc.eq_nil.mp he)
  obtain ⟨v, vs, hcons⟩ := List.exists_cons_of_ne_nil hs'
  obtain ⟨item, hfind, _⟩ := h.found hcons
  obtain ⟨g, hg, _⟩ := h.unlinks hs'
  refine ⟨⟨g⟩, ?_⟩
  unfold unlink
  rw [hfind _ (Nat.lt_succ_self _), hg]
  rfl

/-- **One call**: the file goes on to hold the spends, with a record more after a store. -/
theorem Holds.apply (h : f.Holds hash disk s) (hd : disk.size ≤ maxObject) {c : Call}
    (hroom : f.lookup.count + c.records ≤ maxUint32) (hc : c.apply hash disk f = some f') :
    f'.Holds hash disk (c.spec s) ∧ f'.lookup.count ≤ f.lookup.count + c.records := by
  have hinj := WirePoint.key_injective
  obtain ⟨t, s', hh, hcodes⟩ := id h
  cases c with
  | store outpoint spend =>
      obtain ⟨⟨g, off⟩, hs, rfl⟩ := Option.map_eq_some_iff.mp hc
      have hallowed : (TableFile.Call.store outpoint.key (pointBytes spend.val)).Allowed
          (.record 36) s' := by
        show (pointBytes spend.val).length ≤ 36 ∧ 36 + 4 + 36 ≤ maxObject
        rw [length_pointBytes]
        decide
      obtain ⟨ht', _, hcount⟩ := hh.stored hd hallowed (Nat.lt_succ_of_le hroom) hs
      exact ⟨⟨_, _, ht', hcodes.push hinj outpoint spend⟩, Nat.le_of_eq hcount⟩
  | unlink outpoint =>
      obtain ⟨⟨g, b⟩, hu, rfl⟩ := Option.map_eq_some_iff.mp hc
      cases hs : s outpoint with
      | nil =>
          rw [h.unlink_absent hs] at hu
          cases hu
          have hspec : (Call.unlink outpoint).spec s = s := by
            funext k
            by_cases hk : k = outpoint
            · subst hk
              exact (s.pop_same k).trans (by rw [hs]; rfl)
            · exact s.pop_ne hk
          rw [hspec]
          exact ⟨h, Nat.le_refl _⟩
      | cons spend rest =>
          have hs' : s' outpoint.key ≠ [] := fun he => by
            rw [hcodes.eq_nil.mp he] at hs
            cases hs
          obtain ⟨v, vs, hcons⟩ := List.exists_cons_of_ne_nil hs'
          obtain ⟨item, hfind, _⟩ := hh.found hcons
          unfold unlink at hu
          rw [hfind _ (Nat.lt_succ_self _)] at hu
          obtain ⟨g', hg', ⟨t', ht'⟩, hcount⟩ := hh.unlinks hs'
          rw [hg', Option.map_some] at hu
          cases hu
          exact ⟨⟨t', _, ht', hcodes.pop hinj outpoint⟩, Nat.le_of_eq hcount⟩

/-- **A run from a created file.** -/
theorem holds_of_create (hd : disk.size ≤ maxObject) {buckets : Nat} (hb : buckets < Memory.limit 4)
    {bytes : Memory} (hc : create disk buckets bytes = some f) {calls : List Call}
    (hroom : (calls.map Call.records).sum ≤ maxUint32)
    (hr : runSome (Call.apply hash disk) f calls = some f') :
    f'.Holds hash disk (run Call.spec (fun _ => []) calls) ∧
      f'.lookup.count ≤ (calls.map Call.records).sum := by
  obtain ⟨g, hg, rfl⟩ := Option.map_eq_some_iff.mp hc
  obtain ⟨⟨t, ht⟩, hzero⟩ := TableFile.create_holding hash hd hb hg
  have hzero : g.count = 0 := hzero
  have h₀ : Holds hash disk ⟨g⟩ fun _ => [] := ⟨t, fun _ => [], ht, .nil⟩
  have h := runSome_simulates (G := fun _ _ => True) (u := fun f : SpendFile => f.lookup.count)
    (c := Call.records) (fun f s c f' h _ hroom hc => h.apply hd hroom hc) h₀ (.trivial _ _)
    (by rw [hzero, Nat.zero_add]; exact hroom) hr
  rwa [hzero, Nat.zero_add] at h

/-! ## 3. The index is a stack for each output point -/

/-- **What the calls answer** where the spends are `s`. -/
structure Serves (hash : Key 36 → Nat) (disk : Disk) (f : SpendFile)
    (s : Stacks WirePoint WirePoint) : Prop where
  get : ∀ outpoint, f.get hash outpoint = some ((s outpoint).head?.map Subtype.val)
  unlinkAbsent : ∀ outpoint, s outpoint = [] → f.unlink hash outpoint = some (f, false)
  unlinkPresent : ∀ outpoint, s outpoint ≠ [] → ∃ f', f.unlink hash outpoint = some (f', true) ∧
    ∀ other, f'.get hash other = some ((s.pop outpoint other).head?.map Subtype.val)
  storeThrows : ∀ outpoint spend, f.store hash disk outpoint spend = none ↔
    f.lookup.fileSize < f.lookup.logicalSize + 76 ∧
      disk.size < disk.expand (f.lookup.logicalSize + 76)

theorem Holds.serves (h : f.Holds hash disk s) (hd : disk.size ≤ maxObject)
    (hroom : f.lookup.count + 1 ≤ maxUint32) : Serves hash disk f s where
  get := h.get_eq
  unlinkAbsent _ hs := h.unlink_absent hs
  unlinkPresent outpoint hs := by
    obtain ⟨f', hu⟩ := h.unlink_present hs
    have hc : (Call.unlink outpoint).apply hash disk f = some f' := by
      show (f.unlink hash outpoint).map Prod.fst = _
      rw [hu]
      rfl
    exact ⟨f', hu, (h.apply hd (c := .unlink outpoint) (Nat.le_of_lt hroom) hc).1.get_eq⟩
  storeThrows outpoint spend := by
    obtain ⟨t, s', hh, _⟩ := h
    have hthrows := hh.throws hd outpoint.key (pointBytes spend.val)
      (by show 36 + 4 + 36 ≤ maxObject; decide) (Nat.lt_succ_of_le hroom)
    exact Option.map_eq_none_iff.trans hthrows

/-- **The spend index is a stack for each output point**: behind every sequence of calls on a created
    file `get` returns the newest input point that is not unlinked, `unlink` removes that one or
    answers false and changes nothing. -/
theorem spendIndex_isStack (hash : Key 36 → Nat) {disk : Disk} {buckets : Nat} (hd : disk.size ≤ maxObject)
    (hb : buckets < Memory.limit 4) {bytes : Memory} {f f' : SpendFile}
    (hc : create disk buckets bytes = some f) {calls : List Call}
    (hroom : (calls.map Call.records).sum < maxUint32)
    (hr : runSome (Call.apply hash disk) f calls = some f') :
    Serves hash disk f' (run Call.spec (fun _ => []) calls) := by
  obtain ⟨h, hle⟩ := holds_of_create hd hb hc (Nat.le_of_lt hroom) hr
  exact h.serves hd (by omega)

/-! ## 4. The table of points -/

section Core

variable [Core]

/-- The call on the table of Indexes.lean. -/
def Call.applyDatabase (db : SpendDatabase) : Call → SpendDatabase
  | store outpoint spend => db.store outpoint.val spend.val
  | unlink outpoint => (db.unlink outpoint.val).1

omit [Core] in
theorem codes_applyDatabase {db : SpendDatabase}
    (h : Stacks.Codes Subtype.val Subtype.val s db.spends) (c : Call) :
    Stacks.Codes Subtype.val Subtype.val (c.spec s) (c.applyDatabase db).spends := by
  have hinj : Function.Injective (Subtype.val : WirePoint → Point) := Subtype.val_injective
  cases c with
  | store outpoint spend =>
      show Stacks.Codes _ _ _ (db.store outpoint.val spend.val).spends
      rw [SpendDatabase.store_spends]
      exact h.push hinj outpoint spend
  | unlink outpoint =>
      show Stacks.Codes _ _ _ (db.unlink outpoint.val).1.spends
      rw [SpendDatabase.unlink_spends]
      exact h.pop hinj outpoint

/-- **The file answers as the table of points does.** -/
theorem get_eq_spendDatabase {buckets : Nat} (hd : disk.size ≤ maxObject)
    (hb : buckets < Memory.limit 4) {bytes : Memory} (hc : create disk buckets bytes = some f)
    {calls : List Call} (hroom : (calls.map Call.records).sum < maxUint32)
    (hr : runSome (Call.apply hash disk) f calls = some f') (outpoint : WirePoint) :
    (f'.get hash outpoint).map (·.getD ⟨nullHash, 0⟩) =
      some ((run Call.applyDatabase (.create buckets) calls).get outpoint.val) := by
  have hcodes : Stacks.Codes Subtype.val Subtype.val (run Call.spec (fun _ => []) calls)
      (run Call.applyDatabase (.create buckets) calls).spends := by
    have hgen (calls : List Call) {s : Stacks WirePoint WirePoint} {db : SpendDatabase}
        (h : Stacks.Codes Subtype.val Subtype.val s db.spends) :
        Stacks.Codes Subtype.val Subtype.val (run Call.spec s calls)
          (run Call.applyDatabase db calls).spends := by
      induction calls generalizing s db with
      | nil => exact h
      | cons c calls ih => exact ih (codes_applyDatabase h c)
    exact hgen calls fun p => SpendDatabase.create_spends buckets p.val
  rw [(holds_of_create hd hb hc (Nat.le_of_lt hroom) hr).1.get_eq, SpendDatabase.get_eq,
    hcodes.head]
  rfl

end Core

/-! ## 5. One bucket -/

def sampleOutput : WirePoint := ⟨⟨5, 1⟩, by decide⟩

def sampleInput : WirePoint := ⟨⟨7, 0⟩, by decide⟩

/-- Two spends of one output in one bucket, the newest unlinked. -/
theorem oneBucket_stack : ∃ f f', create .sample 1 (fun _ => 0) = some f ∧
    runSome (Call.apply (fun _ => 0) .sample) f
      [.store sampleOutput sampleInput, .store sampleOutput sampleOutput, .unlink sampleOutput] =
        some f' ∧
    Serves (fun _ => 0) .sample f' (run Call.spec (fun _ => [])
      [.store sampleOutput sampleInput, .store sampleOutput sampleOutput, .unlink sampleOutput]) ∧
    f'.get (fun _ => 0) sampleOutput = some (some ⟨7, 0⟩) := by
  have hsome : ((create .sample 1 fun _ => 0).bind fun f => runSome (Call.apply (fun _ => 0) .sample) f
      [.store sampleOutput sampleInput, .store sampleOutput sampleOutput,
        .unlink sampleOutput]).isSome = true := by decide +kernel
  obtain ⟨f', hsome⟩ := Option.isSome_iff_exists.mp hsome
  obtain ⟨f, hc, hr⟩ := Option.bind_eq_some_iff.mp hsome
  have h := spendIndex_isStack (fun _ => 0) (by decide) (by decide) hc (by decide) hr
  exact ⟨f, f', hc, hr, h, (h.get sampleOutput).trans (by decide +kernel)⟩

end SpendFile

end Libbitcoin.Database
