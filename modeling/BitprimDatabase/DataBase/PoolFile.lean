/-
  File:      BitprimDatabase/DataBase/PoolFile.lean
  Subject:   **THE POOL IN ITS FILE** (transaction_unconfirmed_database.cpp): a slab table of the
             unconfirmed transactions by hash.

      a slab:  [ hash:32 ] [ next:8 ] [ 0:4 ] [ unconfirmed:4 ] [ transaction in store form ]

  * `get`, `store`, `unlink`, `unlinkIfExists`, `forEach`, `restart` -- on the bytes;
  * `Holds` -- the file holds the entries of Indexes.lean, each under the hash of its content;
  * **`pool_exact`** -- behind every sequence of calls `get` answers the newest entry of a hash,
    `for_each` hands on each entry once, the newest of a hash first, up to the first refused.

  `hashOf` is the hash the core library computes of a transaction (`recompute_hash`).
-/
import BitprimDatabase.DataBase.Reachable
import BitprimDatabase.Databases.TransactionFile
import BitprimDatabase.Primitives.Reopen

namespace Libbitcoin.Database

open Lib

structure PoolFile where
  lookup : TableFile .slab 32

namespace PoolFile

/-! ## 1. The calls -/

def create (disk : Disk) (buckets : Nat) (bytes : Memory) : Option PoolFile :=
  (TableFile.create .slab 32 disk buckets bytes).map PoolFile.mk

section Calls

variable (form : StoreForm) (hash : Key 32 → Nat) (disk : Disk)

/-- The address of a slab. The outer `none` is a search that does not end. -/
def find (f : PoolFile) (txHash : HashDigest) : Option (Option Nat) :=
  (f.lookup.find hash (f.lookup.count + 1) (hashKey txHash)).map fun memory =>
    memory.map f.lookup.data

/-- Height and position of the result, and its transaction. -/
def get (f : PoolFile) (txHash : HashDigest) : Option (Option (Nat × Nat × Transaction)) :=
  (f.find hash txHash).map fun memory => memory.map fun slab =>
    (TransactionResult.height f.lookup.bytes slab, TransactionResult.position f.lookup.bytes slab,
      TransactionResult.transaction form f.lookup.bytes slab txHash)

/-- Unconfirmed: the position says so, and the height is 0. -/
def store (f : PoolFile) (tx : Transaction) : Option PoolFile :=
  let value := Memory.toLE 4 0 ++ (Memory.toLE 4 unconfirmed ++
    transactionBytes form tx.version tx.locktime tx.outputs tx.inputs)
  (f.lookup.store hash disk (hashKey tx.hash) value).map fun r => ⟨r.1⟩

def unlink (f : PoolFile) (txHash : HashDigest) : Option (PoolFile × Bool) :=
  (f.lookup.unlink hash f.lookup.count (hashKey txHash)).map fun r => (⟨r.1⟩, r.2)

def unlinkIfExists (f : PoolFile) (txHash : HashDigest) : Option (PoolFile × Bool) :=
  match f.lookup.find hash (f.lookup.count + 1) (hashKey txHash) with
  | none => none
  | some none => some (f, false)
  | some (some _) => f.unlink hash txHash

variable (hashOf : Content → HashDigest)

/-- What `for_each` makes of a slab: the result has no hash, so it is computed. -/
def visited (m : Memory) (slab : Nat) : Transaction :=
  let tx := TransactionResult.transaction form m slab nullHash
  { tx with hash := hashOf tx.content }

/-- The transactions handed to the function, up to the first it refuses. -/
def forEach (f : PoolFile) (visit : Transaction → Bool) : Option (List Transaction) :=
  (f.lookup.forEach (fun slab => visit (visited form hashOf f.lookup.bytes slab))
    (f.lookup.count + 1)).map fun slabs => slabs.map (visited form hashOf f.lookup.bytes)

end Calls

def synchronize (f : PoolFile) : PoolFile := ⟨f.lookup.sync⟩

/-- Close and open, with `rest` behind the end of the file. -/
def reopen (f : PoolFile) (rest : Memory) : Option PoolFile := (f.lookup.reopen rest).map PoolFile.mk

/-- Synchronize, close and open. -/
def restart (f : PoolFile) (rest : Memory) : Option PoolFile := f.synchronize.reopen rest

/-- The calls; a restart finds anything behind the end of the file. -/
inductive Call where
  | store (tx : Transaction)
  | unlinkIfExists (txHash : HashDigest)
  | restart (rest : Memory)

namespace Call

/-- The call on the file, `none` where it throws or a search does not end. -/
def apply (form : StoreForm) (hash : Key 32 → Nat) (disk : Disk) (f : PoolFile) :
    Call → Option PoolFile
  | store tx => f.store form hash disk tx
  | unlinkIfExists txHash => (f.unlinkIfExists hash txHash).map Prod.fst
  | restart rest => f.restart rest

/-- The call on the entries of Indexes.lean. -/
def applyDatabase [Core] (db : TransactionUnconfirmedDatabase) :
    Call → TransactionUnconfirmedDatabase
  | store tx => db.store tx
  | unlinkIfExists txHash => (db.unlinkIfExists txHash).1
  | restart _ => db

/-- A stored transaction has the widths of its layout and the hash of its content, and its slab is no
    larger than an object. -/
def Proper (form : StoreForm) (hashOf : Content → HashDigest) : Call → Prop
  | store tx => TransactionOp.Wire form (.store tx 0 unconfirmed) ∧ hashOf tx.content = tx.hash
  | _ => True

end Call

/-! ## 2. The entries a file holds -/

variable {form : StoreForm} {hash : Key 32 → Nat} {disk : Disk} {hashOf : Content → HashDigest}
  {f f' : PoolFile} {db : TransactionUnconfirmedDatabase}

/-- **The file holds the entries**, newest first. -/
structure Holds (form : StoreForm) (hash : Key 32 → Nat) (disk : Disk) (f : PoolFile)
    (db : TransactionUnconfirmedDatabase) : Prop where
  slabs : ∃ t s', TableFile.Holding hash disk f.lookup t s' ∧
    Stacks.Codes hashKey (slabBytes form) db.entries s'
  wire : ∀ txHash, ∀ slab ∈ db.entries txHash, slab.Wire

theorem Holds.synchronize (h : f.Holds form hash disk db) :
    f.synchronize.Holds form hash disk db := by
  obtain ⟨t, s', ht, hc⟩ := h.slabs
  exact ⟨⟨t, s', ht.sync, hc⟩, h.wire⟩

/-- **A synchronized file is reopened** with its entries. -/
theorem Holds.reopen (h : f.Holds form hash disk db) (hs : f.lookup.Synced) (rest : Memory) :
    ∃ f', f.reopen rest = some f' ∧ f'.Holds form hash disk db ∧ f'.lookup.Synced := by
  obtain ⟨t, s', ht, hc⟩ := h.slabs
  obtain ⟨g, hg, ht', _, hs'⟩ := ht.reopen hs rest
  refine ⟨⟨g⟩, ?_, ⟨⟨t, s', ht', hc⟩, h.wire⟩, hs'⟩
  unfold PoolFile.reopen
  rw [hg]
  rfl

/-- **A restart** keeps the entries. -/
theorem Holds.restart (h : f.Holds form hash disk db) (rest : Memory) :
    ∃ f', f.restart rest = some f' ∧ f'.Holds form hash disk db := by
  obtain ⟨f', hf, h', _⟩ := h.synchronize.reopen f.lookup.sync_synced rest
  exact ⟨f', hf, h'⟩

/-- **`unlinkIfExists`** answers as the table does. -/
theorem Holds.unlinkIfExists (h : f.Holds form hash disk db) (txHash : HashDigest) : ∃ f',
    f.unlinkIfExists hash txHash = some (f', (db.unlinkIfExists txHash).2) ∧
      f'.Holds form hash disk (db.unlinkIfExists txHash).1 := by
  obtain ⟨t, s', ht, hc⟩ := h.slabs
  have hentries := db.unlinkIfExists_entries txHash
  have hanswer : (db.unlinkIfExists txHash).2 = !(db.entries txHash).isEmpty :=
    Table.unlinkIfFound_result ..
  cases hs : db.entries txHash with
  | nil =>
      have hnone := ht.absent (hc.eq_nil.mpr hs) (Nat.lt_succ_self f.lookup.count)
      have hsame : (db.unlinkIfExists txHash).1.entries = db.entries := by
        rw [hentries, Stacks.pop_of_nil hs]
      refine ⟨f, ?_, ⟨t, s', ht, hsame ▸ hc⟩, hsame ▸ h.wire⟩
      unfold PoolFile.unlinkIfExists
      rw [hnone, hanswer, hs]
      rfl
  | cons slab rest =>
      have hs' := hc txHash
      rw [hs, List.map_cons] at hs'
      obtain ⟨item, hfind, _⟩ := ht.found hs'
      obtain ⟨g, hg, ⟨t', ht'⟩, _⟩ := ht.unlinks (by rw [hs']; exact List.cons_ne_nil _ _)
      refine ⟨⟨g⟩, ?_, ⟨t', _, ht', ?_⟩, fun k slab hm => ?_⟩
      · unfold PoolFile.unlinkIfExists PoolFile.unlink
        rw [hfind _ (Nat.lt_succ_self _), hg, hanswer, hs]
        rfl
      · rw [hentries]
        exact hc.pop hashKey_injective txHash
      · rw [hentries] at hm
        exact h.wire k slab (Stacks.mem_of_mem_pop hm)

section Core

variable [Core]

theorem create_holds (hd : disk.size ≤ maxObject) {buckets : Nat} (hb : buckets < Memory.limit 4)
    {bytes : Memory} (hc : create disk buckets bytes = some f) (buckets' : Nat) :
    f.Holds form hash disk (.create buckets') := by
  obtain ⟨g, hg, rfl⟩ := Option.map_eq_some_iff.mp hc
  obtain ⟨⟨t, ht⟩, _⟩ := TableFile.create_holding hash hd hb hg
  have hempty := TransactionUnconfirmedDatabase.create_entries buckets'
  refine ⟨⟨t, fun _ => [], ht, fun k => by rw [hempty]; rfl⟩, fun k slab hm => ?_⟩
  rw [hempty] at hm
  cases hm

/-- **A store** puts the transaction in front of the entries of its hash. -/
theorem Holds.store (h : f.Holds form hash disk db) (hd : disk.size ≤ maxObject) {tx : Transaction}
    (hw : TransactionOp.Wire form (.store tx 0 unconfirmed))
    (hc : f.store form hash disk tx = some f') : f'.Holds form hash disk (db.store tx) := by
  obtain ⟨t, s', ht, hcodes⟩ := h.slabs
  unfold PoolFile.store at hc
  rw [← slabBytes_toSlab] at hc
  obtain ⟨⟨g, off⟩, hs, rfl⟩ := Option.map_eq_some_iff.mp hc
  have hallowed : (TableFile.Call.store (hashKey tx.hash)
      (slabBytes form (tx.toSlab 0 unconfirmed))).Allowed .slab s' := ⟨True.intro, hw.2⟩
  obtain ⟨ht', _⟩ := ht.stored hd hallowed True.intro hs
  refine ⟨⟨_, _, ht', ?_⟩, fun k slab hm => ?_⟩
  · rw [db.store_entries]
    exact hcodes.push hashKey_injective tx.hash _
  · rw [db.store_entries] at hm
    rcases Stacks.mem_of_mem_push hm with ⟨rfl, rfl⟩ | hm
    · exact hw.1
    · exact h.wire k slab hm

omit [Core] in
/-- A store throws exactly where the file has to grow and the disk is too small for it. -/
theorem Holds.throws (h : f.Holds form hash disk db) (hd : disk.size ≤ maxObject) {tx : Transaction}
    (hw : TransactionOp.Wire form (.store tx 0 unconfirmed)) :
    f.store form hash disk tx = none ↔
      f.lookup.fileSize < f.lookup.logicalSize +
        (40 + (slabBytes form (tx.toSlab 0 unconfirmed)).length) ∧
      disk.size < disk.expand (f.lookup.logicalSize +
        (40 + (slabBytes form (tx.toSlab 0 unconfirmed)).length)) := by
  obtain ⟨t, s', ht, _⟩ := h.slabs
  unfold PoolFile.store
  rw [← slabBytes_toSlab, Option.map_eq_none_iff]
  exact ht.throws hd _ _ hw.2 True.intro

end Core

/-! ## 3. The answers -/

/-- `get` of the newest entry of a hash. -/
theorem Holds.get_eq (h : f.Holds form hash disk db) (txHash : HashDigest) :
    f.get form hash txHash = some ((db.get txHash).map fun slab =>
      (slab.height, slab.position, slab.transaction txHash)) := by
  obtain ⟨t, s', ht, hc⟩ := h.slabs
  rw [db.get_eq]
  unfold get find
  cases hs : db.entries txHash with
  | nil =>
      rw [ht.absent (hc.eq_nil.mpr hs) (Nat.lt_succ_self _)]
      rfl
  | cons slab rest =>
      have hs' := hc txHash
      rw [hs, List.map_cons] at hs'
      obtain ⟨item, hfind, hread⟩ := ht.found hs'
      have hlaid : Laid form f.lookup.bytes (f.lookup.data item) slab :=
        ⟨h.wire txHash slab (by rw [hs]; exact List.mem_cons_self), hread⟩
      rw [hfind _ (Nat.lt_succ_self _)]
      show some (some (_, _, _)) = some (some (_, _, _))
      rw [hlaid.height_eq, hlaid.position_eq, hlaid.transaction_eq]

/-- Values that are read at addresses are the transactions they hold. -/
theorem visited_eq {m : Memory} {txHash : HashDigest} {items : List (Nat × Key 32 × List UInt8)}
    {slabs : List TransactionSlab}
    (hv : items.map (fun item => item.2.2) = slabs.map (slabBytes form))
    (hread : ∀ item ∈ items, m.read item.1 item.2.2.length = item.2.2)
    (hw : ∀ slab ∈ slabs, slab.Wire ∧ hashOf slab.content = txHash) :
    items.map (fun item => visited form hashOf m item.1) =
      slabs.map fun slab => slab.transaction txHash := by
  induction items generalizing slabs with
  | nil =>
      cases slabs with
      | nil => rfl
      | cons slab slabs => cases hv
  | cons item items ih =>
      cases slabs with
      | nil => cases hv
      | cons slab slabs =>
          obtain ⟨hitem, hv⟩ := List.cons.inj hv
          obtain ⟨hr, hread⟩ := List.forall_mem_cons.mp hread
          obtain ⟨⟨hwire, hhash⟩, hw⟩ := List.forall_mem_cons.mp hw
          have hitem : item.2.2 = slabBytes form slab := hitem
          have hlaid : Laid form m item.1 slab := ⟨hwire, by rwa [hitem] at hr⟩
          have hcontent : (slab.transaction nullHash).content = slab.content := rfl
          rw [List.map_cons, List.map_cons, ih hv hread hw]
          unfold visited
          dsimp only
          rw [hlaid.transaction_eq, hcontent, hhash]
          rfl

/-- **`for_each`** hands on every entry once, the newest of a hash first. -/
theorem Holds.forEach_eq (h : f.Holds form hash disk db) (hd : disk.size ≤ maxObject)
    (hg : SlabsOf (fun txHash c => hashOf c = txHash) db.entries) : ∃ txs : List Transaction,
      (∀ txHash, (txs.filter fun tx => tx.hash = txHash) =
        (db.entries txHash).map fun slab => slab.transaction txHash) ∧
      ∀ visit, f.forEach form hashOf visit = some (takeThrough visit txs) := by
  obtain ⟨t, s', ht, hc⟩ := h.slabs
  obtain ⟨items, _, hvalues, hread, hvisits⟩ := (ht.serves hd).visits
  -- the items of one hash are its entries
  have hgroup (txHash : HashDigest) : (items.filter fun item => item.2.1 = hashKey txHash).map
      (fun item => visited form hashOf f.lookup.bytes item.1) =
        (db.entries txHash).map fun slab => slab.transaction txHash := by
    refine visited_eq ((hvalues (hashKey txHash)).trans (hc txHash))
      (fun item hm => hread item (List.mem_of_mem_filter hm)) fun slab hm => ?_
    exact ⟨h.wire txHash slab hm, hg txHash slab hm⟩
  -- so what is visited has the hash the item is stored under
  have hhash : ∀ item ∈ items, ∀ txHash,
      (visited form hashOf f.lookup.bytes item.1).hash = txHash ↔ item.2.1 = hashKey txHash := by
    intro item hm txHash
    obtain ⟨txHash', hkey⟩ := hashKey_surjective item.2.1
    have hin : visited form hashOf f.lookup.bytes item.1 ∈
        (db.entries txHash').map fun slab => slab.transaction txHash' := by
      rw [← hgroup txHash']
      exact List.mem_map.mpr ⟨item, List.mem_filter.mpr ⟨hm, decide_eq_true hkey.symm⟩, rfl⟩
    obtain ⟨slab, _, hslab⟩ := List.mem_map.mp hin
    rw [← hslab, ← hkey, hashKey_injective.eq_iff]
    rfl
  refine ⟨items.map fun item => visited form hashOf f.lookup.bytes item.1, fun txHash => ?_,
    fun visit => ?_⟩
  · rw [← hgroup txHash, List.filter_map]
    refine congrArg (List.map _) (List.filter_congr fun item hm => ?_)
    exact decide_eq_decide.mpr (hhash item hm txHash)
  · unfold forEach
    rw [hvisits _ _ (Nat.lt_succ_self _), Option.map_some, takeThrough_map, List.map_map]
    rfl

/-! ## 4. Runs -/

variable [Core]

/-- **What the calls answer**: `get` and `for_each` of the entries, whether an unlink finds something,
    that a restart comes back, and when a store throws. -/
structure Serves (form : StoreForm) (hash : Key 32 → Nat) (disk : Disk)
    (hashOf : Content → HashDigest) (f : PoolFile) (db : TransactionUnconfirmedDatabase) : Prop where
  get : ∀ txHash, f.get form hash txHash = some ((db.get txHash).map fun slab =>
    (slab.height, slab.position, slab.transaction txHash))
  forEach : ∃ txs : List Transaction,
    (∀ txHash, (txs.filter fun tx => tx.hash = txHash) =
      (db.entries txHash).map fun slab => slab.transaction txHash) ∧
    ∀ visit, f.forEach form hashOf visit = some (takeThrough visit txs)
  unlinks : ∀ txHash, ∃ f', f.unlinkIfExists hash txHash = some (f', (db.unlinkIfExists txHash).2)
  restarts : ∀ rest, ∃ f', f.restart rest = some f'
  storeThrows : ∀ tx, TransactionOp.Wire form (.store tx 0 unconfirmed) →
    (f.store form hash disk tx = none ↔
      f.lookup.fileSize < f.lookup.logicalSize +
        (40 + (slabBytes form (tx.toSlab 0 unconfirmed)).length) ∧
      disk.size < disk.expand (f.lookup.logicalSize +
        (40 + (slabBytes form (tx.toSlab 0 unconfirmed)).length)))

omit [Core] in
theorem Holds.serves (h : f.Holds form hash disk db) (hd : disk.size ≤ maxObject)
    (hg : SlabsOf (fun txHash c => hashOf c = txHash) db.entries) :
    Serves form hash disk hashOf f db where
  get := h.get_eq
  forEach := h.forEach_eq hd hg
  unlinks txHash := (h.unlinkIfExists txHash).imp fun _ hf => hf.1
  restarts rest := (h.restart rest).imp fun _ hf => hf.1
  storeThrows _ hw := h.throws hd hw

/-- **One call**: the file goes on to hold the entries, each under the hash of its content. -/
theorem Holds.apply (h : f.Holds form hash disk db) (hd : disk.size ≤ maxObject)
    (hg : SlabsOf (fun txHash c => hashOf c = txHash) db.entries) {c : Call}
    (hp : c.Proper form hashOf) (hc : c.apply form hash disk f = some f') :
    f'.Holds form hash disk (c.applyDatabase db) ∧
      SlabsOf (fun txHash c => hashOf c = txHash) (c.applyDatabase db).entries := by
  cases c with
  | store tx =>
      refine ⟨h.store hd hp.1 hc, ?_⟩
      show SlabsOf _ (db.store tx).entries
      rw [db.store_entries]
      exact hg.push (by rw [toSlab_content, hp.2])
  | unlinkIfExists txHash =>
      obtain ⟨f₁, hf, h'⟩ := h.unlinkIfExists txHash
      have hc : (f.unlinkIfExists hash txHash).map Prod.fst = some f' := hc
      rw [hf] at hc
      cases hc
      refine ⟨h', ?_⟩
      show SlabsOf _ (db.unlinkIfExists txHash).1.entries
      rw [db.unlinkIfExists_entries]
      exact fun k slab hm => hg k slab (Stacks.mem_of_mem_pop hm)
  | restart rest =>
      obtain ⟨f₁, hf, h'⟩ := h.restart rest
      cases hf.symm.trans hc
      exact ⟨h', hg⟩

/-- **The pool answers for its entries**, behind every sequence of stores, unlinks and restarts on a
    created file. -/
theorem pool_exact (hd : disk.size ≤ maxObject) {buckets : Nat} (hb : buckets < Memory.limit 4)
    {bytes : Memory} (hc : create disk buckets bytes = some f) {calls : List Call}
    (hp : ∀ c ∈ calls, c.Proper form hashOf)
    (hr : runSome (Call.apply form hash disk) f calls = some f') :
    Serves form hash disk hashOf f' (run Call.applyDatabase (.create buckets) calls) := by
  have h₀ : f.Holds form hash disk (.create buckets) := create_holds hd hb hc buckets
  have hg₀ : SlabsOf (fun txHash c => hashOf c = txHash)
      (TransactionUnconfirmedDatabase.create buckets).entries := by
    intro txHash slab hm
    rw [TransactionUnconfirmedDatabase.create_entries] at hm
    cases hm
  obtain ⟨h, hg⟩ := runSome_refines
    (R := fun f db => f.Holds form hash disk db ∧
      SlabsOf (fun txHash c => hashOf c = txHash) db.entries)
    (fun f db c f' h hp hc => h.1.apply hd h.2 hp hc) ⟨h₀, hg₀⟩ hp hr
  exact h.serves hd hg

omit [Core] in
theorem sampleCoinbase_wire (hash : HashDigest) (n : UInt8) :
    TransactionOp.Wire .sample (.store (.sampleCoinbase hash n) 0 unconfirmed) := by
  have hone : 1 ≤ maxUint32 := by decide
  have hfew : 1 ≤ maxSize := by decide
  have hscript : 25 ≤ maxSize := by decide
  refine ⟨⟨u32_le _, u32_le _, hone, Nat.zero_le _, hfew, ?_, hfew, ?_⟩, ?_⟩
  · intro o ho
    cases List.mem_singleton.mp ho
    exact ⟨u32_le _, show 50 ≤ maxSize by decide, hscript⟩
  · intro input hi
    cases List.mem_singleton.mp hi
    exact ⟨Nat.le_refl _, Nat.zero_le _, Nat.le_refl _⟩
  · rw [slabBytes_toSlab]
    show 137 ≤ maxObject
    decide

/-- Two transactions, a restart, and the first one taken out. -/
def sampleCalls : List Call :=
  [.store (.sampleCoinbase 101 1), .restart fun _ => 9, .store (.sampleCoinbase 201 2),
    .unlinkIfExists 101]

/-- The hashes of the two. -/
def sampleHashOf (c : Content) : HashDigest :=
  if c = (Transaction.sampleCoinbase 101 1).content then 101 else 201

omit [Core] in
theorem samplePool_exact : ∃ f f', create .sample 1 (fun _ => 0) = some f ∧
    runSome (Call.apply .sample (fun _ => 0) .sample) f sampleCalls = some f' ∧
    Serves .sample (fun _ => 0) .sample sampleHashOf f'
      (run (@Call.applyDatabase Core.sample) (@TransactionUnconfirmedDatabase.create Core.sample 1)
        sampleCalls) ∧
    (f'.forEach .sample sampleHashOf fun _ => true) = some [.sampleCoinbase 201 2] := by
  have hsome : ((create .sample 1 fun _ => 0).bind fun f =>
      (runSome (Call.apply .sample (fun _ => 0) .sample) f sampleCalls).bind fun f' =>
        if (f'.forEach .sample sampleHashOf fun _ => true) = some [.sampleCoinbase 201 2] then some f'
        else none).isSome = true := by decide +kernel
  obtain ⟨_, hsome⟩ := Option.isSome_iff_exists.mp hsome
  obtain ⟨f, hc, hsome⟩ := Option.bind_eq_some_iff.mp hsome
  obtain ⟨f', hr, hsome⟩ := Option.bind_eq_some_iff.mp hsome
  obtain ⟨hv, _⟩ := Option.ite_none_right_eq_some.mp hsome
  refine ⟨f, f', hc, hr, ?_, hv⟩
  refine @pool_exact _ _ _ _ _ _ Core.sample (by decide) _ (by decide) _ hc _ (fun c hm => ?_) hr
  simp only [sampleCalls, List.mem_cons, List.not_mem_nil, or_false] at hm
  rcases hm with rfl | rfl | rfl | rfl
  · exact ⟨sampleCoinbase_wire 101 1, by decide⟩
  · exact True.intro
  · exact ⟨sampleCoinbase_wire 201 2, by decide⟩
  · exact True.intro

end PoolFile

end Libbitcoin.Database
