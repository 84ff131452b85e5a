/-
  File:      BitprimDatabase/Databases/TransactionFile.lean
  Subject:   **THE TRANSACTION TABLE IN ITS FILE** (transaction_database.cpp): a slab table whose keys
             are hashes.

      a slab:  [ hash:32 ] [ next:8 ] [ height:4 ] [ position:4 ] [ transaction in store form ]

  * `find`, `store`, `spend`, `unspend`, `confirm`, `unconfirm` -- on the bytes;
  * `Holds` -- the file holds the slabs of TransactionDatabase.lean; **`Holds.apply`**: a call on the
    file is the operation on the slabs, so **`holds_of_create`** a run is a run.
-/
import BitprimDatabase.Databases.CacheCoherence
import BitprimDatabase.Databases.StoreForms
import BitprimDatabase.Primitives.TableCalls

namespace Libbitcoin.Database

open Lib

/-- A stored transaction has the widths of its layout, and its slab is no larger than an object. -/
def TransactionOp.Wire (form : StoreForm) : TransactionOp → Prop
  | .store tx height position => (tx.toSlab height position).Wire ∧
      40 + (slabBytes form (tx.toSlab height position)).length ≤ maxObject
  | _ => True

structure TransactionFile where
  lookup : TableFile .slab 32
  cache : UnspentOutputs

namespace TransactionFile

/-! ## 1. The calls -/

def create (disk : Disk) (buckets cacheCapacity : Nat) (bytes : Memory) : Option TransactionFile :=
  (TableFile.create .slab 32 disk buckets bytes).map fun lookup =>
    ⟨lookup, UnspentOutputs.create cacheCapacity⟩

section Calls

variable (form : StoreForm) (hash : Key 32 → Nat) (disk : Disk)

/-- The address of a slab. The outer `none` is a search that does not end. -/
def find (f : TransactionFile) (txHash : HashDigest) (forkHeight : Nat) (requireConfirmed : Bool) :
    Option (Option Nat) :=
  (f.lookup.find hash (f.lookup.count + 1) (hashKey txHash)).map fun memory =>
    match memory with
    | none => none
    | some item =>
      let slab := f.lookup.data item
      if !requireConfirmed then some slab
      else
        let height := f.lookup.bytes.readWord slab 4
        let position := f.lookup.bytes.readWord (slab + 4) 4
        if height > forkHeight || (requireConfirmed && position == unconfirmed) then none
        else some slab

/-- Rewrite height and position. -/
def confirm (f : TransactionFile) (txHash : HashDigest) (height position : Nat) :
    Option (TransactionFile × Bool) :=
  match f.find hash txHash height false with
  | none => none
  | some none => some (f, false)
  | some (some slab) =>
    let bytes := (f.lookup.bytes.writeWord slab 4 height).writeWord (slab + 4) 4 position
    some ({ f with lookup.bytes := bytes }, true)

def unconfirm [Core] (f : TransactionFile) (txHash : HashDigest) : Option (TransactionFile × Bool) :=
  f.confirm hash txHash Core.unverified unconfirmed

/-- The end of `store`: a new slab, and the cache entry. Where the file cannot grow it throws. -/
def storeNew (f : TransactionFile) (tx : Transaction) (height position : Nat) :
    Option TransactionFile :=
  let value := Memory.toLE 4 height ++ (Memory.toLE 4 position ++
    transactionBytes form tx.version tx.locktime tx.outputs tx.inputs)
  (f.lookup.store hash disk (hashKey tx.hash) value).map fun r =>
    ⟨r.1, f.cache.add tx height (position != unconfirmed)⟩

def store (f : TransactionFile) (tx : Transaction) (height position : Nat) :
    Option TransactionFile :=
  if position != unconfirmed && position != 0 && tx.pooled then
    match f.confirm hash tx.hash height position with
    | none => none
    | some (f, true) => some { f with cache := f.cache.add tx height true }
    | some (f, false) => f.storeNew form hash disk tx height position
  else f.storeNew form hash disk tx height position

/-- The end of `spend`: skip to the output and write the spender height to its first word. -/
def writeSpend (f : TransactionFile) (slab index spenderHeight : Nat) : TransactionFile × Bool :=
  let (outputs, a) := form.read f.lookup.bytes (slab + 4 + 4 + (4 + 4))
  if index ≥ outputs then (f, false)
  else
    let a := skipMany (skipOutput form) f.lookup.bytes index a
    ({ f with lookup.bytes := f.lookup.bytes.writeWord a 4 spenderHeight }, true)

def spend (f : TransactionFile) (point : Point) (spenderHeight : Nat) :
    Option (TransactionFile × Bool) :=
  let f := if spenderHeight != notSpent then { f with cache := f.cache.removePoint point } else f
  match f.find hash point.hash spenderHeight true with
  | none => none
  | some none => some (f, false)
  | some (some slab) => some (f.writeSpend form slab point.index spenderHeight)

def unspend (f : TransactionFile) (point : Point) : Option (TransactionFile × Bool) :=
  f.spend form hash point notSpent

/-- The call on the file, `none` where it throws. -/
def apply [Core] (f : TransactionFile) : TransactionOp → Option TransactionFile
  | .store tx height position => f.store form hash disk tx height position
  | .spend point spenderHeight => (f.spend form hash point spenderHeight).map Prod.fst
  | .unspend point => (f.unspend form hash point).map Prod.fst
  | .confirm txHash height position => (f.confirm hash txHash height position).map Prod.fst
  | .unconfirm txHash => (f.unconfirm hash txHash).map Prod.fst

end Calls

/-! ## 2. The slabs a file holds -/

variable {form : StoreForm} {hash : Key 32 → Nat} {disk : Disk} {f f' : TransactionFile}
  {db : TransactionDatabase}

/-- **The file holds the slabs**, newest first, and the cache. -/
structure Holds (form : StoreForm) (hash : Key 32 → Nat) (disk : Disk) (f : TransactionFile)
    (db : TransactionDatabase) : Prop where
  slabs : ∃ t s', TableFile.Holding hash disk f.lookup t s' ∧
    Stacks.Codes hashKey (slabBytes form) db.slabs s'
  wire : ∀ txHash, ∀ slab ∈ db.slabs txHash, slab.Wire
  cache_eq : f.cache = db.cache

/-- The newest slab of a hash, where the search finds it. -/
structure At (form : StoreForm) (hash : Key 32 → Nat) (f : TransactionFile) (txHash : HashDigest)
    (a : Nat) (slab : TransactionSlab) : Prop where
  found : ∃ item, f.lookup.find hash (f.lookup.count + 1) (hashKey txHash) = some (some item) ∧
    f.lookup.data item = a
  laid : Laid form f.lookup.bytes a slab

/-- The newest slab of a hash is found. -/
theorem Holds.at_head (h : f.Holds form hash disk db) {txHash : HashDigest} {slab : TransactionSlab}
    (hs : (db.slabs txHash).head? = some slab) : ∃ a, f.At form hash txHash a slab := by
  obtain ⟨t, s', ht, hc⟩ := h.slabs
  obtain ⟨rest, hcons⟩ := List.head?_eq_some_iff.mp hs
  have hs' := hc txHash
  rw [hcons, List.map_cons] at hs'
  obtain ⟨item, hfind, hread⟩ := ht.found hs'
  exact ⟨_, ⟨item, hfind _ (Nat.lt_succ_self _), rfl⟩,
    h.wire txHash slab (by rw [hcons]; exact List.mem_cons_self), hread⟩

theorem Holds.find_absent (h : f.Holds form hash disk db) {txHash : HashDigest}
    (hs : db.slabs txHash = []) (forkHeight : Nat) (requireConfirmed : Bool) :
    f.find hash txHash forkHeight requireConfirmed = some none := by
  obtain ⟨t, s', ht, hc⟩ := h.slabs
  unfold find
  rw [ht.absent (hc.eq_nil.mpr hs) (Nat.lt_succ_self _)]
  rfl

/-- **`find`** looks at height and position of the newest slab. -/
theorem At.find_eq {txHash : HashDigest} {a : Nat} {slab : TransactionSlab}
    (h : f.At form hash txHash a slab) (forkHeight : Nat) (requireConfirmed : Bool) :
    f.find hash txHash forkHeight requireConfirmed = some (if !requireConfirmed ||
      !(decide (slab.height > forkHeight) || slab.position == unconfirmed) then some a else none) := by
  obtain ⟨item, hfind, rfl⟩ := h.found
  obtain ⟨hheight, hposition, _⟩ := h.laid.parts
  unfold find
  rw [hfind, Option.map_some]
  dsimp only
  rw [hheight, hposition]
  cases requireConfirmed with
  | false => rfl
  | true =>
      rw [Bool.true_and]
      cases decide (slab.height > forkHeight) || slab.position == unconfirmed <;> rfl

/-- The file finds a slab exactly where the table does. -/
theorem Holds.find_eq (h : f.Holds form hash disk db) (txHash : HashDigest) (forkHeight : Nat)
    (requireConfirmed : Bool) : match db.find txHash forkHeight requireConfirmed with
      | none => f.find hash txHash forkHeight requireConfirmed = some none
      | some slab => (db.slabs txHash).head? = some slab ∧ ∃ a, f.At form hash txHash a slab ∧
          f.find hash txHash forkHeight requireConfirmed = some (some a) := by
  rw [db.find_eq]
  cases hs : (db.slabs txHash).head? with
  | none => exact h.find_absent (List.head?_eq_none_iff.mp hs) forkHeight requireConfirmed
  | some slab =>
      obtain ⟨a, ha⟩ := h.at_head hs
      rw [Option.filter_some, ha.find_eq]
      split
      · rename_i he
        split at he
        · cases he
        · rename_i hc
          rw [if_neg hc]
      · rename_i slab' he
        split at he
        · rename_i hc
          cases he
          exact ⟨rfl, a, ha, by rw [if_pos hc]⟩
        · cases he

/-- **The newest slab of a hash is rewritten** where it stands. -/
theorem Holds.rewrite (h : f.Holds form hash disk db) {txHash : HashDigest} {a : Nat}
    {slab : TransactionSlab} (hs : (db.slabs txHash).head? = some slab)
    (ha : f.At form hash txHash a slab) {g : TransactionSlab → TransactionSlab}
    (hlen : (slabBytes form (g slab)).length = (slabBytes form slab).length) (hw : (g slab).Wire)
    {bytes : Memory} (hbytes : f.lookup.bytes.write a (slabBytes form (g slab)) = bytes)
    {db' : TransactionDatabase} (hdb : db'.slabs = db.slabs.modifyTop txHash g)
    {cache : UnspentOutputs} (hcache : cache = db'.cache) :
    Holds form hash disk ⟨{ f.lookup with bytes := bytes }, cache⟩ db' ∧
      At form hash ⟨{ f.lookup with bytes := bytes }, cache⟩ txHash a (g slab) := by
  obtain ⟨t, s', ht, hc⟩ := h.slabs
  obtain ⟨item, hfind, rfl⟩ := ha.found
  obtain ⟨rest, hcons⟩ := List.head?_eq_some_iff.mp hs
  have hs' := hc txHash
  rw [hcons, List.map_cons] at hs'
  obtain ⟨ht', hfind'⟩ := ht.rewrite hs' hlen (Nat.lt_succ_self _) hfind
  subst hbytes
  refine ⟨⟨?_, fun k slab' hm => ?_, hcache⟩, ⟨item, hfind', rfl⟩, hw, Memory.holds_write ..⟩
  · obtain ⟨t', ht'⟩ := ht'
    refine ⟨t', _, ht', hdb ▸ hc.modifyTop hashKey_injective txHash fun v hv => ?_⟩
    rw [hs] at hv
    cases hv
    rfl
  · rw [hdb] at hm
    by_cases hk : k = txHash
    · subst hk
      rw [Stacks.modifyTop_same, hcons, List.modifyHead_cons] at hm
      rcases List.mem_cons.mp hm with rfl | hm
      · exact hw
      · exact h.wire k slab' (by rw [hcons]; exact List.mem_cons_of_mem _ hm)
    · rw [Stacks.modifyTop_ne _ _ hk] at hm
      exact h.wire k slab' hm

/-! ### The operations -/

/-- The cache after a spend. -/
def spentCache (cache : UnspentOutputs) (point : Point) (spenderHeight : Nat) : UnspentOutputs :=
  if spenderHeight != notSpent then cache.removePoint point else cache

/-- The bytes after a spend of an output of a slab. -/
def spentBytes (form : StoreForm) (m : Memory) (a : Nat) (slab : TransactionSlab)
    (index spenderHeight : Nat) : Memory :=
  if index < slab.outputs.length then
    m.writeWord (a + spenderOffset form slab index) 4 spenderHeight
  else m

/-- The file whose slab is marked. -/
def spent (form : StoreForm) (f : TransactionFile) (a : Nat) (slab : TransactionSlab)
    (point : Point) (spenderHeight : Nat) : TransactionFile :=
  ⟨{ f.lookup with bytes := spentBytes form f.lookup.bytes a slab point.index spenderHeight },
    spentCache f.cache point spenderHeight⟩

theorem spend_start (f : TransactionFile) (point : Point) (spenderHeight : Nat) :
    (if spenderHeight != notSpent then { f with cache := f.cache.removePoint point } else f) =
      ⟨f.lookup, spentCache f.cache point spenderHeight⟩ := by
  unfold spentCache
  split <;> rfl

/-- `spend` where the search finds nothing. -/
theorem spend_eq_none {point : Point} {spenderHeight : Nat}
    (hf : f.find hash point.hash spenderHeight true = some none) :
    f.spend form hash point spenderHeight =
      some (⟨f.lookup, spentCache f.cache point spenderHeight⟩, false) := by
  have hf' : find hash ⟨f.lookup, spentCache f.cache point spenderHeight⟩ point.hash spenderHeight
      true = some none := hf
  unfold spend
  rw [spend_start]
  dsimp only
  rw [hf']

/-- **`spend` of a slab that is found** writes the word of the output, where the slab has it. -/
theorem At.spend_eq {point : Point} {a : Nat} {slab : TransactionSlab}
    (h : f.At form hash point.hash a slab) {spenderHeight : Nat}
    (hf : f.find hash point.hash spenderHeight true = some (some a)) :
    f.spend form hash point spenderHeight = some (f.spent form a slab point spenderHeight,
      decide (point.index < slab.outputs.length)) := by
  have hf' : find hash ⟨f.lookup, spentCache f.cache point spenderHeight⟩ point.hash spenderHeight
      true = some (some a) := hf
  have hcount := h.laid.parts.2.2.2.2.1
  unfold spend
  rw [spend_start]
  dsimp only
  rw [hf']
  refine congrArg some ?_
  unfold writeSpend
  rw [show a + 4 + 4 + (4 + 4) = a + 16 by omega, hcount]
  unfold spent spentBytes
  by_cases hi : point.index < slab.outputs.length
  · rw [if_pos hi, decide_eq_true hi]
    dsimp only
    rw [if_neg (Nat.not_le.mpr hi), h.laid.skip_eq (Nat.le_of_lt hi)]
  · rw [if_neg hi, decide_eq_false hi]
    exact if_pos (Nat.le_of_not_lt hi)

/-- **A spend** of a slab that is found is the spend on the slabs. -/
theorem Holds.spent (h : f.Holds form hash disk db) (point : Point) {a : Nat}
    {slab : TransactionSlab} (hs : (db.slabs point.hash).head? = some slab)
    (ha : f.At form hash point.hash a slab) (spenderHeight : Nat) {db' : TransactionDatabase}
    (hdb : db'.slabs =
      db.slabs.modifyTop point.hash (TransactionSlab.spend point.index spenderHeight))
    (hcache : db'.cache = spentCache db.cache point spenderHeight) :
    Holds form hash disk (f.spent form a slab point spenderHeight) db' ∧
      At form hash (f.spent form a slab point spenderHeight) point.hash a
        (slab.spend point.index spenderHeight) := by
  have hcache' : spentCache f.cache point spenderHeight = db'.cache := by
    rw [hcache, h.cache_eq]
  by_cases hi : point.index < slab.outputs.length
  · obtain ⟨hbytes, hlen⟩ := ha.laid.spender hi spenderHeight
    refine h.rewrite hs ha hlen (ha.laid.wire.spend _ _) ?_ hdb hcache'
    unfold spentBytes
    rw [if_pos hi, hbytes]
  · have hsame : slab.spend point.index spenderHeight = slab := by
      unfold TransactionSlab.spend
      rw [List.modify_eq_self (Nat.le_of_not_lt hi)]
    refine h.rewrite hs ha (by rw [hsame]) (by rw [hsame]; exact ha.laid.wire) ?_ hdb hcache'
    unfold spentBytes
    rw [if_neg hi, hsame]
    exact ha.laid.holds.write_self

/-- **`spend`** on the file. -/
theorem Holds.spend (h : f.Holds form hash disk db) (point : Point) (spenderHeight : Nat) :
    ∃ f', f.spend form hash point spenderHeight = some (f', (db.spend point spenderHeight).2) ∧
      f'.Holds form hash disk (db.spend point spenderHeight).1 := by
  have hcache : (db.spend point spenderHeight).1.cache = spentCache db.cache point spenderHeight := by
    rw [db.spend_cache]
    unfold spentCache
    by_cases hn : spenderHeight = notSpent <;> simp [hn]
  have hfind := h.find_eq point.hash spenderHeight true
  rcases db.spend_spec point spenderHeight with ⟨slab, hf, hi, hr, hst⟩ | ⟨hn, hr, hst⟩
  · rw [hf] at hfind
    obtain ⟨hs, a, ha, hf'⟩ := hfind
    refine ⟨f.spent form a slab point spenderHeight, ?_, (h.spent point hs ha spenderHeight hst hcache).1⟩
    rw [ha.spend_eq hf', hr, decide_eq_true hi]
  · refine ⟨⟨f.lookup, spentCache f.cache point spenderHeight⟩, ?_, ?_⟩
    · cases hf : db.find point.hash spenderHeight true with
      | none =>
          rw [hf] at hfind
          rw [spend_eq_none hfind, hr]
      | some slab =>
          rw [hf] at hfind
          obtain ⟨_, a, ha, hf'⟩ := hfind
          have hi := Nat.not_lt.mpr (hn slab hf)
          rw [ha.spend_eq hf', hr, decide_eq_false hi]
          unfold TransactionFile.spent spentBytes
          rw [if_neg hi]
    · exact ⟨hst ▸ h.slabs, hst ▸ h.wire, by rw [hcache, ← h.cache_eq]⟩

/-- **`confirm`** on the file. -/
theorem Holds.confirm (h : f.Holds form hash disk db) (txHash : HashDigest)
    (height position : Nat) : ∃ f',
      f.confirm hash txHash height position = some (f', (db.confirm txHash height position).2) ∧
        f'.Holds form hash disk (db.confirm txHash height position).1 := by
  have hst := db.confirm_slabs txHash height position
  have hr := db.confirm_result txHash height position
  have hcache : f.cache = (db.confirm txHash height position).1.cache := by
    rw [db.confirm_cache, h.cache_eq]
  cases hs : (db.slabs txHash).head? with
  | none =>
      have hnil := List.head?_eq_none_iff.mp hs
      refine ⟨f, ?_, ?_⟩
      · unfold TransactionFile.confirm
        rw [h.find_absent hnil, hr, hnil]
        rfl
      · rw [db.confirm_absent hnil]
        exact h
  | some slab =>
      obtain ⟨a, ha⟩ := h.at_head hs
      obtain ⟨hbytes, hlen⟩ := ha.laid.placed height position
      refine ⟨_, ?_, (h.rewrite hs ha hlen (ha.laid.wire.confirm _ _) hbytes hst hcache).1⟩
      obtain ⟨rest, hcons⟩ := List.head?_eq_some_iff.mp hs
      unfold TransactionFile.confirm
      rw [ha.find_eq, hr, hcons]
      rfl

section Core

variable [Core]

/-- **A new slab** on the file. -/
theorem Holds.storeNew (h : f.Holds form hash disk db) (hd : disk.size ≤ maxObject) {tx : Transaction}
    {height position : Nat} (hw : TransactionOp.Wire form (.store tx height position))
    (hc : f.storeNew form hash disk tx height position = some f') :
    f'.Holds form hash disk (db.storeNew tx height position) := by
  obtain ⟨t, s', ht, hcodes⟩ := h.slabs
  unfold TransactionFile.storeNew at hc
  rw [← slabBytes_toSlab] at hc
  obtain ⟨⟨g, off⟩, hs, rfl⟩ := Option.map_eq_some_iff.mp hc
  have hallowed : (TableFile.Call.store (hashKey tx.hash)
      (slabBytes form (tx.toSlab height position))).Allowed .slab s' := ⟨True.intro, hw.2⟩
  obtain ⟨ht', _⟩ := ht.stored hd hallowed True.intro hs
  refine ⟨⟨_, _, ht', ?_⟩, fun k slab hm => ?_, ?_⟩
  · rw [db.storeNew_slabs]
    exact hcodes.push hashKey_injective tx.hash _
  · rw [db.storeNew_slabs] at hm
    by_cases hk : k = tx.hash
    · subst hk
      rw [Stacks.push_same] at hm
      rcases List.mem_cons.mp hm with rfl | hm
      · exact hw.1
      · exact h.wire _ slab hm
    · rw [Stacks.push_ne _ _ hk] at hm
      exact h.wire k slab hm
  · exact congrArg (fun c : UnspentOutputs => c.add tx height (position != unconfirmed)) h.cache_eq

/-- **`store`** on the file. -/
theorem Holds.store (h : f.Holds form hash disk db) (hd : disk.size ≤ maxObject) {tx : Transaction}
    {height position : Nat} (hw : TransactionOp.Wire form (.store tx height position))
    (hc : f.store form hash disk tx height position = some f') :
    f'.Holds form hash disk (db.store tx height position) := by
  unfold TransactionFile.store at hc
  unfold TransactionDatabase.store
  by_cases hp : (position != unconfirmed && position != 0 && tx.pooled) = true
  · obtain ⟨f₁, hf, h₁⟩ := h.confirm tx.hash height position
    rw [if_pos hp, hf] at hc
    rw [if_pos hp]
    rcases hdb : db.confirm tx.hash height position with ⟨db₁, b⟩
    rw [hdb] at h₁ hc
    cases b with
    | true =>
        cases hc
        exact ⟨h₁.slabs, h₁.wire, congrArg (fun c : UnspentOutputs => c.add tx height true) h₁.cache_eq⟩
    | false => exact h₁.storeNew hd hw hc
  · rw [if_neg hp] at hc ⊢
    exact h.storeNew hd hw hc

/-- **One call**: the file goes on to hold the slabs. -/
theorem Holds.apply (h : f.Holds form hash disk db) (hd : disk.size ≤ maxObject) {op : TransactionOp}
    (hw : op.Wire form) (hc : f.apply form hash disk op = some f') :
    f'.Holds form hash disk (db.apply op) := by
  -- a call that answers is the call on the slabs
  have hanswer {call : Option (TransactionFile × Bool)} {b : Bool} {db' : TransactionDatabase}
      (hex : ∃ f₁, call = some (f₁, b) ∧ f₁.Holds form hash disk db')
      (hcall : call.map Prod.fst = some f') : f'.Holds form hash disk db' := by
    obtain ⟨f₁, hf, h₁⟩ := hex
    rw [hf] at hcall
    cases hcall
    exact h₁
  cases op with
  | store tx height position => exact h.store hd hw hc
  | spend point spenderHeight => exact hanswer (h.spend point spenderHeight) hc
  | unspend point => exact hanswer (h.spend point notSpent) hc
  | confirm txHash height position => exact hanswer (h.confirm txHash height position) hc
  | unconfirm txHash => exact hanswer (h.confirm txHash Core.unverified unconfirmed) hc

/-- **A run from a created file.** -/
theorem holds_of_create (hd : disk.size ≤ maxObject) {buckets cacheCapacity : Nat}
    (hb : buckets < Memory.limit 4) {bytes : Memory}
    (hc : create disk buckets cacheCapacity bytes = some f) {ops : List TransactionOp}
    (hw : ∀ op ∈ ops, op.Wire form) (hr : runSome (TransactionFile.apply form hash disk) f ops = some f') :
    f'.Holds form hash disk
      (run TransactionDatabase.apply (TransactionDatabase.create buckets cacheCapacity) ops) := by
  obtain ⟨g, hg, rfl⟩ := Option.map_eq_some_iff.mp hc
  obtain ⟨⟨t, ht⟩, _⟩ := TableFile.create_holding hash hd hb hg
  have h₀ : Holds form hash disk ⟨g, UnspentOutputs.create cacheCapacity⟩
      (TransactionDatabase.create buckets cacheCapacity) := by
    have hempty := TransactionDatabase.create_slabs buckets cacheCapacity
    refine ⟨⟨t, fun _ => [], ht, fun k => by rw [hempty]; rfl⟩, fun k slab hm => ?_, rfl⟩
    rw [hempty] at hm
    cases hm
  exact runSome_refines (fun f db op f' h hw hc => h.apply hd hw hc) h₀ hw hr

end Core

end TransactionFile

end Libbitcoin.Database
