/-
  File:      BitprimDatabase/Databases/TransactionDatabase.lean
  Subject:   THE TRANSACTION TABLE (transaction_database.cpp, transaction_result.cpp): a slab
             hash table from transaction hash to height, position and transaction in store form,
             with the output cache in front of its output queries.

  Only the newest slab of a hash is ever read or written. `slabs` is the table's stack of slabs;
  each operation below is followed by what it does to it.
-/
import BitprimDatabase.Primitives.Table
import BitprimDatabase.Databases.UnspentOutputs

namespace Libbitcoin.Database

open Lib

/-- `transaction_database::unconfirmed`, the position of an unconfirmed transaction. -/
def unconfirmed : Nat := maxUint32

/-- The height and position of a stored transaction and its store form. -/
structure TransactionSlab where
  height : Nat
  position : Nat
  version : Nat
  locktime : Nat
  outputs : List Output
  inputs : List Input
  deriving DecidableEq

/-- An output as the store form keeps it: the spender height in four bytes. -/
def Output.toStore (o : Output) : Output := { o with spenderHeight := u32 o.spenderHeight }

/-- What `store` writes. -/
def Transaction.toSlab (tx : Transaction) (height position : Nat) : TransactionSlab :=
  ⟨u32 height, u32 position, tx.version, tx.locktime, tx.outputs.map Output.toStore, tx.inputs⟩

namespace TransactionSlab

/-- `transaction_result::is_spent`. -/
def isSpent (slab : TransactionSlab) (forkHeight : Nat) : Bool :=
  if slab.position = unconfirmed then false
  else slab.outputs.all fun o => !(o.spenderHeight == notSpent || decide (o.spenderHeight > forkHeight))

/-- `transaction_result::output`: the default output past the end. -/
def output (slab : TransactionSlab) (index : Nat) : Output :=
  slab.outputs[index]?.getD Output.invalid

/-- `transaction_result::transaction`, constructed with the hash the slab was found by. -/
def transaction (slab : TransactionSlab) (hash : HashDigest) : Transaction :=
  ⟨hash, slab.version, slab.locktime, slab.inputs, slab.outputs, false⟩

/-- The write of `confirm`. -/
def confirm (height position : Nat) (slab : TransactionSlab) : TransactionSlab :=
  { slab with height := u32 height, position := u32 position }

/-- The write of `spend`: the spender height of one output. -/
def spend (index spenderHeight : Nat) (slab : TransactionSlab) : TransactionSlab :=
  { slab with
    outputs := slab.outputs.modify index fun o => { o with spenderHeight := u32 spenderHeight } }

end TransactionSlab

structure TransactionDatabase where
  lookup : Table HashDigest TransactionSlab
  cache : UnspentOutputs

/-- The size of a hash and a next position (slab_row::prefix_size). -/
def slabPrefixSize : Nat := 40

/-- The bytes of a slab: its prefix, height and position, and the transaction. -/
def slabExtent [Core] (tx : Transaction) : Nat := slabPrefixSize + (8 + Core.transactionSize tx)

theorem slabExtent_pos [Core] (tx : Transaction) : 0 < slabExtent tx :=
  Nat.add_pos_left (by decide) _

namespace TransactionDatabase

variable [Core]

def create (buckets cacheCapacity : Nat) : TransactionDatabase :=
  ⟨Table.create Core.hashDigest buckets 8, UnspentOutputs.create cacheCapacity⟩

/-- The slab of the newest transaction with the hash, confirmed at or below the fork height where
    that is required. -/
def find (db : TransactionDatabase) (hash : HashDigest) (forkHeight : Nat)
    (requireConfirmed : Bool) : Option TransactionSlab :=
  match db.lookup.get hash with
  | none => none
  | some slab =>
    if !requireConfirmed then some slab
    else if slab.height > forkHeight || (requireConfirmed && slab.position == unconfirmed) then none
    else some slab

/-- The result is valid exactly where there is a slab. -/
def get (db : TransactionDatabase) (hash : HashDigest) (forkHeight : Nat)
    (requireConfirmed : Bool) : Option TransactionSlab :=
  db.find hash forkHeight requireConfirmed

/-- The uncached answer of the two output queries. -/
def findOutput (db : TransactionDatabase) (point : Point) (forkHeight : Nat)
    (requireConfirmed : Bool) : Option UnspentOutputs.Hit :=
  match db.find point.hash forkHeight requireConfirmed with
  | none => none
  | some slab =>
    some ⟨slab.output point.index, slab.height, slab.position == 0, slab.position != unconfirmed⟩

def getOutputIsConfirmed (db : TransactionDatabase) (point : Point) (forkHeight : Nat)
    (requireConfirmed : Bool) : Option UnspentOutputs.Hit :=
  match db.cache.getIsConfirmed point forkHeight requireConfirmed with
  | some hit => some hit
  | none => db.findOutput point forkHeight requireConfirmed

def getOutput (db : TransactionDatabase) (point : Point) (forkHeight : Nat)
    (requireConfirmed : Bool) : Option (Output × Nat × Bool) :=
  match db.cache.get point forkHeight requireConfirmed with
  | some hit => some hit
  | none =>
    (db.findOutput point forkHeight requireConfirmed).map fun h => (h.output, h.height, h.coinbase)

/-- Promote the newest transaction with the hash; `false` where there is none. -/
def confirm (db : TransactionDatabase) (hash : HashDigest) (height position : Nat) :
    TransactionDatabase × Bool :=
  match db.find hash height false with
  | none => (db, false)
  | some _ => ({ db with lookup := db.lookup.write hash (TransactionSlab.confirm height position) }, true)

def unconfirm (db : TransactionDatabase) (hash : HashDigest) : TransactionDatabase × Bool :=
  db.confirm hash Core.unverified unconfirmed

/-- The end of `store`: a new slab for the transaction, and the cache entry. -/
def storeNew (db : TransactionDatabase) (tx : Transaction) (height position : Nat) :
    TransactionDatabase :=
  { lookup := db.lookup.store tx.hash (tx.toSlab height position) (slabExtent tx) (slabExtent_pos tx)
    cache := db.cache.add tx height (position != unconfirmed) }

/-- A block transaction flagged as pooled is confirmed in place where its hash has a slab; every
    other transaction gets a new slab. -/
def store (db : TransactionDatabase) (tx : Transaction) (height position : Nat) :
    TransactionDatabase :=
  if position != unconfirmed && position != 0 && tx.pooled then
    match db.confirm tx.hash height position with
    | (db, true) => { db with cache := db.cache.add tx height true }
    | (db, false) => db.storeNew tx height position
  else db.storeNew tx height position

/-- Write the spender height of an output of a transaction confirmed at or below it. -/
def spend (db : TransactionDatabase) (point : Point) (spenderHeight : Nat) :
    TransactionDatabase × Bool :=
  let db := if spenderHeight != notSpent then { db with cache := db.cache.removePoint point } else db
  match db.find point.hash spenderHeight true with
  | none => (db, false)
  | some slab =>
    if point.index ≥ slab.outputs.length then (db, false)
    else
      ({ db with lookup := db.lookup.write point.hash (TransactionSlab.spend point.index spenderHeight) },
        true)

def unspend (db : TransactionDatabase) (point : Point) : TransactionDatabase × Bool :=
  db.spend point notSpent

/-! ## What the operations do to the slabs -/

/-- The slabs of a hash, newest first. -/
def slabs (db : TransactionDatabase) : Stacks HashDigest TransactionSlab := db.lookup.stack

/-- The store rewrites the newest slab in place. -/
def inPlace (db : TransactionDatabase) (tx : Transaction) (position : Nat) : Bool :=
  position != unconfirmed && position != 0 && tx.pooled && !(db.slabs tx.hash).isEmpty

@[simp] theorem create_slabs (buckets cacheCapacity : Nat) (hash : HashDigest) :
    (create buckets cacheCapacity).slabs hash = [] := Table.create_stack ..

omit [Core] in
/-- `find` looks at the newest slab only. -/
theorem find_eq (db : TransactionDatabase) (hash : HashDigest) (forkHeight : Nat)
    (requireConfirmed : Bool) :
    db.find hash forkHeight requireConfirmed = (db.slabs hash).head?.filter fun slab =>
      !requireConfirmed || !(decide (slab.height > forkHeight) || slab.position == unconfirmed) := by
  unfold find slabs
  rw [Table.get_eq]
  cases db.lookup.stack hash with
  | nil => rfl
  | cons slab rest =>
      cases requireConfirmed with
      | false => rfl
      | true =>
          simp only [List.head?_cons, Option.filter_some]
          by_cases h : decide (slab.height > forkHeight) || slab.position == unconfirmed <;> simp [h]

omit [Core] in
@[simp] theorem find_false (db : TransactionDatabase) (hash : HashDigest) (forkHeight : Nat) :
    db.find hash forkHeight false = (db.slabs hash).head? := by
  rw [find_eq]
  cases (db.slabs hash).head? <;> rfl

omit [Core] in
theorem find_true (db : TransactionDatabase) {hash : HashDigest} {forkHeight : Nat}
    {slab : TransactionSlab} :
    db.find hash forkHeight true = some slab ↔
      (db.slabs hash).head? = some slab ∧ slab.height ≤ forkHeight ∧ slab.position ≠ unconfirmed := by
  rw [find_eq, Option.filter_eq_some_iff]
  simp

omit [Core] in
@[simp] theorem confirm_slabs (db : TransactionDatabase) (hash : HashDigest)
    (height position : Nat) : (db.confirm hash height position).1.slabs =
      db.slabs.modifyTop hash (TransactionSlab.confirm height position) := by
  unfold confirm
  rw [find_false]
  cases hs : db.slabs hash with
  | nil =>
      funext k
      by_cases hk : k = hash
      · subst hk
        simp [hs]
      · simp [hk]
  | cons slab rest => exact Table.write_stack ..

omit [Core] in
@[simp] theorem confirm_result (db : TransactionDatabase) (hash : HashDigest)
    (height position : Nat) :
    (db.confirm hash height position).2 = !(db.slabs hash).isEmpty := by
  unfold confirm
  rw [find_false]
  cases db.slabs hash <;> rfl

omit [Core] in
@[simp] theorem confirm_cache (db : TransactionDatabase) (hash : HashDigest)
    (height position : Nat) : (db.confirm hash height position).1.cache = db.cache := by
  unfold confirm
  split <;> rfl

@[simp] theorem storeNew_slabs (db : TransactionDatabase) (tx : Transaction)
    (height position : Nat) : (db.storeNew tx height position).slabs =
      db.slabs.push tx.hash (tx.toSlab height position) :=
  Table.store_stack _ _ _ _ (slabExtent_pos tx)

omit [Core] in
/-- `confirm` of a hash without a slab changes nothing. -/
theorem confirm_absent (db : TransactionDatabase) {hash : HashDigest} (h : db.slabs hash = [])
    (height position : Nat) : db.confirm hash height position = (db, false) := by
  unfold confirm
  rw [find_false, h]
  rfl

/-- `store`, by whether it rewrites in place. -/
theorem store_eq (db : TransactionDatabase) (tx : Transaction) (height position : Nat) :
    db.store tx height position =
      if db.inPlace tx position then
        { (db.confirm tx.hash height position).1 with cache := db.cache.add tx height true }
      else db.storeNew tx height position := by
  unfold store inPlace
  by_cases hp : position != unconfirmed && position != 0 && tx.pooled
  · simp only [hp, if_true, Bool.true_and]
    cases hs : db.slabs tx.hash with
    | nil =>
        rw [db.confirm_absent hs]
        rfl
    | cons slab rest =>
        have hr := db.confirm_result tx.hash height position
        have hc := db.confirm_cache tx.hash height position
        rw [hs] at hr
        rcases hcf : db.confirm tx.hash height position with ⟨db', b⟩
        rw [hcf] at hr hc
        cases hr
        rw [← show db'.cache = db.cache from hc]
        rfl
  · simp only [hp]
    rfl

/-- **`store` rewrites the newest slab in place or pushes a new one.** -/
theorem store_slabs (db : TransactionDatabase) (tx : Transaction) (height position : Nat) :
    (db.store tx height position).slabs =
      if db.inPlace tx position then
        db.slabs.modifyTop tx.hash (TransactionSlab.confirm height position)
      else db.slabs.push tx.hash (tx.toSlab height position) := by
  rw [store_eq]
  split
  · exact db.confirm_slabs tx.hash height position
  · exact db.storeNew_slabs tx height position

/-- The outputs of the newest slab of the transaction's hash once it is stored: those already
    there where the store rewrites in place, else those of the transaction. -/
def outputsStored (db : TransactionDatabase) (tx : Transaction) (position : Nat) : List Output :=
  if db.inPlace tx position then ((db.slabs tx.hash).head?.map TransactionSlab.outputs).getD []
  else tx.outputs.map Output.toStore

/-- The newest slab of a transaction once it is stored. -/
theorem store_head (db : TransactionDatabase) (tx : Transaction) (height position : Nat) :
    ∃ slab, ((db.store tx height position).slabs tx.hash).head? = some slab ∧
      slab.height = u32 height ∧ slab.position = u32 position ∧
      slab.outputs = db.outputsStored tx position := by
  rw [store_slabs]
  unfold outputsStored
  by_cases hp : db.inPlace tx position = true
  · rw [if_pos hp, if_pos hp, Stacks.modifyTop_head, if_pos rfl]
    cases hs : db.slabs tx.hash with
    | nil => simp [inPlace, hs] at hp
    | cons slab rest => exact ⟨slab.confirm height position, rfl, rfl, rfl, rfl⟩
  · rw [if_neg hp, if_neg hp, Stacks.push_head, if_pos rfl]
    exact ⟨_, rfl, rfl, rfl, rfl⟩

theorem store_head_ne (db : TransactionDatabase) (tx : Transaction) (height position : Nat)
    {hash : HashDigest} (h : hash ≠ tx.hash) :
    ((db.store tx height position).slabs hash).head? = (db.slabs hash).head? := by
  rw [store_slabs]
  split
  · rw [Stacks.modifyTop_head, if_neg h]
  · rw [Stacks.push_head, if_neg h]

/-- The cache after a store. -/
theorem store_cache (db : TransactionDatabase) (tx : Transaction) (height position : Nat) :
    (db.store tx height position).cache =
      db.cache.add tx height (db.inPlace tx position || position != unconfirmed) := by
  rw [store_eq]
  split
  · rename_i h
    rw [h]
    rfl
  · rename_i h
    rw [Bool.not_eq_true] at h
    rw [h]
    rfl

omit [Core] in
/-- The cache after a spend; an unspend does not touch it. -/
theorem spend_cache (db : TransactionDatabase) (point : Point) (spenderHeight : Nat) :
    (db.spend point spenderHeight).1.cache =
      if spenderHeight = notSpent then db.cache else db.cache.removePoint point := by
  unfold spend
  by_cases h : spenderHeight = notSpent
  · simp only [h, bne_self_eq_false, Bool.false_eq_true, if_false, if_true]
    split
    · rfl
    · split <;> rfl
  · simp only [bne_iff_ne, ne_eq, h, not_false_eq_true, if_true, if_false]
    split
    · rfl
    · split <;> rfl

omit [Core] in
/-- `spend` answers whether the newest slab of the hash is confirmed at or below the spender
    height and has the output; it edits one field of that slab then, and no slab otherwise. -/
theorem spend_spec (db : TransactionDatabase) (point : Point) (spenderHeight : Nat) :
    (∃ slab, db.find point.hash spenderHeight true = some slab ∧
        point.index < slab.outputs.length ∧ (db.spend point spenderHeight).2 = true ∧
        (db.spend point spenderHeight).1.slabs =
          db.slabs.modifyTop point.hash (TransactionSlab.spend point.index spenderHeight)) ∨
      ((∀ slab, db.find point.hash spenderHeight true = some slab →
          slab.outputs.length ≤ point.index) ∧ (db.spend point spenderHeight).2 = false ∧
        (db.spend point spenderHeight).1.slabs = db.slabs) := by
  -- the cache does not decide what is found
  have key (db' : TransactionDatabase) (hl : db'.lookup = db.lookup) :
      db'.find point.hash spenderHeight true = db.find point.hash spenderHeight true := by
    unfold find
    rw [hl]
  unfold spend
  extract_lets db'
  have hl : db'.lookup = db.lookup := by
    show (if _ then _ else _ : TransactionDatabase).lookup = _
    split <;> rfl
  have hs : db'.slabs = db.slabs := congrArg Table.stack hl
  rw [key db' hl]
  cases hf : db.find point.hash spenderHeight true with
  | none => exact .inr ⟨fun _ h => (nomatch h), rfl, hs⟩
  | some slab =>
      by_cases h : point.index ≥ slab.outputs.length
      · have hl : ∀ slab', some slab = some slab' → slab'.outputs.length ≤ point.index := by
          rintro _ ⟨⟩
          exact h
        refine .inr ⟨hl, ?_⟩
        simp [h, hs]
      · refine .inl ⟨slab, rfl, Nat.lt_of_not_le h, ?_⟩
        simp only [h, if_false, true_and]
        rw [← hs]
        exact Table.write_stack ..

omit [Core] in
theorem spend_result (db : TransactionDatabase) (point : Point) (spenderHeight : Nat) :
    (db.spend point spenderHeight).2 = (db.find point.hash spenderHeight true).any fun slab =>
      decide (point.index < slab.outputs.length) := by
  rcases db.spend_spec point spenderHeight with ⟨slab, hf, hi, hr, _⟩ | ⟨hn, hr, _⟩
  · rw [hr, hf]
    exact (decide_eq_true hi).symm
  · rw [hr]
    cases hf : db.find point.hash spenderHeight true with
    | none => rfl
    | some slab => exact (decide_eq_false (Nat.not_lt.mpr (hn slab hf))).symm

omit [Core] in
/-- **A spend that answers true** edits the newest slab of the hash, any other spend none. -/
theorem spend_slabs (db : TransactionDatabase) (point : Point) (spenderHeight : Nat) :
    (db.spend point spenderHeight).1.slabs =
      if (db.spend point spenderHeight).2 then
        db.slabs.modifyTop point.hash (TransactionSlab.spend point.index spenderHeight)
      else db.slabs := by
  rcases db.spend_spec point spenderHeight with ⟨_, _, _, hr, hst⟩ | ⟨_, hr, hst⟩
  · rw [hr, if_pos rfl, hst]
  · rw [hr, if_neg Bool.false_ne_true, hst]

end TransactionDatabase

end Libbitcoin.Database
