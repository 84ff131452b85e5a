/-
  File:      BitprimDatabase/Databases/ConfirmInPlace.lean
  Subject:   CONFIRMING IN PLACE EQUALS STORING ANEW (transaction_database.cpp): the store of a pooled
             transaction rewrites height and position of its slab, the store of one that is not
             flagged as pooled shadows the slab by a newer one. No query and no later operation
             looks behind the newest slab of a hash.

  * `tops` -- the newest slab of each hash; `apply_tops`: **a simulation**, what an operation does to
    the newest slabs is decided by the newest slabs;
  * `answers_of_tops` -- without a cache so are the answers of the three queries;
  * **`confirmed_in_place`** assembles it over every later run.
-/
import BitprimDatabase.Databases.CacheCoherence

namespace Libbitcoin.Database

open Lib

namespace TransactionDatabase

variable [Core]

/-! ## 1. The newest slabs -/

/-- The newest slab of each hash. -/
def tops (db : TransactionDatabase) (hash : HashDigest) : Option TransactionSlab :=
  (db.slabs hash).head?

/-- The two tables have the same newest slabs. -/
def SameTops (db db' : TransactionDatabase) : Prop := ∀ hash, db.tops hash = db'.tops hash

section SameTops

variable {db db' : TransactionDatabase}

omit [Core] in
theorem isEmpty_eq (db : TransactionDatabase) (hash : HashDigest) :
    (db.slabs hash).isEmpty = (db.tops hash).isNone := by
  unfold tops
  cases db.slabs hash <;> rfl

omit [Core] in
theorem SameTops.find (h : db.SameTops db') (hash : HashDigest) (forkHeight : Nat)
    (requireConfirmed : Bool) :
    db.find hash forkHeight requireConfirmed = db'.find hash forkHeight requireConfirmed := by
  have htop : (db.slabs hash).head? = (db'.slabs hash).head? := h hash
  rw [find_eq, find_eq, htop]

omit [Core] in
theorem SameTops.inPlace (h : db.SameTops db') (tx : Transaction) (position : Nat) :
    db.inPlace tx position = db'.inPlace tx position := by
  unfold TransactionDatabase.inPlace
  rw [isEmpty_eq, isEmpty_eq, h tx.hash]

omit [Core] in
theorem SameTops.modifyTop (h : db.SameTops db') {hash : HashDigest}
    {f : TransactionSlab → TransactionSlab} {d d' : TransactionDatabase}
    (hd : d.slabs = db.slabs.modifyTop hash f) (hd' : d'.slabs = db'.slabs.modifyTop hash f) :
    d.SameTops d' := by
  intro k
  have htop : (db.slabs k).head? = (db'.slabs k).head? := h k
  unfold tops
  rw [hd, hd', Stacks.modifyTop_head, Stacks.modifyTop_head, htop]

omit [Core] in
theorem SameTops.push (h : db.SameTops db') {hash : HashDigest} {slab : TransactionSlab}
    {d d' : TransactionDatabase} (hd : d.slabs = db.slabs.push hash slab)
    (hd' : d'.slabs = db'.slabs.push hash slab) : d.SameTops d' := by
  intro k
  have htop : (db.slabs k).head? = (db'.slabs k).head? := h k
  unfold tops
  rw [hd, hd', Stacks.push_head, Stacks.push_head, htop]

omit [Core] in
theorem SameTops.spend (h : db.SameTops db') (point : Point) (spenderHeight : Nat) :
    (db.spend point spenderHeight).1.SameTops (db'.spend point spenderHeight).1 := by
  have hresult : (db.spend point spenderHeight).2 = (db'.spend point spenderHeight).2 := by
    rw [spend_result, spend_result, h.find]
  have hd := db.spend_slabs point spenderHeight
  have hd' := db'.spend_slabs point spenderHeight
  rw [← hresult] at hd'
  by_cases hs : (db.spend point spenderHeight).2 = true
  · rw [if_pos hs] at hd hd'
    exact h.modifyTop hd hd'
  · rw [if_neg hs] at hd hd'
    intro k
    unfold tops
    rw [hd, hd']
    exact h k

omit [Core] in
theorem SameTops.confirm (h : db.SameTops db') (hash : HashDigest) (height position : Nat) :
    (db.confirm hash height position).1.SameTops (db'.confirm hash height position).1 :=
  h.modifyTop (db.confirm_slabs hash height position) (db'.confirm_slabs hash height position)

theorem SameTops.store (h : db.SameTops db') (tx : Transaction) (height position : Nat) :
    (db.store tx height position).SameTops (db'.store tx height position) := by
  have hd := db.store_slabs tx height position
  have hd' := db'.store_slabs tx height position
  rw [← h.inPlace tx position] at hd'
  by_cases hp : db.inPlace tx position = true
  · rw [if_pos hp] at hd hd'
    exact h.modifyTop hd hd'
  · rw [if_neg hp] at hd hd'
    exact h.push hd hd'

/-- **The newest slabs decide what an operation does to the newest slabs.** -/
theorem SameTops.apply (h : db.SameTops db') (op : TransactionOp) :
    (db.apply op).SameTops (db'.apply op) := by
  cases op with
  | store tx height position => exact h.store tx height position
  | spend point spenderHeight => exact h.spend point spenderHeight
  | unspend point => exact h.spend point notSpent
  | confirm hash height position => exact h.confirm hash height position
  | unconfirm hash => exact h.confirm hash Core.unverified unconfirmed

theorem SameTops.run (h : db.SameTops db') (ops : List TransactionOp) :
    (run TransactionDatabase.apply db ops).SameTops (run TransactionDatabase.apply db' ops) := by
  induction ops generalizing db db' with
  | nil => exact h
  | cons op ops ih => exact ih (h.apply op)

theorem run_capacity (db : TransactionDatabase) (ops : List TransactionOp) :
    (Lib.run TransactionDatabase.apply db ops).cache.capacity = db.cache.capacity := by
  induction ops generalizing db with
  | nil => rfl
  | cons op ops ih => exact (ih (db.apply op)).trans (db.apply_capacity op)

end SameTops

/-! ## 2. The answers -/

/-- The two tables give the same answer to every query on every hash. -/
structure AnswersAlike (db db' : TransactionDatabase) : Prop where
  get_eq : ∀ hash forkHeight requireConfirmed,
    db.get hash forkHeight requireConfirmed = db'.get hash forkHeight requireConfirmed
  getOutput_eq : ∀ point forkHeight requireConfirmed,
    db.getOutput point forkHeight requireConfirmed = db'.getOutput point forkHeight requireConfirmed
  getOutputIsConfirmed_eq : ∀ point forkHeight requireConfirmed,
    db.getOutputIsConfirmed point forkHeight requireConfirmed =
      db'.getOutputIsConfirmed point forkHeight requireConfirmed

omit [Core] in
/-- **Without a cache the newest slabs decide the answers.** -/
theorem SameTops.answers {db db' : TransactionDatabase} (h : db.SameTops db')
    (hc : db.cache.capacity = 0) (hc' : db'.cache.capacity = 0) : db.AnswersAlike db' := by
  have hmiss (c : UnspentOutputs) (h0 : c.capacity = 0) (point : Point) (forkHeight : Nat)
      (requireConfirmed : Bool) : c.getIsConfirmed point forkHeight requireConfirmed = none := by
    unfold UnspentOutputs.getIsConfirmed
    rw [if_pos (show c.disabled = true from beq_iff_eq.mpr h0)]
  have hout (point : Point) (forkHeight : Nat) (requireConfirmed : Bool) :
      db.findOutput point forkHeight requireConfirmed =
        db'.findOutput point forkHeight requireConfirmed := by
    unfold findOutput
    rw [h.find]
  refine ⟨fun hash forkHeight requireConfirmed => h.find hash forkHeight requireConfirmed,
    fun point forkHeight requireConfirmed => ?_, fun point forkHeight requireConfirmed => ?_⟩
  · unfold getOutput UnspentOutputs.get
    rw [hmiss _ hc, hmiss _ hc', hout]
  · unfold getOutputIsConfirmed
    rw [hmiss _ hc, hmiss _ hc', hout]

/-! ## 3. The two ways to store -/

omit [Core] in
/-- A slab whose outputs are not spent is what its own transaction is stored as. -/
theorem toSlab_transaction {slab : TransactionSlab} (hn : ∀ o ∈ slab.outputs, o.spenderHeight = notSpent)
    (hash : HashDigest) (pooled : Bool) (height position : Nat) :
    ({ slab.transaction hash with pooled := pooled } : Transaction).toSlab height position =
      slab.confirm height position := by
  have houtputs : slab.outputs.map Output.toStore = slab.outputs := by
    refine (List.map_congr_left fun o ho => ?_).trans (List.map_id _)
    show ({ o with spenderHeight := u32 o.spenderHeight } : Output) = o
    rw [hn o ho, show u32 notSpent = notSpent from rfl, ← hn o ho]
  unfold Transaction.toSlab TransactionSlab.confirm TransactionSlab.transaction
  rw [houtputs]

/-- The two stores lead to the same newest slabs. -/
theorem stored_sameTops {db : TransactionDatabase} {hash : HashDigest} {slab : TransactionSlab}
    (hs : db.tops hash = some slab) (hn : ∀ o ∈ slab.outputs, o.spenderHeight = notSpent)
    (height : Nat) {position : Nat} (h0 : position ≠ 0) (hu : position ≠ unconfirmed) :
    (db.store { slab.transaction hash with pooled := true } height position).SameTops
      (db.store { slab.transaction hash with pooled := false } height position) := by
  have hin : db.inPlace { slab.transaction hash with pooled := true } position = true := by
    have he : (db.slabs hash).isEmpty = false := by rw [isEmpty_eq, hs]; rfl
    show (position != unconfirmed && position != 0 && true && !(db.slabs hash).isEmpty) = true
    rw [he]
    simp [h0, hu]
  have hnew : db.inPlace { slab.transaction hash with pooled := false } position = false := by
    unfold inPlace
    simp
  intro k
  unfold tops
  rw [store_slabs, store_slabs, if_pos hin, hnew, if_neg Bool.false_ne_true,
    toSlab_transaction hn, Stacks.modifyTop_head, Stacks.push_head]
  show (if k = hash then _ else _) = if k = hash then _ else _
  by_cases hk : k = hash
  · subst hk
    have hs : (db.slabs k).head? = some slab := hs
    rw [if_pos rfl, if_pos rfl, hs]
    rfl
  · rw [if_neg hk, if_neg hk]

/-- **A pooled transaction confirmed in place, and the same one stored anew**: without a cache the two
    tables give the same answers, after every later run as well. -/
theorem confirmed_in_place {db : TransactionDatabase} (hc : db.cache.capacity = 0)
    {hash : HashDigest} {slab : TransactionSlab} (hs : (db.slabs hash).head? = some slab)
    (hn : ∀ o ∈ slab.outputs, o.spenderHeight = notSpent) (height : Nat) {position : Nat}
    (h0 : position ≠ 0) (hu : position ≠ unconfirmed) (ops : List TransactionOp) :
    (run TransactionDatabase.apply
        (db.store { slab.transaction hash with pooled := true } height position) ops).AnswersAlike
      (run TransactionDatabase.apply
        (db.store { slab.transaction hash with pooled := false } height position) ops) := by
  have hstore (tx : Transaction) : (db.store tx height position).cache.capacity = 0 :=
    (apply_capacity db (.store tx height position)).trans hc
  refine ((stored_sameTops hs hn height h0 hu).run ops).answers ?_ ?_
  · rw [run_capacity, hstore]
  · rw [run_capacity, hstore]

omit [Core] in
/-- A transaction is stored unconfirmed, then in a block either way, spent and reorganized out. -/
theorem pooled_in_place :
    ∃ slab, ((@store Core.sample (@create Core.sample 3 0) (.sampleSpend 102 ⟨101, 0⟩ 2) 7
        unconfirmed).slabs 102).head? = some slab ∧
      (run (@TransactionDatabase.apply Core.sample)
          (@store Core.sample (@store Core.sample (@create Core.sample 3 0)
            (.sampleSpend 102 ⟨101, 0⟩ 2) 7 unconfirmed)
              { slab.transaction 102 with pooled := true } 1 1)
          [.spend ⟨102, 0⟩ 2, .unspend ⟨102, 0⟩, .unconfirm 102]).AnswersAlike
        (run (@TransactionDatabase.apply Core.sample)
          (@store Core.sample (@store Core.sample (@create Core.sample 3 0)
            (.sampleSpend 102 ⟨101, 0⟩ 2) 7 unconfirmed)
              { slab.transaction 102 with pooled := false } 1 1)
          [.spend ⟨102, 0⟩ 2, .unspend ⟨102, 0⟩, .unconfirm 102]) := by
  have hs : ((@store Core.sample (@create Core.sample 3 0) (.sampleSpend 102 ⟨101, 0⟩ 2) 7
      unconfirmed).slabs 102).head? =
        some (Transaction.toSlab (.sampleSpend 102 ⟨101, 0⟩ 2) 7 unconfirmed) := by decide +kernel
  exact ⟨_, hs, @confirmed_in_place Core.sample _ (by decide +kernel) 102 _ hs (by decide) 1 1
    (by decide) (by decide) _⟩

end TransactionDatabase

end Libbitcoin.Database
