/-
  File:      BitprimDatabase/DataBase/Buckets.lean
  Subject:   THE BUCKET TASKS OF ONE BLOCK (data_base.cpp, `do_push_transactions`): the loops of
             `push_transactions` for every bucket, interleaved pass by pass.

  * `Bucketing`, `step` -- the tables and the loops; a pass pushes the transaction at its position;
  * `Bucketing.Pushed` -- the invariant: the tables are those of the processed transactions pushed
    in the order of the passes;
  * `pushTransactions_of_alone` -- one bucket alone is `push_transactions` of that bucket;
  * **`buckets_serial`**: the loops end whatever the schedule, with every position processed once;
    the tables answer as after the serial push, history and stealth rows up to their order, and the
    pop of the completed block restores the history rows in their order.

  The pop deletes rows by the addresses of the block, not the rows it wrote: how many it deletes of
  an address does not depend on the order, and the rows below are the old ones.
-/
import BitprimDatabase.Lib.Strides
import BitprimDatabase.DataBase.Reorganize

namespace Libbitcoin.Database

open Lib

/-! ## 1. The machine -/

/-- The tables, and the loops of the bucket tasks. -/
structure Bucketing where
  db : DataBase
  loops : Strides Transaction

namespace Bucketing

/-- The tasks are given to the dispatcher. -/
def begin (db : DataBase) (buckets : Nat) : Bucketing := ⟨db, .begin buckets⟩

/-- One pass of the loop of `push_transactions` of a bucket. -/
def step [Core] (b : Block) (height buckets : Nat) (s : Bucketing) (bucket : Nat) : Bucketing :=
  match s.loops.current b.transactions bucket with
  | none => s
  | some tx =>
    { db := DataBase.pushTransaction height s.db tx
      loops := s.loops.step b.transactions (ceilingAdd · buckets) bucket }

/-- The state after a schedule: which bucket makes a pass next. -/
def after [Core] (db : DataBase) (b : Block) (height buckets : Nat) (schedule : List Nat) :
    Bucketing :=
  run (step b height buckets) (begin db buckets) schedule

/-- The loop of the bucket has not ended. -/
def Running (b : Block) (s : Bucketing) (bucket : Nat) : Prop :=
  s.loops.Running b.transactions bucket

/-- Every loop has ended. -/
def Ended (b : Block) (s : Bucketing) : Prop := s.loops.Ended b.transactions

end Bucketing

/-- The transactions have distinct hashes, those behind the first one distinct previous outputs, and
    the first one is the only coinbase. -/
structure Block.Mergeable (b : Block) : Prop where
  hashes : b.hashes.Nodup
  previousOutputs : b.previousOutputs.Nodup
  coinbase : ∀ t ∈ b.transactions.zipIdx, t.2 = 0 ↔ t.1.isCoinbase = true

/-- `ceiling_add` goes on by `buckets`, or to the largest size. -/
theorem ceilingAdd_next {items : List Transaction} (h : items.length ≤ maxSize) (buckets : Nat) :
    Strides.Next items buckets (ceilingAdd · buckets) := by
  intro position _
  show min (position + buckets) maxSize = _ ∨ items.length ≤ min (position + buckets) maxSize ∧ _
  omega

variable [Core]

namespace Bucketing

/-- **The invariant** of the tables: the processed transactions are pushed, in order. -/
def Pushed (db : DataBase) (height : Nat) (s : Bucketing) : Prop :=
  s.db = s.loops.processed.foldl (DataBase.pushTransaction height) db

theorem step_loops (b : Block) (height buckets : Nat) (s : Bucketing) (bucket : Nat) :
    (step b height buckets s bucket).loops =
      s.loops.step b.transactions (ceilingAdd · buckets) bucket := by
  unfold step
  cases hc : s.loops.current b.transactions bucket with
  | none => exact (Strides.step_ended hc).symm
  | some tx => rfl

theorem Pushed.step {db : DataBase} {b : Block} {height buckets : Nat} {s : Bucketing}
    (h : Pushed db height s) (bucket : Nat) :
    Pushed db height (Bucketing.step b height buckets s bucket) := by
  unfold Bucketing.step
  cases hc : s.loops.current b.transactions bucket with
  | none => exact h
  | some tx =>
      show DataBase.pushTransaction height s.db tx = _
      rw [Strides.step_running hc, List.foldl_append, ← h]
      rfl

section Run

variable {db : DataBase} {b : Block} {height buckets : Nat}

theorem run_loops (s : Bucketing) (schedule : List Nat) :
    (run (step b height buckets) s schedule).loops =
      run (Strides.step b.transactions (ceilingAdd · buckets)) s.loops schedule := by
  induction schedule generalizing s with
  | nil => rfl
  | cons i schedule ih =>
      show (run _ (step b height buckets s i) schedule).loops = _
      rw [ih, step_loops]
      rfl

theorem everyStep_loops {s : Bucketing} {schedule : List Nat} :
    EveryStep (step b height buckets) (Running b) s schedule ↔
      EveryStep (Strides.step b.transactions (ceilingAdd · buckets))
        (Strides.Running b.transactions) s.loops schedule := by
  induction schedule generalizing s with
  | nil => exact Iff.rfl
  | cons i schedule ih =>
      refine and_congr Iff.rfl (ih.trans ?_)
      rw [step_loops]

/-- The tables after a schedule. -/
theorem after_pushed (schedule : List Nat) :
    Pushed db height (after db b height buckets schedule) :=
  run_of_step (fun _ i h => h.step i) schedule rfl

/-- The loops after a schedule. -/
theorem after_merged (hsize : b.transactions.length ≤ maxSize) (schedule : List Nat) :
    Strides.Merged b.transactions buckets (after db b height buckets schedule).loops := by
  unfold after
  rw [run_loops]
  exact (Strides.begin_merged _ _).run (ceilingAdd_next hsize buckets) schedule

/-- **One bucket alone**: the strided loop is `push_transactions` of the bucket. -/
theorem pushTransactions_of_alone (hsize : b.transactions.length ≤ maxSize) {bucket : Nat}
    (hb : bucket < buckets) (n : Nat)
    (he : ¬ Running b (after db b height buckets (List.replicate n bucket)) bucket) :
    (after db b height buckets (List.replicate n bucket)).db =
      (db.pushTransactions b height bucket buckets).1 := by
  have hpushed : Pushed db height (after db b height buckets (List.replicate n bucket)) :=
    after_pushed _
  have hended := Option.not_isSome_iff_eq_none.mp he
  unfold after at hpushed hended ⊢
  rw [run_loops] at hended
  rw [hpushed, run_loops, begin,
    Strides.alone_processed (ceilingAdd_next hsize buckets) hb n hended]
  rfl

end Run

end Bucketing

/-! ## 2. Stealth rows -/

/-- The row of a pair of outputs, none where an extraction fails. -/
def stealthRow (txHash : HashDigest) (height : Nat) (pair : Output × Output) :
    List (Nat × Nat × StealthCompact) :=
  match Core.address pair.2.script, Core.ephemeralKey pair.1.script,
      Core.stealthPrefix pair.1.script with
  | some address, some key, some stealthPrefix =>
    [(stealthPrefix, u32 height, ⟨key, address, txHash⟩)]
  | _, _, _ => []

def Transaction.stealthRows (tx : Transaction) (height : Nat) : List (Nat × Nat × StealthCompact) :=
  (tx.outputs.zip tx.outputs.tail).flatMap (stealthRow tx.hash height)

namespace DataBase

theorem pushInputs_stealth (db : DataBase) (txHash : HashDigest) (height : Nat)
    (inputs : List Input) : (db.pushInputs txHash height inputs).stealth = db.stealth := by
  refine run_of_step (P := fun d : DataBase => d.stealth = db.stealth) (fun d i h => ?_) inputs.zipIdx rfl
  unfold pushInput
  cases Core.address i.1.script <;> exact h

theorem pushOutputs_stealth (db : DataBase) (txHash : HashDigest) (height : Nat)
    (outputs : List Output) : (db.pushOutputs txHash height outputs).stealth = db.stealth := by
  refine run_of_step (P := fun d : DataBase => d.stealth = db.stealth) (fun d o h => ?_) outputs.zipIdx rfl
  unfold pushOutput
  cases Core.address o.1.script <;> exact h

theorem pushStealth_rows (db : DataBase) (tx : Transaction) (height : Nat) :
    (db.pushStealth tx.hash height tx.outputs).stealth.rows =
      db.stealth.rows ++ tx.stealthRows height := by
  unfold pushStealth Transaction.stealthRows
  generalize tx.outputs.zip tx.outputs.tail = l
  induction l generalizing db with
  | nil => exact (List.append_nil _).symm
  | cons pair l ih =>
      rw [List.foldl_cons, ih, List.flatMap_cons, ← List.append_assoc]
      congr 1
      unfold pushStealthPair stealthRow
      cases Core.address pair.2.script <;> cases Core.ephemeralKey pair.1.script <;>
        cases Core.stealthPrefix pair.1.script <;> simp [StealthDatabase.store]

theorem pushTransaction_stealth (height : Nat) (db : DataBase) (tx : Transaction × Nat) :
    (pushTransaction height db tx).stealth.rows = db.stealth.rows ++
      if height < db.settings.indexStartHeight then [] else tx.1.stealthRows height := by
  unfold pushTransaction
  by_cases hh : height < db.settings.indexStartHeight
  · simp only [hh, if_true]
    exact (List.append_nil _).symm
  · simp only [hh, if_false]
    unfold pushIndexes
    rw [pushStealth_rows, pushOutputs_stealth]
    by_cases hp : tx.2 ≠ 0
    · simp only [if_pos hp]
      rw [pushInputs_stealth]
    · simp only [if_neg hp]

/-- The stealth rows after a list of transactions. -/
theorem pushAllTransactions_stealth (height : Nat) (db : DataBase) (l : List (Transaction × Nat)) :
    (l.foldl (pushTransaction height) db).stealth.rows = db.stealth.rows ++ l.flatMap fun tx =>
      if height < db.settings.indexStartHeight then [] else tx.1.stealthRows height := by
  induction l generalizing db with
  | nil => exact (List.append_nil _).symm
  | cons tx l ih =>
      obtain ⟨hsettings, _⟩ := pushTransaction_spec height db tx
      rw [List.foldl_cons, ih, pushTransaction_stealth, hsettings, List.flatMap_cons,
        List.append_assoc]

/-! ## 3. The serial push -/

/-- **The answers of the tables**: the same, the rows of an address and the stealth rows in any
    order; with the cache off the output queries as well. -/
structure SameTables (db db' : DataBase) : Prop where
  transactions : ∀ hash forkHeight requireConfirmed,
    db'.transactions.get hash forkHeight requireConfirmed =
      db.transactions.get hash forkHeight requireConfirmed
  outputs : db.transactions.cache.disabled = true → ∀ point forkHeight requireConfirmed,
    db'.transactions.getOutput point forkHeight requireConfirmed =
      db.transactions.getOutput point forkHeight requireConfirmed
  pool : ∀ hash, db'.transactionsUnconfirmed.get hash = db.transactionsUnconfirmed.get hash
  spends : ∀ outpoint, db'.spends.get outpoint = db.spends.get outpoint
  history : ∀ key, (db'.history.get key 0 0).Perm (db.history.get key 0 0)
  stealth : db'.stealth.rows.Perm db.stealth.rows

omit [Core] in
theorem getOutput_of_disabled {t t' : TransactionDatabase} (h : t.cache.disabled = true)
    (h' : t'.cache.disabled = true) (hs : t'.slabs = t.slabs) (point : Point) (forkHeight : Nat)
    (requireConfirmed : Bool) : t'.getOutput point forkHeight requireConfirmed =
      t.getOutput point forkHeight requireConfirmed := by
  have hmiss (c : UnspentOutputs) (hc : c.disabled = true) :
      c.get point forkHeight requireConfirmed = none := by
    unfold UnspentOutputs.get UnspentOutputs.getIsConfirmed
    rw [if_pos hc]
    rfl
  unfold TransactionDatabase.getOutput TransactionDatabase.findOutput
  rw [hmiss _ h, hmiss _ h', TransactionDatabase.find_eq, TransactionDatabase.find_eq, hs]

theorem storeAll_capacity (t : TransactionDatabase) (height : Nat) (l : List (Transaction × Nat)) :
    (storeAll t height l).cache.capacity = t.cache.capacity := by
  refine run_of_step (P := fun d : TransactionDatabase => d.cache.capacity = t.cache.capacity)
    (fun d tx h => ?_) l rfl
  rw [TransactionDatabase.store_cache, UnspentOutputs.add_capacity]
  exact h

/-- **The order of the passes is not seen.** -/
theorem sameTables_of_perm (db : DataBase) {b : Block} (hb : b.Mergeable) (height : Nat)
    {l : List (Transaction × Nat)} (hl : l.Perm b.transactions.zipIdx) :
    SameTables (b.transactions.zipIdx.foldl (pushTransaction height) db)
      (l.foldl (pushTransaction height) db) := by
  obtain ⟨_, _, _, _, ht, hp, hs, hr⟩ := pushAllTransactions_spec height db b.transactions.zipIdx
  obtain ⟨_, _, _, _, ht', hp', hs', hr'⟩ := pushAllTransactions_spec height db l
  have hst := pushAllTransactions_stealth height db b.transactions.zipIdx
  have hst' := pushAllTransactions_stealth height db l
  generalize b.transactions.zipIdx.foldl (pushTransaction height) db = serial at *
  generalize l.foldl (pushTransaction height) db = merged at *
  have hhashes : (l.map fun tx => tx.1.hash).Perm b.hashes := zipIdx_map_hash b ▸ hl.map _
  have hslabs : merged.transactions.slabs = serial.transactions.slabs := by
    rw [ht, ht']
    exact storeAll_slabs_perm _ _ hl (hhashes.nodup_iff.mpr hb.hashes)
  have hspends : merged.spendsOf = serial.spendsOf := by
    rw [hs, hs']
    refine Stacks.pushAll_perm_of_nodup _ (hl.flatMap_right _) ?_
    rw [((hl.flatMap_right _).map Prod.fst).nodup_iff]
    have hkeys := blockSpendRows_keys b db.settings.indexStartHeight height
    unfold Block.spendRows at hkeys
    rw [hkeys]
    split
    · exact List.nodup_nil
    · exact hb.previousOutputs
  have hpool : merged.poolOf = serial.poolOf := by
    rw [hp, hp']
    exact Stacks.popAll_perm _ (hl.map _)
  have hcapacity : merged.transactions.cache.capacity = serial.transactions.cache.capacity := by
    rw [ht, ht', storeAll_capacity, storeAll_capacity]
  refine ⟨fun hash forkHeight requireConfirmed => ?_, fun hd point forkHeight requireConfirmed => ?_,
    fun hash => ?_, fun outpoint => ?_, fun key => ?_, ?_⟩
  · unfold TransactionDatabase.get
    rw [TransactionDatabase.find_eq, TransactionDatabase.find_eq, hslabs]
  · refine getOutput_of_disabled hd ?_ hslabs point forkHeight requireConfirmed
    unfold UnspentOutputs.disabled at hd ⊢
    rw [hcapacity]
    exact hd
  · rw [TransactionUnconfirmedDatabase.get_eq, TransactionUnconfirmedDatabase.get_eq]
    exact congrArg (fun s : Stacks HashDigest TransactionSlab => (s hash).head?) hpool
  · rw [SpendDatabase.get_eq, SpendDatabase.get_eq]
    exact congrArg (fun s : Stacks Point Point => (s outpoint).head?.getD ⟨nullHash, 0⟩) hspends
  · rw [HistoryDatabase.get_all, HistoryDatabase.get_all]
    show (merged.rows key).Perm (serial.rows key)
    rw [hr, hr']
    exact Stacks.pushAll_perm _ (hl.flatMap_right _) key
  · rw [hst, hst']
    exact (hl.flatMap_right _).append_left _

/-! ## 4. Completing and popping the block -/

/-- What is left of the push behind the bucket tasks: the spends, and the block. -/
def complete (db : DataBase) (b : Block) (height : Nat) : DataBase × Bool :=
  match db.pushHeights b height with
  | (db, false) => (db, false)
  | (db, true) => ({ db with blocks := db.blocks.store b height }, true)

omit [Core] in
/-- A completed block: the spends are marked, the block is stored. -/
theorem complete_success {db db' : DataBase} {b : Block} {height : Nat}
    (h : db.complete b height = (db', true)) :
    db' = { db with
      transactions := (spendAll db.transactions height b.previousOutputs).1
      blocks := db.blocks.store b height } := by
  unfold complete pushHeights at h
  rcases hs : spendAll db.transactions height b.previousOutputs with ⟨t, r⟩
  rw [hs] at h
  cases r <;> cases h
  rfl

omit [Core] in
/-- The transactions read back for a block are the block's, where a hash stands for one content. -/
theorem sameAt_of_readBack {content : HashDigest → Content} {db : DataBase} {b : Block}
    {height : Nat} {txs : List Transaction} (hs : GenuineSlabs content db.transactions.slabs)
    (hg : b.Genuine content) (hc : ∀ t ∈ b.transactions.zipIdx, t.2 = 0 ↔ t.1.isCoinbase = true)
    (h : List.Forall₂ (db.ReadBack height) b.hashes.zipIdx txs) :
    List.Forall₂ SameAt b.transactions.zipIdx txs := by
  rw [hashes_zipIdx, List.forall₂_map_left_iff] at h
  have hall : List.Forall₂ (fun t tx => t ∈ b.transactions.zipIdx ∧
      db.ReadBack height (t.1.hash, t.2) tx) b.transactions.zipIdx txs :=
    (List.forall₂_and_left _ _).mpr ⟨fun _ ht => ht, h⟩
  refine hall.imp fun t tx hback => ?_
  obtain ⟨ht, slab, hslab, _, _, _, rfl⟩ := hback
  refine ⟨rfl, ?_, hc t ht⟩
  have hcontent : slab.content = content t.1.hash := hs _ slab (List.mem_of_mem_head? hslab)
  exact hcontent.trans (hg t.1 (List.fst_mem_of_mem_zipIdx ht)).symm

/-- **The pop restores the history rows**, whatever the order in which they were written. -/
theorem popped_rows {content : HashDigest → Content} {db db' : DataBase} {b : Block}
    {height : Nat} {l : List (Transaction × Nat)} (hl : l.Perm b.transactions.zipIdx)
    (hs : GenuineSlabs content db.transactions.slabs) (hg : b.Genuine content) (hb : b.Mergeable)
    (htop : (db.blocks.store b height).top = some height)
    (hcomplete : (l.foldl (pushTransaction height) db).complete b height = (db', true))
    {out : Block} (hpop : db'.pop.2 = some out) : db'.pop.1.rows = db.rows := by
  obtain ⟨hsettings, _, _, hblocks, ht, _, _, hrows⟩ := pushAllTransactions_spec height db l
  have hdb' := complete_success hcomplete
  generalize l.foldl (pushTransaction height) db = merged at *
  have hstore : db'.blocks = db.blocks.store b height := by
    rw [hdb', ← hblocks]
  have hgenuine : GenuineSlabs content db'.transactions.slabs := by
    rw [hdb']
    show GenuineSlabs content (spendAll merged.transactions height b.previousOutputs).1.slabs
    rw [ht]
    exact (hs.storeAll height fun tx htx =>
      hg tx.1 (List.fst_mem_of_mem_zipIdx (hl.mem_iff.mp htx))).spendAll _ _
  -- the block popped is the one stored
  obtain ⟨top, txs, ⟨htop', r, hr, _, hback, _⟩, hpopped⟩ := (db'.pop_spec out).2 hpop
  rw [hstore, htop] at htop'
  cases htop'
  have hcount := BlockDatabase.top_eq_some.mp htop
  have hlt : height < maxUint32 := by
    have := (db.blocks.store b height).count_le
    omega
  rw [hstore, BlockDatabase.store_get_same _ _ hlt] at hr
  cases hr
  have hsame := sameAt_of_readBack hgenuine hg hb.coinbase hback
  have hrows' : db'.rows = merged.rows := by
    rw [hdb']
    rfl
  have hstart : db'.settings = db.settings := by
    rw [hdb']
    exact hsettings
  rw [hpopped.rows_eq, hrows', hrows, hstart, ← historyRows_keys hsame]
  refine Stacks.popAll_pushAll_perm _ (((hl.flatMap_right _).map Prod.fst).trans ?_)
  exact (List.reverse_perm _).symm

/-! ## 5. Parallel push -/

/-- **Parallel push equals serial push.** -/
theorem buckets_serial (db : DataBase) {b : Block} (height : Nat) {buckets : Nat}
    (hb : b.Mergeable) (hsize : b.transactions.length ≤ maxSize) (hbuckets : 0 < buckets)
    (schedule : List Nat) :
    -- the loops end, whatever the schedule
    (EveryStep (Bucketing.step b height buckets) (Bucketing.Running b) (.begin db buckets) schedule →
      schedule.length ≤ b.transactions.length) ∧
    (∃ rest, (Bucketing.after db b height buckets (schedule ++ rest)).Ended b) ∧
    ∀ s, s = Bucketing.after db b height buckets schedule → s.Ended b →
      s.loops.processed.Perm b.transactions.zipIdx ∧
      SameTables (db.pushTransactions b height 0 1).1 s.db ∧
      ∀ content, GenuineSlabs content db.transactions.slabs → b.Genuine content →
        (db.blocks.store b height).top = some height →
        ∀ db' out, s.db.complete b height = (db', true) → db'.pop.2 = some out →
          ∀ key limit fromHeight, db'.pop.1.history.get key limit fromHeight =
            db.history.get key limit fromHeight := by
  have hnext := ceilingAdd_next hsize buckets
  refine ⟨fun h => Strides.length_le hnext hbuckets (Bucketing.everyStep_loops.mp h), ?_, ?_⟩
  · obtain ⟨rest, _, hended⟩ :=
      (@Bucketing.after_merged _ db b height buckets hsize schedule).exists_ended hnext hbuckets
    refine ⟨rest, ?_⟩
    unfold Bucketing.Ended Bucketing.after
    rw [run_append, Bucketing.run_loops]
    exact hended
  · rintro s rfl hended
    have hperm := (Bucketing.after_merged hsize schedule).perm hbuckets hended
    have hpushed : Bucketing.Pushed db height (Bucketing.after db b height buckets schedule) :=
      Bucketing.after_pushed schedule
    rw [hpushed, pushTransactions_eq]
    refine ⟨hperm, sameTables_of_perm db hb height hperm, ?_⟩
    intro content hs hg htop db' out hcomplete hpop key limit fromHeight
    have hrows := popped_rows hperm hs hg hb htop hcomplete hpop
    unfold HistoryDatabase.get
    exact congrArg (fun s => HistoryDatabase.select limit fromHeight (s key) []) hrows

omit [Core] in
/-- The second transaction of a block is pushed in front of the first one. -/
theorem spendingBlock_merged :
    (@Bucketing.after Core.sample sample spendingBlock 1 2 [1, 0]).Ended spendingBlock ∧
      (@Bucketing.after Core.sample sample spendingBlock 1 2 [1, 0]).loops.processed.Perm
        spendingBlock.transactions.zipIdx ∧
      @SameTables (@pushTransactions Core.sample sample spendingBlock 1 0 1).1
        (@Bucketing.after Core.sample sample spendingBlock 1 2 [1, 0]).db := by
  have hb : spendingBlock.Mergeable :=
    ⟨by decide +kernel, by decide +kernel, by decide +kernel⟩
  have hpositions : (@Bucketing.after Core.sample sample spendingBlock 1 2 [1, 0]).loops.positions =
      [2, 3] := by decide +kernel
  have hended : (@Bucketing.after Core.sample sample spendingBlock 1 2 [1, 0]).Ended
      spendingBlock := by
    intro bucket
    unfold Strides.current
    rw [hpositions]
    rcases bucket with _ | _ | bucket <;> rfl
  obtain ⟨_, _, h⟩ := @buckets_serial Core.sample sample spendingBlock 1 2 hb (by decide) (by decide)
    [1, 0]
  obtain ⟨hperm, hsame, _⟩ := h _ rfl hended
  exact ⟨hended, hperm, hsame⟩

end DataBase

end Libbitcoin.Database
