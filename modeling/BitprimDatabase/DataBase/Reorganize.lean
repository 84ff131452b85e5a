/-
  File:      BitprimDatabase/DataBase/Reorganize.lean
  Subject:   `reorganize` AND ITS CALLBACKS (data_base.cpp, asynchronous writers): pop to the fork
             point, then push the incoming blocks one after another, the transactions of each by
             concurrent bucket tasks that a counted join waits for.

  * `Task`, `Join`, `Reorganizing` -- what the dispatcher has been given and not run, the counters
    of the join handlers, the state; a continuation is named by the block it pushes next;
  * `step` -- one task runs: a `do_push` to its end, a bucket task for one pass of its loop;
  * `Phase` -- **what a state can be**: one `do_push` pending, or the bucket tasks of one block with
    a join that waits for all of them, or nothing pending and the handler called;
  * **`completes_iff`**: the handler is called once, after the unlocking, whatever fails and in
    whatever order the tasks run, except where the height above the fork point overflows, and the
    call throws in front of the lock, or a pop throws at a gap, under the lock.

  The join handler is the core library's: it fires once, on the last success or the first error.
-/
import Mathlib.Algebra.BigOperators.Group.List.Basic
import Mathlib.Algebra.GroupWithZero.Nat
import Mathlib.Algebra.Order.BigOperators.Group.List
import Mathlib.Algebra.Order.Group.Nat
import BitprimDatabase.DataBase.PopAbove

namespace Libbitcoin.Database

open Lib

/-! ## 1. The machine -/

/-- `ceiling_add`: a sum that stays at the largest `size_t`. -/
def ceilingAdd (a b : Nat) : Nat := min (a + b) maxSize

/-- `safe_add`: throws (`none`) where the sum is no `size_t`. -/
def safeAdd (a b : Nat) : Option Nat := if a + b > maxSize then none else some (a + b)

/-- The next `size_t`. -/
def succSize (a : Nat) : Nat := (a + 1) % (maxSize + 1)

/-- `config::checkpoint`. -/
structure Checkpoint where
  hash : HashDigest
  height : Nat

/-- The arguments of `reorganize`; `threads` is what the dispatcher's `size` answers: a dispatcher
    that runs its tasks has a thread. -/
structure Reorganization where
  forkPoint : Checkpoint
  incoming : List Block
  outgoing : List Block
  threads : Nat
  threads_pos : 0 < threads

/-- What the dispatcher has been given: `do_push` of the block at an index, or the loop of
    `push_transactions` of a bucket of that block from a position on. -/
inductive Task where
  | doPush (index height : Nat)
  | bucket (index height position buckets join : Nat)
  deriving DecidableEq

/-- The successes a join handler still waits for, and whether it has fired. -/
structure Join where
  remaining : Nat
  fired : Bool
  deriving DecidableEq

/-- A call of the caller's handler: the code, and whether this call of `reorganize` held the mutex. -/
structure HandlerCall where
  code : Code
  locked : Bool
  deriving DecidableEq

structure Reorganizing where
  db : DataBase
  locked : Bool
  outgoing : List Block
  pending : List Task
  joins : List Join
  calls : List HandlerCall

/-- `handle_push`: unlock, then the caller's handler. -/
def Reorganizing.handlePush (s : Reorganizing) (ec : Code) : Reorganizing :=
  let s := { s with locked := false }
  match ec with
  | .success =>
    let (db, ec) := s.db.finish
    { s with db := db, calls := s.calls ++ [⟨ec, s.locked⟩] }
  | ec => { s with calls := s.calls ++ [⟨ec, s.locked⟩] }

namespace Reorganization

variable [Core] (r : Reorganization)

/-- `push_next`: the end of the loop, or `do_push` of the next block. -/
def pushNext (s : Reorganizing) (ec : Code) (index height : Nat) : Reorganizing :=
  if ec ≠ .success ∨ index ≥ r.incoming.length then s.handlePush ec
  else { s with pending := s.pending ++ [.doPush index height] }

/-- `handle_push_transactions`, with `push_next` as its handler. -/
def handlePushTransactions (s : Reorganizing) (ec : Code) (block : Block) (index height : Nat) :
    Reorganizing :=
  match ec with
  | .success =>
    match s.db.pushHeights block height with
    | (db, false) => r.pushNext { s with db := db } .operationFailed (index + 1) (succSize height)
    | (db, true) =>
      r.pushNext { s with db := { db with blocks := db.blocks.store block height } } .success
        (index + 1) (succSize height)
  | ec => r.pushNext s ec (index + 1) (succSize height)

/-- `do_push`. -/
def doPush (s : Reorganizing) (block : Block) (index height : Nat) : Reorganizing :=
  match s.db.verifyPush block height with
  | .success =>
    let buckets := min r.threads block.transactions.length
    { s with
      joins := s.joins ++ [⟨buckets, false⟩]
      pending := s.pending ++
        (List.range buckets).map fun bucket => .bucket index height bucket buckets s.joins.length }
  | ec => r.handlePushTransactions s ec block index height

/-- The join handler: it fires on the last success or the first error. -/
def joinHandler (s : Reorganizing) (ec : Code) (block : Block) (index height join : Nat) :
    Reorganizing :=
  match s.joins[join]? with
  | none => s
  | some j =>
    if j.fired then s
    else if ec ≠ .success ∨ j.remaining = 1 then
      r.handlePushTransactions { s with joins := s.joins.set join ⟨j.remaining - 1, true⟩ } ec block
        index height
    else { s with joins := s.joins.set join ⟨j.remaining - 1, false⟩ }

/-- A pending task runs: `do_push`, or one pass of the loop of `push_transactions`, or its end with
    the call of the join handler. -/
def step (s : Reorganizing) (i : Nat) : Reorganizing :=
  match s.pending[i]? with
  | none => s
  | some (.doPush index height) =>
    match r.incoming[index]? with
    | none => s
    | some block => r.doPush { s with pending := s.pending.eraseIdx i } block index height
  | some (.bucket index height position buckets join) =>
    match r.incoming[index]? with
    | none => s
    | some block =>
      match block.transactions[position]? with
      | some tx =>
        { s with
          db := DataBase.pushTransaction height s.db (tx, position)
          pending := s.pending.set i (.bucket index height (ceilingAdd position buckets) buckets join) }
      | none =>
        r.joinHandler { s with pending := s.pending.eraseIdx i } .success block index height join

/-- `handle_pop`, with `push_all` behind it. -/
def handlePop (s : Reorganizing) (ec : Code) (firstHeight : Nat) : Reorganizing :=
  match ec with
  | .success => r.pushNext s .success 0 firstHeight
  | ec => s.handlePush ec

/-- `reorganize` up to its return. Where it throws nothing is pending and no handler was called:
    in front of the lock, or under it in `pop_above`. -/
def reorganize (db : DataBase) : Reorganizing :=
  match safeAdd r.forkPoint.height 1 with
  | none => ⟨db, false, r.outgoing, [], [], []⟩
  | some nextHeight =>
    match db.store.beginWrite with
    | (store, false) =>
      r.handlePop ⟨{ db with store := store }, true, r.outgoing, [], [], []⟩ .operationFailed
        nextHeight
    | (store, true) =>
      match DataBase.popAbove { db with store := store } r.forkPoint.hash with
      | (db, outgoing, none) => ⟨db, true, outgoing, [], [], []⟩
      | (db, outgoing, some ec) => r.handlePop ⟨db, true, outgoing, [], [], []⟩ ec nextHeight

/-- The state after a schedule: which pending task runs next, step by step. -/
def after (db : DataBase) (schedule : List Nat) : Reorganizing :=
  run r.step (r.reorganize db) schedule

end Reorganization

/-! ## 2. What a state can be -/

namespace Reorganizing

/-- The caller's handler was called once, behind the unlocking, and nothing is pending. -/
structure Completed (s : Reorganizing) (ec : Code) : Prop where
  pending : s.pending = []
  unlocked : s.locked = false
  calls : s.calls = [⟨ec, false⟩]

/-- The mutex is held, the caller's handler not called yet. -/
structure Busy (s : Reorganizing) (outgoing : List Block) : Prop where
  locked : s.locked = true
  calls : s.calls = []
  outgoing : s.outgoing = outgoing

/-- `handle_push` calls the handler, with the code or what `end_write` answers. -/
theorem handlePush_spec {s : Reorganizing} {outgoing : List Block} (h : s.Busy outgoing)
    (hp : s.pending = []) (ec : Code) : ∃ ec', (s.handlePush ec).Completed ec' ∧
      (ec' = .success → ec = .success) ∧ (s.handlePush ec).outgoing = outgoing ∧
      (s.handlePush ec).db.blocks = s.db.blocks := by
  obtain ⟨_, hcalls, hout⟩ := h
  unfold handlePush
  cases ec with
  | success =>
      refine ⟨s.db.finish.2, ⟨hp, rfl, ?_⟩, fun _ => rfl, hout, rfl⟩
      simp only [hcalls, List.nil_append]
  | _ => exact ⟨_, ⟨hp, rfl, by simp only [hcalls, List.nil_append]⟩, fun h => h, hout, rfl⟩

end Reorganizing

namespace Reorganization

variable [Core] (r : Reorganization)

/-- A bucket task of the block at the index. -/
def BucketOf (index height join : Nat) (task : Task) : Prop :=
  ∃ position buckets, task = .bucket index height position buckets join ∧ 0 < buckets

/-- **What a state can be**, behind a pop that succeeded; `Q` is what is known of the block table
    before the block at an index is pushed at a height. -/
inductive Phase (Q : Nat → Nat → BlockDatabase → Prop) (outgoing : List Block)
    (s : Reorganizing) : Prop where
  | pushing (index height : Nat) (block : Block) (hb : r.incoming[index]? = some block)
      (hbusy : s.Busy outgoing) (hpending : s.pending = [.doPush index height])
      (hQ : Q index height s.db.blocks)
  | tasks (index height join : Nat) (block : Block) (hb : r.incoming[index]? = some block)
      (hbusy : s.Busy outgoing) (hpending : ∀ task ∈ s.pending, BucketOf index height join task)
      (hne : 0 < s.pending.length) (hjoin : s.joins[join]? = some ⟨s.pending.length, false⟩)
      (hverified : s.db.verifyPush block height = .success) (hQ : Q index height s.db.blocks)
  | completed (ec : Code) (index height : Nat) (hcompleted : s.Completed ec)
      (hout : s.outgoing = outgoing) (hQ : Q index height s.db.blocks)
      (hall : ec = .success → r.incoming.length ≤ index)

/-- A block that passes the check and is stored leads from what is known before to what is known
    behind. -/
def Carried (Q : Nat → Nat → BlockDatabase → Prop) : Prop :=
  ∀ (index height : Nat) (block : Block) (db : DataBase), r.incoming[index]? = some block →
    Q index height db.blocks → db.verifyPush block height = .success →
      Q (index + 1) (succSize height) (db.blocks.store block height)

section Step

variable {r} {Q : Nat → Nat → BlockDatabase → Prop} {outgoing : List Block} {s : Reorganizing}

omit [Core] in
theorem verifyPush_congr {db db' : DataBase} (h : db'.blocks = db.blocks) (b : Block)
    (height : Nat) : db'.verifyPush b height = db.verifyPush b height := by
  unfold DataBase.verifyPush
  rw [h]

omit [Core] in
theorem pushHeights_blocks (db : DataBase) (b : Block) (height : Nat) :
    (db.pushHeights b height).1.blocks = db.blocks := rfl

omit [Core] in
/-- `push_next` behind a success. -/
theorem pushNext_phase (hbusy : s.Busy outgoing) (hp : s.pending = []) {index height : Nat}
    (hQ : Q index height s.db.blocks) : r.Phase Q outgoing (r.pushNext s .success index height) := by
  unfold pushNext
  by_cases hi : index < r.incoming.length
  · rw [if_neg (by simp [hi])]
    refine .pushing index height r.incoming[index] (List.getElem?_eq_getElem hi) ?_ ?_ hQ
    · exact ⟨hbusy.1, hbusy.2, hbusy.3⟩
    · rw [hp]
      rfl
  · rw [if_pos (.inr (Nat.le_of_not_lt hi))]
    obtain ⟨ec, hc, _, hout, hblocks⟩ := Reorganizing.handlePush_spec hbusy hp .success
    exact .completed ec index height hc hout (hblocks ▸ hQ) fun _ => Nat.le_of_not_lt hi

omit [Core] in
/-- `push_next` behind an error ends the loop: the block it was reported for is not pushed. -/
theorem pushNext_error (hbusy : s.Busy outgoing) (hp : s.pending = []) {index height : Nat}
    (hQ : Q index height s.db.blocks) (ec : Code) (hec : ec ≠ .success) (index' height' : Nat) :
    r.Phase Q outgoing (r.pushNext s ec index' height') := by
  obtain ⟨ec', hc, hs, hout, hblocks⟩ := Reorganizing.handlePush_spec hbusy hp ec
  unfold pushNext
  rw [if_pos (.inl hec)]
  exact .completed ec' index height hc hout (hblocks ▸ hQ) fun h => absurd (hs h) hec

omit [Core] in
/-- A refused block is not pushed. -/
theorem handlePushTransactions_error (s : Reorganizing) {ec : Code} (hec : ec ≠ .success)
    (block : Block) (index height : Nat) : r.handlePushTransactions s ec block index height =
      r.pushNext s ec (index + 1) (succSize height) := by
  cases ec with
  | success => exact absurd rfl hec
  | _ => rfl

omit [Core] in
theorem doPush_refused {block : Block} {index height : Nat}
    (h : s.db.verifyPush block height ≠ .success) : r.doPush s block index height =
      r.pushNext s (s.db.verifyPush block height) (index + 1) (succSize height) := by
  rw [← r.handlePushTransactions_error s h block]
  unfold doPush
  cases hv : s.db.verifyPush block height with
  | success => exact absurd hv h
  | _ => rfl

omit [Core] in
/-- `handle_push_transactions` behind the last bucket task. -/
theorem handlePushTransactions_phase (hcarried : r.Carried Q) (hbusy : s.Busy outgoing)
    (hp : s.pending = []) {index height : Nat} {block : Block}
    (hb : r.incoming[index]? = some block) (hQ : Q index height s.db.blocks)
    (hv : s.db.verifyPush block height = .success) :
    r.Phase Q outgoing (r.handlePushTransactions s .success block index height) := by
  have hblocks := pushHeights_blocks s.db block height
  unfold handlePushTransactions
  rcases hph : s.db.pushHeights block height with ⟨db, result⟩
  rw [hph] at hblocks
  have hQ' : Q index height db.blocks := hblocks.symm ▸ hQ
  cases result with
  | false =>
      exact pushNext_error (s := { s with db := db }) ⟨hbusy.1, hbusy.2, hbusy.3⟩ hp hQ'
        .operationFailed nofun _ _
  | true =>
      refine pushNext_phase (s := { s with db := { db with blocks := db.blocks.store block height } })
        ⟨hbusy.1, hbusy.2, hbusy.3⟩ hp ?_
      refine hcarried index height block db hb hQ' ?_
      rw [verifyPush_congr hblocks]
      exact hv

omit [Core] in
/-- `do_push`. -/
theorem doPush_phase (hbusy : s.Busy outgoing)
    (hp : s.pending = []) {index height : Nat} {block : Block}
    (hb : r.incoming[index]? = some block) (hQ : Q index height s.db.blocks) :
    r.Phase Q outgoing (r.doPush s block index height) := by
  by_cases hv : s.db.verifyPush block height = .success
  · have hpos : 0 < min r.threads block.transactions.length := by
      have hne := (DataBase.verifyPush_success hv).1
      exact Nat.lt_min.mpr ⟨r.threads_pos, List.length_pos_iff.mpr hne⟩
    unfold doPush
    simp only [hv, hp, List.nil_append]
    refine .tasks index height s.joins.length block hb ⟨hbusy.1, hbusy.2, hbusy.3⟩ ?_ ?_ ?_ hv hQ
    · intro task hm
      obtain ⟨bucket, _, rfl⟩ := List.mem_map.mp hm
      exact ⟨bucket, _, rfl, hpos⟩
    · simpa using hpos
    · simp
  · rw [doPush_refused hv]
    exact pushNext_error hbusy hp hQ _ hv _ _

/-- **One step.** -/
theorem Phase.step (hcarried : r.Carried Q) (h : r.Phase Q outgoing s)
    (i : Nat) : r.Phase Q outgoing (r.step s i) := by
  cases h with
  | completed ec index height hc hout hQ hall =>
      have hnone : s.pending[i]? = none := by rw [hc.pending]; rfl
      unfold Reorganization.step
      rw [hnone]
      exact .completed ec index height hc hout hQ hall
  | pushing index height block hb hbusy hp hQ =>
      unfold Reorganization.step
      cases i with
      | zero =>
          simp only [hp, List.getElem?_cons_zero, hb]
          exact doPush_phase (s := { s with pending := [] })
            ⟨hbusy.1, hbusy.2, hbusy.3⟩ rfl hb hQ
      | succ i =>
          simp only [hp, List.getElem?_cons_succ, List.getElem?_nil]
          exact .pushing index height block hb hbusy hp hQ
  | tasks index height join block hb hbusy hp hne hjoin hv hQ =>
      unfold Reorganization.step
      cases ht : s.pending[i]? with
      | none => exact .tasks index height join block hb hbusy hp hne hjoin hv hQ
      | some task =>
          obtain ⟨hi, _⟩ := List.getElem?_eq_some_iff.mp ht
          obtain ⟨position, buckets, rfl, hpos⟩ := hp task (List.mem_of_getElem? ht)
          have hlen : (s.pending.eraseIdx i).length = s.pending.length - 1 :=
            List.length_eraseIdx_of_lt hi
          simp only [hb]
          cases htx : block.transactions[position]? with
          | some tx =>
              -- a pass of the loop
              have hblocks : (DataBase.pushTransaction height s.db (tx, position)).blocks =
                  s.db.blocks := (DataBase.pushTransaction_spec height s.db (tx, position)).2.2.2.1
              refine .tasks index height join block hb ⟨hbusy.1, hbusy.2, hbusy.3⟩ ?_ ?_ ?_ ?_ ?_
              · intro task hm
                rcases List.mem_or_eq_of_mem_set hm with hm | rfl
                · exact hp task hm
                · exact ⟨_, buckets, rfl, hpos⟩
              · simpa using hne
              · simpa using hjoin
              · exact (verifyPush_congr hblocks block height).trans hv
              · exact hblocks.symm ▸ hQ
          | none =>
              -- the task ends and reports to the join
              simp only [joinHandler, hjoin]
              by_cases hlast : s.pending.length = 1
              · have hnil : s.pending.eraseIdx i = [] :=
                  List.eq_nil_of_length_eq_zero (by omega)
                rw [if_neg (by simp), if_pos (.inr hlast)]
                exact handlePushTransactions_phase (s := { s with
                  pending := s.pending.eraseIdx i
                  joins := s.joins.set join ⟨s.pending.length - 1, true⟩ }) hcarried
                  ⟨hbusy.1, hbusy.2, hbusy.3⟩ hnil hb hQ hv
              · rw [if_neg (by simp), if_neg (by simp [hlast])]
                refine .tasks index height join block hb ⟨hbusy.1, hbusy.2, hbusy.3⟩ ?_ ?_ ?_ hv hQ
                · exact fun task hm => hp task (List.mem_of_mem_eraseIdx hm)
                · show 0 < (s.pending.eraseIdx i).length
                  omega
                · obtain ⟨hj, _⟩ := List.getElem?_eq_some_iff.mp hjoin
                  show (s.joins.set join _)[join]? = some ⟨(s.pending.eraseIdx i).length, false⟩
                  rw [List.getElem?_set_self hj, hlen]

end Step

/-! ## 3. The tasks end -/

/-- The steps that the blocks from an index on can take. -/
def blocksWork (index : Nat) : Nat :=
  ((r.incoming.drop index).map fun b =>
    1 + min r.threads b.transactions.length * (b.transactions.length + 1)).sum

/-- The steps of a task: a `do_push` with all that comes behind it, the rest of a bucket's loop. -/
def taskWork : Task → Nat
  | .doPush index _ => r.blocksWork index
  | .bucket index _ position _ _ =>
    ((r.incoming[index]?.map fun b => b.transactions.length).getD 0 - position) + 1

/-- The steps left: those of the pending tasks, and of the blocks behind a join. -/
def work (s : Reorganizing) : Nat :=
  (s.pending.map r.taskWork).sum +
    match s.pending.head? with
    | some (.bucket index _ _ _ _) => r.blocksWork (index + 1)
    | _ => 0

section Work

variable {r} {Q : Nat → Nat → BlockDatabase → Prop} {outgoing : List Block} {s : Reorganizing}

omit [Core] in
theorem blocksWork_eq {index : Nat} {block : Block} (hb : r.incoming[index]? = some block) :
    r.blocksWork index = 1 + min r.threads block.transactions.length *
      (block.transactions.length + 1) + r.blocksWork (index + 1) := by
  obtain ⟨hi, rfl⟩ := List.getElem?_eq_some_iff.mp hb
  unfold blocksWork
  rw [List.drop_eq_getElem_cons hi, List.map_cons, List.sum_cons]

omit [Core] in
/-- With the tasks of one block pending, the blocks behind it are left as well. -/
theorem work_tasks {index height join : Nat} (hall : ∀ task ∈ s.pending, BucketOf index height join task)
    (hne : 0 < s.pending.length) :
    r.work s = (s.pending.map r.taskWork).sum + r.blocksWork (index + 1) := by
  unfold work
  cases hp : s.pending with
  | nil =>
      rw [hp] at hne
      exact absurd hne (Nat.lt_irrefl 0)
  | cons task rest =>
      obtain ⟨position, buckets, rfl, _⟩ := hall task (hp ▸ List.mem_cons_self)
      rfl

omit [Core] in
theorem work_nil (hp : s.pending = []) : r.work s = 0 := by
  unfold work
  rw [hp]
  rfl

omit [Core] in
theorem handlePush_pending (s : Reorganizing) (ec : Code) :
    (s.handlePush ec).pending = s.pending := by
  cases ec <;> rfl

omit [Core] in
/-- Behind a block the blocks from the next one on are left at most. -/
theorem work_pushNext (hp : s.pending = []) (ec : Code) (index height : Nat) :
    r.work (r.pushNext s ec index height) ≤ r.blocksWork index := by
  unfold pushNext
  split
  · rw [work_nil ((handlePush_pending s ec).trans hp)]
    exact Nat.zero_le _
  · unfold work
    simp only [hp, List.nil_append]
    exact Nat.le_of_eq (by simp [taskWork])

omit [Core] in
theorem work_handlePushTransactions (hp : s.pending = []) (ec : Code) (block : Block)
    (index height : Nat) : r.work (r.handlePushTransactions s ec block index height) ≤
      r.blocksWork (index + 1) := by
  unfold handlePushTransactions
  cases ec with
  | success =>
      rcases s.db.pushHeights block height with ⟨db, result⟩
      cases result
      · exact work_pushNext (s := { s with db := db }) hp _ _ _
      · exact work_pushNext
          (s := { s with db := { db with blocks := db.blocks.store block height } }) hp _ _ _
  | _ => exact work_pushNext hp _ _ _

omit [Core] in
/-- A `do_push` has less left behind it. -/
theorem work_doPush (hp : s.pending = []) {index height : Nat}
    {block : Block} (hb : r.incoming[index]? = some block) :
    r.work (r.doPush s block index height) < r.blocksWork index := by
  rw [blocksWork_eq hb]
  by_cases hv : s.db.verifyPush block height = .success
  · have hpos : 0 < min r.threads block.transactions.length := by
      have hne := (DataBase.verifyPush_success hv).1
      exact Nat.lt_min.mpr ⟨r.threads_pos, List.length_pos_iff.mpr hne⟩
    unfold doPush
    simp only [hv, hp, List.nil_append]
    have hall : ∀ task ∈ (List.range (min r.threads block.transactions.length)).map fun bucket =>
        Task.bucket index height bucket (min r.threads block.transactions.length) s.joins.length,
        BucketOf index height s.joins.length task := by
      intro task hm
      obtain ⟨bucket, _, rfl⟩ := List.mem_map.mp hm
      exact ⟨bucket, _, rfl, hpos⟩
    rw [work_tasks hall (by simpa using hpos)]
    have hsum := List.sum_le_card_nsmul (((List.range (min r.threads block.transactions.length)).map
      fun bucket => Task.bucket index height bucket (min r.threads block.transactions.length)
        s.joins.length).map r.taskWork) (block.transactions.length + 1) (by
          intro n hn
          obtain ⟨task, htask, rfl⟩ := List.mem_map.mp hn
          obtain ⟨bucket, _, rfl⟩ := List.mem_map.mp htask
          simp [taskWork, hb])
    rw [List.length_map, List.length_map, List.length_range, Nat.nsmul_eq_mul] at hsum
    dsimp only
    omega
  · rw [doPush_refused hv]
    have := work_pushNext (r := r) hp (s.db.verifyPush block height) (index + 1) (succSize height)
    omega

/-- **A step of a pending task leaves less to do.** -/
theorem Phase.work_lt (hsizes : ∀ b ∈ r.incoming, b.transactions.length ≤ maxSize)
    (h : r.Phase Q outgoing s) {i : Nat} (hi : i < s.pending.length) : r.work (r.step s i) < r.work s := by
  cases h with
  | completed ec index height hc hout hQ hall =>
      rw [hc.pending] at hi
      cases hi
  | pushing index height block hb hbusy hp hQ =>
      have hwork : r.work s = r.blocksWork index := by
        unfold work
        rw [hp]
        simp [taskWork]
      have hi0 : i = 0 := by
        rw [hp] at hi
        exact Nat.lt_one_iff.mp hi
      subst hi0
      unfold Reorganization.step
      simp only [hp, List.getElem?_cons_zero, hb]
      rw [hwork]
      exact work_doPush rfl hb
  | tasks index height join block hb hbusy hp hne hjoin hv hQ =>
      obtain ⟨position, buckets, htask, hpos⟩ := hp _ (List.getElem_mem hi)
      have hget : s.pending[i]? = some (.bucket index height position buckets join) := by
        rw [List.getElem?_eq_getElem hi, htask]
      have hcount : (r.incoming[index]?.map fun b => b.transactions.length).getD 0 =
          block.transactions.length := by rw [hb]; rfl
      -- the task's own steps and those of the others
      have hsum : (block.transactions.length - position) + 1 +
          ((s.pending.eraseIdx i).map r.taskWork).sum = (s.pending.map r.taskWork).sum := by
        have h := List.CommMonoid.add_sum_eraseIdx (l := s.pending.map r.taskWork) (i := i)
          (by simpa using hi)
        rw [List.getElem_map, htask, taskWork, hcount, List.eraseIdx_map] at h
        exact h
      rw [work_tasks hp hne]
      unfold Reorganization.step
      simp only [hget, hb]
      cases htx : block.transactions[position]? with
      | some tx =>
          obtain ⟨hlt, _⟩ := List.getElem?_eq_some_iff.mp htx
          have hall : ∀ task ∈ s.pending.set i
              (.bucket index height (ceilingAdd position buckets) buckets join),
              BucketOf index height join task := by
            intro task hm
            rcases List.mem_or_eq_of_mem_set hm with hm | rfl
            · exact hp task hm
            · exact ⟨_, buckets, rfl, hpos⟩
          rw [work_tasks hall (by simpa using hne)]
          dsimp only
          have h := List.CommMonoid.add_sum_eraseIdx (l := (s.pending.set i
            (.bucket index height (ceilingAdd position buckets) buckets join)).map r.taskWork) (i := i)
            (by simpa using hi)
          rw [List.getElem_map, List.getElem_set_self, taskWork, hcount, List.eraseIdx_map,
            List.eraseIdx_set_eq] at h
          have hnext : position < ceilingAdd position buckets := by
            have := hsizes block (List.mem_of_getElem? hb)
            unfold ceilingAdd
            omega
          omega
      | none =>
          simp only [joinHandler, hjoin]
          by_cases hlast : s.pending.length = 1
          · have hnil : s.pending.eraseIdx i = [] :=
              List.eq_nil_of_length_eq_zero (by rw [List.length_eraseIdx_of_lt hi]; omega)
            rw [if_neg (by simp), if_pos (.inr hlast)]
            have h := work_handlePushTransactions (r := r) (s := { s with
              pending := s.pending.eraseIdx i
              joins := s.joins.set join ⟨s.pending.length - 1, true⟩ }) hnil .success block index height
            omega
          · rw [if_neg (by simp), if_neg (by simp [hlast])]
            have hall : ∀ task ∈ s.pending.eraseIdx i, BucketOf index height join task :=
              fun task hm => hp task (List.mem_of_mem_eraseIdx hm)
            have hleft : 0 < (s.pending.eraseIdx i).length := by
              rw [List.length_eraseIdx_of_lt hi]
              omega
            rw [work_tasks hall hleft]
            dsimp only
            omega

end Work

/-! ## 4. Completion -/

end Reorganization

namespace Reorganizing

/-- **What a state may look like**: the caller's handler called at most once and not under the
    lock; once nothing is pending, called exactly once, and the mutex released. -/
def Completes (s : Reorganizing) : Prop :=
  s.calls.length ≤ 1 ∧ (∀ call ∈ s.calls, call.locked = false) ∧
    (s.pending = [] → s.calls.length = 1 ∧ s.locked = false)

theorem Completed.completes {s : Reorganizing} {ec : Code} (h : s.Completed ec) : Completes s := by
  refine ⟨?_, fun call hm => ?_, fun _ => ⟨?_, h.unlocked⟩⟩
  · rw [h.calls]
    exact Nat.le_refl 1
  · rw [h.calls, List.mem_singleton] at hm
    rw [hm]
  · rw [h.calls]
    rfl

end Reorganizing

namespace Reorganization

variable [Core] (r : Reorganization)

section Start

variable {r} {Q : Nat → Nat → BlockDatabase → Prop}

/-- The state behind `begin_write`. -/
def begun (db : DataBase) : DataBase := { db with store := db.store.beginWrite.1 }

/-- **What `reorganize` returns with**, where it does not throw in front of the lock: the handler
    called with the error of `begin_write` or of `pop_above`; the blocks above the fork point popped
    and the loop of the incoming blocks entered; or the throw of `reserve`. -/
theorem reorganize_cases (db : DataBase) (hheight : r.forkPoint.height < maxSize)
    (hQ : (DataBase.popAbove (begun db) r.forkPoint.hash).2.2 = some .success →
      Q 0 (r.forkPoint.height + 1) (DataBase.popAbove (begun db) r.forkPoint.hash).1.blocks) :
    (db.store.beginWrite.2 = false ∧ (r.reorganize db).Completed .operationFailed ∧
        (r.reorganize db).outgoing = r.outgoing ∧ (r.reorganize db).db.blocks = db.blocks) ∨
      (db.store.beginWrite.2 = true ∧
        match (DataBase.popAbove (begun db) r.forkPoint.hash).2.2 with
        | none => (r.reorganize db).pending = [] ∧ (r.reorganize db).calls = [] ∧
          (r.reorganize db).db.blocks = (DataBase.popAbove (begun db) r.forkPoint.hash).1.blocks
        | some .success =>
          r.Phase Q (DataBase.popAbove (begun db) r.forkPoint.hash).2.1 (r.reorganize db)
        | some ec => (r.reorganize db).Completed ec ∧
          (r.reorganize db).outgoing = (DataBase.popAbove (begun db) r.forkPoint.hash).2.1 ∧
          (r.reorganize db).db.blocks = (DataBase.popAbove (begun db) r.forkPoint.hash).1.blocks) := by
  have hnext : safeAdd r.forkPoint.height 1 = some (r.forkPoint.height + 1) :=
    if_neg (by omega)
  unfold begun at hQ ⊢
  unfold reorganize
  rw [hnext]
  rcases hb : db.store.beginWrite with ⟨store, result⟩
  rw [hb] at hQ
  cases result with
  | false => exact .inl ⟨rfl, ⟨rfl, rfl, rfl⟩, rfl, rfl⟩
  | true =>
      refine .inr ⟨rfl, ?_⟩
      dsimp only at hQ ⊢
      rcases hpop : DataBase.popAbove { db with store := store } r.forkPoint.hash with
        ⟨db', outgoing, code⟩
      rw [hpop] at hQ
      cases code with
      | none => exact ⟨rfl, rfl, rfl⟩
      | some ec =>
          cases ec with
          | success =>
              exact pushNext_phase (s := ⟨db', true, outgoing, [], [], []⟩) ⟨rfl, rfl, rfl⟩ rfl
                (hQ rfl)
          | _ => exact ⟨⟨rfl, rfl, rfl⟩, rfl, rfl⟩

/-- The state behind a schedule is in a phase, where the first one is. -/
theorem Phase.after {outgoing : List Block} (hcarried : r.Carried Q)
    {db : DataBase} (h : r.Phase Q outgoing (r.reorganize db)) (schedule : List Nat) :
    r.Phase Q outgoing (r.after db schedule) :=
  run_of_step (fun _ i h => h.step hcarried i) schedule h

/-- Without a pending task nothing runs. -/
theorem after_of_idle {db : DataBase} (h : (r.reorganize db).pending = []) (schedule : List Nat) :
    r.after db schedule = r.reorganize db := by
  have hstep (s : Reorganizing) (i : Nat) (hs : s.pending = [] ∧ s = r.reorganize db) :
      (r.step s i).pending = [] ∧ r.step s i = r.reorganize db := by
    have he : r.step s i = s := by
      unfold Reorganization.step
      rw [hs.1]
      rfl
    rw [he]
    exact hs
  exact (run_of_step (P := fun s => s.pending = [] ∧ s = r.reorganize db) hstep schedule
    ⟨h, rfl⟩).2

end Start

end Reorganization

namespace DataBase

variable [Core]

theorem Poppable.begun {db : DataBase} {h : Nat} :
    (Reorganization.begun db).Poppable h ↔ db.Poppable h :=
  ⟨fun hp => ⟨hp.reserves, hp.found, hp.spendable, hp.earlier⟩,
    fun hp => ⟨hp.reserves, hp.found, hp.spendable, hp.earlier⟩⟩

theorem GapThrows.begun {db : DataBase} {h : Nat} :
    (Reorganization.begun db).GapThrows h ↔ db.GapThrows h :=
  exists_congr fun _ => and_congr_right' (and_congr_right' (and_congr_right' Poppable.begun))

end DataBase

namespace Reorganization

variable [Core] (r : Reorganization)

/-- The block of the fork hash, if there is one, is at or below the top. -/
def ForkInReach (db : DataBase) : Prop :=
  ∀ result top, db.blocks.getByHash r.forkPoint.hash = some result → db.blocks.top = some top →
    result.height ≤ top

section Complete

variable {r}

omit [Core] in
theorem Phase.completes {Q : Nat → Nat → BlockDatabase → Prop} {outgoing : List Block}
    {s : Reorganizing} (h : r.Phase Q outgoing s) : s.Completes := by
  have hbusy (hb : s.Busy outgoing) (hne : s.pending ≠ []) : s.Completes := by
    refine ⟨?_, fun call hm => ?_, fun hp => absurd hp hne⟩
    · rw [hb.calls]
      exact Nat.zero_le 1
    · rw [hb.calls] at hm
      cases hm
  cases h with
  | pushing index height block hb hbs hp hQ => exact hbusy hbs (by rw [hp]; exact List.cons_ne_nil _ _)
  | tasks index height join block hb hbs hp hne hjoin hv hQ =>
      exact hbusy hbs (List.ne_nil_of_length_pos hne)
  | completed ec index height hc hout hQ hall => exact hc.completes

/-- In reach of the top only a gap makes `reserve` throw. -/
theorem popAbove_none_iff (db : DataBase) (h : r.ForkInReach db) :
    (DataBase.popAbove (begun db) r.forkPoint.hash).2.2 = none ↔
      ∃ fork, db.forkOf r.forkPoint.hash = some fork ∧ db.GapThrows fork := by
  cases hf : db.forkOf r.forkPoint.hash with
  | none =>
      rw [DataBase.popAbove_eq, show (begun db).forkOf r.forkPoint.hash = none from hf]
      refine iff_of_false nofun ?_
      rintro ⟨_, he, _⟩
      cases he
  | some fork =>
      have hin : ¬ (begun db).blocks.count ≤ fork := by
        -- the fork point looked up is the block found
        unfold DataBase.forkOf at hf
        by_cases h0 : db.blocks.count = 0
        · rw [if_pos h0] at hf
          cases hf
        · rw [if_neg h0] at hf
          obtain ⟨slab, hs, rfl⟩ := Option.map_eq_some_iff.mp hf
          have hle : slab.height ≤ db.blocks.count - 1 := by
            refine h ⟨r.forkPoint.hash, slab⟩ _ ?_ (BlockDatabase.top_eq_some.mpr (by omega))
            rw [BlockDatabase.getByHash_eq, hs]
            rfl
          show ¬ db.blocks.count ≤ slab.height
          omega
      rw [DataBase.popAbove_throws_iff (show (begun db).forkOf r.forkPoint.hash = some fork from hf),
        or_iff_right hin, DataBase.GapThrows.begun]
      constructor
      · exact fun hgap => ⟨fork, rfl, hgap⟩
      · rintro ⟨_, he, hgap⟩
        cases he
        exact hgap

/-- No pop of the call throws: behind a `begin_write` that succeeds, the pops down to the fork point
    reach no gap whose count cannot be reserved. -/
def PopsReturn (db : DataBase) : Prop :=
  db.store.beginWrite.2 = true → ∀ fork, db.forkOf r.forkPoint.hash = some fork →
    ¬ db.GapThrows fork

/-- **`reorganize` completes exactly once and never under the lock**, for every incoming list,
    every failing step and every order of the tasks, exactly where the height above the fork point
    is a `size_t` and no pop throws; and every run of pending tasks ends. -/
theorem completes_iff (db : DataBase)
    (hsizes : ∀ b ∈ r.incoming, b.transactions.length ≤ maxSize) (hfork : r.ForkInReach db) :
    ((∀ schedule, (r.after db schedule).Completes) ↔
        r.forkPoint.height < maxSize ∧ r.PopsReturn db) ∧
      ∀ schedule, EveryStep r.step (fun s i => i < s.pending.length) (r.reorganize db) schedule →
        schedule.length ≤ r.work (r.reorganize db) := by
  have hidle (hp : (r.reorganize db).pending = []) (schedule : List Nat)
      (hG : EveryStep r.step (fun s i => i < s.pending.length) (r.reorganize db) schedule) :
      schedule.length ≤ r.work (r.reorganize db) := by
    cases schedule with
    | nil => exact Nat.zero_le _
    | cons i rest =>
        have hi : i < (r.reorganize db).pending.length := hG.1
        rw [hp] at hi
        cases hi
  -- a call that is over without its handler
  have hdropped (hp : (r.reorganize db).pending = []) (hcalls : (r.reorganize db).calls = []) :
      ¬ ∀ schedule, (r.after db schedule).Completes := by
    intro h
    have hlen := ((h []).2.2 hp).1
    rw [after, run, List.foldl_nil, hcalls] at hlen
    cases hlen
  by_cases hheight : r.forkPoint.height < maxSize
  · rw [and_iff_right hheight]
    -- what is known of the block table does not matter here
    have hcases := r.reorganize_cases (Q := fun _ _ _ => True) db hheight fun _ => trivial
    have hnone := popAbove_none_iff db hfork
    rcases hcases with ⟨hrefused, hc, _, _⟩ | ⟨hbegin, h⟩
    · refine ⟨iff_of_true (fun schedule => ?_) fun hbegin => ?_, hidle hc.pending⟩
      · rw [after_of_idle hc.pending]
        exact hc.completes
      · rw [hrefused] at hbegin
        cases hbegin
    · have hreturns : r.PopsReturn db ↔
          (DataBase.popAbove (begun db) r.forkPoint.hash).2.2 ≠ none := by
        unfold PopsReturn
        rw [imp_iff_right hbegin, ne_eq, hnone]
        push Not
        rfl
      rw [hreturns]
      cases hcode : (DataBase.popAbove (begun db) r.forkPoint.hash).2.2 with
      | none =>
          rw [hcode] at h
          exact ⟨iff_of_false (hdropped h.1 h.2.1) (fun hn => hn rfl), hidle h.1⟩
      | some ec =>
          rw [hcode] at h
          rw [iff_true_right (Option.some_ne_none ec)]
          have herror {ec : Code} (hc : (r.reorganize db).Completed ec) :
              (∀ schedule, (r.after db schedule).Completes) ∧ ∀ schedule,
                EveryStep r.step (fun s i => i < s.pending.length) (r.reorganize db) schedule →
                  schedule.length ≤ r.work (r.reorganize db) := by
            refine ⟨fun schedule => ?_, hidle hc.pending⟩
            rw [after_of_idle hc.pending]
            exact hc.completes
          cases ec with
          | success =>
              have hcarried : r.Carried fun _ _ _ => True := fun _ _ _ _ _ _ _ => trivial
              refine ⟨fun schedule => (h.after hcarried schedule).completes,
                fun schedule hG => length_le_of_decreasing (fun s i hphase hi => ?_) h hG⟩
              exact ⟨hphase.step hcarried i, hphase.work_lt hsizes hi⟩
          | _ => exact herror h.1
  · have hnone : safeAdd r.forkPoint.height 1 = none := if_pos (by omega)
    have hstart : r.reorganize db = ⟨db, false, r.outgoing, [], [], []⟩ := by
      unfold reorganize
      rw [hnone]
    have hp : (r.reorganize db).pending = [] := by rw [hstart]
    exact ⟨iff_of_false (hdropped hp (by rw [hstart])) fun h => hheight h.1, hidle hp⟩

omit [Core] in
/-- The block of two transactions on the first block, in two buckets, the second one first. -/
theorem twoBuckets_complete :
    (∀ schedule, (@after Core.sample ⟨⟨1, 0⟩, [DataBase.spendingBlock], [], 2, by decide⟩ DataBase.sample
        schedule).Completes) ∧
      (@after Core.sample ⟨⟨1, 0⟩, [DataBase.spendingBlock], [], 2, by decide⟩ DataBase.sample
        [0, 1, 0, 1, 0]).calls = [⟨.success, false⟩] := by
  refine ⟨(@completes_iff Core.sample ⟨⟨1, 0⟩, [DataBase.spendingBlock], [], 2, by decide⟩ DataBase.sample
    (by decide) ?_).1.mpr ⟨by decide, fun _ => ?_⟩, by decide +kernel⟩
  · have hb : (DataBase.sample.blocks.getByHash 1).map BlockResult.height = some 0 := by
      decide +kernel
    intro result top hr _
    rw [show (⟨⟨1, 0⟩, [DataBase.spendingBlock], [], 2, by decide⟩ : Reorganization).forkPoint.hash = 1
      from rfl] at hr
    rw [hr] at hb
    rw [Option.some.inj hb]
    exact Nat.zero_le _
  · -- one block and no gap above it
    have hcount : DataBase.sample.blocks.count = 1 := by decide +kernel
    intro fork _ ⟨height, hlt, hb, _⟩
    omega

omit [Core] in
/-- **The last height overflows**: `safe_add` throws, the handler is never called. -/
theorem lastHeight_dropped :
    @ForkInReach ⟨⟨1, maxSize⟩, [], [], 1, by decide⟩ DataBase.sample ∧
      ¬ ∀ schedule, (@after Core.sample ⟨⟨1, maxSize⟩, [], [], 1, by decide⟩ DataBase.sample
        schedule).Completes := by
  refine ⟨?_, fun h => ?_⟩
  · have hb : (DataBase.sample.blocks.getByHash 1).map BlockResult.height = some 0 := by
      decide +kernel
    intro result top hr _
    rw [show (⟨⟨1, maxSize⟩, [], [], 1, by decide⟩ : Reorganization).forkPoint.hash = 1 from rfl] at hr
    rw [hr] at hb
    rw [Option.some.inj hb]
    exact Nat.zero_le _
  · exact absurd ((h []).2.2 rfl).1 (by decide)

end Complete

end Reorganization

end Libbitcoin.Database
