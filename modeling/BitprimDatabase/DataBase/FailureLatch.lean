/-
  File:      BitprimDatabase/DataBase/FailureLatch.lean
  Subject:   **WHAT A FAILED WRITE LEAVES BEHIND** (data_base.cpp, store.cpp). A failure behind
             `begin_write` returns without `end_write`: the counter stays odd and the flush lock is
             not removed. Every later `begin_write` and `end_write` still moves the counter.

  * `WriteFails` -- a body fails, or `end_write` does;
  * `Latched` -- what the failure is to prevent for the rest of the session;
  * **`latched_iff_untouched`**: it does exactly where the failure leaves the counter odd and the
    flush lock held, and no writer begins or ends a write afterwards;
  * **`latched_iff_of_serial`**: the first failure of serial writers latches exactly where it is a
    body's and no writer begins or ends a write afterwards.
-/
import BitprimDatabase.DataBase.Writers

namespace Libbitcoin.Database

open Lib

/-- What a writer has returned, or is to return once the mutex is released. -/
def WriteStage.result : WriteStage → Option Bool
  | .unlock result | .returned result => some result
  | .lock | .verify | .beginWrite | .body _ | .release | .endWrite => none

namespace Session

variable {n : Nat} {jobs : Fin n → Job} {s : Session n}

/-! ## 1. The latch -/

/-- **A write fails behind its `begin_write`**: in its body or in `end_write`. -/
def WriteFails (jobs : Fin n → Job) (s : Session n) : Fin n × Bool → Prop
  | (i, ok) => BodyFails jobs s (i, ok) ∨ s.stage i = .endWrite ∧ (s.store.endWrite ok).2 = false

/-- **The rest of a session behind a failure**: no writer gets to success, no handle of a read is
    not write locked and valid, and where writes are flushed no open succeeds, after a close or
    without. -/
structure Latched (jobs : Fin n → Job) (s : Session n) (later : List (Fin n × Bool)) : Prop where
  noSuccess : ∀ i, ((run (step jobs) s later).stage i).result = some true →
    (s.stage i).result = some true
  noRead : ∀ xs ys zs, later = xs ++ ys ++ zs →
    ¬ (Store.isWriteLocked (run (step jobs) s xs).store.beginRead = false ∧
      (run (step jobs) s (xs ++ ys)).store.isReadValid
        (run (step jobs) s xs).store.beginRead = true)
  noOpen : s.store.flushEachWrite = true → ∀ xs ys, later = xs ++ ys →
    (run (step jobs) s xs).store.flushLocked = true ∧
      (run (step jobs) s xs).store.open.2 = false ∧
      (run (step jobs) s xs).store.close.1.open.2 = false

/-- A step that neither begins nor ends a write. -/
def Untouched (s : Session n) (o : Fin n × Bool) : Prop :=
  s.stage o.1 ≠ .beginWrite ∧ s.stage o.1 ≠ .endWrite

/-- **The failure leaves the locks as they are to stay**: a body fails while the counter is odd, or
    `end_write` while it is even, and the flush lock is there. -/
def LocksStay (s : Session n) (o : Fin n × Bool) : Prop :=
  (Store.isWriteLocked s.store.sequence = true ↔ s.stage o.1 ≠ .endWrite) ∧
    (s.store.flushEachWrite = true → s.store.flushLocked = true)

instance (s : Session n) (o : Fin n × Bool) : Decidable (Untouched s o) :=
  inferInstanceAs (Decidable (_ ∧ _))

instance (s : Session n) (o : Fin n × Bool) : Decidable (LocksStay s o) :=
  inferInstanceAs (Decidable (_ ∧ _))

/-! ## 2. Steps and the store -/

theorem step_store_of_untouched {o : Fin n × Bool} (h : Untouched s o) :
    (step jobs s o).store = s.store := by
  obtain ⟨i, ok⟩ := o
  unfold step
  dsimp only
  cases hst : s.stage i with
  | lock => dsimp only; split <;> rfl
  | beginWrite => exact absurd hst h.1
  | body left => cases left <;> rfl
  | endWrite => exact absurd hst h.2
  | _ => rfl

/-- A step of a writer that begins or ends a write turns the parity of the counter. -/
theorem step_parity {o : Fin n × Bool} (h : ¬ Untouched s o) :
    Store.isWriteLocked (step jobs s o).store.sequence =
      !Store.isWriteLocked s.store.sequence := by
  obtain ⟨i, ok⟩ := o
  unfold step
  dsimp only
  by_cases hb : s.stage i = .beginWrite
  · rw [hb]
    simp
  · by_cases he : s.stage i = .endWrite
    · rw [he]
      simp
    · exact absurd ⟨hb, he⟩ h

/-- **Without an `end_write` nobody gets to success.** -/
theorem step_result_of_untouched {o : Fin n × Bool} (h : Untouched s o) {j : Fin n}
    (hj : ((step jobs s o).stage j).result = some true) : (s.stage j).result = some true := by
  obtain ⟨i, ok⟩ := o
  unfold step at hj
  dsimp only at hj
  -- the writer's own stage
  have hgoto {s' : Session n} (hs : s'.stage = s.stage) {stage : WriteStage}
      (hj : ((s'.goto i stage).stage j).result = some true)
      (hi : stage.result = some true → (s.stage i).result = some true) :
      (s.stage j).result = some true := by
    by_cases hji : j = i
    · subst hji
      rw [goto_same] at hj
      exact hi hj
    · rw [goto_ne _ hji, hs] at hj
      exact hj
  cases hst : s.stage i with
  | lock =>
      rw [hst] at hj
      dsimp only at hj
      split at hj
      · exact hj
      · refine hgoto rfl hj fun hr => ?_
        cases hw : (jobs i).writer <;> rw [hw] at hr <;> cases hr
  | verify =>
      rw [hst] at hj
      refine hgoto rfl hj fun hr => ?_
      cases ok <;> cases hr
  | beginWrite => exact absurd hst h.1
  | body left =>
      rw [hst] at hj
      cases left with
      | zero =>
          refine hgoto rfl hj fun hr => ?_
          cases hw : (jobs i).writer <;> rw [hw] at hr <;> cases hr
      | succ left =>
          refine hgoto rfl hj fun hr => ?_
          split at hr
          · cases hw : (jobs i).writer with
            | insert ends => rw [hw] at hr; cases ends <;> cases hr
            | _ => rw [hw] at hr; cases hr
          · cases hr
  | release =>
      rw [hst] at hj
      exact hgoto rfl hj fun hr => by cases hr
  | endWrite => exact absurd hst h.2
  | unlock result =>
      rw [hst] at hj
      exact hgoto rfl hj fun hr => hst ▸ hr
  | returned result =>
      rw [hst] at hj
      exact hj

/-! ## 3. The rest of the session -/

/-- Untouched locks stay through the session. -/
theorem run_untouched {later : List (Fin n × Bool)}
    (h : EveryStep (step jobs) Untouched s later) :
    Always (step jobs) (fun s' => s'.store = s.store ∧
      ∀ j, (s'.stage j).result = some true → (s.stage j).result = some true) s later :=
  always_of_step
    (fun _ _ hs hu => ⟨(step_store_of_untouched hu).trans hs.1,
      fun j hj => hs.2 j (step_result_of_untouched hu hj)⟩)
    ⟨rfl, fun _ hj => hj⟩ h

/-- With the flush lock there, no open succeeds. -/
theorem open_of_flushLocked {store : Store} (hf : store.flushEachWrite = true)
    (hl : store.flushLocked = true) : store.open.2 = false ∧ store.close.1.open.2 = false := by
  have hopen : store.open.2 = false := by
    unfold Store.open Store.tryLock
    simp [hl]
  refine ⟨hopen, ?_⟩
  rw [show store.close.1 = store by simp [Store.close, hf]]
  exact hopen

/-- **The rest of a session is latched** exactly where it starts with an odd counter and the flush
    lock, and no step touches them. -/
theorem latched_iff {later : List (Fin n × Bool)} : Latched jobs s later ↔
    (Store.isWriteLocked s.store.sequence = true ∧
      (s.store.flushEachWrite = true → s.store.flushLocked = true)) ∧
      EveryStep (step jobs) Untouched s later := by
  constructor
  · intro h
    have hodd (xs ys : List (Fin n × Bool)) (he : later = xs ++ ys) :
        Store.isWriteLocked (run (step jobs) s xs).store.sequence = true := by
      refine Bool.not_eq_false _ ▸ fun heven => ?_
      refine h.noRead xs [] ys (by simpa using he) ⟨heven, ?_⟩
      rw [List.append_nil]
      exact beq_self_eq_true _
    refine ⟨⟨hodd [] later rfl, fun hf => (h.noOpen hf [] later rfl).1⟩, ?_⟩
    refine everyStep_iff_prefix.mpr fun xs o ys he => ?_
    by_contra hu
    have hnext := hodd (xs ++ [o]) ys (by simpa using he)
    rw [run_append] at hnext
    have hturn := @step_parity n jobs _ _ hu
    rw [hodd xs (o :: ys) he] at hturn
    exact Bool.false_ne_true (hturn.symm.trans hnext)
  · intro ⟨⟨hodd, hflush⟩, hu⟩
    have hrun := always_iff_prefix.mp (run_untouched hu)
    refine ⟨(run_untouched hu).last.2, fun xs ys zs he h => ?_, fun hf xs ys he => ?_⟩
    · have hstore := (hrun xs (ys ++ zs) (by rw [he, List.append_assoc])).1
      rw [hstore] at h
      exact Bool.false_ne_true (h.1.symm.trans hodd)
    · rw [(hrun xs ys he).1]
      exact ⟨hflush hf, open_of_flushLocked hf (hflush hf)⟩

/-- The locks behind a failure, by those in front of it. -/
theorem locksStay_iff {o : Fin n × Bool} (hfail : WriteFails jobs s o) : LocksStay s o ↔
    Store.isWriteLocked (step jobs s o).store.sequence = true ∧
      ((step jobs s o).store.flushEachWrite = true →
        (step jobs s o).store.flushLocked = true) := by
  obtain ⟨i, ok⟩ := o
  rcases hfail with ⟨⟨left, hst⟩, _⟩ | ⟨hst, hanswer⟩
  · have hne : s.stage i ≠ .endWrite := fun he => by cases hst.symm.trans he
    have hu : Untouched s (i, ok) := ⟨fun he => (by cases hst.symm.trans he), hne⟩
    rw [step_store_of_untouched hu]
    exact and_congr_left fun _ => iff_true_right hne
  · have hstore : (step jobs s (i, ok)).store = (s.store.endWrite ok).1 := by
      unfold step
      dsimp only
      rw [hst]
      rfl
    rw [hstore]
    cases hodd : Store.isWriteLocked s.store.sequence with
    | true =>
        refine iff_of_false (fun h => h.1.mp hodd hst) fun h => ?_
        rw [Store.endWrite_sequence, Store.isWriteLocked_succ, hodd] at h
        exact Bool.false_ne_true h.1
    | false =>
        rw [Store.endWrite_eq_false hodd]
        refine and_congr_left fun _ => iff_of_true ?_ ?_
        · exact iff_of_false (by rw [hodd]; exact Bool.false_ne_true) fun h => h hst
        · rw [Store.isWriteLocked_succ, hodd]
          rfl

/-! ## 4. Every run -/

/-- **A failed write latches the session exactly where it leaves the locks and no writer touches
    them any more**: over any number of writers of any kinds and every order of their steps, for
    every failure behind a `begin_write`. -/
theorem latched_iff_untouched (jobs : Fin n → Job) (flushEachWrite : Bool)
    (earlier : List (Fin n × Bool)) (o : Fin n × Bool) (later : List (Fin n × Bool))
    (hfail : WriteFails jobs (run (step jobs) (start flushEachWrite) earlier) o) :
    Latched jobs (run (step jobs) (start flushEachWrite) (earlier ++ [o])) later ↔
      LocksStay (run (step jobs) (start flushEachWrite) earlier) o ∧
        EveryStep (step jobs) Untouched
          (run (step jobs) (start flushEachWrite) (earlier ++ [o])) later := by
  rw [run_append]
  exact latched_iff.trans (and_congr_left fun _ => (locksStay_iff hfail).symm)

/-- **The first failure of serial writers** latches the session exactly where it is a body's and no
    writer begins or ends a write afterwards: the failed write's own `end_insert` included. -/
theorem latched_iff_of_serial {flushEachWrite : Bool} {earlier : List (Fin n × Bool)}
    {o : Fin n × Bool} {later : List (Fin n × Bool)}
    (hserial : EveryStep (step jobs) (fun s o => ¬ BodyFails jobs s o ∧ Serial s o)
      (start flushEachWrite) earlier)
    (hfail : WriteFails jobs (run (step jobs) (start flushEachWrite) earlier) o) :
    Latched jobs (run (step jobs) (start flushEachWrite) (earlier ++ [o])) later ↔
      BodyFails jobs (run (step jobs) (start flushEachWrite) earlier) o ∧
        EveryStep (step jobs) Untouched
          (run (step jobs) (start flushEachWrite) (earlier ++ [o])) later := by
  have hinv : Inv jobs (run (step jobs) (start flushEachWrite) earlier) :=
    (always_of_step (fun _ _ h hs => h.step hs.1 hs.2) (inv_start flushEachWrite) hserial).last
  rw [run_append]
  refine latched_iff.trans (and_congr_left fun _ => (locksStay_iff hfail).symm.trans ?_)
  generalize run (step jobs) (start flushEachWrite) earlier = s at hinv hfail
  obtain ⟨i, ok⟩ := o
  have hwriting : (s.stage i).writing = true := by
    rcases hfail with ⟨⟨left, hst⟩, _⟩ | ⟨hst, _⟩
    · rw [hst]
      rfl
    · rw [hst]
      rfl
  have hodd := hinv.odd.mpr ⟨i, hwriting⟩
  constructor
  · intro h
    exact hfail.resolve_right fun he => h.1.mp hodd he.1
  · intro ⟨⟨left, hst⟩, _⟩
    exact ⟨iff_of_true hodd fun he => (by cases hst.symm.trans he),
      fun hf => hinv.flushLocked hf i hwriting⟩

/-- Three pushes of a block, with one body step each. -/
def threePushes (_ : Fin 3) : Job := ⟨.pushBlock, 1⟩

def failing : Fin 3 := ⟨0, Nat.succ_pos 2⟩

def second : Fin 3 := ⟨1, Nat.one_lt_succ_succ 1⟩

def third : Fin 3 := ⟨2, Nat.lt_succ_self 2⟩

/-- The first push fails in its body, a second one does not pass its checks. -/
theorem refusedPush_latched : Latched threePushes
    (run (step threePushes) (start true) (List.replicate 3 (failing, true) ++ [(failing, false)]))
    [(failing, true), (second, true), (second, false), (second, true)] := by
  have hstage : (run (step threePushes) (start true) (List.replicate 3 (failing, true))).stage
      failing = .body 1 := by decide +kernel
  exact (latched_iff_untouched threePushes true (List.replicate 3 (failing, true)) (failing, false)
    _ (.inl ⟨⟨0, hstage⟩, rfl, rfl⟩)).mpr (by decide +kernel)

/-- Two pushes behind the failed one: the second one's `begin_write` is refused, the third one's is
    not, and its `end_write` removes the flush lock. -/
def twoMore : List (Fin 3 × Bool) :=
  (failing, true) :: (List.replicate 5 (second, true) ++ List.replicate 8 (third, true))

theorem thirdPush_succeeds :
    WriteFails threePushes
      (run (step threePushes) (start true) (List.replicate 3 (failing, true))) (failing, false) ∧
      ¬ Latched threePushes (run (step threePushes) (start true)
        (List.replicate 3 (failing, true) ++ [(failing, false)])) twoMore := by
  refine ⟨.inl ⟨⟨0, by decide +kernel⟩, rfl, rfl⟩, fun h => ?_⟩
  have hsuccess := h.noSuccess third (by decide +kernel)
  revert hsuccess
  decide +kernel

end Session

end Libbitcoin.Database
