/-
  File:      BitprimDatabase/DataBase/Writers.lean
  Subject:   THE WRITERS AND THEIR LOCKS (data_base.cpp): any number of writers of one session over
             the write mutex and the locks of the store, each by its steps in code order. A push
             releases the mutex behind `end_write`, `end_insert` and `handle_push` in front of it.

  * `step` -- the next step of one writer; its answer is what the check, the body step or the flush
    of the tables returns;
  * `Exclusive` -- what the locks are for; `Serial` -- no `begin_write` while another writer has
    released the mutex in front of its `end_write`, and every flush succeeds;
  * **`exclusive_iff_serial`**: where no body fails, the writers of a run exclude each other exactly
    where every step of it is serial.
-/
import Mathlib.Data.Fin.Basic
import BitprimDatabase.Lib.Run
import BitprimDatabase.Store

namespace Libbitcoin.Database

open Lib

/-! ## 1. The machine -/

/-- What a writer does. The caller of `insert` ends the section after a failed insert or not. -/
inductive Writer where
  | pushTransaction
  | pushBlock
  | insert (endsAfterFailure : Bool)
  | reorganize
  deriving DecidableEq

/-- A writer and the number of steps of its body. -/
structure Job where
  writer : Writer
  steps : Nat

/-- Where a writer is; `release` is the unlocking in front of `end_write`. -/
inductive WriteStage where
  | lock
  | verify
  | beginWrite
  | body (left : Nat)
  | release
  | endWrite
  | unlock (result : Bool)
  | returned (result : Bool)
  deriving DecidableEq

namespace Writer

/-- The stage behind the lock: a push verifies first. -/
def locked : Writer → WriteStage
  | .pushTransaction | .pushBlock => .verify
  | .insert _ | .reorganize => .beginWrite

/-- The stage behind a false `begin_write`: `begin_insert` returns it and keeps the mutex. -/
def refused : Writer → WriteStage
  | .insert _ => .returned false
  | .pushTransaction | .pushBlock | .reorganize => .unlock false

/-- Whether a body can fail: that of an unconfirmed transaction only stores. -/
def canFail : Writer → Bool
  | .pushTransaction => false
  | .pushBlock | .insert _ | .reorganize => true

/-- The stage behind a failed body: no `end_write`, but the caller's of `end_insert`. -/
def failed : Writer → WriteStage
  | .insert true => .release
  | .insert false => .returned false
  | .pushTransaction | .pushBlock | .reorganize => .unlock false

/-- The stage behind the body. -/
def finished : Writer → WriteStage
  | .pushTransaction | .pushBlock => .endWrite
  | .insert _ | .reorganize => .release

/-- The stage behind `end_write`. -/
def ended : Writer → Bool → WriteStage
  | .pushTransaction, result | .pushBlock, result => .unlock result
  | .insert _, result | .reorganize, result => .returned result

end Writer

/-- The locks, the stages of `n` writers, and what `begin_write` and `end_write` have answered, the
    latest first. -/
structure Session (n : Nat) where
  store : Store
  writeMutex : Option (Fin n)
  stage : Fin n → WriteStage
  answers : List Bool

namespace Session

variable {n : Nat}

/-- A session of the opened store. -/
def start (flushEachWrite : Bool) : Session n where
  store := (Store.open ⟨flushEachWrite, false, 0⟩).1
  writeMutex := none
  stage _ := .lock
  answers := []

def goto (s : Session n) (i : Fin n) (stage : WriteStage) : Session n :=
  { s with stage := Function.update s.stage i stage }

def setMutex (s : Session n) (holder : Option (Fin n)) : Session n :=
  { s with writeMutex := holder }

/-- The outcome of `begin_write` or `end_write`. -/
def answered (s : Session n) (store : Store) (answer : Bool) : Session n :=
  { s with store := store, answers := answer :: s.answers }

/-- The next step of a writer. -/
def step (jobs : Fin n → Job) (s : Session n) : Fin n × Bool → Session n
  | (i, ok) =>
    match s.stage i with
    | .lock => if s.writeMutex.isSome then s else (s.setMutex (some i)).goto i (jobs i).writer.locked
    | .verify => s.goto i (if ok then .beginWrite else .unlock false)
    | .beginWrite =>
      (s.answered s.store.beginWrite.1 s.store.beginWrite.2).goto i
        (if s.store.beginWrite.2 then .body (jobs i).steps else (jobs i).writer.refused)
    | .body 0 => s.goto i (jobs i).writer.finished
    | .body (left + 1) =>
      s.goto i (if !ok && (jobs i).writer.canFail then (jobs i).writer.failed else .body left)
    | .release => (s.setMutex none).goto i .endWrite
    | .endWrite =>
      (s.answered (s.store.endWrite ok).1 (s.store.endWrite ok).2).goto i
        ((jobs i).writer.ended (s.store.endWrite ok).2)
    | .unlock result => (s.setMutex none).goto i (.returned result)
    | .returned _ => s

/-- A step of a body. -/
def BodyStep (s : Session n) : Fin n × Bool → Prop
  | (i, _) => ∃ left, s.stage i = .body (left + 1)

/-- A step of a body that fails. -/
def BodyFails (jobs : Fin n → Job) (s : Session n) : Fin n × Bool → Prop
  | (i, ok) => (∃ left, s.stage i = .body (left + 1)) ∧ ok = false ∧ (jobs i).writer.canFail = true

end Session

/-- Between `begin_write` and `end_write`. -/
def WriteStage.writing : WriteStage → Bool
  | .body _ | .release | .endWrite => true
  | .lock | .verify | .beginWrite | .unlock _ | .returned _ => false

namespace Session

variable {n : Nat}

/-! ## 2. What the locks are for -/

/-- **Write sections exclude each other**: each `begin_write` and `end_write` has answered true, at
    most one writer is between them, and during a body the counter is odd and the flush lock is
    held. -/
structure Exclusive (s : Session n) : Prop where
  answers : ∀ answer ∈ s.answers, answer = true
  single : ∀ i j, (s.stage i).writing = true → (s.stage j).writing = true → i = j
  writeLocked : ∀ i left, s.stage i = .body left → Store.isWriteLocked s.store.sequence = true
  flushLocked : s.store.flushEachWrite = true → ∀ i left, s.stage i = .body left →
    s.store.flushLocked = true

/-- **No torn read**: a reader whose handle is not write locked and still valid has seen no body
    step. -/
def NoTornRead (jobs : Fin n → Job) (s : Session n) (schedule : List (Fin n × Bool)) : Prop :=
  ∀ xs ys zs, schedule = xs ++ ys ++ zs →
    Store.isWriteLocked (run (step jobs) s xs).store.beginRead = false →
    (run (step jobs) s (xs ++ ys)).store.isReadValid (run (step jobs) s xs).store.beginRead = true →
    EveryStep (step jobs) (fun s o => ¬ BodyStep s o) (run (step jobs) s xs) ys

/-- The locks keep the writers of a run apart, and its readers from them. -/
def WritesExclusive (jobs : Fin n → Job) (s : Session n) (schedule : List (Fin n × Bool)) : Prop :=
  Always (step jobs) Exclusive s schedule ∧ NoTornRead jobs s schedule

/-- **A serial step**: `begin_write` finds no writer that has released the mutex and is to end its
    write, and the flush of `end_write` succeeds. -/
def Serial (s : Session n) : Fin n × Bool → Prop
  | (i, ok) =>
    match s.stage i with
    | .beginWrite => ∀ j, s.stage j ≠ .endWrite
    | .endWrite => s.store.flushEachWrite = true → ok = true
    | _ => True

/-! ## 3. The invariant -/

/-- Where a writer has not failed, it holds the mutex from the lock to its unlocking. -/
def holdsMutex (writer : Writer) : WriteStage → Bool
  | .verify | .beginWrite | .body _ | .release | .unlock _ => true
  | .endWrite => decide (writer.finished = .endWrite)
  | .lock | .returned _ => false

/-- **What serial steps keep**: the mutex has its holder, the counter is odd and the flush lock held
    while one writer is between `begin_write` and `end_write`. -/
structure Inv (jobs : Fin n → Job) (s : Session n) : Prop where
  answers : ∀ answer ∈ s.answers, answer = true
  holds : ∀ i, holdsMutex (jobs i).writer (s.stage i) = true → s.writeMutex = some i
  single : ∀ i j, (s.stage i).writing = true → (s.stage j).writing = true → i = j
  odd : Store.isWriteLocked s.store.sequence = true ↔ ∃ i, (s.stage i).writing = true
  flushLocked : s.store.flushEachWrite = true → ∀ i, (s.stage i).writing = true →
    s.store.flushLocked = true
  released : ∀ i, s.stage i = .release → (jobs i).writer.finished = .release

variable {jobs : Fin n → Job} {s : Session n}

@[simp] theorem goto_same (s : Session n) (i : Fin n) (stage : WriteStage) :
    (s.goto i stage).stage i = stage := Function.update_self ..

@[simp] theorem goto_ne (s : Session n) {i j : Fin n} (h : j ≠ i) (stage : WriteStage) :
    (s.goto i stage).stage j = s.stage j := Function.update_of_ne h ..

@[simp] theorem goto_store (s : Session n) (i : Fin n) (stage : WriteStage) :
    (s.goto i stage).store = s.store := rfl

@[simp] theorem answered_store (s : Session n) (store : Store) (answer : Bool) :
    (s.answered store answer).store = store := rfl

theorem Inv.exclusive (h : Inv jobs s) : Exclusive s where
  answers := h.answers
  single := h.single
  writeLocked i _ hb := h.odd.mpr ⟨i, by rw [hb]; rfl⟩
  flushLocked hf i _ hb := h.flushLocked hf i (by rw [hb]; rfl)

/-- A stage that neither begins nor ends a write, with the mutex handed on. -/
theorem Inv.move (h : Inv jobs s) {i : Fin n} {stage : WriteStage} {holder : Option (Fin n)}
    (hw : stage.writing = (s.stage i).writing)
    (hi : holdsMutex (jobs i).writer stage = true → holder = some i)
    (hj : ∀ j, j ≠ i → holdsMutex (jobs j).writer (s.stage j) = true → holder = some j)
    (hr : stage = .release → (jobs i).writer.finished = .release) :
    Inv jobs ((s.setMutex holder).goto i stage) := by
  have hwriting (j : Fin n) :
      (((s.setMutex holder).goto i stage).stage j).writing = (s.stage j).writing := by
    by_cases hji : j = i
    · subst hji
      rw [goto_same, hw]
    · rw [goto_ne _ hji]
      rfl
  refine ⟨h.answers, fun j => ?_, fun j k => ?_, ?_, fun hf j => ?_, fun j => ?_⟩
  · by_cases hji : j = i
    · subst hji
      rw [goto_same]
      exact hi
    · rw [goto_ne _ hji]
      exact hj j hji
  · rw [hwriting, hwriting]
    exact h.single j k
  · simp only [hwriting]
    exact h.odd
  · rw [hwriting]
    exact h.flushLocked hf j
  · by_cases hji : j = i
    · subst hji
      rw [goto_same]
      exact hr
    · rw [goto_ne _ hji]
      exact h.released j

/-- The mutex stays where it is. -/
theorem Inv.goto (h : Inv jobs s) {i : Fin n} {stage : WriteStage}
    (hw : stage.writing = (s.stage i).writing)
    (hi : holdsMutex (jobs i).writer stage = true → holdsMutex (jobs i).writer (s.stage i) = true)
    (hr : stage = .release → (jobs i).writer.finished = .release) : Inv jobs (s.goto i stage) :=
  h.move hw (fun hm => h.holds i (hi hm)) (fun j _ => h.holds j) hr

/-- The holder gives the mutex up. -/
theorem Inv.unlock (h : Inv jobs s) {i : Fin n} {stage : WriteStage}
    (hw : stage.writing = (s.stage i).writing)
    (hm : holdsMutex (jobs i).writer (s.stage i) = true)
    (hi : holdsMutex (jobs i).writer stage = false) (hr : stage ≠ .release) :
    Inv jobs ((s.setMutex none).goto i stage) := by
  refine h.move hw (fun hm' => ?_) (fun j hj hm' => ?_) fun he => absurd he hr
  · rw [hi] at hm'
    cases hm'
  · have := (h.holds i hm).symm.trans (h.holds j hm')
    exact absurd (Option.some.inj this).symm hj

/-- **No writer is between `begin_write` and `end_write`** where a serial step begins a write. -/
theorem Inv.none_writing (h : Inv jobs s) {i : Fin n} (hi : s.stage i = .beginWrite)
    (hs : ∀ j, s.stage j ≠ .endWrite) (j : Fin n) : (s.stage j).writing = false := by
  have hmi : s.writeMutex = some i := h.holds i (by rw [hi]; rfl)
  have hne (hw : (s.stage j).writing = true) :
      holdsMutex (jobs j).writer (s.stage j) = true := by
    cases hj : s.stage j with
    | endWrite => exact absurd hj (hs j)
    | body left => rfl
    | release => rfl
    | _ => rw [hj] at hw; cases hw
  cases hw : (s.stage j).writing with
  | false => rfl
  | true =>
      cases Option.some.inj (hmi.symm.trans (h.holds j (hne hw)))
      rw [hi] at hw
      cases hw

/-- `begin_write` where no writer is between `begin_write` and `end_write`. -/
theorem Inv.begin (h : Inv jobs s) {i : Fin n} (hi : s.stage i = .beginWrite)
    (hnone : ∀ j, (s.stage j).writing = false) (left : Nat) :
    s.store.beginWrite.2 = true ∧
      Inv jobs ((s.answered s.store.beginWrite.1 true).goto i (.body left)) := by
  have heven : Store.isWriteLocked s.store.sequence = false := by
    refine Bool.eq_false_iff.mpr fun ho => ?_
    obtain ⟨j, hj⟩ := h.odd.mp ho
    rw [hnone j] at hj
    cases hj
  have honly {j : Fin n}
      (hj : (((s.answered s.store.beginWrite.1 true).goto i (.body left)).stage j).writing = true) :
      j = i := by
    by_contra hji
    rw [goto_ne _ hji] at hj
    cases (hnone j).symm.trans hj
  refine ⟨by rw [s.store.beginWrite_eq, heven]; rfl, ?_, fun j hj => ?_, fun j k hj hk => ?_, ?_,
    fun hf j hj => ?_, fun j hj => ?_⟩
  · intro answer ha
    exact (List.mem_cons.mp ha).elim id (h.answers answer)
  · by_cases hji : j = i
    · subst hji
      exact h.holds j (by rw [hi]; rfl)
    · rw [goto_ne _ hji] at hj
      exact h.holds j hj
  · rw [honly hj, honly hk]
  · refine iff_of_true ?_ ⟨i, by rw [goto_same]; rfl⟩
    rw [goto_store, answered_store, s.store.beginWrite_sequence, Store.isWriteLocked_succ, heven]
    rfl
  · rw [goto_store, answered_store, s.store.beginWrite_eq] at hf ⊢
    rw [show s.store.flushEachWrite = true from hf]
    rfl
  · by_cases hji : j = i
    · subst hji
      rw [goto_same] at hj
      cases hj
    · rw [goto_ne _ hji] at hj
      exact h.released j hj

/-- `end_write` of the writer that is between. -/
theorem Inv.endWrite (h : Inv jobs s) {i : Fin n} (hi : s.stage i = .endWrite) {ok : Bool}
    (hok : s.store.flushEachWrite = true → ok = true) :
    (s.store.endWrite ok).2 = true ∧
      Inv jobs ((s.answered (s.store.endWrite ok).1 true).goto i ((jobs i).writer.ended true)) := by
  have hwi : (s.stage i).writing = true := by rw [hi]; rfl
  have hodd := h.odd.mpr ⟨i, hwi⟩
  have hnone (j : Fin n) : (((s.answered (s.store.endWrite ok).1 true).goto i
      ((jobs i).writer.ended true)).stage j).writing = false := by
    by_cases hji : j = i
    · subst hji
      rw [goto_same]
      cases (jobs j).writer <;> rfl
    · rw [goto_ne _ hji]
      exact Bool.eq_false_iff.mpr fun hw => hji (h.single j i hw hwi)
  have hanswer : (s.store.endWrite ok).2 = true := by
    rw [Store.endWrite_eq hodd]
    cases hf : s.store.flushEachWrite with
    | false => rfl
    | true => rw [hok hf]; rfl
  refine ⟨hanswer, ?_, fun j hj => ?_, fun j k hj => ?_, ?_, fun _ j hj => ?_, fun j hj => ?_⟩
  · intro answer ha
    exact (List.mem_cons.mp ha).elim id (h.answers answer)
  · by_cases hji : j = i
    · subst hji
      refine h.holds j ?_
      rw [goto_same] at hj
      rw [hi]
      cases hw : (jobs j).writer with
      | pushTransaction => rfl
      | pushBlock => rfl
      | insert ends => rw [hw] at hj; cases hj
      | reorganize => rw [hw] at hj; cases hj
    · rw [goto_ne _ hji] at hj
      exact h.holds j hj
  · rw [hnone j] at hj
    cases hj
  · refine iff_of_false ?_ fun ⟨j, hj⟩ => ?_
    · rw [goto_store, answered_store, Store.endWrite_sequence, Store.isWriteLocked_succ, hodd]
      exact Bool.false_ne_true
    · rw [hnone j] at hj
      cases hj
  · rw [hnone j] at hj
    cases hj
  · by_cases hji : j = i
    · subst hji
      rw [goto_same] at hj
      cases hw : (jobs j).writer <;> rw [hw] at hj <;> cases hj
    · rw [goto_ne _ hji] at hj
      exact h.released j hj

/-- **A serial step keeps the invariant**, unless a body fails. -/
theorem Inv.step (h : Inv jobs s) {o : Fin n × Bool} (hb : ¬ BodyFails jobs s o)
    (hs : Serial s o) : Inv jobs (step jobs s o) := by
  obtain ⟨i, ok⟩ := o
  unfold Serial at hs
  unfold Session.step
  dsimp only at hs ⊢
  cases hst : s.stage i with
  | lock =>
      dsimp only
      split
      · exact h
      · rename_i hfree
        refine h.move ?_ (fun _ => rfl) (fun j _ hj => ?_) ?_
        · rw [hst]
          cases (jobs i).writer <;> rfl
        · exact absurd (by rw [h.holds j hj]; rfl) hfree
        · cases (jobs i).writer <;> intro he <;> cases he
  | verify =>
      dsimp only
      refine h.goto ?_ (fun _ => by rw [hst]; rfl) ?_
      · rw [hst]
        cases ok <;> rfl
      · cases ok <;> intro he <;> cases he
  | beginWrite =>
      rw [hst] at hs
      obtain ⟨hanswer, hinv⟩ := h.begin hst (h.none_writing hst hs) (jobs i).steps
      dsimp only
      rw [hanswer]
      exact hinv
  | body left =>
      cases left with
      | zero =>
          refine h.goto ?_ (fun _ => by rw [hst]; rfl) id
          rw [hst]
          cases (jobs i).writer <;> rfl
      | succ left =>
          have hnot : (!ok && (jobs i).writer.canFail) = false := by
            cases ok with
            | true => rfl
            | false => exact Bool.eq_false_iff.mpr fun hc => hb ⟨⟨left, hst⟩, rfl, hc⟩
          dsimp only
          rw [hnot]
          exact h.goto (by rw [hst]; rfl) (fun _ => by rw [hst]; rfl) (fun he => by cases he)
  | release =>
      refine h.unlock (by rw [hst]; rfl) (by rw [hst]; rfl) ?_ (fun he => by cases he)
      rw [holdsMutex, h.released i hst]
      rfl
  | endWrite =>
      rw [hst] at hs
      obtain ⟨hanswer, hinv⟩ := h.endWrite hst hs
      dsimp only
      rw [hanswer]
      exact hinv
  | unlock result =>
      exact h.unlock (by rw [hst]; rfl) (by rw [hst]; rfl) rfl (fun he => by cases he)
  | returned result => exact h

/-- **A step that leaves the writers exclusive was serial.** -/
theorem Inv.serial (h : Inv jobs s) {o : Fin n × Bool} (he : Exclusive (Session.step jobs s o)) :
    Serial s o := by
  obtain ⟨i, ok⟩ := o
  have ha := he.answers
  unfold Serial
  unfold Session.step at ha
  dsimp only at ha ⊢
  cases hst : s.stage i with
  | beginWrite =>
      rw [hst] at ha
      intro j hj
      have hodd := h.odd.mpr ⟨j, by rw [hj]; rfl⟩
      have := ha s.store.beginWrite.2 List.mem_cons_self
      rw [s.store.beginWrite_eq, hodd] at this
      cases this
  | endWrite =>
      rw [hst] at ha
      intro hf
      have hodd := h.odd.mpr ⟨i, by rw [hst]; rfl⟩
      have := ha (s.store.endWrite ok).2 List.mem_cons_self
      rw [Store.endWrite_eq hodd, hf] at this
      exact this
  | _ => trivial

theorem inv_start (flushEachWrite : Bool) : Inv jobs (start flushEachWrite) where
  answers _ ha := by cases ha
  holds _ hm := by cases hm
  single _ _ hw := by cases hw
  odd := by
    refine iff_of_false ?_ fun ⟨_, hw⟩ => by cases hw
    rw [show (start flushEachWrite : Session n).store.sequence = 0 by cases flushEachWrite <;> rfl]
    decide
  flushLocked _ _ hw := by cases hw
  released _ hr := by cases hr

/-! ## 4. Readers -/

/-- The counter never goes back. -/
theorem sequence_le_step (jobs : Fin n → Job) (s : Session n) (o : Fin n × Bool) :
    s.store.sequence ≤ (step jobs s o).store.sequence := by
  obtain ⟨i, ok⟩ := o
  unfold step
  dsimp only
  cases s.stage i with
  | lock => dsimp only; split <;> exact Nat.le_refl _
  | beginWrite =>
      rw [goto_store, answered_store, Store.beginWrite_sequence]
      exact Nat.le_succ _
  | body left => cases left <;> exact Nat.le_refl _
  | endWrite =>
      rw [goto_store, answered_store, Store.endWrite_sequence]
      exact Nat.le_succ _
  | _ => exact Nat.le_refl _

theorem sequence_le_run (jobs : Fin n → Job) (s : Session n) (schedule : List (Fin n × Bool)) :
    s.store.sequence ≤ (run (step jobs) s schedule).store.sequence :=
  run_of_step (P := fun s' => s.store.sequence ≤ s'.store.sequence)
    (fun s' o h => Nat.le_trans h (sequence_le_step jobs s' o)) schedule (Nat.le_refl _)

/-- **Exclusive writers tear no read**: the counter has not moved between an even handle and its
    test, and it is odd during a body. -/
theorem noTornRead_of_exclusive {schedule : List (Fin n × Bool)}
    (h : Always (step jobs) Exclusive s schedule) : NoTornRead jobs s schedule := by
  intro xs ys zs hsplit heven hvalid
  refine everyStep_iff_prefix.mpr fun us o vs hys hbody => ?_
  subst hys
  obtain ⟨left, hstage⟩ := hbody
  have hexcl : Exclusive (run (step jobs) s (xs ++ us)) :=
    always_iff_prefix.mp h (xs ++ us) (o :: vs ++ zs) (by simp [hsplit])
  rw [run_append] at hexcl
  have hodd := hexcl.writeLocked o.1 _ hstage
  have hsame : (run (step jobs) (run (step jobs) s xs) (us ++ o :: vs)).store.sequence =
      (run (step jobs) s xs).store.sequence := by
    rw [← run_append]
    exact (eq_of_beq hvalid).symm
  rw [run_append] at hsame
  have hle := sequence_le_run jobs (run (step jobs) s xs) us
  have hge := sequence_le_run jobs (run (step jobs) (run (step jobs) s xs) us) (o :: vs)
  rw [hsame] at hge
  rw [Nat.le_antisymm hge hle] at hodd
  exact Bool.false_ne_true (heven.symm.trans hodd)

/-! ## 5. Every run -/

/-- **Write sections exclude each other exactly where every step is serial**: over any number of
    writers of any kinds, every order of their steps in which no body fails, with flushing on or
    off. -/
theorem exclusive_iff_serial (jobs : Fin n → Job) (flushEachWrite : Bool)
    (schedule : List (Fin n × Bool))
    (hbody : EveryStep (step jobs) (fun s o => ¬ BodyFails jobs s o) (start flushEachWrite)
      schedule) :
    WritesExclusive jobs (start flushEachWrite) schedule ↔
      EveryStep (step jobs) Serial (start flushEachWrite) schedule := by
  have hinv : Inv jobs (start flushEachWrite : Session n) := inv_start flushEachWrite
  have hiff : Always (step jobs) Exclusive (start flushEachWrite) schedule ↔
      EveryStep (step jobs) Serial (start flushEachWrite) schedule :=
    always_iff_everyStep (fun s o h hb he => h.step hb (h.serial he))
      (fun s o h _ hb => ⟨h.serial, fun hs => (h.step hb hs).exclusive⟩) hinv hinv.exclusive hbody
  exact ⟨fun h => hiff.mp h.1, fun h => ⟨hiff.mpr h, noTornRead_of_exclusive (hiff.mpr h)⟩⟩

/-- Where every answer is true, no body fails. -/
theorem noBodyFails {schedule : List (Fin n × Bool)} (h : ∀ o ∈ schedule, o.2 = true) :
    EveryStep (step jobs) (fun s o => ¬ BodyFails jobs s o) s schedule := by
  refine everyStep_iff_prefix.mpr fun xs o ys he hfail => ?_
  have hmem : o ∈ schedule := he ▸ List.mem_append_right xs List.mem_cons_self
  exact Bool.false_ne_true (hfail.2.1.symm.trans (h o hmem))

instance (s : Session n) : (o : Fin n × Bool) → Decidable (Serial s o)
  | (i, ok) => by
    unfold Serial
    dsimp only
    split <;> infer_instance

/-- An insert and a push, with one body step each. -/
def insertAndPush (i : Fin 2) : Job := if i.val = 0 then ⟨.insert false, 1⟩ else ⟨.pushBlock, 1⟩

def inserting : Fin 2 := ⟨0, Nat.two_pos⟩

def pushing : Fin 2 := ⟨1, Nat.one_lt_two⟩

/-- One writer behind the other. -/
def inTurn : List (Fin 2 × Bool) :=
  List.replicate 7 (inserting, true) ++ List.replicate 8 (pushing, true)

theorem inTurn_exclusive : WritesExclusive insertAndPush (start true) inTurn := by
  exact (exclusive_iff_serial insertAndPush true inTurn (noBodyFails (by decide))).mpr
    (by decide +kernel)

/-- The push begins its write while the insert has released the mutex and is to end its own: it is
    refused, and readers meet an even counter. -/
def overtaken : List (Fin 2 × Bool) :=
  List.replicate 5 (inserting, true) ++ List.replicate 3 (pushing, true)

theorem overtaken_refused :
    EveryStep (step insertAndPush) (fun s o => ¬ BodyFails insertAndPush s o) (start true)
      overtaken ∧
      ¬ WritesExclusive insertAndPush (start true) overtaken := by
  refine ⟨noBodyFails (by decide), fun h => ?_⟩
  have hanswers := h.1.last.answers false (by decide +kernel)
  cases hanswers

end Session

end Libbitcoin.Database
