/-
  File:      BitprimDatabase/Lib/Atomic.lean
  Subject:   LINEARIZABLE HISTORIES: threads call operations of a shared object and get answers. A
             history is linearizable where every operation takes effect at one point between its
             call and its answer, and the points in their order are a sequential use of the object.

  * `Object` -- what an operation may answer, and the state behind it;
  * `Atomic`, `Object.Step` -- the object that is called, acts and answers, for each thread;
  * `Object.Linearizable` -- a history to which the points can be added;
  * **`linearizable_of_simulation`** -- a machine each of whose steps is matched by such steps.
-/
import Mathlib.Logic.Function.Basic
import BitprimDatabase.Lib.Run

namespace Lib

/-- A sequential object: `Does s op res s'` where `op` may answer `res` in `s` and leave `s'`. -/
structure Object (S Op Res : Type) where
  Does : S → Op → Res → S → Prop

/-- Where a thread is in its operation on the object. -/
inductive Phase (Op Res : Type) where
  | idle
  | called (op : Op)
  | applied (op : Op) (res : Res)

/-- What a thread does: it calls, its operation takes effect, it gets the answer. -/
inductive Label (T Op Res : Type) where
  | call (thread : T) (op : Op)
  | point (thread : T) (op : Op) (res : Res)
  | answer (thread : T) (res : Res)

/-- Calls and answers are seen, the points in between are not. -/
def Label.visible {T Op Res : Type} : Label T Op Res → Bool
  | point _ _ _ => false
  | _ => true

/-- The object and its threads. -/
structure Atomic (S T Op Res : Type) where
  state : S
  phase : T → Phase Op Res

variable {S T Op Res : Type} [DecidableEq T]

namespace Atomic

def goto (a : Atomic S T Op Res) (t : T) (state : S) (phase : Phase Op Res) : Atomic S T Op Res :=
  ⟨state, Function.update a.phase t phase⟩

@[simp] theorem goto_state (a : Atomic S T Op Res) (t : T) (state : S) (phase : Phase Op Res) :
    (a.goto t state phase).state = state := rfl

@[simp] theorem goto_same (a : Atomic S T Op Res) (t : T) (state : S) (phase : Phase Op Res) :
    (a.goto t state phase).phase t = phase := Function.update_self ..

theorem goto_self (a : Atomic S T Op Res) (t : T) : a.goto t a.state (a.phase t) = a := by
  unfold goto
  rw [Function.update_eq_self]

theorem goto_other (a : Atomic S T Op Res) {t u : T} (state : S) (phase : Phase Op Res) (h : u ≠ t) :
    (a.goto t state phase).phase u = a.phase u := Function.update_of_ne h ..

end Atomic

namespace Object

variable (o : Object S Op Res)

/-- **The atomic object**: each operation is called, takes effect at once, and answers. -/
inductive Step : Atomic S T Op Res → Label T Op Res → Atomic S T Op Res → Prop where
  | call (a : Atomic S T Op Res) (t : T) (op : Op) (h : a.phase t = .idle) :
      Step a (.call t op) (a.goto t a.state (.called op))
  | point (a : Atomic S T Op Res) (t : T) (op : Op) (res : Res) (state : S)
      (h : a.phase t = .called op) (hd : o.Does a.state op res state) :
      Step a (.point t op res) (a.goto t state (.applied op res))
  | answer (a : Atomic S T Op Res) (t : T) (op : Op) (res : Res) (h : a.phase t = .applied op res) :
      Step a (.answer t res) (a.goto t a.state .idle)

inductive Runs : Atomic S T Op Res → List (Label T Op Res) → Atomic S T Op Res → Prop where
  | nil (a : Atomic S T Op Res) : Runs a [] a
  | cons (a b c : Atomic S T Op Res) (l : Label T Op Res) (ls : List (Label T Op Res))
      (h : o.Step a l b) (hr : Runs b ls c) : Runs a (l :: ls) c

/-- **A history of calls and answers to which the points can be added.** -/
def Linearizable (a : Atomic S T Op Res) (history : List (Label T Op Res))
    (b : Atomic S T Op Res) : Prop :=
  ∃ ls, o.Runs a ls b ∧ ls.filter Label.visible = history

variable {o} {a b c : Atomic S T Op Res}

theorem Runs.append {ls ls' : List (Label T Op Res)} (h : o.Runs a ls b) (h' : o.Runs b ls' c) :
    o.Runs a (ls ++ ls') c := by
  induction h with
  | nil => exact h'
  | cons a b _ l ls hs _ ih => exact .cons a b c l _ hs (ih h')

theorem Runs.one {l : Label T Op Res} (h : o.Step a l b) : o.Runs a [l] b := .cons a b b l [] h (.nil b)

namespace Linearizable

theorem refl (a : Atomic S T Op Res) : o.Linearizable a [] a := ⟨[], .nil a, rfl⟩

theorem trans {h h' : List (Label T Op Res)} (hab : o.Linearizable a h b)
    (hbc : o.Linearizable b h' c) : o.Linearizable a (h ++ h') c := by
  obtain ⟨ls, hr, rfl⟩ := hab
  obtain ⟨ls', hr', rfl⟩ := hbc
  exact ⟨ls ++ ls', hr.append hr', List.filter_append ..⟩

theorem call {t : T} {op : Op} (h : a.phase t = .idle) :
    o.Linearizable a [.call t op] (a.goto t a.state (.called op)) :=
  ⟨_, .one (.call a t op h), rfl⟩

/-- A point is not seen. -/
theorem point {t : T} {op : Op} {res : Res} {state : S} (h : a.phase t = .called op)
    (hd : o.Does a.state op res state) : o.Linearizable a [] (a.goto t state (.applied op res)) :=
  ⟨_, .one (.point a t op res state h hd), rfl⟩

theorem answer {t : T} {op : Op} {res : Res} (h : a.phase t = .applied op res) :
    o.Linearizable a [.answer t res] (a.goto t a.state .idle) :=
  ⟨_, .one (.answer a t op res h), rfl⟩

/-- An operation between whose call and whose answer nothing else happens. -/
theorem once {t : T} {op : Op} {res : Res} {state : S} (h : a.phase t = .idle)
    (hd : o.Does a.state op res state) :
    o.Linearizable a [.call t op, .answer t res] ⟨state, a.phase⟩ := by
  have hcall : o.Linearizable a [.call t op] (a.goto t a.state (.called op)) := call h
  have hpoint := point (a := a.goto t a.state (.called op)) (a.goto_same ..) hd
  have hanswer := answer (o := o) (a := (a.goto t a.state (.called op)).goto t state (.applied op res))
    (Atomic.goto_same ..)
  have hphase : ((a.goto t a.state (.called op)).goto t state (.applied op res)).goto t state .idle =
      ⟨state, a.phase⟩ := by
    unfold Atomic.goto
    rw [Function.update_idem, Function.update_idem, ← h, Function.update_eq_self]
  exact hphase ▸ (hcall.trans hpoint).trans hanswer

end Linearizable

end Object

/-! ## Machines -/

section Machine

variable {M E : Type} {step : M → E → Option M} {label : M → E → List (Label T Op Res)}

/-- What is seen of a run. -/
def history (step : M → E → Option M) (label : M → E → List (Label T Op Res)) :
    M → List E → List (Label T Op Res)
  | _, [] => []
  | s, e :: es =>
    match step s e with
    | none => []
    | some s' => label s e ++ history step label s' es

/-- **A machine whose steps are matched by the atomic object** has linearizable histories. -/
theorem linearizable_of_simulation {o : Object S Op Res} {R : M → Atomic S T Op Res → Prop}
    {G : M → E → Prop}
    (hstep : ∀ s a e s', R s a → G s e → step s e = some s' →
      ∃ b, o.Linearizable a (label s e) b ∧ R s' b) {s s' : M} {a : Atomic S T Op Res} {es : List E}
    (hR : R s a) (hG : EverySome step G s es) (hr : runSome step s es = some s') :
    ∃ b, o.Linearizable a (history step label s es) b ∧ R s' b := by
  induction es generalizing s a with
  | nil =>
      cases hr
      exact ⟨a, .refl a, hR⟩
  | cons e es ih =>
      obtain ⟨s₁, hs, hr⟩ := Option.bind_eq_some_iff.mp hr
      obtain ⟨b, hl, hb⟩ := hstep s a e s₁ hR hG.1 hs
      obtain ⟨c, hl', hc⟩ := ih hb (hG.2 s₁ hs) hr
      refine ⟨c, ?_, hc⟩
      unfold history
      rw [hs]
      exact hl.trans hl'

end Machine

end Lib
