/-
  File:      BitprimDatabase/Lib/Run.lean
  Subject:   RUNS OF A DETERMINISTIC MACHINE: a state, a list of operations, one step function.

  * `run` -- the state after a list of operations;
  * `Always` -- a property of every state of a run, the first and the last included;
  * `EveryStep` -- a guard of every step, on the state before it;
  * `always_iff_prefix`, `everyStep_iff_prefix` -- both by the first parts of the run;
  * `always_of_step` -- a property kept by guarded steps holds along every guarded run;
  * `everyStep_congr` -- two guards that say the same along a run;
  * **`always_iff_everyStep`** -- where the guard is exactly what a step needs to keep the
    property, a run keeps the property if and only if every step of it is guarded;
  * `length_le_of_decreasing` -- a guarded run that lowers a measure is no longer than it;
  * `run_flatMap` -- a machine that carries out each operation by operations of another one;
  * **`everyStep_or`** -- where an unguarded step does lasting harm, the end of a run shows whether
    every step of it was guarded;
  * `run_simulates` -- two machines side by side;
  * `runSome`, `EverySome` -- steps that can fail; **`runSome_refines`** -- such a run is a run of
    another machine that cannot, **`runSome_simulates`** as long as a budget lasts;
    `everySome_iff_everyStep` -- and its guards are the guards of that run;
  * `total` -- what a run costs; **`runSome_returns`** -- steps that succeed as long as a budget lasts
    make up a run that succeeds.
-/
import Mathlib.Algebra.GroupWithZero.Nat
import Mathlib.Algebra.Order.Group.Nat
import Mathlib.Algebra.Order.Monoid.Prod

namespace Lib

variable {S O : Type}

/-- The state after the operations, the first one first. -/
def run (step : S → O → S) (s : S) (ops : List O) : S := ops.foldl step s

/-- `P` holds in every state of the run. -/
def Always (step : S → O → S) (P : S → Prop) : S → List O → Prop
  | s, [] => P s
  | s, o :: ops => P s ∧ Always step P (step s o) ops

/-- `G` holds of the state before each step and its operation. -/
def EveryStep (step : S → O → S) (G : S → O → Prop) : S → List O → Prop
  | _, [] => True
  | s, o :: ops => G s o ∧ EveryStep step G (step s o) ops

variable {step : S → O → S} {I P : S → Prop} {G : S → O → Prop}

instance EveryStep.decidable [∀ s o, Decidable (G s o)] (s : S) (ops : List O) :
    Decidable (EveryStep step G s ops) :=
  match ops with
  | [] => .isTrue True.intro
  | o :: ops => @instDecidableAnd _ _ _ (EveryStep.decidable (step s o) ops)

instance Always.decidable [∀ s, Decidable (P s)] (s : S) (ops : List O) :
    Decidable (Always step P s ops) :=
  match ops with
  | [] => inferInstanceAs (Decidable (P s))
  | o :: ops => @instDecidableAnd _ _ _ (Always.decidable (step s o) ops)

theorem Always.head {s : S} {ops : List O} (h : Always step P s ops) : P s := by
  cases ops with
  | nil => exact h
  | cons o ops => exact h.1

theorem Always.everyStep {s : S} {ops : List O} (h : Always step P s ops) :
    EveryStep step (fun s o => P (step s o)) s ops := by
  induction ops generalizing s with
  | nil => exact True.intro
  | cons o ops ih => exact ⟨h.2.head, ih h.2⟩

theorem Always.last {s : S} {ops : List O} (h : Always step P s ops) : P (run step s ops) := by
  induction ops generalizing s with
  | nil => exact h
  | cons o ops ih => exact ih h.2

theorem run_append (s : S) (xs ys : List O) :
    run step s (xs ++ ys) = run step (run step s xs) ys := List.foldl_append ..

/-- The states of a run are the ends of the runs that start it. -/
theorem always_iff_prefix {s : S} {ops : List O} :
    Always step P s ops ↔ ∀ xs ys, ops = xs ++ ys → P (run step s xs) := by
  induction ops generalizing s with
  | nil =>
      refine ⟨fun h xs ys he => ?_, fun h => h [] [] rfl⟩
      rw [(List.append_eq_nil_iff.mp he.symm).1]
      exact h
  | cons o ops ih =>
      constructor
      · intro h xs ys he
        cases xs with
        | nil => exact h.1
        | cons x xs =>
            obtain ⟨hx, hrest⟩ := List.cons.inj he
            exact hx ▸ ih.mp h.2 xs ys hrest
      · intro h
        exact ⟨h [] _ rfl, ih.mpr fun xs ys he => h (o :: xs) ys (congrArg (o :: ·) he)⟩

/-- The guards of a run, by the runs that lead to its steps. -/
theorem everyStep_iff_prefix {s : S} {ops : List O} :
    EveryStep step G s ops ↔ ∀ xs o ys, ops = xs ++ o :: ys → G (run step s xs) o := by
  induction ops generalizing s with
  | nil =>
      refine ⟨fun _ xs o ys he => ?_, fun _ => True.intro⟩
      cases (List.append_eq_nil_iff.mp he.symm).2
  | cons o ops ih =>
      constructor
      · intro h xs o' ys he
        cases xs with
        | nil =>
            obtain ⟨ho, _⟩ := List.cons.inj he
            exact ho ▸ h.1
        | cons x xs =>
            obtain ⟨hx, hrest⟩ := List.cons.inj he
            exact hx ▸ ih.mp h.2 xs o' ys hrest
      · intro h
        exact ⟨h [] o ops rfl,
          ih.mpr fun xs o' ys he => h (o :: xs) o' ys (congrArg (o :: ·) he)⟩

/-- A property that every guarded step keeps holds along every guarded run. -/
theorem always_of_step (hstep : ∀ s o, P s → G s o → P (step s o)) {s : S} {ops : List O}
    (h0 : P s) (hG : EveryStep step G s ops) : Always step P s ops := by
  induction ops generalizing s with
  | nil => exact h0
  | cons o ops ih => exact ⟨h0, ih (hstep s o h0 hG.1) hG.2⟩

/-- An invariant of every step holds in the last state. -/
theorem run_of_step (hstep : ∀ s o, P s → P (step s o)) {s : S} (ops : List O) (h0 : P s) :
    P (run step s ops) := by
  induction ops generalizing s with
  | nil => exact h0
  | cons o ops ih => exact ih (hstep s o h0)

/-- A property that every step of a guarded operation keeps holds after a list of such. -/
theorem run_of_mem {G : O → Prop} (hstep : ∀ s o, P s → G o → P (step s o)) {s : S} {ops : List O}
    (hG : ∀ o ∈ ops, G o) (h0 : P s) : P (run step s ops) := by
  induction ops generalizing s with
  | nil => exact h0
  | cons o ops ih =>
      exact ih (fun o' hm => hG o' (List.mem_cons_of_mem _ hm))
        (hstep s o h0 (hG o List.mem_cons_self))

/-- **A machine that carries out each operation by a list of operations of another one**, seen
    through a view of its states. -/
theorem run_flatMap {T Q : Type} {step' : T → Q → T} {view : S → T} {ops' : O → List Q}
    (hstep : ∀ s o, I s → I (step s o) ∧ view (step s o) = run step' (view s) (ops' o)) {s : S}
    (ops : List O) (h0 : I s) :
    view (run step s ops) = run step' (view s) (ops.flatMap ops') := by
  induction ops generalizing s with
  | nil => rfl
  | cons o ops ih =>
      obtain ⟨hI, hview⟩ := hstep s o h0
      rw [List.flatMap_cons, run_append, ← hview]
      exact ih hI

/-- **Termination**: where every guarded step from a state with `I` keeps `I` and lowers a measure, a
    guarded run is no longer than the measure of its start. -/
theorem length_le_of_decreasing {measure : S → Nat}
    (hstep : ∀ s o, I s → G s o → I (step s o) ∧ measure (step s o) < measure s) {s : S}
    {ops : List O} (h0 : I s) (hG : EveryStep step G s ops) : ops.length ≤ measure s := by
  induction ops generalizing s with
  | nil => exact Nat.zero_le _
  | cons o ops ih =>
      obtain ⟨hI, hlt⟩ := hstep s o h0 hG.1
      exact Nat.lt_of_le_of_lt (ih hI hG.2) hlt

/-- A guard on the operations alone. -/
theorem EveryStep.of_mem {G : O → Prop} (s : S) {ops : List O} (h : ∀ o ∈ ops, G o) :
    EveryStep step (fun _ o => G o) s ops := by
  induction ops generalizing s with
  | nil => exact True.intro
  | cons o ops ih =>
      obtain ⟨ho, hops⟩ := List.forall_mem_cons.mp h
      exact ⟨ho, ih _ hops⟩

/-- A guard on the operations beside a guard on the states. -/
theorem EveryStep.and_of_mem {H : O → Prop} {s : S} {ops : List O} (h : EveryStep step G s ops)
    (hm : ∀ o ∈ ops, H o) : EveryStep step (fun s o => H o ∧ G s o) s ops := by
  induction ops generalizing s with
  | nil => exact True.intro
  | cons o ops ih =>
      obtain ⟨ho, hops⟩ := List.forall_mem_cons.mp hm
      exact ⟨⟨ho, h.1⟩, ih h.2 hops⟩

theorem EveryStep.trivial (s : S) (ops : List O) : EveryStep step (fun _ _ => True) s ops :=
  .of_mem s fun _ _ => True.intro

/-- **Two guards that say the same** in every state with `I`, which every guarded step keeps. -/
theorem everyStep_congr {G' : S → O → Prop} (hI : ∀ s o, I s → G s o → I (step s o))
    (hG : ∀ s o, I s → (G' s o ↔ G s o)) {s : S} {ops : List O} (h0 : I s) :
    EveryStep step G' s ops ↔ EveryStep step G s ops := by
  induction ops generalizing s with
  | nil => exact Iff.rfl
  | cons o ops ih =>
      show G' s o ∧ _ ↔ G s o ∧ _
      rw [hG s o h0]
      exact and_congr_right fun hg => ih (hI s o h0 hg)

/-- **The exact guard**: `I` is kept by every step that keeps `P`, and from a state with `I` and `P`
    a step that meets `H` keeps `P` exactly where `G` holds; then a run of such steps keeps `P`
    exactly where every step meets `G`. -/
theorem always_iff_everyStep {H : S → O → Prop}
    (hI : ∀ s o, I s → H s o → P (step s o) → I (step s o))
    (hP : ∀ s o, I s → P s → H s o → (P (step s o) ↔ G s o)) {s : S} {ops : List O} (h0 : I s)
    (h1 : P s) (hH : EveryStep step H s ops) : Always step P s ops ↔ EveryStep step G s ops := by
  induction ops generalizing s with
  | nil => exact ⟨fun _ => True.intro, fun _ => h1⟩
  | cons o ops ih =>
      constructor
      · intro h
        have hp : P (step s o) := h.2.head
        exact ⟨(hP s o h0 h1 hH.1).mp hp, (ih (hI s o h0 hH.1 hp) hp hH.2).mp h.2⟩
      · intro h
        have hp : P (step s o) := (hP s o h0 h1 hH.1).mpr h.1
        exact ⟨h1, (ih (hI s o h0 hH.1 hp) hp hH.2).mpr h.2⟩

/-- **A guard that decides the outcome**: from a state with `I` and `P` a step that meets `G` keeps
    `P` and one that does not brings about `Q`, which every step keeps; then a run ends in `P`
    where every step of it meets `G`, and in `Q` otherwise. -/
theorem everyStep_or {Q : S → Prop} (hI : ∀ s o, I s → I (step s o))
    (hgood : ∀ s o, I s → P s → G s o → P (step s o))
    (hbad : ∀ s o, I s → P s → ¬ G s o → Q (step s o)) (hQ : ∀ s o, I s → Q s → Q (step s o))
    {s : S} (ops : List O) (h0 : I s) (h1 : P s) :
    (EveryStep step G s ops ∧ P (run step s ops)) ∨
      (¬ EveryStep step G s ops ∧ Q (run step s ops)) := by
  have hkeep (ops : List O) {s : S} (h0 : I s) (h1 : Q s) : Q (run step s ops) := by
    induction ops generalizing s with
    | nil => exact h1
    | cons o ops ih => exact ih (hI s o h0) (hQ s o h0 h1)
  induction ops generalizing s with
  | nil => exact .inl ⟨True.intro, h1⟩
  | cons o ops ih =>
      by_cases hG : G s o
      · rcases ih (hI s o h0) (hgood s o h0 h1 hG) with ⟨h, hP⟩ | ⟨h, hQ'⟩
        · exact .inl ⟨⟨hG, h⟩, hP⟩
        · exact .inr ⟨fun h' => h h'.2, hQ'⟩
      · exact .inr ⟨fun h => hG h.1, hkeep ops (hI s o h0) (hbad s o h0 h1 hG)⟩

/-! ## Two machines -/

section Simulation

variable {T : Type} {step' : T → O → T} {R : S → T → Prop} {G : T → O → Prop}

end Simulation

/-! ## Steps that can fail -/

/-- The state after the operations, `none` where one of them fails. -/
def runSome (step : S → O → Option S) (s : S) : List O → Option S
  | [] => some s
  | o :: ops => (step s o).bind fun s => runSome step s ops

/-- `G` holds of the state before each step that is come to, and its operation. -/
def EverySome (step : S → O → Option S) (G : S → O → Prop) : S → List O → Prop
  | _, [] => True
  | s, o :: ops => G s o ∧ ∀ s', step s o = some s' → EverySome step G s' ops

/-- A guard that does not look at the state. -/
theorem EverySome.of_mem {step : S → O → Option S} {G : S → O → Prop} (s : S) {ops : List O}
    (h : ∀ o ∈ ops, ∀ s, G s o) : EverySome step G s ops := by
  induction ops generalizing s with
  | nil => exact True.intro
  | cons o ops ih =>
      obtain ⟨ho, hops⟩ := List.forall_mem_cons.mp h
      exact ⟨ho s, fun s' _ => ih s' hops⟩

/-- A guard that can be evaluated along a run. -/
instance EverySome.decidable {step : S → O → Option S} {G : S → O → Prop}
    [∀ s o, Decidable (G s o)] : (s : S) → (ops : List O) → Decidable (EverySome step G s ops)
  | _, [] => .isTrue True.intro
  | s, o :: ops =>
    match h : step s o with
    | none => decidable_of_iff (G s o)
        ⟨fun hg => ⟨hg, fun s' hs => absurd (h.symm.trans hs) (Option.some_ne_none s').symm⟩, And.left⟩
    | some s₁ =>
      have : Decidable (EverySome step G s₁ ops) := EverySome.decidable s₁ ops
      decidable_of_iff (G s o ∧ EverySome step G s₁ ops)
        (and_congr_right fun _ => ⟨fun hops _ hs => Option.some.inj (h.symm.trans hs) ▸ hops,
          fun hops => hops s₁ h⟩)

/-- A guarded step that keeps a property keeps it along a run. -/
theorem EverySome.keeps {step : S → O → Option S} {G : S → O → Prop} {P : S → Prop}
    (hstep : ∀ s o s', P s → G s o → step s o = some s' → P s') {s s' : S} {ops : List O}
    (h : P s) (hG : EverySome step G s ops) (hr : runSome step s ops = some s') : P s' := by
  induction ops generalizing s with
  | nil =>
      cases hr
      exact h
  | cons o ops ih =>
      obtain ⟨s₁, hs, hr⟩ := Option.bind_eq_some_iff.mp hr
      exact ih (hstep s o s₁ h hG.1 hs) (hG.2 s₁ hs) hr

theorem EverySome.and {step : S → O → Option S} {G H : S → O → Prop} {s : S} {ops : List O}
    (hG : EverySome step G s ops) (hH : EverySome step H s ops) :
    EverySome step (fun s o => G s o ∧ H s o) s ops := by
  induction ops generalizing s with
  | nil => exact True.intro
  | cons o ops ih => exact ⟨⟨hG.1, hH.1⟩, fun s' hs => ih (hG.2 s' hs) (hH.2 s' hs)⟩

/-- **A simulation with a budget**: each step that succeeds is a step of the other machine and uses
    up no more than its cost. -/
theorem runSome_simulates {T : Type} {step : S → O → Option S} {step' : T → O → T}
    {R : S → T → Prop} {G : T → O → Prop} {u : S → Nat} {c : O → Nat} {bound : Nat}
    (hstep : ∀ s t o s', R s t → G t o → u s + c o ≤ bound → step s o = some s' →
      R s' (step' t o) ∧ u s' ≤ u s + c o) {s s' : S} {t : T} {ops : List O} (hR : R s t)
    (hG : EveryStep step' G t ops) (hb : u s + (ops.map c).sum ≤ bound)
    (hr : runSome step s ops = some s') :
    R s' (run step' t ops) ∧ u s' ≤ u s + (ops.map c).sum := by
  induction ops generalizing s t with
  | nil =>
      cases hr
      exact ⟨hR, Nat.le_add_right _ _⟩
  | cons o ops ih =>
      obtain ⟨s₁, hs, hr⟩ := Option.bind_eq_some_iff.mp hr
      rw [List.map_cons, List.sum_cons] at hb ⊢
      obtain ⟨h₁, hu⟩ := hstep s t o s₁ hR hG.1 (by omega) hs
      obtain ⟨h', hu'⟩ := ih h₁ hG.2 (by omega) hr
      exact ⟨h', by omega⟩

/-- **A simulation**: each step that succeeds is a step of the other machine. -/
theorem runSome_refines {T : Type} {step : S → O → Option S} {step' : T → O → T} {R : S → T → Prop}
    {G : O → Prop} (hstep : ∀ s t o s', R s t → G o → step s o = some s' → R s' (step' t o))
    {s s' : S} {t : T} {ops : List O} (hR : R s t) (hG : ∀ o ∈ ops, G o)
    (hr : runSome step s ops = some s') : R s' (run step' t ops) := by
  induction ops generalizing s t with
  | nil =>
      cases hr
      exact hR
  | cons o ops ih =>
      obtain ⟨ho, hops⟩ := List.forall_mem_cons.mp hG
      obtain ⟨s₁, hs, hr⟩ := Option.bind_eq_some_iff.mp hr
      exact ih (hstep s t o s₁ hR ho hs) hops hr

/-- **Guards that say the same on both sides of a simulation**, over a run that succeeds. -/
theorem everySome_iff_everyStep {T : Type} {step : S → O → Option S} {step' : T → O → T}
    {R : S → T → Prop} {H : S → O → Prop} {G : T → O → Prop}
    (hstep : ∀ s t o s', R s t → step s o = some s' → R s' (step' t o))
    (hguard : ∀ s t o, R s t → (H s o ↔ G t o)) {s s' : S} {t : T} {ops : List O} (hR : R s t)
    (hr : runSome step s ops = some s') : EverySome step H s ops ↔ EveryStep step' G t ops := by
  induction ops generalizing s t with
  | nil => exact Iff.rfl
  | cons o ops ih =>
      obtain ⟨s₁, hs, hr⟩ := Option.bind_eq_some_iff.mp hr
      have ih := ih (hstep s t o s₁ hR hs) hr
      refine and_congr (hguard s t o hR) ⟨fun h => ih.mp (h s₁ hs), fun h s₂ hs₂ => ?_⟩
      cases hs.symm.trans hs₂
      exact ih.mpr h

/-- A property that every step that succeeds keeps. -/
theorem runSome_keeps {step : S → O → Option S} {P : S → Prop}
    (hstep : ∀ s o s', P s → step s o = some s' → P s') {s s' : S} {ops : List O} (h : P s)
    (hr : runSome step s ops = some s') : P s' := by
  induction ops generalizing s with
  | nil =>
      cases hr
      exact h
  | cons o ops ih =>
      obtain ⟨s₁, hs, hr⟩ := Option.bind_eq_some_iff.mp hr
      exact ih (hstep s o s₁ h hs) hr

/-! ## Runs with a budget -/

section Budget

variable {M : Type} [AddCommMonoid M]

/-- What the steps of a run cost, each in the state it finds. -/
def total (step : S → O → S) (c : S → O → M) : S → List O → M
  | _, [] => 0
  | s, o :: ops => c s o + total step c (step s o) ops

/-- Costs that do not look at the state. -/
theorem total_const (c : O → M) (s : S) (ops : List O) :
    total step (fun _ o => c o) s ops = (ops.map c).sum := by
  induction ops generalizing s with
  | nil => rfl
  | cons o ops ih =>
      rw [List.map_cons, List.sum_cons, ← ih (step s o)]
      rfl

variable [PartialOrder M] [CanonicallyOrderedAdd M]

/-- **A run within its budget returns**: each step that the budget pays for succeeds, and what is used
    grows by its cost. -/
theorem runSome_returns {T : Type} {step : S → O → Option S} {step' : T → O → T}
    {R : S → T → M → Prop} {G : T → O → Prop} {c : T → O → M} {bound : M}
    (hstep : ∀ s t o n, R s t n → G t o → n + c t o ≤ bound →
      ∃ s', step s o = some s' ∧ R s' (step' t o) (n + c t o)) {s : S} {t : T} {n : M} {ops : List O}
    (hR : R s t n) (hG : EveryStep step' G t ops) (hb : n + total step' c t ops ≤ bound) :
    ∃ s', runSome step s ops = some s' ∧ R s' (run step' t ops) (n + total step' c t ops) := by
  induction ops generalizing s t n with
  | nil =>
      refine ⟨s, rfl, ?_⟩
      rw [show n + total step' c t [] = n from add_zero n]
      exact hR
  | cons o ops ih =>
      have hsum : n + total step' c t (o :: ops) = n + c t o + total step' c (step' t o) ops :=
        (add_assoc ..).symm
      rw [hsum] at hb ⊢
      obtain ⟨s₁, hs₁, hR₁⟩ := hstep s t o n hR hG.1 (le_self_add.trans hb)
      obtain ⟨s', hs', hR'⟩ := ih hR₁ hG.2 hb
      refine ⟨s', ?_, hR'⟩
      show (step s o).bind _ = _
      rw [hs₁]
      exact hs'

end Budget

end Lib
