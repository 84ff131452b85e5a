/-
  File:      BitprimDatabase/Lib/Stacks.lean
  Subject:   KEYED STACKS, the abstract meaning of a table that allows duplicate keys: every key
             has a stack of values, a store pushes, an unlink pops, a write in place edits the
             top. The laws below are about sequences of such edits.

  * `push`, `pop`, `modifyTop` and what each does to one key and to the others;
  * `pushAll`, `popAll` -- a list of edits; `pushAll_apply` reads one key after a list of pushes;
  * `pushAll_perm`, `pushAll_perm_of_nodup` -- the same pushes in another order;
  * **`popAll_pushAll`** -- popping the keys of a list of pushes in the reverse order restores
    every stack: the law behind "undo in the reverse order of how they were added";
    `popAll_pushAll_perm` -- and so does any other order.
-/
import Mathlib.Data.List.Perm.Basic
import Mathlib.Logic.Function.Basic
import BitprimDatabase.Lib.Run

namespace Lib

/-- A stack of values, newest first, for every key. -/
abbrev Stacks (K V : Type) := K → List V

namespace Stacks

variable {K V : Type} [DecidableEq K]

def push (s : Stacks K V) (k : K) (v : V) : Stacks K V := Function.update s k (v :: s k)

def pop (s : Stacks K V) (k : K) : Stacks K V := Function.update s k (s k).tail

def modifyTop (s : Stacks K V) (k : K) (f : V → V) : Stacks K V :=
  Function.update s k ((s k).modifyHead f)

@[simp] theorem push_same (s : Stacks K V) (k : K) (v : V) : push s k v k = v :: s k :=
  Function.update_self ..

@[simp] theorem push_ne (s : Stacks K V) {k k' : K} (v : V) (h : k' ≠ k) : push s k v k' = s k' :=
  Function.update_of_ne h ..

@[simp] theorem pop_same (s : Stacks K V) (k : K) : pop s k k = (s k).tail :=
  Function.update_self ..

@[simp] theorem pop_ne (s : Stacks K V) {k k' : K} (h : k' ≠ k) : pop s k k' = s k' :=
  Function.update_of_ne h ..

@[simp] theorem modifyTop_same (s : Stacks K V) (k : K) (f : V → V) :
    modifyTop s k f k = (s k).modifyHead f :=
  Function.update_self ..

@[simp] theorem modifyTop_ne (s : Stacks K V) {k k' : K} (f : V → V) (h : k' ≠ k) :
    modifyTop s k f k' = s k' :=
  Function.update_of_ne h ..

theorem length_le_push (s : Stacks K V) (k : K) (v : V) (k' : K) :
    (s k').length ≤ (push s k v k').length := by
  by_cases h : k' = k
  · subst h
    simp
  · simp [h]

/-- A push hides nothing. -/
theorem mem_push {s : Stacks K V} {k k' : K} {v w : V} (h : w ∈ s k') : w ∈ push s k v k' := by
  by_cases hk : k' = k
  · subst hk
    rw [push_same]
    exact List.mem_cons_of_mem _ h
  · rw [push_ne _ _ hk]
    exact h

theorem mem_of_mem_push {s : Stacks K V} {k k' : K} {v w : V} (h : w ∈ push s k v k') :
    (k' = k ∧ w = v) ∨ w ∈ s k' := by
  by_cases hk : k' = k
  · subst hk
    rw [push_same] at h
    exact (List.mem_cons.mp h).imp (⟨rfl, ·⟩) id
  · rw [push_ne _ _ hk] at h
    exact .inr h

theorem mem_of_mem_pop {s : Stacks K V} {k k' : K} {w : V} (h : w ∈ pop s k k') : w ∈ s k' := by
  by_cases hk : k' = k
  · subst hk
    rw [pop_same] at h
    exact List.mem_of_mem_tail h
  · rwa [pop_ne _ hk] at h

/-- A pop of a key without values changes nothing. -/
theorem pop_of_nil {s : Stacks K V} {k : K} (h : s k = []) : pop s k = s := by
  funext k'
  by_cases hk : k' = k
  · subst hk
    rw [pop_same, h]
    rfl
  · rw [pop_ne _ hk]

/-- An edit of one top leaves everything else. -/
theorem mem_of_mem_modifyTop {s : Stacks K V} {k k' : K} {f : V → V} {w : V}
    (h : w ∈ modifyTop s k f k') :
    (k' = k ∧ ∃ top, (s k).head? = some top ∧ w = f top) ∨ w ∈ s k' := by
  by_cases hk : k' = k
  · subst hk
    rw [modifyTop_same] at h
    cases hs : s k' with
    | nil =>
        rw [hs] at h
        cases h
    | cons top rest =>
        rw [hs, List.modifyHead_cons] at h
        rcases List.mem_cons.mp h with rfl | h
        · exact .inl ⟨rfl, top, rfl, rfl⟩
        · exact .inr (List.mem_cons_of_mem _ h)
  · rw [modifyTop_ne _ _ hk] at h
    exact .inr h

/-- The top of a stack after an edit of one top. -/
theorem modifyTop_head (s : Stacks K V) (k : K) (f : V → V) (k' : K) :
    (modifyTop s k f k').head? = if k' = k then (s k').head?.map f else (s k').head? := by
  by_cases h : k' = k
  · subst h
    cases hs : s k' <;> simp [hs]
  · simp [h]

/-- The top of a stack after a push. -/
theorem push_head (s : Stacks K V) (k : K) (v : V) (k' : K) :
    (push s k v k').head? = if k' = k then some v else (s k').head? := by
  by_cases h : k' = k
  · subst h
    simp
  · simp [h]

/-- A pop undoes the push before it. -/
@[simp] theorem pop_push (s : Stacks K V) (k : K) (v : V) : pop (push s k v) k = s := by
  unfold pop push
  simp

/-! ## Sequences of edits -/

/-- Push a list of keyed values, the first one first. -/
def pushAll (s : Stacks K V) (l : List (K × V)) : Stacks K V :=
  l.foldl (fun s kv => push s kv.1 kv.2) s

/-- Pop a list of keys, the first one first. -/
def popAll (s : Stacks K V) (ks : List K) : Stacks K V := ks.foldl pop s

@[simp] theorem pushAll_nil (s : Stacks K V) : pushAll s [] = s := rfl

@[simp] theorem pushAll_cons (s : Stacks K V) (kv : K × V) (l : List (K × V)) :
    pushAll s (kv :: l) = pushAll (push s kv.1 kv.2) l := rfl

@[simp] theorem popAll_nil (s : Stacks K V) : popAll s [] = s := rfl

@[simp] theorem popAll_cons (s : Stacks K V) (k : K) (ks : List K) :
    popAll s (k :: ks) = popAll (pop s k) ks := rfl

theorem pushAll_append (s : Stacks K V) (l l' : List (K × V)) :
    pushAll s (l ++ l') = pushAll (pushAll s l) l' := List.foldl_append ..

theorem popAll_append (s : Stacks K V) (ks ks' : List K) :
    popAll s (ks ++ ks') = popAll (popAll s ks) ks' := List.foldl_append ..

/-- **Undo in reverse order**: popping the keys of a list of pushes, the last one first, restores
    every stack -- whatever keys repeat in the list. -/
theorem popAll_pushAll (s : Stacks K V) (l : List (K × V)) :
    popAll (pushAll s l) (l.map Prod.fst).reverse = s := by
  induction l generalizing s with
  | nil => rfl
  | cons kv l ih => simp [popAll_append, ih]

/-- One key after a list of pushes: the values pushed for it, newest first, over what it held. -/
theorem pushAll_apply (s : Stacks K V) (l : List (K × V)) (k : K) :
    pushAll s l k = ((l.filter (fun kv => kv.1 = k)).map Prod.snd).reverse ++ s k := by
  induction l generalizing s with
  | nil => rfl
  | cons kv l ih =>
      rw [pushAll_cons, ih]
      by_cases h : kv.1 = k
      · subst h
        simp
      · simp [h, push_ne s kv.2 (Ne.symm h)]

theorem mem_pushAll {s : Stacks K V} {l : List (K × V)} {k : K} {v : V} :
    v ∈ pushAll s l k ↔ (k, v) ∈ l ∨ v ∈ s k := by
  rw [pushAll_apply, List.mem_append, List.mem_reverse, List.mem_map]
  refine or_congr_left ⟨?_, fun h => ⟨(k, v), List.mem_filter.mpr ⟨h, by simp⟩, rfl⟩⟩
  rintro ⟨⟨k', v'⟩, h, rfl⟩
  obtain ⟨hm, he⟩ := List.mem_filter.mp h
  have he : k' = k := by simpa using he
  exact he ▸ hm

/-- A key that no push names keeps its stack. -/
theorem pushAll_of_notMem (s : Stacks K V) (l : List (K × V)) {k : K}
    (h : k ∉ l.map Prod.fst) : pushAll s l k = s k := by
  rw [pushAll_apply, List.filter_eq_nil_iff.mpr]
  · rfl
  · rintro ⟨k', v⟩ hm
    have : k' ≠ k := fun e => h (e ▸ List.mem_map_of_mem (f := Prod.fst) hm)
    simpa using this

/-- A push of a list with distinct keys ends up on top of its key. -/
theorem pushAll_of_mem (s : Stacks K V) {l : List (K × V)} (hn : (l.map Prod.fst).Nodup)
    {kv : K × V} (h : kv ∈ l) : pushAll s l kv.1 = kv.2 :: s kv.1 := by
  induction l generalizing s with
  | nil => cases h
  | cons kv' l ih =>
      obtain ⟨hnot, hn⟩ := List.nodup_cons.mp hn
      rw [pushAll_cons]
      rcases List.mem_cons.mp h with rfl | h
      · rw [pushAll_of_notMem _ _ hnot, push_same]
      · have hne : kv.1 ≠ kv'.1 := fun he =>
          hnot (he ▸ List.mem_map_of_mem (f := Prod.fst) h)
        rw [ih _ hn h, push_ne _ _ hne]

/-- One key after a list of pops. -/
theorem popAll_apply (s : Stacks K V) (ks : List K) (k : K) :
    popAll s ks k = (s k).drop (ks.count k) := by
  induction ks generalizing s with
  | nil => rfl
  | cons k' ks ih =>
      rw [popAll_cons, ih]
      by_cases h : k' = k
      · subst h
        rw [pop_same, List.count_cons_self, List.drop_tail]
      · rw [pop_ne _ (Ne.symm h), List.count_cons_of_ne h]

/-- Popping the keys of a list of pushes restores every stack, in whatever order they are popped. -/
theorem popAll_pushAll_perm (s : Stacks K V) {l : List (K × V)} {ks : List K}
    (h : (l.map Prod.fst).Perm ks) : popAll (pushAll s l) ks = s := by
  funext k
  rw [popAll_apply, ← h.count_eq k, ← List.count_reverse, ← popAll_apply, popAll_pushAll]

/-- Popping keys in another order leaves the same stacks. -/
theorem popAll_perm (s : Stacks K V) {ks ks' : List K} (h : ks.Perm ks') :
    popAll s ks = popAll s ks' := by
  funext k
  rw [popAll_apply, popAll_apply, h.count_eq]

/-- Reordering a list of pushes permutes each stack at most. -/
theorem pushAll_perm (s : Stacks K V) {l l' : List (K × V)} (h : l.Perm l') (k : K) :
    (pushAll s l k).Perm (pushAll s l' k) := by
  rw [pushAll_apply, pushAll_apply]
  refine List.Perm.append_right _ ?_
  exact (List.reverse_perm _).trans
    (((h.filter _).map _).trans (List.reverse_perm _).symm)

/-- With distinct keys the order of the pushes does not matter. -/
theorem pushAll_perm_of_nodup (s : Stacks K V) {l l' : List (K × V)} (h : l.Perm l')
    (hn : (l.map Prod.fst).Nodup) : pushAll s l = pushAll s l' := by
  induction h generalizing s with
  | nil => rfl
  | cons kv _ ih => exact ih _ (List.nodup_cons.mp hn).2
  | swap kv kv' l =>
      have hne : kv.1 ≠ kv'.1 := fun he => (List.nodup_cons.mp hn).1 (by simp [he])
      have hcomm : push (push s kv'.1 kv'.2) kv.1 kv.2 = push (push s kv.1 kv.2) kv'.1 kv'.2 := by
        unfold push
        rw [Function.update_of_ne hne, Function.update_of_ne hne.symm, Function.update_comm hne]
      rw [pushAll_cons, pushAll_cons, pushAll_cons, pushAll_cons, hcomm]
  | trans h _ ih ih' => rw [ih s hn, ih' s ((h.map Prod.fst).nodup_iff.mp hn)]

/-! ## Views -/

section View

variable {D X : Type} (view : D → Stacks K V) (f : D → X → D)

/-- A loop whose steps push rows pushes the rows of all its steps. -/
theorem foldl_pushAll (rows : X → List (K × V))
    (h : ∀ d x, view (f d x) = pushAll (view d) (rows x)) (d : D) (l : List X) :
    view (l.foldl f d) = pushAll (view d) (l.flatMap rows) :=
  run_flatMap (I := fun _ => True) (fun d x _ => ⟨True.intro, h d x⟩) l True.intro

/-- A loop whose steps pop keys pops the keys of all its steps. -/
theorem foldl_popAll (keys : X → List K)
    (h : ∀ d x, view (f d x) = popAll (view d) (keys x)) (d : D) (l : List X) :
    view (l.foldl f d) = popAll (view d) (l.flatMap keys) :=
  run_flatMap (I := fun _ => True) (fun d x _ => ⟨True.intro, h d x⟩) l True.intro

end View

end Stacks

end Lib
