/-
  File:      BitprimDatabase/Lib/Walker.lean
  Subject:   A WALKER ON A CHAIN NEXT TO A WRITER. The walker reads one link at a time, while the
             writer puts items in front of the chain or skips them. A skipped item keeps its link,
             so a walker that stands on it comes back to the chain.

  * `Trail next ps V` -- `V` has the items of the chain and follows their links: whoever starts on
    the chain stays in `V`;
  * `Leads next V x` -- every item of `V` above `x` links to `x` or above it: whoever starts above
    `x` comes to `x`;
  * both hold of a chain (`Chain.trail`, `Chain.leads`), and are kept by a push (`Trail.push`,
    `Leads.push`), by a skip (`Trail.skip`, `Leads.skip`) and by a write elsewhere (`congr`).
-/
import BitprimDatabase.Lib.Chain

namespace Lib

variable {next next' : Nat → Option Nat} {ps : List Nat} {V : Nat → Prop} {x : Nat}

/-- **Where a walker may stand**: the chain, and what links lead to from there. -/
structure Trail (next : Nat → Option Nat) (ps : List Nat) (V : Nat → Prop) : Prop where
  chain : ∀ p ∈ ps, V p
  closed : ∀ p q, V p → next p = some q → V q

/-- **No way around `x`**, which is linked. -/
structure Leads (next : Nat → Option Nat) (ps : List Nat) (V : Nat → Prop) (x : Nat) : Prop where
  linked : x ∈ ps
  above : ∀ p, V p → x < p → ∃ q, next p = some q ∧ x ≤ q

/-- The link of a chain's item is the item behind it. -/
theorem Chain.next_eq {head : Option Nat} {xs ys : List Nat} {p : Nat}
    (h : Chain next head (xs ++ p :: ys)) : next p = ys.head? := h.after.head_eq

/-- The first item of a chain is the largest. -/
theorem Chain.head_le (hd : Descends next) {head : Option Nat} (h : Chain next head ps)
    (hx : x ∈ ps) : ∃ q, head = some q ∧ x ≤ q := by
  have hs := h.sorted hd
  cases h with
  | nil => cases hx
  | cons p ps _ =>
      refine ⟨p, rfl, ?_⟩
      rcases List.mem_cons.mp hx with rfl | hx
      · exact Nat.le_refl _
      · exact Nat.le_of_lt (List.rel_of_pairwise_cons hs hx)

theorem Chain.trail {head : Option Nat} (h : Chain next head ps) : Trail next ps (· ∈ ps) := by
  refine ⟨fun _ hp => hp, fun p q hp hn => ?_⟩
  obtain ⟨xs, ys, rfl⟩ := List.append_of_mem hp
  rw [h.next_eq] at hn
  exact List.mem_append_right _ (List.mem_cons_of_mem _ (List.mem_of_mem_head? hn))

theorem Chain.leads (hd : Descends next) {head : Option Nat} (h : Chain next head ps)
    (hx : x ∈ ps) : Leads next ps (· ∈ ps) x := by
  refine ⟨hx, fun p hp hlt => ?_⟩
  obtain ⟨xs, ys, rfl⟩ := List.append_of_mem hp
  have hs := h.sorted hd
  rw [List.pairwise_append] at hs
  have hys : x ∈ ys := by
    rcases List.mem_append.mp hx with hx | hx
    · have := hs.2.2 x hx p List.mem_cons_self
      omega
    · exact (List.mem_cons.mp hx).resolve_left (Nat.ne_of_lt hlt)
  exact h.after.head_le hd hys

/-! ## Writes -/

theorem Trail.congr (h : Trail next ps V) (he : ∀ p, V p → next' p = next p) : Trail next' ps V :=
  ⟨h.chain, fun p q hp hn => h.closed p q hp ((he p hp).symm.trans hn)⟩

theorem Leads.congr (h : Leads next ps V x) (he : ∀ p, V p → next' p = next p) :
    Leads next' ps V x :=
  ⟨h.linked, fun p hp hlt => (he p hp).symm ▸ h.above p hp hlt⟩

/-- A new item in front. -/
theorem Trail.push (h : Trail next ps V) {head : Option Nat} (hc : Chain next head ps) {n : Nat}
    (hn : next' n = head) (he : ∀ p, V p → next' p = next p) :
    Trail next' (n :: ps) fun p => V p ∨ p = n := by
  refine ⟨fun p hp => ?_, fun p q hp hq => .inl ?_⟩
  · rcases List.mem_cons.mp hp with rfl | hp
    · exact .inr rfl
    · exact .inl (h.chain p hp)
  · rcases hp with hp | rfl
    · exact h.closed p q hp ((he p hp).symm.trans hq)
    · rw [hn, hc.head_eq] at hq
      exact h.chain q (List.mem_of_mem_head? hq)

theorem Leads.push (h : Leads next ps V x) (hd : Descends next) {head : Option Nat}
    (hc : Chain next head ps) {n : Nat} (hn : next' n = head) (he : ∀ p, V p → next' p = next p) :
    Leads next' (n :: ps) (fun p => V p ∨ p = n) x := by
  refine ⟨List.mem_cons_of_mem _ h.linked, fun p hp hlt => ?_⟩
  rcases hp with hp | rfl
  · rw [he p hp]
    exact h.above p hp hlt
  · rw [hn]
    exact hc.head_le hd h.linked

section Skip

variable {xs ys : List Nat} {p : Nat}
  (hnext : ∀ q, next' q = next q ∨ (∃ ws, xs = ws ++ [q]) ∧ next' q = next p)
include hnext

/-- An item is skipped: at most the link in front of it is written. -/
theorem Trail.skip (h : Trail next (xs ++ p :: ys) V) : Trail next' (xs ++ ys) V := by
  have hp : V p := h.chain p (List.mem_append_right _ List.mem_cons_self)
  refine ⟨fun q hq => h.chain q ?_, fun q q' hq hq' => ?_⟩
  · rcases List.mem_append.mp hq with hq | hq
    · exact List.mem_append_left _ hq
    · exact List.mem_append_right _ (List.mem_cons_of_mem _ hq)
  · rcases hnext q with he | ⟨_, he⟩
    · exact h.closed q q' hq (he.symm.trans hq')
    · exact h.closed p q' hp (he.symm.trans hq')

/-- The item in front of the skipped one led to `x` past it, for `x` is still linked. -/
theorem Leads.skip (h : Leads next (xs ++ p :: ys) V x) (ht : Trail next (xs ++ p :: ys) V)
    {head : Option Nat} (hc : Chain next head (xs ++ p :: ys)) (hx : x ∈ xs ++ ys)
    (hxp : x ≠ p) : Leads next' (xs ++ ys) V x := by
  refine ⟨hx, fun q hq hlt => ?_⟩
  rcases hnext q with he | ⟨⟨ws, rfl⟩, he⟩
  · rw [he]
    exact h.above q hq hlt
  · have hqp : next q = some p := by
      rw [List.append_assoc] at hc
      exact hc.next_eq
    obtain ⟨p', hp', hle⟩ := h.above q hq hlt
    rw [hqp] at hp'
    cases hp'
    rw [he]
    exact h.above p (ht.closed q p hq hqp) (Nat.lt_of_le_of_ne hle hxp)

end Skip

end Lib
