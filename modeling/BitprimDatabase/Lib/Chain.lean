/-
  File:      BitprimDatabase/Lib/Chain.lean
  Subject:   CHAINS OF LINKED ITEMS IN A STORE. A store of items is read through a map `next`
             from a position to the position it links to; a chain is what following `next` from a
             head visits. Nothing here knows what an item holds.

  * `Chain next head ps` -- following `next` from `head` visits exactly the positions `ps`;
  * `Descends next` -- every link goes to a smaller position (items are allocated after the
    items they link to), so chains are finite, sorted and free of repetitions;
  * `walk` -- the executable traversal with fuel; `chain_walk` says it is the chain;
  * `Chain.suffix`, `Chain.comparable` -- the chains from the items of one chain are nested;
  * `Chain.congr`, `Chain.skip`, `Chain.splice` -- a write outside a chain keeps it, a write that
    skips one item removes exactly that item.
-/
import Mathlib.Data.List.Nodup
import Mathlib.Logic.Function.Basic

namespace Lib

/-- Following `next` from `head` visits exactly the positions `ps`, in this order. -/
inductive Chain (next : Nat → Option Nat) : Option Nat → List Nat → Prop where
  | nil : Chain next none []
  | cons (p : Nat) (ps : List Nat) (h : Chain next (next p) ps) : Chain next (some p) (p :: ps)

/-- Every link goes to a smaller position. -/
def Descends (next : Nat → Option Nat) : Prop := ∀ p q, next p = some q → q < p

/-- The traversal from `head`, at most `fuel` items long. -/
def walk (next : Nat → Option Nat) : Nat → Option Nat → List Nat
  | 0, _ => []
  | _ + 1, none => []
  | fuel + 1, some p => p :: walk next fuel (next p)

variable {next next' : Nat → Option Nat}

namespace Chain

theorem unique {head : Option Nat} {ps qs : List Nat} (h : Chain next head ps)
    (h' : Chain next head qs) : ps = qs := by
  induction h generalizing qs with
  | nil => cases h'; rfl
  | cons p ps _ ih =>
      cases h' with
      | cons _ qs h' => rw [ih h']

/-- A chain is nonempty exactly when its head is a position. -/
theorem head_eq {head : Option Nat} {ps : List Nat} (h : Chain next head ps) :
    head = ps.head? := by
  cases h <;> rfl

/-- What follows an inner item is the chain from that item's link. -/
theorem after {head : Option Nat} {xs ys : List Nat} {p : Nat}
    (h : Chain next head (xs ++ p :: ys)) : Chain next (next p) ys := by
  induction xs generalizing head with
  | nil => cases h; assumption
  | cons x xs ih => cases h with | cons _ _ h => exact ih h

theorem tail {head : Option Nat} {ps : List Nat} {p : Nat} (h : Chain next head (p :: ps)) :
    Chain next (next p) ps := by
  have h' : Chain next head ([] ++ p :: ps) := h
  exact h'.after

/-- The chain from an inner item is what is left of the chain. -/
theorem suffix {head : Option Nat} {ps qs : List Nat} {p : Nat} (h : Chain next head ps)
    (hp : p ∈ ps) (hq : Chain next (some p) qs) : qs <:+ ps := by
  obtain ⟨xs, ys, rfl⟩ := List.append_of_mem hp
  cases hq with
  | cons _ qs hq =>
      rw [hq.unique h.after]
      exact List.suffix_append xs (p :: ys)

/-- **Of two items of a chain one is on the chain from the other.** -/
theorem comparable {head : Option Nat} {ps qs rs : List Nat} {p q : Nat} (h : Chain next head ps)
    (hp : p ∈ ps) (hq : q ∈ ps) (hcp : Chain next (some p) qs) (hcq : Chain next (some q) rs) :
    p ∈ rs ∨ q ∈ qs := by
  have hmem {p : Nat} {qs : List Nat} (hc : Chain next (some p) qs) : p ∈ qs := by
    cases hc
    exact List.mem_cons_self
  rcases List.suffix_or_suffix_of_suffix (h.suffix hp hcp) (h.suffix hq hcq) with hs | hs
  · exact .inl (hs.subset (hmem hcp))
  · exact .inr (hs.subset (hmem hcq))

/-- The items of a chain only depend on their own links. -/
theorem congr {head : Option Nat} {ps : List Nat} (h : Chain next head ps)
    (he : ∀ p ∈ ps, next' p = next p) : Chain next' head ps := by
  induction h with
  | nil => exact .nil
  | cons p ps _ ih =>
      refine .cons p ps ?_
      rw [he p List.mem_cons_self]
      exact ih fun q hq => he q (List.mem_cons_of_mem _ hq)

/-- A chain of descending links is strictly sorted. -/
theorem sorted (hd : Descends next) {head : Option Nat} {ps : List Nat}
    (h : Chain next head ps) : ps.Pairwise (· > ·) := by
  induction h with
  | nil => exact .nil
  | cons p ps h ih =>
      refine List.Pairwise.cons (fun q hq => ?_) ih
      cases h' : next p with
      | none => rw [h'] at h; cases h; exact absurd hq List.not_mem_nil
      | some r =>
          have hr : r < p := hd p r h'
          rw [h'] at h
          cases h with
          | cons _ rs h =>
              rcases List.mem_cons.mp hq with rfl | hq
              · exact hr
              · exact Nat.lt_trans (List.rel_of_pairwise_cons ih hq) hr

theorem nodup (hd : Descends next) {head : Option Nat} {ps : List Nat}
    (h : Chain next head ps) : ps.Nodup :=
  (h.sorted hd).imp fun hpq => (Nat.ne_of_lt hpq).symm

/-- Descending links stay below a bound of the head. -/
theorem mem_lt (hd : Descends next) {head : Option Nat} {ps : List Nat}
    (h : Chain next head ps) {n : Nat} (hh : ∀ p, head = some p → p < n) : ∀ p ∈ ps, p < n := by
  induction h with
  | nil => exact fun _ hq => absurd hq List.not_mem_nil
  | cons p ps _ ih =>
      have hp := hh p rfl
      intro q hq
      rcases List.mem_cons.mp hq with rfl | hq
      · exact hp
      · exact ih (fun r hr => Nat.lt_trans (hd p r hr) hp) q hq

/-- **Skipping an item**: writing the link of `x` into its predecessor `p` removes exactly `x`
    from a chain without repetitions. -/
theorem skip {head : Option Nat} {xs ys : List Nat} {p x : Nat}
    (h : Chain next head (xs ++ p :: x :: ys)) (hn : (xs ++ p :: x :: ys).Nodup) :
    Chain (Function.update next p (next x)) head (xs ++ p :: ys) := by
  induction xs generalizing head with
  | nil =>
      cases h with
      | cons _ _ h =>
          refine .cons p ys ?_
          rw [Function.update_self]
          have hx : Chain next (next x) ys := by
            have h' : Chain next (next p) ([] ++ x :: ys) := h
            exact h'.after
          refine hx.congr fun q hq => Function.update_of_ne ?_ _ _
          rintro rfl
          simp at hn
          exact hn.1.2 hq
  | cons y xs ih =>
      cases h with
      | cons _ _ h =>
          have hy : y ≠ p := by
            rintro rfl
            simp at hn
          refine .cons y _ ?_
          rw [Function.update_of_ne hy]
          exact ih h (List.nodup_cons.mp hn).2

/-- Descending links do not repeat. -/
theorem splice (hd : Descends next) {head : Option Nat} {xs ys : List Nat} {p x : Nat}
    (h : Chain next head (xs ++ p :: x :: ys)) :
    Chain (Function.update next p (next x)) head (xs ++ p :: ys) := h.skip (h.nodup hd)

end Chain

/-- **With fuel above the head the traversal is the chain.** -/
theorem chain_walk (hd : Descends next) (fuel : Nat) (head : Option Nat)
    (hf : ∀ p, head = some p → p < fuel) : Chain next head (walk next fuel head) := by
  induction fuel generalizing head with
  | zero =>
      cases head with
      | none => exact .nil
      | some p => exact absurd (hf p rfl) (Nat.not_lt_zero p)
  | succ fuel ih =>
      cases head with
      | none => exact .nil
      | some p =>
          refine .cons p _ (ih (next p) fun q hq => ?_)
          have := hd p q hq
          have := hf p rfl
          omega

/-- A chain is what the traversal computes. -/
theorem walk_of_chain (hd : Descends next) {fuel : Nat} {head : Option Nat} {ps : List Nat}
    (h : Chain next head ps) (hf : ∀ p, head = some p → p < fuel) : walk next fuel head = ps :=
  (chain_walk hd fuel head hf).unique h

end Lib
