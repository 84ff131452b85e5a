/-
  File:      BitprimDatabase/Primitives/TableImage.lean
  Subject:   TWO VIEWS OF A HASH TABLE that keep every position.

  * `mapValues` -- the same items with their values coded; `find`, `store` and a write of a value
    go along with it, and the stacks are the coded stacks;
  * `linked` -- the items that a bucket leads to; an item that was unlinked is gone, the chains and
    the stacks stay.

  NOT here: that a file holds the view; that is `TableFile.Rep.linked` of AddRowsFile.lean.
-/
import BitprimDatabase.Primitives.HashTable

namespace Libbitcoin.Database

open Lib

namespace HashTable

variable {K V W : Type}

/-! ## 1. Coded values -/

/-- The table with its values coded, position by position. -/
def mapValues (code : V → W) (t : HashTable K V) : HashTable K W where
  size := t.size
  hash := t.hash
  bucket := t.bucket
  row p := (t.row p).map fun r => ⟨r.key, r.next, code r.value⟩
  free := t.free

variable {code : V → W} {t : HashTable K V}

theorem mapValues_row {p : Nat} {r : Row K V} (hr : t.row p = some r) :
    (t.mapValues code).row p = some ⟨r.key, r.next, code r.value⟩ :=
  congrArg (Option.map _) hr

/-- An item of the coded table is the code of an item. -/
theorem row_of_mapValues {p : Nat} {r : Row K W} (hr : (t.mapValues code).row p = some r) :
    ∃ r₀, t.row p = some r₀ ∧ r = ⟨r₀.key, r₀.next, code r₀.value⟩ := by
  obtain ⟨r₀, hr₀, he⟩ := Option.map_eq_some_iff.mp hr
  exact ⟨r₀, hr₀, he.symm⟩

@[simp] theorem mapValues_next (code : V → W) (t : HashTable K V) (p : Nat) :
    (t.mapValues code).next p = t.next p := by
  show ((t.row p).map _).bind Row.next = (t.row p).bind Row.next
  cases t.row p <;> rfl

theorem WF.mapValues (h : t.WF) (code : V → W) : (t.mapValues code).WF where
  row_lt p r hr := by
    obtain ⟨r₀, hr₀, _⟩ := row_of_mapValues hr
    exact h.row_lt p r₀ hr₀
  next_row p r q hr hn := by
    obtain ⟨r₀, hr₀, rfl⟩ := row_of_mapValues hr
    obtain ⟨hlt, r', hr', hb⟩ := h.next_row p r₀ q hr₀ hn
    exact ⟨hlt, _, mapValues_row hr', hb⟩
  bucket_row b p hb := by
    obtain ⟨r, hr, hi⟩ := h.bucket_row b p hb
    exact ⟨_, mapValues_row hr, hi⟩

theorem mapValues_chain (code : V → W) (t : HashTable K V) (b : Nat) :
    (t.mapValues code).chain b = t.chain b := by
  have hnext : (t.mapValues code).next = t.next := funext (mapValues_next code t)
  unfold chain
  rw [hnext]
  rfl

theorem mapValues_store (code : V → W) (t : HashTable K V) (key : K) (value : V) (extent : Nat) :
    ((t.store key value extent).1).mapValues code =
      ((t.mapValues code).store key (code value) extent).1 := by
  have hrow (p : Nat) : (((t.store key value extent).1).mapValues code).row p =
      (((t.mapValues code).store key (code value) extent).1).row p := by
    show ((t.store key value extent).1.row p).map _ = _
    rw [store_row, store_row, show (t.mapValues code).free = t.free from rfl]
    split <;> rfl
  unfold mapValues at hrow ⊢
  exact congrArg (fun row => HashTable.mk _ _ _ row _) (funext hrow)

/-- A write of one value. -/
theorem mapValues_writeValue (code : V → W) (t : HashTable K V) (p : Nat) (value : V) :
    (t.writeValue p fun _ => value).mapValues code =
      (t.mapValues code).writeValue p fun _ => code value := by
  have hrow (q : Nat) : ((t.writeValue p fun _ => value).mapValues code).row q =
      ((t.mapValues code).writeValue p fun _ => code value).row q := by
    by_cases hq : q = p
    · subst hq
      simp only [mapValues, writeValue, Function.update_self, Option.map_map]
      rfl
    · simp only [mapValues, writeValue, Function.update_of_ne hq]
  unfold mapValues at hrow ⊢
  exact congrArg (fun row => HashTable.mk _ _ _ row _) (funext hrow)

section Find

variable [DecidableEq K]

theorem mapValues_valueFor (code : V → W) (t : HashTable K V) (key : K) (p : Nat) :
    (t.mapValues code).valueFor key p = (t.valueFor key p).map code := by
  show ((t.row p).map _).bind _ = ((t.row p).bind _).map code
  cases t.row p with
  | none => rfl
  | some r =>
      by_cases hk : r.key = key <;> simp [hk]

/-- **The search does not look at the values.** -/
theorem WF.mapValues_find (h : t.WF) (code : V → W) (key : K) :
    (t.mapValues code).find key = t.find key := by
  rw [(h.mapValues code).find_eq, h.find_eq, mapValues_chain]
  refine List.find?_congr fun p _ => ?_
  rw [mapValues_valueFor, Option.isSome_map]

/-- **The stacks are the coded stacks.** -/
theorem mapValues_stack (code : V → W) (t : HashTable K V) (key : K) :
    (t.mapValues code).stack key = (t.stack key).map code := by
  show ((t.mapValues code).chain _).filterMap _ = _
  rw [mapValues_chain, stack, List.map_filterMap]
  exact List.filterMap_congr fun p _ => mapValues_valueFor code t key p

end Find

/-! ## 2. Linked items -/

/-- The table without the items no bucket leads to. -/
def linked (t : HashTable K V) : HashTable K V :=
  { t with row := fun p => (t.row p).filter fun r => decide (p ∈ t.chain (t.bucketIndex r.key)) }

theorem linked_row {p : Nat} {r : Row K V} :
    t.linked.row p = some r ↔ t.row p = some r ∧ p ∈ t.chain (t.bucketIndex r.key) := by
  show (t.row p).filter _ = some r ↔ _
  rw [Option.filter_eq_some_iff, decide_eq_true_eq]

theorem WF.linked_of_mem (h : t.WF) {b p : Nat} (hp : p ∈ t.chain b) :
    ∃ r, t.row p = some r ∧ t.linked.row p = some r ∧ t.bucketIndex r.key = b := by
  obtain ⟨r, hr, hb⟩ := h.mem_chain hp
  exact ⟨r, hr, linked_row.mpr ⟨hr, hb.symm ▸ hp⟩, hb⟩

theorem WF.linked (h : t.WF) : t.linked.WF where
  row_lt p r hr := h.row_lt p r (linked_row.mp hr).1
  next_row p r q hr hn := by
    obtain ⟨hr, hp⟩ := linked_row.mp hr
    obtain ⟨hlt, r', hr', hb⟩ := h.next_row p r q hr hn
    obtain ⟨xs, ys, he⟩ := List.append_of_mem hp
    have hafter : Chain t.next (t.next p) ys := Chain.after (he ▸ h.chain _)
    have hq : q ∈ t.chain (t.bucketIndex r.key) := by
      rw [he]
      have hnext : t.next p = some q := by rw [HashTable.next, hr, Option.bind_some, hn]
      rw [hnext] at hafter
      cases hafter
      exact List.mem_append_right _ (List.mem_cons_of_mem _ List.mem_cons_self)
    exact ⟨hlt, r', linked_row.mpr ⟨hr', hb.symm ▸ hq⟩, hb⟩
  bucket_row b p hb := by
    obtain ⟨r, _, hr, hk⟩ := h.linked_of_mem (h.mem_chain_bucket hb)
    exact ⟨r, hr, hk⟩

theorem WF.linked_chain (h : t.WF) (b : Nat) : t.linked.chain b = t.chain b := by
  refine h.linked.chain_eq ((h.chain b).congr fun p hp => ?_)
  obtain ⟨r, hr, hr', _⟩ := h.linked_of_mem hp
  rw [HashTable.next, HashTable.next, hr, hr']

/-- **Every linked item stays**, so do the stacks. -/
theorem WF.linked_stack_eq [DecidableEq K] (h : t.WF) (key : K) :
    t.linked.stack key = t.stack key := by
  show (t.linked.chain (t.bucketIndex key)).filterMap _ = _
  rw [h.linked_chain]
  refine List.filterMap_congr fun p hp => ?_
  obtain ⟨r, hr, hr', _⟩ := h.linked_of_mem hp
  rw [valueFor, valueFor, hr, hr']

/-- An item of the table is in the stack of its key. -/
theorem linked_mem_stack [DecidableEq K] {p : Nat} {r : Row K V}
    (hr : t.linked.row p = some r) : r.value ∈ t.stack r.key := by
  obtain ⟨hr, hp⟩ := linked_row.mp hr
  exact List.mem_filterMap.mpr ⟨p, hp, valueFor_eq_some.mpr ⟨r, hr, rfl, rfl⟩⟩

end HashTable

end Libbitcoin.Database
