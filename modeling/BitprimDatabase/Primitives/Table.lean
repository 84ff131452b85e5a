/-
  File:      BitprimDatabase/Primitives/Table.lean
  Subject:   THE HASH TABLE WITH ITS INVARIANT AS A FIELD. The databases hold a `Table`, so no
             state of theirs has a malformed chain, and what a call does to a table is said by
             its stacks alone.
-/
import BitprimDatabase.Primitives.HashTable

namespace Libbitcoin.Database

open Lib

/-- A hash table that keeps the representation invariant. -/
structure Table (K V : Type) extends HashTable K V where
  wf : toHashTable.WF

namespace Table

variable {K V : Type}

def create (hash : K → Nat) (size first : Nat) : Table K V :=
  ⟨HashTable.create hash size first, HashTable.create_wf hash size first⟩

/-- `store`, with an allocation of positive extent. -/
def store (t : Table K V) (key : K) (value : V) (extent : Nat) (h : 0 < extent) : Table K V :=
  ⟨(t.toHashTable.store key value extent).1, t.wf.store key value h⟩

variable [DecidableEq K]

/-- The values linked for a key, newest first. -/
def stack (t : Table K V) : Stacks K V := t.toHashTable.stack

/-- The value `find` points at. -/
def get (t : Table K V) (key : K) : Option V := t.toHashTable.get key

/-- Write through the memory `find` returned; a key without an item is left alone. -/
def write (t : Table K V) (key : K) (write : V → V) : Table K V :=
  match t.find key with
  | none => t
  | some p => ⟨t.writeValue p write, t.wf.writeValue p write⟩

/-- The guarded unlink of the callers: `find` first, and `unlink` only where it found an item. -/
def unlinkIfFound (t : Table K V) (key : K) : Table K V × Bool :=
  match t.find key with
  | none => (t, false)
  | some _ =>
    match h : t.unlink key with
    | none => (t, false)
    | some (t', b) => (⟨t', t.wf.unlink h⟩, b)

@[simp] theorem create_stack (hash : K → Nat) (size first : Nat) (key : K) :
    (create hash size first : Table K V).stack key = [] :=
  HashTable.create_stack hash size first key

@[simp] theorem store_stack (t : Table K V) (key : K) (value : V) (extent : Nat)
    (h : 0 < extent) : (t.store key value extent h).stack = t.stack.push key value :=
  t.wf.store_stack key value h

theorem get_eq (t : Table K V) (key : K) : t.get key = (t.stack key).head? := t.wf.get_eq key

@[simp] theorem write_stack (t : Table K V) (key : K) (f : V → V) :
    (t.write key f).stack = t.stack.modifyTop key f := by
  unfold write
  cases hf : t.find key with
  | none =>
      have hs : t.stack key = [] := t.wf.find_none.mp hf
      funext k
      by_cases hk : k = key
      · subst hk
        simp [hs]
      · simp [hk]
  | some p => exact t.wf.writeValue_stack hf f

/-- **The guarded unlink pops the key's stack**, and answers whether there was anything to pop. -/
theorem unlinkIfFound_spec (t : Table K V) (key : K) :
    (t.unlinkIfFound key).1.stack = t.stack.pop key ∧
      (t.unlinkIfFound key).2 = !(t.stack key).isEmpty := by
  unfold unlinkIfFound
  cases hs : t.stack key with
  | nil =>
      have hf : t.find key = none := t.wf.find_none.mpr hs
      refine ⟨?_, by simp [hf]⟩
      simp only [hf]
      funext k
      by_cases hk : k = key
      · subst hk
        simp [hs]
      · simp [hk]
  | cons v vs =>
      obtain ⟨p, hf⟩ := t.wf.find_isSome hs
      obtain ⟨t', hu, _, hst⟩ := t.wf.unlink_stack hs
      simp only [hf]
      split
      · rename_i h
        rw [hu] at h
        cases h
      · rename_i t'' b h
        rw [hu] at h
        cases h
        exact ⟨hst, rfl⟩

@[simp] theorem unlinkIfFound_stack (t : Table K V) (key : K) :
    (t.unlinkIfFound key).1.stack = t.stack.pop key := (t.unlinkIfFound_spec key).1

@[simp] theorem unlinkIfFound_result (t : Table K V) (key : K) :
    (t.unlinkIfFound key).2 = !(t.stack key).isEmpty := (t.unlinkIfFound_spec key).2

/-! ## Items -/

/-- A value the table answers is the value of an item. -/
theorem get_eq_some {t : Table K V} {key : K} {v : V} (h : t.get key = some v) :
    ∃ p item, t.find key = some p ∧ t.row p = some item ∧ item.key = key ∧ item.value = v := by
  obtain ⟨item, hi, rfl⟩ := Option.map_eq_some_iff.mp h
  obtain ⟨p, hf, hr⟩ := Option.bind_eq_some_iff.mp hi
  obtain ⟨_, _, r, _, hr', hk, _⟩ := t.wf.find_some hf
  cases hr.symm.trans hr'
  exact ⟨p, item, hf, hr, hk, rfl⟩

omit [DecidableEq K] in
/-- The items after a store. -/
theorem store_row (t : Table K V) (key : K) (value : V) {extent : Nat} (h : 0 < extent) {p : Nat}
    {item : Row K V} (hr : (t.store key value extent h).row p = some item) :
    (p = t.free ∧ item.key = key ∧ item.value = value) ∨ t.row p = some item := by
  rw [show (t.store key value extent h).row p = _ from HashTable.store_row ..] at hr
  split at hr
  · rename_i hp
    cases hr
    exact .inl ⟨hp, rfl, rfl⟩
  · exact .inr hr

/-- Write the value of an item. -/
def writeAt (t : Table K V) (p : Nat) (value : V) : Table K V :=
  ⟨t.writeValue p fun _ => value, t.wf.writeValue p _⟩

omit [DecidableEq K] in
/-- The items after a write of a value. -/
theorem writeAt_row (t : Table K V) {p q : Nat} {value : V} {item : Row K V}
    (hr : (t.writeAt p value).row q = some item) :
    (q = p ∧ item.value = value ∧ ∃ old, t.row p = some old ∧ old.key = item.key) ∨
      (q ≠ p ∧ t.row q = some item) := by
  by_cases hq : q = p
  · subst hq
    rw [show (t.writeAt q value).row q = _ from Function.update_self ..] at hr
    obtain ⟨old, ho, rfl⟩ := Option.map_eq_some_iff.mp hr
    exact .inl ⟨rfl, rfl, old, ho, rfl⟩
  · rw [show (t.writeAt p value).row q = _ from Function.update_of_ne hq ..] at hr
    exact .inr ⟨hq, hr⟩

/-- A store is found under its key only. -/
theorem store_get (t : Table K V) (key : K) (value : V) {extent : Nat} (h : 0 < extent) (k : K) :
    (t.store key value extent h).get k = if k = key then some value else t.get k := by
  rw [get_eq, store_stack, Stacks.push_head, get_eq]

/-- A write of a value is found under the key of the item where `find` answers the item. -/
theorem writeAt_get (t : Table K V) (p : Nat) (value : V) (k : K) :
    (t.writeAt p value).get k = if t.find k = some p then some value else t.get k := by
  have hf : (t.writeAt p value).find k = t.find k := t.wf.writeValue_find p (fun _ => value) k
  show (((t.writeAt p value).find k).bind (t.writeAt p value).row).map Row.value = _
  rw [hf]
  by_cases h : t.find k = some p
  · obtain ⟨_, _, r, _, hr, _⟩ := t.wf.find_some h
    rw [if_pos h, h, Option.bind_some, show (t.writeAt p value).row p = _ from Function.update_self ..,
      hr]
    rfl
  · rw [if_neg h]
    show _ = ((t.find k).bind t.row).map Row.value
    cases hq : t.find k with
    | none => rfl
    | some q =>
        have hne : q ≠ p := fun he => h (he ▸ hq)
        rw [Option.bind_some, Option.bind_some,
          show (t.writeAt p value).row q = _ from Function.update_of_ne hne ..]

/-- The items after the write of `write`. -/
theorem write_row (t : Table K V) (key : K) (f : V → V) {p : Nat} {item : Row K V}
    (hr : (t.write key f).row p = some item) :
    ∃ old, t.row p = some old ∧ (item.value = old.value ∨ item.value = f old.value) := by
  unfold write at hr
  split at hr
  · exact ⟨item, hr, .inl rfl⟩
  · rename_i q _
    by_cases hp : p = q
    · subst hp
      rw [show (t.writeValue p f).row p = _ from Function.update_self ..] at hr
      obtain ⟨old, ho, rfl⟩ := Option.map_eq_some_iff.mp hr
      exact ⟨old, ho, .inr rfl⟩
    · rw [show (t.writeValue q f).row p = _ from Function.update_of_ne hp ..] at hr
      exact ⟨item, hr, .inl rfl⟩

theorem unlinkIfFound_value (t : Table K V) (key : K) (p : Nat) :
    ((t.unlinkIfFound key).1.row p).map Row.value = (t.row p).map Row.value := by
  unfold unlinkIfFound
  split
  · rfl
  · split
    · rfl
    · rename_i h
      exact HashTable.unlink_value h p

theorem unlinkIfFound_frame (t : Table K V) (key : K) :
    (t.unlinkIfFound key).1.size = t.size ∧ (t.unlinkIfFound key).1.free = t.free := by
  unfold unlinkIfFound
  split
  · exact ⟨rfl, rfl⟩
  · split
    · exact ⟨rfl, rfl⟩
    · rename_i h
      exact HashTable.unlink_frame h

theorem write_free (t : Table K V) (key : K) (f : V → V) : (t.write key f).free = t.free := by
  unfold write
  split <;> rfl

end Table

end Libbitcoin.Database
