/-
  File:      BitprimDatabase/Primitives/HashTable.lean
  Subject:   THE CHAINED HASH TABLE (slab_hash_table.ipp, record_hash_table.ipp, slab_row.ipp,
             record_row.ipp, hash_table_header.ipp). A bucket array holds the position of the
             first item of each chain, an item holds its key, the position of the next item and a
             value. Items are allocated at the end of the file and never moved; an unlink only
             patches the predecessor.

  The slab table and the record table are the same template over two allocators: a slab position
  is a byte offset that grows by the slab's size, a record position is an index that grows by
  one. Both are `HashTable`, `store` takes the extent of the allocation. The sentinel `empty` is
  `none`; what a row's bytes decode to is the row itself.

  `find`, `unlink` and `for_each` are the loops of the source, with the size of the file as fuel. A read of
  an item that is not there (`row` answers `none`) has no defined result in the source; `unlink`
  answers `none` then.
-/
import BitprimDatabase.Lib.Chain
import BitprimDatabase.Lib.Stacks
import Mathlib.Data.List.Find
import Mathlib.Data.List.Perm.Subperm

namespace Libbitcoin.Database

open Lib

/-- An item of a chain: the key, the next position, the value (slab_row, record_row). -/
structure Row (K V : Type) where
  key : K
  next : Option Nat
  value : V

/-- The bucket header, the items of the file by position, and the next free position. -/
structure HashTable (K V : Type) where
  size : Nat
  hash : K → Nat
  bucket : Nat → Option Nat
  row : Nat → Option (Row K V)
  free : Nat

/-- A hash of the key reduced to the domain of the divisor (remainder.ipp). -/
def remainder {K : Type} (hash : K → Nat) (key : K) (divisor : Nat) : Nat :=
  if divisor = 0 then 0 else hash key % divisor

namespace HashTable

variable {K V : Type}

/-! ## 1. The operations -/

/-- A created table: every bucket empty, the first position to allocate. -/
def create (hash : K → Nat) (size first : Nat) : HashTable K V :=
  ⟨size, hash, fun _ => none, fun _ => none, first⟩

def bucketIndex (t : HashTable K V) (key : K) : Nat := remainder t.hash key t.size

def readBucketValue (t : HashTable K V) (key : K) : Option Nat := t.bucket (t.bucketIndex key)

/-- The next position an item links to. -/
def next (t : HashTable K V) (p : Nat) : Option Nat := (t.row p).bind Row.next

/-- Write the bucket of a key. -/
def link (t : HashTable K V) (key : K) (begin : Option Nat) : HashTable K V :=
  { t with bucket := Function.update t.bucket (t.bucketIndex key) begin }

/-- Write the next position of an item. -/
def writeNext (t : HashTable K V) (p : Nat) (next : Option Nat) : HashTable K V :=
  { t with row := Function.update t.row p ((t.row p).map fun r => { r with next := next }) }

/-- Write an item's value in place, through the memory `find` returned. -/
def writeValue (t : HashTable K V) (p : Nat) (write : V → V) : HashTable K V :=
  { t with row := Function.update t.row p ((t.row p).map fun r => { r with value := write r.value }) }

/-- Allocate an item of the given extent after the last one and populate it (row.create). -/
def allocate (t : HashTable K V) (key : K) (value : V) (extent : Nat) : HashTable K V :=
  { t with
    row := Function.update t.row t.free (some ⟨key, none, value⟩)
    free := t.free + extent }

/-- Create the item, link it to the current first item of its bucket, make it the first. The
    position is the item's. -/
def store (t : HashTable K V) (key : K) (value : V) (extent : Nat) : HashTable K V × Nat :=
  let position := t.free
  let t := t.allocate key value extent
  let t := t.writeNext position (t.readBucketValue key)
  (t.link key (some position), position)

/-- Unlink an item from its predecessor. -/
def release (t : HashTable K V) (item : Row K V) (previous : Nat) : HashTable K V :=
  t.writeNext previous item.next

section Find

variable [DecidableEq K]

/-- The loop of `find` from `current`: the position of the first item with the key. -/
def seek (t : HashTable K V) (key : K) : Nat → Option Nat → Option Nat
  | 0, _ => none
  | _ + 1, none => none
  | fuel + 1, some current =>
    match t.row current with
    | none => none
    | some item =>
      if item.key = key then some current
      else if item.next = some current then none
      else t.seek key fuel item.next

/-- The first item with the key, as the position of its row. -/
def find (t : HashTable K V) (key : K) : Option Nat :=
  t.seek key t.free (t.readBucketValue key)

/-- The value `find` points at. -/
def get (t : HashTable K V) (key : K) : Option V :=
  ((t.find key).bind t.row).map Row.value

/-- The loop of `unlink` behind the first item. -/
def unlinkFrom (t : HashTable K V) (key : K) :
    Nat → Nat → Option Nat → Option (HashTable K V × Bool)
  | 0, _, _ => none
  | _ + 1, _, none => some (t, false)
  | fuel + 1, previous, some current =>
    match t.row current with
    | none => none
    | some item =>
      if item.key = key then some (t.release item previous, true)
      else if item.next = some current then some (t, false)
      else t.unlinkFrom key fuel current item.next

/-- Unlink the first item with the key. The first item of the bucket is read before the loop
    tests for the end of the chain. -/
def unlink (t : HashTable K V) (key : K) : Option (HashTable K V × Bool) :=
  match (t.readBucketValue key).bind fun begin => (t.row begin).map fun item => (begin, item) with
  | none => none
  | some (begin, item) =>
    if item.key = key then some (t.link key item.next, true)
    else t.unlinkFrom key t.free begin item.next

end Find

/-- The loop of `for_each` over one bucket, with a function that never stops it. -/
def visitFrom (t : HashTable K V) : Nat → Option Nat → List (K × V)
  | 0, _ => []
  | _ + 1, none => []
  | fuel + 1, some current =>
    match t.row current with
    | none => []
    | some item =>
      (item.key, item.value) ::
        if item.next = some current then [] else t.visitFrom fuel item.next

/-- What `for_each` visits, bucket by bucket. -/
def forEach (t : HashTable K V) : List (K × V) :=
  (List.range t.size).flatMap fun index => t.visitFrom t.free (t.bucket index)

/-! ## 2. The representation invariant -/

/-- **The invariant of a table**: items lie below the next free position, a link goes to an
    earlier item of the same bucket, a bucket to an item of that bucket. -/
structure WF (t : HashTable K V) : Prop where
  row_lt : ∀ p r, t.row p = some r → p < t.free
  next_row : ∀ p r q, t.row p = some r → r.next = some q →
    q < p ∧ ∃ r', t.row q = some r' ∧ t.bucketIndex r'.key = t.bucketIndex r.key
  bucket_row : ∀ b p, t.bucket b = some p → ∃ r, t.row p = some r ∧ t.bucketIndex r.key = b

/-- The positions of a bucket's chain. -/
def chain (t : HashTable K V) (b : Nat) : List Nat := walk t.next t.free (t.bucket b)

section Stack

variable [DecidableEq K]

/-- The value an item holds for a key, `none` for an item of another key. -/
def valueFor (t : HashTable K V) (key : K) (p : Nat) : Option V :=
  (t.row p).bind fun r => if r.key = key then some r.value else none

/-- **The abstract meaning of a table**: the values linked for a key, newest first. -/
def stack (t : HashTable K V) : Stacks K V := fun key =>
  (t.chain (t.bucketIndex key)).filterMap (t.valueFor key)

end Stack

section Invariant

variable {t : HashTable K V}

theorem WF.descends (h : t.WF) : Descends t.next := by
  intro p q hpq
  obtain ⟨r, hr, hn⟩ := Option.bind_eq_some_iff.mp hpq
  exact (h.next_row p r q hr hn).1

theorem WF.bucket_lt (h : t.WF) {b p : Nat} (hb : t.bucket b = some p) : p < t.free := by
  obtain ⟨r, hr, _⟩ := h.bucket_row b p hb
  exact h.row_lt p r hr

theorem WF.chain (h : t.WF) (b : Nat) : Chain t.next (t.bucket b) (t.chain b) :=
  chain_walk h.descends _ _ fun _ hp => h.bucket_lt hp

theorem WF.chain_eq (h : t.WF) {b : Nat} {ps : List Nat} (hc : Chain t.next (t.bucket b) ps) :
    t.chain b = ps := (h.chain b).unique hc

/-- Every position of a bucket's chain holds an item of that bucket. -/
theorem WF.chain_row (h : t.WF) {b : Nat} {head : Option Nat} {ps : List Nat}
    (hc : Chain t.next head ps)
    (hh : ∀ p, head = some p → ∃ r, t.row p = some r ∧ t.bucketIndex r.key = b) :
    ∀ p ∈ ps, ∃ r, t.row p = some r ∧ t.bucketIndex r.key = b := by
  induction hc with
  | nil => exact fun _ hp => absurd hp List.not_mem_nil
  | cons p ps _ ih =>
      obtain ⟨r, hr, hb⟩ := hh p rfl
      intro q hq
      rcases List.mem_cons.mp hq with rfl | hq
      · exact ⟨r, hr, hb⟩
      · refine ih (fun q' hq' => ?_) q hq
        obtain ⟨r', hr', hn⟩ := Option.bind_eq_some_iff.mp hq'
        cases hr.symm.trans hr'
        obtain ⟨_, r', hr', hb'⟩ := h.next_row p r q' hr hn
        exact ⟨r', hr', hb'.trans hb⟩

theorem WF.mem_chain (h : t.WF) {b p : Nat} (hp : p ∈ t.chain b) :
    ∃ r, t.row p = some r ∧ t.bucketIndex r.key = b :=
  h.chain_row (h.chain b) (h.bucket_row b) p hp

/-- A bucket's item is linked. -/
theorem WF.mem_chain_bucket (h : t.WF) {b p : Nat} (hb : t.bucket b = some p) : p ∈ t.chain b := by
  have hc := h.chain b
  rw [hb] at hc
  generalize t.chain b = ps at hc
  cases hc with
  | cons _ ps _ => exact List.mem_cons_self

theorem WF.mem_chain_lt (h : t.WF) {b p : Nat} (hp : p ∈ t.chain b) : p < t.free := by
  obtain ⟨r, hr, _⟩ := h.mem_chain hp
  exact h.row_lt p r hr

/-- Chains of two buckets share no item. -/
theorem WF.chain_disjoint (h : t.WF) {b b' p : Nat} (hp : p ∈ t.chain b) (hp' : p ∈ t.chain b') :
    b = b' := by
  obtain ⟨r, hr, hb⟩ := h.mem_chain hp
  obtain ⟨r', hr', hb'⟩ := h.mem_chain hp'
  cases hr.symm.trans hr'
  exact hb.symm.trans hb'

/-- A sorted chain is no longer than its largest position. -/
theorem WF.chain_length (h : t.WF) (b : Nat) : (t.chain b).length ≤ t.free := by
  have hn : (t.chain b).Nodup := (h.chain b).nodup h.descends
  have hs : t.chain b ⊆ List.range t.free := fun p hp => List.mem_range.mpr (h.mem_chain_lt hp)
  have := (hn.subperm hs).length_le
  rwa [List.length_range] at this

/-- No item links to itself. -/
theorem WF.next_ne_self (h : t.WF) {p : Nat} {r : Row K V} (hr : t.row p = some r) :
    r.next ≠ some p := fun hn => absurd (h.next_row p r p hr hn).1 (Nat.lt_irrefl p)

end Invariant

/-! ## 3. Every operation keeps the invariant -/

theorem create_wf (hash : K → Nat) (size first : Nat) :
    (create hash size first : HashTable K V).WF where
  row_lt _ _ h := by cases h
  next_row _ _ _ h := by cases h
  bucket_row _ _ h := by cases h

section Store

variable (t : HashTable K V) (key : K) (value : V) (extent : Nat)

@[simp] theorem store_bucketIndex (k : K) :
    (t.store key value extent).1.bucketIndex k = t.bucketIndex k := rfl

theorem store_row (p : Nat) : (t.store key value extent).1.row p =
    if p = t.free then some ⟨key, t.readBucketValue key, value⟩ else t.row p := by
  by_cases h : p = t.free
  · subst h
    simp only [store, link, writeNext, allocate, Function.update_self, Option.map_some, if_true]
    rfl
  · simp [store, link, writeNext, allocate, h]

theorem store_bucket (b : Nat) : (t.store key value extent).1.bucket b =
    if b = t.bucketIndex key then some t.free else t.bucket b := by
  by_cases h : b = t.bucketIndex key
  · subst h
    rw [if_pos rfl]
    exact Function.update_self ..
  · rw [if_neg h]
    exact Function.update_of_ne h ..

@[simp] theorem store_free : (t.store key value extent).1.free = t.free + extent := rfl

@[simp] theorem store_position : (t.store key value extent).2 = t.free := rfl

end Store

section Invariant

variable {t : HashTable K V}

theorem WF.store (h : t.WF) (key : K) (value : V) {extent : Nat} (he : 0 < extent) :
    (t.store key value extent).1.WF where
  row_lt p r hr := by
    rw [store_row] at hr
    rw [store_free]
    split at hr
    · omega
    · have := h.row_lt p r hr
      omega
  next_row p r q hr hn := by
    rw [store_row] at hr
    split at hr
    · cases hr
      obtain ⟨r', hr', hb⟩ := h.bucket_row _ q hn
      have hq := h.row_lt q r' hr'
      refine ⟨by omega, r', ?_, hb⟩
      rw [store_row, if_neg (by omega)]
      exact hr'
    · obtain ⟨hq, r', hr', hb⟩ := h.next_row p r q hr hn
      refine ⟨hq, r', ?_, hb⟩
      have := h.row_lt q r' hr'
      rw [store_row, if_neg (by omega)]
      exact hr'
  bucket_row b p hb := by
    rw [store_bucket] at hb
    split at hb
    · rename_i hbk
      cases hb
      exact ⟨⟨key, t.readBucketValue key, value⟩, by rw [store_row, if_pos rfl], hbk.symm⟩
    · obtain ⟨r, hr, hb'⟩ := h.bucket_row b p hb
      have := h.row_lt p r hr
      refine ⟨r, ?_, hb'⟩
      rw [store_row, if_neg (by omega)]
      exact hr

/-- Items rewritten with their keys keep the invariant when their links do. -/
theorem WF.rewrite (h : t.WF) {row : Nat → Option (Row K V)}
    (hk : ∀ p, (row p).map Row.key = (t.row p).map Row.key)
    (hn : ∀ p r q, row p = some r → r.next = some q →
      q < p ∧ ∃ r', t.row q = some r' ∧ t.bucketIndex r'.key = t.bucketIndex r.key) :
    ({ t with row := row } : HashTable K V).WF := by
  have hback (q : Nat) (r : Row K V) (hq : t.row q = some r) :
      ∃ r', row q = some r' ∧ r'.key = r.key := by
    have := hk q
    rw [hq] at this
    exact Option.map_eq_some_iff.mp this
  refine ⟨fun q r hq => ?_, fun q r q' hq hqn => ?_, fun b q hb => ?_⟩
  · have := hk q
    rw [show row q = some r from hq] at this
    obtain ⟨r₀, hr₀, _⟩ := Option.map_eq_some_iff.mp this.symm
    exact h.row_lt q r₀ hr₀
  · obtain ⟨hlt, r₀, hr₀, hb⟩ := hn q r q' hq hqn
    obtain ⟨r', hr', hk'⟩ := hback q' r₀ hr₀
    exact ⟨hlt, r', hr', (congrArg t.bucketIndex hk').trans hb⟩
  · obtain ⟨r₀, hr₀, hb⟩ := h.bucket_row b q hb
    obtain ⟨r, hr, hk'⟩ := hback q r₀ hr₀
    exact ⟨r, hr, (congrArg t.bucketIndex hk').trans hb⟩

/-- An edit of one item that keeps its key keeps the invariant where its link leads to an earlier item
    of the bucket. -/
theorem WF.edit (h : t.WF) {p : Nat} {edit : Row K V → Row K V} (hk : ∀ r, (edit r).key = r.key)
    (hn : ∀ r q, t.row p = some r → (edit r).next = some q →
      q < p ∧ ∃ r', t.row q = some r' ∧ t.bucketIndex r'.key = t.bucketIndex r.key) :
    ({ t with row := Function.update t.row p ((t.row p).map edit) } : HashTable K V).WF := by
  refine h.rewrite (fun q => ?_) (fun q r q' hq hqn => ?_)
  · by_cases hqp : q = p
    · subst hqp
      simp [Function.comp_def, hk]
    · simp [hqp]
  · by_cases hqp : q = p
    · subst hqp
      rw [Function.update_self] at hq
      obtain ⟨r₀, hr₀, rfl⟩ := Option.map_eq_some_iff.mp hq
      rw [hk]
      exact hn r₀ q' hr₀ hqn
    · rw [Function.update_of_ne hqp] at hq
      exact h.next_row q r q' hq hqn

/-- Writing an earlier item of the bucket into a link keeps the invariant. -/
theorem WF.writeNext (h : t.WF) {p : Nat} {next : Option Nat}
    (hn : ∀ r q, t.row p = some r → next = some q →
      q < p ∧ ∃ r', t.row q = some r' ∧ t.bucketIndex r'.key = t.bucketIndex r.key) :
    (t.writeNext p next).WF :=
  h.edit (fun _ => rfl) hn

/-- Writing a value in place keeps the invariant. -/
theorem WF.writeValue (h : t.WF) (p : Nat) (write : V → V) : (t.writeValue p write).WF :=
  h.edit (fun _ => rfl) fun r q hr hq => h.next_row p r q hr hq

/-- Writing an item of the bucket into the bucket keeps the invariant. -/
theorem WF.link (h : t.WF) {key : K} {begin : Option Nat}
    (hb : ∀ p, begin = some p → ∃ r, t.row p = some r ∧ t.bucketIndex r.key = t.bucketIndex key) :
    (t.link key begin).WF := by
  refine ⟨h.row_lt, h.next_row, fun b p hbp => ?_⟩
  by_cases hbk : b = t.bucketIndex key
  · subst hbk
    simp only [HashTable.link, Function.update_self] at hbp
    exact hb p hbp
  · simp only [HashTable.link, Function.update_of_ne hbk] at hbp
    exact h.bucket_row b p hbp

end Invariant

/-! ## 4. Every operation edits the stacks -/

section Refinement

variable [DecidableEq K] {t : HashTable K V}

/-! ### find -/

theorem valueFor_eq_some {key : K} {p : Nat} {v : V} :
    t.valueFor key p = some v ↔ ∃ r, t.row p = some r ∧ r.key = key ∧ r.value = v := by
  unfold valueFor
  cases t.row p with
  | none => simp
  | some r =>
      by_cases h : r.key = key <;> simp [h]

/-- An item that holds no value of the key has another one. -/
theorem key_ne_of_valueFor {key : K} {p : Nat} {r : Row K V} (hr : t.row p = some r)
    (hx : t.valueFor key p = none) : r.key ≠ key := by
  intro he
  rw [valueFor_eq_some.mpr ⟨r, hr, he, rfl⟩] at hx
  cases hx

/-- The loop of `find` over a chain: the first position that holds the key. -/
theorem WF.seek_chain (h : t.WF) (key : K) {head : Option Nat} {ps : List Nat} {fuel : Nat}
    (hc : Chain t.next head ps) (hr : ∀ p ∈ ps, ∃ r, t.row p = some r) (hf : ps.length ≤ fuel) :
    t.seek key fuel head = ps.find? fun p => (t.valueFor key p).isSome := by
  induction hc generalizing fuel with
  | nil => cases fuel <;> rfl
  | cons p ps hc ih =>
      obtain ⟨r, hp⟩ := hr p List.mem_cons_self
      cases fuel with
      | zero => exact absurd hf (Nat.not_succ_le_zero _)
      | succ fuel =>
          have hn : t.next p = r.next := by simp [next, hp]
          have ih := ih (fun q hq => hr q (List.mem_cons_of_mem _ hq)) (Nat.le_of_succ_le_succ hf)
          simp only [seek, hp, h.next_ne_self hp, if_false]
          by_cases hk : r.key = key
          · simp [valueFor, hp, hk]
          · rw [hn] at ih
            simp [valueFor, hp, hk, ih]

theorem WF.find_eq (h : t.WF) (key : K) :
    t.find key = (t.chain (t.bucketIndex key)).find? fun p => (t.valueFor key p).isSome :=
  h.seek_chain key (h.chain _) (fun _ hp => (h.mem_chain hp).imp fun _ hr => hr.1)
    (h.chain_length _)

/-- Where `find` stops: the chain up to the item holds other keys only. -/
theorem WF.find_some (h : t.WF) {key : K} {p : Nat} (hf : t.find key = some p) :
    ∃ xs ys r, t.chain (t.bucketIndex key) = xs ++ p :: ys ∧ t.row p = some r ∧ r.key = key ∧
      ∀ x ∈ xs, t.valueFor key x = none := by
  rw [h.find_eq, List.find?_eq_some_iff_append] at hf
  obtain ⟨hp, xs, ys, he, hx⟩ := hf
  obtain ⟨v, hv⟩ := Option.isSome_iff_exists.mp hp
  obtain ⟨r, hr, hk, _⟩ := valueFor_eq_some.mp hv
  exact ⟨xs, ys, r, he, hr, hk, fun x hx' => by simpa using hx x hx'⟩

theorem WF.find_none (h : t.WF) {key : K} : t.find key = none ↔ t.stack key = [] := by
  rw [h.find_eq, List.find?_eq_none, stack, List.filterMap_eq_nil_iff]
  simp

/-- The stack of a key, split where `find` stops. -/
theorem stack_split {key : K} {xs ys : List Nat} {p : Nat} {r : Row K V}
    (hc : t.chain (t.bucketIndex key) = xs ++ p :: ys) (hr : t.row p = some r) (hk : r.key = key)
    (hx : ∀ x ∈ xs, t.valueFor key x = none) :
    t.stack key = r.value :: ys.filterMap (t.valueFor key) := by
  have hp : t.valueFor key p = some r.value := valueFor_eq_some.mpr ⟨r, hr, hk, rfl⟩
  rw [stack, hc, List.filterMap_append, List.filterMap_eq_nil_iff.mpr hx, List.nil_append,
    List.filterMap_cons_some hp]

/-- **`find` returns the newest value of the key.** -/
theorem WF.get_eq (h : t.WF) (key : K) : t.get key = (t.stack key).head? := by
  unfold get
  cases hf : t.find key with
  | none => rw [h.find_none.mp hf]; rfl
  | some p =>
      obtain ⟨xs, ys, r, hc, hr, hk, hx⟩ := h.find_some hf
      rw [stack_split hc hr hk hx]
      simp [hr]

theorem WF.find_isSome (h : t.WF) {key : K} {v : V} {vs : List V}
    (hs : t.stack key = v :: vs) : ∃ p, t.find key = some p := by
  cases hf : t.find key with
  | none => rw [h.find_none.mp hf] at hs; cases hs
  | some p => exact ⟨p, rfl⟩

/-! ### for_each -/

omit [DecidableEq K] in
/-- The loop of `for_each` over a chain visits every item of it. -/
theorem WF.visitFrom_chain (h : t.WF) {head : Option Nat} {ps : List Nat} {fuel : Nat}
    (hc : Chain t.next head ps) (hr : ∀ p ∈ ps, ∃ r, t.row p = some r) (hf : ps.length ≤ fuel) :
    t.visitFrom fuel head = ps.filterMap fun p => (t.row p).map fun r => (r.key, r.value) := by
  induction hc generalizing fuel with
  | nil => cases fuel <;> rfl
  | cons p ps hc ih =>
      obtain ⟨r, hp⟩ := hr p List.mem_cons_self
      cases fuel with
      | zero => exact absurd hf (Nat.not_succ_le_zero _)
      | succ fuel =>
          have hn : t.next p = r.next := by simp [next, hp]
          have ih := ih (fun q hq => hr q (List.mem_cons_of_mem _ hq)) (Nat.le_of_succ_le_succ hf)
          rw [hn] at ih
          simp only [visitFrom, hp, h.next_ne_self hp, if_false, ih]
          rw [List.filterMap_cons_some (by rw [hp]; rfl)]

omit [DecidableEq K] in
/-- **`for_each` visits every item of every bucket's chain.** -/
theorem WF.forEach_eq (h : t.WF) : t.forEach = (List.range t.size).flatMap fun b =>
    (t.chain b).filterMap fun p => (t.row p).map fun r => (r.key, r.value) :=
  congrArg (fun f => (List.range t.size).flatMap f) (funext fun b =>
    h.visitFrom_chain (h.chain b) (fun _ hp => (h.mem_chain hp).imp fun _ hr => hr.1)
      (h.chain_length b))

omit [DecidableEq K] in
/-- The linked items, bucket by bucket, come once each. -/
theorem WF.linked_nodup (h : t.WF) (n : Nat) : ((List.range n).flatMap t.chain).Nodup := by
  refine List.nodup_flatMap.mpr ⟨fun b _ => (h.chain b).nodup h.descends, ?_⟩
  refine List.nodup_range.imp fun hne => ?_
  exact fun p hp hp' => hne (h.chain_disjoint hp hp')

/-- **The linked items of a key, bucket by bucket, are its stack.** -/
theorem WF.linked_stack (h : t.WF) {key : K} {n : Nat} (hb : t.bucketIndex key < n) :
    ((List.range n).flatMap t.chain).filterMap (t.valueFor key) = t.stack key := by
  have hother (b : Nat) (hne : b ≠ t.bucketIndex key) :
      (t.chain b).filterMap (t.valueFor key) = [] := by
    refine List.filterMap_eq_nil_iff.mpr fun p hp => ?_
    obtain ⟨r, hr, hbr⟩ := h.mem_chain hp
    have hk : r.key ≠ key := fun he => hne (hbr.symm.trans (congrArg t.bucketIndex he))
    simp [valueFor, hr, hk]
  rw [List.filterMap_flatMap]
  induction n with
  | zero => exact absurd hb (Nat.not_lt_zero _)
  | succ n ih =>
      rw [List.range_succ, List.flatMap_append]
      by_cases hn : t.bucketIndex key = n
      · have hrest : ((List.range n).flatMap fun b => (t.chain b).filterMap (t.valueFor key)) = [] :=
          List.flatMap_eq_nil_iff.mpr fun b hm =>
            hother b (Nat.ne_of_lt (hn ▸ List.mem_range.mp hm))
        rw [hrest]
        simp [stack, hn]
      · rw [ih (by omega)]
        simp [hother n (Ne.symm hn)]

/-- The values visited under a key, over a list of items. -/
theorem valueFor_items (t : HashTable K V) (ps : List Nat) (key : K) :
    ((ps.filterMap fun p => (t.row p).map fun r => (r.key, r.value)).filter
      fun item => item.1 = key).map Prod.snd = ps.filterMap (t.valueFor key) := by
  induction ps with
  | nil => rfl
  | cons p ps ih =>
      cases hr : t.row p with
      | none =>
          have hv : t.valueFor key p = none := by simp [valueFor, hr]
          rw [List.filterMap_cons_none (by rw [hr]; rfl), List.filterMap_cons_none hv, ih]
      | some r =>
          rw [List.filterMap_cons_some (by rw [hr]; rfl)]
          by_cases hk : r.key = key
          · have hv : t.valueFor key p = some r.value := by simp [valueFor, hr, hk]
            rw [List.filter_cons_of_pos (by simpa using hk), List.map_cons, ih,
              List.filterMap_cons_some hv]
          · have hv : t.valueFor key p = none := by simp [valueFor, hr, hk]
            rw [List.filter_cons_of_neg (by simpa using hk), ih, List.filterMap_cons_none hv]

/-- **`for_each` visits the stack of each key.** -/
theorem WF.forEach_stack (h : t.WF) (hsize : 0 < t.size) (key : K) :
    (t.forEach.filter fun item => item.1 = key).map Prod.snd = t.stack key := by
  have hb : t.bucketIndex key < t.size := by
    unfold bucketIndex remainder
    rw [if_neg (Nat.ne_of_gt hsize)]
    exact Nat.mod_lt _ hsize
  rw [h.forEach_eq, ← List.filterMap_flatMap, t.valueFor_items]
  exact h.linked_stack hb

/-! ### create -/

@[simp] theorem create_stack (hash : K → Nat) (size first : Nat) (key : K) :
    (create hash size first : HashTable K V).stack key = [] := by
  have h : (create hash size first : HashTable K V).chain (remainder hash key size) = [] :=
    (create_wf hash size first).chain_eq .nil
  simp only [stack]
  exact (congrArg _ h).trans rfl

/-! ### store -/

theorem WF.store_valueFor (h : t.WF) (key : K) (value : V) (extent : Nat) (k : K) {b p : Nat}
    (hp : p ∈ t.chain b) : (t.store key value extent).1.valueFor k p = t.valueFor k p := by
  have := h.mem_chain_lt hp
  unfold valueFor
  rw [store_row, if_neg (by omega)]

omit [DecidableEq K] in
theorem WF.store_chain (h : t.WF) (key : K) (value : V) {extent : Nat} (he : 0 < extent) (b : Nat) :
    (t.store key value extent).1.chain b =
      if b = t.bucketIndex key then t.free :: t.chain b else t.chain b := by
  have hold : Chain (t.store key value extent).1.next (t.bucket b) (t.chain b) := by
    refine (h.chain b).congr fun p hp => ?_
    have := h.mem_chain_lt hp
    simp only [next]
    rw [store_row, if_neg (by omega)]
  refine (h.store key value he).chain_eq ?_
  rw [store_bucket]
  split
  · rename_i hb
    refine .cons _ _ ?_
    have hn : (t.store key value extent).1.next t.free = t.bucket b := by
      simp only [next]
      rw [store_row, if_pos rfl, hb]
      rfl
    rw [hn]
    exact hold
  · exact hold

/-- **`store` pushes the value on the key's stack.** -/
theorem WF.store_stack (h : t.WF) (key : K) (value : V) {extent : Nat} (he : 0 < extent) :
    (t.store key value extent).1.stack = t.stack.push key value := by
  have hvals (k : K) (b : Nat) :
      (t.chain b).filterMap ((t.store key value extent).1.valueFor k) =
        (t.chain b).filterMap (t.valueFor k) :=
    List.filterMap_congr fun p hp => h.store_valueFor key value extent k hp
  have hnew (k : K) : (t.store key value extent).1.valueFor k t.free =
      if key = k then some value else none := by
    unfold valueFor
    rw [store_row, if_pos rfl]
    rfl
  funext k
  rw [stack, store_bucketIndex, h.store_chain key value he]
  by_cases hk : k = key
  · subst hk
    rw [if_pos rfl, List.filterMap_cons_some (by rw [hnew, if_pos rfl]), hvals, Stacks.push_same]
    rfl
  · rw [Stacks.push_ne _ _ hk]
    split
    · rw [List.filterMap_cons_none (by rw [hnew, if_neg (Ne.symm hk)]), hvals]
      rfl
    · rw [hvals]
      rfl

/-- A store only changes what `find` answers for its key. -/
theorem WF.store_find (h : t.WF) (key : K) (value : V) {extent : Nat} (he : 0 < extent) (k : K) :
    (t.store key value extent).1.find k = if k = key then some t.free else t.find k := by
  have hfind : (t.chain (t.bucketIndex k)).find?
      (fun p => ((t.store key value extent).1.valueFor k p).isSome) = t.find k := by
    rw [h.find_eq]
    exact List.find?_congr fun p hp => by rw [h.store_valueFor key value extent k hp]
  have hnew : ((t.store key value extent).1.valueFor k t.free).isSome = decide (key = k) := by
    unfold valueFor
    rw [store_row, if_pos rfl]
    by_cases hk : key = k <;> simp [hk]
  rw [(h.store key value he).find_eq, store_bucketIndex, h.store_chain key value he]
  by_cases hk : k = key
  · subst hk
    rw [if_pos rfl, if_pos rfl, List.find?_cons_of_pos]
    rw [hnew]
    exact decide_eq_true rfl
  · rw [if_neg hk]
    split
    · rw [List.find?_cons_of_neg, hfind]
      rw [hnew]
      simpa using Ne.symm hk
    · exact hfind

/-! ### unlink -/

/-- The loop of `unlink` over a chain: it patches the item before the first one with the key. -/
theorem WF.unlinkFrom_chain (h : t.WF) {key : K} {p : Nat} {r : Row K V} (hr : t.row p = some r)
    (hk : r.key = key) {us ys : List Nat} (previous : Nat) {fuel : Nat} {current : Option Nat}
    (hc : Chain t.next current (us ++ p :: ys)) (hus : ∀ u ∈ us, ∃ r, t.row u = some r)
    (hx : ∀ u ∈ us, t.valueFor key u = none) (hf : us.length < fuel) :
    ∃ ws q, previous :: us = ws ++ [q] ∧
      t.unlinkFrom key fuel previous current = some (t.release r q, true) := by
  induction us generalizing previous fuel current with
  | nil =>
      cases fuel with
      | zero => exact absurd hf (Nat.not_lt_zero _)
      | succ fuel =>
          cases hc
          exact ⟨[], previous, rfl, by simp [unlinkFrom, hr, hk]⟩
  | cons u us ih =>
      cases fuel with
      | zero => exact absurd hf (Nat.not_lt_zero _)
      | succ fuel =>
          cases hc with
          | cons _ _ hc =>
              obtain ⟨ru, hu⟩ := hus u List.mem_cons_self
              have hku := key_ne_of_valueFor hu (hx u List.mem_cons_self)
              have hn : t.next u = ru.next := by simp [HashTable.next, hu]
              rw [hn] at hc
              obtain ⟨ws, q, he, hl⟩ := ih u hc
                (fun u' hu' => hus u' (List.mem_cons_of_mem _ hu'))
                (fun u' hu' => hx u' (List.mem_cons_of_mem _ hu')) (Nat.lt_of_succ_lt_succ hf)
              refine ⟨previous :: ws, q, by rw [he]; rfl, ?_⟩
              simp only [unlinkFrom, hu, hku, h.next_ne_self hu, if_false]
              exact hl

@[simp] theorem writeNext_valueFor (t : HashTable K V) (q : Nat) (n : Option Nat) (key : K)
    (p : Nat) : (t.writeNext q n).valueFor key p = t.valueFor key p := by
  by_cases h : p = q
  · subst h
    cases hr : t.row p <;> simp [valueFor, writeNext, hr]
  · simp [valueFor, writeNext, h]

omit [DecidableEq K] in
theorem writeNext_key (t : HashTable K V) (q : Nat) (n : Option Nat) (p : Nat) :
    ((t.writeNext q n).row p).map Row.key = (t.row p).map Row.key := by
  by_cases h : p = q
  · subst h
    cases hr : t.row p <;> simp [writeNext, hr]
  · simp [writeNext, h]

omit [DecidableEq K] in
theorem writeNext_next (t : HashTable K V) {q : Nat} {r : Row K V} (hr : t.row q = some r)
    (n : Option Nat) : (t.writeNext q n).next = Function.update t.next q n := by
  funext p
  by_cases h : p = q
  · subst h
    simp [HashTable.next, writeNext, hr]
  · simp [HashTable.next, writeNext, h]

/-- Dropping the first item of a key from a chain pops the key's stack. -/
theorem stack_pop {t t' : HashTable K V} {key : K} {xs ys : List Nat} {p : Nat} {r : Row K V}
    (hb : ∀ k, t'.bucketIndex k = t.bucketIndex k)
    (hv : ∀ k p, t'.valueFor k p = t.valueFor k p)
    (hc : t.chain (t.bucketIndex key) = xs ++ p :: ys)
    (hr : t.row p = some r) (hk : r.key = key) (hx : ∀ x ∈ xs, t.valueFor key x = none)
    (hc' : t'.chain (t.bucketIndex key) = xs ++ ys)
    (ho : ∀ b, b ≠ t.bucketIndex key → t'.chain b = t.chain b) :
    t'.stack = t.stack.pop key := by
  funext k
  have hvk : t'.valueFor k = t.valueFor k := funext (hv k)
  by_cases hkk : k = key
  · subst hkk
    rw [Stacks.pop_same, stack_split hc hr hk hx, List.tail_cons, stack, hb, hc', hvk,
      List.filterMap_append, List.filterMap_eq_nil_iff.mpr hx, List.nil_append]
  · rw [Stacks.pop_ne _ hkk, stack, stack, hb, hvk]
    by_cases hbk : t.bucketIndex k = t.bucketIndex key
    · have hp : t.valueFor k p = none := by
        simp [valueFor, hr, hk, Ne.symm hkk]
      rw [hbk, hc, hc']
      simp [List.filterMap_append, List.filterMap_cons_none hp]
    · rw [ho _ hbk]

/-- **The table `t'` is `t` with the item `p` taken out of the chain of its key**, between `xs` and
    `ys`: one link skips it, its own link and every key stay. -/
structure Unlinks (t t' : HashTable K V) (key : K) (xs ys : List Nat) (p : Nat) : Prop where
  wf : t'.WF
  bucketIndex_eq : ∀ k, t'.bucketIndex k = t.bucketIndex k
  valueFor_eq : ∀ k q, t'.valueFor k q = t.valueFor k q
  key_eq : ∀ q, (t'.row q).map Row.key = (t.row q).map Row.key
  row : ∃ r, t.row p = some r ∧ r.key = key
  before : ∀ x ∈ xs, t.valueFor key x = none
  chain_before : t.chain (t.bucketIndex key) = xs ++ p :: ys
  chain_after : t'.chain (t.bucketIndex key) = xs ++ ys
  chain_other : ∀ b, b ≠ t.bucketIndex key → t'.chain b = t.chain b
  next_eq : ∀ q, t'.next q = t.next q ∨ (∃ ws, xs = ws ++ [q]) ∧ t'.next q = t.next p

/-- `unlink` of a present key takes its first item out. -/
theorem WF.unlink_unlinks (h : t.WF) {key : K} {v : V} {vs : List V}
    (hs : t.stack key = v :: vs) :
    ∃ t' xs ys p, t.unlink key = some (t', true) ∧ Unlinks t t' key xs ys p := by
  obtain ⟨p, hf⟩ := h.find_isSome hs
  obtain ⟨xs, ys, r, hc, hr, hk, hx⟩ := h.find_some hf
  have hch := h.chain (t.bucketIndex key)
  have hbp : t.bucketIndex r.key = t.bucketIndex key := by rw [hk]
  have hn : t.next p = r.next := by simp [HashTable.next, hr]
  -- the link of the removed item stays inside the bucket
  have hlink : ∀ q, r.next = some q →
      q < p ∧ ∃ r', t.row q = some r' ∧ t.bucketIndex r'.key = t.bucketIndex key :=
    fun q hq => hbp ▸ h.next_row p r q hr hq
  rw [hc] at hch
  cases xs with
  | nil =>
      have hb : t.bucket (t.bucketIndex key) = some p := hch.head_eq
      have hw : (t.link key r.next).WF := h.link fun q hq => (hlink q hq).2
      refine ⟨t.link key r.next, [], ys, p, ?_, hw, fun _ => rfl, fun _ _ => rfl, fun _ => rfl,
        ⟨r, hr, hk⟩, hx, hc, ?_, fun b hbk => ?_, fun _ => .inl rfl⟩
      · simp [unlink, readBucketValue, hb, hr, hk]
      · refine hw.chain_eq ?_
        have he : (t.link key r.next).bucket (t.bucketIndex key) = t.next p := by
          rw [hn]
          exact Function.update_self ..
        rw [he]
        have h' : Chain t.next (t.bucket (t.bucketIndex key)) ([] ++ p :: ys) := hch
        exact h'.after
      · refine hw.chain_eq ?_
        have he : (t.link key r.next).bucket b = t.bucket b := Function.update_of_ne hbk ..
        rw [he]
        exact h.chain b
  | cons x us =>
      have hmem : ∀ q ∈ x :: us, q ∈ t.chain (t.bucketIndex key) := fun q hq => by
        rw [hc]
        exact List.mem_append_left _ hq
      have hb : t.bucket (t.bucketIndex key) = some x := hch.head_eq
      obtain ⟨rx, hrx, _⟩ := h.mem_chain (hmem x List.mem_cons_self)
      have hkx := key_ne_of_valueFor hrx (hx x List.mem_cons_self)
      have hlen : us.length < t.free := by
        have := h.chain_length (t.bucketIndex key)
        rw [hc] at this
        simp at this
        omega
      have hnx : t.next x = rx.next := by simp [HashTable.next, hrx]
      have hcu : Chain t.next rx.next (us ++ p :: ys) := by
        rw [← hnx]
        have h' : Chain t.next (t.bucket (t.bucketIndex key)) ([] ++ x :: (us ++ p :: ys)) := hch
        exact h'.after
      obtain ⟨ws, q, he, hl⟩ := h.unlinkFrom_chain hr hk x hcu
        (fun u hu => (h.mem_chain (hmem u (List.mem_cons_of_mem _ hu))).imp fun _ hr => hr.1)
        (fun u hu => hx u (List.mem_cons_of_mem _ hu)) hlen
      -- `q` is the predecessor of the removed item
      have hq : q ∈ t.chain (t.bucketIndex key) := hmem q (by rw [he]; simp)
      obtain ⟨rq, hrq, hbq⟩ := h.mem_chain hq
      have hsp : Chain (Function.update t.next q (t.next p)) (t.bucket (t.bucketIndex key))
          (ws ++ q :: ys) := by
        refine Chain.splice h.descends ?_
        rw [he, List.append_assoc] at hch
        exact hch
      have hqp : p < q := by
        have hs := (h.chain (t.bucketIndex key)).sorted h.descends
        rw [hc, he, List.append_assoc, List.pairwise_append] at hs
        exact List.rel_of_pairwise_cons hs.2.1 List.mem_cons_self
      have hw : (t.release r q).WF := by
        refine h.writeNext fun r' q' hr' hq' => ?_
        cases hrq.symm.trans hr'
        obtain ⟨hlt, r'', hr'', hb''⟩ := hlink q' hq'
        exact ⟨Nat.lt_trans hlt hqp, r'', hr'', hb''.trans hbq.symm⟩
      have hnext : (t.release r q).next = Function.update t.next q (t.next p) := by
        rw [hn]
        exact writeNext_next t hrq _
      refine ⟨t.release r q, x :: us, ys, p, ?_, hw, fun _ => rfl,
        fun k p => writeNext_valueFor t q _ k p, fun k => writeNext_key t q _ k, ⟨r, hr, hk⟩, hx,
        hc, ?_, fun b hbk => ?_, fun q' => ?_⟩
      · simp only [unlink, readBucketValue, hb, Option.bind_some, hrx, Option.map_some, hkx,
          if_false]
        exact hl
      · refine hw.chain_eq ?_
        rw [hnext, he, List.append_assoc]
        exact hsp
      · refine hw.chain_eq ?_
        rw [hnext]
        refine (h.chain b).congr fun p' hp' => Function.update_of_ne ?_ _ _
        rintro rfl
        exact hbk (h.chain_disjoint hp' hq)
      · rw [hnext]
        by_cases hqq : q' = q
        · subst hqq
          exact .inr ⟨⟨ws, he⟩, Function.update_self ..⟩
        · exact .inl (Function.update_of_ne hqq ..)

/-- **`unlink` of a present key pops the key's stack.** -/
theorem WF.unlink_stack (h : t.WF) {key : K} {v : V} {vs : List V}
    (hs : t.stack key = v :: vs) :
    ∃ t', t.unlink key = some (t', true) ∧ t'.WF ∧ t'.stack = t.stack.pop key := by
  obtain ⟨t', xs, ys, p, hu, hun⟩ := h.unlink_unlinks hs
  obtain ⟨r, hr, hk⟩ := hun.row
  exact ⟨t', hu, hun.wf, stack_pop hun.bucketIndex_eq hun.valueFor_eq hun.chain_before hr hk
    hun.before hun.chain_after hun.chain_other⟩

/-- The loop of `unlink` over a chain without the key runs to the end and changes nothing. -/
theorem WF.unlinkFrom_absent (h : t.WF) {key : K} {us : List Nat} {previous fuel : Nat}
    {current : Option Nat} (hc : Chain t.next current us) (hus : ∀ u ∈ us, ∃ r, t.row u = some r)
    (hx : ∀ u ∈ us, t.valueFor key u = none) (hf : us.length < fuel) :
    t.unlinkFrom key fuel previous current = some (t, false) := by
  induction hc generalizing previous fuel with
  | nil =>
      cases fuel with
      | zero => exact absurd hf (Nat.not_lt_zero _)
      | succ fuel => rfl
  | cons u us hc ih =>
      cases fuel with
      | zero => exact absurd hf (Nat.not_lt_zero _)
      | succ fuel =>
          obtain ⟨ru, hu⟩ := hus u List.mem_cons_self
          have hku := key_ne_of_valueFor hu (hx u List.mem_cons_self)
          have hn : t.next u = ru.next := by simp [HashTable.next, hu]
          have ih := @ih u fuel (fun u' hu' => hus u' (List.mem_cons_of_mem _ hu'))
            (fun u' hu' => hx u' (List.mem_cons_of_mem _ hu')) (Nat.lt_of_succ_lt_succ hf)
          rw [hn] at ih
          simp only [unlinkFrom, hu, hku, h.next_ne_self hu, if_false]
          exact ih

/-- **`unlink` of an absent key in a nonempty bucket answers false and changes nothing.** -/
theorem WF.unlink_absent (h : t.WF) {key : K} (hs : t.stack key = []) {begin : Nat}
    (hb : t.readBucketValue key = some begin) : t.unlink key = some (t, false) := by
  have hch := h.chain (t.bucketIndex key)
  have hx : ∀ x ∈ t.chain (t.bucketIndex key), t.valueFor key x = none :=
    List.filterMap_eq_nil_iff.mp hs
  have hlen := h.chain_length (t.bucketIndex key)
  have hmem := fun x hx => h.mem_chain (b := t.bucketIndex key) (p := x) hx
  rw [show t.bucket (t.bucketIndex key) = some begin from hb] at hch
  generalize t.chain (t.bucketIndex key) = ps at *
  cases hch with
  | cons _ us hch =>
      obtain ⟨r, hr, _⟩ := hmem begin List.mem_cons_self
      have hk := key_ne_of_valueFor hr (hx begin List.mem_cons_self)
      have hn : t.next begin = r.next := by simp [HashTable.next, hr]
      rw [hn] at hch
      simp only [unlink, hb, Option.bind_some, hr, Option.map_some, hk, if_false]
      exact h.unlinkFrom_absent hch
        (fun u hu => (hmem u (List.mem_cons_of_mem _ hu)).imp fun _ hr => hr.1)
        (fun u hu => hx u (List.mem_cons_of_mem _ hu)) (by simp at hlen; omega)

/-- Whatever `unlink` answers, the invariant holds after it. -/
theorem WF.unlink (h : t.WF) {key : K} {t' : HashTable K V} {b : Bool}
    (hu : t.unlink key = some (t', b)) : t'.WF := by
  cases hs : t.stack key with
  | cons v vs =>
      obtain ⟨t'', hu', hw, _⟩ := h.unlink_stack hs
      rw [hu] at hu'
      cases hu'
      exact hw
  | nil =>
      cases hb : t.readBucketValue key with
      | none =>
          rw [HashTable.unlink, hb] at hu
          cases hu
      | some begin =>
          rw [h.unlink_absent hs hb] at hu
          cases hu
          exact h

/-- An unlink rewrites links only. -/
theorem unlinkFrom_value {t t' : HashTable K V} {key : K} {fuel previous : Nat}
    {current : Option Nat} {b : Bool} (hu : t.unlinkFrom key fuel previous current = some (t', b))
    (p : Nat) : (t'.row p).map Row.value = (t.row p).map Row.value := by
  induction fuel generalizing previous current with
  | zero => cases hu
  | succ fuel ih =>
      cases current with
      | none =>
          cases hu
          rfl
      | some current =>
          rw [unlinkFrom] at hu
          cases hr : t.row current with
          | none =>
              rw [hr] at hu
              cases hu
          | some item =>
              simp only [hr] at hu
              split at hu
              · cases hu
                unfold release writeNext
                by_cases hp : p = previous
                · subst hp
                  simp only [Function.update_self]
                  cases t.row p <;> rfl
                · simp only [Function.update_of_ne hp]
              · split at hu
                · cases hu
                  rfl
                · exact ih hu

theorem unlink_value {t t' : HashTable K V} {key : K} {b : Bool}
    (hu : t.unlink key = some (t', b)) (p : Nat) :
    (t'.row p).map Row.value = (t.row p).map Row.value := by
  unfold unlink at hu
  split at hu
  · cases hu
  · split at hu
    · cases hu
      rfl
    · exact unlinkFrom_value hu p

/-- `unlink` leaves the number of buckets and the end of the allocations. -/
theorem unlink_frame {t t' : HashTable K V} {key : K} {b : Bool}
    (hu : t.unlink key = some (t', b)) : t'.size = t.size ∧ t'.free = t.free := by
  have hfrom (fuel previous : Nat) (current : Option Nat)
      (hu : t.unlinkFrom key fuel previous current = some (t', b)) :
      t'.size = t.size ∧ t'.free = t.free := by
    induction fuel generalizing previous current with
    | zero => cases hu
    | succ fuel ih =>
        cases current with
        | none =>
            cases hu
            exact ⟨rfl, rfl⟩
        | some current =>
            rw [unlinkFrom] at hu
            cases hr : t.row current with
            | none =>
                rw [hr] at hu
                cases hu
            | some item =>
                simp only [hr] at hu
                split at hu
                · cases hu
                  exact ⟨rfl, rfl⟩
                · split at hu
                  · cases hu
                    exact ⟨rfl, rfl⟩
                  · exact ih _ _ hu
  unfold unlink at hu
  split at hu
  · cases hu
  · split at hu
    · cases hu
      exact ⟨rfl, rfl⟩
    · exact hfrom _ _ _ hu

/-! ### write in place -/

omit [DecidableEq K] in
/-- A write of a value leaves the chains. -/
theorem WF.writeValue_chain (h : t.WF) (p : Nat) (write : V → V) (b : Nat) :
    (t.writeValue p write).chain b = t.chain b := by
  have hnext : (t.writeValue p write).next = t.next := by
    funext q
    by_cases hq : q = p
    · subst hq
      simp only [HashTable.next, HashTable.writeValue, Function.update_self]
      cases t.row q <;> rfl
    · simp [HashTable.next, HashTable.writeValue, hq]
  refine (h.writeValue p write).chain_eq ?_
  rw [hnext]
  exact h.chain b

/-- A write of a value changes no answer of `find`. -/
theorem WF.writeValue_find (h : t.WF) (p : Nat) (write : V → V) (key : K) :
    (t.writeValue p write).find key = t.find key := by
  rw [(h.writeValue p write).find_eq, h.find_eq, h.writeValue_chain]
  refine List.find?_congr fun q _ => ?_
  unfold valueFor
  by_cases hq : q = p
  · subst hq
    simp only [HashTable.writeValue, Function.update_self]
    cases t.row q with
    | none => rfl
    | some r =>
        by_cases hk : r.key = key <;> simp [hk]
  · simp only [HashTable.writeValue, Function.update_of_ne hq]

/-- **A write through the memory `find` returned edits the top of the key's stack.** -/
theorem WF.writeValue_stack (h : t.WF) {key : K} {p : Nat} (hf : t.find key = some p)
    (write : V → V) : (t.writeValue p write).stack = t.stack.modifyTop key write := by
  obtain ⟨xs, ys, r, hc, hr, hk, hx⟩ := h.find_some hf
  have hchain := h.writeValue_chain p write
  have hval (k : K) (q : Nat) (hq : q ≠ p) :
      (t.writeValue p write).valueFor k q = t.valueFor k q := by
    simp [valueFor, HashTable.writeValue, hq]
  have hnd : (xs ++ p :: ys).Nodup := hc ▸ (h.chain _).nodup h.descends
  have hp : (t.writeValue p write).row p = some { r with value := write r.value } := by
    simp [HashTable.writeValue, hr]
  funext k
  by_cases hkk : k = key
  · subst hkk
    rw [Stacks.modifyTop_same, stack_split hc hr hk hx]
    have hx' : ∀ x ∈ xs, (t.writeValue p write).valueFor k x = none := fun x hxm => by
      rw [hval k x]
      · exact hx x hxm
      · rintro rfl
        simp [List.nodup_append] at hnd
        exact (hnd.2.2 x hxm).1 rfl
    rw [stack_split (t := t.writeValue p write) ((hchain _).trans hc) hp hk hx']
    simp only [List.modifyHead_cons]
    congr 1
    refine List.filterMap_congr fun y hy => hval k y ?_
    rintro rfl
    simp [List.nodup_append] at hnd
    exact hnd.2.1.1 hy
  · rw [Stacks.modifyTop_ne _ _ hkk, stack, stack]
    have hb : (t.writeValue p write).bucketIndex k = t.bucketIndex k := rfl
    rw [hb, hchain]
    refine List.filterMap_congr fun y _ => ?_
    by_cases hy : y = p
    · subst hy
      simp [valueFor, hp, hr, hk, Ne.symm hkk]
    · exact hval k y hy

end Refinement

end HashTable

end Libbitcoin.Database
