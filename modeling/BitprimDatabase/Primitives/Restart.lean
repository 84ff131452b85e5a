/-
  File:      BitprimDatabase/Primitives/Restart.lean
  Subject:   A TABLE AGAINST THE COUNTER IN ITS FILE (record_manager.cpp, slab_manager.cpp). Buckets
             and next positions go to the mapped file at once, the counter of the allocations only
             where the manager is synchronized; `start` reads it back and allocates from there.

  * `Linked`, `EndsAt` -- the items on the chains, and where an item ends;
  * `Restartable` -- **every linked item lies wholly below the counter read back**: no later
    allocation starts in front of its end, and the chains are finite;
  * `WF.restartable` -- a table at its own counter is; `Linked.not_restartable` -- a table with a
    linked item at or behind the counter is not;
  * `storeItems_linked`, `addRows_linked` -- stores leave such an item as long as the counter in the
    file is the old one.
-/
import Mathlib.Data.Nat.Find
import BitprimDatabase.Lib.Run
import BitprimDatabase.Primitives.RecordMultimap

namespace Libbitcoin.Database

open Lib

namespace HashTable

variable {K V : Type} {t : HashTable K V}

/-! ## 1. Linked items -/

/-- What a bucket or the next position of a linked item refers to. -/
inductive Linked (t : HashTable K V) : Nat → Prop where
  | head (b p : Nat) (h : t.bucket b = some p) : Linked t p
  | next (p q : Nat) (hp : Linked t p) (h : t.next p = some q) : Linked t q

/-- An item ends where the next one starts, the last one at the end of the allocations. -/
structure EndsAt (t : HashTable K V) (p q : Nat) : Prop where
  lt : p < q
  boundary : q = t.free ∨ (t.row q).isSome
  between : ∀ r, p < r → r < q → t.row r = none

/-- The items of a chain are linked where its head is. -/
theorem linked_of_chain {head : Option Nat} {ps : List Nat} (hc : Chain t.next head ps)
    (hh : ∀ p, head = some p → t.Linked p) : ∀ p ∈ ps, t.Linked p := by
  induction hc with
  | nil => exact fun _ hp => absurd hp List.not_mem_nil
  | cons p ps _ ih =>
      have hp := hh p rfl
      intro q hq
      rcases List.mem_cons.mp hq with rfl | hq
      · exact hp
      · exact ih (fun r hr => .next p r hp hr) q hq

theorem WF.linked_of_find [DecidableEq K] (h : t.WF) {key : K} {p : Nat}
    (hf : t.find key = some p) : t.Linked p := by
  obtain ⟨_, _, _, hc, _⟩ := h.find_some hf
  refine linked_of_chain (h.chain (t.bucketIndex key)) (fun q hq => .head _ q hq) p ?_
  rw [hc]
  exact List.mem_append_right _ List.mem_cons_self

theorem WF.linked_lt (h : t.WF) {p : Nat} (hp : t.Linked p) : p < t.free := by
  cases hp with
  | head b p hb => exact h.bucket_lt hb
  | next q p _ hn =>
      obtain ⟨r, hr, hn⟩ := Option.bind_eq_some_iff.mp hn
      obtain ⟨_, r', hr', _⟩ := h.next_row q r p hr hn
      exact h.row_lt p r' hr'

theorem WF.endsAt_le (h : t.WF) {p q : Nat} (hq : t.EndsAt p q) : q ≤ t.free := by
  rcases hq.boundary with rfl | hr
  · exact Nat.le_refl _
  · obtain ⟨r, hr⟩ := Option.isSome_iff_exists.mp hr
    exact Nat.le_of_lt (h.row_lt q r hr)

/-- An item below the end of the allocations ends somewhere. -/
theorem exists_endsAt {p : Nat} (hp : p < t.free) : ∃ q, t.EndsAt p q := by
  classical
  have hex : ∃ q, p < q ∧ (q = t.free ∨ (t.row q).isSome) := ⟨t.free, hp, .inl rfl⟩
  obtain ⟨hlt, hq⟩ := Nat.find_spec hex
  refine ⟨Nat.find hex, hlt, hq, fun r hr hrq => ?_⟩
  have hnot := Nat.find_min hex hrq
  by_contra hsome
  exact hnot ⟨hr, .inr (Option.isSome_iff_ne_none.mpr hsome)⟩

/-! ## 2. The table behind a restart -/

/-- The table of a manager that has read the counter back. -/
def restart (t : HashTable K V) (stored : Nat) : HashTable K V := { t with free := stored }

/-- Stores of items with their extents, one after another. -/
def storeItems (t : HashTable K V) (items : List (K × V × Nat)) : HashTable K V :=
  items.foldl (fun t item => (t.store item.1 item.2.1 item.2.2).1) t

/-- **A table that is well formed at the counter read back**: every linked item lies wholly below
    it, whatever is stored later is allocated behind the linked items, and the chains end. -/
structure Restartable (t : HashTable K V) (stored : Nat) : Prop where
  below : ∀ p, t.Linked p → ∃ q, t.EndsAt p q ∧ q ≤ stored
  unused : ∀ p q, t.Linked p → t.EndsAt p q → ∀ items,
    q ≤ ((t.restart stored).storeItems items).free
  acyclic : ∀ b, ∃ ps, Chain t.next (t.bucket b) ps ∧ ps.Nodup

theorem free_le_storeItems (t : HashTable K V) (items : List (K × V × Nat)) :
    t.free ≤ (t.storeItems items).free := by
  refine run_of_step (P := fun t' : HashTable K V => t.free ≤ t'.free) (fun t' item h => ?_) items
    (Nat.le_refl _)
  exact Nat.le_trans h (Nat.le_add_right _ _)

/-- **A table is restartable at its own counter.** -/
theorem WF.restartable (h : t.WF) : t.Restartable t.free where
  below p hp := by
    obtain ⟨q, hq⟩ := exists_endsAt (h.linked_lt hp)
    exact ⟨q, hq, h.endsAt_le hq⟩
  unused p q _ hq items := Nat.le_trans (h.endsAt_le hq) ((t.restart t.free).free_le_storeItems items)
  acyclic b := ⟨t.chain b, h.chain b, (h.chain b).nodup h.descends⟩

/-- **A linked item at or behind the counter** is the next one to be overwritten. -/
theorem Linked.not_restartable {p stored : Nat} (hp : t.Linked p) (hle : stored ≤ p) :
    ¬ t.Restartable stored := by
  intro h
  obtain ⟨q, hq, hqs⟩ := h.below p hp
  exact absurd hq.lt (Nat.not_lt.mpr (Nat.le_trans hqs hle))

/-- The item just stored is the head of its bucket. -/
theorem store_linked (t : HashTable K V) (key : K) (value : V) (extent : Nat) :
    (t.store key value extent).1.Linked t.free :=
  .head (t.bucketIndex key) t.free (by rw [store_bucket, if_pos rfl])

/-- **Stores leave a linked item at or behind the old counter.** -/
theorem storeItems_linked (t : HashTable K V) {items : List (K × V × Nat)} (hne : items ≠ []) :
    ∃ p, (t.storeItems items).Linked p ∧ t.free ≤ p := by
  rcases List.eq_nil_or_concat items with rfl | ⟨init, last, rfl⟩
  · exact absurd rfl hne
  · refine ⟨(t.storeItems init).free, ?_, t.free_le_storeItems init⟩
    unfold storeItems
    rw [List.concat_eq_append, List.foldl_append]
    exact store_linked _ _ _ _

end HashTable

/-! ## 3. The multimap -/

namespace RecordMultimap

variable {K R : Type} [DecidableEq K]

/-- The records that the values of the linked items and the next indexes refer to. -/
inductive Linked (m : RecordMultimap K R) : Nat → Prop where
  | begin (p : Nat) (item : Row K Nat) (hp : m.map.toHashTable.Linked p)
      (hr : m.map.row p = some item) : Linked m item.value
  | next (i j : Nat) (hi : Linked m i) (h : m.records.next i = some j) : Linked m j

/-- **The multimap is well formed at the counters read back**, of its items and of its records. -/
structure Restartable (m : RecordMultimap K R) (stored storedRows : Nat) : Prop where
  map : m.map.toHashTable.Restartable stored
  below : ∀ i, m.Linked i → i < storedRows
  acyclic : ∀ i, m.Linked i → ∃ is, Chain m.records.next (some i) is ∧ is.Nodup

theorem linked_lt (m : RecordMultimap K R) {i : Nat} (h : m.Linked i) : i < m.records.count := by
  induction h with
  | begin p item _ hr => exact m.value_lt p item hr
  | next i j _ hn ih => exact Nat.lt_trans (m.records.descends i j hn) ih

theorem restartable (m : RecordMultimap K R) : m.Restartable m.map.free m.records.count where
  map := m.map.wf.restartable
  below _ h := m.linked_lt h
  acyclic i h := by
    have hb : ∀ j, some i = some j → j < m.records.count := by
      rintro _ ⟨⟩
      exact m.linked_lt h
    exact ⟨m.records.chain (some i), m.records.chain_spec hb, m.records.chain_nodup hb⟩

theorem Linked.not_restartable {m : RecordMultimap K R} {i stored storedRows : Nat}
    (h : m.Linked i) (hle : storedRows ≤ i) : ¬ m.Restartable stored storedRows := fun hr =>
  absurd (hr.below i h) (Nat.not_lt.mpr hle)

theorem linked_of_lookup (m : RecordMultimap K R) {key : K} {begin : Nat}
    (h : m.lookup key = some begin) : m.Linked begin := by
  obtain ⟨p, item, hf, hr, _, rfl⟩ := Table.get_eq_some h
  exact .begin p item (m.map.wf.linked_of_find hf) hr

/-- The first record of the key behind `add_row` is the record just added. -/
theorem addRow_lookup (m : RecordMultimap K R) (key : K) (row : R) :
    (m.addRow key row).lookup key = some m.records.count := by
  unfold addRow
  split
  · show (m.map.store key _ 1 Nat.one_pos).get key = _
    rw [Table.store_get, if_pos rfl]
    rfl
  · rename_i oldBegin h
    show (m.map.write key fun _ => _).get key = _
    rw [Table.get_eq, Table.write_stack, Stacks.modifyTop_head, if_pos rfl, ← Table.get_eq,
      show m.map.get key = some oldBegin from h]
    rfl

theorem addRow_count (m : RecordMultimap K R) (key : K) (row : R) :
    (m.addRow key row).records.count = m.records.count + 1 := by
  unfold addRow
  split <;> rfl

theorem free_le_addRow (m : RecordMultimap K R) (key : K) (row : R) :
    m.map.free ≤ (m.addRow key row).map.free := by
  unfold addRow
  split
  · exact Nat.le_add_right _ _
  · exact Nat.le_of_eq (Table.write_free ..).symm

/-- Rows added one after another. -/
def addRows (m : RecordMultimap K R) (rows : List (K × R)) : RecordMultimap K R :=
  rows.foldl (fun m row => m.addRow row.1 row.2) m

theorem counters_le_addRows (m : RecordMultimap K R) (rows : List (K × R)) :
    m.map.free ≤ (m.addRows rows).map.free ∧
      m.records.count ≤ (m.addRows rows).records.count := by
  refine run_of_step (P := fun m' : RecordMultimap K R =>
    m.map.free ≤ m'.map.free ∧ m.records.count ≤ m'.records.count) (fun m' row h => ?_) rows
    ⟨Nat.le_refl _, Nat.le_refl _⟩
  rw [addRow_count]
  exact ⟨Nat.le_trans h.1 (m'.free_le_addRow row.1 row.2), Nat.le_succ_of_le h.2⟩

/-- **Added rows leave a linked record at or behind the old counter.** -/
theorem addRows_linked (m : RecordMultimap K R) {rows : List (K × R)} (hne : rows ≠ []) :
    ∃ i, (m.addRows rows).Linked i ∧ m.records.count ≤ i := by
  rcases List.eq_nil_or_concat rows with rfl | ⟨init, last, rfl⟩
  · exact absurd rfl hne
  · refine ⟨(m.addRows init).records.count, ?_, ?_⟩
    · unfold addRows
      rw [List.concat_eq_append, List.foldl_append]
      exact linked_of_lookup _ (addRow_lookup _ _ _)
    · exact (m.counters_le_addRows init).2

end RecordMultimap

end Libbitcoin.Database
