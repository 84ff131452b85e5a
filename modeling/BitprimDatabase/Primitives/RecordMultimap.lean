/-
  File:      BitprimDatabase/Primitives/RecordMultimap.lean
  Subject:   THE MULTIMAP (record_list.cpp, record_multimap.ipp, record_multimap_iterator.cpp): a
             hash table from a key to the first record of a linked list of rows. A row is added in
             front and only the front row can be deleted; a key without rows has no item.

  `rows` is what iterating from `lookup` yields. **`add_row` pushes, `delete_last_row` pops.**
-/
import BitprimDatabase.Primitives.Table

namespace Libbitcoin.Database

open Lib

/-! ## 1. The record list -/

/-- Records by index, each with the index of the next one and a row: a record is never removed,
    and links to an earlier record. -/
structure RecordList (R : Type) where
  count : Nat
  record : Nat → Option (Option Nat × R)
  isSome_iff : ∀ i, (record i).isSome ↔ i < count
  link_lt : ∀ i j r, record i = some (some j, r) → j < i

namespace RecordList

variable {R : Type}

/-- The list of an empty file. -/
def empty : RecordList R := ⟨0, fun _ => none, by simp, by simp⟩

/-- The index of the next record. -/
def next (l : RecordList R) (i : Nat) : Option Nat := (l.record i).bind Prod.fst

/-- A new record in front of the record at `index`, and its own index. -/
def insert (l : RecordList R) (index : Option Nat) (row : R)
    (h : ∀ j, index = some j → j < l.count) : RecordList R × Nat :=
  ({ count := l.count + 1
     record := Function.update l.record l.count (some (index, row))
     isSome_iff := fun i => by
      by_cases hi : i = l.count
      · subst hi
        simp
      · rw [Function.update_of_ne hi, l.isSome_iff]
        omega
     link_lt := fun i j r hr => by
      by_cases hi : i = l.count
      · subst hi
        rw [Function.update_self] at hr
        cases hr
        exact h j rfl
      · rw [Function.update_of_ne hi] at hr
        exact l.link_lt i j r hr },
    l.count)

/-- A new record with no next one. -/
def create (l : RecordList R) (row : R) : RecordList R × Nat :=
  l.insert none row fun _ h => (nomatch h)

/-- The records the iteration visits from a record. -/
def chain (l : RecordList R) (begin : Option Nat) : List Nat := walk l.next l.count begin

/-- The rows the iteration visits from a record (record_multimap_iterable). -/
def rows (l : RecordList R) (begin : Option Nat) : List R :=
  (l.chain begin).filterMap fun i => (l.record i).map Prod.snd

theorem descends (l : RecordList R) : Descends l.next := by
  intro i j h
  obtain ⟨⟨n, r⟩, hr, hn⟩ := Option.bind_eq_some_iff.mp h
  cases hn
  exact l.link_lt i j r hr

theorem next_eq {l : RecordList R} {i : Nat} {n : Option Nat} {row : R}
    (h : l.record i = some (n, row)) : l.next i = n := by
  rw [next, h]
  rfl

theorem record_lt {l : RecordList R} {i : Nat} {n : Option Nat} {row : R}
    (h : l.record i = some (n, row)) : i < l.count := (l.isSome_iff i).mp (by rw [h]; rfl)

theorem chain_spec (l : RecordList R) {begin : Option Nat}
    (hb : ∀ i, begin = some i → i < l.count) : Chain l.next begin (l.chain begin) :=
  chain_walk l.descends l.count begin hb

theorem chain_lt (l : RecordList R) {begin : Option Nat}
    (hb : ∀ i, begin = some i → i < l.count) : ∀ i ∈ l.chain begin, i < l.count :=
  (l.chain_spec hb).mem_lt l.descends hb

theorem chain_nodup (l : RecordList R) {begin : Option Nat}
    (hb : ∀ i, begin = some i → i < l.count) : (l.chain begin).Nodup :=
  (l.chain_spec hb).nodup l.descends

@[simp] theorem chain_none (l : RecordList R) : l.chain none = [] := by
  unfold chain
  cases l.count <;> rfl

@[simp] theorem rows_none (l : RecordList R) : l.rows none = [] := by
  unfold rows
  rw [chain_none]
  rfl

/-- The records from a record: itself, then those from its next record. -/
theorem chain_some (l : RecordList R) {i : Nat} {n : Option Nat} {row : R}
    (h : l.record i = some (n, row)) : l.chain (some i) = i :: l.chain n := by
  have hn : ∀ p, n = some p → p < l.count := fun p hp =>
    Nat.lt_trans (l.link_lt i p row (hp ▸ h)) (record_lt h)
  refine (l.chain_spec (by rintro _ ⟨⟩; exact record_lt h)).unique (.cons i _ ?_)
  rw [next_eq h]
  exact l.chain_spec hn

/-- The rows from a record: its own, then those from its next record. -/
theorem rows_some (l : RecordList R) {i : Nat} {n : Option Nat} {row : R}
    (h : l.record i = some (n, row)) : l.rows (some i) = row :: l.rows n := by
  unfold rows
  rw [l.chain_some h]
  simp [h]

theorem count_le_insert (l : RecordList R) {index : Option Nat} {row : R}
    (h : ∀ j, index = some j → j < l.count) : l.count ≤ (l.insert index row h).1.count :=
  Nat.le_succ _

theorem insert_lt (l : RecordList R) {index : Option Nat} {row : R}
    (h : ∀ j, index = some j → j < l.count) :
    (l.insert index row h).2 < (l.insert index row h).1.count :=
  Nat.lt_succ_self _

/-- A chain goes down from its head. -/
theorem le_of_mem_chain (l : RecordList R) {i j : Nat} (hi : i < l.count)
    (h : j ∈ l.chain (some i)) : j ≤ i := by
  have hc := @chain_spec _ l (some i) fun _ he => Option.some.inj he ▸ hi
  exact Nat.le_of_lt_succ (hc.mem_lt l.descends (fun _ he => Option.some.inj he ▸ Nat.lt_succ_self _) j h)

/-- Records are added and none is rewritten. -/
structure Extends (l l' : RecordList R) : Prop where
  count_le : l.count ≤ l'.count
  record_eq : ∀ i < l.count, l'.record i = l.record i

namespace Extends

variable {l l' l'' : RecordList R}

theorem refl (l : RecordList R) : Extends l l := ⟨Nat.le_refl _, fun _ _ => rfl⟩

theorem trans (h : Extends l l') (h' : Extends l' l'') : Extends l l'' :=
  ⟨Nat.le_trans h.1 h'.1, fun i hi =>
    (h'.2 i (Nat.lt_of_lt_of_le hi h.1)).trans (h.2 i hi)⟩

theorem next (h : Extends l l') {i : Nat} (hi : i < l.count) : l'.next i = l.next i := by
  unfold RecordList.next
  rw [h.2 i hi]

/-- The chains from the records already there stay. -/
theorem chain (h : Extends l l') {begin : Option Nat} (hb : ∀ i, begin = some i → i < l.count) :
    l'.chain begin = l.chain begin := by
  refine walk_of_chain l'.descends ((l.chain_spec hb).congr fun i hi => ?_)
    fun i hi => Nat.lt_of_lt_of_le (hb i hi) h.1
  exact h.next (l.chain_lt hb i hi)

end Extends

theorem insert_extends (l : RecordList R) {index : Option Nat} {row : R}
    (h : ∀ j, index = some j → j < l.count) : Extends l (l.insert index row h).1 :=
  ⟨Nat.le_succ _, fun _ hi => Function.update_of_ne (Nat.ne_of_lt hi) ..⟩

/-- The inserted record. -/
theorem insert_record_new (l : RecordList R) {index : Option Nat} {row : R}
    (h : ∀ j, index = some j → j < l.count) :
    (l.insert index row h).1.record l.count = some (index, row) := Function.update_self ..

/-- An insert leaves the rows from the records already there. -/
theorem insert_rows (l : RecordList R) {index : Option Nat} {row : R}
    (h : ∀ j, index = some j → j < l.count) {begin : Option Nat}
    (hb : ∀ i, begin = some i → i < l.count) :
    (l.insert index row h).1.rows begin = l.rows begin := by
  unfold rows
  rw [(l.insert_extends h).chain hb]
  refine List.filterMap_congr fun i hi => ?_
  rw [(l.insert_extends h).2 i (l.chain_lt hb i hi)]

/-- The rows from the inserted record. -/
theorem insert_rows_new (l : RecordList R) {index : Option Nat} {row : R}
    (h : ∀ j, index = some j → j < l.count) :
    (l.insert index row h).1.rows (some (l.insert index row h).2) = row :: l.rows index := by
  rw [← insert_rows l h h]
  exact rows_some _ (l.insert_record_new h)

end RecordList

/-! ## 2. The multimap -/

/-- A hash table of first records over a record list; a key has at most one item, and the record
    of an item exists. -/
structure RecordMultimap (K R : Type) [DecidableEq K] where
  map : Table K Nat
  records : RecordList R
  value_lt : ∀ p item, map.row p = some item → item.value < records.count
  one_begin : ∀ key, (map.stack key).length ≤ 1

namespace RecordMultimap

variable {K R : Type} [DecidableEq K]

def create (hash : K → Nat) (buckets : Nat) : RecordMultimap K R :=
  ⟨Table.create hash buckets 0, RecordList.empty, fun _ _ h => (nomatch h), by simp⟩

/-- The first record of a key. -/
def lookup (m : RecordMultimap K R) (key : K) : Option Nat := m.map.get key

/-- The rows of each key, the last one added first. -/
def rows (m : RecordMultimap K R) : Stacks K R := fun key => m.records.rows (m.lookup key)

theorem lookup_lt (m : RecordMultimap K R) {key : K} {begin : Nat}
    (h : m.lookup key = some begin) : begin < m.records.count := by
  obtain ⟨p, item, _, hr, _, rfl⟩ := Table.get_eq_some h
  exact m.value_lt p item hr

theorem stack_of_lookup_none (m : RecordMultimap K R) {key : K} (h : m.lookup key = none) :
    m.map.stack key = [] := by
  rw [lookup, Table.get_eq] at h
  exact List.head?_eq_none_iff.mp h

theorem stack_of_lookup_some (m : RecordMultimap K R) {key : K} {begin : Nat}
    (h : m.lookup key = some begin) : m.map.stack key = [begin] := by
  have hone := m.one_begin key
  rw [lookup, Table.get_eq] at h
  cases hs : m.map.stack key with
  | nil => rw [hs] at h; cases h
  | cons b bs =>
      rw [hs] at h hone
      cases h
      rw [List.eq_nil_of_length_eq_zero (Nat.le_zero.mp (Nat.le_of_succ_le_succ hone))]

/-- A record for a key that has none. -/
def createNew (m : RecordMultimap K R) (key : K) (row : R) (h : m.lookup key = none) :
    RecordMultimap K R where
  map := m.map.store key (m.records.create row).2 1 Nat.one_pos
  records := (m.records.create row).1
  value_lt p item hr := by
    rcases m.map.store_row key _ Nat.one_pos hr with ⟨_, _, hv⟩ | hr
    · exact hv ▸ Nat.lt_succ_self _
    · exact Nat.lt_succ_of_lt (m.value_lt p item hr)
  one_begin k := by
    rw [Table.store_stack]
    by_cases hk : k = key
    · subst hk
      rw [Stacks.push_same, m.stack_of_lookup_none h]
      exact Nat.le_refl 1
    · rw [Stacks.push_ne _ _ hk]
      exact m.one_begin k

/-- Write the first record of a key through the memory `find` returned. -/
def writeBegin (m : RecordMultimap K R) (key : K) (records : RecordList R) (begin : Nat)
    (hc : m.records.count ≤ records.count) (hb : begin < records.count) : RecordMultimap K R where
  map := m.map.write key fun _ => begin
  records := records
  value_lt p item hr := by
    obtain ⟨old, ho, hv | hv⟩ := m.map.write_row key _ hr
    · exact hv ▸ Nat.lt_of_lt_of_le (m.value_lt p old ho) hc
    · exact hv ▸ hb
  one_begin k := by
    rw [Table.write_stack]
    by_cases hkey : k = key
    · subst hkey
      rw [Stacks.modifyTop_same, List.length_modifyHead]
      exact m.one_begin k
    · rw [Stacks.modifyTop_ne _ _ hkey]
      exact m.one_begin k

/-- A record in front of a key's first one. -/
def addToList (m : RecordMultimap K R) (key : K) (oldBegin : Nat) (row : R)
    (h : oldBegin < m.records.count) : RecordMultimap K R :=
  have hlt : ∀ j, some oldBegin = some j → j < m.records.count := by
    rintro _ ⟨⟩
    exact h
  m.writeBegin key (m.records.insert (some oldBegin) row hlt).1
    (m.records.insert (some oldBegin) row hlt).2 (m.records.count_le_insert hlt)
    (m.records.insert_lt hlt)

def addRow (m : RecordMultimap K R) (key : K) (row : R) : RecordMultimap K R :=
  match h : m.lookup key with
  | none => m.createNew key row h
  | some oldBegin => m.addToList key oldBegin row (m.lookup_lt h)

/-- Unlink the item of a key. -/
def unlink (m : RecordMultimap K R) (key : K) : RecordMultimap K R × Bool :=
  ({ map := (m.map.unlinkIfFound key).1
     records := m.records
     value_lt := fun p item hr => by
      have hv := m.map.unlinkIfFound_value key p
      rw [hr] at hv
      obtain ⟨old, ho, he⟩ := Option.map_eq_some_iff.mp hv.symm
      exact he ▸ m.value_lt p old ho
     one_begin := fun k => by
      rw [Table.unlinkIfFound_stack]
      by_cases hk : k = key
      · subst hk
        rw [Stacks.pop_same, List.length_tail]
        exact Nat.le_trans (Nat.sub_le _ _) (m.one_begin k)
      · rw [Stacks.pop_ne _ hk]
        exact m.one_begin k },
    (m.map.unlinkIfFound key).2)

/-- Delete the last row added for the key; `false` where it has none. -/
def deleteLastRow (m : RecordMultimap K R) (key : K) : RecordMultimap K R × Bool :=
  match h : m.lookup key with
  | none => (m, false)
  | some oldBegin =>
    match hn : m.records.next oldBegin with
    | none => m.unlink key
    | some newBegin =>
      (m.writeBegin key m.records newBegin (Nat.le_refl _)
        (Nat.lt_trans (m.records.descends _ _ hn) (m.lookup_lt h)), true)

/-! ## 3. What the operations do to the rows -/

@[simp] theorem create_rows (hash : K → Nat) (buckets : Nat) (key : K) :
    (create hash buckets : RecordMultimap K R).rows key = [] := by
  simp [rows, lookup, create, Table.get_eq]

theorem writeBegin_rows (m : RecordMultimap K R) {key : K} {records : RecordList R}
    {begin oldBegin : Nat} (hc : m.records.count ≤ records.count) (hb : begin < records.count)
    (h : m.lookup key = some oldBegin) (k : K) : (m.writeBegin key records begin hc hb).rows k =
      records.rows (if k = key then some begin else m.lookup k) := by
  show records.rows ((m.map.write key fun _ => begin).get k) = _
  rw [Table.get_eq, Table.write_stack, Stacks.modifyTop_head, ← Table.get_eq]
  by_cases hk : k = key
  · subst hk
    rw [if_pos rfl, if_pos rfl, show m.map.get k = some oldBegin from h, Option.map_some]
  · rw [if_neg hk, if_neg hk, lookup]

theorem createNew_rows (m : RecordMultimap K R) {key : K} {row : R} (h : m.lookup key = none)
    (k : K) : (m.createNew key row h).rows k =
      (m.records.create row).1.rows
        (if k = key then some (m.records.create row).2 else m.lookup k) := by
  show RecordList.rows _ ((m.map.store key _ 1 Nat.one_pos).get k) = _
  rw [Table.get_eq, Table.store_stack, Stacks.push_head, lookup, Table.get_eq]
  rfl

/-- **`add_row` puts the row in front of the key's rows.** -/
@[simp] theorem addRow_rows (m : RecordMultimap K R) (key : K) (row : R) :
    (m.addRow key row).rows = m.rows.push key row := by
  funext k
  unfold addRow
  split
  · rename_i h
    rw [createNew_rows]
    by_cases hk : k = key
    · subst hk
      have hr : m.rows k = [] := by rw [rows, h, RecordList.rows_none]
      rw [if_pos rfl, Stacks.push_same, hr, RecordList.create, RecordList.insert_rows_new,
        RecordList.rows_none]
    · rw [if_neg hk, Stacks.push_ne _ _ hk]
      exact RecordList.insert_rows _ _ fun i hi => m.lookup_lt hi
  · rename_i oldBegin h
    rw [addToList, m.writeBegin_rows _ _ h]
    by_cases hk : k = key
    · subst hk
      have hr : m.rows k = m.records.rows (some oldBegin) := by rw [rows, h]
      rw [if_pos rfl, Stacks.push_same, hr]
      exact RecordList.insert_rows_new _ _
    · rw [if_neg hk, Stacks.push_ne _ _ hk]
      exact RecordList.insert_rows _ _ fun i hi => m.lookup_lt hi

/-- A key with a first record has its row in front. -/
theorem rows_of_lookup (m : RecordMultimap K R) {key : K} {begin : Nat}
    (h : m.lookup key = some begin) :
    ∃ row, m.rows key = row :: m.records.rows (m.records.next begin) := by
  obtain ⟨⟨n, row⟩, hr⟩ := Option.isSome_iff_exists.mp
    ((m.records.isSome_iff begin).mpr (m.lookup_lt h))
  refine ⟨row, ?_⟩
  rw [rows, h, RecordList.rows_some _ hr]
  simp [RecordList.next, hr]

/-- **`delete_last_row` takes the front row of the key away**, and answers whether there was one. -/
theorem deleteLastRow_spec (m : RecordMultimap K R) (key : K) :
    (m.deleteLastRow key).1.rows = m.rows.pop key ∧
      (m.deleteLastRow key).2 = !(m.rows key).isEmpty := by
  unfold deleteLastRow
  split
  · rename_i h
    have hr : m.rows key = [] := by rw [rows, h, RecordList.rows_none]
    refine ⟨?_, by rw [hr]; rfl⟩
    funext k
    by_cases hk : k = key
    · subst hk
      simp [hr]
    · simp [hk]
  · rename_i oldBegin h
    obtain ⟨row, hr⟩ := m.rows_of_lookup h
    have hs := m.stack_of_lookup_some h
    split
    · rename_i hn
      refine ⟨?_, ?_⟩
      · funext k
        show RecordList.rows _ ((m.map.unlinkIfFound key).1.get k) = _
        rw [Table.get_eq, Table.unlinkIfFound_stack]
        by_cases hk : k = key
        · subst hk
          rw [Stacks.pop_same, Stacks.pop_same, hs, hr, hn]
          simp
        · rw [Stacks.pop_ne _ hk, Stacks.pop_ne _ hk, ← Table.get_eq]
          rfl
      · show (m.map.unlinkIfFound key).2 = _
        rw [Table.unlinkIfFound_result, hs, hr]
        rfl
    · rename_i newBegin hn
      refine ⟨?_, by rw [hr]; rfl⟩
      funext k
      rw [m.writeBegin_rows _ _ h]
      by_cases hk : k = key
      · subst hk
        rw [if_pos rfl, Stacks.pop_same, hr, hn]
        rfl
      · rw [if_neg hk, Stacks.pop_ne _ hk]
        rfl

@[simp] theorem deleteLastRow_rows (m : RecordMultimap K R) (key : K) :
    (m.deleteLastRow key).1.rows = m.rows.pop key := (m.deleteLastRow_spec key).1

@[simp] theorem deleteLastRow_result (m : RecordMultimap K R) (key : K) :
    (m.deleteLastRow key).2 = !(m.rows key).isEmpty := (m.deleteLastRow_spec key).2

end RecordMultimap

end Libbitcoin.Database
