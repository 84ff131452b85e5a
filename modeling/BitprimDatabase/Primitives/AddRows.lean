/-
  File:      BitprimDatabase/Primitives/AddRows.lean
  Subject:   **WHEN CONCURRENT CALLS OF `add_row` LOSE NO ROW** (record_multimap.ipp), as the
             bucket tasks of a block push issue them. A call is its atomic steps in code order:
             the lookup of the key, the read of the old first record, the insert of a record in
             front of it, the write of the new first record; or, for a key without an item, the
             insert of a first record and the locked link of a new item.

  * `step` -- the next step of one call; a schedule is the list of the calls whose turn it is;
  * `Publishes` -- a write of a first record finds the one the call has read, a link of a new item
    finds none;
  * `Extends`, `Inv` -- what every schedule keeps: records never change, and the chain of an item
    holds records of its key only; `Intact` -- what a schedule keeps up to the first write that
    does not find what its call has read; `Split` -- what that write leaves for good, two records
    of a key neither of which leads to the other;
  * **`kept_iff_everyStep`**: once all calls have returned, every row is there exactly where every
    write did find what its call has read.

  NOT here: the four bytes of a count and of an index, and the disk; AddRowsFile.lean has the same
  steps on the bytes of the two files.
-/
import Mathlib.Data.List.FinRange
import BitprimDatabase.Lib.Run
import BitprimDatabase.Primitives.RecordMultimap

namespace Libbitcoin.Database

open Lib

/-! ## 1. The machine -/

/-- Where a call stands: its next step, and what it goes on with. -/
inductive Stage where
  | find
  | readBegin (position : Nat)
  | insert (position oldBegin : Nat)
  | writeBegin (position newBegin : Nat)
  | create
  | store (first : Nat)
  | done (record : Nat)
  deriving DecidableEq

namespace Stage

/-- The item `find` answered. -/
def position : Stage → Option Nat
  | .readBegin position => some position
  | .insert position _ => some position
  | .writeBegin position _ => some position
  | _ => none

/-- The record the call has inserted. -/
def own : Stage → Option Nat
  | .writeBegin _ newBegin => some newBegin
  | .store first => some first
  | .done record => some record
  | _ => none

/-- The record the call has read or inserted. -/
def record : Stage → Option Nat
  | .insert _ oldBegin => some oldBegin
  | .writeBegin _ newBegin => some newBegin
  | .store first => some first
  | .done record => some record
  | _ => none

/-- The record the call has published. -/
def result : Stage → Option Nat
  | .done record => some record
  | _ => none

end Stage

/-- The shared table and records, and the stages of `n` calls. Items and calls hold records that
    exist. -/
structure AddRows (K R : Type) [DecidableEq K] (n : Nat) where
  map : Table K Nat
  records : RecordList R
  stage : Fin n → Stage
  value_lt : ∀ p item, map.row p = some item → item.value < records.count
  record_lt : ∀ i j, (stage i).record = some j → j < records.count

namespace AddRows

variable {K R : Type} [DecidableEq K] {n : Nat}

/-- The calls before their first step. -/
def start (m : RecordMultimap K R) : AddRows K R n where
  map := m.map
  records := m.records
  stage _ := .find
  value_lt := m.value_lt
  record_lt _ _ h := by cases h

/-- A call goes on to another stage. -/
def goto (s : AddRows K R n) (i : Fin n) (stage : Stage)
    (h : ∀ j, stage.record = some j → j < s.records.count) : AddRows K R n :=
  { s with
    stage := Function.update s.stage i stage
    record_lt := fun k j hj => by
      by_cases hk : k = i
      · subst hk
        rw [Function.update_self] at hj
        exact h j hj
      · rw [Function.update_of_ne hk] at hj
        exact s.record_lt k j hj }

/-- `records_.insert` and the write of the row; the new record is the last one. -/
def insertRecord (s : AddRows K R n) (index : Option Nat) (row : R)
    (h : ∀ j, index = some j → j < s.records.count) : AddRows K R n :=
  { s with
    records := (s.records.insert index row h).1
    value_lt := fun p item hr => Nat.lt_succ_of_lt (s.value_lt p item hr)
    record_lt := fun i j hj => Nat.lt_succ_of_lt (s.record_lt i j hj) }

/-- The locked write of a first record through the memory of an item. -/
def writeBegin (s : AddRows K R n) (position begin : Nat) (h : begin < s.records.count) :
    AddRows K R n :=
  { s with
    map := s.map.writeAt position begin
    value_lt := fun p item hr => by
      rcases s.map.writeAt_row hr with ⟨_, hv, _⟩ | ⟨_, hr⟩
      · exact hv ▸ h
      · exact s.value_lt p item hr }

/-- The locked link of a new item. -/
def storeBegin (s : AddRows K R n) (key : K) (first : Nat) (h : first < s.records.count) :
    AddRows K R n :=
  { s with
    map := s.map.store key first 1 Nat.one_pos
    value_lt := fun p item hr => by
      rcases s.map.store_row key first Nat.one_pos hr with ⟨_, _, hv⟩ | hr
      · exact hv ▸ h
      · exact s.value_lt p item hr }

variable (calls : Fin n → K × R)

/-- The next step of a call. -/
def step (s : AddRows K R n) (i : Fin n) : AddRows K R n :=
  match h : s.stage i with
  | .find =>
    match s.map.find (calls i).1 with
    | none => s.goto i .create fun _ h => (nomatch h)
    | some position => s.goto i (.readBegin position) fun _ h => (nomatch h)
  | .readBegin position =>
    match hr : s.map.row position with
    | none => s
    | some item =>
      s.goto i (.insert position item.value) fun _ hj => Option.some.inj hj ▸ s.value_lt _ _ hr
  | .insert position oldBegin =>
    (s.insertRecord (some oldBegin) (calls i).2
      fun _ hj => Option.some.inj hj ▸ s.record_lt i _ (congrArg Stage.record h)).goto i
        (.writeBegin position s.records.count)
        fun _ hj => Option.some.inj hj ▸ Nat.lt_succ_self _
  | .writeBegin position newBegin =>
    (s.writeBegin position newBegin (s.record_lt i _ (congrArg Stage.record h))).goto i
      (.done newBegin) fun _ hj => Option.some.inj hj ▸ s.record_lt i _ (congrArg Stage.record h)
  | .create =>
    (s.insertRecord none (calls i).2 fun _ h => (nomatch h)).goto i (.store s.records.count)
      fun _ hj => Option.some.inj hj ▸ Nat.lt_succ_self _
  | .store first =>
    (s.storeBegin (calls i).1 first (s.record_lt i _ (congrArg Stage.record h))).goto i
      (.done first) fun _ hj => Option.some.inj hj ▸ s.record_lt i _ (congrArg Stage.record h)
  | .done _ => s

/-- All calls have returned. -/
def Returned (s : AddRows K R n) : Prop := ∀ i, ∃ record, s.stage i = .done record

/-- The rows iterating from `lookup` yields. -/
def rows (s : AddRows K R n) (key : K) : List R := s.records.rows (s.map.get key)

/-- **No row lost and none duplicated**: the rows the key had and one for each of its calls. -/
def Kept (m : RecordMultimap K R) (s : AddRows K R n) : Prop :=
  ∀ key, (s.rows key).Perm
    ((((List.finRange n).filter fun i => (calls i).1 = key).map fun i => (calls i).2) ++ m.rows key)

/-- **A write finds what its call has read**: the item and the first record in front of which the
    new one was inserted; a link of a new item finds no item. -/
def Publishes (s : AddRows K R n) (i : Fin n) : Prop :=
  match s.stage i with
  | .writeBegin position newBegin =>
    s.map.find (calls i).1 = some position ∧ s.map.get (calls i).1 = s.records.next newBegin
  | .store _ => s.map.find (calls i).1 = none
  | _ => True

/-! ## 2. What a step does -/

/-- **The effect of a step**, by the stage of the call. -/
inductive Effect (s : AddRows K R n) (i : Fin n) (s' : AddRows K R n) : Prop where
  | missing (hs : s.stage i = .find) (hf : s.map.find (calls i).1 = none) (hm : s'.map = s.map)
      (hr : s'.records = s.records) (hs' : s'.stage i = .create)
  | found (p : Nat) (hs : s.stage i = .find) (hf : s.map.find (calls i).1 = some p)
      (hm : s'.map = s.map) (hr : s'.records = s.records) (hs' : s'.stage i = .readBegin p)
  | read (p : Nat) (item : Row K Nat) (hs : s.stage i = .readBegin p)
      (hi : s.map.row p = some item) (hm : s'.map = s.map) (hr : s'.records = s.records)
      (hs' : s'.stage i = .insert p item.value)
  | inserted (p old : Nat) (hs : s.stage i = .insert p old)
      (hm : s'.map = s.map)
      (hr : ∃ h, s'.records = (s.records.insert (some old) (calls i).2 h).1)
      (hs' : s'.stage i = .writeBegin p s.records.count)
  | written (p new : Nat) (hs : s.stage i = .writeBegin p new) (hm : s'.map = s.map.writeAt p new)
      (hr : s'.records = s.records) (hs' : s'.stage i = .done new)
  | created (hs : s.stage i = .create) (hm : s'.map = s.map)
      (hr : ∃ h, s'.records = (s.records.insert none (calls i).2 h).1)
      (hs' : s'.stage i = .store s.records.count)
  | stored (first : Nat) (hs : s.stage i = .store first)
      (hm : s'.map = s.map.store (calls i).1 first 1 Nat.one_pos) (hr : s'.records = s.records)
      (hs' : s'.stage i = .done first)
  | stays (h : s' = s) (hs : (∃ record, s.stage i = .done record) ∨
      ∃ p, s.stage i = .readBegin p ∧ s.map.row p = none)

theorem step_effect (s : AddRows K R n) (i : Fin n) : Effect calls s i (step calls s i) := by
  have hself (s : AddRows K R n) (stage : Stage) (h) : (s.goto i stage h).stage i = stage :=
    Function.update_self ..
  unfold step
  split
  · rename_i h
    split
    · rename_i hf
      exact .missing h hf rfl rfl (hself ..)
    · rename_i p hf
      exact .found p h hf rfl rfl (hself ..)
  · rename_i p h
    split
    · rename_i hr
      exact .stays rfl (.inr ⟨p, h, hr⟩)
    · rename_i item hr
      exact .read p item h hr rfl rfl (hself ..)
  · rename_i p old h
    have hlt := s.record_lt i old (congrArg Stage.record h)
    exact .inserted p old h rfl ⟨fun _ hj => Option.some.inj hj ▸ hlt, rfl⟩ (hself ..)
  · rename_i p new h
    exact .written p new h rfl rfl (hself ..)
  · rename_i h
    exact .created h rfl ⟨fun _ h => (nomatch h), rfl⟩ (hself ..)
  · rename_i first h
    exact .stored first h rfl rfl (hself ..)
  · rename_i record h
    exact .stays rfl (.inl ⟨record, h⟩)

section Stages

variable {calls} {s : AddRows K R n} {i : Fin n}

theorem step_write {p new : Nat} (hs : s.stage i = .writeBegin p new) :
    (step calls s i).map = s.map.writeAt p new ∧ (step calls s i).records = s.records ∧
      (step calls s i).stage i = .done new := by
  cases step_effect calls s i <;> simp_all

theorem step_store {first : Nat} (hs : s.stage i = .store first) :
    (step calls s i).map = s.map.store (calls i).1 first 1 Nat.one_pos ∧
      (step calls s i).records = s.records ∧ (step calls s i).stage i = .done first := by
  cases step_effect calls s i <;> simp_all

theorem of_step_insert {p old : Nat} (h : (step calls s i).stage i = .insert p old) :
    s.stage i = .readBegin p ∧ (∃ item, s.map.row p = some item ∧ item.value = old) ∧
      (step calls s i).map = s.map ∧ (step calls s i).records = s.records := by
  cases step_effect calls s i <;> simp_all

theorem of_step_writeBegin {p new : Nat} (h : (step calls s i).stage i = .writeBegin p new) :
    ∃ old, s.stage i = .insert p old ∧ new = s.records.count ∧ (step calls s i).map = s.map ∧
      (step calls s i).records.record new = some (some old, (calls i).2) := by
  have he := step_effect calls s i
  generalize step calls s i = s' at he h
  cases he with
  | inserted q old hs hm hr hs' =>
      obtain ⟨hlt, hr⟩ := hr
      cases hs'.symm.trans h
      exact ⟨old, hs, rfl, hm, hr ▸ s.records.insert_record_new hlt⟩
  | _ => simp_all

theorem of_step_create (h : (step calls s i).stage i = .create) :
    s.stage i = .find ∧ s.map.find (calls i).1 = none ∧ (step calls s i).map = s.map := by
  cases step_effect calls s i <;> simp_all

theorem of_step_storeBegin {first : Nat} (h : (step calls s i).stage i = .store first) :
    s.stage i = .create ∧ first = s.records.count ∧ (step calls s i).map = s.map ∧
      (step calls s i).records.record first = some (none, (calls i).2) := by
  have he := step_effect calls s i
  generalize step calls s i = s' at he h
  cases he with
  | created hs hm hr hs' =>
      obtain ⟨hlt, hr⟩ := hr
      cases hs'.symm.trans h
      exact ⟨hs, rfl, hm, hr ▸ s.records.insert_record_new hlt⟩
  | _ => simp_all

end Stages

/-- A step moves its own call only. -/
theorem step_stage_ne (s : AddRows K R n) {i j : Fin n} (h : j ≠ i) :
    (step calls s i).stage j = s.stage j := by
  have hne (s : AddRows K R n) (stage : Stage) (hs) : (s.goto i stage hs).stage j = s.stage j :=
    Function.update_of_ne h ..
  unfold step
  split
  · split <;> exact hne ..
  · split
    · rfl
    · exact hne ..
  · exact hne ..
  · exact hne ..
  · exact hne ..
  · exact hne ..
  · rfl

/-! ## 3. Chains of a key -/

/-- The records iterating from `lookup` visits. -/
def contents (s : AddRows K R n) (key : K) : List Nat := s.records.chain (s.map.get key)

/-- The records of a key before the calls. -/
def initial (m : RecordMultimap K R) (key : K) : List Nat := m.records.chain (m.lookup key)

/-- The records published by the calls of a key. -/
def published (s : AddRows K R n) (key : K) : List Nat :=
  (List.finRange n).filterMap fun i => if (calls i).1 = key then (s.stage i).result else none

/-- The records of a key. -/
def known (m : RecordMultimap K R) (s : AddRows K R n) (key : K) : List Nat :=
  published calls s key ++ initial m key

/-- The item is the one of the key, for a lookup or for a call that has looked it up. -/
def Sees (s : AddRows K R n) (key : K) (p : Nat) : Prop :=
  s.map.find key = some p ∨ ∃ i, (calls i).1 = key ∧ (s.stage i).position = some p

/-- **What every schedule keeps**: a call has a record of its own, and the chain of an item holds
    records of its key only. -/
structure Inv (m : RecordMultimap K R) (s : AddRows K R n) : Prop where
  extends_start : m.records.Extends s.records
  own_ge : ∀ i r, (s.stage i).own = some r → m.records.count ≤ r
  own_inj : ∀ i j r, (s.stage i).own = some r → (s.stage j).own = some r → i = j
  own_row : ∀ i r, (s.stage i).own = some r → ∃ link, s.records.record r = some (link, (calls i).2)
  item_known : ∀ key p, Sees calls s key p → ∃ item, s.map.row p = some item ∧ item.key = key ∧
    s.records.chain (some item.value) ⊆ known calls m s key
  read_known : ∀ i p old, s.stage i = .insert p old →
    s.records.chain (some old) ⊆ known calls m s (calls i).1
  link_known : ∀ i p new, s.stage i = .writeBegin p new → ∃ old, s.records.next new = some old ∧
    s.records.chain (some old) ⊆ known calls m s (calls i).1
  store_link : ∀ i first, s.stage i = .store first → s.records.next first = none

theorem mem_published {s : AddRows K R n} {key : K} {a : Nat} :
    a ∈ published calls s key ↔ ∃ i, (calls i).1 = key ∧ s.stage i = .done a := by
  unfold published
  rw [List.mem_filterMap]
  constructor
  · intro ⟨i, _, h⟩
    split at h
    · rename_i hk
      refine ⟨i, hk, ?_⟩
      cases hs : s.stage i <;> rw [hs] at h <;> cases h
      rfl
    · cases h
  · intro ⟨i, hk, hs⟩
    refine ⟨i, List.mem_finRange i, ?_⟩
    rw [if_pos hk, hs]
    rfl

theorem step_extends (s : AddRows K R n) (i : Fin n) :
    s.records.Extends (step calls s i).records := by
  have he := step_effect calls s i
  generalize step calls s i = s' at he
  cases he with
  | inserted p old hs hm hr hs' =>
      obtain ⟨h, hr⟩ := hr
      exact hr ▸ s.records.insert_extends h
  | created hs hm hr hs' =>
      obtain ⟨h, hr⟩ := hr
      exact hr ▸ s.records.insert_extends h
  | stays h _ => exact h ▸ .refl _
  | _ => rename_i hr _; exact hr ▸ .refl _

theorem step_result {s : AddRows K R n} {i j : Fin n} {a : Nat} (h : s.stage j = .done a) :
    (step calls s i).stage j = .done a := by
  by_cases hj : j = i
  · subst hj
    unfold step
    split <;> rename_i hs <;> first
      | exact h
      | (rw [h] at hs; cases hs)
  · exact (step_stage_ne calls s hj).trans h

theorem step_published {s : AddRows K R n} {key : K} (i : Fin n) :
    published calls s key ⊆ published calls (step calls s i) key := by
  intro a ha
  obtain ⟨j, hk, hs⟩ := (mem_published calls).mp ha
  exact (mem_published calls).mpr ⟨j, hk, step_result calls hs⟩

theorem step_known {m : RecordMultimap K R} {s : AddRows K R n} {key : K} (i : Fin n) :
    known calls m s key ⊆ known calls m (step calls s i) key := by
  intro a ha
  rcases List.mem_append.mp ha with ha | ha
  · exact List.mem_append_left _ (step_published calls i ha)
  · exact List.mem_append_right _ ha

/-! ## 4. The invariant -/

theorem chain_initial_lt (m : RecordMultimap K R) (key : K) :
    ∀ j ∈ initial m key, j < m.records.count :=
  m.records.chain_lt fun _ h => m.lookup_lt h

/-- The record of a call that has not published it is no record of a key. -/
theorem Inv.own_notMem {m : RecordMultimap K R} {s : AddRows K R n} (h : Inv calls m s)
    {i : Fin n} {r : Nat} (ho : (s.stage i).own = some r) (hd : s.stage i ≠ .done r) (key : K) :
    r ∉ known calls m s key := by
  intro hm
  rcases List.mem_append.mp hm with hm | hm
  · obtain ⟨j, _, hs⟩ := (mem_published calls).mp hm
    have hj : (s.stage j).own = some r := by rw [hs]; rfl
    exact hd (h.own_inj i j r ho hj ▸ hs)
  · have := chain_initial_lt m key r hm
    have := h.own_ge i r ho
    omega

theorem own_lt {s : AddRows K R n} {i : Fin n} {r : Nat} (ho : (s.stage i).own = some r) :
    r < s.records.count := by
  refine s.record_lt i r ?_
  cases hs : s.stage i <;> rw [hs] at ho <;> cases ho <;> rfl

theorem inv_start (m : RecordMultimap K R) : Inv calls m (start m : AddRows K R n) where
  extends_start := .refl _
  own_ge _ _ h := by cases h
  own_inj _ _ _ h := by cases h
  own_row _ _ h := by cases h
  item_known key p hs := by
    rcases hs with hf | ⟨_, _, h⟩
    · obtain ⟨_, _, item, _, hr, hk, _⟩ := m.map.wf.find_some hf
      have hl : m.lookup key = some item.value := by
        show ((m.map.find key).bind m.map.row).map Row.value = _
        rw [show m.map.find key = some p from hf, Option.bind_some, hr]
        rfl
      refine ⟨item, hr, hk, fun a ha => List.mem_append_right _ ?_⟩
      unfold initial
      rw [hl]
      exact ha
    · cases h
  read_known _ _ _ h := by cases h
  link_known _ _ _ h := by cases h
  store_link _ _ h := by cases h

/-- A stage without a record of its own, or with the same one, keeps the records of the calls
    apart. -/
theorem step_own {s : AddRows K R n} {i j : Fin n} {r : Nat}
    (h : ((step calls s i).stage j).own = some r) :
    (s.stage j).own = some r ∨ (j = i ∧ r = s.records.count ∧
      (step calls s i).records.record r = some (match s.stage i with
        | .insert _ old => some old
        | _ => none, (calls i).2)) := by
  by_cases hj : j = i
  · subst hj
    have he := step_effect calls s j
    generalize step calls s j = s' at he h ⊢
    cases he with
    | missing hs hf hm hr hs' => rw [hs'] at h; cases h
    | found p hs hf hm hr hs' => rw [hs'] at h; cases h
    | read p item hs hi hm hr hs' => rw [hs'] at h; cases h
    | inserted p old hs hm hr hs' =>
        obtain ⟨hlt, hr⟩ := hr
        rw [hs'] at h
        cases h
        rw [hs, hr]
        exact .inr ⟨rfl, rfl, s.records.insert_record_new hlt⟩
    | written p new hs hm hr hs' =>
        rw [hs'] at h
        rw [hs]
        exact .inl h
    | created hs hm hr hs' =>
        obtain ⟨hlt, hr⟩ := hr
        rw [hs'] at h
        cases h
        rw [hs, hr]
        exact .inr ⟨rfl, rfl, s.records.insert_record_new hlt⟩
    | stored first hs hm hr hs' =>
        rw [hs'] at h
        rw [hs]
        exact .inl h
    | stays he hs => exact .inl (he ▸ h)
  · rw [step_stage_ne calls s hj] at h
    exact .inl h

/-- What a step sees: the items seen before, and the one it links. -/
theorem step_sees {s : AddRows K R n} {i : Fin n} {key : K} {p : Nat}
    (h : Sees calls (step calls s i) key p) :
    Sees calls s key p ∨ ∃ first, s.stage i = .store first ∧ (calls i).1 = key ∧ p = s.map.free := by
  rcases h with hf | ⟨j, hk, hp⟩
  · have he := step_effect calls s i
    generalize step calls s i = s' at he hf
    cases he with
    | written q new hs hm hr hs' =>
        rw [hm] at hf
        exact .inl (.inl ((s.map.wf.writeValue_find q (fun _ => new) key).symm.trans hf))
    | stored first hs hm hr hs' =>
        rw [hm] at hf
        have := (s.map.wf.store_find (calls i).1 first Nat.one_pos key).symm.trans hf
        split at this
        · rename_i hk
          exact .inr ⟨first, hs, hk.symm, (Option.some.inj this).symm⟩
        · exact .inl (.inl this)
    | stays h _ => exact .inl (.inl (h ▸ hf))
    | _ => rename_i hm _ _; exact .inl (.inl (hm ▸ hf))
  · by_cases hj : j = i
    · subst hj
      have he := step_effect calls s j
      generalize step calls s j = s' at he hp
      left
      cases he with
      | missing hs hf hm hr hs' => rw [hs'] at hp; cases hp
      | found q hs hf hm hr hs' =>
          rw [hs'] at hp
          exact .inl (hk ▸ hf.trans hp)
      | read q item hs hi hm hr hs' =>
          rw [hs'] at hp
          exact .inr ⟨j, hk, hs ▸ hp⟩
      | inserted q old hs hm hr hs' =>
          rw [hs'] at hp
          exact .inr ⟨j, hk, hs ▸ hp⟩
      | written q new hs hm hr hs' => rw [hs'] at hp; cases hp
      | created hs hm hr hs' => rw [hs'] at hp; cases hp
      | stored first hs hm hr hs' => rw [hs'] at hp; cases hp
      | stays h _ => exact .inr ⟨j, hk, h ▸ hp⟩
    · rw [step_stage_ne calls s hj] at hp
      exact .inl (.inr ⟨j, hk, hp⟩)

/-- A chain of records of a key stays one. -/
theorem step_chain_subset {m : RecordMultimap K R} {s : AddRows K R n} {begin : Option Nat}
    (hb : ∀ j, begin = some j → j < s.records.count) {key : K}
    (h : s.records.chain begin ⊆ known calls m s key) (i : Fin n) :
    (step calls s i).records.chain begin ⊆ known calls m (step calls s i) key := by
  rw [(step_extends calls s i).chain hb]
  exact fun _ ha => step_known calls i (h ha)

/-- The link of a record. -/
theorem next_lt {s : AddRows K R n} {r : Nat} (hr : r < s.records.count) :
    ∀ j, s.records.next r = some j → j < s.records.count := fun j hj =>
  Nat.lt_trans (s.records.descends r j hj) hr

/-- The chain of a record that is published with a link among the records of its key. -/
theorem Inv.publish {m : RecordMultimap K R} {s : AddRows K R n} (h : Inv calls m s) {i : Fin n}
    {r : Nat} (ho : (s.stage i).own = some r) (hd : (step calls s i).stage i = .done r)
    (hl : s.records.chain (s.records.next r) ⊆ known calls m s (calls i).1) :
    (step calls s i).records.chain (some r) ⊆ known calls m (step calls s i) (calls i).1 := by
  obtain ⟨link, hrow⟩ := h.own_row i r ho
  have hlt := own_lt ho
  have hnext : s.records.next r = link := RecordList.next_eq hrow
  rw [(step_extends calls s i).chain fun _ hj => Option.some.inj hj ▸ hlt,
    s.records.chain_some hrow, ← hnext]
  intro a ha
  rcases List.mem_cons.mp ha with rfl | ha
  · exact List.mem_append_left _ ((mem_published calls).mpr ⟨i, rfl, hd⟩)
  · exact step_known calls i (hl ha)

/-- **The step keeps the invariant.** -/
theorem Inv.step {m : RecordMultimap K R} {s : AddRows K R n} (h : Inv calls m s) (i : Fin n) :
    Inv calls m (AddRows.step calls s i) where
  extends_start := h.extends_start.trans (step_extends calls s i)
  own_ge j r ho := by
    rcases step_own calls ho with ho | ⟨_, rfl, _⟩
    · exact h.own_ge j r ho
    · exact h.extends_start.count_le
  own_inj j k r hj hk := by
    rcases step_own calls hj with hj' | ⟨hji, hrj, _⟩ <;>
      rcases step_own calls hk with hk' | ⟨hki, hrk, _⟩
    · exact h.own_inj j k r hj' hk'
    · exact absurd (own_lt hj') (by omega)
    · exact absurd (own_lt hk') (by omega)
    · exact hji.trans hki.symm
  own_row j r ho := by
    rcases step_own calls ho with ho | ⟨rfl, _, hrow⟩
    · obtain ⟨link, hrow⟩ := h.own_row j r ho
      exact ⟨link, ((step_extends calls s i).record_eq r (own_lt ho)).trans hrow⟩
    · exact ⟨_, hrow⟩
  item_known key p hsees := by
    rcases step_sees calls hsees with hsees | ⟨first, hs, rfl, rfl⟩
    · obtain ⟨item, hr, hk, hsub⟩ := h.item_known key p hsees
      have hkeep : (AddRows.step calls s i).map.row p = some item →
          ∃ item, (AddRows.step calls s i).map.row p = some item ∧ item.key = key ∧
            (AddRows.step calls s i).records.chain (some item.value) ⊆
              known calls m (AddRows.step calls s i) key := fun hr' =>
        ⟨item, hr', hk, step_chain_subset calls
          (fun _ hj => Option.some.inj hj ▸ s.value_lt p item hr) hsub i⟩
      have he := step_effect calls s i
      generalize hstep : AddRows.step calls s i = s' at he hkeep ⊢
      cases he with
      | written q new hs hm hrec hs' =>
          by_cases hq : p = q
          · -- the item whose first record is written is one of the call's key
            subst hq
            obtain ⟨item', hr', hk', _⟩ := h.item_known _ p (.inr ⟨i, rfl, by rw [hs]; rfl⟩)
            cases hr.symm.trans hr'
            cases hk.symm.trans hk'
            obtain ⟨old, hn, hsub⟩ := h.link_known i p new hs
            have hpub := h.publish calls (by rw [hs]; rfl) (by rw [hstep]; exact hs') (hn ▸ hsub)
            rw [hstep] at hpub
            refine ⟨{ item with value := new }, ?_, hk, hpub⟩
            rw [hm]
            show Function.update _ _ _ _ = _
            rw [Function.update_self, hr]
            rfl
          · refine hkeep ?_
            rw [hm]
            exact (Function.update_of_ne hq ..).trans hr
      | stored first hs hm hrec hs' =>
          refine hkeep ?_
          rw [hm]
          refine (HashTable.store_row ..).trans ?_
          rw [if_neg (Nat.ne_of_lt (s.map.wf.row_lt p item hr))]
          exact hr
      | stays he _ => exact hkeep (he ▸ hr)
      | _ => rename_i hm _ _; exact hkeep (hm ▸ hr)
    · obtain ⟨hm, _, hs'⟩ := step_store hs
      have hl : s.records.chain (s.records.next first) ⊆ known calls m s (calls i).1 := by
        rw [h.store_link i first hs, RecordList.chain_none]
        exact List.nil_subset _
      refine ⟨⟨(calls i).1, s.map.readBucketValue (calls i).1, first⟩, ?_, rfl,
        h.publish calls (by rw [hs]; rfl) hs' hl⟩
      rw [hm]
      exact (HashTable.store_row ..).trans (if_pos rfl)
  read_known j p old hs := by
    by_cases hj : j = i
    · subst hj
      obtain ⟨hs₀, ⟨item, hr, rfl⟩, _⟩ := of_step_insert hs
      obtain ⟨item', hr', _, hsub⟩ := h.item_known _ p (.inr ⟨j, rfl, by rw [hs₀]; rfl⟩)
      cases hr.symm.trans hr'
      exact step_chain_subset calls (fun _ hj => Option.some.inj hj ▸ s.value_lt p item hr) hsub j
    · rw [step_stage_ne calls s hj] at hs
      exact step_chain_subset calls
        (fun _ hk => s.record_lt j _ (by rw [hs]; exact hk)) (h.read_known j p old hs) i
  link_known j p new hs := by
    by_cases hj : j = i
    · subst hj
      obtain ⟨old, hs₀, _, _, hr⟩ := of_step_writeBegin hs
      exact ⟨old, RecordList.next_eq hr, step_chain_subset calls
        (fun _ hk => s.record_lt j _ (by rw [hs₀]; exact hk)) (h.read_known j p old hs₀) j⟩
    · rw [step_stage_ne calls s hj] at hs
      have hlt : new < s.records.count := s.record_lt j new (by rw [hs]; rfl)
      obtain ⟨old, hn, hsub⟩ := h.link_known j p new hs
      exact ⟨old, ((step_extends calls s i).next hlt).trans hn,
        step_chain_subset calls (fun _ hk => next_lt hlt _ (hn.trans hk)) hsub i⟩
  store_link j first hs := by
    by_cases hj : j = i
    · subst hj
      obtain ⟨_, _, _, hr⟩ := of_step_storeBegin hs
      exact RecordList.next_eq hr
    · rw [step_stage_ne calls s hj] at hs
      have hlt : first < s.records.count := s.record_lt j first (by rw [hs]; rfl)
      rw [(step_extends calls s i).next hlt]
      exact h.store_link j first hs

/-! ## 5. Up to the first write that does not find what its call has read -/

/-- The call goes on to write a record in front of this one. -/
def Pending (s : AddRows K R n) (i : Fin n) (old : Nat) : Prop :=
  (∃ p, s.stage i = .insert p old) ∨
    ∃ p new, s.stage i = .writeBegin p new ∧ s.records.next new = some old

/-- **Nothing is lost so far**: iterating visits every record of a key, and the calls under way go
    on with the item of their key and with a record it leads to. -/
structure Intact (m : RecordMultimap K R) (s : AddRows K R n) : Prop where
  perm : ∀ key, (contents s key).Perm (known calls m s key)
  found : ∀ i p, (s.stage i).position = some p → s.map.find (calls i).1 = some p
  absent : ∀ i, (s.stage i = .create ∨ ∃ first, s.stage i = .store first) →
    initial m (calls i).1 = []
  pending : ∀ i old, Pending s i old → old ∈ contents s (calls i).1 ∧
    initial m (calls i).1 ⊆ s.records.chain (some old)

theorem get_lt (s : AddRows K R n) (key : K) :
    ∀ j, s.map.get key = some j → j < s.records.count := by
  intro j h
  obtain ⟨p, item, _, hr, _, rfl⟩ := Table.get_eq_some h
  exact s.value_lt p item hr

theorem step_contents {s : AddRows K R n} {i : Fin n} {key : K}
    (h : (step calls s i).map.get key = s.map.get key) :
    contents (step calls s i) key = contents s key := by
  unfold contents
  rw [h, (step_extends calls s i).chain (s.get_lt key)]

theorem get_of_find {s : AddRows K R n} {key : K} {p : Nat} {item : Row K Nat}
    (hf : s.map.find key = some p) (hr : s.map.row p = some item) :
    s.map.get key = some item.value := by
  show ((s.map.find key).bind s.map.row).map Row.value = _
  rw [hf, Option.bind_some, hr]
  rfl

theorem get_of_find_none {s : AddRows K R n} {key : K} (hf : s.map.find key = none) :
    s.map.get key = none := by
  show ((s.map.find key).bind s.map.row).map Row.value = _
  rw [hf]
  rfl

/-- A list of partial values where one of them is added. -/
theorem filterMap_perm_cons {A B : Type} [DecidableEq A] {l : List A} (hn : l.Nodup) {a : A}
    (ha : a ∈ l) {f f' : A → Option B} {b : B} (hne : ∀ x, x ≠ a → f' x = f x) (hf : f a = none)
    (hf' : f' a = some b) : (l.filterMap f').Perm (b :: l.filterMap f) := by
  obtain ⟨xs, ys, rfl⟩ := List.append_of_mem ha
  have hxs : ∀ x ∈ xs, f' x = f x := fun x hx => hne x fun he => by
    subst he
    simp [List.nodup_append] at hn
    exact (hn.2.2 x hx).1 rfl
  have hys : ∀ y ∈ ys, f' y = f y := fun y hy => hne y fun he => by
    subst he
    simp [List.nodup_append] at hn
    exact hn.2.1.1 hy
  rw [List.filterMap_append, List.filterMap_append, List.filterMap_cons_some hf',
    List.filterMap_cons_none hf, List.filterMap_congr hxs, List.filterMap_congr hys]
  exact List.perm_middle

theorem step_published_perm {s : AddRows K R n} {i : Fin n} {r : Nat}
    (hs : (step calls s i).stage i = .done r) (hn : (s.stage i).result = none) (key : K) :
    (published calls (step calls s i) key).Perm
      (if key = (calls i).1 then r :: published calls s key else published calls s key) := by
  split
  · rename_i hk
    refine filterMap_perm_cons (List.nodup_finRange n) (List.mem_finRange i) (fun j hj => ?_) ?_ ?_
    · rw [step_stage_ne calls s hj]
    · rw [hn, ite_self]
    · rw [if_pos hk.symm, hs]
      rfl
  · rename_i hk
    refine List.Perm.of_eq (List.filterMap_congr fun j _ => ?_)
    by_cases hj : j = i
    · subst hj
      rw [if_neg (Ne.symm hk), if_neg (Ne.symm hk)]
    · rw [step_stage_ne calls s hj]

theorem step_published_same {s : AddRows K R n} {i : Fin n}
    (h : ((step calls s i).stage i).result = (s.stage i).result) (key : K) :
    published calls (step calls s i) key = published calls s key := by
  refine List.filterMap_congr fun j _ => ?_
  by_cases hj : j = i
  · subst hj
    rw [h]
  · rw [step_stage_ne calls s hj]

theorem step_pending_ne {s : AddRows K R n} {i j : Fin n} {old : Nat} (hj : j ≠ i)
    (h : Pending (step calls s i) j old) : Pending s j old := by
  rcases h with ⟨p, hs⟩ | ⟨p, new, hs, hn⟩
  · rw [step_stage_ne calls s hj] at hs
    exact .inl ⟨p, hs⟩
  · rw [step_stage_ne calls s hj] at hs
    have hlt : new < s.records.count := s.record_lt j new (by rw [hs]; rfl)
    rw [(step_extends calls s i).next hlt] at hn
    exact .inr ⟨p, new, hs, hn⟩

theorem pending_lt {s : AddRows K R n} {i : Fin n} {old : Nat} (h : Pending s i old) :
    old < s.records.count := by
  rcases h with ⟨p, hs⟩ | ⟨p, new, hs, hn⟩
  · exact s.record_lt i old (by rw [hs]; rfl)
  · exact next_lt (s.record_lt i new (by rw [hs]; rfl)) old hn

variable {m : RecordMultimap K R} {s : AddRows K R n} {i : Fin n}

/-- A step that publishes nothing. -/
theorem Intact.quiet (h : Intact calls m s) (hm : (step calls s i).map = s.map)
    (hr : ((step calls s i).stage i).result = (s.stage i).result) :
    Intact calls m (step calls s i) := by
  have hcont (key : K) : contents (step calls s i) key = contents s key :=
    step_contents calls (by rw [hm])
  refine ⟨fun key => ?_, fun j p hp => ?_, fun j hj => ?_, fun j old hpd => ?_⟩
  · rw [hcont, known, step_published_same calls hr]
    exact h.perm key
  · rw [hm]
    by_cases hji : j = i
    · subst hji
      have he := step_effect calls s j
      generalize step calls s j = s' at he hp
      cases he with
      | found q hs hf _ _ hs' => rw [hs'] at hp; cases hp; exact hf
      | read q item hs _ _ _ hs' => rw [hs'] at hp; cases hp; exact h.found j p (by rw [hs]; rfl)
      | inserted q old hs _ _ hs' => rw [hs'] at hp; cases hp; exact h.found j p (by rw [hs]; rfl)
      | stays he _ => exact h.found j p (he ▸ hp)
      | _ => rename_i hs'; rw [hs'] at hp; cases hp
    · exact h.found j p (by rwa [step_stage_ne calls s hji] at hp)
  · by_cases hji : j = i
    · subst hji
      rcases hj with hs | ⟨first, hs⟩
      · -- a key that is not found has no records
        obtain ⟨_, hf, _⟩ := of_step_create hs
        have hnil : contents s (calls j).1 = [] := by
          rw [contents, get_of_find_none hf, RecordList.chain_none]
        exact (List.append_eq_nil_iff.mp (List.nil_perm.mp (hnil ▸ h.perm _))).2
      · exact h.absent j (.inl (of_step_storeBegin hs).1)
    · exact h.absent j (by rwa [step_stage_ne calls s hji] at hj)
  · have hold : Pending s j old ∨ ∃ p item, s.stage j = .readBegin p ∧ s.map.row p = some item ∧
        item.value = old := by
      by_cases hji : j = i
      · subst hji
        rcases hpd with ⟨p, hs⟩ | ⟨p, new, hs, hn⟩
        · obtain ⟨hs₀, ⟨item, hr, hv⟩, _⟩ := of_step_insert hs
          exact .inr ⟨p, item, hs₀, hr, hv⟩
        · obtain ⟨old', hs₀, _, _, hrow⟩ := of_step_writeBegin hs
          cases (RecordList.next_eq hrow).symm.trans hn
          exact .inl (.inl ⟨p, hs₀⟩)
      · exact .inl (step_pending_ne calls hji hpd)
    rw [hcont]
    rcases hold with hold | ⟨p, item, hs, hrow, rfl⟩
    · rw [(step_extends calls s i).chain fun _ he => Option.some.inj he ▸ pending_lt hold]
      exact h.pending j old hold
    · -- the first record read is the one iterating starts with
      have hget := get_of_find (h.found j p (by rw [hs]; rfl)) hrow
      have hchain : contents s (calls j).1 = s.records.chain (some item.value) := by
        rw [contents, hget]
      rw [(step_extends calls s i).chain fun _ he => Option.some.inj he ▸ s.value_lt p item hrow,
        ← hchain]
      have hperm := h.perm (calls j).1
      refine ⟨?_, fun a ha => hperm.symm.subset (List.mem_append_right _ ha)⟩
      rw [hchain]
      cases hs.symm.trans hs
      obtain ⟨⟨link, row⟩, hrec⟩ := Option.isSome_iff_exists.mp
        ((s.records.isSome_iff _).mpr (s.value_lt p item hrow))
      rw [s.records.chain_some hrec]
      exact List.mem_cons_self

/-- A step that publishes a record in front of the records of its key. -/
theorem Intact.publish (hI : Inv calls m s) (h : Intact calls m s) {r : Nat}
    (ho : (s.stage i).own = some r) (hres : (s.stage i).result = none)
    (hs : (step calls s i).stage i = .done r)
    (hget : ∀ key, (step calls s i).map.get key =
      if key = (calls i).1 then some r else s.map.get key)
    (hnext : s.map.get (calls i).1 = s.records.next r)
    (hfind : ∀ key p, s.map.find key = some p → (step calls s i).map.find key = some p) :
    Intact calls m (step calls s i) := by
  obtain ⟨link, hrow⟩ := hI.own_row i r ho
  have hchain : s.records.chain (some r) = r :: contents s (calls i).1 := by
    rw [s.records.chain_some hrow, contents, hnext, RecordList.next_eq hrow]
  have hcont (key : K) : contents (step calls s i) key =
      if key = (calls i).1 then r :: contents s key else contents s key := by
    unfold contents
    rw [hget]
    split
    · rename_i hk
      rw [(step_extends calls s i).chain fun _ he => Option.some.inj he ▸ own_lt ho, hchain, hk]
      rfl
    · exact (step_extends calls s i).chain (s.get_lt key)
  have hstage {j : Fin n} {P : Stage → Prop} (hp : P ((step calls s i).stage j))
      (hd : ¬ P (.done r)) : j ≠ i ∧ P (s.stage j) := by
    have hne : j ≠ i := by
      rintro rfl
      exact hd (hs ▸ hp)
    exact ⟨hne, step_stage_ne calls s hne ▸ hp⟩
  refine ⟨fun key => ?_, fun j p hp => ?_, fun j hj => ?_, fun j old hpd => ?_⟩
  · have hpub := step_published_perm calls hs hres key
    rw [hcont]
    refine List.Perm.trans ?_ (hpub.symm.append_right _)
    split
    · exact (h.perm key).cons r
    · exact h.perm key
  · obtain ⟨_, hp⟩ := hstage (P := fun stage => stage.position = some p) hp
      fun h => by cases h
    exact hfind _ p (h.found j p hp)
  · obtain ⟨_, hj⟩ := hstage (P := fun stage => stage = .create ∨ ∃ first, stage = .store first) hj
      (by rintro (h | ⟨_, h⟩) <;> cases h)
    exact h.absent j hj
  · have hne : j ≠ i := by
      rintro rfl
      rcases hpd with ⟨p, hs'⟩ | ⟨p, new, hs', _⟩ <;> cases hs.symm.trans hs'
    have hold := step_pending_ne calls hne hpd
    obtain ⟨hmem, hsub⟩ := h.pending j old hold
    rw [hcont, (step_extends calls s i).chain fun _ he => Option.some.inj he ▸ pending_lt hold]
    refine ⟨?_, hsub⟩
    split
    · exact List.mem_cons_of_mem _ hmem
    · exact hmem

/-- **A step whose write finds what its call has read keeps everything.** -/
theorem Intact.step (hI : Inv calls m s) (h : Intact calls m s) (hp : Publishes calls s i) :
    Intact calls m (AddRows.step calls s i) := by
  have he := step_effect calls s i
  cases hs : s.stage i with
  | writeBegin p new =>
      obtain ⟨hm, _, hs'⟩ := @step_write _ _ _ _ calls _ _ _ _ hs
      unfold Publishes at hp
      rw [hs] at hp
      obtain ⟨hf, hget⟩ := hp
      obtain ⟨item, hr, hk, _⟩ := hI.item_known _ p (.inl hf)
      refine h.publish calls hI (r := new) (by rw [hs]; rfl) (by rw [hs]; rfl) hs' (fun key => ?_)
        hget fun key q hq => ?_
      · rw [hm, Table.writeAt_get]
        by_cases hkey : key = (calls i).1
        · rw [if_pos hkey, if_pos (hkey ▸ hf)]
        · rw [if_neg hkey, if_neg]
          intro hf'
          obtain ⟨item', hr', hk', _⟩ := hI.item_known key p (.inl hf')
          cases hr.symm.trans hr'
          exact hkey (hk'.symm.trans hk)
      · rw [hm]
        exact (s.map.wf.writeValue_find p (fun _ => new) key).trans hq
  | store first =>
      obtain ⟨hm, _, hs'⟩ := @step_store _ _ _ _ calls _ _ _ hs
      unfold Publishes at hp
      rw [hs] at hp
      refine h.publish calls hI (r := first) (by rw [hs]; rfl) (by rw [hs]; rfl) hs' (fun key => ?_)
        ((get_of_find_none hp).trans (hI.store_link i first hs).symm) fun key q hq => ?_
      · rw [hm, Table.store_get]
      · rw [hm]
        refine (s.map.wf.store_find (calls i).1 first Nat.one_pos key).trans ?_
        rw [if_neg]
        · exact hq
        · rintro rfl
          rw [hp] at hq
          cases hq
  | _ =>
      refine h.quiet calls ?_ ?_ <;>
      · cases he <;> simp_all [Stage.result]

/-! ## 6. From the first write that does not -/

/-- **Two published records of a key neither of which leads to the other**: no chain visits both. -/
def Split (s : AddRows K R n) : Prop :=
  ∃ key a b, a ∈ published calls s key ∧ b ∈ published calls s key ∧
    a ∉ s.records.chain (some b) ∧ b ∉ s.records.chain (some a)

theorem published_lt {key : K} {a : Nat} (h : a ∈ published calls s key) : a < s.records.count := by
  obtain ⟨j, _, hs⟩ := (mem_published calls).mp h
  exact s.record_lt j a (by rw [hs]; rfl)

/-- Records are never rewritten, so a split stays. -/
theorem Split.step (h : Split calls s) (i : Fin n) : Split calls (AddRows.step calls s i) := by
  obtain ⟨key, a, b, ha, hb, hab, hba⟩ := h
  have hlt {c : Nat} (hc : c ∈ published calls s key) : ∀ j, some c = some j → j < s.records.count :=
    fun _ he => Option.some.inj he ▸ published_lt calls hc
  refine ⟨key, a, b, step_published calls i ha, step_published calls i hb, ?_, ?_⟩
  · rwa [(step_extends calls s i).chain (hlt hb)]
  · rwa [(step_extends calls s i).chain (hlt ha)]

/-- A record published beside one that iterating visits. -/
theorem split_of_publish (hI : Inv calls m s) (h : Intact calls m s) {r b : Nat}
    (ho : (s.stage i).own = some r) (hd : s.stage i ≠ .done r)
    (hs : (AddRows.step calls s i).stage i = .done r)
    (hget : s.map.get (calls i).1 = some b) (hb : b ∉ initial m (calls i).1)
    (hbr : b ∉ s.records.chain (s.records.next r)) : Split calls (AddRows.step calls s i) := by
  have hcont : contents s (calls i).1 = s.records.chain (some b) := by rw [contents, hget]
  have hblt := s.get_lt _ b hget
  obtain ⟨⟨link, row⟩, hrow⟩ := Option.isSome_iff_exists.mp ((s.records.isSome_iff b).mpr hblt)
  have hbmem : b ∈ contents s (calls i).1 := by
    rw [hcont, s.records.chain_some hrow]
    exact List.mem_cons_self
  have hknown := (h.perm (calls i).1).subset
  have hpub : b ∈ published calls s (calls i).1 :=
    (List.mem_append.mp (hknown hbmem)).resolve_right hb
  have hnot := hI.own_notMem calls ho hd (calls i).1
  have hext := step_extends calls s i
  refine ⟨(calls i).1, r, b, (mem_published calls).mpr ⟨i, rfl, hs⟩, step_published calls i hpub,
    ?_, ?_⟩
  · rw [hext.chain fun _ he => Option.some.inj he ▸ hblt, ← hcont]
    exact fun hm => hnot (hknown hm)
  · obtain ⟨link', hrow'⟩ := hI.own_row i r ho
    rw [hext.chain fun _ he => Option.some.inj he ▸ own_lt ho, s.records.chain_some hrow',
      ← RecordList.next_eq hrow']
    intro hm
    rcases List.mem_cons.mp hm with rfl | hm
    · exact hnot (hknown hbmem)
    · exact hbr hm

/-- **A write that does not find what its call has read splits the records of its key.** -/
theorem Intact.split (hI : Inv calls m s) (h : Intact calls m s) (hp : ¬ Publishes calls s i) :
    Split calls (AddRows.step calls s i) := by
  unfold Publishes at hp
  cases hs : s.stage i with
  | writeBegin p new =>
      rw [hs] at hp
      obtain ⟨_, _, hs'⟩ := @step_write _ _ _ _ calls _ _ _ _ hs
      have hf := h.found i p (by rw [hs]; rfl)
      obtain ⟨item, hr, _, _⟩ := hI.item_known _ p (.inl hf)
      have hget := get_of_find hf hr
      obtain ⟨old, hn, _⟩ := hI.link_known i p new hs
      obtain ⟨hold, hsub⟩ := h.pending i old (.inr ⟨p, new, hs, hn⟩)
      -- the first record is another one now, and it was not there when the call has read
      have hb : item.value ∉ s.records.chain (some old) := by
        intro hm
        have hle := s.records.le_of_mem_chain (pending_lt (.inr ⟨p, new, hs, hn⟩)) hm
        rw [contents, hget] at hold
        have hge := s.records.le_of_mem_chain (s.value_lt p item hr) hold
        exact hp ⟨hf, by rw [hget, hn, Nat.le_antisymm hle hge]⟩
      exact split_of_publish calls hI h (by rw [hs]; rfl) (by rw [hs]; nofun) hs' hget
        (fun hm => hb (hsub hm)) (hn ▸ hb)
  | store first =>
      rw [hs] at hp
      obtain ⟨_, _, hs'⟩ := @step_store _ _ _ _ calls _ _ _ hs
      obtain ⟨p, hf⟩ := Option.ne_none_iff_exists'.mp hp
      obtain ⟨item, hr, _, _⟩ := hI.item_known _ p (.inl hf)
      have hnil := h.absent i (.inr ⟨first, hs⟩)
      refine split_of_publish calls hI h (by rw [hs]; rfl) (by rw [hs]; nofun) hs'
        (get_of_find hf hr) (by rw [hnil]; exact List.not_mem_nil) ?_
      rw [hI.store_link i first hs, RecordList.chain_none]
      exact List.not_mem_nil
  | _ =>
      rw [hs] at hp
      exact absurd trivial hp

/-! ## 7. All calls returned -/

/-- The row of a record. -/
def rowOf (s : AddRows K R n) (j : Nat) : Option R := (s.records.record j).map Prod.snd

/-- The rows of the records of a key: one for each of its calls, and the rows it had. -/
theorem known_rows (hI : Inv calls m s) (hret : s.Returned) (key : K) :
    (known calls m s key).filterMap s.rowOf =
      (((List.finRange n).filter fun i => (calls i).1 = key).map fun i => (calls i).2) ++
        m.rows key := by
  have hcall : (published calls s key).filterMap s.rowOf =
      ((List.finRange n).filter fun i => (calls i).1 = key).map fun i => (calls i).2 := by
    unfold published
    rw [List.filterMap_filterMap, ← List.filterMap_eq_map, List.filterMap_filter]
    refine List.filterMap_congr fun j _ => ?_
    obtain ⟨r, hs⟩ := hret j
    obtain ⟨link, hrow⟩ := hI.own_row j r (by rw [hs]; rfl)
    by_cases hk : (calls j).1 = key
    · simp only [hk, if_true, hs, Stage.result, Option.bind_some, rowOf, hrow, Option.map_some,
        decide_true, Function.comp]
    · simp [hk]
  have hinit : (initial m key).filterMap s.rowOf = m.rows key := by
    unfold initial RecordMultimap.rows RecordList.rows
    refine List.filterMap_congr fun j hj => ?_
    rw [rowOf, hI.extends_start.record_eq j (chain_initial_lt m key j hj)]
  rw [known, List.filterMap_append, hcall, hinit]

theorem known_isSome (hI : Inv calls m s) (key : K) :
    ∀ j ∈ known calls m s key, (s.rowOf j).isSome = true := by
  intro j hj
  have hlt : j < s.records.count := by
    rcases List.mem_append.mp hj with hj | hj
    · exact published_lt calls hj
    · exact Nat.lt_of_lt_of_le (chain_initial_lt m key j hj) hI.extends_start.count_le
  rw [rowOf, Option.isSome_map]
  exact (s.records.isSome_iff j).mpr hlt

theorem contents_subset (hI : Inv calls m s) (key : K) :
    contents s key ⊆ known calls m s key := by
  unfold contents
  cases hf : s.map.find key with
  | none =>
      rw [get_of_find_none hf, RecordList.chain_none]
      exact List.nil_subset _
  | some p =>
      obtain ⟨item, hr, _, hsub⟩ := hI.item_known key p (.inl hf)
      rw [get_of_find hf hr]
      exact hsub

/-- The rows are kept where iterating visits every record of each key. -/
theorem kept_of_perm (hI : Inv calls m s) (hret : s.Returned)
    (h : ∀ key, (contents s key).Perm (known calls m s key)) : Kept calls m s := by
  intro key
  rw [← known_rows calls hI hret key]
  exact (h key).filterMap s.rowOf

/-- Kept rows are as many as the records of the key, so iterating visits every one of them. -/
theorem perm_of_kept (hI : Inv calls m s) (hret : s.Returned) (h : Kept calls m s) (key : K) :
    (contents s key).Perm (known calls m s key) := by
  have hlen : (known calls m s key).length = (s.rows key).length := by
    rw [(h key).length_eq, ← known_rows calls hI hret key]
    exact (List.filterMap_length_eq_length.mpr (known_isSome calls hI key)).symm
  have hle : (s.rows key).length ≤ (contents s key).length := List.length_filterMap_le ..
  have hnd : (contents s key).Nodup := s.records.chain_nodup (s.get_lt key)
  exact (hnd.subperm (contents_subset calls hI key)).perm_of_length_le (hlen ▸ hle)

theorem not_kept_of_split (hI : Inv calls m s) (hret : s.Returned) (h : Split calls s) :
    ¬ Kept calls m s := by
  intro hk
  obtain ⟨key, a, b, ha, hb, hab, hba⟩ := h
  have hperm := perm_of_kept calls hI hret hk key
  have hvisit {c : Nat} (hc : c ∈ published calls s key) : c ∈ contents s key :=
    hperm.symm.subset (List.mem_append_left _ hc)
  have hchain {c : Nat} (hc : c ∈ published calls s key) :=
    @RecordList.chain_spec _ s.records (some c) fun _ he => Option.some.inj he ▸ published_lt calls hc
  rcases (s.records.chain_spec (s.get_lt key)).comparable (hvisit ha) (hvisit hb) (hchain ha)
    (hchain hb) with hm | hm
  · exact hab hm
  · exact hba hm

/-! ## 8. Every schedule -/

theorem intact_start : Intact calls m (start m : AddRows K R n) where
  perm key := by
    have hpub : published calls (start m) key = [] :=
      List.filterMap_eq_nil_iff.mpr fun j _ => ite_self _
    rw [known, hpub]
    exact .refl _
  found _ _ h := by cases h
  absent _ h := by rcases h with h | ⟨_, h⟩ <;> cases h
  pending _ _ h := by rcases h with ⟨_, h⟩ | ⟨_, _, h, _⟩ <;> cases h

/-- **No row is lost exactly where every write finds what its call has read**: over every schedule
    of any calls on any multimap, once all calls have returned. -/
theorem kept_iff_everyStep (calls : Fin n → K × R) (m : RecordMultimap K R)
    (schedule : List (Fin n)) (hret : (run (step calls) (start m) schedule).Returned) :
    Kept calls m (run (step calls) (start m) schedule) ↔
      EveryStep (step calls) (Publishes calls) (start m) schedule := by
  have hinv : Inv calls m (run (step calls) (start m) schedule) :=
    run_of_step (fun _ i h => h.step calls i) schedule (inv_start calls m)
  rcases everyStep_or (I := Inv calls m) (P := Intact calls m) (Q := Split calls)
    (fun _ i h => h.step calls i) (fun _ _ hI h hp => h.step calls hI hp)
    (fun _ _ hI h hp => h.split calls hI hp) (fun _ i _ h => h.step calls i) schedule
    (inv_start calls m) (intact_start calls) with ⟨hall, h⟩ | ⟨hnot, h⟩
  · exact iff_of_true (kept_of_perm calls hinv hret h.perm) hall
  · exact iff_of_false (not_kept_of_split calls hinv hret h) hnot

end AddRows

end Libbitcoin.Database
