/-
  File:      BitprimDatabase/Primitives/UnlinkCalls.lean
  Subject:   **WHEN CONCURRENT CALLS OF `unlink_if_exists` REMOVE WHAT THEY REPORT**
             (slab_hash_table.ipp, transaction_unconfirmed_database.cpp), one call for each of a
             set of hashes, as the bucket tasks of a block push issue them. A call is its reads and
             writes in code order: the bucket, the compared keys and the next positions of `find`,
             then those of `unlink`, and the write of the bucket or of the predecessor's next
             position.

  * `step` -- the next read or write of one call;
  * `Splices` -- a write finds its predecessor linked and pointing at the item, and the item's next
    position as the call has read it;
  * `Inv` -- with writes that splice, the chain of a bucket is what it was without the removed
    items, and an item once read, removed or not, still leads to every item behind it;
  * **`unlinked_of_splices`**: then, once all calls have returned, exactly their hashes are gone.
-/
import Mathlib.Data.Fin.Basic
import BitprimDatabase.Lib.Run
import BitprimDatabase.Primitives.HashTable

namespace Libbitcoin.Database

open Lib

/-! ## 1. The machine -/

/-- The next read or write of a call, and what it has read. -/
inductive UnlinkStage where
  | findBucket
  | findCompare (current : Option Nat)
  | findNext (current : Nat)
  | readBucket
  | compareBegin (begin : Option Nat)
  | nextOfBegin (begin : Nat)
  | writeBucket (begin : Nat) (next : Option Nat)
  | nextBehindBegin (begin : Nat)
  | compare (previous : Nat) (current : Option Nat)
  | nextBehind (current : Nat)
  | nextOfItem (previous current : Nat)
  | writeNext (previous current : Nat) (next : Option Nat)
  | done (result : Bool)
  deriving DecidableEq

/-- The shared table and the stages of `n` calls. -/
structure UnlinkCalls (K V : Type) (n : Nat) where
  table : HashTable K V
  stage : Fin n → UnlinkStage

namespace UnlinkCalls

variable {K V : Type} [DecidableEq K] {n : Nat}

omit [DecidableEq K] in
/-- The calls before their first step. -/
def start (t : HashTable K V) : UnlinkCalls K V n := ⟨t, fun _ => .findBucket⟩

omit [DecidableEq K] in
def goto (s : UnlinkCalls K V n) (i : Fin n) (stage : UnlinkStage) : UnlinkCalls K V n :=
  { s with stage := Function.update s.stage i stage }

omit [DecidableEq K] in
@[simp] theorem goto_same (s : UnlinkCalls K V n) (i : Fin n) (stage : UnlinkStage) :
    (s.goto i stage).stage i = stage := Function.update_self ..

omit [DecidableEq K] in
@[simp] theorem goto_ne (s : UnlinkCalls K V n) {i j : Fin n} (h : j ≠ i) (stage : UnlinkStage) :
    (s.goto i stage).stage j = s.stage j := Function.update_of_ne h ..

variable (keys : Fin n → K)

/-- The next read or write of a call. `unlink` compares the first item of the bucket before it
    tests for an empty one: that read has no result. -/
def step (s : UnlinkCalls K V n) (i : Fin n) : UnlinkCalls K V n :=
  match s.stage i with
  | .findBucket => s.goto i (.findCompare (s.table.readBucketValue (keys i)))
  | .findCompare none => s.goto i (.done false)
  | .findCompare (some current) =>
    match s.table.row current with
    | none => s
    | some item => s.goto i (if item.key = keys i then .readBucket else .findNext current)
  | .findNext current =>
    s.goto i (if s.table.next current = some current then .done false
      else .findCompare (s.table.next current))
  | .readBucket => s.goto i (.compareBegin (s.table.readBucketValue (keys i)))
  | .compareBegin none => s
  | .compareBegin (some begin) =>
    match s.table.row begin with
    | none => s
    | some item =>
      s.goto i (if item.key = keys i then .nextOfBegin begin else .nextBehindBegin begin)
  | .nextOfBegin begin => s.goto i (.writeBucket begin (s.table.next begin))
  | .writeBucket _ next => goto { s with table := s.table.link (keys i) next } i (.done true)
  | .nextBehindBegin begin => s.goto i (.compare begin (s.table.next begin))
  | .compare _ none => s.goto i (.done false)
  | .compare previous (some current) =>
    match s.table.row current with
    | none => s
    | some item =>
      s.goto i (if item.key = keys i then .nextOfItem previous current else .nextBehind current)
  | .nextBehind current =>
    s.goto i (if s.table.next current = some current then .done false
      else .compare current (s.table.next current))
  | .nextOfItem previous current => s.goto i (.writeNext previous current (s.table.next current))
  | .writeNext previous _ next =>
    goto { s with table := s.table.writeNext previous next } i (.done true)
  | .done _ => s

/-- All calls have returned. -/
def Returned (s : UnlinkCalls K V n) : Prop := ∀ i, ∃ result, s.stage i = .done result

/-- **What the calls are to leave**: none of the keys is found, every other key is found as before,
    `for_each` visits what it visited but for the keys, and a call answers true where its key was
    there. -/
structure Unlinked (t : HashTable K V) (s : UnlinkCalls K V n) : Prop where
  absent : ∀ i, s.table.find (keys i) = none
  kept : ∀ key, (∀ i, keys i ≠ key) → s.table.stack key = t.stack key
  visited : s.table.forEach = t.forEach.filter fun item => decide (∀ i, keys i ≠ item.1)
  result : ∀ i, s.stage i = .done (t.find (keys i)).isSome

/-- **A write that takes out its item**: the predecessor (the bucket, or an item linked in it) leads
    to the item, and the item to what the call has read. -/
def Splices (s : UnlinkCalls K V n) (i : Fin n) : Prop :=
  match s.stage i with
  | .writeBucket begin next =>
    s.table.readBucketValue (keys i) = some begin ∧ s.table.next begin = next
  | .writeNext previous current next =>
    previous ∈ s.table.chain (s.table.bucketIndex (keys i)) ∧
      s.table.next previous = some current ∧ s.table.next current = next
  | _ => True

instance (s : UnlinkCalls K V n) (i : Fin n) : Decidable (Splices keys s i) := by
  unfold Splices
  split <;> infer_instance

/-! ## 2. Entries -/

/-- An item with the key, linked before the calls. -/
def Entry (t : HashTable K V) (key : K) (p : Nat) : Prop :=
  p ∈ t.chain (t.bucketIndex key) ∧ ∃ item, t.row p = some item ∧ item.key = key

/-- Where a call goes on, nothing of its key is behind it; at the end there was nothing. -/
def Ahead (t : HashTable K V) (key : K) : Option Nat → Prop
  | none => ∀ e, ¬ Entry t key e
  | some current => current ∈ t.chain (t.bucketIndex key) ∧ ∀ e, Entry t key e → e ≤ current

/-- The same, once the item itself is compared. -/
def Behind (t : HashTable K V) (key : K) (current : Nat) : Prop :=
  current ∈ t.chain (t.bucketIndex key) ∧ ∀ e, Entry t key e → e < current

omit [DecidableEq K] in
/-- What a call knows at its stage. -/
def StageOk (t : HashTable K V) (key : K) : UnlinkStage → Prop
  | .findBucket => True
  | .findCompare current => Ahead t key current
  | .findNext current => Behind t key current
  | .readBucket => ∃ e, Entry t key e
  | .compareBegin begin => Ahead t key begin ∧ ∃ e, Entry t key e
  | .nextOfBegin begin => Entry t key begin
  | .writeBucket begin _ => Entry t key begin
  | .nextBehindBegin begin => Behind t key begin ∧ ∃ e, Entry t key e
  | .compare _ current => Ahead t key current ∧ ∃ e, Entry t key e
  | .nextBehind current => Behind t key current ∧ ∃ e, Entry t key e
  | .nextOfItem _ current => Entry t key current
  | .writeNext _ current _ => Entry t key current
  | .done result => result = true ↔ ∃ e, Entry t key e

/-- No call that answered true has taken the item out. -/
def live (t : HashTable K V) (s : UnlinkCalls K V n) (p : Nat) : Bool :=
  (t.row p).all fun item => decide (∀ i, s.stage i = .done true → item.key ≠ keys i)

/-- **What writes that splice keep**: the table is the one before the calls without the items taken
    out, and every item of it, taken out or not, leads to the live items behind it. -/
structure Inv (t : HashTable K V) (s : UnlinkCalls K V n) : Prop where
  wf : s.table.WF
  size_eq : s.table.size = t.size
  hash_eq : s.table.hash = t.hash
  row_eq : ∀ p, ((s.table.row p).map fun r => (r.key, r.value)) =
    (t.row p).map fun r => (r.key, r.value)
  chain_eq : ∀ b, s.table.chain b = (t.chain b).filter (live keys t s)
  cover : ∀ b y w, y ∈ t.chain b → w ∈ t.chain b → live keys t s w = true → w < y →
    ∃ z, s.table.next y = some z ∧ w ≤ z
  closed : ∀ b y z, y ∈ t.chain b → s.table.next y = some z → z ∈ t.chain b
  stage_ok : ∀ i, StageOk t (keys i) (s.stage i)

/-- A key with one item has one entry. -/
theorem entry_unique {t : HashTable K V} {key : K} (h1 : (t.stack key).length ≤ 1) {p q : Nat}
    (hp : Entry t key p) (hq : Entry t key q) : p = q := by
  by_contra hne
  have hsome {p : Nat} (hp : Entry t key p) : ∃ v, t.valueFor key p = some v := by
    obtain ⟨_, item, hr, hk⟩ := hp
    exact ⟨item.value, HashTable.valueFor_eq_some.mpr ⟨item, hr, hk, rfl⟩⟩
  obtain ⟨v, hv⟩ := hsome hp
  obtain ⟨w, hw⟩ := hsome hq
  obtain ⟨xs, ys, hc⟩ := List.append_of_mem hp.1
  have hlen : (xs.filterMap (t.valueFor key)).length + (ys.filterMap (t.valueFor key)).length = 0 := by
    unfold HashTable.stack at h1
    rw [hc, List.filterMap_append, List.filterMap_cons_some hv, List.length_append,
      List.length_cons] at h1
    omega
  have hq' : q ∈ xs ∨ q ∈ ys := by
    have := hc ▸ hq.1
    rcases List.mem_append.mp this with h | h
    · exact .inl h
    · exact .inr ((List.mem_cons.mp h).resolve_left (Ne.symm hne))
  have hmem {l : List Nat} (h : q ∈ l) : 0 < (l.filterMap (t.valueFor key)).length :=
    List.length_pos_of_mem (List.mem_filterMap.mpr ⟨q, h, hw⟩)
  rcases hq' with h | h
  · have := hmem h
    omega
  · have := hmem h
    omega

theorem find_isSome_iff {t : HashTable K V} (hwf : t.WF) {key : K} :
    (t.find key).isSome = true ↔ ∃ e, Entry t key e := by
  constructor
  · intro h
    obtain ⟨p, hf⟩ := Option.isSome_iff_exists.mp h
    obtain ⟨xs, ys, r, hc, hr, hk, _⟩ := hwf.find_some hf
    exact ⟨p, hc ▸ List.mem_append_right _ List.mem_cons_self, r, hr, hk⟩
  · intro ⟨e, hm, item, hr, hk⟩
    cases hf : t.find key with
    | some p => rfl
    | none =>
        have hv : t.valueFor key e = some item.value :=
          HashTable.valueFor_eq_some.mpr ⟨item, hr, hk, rfl⟩
        have := (List.filterMap_eq_nil_iff.mp (hwf.find_none.mp hf)) e hm
        rw [hv] at this
        cases this

section Reads

variable {keys} {t : HashTable K V} {s : UnlinkCalls K V n}

theorem live_iff {p : Nat} : live keys t s p = true ↔
    ∀ item, t.row p = some item → ∀ i, s.stage i = .done true → item.key ≠ keys i := by
  unfold live
  cases t.row p with
  | none => simp
  | some item => simp

theorem Inv.bucketIndex_eq (h : Inv keys t s) (key : K) :
    s.table.bucketIndex key = t.bucketIndex key := by
  unfold HashTable.bucketIndex
  rw [h.size_eq, h.hash_eq]

theorem Inv.row_key (h : Inv keys t s) {p : Nat} {item : Row K V} (hr : s.table.row p = some item) :
    ∃ item', t.row p = some item' ∧ item'.key = item.key := by
  have := h.row_eq p
  rw [hr] at this
  obtain ⟨item', hr', he⟩ := Option.map_eq_some_iff.mp this.symm
  exact ⟨item', hr', congrArg Prod.fst he⟩

/-- The entry of a call that has not answered true is live. -/
theorem live_entry (hinj : Function.Injective keys) {i : Fin n} (hs : s.stage i ≠ .done true)
    {e : Nat} (he : Entry t (keys i) e) : live keys t s e = true := by
  refine live_iff.mpr fun item hr j hj hk => ?_
  obtain ⟨_, item', hr', hk'⟩ := he
  cases hr.symm.trans hr'
  exact hs (hinj (hk'.symm.trans hk) ▸ hj)

theorem Inv.mem_chain (h : Inv keys t s) {b p : Nat} (hp : p ∈ s.table.chain b) :
    p ∈ t.chain b ∧ live keys t s p = true := by
  rw [h.chain_eq] at hp
  exact List.mem_filter.mp hp

/-- The bucket leads to the entry. -/
theorem Inv.bucket_ahead (h : Inv keys t s) (hinj : Function.Injective keys) {i : Fin n}
    (hs : s.stage i ≠ .done true) : Ahead t (keys i) (s.table.readBucketValue (keys i)) := by
  have hlive (e : Nat) (he : Entry t (keys i) e) : e ∈ s.table.chain (t.bucketIndex (keys i)) := by
    rw [h.chain_eq]
    exact List.mem_filter.mpr ⟨he.1, live_entry hinj hs he⟩
  have hch := h.wf.chain (t.bucketIndex (keys i))
  unfold HashTable.readBucketValue
  rw [h.bucketIndex_eq]
  cases hb : s.table.bucket (t.bucketIndex (keys i)) with
  | none =>
      intro e he
      rw [hb] at hch
      have := hlive e he
      cases hc : s.table.chain (t.bucketIndex (keys i)) with
      | nil =>
          rw [hc] at this
          cases this
      | cons p ps =>
          rw [hc] at hch
          cases hch
  | some x =>
      have hhead := hch.head_eq
      rw [hb] at hhead
      have hx : x ∈ s.table.chain (t.bucketIndex (keys i)) := List.mem_of_mem_head? hhead.symm
      refine ⟨(h.mem_chain hx).1, fun e he => ?_⟩
      exact Nat.le_of_lt_succ (hch.mem_lt h.wf.descends
        (fun p hp => by cases hb.symm.trans hp; exact Nat.lt_succ_self x) e (hlive e he))

/-- The next position of an item leads to the entry behind it. -/
theorem Inv.next_ahead (h : Inv keys t s) (hinj : Function.Injective keys) {i : Fin n}
    (hs : s.stage i ≠ .done true) {x : Nat} (hx : Behind t (keys i) x) :
    Ahead t (keys i) (s.table.next x) := by
  cases hn : s.table.next x with
  | none =>
      intro e he
      obtain ⟨z, hz, _⟩ := h.cover _ x e hx.1 he.1 (live_entry hinj hs he) (hx.2 e he)
      rw [hn] at hz
      cases hz
  | some z =>
      refine ⟨h.closed _ x z hx.1 hn, fun e he => ?_⟩
      obtain ⟨z', hz', hle⟩ := h.cover _ x e hx.1 he.1 (live_entry hinj hs he) (hx.2 e he)
      cases hn.symm.trans hz'
      exact hle

/-- A compared item is the entry, or the entry is behind it. -/
theorem Inv.compared (h : Inv keys t s) {key : K} {x : Nat} {item : Row K V}
    (hr : s.table.row x = some item) (hx : Ahead t key (some x)) :
    if item.key = key then Entry t key x else Behind t key x := by
  obtain ⟨item', hr', hk'⟩ := h.row_key hr
  split
  · rename_i hk
    exact ⟨hx.1, item', hr', hk'.trans hk⟩
  · rename_i hk
    refine ⟨hx.1, fun e he => Nat.lt_of_le_of_ne (hx.2 e he) fun hex => hk ?_⟩
    obtain ⟨_, item'', hr'', hk''⟩ := he
    subst hex
    cases hr'.symm.trans hr''
    exact hk'.symm.trans hk''

/-- A read leaves the table; the call goes on with what it knows. -/
theorem Inv.goto (h : Inv keys t s) {i : Fin n} {stage : UnlinkStage}
    (hs : s.stage i ≠ .done true) (hs' : stage ≠ .done true) (hok : StageOk t (keys i) stage) :
    Inv keys t (s.goto i stage) := by
  have hdone (j : Fin n) : (s.goto i stage).stage j = .done true ↔ s.stage j = .done true := by
    by_cases hj : j = i
    · subst hj
      rw [goto_same]
      exact iff_of_false hs' hs
    · rw [goto_ne _ hj]
  have hlive : live keys t (s.goto i stage) = live keys t s := by
    funext p
    unfold live
    simp only [hdone]
  refine ⟨h.wf, h.size_eq, h.hash_eq, h.row_eq, fun b => hlive ▸ h.chain_eq b, ?_, h.closed,
    fun j => ?_⟩
  · rw [hlive]
    exact h.cover
  · by_cases hj : j = i
    · subst hj
      rw [goto_same]
      exact hok
    · rw [goto_ne _ hj]
      exact h.stage_ok j

/-! ## 3. Writes -/

/-- **A write that takes the entry of its call off the chain.** -/
theorem Inv.remove (h : Inv keys t s) (ht : t.WF) (h1 : ∀ i, (t.stack (keys i)).length ≤ 1)
    {i : Fin n} {x : Nat} (hx : Entry t (keys i) x) {table : HashTable K V} (hwf : table.WF)
    (hsize : table.size = s.table.size) (hhash : table.hash = s.table.hash)
    (hrow : ∀ p, ((table.row p).map fun r => (r.key, r.value)) =
      (s.table.row p).map fun r => (r.key, r.value))
    (hchain : ∀ b, table.chain b = (s.table.chain b).filter (· ≠ x))
    (hcover : ∀ b y w, y ∈ t.chain b → w ∈ t.chain b → live keys t s w = true → w ≠ x → w < y →
      ∃ z, table.next y = some z ∧ w ≤ z)
    (hclosed : ∀ b y z, y ∈ t.chain b → table.next y = some z → z ∈ t.chain b) :
    Inv keys t (UnlinkCalls.goto { s with table := table } i (.done true)) := by
  generalize hs' : UnlinkCalls.goto { s with table := table } i (.done true) = s'
  have htable : s'.table = table := hs' ▸ rfl
  have hsame : s'.stage i = .done true := by rw [← hs', goto_same]
  have hne {j : Fin n} (hj : j ≠ i) : s'.stage j = s.stage j := by rw [← hs', goto_ne _ hj]
  -- live now: live before, and not the entry
  have hlive {p : Nat} {b : Nat} (hp : p ∈ t.chain b) :
      live keys t s' p = true ↔ live keys t s p = true ∧ p ≠ x := by
    rw [live_iff, live_iff]
    constructor
    · intro hl
      refine ⟨fun item hr j hj => ?_, fun he => ?_⟩
      · by_cases hji : j = i
        · subst hji
          exact hl item hr j hsame
        · exact hl item hr j ((hne hji).trans hj)
      · obtain ⟨_, item, hr, hk⟩ := hx
        exact hl item (he ▸ hr) i hsame hk
    · intro ⟨hl, hpx⟩ item hr j hj hk
      by_cases hji : j = i
      · subst hji
        obtain ⟨item', hr', hb⟩ := ht.mem_chain hp
        cases hr.symm.trans hr'
        exact hpx (entry_unique (h1 j) ⟨hk ▸ hb ▸ hp, item, hr, hk⟩ hx)
      · exact hl item hr j ((hne hji).symm.trans hj) hk
  refine ⟨htable ▸ hwf, ?_, ?_, fun p => ?_, fun b => ?_, fun b y w hy hw hl hlt => ?_,
    fun b y z hy hz => ?_, fun j => ?_⟩
  · rw [htable, hsize, h.size_eq]
  · rw [htable, hhash, h.hash_eq]
  · rw [htable, hrow, h.row_eq]
  · rw [htable, hchain, h.chain_eq, List.filter_filter]
    refine List.filter_congr fun p hp => ?_
    rw [Bool.eq_iff_iff, hlive hp]
    simp [and_comm]
  · obtain ⟨hl, hwx⟩ := (hlive hw).mp hl
    rw [htable]
    exact hcover b y w hy hw hl hwx hlt
  · rw [htable] at hz
    exact hclosed b y z hy hz
  · by_cases hj : j = i
    · subst hj
      rw [hsame]
      exact iff_of_true rfl ⟨x, hx⟩
    · rw [hne hj]
      exact h.stage_ok j

/-- An item of the chain of a bucket, and its bucket. -/
theorem chain_row_of_mem (ht : t.WF) {b p : Nat} (h : Inv keys t s) (hp : p ∈ t.chain b) :
    ∃ r, s.table.row p = some r ∧ s.table.bucketIndex r.key = b := by
  obtain ⟨r, hr, hb⟩ := ht.mem_chain hp
  have := h.row_eq p
  rw [hr] at this
  obtain ⟨r', hr', he⟩ := Option.map_eq_some_iff.mp this
  refine ⟨r', hr', ?_⟩
  rw [h.bucketIndex_eq, show r'.key = r.key from congrArg Prod.fst he]
  exact hb

/-- Taking an item out of a chain without repetitions. -/
theorem filter_ne_middle {xs ys : List Nat} {x : Nat} (h : (xs ++ x :: ys).Nodup) :
    (xs ++ x :: ys).filter (· ≠ x) = xs ++ ys := by
  simp only [List.nodup_append, List.nodup_cons] at h
  rw [List.filter_append, List.filter_cons_of_neg (by simp)]
  congr 1
  · exact List.filter_eq_self.mpr fun y hy => by simpa using (h.2.2 y hy x List.mem_cons_self)
  · exact List.filter_eq_self.mpr fun y hy => by
      have : y ≠ x := fun he => h.2.1.1 (he ▸ hy)
      simpa using this

/-- The other buckets do not hold the item. -/
theorem filter_ne_other (h : Inv keys t s) {b c x : Nat} (hx : x ∈ s.table.chain c) (hb : b ≠ c) :
    (s.table.chain b).filter (· ≠ x) = s.table.chain b :=
  List.filter_eq_self.mpr fun y hy => by
    have : y ≠ x := fun he => hb (h.wf.chain_disjoint (he ▸ hy) hx)
    simpa using this

/-- **The write of the bucket.** -/
theorem Inv.writeBucket (h : Inv keys t s) (ht : t.WF) (h1 : ∀ i, (t.stack (keys i)).length ≤ 1)
    {i : Fin n} {begin : Nat} {next : Option Nat} (hx : Entry t (keys i) begin)
    (hb : s.table.readBucketValue (keys i) = some begin) (hn : s.table.next begin = next) :
    Inv keys t (UnlinkCalls.goto { s with table := s.table.link (keys i) next } i (.done true)) := by
  have hlink : ∀ q, next = some q → ∃ r, s.table.row q = some r ∧
      s.table.bucketIndex r.key = s.table.bucketIndex (keys i) := by
    intro q hq
    rw [h.bucketIndex_eq]
    exact chain_row_of_mem ht h (h.closed _ begin q hx.1 (hn.trans hq))
  have hwf := h.wf.link hlink
  have hch := h.wf.chain (s.table.bucketIndex (keys i))
  rw [show s.table.bucket _ = some begin from hb] at hch
  obtain ⟨ys, hys⟩ : ∃ ys, s.table.chain (s.table.bucketIndex (keys i)) = begin :: ys := by
    generalize s.table.chain (s.table.bucketIndex (keys i)) = l at hch ⊢
    cases hch with
    | cons _ ys _ => exact ⟨ys, rfl⟩
  refine h.remove ht h1 hx hwf rfl rfl (fun _ => rfl) (fun b => ?_)
    (fun b y w hy hw hl _ hlt => h.cover b y w hy hw hl hlt) h.closed
  by_cases hbi : b = s.table.bucketIndex (keys i)
  · subst hbi
    have hnd := h.wf.chain (s.table.bucketIndex (keys i)) |>.nodup h.wf.descends
    rw [hys] at hnd
    rw [hys]
    refine (hwf.chain_eq ?_).trans (@filter_ne_middle [] ys begin hnd).symm
    rw [show (s.table.link (keys i) next).bucket _ = next from Function.update_self ..]
    rw [hys] at hch
    cases hch with
    | cons _ _ hch => exact hn ▸ hch
  · have hmem : begin ∈ s.table.chain (s.table.bucketIndex (keys i)) := by
      rw [hys]
      exact List.mem_cons_self
    rw [filter_ne_other h hmem hbi]
    refine hwf.chain_eq ?_
    rw [show (s.table.link (keys i) next).bucket b = s.table.bucket b from
      Function.update_of_ne hbi ..]
    exact h.wf.chain b

/-- **The write of a predecessor.** -/
theorem Inv.writeNext (h : Inv keys t s) (ht : t.WF) (h1 : ∀ i, (t.stack (keys i)).length ≤ 1)
    {i : Fin n} {previous current : Nat} {next : Option Nat} (hx : Entry t (keys i) current)
    (hp : previous ∈ s.table.chain (s.table.bucketIndex (keys i)))
    (hpc : s.table.next previous = some current) (hn : s.table.next current = next) :
    Inv keys t
      (UnlinkCalls.goto { s with table := s.table.writeNext previous next } i (.done true)) := by
  have hpt := (h.mem_chain hp).1
  rw [h.bucketIndex_eq] at hpt
  obtain ⟨r, hr, hrb⟩ := chain_row_of_mem ht h hpt
  have hlink : ∀ r q, s.table.row previous = some r → next = some q → q < previous ∧
      ∃ r', s.table.row q = some r' ∧ s.table.bucketIndex r'.key = s.table.bucketIndex r.key := by
    intro r' q hr' hq
    cases hr.symm.trans hr'
    rw [hrb]
    refine ⟨Nat.lt_trans (h.wf.descends _ _ (hn.trans hq)) (h.wf.descends _ _ hpc), ?_⟩
    exact chain_row_of_mem ht h (h.closed _ current q hx.1 (hn.trans hq))
  have hwf := h.wf.writeNext hlink
  have hnext := HashTable.writeNext_next s.table hr next
  obtain ⟨xs, zs, hc⟩ := List.append_of_mem hp
  have hch := h.wf.chain (s.table.bucketIndex (keys i))
  rw [hc] at hch
  obtain ⟨ys, rfl⟩ : ∃ ys, zs = current :: ys := by
    have hafter := hch.after
    rw [hpc] at hafter
    cases hafter with
    | cons _ ys _ => exact ⟨ys, rfl⟩
  refine h.remove ht h1 hx hwf rfl rfl (fun p => ?_) (fun b => ?_)
    (fun b y w hy hw hl hwx hlt => ?_) (fun b y z hy hz => ?_)
  · by_cases hpp : p = previous
    · subst hpp
      simp [HashTable.writeNext, Function.comp_def]
    · simp [HashTable.writeNext, hpp]
  · by_cases hbi : b = s.table.bucketIndex (keys i)
    · subst hbi
      have hnd := h.wf.chain (s.table.bucketIndex (keys i)) |>.nodup h.wf.descends
      rw [hc, show xs ++ previous :: current :: ys = (xs ++ [previous]) ++ current :: ys by simp]
        at hnd ⊢
      rw [filter_ne_middle hnd]
      refine hwf.chain_eq ?_
      rw [hnext, ← hn, List.append_assoc]
      exact hch.splice h.wf.descends
    · have hmem : current ∈ s.table.chain (s.table.bucketIndex (keys i)) := by
        rw [hc]
        simp
      rw [filter_ne_other h hmem hbi]
      refine hwf.chain_eq ?_
      rw [hnext]
      refine (h.wf.chain b).congr fun q hq => Function.update_of_ne (fun he => hbi ?_) ..
      exact h.wf.chain_disjoint (he ▸ hq) hp
  · rw [hnext]
    by_cases hyp : y = previous
    · -- the predecessor leads past the entry
      subst hyp
      obtain ⟨z, hz, hle⟩ := h.cover b y w hy hw hl hlt
      cases hpc.symm.trans hz
      have hb : b = t.bucketIndex (keys i) := ht.chain_disjoint hy hpt
      obtain ⟨z', hz', hle'⟩ := h.cover b current w (hb ▸ hx.1) hw hl
        (Nat.lt_of_le_of_ne hle hwx)
      exact ⟨z', by rw [Function.update_self, ← hn, hz'], hle'⟩
    · rw [Function.update_of_ne hyp]
      exact h.cover b y w hy hw hl hlt
  · rw [hnext] at hz
    by_cases hyp : y = previous
    · subst hyp
      rw [Function.update_self, ← hn] at hz
      have hb : b = t.bucketIndex (keys i) := ht.chain_disjoint hy hpt
      exact h.closed b current z (hb ▸ hx.1) hz
    · rw [Function.update_of_ne hyp] at hz
      exact h.closed b y z hy hz

/-! ## 4. Every step -/

/-- **A read keeps what the call knows, a write that splices takes its entry out.** -/
theorem Inv.step (h : Inv keys t s) (ht : t.WF) (hinj : Function.Injective keys)
    (h1 : ∀ i, (t.stack (keys i)).length ≤ 1) {i : Fin n} (hsp : Splices keys s i) :
    Inv keys t (UnlinkCalls.step keys s i) := by
  have hok := h.stage_ok i
  unfold Splices at hsp
  unfold UnlinkCalls.step
  cases hst : s.stage i with
  | findBucket =>
      have hnd : s.stage i ≠ .done true := by rw [hst]; nofun
      exact h.goto hnd nofun (h.bucket_ahead hinj hnd)
  | findCompare current =>
      have hnd : s.stage i ≠ .done true := by rw [hst]; nofun
      rw [hst] at hok
      cases current with
      | none => exact h.goto hnd nofun (iff_of_false Bool.false_ne_true fun ⟨e, he⟩ => hok e he)
      | some current =>
          dsimp only
          cases hr : s.table.row current with
          | none => exact h
          | some item =>
              dsimp only
              have hc := h.compared hr hok
              by_cases hk : item.key = keys i
              · rw [if_pos hk] at hc
                rw [if_pos hk]
                exact h.goto hnd nofun ⟨current, hc⟩
              · rw [if_neg hk] at hc
                rw [if_neg hk]
                exact h.goto hnd nofun hc
  | findNext current =>
      have hnd : s.stage i ≠ .done true := by rw [hst]; nofun
      rw [hst] at hok
      have hself : s.table.next current ≠ some current := fun he =>
        absurd (h.wf.descends _ _ he) (Nat.lt_irrefl current)
      dsimp only
      rw [if_neg hself]
      exact h.goto hnd nofun (h.next_ahead hinj hnd hok)
  | readBucket =>
      have hnd : s.stage i ≠ .done true := by rw [hst]; nofun
      rw [hst] at hok
      exact h.goto hnd nofun ⟨h.bucket_ahead hinj hnd, hok⟩
  | compareBegin begin =>
      have hnd : s.stage i ≠ .done true := by rw [hst]; nofun
      rw [hst] at hok
      cases begin with
      | none => exact h
      | some begin =>
          dsimp only
          cases hr : s.table.row begin with
          | none => exact h
          | some item =>
              dsimp only
              have hc := h.compared hr hok.1
              by_cases hk : item.key = keys i
              · rw [if_pos hk] at hc
                rw [if_pos hk]
                exact h.goto hnd nofun hc
              · rw [if_neg hk] at hc
                rw [if_neg hk]
                exact h.goto hnd nofun ⟨hc, hok.2⟩
  | nextOfBegin begin =>
      rw [hst] at hok
      exact h.goto (by rw [hst]; nofun) nofun hok
  | writeBucket begin next =>
      rw [hst] at hok hsp
      exact h.writeBucket ht h1 hok hsp.1 hsp.2
  | nextBehindBegin begin =>
      have hnd : s.stage i ≠ .done true := by rw [hst]; nofun
      rw [hst] at hok
      exact h.goto hnd nofun ⟨h.next_ahead hinj hnd hok.1, hok.2⟩
  | compare previous current =>
      have hnd : s.stage i ≠ .done true := by rw [hst]; nofun
      rw [hst] at hok
      cases current with
      | none =>
          obtain ⟨hnone, e, he⟩ := hok
          exact absurd he (hnone e)
      | some current =>
          dsimp only
          cases hr : s.table.row current with
          | none => exact h
          | some item =>
              dsimp only
              have hc := h.compared hr hok.1
              by_cases hk : item.key = keys i
              · rw [if_pos hk] at hc
                rw [if_pos hk]
                exact h.goto hnd nofun hc
              · rw [if_neg hk] at hc
                rw [if_neg hk]
                exact h.goto hnd nofun ⟨hc, hok.2⟩
  | nextBehind current =>
      have hnd : s.stage i ≠ .done true := by rw [hst]; nofun
      rw [hst] at hok
      have hself : s.table.next current ≠ some current := fun he =>
        absurd (h.wf.descends _ _ he) (Nat.lt_irrefl current)
      dsimp only
      rw [if_neg hself]
      exact h.goto hnd nofun ⟨h.next_ahead hinj hnd hok.1, hok.2⟩
  | nextOfItem previous current =>
      rw [hst] at hok
      exact h.goto (by rw [hst]; nofun) nofun hok
  | writeNext previous current next =>
      rw [hst] at hok hsp
      exact h.writeNext ht h1 hok hsp.1 hsp.2.1 hsp.2.2
  | done result => exact h

end Reads

variable {t : HashTable K V}

theorem inv_start (ht : t.WF) : Inv keys t (start t : UnlinkCalls K V n) := by
  have hlive (p : Nat) : live keys t (start t) p = true := live_iff.mpr fun _ _ _ h => nomatch h
  refine ⟨ht, rfl, rfl, fun _ => rfl, fun b => ?_, fun b y w hy hw _ hlt => ?_,
    fun b y z hy hz => ?_, fun _ => trivial⟩
  · exact (List.filter_eq_self.mpr fun p _ => hlive p).symm
  · -- the next item of a sorted chain
    obtain ⟨xs, ys, hc⟩ := List.append_of_mem hy
    have hch := ht.chain b
    rw [hc] at hch hw
    have hwy : w ∈ ys := by
      rcases List.mem_append.mp hw with hwx | hw
      · have := (List.pairwise_append.mp (hch.sorted ht.descends)).2.2 w hwx y List.mem_cons_self
        omega
      · exact (List.mem_cons.mp hw).resolve_left (Nat.ne_of_lt hlt)
    have hafter := hch.after
    cases hn : t.next y with
    | none =>
        rw [hn] at hafter
        cases hafter
        cases hwy
    | some z =>
        rw [hn] at hafter
        exact ⟨z, hn, Nat.le_of_lt_succ (hafter.mem_lt ht.descends
          (fun _ he => by cases he; exact Nat.lt_succ_self z) w hwy)⟩
  · obtain ⟨xs, ys, hc⟩ := List.append_of_mem hy
    have hch := ht.chain b
    rw [hc] at hch
    have hafter := hch.after
    rw [show t.next y = some z from hz] at hafter
    rw [hc]
    refine List.mem_append_right _ (List.mem_cons_of_mem _ ?_)
    exact List.mem_of_mem_head? hafter.head_eq.symm

/-- **All calls returned**: what the invariant says then. -/
theorem unlinked_of_inv {s : UnlinkCalls K V n} (h : Inv keys t s) (ht : t.WF)
    (hret : s.Returned) : Unlinked keys t s := by
  have hresult (i : Fin n) : s.stage i = .done (t.find (keys i)).isSome := by
    obtain ⟨result, hr⟩ := hret i
    have hok := h.stage_ok i
    rw [hr] at hok
    rw [hr, Bool.eq_iff_iff.mpr (hok.trans (find_isSome_iff ht).symm)]
  -- live now: an item of another key
  have hlive {b p : Nat} {item : Row K V} (hp : p ∈ t.chain b) (hr : t.row p = some item) :
      live keys t s p = true ↔ ∀ i, keys i ≠ item.key := by
    rw [live_iff]
    constructor
    · intro hl i hk
      obtain ⟨item', hr', hb⟩ := ht.mem_chain hp
      cases hr.symm.trans hr'
      have he : Entry t (keys i) p := ⟨by rw [hk, hb]; exact hp, item, hr, hk.symm⟩
      refine hl item hr i ?_ hk.symm
      rw [hresult, (find_isSome_iff ht).mpr ⟨p, he⟩]
    · intro hall item' hr' i _ hk
      cases hr.symm.trans hr'
      exact hall i hk.symm
  have hval (key : K) (p : Nat) : s.table.valueFor key p = t.valueFor key p := by
    have hrow := h.row_eq p
    unfold HashTable.valueFor
    cases hr : t.row p with
    | none =>
        rw [hr] at hrow
        rw [Option.map_eq_none_iff.mp hrow]
    | some item =>
        rw [hr] at hrow
        obtain ⟨item', hr', he⟩ := Option.map_eq_some_iff.mp hrow
        rw [hr']
        simp only [Option.bind_some, show item'.key = item.key from congrArg Prod.fst he,
          show item'.value = item.value from congrArg Prod.snd he]
  have hstack (key : K) : s.table.stack key =
      ((t.chain (t.bucketIndex key)).filter (live keys t s)).filterMap (t.valueFor key) := by
    unfold HashTable.stack
    rw [h.bucketIndex_eq, h.chain_eq]
    exact List.filterMap_congr fun p _ => hval key p
  refine ⟨fun i => ?_, fun key hkey => ?_, ?_, hresult⟩
  · refine h.wf.find_none.mpr ?_
    rw [hstack, List.filterMap_eq_nil_iff]
    intro p hp
    obtain ⟨hp, hl⟩ := List.mem_filter.mp hp
    refine Option.eq_none_iff_forall_ne_some.mpr fun v hv => ?_
    obtain ⟨item, hr, hk, _⟩ := HashTable.valueFor_eq_some.mp hv
    exact (hlive hp hr).mp hl i hk.symm
  · rw [hstack, List.filterMap_filter]
    refine List.filterMap_congr fun p hp => ?_
    cases hl : live keys t s p with
    | true => rfl
    | false =>
        cases hv : t.valueFor key p with
        | none => rfl
        | some v =>
            obtain ⟨item, hr, hk, _⟩ := HashTable.valueFor_eq_some.mp hv
            rw [(hlive hp hr).mpr fun i => hk ▸ hkey i] at hl
            cases hl
  · rw [h.wf.forEach_eq, ht.forEach_eq, h.size_eq, List.filter_flatMap]
    refine congrArg (fun f => (List.range t.size).flatMap f) (funext fun b => ?_)
    rw [h.chain_eq, List.filterMap_filter, List.filter_filterMap]
    refine List.filterMap_congr fun p hp => ?_
    rw [h.row_eq p]
    obtain ⟨item, hr, _⟩ := ht.mem_chain hp
    rw [hr]
    by_cases hall : ∀ i, keys i ≠ item.key
    · simp [(hlive hp hr).mpr hall, Option.filter, hall]
    · have hl : live keys t s p = false := Bool.eq_false_iff.mpr fun hl => hall ((hlive hp hr).mp hl)
      simp only [hl, Option.map_some]
      simp [Option.filter, hall]

/-- **Writes that splice remove exactly what the calls report**: over every table, every set of
    keys with at most one item each, and every schedule. -/
theorem unlinked_of_splices {keys : Fin n → K} (hinj : Function.Injective keys)
    {t : HashTable K V} (ht : t.WF) (h1 : ∀ i, (t.stack (keys i)).length ≤ 1)
    {schedule : List (Fin n)} (hsp : EveryStep (step keys) (Splices keys) (start t) schedule)
    (hret : (run (step keys) (start t) schedule).Returned) :
    Unlinked keys t (run (step keys) (start t) schedule) :=
  unlinked_of_inv keys (always_of_step (fun _ _ h hsp => h.step ht hinj h1 hsp) (inv_start keys ht)
    hsp).last ht hret

omit [DecidableEq K] in
theorem returned_of_done {s : UnlinkCalls K V n}
    (h : ∀ i, s.stage i = .done true ∨ s.stage i = .done false) : s.Returned := fun i =>
  (h i).elim (fun h => ⟨true, h⟩) fun h => ⟨false, h⟩

/-- One bucket with the items 3, 2, 1 in its chain. -/
def sampleTable : HashTable Nat Nat :=
  (((HashTable.create id 1 0).store 1 10 1).1.store 2 20 1).1.store 3 30 1 |>.1

theorem sampleTable_wf : sampleTable.WF :=
  (((HashTable.create_wf id 1 0).store 1 10 Nat.one_pos).store 2 20 Nat.one_pos).store 3 30
    Nat.one_pos

def front : Fin 2 := ⟨0, Nat.two_pos⟩

def back : Fin 2 := ⟨1, Nat.one_lt_two⟩

/-- The calls remove two neighbours of the chain. -/
def neighbours (i : Fin 2) : Nat := 2 - i.val

/-- One call after the other: the second one finds the first item as its new predecessor. -/
def oneAtATime : List (Fin 2) := List.replicate 10 front ++ List.replicate 10 back

theorem oneAtATime_unlinked : Unlinked neighbours sampleTable
    (run (step neighbours) (start sampleTable) oneAtATime) := by
  refine unlinked_of_splices ?_ sampleTable_wf (by decide +kernel) (by decide +kernel)
    (returned_of_done (by decide +kernel))
  intro i j h
  revert i j
  decide

/-- Both calls read before one of them writes: the second one writes the next position of an item
    that is not linked any more, and its own item stays. -/
def bothLooked : List (Fin 2) :=
  List.replicate 9 front ++ List.replicate 13 back ++ [front, back]

theorem bothLooked_kept : (run (step neighbours) (start sampleTable) bothLooked).Returned ∧
    ¬ Unlinked neighbours sampleTable (run (step neighbours) (start sampleTable) bothLooked) := by
  refine ⟨returned_of_done (by decide +kernel), fun h => ?_⟩
  have habsent := h.absent back
  revert habsent
  decide +kernel

end UnlinkCalls

end Libbitcoin.Database
