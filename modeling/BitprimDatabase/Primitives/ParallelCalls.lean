/-
  File:      BitprimDatabase/Primitives/ParallelCalls.lean
  Subject:   **STORES AND FINDS IN PARALLEL** (slab_hash_table.ipp, record_hash_table.ipp). Any number
             of threads store and find, interleaved at every byte written into an item, at every
             bucket word, and at the lock of the table; no find takes that lock. Between them one
             thread alone unlinks, or the file is reopened.

  * `Storing`, `Doing`, `Parallel`, `turn` -- where each thread is, and its next step;
  * `tableObject` -- what the table is for: a stack of items for each key;
  * `ParallelInv` -- the items handed out are apart, the linked ones are whole, what a thread writes is its
    own, and a reader stands on the end of a chain it has seen whole;
  * **`parallel_linearizable`** -- every history is that of the stacks, each call at one point; what a
    find answers points to the bytes that were stored, for as long as they are linked.
-/
import BitprimDatabase.Lib.Atomic
import BitprimDatabase.Primitives.FindCalls
import BitprimDatabase.Primitives.ItemChains

namespace Libbitcoin.Database

open Lib

namespace TableFile

variable {m : Manager} {keySize n : Nat}

/-! ## 1. The machine -/

/-- Where a thread is in `store`: what it does next. -/
inductive Storing where
  | create
  | write (item written : Nat)
  | lock (item : Nat)
  | readBucket (item : Nat)
  | writeNext (item next written : Nat)
  | linkBucket (item : Nat)
  | unlock (item : Nat)
  | done (item : Nat)
  deriving DecidableEq

/-- The call a thread is in. -/
inductive Doing (keySize : Nat) where
  | idle
  | store (key : Key keySize) (value : List UInt8) (stage : Storing)
  | find (key : Key keySize) (reading : Reading)

/-- The file, the lock of the table and the threads. -/
structure Parallel (m : Manager) (keySize n : Nat) where
  file : TableFile m keySize
  mutex : Option (Fin n)
  doing : Fin n → Doing keySize

/-- What is called, and what is answered. -/
inductive Op (keySize : Nat) where
  | store (key : Key keySize) (value : List UInt8)
  | find (key : Key keySize)
  | unlink (key : Key keySize)

inductive Answer where
  | offset (offset : Nat)
  | found (item : Option Nat)
  | unlinked (found : Bool)
  deriving DecidableEq

/-- A thread calls, takes its next step, or returns; or one call is made while no other runs. -/
inductive Turn (keySize n : Nat) where
  | store (thread : Fin n) (key : Key keySize) (value : List UInt8)
  | find (thread : Fin n) (key : Key keySize)
  | step (thread : Fin n)
  | answer (thread : Fin n)
  | unlink (thread : Fin n) (key : Key keySize)
  | reopen

namespace Doing

def isIdle : Doing keySize → Bool
  | idle => true
  | _ => false

theorem eq_idle {d : Doing keySize} (h : d.isIdle = true) : d = idle := by
  cases d with
  | idle => rfl
  | store key value stage => cases h
  | find key reading => cases h

/-- The item a thread has taken and not linked. -/
def entry : Doing keySize → Option (Entry keySize)
  | store key value (.write item _) => some ⟨item, key, value⟩
  | store key value (.lock item) => some ⟨item, key, value⟩
  | store key value (.readBucket item) => some ⟨item, key, value⟩
  | store key value (.writeNext item _ _) => some ⟨item, key, value⟩
  | store key value (.linkBucket item) => some ⟨item, key, value⟩
  | _ => none

/-- In the critical section of `store`. -/
def critical : Doing keySize → Bool
  | store _ _ (.readBucket _) => true
  | store _ _ (.writeNext _ _ _) => true
  | store _ _ (.linkBucket _) => true
  | store _ _ (.unlock _) => true
  | _ => false

/-- What the call returns. -/
def result (m : Manager) : Doing keySize → Option Answer
  | store _ _ (.done item) => some (.offset (offset m keySize item))
  | find _ (.done item) => some (.found item)
  | _ => none

end Doing

namespace Parallel

/-- A thread goes on, with what it did to the file. -/
def goto (s : Parallel m keySize n) (i : Fin n) (file : TableFile m keySize) (doing : Doing keySize) :
    Parallel m keySize n :=
  { s with file := file, doing := Function.update s.doing i doing }

/-- No call runs. -/
def Quiet (s : Parallel m keySize n) : Prop := ∀ i, (s.doing i).isIdle = true

instance (s : Parallel m keySize n) : Decidable s.Quiet :=
  inferInstanceAs (Decidable (∀ i, (s.doing i).isIdle = true))

section Turn

variable (hash : Key keySize → Nat) (disk : Disk)

/-- The next step of a thread in `store`; `none` where it waits for the lock, or throws. -/
def turnStore (s : Parallel m keySize n) (i : Fin n) (key : Key keySize) (value : List UInt8) :
    Storing → Option (Parallel m keySize n)
  -- `row.create`: the manager allocates under a lock of its own
  | .create => (s.file.newItem disk value.length).map fun r =>
      s.goto i r.1 (.store key value (.write r.2 0))
  | .write item k =>
    match (key.val ++ value)[k]? with
    | some b => some (s.goto i (s.file.writeByte (s.file.byteAddress item k) b)
        (.store key value (.write item (k + 1))))
    | none => some (s.goto i s.file (.store key value (.lock item)))
  | .lock item =>
    if s.mutex = none then
      some { s.goto i s.file (.store key value (.readBucket item)) with mutex := some i }
    else none
  | .readBucket item => some (s.goto i s.file
      (.store key value (.writeNext item (s.file.readBucketValue hash key) 0)))
  -- `row.link`
  | .writeNext item next k =>
    match (Memory.toLE m.width next)[k]? with
    | some b => some (s.goto i (s.file.writeByte (s.file.address item + keySize + k) b)
        (.store key value (.writeNext item next (k + 1))))
    | none => some (s.goto i s.file (.store key value (.linkBucket item)))
  -- the header writes and reads a bucket word under a lock of its own
  | .linkBucket item => some (s.goto i (s.file.link hash key item) (.store key value (.unlock item)))
  | .unlock item => some { s.goto i s.file (.store key value (.done item)) with mutex := none }
  | .done _ => none

/-- The next step of a thread. -/
def turn (s : Parallel m keySize n) (i : Fin n) : Option (Parallel m keySize n) :=
  match s.doing i with
  | .idle => none
  | .store key value stage => s.turnStore hash disk i key value stage
  | .find _ (.done _) => none
  | .find key reading => some (s.goto i s.file (.find key (s.file.read hash key reading)))

/-- One turn. -/
def act (s : Parallel m keySize n) : Turn keySize n → Option (Parallel m keySize n)
  | .store i key value =>
    if (s.doing i).isIdle then some (s.goto i s.file (.store key value .create)) else none
  | .find i key =>
    if (s.doing i).isIdle then some (s.goto i s.file (.find key .begin)) else none
  | .step i => s.turn hash disk i
  | .answer i => ((s.doing i).result m).map fun _ => s.goto i s.file .idle
  | .unlink _ key =>
    if s.Quiet then (s.file.unlink hash s.file.count key).map fun r => { s with file := r.1 }
    else none
  | .reopen =>
    if s.Quiet then
      (start m keySize s.file.sync.close s.file.buckets).map fun f => { s with file := f }
    else none

/-- What is seen of a turn. -/
def label (s : Parallel m keySize n) : Turn keySize n → List (Label (Fin n) (Op keySize) Answer)
  | .store i key value => [.call i (.store key value)]
  | .find i key => [.call i (.find key)]
  | .step _ => []
  | .answer i => (((s.doing i).result m).map fun r => Label.answer i r).toList
  | .unlink i key =>
    [.call i (.unlink key),
      .answer i (.unlinked (((s.file.unlink hash s.file.count key).map Prod.snd).getD false))]
  | .reopen => []

end Turn

/-- The threads before their first call. -/
def initial (f : TableFile m keySize) : Parallel m keySize n := ⟨f, none, fun _ => .idle⟩

end Parallel

/-- **What callers keep to**: values that fit, no unlink in an empty bucket, and room in the counter
    of a record table wherever a thread takes an item. -/
def Turn.Allowed (hash : Key keySize → Nat) (s : Parallel m keySize n) : Turn keySize n → Prop
  | .store _ _ value => m.Fits value ∧ m.itemBytes keySize value.length ≤ maxObject
  | .step i => ∀ key value, s.doing i = .store key value .create → m.Room s.file.count
  | .unlink _ key => s.file.readBucketValue hash key ≠ empty m
  | _ => True

/-! ## 2. What the table is for -/

/-- **A stack of items for each key**: a store pushes an item that no stack holds, a find answers the
    newest item of its key, an unlink pops it. -/
inductive TableDoes (m : Manager) (keySize : Nat) (s : Stacks (Key keySize) (Nat × List UInt8)) :
    Op keySize → Answer → Stacks (Key keySize) (Nat × List UInt8) → Prop where
  | store (key : Key keySize) (value : List UInt8) (item : Nat)
      (hfresh : ∀ k, ∀ p ∈ s k, p.1 ≠ item) :
      TableDoes m keySize s (.store key value) (.offset (offset m keySize item))
        (s.push key (item, value))
  | find (key : Key keySize) :
      TableDoes m keySize s (.find key) (.found ((s key).head?.map Prod.fst)) s
  | unlink (key : Key keySize) :
      TableDoes m keySize s (.unlink key) (.unlinked (!(s key).isEmpty)) (s.pop key)

def tableObject (m : Manager) (keySize : Nat) :
    Object (Stacks (Key keySize) (Nat × List UInt8)) (Op keySize) Answer := ⟨TableDoes m keySize⟩

section Stacks

variable {hash : Key keySize → Nat} {f f' : TableFile m keySize}
  {chain chain' : Nat → List (Entry keySize)} {e : Entry keySize}

/-- The stacks of the linked items. -/
def stacksOf (hash : Key keySize → Nat) (f : TableFile m keySize)
    (chain : Nat → List (Entry keySize)) : Stacks (Key keySize) (Nat × List UInt8) := fun key =>
  ((chain (f.bucketIndex hash key)).filter fun e => e.key = key).map fun e => (e.item, e.value)

/-- The first item of a key. -/
def newest (key : Key keySize) (es : List (Entry keySize)) : Option Nat :=
  (es.find? fun e => e.key = key).map Entry.item

theorem stacksOf_head (key : Key keySize) : ((stacksOf hash f chain key).head?).map Prod.fst =
    newest key (chain (f.bucketIndex hash key)) := by
  unfold stacksOf newest
  rw [List.head?_map, List.head?_filter, Option.map_map]
  rfl

theorem mem_stacksOf {key : Key keySize} {p : Nat × List UInt8} (hp : p ∈ stacksOf hash f chain key) :
    ∃ e ∈ chain (f.bucketIndex hash key), e.key = key ∧ p = (e.item, e.value) := by
  obtain ⟨e, he, rfl⟩ := List.mem_map.mp hp
  obtain ⟨he, hk⟩ := List.mem_filter.mp he
  exact ⟨e, he, of_decide_eq_true hk, rfl⟩

/-- The stacks only look at the chains. -/
theorem stacksOf_congr (hb : f'.buckets = f.buckets) :
    stacksOf hash f' chain = stacksOf hash f chain := by
  unfold stacksOf bucketIndex
  rw [hb]

/-- **A linked item is pushed.** -/
theorem stacksOf_link (e : Entry keySize) : stacksOf hash f (Function.update chain
      (f.bucketIndex hash e.key) (e :: chain (f.bucketIndex hash e.key))) =
    (stacksOf hash f chain).push e.key (e.item, e.value) := by
  funext key
  unfold stacksOf
  by_cases hk : key = e.key
  · subst hk
    rw [Function.update_self, List.filter_cons_of_pos (p := fun e' : Entry keySize => decide (e'.key = e.key))
        (decide_eq_true rfl), List.map_cons,
      Stacks.push_same]
  · rw [Stacks.push_ne _ _ hk]
    by_cases hb : f.bucketIndex hash key = f.bucketIndex hash e.key
    · rw [hb, Function.update_self, List.filter_cons_of_neg (by simpa using Ne.symm hk), ← hb]
    · rw [Function.update_of_ne hb]

/-- Dropping the first item of a key. -/
theorem filter_eraseP (key key' : Key keySize) (es : List (Entry keySize)) :
    (es.eraseP fun e => e.key = key).filter (fun e => e.key = key') =
      if key' = key then (es.filter fun e => e.key = key').tail
      else es.filter fun e => e.key = key' := by
  induction es with
  | nil => split <;> rfl
  | cons e es ih =>
      by_cases hk : e.key = key
      · rw [List.eraseP_cons_of_pos (p := fun e : Entry keySize => decide (e.key = key))
          (decide_eq_true hk)]
        by_cases hk' : key' = key
        · rw [if_pos hk', List.filter_cons_of_pos (p := fun e : Entry keySize =>
            decide (e.key = key')) (decide_eq_true (hk.trans hk'.symm)), List.tail_cons]
        · rw [if_neg hk', List.filter_cons_of_neg]
          simpa using fun he : e.key = key' => hk' (he.symm.trans hk)
      · rw [List.eraseP_cons_of_neg (by simpa using hk), List.filter_cons, ih, List.filter_cons]
        by_cases hk' : key' = key
        · rw [if_pos hk', if_pos hk', if_neg (by simpa [hk'] using hk),
            if_neg (by simpa [hk'] using hk)]
        · rw [if_neg hk', if_neg hk']

/-- **An item taken out is popped.** -/
theorem stacksOf_unlink (key : Key keySize) : stacksOf hash f (Function.update chain
      (f.bucketIndex hash key) ((chain (f.bucketIndex hash key)).eraseP (·.key = key))) =
    (stacksOf hash f chain).pop key := by
  funext key'
  unfold stacksOf
  by_cases hk : key' = key
  · subst hk
    rw [Function.update_self, filter_eraseP, if_pos rfl, Stacks.pop_same, List.map_tail]
  · rw [Stacks.pop_ne _ hk]
    by_cases hb : f.bucketIndex hash key' = f.bucketIndex hash key
    · rw [hb, Function.update_self, filter_eraseP, if_neg hk]
    · rw [Function.update_of_ne hb]

end Stacks

/-! ## 3. The invariant -/

section Invariant

variable {hash : Key keySize → Nat} {disk : Disk} {f f' : TableFile m keySize}
  {taken taken' : List (Entry keySize)} {chain chain' : Nat → List (Entry keySize)}

/-- **What a thread has done, and where its call is**: what it writes is its own; behind its first
    read it stands on the end of a chain that was whole then, so its answer is settled. -/
def DoingInv (hash : Key keySize → Nat) (f : TableFile m keySize)
    (chain : Nat → List (Entry keySize)) (phase : Phase (Op keySize) Answer) :
    Doing keySize → Prop
  | .idle => phase = .idle
  | .store key value .create => phase = .called (.store key value) ∧ m.Fits value ∧
      m.itemBytes keySize value.length ≤ maxObject
  | .store key value (.write item k) => phase = .called (.store key value) ∧
      k ≤ (key.val ++ value).length ∧ f.Written ⟨item, key, value⟩ k
  | .store key value (.lock item) => phase = .called (.store key value) ∧ f.Kept ⟨item, key, value⟩
  | .store key value (.readBucket item) => phase = .called (.store key value) ∧
      f.Kept ⟨item, key, value⟩
  | .store key value (.writeNext item next k) => phase = .called (.store key value) ∧
      f.Kept ⟨item, key, value⟩ ∧ next = f.readBucketValue hash key ∧ k ≤ m.width ∧
      f.LinkWritten item next k
  | .store key value (.linkBucket item) => phase = .called (.store key value) ∧
      f.Kept ⟨item, key, value⟩ ∧ f.nextPosition item = f.readBucketValue hash key
  | .store key value (.unlock item) =>
      phase = .applied (.store key value) (.offset (offset m keySize item))
  | .store key value (.done item) =>
      phase = .applied (.store key value) (.offset (offset m keySize item))
  | .find key .begin => phase = .called (.find key)
  | .find key (.compare current) => ∃ e es, e :: es <:+ chain (f.bucketIndex hash key) ∧
      current = e.item ∧ phase = .applied (.find key) (.found (newest key (e :: es)))
  | .find key (.next current) => ∃ e es, e :: es <:+ chain (f.bucketIndex hash key) ∧
      current = e.item ∧ phase = .applied (.find key) (.found (newest key es))
  | .find key (.done result) => phase = .applied (.find key) (.found result)

/-- **The invariant**: a thread is in the critical section exactly where it holds the lock. -/
structure ParallelInv (hash : Key keySize → Nat) (disk : Disk) (s : Parallel m keySize n)
    (taken : List (Entry keySize)) (chain : Nat → List (Entry keySize))
    (a : Atomic (Stacks (Key keySize) (Nat × List UInt8)) (Fin n) (Op keySize) Answer) : Prop where
  file : Chained hash disk s.file taken chain
  state : a.state = stacksOf hash s.file chain
  doing : ∀ i, DoingInv hash s.file chain (a.phase i) (s.doing i)
  own : ∀ i e, (s.doing i).entry = some e → e ∈ taken ∧ ∀ b < s.file.buckets, e ∉ chain b
  apart : ∀ i j e, (s.doing i).entry = some e → (s.doing j).entry = some e → i = j
  mutex : ∀ i, (s.doing i).critical = true ↔ s.mutex = some i

/-- **What the other threads do to the file leaves a thread alone.** -/
theorem DoingInv.frame {phase : Phase (Op keySize) Answer} {d : Doing keySize}
    (h : DoingInv hash f chain phase d) (hb : f'.buckets = f.buckets)
    (hs : ∀ e, d.entry = some e → SameItem f f' e)
    (hw : d.critical = true → ∀ key, f'.readBucketValue hash key = f.readBucketValue hash key)
    (hc : ∀ b, chain b <:+ chain' b) : DoingInv hash f' chain' phase d := by
  have hbucket (key : Key keySize) : f'.bucketIndex hash key = f.bucketIndex hash key := by
    unfold bucketIndex
    rw [hb]
  cases d with
  | idle => exact h
  | store key value stage =>
      cases stage with
      | create => exact h
      | write item k => exact ⟨h.1, h.2.1, h.2.2.congr h.2.1 (hs _ rfl)⟩
      | lock item => exact ⟨h.1, Kept.congr h.2 (hs _ rfl)⟩
      | readBucket item => exact ⟨h.1, Kept.congr h.2 (hs _ rfl)⟩
      | writeNext item next k =>
          obtain ⟨hp, hkept, hnext, hk, hlink⟩ := h
          have hlink : f.LinkWritten (⟨item, key, value⟩ : Entry keySize).item next k := hlink
          exact ⟨hp, hkept.congr (hs _ rfl), hnext.trans (hw rfl key).symm, hk,
            hlink.congr hk (hs _ rfl)⟩
      | linkBucket item =>
          obtain ⟨hp, hkept, hnext⟩ := h
          exact ⟨hp, hkept.congr (hs _ rfl),
            (nextPosition_congr (hs _ rfl)).trans (hnext.trans (hw rfl key).symm)⟩
      | unlock item => exact h
      | done item => exact h
  | find key reading =>
      cases reading with
      | begin => exact h
      | compare current =>
          obtain ⟨e, es, hsuf, hcur, hp⟩ := h
          exact ⟨e, es, hbucket key ▸ hsuf.trans (hc _), hcur, hp⟩
      | next current =>
          obtain ⟨e, es, hsuf, hcur, hp⟩ := h
          exact ⟨e, es, hbucket key ▸ hsuf.trans (hc _), hcur, hp⟩
      | done result => exact h

section Step

variable {s : Parallel m keySize n}
  {a : Atomic (Stacks (Key keySize) (Nat × List UInt8)) (Fin n) (Op keySize) Answer} {i : Fin n}
  {d : Doing keySize} {phase : Phase (Op keySize) Answer}

/-- **A thread goes on**: what it has to keep, for itself and for the others. -/
theorem ParallelInv.goto (h : ParallelInv hash disk s taken chain a) (mutex : Option (Fin n))
    (state : Stacks (Key keySize) (Nat × List UInt8)) (hfile : Chained hash disk f' taken' chain')
    (hstate : state = stacksOf hash f' chain') (hi : DoingInv hash f' chain' phase d)
    (hb : f'.buckets = s.file.buckets) (htaken : ∀ e ∈ taken, e ∈ taken')
    (hchain : ∀ b, chain b <:+ chain' b)
    (hsame : ∀ j ≠ i, ∀ e, (s.doing j).entry = some e →
      SameItem s.file f' e ∧ ∀ b < f'.buckets, e ∉ chain' b)
    (hword : ∀ j ≠ i, (s.doing j).critical = true → ∀ key,
      f'.readBucketValue hash key = s.file.readBucketValue hash key)
    (hown : ∀ e, d.entry = some e → (e ∈ taken' ∧ ∀ b < f'.buckets, e ∉ chain' b) ∧
      ∀ j ≠ i, (s.doing j).entry ≠ some e)
    (hmutex : (d.critical = true ↔ mutex = some i) ∧
      ∀ j ≠ i, ((s.doing j).critical = true ↔ mutex = some j)) :
    ParallelInv hash disk ⟨f', mutex, Function.update s.doing i d⟩ taken' chain'
      (a.goto i state phase) := by
  have hother {j : Fin n} (hj : j ≠ i) : Function.update s.doing i d j = s.doing j :=
    Function.update_of_ne hj ..
  have hself : Function.update s.doing i d i = d := Function.update_self ..
  refine ⟨hfile, hstate, fun j => ?_, fun j e he => ?_, fun j k e hj hk => ?_, fun j => ?_⟩
  · by_cases hj : j = i
    · subst hj
      show DoingInv hash f' chain' ((a.goto j state phase).phase j) (Function.update s.doing j d j)
      rw [hself, Atomic.goto_same]
      exact hi
    · show DoingInv hash f' chain' ((a.goto i state phase).phase j) (Function.update s.doing i d j)
      rw [hother hj, a.goto_other state phase hj]
      exact (h.doing j).frame hb (fun e he => (hsame j hj e he).1) (hword j hj) hchain
  · have he : (Function.update s.doing i d j).entry = some e := he
    by_cases hj : j = i
    · subst hj
      rw [hself] at he
      exact (hown e he).1
    · rw [hother hj] at he
      exact ⟨htaken e (h.own j e he).1, (hsame j hj e he).2⟩
  · have hj : (Function.update s.doing i d j).entry = some e := hj
    have hk : (Function.update s.doing i d k).entry = some e := hk
    by_cases hji : j = i
    · by_cases hki : k = i
      · exact hji.trans hki.symm
      · rw [hji, hself] at hj
        rw [hother hki] at hk
        exact absurd hk ((hown e hj).2 k hki)
    · by_cases hki : k = i
      · rw [hki, hself] at hk
        rw [hother hji] at hj
        exact absurd hj ((hown e hk).2 j hji)
      · rw [hother hji] at hj
        rw [hother hki] at hk
        exact h.apart j k e hj hk
  · show (Function.update s.doing i d j).critical = true ↔ mutex = some j
    by_cases hj : j = i
    · subst hj
      rw [hself]
      exact hmutex.1
    · rw [hother hj]
      exact hmutex.2 j hj

/-- A thread goes on and leaves the file alone. -/
theorem ParallelInv.stay (h : ParallelInv hash disk s taken chain a)
    (hi : DoingInv hash s.file chain phase d)
    (hentry : ∀ e, d.entry = some e → (s.doing i).entry = some e)
    (hcrit : d.critical = (s.doing i).critical) :
    ParallelInv hash disk (s.goto i s.file d) taken chain (a.goto i a.state phase) := by
  refine h.goto s.mutex a.state h.file h.state hi rfl (fun _ he => he) (fun _ => List.suffix_refl _)
    (fun j _ e he => ⟨⟨rfl, fun _ _ _ => rfl⟩, (h.own j e he).2⟩) (fun _ _ _ _ => rfl)
    (fun e he => ⟨h.own i e (hentry e he), fun j hj hje => hj (h.apart j i e hje (hentry e he))⟩)
    ⟨?_, fun j _ => h.mutex j⟩
  rw [hcrit]
  exact h.mutex i

/-- A thread writes a byte of the item it has taken. -/
theorem ParallelInv.writeByte (h : ParallelInv hash disk s taken chain a) {e : Entry keySize}
    (he : (s.doing i).entry = some e) (hde : d.entry = some e)
    (hcrit : d.critical = (s.doing i).critical) {j : Nat} (hge : s.file.address e.item ≤ j)
    (hlt : j < s.file.address e.item + e.size m) (v : UInt8)
    (hi : DoingInv hash (s.file.writeByte j v) chain (a.phase i) d) :
    ParallelInv hash disk (s.goto i (s.file.writeByte j v) d) taken chain a := by
  obtain ⟨ht, hfree⟩ := h.own i e he
  have hhead := h.file.address_ge ht
  have hgoto := h.goto s.mutex a.state
    (h.file.writeByte ht hfree hge hlt v) h.state hi rfl (fun _ he => he)
    (fun _ => List.suffix_refl _)
    (fun k hk e' he' => ⟨h.file.sameItem_writeByte ht hge hlt v (h.own k e' he').1
      fun heq => hk (h.apart k i e (heq ▸ he') he), (h.own k e' he').2⟩)
    (fun k hk _ key => readBucket_congr h.file.headed (fun x hx => writeByte_ne _ v (by omega))
      (h.file.bucketIndex_lt key))
    (fun e' he' => by
      cases hde.symm.trans he'
      exact ⟨⟨ht, hfree⟩, fun k hk hke => hk (h.apart k i e hke he)⟩)
    ⟨by rw [hcrit]; exact h.mutex i, fun k _ => h.mutex k⟩
  rw [a.goto_self] at hgoto
  exact hgoto

/-! ## 4. The steps -/

/-- **A step is matched by the stacks**, and as long as a call runs the chains only get longer. -/
def Matched (hash : Key keySize → Nat) (disk : Disk) (chain : Nat → List (Entry keySize))
    (a : Atomic (Stacks (Key keySize) (Nat × List UInt8)) (Fin n) (Op keySize) Answer)
    (l : List (Label (Fin n) (Op keySize) Answer)) (s : Parallel m keySize n) : Prop :=
  ∃ b, (tableObject m keySize).Linearizable a l b ∧ ∃ taken chain',
    ParallelInv hash disk s taken chain' b ∧ (s.Quiet ∨ ∀ i, chain i <:+ chain' i)

theorem ParallelInv.matched (h : ParallelInv hash disk s taken chain a) :
    Matched hash disk chain a [] s :=
  ⟨a, .refl a, taken, chain, h, .inr fun _ => List.suffix_refl _⟩

/-- A step that is not seen, in which a thread leaves the file alone. -/
theorem ParallelInv.matched_stay (h : ParallelInv hash disk s taken chain a)
    (hi : DoingInv hash s.file chain (a.phase i) d)
    (hentry : ∀ e, d.entry = some e → (s.doing i).entry = some e)
    (hcrit : d.critical = (s.doing i).critical) : Matched hash disk chain a [] (s.goto i s.file d) := by
  have hstay := h.stay hi hentry hcrit
  rw [a.goto_self] at hstay
  exact hstay.matched

section Store

variable {key : Key keySize} {value : List UInt8} {item : Nat}

/-- **An item is taken.** -/
theorem ParallelInv.create (h : ParallelInv hash disk s taken chain a) (hd : disk.size ≤ maxObject)
    (hdo : s.doing i = .store key value .create) (hroom : m.Room s.file.count)
    (hn : s.file.newItem disk value.length = some (f', item)) :
    Matched hash disk chain a [] (s.goto i f' (.store key value (.write item 0))) := by
  have hi := h.doing i
  rw [hdo] at hi
  obtain ⟨hp, hf, hv⟩ := hi
  obtain ⟨hfile, rfl, hhead, hbuckets, hbytes⟩ := h.file.newItem hd key hf hv hroom hn
  have hnew {e : Entry keySize} (ht : e ∈ taken) : e ≠ ⟨s.file.count, key, value⟩ := fun he => by
    have hlt := h.file.item_lt ht
    rw [he] at hlt
    have hlt : s.file.count + m.extent keySize value.length ≤ s.file.count := hlt
    have hpos := m.extent_pos keySize value.length
    omega
  have hword (key : Key keySize) : f'.readBucketValue hash key = s.file.readBucketValue hash key := by
    unfold readBucketValue bucketIndex readBucket
    rw [hbuckets, hbytes]
  refine ParallelInv.matched (a.goto_self i ▸ h.goto s.mutex a.state hfile ?_ ?_ hbuckets
    (fun _ he => List.mem_cons_of_mem _ he) (fun _ => List.suffix_refl _)
    (fun j _ e he => ⟨⟨by unfold address; rw [hhead], fun _ _ _ => by rw [hbytes]⟩, ?_⟩)
    (fun _ _ _ key => hword key) (fun e he => ?_) ⟨?_, fun j _ => h.mutex j⟩)
  · rw [stacksOf_congr hbuckets]
    exact h.state
  · exact ⟨hp, Nat.zero_le _, fun k hk => absurd hk (Nat.not_lt_zero _)⟩
  · rw [hbuckets]
    exact (h.own j e he).2
  · cases he
    refine ⟨⟨List.mem_cons_self, fun b hb he => ?_⟩, fun j _ he => ?_⟩
    · rw [hbuckets] at hb
      exact hnew (h.file.mem b hb _ he).1 rfl
    · exact hnew (h.own j _ he).1 rfl
  · rw [← h.mutex i, hdo]
    exact Iff.rfl

/-- **A byte of the key or the value is written.** -/
theorem ParallelInv.write (h : ParallelInv hash disk s taken chain a) {k : Nat} {v : UInt8}
    (hdo : s.doing i = .store key value (.write item k)) (hv : (key.val ++ value)[k]? = some v) :
    Matched hash disk chain a [] (s.goto i (s.file.writeByte (s.file.byteAddress item k) v)
      (.store key value (.write item (k + 1)))) := by
  have hi := h.doing i
  rw [hdo] at hi
  obtain ⟨hp, _, hw⟩ := hi
  obtain ⟨hk, _⟩ := List.getElem?_eq_some_iff.mp hv
  obtain ⟨hge, hlt, _⟩ := s.file.byteAddress_mem (e := ⟨item, key, value⟩) hk
  refine ParallelInv.matched (h.writeByte (e := ⟨item, key, value⟩) (by rw [hdo]; rfl) rfl
    (by rw [hdo]; rfl) hge hlt v ⟨hp, hk, hw.step hv⟩)

/-- **A byte of the link is written.** -/
theorem ParallelInv.writeNext (h : ParallelInv hash disk s taken chain a) {next k : Nat} {v : UInt8}
    (hdo : s.doing i = .store key value (.writeNext item next k))
    (hv : (Memory.toLE m.width next)[k]? = some v) :
    Matched hash disk chain a [] (s.goto i (s.file.writeByte (s.file.address item + keySize + k) v)
      (.store key value (.writeNext item next (k + 1)))) := by
  have hi := h.doing i
  rw [hdo] at hi
  obtain ⟨hp, hkept, hnext, _, hw⟩ := hi
  obtain ⟨hk, _⟩ := List.getElem?_eq_some_iff.mp hv
  rw [Memory.length_toLE] at hk
  have hown := h.own i ⟨item, key, value⟩ (by rw [hdo]; rfl)
  have hhead := h.file.address_ge hown.1
  have hsize : Entry.size m ⟨item, key, value⟩ = keySize + m.width + value.length := rfl
  have hstep := LinkWritten.step (e := ⟨item, key, value⟩) hw hv
  refine ParallelInv.matched (h.writeByte (e := ⟨item, key, value⟩) (by rw [hdo]; rfl) rfl
    (by rw [hdo]; rfl) ?_ ?_ v ⟨hp, hkept.writeLink hk v, ?_, hk, hstep⟩)
  · show s.file.address item ≤ _
    omega
  · show _ < s.file.address item + _
    omega
  · rw [hnext]
    refine (readBucket_congr h.file.headed (fun j hj => writeByte_ne _ v ?_)
      (h.file.bucketIndex_lt key)).symm
    have hhead : s.file.headerSize + m.width ≤ s.file.address item := hhead
    omega

/-- **The lock is taken.** -/
theorem ParallelInv.lock (h : ParallelInv hash disk s taken chain a)
    (hdo : s.doing i = .store key value (.lock item)) (hfree : s.mutex = none) :
    Matched hash disk chain a []
      { s.goto i s.file (.store key value (.readBucket item)) with mutex := some i } := by
  have hi := h.doing i
  rw [hdo] at hi
  refine ParallelInv.matched (a.goto_self i ▸ h.goto (some i) a.state
    (d := .store key value (.readBucket item)) h.file h.state hi rfl (fun _ he => he)
    (fun _ => List.suffix_refl _) (fun j _ e he => ⟨⟨rfl, fun _ _ _ => rfl⟩, (h.own j e he).2⟩)
    (fun _ _ _ _ => rfl) (fun e he => ?_) ⟨iff_of_true rfl rfl, fun j hj => ?_⟩)
  · have hie : (s.doing i).entry = some e := by
      rw [hdo]
      exact he
    exact ⟨h.own i e hie, fun j hj hje => hj (h.apart j i e hje hie)⟩
  · rw [h.mutex j, hfree]
    exact iff_of_false (fun hc => nomatch hc) fun hc => hj (Option.some.inj hc).symm

/-- **The lock is released.** -/
theorem ParallelInv.unlock (h : ParallelInv hash disk s taken chain a)
    (hdo : s.doing i = .store key value (.unlock item)) :
    Matched hash disk chain a [] { s.goto i s.file (.store key value (.done item)) with mutex := none } := by
  have hi := h.doing i
  rw [hdo] at hi
  have hmine : s.mutex = some i := (h.mutex i).mp (by rw [hdo]; rfl)
  refine ParallelInv.matched (a.goto_self i ▸ h.goto none a.state
    (d := .store key value (.done item)) h.file h.state hi rfl (fun _ he => he)
    (fun _ => List.suffix_refl _) (fun j _ e he => ⟨⟨rfl, fun _ _ _ => rfl⟩, (h.own j e he).2⟩)
    (fun _ _ _ _ => rfl) (fun e he => nomatch he)
    ⟨iff_of_false (fun hc => nomatch hc) (fun hc => nomatch hc), fun j hj => ?_⟩)
  rw [h.mutex j, hmine]
  exact iff_of_false (fun hc => hj (Option.some.inj hc).symm) fun hc => nomatch hc

/-- **The bucket word is written: here the store takes effect.** -/
theorem ParallelInv.linkBucket (h : ParallelInv hash disk s taken chain a)
    (hdo : s.doing i = .store key value (.linkBucket item)) :
    Matched hash disk chain a [] (s.goto i (s.file.link hash key item) (.store key value (.unlock item))) := by
  have hi := h.doing i
  rw [hdo] at hi
  obtain ⟨hp, hkept, hnext⟩ := hi
  have hentry : (s.doing i).entry = some ⟨item, key, value⟩ := by rw [hdo]; rfl
  have hmine : s.mutex = some i := (h.mutex i).mp (by rw [hdo]; rfl)
  obtain ⟨ht, hfree⟩ := h.own i _ hentry
  have hlinked := h.file.link ht hfree hkept hnext
  have hfresh : ∀ k, ∀ p ∈ a.state k, p.1 ≠ item := fun k p hpk hpi => by
    rw [h.state] at hpk
    obtain ⟨e, he, _, rfl⟩ := mem_stacksOf hpk
    have hbk := h.file.bucketIndex_lt k
    exact hfree _ hbk (h.file.item_inj (h.file.mem _ hbk e he).1 ht hpi ▸ he)
  have hpush : a.state.push key (item, value) = stacksOf hash (s.file.link hash key item)
      (Function.update chain (s.file.bucketIndex hash key)
        (⟨item, key, value⟩ :: chain (s.file.bucketIndex hash key))) := by
    rw [h.state]
    exact (stacksOf_link (f := s.file) ⟨item, key, value⟩).symm
  have hsuf (b : Nat) : chain b <:+ Function.update chain (s.file.bucketIndex hash key)
      (⟨item, key, value⟩ :: chain (s.file.bucketIndex hash key)) b := by
    by_cases hb : b = s.file.bucketIndex hash key
    · subst hb
      rw [Function.update_self]
      exact List.suffix_cons ..
    · exact ⟨[], (Function.update_of_ne hb ..).symm⟩
  refine ⟨_, .point hp (.store key value item hfresh), taken, _, h.goto s.mutex _
    (d := .store key value (.unlock item)) hlinked hpush rfl rfl (fun _ he => he) hsuf
    (fun j hj e he => ⟨h.file.sameItem_link (h.own j e he).1 key item, fun b hb hm => ?_⟩)
    (fun j hj hc => ?_) (fun e he => nomatch he) ⟨iff_of_true rfl hmine, fun j _ => h.mutex j⟩,
    .inr hsuf⟩
  · by_cases hbk : b = s.file.bucketIndex hash key
    · rw [hbk, Function.update_self] at hm
      rcases List.mem_cons.mp hm with rfl | hm
      · exact hj (h.apart j i _ he hentry)
      · exact (h.own j e he).2 _ (h.file.bucketIndex_lt key) hm
    · rw [Function.update_of_ne hbk] at hm
      exact (h.own j e he).2 b hb hm
  · have hc := (h.mutex j).mp hc
    exact absurd (Option.some.inj (hc.symm.trans hmine)) hj

/-- **One step in `store`.** -/
theorem ParallelInv.turnStore (h : ParallelInv hash disk s taken chain a) (hd : disk.size ≤ maxObject)
    {stage : Storing} (hdo : s.doing i = .store key value stage)
    (hroom : stage = .create → m.Room s.file.count) {s' : Parallel m keySize n}
    (hs : s.turnStore hash disk i key value stage = some s') : Matched hash disk chain a [] s' := by
  have hi := h.doing i
  rw [hdo] at hi
  unfold Parallel.turnStore at hs
  cases stage with
  | create =>
      obtain ⟨⟨f', item⟩, hn, rfl⟩ := Option.map_eq_some_iff.mp hs
      exact h.create hd hdo (hroom rfl) hn
  | write item k =>
      dsimp only at hs
      cases hv : (key.val ++ value)[k]? with
      | some v =>
          rw [hv] at hs
          cases hs
          exact h.write hdo hv
      | none =>
          rw [hv] at hs
          cases hs
          obtain ⟨hp, hk, hw⟩ := hi
          refine h.matched_stay ⟨hp, ?_⟩ (fun e he => by rw [hdo]; exact he) (by rw [hdo]; rfl)
          have hlen := List.getElem?_eq_none_iff.mp hv
          rw [Nat.le_antisymm hk hlen] at hw
          exact hw
  | lock item =>
      obtain ⟨hfree, hs⟩ := Option.ite_none_right_eq_some.mp hs
      cases hs
      exact h.lock hdo hfree
  | readBucket item =>
      cases hs
      refine h.matched_stay ⟨hi.1, hi.2, rfl, Nat.zero_le _, fun k hk => absurd hk (Nat.not_lt_zero k)⟩
        (fun e he => by rw [hdo]; exact he) (by rw [hdo]; rfl)
  | writeNext item next k =>
      dsimp only at hs
      cases hv : (Memory.toLE m.width next)[k]? with
      | some v =>
          rw [hv] at hs
          cases hs
          exact h.writeNext hdo hv
      | none =>
          rw [hv] at hs
          cases hs
          obtain ⟨hp, hkept, hnext, hk, hw⟩ := hi
          have hlen := List.getElem?_eq_none_iff.mp hv
          rw [Memory.length_toLE] at hlen
          rw [Nat.le_antisymm hk hlen] at hw
          refine h.matched_stay ⟨hp, hkept, ?_⟩ (fun e he => by rw [hdo]; exact he) (by rw [hdo]; rfl)
          rw [← hnext]
          refine hw.nextPosition ?_
          rw [hnext]
          obtain ⟨hnil, hcons⟩ := h.file.first key
          by_cases hne : s.file.readBucketValue hash key = empty m
          · exact hne ▸ empty_lt m
          · obtain ⟨e, es, hc, hword⟩ := hcons hne
            have hmem := (h.file.mem _ (h.file.bucketIndex_lt key) e (by rw [hc]; simp)).1
            rw [hword]
            exact Nat.lt_trans (h.file.item_ne hmem) (empty_lt m)
  | linkBucket item =>
      cases hs
      exact h.linkBucket hdo
  | unlock item =>
      cases hs
      exact h.unlock hdo
  | done item => cases hs

end Store

section Find

variable {key : Key keySize}

/-- A search over an item of another key goes on. -/
theorem newest_cons (key : Key keySize) (e : Entry keySize) (es : List (Entry keySize)) :
    newest key (e :: es) = if e.key = key then some e.item else newest key es := by
  unfold newest
  rw [List.find?_cons]
  by_cases hk : e.key = key <;> simp [hk]

/-- **The first read: here the find takes effect**, for its answer is settled. -/
theorem ParallelInv.findBegin (h : ParallelInv hash disk s taken chain a)
    (hdo : s.doing i = .find key .begin) : Matched hash disk chain a []
      (s.goto i s.file (.find key (s.file.read hash key .begin))) := by
  have hi := h.doing i
  rw [hdo] at hi
  have hp : a.phase i = .called (.find key) := hi
  have hdoes : TableDoes m keySize a.state (.find key)
      (.found (newest key (chain (s.file.bucketIndex hash key)))) a.state := by
    have hfind := TableDoes.find (m := m) (s := a.state) key
    rwa [h.state, stacksOf_head, ← h.state] at hfind
  refine ⟨_, .point hp hdoes, taken, chain, h.stay ?_ ?_ ?_, .inr fun _ => List.suffix_refl _⟩
  · obtain ⟨hnil, hcons⟩ := h.file.first key
    unfold TableFile.read
    dsimp only
    by_cases hne : s.file.readBucketValue hash key = empty m
    · rw [if_pos hne, hnil hne]
      rfl
    · obtain ⟨e, es, hc, hword⟩ := hcons hne
      rw [if_neg hne, hword]
      exact ⟨e, es, hc ▸ List.suffix_refl _, rfl, by rw [hc]⟩
  · intro e he
    cases he
  · rw [hdo]
    rfl

theorem ParallelInv.findCompare (h : ParallelInv hash disk s taken chain a) {current : Nat}
    (hdo : s.doing i = .find key (.compare current)) : Matched hash disk chain a []
      (s.goto i s.file (.find key (s.file.read hash key (.compare current)))) := by
  have hi := h.doing i
  rw [hdo] at hi
  obtain ⟨e, es, hsuf, rfl, hp⟩ := hi
  have hkept := (h.file.mem _ (h.file.bucketIndex_lt key) e (hsuf.subset List.mem_cons_self)).2.2
  refine h.matched_stay ?_ (fun e he => nomatch he) (by rw [hdo]; rfl)
  rw [newest_cons] at hp
  unfold TableFile.read
  dsimp only
  rw [hkept.compare key]
  by_cases hk : e.key = key
  · rw [decide_eq_true hk, if_pos rfl]
    rw [if_pos hk] at hp
    exact hp
  · rw [decide_eq_false hk, if_neg Bool.false_ne_true]
    rw [if_neg hk] at hp
    exact ⟨e, es, hsuf, rfl, hp⟩

theorem ParallelInv.findNext (h : ParallelInv hash disk s taken chain a) {current : Nat}
    (hdo : s.doing i = .find key (.next current)) : Matched hash disk chain a []
      (s.goto i s.file (.find key (s.file.read hash key (.next current)))) := by
  have hi := h.doing i
  rw [hdo] at hi
  obtain ⟨e, es, hsuf, rfl, hp⟩ := hi
  obtain ⟨hself, hnil, hcons⟩ := h.file.second (h.file.bucketIndex_lt key) hsuf
  refine h.matched_stay ?_ (fun e he => nomatch he) (by rw [hdo]; rfl)
  unfold TableFile.read
  dsimp only
  rw [if_neg hself]
  by_cases hne : s.file.nextPosition e.item = empty m
  · rw [if_pos hne]
    rw [hnil hne] at hp
    exact hp
  · obtain ⟨e', es', rfl, hword⟩ := hcons hne
    rw [if_neg hne, hword]
    exact ⟨e', es', (List.suffix_cons ..).trans hsuf, rfl, hp⟩

end Find

/-- **One step of a thread.** -/
theorem ParallelInv.turn (h : ParallelInv hash disk s taken chain a) (hd : disk.size ≤ maxObject)
    (hroom : ∀ key value, s.doing i = .store key value .create → m.Room s.file.count)
    {s' : Parallel m keySize n} (hs : s.turn hash disk i = some s') : Matched hash disk chain a [] s' := by
  unfold Parallel.turn at hs
  cases hdo : s.doing i with
  | idle =>
      rw [hdo] at hs
      cases hs
  | store key value stage =>
      rw [hdo] at hs
      exact h.turnStore hd hdo (fun he => hroom key value (he ▸ hdo)) hs
  | find key reading =>
      rw [hdo] at hs
      cases reading with
      | begin =>
          cases hs
          exact h.findBegin hdo
      | compare current =>
          cases hs
          exact h.findCompare hdo
      | next current =>
          cases hs
          exact h.findNext hdo
      | done result => cases hs

/-- A thread that is idle calls. -/
theorem ParallelInv.call (h : ParallelInv hash disk s taken chain a) {op : Op keySize}
    (hidle : (s.doing i).isIdle = true) (hi : DoingInv hash s.file chain (.called op) d)
    (hentry : d.entry = none) (hcrit : d.critical = false) :
    Matched hash disk chain a [.call i op] (s.goto i s.file d) := by
  have hdo := Doing.eq_idle hidle
  have hp := h.doing i
  rw [hdo] at hp
  refine ⟨_, .call hp, taken, chain, h.stay hi (fun e he => ?_) ?_,
    .inr fun _ => List.suffix_refl _⟩
  · rw [hentry] at he
    cases he
  · rw [hcrit, hdo]
    rfl

/-- A thread returns. -/
theorem ParallelInv.answer (h : ParallelInv hash disk s taken chain a) {r : Answer}
    (hr : (s.doing i).result m = some r) :
    Matched hash disk chain a [.answer i r] (s.goto i s.file .idle) := by
  have hi := h.doing i
  have hphase : (∃ op, a.phase i = .applied op r) ∧ (s.doing i).critical = false := by
    cases hdo : s.doing i with
    | idle =>
        rw [hdo] at hr
        cases hr
    | store key value stage =>
        rw [hdo] at hr hi
        cases stage <;> cases hr
        exact ⟨⟨_, hi⟩, rfl⟩
    | find key reading =>
        rw [hdo] at hr hi
        cases reading <;> cases hr
        exact ⟨⟨_, hi⟩, rfl⟩
  obtain ⟨⟨op, hp⟩, hcrit⟩ := hphase
  exact ⟨_, .answer hp, taken, chain, h.stay rfl (fun e he => nomatch he) hcrit.symm,
    .inr fun _ => List.suffix_refl _⟩

/-- A file that the threads are not in the middle of is exchanged. -/
theorem ParallelInv.quiet (h : ParallelInv hash disk s taken chain a) (hq : s.Quiet)
    (hfile : Chained hash disk f' taken chain')
    {b : Atomic (Stacks (Key keySize) (Nat × List UInt8)) (Fin n) (Op keySize) Answer}
    (hstate : b.state = stacksOf hash f' chain') (hphase : b.phase = a.phase) :
    ParallelInv hash disk { s with file := f' } taken chain' b := by
  have hidle (i : Fin n) : s.doing i = .idle := Doing.eq_idle (hq i)
  refine ⟨hfile, hstate, fun i => ?_, fun i e he => ?_, h.apart, h.mutex⟩
  · have hi := h.doing i
    show DoingInv hash f' chain' (b.phase i) (s.doing i)
    rw [hidle i] at hi ⊢
    rw [hphase]
    exact hi
  · have he : (s.doing i).entry = some e := he
    rw [hidle i] at he
    cases he

/-- **An unlink while no other call runs.** -/
theorem ParallelInv.unlink (h : ParallelInv hash disk s taken chain a) (hq : s.Quiet)
    {key : Key keySize} (hne : s.file.readBucketValue hash key ≠ empty m) {s' : Parallel m keySize n}
    (hs : s.act hash disk (.unlink i key) = some s') :
    Matched hash disk chain a (s.label hash (.unlink i key)) s' := by
  obtain ⟨f', hu, hfile, hbuckets, _⟩ := h.file.unlink hne
  unfold Parallel.act at hs
  dsimp only at hs
  rw [if_pos hq, hu] at hs
  cases hs
  have hp := h.doing i
  rw [Doing.eq_idle (hq i)] at hp
  have hany : (!(a.state key).isEmpty) =
      (chain (s.file.bucketIndex hash key)).any fun e => decide (e.key = key) := by
    rw [h.state, stacksOf, List.isEmpty_map, Bool.eq_iff_iff]
    simp [List.filter_eq_nil_iff]
  have hdoes := TableDoes.unlink (m := m) (s := a.state) key
  rw [hany] at hdoes
  have hstate : a.state.pop key = stacksOf hash f' (Function.update chain
      (s.file.bucketIndex hash key)
      ((chain (s.file.bucketIndex hash key)).eraseP (·.key = key))) := by
    rw [stacksOf_congr hbuckets, stacksOf_unlink, h.state]
  unfold Parallel.label
  dsimp only
  rw [hu]
  exact ⟨_, .once hp hdoes, taken, _, h.quiet hq hfile hstate rfl, .inl hq⟩

/-- **One turn.** -/
theorem ParallelInv.act (h : ParallelInv hash disk s taken chain a) (hd : disk.size ≤ maxObject)
    {t : Turn keySize n} (ha : t.Allowed hash s) {s' : Parallel m keySize n}
    (hs : s.act hash disk t = some s') : Matched hash disk chain a (s.label hash t) s' := by
  cases t with
  | store i key value =>
      obtain ⟨hidle, hs⟩ := Option.ite_none_right_eq_some.mp hs
      cases hs
      exact h.call hidle ⟨rfl, ha⟩ rfl rfl
  | find i key =>
      obtain ⟨hidle, hs⟩ := Option.ite_none_right_eq_some.mp hs
      cases hs
      exact h.call hidle rfl rfl rfl
  | step i => exact h.turn hd ha hs
  | answer i =>
      obtain ⟨r, hr, rfl⟩ := Option.map_eq_some_iff.mp hs
      unfold Parallel.label
      dsimp only
      rw [hr]
      exact h.answer hr
  | unlink i key =>
      have hq := (Option.ite_none_right_eq_some.mp hs).1
      exact h.unlink hq ha hs
  | reopen =>
      obtain ⟨hq, hs⟩ := Option.ite_none_right_eq_some.mp hs
      obtain ⟨hstart, hfile⟩ := h.file.reopen
      rw [hstart] at hs
      cases hs
      exact (h.quiet hq hfile h.state rfl).matched

end Step

/-! ## 5. Runs -/

theorem parallel_initial (n : Nat) (h : Chained hash disk f [] fun _ => []) :
    ParallelInv hash disk (Parallel.initial (n := n) f) [] (fun _ => [])
      ⟨fun _ => [], fun _ => .idle⟩ :=
  ⟨h, rfl, fun _ => rfl, fun _ _ he => (nomatch he), fun _ _ _ he => (nomatch he),
    fun _ => iff_of_false (fun hc => nomatch hc) (fun hc => nomatch hc)⟩

/-- The value of a linked item is read. -/
theorem ParallelInv.reads {s : Parallel m keySize n}
    {a : Atomic (Stacks (Key keySize) (Nat × List UInt8)) (Fin n) (Op keySize) Answer}
    (h : ParallelInv hash disk s taken chain a) (key : Key keySize) :
    ∀ p ∈ a.state key, s.file.bytes.read (s.file.data p.1) p.2.length = p.2 := by
  intro p hp
  rw [h.state] at hp
  obtain ⟨e, he, _, rfl⟩ := mem_stacksOf hp
  exact (h.file.mem _ (h.file.bucketIndex_lt key) e he).2.2.value

/-- **Every run of the threads keeps the invariant, and its history is one of the stacks.** -/
theorem ParallelInv.run {s s' : Parallel m keySize n}
    {a : Atomic (Stacks (Key keySize) (Nat × List UInt8)) (Fin n) (Op keySize) Answer}
    (h : ParallelInv hash disk s taken chain a) (hd : disk.size ≤ maxObject)
    {turns : List (Turn keySize n)}
    (ha : EverySome (Parallel.act hash disk) (Turn.Allowed hash) s turns)
    (hr : runSome (Parallel.act hash disk) s turns = some s') :
    ∃ b, (tableObject m keySize).Linearizable a
        (history (Parallel.act hash disk) (Parallel.label hash) s turns) b ∧
      ∃ taken chain, ParallelInv hash disk s' taken chain b := by
  refine linearizable_of_simulation (R := fun s a => ∃ taken chain,
    ParallelInv hash disk s taken chain a) (fun s a t s' hR ht hs => ?_) ⟨taken, chain, h⟩ ha hr
  obtain ⟨taken, chain, h⟩ := hR
  obtain ⟨b, hl, taken', chain', hb, _⟩ := h.act hd ht hs
  exact ⟨b, hl, taken', chain', hb⟩

end Invariant

/-- **Stores and finds in parallel are linearizable**: from `create` on, whatever the order of the
    steps, the calls and answers of all threads are those of the stacks, each call taking effect at
    one moment between its call and its answer; and the bytes of every item the stacks hold are the
    value that was stored. -/
theorem parallel_linearizable (hash : Key keySize → Nat) {disk : Disk} {buckets : Nat}
    (hd : disk.size ≤ maxObject) (hb : buckets < Memory.limit 4) {bytes : Memory} {f : TableFile m keySize}
    (hc : create m keySize disk buckets bytes = some f) {turns : List (Turn keySize n)}
    (ha : EverySome (Parallel.act hash disk) (Turn.Allowed hash) (.initial f) turns)
    {s : Parallel m keySize n}
    (hr : runSome (Parallel.act hash disk) (.initial f) turns = some s) :
    ∃ a, (tableObject m keySize).Linearizable ⟨fun _ => [], fun _ => .idle⟩
        (history (Parallel.act hash disk) (Parallel.label hash) (.initial f) turns) a ∧
      ∀ key, ∀ p ∈ a.state key, s.file.bytes.read (s.file.data p.1) p.2.length = p.2 := by
  obtain ⟨a, hl, taken, chain, h⟩ := (parallel_initial n (create_chained hash hd hb hc)).run hd ha hr
  exact ⟨a, hl, h.reads⟩

/-- Two threads store the same key. The first item to be taken is the last to be linked, so it links
    to an item behind it; a third thread reads the bucket in between, and returns last. -/
def crossingStores : List (Turn 1 3) :=
  [.store 0 (oneKey 1) [7], .store 1 (oneKey 1) [9], .step 0, .step 1] ++
    List.replicate 15 (.step 1) ++ [.find 2 (oneKey 1), .step 2, .step 1, .answer 1] ++
    List.replicate 16 (.step 0) ++ [.answer 0, .step 2, .answer 2, .find 2 (oneKey 1), .step 2,
      .step 2, .answer 2, .reopen]

theorem crossingStores_linearizable : ∃ (f : TableFile .slab 1) (s : Parallel .slab 1 3),
    create .slab 1 .sample 1 (fun _ => 0) = some f ∧
    runSome (Parallel.act (fun _ => 0) .sample) (.initial f) crossingStores = some s ∧
    s.file.linkOf 8 = some 18 ∧
    ∃ a, (tableObject .slab 1).Linearizable ⟨fun _ => [], fun _ => .idle⟩
        (history (Parallel.act (fun _ => 0) .sample) (Parallel.label fun _ => 0) (.initial f)
          crossingStores) a ∧
      ∀ key, ∀ p ∈ a.state key, s.file.bytes.read (s.file.data p.1) p.2.length = p.2 := by
  have hb : ((create .slab 1 .sample 1 fun _ => 0).bind fun f =>
      (runSome (Parallel.act (n := 3) (fun _ => 0) .sample) (.initial f) crossingStores).bind fun s =>
        if s.file.linkOf 8 = some 18 then some s else none).isSome = true := by decide +kernel
  obtain ⟨_, hb⟩ := Option.isSome_iff_exists.mp hb
  obtain ⟨f, hc, hb⟩ := Option.bind_eq_some_iff.mp hb
  obtain ⟨s, hr, hb⟩ := Option.bind_eq_some_iff.mp hb
  have hlink := (Option.ite_none_right_eq_some.mp hb).1
  have ha : ∀ t ∈ crossingStores, ∀ s : Parallel .slab 1 3, t.Allowed (fun _ => 0) s := by
    simp [crossingStores, Turn.Allowed, Manager.Fits, Manager.Room, Manager.itemBytes, maxObject]
  exact ⟨f, s, hc, hr, hlink,
    parallel_linearizable (fun _ => 0) (by decide) (by decide) hc (.of_mem _ ha) hr⟩

end TableFile

end Libbitcoin.Database
