/-
  File:      BitprimDatabase/Store.lean
  Subject:   THE LOCKS OF THE STORE (store.cpp): the sequential lock, a counter that is odd during
             a write, and the flush lock, a file that exists while writes are not flushed. Both
             belong to the core library; creating and removing the file succeed.
-/
import Mathlib.Logic.Basic

namespace Libbitcoin.Database

/-- Whether each write is flushed, whether the flush lock file exists, the sequence counter. -/
structure Store where
  flushEachWrite : Bool
  flushLocked : Bool
  sequence : Nat
  deriving DecidableEq

namespace Store

def lockShared (s : Store) : Store × Bool := ({ s with flushLocked := true }, true)

def unlockShared (s : Store) : Store × Bool := ({ s with flushLocked := false }, true)

def tryLock (s : Store) : Bool := !s.flushLocked

/-- Open the store on the files as they are, with a new counter. -/
def «open» (s : Store) : Store × Bool :=
  let s := { s with sequence := 0 }
  if !s.tryLock then (s, false)
  else if s.flushEachWrite then (s, true)
  else s.lockShared

def close (s : Store) : Store × Bool := if s.flushEachWrite then (s, true) else s.unlockShared

/-- The handle of a read is the counter. -/
def beginRead (s : Store) : Nat := s.sequence

def isReadValid (s : Store) (handle : Nat) : Bool := handle == s.sequence

def isWriteLocked (handle : Nat) : Bool := handle % 2 == 1

def flushLock (s : Store) : Store × Bool := if s.flushEachWrite then s.lockShared else (s, true)

/-- The argument is what `flush` of the tables answers. -/
def flushUnlock (s : Store) (flushed : Bool) : Store × Bool :=
  if s.flushEachWrite then if flushed then s.unlockShared else (s, false) else (s, true)

/-- The counter's part of `begin_write`: true where it became odd. -/
def sequenceBegin (s : Store) : Store × Bool :=
  ({ s with sequence := s.sequence + 1 }, isWriteLocked (s.sequence + 1))

/-- The counter's part of `end_write`: true where it became even. -/
def sequenceEnd (s : Store) : Store × Bool :=
  ({ s with sequence := s.sequence + 1 }, !isWriteLocked (s.sequence + 1))

def beginWrite (s : Store) : Store × Bool :=
  match s.flushLock with
  | (s, true) => s.sequenceBegin
  | (s, false) => (s, false)

def endWrite (s : Store) (flushed : Bool) : Store × Bool :=
  match s.sequenceEnd with
  | (s, true) => s.flushUnlock flushed
  | (s, false) => (s, false)

@[simp] theorem isWriteLocked_succ (handle : Nat) :
    isWriteLocked (handle + 1) = !isWriteLocked handle := by
  unfold isWriteLocked
  rcases Nat.mod_two_eq_zero_or_one handle with h | h
  · rw [h, show (handle + 1) % 2 = 1 by omega]
    rfl
  · rw [h, show (handle + 1) % 2 = 0 by omega]
    rfl

/-- The whole of `begin_write`. -/
theorem beginWrite_eq (s : Store) : s.beginWrite =
    ({ s with flushLocked := s.flushEachWrite || s.flushLocked, sequence := s.sequence + 1 },
      !isWriteLocked s.sequence) := by
  unfold beginWrite flushLock
  cases hf : s.flushEachWrite <;> simp [lockShared, sequenceBegin, hf]

/-- The whole of `end_write` where the counter is odd. -/
theorem endWrite_eq {s : Store} (h : isWriteLocked s.sequence = true) (flushed : Bool) :
    s.endWrite flushed =
      ({ s with
          flushLocked := s.flushLocked && !(s.flushEachWrite && flushed)
          sequence := s.sequence + 1 },
        !s.flushEachWrite || flushed) := by
  unfold endWrite sequenceEnd flushUnlock
  cases s.flushEachWrite <;> cases flushed <;> simp [unlockShared, h]

/-- The whole of `end_write` where the counter is even: the flush lock stays. -/
theorem endWrite_eq_false {s : Store} (h : isWriteLocked s.sequence = false) (flushed : Bool) :
    s.endWrite flushed = ({ s with sequence := s.sequence + 1 }, false) := by
  unfold endWrite sequenceEnd
  simp [h]

@[simp] theorem beginWrite_sequence (s : Store) :
    s.beginWrite.1.sequence = s.sequence + 1 := by rw [s.beginWrite_eq]

@[simp] theorem endWrite_sequence (s : Store) (flushed : Bool) :
    (s.endWrite flushed).1.sequence = s.sequence + 1 := by
  cases h : isWriteLocked s.sequence with
  | true => rw [endWrite_eq h]
  | false => rw [endWrite_eq_false h]

@[simp] theorem beginWrite_flushEachWrite (s : Store) :
    s.beginWrite.1.flushEachWrite = s.flushEachWrite := by rw [s.beginWrite_eq]

@[simp] theorem endWrite_flushEachWrite (s : Store) (flushed : Bool) :
    (s.endWrite flushed).1.flushEachWrite = s.flushEachWrite := by
  cases h : isWriteLocked s.sequence with
  | true => rw [endWrite_eq h]
  | false => rw [endWrite_eq_false h]

/-- Without flushed writes the store closes, and then opens. -/
theorem close_open {s : Store} (h : s.flushEachWrite = false) :
    s.close.2 = true ∧ s.close.1.open.2 = true := by
  simp [close, «open», unlockShared, lockShared, tryLock, h]

end Store

end Libbitcoin.Database
