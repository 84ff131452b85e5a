/-
  File:      BitprimDatabase/Lib/UpgradeLock.lean
  Subject:   A LOCK THAT IS SHARED, UPGRADED AND EXCLUSIVE: any number of threads share it, one of
             them may hold the right to upgrade beside the others, and nobody is beside an exclusive
             holder.

  * `UpgradeLock`, `UpgradeLock.change` -- how each thread holds it, and a change of one thread;
  * `Sound` -- what every change keeps; **`Sound.alone`** -- beside an exclusive holder nobody is.
-/
import Mathlib.Data.Fintype.Basic
import Mathlib.Logic.Function.Basic

namespace Lib

/-- A way to hold the lock. -/
inductive Mode where
  | shared
  | upgrade
  | exclusive
  deriving DecidableEq

/-- Two threads may hold the lock so. -/
def Mode.beside : Option Mode → Option Mode → Bool
  | none, _ | _, none => true
  | some exclusive, _ | _, some exclusive => false
  | some upgrade, some upgrade => false
  | _, _ => true

theorem Mode.beside_comm (a b : Option Mode) : beside a b = beside b a := by
  rcases a with _ | _ | _ | _ <;> rcases b with _ | _ | _ | _ <;> rfl

theorem Mode.beside_upgrade (b : Option Mode) (h : beside (some exclusive) b = true) :
    beside (some upgrade) b = true := by
  rcases b with _ | _ | _ | _
  · rfl
  all_goals cases h

theorem Mode.beside_shared (b : Option Mode) (h : beside (some upgrade) b = true) :
    beside (some shared) b = true := by
  rcases b with _ | _ | _ | _
  · rfl
  · rfl
  all_goals cases h

/-- How each thread holds the lock. -/
abbrev UpgradeLock (T : Type) : Type := T → Option Mode

namespace UpgradeLock

variable {T : Type} [DecidableEq T] [Fintype T]

/-- No thread holds the lock. -/
def free : UpgradeLock T := fun _ => none

/-- A thread that holds the lock in one way holds it in another; `none` where it does not hold it so,
    or has to wait for the others. -/
def change (l : UpgradeLock T) (t : T) (old new : Option Mode) : Option (UpgradeLock T) :=
  if l t = old ∧ ∀ u, u ≠ t → Mode.beside new (l u) = true then some (Function.update l t new)
  else none

section Calls

variable (l : UpgradeLock T) (t : T)

def lockShared : Option (UpgradeLock T) := l.change t none (some .shared)

def unlockShared : Option (UpgradeLock T) := l.change t (some .shared) none

def lockUpgrade : Option (UpgradeLock T) := l.change t none (some .upgrade)

def unlockUpgradeAndLock : Option (UpgradeLock T) := l.change t (some .upgrade) (some .exclusive)

def unlockAndLockUpgrade : Option (UpgradeLock T) := l.change t (some .exclusive) (some .upgrade)

def unlockUpgradeAndLockShared : Option (UpgradeLock T) := l.change t (some .upgrade) (some .shared)

end Calls

/-- **The holders are compatible.** -/
def Sound (l : UpgradeLock T) : Prop := ∀ t u, t ≠ u → Mode.beside (l t) (l u) = true

variable {l l' : UpgradeLock T} {t u : T} {old new : Option Mode}

omit [DecidableEq T] [Fintype T] in
theorem free_sound : (free : UpgradeLock T).Sound := fun _ _ _ => rfl

theorem change_eq_some (h : l.change t old new = some l') :
    l t = old ∧ (∀ u, u ≠ t → Mode.beside new (l u) = true) ∧ l' = Function.update l t new := by
  unfold change at h
  obtain ⟨⟨hold, hnew⟩, he⟩ := Option.ite_none_right_eq_some.mp h
  exact ⟨hold, hnew, (Option.some.inj he).symm⟩

/-- **Every change keeps the holders compatible.** -/
theorem Sound.change (h : l.Sound) (hc : l.change t old new = some l') : l'.Sound := by
  obtain ⟨_, hnew, rfl⟩ := change_eq_some hc
  intro a b hab
  by_cases ha : a = t
  · subst ha
    rw [Function.update_self, Function.update_of_ne (Ne.symm hab)]
    exact hnew b (Ne.symm hab)
  · rw [Function.update_of_ne ha]
    by_cases hb : b = t
    · subst hb
      rw [Function.update_self, Mode.beside_comm]
      exact hnew a ha
    · rw [Function.update_of_ne hb]
      exact h a b hab

omit [DecidableEq T] [Fintype T] in
/-- **Beside an exclusive holder nobody holds the lock.** -/
theorem Sound.alone (h : l.Sound) (ht : l t = some .exclusive) (hu : u ≠ t) : l u = none := by
  have hbeside := h t u (Ne.symm hu)
  rw [ht] at hbeside
  cases hl : l u with
  | none => rfl
  | some mode =>
      rw [hl] at hbeside
      cases mode <;> cases hbeside

theorem change_isSome (ht : l t = old) (hnew : ∀ u, u ≠ t → Mode.beside new (l u) = true) :
    (l.change t old new).isSome := by
  unfold change
  rw [if_pos ⟨ht, hnew⟩]
  rfl

/-- A weaker way to hold the lock is had at once. -/
theorem Sound.weaken_isSome (h : l.Sound) (ht : l t = old)
    (hle : ∀ b, Mode.beside old b = true → Mode.beside new b = true) :
    (l.change t old new).isSome :=
  change_isSome ht fun u hu => hle _ (ht ▸ h t u (Ne.symm hu))

end UpgradeLock

end Lib
