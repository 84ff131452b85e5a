/-
  File:      BitprimDatabase/Lib/Bytes.lean
  Subject:   BYTES AT ADDRESSES: a memory as a function, reads and writes of runs of bytes, words in
             little-endian order.

  * `read`, `write` -- a run of bytes; `read_write` and `read_write_disjoint` are the frame rules;
  * `toLE`, `ofLE` -- the bytes of a number and the number of some bytes; `limit w` is the first
    number that does not fit in `w` bytes;
  * `readWord`, `writeWord` -- words, and what a write of bytes or of a word does to a word.
-/
import Mathlib.Data.List.Basic

namespace Lib

/-- A byte at every address. -/
abbrev Memory := Nat → UInt8

namespace Memory

/-! ## 1. Runs of bytes -/

def read (m : Memory) (a n : Nat) : List UInt8 := (List.range n).map fun i => m (a + i)

def write (m : Memory) (a : Nat) (l : List UInt8) : Memory := fun i =>
  if a ≤ i then (l[i - a]?).getD (m i) else m i

/-- Two runs of bytes have no address in common. -/
def Disjoint (a n a' n' : Nat) : Prop := a + n ≤ a' ∨ a' + n' ≤ a

variable (m : Memory)

@[simp] theorem length_read (a n : Nat) : (m.read a n).length = n := by simp [read]

theorem getElem?_read {a n i : Nat} (h : i < n) : (m.read a n)[i]? = some (m (a + i)) := by
  simp [read, h]

/-- A read only depends on its own bytes. -/
theorem read_congr {m m' : Memory} {a n : Nat} (h : ∀ i, a ≤ i → i < a + n → m' i = m i) :
    m'.read a n = m.read a n :=
  List.map_congr_left fun i hi => h _ (Nat.le_add_right a i)
    (Nat.add_lt_add_left (List.mem_range.mp hi) a)

/-- A byte of a run just written. -/
theorem write_inside {a i : Nat} {l : List UInt8} (h : i < l.length) :
    m.write a l (a + i) = l[i] := by
  unfold write
  rw [if_pos (Nat.le_add_right a i), Nat.add_sub_cancel_left, List.getElem?_eq_getElem h]
  rfl

/-- A byte outside the run written. -/
theorem write_outside {a i : Nat} {l : List UInt8} (h : i < a ∨ a + l.length ≤ i) :
    m.write a l i = m i := by
  unfold write
  split
  · rw [List.getElem?_eq_none (by omega)]
    rfl
  · rfl

/-- A read inside the run written. -/
theorem read_write_inside {a k n : Nat} {l : List UInt8} (h : k + n ≤ l.length) :
    (m.write a l).read (a + k) n = (l.drop k).take n := by
  refine List.ext_getElem? fun i => ?_
  by_cases hi : i < n
  · rw [getElem?_read _ hi, Nat.add_assoc, write_inside _ (Nat.lt_of_lt_of_le (by omega) h),
      List.getElem?_take_of_lt hi, List.getElem?_drop, List.getElem?_eq_getElem]
  · rw [List.getElem?_eq_none (by simpa using hi), List.getElem?_eq_none]
    rw [List.length_take]
    omega

@[simp] theorem read_write (a : Nat) (l : List UInt8) : (m.write a l).read a l.length = l := by
  refine List.ext_getElem? fun i => ?_
  by_cases h : i < l.length
  · rw [getElem?_read _ h, write_inside _ h, List.getElem?_eq_getElem h]
  · rw [List.getElem?_eq_none (by simpa using h), List.getElem?_eq_none (by simpa using h)]

/-- **A read only sees the writes it meets.** -/
theorem read_write_disjoint {a a' n : Nat} {l : List UInt8} (h : Disjoint a' n a l.length) :
    (m.write a l).read a' n = m.read a' n := by
  refine List.map_congr_left fun i hi => write_outside m ?_
  have := List.mem_range.mp hi
  rcases h with h | h
  · exact .inl (by omega)
  · exact .inr (by omega)

/-! ## 2. Words -/

/-- The first number that does not fit in the bytes. -/
def limit : Nat → Nat
  | 0 => 1
  | w + 1 => 256 * limit w

theorem limit_pos (w : Nat) : 0 < limit w := by
  induction w with
  | zero => exact Nat.one_pos
  | succ w ih =>
      show 0 < 256 * limit w
      omega

/-- The low bytes of a number, the lowest first. -/
def toLE : Nat → Nat → List UInt8
  | 0, _ => []
  | w + 1, n => UInt8.ofNat (n % 256) :: toLE w (n / 256)

def ofLE : List UInt8 → Nat
  | [] => 0
  | b :: l => b.toNat + 256 * ofLE l

@[simp] theorem length_toLE (w n : Nat) : (toLE w n).length = w := by
  induction w generalizing n with
  | zero => rfl
  | succ w ih => simp [toLE, ih]

/-- **A number that fits is read back.** -/
theorem ofLE_toLE {w n : Nat} (h : n < limit w) : ofLE (toLE w n) = n := by
  induction w generalizing n with
  | zero =>
      have : n = 0 := Nat.lt_one_iff.mp h
      subst this
      rfl
  | succ w ih =>
      have hdiv : n / 256 < limit w := by
        have h : n < 256 * limit w := h
        omega
      show (UInt8.ofNat (n % 256)).toNat + 256 * ofLE (toLE w (n / 256)) = n
      rw [ih hdiv, UInt8.toNat_ofNat']
      omega

/-- **Bytes that are read as a number are written again.** -/
theorem toLE_ofLE (l : List UInt8) : toLE l.length (ofLE l) = l := by
  induction l with
  | nil => rfl
  | cons b l ih =>
      have hb := b.toNat_lt
      have hdiv : (b.toNat + 256 * ofLE l) / 256 = ofLE l := by omega
      have hmod : (b.toNat + 256 * ofLE l) % 256 = b.toNat := by omega
      show UInt8.ofNat ((b.toNat + 256 * ofLE l) % 256) ::
        toLE l.length ((b.toNat + 256 * ofLE l) / 256) = b :: l
      rw [hdiv, hmod, ih, UInt8.ofNat_toNat]

/-- Bytes of ones are the largest number. -/
theorem ofLE_ones (w : Nat) : ofLE (List.replicate w 255) = limit w - 1 := by
  induction w with
  | zero => rfl
  | succ w ih =>
      have hpos := limit_pos w
      show 255 + 256 * ofLE (List.replicate w 255) = 256 * limit w - 1
      omega

def readWord (a w : Nat) : Nat := ofLE (m.read a w)

def writeWord (a w n : Nat) : Memory := m.write a (toLE w n)

@[simp] theorem readWord_writeWord {a w n : Nat} (h : n < limit w) :
    (m.writeWord a w n).readWord a w = n := by
  have hread : (m.writeWord a w n).read a w = toLE w n := by
    have := m.read_write a (toLE w n)
    rwa [length_toLE] at this
  rw [readWord, hread, ofLE_toLE h]

theorem readWord_write_disjoint {a a' w : Nat} {l : List UInt8} (h : Disjoint a' w a l.length) :
    (m.write a l).readWord a' w = m.readWord a' w := by
  rw [readWord, read_write_disjoint m h, readWord]

theorem read_writeWord_disjoint {a a' w n k : Nat} (h : Disjoint a' k a w) :
    (m.writeWord a w n).read a' k = m.read a' k :=
  read_write_disjoint m (by rwa [length_toLE])

theorem readWord_writeWord_disjoint {a a' w w' n : Nat} (h : Disjoint a' w' a w) :
    (m.writeWord a w n).readWord a' w' = m.readWord a' w' :=
  readWord_write_disjoint m (by rwa [length_toLE])

theorem writeWord_outside {a w n i : Nat} (h : i < a ∨ a + w ≤ i) : m.writeWord a w n i = m i :=
  write_outside m (by rwa [length_toLE])

end Memory

end Lib
