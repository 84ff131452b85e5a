/-
  File:      BitprimDatabase/Lib/Layout.lean
  Subject:   LAYOUTS: what lies at an address, part by part.

  * `Memory.Holds` -- the bytes from an address on are a list; `holds_append` splits a layout into
    its parts, `Holds.congr` and `Holds.write` are the frame rules;
  * `ofLE_toLE_mod`, `toLE_inj` -- words keep what fits in them; `readWord_add` -- a word by its parts;
  * `Holds.readWord`, `Holds.word` -- a word of a layout is read back; `Holds.getElem` -- a value in an
    array; `Holds.write_part` -- a part of a layout is rewritten;
  * `Reader` -- a value and the address behind it; `Reads` -- it reads back what was written;
    `Reader.many`, `skipMany` -- a list of values, one behind the other;
  * `Stacks.Codes` -- stacks under coded keys hold coded values; pushes, pops and edits of the top
    keep it.
-/
import BitprimDatabase.Lib.Bytes
import BitprimDatabase.Lib.Stacks

namespace Lib

namespace Memory

variable {m m' : Memory} {a b n w : Nat} {l l' : List UInt8}

/-! ## 1. Words -/

/-- **A number is read back without what does not fit.** -/
theorem ofLE_toLE_mod (w n : Nat) : ofLE (toLE w n) = n % limit w := by
  induction w generalizing n with
  | zero => exact (Nat.mod_one n).symm
  | succ w ih =>
      show (UInt8.ofNat (n % 256)).toNat + 256 * ofLE (toLE w (n / 256)) = n % (256 * limit w)
      rw [ih, UInt8.toNat_ofNat', Nat.mod_mul]
      omega

/-- What does not fit is not written. -/
theorem toLE_mod (w n : Nat) : toLE w (n % limit w) = toLE w n := by
  induction w generalizing n with
  | zero => rfl
  | succ w ih =>
      show UInt8.ofNat (n % (256 * limit w) % 256) :: toLE w (n % (256 * limit w) / 256) =
        UInt8.ofNat (n % 256) :: toLE w (n / 256)
      rw [Nat.mod_mul_right_mod, Nat.mod_mul_right_div_self, ih]

theorem toLE_inj {k : Nat} (hn : n < limit w) (hk : k < limit w) (h : toLE w n = toLE w k) :
    n = k := by
  rw [← ofLE_toLE hn, h, ofLE_toLE hk]

theorem ofLE_append (l l' : List UInt8) : ofLE (l ++ l') = ofLE l + limit l.length * ofLE l' := by
  induction l with
  | nil => exact ((Nat.zero_add _).trans (Nat.one_mul _)).symm
  | cons b l ih =>
      show b.toNat + 256 * ofLE (l ++ l') =
        b.toNat + 256 * ofLE l + 256 * limit l.length * ofLE l'
      rw [ih, Nat.mul_add, Nat.mul_assoc]
      omega

theorem ofLE_lt (l : List UInt8) : ofLE l < limit l.length := by
  induction l with
  | nil => exact Nat.one_pos
  | cons b l ih =>
      have hb := b.toNat_lt
      show b.toNat + 256 * ofLE l < 256 * limit l.length
      omega

theorem readWord_lt (m : Memory) (a w : Nat) : m.readWord a w < limit w := by
  have h := ofLE_lt (m.read a w)
  rwa [length_read] at h

/-! ## 2. Layouts -/

/-- The bytes from an address on. -/
def Holds (m : Memory) (a : Nat) (l : List UInt8) : Prop := m.read a l.length = l

theorem read_append (m : Memory) (a n k : Nat) :
    m.read a (n + k) = m.read a n ++ m.read (a + n) k := by
  unfold read
  rw [List.range_add, List.map_append, List.map_map]
  congr 2
  funext i
  exact congrArg m (Nat.add_assoc ..).symm

/-- **A word by its low and its high bytes.** -/
theorem readWord_add (m : Memory) (a w k : Nat) :
    m.readWord a (w + k) = m.readWord a w + limit w * m.readWord (a + w) k := by
  unfold readWord
  rw [read_append, ofLE_append, length_read]

@[simp] theorem holds_nil : m.Holds a [] := rfl

/-- **The parts of a layout.** -/
theorem holds_append : m.Holds a (l ++ l') ↔ m.Holds a l ∧ m.Holds (a + l.length) l' := by
  unfold Holds
  rw [List.length_append, read_append]
  constructor
  · exact fun h => List.append_inj h (length_read ..)
  · rintro ⟨h, h'⟩
    rw [h, h']

theorem holds_cons {c : UInt8} : m.Holds a (c :: l) ↔ m a = c ∧ m.Holds (a + 1) l := by
  rw [← List.singleton_append, holds_append]
  refine and_congr_left fun _ => ?_
  show [m (a + 0)] = [c] ↔ m a = c
  rw [List.cons.injEq, and_iff_left rfl, Nat.add_zero]

theorem holds_write (m : Memory) (a : Nat) (l : List UInt8) : (m.write a l).Holds a l :=
  read_write m a l

/-- A layout is its own bytes only. -/
theorem Holds.congr (h : m.Holds a l) (he : ∀ i, a ≤ i → i < a + l.length → m' i = m i) :
    m'.Holds a l := (read_congr he).trans h

/-- A write elsewhere leaves a layout. -/
theorem Holds.write (h : m.Holds a l) (hd : Disjoint a l.length b l'.length) :
    (m.write b l').Holds a l := (read_write_disjoint m hd).trans h

/-- The word of a layout, without what does not fit. -/
theorem Holds.readWord (h : m.Holds a (toLE w n)) : m.readWord a w = n % limit w := by
  unfold Holds at h
  rw [length_toLE] at h
  rw [Memory.readWord, h, ofLE_toLE_mod]

theorem Holds.word (h : m.Holds a (toLE w n)) (hn : n < limit w) : m.readWord a w = n :=
  h.readWord.trans (Nat.mod_eq_of_lt hn)

theorem write_append (m : Memory) (a : Nat) (l l' : List UInt8) :
    m.write a (l ++ l') = (m.write a l).write (a + l.length) l' := by
  funext i
  by_cases hl : a + l.length ≤ i
  · have hi : i - (a + l.length) = i - a - l.length := by omega
    have hout : m.write a l i = m i := write_outside m (.inr hl)
    unfold write at hout ⊢
    rw [if_pos (Nat.le_trans (Nat.le_add_right ..) hl), if_pos hl, hout,
      List.getElem?_append_right (by omega), hi]
  · rw [write_outside _ (.inl (Nat.lt_of_not_le hl))]
    unfold write
    split
    · rw [List.getElem?_append_left (by omega)]
    · rfl

/-- **A value in an array** of values of one width. -/
theorem Holds.getElem {A : Type} {bytes : A → List UInt8} (hb : ∀ x, (bytes x).length = w)
    {xs : List A} (h : m.Holds a (xs.flatMap bytes)) {i : Nat} (hi : i < xs.length) :
    m.Holds (a + i * w) (bytes xs[i]) := by
  induction xs generalizing a i with
  | nil => exact absurd hi (Nat.not_lt_zero _)
  | cons x xs ih =>
      rw [List.flatMap_cons] at h
      obtain ⟨hhead, hrest⟩ := holds_append.mp h
      cases i with
      | zero =>
          rw [Nat.zero_mul]
          exact hhead
      | succ i =>
          rw [hb] at hrest
          have hnext := ih hrest (Nat.lt_of_succ_lt_succ hi)
          rwa [Nat.add_assoc, Nat.add_comm w, ← Nat.succ_mul] at hnext

/-- What is there already is no change. -/
theorem Holds.write_self (h : m.Holds a l) : m.write a l = m := by
  funext i
  by_cases hi : a ≤ i ∧ i < a + l.length
  · obtain ⟨k, rfl⟩ := Nat.exists_eq_add_of_le hi.1
    have hk : k < l.length := by omega
    rw [write_inside m hk]
    have hget := getElem?_read m (a := a) hk
    rw [h, List.getElem?_eq_getElem hk] at hget
    exact Option.some.inj hget
  · exact write_outside m (by omega)

/-- **A layout with one part rewritten** is a write of that part. -/
theorem Holds.write_part {x y z z' : List UInt8} (h : m.Holds a (x ++ (z ++ y)))
    (hz : z'.length = z.length) : m.write a (x ++ (z' ++ y)) = m.write (a + x.length) z' := by
  obtain ⟨hx, h⟩ := holds_append.mp h
  obtain ⟨_, hy⟩ := holds_append.mp h
  rw [write_append, write_append, hx.write_self]
  have hy' : (m.write (a + x.length) z').Holds (a + x.length + z'.length) y := by
    rw [hz]
    exact hy.write (.inr (Nat.le_of_eq (by rw [hz])))
  exact hy'.write_self

end Memory

/-! ## 3. Readers -/

/-- The value at an address, and the address behind it. -/
abbrev Reader (A : Type) := Memory → Nat → A × Nat

namespace Reader

variable {A : Type} {r : Reader A} {bytes : A → List UInt8}

/-- Wherever the bytes stand the value is read, to their end. -/
def Reads (r : Reader A) (x : A) (l : List UInt8) : Prop :=
  ∀ m a, Memory.Holds m a l → r m a = (x, a + l.length)

/-- A number of values, one behind the other. -/
def many (r : Reader A) : Nat → Reader (List A)
  | 0, _, a => ([], a)
  | n + 1, m, a =>
    let (x, a) := r m a
    let (xs, a) := many r n m a
    (x :: xs, a)

/-- **A list is read back value by value.** -/
theorem many_reads {l : List A} (h : ∀ x ∈ l, r.Reads x (bytes x)) :
    (many r l.length).Reads l (l.flatMap bytes) := by
  induction l with
  | nil => exact fun _ _ _ => rfl
  | cons x l ih =>
      obtain ⟨hx, hl⟩ := List.forall_mem_cons.mp h
      intro m a hm
      rw [List.flatMap_cons] at hm ⊢
      obtain ⟨hhead, hrest⟩ := Memory.holds_append.mp hm
      rw [List.length_cons]
      unfold many
      rw [hx m a hhead]
      dsimp only
      rw [ih hl m _ hrest, List.length_append, Nat.add_assoc]

end Reader

/-- A number of values skipped. -/
def skipMany (skip : Memory → Nat → Nat) (m : Memory) : Nat → Nat → Nat
  | 0, a => a
  | n + 1, a => skipMany skip m n (skip m a)

/-- **Skipping the values in front of one** leads to it. -/
theorem skipMany_eq {A : Type} {bytes : A → List UInt8} {skip : Memory → Nat → Nat} {m : Memory}
    {xs : List A} (h : ∀ x ∈ xs, ∀ a, m.Holds a (bytes x) → skip m a = a + (bytes x).length)
    {a : Nat} (hm : m.Holds a (xs.flatMap bytes)) :
    skipMany skip m xs.length a = a + (xs.flatMap bytes).length := by
  induction xs generalizing a with
  | nil => rfl
  | cons x xs ih =>
      obtain ⟨hx, hxs⟩ := List.forall_mem_cons.mp h
      rw [List.flatMap_cons] at hm ⊢
      obtain ⟨hhead, hrest⟩ := Memory.holds_append.mp hm
      rw [List.length_cons]
      unfold skipMany
      rw [hx a hhead, ih hxs hrest, List.length_append, Nat.add_assoc]

/-! ## 4. Stacks under coded keys -/

namespace Stacks

variable {K V K' V' : Type} [DecidableEq K] [DecidableEq K'] {code : K → K'} {codeValue : V → V'}
  {s : Stacks K V} {s' : Stacks K' V'}

/-- The stack under the code of a key holds the codes of the key's values. -/
def Codes (code : K → K') (codeValue : V → V') (s : Stacks K V) (s' : Stacks K' V') : Prop :=
  ∀ k, s' (code k) = (s k).map codeValue

omit [DecidableEq K] [DecidableEq K'] in
theorem Codes.nil : Codes code codeValue (fun _ => []) fun _ => [] := fun _ => rfl

omit [DecidableEq K] [DecidableEq K'] in
theorem Codes.head (h : Codes code codeValue s s') (k : K) :
    (s' (code k)).head? = (s k).head?.map codeValue := by
  rw [h k, List.head?_map]

omit [DecidableEq K] [DecidableEq K'] in
theorem Codes.eq_nil (h : Codes code codeValue s s') {k : K} : s' (code k) = [] ↔ s k = [] := by
  rw [h k, List.map_eq_nil_iff]

theorem Codes.push (h : Codes code codeValue s s') (hc : Function.Injective code) (k : K) (v : V) :
    Codes code codeValue (s.push k v) (s'.push (code k) (codeValue v)) := by
  intro k'
  by_cases hk : k' = k
  · subst hk
    rw [push_same, push_same, h k', List.map_cons]
  · rw [push_ne _ _ hk, push_ne _ _ (hc.ne hk), h k']

theorem Codes.pop (h : Codes code codeValue s s') (hc : Function.Injective code) (k : K) :
    Codes code codeValue (s.pop k) (s'.pop (code k)) := by
  intro k'
  by_cases hk : k' = k
  · subst hk
    rw [pop_same, pop_same, h k', List.map_tail]
  · rw [pop_ne _ hk, pop_ne _ (hc.ne hk), h k']

theorem Codes.modifyTop (h : Codes code codeValue s s') (hc : Function.Injective code) (k : K)
    {f : V → V} {f' : V' → V'} (hf : ∀ v, (s k).head? = some v → f' (codeValue v) = codeValue (f v)) :
    Codes code codeValue (s.modifyTop k f) (s'.modifyTop (code k) f') := by
  intro k'
  by_cases hk : k' = k
  · subst hk
    rw [modifyTop_same, modifyTop_same, h k']
    cases hs : s k' with
    | nil => rfl
    | cons v vs =>
        rw [List.map_cons, List.modifyHead_cons, List.modifyHead_cons, List.map_cons,
          hf v (by rw [hs]; rfl)]
  · rw [modifyTop_ne _ _ hk, modifyTop_ne _ _ (hc.ne hk), h k']

end Stacks

end Lib
