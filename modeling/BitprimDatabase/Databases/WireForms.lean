/-
  File:      BitprimDatabase/Databases/WireForms.lean
  Subject:   THE BYTES OF HASHES AND POINTS, as the core library writes and reads them: a hash is its
             32 bytes, an address hash its 20, a point is its hash and four bytes of its index.
-/
import BitprimDatabase.ChainTypes
import BitprimDatabase.Lib.Layout
import BitprimDatabase.Primitives.TableFile

namespace Libbitcoin.Database

open Lib

def hashBytes (hash : HashDigest) : List UInt8 := Memory.toLE 32 hash.toNat

def readHash (m : Memory) (a : Nat) : HashDigest := BitVec.ofNat 256 (m.readWord a 32)

def shortHashBytes (hash : ShortHash) : List UInt8 := Memory.toLE 20 hash.toNat

def readShortHash (m : Memory) (a : Nat) : ShortHash := BitVec.ofNat 160 (m.readWord a 20)

/-- `point::to_data`. -/
def pointBytes (point : Point) : List UInt8 := hashBytes point.hash ++ Memory.toLE 4 point.index

/-- `point::from_data`. -/
def readPoint (m : Memory) (a : Nat) : Point := ⟨readHash m a, m.readWord (a + 32) 4⟩

/-- A point as the core library has it: the index is of four bytes. -/
abbrev WirePoint := { point : Point // point.index ≤ maxUint32 }

@[simp] theorem length_hashBytes (hash : HashDigest) : (hashBytes hash).length = 32 :=
  Memory.length_toLE 32 _

@[simp] theorem length_shortHashBytes (hash : ShortHash) : (shortHashBytes hash).length = 20 :=
  Memory.length_toLE 20 _

@[simp] theorem length_pointBytes (point : Point) : (pointBytes point).length = 36 := by
  simp [pointBytes]

theorem limit_32 : Memory.limit 32 = 2 ^ 256 := by decide

theorem limit_20 : Memory.limit 20 = 2 ^ 160 := by decide

theorem readHash_of_holds {m : Memory} {a : Nat} {hash : HashDigest}
    (h : m.Holds a (hashBytes hash)) : readHash m a = hash := by
  unfold readHash
  rw [h.word (limit_32 ▸ hash.isLt)]
  exact BitVec.ofNat_toNat ..

theorem readShortHash_of_holds {m : Memory} {a : Nat} {hash : ShortHash}
    (h : m.Holds a (shortHashBytes hash)) : readShortHash m a = hash := by
  unfold readShortHash
  rw [h.word (limit_20 ▸ hash.isLt)]
  exact BitVec.ofNat_toNat ..

/-- **A point is read back**, its index up to four bytes. -/
theorem readPoint_of_holds {m : Memory} {a : Nat} {point : Point}
    (h : m.Holds a (pointBytes point)) : readPoint m a = ⟨point.hash, u32 point.index⟩ := by
  obtain ⟨hhash, hindex⟩ := Memory.holds_append.mp h
  rw [length_hashBytes] at hindex
  unfold readPoint
  rw [readHash_of_holds hhash, hindex.readWord]
  rfl

theorem WirePoint.read {m : Memory} {a : Nat} (point : WirePoint)
    (h : m.Holds a (pointBytes point.val)) : readPoint m a = point.val := by
  rw [readPoint_of_holds h, u32_of_le point.property]

theorem hashBytes_injective : Function.Injective hashBytes := fun h h' he =>
  BitVec.eq_of_toNat_eq (Memory.toLE_inj (limit_32 ▸ h.isLt) (limit_32 ▸ h'.isLt) he)

theorem shortHashBytes_injective : Function.Injective shortHashBytes := fun h h' he =>
  BitVec.eq_of_toNat_eq (Memory.toLE_inj (limit_20 ▸ h.isLt) (limit_20 ▸ h'.isLt) he)

/-- A hash, an address hash and a point as keys of a table. -/
def hashKey (hash : HashDigest) : Key 32 := ⟨hashBytes hash, length_hashBytes hash⟩

def shortHashKey (hash : ShortHash) : Key 20 := ⟨shortHashBytes hash, length_shortHashBytes hash⟩

def WirePoint.key (point : WirePoint) : Key 36 := ⟨pointBytes point.val, length_pointBytes _⟩

theorem hashKey_injective : Function.Injective hashKey := fun _ _ he =>
  hashBytes_injective (congrArg Subtype.val he)

/-- Every key of 32 bytes is a hash. -/
theorem hashKey_surjective (key : Key 32) : ∃ hash, hashKey hash = key := by
  obtain ⟨l, hl⟩ := key
  have hlt : Memory.ofLE l < 2 ^ 256 := by
    rw [← limit_32, ← hl]
    exact Memory.ofLE_lt l
  refine ⟨BitVec.ofNat 256 (Memory.ofLE l), Subtype.ext ?_⟩
  show Memory.toLE 32 (BitVec.ofNat 256 (Memory.ofLE l)).toNat = l
  rw [BitVec.toNat_ofNat, Nat.mod_eq_of_lt hlt, ← hl, Memory.toLE_ofLE]

theorem shortHashKey_injective : Function.Injective shortHashKey := fun _ _ he =>
  shortHashBytes_injective (congrArg Subtype.val he)

/-- **Points with the same key are the same**: the key has the hash and the whole index. -/
theorem WirePoint.key_injective : Function.Injective WirePoint.key := by
  rintro ⟨⟨hash, index⟩, hp⟩ ⟨⟨hash', index'⟩, hq⟩ he
  have hbytes : hashBytes hash ++ Memory.toLE 4 index = hashBytes hash' ++ Memory.toLE 4 index' :=
    congrArg Subtype.val he
  obtain ⟨hhash, hindex⟩ := List.append_inj hbytes (by simp)
  have hlt (p : WirePoint) : p.val.index < Memory.limit 4 := Nat.lt_succ_of_le p.property
  have hi : index = index' := Memory.toLE_inj (hlt ⟨_, hp⟩) (hlt ⟨_, hq⟩) hindex
  cases hashBytes_injective hhash
  cases hi
  rfl

end Libbitcoin.Database
