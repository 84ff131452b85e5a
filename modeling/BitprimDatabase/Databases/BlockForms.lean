/-
  File:      BitprimDatabase/Databases/BlockForms.lean
  Subject:   THE RECORD OF A BLOCK (block_database.cpp, block_result.cpp):

      [ version:4 ] [ previous:32 ] [ merkle:32 ] [ timestamp:4 ] [ bits:4 ] [ nonce:4 ]
      [ height:4 ] [ count ] [ hash:32 ] ... [ hash:32 ]

             the header in its wire form, and the hashes of the transactions behind a count of variable
             size.

  * `recordSize`, `recordBytes` -- the size `store` asks for, and what it writes;
  * `BlockRecord` -- the readers, each with its own offset;
  * **`BlockRecord.answers`** -- where the record stands they answer for the block.
-/
import BitprimDatabase.Databases.BlockDatabase
import BitprimDatabase.Databases.StoreForms

namespace Libbitcoin.Database

open Lib

/-! ## 1. Headers -/

/-- The fields of a header have the types of the source. -/
structure Header.Wire (header : Header) : Prop where
  version : header.version ≤ maxUint32
  timestamp : header.timestamp ≤ maxUint32
  bits : header.bits ≤ maxUint32
  nonce : header.nonce ≤ maxUint32

/-- `header::satoshi_fixed_size`. -/
def headerSize : Nat := 80

/-- `header::to_data`; the hash is computed. -/
def headerBytes (header : Header) : List UInt8 :=
  Memory.toLE 4 header.version ++ (hashBytes header.previousBlockHash ++ (hashBytes header.merkle ++
    (Memory.toLE 4 header.timestamp ++ (Memory.toLE 4 header.bits ++ Memory.toLE 4 header.nonce))))

/-- `header::from_data`, constructed with a hash. -/
def readHeader (m : Memory) (a : Nat) (hash : HashDigest) : Header where
  hash := hash
  version := m.readWord a 4
  previousBlockHash := readHash m (a + 4)
  merkle := readHash m (a + 36)
  timestamp := m.readWord (a + 68) 4
  bits := m.readWord (a + 72) 4
  nonce := m.readWord (a + 76) 4

@[simp] theorem length_headerBytes (header : Header) : (headerBytes header).length = headerSize := by
  simp [headerBytes, headerSize]

/-- **A header is read back**, with the hash it is constructed with. -/
theorem readHeader_of_holds {m : Memory} {a : Nat} {header : Header} (hw : header.Wire)
    (h : m.Holds a (headerBytes header)) (hash : HashDigest) :
    readHeader m a hash = { header with hash := hash } := by
  obtain ⟨hversion, h⟩ := Memory.holds_append.mp h
  obtain ⟨hprevious, h⟩ := Memory.holds_append.mp h
  obtain ⟨hmerkle, h⟩ := Memory.holds_append.mp h
  obtain ⟨htime, h⟩ := Memory.holds_append.mp h
  obtain ⟨hbits, hnonce⟩ := Memory.holds_append.mp h
  simp only [Memory.length_toLE, length_hashBytes, Nat.add_assoc, Nat.reduceAdd] at hprevious hmerkle
  simp only [Memory.length_toLE, length_hashBytes, Nat.add_assoc, Nat.reduceAdd] at htime hbits hnonce
  unfold readHeader
  rw [hversion.word (Nat.lt_succ_of_le hw.version), readHash_of_holds hprevious,
    readHash_of_holds hmerkle, htime.word (Nat.lt_succ_of_le hw.timestamp),
    hbits.word (Nat.lt_succ_of_le hw.bits), hnonce.word (Nat.lt_succ_of_le hw.nonce)]

/-! ## 2. Records -/

variable (codec : SizeCodec)

/-- The size `store` asks for. -/
def recordSize (b : Block) : Nat :=
  headerSize + 4 + codec.size b.transactions.length + b.transactions.length * 32

/-- What `store` writes. -/
def recordBytes (b : Block) (height : Nat) : List UInt8 :=
  headerBytes b.header ++ (Memory.toLE 4 height ++ (codec.write b.transactions.length ++
    b.transactions.flatMap fun tx => hashBytes tx.hash))

/-- A block has the widths of its record, and its slab is no larger than an object. -/
structure Block.Wire (b : Block) : Prop where
  header : b.header.Wire
  count : b.transactions.length ≤ maxSize
  size : 40 + recordSize codec b ≤ maxObject

/-- **The record fills the size that is asked for.** -/
theorem length_recordBytes {b : Block} (hb : b.transactions.length ≤ maxSize) (height : Nat) :
    (recordBytes codec b height).length = recordSize codec b := by
  have hhashes : (b.transactions.flatMap fun tx => hashBytes tx.hash).length =
      b.transactions.length * 32 := by
    induction b.transactions with
    | nil => rfl
    | cons tx txs ih =>
        rw [List.flatMap_cons, List.length_append, length_hashBytes, ih, List.length_cons, Nat.succ_mul,
          Nat.add_comm]
  unfold recordBytes recordSize
  simp only [List.length_append, length_headerBytes, Memory.length_toLE, hhashes,
    codec.length_write _ hb]
  omega

/-- The memory of a result with the address of the slab, and the hash. -/
structure BlockRecord where
  memory : Memory
  slab : Nat
  hash : HashDigest

namespace BlockRecord

def versionOffset : Nat := 0

def timeOffset : Nat := 4 + 32 + 32

def bitsOffset : Nat := timeOffset + 4

def heightOffset : Nat := bitsOffset + 4 + 4

def countOffset : Nat := heightOffset + 4

def header (r : BlockRecord) : Header := readHeader r.memory r.slab r.hash

def height (r : BlockRecord) : Nat := r.memory.readWord (r.slab + heightOffset) 4

def bits (r : BlockRecord) : Nat := r.memory.readWord (r.slab + bitsOffset) 4

def timestamp (r : BlockRecord) : Nat := r.memory.readWord (r.slab + timeOffset) 4

def version (r : BlockRecord) : Nat := r.memory.readWord (r.slab + versionOffset) 4

def transactionCount (r : BlockRecord) : Nat := (codec.read r.memory (r.slab + countOffset)).1

def transactionHash (r : BlockRecord) (index : Nat) : HashDigest :=
  let (_, a) := codec.read r.memory (r.slab + countOffset)
  readHash r.memory (a + index * 32)

end BlockRecord

/-- **The readers answer for a block** at a height. -/
structure Answers (r : BlockRecord) (b : Block) (height : Nat) : Prop where
  hash : r.hash = b.header.hash
  header : r.header = b.header
  version : r.version = b.header.version
  timestamp : r.timestamp = b.header.timestamp
  bits : r.bits = b.header.bits
  height : r.height = height
  transactionCount : r.transactionCount codec = b.transactions.length
  transactionHash : ∀ (i : Nat) (hi : i < b.transactions.length),
    r.transactionHash codec i = b.transactions[i].hash

variable {codec}

/-- **Where the record of a block stands** the readers answer for it. -/
theorem BlockRecord.answers {m : Memory} {a : Nat} {b : Block} (hw : b.Wire codec) {height : Nat}
    (hheight : height ≤ maxUint32) (h : m.Holds a (recordBytes codec b height)) :
    Answers codec ⟨m, a, b.header.hash⟩ b height := by
  obtain ⟨hheader, h⟩ := Memory.holds_append.mp h
  obtain ⟨hword, h⟩ := Memory.holds_append.mp h
  obtain ⟨hcount, hhashes⟩ := Memory.holds_append.mp h
  rw [length_headerBytes] at hword hcount hhashes
  rw [Memory.length_toLE] at hcount hhashes
  have hread := readHeader_of_holds hw.header hheader b.header.hash
  have hcodec := codec.reads _ hw.count m _ hcount
  -- the readers of single fields read what the header reads
  exact
    { hash := rfl
      header := hread
      version := congrArg Header.version hread
      timestamp := congrArg Header.timestamp hread
      bits := congrArg Header.bits hread
      height := hword.word (Nat.lt_succ_of_le hheight)
      transactionCount := congrArg Prod.fst hcodec
      transactionHash := fun i hi => by
        unfold BlockRecord.transactionHash
        show (match codec.read m (a + headerSize + 4) with
          | (_, a') => readHash m (a' + i * 32)) = _
        rw [hcodec]
        exact readHash_of_holds (hhashes.getElem (fun _ => length_hashBytes _) hi) }

end Libbitcoin.Database
