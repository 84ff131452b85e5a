/-
  File:      BitprimDatabase/ChainTypes.lean
  Subject:   THE CHAIN OBJECTS the store reads, with the fields it reads, and what it calls in
             the core library. The core library is not part of the repository: a hash it computes
             (`tx.hash()`, `header.hash()`) is a field of the object, its functions on scripts
             and points are the fields of `Core`.
-/
import Mathlib.Data.List.Basic
import Mathlib.Logic.Basic

namespace Libbitcoin.Database

abbrev HashDigest := BitVec 256
abbrev ShortHash := BitVec 160
abbrev Script := List UInt8

/-- `max_uint32`. -/
def maxUint32 : Nat := 4294967295

/-- `max_size_t`. -/
def maxSize : Nat := 18446744073709551615

/-- What four bytes keep of a number (`write_4_bytes_little_endian`). -/
def u32 (n : Nat) : Nat := n % 4294967296

theorem u32_of_le {n : Nat} (h : n ≤ maxUint32) : u32 n = n :=
  Nat.mod_eq_of_lt (Nat.lt_succ_of_le h)

theorem u32_of_lt {n : Nat} (h : n < maxUint32) : u32 n = n := u32_of_le (Nat.le_of_lt h)

theorem u32_le (n : Nat) : u32 n ≤ maxUint32 := Nat.le_of_lt_succ (Nat.mod_lt n (by decide))

@[simp] theorem u32_maxUint32 : u32 maxUint32 = maxUint32 := rfl

@[simp] theorem u32_zero : u32 0 = 0 := rfl

/-- `null_hash`. -/
def nullHash : HashDigest := 0

/-- An `output_point` or an `input_point`. -/
structure Point where
  hash : HashDigest
  index : Nat
  deriving DecidableEq

/-- `point::is_null`: the null hash and the index `max_uint32`. -/
def Point.isNull (p : Point) : Bool := p.hash == nullHash && p.index == maxUint32

/-- `output::validation::not_spent`. -/
def notSpent : Nat := maxUint32

/-- An output; the spender height is validation metadata that the store form keeps. -/
structure Output where
  spenderHeight : Nat
  value : Nat
  script : Script
  deriving DecidableEq

/-- The default output (`value` not found). -/
def Output.invalid : Output := ⟨notSpent, maxSize, []⟩

structure Input where
  previousOutput : Point
  script : Script
  sequence : Nat
  deriving DecidableEq

/-- A transaction, its hash as the core library computes it, and the pooled validation flag. -/
structure Transaction where
  hash : HashDigest
  version : Nat
  locktime : Nat
  inputs : List Input
  outputs : List Output
  pooled : Bool
  deriving DecidableEq

/-- `transaction::is_coinbase`: one input, and its previous output is null. -/
def Transaction.isCoinbase (tx : Transaction) : Bool :=
  match tx.inputs with
  | [input] => input.previousOutput.isNull
  | _ => false

structure Header where
  hash : HashDigest
  version : Nat
  previousBlockHash : HashDigest
  merkle : HashDigest
  timestamp : Nat
  bits : Nat
  nonce : Nat
  deriving DecidableEq

structure Block where
  header : Header
  transactions : List Transaction
  deriving DecidableEq

/-- The transaction hashes of a block, in order. -/
def Block.hashes (b : Block) : List HashDigest := b.transactions.map Transaction.hash

/-- The previous outputs of the transactions behind the first one, in order. -/
def Block.previousOutputs (b : Block) : List Point :=
  (b.transactions.tail.flatMap Transaction.inputs).map Input.previousOutput

/-- **What the store calls in the core library**: payment address extraction and the stealth
    extractions (functions of the script), the point checksum, the rule fork `unverified`,
    `std::hash` of the three key types, the size of a transaction in store form, and how many
    transactions a vector can reserve. -/
class Core where
  address : Script → Option ShortHash
  ephemeralKey : Script → Option HashDigest
  stealthPrefix : Script → Option Nat
  checksum : Point → Nat
  unverified : Nat
  hashDigest : HashDigest → Nat
  hashShort : ShortHash → Nat
  hashPoint : Point → Nat
  transactionSize : Transaction → Nat
  transactionLimit : Nat

/-! ## Examples -/

/-- The core library on the inputs of the examples: the address of a pay-to-public-key-hash script,
    no stealth scripts, the checksum of 49 bits of the hash and 15 bits of the index. -/
@[reducible] def Core.sample : Core where
  address
    | 0x76 :: 0xa9 :: 0x14 :: rest =>
      if rest.length = 22 && rest.drop 20 = [0x88, 0xac] then
        some (BitVec.ofNat 160 ((rest.take 20).foldl (fun n b => 256 * n + b.toNat) 0))
      else none
    | _ => none
  ephemeralKey _ := none
  stealthPrefix _ := none
  checksum p :=
    p.hash.toNat / 2596148429267413814265248164610048 % 562949953421312 * 32768 + p.index % 32768
  unverified := 2147483648
  hashDigest h := h.toNat
  hashShort h := h.toNat
  hashPoint p := p.hash.toNat + p.index
  transactionSize tx := 10 + 41 * tx.inputs.length + 9 * tx.outputs.length
  transactionLimit := 57646075230342348

/-- A pay-to-public-key-hash script. -/
def Script.sample (n : UInt8) : Script :=
  [0x76, 0xa9, 0x14] ++ List.replicate 19 0 ++ [n, 0x88, 0xac]

/-- A coinbase with one output to an address. -/
def Transaction.sampleCoinbase (hash : HashDigest) (n : UInt8) : Transaction :=
  ⟨hash, 1, 0, [⟨⟨nullHash, maxUint32⟩, [], maxUint32⟩], [⟨notSpent, 50, Script.sample n⟩], false⟩

/-- A transaction that spends an output and has one of its own. -/
def Transaction.sampleSpend (hash : HashDigest) (previous : Point) (n : UInt8) : Transaction :=
  ⟨hash, 1, 0, [⟨previous, [], maxUint32⟩], [⟨notSpent, 50, Script.sample n⟩], false⟩

def Block.sample (hash previous : HashDigest) (transactions : List Transaction) : Block :=
  ⟨⟨hash, 1, previous, 0, 0, 0, 0⟩, transactions⟩

/-- A first block: the hash 1, with the transaction 101. -/
def Block.sampleGenesis : Block := .sample 1 nullHash [.sampleCoinbase 101 1]

end Libbitcoin.Database
