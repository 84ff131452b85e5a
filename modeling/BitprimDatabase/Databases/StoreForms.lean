/-
  File:      BitprimDatabase/Databases/StoreForms.lean
  Subject:   THE STORE FORM OF A TRANSACTION (transaction_result.cpp, transaction_database.cpp), as
             the core library writes and reads it:

      [ version:4 ] [ locktime:4 ] [ count ] [ output ] ... [ output ] [ inputs ]
      an output:  [ spender height:4 ] [ value:8 ] [ size ] [ script ]

             with the height and position the table puts in front of it.

  * `SizeCodec`, `StoreForm` -- what belongs to the core library: the integers of variable size, the
    bytes of the inputs;
  * `TransactionResult` -- the readers of a slab, each with its own skips;
  * `Laid` -- a slab stands at an address; **`Laid.isSpent_eq`**, **`Laid.output_eq`**,
    **`Laid.transaction_eq`** -- the readers then answer for the slab;
  * **`Laid.spender`** -- the four bytes of one spender height, between what stays.
-/
import BitprimDatabase.Databases.TransactionDatabase
import BitprimDatabase.Databases.WireForms

namespace Libbitcoin.Database

open Lib

/-! ## 1. The core library -/

/-- **The integers of variable size**: what is written is as long as `variable_uint_size` says, and is
    read back. -/
structure SizeCodec where
  size : Nat → Nat
  write : Nat → List UInt8
  read : Reader Nat
  length_write : ∀ n ≤ maxSize, (write n).length = size n
  reads : ∀ n ≤ maxSize, read.Reads n (write n)

/-- The fields have the types of the source. -/
structure Input.Wire (input : Input) : Prop where
  index : input.previousOutput.index ≤ maxUint32
  script : input.script.length ≤ maxSize
  sequence : input.sequence ≤ maxUint32

structure Output.Wire (output : Output) : Prop where
  spenderHeight : output.spenderHeight ≤ maxUint32
  value : output.value ≤ maxSize
  script : output.script.length ≤ maxSize

/-- **The store form**: the integers and the inputs, which are read back. -/
structure StoreForm extends SizeCodec where
  writeInputs : List Input → List UInt8
  readInputs : Reader (List Input)
  readsInputs : ∀ inputs : List Input, inputs.length ≤ maxSize → (∀ input ∈ inputs, input.Wire) →
    readInputs.Reads inputs (writeInputs inputs)

/-- The fields of a slab have the widths of its layout. -/
structure TransactionSlab.Wire (slab : TransactionSlab) : Prop where
  height : slab.height ≤ maxUint32
  position : slab.position ≤ maxUint32
  version : slab.version ≤ maxUint32
  locktime : slab.locktime ≤ maxUint32
  outputCount : slab.outputs.length ≤ maxSize
  outputs : ∀ o ∈ slab.outputs, o.Wire
  inputCount : slab.inputs.length ≤ maxSize
  inputs : ∀ input ∈ slab.inputs, input.Wire

/-! ## 2. The bytes of a slab -/

variable (form : StoreForm)

/-- `output::to_data` in store form. -/
def outputBytes (o : Output) : List UInt8 :=
  Memory.toLE 4 o.spenderHeight ++ (Memory.toLE 8 o.value ++ (form.write o.script.length ++ o.script))

/-- `transaction::to_data` in store form. -/
def transactionBytes (version locktime : Nat) (outputs : List Output) (inputs : List Input) :
    List UInt8 :=
  Memory.toLE 4 version ++ (Memory.toLE 4 locktime ++ (form.write outputs.length ++
    (outputs.flatMap (outputBytes form) ++ form.writeInputs inputs)))

/-- What `store` writes. -/
def slabBytes (slab : TransactionSlab) : List UInt8 :=
  Memory.toLE 4 slab.height ++ (Memory.toLE 4 slab.position ++
    transactionBytes form slab.version slab.locktime slab.outputs slab.inputs)

/-- `output::from_data` in store form. -/
def readOutput : Reader Output := fun m a =>
  let spenderHeight := m.readWord a 4
  let value := m.readWord (a + 4) 8
  let (size, a) := form.read m (a + 4 + 8)
  (⟨spenderHeight, value, m.read a size⟩, a + size)

/-- The skip of an output: height and value, then the script. -/
def skipOutput (m : Memory) (a : Nat) : Nat :=
  let (size, a) := form.read m (a + (4 + 8))
  a + size

namespace TransactionResult

variable (m : Memory) (slab : Nat)

def height : Nat := m.readWord slab 4

def position : Nat := m.readWord (slab + 4) 4

/-- The loop of `is_spent`; the counter has four bytes. -/
def isSpentFrom (outputs forkHeight : Nat) : Nat → Nat → Nat → Option Bool
  | 0, _, _ => none
  | fuel + 1, output, a =>
    if output < outputs then
      let spenderHeight := m.readWord a 4
      if spenderHeight == notSpent || decide (spenderHeight > forkHeight) then some false
      else
        let (size, a) := form.read m (a + 4 + 8)
        isSpentFrom outputs forkHeight fuel (u32 (output + 1)) (a + size)
    else some true

/-- `none` is a loop that does not end. -/
def isSpent (fuel forkHeight : Nat) : Option Bool :=
  if position m slab = unconfirmed then some false
  else
    let (outputs, a) := form.read m (slab + 4 + 4 + (4 + 4))
    isSpentFrom form m outputs forkHeight fuel 0 a

def output (index : Nat) : Output :=
  let (outputs, a) := form.read m (slab + 4 + 4 + 4 + 4)
  if index ≥ outputs then Output.invalid
  else (readOutput form m (skipMany (skipOutput form) m index a)).1

/-- `transaction::from_data`, with the hash the slab was found by. -/
def transaction (hash : HashDigest) : Transaction :=
  let a := slab + 4 + 4
  let version := m.readWord a 4
  let locktime := m.readWord (a + 4) 4
  let (count, a) := form.read m (a + 4 + 4)
  let (outputs, a) := Reader.many (readOutput form) count m a
  let (inputs, _) := form.readInputs m a
  ⟨hash, version, locktime, inputs, outputs, false⟩

end TransactionResult

/-! ## 3. A slab at an address -/

variable {form} {m : Memory} {a : Nat} {slab : TransactionSlab}

/-- **An output is read back, and skipped.** -/
theorem readOutput_reads {o : Output} (hw : o.Wire) :
    (readOutput form).Reads o (outputBytes form o) ∧ ∀ m a, Memory.Holds m a (outputBytes form o) →
      skipOutput form m a = a + (outputBytes form o).length ∧
        m.readWord a 4 = o.spenderHeight ∧ form.read m (a + 4 + 8) =
          (o.script.length, a + 4 + 8 + (form.write o.script.length).length) := by
  have key (m : Memory) (a : Nat) (h : m.Holds a (outputBytes form o)) :
      m.readWord a 4 = o.spenderHeight ∧ m.readWord (a + 4) 8 = o.value ∧ form.read m (a + 4 + 8) =
        (o.script.length, a + 4 + 8 + (form.write o.script.length).length) ∧
          m.Holds (a + 4 + 8 + (form.write o.script.length).length) o.script := by
    obtain ⟨hspender, h⟩ := Memory.holds_append.mp h
    obtain ⟨hvalue, h⟩ := Memory.holds_append.mp h
    obtain ⟨hsize, hscript⟩ := Memory.holds_append.mp h
    rw [Memory.length_toLE] at hvalue hsize hscript
    rw [Memory.length_toLE] at hsize hscript
    exact ⟨hspender.word (Nat.lt_succ_of_le hw.spenderHeight),
      hvalue.word (Nat.lt_succ_of_le hw.value), form.reads _ hw.script m _ hsize, hscript⟩
  have hlen : (outputBytes form o).length =
      4 + 8 + (form.write o.script.length).length + o.script.length := by
    simp only [outputBytes, List.length_append, Memory.length_toLE]
    omega
  refine ⟨fun m a h => ?_, fun m a h => ?_⟩
  · obtain ⟨hspender, hvalue, hsize, hscript⟩ := key m a h
    unfold readOutput
    rw [hsize, hspender, hvalue, hlen]
    refine Prod.ext ?_ (by dsimp only; omega)
    show (⟨_, _, m.read _ _⟩ : Output) = o
    rw [hscript]
  · obtain ⟨hspender, _, hsize, _⟩ := key m a h
    refine ⟨?_, hspender, hsize⟩
    unfold skipOutput
    rw [show a + (4 + 8) = a + 4 + 8 from (Nat.add_assoc ..).symm, hsize, hlen]
    dsimp only
    omega

/-- A slab stands at the address. -/
structure Laid (form : StoreForm) (m : Memory) (a : Nat) (slab : TransactionSlab) : Prop where
  wire : slab.Wire
  holds : m.Holds a (slabBytes form slab)

/-- Where the outputs start. -/
def outputsOffset (form : StoreForm) (slab : TransactionSlab) : Nat :=
  16 + (form.write slab.outputs.length).length

/-- Where the spender height of an output stands. -/
def spenderOffset (form : StoreForm) (slab : TransactionSlab) (index : Nat) : Nat :=
  outputsOffset form slab + ((slab.outputs.take index).flatMap (outputBytes form)).length

/-- The parts of a slab. -/
theorem Laid.parts (h : Laid form m a slab) : m.readWord a 4 = slab.height ∧
    m.readWord (a + 4) 4 = slab.position ∧ m.readWord (a + 8) 4 = slab.version ∧
      m.readWord (a + 12) 4 = slab.locktime ∧
        form.read m (a + 16) = (slab.outputs.length, a + outputsOffset form slab) ∧
          m.Holds (a + outputsOffset form slab)
            (slab.outputs.flatMap (outputBytes form) ++ form.writeInputs slab.inputs) := by
  obtain ⟨hheight, hrest⟩ := Memory.holds_append.mp h.holds
  obtain ⟨hposition, hrest⟩ := Memory.holds_append.mp hrest
  obtain ⟨hversion, hrest⟩ := Memory.holds_append.mp hrest
  obtain ⟨hlocktime, hrest⟩ := Memory.holds_append.mp hrest
  obtain ⟨hcount, hrest⟩ := Memory.holds_append.mp hrest
  simp only [Memory.length_toLE, Nat.add_assoc, Nat.reduceAdd] at hposition hversion hlocktime
  simp only [Memory.length_toLE, Nat.add_assoc, Nat.reduceAdd] at hcount hrest
  refine ⟨hheight.word (Nat.lt_succ_of_le h.wire.height),
    hposition.word (Nat.lt_succ_of_le h.wire.position),
    hversion.word (Nat.lt_succ_of_le h.wire.version),
    hlocktime.word (Nat.lt_succ_of_le h.wire.locktime), ?_, ?_⟩
  · rw [form.reads _ h.wire.outputCount m _ hcount, outputsOffset, Nat.add_assoc]
  · unfold outputsOffset
    rwa [← Nat.add_assoc] at hrest ⊢

theorem Laid.outputs (h : Laid form m a slab) :
    m.Holds (a + outputsOffset form slab) (slab.outputs.flatMap (outputBytes form)) :=
  (Memory.holds_append.mp h.parts.2.2.2.2.2).1

/-- The skips lead to the output at an index. -/
theorem Laid.skip_eq (h : Laid form m a slab) {index : Nat} (hi : index ≤ slab.outputs.length) :
    skipMany (skipOutput form) m index (a + outputsOffset form slab) =
      a + spenderOffset form slab index := by
  have hsplit : slab.outputs.take index ++ slab.outputs.drop index = slab.outputs :=
    List.take_append_drop ..
  have hheld := h.outputs
  rw [← hsplit, List.flatMap_append] at hheld
  obtain ⟨hfront, _⟩ := Memory.holds_append.mp hheld
  have hskip := skipMany_eq (fun o ho b hb => ((readOutput_reads
    (h.wire.outputs o (List.mem_of_mem_take ho))).2 m b hb).1) hfront
  rw [List.length_take, Nat.min_eq_left hi] at hskip
  rw [hskip, spenderOffset, Nat.add_assoc]

/-- An output of the slab stands behind those in front of it. -/
theorem Laid.output_holds (h : Laid form m a slab) {index : Nat} (hi : index < slab.outputs.length) :
    m.Holds (a + spenderOffset form slab index) (outputBytes form slab.outputs[index]) := by
  have hsplit : slab.outputs.take index ++ slab.outputs[index] :: slab.outputs.drop (index + 1) =
      slab.outputs := by
    rw [← List.drop_eq_getElem_cons hi, List.take_append_drop]
  have hheld := h.outputs
  rw [← hsplit, List.flatMap_append, List.flatMap_cons] at hheld
  obtain ⟨_, hback⟩ := Memory.holds_append.mp hheld
  rw [Nat.add_assoc] at hback
  exact (Memory.holds_append.mp hback).1

theorem Laid.height_eq (h : Laid form m a slab) : TransactionResult.height m a = slab.height :=
  h.parts.1

theorem Laid.position_eq (h : Laid form m a slab) :
    TransactionResult.position m a = slab.position := h.parts.2.1

/-- **`output`** answers the output of the slab. -/
theorem Laid.output_eq (h : Laid form m a slab) (index : Nat) :
    TransactionResult.output form m a index = slab.output index := by
  have hcount := h.parts.2.2.2.2.1
  unfold TransactionResult.output TransactionSlab.output
  rw [show a + 4 + 4 + 4 + 4 = a + 16 by omega, hcount]
  dsimp only
  by_cases hi : index < slab.outputs.length
  · rw [if_neg (Nat.not_le.mpr hi), h.skip_eq (Nat.le_of_lt hi),
      (readOutput_reads (h.wire.outputs _ (List.getElem_mem hi))).1 m _ (h.output_holds hi),
      List.getElem?_eq_getElem hi]
    rfl
  · rw [if_pos (Nat.le_of_not_lt hi), List.getElem?_eq_none (Nat.le_of_not_lt hi)]
    rfl

/-- **`transaction`** answers the transaction of the slab. -/
theorem Laid.transaction_eq (h : Laid form m a slab) (hash : HashDigest) :
    TransactionResult.transaction form m a hash = slab.transaction hash := by
  obtain ⟨_, _, hversion, hlocktime, hcount, hheld⟩ := h.parts
  obtain ⟨houtputs, hinputs⟩ := Memory.holds_append.mp hheld
  have hmany := Reader.many_reads (fun o ho => (readOutput_reads (h.wire.outputs o ho)).1) m _ houtputs
  have hread := form.readsInputs _ h.wire.inputCount h.wire.inputs m _ hinputs
  unfold TransactionResult.transaction TransactionSlab.transaction
  rw [show a + 4 + 4 = a + 8 by omega]
  show (match form.read m (a + 8 + 4 + 4) with
    | (count, a') => match Reader.many (readOutput form) count m a' with
      | (outputs, a') => match form.readInputs m a' with
        | (inputs, _) =>
          (⟨hash, m.readWord (a + 8) 4, m.readWord (a + 8 + 4) 4, inputs, outputs, false⟩ :
            Transaction)) = _
  rw [show a + 8 + 4 = a + 12 by omega, show a + 12 + 4 = a + 16 by omega, hversion, hlocktime,
    hcount]
  show (match Reader.many (readOutput form) slab.outputs.length m _ with
    | (outputs, a') => match form.readInputs m a' with
      | (inputs, _) => (⟨hash, slab.version, slab.locktime, inputs, outputs, false⟩ :
          Transaction)) = _
  rw [hmany]
  show (match form.readInputs m _ with
    | (inputs, _) => (⟨hash, slab.version, slab.locktime, inputs, slab.outputs, false⟩ :
        Transaction)) = _
  rw [hread]

/-- An output counts as spent at a fork height. -/
def Output.spentAt (forkHeight : Nat) (o : Output) : Bool :=
  !(o.spenderHeight == notSpent || decide (o.spenderHeight > forkHeight))

/-- The loop of `is_spent` over the outputs from one on. Its counter starts over after four bytes, so
    the loop gets past the last output only where they count it. -/
theorem isSpentFrom_eq {outputs : List Output} (hw : ∀ o ∈ outputs, o.Wire) {output count : Nat}
    (hcount : output + outputs.length = count) {forkHeight : Nat}
    (hmax : count ≤ maxUint32 ∨ outputs.all (Output.spentAt forkHeight) = false)
    {fuel : Nat} (hf : outputs.length < fuel) (hm : m.Holds a (outputs.flatMap (outputBytes form))) :
    TransactionResult.isSpentFrom form m count forkHeight fuel (u32 output) a =
      some (outputs.all (Output.spentAt forkHeight)) := by
  induction outputs generalizing output fuel a with
  | nil =>
      cases fuel with
      | zero => exact absurd hf (Nat.not_lt_zero _)
      | succ fuel =>
          have hcount : output = count := hcount
          have hmax : count ≤ maxUint32 := hmax.resolve_right nofun
          unfold TransactionResult.isSpentFrom
          rw [hcount, u32_of_le hmax, if_neg (Nat.lt_irrefl _)]
          rfl
  | cons o outputs ih =>
      cases fuel with
      | zero => exact absurd hf (Nat.not_lt_zero _)
      | succ fuel =>
          obtain ⟨ho, hos⟩ := List.forall_mem_cons.mp hw
          rw [List.length_cons] at hcount hf
          rw [List.flatMap_cons] at hm
          obtain ⟨hhead, hrest⟩ := Memory.holds_append.mp hm
          obtain ⟨hskip, hspender, hsize⟩ := (readOutput_reads ho).2 m a hhead
          have hcounter : u32 output ≤ output := Nat.mod_le ..
          unfold TransactionResult.isSpentFrom
          rw [if_pos (by omega), hspender, hsize, List.all_cons]
          by_cases hs : (o.spenderHeight == notSpent || decide (o.spenderHeight > forkHeight)) = true
          · rw [show o.spentAt forkHeight = false by rw [Output.spentAt, hs]; rfl]
            exact if_pos hs
          · have hspent : o.spentAt forkHeight = true := by
              rw [Output.spentAt, Bool.eq_false_iff.mpr hs]
              rfl
            have hmax : count ≤ maxUint32 ∨ outputs.all (Output.spentAt forkHeight) = false := by
              rwa [List.all_cons, hspent, Bool.true_and] at hmax
            have hnext : a + 4 + 8 + (form.write o.script.length).length + o.script.length =
                a + (outputBytes form o).length := by
              unfold skipOutput at hskip
              rw [show a + (4 + 8) = a + 4 + 8 from (Nat.add_assoc ..).symm, hsize] at hskip
              exact hskip
            have hloop : TransactionResult.isSpentFrom form m count forkHeight fuel
                (u32 (output + 1)) (a + (outputBytes form o).length) =
                  some (outputs.all (Output.spentAt forkHeight)) :=
              ih hos (by omega) hmax (by omega) hrest
            have hwrap : u32 (u32 output + 1) = u32 (output + 1) := Nat.mod_add_mod ..
            rw [hspent, Bool.true_and, ← hloop, ← hnext, ← hwrap]
            exact if_neg hs

/-- Where four bytes do not count the outputs the loop never gets past them. -/
theorem isSpentFrom_wraps {outputs : Nat} (hmax : maxUint32 < outputs) (forkHeight fuel : Nat)
    {output : Nat} (ho : output ≤ maxUint32) :
    TransactionResult.isSpentFrom form m outputs forkHeight fuel output a ≠ some true := by
  induction fuel generalizing output a with
  | zero => exact nofun
  | succ fuel ih =>
      unfold TransactionResult.isSpentFrom
      rw [if_pos (Nat.lt_of_le_of_lt ho hmax)]
      dsimp only
      split
      · exact nofun
      · exact ih (u32_le _)

/-- **`is_spent`** answers whether every output of the slab is spent at the height, where four bytes
    count the outputs or one of them is not. -/
theorem Laid.isSpent_eq (h : Laid form m a slab) {forkHeight : Nat}
    (hmax : slab.outputs.length ≤ maxUint32 ∨ slab.isSpent forkHeight = false) {fuel : Nat}
    (hf : slab.outputs.length < fuel) :
    TransactionResult.isSpent form m a fuel forkHeight = some (slab.isSpent forkHeight) := by
  unfold TransactionSlab.isSpent at hmax ⊢
  unfold TransactionResult.isSpent
  rw [h.position_eq]
  split
  · rfl
  · rename_i hp
    rw [if_neg hp] at hmax
    rw [show a + 4 + 4 + (4 + 4) = a + 16 by omega, h.parts.2.2.2.2.1]
    exact isSpentFrom_eq h.wire.outputs (Nat.zero_add _) hmax hf h.outputs

/-- **Past four bytes of outputs `is_spent` never holds.** -/
theorem Laid.isSpent_wraps (h : Laid form m a slab) (hmax : maxUint32 < slab.outputs.length)
    (fuel forkHeight : Nat) : TransactionResult.isSpent form m a fuel forkHeight ≠ some true := by
  unfold TransactionResult.isSpent
  split
  · exact nofun
  · rw [show a + 4 + 4 + (4 + 4) = a + 16 by omega, h.parts.2.2.2.2.1]
    exact isSpentFrom_wraps hmax forkHeight fuel (Nat.zero_le _)

/-! ## 4. The fields that are rewritten -/

/-- The bytes of a stored transaction. -/
theorem slabBytes_toSlab (form : StoreForm) (tx : Transaction) (height position : Nat) :
    slabBytes form (tx.toSlab height position) = Memory.toLE 4 height ++ (Memory.toLE 4 position ++
      transactionBytes form tx.version tx.locktime tx.outputs tx.inputs) := by
  have hword (n : Nat) : Memory.toLE 4 (u32 n) = Memory.toLE 4 n := Memory.toLE_mod 4 n
  have houtputs : (tx.outputs.map Output.toStore).flatMap (outputBytes form) =
      tx.outputs.flatMap (outputBytes form) := by
    rw [List.flatMap_map]
    exact List.flatMap_congr fun o _ => congrArg (· ++ _) (hword o.spenderHeight)
  show Memory.toLE 4 (u32 height) ++ (Memory.toLE 4 (u32 position) ++ transactionBytes form tx.version
    tx.locktime (tx.outputs.map Output.toStore) tx.inputs) = _
  unfold transactionBytes
  rw [hword, hword, houtputs, List.length_map]

theorem TransactionSlab.Wire.confirm (h : slab.Wire) (height position : Nat) :
    (slab.confirm height position).Wire :=
  { h with height := u32_le height, position := u32_le position }

theorem TransactionSlab.Wire.spend (h : slab.Wire) (index spenderHeight : Nat) :
    (slab.spend index spenderHeight).Wire := by
  refine { h with outputCount := ?_, outputs := fun o ho => ?_ }
  · exact (List.length_modify ..).trans_le h.outputCount
  · have ho : o ∈ slab.outputs.modify index fun o =>
        { o with spenderHeight := u32 spenderHeight } := ho
    obtain ⟨i, hi, rfl⟩ := List.mem_iff_getElem.mp ho
    rw [List.length_modify] at hi
    have hold := h.outputs _ (List.getElem_mem hi)
    rw [List.getElem_modify]
    split
    · exact { hold with spenderHeight := u32_le spenderHeight }
    · exact hold

/-- A mark leaves every field where it stands. -/
theorem spenderOffset_spend (form : StoreForm) (slab : TransactionSlab)
    (index spenderHeight i : Nat) :
    spenderOffset form (slab.spend index spenderHeight) i = spenderOffset form slab i := by
  have hlen (outputs : List Output) (index : Nat) : ((outputs.modify index fun o =>
      { o with spenderHeight := u32 spenderHeight }).flatMap (outputBytes form)).length =
        (outputs.flatMap (outputBytes form)).length := by
    induction outputs generalizing index with
    | nil => rw [List.modify_nil]
    | cons o outputs ih =>
        cases index with
        | zero =>
            rw [List.modify_zero_cons, List.flatMap_cons, List.flatMap_cons, List.length_append,
              List.length_append]
            simp [outputBytes]
        | succ index =>
            rw [List.modify_succ_cons, List.flatMap_cons, List.flatMap_cons, List.length_append,
              List.length_append, ih]
  unfold spenderOffset outputsOffset
  show 16 + (form.write (slab.outputs.modify index _).length).length +
    (((slab.outputs.modify index _).take i).flatMap _).length = _
  rw [List.length_modify, List.take_modify, hlen]

/-- **The four bytes of a spender height**, between what stays. -/
theorem Laid.spender (h : Laid form m a slab) {index : Nat} (hi : index < slab.outputs.length)
    (spenderHeight : Nat) :
    m.write a (slabBytes form (slab.spend index spenderHeight)) =
      m.writeWord (a + spenderOffset form slab index) 4 spenderHeight ∧
        (slabBytes form (slab.spend index spenderHeight)).length = (slabBytes form slab).length := by
  have hsplit : slab.outputs =
      slab.outputs.take index ++ slab.outputs[index] :: slab.outputs.drop (index + 1) := by
    rw [← List.drop_eq_getElem_cons hi, List.take_append_drop]
  have hspend : (slab.spend index spenderHeight).outputs = slab.outputs.take index ++
      { slab.outputs[index] with spenderHeight := u32 spenderHeight } ::
        slab.outputs.drop (index + 1) := by
    refine (List.modify_eq_take_cons_drop hi).trans ?_
    rfl
  have hcount : (slab.spend index spenderHeight).outputs.length = slab.outputs.length :=
    List.length_modify ..
  -- the slab with any four bytes in place of the spender height
  let front := Memory.toLE 4 slab.height ++ (Memory.toLE 4 slab.position ++
    (Memory.toLE 4 slab.version ++ (Memory.toLE 4 slab.locktime ++
      (form.write slab.outputs.length ++ (slab.outputs.take index).flatMap (outputBytes form)))))
  let back := Memory.toLE 8 slab.outputs[index].value ++
    (form.write slab.outputs[index].script.length ++ slab.outputs[index].script) ++
      ((slab.outputs.drop (index + 1)).flatMap (outputBytes form) ++ form.writeInputs slab.inputs)
  have hold : slabBytes form slab =
      front ++ (Memory.toLE 4 slab.outputs[index].spenderHeight ++ back) := by
    unfold slabBytes transactionBytes
    conv_lhs => rw [show slab.outputs.flatMap (outputBytes form) =
      (slab.outputs.take index).flatMap (outputBytes form) ++
        (outputBytes form slab.outputs[index] ++
          (slab.outputs.drop (index + 1)).flatMap (outputBytes form)) by
        conv_lhs => rw [hsplit, List.flatMap_append, List.flatMap_cons]]
    simp only [front, back, outputBytes, List.append_assoc]
  have hnew : slabBytes form (slab.spend index spenderHeight) =
      front ++ (Memory.toLE 4 spenderHeight ++ back) := by
    unfold slabBytes transactionBytes
    rw [hcount, hspend, List.flatMap_append, List.flatMap_cons]
    simp only [front, back, outputBytes, List.append_assoc]
    rw [show Memory.toLE 4 (u32 spenderHeight) = Memory.toLE 4 spenderHeight from
      Memory.toLE_mod 4 spenderHeight]
    rfl
  have hlen : front.length = spenderOffset form slab index := by
    simp only [front, spenderOffset, outputsOffset, List.length_append, Memory.length_toLE]
    omega
  have hheld := h.holds
  rw [hold] at hheld
  refine ⟨?_, ?_⟩
  · rw [hnew, hheld.write_part (by simp), hlen]
    rfl
  · rw [hnew, hold]
    simp

/-- **The height and position in front**, rewritten. -/
theorem Laid.placed (h : Laid form m a slab) (height position : Nat) :
    m.write a (slabBytes form (slab.confirm height position)) =
      (m.writeWord a 4 height).writeWord (a + 4) 4 position ∧
        (slabBytes form (slab.confirm height position)).length = (slabBytes form slab).length := by
  have hnew : slabBytes form (slab.confirm height position) =
      (Memory.toLE 4 height ++ Memory.toLE 4 position) ++
        transactionBytes form slab.version slab.locktime slab.outputs slab.inputs := by
    unfold slabBytes TransactionSlab.confirm
    dsimp only
    rw [show Memory.toLE 4 (u32 height) = Memory.toLE 4 height from Memory.toLE_mod 4 height,
      show Memory.toLE 4 (u32 position) = Memory.toLE 4 position from Memory.toLE_mod 4 position,
      List.append_assoc]
  have hheld := h.holds
  rw [show slabBytes form slab = [] ++ ((Memory.toLE 4 slab.height ++ Memory.toLE 4 slab.position) ++
    transactionBytes form slab.version slab.locktime slab.outputs slab.inputs) by
      simp [slabBytes]] at hheld
  refine ⟨?_, ?_⟩
  · rw [hnew, ← List.nil_append (_ ++ _ ++ _), hheld.write_part (by simp), Memory.write_append]
    rfl
  · rw [hnew]
    simp [slabBytes]

/-! ## 5. The forms of the core library -/

/-- `variable_uint_size`, `write_variable_little_endian`, `read_size_little_endian`. -/
def variableSize (n : Nat) : Nat :=
  if n < 0xfd then 1 else if n ≤ 0xffff then 3 else if n ≤ 0xffffffff then 5 else 9

def writeVariable (n : Nat) : List UInt8 :=
  if n < 0xfd then Memory.toLE 1 n
  else if n ≤ 0xffff then 0xfd :: Memory.toLE 2 n
  else if n ≤ 0xffffffff then 0xfe :: Memory.toLE 4 n
  else 0xff :: Memory.toLE 8 n

def readVariable : Reader Nat := fun m a =>
  if m a = 0xfd then (m.readWord (a + 1) 2, a + 3)
  else if m a = 0xfe then (m.readWord (a + 1) 4, a + 5)
  else if m a = 0xff then (m.readWord (a + 1) 8, a + 9)
  else (m.readWord a 1, a + 1)

theorem length_writeVariable (n : Nat) : (writeVariable n).length = variableSize n := by
  unfold writeVariable variableSize
  split
  · rfl
  · split
    · simp
    · split <;> simp

theorem readVariable_reads (n : Nat) (hn : n ≤ maxSize) :
    readVariable.Reads n (writeVariable n) := by
  -- a number behind its first byte
  have htag {m : Memory} {b : Nat} {tag : UInt8} {w : Nat} (hw : n < Memory.limit w)
      (h : m.Holds b (tag :: Memory.toLE w n)) : m b = tag ∧ m.readWord (b + 1) w = n := by
    obtain ⟨hhead, hword⟩ := Memory.holds_cons.mp h
    exact ⟨hhead, hword.word hw⟩
  intro m b h
  unfold writeVariable at h ⊢
  by_cases hsmall : n < 0xfd
  · rw [if_pos hsmall] at h ⊢
    have hbyte : m b = UInt8.ofNat (n % 256) := (Memory.holds_cons.mp h).1
    have hne (tag : UInt8) (ht : 0xfd ≤ tag.toNat) : m b ≠ tag := by
      rintro rfl
      rw [hbyte, UInt8.toNat_ofNat'] at ht
      omega
    unfold readVariable
    rw [if_neg (hne 0xfd (by decide)), if_neg (hne 0xfe (by decide)), if_neg (hne 0xff (by decide)),
      h.word (Nat.lt_trans hsmall (by decide))]
    rfl
  rw [if_neg hsmall] at h ⊢
  by_cases h16 : n ≤ 0xffff
  · rw [if_pos h16] at h ⊢
    obtain ⟨hhead, hword⟩ := htag (Nat.lt_of_le_of_lt h16 (by decide)) h
    unfold readVariable
    rw [if_pos hhead, hword, List.length_cons, Memory.length_toLE]
  rw [if_neg h16] at h ⊢
  by_cases h32 : n ≤ 0xffffffff
  · rw [if_pos h32] at h ⊢
    obtain ⟨hhead, hword⟩ := htag (Nat.lt_of_le_of_lt h32 (by decide)) h
    unfold readVariable
    rw [hhead, if_neg (by decide), if_pos rfl, hword, List.length_cons, Memory.length_toLE]
  · rw [if_neg h32] at h ⊢
    obtain ⟨hhead, hword⟩ := htag (Nat.lt_of_le_of_lt hn (by decide)) h
    unfold readVariable
    rw [hhead, if_neg (by decide), if_neg (by decide), if_pos rfl, hword, List.length_cons,
      Memory.length_toLE]

/-- The integers of variable size. -/
def SizeCodec.variable : SizeCodec where
  size := variableSize
  write := writeVariable
  read := readVariable
  length_write n _ := length_writeVariable n
  reads := readVariable_reads

/-- `input::to_data`. -/
def inputBytes (input : Input) : List UInt8 :=
  pointBytes input.previousOutput ++ (writeVariable input.script.length ++
    (input.script ++ Memory.toLE 4 input.sequence))

def readInput : Reader Input := fun m a =>
  let previousOutput := readPoint m a
  let (size, a) := readVariable m (a + 36)
  (⟨previousOutput, m.read a size, m.readWord (a + size) 4⟩, a + size + 4)

theorem readInput_reads {input : Input} (hw : input.Wire) :
    readInput.Reads input (inputBytes input) := by
  intro m b h
  obtain ⟨hpoint, h⟩ := Memory.holds_append.mp h
  obtain ⟨hsize, h⟩ := Memory.holds_append.mp h
  obtain ⟨hscript, hsequence⟩ := Memory.holds_append.mp h
  rw [length_pointBytes] at hsize hscript hsequence
  have hlen : (inputBytes input).length =
      36 + (writeVariable input.script.length).length + input.script.length + 4 := by
    simp only [inputBytes, List.length_append, Memory.length_toLE, length_pointBytes]
    omega
  unfold readInput
  rw [readVariable_reads _ hw.script m _ hsize, WirePoint.read ⟨_, hw.index⟩ hpoint, hlen]
  refine Prod.ext ?_ (by dsimp only; omega)
  show (⟨_, m.read _ _, m.readWord _ 4⟩ : Input) = input
  rw [hscript, hsequence.word (Nat.lt_succ_of_le hw.sequence)]

/-- The store form: the count of the inputs, and each of them. -/
def StoreForm.sample : StoreForm where
  toSizeCodec := .variable
  writeInputs inputs := writeVariable inputs.length ++ inputs.flatMap inputBytes
  readInputs m a :=
    let (count, a) := readVariable m a
    Reader.many readInput count m a
  readsInputs inputs hcount hw m a h := by
    obtain ⟨hsize, hinputs⟩ := Memory.holds_append.mp h
    dsimp only
    rw [readVariable_reads _ hcount m a hsize, List.length_append, ← Nat.add_assoc]
    exact Reader.many_reads (fun input hi => readInput_reads (hw input hi)) m _ hinputs

end Libbitcoin.Database
