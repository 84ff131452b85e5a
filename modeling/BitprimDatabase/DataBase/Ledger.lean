/-
  File:      BitprimDatabase/DataBase/Ledger.lean
  Subject:   **THE LEDGER**: what the data base is for. A chain of blocks by height, the transactions
             that wait for a block, and the operations on them.

  * `perform` -- the operations on lists, without tables; `Allows` -- what they are given;
  * `Valid` -- a valid chain, and transactions that wait and are of none of its blocks;
  * **`ValidChain.settled_concat`**, **`ValidChain.settled_init`** -- what one more block spends, and
    that unspending it leaves the chain below.
-/
import BitprimDatabase.DataBase.Files
import BitprimDatabase.DataBase.ImportOrder
import BitprimDatabase.DataBase.StaleSpends
import BitprimDatabase.DataBase.Visible

namespace Libbitcoin.Database

open Lib

/-! ## 1. The machine -/

/-- The chain by height, the hashes of the transactions that wait, those of the blocks popped. -/
structure Ledger where
  chain : List Block
  waiting : List HashDigest
  popped : List HashDigest

namespace Ledger

def empty : Ledger := ⟨[], [], []⟩

/-- The hashes of the transactions of the chain. -/
def hashes (l : Ledger) : List HashDigest := l.chain.flatMap Block.hashes

def blockHashes (l : Ledger) : List HashDigest := l.chain.map fun b => b.header.hash

def top (l : Ledger) : Option Nat := if l.chain.length = 0 then none else some (l.chain.length - 1)

/-- The hash of the block on top. -/
def tipHash (l : Ledger) : HashDigest := (l.chain.getLast?.map fun b => b.header.hash).getD nullHash

/-- One more block; its transactions wait no longer. -/
def append (l : Ledger) (b : Block) : Ledger :=
  { l with chain := l.chain ++ [b], waiting := l.waiting.filter fun hash => !b.hashes.contains hash }

def push (l : Ledger) (b : Block) (height : Nat) : Ledger × Code :=
  if b.transactions.isEmpty then (l, .emptyBlock)
  else if l.chain.length ≠ height then (l, .storeBlockInvalidHeight)
  else if b.header.previousBlockHash ≠ l.tipHash then (l, .storeBlockMissingParent)
  else (l.append b, .success)

def insert (l : Ledger) (b : Block) (height : Nat) : Ledger × Code :=
  if b.transactions.isEmpty then (l, .emptyBlock)
  else if height < l.chain.length then (l, .storeBlockDuplicate)
  else (l.append b, .success)

def pushUnconfirmed (l : Ledger) (tx : Transaction) : Ledger × Code :=
  if (l.hashes ++ l.waiting).contains tx.hash then (l, .unspentDuplicate)
  else ({ l with waiting := tx.hash :: l.waiting }, .success)

/-- The blocks from a height on are popped. -/
def cut (l : Ledger) (height : Nat) : Ledger :=
  ⟨l.chain.take height, (l.chain.drop height).flatMap Block.hashes ++ l.waiting,
    ((l.chain.drop height).map fun b => b.header.hash) ++ l.popped⟩

def pop (l : Ledger) : Ledger × Option Block :=
  match l.chain.getLast? with
  | none => (l, none)
  | some b => (l.cut (l.chain.length - 1), some b)

/-- The height of the block with a hash. -/
def forkHeight (l : Ledger) (forkHash : HashDigest) : Option Nat :=
  l.chain.findIdx? fun b => b.header.hash == forkHash

def popAbove (l : Ledger) (forkHash : HashDigest) : Ledger × List Block × Option Code :=
  match l.forkHeight forkHash with
  | none => (l, [], some .operationFailed)
  | some height => (l.cut (height + 1), l.chain.drop (height + 1), some .success)

/-- The operation, and what it answers. -/
def perform (l : Ledger) : Op → Ledger × Answer
  | .pushUnconfirmed tx _ => ((l.pushUnconfirmed tx).1, .code (l.pushUnconfirmed tx).2)
  | .push b height => ((l.push b height).1, .code (l.push b height).2)
  | .insert b height => ((l.insert b height).1, .code (l.insert b height).2)
  | .pop => (l.pop.1, .popped l.pop.2)
  | .popAbove forkHash =>
    ((l.popAbove forkHash).1, .above (l.popAbove forkHash).2.1 (l.popAbove forkHash).2.2)

/-! ## 2. What it is given -/

variable (content : HashDigest → Content)

/-- **A block continues the chain.** -/
structure Takes (l : Ledger) (b : Block) : Prop where
  valid : ValidChain (l.chain ++ [b])
  coinbaseFirst : b.CoinbaseFirst
  unspent : b.ArrivesUnspent
  genuine : b.Genuine content

/-- An output of a transaction of the chain is not spent. -/
def HasUnspent (l : Ledger) (hash : HashDigest) : Prop :=
  ∃ b ∈ l.chain, ∃ tx ∈ b.transactions, tx.hash = hash ∧ ∃ i < tx.outputs.length,
    (⟨hash, i⟩ : Point) ∉ l.chain.flatMap Block.previousOutputs

/-- **The guard of an operation**: a block that passes the checks continues the chain, and is not
    inserted above a gap; no transaction of the chain comes again once all its outputs are spent; a
    fork is not named by a block that was popped, unless it is back. -/
def Allows (l : Ledger) : Op → Prop
  | .pushUnconfirmed tx _ => Genuine content tx ∧ (∀ o ∈ tx.outputs, o.spenderHeight = notSpent) ∧
    (tx.hash ∈ l.hashes → l.HasUnspent tx.hash)
  | .push b height => (l.push b height).2 = .success → l.Takes content b
  | .insert b height => height ≤ l.chain.length ∧
    ((l.insert b height).2 = .success → l.Takes content b)
  | .pop => True
  | .popAbove forkHash => forkHash ∈ l.popped → forkHash ∈ l.blockHashes

/-- **What every operation keeps.** -/
structure Valid (l : Ledger) : Prop where
  chain : ValidChain l.chain
  coinbaseFirst : ∀ b ∈ l.chain, b.CoinbaseFirst
  unspent : ∀ b ∈ l.chain, b.ArrivesUnspent
  genuine : ∀ b ∈ l.chain, b.Genuine content
  apart : ∀ hash ∈ l.waiting, hash ∉ l.hashes

end Ledger

/-! ## 3. One block more or less -/

theorem Block.exists_at {b : Block} {hash : HashDigest} (h : hash ∈ b.hashes) :
    ∃ t ∈ b.transactions.zipIdx, t.1.hash = hash := by
  obtain ⟨tx, htx, rfl⟩ := List.mem_map.mp h
  obtain ⟨i, hi⟩ := exists_zipIdx htx
  exact ⟨(tx, i), hi, rfl⟩

theorem Block.ArrivesUnspent.stored {b : Block} (h : b.ArrivesUnspent) {t : Transaction × Nat}
    (ht : t ∈ b.transactions.zipIdx) (height position : Nat) : (t.1.toSlab height position).Unspent :=
  toSlab_unspent (fun o ho => (congrArg u32 (h t.1 (List.fst_mem_of_mem_zipIdx ht) o ho)).trans
    u32_maxUint32) height position

theorem modifyHead_spendAt_nil (l : List TransactionSlab) (height : Nat) :
    l.modifyHead (TransactionSlab.spendAt [] height) = l := by
  cases l with
  | nil => rfl
  | cons slab rest => exact congrArg (· :: rest) (spendAt_nil height slab)

theorem zipIdx_concat {A : Type} (l : List A) (a : A) : (l ++ [a]).zipIdx = l.zipIdx ++ [(a, l.length)] := by
  rw [List.zipIdx_append, List.zipIdx_singleton, Nat.zero_add]

namespace ValidChain

variable {chain : List Block} {b : Block}

/-- A chain without its last block. -/
theorem init (h : ValidChain (chain ++ [b])) : ValidChain chain where
  heights := by
    have := h.heights
    rw [List.length_append] at this
    omega
  positions b' hb := h.positions b' (List.mem_append_left _ hb)
  first b' hb := h.first b' (by
    obtain ⟨hlt, _⟩ := List.getElem?_eq_some_iff.mp hb
    rwa [List.getElem?_append_left hlt])
  linked k b₁ b₂ h₁ h₂ := by
    obtain ⟨hlt₁, _⟩ := List.getElem?_eq_some_iff.mp h₁
    obtain ⟨hlt₂, _⟩ := List.getElem?_eq_some_iff.mp h₂
    exact h.linked k b₁ b₂ (by rwa [List.getElem?_append_left hlt₁])
      (by rwa [List.getElem?_append_left hlt₂])
  blockHashes := by
    have := h.blockHashes
    rw [List.map_append] at this
    exact (List.nodup_append'.mp this).1
  hashes := by
    have := h.hashes
    rw [List.flatMap_append] at this
    exact (List.nodup_append'.mp this).1
  spendsEarlier o ho t ht h0 input hi := by
    have hlt := List.snd_lt_of_mem_zipIdx ho
    obtain ⟨o', ho', t', ht', hhash, hidx, hle⟩ := h.spendsEarlier o
      (by rw [zipIdx_concat]; exact List.mem_append_left _ ho) t ht h0 input hi
    refine ⟨o', ?_, t', ht', hhash, hidx, hle⟩
    rw [zipIdx_concat] at ho'
    rcases List.mem_append.mp ho' with ho' | ho'
    · exact ho'
    · -- the last block is above the one that spends
      cases List.mem_singleton.mp ho'
      rcases hle with hgt | ⟨rfl, _⟩
      · have hgt : chain.length < o.2 := hgt
        omega
      · exact ho
  spendsOnce := by
    have := h.spendsOnce
    rw [List.flatMap_append] at this
    exact (List.nodup_append'.mp this).1

theorem mem_last (chain : List Block) (b : Block) : (b, chain.length) ∈ (chain ++ [b]).zipIdx := by
  rw [zipIdx_concat]
  exact List.mem_append_right _ List.mem_cons_self

/-- A transaction of the last block is no one of the chain below. -/
theorem last_hash (h : ValidChain (chain ++ [b])) {hash : HashDigest} (hb : hash ∈ b.hashes) :
    hash ∉ chain.flatMap Block.hashes := by
  have hn := h.hashes
  rw [List.flatMap_append, List.flatMap_singleton] at hn
  exact fun hm => (List.nodup_append'.mp hn).2.2 hm hb

theorem last_nodup (h : ValidChain (chain ++ [b])) : b.hashes.Nodup := by
  have hn := h.hashes
  rw [List.flatMap_append, List.flatMap_singleton] at hn
  exact (List.nodup_append'.mp hn).2.1

/-- What the last block spends is spent by no other one. -/
theorem last_spends (h : ValidChain (chain ++ [b])) {p : Point} (hb : p ∈ b.previousOutputs) :
    spenderOf chain.zipIdx p = none := by
  have hn := h.spendsOnce
  rw [List.flatMap_append, List.flatMap_singleton] at hn
  refine spenderOf_eq_none.mpr fun o ho hp => (List.nodup_append'.mp hn).2.2 ?_ hb
  exact List.mem_flatMap.mpr ⟨o.1, List.fst_mem_of_mem_zipIdx ho, hp⟩

/-- A spent output is one of a transaction of the chain. -/
theorem spent_mem (h : ValidChain chain) {p : Point} (hp : p ∈ chain.flatMap Block.previousOutputs) :
    p.hash ∈ chain.flatMap Block.hashes := by
  obtain ⟨b, hb, hp⟩ := List.mem_flatMap.mp hp
  obtain ⟨i, hi⟩ := exists_zipIdx hb
  obtain ⟨o', ho', t', ht', hhash, _⟩ := h.parent hi hp
  refine List.mem_flatMap.mpr ⟨o'.1, List.fst_mem_of_mem_zipIdx ho', ?_⟩
  exact hhash ▸ List.mem_map_of_mem (List.fst_mem_of_mem_zipIdx ht')

/-- A hash of no transaction of the chain is not spent. -/
theorem last_indexes (h : ValidChain (chain ++ [b])) {hash : HashDigest}
    (hnot : hash ∉ (chain ++ [b]).flatMap Block.hashes) : indexesOf b.previousOutputs hash = [] := by
  refine List.eq_nil_iff_forall_not_mem.mpr fun i hi => hnot ?_
  have hp := h.spent_mem (List.mem_flatMap.mpr
    ⟨b, List.mem_append_right _ List.mem_cons_self, mem_indexesOf.mp hi⟩)
  exact hp

/-- No block of the chain below spends an output of the last block. -/
theorem last_unspent (h : ValidChain (chain ++ [b])) {p : Point} (hb : p.hash ∈ b.hashes) :
    spenderOf chain.zipIdx p = none := by
  refine spenderOf_eq_none.mpr fun o ho hp => h.last_hash hb ?_
  exact h.init.spent_mem (List.mem_flatMap.mpr ⟨o.1, List.fst_mem_of_mem_zipIdx ho, hp⟩)

/-- **The spends of the last block**, over those of the chain below. -/
theorem settled_concat (h : ValidChain (chain ++ [b])) (height : Nat) (t : Transaction × Nat) :
    settled (chain ++ [b]).zipIdx height t =
      (settled chain.zipIdx height t).spendAt (indexesOf b.previousOutputs t.1.hash)
        chain.length := by
  have hp : (chain ++ [b]).zipIdx.Perm ((b, chain.length) :: chain.zipIdx) := by
    rw [zipIdx_concat]
    exact List.perm_append_singleton _ _
  rw [settled_perm hp (perm_flatMap_nodup (.refl _) h.spendsOnce), settled_cons]

/-- **Unspending them** gives back the chain below. -/
theorem settled_init (h : ValidChain (chain ++ [b])) (hu : ∀ b' ∈ chain, b'.ArrivesUnspent)
    {o : Placed} (ho : o ∈ chain.zipIdx) {t : Transaction × Nat} (ht : t ∈ o.1.transactions.zipIdx)
    {indexes : List Nat} (hi : ∀ i, i ∈ indexes ↔ ⟨t.1.hash, i⟩ ∈ b.previousOutputs) :
    (settled (chain ++ [b]).zipIdx o.2 t).spendAt indexes notSpent = settled chain.zipIdx o.2 t := by
  rw [h.settled_concat]
  refine spendAt_undo (fun i => (hi i).trans mem_indexesOf.symm) fun i hm out hout => ?_
  have hnone := h.last_spends (mem_indexesOf.mp hm)
  have harrives := hu o.1 (List.fst_mem_of_mem_zipIdx ho) t.1 (List.fst_mem_of_mem_zipIdx ht)
  unfold settled at hout
  rw [List.getElem?_mapIdx, List.getElem?_map] at hout
  cases he : t.1.outputs[i]? with
  | none =>
      rw [he] at hout
      cases hout
  | some out' =>
      rw [he, Option.map_some, Option.map_some, hnone] at hout
      cases hout
      exact (congrArg u32 (harrives out' (List.mem_of_getElem? he))).trans u32_maxUint32

/-- A transaction of the last block spends no output of itself or of a later one. -/
theorem last_earlier (h : ValidChain (chain ++ [b])) {t u : Transaction × Nat}
    (ht : t ∈ b.transactions.zipIdx) (hu : u ∈ b.transactions.zipIdx) (h0 : t.2 ≠ 0) (hle : t.2 ≤ u.2)
    {input : Input} (hi : input ∈ t.1.inputs) : input.previousOutput.hash ≠ u.1.hash := by
  intro he
  have hlast := mem_last chain b
  obtain ⟨o', ho', t', ht', hhash, _, hlt⟩ := h.spendsEarlier _ hlast t ht h0 input hi
  have hmem : u.1.hash ∈ b.hashes := List.mem_map_of_mem (List.fst_mem_of_mem_zipIdx hu)
  have hmem' : u.1.hash ∈ o'.1.hashes :=
    he ▸ hhash ▸ List.mem_map_of_mem (List.fst_mem_of_mem_zipIdx ht')
  cases h.block_of_hash ho' hlast hmem' hmem
  rcases hlt with hlt | ⟨_, hlt⟩
  · exact Nat.lt_irrefl _ hlt
  · -- a hash stands at one position
    have h₁ : b.hashes[t'.2]? = some u.1.hash := by
      unfold Block.hashes
      rw [List.getElem?_map, List.mem_zipIdx_iff_getElem?.mp ht']
      exact congrArg some (hhash.trans he)
    have h₂ : b.hashes[u.2]? = some u.1.hash := by
      unfold Block.hashes
      rw [List.getElem?_map, List.mem_zipIdx_iff_getElem?.mp hu]
      rfl
    obtain ⟨hin, _⟩ := List.getElem?_eq_some_iff.mp h₁
    have := (List.getElem?_inj hin h.last_nodup).mp (h₁.trans h₂.symm)
    omega

end ValidChain

/-! ## 4. Checks and cuts -/

/-- A block that passes the checks. -/
theorem Ledger.push_success {l l' : Ledger} {b : Block} {height : Nat}
    (h : l.push b height = (l', .success)) : l' = l.append b := by
  unfold Ledger.push at h
  split at h
  · cases h
  split at h
  · cases h
  split at h
  · cases h
  · cases h
    rfl

theorem Ledger.push_failure {l l' : Ledger} {b : Block} {height : Nat} {ec : Code}
    (h : l.push b height = (l', ec)) (hne : ec ≠ .success) : l' = l := by
  unfold Ledger.push at h
  split at h
  · cases h
    rfl
  split at h
  · cases h
    rfl
  split at h
  · cases h
    rfl
  · cases h
    exact absurd rfl hne

@[simp] theorem Ledger.append_chain (l : Ledger) (b : Block) : (l.append b).chain = l.chain ++ [b] := rfl

theorem Ledger.mem_append_waiting {l : Ledger} {b : Block} {hash : HashDigest} :
    hash ∈ (l.append b).waiting ↔ hash ∈ l.waiting ∧ hash ∉ b.hashes := by
  simp [Ledger.append]

theorem Ledger.pushUnconfirmed_of_mem {l : Ledger} {tx : Transaction}
    (h : tx.hash ∈ l.hashes ∨ tx.hash ∈ l.waiting) : l.pushUnconfirmed tx = (l, .unspentDuplicate) :=
  if_pos (List.contains_iff_mem.mpr (List.mem_append.mpr h))

theorem Ledger.pushUnconfirmed_of_notMem {l : Ledger} {tx : Transaction}
    (h : ¬ (tx.hash ∈ l.hashes ∨ tx.hash ∈ l.waiting)) :
    l.pushUnconfirmed tx = ({ l with waiting := tx.hash :: l.waiting }, .success) :=
  if_neg fun hc => h (List.mem_append.mp (List.contains_iff_mem.mp hc))

/-- **The last block goes first.** -/
theorem Ledger.cut_concat {chain : List Block} {height : Nat} (h : height ≤ chain.length) (b : Block)
    (waiting popped : List HashDigest) : Ledger.cut ⟨chain ++ [b], waiting, popped⟩ height =
      Ledger.cut ⟨chain, b.hashes ++ waiting, b.header.hash :: popped⟩ height := by
  unfold Ledger.cut
  dsimp only
  rw [List.drop_append_of_le_length h, List.take_append_of_le_length h, List.flatMap_append,
    List.map_append, List.append_assoc, List.append_assoc, List.flatMap_singleton]
  rfl

/-- Nothing is above the top. -/
theorem Ledger.cut_length (l : Ledger) : l.cut l.chain.length = l := by
  unfold Ledger.cut
  rw [List.drop_length, List.take_length]
  rfl

theorem Ledger.pop_concat (chain : List Block) (b : Block) (waiting popped : List HashDigest) :
    Ledger.pop ⟨chain ++ [b], waiting, popped⟩ =
      (⟨chain, b.hashes ++ waiting, b.header.hash :: popped⟩, some b) := by
  have hlen : (chain ++ [b]).length - 1 = chain.length := by
    rw [List.length_append, List.length_singleton, Nat.add_sub_cancel]
  unfold Ledger.pop
  dsimp only
  rw [List.getLast?_concat, hlen, Ledger.cut_concat (Nat.le_refl _)]
  exact congrArg (·, some b) (Ledger.cut_length ⟨chain, _, _⟩)

end Libbitcoin.Database
