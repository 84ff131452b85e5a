/-
  File:      BitprimDatabase/DataBase/StaleSpends.lean
  Subject:   SPENDER HEIGHTS ABOVE THE TOP. `pop` reads the transactions of the block before it
             clears a spend, and hands out these copies: to the pool and to its caller.

  * `Recorded` -- **the invariant** of the slabs under the blocks of the chain: a spender height is
    that of a block with a transaction that spends the output; a newest slab that is confirmed is of
    its block; what lies below it was spent below its height; what is unconfirmed is unspent;
  * the edits of the writers keep it: a new slab, a confirmation in place, a spend;
  * `pop_recorded` -- so does a pop of a block none of whose outputs is spent;
  * **`noStale_iff`**: along a run of successful operations no height is stale exactly where every
    pop is of such a block (and every transaction pushed arrives unspent).
-/
import BitprimDatabase.Lib.Run
import BitprimDatabase.DataBase.PushPop

namespace Libbitcoin.Database

open Lib

/-! ## 1. Slabs under a chain -/

namespace TransactionSlab

/-- Every output is marked not spent. -/
def Unspent (slab : TransactionSlab) : Prop := ∀ o ∈ slab.outputs, o.spenderHeight = notSpent

/-- Every output that is spent is spent below the height. -/
def SpentBelow (height : Nat) (slab : TransactionSlab) : Prop :=
  ∀ o ∈ slab.outputs, o.spenderHeight ≠ notSpent → o.spenderHeight < height

theorem Unspent.spentBelow {slab : TransactionSlab} (h : slab.Unspent) (height : Nat) :
    slab.SpentBelow height := fun o ho hne => absurd (h o ho) hne

end TransactionSlab

/-- **The spends are recorded** under the blocks' transaction hashes by height. -/
structure Recorded (content : HashDigest → Content) (hashesAt : Nat → Option (List HashDigest))
    (s : Slabs) : Prop where
  genuine : GenuineSlabs content s
  null : s nullHash = []
  spent : ∀ hash, ∀ slab ∈ s hash, ∀ i o, slab.outputs[i]? = some o → o.spenderHeight ≠ notSpent →
    ∃ hashes, hashesAt o.spenderHeight = some hashes ∧
      ∃ spender ∈ hashes, ⟨hash, i⟩ ∈ (content spender).inputs.map Input.previousOutput
  confirmed : ∀ hash slab, (s hash).head? = some slab → slab.position ≠ unconfirmed →
    ∃ hashes, hashesAt slab.height = some hashes ∧ hash ∈ hashes
  shadowed : ∀ hash slab rest, s hash = slab :: rest → slab.position ≠ unconfirmed →
    ∀ below ∈ rest, below.SpentBelow slab.height
  unspent : ∀ hash, ∀ slab ∈ s hash, slab.position = unconfirmed → slab.Unspent

section Edits

variable {content : HashDigest → Content} {hashesAt hashesAt' : Nat → Option (List HashDigest)}
  {s : Slabs}

/-- More blocks record the same spends. -/
theorem Recorded.extend (h : Recorded content hashesAt s)
    (hext : ∀ k hashes, hashesAt k = some hashes → hashesAt' k = some hashes) :
    Recorded content hashesAt' s where
  genuine := h.genuine
  null := h.null
  spent hash slab hs i o ho hne := by
    obtain ⟨hashes, hat, hspender⟩ := h.spent hash slab hs i o ho hne
    exact ⟨hashes, hext _ _ hat, hspender⟩
  confirmed hash slab hs hne := by
    obtain ⟨hashes, hat, hmem⟩ := h.confirmed hash slab hs hne
    exact ⟨hashes, hext _ _ hat, hmem⟩
  shadowed := h.shadowed
  unspent := h.unspent

/-- **A new slab** with unspent outputs, unconfirmed or of a block above all spends of the hash. -/
theorem Recorded.push (h : Recorded content hashesAt s) {hash : HashDigest} {slab : TransactionSlab}
    (hne : hash ≠ nullHash) (hc : slab.content = content hash) (hu : slab.Unspent)
    (hat : slab.position ≠ unconfirmed → (∃ hashes, hashesAt slab.height = some hashes ∧
      hash ∈ hashes) ∧ ∀ below ∈ s hash, below.SpentBelow slab.height) :
    Recorded content hashesAt (s.push hash slab) where
  genuine := SlabsOf.push (P := fun hash c => c = content hash) h.genuine hc
  null := by
    rw [Stacks.push_ne _ _ (Ne.symm hne)]
    exact h.null
  spent k slab' hm i o ho hspent := by
    rcases Stacks.mem_of_mem_push hm with ⟨rfl, rfl⟩ | hm
    · exact absurd (hu o (List.mem_of_getElem? ho)) hspent
    · exact h.spent k slab' hm i o ho hspent
  confirmed k slab' hs hpos := by
    rw [Stacks.push_head] at hs
    split at hs
    · rename_i hk
      cases hs
      exact hk ▸ (hat hpos).1
    · exact h.confirmed k slab' hs hpos
  shadowed k slab' rest hs hpos := by
    by_cases hk : k = hash
    · subst hk
      rw [Stacks.push_same] at hs
      cases hs
      exact (hat hpos).2
    · rw [Stacks.push_ne _ _ hk] at hs
      exact h.shadowed k slab' rest hs hpos
  unspent k slab' hm hpos := by
    rcases Stacks.mem_of_mem_push hm with ⟨rfl, rfl⟩ | hm
    · exact hu
    · exact h.unspent k slab' hm hpos

/-- The stack under a hash whose newest slab is edited. -/
theorem modifyTop_cons {hash : HashDigest} {f : TransactionSlab → TransactionSlab}
    {slab : TransactionSlab} {rest : List TransactionSlab}
    (h : s.modifyTop hash f hash = slab :: rest) : ∃ old, s hash = old :: rest ∧ slab = f old := by
  rw [Stacks.modifyTop_same] at h
  cases hs : s hash with
  | nil =>
      rw [hs] at h
      cases h
  | cons old rest' =>
      rw [hs, List.modifyHead_cons] at h
      cases h
      exact ⟨old, rfl, rfl⟩

/-- **A confirmation in place** by a block above all spends of the hash. -/
theorem Recorded.confirm (h : Recorded content hashesAt s) {hash : HashDigest} {height position : Nat}
    (hpos : u32 position ≠ unconfirmed) (hat : ∃ hashes, hashesAt (u32 height) = some hashes ∧
      hash ∈ hashes) (hbelow : ∀ slab ∈ s hash, slab.SpentBelow (u32 height)) :
    Recorded content hashesAt (s.modifyTop hash (TransactionSlab.confirm height position)) where
  genuine := h.genuine.modifyTop _ (confirm_content height position)
  null := by
    by_cases hk : nullHash = hash
    · subst hk
      rw [Stacks.modifyTop_same, h.null]
      rfl
    · rw [Stacks.modifyTop_ne _ _ hk]
      exact h.null
  spent k slab' hm i o ho hspent := by
    rcases Stacks.mem_of_mem_modifyTop hm with ⟨rfl, slab, hs, rfl⟩ | hm
    · exact h.spent k slab (List.mem_of_mem_head? hs) i o ho hspent
    · exact h.spent k slab' hm i o ho hspent
  confirmed k slab' hs hne := by
    rw [Stacks.modifyTop_head] at hs
    split at hs
    · rename_i hk
      obtain ⟨slab, _, rfl⟩ := Option.map_eq_some_iff.mp hs
      exact hk ▸ hat
    · exact h.confirmed k slab' hs hne
  shadowed k slab' rest hs hne := by
    by_cases hk : k = hash
    · subst hk
      obtain ⟨old, hold, rfl⟩ := modifyTop_cons hs
      intro below hm
      exact hbelow below (hold ▸ List.mem_cons_of_mem _ hm)
    · rw [Stacks.modifyTop_ne _ _ hk] at hs
      exact h.shadowed k slab' rest hs hne
  unspent k slab' hm hun := by
    rcases Stacks.mem_of_mem_modifyTop hm with ⟨rfl, slab, _, rfl⟩ | hm
    · exact absurd hun hpos
    · exact h.unspent k slab' hm hun

/-- The outputs after a spend: the spent one, and those that were there. -/
theorem spend_getElem? {slab : TransactionSlab} {index height i : Nat} {o : Output}
    (h : (slab.spend index height).outputs[i]? = some o) :
    (i = index ∧ o.spenderHeight = u32 height) ∨ slab.outputs[i]? = some o := by
  unfold TransactionSlab.spend at h
  rw [List.getElem?_modify] at h
  split at h
  · rename_i hi
    obtain ⟨o', _, rfl⟩ := Option.map_eq_some_iff.mp h
    exact .inl ⟨hi.symm, rfl⟩
  · obtain ⟨o', ho, rfl⟩ := Option.map_eq_some_iff.mp h
    exact .inr ho

/-- **A spend** of an output of a newest slab that is confirmed, by a block that spends it. -/
theorem Recorded.spend (h : Recorded content hashesAt s) {p : Point} {height limit : Nat}
    (hs : Spendable s p limit) (hat : ∃ hashes, hashesAt (u32 height) = some hashes ∧
      ∃ spender ∈ hashes, p ∈ (content spender).inputs.map Input.previousOutput) :
    Recorded content hashesAt (s.modifyTop p.hash (TransactionSlab.spend p.index height)) := by
  obtain ⟨top, htop, _, hconfirmed, _⟩ := hs
  refine ⟨h.genuine.modifyTop _ (spend_content p.index height), ?_, fun k slab' hm i o ho hspent => ?_,
    fun k slab' hs hne => ?_, fun k slab' rest hs hne => ?_, fun k slab' hm hun => ?_⟩
  · have hk : nullHash ≠ p.hash := by
      intro hk
      rw [← hk, h.null] at htop
      cases htop
    rw [Stacks.modifyTop_ne _ _ hk]
    exact h.null
  · rcases Stacks.mem_of_mem_modifyTop hm with ⟨rfl, slab, hslab, rfl⟩ | hm
    · rcases spend_getElem? ho with ⟨rfl, hheight⟩ | ho
      · rw [hheight]
        exact hat
      · exact h.spent p.hash slab (List.mem_of_mem_head? hslab) i o ho hspent
    · exact h.spent k slab' hm i o ho hspent
  · rw [Stacks.modifyTop_head] at hs
    split at hs
    · rename_i hk
      obtain ⟨slab, hslab, rfl⟩ := Option.map_eq_some_iff.mp hs
      exact h.confirmed k slab hslab hne
    · exact h.confirmed k slab' hs hne
  · by_cases hk : k = p.hash
    · subst hk
      obtain ⟨old, hold, rfl⟩ := modifyTop_cons hs
      exact h.shadowed p.hash old rest hold hne
    · rw [Stacks.modifyTop_ne _ _ hk] at hs
      exact h.shadowed k slab' rest hs hne
  · rcases Stacks.mem_of_mem_modifyTop hm with ⟨rfl, slab, hslab, rfl⟩ | hm
    · cases hslab.symm.trans htop
      exact absurd hun hconfirmed
    · exact h.unspent k slab' hm hun

/-! ## 2. The writers of a block -/

variable [Core]

omit [Core] in
/-- A slab stored for a transaction whose outputs are marked not spent in store form. -/
theorem toSlab_unspent {tx : Transaction} (h : ∀ o ∈ tx.outputs, u32 o.spenderHeight = notSpent)
    (height position : Nat) : (tx.toSlab height position).Unspent := by
  intro o ho
  obtain ⟨o', ho', rfl⟩ := List.mem_map.mp ho
  exact h o' ho'

/-- A transaction of a block: its hash stands for it, its outputs arrive marked not spent. -/
structure Arrives (content : HashDigest → Content) (tx : Transaction) : Prop where
  genuine : Genuine content tx
  hash_ne : tx.hash ≠ nullHash
  unspent : ∀ o ∈ tx.outputs, o.spenderHeight = notSpent

/-- Every spend was recorded below the height. -/
def AllSpentBelow (s : Slabs) (height : Nat) : Prop :=
  ∀ hash, ∀ slab ∈ s hash, slab.SpentBelow height

/-- One transaction of a block is stored. -/
theorem Recorded.store {t : TransactionDatabase} (h : Recorded content hashesAt t.slabs)
    {height : Nat} (hbelow : AllSpentBelow t.slabs height) (hheight : height < maxUint32)
    {tx : Transaction} (htx : Arrives content tx) {position : Nat} (hp : position < maxUint32)
    (hat : ∃ hashes, hashesAt height = some hashes ∧ tx.hash ∈ hashes) :
    Recorded content hashesAt (t.store tx height position).slabs ∧
      AllSpentBelow (t.store tx height position).slabs height := by
  have hu : u32 height = height := u32_of_lt hheight
  have hpos : u32 position ≠ unconfirmed := by
    rw [u32_of_lt hp]
    exact Nat.ne_of_lt hp
  have hslab : (tx.toSlab height position).Unspent :=
    toSlab_unspent (fun o ho => (congrArg u32 (htx.unspent o ho)).trans u32_maxUint32) height position
  rw [TransactionDatabase.store_slabs]
  split
  · refine ⟨h.confirm hpos (hu.symm ▸ hat) fun slab hs => hu.symm ▸ hbelow _ slab hs, ?_⟩
    intro hash slab hm
    rcases Stacks.mem_of_mem_modifyTop hm with ⟨rfl, old, hs, rfl⟩ | hm
    · exact hbelow tx.hash old (List.mem_of_mem_head? hs)
    · exact hbelow hash slab hm
  · have hh : (tx.toSlab height position).height = height := hu
    refine ⟨h.push htx.hash_ne ((toSlab_content tx height position).trans htx.genuine) hslab
      fun _ => ?_, ?_⟩
    · rw [hh]
      exact ⟨hat, hbelow tx.hash⟩
    intro hash slab hm
    rcases Stacks.mem_of_mem_push hm with ⟨rfl, rfl⟩ | hm
    · exact hslab.spentBelow height
    · exact hbelow hash slab hm

theorem Recorded.storeAll {t : TransactionDatabase} (h : Recorded content hashesAt t.slabs)
    {height : Nat} (hbelow : AllSpentBelow t.slabs height) (hheight : height < maxUint32)
    {l : List (Transaction × Nat)} (hl : ∀ tx ∈ l, Arrives content tx.1 ∧ tx.2 < maxUint32 ∧
      ∃ hashes, hashesAt height = some hashes ∧ tx.1.hash ∈ hashes) :
    Recorded content hashesAt (storeAll t height l).slabs := by
  induction l generalizing t with
  | nil => exact h
  | cons tx l ih =>
      obtain ⟨htx, hp, hat⟩ := hl tx List.mem_cons_self
      obtain ⟨h', hbelow'⟩ := h.store hbelow hheight htx hp hat
      exact ih h' hbelow' fun tx' hm => hl tx' (List.mem_cons_of_mem _ hm)

omit [Core] in
theorem Recorded.spendSlabs {points : List Point} {height : Nat} (h : Recorded content hashesAt s)
    (hheight : height < maxUint32) (hs : ∀ p ∈ points, Spendable s p height)
    (hat : ∀ p ∈ points, ∃ hashes, hashesAt height = some hashes ∧
      ∃ spender ∈ hashes, p ∈ (content spender).inputs.map Input.previousOutput) :
    Recorded content hashesAt (spendSlabs s points height) := by
  induction points generalizing s with
  | nil => exact h
  | cons p points ih =>
      have hp := h.spend (hs p List.mem_cons_self)
        ((u32_of_lt hheight).symm ▸ hat p List.mem_cons_self)
      refine ih hp (fun q hq => ?_) fun q hq => hat q (List.mem_cons_of_mem _ hq)
      exact (spendable_modifyTop _ _ _).mpr (hs q (List.mem_cons_of_mem _ hq))

end Edits

/-! ## 3. Unwinding -/

section Unwind

variable [Core] {s : Slabs} {txs : List Transaction} {hash : HashDigest}

theorem unwindSlab_outputs (txs : List Transaction) (hash : HashDigest) (slab : TransactionSlab) :
    (unwindSlab txs hash slab).outputs = (slab.spendAt (indexesOf (txs.flatMap Transaction.popPoints)
      hash) notSpent).outputs := by
  unfold unwindSlab
  simp only
  split <;> rfl

/-- An output that is spent after the unwinding was so before, and is none of those unspent. -/
theorem unwindSlab_spent {slab : TransactionSlab} {i : Nat} {o : Output}
    (h : (unwindSlab txs hash slab).outputs[i]? = some o) (hne : o.spenderHeight ≠ notSpent) :
    slab.outputs[i]? = some o ∧ ⟨hash, i⟩ ∉ txs.flatMap Transaction.popPoints := by
  rw [unwindSlab_outputs, spendAt_getElem?] at h
  obtain ⟨o', ho', rfl⟩ := Option.map_eq_some_iff.mp h
  by_cases hi : i ∈ indexesOf (txs.flatMap Transaction.popPoints) hash
  · rw [if_pos hi] at hne
    exact absurd u32_maxUint32 hne
  · rw [if_neg hi]
    exact ⟨ho', fun hp => hi (mem_indexesOf.mpr hp)⟩

theorem unwindSlab_unspent {slab : TransactionSlab} (h : slab.Unspent) :
    (unwindSlab txs hash slab).Unspent := by
  intro o ho
  by_contra hne
  obtain ⟨i, hi⟩ := List.mem_iff_getElem?.mp ho
  exact hne (h o (List.mem_of_getElem? (unwindSlab_spent hi hne).1))

/-- A newest slab that is confirmed after the unwinding is of no unwound transaction. -/
theorem unwindSlab_confirmed {slab : TransactionSlab}
    (h : (unwindSlab txs hash slab).position ≠ unconfirmed) :
    hash ∉ txs.map Transaction.hash ∧ (unwindSlab txs hash slab).height = slab.height ∧
      (unwindSlab txs hash slab).position = slab.position := by
  unfold unwindSlab at h ⊢
  by_cases hm : hash ∈ txs.map Transaction.hash
  · simp only [if_pos hm] at h
    exact absurd u32_maxUint32 h
  · simp only [if_neg hm]
    exact ⟨hm, rfl, rfl⟩

/-- What the unwound slabs under a hash are. -/
theorem mem_unwind {slab : TransactionSlab} (h : slab ∈ unwind s txs hash) :
    (∃ top, (s hash).head? = some top ∧ slab = unwindSlab txs hash top) ∨
      ∃ top rest, s hash = top :: rest ∧ slab ∈ rest := by
  rw [unwind_apply] at h
  cases hs : s hash with
  | nil =>
      rw [hs] at h
      cases h
  | cons top rest =>
      rw [hs, List.modifyHead_cons] at h
      rcases List.mem_cons.mp h with rfl | h
      · exact .inl ⟨top, rfl, rfl⟩
      · exact .inr ⟨top, rest, rfl, h⟩

variable {content : HashDigest → Content} {hashesAt : Nat → Option (List HashDigest)}
  {height : Nat} {hashes : List HashDigest}

/-- **The top block is unwound.** What it spent is cleared, since its transactions name it; a spend
    below a newest slab is older than the slab, so none of this block. -/
theorem Recorded.unwind (h : Recorded content hashesAt s) (hat : hashesAt height = some hashes)
    (htop : ∀ k hashes, hashesAt k = some hashes → k ≤ height)
    (hhash : ∀ hash, hash ∈ txs.map Transaction.hash ↔ hash ∈ hashes)
    (hgenuine : ∀ tx ∈ txs, Genuine content tx)
    (hsp : ∀ tx ∈ txs, ∀ p ∈ tx.popPoints, Spendable s p notSpent)
    (hun : ∀ hash ∈ hashes, ∀ slab, (s hash).head? = some slab → slab.Unspent) :
    Recorded content (fun k => if k < height then hashesAt k else none) (unwind s txs) := by
  -- the outputs the block spent are among the points unspent
  have hpoint (hash : HashDigest) (slab : TransactionSlab) (hs : slab ∈ s hash) (i : Nat) (o : Output)
      (ho : slab.outputs[i]? = some o) (he : o.spenderHeight = height) (hne : o.spenderHeight ≠ notSpent) :
      ⟨hash, i⟩ ∈ txs.flatMap Transaction.popPoints := by
    obtain ⟨hashes', hat', spender, hmem, hin⟩ := h.spent hash slab hs i o ho hne
    rw [he, hat] at hat'
    cases hat'
    obtain ⟨tx, htx, rfl⟩ := List.mem_map.mp ((hhash spender).mpr hmem)
    have hinputs : tx.inputs = (content tx.hash).inputs := congrArg Content.inputs (hgenuine tx htx)
    rw [← hinputs] at hin
    refine List.mem_flatMap.mpr ⟨tx, htx, ?_⟩
    unfold Transaction.popPoints
    split
    · -- a coinbase spends the null point, and no slab is under the null hash
      rename_i hcoinbase
      exfalso
      unfold Transaction.isCoinbase at hcoinbase
      split at hcoinbase
      · rename_i input hinput
        rw [hinput, List.map_singleton, List.mem_singleton] at hin
        unfold Point.isNull at hcoinbase
        rw [← hin] at hcoinbase
        simp only [Bool.and_eq_true, beq_iff_eq] at hcoinbase
        rw [hcoinbase.1, h.null] at hs
        cases hs
      · cases hcoinbase
    · rw [List.map_reverse, List.mem_reverse]
      exact hin
  have hlower (hash : HashDigest) (slab : TransactionSlab) (hs : slab ∈ s hash) (i : Nat) (o : Output)
      (ho : slab.outputs[i]? = some o) (hne : o.spenderHeight ≠ notSpent)
      (hnot : o.spenderHeight ≠ height) : ∃ hashes,
        (if o.spenderHeight < height then hashesAt o.spenderHeight else none) = some hashes ∧
        ∃ spender ∈ hashes, ⟨hash, i⟩ ∈ (content spender).inputs.map Input.previousOutput := by
    obtain ⟨hashes', hat', hspender⟩ := h.spent hash slab hs i o ho hne
    have hle := htop _ _ hat'
    rw [if_pos (by omega)]
    exact ⟨hashes', hat', hspender⟩
  refine ⟨h.genuine.unwind txs, ?_, fun hash slab hm i o ho hne => ?_, fun hash slab hs hne => ?_,
    fun hash slab rest hs hne => ?_, fun hash slab hm hpos => ?_⟩
  · rw [unwind_apply, h.null]
    rfl
  · rcases mem_unwind hm with ⟨top, hs, rfl⟩ | ⟨top, rest, hs, hmem⟩
    · obtain ⟨ho, hnot⟩ := unwindSlab_spent ho hne
      have htop := List.mem_of_mem_head? hs
      exact hlower hash top htop i o ho hne fun he => hnot (hpoint hash top htop i o ho he hne)
    · have hslab : slab ∈ s hash := hs ▸ List.mem_cons_of_mem _ hmem
      refine hlower hash slab hslab i o ho hne fun he => ?_
      obtain ⟨tx, htx, hp⟩ := List.mem_flatMap.mp (hpoint hash slab hslab i o ho he hne)
      obtain ⟨top', hs', _, hconfirmed, _⟩ := hsp tx htx _ hp
      have htop' : (s hash).head? = some top := by rw [hs]; rfl
      cases htop'.symm.trans hs'
      have hlt := h.shadowed hash top rest hs hconfirmed slab hmem o (List.mem_of_getElem? ho) hne
      obtain ⟨_, hat', _⟩ := h.confirmed hash top htop' hconfirmed
      have hle := htop _ _ hat'
      omega
  · rw [unwind_apply, List.head?_modifyHead] at hs
    obtain ⟨top, htop', rfl⟩ := Option.map_eq_some_iff.mp hs
    obtain ⟨hnot, hheight, hposition⟩ := unwindSlab_confirmed hne
    obtain ⟨hashes', hat', hmem⟩ := h.confirmed hash top htop' (hposition ▸ hne)
    have hle := htop _ _ hat'
    rw [hheight]
    by_cases he : top.height = height
    · rw [he, hat] at hat'
      cases hat'
      exact absurd ((hhash hash).mpr hmem) hnot
    · rw [if_pos (by omega)]
      exact ⟨hashes', hat', hmem⟩
  · rw [unwind_apply] at hs
    cases hold : s hash with
    | nil =>
        rw [hold] at hs
        cases hs
    | cons top rest' =>
        rw [hold, List.modifyHead_cons] at hs
        cases hs
        obtain ⟨_, hheight, hposition⟩ := unwindSlab_confirmed hne
        rw [hheight]
        exact h.shadowed hash top rest hold (hposition ▸ hne)
  · rcases mem_unwind hm with ⟨top, hs, rfl⟩ | ⟨top, rest, hs, hmem⟩
    · refine unwindSlab_unspent ?_
      by_cases hin : hash ∈ txs.map Transaction.hash
      · exact hun hash ((hhash hash).mp hin) top hs
      · refine h.unspent hash top (List.mem_of_mem_head? hs) ?_
        unfold unwindSlab at hpos
        simp only [if_neg hin] at hpos
        exact hpos
    · exact h.unspent hash slab (hs ▸ List.mem_cons_of_mem _ hmem) hpos

end Unwind

namespace DataBase

/-! ## 4. The operations -/

/-- The transaction hashes of the block at a height. -/
def hashesAt (db : DataBase) (height : Nat) : Option (List HashDigest) :=
  (db.blocks.get height).map fun r => r.slab.hashes

/-- The spends of the data base are recorded in its blocks. -/
def SpendsRecorded (content : HashDigest → Content) (db : DataBase) : Prop :=
  Recorded content db.hashesAt db.transactions.slabs

theorem hashesAt_lt {db : DataBase} {height : Nat} {hashes : List HashDigest}
    (h : db.hashesAt height = some hashes) : height < db.blocks.count := by
  obtain ⟨r, hr, _⟩ := Option.map_eq_some_iff.mp h
  rw [BlockDatabase.get_eq] at hr
  by_contra hlt
  rw [if_neg hlt] at hr
  cases hr

/-- No output of a transaction of the top block is marked spent. -/
def TopUnspent (db : DataBase) : Prop :=
  ∀ height r, db.blocks.top = some height → db.blocks.get height = some r →
    ∀ hash ∈ r.slab.hashes, ∀ slab, db.transactions.get hash height true = some slab → slab.Unspent

variable [Core] {content : HashDigest → Content} {db : DataBase}

/-- The slabs and blocks after a block push. -/
theorem push_recorded (h : db.SpendsRecorded content) {b : Block} {height : Nat}
    (hheight : height < maxUint32) (hn : b.transactions.length ≤ maxUint32)
    (harrives : ∀ tx ∈ b.transactions, Arrives content tx) (hp : (db.push b height).2 = .success) :
    (db.push b height).1.SpendsRecorded content := by
  obtain ⟨hv, hspendable, hw⟩ := push_success hp
  obtain ⟨_, hcount, _⟩ := verifyPush_success hv
  generalize (db.push b height).1 = db' at hw
  have hget (k : Nat) : db'.hashesAt k = if k = height then some b.hashes else db.hashesAt k := by
    unfold hashesAt
    rw [hw.blocks_eq]
    by_cases hk : k = height
    · subst hk
      rw [if_pos rfl, BlockDatabase.store_get_same _ _ hheight]
      rfl
    · rw [if_neg hk]
      by_cases hlt : k < db.blocks.count
      · rw [BlockDatabase.store_get_lt _ _ hheight hlt hk]
      · rw [BlockDatabase.get_eq, BlockDatabase.get_eq, if_neg hlt, if_neg]
        rw [BlockDatabase.store_count _ _ hheight]
        omega
  have hat : db'.hashesAt height = some b.hashes := by
    rw [hget, if_pos rfl]
  have hext : Recorded content db'.hashesAt db.transactions.slabs := by
    refine h.extend fun k hashes hk => ?_
    have := hashesAt_lt hk
    rw [hget, if_neg (by omega)]
    exact hk
  have hbelow : AllSpentBelow db.transactions.slabs height := by
    intro hash slab hs o ho hne
    obtain ⟨i, hi⟩ := List.mem_iff_getElem?.mp ho
    obtain ⟨_, hk, _⟩ := h.spent hash slab hs i o hi hne
    have := hashesAt_lt hk
    omega
  unfold SpendsRecorded
  rw [hw.slabs_eq]
  refine Recorded.spendSlabs (hext.storeAll hbelow hheight fun tx htx => ?_) hheight hspendable
    fun p hp => ⟨_, hat, ?_⟩
  · have hlt := List.snd_lt_of_mem_zipIdx htx
    have hmem := List.fst_mem_of_mem_zipIdx htx
    exact ⟨harrives tx.1 hmem, by omega, _, hat, List.mem_map_of_mem hmem⟩
  · obtain ⟨input, hinput, rfl⟩ := List.mem_map.mp hp
    obtain ⟨tx, htx, hin⟩ := List.mem_flatMap.mp hinput
    have hmem := List.mem_of_mem_tail htx
    have hinputs : tx.inputs = (content tx.hash).inputs :=
      congrArg Content.inputs (harrives tx hmem).genuine
    refine ⟨tx.hash, List.mem_map_of_mem hmem, ?_⟩
    rw [← hinputs]
    exact List.mem_map_of_mem hin

theorem pushUnconfirmed_recorded (h : db.SpendsRecorded content) {tx : Transaction} {forks : Nat}
    (hg : Genuine content tx) (hne : tx.hash ≠ nullHash)
    (hu : ∀ o ∈ tx.outputs, u32 o.spenderHeight = notSpent)
    (hp : (db.pushUnconfirmed tx forks).2 = .success) :
    (db.pushUnconfirmed tx forks).1.SpendsRecorded content := by
  obtain ⟨_, store, he⟩ := pushUnconfirmed_success hp
  rw [he]
  show Recorded content db.hashesAt (db.transactions.store tx forks unconfirmed).slabs
  rw [TransactionDatabase.store_slabs, if_neg (by simp [TransactionDatabase.inPlace])]
  exact h.push hne ((toSlab_content tx forks unconfirmed).trans hg) (toSlab_unspent hu _ _)
    fun hpos => absurd u32_maxUint32 hpos

omit [Core] in
/-- The slab a transaction of the top block is read back from. -/
theorem readBack_slab {height : Nat} {hashes : List HashDigest} {txs : List Transaction}
    (h : List.Forall₂ (db.ReadBack height) hashes.zipIdx txs) :
    (∀ tx ∈ txs, tx.hash ∈ hashes ∧ ∃ slab, db.transactions.get tx.hash height true = some slab ∧
      tx = slab.transaction tx.hash) ∧ ∀ hash ∈ hashes, ∃ tx ∈ txs, tx.hash = hash := by
  refine ⟨fun tx htx => ?_, fun hash hm => ?_⟩
  · obtain ⟨t, ht, slab, hs, hheight, hpos, hne, rfl⟩ := forall₂_mem_right h tx htx
    refine ⟨List.fst_mem_of_mem_zipIdx ht, slab, ?_, rfl⟩
    exact db.transactions.find_true.mpr ⟨hs, Nat.le_of_eq hheight, hpos ▸ hne⟩
  · obtain ⟨i, hi⟩ := List.mem_iff_getElem?.mp hm
    obtain ⟨tx, htx, slab, _, _, _, _, rfl⟩ := forall₂_mem_right h.flip (hash, i)
      (List.mem_zipIdx_iff_getElem?.mpr hi)
    exact ⟨_, htx, rfl⟩

omit [Core] in
/-- The pool entry of a transaction put back, as unspent as the slab it was read from. -/
theorem putBack_unspent {slab : TransactionSlab} (hash : HashDigest) (h : slab.Unspent) :
    ((slab.transaction hash).toSlab 0 unconfirmed).Unspent :=
  toSlab_unspent (fun o ho => (congrArg u32 (h o ho)).trans u32_maxUint32) _ _

/-- **A pop of a block none of whose outputs is spent** keeps the record, and what it hands out is
    unspent. -/
theorem pop_recorded (h : db.SpendsRecorded content) (hu : db.TopUnspent) {out : Block}
    (hp : db.pop.2 = some out) : db.pop.1.SpendsRecorded content ∧
      (∀ hash, ∀ entry ∈ db.pop.1.transactionsUnconfirmed.entries hash,
        entry ∈ db.transactionsUnconfirmed.entries hash ∨ entry.Unspent) ∧
      ∀ tx ∈ out.transactions, ∀ o ∈ tx.outputs, o.spenderHeight = notSpent := by
  obtain ⟨height, txs, ⟨htop, r, hr, _, hback, hunwind, rfl⟩, hpd⟩ := (db.pop_spec out).2 hp
  obtain ⟨hslab, hhash⟩ := readBack_slab hback
  have hread : ∀ tx ∈ txs, ∃ slab, (db.transactions.slabs tx.hash).head? = some slab ∧
      slab.Unspent ∧ tx = slab.transaction tx.hash := by
    intro tx htx
    obtain ⟨hm, slab, hget, he⟩ := hslab tx htx
    exact ⟨slab, (db.transactions.find_true.mp hget).1, hu height r htop hr _ hm slab hget, he⟩
  have hcount := BlockDatabase.top_eq_some.mp htop
  refine ⟨?_, fun hash entry hm => ?_, fun tx htx o ho => ?_⟩
  · have hhashes : db.pop.1.hashesAt = fun k => if k < height then db.hashesAt k else none := by
      funext k
      unfold hashesAt
      rw [hpd.blocks_eq, BlockDatabase.unlink_get (by omega)]
      split <;> rfl
    unfold SpendsRecorded
    rw [hhashes, hpd.slabs_eq]
    have hmem (hash : HashDigest) : hash ∈ txs.reverse.map Transaction.hash ↔ hash ∈ r.slab.hashes := by
      rw [List.map_reverse, List.mem_reverse, List.mem_map]
      refine ⟨?_, fun hm => hhash hash hm⟩
      rintro ⟨tx, htx, rfl⟩
      exact (hslab tx htx).1
    refine Recorded.unwind h (by unfold hashesAt; rw [hr]; rfl) (fun k hashes hk => ?_) hmem
      (fun tx htx => ?_) (fun tx htx => (unwindable_iff.mp hunwind).2.1 tx (List.mem_reverse.mp htx))
      fun hash hm slab hs => ?_
    · have := hashesAt_lt hk
      omega
    · obtain ⟨slab, hs, _, he⟩ := hread tx (List.mem_reverse.mp htx)
      have hgen := h.genuine tx.hash slab (List.mem_of_mem_head? hs)
      unfold Genuine
      rw [he]
      exact hgen
    · obtain ⟨tx, htx, rfl⟩ := hhash hash hm
      obtain ⟨slab', hs', hu', _⟩ := hread tx htx
      cases hs.symm.trans hs'
      exact hu'
  · have hpool : db.pop.1.transactionsUnconfirmed.entries = _ := hpd.pool_eq
    rw [hpool] at hm
    rcases Stacks.mem_pushAll.mp hm with hm | hm
    · obtain ⟨tx, htx, he⟩ := List.mem_map.mp hm
      obtain ⟨slab, _, hu', htxe⟩ := hread tx (List.mem_reverse.mp htx)
      cases he
      rw [htxe]
      exact .inr (putBack_unspent _ hu')
    · exact .inl hm
  · obtain ⟨slab, _, hu', he⟩ := hread tx htx
    rw [he] at ho
    exact hu' o ho

/-- **A pop of a block with a spent output** puts it into the pool as spent. -/
theorem pop_stale (h : db.SpendsRecorded content) (hu : ¬ db.TopUnspent) {out : Block}
    (hp : db.pop.2 = some out) :
    ∃ hash, ∃ entry ∈ db.pop.1.transactionsUnconfirmed.entries hash, ¬ entry.Unspent := by
  obtain ⟨height, txs, ⟨htop, r, hr, _, hback, _, rfl⟩, hpd⟩ := (db.pop_spec out).2 hp
  obtain ⟨hslab, hhash⟩ := readBack_slab hback
  unfold TopUnspent at hu
  push Not at hu
  obtain ⟨height', r', htop', hr', hash, hm, slab, hget, hspent⟩ := hu
  cases htop.symm.trans htop'
  cases hr.symm.trans hr'
  obtain ⟨tx, htx, rfl⟩ := hhash hash hm
  obtain ⟨_, slab', hget', he⟩ := hslab tx htx
  cases hget.symm.trans hget'
  refine ⟨tx.hash, tx.toSlab 0 unconfirmed, ?_, fun hun => hspent fun o ho => ?_⟩
  · have hpool : db.pop.1.transactionsUnconfirmed.entries = _ := hpd.pool_eq
    rw [hpool]
    exact Stacks.mem_pushAll.mpr (.inl (List.mem_map.mpr ⟨tx, List.mem_reverse.mpr htx, rfl⟩))
  · -- a recorded height fits its four bytes
    by_contra hne
    obtain ⟨i, hi⟩ := List.mem_iff_getElem?.mp ho
    have hs := (db.transactions.find_true.mp hget).1
    obtain ⟨_, hk, _⟩ := h.spent tx.hash slab (List.mem_of_mem_head? hs) i o hi hne
    have hlt := hashesAt_lt hk
    have hle := db.blocks.count_le
    have hout : o ∈ tx.outputs := by
      rw [he]
      exact ho
    have := hun o.toStore (List.mem_map_of_mem hout)
    rw [show o.toStore.spenderHeight = u32 o.spenderHeight from rfl, u32_of_le (by omega)] at this
    exact hne this

end DataBase

/-! ## 5. Runs -/

/-- The operations of the runs. -/
inductive SpendingOp where
  | pushTransaction (tx : Transaction) (forks : Nat)
  | push (b : Block) (height : Nat)
  | pop

/-- The data base, and the block the last operation returned. -/
structure Spending where
  db : DataBase
  returned : Option Block

namespace Spending

def step [Core] (s : Spending) : SpendingOp → Spending
  | .pushTransaction tx forks => ⟨(s.db.pushUnconfirmed tx forks).1, none⟩
  | .push b height => ⟨(s.db.push b height).1, none⟩
  | .pop => ⟨s.db.pop.1, s.db.pop.2⟩

/-- The operation succeeds; what it brings in is what the hashes stand for, the outputs of a block
    are marked not spent, and heights and positions are those the tables assert. -/
def Allowed [Core] (content : HashDigest → Content) (s : Spending) : SpendingOp → Prop
  | .pushTransaction tx forks => (s.db.pushUnconfirmed tx forks).2 = .success ∧
    Genuine content tx ∧ tx.hash ≠ nullHash
  | .push b height => (s.db.push b height).2 = .success ∧ height < maxUint32 ∧
    b.transactions.length ≤ maxUint32 ∧ ∀ tx ∈ b.transactions, Arrives content tx
  | .pop => s.db.pop.2.isSome = true

/-- A spender height is not stale: no spend, or one at or below the top. -/
def Current (s : Spending) (height : Nat) : Prop :=
  height = notSpent ∨ ∃ top, s.db.blocks.top = some top ∧ height ≤ top

/-- **No stale spend**, in the slabs of either table (those under a newer slab as well) or in the
    block returned; and what is stored as unconfirmed is not spent. -/
structure NoStale (s : Spending) : Prop where
  transactions : ∀ hash, ∀ slab ∈ s.db.transactions.slabs hash, ∀ o ∈ slab.outputs,
    s.Current o.spenderHeight
  unconfirmed : ∀ hash, ∀ slab ∈ s.db.transactions.slabs hash, slab.position = unconfirmed →
    slab.Unspent
  pool : ∀ hash, ∀ entry ∈ s.db.transactionsUnconfirmed.entries hash, entry.Unspent
  returned : ∀ b ∈ s.returned, ∀ tx ∈ b.transactions, ∀ o ∈ tx.outputs, s.Current o.spenderHeight

/-- **The condition of a step**: a transaction pushed arrives with outputs whose stored heights are
    not spent; a pop is of a block none of whose outputs is marked spent. -/
def Unstale (s : Spending) : SpendingOp → Prop
  | .pushTransaction tx _ => ∀ o ∈ tx.outputs, u32 o.spenderHeight = notSpent
  | .push _ _ => True
  | .pop => s.db.TopUnspent

variable [Core] {content : HashDigest → Content} {s : Spending}

omit [Core] in
theorem noStale_of_recorded (h : s.db.SpendsRecorded content)
    (hpool : ∀ hash, ∀ entry ∈ s.db.transactionsUnconfirmed.entries hash, entry.Unspent)
    (hreturned : ∀ b ∈ s.returned, ∀ tx ∈ b.transactions, ∀ o ∈ tx.outputs,
      o.spenderHeight = notSpent) : s.NoStale where
  transactions hash slab hs o ho := by
    by_cases hne : o.spenderHeight = notSpent
    · exact .inl hne
    · obtain ⟨i, hi⟩ := List.mem_iff_getElem?.mp ho
      obtain ⟨_, hk, _⟩ := h.spent hash slab hs i o hi hne
      have hlt := DataBase.hashesAt_lt hk
      exact .inr ⟨s.db.blocks.count - 1, BlockDatabase.top_eq_some.mpr (by omega), by omega⟩
  unconfirmed := h.unspent
  pool := hpool
  returned b hb tx htx o ho := .inl (hreturned b hb tx htx o ho)

/-- **One step**: the record is kept exactly where nothing stale is handed out. -/
theorem step_recorded (h : s.db.SpendsRecorded content) {op : SpendingOp}
    (ha : s.Allowed content op) (hu : s.Unstale op) :
    (s.step op).db.SpendsRecorded content ∧ (s.NoStale → (s.step op).NoStale) := by
  cases op with
  | pushTransaction tx forks =>
      obtain ⟨hok, hg, hne⟩ := ha
      have hrec := DataBase.pushUnconfirmed_recorded h hg hne hu hok
      refine ⟨hrec, fun hs => noStale_of_recorded hrec (fun hash entry hm => ?_) fun _ hb => nomatch hb⟩
      obtain ⟨_, _, he⟩ := DataBase.pushUnconfirmed_success hok
      have hm : entry ∈ (s.db.pushUnconfirmed tx forks).1.transactionsUnconfirmed.entries hash := hm
      rw [he] at hm
      have hm : entry ∈ (s.db.transactionsUnconfirmed.store tx).entries hash := hm
      rw [TransactionUnconfirmedDatabase.store_entries] at hm
      rcases Stacks.mem_of_mem_push hm with ⟨_, rfl⟩ | hm
      · exact toSlab_unspent hu _ _
      · exact hs.pool hash entry hm
  | push b height =>
      obtain ⟨hok, hheight, hn, harrives⟩ := ha
      have hrec := DataBase.push_recorded h hheight hn harrives hok
      refine ⟨hrec, fun hs => noStale_of_recorded hrec (fun hash entry hm => ?_) fun _ hb => nomatch hb⟩
      obtain ⟨_, _, hw⟩ := DataBase.push_success hok
      have hpool : (s.db.push b height).1.transactionsUnconfirmed.entries = _ := hw.pool_eq
      have hm : entry ∈ (s.db.push b height).1.transactionsUnconfirmed.entries hash := hm
      rw [hpool, Stacks.popAll_apply] at hm
      exact hs.pool hash entry (List.mem_of_mem_drop hm)
  | pop =>
      obtain ⟨out, hout⟩ := Option.isSome_iff_exists.mp ha
      obtain ⟨hrec, hpool, hret⟩ := DataBase.pop_recorded h hu hout
      refine ⟨hrec, fun hs => noStale_of_recorded hrec (fun hash entry hm => ?_) fun b hb => ?_⟩
      · exact (hpool hash entry hm).elim (hs.pool hash entry) id
      · have hb : s.db.pop.2 = some b := hb
        cases hout.symm.trans hb
        exact hret

/-- A step that does not meet the condition leaves a spent output in the pool. -/
theorem step_stale (h : s.db.SpendsRecorded content) {op : SpendingOp} (ha : s.Allowed content op)
    (hn : (s.step op).NoStale) : s.Unstale op := by
  cases op with
  | pushTransaction tx forks =>
      obtain ⟨_, _, he⟩ := DataBase.pushUnconfirmed_success ha.1
      intro o ho
      have hm : tx.toSlab 0 Database.unconfirmed ∈
          (s.db.pushUnconfirmed tx forks).1.transactionsUnconfirmed.entries tx.hash := by
        rw [he]
        show _ ∈ (s.db.transactionsUnconfirmed.store tx).entries tx.hash
        rw [TransactionUnconfirmedDatabase.store_entries, Stacks.push_same]
        exact List.mem_cons_self
      exact hn.pool tx.hash _ hm o.toStore (List.mem_map_of_mem ho)
  | push b height => exact True.intro
  | pop =>
      obtain ⟨out, hout⟩ := Option.isSome_iff_exists.mp ha
      by_contra hu
      obtain ⟨hash, entry, hm, hspent⟩ := DataBase.pop_stale h hu hout
      exact hspent (hn.pool hash entry hm)

/-- Created tables, before the first block is pushed. -/
def created (settings : Settings) (flushes : Bool) (stray : BlockResult) : Spending :=
  ⟨DataBase.start settings flushes stray, none⟩

theorem created_recorded (settings : Settings) (flushes : Bool) (stray : BlockResult) :
    (created settings flushes stray).db.SpendsRecorded content := by
  have hs (hash : HashDigest) : (created settings flushes stray).db.transactions.slabs hash = [] :=
    TransactionDatabase.create_slabs ..
  refine ⟨fun hash slab hm => ?_, hs nullHash, fun hash slab hm => ?_, fun hash slab hm => ?_,
    fun hash slab rest hm => ?_, fun hash slab hm => ?_⟩
  · rw [hs] at hm
    cases hm
  · rw [hs] at hm
    cases hm
  · rw [hs] at hm
    cases hm
  · rw [hs] at hm
    cases hm
  · rw [hs] at hm
    cases hm

/-- **No stale spend survives a pop**, in every state of a run of successful operations, exactly
    where every step of the run meets the condition. -/
theorem noStale_iff (settings : Settings) (flushes : Bool) (stray : BlockResult)
    {ops : List SpendingOp}
    (h : EveryStep step (Allowed content) (created settings flushes stray) ops) :
    Always step NoStale (created settings flushes stray) ops ↔
      EveryStep step Unstale (created settings flushes stray) ops := by
  have hstart : (created settings flushes stray).NoStale := by
    have hrec : (created settings flushes stray).db.SpendsRecorded content :=
      created_recorded settings flushes stray
    refine noStale_of_recorded hrec (fun hash entry hm => ?_) fun _ hb => nomatch hb
    have hm : entry ∈ (DataBase.start settings flushes stray).transactionsUnconfirmed.entries hash :=
      hm
    rw [DataBase.start, TransactionUnconfirmedDatabase.create_entries] at hm
    cases hm
  refine always_iff_everyStep (I := fun s => s.db.SpendsRecorded content)
    (fun s op hI ha hP => ?_) (fun s op hI hP ha => ?_)
    (created_recorded settings flushes stray) hstart h
  · exact (step_recorded hI ha (step_stale hI ha hP)).1
  · exact ⟨step_stale hI ha, fun hu => (step_recorded hI ha hu).2 hP⟩

/-- A block whose third transaction spends an output of the second one. -/
def chainedBlock : Block :=
  .sample 2 1 [.sampleCoinbase 201 2, .sampleSpend 202 ⟨101, 0⟩ 1, .sampleSpend 203 ⟨202, 0⟩ 1]

/-- The contents of the transactions of the examples. -/
def sampleContent : HashDigest → Content :=
  contentIn (Block.sampleGenesis.transactions ++ chainedBlock.transactions)

/-- Created tables of the examples. -/
def sampleCreated : Spending := @created Core.sample Settings.sample true .sampleStray

omit [Core] in
theorem arrives_of_all {txs : List Transaction} (h : ∀ tx ∈ txs, tx.content = content tx.hash ∧
    tx.hash ≠ nullHash ∧ ∀ o ∈ tx.outputs, o.spenderHeight = notSpent) :
    ∀ tx ∈ txs, Arrives content tx :=
  fun tx htx => ⟨(h tx htx).1, (h tx htx).2.1, (h tx htx).2.2⟩

omit [Core] in
/-- **A block that spends its own output**, pushed and popped: the pool and the block returned carry
    the height of the popped block. -/
theorem chainedBlock_stale :
    EveryStep (@step Core.sample) (@Allowed Core.sample sampleContent) sampleCreated
        [.push .sampleGenesis 0, .push chainedBlock 1, .pop] ∧
      (∃ s, s = run (@step Core.sample) sampleCreated
          [.push .sampleGenesis 0, .push chainedBlock 1, .pop] ∧
        s.db.blocks.top = some 0 ∧
        (s.db.transactionsUnconfirmed.get 202).map (fun entry =>
          entry.outputs.map Output.spenderHeight) = some [1] ∧
        s.returned.map (fun b => b.transactions.map fun tx =>
          tx.outputs.map Output.spenderHeight) = some [[notSpent], [1], [notSpent]]) ∧
      ¬ Always (@step Core.sample) NoStale sampleCreated
        [.push .sampleGenesis 0, .push chainedBlock 1, .pop] := by
  have hpool : ((run (@step Core.sample) sampleCreated [.push .sampleGenesis 0, .push chainedBlock 1,
      .pop]).db.transactionsUnconfirmed.get 202).map (fun entry =>
        entry.outputs.map Output.spenderHeight) = some [1] := by decide +kernel
  refine ⟨⟨?_, ?_, ?_, True.intro⟩, ⟨_, rfl, ?_, hpool, ?_⟩, fun h => ?_⟩
  · exact ⟨by decide +kernel, by decide, by decide, arrives_of_all (by decide +kernel)⟩
  · exact ⟨by decide +kernel, by decide, by decide, arrives_of_all (by decide +kernel)⟩
  · show (@DataBase.pop Core.sample _).2.isSome = true
    decide +kernel
  · decide +kernel
  · decide +kernel
  · obtain ⟨entry, he, hheights⟩ := Option.map_eq_some_iff.mp hpool
    rw [TransactionUnconfirmedDatabase.get_eq] at he
    have hun := h.last.pool 202 entry (List.mem_of_mem_head? he)
    have hmem : (1 : Nat) ∈ entry.outputs.map Output.spenderHeight := by
      rw [hheights]
      exact List.mem_cons_self
    obtain ⟨o, ho, h1⟩ := List.mem_map.mp hmem
    have := hun o ho
    rw [h1] at this
    cases this

omit [Core] in
/-- A block that spends an output of the block below is popped without a stale height. -/
theorem spendingBlock_noStale :
    Always (@step Core.sample) NoStale sampleCreated
      [.push .sampleGenesis 0, .push DataBase.spendingBlock 1, .pop] := by
  refine (@noStale_iff Core.sample sampleContent Settings.sample true .sampleStray
    [.push .sampleGenesis 0, .push DataBase.spendingBlock 1, .pop] ⟨?_, ?_, ?_, True.intro⟩).mpr
    ⟨True.intro, True.intro, ?_, True.intro⟩
  · exact ⟨by decide +kernel, by decide, by decide, arrives_of_all (by decide +kernel)⟩
  · exact ⟨by decide +kernel, by decide, by decide, arrives_of_all (by decide +kernel)⟩
  · show (@DataBase.pop Core.sample _).2.isSome = true
    decide +kernel
  · -- the top block is the one just pushed, and both its outputs are unspent
    have hhashes : ((run (@step Core.sample) sampleCreated [.push .sampleGenesis 0,
        .push DataBase.spendingBlock 1]).db.blocks.get 1).map (fun r => r.slab.hashes) =
          some [201, 202] := by decide +kernel
    have hspent : ([201, 202] : List HashDigest).all (fun hash => ((run (@step Core.sample)
        sampleCreated [.push .sampleGenesis 0, .push DataBase.spendingBlock 1]).db.transactions.get
          hash 1 true).all fun slab => slab.outputs.all fun o => o.spenderHeight == notSpent) =
          true := by decide +kernel
    intro height r htop hr hash hm slab hs o ho
    have hone : (run (@step Core.sample) sampleCreated [.push .sampleGenesis 0,
        .push DataBase.spendingBlock 1]).db.blocks.top = some 1 := by decide +kernel
    cases hone.symm.trans htop
    obtain ⟨r', hr', he⟩ := Option.map_eq_some_iff.mp hhashes
    cases hr'.symm.trans hr
    rw [he] at hm
    have hall := List.all_eq_true.mp hspent hash hm
    have hs : (run (@step Core.sample) sampleCreated [.push .sampleGenesis 0,
        .push DataBase.spendingBlock 1]).db.transactions.get hash 1 true = some slab := hs
    rw [hs] at hall
    exact beq_iff_eq.mp (List.all_eq_true.mp hall o ho)

end Spending

end Libbitcoin.Database
