/-
  File:      BitprimDatabase/DataBase/Pool.lean
  Subject:   THE POOL BESIDE THE TRANSACTION TABLE. A transaction push puts a transaction in both,
             a block takes it out of the pool, a pop puts it back.

  * `PoolSound` -- a hash in the pool is there once, and its newest slab is unconfirmed;
  * **`Reachable.poolSound`**: so it is in every reachable state. One unlink takes a hash out.
-/
import BitprimDatabase.DataBase.Retrievable

namespace Libbitcoin.Database

open Lib

variable [Core]

namespace DataBase

omit [Core] in
/-- A hash in the pool is there once, and its newest slab is unconfirmed. -/
def PoolSound (db : DataBase) : Prop :=
  ∀ hash, db.poolOf hash ≠ [] → (db.poolOf hash).length = 1 ∧
    ∃ slab, (db.transactions.slabs hash).head? = some slab ∧ slab.position = unconfirmed

section Step

variable {db db' : DataBase}

omit [Core] in
/-- A confirmed hash is not in the pool. -/
theorem PoolSound.confirmed (h : db.PoolSound) {hash : HashDigest} {slab : TransactionSlab}
    (hs : (db.transactions.slabs hash).head? = some slab) (hne : slab.position ≠ unconfirmed) :
    db.poolOf hash = [] := by
  by_contra hp
  obtain ⟨_, slab', hs', hu⟩ := h hash hp
  cases hs.symm.trans hs'
  exact hne hu

omit [Core] in
/-- Pops of hashes in any number empty their stacks. -/
theorem PoolSound.popAll (h : db.PoolSound) {hashes : List HashDigest} {hash : HashDigest}
    (hm : hash ∈ hashes) : db.poolOf.popAll hashes hash = [] := by
  rw [Stacks.popAll_apply]
  refine List.drop_eq_nil_iff.mpr ?_
  have hpos := List.count_pos_iff.mpr hm
  by_cases hp : db.poolOf hash = []
  · rw [hp]
    exact Nat.zero_le _
  · rw [(h hash hp).1]
    exact hpos

/-- **A block takes its transactions out of the pool.** -/
theorem Written.pool_nil {b : Block} {height : Nat} (hw : Written db b height db')
    (h : db.PoolSound) {hash : HashDigest} (hm : hash ∈ b.hashes) : db'.poolOf hash = [] := by
  rw [hw.pool_eq]
  exact h.popAll hm

theorem Written.poolSound {b : Block} {height : Nat} (hw : Written db b height db')
    (h : db.PoolSound) : db'.PoolSound := by
  intro hash hp
  by_cases hm : hash ∈ b.hashes
  · exact absurd (hw.pool_nil h hm) hp
  · have hsame : db'.poolOf hash = db.poolOf hash := by
      rw [hw.pool_eq, Stacks.popAll_apply, List.count_eq_zero_of_not_mem hm, List.drop_zero]
    rw [hsame] at hp ⊢
    obtain ⟨hl, slab, hs, hu⟩ := h hash hp
    obtain ⟨slab', hs', _, hpos⟩ := hw.head_notMem hm hs
    exact ⟨hl, slab', hs', hpos.trans hu⟩

/-- An accepted transaction was not in the pool. -/
theorem pushUnconfirmed_poolSound (h : db.PoolSound) {tx : Transaction} {forks : Nat}
    (hs : (db.pushUnconfirmed tx forks).2 = .success) :
    (db.pushUnconfirmed tx forks).1.PoolSound := by
  obtain ⟨hv, store, he⟩ := pushUnconfirmed_success hs
  have hfree : db.poolOf tx.hash = [] := by
    by_contra hp
    obtain ⟨_, slab, hslab, hu⟩ := h tx.hash hp
    unfold verifyPushTransaction TransactionDatabase.get at hv
    rw [TransactionDatabase.find_false, hslab] at hv
    simp [TransactionSlab.isSpent, hu] at hv
  have hslabs : (db.transactions.store tx forks unconfirmed).slabs =
      db.transactions.slabs.push tx.hash (tx.toSlab forks unconfirmed) := by
    rw [TransactionDatabase.store_slabs, if_neg (by simp [TransactionDatabase.inPlace])]
  rw [he]
  intro hash hp
  have hpool : (db.transactionsUnconfirmed.store tx).entries hash =
      (db.poolOf.push tx.hash (tx.toSlab 0 unconfirmed)) hash :=
    congrFun (TransactionUnconfirmedDatabase.store_entries ..) hash
  by_cases hk : hash = tx.hash
  · subst hk
    refine ⟨?_, tx.toSlab forks unconfirmed, ?_, u32_maxUint32⟩
    · show ((db.transactionsUnconfirmed.store tx).entries tx.hash).length = 1
      rw [hpool, Stacks.push_same, hfree]
      rfl
    · show ((db.transactions.store tx forks unconfirmed).slabs tx.hash).head? = _
      rw [hslabs, Stacks.push_same]
      rfl
  · have hp' : db.poolOf hash ≠ [] := by
      intro hnil
      refine hp ?_
      show (db.transactionsUnconfirmed.store tx).entries hash = []
      rw [hpool, Stacks.push_ne _ _ hk, hnil]
    obtain ⟨hl, slab, hslab, hu⟩ := h hash hp'
    refine ⟨?_, slab, ?_, hu⟩
    · show ((db.transactionsUnconfirmed.store tx).entries hash).length = 1
      rw [hpool, Stacks.push_ne _ _ hk, hl]
    · show ((db.transactions.store tx forks unconfirmed).slabs hash).head? = _
      rw [hslabs, Stacks.push_ne _ _ hk, hslab]

omit [Core] in
/-- The transactions read back from one block have distinct hashes. -/
theorem readBack_nodup {height : Nat} {hashes : List HashDigest} {txs : List Transaction}
    (h : List.Forall₂ (db.ReadBack height) hashes.zipIdx txs) : (txs.map Transaction.hash).Nodup := by
  refine List.pairwise_map.mpr (pairwise_of_forall₂ h (zipIdx_pairwise _ 0) ?_)
  intro t t' tx tx' hr hr' hlt he
  obtain ⟨slab, hs, _, hp, _, rfl⟩ := hr
  obtain ⟨slab', hs', _, hp', _, rfl⟩ := hr'
  have he : t.1 = t'.1 := he
  rw [he] at hs
  cases hs.symm.trans hs'
  omega

/-- **A pop puts its transactions in the pool**, where they were not. -/
theorem pop_poolSound (h : db.PoolSound) {out : Block} (hp : db.pop.2 = some out) :
    db.pop.1.PoolSound := by
  obtain ⟨height, txs, ⟨_, block, _, _, hback, _⟩, hpop⟩ := (db.pop_spec out).2 hp
  have hkeys : (txs.reverse.map fun tx => (tx.hash, tx.toSlab 0 unconfirmed)).map Prod.fst =
      (txs.map Transaction.hash).reverse := by
    rw [List.map_map, ← List.map_reverse]
    rfl
  have hn := readBack_nodup hback
  intro hash hne
  rw [hpop.pool_eq] at hne ⊢
  by_cases hm : ∃ tx ∈ txs, tx.hash = hash
  · obtain ⟨tx, htx, rfl⟩ := hm
    obtain ⟨t, _, slab, hs, _, hpos, hu, rfl⟩ := forall₂_mem_right hback tx htx
    have hfree : db.poolOf t.1 = [] := h.confirmed hs (hpos ▸ hu)
    refine ⟨?_, ?_⟩
    · have hmem : ((slab.transaction t.1).hash, (slab.transaction t.1).toSlab 0 unconfirmed) ∈
          txs.reverse.map fun tx => (tx.hash, tx.toSlab 0 unconfirmed) :=
        List.mem_map.mpr ⟨_, List.mem_reverse.mpr htx, rfl⟩
      have hpush := Stacks.pushAll_of_mem db.poolOf
        (by rw [hkeys]; exact List.nodup_reverse.mpr hn) hmem
      rw [hpush]
      show ((slab.transaction t.1).toSlab 0 unconfirmed :: db.poolOf t.1).length = 1
      rw [hfree]
      rfl
    · rw [hpop.slabs_eq]
      refine unwind_mem (List.mem_reverse.mpr htx) fun hnil => ?_
      rw [show (slab.transaction t.1).hash = t.1 from rfl] at hnil
      rw [hnil] at hs
      cases hs
  · have hnot : ∀ tx ∈ txs.reverse, tx.hash ≠ hash := fun tx htx he =>
      hm ⟨tx, List.mem_reverse.mp htx, he⟩
    have hsame : db.poolOf.pushAll (txs.reverse.map fun tx => (tx.hash, tx.toSlab 0 unconfirmed))
        hash = db.poolOf hash := by
      refine Stacks.pushAll_of_notMem _ _ fun hmem => ?_
      rw [hkeys, List.mem_reverse] at hmem
      obtain ⟨tx, htx, he⟩ := List.mem_map.mp hmem
      exact hm ⟨tx, htx, he⟩
    rw [hsame] at hne ⊢
    obtain ⟨hl, slab, hs, hu⟩ := h hash hne
    refine ⟨hl, slab.spendAt (indexesOf (txs.reverse.flatMap Transaction.popPoints) hash) notSpent,
      ?_, hu⟩
    rw [hpop.slabs_eq, unwind_notMem hnot, spendSlabs_head, hs]
    rfl

end Step

/-! ## Every reachable state -/

/-- The pool of a created data base is empty, stored the first block or not. -/
theorem create_pool (settings : Settings) (flushes : Bool) (stray : BlockResult) (genesis : Block)
    (hash : HashDigest) : (create settings flushes stray genesis).poolOf hash = [] := by
  have hwrite (db : DataBase) (h : db.poolOf hash = []) :
      (db.writeBlock genesis 0).1.poolOf hash = [] := by
    obtain ⟨_, _, _, _, _, hpool, _⟩ := pushAllTransactions_spec 0 db genesis.transactions.zipIdx
    have h' : (genesis.transactions.zipIdx.foldl (pushTransaction 0) db).poolOf hash = [] := by
      rw [hpool, Stacks.popAll_apply, h, List.drop_nil]
    unfold writeBlock
    rw [pushTransactions_eq]
    simp only [pushHeights]
    rcases spendAll (genesis.transactions.zipIdx.foldl (pushTransaction 0) db).transactions 0
      genesis.previousOutputs with ⟨t, r⟩
    cases r <;> exact h'
  have hstart : (start settings flushes stray).poolOf hash = [] :=
    TransactionUnconfirmedDatabase.create_entries ..
  unfold create push
  split
  · rcases (start settings flushes stray).store.beginWrite with ⟨s, r⟩
    cases r with
    | false => exact hstart
    | true =>
        have hw := hwrite { start settings flushes stray with store := s } hstart
        dsimp only
        rcases hwb : writeBlock { start settings flushes stray with store := s } genesis 0
          with ⟨db', r⟩
        rw [hwb] at hw
        cases r <;> exact hw
  · exact hstart

/-- **In every reachable state a hash in the pool is there once and unconfirmed.** -/
theorem Reachable.poolSound {content : HashDigest → Content} {db : DataBase}
    (h : Reachable content db) : db.PoolSound := by
  induction h with
  | create settings flushes stray genesis hg =>
      exact fun hash hne => absurd (create_pool settings flushes stray genesis hash) hne
  | setStray _ stray ih => exact ih
  | apply _ op htx ha ih =>
      have ha := apply_eq_some ha
      cases op with
      | pushUnconfirmed tx forks =>
          obtain ⟨hs, rfl⟩ := ha
          exact pushUnconfirmed_poolSound ih hs
      | push b height =>
          obtain ⟨hs, rfl⟩ := ha
          exact (push_success hs).2.2.poolSound ih
      | insert b height =>
          obtain ⟨hs, rfl⟩ := ha
          exact ((insert_success _ b height).2 hs).1.poolSound ih
      | pop =>
          obtain ⟨⟨out, hs⟩, rfl⟩ := ha
          exact pop_poolSound ih hs
      | popAbove forkHash =>
          obtain ⟨hs, rfl⟩ := ha
          exact popAbove_keeps (P := PoolSound) (fun _ _ hp hs => pop_poolSound hp hs) ih hs

end DataBase

end Libbitcoin.Database
