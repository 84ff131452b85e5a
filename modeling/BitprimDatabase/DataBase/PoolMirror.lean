/-
  File:      BitprimDatabase/DataBase/PoolMirror.lean
  Subject:   THE POOL MIRRORS THE TRANSACTION TABLE, whatever each operation of a session answers.

  * `Mirrors` -- a hash is in the pool exactly where its newest slab is unconfirmed, and then once;
  * four steps of the two tables keep it: a block transaction is stored and taken out of the pool,
    an unconfirmed one is stored in both, a transaction is demoted and put back, an output is spent
    or unspent. Every writer is a sequence of these, and its failures are first parts of it;
  * **`pool_mirrors`**: so in every state of a session, and `for_each` visits each such hash once.

  `hashOf` is the hash the core library computes of a transaction. No freedom from collisions is
  assumed.
-/
import BitprimDatabase.DataBase.Pool

namespace Libbitcoin.Database

open Lib

/-- What `for_each` hands to its function, which never stops it: each entry with its hash computed
    anew. -/
def TransactionUnconfirmedDatabase.forEach (hashOf : Content → HashDigest)
    (db : TransactionUnconfirmedDatabase) : List Transaction :=
  db.lookup.forEach.map fun item => item.2.transaction (hashOf item.2.content)

/-! ## 1. The two tables -/

/-- The newest slab of the hash is unconfirmed. -/
def UnconfirmedIn (s : Slabs) (hash : HashDigest) : Prop :=
  ∃ slab, (s hash).head? = some slab ∧ slab.position = unconfirmed

/-- The newest slab of the hash is confirmed. -/
def ConfirmedIn (s : Slabs) (hash : HashDigest) : Prop :=
  ∃ slab, (s hash).head? = some slab ∧ slab.position ≠ unconfirmed

theorem ConfirmedIn.not_unconfirmed {s : Slabs} {hash : HashDigest} (h : ConfirmedIn s hash) :
    ¬ UnconfirmedIn s hash := by
  rintro ⟨slab, hs, hu⟩
  obtain ⟨slab', hs', hne⟩ := h
  cases hs.symm.trans hs'
  exact hne hu

/-- The pool mirrors the transaction table. -/
structure Mirrors (hashOf : Content → HashDigest) (t : TransactionDatabase)
    (pool : TransactionUnconfirmedDatabase) : Prop where
  once : ∀ hash, (pool.entries hash).length ≤ 1
  mem_iff : ∀ hash, pool.entries hash ≠ [] ↔ UnconfirmedIn t.slabs hash
  slabs : SlabsOf (fun hash c => hashOf c = hash) t.slabs
  entries : SlabsOf (fun hash c => hashOf c = hash) pool.entries
  buckets : 0 < pool.lookup.size

section Tables

variable {hashOf : Content → HashDigest} {t : TransactionDatabase}
  {pool : TransactionUnconfirmedDatabase}

/-- A confirmed hash is not in the pool. -/
theorem Mirrors.free (h : Mirrors hashOf t pool) {hash : HashDigest}
    (hc : ConfirmedIn t.slabs hash) : pool.entries hash = [] := by
  by_contra hp
  exact hc.not_unconfirmed ((h.mem_iff hash).mp hp)

/-- A pop takes a hash out of the pool. -/
theorem Mirrors.popped (h : Mirrors hashOf t pool) (hash : HashDigest) :
    (pool.entries.pop hash) hash = [] := by
  rw [Stacks.pop_same]
  exact List.eq_nil_of_length_eq_zero (by rw [List.length_tail]; have := h.once hash; omega)

theorem unlinkIfExists_size (hash : HashDigest) :
    (pool.unlinkIfExists hash).1.lookup.size = pool.lookup.size :=
  (Table.unlinkIfFound_frame ..).1

/-- An edit of the slabs that confirms one hash and leaves the others, with the hash taken out of
    the pool. -/
theorem Mirrors.confirmed (h : Mirrors hashOf t pool) {t' : TransactionDatabase}
    {hash : HashDigest} (hs : SlabsOf (fun hash c => hashOf c = hash) t'.slabs)
    (hc : ConfirmedIn t'.slabs hash) (hne : ∀ k, k ≠ hash → t'.slabs k = t.slabs k) :
    Mirrors hashOf t' (pool.unlinkIfExists hash).1 where
  once k := by
    rw [TransactionUnconfirmedDatabase.unlinkIfExists_entries]
    by_cases hk : k = hash
    · subst hk
      rw [h.popped]
      exact Nat.zero_le 1
    · rw [Stacks.pop_ne _ hk]
      exact h.once k
  mem_iff k := by
    rw [TransactionUnconfirmedDatabase.unlinkIfExists_entries]
    by_cases hk : k = hash
    · subst hk
      rw [h.popped]
      exact iff_of_false (fun hn => hn rfl) hc.not_unconfirmed
    · rw [Stacks.pop_ne _ hk, h.mem_iff, UnconfirmedIn, UnconfirmedIn, hne k hk]
  slabs := hs
  entries := by
    rw [TransactionUnconfirmedDatabase.unlinkIfExists_entries]
    intro k slab hm
    by_cases hk : k = hash
    · subst hk
      rw [h.popped] at hm
      cases hm
    · rw [Stacks.pop_ne _ hk] at hm
      exact h.entries k slab hm
  buckets := by
    rw [unlinkIfExists_size]
    exact h.buckets

variable [Core]

/-- An edit of the slabs that leaves one hash unconfirmed and the others as they were, with a
    transaction of that hash put in the pool, where there was none. -/
theorem Mirrors.pooled (h : Mirrors hashOf t pool) {t' : TransactionDatabase} {tx : Transaction}
    (htx : hashOf tx.content = tx.hash) (hfree : pool.entries tx.hash = [])
    (hs : SlabsOf (fun hash c => hashOf c = hash) t'.slabs)
    (hu : UnconfirmedIn t'.slabs tx.hash) (hne : ∀ k, k ≠ tx.hash → t'.slabs k = t.slabs k) :
    Mirrors hashOf t' (pool.store tx) where
  once k := by
    rw [TransactionUnconfirmedDatabase.store_entries]
    by_cases hk : k = tx.hash
    · subst hk
      rw [Stacks.push_same, hfree]
      exact Nat.le_refl 1
    · rw [Stacks.push_ne _ _ hk]
      exact h.once k
  mem_iff k := by
    rw [TransactionUnconfirmedDatabase.store_entries]
    by_cases hk : k = tx.hash
    · subst hk
      rw [Stacks.push_same]
      exact iff_of_true (List.cons_ne_nil _ _) hu
    · rw [Stacks.push_ne _ _ hk, h.mem_iff, UnconfirmedIn, UnconfirmedIn, hne k hk]
  slabs := hs
  entries := by
    rw [TransactionUnconfirmedDatabase.store_entries]
    refine h.entries.push ?_
    rw [toSlab_content]
    exact htx
  buckets := h.buckets

/-- **A block transaction** is stored, and taken out of the pool. -/
theorem Mirrors.blockStore (h : Mirrors hashOf t pool) {tx : Transaction}
    (htx : hashOf tx.content = tx.hash) {height position : Nat} (hp : position < maxUint32) :
    Mirrors hashOf (t.store tx height position) (pool.unlinkIfExists tx.hash).1 := by
  obtain ⟨slab, hs, _, hpos, _⟩ := t.store_head tx height position
  refine h.confirmed (h.slabs.store htx height position) ⟨slab, hs, ?_⟩
    fun k hk => store_slabs_ne t tx height position hk
  rw [hpos, u32_of_lt hp]
  exact Nat.ne_of_lt hp

/-- **An unconfirmed transaction** is stored in both tables. -/
theorem Mirrors.unconfirmedStore (h : Mirrors hashOf t pool) {tx : Transaction}
    (htx : hashOf tx.content = tx.hash) (hfree : ¬ UnconfirmedIn t.slabs tx.hash) (forks : Nat) :
    Mirrors hashOf (t.store tx forks unconfirmed) (pool.store tx) := by
  obtain ⟨slab, hs, _, hpos, _⟩ := t.store_head tx forks unconfirmed
  refine h.pooled htx ?_ (h.slabs.store htx forks unconfirmed) ⟨slab, hs, hpos.trans u32_maxUint32⟩
    fun k hk => store_slabs_ne t tx forks unconfirmed hk
  by_contra hp
  exact hfree ((h.mem_iff _).mp hp)

/-- **A confirmed transaction** is demoted and put back in the pool. -/
theorem Mirrors.unconfirm (h : Mirrors hashOf t pool) {tx : Transaction}
    (htx : hashOf tx.content = tx.hash) (hc : ConfirmedIn t.slabs tx.hash) :
    Mirrors hashOf (t.unconfirm tx.hash).1 (pool.store tx) := by
  have hslabs := (DataBase.unconfirm_spec t tx.hash).2
  refine h.pooled htx (h.free hc) ?_ ?_ ?_
  · rw [hslabs]
    exact h.slabs.modifyTop _ (confirm_content _ _)
  · obtain ⟨slab, hs, _⟩ := hc
    refine ⟨slab.confirm Core.unverified unconfirmed, ?_, u32_maxUint32⟩
    rw [hslabs, Stacks.modifyTop_head, if_pos rfl, hs]
    rfl
  · intro k hk
    rw [hslabs, Stacks.modifyTop_ne _ _ hk]

omit [Core] in
/-- A spend or an unspend, whatever it answers, leaves the position of every newest slab. -/
theorem spend_position (t : TransactionDatabase) (point : Point) (height : Nat)
    (hash : HashDigest) : (((t.spend point height).1.slabs hash).head?.map TransactionSlab.position) =
      (t.slabs hash).head?.map TransactionSlab.position := by
  rcases t.spend_spec point height with ⟨_, _, _, _, hs⟩ | ⟨_, _, hs⟩
  · rw [hs, Stacks.modifyTop_head]
    split
    · rw [Option.map_map]
      rfl
    · rfl
  · rw [hs]

omit [Core] in
theorem unconfirmedIn_iff {s : Slabs} {hash : HashDigest} :
    UnconfirmedIn s hash ↔ (s hash).head?.map TransactionSlab.position = some unconfirmed := by
  rw [Option.map_eq_some_iff]
  rfl

omit [Core] in
theorem confirmedIn_iff {s : Slabs} {hash : HashDigest} :
    ConfirmedIn s hash ↔
      ∃ position, (s hash).head?.map TransactionSlab.position = some position ∧
        position ≠ unconfirmed := by
  constructor
  · rintro ⟨slab, hs, hne⟩
    exact ⟨slab.position, by rw [hs]; rfl, hne⟩
  · rintro ⟨_, hp, hne⟩
    obtain ⟨slab, hs, rfl⟩ := Option.map_eq_some_iff.mp hp
    exact ⟨slab, hs, hne⟩

omit [Core] in
/-- **An output** is spent or unspent, or is not found. -/
theorem Mirrors.spend (h : Mirrors hashOf t pool) (point : Point) (height : Nat) :
    Mirrors hashOf (t.spend point height).1 pool where
  once := h.once
  mem_iff hash := by
    rw [h.mem_iff, unconfirmedIn_iff, unconfirmedIn_iff, spend_position]
  slabs := by
    rcases t.spend_spec point height with ⟨_, _, _, _, hs⟩ | ⟨_, _, hs⟩
    · rw [hs]
      exact h.slabs.modifyTop _ (spend_content _ _)
    · rw [hs]
      exact h.slabs
  entries := h.entries
  buckets := h.buckets

end Tables

/-! ## 2. The writers -/

variable [Core]

/-- What a session assumes of an operation: the hashes are those of the transactions, the positions
    are within what the table asserts. -/
def Op.Proper (hashOf : Content → HashDigest) (op : Op) : Prop :=
  op.transactions.length ≤ maxUint32 ∧ ∀ tx ∈ op.transactions, hashOf tx.content = tx.hash

namespace DataBase

/-- The state after an operation, whatever it answers. -/
def attempt (db : DataBase) : Op → DataBase
  | .pushUnconfirmed tx forks => (db.pushUnconfirmed tx forks).1
  | .push b height => (db.push b height).1
  | .insert b height => (db.insert b height).1
  | .pop => db.pop.1
  | .popAbove forkHash => (db.popAbove forkHash).1

/-- The pool of the data base mirrors its transaction table. -/
def PoolMirrors (hashOf : Content → HashDigest) (db : DataBase) : Prop :=
  Mirrors hashOf db.transactions db.transactionsUnconfirmed

section Push

variable {hashOf : Content → HashDigest} {db : DataBase}

theorem pushTransaction_mirrors (h : db.PoolMirrors hashOf) {tx : Transaction × Nat}
    (htx : hashOf tx.1.content = tx.1.hash) (hp : tx.2 < maxUint32) (height : Nat) :
    (pushTransaction height db tx).PoolMirrors hashOf := by
  have hstep : Mirrors hashOf (db.transactions.store tx.1 height tx.2)
      (db.transactionsUnconfirmed.unlinkIfExists tx.1.hash).1 := h.blockStore htx hp
  unfold pushTransaction
  dsimp only
  split
  · exact hstep
  · obtain ⟨hi, _⟩ := pushIndexes_spec
      { db with
        transactions := db.transactions.store tx.1 height tx.2
        transactionsUnconfirmed := (db.transactionsUnconfirmed.unlinkIfExists tx.1.hash).1 }
      height tx.1 tx.2
    unfold PoolMirrors
    rw [hi.transactions_eq, hi.pool_eq]
    exact hstep

theorem pushAll_mirrors (h : db.PoolMirrors hashOf) {l : List (Transaction × Nat)}
    (hl : ∀ tx ∈ l, hashOf tx.1.content = tx.1.hash ∧ tx.2 < maxUint32) (height : Nat) :
    (l.foldl (pushTransaction height) db).PoolMirrors hashOf := by
  induction l generalizing db with
  | nil => exact h
  | cons tx l ih =>
      obtain ⟨htx, hp⟩ := hl tx List.mem_cons_self
      exact ih (pushTransaction_mirrors h htx hp height)
        fun tx' h' => hl tx' (List.mem_cons_of_mem _ h')

omit [Core] in
theorem spendAll_mirrors {t : TransactionDatabase} {pool : TransactionUnconfirmedDatabase}
    (h : Mirrors hashOf t pool) (height : Nat) (points : List Point) :
    Mirrors hashOf (DataBase.spendAll t height points).1 pool := by
  induction points generalizing t with
  | nil => exact h
  | cons p points ih =>
      have hstep := h.spend p height
      unfold spendAll
      rcases hs : t.spend p height with ⟨t', r⟩
      rw [hs] at hstep
      cases r with
      | false => exact hstep
      | true => exact ih hstep

omit [Core] in
/-- The transactions and positions of a block. -/
theorem zipIdx_proper {txs : List Transaction} (hn : txs.length ≤ maxUint32)
    (htx : ∀ tx ∈ txs, hashOf tx.content = tx.hash) {tx : Transaction × Nat}
    (hm : tx ∈ txs.zipIdx) : hashOf tx.1.content = tx.1.hash ∧ tx.2 < maxUint32 := by
  obtain ⟨hi, _⟩ := List.mem_zipIdx hm |>.2
  exact ⟨htx _ (List.fst_mem_of_mem_zipIdx hm), by omega⟩

theorem writeBlock_mirrors (h : db.PoolMirrors hashOf) {b : Block}
    (hn : b.transactions.length ≤ maxUint32)
    (htx : ∀ tx ∈ b.transactions, hashOf tx.content = tx.hash) (height : Nat) :
    (db.writeBlock b height).1.PoolMirrors hashOf := by
  have hpush := pushAll_mirrors h (fun _ hm => zipIdx_proper hn htx hm) height
  unfold writeBlock
  rw [pushTransactions_eq]
  simp only [pushHeights]
  have hspend := spendAll_mirrors hpush height b.previousOutputs
  rcases hs : spendAll (b.transactions.zipIdx.foldl (pushTransaction height) db).transactions height
    b.previousOutputs with ⟨t, r⟩
  rw [hs] at hspend
  cases r <;> exact hspend

theorem insert_mirrors (h : db.PoolMirrors hashOf) {b : Block}
    (hn : b.transactions.length ≤ maxUint32)
    (htx : ∀ tx ∈ b.transactions, hashOf tx.content = tx.hash) (height : Nat) :
    (db.insert b height).1.PoolMirrors hashOf := by
  have hw := writeBlock_mirrors h hn htx height
  unfold insert
  rcases hb : db.writeBlock b height with ⟨db', r⟩
  rw [hb] at hw
  cases db.verifyInsert b height with
  | success => cases r <;> exact hw
  | _ => exact h

theorem push_mirrors (h : db.PoolMirrors hashOf) {b : Block}
    (hn : b.transactions.length ≤ maxUint32)
    (htx : ∀ tx ∈ b.transactions, hashOf tx.content = tx.hash) (height : Nat) :
    (db.push b height).1.PoolMirrors hashOf := by
  unfold push
  cases db.verifyPush b height with
  | success =>
      rcases db.store.beginWrite with ⟨s, r⟩
      cases r with
      | false => exact h
      | true =>
          have hlocked : PoolMirrors hashOf { db with store := s } := h
          have hw := writeBlock_mirrors hlocked hn htx height
          dsimp only
          rcases hb : writeBlock { db with store := s } b height with ⟨db', r⟩
          rw [hb] at hw
          cases r <;> exact hw
  | _ => exact h

omit [Core] in
/-- The duplicate test of a transaction push: the newest slab of the hash is not unconfirmed. -/
theorem verifyPushTransaction_not_unconfirmed {tx : Transaction}
    (h : db.verifyPushTransaction tx = .success) :
    ¬ UnconfirmedIn db.transactions.slabs tx.hash := by
  rintro ⟨slab, hs, hu⟩
  unfold verifyPushTransaction TransactionDatabase.get at h
  rw [TransactionDatabase.find_false, hs] at h
  simp [TransactionSlab.isSpent, hu] at h

theorem pushUnconfirmed_mirrors (h : db.PoolMirrors hashOf) {tx : Transaction}
    (htx : hashOf tx.content = tx.hash) (forks : Nat) :
    (db.pushUnconfirmed tx forks).1.PoolMirrors hashOf := by
  unfold pushUnconfirmed
  cases hv : db.verifyPushTransaction tx with
  | success =>
      rcases db.store.beginWrite with ⟨s, r⟩
      cases r with
      | false => exact h
      | true => exact h.unconfirmedStore htx (verifyPushTransaction_not_unconfirmed hv) forks
  | _ => exact h

end Push

section Pop

variable {hashOf : Content → HashDigest}

/-- The loop of `pop_inputs`, whatever it answers, spends outputs and leaves the pool. -/
theorem popInputsFrom_mirrors {db : DataBase} (h : db.PoolMirrors hashOf) (height : Nat)
    (inputs : List Input) :
    (popInputsFrom height db inputs).1.PoolMirrors hashOf ∧
      ∀ hash, ConfirmedIn (popInputsFrom height db inputs).1.transactions.slabs hash ↔
        ConfirmedIn db.transactions.slabs hash := by
  induction inputs generalizing db with
  | nil => exact ⟨h, fun _ => Iff.rfl⟩
  | cons input inputs ih =>
      have hstep := h.spend input.previousOutput notSpent
      have hconf (hash : HashDigest) :
          ConfirmedIn (db.transactions.spend input.previousOutput notSpent).1.slabs hash ↔
            ConfirmedIn db.transactions.slabs hash := by
        rw [confirmedIn_iff, confirmedIn_iff, spend_position]
      unfold popInputsFrom TransactionDatabase.unspend
      rcases hs : db.transactions.spend input.previousOutput notSpent with ⟨t, r⟩
      rw [hs] at hstep hconf
      cases r with
      | false => exact ⟨hstep, hconf⟩
      | true =>
          dsimp only
          split
          · have hspent : PoolMirrors hashOf { db with transactions := t } := hstep
            obtain ⟨h₁, h₂⟩ := ih hspent
            exact ⟨h₁, fun hash => (h₂ hash).trans (hconf hash)⟩
          · have htables : (popIndexes { db with transactions := t } input).transactions = t ∧
                (popIndexes { db with transactions := t } input).transactionsUnconfirmed =
                  db.transactionsUnconfirmed := by
              unfold popIndexes
              cases Core.address input.script <;> exact ⟨rfl, rfl⟩
            have hspent : (popIndexes { db with transactions := t } input).PoolMirrors hashOf := by
              rw [PoolMirrors, htables.1, htables.2]
              exact hstep
            obtain ⟨h₁, h₂⟩ := ih hspent
            rw [htables.1] at h₂
            exact ⟨h₁, fun hash => (h₂ hash).trans (hconf hash)⟩

theorem popOutputs_tables (db : DataBase) (outputs : List Output) (height : Nat) :
    (db.popOutputs outputs height).transactions = db.transactions ∧
      (db.popOutputs outputs height).transactionsUnconfirmed = db.transactionsUnconfirmed := by
  have hloop (l : List Output) (db : DataBase) :
      (l.foldl popOutput db).transactions = db.transactions ∧
        (l.foldl popOutput db).transactionsUnconfirmed = db.transactionsUnconfirmed := by
    induction l generalizing db with
    | nil => exact ⟨rfl, rfl⟩
    | cons o l ih =>
        rw [List.foldl_cons, (ih _).1, (ih _).2]
        unfold popOutput
        cases Core.address o.script <;> exact ⟨rfl, rfl⟩
  unfold popOutputs
  split
  · exact ⟨rfl, rfl⟩
  · exact hloop _ db

/-- **The loop of `pop`**, whatever it answers: the transactions it has not come to are still
    confirmed, so each is put in the pool where it was not. -/
theorem popTransactions_mirrors {db : DataBase} (h : db.PoolMirrors hashOf) (height : Nat)
    {txs : List Transaction} (htx : ∀ tx ∈ txs, hashOf tx.content = tx.hash)
    (hn : (txs.map Transaction.hash).Nodup)
    (hc : ∀ tx ∈ txs, ConfirmedIn db.transactions.slabs tx.hash) :
    (popTransactions height db txs).1.PoolMirrors hashOf := by
  induction txs generalizing db with
  | nil => exact h
  | cons tx txs ih =>
      obtain ⟨hnot, hn⟩ := List.nodup_cons.mp hn
      obtain ⟨hhash, htx⟩ := List.forall_mem_cons.mp htx
      obtain ⟨hconf, hc⟩ := List.forall_mem_cons.mp hc
      have hdemote := h.unconfirm hhash hconf
      obtain ⟨hfound, hslabs⟩ := unconfirm_spec db.transactions tx.hash
      have hrest : ∀ tx' ∈ txs,
          ConfirmedIn (db.transactions.unconfirm tx.hash).1.slabs tx'.hash := by
        intro tx' hm
        have hne : tx'.hash ≠ tx.hash := fun he => hnot (he ▸ List.mem_map_of_mem hm)
        rw [ConfirmedIn, hslabs, Stacks.modifyTop_ne _ _ hne]
        exact hc tx' hm
      unfold popTransactions
      rcases hu : db.transactions.unconfirm tx.hash with ⟨t, r⟩
      rw [hu] at hdemote hrest hfound
      cases r with
      | false =>
          -- a confirmed hash has a slab to demote
          obtain ⟨slab, hs, _⟩ := hconf
          have hne : db.transactions.slabs tx.hash ≠ [] := by
            intro hnil
            rw [hnil] at hs
            cases hs
          cases hfound.mpr hne
      | true =>
          dsimp only
          obtain ⟨ht, hp⟩ := popOutputs_tables
            { db with
              transactions := t
              transactionsUnconfirmed := db.transactionsUnconfirmed.store tx } tx.outputs height
          generalize popOutputs
            { db with
              transactions := t
              transactionsUnconfirmed := db.transactionsUnconfirmed.store tx }
            tx.outputs height = db₁ at ht hp ⊢
          have h₁ : db₁.PoolMirrors hashOf := by
            rw [PoolMirrors, ht, hp]
            exact hdemote
          have hc₁ : ∀ tx' ∈ txs, ConfirmedIn db₁.transactions.slabs tx'.hash := by
            rw [ht]
            exact hrest
          split
          · exact ih h₁ htx hn hc₁
          · obtain ⟨h₂, hiff⟩ := popInputsFrom_mirrors h₁ height tx.inputs.reverse
            unfold popInputs
            rcases hin : popInputsFrom height db₁ tx.inputs.reverse with ⟨db₂, r⟩
            rw [hin] at h₂ hiff
            cases r with
            | false => exact h₂
            | true => exact ih h₂ htx hn fun tx' hm => (hiff _).mpr (hc₁ tx' hm)

theorem pop_mirrors {db : DataBase} (h : db.PoolMirrors hashOf) :
    db.pop.1.PoolMirrors hashOf := by
  unfold pop
  cases ht : db.blocks.top with
  | none => exact h
  | some height =>
      cases hg : db.blocks.get height with
      | none => simpa only [hg] using h
      | some block =>
          cases hr : db.readBlock height block with
          | none => simpa only [hg, hr] using h
          | some txs =>
              have hback := (readBlock_eq_some.mp hr).2
              have hread : ∀ tx ∈ txs.reverse, hashOf tx.content = tx.hash ∧
                  ConfirmedIn db.transactions.slabs tx.hash := by
                intro tx hm
                obtain ⟨t, _, slab, hs, _, hp, hu, rfl⟩ :=
                  forall₂_mem_right hback tx (List.mem_reverse.mp hm)
                exact ⟨h.slabs t.1 slab (List.mem_of_mem_head? hs), slab, hs, hp ▸ hu⟩
              have hn : (txs.reverse.map Transaction.hash).Nodup := by
                rw [List.map_reverse]
                exact List.nodup_reverse.mpr (readBack_nodup hback)
              have hloop := popTransactions_mirrors h height (fun tx hm => (hread tx hm).1) hn
                fun tx hm => (hread tx hm).2
              simp only [hg, hr]
              rcases hp : popTransactions height db txs.reverse with ⟨db', r⟩
              rw [hp] at hloop
              cases r with
              | false => exact hloop
              | true =>
                  dsimp only
                  rcases db'.blocks.unlink height with ⟨blocks, r⟩
                  cases r <;> exact hloop

theorem popBlocks_mirrors {db : DataBase} (h : db.PoolMirrors hashOf) (n : Nat) (out : List Block) :
    (popBlocks n db out).1.PoolMirrors hashOf := by
  induction n generalizing db out with
  | zero => exact h
  | succ n ih =>
      have hpop := pop_mirrors h
      unfold popBlocks
      split
      · exact h
      · rcases hp : db.pop with ⟨db', r⟩
        rw [hp] at hpop
        cases r with
        | none => exact hpop
        | some b => exact ih hpop (b :: out)

theorem popAbove_mirrors {db : DataBase} (h : db.PoolMirrors hashOf) (forkHash : HashDigest) :
    (db.popAbove forkHash).1.PoolMirrors hashOf := by
  unfold popAbove
  cases hr : db.blocks.getByHash forkHash with
  | none => exact h
  | some result =>
      cases ht : db.blocks.top with
      | none => exact h
      | some top =>
          simp only
          by_cases hz : subSize top result.height = 0
          · rw [if_pos hz]
            exact h
          · by_cases hm : subSize top result.height > maxReserve
            · rw [if_neg hz, if_pos hm]
              exact h
            · simp only [if_neg hz, if_neg hm]
              exact popBlocks_mirrors h _ []

end Pop

/-! ## 3. Sessions -/

section Session

variable {hashOf : Content → HashDigest}

/-- **An operation keeps the mirror**, whatever it answers. -/
theorem attempt_mirrors {db : DataBase} (h : db.PoolMirrors hashOf) {op : Op}
    (hop : op.Proper hashOf) : (db.attempt op).PoolMirrors hashOf := by
  obtain ⟨hn, htx⟩ := hop
  cases op with
  | pushUnconfirmed tx forks => exact pushUnconfirmed_mirrors h (htx tx List.mem_cons_self) forks
  | push b height => exact push_mirrors h hn htx height
  | insert b height => exact insert_mirrors h hn htx height
  | pop => exact pop_mirrors h
  | popAbove forkHash => exact popAbove_mirrors h forkHash

theorem create_mirrors {settings : Settings}
    (hb : 0 < settings.transactionUnconfirmedTableBuckets) (flushes : Bool) (stray : BlockResult)
    {genesis : Block} (hn : genesis.transactions.length ≤ maxUint32)
    (htx : ∀ tx ∈ genesis.transactions, hashOf tx.content = tx.hash) :
    (create settings flushes stray genesis).PoolMirrors hashOf := by
  refine push_mirrors ?_ hn htx 0
  have hpool (hash : HashDigest) :
      (start settings flushes stray).transactionsUnconfirmed.entries hash = [] :=
    TransactionUnconfirmedDatabase.create_entries ..
  have hslabs (hash : HashDigest) : (start settings flushes stray).transactions.slabs hash = [] :=
    TransactionDatabase.create_slabs ..
  refine ⟨fun hash => ?_, fun hash => ?_, fun hash slab hm => ?_, fun hash slab hm => ?_, hb⟩
  · rw [hpool]
    exact Nat.zero_le 1
  · refine iff_of_false (fun hne => hne (hpool hash)) ?_
    rintro ⟨slab, hs, _⟩
    rw [hslabs] at hs
    cases hs
  · rw [hslabs] at hm
    cases hm
  · rw [hpool] at hm
    cases hm

omit [Core] in
/-- `for_each` visits a hash once for each entry of it: the hash computed anew is the one the entry
    is stored under. -/
theorem PoolMirrors.visits {db : DataBase} (h : db.PoolMirrors hashOf) (hash : HashDigest) :
    ((db.transactionsUnconfirmed.forEach hashOf).map Transaction.hash).count hash =
      (db.transactionsUnconfirmed.entries hash).length := by
  have hitem : ∀ item ∈ db.transactionsUnconfirmed.lookup.forEach,
      hashOf item.2.content = item.1 := by
    intro item hm
    have hstack := db.transactionsUnconfirmed.lookup.wf.forEach_stack h.buckets item.1
    refine h.entries item.1 item.2 ?_
    show item.2 ∈ db.transactionsUnconfirmed.lookup.toHashTable.stack item.1
    rw [← hstack]
    exact List.mem_map.mpr ⟨item, List.mem_filter.mpr ⟨hm, by simp⟩, rfl⟩
  have hkeys : (db.transactionsUnconfirmed.forEach hashOf).map Transaction.hash =
      db.transactionsUnconfirmed.lookup.forEach.map Prod.fst := by
    unfold TransactionUnconfirmedDatabase.forEach
    rw [List.map_map]
    exact List.map_congr_left hitem
  have hentries : db.transactionsUnconfirmed.entries hash =
      (db.transactionsUnconfirmed.lookup.forEach.filter fun item => item.1 = hash).map Prod.snd :=
    (db.transactionsUnconfirmed.lookup.wf.forEach_stack h.buckets hash).symm
  rw [hkeys, hentries, List.length_map, List.count, List.countP_map, List.countP_eq_length_filter]
  rfl

/-- **The pool mirrors the transaction table** after any operations of a session, each successful
    or failed midway: a hash is in the pool exactly where the newest transaction of it is
    unconfirmed, and `for_each` visits each such hash once and no other. -/
theorem pool_mirrors {settings : Settings} (hb : 0 < settings.transactionUnconfirmedTableBuckets)
    (flushes : Bool) (stray : BlockResult) {genesis : Block}
    (hn : genesis.transactions.length ≤ maxUint32)
    (htx : ∀ tx ∈ genesis.transactions, hashOf tx.content = tx.hash) {ops : List Op}
    (hops : ∀ op ∈ ops, op.Proper hashOf) (hash : HashDigest) :
    ((∃ entry, (run attempt (create settings flushes stray genesis) ops).transactionsUnconfirmed.get
        hash = some entry) ↔
      ∃ slab, (run attempt (create settings flushes stray genesis) ops).transactions.get hash
        maxSize false = some slab ∧ slab.position = unconfirmed) ∧
    (((run attempt (create settings flushes stray genesis) ops).transactionsUnconfirmed.forEach
        hashOf).map Transaction.hash).count hash =
      if ((run attempt (create settings flushes stray genesis) ops).transactionsUnconfirmed.get
        hash).isSome then 1 else 0 := by
  have hstep (db : DataBase) (op : Op) (h : db.PoolMirrors hashOf) (hop : op.Proper hashOf) :
      (db.attempt op).PoolMirrors hashOf := attempt_mirrors h hop
  have h : (run attempt (create settings flushes stray genesis) ops).PoolMirrors hashOf :=
    run_of_mem hstep hops (create_mirrors hb flushes stray hn htx)
  generalize run attempt (create settings flushes stray genesis) ops = db at h
  have hhead : db.transactionsUnconfirmed.get hash =
      (db.transactionsUnconfirmed.entries hash).head? := db.transactionsUnconfirmed.get_eq hash
  have hiff := h.mem_iff hash
  have honce := h.once hash
  refine ⟨?_, ?_⟩
  · unfold TransactionDatabase.get
    rw [TransactionDatabase.find_false, hhead]
    refine Iff.trans ?_ hiff
    cases db.transactionsUnconfirmed.entries hash <;> simp
  · rw [h.visits, hhead]
    cases he : db.transactionsUnconfirmed.entries hash with
    | nil => rfl
    | cons entry rest =>
        rw [he, List.length_cons] at honce
        have : rest = [] := List.eq_nil_of_length_eq_zero (by omega)
        rw [this]
        rfl

/-- The hashes of three transactions of the examples. -/
def sampleHash (c : Content) : HashDigest :=
  if c = (Transaction.sampleCoinbase 101 1).content then 101
  else if c = (Transaction.sampleCoinbase 201 2).content then 201
  else 202

omit [Core] in
/-- A transaction is pooled, confirmed by a block and put back by a pop. -/
theorem pool_mirrors_sample :
    ∃ db, db = run (@attempt Core.sample) sample
        [.pushUnconfirmed (.sampleSpend 202 ⟨101, 0⟩ 1) 0, .push spendingBlock 1, .pop] ∧
      (∃ entry, db.transactionsUnconfirmed.get 202 = some entry) ∧
      ((db.transactionsUnconfirmed.forEach sampleHash).map Transaction.hash).count 202 = 1 := by
  obtain ⟨hiff, hcount⟩ := @pool_mirrors Core.sample sampleHash Settings.sample (by decide) true
    .sampleStray .sampleGenesis (by decide) (by decide +kernel)
    [.pushUnconfirmed (.sampleSpend 202 ⟨101, 0⟩ 1) 0, .push spendingBlock 1, .pop]
    (by
      intro op hm
      simp only [List.mem_cons, List.not_mem_nil, or_false] at hm
      rcases hm with rfl | rfl | rfl <;> exact ⟨by decide, by decide +kernel⟩) 202
  have hu : ((run (@attempt Core.sample) sample
      [.pushUnconfirmed (.sampleSpend 202 ⟨101, 0⟩ 1) 0, .push spendingBlock 1, .pop]).transactions.get
        202 maxSize false).map TransactionSlab.position = some unconfirmed := by decide +kernel
  have hin := hiff.mpr (Option.map_eq_some_iff.mp hu)
  refine ⟨_, rfl, hin, ?_⟩
  obtain ⟨entry, he⟩ := hin
  rw [show sample = @create Core.sample Settings.sample true .sampleStray .sampleGenesis from rfl,
    hcount, he]
  rfl

end Session

end DataBase

end Libbitcoin.Database
