/-
  File:      BitprimDatabase/DataBase/Retrievable.lean
  Subject:   **WHEN EVERY BLOCK OF THE CHAIN STAYS RETRIEVABLE**: what `pop` demands of the
             transactions of a block, of every block and along every run of pushes and pops.

  * `Retrievable` -- every transaction of every block on the chain is found confirmed at its
    height and position;
  * `NoDuplicate` -- per operation: a pushed transaction is not on the chain, a pushed block has
    distinct transactions none of which is on the chain;
  * a run stays retrievable exactly where every operation of it meets `NoDuplicate`. A push of a
    hash that is on the chain hides the transaction confirmed there.
-/
import BitprimDatabase.Lib.Run
import BitprimDatabase.DataBase.PushPop

namespace Libbitcoin.Database

open Lib

variable [Core]

/-! ## 1. The operations -/

/-- The writers that add on top and remove from the top. -/
inductive ChainOp where
  | pushUnconfirmed (tx : Transaction) (forks : Nat)
  | push (b : Block) (height : Nat)
  | pop

def ChainOp.toOp : ChainOp → Op
  | .pushUnconfirmed tx forks => .pushUnconfirmed tx forks
  | .push b height => .push b height
  | .pop => .pop

/-- What the stores assert of a block: its height and positions fit in four bytes. -/
def Asserted (b : Block) (height : Nat) : Prop :=
  height < maxUint32 ∧ b.transactions.length ≤ maxUint32

namespace DataBase

/-- The operation answers success, its assertions hold. -/
def Succeeds (db : DataBase) (op : ChainOp) : Prop :=
  (db.apply op.toOp).isSome = true ∧
    match op with
    | .push b height => Asserted b height
    | _ => True

/-- The state after a successful operation. -/
def chainStep (db : DataBase) (op : ChainOp) : DataBase := (db.apply op.toOp).getD db

/-! ## 2. Retrievable blocks -/

/-- What `pop` demands of the transaction at a position of a block. -/
def Found (db : DataBase) (hash : HashDigest) (height position : Nat) : Prop :=
  ∃ slab, db.transactions.get hash height true = some slab ∧ slab.height = height ∧
    slab.position = position

/-- Every transaction of every block on the chain is found where the block has it. -/
def Retrievable (db : DataBase) : Prop :=
  ∀ height r, db.blocks.get height = some r → ∀ position < r.transactionCount,
    db.Found (r.transactionHash position) height position

/-- The hash stands in a block on the chain. -/
def OnChain (db : DataBase) (hash : HashDigest) : Prop :=
  ∃ height r, db.blocks.get height = some r ∧ hash ∈ r.slab.hashes

/-- **No hash comes twice**: neither within a block nor on top of the chain. -/
def NoDuplicate (db : DataBase) : ChainOp → Prop
  | .pushUnconfirmed tx _ => ¬ db.OnChain tx.hash
  | .push b _ => b.hashes.Nodup ∧ ∀ hash ∈ b.hashes, ¬ db.OnChain hash
  | .pop => True

omit [Core] in
theorem found_iff {db : DataBase} {hash : HashDigest} {height position : Nat} :
    db.Found hash height position ↔ ∃ slab, (db.transactions.slabs hash).head? = some slab ∧
      slab.height = height ∧ slab.position = position ∧ position ≠ unconfirmed := by
  constructor
  · rintro ⟨slab, hg, hh, hp⟩
    obtain ⟨hs, _, hne⟩ := db.transactions.find_true.mp hg
    exact ⟨slab, hs, hh, hp, hp ▸ hne⟩
  · rintro ⟨slab, hs, hh, hp, hne⟩
    exact ⟨slab, db.transactions.find_true.mpr ⟨hs, Nat.le_of_eq hh, hp ▸ hne⟩, hh, hp⟩

omit [Core] in
/-- A transaction stays found where the newest slab of its hash keeps its place. -/
theorem Found.of_head {db db' : DataBase} {hash : HashDigest} {height position : Nat}
    (h : db.Found hash height position)
    (hs : ∀ slab, (db.transactions.slabs hash).head? = some slab →
      ∃ slab', (db'.transactions.slabs hash).head? = some slab' ∧ slab'.height = slab.height ∧
        slab'.position = slab.position) : db'.Found hash height position := by
  obtain ⟨slab, hslab, hh, hp, hne⟩ := found_iff.mp h
  obtain ⟨slab', hslab', hh', hp'⟩ := hs slab hslab
  exact found_iff.mpr ⟨slab', hslab', hh'.trans hh, hp'.trans hp, hne⟩

omit [Core] in
/-- The positions of a block's hashes. -/
theorem transactionHash_mem {r : BlockResult} {position : Nat} (h : position < r.transactionCount) :
    r.transactionHash position ∈ r.slab.hashes := by
  unfold BlockResult.transactionHash
  rw [List.getElem?_eq_getElem h]
  exact List.getElem_mem h

omit [Core] in
theorem mem_hashes {r : BlockResult} {hash : HashDigest} (h : hash ∈ r.slab.hashes) :
    ∃ position < r.transactionCount, r.transactionHash position = hash := by
  obtain ⟨i, hi, rfl⟩ := List.mem_iff_getElem.mp h
  exact ⟨i, hi, by rw [BlockResult.transactionHash, List.getElem?_eq_getElem hi]; rfl⟩

omit [Core] in
/-- On a retrievable chain a hash is found where it stands. -/
theorem Retrievable.found {db : DataBase} (h : db.Retrievable) {hash : HashDigest}
    (hc : db.OnChain hash) : ∃ height position, height < db.blocks.count ∧
      db.Found hash height position := by
  obtain ⟨height, r, hr, hm⟩ := hc
  obtain ⟨position, hlt, rfl⟩ := mem_hashes hm
  refine ⟨height, position, ?_, h height r hr position hlt⟩
  by_contra hge
  rw [BlockDatabase.get_eq, if_neg hge] at hr
  cases hr

/-! ## 3. One step -/

/-- A pushed transaction becomes the newest of its hash, unconfirmed. -/
theorem pushUnconfirmed_retrievable {db : DataBase} (h : db.Retrievable) {tx : Transaction}
    {forks : Nat} (hs : (db.pushUnconfirmed tx forks).2 = .success) :
    (db.pushUnconfirmed tx forks).1.Retrievable ↔ ¬ db.OnChain tx.hash := by
  obtain ⟨_, store, he⟩ := pushUnconfirmed_success hs
  rw [he]
  have hslabs : (db.transactions.store tx forks unconfirmed).slabs =
      db.transactions.slabs.push tx.hash (tx.toSlab forks unconfirmed) := by
    rw [TransactionDatabase.store_slabs, if_neg (by simp [TransactionDatabase.inPlace])]
  constructor
  · rintro h' ⟨height, r, hr, hm⟩
    obtain ⟨position, hlt, hpos⟩ := mem_hashes hm
    obtain ⟨slab, hhead, _, hp, hne⟩ := found_iff.mp (h' height r hr position hlt)
    rw [hpos] at hhead
    simp only [hslabs, Stacks.push_same, List.head?_cons, Option.some.injEq] at hhead
    subst hhead
    exact hne (hp.symm.trans u32_maxUint32)
  · intro hnot height r hr position hlt
    refine (h height r hr position hlt).of_head fun slab hslab => ⟨slab, ?_, rfl, rfl⟩
    have hne : r.transactionHash position ≠ tx.hash := fun he =>
      hnot ⟨height, r, hr, he ▸ transactionHash_mem hlt⟩
    simp only [hslabs, Stacks.push_ne _ _ hne]
    exact hslab

/-- The block after a push: what was there, and the block on top. -/
theorem Written.get {db db' : DataBase} {b : Block} {height : Nat} (hw : Written db b height db')
    (hcount : db.blocks.count = height) (hh : height < maxUint32) (k : Nat) :
    db'.blocks.get k =
      if k = height then some ⟨b.header.hash, b.toSlab height⟩ else db.blocks.get k := by
  rw [hw.blocks_eq]
  by_cases hk : k = height
  · subst hk
    rw [if_pos rfl, BlockDatabase.store_get_same _ _ hh]
  · rw [if_neg hk]
    by_cases hlt : k < db.blocks.count
    · exact BlockDatabase.store_get_lt _ _ hh hlt hk
    · rw [BlockDatabase.get_eq, BlockDatabase.get_eq, if_neg hlt, if_neg]
      rw [BlockDatabase.store_count _ _ hh]
      omega

/-- The newest slab of a hash outside a written block keeps its place. -/
theorem Written.head_notMem {db db' : DataBase} {b : Block} {height : Nat}
    (hw : Written db b height db') {hash : HashDigest} (hnot : hash ∉ b.hashes)
    {slab : TransactionSlab} (hs : (db.transactions.slabs hash).head? = some slab) :
    ∃ slab', (db'.transactions.slabs hash).head? = some slab' ∧ slab'.height = slab.height ∧
      slab'.position = slab.position := by
  refine ⟨slab.spendAt (indexesOf b.previousOutputs hash) height, ?_, rfl, rfl⟩
  rw [hw.slabs_eq, spendSlabs_head, stored_notMem db height hnot, hs]
  rfl

/-- A block on top is retrievable exactly where its hashes are new and distinct. -/
theorem Written.retrievable {db db' : DataBase} {b : Block} {height : Nat}
    (hw : Written db b height db') (h : db.Retrievable) (hcount : db.blocks.count = height)
    (ha : Asserted b height) :
    db'.Retrievable ↔ b.hashes.Nodup ∧ ∀ hash ∈ b.hashes, ¬ db.OnChain hash := by
  have hget := hw.get hcount ha.1
  have htop : db'.blocks.get height = some ⟨b.header.hash, b.toSlab height⟩ := by
    rw [hget, if_pos rfl]
  constructor
  · intro h'
    -- a hash of the block is found at the height, at each of its positions
    have hfound (i : Nat) (hi : i < b.hashes.length) : db'.Found b.hashes[i] height i := by
      have := h' height _ htop i hi
      unfold BlockResult.transactionHash at this
      rw [show (b.toSlab height).hashes[i]? = some b.hashes[i] from
        List.getElem?_eq_getElem hi] at this
      exact this
    constructor
    · refine List.nodup_iff_injective_getElem.mpr fun i j hij => ?_
      obtain ⟨slab, hs, _, hp, _⟩ := found_iff.mp (hfound i i.2)
      obtain ⟨slab', hs', _, hp', _⟩ := found_iff.mp (hfound j j.2)
      have hij' : b.hashes[i.1] = b.hashes[j.1] := hij
      rw [hij', hs'] at hs
      cases hs
      exact Fin.ext (hp.symm.trans hp')
    · rintro hash hm ⟨k, r, hr, hk⟩
      obtain ⟨i, hi, rfl⟩ := List.mem_iff_getElem.mp hm
      obtain ⟨position, hlt, hpos⟩ := mem_hashes hk
      have hkc : k < height := by
        by_contra hge
        rw [BlockDatabase.get_eq, if_neg (by omega)] at hr
        cases hr
      have hr' : db'.blocks.get k = some r := by rw [hget, if_neg (by omega), hr]
      obtain ⟨slab, hs, hh, _⟩ := found_iff.mp (hfound i hi)
      obtain ⟨slab', hs', hh', _⟩ := found_iff.mp (h' k r hr' position hlt)
      rw [hpos, hs] at hs'
      cases hs'
      omega
  · rintro ⟨hd, hnot⟩ k r hr position hlt
    rw [hget] at hr
    split at hr
    · rename_i hk
      subst hk
      cases hr
      have hlt' : position < b.transactions.length := by
        simpa [BlockResult.transactionCount, Block.toSlab, Block.hashes] using hlt
      have ht : (b.transactions[position], position) ∈ b.transactions.zipIdx :=
        List.mem_zipIdx_iff_getElem?.mpr (List.getElem?_eq_getElem hlt')
      have hhash : BlockResult.transactionHash ⟨b.header.hash, b.toSlab k⟩ position =
          b.transactions[position].hash := by
        simp [BlockResult.transactionHash, Block.toSlab, Block.hashes,
          List.getElem?_eq_getElem hlt']
      obtain ⟨slab, hs, hsh, hsp, _⟩ := db.stored_head hd k ht
      obtain ⟨hu, hne⟩ := position_bound ha.2 ht
      rw [hhash]
      refine found_iff.mpr ⟨slab.spendAt (indexesOf b.previousOutputs b.transactions[position].hash) k, ?_,
        hsh.trans (u32_of_lt ha.1), hsp.trans hu, hne⟩
      rw [hw.slabs_eq, spendSlabs_head, hs]
      rfl
    · refine (h k r hr position hlt).of_head fun slab hs => hw.head_notMem ?_ hs
      exact fun hm => hnot _ hm ⟨k, r, hr, transactionHash_mem hlt⟩

/-- A pop of a retrievable chain leaves one: the transactions it demotes stand at the top only. -/
theorem pop_retrievable {db : DataBase} (h : db.Retrievable) {out : Block}
    (hp : db.pop.2 = some out) : db.pop.1.Retrievable := by
  obtain ⟨height, txs, ⟨ht, block, _, _, hback, _⟩, hpop⟩ := (db.pop_spec out).2 hp
  have hcount := BlockDatabase.top_eq_some.mp ht
  intro k r hr position hlt
  rw [hpop.blocks_eq, BlockDatabase.unlink_get (by omega)] at hr
  split at hr
  · rename_i hk
    have hf := h k r hr position hlt
    refine hf.of_head fun slab hs => ?_
    obtain ⟨slab', hs', hh, _⟩ := found_iff.mp hf
    cases hs.symm.trans hs'
    have hnot : ∀ tx ∈ txs.reverse, tx.hash ≠ r.transactionHash position := by
      intro tx htx he
      obtain ⟨t, _, slab', hs', hh', _, _, htxe⟩ :=
        forall₂_mem_right hback tx (List.mem_reverse.mp htx)
      have hte : t.1 = r.transactionHash position := by
        rw [← he, htxe]
        rfl
      rw [hte, hs] at hs'
      cases hs'
      omega
    refine ⟨slab.spendAt (indexesOf (txs.reverse.flatMap Transaction.popPoints)
      (r.transactionHash position)) notSpent, ?_, rfl, rfl⟩
    rw [hpop.slabs_eq, unwind_notMem hnot, spendSlabs_head, hs]
    rfl
  · cases hr

/-- **The step**: a successful operation keeps a retrievable chain retrievable exactly where it
    brings no duplicate. -/
theorem chainStep_retrievable {db : DataBase} (h : db.Retrievable) {op : ChainOp}
    (hs : db.Succeeds op) : (db.chainStep op).Retrievable ↔ db.NoDuplicate op := by
  obtain ⟨hs, ha⟩ := hs
  obtain ⟨db', hdb⟩ := Option.isSome_iff_exists.mp hs
  have hstep : db.chainStep op = db' := by
    unfold chainStep
    rw [hdb]
    rfl
  rw [hstep]
  have happly := apply_eq_some hdb
  cases op with
  | pushUnconfirmed tx forks =>
      obtain ⟨hs, rfl⟩ := happly
      exact pushUnconfirmed_retrievable h hs
  | push b height =>
      obtain ⟨hs, rfl⟩ := happly
      obtain ⟨hv, _, hw⟩ := push_success hs
      exact hw.retrievable h (verifyPush_success hv).2.1 ha
  | pop =>
      obtain ⟨⟨out, hs⟩, rfl⟩ := happly
      exact iff_of_true (pop_retrievable h hs) trivial

/-! ## 4. Runs from a created data base -/

/-- A stored first block has distinct transactions. -/
def GenesisDistinct (db : DataBase) (genesis : Block) : Prop :=
  db.blocks.get 0 ≠ none → genesis.hashes.Nodup

omit [Core] in
theorem retrievable_of_no_blocks {db : DataBase} (h : ∀ height, db.blocks.get height = none) :
    db.Retrievable := by
  intro height r hr
  rw [h] at hr
  cases hr

theorem create_retrievable (settings : Settings) (flushes : Bool) (stray : BlockResult)
    {genesis : Block} (hg : genesis.transactions.length ≤ maxUint32) :
    (create settings flushes stray genesis).Retrievable ↔
      GenesisDistinct (create settings flushes stray genesis) genesis := by
  have hnone (height : Nat) : (start settings flushes stray).blocks.get height = none := rfl
  rcases (start settings flushes stray).push_cases genesis 0 with ⟨_, hb⟩ | ⟨_, _, hw⟩
  · have hb' (height : Nat) : (create settings flushes stray genesis).blocks.get height = none := by
      rw [create, hb, hnone]
    exact iff_of_true (retrievable_of_no_blocks hb') fun h => absurd (hb' 0) h
  · have ha : Asserted genesis 0 := ⟨by decide, hg⟩
    have h0 := hw.get rfl ha.1 0
    rw [if_pos rfl] at h0
    refine (hw.retrievable (retrievable_of_no_blocks hnone) rfl ha).trans ?_
    constructor
    · exact fun h _ => h.1
    · refine fun h => ⟨h (by rw [create, h0]; exact Option.some_ne_none _), ?_⟩
      rintro hash _ ⟨height, r, hr, _⟩
      rw [hnone] at hr
      cases hr

/-- **The exact condition**: along a run of successful operations from a created data base, every
    block stays retrievable in every state exactly where the first block has distinct transactions
    and no operation brings a hash that is on the chain. -/
theorem retrievable_iff_noDuplicate (settings : Settings) (flushes : Bool) (stray : BlockResult)
    {genesis : Block} (hg : genesis.transactions.length ≤ maxUint32) {ops : List ChainOp}
    (hs : EveryStep chainStep Succeeds (create settings flushes stray genesis) ops) :
    Always chainStep Retrievable (create settings flushes stray genesis) ops ↔
      GenesisDistinct (create settings flushes stray genesis) genesis ∧
        EveryStep chainStep NoDuplicate (create settings flushes stray genesis) ops := by
  have hbase := create_retrievable settings flushes stray hg
  have hrun (h1 : (create settings flushes stray genesis).Retrievable) :
      Always chainStep Retrievable (create settings flushes stray genesis) ops ↔
        EveryStep chainStep NoDuplicate (create settings flushes stray genesis) ops :=
    always_iff_everyStep (I := fun _ => True) (fun _ _ _ _ _ => trivial)
      (fun _ _ _ h hs => chainStep_retrievable h hs) trivial h1 hs
  constructor
  · exact fun h => ⟨hbase.mp h.head, (hrun h.head).mp h⟩
  · exact fun h => (hrun (hbase.mpr h.1)).mpr h.2

omit [Core] in
/-- The block of two transactions stays retrievable, and the chain after its pop. -/
theorem spendingBlock_retrievable :
    Always (@chainStep Core.sample) Retrievable sample [.push spendingBlock 1, .pop] := by
  have hs : EveryStep (@chainStep Core.sample) (@Succeeds Core.sample) sample
      [.push spendingBlock 1, .pop] :=
    ⟨⟨by decide +kernel, by decide, by decide +kernel⟩, ⟨by decide +kernel, trivial⟩, trivial⟩
  have h0 : (sample.blocks.get 0).map (fun r => r.slab.hashes) = some [101] := by decide +kernel
  have hcount : sample.blocks.count = 1 := by decide +kernel
  refine (@retrievable_iff_noDuplicate Core.sample Settings.sample true .sampleStray .sampleGenesis
    (by decide +kernel) _ hs).mpr ⟨fun _ => by decide +kernel, ⟨by decide +kernel, ?_⟩, trivial,
      trivial⟩
  rintro hash hm ⟨height, r, hr, hc⟩
  cases height with
  | zero =>
      rw [show sample.blocks.get 0 = some r from hr] at h0
      have hr' : r.slab.hashes = [101] := by simpa using h0
      rw [hr', List.mem_singleton] at hc
      subst hc
      exact absurd hm (by decide +kernel)
  | succ n =>
      rw [show (@create Core.sample Settings.sample true .sampleStray .sampleGenesis) = sample from rfl,
        BlockDatabase.get_eq, if_neg (by omega)] at hr
      cases hr

omit [Core] in
/-- The transaction of the first block is pushed again once its output is spent: the new slab
    hides the one the first block needs. -/
theorem duplicate_hides :
    EveryStep (@chainStep Core.sample) (@Succeeds Core.sample) sample
        [.push spendingBlock 1, .pushUnconfirmed (.sampleCoinbase 101 1) 0] ∧
      ¬ Always (@chainStep Core.sample) Retrievable sample
        [.push spendingBlock 1, .pushUnconfirmed (.sampleCoinbase 101 1) 0] := by
  refine ⟨⟨⟨by decide +kernel, by decide, by decide +kernel⟩, ⟨by decide +kernel, trivial⟩,
    trivial⟩, fun h => ?_⟩
  have hlast := h.last
  generalize hdb : run (@chainStep Core.sample) sample
    [.push spendingBlock 1, .pushUnconfirmed (.sampleCoinbase 101 1) 0] = db at hlast
  have h0 : (db.blocks.get 0).map (fun r => (r.transactionCount, r.transactionHash 0)) =
      some (1, 101) := by
    rw [← hdb]
    decide +kernel
  have hnone : db.transactions.get 101 0 true = none := by
    rw [← hdb]
    decide +kernel
  obtain ⟨r, hr, he⟩ := Option.map_eq_some_iff.mp h0
  have hc : r.transactionCount = 1 := congrArg Prod.fst he
  have hh : r.transactionHash 0 = 101 := congrArg Prod.snd he
  obtain ⟨slab, hs, _⟩ := hlast 0 r hr 0 (by omega)
  rw [hh, hnone] at hs
  cases hs

end DataBase

end Libbitcoin.Database
