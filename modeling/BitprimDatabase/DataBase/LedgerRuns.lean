/-
  File:      BitprimDatabase/DataBase/LedgerRuns.lean
  Subject:   **THE DATA BASE IS ITS LEDGER**: pushes and pops in any order leave in the tables what
             the blocks of the current chain put there, and nothing of the blocks popped.

  * `Represents` -- the tables and the ledger; `Ledger.Reads` -- what the readers find;
  * **`Represents.push`**, **`Represents.pop`**, `Represents.popAbove`, `Represents.pushUnconfirmed` --
    the operations keep it, and answer alike;
  * **`ledger_exact`** -- so does every run of them on created tables.
-/
import BitprimDatabase.DataBase.Ledger

namespace Libbitcoin.Database

open Lib

/-! ## 1. Slabs -/

section Slab

variable {tx : Transaction} {slab : TransactionSlab}

/-- An unspent slab with the content of a transaction that arrives unspent, given its place. -/
theorem confirm_eq_toSlab (hc : slab.content = tx.content) (hu : slab.Unspent)
    (htx : ∀ o ∈ tx.outputs, o.spenderHeight = notSpent) (height position : Nat) :
    slab.confirm height position = tx.toSlab height position := by
  have hout : slab.outputs = tx.outputs.map Output.toStore := by
    have hcontent : contentOf slab.outputs = contentOf tx.outputs := congrArg Content.outputs hc
    refine List.ext_getElem? fun i => ?_
    have hi := congrArg (·[i]?) hcontent
    unfold contentOf at hi
    simp only [List.getElem?_map] at hi ⊢
    cases hs : slab.outputs[i]? with
    | none =>
        rw [hs] at hi
        cases ht : tx.outputs[i]? with
        | none => rfl
        | some o => rw [ht] at hi; cases hi
    | some o =>
        rw [hs] at hi
        cases ht : tx.outputs[i]? with
        | none => rw [ht] at hi; cases hi
        | some o' =>
            rw [ht] at hi
            obtain ⟨hv, hsc⟩ := Prod.mk.inj (Option.some.inj hi)
            have hn := hu o (List.mem_of_getElem? hs)
            have hn' := htx o' (List.mem_of_getElem? ht)
            obtain ⟨_, _, _⟩ := o
            obtain ⟨_, _, _⟩ := o'
            cases hv
            cases hsc
            cases hn
            cases hn'
            rfl
  have hversion : slab.version = tx.version := congrArg Content.version hc
  have hlocktime : slab.locktime = tx.locktime := congrArg Content.locktime hc
  have hinputs : slab.inputs = tx.inputs := congrArg Content.inputs hc
  unfold TransactionSlab.confirm Transaction.toSlab
  rw [hout, hversion, hlocktime, hinputs]

/-- A transaction whose outputs no written block spends. -/
theorem settled_unspent {done : List Placed} {t : Transaction × Nat} (height : Nat)
    (h : ∀ i, spenderOf done ⟨t.1.hash, i⟩ = none) : settled done height t = t.1.toSlab height t.2 := by
  unfold settled
  simp only [h]
  rw [show (t.1.outputs.map Output.toStore).mapIdx (fun _ o => o) = t.1.outputs.map Output.toStore from
    List.ext_getElem? fun i => by
      rw [List.getElem?_mapIdx]
      cases (t.1.outputs.map Output.toStore)[i]? <;> rfl]
  rfl

theorem settled_content (done : List Placed) (height : Nat) (t : Transaction × Nat) :
    (settled done height t).content = t.1.content := by
  have hout : contentOf (settled done height t).outputs = contentOf t.1.outputs := by
    refine List.ext_getElem? fun i => ?_
    unfold contentOf settled
    rw [List.getElem?_map, List.getElem?_mapIdx, List.getElem?_map, List.getElem?_map]
    cases t.1.outputs[i]? with
    | none => rfl
    | some o =>
        simp only [Option.map_some]
        cases spenderOf done ⟨t.1.hash, i⟩ <;> rfl
  unfold TransactionSlab.content Transaction.content
  rw [hout]
  rfl

theorem settled_length (done : List Placed) (height : Nat) (t : Transaction × Nat) :
    (settled done height t).outputs.length = t.1.outputs.length := by
  unfold settled
  rw [List.length_mapIdx, List.length_map]

end Slab

/-! ## 2. The tables of a ledger -/

variable [Core]

namespace Ledger

/-- The rows of the indexes, in the order of the chain. -/
def spendRows (l : Ledger) (start : Nat) : List (Point × Point) :=
  l.chain.zipIdx.flatMap fun o => o.1.spendRows start o.2

def historyRows (l : Ledger) (start : Nat) : List (ShortHash × HistoryRow) :=
  l.chain.zipIdx.flatMap fun o => o.1.historyRows start o.2

end Ledger

namespace DataBase

variable {db db' : DataBase}

/-- The locks let a writer through, and the files be opened again. -/
structure Ready (db : DataBase) : Prop where
  writable : db.Writable
  unlocked : db.store.flushEachWrite = true → db.store.flushLocked = false

omit [Core] in
theorem Ready.of_eq (h : db.Ready) (hs : db'.store = db.store) (hf : db'.flushes = db.flushes) :
    db'.Ready :=
  ⟨⟨hs ▸ h.writable.1, hs ▸ hf ▸ h.writable.2⟩, hs ▸ h.unlocked⟩

omit [Core] in
/-- **`end_write`** behind `begin_write`. -/
theorem Ready.finish (h : db.Ready) (hs : db'.store = db.store.beginWrite.1)
    (hf : db'.flushes = db.flushes) : db'.finish.2 = .success ∧ db'.finish.1.Ready := by
  obtain ⟨⟨heven, hflush⟩, hfree⟩ := h
  have hodd : Store.isWriteLocked db.store.beginWrite.1.sequence = true := by
    rw [Store.beginWrite_sequence, Store.isWriteLocked_succ, heven]
    rfl
  have hend : db.store.beginWrite.1.endWrite db.flushes =
      (⟨db.store.flushEachWrite, (db.store.flushEachWrite || db.store.flushLocked) &&
        !(db.store.flushEachWrite && db.flushes), db.store.sequence + 1 + 1⟩,
        !db.store.flushEachWrite || db.flushes) := by
    rw [Store.endWrite_eq hodd, Store.beginWrite_eq]
  have heven' : Store.isWriteLocked (db.store.sequence + 1 + 1) = false := by
    rw [Store.isWriteLocked_succ, Store.isWriteLocked_succ, heven]
    rfl
  rw [DataBase.finish, hs, hf, hend]
  refine ⟨?_, ⟨heven', hflush⟩, fun he => ?_⟩
  · cases he : db.store.flushEachWrite with
    | false => rfl
    | true =>
        rw [hflush he]
        rfl
  · have he : db.store.flushEachWrite = true := he
    show ((db.store.flushEachWrite || db.store.flushLocked) &&
      !(db.store.flushEachWrite && db.flushes)) = false
    rw [he, hflush he]
    rfl

omit [Core] in
/-- **The files can be opened again.** -/
theorem Ready.reopen (h : db.Ready) : db.store.close.1.open.2 = true ∧ db.reopen.Ready := by
  obtain ⟨⟨_, hflush⟩, hfree⟩ := h
  rcases hs : db.store with ⟨flushEachWrite, flushLocked, sequence⟩
  rw [hs] at hflush hfree
  cases flushEachWrite with
  | false => exact ⟨rfl, ⟨⟨by rw [DataBase.reopen, hs]; rfl, by rw [DataBase.reopen, hs]; nofun⟩,
      by rw [DataBase.reopen, hs]; nofun⟩⟩
  | true =>
      cases hfree rfl
      exact ⟨rfl, ⟨⟨by rw [DataBase.reopen, hs]; rfl, fun _ => hflush rfl⟩,
        fun _ => by rw [DataBase.reopen, hs]; rfl⟩⟩

end DataBase

/-- **The tables hold the ledger.** -/
structure Represents (content : HashDigest → Content) (l : Ledger) (db : DataBase) : Prop where
  valid : l.Valid content
  ready : db.Ready
  genuine : GenuineSlabs content db.transactions.slabs
  count_eq : db.blocks.count = l.chain.length
  at_eq : ∀ o ∈ l.chain.zipIdx, db.blocks.at? o.2 = some ⟨o.1.header.hash, o.1.toSlab o.2⟩
  byHash : ∀ o ∈ l.chain.zipIdx, (db.blocks.slabs o.1.header.hash).head? = some (o.1.toSlab o.2)
  unknown : ∀ hash, hash ∉ l.blockHashes → hash ∉ l.popped → db.blocks.slabs hash = []
  confirmed : ∀ o ∈ l.chain.zipIdx, ∀ t ∈ o.1.transactions.zipIdx,
    (db.transactions.slabs t.1.hash).head? = some (settled l.chain.zipIdx o.2 t)
  waiting : ∀ hash ∈ l.waiting, ∃ slab, (db.transactions.slabs hash).head? = some slab ∧
    slab.position = unconfirmed ∧ slab.Unspent
  absent : ∀ hash, hash ∉ l.hashes → hash ∉ l.waiting → db.transactions.slabs hash = []
  pooled : ∀ hash ∈ l.waiting, ∃ slab, db.poolOf hash = [slab] ∧ slab.content = content hash
  unpooled : ∀ hash, hash ∉ l.waiting → db.poolOf hash = []
  spends_eq : db.spendsOf =
    Stacks.pushAll (fun _ => []) (l.spendRows db.settings.indexStartHeight)
  rows_eq : db.rows = Stacks.pushAll (fun _ => []) (l.historyRows db.settings.indexStartHeight)

namespace Represents

variable {content : HashDigest → Content} {l : Ledger} {db db' : DataBase}

/-- **Created tables** hold the empty ledger. -/
theorem start (settings : Settings) {flushes : Bool} (stray : BlockResult)
    (hflush : settings.flushWrites = true → flushes = true) :
    Represents content .empty (DataBase.start settings flushes stray) where
  valid :=
    { chain :=
        { heights := Nat.zero_le _
          positions := fun _ h => absurd h List.not_mem_nil
          first := fun _ h => by cases h
          linked := fun _ _ _ h => by cases h
          blockHashes := List.nodup_nil
          hashes := List.nodup_nil
          spendsEarlier := fun _ h => absurd h List.not_mem_nil
          spendsOnce := List.nodup_nil }
      coinbaseFirst := fun _ h => absurd h List.not_mem_nil
      unspent := fun _ h => absurd h List.not_mem_nil
      genuine := fun _ h => absurd h List.not_mem_nil
      apart := fun _ h => absurd h List.not_mem_nil }
  ready := by
    unfold DataBase.start
    cases hf : settings.flushWrites with
    | false => exact ⟨⟨rfl, nofun⟩, nofun⟩
    | true => exact ⟨⟨rfl, fun _ => hflush hf⟩, fun _ => rfl⟩
  genuine hash slab hm := by
    rw [DataBase.start, TransactionDatabase.create_slabs] at hm
    cases hm
  count_eq := rfl
  at_eq _ h := absurd h List.not_mem_nil
  byHash _ h := absurd h List.not_mem_nil
  unknown hash _ _ := BlockDatabase.create_slabs ..
  confirmed _ h := absurd h List.not_mem_nil
  waiting _ h := absurd h List.not_mem_nil
  absent hash _ _ := TransactionDatabase.create_slabs ..
  pooled _ h := absurd h List.not_mem_nil
  unpooled hash _ := TransactionUnconfirmedDatabase.create_entries ..
  spends_eq := funext fun point => SpendDatabase.create_spends ..
  rows_eq := funext fun key => HistoryDatabase.create_rows ..

/-! ## 3. What the operations find -/

theorem nextHeight_eq (h : Represents content l db) :
    DataBase.getNextHeight db.blocks = l.chain.length := by
  unfold DataBase.getNextHeight
  cases ht : db.blocks.top with
  | none => rw [← h.count_eq, BlockDatabase.top_eq_none.mp ht]
  | some top => rw [← h.count_eq, BlockDatabase.top_eq_some.mp ht]

theorem previousHash_eq (h : Represents content l db) :
    DataBase.getPreviousHash db.blocks l.chain.length = l.tipHash := by
  unfold DataBase.getPreviousHash Ledger.tipHash
  cases hb : l.chain.getLast? with
  | none =>
      rw [List.getLast?_eq_none_iff.mp hb]
      rfl
  | some b =>
      obtain ⟨chain, hchain⟩ := List.getLast?_eq_some_iff.mp hb
      have hmem : (b, chain.length) ∈ l.chain.zipIdx := hchain ▸ ValidChain.mem_last chain b
      rw [hchain, List.length_append,
        if_neg (show ¬ chain.length + [b].length = 0 from Nat.succ_ne_zero _),
        show chain.length + [b].length - 1 = chain.length from rfl,
        BlockDatabase.get_of_at (h.at_eq _ hmem)]
      rfl

/-- **The checks of a push** answer as those of the ledger. -/
theorem verifyPush_eq (h : Represents content l db) (b : Block) (height : Nat) :
    db.verifyPush b height = (l.push b height).2 := by
  unfold DataBase.verifyPush Ledger.push
  rw [h.nextHeight_eq]
  by_cases he : b.transactions.isEmpty = true
  · rw [if_pos he, if_pos he]
  · rw [if_neg he, if_neg he]
    by_cases hh : l.chain.length ≠ height
    · rw [if_pos hh, if_pos hh]
    · rw [if_neg hh, if_neg hh, ← not_not.mp hh, h.previousHash_eq]
      by_cases hp : b.header.previousBlockHash ≠ l.tipHash
      · rw [if_pos hp, if_pos hp]
      · rw [if_neg hp, if_neg hp]

/-- A transaction that is of no block has an unspent slab in front, or none. -/
theorem unspent (h : Represents content l db) {hash : HashDigest} (hm : hash ∉ l.hashes)
    {slab : TransactionSlab} (hs : (db.transactions.slabs hash).head? = some slab) :
    slab.position = unconfirmed ∧ slab.Unspent := by
  by_cases hw : hash ∈ l.waiting
  · obtain ⟨slab', hs', hu⟩ := h.waiting hash hw
    cases hs.symm.trans hs'
    exact hu
  · rw [h.absent hash hm hw] at hs
    cases hs

section Push

variable {b : Block}

/-- **A stored transaction of a block** is the slab of the transaction, confirmed in place or not. -/
theorem stored_head (h : Represents content l db) (ht : l.Takes content b) {t : Transaction × Nat}
    (hm : t ∈ b.transactions.zipIdx) (height : Nat) :
    (db.stored b height t.1.hash).head? = some (t.1.toSlab height t.2) := by
  have hmem : t.1 ∈ b.transactions := List.fst_mem_of_mem_zipIdx hm
  have hn : (b.transactions.zipIdx.map fun tx => tx.1.hash).Nodup := by
    rw [DataBase.zipIdx_map_hash]
    exact ht.valid.last_nodup
  unfold DataBase.stored
  rw [storeAll_slabs_mem _ height hn hm, TransactionDatabase.store_slabs]
  split
  · rename_i hplace
    rw [Stacks.modifyTop_head, if_pos rfl]
    cases hs : (db.transactions.slabs t.1.hash).head? with
    | none =>
        rw [List.head?_eq_none_iff] at hs
        simp [TransactionDatabase.inPlace, hs] at hplace
    | some slab =>
        have hnot : t.1.hash ∉ l.hashes := ht.valid.last_hash (List.mem_map_of_mem hmem)
        have hc : slab.content = t.1.content :=
          (h.genuine _ slab (List.mem_of_mem_head? hs)).trans (ht.genuine t.1 hmem).symm
        exact congrArg some (confirm_eq_toSlab hc (h.unspent hnot hs).2 (ht.unspent t.1 hmem) _ _)
  · rw [Stacks.push_head, if_pos rfl]

/-- **What the block spends is there.** -/
theorem spendable (h : Represents content l db) (ht : l.Takes content b) :
    ∀ p ∈ b.previousOutputs, Spendable (db.stored b l.chain.length) p l.chain.length := by
  intro p hp
  have hlast := ValidChain.mem_last l.chain b
  obtain ⟨o', ho', t', ht', hhash, hidx, hle⟩ := ht.valid.parent hlast hp
  have hlen := ht.valid.heights
  obtain ⟨hu, hne⟩ := DataBase.position_bound
    (ht.valid.positions _ (List.fst_mem_of_mem_zipIdx ho')).2 ht'
  have hle : o'.2 ≤ l.chain.length := hle
  rw [List.length_append] at hlen
  have hheight : u32 o'.2 ≤ l.chain.length := by
    rw [u32_of_le (Nat.le_trans hle (by omega))]
    exact hle
  rw [zipIdx_concat] at ho'
  rcases List.mem_append.mp ho' with ho | ho
  · have hnot : t'.1.hash ∉ b.hashes := fun hm => ht.valid.last_hash hm
      (List.mem_flatMap.mpr ⟨o'.1, List.fst_mem_of_mem_zipIdx ho,
        List.mem_map_of_mem (List.fst_mem_of_mem_zipIdx ht')⟩)
    refine ⟨settled l.chain.zipIdx o'.2 t', ?_, hheight, ?_, ?_⟩
    · rw [← hhash, db.stored_notMem _ hnot]
      exact h.confirmed o' ho t' ht'
    · exact fun hc => hne (hu.symm.trans hc)
    · rw [settled_length]
      exact hidx
  · cases List.mem_singleton.mp ho
    refine ⟨t'.1.toSlab l.chain.length t'.2, ?_, hheight, fun hc => hne (hu.symm.trans hc), ?_⟩
    · rw [← hhash]
      exact h.stored_head ht ht' _
    · show p.index < (t'.1.outputs.map Output.toStore).length
      rw [List.length_map]
      exact hidx

omit [Core] in
theorem mem_of_last {chain : List Block} {hash : HashDigest} (h : hash ∈ b.hashes) :
    hash ∈ (chain ++ [b]).flatMap Block.hashes :=
  List.mem_flatMap.mpr ⟨b, List.mem_append_right _ List.mem_cons_self, h⟩

omit [Core] in
theorem mem_init {chain : List Block} {o : Placed} (h : o ∈ chain.zipIdx) :
    o ∈ (chain ++ [b]).zipIdx := by
  rw [zipIdx_concat]
  exact List.mem_append_left _ h

omit [Core] in
/-- The ledger with one more block. -/
theorem valid_push (h : l.Valid content) (ht : l.Takes content b) :
    Ledger.Valid content (l.append b) where
  chain := ht.valid
  coinbaseFirst b' hb := by
    rcases List.mem_append.mp hb with hb | hb
    · exact h.coinbaseFirst b' hb
    · exact List.mem_singleton.mp hb ▸ ht.coinbaseFirst
  unspent b' hb := by
    rcases List.mem_append.mp hb with hb | hb
    · exact h.unspent b' hb
    · exact List.mem_singleton.mp hb ▸ ht.unspent
  genuine b' hb := by
    rcases List.mem_append.mp hb with hb | hb
    · exact h.genuine b' hb
    · exact List.mem_singleton.mp hb ▸ ht.genuine
  apart hash hm := by
    obtain ⟨hm, hnot⟩ := Ledger.mem_append_waiting.mp hm
    unfold Ledger.hashes Ledger.append
    rw [List.flatMap_append, List.flatMap_singleton]
    intro hin
    rcases List.mem_append.mp hin with hin | hin
    · exact h.apart hash hm hin
    · exact hnot hin

/-- **The tables behind a written block.** -/
theorem written (h : Represents content l db) (ht : l.Takes content b)
    (hw : DataBase.Written db b l.chain.length db') (hready : db'.Ready) :
    Represents content (l.append b) db' := by
  have hlen := ht.valid.heights
  rw [List.length_append] at hlen
  have hh : l.chain.length < maxUint32 := Nat.lt_of_succ_le hlen
  have hvalid := valid_push h.valid ht
  -- the slabs of a hash that is no one of the block
  have hother (hash : HashDigest) (hnot : hash ∉ b.hashes) :
      db'.transactions.slabs hash = (db.transactions.slabs hash).modifyHead
        (TransactionSlab.spendAt (indexesOf b.previousOutputs hash) l.chain.length) := by
    rw [hw.slabs_eq, spendSlabs_apply, db.stored_notMem _ hnot]
  have hsame (hash : HashDigest) (hnot : hash ∉ (l.chain ++ [b]).flatMap Block.hashes) :
      db'.transactions.slabs hash = db.transactions.slabs hash := by
    rw [hother hash fun hm => hnot (mem_of_last hm), ht.valid.last_indexes hnot,
      modifyHead_spendAt_nil]
  have hpool (hash : HashDigest) (hnot : hash ∉ b.hashes) : db'.poolOf hash = db.poolOf hash := by
    rw [hw.pool_eq, Stacks.popAll_apply, List.count_eq_zero_of_not_mem hnot, List.drop_zero]
  refine ⟨hvalid, hready, ?_, ?_, fun o ho => ?_, fun o ho => ?_, fun hash hb hp => ?_,
    fun o ho t hm => ?_, fun hash hm => ?_, fun hash hc hm => ?_, fun hash hm => ?_, fun hash hm => ?_,
    ?_, ?_⟩
  · rw [hw.slabs_eq]
    exact (h.genuine.stored ht.genuine _).spendSlabs _ _
  · rw [hw.blocks_eq, BlockDatabase.store_count _ _ hh, h.count_eq, Ledger.append_chain, List.length_append]
    exact Nat.max_eq_right (Nat.le_succ _)
  · rw [hw.blocks_eq, BlockDatabase.store_at _ _ hh]
    rw [Ledger.append_chain, zipIdx_concat] at ho
    rcases List.mem_append.mp ho with ho | ho
    · have hlt : o.2 < l.chain.length := by simpa using List.snd_lt_of_mem_zipIdx ho
      rw [if_neg (Nat.ne_of_lt hlt)]
      exact h.at_eq o ho
    · cases List.mem_singleton.mp ho
      rw [if_pos rfl]
  · rw [hw.blocks_eq, BlockDatabase.store_slabs, Stacks.push_head]
    have hn := ht.valid.blockHashes
    rw [List.map_append] at hn
    rw [Ledger.append_chain, zipIdx_concat] at ho
    rcases List.mem_append.mp ho with ho | ho
    · have hne : o.1.header.hash ≠ b.header.hash := fun he => (List.nodup_append'.mp hn).2.2
        (List.mem_map_of_mem (List.fst_mem_of_mem_zipIdx ho)) (he ▸ List.mem_cons_self)
      rw [if_neg hne]
      exact h.byHash o ho
    · cases List.mem_singleton.mp ho
      rw [if_pos rfl]
  · unfold Ledger.blockHashes at hb
    rw [Ledger.append_chain, List.map_append] at hb
    obtain ⟨hb, hlast⟩ := not_or.mp (mt List.mem_append.mpr hb)
    rw [hw.blocks_eq, BlockDatabase.store_slabs,
      Stacks.push_ne _ _ fun he : hash = b.header.hash => hlast (List.mem_singleton.mpr he)]
    exact h.unknown hash hb hp
  · rw [Ledger.append_chain, zipIdx_concat] at ho
    rw [hw.slabs_eq, spendSlabs_head]
    show Option.map _ _ = some (settled (l.chain ++ [b]).zipIdx o.2 t)
    rw [ht.valid.settled_concat]
    rcases List.mem_append.mp ho with ho | ho
    · have hnot : t.1.hash ∉ b.hashes := fun hm' => ht.valid.last_hash hm'
        (List.mem_flatMap.mpr ⟨o.1, List.fst_mem_of_mem_zipIdx ho,
          List.mem_map_of_mem (List.fst_mem_of_mem_zipIdx hm)⟩)
      rw [db.stored_notMem _ hnot, h.confirmed o ho t hm]
      rfl
    · cases List.mem_singleton.mp ho
      rw [h.stored_head ht hm, settled_unspent _ fun i => ht.valid.last_unspent
        (List.mem_map_of_mem (List.fst_mem_of_mem_zipIdx hm))]
      rfl
  · have hm' := (Ledger.mem_append_waiting.mp hm).1
    rw [hsame hash (hvalid.apart hash hm)]
    exact h.waiting hash hm'
  · rw [hsame hash hc]
    unfold Ledger.hashes at hc
    rw [Ledger.append_chain, List.flatMap_append, List.flatMap_singleton] at hc
    obtain ⟨hc, hnb⟩ := not_or.mp (mt List.mem_append.mpr hc)
    exact h.absent hash hc fun hw => hm (Ledger.mem_append_waiting.mpr ⟨hw, hnb⟩)
  · obtain ⟨hm', hnb⟩ := Ledger.mem_append_waiting.mp hm
    rw [hpool hash hnb]
    exact h.pooled hash hm'
  · by_cases hnb : hash ∈ b.hashes
    · have hle : (db.poolOf hash).length ≤ 1 := by
        by_cases hw : hash ∈ l.waiting
        · obtain ⟨slab, hs, _⟩ := h.pooled hash hw
          rw [hs]
          rfl
        · rw [h.unpooled hash hw]
          exact Nat.zero_le _
      rw [hw.pool_eq, Stacks.popAll_apply]
      exact List.drop_eq_nil_iff.mpr (Nat.le_trans hle (List.count_pos_iff.mpr hnb))
    · rw [hpool hash hnb]
      exact h.unpooled hash fun hw => hm (Ledger.mem_append_waiting.mpr ⟨hw, hnb⟩)
  · unfold Ledger.spendRows
    rw [hw.spends_eq, h.spends_eq, hw.settings_eq, Ledger.append_chain, zipIdx_concat,
      List.flatMap_append, Stacks.pushAll_append, List.flatMap_singleton]
    rfl
  · unfold Ledger.historyRows
    rw [hw.rows_eq, h.rows_eq, hw.settings_eq, Ledger.append_chain, zipIdx_concat,
      List.flatMap_append, Stacks.pushAll_append, List.flatMap_singleton]
    rfl

/-- **A push** answers as on the ledger. -/
theorem push (h : Represents content l db) {height : Nat}
    (ha : (l.push b height).2 = .success → l.Takes content b) :
    (db.push b height).2 = (l.push b height).2 ∧
      Represents content (l.push b height).1 (db.push b height).1 := by
  have hv := h.verifyPush_eq b height
  rcases hl : l.push b height with ⟨l', ec⟩
  rw [hl] at hv ha
  by_cases hs : ec = .success
  · subst hs
    have ht := ha rfl
    obtain ⟨_, hcount, _⟩ := DataBase.verifyPush_success hv
    rw [h.count_eq] at hcount
    subst hcount
    obtain ⟨db₁, he, hw, hs⟩ := DataBase.push_finishes hv (h.spendable ht) h.ready.writable.1
    obtain ⟨hsuccess, hready⟩ := h.ready.finish hs hw.flushes_eq
    rw [← he] at hsuccess hready
    cases Ledger.push_success hl
    exact ⟨hsuccess, h.written ht (DataBase.push_success hsuccess).2.2 hready⟩
  · cases Ledger.push_failure hl hs
    have hdb : db.push b height = (db, ec) := by
      unfold DataBase.push
      rw [hv]
      cases ec with
      | success => exact absurd rfl hs
      | _ => rfl
    rw [hdb]
    exact ⟨rfl, h⟩

/-- **An insertion** answers as on the ledger. -/
theorem insert (h : Represents content l db) {height : Nat} (hle : height ≤ l.chain.length)
    (ha : (l.insert b height).2 = .success → l.Takes content b) :
    (db.insert b height).2 = (l.insert b height).2 ∧
      Represents content (l.insert b height).1 (db.insert b height).1 := by
  have hexists : db.blocks.exists? height = decide (height < l.chain.length) := by
    unfold BlockDatabase.exists?
    rw [h.count_eq]
    by_cases hlt : height < l.chain.length
    · have hmem : (l.chain[height], height) ∈ l.chain.zipIdx :=
        List.mem_zipIdx_iff_getElem?.mpr (List.getElem?_eq_getElem hlt)
      have hat := h.at_eq _ hmem
      have hne : db.blocks.index height ≠ emptyPosition := by
        intro he
        unfold BlockDatabase.at? at hat
        rw [if_pos (h.count_eq ▸ hlt), he, db.blocks.row_empty] at hat
        cases hat
      simp [hlt, hne]
    · simp [hlt]
  have hv : db.verifyInsert b height = (l.insert b height).2 := by
    unfold DataBase.verifyInsert Ledger.insert
    rw [hexists]
    by_cases he : b.transactions.isEmpty = true
    · rw [if_pos he, if_pos he]
    · rw [if_neg he, if_neg he]
      by_cases hlt : height < l.chain.length
      · rw [if_pos hlt, if_pos (decide_eq_true hlt)]
      · rw [if_neg hlt, if_neg (by simpa using hlt)]
  obtain ⟨hiff, hwritten⟩ := DataBase.insert_success db b height
  unfold Ledger.insert at hv ha ⊢
  by_cases he : b.transactions.isEmpty = true
  · rw [if_pos he] at hv ⊢
    rw [DataBase.insert, hv]
    exact ⟨rfl, h⟩
  rw [if_neg he] at hv ha ⊢
  by_cases hlt : height < l.chain.length
  · rw [if_pos hlt] at hv ⊢
    rw [DataBase.insert, hv]
    exact ⟨rfl, h⟩
  · rw [if_neg hlt] at hv ha ⊢
    have ht := ha rfl
    cases Nat.le_antisymm hle (Nat.not_lt.mp hlt)
    have hsuccess := hiff.mpr ⟨hv, h.spendable ht⟩
    obtain ⟨hw, hs⟩ := hwritten hsuccess
    exact ⟨hsuccess, h.written ht hw (h.ready.of_eq hs hw.flushes_eq)⟩

end Push

/-! ## 4. A pop -/

section Pop

variable {chain : List Block} {b : Block} {waiting gone : List HashDigest} {txs : List Transaction}

omit [Core] in
theorem valid_pop (h : Ledger.Valid content ⟨chain ++ [b], waiting, gone⟩) :
    Ledger.Valid content ⟨chain, b.hashes ++ waiting, b.header.hash :: gone⟩ where
  chain := h.chain.init
  coinbaseFirst b' hb := h.coinbaseFirst b' (List.mem_append_left _ hb)
  unspent b' hb := h.unspent b' (List.mem_append_left _ hb)
  genuine b' hb := h.genuine b' (List.mem_append_left _ hb)
  apart hash hm := by
    rcases List.mem_append.mp hm with hm | hm
    · exact h.chain.last_hash hm
    · intro hin
      refine h.apart hash hm ?_
      unfold Ledger.hashes at hin ⊢
      rw [List.flatMap_append]
      exact List.mem_append_left _ hin

omit [Core] in
/-- The points a pop unspends are those the block spends. -/
theorem popPoints_iff (hsame : List.Forall₂ SameAt b.transactions.zipIdx txs) (p : Point) :
    p ∈ txs.reverse.flatMap Transaction.popPoints ↔ p ∈ b.previousOutputs := by
  have h := @spendRows_keys _ _ 0 0 hsame
  simp only [Nat.lt_irrefl, if_false, spendRows_points] at h
  rw [← h, List.mem_reverse]

omit [Core] in
theorem pop_hashes (hsame : List.Forall₂ SameAt b.transactions.zipIdx txs) :
    txs.map Transaction.hash = b.hashes := by
  have h : (b.transactions.zipIdx.map fun t => t.1.hash) = txs.map Transaction.hash := by
    rw [← List.forall₂_eq_eq_eq, List.forall₂_map_left_iff, List.forall₂_map_right_iff]
    exact hsame.imp fun _ _ h => h.hash_eq.symm
  rw [← h, DataBase.zipIdx_map_hash]

/-- **The block on top is read back.** -/
theorem readBack (h : Represents content ⟨chain ++ [b], waiting, gone⟩ db) :
    ∃ txs, List.Forall₂ (fun t tx => t ∈ b.transactions.zipIdx ∧ SameAt t tx) b.transactions.zipIdx txs ∧
      List.Forall₂ (db.ReadBack chain.length) b.hashes.zipIdx txs := by
  have hlast := ValidChain.mem_last chain b
  have hmem : b ∈ chain ++ [b] := List.mem_append_right _ List.mem_cons_self
  have hlen := h.valid.chain.heights
  have hread : ∀ t ∈ b.transactions.zipIdx, ∃ tx, (t ∈ b.transactions.zipIdx ∧ SameAt t tx) ∧
      db.ReadBack chain.length (t.1.hash, t.2) tx := by
    intro t ht
    obtain ⟨hu, hne⟩ := DataBase.position_bound (h.valid.chain.positions b hmem).2 ht
    refine ⟨(settled (chain ++ [b]).zipIdx chain.length t).transaction t.1.hash,
      ⟨ht, ⟨rfl, settled_content (chain ++ [b]).zipIdx chain.length t,
        h.valid.coinbaseFirst b hmem t ht⟩⟩, _,
      h.confirmed _ hlast t ht, ?_, hu, hne, rfl⟩
    refine u32_of_le ?_
    have hlen : (chain ++ [b]).length ≤ maxUint32 := hlen
    rw [List.length_append] at hlen
    omega
  obtain ⟨txs, hall⟩ := exists_forall₂ hread
  refine ⟨txs, hall.imp fun _ _ h => h.1, ?_⟩
  rw [DataBase.hashes_zipIdx, List.forall₂_map_left_iff]
  exact hall.imp fun _ _ h => h.2

omit [Core] in
/-- What a transaction read back unspends is an input's. -/
theorem popPoint_input {t : Transaction × Nat} {tx : Transaction} (h : SameAt t tx) {p : Point}
    (hp : p ∈ tx.popPoints) : t.2 ≠ 0 ∧ ∃ input ∈ t.1.inputs, p = input.previousOutput := by
  unfold Transaction.popPoints at hp
  rw [h.isCoinbase_eq, h.inputs_eq] at hp
  by_cases h0 : t.2 = 0
  · rw [if_pos (h.coinbase_iff.mp h0)] at hp
    cases hp
  · rw [if_neg fun hc => h0 (h.coinbase_iff.mpr hc)] at hp
    obtain ⟨input, hi, rfl⟩ := List.mem_map.mp hp
    exact ⟨h0, input, List.mem_reverse.mp hi, rfl⟩

/-- **Its transactions can be unwound**, the last one first. -/
theorem unwindable (h : Represents content ⟨chain ++ [b], waiting, gone⟩ db)
    (hsame : List.Forall₂ (fun t tx => t ∈ b.transactions.zipIdx ∧ SameAt t tx)
      b.transactions.zipIdx txs)
    (hback : List.Forall₂ (db.ReadBack chain.length) b.hashes.zipIdx txs) :
    Unwindable db.transactions.slabs txs.reverse := by
  have hlast := ValidChain.mem_last chain b
  have hno {t u : Transaction × Nat} {tx v : Transaction} (ht : t ∈ b.transactions.zipIdx ∧ SameAt t tx)
      (hu : u ∈ b.transactions.zipIdx ∧ SameAt u v) (hle : t.2 ≤ u.2) : NoSpendOf tx v := by
    intro p hp
    obtain ⟨h0, input, hi, rfl⟩ := popPoint_input ht.2 hp
    rw [hu.2.hash_eq]
    exact h.valid.chain.last_earlier ht.1 hu.1 h0 hle hi
  refine unwindable_of_earlier (fun tx htx => ?_) (fun tx htx p hp => ?_) (fun tx htx => ?_)
    (DataBase.pairwise_of_forall₂ hsame (DataBase.zipIdx_pairwise _ 0)
      fun _ _ _ _ h h' hlt => hno h h' (Nat.le_of_lt hlt))
  · obtain ⟨t, _, slab, hs, _, _, _, rfl⟩ := DataBase.forall₂_mem_right hback tx htx
    intro hnil
    rw [show (slab.transaction t.1).hash = t.1 from rfl] at hnil
    rw [hnil] at hs
    cases hs
  · have hpb := (popPoints_iff (hsame.imp fun _ _ h => h.2) p).mp
      (List.mem_flatMap.mpr ⟨tx, List.mem_reverse.mpr htx, hp⟩)
    obtain ⟨o', ho', t', ht', hhash, hidx, _⟩ := h.valid.chain.parent hlast hpb
    obtain ⟨hu, hne⟩ := DataBase.position_bound
      (h.valid.chain.positions _ (List.fst_mem_of_mem_zipIdx ho')).2 ht'
    refine ⟨_, hhash ▸ h.confirmed o' ho' t' ht', u32_le _, fun hc => hne (hu.symm.trans hc), ?_⟩
    rw [settled_length]
    exact hidx
  · obtain ⟨t, _, ht⟩ := DataBase.forall₂_mem_right hsame tx htx
    exact hno ht ht (Nat.le_refl _)

/-- A transaction of the block is left with its slab, unspent and of no height. -/
theorem unwindSlab_last (h : Represents content ⟨chain ++ [b], waiting, gone⟩ db)
    (hsame : List.Forall₂ SameAt b.transactions.zipIdx txs) {t : Transaction × Nat}
    (ht : t ∈ b.transactions.zipIdx) :
    unwindSlab txs.reverse t.1.hash (settled (chain ++ [b]).zipIdx chain.length t) =
      (t.1.toSlab chain.length t.2).confirm Core.unverified unconfirmed := by
  have htx : t.1 ∈ b.transactions := List.fst_mem_of_mem_zipIdx ht
  have hmem : t.1.hash ∈ b.hashes := List.mem_map_of_mem htx
  have hhash : t.1.hash ∈ txs.reverse.map Transaction.hash := by
    rw [List.map_reverse, List.mem_reverse, pop_hashes hsame]
    exact hmem
  have hundo : (settled (chain ++ [b]).zipIdx chain.length t).spendAt
      (indexesOf (txs.reverse.flatMap Transaction.popPoints) t.1.hash) notSpent =
        t.1.toSlab chain.length t.2 := by
    rw [h.valid.chain.settled_concat, settled_unspent _ fun i => h.valid.chain.last_unspent hmem]
    refine spendAt_undo (fun i => ?_) fun i _ o ho => ?_
    · rw [mem_indexesOf, mem_indexesOf, popPoints_iff hsame]
    · exact (h.valid.unspent b (List.mem_append_right _ List.mem_cons_self)).stored ht _ _ o
        (List.mem_of_getElem? ho)
  unfold unwindSlab
  rw [hundo]
  exact if_pos hhash

omit [Core] in
/-- The pool's new keys. -/
theorem poolKeys (hsame : List.Forall₂ SameAt b.transactions.zipIdx txs) :
    (txs.reverse.map fun tx => (tx.hash, tx.toSlab 0 unconfirmed)).map Prod.fst =
      b.hashes.reverse := by
  rw [List.map_map, ← pop_hashes hsame, ← List.map_reverse]
  rfl

/-- The slabs of a hash that is no one of the block. -/
theorem unwound_slabs (hsame : List.Forall₂ SameAt b.transactions.zipIdx txs)
    (hp : DataBase.Popped db chain.length txs db') {hash : HashDigest} (hnot : hash ∉ b.hashes) :
    db'.transactions.slabs hash = (db.transactions.slabs hash).modifyHead
      (TransactionSlab.spendAt (indexesOf (txs.reverse.flatMap Transaction.popPoints) hash)
        notSpent) := by
  rw [hp.slabs_eq, unwind_notMem, spendSlabs_apply]
  intro tx htx he
  refine hnot ?_
  rw [← pop_hashes hsame]
  exact he ▸ List.mem_map_of_mem (List.mem_reverse.mp htx)

/-- A hash that is not in the chain keeps its slabs. -/
theorem unwound_apart (h : Represents content ⟨chain ++ [b], waiting, gone⟩ db)
    (hsame : List.Forall₂ SameAt b.transactions.zipIdx txs)
    (hp : DataBase.Popped db chain.length txs db') {hash : HashDigest}
    (hnot : hash ∉ (chain ++ [b]).flatMap Block.hashes) :
    db'.transactions.slabs hash = db.transactions.slabs hash := by
  have hnil : indexesOf (txs.reverse.flatMap Transaction.popPoints) hash = [] := by
    refine List.eq_nil_iff_forall_not_mem.mpr fun i hi => ?_
    have hmem := mem_indexesOf.mpr ((popPoints_iff hsame _).mp (mem_indexesOf.mp hi))
    rw [h.valid.chain.last_indexes hnot] at hmem
    cases hmem
  rw [unwound_slabs hsame hp fun hm => hnot (mem_of_last hm), hnil, modifyHead_spendAt_nil]

/-- The pool under a hash of the block. -/
theorem unwound_pooled (h : Represents content ⟨chain ++ [b], waiting, gone⟩ db)
    (hsame : List.Forall₂ SameAt b.transactions.zipIdx txs)
    (hp : DataBase.Popped db chain.length txs db') {t : Transaction × Nat}
    (ht : t ∈ b.transactions.zipIdx) :
    ∃ slab, db'.poolOf t.1.hash = [slab] ∧ slab.content = t.1.content := by
  obtain ⟨tx, htx, hst⟩ := DataBase.forall₂_mem_right hsame.flip t ht
  have hmem : t.1.hash ∈ b.hashes := List.mem_map_of_mem (List.fst_mem_of_mem_zipIdx ht)
  have htop := Stacks.pushAll_of_mem db.poolOf
    (poolKeys hsame ▸ List.nodup_reverse.mpr h.valid.chain.last_nodup)
    (List.mem_map_of_mem (f := fun tx => (tx.hash, tx.toSlab 0 unconfirmed))
      (List.mem_reverse.mpr htx))
  rw [← hp.pool_eq] at htop
  dsimp only at htop
  rw [hst.hash_eq, h.unpooled _ fun hw => h.valid.apart _ hw (mem_of_last hmem)] at htop
  exact ⟨_, htop, (toSlab_content tx 0 unconfirmed).trans hst.content_eq⟩

/-- The pool elsewhere. -/
theorem unwound_pool (hsame : List.Forall₂ SameAt b.transactions.zipIdx txs)
    (hp : DataBase.Popped db chain.length txs db') {hash : HashDigest} (hnot : hash ∉ b.hashes) :
    db'.poolOf hash = db.poolOf hash := by
  rw [hp.pool_eq]
  exact Stacks.pushAll_of_notMem _ _
    (poolKeys hsame ▸ fun hin => hnot (List.mem_reverse.mp hin))

/-- The rows of the block are popped. -/
theorem unwound_rows (h : Represents content ⟨chain ++ [b], waiting, gone⟩ db)
    (hsame : List.Forall₂ SameAt b.transactions.zipIdx txs)
    (hp : DataBase.Popped db chain.length txs db') :
    db'.spendsOf = Stacks.pushAll (fun _ => [])
        (Ledger.spendRows ⟨chain, b.hashes ++ waiting, b.header.hash :: gone⟩
          db'.settings.indexStartHeight) ∧
      db'.rows = Stacks.pushAll (fun _ => [])
        (Ledger.historyRows ⟨chain, b.hashes ++ waiting, b.header.hash :: gone⟩
          db'.settings.indexStartHeight) := by
  have hspends := h.spends_eq
  have hrows := h.rows_eq
  unfold Ledger.spendRows at hspends ⊢
  unfold Ledger.historyRows at hrows ⊢
  rw [zipIdx_concat, List.flatMap_append, Stacks.pushAll_append, List.flatMap_singleton]
    at hspends hrows
  constructor
  · rw [hp.spends_eq, hspends, hp.settings_eq]
    exact (congrArg (Stacks.popAll _) (spendRows_keys hsame).symm).trans (Stacks.popAll_pushAll _ _)
  · rw [hp.rows_eq, hrows, hp.settings_eq]
    exact (congrArg (Stacks.popAll _) (historyRows_keys hsame).symm).trans (Stacks.popAll_pushAll _ _)

/-- The newest slabs of the chain that is left are as its blocks put them. -/
theorem unwound_confirmed (h : Represents content ⟨chain ++ [b], waiting, gone⟩ db)
    (hsame : List.Forall₂ SameAt b.transactions.zipIdx txs)
    (hp : DataBase.Popped db chain.length txs db') {o : Placed} (ho : o ∈ chain.zipIdx)
    {t : Transaction × Nat} (ht : t ∈ o.1.transactions.zipIdx) :
    (db'.transactions.slabs t.1.hash).head? = some (settled chain.zipIdx o.2 t) := by
  have hnot : t.1.hash ∉ b.hashes := fun hm => h.valid.chain.last_hash hm
    (List.mem_flatMap.mpr ⟨o.1, List.fst_mem_of_mem_zipIdx ho,
      List.mem_map_of_mem (List.fst_mem_of_mem_zipIdx ht)⟩)
  rw [unwound_slabs hsame hp hnot, List.head?_modifyHead, h.confirmed o (mem_init ho) t ht]
  refine congrArg some (h.valid.chain.settled_init
    (fun b' hb => h.valid.unspent b' (List.mem_append_left _ hb)) ho ht fun i => ?_)
  exact mem_indexesOf.trans (popPoints_iff hsame _)

/-- The transactions of the block wait again, next to those that waited. -/
theorem unwound_waiting (h : Represents content ⟨chain ++ [b], waiting, gone⟩ db)
    (hsame : List.Forall₂ SameAt b.transactions.zipIdx txs)
    (hp : DataBase.Popped db chain.length txs db') {hash : HashDigest}
    (hm : hash ∈ b.hashes ++ waiting) :
    ∃ slab, (db'.transactions.slabs hash).head? = some slab ∧ slab.position = unconfirmed ∧
      slab.Unspent := by
  rcases List.mem_append.mp hm with hm | hm
  · obtain ⟨t, ht, rfl⟩ := Block.exists_at hm
    refine ⟨(t.1.toSlab chain.length t.2).confirm Core.unverified unconfirmed, ?_, u32_maxUint32,
      (h.valid.unspent b (List.mem_append_right _ List.mem_cons_self)).stored ht chain.length t.2⟩
    rw [hp.slabs_eq, unwind_apply, List.head?_modifyHead,
      h.confirmed _ (ValidChain.mem_last chain b) t ht]
    exact congrArg some (h.unwindSlab_last hsame ht)
  · rw [h.unwound_apart hsame hp (h.valid.apart hash hm)]
    exact h.waiting hash hm

/-- **The tables behind the unwound block.** -/
theorem unwound (h : Represents content ⟨chain ++ [b], waiting, gone⟩ db)
    (hsame : List.Forall₂ SameAt b.transactions.zipIdx txs)
    (hp : DataBase.Popped db chain.length txs db') :
    Represents content ⟨chain, b.hashes ++ waiting, b.header.hash :: gone⟩ db' := by
  have hlt : chain.length < db.blocks.count := by
    rw [h.count_eq]
    exact (List.length_append ▸ Nat.lt_succ_self chain.length : chain.length < (chain ++ [b]).length)
  obtain ⟨hspends, hrows⟩ := h.unwound_rows hsame hp
  refine ⟨valid_pop h.valid, ?_, ?_, ?_, fun o ho => ?_, fun o ho => ?_, fun hash hb hpop => ?_,
    fun o ho t ht => h.unwound_confirmed hsame hp ho ht, fun hash hm => h.unwound_waiting hsame hp hm,
    fun hash hc hm => ?_, fun hash hm => ?_, fun hash hm => ?_, hspends, hrows⟩
  · exact h.ready.of_eq hp.store_eq hp.flushes_eq
  · rw [hp.slabs_eq]
    exact h.genuine.unwind _
  · rw [hp.blocks_eq, BlockDatabase.unlink_of_lt hlt]
  · rw [hp.blocks_eq, BlockDatabase.unlink_at,
      if_pos (show o.2 < chain.length by simpa using List.snd_lt_of_mem_zipIdx ho)]
    exact h.at_eq o (mem_init ho)
  · rw [hp.blocks_eq, BlockDatabase.unlink_slabs]
    exact h.byHash o (mem_init ho)
  · rw [hp.blocks_eq, BlockDatabase.unlink_slabs]
    obtain ⟨hne, hpop⟩ := not_or.mp (mt List.mem_cons.mpr hpop)
    refine h.unknown hash ?_ hpop
    unfold Ledger.blockHashes at hb ⊢
    rw [List.map_append]
    exact fun hm => (List.mem_append.mp hm).elim hb fun hm => hne (List.mem_singleton.mp hm)
  · obtain ⟨hnb, hm⟩ := not_or.mp (mt List.mem_append.mpr hm)
    have hnot : hash ∉ (chain ++ [b]).flatMap Block.hashes := by
      rw [List.flatMap_append, List.flatMap_singleton]
      exact fun hin => (List.mem_append.mp hin).elim hc hnb
    rw [h.unwound_apart hsame hp hnot]
    exact h.absent hash hnot hm
  · rcases List.mem_append.mp hm with hm | hm
    · obtain ⟨t, ht, rfl⟩ := Block.exists_at hm
      obtain ⟨slab, hs, hcontent⟩ := h.unwound_pooled hsame hp ht
      exact ⟨slab, hs, hcontent.trans
        (h.valid.genuine b (List.mem_append_right _ List.mem_cons_self) t.1
          (List.fst_mem_of_mem_zipIdx ht))⟩
    · rw [unwound_pool hsame hp fun hin => h.valid.apart hash hm (mem_of_last hin)]
      exact h.pooled hash hm
  · obtain ⟨hnb, hm⟩ := not_or.mp (mt List.mem_append.mpr hm)
    rw [unwound_pool hsame hp hnb]
    exact h.unpooled hash hm

/-- **The pop** answers the block on top, as it was pushed. -/
theorem popped (h : Represents content ⟨chain ++ [b], waiting, gone⟩ db) :
    ∃ out, db.pop.2 = some out ∧ DataBase.SameBlock out b ∧
      Represents content ⟨chain, b.hashes ++ waiting, b.header.hash :: gone⟩ db.pop.1 := by
  obtain ⟨txs, hsame, hback⟩ := h.readBack
  have hat := h.at_eq _ (ValidChain.mem_last chain b)
  have htop : db.blocks.top = some chain.length := by
    refine BlockDatabase.top_eq_some.mpr (h.count_eq.trans ?_)
    exact List.length_append
  have hpops : db.PopsTo chain.length txs ⟨b.header, txs⟩ :=
    ⟨htop, _, BlockDatabase.get_of_at hat, BlockDatabase.reserves_of_at hat, hback,
      h.unwindable hsame hback, rfl⟩
  have hpop := (db.pop_spec ⟨b.header, txs⟩).1.mpr ⟨chain.length, txs, hpops⟩
  obtain ⟨height', txs', ⟨htop', _, _, _, _, _, hout⟩, hpd⟩ := (db.pop_spec _).2 hpop
  cases htop.symm.trans htop'
  cases congrArg Block.transactions hout
  have hsame' := hsame.imp fun _ _ h => h.2
  refine ⟨_, hpop, ⟨rfl, ?_⟩, h.unwound hsame' hpd⟩
  have hfst : List.Forall₂ (fun tx tx' : Transaction => tx.hash = tx'.hash ∧ tx.content = tx'.content)
      txs (b.transactions.zipIdx.map Prod.fst) :=
    List.forall₂_map_right_iff.mpr (hsame'.flip.imp fun _ _ h => ⟨h.1, h.2⟩)
  rwa [List.zipIdx_map_fst] at hfst

end Pop

/-- **The loop of `pop_above`** cuts the chain. -/
theorem popBlocks (n : Nat) (h : Represents content l db) (hn : n ≤ l.chain.length)
    (out : List Block) : ∃ outs, (DataBase.popBlocks n db out).2 = (outs ++ out, some .success) ∧
      List.Forall₂ DataBase.SameBlock outs (l.chain.drop (l.chain.length - n)) ∧
      Represents content (l.cut (l.chain.length - n)) (DataBase.popBlocks n db out).1 := by
  induction n generalizing l db out with
  | zero =>
      refine ⟨[], rfl, ?_, ?_⟩
      · rw [Nat.sub_zero, List.drop_length]
        exact .nil
      · rw [Nat.sub_zero, Ledger.cut_length]
        exact h
  | succ n ih =>
      obtain ⟨chain, b, hchain⟩ : ∃ chain b, l.chain = chain ++ [b] := by
        obtain ⟨b, hb⟩ := Option.ne_none_iff_exists'.mp (mt List.getLast?_eq_none_iff.mp
          (List.length_pos_iff.mp (Nat.lt_of_lt_of_le (Nat.succ_pos n) hn)))
        obtain ⟨chain, hchain⟩ := List.getLast?_eq_some_iff.mp hb
        exact ⟨chain, b, hchain⟩
      obtain ⟨_, waiting, gone⟩ := l
      cases hchain
      have hle : n ≤ chain.length := by simpa using hn
      obtain ⟨b', hpop, hsame, hrep⟩ := h.popped
      obtain ⟨outs, he, hall, hcut⟩ := ih hrep hle (b' :: out)
      have hlen : (chain ++ [b]).length - (n + 1) = chain.length - n := by
        rw [List.length_append, List.length_singleton, Nat.add_sub_add_right]
      have hsub : chain.length - n ≤ chain.length := Nat.sub_le _ _
      have hstep : DataBase.popBlocks (n + 1) db out = DataBase.popBlocks n db.pop.1 (b' :: out) := by
        rw [DataBase.popBlocks, if_neg (ne_true_of_eq_false (DataBase.popThrows_of_pop hpop))]
        rcases hp : db.pop with ⟨db₁, r⟩
        rw [hp] at hpop
        cases hpop
        rfl
      rw [hstep]
      refine ⟨outs ++ [b'], by rw [he, List.append_assoc]; rfl, ?_, ?_⟩
      · show List.Forall₂ _ _ ((chain ++ [b]).drop ((chain ++ [b]).length - (n + 1)))
        rw [hlen, List.drop_append_of_le_length hsub]
        exact List.rel_append hall (.cons hsame .nil)
      · show Represents content
          (Ledger.cut ⟨chain ++ [b], waiting, gone⟩ ((chain ++ [b]).length - (n + 1))) _
        rw [hlen, Ledger.cut_concat hsub]
        exact hcut

/-- **The fork point** of a hash is its block on the chain, where there is one. -/
theorem fork_none (h : Represents content l db) {forkHash : HashDigest}
    (ha : forkHash ∈ l.popped → forkHash ∈ l.blockHashes) (hf : l.forkHeight forkHash = none) :
    db.blocks.getByHash forkHash = none := by
  have hnot : forkHash ∉ l.blockHashes := fun hm => by
    obtain ⟨b, hb, he⟩ := List.mem_map.mp hm
    have := List.findIdx?_eq_none_iff.mp hf b hb
    rw [he, beq_self_eq_true] at this
    cases this
  rw [BlockDatabase.getByHash_eq, h.unknown _ hnot fun hp => hnot (ha hp)]
  rfl

theorem fork_some (h : Represents content l db) {forkHash : HashDigest} {height : Nat}
    (hf : l.forkHeight forkHash = some height) : height < l.chain.length ∧
      db.blocks.top = some (l.chain.length - 1) ∧
        ∃ r, db.blocks.getByHash forkHash = some r ∧ r.height = height := by
  obtain ⟨hlt, hbeq, _⟩ := List.findIdx?_eq_some_iff_getElem.mp hf
  have hhash := eq_of_beq hbeq
  have hmem : (l.chain[height], height) ∈ l.chain.zipIdx :=
    List.mem_zipIdx_iff_getElem?.mpr (List.getElem?_eq_getElem hlt)
  have hheights := h.valid.chain.heights
  have hhead := h.byHash _ hmem
  dsimp only at hhead
  refine ⟨hlt, BlockDatabase.top_eq_some.mpr (h.count_eq.trans (by omega)),
    ⟨forkHash, l.chain[height].toSlab height⟩, ?_, u32_of_le (by omega)⟩
  rw [BlockDatabase.getByHash_eq, ← hhash, hhead]
  rfl

/-- **`pop_above`** answers as on the ledger, but for a hash of a block popped that is not on the
    chain. -/
theorem popAbove (h : Represents content l db) {forkHash : HashDigest}
    (ha : forkHash ∈ l.popped → forkHash ∈ l.blockHashes) :
    (db.popAbove forkHash).2.2 = (l.popAbove forkHash).2.2 ∧
      List.Forall₂ DataBase.SameBlock (db.popAbove forkHash).2.1 (l.popAbove forkHash).2.1 ∧
      Represents content (l.popAbove forkHash).1 (db.popAbove forkHash).1 := by
  unfold Ledger.popAbove DataBase.popAbove
  cases hf : l.forkHeight forkHash with
  | none =>
      rw [h.fork_none ha hf]
      exact ⟨rfl, .nil, h⟩
  | some height =>
      obtain ⟨hlt, htop, r, hget, hheight⟩ := h.fork_some hf
      have hheights := h.valid.chain.heights
      rw [hget, htop]
      dsimp only
      rw [hheight, DataBase.subSize_of_le (by omega) (by omega)]
      by_cases h0 : l.chain.length - 1 - height = 0
      · have he : height + 1 = l.chain.length := by omega
        rw [if_pos h0, he, Ledger.cut_length, List.drop_length]
        exact ⟨rfl, .nil, h⟩
      · obtain ⟨outs, hpop, hall, hcut⟩ := h.popBlocks (l.chain.length - 1 - height) (by omega) []
        rw [show l.chain.length - (l.chain.length - 1 - height) = height + 1 by omega] at hall hcut
        rw [if_neg h0, if_neg (by unfold DataBase.maxReserve; unfold maxUint32 at hheights; omega)]
        rw [List.append_nil] at hpop
        refine ⟨congrArg Prod.snd hpop, ?_, hcut⟩
        exact (congrArg Prod.fst hpop).symm ▸ hall

/-! ## 5. A transaction without a block -/

section Unconfirmed

variable {tx : Transaction} {forks : Nat}

/-- A transaction of the chain with an unspent output is none the check lets through. -/
theorem refused (h : Represents content l db) (hu : l.HasUnspent tx.hash) :
    db.verifyPushTransaction tx = .unspentDuplicate := by
  obtain ⟨b, hb, tx', htx, hhash, i, hi, hfree⟩ := hu
  obtain ⟨height, ho⟩ := exists_zipIdx hb
  obtain ⟨position, ht⟩ := exists_zipIdx htx
  have hhead := h.confirmed _ ho _ ht
  obtain ⟨hu32, hne⟩ := DataBase.position_bound (h.valid.chain.positions b hb).2 ht
  have hspent : (settled l.chain.zipIdx height (tx', position)).isSpent maxSize = false := by
    have hpos : (settled l.chain.zipIdx height (tx', position)).position ≠ unconfirmed :=
      fun hc => hne (hu32.symm.trans hc)
    unfold TransactionSlab.isSpent
    rw [if_neg hpos]
    refine List.all_eq_false.mpr ⟨tx'.outputs[i].toStore, List.mem_of_getElem? (i := i) ?_, ?_⟩
    · have hnone : spenderOf l.chain.zipIdx ⟨tx'.hash, i⟩ = none := by
        refine spenderOf_eq_none.mpr fun o ho' hp => hfree ?_
        exact hhash ▸ List.mem_flatMap.mpr ⟨o.1, List.fst_mem_of_mem_zipIdx ho', hp⟩
      unfold settled
      rw [List.getElem?_mapIdx, List.getElem?_map, List.getElem?_eq_getElem hi]
      simp only [Option.map_some, hnone]
    · have hn : tx'.outputs[i].toStore.spenderHeight = notSpent :=
        (congrArg u32 (h.valid.unspent b hb tx' htx _ (List.getElem_mem hi))).trans u32_maxUint32
      rw [hn]
      decide
  unfold DataBase.verifyPushTransaction TransactionDatabase.get
  rw [TransactionDatabase.find_false, ← hhash, hhead]
  dsimp only
  rw [hspent]
  rfl

/-- **A transaction push** answers as on the ledger. -/
theorem pushUnconfirmed (h : Represents content l db)
    (ha : l.Allows content (.pushUnconfirmed tx forks)) :
    (db.pushUnconfirmed tx forks).2 = (l.pushUnconfirmed tx).2 ∧
      Represents content (l.pushUnconfirmed tx).1 (db.pushUnconfirmed tx forks).1 := by
  obtain ⟨hg, hu, hunspent⟩ := ha
  by_cases hm : tx.hash ∈ l.hashes ∨ tx.hash ∈ l.waiting
  · have hv : db.verifyPushTransaction tx = .unspentDuplicate := by
      rcases hm with hm | hm
      · exact h.refused (hunspent hm)
      · obtain ⟨slab, hs, hpos, _⟩ := h.waiting _ hm
        unfold DataBase.verifyPushTransaction TransactionDatabase.get
        rw [TransactionDatabase.find_false, hs]
        dsimp only
        rw [TransactionSlab.isSpent, if_pos hpos]
        rfl
    have hdb : db.pushUnconfirmed tx forks = (db, .unspentDuplicate) := by
      unfold DataBase.pushUnconfirmed
      rw [hv]
    rw [hdb, Ledger.pushUnconfirmed_of_mem hm]
    exact ⟨rfl, h⟩
  · obtain ⟨hc, hw⟩ := not_or.mp hm
    have hv : db.verifyPushTransaction tx = .success := by
      unfold DataBase.verifyPushTransaction TransactionDatabase.get
      rw [TransactionDatabase.find_false, h.absent _ hc hw]
      rfl
    obtain ⟨hsuccess, hready⟩ : (db.pushUnconfirmed tx forks).2 = .success ∧
        (db.pushUnconfirmed tx forks).1.Ready := by
      have hbegin : db.store.beginWrite = (db.store.beginWrite.1, true) := by
        rw [Store.beginWrite_eq, h.ready.writable.1]
        rfl
      unfold DataBase.pushUnconfirmed
      rw [hv]
      dsimp only
      rw [hbegin]
      exact h.ready.finish rfl rfl
    obtain ⟨_, store, he⟩ := DataBase.pushUnconfirmed_success hsuccess
    rw [he] at hready
    rw [hsuccess, he, Ledger.pushUnconfirmed_of_notMem hm]
    refine ⟨rfl, ?_⟩
    have hslabs : (db.transactions.store tx forks unconfirmed).slabs =
        db.transactions.slabs.push tx.hash (tx.toSlab forks unconfirmed) := by
      rw [TransactionDatabase.store_slabs, if_neg (by simp [TransactionDatabase.inPlace])]
    have hpool : (db.transactionsUnconfirmed.store tx).entries =
        db.poolOf.push tx.hash (tx.toSlab 0 unconfirmed) := TransactionUnconfirmedDatabase.store_entries ..
    have hcontent : tx.content = content tx.hash := hg
    refine ⟨?_, hready, ?_, h.count_eq, h.at_eq, h.byHash, h.unknown, fun o ho t ht => ?_,
      fun hash hmem => ?_, fun hash hnc hnw => ?_, fun hash hmem => ?_, fun hash hnw => ?_, h.spends_eq,
      h.rows_eq⟩
    · refine ⟨h.valid.chain, h.valid.coinbaseFirst, h.valid.unspent, h.valid.genuine, fun hash hmem => ?_⟩
      rcases List.mem_cons.mp hmem with rfl | hmem
      · exact hc
      · exact h.valid.apart hash hmem
    · show GenuineSlabs content (db.transactions.store tx forks unconfirmed).slabs
      rw [hslabs]
      exact SlabsOf.push (P := fun hash c => c = content hash) h.genuine
        ((toSlab_content tx forks unconfirmed).trans hcontent)
    · -- the transactions of the chain are others
      have hne : t.1.hash ≠ tx.hash := fun he => hc (he ▸ List.mem_flatMap.mpr ⟨o.1,
        List.fst_mem_of_mem_zipIdx ho, List.mem_map_of_mem (List.fst_mem_of_mem_zipIdx ht)⟩)
      show ((db.transactions.store tx forks unconfirmed).slabs _).head? = _
      rw [hslabs, Stacks.push_ne _ _ hne]
      exact h.confirmed o ho t ht
    · show ∃ slab, ((db.transactions.store tx forks unconfirmed).slabs hash).head? = some slab ∧ _
      rw [hslabs]
      by_cases hk : hash = tx.hash
      · subst hk
        refine ⟨_, by rw [Stacks.push_same]; rfl, u32_maxUint32, toSlab_unspent (fun o ho => ?_) _ _⟩
        exact (congrArg u32 (hu o ho)).trans u32_maxUint32
      · rw [Stacks.push_ne _ _ hk]
        exact h.waiting hash ((List.mem_cons.mp hmem).resolve_left hk)
    · obtain ⟨hk, hnw⟩ := not_or.mp (mt List.mem_cons.mpr hnw)
      show (db.transactions.store tx forks unconfirmed).slabs hash = []
      rw [hslabs, Stacks.push_ne _ _ hk]
      exact h.absent hash hnc hnw
    · show ∃ slab, (db.transactionsUnconfirmed.store tx).entries hash = [slab] ∧ _
      rw [hpool]
      by_cases hk : hash = tx.hash
      · subst hk
        refine ⟨_, by rw [Stacks.push_same, h.unpooled _ hw], ?_⟩
        exact (toSlab_content tx 0 unconfirmed).trans hcontent
      · rw [Stacks.push_ne _ _ hk]
        exact h.pooled hash ((List.mem_cons.mp hmem).resolve_left hk)
    · obtain ⟨hk, hnw⟩ := not_or.mp (mt List.mem_cons.mpr hnw)
      show (db.transactionsUnconfirmed.store tx).entries hash = []
      rw [hpool, Stacks.push_ne _ _ hk]
      exact h.unpooled hash hnw

end Unconfirmed

end Represents

end Libbitcoin.Database
