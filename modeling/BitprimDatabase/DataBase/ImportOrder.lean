/-
  File:      BitprimDatabase/DataBase/ImportOrder.lean
  Subject:   **WHEN BLOCKS CAN BE INSERTED IN ANY ORDER**: the blocks of a chain inserted at their
             heights into created tables, against their pushes in the order of height.

  * `Stored done` -- the states that have written the blocks `done`, the latest first;
  * `settled` -- the slab of a transaction as the written blocks have spent it: no order in it;
  * `Stored.agrees` -- two states that have written the same blocks in any orders agree;
  * **`imports_iff_parentsFirst`**: every insert answers success, and the tables are those of the
    pushes, exactly where no block comes in front of another one whose output it spends.
-/
import BitprimDatabase.DataBase.PushPop

namespace Libbitcoin.Database

open Lib

/-- A block and its height. -/
abbrev Placed := Block × Nat

/-! ## 1. Chains -/

/-- **A valid chain** from height 0: linked, with transactions of distinct hashes, every input
    behind a coinbase spending an output of an earlier transaction, no output spent twice. Heights
    and positions fit in four bytes. -/
structure ValidChain (chain : List Block) : Prop where
  heights : chain.length ≤ maxUint32
  positions : ∀ b ∈ chain, b.transactions ≠ [] ∧ b.transactions.length ≤ maxUint32
  first : ∀ b, chain[0]? = some b → b.header.previousBlockHash = nullHash
  linked : ∀ h b b', chain[h]? = some b → chain[h + 1]? = some b' →
    b'.header.previousBlockHash = b.header.hash
  blockHashes : (chain.map fun b => b.header.hash).Nodup
  hashes : (chain.flatMap Block.hashes).Nodup
  spendsEarlier : ∀ o ∈ chain.zipIdx, ∀ t ∈ o.1.transactions.zipIdx, t.2 ≠ 0 →
    ∀ input ∈ t.1.inputs, ∃ o' ∈ chain.zipIdx, ∃ t' ∈ o'.1.transactions.zipIdx,
      t'.1.hash = input.previousOutput.hash ∧
        input.previousOutput.index < t'.1.outputs.length ∧ (o'.2 < o.2 ∨ o' = o ∧ t'.2 < t.2)
  spendsOnce : (chain.flatMap Block.previousOutputs).Nodup

/-- A block spends an output of another one. -/
def SpendsFrom (b b' : Block) : Prop := ∃ p ∈ b.previousOutputs, p.hash ∈ b'.hashes

/-- No block stands in front of one whose output it spends. -/
def ParentsFirst (order : List Placed) : Prop :=
  order.Pairwise fun o o' => ¬ SpendsFrom o.1 o'.1

/-! ## 2. The slabs of written blocks -/

/-- The height of the written block that spends a point. -/
def spenderOf : List Placed → Point → Option Nat
  | [], _ => none
  | o :: done, p => if p ∈ o.1.previousOutputs then some o.2 else spenderOf done p

/-- The slab of a transaction of a written block, with the spends of the written blocks. -/
def settled (done : List Placed) (height : Nat) (t : Transaction × Nat) : TransactionSlab :=
  { t.1.toSlab height t.2 with
    outputs := (t.1.outputs.map Output.toStore).mapIdx fun i o =>
      match spenderOf done ⟨t.1.hash, i⟩ with
      | none => o
      | some spenderHeight => { o with spenderHeight := u32 spenderHeight } }

theorem spenderOf_eq_none {done : List Placed} {p : Point} :
    spenderOf done p = none ↔ ∀ o ∈ done, p ∉ o.1.previousOutputs := by
  induction done with
  | nil => simp [spenderOf]
  | cons o done ih =>
      rw [spenderOf, List.forall_mem_cons]
      by_cases hp : p ∈ o.1.previousOutputs
      · simp [hp]
      · simp [hp, ih]

/-- With no output spent twice a point has one spender. -/
theorem spenderOf_eq_some {done : List Placed}
    (hn : (done.flatMap fun o => o.1.previousOutputs).Nodup) {p : Point} {height : Nat} :
    spenderOf done p = some height ↔ ∃ o ∈ done, p ∈ o.1.previousOutputs ∧ o.2 = height := by
  induction done with
  | nil => simp [spenderOf]
  | cons o done ih =>
      rw [List.flatMap_cons] at hn
      obtain ⟨_, hn', hdisj⟩ := List.nodup_append'.mp hn
      rw [spenderOf]
      by_cases hp : p ∈ o.1.previousOutputs
      · rw [if_pos hp]
        constructor
        · intro h
          exact ⟨o, List.mem_cons_self, hp, Option.some.inj h⟩
        · intro ⟨o', ho', hp', hh⟩
          rcases List.mem_cons.mp ho' with rfl | ho'
          · rw [hh]
          · exact absurd (List.mem_flatMap.mpr ⟨o', ho', hp'⟩) (hdisj hp)
      · rw [if_neg hp, ih hn']
        constructor
        · intro ⟨o', ho', h⟩
          exact ⟨o', List.mem_cons_of_mem _ ho', h⟩
        · intro ⟨o', ho', hp', hh⟩
          rcases List.mem_cons.mp ho' with rfl | ho'
          · exact absurd hp' hp
          · exact ⟨o', ho', hp', hh⟩

theorem settled_perm {done done' : List Placed} (h : done.Perm done')
    (hn : (done.flatMap fun o => o.1.previousOutputs).Nodup) (height : Nat)
    (t : Transaction × Nat) : settled done height t = settled done' height t := by
  have hn' : (done'.flatMap fun o => o.1.previousOutputs).Nodup :=
    (h.flatMap_right _).nodup_iff.mp hn
  have hs (p : Point) : spenderOf done p = spenderOf done' p := by
    refine Option.ext fun k => ?_
    rw [spenderOf_eq_some hn, spenderOf_eq_some hn']
    simp only [h.mem_iff]
  unfold settled
  simp only [hs]

/-- The spends of one more block. -/
theorem settled_cons (o : Placed) (done : List Placed) (height : Nat) (t : Transaction × Nat) :
    settled (o :: done) height t =
      (settled done height t).spendAt (indexesOf o.1.previousOutputs t.1.hash) o.2 := by
  unfold settled TransactionSlab.spendAt
  dsimp only
  congr 1
  refine List.ext_getElem? fun i => ?_
  simp only [List.getElem?_mapIdx, mem_indexesOf]
  cases (t.1.outputs.map Output.toStore)[i]? with
  | none => rfl
  | some out =>
      by_cases hp : ⟨t.1.hash, i⟩ ∈ o.1.previousOutputs
      · simp only [Option.map_some, spenderOf, hp, if_true]
        cases spenderOf done ⟨t.1.hash, i⟩ <;> rfl
      · simp only [Option.map_some, spenderOf, hp, if_false]

/-! ## 3. Written blocks -/

variable [Core]

/-- **The states that have written the blocks**, the latest first, from created tables; each
    previous output was there. -/
inductive Stored (settings : Settings) (flushes : Bool) (stray : BlockResult) :
    List Placed → DataBase → Prop
  | start : Stored settings flushes stray [] (DataBase.start settings flushes stray)
  | write {done : List Placed} {db db' : DataBase} {b : Block} {height : Nat}
      (h : Stored settings flushes stray done db)
      (hs : ∀ p ∈ b.previousOutputs, Spendable (db.stored b height) p height)
      (hw : DataBase.Written db b height db') :
      Stored settings flushes stray ((b, height) :: done) db'

namespace Stored

variable {settings : Settings} {flushes : Bool} {stray : BlockResult} {done : List Placed}
  {db : DataBase}

theorem settings_eq (h : Stored settings flushes stray done db) : db.settings = settings := by
  induction h with
  | start => rfl
  | write _ _ hw ih => rw [hw.settings_eq, ih]

/-- The rows of the indexes: those of the blocks in the order of their writing. -/
theorem spends_eq (h : Stored settings flushes stray done db) :
    db.spendsOf = (DataBase.start settings flushes stray).spendsOf.pushAll
      (done.reverse.flatMap fun o => o.1.spendRows settings.indexStartHeight o.2) := by
  induction h with
  | start => rfl
  | write h _ hw ih =>
      rw [hw.spends_eq, ih, h.settings_eq, List.reverse_cons, List.flatMap_append,
        Stacks.pushAll_append, List.flatMap_singleton]

theorem rows_eq (h : Stored settings flushes stray done db) :
    db.rows = (DataBase.start settings flushes stray).rows.pushAll
      (done.reverse.flatMap fun o => o.1.historyRows settings.indexStartHeight o.2) := by
  induction h with
  | start => rfl
  | write h _ hw ih =>
      rw [hw.rows_eq, ih, h.settings_eq, List.reverse_cons, List.flatMap_append,
        Stacks.pushAll_append, List.flatMap_singleton]

theorem blockSlabs_eq (h : Stored settings flushes stray done db) :
    db.blocks.slabs = (DataBase.start settings flushes stray).blocks.slabs.pushAll
      (done.reverse.map fun o => (o.1.header.hash, o.1.toSlab o.2)) := by
  induction h with
  | start => rfl
  | write h _ hw ih =>
      rw [hw.blocks_eq, BlockDatabase.store_slabs, ih, List.reverse_cons, List.map_append,
        Stacks.pushAll_append]
      rfl

/-- A hash without a written transaction has no slab. -/
theorem slabs_nil (h : Stored settings flushes stray done db) {hash : HashDigest}
    (hn : ∀ o ∈ done, hash ∉ o.1.hashes) : db.transactions.slabs hash = [] := by
  induction h with
  | start => exact TransactionDatabase.create_slabs ..
  | @write done db db' b height h _ hw ih =>
      obtain ⟨hb, hd⟩ := List.forall_mem_cons.mp hn
      rw [hw.slabs_eq, spendSlabs_apply, db.stored_notMem height hb, ih hd]
      rfl

/-- A spent output is one of a written transaction. -/
theorem spent_stored (h : Stored settings flushes stray done db) :
    ∀ o ∈ done, ∀ p ∈ o.1.previousOutputs, ∃ o' ∈ done, p.hash ∈ o'.1.hashes := by
  induction h with
  | start => exact fun _ ho => absurd ho List.not_mem_nil
  | @write done db db' b height h hs hw ih =>
      intro o ho p hp
      rcases List.mem_cons.mp ho with rfl | ho
      · obtain ⟨slab, hhead, _⟩ := hs p hp
        by_contra hnone
        have hnot : ∀ o' ∈ (b, height) :: done, p.hash ∉ o'.1.hashes := fun o' ho' hm =>
          hnone ⟨o', ho', hm⟩
        obtain ⟨hb, hd⟩ := List.forall_mem_cons.mp hnot
        rw [db.stored_notMem height hb, h.slabs_nil hd] at hhead
        cases hhead
      · obtain ⟨o', ho', hm⟩ := ih o ho p hp
        exact ⟨o', List.mem_cons_of_mem _ ho', hm⟩

/-- **The slab of a written transaction** has its place and the spends of all written blocks. -/
theorem slabs_eq (h : Stored settings flushes stray done db)
    (hn : (done.flatMap fun o => o.1.hashes).Nodup) :
    ∀ o ∈ done, ∀ t ∈ o.1.transactions.zipIdx,
      db.transactions.slabs t.1.hash = [settled done o.2 t] := by
  induction h with
  | start => exact fun _ ho => absurd ho List.not_mem_nil
  | @write done db db' b height h hs hw ih =>
      rw [List.flatMap_cons] at hn
      obtain ⟨hnb, hnd, hdisj⟩ := List.nodup_append'.mp hn
      intro o ho t ht
      have hmem : t.1.hash ∈ o.1.hashes := List.mem_map_of_mem (List.fst_mem_of_mem_zipIdx ht)
      rw [hw.slabs_eq, spendSlabs_apply]
      rcases List.mem_cons.mp ho with rfl | ho
      · -- a transaction of the block on top
        have hold : db.transactions.slabs t.1.hash = [] := h.slabs_nil fun o' ho' hm =>
          hdisj hmem (List.mem_flatMap.mpr ⟨o', ho', hm⟩)
        have hstored : db.stored b height t.1.hash = [t.1.toSlab height t.2] := by
          unfold DataBase.stored
          rw [storeAll_slabs_mem _ height (by rw [DataBase.zipIdx_map_hash]; exact hnb) ht,
            TransactionDatabase.store_slabs, if_neg (by simp [TransactionDatabase.inPlace, hold]),
            Stacks.push_same, hold]
        have hunspent : settled done height t = t.1.toSlab height t.2 := by
          have hs (i : Nat) : spenderOf done ⟨t.1.hash, i⟩ = none := by
            refine spenderOf_eq_none.mpr fun o' ho' hp => ?_
            obtain ⟨o'', ho'', hm⟩ := h.spent_stored o' ho' _ hp
            exact hdisj hmem (List.mem_flatMap.mpr ⟨o'', ho'', hm⟩)
          have hid (l : List Output) : l.mapIdx (fun _ o => o) = l :=
            List.ext_getElem? fun i => by simp
          unfold settled
          simp only [hs, hid]
          rfl
        rw [hstored, settled_cons, hunspent]
        rfl
      · have hnot : t.1.hash ∉ b.hashes := fun hm =>
          hdisj hm (List.mem_flatMap.mpr ⟨o, ho, hmem⟩)
        rw [db.stored_notMem height hnot, ih hnd o ho t ht, settled_cons]
        rfl

/-- What is spendable for one more block: an output of a written block or of its own. -/
theorem spendable_iff (h : Stored settings flushes stray done db)
    (hn : (done.flatMap fun o => o.1.hashes).Nodup) {b : Block} {height : Nat}
    (hb : b.hashes.Nodup) (hnew : ∀ hash ∈ b.hashes, ∀ o ∈ done, hash ∉ o.1.hashes) {p : Point}
    {o : Placed} {t : Transaction × Nat} (ht : t ∈ o.1.transactions.zipIdx)
    (hp : t.1.hash = p.hash) (hi : p.index < t.1.outputs.length) (hle : o.2 ≤ height)
    (hh : height < maxUint32) (hl : o.1.transactions.length ≤ maxUint32)
    (ho : (∃ o' ∈ (b, height) :: done, p.hash ∈ o'.1.hashes) → o ∈ (b, height) :: done) :
    Spendable (db.stored b height) p height ↔ ∃ o' ∈ (b, height) :: done, p.hash ∈ o'.1.hashes := by
  constructor
  · intro ⟨slab, hhead, _⟩
    by_contra hnone
    have hnot : ∀ o' ∈ (b, height) :: done, p.hash ∉ o'.1.hashes := fun o' ho' hm =>
      hnone ⟨o', ho', hm⟩
    obtain ⟨hnb, hnd⟩ := List.forall_mem_cons.mp hnot
    rw [db.stored_notMem height hnb, h.slabs_nil hnd] at hhead
    cases hhead
  · intro hex
    obtain ⟨hu, hne⟩ := DataBase.position_bound hl ht
    have hmem : t.1.hash ∈ o.1.hashes := List.mem_map_of_mem (List.fst_mem_of_mem_zipIdx ht)
    rcases List.mem_cons.mp (ho hex) with rfl | hod
    · obtain ⟨slab, hs, hsh, hsp, hout⟩ := db.stored_head hb height ht
      refine ⟨slab, hp ▸ hs, by rw [hsh, u32_of_lt hh], by rw [hsp, hu]; exact hne, ?_⟩
      rw [hout, TransactionDatabase.outputsStored, if_neg]
      · simpa using hi
      · have hold : db.transactions.slabs t.1.hash = [] := h.slabs_nil (hnew _ hmem)
        simp [TransactionDatabase.inPlace, hold]
    · have hnot : t.1.hash ∉ b.hashes := fun hm => hnew _ hm o hod hmem
      refine ⟨settled done o.2 t, ?_, ?_, ?_, ?_⟩
      · rw [← hp, db.stored_notMem height hnot, h.slabs_eq hn o hod t ht]
        rfl
      · rw [show (settled done o.2 t).height = u32 o.2 from rfl, u32_of_lt (by omega)]
        exact hle
      · rw [show (settled done o.2 t).position = u32 t.2 from rfl, hu]
        exact hne
      · simpa [settled] using hi

/-- The heights of the written blocks are taken, and no other one. -/
theorem exists_iff (h : Stored settings flushes stray done db)
    (hh : ∀ o ∈ done, o.2 < maxUint32) (k : Nat) :
    db.blocks.exists? k = true ↔ ∃ o ∈ done, o.2 = k := by
  induction h with
  | start => exact iff_of_false Bool.false_ne_true fun ⟨_, ho, _⟩ => absurd ho List.not_mem_nil
  | @write done db db' b height h hs hw ih =>
      obtain ⟨hb, hd⟩ := List.forall_mem_cons.mp hh
      rw [hw.blocks_eq, BlockDatabase.store_exists _ _ hb, Bool.or_eq_true, ih hd,
        decide_eq_true_eq]
      constructor
      · rintro (rfl | ⟨o, ho, he⟩)
        · exact ⟨_, List.mem_cons_self, rfl⟩
        · exact ⟨o, List.mem_cons_of_mem _ ho, he⟩
      · rintro ⟨o, ho, he⟩
        rcases List.mem_cons.mp ho with rfl | ho
        · exact .inl he.symm
        · exact .inr ⟨o, ho, he⟩

/-- Each written block is at its height. -/
theorem at_eq (h : Stored settings flushes stray done db) (hh : ∀ o ∈ done, o.2 < maxUint32)
    (hn : (done.map Prod.snd).Nodup) :
    ∀ o ∈ done, db.blocks.at? o.2 = some ⟨o.1.header.hash, o.1.toSlab o.2⟩ := by
  induction h with
  | start => exact fun _ ho => absurd ho List.not_mem_nil
  | @write done db db' b height h hs hw ih =>
      obtain ⟨hb, hd⟩ := List.forall_mem_cons.mp hh
      obtain ⟨hnot, hn⟩ := List.nodup_cons.mp hn
      intro o ho
      rw [hw.blocks_eq, BlockDatabase.store_at _ _ hb]
      rcases List.mem_cons.mp ho with rfl | ho
      · rw [if_pos rfl]
      · rw [if_neg fun he => hnot (List.mem_map.mpr ⟨o, ho, he⟩), ih hd hn o ho]

/-- The count is behind the highest written block. -/
theorem count_spec (h : Stored settings flushes stray done db) (hh : ∀ o ∈ done, o.2 < maxUint32) :
    (∀ o ∈ done, o.2 < db.blocks.count) ∧
      (db.blocks.count = 0 ∨ ∃ o ∈ done, db.blocks.count = o.2 + 1) := by
  induction h with
  | start => exact ⟨fun _ ho => absurd ho List.not_mem_nil, .inl rfl⟩
  | @write done db db' b height h hs hw ih =>
      obtain ⟨hb, hd⟩ := List.forall_mem_cons.mp hh
      obtain ⟨hlt, hmax⟩ := ih hd
      rw [hw.blocks_eq, BlockDatabase.store_count _ _ hb]
      refine ⟨fun o ho => ?_, .inr ?_⟩
      · rcases List.mem_cons.mp ho with rfl | ho
        · exact Nat.lt_of_lt_of_le (Nat.lt_succ_self _) (Nat.le_max_right ..)
        · exact Nat.lt_of_lt_of_le (hlt o ho) (Nat.le_max_left ..)
      · rcases Nat.le_total db.blocks.count (height + 1) with hle | hle
        · exact ⟨_, List.mem_cons_self, Nat.max_eq_right hle⟩
        · rw [Nat.max_eq_left hle]
          rcases hmax with hz | ⟨o, ho, he⟩
          · omega
          · exact ⟨o, List.mem_cons_of_mem _ ho, he⟩

end Stored

/-! ## 4. Agreement -/

/-- **What an import is to leave**: the blocks of the chain without gaps, every transaction
    confirmed at its place, and the answers of the tables that the pushes leave, the history rows
    of an address in any order. -/
structure Agrees (chain : List Block) (db db' : DataBase) : Prop where
  placed : ∀ o ∈ chain.zipIdx, db.blocks.get o.2 = some ⟨o.1.header.hash, o.1.toSlab o.2⟩
  gaps : db.blocks.gaps = []
  blocks : ∀ height, db.blocks.get height = db'.blocks.get height
  blocksByHash : ∀ hash, db.blocks.getByHash hash = db'.blocks.getByHash hash
  confirmed : ∀ o ∈ chain.zipIdx, ∀ t ∈ o.1.transactions.zipIdx, ∃ slab,
    db.transactions.get t.1.hash maxSize true = some slab ∧ slab.height = o.2 ∧ slab.position = t.2
  transactions : ∀ hash forkHeight requireConfirmed,
    db.transactions.get hash forkHeight requireConfirmed =
      db'.transactions.get hash forkHeight requireConfirmed
  spends : ∀ outpoint, db.spends.get outpoint = db'.spends.get outpoint
  history : ∀ address, (db.history.get address 0 0).Perm (db'.history.get address 0 0)

section Chain

variable {settings : Settings} {flushes : Bool} {stray : BlockResult} {chain : List Block}

omit [Core] in
theorem zipIdx_height_lt (hl : chain.length ≤ maxUint32) {o : Placed} (ho : o ∈ chain.zipIdx) :
    o.2 < maxUint32 :=
  Nat.lt_of_lt_of_le (by simpa using List.snd_lt_of_mem_zipIdx ho) hl

omit [Core] in
theorem zipIdx_heights_nodup (chain : List Block) : (chain.zipIdx.map Prod.snd).Nodup := by
  rw [List.zipIdx_map_snd]
  exact List.nodup_range'

omit [Core] in
theorem perm_flatMap_nodup {A : Type} {done : List Placed} (hp : done.Perm chain.zipIdx)
    {f : Block → List A} (hn : (chain.flatMap f).Nodup) :
    (done.flatMap fun o => f o.1).Nodup := by
  refine (hp.flatMap_right _).nodup_iff.mpr ?_
  rw [zipIdx_flatMap_fst]
  exact hn

section Whole

variable {done done' : List Placed} {db db' : DataBase}

/-- The count of a whole chain is its length. -/
theorem Stored.count_eq (hl : chain.length ≤ maxUint32) (h : Stored settings flushes stray done db)
    (hp : done.Perm chain.zipIdx) : db.blocks.count = chain.length := by
  obtain ⟨hlt, hmax⟩ := h.count_spec fun o ho => zipIdx_height_lt hl (hp.mem_iff.mp ho)
  refine Nat.le_antisymm ?_ (Nat.le_of_not_lt fun hgt => ?_)
  · rcases hmax with hz | ⟨o, ho, he⟩
    · omega
    · have : o.2 < chain.length := by
        simpa using List.snd_lt_of_mem_zipIdx (hp.mem_iff.mp ho)
      omega
  · have hmem : (chain[db.blocks.count], db.blocks.count) ∈ chain.zipIdx :=
      List.mem_zipIdx_iff_getElem?.mpr (List.getElem?_eq_getElem hgt)
    exact absurd (hlt _ (hp.mem_iff.mpr hmem)) (Nat.lt_irrefl _)

/-- The blocks of a whole chain, by height. -/
theorem Stored.get_eq (hl : chain.length ≤ maxUint32) (h : Stored settings flushes stray done db)
    (hp : done.Perm chain.zipIdx) (k : Nat) :
    db.blocks.get k = chain[k]?.map fun b => ⟨b.header.hash, b.toSlab k⟩ := by
  cases hb : chain[k]? with
  | none =>
      have := List.getElem?_eq_none_iff.mp hb
      rw [BlockDatabase.get_eq, if_neg (by rw [h.count_eq hl hp]; omega)]
      rfl
  | some b =>
      have hmem : (b, k) ∈ done := hp.mem_iff.mpr (List.mem_zipIdx_iff_getElem?.mpr hb)
      have hn : (done.map Prod.snd).Nodup :=
        (hp.map Prod.snd).nodup_iff.mpr (zipIdx_heights_nodup chain)
      exact BlockDatabase.get_of_at
        (h.at_eq (fun o ho => zipIdx_height_lt hl (hp.mem_iff.mp ho)) hn _ hmem)

theorem Stored.gaps_eq (hl : chain.length ≤ maxUint32) (h : Stored settings flushes stray done db)
    (hp : done.Perm chain.zipIdx) : db.blocks.gaps = [] := by
  refine BlockDatabase.gaps_eq_nil fun k hk => ?_
  rw [h.count_eq hl hp] at hk
  refine (h.exists_iff (fun o ho => zipIdx_height_lt hl (hp.mem_iff.mp ho)) k).mpr ?_
  exact ⟨(chain[k], k), hp.mem_iff.mpr
    (List.mem_zipIdx_iff_getElem?.mpr (List.getElem?_eq_getElem hk)), rfl⟩

/-- **The slabs do not show the order.** -/
theorem Stored.slabs_perm (hv : ValidChain chain) (h : Stored settings flushes stray done db)
    (h' : Stored settings flushes stray done' db') (hp : done.Perm chain.zipIdx)
    (hp' : done'.Perm chain.zipIdx) (hash : HashDigest) :
    db.transactions.slabs hash = db'.transactions.slabs hash := by
  have hdd : done.Perm done' := hp.trans hp'.symm
  by_cases hex : ∃ o ∈ done, hash ∈ o.1.hashes
  · obtain ⟨o, ho, hm⟩ := hex
    obtain ⟨tx, htx, rfl⟩ := List.mem_map.mp hm
    obtain ⟨i, hi, rfl⟩ := List.mem_iff_getElem.mp htx
    have ht : (o.1.transactions[i], i) ∈ o.1.transactions.zipIdx :=
      List.mem_zipIdx_iff_getElem?.mpr (List.getElem?_eq_getElem hi)
    rw [h.slabs_eq (perm_flatMap_nodup hp hv.hashes) o ho _ ht,
      h'.slabs_eq (perm_flatMap_nodup hp' hv.hashes) o (hdd.mem_iff.mp ho) _ ht,
      settled_perm hdd (perm_flatMap_nodup hp hv.spendsOnce)]
  · have hnot : ∀ o ∈ done, hash ∉ o.1.hashes := fun o ho hm => hex ⟨o, ho, hm⟩
    rw [h.slabs_nil hnot, h'.slabs_nil fun o ho => hnot o (hdd.mem_iff.mpr ho)]

/-- Each output point has one spend at most, in every order. -/
theorem Stored.spends_perm (hv : ValidChain chain) (h : Stored settings flushes stray done db)
    (h' : Stored settings flushes stray done' db') (hp : done.Perm chain.zipIdx)
    (hp' : done'.Perm chain.zipIdx) : db.spendsOf = db'.spendsOf := by
  rw [h.spends_eq, h'.spends_eq]
  refine Stacks.pushAll_perm_of_nodup _ (((done.reverse_perm.trans hp).trans
    (done'.reverse_perm.trans hp').symm).flatMap_right _) ?_
  have hn := perm_flatMap_nodup (done.reverse_perm.trans hp) hv.spendsOnce
  rw [List.nodup_flatMap] at hn
  simp only [List.map_flatMap, blockSpendRows_keys]
  refine List.nodup_flatMap.mpr ⟨fun o ho => ?_, hn.2.imp fun {o o'} hd => ?_⟩
  · split
    · exact List.nodup_nil
    · exact hn.1 o ho
  · intro p hm hm'
    dsimp only at hm hm'
    split at hm
    · cases hm
    · split at hm'
      · cases hm'
      · exact hd hm hm'

theorem Stored.blockSlabs_perm (hv : ValidChain chain) (h : Stored settings flushes stray done db)
    (h' : Stored settings flushes stray done' db') (hp : done.Perm chain.zipIdx)
    (hp' : done'.Perm chain.zipIdx) : db.blocks.slabs = db'.blocks.slabs := by
  rw [h.blockSlabs_eq, h'.blockSlabs_eq]
  refine Stacks.pushAll_perm_of_nodup _ (((done.reverse_perm.trans hp).trans
    (done'.reverse_perm.trans hp').symm).map _) ?_
  rw [List.map_map]
  refine ((done.reverse_perm.trans hp).map _).nodup_iff.mpr ?_
  rw [show (Prod.fst ∘ fun o : Placed => (o.1.header.hash, o.1.toSlab o.2)) =
    (fun b : Block => b.header.hash) ∘ Prod.fst from rfl, ← List.map_map, List.zipIdx_map_fst]
  exact hv.blockHashes

/-- **States that have written the blocks of a chain agree**, whatever the orders. -/
theorem Stored.agrees (hv : ValidChain chain) (h : Stored settings flushes stray done db)
    (h' : Stored settings flushes stray done' db') (hp : done.Perm chain.zipIdx)
    (hp' : done'.Perm chain.zipIdx) : Agrees chain db db' where
  placed o ho := by
    rw [h.get_eq hv.heights hp, List.mem_zipIdx_iff_getElem?.mp ho]
    rfl
  gaps := h.gaps_eq hv.heights hp
  blocks k := by rw [h.get_eq hv.heights hp, h'.get_eq hv.heights hp']
  blocksByHash hash := by
    rw [BlockDatabase.getByHash_eq, BlockDatabase.getByHash_eq, h.blockSlabs_perm hv h' hp hp']
  confirmed o ho t ht := by
    have hod := hp.mem_iff.mpr ho
    have hslabs := h.slabs_eq (perm_flatMap_nodup hp hv.hashes) o hod t ht
    have hheight : u32 o.2 = o.2 := u32_of_lt (zipIdx_height_lt hv.heights ho)
    obtain ⟨hu, hne⟩ := DataBase.position_bound
      (hv.positions _ (List.fst_mem_of_mem_zipIdx ho)).2 ht
    refine ⟨settled done o.2 t, ?_, hheight, hu⟩
    refine db.transactions.find_true.mpr ⟨by rw [hslabs]; rfl, ?_, ?_⟩
    · rw [show (settled done o.2 t).height = u32 o.2 from rfl]
      exact Nat.le_trans (u32_le _) (by decide)
    · rw [show (settled done o.2 t).position = u32 t.2 from rfl, hu]
      exact hne
  transactions hash forkHeight requireConfirmed := by
    unfold TransactionDatabase.get
    rw [TransactionDatabase.find_eq, TransactionDatabase.find_eq, h.slabs_perm hv h' hp hp']
  spends outpoint := by
    rw [SpendDatabase.get_eq, SpendDatabase.get_eq]
    exact congrArg (fun s : Stacks Point Point => (s outpoint).head?.getD ⟨nullHash, 0⟩)
      (h.spends_perm hv h' hp hp')
  history address := by
    rw [HistoryDatabase.get_all, HistoryDatabase.get_all]
    have hrows := h.rows_eq
    have hrows' := h'.rows_eq
    unfold DataBase.rows at hrows hrows'
    rw [hrows, hrows']
    exact Stacks.pushAll_perm _ (((done.reverse_perm.trans hp).trans
      (done'.reverse_perm.trans hp').symm).flatMap_right _) address

end Whole

/-! ## 5. Inserts -/

/-- The state after a list of operations that all answer success. -/
def DataBase.applyAll (db : DataBase) : List Op → Option DataBase
  | [] => some db
  | op :: ops =>
    match db.apply op with
    | none => none
    | some db => db.applyAll ops

omit [Core] in
/-- The parent of an input is on the chain, at the height of its spender or below. -/
theorem ValidChain.parent (hv : ValidChain chain) {o : Placed} (ho : o ∈ chain.zipIdx) {p : Point}
    (hp : p ∈ o.1.previousOutputs) : ∃ o' ∈ chain.zipIdx, ∃ t' ∈ o'.1.transactions.zipIdx,
      t'.1.hash = p.hash ∧ p.index < t'.1.outputs.length ∧ o'.2 ≤ o.2 := by
  obtain ⟨input, hi, rfl⟩ := List.mem_map.mp hp
  obtain ⟨tx, htx, hi⟩ := List.mem_flatMap.mp hi
  obtain ⟨i, hlt, rfl⟩ := List.mem_iff_getElem.mp htx
  rw [List.length_tail] at hlt
  have ht : (o.1.transactions[i + 1], i + 1) ∈ o.1.transactions.zipIdx :=
    List.mem_zipIdx_iff_getElem?.mpr (List.getElem?_eq_getElem (by omega))
  rw [List.getElem_tail] at hi
  obtain ⟨o', ho', t', ht', hhash, hidx, hle⟩ := hv.spendsEarlier o ho _ ht (Nat.succ_ne_zero i)
    input hi
  refine ⟨o', ho', t', ht', hhash, hidx, ?_⟩
  rcases hle with hlt | ⟨rfl, _⟩
  · exact Nat.le_of_lt hlt
  · exact Nat.le_refl _

omit [Core] in
/-- A transaction hash is in one block of the chain. -/
theorem ValidChain.hash_unique (hv : ValidChain chain) {order : List Placed}
    (hp : order.Perm chain.zipIdx) : order.Pairwise fun o o' => ∀ hash ∈ o.1.hashes,
      hash ∉ o'.1.hashes :=
  (List.nodup_flatMap.mp (perm_flatMap_nodup hp hv.hashes)).2.imp fun hd _ hm hm' => hd hm hm'

omit [Core] in
theorem ValidChain.block_of_hash (hv : ValidChain chain) {o o' : Placed} (ho : o ∈ chain.zipIdx)
    (ho' : o' ∈ chain.zipIdx) {hash : HashDigest} (hm : hash ∈ o.1.hashes)
    (hm' : hash ∈ o'.1.hashes) : o = o' := by
  by_contra hne
  have hsymm : Std.Symm fun o o' : Placed => ∀ hash ∈ o.1.hashes, hash ∉ o'.1.hashes :=
    ⟨fun _ _ h hash hb ha => h hash ha hb⟩
  exact (hv.hash_unique (.refl _)).forall ho ho' hne hash hm hm'

/-- **What one more block needs**: none of the blocks still to come has an output it spends. -/
theorem Stored.spendable_all_iff {done rest : List Placed} {db : DataBase} {o : Placed}
    (hv : ValidChain chain) (h : Stored settings flushes stray done db)
    (hp : (done ++ o :: rest).Perm chain.zipIdx) :
    (∀ p ∈ o.1.previousOutputs, Spendable (db.stored o.1 o.2) p o.2) ↔
      ∀ o' ∈ rest, ¬ SpendsFrom o.1 o'.1 := by
  have huniq := hv.hash_unique hp
  obtain ⟨_, hrest, hacross⟩ := List.pairwise_append.mp huniq
  have horest := (List.pairwise_cons.mp hrest).1
  have ho : o ∈ chain.zipIdx := hp.mem_iff.mp (List.mem_append_right _ List.mem_cons_self)
  have hn := perm_flatMap_nodup hp hv.hashes
  rw [List.flatMap_append, List.flatMap_cons] at hn
  obtain ⟨hnd, hno, _⟩ := List.nodup_append'.mp hn
  obtain ⟨hnb, _⟩ := List.nodup_append'.mp hno
  have hnew : ∀ hash ∈ o.1.hashes, ∀ o' ∈ done, hash ∉ o'.1.hashes := fun hash hm o' ho' hm' =>
    hacross o' ho' o List.mem_cons_self hash hm' hm
  have hiff {p : Point} (hp' : p ∈ o.1.previousOutputs) :
      Spendable (db.stored o.1 o.2) p o.2 ↔ ∃ o' ∈ o :: done, p.hash ∈ o'.1.hashes := by
    obtain ⟨q, hq, t, ht, hhash, hidx, hle⟩ := hv.parent ho hp'
    refine h.spendable_iff hnd hnb hnew ht hhash hidx hle (zipIdx_height_lt hv.heights ho)
      (hv.positions _ (List.fst_mem_of_mem_zipIdx hq)).2 fun ⟨o', ho', hm'⟩ => ?_
    have hmq : p.hash ∈ q.1.hashes :=
      hhash ▸ List.mem_map_of_mem (List.fst_mem_of_mem_zipIdx ht)
    have hoc : o' ∈ chain.zipIdx := by
      rcases List.mem_cons.mp ho' with rfl | ho'
      · exact ho
      · exact hp.mem_iff.mp (List.mem_append_left _ ho')
    exact hv.block_of_hash hq hoc hmq hm' ▸ ho'
  constructor
  · intro hall o' ho' ⟨p, hp', hm⟩
    obtain ⟨o'', ho'', hm''⟩ := (hiff hp').mp (hall p hp')
    rcases List.mem_cons.mp ho'' with rfl | ho''
    · exact horest o' ho' _ hm'' hm
    · exact hacross o'' ho'' o' (List.mem_cons_of_mem _ ho') _ hm'' hm
  · intro hnone p hp'
    obtain ⟨q, hq, t, ht, hhash, _⟩ := hv.parent ho hp'
    have hmq : p.hash ∈ q.1.hashes :=
      hhash ▸ List.mem_map_of_mem (List.fst_mem_of_mem_zipIdx ht)
    refine (hiff hp').mpr ⟨q, ?_, hmq⟩
    rcases List.mem_append.mp (hp.mem_iff.mpr hq) with hd | hr
    · exact List.mem_cons_of_mem _ hd
    · rcases List.mem_cons.mp hr with rfl | hr
      · exact List.mem_cons_self
      · exact absurd ⟨p, hp', hmq⟩ (hnone q hr)

/-- A block that passes the checks of an insert. -/
theorem Stored.verifyInsert {done rest : List Placed} {db : DataBase} {o : Placed}
    (hv : ValidChain chain) (h : Stored settings flushes stray done db)
    (hp : (done ++ o :: rest).Perm chain.zipIdx) : db.verifyInsert o.1 o.2 = .success := by
  have ho : o ∈ chain.zipIdx := hp.mem_iff.mp (List.mem_append_right _ List.mem_cons_self)
  have hne := (hv.positions _ (List.fst_mem_of_mem_zipIdx ho)).1
  have hh : ∀ o ∈ done, o.2 < maxUint32 := fun o' ho' =>
    zipIdx_height_lt hv.heights (hp.mem_iff.mp (List.mem_append_left _ ho'))
  have hfree : ¬ db.blocks.exists? o.2 = true := by
    rw [h.exists_iff hh]
    intro ⟨o', ho', he⟩
    have hn : ((done ++ o :: rest).map Prod.snd).Nodup :=
      (hp.map Prod.snd).nodup_iff.mpr (zipIdx_heights_nodup chain)
    rw [List.map_append, List.map_cons] at hn
    exact (List.nodup_append'.mp hn).2.2 (List.mem_map_of_mem ho') (he ▸ List.mem_cons_self)
  unfold DataBase.verifyInsert
  rw [if_neg (by simpa using hne), if_neg hfree]

/-- **Inserts succeed exactly where no block comes in front of one whose output it spends.** -/
theorem Stored.inserts_iff {done order : List Placed} {db : DataBase} (hv : ValidChain chain)
    (h : Stored settings flushes stray done db) (hp : (done.reverse ++ order).Perm chain.zipIdx) :
    ((∃ db', db.applyAll (order.map fun o => .insert o.1 o.2) = some db') ↔ ParentsFirst order) ∧
      ∀ db', db.applyAll (order.map fun o => .insert o.1 o.2) = some db' →
        Stored settings flushes stray (order.reverse ++ done) db' := by
  induction order generalizing done db with
  | nil =>
      exact ⟨iff_of_true ⟨db, rfl⟩ List.Pairwise.nil, fun db' he => by cases he; exact h⟩
  | cons o rest ih =>
      have hp' : (done ++ o :: rest).Perm chain.zipIdx :=
        (List.Perm.append_right _ done.reverse_perm.symm).trans hp
      obtain ⟨hiff, hw⟩ := db.insert_success o.1 o.2
      rw [h.verifyInsert hv hp', h.spendable_all_iff hv hp'] at hiff
      unfold ParentsFirst
      rw [List.pairwise_cons, List.map_cons, DataBase.applyAll, DataBase.apply]
      by_cases hs : (db.insert o.1 o.2).2 = .success
      · rw [if_pos hs]
        obtain ⟨_, hnone⟩ := hiff.mp hs
        have h₁ : Stored settings flushes stray (o :: done) (db.insert o.1 o.2).1 :=
          .write h ((h.spendable_all_iff hv hp').mpr hnone) (hw hs).1
        obtain ⟨ih₁, ih₂⟩ := ih h₁ (by
          rw [List.reverse_cons, List.append_assoc]
          exact hp)
        refine ⟨ih₁.trans ⟨fun hr => ⟨hnone, hr⟩, fun hr => hr.2⟩, fun db' he => ?_⟩
        rw [List.reverse_cons, List.append_assoc]
        exact ih₂ db' he
      · rw [if_neg hs]
        refine ⟨iff_of_false ?_ fun hpar => hs (hiff.mpr ⟨rfl, hpar.1⟩), fun db' he => by cases he⟩
        intro h
        obtain ⟨_, he⟩ := h
        cases he

/-! ## 6. Pushes in the order of height -/

/-- A block on top of the written ones passes the checks of a push. -/
theorem Stored.verifyPush {below above : List Block} {db : DataBase} {b : Block}
    (hv : ValidChain (below ++ b :: above))
    (h : Stored settings flushes stray below.zipIdx.reverse db) :
    db.verifyPush b below.length = .success := by
  have hl : below.length ≤ maxUint32 := by
    have := hv.heights
    rw [List.length_append] at this
    omega
  have hp : below.zipIdx.reverse.Perm below.zipIdx := List.reverse_perm _
  have hcount := h.count_eq hl hp
  have hne := (hv.positions b (List.mem_append_right _ List.mem_cons_self)).1
  have hb : (below ++ b :: above)[below.length]? = some b := by simp
  have hnext : DataBase.getNextHeight db.blocks = below.length := by
    unfold DataBase.getNextHeight
    cases ht : db.blocks.top with
    | none => rw [← hcount, BlockDatabase.top_eq_none.mp ht]
    | some top => rw [← hcount, BlockDatabase.top_eq_some.mp ht]
  have hprev : b.header.previousBlockHash = DataBase.getPreviousHash db.blocks below.length := by
    unfold DataBase.getPreviousHash
    by_cases hz : below.length = 0
    · rw [if_pos hz]
      exact hv.first b (hz ▸ hb)
    · obtain ⟨k, hk⟩ := Nat.exists_eq_succ_of_ne_zero hz
      have hlt : k < below.length := by omega
      have hbelow : (below ++ b :: above)[k]? = some below[k] := by
        rw [List.getElem?_append_left hlt, List.getElem?_eq_getElem hlt]
      rw [if_neg hz, show below.length - 1 = k by omega, h.get_eq hl hp,
        List.getElem?_eq_getElem hlt]
      exact hv.linked k _ _ hbelow (by rw [← Nat.succ_eq_add_one, ← hk]; exact hb)
  unfold DataBase.verifyPush
  rw [if_neg (by simpa using hne), if_neg (by simp [hnext]), if_neg (by simp [hprev])]

/-- **The pushes in the order of height succeed**, where a flush does. -/
theorem Stored.pushes {below above : List Block} {db : DataBase}
    (hv : ValidChain (below ++ above))
    (h : Stored settings flushes stray below.zipIdx.reverse db) (hw : db.Writable) :
    ∃ db', db.applyAll ((above.zipIdx below.length).map fun o => .push o.1 o.2) = some db' ∧
      Stored settings flushes stray (below ++ above).zipIdx.reverse db' := by
  induction above generalizing below db with
  | nil =>
      rw [List.append_nil]
      exact ⟨db, rfl, h⟩
  | cons b above ih =>
      have hsplit : (below ++ b :: above).zipIdx =
          below.zipIdx ++ (b, below.length) :: above.zipIdx (below.length + 1) := by
        rw [List.zipIdx_append, List.zipIdx_cons, Nat.zero_add]
      have hp : (below.zipIdx.reverse ++ (b, below.length) ::
          above.zipIdx (below.length + 1)).Perm (below ++ b :: above).zipIdx := by
        rw [hsplit]
        exact List.Perm.append_right _ (List.reverse_perm _)
      have hmem : (b, below.length) ∈ (below ++ b :: above).zipIdx :=
        hp.mem_iff.mp (List.mem_append_right _ List.mem_cons_self)
      have hs := (h.spendable_all_iff hv hp).mpr fun o' ho' ⟨p, hp', hm⟩ => by
        obtain ⟨q, hq, t, ht, hhash, _, hle⟩ := hv.parent hmem hp'
        have ho'c := hp.mem_iff.mp (List.mem_append_right _ (List.mem_cons_of_mem _ ho'))
        have hmq : p.hash ∈ q.1.hashes :=
          hhash ▸ List.mem_map_of_mem (List.fst_mem_of_mem_zipIdx ht)
        cases hv.block_of_hash hq ho'c hmq hm
        have := List.le_snd_of_mem_zipIdx ho'
        omega
      have hpush := (DataBase.push_of_checks (h.verifyPush hv) hs hw)
      have h₁ : Stored settings flushes stray (below ++ [b]).zipIdx.reverse
          (db.push b below.length).1 := by
        rw [List.zipIdx_append, List.reverse_append, Nat.zero_add]
        exact .write h hs (DataBase.push_success hpush.1).2.2
      rw [show below ++ b :: above = (below ++ [b]) ++ above by simp] at hv ⊢
      rw [List.zipIdx_cons, List.map_cons, DataBase.applyAll, DataBase.apply, if_pos hpush.1]
      have := ih hv h₁ hpush.2
      rw [List.length_append] at this
      exact this

/-! ## 7. Every order -/

/-- **What an import in some order is to do**: every insert answers success, and the tables agree
    with those of the pushes in the order of height. -/
def Imports (settings : Settings) (flushes : Bool) (stray : BlockResult) (chain : List Block)
    (order : List Placed) : Prop :=
  ∃ db db', (DataBase.start settings flushes stray).applyAll
      (order.map fun o => .insert o.1 o.2) = some db ∧
    (DataBase.start settings flushes stray).applyAll
      (chain.zipIdx.map fun o => .push o.1 o.2) = some db' ∧ Agrees chain db db'

/-- **Import order matters for parents only**: a valid chain is imported in an order exactly where
    no block comes in front of another one whose output it spends. -/
theorem imports_iff_parentsFirst (settings : Settings) {flushes : Bool} (stray : BlockResult)
    (hflush : settings.flushWrites = true → flushes = true) (hv : ValidChain chain)
    {order : List Placed} (hp : order.Perm chain.zipIdx) :
    Imports settings flushes stray chain order ↔ ParentsFirst order := by
  have hstart : Stored settings flushes stray [] (DataBase.start settings flushes stray) := .start
  obtain ⟨hiff, hstored⟩ := hstart.inserts_iff hv hp
  constructor
  · intro ⟨db, _, hi, _⟩
    exact hiff.mp ⟨db, hi⟩
  · intro hpar
    obtain ⟨db, hi⟩ := hiff.mpr hpar
    have hw : (DataBase.start settings flushes stray).Writable := by
      unfold DataBase.Writable DataBase.start
      cases hf : settings.flushWrites with
      | false => exact ⟨rfl, fun h => by cases h⟩
      | true => exact ⟨rfl, fun _ => hflush hf⟩
    obtain ⟨db', hpush, hstored'⟩ := @Stored.pushes _ settings flushes stray [] chain _ hv hstart hw
    refine ⟨db, db', hi, hpush, (hstored db hi).agrees hv hstored' ?_ (List.reverse_perm _)⟩
    rw [List.append_nil]
    exact (List.reverse_perm _).trans hp

end Chain

/-! ## 8. Examples -/

/-- The second block's transaction spends the output of the block below. -/
def importChain : List Block :=
  [.sampleGenesis, .sample 2 1 [.sampleCoinbase 201 2],
    .sample 3 2 [.sampleCoinbase 301 3, .sampleSpend 302 ⟨201, 0⟩ 1],
    .sample 4 3 [.sampleCoinbase 401 4]]

omit [Core] in
theorem importChain_valid : ValidChain importChain where
  heights := by decide
  positions := by decide +kernel
  first b hb := by
    cases hb
    rfl
  linked h b b' hb hb' := by
    match h with
    | 0 => cases hb; cases hb'; rfl
    | 1 => cases hb; cases hb'; rfl
    | 2 => cases hb; cases hb'; rfl
    | n + 3 => cases hb'
  blockHashes := by decide +kernel
  hashes := by decide +kernel
  spendsEarlier := by decide +kernel
  spendsOnce := by decide +kernel

/-- The order with some of the blocks moved. -/
def importOrder (heights : List Nat) : List Placed :=
  heights.filterMap fun height => importChain[height]?.map fun b => (b, height)

omit [Core] in
/-- The last block comes second: heights 1 and 2 are gaps for a while. -/
theorem gaps_import : @Imports Core.sample Settings.sample true .sampleStray importChain
    (importOrder [0, 3, 1, 2]) := by
  refine (@imports_iff_parentsFirst Core.sample importChain Settings.sample true .sampleStray
    (fun _ => rfl) importChain_valid _ (by decide +kernel)).mpr ?_
  unfold ParentsFirst SpendsFrom
  decide +kernel

omit [Core] in
/-- The block at height 2 comes in front of the one it spends from: its insert fails. -/
theorem childFirst_import : ValidChain importChain ∧
    (importOrder [0, 2, 1, 3]).Perm importChain.zipIdx ∧
      ¬ @Imports Core.sample Settings.sample true .sampleStray importChain
        (importOrder [0, 2, 1, 3]) := by
  refine ⟨importChain_valid, by decide +kernel, fun ⟨db, _, hi, _⟩ => ?_⟩
  have hnone : (@DataBase.applyAll Core.sample (@DataBase.start Core.sample Settings.sample true
      .sampleStray) ((importOrder [0, 2, 1, 3]).map fun o => .insert o.1 o.2)).isSome = false := by
    decide +kernel
  rw [hi] at hnone
  cases hnone

end Libbitcoin.Database
