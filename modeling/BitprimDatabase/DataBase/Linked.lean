/-
  File:      BitprimDatabase/DataBase/Linked.lean
  Subject:   THE INDEXED CHAIN IS ALWAYS LINKED, whatever block and transaction pushes and
             reorganizations answer and wherever they fail.

  * `CutAt` -- the block table cut off at a height: all that pops, successful or not, do to it;
  * `Linked` -- every height below the count has a block, its previous hash is the hash of the block
    below, and every slab ever stored is the child of a stored slab one height below;
  * `Linked.height_unique` -- so a hash has one height, by induction down to the first block: the
    slabs that left the chain do not mislead a lookup by hash;
  * **`chain_linked`**: in every state of a session, those inside a reorganization included.

  Assumed: a hash stands for one header, and no header has the null hash.
-/
import BitprimDatabase.DataBase.Reorganize

namespace Libbitcoin.Database

open Lib

/-! ## 1. What pops do to the block table -/

namespace BlockDatabase

/-- The table is the other one cut off at a count. -/
structure CutAt (db db' : BlockDatabase) (count : Nat) : Prop where
  count_eq : db'.count = count
  count_le : count ≤ db.count
  lookup_eq : db'.lookup = db.lookup
  index_eq : db'.index = db.index
  stray_eq : db'.stray = db.stray

theorem CutAt.refl (db : BlockDatabase) : CutAt db db db.count := ⟨rfl, Nat.le_refl _, rfl, rfl, rfl⟩

theorem CutAt.trans {a b c : BlockDatabase} {m n : Nat} (h : CutAt a b m) (h' : CutAt b c n) :
    CutAt a c n :=
  ⟨h'.1, Nat.le_trans (h.1 ▸ h'.2) h.2, h'.3.trans h.3, h'.4.trans h.4, h'.5.trans h.5⟩

theorem cutAt_unlink {db : BlockDatabase} {height : Nat} (h : height < db.count) :
    CutAt db (db.unlink height).1 height := by
  rw [unlink_of_lt h]
  exact ⟨rfl, Nat.le_of_lt h, rfl, rfl, rfl⟩

section Cut

variable {db db' : BlockDatabase} {count : Nat}

theorem CutAt.at_eq (h : CutAt db db' count) (k : Nat) :
    db'.at? k = if k < count then db.at? k else none := by
  have hle := h.count_le
  unfold at?
  rw [h.count_eq, h.lookup_eq, h.index_eq]
  by_cases hk : k < count
  · rw [if_pos hk, if_pos hk, if_pos (by omega)]
  · rw [if_neg hk, if_neg hk]

theorem CutAt.get_eq (h : CutAt db db' count) {k : Nat} (hk : k < count) : db'.get k = db.get k := by
  have hle := h.count_le
  rw [BlockDatabase.get_eq, BlockDatabase.get_eq, h.at_eq, h.count_eq, h.stray_eq, if_pos hk,
    if_pos hk, if_pos (by omega)]

theorem CutAt.slabs_eq (h : CutAt db db' count) : db'.slabs = db.slabs :=
  congrArg Table.stack h.lookup_eq

end Cut

end BlockDatabase

open BlockDatabase (CutAt)

namespace DataBase

variable [Core]

theorem popInputsFrom_blocks (height : Nat) (db : DataBase) (inputs : List Input) :
    (popInputsFrom height db inputs).1.blocks = db.blocks :=
  popInputsFrom_keeps DataBase.blocks height (fun _ _ => rfl)
    (fun db input => (popIndexes_spec db input).2.2.2.1) db inputs

/-- The loop of `pop`, whatever it answers, leaves the block table. -/
theorem popTransactions_blocks (height : Nat) (db : DataBase) (txs : List Transaction) :
    (popTransactions height db txs).1.blocks = db.blocks := by
  induction txs generalizing db with
  | nil => rfl
  | cons tx txs ih =>
      unfold popTransactions
      rcases db.transactions.unconfirm tx.hash with ⟨t, r⟩
      cases r with
      | false => rfl
      | true =>
          dsimp only
          have hout := (popOutputs_spec
            { db with
              transactions := t
              transactionsUnconfirmed := db.transactionsUnconfirmed.store tx } tx.outputs
                height).2.2.2.1
          split
          · exact (ih _).trans hout
          · unfold popInputs
            generalize popOutputs
              { db with
                transactions := t
                transactionsUnconfirmed := db.transactionsUnconfirmed.store tx }
              tx.outputs height = db₁ at hout ⊢
            have hin := popInputsFrom_blocks height db₁ tx.inputs.reverse
            rcases hp : popInputsFrom height db₁ tx.inputs.reverse with ⟨db₂, r⟩
            rw [hp] at hin
            cases r with
            | false => exact hin.trans hout
            | true => exact ((ih db₂).trans hin).trans hout

/-- **A pop** leaves the block table, or cuts the top block off and answers it. -/
theorem pop_cut (db : DataBase) :
    (db.pop.2 = none ∧ db.pop.1.blocks = db.blocks) ∨
      ∃ top out, db.pop.2 = some out ∧ db.blocks.count = top + 1 ∧
        CutAt db.blocks db.pop.1.blocks top ∧ db.IsBlockAt top out ∧
        ∀ hash, newestContent db.pop.1.transactions.slabs hash =
          newestContent db.transactions.slabs hash := by
  cases hp : db.pop.2 with
  | some out =>
      obtain ⟨top, txs, hto, hpd⟩ := (db.pop_spec out).2 hp
      have hcount := BlockDatabase.top_eq_some.mp hto.1
      refine .inr ⟨top, out, rfl, hcount, ?_, hto.isBlockAt, fun hash => ?_⟩
      · rw [hpd.blocks_eq]
        exact BlockDatabase.cutAt_unlink (by omega)
      · rw [hpd.slabs_eq, unwind_newestContent]
  | none =>
      refine .inl ⟨rfl, ?_⟩
      unfold pop at hp ⊢
      cases ht : db.blocks.top with
      | none => rfl
      | some height =>
          cases hg : db.blocks.get height with
          | none => simp only [hg]
          | some block =>
              cases hr : db.readBlock height block with
              | none => simp only [hg, hr]
              | some txs =>
                  have hblocks := popTransactions_blocks height db txs.reverse
                  simp only [ht, hg, hr] at hp ⊢
                  rcases hpt : popTransactions height db txs.reverse with ⟨db', r⟩
                  rw [hpt] at hblocks hp
                  cases r with
                  | false => exact hblocks
                  | true =>
                      have hcount := BlockDatabase.top_eq_some.mp ht
                      have hlt : height < db'.blocks.count := by
                        rw [show db'.blocks = db.blocks from hblocks]
                        omega
                      simp only [BlockDatabase.unlink_of_lt hlt] at hp
                      cases hp

/-- **The loop of `pop_above`**: some number of blocks is popped, and every shorter loop answers
    success. -/
theorem popBlocks_cut {n : Nat} {db : DataBase} (out : List Block) (hn : n ≤ db.blocks.count) :
    ∃ k ≤ n, CutAt db.blocks (popBlocks n db out).1.blocks (db.blocks.count - k) ∧
      (∀ m ≤ n, (popBlocks m db out).2.2 = some .success ↔ m ≤ k) ∧
      ∃ popped, (popBlocks n db out).2.1 = popped ++ out ∧
        List.Forall₂ db.IsBlockAt (List.range' (db.blocks.count - k) k) popped := by
  induction n generalizing db out with
  | zero =>
      refine ⟨0, Nat.le_refl 0, .refl _, fun m hm => ?_, [], rfl, .nil⟩
      cases Nat.le_zero.mp hm
      exact iff_of_true rfl hm
  | succ n ih =>
      -- a loop that ends at once, with its first pop
      have hends {db' : DataBase} {code : Option Code} (hblocks : db'.blocks = db.blocks)
          (hcode : code ≠ some .success) (hloop : ∀ m, popBlocks (m + 1) db out = (db', out, code)) :
          ∃ k ≤ n + 1, CutAt db.blocks (popBlocks (n + 1) db out).1.blocks (db.blocks.count - k) ∧
            (∀ m ≤ n + 1, (popBlocks m db out).2.2 = some .success ↔ m ≤ k) ∧
            ∃ popped, (popBlocks (n + 1) db out).2.1 = popped ++ out ∧
              List.Forall₂ db.IsBlockAt (List.range' (db.blocks.count - k) k) popped := by
        refine ⟨0, Nat.zero_le _, ?_, fun m _ => ?_, [], by rw [hloop]; rfl, .nil⟩
        · rw [hloop, hblocks]
          exact .refl _
        · cases m with
          | zero => exact iff_of_true rfl (Nat.le_refl 0)
          | succ m =>
              rw [hloop]
              exact iff_of_false hcode (Nat.not_succ_le_zero m)
      by_cases hthrows : db.popThrows = true
      · exact @hends db none rfl (by decide) fun m => by rw [popBlocks, if_pos hthrows]
      rcases db.pop_cut with ⟨hnone, hblocks⟩ | ⟨top, b, hsome, hcount, hcut, hat, hcontents⟩
      · rcases hpop : db.pop with ⟨db', r⟩
        rw [hpop] at hnone hblocks
        cases hnone
        exact @hends db' (some .operationFailed) hblocks (by decide) fun m => by
          rw [popBlocks, if_neg hthrows, hpop]
      · rcases hpop : db.pop with ⟨db', r⟩
        rw [hpop] at hsome hcut hcontents
        cases hsome
        have hnext (m : Nat) : popBlocks (m + 1) db out = popBlocks m db' (b :: out) := by
          rw [popBlocks, if_neg hthrows, hpop]
        have hcount' : db'.blocks.count = top := hcut.count_eq
        obtain ⟨k, hk, hcut', hcode, popped, hout, hall⟩ := @ih db' (b :: out) (by omega)
        rw [hcount'] at hcut' hall
        have he : db.blocks.count - (k + 1) = top - k := by omega
        refine ⟨k + 1, Nat.succ_le_succ hk, ?_, fun m hm => ?_, popped ++ [b], ?_, ?_⟩
        · rw [hnext, he]
          exact hcut.trans hcut'
        · cases m with
          | zero => exact iff_of_true rfl (Nat.zero_le _)
          | succ m =>
              rw [hnext, hcode m (Nat.le_of_succ_le_succ hm)]
              exact ⟨Nat.succ_le_succ, Nat.le_of_succ_le_succ⟩
        · rw [hnext, List.append_assoc]
          exact hout
        · rw [he, List.range'_1_concat]
          refine List.rel_append ?_ (.cons ?_ .nil)
          · have hbelow : ∀ j ∈ List.range' (top - k) k, j < top := fun j hj => by
              have := List.mem_range'_1.mp hj
              omega
            exact ((List.forall₂_and_left _ _).mpr ⟨hbelow, hall⟩).imp fun j b' h =>
              h.2.of_below (hcut.get_eq h.1) hcontents
          · rw [show top - k + k = top by omega]
            exact hat

/-- **`pop_above`**, whatever it answers, cuts the block table off above a block. -/
theorem popAbove_cut (db : DataBase) (forkHash : HashDigest) :
    ∃ count, CutAt db.blocks (db.popAbove forkHash).1.blocks count ∧
      (0 < db.blocks.count → 0 < count) := by
  rw [popAbove_eq]
  have hsame : ∃ count, CutAt db.blocks db.blocks count ∧ (0 < db.blocks.count → 0 < count) :=
    ⟨_, .refl _, id⟩
  cases db.forkOf forkHash with
  | none => exact hsame
  | some fork =>
      dsimp only
      split
      · exact hsame
      · split
        · exact hsame
        · obtain ⟨k, hk, hcut, _⟩ := @popBlocks_cut _ (db.blocks.count - 1 - fork) db [] (by omega)
          exact ⟨_, hcut, fun _ => by omega⟩

end DataBase

/-! ## 2. The invariant -/

/-- The header is the one its hash stands for, and the hash is not the null hash. -/
def Block.HeaderGenuine (headerOf : HashDigest → Header) (b : Block) : Prop :=
  b.header = headerOf b.header.hash ∧ b.header.hash ≠ nullHash

/-- The header's parent is one below: the null hash for a first block, else a stored slab. -/
def ParentBelow (s : Stacks HashDigest BlockSlab) (slab : BlockSlab) : Prop :=
  match slab.height with
  | 0 => slab.header.previousBlockHash = nullHash
  | height + 1 => ∃ below ∈ s slab.header.previousBlockHash, below.height = height

/-- **The invariant of the block table.** -/
structure Linked (headerOf : HashDigest → Header) (db : BlockDatabase) : Prop where
  placed : ∀ height < db.count, ∃ r, db.at? height = some r ∧ r.slab.height = height ∧
    r.slab ∈ db.slabs r.hash
  first : ∀ r, db.at? 0 = some r → r.slab.header.previousBlockHash = nullHash
  linked : ∀ height r r', db.at? height = some r → db.at? (height + 1) = some r' →
    r'.slab.header.previousBlockHash = r.hash
  slabs : ∀ hash, ∀ slab ∈ db.slabs hash, hash ≠ nullHash ∧ slab.header = headerOf hash ∧
    ParentBelow db.slabs slab

section Invariant

variable {headerOf : HashDigest → Header} {db db' : BlockDatabase}

/-- **A hash has one height**, in the blocks that left the chain as well. -/
theorem Linked.height_unique (h : Linked headerOf db) {hash : HashDigest} {a b : BlockSlab}
    (ha : a ∈ db.slabs hash) (hb : b ∈ db.slabs hash) : a.height = b.height := by
  generalize hk : a.height = k
  induction k generalizing hash a b with
  | zero =>
      obtain ⟨_, hah, hap⟩ := h.slabs hash a ha
      obtain ⟨_, hbh, hbp⟩ := h.slabs hash b hb
      unfold ParentBelow at hap hbp
      rw [hk] at hap
      cases hj : b.height with
      | zero => rfl
      | succ j =>
          -- the null hash would be a stored one
          rw [hj] at hbp
          obtain ⟨below, hbelow, _⟩ := hbp
          rw [hbh, ← hah, hap] at hbelow
          exact absurd rfl (h.slabs _ below hbelow).1
  | succ k ih =>
      obtain ⟨_, hah, hap⟩ := h.slabs hash a ha
      obtain ⟨_, hbh, hbp⟩ := h.slabs hash b hb
      unfold ParentBelow at hap hbp
      rw [hk] at hap
      obtain ⟨below, hbelow, hbk⟩ := hap
      cases hj : b.height with
      | zero =>
          rw [hj] at hbp
          rw [hah, ← hbh, hbp] at hbelow
          exact absurd rfl (h.slabs _ below hbelow).1
      | succ j =>
          rw [hj] at hbp
          obtain ⟨below', hbelow', hbj⟩ := hbp
          rw [hah, ← hbh] at hbelow
          rw [ih hbelow hbelow' hbk, hbj]

theorem Linked.cut (h : Linked headerOf db) {count : Nat} (hc : CutAt db db' count) :
    Linked headerOf db' where
  placed height hlt := by
    rw [hc.count_eq] at hlt
    obtain ⟨r, hr, hh, hm⟩ := h.placed height (Nat.lt_of_lt_of_le hlt hc.count_le)
    exact ⟨r, by rw [hc.at_eq, if_pos hlt, hr], hh, by rw [hc.slabs_eq]; exact hm⟩
  first r hr := by
    rw [hc.at_eq] at hr
    split at hr
    · exact h.first r hr
    · cases hr
  linked height r r' hr hr' := by
    rw [hc.at_eq] at hr hr'
    split at hr'
    · split at hr
      · exact h.linked height r r' hr hr'
      · cases hr
    · cases hr'
  slabs := by
    rw [hc.slabs_eq]
    exact h.slabs

theorem ParentBelow.push {s : Stacks HashDigest BlockSlab} {slab : BlockSlab}
    (h : ParentBelow s slab) (hash : HashDigest) (new : BlockSlab) :
    ParentBelow (s.push hash new) slab := by
  unfold ParentBelow at h ⊢
  cases hk : slab.height with
  | zero =>
      rw [hk] at h
      exact h
  | succ k =>
      rw [hk] at h
      obtain ⟨below, hm, hb⟩ := h
      exact ⟨below, Stacks.mem_push hm, hb⟩

/-- **A block on top** whose previous hash is that of the block below. -/
theorem Linked.store (h : Linked headerOf db) {b : Block} (hb : b.HeaderGenuine headerOf)
    {height : Nat} (hlt : height < maxUint32) (hcount : db.count = height)
    (hprev : b.header.previousBlockHash = DataBase.getPreviousHash db height) :
    Linked headerOf (db.store b height) := by
  have hu : u32 height = height := u32_of_lt hlt
  -- the block below, where there is one
  have hbelow : ∀ k, height = k + 1 → ∃ r, db.at? k = some r ∧ r.slab.height = k ∧
      r.slab ∈ db.slabs r.hash ∧ b.header.previousBlockHash = r.hash := by
    rintro k rfl
    obtain ⟨r, hr, hk, hm⟩ := h.placed k (by omega)
    refine ⟨r, hr, hk, hm, ?_⟩
    rw [hprev, DataBase.getPreviousHash, if_neg (Nat.succ_ne_zero k), Nat.add_sub_cancel,
      BlockDatabase.get_of_at hr]
    rfl
  refine ⟨fun k hk => ?_, fun r hr => ?_, fun k r r' hr hr' => ?_, fun hash slab hm => ?_⟩
  · rw [BlockDatabase.store_count db b hlt] at hk
    rw [BlockDatabase.store_at db b hlt, BlockDatabase.store_slabs]
    by_cases hkh : k = height
    · rw [if_pos hkh]
      refine ⟨_, rfl, ?_, ?_⟩
      · show u32 height = k
        rw [hu, hkh]
      · show _ ∈ Stacks.push _ _ _ _
        rw [Stacks.push_same]
        exact List.mem_cons_self
    · rw [if_neg hkh]
      obtain ⟨r, hr, hh, hm⟩ := h.placed k (by omega)
      exact ⟨r, hr, hh, Stacks.mem_push hm⟩
  · rw [BlockDatabase.store_at db b hlt] at hr
    split at hr
    · rename_i h0
      cases hr
      rw [← h0] at hprev
      exact hprev
    · exact h.first r hr
  · rw [BlockDatabase.store_at db b hlt] at hr hr'
    have hlt' : k < height := by
      split at hr'
      · omega
      · have := BlockDatabase.at_lt hr'
        omega
    rw [if_neg (by omega)] at hr
    split at hr'
    · rename_i hk
      cases hr'
      obtain ⟨r₀, hr₀, _, _, hp⟩ := hbelow k hk.symm
      cases hr.symm.trans hr₀
      exact hp
    · exact h.linked k r r' hr hr'
  · rw [BlockDatabase.store_slabs] at hm ⊢
    rcases Stacks.mem_of_mem_push hm with ⟨rfl, rfl⟩ | hm
    · refine ⟨hb.2, hb.1, ?_⟩
      refine ParentBelow.push ?_ _ _
      unfold ParentBelow
      show match u32 height with
        | 0 => b.header.previousBlockHash = nullHash
        | height + 1 => ∃ below ∈ db.slabs b.header.previousBlockHash, below.height = height
      rw [hu]
      cases height with
      | zero => exact hprev
      | succ k =>
          obtain ⟨r, _, hk, hm, hp⟩ := hbelow k rfl
          exact ⟨r.slab, hp ▸ hm, hk⟩
    · obtain ⟨h₁, h₂, h₃⟩ := h.slabs hash slab hm
      exact ⟨h₁, h₂, h₃.push _ _⟩

/-- A block that passes the check keeps the chain linked. -/
theorem Linked.push {db : DataBase} (h : Linked headerOf db.blocks) {b : Block}
    (hb : b.HeaderGenuine headerOf) {height : Nat} (hlt : height < maxUint32)
    (hv : db.verifyPush b height = .success) : Linked headerOf (db.blocks.store b height) := by
  obtain ⟨_, hcount, hprev⟩ := DataBase.verifyPush_success hv
  exact h.store hb hlt hcount hprev

end Invariant

/-! ## 3. Sessions -/

/-- The writers that keep the order of the chain; a reorganization with a schedule of its tasks, to
    their end or not. -/
inductive OrderedOp where
  | push (b : Block) (height : Nat)
  | pushTransaction (tx : Transaction) (forks : Nat)
  | reorganize (r : Reorganization) (schedule : List Nat)

/-- What a session assumes of an operation: a hash stands for one header, and a block is stored
    below the height the index asserts. -/
def OrderedOp.Proper (headerOf : HashDigest → Header) : OrderedOp → Prop
  | .push b height => b.HeaderGenuine headerOf ∧ height < maxUint32
  | .pushTransaction _ _ => True
  | .reorganize r _ => ∀ i b, r.incoming[i]? = some b →
      b.HeaderGenuine headerOf ∧ r.forkPoint.height + 1 + i < maxUint32

/-- **The chain by height and by hash**: no gap, a first block without a parent, every other block
    on the one below it, and every block found by its hash at its height. -/
structure ChainLinked (db : BlockDatabase) : Prop where
  gaps : db.gaps = []
  first : ∃ r, db.get 0 = some r ∧ r.header.previousBlockHash = nullHash
  linked : ∀ height, height + 1 < db.count → ∃ r r', db.get height = some r ∧
    db.get (height + 1) = some r' ∧ r'.header.previousBlockHash = r.header.hash
  found : ∀ height < db.count, ∃ r result, db.get height = some r ∧
    db.getByHash r.header.hash = some result ∧ result.height = height

/-- What the invariant says of the chain. -/
theorem Linked.chainLinked {headerOf : HashDigest → Header} {db : BlockDatabase}
    (h : Linked headerOf db) (hpos : 0 < db.count) : ChainLinked db where
  gaps := by
    refine BlockDatabase.gaps_eq_nil fun k hk => ?_
    obtain ⟨r, hr, _⟩ := h.placed k hk
    unfold BlockDatabase.at? at hr
    rw [if_pos hk] at hr
    have hne : db.index k ≠ emptyPosition := by
      intro he
      rw [he, db.row_empty] at hr
      cases hr
    unfold BlockDatabase.exists?
    simp [hk, hne]
  first := by
    obtain ⟨r, hr, _⟩ := h.placed 0 hpos
    exact ⟨r, BlockDatabase.get_of_at hr, h.first r hr⟩
  linked height hlt := by
    obtain ⟨r, hr, _⟩ := h.placed height (by omega)
    obtain ⟨r', hr', _⟩ := h.placed (height + 1) hlt
    exact ⟨r, r', BlockDatabase.get_of_at hr, BlockDatabase.get_of_at hr',
      h.linked height r r' hr hr'⟩
  found height hlt := by
    obtain ⟨r, hr, hh, hm⟩ := h.placed height hlt
    have hhead : ∃ slab, (db.slabs r.hash).head? = some slab := by
      cases hs : db.slabs r.hash with
      | nil =>
          rw [hs] at hm
          cases hm
      | cons slab rest => exact ⟨slab, rfl⟩
    obtain ⟨slab, hs⟩ := hhead
    refine ⟨r, ⟨r.hash, slab⟩, BlockDatabase.get_of_at hr, ?_, ?_⟩
    · rw [show r.header.hash = r.hash from rfl, BlockDatabase.getByHash_eq, hs]
      rfl
    · exact (h.height_unique (List.mem_of_mem_head? hs) hm).trans hh

namespace DataBase

variable [Core]

/-- The state after an operation, whatever it answers; within a reorganization after the steps of
    the schedule. -/
def orderedStep (db : DataBase) : OrderedOp → DataBase
  | .push b height => (db.push b height).1
  | .pushTransaction tx forks => (db.pushUnconfirmed tx forks).1
  | .reorganize r schedule => (r.after db schedule).db

section Session

variable {headerOf : HashDigest → Header} {db : DataBase}

theorem push_linked (h : Linked headerOf db.blocks) {b : Block} (hb : b.HeaderGenuine headerOf)
    {height : Nat} (hlt : height < maxUint32) :
    Linked headerOf (db.push b height).1.blocks ∧
      db.blocks.count ≤ (db.push b height).1.blocks.count := by
  rcases db.push_cases b height with ⟨_, hblocks⟩ | ⟨hv, _, hw⟩
  · rw [hblocks]
    exact ⟨h, Nat.le_refl _⟩
  · rw [hw.blocks_eq]
    refine ⟨h.push hb hlt hv, ?_⟩
    rw [BlockDatabase.store_count db.blocks b hlt]
    exact Nat.le_max_left ..

theorem pushUnconfirmed_blocks (tx : Transaction) (forks : Nat) :
    (db.pushUnconfirmed tx forks).1.blocks = db.blocks := by
  unfold pushUnconfirmed
  cases db.verifyPushTransaction tx with
  | success =>
      rcases db.store.beginWrite with ⟨s, r⟩
      cases r <;> rfl
  | _ => rfl

omit [Core] in
/-- What is known before the incoming block at an index is pushed. -/
def LinkedSoFar (headerOf : HashDigest → Header) (r : Reorganization) (index height : Nat)
    (blocks : BlockDatabase) : Prop :=
  height = r.forkPoint.height + 1 + index ∧ Linked headerOf blocks ∧ 0 < blocks.count

/-- **A reorganization**, at every step of its tasks and wherever it fails. -/
theorem reorganize_linked (h : Linked headerOf db.blocks) {r : Reorganization} {schedule : List Nat}
    (hr : OrderedOp.Proper headerOf (.reorganize r schedule)) (hpos : 0 < db.blocks.count) :
    Linked headerOf (r.after db schedule).db.blocks ∧ 0 < (r.after db schedule).db.blocks.count := by
  obtain ⟨count, hcut, hcount⟩ := popAbove_cut (Reorganization.begun db) r.forkPoint.hash
  have hpopped : Linked headerOf ((Reorganization.begun db).popAbove r.forkPoint.hash).1.blocks ∧
      0 < ((Reorganization.begun db).popAbove r.forkPoint.hash).1.blocks.count :=
    ⟨h.cut hcut, hcut.count_eq.symm ▸ hcount hpos⟩
  have hidle (hp : (r.reorganize db).pending = [])
      (hb : Linked headerOf (r.reorganize db).db.blocks ∧ 0 < (r.reorganize db).db.blocks.count) :
      Linked headerOf (r.after db schedule).db.blocks ∧
        0 < (r.after db schedule).db.blocks.count := by
    rw [Reorganization.after_of_idle hp]
    exact hb
  by_cases hheight : r.forkPoint.height < maxSize
  · have hcases := r.reorganize_cases (Q := LinkedSoFar headerOf r) db hheight
      fun _ => ⟨rfl, hpopped⟩
    rcases hcases with ⟨_, hc, _, hblocks⟩ | ⟨_, hcode⟩
    · exact hidle hc.pending (hblocks.symm ▸ ⟨h, hpos⟩)
    · split at hcode
      · exact hidle hcode.1 (hcode.2.2.symm ▸ hpopped)
      · have hcarried : r.Carried (LinkedSoFar headerOf r) := by
          intro index height block db' hb ⟨hh, hl, _⟩ hv
          obtain ⟨hg, hlt⟩ := hr index block hb
          rw [← hh] at hlt
          refine ⟨?_, hl.push hg hlt hv, ?_⟩
          · have hs : succSize height = height + 1 :=
              Nat.mod_eq_of_lt (by unfold maxSize; unfold maxUint32 at hlt; omega)
            rw [hs, hh]
            rfl
          · rw [BlockDatabase.store_count db'.blocks block hlt]
            omega
        cases hcode.after hcarried schedule with
        | pushing _ _ _ _ _ _ hQ => exact hQ.2
        | tasks _ _ _ _ _ _ _ _ _ _ hQ => exact hQ.2
        | completed _ _ _ _ _ hQ _ => exact hQ.2
      · exact hidle hcode.1.pending (hcode.2.2.symm ▸ hpopped)
  · have hstart : r.reorganize db = ⟨db, false, r.outgoing, [], [], []⟩ := by
      unfold Reorganization.reorganize
      rw [show safeAdd r.forkPoint.height 1 = none from if_pos (by omega)]
    exact hidle (by rw [hstart]) (by rw [hstart]; exact ⟨h, hpos⟩)

theorem orderedStep_linked (h : Linked headerOf db.blocks ∧ 0 < db.blocks.count) {op : OrderedOp}
    (hop : op.Proper headerOf) :
    Linked headerOf (db.orderedStep op).blocks ∧ 0 < (db.orderedStep op).blocks.count := by
  cases op with
  | push b height =>
      obtain ⟨hl, hle⟩ := push_linked h.1 hop.1 hop.2
      exact ⟨hl, Nat.lt_of_lt_of_le h.2 hle⟩
  | pushTransaction tx forks =>
      have hb : (db.pushUnconfirmed tx forks).1.blocks = db.blocks :=
        pushUnconfirmed_blocks tx forks
      unfold orderedStep
      rw [hb]
      exact h
  | reorganize r schedule => exact reorganize_linked h.1 hop h.2

theorem linked_start (settings : Settings) (flushes : Bool) (stray : BlockResult) :
    Linked headerOf (start settings flushes stray).blocks where
  placed _ hlt := absurd hlt (Nat.not_lt_zero _)
  first r hr := by cases hr
  linked _ r _ hr := by cases hr
  slabs hash slab hm := by
    rw [show (start settings flushes stray).blocks.slabs hash = [] from
      BlockDatabase.create_slabs ..] at hm
    cases hm

/-- **The indexed chain is always linked** in a data base that stored its first block, whatever
    pushes and reorganizations follow and wherever they fail. -/
theorem chain_linked {settings : Settings} {flushes : Bool} {stray : BlockResult} {genesis : Block}
    (hg : genesis.HeaderGenuine headerOf)
    (hstored : (create settings flushes stray genesis).blocks.exists? 0 = true)
    {ops : List OrderedOp} (hops : ∀ op ∈ ops, op.Proper headerOf) :
    ChainLinked (run orderedStep (create settings flushes stray genesis) ops).blocks := by
  have hcreate : Linked headerOf (create settings flushes stray genesis).blocks :=
    (push_linked (linked_start settings flushes stray) hg (by decide)).1
  have hpos : 0 < (create settings flushes stray genesis).blocks.count := by
    unfold BlockDatabase.exists? at hstored
    simp only [Bool.and_eq_true, decide_eq_true_eq] at hstored
    exact hstored.1
  have hstep (db : DataBase) (op : OrderedOp)
      (h : Linked headerOf db.blocks ∧ 0 < db.blocks.count) (hop : op.Proper headerOf) :
      Linked headerOf (db.orderedStep op).blocks ∧ 0 < (db.orderedStep op).blocks.count :=
    orderedStep_linked h hop
  obtain ⟨hl, hp⟩ := run_of_mem hstep hops ⟨hcreate, hpos⟩
  exact hl.chainLinked hp

/-- The headers of the examples: every block but the first one on the first one. -/
def sampleHeader (hash : HashDigest) : Header :=
  ⟨hash, 1, if hash = 1 then nullHash else 1, 0, 0, 0, 0⟩

omit [Core] in
/-- A block is pushed and replaced by another one. -/
theorem replaced_linked :
    ChainLinked (run (@orderedStep Core.sample) sample [.push spendingBlock 1,
      .reorganize ⟨⟨1, 0⟩, [.sample 3 1 [.sampleCoinbase 301 3]], [], 1, by decide⟩
        [0, 0, 0]]).blocks := by
  refine @chain_linked Core.sample sampleHeader Settings.sample true .sampleStray .sampleGenesis
    ⟨by decide, by decide⟩ (by decide +kernel) _ fun op hm => ?_
  rcases List.mem_cons.mp hm with rfl | hm
  · exact ⟨⟨by decide, by decide⟩, by decide⟩
  · cases List.mem_singleton.mp hm
    intro i b hb
    cases i with
    | zero =>
        cases hb
        exact ⟨⟨by decide, by decide⟩, by decide⟩
    | succ i => cases hb

end Session

end DataBase

end Libbitcoin.Database
