/-
  File:      BitprimDatabase/DataBase/PopAbove.lean
  Subject:   **WHEN `pop_above` ROLLS BACK TO ITS FORK POINT**: an error and no effect for a hash
             that is not on the chain, else exactly the blocks above it popped.

  * `Slot` -- the transaction hashes of the chain, by height and position;
  * `Poppable` -- what popping every block above a height needs, said of the tables before the
    first pop; `poppable_pop` takes one block off;
  * `popBlocks_throws_iff` -- where a pop of the loop throws: at a gap, once all above it is popped;
  * `rollsBack_iff`: the newest slab of the hash, not the chain, decides what is popped, so that
    the slab of a block that left the chain is taken for a fork point.
-/
import BitprimDatabase.DataBase.Retrievable

namespace Libbitcoin.Database

open Lib

variable [Core]

namespace DataBase

/-! ## 1. What popping down to a height needs -/

section Slots

omit [Core]

theorem forall₂_getElem? {A B : Type} {R : A → B → Prop} {l : List A} {l' : List B}
    (h : List.Forall₂ R l l') {i : Nat} {a : A} (hi : l[i]? = some a) :
    ∃ b, l'[i]? = some b ∧ R a b := by
  induction h generalizing i with
  | nil => cases hi
  | cons hab _ ih =>
      cases i with
      | zero =>
          cases hi
          exact ⟨_, rfl, hab⟩
      | succ i => exact ih hi

/-- The block at the height has the transaction hash at the position. -/
def Slot (db : DataBase) (height position : Nat) (hash : HashDigest) : Prop :=
  ∃ r, db.blocks.get height = some r ∧ r.slab.hashes[position]? = some hash

/-- The newest transaction of the hash spends the point. -/
def Spends (db : DataBase) (hash : HashDigest) (p : Point) : Prop :=
  ∃ slab, (db.transactions.slabs hash).head? = some slab ∧ p ∈ (slab.transaction hash).popPoints

/-- **The blocks above a height can be popped**: a vector of their transactions can be reserved,
    each of these is found confirmed where its block has it, what it spends is confirmed and has the
    output, and neither it nor a transaction behind it is spent by it. -/
structure Poppable [Core] (db : DataBase) (forkHeight : Nat) : Prop where
  reserves : ∀ height, forkHeight < height → height < db.blocks.count →
    db.blocks.reserves height = true
  found : ∀ height position hash, forkHeight < height → db.Slot height position hash →
    db.Found hash height position
  spendable : ∀ height position hash p, forkHeight < height → db.Slot height position hash →
    db.Spends hash p → Spendable db.transactions.slabs p notSpent
  earlier : ∀ height position hash height' position' hash' p, forkHeight < height →
    db.Slot height position hash → db.Slot height' position' hash' →
    height < height' ∨ height = height' ∧ position ≤ position' → db.Spends hash p → p.hash ≠ hash'

theorem Slot.lt {db : DataBase} {height position : Nat} {hash : HashDigest}
    (h : db.Slot height position hash) : height < db.blocks.count := by
  obtain ⟨r, hr, _⟩ := h
  by_contra hge
  rw [BlockDatabase.get_eq, if_neg hge] at hr
  cases hr

theorem Poppable.mono [Core] {db : DataBase} {f f' : Nat} (h : db.Poppable f) (hf : f ≤ f') :
    db.Poppable f' where
  reserves height hlt := h.reserves height (by omega)
  found height position hash hlt := h.found height position hash (by omega)
  spendable height position hash p hlt := h.spendable height position hash p (by omega)
  earlier height position hash height' position' hash' p hlt :=
    h.earlier height position hash height' position' hash' p (by omega)

theorem mem_zipIdx_hashes {r : BlockResult} {t : HashDigest × Nat} :
    t ∈ r.slab.hashes.zipIdx ↔ r.slab.hashes[t.2]? = some t.1 := List.mem_zipIdx_iff_getElem?

end Slots

/-! ## 2. One pop -/

/-- The heads a pop leaves: unconfirmed for the popped transactions, spender heights edited for
    the others. The blocks below the top stay. -/
structure Demoted (db : DataBase) (top : Nat) (db' : DataBase) : Prop where
  count_eq : db'.blocks.count = top
  reserves_eq : ∀ height, db'.blocks.reserves height = db.blocks.reserves height
  contents : ∀ hash,
    newestContent db'.transactions.slabs hash = newestContent db.transactions.slabs hash
  popped : ∀ position hash, db.Slot top position hash →
    ∃ slab, (db'.transactions.slabs hash).head? = some slab ∧ slab.position = unconfirmed
  kept : ∀ hash, (∀ position, ¬ db.Slot top position hash) → ∃ indexes,
    (db'.transactions.slabs hash).head? =
      (db.transactions.slabs hash).head?.map (TransactionSlab.spendAt indexes notSpent)
  slot : ∀ height position hash,
    db'.Slot height position hash ↔ height < top ∧ db.Slot height position hash

theorem Popped.demoted {db db' : DataBase} {top : Nat} {txs : List Transaction} {out : Block}
    (hp : db.PopsTo top txs out) (h : Popped db top txs db') : Demoted db top db' := by
  obtain ⟨ht, block, hg, _, hback, hu, _⟩ := hp
  have hcount := BlockDatabase.top_eq_some.mp ht
  have hslot (hash : HashDigest) :
      (∃ position, db.Slot top position hash) ↔ ∃ tx ∈ txs.reverse, tx.hash = hash := by
    constructor
    · intro ⟨position, r, hr, hi⟩
      cases hg.symm.trans hr
      obtain ⟨tx, htx, slab, _, _, _, _, he⟩ := forall₂_mem_right hback.flip (hash, position)
        (mem_zipIdx_hashes.mpr hi)
      exact ⟨tx, List.mem_reverse.mpr htx, congrArg Transaction.hash he⟩
    · intro ⟨tx, htx, he⟩
      obtain ⟨t, ht, slab, _, _, _, _, htx⟩ := forall₂_mem_right hback tx (List.mem_reverse.mp htx)
      have hte : t.1 = hash := (congrArg Transaction.hash htx).symm.trans he
      exact ⟨t.2, block, hg, hte ▸ mem_zipIdx_hashes.mp ht⟩
  refine ⟨?_, fun height => ?_, fun hash => ?_, fun position hash hs => ?_, fun hash hnot => ?_,
    fun height position hash => ?_⟩
  · rw [h.blocks_eq, BlockDatabase.unlink_of_lt (by omega)]
  · rw [h.blocks_eq, BlockDatabase.unlink_reserves]
  · rw [h.slabs_eq, unwind_newestContent]
  · have hmem := (hslot hash).mp ⟨position, hs⟩
    obtain ⟨tx, htx, rfl⟩ := hmem
    rw [h.slabs_eq]
    exact unwind_mem htx ((unwindable_iff.mp hu).1 tx (List.mem_reverse.mp htx))
  · have hnot' : ∀ tx ∈ txs.reverse, tx.hash ≠ hash := fun tx htx he => by
      obtain ⟨position, hs⟩ := (hslot hash).mpr ⟨tx, htx, he⟩
      exact hnot position hs
    refine ⟨indexesOf (txs.reverse.flatMap Transaction.popPoints) hash, ?_⟩
    rw [h.slabs_eq, unwind_notMem hnot', spendSlabs_head]
  · have hget : db'.blocks.get height = if height < top then db.blocks.get height else none := by
      rw [h.blocks_eq, BlockDatabase.unlink_get (by omega)]
    unfold Slot
    rw [hget]
    by_cases hlt : height < top
    · simp only [hlt, if_true, true_and]
    · simp [hlt]

section Heads

variable {db db' : DataBase} {top : Nat}

theorem Demoted.not_found (h : Demoted db top db') {position : Nat} {hash : HashDigest}
    (hs : db.Slot top position hash) (height' position' : Nat) :
    ¬ db'.Found hash height' position' := by
  intro hf
  obtain ⟨slab, hslab, hp⟩ := h.popped position hash hs
  obtain ⟨slab', hslab', _, hp', hne⟩ := found_iff.mp hf
  cases hslab.symm.trans hslab'
  exact hne (hp'.symm.trans hp)

theorem Demoted.not_spendable (h : Demoted db top db') {position : Nat} {p : Point}
    (hs : db.Slot top position p.hash) (height : Nat) :
    ¬ Spendable db'.transactions.slabs p height := by
  intro hsp
  obtain ⟨slab, hslab, hp⟩ := h.popped position p.hash hs
  obtain ⟨slab', hslab', _, hne, _⟩ := hsp
  cases hslab.symm.trans hslab'
  exact hne hp

theorem Demoted.found_iff (h : Demoted db top db') {hash : HashDigest}
    (hnot : ∀ position, ¬ db.Slot top position hash) (height position : Nat) :
    db'.Found hash height position ↔ db.Found hash height position := by
  obtain ⟨indexes, hk⟩ := h.kept hash hnot
  rw [DataBase.found_iff, DataBase.found_iff, hk]
  cases (db.transactions.slabs hash).head? with
  | none => simp
  | some slab =>
      simp only [Option.map_some, Option.some.injEq, exists_eq_left']
      exact Iff.rfl

theorem Demoted.spends_iff (h : Demoted db top db') {hash : HashDigest}
    (hnot : ∀ position, ¬ db.Slot top position hash) (p : Point) :
    db'.Spends hash p ↔ db.Spends hash p := by
  obtain ⟨indexes, hk⟩ := h.kept hash hnot
  unfold Spends
  rw [hk]
  cases (db.transactions.slabs hash).head? with
  | none => simp
  | some slab =>
      simp only [Option.map_some, Option.some.injEq, exists_eq_left']
      exact Iff.rfl

theorem Demoted.spendable_iff (h : Demoted db top db') {p : Point}
    (hnot : ∀ position, ¬ db.Slot top position p.hash) (height : Nat) :
    Spendable db'.transactions.slabs p height ↔ Spendable db.transactions.slabs p height := by
  obtain ⟨indexes, hk⟩ := h.kept p.hash hnot
  unfold Spendable
  rw [hk]
  cases (db.transactions.slabs p.hash).head? with
  | none => simp
  | some slab =>
      simp only [Option.map_some, Option.some.injEq, exists_eq_left', spendAt_length]
      exact Iff.rfl

end Heads

/-- **A pop succeeds exactly where its block can be popped.** -/
theorem pop_isSome_iff {db : DataBase} {f : Nat} (ht : db.blocks.top = some (f + 1)) :
    (∃ out, db.pop.2 = some out) ↔ db.Poppable f := by
  have hcount := BlockDatabase.top_eq_some.mp ht
  have htop {height position : Nat} {hash : HashDigest} (hlt : f < height)
      (hs : db.Slot height position hash) : height = f + 1 := by
    have := hs.lt
    omega
  constructor
  · intro ⟨out, hp⟩
    obtain ⟨height, txs, ht', block, hg, hres, hback, hu, _⟩ := (db.pop_spec out).1.mp hp
    cases ht.symm.trans ht'
    obtain ⟨_, hsp, hself, hpw⟩ := unwindable_iff.mp hu
    -- the transaction read back for a slot, at the position of the slot
    have hread : ∀ {position hash}, db.Slot (f + 1) position hash → ∃ tx,
        txs[position]? = some tx ∧ db.ReadBack (f + 1) (hash, position) tx ∧ tx.hash = hash := by
      intro position hash ⟨r, hr, hi⟩
      cases hg.symm.trans hr
      obtain ⟨tx, hi', hrb⟩ := @forall₂_getElem? _ _ _ _ _ hback position (hash, position)
        (by rw [List.getElem?_zipIdx, hi]; simp)
      have hrb' := hrb
      obtain ⟨_, _, _, _, _, he⟩ := hrb'
      exact ⟨tx, hi', hrb, congrArg Transaction.hash he⟩
    have hsame : ∀ {position hash tx p}, db.ReadBack (f + 1) (hash, position) tx →
        db.Spends hash p → p ∈ tx.popPoints := by
      intro position hash tx p ⟨slab, hs, _, _, _, he⟩ ⟨slab', hs', hp⟩
      cases hs.symm.trans hs'
      exact he ▸ hp
    refine ⟨fun height hlt hle => ?_, fun height position hash hlt hs => ?_,
      fun height position hash p hlt hs hspend => ?_,
      fun height position hash height' position' hash' p hlt hs hs' hle hspend => ?_⟩
    · cases (show height = f + 1 by omega)
      exact hres
    · cases htop hlt hs
      obtain ⟨tx, _, ⟨slab, hslab, hh, hpos, hne, _⟩, _⟩ := hread hs
      exact found_iff.mpr ⟨slab, hslab, hh, hpos, hne⟩
    · cases htop hlt hs
      obtain ⟨tx, hi, hrb, _⟩ := hread hs
      exact hsp tx (List.mem_of_getElem? hi) p (hsame hrb hspend)
    · cases htop hlt hs
      cases htop (by omega) hs'
      obtain ⟨tx, hi, hrb, _⟩ := hread hs
      obtain ⟨tx', hi', _, rfl⟩ := hread hs'
      have hno : NoSpendOf tx tx' := by
        rcases Nat.lt_or_eq_of_le (show position ≤ position' by omega) with hlt' | rfl
        · obtain ⟨hb, rfl⟩ := List.getElem?_eq_some_iff.mp hi
          obtain ⟨hb', rfl⟩ := List.getElem?_eq_some_iff.mp hi'
          exact List.pairwise_iff_getElem.mp hpw position position' hb hb' hlt'
        · cases hi.symm.trans hi'
          exact hself tx (List.mem_of_getElem? hi)
      exact hno p (hsame hrb hspend)
  · intro h
    have hg : ∃ block, db.blocks.get (f + 1) = some block := by
      rw [BlockDatabase.get_eq, if_pos (by omega)]
      exact ⟨_, rfl⟩
    obtain ⟨block, hg⟩ := hg
    have hslot {t : HashDigest × Nat} (hm : t ∈ block.slab.hashes.zipIdx) :
        db.Slot (f + 1) t.2 t.1 := ⟨block, hg, mem_zipIdx_hashes.mp hm⟩
    have hread : ∀ t ∈ block.slab.hashes.zipIdx, ∃ tx, t ∈ block.slab.hashes.zipIdx ∧
        db.ReadBack (f + 1) t tx := by
      intro t hm
      obtain ⟨slab, hs, hh, hpos, hne⟩ :=
        DataBase.found_iff.mp (h.found _ _ _ (Nat.lt_succ_self f) (hslot hm))
      exact ⟨_, hm, slab, hs, hh, hpos, hne, rfl⟩
    obtain ⟨txs, hall⟩ := exists_forall₂ hread
    have hspends {t : HashDigest × Nat} {tx : Transaction} (hrb : db.ReadBack (f + 1) t tx)
        {p : Point} (hp : p ∈ tx.popPoints) : db.Spends t.1 p := by
      obtain ⟨slab, hs, _, _, _, he⟩ := hrb
      exact ⟨slab, hs, he ▸ hp⟩
    have hno : ∀ {t u : HashDigest × Nat} {tx v : Transaction},
        t ∈ block.slab.hashes.zipIdx ∧ db.ReadBack (f + 1) t tx →
        u ∈ block.slab.hashes.zipIdx ∧ db.ReadBack (f + 1) u v → t.2 ≤ u.2 → NoSpendOf tx v := by
      intro t u tx v ht hu hle p hp
      obtain ⟨_, _, _, _, _, he⟩ := hu.2
      rw [he]
      exact h.earlier _ _ _ _ _ _ p (Nat.lt_succ_self f) (hslot ht.1) (hslot hu.1)
        (.inr ⟨rfl, hle⟩) (hspends ht.2 hp)
    have hu : Unwindable db.transactions.slabs txs.reverse := by
      refine unwindable_iff.mpr ⟨fun tx htx => ?_, fun tx htx p hp => ?_, fun tx htx => ?_,
        pairwise_of_forall₂ hall (zipIdx_pairwise _ 0)
          fun _ _ _ _ ht hu hlt => hno ht hu (Nat.le_of_lt hlt)⟩
      · obtain ⟨t, _, _, slab, hs, _, _, _, he⟩ := forall₂_mem_right hall tx htx
        rw [he]
        intro hnil
        rw [show (slab.transaction t.1).hash = t.1 from rfl] at hnil
        rw [hnil] at hs
        cases hs
      · obtain ⟨t, _, hm, hrb⟩ := forall₂_mem_right hall tx htx
        exact h.spendable _ _ _ p (Nat.lt_succ_self f) (hslot hm) (hspends hrb hp)
      · obtain ⟨t, _, ht⟩ := forall₂_mem_right hall tx htx
        exact hno ht ht (Nat.le_refl _)
    exact ⟨_, (db.pop_spec ⟨block.header, txs⟩).1.mpr
      ⟨f + 1, txs, ht, block, hg, h.reserves _ (Nat.lt_succ_self f) (by omega),
        hall.imp fun _ _ h => h.2, hu, rfl⟩⟩

/-- **The step**: once a block is popped, what popping the rest needs is what it needed before. -/
theorem poppable_pop {db db' : DataBase} {top f : Nat} (h : Demoted db (top + 1) db')
    (hcount : db.blocks.count = top + 2) (hp : db.Poppable top) (hf : f ≤ top) :
    db.Poppable f ↔ db'.Poppable f := by
  have hcase {height position : Nat} {hash : HashDigest} (hs : db.Slot height position hash) :
      height = top + 1 ∨ height < top + 1 := by
    have := hs.lt
    omega
  constructor
  · intro hall
    -- a hash found below the top is not in the top block
    have hnot {height position : Nat} {hash : HashDigest} (hlt : f < height)
        (hb : height < top + 1) (hs : db.Slot height position hash) :
        ∀ position', ¬ db.Slot (top + 1) position' hash := by
      intro position' hs'
      obtain ⟨slab, hslab, hh, _⟩ := found_iff.mp (hall.found _ _ _ hlt hs)
      obtain ⟨slab', hslab', hh', _⟩ := found_iff.mp (hall.found _ _ _ (by omega) hs')
      cases hslab.symm.trans hslab'
      omega
    refine ⟨fun height hlt hb => ?_, fun height position hash hlt hs => ?_,
      fun height position hash p hlt hs hspend => ?_,
      fun height position hash height' position' hash' p hlt hs hs' hle hspend => ?_⟩
    · rw [h.reserves_eq]
      exact hall.reserves height hlt (by rw [h.count_eq] at hb; omega)
    · obtain ⟨hb, hs⟩ := (h.slot ..).mp hs
      exact (h.found_iff (hnot hlt hb hs) _ _).mpr (hall.found _ _ _ hlt hs)
    · obtain ⟨hb, hs⟩ := (h.slot ..).mp hs
      have hspend := (h.spends_iff (hnot hlt hb hs) p).mp hspend
      refine (h.spendable_iff (fun position' hs' => ?_) _).mpr
        (hall.spendable _ _ _ p hlt hs hspend)
      exact hall.earlier _ _ _ _ _ _ p hlt hs hs' (.inl hb) hspend rfl
    · obtain ⟨hb, hs⟩ := (h.slot ..).mp hs
      obtain ⟨_, hs'⟩ := (h.slot ..).mp hs'
      exact hall.earlier _ _ _ _ _ _ p hlt hs hs' hle ((h.spends_iff (hnot hlt hb hs) p).mp hspend)
  · intro hall
    have hnot {height position : Nat} {hash : HashDigest} (hlt : f < height)
        (hb : height < top + 1) (hs : db.Slot height position hash) :
        ∀ position', ¬ db.Slot (top + 1) position' hash := fun position' hs' =>
      h.not_found hs' height position (hall.found _ _ _ hlt ((h.slot ..).mpr ⟨hb, hs⟩))
    have hspendable {height position : Nat} {hash : HashDigest} {p : Point} (hlt : f < height)
        (hb : height < top + 1) (hs : db.Slot height position hash) (hspend : db.Spends hash p) :
        Spendable db'.transactions.slabs p notSpent :=
      hall.spendable _ _ _ p hlt ((h.slot ..).mpr ⟨hb, hs⟩)
        ((h.spends_iff (hnot hlt hb hs) p).mpr hspend)
    refine ⟨fun height hlt hb => ?_, fun height position hash hlt hs => ?_,
      fun height position hash p hlt hs hspend => ?_,
      fun height position hash height' position' hash' p hlt hs hs' hle hspend => ?_⟩
    · rcases Nat.lt_or_eq_of_le (show height ≤ top + 1 by omega) with hb | rfl
      · rw [← h.reserves_eq]
        exact hall.reserves height hlt (by rw [h.count_eq]; exact hb)
      · exact hp.reserves _ (Nat.lt_succ_self top) (by omega)
    · rcases hcase hs with rfl | hb
      · exact hp.found _ _ _ (Nat.lt_succ_self top) hs
      · exact (h.found_iff (hnot hlt hb hs) _ _).mp
          (hall.found _ _ _ hlt ((h.slot ..).mpr ⟨hb, hs⟩))
    · rcases hcase hs with rfl | hb
      · exact hp.spendable _ _ _ p (Nat.lt_succ_self top) hs hspend
      · have hsp := hspendable hlt hb hs hspend
        exact (h.spendable_iff (fun _ hs' => h.not_spendable hs' _ hsp) _).mp hsp
    · rcases hcase hs with rfl | hb
      · exact hp.earlier _ _ _ _ _ _ p (Nat.lt_succ_self top) hs hs' hle hspend
      · rcases hcase hs' with rfl | hb'
        · intro he
          exact h.not_spendable (he ▸ hs') _ (hspendable hlt hb hs hspend)
        · exact hall.earlier _ _ _ _ _ _ p hlt ((h.slot ..).mpr ⟨hb, hs⟩)
            ((h.slot ..).mpr ⟨hb', hs'⟩) hle ((h.spends_iff (hnot hlt hb hs) p).mpr hspend)

/-! ## 3. The loop -/

omit [Core] in
/-- The block is the one at the height, its transactions with the contents of the table. -/
def IsBlockAt (db : DataBase) (height : Nat) (b : Block) : Prop :=
  ∃ r, db.blocks.get height = some r ∧ b.header = r.header ∧ b.hashes = r.slab.hashes ∧
    ∀ tx ∈ b.transactions, newestContent db.transactions.slabs tx.hash = some tx.content

omit [Core] in
/-- What is read back has the content of its slab. -/
theorem ReadBack.newestContent {db : DataBase} {height : Nat} {t : HashDigest × Nat}
    {tx : Transaction} (h : db.ReadBack height t tx) :
    newestContent db.transactions.slabs tx.hash = some tx.content := by
  obtain ⟨slab, hs, _, _, _, rfl⟩ := h
  unfold Database.newestContent
  rw [show (slab.transaction t.1).hash = t.1 from rfl, hs]
  rfl

theorem PopsTo.isBlockAt {db : DataBase} {top : Nat} {txs : List Transaction} {out : Block}
    (h : db.PopsTo top txs out) : db.IsBlockAt top out := by
  obtain ⟨_, block, hg, _, hback, _, rfl⟩ := h
  refine ⟨block, hg, rfl, ?_, fun tx htx => ?_⟩
  · have : List.Forall₂ (fun t tx => t.1 = tx.hash) block.slab.hashes.zipIdx txs :=
      hback.imp fun t tx ⟨_, _, _, _, _, he⟩ => (congrArg Transaction.hash he).symm
    have hmap : block.slab.hashes.zipIdx.map Prod.fst = txs.map Transaction.hash := by
      rw [← List.forall₂_eq_eq_eq, List.forall₂_map_left_iff, List.forall₂_map_right_iff]
      exact this
    rw [List.zipIdx_map_fst] at hmap
    exact hmap.symm
  · obtain ⟨_, _, hread⟩ := forall₂_mem_right hback tx htx
    exact hread.newestContent

omit [Core] in
/-- A block below the top is the one it was before the pop. -/
theorem IsBlockAt.of_below {db db' : DataBase} {height : Nat} {b : Block}
    (h : db'.IsBlockAt height b) (hget : db'.blocks.get height = db.blocks.get height)
    (hcontents : ∀ hash, newestContent db'.transactions.slabs hash =
      newestContent db.transactions.slabs hash) : db.IsBlockAt height b := by
  obtain ⟨r, hr, hheader, hhashes, htx⟩ := h
  exact ⟨r, hget ▸ hr, hheader, hhashes, fun tx hm => hcontents tx.hash ▸ htx tx hm⟩

/-- **One pop of the loop**: the block on top is taken off. -/
structure TakesOff (db : DataBase) (top : Nat) (b : Block) (db' : DataBase) : Prop where
  pop_eq : db.pop = (db', some b)
  poppable : db.Poppable top
  demoted : Demoted db (top + 1) db'
  get_eq : ∀ k ≤ top, db'.blocks.get k = db.blocks.get k
  isBlockAt : db.IsBlockAt (top + 1) b

theorem popThrows_eq {db : DataBase} {top : Nat} (ht : db.blocks.top = some top) :
    db.popThrows = !db.blocks.reserves top := by
  unfold popThrows
  rw [ht]

/-- **What the loop comes to** with a block to pop: the throw at a gap, a pop that fails, or the
    loop over the rest. -/
theorem popBlocks_cases {db : DataBase} {top : Nat} (hcount : db.blocks.count = top + 2) :
    (db.blocks.reserves (top + 1) = false ∧ ∀ n out, popBlocks (n + 1) db out = (db, out, none)) ∨
      (db.blocks.reserves (top + 1) = true ∧ ¬ db.Poppable top ∧ db.pop.2 = none ∧
        ∀ n out, popBlocks (n + 1) db out = (db.pop.1, out, some .operationFailed)) ∨
      ∃ b db', TakesOff db top b db' ∧
        ∀ n out, popBlocks (n + 1) db out = popBlocks n db' (b :: out) := by
  have ht : db.blocks.top = some (top + 1) := BlockDatabase.top_eq_some.mpr hcount
  have hiff := pop_isSome_iff ht
  have hthrows := popThrows_eq ht
  cases hres : db.blocks.reserves (top + 1) with
  | false =>
      have hthrows : db.popThrows = true := by rw [hthrows, hres, Bool.not_false]
      exact .inl ⟨rfl, fun n out => by rw [popBlocks, if_pos hthrows]⟩
  | true =>
      right
      have hthrows : ¬ db.popThrows = true := by
        rw [hthrows, hres]
        exact Bool.false_ne_true
      rcases hpop : db.pop with ⟨db', r⟩
      rw [hpop] at hiff
      cases r with
      | none =>
          refine .inl ⟨rfl, fun hp => ?_, rfl, fun n out => by rw [popBlocks, if_neg hthrows, hpop]⟩
          obtain ⟨_, h⟩ := hiff.mpr hp
          cases h
      | some b =>
          obtain ⟨top', txs, hto, hpd⟩ := (db.pop_spec b).2 (by rw [hpop])
          cases ht.symm.trans hto.1
          rw [hpop] at hpd
          refine .inr ⟨b, db', ⟨hpop, hiff.mp ⟨b, rfl⟩, hpd.demoted hto, fun k hk => ?_,
            hto.isBlockAt⟩, fun n out => by rw [popBlocks, if_neg hthrows, hpop]⟩
          rw [hpd.blocks_eq, BlockDatabase.unlink_get (by omega), if_pos (Nat.lt_succ_of_le hk)]

/-- Without a block above there is nothing to pop. -/
theorem poppable_top {db : DataBase} {f : Nat} (hcount : db.blocks.count = f + 1) :
    db.Poppable f := by
  refine ⟨fun height hlt hb => ?_, fun height position hash hlt hs => ?_,
    fun height position hash p hlt hs => ?_,
    fun height position hash height' position' hash' p hlt hs => ?_⟩
  · omega
  all_goals
    have := hs.lt
    omega

/-- **The loop of `pop_above`** answers success exactly where the blocks above can be popped, and
    then has popped these. -/
theorem popBlocks_spec {n f : Nat} {db : DataBase} (out : List Block)
    (hcount : db.blocks.count = f + n + 1) :
    ((popBlocks n db out).2.2 = some .success ↔ db.Poppable f) ∧
      ((popBlocks n db out).2.2 = some .success →
        (popBlocks n db out).1.blocks.count = f + 1 ∧
        (∀ k ≤ f, (popBlocks n db out).1.blocks.get k = db.blocks.get k) ∧
        ∃ popped, (popBlocks n db out).2.1 = popped ++ out ∧
          List.Forall₂ db.IsBlockAt (List.range' (f + 1) n) popped) := by
  induction n generalizing db out with
  | zero =>
      exact ⟨iff_of_true rfl (poppable_top hcount), fun _ => ⟨hcount, fun _ _ => rfl, [], rfl, .nil⟩⟩
  | succ n ih =>
      rcases @popBlocks_cases _ db (f + n) hcount with ⟨hres, hloop⟩ | ⟨_, hnot, _, hloop⟩ |
        ⟨b, db', htake, hloop⟩
      · refine ⟨iff_of_false (fun h => ?_) fun hp => ?_, fun h => ?_⟩
        · rw [hloop] at h
          cases h
        · rw [hp.reserves _ (by omega) (by omega)] at hres
          cases hres
        · rw [hloop] at h
          cases h
      · refine ⟨iff_of_false (fun h => ?_) fun hp => hnot (hp.mono (by omega)), fun h => ?_⟩ <;>
        · rw [hloop] at h
          cases h
      · obtain ⟨ih₁, ih₂⟩ := @ih db' (b :: out) htake.demoted.count_eq
        rw [hloop]
        refine ⟨ih₁.trans (poppable_pop htake.demoted hcount htake.poppable (by omega)).symm,
          fun h => ?_⟩
        obtain ⟨h₁, h₂, popped, he, hall⟩ := ih₂ h
        refine ⟨h₁, fun k hk => (h₂ k hk).trans (htake.get_eq k (by omega)), popped ++ [b], ?_, ?_⟩
        · rw [List.append_assoc]
          exact he
        · have hbelow : ∀ k ∈ List.range' (f + 1) n, k ≤ f + n := fun k hk => by
            have := List.mem_range'_1.mp hk
            omega
          have hold : List.Forall₂ db.IsBlockAt (List.range' (f + 1) n) popped :=
            ((List.forall₂_and_left _ _).mpr ⟨hbelow, hall⟩).imp fun k b h =>
              h.2.of_below (htake.get_eq k h.1) htake.demoted.contents
          have hnew : db.IsBlockAt (f + 1 + n) b := by
            rw [Nat.add_right_comm]
            exact htake.isBlockAt
          rw [List.range'_1_concat]
          exact List.rel_append hold (.cons hnew .nil)

/-- A gap above the height that the pops reach, where a vector of the transactions counted cannot
    be reserved. -/
def GapThrows (db : DataBase) (forkHeight : Nat) : Prop :=
  ∃ height, forkHeight < height ∧ height < db.blocks.count ∧ db.blocks.reserves height = false ∧
    db.Poppable height

/-- **The loop throws exactly where the pops reach such a gap.** -/
theorem popBlocks_throws_iff {n f : Nat} {db : DataBase} (out : List Block)
    (hcount : db.blocks.count = f + n + 1) :
    (popBlocks n db out).2.2 = none ↔ db.GapThrows f := by
  induction n generalizing db out with
  | zero => exact iff_of_false nofun fun ⟨height, hlt, hb, _⟩ => by omega
  | succ n ih =>
      rcases @popBlocks_cases _ db (f + n) hcount with ⟨hres, hloop⟩ | ⟨hres, hnot, _, hloop⟩ |
        ⟨b, db', htake, hloop⟩
      · rw [hloop]
        exact iff_of_true rfl ⟨f + n + 1, by omega, by omega, hres, poppable_top hcount⟩
      · rw [hloop]
        refine iff_of_false nofun fun ⟨height, hlt, hb, hgap, hp⟩ => ?_
        rcases Nat.lt_or_eq_of_le (show height ≤ f + n + 1 by omega) with hle | rfl
        · exact hnot (hp.mono (by omega))
        · rw [hres] at hgap
          cases hgap
      · rw [hloop, @ih db' (b :: out) htake.demoted.count_eq]
        have hpoppable {height : Nat} (hle : height ≤ f + n) :=
          poppable_pop htake.demoted hcount htake.poppable hle
        have hcount' := htake.demoted.count_eq
        constructor
        · intro ⟨height, hlt, hb, hgap, hp⟩
          refine ⟨height, hlt, by omega, ?_, (hpoppable (by omega)).mpr hp⟩
          rw [← htake.demoted.reserves_eq]
          exact hgap
        · intro ⟨height, hlt, hb, hgap, hp⟩
          have hle : height ≤ f + n := by
            rcases Nat.lt_or_eq_of_le (show height ≤ f + n + 1 by omega) with hle | rfl
            · omega
            · rw [htake.poppable.reserves _ (by omega) (by omega)] at hgap
              cases hgap
          refine ⟨height, hlt, by omega, ?_, (hpoppable hle).mp hp⟩
          rw [htake.demoted.reserves_eq]
          exact hgap

/-! ## 4. A pop that fails -/

theorem popInputsFrom_pool (height : Nat) (db : DataBase) (inputs : List Input) :
    (popInputsFrom height db inputs).1.poolOf = db.poolOf :=
  popInputsFrom_keeps poolOf height (fun _ _ => rfl)
    (fun db input => (popIndexes_spec db input).2.2.2.2.2.1) db inputs

/-- A transaction demoted is in the pool, whatever comes after. -/
theorem popTransactions_cons_pool (height : Nat) (db : DataBase) (tx : Transaction)
    (txs : List Transaction) :
    (db.transactions.slabs tx.hash = [] ∧
        (popTransactions height db (tx :: txs)).1.poolOf = db.poolOf) ∨
      ∃ db', db'.poolOf = db.poolOf.push tx.hash (tx.toSlab 0 unconfirmed) ∧
        ((popTransactions height db (tx :: txs)).1 = db' ∨
          (popTransactions height db (tx :: txs)).1 = (popTransactions height db' txs).1) := by
  obtain ⟨hiff, _⟩ := unconfirm_spec db.transactions tx.hash
  rw [popTransactions]
  rcases hu : db.transactions.unconfirm tx.hash with ⟨t, r⟩
  rw [hu] at hiff
  cases r with
  | false => exact .inl ⟨not_not.mp fun h => absurd (hiff.mpr h) Bool.false_ne_true, rfl⟩
  | true =>
      right
      obtain ⟨_, _, _, _, _, hpool, _⟩ := popOutputs_spec
        { db with
          transactions := t
          transactionsUnconfirmed := db.transactionsUnconfirmed.store tx } tx.outputs height
      have hpool : _ = db.poolOf.push tx.hash (tx.toSlab 0 unconfirmed) :=
        hpool.trans (TransactionUnconfirmedDatabase.store_entries _ tx)
      dsimp only
      split
      · exact ⟨_, hpool, .inr rfl⟩
      · generalize popOutputs
          { db with
            transactions := t
            transactionsUnconfirmed := db.transactionsUnconfirmed.store tx }
          tx.outputs height = db₁ at hpool ⊢
        have hin := popInputsFrom_pool height db₁ tx.inputs.reverse
        rw [popInputs]
        rcases hp : popInputsFrom height db₁ tx.inputs.reverse with ⟨db', r⟩
        rw [hp] at hin
        cases r with
        | false => exact ⟨db', hin.trans hpool, .inl rfl⟩
        | true => exact ⟨db', hin.trans hpool, .inr rfl⟩

theorem popTransactions_pool_le (height : Nat) (db : DataBase) (txs : List Transaction)
    (hash : HashDigest) :
    (db.poolOf hash).length ≤ ((popTransactions height db txs).1.poolOf hash).length := by
  induction txs generalizing db with
  | nil => exact Nat.le_refl _
  | cons tx txs ih =>
      rcases popTransactions_cons_pool height db tx txs with ⟨_, he⟩ | ⟨db', hpool, he⟩
      · exact Nat.le_of_eq (congrArg (fun s => (s hash).length) he.symm)
      · have hle : (db.poolOf hash).length ≤ (db'.poolOf hash).length := by
          rw [hpool]
          exact Stacks.length_le_push ..
        rcases he with he | he
        · exact he ▸ hle
        · exact he ▸ Nat.le_trans hle (ih db')

/-- **A failed pop leaves the tables as they were exactly where the top block is not found**: past
    that a transaction is in the pool. -/
theorem pop_failed_eq_iff {db : DataBase} {f : Nat} (ht : db.blocks.top = some (f + 1))
    (hres : db.blocks.reserves (f + 1) = true) (hp : db.pop.2 = none) :
    db.pop.1 = db ↔ ¬ ∀ position hash, db.Slot (f + 1) position hash →
      db.Found hash (f + 1) position := by
  have hcount := BlockDatabase.top_eq_some.mp ht
  obtain ⟨block, hg⟩ : ∃ block, db.blocks.get (f + 1) = some block := by
    rw [BlockDatabase.get_eq, if_pos (by omega)]
    exact ⟨_, rfl⟩
  have hblock (txs : List Transaction) : db.readBlock (f + 1) block = some txs ↔
      List.Forall₂ (db.ReadBack (f + 1)) block.slab.hashes.zipIdx txs :=
    readBlock_eq_some.trans (and_iff_right hres)
  have hread : (∃ txs, List.Forall₂ (db.ReadBack (f + 1)) block.slab.hashes.zipIdx txs) ↔
      ∀ position hash, db.Slot (f + 1) position hash → db.Found hash (f + 1) position := by
    constructor
    · intro ⟨txs, hback⟩ position hash ⟨r, hr, hi⟩
      cases hg.symm.trans hr
      obtain ⟨tx, _, slab, hs, hh, hpos, hne, _⟩ := forall₂_mem_right hback.flip (hash, position)
        (mem_zipIdx_hashes.mpr hi)
      exact found_iff.mpr ⟨slab, hs, hh, hpos, hne⟩
    · intro h
      refine exists_forall₂ fun t hm => ?_
      obtain ⟨slab, hs, hh, hpos, hne⟩ :=
        found_iff.mp (h t.2 t.1 ⟨block, hg, mem_zipIdx_hashes.mp hm⟩)
      exact ⟨_, slab, hs, hh, hpos, hne, rfl⟩
  rw [← hread]
  cases hr : db.readBlock (f + 1) block with
  | none =>
      refine iff_of_true ?_ fun ⟨txs, h⟩ => ?_
      · unfold pop
        simp only [ht, hg, hr]
      · rw [(hblock txs).mpr h] at hr
        cases hr
  | some txs =>
      have hback := (hblock txs).mp hr
      refine iff_of_false (fun he => ?_) fun h => h ⟨txs, hback⟩
      obtain ⟨hiff, hun⟩ := popTransactions_spec (f + 1) db txs.reverse
      have hpool : db.pop.1.poolOf = (popTransactions (f + 1) db txs.reverse).1.poolOf ∧
          (popTransactions (f + 1) db txs.reverse).2 = false := by
        unfold pop at hp ⊢
        simp only [ht, hg, hr] at hp ⊢
        rcases hpt : popTransactions (f + 1) db txs.reverse with ⟨db', r⟩
        rw [hpt] at hun
        cases r with
        | false => exact ⟨rfl, rfl⟩
        | true =>
            have hunlink : db'.blocks.unlink (f + 1) = db.blocks.unlink (f + 1) := by
              rw [(hun rfl).blocks_eq]
            have hlt : f + 1 < db.blocks.count := by omega
            simp only [hpt, hunlink, BlockDatabase.unlink_of_lt hlt] at hp
            cases hp
      rw [he] at hpool
      obtain ⟨hpool, hfail⟩ := hpool
      -- a transaction there is, and the first one went into the pool
      cases hl : txs.reverse with
      | nil =>
          rw [hl] at hfail
          cases hfail
      | cons tx rest =>
          rw [hl] at hpool
          obtain ⟨t, _, slab, hs, _, _, _, htx⟩ := forall₂_mem_right hback tx
            (List.mem_reverse.mp (hl ▸ List.mem_cons_self))
          have hthash : t.1 = tx.hash := htx ▸ rfl
          rcases popTransactions_cons_pool (f + 1) db tx rest with ⟨hnil, _⟩ | ⟨db', hdb', he'⟩
          · rw [hthash, hnil] at hs
            cases hs
          · have hlen : (db'.poolOf tx.hash).length = (db.poolOf tx.hash).length + 1 := by
              rw [hdb', Stacks.push_same]
              rfl
            have hle : (db'.poolOf tx.hash).length ≤ (db.poolOf tx.hash).length := by
              rw [hpool]
              rcases he' with he' | he'
              · exact Nat.le_of_eq (congrArg (fun db => (poolOf db tx.hash).length) he'.symm)
              · rw [he']
                exact popTransactions_pool_le ..
            omega

/-! ## 5. Rolling back -/

omit [Core] in
/-- The chain has a block with the hash at the height. -/
def HashAt (db : DataBase) (hash : HashDigest) (height : Nat) : Prop :=
  ∃ r, db.blocks.get height = some r ∧ r.hash = hash

/-- **What `pop_above` is for.** Without a block of the hash: an error, nothing changed, nothing
    popped. With one: success, and exactly the blocks above it popped, lowest first. -/
structure RollsBack (db : DataBase) (forkHash : HashDigest) : Prop where
  missing : (∀ height, ¬ db.HashAt forkHash height) →
    (∃ ec, (db.popAbove forkHash).2.2 = some ec ∧ ec ≠ .success) ∧
      (db.popAbove forkHash).1 = db ∧ (db.popAbove forkHash).2.1 = []
  present : ∀ fork, db.HashAt forkHash fork → ∃ top, db.blocks.top = some top ∧ fork ≤ top ∧
    (db.popAbove forkHash).2.2 = some .success ∧
    (db.popAbove forkHash).1.blocks.top = some fork ∧
    (∀ k ≤ fork, (db.popAbove forkHash).1.blocks.get k = db.blocks.get k) ∧
    List.Forall₂ db.IsBlockAt (List.range' (fork + 1) (top - fork)) (db.popAbove forkHash).2.1

omit [Core] in
/-- The height of the newest slab of the hash, where `pop_above` compares it with a top. -/
def forkOf (db : DataBase) (forkHash : HashDigest) : Option Nat :=
  if db.blocks.count = 0 then none else (db.blocks.slabs forkHash).head?.map BlockSlab.height

/-- When `pop_above` rolls back: no fork point is looked up and none is on the chain; or the one
    looked up is the only block of the hash on the chain and the blocks above it can be popped; or
    the hash is not on the chain, and the first of the pops below the top finds its block's
    transactions gone. -/
def ForkSound (db : DataBase) (forkHash : HashDigest) : Prop :=
  match db.forkOf forkHash with
  | none => ∀ height, ¬ db.HashAt forkHash height
  | some fork =>
    (∀ height, db.HashAt forkHash height ↔ height = fork) ∧ db.Poppable fork ∨
      (∀ height, ¬ db.HashAt forkHash height) ∧ fork + 1 < db.blocks.count ∧
        db.blocks.reserves (db.blocks.count - 1) = true ∧
        ∃ position hash, db.Slot (db.blocks.count - 1) position hash ∧
          ¬ db.Found hash (db.blocks.count - 1) position

theorem popBlocks_out_length (n : Nat) (db : DataBase) (out : List Block) :
    out.length ≤ (popBlocks n db out).2.1.length := by
  induction n generalizing db out with
  | zero => exact Nat.le_refl _
  | succ n ih =>
      unfold popBlocks
      split
      · exact Nat.le_refl _
      · rcases db.pop with ⟨db', r⟩
        cases r with
        | none => exact Nat.le_refl _
        | some b => exact Nat.le_trans (Nat.le_succ _) (ih db' (b :: out))

/-- **A loop that fails without an effect** has found the top block's transactions gone. -/
theorem popBlocks_unchanged_iff {db : DataBase} {top : Nat} (hcount : db.blocks.count = top + 2)
    (n : Nat) :
    ((∃ ec, (popBlocks (n + 1) db []).2.2 = some ec ∧ ec ≠ .success) ∧
        (popBlocks (n + 1) db []).1 = db ∧ (popBlocks (n + 1) db []).2.1 = []) ↔
      db.blocks.reserves (top + 1) = true ∧ ∃ position hash, db.Slot (top + 1) position hash ∧
        ¬ db.Found hash (top + 1) position := by
  have ht : db.blocks.top = some (top + 1) := BlockDatabase.top_eq_some.mpr hcount
  rcases popBlocks_cases hcount with ⟨hres, hloop⟩ | ⟨hres, _, hfail, hloop⟩ |
    ⟨b, db', htake, hloop⟩
  · rw [hloop, hres]
    refine iff_of_false (fun ⟨⟨ec, hec, _⟩, _⟩ => ?_) fun h => Bool.false_ne_true h.1
    cases hec
  · have hiff := pop_failed_eq_iff ht hres hfail
    push Not at hiff
    rw [hloop, and_iff_right hres, ← hiff]
    exact ⟨fun h => h.2.1, fun h => ⟨⟨_, rfl, nofun⟩, h, rfl⟩⟩
  · refine iff_of_false (fun ⟨_, _, hout⟩ => ?_) fun ⟨_, position, hash, hs, hnf⟩ => ?_
    · have hlen := popBlocks_out_length n db' [b]
      rw [← hloop, hout] at hlen
      cases hlen
    · -- the pop has found every transaction
      have hp := (pop_isSome_iff ht).mp ⟨b, by rw [htake.pop_eq]⟩
      exact hnf (hp.found _ _ _ (Nat.lt_succ_self _) hs)

omit [Core] in
theorem subSize_of_le {a b : Nat} (h : b ≤ a) (ha : a ≤ maxUint32) : subSize a b = a - b := by
  unfold subSize maxSize
  unfold maxUint32 at ha
  omega

omit [Core] in
/-- A fork point above the top: the difference wraps, and nothing of that size is reserved. -/
theorem subSize_of_lt {a b : Nat} (h : a < b) (hb : b ≤ maxUint32) : subSize a b > maxReserve := by
  unfold subSize maxSize maxReserve
  unfold maxUint32 at hb
  omega

/-- `pop_above` by the height of the fork point looked up. -/
theorem popAbove_eq (db : DataBase) (forkHash : HashDigest) :
    db.popAbove forkHash =
      match db.forkOf forkHash with
      | none => (db, [], some .operationFailed)
      | some fork =>
        if fork + 1 = db.blocks.count then (db, [], some .success)
        else if db.blocks.count ≤ fork then (db, [], none)
        else popBlocks (db.blocks.count - 1 - fork) db [] := by
  unfold popAbove forkOf
  rw [BlockDatabase.getByHash_eq]
  by_cases h0 : db.blocks.count = 0
  · rw [if_pos h0, BlockDatabase.top_eq_none.mpr h0]
    cases (db.blocks.slabs forkHash).head? <;> rfl
  · rw [if_neg h0, BlockDatabase.top_eq_some.mpr (show db.blocks.count = db.blocks.count - 1 + 1 by omega)]
    cases (db.blocks.slabs forkHash).head? with
    | none => rfl
    | some slab =>
        have hcount := db.blocks.count_le
        have hh := slab.height_le
        have heq : slab.height = (BlockResult.mk forkHash slab).height := rfl
        simp only [Option.map_some]
        rw [heq] at hh ⊢
        generalize BlockResult.mk forkHash slab = r at hh ⊢
        by_cases hle : r.height ≤ db.blocks.count - 1
        · have hsub := subSize_of_le hle (Nat.le_trans (Nat.sub_le _ _) hcount)
          have hsmall : ¬ subSize (db.blocks.count - 1) r.height > maxReserve := by
            unfold maxReserve
            unfold maxUint32 at hcount
            omega
          rw [if_neg hsmall, if_neg (show ¬ db.blocks.count ≤ r.height by omega)]
          by_cases heq : r.height + 1 = db.blocks.count
          · rw [if_pos heq, if_pos (by omega)]
          · rw [if_neg heq, if_neg (by omega)]
        · have hsub := subSize_of_lt (Nat.lt_of_not_le hle) hh
          rw [if_neg (show ¬ r.height + 1 = db.blocks.count by omega),
            if_pos (show db.blocks.count ≤ r.height by omega),
            if_neg (Nat.ne_of_gt (Nat.lt_of_le_of_lt (Nat.zero_le _) hsub)), if_pos hsub]

/-- **When `pop_above` throws**, at a fork point of the store: the height looked up is above the
    top, or the pops reach a gap where `reserve` throws. -/
theorem popAbove_throws_iff {db : DataBase} {forkHash : HashDigest} {fork : Nat}
    (hf : db.forkOf forkHash = some fork) :
    (db.popAbove forkHash).2.2 = none ↔ db.blocks.count ≤ fork ∨ db.GapThrows fork := by
  rw [popAbove_eq, hf]
  dsimp only
  have hgap : db.GapThrows fork → fork + 1 < db.blocks.count :=
    fun ⟨height, hlt, hb, _⟩ => by omega
  split
  · refine iff_of_false nofun ?_
    rintro (h | h)
    · omega
    · have := hgap h
      omega
  · split
    · rename_i hge
      exact iff_of_true rfl (.inl hge)
    · rename_i hne hlt
      rw [or_iff_right hlt]
      exact popBlocks_throws_iff [] (by omega)

omit [Core] in
theorem HashAt.lt {db : DataBase} {hash : HashDigest} {height : Nat} (h : db.HashAt hash height) :
    height < db.blocks.count := by
  obtain ⟨r, hr, _⟩ := h
  by_contra hge
  rw [BlockDatabase.get_eq, if_neg hge] at hr
  cases hr

omit [Core] in
/-- What a rollback answers names the fork point. -/
theorem hashAt_iff_of_top {db : DataBase} {forkHash : HashDigest} {fork : Nat}
    (hex : ∃ height, db.HashAt forkHash height)
    (h : ∀ height, db.HashAt forkHash height → height = fork) (height : Nat) :
    db.HashAt forkHash height ↔ height = fork := by
  obtain ⟨k, hk⟩ := hex
  exact ⟨h height, fun he => (he.trans (h k hk).symm) ▸ hk⟩

section Cases

variable {db : DataBase} {forkHash : HashDigest} {fork : Nat}

/-- No fork point is looked up. -/
theorem rollsBack_missing (hf : db.forkOf forkHash = none) :
    db.RollsBack forkHash ↔ ∀ height, ¬ db.HashAt forkHash height := by
  have heq := popAbove_eq db forkHash
  rw [hf] at heq
  constructor
  · intro h height hat
    obtain ⟨_, _, _, hec, _⟩ := h.present height hat
    rw [heq] at hec
    cases hec
  · intro hnot
    refine ⟨fun _ => ?_, fun fork hat => absurd hat (hnot fork)⟩
    rw [heq]
    exact ⟨⟨_, rfl, nofun⟩, rfl, rfl⟩

/-- The fork point looked up is above the top. -/
theorem not_rollsBack_above (hf : db.forkOf forkHash = some fork) (hgt : db.blocks.count ≤ fork) :
    ¬ db.RollsBack forkHash := by
  have hnone := (popAbove_throws_iff hf).mpr (.inl hgt)
  intro h
  by_cases hex : ∃ height, db.HashAt forkHash height
  · obtain ⟨k, hk⟩ := hex
    obtain ⟨_, _, _, hec, _⟩ := h.present k hk
    rw [hnone] at hec
    cases hec
  · obtain ⟨⟨ec, hec, _⟩, _⟩ := h.missing fun k hk => hex ⟨k, hk⟩
    rw [hnone] at hec
    cases hec

/-- The fork point looked up is the top. -/
theorem rollsBack_top (hf : db.forkOf forkHash = some fork) (htop : fork + 1 = db.blocks.count) :
    db.RollsBack forkHash ↔ ∀ height, db.HashAt forkHash height ↔ height = fork := by
  have heq := popAbove_eq db forkHash
  rw [hf] at heq
  dsimp only at heq
  rw [if_pos htop] at heq
  have ht : db.blocks.top = some fork := BlockDatabase.top_eq_some.mpr htop.symm
  constructor
  · intro h
    have hex : ∃ height, db.HashAt forkHash height := by
      by_contra hex
      obtain ⟨⟨ec, hec, hne⟩, _⟩ := h.missing fun k hk => hex ⟨k, hk⟩
      rw [heq] at hec
      exact hne (Option.some.inj hec).symm
    refine hashAt_iff_of_top hex fun height hat => ?_
    obtain ⟨_, _, _, _, ht', _⟩ := h.present height hat
    rw [heq] at ht'
    exact Option.some.inj (ht'.symm.trans ht)
  · intro hat
    refine ⟨fun hnot => absurd ((hat fork).mpr rfl) (hnot fork), fun k hk => ?_⟩
    cases (hat k).mp hk
    rw [heq]
    refine ⟨fork, ht, Nat.le_refl _, rfl, ht, fun _ _ => rfl, ?_⟩
    rw [Nat.sub_self]
    exact .nil

/-- The fork point looked up is below the top: there are blocks to pop. -/
theorem rollsBack_below {n : Nat} (hf : db.forkOf forkHash = some fork)
    (hcount : db.blocks.count = fork + n + 2) :
    db.RollsBack forkHash ↔ (∀ height, db.HashAt forkHash height ↔ height = fork) ∧ db.Poppable fork ∨
      (∀ height, ¬ db.HashAt forkHash height) ∧ db.blocks.reserves (fork + n + 1) = true ∧
        ∃ position hash, db.Slot (fork + n + 1) position hash ∧
          ¬ db.Found hash (fork + n + 1) position := by
  have heq := popAbove_eq db forkHash
  rw [hf] at heq
  dsimp only at heq
  rw [if_neg (by omega), if_neg (by omega), show db.blocks.count - 1 - fork = n + 1 by omega] at heq
  have htop : db.blocks.top = some (fork + n + 1) := BlockDatabase.top_eq_some.mpr hcount
  obtain ⟨hiff, hspec⟩ := @popBlocks_spec _ (n + 1) fork db [] hcount
  have hunchanged := @popBlocks_unchanged_iff _ db (fork + n) hcount n
  constructor
  · intro h
    by_cases hex : ∃ height, db.HashAt forkHash height
    · have hcode : (popBlocks (n + 1) db []).2.2 = some .success := by
        obtain ⟨k, hk⟩ := hex
        obtain ⟨_, _, _, hec, _⟩ := h.present k hk
        rwa [heq] at hec
      refine .inl ⟨hashAt_iff_of_top hex fun height hat => ?_, hiff.mp hcode⟩
      obtain ⟨_, _, _, _, ht, _⟩ := h.present height hat
      rw [heq] at ht
      have hc := BlockDatabase.top_eq_some.mp ht
      have hc' := (hspec hcode).1
      omega
    · have hnot : ∀ height, ¬ db.HashAt forkHash height := fun k hk => hex ⟨k, hk⟩
      have hmissing := h.missing hnot
      rw [heq] at hmissing
      exact .inr ⟨hnot, hunchanged.mp hmissing⟩
  · rintro (⟨hat, hpop⟩ | ⟨hnot, hfound⟩)
    · refine ⟨fun hnot => absurd ((hat fork).mpr rfl) (hnot fork), fun k hk => ?_⟩
      cases (hat k).mp hk
      have hcode := hiff.mpr hpop
      obtain ⟨hc, hget, popped, hout, hall⟩ := hspec hcode
      rw [List.append_nil] at hout
      rw [heq]
      refine ⟨fork + n + 1, htop, by omega, hcode, BlockDatabase.top_eq_some.mpr hc, hget, ?_⟩
      rw [show fork + n + 1 - fork = n + 1 by omega]
      exact hout ▸ hall
    · refine ⟨fun _ => ?_, fun k hk => absurd hk (hnot k)⟩
      rw [heq]
      exact hunchanged.mpr hfound

end Cases

/-- **`pop_above` rolls back to a fork point of the chain exactly where** the newest slab of the
    hash is the one block of the hash on the chain and what is above it can be popped, or the hash
    was never stored, or the pops fail before the first of them changes anything. -/
theorem rollsBack_iff (db : DataBase) (forkHash : HashDigest) :
    db.RollsBack forkHash ↔ db.ForkSound forkHash := by
  unfold ForkSound
  cases hf : db.forkOf forkHash with
  | none => exact rollsBack_missing hf
  | some fork =>
      dsimp only
      rcases Nat.lt_trichotomy (fork + 1) db.blocks.count with hlt | htop | hgt
      · obtain ⟨n, hn⟩ : ∃ n, db.blocks.count = fork + n + 2 := ⟨db.blocks.count - fork - 2, by omega⟩
        rw [rollsBack_below hf hn, and_iff_right (a := fork + 1 < db.blocks.count) hlt,
          show db.blocks.count - 1 = fork + n + 1 by omega]
      · rw [rollsBack_top hf htop, and_iff_left (poppable_top htop.symm)]
        refine (or_iff_left fun ⟨_, hlt, _⟩ => ?_).symm
        omega
      · refine iff_of_false (not_rollsBack_above hf (by omega)) ?_
        rintro (⟨hat, _⟩ | ⟨_, hlt, _⟩)
        · have := ((hat fork).mpr rfl).lt
          omega
        · omega

/-- A block popped and another one pushed in its place. -/
def reorganized : List ChainOp :=
  [.push (.sample 2 1 [.sampleCoinbase 201 2]) 1, .pop, .push (.sample 3 1 [.sampleCoinbase 301 3]) 1]

omit [Core] in
/-- The block that left the chain is taken for a fork point at the top: success, nothing popped. -/
theorem reorganized_accepts_popped :
    EveryStep (@chainStep Core.sample) (@Succeeds Core.sample) sample reorganized ∧
      ¬ @RollsBack Core.sample (run (@chainStep Core.sample) sample reorganized) 2 := by
  refine ⟨⟨⟨by decide +kernel, by decide, by decide +kernel⟩, ⟨by decide +kernel, trivial⟩,
    ⟨by decide +kernel, by decide, by decide +kernel⟩, trivial⟩, fun h => ?_⟩
  generalize hdb : run (@chainStep Core.sample) sample reorganized = db at h
  have hcount : db.blocks.count = 2 := by
    rw [← hdb]
    decide +kernel
  have hhash : ∀ height < 2, (db.blocks.get height).map BlockResult.hash ≠ some 2 := by
    rw [← hdb]
    decide +kernel
  have hcode : (@popAbove Core.sample db 2).2.2 = some .success := by
    rw [← hdb]
    decide +kernel
  have hnot : ∀ height, ¬ db.HashAt 2 height := by
    intro height hat
    have hlt := hat.lt
    obtain ⟨r, hr, he⟩ := hat
    refine hhash height (by omega) ?_
    rw [hr, Option.map_some, he]
  obtain ⟨⟨ec, hec, hne⟩, _⟩ := @RollsBack.missing Core.sample _ _ h hnot
  rw [hcode] at hec
  exact hne (Option.some.inj hec).symm

end DataBase

end Libbitcoin.Database
