/-
  File:      BitprimDatabase/Databases/HeightIndex.lean
  Subject:   THE HEIGHT INDEX OF THE BLOCK TABLE (block_database.cpp) over every sequence of stores
             and unlinks, in any order of heights.

  * `Kept`, `BlockOp.keep` -- the reference: the block last stored at each height and not truncated
    since; `BlockOp.grow` -- the count of the index;
  * `Indexes` -- the index holds the reference; kept by every call, so by every run;
  * **`index_exact`** -- `exists?`, `gaps` and `top` are those of the reference, and do not depend
    on the order of stores at distinct heights;
  * **`lookup_agrees_iff`** -- `get` agrees with `exists?` exactly at the heights that are not
    gaps: at a gap it answers what stands in front of the slabs.
-/
import BitprimDatabase.Lib.Run
import BitprimDatabase.Databases.BlockDatabase

namespace Libbitcoin.Database

open Lib

/-! ## 1. The calls and the reference -/

/-- The writing calls of the block table. -/
inductive BlockOp where
  | store (b : Block) (height : Nat)
  | unlink (fromHeight : Nat)

/-- **The reference**: the block last stored at a height, unless it was truncated since. -/
abbrev Kept := Nat → Option Block

namespace BlockOp

def apply (db : BlockDatabase) : BlockOp → BlockDatabase
  | store b height => db.store b height
  | unlink fromHeight => (db.unlink fromHeight).1

/-- The call on the reference. -/
def keep (kept : Kept) : BlockOp → Kept
  | store b height => Function.update kept height (some b)
  | unlink fromHeight => fun height => if height < fromHeight then kept height else none

/-- The call on the count. -/
def grow (count : Nat) : BlockOp → Nat
  | store _ height => max count (height + 1)
  | unlink fromHeight => if fromHeight < count then fromHeight else count

/-- What `write_position` asserts of a height. -/
def Asserted : BlockOp → Prop
  | store _ height => height < maxUint32
  | unlink _ => True

instance (op : BlockOp) : Decidable op.Asserted :=
  match op with
  | store _ height => inferInstanceAs (Decidable (height < maxUint32))
  | unlink _ => .isTrue True.intro

end BlockOp

namespace BlockDatabase

/-- The slab found by height is the one stored for the block. -/
def resultOf (height : Nat) (b : Block) : BlockResult := ⟨b.header.hash, b.toSlab height⟩

/-- **The index holds the reference.** -/
structure Indexes (db : BlockDatabase) (kept : Kept) : Prop where
  at_eq : ∀ height, db.at? height = (kept height).map (resultOf height)
  exists_eq : ∀ height, db.exists? height = (kept height).isSome

section Indexes

variable {db : BlockDatabase} {kept : Kept}

theorem create_indexes [Core] (buckets : Nat) (stray : BlockResult) :
    (create buckets stray).Indexes fun _ => none :=
  ⟨fun _ => rfl, fun _ => rfl⟩

theorem unlink_at (db : BlockDatabase) (fromHeight height : Nat) :
    (db.unlink fromHeight).1.at? height = if height < fromHeight then db.at? height else none := by
  unfold unlink at?
  split
  · rename_i hlt
    by_cases hh : height < fromHeight
    · simp [hh, Nat.lt_trans hh hlt]
    · simp [hh]
  · rename_i hle
    by_cases hh : height < fromHeight
    · rw [if_pos hh]
    · have hge : ¬ height < db.count := by omega
      rw [if_neg hh]
      exact if_neg hge

theorem unlink_exists (db : BlockDatabase) (fromHeight height : Nat) :
    (db.unlink fromHeight).1.exists? height = (decide (height < fromHeight) && db.exists? height) := by
  unfold unlink exists?
  split
  · rename_i hlt
    by_cases hh : height < fromHeight
    · simp [hh, Nat.lt_trans hh hlt]
    · simp [hh]
  · rename_i hle
    by_cases hh : height < fromHeight
    · simp [hh]
    · simp [hh, show ¬ height < db.count by omega]

/-- **Every call keeps what the index holds.** -/
theorem Indexes.apply (h : db.Indexes kept) {op : BlockOp} (ha : op.Asserted) :
    (op.apply db).Indexes (op.keep kept) := by
  cases op with
  | store b height =>
      refine ⟨fun k => ?_, fun k => ?_⟩
      · show (db.store b height).at? k = (Function.update kept height (some b) k).map _
        rw [db.store_at b ha]
        by_cases hk : k = height
        · subst hk
          rw [if_pos rfl, Function.update_self]
          rfl
        · rw [if_neg hk, Function.update_of_ne hk, h.at_eq]
      · show (db.store b height).exists? k = (Function.update kept height (some b) k).isSome
        rw [db.store_exists b ha]
        by_cases hk : k = height
        · subst hk
          simp
        · simp [hk, h.exists_eq]
  | unlink fromHeight =>
      refine ⟨fun k => ?_, fun k => ?_⟩
      · show (db.unlink fromHeight).1.at? k = (if k < fromHeight then kept k else none).map _
        rw [unlink_at, h.at_eq]
        split <;> rfl
      · show (db.unlink fromHeight).1.exists? k = (if k < fromHeight then kept k else none).isSome
        rw [unlink_exists, h.exists_eq]
        by_cases hk : k < fromHeight <;> simp [hk]

theorem apply_count (db : BlockDatabase) {op : BlockOp} (ha : op.Asserted) :
    (op.apply db).count = op.grow db.count := by
  cases op with
  | store b height => exact db.store_count b ha
  | unlink fromHeight =>
      show (db.unlink fromHeight).1.count = if fromHeight < db.count then fromHeight else db.count
      unfold unlink
      split <;> rfl

/-- **A run of calls.** -/
theorem Indexes.run (h : db.Indexes kept) {ops : List BlockOp} (ha : ∀ op ∈ ops, op.Asserted) :
    (run BlockOp.apply db ops).Indexes (run BlockOp.keep kept ops) := by
  induction ops generalizing db kept with
  | nil => exact h
  | cons op ops ih =>
      obtain ⟨hop, hops⟩ := List.forall_mem_cons.mp ha
      exact ih (h.apply hop) hops

theorem run_count (db : BlockDatabase) {ops : List BlockOp} (ha : ∀ op ∈ ops, op.Asserted) :
    (run BlockOp.apply db ops).count = run BlockOp.grow db.count ops := by
  induction ops generalizing db with
  | nil => rfl
  | cons op ops ih =>
      obtain ⟨hop, hops⟩ := List.forall_mem_cons.mp ha
      show (run BlockOp.apply (op.apply db) ops).count = _
      rw [ih _ hops, db.apply_count hop]
      rfl

end Indexes

/-! ## 2. The index is exact -/

/-- The gaps, by `exists?`. -/
theorem gaps_eq (db : BlockDatabase) :
    db.gaps = (List.range db.count).filter fun height => !db.exists? height := by
  refine List.filter_congr fun height hm => ?_
  have hlt := List.mem_range.mp hm
  unfold exists?
  simp [hlt, bne]

theorem mem_gaps {db : BlockDatabase} {height : Nat} :
    height ∈ db.gaps ↔ height < db.count ∧ db.exists? height = false := by
  rw [gaps_eq, List.mem_filter, List.mem_range, Bool.not_eq_true']

theorem gaps_sorted (db : BlockDatabase) : db.gaps.Pairwise (· < ·) :=
  List.pairwise_lt_range.filter _

section Order

/-- Blocks with the heights they are stored at. -/
def storeOps (stores : List (Block × Nat)) : List BlockOp :=
  stores.map fun s => .store s.1 s.2

variable {stores stores' : List (Block × Nat)}

/-- The heights taken after some stores. -/
theorem run_storeOps_exists (db : BlockDatabase) (h : ∀ s ∈ stores, s.2 < maxUint32) (k : Nat) :
    (run BlockOp.apply db (storeOps stores)).exists? k = true ↔
      k ∈ stores.map Prod.snd ∨ db.exists? k = true := by
  induction stores generalizing db with
  | nil => exact ⟨.inr, fun h => h.resolve_left List.not_mem_nil⟩
  | cons s stores ih =>
      obtain ⟨hs, hrest⟩ := List.forall_mem_cons.mp h
      have hstep := ih (db.store s.1 s.2) hrest
      rw [db.store_exists s.1 hs, Bool.or_eq_true, decide_eq_true_eq] at hstep
      rw [List.map_cons, List.mem_cons, or_assoc, or_left_comm]
      exact hstep

/-- The count after some stores, by its bounds. -/
theorem run_storeOps_count_le (db : BlockDatabase) (h : ∀ s ∈ stores, s.2 < maxUint32) (n : Nat) :
    (run BlockOp.apply db (storeOps stores)).count ≤ n ↔
      db.count ≤ n ∧ ∀ s ∈ stores, s.2 + 1 ≤ n := by
  induction stores generalizing db with
  | nil => exact ⟨fun h => ⟨h, fun _ hm => absurd hm List.not_mem_nil⟩, And.left⟩
  | cons s stores ih =>
      obtain ⟨hs, hrest⟩ := List.forall_mem_cons.mp h
      have hstep := ih (db.store s.1 s.2) hrest
      rw [db.store_count s.1 hs, Nat.max_le] at hstep
      rw [List.forall_mem_cons, ← and_assoc]
      exact hstep

/-- What the queries say does not depend on the order of the stores. -/
theorem storeOps_perm (db : BlockDatabase) (hp : stores.Perm stores')
    (h : ∀ s ∈ stores, s.2 < maxUint32) :
    (run BlockOp.apply db (storeOps stores)).exists? =
        (run BlockOp.apply db (storeOps stores')).exists? ∧
      (run BlockOp.apply db (storeOps stores)).count =
        (run BlockOp.apply db (storeOps stores')).count := by
  have h' : ∀ s ∈ stores', s.2 < maxUint32 := fun s hs => h s (hp.mem_iff.mpr hs)
  refine ⟨funext fun k => ?_, Nat.le_antisymm ?_ ?_⟩
  · rw [Bool.eq_iff_iff, run_storeOps_exists db h, run_storeOps_exists db h',
      (hp.map Prod.snd).mem_iff]
  · refine (run_storeOps_count_le db h _).mpr ?_
    obtain ⟨hle, hall⟩ := (run_storeOps_count_le db h' _).mp (Nat.le_refl _)
    exact ⟨hle, fun s hs => hall s (hp.mem_iff.mp hs)⟩
  · refine (run_storeOps_count_le db h' _).mpr ?_
    obtain ⟨hle, hall⟩ := (run_storeOps_count_le db h _).mp (Nat.le_refl _)
    exact ⟨hle, fun s hs => hall s (hp.mem_iff.mpr hs)⟩

end Order

/-- What the index answers, by the reference and the count. -/
structure IndexExact (db : BlockDatabase) (kept : Kept) (count : Nat) : Prop where
  exists_iff : ∀ height, db.exists? height = true ↔ ∃ b, kept height = some b
  gaps_mem : ∀ height, height ∈ db.gaps ↔ height < count ∧ db.exists? height = false
  gaps_ascending : db.gaps.Pairwise (· < ·)
  top_eq : db.top = if count = 0 then none else some (count - 1)
  unlink_result : ∀ fromHeight, (db.unlink fromHeight).2 = decide (fromHeight < count)

theorem Indexes.exact {db : BlockDatabase} {kept : Kept} (h : db.Indexes kept) :
    db.IndexExact kept db.count where
  exists_iff height := by rw [h.exists_eq, Option.isSome_iff_exists]
  gaps_mem _ := mem_gaps
  gaps_ascending := db.gaps_sorted
  top_eq := rfl
  unlink_result fromHeight := by
    unfold unlink
    split
    · rename_i hlt
      exact (decide_eq_true hlt).symm
    · rename_i hle
      exact (decide_eq_false hle).symm

/-- **The height index is exact**, for every sequence of stores and unlinks, and the order of stores
    at distinct heights does not show in it. -/
theorem index_exact [Core] (buckets : Nat) (stray : BlockResult) {ops : List BlockOp}
    (ha : ∀ op ∈ ops, op.Asserted) :
    (run BlockOp.apply (create buckets stray) ops).IndexExact
        (run BlockOp.keep (fun _ => none) ops) (run BlockOp.grow 0 ops) ∧
      ∀ stores stores' : List (Block × Nat), stores.Perm stores' → (stores.map Prod.snd).Nodup →
        (∀ s ∈ stores, s.2 < maxUint32) →
          let db := run BlockOp.apply (create buckets stray) (ops ++ storeOps stores)
          let db' := run BlockOp.apply (create buckets stray) (ops ++ storeOps stores')
          db.exists? = db'.exists? ∧ db.gaps = db'.gaps ∧ db.top = db'.top := by
  refine ⟨?_, fun stores stores' hp _ hs => ?_⟩
  · have hexact := ((create_indexes buckets stray).run ha).exact
    rwa [run_count _ ha] at hexact
  · obtain ⟨hexists, hcount⟩ :=
      storeOps_perm (run BlockOp.apply (create buckets stray) ops) hp hs
    dsimp only
    rw [run_append, run_append]
    refine ⟨hexists, ?_, ?_⟩
    · rw [gaps_eq, gaps_eq, hexists, hcount]
    · unfold top
      rw [hcount]

/-- The top before the base, a cut between them, and a store above the cut. -/
def outOfOrder : List BlockOp :=
  [.store (.sample 2 1 [.sampleCoinbase 201 2]) 2, .store .sampleGenesis 0, .unlink 1,
    .store (.sample 4 3 [.sampleCoinbase 401 4]) 3]

/-- The truncated height is a gap again, and the order of two more stores does not show. -/
theorem outOfOrder_exact :
    (@run BlockDatabase _ BlockOp.apply (@create Core.sample 3 .sampleStray) outOfOrder).IndexExact
        (run BlockOp.keep (fun _ => none) outOfOrder) (run BlockOp.grow 0 outOfOrder) ∧
      (@run BlockDatabase _ BlockOp.apply (@create Core.sample 3 .sampleStray) outOfOrder).gaps =
        [1, 2] :=
  ⟨(@index_exact Core.sample 3 .sampleStray outOfOrder (by decide)).1, by decide +kernel⟩

/-! ## 3. Lookup by height -/

/-- **`get` agrees with `exists?` at a height**, and answers the block of the reference. -/
structure LookupAgrees (db : BlockDatabase) (kept : Kept) (height : Nat) : Prop where
  valid_iff : (db.get height).isSome = true ↔ db.exists? height = true
  block : ∀ r, db.get height = some r → ∃ b, kept height = some b ∧ r.hash = b.header.hash ∧
    r.header = b.header ∧ r.height = height ∧ r.slab.hashes = b.hashes

/-- The answer at a height with a block. -/
theorem Indexes.get_some {db : BlockDatabase} {kept : Kept} (h : db.Indexes kept) {height : Nat}
    {b : Block} (hk : kept height = some b) : db.get height = some (resultOf height b) := by
  refine get_of_at ?_
  rw [h.at_eq, hk]
  rfl

/-- **At a gap `get` answers the stray bytes.** -/
theorem Indexes.get_gap {db : BlockDatabase} {kept : Kept} (h : db.Indexes kept) {height : Nat}
    (hk : kept height = none) (hlt : height < db.count) : db.get height = some db.stray := by
  rw [get_eq, if_pos hlt, h.at_eq, hk]
  rfl

theorem Indexes.lookupAgrees_iff {db : BlockDatabase} {kept : Kept} (h : db.Indexes kept)
    (hbound : ∀ height b, kept height = some b → height < maxUint32) (height : Nat) :
    db.LookupAgrees kept height ↔ (∃ b, kept height = some b) ∨ db.count ≤ height := by
  constructor
  · intro ha
    by_contra hne
    obtain ⟨hnone, hlt⟩ := not_or.mp hne
    have hk : kept height = none := Option.eq_none_iff_forall_ne_some.mpr fun b hb => hnone ⟨b, hb⟩
    have hvalid := ha.valid_iff
    rw [h.get_gap hk (Nat.lt_of_not_le hlt), h.exists_eq, hk] at hvalid
    cases hvalid.mp rfl
  · rintro (⟨b, hb⟩ | hle)
    · have hget := h.get_some hb
      refine ⟨?_, fun r hr => ?_⟩
      · rw [hget, h.exists_eq, hb]
        exact Iff.rfl
      · cases hget.symm.trans hr
        exact ⟨b, hb, rfl, rfl, u32_of_lt (hbound height b hb), rfl⟩
    · have hget : db.get height = none := by rw [get_eq, if_neg (Nat.not_lt_of_le hle)]
      refine ⟨?_, fun r hr => by rw [hget] at hr; cases hr⟩
      rw [hget]
      unfold exists?
      simp [Nat.not_lt_of_le hle]

/-- The blocks of the reference were stored at asserted heights. -/
theorem keep_bound {kept : Kept} (hb : ∀ height b, kept height = some b → height < maxUint32)
    {op : BlockOp} (ha : op.Asserted) {height : Nat} {b : Block}
    (hk : op.keep kept height = some b) : height < maxUint32 := by
  cases op with
  | store b' h =>
      by_cases he : height = h
      · exact he ▸ ha
      · refine hb height b ?_
        rwa [show BlockOp.keep kept (.store b' h) height = kept height from
          Function.update_of_ne he ..] at hk
  | unlink fromHeight =>
      have hk : (if height < fromHeight then kept height else none) = some b := hk
      split at hk
      · exact hb height b hk
      · cases hk

theorem run_keep_bound {kept : Kept} (hb : ∀ height b, kept height = some b → height < maxUint32)
    {ops : List BlockOp} (ha : ∀ op ∈ ops, op.Asserted) :
    ∀ height b, run BlockOp.keep kept ops height = some b → height < maxUint32 :=
  run_of_mem (P := fun kept : Kept => ∀ height b, kept height = some b → height < maxUint32)
    (fun _ _ hb ha _ _ => keep_bound hb ha) ha hb

/-- **Lookup by height agrees with the index exactly where there is no gap**: a block is kept at the
    height, or the height is past the end. -/
theorem lookup_agrees_iff [Core] (buckets : Nat) (stray : BlockResult) {ops : List BlockOp}
    (ha : ∀ op ∈ ops, op.Asserted) (height : Nat) :
    (run BlockOp.apply (create buckets stray) ops).LookupAgrees
        (run BlockOp.keep (fun _ => none) ops) height ↔
      (∃ b, run BlockOp.keep (fun _ => none) ops height = some b) ∨
        run BlockOp.grow 0 ops ≤ height := by
  have h := (create_indexes buckets stray).run ha
  rw [h.lookupAgrees_iff (run_keep_bound (fun _ _ hk => by cases hk) ha), run_count _ ha]
  rfl

/-- A height with a block agrees. -/
theorem outOfOrder_agrees :
    (@run BlockDatabase _ BlockOp.apply (@create Core.sample 3 .sampleStray) outOfOrder).LookupAgrees
      (run BlockOp.keep (fun _ => none) outOfOrder) 3 :=
  (@lookup_agrees_iff Core.sample 3 .sampleStray outOfOrder (by decide) 3).mpr (.inl ⟨_, rfl⟩)

/-- **A gap below the top**: `get` answers a valid result where `exists?` is false. -/
theorem gap_answered :
    ((@run BlockDatabase _ BlockOp.apply (@create Core.sample 3 .sampleStray)
        [.store .sampleGenesis 1]).get 0).isSome = true ∧
      (@run BlockDatabase _ BlockOp.apply (@create Core.sample 3 .sampleStray)
        [.store .sampleGenesis 1]).exists? 0 = false ∧
      ¬ (@run BlockDatabase _ BlockOp.apply (@create Core.sample 3 .sampleStray)
        [.store .sampleGenesis 1]).LookupAgrees
          (run BlockOp.keep (fun _ => none) [.store .sampleGenesis 1]) 0 := by
  have hvalid : ((@run BlockDatabase _ BlockOp.apply (@create Core.sample 3 .sampleStray)
      [.store .sampleGenesis 1]).get 0).isSome = true := by decide +kernel
  have hgap : (@run BlockDatabase _ BlockOp.apply (@create Core.sample 3 .sampleStray)
      [.store .sampleGenesis 1]).exists? 0 = false := by decide +kernel
  refine ⟨hvalid, hgap, fun h => ?_⟩
  have := h.valid_iff.mp hvalid
  rw [hgap] at this
  cases this

end BlockDatabase

end Libbitcoin.Database
