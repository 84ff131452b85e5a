/-
  File:      BitprimDatabase/DataBase/Replaces.lean
  Subject:   **WHEN `reorganize` REPLACES EXACTLY THE SUFFIX**: the chain above the fork point by
             the incoming blocks, and what it popped in the outgoing list, at every failure.

  * `Replaces` -- what the handler may find: the old chain up to a height at or above the fork
    point, then the incoming blocks pushed so far, the rest of the old chain outgoing;
  * `PushedOn` -- what is known between two incoming blocks; the check of a block lets it on top of
    the popped chain only where the pops ended at the height of the fork point;
  * **`replaces_iff`**: `pop_above` pops to the height of the newest slab of the fork hash, and the
    incoming blocks are pushed from the height the caller names. Where the two differ the suffix is
    another one, but for the failures that end the call first.
-/
import BitprimDatabase.DataBase.Linked

namespace Libbitcoin.Database

open Lib

open BlockDatabase (CutAt)

variable [Core]

namespace DataBase

/-! ## 1. The replaced chain -/

omit [Core] in
/-- **What the handler may find** when it is called with a code: the old chain up to a height `t`,
    then the first `n` incoming blocks, and the old blocks above `t` outgoing. -/
structure ReplacedAt (old : DataBase) (r : Reorganization) (s : Reorganizing) (ec : Code)
    (t n : Nat) : Prop where
  fork_le : r.forkPoint.height ≤ t
  lt_count : t < old.blocks.count
  count_eq : s.db.blocks.count = t + 1 + n
  below : ∀ k ≤ t, s.db.blocks.get k = old.blocks.get k
  pushed_le : n ≤ r.incoming.length
  pushed : ∀ i b, i < n → r.incoming[i]? = some b →
    s.db.blocks.get (t + 1 + i) = some ⟨b.header.hash, b.toSlab (t + 1 + i)⟩
  outgoing : List.Forall₂ old.IsBlockAt (List.range' (t + 1) (old.blocks.count - 1 - t)) s.outgoing
  fork_eq : 0 < n → t = r.forkPoint.height
  success : ec = .success → t = r.forkPoint.height ∧ n = r.incoming.length

omit [Core] in
def Replaces (old : DataBase) (r : Reorganization) (s : Reorganizing) (ec : Code) : Prop :=
  ∃ t n, ReplacedAt old r s ec t n

omit [Core] in
/-- What is known before the incoming block at an index is pushed, the pops having ended above the
    height `g`. -/
structure PushedOn (old : DataBase) (r : Reorganization) (g index height : Nat)
    (blocks : BlockDatabase) : Prop where
  height_eq : height = r.forkPoint.height + 1 + index
  count_eq : blocks.count = g + 1 + index
  below : ∀ k ≤ g, blocks.get k = old.blocks.get k
  pushed_le : index ≤ r.incoming.length
  pushed : ∀ i b, i < index → r.incoming[i]? = some b →
    blocks.get (g + 1 + i) = some ⟨b.header.hash, b.toSlab (g + 1 + i)⟩
  fork_eq : 0 < index → g = r.forkPoint.height

section Pushed

variable {old : DataBase} {r : Reorganization} {g : Nat}

/-- The heights the incoming blocks are stored at are below the one the index asserts. -/
def HeightsFit (r : Reorganization) : Prop :=
  ∀ i < r.incoming.length, r.forkPoint.height + 1 + i < maxUint32

omit [Core] in
/-- **One more block.** It is on top, so the pops ended at the fork point. -/
theorem pushedOn_carried (hfit : HeightsFit r) : r.Carried (PushedOn old r g) := by
  intro index height block db hb h hv
  obtain ⟨hi, _⟩ := List.getElem?_eq_some_iff.mp hb
  obtain ⟨_, hcount, _⟩ := verifyPush_success hv
  have hheight := h.height_eq
  have hdb := h.count_eq
  have hlt : height < maxUint32 := hheight ▸ hfit index hi
  have hg : g = r.forkPoint.height := by omega
  have hs : succSize height = height + 1 :=
    Nat.mod_eq_of_lt (by unfold maxSize; unfold maxUint32 at hlt; omega)
  refine ⟨?_, ?_, fun k hk => ?_, hi, fun i b hib hib' => ?_, fun _ => hg⟩
  · omega
  · rw [BlockDatabase.store_count db.blocks block hlt]
    omega
  · rw [BlockDatabase.store_get_lt db.blocks block hlt (by omega) (by omega)]
    exact h.below k hk
  · rcases Nat.lt_or_eq_of_le (Nat.le_of_lt_succ hib) with hlti | rfl
    · rw [BlockDatabase.store_get_lt db.blocks block hlt (by omega) (by omega)]
      exact h.pushed i b hlti hib'
    · cases hb.symm.trans hib'
      rw [show g + 1 + i = height by omega]
      exact BlockDatabase.store_get_same db.blocks block hlt

omit [Core] in
/-- The chain cut off above a height is the old one below it. -/
theorem pushedOn_start {blocks : BlockDatabase} (hcut : CutAt old.blocks blocks (g + 1)) :
    PushedOn old r g 0 (r.forkPoint.height + 1) blocks where
  height_eq := rfl
  count_eq := hcut.count_eq
  below _ hk := hcut.get_eq (Nat.lt_succ_of_le hk)
  pushed_le := Nat.zero_le _
  pushed i _ hi := absurd hi (Nat.not_lt_zero i)
  fork_eq h := absurd h (Nat.lt_irrefl 0)

omit [Core] in
theorem PushedOn.replacedAt {s : Reorganizing} {index height : Nat} {ec : Code}
    (h : PushedOn old r g index height s.db.blocks) (hle : r.forkPoint.height ≤ g)
    (hlt : g < old.blocks.count) (hout : List.Forall₂ old.IsBlockAt
      (List.range' (g + 1) (old.blocks.count - 1 - g)) s.outgoing)
    (hsucc : ec = .success → g = r.forkPoint.height ∧ index = r.incoming.length) :
    ReplacedAt old r s ec g index :=
  ⟨hle, hlt, h.count_eq, h.below, h.pushed_le, h.pushed, hout, h.fork_eq, hsucc⟩

end Pushed

/-! ## 2. What a reorganization comes to -/

/-- The height of the newest slab of the fork hash, and whether what is above can be popped. -/
def SuffixSound (db : DataBase) (r : Reorganization) : Prop :=
  db.store.beginWrite.2 = false ∨
    match db.forkOf r.forkPoint.hash with
    | none => True
    | some fork =>
      fork = r.forkPoint.height ∨ db.blocks.count ≤ fork ∨
        (r.forkPoint.height < fork ∧ (r.incoming ≠ [] ∨ ¬ db.Poppable fork ∨
          (db.store.flushEachWrite = true ∧ db.flushes = false))) ∨
        (fork < r.forkPoint.height ∧
          (¬ db.Poppable (r.forkPoint.height - 1) ∨ db.GapThrows fork))

/-- **The suffix is replaced exactly**, whatever the outcome and the order of the tasks. -/
def ReplacesSuffix (db : DataBase) (r : Reorganization) : Prop :=
  ∀ schedule, ∀ call ∈ (r.after db schedule).calls,
    Replaces db r (r.after db schedule) call.code

/-- **What `pop_above` comes to** where the fork point looked up is on or below the top: `k` blocks
    popped, as many as can be; it throws where the next one is a gap that cannot be reserved. -/
theorem popAbove_fork {db : DataBase} {forkHash : HashDigest} {g : Nat}
    (hf : db.forkOf forkHash = some g) (hg : g < db.blocks.count) :
    ∃ k ≤ db.blocks.count - 1 - g,
      ((db.popAbove forkHash).2.2 = some .success ↔ k = db.blocks.count - 1 - g) ∧
      ((db.popAbove forkHash).2.2 = none ↔ db.GapThrows g) ∧
      CutAt db.blocks (db.popAbove forkHash).1.blocks (db.blocks.count - k) ∧
      List.Forall₂ db.IsBlockAt (List.range' (db.blocks.count - k) k)
        (db.popAbove forkHash).2.1 ∧
      ∀ h, g ≤ h → h < db.blocks.count → (db.Poppable h ↔ db.blocks.count - 1 - h ≤ k) := by
  -- the loop over no blocks at the top
  have hloop : db.popAbove forkHash = popBlocks (db.blocks.count - 1 - g) db [] := by
    rw [popAbove_eq, hf]
    dsimp only
    split
    · rw [show db.blocks.count - 1 - g = 0 by omega]
      rfl
    · rw [if_neg (by omega)]
  obtain ⟨k, hk, hcut, hcode, popped, hout, hall⟩ :=
    @popBlocks_cut _ (db.blocks.count - 1 - g) db [] (by omega)
  rw [List.append_nil] at hout
  rw [hloop]
  refine ⟨k, hk, ?_, popBlocks_throws_iff [] (by omega), hcut, hout ▸ hall, fun h hgh hlt => ?_⟩
  · rw [hcode _ (Nat.le_refl _)]
    omega
  · rw [← (@popBlocks_spec _ (db.blocks.count - 1 - h) h db [] (by omega)).1]
    exact hcode _ (by omega)

/-- Pops that succeed leave the locks. -/
theorem popAbove_locks {db : DataBase} {forkHash : HashDigest}
    (hs : (db.popAbove forkHash).2.2 = some .success) :
    (db.popAbove forkHash).1.store = db.store ∧ (db.popAbove forkHash).1.flushes = db.flushes := by
  refine popAbove_keeps (P := fun d => d.store = db.store ∧ d.flushes = db.flushes)
    (fun d out h hp => ?_) ⟨rfl, rfl⟩ hs
  obtain ⟨_, _, _, hpop⟩ := (d.pop_spec out).2 hp
  exact ⟨hpop.store_eq.trans h.1, hpop.flushes_eq.trans h.2⟩

/-- Without incoming blocks the handler is called with what `end_write` answers. -/
theorem reorganize_empty {db : DataBase} {r : Reorganization} (hnil : r.incoming = [])
    (hheight : r.forkPoint.height < maxSize) (hbegin : db.store.beginWrite.2 = true)
    (hcode : ((Reorganization.begun db).popAbove r.forkPoint.hash).2.2 = some .success) :
    (r.reorganize db).calls = [⟨if db.store.flushEachWrite = true ∧ db.flushes = false
      then .operationFailed else .success, false⟩] := by
  obtain ⟨hstore, hflushes⟩ := popAbove_locks hcode
  have hodd : Store.isWriteLocked db.store.beginWrite.1.sequence = true := by
    rw [Store.beginWrite_eq] at hbegin
    rw [Store.beginWrite_sequence, Store.isWriteLocked_succ]
    exact hbegin
  have hfinish : ((Reorganization.begun db).popAbove r.forkPoint.hash).1.finish.2 =
      if db.store.flushEachWrite = true ∧ db.flushes = false then .operationFailed else .success := by
    unfold finish
    rw [hstore, hflushes]
    unfold Reorganization.begun
    dsimp only
    rw [Store.endWrite_eq hodd, Store.beginWrite_eq]
    cases db.store.flushEachWrite <;> cases db.flushes <;> rfl
  rw [← hfinish]
  have hnext : safeAdd r.forkPoint.height 1 = some (r.forkPoint.height + 1) :=
    if_neg (by omega)
  unfold Reorganization.begun at hcode ⊢
  unfold Reorganization.reorganize
  rw [hnext]
  rcases hb : db.store.beginWrite with ⟨store, result⟩
  rw [hb] at hcode hbegin
  cases hbegin
  dsimp only at hcode ⊢
  rcases hpop : DataBase.popAbove { db with store := store } r.forkPoint.hash with
    ⟨db', outgoing, code⟩
  rw [hpop] at hcode
  cases hcode
  dsimp only [Reorganization.handlePop, Reorganization.pushNext]
  rw [if_pos (.inr (by rw [hnil]; exact Nat.le_refl 0))]
  rfl

section Misplaced

variable {db : DataBase} {r : Reorganization} {g : Nat} {outgoing : List Block}

/-- Where the pops ended at another height no incoming block is pushed: the next one is refused. -/
theorem misplaced_phase (hne : g ≠ r.forkPoint.height) {s : Reorganizing}
    (h : r.Phase (PushedOn db r g) outgoing s) :
    (∃ ec, s.Completed ec ∧ s.db.blocks.count = g + 1 ∧ (ec = .success → r.incoming = [])) ∨
      s.calls = [] ∧ ∃ ec, (r.step s 0).Completed ec ∧ (r.step s 0).db.blocks.count = g + 1 := by
  cases h with
  | completed ec index height hc hout hQ hall =>
      have h0 : index = 0 := by
        by_contra hpos
        exact hne (hQ.fork_eq (Nat.pos_of_ne_zero hpos))
      subst h0
      exact .inl ⟨ec, hc, hQ.count_eq, fun he => List.eq_nil_of_length_eq_zero
        (Nat.le_zero.mp (hall he))⟩
  | tasks index height join block hb hbusy hp hpos hjoin hv hQ =>
      obtain ⟨_, hcount, _⟩ := verifyPush_success hv
      have h₁ := hQ.count_eq
      have h₂ := hQ.height_eq
      omega
  | pushing index height block hb hbusy hp hQ =>
      have hrefused : s.db.verifyPush block height ≠ .success := by
        intro hv
        obtain ⟨_, hcount, _⟩ := verifyPush_success hv
        have h₁ := hQ.count_eq
        have h₂ := hQ.height_eq
        omega
      have h0 : index = 0 := by
        by_contra hpos
        exact hne (hQ.fork_eq (Nat.pos_of_ne_zero hpos))
      subst h0
      have hstep : r.step s 0 = Reorganizing.handlePush { s with pending := [] }
          (s.db.verifyPush block height) := by
        unfold Reorganization.step
        simp only [hp, List.getElem?_cons_zero, hb]
        rw [show ([Task.doPush 0 height] : List Task).eraseIdx 0 = [] from rfl,
          Reorganization.doPush_refused (s := { s with pending := [] }) hrefused,
          Reorganization.pushNext, if_pos (.inl hrefused)]
      have hidle : Reorganizing.Busy { s with pending := [] } outgoing :=
        ⟨hbusy.1, hbusy.2, hbusy.3⟩
      obtain ⟨ec, hc, _, _, hblocks⟩ :=
        Reorganizing.handlePush_spec hidle rfl (s.db.verifyPush block height)
      refine .inr ⟨hbusy.calls, ec, hstep ▸ hc, ?_⟩
      rw [hstep, hblocks]
      exact hQ.count_eq

end Misplaced

/-! ## 3. The exact condition -/

section Exact

variable {db : DataBase} {r : Reorganization}

/-- A call that is over when `reorganize` returns. -/
theorem replacesSuffix_of_completed {ec : Code} (hc : (r.reorganize db).Completed ec) :
    db.ReplacesSuffix r ↔ Replaces db r (r.reorganize db) ec := by
  constructor
  · intro h
    refine h [] ⟨ec, false⟩ ?_
    rw [show r.after db [] = r.reorganize db from rfl, hc.calls]
    exact List.mem_singleton_self _
  · intro h schedule call hm
    rw [Reorganization.after_of_idle hc.pending] at hm ⊢
    rw [hc.calls, List.mem_singleton] at hm
    rw [hm]
    exact h

omit [Core] in
/-- With `k` blocks popped and none pushed, what is left reaches down to the fork point or not. -/
theorem replaces_popped_iff {s : Reorganizing} {k : Nat} {ec : Code} (hne : ec ≠ .success)
    (hk : k < db.blocks.count) (hcut : CutAt db.blocks s.db.blocks (db.blocks.count - k))
    (hout : List.Forall₂ db.IsBlockAt (List.range' (db.blocks.count - k) k) s.outgoing) :
    Replaces db r s ec ↔ r.forkPoint.height < db.blocks.count - k := by
  have hcount := hcut.count_eq
  constructor
  · rintro ⟨t, n, h⟩
    have h₁ := h.fork_le
    have h₂ := h.count_eq
    omega
  · intro hlt
    refine ⟨db.blocks.count - k - 1, 0, ?_⟩
    have hcut : CutAt db.blocks s.db.blocks (db.blocks.count - k - 1 + 1) := by
      rw [Nat.sub_add_cancel (by omega)]
      exact hcut
    refine (pushedOn_start (r := r) hcut).replacedAt (by omega) (by omega) ?_
      (fun he => absurd he hne)
    rw [show db.blocks.count - k - 1 + 1 = db.blocks.count - k by omega,
      show db.blocks.count - 1 - (db.blocks.count - k - 1) = k by omega]
    exact hout

/-- The pops ended where the caller's heights begin. -/
theorem replacesSuffix_of_phase {outgoing : List Block} (hfit : HeightsFit r)
    (hlt : r.forkPoint.height < db.blocks.count)
    (hout : List.Forall₂ db.IsBlockAt (List.range' (r.forkPoint.height + 1)
      (db.blocks.count - 1 - r.forkPoint.height)) outgoing)
    (h : r.Phase (PushedOn db r r.forkPoint.height) outgoing (r.reorganize db)) :
    db.ReplacesSuffix r := by
  intro schedule call hm
  cases h.after (pushedOn_carried hfit) schedule with
  | pushing index height block hb hbusy hp hQ =>
      rw [hbusy.calls] at hm
      cases hm
  | tasks index height join block hb hbusy hp hne hjoin hv hQ =>
      rw [hbusy.calls] at hm
      cases hm
  | completed ec index height hc houtgoing hQ hall =>
      rw [hc.calls, List.mem_singleton] at hm
      subst hm
      refine ⟨_, index, hQ.replacedAt (Nat.le_refl _) hlt (houtgoing ▸ hout) fun he => ⟨rfl, ?_⟩⟩
      exact Nat.le_antisymm hQ.pushed_le (hall he)

/-- The pops ended at another height: nothing is pushed, and it is the height and the code that
    decide. -/
theorem replacesSuffix_misplaced {g : Nat} {outgoing : List Block}
    (hfit : HeightsFit r) (hne : g ≠ r.forkPoint.height) (hg : g < db.blocks.count)
    (hout : List.Forall₂ db.IsBlockAt (List.range' (g + 1) (db.blocks.count - 1 - g)) outgoing)
    (h : r.Phase (PushedOn db r g) outgoing (r.reorganize db)) :
    db.ReplacesSuffix r ↔ r.forkPoint.height < g ∧ ⟨.success, false⟩ ∉ (r.reorganize db).calls := by
  have hphase (schedule : List Nat) := h.after (pushedOn_carried hfit) schedule
  have hpushed {index height : Nat} {blocks : BlockDatabase}
      (hQ : PushedOn db r g index height blocks) : index = 0 := by
    by_contra hpos
    exact hne (hQ.fork_eq (Nat.pos_of_ne_zero hpos))
  constructor
  · intro hr
    -- some state has called the handler, with the chain cut off above `g`
    have hsome : ∃ schedule ec, (r.after db schedule).calls = [⟨ec, false⟩] ∧
        (r.after db schedule).db.blocks.count = g + 1 := by
      rcases misplaced_phase hne h with ⟨ec, hc, hcount, _⟩ | ⟨_, ec, hc, hcount⟩
      · exact ⟨[], ec, hc.calls, hcount⟩
      · exact ⟨[0], ec, hc.calls, hcount⟩
    obtain ⟨schedule, ec, hcalls, hcount⟩ := hsome
    obtain ⟨t, n, ht⟩ := hr schedule ⟨ec, false⟩ (by rw [hcalls]; exact List.mem_singleton_self _)
    have h₁ := ht.fork_le
    have h₂ := ht.count_eq
    have h₃ := ht.fork_eq
    have hn : n = 0 ∨ 0 < n := Nat.eq_zero_or_pos n
    have hlt : r.forkPoint.height < g := by
      omega
    refine ⟨hlt, fun hm => ?_⟩
    cases h with
    | pushing index height block hb hbusy hp hQ =>
        rw [hbusy.calls] at hm
        cases hm
    | tasks index height join block hb hbusy hp hpos hjoin hv hQ =>
        rw [hbusy.calls] at hm
        cases hm
    | completed ec index height hc houtgoing hQ hall =>
        have h0 := hpushed hQ
        rw [hc.calls, List.mem_singleton] at hm
        cases hm
        obtain ⟨t', n', ht'⟩ := hr [] ⟨.success, false⟩ (hc.calls ▸ List.mem_singleton_self _)
        obtain ⟨h₄, h₅⟩ := ht'.success rfl
        have h₆ : (r.reorganize db).db.blocks.count = t' + 1 + n' := ht'.count_eq
        have h₇ := hQ.count_eq
        have h₈ := hall rfl
        omega
  · intro ⟨hlt, hnot⟩ schedule call hm
    cases hphase schedule with
    | pushing index height block hb hbusy hp hQ =>
        rw [hbusy.calls] at hm
        cases hm
    | tasks index height join block hb hbusy hp hpos hjoin hv hQ =>
        rw [hbusy.calls] at hm
        cases hm
    | completed ec index height hc houtgoing hQ hall =>
        rw [hc.calls, List.mem_singleton] at hm
        subst hm
        have h0 := hpushed hQ
        refine ⟨g, index, hQ.replacedAt (Nat.le_of_lt hlt) hg (houtgoing ▸ hout) fun he => ?_⟩
        -- a success without a push is the answer of the call itself
        have hnil : r.incoming = [] := List.eq_nil_of_length_eq_zero (by
          have := hall he
          omega)
        have hidle : (r.reorganize db).pending = [] := by
          cases h with
          | pushing index height block hb =>
              rw [hnil] at hb
              cases hb
          | tasks index height join block hb =>
              rw [hnil] at hb
              cases hb
          | completed ec' index height hc' => exact hc'.pending
        rw [Reorganization.after_of_idle hidle] at hc
        exact absurd (by rw [hc.calls, ← he]; exact List.mem_singleton_self _) hnot

/-- A call that fails with nothing popped. -/
theorem replacesSuffix_unpopped (hf : r.forkPoint.height < db.blocks.count)
    (hc : (r.reorganize db).Completed .operationFailed) (hblocks : (r.reorganize db).db.blocks = db.blocks)
    (hout : (r.reorganize db).outgoing = []) : db.ReplacesSuffix r := by
  have hsame : CutAt db.blocks (r.reorganize db).db.blocks (db.blocks.count - 0) :=
    hblocks.symm ▸ .refl _
  refine (replacesSuffix_of_completed hc).mpr
    ((replaces_popped_iff Code.noConfusion (by omega) hsame ?_).mpr hf)
  rw [hout]
  exact .nil

/-- `begin_write` refuses. -/
theorem replacesSuffix_refused (hf : r.forkPoint.height < db.blocks.count)
    (hheight : r.forkPoint.height < maxSize) (hout : r.outgoing = [])
    (hbegin : db.store.beginWrite.2 = false) : db.ReplacesSuffix r := by
  have hcases := r.reorganize_cases (Q := fun _ _ _ => True) db hheight fun _ => trivial
  rcases hcases with ⟨_, hc, houtgoing, hblocks⟩ | ⟨htrue, _⟩
  · exact replacesSuffix_unpopped hf hc hblocks (houtgoing.trans hout)
  · rw [hbegin] at htrue
    cases htrue

/-- No fork point is looked up: the error of `pop_above`. -/
theorem replacesSuffix_missing (hf : r.forkPoint.height < db.blocks.count)
    (hheight : r.forkPoint.height < maxSize) (hbegin : db.store.beginWrite.2 = true)
    (hfork : db.forkOf r.forkPoint.hash = none) : db.ReplacesSuffix r := by
  have hpop : DataBase.popAbove (Reorganization.begun db) r.forkPoint.hash =
      (Reorganization.begun db, [], some .operationFailed) := by
    rw [popAbove_eq, show (Reorganization.begun db).forkOf r.forkPoint.hash = none from hfork]
  have hcases := r.reorganize_cases (Q := fun _ _ _ => True) db hheight fun _ => trivial
  rw [hpop, hbegin] at hcases
  obtain ⟨hfalse, _⟩ | ⟨_, hc, houtgoing, hblocks⟩ := hcases
  · cases hfalse
  · exact replacesSuffix_unpopped hf hc hblocks houtgoing

/-- `pop_above` throws: the handler is not called. -/
theorem replacesSuffix_throws (hheight : r.forkPoint.height < maxSize)
    (hbegin : db.store.beginWrite.2 = true)
    (hpop : ((Reorganization.begun db).popAbove r.forkPoint.hash).2.2 = none) :
    db.ReplacesSuffix r := by
  have hcases := r.reorganize_cases (Q := fun _ _ _ => True) db hheight fun _ => trivial
  rw [hpop, hbegin] at hcases
  obtain ⟨hfalse, _⟩ | ⟨_, hpending, hcalls, _⟩ := hcases
  · cases hfalse
  · intro schedule call hm
    rw [Reorganization.after_of_idle hpending, hcalls] at hm
    cases hm

/-- A pop failed: `k` blocks are popped, and none is pushed. -/
theorem replacesSuffix_failed {k : Nat} {ec : Code} (hheight : r.forkPoint.height < maxSize)
    (hbegin : db.store.beginWrite.2 = true)
    (hec : ((Reorganization.begun db).popAbove r.forkPoint.hash).2.2 = some ec)
    (hne : ec ≠ .success) (hk : k < db.blocks.count)
    (hcut : CutAt db.blocks ((Reorganization.begun db).popAbove r.forkPoint.hash).1.blocks
      (db.blocks.count - k))
    (hall : List.Forall₂ db.IsBlockAt (List.range' (db.blocks.count - k) k)
      ((Reorganization.begun db).popAbove r.forkPoint.hash).2.1) :
    db.ReplacesSuffix r ↔ r.forkPoint.height < db.blocks.count - k := by
  have hcases := r.reorganize_cases (Q := fun _ _ _ => True) db hheight fun _ => trivial
  rw [hec, hbegin] at hcases
  obtain ⟨hfalse, _⟩ | ⟨_, hfailed⟩ := hcases
  · cases hfalse
  have hfailed : (r.reorganize db).Completed ec ∧ (r.reorganize db).outgoing =
      ((Reorganization.begun db).popAbove r.forkPoint.hash).2.1 ∧
      (r.reorganize db).db.blocks =
        ((Reorganization.begun db).popAbove r.forkPoint.hash).1.blocks := by
    cases ec with
    | success => exact absurd rfl hne
    | _ => exact hfailed
  obtain ⟨hc, houtgoing, hblocks⟩ := hfailed
  rw [replacesSuffix_of_completed hc]
  exact replaces_popped_iff hne hk (hblocks.symm ▸ hcut) (houtgoing.symm ▸ hall)

/-- Every block above `g` is popped. -/
theorem replacesSuffix_popped {g : Nat} (hf : r.forkPoint.height < db.blocks.count)
    (hheight : r.forkPoint.height < maxSize) (hfit : HeightsFit r)
    (hbegin : db.store.beginWrite.2 = true) (hg : g < db.blocks.count)
    (hec : ((Reorganization.begun db).popAbove r.forkPoint.hash).2.2 = some .success)
    (hcut : CutAt db.blocks ((Reorganization.begun db).popAbove r.forkPoint.hash).1.blocks (g + 1))
    (hall : List.Forall₂ db.IsBlockAt (List.range' (g + 1) (db.blocks.count - 1 - g))
      ((Reorganization.begun db).popAbove r.forkPoint.hash).2.1) :
    db.ReplacesSuffix r ↔ g = r.forkPoint.height ∨ (r.forkPoint.height < g ∧
      (r.incoming ≠ [] ∨ (db.store.flushEachWrite = true ∧ db.flushes = false))) := by
  have hcases := r.reorganize_cases (Q := PushedOn db r g) db hheight fun _ => pushedOn_start hcut
  rw [hec, hbegin] at hcases
  obtain ⟨hfalse, _⟩ | ⟨_, hphase⟩ := hcases
  · cases hfalse
  by_cases hgf : g = r.forkPoint.height
  · subst hgf
    exact iff_of_true (replacesSuffix_of_phase hfit hf hall hphase) (.inl rfl)
  rw [replacesSuffix_misplaced hfit hgf hg hall hphase, or_iff_right hgf]
  refine and_congr_right fun _ => ?_
  by_cases hnil : r.incoming = []
  · rw [reorganize_empty hnil hheight hbegin hec, or_iff_right (not_not.mpr hnil)]
    by_cases hflush : db.store.flushEachWrite = true ∧ db.flushes = false
    · refine iff_of_true ?_ hflush
      rw [if_pos hflush, List.mem_singleton]
      nofun
    · refine iff_of_false (fun h => h ?_) hflush
      rw [if_neg hflush]
      exact List.mem_singleton_self _
  · refine iff_of_true (fun hm => ?_) (.inl hnil)
    rcases misplaced_phase hgf hphase with ⟨ec, hc, _, hempty⟩ | ⟨hcalls, _⟩
    · rw [hc.calls, List.mem_singleton] at hm
      cases hm
      exact hnil (hempty rfl)
    · rw [hcalls] at hm
      cases hm

/-- The fork point looked up is at a height of the chain. -/
theorem replacesSuffix_found {g : Nat} (hf : r.forkPoint.height < db.blocks.count)
    (hheight : r.forkPoint.height < maxSize) (hfit : HeightsFit r)
    (hbegin : db.store.beginWrite.2 = true) (hfork : db.forkOf r.forkPoint.hash = some g)
    (hg : g < db.blocks.count) :
    db.ReplacesSuffix r ↔ g = r.forkPoint.height ∨
      (r.forkPoint.height < g ∧ (r.incoming ≠ [] ∨ ¬ db.Poppable g ∨
        (db.store.flushEachWrite = true ∧ db.flushes = false))) ∨
      (g < r.forkPoint.height ∧ (¬ db.Poppable (r.forkPoint.height - 1) ∨ db.GapThrows g)) := by
  obtain ⟨k, hk, hsucc, hthrows, hcut, hall, hpop⟩ :=
    popAbove_fork (show (Reorganization.begun db).forkOf r.forkPoint.hash = some g from hfork) hg
  have hcut : CutAt db.blocks ((Reorganization.begun db).popAbove r.forkPoint.hash).1.blocks
      (db.blocks.count - k) := hcut
  have hk : k ≤ db.blocks.count - 1 - g := hk
  have hpop (h : Nat) (hgh : g ≤ h) (hlt : h < db.blocks.count) :
      db.Poppable h ↔ db.blocks.count - 1 - h ≤ k := Poppable.begun.symm.trans (hpop h hgh hlt)
  have hall : List.Forall₂ db.IsBlockAt (List.range' (db.blocks.count - k) k)
      ((Reorganization.begun db).popAbove r.forkPoint.hash).2.1 := hall
  rw [DataBase.GapThrows.begun] at hthrows
  have hpoppable := hpop g (Nat.le_refl g) hg
  rcases hec : ((Reorganization.begun db).popAbove r.forkPoint.hash).2.2 with _ | ec
  · -- a pop threw above `g`
    have hgap := hthrows.mp hec
    have hne : ¬ db.Poppable g := fun h => by
      rw [hsucc.mpr (Nat.le_antisymm hk (hpoppable.mp h))] at hec
      cases hec
    refine iff_of_true (replacesSuffix_throws hheight hbegin hec) ?_
    rcases Nat.lt_trichotomy g r.forkPoint.height with hlt | heq | hlt
    · exact .inr (.inr ⟨hlt, .inr hgap⟩)
    · exact .inl heq
    · exact .inr (.inl ⟨hlt, .inr (.inl hne)⟩)
  have hnot : ¬ db.GapThrows g := fun h => by
    rw [hthrows.mpr h] at hec
    cases hec
  by_cases he : ec = .success
  · -- every block above `g` is popped
    subst he
    have hend : k = db.blocks.count - 1 - g := hsucc.mp hec
    rw [show db.blocks.count - k = g + 1 by omega] at hcut hall
    rw [replacesSuffix_popped hf hheight hfit hbegin hg hec hcut (hend ▸ hall),
      or_iff_right (not_not.mpr (hpoppable.mpr (Nat.le_of_eq hend.symm)))]
    refine or_congr_right (or_iff_left ?_).symm
    rintro ⟨hlt, h | h⟩
    · exact h ((hpop _ (by omega) (by omega)).mpr (by omega))
    · exact hnot h
  · -- a pop failed above `g`
    have hend : k ≠ db.blocks.count - 1 - g := fun h =>
      he (Option.some.inj (hec.symm.trans (hsucc.mpr h)))
    rw [replacesSuffix_failed hheight hbegin hec he (by omega) hcut hall]
    rcases Nat.lt_trichotomy g r.forkPoint.height with hlt | heq | hlt
    · rw [hpop (r.forkPoint.height - 1) (by omega) (by omega)]
      constructor
      · exact fun h => .inr (.inr ⟨hlt, .inl (by omega)⟩)
      · rintro (h | ⟨h, _⟩ | ⟨_, h | h⟩)
        · omega
        · omega
        · omega
        · exact absurd h hnot
    · exact iff_of_true (by omega) (.inl heq)
    · exact iff_of_true (by omega) (.inr (.inl ⟨hlt, .inr (.inl (mt hpoppable.mp (by omega)))⟩))

/-- **`reorganize` replaces exactly the suffix above the fork point**, for every outcome and every
    order of its tasks, exactly where the newest slab of the fork hash is at the height the caller
    names, or the call fails before the difference shows: `begin_write` refuses, no such slab is
    found, it is above the top (and `reserve` throws), incoming blocks are refused above it, the
    pops end early enough, or one of them throws at a gap. -/
theorem replaces_iff (hout : r.outgoing = []) (hat : db.HashAt r.forkPoint.hash r.forkPoint.height)
    (hfit : HeightsFit r) : db.ReplacesSuffix r ↔ db.SuffixSound r := by
  have hf := hat.lt
  have hheight : r.forkPoint.height < maxSize := by
    have := db.blocks.count_le
    unfold maxSize
    unfold maxUint32 at this
    omega
  unfold SuffixSound
  cases hbegin : db.store.beginWrite.2 with
  | false => exact iff_of_true (replacesSuffix_refused hf hheight hout hbegin) (.inl rfl)
  | true =>
      rw [or_iff_right Bool.noConfusion]
      cases hfork : db.forkOf r.forkPoint.hash with
      | none => exact iff_of_true (replacesSuffix_missing hf hheight hbegin hfork) trivial
      | some g =>
          dsimp only
          by_cases hg : g < db.blocks.count
          · rw [replacesSuffix_found hf hheight hfit hbegin hfork hg,
              or_iff_right (a := db.blocks.count ≤ g) (Nat.not_le.mpr hg)]
          · have hg := Nat.le_of_not_lt hg
            have hpop := popAbove_throws_iff
              (show (Reorganization.begun db).forkOf r.forkPoint.hash = some g from hfork)
            exact iff_of_true (replacesSuffix_throws hheight hbegin (hpop.mpr (.inl hg)))
              (.inr (.inl hg))

end Exact

/-! ## 4. Two heights for one hash -/

/-- The second block, of a coinbase only. -/
def coinbaseBlock : Block := .sample 2 1 [.sampleCoinbase 201 2]

omit [Core] in
/-- A block is pushed, and the next reorganization replaces it. -/
theorem pushedBlock_replaced :
    @ReplacesSuffix Core.sample (@push Core.sample sample coinbaseBlock 1).1
      ⟨⟨1, 0⟩, [.sample 3 1 [.sampleCoinbase 301 3]], [], 2, by decide⟩ := by
  refine (@replaces_iff Core.sample _ _ rfl ?_ ?_).mpr (.inr ?_)
  · have h : ((@push Core.sample sample coinbaseBlock 1).1.blocks.get 0).map BlockResult.hash =
        some 1 := by decide +kernel
    obtain ⟨result, hr, he⟩ := Option.map_eq_some_iff.mp h
    exact ⟨result, hr, he⟩
  · intro i hi
    cases Nat.lt_one_iff.mp hi
    decide
  · rw [show (@push Core.sample sample coinbaseBlock 1).1.forkOf 1 = some 0 by decide +kernel]
    exact .inl rfl

/-- The second block inserted at two heights. -/
def insertedTwice : DataBase :=
  (@insert Core.sample (@insert Core.sample sample coinbaseBlock 1).1 coinbaseBlock 2).1

omit [Core] in
/-- **The fork point at the lower one of the two heights**: nothing is popped, and the handler is
    called with success. -/
theorem insertedTwice_kept :
    (@insert Core.sample sample coinbaseBlock 1).2 = .success ∧
      (@insert Core.sample (@insert Core.sample sample coinbaseBlock 1).1 coinbaseBlock 2).2 =
        .success ∧
      insertedTwice.HashAt 2 1 ∧
      ¬ @ReplacesSuffix Core.sample insertedTwice ⟨⟨2, 1⟩, [], [], 1, by decide⟩ := by
  refine ⟨by decide +kernel, by decide +kernel, ?_, fun h => ?_⟩
  · have h : (insertedTwice.blocks.get 1).map BlockResult.hash = some 2 := by decide +kernel
    obtain ⟨result, hr, he⟩ := Option.map_eq_some_iff.mp h
    exact ⟨result, hr, he⟩
  · have hcalls : (@Reorganization.after Core.sample ⟨⟨2, 1⟩, [], [], 1, by decide⟩ insertedTwice
        []).calls = [⟨.success, false⟩] := by decide +kernel
    have hcount : (@Reorganization.after Core.sample ⟨⟨2, 1⟩, [], [], 1, by decide⟩ insertedTwice
        []).db.blocks.count = 3 := by decide +kernel
    obtain ⟨t, n, ht⟩ := h [] ⟨.success, false⟩ (by rw [hcalls]; exact List.mem_singleton_self _)
    obtain ⟨h₁, h₂⟩ := ht.success rfl
    have h₃ := hcount.symm.trans ht.count_eq
    have h₄ : n = 0 := h₂
    have h₅ : t = 1 := h₁
    omega

end DataBase

end Libbitcoin.Database
