/-
  File:      BitprimDatabase/Primitives/MappedProgress.lean
  Subject:   **EVERY ROW GETS WRITTEN** (memory_map.cpp, record_manager.cpp, record_multimap.ipp): the
             threads that write rows through a mapping that moves do not lock each other out, and
             are done after a number of turns that only depends on their calls.

  * `CanMove`, `Full` -- a turn a thread can take; a remap that the disk has no room for;
  * `writes_move`, `managing_moves` -- who holds an address writes through it, who is in the manager
    goes on, or waits for those that write;
  * `left`, `turns_le` -- every turn takes one off what is left, a call adds what it takes;
  * **`rows_complete`** -- no deadlock, and a bound on the turns of every run.
-/
import Mathlib.Algebra.BigOperators.Fin
import BitprimDatabase.Primitives.MappedRows

namespace Libbitcoin.Database

open Lib

namespace MappedRows

variable {recordSize n : Nat} {p : Platform} {s s' : MappedRows recordSize n} {i j : Fin n}
  {op : Appending} {stage : AppendStage}

/-! ## 1. Who can move -/

/-- The thread can take a step, return, or have the file remapped wherever the system puts it. -/
def CanMove (p : Platform) (s : MappedRows recordSize n) (j : Fin n) : Prop :=
  (s.act p (.step j)).isSome ∨ (s.act p (.answer j)).isSome ∨ ∀ data, (s.act p (.remap j data)).isSome

/-- A thread has to grow the file, and the disk has no room. -/
def Full (p : Platform) (s : MappedRows recordSize n) : Prop :=
  (∃ j op, s.doing j = some (op, .remap)) ∧ p.disk < p.expand s.size s.manager.file.expansion

theorem step_isSome (hd : s.doing j = some (op, stage)) (h : (s.stepFrom j op stage).isSome) :
    CanMove p s j := by
  refine .inl ?_
  unfold MappedRows.act
  dsimp only
  rw [hd]
  exact h

/-- Outside the manager a thread shares the lock at most. -/
theorem mode_of_not_managing (access : Access) (h : stage.managing = false) :
    stage.mode access = none ∨ stage.mode access = some .shared := by
  cases stage with
  | writeRow _ _ _ =>
      unfold AppendStage.mode
      dsimp only
      split
      · exact .inr rfl
      · exact .inl rfl
  | writeLink _ _ => exact .inr rfl
  | dropRow _ _ => exact .inr rfl
  | lockManager => exact .inl rfl
  | getLink _ => exact .inl rfl
  | getRow _ => exact .inl rfl
  | done _ => exact .inl rfl
  | _ => cases h

theorem RowsInv.lock_eq (h : RowsInv s) (hd : s.doing j = some (op, stage)) :
    s.lock j = stage.mode op.access := by
  rw [h.lock j, hd]
  rfl

/-- A thread gives a lock back at once. -/
theorem RowsInv.unlock_isSome (h : RowsInv s) (hl : s.lock j = some .shared) :
    (s.lock.unlockShared j).isSome :=
  h.sound.weaken_isSome hl fun _ _ => rfl

/-- A thread outside the manager, or in none, is beside one that upgrades. -/
theorem RowsInv.beside_upgrade (h : RowsInv s) (hj : inManager (s.doing j) = true) {u : Fin n}
    (hu : u ≠ j) : Mode.beside (some .upgrade) (s.lock u) = true := by
  have hout := h.manager_alone hj hu
  cases hd : s.doing u with
  | none =>
      rw [h.lock u, hd]
      rfl
  | some r =>
      rw [hd] at hout
      rw [h.lock_eq hd]
      rcases mode_of_not_managing _ hout with hm | hm <;> rw [hm] <;> rfl

/-- A thread that writes a row goes on. -/
theorem RowsInv.writeRow_moves (h : RowsInv s) (hsteady : s.Steady (.step j))
    {record address k : Nat} (hd : s.doing j = some (op, .writeRow record address k)) :
    CanMove p s j := by
  refine step_isSome hd ?_
  unfold MappedRows.stepFrom
  dsimp only
  rcases Nat.lt_or_ge k op.row.length with hlt | hge
  · rw [List.getElem?_eq_getElem hlt]
    dsimp only
    rw [(h.pokeRow_eq hd hsteady hlt _).2]
    rfl
  · rw [List.getElem?_eq_none hge]
    dsimp only
    split
    · rename_i ha
      exact Option.isSome_map.trans (h.unlock_isSome ((h.lock_eq hd).trans (if_pos ha)))
    · rfl

/-- **A thread with an address writes through it**, or gives the lock back. -/
theorem RowsInv.writes_move (h : RowsInv s) (hsteady : s.Steady (.step j))
    (hd : s.doing j = some (op, stage)) (hl : s.lock j = some .shared)
    (hout : stage.managing = false) : CanMove p s j := by
  have hmode := (h.lock_eq hd).symm.trans hl
  have hunlock := h.unlock_isSome hl
  obtain ⟨hf, hok⟩ := h.ok j op stage hd
  cases stage with
  | writeLink record address =>
      obtain ⟨hr, haddress⟩ := hok
      have hlen : 0 + (Memory.toLE 4 op.next).length ≤ recordSize := by
        have := hf.2
        rw [Memory.length_toLE]
        omega
      have hpoke := h.poke_eq hr hlen
      refine step_isSome hd ?_
      show ((s.poke address (Memory.toLE 4 op.next)).bind _).isSome
      rw [haddress, show s.data + s.offset record = s.data + s.offset record + 0 from rfl, hpoke]
      exact Option.isSome_map.trans hunlock
  | dropRow record address => exact step_isSome hd (Option.isSome_map.trans hunlock)
  | writeRow record address k => exact h.writeRow_moves hsteady hd
  | lockManager => cases hmode
  | getLink _ => cases hmode
  | getRow _ => cases hmode
  | done _ => cases hmode
  | _ => cases hout

/-- **Who is in the manager goes on**, or waits for threads that write. -/
theorem RowsInv.managing_moves (h : RowsInv s) (hsteady : ∀ j, s.Steady (.step j))
    (hd : s.doing j = some (op, stage)) (hin : stage.managing = true) :
    (∃ u, CanMove p s u) ∨ Full p s := by
  have hl := h.lock_eq hd
  have hmine : inManager (s.doing j) = true := by rw [hd]; exact hin
  cases stage with
  | lockUpgrade =>
      refine .inl ⟨j, step_isSome hd ?_⟩
      unfold MappedRows.stepFrom
      dsimp only
      rw [h.opened]
      exact Option.isSome_map.trans
        (UpgradeLock.change_isSome hl fun u hu => h.beside_upgrade hmine hu)
  | lockExclusive =>
      by_cases hfree : ∀ u, u ≠ j → s.lock u = none
      · refine .inl ⟨j, step_isSome hd (Option.isSome_map.trans (UpgradeLock.change_isSome hl
          fun u hu => ?_))⟩
        rw [hfree u hu]
        rfl
      -- the others that hold the lock share it, and can go on
      · push Not at hfree
        obtain ⟨u, hu, hheld⟩ := hfree
        have hout := h.manager_alone hmine hu
        cases hdu : s.doing u with
        | none => exact absurd ((h.lock u).trans (by rw [hdu]; rfl)) hheld
        | some r =>
            rw [hdu] at hout
            rcases mode_of_not_managing r.1.access hout with hm | hm
            · exact absurd ((h.lock_eq hdu).trans hm) hheld
            · exact .inl ⟨u, h.writes_move (hsteady u) hdu ((h.lock_eq hdu).trans hm) hout⟩
  | remap =>
      by_cases hfull : p.disk < p.expand s.size s.manager.file.expansion
      · exact .inr ⟨⟨j, op, hd⟩, hfull⟩
      · refine .inl ⟨j, .inr (.inr fun data => ?_)⟩
        have hunlock : (s.lock.unlockAndLockUpgrade j).isSome :=
          h.sound.weaken_isSome hl Mode.beside_upgrade
        unfold MappedRows.act
        dsimp only
        rw [hd]
        show (Option.bind (s.manager.file.truncateMapped p
          (p.expand s.size s.manager.file.expansion)) _).isSome
        unfold MemoryMap.truncateMapped
        rw [if_neg (show ¬ p.expand s.size s.manager.file.expansion > p.disk from hfull)]
        exact Option.isSome_map.trans hunlock
  | assign =>
      have hunlock : (s.lock.unlockUpgradeAndLockShared j).isSome :=
        h.sound.weaken_isSome hl Mode.beside_shared
      exact .inl ⟨j, step_isSome hd (Option.isSome_map.trans hunlock)⟩
  | release => exact .inl ⟨j, step_isSome hd (Option.isSome_map.trans (h.unlock_isSome hl))⟩
  | count => exact .inl ⟨j, step_isSome hd rfl⟩
  | _ => cases hin

/-- **No deadlock.** -/
theorem RowsInv.moves (h : RowsInv s) (hsteady : ∀ j, s.Steady (.step j))
    (hbusy : s.doing i ≠ none) : (∃ j, CanMove p s j) ∨ Full p s := by
  obtain ⟨⟨op, stage⟩, hd⟩ := Option.ne_none_iff_exists'.mp hbusy
  have hl := h.lock_eq hd
  have hshare (hnone : stage.mode op.access = none) :
      (s.lock.lockShared i).isSome ∨ (∃ j, CanMove p s j) ∨ Full p s := by
    by_cases hexclusive : ∃ u, s.lock u = some .exclusive
    · obtain ⟨u, hu⟩ := hexclusive
      cases hdu : s.doing u with
      | none =>
          have hnone : s.lock u = none := (h.lock u).trans (by rw [hdu]; rfl)
          exact absurd (hu.symm.trans hnone) (Option.some_ne_none _)
      | some r =>
          refine .inr (h.managing_moves hsteady hdu ?_)
          by_contra hout
          have hm := mode_of_not_managing r.1.access (Bool.eq_false_iff.mpr hout)
          rw [← h.lock_eq hdu, hu] at hm
          rcases hm with hm | hm <;> cases hm
    · refine .inl (UpgradeLock.change_isSome (hl.trans hnone) fun u _ => ?_)
      cases hu : s.lock u with
      | none => rfl
      | some mode =>
          cases mode with
          | shared => rfl
          | upgrade => rfl
          | exclusive => exact absurd ⟨u, hu⟩ hexclusive
  cases stage with
  | lockManager =>
      cases hm : s.mutex with
      | none =>
          refine .inl ⟨i, step_isSome hd ?_⟩
          unfold MappedRows.stepFrom
          dsimp only
          rw [if_pos hm]
          rfl
      | some j =>
          have hin := (h.mutex j).mpr hm
          cases hdj : s.doing j with
          | none =>
              rw [hdj] at hin
              cases hin
          | some r =>
              rw [hdj] at hin
              exact h.managing_moves hsteady hdj hin
  | getLink record =>
      rcases hshare rfl with hs | hs
      · exact .inl ⟨i, step_isSome hd (Option.isSome_map.trans hs)⟩
      · exact hs
  | writeLink _ _ => exact .inl ⟨i, h.writes_move (hsteady i) hd hl rfl⟩
  | getRow record =>
      rcases hshare rfl with hs | hs
      · exact .inl ⟨i, step_isSome hd (Option.isSome_map.trans hs)⟩
      · exact hs
  | dropRow _ _ => exact .inl ⟨i, h.writes_move (hsteady i) hd hl rfl⟩
  | writeRow _ _ _ => exact .inl ⟨i, h.writeRow_moves (hsteady i) hd⟩
  | done record =>
      refine .inl ⟨i, .inr (.inl ?_)⟩
      unfold MappedRows.act
      dsimp only
      rw [hd]
      rfl
  | _ => exact h.managing_moves hsteady hd rfl

/-! ## 2. How many turns -/

/-- The turns left to a thread. -/
def turnsLeft (d : Option (Appending × AppendStage)) : Nat :=
  (d.map fun r => r.2.left r.1.row.length).getD 0

/-- The turns left to all threads. -/
def left (s : MappedRows recordSize n) : Nat := ∑ i, turnsLeft (s.doing i)

/-- The turns a call takes, itself one of them. -/
def work : AppendTurn n → Nat
  | .call _ op => op.row.length + 14
  | _ => 0

/-- One thread goes on. -/
theorem left_update {d : Option (Appending × AppendStage)} {c : Nat}
    (hdoing : s'.doing = Function.update s.doing i d)
    (hc : turnsLeft d + 1 ≤ turnsLeft (s.doing i) + c) : s'.left + 1 ≤ s.left + c := by
  have hsum (f : Fin n → Option (Appending × AppendStage)) :
      ∑ j, turnsLeft (f j) = turnsLeft (f i) + ∑ j ∈ Finset.univ.erase i, turnsLeft (f j) :=
    (Finset.add_sum_erase _ _ (Finset.mem_univ i)).symm
  have hrest : ∑ j ∈ Finset.univ.erase i, turnsLeft (s'.doing j) =
      ∑ j ∈ Finset.univ.erase i, turnsLeft (s.doing j) :=
    Finset.sum_congr rfl fun j hj => by rw [hdoing, Function.update_of_ne (Finset.ne_of_mem_erase hj)]
  unfold left
  rw [hsum s'.doing, hsum s.doing, hrest, hdoing, Function.update_self]
  omega

/-- **Every turn takes one off what is left**, a call adds what it takes. -/
theorem left_act {t : AppendTurn n} (hc : s.act p t = some s') : s'.left + 1 ≤ s.left + work t := by
  unfold MappedRows.act at hc
  cases t with
  | call i op =>
      dsimp only at hc
      split at hc
      · rename_i hd
        cases hc
        refine left_update rfl ?_
        rw [hd]
        exact (Nat.zero_add _).ge
      · cases hc
  | step i =>
      obtain ⟨r, hd, hc⟩ := Option.bind_eq_some_iff.mp hc
      obtain ⟨stage', hdoing, hlt⟩ := stepFrom_doing hc
      refine left_update hdoing ?_
      rw [hd]
      exact hlt
  | remap i data =>
      dsimp only at hc
      split at hc
      · rename_i op hd
        obtain ⟨file, _, hc⟩ := Option.bind_eq_some_iff.mp hc
        obtain ⟨lock, _, rfl⟩ := Option.map_eq_some_iff.mp hc
        refine left_update rfl ?_
        rw [hd]
        exact Nat.le_refl _
      · cases hc
  | answer i =>
      dsimp only at hc
      split at hc
      · rename_i op record hd
        cases hc
        refine left_update (d := none) rfl ?_
        rw [hd]
        exact Nat.le_refl _
      · cases hc

theorem turns_le {turns : List (AppendTurn n)} (hr : runSome (MappedRows.act p) s turns = some s') :
    s'.left + turns.length ≤ s.left + (turns.map work).sum := by
  induction turns generalizing s with
  | nil =>
      cases hr
      exact Nat.le_refl _
  | cons t turns ih =>
      obtain ⟨s₁, hc, hr⟩ := Option.bind_eq_some_iff.mp hr
      have hfirst := left_act hc
      have hrest := ih hr
      rw [List.length_cons, List.map_cons, List.sum_cons]
      omega

/-! ## 3. Runs -/

/-- **Every row gets written**: the threads never lock each other out, a call does not take more than
    fourteen turns and one for each byte of its row, and so every run that goes on while a thread can
    move ends with all calls returned, or with a full disk. -/
theorem rows_complete (hp : p.Exact) {m manager : FileManager (.records recordSize)}
    (hc : m.create p = some manager) (hheader : manager.headerSize + 4 < sizeLimit) {data : Nat}
    {turns : List (AppendTurn n)}
    (ha : EverySome (MappedRows.act p) Allowed (initial manager data) turns)
    (hs : (EverySome (MappedRows.act p) Steady (initial manager data) turns ∧
      ∀ j, s.Steady (.step j)) ∨ ∀ i op, .call i op ∈ turns → op.access = .held)
    (hr : runSome (MappedRows.act p) (initial manager data) turns = some s) :
    turns.length ≤ (turns.map work).sum ∧
      ∀ i, s.doing i ≠ none → (∃ j, CanMove p s j) ∨ Full p s := by
  have hheld : Held (initial manager data : MappedRows recordSize n) := fun _ _ _ he => nomatch he
  have hsteady : EverySome (MappedRows.act p) Steady (initial manager data) turns ∧
      ∀ j, s.Steady (.step j) := by
    refine hs.elim id fun hcalls => ⟨hheld.steady hcalls, Held.steady_step ?_⟩
    exact EverySome.keeps (G := fun _ t => ∀ i op, t = .call i op → op.access = .held)
      (fun _ _ _ h ht hc => h.act ht hc) hheld
      (.of_mem _ fun t ht _ i op he => hcalls i op (by rwa [he] at ht)) hr
  have h : RowsInv s := EverySome.keeps (fun _ _ _ h hG hc => h.act hp hG.1 hG.2 hc)
    (initial_inv hp hc hheader data) (ha.and hsteady.1) hr
  refine ⟨?_, fun i hbusy => h.moves hsteady.2 hbusy⟩
  have hzero : (initial manager data : MappedRows recordSize n).left = 0 :=
    Finset.sum_eq_zero fun _ _ => rfl
  have hturns := turns_le hr
  omega

/-- The second thread waits for the first one, which holds the address of its row. -/
def waitingRows (i j : Fin n) : List (AppendTurn n) := (movingRows i j).take 13

theorem waitingRows_complete : ∃ (manager : FileManager (.records 6)) (s : MappedRows 6 2),
    sampleManager.create .exact = some manager ∧
    runSome (MappedRows.act .exact) (initial manager 1000) (waitingRows 0 1) = some s ∧
    (s.act .exact (.step 1)).isNone ∧ s.doing 1 ≠ none ∧
    (waitingRows (0 : Fin 2) 1).length ≤ ((waitingRows (0 : Fin 2) 1).map work).sum ∧
    ((∃ j, CanMove .exact s j) ∨ Full .exact s) := by
  have hb : ((sampleManager.create .exact).bind fun manager =>
      (runSome (MappedRows.act .exact) (initial manager 1000) (waitingRows (0 : Fin 2) 1)).bind fun s =>
        if EverySome (MappedRows.act .exact) Allowed (initial manager 1000) (waitingRows (0 : Fin 2) 1) ∧
          manager.headerSize + 4 < sizeLimit ∧ (s.act .exact (.step 1)).isNone ∧ s.doing 1 ≠ none then
          some s
        else none).isSome = true := by decide +kernel
  obtain ⟨_, hb⟩ := Option.isSome_iff_exists.mp hb
  obtain ⟨manager, hc, hb⟩ := Option.bind_eq_some_iff.mp hb
  obtain ⟨s, hr, hb⟩ := Option.bind_eq_some_iff.mp hb
  obtain ⟨⟨ha, hheader, hwaits, hbusy⟩, _⟩ := Option.ite_none_right_eq_some.mp hb
  have hcalls : ∀ (i : Fin 2) op, .call i op ∈ waitingRows (0 : Fin 2) 1 → op.access = .held := by
    intro i op ht
    simp [waitingRows, movingRows] at ht
    rcases ht with ⟨_, rfl⟩ | ⟨_, rfl⟩ <;> rfl
  obtain ⟨hturns, hmoves⟩ := rows_complete Platform.exact_exact hc hheader ha (.inr hcalls) hr
  exact ⟨manager, s, hc, hr, hwaits, hbusy, hturns, hmoves 1 hbusy⟩

end MappedRows

end Libbitcoin.Database
