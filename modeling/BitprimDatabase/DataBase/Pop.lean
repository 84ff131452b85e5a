/-
  File:      BitprimDatabase/DataBase/Pop.lean
  Subject:   WHAT POPPING A BLOCK NEEDS AND DOES, as edits of the stacks under the keys of each
             table.

  * `ReadBack` -- the transactions `pop` reads back for the top block;
  * `unwind`, `Unwindable` -- the slabs after the loop over the reversed transactions, and what
    the loop needs at each of its steps;
  * **`pop_eq_some`**: `pop` answers a block exactly where the top block is read back and its
    reversed transactions are unwindable; `pop_popped`: then the tables are `Popped`.
-/
import BitprimDatabase.DataBase.Push

namespace Libbitcoin.Database

open Lib

variable [Core]

/-! ## 1. Keys of the rows to delete -/

/-- The address of a row to delete, none without an address. -/
def addressKey (address : Option ShortHash) : List ShortHash := address.toList

namespace Transaction

/-- The previous outputs `pop` unspends, the last one first. -/
def popPoints (tx : Transaction) : List Point :=
  if tx.isCoinbase then [] else tx.inputs.reverse.map Input.previousOutput

/-- The addresses `pop` deletes a row of: outputs, then inputs, each the last one first. -/
def popKeys (tx : Transaction) : List ShortHash :=
  (tx.outputs.reverse.flatMap fun o => addressKey (Core.address o.script)) ++
    if tx.isCoinbase then []
    else tx.inputs.reverse.flatMap fun i => addressKey (Core.address i.script)

end Transaction

/-! ## 2. The slabs under the loop -/

/-- A transaction demoted and its inputs unspent. -/
def unwindOne (s : Slabs) (tx : Transaction) : Slabs :=
  spendSlabs (s.modifyTop tx.hash (TransactionSlab.confirm Core.unverified unconfirmed))
    tx.popPoints notSpent

/-- Transactions unwound in the order of the list. -/
def unwind (s : Slabs) (txs : List Transaction) : Slabs := txs.foldl unwindOne s

/-- What the loop needs: a slab to demote, and then inputs whose outputs are spendable. -/
def Unwindable : Slabs → List Transaction → Prop
  | _, [] => True
  | s, tx :: txs =>
    s tx.hash ≠ [] ∧
      (∀ p ∈ tx.popPoints, Spendable
        (s.modifyTop tx.hash (TransactionSlab.confirm Core.unverified unconfirmed)) p notSpent) ∧
      Unwindable (unwindOne s tx) txs

namespace DataBase

/-! ## 3. The transactions read back -/

omit [Core] in
/-- The transaction read back for a hash and a position at a height. -/
def ReadBack (db : DataBase) (height : Nat) (t : HashDigest × Nat) (tx : Transaction) : Prop :=
  ∃ slab, (db.transactions.slabs t.1).head? = some slab ∧ slab.height = height ∧
    slab.position = t.2 ∧ t.2 ≠ unconfirmed ∧ tx = slab.transaction t.1

omit [Core] in
theorem readTransactions_eq_some {db : DataBase} {height : Nat} {l : List (HashDigest × Nat)}
    {txs : List Transaction} :
    db.readTransactions height l = some txs ↔ List.Forall₂ (db.ReadBack height) l txs := by
  induction l generalizing txs with
  | nil => cases txs <;> simp [readTransactions]
  | cons t l ih =>
      obtain ⟨hash, position⟩ := t
      unfold readTransactions TransactionDatabase.get
      cases hf : db.transactions.find hash height true with
      | none =>
          refine iff_of_false (by simp) fun h => ?_
          cases h with
          | cons hr _ =>
              obtain ⟨slab, hs, hh, hp, hne, _⟩ := hr
              have : db.transactions.find hash height true = some slab :=
                db.transactions.find_true.mpr ⟨hs, Nat.le_of_eq hh, hp ▸ hne⟩
              rw [hf] at this
              cases this
      | some slab =>
          obtain ⟨hs, hle, hne⟩ := db.transactions.find_true.mp hf
          by_cases hbad : slab.height ≠ height ∨ slab.position ≠ position
          · simp only [if_pos hbad]
            refine iff_of_false (by simp) fun h => ?_
            cases h with
            | cons hr _ =>
                obtain ⟨slab', hs', hh, hp, _⟩ := hr
                cases hs.symm.trans hs'
                exact hbad.elim (fun h => h hh) fun h => h hp
          · simp only [if_neg hbad]
            obtain ⟨hh, hp⟩ := not_or.mp hbad
            rw [Option.map_eq_some_iff]
            constructor
            · rintro ⟨rest, hr, rfl⟩
              refine .cons ⟨slab, hs, not_not.mp hh, not_not.mp hp, ?_, rfl⟩ (ih.mp hr)
              exact not_not.mp hp ▸ hne
            · intro h
              cases h with
              | cons hr hrest =>
                  obtain ⟨slab', hs', _, _, _, rfl⟩ := hr
                  cases hs.symm.trans hs'
                  exact ⟨_, ih.mpr hrest, rfl⟩

theorem readBlock_eq_some {db : DataBase} {height : Nat} {block : BlockResult}
    {txs : List Transaction} : db.readBlock height block = some txs ↔
      db.blocks.reserves height = true ∧
        List.Forall₂ (db.ReadBack height) block.slab.hashes.zipIdx txs := by
  unfold readBlock
  by_cases hres : db.blocks.reserves height = true
  · rw [if_pos hres, readTransactions_eq_some, and_iff_right hres]
  · rw [if_neg hres]
    exact iff_of_false (by simp) fun h => hres h.1

/-! ## 4. The loops -/

theorem popOutputs_spec (db : DataBase) (outputs : List Output) (height : Nat) :
    let db' := db.popOutputs outputs height
    db'.settings = db.settings ∧ db'.flushes = db.flushes ∧ db'.store = db.store ∧
      db'.blocks = db.blocks ∧ db'.transactions = db.transactions ∧ db'.poolOf = db.poolOf ∧
      db'.spendsOf = db.spendsOf ∧
      db'.rows = db.rows.popAll (if height < db.settings.indexStartHeight then []
        else outputs.reverse.flatMap fun o => addressKey (Core.address o.script)) := by
  unfold popOutputs
  by_cases hh : height < db.settings.indexStartHeight
  · simp only [if_pos hh]
    exact ⟨trivial, trivial, trivial, trivial, trivial, trivial, trivial, rfl⟩
  · simp only [if_neg hh]
    have hrows : (outputs.reverse.foldl popOutput db).rows = db.rows.popAll
        (outputs.reverse.flatMap fun o => addressKey (Core.address o.script)) :=
      Stacks.foldl_popAll rows popOutput _
        (fun db o => by
          unfold popOutput rows addressKey
          cases Core.address o.script <;> simp) _ _
    generalize outputs.reverse = l at hrows ⊢
    refine ⟨?_, ?_, ?_, ?_, ?_, ?_, ?_, hrows⟩ <;>
    · clear hrows hh
      induction l generalizing db with
      | nil => rfl
      | cons o l ih =>
          rw [List.foldl_cons, ih]
          unfold popOutput
          cases Core.address o.script <;> rfl

theorem popIndexes_spec (db : DataBase) (input : Input) :
    let db' := db.popIndexes input
    db'.settings = db.settings ∧ db'.flushes = db.flushes ∧ db'.store = db.store ∧
      db'.blocks = db.blocks ∧ db'.transactions = db.transactions ∧ db'.poolOf = db.poolOf ∧
      db'.spendsOf = db.spendsOf.popAll [input.previousOutput] ∧
      db'.rows = db.rows.popAll (addressKey (Core.address input.script)) := by
  unfold popIndexes spendsOf rows addressKey
  cases Core.address input.script <;>
  · refine ⟨rfl, rfl, rfl, rfl, rfl, rfl, ?_, ?_⟩ <;> simp

/-- The loop of `pop_inputs`, whatever it answers, keeps what neither a spend of the transaction table
    nor a removal of rows changes. -/
theorem popInputsFrom_keeps {A : Type} (view : DataBase → A) (height : Nat)
    (ht : ∀ (db : DataBase) t, view { db with transactions := t } = view db)
    (hi : ∀ (db : DataBase) input, view (db.popIndexes input) = view db) (db : DataBase)
    (inputs : List Input) : view (popInputsFrom height db inputs).1 = view db := by
  induction inputs generalizing db with
  | nil => rfl
  | cons input inputs ih =>
      unfold popInputsFrom
      rcases db.transactions.unspend input.previousOutput with ⟨t, r⟩
      cases r with
      | false => exact ht db t
      | true =>
          dsimp only
          split
          · rw [ih, ht]
          · rw [ih, hi, ht]

/-- **The loop of `pop_inputs`** succeeds exactly where every previous output is spendable. -/
theorem popInputsFrom_spec (height : Nat) (db : DataBase) (inputs : List Input) :
    ((popInputsFrom height db inputs).2 = true ↔
        ∀ p ∈ inputs.map Input.previousOutput, Spendable db.transactions.slabs p notSpent) ∧
      ((popInputsFrom height db inputs).2 = true →
        let db' := (popInputsFrom height db inputs).1
        db'.settings = db.settings ∧ db'.flushes = db.flushes ∧ db'.store = db.store ∧
          db'.blocks = db.blocks ∧ db'.poolOf = db.poolOf ∧
          db'.transactions.slabs =
            spendSlabs db.transactions.slabs (inputs.map Input.previousOutput) notSpent ∧
          db'.spendsOf = db.spendsOf.popAll (if height < db.settings.indexStartHeight then []
            else inputs.map Input.previousOutput) ∧
          db'.rows = db.rows.popAll (if height < db.settings.indexStartHeight then []
            else inputs.flatMap fun i => addressKey (Core.address i.script))) := by
  induction inputs generalizing db with
  | nil =>
      refine ⟨by simp [popInputsFrom], fun _ => ⟨rfl, rfl, rfl, rfl, rfl, rfl, ?_, ?_⟩⟩ <;>
      · split <;> rfl
  | cons input inputs ih =>
      obtain ⟨hiff, hslabs⟩ := spend_iff db.transactions input.previousOutput notSpent
      unfold popInputsFrom TransactionDatabase.unspend
      rcases hsp : db.transactions.spend input.previousOutput notSpent with ⟨t, r⟩
      rw [hsp] at hiff hslabs
      cases r with
      | false =>
          refine ⟨iff_of_false (by simp) fun h => ?_, fun h => by cases h⟩
          have := hiff.mpr (h _ List.mem_cons_self)
          cases this
      | true =>
          have hsl : t.slabs = _ := hslabs rfl
          have hsucc (db₁ : DataBase) (ht : db₁.transactions = t) :
              (∀ p ∈ inputs.map Input.previousOutput, Spendable db₁.transactions.slabs p notSpent) ↔
                ∀ p ∈ (input :: inputs).map Input.previousOutput,
                  Spendable db.transactions.slabs p notSpent := by
            rw [List.map_cons, List.forall_mem_cons, ht, hsl]
            constructor
            · exact fun h => ⟨hiff.mp rfl, fun p hp => (spendable_modifyTop _ _ _).mp (h p hp)⟩
            · exact fun h p hp => (spendable_modifyTop _ _ _).mpr (h.2 p hp)
          by_cases hh : height < db.settings.indexStartHeight
          · obtain ⟨ih₁, ih₂⟩ := ih { db with transactions := t }
            simp only [if_pos hh] at ih₂ ⊢
            refine ⟨ih₁.trans (hsucc _ rfl), fun h => ?_⟩
            obtain ⟨h₁, h₂, h₃, h₄, h₅, h₆, h₇, h₈⟩ := ih₂ h
            refine ⟨h₁, h₂, h₃, h₄, h₅, ?_, h₇, h₈⟩
            rw [h₆]
            exact congrArg (spendSlabs · _ notSpent) hsl
          · simp only [if_neg hh]
            obtain ⟨i₁, i₂, i₃, i₄, i₅, i₆, i₇, i₈⟩ :=
              popIndexes_spec { db with transactions := t } input
            obtain ⟨ih₁, ih₂⟩ := ih (popIndexes { db with transactions := t } input)
            refine ⟨ih₁.trans (hsucc _ i₅), fun h => ?_⟩
            obtain ⟨h₁, h₂, h₃, h₄, h₅, h₆, h₇, h₈⟩ := ih₂ h
            rw [i₁, if_neg hh] at h₇ h₈
            refine ⟨h₁.trans i₁, h₂.trans i₂, h₃.trans i₃, h₄.trans i₄, h₅.trans i₆, ?_, ?_, ?_⟩
            · rw [h₆, i₅]
              exact congrArg (spendSlabs · _ notSpent) hsl
            · rw [h₇, i₇]
              rfl
            · rw [h₈, i₈, List.flatMap_cons, Stacks.popAll_append]
              rfl

/-- The effect of the loop over the reversed transactions. -/
structure Unwound (height : Nat) (db : DataBase) (txs : List Transaction) (db' : DataBase) :
    Prop where
  settings_eq : db'.settings = db.settings
  flushes_eq : db'.flushes = db.flushes
  store_eq : db'.store = db.store
  blocks_eq : db'.blocks = db.blocks
  slabs_eq : db'.transactions.slabs = unwind db.transactions.slabs txs
  pool_eq : db'.poolOf = db.poolOf.pushAll (txs.map fun tx => (tx.hash, tx.toSlab 0 unconfirmed))
  spends_eq : db'.spendsOf = db.spendsOf.popAll (if height < db.settings.indexStartHeight then []
    else txs.flatMap Transaction.popPoints)
  rows_eq : db'.rows = db.rows.popAll (if height < db.settings.indexStartHeight then []
    else txs.flatMap Transaction.popKeys)

theorem Unwound.cons {height : Nat} {db db₁ db₂ : DataBase} {tx : Transaction}
    {txs : List Transaction} (h : Unwound height db [tx] db₁) (h' : Unwound height db₁ txs db₂) :
    Unwound height db (tx :: txs) db₂ where
  settings_eq := h'.1.trans h.1
  flushes_eq := h'.2.trans h.2
  store_eq := h'.3.trans h.3
  blocks_eq := h'.4.trans h.4
  slabs_eq := by
    rw [h'.5, h.5]
    rfl
  pool_eq := by
    rw [h'.6, h.6]
    rfl
  spends_eq := by
    rw [h'.7, h.7, h.1]
    split
    · rfl
    · simp only [List.flatMap_cons, List.flatMap_nil, List.append_nil, Stacks.popAll_append]
  rows_eq := by
    rw [h'.8, h.8, h.1]
    split
    · rfl
    · simp only [List.flatMap_cons, List.flatMap_nil, List.append_nil, Stacks.popAll_append]

theorem unconfirm_spec (t : TransactionDatabase) (hash : HashDigest) :
    ((t.unconfirm hash).2 = true ↔ t.slabs hash ≠ []) ∧ (t.unconfirm hash).1.slabs =
      t.slabs.modifyTop hash (TransactionSlab.confirm Core.unverified unconfirmed) := by
  unfold TransactionDatabase.unconfirm
  refine ⟨?_, t.confirm_slabs ..⟩
  rw [TransactionDatabase.confirm_result]
  cases t.slabs hash <;> simp

/-- **The loop of `pop`** succeeds exactly where the transactions are unwindable. -/
theorem popTransactions_spec (height : Nat) (db : DataBase) (txs : List Transaction) :
    ((popTransactions height db txs).2 = true ↔ Unwindable db.transactions.slabs txs) ∧
      ((popTransactions height db txs).2 = true →
        Unwound height db txs (popTransactions height db txs).1) := by
  induction txs generalizing db with
  | nil =>
      refine ⟨by simp [popTransactions, Unwindable], fun _ => ⟨rfl, rfl, rfl, rfl, rfl, rfl, ?_, ?_⟩⟩ <;>
      · split <;> rfl
  | cons tx txs ih =>
      obtain ⟨hiff, hslabs⟩ := unconfirm_spec db.transactions tx.hash
      unfold popTransactions Unwindable
      rcases hu : db.transactions.unconfirm tx.hash with ⟨t, r⟩
      rw [hu] at hiff hslabs
      cases r with
      | false =>
          refine ⟨iff_of_false (by simp) fun h => ?_, fun h => by cases h⟩
          have := hiff.mpr h.1
          cases this
      | true =>
          have hne := hiff.mp rfl
          have hsl : t.slabs = _ := hslabs
          simp only
          obtain ⟨o₁, o₂, o₃, o₄, o₅, o₆, o₇, o₈⟩ := popOutputs_spec
            { db with
              transactions := t
              transactionsUnconfirmed := db.transactionsUnconfirmed.store tx } tx.outputs height
          generalize hdb₁ : popOutputs
            { db with
              transactions := t
              transactionsUnconfirmed := db.transactionsUnconfirmed.store tx }
            tx.outputs height = db₁ at *
          have hpool : db₁.poolOf = db.poolOf.pushAll [(tx.hash, tx.toSlab 0 unconfirmed)] := by
            rw [o₆]
            exact TransactionUnconfirmedDatabase.store_entries _ tx
          by_cases hc : tx.isCoinbase = true
          · have hone : Unwound height db [tx] db₁ := by
              refine ⟨o₁, o₂, o₃, o₄, ?_, hpool, ?_, ?_⟩
              · rw [o₅]
                show t.slabs = unwindOne db.transactions.slabs tx
                rw [hsl, unwindOne, Transaction.popPoints, if_pos hc]
                rfl
              · rw [o₇]
                simp only [List.flatMap_singleton, Transaction.popPoints, if_pos hc, ite_self]
                rfl
              · rw [o₈]
                simp only [List.flatMap_singleton, Transaction.popKeys, if_pos hc, List.append_nil]
                rfl
            simp only [hc, if_true]
            obtain ⟨ih₁, ih₂⟩ := ih db₁
            refine ⟨?_, fun h => hone.cons (ih₂ h)⟩
            rw [ih₁, hone.slabs_eq]
            refine ⟨fun h => ⟨hne, fun p hp => ?_, h⟩, fun h => h.2.2⟩
            rw [Transaction.popPoints, if_pos hc] at hp
            cases hp
          · obtain ⟨hin₁, hin₂⟩ := popInputsFrom_spec height db₁ tx.inputs.reverse
            have hslabs₁ : db₁.transactions.slabs = db.transactions.slabs.modifyTop tx.hash
                (TransactionSlab.confirm Core.unverified unconfirmed) := by
              rw [o₅]
              exact hsl
            have hpts : tx.popPoints = tx.inputs.reverse.map Input.previousOutput := if_neg hc
            rw [hslabs₁, ← hpts] at hin₁
            simp only [hc, popInputs]
            rcases hin : popInputsFrom height db₁ tx.inputs.reverse with ⟨db₂, r⟩
            rw [hin] at hin₁ hin₂
            cases r with
            | false =>
                refine ⟨iff_of_false (by simp) fun h => ?_, fun h => by cases h⟩
                have := hin₁.mpr h.2.1
                cases this
            | true =>
                obtain ⟨i₁, i₂, i₃, i₄, i₅, i₆, i₇, i₈⟩ := hin₂ rfl
                have hone : Unwound height db [tx] db₂ := by
                  refine ⟨i₁.trans o₁, i₂.trans o₂, i₃.trans o₃, i₄.trans o₄, ?_,
                    i₅.trans hpool, ?_, ?_⟩
                  · show db₂.transactions.slabs = unwindOne db.transactions.slabs tx
                    rw [i₆, hslabs₁, unwindOne, hpts]
                  · rw [i₇, o₇, o₁, ← hpts, List.flatMap_singleton]
                    rfl
                  · rw [i₈, o₈, o₁, List.flatMap_singleton]
                    show Stacks.popAll (Stacks.popAll db.rows (if height < db.settings.indexStartHeight
                      then _ else _)) (if height < db.settings.indexStartHeight then _ else _) = _
                    split
                    · rfl
                    · rw [Transaction.popKeys, if_neg hc, Stacks.popAll_append]
                obtain ⟨ih₁, ih₂⟩ := ih db₂
                refine ⟨?_, fun h => hone.cons (ih₂ h)⟩
                show (popTransactions height db₂ txs).2 = true ↔ _
                rw [ih₁, hone.slabs_eq]
                exact ⟨fun h => ⟨hne, hin₁.mp rfl, h⟩, fun h => h.2.2⟩

/-! ## 5. The pop -/

/-- **The effect of a pop** of the block at the height with the transactions read back. -/
structure Popped (db : DataBase) (height : Nat) (txs : List Transaction) (db' : DataBase) :
    Prop where
  settings_eq : db'.settings = db.settings
  flushes_eq : db'.flushes = db.flushes
  store_eq : db'.store = db.store
  blocks_eq : db'.blocks = (db.blocks.unlink height).1
  slabs_eq : db'.transactions.slabs = unwind db.transactions.slabs txs.reverse
  pool_eq : db'.poolOf =
    db.poolOf.pushAll (txs.reverse.map fun tx => (tx.hash, tx.toSlab 0 unconfirmed))
  spends_eq : db'.spendsOf = db.spendsOf.popAll (if height < db.settings.indexStartHeight then []
    else txs.reverse.flatMap Transaction.popPoints)
  rows_eq : db'.rows = db.rows.popAll (if height < db.settings.indexStartHeight then []
    else txs.reverse.flatMap Transaction.popKeys)

/-- What a pop needs, and the block it answers. -/
def PopsTo (db : DataBase) (height : Nat) (txs : List Transaction) (out : Block) : Prop :=
  db.blocks.top = some height ∧ ∃ block, db.blocks.get height = some block ∧
    db.blocks.reserves height = true ∧
    List.Forall₂ (db.ReadBack height) block.slab.hashes.zipIdx txs ∧
    Unwindable db.transactions.slabs txs.reverse ∧ out = ⟨block.header, txs⟩

/-- **A pop that answers a block**, by what it needs and does. -/
theorem pop_spec (db : DataBase) (out : Block) :
    (db.pop.2 = some out ↔ ∃ height txs, db.PopsTo height txs out) ∧
      (db.pop.2 = some out → ∃ height txs, db.PopsTo height txs out ∧ Popped db height txs db.pop.1) := by
  have key : ∀ height txs, db.PopsTo height txs out →
      db.pop.2 = some out ∧ Popped db height txs db.pop.1 := by
    rintro height txs ⟨ht, block, hg, hres, hr, hu, rfl⟩
    obtain ⟨hiff, hun⟩ := popTransactions_spec height db txs.reverse
    unfold pop
    simp only [ht, hg, readBlock_eq_some.mpr ⟨hres, hr⟩]
    rcases hp : popTransactions height db txs.reverse with ⟨db', r⟩
    rw [hp] at hiff hun
    have hrt : r = true := hiff.mpr hu
    subst hrt
    have h := hun rfl
    have hcount := BlockDatabase.top_eq_some.mp ht
    have hlt : height < db.blocks.count := by omega
    have hunlink : db'.blocks.unlink height = db.blocks.unlink height := by rw [h.blocks_eq]
    simp only [hunlink, BlockDatabase.unlink_of_lt hlt]
    refine ⟨trivial, h.1, h.2, h.3, ?_, h.5, h.6, h.7, h.8⟩
    rw [BlockDatabase.unlink_of_lt hlt]
  have back : db.pop.2 = some out → ∃ height txs, db.PopsTo height txs out := by
    unfold pop
    cases ht : db.blocks.top with
    | none => simp
    | some height =>
        cases hg : db.blocks.get height with
        | none => simp [hg]
        | some block =>
            cases hr : db.readBlock height block with
            | none => simp [hg, hr]
            | some txs =>
                obtain ⟨hiff, hun⟩ := popTransactions_spec height db txs.reverse
                simp only [hg, hr]
                rcases hp : popTransactions height db txs.reverse with ⟨db', r⟩
                rw [hp] at hiff hun
                cases r with
                | false => simp
                | true =>
                    dsimp only
                    intro h
                    obtain ⟨hres, hback⟩ := readBlock_eq_some.mp hr
                    refine ⟨height, txs, ht, block, hg, hres, hback, hiff.mp rfl, ?_⟩
                    rcases hul : db'.blocks.unlink height with ⟨blocks, r⟩
                    rw [hul] at h
                    cases r <;> cases h
                    rfl
  refine ⟨⟨back, ?_⟩, fun h => ?_⟩
  · intro h
    obtain ⟨height, txs, hp⟩ := h
    exact (key height txs hp).1
  obtain ⟨height, txs, hp⟩ := back h
  exact ⟨height, txs, hp, (key height txs hp).2⟩

end DataBase

end Libbitcoin.Database
