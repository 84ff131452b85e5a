/-
  File:      BitprimDatabase/DataBase/FilesPop.lean
  Subject:   **THE FILES HOLD THE DATA BASE UNDER `pop`**: reading the top block back, undoing its
             indexes, its outputs and its inputs, and `pop_above`.

  * `TransactionsHold.pools` -- what is read back can be put into the pool;
  * **`Holds.readTransactions`**, `Holds.popOutputs`, `Holds.popInputs` -- they return, with the answer
    of the tables;
  * **`Holds.pop`**, **`Holds.popAbove`** -- where they return they answer as the tables do. Of their
    steps only the stores to the pool can throw.

  No step adds a row to an index.
-/
import BitprimDatabase.DataBase.FilesHold

namespace Libbitcoin.Database

open Lib

variable {env : Env}

/-! ## 1. What is read back -/

/-- The pool takes the transaction. -/
def Poolable (env : Env) (tx : Transaction) : Prop :=
  TransactionOp.Wire env.form (.store tx 0 unconfirmed)

/-- **A transaction of the table** goes into the pool as the slab it is, moved to the fork height 0. -/
theorem TransactionsHold.pools {f : TransactionFile} {db : TransactionDatabase}
    (h : TransactionsHold env f db) (hd : env.disk.size ≤ maxObject) {txHash : HashDigest}
    {slab : TransactionSlab} (hs : (db.slabs txHash).head? = some slab) :
    Poolable env (slab.transaction txHash) := by
  have hwire : slab.Wire := h.holds.wire txHash slab (List.mem_of_mem_head? hs)
  have houtputs : slab.outputs.map Output.toStore = slab.outputs := by
    refine (List.map_congr_left fun o ho => ?_).trans (List.map_id _)
    show ({ o with spenderHeight := u32 o.spenderHeight } : Output) = o
    rw [u32_of_le (hwire.outputs o ho).spenderHeight]
  have hslab : (slab.transaction txHash).toSlab 0 unconfirmed = slab.confirm 0 unconfirmed := by
    unfold Transaction.toSlab TransactionSlab.confirm TransactionSlab.transaction
    rw [houtputs]
  have hlen : (slabBytes env.form (slab.confirm 0 unconfirmed)).length =
      (slabBytes env.form slab).length := by
    unfold slabBytes TransactionSlab.confirm
    simp only [List.length_append, Memory.length_toLE]
  obtain ⟨t, s', ht, hc⟩ := h.holds.slabs
  obtain ⟨rest, hrest⟩ := List.head?_eq_some_iff.mp hs
  have hs' := hc txHash
  rw [hrest, List.map_cons] at hs'
  have hle : 40 + (slabBytes env.form slab).length ≤ env.disk.size := ht.top_le hs'
  refine ⟨hslab ▸ hwire.confirm 0 unconfirmed, ?_⟩
  rw [hslab, hlen]
  omega

namespace Files

variable {f f' : Files} {db : DataBase} [Core]

omit [Core] in
/-- **Reading back returns**, with the transactions of the tables; the pool takes each of them. -/
theorem Holds.readTransactions (h : f.Holds env db) (hd : env.disk.size ≤ maxObject) (height : Nat)
    (l : List (HashDigest × Nat)) :
    f.readTransactions env height l = some (db.readTransactions height l) ∧
      ∀ txs, db.readTransactions height l = some txs → ∀ tx ∈ txs, Poolable env tx := by
  induction l with
  | nil =>
      refine ⟨rfl, fun txs htxs tx hm => ?_⟩
      cases htxs
      cases hm
  | cons p l ih =>
      obtain ⟨hash, position⟩ := p
      obtain ⟨ih, hpool⟩ := ih
      unfold Files.readTransactions DataBase.readTransactions TransactionDatabase.get
      have hread := h.transactions.read hash height true
      cases hf : db.transactions.find hash height true with
      | none =>
          rw [hf] at hread
          rw [show f.transactions.find env.hashDigest hash height true = some none from hread]
          exact ⟨rfl, fun txs htxs => by cases htxs⟩
      | some slab =>
          rw [hf] at hread
          obtain ⟨a, hfind, hreads, _⟩ := hread
          rw [hfind]
          dsimp only
          rw [hreads.height, hreads.position, hreads.transaction, ih]
          by_cases hbad : slab.height ≠ height ∨ slab.position ≠ position
          · rw [if_pos hbad, if_pos hbad]
            exact ⟨rfl, fun txs htxs => by cases htxs⟩
          · rw [if_neg hbad, if_neg hbad]
            refine ⟨rfl, fun txs htxs tx hm => ?_⟩
            obtain ⟨rest, hrest, rfl⟩ := Option.map_eq_some_iff.mp htxs
            rcases List.mem_cons.mp hm with rfl | hm
            · exact h.transactions.pools hd (db.transactions.find_true.mp hf).1
            · exact hpool rest hrest tx hm

/-! ## 2. Outputs and inputs -/

/-- The row of an output is removed. -/
theorem Holds.popOutput (h : f.Holds env db) (output : Output) : ∃ f',
    popOutput env f output = some f' ∧ f'.Holds env (db.popOutput output) ∧ f'.rows = f.rows := by
  unfold Files.popOutput DataBase.popOutput
  cases Core.address output.script with
  | none => exact ⟨f, rfl, h, rfl⟩
  | some address =>
      obtain ⟨history, hh, hheld, hcount⟩ := h.history.deleteLastRow address
      refine ⟨{ f with history := history }, ?_, { h with history := ?_ }, ?_⟩
      · dsimp only
        rw [hh]
        rfl
      · rw [HistoryDatabase.deleteLastRow_rows]
        exact hheld
      · unfold rows
        rw [hcount]

/-- **The outputs of a transaction**, the last one first. -/
theorem Holds.popOutputs (h : f.Holds env db) (outputs : List Output) (height : Nat) : ∃ f',
    f.popOutputs env outputs height = some f' ∧ f'.Holds env (db.popOutputs outputs height) ∧
      f'.rows = f.rows := by
  have hstart : f.settings.indexStartHeight = db.settings.indexStartHeight := by rw [h.settings_eq]
  unfold Files.popOutputs DataBase.popOutputs
  by_cases hlt : height < db.settings.indexStartHeight
  · rw [if_pos (hstart ▸ hlt), if_pos hlt]
    exact ⟨f, rfl, h, rfl⟩
  · rw [if_neg (hstart ▸ hlt), if_neg hlt]
    clear hstart hlt
    induction outputs.reverse generalizing f db with
    | nil => exact ⟨f, rfl, h, rfl⟩
    | cons output outputs ih =>
        obtain ⟨f₁, hf₁, h₁, hrows₁⟩ := h.popOutput output
        obtain ⟨f₂, hf₂, h₂, hrows₂⟩ := ih h₁
        refine ⟨f₂, ?_, h₂, hrows₂.trans hrows₁⟩
        show (Files.popOutput env f output).bind _ = _
        rw [hf₁]
        exact hf₂

/-- The spend and the row of an input are removed, where there are such. -/
theorem Holds.popIndexes (h : f.Holds env db) (hd : env.disk.size ≤ maxObject) {input : Input}
    (hin : input.previousOutput.index ≤ maxUint32) (hroom : f.rows ≤ maxUint32) : ∃ f',
    f.popIndexes env input = some f' ∧ f'.Holds env (db.popIndexes input) ∧ f'.rows ≤ f.rows := by
  have hle : f.spends.lookup.count ≤ maxUint32 := Nat.le_trans (Nat.le_max_left _ _) hroom
  obtain ⟨spends, r, hu, hspends, hcount⟩ := h.spends.unlink hd hin hle
  unfold Files.popIndexes DataBase.popIndexes rows
  rw [hu, Option.bind_some]
  cases Core.address input.script with
  | none =>
      refine ⟨_, rfl, { h with spends := hspends }, ?_⟩
      dsimp only
      omega
  | some address =>
      obtain ⟨history, hh, hheld, hrows⟩ := h.history.deleteLastRow address
      refine ⟨{ f with spends := spends, history := history }, ?_,
        { h with spends := hspends, history := ?_ }, ?_⟩
      · dsimp only
        rw [hh]
        rfl
      · rw [HistoryDatabase.deleteLastRow_rows]
        exact hheld
      · dsimp only
        omega

/-- **The inputs of a transaction**, in the order they come. -/
theorem Holds.popInputsFrom (h : f.Holds env db) (hd : env.disk.size ≤ maxObject) (height : Nat)
    {inputs : List Input} (hin : ∀ input ∈ inputs, input.previousOutput.index ≤ maxUint32)
    (hroom : f.rows ≤ maxUint32) : ∃ f',
    popInputsFrom env height f inputs = some (f', (DataBase.popInputsFrom height db inputs).2) ∧
      f'.Holds env (DataBase.popInputsFrom height db inputs).1 ∧ f'.rows ≤ f.rows := by
  induction inputs generalizing f db with
  | nil => exact ⟨f, rfl, h, Nat.le_refl _⟩
  | cons input inputs ih =>
      obtain ⟨hi, hin⟩ := List.forall_mem_cons.mp hin
      obtain ⟨transactions, hsp, ht⟩ := h.transactions.spend input.previousOutput notSpent
      have hstart : f.settings.indexStartHeight = db.settings.indexStartHeight := by
        rw [h.settings_eq]
      have hsp : f.transactions.unspend env.form env.hashDigest input.previousOutput =
        some (transactions, (db.transactions.unspend input.previousOutput).2) := hsp
      have ht : TransactionsHold env transactions
        (db.transactions.unspend input.previousOutput).1 := ht
      unfold Files.popInputsFrom DataBase.popInputsFrom
      rw [hsp]
      rcases hun : db.transactions.unspend input.previousOutput with ⟨t, r⟩
      rw [hun] at ht
      have h₁ : Holds env { f with transactions := transactions } { db with transactions := t } :=
        { h with transactions := ht }
      cases r with
      | false => exact ⟨_, rfl, h₁, Nat.le_refl _⟩
      | true =>
          dsimp only
          by_cases hlt : height < db.settings.indexStartHeight
          · rw [if_pos (hstart ▸ hlt), if_pos hlt]
            exact ih h₁ hin hroom
          · rw [if_neg (hstart ▸ hlt), if_neg hlt]
            obtain ⟨f₂, hf₂, h₂, hrows₂⟩ := h₁.popIndexes hd hi hroom
            have hrows₂ : f₂.rows ≤ f.rows := hrows₂
            obtain ⟨f₃, hf₃, h₃, hrows₃⟩ := ih h₂ hin (Nat.le_trans hrows₂ hroom)
            refine ⟨f₃, ?_, h₃, Nat.le_trans hrows₃ hrows₂⟩
            rw [hf₂]
            exact hf₃

/-! ## 3. The transactions of the top block -/

/-- **The loop of `pop`.** Only a store to the pool can throw. -/
theorem Holds.popTransactions (h : f.Holds env db) (hd : env.disk.size ≤ maxObject) (height : Nat)
    {txs : List Transaction} (hpool : ∀ tx ∈ txs, Poolable env tx) (hroom : f.rows ≤ maxUint32)
    {r : Bool} (hc : popTransactions env height f txs = some (f', r)) :
    f'.Holds env (DataBase.popTransactions height db txs).1 ∧
      r = (DataBase.popTransactions height db txs).2 ∧ f'.rows ≤ f.rows := by
  induction txs generalizing f db with
  | nil =>
      cases hc
      exact ⟨h, rfl, Nat.le_refl _⟩
  | cons tx txs ih =>
      obtain ⟨htx, hpool⟩ := List.forall_mem_cons.mp hpool
      obtain ⟨transactions, hun, ht⟩ := h.transactions.unconfirm tx.hash
      unfold Files.popTransactions at hc
      unfold DataBase.popTransactions
      rw [hun] at hc
      rcases hdb : db.transactions.unconfirm tx.hash with ⟨t, b⟩
      rw [hdb] at ht hc
      cases b with
      | false =>
          cases hc
          exact ⟨{ h with transactions := ht }, rfl, Nat.le_refl _⟩
      | true =>
          dsimp only at hc ⊢
          obtain ⟨pool, hp, hc⟩ := Option.bind_eq_some_iff.mp hc
          have h₁ : Holds env { f with transactions := transactions, transactionsUnconfirmed := pool }
              { db with
                transactions := t
                transactionsUnconfirmed := db.transactionsUnconfirmed.store tx } :=
            { h with
              transactions := ht
              transactionsUnconfirmed := h.transactionsUnconfirmed.store hd htx hp }
          obtain ⟨f₂, hf₂, h₂, hrows₂⟩ := h₁.popOutputs tx.outputs height
          have hrows₂ : f₂.rows = f.rows := hrows₂
          have hroom₂ : f₂.rows ≤ maxUint32 := hrows₂.trans_le hroom
          rw [hf₂, Option.bind_some] at hc
          by_cases hcoin : tx.isCoinbase = true
          · rw [if_pos hcoin] at hc
            rw [if_pos hcoin]
            obtain ⟨h', hr, hrows⟩ := ih h₂ hpool hroom₂ hc
            exact ⟨h', hr, hrows.trans_eq hrows₂⟩
          · rw [if_neg hcoin] at hc
            rw [if_neg hcoin]
            have hin : ∀ input ∈ tx.inputs.reverse, input.previousOutput.index ≤ maxUint32 :=
              fun input hi => (htx.1.inputs input (List.mem_reverse.mp hi)).index
            obtain ⟨f₃, hf₃, h₃, hrows₃⟩ := h₂.popInputsFrom hd height hin hroom₂
            have hrows₃ : f₃.rows ≤ f.rows := hrows₃.trans_eq hrows₂
            unfold Files.popInputs at hc
            unfold DataBase.popInputs
            rw [hf₃] at hc
            rcases hdb₃ : DataBase.popInputsFrom height (DataBase.popOutputs { db with
                transactions := t
                transactionsUnconfirmed := db.transactionsUnconfirmed.store tx } tx.outputs height)
              tx.inputs.reverse with ⟨db₃, b⟩
            rw [hdb₃] at h₃ hc
            cases b with
            | false =>
                cases hc
                exact ⟨h₃, rfl, hrows₃⟩
            | true =>
                obtain ⟨h', hr, hrows⟩ := ih h₃ hpool (Nat.le_trans hrows₃ hroom) hc
                exact ⟨h', hr, Nat.le_trans hrows hrows₃⟩

/-! ## 4. `pop` and `pop_above` -/

/-- **Reading back a block that is stored**: the vector is reserved, and what is read goes to the
    pool. -/
theorem Holds.readBlock (h : f.Holds env db) (hd : env.disk.size ≤ maxObject) {height : Nat}
    {r : BlockResult} {record : BlockRecord} (hr : db.blocks.at? height = some r)
    (hreads : BlocksHold.Reads env record r) :
    f.readBlock env height record = some (db.readBlock height r) ∧
      ∀ txs, db.readBlock height r = some txs → ∀ tx ∈ txs, Poolable env tx := by
  unfold Files.readBlock DataBase.readBlock
  rw [if_pos (h.blocks.reserves hr _), if_pos (BlockDatabase.reserves_of_at hr), hreads.hashes]
  exact h.readTransactions hd height r.slab.hashes.zipIdx

/-- **Popping the top block.** -/
theorem Holds.pop (h : f.Holds env db) (hd : env.disk.size ≤ maxObject) (htop : TopStored db.blocks)
    (hroom : f.rows ≤ maxUint32) {out : Option Block} (hc : f.pop env = some (f', out)) :
    f'.Holds env db.pop.1 ∧ out = db.pop.2 ∧ f'.rows ≤ f.rows := by
  unfold Files.pop at hc
  unfold DataBase.pop
  rw [h.blocks.holds.top_eq] at hc
  cases ht : db.blocks.top with
  | none =>
      rw [ht] at hc
      cases hc
      exact ⟨h, rfl, Nat.le_refl _⟩
  | some height =>
      obtain ⟨r, hr⟩ := Option.isSome_iff_exists.mp (htop height ht)
      obtain ⟨record, hget, hreads⟩ := h.blocks.read hr
      obtain ⟨hread, hpool⟩ := h.readBlock hd hr hreads
      rw [ht] at hc
      dsimp only at hc ⊢
      rw [hget] at hc
      rw [BlockDatabase.get_of_at hr]
      dsimp only at hc ⊢
      rw [hread] at hc
      cases htxs : db.readBlock height r with
      | none =>
          rw [htxs] at hc
          cases hc
          exact ⟨h, rfl, Nat.le_refl _⟩
      | some txs =>
          rw [htxs] at hc
          dsimp only at hc ⊢
          cases hpop : Files.popTransactions env height f txs.reverse with
          | none =>
              rw [hpop] at hc
              cases hc
          | some result =>
              obtain ⟨f₁, b⟩ := result
              have hpool : ∀ tx ∈ txs.reverse, Poolable env tx :=
                fun tx hm => hpool txs htxs tx (List.mem_reverse.mp hm)
              obtain ⟨h₁, hb, hrows₁⟩ := h.popTransactions hd height hpool hroom hpop
              rw [hpop] at hc
              rcases hdb : DataBase.popTransactions height db txs.reverse with ⟨db₁, b'⟩
              rw [hdb] at h₁ hb
              cases hb
              cases b' with
              | false =>
                  cases hc
                  exact ⟨h₁, rfl, hrows₁⟩
              | true =>
                  obtain ⟨hblocks, hb⟩ := h₁.blocks.unlink height
                  dsimp only at hc ⊢
                  rcases hun : f₁.blocks.unlink height with ⟨blocks, b⟩
                  rcases hdb₂ : db₁.blocks.unlink height with ⟨blocks', b'⟩
                  rw [hun, hdb₂] at hblocks hb
                  rw [hun] at hc
                  cases hb
                  cases b with
                  | false =>
                      cases hc
                      exact ⟨{ h₁ with blocks := hblocks }, rfl, hrows₁⟩
                  | true =>
                      cases hc
                      have h₂ : Holds env { f₁ with blocks := blocks }
                          { db₁ with blocks := blocks' } := { h₁ with blocks := hblocks }
                      obtain ⟨h₃, hrows₃⟩ := h₂.synchronize
                      refine ⟨h₃, ?_, hrows₃.trans_le hrows₁⟩
                      rw [hreads.header]

omit [Core] in
/-- No height below the top is a gap. -/
def Gapless (blocks : BlockDatabase) : Prop :=
  ∀ height < blocks.count, (blocks.at? height).isSome

instance (blocks : BlockDatabase) : Decidable (Gapless blocks) :=
  inferInstanceAs (Decidable (∀ height < blocks.count, (blocks.at? height).isSome))

omit [Core] in
theorem Gapless.topStored {blocks : BlockDatabase} (h : Gapless blocks) : TopStored blocks :=
  fun height ht => h height (by rw [BlockDatabase.top_eq_some.mp ht]; exact Nat.lt_succ_self _)

/-- On a stored block no pop throws. -/
theorem TopStored.not_popThrows (h : TopStored db.blocks) : ¬ db.popThrows = true := by
  unfold DataBase.popThrows
  cases ht : db.blocks.top with
  | none => exact Bool.false_ne_true
  | some height =>
      obtain ⟨r, hr⟩ := Option.isSome_iff_exists.mp (h height ht)
      dsimp only
      rw [BlockDatabase.reserves_of_at hr]
      exact Bool.false_ne_true

/-- A pop leaves the blocks below the top. -/
theorem Gapless.pop (h : Gapless db.blocks) {out : Block} (hp : db.pop.2 = some out) :
    Gapless db.pop.1.blocks := by
  obtain ⟨height, txs, ⟨htop, _⟩, hpopped⟩ := (db.pop_spec out).2 hp
  have hcount := BlockDatabase.top_eq_some.mp htop
  rw [hpopped.blocks_eq]
  intro k hk
  have hk : k < height := by
    rw [BlockDatabase.unlink_of_lt (by omega)] at hk
    exact hk
  rw [BlockDatabase.unlink_at, if_pos hk]
  exact h k (by omega)

/-- **The loop of `pop_above`.** -/
theorem Holds.popBlocks (h : f.Holds env db) (hd : env.disk.size ≤ maxObject) (hg : Gapless db.blocks)
    (hroom : f.rows ≤ maxUint32) (n : Nat) (out : List Block) {out' : List Block} {ec : Code}
    (hc : popBlocks env n f out = some (f', out', ec)) :
    f'.Holds env (DataBase.popBlocks n db out).1 ∧
      (out', some ec) = (DataBase.popBlocks n db out).2 ∧ f'.rows ≤ f.rows := by
  induction n generalizing f db out with
  | zero =>
      cases hc
      exact ⟨h, rfl, Nat.le_refl _⟩
  | succ n ih =>
      unfold Files.popBlocks at hc
      unfold DataBase.popBlocks
      cases hp : f.pop env with
      | none =>
          rw [hp] at hc
          cases hc
      | some result =>
          obtain ⟨f₁, popped⟩ := result
          obtain ⟨h₁, hpopped, hrows₁⟩ := h.pop hd hg.topStored hroom hp
          rw [hp] at hc
          rw [if_neg hg.topStored.not_popThrows]
          have hgap (b : Block) (hb : db.pop.2 = some b) : Gapless db.pop.1.blocks := hg.pop hb
          rcases hdb : db.pop with ⟨db₁, popped'⟩
          rw [hdb] at h₁ hpopped hgap
          cases hpopped
          cases popped' with
          | none =>
              cases hc
              exact ⟨h₁, rfl, hrows₁⟩
          | some b =>
              obtain ⟨h', hout, hrows⟩ :=
                ih h₁ (hgap b rfl) (Nat.le_trans hrows₁ hroom) (b :: out) hc
              exact ⟨h', hout, Nat.le_trans hrows hrows₁⟩

/-- **Popping above a fork point.** -/
theorem Holds.popAbove (h : f.Holds env db) (hd : env.disk.size ≤ maxObject) (hg : Gapless db.blocks)
    (hroom : f.rows ≤ maxUint32) {forkHash : HashDigest} {out : List Block} {ec : Option Code}
    (hc : f.popAbove env forkHash = some (f', out, ec)) :
    f'.Holds env (db.popAbove forkHash).1 ∧ (out, ec) = (db.popAbove forkHash).2 ∧
      f'.rows ≤ f.rows := by
  have hread := h.blocks.readByHash forkHash
  unfold Files.popAbove at hc
  unfold DataBase.popAbove
  rw [h.blocks.holds.top_eq] at hc
  cases hget : db.blocks.getByHash forkHash with
  | none =>
      rw [hget] at hread
      rw [show f.blocks.getByHash env.hashDigest forkHash = some none from hread] at hc
      cases hc
      exact ⟨h, rfl, Nat.le_refl _⟩
  | some r =>
      rw [hget] at hread
      obtain ⟨record, hrecord, hreads⟩ := hread
      rw [hrecord] at hc
      cases htop : db.blocks.top with
      | none =>
          rw [htop] at hc
          cases hc
          exact ⟨h, rfl, Nat.le_refl _⟩
      | some top =>
          rw [htop] at hc
          dsimp only at hc ⊢
          rw [hreads.height] at hc
          by_cases hzero : DataBase.subSize top r.height = 0
          · rw [if_pos hzero] at hc
            rw [if_pos hzero]
            cases hc
            exact ⟨h, rfl, Nat.le_refl _⟩
          · rw [if_neg hzero] at hc
            rw [if_neg hzero]
            by_cases hbig : DataBase.subSize top r.height > DataBase.maxReserve
            · rw [if_pos hbig] at hc
              rw [if_pos hbig]
              cases hc
              exact ⟨h, rfl, Nat.le_refl _⟩
            · rw [if_neg hbig] at hc
              rw [if_neg hbig]
              obtain ⟨⟨f₁, out₁, ec₁⟩, hpop, he⟩ := Option.map_eq_some_iff.mp hc
              cases he
              exact h.popBlocks hd hg hroom _ _ hpop

end Files

end Libbitcoin.Database
