/-
  File:      BitprimDatabase/DataBase/FilesReturn.lean
  Subject:   **SESSIONS RETURN**: as long as what the disk grants a file, its growth counted in, and
             the counters of four bytes have room for what the steps of a session add, no search runs
             on and no allocation throws.

  * `budget` -- the bytes and the rows there is room for;
  * `Within` -- the sizes of the eight files; `Fills` -- the files hold the tables, within a budget of
    bytes and rows;
  * `txCost`, `blockCost`, `popCost` -- what the writers add, and **`Fills.writeBlock`**,
    **`Fills.pop`**, … that they return for it;
  * **`session_returns`** -- a session whose costs the budget covers runs to its end.
-/
import Mathlib.Algebra.Order.Monoid.Unbundled.Pow
import BitprimDatabase.DataBase.FileSizes
import BitprimDatabase.DataBase.FilesRun

namespace Libbitcoin.Database

open Lib

/-! ## 1. The budget -/

/-- The bytes a file can be grown to, and the rows the counters of four bytes have room for. -/
def budget (bytes : Nat) : Nat × Nat := (bytes, maxUint32)

/-- What a row of an index takes, in every file at the most. -/
def rowCost : Nat × Nat := (100, 1)

/-- What a transaction takes: its item, and its rows. -/
def txCost (env : Env) (tx : Transaction) : Nat × Nat :=
  (storeBytes env.form tx, 0) + tx.rows • rowCost

/-- What writing a block takes: its transactions, its record, and the index up to the height. -/
def blockCost (env : Env) (b : Block) (height : Nat) : Nat × Nat :=
  (b.transactions.map (txCost env)).sum +
    (40 + recordSize env.form.toSizeCodec b + BlockFile.indexPosition (height + 1), 0)

namespace Files

/-- No file is larger. -/
structure Within (f : Files) (n : Nat) : Prop where
  blocks : f.blocks.lookup.logicalSize ≤ n
  blockIndex : f.blocks.indexSize.logicalSize ≤ n
  transactions : f.transactions.lookup.logicalSize ≤ n
  transactionsUnconfirmed : f.transactionsUnconfirmed.lookup.logicalSize ≤ n
  spends : f.spends.lookup.logicalSize ≤ n
  history : f.history.rowsMultimap.map.logicalSize ≤ n
  historyRows : f.history.rowsMultimap.records.logicalSize ≤ n
  stealth : f.stealth.rows.logicalSize ≤ n

/-- **The files hold the tables**, and take no more than the budget. -/
structure Fills (env : Env) (f : Files) (db : DataBase) (n : Nat × Nat) : Prop where
  holds : f.Holds env db
  within : f.Within n.1
  rows_le : f.rows ≤ n.2

variable {env : Env} {room : Nat} {f f' : Files} {db db' : DataBase} {n n' : Nat × Nat}

instance (f : Files) (n : Nat) : Decidable (f.Within n) :=
  decidable_of_iff
    (f.blocks.lookup.logicalSize ≤ n ∧ f.blocks.indexSize.logicalSize ≤ n ∧
      f.transactions.lookup.logicalSize ≤ n ∧ f.transactionsUnconfirmed.lookup.logicalSize ≤ n ∧
        f.spends.lookup.logicalSize ≤ n ∧ f.history.rowsMultimap.map.logicalSize ≤ n ∧
          f.history.rowsMultimap.records.logicalSize ≤ n ∧ f.stealth.rows.logicalSize ≤ n)
    ⟨fun ⟨h₁, h₂, h₃, h₄, h₅, h₆, h₇, h₈⟩ => ⟨h₁, h₂, h₃, h₄, h₅, h₆, h₇, h₈⟩,
      fun h => ⟨h.1, h.2, h.3, h.4, h.5, h.6, h.7, h.8⟩⟩

theorem Within.mono {n n' : Nat} (h : f.Within n) (hle : n ≤ n') : f.Within n' :=
  ⟨h.blocks.trans hle, h.blockIndex.trans hle, h.transactions.trans hle,
    h.transactionsUnconfirmed.trans hle, h.spends.trans hle, h.history.trans hle,
    h.historyRows.trans hle, h.stealth.trans hle⟩

theorem Fills.mono (h : Fills env f db n) (hle : n ≤ n') : Fills env f db n' :=
  ⟨h.holds, h.within.mono hle.1, h.rows_le.trans hle.2⟩

/-- The counters have room where the rows have. -/
theorem Fills.counts (h : Fills env f db n) (hrows : n.2 < maxUint32) :
    f.spends.lookup.count < maxUint32 ∧ f.history.rowsMultimap.records.count < maxUint32 ∧
      f.stealth.rows.count < maxUint32 := by
  have hle := h.rows_le
  unfold rows at hle
  omega

theorem Within.synchronize {n : Nat} (h : f.Within n) : f.synchronize.Within n := by
  unfold Files.synchronize
  split
  · exact ⟨h.blocks, h.blockIndex, h.transactions, h.transactionsUnconfirmed, h.spends, h.history,
      h.historyRows, h.stealth⟩
  · exact ⟨h.blocks, h.blockIndex, h.transactions, h.transactionsUnconfirmed, h.spends, h.history,
      h.historyRows, h.stealth⟩

variable [Core]

/-! ## 2. Pushing -/

section Push

variable (hgrants : env.disk.Grants room) (hd : env.disk.size ≤ maxObject)
include hgrants hd

/-- One input returns. -/
theorem Fills.pushInput (h : Fills env f db n) (hcore : Core.Typed) {txHash : HashDigest}
    {height : Nat} {input : Input × Nat}
    (hin : input.1.previousOutput.index ≤ maxUint32 ∧ input.2 ≤ maxUint32)
    (hb : n + rowCost ≤ budget room) : ∃ f', pushInput env txHash height f input = some f' ∧
      Fills env f' (DataBase.pushInput txHash height db input) (n + rowCost) := by
  obtain ⟨hbytes, hrows⟩ : n.1 + 100 ≤ room ∧ n.2 + 1 ≤ maxUint32 := hb
  obtain ⟨hspends, hhistory, _⟩ := h.counts hrows
  have hw := h.within
  have hreturns : ∃ f', Files.pushInput env txHash height f input = some f' ∧
      f'.Within (n.1 + 100) := by
    have := hw.spends
    have := hw.history
    have := hw.historyRows
    obtain ⟨s, hheld, _⟩ := h.holds.spends
    obtain ⟨spends, hs, hsize⟩ := hheld.store_returns hd (.of input.1.previousOutput)
      (.of ⟨txHash, input.2⟩) hspends (hgrants.mono (by omega))
    have hw' := hw.mono (Nat.le_add_right n.1 100)
    unfold Files.pushInput
    dsimp only
    rw [hs, Option.bind_some]
    cases Core.address input.1.script with
    | none => exact ⟨_, rfl, { hw' with spends := by dsimp only; omega }⟩
    | some address =>
        obtain ⟨g, hg, hmap, hrecords⟩ := h.holds.history.addRow_returns hd address
          (HistoryDatabase.inputRow ⟨txHash, input.2⟩ height input.1.previousOutput) hhistory
          (hgrants.mono (by omega)) (hgrants.mono (by unfold rowRecordSize; omega))
        unfold rowRecordSize at hrecords
        refine ⟨{ f with spends := spends, history := ⟨g⟩ }, ?_,
          { hw' with
            spends := by dsimp only; omega
            history := by dsimp only; omega
            historyRows := by dsimp only; omega }⟩
        have hadd : f.history.addInput env.hashShort env.disk address ⟨txHash, input.2⟩ height
          input.1.previousOutput = some ⟨g⟩ := congrArg (Option.map HistoryFile.mk) hg
        dsimp only
        rw [hadd]
        rfl
  obtain ⟨f', hf', hwithin⟩ := hreturns
  have hroom : f.rows + 1 ≤ maxUint32 := (Nat.add_le_add_right h.rows_le 1).trans hrows
  obtain ⟨hheld, hle⟩ := h.holds.pushInput hd hcore hin hroom hf'
  exact ⟨f', hf', hheld, hwithin, hle.trans (Nat.add_le_add_right h.rows_le 1)⟩

/-- One output returns. -/
theorem Fills.pushOutput (h : Fills env f db n) {txHash : HashDigest} {height : Nat}
    {output : Output × Nat} (hout : output.1.value ≤ maxSize ∧ output.2 ≤ maxUint32)
    (hb : n + rowCost ≤ budget room) : ∃ f', pushOutput env txHash height f output = some f' ∧
      Fills env f' (DataBase.pushOutput txHash height db output) (n + rowCost) := by
  obtain ⟨hbytes, hrows⟩ : n.1 + 100 ≤ room ∧ n.2 + 1 ≤ maxUint32 := hb
  obtain ⟨_, hhistory, _⟩ := h.counts hrows
  have hw := h.within
  have hw' := hw.mono (Nat.le_add_right n.1 100)
  have hreturns : ∃ f', Files.pushOutput env txHash height f output = some f' ∧
      f'.Within (n.1 + 100) := by
    have := hw.history
    have := hw.historyRows
    unfold Files.pushOutput
    cases Core.address output.1.script with
    | none => exact ⟨_, rfl, hw'⟩
    | some address =>
        obtain ⟨g, hg, hmap, hrecords⟩ := h.holds.history.addRow_returns hd address
          (HistoryDatabase.outputRow ⟨txHash, output.2⟩ height output.1.value) hhistory
          (hgrants.mono (by omega)) (hgrants.mono (by unfold rowRecordSize; omega))
        unfold rowRecordSize at hrecords
        have hadd : f.history.addOutput env.hashShort env.disk address ⟨txHash, output.2⟩ height
          output.1.value = some ⟨g⟩ := congrArg (Option.map HistoryFile.mk) hg
        refine ⟨{ f with history := ⟨g⟩ }, ?_,
          { hw' with history := by dsimp only; omega, historyRows := by dsimp only; omega }⟩
        dsimp only
        rw [hadd]
        rfl
  obtain ⟨f', hf', hwithin⟩ := hreturns
  have hroom : f.rows + 1 ≤ maxUint32 := (Nat.add_le_add_right h.rows_le 1).trans hrows
  obtain ⟨hheld, hle⟩ := h.holds.pushOutput hd hout hroom hf'
  exact ⟨f', hf', hheld, hwithin, hle.trans (Nat.add_le_add_right h.rows_le 1)⟩

/-- One pair of outputs returns. -/
theorem Fills.pushStealthPair (h : Fills env f db n) (hcore : Core.Typed) {txHash : HashDigest}
    {height : Nat} {pair : Output × Output} (hb : n + rowCost ≤ budget room) : ∃ f',
    pushStealthPair env txHash height f pair = some f' ∧
      Fills env f' (DataBase.pushStealthPair txHash height db pair) (n + rowCost) := by
  obtain ⟨hbytes, hrows⟩ : n.1 + 100 ≤ room ∧ n.2 + 1 ≤ maxUint32 := hb
  obtain ⟨_, _, hstealth⟩ := h.counts hrows
  have hw := h.within
  have hw' := hw.mono (Nat.le_add_right n.1 100)
  have hreturns : ∃ f', Files.pushStealthPair env txHash height f pair = some f' ∧
      f'.Within (n.1 + 100) := by
    unfold Files.pushStealthPair
    split
    · rename_i address key stealthPrefix _ _ _
      have := hw.stealth
      obtain ⟨stealth, hs, hsize⟩ := h.holds.stealth.store_returns hd stealthPrefix height
        ⟨key, address, txHash⟩ hstealth (hgrants.mono (by unfold stealthRowSize; omega))
      unfold stealthRowSize at hsize
      refine ⟨{ f with stealth := stealth }, ?_, { hw' with stealth := by dsimp only; omega }⟩
      rw [hs]
      rfl
    · exact ⟨_, rfl, hw'⟩
  obtain ⟨f', hf', hwithin⟩ := hreturns
  have hroom : f.rows + 1 ≤ maxUint32 := (Nat.add_le_add_right h.rows_le 1).trans hrows
  obtain ⟨hheld, hle⟩ := h.holds.pushStealthPair hd hcore hroom hf'
  exact ⟨f', hf', hheld, hwithin, hle.trans (Nat.add_le_add_right h.rows_le 1)⟩

omit [Core] hgrants hd in
/-- A loop whose passes take a row at most. -/
theorem Fills.loop {O : Type} {step : Files → O → Option Files} {step' : DataBase → O → DataBase}
    {G : O → Prop} (hstep : ∀ f db o n, Fills env f db n → G o → n + rowCost ≤ budget room →
      ∃ f', step f o = some f' ∧ Fills env f' (step' db o) (n + rowCost)) (h : Fills env f db n)
    {ops : List O} (hG : ∀ o ∈ ops, G o) (hb : n + ops.length • rowCost ≤ budget room) : ∃ f',
    runSome step f ops = some f' ∧ Fills env f' (run step' db ops) (n + ops.length • rowCost) := by
  have hsum : total step' (fun _ _ => rowCost) db ops = ops.length • rowCost := by
    rw [total_const, List.map_const', List.sum_replicate]
  have hloop := runSome_returns (G := fun _ o => G o) hstep h (.of_mem _ hG) (by rwa [hsum])
  rwa [hsum] at hloop

theorem Fills.pushInputs (h : Fills env f db n) (hcore : Core.Typed) {txHash : HashDigest}
    {height : Nat} {inputs : List Input} (hcount : inputs.length ≤ maxUint32)
    (hin : ∀ input ∈ inputs, input.previousOutput.index ≤ maxUint32)
    (hb : n + inputs.length • rowCost ≤ budget room) : ∃ f',
    f.pushInputs env txHash height inputs = some f' ∧
      Fills env f' (db.pushInputs txHash height inputs) (n + inputs.length • rowCost) := by
  have hstep (f : Files) (db : DataBase) (i : Input × Nat) (n : Nat × Nat) (h : Fills env f db n)
      (hi : i.1.previousOutput.index ≤ maxUint32 ∧ i.2 ≤ maxUint32)
      (hb : n + rowCost ≤ budget room) : ∃ f', Files.pushInput env txHash height f i = some f' ∧
        Fills env f' (DataBase.pushInput txHash height db i) (n + rowCost) :=
    h.pushInput hgrants hd hcore hi hb
  have hall : ∀ i ∈ inputs.zipIdx, i.1.previousOutput.index ≤ maxUint32 ∧ i.2 ≤ maxUint32 := by
    intro i hi
    obtain ⟨_, hlt, heq⟩ := List.mem_zipIdx hi
    exact ⟨hin i.1 (heq ▸ List.getElem_mem _), by omega⟩
  have hloop := h.loop hstep hall (by rwa [List.length_zipIdx])
  rwa [List.length_zipIdx] at hloop

theorem Fills.pushOutputs (h : Fills env f db n) {txHash : HashDigest} {height : Nat}
    {outputs : List Output} (hcount : outputs.length ≤ maxUint32)
    (hout : ∀ output ∈ outputs, output.value ≤ maxSize)
    (hb : n + outputs.length • rowCost ≤ budget room) : ∃ f',
    f.pushOutputs env txHash height outputs = some f' ∧
      Fills env f' (db.pushOutputs txHash height outputs) (n + outputs.length • rowCost) := by
  have hstep (f : Files) (db : DataBase) (o : Output × Nat) (n : Nat × Nat) (h : Fills env f db n)
      (ho : o.1.value ≤ maxSize ∧ o.2 ≤ maxUint32) (hb : n + rowCost ≤ budget room) : ∃ f',
        Files.pushOutput env txHash height f o = some f' ∧
          Fills env f' (DataBase.pushOutput txHash height db o) (n + rowCost) :=
    h.pushOutput hgrants hd ho hb
  have hall : ∀ o ∈ outputs.zipIdx, o.1.value ≤ maxSize ∧ o.2 ≤ maxUint32 := by
    intro o ho
    obtain ⟨_, hlt, heq⟩ := List.mem_zipIdx ho
    exact ⟨hout o.1 (heq ▸ List.getElem_mem _), by omega⟩
  have hloop := h.loop hstep hall (by rwa [List.length_zipIdx])
  rwa [List.length_zipIdx] at hloop

theorem Fills.pushStealth (h : Fills env f db n) (hcore : Core.Typed) {txHash : HashDigest}
    {height : Nat} {outputs : List Output} (hb : n + outputs.length • rowCost ≤ budget room) : ∃ f',
    f.pushStealth env txHash height outputs = some f' ∧
      Fills env f' (db.pushStealth txHash height outputs) (n + outputs.length • rowCost) := by
  have hlen : (outputs.zip outputs.tail).length • rowCost ≤ outputs.length • rowCost :=
    nsmul_le_nsmul_left zero_le ((List.length_zip ..).trans_le (Nat.min_le_left _ _))
  have hstep (f : Files) (db : DataBase) (p : Output × Output) (n : Nat × Nat)
      (h : Fills env f db n) (_ : True) (hb : n + rowCost ≤ budget room) : ∃ f',
        Files.pushStealthPair env txHash height f p = some f' ∧
          Fills env f' (DataBase.pushStealthPair txHash height db p) (n + rowCost) :=
    h.pushStealthPair hgrants hd hcore hb
  obtain ⟨f', hf', h'⟩ := h.loop hstep (fun _ _ => True.intro)
    (le_trans (add_le_add_right hlen n) hb)
  exact ⟨f', hf', h'.mono (add_le_add_right hlen n)⟩

/-- **The indexes of a transaction return.** -/
theorem Fills.pushIndexes (h : Fills env f db n) (hcore : Core.Typed) {tx : Transaction}
    (hw : tx.Wire env.form) {height position : Nat} (hb : n + tx.rows • rowCost ≤ budget room) : ∃ f',
    f.pushIndexes env height tx position = some f' ∧
      Fills env f' (db.pushIndexes height tx position) (n + tx.rows • rowCost) := by
  have hsum : n + tx.rows • rowCost = n + tx.inputs.length • rowCost + tx.outputs.length • rowCost +
      tx.outputs.length • rowCost := by
    unfold Transaction.rows
    rw [add_nsmul, Nat.two_mul, add_nsmul]
    simp only [add_assoc]
  rw [hsum] at hb ⊢
  have hb₂ := le_self_add.trans hb
  have hb₁ := le_self_add.trans hb₂
  obtain ⟨f₁, hf₁, h₁⟩ : ∃ f₁, (if position ≠ 0 then f.pushInputs env tx.hash height tx.inputs
        else some f) = some f₁ ∧
      Fills env f₁ (if position ≠ 0 then db.pushInputs tx.hash height tx.inputs else db)
        (n + tx.inputs.length • rowCost) := by
    split
    · exact h.pushInputs hgrants hd hcore hw.inputCount (fun input hi => (hw.input input hi).index) hb₁
    · exact ⟨f, rfl, h.mono le_self_add⟩
  obtain ⟨f₂, hf₂, h₂⟩ := h₁.pushOutputs hgrants hd hw.outputCount hw.value hb₂
  obtain ⟨f₃, hf₃, h₃⟩ := h₂.pushStealth hgrants hd hcore hb
  refine ⟨f₃, ?_, h₃⟩
  unfold Files.pushIndexes
  rw [hf₁, Option.bind_some, hf₂, Option.bind_some]
  exact hf₃

/-- **One transaction of a block returns.** -/
theorem Fills.pushTransaction (h : Fills env f db n) (hcore : Core.Typed) {height : Nat}
    {tx : Transaction × Nat} (hw : tx.1.Wire env.form) (hb : n + txCost env tx.1 ≤ budget room) : ∃ f',
    pushTransaction env height f tx = some f' ∧
      Fills env f' (DataBase.pushTransaction height db tx) (n + txCost env tx.1) := by
  have hsum : n + txCost env tx.1 = n + (storeBytes env.form tx.1, 0) + tx.1.rows • rowCost :=
    (add_assoc ..).symm
  rw [hsum] at hb ⊢
  obtain ⟨hbytes, hrows⟩ : n.1 + storeBytes env.form tx.1 ≤ room ∧ n.2 + 0 ≤ maxUint32 :=
    le_self_add.trans hb
  have hwithin := h.within
  obtain ⟨transactions, ht, hsize⟩ := h.holds.transactions.holds.store_returns hd tx.1 height tx.2
    (hgrants.mono ((Nat.add_le_add_right hwithin.transactions _).trans hbytes))
  obtain ⟨pool, hpool, hheld⟩ := h.holds.transactionsUnconfirmed.unlinkIfExists tx.1.hash
  have hpoolSize := PoolFile.unlinkIfExists_size hpool
  have hmono := hwithin.mono (Nat.le_add_right n.1 (storeBytes env.form tx.1))
  have h₁ : Fills env { f with transactions := transactions, transactionsUnconfirmed := pool }
      { db with
        transactions := db.transactions.store tx.1 height tx.2
        transactionsUnconfirmed := (db.transactionsUnconfirmed.unlinkIfExists tx.1.hash).1 }
      (n + (storeBytes env.form tx.1, 0)) := by
    refine ⟨{ h.holds with
        transactions := h.holds.transactions.store hd hw ht
        transactionsUnconfirmed := hheld },
      { hmono with
        transactions := hsize.trans (Nat.add_le_add_right hwithin.transactions _)
        transactionsUnconfirmed := hpoolSize.trans_le hmono.transactionsUnconfirmed }, h.rows_le⟩
  have hstart : f.settings.indexStartHeight = db.settings.indexStartHeight := by
    rw [h.holds.settings_eq]
  unfold Files.pushTransaction DataBase.pushTransaction
  rw [ht, Option.bind_some, hpool, Option.bind_some]
  dsimp only
  by_cases hlt : height < db.settings.indexStartHeight
  · rw [if_pos (hstart ▸ hlt), if_pos hlt]
    exact ⟨_, rfl, h₁.mono le_self_add⟩
  · rw [if_neg (hstart ▸ hlt), if_neg hlt]
    exact h₁.pushIndexes hgrants hd hcore hw hb

/-- **The transactions of a block return.** -/
theorem Fills.pushTransactions (h : Fills env f db n) (hcore : Core.Typed) {b : Block} (height : Nat)
    (hw : ∀ tx ∈ b.transactions, tx.Wire env.form)
    (hb : n + (b.transactions.map (txCost env)).sum ≤ budget room) : ∃ f',
    f.pushTransactions env b height 0 1 = some (f', true) ∧
      Fills env f' (db.pushTransactions b height 0 1).1
        (n + (b.transactions.map (txCost env)).sum) := by
  have hall : b.transactions.zipIdx.filter (fun tx => tx.2 % 1 == 0) = b.transactions.zipIdx :=
    List.filter_eq_self.mpr fun tx _ => by rw [Nat.mod_one]; rfl
  have hsum : total (DataBase.pushTransaction height)
      (fun _ (tx : Transaction × Nat) => txCost env tx.1) db b.transactions.zipIdx =
        (b.transactions.map (txCost env)).sum := by
    rw [total_const fun tx : Transaction × Nat => txCost env tx.1,
      show (fun tx : Transaction × Nat => txCost env tx.1) = txCost env ∘ Prod.fst from rfl,
      ← List.map_map, List.zipIdx_map_fst]
  have hstep (f : Files) (db : DataBase) (tx : Transaction × Nat) (n : Nat × Nat)
      (h : Fills env f db n) (hw : tx.1.Wire env.form) (hb : n + txCost env tx.1 ≤ budget room) : ∃ f',
        Files.pushTransaction env height f tx = some f' ∧
          Fills env f' (DataBase.pushTransaction height db tx) (n + txCost env tx.1) :=
    h.pushTransaction hgrants hd hcore hw hb
  have hmem : ∀ tx ∈ b.transactions.zipIdx, tx.1.Wire env.form := fun tx htx => by
    obtain ⟨_, hlt, heq⟩ := List.mem_zipIdx htx
    exact hw tx.1 (heq ▸ List.getElem_mem _)
  obtain ⟨f', hf', h'⟩ := runSome_returns (G := fun _ (tx : Transaction × Nat) => tx.1.Wire env.form)
    hstep h (.of_mem _ hmem) (by rwa [hsum])
  rw [hsum] at h'
  refine ⟨f', ?_, by rw [DataBase.pushTransactions_eq]; exact h'⟩
  unfold Files.pushTransactions
  rw [hall, hf']
  rfl

omit [Core] hgrants hd in
theorem spendAll_returns {transactions : TransactionFile} {t : TransactionDatabase}
    (h : TransactionsHold env transactions t) (height : Nat) (points : List Point) :
    ∃ transactions' r, spendAll env transactions height points = some (transactions', r) ∧
      transactions'.lookup.logicalSize = transactions.lookup.logicalSize := by
  induction points generalizing transactions t with
  | nil => exact ⟨transactions, true, rfl, rfl⟩
  | cons point points ih =>
      obtain ⟨g, hg, h'⟩ := h.spend point height
      have hsize := TransactionFile.spend_size hg
      unfold spendAll
      rw [hg]
      cases (t.spend point height).2 with
      | false => exact ⟨g, false, rfl, hsize⟩
      | true =>
          obtain ⟨g', r, hg', hsize'⟩ := ih h'
          exact ⟨g', r, hg', hsize'.trans hsize⟩

omit [Core] hgrants hd in
theorem Fills.pushHeights (h : Fills env f db n) (b : Block) (height : Nat) : ∃ f',
    f.pushHeights env b height = some (f', (db.pushHeights b height).2) ∧
      Fills env f' (db.pushHeights b height).1 n := by
  obtain ⟨transactions, r, hs, hsize⟩ :=
    spendAll_returns h.holds.transactions.synchronize height b.previousOutputs
  have hpush : f.pushHeights env b height = some ({ f with transactions := transactions }, r) := by
    unfold Files.pushHeights
    rw [hs]
    rfl
  obtain ⟨hheld, hr, hrows⟩ := h.holds.pushHeights b height hpush
  have hsize : transactions.lookup.logicalSize = f.transactions.lookup.logicalSize := hsize
  exact ⟨_, hr ▸ hpush, hheld,
    { h.within with transactions := hsize.trans_le h.within.transactions },
    hrows.trans_le h.rows_le⟩

/-- **The three phases of a writer return.** -/
theorem Fills.writeBlock (h : Fills env f db n) (hcore : Core.Typed) {b : Block} {height : Nat}
    (hblock : b.Wire env.form.toSizeCodec) (hw : ∀ tx ∈ b.transactions, tx.Wire env.form)
    (hheight : height < maxUint32) (hb : n + blockCost env b height ≤ budget room) : ∃ f',
    f.writeBlock env b height = some (f', (db.writeBlock b height).2) ∧
      Fills env f' (db.writeBlock b height).1 (n + blockCost env b height) := by
  have hsum : n + blockCost env b height = n + (b.transactions.map (txCost env)).sum +
      (40 + recordSize env.form.toSizeCodec b + BlockFile.indexPosition (height + 1), 0) :=
    (add_assoc ..).symm
  rw [hsum] at hb ⊢
  obtain ⟨f₁, hf₁, h₁⟩ := h.pushTransactions hgrants hd hcore height hw (le_self_add.trans hb)
  generalize n + (b.transactions.map (txCost env)).sum = n₁ at hb h₁ ⊢
  have hmono : n₁ ≤ n₁ + (40 + recordSize env.form.toSizeCodec b +
    BlockFile.indexPosition (height + 1), 0) := le_self_add
  have hpushed : (db.pushTransactions b height 0 1).2 = true := rfl
  unfold Files.writeBlock DataBase.writeBlock
  rw [hf₁]
  rcases hdb : db.pushTransactions b height 0 1 with ⟨db₁, r⟩
  rw [hdb] at h₁ hpushed
  cases hpushed
  dsimp only
  obtain ⟨f₂, hf₂, h₂⟩ := h₁.pushHeights b height
  rw [hf₂]
  rcases hdb₂ : DataBase.pushHeights db₁ b height with ⟨db₂, r⟩
  rw [hdb₂] at h₂
  have hf₂ : f₁.pushHeights env b height = some (f₂, r) := by rw [hf₂, hdb₂]
  cases r with
  | false => exact ⟨f₂, rfl, h₂.mono hmono⟩
  | true =>
      obtain ⟨hbytes, hrows⟩ : n₁.1 + (40 + recordSize env.form.toSizeCodec b +
        BlockFile.indexPosition (height + 1)) ≤ room ∧ n₁.2 + 0 ≤ maxUint32 := hb
      have hwithin := h₂.within
      have := hwithin.blocks
      have := hwithin.blockIndex
      obtain ⟨blocks, hs, hsize, hindex⟩ := h₂.holds.blocks.holds.store_returns
        h₂.holds.blocks.indexed hd hblock hheight (hgrants.mono (by omega)) (hgrants.mono (by omega))
      have hwithin' := hwithin.mono hmono.1
      have h₃ : Fills env { f₂ with blocks := blocks }
          { db₂ with blocks := db₂.blocks.store b height }
          (n₁ + (40 + recordSize env.form.toSizeCodec b + BlockFile.indexPosition (height + 1), 0)) := by
        refine ⟨{ h₂.holds with blocks := h₂.holds.blocks.store hd hblock hheight hs },
          { hwithin' with blocks := ?_, blockIndex := ?_ }, h₂.rows_le⟩
        · show blocks.lookup.logicalSize ≤ n₁.1 + (_ + _)
          omega
        · show blocks.indexSize.logicalSize ≤ n₁.1 + (_ + _)
          omega
      obtain ⟨h₄, hrows₄⟩ := h₃.holds.synchronize
      refine ⟨_, ?_, h₄, h₃.within.synchronize, hrows₄.trans_le h₃.rows_le⟩
      dsimp only
      rw [hs]
      rfl

theorem Fills.insert (h : Fills env f db n) (hcore : Core.Typed) {b : Block} {height : Nat}
    (hblock : b.Wire env.form.toSizeCodec) (hw : ∀ tx ∈ b.transactions, tx.Wire env.form)
    (hheight : height < maxUint32) (hb : n + blockCost env b height ≤ budget room) : ∃ f',
    f.insert env b height = some (f', (db.insert b height).2) ∧
      Fills env f' (db.insert b height).1 (n + blockCost env b height) := by
  unfold Files.insert DataBase.insert
  rw [h.holds.verifyInsert_eq b height]
  cases db.verifyInsert b height with
  | success =>
      dsimp only
      obtain ⟨f', hf', h'⟩ := h.writeBlock hgrants hd hcore hblock hw hheight hb
      rw [hf']
      rcases hdb : db.writeBlock b height with ⟨db', r⟩
      rw [hdb] at h'
      cases r <;> exact ⟨f', rfl, h'⟩
  | _ => exact ⟨f, rfl, h.mono le_self_add⟩

omit [Core] hgrants hd in
theorem Fills.finish (h : Fills env f db n) : f.finish.2 = db.finish.2 ∧
    Fills env f.finish.1 db.finish.1 n := by
  obtain ⟨hheld, hec, hrows⟩ := h.holds.finish
  have hw := h.within
  exact ⟨hec, hheld, ⟨hw.blocks, hw.blockIndex, hw.transactions, hw.transactionsUnconfirmed, hw.spends,
    hw.history, hw.historyRows, hw.stealth⟩, hrows.trans_le h.rows_le⟩

omit [Core] hgrants hd in
theorem Fills.setStore (h : Fills env f db n) (store : Store) :
    Fills env { f with store := store } { db with store := store } n :=
  have hw := h.within
  ⟨{ h.holds with store_eq := rfl }, ⟨hw.blocks, hw.blockIndex, hw.transactions,
    hw.transactionsUnconfirmed, hw.spends, hw.history, hw.historyRows, hw.stealth⟩, h.rows_le⟩

theorem Fills.push (h : Fills env f db n) (hcore : Core.Typed) {b : Block} {height : Nat}
    (hblock : b.Wire env.form.toSizeCodec) (hw : ∀ tx ∈ b.transactions, tx.Wire env.form)
    (hheight : height < maxUint32) (htop : TopStored db.blocks)
    (hb : n + blockCost env b height ≤ budget room) : ∃ f',
    f.push env b height = some (f', (db.push b height).2) ∧
      Fills env f' (db.push b height).1 (n + blockCost env b height) := by
  unfold Files.push DataBase.push
  rw [h.holds.verifyPush_eq htop b height, h.holds.store_eq]
  cases db.verifyPush b height with
  | success =>
      dsimp only
      rcases db.store.beginWrite with ⟨store, r⟩
      have h₀ := h.setStore store
      cases r with
      | false => exact ⟨_, rfl, h₀.mono le_self_add⟩
      | true =>
          obtain ⟨f₁, hf₁, h₁⟩ := h₀.writeBlock hgrants hd hcore hblock hw hheight hb
          dsimp only
          rw [hf₁]
          rcases hdb : DataBase.writeBlock { db with store := store } b height with ⟨db₁, r⟩
          rw [hdb] at h₁
          cases r with
          | false => exact ⟨f₁, rfl, h₁⟩
          | true =>
              obtain ⟨hec, h₂⟩ := h₁.finish
              exact ⟨f₁.finish.1, congrArg some (Prod.ext rfl hec), h₂⟩
  | _ => exact ⟨f, rfl, h.mono le_self_add⟩

theorem Fills.pushUnconfirmed (h : Fills env f db n) {tx : Transaction} (hw : tx.Wire env.form)
    (forks : Nat) (hb : n + (storeBytes env.form tx, 0) ≤ budget room) : ∃ f',
    f.pushUnconfirmed env tx forks = some (f', (db.pushUnconfirmed tx forks).2) ∧
      Fills env f' (db.pushUnconfirmed tx forks).1 (n + (storeBytes env.form tx, 0)) := by
  obtain ⟨hbytes, _⟩ : n.1 + storeBytes env.form tx ≤ room ∧ n.2 + 0 ≤ maxUint32 := hb
  unfold Files.pushUnconfirmed DataBase.pushUnconfirmed
  rw [h.holds.verifyPushTransaction_eq tx, h.holds.store_eq]
  cases db.verifyPushTransaction tx with
  | success =>
      dsimp only
      rcases db.store.beginWrite with ⟨store, r⟩
      cases r with
      | false => exact ⟨_, rfl, (h.setStore store).mono le_self_add⟩
      | true =>
          have hwithin := h.within
          have hmono := hwithin.mono (Nat.le_add_right n.1 (storeBytes env.form tx))
          obtain ⟨transactions, ht, hsize⟩ := h.holds.transactions.holds.store_returns hd tx forks
            unconfirmed (hgrants.mono ((Nat.add_le_add_right hwithin.transactions _).trans hbytes))
          obtain ⟨pool, hp, hpool⟩ := h.holds.transactionsUnconfirmed.store_returns hd tx
            (hgrants.mono ((Nat.add_le_add_right hwithin.transactionsUnconfirmed _).trans hbytes))
          have h₁ : Fills env
              { f with
                store := store
                transactions := transactions.synchronize
                transactionsUnconfirmed := pool.synchronize }
              { db with
                store := store
                transactions := db.transactions.store tx forks unconfirmed
                transactionsUnconfirmed := db.transactionsUnconfirmed.store tx }
              (n + (storeBytes env.form tx, 0)) :=
            ⟨{ h.holds with
                store_eq := rfl
                transactions := (h.holds.transactions.store hd hw ht).synchronize
                transactionsUnconfirmed :=
                  (h.holds.transactionsUnconfirmed.store hd (hw.store 0 unconfirmed) hp).synchronize },
              ⟨hmono.blocks, hmono.blockIndex,
                hsize.trans (Nat.add_le_add_right hwithin.transactions _),
                hpool.trans_le (Nat.add_le_add_right hwithin.transactionsUnconfirmed _),
                hmono.spends, hmono.history, hmono.historyRows, hmono.stealth⟩, h.rows_le⟩
          obtain ⟨hec, h₂⟩ := h₁.finish
          dsimp only
          rw [ht, Option.bind_some, hp]
          exact ⟨_, congrArg some (Prod.ext rfl hec), h₂⟩
  | _ => exact ⟨f, rfl, h.mono le_self_add⟩

end Push

/-! ## 3. Popping -/

omit [Core] in
theorem Within.unspend {k : Nat} (h : f.Within k) {point : Point} {transactions : TransactionFile}
    {r : Bool} (hc : f.transactions.unspend env.form env.hashDigest point = some (transactions, r)) :
    Within { f with transactions := transactions } k :=
  { h with transactions := (TransactionFile.spend_size hc).trans_le h.transactions }

theorem Within.popOutput {k : Nat} (h : f.Within k) {output : Output}
    (hc : popOutput env f output = some f') : f'.Within k := by
  unfold Files.popOutput at hc
  split at hc
  · cases hc
    exact h
  · obtain ⟨⟨history, r⟩, hh, rfl⟩ := Option.map_eq_some_iff.mp hc
    obtain ⟨hmap, hrecords⟩ := HistoryFile.deleteLastRow_size hh
    exact { h with
      history := hmap.trans_le h.history
      historyRows := hrecords.trans_le h.historyRows }

theorem Within.popOutputs {k : Nat} (h : f.Within k) {outputs : List Output} {height : Nat}
    (hc : f.popOutputs env outputs height = some f') : f'.Within k := by
  unfold Files.popOutputs at hc
  split at hc
  · cases hc
    exact h
  · exact runSome_keeps (fun f o f' h hc => Within.popOutput h hc) h hc

theorem Within.popIndexes {k : Nat} (h : f.Within k) {input : Input}
    (hc : f.popIndexes env input = some f') : f'.Within k := by
  unfold Files.popIndexes at hc
  obtain ⟨⟨spends, r⟩, hs, hc⟩ := Option.bind_eq_some_iff.mp hc
  have hspends := (SpendFile.unlink_size hs).trans_le h.spends
  dsimp only at hc
  split at hc
  · cases hc
    exact { h with spends := hspends }
  · obtain ⟨⟨history, r⟩, hh, rfl⟩ := Option.map_eq_some_iff.mp hc
    obtain ⟨hmap, hrecords⟩ := HistoryFile.deleteLastRow_size hh
    exact { h with
      spends := hspends
      history := hmap.trans_le h.history
      historyRows := hrecords.trans_le h.historyRows }

theorem Within.popInputsFrom {k height : Nat} (h : f.Within k) {inputs : List Input} {r : Bool}
    (hc : popInputsFrom env height f inputs = some (f', r)) : f'.Within k := by
  induction inputs generalizing f with
  | nil =>
      cases hc
      exact h
  | cons input inputs ih =>
      unfold Files.popInputsFrom at hc
      split at hc
      · cases hc
      · rename_i transactions hun
        cases hc
        exact h.unspend hun
      · rename_i transactions hun
        dsimp only at hc
        split at hc
        · exact ih (h.unspend hun) hc
        · obtain ⟨f₁, hf₁, hc⟩ := Option.bind_eq_some_iff.mp hc
          exact ih ((h.unspend hun).popIndexes hf₁) hc

/-- What transactions take of the pool. -/
def poolCost (env : Env) (txs : List Transaction) : Nat × Nat :=
  (txs.map fun tx => (storeBytes env.form tx, 0)).sum

/-- **The loop of `pop` returns.** -/
theorem Fills.popTransactions (h : Fills env f db n) (hgrants : env.disk.Grants room)
    (hd : env.disk.size ≤ maxObject) (height : Nat) {txs : List Transaction}
    (hpool : ∀ tx ∈ txs, Poolable env tx) (hb : n + poolCost env txs ≤ budget room) : ∃ f',
    popTransactions env height f txs = some (f', (DataBase.popTransactions height db txs).2) ∧
      Fills env f' (DataBase.popTransactions height db txs).1 (n + poolCost env txs) := by
  induction txs generalizing f db n with
  | nil => exact ⟨f, rfl, h.mono le_self_add⟩
  | cons tx txs ih =>
      obtain ⟨htx, hpool⟩ := List.forall_mem_cons.mp hpool
      have hsum : n + poolCost env (tx :: txs) = n + (storeBytes env.form tx, 0) + poolCost env txs := by
        unfold poolCost
        rw [List.map_cons, List.sum_cons, add_assoc]
      rw [hsum] at hb ⊢
      have hb₁ := le_self_add.trans hb
      obtain ⟨hbytes, hrows⟩ : n.1 + storeBytes env.form tx ≤ room ∧ n.2 + 0 ≤ maxUint32 := hb₁
      have hwithin := h.within
      have hmono := hwithin.mono (Nat.le_add_right n.1 (storeBytes env.form tx))
      obtain ⟨transactions, hun, ht⟩ := h.holds.transactions.unconfirm tx.hash
      have hsize := TransactionFile.confirm_size hun
      have h₀ : Fills env { f with transactions := transactions }
          { db with transactions := (db.transactions.unconfirm tx.hash).1 }
          (n + (storeBytes env.form tx, 0)) :=
        ⟨{ h.holds with transactions := ht },
          { hmono with transactions := hsize.trans_le hmono.transactions }, h.rows_le⟩
      unfold Files.popTransactions DataBase.popTransactions
      rw [hun]
      rcases hdb : db.transactions.unconfirm tx.hash with ⟨t, r⟩
      rw [hdb] at h₀
      cases r with
      | false => exact ⟨_, rfl, h₀.mono le_self_add⟩
      | true =>
          obtain ⟨pool, hp, hpoolSize⟩ := h.holds.transactionsUnconfirmed.store_returns hd tx
            (hgrants.mono ((Nat.add_le_add_right hwithin.transactionsUnconfirmed _).trans hbytes))
          have h₁ : Fills env { f with transactions := transactions, transactionsUnconfirmed := pool }
              { db with
                transactions := t
                transactionsUnconfirmed := db.transactionsUnconfirmed.store tx }
              (n + (storeBytes env.form tx, 0)) :=
            ⟨{ h₀.holds with
                transactionsUnconfirmed := h.holds.transactionsUnconfirmed.store hd htx hp },
              { h₀.within with
                transactionsUnconfirmed :=
                  hpoolSize.trans_le (Nat.add_le_add_right hwithin.transactionsUnconfirmed _) },
              h₀.rows_le⟩
          obtain ⟨f₂, hf₂, h₂, hrows₂⟩ := h₁.holds.popOutputs tx.outputs height
          have h₂ : Fills env f₂ _ (n + (storeBytes env.form tx, 0)) :=
            ⟨h₂, h₁.within.popOutputs hf₂, hrows₂.trans_le h₁.rows_le⟩
          dsimp only
          rw [hp, Option.bind_some, hf₂, Option.bind_some]
          by_cases hcoin : tx.isCoinbase = true
          · rw [if_pos hcoin, if_pos hcoin]
            exact ih h₂ hpool hb
          · rw [if_neg hcoin, if_neg hcoin]
            have hin : ∀ input ∈ tx.inputs.reverse, input.previousOutput.index ≤ maxUint32 :=
              fun input hi => (htx.1.inputs input (List.mem_reverse.mp hi)).index
            obtain ⟨f₃, hf₃, h₃, hrows₃⟩ := h₂.holds.popInputsFrom hd height hin
              (h₂.rows_le.trans hrows)
            have h₃ : Fills env f₃ _ (n + (storeBytes env.form tx, 0)) :=
              ⟨h₃, h₂.within.popInputsFrom hf₃, hrows₃.trans h₂.rows_le⟩
            unfold Files.popInputs DataBase.popInputs
            rw [hf₃]
            rcases hdb₃ : DataBase.popInputsFrom height (DataBase.popOutputs { db with
                transactions := t
                transactionsUnconfirmed := db.transactionsUnconfirmed.store tx } tx.outputs height)
              tx.inputs.reverse with ⟨db₃, r⟩
            rw [hdb₃] at h₃
            cases r with
            | false => exact ⟨f₃, rfl, h₃.mono le_self_add⟩
            | true => exact ih h₃ hpool hb

/-- What `pop` takes: the pool takes the transactions of the top block. -/
def popCost (env : Env) (db : DataBase) : Nat × Nat :=
  match db.blocks.top with
  | none => 0
  | some height =>
    match db.blocks.get height with
    | none => 0
    | some block =>
      match db.readBlock height block with
      | none => 0
      | some transactions => poolCost env transactions.reverse

/-- **Popping the top block returns.** -/
theorem Fills.pop (h : Fills env f db n) (hgrants : env.disk.Grants room)
    (hd : env.disk.size ≤ maxObject) (htop : TopStored db.blocks)
    (hb : n + popCost env db ≤ budget room) : ∃ f', f.pop env = some (f', db.pop.2) ∧
      Fills env f' db.pop.1 (n + popCost env db) := by
  unfold Files.pop DataBase.pop
  unfold popCost at hb ⊢
  rw [h.holds.blocks.holds.top_eq]
  cases ht : db.blocks.top with
  | none => exact ⟨f, rfl, h.mono le_self_add⟩
  | some height =>
      obtain ⟨r, hr⟩ := Option.isSome_iff_exists.mp (htop height ht)
      obtain ⟨record, hget, hreads⟩ := h.holds.blocks.read hr
      obtain ⟨hread, hpool⟩ := h.holds.readBlock hd hr hreads
      have hget' := BlockDatabase.get_of_at hr
      rw [ht] at hb
      dsimp only at hb ⊢
      rw [hget'] at hb
      rw [hget, hget']
      dsimp only at hb ⊢
      rw [hread]
      cases htxs : db.readBlock height r with
      | none => exact ⟨f, rfl, h.mono le_self_add⟩
      | some txs =>
          rw [htxs] at hb
          dsimp only at hb ⊢
          have hpool : ∀ tx ∈ txs.reverse, Poolable env tx :=
            fun tx hm => hpool txs htxs tx (List.mem_reverse.mp hm)
          obtain ⟨f₁, hf₁, h₁⟩ := h.popTransactions hgrants hd height hpool hb
          rw [hf₁]
          rcases hdb : DataBase.popTransactions height db txs.reverse with ⟨db₁, b⟩
          rw [hdb] at h₁
          cases b with
          | false => exact ⟨f₁, rfl, h₁⟩
          | true =>
              obtain ⟨hblocks, hb⟩ := h₁.holds.blocks.unlink height
              obtain ⟨hsize, hindex⟩ := BlockFile.unlink_size f₁.blocks height
              dsimp only
              rcases hun : f₁.blocks.unlink height with ⟨blocks, b⟩
              rcases hdb₂ : db₁.blocks.unlink height with ⟨blocks', b'⟩
              rw [hun] at hblocks hb hsize hindex
              rw [hdb₂] at hblocks hb
              cases hb
              have h₂ : Fills env { f₁ with blocks := blocks } { db₁ with blocks := blocks' }
                  (n + poolCost env txs.reverse) :=
                ⟨{ h₁.holds with blocks := hblocks },
                  { h₁.within with
                    blocks := hsize.trans_le h₁.within.blocks
                    blockIndex :=
                      (congrArg MappedSize.logicalSize hindex).trans_le h₁.within.blockIndex },
                  h₁.rows_le⟩
              cases b with
              | false => exact ⟨_, rfl, h₂⟩
              | true =>
                  obtain ⟨h₃, hrows₃⟩ := h₂.holds.synchronize
                  refine ⟨_, ?_, h₃, h₂.within.synchronize, hrows₃.trans_le h₂.rows_le⟩
                  rw [hreads.header]

/-- What the loop of `pop_above` takes. -/
def popBlocksCost (env : Env) : Nat → DataBase → Nat × Nat
  | 0, _ => 0
  | n + 1, db => popCost env db + popBlocksCost env n db.pop.1

/-- What `pop_above` takes. -/
def popAboveCost (env : Env) (db : DataBase) (forkHash : HashDigest) : Nat × Nat :=
  match db.blocks.getByHash forkHash, db.blocks.top with
  | some result, some top => popBlocksCost env (top - result.height) db
  | _, _ => 0

/-- **The loop of `pop_above` returns.** -/
theorem Fills.popBlocks (h : Fills env f db n) (hgrants : env.disk.Grants room)
    (hd : env.disk.size ≤ maxObject) (hg : Gapless db.blocks) (k : Nat) (out : List Block)
    (hb : n + popBlocksCost env k db ≤ budget room) : ∃ f' ec,
    popBlocks env k f out = some (f', (DataBase.popBlocks k db out).2.1, ec) ∧
      (DataBase.popBlocks k db out).2.2 = some ec ∧
      Fills env f' (DataBase.popBlocks k db out).1 (n + popBlocksCost env k db) := by
  induction k generalizing f db n out with
  | zero => exact ⟨f, .success, rfl, rfl, h.mono le_self_add⟩
  | succ k ih =>
      have hsum : n + popBlocksCost env (k + 1) db = n + popCost env db + popBlocksCost env k db.pop.1 :=
        (add_assoc ..).symm
      rw [hsum] at hb ⊢
      obtain ⟨f₁, hf₁, h₁⟩ := h.pop hgrants hd hg.topStored (le_self_add.trans hb)
      have hgap (b : Block) (hb : db.pop.2 = some b) : Gapless db.pop.1.blocks := hg.pop hb
      unfold Files.popBlocks DataBase.popBlocks
      rw [hf₁, if_neg hg.topStored.not_popThrows]
      rcases hdb : db.pop with ⟨db₁, popped⟩
      rw [hdb] at h₁ hgap hb
      cases popped with
      | none => exact ⟨f₁, .operationFailed, rfl, rfl, h₁.mono le_self_add⟩
      | some b => exact ih h₁ (hgap b rfl) (b :: out) hb

/-- **Popping above a fork point returns.** -/
theorem Fills.popAbove (h : Fills env f db n) (hgrants : env.disk.Grants room)
    (hd : env.disk.size ≤ maxObject) (hg : Gapless db.blocks) {forkHash : HashDigest}
    (hb : n + popAboveCost env db forkHash ≤ budget room) : ∃ f',
    f.popAbove env forkHash = some (f', (db.popAbove forkHash).2) ∧
      Fills env f' (db.popAbove forkHash).1 (n + popAboveCost env db forkHash) := by
  have hread := h.holds.blocks.readByHash forkHash
  unfold Files.popAbove DataBase.popAbove
  unfold popAboveCost at hb ⊢
  rw [h.holds.blocks.holds.top_eq]
  cases hget : db.blocks.getByHash forkHash with
  | none =>
      rw [hget] at hread
      rw [show f.blocks.getByHash env.hashDigest forkHash = some none from hread]
      exact ⟨f, rfl, h.mono le_self_add⟩
  | some r =>
      rw [hget] at hread hb
      obtain ⟨record, hrecord, hreads⟩ := hread
      rw [hrecord]
      cases htop : db.blocks.top with
      | none => exact ⟨f, rfl, h.mono le_self_add⟩
      | some top =>
          rw [htop] at hb
          dsimp only at hb ⊢
          rw [hreads.height]
          by_cases hzero : DataBase.subSize top r.height = 0
          · rw [if_pos hzero, if_pos hzero]
            exact ⟨f, rfl, h.mono le_self_add⟩
          · rw [if_neg hzero, if_neg hzero]
            by_cases hbig : DataBase.subSize top r.height > DataBase.maxReserve
            · rw [if_pos hbig, if_pos hbig]
              exact ⟨f, rfl, h.mono le_self_add⟩
            · rw [if_neg hbig, if_neg hbig]
              obtain ⟨f₁, ec, hf₁, hec, h₁⟩ := h.popBlocks hgrants hd hg (top - r.height) [] hb
              rcases hdb : DataBase.popBlocks (top - r.height) db [] with ⟨db', out, code⟩
              rw [hdb] at hf₁ hec h₁
              cases hec
              rw [hf₁]
              exact ⟨f₁, rfl, h₁⟩

/-! ## 4. Sessions -/

omit [Core] in
/-- No file grows where it is closed and opened. -/
theorem Within.reopen {k : Nat} (h : f.Within k) {rest : Contents} (hc : f.reopen rest = some f') :
    f'.Within k := by
  have hindexes (g : Files) (hg : g.Within k) (hc : g.reopenIndexes rest = some f') :
      f'.Within k := by
    obtain ⟨spends, hs, hc⟩ := Option.bind_eq_some_iff.mp hc
    obtain ⟨history, hh, hc⟩ := Option.bind_eq_some_iff.mp hc
    obtain ⟨stealth, hst, rfl⟩ := Option.map_eq_some_iff.mp hc
    obtain ⟨lookup, hl, rfl⟩ := Option.map_eq_some_iff.mp hs
    obtain ⟨rows, hr, rfl⟩ := Option.map_eq_some_iff.mp hst
    unfold HistoryFile.reopen at hh
    split at hh
    · rename_i map records hmap hrecords
      cases hh
      exact { hg with
        spends := (TableFile.reopen_size hl).trans_le hg.spends
        history := (TableFile.reopen_size hmap).trans_le hg.history
        historyRows := (RecordListFile.reopen_size hrecords).trans_le hg.historyRows
        stealth := (RecordListFile.reopen_size hr).trans_le hg.stealth }
    · cases hh
  unfold Files.reopen at hc
  split at hc
  · cases hc
  split at hc
  · cases hc
  obtain ⟨blocks, hb, hc⟩ := Option.bind_eq_some_iff.mp hc
  obtain ⟨transactions, ht, hc⟩ := Option.bind_eq_some_iff.mp hc
  obtain ⟨pool, hp, hc⟩ := Option.bind_eq_some_iff.mp hc
  obtain ⟨lookup, hl, hi⟩ := Option.bind_eq_some_iff.mp hb
  obtain ⟨lookup₁, hl₁, rfl⟩ := Option.map_eq_some_iff.mp ht
  obtain ⟨lookup₂, hl₂, rfl⟩ := Option.map_eq_some_iff.mp hp
  obtain ⟨hsize, hindex⟩ : blocks.lookup = lookup ∧
      blocks.indexSize.logicalSize = f.blocks.indexSize.logicalSize := by
    unfold BlockFile.startIndex at hi
    dsimp only at hi
    split at hi
    · cases hi
      exact ⟨rfl, rfl⟩
    · cases hi
  have h' (store : Store) : Within
      { f with
        store := store
        blocks := blocks
        transactions := ⟨lookup₁, UnspentOutputs.create f.settings.cacheCapacity⟩
        transactionsUnconfirmed := ⟨lookup₂⟩ } k :=
    { h with
      blocks := (hsize ▸ TableFile.reopen_size hl).trans_le h.blocks
      blockIndex := hindex.trans_le h.blockIndex
      transactions := (TableFile.reopen_size hl₁).trans_le h.transactions
      transactionsUnconfirmed := (TableFile.reopen_size hl₂).trans_le h.transactionsUnconfirmed }
  dsimp only at hc
  split at hc
  · exact hindexes _ (h' _) hc
  · cases hc
    exact h' _

end Files

variable {env : Env} {room : Nat} [Core]

/-- **What a step takes.** -/
def Tabled.cost (env : Env) (t : Tabled) : SessionStep → Nat × Nat
  | .operation (.pushUnconfirmed tx _) => (storeBytes env.form tx, 0)
  | .operation (.push b height) | .operation (.insert b height) => blockCost env b height
  | .operation .pop => Files.popCost env t.db
  | .operation (.popAbove forkHash) => Files.popAboveCost env t.db forkHash
  | .reopen _ => 0

/-- No lock refuses the files that a step reopens. -/
def Tabled.Unlocked (t : Tabled) : SessionStep → Prop
  | .operation _ => True
  | .reopen _ => t.db.store.close.1.open.2 = true

instance (t : Tabled) (o : SessionStep) : Decidable (t.Unlocked o) :=
  match o with
  | .operation _ => .isTrue True.intro
  | .reopen _ => inferInstanceAs (Decidable (_ = true))

/-- The files follow the tables, within a budget. -/
structure Keeps (env : Env) (s : Served) (t : Tabled) (n : Nat × Nat) : Prop where
  follows : Follows env s t
  within : s.files.Within n.1
  rows_le : s.files.rows ≤ n.2

omit [Core] in
theorem Keeps.fills {s : Served} {t : Tabled} {n : Nat × Nat} (h : Keeps env s t n) :
    s.files.Fills env t.db n :=
  ⟨h.follows.holds, h.within, h.rows_le⟩

/-- **An operation returns** within the budget, with the answer of the tables. -/
theorem Files.Fills.perform {f : Files} {t : Tabled} {n : Nat × Nat} (h : f.Fills env t.db n)
    (hgrants : env.disk.Grants room) (hd : env.disk.size ≤ maxObject) (hcore : Core.Typed) {op : Op}
    (hfit : (SessionStep.operation op).Fits env) (hallowed : t.Allowed (.operation op))
    (hb : n + t.cost env (.operation op) ≤ budget room) : ∃ f',
    f.perform env op = some (f', (t.db.perform op).2) ∧
      f'.Fills env (t.db.perform op).1 (n + t.cost env (.operation op)) := by
  unfold Files.perform DataBase.perform
  cases op with
  | pushUnconfirmed tx forks =>
      obtain ⟨f', hf', h'⟩ := h.pushUnconfirmed hgrants hd hfit forks hb
      exact ⟨f', by dsimp only; rw [hf']; rfl, h'⟩
  | push b height =>
      obtain ⟨hblock, hw, hheight⟩ := hfit
      obtain ⟨f', hf', h'⟩ := h.push hgrants hd hcore hblock hw hheight hallowed hb
      exact ⟨f', by dsimp only; rw [hf']; rfl, h'⟩
  | insert b height =>
      obtain ⟨hblock, hw, hheight⟩ := hfit
      obtain ⟨f', hf', h'⟩ := h.insert hgrants hd hcore hblock hw hheight hb
      exact ⟨f', by dsimp only; rw [hf']; rfl, h'⟩
  | pop =>
      obtain ⟨f', hf', h'⟩ := h.pop hgrants hd hallowed hb
      exact ⟨f', by dsimp only; rw [hf']; rfl, h'⟩
  | popAbove forkHash =>
      obtain ⟨f', hf', h'⟩ := h.popAbove hgrants hd hallowed hb
      exact ⟨f', by dsimp only; rw [hf']; rfl, h'⟩

/-- **A step returns** within the budget. -/
theorem Keeps.step {s : Served} {t : Tabled} {n : Nat × Nat} (h : Keeps env s t n)
    (hgrants : env.disk.Grants room) (hd : env.disk.size ≤ maxObject) (hcore : Core.Typed)
    {o : SessionStep} (hfit : o.Fits env) (hallowed : t.Allowed o) (hunlocked : t.Unlocked o)
    (hb : n + t.cost env o ≤ budget room) : ∃ s', s.step env o = some s' ∧
      Keeps env s' (t.step o) (n + t.cost env o) := by
  cases o with
  | operation op =>
      obtain ⟨f', hf', h'⟩ := h.fills.perform hgrants hd hcore hfit hallowed hb
      have hanswers : s.answers ++ [(t.db.perform op).2] = (t.step (.operation op)).answers :=
        congrArg (· ++ [(t.db.perform op).2]) h.follows.answers_eq
      exact ⟨⟨f', s.answers ++ [(t.db.perform op).2]⟩, congrArg (Option.map _) hf',
        ⟨h'.holds, fun hs => Files.perform_synced h.follows.synced hf' hs, hanswers⟩, h'.within,
        h'.rows_le⟩
  | reopen rest =>
      have hclose : t.db.store.close.2 = true := by
        unfold Store.close
        split <;> rfl
      obtain ⟨f', hf', h', hs', hrows⟩ :=
        h.follows.holds.reopen (h.follows.synced hallowed) hclose hunlocked rest
      have hmono : n ≤ n + t.cost env (.reopen rest) := le_self_add
      exact ⟨⟨f', s.answers⟩, congrArg (Option.map _) hf',
        ⟨h', fun _ => hs', h.follows.answers_eq⟩, (h.within.reopen hf').mono hmono.1,
        hrows.trans_le (h.rows_le.trans hmono.2)⟩

/-- **A session returns**: where what the disk grants a file and the counters of four bytes have room
    for what its steps take on the tables, each step on the files returns, and the readers answer for
    the tables. -/
theorem session_returns (hgrants : env.disk.Grants room) (hd : env.disk.size ≤ maxObject)
    (hcore : Core.Typed) {settings : Settings} (hb : settings.BucketsFit) {flushes : Bool}
    {contents : Contents} {f : Files} (hc : Files.start env settings flushes contents = some f)
    (stray : BlockResult) {steps : List SessionStep} (hfit : ∀ o ∈ steps, o.Fits env)
    (hallowed : EveryStep Tabled.step (fun t o => t.Allowed o ∧ t.Unlocked o)
      ⟨DataBase.start settings flushes stray, true, []⟩ steps) {used : Nat} (hused : f.Within used)
    (hroom : (used, 0) + total Tabled.step (Tabled.cost env)
      ⟨DataBase.start settings flushes stray, true, []⟩ steps ≤ budget room) :
    ∃ s, runSome (Served.step env) ⟨f, []⟩ steps = some s ∧
      s.files.Serves env (run Tabled.step ⟨DataBase.start settings flushes stray, true, []⟩ steps) ∧
      s.answers = (run Tabled.step ⟨DataBase.start settings flushes stray, true, []⟩ steps).answers := by
  obtain ⟨h₀, hzero⟩ := Follows.start hd hb hc stray
  have hstep (s : Served) (t : Tabled) (o : SessionStep) (n : Nat × Nat) (h : Keeps env s t n)
      (hG : o.Fits env ∧ t.Allowed o ∧ t.Unlocked o) (hb : n + t.cost env o ≤ budget room) :
      ∃ s', s.step env o = some s' ∧ Keeps env s' (t.step o) (n + t.cost env o) :=
    h.step hgrants hd hcore hG.1 hG.2.1 hG.2.2 hb
  obtain ⟨s, hr, h⟩ := runSome_returns hstep ⟨h₀, hused, hzero.le⟩ (hallowed.and_of_mem hfit) hroom
  exact ⟨s, hr, h.follows.serves, h.follows.answers_eq⟩

/-- A disk of 15000 bytes: files that grow by half can be grown to 10000. -/
def smallEnv : Env := { sampleEnv with disk := .ofRate 15000 50 }

omit [Core] in
theorem smallEnv_grants : smallEnv.disk.Grants 10000 := Disk.ofRate_grants.mpr (by decide)

omit [Core] in
theorem sampleSession_returns : ∃ f s,
    @Files.start smallEnv .sample true sampleContents = some f ∧
      runSome (@Served.step Core.sample smallEnv) ⟨f, []⟩ sampleSteps = some s ∧
      s.files.Serves smallEnv (run (@Tabled.step Core.sample) sampleTabled sampleSteps) ∧
      s.answers = (run (@Tabled.step Core.sample) sampleTabled sampleSteps).answers := by
  have hsome : ((Files.start smallEnv .sample true sampleContents).bind fun f =>
      if f.Within 2000 then some f else none).isSome = true := by decide +kernel
  obtain ⟨_, hsome⟩ := Option.isSome_iff_exists.mp hsome
  obtain ⟨f, hc, hsome⟩ := Option.bind_eq_some_iff.mp hsome
  obtain ⟨hwithin, _⟩ := Option.ite_none_right_eq_some.mp hsome
  have hallowed : EveryStep (@Tabled.step Core.sample) (fun t o => t.Allowed o ∧ t.Unlocked o)
      sampleTabled sampleSteps := by
    decide +kernel
  obtain ⟨s, hr, hserves, hanswers⟩ := @session_returns smallEnv _ Core.sample smallEnv_grants
    (by decide) sampleCore_typed _ ⟨by decide, by decide, by decide, by decide, by decide⟩ _ _ _ hc
    .sampleStray _ sampleSteps_fit hallowed _ hwithin (by decide +kernel)
  exact ⟨f, s, hc, hr, hserves, hanswers⟩

end Libbitcoin.Database
