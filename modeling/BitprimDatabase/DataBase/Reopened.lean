/-
  File:      BitprimDatabase/DataBase/Reopened.lean
  Subject:   WHAT A SESSION LEAVES FOR THE NEXT ONE (data_base.cpp, store.cpp). `close` does not
             synchronize and, with `flush_writes` off, removes the flush lock whatever failed before:
             the next `open` succeeds and allocates from the counters in the files.

  * `reopens`, `WellFormed` -- what `close` and then `open` answer, and what the tables are to be then;
  * `Synced` -- **the invariant**: the counters in the files are those of the managers;
  * `Clean` -- a block that passes the checks has its previous outputs or leaves no index rows, a
    block that is read back can be unwound: the failures that `push_heights` and `pop` return behind
    their allocations;
  * `Outcome` -- a step is clean and synced, or it leaves a linked item behind the counter in the file;
  * **`reopensWellFormed_iff`**: along every session the store reopens well formed exactly where every
    step of it is clean.
-/
import BitprimDatabase.DataBase.Synchronize

namespace Libbitcoin.Database

open Lib

/-! ## 1. Close and open -/

/-- What the managers' `start` checks: the counters in the files, within what the files have grown
    to. -/
def Counters.within (c allocated : Counters) (indexes : Bool) : Bool :=
  decide (c.blocks ≤ allocated.blocks) && decide (c.blockIndex ≤ allocated.blockIndex) &&
    decide (c.transactions ≤ allocated.transactions) &&
    decide (c.transactionsUnconfirmed ≤ allocated.transactionsUnconfirmed) &&
    (!indexes || decide (c.spends ≤ allocated.spends) && decide (c.history ≤ allocated.history) &&
      decide (c.historyRows ≤ allocated.historyRows) &&
      decide (c.stealthRows ≤ allocated.stealthRows))

theorem Counters.within_iff {c allocated : Counters} {indexes : Bool} :
    c.within allocated indexes = true ↔
      (c.blocks ≤ allocated.blocks ∧ c.blockIndex ≤ allocated.blockIndex ∧
        c.transactions ≤ allocated.transactions ∧
        c.transactionsUnconfirmed ≤ allocated.transactionsUnconfirmed) ∧
      (indexes = true → c.spends ≤ allocated.spends ∧ c.history ≤ allocated.history ∧
        c.historyRows ≤ allocated.historyRows ∧ c.stealthRows ≤ allocated.stealthRows) := by
  unfold Counters.within
  cases indexes <;> simp [and_assoc]

namespace Mapped

/-- What `close` and a following `open` answer. -/
def reopens (s : Mapped) : Bool :=
  s.db.store.close.2 && s.db.store.close.1.open.2 &&
    s.file.within s.db.counters s.db.settings.useIndexes

/-- Every table is well formed at the counters in its files. -/
structure TablesRestartable (s : Mapped) : Prop where
  blocks : s.db.blocks.lookup.toHashTable.Restartable s.file.blocks
  transactions : s.db.transactions.lookup.toHashTable.Restartable s.file.transactions
  transactionsUnconfirmed : s.db.transactionsUnconfirmed.lookup.toHashTable.Restartable
    s.file.transactionsUnconfirmed
  spends : s.db.settings.useIndexes = true →
    s.db.spends.lookup.toHashTable.Restartable s.file.spends
  history : s.db.settings.useIndexes = true →
    s.db.history.rowsMultimap.Restartable s.file.history s.file.historyRows

/-- **A store that reopens is well formed.** -/
def WellFormed (s : Mapped) : Prop := s.reopens = true → s.TablesRestartable

/-- The tables and their counters have not changed since `create` or `open` with `flush_writes` off:
    the managers have the counters from the files. -/
structure JustOpened (s : Mapped) : Prop where
  flushOff : s.db.store.flushEachWrite = false
  file_eq : s.file = s.db.counters

/-! ## 2. The invariant -/

/-- **The counters in the files are what the tables have allocated**; the height index and the
    stealth rows have no links. -/
structure Synced (s : Mapped) : Prop where
  flushOff : s.db.store.flushEachWrite = false
  fits : s.db.Fits
  blocks : s.file.blocks = s.db.allocated.blocks
  blockIndex : s.file.blockIndex ≤ s.db.allocated.blockIndex
  transactions : s.file.transactions = s.db.allocated.transactions
  transactionsUnconfirmed :
    s.file.transactionsUnconfirmed = s.db.allocated.transactionsUnconfirmed
  indexes : s.db.settings.useIndexes = true →
    s.file.spends = s.db.allocated.spends ∧ s.file.history = s.db.allocated.history ∧
      s.file.historyRows = s.db.allocated.historyRows ∧
      s.file.stealthRows ≤ s.db.allocated.stealthRows

/-- **A table is ahead of its counter**: the store reopens, and an item of the pool or of an index is
    linked at or behind the counter in the file. -/
structure Ahead (s : Mapped) : Prop where
  flushOff : s.db.store.flushEachWrite = false
  within : s.file.within s.db.counters s.db.settings.useIndexes = true
  linked : (∃ p, s.db.transactionsUnconfirmed.lookup.toHashTable.Linked p ∧
      s.file.transactionsUnconfirmed ≤ p) ∨
    s.db.settings.useIndexes = true ∧
      ((∃ p, s.db.spends.lookup.toHashTable.Linked p ∧ s.file.spends ≤ p) ∨
        ∃ i, s.db.history.rowsMultimap.Linked i ∧ s.file.historyRows ≤ i)

section Invariant

variable {s : Mapped}

/-- Counters that fit are what was allocated. -/
theorem counters_indexes {db : DataBase} (h : db.Fits) (hi : db.settings.useIndexes = true) :
    db.counters.spends = db.allocated.spends ∧ db.counters.history = db.allocated.history ∧
      db.counters.historyRows = db.allocated.historyRows ∧
      db.counters.stealthRows = db.allocated.stealthRows := by
  obtain ⟨hs, hh, hr, hst⟩ := h hi
  exact ⟨u32_of_le hs, u32_of_le hh, u32_of_le hr, u32_of_le hst⟩

theorem within_counters_iff {db : DataBase} (hf : db.Fits) {file : Counters} :
    file.within db.counters db.settings.useIndexes = true ↔
      file.within db.allocated db.settings.useIndexes = true := by
  rw [Counters.within_iff, Counters.within_iff]
  refine and_congr_right' (imp_congr_right fun hi => ?_)
  obtain ⟨hs, hh, hr, hst⟩ := counters_indexes hf hi
  rw [hs, hh, hr, hst]

theorem JustOpened.synced (h : s.JustOpened) (hf : s.db.Fits) : s.Synced where
  flushOff := h.flushOff
  fits := hf
  blocks := by rw [h.file_eq]; rfl
  blockIndex := by rw [h.file_eq]; exact Nat.le_refl _
  transactions := by rw [h.file_eq]; rfl
  transactionsUnconfirmed := by rw [h.file_eq]; rfl
  indexes hi := by
    obtain ⟨hs, hh, hr, hst⟩ := counters_indexes hf hi
    rw [h.file_eq]
    exact ⟨hs, hh, hr, Nat.le_of_eq hst⟩

theorem Synced.wellFormed (h : s.Synced) : s.WellFormed := by
  refine fun _ => ⟨?_, ?_, ?_, fun hi => ?_, fun hi => ?_⟩
  · exact h.blocks ▸ s.db.blocks.lookup.wf.restartable
  · exact h.transactions ▸ s.db.transactions.lookup.wf.restartable
  · exact h.transactionsUnconfirmed ▸ s.db.transactionsUnconfirmed.lookup.wf.restartable
  · exact (h.indexes hi).1 ▸ s.db.spends.lookup.wf.restartable
  · obtain ⟨_, hhistory, hrows, _⟩ := h.indexes hi
    rw [hhistory, hrows]
    exact s.db.history.rowsMultimap.restartable

theorem Ahead.not_wellFormed (h : s.Ahead) : ¬ s.WellFormed := by
  intro hw
  obtain ⟨hclose, hopen⟩ := Store.close_open h.flushOff
  have hr : s.reopens = true := by
    unfold reopens
    rw [hclose, hopen, h.within]
    rfl
  have htables := hw hr
  rcases h.linked with ⟨p, hp, hle⟩ | ⟨hi, ⟨p, hp, hle⟩ | ⟨i, hl, hle⟩⟩
  · exact hp.not_restartable hle htables.transactionsUnconfirmed
  · exact hp.not_restartable hle (htables.spends hi)
  · exact hl.not_restartable hle (htables.history hi)

theorem synchronize_synced (h : s.db.store.flushEachWrite = false) (hf : s.db.Fits) :
    s.synchronize.Synced := by
  unfold synchronize
  dsimp only
  split
  · rename_i hi
    obtain ⟨hs, hh, hr, hst⟩ := counters_indexes hf hi
    exact ⟨h, hf, rfl, Nat.le_refl _, rfl, rfl, fun _ => ⟨hs, hh, hr, Nat.le_of_eq hst⟩⟩
  · rename_i hi
    exact ⟨h, hf, rfl, Nat.le_refl _, rfl, rfl, fun hi' => absurd hi' hi⟩

/-- The locks are no matter of the tables. -/
theorem Synced.setStore (h : s.Synced) {store : Store} (hf : store.flushEachWrite = false) :
    (s.setStore store).Synced :=
  ⟨hf, h.fits, h.blocks, h.blockIndex, h.transactions, h.transactionsUnconfirmed, h.indexes⟩

theorem Ahead.setStore (h : s.Ahead) {store : Store} (hf : store.flushEachWrite = false) :
    (s.setStore store).Ahead := ⟨hf, h.within, h.linked⟩

end Invariant

/-- **What a step leads to**: the invariant where it is clean, a table ahead of its counter where it
    is not. -/
structure Outcome (clean : Prop) (s : Mapped) : Prop where
  synced : clean → s.Synced
  ahead : ¬ clean → s.Ahead

namespace Outcome

variable {clean clean' : Prop} {s : Mapped}

theorem of_synced (h : s.Synced) (hc : clean) : Outcome clean s := ⟨fun _ => h, fun hn => absurd hc hn⟩

theorem of_ahead (h : s.Ahead) (hc : ¬ clean) : Outcome clean s := ⟨fun hc' => absurd hc' hc, fun _ => h⟩

theorem congr (h : Outcome clean s) (hc : clean' ↔ clean) : Outcome clean' s :=
  ⟨fun hc' => h.synced (hc.mp hc'), fun hn => h.ahead fun hc' => hn (hc.mpr hc')⟩

theorem setStore (h : Outcome clean s) {store : Store} (hf : store.flushEachWrite = false) :
    Outcome clean (s.setStore store) :=
  ⟨fun hc => (h.synced hc).setStore hf, fun hn => (h.ahead hn).setStore hf⟩

theorem flushOff (h : Outcome clean s) : s.db.store.flushEachWrite = false := by
  by_cases hc : clean
  · exact (h.synced hc).flushOff
  · exact (h.ahead hc).flushOff

/-- `end_write` at the end of a writer. -/
theorem finish (h : Outcome clean s) : Outcome clean s.finish.1 := by
  have hflush : (s.db.store.endWrite s.db.flushes).1.flushEachWrite = false :=
    (Store.endWrite_flushEachWrite ..).trans h.flushOff
  exact h.setStore hflush

end Outcome

end Mapped

/-! ## 3. The condition -/

namespace DataBase

variable [Core]

/-- The previous outputs of the block are there once its transactions are stored, in the order. -/
def HasPreviousOutputs (db : DataBase) (b : Block) (height : Nat)
    (order : List (Transaction × Nat)) : Prop :=
  ∀ p ∈ b.previousOutputs, Spendable (storeAll db.transactions height order).slabs p height

/-- The block has no row for the index tables. -/
def WritesNoIndex (db : DataBase) (b : Block) (height : Nat) : Prop :=
  db.settings.useIndexes = true →
    b.spendRows db.settings.indexStartHeight height = [] ∧
      b.historyRows db.settings.indexStartHeight height = []

/-- **A block is written cleanly**: its spends succeed, or the indexes have not grown before. -/
def CleanWrite (db : DataBase) (b : Block) (height : Nat) (order : List (Transaction × Nat)) : Prop :=
  db.HasPreviousOutputs b height order ∨ db.WritesNoIndex b height

/-- **A block is popped cleanly**: where it is read back it can be unwound. -/
def CleanPop (db : DataBase) : Prop :=
  ∀ height block txs, db.blocks.top = some height → db.blocks.get height = some block →
    db.readBlock height block = some txs → Unwindable db.transactions.slabs txs.reverse

/-- A pop that answers a block was clean. -/
theorem cleanPop_of_pop {db : DataBase} {out : Block} (h : db.pop.2 = some out) : db.CleanPop := by
  obtain ⟨height, txs, ⟨ht, block, hg, hres, hr, hu, _⟩⟩ := (db.pop_spec out).1.mp h
  intro height' block' txs' ht' hg' hr'
  cases ht.symm.trans ht'
  cases hg.symm.trans hg'
  cases (readBlock_eq_some.mpr ⟨hres, hr⟩).symm.trans hr'
  exact hu

/-- A pop that throws reads no block back. -/
theorem cleanPop_of_throws {db : DataBase} (h : db.popThrows = true) : db.CleanPop := by
  intro height block txs ht hg hr
  unfold popThrows at h
  rw [ht] at h
  dsimp only at h
  rw [(readBlock_eq_some.mp hr).1] at h
  cases h

/-- A pop allocates in the pool only. -/
theorem pop_fits {db : DataBase} (hf : db.Fits) : db.pop.1.Fits := by
  unfold pop
  split
  · exact hf
  rename_i height _
  split
  · exact hf
  split
  · exact hf
  · rename_i txs _
    obtain ⟨items, hput, _⟩ := popTransactions_tables height db txs.reverse
    have hfits := hput.fits hf
    rcases hp : popTransactions height db txs.reverse with ⟨db', r⟩
    rw [hp] at hfits
    cases r with
    | false => exact hfits
    | true =>
        dsimp only
        split <;> exact hfits

/-- The transactions of a block leave no index with fewer records. -/
theorem pushAllTransactions_fits (db : DataBase) (height : Nat) (l : List (Transaction × Nat))
    (hf : (l.foldl (pushTransaction height) db).Fits) : db.Fits := by
  obtain ⟨hsettings, _⟩ := pushAllTransactions_spec height db l
  obtain ⟨hindexed, _⟩ := pushAllTransactions_tables height db l
  have hstealth := pushAllTransactions_stealth height db l
  intro hi
  obtain ⟨hs, hh, hr, hst⟩ := hf (hsettings ▸ hi)
  unfold allocated at hs hh hr hst
  dsimp only at hs hh hr hst
  rw [hindexed.spends_eq] at hs
  rw [hindexed.history_eq] at hh hr
  rw [hstealth, List.length_append] at hst
  obtain ⟨hmap, hcount⟩ := db.history.rowsMultimap.counters_le_addRows
    (l.flatMap fun tx => if height < db.settings.indexStartHeight then []
      else tx.1.historyRows tx.2 height)
  exact ⟨Nat.le_trans (HashTable.free_le_storeItems _ _) hs, Nat.le_trans hmap hh,
    Nat.le_trans hcount hr, Nat.le_trans (Nat.le_add_right _ _) hst⟩

/-- The pops of `pop_above` where none of them fails. -/
def popCount (db : DataBase) (forkHash : HashDigest) : Nat :=
  match db.blocks.getByHash forkHash, db.blocks.top with
  | some result, some top =>
    if subSize top result.height = 0 ∨ subSize top result.height > maxReserve then 0
    else top - result.height
  | _, _ => 0

end DataBase

/-! ## 4. Writing a block -/

/-- Rows of the transactions in another order: there are none, or there are. -/
theorem BucketedBlock.rows_eq_nil_iff {R : Type} (b : BucketedBlock) (rows : Transaction × Nat → List R) :
    b.order.flatMap rows = [] ↔ b.block.transactions.zipIdx.flatMap rows = [] := by
  have hperm := b.perm.flatMap_right rows
  constructor
  · intro he
    exact List.perm_nil.mp (he ▸ hperm.symm)
  · intro he
    exact List.perm_nil.mp (he ▸ hperm)

namespace Mapped

open DataBase (CleanWrite CleanPop)

variable [Core] {s : Mapped}

omit [Core] in
/-- **Behind the rows of a block, with only the transactions synchronized**: the invariant where no
    row was stored, else a linked item behind its counter in the file. -/
theorem Synced.unfinished (h : s.Synced) (db : DataBase) {spendRows : List (Point × Point)}
    {historyRows : List (ShortHash × HistoryRow)} (hsettings : db.settings = s.db.settings)
    (hstore : db.store = s.db.store) (hblocks : db.blocks = s.db.blocks)
    (hpool : db.allocated.transactionsUnconfirmed = s.db.allocated.transactionsUnconfirmed)
    (hrows : DataBase.Indexed s.db db spendRows historyRows)
    (hstealth : s.db.allocated.stealthRows ≤ db.allocated.stealthRows) (hfits : db.Fits) :
    Outcome (s.db.settings.useIndexes = true → spendRows = [] ∧ historyRows = [])
      ⟨db, { s.file with transactions := db.counters.transactions }⟩ := by
  have hflush : db.store.flushEachWrite = false := hstore ▸ h.flushOff
  have hb : s.file.blocks = db.allocated.blocks := by
    rw [h.blocks]
    unfold DataBase.allocated
    rw [hblocks]
  have hbi : s.file.blockIndex ≤ db.allocated.blockIndex := by
    refine Nat.le_trans h.blockIndex (Nat.le_of_eq ?_)
    unfold DataBase.allocated
    rw [hblocks]
  have hp : s.file.transactionsUnconfirmed = db.allocated.transactionsUnconfirmed :=
    h.transactionsUnconfirmed.trans hpool.symm
  refine ⟨fun hclean => ⟨hflush, hfits, hb, hbi, rfl, hp, fun hi => ?_⟩,
    fun hn => ⟨hflush, ?_, .inr ?_⟩⟩
  · have hi : s.db.settings.useIndexes = true := hsettings ▸ hi
    obtain ⟨hs, hh, hr, hst⟩ := h.indexes hi
    obtain ⟨rfl, rfl⟩ := hclean hi
    have hspends : db.allocated.spends = s.db.allocated.spends :=
      congrArg HashTable.free hrows.spends_eq
    have hhistory : db.history.rowsMultimap = s.db.history.rowsMultimap := hrows.history_eq
    refine ⟨hs.trans hspends.symm, hh.trans ?_, hr.trans ?_, Nat.le_trans hst hstealth⟩
    · unfold DataBase.allocated
      rw [hhistory]
    · unfold DataBase.allocated
      rw [hhistory]
  · refine (within_counters_iff hfits).mpr ?_
    rw [hsettings]
    refine Counters.within_iff.mpr ⟨⟨Nat.le_of_eq hb, hbi, Nat.le_refl _, Nat.le_of_eq hp⟩, fun hi => ?_⟩
    obtain ⟨hs, hh, hr, hst⟩ := h.indexes hi
    have hspends : s.db.allocated.spends ≤ db.allocated.spends := by
      show _ ≤ db.spends.lookup.toHashTable.free
      rw [hrows.spends_eq]
      exact HashTable.free_le_storeItems _ _
    obtain ⟨hmap, hcount⟩ := s.db.history.rowsMultimap.counters_le_addRows historyRows
    rw [← hrows.history_eq] at hmap hcount
    exact ⟨hs ▸ hspends, hh ▸ hmap, hr ▸ hcount, Nat.le_trans hst hstealth⟩
  · have hi : s.db.settings.useIndexes = true := by
      by_contra hoff
      exact hn fun hi => absurd hi hoff
    obtain ⟨hs, _, hr, _⟩ := h.indexes hi
    refine ⟨hsettings ▸ hi, ?_⟩
    by_cases hspends : spendRows = []
    · refine .inr ?_
      have hne : historyRows ≠ [] := fun hnil => hn fun _ => ⟨hspends, hnil⟩
      obtain ⟨i, hl, hle⟩ := s.db.history.rowsMultimap.addRows_linked hne
      rw [← hrows.history_eq] at hl
      exact ⟨i, hl, hr ▸ hle⟩
    · refine .inl ?_
      have hne : DataBase.records spendRows ≠ [] := fun hnil => hspends (List.map_eq_nil_iff.mp hnil)
      obtain ⟨p, hl, hle⟩ := s.db.spends.lookup.toHashTable.storeItems_linked hne
      rw [← hrows.spends_eq] at hl
      exact ⟨p, hl, hs ▸ hle⟩

/-- **`push_heights` and what follows it**, behind the transactions in some order: where a previous
    output is missing the index tables have grown, and their counters in the files have not. -/
theorem complete_outcome (h : s.Synced) (b : BucketedBlock) (height : Nat) :
    let s' := (s.setDb (b.order.foldl (DataBase.pushTransaction height) s.db)).complete b.block height
    s'.1.db.Fits → Outcome (CleanWrite s.db b.block height b.order) s'.1 ∧
      (¬ CleanWrite s.db b.block height b.order → s'.2 = false) := by
  obtain ⟨hsettings, _, hstore, hblocks, htransactions, _⟩ :=
    DataBase.pushAllTransactions_spec height s.db b.order
  obtain ⟨hindexed, hpool⟩ := DataBase.pushAllTransactions_tables height s.db b.order
  have hstealth := DataBase.pushAllTransactions_stealth height s.db b.order
  generalize b.order.foldl (DataBase.pushTransaction height) s.db = db at *
  obtain ⟨hspent, _⟩ := spendAll_spec db.transactions height b.block.previousOutputs
  have hfree := DataBase.spendAll_free db.transactions height b.block.previousOutputs
  unfold complete pushHeights DataBase.pushHeights
  dsimp only [setDb_db]
  rcases hsp : DataBase.spendAll db.transactions height b.block.previousOutputs with ⟨t, r⟩
  rw [hsp, htransactions] at hspent
  rw [hsp] at hfree
  cases r with
  | true =>
      intro hfits
      rw [synchronize_db] at hfits
      have hclean : CleanWrite s.db b.block height b.order := .inl (hspent.mp rfl)
      refine ⟨.of_synced (synchronize_synced ?_ hfits) hclean, fun hn => absurd hclean hn⟩
      exact (congrArg Store.flushEachWrite hstore).trans h.flushOff
  | false =>
      intro hfits
      have hmissing : ¬ s.db.HasPreviousOutputs b.block height b.order := fun hp =>
        Bool.false_ne_true (hspent.mpr hp)
      have hunfinished := h.unfinished { db with transactions := t } hsettings hstore hblocks hpool
        ⟨hindexed.spends_eq, hindexed.history_eq⟩ (by
          show s.db.stealth.rows.length ≤ db.stealth.rows.length
          rw [hstealth, List.length_append]
          exact Nat.le_add_right _ _) hfits
      refine ⟨?_, fun _ => rfl⟩
      have hfree : t.lookup.free = db.transactions.lookup.free := hfree
      have hfile : ({ db with transactions := t } : DataBase).counters.transactions =
        db.counters.transactions := hfree
      rw [hfile] at hunfinished
      refine hunfinished.congr ?_
      unfold CleanWrite DataBase.WritesNoIndex Block.spendRows Block.historyRows
      rw [or_iff_right hmissing, b.rows_eq_nil_iff, b.rows_eq_nil_iff]

theorem writeBlock_outcome (h : s.Synced) (b : Block) (height : Nat)
    (hf : (s.writeBlock b height).1.db.Fits) :
    Outcome (CleanWrite s.db b height b.transactions.zipIdx) (s.writeBlock b height).1 ∧
      (¬ CleanWrite s.db b height b.transactions.zipIdx → (s.writeBlock b height).2 = false) := by
  unfold writeBlock at hf ⊢
  rw [DataBase.pushTransactions_eq] at hf ⊢
  exact complete_outcome h (.serial b) height hf

theorem insert_outcome (h : s.Synced) (b : Block) (height : Nat)
    (hf : (s.insert b height).1.db.Fits) : Outcome (s.db.verifyInsert b height = .success →
      CleanWrite s.db b height b.transactions.zipIdx) (s.insert b height).1 := by
  have hwrite := writeBlock_outcome h b height
  unfold insert at hf ⊢
  cases hv : s.db.verifyInsert b height with
  | success =>
      rw [hv] at hf
      dsimp only at hf ⊢
      rcases hw : s.writeBlock b height with ⟨s', r⟩
      rw [hw] at hwrite hf
      cases r <;> exact (hwrite hf).1.congr (imp_iff_right rfl)
  | _ => exact .of_synced h fun he => by cases he

/-- A write behind `begin_write`. -/
theorem push_outcome (h : s.Synced) (b : Block) (height : Nat)
    (hf : (s.push b height).1.db.Fits) :
    Outcome (s.db.verifyPush b height = .success → s.db.store.beginWrite.2 = true →
      CleanWrite s.db b height b.transactions.zipIdx) (s.push b height).1 := by
  have hflush := (Store.beginWrite_flushEachWrite s.db.store).trans h.flushOff
  unfold push at hf ⊢
  cases hv : s.db.verifyPush b height with
  | success =>
      rw [hv] at hf
      rcases hb : s.db.store.beginWrite with ⟨store, r⟩
      rw [hb] at hflush hf
      have hs : (s.setStore store).Synced := h.setStore hflush
      cases r with
      | false => exact .of_synced hs fun _ he => by cases he
      | true =>
          have hwrite := writeBlock_outcome hs b height
          dsimp only at hf ⊢
          rcases hw : (s.setStore store).writeBlock b height with ⟨s', r⟩
          rw [hw] at hwrite hf
          have hout (hf : s'.db.Fits) : Outcome (Code.success = .success → true = true →
              CleanWrite s.db b height b.transactions.zipIdx) s' :=
            (hwrite hf).1.congr ⟨fun hc => hc rfl rfl, fun hc _ _ => hc⟩
          cases r with
          | false => exact hout hf
          | true => exact (hout hf).finish
  | _ => exact .of_synced h fun he => by cases he

/-- The push of a transaction is always clean. -/
theorem pushUnconfirmed_synced (h : s.Synced) (tx : Transaction) (forks : Nat) :
    (s.pushUnconfirmed tx forks).1.Synced := by
  have hflush := (Store.beginWrite_flushEachWrite s.db.store).trans h.flushOff
  unfold pushUnconfirmed
  cases s.db.verifyPushTransaction tx with
  | success =>
      rcases hb : s.db.store.beginWrite with ⟨store, r⟩
      rw [hb] at hflush
      cases r with
      | false => exact h.setStore hflush
      | true =>
          have hflush' := (Store.endWrite_flushEachWrite store s.db.flushes).trans hflush
          exact ⟨hflush', h.fits, h.blocks, h.blockIndex, rfl, rfl, h.indexes⟩
  | _ => exact h

theorem doPush_outcome (h : s.Synced) (b : BucketedBlock) (height : Nat)
    (hf : (s.doPush b height).1.db.Fits) :
    Outcome (s.db.verifyPush b.block height = .success → CleanWrite s.db b.block height b.order)
        (s.doPush b height).1 ∧
      (¬ (s.db.verifyPush b.block height = .success → CleanWrite s.db b.block height b.order) →
        (s.doPush b height).2 ≠ .success) := by
  have hcomplete := complete_outcome h b height
  unfold doPush at hf ⊢
  cases hv : s.db.verifyPush b.block height with
  | success =>
      rw [hv] at hf
      dsimp only at hcomplete hf ⊢
      rcases hc : (s.setDb (b.order.foldl (DataBase.pushTransaction height) s.db)).complete b.block
        height with ⟨s', r⟩
      rw [hc] at hcomplete hf
      have hout (hf : s'.db.Fits) : Outcome (Code.success = .success →
          CleanWrite s.db b.block height b.order) s' := (hcomplete hf).1.congr (imp_iff_right rfl)
      cases r with
      | false => exact ⟨hout hf, fun _ he => by cases he⟩
      | true =>
          refine ⟨hout hf, fun hn => ?_⟩
          cases (hcomplete hf).2 fun hclean => hn fun _ => hclean
  | _ => exact ⟨.of_synced h fun he => (by cases he), fun _ he => by cases he⟩

/-- **Record counts that fit behind a block** fitted in front of it. -/
theorem doPush_fits (b : BucketedBlock) (height : Nat) (hf : (s.doPush b height).1.db.Fits) :
    s.db.Fits := by
  have hpushed := s.db.pushAllTransactions_fits height b.order
  unfold doPush at hf
  cases hv : s.db.verifyPush b.block height with
  | success =>
      rw [hv] at hf
      dsimp only at hf
      refine hpushed ?_
      unfold complete pushHeights DataBase.pushHeights at hf
      dsimp only [setDb_db] at hf
      generalize b.order.foldl (DataBase.pushTransaction height) s.db = db at *
      rcases hsp : DataBase.spendAll db.transactions height b.block.previousOutputs with ⟨t, r⟩
      rw [hsp] at hf
      cases r with
      | false => exact hf
      | true =>
          dsimp only at hf
          rw [synchronize_db] at hf
          exact hf
  | _ =>
      rw [hv] at hf
      exact hf

theorem pushAll_fits {blocks : List BucketedBlock} {height : Nat}
    (hf : (s.pushAll blocks height).1.db.Fits) : s.db.Fits := by
  induction blocks generalizing s height with
  | nil => exact hf
  | cons b blocks ih =>
      refine doPush_fits b height ?_
      unfold pushAll at hf
      rcases hp : s.doPush b height with ⟨s', ec⟩
      rw [hp] at hf
      cases ec with
      | success => exact ih hf
      | _ => exact hf

/-! ## 5. Popping a block -/

omit [Core] in
/-- **Behind entries put back into the pool**, before `synchronize`. -/
theorem Synced.putBack (h : s.Synced) {db : DataBase}
    {items : List (HashDigest × TransactionSlab × Nat)} (hp : DataBase.PutBack s.db db items)
    (hne : items ≠ []) : (s.setDb db).Ahead := by
  have hpool := s.db.transactionsUnconfirmed.lookup.toHashTable.free_le_storeItems items
  rw [← hp.pool_eq] at hpool
  have hle : s.file.transactionsUnconfirmed ≤ db.allocated.transactionsUnconfirmed :=
    h.transactionsUnconfirmed ▸ hpool
  refine ⟨(congrArg Store.flushEachWrite hp.store_eq).trans h.flushOff, ?_, .inl ?_⟩
  · refine (within_counters_iff (hp.fits h.fits)).mpr ?_
    rw [hp.settings_eq]
    refine Counters.within_iff.mpr ⟨⟨?_, ?_, ?_, hle⟩, fun hi => ?_⟩
    · rw [hp.allocated_eq]
      exact Nat.le_of_eq h.blocks
    · rw [hp.allocated_eq]
      exact h.blockIndex
    · rw [hp.allocated_eq]
      exact Nat.le_of_eq h.transactions
    · obtain ⟨hs, hh, hr, hst⟩ := h.indexes hi
      rw [hp.allocated_eq]
      exact ⟨Nat.le_of_eq hs, Nat.le_of_eq hh, Nat.le_of_eq hr, hst⟩
  · obtain ⟨p, hl, hle⟩ := s.db.transactionsUnconfirmed.lookup.toHashTable.storeItems_linked hne
    rw [← hp.pool_eq] at hl
    exact ⟨p, hl, h.transactionsUnconfirmed ▸ hle⟩

/-- **A pop** is clean, or fails behind the first transaction put back into the pool. -/
theorem pop_outcome (h : s.Synced) :
    Outcome (CleanPop s.db) s.pop.1 ∧ (¬ CleanPop s.db → s.pop.2 = none) := by
  by_cases hread : ∃ height block txs, s.db.blocks.top = some height ∧
      s.db.blocks.get height = some block ∧
      s.db.readBlock height block = some txs
  · obtain ⟨height, block, txs, ht, hg, hr⟩ := hread
    obtain ⟨hres, hback⟩ := DataBase.readBlock_eq_some.mp hr
    by_cases hu : Unwindable s.db.transactions.slabs txs.reverse
    · have hto : s.db.PopsTo height txs ⟨block.header, txs⟩ :=
        ⟨ht, block, hg, hres, hback, hu, rfl⟩
      obtain ⟨hiff, hpopped⟩ := s.db.pop_spec ⟨block.header, txs⟩
      have hsome := hiff.mpr ⟨height, txs, hto⟩
      have hclean := DataBase.cleanPop_of_pop hsome
      obtain ⟨_, _, _, hpd⟩ := hpopped hsome
      refine ⟨.of_synced ?_ hclean, fun hn => absurd hclean hn⟩
      have hstore := (congrArg Store.flushEachWrite hpd.store_eq).trans h.flushOff
      have hfits := DataBase.pop_fits h.fits
      unfold pop
      rcases hp : s.db.pop with ⟨db, out⟩
      rw [hp] at hsome hstore hfits
      cases hsome
      exact synchronize_synced (s := s.setDb db) hstore hfits
    · have hdirty : ¬ CleanPop s.db := fun hclean => hu (hclean height block txs ht hg hr)
      have hfails := mt (DataBase.popTransactions_spec height s.db txs.reverse).1.mp hu
      obtain ⟨items, hput, hitems⟩ := DataBase.popTransactions_tables height s.db txs.reverse
      -- the last transaction was read back, so it is demoted
      have hne : items ≠ [] := by
        cases hrev : txs.reverse with
        | nil =>
            rw [hrev] at hu
            exact absurd True.intro hu
        | cons tx rest =>
            have hmem : tx ∈ txs := List.mem_reverse.mp (hrev ▸ List.mem_cons_self)
            obtain ⟨t, _, slab, hs, _, _, _, rfl⟩ :=
              DataBase.forall₂_mem_right hback tx hmem
            refine hitems _ rest hrev fun hnil => ?_
            have hnil : s.db.transactions.slabs t.1 = [] := hnil
            rw [hnil] at hs
            cases hs
      have hpop : s.pop = (s.setDb (DataBase.popTransactions height s.db txs.reverse).1, none) := by
        unfold pop DataBase.pop
        simp only [ht, hg, hr]
        rcases hp : DataBase.popTransactions height s.db txs.reverse with ⟨db, r⟩
        rw [hp] at hfails
        cases r with
        | false => rfl
        | true => exact absurd rfl hfails
      rw [hpop]
      exact ⟨.of_ahead (h.putBack hput hne) hdirty, fun _ => rfl⟩
  · have hclean : CleanPop s.db := fun height block txs ht hg hr =>
      absurd ⟨height, block, txs, ht, hg, hr⟩ hread
    have hpop : s.db.pop = (s.db, none) := by
      unfold DataBase.pop
      cases ht : s.db.blocks.top with
      | none => rfl
      | some height =>
          cases hg : s.db.blocks.get height with
          | none => simp only [hg]
          | some block =>
              cases hr : s.db.readBlock height block with
              | none => simp only [hg, hr]
              | some txs => exact absurd ⟨height, block, txs, ht, hg, hr⟩ hread
    unfold pop
    rw [hpop]
    exact ⟨.of_synced h hclean, fun hn => absurd hclean hn⟩

/-! ## 6. Sequences of blocks -/

/-- The pops of a loop, up to the first that fails, are clean. -/
def CleanPops : Nat → Mapped → Prop
  | 0, _ => True
  | n + 1, s => CleanPop s.db ∧ (s.pop.2.isSome = true → CleanPops n s.pop.1)

/-- The blocks of a `push_all`, up to the first that fails, are clean. -/
def CleanPushes : Mapped → List BucketedBlock → Nat → Prop
  | _, [], _ => True
  | s, b :: blocks, height =>
    (s.db.verifyPush b.block height = .success → CleanWrite s.db b.block height b.order) ∧
      ((s.doPush b height).2 = .success →
        CleanPushes (s.doPush b height).1 blocks (succSize height))

/-- The pops of a reorganization are clean, and where they all succeed its pushes. -/
def CleanReorganize (s : Mapped) (forkPoint : Checkpoint) (incoming : List BucketedBlock) : Prop :=
  ∀ nextHeight, safeAdd forkPoint.height 1 = some nextHeight → s.db.store.beginWrite.2 = true →
    let s := s.setStore s.db.store.beginWrite.1
    CleanPops (s.db.popCount forkPoint.hash) s ∧
      ((s.popAbove forkPoint.hash).2.2 = some .success →
        CleanPushes (s.popAbove forkPoint.hash).1 incoming nextHeight)

theorem popBlocks_outcome (n : Nat) (h : s.Synced) (out : List Block) :
    Outcome (CleanPops n s) (popBlocks n s out).1 ∧
      (¬ CleanPops n s → (popBlocks n s out).2.2 ≠ some .success) := by
  induction n generalizing s out with
  | zero => exact ⟨.of_synced h True.intro, fun hn => absurd True.intro hn⟩
  | succ n ih =>
      obtain ⟨hpop, hfails⟩ := pop_outcome h
      unfold popBlocks CleanPops
      by_cases hthrows : s.db.popThrows = true
      · -- the throw is in front of the first change
        have hnone : ¬ s.pop.2.isSome = true := by
          rw [congrArg Prod.snd s.pop_db]
          intro hsome
          obtain ⟨b, hb⟩ := Option.isSome_iff_exists.mp hsome
          exact Bool.false_ne_true ((DataBase.popThrows_of_pop hb).symm.trans hthrows)
        have hclean : CleanPop s.db := DataBase.cleanPop_of_throws hthrows
        rw [if_pos hthrows]
        exact ⟨.of_synced h ⟨hclean, fun he => absurd he hnone⟩, fun _ he => by cases he⟩
      rw [if_neg hthrows]
      rcases hp : s.pop with ⟨s', b⟩
      rw [hp] at hpop hfails
      cases b with
      | none => exact ⟨hpop.congr (and_iff_left fun he => by cases he), fun _ he => by cases he⟩
      | some b =>
          have hclean : CleanPop s.db := by
            by_contra hn
            cases hfails hn
          obtain ⟨hout, hfails'⟩ := ih (hpop.synced hclean) (b :: out)
          have hiff : CleanPop s.db ∧ ((some b).isSome = true → CleanPops n s') ↔ CleanPops n s' :=
            (and_iff_right hclean).trans (imp_iff_right rfl)
          exact ⟨hout.congr hiff, fun hn => hfails' fun hc => hn (hiff.mpr hc)⟩

theorem popAbove_outcome (h : s.Synced) (forkHash : HashDigest) :
    Outcome (CleanPops (s.db.popCount forkHash) s) (s.popAbove forkHash).1 ∧
      (¬ CleanPops (s.db.popCount forkHash) s → (s.popAbove forkHash).2.2 ≠ some .success) := by
  have hnone {s' : Mapped} (hs : s'.Synced) : Outcome (CleanPops 0 s) s' := .of_synced hs True.intro
  unfold popAbove DataBase.popCount
  cases s.db.blocks.getByHash forkHash with
  | none => exact ⟨hnone h, fun _ he => by cases he⟩
  | some result =>
      cases s.db.blocks.top with
      | none => exact ⟨hnone h, fun _ he => by cases he⟩
      | some top =>
          dsimp only
          by_cases hzero : DataBase.subSize top result.height = 0
          · rw [if_pos hzero, if_pos (.inl hzero)]
            exact ⟨hnone h, fun hn => absurd True.intro hn⟩
          · rw [if_neg hzero]
            by_cases hmax : DataBase.subSize top result.height > DataBase.maxReserve
            · rw [if_pos hmax, if_pos (.inr hmax)]
              exact ⟨hnone h, fun _ he => by cases he⟩
            · rw [if_neg hmax, if_neg (not_or.mpr ⟨hzero, hmax⟩)]
              exact popBlocks_outcome (top - result.height) h []

theorem pushAll_outcome (h : s.Synced) (blocks : List BucketedBlock) (height : Nat)
    (hf : (s.pushAll blocks height).1.db.Fits) :
    Outcome (CleanPushes s blocks height) (s.pushAll blocks height).1 ∧
      (¬ CleanPushes s blocks height → (s.pushAll blocks height).2 ≠ .success) := by
  induction blocks generalizing s height with
  | nil => exact ⟨.of_synced h True.intro, fun hn => absurd True.intro hn⟩
  | cons b blocks ih =>
      have hout := doPush_outcome h b height
      unfold pushAll at hf
      unfold pushAll CleanPushes
      rcases hp : s.doPush b height with ⟨s', ec⟩
      rw [hp] at hout hf
      cases ec with
      | success =>
          have hf : (s'.pushAll blocks (succSize height)).1.db.Fits := hf
          obtain ⟨hpush, hfails⟩ := hout (pushAll_fits hf)
          have hclean : s.db.verifyPush b.block height = .success →
              CleanWrite s.db b.block height b.order := by
            by_contra hn
            exact hfails hn rfl
          obtain ⟨hout, hfails'⟩ := ih (hpush.synced hclean) (succSize height) hf
          have hiff := (and_iff_right hclean).trans
            (imp_iff_right (a := Code.success = .success) (b := CleanPushes s' blocks (succSize height))
              rfl)
          exact ⟨hout.congr hiff, fun hn => hfails' fun hc => hn (hiff.mpr hc)⟩
      | _ =>
          exact ⟨(hout hf).1.congr (and_iff_left fun he => (by cases he)), fun _ he => by cases he⟩

theorem reorganize_outcome (h : s.Synced) (forkPoint : Checkpoint) (incoming : List BucketedBlock)
    (hf : (s.reorganize forkPoint incoming).1.db.Fits) :
    Outcome (CleanReorganize s forkPoint incoming) (s.reorganize forkPoint incoming).1 := by
  have hflush := (Store.beginWrite_flushEachWrite s.db.store).trans h.flushOff
  unfold reorganize at hf
  unfold reorganize CleanReorganize
  cases hn : safeAdd forkPoint.height 1 with
  | none => exact .of_synced h fun _ he => by cases he
  | some nextHeight =>
      rw [hn] at hf
      dsimp only at hf
      rcases hb : s.db.store.beginWrite with ⟨store, r⟩
      rw [hb] at hflush hf
      have hs : (s.setStore store).Synced := h.setStore hflush
      cases r with
      | false => exact .of_synced hs fun _ _ he => by cases he
      | true =>
          obtain ⟨hpops, hfails⟩ := popAbove_outcome hs forkPoint.hash
          dsimp only
          rcases hp : (s.setStore store).popAbove forkPoint.hash with ⟨s', out, result⟩
          dsimp only at hf
          rw [hp] at hpops hfails hf
          -- where a pop fails, or `reserve` throws, nothing is pushed
          have hstop (hne : result ≠ some .success) :
              Outcome (∀ next, some nextHeight = some next → true = true →
                CleanPops ((s.setStore store).db.popCount forkPoint.hash) (s.setStore store) ∧
                  (result = some .success → CleanPushes s' incoming next)) s' := by
            refine hpops.congr ⟨fun hc => (hc nextHeight rfl rfl).1, fun hc next _ _ => ⟨hc, ?_⟩⟩
            exact fun he => absurd he hne
          cases result with
          | none => exact hstop fun he => by cases he
          | some ec =>
              cases ec with
              | success =>
                  have hclean : CleanPops ((s.setStore store).db.popCount forkPoint.hash)
                      (s.setStore store) := by
                    by_contra hn
                    exact hfails hn rfl
                  have hf : (s'.pushAll incoming nextHeight).1.db.Fits := by
                    dsimp only at hf
                    rcases hpa : s'.pushAll incoming nextHeight with ⟨s'', ec⟩
                    rw [hpa] at hf
                    cases ec <;> exact hf
                  obtain ⟨hpushes, _⟩ :=
                    pushAll_outcome (hpops.synced hclean) incoming nextHeight hf
                  have hout : Outcome (∀ next, some nextHeight = some next → true = true →
                      CleanPops ((s.setStore store).db.popCount forkPoint.hash) (s.setStore store) ∧
                        (some Code.success = some .success → CleanPushes s' incoming next))
                      (s'.pushAll incoming nextHeight).1 := by
                    refine hpushes.congr ⟨fun hc => (hc nextHeight rfl rfl).2 rfl, ?_⟩
                    intro hc next he _
                    cases he
                    exact ⟨hclean, fun _ => hc⟩
                  dsimp only
                  rcases hpa : s'.pushAll incoming nextHeight with ⟨s'', ec⟩
                  rw [hpa] at hout
                  cases ec with
                  | success => exact hout.finish
                  | _ => exact hout
              | _ => exact hstop fun he => by cases he

/-! ## 7. Sessions -/

end Mapped

/-- The operations of a session; and what a gap decodes to can change between them. -/
inductive SessionOp where
  | insert (b : Block) (height : Nat)
  | pushTransaction (tx : Transaction) (forks : Nat)
  | push (b : Block) (height : Nat)
  | beginInsert
  | endInsert
  | pop
  | popAbove (forkHash : HashDigest)
  | pushAll (blocks : List BucketedBlock) (firstHeight : Nat)
  | reorganize (forkPoint : Checkpoint) (incoming : List BucketedBlock)
  | setStray (stray : BlockResult)

namespace Mapped

variable [Core]

def step (s : Mapped) : SessionOp → Mapped
  | .insert b height => (s.insert b height).1
  | .pushTransaction tx forks => (s.pushUnconfirmed tx forks).1
  | .push b height => (s.push b height).1
  | .beginInsert => s.beginInsert.1
  | .endInsert => s.endInsert.1
  | .pop => s.pop.1
  | .popAbove forkHash => (s.popAbove forkHash).1
  | .pushAll blocks firstHeight => (s.pushAll blocks firstHeight).1
  | .reorganize forkPoint incoming => (s.reorganize forkPoint incoming).1
  | .setStray stray => { s with db := s.db.setStray stray }

/-- **A clean step**: a block that passes the checks of its writer has its previous outputs, or leaves
    the index tables alone; a block that a pop reads back can be unwound. -/
def Clean (s : Mapped) : SessionOp → Prop
  | .insert b height => s.db.verifyInsert b height = .success →
    s.db.CleanWrite b height b.transactions.zipIdx
  | .push b height => s.db.verifyPush b height = .success → s.db.store.beginWrite.2 = true →
    s.db.CleanWrite b height b.transactions.zipIdx
  | .pop => s.db.CleanPop
  | .popAbove forkHash => CleanPops (s.db.popCount forkHash) s
  | .pushAll blocks firstHeight => CleanPushes s blocks firstHeight
  | .reorganize forkPoint incoming => CleanReorganize s forkPoint incoming
  | .pushTransaction _ _ | .beginInsert | .endInsert | .setStray _ => True

/-- **The step lemma.** -/
theorem step_outcome {s : Mapped} (h : s.Synced) (op : SessionOp) (hf : (s.step op).db.Fits) :
    Outcome (s.Clean op) (s.step op) := by
  cases op with
  | insert b height => exact insert_outcome h b height hf
  | pushTransaction tx forks => exact .of_synced (pushUnconfirmed_synced h tx forks) True.intro
  | push b height => exact push_outcome h b height hf
  | beginInsert =>
      refine .of_synced (h.setStore ?_) True.intro
      exact (Store.beginWrite_flushEachWrite ..).trans h.flushOff
  | endInsert =>
      refine .of_synced (h.setStore ?_) True.intro
      exact (Store.endWrite_flushEachWrite ..).trans h.flushOff
  | pop => exact (pop_outcome h).1
  | popAbove forkHash => exact (popAbove_outcome h forkHash).1
  | pushAll blocks firstHeight => exact (pushAll_outcome h blocks firstHeight hf).1
  | reorganize forkPoint incoming => exact reorganize_outcome h forkPoint incoming hf
  | setStray stray =>
      exact .of_synced ⟨h.flushOff, h.fits, h.blocks, h.blockIndex, h.transactions,
        h.transactionsUnconfirmed, h.indexes⟩ True.intro

theorem step_wellFormed_iff {s : Mapped} (h : s.Synced) (op : SessionOp)
    (hf : (s.step op).db.Fits) : (s.step op).WellFormed ↔ s.Clean op := by
  constructor
  · intro hw
    by_contra hn
    exact ((step_outcome h op hf).ahead hn).not_wellFormed hw
  · exact fun hc => ((step_outcome h op hf).synced hc).wellFormed

/-- **A store that reopens is well formed**, after every operation of a session, exactly where every
    step of the session is clean: for each store just created, or opened, with `flush_writes` off, as
    long as no record count runs over. -/
theorem reopensWellFormed_iff {s : Mapped} (h : s.JustOpened) (ops : List SessionOp)
    (hf : Always step (fun s => s.db.Fits) s ops) :
    Always step WellFormed s ops ↔ EveryStep step Clean s ops := by
  have hsynced := h.synced hf.head
  refine always_iff_everyStep (I := Synced) (H := fun s op => (s.step op).db.Fits)
    (fun s op hI hf hw => ?_) (fun s op hI _ hf => step_wellFormed_iff hI op hf) hsynced
    hsynced.wellFormed hf.everyStep
  exact (step_outcome hI op hf).synced ((step_wellFormed_iff hI op hf).mp hw)

theorem start_justOpened {settings : Settings} (h : settings.flushWrites = false)
    (flushes : Bool) (stray : BlockResult) : (start settings flushes stray).JustOpened := by
  refine ⟨?_, rfl⟩
  show (Store.open ⟨settings.flushWrites, false, 0⟩).1.flushEachWrite = false
  rw [h]
  rfl

/-- Created tables of the examples. -/
def sampleStart : Mapped := @start Core.sample Settings.sample true .sampleStray

/-- A block whose second transaction spends an output that is not there. -/
def missingBlock : Block := .sample 2 1 [.sampleCoinbase 201 2, .sampleSpend 202 ⟨102, 0⟩ 1]

omit [Core] in
/-- **A block with a missing previous output**: its push fails, the store reopens, and the spend it
    stored first is linked at the record counted next. The next session stores its first spend over
    it, linked to itself. -/
theorem missingBlock_relinked : ∃ s,
    s = run (@step Core.sample) sampleStart [.push .sampleGenesis 0, .push missingBlock 1] ∧
      (@push Core.sample (run (@step Core.sample) sampleStart [.push .sampleGenesis 0]) missingBlock
        1).2 = .operationFailed ∧
      s.reopens = true ∧ s.db.spends.lookup.bucket 0 = some 0 ∧ s.file.spends = 0 ∧
      ((s.db.spends.lookup.restart s.file.spends).store ⟨101, 0⟩ ⟨202, 0⟩ 1).1.next 0 = some 0 ∧
      ¬ Always (@step Core.sample) WellFormed sampleStart
        [.push .sampleGenesis 0, .push missingBlock 1] := by
  refine ⟨_, rfl, by decide +kernel, ?_⟩
  have hreopens : (run (@step Core.sample) sampleStart
      [.push .sampleGenesis 0, .push missingBlock 1]).reopens = true := by decide +kernel
  have hhead : (run (@step Core.sample) sampleStart
      [.push .sampleGenesis 0, .push missingBlock 1]).db.spends.lookup.bucket 0 = some 0 := by
    decide +kernel
  have hfile : (run (@step Core.sample) sampleStart
      [.push .sampleGenesis 0, .push missingBlock 1]).file.spends = 0 := by decide +kernel
  refine ⟨hreopens, hhead, hfile, by decide +kernel, fun h => ?_⟩
  have htables := h.last hreopens
  exact (HashTable.Linked.head 0 0 hhead).not_restartable (Nat.le_of_eq hfile)
    (htables.spends (by decide +kernel))

omit [Core] in
/-- A block with its previous output, pushed and popped. -/
theorem spendingBlock_reopened : Always (@step Core.sample) WellFormed sampleStart
    [.push .sampleGenesis 0, .push DataBase.spendingBlock 1, .pop] := by
  refine (@reopensWellFormed_iff Core.sample sampleStart
    (@start_justOpened Core.sample _ rfl true .sampleStray)
    [.push .sampleGenesis 0, .push DataBase.spendingBlock 1, .pop]
    (by decide +kernel)).mpr
    ⟨fun _ _ => .inl ?_, fun _ _ => .inl ?_, ?_, True.intro⟩
  · exact (@spendAll_spec Core.sample _ 0 _).1.mp (by decide +kernel)
  · exact (@spendAll_spec Core.sample _ 1 _).1.mp (by decide +kernel)
  · have hpop : (@DataBase.pop Core.sample (run (@step Core.sample) sampleStart
        [.push .sampleGenesis 0, .push DataBase.spendingBlock 1]).db).2.isSome = true := by
      decide +kernel
    obtain ⟨out, hout⟩ := Option.isSome_iff_exists.mp hpop
    exact @DataBase.cleanPop_of_pop Core.sample _ out hout

end Mapped

end Libbitcoin.Database
