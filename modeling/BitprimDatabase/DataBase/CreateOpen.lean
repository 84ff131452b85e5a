/-
  File:      BitprimDatabase/DataBase/CreateOpen.lean
  Subject:   CREATE, OPEN AND CLOSE (data_base.cpp, store.cpp) with every internal step that can fail:
             the locks, the files, the tables, the push of the first block.

  * `Outcomes` -- which steps succeed; the locks belong to the core library: a lock that is taken
    is held until it is released, a release succeeds, and so does the closing of a table;
  * `Object` -- the data base object: its closed flag, the locks it holds, its tables;
  * `storeOpen_cases`, `create_cases`, `open_cases` -- what an attempt can leave behind;
  * **`all_or_nothing_iff`** -- an attempt that fails once the exclusive lock is taken keeps it, for
    `close` looks at the closed flag alone, and a first block that is not stored goes unnoticed.
-/
import BitprimDatabase.DataBase.Push
import BitprimDatabase.DataBase.Synchronize

namespace Libbitcoin.Database

open Lib

/-! ## 1. The object and its steps -/

/-- The files `store::create` makes. -/
inductive StoreFile where
  | blockTable
  | blockIndex
  | transactionTable
  | transactionUnconfirmedTable
  | spendTable
  | historyTable
  | historyRows
  | stealthRows

/-- The tables `create` and `open` start. -/
inductive StoreTable where
  | blocks
  | transactions
  | transactionsUnconfirmed
  | spends
  | history
  | stealth

/-- What each internal step of an attempt answers. -/
structure Outcomes where
  exclusiveLock : Bool
  flushTryLock : Bool
  flushLockShared : Bool
  createFile : StoreFile → Bool
  startTable : StoreTable → Bool
  writeLockShared : Bool
  flushes : Bool

/-- Every step succeeds. -/
def Outcomes.allSucceed : Outcomes := ⟨true, true, true, fun _ => true, fun _ => true, true, true⟩

/-- `store::create`. -/
def Settings.storeCreate (settings : Settings) (o : Outcomes) : Bool :=
  let created := [.blockTable, .blockIndex, .transactionTable, .transactionUnconfirmedTable].all
    o.createFile
  if !settings.useIndexes then created
  else created && [.spendTable, .historyTable, .historyRows, .stealthRows].all o.createFile

/-- The tables in the order in which `create` and `open` start them. -/
def Settings.tablesStart (settings : Settings) (o : Outcomes) : Bool :=
  let started := [.blocks, .transactions, .transactionsUnconfirmed].all o.startTable
  if settings.useIndexes then started && [.spends, .history, .stealth].all o.startTable else started

/-- The data base object: the closed flag, the locks it took and holds, its tables once started. -/
structure Object where
  settings : Settings
  closed : Bool
  exclusiveLocked : Bool
  flushLocked : Bool
  tables : Option DataBase

namespace Object

def construct (settings : Settings) : Object := ⟨settings, true, false, false, none⟩

/-- `store::open`. -/
def storeOpen (s : Object) (o : Outcomes) : Object × Bool :=
  if !o.exclusiveLock then (s, false)
  else
    let s := { s with exclusiveLocked := true }
    if !o.flushTryLock then (s, false)
    else if s.settings.flushWrites then (s, true)
    else if !o.flushLockShared then (s, false)
    else ({ s with flushLocked := true }, true)

/-- `store::close`. -/
def storeClose (s : Object) : Object × Bool :=
  let s := if s.settings.flushWrites then s else { s with flushLocked := false }
  ({ s with exclusiveLocked := false }, true)

/-- Close is idempotent. -/
def close (s : Object) : Object × Bool :=
  if s.closed then (s, true) else { s with closed := true }.storeClose

variable [Core]

/-- The push of the first block; `begin_write` is refused where it cannot take the flush lock. -/
def pushGenesis (o : Outcomes) (db : DataBase) (genesis : Block) : DataBase :=
  if db.settings.flushWrites && !o.writeLockShared then db else (db.push genesis 0).1

/-- Lock, create the files, start the tables, store the first block. -/
def create (s : Object) (o : Outcomes) (stray : BlockResult) (genesis : Block) : Object × Bool :=
  match s.storeOpen o with
  | (s, false) => (s, false)
  | (s, true) =>
    if !s.settings.storeCreate o then (s, false)
    else
      let db := DataBase.start s.settings o.flushes stray
      let s := { s with tables := some db }
      if !s.settings.tablesStart o then (s, false)
      else
        let db := pushGenesis o db genesis
        ({ s with closed := false, flushLocked := db.store.flushLocked, tables := some db }, true)

omit [Core] in
/-- Lock, start the tables on the files as they are. -/
def «open» (s : Object) (o : Outcomes) (files : DataBase) : Object × Bool :=
  match s.storeOpen o with
  | (s, false) => (s, false)
  | (s, true) => ({ s with closed := false, tables := some files }, s.settings.tablesStart o)

/-! ## 2. What an attempt leaves behind -/

/-- Neither lock is held. -/
def Released (s : Object) : Prop := s.exclusiveLocked = false ∧ s.flushLocked = false

/-- The steps of `store::open` behind the exclusive lock succeed. -/
def FlushOpens (settings : Settings) (o : Outcomes) : Prop :=
  o.flushTryLock = true ∧ (settings.flushWrites = true ∨ o.flushLockShared = true)

instance (settings : Settings) (o : Outcomes) : Decidable (FlushOpens settings o) :=
  inferInstanceAs (Decidable (_ ∧ _))

omit [Core] in
/-- **The three ends of `store::open`**: no lock, the exclusive lock alone, or both. -/
theorem storeOpen_cases (settings : Settings) (o : Outcomes) :
    (o.exclusiveLock = false ∧ (construct settings).storeOpen o = (construct settings, false)) ∨
      (o.exclusiveLock = true ∧ ¬ FlushOpens settings o ∧
        (construct settings).storeOpen o = (⟨settings, true, true, false, none⟩, false)) ∨
      (o.exclusiveLock = true ∧ FlushOpens settings o ∧ (construct settings).storeOpen o =
        (⟨settings, true, true, !settings.flushWrites, none⟩, true)) := by
  unfold storeOpen construct FlushOpens
  cases he : o.exclusiveLock with
  | false => exact .inl ⟨rfl, rfl⟩
  | true =>
      refine .inr ?_
      cases o.flushTryLock <;> cases hw : settings.flushWrites <;> cases o.flushLockShared <;>
        simp [hw]

omit [Core] in
/-- An attempt that fails with the closed flag set is not undone by `close`. -/
theorem close_closed {s : Object} (h : s.closed = true) : s.close = (s, true) := if_pos h

omit [Core] in
/-- **`open` releases what it took** unless it fails behind the exclusive lock, in `store::open`. -/
theorem open_released_iff (settings : Settings) (o : Outcomes) (files : DataBase) :
    (((construct settings).open o files).2 = false →
        (((construct settings).open o files).1.close.1).Released) ↔
      (o.exclusiveLock = false ∨ FlushOpens settings o) := by
  unfold «open»
  rcases storeOpen_cases settings o with ⟨he, h⟩ | ⟨he, hn, h⟩ | ⟨he, hf, h⟩
  · rw [h]
    exact iff_of_true (fun _ => ⟨rfl, rfl⟩) (.inl he)
  · rw [h]
    refine iff_of_false (fun hr => ?_) ?_
    · cases (hr rfl).1
    · rintro (h' | h')
      · rw [he] at h'
        cases h'
      · exact hn h'
  · rw [h]
    refine iff_of_true (fun _ => ?_) (.inr hf)
    cases hw : settings.flushWrites <;> simp [close, storeClose, Released, hw]

/-- All steps of `create` in front of the push succeed. -/
def Creates (settings : Settings) (o : Outcomes) : Prop :=
  FlushOpens settings o ∧ settings.storeCreate o = true ∧ settings.tablesStart o = true

instance (settings : Settings) (o : Outcomes) : Decidable (Creates settings o) :=
  inferInstanceAs (Decidable (_ ∧ _))

/-- **The ends of `create`**: no lock, a lock and the closed flag, or created tables. -/
theorem create_cases (settings : Settings) (o : Outcomes) (stray : BlockResult) (genesis : Block) :
    (o.exclusiveLock = false ∧
        (construct settings).create o stray genesis = (construct settings, false)) ∨
      (o.exclusiveLock = true ∧ ¬ Creates settings o ∧
        ∃ s, (construct settings).create o stray genesis = (s, false) ∧ s.closed = true ∧
          s.exclusiveLocked = true) ∨
      (o.exclusiveLock = true ∧ Creates settings o ∧
        ∃ s, (construct settings).create o stray genesis = (s, true) ∧
          s.tables = some (pushGenesis o (.start settings o.flushes stray) genesis)) := by
  unfold create Creates
  rcases storeOpen_cases settings o with ⟨he, h⟩ | ⟨he, hn, h⟩ | ⟨he, hf, h⟩
  · rw [h]
    exact .inl ⟨he, rfl⟩
  · rw [h]
    exact .inr (.inl ⟨he, fun hc => hn hc.1, _, rfl, rfl, rfl⟩)
  · rw [h]
    refine .inr ?_
    dsimp only
    cases hc : settings.storeCreate o with
    | false => exact .inl ⟨he, by simp, _, rfl, rfl, rfl⟩
    | true =>
        cases ht : settings.tablesStart o with
        | false => exact .inl ⟨he, by simp, _, rfl, rfl, rfl⟩
        | true => exact .inr ⟨he, ⟨hf, rfl, rfl⟩, _, rfl, rfl⟩

/-! ## 3. The first block -/

/-- The first block is the top and what `get(0)` answers. -/
def GenesisStored (s : Object) (genesis : Block) : Prop :=
  ∃ db, s.tables = some db ∧ db.blocks.top = some 0 ∧
    db.blocks.get 0 = some ⟨genesis.header.hash, genesis.toSlab 0⟩

/-- **What a first block needs to be stored**: a transaction, no parent, spends of its own outputs
    only, and the flush lock where each write takes it. -/
def Storable (settings : Settings) (o : Outcomes) (stray : BlockResult) (genesis : Block) : Prop :=
  genesis.transactions ≠ [] ∧ genesis.header.previousBlockHash = nullHash ∧
    (∀ p ∈ genesis.previousOutputs,
      Spendable ((DataBase.start settings o.flushes stray).stored genesis 0) p 0) ∧
    (settings.flushWrites = true → o.writeLockShared = true)

theorem verifyPush_start (settings : Settings) (flushes : Bool) (stray : BlockResult)
    (genesis : Block) :
    (DataBase.start settings flushes stray).verifyPush genesis 0 = .success ↔
      genesis.transactions ≠ [] ∧ genesis.header.previousBlockHash = nullHash := by
  have hnext : DataBase.getNextHeight (DataBase.start settings flushes stray).blocks = 0 := rfl
  unfold DataBase.verifyPush DataBase.getPreviousHash
  rw [hnext, if_pos rfl]
  by_cases ht : genesis.transactions = []
  · simp [ht]
  · by_cases hp : genesis.header.previousBlockHash = nullHash <;> simp [ht, hp]

/-- **The push of the first block stores it exactly where it is storable**, whatever the flush behind
    it answers. -/
theorem pushGenesis_iff (settings : Settings) (o : Outcomes) (stray : BlockResult)
    (genesis : Block) :
    ((pushGenesis o (.start settings o.flushes stray) genesis).blocks.top = some 0 ∧
        (pushGenesis o (.start settings o.flushes stray) genesis).blocks.get 0 =
          some ⟨genesis.header.hash, genesis.toSlab 0⟩) ↔
      Storable settings o stray genesis := by
  have hempty : (DataBase.start settings o.flushes stray).blocks.top = none := rfl
  have hsettings : (DataBase.start settings o.flushes stray).settings = settings := rfl
  unfold pushGenesis Storable
  rw [hsettings]
  by_cases hl : (settings.flushWrites && !o.writeLockShared) = true
  · rw [if_pos hl, hempty]
    refine iff_of_false (fun h => by cases h.1) fun h => ?_
    rw [Bool.and_eq_true, Bool.not_eq_true'] at hl
    rw [h.2.2.2 hl.1] at hl
    cases hl.2
  · have hlock : settings.flushWrites = true → o.writeLockShared = true := by
      cases hw : settings.flushWrites <;> cases hs : o.writeLockShared <;> simp_all
    rw [if_neg hl]
    constructor
    · rintro ⟨htop, _⟩
      rcases DataBase.push_cases (.start settings o.flushes stray) genesis 0 with
        ⟨_, hb⟩ | ⟨hv, hs, _⟩
      · rw [hb, hempty] at htop
        cases htop
      · obtain ⟨ht, hp⟩ := (verifyPush_start ..).mp hv
        exact ⟨ht, hp, hs, hlock⟩
    · rintro ⟨ht, hp, hs, _⟩
      have heven : Store.isWriteLocked (DataBase.start settings o.flushes stray).store.sequence =
          false := by
        show Store.isWriteLocked (Store.open ⟨settings.flushWrites, false, 0⟩).1.sequence = false
        cases settings.flushWrites <;> rfl
      obtain ⟨db', hpush, hw, _⟩ :=
        DataBase.push_finishes ((verifyPush_start ..).mpr ⟨ht, hp⟩) hs heven
      have hblocks : ((DataBase.start settings o.flushes stray).push genesis 0).1.blocks =
          (DataBase.start settings o.flushes stray).blocks.store genesis 0 := by
        rw [hpush]
        exact hw.blocks_eq
      rw [hblocks]
      refine ⟨BlockDatabase.top_eq_some.mpr ?_, BlockDatabase.store_get_same _ _ (by decide)⟩
      rw [BlockDatabase.store_count _ _ (by decide)]
      rfl

/-! ## 4. All or nothing -/

/-- **What a caller relies on**: `create` answers true only with the first block stored, and after an
    attempt that answers false `close` leaves no lock held. -/
structure AllOrNothing (settings : Settings) (o o' : Outcomes) (stray : BlockResult)
    (genesis : Block) (files : DataBase) : Prop where
  created : ((construct settings).create o stray genesis).2 = true →
    ((construct settings).create o stray genesis).1.GenesisStored genesis
  createReleased : ((construct settings).create o stray genesis).2 = false →
    (((construct settings).create o stray genesis).1.close.1).Released
  openReleased : ((construct settings).open o' files).2 = false →
    (((construct settings).open o' files).1.close.1).Released

/-- **The exact condition**, over every first block and every choice of steps that fail: `create`
    fails at the exclusive lock or not at all, with a first block that is storable, and `open` fails
    at the exclusive lock or behind the locks. -/
theorem all_or_nothing_iff (settings : Settings) (o o' : Outcomes) (stray : BlockResult)
    (genesis : Block) (files : DataBase) :
    AllOrNothing settings o o' stray genesis files ↔
      (o.exclusiveLock = false ∨
        (Creates settings o ∧ Storable settings o stray genesis)) ∧
      (o'.exclusiveLock = false ∨ FlushOpens settings o') := by
  have hopen := open_released_iff settings o' files
  have hstored := pushGenesis_iff settings o stray genesis
  rcases create_cases settings o stray genesis with ⟨he, h⟩ | ⟨he, hn, s, h, hcl, hex⟩ |
    ⟨he, hc, s, h, ht⟩
  · constructor
    · exact fun ha => ⟨.inl he, hopen.mp ha.openReleased⟩
    · rintro ⟨_, ho⟩
      refine ⟨fun hr => ?_, fun _ => ?_, hopen.mpr ho⟩
      · rw [h] at hr
        cases hr
      · rw [h]
        exact ⟨rfl, rfl⟩
  · refine iff_of_false (fun ha => ?_) ?_
    · have hr := ha.createReleased (by rw [h])
      rw [h, close_closed hcl] at hr
      cases hex.symm.trans hr.1
    · rintro ⟨h' | ⟨h', _⟩, _⟩
      · rw [he] at h'
        cases h'
      · exact hn h'
  · constructor
    · intro ha
      obtain ⟨db, hdb, hgenesis⟩ := ha.created (by rw [h])
      rw [h] at hdb
      cases ht.symm.trans hdb
      exact ⟨.inr ⟨hc, hstored.mp hgenesis⟩, hopen.mp ha.openReleased⟩
    · rintro ⟨hcr, ho⟩
      have hst : Storable settings o stray genesis := by
        rcases hcr with h' | h'
        · rw [he] at h'
          cases h'
        · exact h'.2
      refine ⟨fun _ => ?_, fun hr => ?_, hopen.mpr ho⟩
      · rw [h]
        exact ⟨_, ht, hstored.mpr hst⟩
      · rw [h] at hr
        cases hr

omit [Core] in
/-- **A first block without transactions, and a flush lock that is there already**: `create` answers
    true on an empty chain, and the failed `open` keeps the exclusive lock. -/
theorem emptyGenesis_created :
    ((@create Core.sample (construct .sample) .allSucceed .sampleStray (.sample 1 nullHash [])).2 =
        true ∧
      ¬ (@create Core.sample (construct .sample) .allSucceed .sampleStray
          (.sample 1 nullHash [])).1.GenesisStored (.sample 1 nullHash [])) ∧
      (((construct .sample).open { Outcomes.allSucceed with flushTryLock := false }
          (@DataBase.start Core.sample .sample true .sampleStray)).2 = false ∧
        ((construct .sample).open { Outcomes.allSucceed with flushTryLock := false }
          (@DataBase.start Core.sample .sample true .sampleStray)).1.close.1.exclusiveLocked =
            true) := by
  refine ⟨⟨rfl, ?_⟩, rfl, rfl⟩
  rintro ⟨db, hdb, htop, _⟩
  cases hdb
  cases htop

end Object

end Libbitcoin.Database
