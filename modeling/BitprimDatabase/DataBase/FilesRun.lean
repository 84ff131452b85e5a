/-
  File:      BitprimDatabase/DataBase/FilesRun.lean
  Subject:   **SESSIONS ON THE FILES**: operations one after another, and between them the files
             closed and opened again.

  * `Synced` -- the counts in the files are those of the managers; `Answer.settles` -- the answers
    behind which they are;
  * `step` -- an operation or a reopening of the files, with what was answered so far; the same on the
    tables of DataBase.lean;
  * `Follows` -- the files hold the tables, and answered the same: **`Follows.step`**;
  * **`session_served`** -- behind every session on created files every reader answers for the tables,
    and the answers of all operations are those of the tables.

  A session has no push or pop above a gap, and reopens the files behind such an answer only.
-/
import BitprimDatabase.DataBase.FilesPop

namespace Libbitcoin.Database

open Lib

/-! ## 1. Closing and opening -/

namespace Files

variable {env : Env} {f f' : Files} {db : DataBase}

/-- The counts in the files are those of the managers. -/
structure Synced (f : Files) : Prop where
  blocks : f.blocks.Synced
  transactions : f.transactions.lookup.Synced
  transactionsUnconfirmed : f.transactionsUnconfirmed.lookup.Synced
  indexes : f.settings.useIndexes = true →
    f.spends.lookup.Synced ∧ f.history.Synced ∧ f.stealth.rows.Synced

theorem synchronize_synced (f : Files) : f.synchronize.Synced := by
  unfold synchronize
  by_cases hi : f.settings.useIndexes = true
  · rw [if_pos hi]
    exact ⟨f.blocks.synchronize_synced, f.transactions.lookup.sync_synced,
      f.transactionsUnconfirmed.lookup.sync_synced, fun _ => ⟨f.spends.lookup.sync_synced,
        f.history.synchronize_synced, f.stealth.rows.sync_synced⟩⟩
  · rw [if_neg hi]
    exact ⟨f.blocks.synchronize_synced, f.transactions.lookup.sync_synced,
      f.transactionsUnconfirmed.lookup.sync_synced, fun h => absurd h hi⟩

/-- **The index files are reopened.** -/
theorem Holds.reopenIndexes (h : f.Holds env db) (hs : f.Synced)
    (hi : f.settings.useIndexes = true) (rest : Contents) : ∃ f',
    f.reopenIndexes rest = some f' ∧ f'.Holds env db ∧ f'.Synced ∧ f'.rows = f.rows := by
  obtain ⟨hspends, hhistory, hstealth⟩ := hs.indexes hi
  obtain ⟨s, hheld, hcodes⟩ := h.spends
  obtain ⟨spends, hsp, h₁, hcount₁, hs₁⟩ := hheld.reopen hspends rest.spendTable
  obtain ⟨history, hhi, h₂, hcount₂, hs₂⟩ :=
    h.history.reopen hhistory rest.historyTable rest.historyRows
  obtain ⟨stealth, hst, h₃, hcount₃, hs₃⟩ := h.stealth.reopen hstealth rest.stealthRows
  refine ⟨{ f with spends := spends, history := history, stealth := stealth }, ?_,
    { h with spends := ⟨s, h₁, hcodes⟩, history := h₂, stealth := h₃ },
    { hs with indexes := fun _ => ⟨hs₁, hs₂, hs₃⟩ }, ?_⟩
  · unfold Files.reopenIndexes
    rw [hsp, hhi, hst]
    rfl
  · unfold rows
    dsimp only
    rw [hcount₁, hcount₂, hcount₃]

/-- No lock refuses files that are reopened. -/
theorem reopen_locks {rest : Contents} (hc : f.reopen rest = some f') :
    f.store.close.2 = true ∧ f.store.close.1.open.2 = true := by
  unfold Files.reopen at hc
  split at hc
  · cases hc
  · rename_i store hclose
    dsimp only at hc
    split at hc
    · cases hc
    · rename_i store' hopen
      rw [hclose]
      exact ⟨rfl, congrArg Prod.snd hopen⟩

/-- **The files are reopened** where no lock refuses it, and hold what they held. -/
theorem Holds.reopen (h : f.Holds env db) (hs : f.Synced) (hclose : db.store.close.2 = true)
    (hopen : db.store.close.1.open.2 = true) (rest : Contents) : ∃ f',
    f.reopen rest = some f' ∧ f'.Holds env db.reopen ∧ f'.Synced ∧ f'.rows = f.rows := by
  obtain ⟨blocks, hb, h₁, hs₁⟩ := h.blocks.reopen hs.blocks rest.blockTable rest.blockIndex
  obtain ⟨transactions, ht, h₂, hs₂⟩ :=
    h.transactions.reopen hs.transactions f.settings.cacheCapacity rest.transactionTable
  obtain ⟨pool, hp, h₃, hs₃⟩ :=
    h.transactionsUnconfirmed.reopen hs.transactionsUnconfirmed rest.transactionUnconfirmedTable
  rw [h.settings_eq] at h₂
  have h' : Holds env
      { f with
        store := db.store.close.1.open.1
        blocks := blocks
        transactions := transactions
        transactionsUnconfirmed := pool } db.reopen :=
    { h with store_eq := rfl, blocks := h₁, transactions := h₂, transactionsUnconfirmed := h₃ }
  have hs' : Synced
      { f with
        store := db.store.close.1.open.1
        blocks := blocks
        transactions := transactions
        transactionsUnconfirmed := pool } := ⟨hs₁, hs₂, hs₃, hs.indexes⟩
  unfold Files.reopen
  rw [h.store_eq]
  rcases hcl : db.store.close with ⟨store, r⟩
  rw [hcl] at hclose hopen h' hs'
  cases hclose
  dsimp only
  rcases hop : store.open with ⟨store', r⟩
  rw [hop] at hopen h' hs'
  cases hopen
  dsimp only
  rw [hb, ht, hp]
  dsimp only [Option.bind_some]
  by_cases hi : f.settings.useIndexes = true
  · rw [if_pos hi]
    exact h'.reopenIndexes hs' hi rest
  · rw [if_neg hi]
    exact ⟨_, rfl, h', hs', rfl⟩

/-! ## 2. The answers behind which the counts are written -/

end Files

variable [Core]

/-- What writing a block settles: all counts where it succeeds, none where it fails underway. -/
def Code.settles (before : Bool) : Code → Bool
  | .success => true
  | .operationFailed => false
  | _ => before

omit [Core] in
theorem Code.settles_iff {before : Bool} (ec : Code) : ec.settles before = true ↔
    (before = true ∨ ec = .success) ∧ ec ≠ .operationFailed := by
  cases ec <;> cases before <;> decide

/-- The counts are written behind the operation with this answer, or were before and are still. -/
def Answer.settles (before : Bool) (op : Op) : Answer → Bool
  | .code ec =>
    match op with
    | .pushUnconfirmed .. => before
    | _ => ec.settles before
  | .popped out => out.isSome
  | .above _ none => before
  | .above out (some ec) => ec.settles before && (before || !out.isEmpty)

namespace Files

variable {env : Env} {f f' : Files}

omit [Core] in
theorem Synced.setStore (h : f.Synced) (store : Store) : Synced { f with store := store } :=
  ⟨h.blocks, h.transactions, h.transactionsUnconfirmed, h.indexes⟩

theorem writeBlock_synced {b : Block} {height : Nat}
    (hc : f.writeBlock env b height = some (f', true)) : f'.Synced := by
  unfold writeBlock at hc
  split at hc
  · cases hc
  · cases hc
  · split at hc
    · cases hc
    · cases hc
    · obtain ⟨blocks, _, he⟩ := Option.map_eq_some_iff.mp hc
      cases he
      exact synchronize_synced _

theorem insert_synced {b : Block} {height : Nat} {ec : Code} (hs : f.Synced ∨ ec = .success)
    (hfail : ec ≠ .operationFailed) (hc : f.insert env b height = some (f', ec)) : f'.Synced := by
  unfold insert at hc
  split at hc
  · obtain ⟨⟨f₁, r⟩, hw, he⟩ := Option.map_eq_some_iff.mp hc
    cases he
    cases r with
    | false => exact absurd rfl hfail
    | true => exact writeBlock_synced hw
  · rename_i hne
    cases hc
    exact hs.resolve_right hne

theorem push_synced {b : Block} {height : Nat} {ec : Code} (hs : f.Synced ∨ ec = .success)
    (hfail : ec ≠ .operationFailed) (hc : f.push env b height = some (f', ec)) : f'.Synced := by
  unfold push at hc
  split at hc
  · rcases hbegin : f.store.beginWrite with ⟨store, r⟩
    rw [hbegin] at hc
    cases r with
    | false =>
        cases hc
        exact absurd rfl hfail
    | true =>
        obtain ⟨⟨f₁, r⟩, hw, he⟩ := Option.map_eq_some_iff.mp hc
        cases r with
        | false =>
            cases he
            exact absurd rfl hfail
        | true =>
            have he : f₁.finish = (f', ec) := he
            rw [show f' = f₁.finish.1 by rw [he]]
            exact (writeBlock_synced hw).setStore _
  · rename_i hne
    cases hc
    exact hs.resolve_right hne

omit [Core] in
/-- A transaction is synchronized in both of its tables. -/
theorem pushUnconfirmed_synced (hs : f.Synced) {tx : Transaction} {forks : Nat} {ec : Code}
    (hc : f.pushUnconfirmed env tx forks = some (f', ec)) : f'.Synced := by
  unfold pushUnconfirmed at hc
  split at hc
  · cases hc
  · rcases hbegin : f.store.beginWrite with ⟨store, r⟩
    rw [hbegin] at hc
    cases r with
    | false =>
        cases hc
        exact hs.setStore store
    | true =>
        obtain ⟨transactions, _, hc⟩ := Option.bind_eq_some_iff.mp hc
        obtain ⟨pool, _, hfinish⟩ := Option.map_eq_some_iff.mp hc
        have h₁ : Synced
            { f with
              store := store
              transactions := transactions.synchronize
              transactionsUnconfirmed := pool.synchronize } :=
          ⟨hs.blocks, transactions.lookup.sync_synced, pool.lookup.sync_synced, hs.indexes⟩
        rw [show f' = (finish _).1 from (congrArg Prod.fst hfinish).symm]
        exact h₁.setStore _
  · cases hc
    exact hs

theorem pop_synced {b : Block} (hc : f.pop env = some (f', some b)) : f'.Synced := by
  unfold pop at hc
  split at hc
  · cases hc
  split at hc
  · cases hc
  split at hc
  · cases hc
  · cases hc
  split at hc
  · cases hc
  · cases hc
  split at hc
  · cases hc
  · cases hc
    exact synchronize_synced _

/-- The codes of the loop. -/
theorem popBlocks_code {n : Nat} {out out' : List Block} {ec : Code}
    (hc : popBlocks env n f out = some (f', out', ec)) : ec = .success ∨ ec = .operationFailed := by
  induction n generalizing f out with
  | zero =>
      cases hc
      exact .inl rfl
  | succ n ih =>
      unfold popBlocks at hc
      split at hc
      · cases hc
      · cases hc
        exact .inr rfl
      · exact ih hc

/-- Where all pops answer, the last one synchronizes. -/
theorem popBlocks_synced (n : Nat) {out out' : List Block} (hs : f.Synced ∨ 0 < n)
    (hc : popBlocks env n f out = some (f', out', .success)) :
    f'.Synced ∧ out.length + n = out'.length := by
  induction n generalizing f out with
  | zero =>
      cases hc
      exact ⟨hs.resolve_right (Nat.lt_irrefl 0), rfl⟩
  | succ n ih =>
      unfold popBlocks at hc
      split at hc
      · cases hc
      · cases hc
      · rename_i f₁ b hp
        obtain ⟨h, hlen⟩ := ih (.inl (pop_synced hp)) hc
        refine ⟨h, ?_⟩
        rw [← hlen, List.length_cons]
        omega

theorem popAbove_synced {before : Bool} (hs : before = true → f.Synced) {forkHash : HashDigest}
    {out : List Block} {ec : Option Code}
    (ha : (Answer.above out ec).settles before (.popAbove forkHash) = true)
    (hc : f.popAbove env forkHash = some (f', out, ec)) : f'.Synced := by
  have hbefore (ha : (Answer.above [] ec).settles before (.popAbove forkHash) = true) :
      before = true := by
    cases ec with
    | none => exact ha
    | some ec => exact (Bool.or_false _).symm.trans (Bool.and_eq_true_iff.mp ha).2
  unfold popAbove at hc
  split at hc
  · cases hc
  split at hc
  · rename_i result top _ _
    dsimp only at hc
    split at hc
    · cases hc
      exact hs (hbefore ha)
    split at hc
    · cases hc
      exact hs (hbefore ha)
    · obtain ⟨⟨f₁, out₁, ec₁⟩, hp, he⟩ := Option.map_eq_some_iff.mp hc
      cases he
      by_cases hec : ec₁ = .success
      · subst hec
        refine (popBlocks_synced _ ?_ hp).1
        rcases Nat.eq_zero_or_pos (top - result.height) with hzero | hpos
        · rw [hzero] at hp
          cases hp
          exact .inl (hs (hbefore ha))
        · exact .inr hpos
      · have hcode := (popBlocks_code hp).resolve_left hec
        have hsettles : ec₁.settles before = true := (Bool.and_eq_true_iff.mp ha).1
        rw [hcode] at hsettles
        cases hsettles
  · cases hc
    exact hs (hbefore ha)

/-- **Behind an answer that settles** the counts in the files are those of the managers. -/
theorem perform_synced {before : Bool} (hs : before = true → f.Synced) {op : Op} {a : Answer}
    (hc : f.perform env op = some (f', a)) (ha : a.settles before op = true) : f'.Synced := by
  unfold perform at hc
  cases op with
  | pushUnconfirmed tx forks =>
      obtain ⟨⟨f₁, ec⟩, hp, he⟩ := Option.map_eq_some_iff.mp hc
      cases he
      exact pushUnconfirmed_synced (hs ha) hp
  | push b height =>
      obtain ⟨⟨f₁, ec⟩, hp, he⟩ := Option.map_eq_some_iff.mp hc
      cases he
      obtain ⟨hbefore, hfail⟩ := ec.settles_iff.mp ha
      exact push_synced (hbefore.imp hs id) hfail hp
  | insert b height =>
      obtain ⟨⟨f₁, ec⟩, hp, he⟩ := Option.map_eq_some_iff.mp hc
      cases he
      obtain ⟨hbefore, hfail⟩ := ec.settles_iff.mp ha
      exact insert_synced (hbefore.imp hs id) hfail hp
  | pop =>
      obtain ⟨⟨f₁, out⟩, hp, he⟩ := Option.map_eq_some_iff.mp hc
      cases he
      obtain ⟨b, rfl⟩ := Option.isSome_iff_exists.mp ha
      exact pop_synced hp
  | popAbove forkHash =>
      obtain ⟨⟨f₁, out, ec⟩, hp, he⟩ := Option.map_eq_some_iff.mp hc
      cases he
      exact popAbove_synced hs ha hp

end Files

/-! ## 3. Sessions -/

/-- A step of a session; what stands behind the ends of reopened files is arbitrary. -/
inductive SessionStep where
  | operation (op : Op)
  | reopen (rest : Contents)

/-- The rows a step adds, in the fullest of the tables. -/
def SessionStep.rows : SessionStep → Nat
  | operation (.push b _) | operation (.insert b _) => Files.blockRows b
  | _ => 0

/-- What an operation brings in has the widths of its layout, and a height fits the index. -/
def SessionStep.Fits (env : Env) : SessionStep → Prop
  | operation (.pushUnconfirmed tx _) => tx.Wire env.form
  | operation (.push b height) | operation (.insert b height) =>
    b.Wire env.form.toSizeCodec ∧ (∀ tx ∈ b.transactions, tx.Wire env.form) ∧ height < maxUint32
  | _ => True

/-- The files, and the answers so far. -/
structure Served where
  files : Files
  answers : List Answer

/-- A step on the files. -/
def Served.step (env : Env) (s : Served) : SessionStep → Option Served
  | .operation op => (s.files.perform env op).map fun r => ⟨r.1, s.answers ++ [r.2]⟩
  | .reopen rest => (s.files.reopen rest).map fun files => ⟨files, s.answers⟩

/-- The tables, whether the last answer settles, and the answers so far. -/
structure Tabled where
  db : DataBase
  settled : Bool
  answers : List Answer

/-- A step on the tables. -/
def Tabled.step (t : Tabled) : SessionStep → Tabled
  | .operation op =>
    let r := t.db.perform op
    ⟨r.1, r.2.settles t.settled op, t.answers ++ [r.2]⟩
  | .reopen _ => ⟨t.db.reopen, t.settled, t.answers⟩

/-- **The guard of a step**: a push or a pop meets no gap, the files are reopened where all is
    settled. -/
def Tabled.Allowed (t : Tabled) : SessionStep → Prop
  | .operation (.push ..) | .operation .pop => Files.TopStored t.db.blocks
  | .operation (.popAbove _) => Files.Gapless t.db.blocks
  | .operation _ => True
  | .reopen _ => t.settled = true

instance (t : Tabled) (o : SessionStep) : Decidable (t.Allowed o) :=
  match o with
  | .operation (.push ..) | .operation .pop =>
    inferInstanceAs (Decidable (Files.TopStored t.db.blocks))
  | .operation (.popAbove _) => inferInstanceAs (Decidable (Files.Gapless t.db.blocks))
  | .operation (.pushUnconfirmed ..) | .operation (.insert ..) => .isTrue True.intro
  | .reopen _ => inferInstanceAs (Decidable (t.settled = true))

/-- **The files follow the tables.** -/
structure Follows (env : Env) (s : Served) (t : Tabled) : Prop where
  holds : s.files.Holds env t.db
  synced : t.settled = true → s.files.Synced
  answers_eq : s.answers = t.answers

namespace Files

variable {env : Env} {f f' : Files} {db : DataBase}

/-- **An operation on the files** is that on the tables, and answers the same. -/
theorem Holds.perform (h : f.Holds env db) (hd : env.disk.size ≤ maxObject) (hcore : Core.Typed) {op : Op}
    (hfit : (SessionStep.operation op).Fits env) {settled : Bool} {answers : List Answer}
    (hallowed : Tabled.Allowed ⟨db, settled, answers⟩ (.operation op))
    (hroom : f.rows + (SessionStep.operation op).rows ≤ maxUint32) {a : Answer}
    (hc : f.perform env op = some (f', a)) :
    f'.Holds env (db.perform op).1 ∧ a = (db.perform op).2 ∧
      f'.rows ≤ f.rows + (SessionStep.operation op).rows := by
  unfold Files.perform at hc
  cases op with
  | pushUnconfirmed tx forks =>
      obtain ⟨⟨f₁, ec⟩, hp, he⟩ := Option.map_eq_some_iff.mp hc
      cases he
      obtain ⟨h', hec, hrows⟩ := h.pushUnconfirmed hd hfit hp
      exact ⟨h', congrArg Answer.code hec, hrows.le⟩
  | push b height =>
      obtain ⟨⟨f₁, ec⟩, hp, he⟩ := Option.map_eq_some_iff.mp hc
      cases he
      obtain ⟨hblock, hw, hheight⟩ := hfit
      obtain ⟨h', hec, hrows⟩ := h.push hd hcore hblock hw hheight hallowed hroom hp
      exact ⟨h', congrArg Answer.code hec, hrows⟩
  | insert b height =>
      obtain ⟨⟨f₁, ec⟩, hp, he⟩ := Option.map_eq_some_iff.mp hc
      cases he
      obtain ⟨hblock, hw, hheight⟩ := hfit
      obtain ⟨h', hec, hrows⟩ := h.insert hd hcore hblock hw hheight hroom hp
      exact ⟨h', congrArg Answer.code hec, hrows⟩
  | pop =>
      obtain ⟨⟨f₁, out⟩, hp, he⟩ := Option.map_eq_some_iff.mp hc
      cases he
      obtain ⟨h', hout, hrows⟩ := h.pop hd hallowed hroom hp
      exact ⟨h', congrArg Answer.popped hout, hrows⟩
  | popAbove forkHash =>
      obtain ⟨⟨f₁, out, ec⟩, hp, he⟩ := Option.map_eq_some_iff.mp hc
      cases he
      obtain ⟨h', hout, hrows⟩ := h.popAbove hd hallowed hroom hp
      exact ⟨h', congrArg (fun r : List Block × Option Code => Answer.above r.1 r.2) hout, hrows⟩

end Files

/-- **One step of a session.** -/
theorem Follows.step {env : Env} (hd : env.disk.size ≤ maxObject) (hcore : Core.Typed) {s s' : Served}
    {t : Tabled} (h : Follows env s t) {o : SessionStep} (hfit : o.Fits env) (hallowed : t.Allowed o)
    (hroom : s.files.rows + o.rows ≤ maxUint32) (hc : s.step env o = some s') :
    Follows env s' (t.step o) ∧ s'.files.rows ≤ s.files.rows + o.rows := by
  cases o with
  | operation op =>
      obtain ⟨⟨f, a⟩, hp, rfl⟩ := Option.map_eq_some_iff.mp hc
      obtain ⟨h', ha, hrows⟩ := h.holds.perform hd hcore hfit hallowed hroom hp
      subst ha
      exact ⟨⟨h', fun hs => Files.perform_synced h.synced hp hs,
        congrArg (· ++ _) h.answers_eq⟩, hrows⟩
  | reopen rest =>
      obtain ⟨f, hf, rfl⟩ := Option.map_eq_some_iff.mp hc
      have hlocks := Files.reopen_locks hf
      rw [h.holds.store_eq] at hlocks
      obtain ⟨f₁, hf₁, h', hs', hrows⟩ :=
        h.holds.reopen (h.synced hallowed) hlocks.1 hlocks.2 rest
      cases hf₁.symm.trans hf
      exact ⟨⟨h', fun _ => hs', h.answers_eq⟩, hrows.le⟩

/-! ## 4. What a session answers -/

/-- Four bytes count the buckets of each table. -/
structure Settings.BucketsFit (settings : Settings) : Prop where
  block : settings.blockTableBuckets < Memory.limit 4
  transaction : settings.transactionTableBuckets < Memory.limit 4
  transactionUnconfirmed : settings.transactionUnconfirmedTableBuckets < Memory.limit 4
  spend : settings.spendTableBuckets < Memory.limit 4
  history : settings.historyTableBuckets < Memory.limit 4

/-- **What the readers of the files answer** where the tables are those of a session. -/
structure Files.Serves (env : Env) (f : Files) (t : Tabled) : Prop where
  top : f.blocks.top = t.db.blocks.top
  block : ∀ height, f.blocks.exists? height = (t.db.blocks.at? height).isSome ∧
    ∀ r, t.db.blocks.at? height = some r → ∃ record, f.blocks.get height = some record ∧
      BlocksHold.Reads env record r
  blockByHash : ∀ hash, ∃ found, f.blocks.getByHash env.hashDigest hash = some found ∧
    Option.Rel (BlocksHold.Reads env) found (t.db.blocks.getByHash hash)
  transaction : ∀ txHash forkHeight requireConfirmed, ∃ found,
    f.transactions.find env.hashDigest txHash forkHeight requireConfirmed = some found ∧
      Option.Rel (TransactionsHold.Reads env f.transactions.lookup.bytes) found
        (t.db.transactions.find txHash forkHeight requireConfirmed)
  pool : ∀ txHash, f.transactionsUnconfirmed.get env.form env.hashDigest txHash =
    some ((t.db.transactionsUnconfirmed.get txHash).map fun slab =>
      (slab.height, slab.position, slab.transaction txHash))
  spend : ∀ point, point.index ≤ maxUint32 → f.spends.get env.hashPoint (.of point) =
    some (t.db.spends.spends point).head?
  history : ∀ address limit fromHeight, f.history.get env.hashShort address limit fromHeight =
    some (t.db.history.get address limit fromHeight)
  stealth : ∀ isPrefixOf fromHeight,
    f.stealth.scan isPrefixOf fromHeight = t.db.stealth.scan isPrefixOf fromHeight
  reopens : t.settled = true → ∀ rest, (f.reopen rest).isSome = t.db.store.close.1.open.2

omit [Core] in
/-- The newest spend of an output point. -/
theorem SpendsHold.get_eq {env : Env} {f : SpendFile} {db : SpendDatabase} (h : SpendsHold env f db)
    {point : Point} (hp : point.index ≤ maxUint32) :
    f.get env.hashPoint (.of point) = some (db.spends point).head? := by
  obtain ⟨s, hh, hcodes⟩ := h
  have hs := hcodes (WirePoint.of point)
  rw [WirePoint.of_val hp] at hs
  rw [hh.get_eq, hs, List.head?_map]

omit [Core] in
theorem Follows.serves {env : Env} {s : Served} {t : Tabled} (h : Follows env s t) :
    s.files.Serves env t where
  top := h.holds.blocks.holds.top_eq
  block height := ⟨h.holds.blocks.holds.exists_eq height, fun _ hr => h.holds.blocks.read hr⟩
  blockByHash hash := by
    have hread := h.holds.blocks.readByHash hash
    cases hget : t.db.blocks.getByHash hash with
    | none =>
        rw [hget] at hread
        exact ⟨none, hread, .none⟩
    | some r =>
        rw [hget] at hread
        obtain ⟨record, hrecord, hreads⟩ := hread
        exact ⟨some record, hrecord, .some hreads⟩
  transaction txHash forkHeight requireConfirmed := by
    have hread := h.holds.transactions.read txHash forkHeight requireConfirmed
    cases hf : t.db.transactions.find txHash forkHeight requireConfirmed with
    | none =>
        rw [hf] at hread
        exact ⟨none, hread, .none⟩
    | some slab =>
        rw [hf] at hread
        obtain ⟨a, hfind, hreads, _⟩ := hread
        exact ⟨some a, hfind, .some hreads⟩
  pool := h.holds.transactionsUnconfirmed.get_eq
  spend _ hp := h.holds.spends.get_eq hp
  history address limit fromHeight := by
    rw [h.holds.history.get_eq, ← HistoryFile.select_eq]
    rfl
  stealth := h.holds.stealth.scan_eq
  reopens hs rest := by
    cases hopen : t.db.store.close.1.open.2 with
    | true =>
        have hclose : t.db.store.close.2 = true := by
          unfold Store.close
          split <;> rfl
        obtain ⟨f', hf, _⟩ := h.holds.reopen (h.synced hs) hclose hopen rest
        rw [hf]
        rfl
    | false =>
        cases hf : s.files.reopen rest with
        | none => rfl
        | some f' =>
            have hlocks := (Files.reopen_locks hf).2
            rw [h.holds.store_eq, hopen] at hlocks
            cases hlocks

theorem BlocksHold.create {env : Env} (hd : env.disk.size ≤ maxObject) {buckets : Nat}
    (hb : buckets < Memory.limit 4) {bytes index : Memory} {f : BlockFile}
    (hc : BlockFile.create env.disk buckets bytes index = some f) (stray : BlockResult) :
    BlocksHold env f (.create buckets stray) ∧ f.Synced := by
  have hholds : f.Holds env.form.toSizeCodec env.hashDigest env.disk (.create buckets stray) :=
    BlockFile.holds_of_create hd hb hc (fun _ hm => absurd hm List.not_mem_nil) rfl stray
  obtain ⟨lookup, hl, hc⟩ := Option.bind_eq_some_iff.mp hc
  obtain ⟨size, hsize, rfl⟩ := Option.map_eq_some_iff.mp hc
  obtain ⟨hfit, hlogical⟩ := Disk.resize_eq_some
    (.inr (by decide : 1 < BlockFile.indexPosition 0)) hsize
  refine ⟨⟨hholds, ⟨Nat.le_of_eq hlogical.symm, hfit⟩, fun hash slab hm => ?_, fun height => ?_⟩,
    TableFile.create_synced hl, index.holds_write 0 (Memory.toLE 4 0)⟩
  · rw [BlockDatabase.create_slabs] at hm
    cases hm
  · rw [BlockDatabase.create_at]
    rfl

theorem TransactionsHold.create {env : Env} (hd : env.disk.size ≤ maxObject) {buckets cacheCapacity : Nat}
    (hb : buckets < Memory.limit 4) {bytes : Memory} {f : TransactionFile}
    (hc : TransactionFile.create env.disk buckets cacheCapacity bytes = some f) :
    TransactionsHold env f (.create buckets cacheCapacity) ∧ f.lookup.Synced := by
  have hholds : f.Holds env.form env.hashDigest env.disk (.create buckets cacheCapacity) :=
    TransactionFile.holds_of_create hd hb hc (fun _ hm => absurd hm List.not_mem_nil) rfl
  obtain ⟨lookup, hl, rfl⟩ := Option.map_eq_some_iff.mp hc
  refine ⟨⟨hholds, fun txHash slab hm => ?_⟩, TableFile.create_synced hl⟩
  rw [TransactionDatabase.create_slabs] at hm
  cases hm

theorem SpendsHold.create {env : Env} (hd : env.disk.size ≤ maxObject) {buckets : Nat}
    (hb : buckets < Memory.limit 4) {bytes : Memory} {f : SpendFile}
    (hc : SpendFile.create env.disk buckets bytes = some f) :
    SpendsHold env f (.create buckets) ∧ f.lookup.Synced ∧ f.lookup.count = 0 := by
  have hr : runSome (SpendFile.Call.apply env.hashPoint env.disk) f [] = some f := rfl
  obtain ⟨hholds, hcount⟩ := SpendFile.holds_of_create hd hb hc (Nat.zero_le _) hr
  obtain ⟨lookup, hl, rfl⟩ := Option.map_eq_some_iff.mp hc
  refine ⟨⟨_, hholds, fun point => ?_⟩, TableFile.create_synced hl, Nat.le_zero.mp hcount⟩
  rw [SpendDatabase.create_spends]
  rfl

theorem HistoryFile.create_holds {env : Env} (hd : env.disk.size ≤ maxObject) {buckets : Nat}
    (hb : buckets < Memory.limit 4) {bytes rowsBytes : Memory} {f : HistoryFile}
    (hc : HistoryFile.create env.disk buckets bytes rowsBytes = some f) :
    f.Holds env.hashShort env.disk (HistoryDatabase.create buckets).rows ∧ f.Synced ∧
      f.rowsMultimap.records.count = 0 := by
  have hr : runSome (HistoryFile.Call.apply env.hashShort env.disk) f [] = some f := rfl
  obtain ⟨hholds, hcount⟩ := HistoryFile.holds_of_create hd hb hc
    (fun _ hm => absurd hm List.not_mem_nil) (Nat.zero_le _) hr
  have hrows : (HistoryDatabase.create buckets).rows = fun _ => [] :=
    funext fun key => HistoryDatabase.create_rows buckets key
  refine ⟨hrows ▸ hholds, ?_, Nat.le_zero.mp hcount⟩
  unfold HistoryFile.create at hc
  split at hc
  · rename_i map records hmap hrecords
    cases hc
    exact ⟨TableFile.create_synced hmap, RecordListFile.createFile_synced hrecords⟩
  · cases hc

/-- **Created files** hold the created tables, and their counts are written. -/
theorem Follows.start {env : Env} (hd : env.disk.size ≤ maxObject) {settings : Settings}
    (hb : settings.BucketsFit) {flushes : Bool} {contents : Contents} {f : Files}
    (hc : Files.start env settings flushes contents = some f) (stray : BlockResult) :
    Follows env ⟨f, []⟩ ⟨DataBase.start settings flushes stray, true, []⟩ ∧ f.rows = 0 := by
  obtain ⟨blocks, hblocks, hc⟩ := Option.bind_eq_some_iff.mp hc
  obtain ⟨transactions, htransactions, hc⟩ := Option.bind_eq_some_iff.mp hc
  obtain ⟨pool, hpool, hc⟩ := Option.bind_eq_some_iff.mp hc
  obtain ⟨spends, hspends, hc⟩ := Option.bind_eq_some_iff.mp hc
  obtain ⟨history, hhistory, hc⟩ := Option.bind_eq_some_iff.mp hc
  obtain ⟨stealth, hstealth, rfl⟩ := Option.map_eq_some_iff.mp hc
  obtain ⟨hb₁, hb₂⟩ := BlocksHold.create hd hb.block hblocks stray
  obtain ⟨ht₁, ht₂⟩ := TransactionsHold.create hd hb.transaction htransactions
  obtain ⟨hs₁, hs₂, hs₃⟩ := SpendsHold.create hd hb.spend hspends
  obtain ⟨hh₁, hh₂, hh₃⟩ := HistoryFile.create_holds hd hb.history hhistory
  obtain ⟨hst₁, hst₂⟩ := StealthFile.create_holds hstealth
  refine ⟨⟨⟨rfl, rfl, rfl, hb₁, ht₁, PoolFile.create_holds hd hb.transactionUnconfirmed hpool _, hs₁, hh₁,
    hst₁⟩, fun _ => ⟨hb₂, ht₂, ?_, fun _ => ⟨hs₂, hh₂, ?_⟩⟩, rfl⟩, ?_⟩
  · obtain ⟨lookup, hl, rfl⟩ := Option.map_eq_some_iff.mp hpool
    exact TableFile.create_synced hl
  · obtain ⟨rows, hl, rfl⟩ := Option.map_eq_some_iff.mp hstealth
    exact RecordListFile.createFile_synced hl
  · show max spends.lookup.count (max history.rowsMultimap.records.count stealth.rows.count) = 0
    rw [hs₃, hh₃, hst₂]
    rfl

/-- **A session is served**: behind every sequence of operations and reopenings on created files the
    readers answer for the tables, and every operation has answered as on the tables. -/
theorem session_served {env : Env} (hd : env.disk.size ≤ maxObject) (hcore : Core.Typed)
    {settings : Settings} (hb : settings.BucketsFit) {flushes : Bool} {contents : Contents} {f : Files}
    (hc : Files.start env settings flushes contents = some f) (stray : BlockResult)
    {steps : List SessionStep} (hfit : ∀ o ∈ steps, o.Fits env)
    (hallowed : EveryStep Tabled.step Tabled.Allowed
      ⟨DataBase.start settings flushes stray, true, []⟩ steps)
    (hroom : (steps.map SessionStep.rows).sum ≤ maxUint32) {s : Served}
    (hr : runSome (Served.step env) ⟨f, []⟩ steps = some s) :
    s.files.Serves env (run Tabled.step ⟨DataBase.start settings flushes stray, true, []⟩ steps) ∧
      s.answers = (run Tabled.step ⟨DataBase.start settings flushes stray, true, []⟩ steps).answers := by
  obtain ⟨h₀, hzero⟩ := Follows.start hd hb hc stray
  have hstep (s : Served) (t : Tabled) (o : SessionStep) (s' : Served) (h : Follows env s t)
      (hG : o.Fits env ∧ t.Allowed o) (hroom : s.files.rows + o.rows ≤ maxUint32)
      (hc : s.step env o = some s') :
      Follows env s' (t.step o) ∧ s'.files.rows ≤ s.files.rows + o.rows :=
    h.step hd hcore hG.1 hG.2 hroom hc
  obtain ⟨h, _⟩ := runSome_simulates hstep h₀ (hallowed.and_of_mem hfit)
    (by rw [hzero, Nat.zero_add]; exact hroom) hr
  exact ⟨h.serves, h.answers_eq⟩

def sampleEnv : Env := ⟨.sample, fun _ => 0, fun _ => 0, fun _ => 0, .sample⟩

def sampleContents : Contents :=
  ⟨fun _ => 7, fun _ => 7, fun _ => 7, fun _ => 7, fun _ => 7, fun _ => 7, fun _ => 7, fun _ => 7⟩

/-- Two blocks, the files reopened, the second block popped. -/
def sampleSteps : List SessionStep :=
  [.operation (.push .sampleGenesis 0), .operation (.push DataBase.spendingBlock 1),
    .reopen sampleContents, .operation .pop]

/-- The tables in front of the session. -/
def sampleTabled : Tabled := ⟨@DataBase.start Core.sample .sample true .sampleStray, true, []⟩

omit [Core] in
theorem sampleSpend_wire (hash : HashDigest) (previous : Point) (h : previous.index ≤ maxUint32)
    (n : UInt8) : (Transaction.sampleSpend hash previous n).Wire .sample := by
  have hone : 1 ≤ maxUint32 := by decide
  have hfew : 1 ≤ maxSize := by decide
  refine ⟨⟨⟨Nat.zero_le _, Nat.zero_le _, hone, Nat.zero_le _, hfew, ?_, hfew, ?_⟩, ?_⟩, hone, hone⟩
  · intro o ho
    cases List.mem_singleton.mp ho
    exact ⟨u32_le _, show 50 ≤ maxSize by decide, show 25 ≤ maxSize by decide⟩
  · intro input hi
    cases List.mem_singleton.mp hi
    exact ⟨h, Nat.zero_le _, Nat.le_refl _⟩
  · rw [slabBytes_toSlab]
    show 137 ≤ maxObject
    decide

omit [Core] in
theorem sampleSteps_fit : ∀ o ∈ sampleSteps, o.Fits sampleEnv := by
  have hcoinbase (hash : HashDigest) (n : UInt8) : (Transaction.sampleCoinbase hash n).Wire .sample :=
    sampleSpend_wire hash ⟨nullHash, maxUint32⟩ (Nat.le_refl _) n
  unfold sampleSteps
  refine List.forall_mem_cons.mpr ⟨⟨?_, ?_, by decide⟩, List.forall_mem_cons.mpr ⟨⟨?_, ?_, by decide⟩,
    List.forall_mem_cons.mpr ⟨True.intro, List.forall_mem_cons.mpr ⟨True.intro,
      fun _ h => absurd h List.not_mem_nil⟩⟩⟩⟩
  · exact ⟨⟨by decide, by decide, by decide, by decide⟩, by decide, by decide⟩
  · exact List.forall_mem_cons.mpr ⟨hcoinbase 101 1, fun _ h => absurd h List.not_mem_nil⟩
  · exact ⟨⟨by decide, by decide, by decide, by decide⟩, by decide, by decide⟩
  · exact List.forall_mem_cons.mpr ⟨hcoinbase 201 2, List.forall_mem_cons.mpr
      ⟨sampleSpend_wire 202 ⟨101, 0⟩ (Nat.zero_le _) 1, fun _ h => absurd h List.not_mem_nil⟩⟩

omit [Core] in
theorem sampleCore_typed : @Core.Typed Core.sample := by
  refine @Core.Typed.mk Core.sample (fun point => ?_) fun _ _ h => by cases h
  show point.hash.toNat / 2596148429267413814265248164610048 % 562949953421312 * 32768 +
    point.index % 32768 ≤ 18446744073709551615
  omega

omit [Core] in
theorem sampleSession_served : ∃ f s, @Files.start sampleEnv .sample true sampleContents = some f ∧
    runSome (@Served.step Core.sample sampleEnv) ⟨f, []⟩ sampleSteps = some s ∧
    s.files.Serves sampleEnv (run (@Tabled.step Core.sample) sampleTabled sampleSteps) ∧
    s.answers = (run (@Tabled.step Core.sample) sampleTabled sampleSteps).answers ∧
    s.answers.length = 3 := by
  have hsome : ((Files.start sampleEnv .sample true sampleContents).bind fun f =>
      (runSome (@Served.step Core.sample sampleEnv) ⟨f, []⟩ sampleSteps).bind fun s =>
        if s.answers.length = 3 then some s else none).isSome = true := by decide +kernel
  obtain ⟨_, hsome⟩ := Option.isSome_iff_exists.mp hsome
  obtain ⟨f, hc, hsome⟩ := Option.bind_eq_some_iff.mp hsome
  obtain ⟨s, hr, hsome⟩ := Option.bind_eq_some_iff.mp hsome
  obtain ⟨hlen, _⟩ := Option.ite_none_right_eq_some.mp hsome
  have hallowed : EveryStep (@Tabled.step Core.sample) Tabled.Allowed sampleTabled sampleSteps := by
    decide +kernel
  obtain ⟨hserves, hanswers⟩ := @session_served Core.sample sampleEnv (by decide) sampleCore_typed _
    ⟨by decide, by decide, by decide, by decide, by decide⟩ _ _ _ hc .sampleStray _ sampleSteps_fit
    hallowed (by decide +kernel) _ hr
  exact ⟨f, s, hc, hr, hserves, hanswers, hlen⟩

end Libbitcoin.Database
