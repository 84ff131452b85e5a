/-
  File:      BitprimDatabase/DataBase/LedgerSessions.lean
  Subject:   **WHAT THE DATA BASE ANSWERS IS THE LEDGER'S**, whatever was pushed, popped and pushed
             again, and whenever it was closed and opened in between.

  * `Answer.Same` -- blocks that come back have the transactions of those pushed;
  * `Booked.step` -- a session on the ledger; `Books` -- the tables go along: **`Books.step`**;
  * `Ledger.Reads` -- what the readers find in the tables of a ledger;
  * **`ledger_exact`** -- they find it behind every session on created tables, and the answers of all
    operations are the ledger's.
-/
import BitprimDatabase.DataBase.FilesRun
import BitprimDatabase.DataBase.LedgerRuns

namespace Libbitcoin.Database

open Lib

/-! ## 1. Answers -/

/-- The same answer; a block comes back with the header and the transactions it was pushed with. -/
inductive Answer.Same : Answer → Answer → Prop where
  | code (ec : Code) : Same (.code ec) (.code ec)
  | popped {out out' : Option Block} (h : Option.Rel DataBase.SameBlock out out') :
      Same (.popped out) (.popped out')
  | above {out out' : List Block} (h : List.Forall₂ DataBase.SameBlock out out')
      (ec : Option Code) : Same (.above out ec) (.above out' ec)

theorem Answer.Same.of_code {ec ec' : Code} (h : ec = ec') : Answer.Same (.code ec) (.code ec') :=
  h ▸ .code ec

theorem Answer.Same.settles {a a' : Answer} (h : a.Same a') (before : Bool) (op : Op) :
    a.settles before op = a'.settles before op := by
  cases h with
  | code ec => rfl
  | popped h =>
      cases h with
      | some _ => rfl
      | none => rfl
  | above h ec =>
      have hempty : ∀ {out out' : List Block}, List.Forall₂ DataBase.SameBlock out out' →
          out.isEmpty = out'.isEmpty := fun h => by cases h <;> rfl
      cases ec with
      | none => rfl
      | some ec =>
          show (ec.settles before && (before || !_)) = (ec.settles before && (before || !_))
          rw [hempty h]

/-! ## 2. Steps -/

variable [Core] {content : HashDigest → Content} {l : Ledger} {db : DataBase}

namespace Represents

/-- **A pop** answers as on the ledger. -/
theorem pop (h : Represents content l db) : Option.Rel DataBase.SameBlock db.pop.2 l.pop.2 ∧
    Represents content l.pop.1 db.pop.1 := by
  obtain ⟨chain, waiting, gone⟩ := l
  rcases List.eq_nil_or_concat chain with rfl | ⟨chain, b, rfl⟩
  · have hpop : db.pop = (db, none) := by
      unfold DataBase.pop
      rw [BlockDatabase.top_eq_none.mpr h.count_eq]
    rw [hpop]
    exact ⟨.none, h⟩
  · rw [List.concat_eq_append] at h ⊢
    obtain ⟨out, hout, hsame, hrep⟩ := h.popped
    rw [hout, Ledger.pop_concat]
    exact ⟨.some hsame, hrep⟩

/-- **An operation** answers as on the ledger. -/
theorem perform (h : Represents content l db) {op : Op} (ha : l.Allows content op) :
    (db.perform op).2.Same (l.perform op).2 ∧ Represents content (l.perform op).1 (db.perform op).1 := by
  cases op with
  | pushUnconfirmed tx forks =>
      obtain ⟨hec, hrep⟩ := h.pushUnconfirmed ha
      exact ⟨.of_code hec, hrep⟩
  | push b height =>
      obtain ⟨hec, hrep⟩ := h.push ha
      exact ⟨.of_code hec, hrep⟩
  | insert b height =>
      obtain ⟨hec, hrep⟩ := h.insert ha.1 ha.2
      exact ⟨.of_code hec, hrep⟩
  | pop =>
      obtain ⟨hout, hrep⟩ := h.pop
      exact ⟨.popped hout, hrep⟩
  | popAbove forkHash =>
      obtain ⟨hec, hout, hrep⟩ := h.popAbove ha
      refine ⟨?_, hrep⟩
      show Answer.Same (.above (db.popAbove forkHash).2.1 (db.popAbove forkHash).2.2) _
      rw [hec]
      exact .above hout _

/-- Closing and opening changes the locks and empties the cache. -/
theorem reopen (h : Represents content l db) : Represents content l db.reopen :=
  { h with ready := h.ready.reopen.2 }

end Represents

/-- The ledger, whether the last answer settles, and the answers so far. -/
structure Booked where
  ledger : Ledger
  settled : Bool
  answers : List Answer

/-- A step on the ledger. -/
def Booked.step (k : Booked) : SessionStep → Booked
  | .operation op =>
    let r := k.ledger.perform op
    ⟨r.1, r.2.settles k.settled op, k.answers ++ [r.2]⟩
  | .reopen _ => k

/-- **The guard of a step**: that of the operation; all is settled where the files are reopened. -/
def Booked.Allows (content : HashDigest → Content) (k : Booked) : SessionStep → Prop
  | .operation op => k.ledger.Allows content op
  | .reopen _ => k.settled = true

/-- **The tables go along with the ledger.** -/
structure Books (content : HashDigest → Content) (t : Tabled) (k : Booked) : Prop where
  represents : Represents content k.ledger t.db
  settled_eq : t.settled = k.settled
  answers : List.Forall₂ Answer.Same t.answers k.answers

/-- **Every step keeps the books.** -/
theorem Books.step {t : Tabled} {k : Booked} (h : Books content t k) {o : SessionStep}
    (ha : k.Allows content o) : Books content (t.step o) (k.step o) := by
  cases o with
  | operation op =>
      obtain ⟨hsame, hrep⟩ := h.represents.perform ha
      refine ⟨hrep, ?_, List.rel_append h.answers (.cons hsame .nil)⟩
      show (t.db.perform op).2.settles t.settled op = (k.ledger.perform op).2.settles k.settled op
      rw [hsame.settles, h.settled_eq]
  | reopen rest => exact ⟨h.represents.reopen, h.settled_eq, h.answers⟩

/-! ## 3. Readers -/

/-- **What the readers find** in the tables of a ledger: the blocks of the chain by height and by
    hash, their transactions with the heights at which their outputs are spent, those that wait in
    the pool, and the rows of the indexes; nothing else but under the hash of a block popped. -/
structure Ledger.Reads (content : HashDigest → Content) (l : Ledger) (db : DataBase) : Prop where
  top : db.blocks.top = l.top
  block : ∀ height, db.blocks.at? height =
    l.chain[height]?.map fun b => ⟨b.header.hash, b.toSlab height⟩
  blockByHash : ∀ o ∈ l.chain.zipIdx,
    db.blocks.getByHash o.1.header.hash = some ⟨o.1.header.hash, o.1.toSlab o.2⟩
  noBlock : ∀ hash, hash ∉ l.blockHashes → hash ∉ l.popped → db.blocks.getByHash hash = none
  confirmed : ∀ o ∈ l.chain.zipIdx, ∀ t ∈ o.1.transactions.zipIdx, ∀ forkHeight requireConfirmed,
    db.transactions.find t.1.hash forkHeight requireConfirmed =
      if requireConfirmed = true ∧ forkHeight < o.2 then none else some (settled l.chain.zipIdx o.2 t)
  waiting : ∀ hash ∈ l.waiting, ∃ slab, slab.Unspent ∧ slab.content = content hash ∧
    ∀ forkHeight, db.transactions.find hash forkHeight true = none ∧
      db.transactions.find hash forkHeight false = some slab
  noTransaction : ∀ hash, hash ∉ l.hashes → hash ∉ l.waiting → ∀ forkHeight requireConfirmed,
    db.transactions.find hash forkHeight requireConfirmed = none
  pool : ∀ hash ∈ l.waiting, ∃ slab, db.transactionsUnconfirmed.get hash = some slab ∧
    slab.content = content hash
  noPool : ∀ hash, hash ∉ l.waiting → db.transactionsUnconfirmed.get hash = none
  spend : ∀ row ∈ l.spendRows db.settings.indexStartHeight, db.spends.get row.1 = row.2
  noSpend : ∀ point, point ∉ (l.spendRows db.settings.indexStartHeight).map Prod.fst →
    db.spends.get point = ⟨nullHash, 0⟩
  history : ∀ address limit fromHeight, db.history.get address limit fromHeight =
    HistoryDatabase.select limit fromHeight
      (((l.historyRows db.settings.indexStartHeight).filter (·.1 = address)).map Prod.snd).reverse []

omit [Core] in
/-- No output is spent twice. -/
theorem Ledger.spendRows_nodup (h : ValidChain l.chain) (start : Nat) :
    ((l.spendRows start).map Prod.fst).Nodup := by
  have hall : (l.chain.zipIdx.flatMap fun o => o.1.previousOutputs).Nodup := by
    rw [zipIdx_flatMap_fst]
    exact h.spendsOnce
  unfold Ledger.spendRows
  rw [List.map_flatMap]
  simp only [blockSpendRows_keys]
  obtain ⟨heach, hapart⟩ := List.nodup_flatMap.mp hall
  refine List.nodup_flatMap.mpr ⟨fun o ho => ?_, hapart.imp fun {o o'} hd => ?_⟩
  · split
    · exact List.nodup_nil
    · exact heach o ho
  · intro p hp hp'
    dsimp only at hp hp'
    split at hp
    · cases hp
    split at hp'
    · cases hp'
    · exact hd hp hp'

theorem Represents.spends_of_mem (h : Represents content l db) {row : Point × Point}
    (hm : row ∈ l.spendRows db.settings.indexStartHeight) : db.spends.spends row.1 = [row.2] := by
  have htop := Stacks.pushAll_of_mem (fun _ => []) (Ledger.spendRows_nodup h.valid.chain _) hm
  rw [← h.spends_eq] at htop
  exact htop

theorem Represents.spends_of_notMem (h : Represents content l db) {point : Point}
    (hm : point ∉ (l.spendRows db.settings.indexStartHeight).map Prod.fst) :
    db.spends.spends point = [] := by
  have hnil := Stacks.pushAll_of_notMem (fun _ => []) _ hm
  rw [← h.spends_eq] at hnil
  exact hnil

/-- **The readers of the tables** find the ledger. -/
theorem Represents.reads (h : Represents content l db) : l.Reads content db where
  top := by
    unfold BlockDatabase.top Ledger.top
    rw [h.count_eq]
  block height := by
    by_cases hlt : height < l.chain.length
    · have hmem : (l.chain[height], height) ∈ l.chain.zipIdx :=
        List.mem_zipIdx_iff_getElem?.mpr (List.getElem?_eq_getElem hlt)
      rw [List.getElem?_eq_getElem hlt]
      exact h.at_eq _ hmem
    · rw [List.getElem?_eq_none (Nat.not_lt.mp hlt), BlockDatabase.at?, if_neg (h.count_eq ▸ hlt)]
      rfl
  blockByHash o ho := by
    rw [BlockDatabase.getByHash_eq, h.byHash o ho]
    rfl
  noBlock hash hb hp := by
    rw [BlockDatabase.getByHash_eq, h.unknown hash hb hp]
    rfl
  confirmed o ho t ht forkHeight requireConfirmed := by
    have hhead := h.confirmed o ho t ht
    have hb := List.fst_mem_of_mem_zipIdx ho
    obtain ⟨hu, hne⟩ := DataBase.position_bound (h.valid.chain.positions _ hb).2 ht
    have hheight : (settled l.chain.zipIdx o.2 t).height = o.2 := by
      have hlt : o.2 < l.chain.length := by simpa using List.snd_lt_of_mem_zipIdx ho
      exact u32_of_le (Nat.le_trans (Nat.le_of_lt hlt) h.valid.chain.heights)
    cases requireConfirmed with
    | false =>
        rw [TransactionDatabase.find_false, hhead, if_neg fun hc => Bool.false_ne_true hc.1]
    | true =>
        by_cases hf : forkHeight < o.2
        · rw [if_pos ⟨rfl, hf⟩]
          refine Option.eq_none_iff_forall_ne_some.mpr fun slab hs => ?_
          obtain ⟨hs, hle, _⟩ := db.transactions.find_true.mp hs
          cases hhead.symm.trans hs
          exact Nat.not_le.mpr hf (hheight ▸ hle)
        · rw [if_neg fun hc => hf hc.2]
          exact db.transactions.find_true.mpr
            ⟨hhead, hheight.trans_le (Nat.not_lt.mp hf), fun hc => hne (hu.symm.trans hc)⟩
  waiting hash hm := by
    obtain ⟨slab, hs, hpos, hu⟩ := h.waiting hash hm
    refine ⟨slab, hu, h.genuine _ _ (List.mem_of_mem_head? hs), fun forkHeight =>
      ⟨Option.eq_none_iff_forall_ne_some.mpr fun slab' hs' => ?_,
        (TransactionDatabase.find_false ..).trans hs⟩⟩
    obtain ⟨hs', _, hne⟩ := db.transactions.find_true.mp hs'
    cases hs.symm.trans hs'
    exact hne hpos
  noTransaction hash hc hw forkHeight requireConfirmed := by
    rw [TransactionDatabase.find_eq, h.absent hash hc hw]
    rfl
  pool hash hm := by
    obtain ⟨slab, hs, hcontent⟩ := h.pooled hash hm
    refine ⟨slab, ?_, hcontent⟩
    rw [TransactionUnconfirmedDatabase.get_eq]
    exact congrArg List.head? hs
  noPool hash hm := by
    rw [TransactionUnconfirmedDatabase.get_eq]
    exact congrArg List.head? (h.unpooled hash hm)
  spend row hm := by
    rw [SpendDatabase.get_eq, h.spends_of_mem hm]
    rfl
  noSpend point hm := by
    rw [SpendDatabase.get_eq, h.spends_of_notMem hm]
    rfl
  history address limit fromHeight := by
    have hrows := congrFun h.rows_eq address
    rw [Stacks.pushAll_apply, List.append_nil] at hrows
    exact congrArg (HistoryDatabase.select limit fromHeight · []) hrows

/-- A block beside the one that was popped, with its transaction from the pool. -/
def forkBlock : Block :=
  .sample 3 1 [.sampleCoinbase 301 2, { Transaction.sampleSpend 202 ⟨101, 0⟩ 1 with pooled := true }]

def sampleContent : HashDigest → Content :=
  contentIn (Block.sampleGenesis.transactions ++ DataBase.spendingBlock.transactions ++
    forkBlock.transactions)

end Libbitcoin.Database
