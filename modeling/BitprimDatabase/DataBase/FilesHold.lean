/-
  File:      BitprimDatabase/DataBase/FilesHold.lean
  Subject:   **THE FILES HOLD THE DATA BASE**: the relation between the bytes of Files.lean and the
             tables of DataBase.lean, kept by the writers of blocks and transactions.

  * `BlocksHold`, `TransactionsHold`, `SpendsHold` -- a database on its files, with what its readers
    need: **`BlocksHold.read`**, **`TransactionsHold.read`**;
  * `Holds` -- every database holds its table; `rows` -- the fullest of the counters of four bytes;
  * **`Holds.pushTransactions`**, `Holds.writeBlock`, `Holds.push`, … -- what a writer does to the bytes
    it does to the tables, and it answers the same.

  An operation brings in transactions that have the widths of their layouts.
-/
import BitprimDatabase.DataBase.Files

namespace Libbitcoin.Database

open Lib

/-! ## 1. Widths -/

/-- The transaction has the widths of its layout, and four bytes count its outputs and inputs. -/
structure Transaction.Wire (form : StoreForm) (tx : Transaction) : Prop where
  slab : TransactionOp.Wire form (.store tx 0 0)
  outputCount : tx.outputs.length ≤ maxUint32
  inputCount : tx.inputs.length ≤ maxUint32

/-- What the core library returns has the types of the source. -/
structure Core.Typed [Core] : Prop where
  checksum : ∀ point, Core.checksum point ≤ maxSize
  stealthPrefix : ∀ script stealthPrefix, Core.stealthPrefix script = some stealthPrefix →
    stealthPrefix ≤ maxUint32

/-- The records an operation adds for a transaction, in the fullest of the tables. -/
def Transaction.rows (tx : Transaction) : Nat := tx.inputs.length + 2 * tx.outputs.length

/-- A transaction may be stored at any height and position. -/
theorem Transaction.Wire.store {form : StoreForm} {tx : Transaction} (h : tx.Wire form)
    (height position : Nat) : TransactionOp.Wire form (.store tx height position) := by
  have hconfirm : tx.toSlab height position = (tx.toSlab 0 0).confirm height position := rfl
  have hlen : (slabBytes form (tx.toSlab height position)).length =
      (slabBytes form (tx.toSlab 0 0)).length := by
    rw [slabBytes_toSlab, slabBytes_toSlab]
    simp only [List.length_append, Memory.length_toLE]
  refine ⟨hconfirm ▸ h.slab.1.confirm height position, ?_⟩
  rw [hlen]
  exact h.slab.2

theorem Transaction.Wire.input {form : StoreForm} {tx : Transaction} (h : tx.Wire form) :
    ∀ input ∈ tx.inputs, input.Wire := h.slab.1.inputs

/-- The value of an output fits eight bytes. -/
theorem Transaction.Wire.value {form : StoreForm} {tx : Transaction} (h : tx.Wire form) :
    ∀ output ∈ tx.outputs, output.value ≤ maxSize := fun output ho =>
  (h.slab.1.outputs output.toStore (List.mem_map_of_mem ho)).value

theorem WirePoint.of_val {point : Point} (h : point.index ≤ maxUint32) : (of point).val = point := by
  show (⟨point.hash, u32 point.index⟩ : Point) = point
  rw [u32_of_le h]

/-! ## 2. The databases on their files -/

section Databases

variable {env : Env}

/-- **The block files hold the blocks**, every record as wide as its layout. -/
structure BlocksHold (env : Env) (f : BlockFile) (db : BlockDatabase) : Prop where
  holds : f.Holds env.form.toSizeCodec env.hashDigest env.disk db
  indexed : f.Indexed env.disk
  wire : ∀ hash, ∀ slab ∈ db.slabs hash, slab.header.Wire ∧ slab.hashes.length ≤ maxSize
  exists_eq : ∀ height, db.exists? height = (db.at? height).isSome

namespace BlocksHold

variable {f f' : BlockFile} {db : BlockDatabase}

theorem store (h : BlocksHold env f db) (hd : env.disk.size ≤ maxObject) {b : Block}
    (hw : b.Wire env.form.toSizeCodec) {height : Nat} (hheight : height < maxUint32)
    (hs : f.store env.form.toSizeCodec env.hashDigest env.disk b height = some f') :
    BlocksHold env f' (db.store b height) := by
  refine ⟨(h.holds.store hd hw hheight hs).1, h.indexed.store hs, fun hash slab hm => ?_,
    fun k => ?_⟩
  · rw [db.store_slabs] at hm
    rcases Stacks.mem_of_mem_push hm with ⟨_, rfl⟩ | hm
    · exact ⟨hw.header, (List.length_map _).trans_le hw.count⟩
    · exact h.wire hash slab hm
  · rw [db.store_exists b hheight, db.store_at b hheight, h.exists_eq k]
    by_cases hk : k = height
    · rw [if_pos hk, decide_eq_true hk]
      rfl
    · rw [if_neg hk, decide_eq_false hk, Bool.false_or]

theorem unlink (h : BlocksHold env f db) (fromHeight : Nat) :
    BlocksHold env (f.unlink fromHeight).1 (db.unlink fromHeight).1 ∧
      (f.unlink fromHeight).2 = (db.unlink fromHeight).2 := by
  obtain ⟨hholds, hanswer⟩ := h.holds.unlink fromHeight
  refine ⟨⟨hholds, h.indexed.unlink fromHeight, fun hash slab hm => ?_, fun k => ?_⟩, hanswer⟩
  · rw [db.unlink_slabs] at hm
    exact h.wire hash slab hm
  · rw [db.unlink_exists, db.unlink_at, h.exists_eq k]
    by_cases hk : k < fromHeight
    · rw [if_pos hk, decide_eq_true hk, Bool.true_and]
    · rw [if_neg hk, decide_eq_false hk]
      rfl

theorem synchronize (h : BlocksHold env f db) : BlocksHold env f.synchronize db :=
  ⟨h.holds.synchronize, ⟨h.indexed.le, h.indexed.fits⟩, h.wire, h.exists_eq⟩

theorem reopen (h : BlocksHold env f db) (hs : f.Synced) (rest restIndex : Memory) :
    ∃ f', f.reopen rest restIndex = some f' ∧ BlocksHold env f' db ∧ f'.Synced := by
  obtain ⟨f', hf, h', hi, hs'⟩ := h.holds.reopen h.indexed hs rest restIndex
  exact ⟨f', hf, ⟨h', hi, h.wire, h.exists_eq⟩, hs'⟩

/-- What the readers of a record answer. -/
structure Reads (env : Env) (record : BlockRecord) (r : BlockResult) : Prop where
  header : record.header = r.header
  height : record.height = r.height
  hashes : Files.recordHashes env record = r.slab.hashes.zipIdx

/-- **Where the record of a slab stands** its readers answer for it. -/
theorem reads_of_holds {m : Memory} {a : Nat} {r : BlockResult}
    (hw : r.slab.header.Wire ∧ r.slab.hashes.length ≤ maxSize)
    (h : m.Holds a (BlockFile.slabRecord env.form.toSizeCodec r.slab)) : Reads env ⟨m, a, r.hash⟩ r := by
  obtain ⟨hheader, h⟩ := Memory.holds_append.mp h
  obtain ⟨hword, h⟩ := Memory.holds_append.mp h
  obtain ⟨hcount, hhashes⟩ := Memory.holds_append.mp h
  rw [length_headerBytes] at hword hcount hhashes
  rw [Memory.length_toLE] at hcount hhashes
  have hcodec := env.form.reads _ hw.2 m _ hcount
  refine ⟨readHeader_of_holds hw.1 hheader r.hash, hword.word (Nat.lt_succ_of_le r.slab.height_le), ?_⟩
  have hlen : (BlockRecord.transactionCount env.form.toSizeCodec ⟨m, a, r.hash⟩) =
      r.slab.hashes.length := congrArg Prod.fst hcodec
  unfold Files.recordHashes
  rw [hlen]
  refine List.ext_getElem (by simp) fun i hi hi' => ?_
  have hlt : i < r.slab.hashes.length := by simpa using hi
  rw [List.getElem_map, List.getElem_range, List.getElem_zipIdx, Nat.zero_add]
  refine Prod.ext ?_ rfl
  show readHash m ((env.form.read m (a + headerSize + 4)).2 + i * 32) = _
  rw [hcodec]
  exact readHash_of_holds (hhashes.getElem (fun _ => length_hashBytes _) hlt)

/-- The record at a height with a block. -/
theorem read (h : BlocksHold env f db) {height : Nat} {r : BlockResult}
    (hr : db.at? height = some r) : ∃ record, f.get height = some record ∧ Reads env record r := by
  obtain ⟨a, hget, hm⟩ := h.holds.get_eq hr
  refine ⟨_, hget, reads_of_holds (h.wire r.hash r.slab ?_) hm⟩
  unfold BlockDatabase.at? at hr
  obtain ⟨_, hr⟩ := Option.ite_none_right_eq_some.mp hr
  obtain ⟨row, hrow, rfl⟩ := Option.map_eq_some_iff.mp hr
  exact db.row_linked _ row hrow

/-- A block can be read back. -/
theorem reserves [Core] (h : BlocksHold env f db) {height : Nat} {r : BlockResult}
    (hr : db.at? height = some r) (count : Nat) : f.reserves height count = true := by
  unfold BlockFile.reserves
  rw [bne_iff_ne.mpr (h.holds.readPosition_ne hr), Bool.true_or]

/-- The record of a hash, where there is one. -/
theorem readByHash (h : BlocksHold env f db) (hash : HashDigest) : match db.getByHash hash with
    | none => f.getByHash env.hashDigest hash = some none
    | some r => ∃ record, f.getByHash env.hashDigest hash = some (some record) ∧
        Reads env record r := by
  rw [db.getByHash_eq]
  cases hs : (db.slabs hash).head? with
  | none =>
      obtain ⟨t, s', ht, hc, _⟩ := h.holds.slabs
      show f.getByHash env.hashDigest hash = some none
      unfold BlockFile.getByHash
      rw [ht.absent (hc.eq_nil.mpr (List.head?_eq_none_iff.mp hs)) (Nat.lt_succ_self _)]
      rfl
  | some slab =>
      obtain ⟨a, hget, hm⟩ := h.holds.getByHash_eq hs
      have hw := h.wire hash slab (List.mem_of_mem_head? hs)
      exact ⟨_, hget, reads_of_holds (r := ⟨hash, slab⟩) hw hm⟩

end BlocksHold

/-- **The transaction file holds the slabs**, four bytes count the outputs of each. -/
structure TransactionsHold (env : Env) (f : TransactionFile) (db : TransactionDatabase) : Prop where
  holds : f.Holds env.form env.hashDigest env.disk db
  outputs : ∀ txHash, ∀ slab ∈ db.slabs txHash, slab.outputs.length ≤ maxUint32

namespace TransactionsHold

variable {f f' : TransactionFile} {db : TransactionDatabase}

theorem synchronize (h : TransactionsHold env f db) : TransactionsHold env f.synchronize db :=
  ⟨h.holds.synchronize, h.outputs⟩

/-- An edit of a top that keeps the number of outputs. -/
theorem outputs_modifyTop (h : TransactionsHold env f db) (hash : HashDigest)
    {g : TransactionSlab → TransactionSlab}
    (hg : ∀ slab, (g slab).outputs.length = slab.outputs.length) :
    ∀ txHash, ∀ slab ∈ db.slabs.modifyTop hash g txHash, slab.outputs.length ≤ maxUint32 := by
  intro txHash slab hm
  rcases Stacks.mem_of_mem_modifyTop hm with ⟨rfl, top, ht, rfl⟩ | hm
  · rw [hg]
    exact h.outputs txHash top (List.mem_of_mem_head? ht)
  · exact h.outputs txHash slab hm

theorem store [Core] (h : TransactionsHold env f db) (hd : env.disk.size ≤ maxObject) {tx : Transaction}
    (hw : tx.Wire env.form) {height position : Nat}
    (hs : f.store env.form env.hashDigest env.disk tx height position = some f') :
    TransactionsHold env f' (db.store tx height position) := by
  refine ⟨h.holds.store hd (hw.store height position) hs, fun txHash slab hm => ?_⟩
  rw [db.store_slabs] at hm
  split at hm
  · exact h.outputs_modifyTop tx.hash (g := TransactionSlab.confirm height position) (fun _ => rfl)
      txHash slab hm
  · rcases Stacks.mem_of_mem_push hm with ⟨_, rfl⟩ | hm
    · exact (List.length_map _).trans_le hw.outputCount
    · exact h.outputs txHash slab hm

theorem spend (h : TransactionsHold env f db) (point : Point) (spenderHeight : Nat) : ∃ f',
    f.spend env.form env.hashDigest point spenderHeight =
      some (f', (db.spend point spenderHeight).2) ∧
    TransactionsHold env f' (db.spend point spenderHeight).1 := by
  obtain ⟨f', hf, h'⟩ := h.holds.spend point spenderHeight
  refine ⟨f', hf, h', fun txHash slab hm => ?_⟩
  rw [db.spend_slabs] at hm
  split at hm
  · exact h.outputs_modifyTop point.hash (fun _ => List.length_modify ..) txHash slab hm
  · exact h.outputs txHash slab hm

theorem unconfirm [Core] (h : TransactionsHold env f db) (txHash : HashDigest) : ∃ f',
    f.unconfirm env.hashDigest txHash = some (f', (db.unconfirm txHash).2) ∧
    TransactionsHold env f' (db.unconfirm txHash).1 := by
  obtain ⟨f', hf, h'⟩ := h.holds.confirm txHash Core.unverified unconfirmed
  refine ⟨f', hf, h', fun hash slab hm => ?_⟩
  have hm : slab ∈ (db.confirm txHash Core.unverified unconfirmed).1.slabs hash := hm
  rw [db.confirm_slabs] at hm
  exact h.outputs_modifyTop txHash (g := TransactionSlab.confirm Core.unverified unconfirmed)
    (fun _ => rfl) hash slab hm

theorem reopen (h : TransactionsHold env f db) (hs : f.lookup.Synced) (cacheCapacity : Nat)
    (rest : Memory) : ∃ f', f.reopen cacheCapacity rest = some f' ∧
      TransactionsHold env f' { db with cache := UnspentOutputs.create cacheCapacity } ∧
        f'.lookup.Synced := by
  obtain ⟨f', hf, h', hs'⟩ := h.holds.reopen hs cacheCapacity rest
  exact ⟨f', hf, ⟨h', h.outputs⟩, hs'⟩

/-- What the readers of a slab answer. -/
structure Reads (env : Env) (m : Memory) (a : Nat) (slab : TransactionSlab) : Prop where
  height : TransactionResult.height m a = slab.height
  position : TransactionResult.position m a = slab.position
  output : ∀ index, TransactionResult.output env.form m a index = slab.output index
  transaction : ∀ hash, TransactionResult.transaction env.form m a hash = slab.transaction hash
  isSpent : ∀ forkHeight, TransactionResult.isSpent env.form m a
    ((env.form.read m (a + 4 + 4 + (4 + 4))).1 + 1) forkHeight = some (slab.isSpent forkHeight)

/-- **`find`** answers where the table does, with the slab at the address. -/
theorem read (h : TransactionsHold env f db) (txHash : HashDigest) (forkHeight : Nat)
    (requireConfirmed : Bool) : match db.find txHash forkHeight requireConfirmed with
      | none => f.find env.hashDigest txHash forkHeight requireConfirmed = some none
      | some slab => ∃ a, f.find env.hashDigest txHash forkHeight requireConfirmed = some (some a) ∧
          Reads env f.lookup.bytes a slab ∧ Laid env.form f.lookup.bytes a slab := by
  have hfind := h.holds.find_eq txHash forkHeight requireConfirmed
  cases hf : db.find txHash forkHeight requireConfirmed with
  | none =>
      rw [hf] at hfind
      exact hfind
  | some slab =>
      rw [hf] at hfind
      obtain ⟨hs, a, ha, hfa⟩ := hfind
      have hlaid := ha.laid
      refine ⟨a, hfa, ⟨hlaid.height_eq, hlaid.position_eq, hlaid.output_eq, hlaid.transaction_eq,
        fun forkHeight => ?_⟩, hlaid⟩
      have hcount := hlaid.parts.2.2.2.2.1
      rw [show a + 4 + 4 + (4 + 4) = a + 16 by omega, hcount]
      exact hlaid.isSpent_eq (.inl (h.outputs txHash slab (List.mem_of_mem_head? hs)))
        (Nat.lt_succ_self _)

end TransactionsHold

/-- **The spend file holds the spends**, all of them between points with an index of four bytes. -/
def SpendsHold (env : Env) (f : SpendFile) (db : SpendDatabase) : Prop :=
  ∃ s, f.Holds env.hashPoint env.disk s ∧ Stacks.Codes Subtype.val Subtype.val s db.spends

namespace SpendsHold

variable {f f' : SpendFile} {db : SpendDatabase}

theorem apply [Core] (h : SpendsHold env f db) (hd : env.disk.size ≤ maxObject) {c : SpendFile.Call}
    (hroom : f.lookup.count + c.records ≤ maxUint32)
    (hc : c.apply env.hashPoint env.disk f = some f') :
    SpendsHold env f' (c.applyDatabase db) ∧ f'.lookup.count ≤ f.lookup.count + c.records := by
  obtain ⟨s, hh, hcodes⟩ := h
  obtain ⟨h', hcount⟩ := hh.apply hd hroom hc
  exact ⟨⟨_, h', SpendFile.codes_applyDatabase hcodes c⟩, hcount⟩

/-- The newest spend of an output point is removed, where there is one. -/
theorem unlink [Core] (h : SpendsHold env f db) (hd : env.disk.size ≤ maxObject) {point : Point}
    (hp : point.index ≤ maxUint32) (hroom : f.lookup.count ≤ maxUint32) : ∃ f' r,
    f.unlink env.hashPoint (.of point) = some (f', r) ∧ SpendsHold env f' (db.unlink point).1 ∧
      f'.lookup.count ≤ f.lookup.count := by
  have hreturns : ∃ f' r, f.unlink env.hashPoint (.of point) = some (f', r) := by
    obtain ⟨s, hh, _⟩ := h
    by_cases hs : s (.of point) = []
    · exact ⟨f, false, hh.unlink_absent hs⟩
    · obtain ⟨f', hf⟩ := hh.unlink_present hs
      exact ⟨f', true, hf⟩
  obtain ⟨f', r, hf⟩ := hreturns
  have hc : (SpendFile.Call.unlink (.of point)).apply env.hashPoint env.disk f = some f' := by
    show (f.unlink env.hashPoint (.of point)).map Prod.fst = _
    rw [hf]
    rfl
  obtain ⟨h', hcount⟩ := h.apply (c := .unlink (.of point)) hd hroom hc
  have h' : SpendsHold env f' (db.unlink (WirePoint.of point).val).1 := h'
  rw [WirePoint.of_val hp] at h'
  exact ⟨f', r, hf, h', hcount⟩

end SpendsHold

end Databases

/-! ## 3. The data base on its files -/

namespace Files

/-- The fullest of the counters of four bytes that grow with the rows of the indexes. -/
def rows (f : Files) : Nat :=
  max f.spends.lookup.count (max f.history.rowsMultimap.records.count f.stealth.rows.count)

/-- **The files hold the data base.** -/
structure Holds (env : Env) (f : Files) (db : DataBase) : Prop where
  settings_eq : f.settings = db.settings
  flushes_eq : f.flushes = db.flushes
  store_eq : f.store = db.store
  blocks : BlocksHold env f.blocks db.blocks
  transactions : TransactionsHold env f.transactions db.transactions
  transactionsUnconfirmed : f.transactionsUnconfirmed.Holds env.form env.hashDigest env.disk
    db.transactionsUnconfirmed
  spends : SpendsHold env f.spends db.spends
  history : f.history.Holds env.hashShort env.disk db.history.rows
  stealth : f.stealth.Holds env.disk db.stealth

variable {env : Env} {f f' : Files} {db : DataBase}

theorem Holds.synchronize (h : f.Holds env db) : f.synchronize.Holds env db ∧
    f.synchronize.rows = f.rows := by
  unfold Files.synchronize
  split
  · refine ⟨?_, rfl⟩
    obtain ⟨s, hs, hcodes⟩ := h.spends
    exact
      { h with
        blocks := h.blocks.synchronize
        transactions := h.transactions.synchronize
        transactionsUnconfirmed := h.transactionsUnconfirmed.synchronize
        spends := ⟨s, hs.synchronize, hcodes⟩
        history := h.history.synchronize
        stealth := h.stealth.synchronize }
  · refine ⟨?_, rfl⟩
    exact
      { h with
        blocks := h.blocks.synchronize
        transactions := h.transactions.synchronize
        transactionsUnconfirmed := h.transactionsUnconfirmed.synchronize }

/-! ### Verification -/

/-- The top is no gap. -/
def TopStored (blocks : BlockDatabase) : Prop :=
  ∀ height, blocks.top = some height → (blocks.at? height).isSome

instance (blocks : BlockDatabase) : Decidable (TopStored blocks) :=
  match h : blocks.top with
  | none => .isTrue fun height ht => by rw [h] at ht; cases ht
  | some height =>
    decidable_of_iff ((blocks.at? height).isSome = true)
      ⟨fun hs k hk => by rw [h] at hk; cases hk; exact hs, fun hs => hs height h⟩

theorem Holds.getNextHeight_eq (h : f.Holds env db) :
    getNextHeight f.blocks = DataBase.getNextHeight db.blocks := by
  have htop := h.blocks.holds.top_eq
  unfold getNextHeight DataBase.getNextHeight
  cases ht : db.blocks.top <;> simp [htop, ht]

/-- The hash below the next height is that of the top. -/
theorem Holds.getPreviousHash_eq (h : f.Holds env db) (htop : TopStored db.blocks) {height : Nat}
    (hnext : DataBase.getNextHeight db.blocks = height) :
    getPreviousHash f.blocks height = DataBase.getPreviousHash db.blocks height := by
  unfold getPreviousHash DataBase.getPreviousHash
  by_cases hzero : height = 0
  · rw [if_pos hzero, if_pos hzero]
  · rw [if_neg hzero, if_neg hzero]
    have hsome : db.blocks.top = some (height - 1) := by
      unfold DataBase.getNextHeight at hnext
      split at hnext
      · exact absurd hnext.symm hzero
      · rename_i top htop
        rw [htop, ← hnext]
        rfl
    obtain ⟨r, hr⟩ := Option.isSome_iff_exists.mp (htop _ hsome)
    obtain ⟨record, hget, hreads⟩ := h.blocks.read hr
    rw [hget, BlockDatabase.get_of_at hr]
    exact congrArg Header.hash hreads.header

theorem Holds.verifyInsert_eq (h : f.Holds env db) (b : Block) (height : Nat) :
    f.verifyInsert b height = db.verifyInsert b height := by
  unfold Files.verifyInsert DataBase.verifyInsert
  rw [h.blocks.holds.exists_eq, h.blocks.exists_eq]

theorem Holds.verifyPush_eq (h : f.Holds env db) (htop : TopStored db.blocks) (b : Block)
    (height : Nat) : f.verifyPush b height = db.verifyPush b height := by
  unfold Files.verifyPush DataBase.verifyPush
  rw [h.getNextHeight_eq]
  by_cases hnext : DataBase.getNextHeight db.blocks = height
  · rw [h.getPreviousHash_eq htop hnext]
  · rw [if_pos hnext, if_pos hnext]

theorem Holds.verifyPushTransaction_eq (h : f.Holds env db) (tx : Transaction) :
    f.verifyPushTransaction env tx = some (db.verifyPushTransaction tx) := by
  unfold Files.verifyPushTransaction DataBase.verifyPushTransaction TransactionDatabase.get
  have hread := h.transactions.read tx.hash maxSize false
  cases hf : db.transactions.find tx.hash maxSize false with
  | none =>
      rw [hf] at hread
      rw [show f.transactions.find env.hashDigest tx.hash maxSize false = some none from hread]
  | some slab =>
      rw [hf] at hread
      obtain ⟨a, hfind, hreads, _⟩ := hread
      rw [hfind]
      dsimp only
      rw [hreads.isSpent maxSize]
      rfl

variable [Core]

/-! ### Pushing transactions -/

section Push

variable (hd : env.disk.size ≤ maxObject)
include hd

/-- **One input**: its spend, and the history row of its address. -/
theorem Holds.pushInput (h : f.Holds env db) (hcore : Core.Typed) {txHash : HashDigest} {height : Nat}
    {input : Input × Nat} (hin : input.1.previousOutput.index ≤ maxUint32 ∧ input.2 ≤ maxUint32)
    (hroom : f.rows + 1 ≤ maxUint32) (hc : pushInput env txHash height f input = some f') :
    f'.Holds env (DataBase.pushInput txHash height db input) ∧ f'.rows ≤ f.rows + 1 := by
  unfold rows at hroom ⊢
  unfold Files.pushInput at hc
  dsimp only at hc
  obtain ⟨spends, hs, hc⟩ := Option.bind_eq_some_iff.mp hc
  have hcall : (SpendFile.Call.store (.of input.1.previousOutput) (.of ⟨txHash, input.2⟩)).apply
      env.hashPoint env.disk f.spends = some spends := hs
  obtain ⟨hspends, hcount⟩ := h.spends.apply hd (by show _ + 1 ≤ _; omega) hcall
  have hcount : spends.lookup.count ≤ f.spends.lookup.count + 1 := hcount
  have hspends : SpendsHold env spends (db.spends.store (WirePoint.of input.1.previousOutput).val
    (WirePoint.of ⟨txHash, input.2⟩).val) := hspends
  rw [WirePoint.of_val hin.1, WirePoint.of_val hin.2] at hspends
  unfold DataBase.pushInput
  dsimp only
  cases ha : Core.address input.1.script with
  | none =>
      rw [ha] at hc
      cases hc
      refine ⟨{ h with spends := hspends }, ?_⟩
      dsimp only
      omega
  | some address =>
      rw [ha] at hc
      obtain ⟨history, hh, rfl⟩ := Option.map_eq_some_iff.mp hc
      obtain ⟨g, hg, rfl⟩ := Option.map_eq_some_iff.mp hh
      have hfit : (HistoryDatabase.inputRow ⟨txHash, input.2⟩ height
        input.1.previousOutput).Fits := ⟨hin.2, u32_le _, hcore.checksum _⟩
      obtain ⟨hhistory, hrows⟩ := h.history.addRow hd (by omega) hfit hg
      refine ⟨{ h with spends := hspends, history := ?_ }, ?_⟩
      · rw [HistoryDatabase.addInput_rows]
        exact hhistory
      · dsimp only
        omega

/-- **One output**: the history row of its address. -/
theorem Holds.pushOutput (h : f.Holds env db) {txHash : HashDigest} {height : Nat}
    {output : Output × Nat} (hout : output.1.value ≤ maxSize ∧ output.2 ≤ maxUint32)
    (hroom : f.rows + 1 ≤ maxUint32) (hc : pushOutput env txHash height f output = some f') :
    f'.Holds env (DataBase.pushOutput txHash height db output) ∧ f'.rows ≤ f.rows + 1 := by
  unfold rows at hroom ⊢
  unfold Files.pushOutput at hc
  unfold DataBase.pushOutput
  cases ha : Core.address output.1.script with
  | none =>
      rw [ha] at hc
      cases hc
      exact ⟨h, Nat.le_succ _⟩
  | some address =>
      rw [ha] at hc
      obtain ⟨history, hh, rfl⟩ := Option.map_eq_some_iff.mp hc
      obtain ⟨g, hg, rfl⟩ := Option.map_eq_some_iff.mp hh
      have hfit : (HistoryDatabase.outputRow ⟨txHash, output.2⟩ height output.1.value).Fits :=
        ⟨hout.2, u32_le _, hout.1⟩
      obtain ⟨hhistory, hrows⟩ := h.history.addRow hd (by omega) hfit hg
      refine ⟨{ h with history := ?_ }, ?_⟩
      · rw [HistoryDatabase.addOutput_rows]
        exact hhistory
      · dsimp only
        omega

/-- **One pair of outputs**: its stealth row. -/
theorem Holds.pushStealthPair (h : f.Holds env db) (hcore : Core.Typed) {txHash : HashDigest}
    {height : Nat} {pair : Output × Output} (hroom : f.rows + 1 ≤ maxUint32)
    (hc : pushStealthPair env txHash height f pair = some f') :
    f'.Holds env (DataBase.pushStealthPair txHash height db pair) ∧ f'.rows ≤ f.rows + 1 := by
  unfold rows at hroom ⊢
  unfold Files.pushStealthPair at hc
  unfold DataBase.pushStealthPair
  cases ha : Core.address pair.2.script with
  | none =>
      rw [ha] at hc
      cases hc
      exact ⟨h, Nat.le_succ _⟩
  | some address =>
      cases hk : Core.ephemeralKey pair.1.script with
      | none =>
          rw [ha, hk] at hc
          cases hc
          exact ⟨h, Nat.le_succ _⟩
      | some key =>
          cases hp : Core.stealthPrefix pair.1.script with
          | none =>
              rw [ha, hk, hp] at hc
              cases hc
              exact ⟨h, Nat.le_succ _⟩
          | some stealthPrefix =>
              rw [ha, hk, hp] at hc
              obtain ⟨stealth, hs, rfl⟩ := Option.map_eq_some_iff.mp hc
              obtain ⟨hstealth, hcount⟩ :=
                h.stealth.store hd (by omega) (hcore.stealthPrefix _ _ hp) hs
              refine ⟨{ h with stealth := hstealth }, ?_⟩
              dsimp only
              omega

omit [Core] hd in
/-- A loop whose passes add a row at most. -/
theorem Holds.loop {O : Type} {step : Files → O → Option Files} {step' : DataBase → O → DataBase}
    {G : O → Prop} (hstep : ∀ f db o f', Holds env f db → G o → f.rows + 1 ≤ maxUint32 →
      step f o = some f' → f'.Holds env (step' db o) ∧ f'.rows ≤ f.rows + 1)
    (h : f.Holds env db) {ops : List O} (hG : ∀ o ∈ ops, G o)
    (hroom : f.rows + ops.length ≤ maxUint32) (hc : runSome step f ops = some f') :
    f'.Holds env (run step' db ops) ∧ f'.rows ≤ f.rows + ops.length := by
  have hsum : (ops.map fun _ => 1).sum = ops.length := by simp
  have hloop : f'.Holds env (run step' db ops) ∧ f'.rows ≤ f.rows + (ops.map fun _ => 1).sum :=
    runSome_simulates (G := fun _ o => G o) hstep h (.of_mem _ hG) (by rwa [hsum]) hc
  rwa [hsum] at hloop

theorem Holds.pushInputs (h : f.Holds env db) (hcore : Core.Typed) {txHash : HashDigest}
    {height : Nat} {inputs : List Input} (hcount : inputs.length ≤ maxUint32)
    (hin : ∀ input ∈ inputs, input.previousOutput.index ≤ maxUint32)
    (hroom : f.rows + inputs.length ≤ maxUint32)
    (hc : f.pushInputs env txHash height inputs = some f') :
    f'.Holds env (db.pushInputs txHash height inputs) ∧ f'.rows ≤ f.rows + inputs.length := by
  have hstep (f : Files) (db : DataBase) (i : Input × Nat) (f' : Files) (h : f.Holds env db)
      (hi : i.1.previousOutput.index ≤ maxUint32 ∧ i.2 ≤ maxUint32)
      (hroom : f.rows + 1 ≤ maxUint32) (hc : Files.pushInput env txHash height f i = some f') :
      f'.Holds env (DataBase.pushInput txHash height db i) ∧ f'.rows ≤ f.rows + 1 :=
    h.pushInput hd hcore hi hroom hc
  have hall : ∀ i ∈ inputs.zipIdx, i.1.previousOutput.index ≤ maxUint32 ∧ i.2 ≤ maxUint32 := by
    intro i hi
    obtain ⟨_, hlt, heq⟩ := List.mem_zipIdx hi
    exact ⟨hin i.1 (heq ▸ List.getElem_mem _), by omega⟩
  have hloop := h.loop hstep hall (by rwa [List.length_zipIdx]) hc
  rwa [List.length_zipIdx] at hloop

theorem Holds.pushOutputs (h : f.Holds env db) {txHash : HashDigest} {height : Nat}
    {outputs : List Output} (hcount : outputs.length ≤ maxUint32)
    (hout : ∀ output ∈ outputs, output.value ≤ maxSize)
    (hroom : f.rows + outputs.length ≤ maxUint32)
    (hc : f.pushOutputs env txHash height outputs = some f') :
    f'.Holds env (db.pushOutputs txHash height outputs) ∧ f'.rows ≤ f.rows + outputs.length := by
  have hstep (f : Files) (db : DataBase) (o : Output × Nat) (f' : Files) (h : f.Holds env db)
      (ho : o.1.value ≤ maxSize ∧ o.2 ≤ maxUint32) (hroom : f.rows + 1 ≤ maxUint32)
      (hc : Files.pushOutput env txHash height f o = some f') :
      f'.Holds env (DataBase.pushOutput txHash height db o) ∧ f'.rows ≤ f.rows + 1 :=
    h.pushOutput hd ho hroom hc
  have hall : ∀ o ∈ outputs.zipIdx, o.1.value ≤ maxSize ∧ o.2 ≤ maxUint32 := by
    intro o ho
    obtain ⟨_, hlt, heq⟩ := List.mem_zipIdx ho
    exact ⟨hout o.1 (heq ▸ List.getElem_mem _), by omega⟩
  have hloop := h.loop hstep hall (by rwa [List.length_zipIdx]) hc
  rwa [List.length_zipIdx] at hloop

theorem Holds.pushStealth (h : f.Holds env db) (hcore : Core.Typed) {txHash : HashDigest}
    {height : Nat} {outputs : List Output} (hroom : f.rows + outputs.length ≤ maxUint32)
    (hc : f.pushStealth env txHash height outputs = some f') :
    f'.Holds env (db.pushStealth txHash height outputs) ∧ f'.rows ≤ f.rows + outputs.length := by
  have hlen : (outputs.zip outputs.tail).length ≤ outputs.length :=
    (List.length_zip ..).trans_le (Nat.min_le_left _ _)
  have hstep (f : Files) (db : DataBase) (p : Output × Output) (f' : Files) (h : f.Holds env db)
      (_ : True) (hroom : f.rows + 1 ≤ maxUint32)
      (hc : Files.pushStealthPair env txHash height f p = some f') :
      f'.Holds env (DataBase.pushStealthPair txHash height db p) ∧ f'.rows ≤ f.rows + 1 :=
    h.pushStealthPair hd hcore hroom hc
  obtain ⟨h', hrows⟩ := h.loop hstep (fun _ _ => True.intro)
    (Nat.le_trans (Nat.add_le_add_left hlen _) hroom) hc
  exact ⟨h', Nat.le_trans hrows (Nat.add_le_add_left hlen _)⟩

/-- **The indexes of a transaction.** -/
theorem Holds.pushIndexes (h : f.Holds env db) (hcore : Core.Typed) {tx : Transaction}
    (hw : tx.Wire env.form) {height position : Nat} (hroom : f.rows + tx.rows ≤ maxUint32)
    (hc : f.pushIndexes env height tx position = some f') :
    f'.Holds env (db.pushIndexes height tx position) ∧ f'.rows ≤ f.rows + tx.rows := by
  unfold Transaction.rows at hroom ⊢
  obtain ⟨f₁, hc₁, hc⟩ := Option.bind_eq_some_iff.mp hc
  obtain ⟨f₂, hc₂, hc₃⟩ := Option.bind_eq_some_iff.mp hc
  have h₁ : f₁.Holds env (if position ≠ 0 then db.pushInputs tx.hash height tx.inputs else db) ∧
      f₁.rows ≤ f.rows + tx.inputs.length := by
    split at hc₁
    · rename_i hp
      rw [if_pos hp]
      exact h.pushInputs hd hcore hw.inputCount (fun input hi => (hw.input input hi).index)
        (by omega) hc₁
    · rename_i hp
      cases hc₁
      rw [if_neg hp]
      exact ⟨h, Nat.le_add_right _ _⟩
  obtain ⟨h₂, hrows₂⟩ := h₁.1.pushOutputs hd hw.outputCount hw.value (by omega) hc₂
  obtain ⟨h₃, hrows₃⟩ := h₂.pushStealth hd hcore (by omega) hc₃
  exact ⟨h₃, by omega⟩

/-- **One transaction of a block**: stored, taken out of the pool, indexed. -/
theorem Holds.pushTransaction (h : f.Holds env db) (hcore : Core.Typed) {height : Nat}
    {tx : Transaction × Nat} (hw : tx.1.Wire env.form) (hroom : f.rows + tx.1.rows ≤ maxUint32)
    (hc : pushTransaction env height f tx = some f') :
    f'.Holds env (DataBase.pushTransaction height db tx) ∧ f'.rows ≤ f.rows + tx.1.rows := by
  obtain ⟨transactions, ht, hc⟩ := Option.bind_eq_some_iff.mp hc
  obtain ⟨unlinked, hu, hc⟩ := Option.bind_eq_some_iff.mp hc
  obtain ⟨pool, hpool, hheld⟩ := h.transactionsUnconfirmed.unlinkIfExists tx.1.hash
  cases hpool.symm.trans hu
  have h₁ : Holds env { f with transactions := transactions, transactionsUnconfirmed := pool }
      { db with
        transactions := db.transactions.store tx.1 height tx.2
        transactionsUnconfirmed := (db.transactionsUnconfirmed.unlinkIfExists tx.1.hash).1 } :=
    { h with
      transactions := h.transactions.store hd hw ht
      transactionsUnconfirmed := hheld }
  have hstart : f.settings.indexStartHeight = db.settings.indexStartHeight := by rw [h.settings_eq]
  unfold DataBase.pushTransaction
  dsimp only at hc ⊢
  by_cases hlt : height < db.settings.indexStartHeight
  · rw [if_pos (hstart ▸ hlt)] at hc
    cases hc
    rw [if_pos hlt]
    exact ⟨h₁, Nat.le_add_right _ _⟩
  · rw [if_neg (hstart ▸ hlt)] at hc
    rw [if_neg hlt]
    exact h₁.pushIndexes hd hcore hw hroom hc

/-! ### Writing a block -/

/-- The rows a block adds. -/
def blockRows (b : Block) : Nat := (b.transactions.map Transaction.rows).sum

/-- **The transactions of a block.** -/
theorem Holds.pushTransactions (h : f.Holds env db) (hcore : Core.Typed) {b : Block} {height : Nat}
    (hw : ∀ tx ∈ b.transactions, tx.Wire env.form) (hroom : f.rows + blockRows b ≤ maxUint32)
    {r : Bool} (hc : f.pushTransactions env b height 0 1 = some (f', r)) :
    f'.Holds env (db.pushTransactions b height 0 1).1 ∧ r = true ∧
      f'.rows ≤ f.rows + blockRows b := by
  have hsum : (b.transactions.zipIdx.map fun tx => tx.1.rows).sum = blockRows b := by
    unfold blockRows
    rw [show (fun tx : Transaction × Nat => tx.1.rows) = Transaction.rows ∘ Prod.fst from rfl,
      ← List.map_map, List.zipIdx_map_fst]
  have hall : (b.transactions.zipIdx.filter fun tx => tx.2 % 1 == 0) = b.transactions.zipIdx :=
    List.filter_eq_self.mpr fun tx _ => by rw [Nat.mod_one]; rfl
  obtain ⟨f₁, hrun, he⟩ := Option.map_eq_some_iff.mp hc
  cases he
  rw [hall] at hrun
  have hstep (f : Files) (db : DataBase) (tx : Transaction × Nat) (f' : Files)
      (h : f.Holds env db) (hw : tx.1.Wire env.form) (hroom : f.rows + tx.1.rows ≤ maxUint32)
      (hc : Files.pushTransaction env height f tx = some f') :
      f'.Holds env (DataBase.pushTransaction height db tx) ∧ f'.rows ≤ f.rows + tx.1.rows :=
    h.pushTransaction hd hcore hw hroom hc
  have hmem : ∀ tx ∈ b.transactions.zipIdx, tx.1.Wire env.form := fun tx htx => by
    obtain ⟨_, hlt, heq⟩ := List.mem_zipIdx htx
    exact hw tx.1 (heq ▸ List.getElem_mem _)
  obtain ⟨h', hrows⟩ := runSome_simulates (G := fun _ tx => tx.1.Wire env.form) hstep h
    (.of_mem _ hmem) (by rwa [hsum]) hrun
  rw [DataBase.pushTransactions_eq]
  exact ⟨h', rfl, hsum ▸ hrows⟩

omit [Core] hd in
/-- Spending in order. -/
theorem spendAll_holds {transactions transactions' : TransactionFile} {t : TransactionDatabase}
    (h : TransactionsHold env transactions t) (height : Nat) {points : List Point} {r : Bool}
    (hc : spendAll env transactions height points = some (transactions', r)) :
    TransactionsHold env transactions' (DataBase.spendAll t height points).1 ∧
      r = (DataBase.spendAll t height points).2 := by
  induction points generalizing transactions t with
  | nil =>
      cases hc
      exact ⟨h, rfl⟩
  | cons point points ih =>
      obtain ⟨g, hg, h'⟩ := h.spend point height
      unfold spendAll at hc
      unfold DataBase.spendAll
      rw [hg] at hc
      rcases hs : t.spend point height with ⟨t', b⟩
      rw [hs] at h' hc
      cases b with
      | false =>
          cases hc
          exact ⟨h', rfl⟩
      | true => exact ih h' hc

omit [Core] hd in
theorem Holds.pushHeights (h : f.Holds env db) (b : Block) (height : Nat) {r : Bool}
    (hc : f.pushHeights env b height = some (f', r)) :
    f'.Holds env (db.pushHeights b height).1 ∧ r = (db.pushHeights b height).2 ∧ f'.rows = f.rows := by
  obtain ⟨⟨transactions, r'⟩, hs, he⟩ := Option.map_eq_some_iff.mp hc
  cases he
  obtain ⟨ht, hr⟩ := spendAll_holds h.transactions.synchronize height hs
  exact ⟨{ h with transactions := ht }, hr, rfl⟩

/-- **The three phases of a writer**, and what they answer. -/
theorem Holds.writeBlock (h : f.Holds env db) (hcore : Core.Typed) {b : Block} {height : Nat}
    (hblock : b.Wire env.form.toSizeCodec) (hw : ∀ tx ∈ b.transactions, tx.Wire env.form)
    (hheight : height < maxUint32) (hroom : f.rows + blockRows b ≤ maxUint32) {r : Bool}
    (hc : f.writeBlock env b height = some (f', r)) :
    f'.Holds env (db.writeBlock b height).1 ∧ r = (db.writeBlock b height).2 ∧
      f'.rows ≤ f.rows + blockRows b := by
  unfold Files.writeBlock at hc
  unfold DataBase.writeBlock
  cases hp : f.pushTransactions env b height 0 1 with
  | none =>
      rw [hp] at hc
      cases hc
  | some result =>
      obtain ⟨f₁, r₁⟩ := result
      obtain ⟨h₁, hr₁, hrows₁⟩ := h.pushTransactions hd hcore hw hroom hp
      subst hr₁
      have hanswer : (db.pushTransactions b height 0 1).2 = true := rfl
      rcases hdb : db.pushTransactions b height 0 1 with ⟨db₁, r₁⟩
      rw [hdb] at h₁ hanswer
      cases hanswer
      rw [hp] at hc
      dsimp only at hc ⊢
      cases hh : f₁.pushHeights env b height with
      | none =>
          rw [hh] at hc
          cases hc
      | some result =>
          obtain ⟨f₂, r₂⟩ := result
          obtain ⟨h₂, hr₂, hrows₂⟩ := h₁.pushHeights b height hh
          rcases hdb₂ : db₁.pushHeights b height with ⟨db₂, r₂'⟩
          rw [hdb₂] at h₂ hr₂
          cases hr₂
          rw [hh] at hc
          cases r₂' with
          | false =>
              cases hc
              exact ⟨h₂, rfl, hrows₂ ▸ hrows₁⟩
          | true =>
              obtain ⟨blocks, hb, he⟩ := Option.map_eq_some_iff.mp hc
              cases he
              have h₃ : Holds env { f₂ with blocks := blocks }
                  { db₂ with blocks := db₂.blocks.store b height } :=
                { h₂ with blocks := h₂.blocks.store hd hblock hheight hb }
              obtain ⟨h₄, hrows₄⟩ := h₃.synchronize
              refine ⟨h₄, rfl, ?_⟩
              rw [hrows₄]
              exact hrows₂ ▸ hrows₁

/-- **Inserting a block.** -/
theorem Holds.insert (h : f.Holds env db) (hcore : Core.Typed) {b : Block} {height : Nat}
    (hblock : b.Wire env.form.toSizeCodec) (hw : ∀ tx ∈ b.transactions, tx.Wire env.form)
    (hheight : height < maxUint32) (hroom : f.rows + blockRows b ≤ maxUint32) {ec : Code}
    (hc : f.insert env b height = some (f', ec)) :
    f'.Holds env (db.insert b height).1 ∧ ec = (db.insert b height).2 ∧
      f'.rows ≤ f.rows + blockRows b := by
  unfold Files.insert at hc
  unfold DataBase.insert
  rw [h.verifyInsert_eq b height] at hc
  cases hv : db.verifyInsert b height with
  | success =>
      rw [hv] at hc
      obtain ⟨⟨f₁, r⟩, hwrite, he⟩ := Option.map_eq_some_iff.mp hc
      cases he
      obtain ⟨h', hr, hrows⟩ := h.writeBlock hd hcore hblock hw hheight hroom hwrite
      subst hr
      rcases hdb : db.writeBlock b height with ⟨db', r⟩
      rw [hdb] at h'
      cases r with
      | false => exact ⟨h', rfl, hrows⟩
      | true => exact ⟨h', rfl, hrows⟩
  | _ =>
      rw [hv] at hc
      cases hc
      exact ⟨h, rfl, Nat.le_add_right _ _⟩

omit [Core] hd in
/-- `end_write` on both. -/
theorem Holds.finish (h : f.Holds env db) : f.finish.1.Holds env db.finish.1 ∧
    f.finish.2 = db.finish.2 ∧ f.finish.1.rows = f.rows := by
  unfold Files.finish DataBase.finish
  rw [h.store_eq, h.flushes_eq]
  exact ⟨{ h with store_eq := rfl, flushes_eq := rfl }, rfl, rfl⟩

/-- **Pushing an unconfirmed transaction.** -/
theorem Holds.pushUnconfirmed (h : f.Holds env db) {tx : Transaction} (hw : tx.Wire env.form)
    {forks : Nat} {ec : Code} (hc : f.pushUnconfirmed env tx forks = some (f', ec)) :
    f'.Holds env (db.pushUnconfirmed tx forks).1 ∧ ec = (db.pushUnconfirmed tx forks).2 ∧
      f'.rows = f.rows := by
  unfold Files.pushUnconfirmed at hc
  unfold DataBase.pushUnconfirmed
  rw [h.verifyPushTransaction_eq tx, h.store_eq] at hc
  cases hv : db.verifyPushTransaction tx with
  | success =>
      rw [hv] at hc
      dsimp only at hc ⊢
      rcases hbegin : db.store.beginWrite with ⟨store, r⟩
      rw [hbegin] at hc
      cases r with
      | false =>
          cases hc
          exact ⟨{ h with store_eq := rfl }, rfl, rfl⟩
      | true =>
          obtain ⟨transactions, ht, hc⟩ := Option.bind_eq_some_iff.mp hc
          obtain ⟨pool, hp, hfinish⟩ := Option.map_eq_some_iff.mp hc
          have h₁ : Holds env
              { f with
                store := store
                transactions := transactions.synchronize
                transactionsUnconfirmed := pool.synchronize }
              { db with
                store := store
                transactions := db.transactions.store tx forks unconfirmed
                transactionsUnconfirmed := db.transactionsUnconfirmed.store tx } :=
            { h with
              store_eq := rfl
              transactions := (h.transactions.store hd hw ht).synchronize
              transactionsUnconfirmed :=
                (h.transactionsUnconfirmed.store hd (hw.store 0 unconfirmed) hp).synchronize }
          obtain ⟨h₂, hec, hrows⟩ := h₁.finish
          rw [hfinish] at h₂ hec hrows
          exact ⟨h₂, hec, hrows⟩
  | _ =>
      rw [hv] at hc
      cases hc
      exact ⟨h, rfl, rfl⟩

/-- **Pushing a block on top.** -/
theorem Holds.push (h : f.Holds env db) (hcore : Core.Typed) {b : Block} {height : Nat}
    (hblock : b.Wire env.form.toSizeCodec) (hw : ∀ tx ∈ b.transactions, tx.Wire env.form)
    (hheight : height < maxUint32) (htop : TopStored db.blocks)
    (hroom : f.rows + blockRows b ≤ maxUint32) {ec : Code}
    (hc : f.push env b height = some (f', ec)) :
    f'.Holds env (db.push b height).1 ∧ ec = (db.push b height).2 ∧
      f'.rows ≤ f.rows + blockRows b := by
  unfold Files.push at hc
  unfold DataBase.push
  rw [h.verifyPush_eq htop b height, h.store_eq] at hc
  cases hv : db.verifyPush b height with
  | success =>
      rw [hv] at hc
      dsimp only at hc ⊢
      rcases hbegin : db.store.beginWrite with ⟨store, r⟩
      rw [hbegin] at hc
      cases r with
      | false =>
          cases hc
          exact ⟨{ h with store_eq := rfl }, rfl, Nat.le_add_right _ _⟩
      | true =>
          obtain ⟨⟨f₁, r⟩, hwrite, he⟩ := Option.map_eq_some_iff.mp hc
          have h₀ : Holds env { f with store := store } { db with store := store } :=
            { h with store_eq := rfl }
          obtain ⟨h₁, hr, hrows⟩ := h₀.writeBlock hd hcore hblock hw hheight hroom hwrite
          subst hr
          rcases hdb : DataBase.writeBlock { db with store := store } b height with ⟨db₁, r⟩
          rw [hdb] at h₁ he
          dsimp only
          rw [hdb]
          cases r with
          | false =>
              cases he
              exact ⟨h₁, rfl, hrows⟩
          | true =>
              obtain ⟨h₂, hec, hrows₂⟩ := h₁.finish
              have he : f₁.finish = (f', ec) := he
              rw [he] at h₂ hec hrows₂
              exact ⟨h₂, hec, hrows₂.trans_le hrows⟩
  | _ =>
      rw [hv] at hc
      cases hc
      exact ⟨h, rfl, Nat.le_add_right _ _⟩

end Push

end Files

end Libbitcoin.Database
