/-
  File:      BitprimDatabase/DataBase/Reachable.lean
  Subject:   THE STATES REACHABLE BY SUCCESSFUL OPERATIONS, and what they keep under the
             assumption that a transaction hash identifies a transaction.

  * `Content` -- what the store form keeps of a transaction, the spender heights apart;
  * `Genuine content` -- the transaction of a hash is the one `content` names (no collisions);
  * `apply` -- the state after an operation that answers success;
  * **`Reachable.genuine`**: every slab ever stored under a hash has the content of that hash.

  NOT here: the asynchronous writers (`push_all`, `reorganize`); they are OrderedOp in Linked.lean.
-/
import BitprimDatabase.DataBase.Pop

namespace Libbitcoin.Database

open Lib

/-! ## 1. Contents -/

/-- A transaction up to spender heights and validation flags. -/
structure Content where
  version : Nat
  locktime : Nat
  inputs : List Input
  outputs : List (Nat × Script)
  deriving DecidableEq

def contentOf (outputs : List Output) : List (Nat × Script) :=
  outputs.map fun o => (o.value, o.script)

def Transaction.content (tx : Transaction) : Content :=
  ⟨tx.version, tx.locktime, tx.inputs, contentOf tx.outputs⟩

def TransactionSlab.content (slab : TransactionSlab) : Content :=
  ⟨slab.version, slab.locktime, slab.inputs, contentOf slab.outputs⟩

/-- The transaction is the one its hash stands for. -/
def Genuine (content : HashDigest → Content) (tx : Transaction) : Prop :=
  tx.content = content tx.hash

def Block.Genuine (content : HashDigest → Content) (b : Block) : Prop :=
  ∀ tx ∈ b.transactions, Database.Genuine content tx

/-- The contents of the transactions of a list. -/
def contentIn (txs : List Transaction) (hash : HashDigest) : Content :=
  match txs.find? fun tx => tx.hash == hash with
  | none => ⟨0, 0, [], []⟩
  | some tx => tx.content

/-- Every slab of a hash has a content that fits the hash. -/
def SlabsOf (P : HashDigest → Content → Prop) (s : Slabs) : Prop :=
  ∀ hash, ∀ slab ∈ s hash, P hash slab.content

/-- Every slab of a hash has the content of the hash. -/
def GenuineSlabs (content : HashDigest → Content) (s : Slabs) : Prop :=
  ∀ hash, ∀ slab ∈ s hash, slab.content = content hash

theorem toSlab_content (tx : Transaction) (height position : Nat) :
    (tx.toSlab height position).content = tx.content := by
  simp [Transaction.toSlab, TransactionSlab.content, Transaction.content, contentOf,
    Output.toStore]

theorem confirm_content (height position : Nat) (slab : TransactionSlab) :
    (slab.confirm height position).content = slab.content := rfl

theorem spendAt_content (indexes : List Nat) (height : Nat) (slab : TransactionSlab) :
    (slab.spendAt indexes height).content = slab.content := by
  have : contentOf (slab.spendAt indexes height).outputs = contentOf slab.outputs := by
    refine List.ext_getElem? fun i => ?_
    unfold contentOf
    rw [List.getElem?_map, List.getElem?_map, spendAt_getElem?]
    cases slab.outputs[i]? with
    | none => rfl
    | some o =>
        simp only [Option.map_some]
        split <;> rfl
  unfold TransactionSlab.content
  rw [this]
  rfl

theorem spend_content (index height : Nat) (slab : TransactionSlab) :
    (slab.spend index height).content = slab.content := by
  rw [← spendAt_nil height (slab.spend index height), spendAt_spend, spendAt_content]

section Slabs

section SlabsOf

variable {P : HashDigest → Content → Prop} {s : Slabs}

theorem SlabsOf.push (h : SlabsOf P s) {hash : HashDigest} {slab : TransactionSlab}
    (hs : P hash slab.content) : SlabsOf P (s.push hash slab) := by
  intro k slab' hm
  rcases Stacks.mem_of_mem_push hm with ⟨rfl, rfl⟩ | hm
  · exact hs
  · exact h k slab' hm

theorem SlabsOf.modifyTop (h : SlabsOf P s) (hash : HashDigest)
    {f : TransactionSlab → TransactionSlab} (hf : ∀ slab, (f slab).content = slab.content) :
    SlabsOf P (s.modifyTop hash f) := by
  intro k slab' hm
  rcases Stacks.mem_of_mem_modifyTop hm with ⟨rfl, slab, hs, rfl⟩ | hm
  · rw [hf]
    exact h k slab (List.mem_of_mem_head? hs)
  · exact h k slab' hm

theorem SlabsOf.store [Core] {t : TransactionDatabase} (h : SlabsOf P t.slabs) {tx : Transaction}
    (htx : P tx.hash tx.content) (height position : Nat) :
    SlabsOf P (t.store tx height position).slabs := by
  rw [TransactionDatabase.store_slabs]
  split
  · exact h.modifyTop _ (confirm_content height position)
  · refine h.push ?_
    rw [toSlab_content]
    exact htx

end SlabsOf

variable {content : HashDigest → Content} {s : Slabs}

theorem GenuineSlabs.modifyTop (h : GenuineSlabs content s) (hash : HashDigest)
    {f : TransactionSlab → TransactionSlab} (hf : ∀ slab, (f slab).content = slab.content) :
    GenuineSlabs content (s.modifyTop hash f) :=
  SlabsOf.modifyTop (P := fun hash c => c = content hash) h hash hf

theorem GenuineSlabs.spendSlabs (h : GenuineSlabs content s) (points : List Point)
    (height : Nat) : GenuineSlabs content (spendSlabs s points height) := by
  intro hash slab hm
  rw [spendSlabs_apply] at hm
  cases hs : s hash with
  | nil => rw [hs] at hm; cases hm
  | cons slab₀ rest =>
      rw [hs] at hm
      have hall := h hash
      rw [hs] at hall
      rcases List.mem_cons.mp hm with rfl | hm
      · rw [spendAt_content]
        exact hall slab₀ List.mem_cons_self
      · exact hall slab (List.mem_cons_of_mem _ hm)

variable [Core]

theorem GenuineSlabs.store {t : TransactionDatabase} (h : GenuineSlabs content t.slabs)
    {tx : Transaction} (htx : Genuine content tx) (height position : Nat) :
    GenuineSlabs content (t.store tx height position).slabs :=
  SlabsOf.store (P := fun hash c => c = content hash) h htx height position

theorem GenuineSlabs.storeAll {t : TransactionDatabase} (h : GenuineSlabs content t.slabs)
    (height : Nat) {l : List (Transaction × Nat)} (hl : ∀ tx ∈ l, Genuine content tx.1) :
    GenuineSlabs content (storeAll t height l).slabs := by
  induction l generalizing t with
  | nil => exact h
  | cons tx l ih =>
      rw [storeAll_cons]
      exact ih (h.store (hl tx List.mem_cons_self) height tx.2)
        fun tx' h' => hl tx' (List.mem_cons_of_mem _ h')

theorem GenuineSlabs.stored {db : DataBase} (h : GenuineSlabs content db.transactions.slabs)
    {b : Block} (hb : b.Genuine content) (height : Nat) :
    GenuineSlabs content (db.stored b height) :=
  h.storeAll height fun tx htx => hb tx.1 (List.fst_mem_of_mem_zipIdx htx)

omit [Core] in
theorem GenuineSlabs.spendAll {t : TransactionDatabase} (h : GenuineSlabs content t.slabs)
    (height : Nat) (points : List Point) :
    GenuineSlabs content (DataBase.spendAll t height points).1.slabs := by
  induction points generalizing t with
  | nil => exact h
  | cons p points ih =>
      have hstep : GenuineSlabs content (t.spend p height).1.slabs := by
        rcases t.spend_spec p height with ⟨_, _, _, _, hs⟩ | ⟨_, _, hs⟩
        · rw [hs]
          have := h.spendSlabs [p] height
          exact this
        · rw [hs]
          exact h
      unfold DataBase.spendAll
      rcases hsp : t.spend p height with ⟨t', r⟩
      rw [hsp] at hstep
      cases r with
      | false => exact hstep
      | true => exact ih hstep

theorem GenuineSlabs.writeBlock {db : DataBase} (h : GenuineSlabs content db.transactions.slabs)
    {b : Block} (hb : b.Genuine content) (height : Nat) :
    GenuineSlabs content (db.writeBlock b height).1.transactions.slabs := by
  obtain ⟨_, _, _, _, ht, _⟩ := DataBase.pushAllTransactions_spec height db b.transactions.zipIdx
  have hs := (h.stored hb height).spendAll height b.previousOutputs
  unfold DataBase.writeBlock
  rw [DataBase.pushTransactions_eq]
  simp only [DataBase.pushHeights, ht]
  rcases hsp : DataBase.spendAll (Database.storeAll db.transactions height b.transactions.zipIdx)
    height b.previousOutputs with ⟨t, r⟩
  rw [hsp] at hs
  cases r <;> exact hs

theorem GenuineSlabs.unwind (h : GenuineSlabs content s) (txs : List Transaction) :
    GenuineSlabs content (unwind s txs) := by
  induction txs generalizing s with
  | nil => exact h
  | cons tx txs ih => exact ih ((h.modifyTop _ (confirm_content _ _)).spendSlabs _ _)

end Slabs

/-! ## 2. Runs of successful operations -/

variable [Core]

/-- The operations on a created data base. -/
inductive Op where
  | pushUnconfirmed (tx : Transaction) (forks : Nat)
  | push (b : Block) (height : Nat)
  | insert (b : Block) (height : Nat)
  | pop
  | popAbove (forkHash : HashDigest)

/-- The transactions an operation brings in. -/
def Op.transactions : Op → List Transaction
  | .pushUnconfirmed tx _ => [tx]
  | .push b _ => b.transactions
  | .insert b _ => b.transactions
  | .pop => []
  | .popAbove _ => []

namespace DataBase

/-- The state after a successful operation, `none` where it does not answer success. -/
def apply (db : DataBase) : Op → Option DataBase
  | .pushUnconfirmed tx forks =>
    if (db.pushUnconfirmed tx forks).2 = .success then some (db.pushUnconfirmed tx forks).1 else none
  | .push b height => if (db.push b height).2 = .success then some (db.push b height).1 else none
  | .insert b height =>
    if (db.insert b height).2 = .success then some (db.insert b height).1 else none
  | .pop => if db.pop.2.isSome then some db.pop.1 else none
  | .popAbove forkHash =>
    if (db.popAbove forkHash).2.2 = some .success then some (db.popAbove forkHash).1 else none

/-- Reachable from a created data base by successful operations whose transactions are the ones
    their hashes stand for, with any bytes for a gap to decode at any time. -/
inductive Reachable (content : HashDigest → Content) : DataBase → Prop where
  | create (settings : Settings) (flushes : Bool) (stray : BlockResult) (genesis : Block)
      (hg : genesis.Genuine content) : Reachable content (create settings flushes stray genesis)
  | apply {db db' : DataBase} (h : Reachable content db) (op : Op)
      (htx : ∀ tx ∈ op.transactions, Genuine content tx) (ha : db.apply op = some db') :
      Reachable content db'
  | setStray {db : DataBase} (h : Reachable content db) (stray : BlockResult) :
      Reachable content (db.setStray stray)

theorem apply_eq_some {db db' : DataBase} {op : Op} (h : db.apply op = some db') :
    match op with
    | .pushUnconfirmed tx forks =>
      (db.pushUnconfirmed tx forks).2 = .success ∧ (db.pushUnconfirmed tx forks).1 = db'
    | .push b height => (db.push b height).2 = .success ∧ (db.push b height).1 = db'
    | .insert b height => (db.insert b height).2 = .success ∧ (db.insert b height).1 = db'
    | .pop => (∃ out, db.pop.2 = some out) ∧ db.pop.1 = db'
    | .popAbove forkHash =>
      (db.popAbove forkHash).2.2 = some .success ∧ (db.popAbove forkHash).1 = db' := by
  cases op with
  | pop =>
      simp only [apply, Option.ite_none_right_eq_some, Option.some.injEq] at h
      exact ⟨Option.isSome_iff_exists.mp h.1, h.2⟩
  | _ =>
      simp only [apply, Option.ite_none_right_eq_some, Option.some.injEq] at h
      exact h

section Step

variable {content : HashDigest → Content} {db : DataBase}

theorem Reachable.of_insert (h : Reachable content db) {b : Block} {height : Nat}
    (hb : b.Genuine content) (hs : (db.insert b height).2 = .success) :
    Reachable content (db.insert b height).1 := h.apply (.insert b height) hb (if_pos hs)

theorem Reachable.of_pop (h : Reachable content db) (hs : db.pop.2.isSome = true) :
    Reachable content db.pop.1 :=
  h.apply .pop (fun _ hm => absurd hm List.not_mem_nil) (if_pos hs)

end Step

/-- A pop that answers a block does not throw. -/
theorem popThrows_of_pop {db : DataBase} {out : Block} (h : db.pop.2 = some out) :
    db.popThrows = false := by
  obtain ⟨height, _, ht, _, _, hres, _⟩ := (db.pop_spec out).1.mp h
  unfold popThrows
  rw [ht]
  dsimp only
  rw [hres]
  rfl

/-- **What pops that answer a block keep, a loop that succeeds keeps.** -/
theorem popBlocks_keeps {P : DataBase → Prop}
    (hpop : ∀ db out, P db → db.pop.2 = some out → P db.pop.1) {n : Nat} {db : DataBase}
    {out : List Block} (h : P db) (hs : (popBlocks n db out).2.2 = some .success) :
    P (popBlocks n db out).1 := by
  induction n generalizing db out with
  | zero => exact h
  | succ n ih =>
      unfold popBlocks at hs ⊢
      by_cases hthrows : db.popThrows = true
      · rw [if_pos hthrows] at hs
        cases hs
      · rw [if_neg hthrows] at hs ⊢
        have hkeep := hpop db
        rcases hp : db.pop with ⟨db', r⟩
        rw [hp] at hs hkeep
        cases r with
        | none => cases hs
        | some b => exact ih (hkeep b h rfl) hs

/-- A successful `pop_above` pops nothing or a number of blocks. -/
theorem popAbove_success {db : DataBase} {forkHash : HashDigest}
    (h : (db.popAbove forkHash).2.2 = some .success) :
    (db.popAbove forkHash).1 = db ∨ ∃ n, (popBlocks n db []).2.2 = some .success ∧
      (db.popAbove forkHash).1 = (popBlocks n db []).1 := by
  unfold popAbove at h ⊢
  cases hr : db.blocks.getByHash forkHash with
  | none => exact .inl rfl
  | some result =>
      cases ht : db.blocks.top with
      | none => exact .inl rfl
      | some top =>
          simp only [hr, ht] at h ⊢
          by_cases hz : subSize top result.height = 0
          · rw [if_pos hz]
            exact .inl rfl
          · by_cases hm : subSize top result.height > maxReserve
            · rw [if_neg hz, if_pos hm]
              exact .inl rfl
            · simp only [if_neg hz, if_neg hm] at h ⊢
              exact .inr ⟨_, h, rfl⟩

/-- **What pops that answer a block keep, a successful `pop_above` keeps.** -/
theorem popAbove_keeps {P : DataBase → Prop}
    (hpop : ∀ db out, P db → db.pop.2 = some out → P db.pop.1) {db : DataBase} (h : P db)
    {forkHash : HashDigest} (hs : (db.popAbove forkHash).2.2 = some .success) :
    P (db.popAbove forkHash).1 := by
  rcases popAbove_success hs with he | ⟨n, hn, he⟩
  · rw [he]
    exact h
  · rw [he]
    exact popBlocks_keeps hpop h hn

section Genuine

variable {content : HashDigest → Content}

theorem pop_genuine {db : DataBase} (h : GenuineSlabs content db.transactions.slabs) {out : Block}
    (hp : db.pop.2 = some out) : GenuineSlabs content db.pop.1.transactions.slabs := by
  obtain ⟨height, txs, _, hpop⟩ := (db.pop_spec out).2 hp
  rw [hpop.slabs_eq]
  exact h.unwind _

/-- **Every slab of a reachable state has the content of its hash.** -/
theorem Reachable.genuine {db : DataBase} (h : Reachable content db) :
    GenuineSlabs content db.transactions.slabs := by
  induction h with
  | create settings flushes stray genesis hg =>
      have h0 : GenuineSlabs content (start settings flushes stray).transactions.slabs := by
        intro hash slab hm
        rw [start, TransactionDatabase.create_slabs] at hm
        cases hm
      unfold DataBase.create push
      split
      · rcases (start settings flushes stray).store.beginWrite with ⟨s, r⟩
        cases r with
        | false => exact h0
        | true =>
            have hw := @GenuineSlabs.writeBlock _ _
              { start settings flushes stray with store := s } h0 _ hg 0
            dsimp only
            rcases hwb : writeBlock { start settings flushes stray with store := s } genesis 0
              with ⟨db', r⟩
            rw [hwb] at hw
            cases r <;> exact hw
      · exact h0
  | setStray _ stray ih => exact ih
  | apply _ op htx ha ih =>
      have ha := apply_eq_some ha
      cases op with
      | pushUnconfirmed tx forks =>
          obtain ⟨hs, rfl⟩ := ha
          obtain ⟨_, s, he⟩ := pushUnconfirmed_success hs
          rw [he]
          exact ih.store (htx tx List.mem_cons_self) forks unconfirmed
      | push b height =>
          obtain ⟨hs, rfl⟩ := ha
          obtain ⟨_, _, hw⟩ := push_success hs
          rw [hw.slabs_eq]
          exact (ih.stored htx height).spendSlabs _ _
      | insert b height =>
          obtain ⟨hs, rfl⟩ := ha
          obtain ⟨hw, _⟩ := (insert_success _ b height).2 hs
          rw [hw.slabs_eq]
          exact (ih.stored htx height).spendSlabs _ _
      | pop =>
          obtain ⟨⟨out, hs⟩, rfl⟩ := ha
          exact pop_genuine ih hs
      | popAbove forkHash =>
          obtain ⟨hs, rfl⟩ := ha
          exact popAbove_keeps (P := fun db => GenuineSlabs content db.transactions.slabs)
            (fun _ _ hg hp => pop_genuine hg hp) ih hs

end Genuine

end DataBase

end Libbitcoin.Database
