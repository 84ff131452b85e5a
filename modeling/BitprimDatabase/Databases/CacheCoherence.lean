/-
  File:      BitprimDatabase/Databases/CacheCoherence.lean
  Subject:   **THE OUTPUT CACHE AGAINST THE SLABS**: when a hit of the cache is the answer the
             slabs give, over every run of the transaction table.

  * `Fits` -- a cached transaction says what a slab with this height, these outputs says;
  * `Coherent` -- every hit of the cache is the answer of `find`; the same as: every entry fits
    the newest slab of its hash;
  * `CacheKept` -- per operation, when the entries still fit: a confirm or unconfirm does not
    touch the cache, and a store keeps an entry that is already there;
  * a run is coherent throughout exactly where every operation of it meets `CacheKept`.
-/
import BitprimDatabase.Lib.Run
import BitprimDatabase.Databases.TransactionDatabase

namespace Libbitcoin.Database

open Lib

/-! ## 1. The operations -/

/-- The updates of the transaction table. -/
inductive TransactionOp where
  | store (tx : Transaction) (height position : Nat)
  | spend (point : Point) (spenderHeight : Nat)
  | unspend (point : Point)
  | confirm (hash : HashDigest) (height position : Nat)
  | unconfirm (hash : HashDigest)

namespace TransactionDatabase

variable [Core]

def apply (db : TransactionDatabase) : TransactionOp → TransactionDatabase
  | .store tx height position => db.store tx height position
  | .spend point spenderHeight => (db.spend point spenderHeight).1
  | .unspend point => (db.unspend point).1
  | .confirm hash height position => (db.confirm hash height position).1
  | .unconfirm hash => (db.unconfirm hash).1

/-! ## 2. Coherence -/

/-- The stored output has the value and script of the cached one and is recorded as not spent. -/
def Matches (stored cached : Output) : Prop :=
  stored.value = cached.value ∧ stored.script = cached.script ∧ stored.spenderHeight = notSpent

/-- The hit is what the slabs answer, and the slab records the output as not spent. -/
def HitCorrect (db : TransactionDatabase) (point : Point) (forkHeight : Nat)
    (requireConfirmed : Bool) (hit : UnspentOutputs.Hit) : Prop :=
  ∃ slab, db.find point.hash forkHeight requireConfirmed = some slab ∧
    hit.height = slab.height ∧ hit.coinbase = (slab.position == 0) ∧
    hit.confirmed = (slab.position != unconfirmed) ∧ Matches (slab.output point.index) hit.output

/-- Every hit of the cache is correct. -/
def Coherent (db : TransactionDatabase) : Prop :=
  ∀ point forkHeight requireConfirmed hit,
    db.cache.getIsConfirmed point forkHeight requireConfirmed = some hit →
      db.HitCorrect point forkHeight requireConfirmed hit

/-- Two answers with the same value, script, height, coinbase flag and confirmed flag. The spender
    height is not part of an output's identity. -/
def SameHit (a b : UnspentOutputs.Hit) : Prop :=
  a.output.value = b.output.value ∧ a.output.script = b.output.script ∧ a.height = b.height ∧
    a.coinbase = b.coinbase ∧ a.confirmed = b.confirmed

/-- The two tables answer every output query alike. -/
def SameAnswers (db db' : TransactionDatabase) : Prop :=
  ∀ point forkHeight requireConfirmed,
    Option.Rel SameHit (db.getOutputIsConfirmed point forkHeight requireConfirmed)
        (db'.getOutputIsConfirmed point forkHeight requireConfirmed) ∧
      Option.Rel (fun a b : Output × Nat × Bool =>
          a.1.value = b.1.value ∧ a.1.script = b.1.script ∧ a.2 = b.2)
        (db.getOutput point forkHeight requireConfirmed)
        (db'.getOutput point forkHeight requireConfirmed)

/-- The cached transaction says what a slab of this height, position and outputs says. -/
structure Fits (u : UnspentTransaction) (height position : Nat) (outputs : List Output) : Prop where
  height_eq : u.height = height
  coinbase_eq : u.isCoinbase = (position == 0)
  confirmed_eq : u.isConfirmed = (position != unconfirmed)
  outputs_match : ∀ io ∈ u.outputs, Matches (outputs[io.1]?.getD Output.invalid) io.2

/-- Every entry of the cache fits the newest slab of its hash. -/
def EntriesFit (db : TransactionDatabase) : Prop :=
  ∀ us ∈ db.cache.unspent, ∃ slab, (db.slabs us.1.hash).head? = some slab ∧
    Fits us.1 slab.height slab.position slab.outputs

omit [Core] in
/-- The entry a cached output is found in, and the output by its index. -/
theorem output_mem {u : UnspentTransaction} (hu : (u.outputs.map Prod.fst).Nodup) {index : Nat}
    {o : Output} : u.output index = some o ↔ (index, o) ∈ u.outputs := by
  unfold UnspentTransaction.output
  rw [Option.map_eq_some_iff]
  constructor
  · rintro ⟨⟨i, o'⟩, hf, rfl⟩
    have hi : i = index := by simpa using List.find?_some hf
    exact hi ▸ List.mem_of_find?_eq_some hf
  · intro hm
    cases hf : u.outputs.find? fun io => io.1 == index with
    | none => exact absurd (List.find?_eq_none.mp hf _ hm) (by simp)
    | some io =>
        refine ⟨io, rfl, ?_⟩
        have hi : io.1 = index := by simpa using List.find?_some hf
        have : io = (index, o) :=
          List.inj_on_of_nodup_map hu (List.mem_of_find?_eq_some hf) hm hi
        rw [this]

omit [Core] in
/-- **Coherence, by the entries**: all hits are correct exactly where all entries fit. -/
theorem coherent_iff {db : TransactionDatabase} (hc : db.cache.WF) :
    db.Coherent ↔ db.EntriesFit := by
  constructor
  · intro h us hus
    have hcap : db.cache.capacity ≠ 0 := fun h0 => by
      rw [hc.disabled_empty h0] at hus
      cases hus
    -- the query of an output of the entry at its own height, confirmed or not
    have hq : ∀ io ∈ us.1.outputs, db.HitCorrect ⟨us.1.hash, io.1⟩ us.1.height false
        ⟨io.2, us.1.height, us.1.isCoinbase, us.1.isConfirmed⟩ := by
      intro io hio
      refine h _ _ _ _ (UnspentOutputs.getIsConfirmed_eq_some.mpr ⟨hcap, us.1, io.2, ?_⟩)
      exact ⟨hc.find_of_mem hus, (output_mem (hc.index_unique us hus)).mpr hio, by simp,
        Nat.le_refl _, rfl⟩
    obtain ⟨io₀, hio₀⟩ := List.exists_mem_of_ne_nil _ (hc.outputs_ne us hus)
    obtain ⟨slab, hs, hh, hcb, hcf, _⟩ := hq io₀ hio₀
    rw [find_false] at hs
    refine ⟨slab, hs, hh, hcb, hcf, fun io hio => ?_⟩
    obtain ⟨slab', hs', _, _, _, hm⟩ := hq io hio
    rw [find_false] at hs'
    cases hs.symm.trans hs'
    exact hm
  · intro h point forkHeight requireConfirmed hit hhit
    obtain ⟨_, u, o, hf, ho, hr, hle, rfl⟩ := UnspentOutputs.getIsConfirmed_eq_some.mp hhit
    obtain ⟨⟨n, hm⟩, hu⟩ := UnspentOutputs.find_mem hf
    obtain ⟨slab, hs, hfit⟩ := h (u, n) hm
    rw [hu] at hs
    refine ⟨slab, ?_, hfit.height_eq, hfit.coinbase_eq, hfit.confirmed_eq, ?_⟩
    · cases requireConfirmed with
      | false => rwa [find_false]
      | true =>
          refine db.find_true.mpr ⟨hs, hfit.height_eq ▸ hle, ?_⟩
          have := hfit.confirmed_eq.symm.trans (hr rfl)
          simpa using this
    · exact hfit.outputs_match _ ((output_mem (hc.index_unique _ hm)).mp ho)

/-! ## 3. What each operation needs -/

/-- The entry has the height and the flags of this place already. -/
def Placed (u : UnspentTransaction) (height position : Nat) : Prop :=
  u.height = u32 height ∧ u.isCoinbase = (u32 position == 0) ∧
    u.isConfirmed = (u32 position != unconfirmed)

/-- **When the cache stays coherent.** A confirm or unconfirm does not touch the cache: an entry of
    the hash must have the new place already. A store adds no entry where the hash keeps its old
    one: that one must fit what is stored; and a new entry must fit it where one is added. -/
def CacheKept (db : TransactionDatabase) : TransactionOp → Prop
  | .store tx height position =>
    (∀ us ∈ db.cache.unspent, us.1.hash = tx.hash → tx.outputs = [] ∨ db.cache.Survives us →
        Fits us.1 (u32 height) (u32 position) (db.outputsStored tx position)) ∧
      (db.cache.capacity ≠ 0 → tx.outputs ≠ [] →
        (∀ us, db.cache.Survives us → us.1.hash ≠ tx.hash) →
        Fits (UnspentTransaction.ofTransaction tx height
            (db.inPlace tx position || position != unconfirmed))
          (u32 height) (u32 position) (db.outputsStored tx position))
  | .spend _ _ => True
  | .unspend _ => True
  | .confirm hash height position =>
    ∀ us ∈ db.cache.unspent, us.1.hash = hash → Placed us.1 height position
  | .unconfirm hash =>
    ∀ us ∈ db.cache.unspent, us.1.hash = hash → Placed us.1 Core.unverified unconfirmed

omit [Core] in
theorem spend_cache_wf {db : TransactionDatabase} (hc : db.cache.WF) (point : Point)
    (spenderHeight : Nat) : (db.spend point spenderHeight).1.cache.WF := by
  rw [spend_cache]
  split
  · exact hc
  · exact hc.removePoint point

theorem apply_cache_wf {db : TransactionDatabase} (hc : db.cache.WF) (op : TransactionOp) :
    (db.apply op).cache.WF := by
  cases op with
  | store tx height position =>
      show (db.store tx height position).cache.WF
      rw [store_cache]
      exact hc.add ..
  | spend point spenderHeight => exact spend_cache_wf hc point spenderHeight
  | unspend point => exact spend_cache_wf hc point notSpent
  | confirm hash height position =>
      show (db.confirm hash height position).1.cache.WF
      rwa [confirm_cache]
  | unconfirm hash =>
      show (db.confirm hash _ _).1.cache.WF
      rwa [confirm_cache]

omit [Core] in
/-- `confirm` keeps the entries fitting exactly where those of the hash have the place. -/
theorem confirm_fits {db : TransactionDatabase} (h : db.EntriesFit) (hash : HashDigest)
    (height position : Nat) :
    (db.confirm hash height position).1.EntriesFit ↔
      ∀ us ∈ db.cache.unspent, us.1.hash = hash → Placed us.1 height position := by
  unfold EntriesFit
  rw [confirm_cache, confirm_slabs]
  constructor
  · intro h' us hus hh
    obtain ⟨slab, hs, _⟩ := h us hus
    obtain ⟨slab', hs', hfit⟩ := h' us hus
    rw [Stacks.modifyTop_head, if_pos hh, hs] at hs'
    cases hs'
    exact ⟨hfit.height_eq, hfit.coinbase_eq, hfit.confirmed_eq⟩
  · intro h' us hus
    obtain ⟨slab, hs, hfit⟩ := h us hus
    by_cases hh : us.1.hash = hash
    · obtain ⟨hp₁, hp₂, hp₃⟩ := h' us hus hh
      refine ⟨slab.confirm height position, ?_, hp₁, hp₂, hp₃, hfit.outputs_match⟩
      rw [Stacks.modifyTop_head, if_pos hh, hs]
      rfl
    · refine ⟨slab, ?_, hfit⟩
      rw [Stacks.modifyTop_head, if_neg hh, hs]

omit [Core] in
/-- `spend` of an output keeps every entry fitting: the output leaves the cache, or it is recorded
    as not spent again. -/
theorem spend_fits {db : TransactionDatabase} (hc : db.cache.WF) (h : db.EntriesFit)
    (point : Point) (spenderHeight : Nat) : (db.spend point spenderHeight).1.EntriesFit := by
  intro us hus
  rw [spend_cache] at hus
  -- the entry this one is left of
  have horig : ∃ us₀ ∈ db.cache.unspent, us.1.hash = us₀.1.hash ∧ us.1.height = us₀.1.height ∧
      us.1.isCoinbase = us₀.1.isCoinbase ∧ us.1.isConfirmed = us₀.1.isConfirmed ∧
      us.1.outputs ⊆ us₀.1.outputs ∧ (spenderHeight ≠ notSpent → us₀.1.hash = point.hash →
        ∀ io ∈ us.1.outputs, io.1 ≠ point.index) := by
    split at hus
    · rename_i hn
      exact ⟨us, hus, rfl, rfl, rfl, rfl, List.Subset.refl _, fun h => absurd hn h⟩
    · obtain ⟨us₀, hm, _, h₁, h₂, h₃, h₄, hsub, hne, _⟩ := UnspentOutputs.removePoint_mem hus
      refine ⟨us₀, hm, h₁, h₂, h₃, h₄, hsub.subset, fun _ => hne fun h0 => ?_⟩
      rw [hc.disabled_empty h0] at hm
      cases hm
  obtain ⟨us₀, hm, hh, h₂, h₃, h₄, hsub, hne⟩ := horig
  obtain ⟨slab, hs, hfit⟩ := h us₀ hm
  have hfit' : Fits us.1 slab.height slab.position slab.outputs :=
    ⟨h₂.trans hfit.height_eq, h₃.trans hfit.coinbase_eq, h₄.trans hfit.confirmed_eq,
      fun io hio => hfit.outputs_match io (hsub hio)⟩
  rcases db.spend_spec point spenderHeight with ⟨slab₀, _, _, _, hst⟩ | ⟨_, _, hst⟩
  · rw [hst, hh]
    by_cases hp : us₀.1.hash = point.hash
    · refine ⟨slab.spend point.index spenderHeight, ?_, hfit'.height_eq, hfit'.coinbase_eq,
        hfit'.confirmed_eq, fun io hio => ?_⟩
      · rw [Stacks.modifyTop_head, if_pos hp, hs]
        rfl
      · have hmatch := hfit'.outputs_match io hio
        show Matches ((slab.outputs.modify _ _)[io.1]?.getD _) _
        rw [List.getElem?_modify]
        by_cases hi : point.index = io.1
        · -- only an unspend reaches an output that is still cached
          have hn : spenderHeight = notSpent := by
            by_contra h
            exact hne h hp io hio hi.symm
          cases ho : slab.outputs[io.1]? with
          | none => simpa [hi, ho] using hmatch
          | some o =>
              rw [ho] at hmatch
              simp only [hi, if_true, Option.map_eq_map, Option.map_some, Option.getD_some]
              exact ⟨hmatch.1, hmatch.2.1, by simp [hn, notSpent]⟩
        · simpa [hi] using hmatch
    · refine ⟨slab, ?_, hfit'⟩
      rw [Stacks.modifyTop_head, if_neg hp, hs]
  · rw [hst, hh]
    exact ⟨slab, hs, hfit'⟩

/-- `store` keeps the entries fitting exactly where `CacheKept` says. -/
theorem store_fits {db : TransactionDatabase} (hc : db.cache.WF) (h : db.EntriesFit)
    (tx : Transaction) (height position : Nat) :
    (db.store tx height position).EntriesFit ↔ db.CacheKept (.store tx height position) := by
  obtain ⟨slab, hs, hh, hp, ho⟩ := db.store_head tx height position
  -- an entry of the hash is judged by the slab just written
  have hown (us : UnspentTransaction × Nat) (he : us.1.hash = tx.hash) :
      (∃ s, ((db.store tx height position).slabs us.1.hash).head? = some s ∧
        Fits us.1 s.height s.position s.outputs) ↔
      Fits us.1 (u32 height) (u32 position) (db.outputsStored tx position) := by
    rw [he, hs, ← hh, ← hp, ← ho]
    exact ⟨fun ⟨s, e, hf⟩ => by cases e; exact hf, fun hf => ⟨slab, rfl, hf⟩⟩
  unfold EntriesFit CacheKept
  rw [store_cache]
  constructor
  · intro h'
    refine ⟨fun us hus he hkeep => ?_, fun hcap houts hnone => ?_⟩
    · exact (hown us he).mp (h' us (hc.mem_add.mpr (.inl ⟨hus, hkeep⟩)))
    · exact (hown (_, u32 (db.cache.sequence + 1)) rfl).mp
        (h' _ (hc.mem_add.mpr (.inr ⟨hcap, houts, hnone, rfl⟩)))
  · rintro ⟨hold, hnew⟩ us hus
    rcases hc.mem_add.mp hus with ⟨hm, hkeep⟩ | ⟨hcap, houts, hnone, rfl⟩
    · by_cases he : us.1.hash = tx.hash
      · exact (hown us he).mpr (hold us hm he hkeep)
      · rw [db.store_head_ne tx height position he]
        exact h us hm
    · exact (hown _ rfl).mpr (hnew hcap houts hnone)

/-- **The step**: from a coherent table, an operation leads to a coherent one exactly where
    `CacheKept` holds. -/
theorem apply_coherent {db : TransactionDatabase} (hc : db.cache.WF) (h : db.Coherent)
    (op : TransactionOp) : (db.apply op).Coherent ↔ db.CacheKept op := by
  rw [coherent_iff (apply_cache_wf hc op)]
  have hf := (coherent_iff hc).mp h
  cases op with
  | store tx height position => exact store_fits hc hf tx height position
  | spend point spenderHeight =>
      exact iff_of_true (spend_fits hc hf point spenderHeight) trivial
  | unspend point => exact iff_of_true (spend_fits hc hf point notSpent) trivial
  | confirm hash height position => exact confirm_fits hf hash height position
  | unconfirm hash => exact confirm_fits hf hash _ _

/-! ## 4. The table without a cache -/

theorem apply_slabs (db db' : TransactionDatabase) (h : db'.slabs = db.slabs)
    (op : TransactionOp) : (db'.apply op).slabs = (db.apply op).slabs := by
  have hspend (point : Point) (spenderHeight : Nat) :
      (db'.spend point spenderHeight).1.slabs = (db.spend point spenderHeight).1.slabs := by
    have hfind : db'.find point.hash spenderHeight true = db.find point.hash spenderHeight true := by
      rw [find_eq, find_eq, h]
    rw [spend_slabs, spend_slabs, spend_result, spend_result, hfind, h]
  cases op with
  | store tx height position =>
      show (db'.store ..).slabs = (db.store ..).slabs
      rw [store_slabs, store_slabs, inPlace, inPlace, h]
  | spend point spenderHeight => exact hspend point spenderHeight
  | unspend point => exact hspend point notSpent
  | confirm hash height position =>
      show (db'.confirm ..).1.slabs = (db.confirm ..).1.slabs
      rw [confirm_slabs, confirm_slabs, h]
  | unconfirm hash =>
      show (db'.confirm ..).1.slabs = (db.confirm ..).1.slabs
      rw [confirm_slabs, confirm_slabs, h]

theorem apply_capacity (db : TransactionDatabase) (op : TransactionOp) :
    (db.apply op).cache.capacity = db.cache.capacity := by
  have hspend (point : Point) (spenderHeight : Nat) :
      (db.spend point spenderHeight).1.cache.capacity = db.cache.capacity := by
    rw [spend_cache]
    split
    · rfl
    · exact UnspentOutputs.removePoint_capacity ..
  cases op with
  | store tx height position =>
      show (db.store ..).cache.capacity = _
      rw [store_cache, UnspentOutputs.add_capacity]
  | spend point spenderHeight => exact hspend point spenderHeight
  | unspend point => exact hspend point notSpent
  | confirm hash height position =>
      show (db.confirm ..).1.cache.capacity = _
      rw [confirm_cache]
  | unconfirm hash =>
      show (db.confirm ..).1.cache.capacity = _
      rw [confirm_cache]

omit [Core] in
/-- A coherent table answers every query as one with the same slabs and no cache. -/
theorem Coherent.sameAnswers {db db' : TransactionDatabase} (h : db.Coherent)
    (hs : db'.slabs = db.slabs) (h0 : db'.cache.capacity = 0) : db.SameAnswers db' := by
  intro point forkHeight requireConfirmed
  have hfind : db'.findOutput point forkHeight requireConfirmed =
      db.findOutput point forkHeight requireConfirmed := by
    unfold findOutput
    rw [find_eq, find_eq, hs]
  have hmiss : db'.cache.getIsConfirmed point forkHeight requireConfirmed = none := by
    unfold UnspentOutputs.getIsConfirmed
    rw [if_pos (by simp [UnspentOutputs.disabled, h0])]
  have hrefl (o : Option UnspentOutputs.Hit) : Option.Rel SameHit o o := by
    cases o with
    | none => exact .none
    | some a => exact .some ⟨rfl, rfl, rfl, rfl, rfl⟩
  -- both queries of each table are its one answer, cached or found
  have key : Option.Rel SameHit (db.getOutputIsConfirmed point forkHeight requireConfirmed)
      (db'.getOutputIsConfirmed point forkHeight requireConfirmed) := by
    unfold getOutputIsConfirmed
    rw [hmiss, hfind]
    cases hhit : db.cache.getIsConfirmed point forkHeight requireConfirmed with
    | none => exact hrefl _
    | some hit =>
        obtain ⟨slab, hf, hh, hcb, hcf, hv, hsc, _⟩ := h _ _ _ _ hhit
        unfold findOutput
        rw [hf]
        exact .some ⟨hv.symm, hsc.symm, hh, hcb, hcf⟩
  have hget (d : TransactionDatabase) : d.getOutput point forkHeight requireConfirmed =
      (d.getOutputIsConfirmed point forkHeight requireConfirmed).map
        fun h => (h.output, h.height, h.coinbase) := by
    unfold getOutput getOutputIsConfirmed UnspentOutputs.get
    cases d.cache.getIsConfirmed point forkHeight requireConfirmed <;> rfl
  refine ⟨key, ?_⟩
  rw [hget, hget]
  generalize db.getOutputIsConfirmed point forkHeight requireConfirmed = a at key
  generalize db'.getOutputIsConfirmed point forkHeight requireConfirmed = b at key
  cases key with
  | none => exact .none
  | some hab =>
      obtain ⟨hv, hsc, hh, hcb, _⟩ := hab
      exact .some ⟨hv, hsc, Prod.ext hh hcb⟩

/-! ## 5. Runs -/

/-- A table and the one of capacity 0 next to it. -/
abbrev Pair := TransactionDatabase × TransactionDatabase

def applyPair (p : Pair) (op : TransactionOp) : Pair := (p.1.apply op, p.2.apply op)

/-- Every hit of the first table is correct, and its answers are those of the second. -/
def Transparent (p : Pair) : Prop := p.1.Coherent ∧ p.1.SameAnswers p.2

def createPair (buckets cacheCapacity : Nat) : Pair :=
  (create buckets cacheCapacity, create buckets 0)

/-- **The exact condition**: along a run of the table with a cache of any capacity and of the
    table without one, the cache is transparent in every state exactly where every operation of
    the run leaves the entries fitting. -/
theorem transparent_iff_cacheKept (buckets cacheCapacity : Nat) (ops : List TransactionOp) :
    Always applyPair Transparent (createPair buckets cacheCapacity) ops ↔
      EveryStep applyPair (fun p op => p.1.CacheKept op) (createPair buckets cacheCapacity) ops := by
  refine always_iff_everyStep
    (I := fun p => p.1.cache.WF ∧ p.2.slabs = p.1.slabs ∧ p.2.cache.capacity = 0) ?_ ?_ ?_ ?_
    (EveryStep.trivial _ _)
  · rintro p op ⟨hc, hs, h0⟩ - -
    exact ⟨apply_cache_wf hc op, apply_slabs p.1 p.2 hs op, (apply_capacity ..).trans h0⟩
  · rintro p op ⟨hc, hs, h0⟩ ⟨hcoh, _⟩ -
    rw [← apply_coherent hc hcoh op]
    exact ⟨fun h => h.1, fun h => ⟨h, h.sameAnswers (apply_slabs p.1 p.2 hs op)
      ((apply_capacity ..).trans h0)⟩⟩
  · refine ⟨UnspentOutputs.create_wf _, ?_, rfl⟩
    funext hash
    simp [createPair]
  · have hcoh : (create buckets cacheCapacity).Coherent := by
      refine (coherent_iff (UnspentOutputs.create_wf _)).mpr fun us hus => ?_
      cases hus
    refine ⟨hcoh, hcoh.sameAnswers ?_ rfl⟩
    funext hash
    simp [createPair]

/-- A transaction is stored in a block and the block is reorganized out. -/
def reorganization : List TransactionOp :=
  [.store (.sampleSpend 102 ⟨101, 0⟩ 2) 1 1, .unconfirm 102]

omit [Core] in
/-- The cache still answers a query for confirmed outputs, the slab does not. -/
theorem reorganization_stale :
    ¬ Always (@applyPair Core.sample) Transparent (@createPair Core.sample 1 1) reorganization := by
  intro h
  have hhit := h.last.1 ⟨102, 0⟩ 1 true ⟨⟨notSpent, 50, Script.sample 2⟩, 1, false, true⟩
    (by decide +kernel)
  obtain ⟨slab, hf, -⟩ := hhit
  have hnone : (run (@applyPair Core.sample) (@createPair Core.sample 1 1) reorganization).1.find
      102 1 true = none := by decide +kernel
  rw [hnone] at hf
  cases hf

end TransactionDatabase

end Libbitcoin.Database
