/-
  File:      BitprimDatabase/Databases/SpendMarks.lean
  Subject:   **MARKING A SPEND EDITS ONE FIELD** (transaction_database.cpp, `spend` and `unspend`): the
             four bytes in front of an output, inside a slab of any length.

  * `Mark` -- a spend or an unspend of an output; `lastMark` -- what is written last;
  * `Marked.call`, `Marked.run` -- one mark, and a run of them;
  * `MarksExact` -- each mark edits the one field, and the readers answer with the last marks;
  * **`marks_exact_iff`** -- it is so exactly where the marks fit in four bytes and four bytes count the
    outputs.
-/
import BitprimDatabase.Databases.TransactionFile

namespace Libbitcoin.Database

open Lib

namespace TransactionFile

variable {form : StoreForm} {hash : Key 32 → Nat} {disk : Disk} {f f' : TransactionFile}

/-! ## 1. Marks -/

/-- A spend or an unspend of an output of one transaction. -/
inductive Mark where
  | spend (index spenderHeight : Nat)
  | unspend (index : Nat)

namespace Mark

def index : Mark → Nat
  | spend index _ => index
  | unspend index => index

/-- What the output is marked with. -/
def height : Mark → Nat
  | spend _ spenderHeight => spenderHeight
  | unspend _ => notSpent

def call (form : StoreForm) (hash : Key 32 → Nat) (txHash : HashDigest) (f : TransactionFile) :
    Mark → Option (TransactionFile × Bool)
  | spend index spenderHeight => f.spend form hash ⟨txHash, index⟩ spenderHeight
  | unspend index => f.unspend form hash ⟨txHash, index⟩

def apply (form : StoreForm) (hash : Key 32 → Nat) (txHash : HashDigest) (f : TransactionFile)
    (mark : Mark) : Option TransactionFile :=
  (mark.call form hash txHash f).map Prod.fst

theorem call_eq (form : StoreForm) (hash : Key 32 → Nat) (txHash : HashDigest)
    (f : TransactionFile) (mark : Mark) :
    mark.call form hash txHash f = f.spend form hash ⟨txHash, mark.index⟩ mark.height := by
  cases mark <;> rfl

end Mark

/-- The last mark of an output, from the one it has on. -/
def lastFrom (start : Nat) (marks : List Mark) (index : Nat) : Nat :=
  run (fun last (mark : Mark) => if mark.index = index then mark.height else last) start marks

def lastMark (slab : TransactionSlab) (marks : List Mark) (index : Nat) : Nat :=
  lastFrom (slab.output index).spenderHeight marks index

def markedOutput (slab : TransactionSlab) (marks : List Mark) (index : Nat) : Output :=
  { slab.output index with spenderHeight := lastMark slab marks index }

/-- The slab behind the marks. -/
def markSlab (slab : TransactionSlab) (marks : List Mark) : TransactionSlab :=
  run (fun slab mark => slab.spend mark.index mark.height) slab marks

theorem length_markSlab (slab : TransactionSlab) (marks : List Mark) :
    (markSlab slab marks).outputs.length = slab.outputs.length := by
  induction marks generalizing slab with
  | nil => rfl
  | cons mark marks ih => exact (ih _).trans (List.length_modify ..)

theorem spenderOffset_markSlab (form : StoreForm) (slab : TransactionSlab) (marks : List Mark)
    (index : Nat) :
    spenderOffset form (markSlab slab marks) index = spenderOffset form slab index := by
  induction marks generalizing slab with
  | nil => rfl
  | cons mark marks ih => exact (ih _).trans (spenderOffset_spend ..)

/-- The rest of a slab stays. -/
theorem markSlab_rest (slab : TransactionSlab) (marks : List Mark) :
    markSlab slab marks = { slab with outputs := (markSlab slab marks).outputs } := by
  induction marks generalizing slab with
  | nil => rfl
  | cons mark marks ih => exact ih (slab.spend mark.index mark.height)

theorem spend_output {slab : TransactionSlab} {index : Nat} (hi : index < slab.outputs.length)
    (mark : Mark) : (slab.spend mark.index mark.height).output index =
      if mark.index = index then { slab.output index with spenderHeight := u32 mark.height }
      else slab.output index := by
  unfold TransactionSlab.output TransactionSlab.spend
  rw [List.getElem?_modify, List.getElem?_eq_getElem hi]
  split <;> rfl

/-- **The outputs behind the marks** have what four bytes keep of their last marks. -/
theorem markSlab_output (marks : List Mark) {slab : TransactionSlab} {index start : Nat}
    (hi : index < slab.outputs.length) (hs : (slab.output index).spenderHeight = u32 start) :
    (markSlab slab marks).output index =
      { slab.output index with spenderHeight := u32 (lastFrom start marks index) } := by
  induction marks generalizing slab start with
  | nil =>
      show slab.output index = { slab.output index with spenderHeight := u32 start }
      rw [← hs]
  | cons mark marks ih =>
      have hlen : index < (slab.spend mark.index mark.height).outputs.length :=
        Nat.lt_of_lt_of_eq hi (List.length_modify ..).symm
      have hout := spend_output hi mark
      have hnext : lastFrom start (mark :: marks) index =
        lastFrom (if mark.index = index then mark.height else start) marks index := rfl
      have hstart : ((slab.spend mark.index mark.height).output index).spenderHeight =
          u32 (if mark.index = index then mark.height else start) := by
        rw [hout]
        split
        · rfl
        · exact hs
      rw [hnext]
      refine (ih hlen hstart).trans ?_
      rw [hout]
      split <;> rfl

/-- The marks that four bytes keep, and outputs that four bytes count unless one is left. -/
def MarksFit (slab : TransactionSlab) (marks : List Mark) : Prop :=
  (∀ index < slab.outputs.length, lastMark slab marks index ≤ maxUint32) ∧
    (slab.outputs.length ≤ maxUint32 ∨
      ∃ index < slab.outputs.length, lastMark slab marks index = notSpent)

/-- **Marks edit the spender heights.** Each call answers whether there is the output, and writes its
    word then; afterwards the readers at the address answer with the last marks. -/
structure MarksExact (form : StoreForm) (hash : Key 32 → Nat) (txHash : HashDigest)
    (f f' : TransactionFile) (a : Nat) (slab : TransactionSlab) (marks : List Mark) : Prop where
  steps : ∀ xs mark ys, marks = xs ++ mark :: ys → ∃ f₁ f₂,
    runSome (Mark.apply form hash txHash) f xs = some f₁ ∧
      mark.call form hash txHash f₁ = some (f₂, decide (mark.index < slab.outputs.length)) ∧
        f₂.lookup = { f₁.lookup with
          bytes := spentBytes form f₁.lookup.bytes a slab mark.index mark.height }
  output : ∀ index < slab.outputs.length,
    TransactionResult.output form f'.lookup.bytes a index = markedOutput slab marks index
  transaction : TransactionResult.transaction form f'.lookup.bytes a txHash =
    { slab.transaction txHash with
      outputs := (List.range slab.outputs.length).map (markedOutput slab marks) }
  isSpent : ∀ forkHeight, ∃ fuel, TransactionResult.isSpent form f'.lookup.bytes a fuel forkHeight =
    some (decide (∀ index < slab.outputs.length,
      lastMark slab marks index ≠ notSpent ∧ lastMark slab marks index ≤ forkHeight))

/-! ## 2. Runs -/

section Marks

variable {txHash : HashDigest} {a : Nat} {slab : TransactionSlab} {marks : List Mark}

/-- The file holds some slabs, this one the newest of the hash at the address. -/
structure Marked (form : StoreForm) (hash : Key 32 → Nat) (disk : Disk) (txHash : HashDigest)
    (a : Nat) (f : TransactionFile) (slab : TransactionSlab) : Prop where
  holds : ∃ db, f.Holds form hash disk db ∧ (db.slabs txHash).head? = some slab
  place : f.At form hash txHash a slab

/-- A confirmed slab is found from its height on. -/
theorem Marked.find_eq (h : Marked form hash disk txHash a f slab)
    (hconf : slab.position ≠ unconfirmed) {forkHeight : Nat} (hle : slab.height ≤ forkHeight) :
    f.find hash txHash forkHeight true = some (some a) := by
  rw [h.place.find_eq, decide_eq_false (Nat.not_lt.mpr hle), beq_eq_false_iff_ne.mpr hconf]
  rfl

/-- **One mark.** -/
theorem Marked.call (h : Marked form hash disk txHash a f slab)
    (hconf : slab.position ≠ unconfirmed) {mark : Mark} (hle : slab.height ≤ mark.height) :
    mark.call form hash txHash f = some (f.spent form a slab ⟨txHash, mark.index⟩ mark.height,
        decide (mark.index < slab.outputs.length)) ∧
      Marked form hash disk txHash a (f.spent form a slab ⟨txHash, mark.index⟩ mark.height)
        (slab.spend mark.index mark.height) := by
  refine ⟨?_, ?_⟩
  · rw [mark.call_eq]
    exact At.spend_eq h.place (h.find_eq hconf hle)
  · obtain ⟨db, hdb, hs⟩ := h.holds
    let db' : TransactionDatabase :=
      ⟨db.lookup.write txHash (TransactionSlab.spend mark.index mark.height),
        spentCache db.cache ⟨txHash, mark.index⟩ mark.height⟩
    have hst : db'.slabs = db.slabs.modifyTop txHash (TransactionSlab.spend mark.index mark.height) :=
      Table.write_stack ..
    obtain ⟨hholds, hat⟩ := hdb.spent ⟨txHash, mark.index⟩ hs h.place mark.height hst rfl
    refine ⟨⟨db', hholds, ?_⟩, hat⟩
    rw [hst, Stacks.modifyTop_head, if_pos rfl, hs]
    rfl

/-- **A run of marks.** -/
theorem Marked.run (h : Marked form hash disk txHash a f slab) (hconf : slab.position ≠ unconfirmed)
    (hle : ∀ mark ∈ marks, slab.height ≤ mark.height) :
    ∃ f', runSome (Mark.apply form hash txHash) f marks = some f' ∧
      Marked form hash disk txHash a f' (markSlab slab marks) := by
  induction marks generalizing f slab with
  | nil => exact ⟨f, rfl, h⟩
  | cons mark marks ih =>
      obtain ⟨hmark, hmarks⟩ := List.forall_mem_cons.mp hle
      obtain ⟨hcall, h₁⟩ := h.call hconf hmark
      obtain ⟨f', hrun, h'⟩ := ih h₁ hconf hmarks
      refine ⟨f', ?_, h'⟩
      unfold runSome Mark.apply
      rw [hcall]
      exact hrun

theorem markSlab_position (slab : TransactionSlab) (marks : List Mark) :
    (markSlab slab marks).position = slab.position := by
  rw [markSlab_rest]

theorem markSlab_height (slab : TransactionSlab) (marks : List Mark) :
    (markSlab slab marks).height = slab.height := by
  rw [markSlab_rest]

/-- An output behind the marks of a slab whose fields have their widths. -/
theorem markSlab_lastMark (hw : slab.Wire) (marks : List Mark) {index : Nat}
    (hi : index < slab.outputs.length) : (markSlab slab marks).output index =
      { slab.output index with spenderHeight := u32 (lastMark slab marks index) } := by
  have hout : slab.output index = slab.outputs[index] := by
    unfold TransactionSlab.output
    rw [List.getElem?_eq_getElem hi]
    rfl
  have hle : (slab.output index).spenderHeight ≤ maxUint32 := by
    rw [hout]
    exact (hw.outputs _ (List.getElem_mem hi)).spenderHeight
  exact markSlab_output marks hi (u32_of_le hle).symm

/-- The outputs behind marks that four bytes keep. -/
theorem markSlab_outputs (hw : slab.Wire)
    (hfit : ∀ index < slab.outputs.length, lastMark slab marks index ≤ maxUint32) :
    (markSlab slab marks).outputs = (List.range slab.outputs.length).map (markedOutput slab marks) := by
  refine List.ext_getElem (by rw [length_markSlab, List.length_map, List.length_range])
    fun index hi _ => ?_
  have hi' : index < slab.outputs.length := Nat.lt_of_lt_of_eq hi (length_markSlab slab marks)
  have hout := markSlab_lastMark hw marks hi'
  rw [u32_of_le (hfit index hi')] at hout
  unfold TransactionSlab.output at hout
  rw [List.getElem?_eq_getElem hi] at hout
  rw [List.getElem_map, List.getElem_range]
  exact hout

/-- Spent behind marks that four bytes keep. -/
theorem isSpent_markSlab (hw : slab.Wire) (hconf : slab.position ≠ unconfirmed)
    (hfit : ∀ index < slab.outputs.length, lastMark slab marks index ≤ maxUint32) (forkHeight : Nat) :
    (markSlab slab marks).isSpent forkHeight = decide (∀ index < slab.outputs.length,
      lastMark slab marks index ≠ notSpent ∧ lastMark slab marks index ≤ forkHeight) := by
  unfold TransactionSlab.isSpent
  rw [markSlab_position, if_neg hconf, markSlab_outputs hw hfit, List.all_map, Bool.eq_iff_iff,
    List.all_eq_true, decide_eq_true_iff]
  refine forall_congr' fun index => ?_
  rw [List.mem_range]
  refine imp_congr_right fun _ => ?_
  show (!(lastMark slab marks index == notSpent || decide (lastMark slab marks index > forkHeight))) =
    true ↔ _
  rw [Bool.not_eq_true', Bool.or_eq_false_iff, beq_eq_false_iff_ne, decide_eq_false_iff_not,
    Nat.not_lt]

/-- **The slab behind the marks**, as the readers answer it. -/
theorem Marked.exact (h : Marked form hash disk txHash a f slab) (hconf : slab.position ≠ unconfirmed)
    (hle : ∀ mark ∈ marks, slab.height ≤ mark.height)
    (h' : Marked form hash disk txHash a f' (markSlab slab marks)) (hfit : MarksFit slab marks) :
    MarksExact form hash txHash f f' a slab marks where
  steps xs mark ys he := by
    have hxs : ∀ x ∈ xs, slab.height ≤ x.height := fun x hx =>
      hle x (he ▸ List.mem_append_left _ hx)
    have hmark : slab.height ≤ mark.height :=
      hle mark (he ▸ List.mem_append_right _ List.mem_cons_self)
    obtain ⟨f₁, hrun, h₁⟩ := h.run hconf hxs
    obtain ⟨hcall, _⟩ := h₁.call (by rwa [markSlab_position]) (by rwa [markSlab_height])
    rw [length_markSlab] at hcall
    refine ⟨f₁, _, hrun, hcall, ?_⟩
    unfold spent spentBytes
    rw [length_markSlab, spenderOffset_markSlab]
  output index hi := by
    rw [h'.place.laid.output_eq, markSlab_lastMark h.place.laid.wire marks hi, u32_of_le (hfit.1 index hi)]
    rfl
  transaction := by
    rw [h'.place.laid.transaction_eq]
    unfold TransactionSlab.transaction
    rw [markSlab_outputs h.place.laid.wire hfit.1, markSlab_rest]
  isSpent forkHeight := by
    have hspent := isSpent_markSlab h.place.laid.wire hconf hfit.1 forkHeight
    refine ⟨slab.outputs.length + 1, ?_⟩
    rw [← hspent]
    refine h'.place.laid.isSpent_eq ?_ (by rw [length_markSlab]; exact Nat.lt_succ_self _)
    rw [length_markSlab]
    refine hfit.2.imp_right fun ⟨index, hi, hn⟩ => ?_
    rw [hspent]
    exact decide_eq_false fun hall => (hall index hi).1 hn

/-- Marks that are exact fit. -/
theorem MarksExact.fit (hx : MarksExact form hash txHash f f' a slab marks) (hw : slab.Wire)
    (hlaid : Laid form f'.lookup.bytes a (markSlab slab marks)) : MarksFit slab marks := by
  have hkept : ∀ index < slab.outputs.length, lastMark slab marks index ≤ maxUint32 := by
    intro index hi
    have hout := hx.output index hi
    rw [hlaid.output_eq, markSlab_lastMark hw marks hi] at hout
    have hheight : u32 (lastMark slab marks index) = lastMark slab marks index :=
      congrArg Output.spenderHeight hout
    exact hheight ▸ u32_le _
  refine ⟨hkept, ?_⟩
  by_contra hcon
  rw [not_or] at hcon
  obtain ⟨hmax, hleft⟩ := hcon
  -- all outputs are spent at the largest height, and the loop does not get past them
  obtain ⟨fuel, hspent⟩ := hx.isSpent maxUint32
  have hall : ∀ index < slab.outputs.length,
      lastMark slab marks index ≠ notSpent ∧ lastMark slab marks index ≤ maxUint32 :=
    fun index hi => ⟨fun hn => hleft ⟨index, hi, hn⟩, hkept index hi⟩
  rw [decide_eq_true hall] at hspent
  exact hlaid.isSpent_wraps (by rw [length_markSlab]; exact Nat.lt_of_not_le hmax) fuel _ hspent

/-- The newest slab of a run, behind marks. -/
theorem marked_of_run [Core] (hd : disk.size ≤ maxObject) {buckets cacheCapacity : Nat}
    (hb : buckets < Memory.limit 4) {bytes : Memory} {f₀ : TransactionFile}
    (hc : create disk buckets cacheCapacity bytes = some f₀) {ops : List TransactionOp}
    (hw : ∀ op ∈ ops, op.Wire form)
    (hr : runSome (TransactionFile.apply form hash disk) f₀ ops = some f)
    (hs : ((run TransactionDatabase.apply (TransactionDatabase.create buckets cacheCapacity)
      ops).slabs txHash).head? = some slab) (hconf : slab.position ≠ unconfirmed)
    (hle : ∀ mark ∈ marks, slab.height ≤ mark.height) :
    ∃ a f', Marked form hash disk txHash a f slab ∧
      runSome (Mark.apply form hash txHash) f marks = some f' ∧
        Marked form hash disk txHash a f' (markSlab slab marks) := by
  have hholds := holds_of_create hd hb hc hw hr
  obtain ⟨a, ha⟩ := hholds.at_head hs
  have h : Marked form hash disk txHash a f slab := ⟨⟨_, hholds, hs⟩, ha⟩
  obtain ⟨f', hrun, h'⟩ := h.run hconf hle
  exact ⟨a, f', h, hrun, h'⟩

/-- **Spend marking edits exactly one field**, for every confirmed newest slab of every run and every
    list of marks at heights not below it, exactly where the last marks fit in four bytes and so does
    the number of outputs, or one of them is left as not spent. -/
theorem marks_exact_iff [Core] (form : StoreForm) (hash : Key 32 → Nat) {disk : Disk}
    {buckets cacheCapacity : Nat} (hd : disk.size ≤ maxObject) (hb : buckets < Memory.limit 4)
    {bytes : Memory} {f₀ f : TransactionFile} (hc : create disk buckets cacheCapacity bytes = some f₀)
    {ops : List TransactionOp} (hw : ∀ op ∈ ops, op.Wire form)
    (hr : runSome (TransactionFile.apply form hash disk) f₀ ops = some f) {txHash : HashDigest}
    {slab : TransactionSlab} (hs : ((run TransactionDatabase.apply
      (TransactionDatabase.create buckets cacheCapacity) ops).slabs txHash).head? = some slab)
    (hconf : slab.position ≠ unconfirmed) {marks : List Mark}
    (hle : ∀ mark ∈ marks, slab.height ≤ mark.height) :
    ∃ a f', (∀ forkHeight ≥ slab.height, f.find hash txHash forkHeight true = some (some a) ∧
        f'.find hash txHash forkHeight true = some (some a)) ∧
      TransactionResult.transaction form f.lookup.bytes a txHash = slab.transaction txHash ∧
      runSome (Mark.apply form hash txHash) f marks = some f' ∧
      (MarksExact form hash txHash f f' a slab marks ↔ MarksFit slab marks) := by
  obtain ⟨a, f', h, hrun, h'⟩ := marked_of_run hd hb hc hw hr hs hconf hle
  have hlaid := h.place.laid
  refine ⟨a, f', fun forkHeight hge => ⟨h.find_eq hconf hge, ?_⟩, hlaid.transaction_eq txHash, hrun,
    fun hx => hx.fit hlaid.wire h'.place.laid, h.exact hconf hle h'⟩
  exact h'.find_eq (by rwa [markSlab_position]) (by rwa [markSlab_height])

end Marks

/-! ## 3. Two outputs, and many -/

/-- Two outputs of different size. -/
def sampleStored : Transaction :=
  ⟨7, 1, 0, [⟨⟨5, 0⟩, [1, 2], maxUint32⟩], [⟨notSpent, 50, [9, 9]⟩, ⟨notSpent, 60, []⟩], false⟩

theorem sampleStored_wire : (TransactionOp.store sampleStored 5 1).Wire .sample := by
  refine ⟨⟨by decide, by decide, by decide, by decide, by decide, ?_, by decide, ?_⟩, by decide +kernel⟩
  · intro o ho
    have ho : o ∈ [⟨notSpent, 50, [9, 9]⟩, (⟨notSpent, 60, []⟩ : Output)] := ho
    rw [List.mem_cons, List.mem_singleton] at ho
    rcases ho with rfl | rfl <;> exact ⟨by decide, by decide, by decide⟩
  · intro input hi
    cases List.mem_singleton.mp hi
    exact ⟨by decide, by decide, by decide⟩

/-- Marks of both outputs, one of them taken back, and a mark past the end. -/
def sampleMarks : List Mark := [.spend 1 9, .spend 0 6, .unspend 1, .spend 2 7]

theorem sampleMarks_exact : ∃ f₀ f, create .sample 1 0 (fun _ => 0) = some f₀ ∧
    runSome (@TransactionFile.apply .sample (fun _ => 0) .sample Core.sample) f₀
      [.store sampleStored 5 1] = some f ∧
    ∃ a f', runSome (Mark.apply .sample (fun _ => 0) 7) f sampleMarks = some f' ∧
      MarksExact .sample (fun _ => 0) 7 f f' a (sampleStored.toSlab 5 1) sampleMarks := by
  have hsome : ((create .sample 1 0 fun _ => 0).bind fun f =>
      runSome (@TransactionFile.apply .sample (fun _ => 0) .sample Core.sample) f
        [.store sampleStored 5 1]).isSome = true := by decide +kernel
  obtain ⟨f, hsome⟩ := Option.isSome_iff_exists.mp hsome
  obtain ⟨f₀, hc, hr⟩ := Option.bind_eq_some_iff.mp hsome
  have hw : ∀ op ∈ [TransactionOp.store sampleStored 5 1], op.Wire .sample := by
    intro op hop
    cases List.mem_singleton.mp hop
    exact sampleStored_wire
  obtain ⟨a, f', _, _, hrun, hiff⟩ := @marks_exact_iff Core.sample .sample (fun _ => 0) .sample 1 0
    (by decide) (by decide) _ f₀ f hc _ hw hr 7 (sampleStored.toSlab 5 1) (by decide +kernel)
    (by decide) sampleMarks (by decide)
  exact ⟨f₀, f, hc, hr, a, f', hrun, hiff.mpr ⟨by decide, .inl (by decide)⟩⟩

/-- A transaction confirmed at height 5, and marks of it that are not exact. -/
def Inexact (disk : Disk) (tx : Transaction) (marks : List Mark) : Prop :=
  ∃ f₀ f, create disk 1 0 (fun _ => 0) = some f₀ ∧
    f₀.store .sample (fun _ => 0) disk tx 5 1 = some f ∧ (∀ mark ∈ marks, 5 ≤ mark.height) ∧
    ∃ a f', f.find (fun _ => 0) tx.hash 5 true = some (some a) ∧
      runSome (Mark.apply .sample (fun _ => 0) tx.hash) f marks = some f' ∧
      ¬ MarksExact .sample (fun _ => 0) tx.hash f f' a (tx.toSlab 5 1) marks

/-- Marks that do not fit are not exact. -/
theorem inexact_of_misfit (hd : disk.size ≤ maxObject) {tx : Transaction} (hp : tx.pooled = false)
    (hw : (TransactionOp.store tx 5 1).Wire .sample) {f₀ : TransactionFile}
    (hc : create disk 1 0 (fun _ => 0) = some f₀)
    (hs : f₀.store .sample (fun _ => 0) disk tx 5 1 = some f) {marks : List Mark}
    (hle : ∀ mark ∈ marks, 5 ≤ mark.height) (hnot : ¬ MarksFit (tx.toSlab 5 1) marks) :
    Inexact disk tx marks := by
  let _ : Core := Core.sample
  have hr : runSome (TransactionFile.apply .sample (fun _ => 0) disk) f₀ [.store tx 5 1] = some f := by
    show (f₀.store .sample (fun _ => 0) disk tx 5 1).bind some = _
    rw [hs]
    rfl
  have hops : ∀ op ∈ [TransactionOp.store tx 5 1], op.Wire .sample := by
    intro op hop
    cases List.mem_singleton.mp hop
    exact hw
  have hhead : ((run TransactionDatabase.apply (TransactionDatabase.create 1 0)
      [.store tx 5 1]).slabs tx.hash).head? = some (tx.toSlab 5 1) := by
    show (((TransactionDatabase.create 1 0).store tx 5 1).slabs tx.hash).head? = _
    have hplace : (TransactionDatabase.create 1 0).inPlace tx 1 = false := by
      simp [TransactionDatabase.inPlace, hp]
    rw [TransactionDatabase.store_slabs, hplace]
    simp
  obtain ⟨a, f', h, hrun, h'⟩ := marked_of_run hd (by decide) hc hops hr hhead
    (show u32 1 ≠ unconfirmed by decide) hle
  exact ⟨f₀, f, hc, hs, hle, a, f', h.find_eq (show u32 1 ≠ unconfirmed by decide) (Nat.le_refl 5),
    hrun, fun hx => hnot (hx.fit h.place.laid.wire h'.place.laid)⟩

/-- A mark that four bytes do not keep. -/
theorem tallMark_inexact : Inexact .sample sampleStored [.spend 0 4294967296] := by
  have hsome : ((create .sample 1 0 fun _ => 0).bind fun f =>
      f.store .sample (fun _ => 0) .sample sampleStored 5 1).isSome = true := by decide +kernel
  obtain ⟨f, hsome⟩ := Option.isSome_iff_exists.mp hsome
  obtain ⟨f₀, hc, hs⟩ := Option.bind_eq_some_iff.mp hsome
  have hnot : ¬ MarksFit (sampleStored.toSlab 5 1) [.spend 0 4294967296] := fun hfit =>
    absurd (hfit.1 0 (by decide)) (by decide)
  exact inexact_of_misfit (by decide) rfl sampleStored_wire hc hs (by decide) hnot

/-- A transaction of many outputs, and a mark of each of them. -/
def wideTransaction (n : Nat) : Transaction :=
  ⟨8, 1, 0, [], List.replicate n ⟨notSpent, 0, []⟩, false⟩

def wideMarks (n : Nat) : List Mark := (List.range n).map fun index => .spend index 6

theorem wideTransaction_outputs (n : Nat) :
    ((wideTransaction n).toSlab 5 1).outputs = List.replicate n ⟨notSpent, 0, []⟩ := by
  show (List.replicate n _).map Output.toStore = _
  rw [List.map_replicate]
  rfl

theorem length_wide (n : Nat) : (slabBytes .sample ((wideTransaction n).toSlab 5 1)).length =
    17 + variableSize n + 13 * n := by
  have houtputs : ((List.replicate n (⟨notSpent, 0, []⟩ : Output)).flatMap
      (outputBytes .sample)).length = 13 * n := by
    induction n with
    | zero => rfl
    | succ n ih =>
        rw [List.replicate_succ, List.flatMap_cons, List.length_append, ih]
        show 13 + 13 * n = _
        omega
  have hcount : (StoreForm.sample.write n).length = variableSize n := length_writeVariable n
  have hinputs : (StoreForm.sample.writeInputs []).length = 1 := rfl
  unfold slabBytes transactionBytes
  rw [wideTransaction_outputs]
  simp only [List.length_append, Memory.length_toLE, List.length_replicate, houtputs, hcount]
  show 4 + (4 + (4 + (4 + (variableSize n + (13 * n + (StoreForm.sample.writeInputs []).length))))) = _
  rw [hinputs]
  omega

theorem variableSize_le (n : Nat) : variableSize n ≤ 9 := by
  unfold variableSize
  split
  · decide
  · split
    · decide
    · split <;> decide

/-- One height in all marks. -/
theorem lastFrom_eq {marks : List Mark} {index height start : Nat}
    (hall : ∀ mark ∈ marks, mark.height = height)
    (hm : start = height ∨ ∃ mark ∈ marks, mark.index = index) :
    lastFrom start marks index = height := by
  induction marks generalizing start with
  | nil => exact hm.resolve_right fun ⟨_, hm, _⟩ => (nomatch hm)
  | cons mark marks ih =>
      obtain ⟨hmark, hmarks⟩ := List.forall_mem_cons.mp hall
      show lastFrom (if mark.index = index then mark.height else start) marks index = height
      by_cases hi : mark.index = index
      · rw [if_pos hi]
        exact ih hmarks (.inl hmark)
      · rw [if_neg hi]
        refine ih hmarks (hm.imp_right ?_)
        rintro ⟨x, hx, hxi⟩
        rcases List.mem_cons.mp hx with rfl | hx
        · exact absurd hxi hi
        · exact ⟨x, hx, hxi⟩

/-- **Outputs that four bytes do not count**, all of them spent. -/
theorem wide_inexact {n : Nat} (hmax : maxUint32 < n) (hn : n ≤ 4294967296) :
    Inexact .sample (wideTransaction n) (wideMarks n) := by
  have hm : maxUint32 = 4294967295 := rfl
  have hobj : maxObject = 9223372036854775807 := rfl
  have hsize : maxSize = 18446744073709551615 := rfl
  have hvar := variableSize_le n
  have hlen := length_wide n
  have hcount : ((wideTransaction n).toSlab 5 1).outputs.length = n := by
    rw [wideTransaction_outputs, List.length_replicate]
  have hw : (TransactionOp.store (wideTransaction n) 5 1).Wire .sample := by
    refine ⟨⟨show 5 ≤ maxUint32 by decide, show 1 ≤ maxUint32 by decide,
      show 1 ≤ maxUint32 by decide, Nat.zero_le _, by omega, fun o ho => ?_, Nat.zero_le _,
      fun _ hi => (nomatch hi)⟩, by omega⟩
    rw [wideTransaction_outputs] at ho
    cases List.eq_of_mem_replicate ho
    exact ⟨by decide, by decide, by decide⟩
  have hheights : ∀ mark ∈ wideMarks n, mark.height = 6 := by
    intro mark hmark
    obtain ⟨index, _, rfl⟩ := List.mem_map.mp hmark
    rfl
  have hlast : ∀ index < n, lastMark ((wideTransaction n).toSlab 5 1) (wideMarks n) index = 6 :=
    fun index hi => lastFrom_eq hheights
      (.inr ⟨.spend index 6, List.mem_map_of_mem (List.mem_range.mpr hi), rfl⟩)
  have hnot : ¬ MarksFit ((wideTransaction n).toSlab 5 1) (wideMarks n) := by
    rintro ⟨_, hfit | ⟨index, hi, hleft⟩⟩
    · rw [hcount] at hfit
      omega
    · rw [hcount] at hi
      rw [hlast index hi] at hleft
      cases hleft
  have hsome : ((create .sample 1 0 fun _ => 0).map fun f => f.lookup.logicalSize) = some 24 := by
    decide +kernel
  obtain ⟨f₀, hc, hlogical⟩ := Option.map_eq_some_iff.mp hsome
  -- the slab is far below the largest file
  have hstored : ∃ f, f₀.store .sample (fun _ => 0) .sample (wideTransaction n) 5 1 = some f := by
    let _ : Core := Core.sample
    have hempty : f₀.Holds .sample (fun _ => 0) .sample
        (run TransactionDatabase.apply (TransactionDatabase.create 1 0) []) :=
      holds_of_create (Nat.le_refl _) (by decide) hc (fun _ hop => (nomatch hop)) rfl
    obtain ⟨t, s', ht, _⟩ := hempty.slabs
    have hthrows := ht.throws (Nat.le_refl _) (hashKey 8)
      (slabBytes .sample ((wideTransaction n).toSlab 5 1))
      (show 32 + 8 + _ ≤ maxObject by omega) True.intro
    have hsize : Manager.slab.itemBytes 32
        (slabBytes .sample ((wideTransaction n).toSlab 5 1)).length =
          40 + (17 + variableSize n + 13 * n) := by
      rw [hlen]
      rfl
    rw [hlogical, hsize] at hthrows
    have hgrants : Disk.sample.Grants (24 + (40 + (17 + variableSize n + 13 * n))) :=
      Disk.ofRate_grants.mpr (by omega)
    obtain ⟨r, hr⟩ := Option.ne_none_iff_exists'.mp fun hnone =>
      Nat.not_lt.mpr (hgrants _ (Nat.le_refl _)) (hthrows.mp hnone).2
    refine ⟨⟨r.1, f₀.cache.add (wideTransaction n) 5 true⟩, ?_⟩
    show f₀.storeNew .sample (fun _ => 0) .sample (wideTransaction n) 5 1 = _
    unfold storeNew
    rw [← slabBytes_toSlab]
    show (f₀.lookup.store (fun _ => 0) .sample (hashKey 8) _).map _ = _
    rw [hr]
    rfl
  obtain ⟨f, hs⟩ := hstored
  refine inexact_of_misfit (Nat.le_refl _) rfl hw hc hs (fun mark hmark => ?_) hnot
  rw [hheights mark hmark]
  decide

/-- Marks that are not exact: the spender height 2 ^ 32, and 2 ^ 32 outputs. -/
theorem marks_inexact : Inexact .sample sampleStored [.spend 0 4294967296] ∧
    Inexact .sample (wideTransaction 4294967296) (wideMarks 4294967296) :=
  ⟨tallMark_inexact, wide_inexact (by decide) (Nat.le_refl _)⟩

end TransactionFile

end Libbitcoin.Database
