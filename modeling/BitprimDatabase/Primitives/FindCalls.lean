/-
  File:      BitprimDatabase/Primitives/FindCalls.lean
  Subject:   **A READER NEXT TO A WRITER** (slab_hash_table.ipp, record_hash_table.ipp): the single
             reads of one `find`, interleaved with the writes of stores and unlinks that one writer
             makes one after another. The reader takes no lock across its reads.

  * `Writing`, `Reading`, `Event`, `step` -- a store is three writes: the item, its link, the bucket;
    an unlink is one; the run of a call ends where the call returns;
  * `Sees` -- what the reader reads is a table: the items stored before, whatever the writer is in
    the middle of;
  * `Inv` -- the reader stands on a trail of items linked since its first read, and no way leads
    around an item that stays linked;
  * **`find_amid_writes`** -- sound, complete, and at most two reads for each item.
-/
import Mathlib.Data.List.Induction
import BitprimDatabase.Lib.Walker
import BitprimDatabase.Primitives.TableCalls

namespace Libbitcoin.Database

open Lib

namespace TableFile

variable {m : Manager} {keySize : Nat}

/-! ## 1. The reads and the writes -/

/-- Where the writer is in a store. -/
inductive Writing (keySize : Nat) where
  | idle
  | created (key : Key keySize) (item : Nat)
  | prepared (key : Key keySize) (item : Nat)

/-- Where the reader is in `find`: what it does next, or what it returned. -/
inductive Reading where
  | begin
  | compare (current : Nat)
  | next (current : Nat)
  | done (result : Option Nat)
  deriving DecidableEq

/-- A file, its writer and its reader. -/
structure Shared (m : Manager) (keySize : Nat) where
  file : TableFile m keySize
  writer : Writing keySize
  reader : Reading

/-- A write of the writer or a read of the reader. -/
inductive Event (keySize : Nat) where
  | create (key : Key keySize) (value : List UInt8)
  | linkNext
  | linkBucket
  | unlink (key : Key keySize)
  | read

section Step

variable (hash : Key keySize → Nat) (disk : Disk)

/-- A write of the writer, `none` where it is not the next one, or throws. A key it unlinks is
    present. -/
def write (f : TableFile m keySize) : Writing keySize → Event keySize →
    Option (TableFile m keySize × Writing keySize)
  | .idle, .create key value => (f.createItem disk key value).map fun r => (r.1, .created key r.2)
  | .created key item, .linkNext =>
    some (f.writeNextPosition item (f.readBucketValue hash key), .prepared key item)
  | .prepared key item, .linkBucket => some (f.link hash key item, .idle)
  | .idle, .unlink key =>
    if ((f.find hash (f.count + 1) key).bind id).isSome then
      (f.unlink hash f.count key).map fun r => (r.1, .idle)
    else none
  | _, _ => none

/-- A read of the reader. -/
def read (f : TableFile m keySize) (key : Key keySize) : Reading → Reading
  | .begin =>
    if f.readBucketValue hash key = empty m then .done none
    else .compare (f.readBucketValue hash key)
  | .compare current => if f.compare current key then .done (some current) else .next current
  | .next current =>
    if f.nextPosition current = current then .done none
    else if f.nextPosition current = empty m then .done none
    else .compare (f.nextPosition current)
  | .done result => .done result

/-- The next event; the run ends where the call returned. -/
def step (key : Key keySize) (s : Shared m keySize) (e : Event keySize) :
    Option (Shared m keySize) :=
  match s.reader, e with
  | .done _, _ => none
  | reader, .read => some { s with reader := s.file.read hash key reader }
  | _, e => (s.file.write hash disk s.writer e).map fun r => { s with file := r.1, writer := r.2 }

/-- The events in order. -/
def runEvents (key : Key keySize) : Shared m keySize → List (Event keySize) →
    Option (Shared m keySize)
  | s, [] => some s
  | s, e :: events => (step hash disk key s e).bind fun s => runEvents key s events

end Step

/-- The values a writer stores fit. -/
def Event.Allowed (m : Manager) : Event keySize → Prop
  | .create _ value => m.Fits value ∧ m.itemBytes keySize value.length ≤ maxObject
  | _ => True

/-- The number of items created. -/
def creates : List (Event keySize) → Nat
  | [] => 0
  | .create _ _ :: events => creates events + 1
  | _ :: events => creates events

/-- The number of reads. -/
def reads : List (Event keySize) → Nat
  | [] => 0
  | .read :: events => reads events + 1
  | _ :: events => reads events

/-- Following the links from a position comes to an item. -/
inductive Reaches (f : TableFile m keySize) : Nat → Nat → Prop where
  | here (item : Nat) (h : item ≠ empty m) : Reaches f item item
  | next (current item : Nat) (h : current ≠ empty m)
      (hn : Reaches f (f.nextPosition current) item) : Reaches f current item

/-- The item is linked in the bucket of the key. -/
def InBucket (hash : Key keySize → Nat) (f : TableFile m keySize) (key : Key keySize) (item : Nat) :
    Prop := Reaches f (f.readBucketValue hash key) item

variable {hash : Key keySize → Nat} {disk : Disk} {f f' : TableFile m keySize}
  {t t' : HashTable (Key keySize) (List UInt8)}

/-! ## 2. What the reader sees -/

/-- **What is read is the table.** -/
structure Sees (hash : Key keySize → Nat) (f : TableFile m keySize)
    (t : HashTable (Key keySize) (List UInt8)) : Prop where
  bucket : ∀ key, f.readBucketValue hash key = encode m (t.readBucketValue key)
  compare : ∀ p r, t.row p = some r → ∀ key, f.compare p key = decide (r.key = key)
  next : ∀ p r, t.row p = some r → f.nextPosition p = encode m r.next
  item : ∀ p r, t.row p = some r → p ≠ empty m

theorem Rep.sees (h : Rep hash f t) (hw : t.WF) : Sees hash f t :=
  ⟨h.readBucketValue_eq, fun _ _ hr => h.compare_eq hr, h.next,
    fun p r hr => Nat.ne_of_lt (h.item_lt (hw.row_lt p r hr))⟩

/-- Writes behind the counter are not seen. -/
theorem Rep.sees_of_bytes (h : Rep hash f t) (hw : t.WF) (hh : f'.headerSize = f.headerSize)
    (hb : f'.buckets = f.buckets) (he : ∀ i < f.address f.count, f'.bytes i = f.bytes i) :
    Sees hash f' t := by
  have hlog := h.address_count
  have hsees := (h.frame hw fun i hi _ => he i (hlog ▸ hi)).sees hw
  cases f'
  cases hh
  cases hb
  exact ⟨hsees.bucket, hsees.compare, hsees.next, hsees.item⟩

/-- The items a chain of links leads to. -/
theorem Sees.reaches_iff (h : Sees hash f t) {head : Option Nat} {ps : List Nat}
    (hc : Chain t.next head ps) (hps : ∀ p ∈ ps, ∃ r, t.row p = some r) (item : Nat) :
    Reaches f (encode m head) item ↔ item ∈ ps := by
  induction hc with
  | nil =>
      refine ⟨fun hr => ?_, fun hm => nomatch hm⟩
      cases hr with
      | here _ hne => exact absurd rfl hne
      | next _ _ hne _ => exact absurd rfl hne
  | cons p ps _ ih =>
      obtain ⟨r, hr⟩ := hps p List.mem_cons_self
      have hn : t.next p = r.next := by simp [HashTable.next, hr]
      have ih := ih fun q hq => hps q (List.mem_cons_of_mem _ hq)
      rw [hn, ← h.next p r hr] at ih
      constructor
      · intro hreach
        cases hreach with
        | here _ _ => exact List.mem_cons_self
        | next _ _ _ hn => exact List.mem_cons_of_mem _ (ih.mp hn)
      · intro hm
        rcases List.mem_cons.mp hm with rfl | hm
        · exact .here _ (h.item _ r hr)
        · exact .next p _ (h.item p r hr) (ih.mpr hm)

theorem Sees.inBucket_iff (h : Sees hash f t) (hw : t.WF) (key : Key keySize) (item : Nat) :
    f.InBucket hash key item ↔ item ∈ t.chain (t.bucketIndex key) := by
  unfold InBucket
  rw [h.bucket key]
  exact h.reaches_iff (hw.chain _) (fun p hp => (hw.mem_chain hp).imp fun _ hr => hr.1) item

/-! ## 3. What the writer does -/

/-- An item is created behind the counter. -/
theorem createItem_eq {key : Key keySize} {value : List UInt8} {item : Nat}
    (hc : f.createItem disk key value = some (f', item)) :
    f'.headerSize = f.headerSize ∧ f'.buckets = f.buckets ∧ item = f.count ∧
      (∀ i < f.address f.count, f'.bytes i = f.bytes i) ∧
      f'.count ≤ f.count + m.extent keySize value.length := by
  unfold createItem newItem at hc
  rw [Option.map_map] at hc
  obtain ⟨size, _, hc⟩ := Option.map_eq_some_iff.mp hc
  cases hc
  refine ⟨rfl, rfl, rfl, fun i hi => ?_, Nat.mod_le _ _⟩
  show Memory.write (Memory.write f.bytes (f.address f.count) key.val) (f.data f.count) value i = _
  have hdata : f.data f.count = f.address f.count + m.prefixSize keySize := rfl
  rw [Memory.write_outside _ (.inl (by omega)), Memory.write_outside _ (.inl (by omega))]

/-- **What the file holds while the writer is in a store**: the table before it, and an item that
    nothing links yet. -/
structure Pending (hash : Key keySize → Nat) (disk : Disk) (f₀ f₁ : TableFile m keySize)
    (t : HashTable (Key keySize) (List UInt8)) (key : Key keySize) (value : List UInt8) (item : Nat) :
    Prop where
  holding : Holding hash disk f₀ t t.stack
  fits : m.Fits value
  size_le : m.itemBytes keySize value.length ≤ maxObject
  room : m.Room f₀.count
  created : f₀.createItem disk key value = some (f₁, item)

/-- Where the writer is, and what the file holds. -/
def WriterInv (hash : Key keySize → Nat) (disk : Disk) (f : TableFile m keySize)
    (t : HashTable (Key keySize) (List UInt8)) : Writing keySize → Prop
  | .idle => Holding hash disk f t t.stack
  | .created key item => ∃ f₀ value, Pending hash disk f₀ f t key value item
  | .prepared key item => ∃ f₀ f₁ value, Pending hash disk f₀ f₁ t key value item ∧
      f = f₁.writeNextPosition item (f₁.readBucketValue hash key)

/-- What a write does to the table that is seen. -/
inductive Edit (t : HashTable (Key keySize) (List UInt8)) :
    HashTable (Key keySize) (List UInt8) → Prop where
  | same : Edit t t
  | store (key : Key keySize) (value : List UInt8) (extent : Nat) (h : 0 < extent) :
      Edit t (t.store key value extent).1
  | unlink (t' : HashTable (Key keySize) (List UInt8)) (key : Key keySize) (xs ys : List Nat)
      (p : Nat) (h : HashTable.Unlinks t t' key xs ys p) : Edit t t'

theorem WriterInv.wf {w : Writing keySize} (h : WriterInv hash disk f t w) : t.WF := by
  cases w with
  | idle => exact Holding.wf h
  | created key item =>
      obtain ⟨_, _, h⟩ := h
      exact h.holding.wf
  | prepared key item =>
      obtain ⟨_, _, _, h, _⟩ := h
      exact h.holding.wf

/-- **The reader sees the table at every moment.** -/
theorem WriterInv.sees {w : Writing keySize} (h : WriterInv hash disk f t w) : Sees hash f t := by
  have hw := h.wf
  cases w with
  | idle => exact (Holding.rep h).sees hw
  | created key item =>
      obtain ⟨f₀, value, h⟩ := h
      obtain ⟨hh, hb, _, he, _⟩ := createItem_eq h.created
      exact h.holding.rep.sees_of_bytes hw hh hb he
  | prepared key item =>
      obtain ⟨f₀, f₁, value, h, rfl⟩ := h
      obtain ⟨hh, hb, rfl, he, _⟩ := createItem_eq h.created
      refine h.holding.rep.sees_of_bytes hw hh hb fun i hi => ?_
      have haddr : f₁.address f₀.count = f₀.address f₀.count := by
        unfold address
        rw [hh]
      show Memory.writeWord _ _ _ _ i = _
      rw [Memory.writeWord_outside _ (.inl (by omega)), he i hi]

/-- **One write.** -/
theorem WriterInv.write {w w' : Writing keySize} {e : Event keySize}
    (h : WriterInv hash disk f t w) (hd : disk.size ≤ maxObject) (he : e.Allowed m)
    (hroom : ∀ key value, e = .create key value → m.Room f.count)
    (hw : f.write hash disk w e = some (f', w')) :
    ∃ t', WriterInv hash disk f' t' w' ∧ Edit t t' ∧
      ∀ v, m = .record v → f'.count ≤ f.count + creates [e] := by
  cases w with
  | idle =>
      have h : Holding hash disk f t t.stack := h
      cases e with
      | create key value =>
          obtain ⟨⟨f₁, item⟩, hc, he'⟩ := Option.map_eq_some_iff.mp hw
          cases he'
          refine ⟨t, ⟨f, value, h, he.1, he.2, hroom key value rfl, hc⟩, .same, fun v hv => ?_⟩
          have hone : m.extent keySize value.length = 1 := by rw [hv]; rfl
          obtain ⟨_, _, _, _, hle⟩ := createItem_eq hc
          rwa [hone] at hle
      | unlink key =>
          have hfind : f.find hash (f.count + 1) key = some (t.find key) :=
            h.rep.find_eq h.wf key (Nat.lt_succ_self _)
          unfold TableFile.write at hw
          dsimp only at hw
          rw [hfind] at hw
          obtain ⟨hf, hw⟩ := Option.ite_none_right_eq_some.mp hw
          obtain ⟨p, hf⟩ := Option.isSome_iff_exists.mp hf
          have hf : t.find key = some p := hf
          obtain ⟨v, vs, hs⟩ := List.exists_cons_of_ne_nil fun he => by
            rw [h.wf.find_none.mpr he] at hf
            cases hf
          obtain ⟨t', xs, ys, p, hu, hun⟩ := h.wf.unlink_unlinks hs
          obtain ⟨f₁, hf₁, hrep, hl, hcount⟩ := h.rep.unlink h.wf hu
          rw [hf₁] at hw
          cases hw
          exact ⟨t', ⟨hrep, hun.wf, rfl, hl ▸ h.fits⟩, .unlink t' key xs ys p hun,
            fun _ _ => Nat.le_of_eq hcount⟩
      | linkNext => cases hw
      | linkBucket => cases hw
      | read => cases hw
  | created key item =>
      cases e with
      | linkNext =>
          cases hw
          obtain ⟨f₀, value, h⟩ := h
          exact ⟨t, ⟨f₀, f, value, h, rfl⟩, .same, fun _ _ => Nat.le_refl _⟩
      | create key value => cases hw
      | linkBucket => cases hw
      | unlink key => cases hw
      | read => cases hw
  | prepared key item =>
      cases e with
      | linkBucket =>
          cases hw
          obtain ⟨f₀, f₁, value, h, rfl⟩ := h
          have hext := m.extent_pos keySize value.length
          have hs : f₀.store hash disk key value = some
              ((f₁.writeNextPosition item (f₁.readBucketValue hash key)).link hash key item,
                offset m keySize item) := by
            unfold store
            rw [h.created]
            rfl
          obtain ⟨hrep, _, hl, _⟩ := h.holding.rep.store h.holding.wf hd h.holding.fits key h.fits
            h.size_le h.room hs
          exact ⟨_, ⟨hrep, h.holding.wf.store key value hext, rfl, hl⟩, .store key value _ hext,
            fun _ _ => Nat.le_refl _⟩
      | create key value => cases hw
      | linkNext => cases hw
      | unlink key => cases hw
      | read => cases hw

/-! ## 4. What the reader does -/

/-- **Where the reader may stand**: on the items `V` linked since its first read, and on what their
    links lead to. -/
structure ReaderInv (t : HashTable (Key keySize) (List UInt8)) (key : Key keySize) (V : Nat → Prop)
    (reader : Reading) : Prop where
  trail : reader ≠ .begin → Trail t.next (t.chain (t.bucketIndex key)) V
  row : ∀ p, V p → ∃ r, t.row p = some r ∧ t.bucketIndex r.key = t.bucketIndex key
  none_yet : reader = .begin → ∀ p, ¬ V p
  compare : ∀ current, reader = .compare current → V current
  next : ∀ current, reader = .next current → V current

/-- **The item is in front of the reader.** -/
structure Ahead (t : HashTable (Key keySize) (List UInt8)) (key : Key keySize) (V : Nat → Prop)
    (reader : Reading) (item : Nat) : Prop where
  leads : reader ≠ .begin → Leads t.next (t.chain (t.bucketIndex key)) V item
  compare : ∀ current, reader = .compare current → item ≤ current
  next : ∀ current, reader = .next current → item < current
  done : reader ≠ .done none

section Reader

variable {key : Key keySize} {V W : Nat → Prop} {reader : Reading}

/-- The chain of a bucket and its links, behind an edit. -/
theorem Edit.kept (h : Edit t t') (hw : t.WF) : t'.WF ∧
    (∀ k, t'.bucketIndex k = t.bucketIndex k) ∧
    ∀ p r, t.row p = some r → ∃ r', t'.row p = some r' ∧ r'.key = r.key := by
  cases h with
  | same => exact ⟨hw, fun _ => rfl, fun p r hr => ⟨r, hr, rfl⟩⟩
  | store key value extent hext =>
      refine ⟨hw.store key value hext, fun _ => rfl, fun p r hr => ⟨r, ?_, rfl⟩⟩
      have := hw.row_lt p r hr
      rw [HashTable.store_row, if_neg (by omega)]
      exact hr
  | unlink _ key xs ys p h =>
      refine ⟨h.wf, h.bucketIndex_eq, fun q r hr => ?_⟩
      have hk := h.key_eq q
      rw [hr] at hk
      exact Option.map_eq_some_iff.mp hk

/-- **A write keeps the trail of a bucket**, and every item that stays linked on it. -/
theorem Edit.trail (h : Edit t t') (hw : t.WF) {b : Nat}
    (hrow : ∀ p, V p → ∃ r, t.row p = some r ∧ t.bucketIndex r.key = b)
    (ht : Trail t.next (t.chain b) V) (hW : ∀ p, W p ↔ V p ∨ p ∈ t'.chain b) :
    Trail t'.next (t'.chain b) W ∧ ∀ item, Leads t.next (t.chain b) V item → item ∈ t'.chain b →
      Leads t'.next (t'.chain b) W item := by
  have hsame (hsub : ∀ p ∈ t'.chain b, V p) : W = V :=
    funext fun p => propext ((hW p).trans ⟨fun hp => hp.elim id (hsub p), .inl⟩)
  cases h with
  | same =>
      rw [hsame ht.chain]
      exact ⟨ht, fun item hl _ => hl⟩
  | store key value extent hext =>
      have hnext (p : Nat) (hp : V p) : (t.store key value extent).1.next p = t.next p := by
        obtain ⟨r, hr, _⟩ := hrow p hp
        have := hw.row_lt p r hr
        unfold HashTable.next
        rw [HashTable.store_row, if_neg (by omega)]
      have hchain := hw.store_chain key value hext b
      by_cases hb : b = t.bucketIndex key
      · rw [if_pos hb] at hchain
        have hfree : (t.store key value extent).1.next t.free = t.bucket b := by
          unfold HashTable.next
          rw [HashTable.store_row, if_pos rfl, hb]
          rfl
        have hWV : W = fun p => V p ∨ p = t.free := by
          funext p
          refine propext ((hW p).trans ?_)
          rw [hchain, List.mem_cons]
          constructor
          · rintro (hp | hp | hp)
            · exact .inl hp
            · exact .inr hp
            · exact .inl (ht.chain p hp)
          · rintro (hp | hp)
            · exact .inl hp
            · exact .inr (.inl hp)
        rw [hchain, hWV]
        exact ⟨ht.push (hw.chain b) hfree hnext,
          fun item hl _ => hl.push hw.descends (hw.chain b) hfree hnext⟩
      · rw [if_neg hb] at hchain
        rw [hsame fun p hp => ht.chain p (hchain ▸ hp), hchain]
        exact ⟨ht.congr hnext, fun item hl _ => hl.congr hnext⟩
  | unlink _ key xs ys q h =>
      by_cases hb : b = t.bucketIndex key
      · subst hb
        have hch := hw.chain (t.bucketIndex key)
        rw [h.chain_before] at ht hch
        have hskip := ht.skip h.next_eq
        rw [h.chain_after] at hsame ⊢
        rw [hsame hskip.chain]
        refine ⟨hskip, fun item hl hm => ?_⟩
        rw [h.chain_before] at hl
        refine hl.skip h.next_eq ht hch hm ?_
        rintro rfl
        have hnd := hch.nodup hw.descends
        rw [List.nodup_append, List.nodup_cons] at hnd
        rcases List.mem_append.mp hm with hm | hm
        · exact hnd.2.2 item hm item List.mem_cons_self rfl
        · exact hnd.2.1.1 hm
      · have hnext (p : Nat) (hp : V p) : t'.next p = t.next p := by
          refine (h.next_eq p).resolve_right ?_
          rintro ⟨⟨ws, rfl⟩, _⟩
          -- the item in front of the skipped one is in the other bucket
          have hmem : p ∈ t.chain (t.bucketIndex key) := by
            rw [h.chain_before]
            simp
          obtain ⟨r, hr, hbr⟩ := hw.mem_chain hmem
          obtain ⟨r', hr', hbr'⟩ := hrow p hp
          cases hr.symm.trans hr'
          exact hb (hbr'.symm.trans hbr)
        have hchain := h.chain_other b hb
        rw [hsame fun p hp => ht.chain p (hchain ▸ hp), hchain]
        exact ⟨ht.congr hnext, fun item hl _ => hl.congr hnext⟩

/-- **A write keeps the reader on its trail**, and the items that stay linked in front of it. -/
theorem ReaderInv.edit (h : ReaderInv t key V reader) (hw : t.WF) (he : Edit t t')
    (hW : ∀ p, W p ↔ V p ∨ (reader ≠ .begin ∧ p ∈ t'.chain (t'.bucketIndex key))) :
    ReaderInv t' key W reader ∧ ∀ item, Ahead t key V reader item →
      (reader ≠ .begin → item ∈ t'.chain (t'.bucketIndex key)) → Ahead t' key W reader item := by
  obtain ⟨hw', hb, hkept⟩ := he.kept hw
  have hW' (hne : reader ≠ .begin) (p : Nat) : W p ↔ V p ∨ p ∈ t'.chain (t.bucketIndex key) := by
    rw [hW p, hb, and_iff_right hne]
  have htrail (hne : reader ≠ .begin) := he.trail hw h.row (h.trail hne) (hW' hne)
  refine ⟨⟨fun hne => ?_, fun p hp => ?_, fun hbegin p hp => ?_, fun c hc => ?_, fun c hc => ?_⟩,
    fun item ha hm => ⟨fun hne => ?_, ha.compare, ha.next, ha.done⟩⟩
  · rw [hb]
    exact (htrail hne).1
  · rcases (hW p).mp hp with hp | ⟨_, hp⟩
    · obtain ⟨r, hr, hbr⟩ := h.row p hp
      obtain ⟨r', hr', hk⟩ := hkept p r hr
      refine ⟨r', hr', ?_⟩
      rw [hk, hb, hb, hbr]
    · exact hw'.mem_chain hp
  · rcases (hW p).mp hp with hp | ⟨hne, _⟩
    · exact h.none_yet hbegin p hp
    · exact hne hbegin
  · exact (hW c).mpr (.inl (h.compare c hc))
  · exact (hW c).mpr (.inl (h.next c hc))
  · rw [hb]
    exact (htrail hne).2 item (ha.leads hne) (hb key ▸ hm hne)

/-- The first read is the bucket of the table. -/
theorem Sees.read_begin (h : Sees hash f t) (hw : t.WF) (key : Key keySize) :
    f.read hash key .begin = match t.readBucketValue key with
      | none => .done none
      | some p => .compare p := by
  unfold TableFile.read
  dsimp only
  rw [h.bucket key]
  cases hb : t.readBucketValue key with
  | none => exact if_pos rfl
  | some p =>
      obtain ⟨r, hr, _⟩ := hw.bucket_row _ p hb
      exact if_neg (h.item p r hr)

/-- A read of a link is the link of the table, and never the item itself. -/
theorem Sees.read_next (h : Sees hash f t) (hw : t.WF) (key : Key keySize) {current : Nat}
    {r : Row (Key keySize) (List UInt8)} (hr : t.row current = some r) :
    f.read hash key (.next current) = match r.next with
      | none => .done none
      | some q => .compare q := by
  unfold TableFile.read
  dsimp only
  rw [h.next current r hr]
  cases hn : r.next with
  | none =>
      have hempty : encode m none = empty m := rfl
      rw [if_neg (hempty ▸ (h.item current r hr).symm), if_pos hempty]
  | some q =>
      obtain ⟨hlt, r', hr', _⟩ := hw.next_row current r q hr hn
      rw [show encode m (some q) = q from rfl, if_neg (Nat.ne_of_lt hlt), if_neg (h.item q r' hr')]

/-- The first read finds the chain. -/
theorem ReaderInv.read_begin (h : ReaderInv t key V .begin) (hw : t.WF) (hs : Sees hash f t)
    (hW : ∀ p, W p ↔ V p ∨ p ∈ t.chain (t.bucketIndex key)) :
    ReaderInv t key W (f.read hash key .begin) ∧ ∀ item, item ∈ t.chain (t.bucketIndex key) →
      Ahead t key W (f.read hash key .begin) item := by
  have hch := hw.chain (t.bucketIndex key)
  have hWc : W = (· ∈ t.chain (t.bucketIndex key)) :=
    funext fun p => propext ((hW p).trans (or_iff_right (h.none_yet rfl p)))
  have hrow : ∀ p, W p → ∃ r, t.row p = some r ∧ t.bucketIndex r.key = t.bucketIndex key := by
    rw [hWc]
    exact fun p hp => hw.mem_chain hp
  have htrail : Trail t.next (t.chain (t.bucketIndex key)) W := hWc ▸ hch.trail
  have hleads (item : Nat) (hm : item ∈ t.chain (t.bucketIndex key)) :
      Leads t.next (t.chain (t.bucketIndex key)) W item := hWc ▸ hch.leads hw.descends hm
  rw [hs.read_begin hw]
  cases hb : t.readBucketValue key with
  | none =>
      refine ⟨⟨fun _ => htrail, hrow, Reading.noConfusion, fun _ => Reading.noConfusion,
        fun _ => Reading.noConfusion⟩, fun item hm => ?_⟩
      obtain ⟨q, hq, _⟩ := hch.head_le hw.descends hm
      cases hb.symm.trans hq
  | some p =>
      have hp : p ∈ t.chain (t.bucketIndex key) := hw.mem_chain_bucket hb
      refine ⟨⟨fun _ => htrail, hrow, Reading.noConfusion, fun c hc => ?_,
        fun _ => Reading.noConfusion⟩, fun item hm => ⟨fun _ => hleads item hm, fun c hc => ?_,
        fun _ => Reading.noConfusion, Reading.noConfusion⟩⟩
      · cases hc
        rw [hWc]
        exact hp
      · cases hc
        obtain ⟨q, hq, hle⟩ := hch.head_le hw.descends hm
        cases hb.symm.trans hq
        exact hle

/-- **A read.** -/
theorem ReaderInv.read (h : ReaderInv t key V reader) (hw : t.WF) (hs : Sees hash f t)
    (hW : ∀ p, W p ↔ V p ∨ p ∈ t.chain (t.bucketIndex key)) :
    ReaderInv t key W (f.read hash key reader) ∧ ∀ item, Ahead t key V reader item →
      item ∈ t.chain (t.bucketIndex key) → f.compare item key = true →
      Ahead t key W (f.read hash key reader) item := by
  by_cases hbegin : reader = .begin
  · subst hbegin
    obtain ⟨hinv, hahead⟩ := h.read_begin hw hs hW
    exact ⟨hinv, fun item _ hm _ => hahead item hm⟩
  have htrail := h.trail hbegin
  have hWV : W = V :=
    funext fun p => propext ((hW p).trans ⟨fun hp => hp.elim id (htrail.chain p), .inl⟩)
  rw [hWV]
  cases reader with
  | begin => exact absurd rfl hbegin
  | compare c =>
      have hV := h.compare c rfl
      unfold TableFile.read
      dsimp only
      split
      · exact ⟨⟨fun _ => htrail, h.row, Reading.noConfusion, fun _ => Reading.noConfusion,
          fun _ => Reading.noConfusion⟩, fun item ha _ _ => ⟨fun _ => ha.leads hbegin,
          fun _ => Reading.noConfusion, fun _ => Reading.noConfusion, fun he => by cases he⟩⟩
      · rename_i hne
        refine ⟨⟨fun _ => htrail, h.row, Reading.noConfusion, fun _ => Reading.noConfusion,
          fun c' hc => by cases hc; exact hV⟩, fun item ha _ hk => ⟨fun _ => ha.leads hbegin,
          fun _ => Reading.noConfusion, fun c' hc => ?_, Reading.noConfusion⟩⟩
        cases hc
        refine Nat.lt_of_le_of_ne (ha.compare c rfl) ?_
        rintro rfl
        exact hne hk
  | next c =>
      obtain ⟨r, hr, _⟩ := h.row c (h.next c rfl)
      have hn : t.next c = r.next := by simp [HashTable.next, hr]
      rw [hs.read_next hw key hr]
      cases hrn : r.next with
      | none =>
          refine ⟨⟨fun _ => htrail, h.row, Reading.noConfusion, fun _ => Reading.noConfusion,
            fun _ => Reading.noConfusion⟩, fun item ha _ _ => ?_⟩
          obtain ⟨q, hq, _⟩ := (ha.leads hbegin).above c (h.next c rfl) (ha.next c rfl)
          rw [hn, hrn] at hq
          cases hq
      | some q =>
          have hq : V q := htrail.closed c q (h.next c rfl) (hn.trans hrn)
          refine ⟨⟨fun _ => htrail, h.row, Reading.noConfusion, fun c' hc => by cases hc; exact hq,
            fun _ => Reading.noConfusion⟩, fun item ha _ _ => ⟨fun _ => ha.leads hbegin,
            fun c' hc => ?_, fun _ => Reading.noConfusion, Reading.noConfusion⟩⟩
          cases hc
          obtain ⟨q', hq', hle⟩ := (ha.leads hbegin).above c (h.next c rfl) (ha.next c rfl)
          rw [hn, hrn] at hq'
          cases hq'
          exact hle
  | done result =>
      refine ⟨⟨fun _ => htrail, h.row, Reading.noConfusion, fun _ => Reading.noConfusion,
        fun _ => Reading.noConfusion⟩, fun item ha _ _ => ?_⟩
      exact ⟨fun _ => ha.leads hbegin, fun _ => Reading.noConfusion, fun _ => Reading.noConfusion,
        ha.done⟩

theorem read_ne_begin (hash : Key keySize → Nat) (f : TableFile m keySize) (key : Key keySize)
    (reader : Reading) : f.read hash key reader ≠ .begin := by
  cases reader <;> unfold TableFile.read <;> dsimp only
  · split <;> exact Reading.noConfusion
  · split <;> exact Reading.noConfusion
  · split
    · exact Reading.noConfusion
    · split <;> exact Reading.noConfusion
  · exact Reading.noConfusion

/-- What is left to read: two reads for each position not yet passed. -/
def left : Reading → Nat
  | .begin => 0
  | .compare current => 2 * current + 2
  | .next current => 2 * current + 1
  | .done _ => 0

/-- A read takes the reader further. -/
theorem ReaderInv.left_lt (h : ReaderInv t key V reader) (hw : t.WF) (hs : Sees hash f t)
    (hbegin : reader ≠ .begin) (hdone : ∀ result, reader ≠ .done result) :
    left (f.read hash key reader) < left reader := by
  cases reader with
  | begin => exact absurd rfl hbegin
  | compare c =>
      unfold TableFile.read
      dsimp only
      split
      · exact Nat.succ_pos _
      · exact Nat.lt_succ_self _
  | next c =>
      obtain ⟨r, hr, _⟩ := h.row c (h.next c rfl)
      rw [hs.read_next hw key hr]
      cases hrn : r.next with
      | none => exact Nat.succ_pos _
      | some q =>
          have hlt : q < c := (hw.next_row c r q hr hrn).1
          show 2 * q + 2 < 2 * c + 1
          omega
  | done result => exact absurd rfl (hdone result)

end Reader

/-! ## 5. The run of a call -/

section Run

variable {key : Key keySize} {s₀ s s' : Shared m keySize} {events : List (Event keySize)}

/-- **The item was linked at some moment of the call**: between its first read and its return. -/
def Met (hash : Key keySize → Nat) (disk : Disk) (key : Key keySize) (s₀ : Shared m keySize)
    (events : List (Event keySize)) (item : Nat) : Prop :=
  ∃ events₁ events₂ s₁, events = events₁ ++ events₂ ∧ runEvents hash disk key s₀ events₁ = some s₁ ∧
    s₁.reader ≠ .begin ∧ s₁.file.InBucket hash key item

/-- **An item with the key was linked during the whole call.** -/
def Stays (hash : Key keySize → Nat) (disk : Disk) (key : Key keySize) (s₀ : Shared m keySize)
    (events : List (Event keySize)) (item : Nat) : Prop :=
  ∀ events₁ events₂ s₁, events = events₁ ++ events₂ → runEvents hash disk key s₀ events₁ = some s₁ →
    s₁.reader ≠ .begin → s₁.file.InBucket hash key item ∧ s₁.file.compare item key = true

theorem runEvents_append (events events' : List (Event keySize)) :
    runEvents hash disk key s₀ (events ++ events') =
      (runEvents hash disk key s₀ events).bind fun s => runEvents hash disk key s events' := by
  induction events generalizing s₀ with
  | nil => rfl
  | cons e events ih =>
      show (step hash disk key s₀ e).bind _ = ((step hash disk key s₀ e).bind _).bind _
      cases step hash disk key s₀ e with
      | none => rfl
      | some s => exact ih

theorem runEvents_snoc {e : Event keySize}
    (h : runEvents hash disk key s₀ (events ++ [e]) = some s') :
    ∃ s, runEvents hash disk key s₀ events = some s ∧ step hash disk key s e = some s' := by
  rw [runEvents_append] at h
  obtain ⟨s, hs, h⟩ := Option.bind_eq_some_iff.mp h
  refine ⟨s, hs, ?_⟩
  unfold runEvents at h
  obtain ⟨s'', hs'', h⟩ := Option.bind_eq_some_iff.mp h
  cases h
  exact hs''

/-- The first parts of a run with one event more. -/
theorem append_snoc_cases {events₁ events₂ : List (Event keySize)} {e : Event keySize}
    (h : events ++ [e] = events₁ ++ events₂) :
    events₁ = events ++ [e] ∨ ∃ rest, events = events₁ ++ rest := by
  rcases List.eq_nil_or_concat' events₂ with rfl | ⟨rest, e', rfl⟩
  · exact .inl (by rw [h, List.append_nil])
  · rw [← List.append_assoc] at h
    exact .inr ⟨rest, (List.append_inj' h rfl).1⟩

theorem met_snoc {e : Event keySize} (h : runEvents hash disk key s₀ (events ++ [e]) = some s')
    (item : Nat) : Met hash disk key s₀ (events ++ [e]) item ↔
      Met hash disk key s₀ events item ∨ (s'.reader ≠ .begin ∧ s'.file.InBucket hash key item) := by
  constructor
  · rintro ⟨events₁, events₂, s₁, he, hr, hm⟩
    rcases append_snoc_cases he with rfl | ⟨rest, hrest⟩
    · cases h.symm.trans hr
      exact .inr hm
    · exact .inl ⟨events₁, rest, s₁, hrest, hr, hm⟩
  · rintro (⟨events₁, events₂, s₁, rfl, hr, hm⟩ | hm)
    · exact ⟨events₁, events₂ ++ [e], s₁, List.append_assoc .., hr, hm⟩
    · exact ⟨events ++ [e], [], s', (List.append_nil _).symm, h, hm⟩

theorem Stays.init {e : Event keySize} {item : Nat}
    (h : Stays hash disk key s₀ (events ++ [e]) item) : Stays hash disk key s₀ events item :=
  fun events₁ events₂ s₁ he => h events₁ (events₂ ++ [e]) s₁ (by rw [he, List.append_assoc])

theorem creates_append (events events' : List (Event keySize)) :
    creates (events ++ events') = creates events + creates events' := by
  induction events with
  | nil => exact (Nat.zero_add _).symm
  | cons e events ih =>
      cases e with
      | create key value =>
          show creates (events ++ events') + 1 = creates events + 1 + creates events'
          omega
      | linkNext => exact ih
      | linkBucket => exact ih
      | unlink key => exact ih
      | read => exact ih

/-- An event is a read of the reader, or a write of the writer. -/
theorem step_cases {e : Event keySize} (h : step hash disk key s e = some s') :
    (∀ result, s.reader ≠ .done result) ∧
      ((e = .read ∧ s' = { s with reader := s.file.read hash key s.reader }) ∨
        ∃ file writer, s.file.write hash disk s.writer e = some (file, writer) ∧
          s' = { s with file := file, writer := writer }) := by
  unfold step at h
  split at h
  · cases h
  · rename_i hd
    cases h
    exact ⟨fun result he => hd result he, .inl ⟨rfl, rfl⟩⟩
  · rename_i hd
    obtain ⟨⟨file, writer⟩, hw, rfl⟩ := Option.map_eq_some_iff.mp h
    exact ⟨fun result he => hd result he, .inr ⟨file, writer, hw, rfl⟩⟩

/-- The reader can always read, until it returns. -/
theorem step_read (hdone : ∀ result, s.reader ≠ .done result) :
    step hash disk key s .read = some { s with reader := s.file.read hash key s.reader } := by
  unfold step
  cases hreader : s.reader with
  | done result => exact absurd hreader (hdone result)
  | begin => rfl
  | compare c => rfl
  | next c => rfl

/-- **What holds at every moment of a call.** -/
structure Inv (hash : Key keySize → Nat) (disk : Disk) (key : Key keySize) (V : Nat → Prop)
    (s : Shared m keySize) (t : HashTable (Key keySize) (List UInt8)) (count : Nat) : Prop where
  writer : WriterInv hash disk s.file t s.writer
  reader : ReaderInv t key V s.reader
  count_le : ∀ valueSize, m = .record valueSize → s.file.count ≤ count

/-- **One event.** -/
theorem Inv.step {V W : Nat → Prop} {count : Nat} (h : Inv hash disk key V s t count)
    (hd : disk.size ≤ maxObject) {e : Event keySize} (he : e.Allowed m)
    (hroom : ∀ valueSize, m = .record valueSize → count + creates [e] < Memory.limit 4)
    (hs : step hash disk key s e = some s')
    (hW : ∀ p, W p ↔ V p ∨ (s'.reader ≠ .begin ∧ s'.file.InBucket hash key p)) :
    ∃ t', Inv hash disk key W s' t' (count + creates [e]) ∧ ∀ item, Ahead t key V s.reader item →
      (s'.reader ≠ .begin → s'.file.InBucket hash key item ∧ s'.file.compare item key = true) →
      Ahead t' key W s'.reader item := by
  have hwf := h.writer.wf
  obtain ⟨hdone, ⟨rfl, rfl⟩ | ⟨file, writer, hw, rfl⟩⟩ := step_cases hs
  · have hsees := h.writer.sees
    have hne := read_ne_begin hash s.file key s.reader
    have hW' (p : Nat) : W p ↔ V p ∨ p ∈ t.chain (t.bucketIndex key) := by
      rw [hW p, ← hsees.inBucket_iff hwf]
      exact or_congr_right (and_iff_right hne)
    obtain ⟨hreader, hahead⟩ := h.reader.read hwf hsees hW'
    refine ⟨t, ⟨h.writer, hreader, h.count_le⟩, fun item ha hm => ?_⟩
    obtain ⟨hm, hk⟩ := hm hne
    exact hahead item ha ((hsees.inBucket_iff hwf key item).mp hm) hk
  · have hroom' : ∀ key value, e = .create key value → m.Room s.file.count := by
      rintro key value rfl
      cases m with
      | slab => exact True.intro
      | record v =>
          have hlt : count + 1 < Memory.limit 4 := hroom v rfl
          have := h.count_le v rfl
          show s.file.count + 1 < Memory.limit 4
          omega
    obtain ⟨t', hwriter, hedit, hcount⟩ := h.writer.write hd he hroom' hw
    have hsees := hwriter.sees
    have hwf' := hwriter.wf
    have hW' (p : Nat) :
        W p ↔ V p ∨ (s.reader ≠ .begin ∧ p ∈ t'.chain (t'.bucketIndex key)) := by
      rw [hW p, ← hsees.inBucket_iff hwf']
    obtain ⟨hreader, hahead⟩ := h.reader.edit hwf hedit hW'
    refine ⟨t', ⟨hwriter, hreader, fun v hv => ?_⟩, fun item ha hm => ?_⟩
    · have := h.count_le v hv
      have := hcount v hv
      show file.count ≤ _
      omega
    · exact hahead item ha fun hne => (hsees.inBucket_iff hwf' key item).mp (hm hne).1

/-- **A run of events**, from a table nobody is reading or writing. -/
theorem inv_run (hd : disk.size ≤ maxObject) {values : Stacks (Key keySize) (List UInt8)}
    (h₀ : Holding hash disk f t values) (ha : ∀ e ∈ events, e.Allowed m)
    (hroom : ∀ valueSize, m = .record valueSize → f.count + creates events < Memory.limit 4)
    (hr : runEvents hash disk key ⟨f, .idle, .begin⟩ events = some s) :
    ∃ t', Inv hash disk key (Met hash disk key ⟨f, .idle, .begin⟩ events) s t'
        (f.count + creates events) ∧
      ∀ item, Stays hash disk key ⟨f, .idle, .begin⟩ events item →
        Ahead t' key (Met hash disk key ⟨f, .idle, .begin⟩ events) s.reader item := by
  induction events using List.reverseRecOn generalizing s with
  | nil =>
      cases hr
      have hnone : ∀ p, ¬ Met hash disk key ⟨f, .idle, .begin⟩ [] p := by
        rintro p ⟨events₁, events₂, s₁, he, hr, hne, _⟩
        obtain ⟨rfl, _⟩ := List.append_eq_nil_iff.mp he.symm
        cases hr
        exact hne rfl
      refine ⟨t, ⟨⟨h₀.rep, h₀.wf, rfl, h₀.fits⟩, ⟨fun hne => absurd rfl hne, fun p hp =>
        absurd hp (hnone p), fun _ => hnone, fun _ => Reading.noConfusion,
        fun _ => Reading.noConfusion⟩, fun _ _ => Nat.le_refl _⟩, fun item _ =>
        ⟨fun hne => absurd rfl hne, fun _ => Reading.noConfusion, fun _ => Reading.noConfusion,
          Reading.noConfusion⟩⟩
  | append_singleton events e ih =>
      obtain ⟨s₁, hr₁, hs⟩ := runEvents_snoc hr
      have hcreates := creates_append events [e]
      have hroom₁ : ∀ v, m = .record v → f.count + creates events < Memory.limit 4 := by
        intro v hv
        have := hroom v hv
        omega
      obtain ⟨t₁, hinv, hahead⟩ := ih (fun e he => ha e (List.mem_append_left _ he)) hroom₁ hr₁
      have hroom₂ : ∀ v, m = .record v →
          f.count + creates events + creates [e] < Memory.limit 4 := by
        intro v hv
        have := hroom v hv
        omega
      obtain ⟨t', hinv', hahead'⟩ := hinv.step hd (ha e (List.mem_append_right _ List.mem_cons_self))
        hroom₂ hs (met_snoc hr)
      rw [hcreates, ← Nat.add_assoc]
      refine ⟨t', hinv', fun item hstays => hahead' item (hahead item hstays.init) fun hne => ?_⟩
      exact hstays (events ++ [e]) [] s (List.append_nil _).symm hr hne

/-- **The reader reads at most twice for each position in front of it.** -/
theorem Inv.reads_le {V : Nat → Prop} {count : Nat} (h : Inv hash disk key V s t count)
    (hd : disk.size ≤ maxObject) (ha : ∀ e ∈ events, e.Allowed m)
    (hroom : ∀ valueSize, m = .record valueSize → count + creates events < Memory.limit 4)
    (hbegin : s.reader ≠ .begin) (hr : runEvents hash disk key s events = some s') :
    reads events + left s'.reader ≤ left s.reader := by
  induction events generalizing s t V count with
  | nil =>
      cases hr
      exact Nat.le_of_eq (Nat.zero_add _)
  | cons e events ih =>
      obtain ⟨s₁, hs, hr⟩ := Option.bind_eq_some_iff.mp hr
      have hsplit : creates (e :: events) = creates [e] + creates events :=
        creates_append [e] events
      have hroom₁ : ∀ v, m = .record v → count + creates [e] < Memory.limit 4 := by
        intro v hv
        have := hroom v hv
        omega
      obtain ⟨t₁, h₁, _⟩ := h.step hd (ha e List.mem_cons_self) hroom₁ hs fun _ => Iff.rfl
      have hroom₂ : ∀ v, m = .record v → count + creates [e] + creates events < Memory.limit 4 := by
        intro v hv
        have := hroom v hv
        omega
      have ih := ih h₁ (fun e he => ha e (List.mem_cons_of_mem _ he)) hroom₂
      obtain ⟨hdone, ⟨rfl, rfl⟩ | ⟨file, writer, hw, rfl⟩⟩ := step_cases hs
      · have ih := ih (read_ne_begin hash s.file key s.reader) hr
        have hlt := h.reader.left_lt h.writer.wf h.writer.sees hbegin hdone
        show reads events + 1 + left s'.reader ≤ left s.reader
        have ih : reads events + left s'.reader ≤ left (s.file.read hash key s.reader) := ih
        omega
      · have ih := ih hbegin hr
        have hreads : reads (e :: events) = reads events := by
          cases e with
          | read => cases hw' : s.writer <;> rw [hw'] at hw <;> cases hw
          | create key value => rfl
          | linkNext => rfl
          | linkBucket => rfl
          | unlink key => rfl
        rw [hreads]
        exact ih

/-- Where the reader returns an item, it just compared it. -/
theorem read_some {reader : Reading} (hdone : ∀ result, reader ≠ .done result) {item : Nat}
    (h : f.read hash key reader = .done (some item)) :
    reader = .compare item ∧ f.compare item key = true := by
  unfold TableFile.read at h
  cases reader with
  | begin =>
      dsimp only at h
      split at h <;> cases h
  | compare c =>
      dsimp only at h
      split at h
      · rename_i hk
        cases h
        exact ⟨rfl, hk⟩
      · cases h
  | next c =>
      dsimp only at h
      split at h
      · cases h
      · split at h <;> cases h
  | done result => exact absurd rfl (hdone result)

/-- **What one `find` does amid the writes.** -/
structure FoundAmid (hash : Key keySize → Nat) (disk : Disk) (key : Key keySize)
    (s₀ : Shared m keySize) (events : List (Event keySize)) (s : Shared m keySize) : Prop where
  sound : ∀ item, s.reader = .done (some item) →
    s.file.compare item key = true ∧ Met hash disk key s₀ events item
  complete : s.reader = .done none → ∀ item, ¬ Stays hash disk key s₀ events item
  finite : ∀ events₁ events₂ s₁, events = events₁ ++ .read :: events₂ →
    runEvents hash disk key s₀ events₁ = some s₁ → s₁.reader = .begin →
    reads events₂ ≤ 2 * s₁.file.readBucketValue hash key + 2
  advances : (∃ result, s.reader = .done result) ∨ ∃ s', step hash disk key s .read = some s'

/-- A `find` amid writes, on a file that holds a table. -/
theorem Holding.foundAmid (hd : disk.size ≤ maxObject) {values : Stacks (Key keySize) (List UInt8)}
    (h₀ : Holding hash disk f t values) (ha : ∀ e ∈ events, e.Allowed m)
    (hroom : ∀ valueSize, m = .record valueSize → f.count + creates events < Memory.limit 4)
    (hr : runEvents hash disk key ⟨f, .idle, .begin⟩ events = some s) :
    FoundAmid hash disk key ⟨f, .idle, .begin⟩ events s where
  sound item hitem := by
    rcases List.eq_nil_or_concat' events with rfl | ⟨events', e, rfl⟩
    · cases hr
      cases hitem
    obtain ⟨s₁, hr₁, hs⟩ := runEvents_snoc hr
    have hroom₁ : ∀ v, m = .record v → f.count + creates events' < Memory.limit 4 := by
      intro v hv
      have := hroom v hv
      rw [creates_append] at this
      omega
    obtain ⟨t₁, hinv, _⟩ :=
      inv_run hd h₀ (fun e he => ha e (List.mem_append_left _ he)) hroom₁ hr₁
    obtain ⟨hdone, ⟨rfl, rfl⟩ | ⟨file, writer, hw, rfl⟩⟩ := step_cases hs
    · obtain ⟨hc, hk⟩ := read_some hdone hitem
      exact ⟨hk, (met_snoc hr item).mpr (.inl (hinv.reader.compare item hc))⟩
    · exact absurd hitem (hdone _)
  complete hnone item hstays := by
    obtain ⟨t', _, hahead⟩ := inv_run hd h₀ ha hroom hr
    exact (hahead item hstays).done hnone
  finite events₁ events₂ s₁ he hr₁ hbegin := by
    subst he
    rw [runEvents_append, hr₁] at hr
    have hr : runEvents hash disk key s₁ (.read :: events₂) = some s := hr
    obtain ⟨s₂, hs, hr₂⟩ := Option.bind_eq_some_iff.mp hr
    have hsplit : creates (events₁ ++ .read :: events₂) = creates events₁ + creates events₂ :=
      creates_append events₁ (.read :: events₂)
    have hroom' : ∀ v, m = .record v →
        f.count + creates events₁ + creates events₂ < Memory.limit 4 := by
      intro v hv
      have := hroom v hv
      omega
    obtain ⟨t₁, hinv, _⟩ := inv_run hd h₀ (fun e he => ha e (List.mem_append_left _ he))
      (fun v hv => Nat.lt_of_le_of_lt (Nat.le_add_right _ _) (hroom' v hv)) hr₁
    obtain ⟨t₂, hinv₂, _⟩ := hinv.step hd (e := .read) True.intro
      (fun v hv => Nat.lt_of_le_of_lt (Nat.le_add_right _ _) (hroom' v hv)) hs fun _ => Iff.rfl
    obtain ⟨_, ⟨_, rfl⟩ | ⟨_, _, hw, _⟩⟩ := step_cases hs
    · have hne := read_ne_begin hash s₁.file key s₁.reader
      have hle := hinv₂.reads_le hd (fun e he => ha e (List.mem_append_right _
        (List.mem_cons_of_mem _ he))) hroom' hne hr₂
      refine Nat.le_trans (Nat.le_trans (Nat.le_add_right _ _) hle) ?_
      rw [hbegin]
      unfold TableFile.read
      dsimp only
      split
      · exact Nat.zero_le _
      · exact Nat.le_refl _
    · cases hw' : s₁.writer <;> rw [hw'] at hw <;> cases hw
  advances := by
    by_cases hdone : ∃ result, s.reader = .done result
    · exact .inl hdone
    · exact .inr ⟨_, step_read fun result he => hdone ⟨result, he⟩⟩

end Run

/-- **`find` amid stores and unlinks is sound and complete, and ends**, for every interleaving of its
    reads with the writes, as long as a record table was not filled beyond its counter. -/
theorem find_amid_writes (hash : Key keySize → Nat) {disk : Disk} {buckets : Nat}
    (hd : disk.size ≤ maxObject) (hb : buckets < Memory.limit 4) {bytes : Memory} {f : TableFile m keySize}
    (hc : create m keySize disk buckets bytes = some f) {calls : List (Call keySize)}
    (ha : EveryStep Call.spec (Call.Allowed m) (fun _ => []) calls) {f' : TableFile m keySize}
    (hr : applyAll hash disk f calls = some f') (key : Key keySize) {events : List (Event keySize)}
    (hae : ∀ e ∈ events, e.Allowed m)
    (hroom : ∀ valueSize, m = .record valueSize → stores calls + creates events < Memory.limit 4)
    {s : Shared m keySize}
    (hrun : runEvents hash disk key ⟨f', .idle, .begin⟩ events = some s) :
    FoundAmid hash disk key ⟨f', .idle, .begin⟩ events s := by
  obtain ⟨⟨t, h⟩, hcount⟩ := holding_of_create hash hd hb hc ha
    (fun v hv => Nat.lt_of_le_of_lt (Nat.le_add_right _ _) (hroom v hv)) hr
  refine h.foundAmid hd hae (fun v hv => ?_) hrun
  have := hcount v hv
  have := hroom v hv
  omega

/-- The reader stands on an item while it is unlinked, and still comes to the one behind it. -/
def overtaken : List (Event 1) :=
  [.read, .read, .unlink (oneKey 2), .create (oneKey 3) [4], .linkNext, .read, .linkBucket, .read]

theorem overtaken_find : ∃ f f' s, create (.record 1) 1 .sample 1 (fun _ => 0) = some f ∧
    applyAll (fun _ => 0) .sample f [.store (oneKey 1) [7], .store (oneKey 2) [9]] = some f' ∧
    runEvents (fun _ => 0) .sample (oneKey 1) ⟨f', .idle, .begin⟩ overtaken = some s ∧
    s.reader = .done (some 0) ∧
    FoundAmid (fun _ => 0) .sample (oneKey 1) ⟨f', .idle, .begin⟩ overtaken s := by
  have hb : ((create (.record 1) 1 .sample 1 fun _ => 0).bind fun f =>
      (applyAll (fun _ => 0) .sample f [.store (oneKey 1) [7], .store (oneKey 2) [9]]).bind fun f' =>
        (runEvents (fun _ => 0) .sample (oneKey 1) ⟨f', .idle, .begin⟩ overtaken).bind fun s =>
          if s.reader = .done (some 0) then some s else none).isSome = true := by decide +kernel
  obtain ⟨_, hb⟩ := Option.isSome_iff_exists.mp hb
  obtain ⟨f, hc, hb⟩ := Option.bind_eq_some_iff.mp hb
  obtain ⟨f', hr, hb⟩ := Option.bind_eq_some_iff.mp hb
  obtain ⟨s, hs, hb⟩ := Option.bind_eq_some_iff.mp hb
  obtain ⟨hdone, _⟩ := Option.ite_none_right_eq_some.mp hb
  have ha : EveryStep Call.spec (Call.Allowed (.record 1)) (fun _ => [])
      [.store (oneKey 1) [7], .store (oneKey 2) [9]] :=
    ⟨⟨Nat.le_refl 1, by decide⟩, ⟨Nat.le_refl 1, by decide⟩, True.intro⟩
  have hae : ∀ e ∈ overtaken, e.Allowed (.record 1) := by
    simp [overtaken, Event.Allowed, Manager.Fits, Manager.itemBytes, maxObject]
  exact ⟨f, f', s, hc, hr, hs, hdone, find_amid_writes (fun _ => 0) (by decide) (by decide) hc ha hr
    (oneKey 1) hae (fun _ _ => by decide) hs⟩

/-! ## 6. A record count that wraps -/

/-- Record stores up to the end of the counter: the last item stored is the sentinel, and the next
    one is the first item again. -/
theorem applyAll_replicate (hash : Key keySize → Nat) (hd : disk.size ≤ maxObject) {v : Nat}
    {f : TableFile (.record v) keySize}
    (hgrants : disk.Grants (f.headerSize + Manager.position (.record v) keySize (Memory.limit 4)))
    (key : Key keySize) (value : List UInt8) (hc : f.count < Memory.limit 4) (n : Nat)
    (hn : f.count + n ≤ Memory.limit 4) : ∃ f',
      applyAll hash disk f (List.replicate n (.store key value)) = some f' ∧
      f'.headerSize = f.headerSize ∧ f'.buckets = f.buckets ∧
      f'.count = (f.count + n) % Memory.limit 4 ∧ ∀ i < f.address f.count,
        i < itemPosition (.record v) (f.bucketIndex hash key) ∨
          itemPosition (.record v) (f.bucketIndex hash key) + 4 ≤ i → f'.bytes i = f.bytes i := by
  induction n with
  | zero => exact ⟨f, rfl, rfl, rfl, (Nat.mod_eq_of_lt hc).symm, fun _ _ _ => rfl⟩
  | succ n ih =>
      obtain ⟨f₁, hr, hhead, hbuckets, hcount, hbytes⟩ := ih (Nat.le_of_succ_le hn)
      rw [Nat.mod_eq_of_lt (by omega)] at hcount
      have hidx : f₁.bucketIndex hash key = f.bucketIndex hash key := by
        unfold bucketIndex
        rw [hbuckets]
      have hfits : (f₁.headerSize + Manager.position (.record v) keySize
          ((f₁.count + 1) % Memory.limit 4)) % sizeLimit ≤
            f.headerSize + Manager.position (.record v) keySize (Memory.limit 4) := by
        have hle : (f₁.count + 1) % Memory.limit 4 * (keySize + 4 + v) ≤
            Memory.limit 4 * (keySize + 4 + v) :=
          Nat.mul_le_mul_right _ (Nat.le_of_lt (Nat.mod_lt _ (Memory.limit_pos 4)))
        refine Nat.le_trans (Nat.mod_le _ _) ?_
        rw [hhead]
        show f.headerSize + (4 + _) ≤ f.headerSize + (4 + _)
        omega
      obtain ⟨size, hsize⟩ := @Disk.Grants.reserve _ f₁.toMappedSize _ _ hgrants hfits
      refine ⟨⟨size, f₁.buckets, f₁.headerSize, f₁.storedBytes hash key value,
        (f₁.count + 1) % Memory.limit 4⟩, ?_, hhead, hbuckets, ?_, fun i hi ho => ?_⟩
      · rw [List.replicate_succ', applyAll_append, hr]
        show applyAll hash disk f₁ [.store key value] = _
        rw [applyAll_one]
        show (f₁.store hash disk key value).map Prod.fst = _
        rw [store_eq]
        dsimp only
        rw [show Manager.extent (.record v) keySize value.length = 1 from rfl,
          show Memory.limit (Manager.width (.record v)) = Memory.limit 4 from rfl, hsize]
        rfl
      · show (f₁.count + 1) % Memory.limit 4 = _
        rw [hcount, Nat.add_assoc]
      · have haddr : f.address f.count ≤ f₁.address f₁.count := by
          have hmul := Nat.mul_le_mul_right (keySize + 4 + v) (Nat.le_add_right f.count n)
          have hlast : (f.count + n) * (keySize + 4 + v) ≤ Memory.limit 4 * (keySize + 4 + v) :=
            Nat.mul_le_mul_right _ (Nat.le_of_succ_le hn)
          have hle := Nat.le_trans hgrants.le hd
          have hlim : sizeLimit = 18446744073709551616 := rfl
          have hmax : maxObject = 9223372036854775807 := rfl
          unfold Manager.position at hle
          unfold address Manager.position
          rw [hhead, hcount]
          dsimp only at hle ⊢
          rw [Nat.mod_eq_of_lt (by omega), Nat.mod_eq_of_lt (by omega)]
          omega
        refine (storedBytes_outside f₁ hash key value (.inl (Nat.lt_of_lt_of_le hi haddr)) ?_).trans
          (hbytes i hi ho)
        rw [hidx]
        exact ho

/-- The bytes of a key; the hash is the first of them. -/
def firstByte (key : Key 1) : Nat := (key.val.headD 0).toNat

/-- Two stores of one key, as many of a key of the other bucket as the counter takes, and another
    store of the first key. -/
def wrappingCalls (n : Nat) : List (Call 1) :=
  [.store (oneKey 0) [], .store (oneKey 0) []] ++ List.replicate n (.store (oneKey 1) []) ++
    [.store (oneKey 0) []]

/-- The first two items link to each other, and none has the key. -/
structure Circle (f : TableFile (.record 0) 1) : Prop where
  bucket : f.readBucketValue firstByte (oneKey 2) = 0
  compare : ∀ item < 2, f.compare item (oneKey 2) = false
  next : ∀ item < 2, f.nextPosition item = 1 - item

/-- The reader goes round. -/
theorem Circle.read {f : TableFile (.record 0) 1} (h : Circle f) (n : Nat) :
    ∃ s, runEvents firstByte .sample (oneKey 2) ⟨f, .idle, .begin⟩ (List.replicate n .read) =
      some s ∧ s.file = f ∧ (s.reader = .begin ∨ ∃ item < 2, s.reader = .compare item ∨
        s.reader = .next item) := by
  induction n with
  | zero => exact ⟨_, rfl, rfl, .inl rfl⟩
  | succ n ih =>
      obtain ⟨s, hr, rfl, hreader⟩ := ih
      have hempty : empty (.record 0) = 4294967295 := rfl
      refine ⟨{ s with reader := s.file.read firstByte (oneKey 2) s.reader }, ?_, rfl, .inr ?_⟩
      · have hdone : ∀ result, s.reader ≠ .done result := by
          rintro result he
          rcases hreader with hb | ⟨item, _, hc | hn⟩
          · cases hb.symm.trans he
          · cases hc.symm.trans he
          · cases hn.symm.trans he
        rw [List.replicate_succ', runEvents_append, hr]
        show (step firstByte .sample (oneKey 2) s .read).bind some = _
        rw [step_read hdone]
        rfl
      · dsimp only
        unfold TableFile.read
        rcases hreader with hb | ⟨item, hlt, hc | hn⟩
        · rw [hb]
          dsimp only
          rw [h.bucket, if_neg (by omega)]
          exact ⟨0, Nat.two_pos, .inl rfl⟩
        · rw [hc]
          dsimp only
          rw [h.compare item hlt]
          exact ⟨item, hlt, .inr rfl⟩
        · rw [hn]
          dsimp only
          rw [h.next item hlt, if_neg (by omega), if_neg (by omega)]
          exact ⟨1 - item, by omega, .inl rfl⟩

/-- The bucket of a key by its byte. -/
theorem bucketIndex_oneKey {f : TableFile (.record 0) 1} (h : f.buckets = 2) (b : UInt8) :
    f.bucketIndex firstByte (oneKey b) = b.toNat % 2 := by
  unfold bucketIndex remainder
  rw [h]
  rfl

/-- Item 0 is stored again in front of item 1, which links to it. -/
theorem store_closes {f : TableFile (.record 0) 1} (hhead : f.headerSize = 12)
    (hbuckets : f.buckets = 2) (hcount : f.count = 0) (hbucket : f.bytes.readWord 4 4 = 1)
    (hkey : f.bytes.read 21 1 = [0]) (hlink : f.bytes.readWord 22 4 = 0) :
    ∃ f' off, f.store firstByte .sample (oneKey 0) [] = some (f', off) ∧ Circle f' := by
  have haddr : f.address f.count = 16 := by
    unfold address
    rw [hhead, hcount]
    rfl
  have hdata : f.data f.count = 21 := congrArg (· + 5) haddr
  have hword : itemPosition (.record 0) (f.bucketIndex firstByte (oneKey 0)) = 4 := by
    rw [bucketIndex_oneKey hbuckets]
    rfl
  let bytes := (f.bytes.write 16 [0]).write 21 []
  have hold : bytes.readWord 4 4 = 1 := by
    show Memory.readWord (Memory.write (Memory.write f.bytes 16 [0]) 21 []) 4 4 = 1
    rw [Memory.readWord_write_disjoint _ (.inl (by decide)),
      Memory.readWord_write_disjoint _ (.inl (by decide))]
    exact hbucket
  have hstored : f.storedBytes firstByte (oneKey 0) [] =
      (bytes.writeWord 17 4 1).writeWord 4 4 0 := by
    unfold storedBytes
    rw [haddr, hdata, hword, hcount]
    exact congrArg (fun n => (bytes.writeWord 17 4 n).writeWord 4 4 0) hold
  obtain ⟨size, hsize⟩ := @Disk.Grants.reserve .sample f.toMappedSize 21 21
    (Disk.ofRate_grants.mpr (by decide)) (Nat.le_refl 21)
  refine ⟨⟨size, 2, 12, (bytes.writeWord 17 4 1).writeWord 4 4 0, 1⟩, 5, ?_, ?_, fun item hlt => ?_,
    fun item hlt => ?_⟩
  · rw [store_eq, hstored, hcount, hbuckets, hhead]
    exact congrArg (Option.map _) hsize
  · unfold readBucketValue
    rw [bucketIndex_oneKey rfl]
    exact Memory.readWord_writeWord (bytes.writeWord 17 4 1) (by decide : 0 < Memory.limit 4)
  · -- both items have the first key
    have hzero : ((bytes.writeWord 17 4 1).writeWord 4 4 0).read 16 1 = [0] := by
      rw [Memory.read_writeWord_disjoint _ (.inr (by decide)),
        Memory.read_writeWord_disjoint _ (.inl (by decide))]
      show Memory.read (Memory.write (Memory.write f.bytes 16 [0]) 21 []) 16 1 = [0]
      rw [Memory.read_write_disjoint _ (.inl (by decide))]
      exact Memory.read_write f.bytes 16 [0]
    have hone : ((bytes.writeWord 17 4 1).writeWord 4 4 0).read 21 1 = [0] := by
      rw [Memory.read_writeWord_disjoint _ (.inr (by decide)),
        Memory.read_writeWord_disjoint _ (.inr (by decide))]
      show Memory.read (Memory.write (Memory.write f.bytes 16 [0]) 21 []) 21 1 = [0]
      rw [Memory.read_write_disjoint _ (.inr (by decide)),
        Memory.read_write_disjoint _ (.inr (by decide))]
      exact hkey
    unfold compare
    obtain rfl | rfl : item = 0 ∨ item = 1 := by omega
    · exact (congrArg (· == (oneKey 2).val) hzero).trans rfl
    · exact (congrArg (· == (oneKey 2).val) hone).trans rfl
  · unfold nextPosition
    obtain rfl | rfl : item = 0 ∨ item = 1 := by omega
    · show ((bytes.writeWord 17 4 1).writeWord 4 4 0).readWord 17 4 = 1
      rw [Memory.readWord_writeWord_disjoint _ (.inr (by decide))]
      exact Memory.readWord_writeWord bytes (by decide : 1 < Memory.limit 4)
    · show ((bytes.writeWord 17 4 1).writeWord 4 4 0).readWord 22 4 = 0
      rw [Memory.readWord_writeWord_disjoint _ (.inr (by decide)),
        Memory.readWord_writeWord_disjoint _ (.inr (by decide))]
      show Memory.readWord (Memory.write (Memory.write f.bytes 16 [0]) 21 []) 22 4 = 0
      rw [Memory.readWord_write_disjoint _ (.inr (by decide)),
        Memory.readWord_write_disjoint _ (.inr (by decide))]
      exact hlink

/-- **The counter of a record table wraps, and a reader goes round for ever**: the first key is
    stored again as item 0, in front of the item 1 that links to it. -/
theorem wrappedCount_loops : ∃ f f', create (.record 0) 1 .sample 2 (fun _ => 0) = some f ∧
    applyAll firstByte .sample f (wrappingCalls 4294967294) = some f' ∧
    ∀ n, ∃ s, runEvents firstByte .sample (oneKey 2) ⟨f', .idle, .begin⟩ (List.replicate n .read) =
      some s ∧ ∀ result, s.reader ≠ .done result := by
  have hb : ((create (.record 0) 1 .sample 2 fun _ => 0).bind fun f =>
      (applyAll firstByte .sample f [.store (oneKey 0) [], .store (oneKey 0) []]).bind fun f' =>
        if f'.headerSize = 12 ∧ f'.buckets = 2 ∧ f'.count = 2 ∧ f'.bytes.readWord 4 4 = 1 ∧
          f'.bytes.read 21 1 = [0] ∧ f'.bytes.readWord 22 4 = 0 then some f' else none).isSome =
      true := by decide +kernel
  obtain ⟨_, hb⟩ := Option.isSome_iff_exists.mp hb
  obtain ⟨f, hc, hb⟩ := Option.bind_eq_some_iff.mp hb
  obtain ⟨f₂, hr₂, hb⟩ := Option.bind_eq_some_iff.mp hb
  obtain ⟨⟨hhead, hbuckets, hcount, hbucket, hkey, hlink⟩, _⟩ := Option.ite_none_right_eq_some.mp hb
  have hgrants : Disk.sample.Grants (f₂.headerSize + Manager.position (.record 0) 1 (Memory.limit 4)) := by
    rw [hhead]
    exact Disk.ofRate_grants.mpr (by decide)
  -- the stores of the other bucket fill the counter, and leave the first two items alone
  obtain ⟨f₃, hr₃, hhead₃, hbuckets₃, hcount₃, hbytes₃⟩ := applyAll_replicate firstByte (by decide) hgrants
    (oneKey 1) [] (by rw [hcount]; decide) 4294967294 (by rw [hcount]; decide)
  have haddr₂ : f₂.address f₂.count = 26 := by
    unfold address
    rw [hhead, hcount]
    rfl
  have hword₂ : itemPosition (.record 0) (f₂.bucketIndex firstByte (oneKey 1)) = 8 := by
    rw [bucketIndex_oneKey hbuckets]
    rfl
  rw [haddr₂, hword₂] at hbytes₃
  have hsame {a n : Nat} (ha : a + n ≤ 26) (ho : a + n ≤ 8 ∨ 12 ≤ a) :
      f₃.bytes.read a n = f₂.bytes.read a n :=
    Memory.read_congr fun i _ _ => hbytes₃ i (by omega) (by omega)
  have hcount₃ : f₃.count = 0 := by
    rw [hcount₃, hcount]
    decide
  obtain ⟨f₄, off, hst, hcircle⟩ := store_closes (hhead₃.trans hhead) (hbuckets₃.trans hbuckets) hcount₃
    ((congrArg Memory.ofLE (hsame (by decide) (by decide))).trans hbucket)
    ((hsame (by decide) (by decide)).trans hkey)
    ((congrArg Memory.ofLE (hsame (by decide) (by decide))).trans hlink)
  refine ⟨f, f₄, hc, ?_, fun n => ?_⟩
  · unfold wrappingCalls
    rw [applyAll_append, applyAll_append, hr₂]
    show ((applyAll firstByte .sample f₂ _).bind _) = _
    rw [hr₃]
    show applyAll firstByte .sample f₃ [.store (oneKey 0) []] = _
    rw [applyAll_one]
    show (f₃.store firstByte .sample (oneKey 0) []).map Prod.fst = _
    rw [hst]
    rfl
  · obtain ⟨s, hs, _, hreader⟩ := hcircle.read n
    refine ⟨s, hs, fun result he => ?_⟩
    rcases hreader with hb | ⟨item, _, hcmp | hn⟩
    · cases hb.symm.trans he
    · cases hcmp.symm.trans he
    · cases hn.symm.trans he

end TableFile

end Libbitcoin.Database
