/-
  File:      BitprimDatabase/Primitives/ItemChains.lean
  Subject:   A TABLE FILE WHOSE ITEMS WERE LINKED IN ANY ORDER (slab_hash_table.ipp,
             record_hash_table.ipp, slab_row.ipp, record_row.ipp). Items are handed out in one order
             and linked in another, so links do not descend and some items are not linked yet.

  * `Entry`, `Written`, `LinkWritten` -- an item, and how much of it is written, byte by byte;
  * `Chained` -- **the invariant**: the items handed out are apart, each bucket links some of them
    and these are whole;
  * `Chained.congr` -- writes outside the linked items; `Chained.newItem`, `Chained.link`,
    `Chained.unlink`, `Chained.reopen` -- one step of a call each.
-/
import BitprimDatabase.Lib.Extents
import BitprimDatabase.Primitives.UnlinkSafe

namespace Libbitcoin.Database

open Lib

/-- An item with what is stored in it. -/
structure Entry (keySize : Nat) where
  item : Nat
  key : Key keySize
  value : List UInt8

namespace Entry

variable {keySize : Nat}

/-- What is written into an item, without its link. -/
def bytes (e : Entry keySize) : List UInt8 := e.key.val ++ e.value

theorem length_bytes (e : Entry keySize) : e.bytes.length = keySize + e.value.length := by
  unfold bytes
  rw [List.length_append, e.key.property]

/-- What the counter is raised by for the item. -/
def extent (m : Manager) (e : Entry keySize) : Extent := ⟨e.item, m.extent keySize e.value.length⟩

/-- The bytes of an item: key, link and value. -/
def size (m : Manager) (e : Entry keySize) : Nat := m.prefixSize keySize + e.value.length

end Entry

namespace TableFile

variable {m : Manager} {keySize : Nat} {hash : Key keySize → Nat} {disk : Disk}
  {f f' : TableFile m keySize} {e e' : Entry keySize} {n : Nat}

/-! ## 1. One item -/

/-- Where a byte of the key or the value is written; the link between them is skipped. -/
def byteAddress (f : TableFile m keySize) (item k : Nat) : Nat :=
  f.address item + if k < keySize then k else m.width + k

/-- **The first bytes of the item are written.** -/
def Written (f : TableFile m keySize) (e : Entry keySize) (n : Nat) : Prop :=
  ∀ k < n, e.bytes[k]? = some (f.bytes (f.byteAddress e.item k))

/-- The item is whole. -/
def Kept (f : TableFile m keySize) (e : Entry keySize) : Prop := f.Written e e.bytes.length

/-- **The first bytes of the link are written.** -/
def LinkWritten (f : TableFile m keySize) (item next n : Nat) : Prop :=
  ∀ k < n, (Memory.toLE m.width next)[k]? = some (f.bytes (f.address item + keySize + k))

/-- A byte address lies in the item, and not in its link. -/
theorem byteAddress_mem (f : TableFile m keySize) {k : Nat} (hk : k < e.bytes.length) :
    f.address e.item ≤ f.byteAddress e.item k ∧
      f.byteAddress e.item k < f.address e.item + e.size m ∧
      (f.byteAddress e.item k < f.address e.item + keySize ∨
        f.address e.item + keySize + m.width ≤ f.byteAddress e.item k) := by
  rw [e.length_bytes] at hk
  have hsize : e.size m = keySize + m.width + e.value.length := rfl
  unfold byteAddress
  split <;> omega

theorem byteAddress_inj (f : TableFile m keySize) {item j k : Nat}
    (h : f.byteAddress item j = f.byteAddress item k) : j = k := by
  have := m.four_le_width
  unfold byteAddress at h
  split at h <;> split at h <;> omega

/-- The bytes of the item in another file. -/
def SameItem (f f' : TableFile m keySize) (e : Entry keySize) : Prop :=
  f'.address e.item = f.address e.item ∧ ∀ i, f.address e.item ≤ i →
    i < f.address e.item + e.size m → f'.bytes i = f.bytes i

theorem Written.congr (h : f.Written e n) (hn : n ≤ e.bytes.length) (hs : SameItem f f' e) :
    f'.Written e n := by
  obtain ⟨ha, hb⟩ := hs
  intro k hk
  obtain ⟨hge, hlt, _⟩ := f.byteAddress_mem (Nat.lt_of_lt_of_le hk hn)
  have haddr : f'.byteAddress e.item k = f.byteAddress e.item k := by
    unfold byteAddress
    rw [ha]
  rw [h k hk, haddr, hb _ hge hlt]

theorem Kept.congr (h : f.Kept e) (hs : SameItem f f' e) : f'.Kept e :=
  Written.congr h (Nat.le_refl _) hs

theorem LinkWritten.congr {next : Nat} (h : f.LinkWritten e.item next n) (hn : n ≤ m.width)
    (hs : SameItem f f' e) : f'.LinkWritten e.item next n := by
  obtain ⟨ha, hb⟩ := hs
  have hsize : e.size m = keySize + m.width + e.value.length := rfl
  intro k hk
  rw [h k hk, ha, hb _ (by omega) (by omega)]

theorem nextPosition_congr (hs : SameItem f f' e) :
    f'.nextPosition e.item = f.nextPosition e.item := by
  obtain ⟨ha, hb⟩ := hs
  have hsize : e.size m = keySize + m.width + e.value.length := rfl
  unfold nextPosition
  rw [ha]
  exact congrArg Memory.ofLE (Memory.read_congr fun i h₁ h₂ => hb i (by omega) (by omega))

theorem linkOf_congr (hs : SameItem f f' e) : f'.linkOf e.item = f.linkOf e.item :=
  congrArg (decode m) (nextPosition_congr hs)

/-- **The key of a whole item is compared.** -/
theorem Kept.compare (h : f.Kept e) (key : Key keySize) :
    f.compare e.item key = decide (e.key = key) := by
  have hread : f.bytes.read (f.address e.item) keySize = e.key.val := by
    refine List.ext_getElem? fun k => ?_
    by_cases hk : k < keySize
    · have hlen : k < e.key.val.length := by rw [e.key.property]; exact hk
      have hw := h k (by rw [e.length_bytes]; omega)
      unfold Entry.bytes byteAddress at hw
      rw [List.getElem?_append_left hlen, if_pos hk] at hw
      rw [Memory.getElem?_read _ hk, hw]
    · rw [List.getElem?_eq_none (by simpa using hk), List.getElem?_eq_none]
      rw [e.key.property]
      exact Nat.le_of_not_lt hk
  unfold TableFile.compare
  rw [hread]
  by_cases hk : e.key = key
  · simp [hk]
  · have : e.key.val ≠ key.val := fun he => hk (Subtype.ext he)
    simp [hk, this]

/-- **The value of a whole item is read.** -/
theorem Kept.value (h : f.Kept e) : f.bytes.read (f.data e.item) e.value.length = e.value := by
  refine List.ext_getElem? fun k => ?_
  by_cases hk : k < e.value.length
  · have hw := h (keySize + k) (by rw [e.length_bytes]; omega)
    unfold Entry.bytes byteAddress at hw
    rw [List.getElem?_append_right (by rw [e.key.property]; omega), if_neg (by omega),
      e.key.property, Nat.add_sub_cancel_left] at hw
    have haddr : f.data e.item + k = f.address e.item + (m.width + (keySize + k)) := by
      show f.address e.item + (keySize + m.width) + k = _
      omega
    rw [Memory.getElem?_read _ hk, hw, haddr]
  · rw [List.getElem?_eq_none (by simpa using hk), List.getElem?_eq_none (Nat.le_of_not_lt hk)]

/-- The link of an item, once it is written. -/
theorem LinkWritten.nextPosition {item next : Nat} (h : f.LinkWritten item next m.width)
    (hn : next < Memory.limit m.width) : f.nextPosition item = next := by
  have hread : f.bytes.read (f.address item + keySize) m.width = Memory.toLE m.width next := by
    refine List.ext_getElem? fun k => ?_
    by_cases hk : k < m.width
    · rw [Memory.getElem?_read _ hk, h k hk]
    · rw [List.getElem?_eq_none (by simpa using hk), List.getElem?_eq_none (by simpa using hk)]
  unfold TableFile.nextPosition Memory.readWord
  rw [hread, Memory.ofLE_toLE hn]

/-- One byte is written. -/
def writeByte (f : TableFile m keySize) (i : Nat) (b : UInt8) : TableFile m keySize :=
  { f with bytes := f.bytes.write i [b] }

theorem writeByte_same (f : TableFile m keySize) (i : Nat) (b : UInt8) :
    (f.writeByte i b).bytes i = b :=
  Memory.write_inside f.bytes (i := 0) (l := [b]) Nat.one_pos

theorem writeByte_ne (f : TableFile m keySize) {i j : Nat} (b : UInt8) (h : j ≠ i) :
    (f.writeByte i b).bytes j = f.bytes j :=
  Memory.write_outside f.bytes (by
    show j < i ∨ i + 1 ≤ j
    omega)

/-- **One more byte of the key or the value.** -/
theorem Written.step (h : f.Written e n) {b : UInt8} (hb : e.bytes[n]? = some b) :
    (f.writeByte (f.byteAddress e.item n) b).Written e (n + 1) := by
  intro k hk
  show _ = some ((f.writeByte _ b).bytes (f.byteAddress e.item k))
  by_cases hkn : k = n
  · subst hkn
    rw [hb, writeByte_same]
  · rw [h k (by omega), writeByte_ne]
    exact fun he => hkn (f.byteAddress_inj he)

/-- **One more byte of the link**; the rest of the item stays. -/
theorem LinkWritten.step {next : Nat} (h : f.LinkWritten e.item next n) {b : UInt8}
    (hb : (Memory.toLE m.width next)[n]? = some b) :
    (f.writeByte (f.address e.item + keySize + n) b).LinkWritten e.item next (n + 1) := by
  intro k hk
  show _ = some ((f.writeByte _ b).bytes (f.address e.item + keySize + k))
  by_cases hkn : k = n
  · subst hkn
    rw [hb, writeByte_same]
  · rw [h k (by omega), writeByte_ne]
    omega

theorem Kept.writeLink (h : f.Kept e) {k : Nat} (hk : k < m.width) (b : UInt8) :
    (f.writeByte (f.address e.item + keySize + k) b).Kept e := by
  intro j hj
  obtain ⟨_, _, hout⟩ := f.byteAddress_mem hj
  show _ = some ((f.writeByte _ b).bytes (f.byteAddress e.item j))
  rw [h j hj, writeByte_ne]
  omega

/-! ## 2. The file -/

/-- **What a table file holds, in whatever order its items were linked**: `taken` are the items
    handed out, `chain` those that a bucket links, the first one first. -/
structure Chained (hash : Key keySize → Nat) (disk : Disk) (f : TableFile m keySize)
    (taken : List (Entry keySize)) (chain : Nat → List (Entry keySize)) : Prop where
  headed : f.Headed
  fits : disk.Fits f.toMappedSize
  packed : Packed f.count (taken.map (Entry.extent m))
  first_le : ∀ e ∈ taken, m.first ≤ e.item
  value_fits : ∀ e ∈ taken, m.Fits e.value
  linked : ∀ b < f.buckets, f.BucketChain b ((chain b).map Entry.item)
  nodup : ∀ b < f.buckets, ((chain b).map Entry.item).Nodup
  mem : ∀ b < f.buckets, ∀ e ∈ chain b, e ∈ taken ∧ f.bucketIndex hash e.key = b ∧ f.Kept e

section Chained

variable {taken : List (Entry keySize)} {chain : Nat → List (Entry keySize)}

theorem Chained.bucketIndex_lt (h : Chained hash disk f taken chain) (key : Key keySize) :
    f.bucketIndex hash key < f.buckets := by
  unfold bucketIndex remainder
  rw [if_neg (Nat.ne_of_gt h.headed.buckets_pos)]
  exact Nat.mod_lt _ h.headed.buckets_pos

/-- Two items that were handed out are apart. -/
theorem Chained.apart (h : Chained hash disk f taken chain) (he : e ∈ taken) (he' : e' ∈ taken)
    (hne : e ≠ e') : (e.extent m).Apart (e'.extent m) := by
  have hp := List.pairwise_map.mp h.packed.apart
  have : Std.Symm fun x y : Entry keySize => (x.extent m).Apart (y.extent m) :=
    ⟨fun _ _ hxy => Or.symm hxy⟩
  exact hp.forall he he' hne

theorem Chained.item_inj (h : Chained hash disk f taken chain) (he : e ∈ taken) (he' : e' ∈ taken)
    (hi : e.item = e'.item) : e = e' := by
  by_contra hne
  have hpos := m.extent_pos keySize e.value.length
  have hpos' := m.extent_pos keySize e'.value.length
  rcases h.apart he he' hne with hle | hle
  · have hle : e.item + m.extent keySize e.value.length ≤ e'.item := hle
    omega
  · have hle : e'.item + m.extent keySize e'.value.length ≤ e.item := hle
    omega

theorem Chained.item_lt (h : Chained hash disk f taken chain) (he : e ∈ taken) :
    e.item + m.extent keySize e.value.length ≤ f.count :=
  h.packed.le_top _ (List.mem_map_of_mem he)

/-- An item is no sentinel. -/
theorem Chained.item_ne (h : Chained hash disk f taken chain) (he : e ∈ taken) :
    e.item < empty m := by
  have hlt := h.item_lt he
  have hpos := m.extent_pos keySize e.value.length
  have hcount := h.headed.count_lt
  unfold empty
  omega

/-- An item lies in the file. -/
theorem Chained.address_item (h : Chained hash disk f taken chain) {item : Nat} (hi : item ≤ f.count) :
    f.address item = f.headerSize + m.position keySize item := by
  have hpos := m.position_mono keySize hi
  have hlog := h.headed.logical
  have hsmall := h.headed.small
  exact address_eq (by omega)

/-- An item ends in front of what is handed out from its end on. -/
theorem Chained.end_le (h : Chained hash disk f taken chain) (he : e ∈ taken) {item : Nat}
    (hle : e.item + m.extent keySize e.value.length ≤ item) (hi : item ≤ f.count) :
    f.address e.item + e.size m ≤ f.address item := by
  have hsize := Manager.size_le_itemBytes keySize (h.value_fits e he)
  have hpos := m.position_mono keySize hle
  rw [Manager.position_add_extent] at hpos
  rw [h.address_item hi, h.address_item (Nat.le_trans (Nat.le_add_right _ _) (h.item_lt he))]
  unfold Entry.size
  omega

/-- **The bytes of two items are apart.** -/
theorem Chained.disjoint (h : Chained hash disk f taken chain) (he : e ∈ taken) (he' : e' ∈ taken)
    (hne : e ≠ e') : f.address e.item + e.size m ≤ f.address e'.item ∨
      f.address e'.item + e'.size m ≤ f.address e.item :=
  (h.apart he he' hne).imp
    (fun hle => h.end_le he hle (Nat.le_trans (Nat.le_add_right _ _) (h.item_lt he')))
    fun hle => h.end_le he' hle (Nat.le_trans (Nat.le_add_right _ _) (h.item_lt he))

/-- An item lies behind the buckets and the count, and in front of the end. -/
theorem Chained.address_ge (h : Chained hash disk f taken chain) (he : e ∈ taken) :
    f.headerSize + m.width ≤ f.address e.item := by
  rw [h.address_item (Nat.le_trans (Nat.le_add_right _ _) (h.item_lt he))]
  exact Nat.add_le_add_left (Manager.width_le_position (h.first_le e he)) _

/-- The words of the buckets, in another file. -/
theorem readBucket_congr (h : f.Headed) (hout : ∀ i < f.headerSize, f'.bytes i = f.bytes i) {b : Nat}
    (hb : b < f.buckets) : f'.readBucket b = f.readBucket b := by
  have hend := (itemPosition_add_width (m := m) hb).2
  have hle := h.headerSize_le.2.1
  exact congrArg Memory.ofLE (Memory.read_congr fun i _ hi => hout i (by omega))

/-- **Writes outside the buckets and the linked items.** -/
theorem Chained.congr (h : Chained hash disk f taken chain) (hbuckets : f'.buckets = f.buckets)
    (hhead : f'.headerSize = f.headerSize) (hcount : f'.count = f.count)
    (hlog : f'.logicalSize = f.logicalSize) (hfits : disk.Fits f'.toMappedSize)
    (hout : ∀ i < f.headerSize, f'.bytes i = f.bytes i)
    (hin : ∀ b < f.buckets, ∀ e ∈ chain b, ∀ i, f.address e.item ≤ i →
      i < f.address e.item + e.size m → f'.bytes i = f.bytes i) :
    Chained hash disk f' taken chain := by
  have hfour := h.headed.headerSize_le.1
  have hsame : ∀ b < f.buckets, ∀ e ∈ chain b, SameItem f f' e := fun b hb e he =>
    ⟨by unfold address; rw [hhead], hin b hb e he⟩
  refine ⟨⟨hbuckets ▸ h.headed.buckets_pos, ?_, ?_, hcount ▸ h.headed.count_lt,
    hcount ▸ h.headed.first_le, ?_, hlog ▸ h.headed.small⟩, hfits, hcount ▸ h.packed, h.first_le,
    h.value_fits, fun b hb => ?_, fun b hb => h.nodup b (hbuckets ▸ hb), fun b hb e he => ?_⟩
  · rw [hhead, hbuckets]
    exact h.headed.headerSize_eq
  · rw [hbuckets, ← h.headed.stored]
    exact congrArg Memory.ofLE (Memory.read_congr fun i _ hi => hout i (by omega))
  · rw [hlog, hhead, hcount]
    exact h.headed.logical
  · rw [hbuckets] at hb
    unfold BucketChain
    rw [readBucket_congr h.headed hout hb]
    refine (h.linked b hb).congr fun p hp => ?_
    obtain ⟨e, he, rfl⟩ := List.mem_map.mp hp
    exact linkOf_congr (hsame b hb e he)
  · rw [hbuckets] at hb
    obtain ⟨ht, hk, hkept⟩ := h.mem b hb e he
    refine ⟨ht, ?_, hkept.congr (hsame b hb e he)⟩
    unfold bucketIndex at hk ⊢
    rw [hbuckets]
    exact hk

/-- **An item that is not linked is written**, its key, its value or its link. -/
theorem Chained.writeByte (h : Chained hash disk f taken chain) (he : e ∈ taken)
    (hfree : ∀ b < f.buckets, e ∉ chain b) {i : Nat} (hge : f.address e.item ≤ i)
    (hlt : i < f.address e.item + e.size m) (v : UInt8) :
    Chained hash disk (f.writeByte i v) taken chain := by
  have haddr := h.address_ge he
  refine h.congr rfl rfl rfl rfl h.fits (fun j hj => writeByte_ne f v (by omega))
    fun b hb e' he' j h₁ h₂ => writeByte_ne f v ?_
  have hne : e ≠ e' := fun heq => hfree b hb (heq ▸ he')
  rcases h.disjoint he (h.mem b hb e' he').1 hne with hd | hd <;> omega

/-- The other items behind such a write. -/
theorem Chained.sameItem_writeByte (h : Chained hash disk f taken chain) (he : e ∈ taken) {i : Nat}
    (hge : f.address e.item ≤ i) (hlt : i < f.address e.item + e.size m) (v : UInt8)
    (he' : e' ∈ taken) (hne : e ≠ e') : SameItem f (f.writeByte i v) e' := by
  refine ⟨rfl, fun j h₁ h₂ => writeByte_ne f v ?_⟩
  rcases h.disjoint he he' hne with hd | hd <;> omega

/-- **`new_slab`, `new_records`**: the next item. -/
theorem Chained.newItem (h : Chained hash disk f taken chain) (hd : disk.size ≤ maxObject)
    (key : Key keySize) {value : List UInt8} (hf : m.Fits value)
    (hv : m.itemBytes keySize value.length ≤ maxObject) (hroom : m.Room f.count) {item : Nat}
    (hn : f.newItem disk value.length = some (f', item)) :
    Chained hash disk f' (⟨item, key, value⟩ :: taken) chain ∧ item = f.count ∧
      f'.headerSize = f.headerSize ∧ f'.buckets = f.buckets ∧ f'.bytes = f.bytes := by
  obtain ⟨hlt, heq⟩ := h.headed.newItem_eq hd h.fits hv hroom
  rw [heq] at hn
  obtain ⟨size, hreserve, hn⟩ := Option.map_eq_some_iff.mp hn
  obtain ⟨hfit, hsize⟩ := Disk.reserve_eq_some h.fits.file_le hreserve
  cases hn
  have hlog := h.headed.logical
  have hpos := m.position_add_extent keySize f.count value.length
  refine ⟨⟨⟨h.headed.buckets_pos, h.headed.headerSize_eq, h.headed.stored, hlt,
    Nat.le_add_right_of_le h.headed.first_le, ?_,
    Nat.lt_of_le_of_lt (Nat.le_trans hfit.le hd) (by decide)⟩, hfit, h.packed.take _,
    fun e he => ?_, fun e he => ?_, h.linked, h.nodup, fun b hb e he => ?_⟩, rfl, rfl, rfl, rfl⟩
  · dsimp only
    rw [hpos, hsize, hlog, Nat.add_assoc]
  · rcases List.mem_cons.mp he with rfl | he
    · exact h.headed.first_le
    · exact h.first_le e he
  · rcases List.mem_cons.mp he with rfl | he
    · exact hf
    · exact h.value_fits e he
  · obtain ⟨ht, hk⟩ := h.mem b hb e he
    exact ⟨List.mem_cons_of_mem _ ht, hk⟩

/-- A write of the bucket word of a key. -/
theorem link_outside (f : TableFile m keySize) (key : Key keySize) (begin : Nat) {i : Nat}
    (hi : i < itemPosition m (f.bucketIndex hash key) ∨
      itemPosition m (f.bucketIndex hash key) + m.width ≤ i) :
    (f.link hash key begin).bytes i = f.bytes i :=
  Memory.writeWord_outside _ hi

/-- A linked item behind a write of a bucket word. -/
theorem Chained.sameItem_link (h : Chained hash disk f taken chain) (he : e ∈ taken)
    (key : Key keySize) (begin : Nat) : SameItem f (f.link hash key begin) e := by
  have hend := (itemPosition_add_width (m := m) (h.bucketIndex_lt key)).2
  have hle := h.headed.headerSize_le.2.1
  have haddr := h.address_ge he
  exact ⟨rfl, fun i hi _ => link_outside f key begin (.inr (by omega))⟩

/-- The bucket words behind a write of one of them. -/
theorem readBucket_link (f : TableFile m keySize) (key : Key keySize) {begin b : Nat}
    (hb : begin < Memory.limit m.width) :
    (f.link hash key begin).readBucket b =
      if b = f.bucketIndex hash key then begin else f.readBucket b := by
  unfold readBucket TableFile.link
  dsimp only
  by_cases he : b = f.bucketIndex hash key
  · rw [if_pos he, he, Memory.readWord_writeWord _ hb]
  · rw [if_neg he, Memory.readWord_writeWord_disjoint]
    unfold Memory.Disjoint itemPosition
    rcases Nat.lt_or_gt_of_ne he with hlt | hlt
    · have := Nat.mul_le_mul_right m.width (Nat.succ_le_of_lt hlt)
      rw [Nat.succ_mul] at this
      exact .inl (by omega)
    · have := Nat.mul_le_mul_right m.width (Nat.succ_le_of_lt hlt)
      rw [Nat.succ_mul] at this
      exact .inr (by omega)

/-- **The words in front of the items behind a write of a bucket word.** -/
theorem Headed.link (h : f.Headed) {key : Key keySize} (hk : f.bucketIndex hash key < f.buckets)
    (begin : Nat) : (f.link hash key begin).Headed := by
  obtain ⟨hfour, hend⟩ := itemPosition_add_width (m := m) hk
  refine ⟨h.buckets_pos, h.headerSize_eq, ?_, h.count_lt, h.first_le, h.logical, h.small⟩
  refine (congrArg Memory.ofLE (Memory.read_congr fun i _ hi => ?_)).trans h.stored
  exact link_outside f key begin (.inl (by omega))

/-- **A bucket gets another chain**, by a write of its word. -/
theorem Chained.setBucket (h : Chained hash disk f taken chain) (key : Key keySize) {begin : Nat}
    (hb : begin < Memory.limit m.width) {l : List (Entry keySize)}
    (hl : (f.link hash key begin).BucketChain (f.bucketIndex hash key) (l.map Entry.item))
    (hn : (l.map Entry.item).Nodup)
    (hm : ∀ e ∈ l, e ∈ taken ∧ f.bucketIndex hash e.key = f.bucketIndex hash key ∧ f.Kept e) :
    Chained hash disk (f.link hash key begin) taken
      (Function.update chain (f.bucketIndex hash key) l) := by
  refine ⟨h.headed.link (h.bucketIndex_lt key) begin, h.fits, h.packed, h.first_le, h.value_fits,
    fun b hbk => ?_, fun b hbk => ?_, fun b hbk e he => ?_⟩
  · by_cases hbe : b = f.bucketIndex hash key
    · rw [hbe, Function.update_self]
      exact hl
    · rw [Function.update_of_ne hbe]
      unfold BucketChain
      rw [f.readBucket_link key hb, if_neg hbe]
      refine (h.linked b hbk).congr fun p hp => ?_
      obtain ⟨e, he, rfl⟩ := List.mem_map.mp hp
      exact linkOf_congr (h.sameItem_link (h.mem b hbk e he).1 key begin)
  · by_cases hbe : b = f.bucketIndex hash key
    · rw [hbe, Function.update_self]
      exact hn
    · rw [Function.update_of_ne hbe]
      exact h.nodup b hbk
  · by_cases hbe : b = f.bucketIndex hash key
    · rw [hbe, Function.update_self] at he
      obtain ⟨ht, hk, hkept⟩ := hm e he
      exact ⟨ht, hk.trans hbe.symm, hkept.congr (h.sameItem_link ht key begin)⟩
    · rw [Function.update_of_ne hbe] at he
      obtain ⟨ht, hk, hkept⟩ := h.mem b hbk e he
      exact ⟨ht, hk, hkept.congr (h.sameItem_link ht key begin)⟩

/-- **`link`**: a whole item that links to the first one of its bucket becomes the first one. -/
theorem Chained.link (h : Chained hash disk f taken chain) (he : e ∈ taken)
    (hfree : ∀ b < f.buckets, e ∉ chain b) (hkept : f.Kept e)
    (hnext : f.nextPosition e.item = f.readBucketValue hash e.key) :
    Chained hash disk (f.link hash e.key e.item) taken
      (Function.update chain (f.bucketIndex hash e.key) (e :: chain (f.bucketIndex hash e.key))) := by
  have hbk := h.bucketIndex_lt e.key
  have hne := h.item_ne he
  have hlt : e.item < Memory.limit m.width := Nat.lt_trans hne (empty_lt m)
  refine h.setBucket e.key hlt ?_ ?_ fun e' he' => ?_
  · unfold BucketChain
    rw [f.readBucket_link e.key hlt, if_pos rfl, decode, if_neg (Nat.ne_of_lt hne)]
    refine .cons e.item _ ?_
    rw [linkOf_congr (h.sameItem_link he e.key e.item), linkOf, hnext]
    refine (h.linked _ hbk).congr fun p hp => ?_
    obtain ⟨e', he', rfl⟩ := List.mem_map.mp hp
    exact linkOf_congr (h.sameItem_link (h.mem _ hbk e' he').1 e.key e.item)
  · refine List.nodup_cons.mpr ⟨fun hm => ?_, h.nodup _ hbk⟩
    obtain ⟨e', he', hi⟩ := List.mem_map.mp hm
    exact hfree _ hbk (h.item_inj (h.mem _ hbk e' he').1 he hi ▸ he')
  · rcases List.mem_cons.mp he' with rfl | he'
    · exact ⟨he, rfl, hkept⟩
    · exact h.mem _ hbk e' he'

/-- A bucket links no more items than were handed out. -/
theorem Chained.length_le (h : Chained hash disk f taken chain) {b : Nat} (hb : b < f.buckets) :
    (chain b).length ≤ f.count := by
  have hsub : (chain b).map Entry.item ⊆ List.range f.count := fun i hi => by
    obtain ⟨e, he, rfl⟩ := List.mem_map.mp hi
    have hlt := h.item_lt (h.mem b hb e he).1
    have hpos := m.extent_pos keySize e.value.length
    exact List.mem_range.mpr (by omega)
  have hle := ((h.nodup b hb).subperm hsub).length_le
  rwa [List.length_map, List.length_range] at hle

/-! ## 3. Taking an item out -/

/-- What an item links to. -/
theorem Chained.rest (h : Chained hash disk f taken chain) {b : Nat} (hb : b < f.buckets)
    {us vs : List (Entry keySize)} (hc : chain b = us ++ e :: vs) :
    Chain f.linkOf (f.linkOf e.item) (vs.map Entry.item) ∧
      f.nextPosition e.item < Memory.limit m.width := by
  have hl := h.linked b hb
  have hm := h.mem b hb
  rw [hc] at hl hm
  rw [List.map_append, List.map_cons] at hl
  have hrest := Chain.after hl
  refine ⟨hrest, ?_⟩
  cases vs with
  | nil =>
      cases hd : f.linkOf e.item with
      | none => exact decode_eq_none.mp hd ▸ empty_lt m
      | some p =>
          rw [hd] at hrest
          cases hrest
  | cons v vs =>
      have hhead : f.linkOf e.item = some v.item := hrest.head_eq
      rw [(decode_eq_some.mp hhead).1]
      exact Nat.lt_trans (h.item_ne (hm v (by simp)).1) (empty_lt m)

/-- The first item of a bucket. -/
theorem Chained.first (h : Chained hash disk f taken chain) (key : Key keySize) :
    (f.readBucketValue hash key = empty m → chain (f.bucketIndex hash key) = []) ∧
      (f.readBucketValue hash key ≠ empty m → ∃ e es,
        chain (f.bucketIndex hash key) = e :: es ∧ f.readBucketValue hash key = e.item) := by
  have hhead : decode m (f.readBucketValue hash key) = _ := (h.linked _ (h.bucketIndex_lt key)).head_eq
  cases hc : chain (f.bucketIndex hash key) with
  | nil =>
      rw [hc] at hhead
      exact ⟨fun _ => rfl, fun hne => absurd (decode_eq_none.mp hhead) hne⟩
  | cons e es =>
      rw [hc] at hhead
      obtain ⟨hw, hne⟩ := decode_eq_some.mp hhead
      exact ⟨fun he => absurd (hw.symm.trans he) hne, fun _ => ⟨e, es, rfl, hw⟩⟩

/-- What an item of a bucket links to: never to itself. -/
theorem Chained.second (h : Chained hash disk f taken chain) {b : Nat} (hb : b < f.buckets)
    {es : List (Entry keySize)} (hs : e :: es <:+ chain b) : f.nextPosition e.item ≠ e.item ∧
      (f.nextPosition e.item = empty m → es = []) ∧
      (f.nextPosition e.item ≠ empty m → ∃ e' es',
        es = e' :: es' ∧ f.nextPosition e.item = e'.item) := by
  obtain ⟨us, hc⟩ := hs
  have hhead : decode m (f.nextPosition e.item) = _ := (h.rest hb hc.symm).1.head_eq
  have hn := h.nodup b hb
  have ht := (h.mem b hb e (by rw [← hc]; simp)).1
  rw [← hc, List.map_append, List.map_cons] at hn
  obtain ⟨hnot, _⟩ := List.nodup_cons.mp (List.nodup_append.mp hn).2.1
  cases es with
  | nil =>
      have he := decode_eq_none.mp hhead
      exact ⟨fun hi => Nat.ne_of_lt (h.item_ne ht) (hi.symm.trans he), fun _ => rfl,
        fun hne => absurd he hne⟩
  | cons e' es' =>
      obtain ⟨hw, hne⟩ := decode_eq_some.mp hhead
      refine ⟨fun hi => hnot ?_, fun he => absurd (hw.symm.trans he) hne, fun _ => ⟨e', es', rfl, hw⟩⟩
      rw [← hi, hw]
      exact List.mem_cons_self

/-- **A write of the link of an item** leaves the other items alone, and the key and the value. -/
theorem Chained.writeNext_same (h : Chained hash disk f taken chain) (he : e ∈ taken) (next : Nat) :
    (∀ e' ∈ taken, e' ≠ e → SameItem f (f.writeNextPosition e.item next) e') ∧
      (f.Kept e → (f.writeNextPosition e.item next).Kept e) ∧
      ∀ i < f.headerSize, (f.writeNextPosition e.item next).bytes i = f.bytes i := by
  have hsize : e.size m = keySize + m.width + e.value.length := rfl
  have hout {i : Nat} (hi : i < f.address e.item + keySize ∨ f.address e.item + keySize + m.width ≤ i) :
      (f.writeNextPosition e.item next).bytes i = f.bytes i := Memory.writeWord_outside _ hi
  refine ⟨fun e' he' hne => ⟨rfl, fun i h₁ h₂ => hout ?_⟩, fun hkept k hk => ?_, fun i hi => hout ?_⟩
  · rcases h.disjoint he' he hne with hd | hd <;> omega
  · obtain ⟨_, _, hapart⟩ := f.byteAddress_mem hk
    rw [hkept k hk]
    exact congrArg some (hout hapart).symm
  · have := h.address_ge he
    omega

/-- **`release`**: the item behind another one is left out of its chain. -/
theorem Chained.release (h : Chained hash disk f taken chain) {b : Nat} (hb : b < f.buckets)
    {us vs : List (Entry keySize)} {q : Entry keySize} (hc : chain b = us ++ q :: e :: vs) :
    Chained hash disk (f.release e.item q.item) taken (Function.update chain b (us ++ q :: vs)) := by
  have hm := h.mem b hb
  have hn := h.nodup b hb
  have hl := h.linked b hb
  obtain ⟨_, hlt⟩ := h.rest hb
    (show chain b = (us ++ [q]) ++ e :: vs by rw [hc, List.append_assoc]; rfl)
  rw [hc] at hm hn hl
  have hqt : q ∈ taken := (hm q (by simp)).1
  obtain ⟨hsame, hkept, hhead⟩ := h.writeNext_same hqt (f.nextPosition e.item)
  unfold TableFile.release
  have hfree : ∀ b' < f.buckets, b' ≠ b → q ∉ chain b' := fun b' hb' hne hq =>
    hne ((h.mem b' hb' q hq).2.1.symm.trans (hm q (by simp)).2.1)
  have hsub : ∀ e' ∈ us ++ q :: vs, e' ∈ us ++ q :: e :: vs := fun e' he' => by
    rcases List.mem_append.mp he' with he' | he'
    · exact List.mem_append_left _ he'
    · rcases List.mem_cons.mp he' with rfl | he'
      · simp
      · simp [he']
  refine ⟨⟨h.headed.buckets_pos, h.headed.headerSize_eq, ?_, h.headed.count_lt, h.headed.first_le,
    h.headed.logical, h.headed.small⟩, h.fits, h.packed, h.first_le, h.value_fits, fun b' hb' => ?_,
    fun b' hb' => ?_, fun b' hb' e' he' => ?_⟩
  · have := h.headed.headerSize_le.1
    exact (congrArg Memory.ofLE (Memory.read_congr fun i _ hi => hhead i (by omega))).trans
      h.headed.stored
  · unfold BucketChain
    rw [readBucket_congr h.headed hhead hb']
    by_cases hbe : b' = b
    · subst hbe
      rw [Function.update_self]
      rw [List.map_append, List.map_cons, List.map_cons] at hl hn
      rw [List.map_append, List.map_cons]
      refine (Chain.skip hl hn).congr fun p hp => ?_
      by_cases hpq : p = q.item
      · rw [hpq, Function.update_self, linkOf, TableFile.nextPosition]
        show decode m ((f.bytes.writeWord (f.address q.item + keySize) m.width
          (f.nextPosition e.item)).readWord (f.address q.item + keySize) m.width) = _
        rw [Memory.readWord_writeWord _ hlt]
        rfl
      · rw [Function.update_of_ne hpq]
        rw [← List.map_cons, ← List.map_append] at hp
        obtain ⟨e', he', rfl⟩ := List.mem_map.mp hp
        exact linkOf_congr (hsame e' (hm e' (hsub e' he')).1 fun heq => hpq (heq ▸ rfl))
    · rw [Function.update_of_ne hbe]
      refine (h.linked b' hb').congr fun p hp => ?_
      obtain ⟨e', he', rfl⟩ := List.mem_map.mp hp
      exact linkOf_congr (hsame e' (h.mem b' hb' e' he').1 fun heq => hfree b' hb' hbe (heq ▸ he'))
  · by_cases hbe : b' = b
    · subst hbe
      rw [Function.update_self]
      refine List.Nodup.sublist (List.Sublist.map _ ?_) hn
      exact (List.Sublist.refl us).append ((List.sublist_cons_self e vs).cons_cons q)
    · rw [Function.update_of_ne hbe]
      exact h.nodup b' hb'
  · have hcase : e' ∈ taken ∧ f.bucketIndex hash e'.key = b' ∧ f.Kept e' := by
      by_cases hbe : b' = b
      · subst hbe
        rw [Function.update_self] at he'
        exact hm e' (hsub e' he')
      · rw [Function.update_of_ne hbe] at he'
        exact h.mem b' hb' e' he'
    obtain ⟨ht, hk, hkeep⟩ := hcase
    refine ⟨ht, hk, ?_⟩
    by_cases hq : e' = q
    · subst hq
      exact hkept hkeep
    · exact hkeep.congr (hsame e' ht hq)

/-- What `compare` says of the items of a chain. -/
theorem Chained.compare_eq (h : Chained hash disk f taken chain) {b : Nat} (hb : b < f.buckets)
    (key : Key keySize) : ∀ e ∈ chain b, f.compare e.item key = decide (e.key = key) :=
  fun e he => (h.mem b hb e he).2.2.compare key

/-- The loop of `unlink` with an item of the key in the chain: its first one is left out. -/
theorem Chained.unlink_split (h : Chained hash disk f taken chain)
    {us vs : List (Entry keySize)} (hus : ∀ u ∈ us, u.key ≠ e.key)
    (hsplit : chain (f.bucketIndex hash e.key) = us ++ e :: vs) : ∃ f',
      f.unlink hash f.count e.key = some (f', true) ∧
      Chained hash disk f' taken (Function.update chain (f.bucketIndex hash e.key) (us ++ vs)) ∧
      f'.buckets = f.buckets ∧ f'.headerSize = f.headerSize ∧ f'.count = f.count := by
  have hb := h.bucketIndex_lt e.key
  have hm := h.mem _ hb
  have hl := h.linked _ hb
  have hn := h.nodup _ hb
  have hlen := h.length_le hb
  have hcompare := h.compare_eq hb e.key
  rw [hsplit] at hlen hcompare
  rw [hsplit, List.map_append, List.map_cons] at hl hn
  have hx : ∀ x ∈ us.map Entry.item, f.compare x e.key = false := fun x hx => by
    obtain ⟨u, hu, rfl⟩ := List.mem_map.mp hx
    rw [hcompare u (List.mem_append_left _ hu)]
    exact decide_eq_false (hus u hu)
  have hfuel : (us.map Entry.item).length ≤ f.count := by
    rw [List.length_map]
    rw [List.length_append] at hlen
    omega
  obtain ⟨hun, _⟩ := unlink_found hl hn hx ((hcompare e (by simp)).trans (decide_eq_true rfl)) hfuel
  refine ⟨_, hun, ?_⟩
  unfold without
  rcases List.eq_nil_or_concat us with rfl | ⟨us', q, hus'⟩
  -- the first item: its bucket gets the next one
  · obtain ⟨hrest, hlt⟩ := h.rest hb hsplit
    refine ⟨h.setBucket e.key hlt ?_ ?_ fun e' he' => hm e' ?_, rfl, rfl, rfl⟩
    · unfold BucketChain
      rw [f.readBucket_link e.key hlt, if_pos rfl]
      refine hrest.congr fun p hp => ?_
      obtain ⟨e', he', rfl⟩ := List.mem_map.mp hp
      exact linkOf_congr (h.sameItem_link (hm e' (by rw [hsplit]; simp [he'])).1 e.key _)
    · exact (List.nodup_cons.mp hn).2
    · rw [hsplit]
      simpa using .inr he'
  -- any other one: the one before it does
  · rw [List.concat_eq_append] at hus'
    subst hus'
    rw [List.map_append, List.map_cons, List.map_nil, List.getLast?_concat]
    have hs : chain (f.bucketIndex hash e.key) = us' ++ q :: e :: vs := by
      rw [hsplit, List.append_assoc]
      rfl
    refine ⟨?_, rfl, rfl, rfl⟩
    rw [List.append_assoc]
    exact h.release hb hs

/-- **`unlink`** takes out the first item of the key, where the bucket links one at all. -/
theorem Chained.unlink (h : Chained hash disk f taken chain) {key : Key keySize}
    (hne : f.readBucketValue hash key ≠ empty m) : ∃ f',
      f.unlink hash f.count key = some (f', (chain (f.bucketIndex hash key)).any (·.key = key)) ∧
      Chained hash disk f' taken (Function.update chain (f.bucketIndex hash key)
        ((chain (f.bucketIndex hash key)).eraseP (·.key = key))) ∧
      f'.buckets = f.buckets ∧ f'.headerSize = f.headerSize ∧ f'.count = f.count := by
  have hb := h.bucketIndex_lt key
  by_cases hex : ∃ e ∈ chain (f.bucketIndex hash key), e.key = key
  · obtain ⟨e, us, vs, hus, hk, hsplit, herase⟩ := List.exists_of_eraseP
      (p := fun e : Entry keySize => decide (e.key = key)) hex.choose_spec.1
      (decide_eq_true hex.choose_spec.2)
    obtain rfl : e.key = key := of_decide_eq_true hk
    have hany : (chain (f.bucketIndex hash e.key)).any (fun u => decide (u.key = e.key)) = true :=
      List.any_eq_true.mpr ⟨e, by rw [hsplit]; simp, decide_eq_true rfl⟩
    rw [hany, herase]
    exact h.unlink_split (fun u hu => by simpa using hus u hu) hsplit
  · have hx : ∀ x ∈ (chain (f.bucketIndex hash key)).map Entry.item, f.compare x key = false :=
      fun x hx => by
        obtain ⟨e, he, rfl⟩ := List.mem_map.mp hx
        rw [h.compare_eq hb key e he]
        exact decide_eq_false fun hk => hex ⟨e, he, hk⟩
    have hany : (chain (f.bucketIndex hash key)).any (fun e => decide (e.key = key)) = false := by
      refine List.any_eq_false.mpr fun e he => ?_
      simpa using fun hk => hex ⟨e, he, hk⟩
    have herase : (chain (f.bucketIndex hash key)).eraseP (fun e => decide (e.key = key)) =
        chain (f.bucketIndex hash key) :=
      List.eraseP_of_forall_not fun e he => by simpa using fun hk => hex ⟨e, he, hk⟩
    have hnil : (chain (f.bucketIndex hash key)).map Entry.item ≠ [] := fun hnil =>
      hne (decode_eq_none.mp (Chain.head_eq (hnil ▸ h.linked _ hb)))
    have hfuel : ((chain (f.bucketIndex hash key)).map Entry.item).length ≤ f.count := by
      rw [List.length_map]
      exact h.length_le hb
    obtain ⟨hun, _⟩ := unlink_absent (h.linked _ hb) hnil (h.nodup _ hb) hx hfuel
    refine ⟨f, ?_, ?_, rfl, rfl, rfl⟩
    · rw [hun, hany]
    · rw [herase, Function.update_eq_self]
      exact h

/-! ## 4. Creating and reopening -/

/-- **A created file** has no items. -/
theorem create_chained (hash : Key keySize → Nat) (hd : disk.size ≤ maxObject) {buckets : Nat}
    (hb : buckets < Memory.limit 4) {bytes : Memory} (hc : create m keySize disk buckets bytes = some f) :
    Chained hash disk f [] fun _ => [] := by
  obtain ⟨hrep, hl, _⟩ := create_rep hash hd hb hc
  refine ⟨hrep.headed, hl, .nil _, fun _ he => (nomatch he), fun _ he => (nomatch he),
    fun b hb => ?_, fun _ _ => .nil, fun _ _ _ he => (nomatch he)⟩
  unfold BucketChain
  rw [hrep.bucket b hb]
  show Chain f.linkOf (decode m (empty m)) []
  rw [decode_eq_none.mpr rfl]
  exact .nil

/-- **The file is synchronized, closed and started again.** -/
theorem Chained.reopen (h : Chained hash disk f taken chain) :
    start m keySize f.sync.close f.buckets = some (f.startedOn f.sync.bytes) ∧
      Chained hash disk (f.startedOn f.sync.bytes) taken chain := by
  have hstart : start m keySize ⟨f.sync.bytes, f.logicalSize⟩ f.buckets =
      some (f.startedOn f.sync.bytes) := h.headed.start_eq fun _ _ => rfl
  refine ⟨hstart, h.congr rfl rfl rfl rfl h.fits.reopened
    (fun i hi => f.sync_outside (.inl hi))
    fun b hb e he i h₁ _ => f.sync_outside (.inr ?_)⟩
  have := h.address_ge (h.mem b hb e he).1
  omega

end Chained

end TableFile

end Libbitcoin.Database
