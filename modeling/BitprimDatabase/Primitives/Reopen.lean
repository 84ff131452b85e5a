/-
  File:      BitprimDatabase/Primitives/Reopen.lean
  Subject:   **REOPENING A TABLE FILE** (hash_table_header.ipp `start`, slab_manager.cpp and
             record_manager.cpp `start`, memory_map.cpp `close`): a file is synchronized and closed,
             and a header and a manager are constructed on it with some bucket count.

  * `Rep.frame` -- the count word and what stands behind the end are no part of the table;
  * `Rep.start_eq` -- the bucket count of the file gives the table back, `Rep.start_ne` -- any other
    is refused, but for 0: the header trusts the file, and the manager is built on a header of no
    buckets, so it reads its count from the buckets;
  * `reopen` -- close and start with the same bucket count, `Synced` before;
  * `Preserved` -- `find` answers as before, and a store leaves the linked items alone;
  * **`reopened_iff`** -- it holds where the count is not 0, or nothing is linked; a slab table below
    four gigabytes is preserved nowhere else.
-/
import BitprimDatabase.Lib.Layout
import BitprimDatabase.Primitives.TableCalls

namespace Libbitcoin.Database

open Lib

namespace TableFile

variable {m : Manager} {keySize : Nat} {hash : Key keySize → Nat} {f f' : TableFile m keySize}
  {t : HashTable (Key keySize) (List UInt8)}

/-! ## 1. Starting on a file -/

/-- The bytes of a file that was synchronized. -/
theorem sync_outside (f : TableFile m keySize) {i : Nat}
    (hi : i < f.headerSize ∨ f.headerSize + m.width ≤ i) : f.sync.bytes i = f.bytes i :=
  Memory.writeWord_outside _ hi

/-- The file as it is started again, on what was read back. -/
def startedOn (f : TableFile m keySize) (bytes : Memory) : TableFile m keySize :=
  ⟨f.reopened, f.buckets, f.headerSize, bytes, f.count⟩

theorem Rep.startedOn (h : Rep hash f t) (hw : t.WF) {bytes : Memory}
    (he : ∀ i < f.logicalSize, i < f.headerSize ∨ f.headerSize + m.width ≤ i → bytes i = f.bytes i) :
    Rep hash (f.startedOn bytes) t := by
  have h := h.frame hw he
  exact ⟨h.hash_eq, h.size_eq, h.buckets_pos, h.headerSize_eq, h.stored, h.bucket, h.key, h.next,
    h.value, h.free_eq, h.count_lt, h.first_le, h.row_first, h.row_lt, h.apart, h.logical, h.small⟩

section Reopened

variable {bytes : Memory} (hbytes : ∀ i < f.logicalSize, bytes i = f.sync.bytes i)
include hbytes

/-- **A header and a manager with the bucket count of the file** start on it. -/
theorem Headed.start_eq (h : f.Headed) : start m keySize ⟨bytes, f.logicalSize⟩ f.buckets =
    some (f.startedOn bytes) := by
  obtain ⟨hfour, hend, hhead⟩ := h.headerSize_le
  have hstored : bytes.readWord 0 4 = f.buckets := by
    refine (congrArg Memory.ofLE (Memory.read_congr fun i _ hi => ?_)).trans h.stored
    rw [hbytes i (by omega), f.sync_outside (.inl (by omega))]
  have hcount : bytes.readWord f.headerSize m.width = f.count := by
    have hsync : f.sync.bytes.readWord f.headerSize m.width = f.count :=
      Memory.readWord_writeWord _ h.count_lt
    refine (congrArg Memory.ofLE (Memory.read_congr fun i _ hi => ?_)).trans hsync
    exact hbytes i (by omega)
  have hsize : (f.headerSize + m.position keySize f.count) % sizeLimit ≤ f.logicalSize := by
    rw [h.logical]
    exact Nat.mod_le _ _
  unfold start headerStart
  dsimp only
  rw [← h.headerSize_eq, hcount, hstored, if_pos]
  · rfl
  refine ⟨?_, hsize⟩
  simp only [beq_self_eq_true, Bool.or_true, Bool.and_true, decide_eq_true_eq]
  omega

theorem Rep.start_eq (h : Rep hash f t) : start m keySize ⟨bytes, f.logicalSize⟩ f.buckets =
    some (f.startedOn bytes) :=
  h.headed.start_eq hbytes

/-- Another bucket count is refused, unless it is 0. -/
theorem Rep.start_ne (h : Rep hash f t) {buckets : Nat} (hne : buckets ≠ f.buckets)
    (hpos : buckets ≠ 0) : start m keySize ⟨bytes, f.logicalSize⟩ buckets = none := by
  obtain ⟨hfour, hhead⟩ := h.headerSize_le
  have hstored : bytes.readWord 0 4 = f.buckets := by
    refine (congrArg Memory.ofLE (Memory.read_congr fun i _ hi => ?_)).trans h.stored
    rw [hbytes i (by omega), f.sync_outside (.inl (by omega))]
  unfold start headerStart
  rw [hstored, if_neg]
  simp [hpos, Ne.symm hne]

/-- A bucket count of 0 reads the buckets of the file, and takes a word of them as its own count. -/
theorem Rep.start_zero (h : Rep hash f t)
    (hs : start m keySize ⟨bytes, f.logicalSize⟩ 0 = some f') :
    f'.readBucket 0 = encode m (t.bucket 0) ∧ f'.count = bytes.readWord m.width m.width ∧
      f'.buckets = 0 ∧ f'.headerSize = m.width ∧ f'.bytes = bytes ∧ f'.fileSize = f.logicalSize ∧
      (m.width + m.position keySize f'.count) % sizeLimit ≤ f.logicalSize := by
  obtain ⟨hfour, hhead⟩ := h.headerSize_le
  have hend := (h.bucket_before h.buckets_pos).2
  have hzero : itemPosition m 0 = 4 := by simp [itemPosition]
  have hheader : m.headerSize 0 = m.width := by simp [Manager.headerSize]
  rw [hzero] at hend
  have hword : bytes.readWord 4 m.width = encode m (t.bucket 0) := by
    have hbucket := h.bucket 0 h.buckets_pos
    unfold readBucket at hbucket
    rw [hzero] at hbucket
    refine (congrArg Memory.ofLE (Memory.read_congr fun i _ hi => ?_)).trans hbucket
    rw [hbytes i (by omega), f.sync_outside (.inl (by omega))]
  unfold start at hs
  dsimp only at hs
  split at hs
  · rename_i hsize
    cases hs
    rw [hheader] at hsize
    rw [readBucket]
    dsimp only
    rw [hzero, hheader]
    exact ⟨hword, rfl, rfl, rfl, rfl, rfl, hsize.2⟩
  · cases hs

end Reopened

/-- Close and start again, with `rest` behind the end of the file. -/
def reopen (f : TableFile m keySize) (rest : Memory) : Option (TableFile m keySize) :=
  let file := f.close
  start m keySize ⟨fun i => if i < file.size then file.bytes i else rest i, file.size⟩ f.buckets

/-- The count word in the file is the count of the manager. -/
def Synced (f : TableFile m keySize) : Prop := f.bytes.Holds f.headerSize (Memory.toLE m.width f.count)

theorem sync_synced (f : TableFile m keySize) : f.sync.Synced := Memory.holds_write ..

theorem create_synced {disk : Disk} {buckets : Nat} {bytes : Memory}
    (hc : create m keySize disk buckets bytes = some f) : f.Synced := by
  unfold create at hc
  split at hc
  · cases hc
  · obtain ⟨_, _, hc⟩ := Option.bind_eq_some_iff.mp hc
    obtain ⟨_, _, rfl⟩ := Option.map_eq_some_iff.mp hc
    exact sync_synced _

theorem Synced.sync_eq (h : f.Synced) : f.sync = f := by
  unfold sync
  rw [show f.bytes.writeWord f.headerSize m.width f.count = f.bytes from h.write_self]

/-- **A synchronized file is reopened**: the table and the count are those from before. -/
theorem Holding.reopen {disk : Disk} {s : Stacks (Key keySize) (List UInt8)}
    (h : Holding hash disk f t s) (hs : f.Synced) (rest : Memory) :
    ∃ f', f.reopen rest = some f' ∧ Holding hash disk f' t s ∧ f'.count = f.count ∧ f'.Synced := by
  let bytes : Memory := fun i => if i < f.logicalSize then f.bytes i else rest i
  have hbytes : ∀ i < f.logicalSize, bytes i = f.bytes i := fun i hi => if_pos hi
  have hstart : start m keySize ⟨bytes, f.logicalSize⟩ f.buckets = some (f.startedOn bytes) :=
    h.rep.start_eq (hs.sync_eq.symm ▸ hbytes)
  obtain ⟨_, hhead⟩ := h.rep.headerSize_le
  refine ⟨_, hstart, ⟨?_, h.wf, h.stack_eq, h.fits.reopened⟩, rfl, ?_⟩
  · exact h.rep.startedOn h.wf fun i hi _ => hbytes i hi
  · refine hs.congr fun i _ hi => hbytes i ?_
    rw [Memory.length_toLE] at hi
    omega

theorem Holding.sync {disk : Disk} {s : Stacks (Key keySize) (List UInt8)}
    (h : Holding hash disk f t s) : Holding hash disk f.sync t s :=
  ⟨h.rep.frame h.wf fun _ _ ho => f.sync_outside ho, h.wf, h.stack_eq, h.fits⟩

/-! ## 2. What is preserved -/

/-- The item is linked. -/
def Linked (f : TableFile m keySize) (t : HashTable (Key keySize) (List UInt8)) (p : Nat)
    (r : Row (Key keySize) (List UInt8)) : Prop :=
  (∃ i < f.buckets, p ∈ t.chain i) ∧ t.row p = some r

/-- **The reopened file `f'` stands for what the file `f` held**: `find` answers from the same
    stacks, and a store leaves the bytes of the linked items alone. -/
structure Preserved (hash : Key keySize → Nat) (disk : Disk) (f : TableFile m keySize)
    (t : HashTable (Key keySize) (List UInt8)) (s : Stacks (Key keySize) (List UInt8))
    (f' : TableFile m keySize) : Prop where
  found : ∀ key v vs, s key = v :: vs → ∃ fuel item, f'.find hash fuel key = some (some item) ∧
    f'.bytes.read (f'.data item) v.length = v
  absent : ∀ key, s key = [] → ∃ fuel, f'.find hash fuel key = some none
  kept : ∀ key value f'' off, (Call.store key value).Allowed m s →
    f'.store hash disk key value = some (f'', off) → ∀ p r, f.Linked t p r →
    ∀ i, f.address p ≤ i → i < f.address p + itemSize m r → f''.bytes i = f.bytes i

section Holding

variable {disk : Disk} {s : Stacks (Key keySize) (List UInt8)} {bytes : Memory}
  (hbytes : ∀ i < f.logicalSize, bytes i = f.sync.bytes i)
include hbytes

/-- **With its own bucket count** the reopened file is the file again. -/
theorem Holding.preserved (h : Holding hash disk f t s) :
    Preserved hash disk f t s (f.startedOn bytes) := by
  have hsame : ∀ i < f.logicalSize, i < f.headerSize ∨ f.headerSize + m.width ≤ i →
      bytes i = f.bytes i := fun i hi ho => (hbytes i hi).trans (f.sync_outside ho)
  have hrep := h.rep.startedOn h.wf hsame
  have hfind (key : Key keySize) : (f.startedOn bytes).find hash (f.count + 1) key = some (t.find key) :=
    hrep.find_eq h.wf key (Nat.lt_succ_self _)
  have hlog := h.rep.address_count
  refine ⟨fun key v vs hs => ?_, fun key hs => ?_, fun key value f'' off _ hst p r hp i h₁ h₂ => ?_⟩
  · obtain ⟨p, hf⟩ := h.wf.find_isSome ((congrFun h.stack_eq key).trans hs)
    obtain ⟨_, _, r, hch, hr, hk, hx⟩ := h.wf.find_some hf
    have hsplit := HashTable.stack_split hch hr hk hx
    rw [h.stack_eq, hs] at hsplit
    refine ⟨f.count + 1, p, by rw [hfind, hf], ?_⟩
    rw [(List.cons.inj hsplit).1]
    exact hrep.value p r hr
  · have hnone : t.find key = none := h.wf.find_none.mpr ((congrFun h.stack_eq key).trans hs)
    exact ⟨f.count + 1, by rw [hfind, hnone]⟩
  · have hend := h.rep.item_le h.wf hp.2
    have hbegin := h.rep.address_ge hp.2
    have hword := (hrep.bucket_before (hrep.bucketIndex_lt key)).2
    rw [← hrep.bucketIndex_eq] at hword
    have hword : itemPosition m (f.bucketIndex hash key) + m.width ≤ f.headerSize := hword
    rw [store_eq] at hst
    obtain ⟨_, _, hst⟩ := Option.map_eq_some_iff.mp hst
    cases hst
    refine (storedBytes_outside _ hash key value (.inl ?_) (.inr ?_)).trans
      (hsame i (by omega) (.inr (by omega)))
    · show i < f.address f.count
      omega
    · show itemPosition m (f.bucketIndex hash key) + m.width ≤ i
      omega

/-- Where nothing is linked the first bucket is empty, and every answer is null. -/
theorem Holding.preserved_zero (h : Holding hash disk f t s) (hs : ∀ key, s key = [])
    (hstart : start m keySize ⟨bytes, f.logicalSize⟩ 0 = some f') :
    Preserved hash disk f t s f' := by
  obtain ⟨hread, _, hb, _⟩ := h.rep.start_zero hbytes hstart
  have hnone (i p : Nat) : p ∉ t.chain i := by
    intro hp
    obtain ⟨r, hr, hi⟩ := h.wf.mem_chain hp
    rw [← hi] at hp
    have hmem : r.value ∈ t.stack r.key :=
      List.mem_filterMap.mpr ⟨p, hp, HashTable.valueFor_eq_some.mpr ⟨r, hr, rfl, rfl⟩⟩
    rw [h.stack_eq, hs] at hmem
    cases hmem
  have hempty : t.bucket 0 = none := by
    cases hbk : t.bucket 0 with
    | none => rfl
    | some p => exact absurd (h.wf.mem_chain_bucket hbk) (hnone 0 p)
  refine ⟨fun key v vs hv => ?_, fun key _ => ⟨1, ?_⟩, fun key value f'' off _ _ p r hp => ?_⟩
  · rw [hs key] at hv
    cases hv
  · have hidx : f'.bucketIndex hash key = 0 := by
      unfold bucketIndex remainder
      rw [hb, if_pos rfl]
    unfold find readBucketValue
    rw [hidx, hread, hempty]
    simp [seek, encode]
  · obtain ⟨⟨i, _, hi⟩, _⟩ := hp
    exact absurd hi (hnone i p)

end Holding

/-- A slab store in what is mapped, its value away from the bucket it links. -/
theorem store_slab {f : TableFile .slab keySize} (disk : Disk) (hsmall : f.fileSize < sizeLimit)
    {key : Key keySize} (hbucket : itemPosition .slab (f.bucketIndex hash key) + 8 ≤ f.data f.count)
    {value : List UInt8} (hfit : f.headerSize + f.count + (keySize + 8) + value.length ≤ f.fileSize) :
    ∃ f' off, f.store hash disk key value = some (f', off) ∧
      ∀ j, (hj : j < value.length) → f'.bytes (f.data f.count + j) = value[j] := by
  have hlim : sizeLimit = 18446744073709551616 := rfl
  have hlim8 : Memory.limit (Manager.width .slab) = 18446744073709551616 := rfl
  have hext : Manager.extent .slab keySize value.length = keySize + 8 + value.length := rfl
  have haddr : f.address f.count = f.headerSize + f.count :=
    address_eq (show f.headerSize + f.count < sizeLimit by omega)
  have hdata : f.data f.count = f.address f.count + (keySize + 8) := rfl
  have hpos : Manager.position .slab keySize (f.count + (keySize + 8 + value.length)) =
    f.count + (keySize + 8 + value.length) := rfl
  have hcount : f.count + (keySize + 8 + value.length) < Memory.limit (Manager.width .slab) := by
    omega
  have hsize : f.headerSize + (f.count + (keySize + 8 + value.length)) < sizeLimit := by omega
  rw [store_eq]
  dsimp only
  have hreserve := disk.reserve_of_le (s := f.toMappedSize)
    (show f.headerSize + (f.count + (keySize + 8 + value.length)) ≤ f.fileSize by omega)
  rw [hext, Nat.mod_eq_of_lt hcount, hpos, Nat.mod_eq_of_lt hsize, hreserve]
  refine ⟨_, _, rfl, fun j hj => ?_⟩
  show f.storedBytes hash key value (f.data f.count + j) = value[j]
  have hwidth : Manager.width .slab = 8 := rfl
  unfold storedBytes
  rw [Memory.writeWord_outside _ (by omega), Memory.writeWord_outside _ (by omega),
    Memory.write_inside _ hj]

/-- **The size a slab manager on a header of no buckets takes from the buckets** of a file below four
    gigabytes whose first bucket is linked: the upper half of that bucket and the four bytes behind
    it, which are 0 where the manager starts. -/
theorem Rep.zero_count {f f' : TableFile .slab keySize} (h : Rep hash f t) (hw : t.WF)
    {bytes : Memory} (hbytes : ∀ i < f.logicalSize, bytes i = f.sync.bytes i)
    (hsmall : f.logicalSize ≤ Memory.limit 4)
    (hstart : start .slab keySize ⟨bytes, f.logicalSize⟩ 0 = some f') {p : Nat}
    (hbk : t.bucket 0 = some p) : f'.count = 0 := by
  have hlim4 : Memory.limit 4 = 4294967296 := rfl
  have hlim : sizeLimit = 18446744073709551616 := rfl
  have hwidth : Manager.width .slab = 8 := rfl
  obtain ⟨hread, hcount, -, -, hbytes', -, hsize⟩ := h.start_zero hbytes hstart
  obtain ⟨r, hr, _⟩ := hw.bucket_row 0 p hbk
  have hlog : f.logicalSize = f.headerSize + f.count := h.logical
  have hp : p < Memory.limit 4 := by
    have := hw.row_lt p r hr
    have := h.free_eq
    omega
  have hfirst : bytes.readWord 4 8 = p := by
    rw [readBucket, hbytes', hbk] at hread
    exact hread
  have hlow : bytes.readWord 4 8 = bytes.readWord 4 4 + Memory.limit 4 * bytes.readWord 8 4 :=
    bytes.readWord_add 4 4 4
  have hhigh : bytes.readWord 8 8 = bytes.readWord 8 4 + Memory.limit 4 * bytes.readWord 12 4 :=
    bytes.readWord_add 8 4 4
  have hrest := bytes.readWord_lt 12 4
  have hpos : Manager.position .slab keySize f'.count = f'.count := rfl
  rw [hwidth] at hcount hsize
  rw [hpos, hlim] at hsize
  rw [hlim4] at hp hlow hhigh hrest hsmall
  omega

/-- **A slab table with something linked, reopened with a bucket count of 0**: it finds nothing, or
    allocates from the buckets on, over what is linked. -/
theorem Holding.not_preserved_zero {f f' : TableFile .slab keySize} {disk : Disk}
    {s : Stacks (Key keySize) (List UInt8)} (h : Holding hash disk f t s) (hdisk : disk.size ≤ maxObject)
    {bytes : Memory} (hbytes : ∀ i < f.logicalSize, bytes i = f.sync.bytes i)
    (hsmall : f.logicalSize ≤ Memory.limit 4)
    (hstart : start .slab keySize ⟨bytes, f.logicalSize⟩ 0 = some f') {key : Key keySize}
    (hs : s key ≠ []) : ¬ Preserved hash disk f t s f' := by
  intro hpres
  obtain ⟨hread, -, hb, hhead, hbytes', hmapped, -⟩ := h.rep.start_zero hbytes hstart
  have hidx : f'.bucketIndex hash key = 0 := by
    unfold bucketIndex remainder
    rw [hb, if_pos rfl]
  cases hbk : t.bucket 0 with
  | none =>
      rw [hbk] at hread
      obtain ⟨v, vs, hv⟩ := List.exists_cons_of_ne_nil hs
      obtain ⟨fuel, item, hf, _⟩ := hpres.found key v vs hv
      unfold find readBucketValue at hf
      rw [hidx, hread] at hf
      cases fuel <;> simp [seek, encode] at hf
  | some p =>
      obtain ⟨r, hr, _⟩ := h.wf.bucket_row 0 p hbk
      have hcount : f'.count = 0 := h.rep.zero_count h.wf hbytes hsmall hstart hbk
      have hfirst : 8 ≤ p := h.rep.row_first p r hr
      have hbegin : 12 ≤ f.headerSize := (h.rep.bucket_before h.rep.buckets_pos).2
      have hend : f.address p + (keySize + 8 + r.value.length) ≤ f.address f.count :=
        h.rep.item_le h.wf hr
      have hlog := h.rep.address_count
      have hfits := h.fits.le
      have haddr : f.address p = f.headerSize + p := h.rep.address_item hr
      have hdata : f'.data f'.count = 8 + 0 + (keySize + 8) := by
        unfold data
        rw [hcount, address_eq (by rw [hhead]; exact (by decide : 8 + 0 < sizeLimit)), hhead]
        rfl
      -- a value that reaches into the item, and differs from it there
      obtain ⟨a, ha, ha', hle⟩ : ∃ a, f.address p ≤ a ∧ f'.data f'.count ≤ a ∧
          a < f.headerSize + p + (keySize + 8) :=
        ⟨max (f.address p) (f'.data f'.count), Nat.le_max_left _ _, Nat.le_max_right _ _, by omega⟩
      let value := List.replicate (a + 1 - f'.data f'.count) (f.bytes a + 1)
      have hlen : value.length = a + 1 - f'.data f'.count := List.length_replicate
      have hword : itemPosition .slab (f'.bucketIndex hash key) + 8 ≤ f'.data f'.count := by
        rw [hidx, hdata]
        show 12 ≤ 8 + 0 + (keySize + 8)
        omega
      have hfit : f'.headerSize + f'.count + (keySize + 8) + value.length ≤ f'.fileSize := by
        have hwidth : f'.headerSize = 8 := hhead
        omega
      have hlim : f'.fileSize < sizeLimit :=
        Nat.lt_of_le_of_lt (Nat.le_trans (Nat.le_of_eq hmapped) hsmall) (by decide)
      obtain ⟨f'', off, hst, hval⟩ := store_slab disk hlim hword hfit
      have hallowed : (Call.store key value).Allowed .slab s := by
        refine ⟨True.intro, ?_⟩
        show keySize + 8 + value.length ≤ maxObject
        omega
      have hkept := hpres.kept key value f'' off hallowed hst p r
        ⟨⟨0, h.rep.buckets_pos, h.wf.mem_chain_bucket hbk⟩, hr⟩ a ha (by
          show a < f.address p + (keySize + 8 + r.value.length)
          omega)
      have hnew := hval (a - f'.data f'.count) (by omega)
      rw [Nat.add_sub_cancel' ha', List.getElem_replicate, hkept] at hnew
      exact absurd hnew (by
        intro he
        have := congrArg UInt8.toNat he
        rw [UInt8.toNat_add] at this
        have := (f.bytes a).toNat_lt
        have : (1 : UInt8).toNat = 1 := rfl
        omega)

/-! ## 3. Which bucket counts preserve a table -/

/-- **Reopening preserves a table where the bucket count is not 0, or nothing is linked**; a slab
    table below four gigabytes it preserves nowhere else. What the file system puts behind the end is
    arbitrary, and a record table was not filled beyond its counter. -/
theorem reopened_iff (hash : Key keySize → Nat) {disk : Disk} {buckets : Nat} (hd : disk.size ≤ maxObject)
    (hb : buckets < Memory.limit 4) {bytes : Memory} {f : TableFile m keySize}
    (hc : create m keySize disk buckets bytes = some f) {calls : List (Call keySize)}
    (ha : EveryStep Call.spec (Call.Allowed m) (fun _ => []) calls)
    (hroom : ∀ valueSize, m = .record valueSize → stores calls < Memory.limit 4)
    {f₁ : TableFile m keySize} (hr : applyAll hash disk f calls = some f₁) :
    ∃ t, Holding hash disk f₁ t (run Call.spec (fun _ => []) calls) ∧
      ∀ bytes' : Memory, (∀ i < f₁.logicalSize, bytes' i = f₁.sync.bytes i) → ∀ buckets' f',
        start m keySize ⟨bytes', f₁.sync.close.size⟩ buckets' = some f' →
        ((buckets' ≠ 0 ∨ ∀ key, run Call.spec (fun _ => []) calls key = []) →
          Preserved hash disk f₁ t (run Call.spec (fun _ => []) calls) f') ∧
        (m = .slab → f₁.logicalSize ≤ Memory.limit 4 →
          Preserved hash disk f₁ t (run Call.spec (fun _ => []) calls) f' →
          buckets' ≠ 0 ∨ ∀ key, run Call.spec (fun _ => []) calls key = []) := by
  obtain ⟨⟨t, h⟩, _⟩ := holding_of_create hash hd hb hc ha hroom hr
  refine ⟨t, h, fun bytes' hbytes buckets' f' hs => ⟨fun hcond => ?_, fun hm hsmall hpres => ?_⟩⟩
  · by_cases hzero : buckets' = 0
    · subst hzero
      exact h.preserved_zero hbytes (hcond.resolve_left fun hne => hne rfl) hs
    · by_cases hsame : buckets' = f₁.buckets
      · subst hsame
        have hs' := h.rep.start_eq hbytes
        rw [show f₁.sync.close.size = f₁.logicalSize from rfl, hs'] at hs
        cases hs
        exact h.preserved hbytes
      · rw [show f₁.sync.close.size = f₁.logicalSize from rfl,
          h.rep.start_ne hbytes hsame hzero] at hs
        cases hs
  · subst hm
    by_cases hzero : buckets' = 0
    · refine .inr fun key => ?_
      subst hzero
      exact Classical.byContradiction fun hne => h.not_preserved_zero hd hbytes hsmall hs hne hpres
    · exact .inl hzero

/-- The table with one bucket, reopened with it: preserved. -/
theorem oneBucket_reopened : ∃ f f' f'', create .slab 1 .sample 1 (fun _ => 0) = some f ∧
    applyAll (fun _ => 0) .sample f oneBucketCalls = some f' ∧
    start .slab 1 f'.sync.close 1 = some f'' ∧ ∃ t,
      Preserved (fun _ => 0) .sample f' t (run Call.spec (fun _ => []) oneBucketCalls) f'' := by
  have hb : ((create .slab 1 .sample 1 fun _ => 0).bind fun f =>
      (applyAll (fun _ => 0) .sample f oneBucketCalls).bind fun f' =>
        start .slab 1 f'.sync.close 1).isSome = true := by decide +kernel
  obtain ⟨f'', hb⟩ := Option.isSome_iff_exists.mp hb
  obtain ⟨f, hc, hb⟩ := Option.bind_eq_some_iff.mp hb
  obtain ⟨f', hr, hs⟩ := Option.bind_eq_some_iff.mp hb
  obtain ⟨t, _, h⟩ := reopened_iff (fun _ => 0) (by decide) (by decide) hc oneBucketCalls_allowed
    (fun _ hm => by cases hm) hr
  exact ⟨f, f', f'', hc, hr, hs, t, (h _ (fun _ _ => rfl) 1 f'' hs).1 (.inl (by decide))⟩

/-- **A bucket count of 0 is accepted and loses what is linked**: of three buckets the key is in the
    third; it is found before closing, and not after. -/
theorem zeroBuckets_lose : ∃ f f' f'', create .slab 1 .sample 3 (fun _ => 0) = some f ∧
    applyAll (fun _ => 2) .sample f [.store (oneKey 1) [7]] = some f' ∧
    start .slab 1 f'.sync.close 0 = some f'' ∧
    f'.find (fun _ => 2) 100 (oneKey 1) = some (some 8) ∧
    ∀ fuel, f''.find (fun _ => 2) (fuel + 1) (oneKey 1) = some none := by
  have hb : ((create .slab 1 .sample 3 fun _ => 0).bind fun f =>
      (applyAll (fun _ => 2) .sample f [.store (oneKey 1) [7]]).bind fun f' =>
        (start .slab 1 f'.sync.close 0).bind fun f'' =>
          if f'.find (fun _ => 2) 100 (oneKey 1) = some (some 8) ∧
              f''.readBucketValue (fun _ => 2) (oneKey 1) = empty .slab then some f''
          else none).isSome = true := by decide +kernel
  obtain ⟨_, hb⟩ := Option.isSome_iff_exists.mp hb
  obtain ⟨f, hc, hb⟩ := Option.bind_eq_some_iff.mp hb
  obtain ⟨f', hr, hb⟩ := Option.bind_eq_some_iff.mp hb
  obtain ⟨f'', hs, hb⟩ := Option.bind_eq_some_iff.mp hb
  obtain ⟨⟨hf, hempty⟩, _⟩ := Option.ite_none_right_eq_some.mp hb
  refine ⟨f, f', f'', hc, hr, hs, hf, fun fuel => ?_⟩
  unfold find seek
  rw [hempty, if_pos rfl]

end TableFile

end Libbitcoin.Database
