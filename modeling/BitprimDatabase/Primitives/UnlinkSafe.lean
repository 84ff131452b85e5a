/-
  File:      BitprimDatabase/Primitives/UnlinkSafe.lean
  Subject:   WHAT `unlink` READS AND WRITES (slab_hash_table.ipp, record_hash_table.ipp), for any key
             in any state of a table file: present, absent from its bucket, or in an empty bucket.

  * `BucketChain` -- the chain of a bucket as the words of the file have it;
  * `unlinkReads` -- the items `unlink` reads, in order;
  * `UnlinkSafe` -- it reads linked items, takes out the newest one of the key, or changes nothing;
  * `Reached` -- the states behind `create` and calls with room, reopened or not;
  * **`unlink_safe_iff`** -- `unlink` is safe exactly where the bucket is not empty: the first item
    is read before the loop tests for the sentinel.
-/
import BitprimDatabase.Primitives.Reopen

namespace Libbitcoin.Database

open Lib

namespace TableFile

variable {m : Manager} {keySize : Nat} {hash : Key keySize → Nat} {f f' : TableFile m keySize}
  {t : HashTable (Key keySize) (List UInt8)}

/-! ## 1. The chain of a bucket, in the file -/

/-- A word as the link it stands for. -/
def decode (m : Manager) (word : Nat) : Option Nat := if word = empty m then none else some word

theorem decode_eq_some {word p : Nat} : decode m word = some p ↔ word = p ∧ p ≠ empty m := by
  unfold decode
  by_cases h : word = empty m
  · rw [if_pos h]
    refine iff_of_false (fun h' => by cases h') ?_
    rintro ⟨rfl, hne⟩
    exact hne h
  · rw [if_neg h, Option.some.injEq]
    constructor
    · rintro rfl
      exact ⟨rfl, h⟩
    · exact And.left

theorem decode_eq_none {word : Nat} : decode m word = none ↔ word = empty m := by
  unfold decode
  by_cases h : word = empty m <;> simp [h]

/-- A link to an item below the counter is read back. -/
theorem Rep.decode_encode (h : Rep hash f t) {link : Option Nat}
    (hl : ∀ p, link = some p → p < t.free) : decode m (encode m link) = link := by
  cases link with
  | none => exact if_pos rfl
  | some p => exact if_neg (Nat.ne_of_lt (h.item_lt (hl p rfl)))

/-- The item a link goes to. -/
def linkOf (f : TableFile m keySize) (item : Nat) : Option Nat := decode m (f.nextPosition item)

/-- The items of a bucket's chain, as the file links them. -/
def BucketChain (f : TableFile m keySize) (b : Nat) (ps : List Nat) : Prop :=
  Chain f.linkOf (decode m (f.readBucket b)) ps

/-- **The chain in the file is the chain of the table.** -/
theorem Rep.bucketChain (h : Rep hash f t) (hw : t.WF) {b : Nat} (hb : b < f.buckets) :
    f.BucketChain b (t.chain b) := by
  unfold BucketChain
  rw [h.bucket b hb, h.decode_encode fun p hp => hw.bucket_lt hp]
  refine (hw.chain b).congr fun p hp => ?_
  obtain ⟨r, hr, _⟩ := hw.mem_chain hp
  unfold linkOf
  rw [h.next p r hr, h.decode_encode fun q hq => ?_, HashTable.next, hr]
  · rfl
  · have := hw.row_lt p r hr
    have := (hw.next_row p r q hr hq).1
    omega

theorem Rep.bucketChain_iff (h : Rep hash f t) (hw : t.WF) {b : Nat} (hb : b < f.buckets)
    {ps : List Nat} : f.BucketChain b ps ↔ ps = t.chain b := by
  constructor
  · exact fun hl => Chain.unique hl (h.bucketChain hw hb)
  · rintro rfl
    exact h.bucketChain hw hb

/-- An item of the table is compared by its key. -/
theorem Rep.compare_valueFor (h : Rep hash f t) {p : Nat} {r : Row (Key keySize) (List UInt8)}
    (hr : t.row p = some r) (key : Key keySize) :
    f.compare p key = (t.valueFor key p).isSome := by
  rw [h.compare_eq hr]
  unfold HashTable.valueFor
  by_cases hk : r.key = key <;> simp [hr, hk]

/-! ## 2. The items that `unlink` reads -/

/-- The items the loop reads behind the first one. -/
def unlinkFromReads (f : TableFile m keySize) (key : Key keySize) : Nat → Nat → List Nat
  | 0, _ => []
  | fuel + 1, current =>
    if current = empty m then []
    else if f.compare current key then [current]
    else if f.nextPosition current = current then [current]
    else current :: f.unlinkFromReads key fuel (f.nextPosition current)

/-- The items `unlink` reads. -/
def unlinkReads (f : TableFile m keySize) (hash : Key keySize → Nat) (fuel : Nat)
    (key : Key keySize) : List Nat :=
  let begin := f.readBucketValue hash key
  if f.compare begin key then [begin]
  else begin :: f.unlinkFromReads key fuel (f.nextPosition begin)

/-- The file without an item: its link is written to the bucket, or to the last of the items in front
    of it. -/
def without (f : TableFile m keySize) (hash : Key keySize → Nat) (key : Key keySize)
    (xs : List Nat) (p : Nat) : TableFile m keySize :=
  match xs.getLast? with
  | none => f.link hash key (f.nextPosition p)
  | some q => f.release p q

/-- The item at the head of a chain is no sentinel, and does not link to itself. -/
theorem chain_cons {word p : Nat} {ps : List Nat} (hc : Chain f.linkOf (decode m word) (p :: ps))
    (hn : (p :: ps).Nodup) : word = p ∧ p ≠ empty m ∧ f.nextPosition p ≠ p ∧
      Chain f.linkOf (decode m (f.nextPosition p)) ps := by
  obtain ⟨rfl, hne⟩ := decode_eq_some.mp hc.head_eq
  have hrest : Chain f.linkOf (decode m (f.nextPosition word)) ps := hc.tail
  refine ⟨rfl, hne, fun hself => ?_, hrest⟩
  have hhead := hrest.head_eq
  rw [hself, decode, if_neg hne] at hhead
  exact (List.nodup_cons.mp hn).1 (List.mem_of_mem_head? hhead.symm)

/-- The loop over a chain with the key: it stops at the first item with it. -/
theorem unlinkFrom_found {key : Key keySize} {us ys : List Nat} {p word fuel : Nat}
    (previous : Nat) (hc : Chain f.linkOf (decode m word) (us ++ p :: ys)) (hn : (us ++ p :: ys).Nodup)
    (hx : ∀ u ∈ us, f.compare u key = false) (hp : f.compare p key = true) (hf : us.length < fuel) :
    f.unlinkFrom key fuel previous word = some (f.release p (us.getLast?.getD previous), true) ∧
      f.unlinkFromReads key fuel word = us ++ [p] := by
  induction us generalizing previous word fuel with
  | nil =>
      cases fuel with
      | zero => exact absurd hf (Nat.not_lt_zero _)
      | succ fuel =>
          obtain ⟨rfl, hne, _⟩ := chain_cons hc hn
          unfold unlinkFrom unlinkFromReads
          rw [if_neg hne, if_neg hne, if_pos hp, if_pos hp]
          exact ⟨rfl, rfl⟩
  | cons u us ih =>
      cases fuel with
      | zero => exact absurd hf (Nat.not_lt_zero _)
      | succ fuel =>
          obtain ⟨rfl, hne, hself, hrest⟩ := chain_cons hc hn
          have hu : ¬ f.compare word key = true := by
            rw [hx word List.mem_cons_self]
            exact Bool.false_ne_true
          obtain ⟨hun, hre⟩ := ih word hrest (List.nodup_cons.mp hn).2
            (fun v hv => hx v (List.mem_cons_of_mem _ hv)) (Nat.lt_of_succ_lt_succ hf)
          unfold unlinkFrom unlinkFromReads
          rw [if_neg hne, if_neg hu, if_neg hself, if_neg hne, if_neg hu, if_neg hself, hun, hre,
            List.getLast?_cons]
          exact ⟨rfl, rfl⟩

/-- The loop over a chain without the key runs to its end. -/
theorem unlinkFrom_absent {key : Key keySize} {us : List Nat} {word fuel : Nat} (previous : Nat)
    (hc : Chain f.linkOf (decode m word) us) (hn : us.Nodup)
    (hx : ∀ u ∈ us, f.compare u key = false) (hf : us.length < fuel) :
    f.unlinkFrom key fuel previous word = some (f, false) ∧
      f.unlinkFromReads key fuel word = us := by
  induction us generalizing previous word fuel with
  | nil =>
      cases fuel with
      | zero => exact absurd hf (Nat.not_lt_zero _)
      | succ fuel =>
          have hempty : word = empty m := decode_eq_none.mp hc.head_eq
          unfold unlinkFrom unlinkFromReads
          rw [if_pos hempty, if_pos hempty]
          exact ⟨rfl, rfl⟩
  | cons u us ih =>
      cases fuel with
      | zero => exact absurd hf (Nat.not_lt_zero _)
      | succ fuel =>
          obtain ⟨rfl, hne, hself, hrest⟩ := chain_cons hc hn
          have hu : ¬ f.compare word key = true := by
            rw [hx word List.mem_cons_self]
            exact Bool.false_ne_true
          obtain ⟨hun, hre⟩ := ih word hrest (List.nodup_cons.mp hn).2
            (fun v hv => hx v (List.mem_cons_of_mem _ hv)) (Nat.lt_of_succ_lt_succ hf)
          unfold unlinkFrom unlinkFromReads
          rw [if_neg hne, if_neg hu, if_neg hself, if_neg hne, if_neg hu, if_neg hself, hun, hre]
          exact ⟨rfl, rfl⟩

/-- **`unlink` of a key in its chain** reads up to the first item with the key and takes it out. -/
theorem unlink_found {key : Key keySize} {xs ys : List Nat} {p fuel : Nat}
    (hc : f.BucketChain (f.bucketIndex hash key) (xs ++ p :: ys)) (hn : (xs ++ p :: ys).Nodup)
    (hx : ∀ x ∈ xs, f.compare x key = false) (hp : f.compare p key = true)
    (hf : xs.length ≤ fuel) :
    f.unlink hash fuel key = some (f.without hash key xs p, true) ∧
      f.unlinkReads hash fuel key = xs ++ [p] := by
  unfold unlink unlinkReads readBucketValue
  cases xs with
  | nil =>
      obtain ⟨hw, _⟩ := chain_cons hc hn
      dsimp only
      rw [hw, if_pos hp, if_pos hp]
      exact ⟨rfl, rfl⟩
  | cons x us =>
      obtain ⟨hw, _, _, hrest⟩ := chain_cons hc hn
      have hu : ¬ f.compare x key = true := by
        rw [hx x List.mem_cons_self]
        exact Bool.false_ne_true
      obtain ⟨hun, hre⟩ := unlinkFrom_found x hrest (List.nodup_cons.mp hn).2
        (fun v hv => hx v (List.mem_cons_of_mem _ hv)) hp hf
      dsimp only
      rw [hw, if_neg hu, if_neg hu, hun, hre]
      unfold without
      rw [List.getLast?_cons]
      exact ⟨rfl, rfl⟩

/-- **`unlink` of a key that is not in its chain** reads the chain and changes nothing, where there
    is a first item. -/
theorem unlink_absent {key : Key keySize} {ps : List Nat} {fuel : Nat}
    (hc : f.BucketChain (f.bucketIndex hash key) ps) (hne : ps ≠ []) (hn : ps.Nodup)
    (hx : ∀ x ∈ ps, f.compare x key = false) (hf : ps.length ≤ fuel) :
    f.unlink hash fuel key = some (f, false) ∧ f.unlinkReads hash fuel key = ps := by
  unfold unlink unlinkReads readBucketValue
  cases ps with
  | nil => exact absurd rfl hne
  | cons x us =>
      obtain ⟨hw, _, _, hrest⟩ := chain_cons hc hn
      have hu : ¬ f.compare x key = true := by
        rw [hx x List.mem_cons_self]
        exact Bool.false_ne_true
      obtain ⟨hun, hre⟩ := unlinkFrom_absent x hrest (List.nodup_cons.mp hn).2
        (fun v hv => hx v (List.mem_cons_of_mem _ hv)) hf
      dsimp only
      rw [hw, if_neg hu, if_neg hu, hun, hre]
      exact ⟨rfl, rfl⟩

/-! ## 3. Safety -/

/-- **The file `f'` is `f` with a chain of one bucket replaced**: the other chains and the keys of
    all linked items stay. -/
structure Relinked (f f' : TableFile m keySize) (b : Nat) (ps : List Nat) : Prop where
  bucket : f'.BucketChain b ps
  others : ∀ b' < f.buckets, b' ≠ b → ∀ qs, f.BucketChain b' qs → f'.BucketChain b' qs
  keys : ∀ b' < f.buckets, ∀ qs, f.BucketChain b' qs → ∀ q ∈ qs, ∀ key,
    f'.compare q key = f.compare q key

/-- **`unlink` is safe for a key**: it reads linked items of the key's bucket; with the key in the
    chain it takes out the newest item of the key and answers true, otherwise it answers false and
    changes nothing. -/
def UnlinkSafe (hash : Key keySize → Nat) (f : TableFile m keySize) (key : Key keySize) : Prop :=
  ∃ ps, f.BucketChain (f.bucketIndex hash key) ps ∧ (∀ p ∈ f.unlinkReads hash f.count key, p ∈ ps) ∧
    ((∃ xs p ys, ps = xs ++ p :: ys ∧ (∀ x ∈ xs, f.compare x key = false) ∧
        f.compare p key = true ∧ f.unlink hash f.count key = some (f.without hash key xs p, true) ∧
        Relinked f (f.without hash key xs p) (f.bucketIndex hash key) (xs ++ ys)) ∨
      ((∀ p ∈ ps, f.compare p key = false) ∧ f.unlink hash f.count key = some (f, false)))

/-- An empty bucket: the sentinel is read as an item. -/
theorem not_unlinkSafe {key : Key keySize} (h : f.readBucketValue hash key = empty m) :
    ¬ UnlinkSafe hash f key := by
  rintro ⟨ps, hc, hreads, _⟩
  have hps : ps = [] := by
    unfold BucketChain at hc
    rw [show f.readBucket (f.bucketIndex hash key) = empty m from h, decode, if_pos rfl] at hc
    cases hc
    rfl
  subst hps
  refine List.not_mem_nil (hreads (f.readBucketValue hash key) ?_)
  unfold unlinkReads
  dsimp only
  split
  · exact List.mem_singleton_self _
  · exact List.mem_cons_self

section Safe

variable {disk : Disk} {s : Stacks (Key keySize) (List UInt8)}

/-- **In a bucket with items `unlink` is safe**, and the table is kept. -/
theorem Holding.unlinkSafe (h : Holding hash disk f t s) {key : Key keySize}
    (hb : f.readBucketValue hash key ≠ empty m) : UnlinkSafe hash f key := by
  have hbk := h.rep.bucketIndex_lt key
  have hlinked : f.BucketChain (f.bucketIndex hash key) (t.chain (t.bucketIndex key)) := by
    rw [h.rep.bucketIndex_eq]
    exact h.rep.bucketChain h.wf hbk
  have hnodup : (t.chain (t.bucketIndex key)).Nodup := (h.wf.chain _).nodup h.wf.descends
  have hlen := h.wf.chain_length (t.bucketIndex key)
  rw [h.rep.free_eq] at hlen
  have hcompare : ∀ p ∈ t.chain (t.bucketIndex key), ∀ k,
      f.compare p k = (t.valueFor k p).isSome := fun p hp k => by
    obtain ⟨r, hr, _⟩ := h.wf.mem_chain hp
    exact h.rep.compare_valueFor hr k
  cases hs : t.stack key with
  | nil =>
      have hx : ∀ p ∈ t.chain (t.bucketIndex key), f.compare p key = false := fun p hp => by
        rw [hcompare p hp, List.filterMap_eq_nil_iff.mp hs p hp]
        rfl
      have hne : t.chain (t.bucketIndex key) ≠ [] := fun he => by
        rw [he] at hlinked
        exact hb (decode_eq_none.mp (Chain.head_eq hlinked))
      obtain ⟨hun, hre⟩ := unlink_absent hlinked hne hnodup hx hlen
      refine ⟨_, hlinked, fun p hp => ?_, .inr ⟨hx, hun⟩⟩
      rwa [hre] at hp
  | cons v vs =>
      obtain ⟨t', xs, ys, p, hu, hun⟩ := h.wf.unlink_unlinks hs
      obtain ⟨f', hf, hrep, _, _⟩ := h.rep.unlink h.wf hu
      have hch := hun.chain_before
      rw [hch] at hlinked hnodup hlen hcompare
      have hx : ∀ x ∈ xs, f.compare x key = false := fun x hx => by
        rw [hcompare x (List.mem_append_left _ hx), hun.before x hx]
        rfl
      have hp : f.compare p key = true := by
        obtain ⟨r, hr, hk⟩ := hun.row
        rw [h.rep.compare_eq hr, hk]
        exact decide_eq_true rfl
      have hfuel : xs.length ≤ f.count := by
        rw [List.length_append] at hlen
        omega
      obtain ⟨hfound, hre⟩ := unlink_found hlinked hnodup hx hp hfuel
      have hf' : f.without hash key xs p = f' := by
        rw [hf] at hfound
        exact (Prod.ext_iff.mp (Option.some.inj hfound)).1.symm
      have hbuckets : f'.buckets = f.buckets := by
        have hsize := (HashTable.unlink_frame hu).1
        rw [← hrep.size_eq, ← h.rep.size_eq, hsize]
      refine ⟨_, hlinked, fun q hq => ?_, .inl ⟨xs, p, ys, rfl, hx, hp, hfound, ?_⟩⟩
      · rw [hre] at hq
        rcases List.mem_append.mp hq with hq | hq
        · exact List.mem_append_left _ hq
        · rw [List.mem_singleton.mp hq]
          exact List.mem_append_right _ List.mem_cons_self
      rw [hf', h.rep.bucketIndex_eq]
      refine ⟨?_, fun b' hb' hne qs hqs => ?_, fun b' hb' qs hqs q hq k => ?_⟩
      · rw [← hun.chain_after]
        exact hrep.bucketChain hun.wf (hbuckets.symm ▸ hbk)
      · rw [(h.rep.bucketChain_iff h.wf hb').mp hqs, ← hun.chain_other b' hne]
        exact hrep.bucketChain hun.wf (hbuckets.symm ▸ hb')
      · rw [(h.rep.bucketChain_iff h.wf hb').mp hqs] at hq
        obtain ⟨r, hr, _⟩ := h.wf.mem_chain hq
        have hkey := hun.key_eq q
        rw [hr] at hkey
        obtain ⟨r', hr', hk⟩ := Option.map_eq_some_iff.mp hkey
        rw [hrep.compare_eq hr', h.rep.compare_eq hr, hk]

/-! ## 4. Reached states -/

/-- What a call needs: values that fit, writers that keep the size, room in the counter, an item in
    the bucket. -/
def Call.Meets (hash : Key keySize → Nat) (f : TableFile m keySize)
    (s : Stacks (Key keySize) (List UInt8)) : Call keySize → Prop
  | store key value => (Call.store key value).Allowed m s ∧ m.Room f.count
  | update key size write => (Call.update key size write).Allowed m s
  | unlink key => f.readBucketValue hash key ≠ empty m

/-- **The states of a table**, with the values under each key: created, behind calls, and reopened
    after a shutdown. -/
inductive Reached (hash : Key keySize → Nat) (disk : Disk) (buckets : Nat) :
    TableFile m keySize → Stacks (Key keySize) (List UInt8) → Prop where
  | create (bytes : Memory) (f : TableFile m keySize)
      (hc : create m keySize disk buckets bytes = some f) : Reached hash disk buckets f fun _ => []
  | call (f f' : TableFile m keySize) (s : Stacks (Key keySize) (List UInt8)) (c : Call keySize)
      (h : Reached hash disk buckets f s) (hm : c.Meets hash f s)
      (hc : c.apply hash disk f = some f') : Reached hash disk buckets f' (c.spec s)
  | reopened (f f' : TableFile m keySize) (s : Stacks (Key keySize) (List UInt8))
      (h : Reached hash disk buckets f s)
      (hs : start m keySize f.sync.close f.buckets = some f') : Reached hash disk buckets f' s

/-- A call that meets its condition keeps the table, also an unlink of an absent key. -/
theorem Holding.meets (h : Holding hash disk f t s) (hd : disk.size ≤ maxObject) {c : Call keySize}
    (hm : c.Meets hash f s) (hc : c.apply hash disk f = some f') :
    ∃ t', Holding hash disk f' t' (c.spec s) := by
  cases c with
  | store key value =>
      refine (h.apply hd hm.1 (fun k v he => ?_) hc).1
      cases he
      exact hm.2
  | update key size write =>
      refine (h.apply hd (c := .update key size write) hm (fun k v he => ?_) hc).1
      cases he
  | unlink key =>
      by_cases hs : s key = []
      · have hstack : t.stack key = [] := (congrFun h.stack_eq key).trans hs
        cases hb : t.readBucketValue key with
        | none =>
            refine absurd ?_ hm
            rw [h.rep.readBucketValue_eq, hb]
            rfl
        | some begin =>
            obtain ⟨f₁, hf₁, hrep, hl, _⟩ := h.rep.unlink h.wf (h.wf.unlink_absent hstack hb)
            obtain ⟨⟨f₂, b⟩, hu, rfl⟩ := Option.map_eq_some_iff.mp hc
            rw [hf₁] at hu
            cases hu
            refine ⟨t, hrep, h.wf, ?_, hl ▸ h.fits⟩
            rw [h.stack_eq]
            funext k
            by_cases hk : k = key
            · subst hk
              show s k = s.pop k k
              rw [Stacks.pop_same, hs]
              rfl
            · exact (Stacks.pop_ne _ hk).symm
      · refine (h.apply hd (c := .unlink key) hs (fun k v he => ?_) hc).1
        cases he

/-- **Every reached file holds a table.** -/
theorem Reached.holding {buckets : Nat} (hd : disk.size ≤ maxObject) (hb : buckets < Memory.limit 4)
    (h : Reached hash disk buckets f s) : ∃ t, Holding hash disk f t s := by
  induction h with
  | create bytes f hc => exact (create_holding hash hd hb hc).1
  | call f f' s c _ hm hc ih =>
      obtain ⟨t, ih⟩ := ih
      exact ih.meets hd hm hc
  | reopened f f' s _ hs ih =>
      obtain ⟨t, ih⟩ := ih
      have hstart : start m keySize ⟨f.sync.bytes, f.logicalSize⟩ f.buckets = some f' := hs
      rw [ih.rep.start_eq fun _ _ => rfl] at hstart
      cases hstart
      exact ⟨t, ih.rep.startedOn ih.wf fun i _ ho => f.sync_outside ho, ih.wf, ih.stack_eq,
        ih.fits.reopened⟩

end Safe

/-- **`unlink` is safe exactly where the bucket of the key is not empty**, in every state reached by
    calls that meet their condition. -/
theorem unlink_safe_iff {disk : Disk} {buckets : Nat} (hd : disk.size ≤ maxObject)
    (hb : buckets < Memory.limit 4) {s : Stacks (Key keySize) (List UInt8)}
    (h : Reached hash disk buckets f s) (key : Key keySize) :
    UnlinkSafe hash f key ↔ f.readBucketValue hash key ≠ empty m := by
  obtain ⟨t, ht⟩ := h.holding hd hb
  exact ⟨fun hsafe he => not_unlinkSafe he hsafe, ht.unlinkSafe⟩

/-- One bucket with an item: a key that is not there can be unlinked. -/
theorem oneBucket_unlinkSafe : ∃ f : TableFile .slab 1,
    Reached (fun _ => 0) .sample 1 f ((Call.store (oneKey 1) [7]).spec fun _ => []) ∧
      UnlinkSafe (fun _ => 0) f (oneKey 2) := by
  have hb : ((create .slab 1 .sample 1 fun _ => 0).bind fun f =>
      ((Call.store (oneKey 1) [7]).apply (fun _ => 0) .sample f).bind fun f' =>
        if f'.readBucketValue (fun _ => 0) (oneKey 2) ≠ empty .slab then some f' else none).isSome =
          true := by decide +kernel
  obtain ⟨f', hb⟩ := Option.isSome_iff_exists.mp hb
  obtain ⟨f, hc, hb⟩ := Option.bind_eq_some_iff.mp hb
  obtain ⟨f₁, hs, hb⟩ := Option.bind_eq_some_iff.mp hb
  split at hb
  · rename_i hne
    cases hb
    have hcreated : Reached (fun _ => 0) .sample 1 f fun _ => [] := .create _ f hc
    have hreached := Reached.call f f' _ (.store (oneKey 1) [7]) hcreated
      ⟨⟨True.intro, by decide⟩, True.intro⟩ hs
    exact ⟨f', hreached, (unlink_safe_iff (by decide) (by decide) hreached (oneKey 2)).mpr hne⟩
  · cases hb

/-- An empty table: the first item of an empty bucket is read at the sentinel. -/
theorem emptyBucket_unsafe : ∃ f : TableFile .slab 1,
    create .slab 1 .sample 1 (fun _ => 0) = some f ∧
      (f.unlinkReads (fun _ => 0) f.count (oneKey 2)).head? = some (empty .slab) ∧
      ¬ UnlinkSafe (fun _ => 0) f (oneKey 2) := by
  have hb : ((create .slab 1 .sample 1 fun _ => 0).bind fun f =>
      if f.readBucketValue (fun _ => 0) (oneKey 2) = empty .slab ∧
          (f.unlinkReads (fun _ => 0) f.count (oneKey 2)).head? = some (empty .slab) then some f
      else none).isSome = true := by decide +kernel
  obtain ⟨f', hb⟩ := Option.isSome_iff_exists.mp hb
  obtain ⟨f, hc, hb⟩ := Option.bind_eq_some_iff.mp hb
  split at hb
  · rename_i h
    cases hb
    exact ⟨f', hc, h.2, not_unlinkSafe h.1⟩
  · cases hb

end TableFile

end Libbitcoin.Database
