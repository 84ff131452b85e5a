/-
  File:      BitprimDatabase/Primitives/TableCalls.lean
  Subject:   **A TABLE FILE IS A MAP FROM KEYS TO STACKS**, over every sequence of calls from
             `create` on: `store` pushes, `update` edits the top, `unlink` pops, and `find` returns
             the bytes of the top.

  * `Call`, `Call.apply` -- the calls on the file; `Call.spec` -- on the stacks;
  * `Call.Allowed` -- a writer keeps the size of the value, an unlinked key is present;
  * `Holding` -- the file holds a table with these stacks; kept by every call, so by every run;
  * `Serves` -- what the queries then answer; `slabTable_isMap` assembles it.
-/
import BitprimDatabase.Lib.Run
import BitprimDatabase.Primitives.TableFile

namespace Libbitcoin.Database

open Lib

/-- Up to the first element the test refuses, that one included. -/
def takeThrough {A : Type} (p : A → Bool) : List A → List A
  | [] => []
  | a :: l => if p a then a :: takeThrough p l else [a]

theorem takeThrough_append {A : Type} (p : A → Bool) (l l' : List A) :
    takeThrough p (l ++ l') = if l.all p then l ++ takeThrough p l' else takeThrough p l := by
  induction l with
  | nil => rfl
  | cons a l ih =>
      rw [List.cons_append, takeThrough, takeThrough, List.all_cons, ih]
      by_cases hp : p a = true
      · simp only [hp, if_true, Bool.true_and]
        split <;> rfl
      · simp [hp]

theorem takeThrough_all {A : Type} {p : A → Bool} {l : List A} (h : l.all p = true) :
    takeThrough p l = l := by
  have := takeThrough_append p l []
  rwa [List.append_nil, if_pos h, takeThrough, List.append_nil] at this

theorem takeThrough_map {A B : Type} (p : B → Bool) (g : A → B) (l : List A) :
    (takeThrough (fun a => p (g a)) l).map g = takeThrough p (l.map g) := by
  induction l with
  | nil => rfl
  | cons a l ih =>
      rw [List.map_cons, takeThrough, takeThrough]
      split
      · rw [List.map_cons, ih]
      · rfl

namespace TableFile

variable {m : Manager} {keySize : Nat} {hash : Key keySize → Nat} {f : TableFile m keySize}
  {t : HashTable (Key keySize) (List UInt8)} {disk : Disk}

/-! ## 1. for_each -/

/-- The loop of `for_each` over a chain. -/
theorem Rep.visitFrom_eq (h : Rep hash f t) (hw : t.WF) (visit : Nat → Bool) {head : Option Nat}
    {ps : List Nat} (hc : Chain t.next head ps) (hps : ∀ p ∈ ps, ∃ r, t.row p = some r) {fuel : Nat}
    (hf : ps.length < fuel) : f.visitFrom visit fuel (encode m head) =
      some (takeThrough visit (ps.map f.data), (ps.map f.data).all visit) := by
  induction hc generalizing fuel with
  | nil =>
      cases fuel with
      | zero => exact absurd hf (Nat.not_lt_zero _)
      | succ fuel => simp [visitFrom, encode, takeThrough]
  | cons p ps hc ih =>
      cases fuel with
      | zero => exact absurd hf (Nat.not_lt_zero _)
      | succ fuel =>
          obtain ⟨r, hr⟩ := hps p List.mem_cons_self
          have hp : p ≠ empty m := Nat.ne_of_lt (h.item_lt (hw.row_lt p r hr))
          have hn : t.next p = r.next := by simp [HashTable.next, hr]
          have hself : f.nextPosition p ≠ p := by
            rw [h.next p r hr]
            cases hnr : r.next with
            | none => exact hp.symm
            | some q => exact Nat.ne_of_lt (hw.next_row p r q hr hnr).1
          have ih := ih (fun q hq => hps q (List.mem_cons_of_mem _ hq))
            (Nat.lt_of_succ_lt_succ hf)
          rw [hn, ← h.next p r hr] at ih
          rw [show encode m (some p) = p from rfl]
          unfold visitFrom
          rw [if_neg hp, if_neg hself, ih]
          cases hv : visit (f.data p) <;> simp [takeThrough, hv]

/-- **`for_each` visits every linked item**, up to the first that is refused. -/
theorem Rep.forEach_eq (h : Rep hash f t) (hw : t.WF) (visit : Nat → Bool) {fuel : Nat}
    (hf : f.count < fuel) : f.forEach visit fuel =
      some (takeThrough visit (((List.range f.buckets).flatMap t.chain).map f.data)) := by
  have hbucket (i : Nat) (hi : i < f.buckets) : f.visitFrom visit fuel (f.readBucket i) =
      some (takeThrough visit ((t.chain i).map f.data), ((t.chain i).map f.data).all visit) := by
    rw [h.bucket i hi]
    refine h.visitFrom_eq hw visit (hw.chain i)
      (fun p hp => (hw.mem_chain hp).imp fun _ hr => hr.1) ?_
    have := hw.chain_length i
    have := h.free_eq
    omega
  unfold forEach
  have hall : ∀ i ∈ List.range f.buckets, i < f.buckets := fun i hi => List.mem_range.mp hi
  generalize List.range f.buckets = is at hall
  induction is with
  | nil => rfl
  | cons i is ih =>
      obtain ⟨hi, his⟩ := List.forall_mem_cons.mp hall
      unfold forEachFrom
      rw [hbucket i hi, List.flatMap_cons, List.map_append, takeThrough_append]
      cases hv : ((t.chain i).map f.data).all visit with
      | false => simp
      | true => simp [ih his, takeThrough_all hv]

/-- The linked items: where their data is, their key and their value. -/
def items (f : TableFile m keySize) (t : HashTable (Key keySize) (List UInt8)) (ps : List Nat) :
    List (Nat × Key keySize × List UInt8) :=
  ps.filterMap fun p => (t.row p).map fun r => (f.data p, r.key, r.value)

theorem items_data (f : TableFile m keySize) {ps : List Nat}
    (hps : ∀ p ∈ ps, ∃ r, t.row p = some r) : (f.items t ps).map Prod.fst = ps.map f.data := by
  induction ps with
  | nil => rfl
  | cons p ps ih =>
      obtain ⟨r, hr⟩ := hps p List.mem_cons_self
      have ih := ih fun q hq => hps q (List.mem_cons_of_mem _ hq)
      unfold items at ih ⊢
      rw [List.filterMap_cons_some (by rw [hr]; rfl), List.map_cons, List.map_cons, ih]

theorem items_values (f : TableFile m keySize) (ps : List Nat) (key : Key keySize) :
    ((f.items t ps).filter fun item => item.2.1 = key).map (fun item => item.2.2) =
      ps.filterMap (t.valueFor key) := by
  have hmap : (f.items t ps).map Prod.snd =
      ps.filterMap fun p => (t.row p).map fun r => (r.key, r.value) := by
    unfold items
    rw [List.map_filterMap]
    simp only [Option.map_map, Function.comp_def]
  rw [← t.valueFor_items, ← hmap, List.filter_map, List.map_map]
  rfl

/-! ## 2. Calls -/

/-- The writing calls; `update` exists for slab tables. -/
inductive Call (keySize : Nat) where
  | store (key : Key keySize) (value : List UInt8)
  | update (key : Key keySize) (size : Nat) (write : List UInt8 → List UInt8)
  | unlink (key : Key keySize)

namespace Call

def key : Call keySize → Key keySize
  | store key _ => key
  | update key _ _ => key
  | unlink key => key

/-- The call on the file, `none` where it throws. -/
def apply (hash : Key keySize → Nat) (disk : Disk) (f : TableFile m keySize) :
    Call keySize → Option (TableFile m keySize)
  | store key value => (f.store hash disk key value).map Prod.fst
  | update key size write => (f.update hash (f.count + 1) key size write).map Prod.fst
  | unlink key => (f.unlink hash f.count key).map Prod.fst

/-- The call on the stacks. -/
def spec (s : Stacks (Key keySize) (List UInt8)) : Call keySize → Stacks (Key keySize) (List UInt8)
  | store key value => s.push key value
  | update key _ write => s.modifyTop key write
  | unlink key => s.pop key

/-- What a caller keeps to: values that fit, writers that keep the size, present keys. -/
def Allowed (m : Manager) (s : Stacks (Key keySize) (List UInt8)) : Call keySize → Prop
  | store _ value => m.Fits value ∧ m.itemBytes keySize value.length ≤ maxObject
  | update key size write => ∀ v, (s key).head? = some v → v.length = size ∧ (write v).length = size
  | unlink key => s key ≠ []

end Call

/-- The calls in order, `none` where one throws. -/
def applyAll (hash : Key keySize → Nat) (disk : Disk) :
    TableFile m keySize → List (Call keySize) → Option (TableFile m keySize)
  | f, [] => some f
  | f, c :: calls =>
    match c.apply hash disk f with
    | none => none
    | some f => applyAll hash disk f calls

theorem applyAll_append (f : TableFile m keySize) (calls calls' : List (Call keySize)) :
    applyAll hash disk f (calls ++ calls') =
      (applyAll hash disk f calls).bind fun f => applyAll hash disk f calls' := by
  induction calls generalizing f with
  | nil => rfl
  | cons c calls ih =>
      rw [List.cons_append, applyAll, applyAll]
      cases c.apply hash disk f with
      | none => rfl
      | some f => exact ih f

theorem applyAll_one (f : TableFile m keySize) (c : Call keySize) :
    applyAll hash disk f [c] = c.apply hash disk f := by
  unfold applyAll
  cases c.apply hash disk f <;> rfl

/-- The number of stores. -/
def stores : List (Call keySize) → Nat
  | [] => 0
  | .store _ _ :: calls => stores calls + 1
  | .update _ _ _ :: calls => stores calls
  | .unlink _ :: calls => stores calls

@[simp] theorem stores_cons_store (key : Key keySize) (value : List UInt8)
    (calls : List (Call keySize)) : stores (.store key value :: calls) = stores calls + 1 := rfl

/-- **The file holds a table with these stacks.** -/
structure Holding (hash : Key keySize → Nat) (disk : Disk) (f : TableFile m keySize)
    (t : HashTable (Key keySize) (List UInt8)) (s : Stacks (Key keySize) (List UInt8)) : Prop where
  rep : Rep hash f t
  wf : t.WF
  stack_eq : t.stack = s
  fits : disk.Fits f.toMappedSize

section Holding

variable {s : Stacks (Key keySize) (List UInt8)}

/-- **A created file holds the empty stacks.** -/
theorem create_holding (hash : Key keySize → Nat) (hd : disk.size ≤ maxObject) {buckets : Nat}
    (hb : buckets < Memory.limit 4)
    {bytes : Memory} (hc : create m keySize disk buckets bytes = some f) :
    (∃ t, Holding hash disk f t fun _ => []) ∧ f.count = m.first := by
  obtain ⟨hrep, hl, _⟩ := create_rep hash hd hb hc
  exact ⟨⟨_, hrep, HashTable.create_wf .., funext fun key => HashTable.create_stack .., hl⟩,
    hrep.free_eq.symm⟩

/-- The item the search finds for a key, with the top of its stack. -/
theorem Holding.top (h : Holding hash disk f t s) {key : Key keySize} {v : List UInt8}
    {vs : List (List UInt8)} (hs : s key = v :: vs) :
    ∃ p r, t.find key = some p ∧ t.row p = some r ∧ r.value = v := by
  obtain ⟨p, hf⟩ := h.wf.find_isSome ((congrFun h.stack_eq key).trans hs)
  obtain ⟨_, _, r, hch, hr, hk, hx⟩ := h.wf.find_some hf
  have hsplit := HashTable.stack_split hch hr hk hx
  rw [h.stack_eq, hs] at hsplit
  exact ⟨p, r, hf, hr, (List.cons.inj hsplit).1.symm⟩

/-- The newest value of a key is on the disk, behind its key and its link. -/
theorem Holding.top_le (h : Holding hash disk f t s) {key : Key keySize} {v : List UInt8}
    {vs : List (List UInt8)} (hs : s key = v :: vs) : m.prefixSize keySize + v.length ≤ disk.size := by
  obtain ⟨p, r, _, hr, hv⟩ := h.top hs
  have hend : f.address p + (m.prefixSize keySize + r.value.length) ≤ f.address f.count :=
    h.rep.item_le h.wf hr
  have hlog := h.rep.address_count
  have := h.fits.le
  rw [hv] at hend
  omega

/-- **A store**, where it does not throw: the table with the item in front. -/
theorem Holding.stored (h : Holding hash disk f t s) (hd : disk.size ≤ maxObject) {key : Key keySize}
    {value : List UInt8} (ha : (Call.store key value).Allowed m s) (hroom : m.Room f.count)
    {f' : TableFile m keySize} {off : Nat} (hs : f.store hash disk key value = some (f', off)) :
    Holding hash disk f' (t.store key value (m.extent keySize value.length)).1 (s.push key value) ∧
      off = offset m keySize t.free ∧ f'.count = f.count + m.extent keySize value.length := by
  obtain ⟨hrep, hoff, hl, _⟩ := h.rep.store h.wf hd h.fits key ha.1 ha.2 hroom hs
  have hext := m.extent_pos keySize value.length
  have hstack : (t.store key value (m.extent keySize value.length)).1.stack = s.push key value := by
    rw [h.wf.store_stack key value hext, h.stack_eq]
  refine ⟨⟨hrep, h.wf.store key value hext, hstack, hl⟩, hoff, ?_⟩
  rw [← hrep.free_eq, HashTable.store_free, h.rep.free_eq]

/-- **An unlink** of a key with values answers true, and takes the top. -/
theorem Holding.unlinks (h : Holding hash disk f t s) {key : Key keySize} (hs : s key ≠ []) :
    ∃ f', f.unlink hash f.count key = some (f', true) ∧
      (∃ t', Holding hash disk f' t' (s.pop key)) ∧ f'.count = f.count := by
  obtain ⟨v, vs, hs⟩ := List.exists_cons_of_ne_nil hs
  obtain ⟨t', ht', hwf, hst⟩ := h.wf.unlink_stack ((congrFun h.stack_eq key).trans hs)
  obtain ⟨f', hf', hrep, hl, hcount⟩ := h.rep.unlink h.wf ht'
  exact ⟨f', hf', ⟨t', hrep, hwf, by rw [hst, h.stack_eq], hl ▸ h.fits⟩, hcount⟩

/-- **One call.** A store needs room in the counter. -/
theorem Holding.apply (h : Holding hash disk f t s) (hd : disk.size ≤ maxObject) {c : Call keySize}
    (ha : c.Allowed m s) (hroom : ∀ key value, c = .store key value → m.Room f.count)
    {f' : TableFile m keySize}
    (hc : c.apply hash disk f = some f') :
    (∃ t', Holding hash disk f' t' (c.spec s)) ∧ f.count ≤ f'.count ∧
      f'.count ≤ f.count + match c with
        | .store _ value => m.extent keySize value.length
        | _ => 0 := by
  cases c with
  | store key value =>
      obtain ⟨⟨f'', off⟩, hs, rfl⟩ := Option.map_eq_some_iff.mp hc
      obtain ⟨hheld, _, hcount⟩ := h.stored hd ha (hroom key value rfl) hs
      exact ⟨⟨_, hheld⟩, hcount ▸ Nat.le_add_right _ _, Nat.le_of_eq hcount⟩
  | update key size write =>
      obtain ⟨⟨f'', off⟩, hu, rfl⟩ := Option.map_eq_some_iff.mp hc
      cases hs : s key with
      | nil =>
          have hnone : t.find key = none := h.wf.find_none.mpr (by rw [h.stack_eq, hs])
          unfold TableFile.update at hu
          rw [h.rep.find_eq h.wf key (Nat.lt_succ_self _), hnone] at hu
          cases hu
          refine ⟨⟨t, h.rep, h.wf, ?_, h.fits⟩, Nat.le_refl _, Nat.le_refl _⟩
          rw [h.stack_eq]
          funext k
          show s k = s.modifyTop key write k
          by_cases hk : k = key
          · subst hk
            rw [Stacks.modifyTop_same, hs]
            rfl
          · rw [Stacks.modifyTop_ne _ _ hk]
      | cons v vs =>
          obtain ⟨p, r, hf, hr, hv⟩ := h.top hs
          obtain ⟨hsize, hw⟩ := ha v (by rw [hs]; rfl)
          rw [← hv] at hsize hw
          rw [← hsize] at hw
          obtain ⟨f₁, hf₁, hrep, hl, hcount⟩ := h.rep.update h.wf hf hr hw (Nat.lt_succ_self _)
          rw [hsize, hu] at hf₁
          cases hf₁
          refine ⟨⟨_, hrep, h.wf.writeValue p write, ?_, hl ▸ h.fits⟩, Nat.le_of_eq hcount.symm,
            Nat.le_of_eq hcount⟩
          rw [h.wf.writeValue_stack hf, h.stack_eq]
          rfl
  | unlink key =>
      obtain ⟨⟨f'', b⟩, hu, rfl⟩ := Option.map_eq_some_iff.mp hc
      obtain ⟨f₁, hf₁, hheld, hcount⟩ := h.unlinks ha
      rw [hu] at hf₁
      cases hf₁
      exact ⟨hheld, Nat.le_of_eq hcount.symm, Nat.le_of_eq hcount⟩

/-- `find` of a key returns the bytes of its top. -/
theorem Holding.found (h : Holding hash disk f t s) {key : Key keySize} {v : List UInt8}
    {vs : List (List UInt8)} (hs : s key = v :: vs) : ∃ item,
      (∀ fuel > f.count, f.find hash fuel key = some (some item)) ∧
        f.bytes.read (f.data item) v.length = v := by
  obtain ⟨p, r, hf, hr, hv⟩ := h.top hs
  refine ⟨p, fun fuel hfuel => by rw [h.rep.find_eq h.wf key hfuel, hf], ?_⟩
  rw [← hv]
  exact h.rep.value p r hr

/-- **The top of a key rewritten where it stands**, by as many bytes; the key is still found there. -/
theorem Holding.rewrite (h : Holding hash disk f t s) {key : Key keySize} {v v' : List UInt8}
    {vs : List (List UInt8)} (hs : s key = v :: vs) (hv : v'.length = v.length) {item fuel : Nat}
    (hfuel : f.count < fuel) (hitem : f.find hash fuel key = some (some item)) :
    (∃ t', Holding hash disk (f.writeData item v.length fun _ => v') t'
        (s.modifyTop key fun _ => v')) ∧
      (f.writeData item v.length fun _ => v').find hash fuel key = some (some item) := by
  obtain ⟨p, r, hf, hr, hvalue⟩ := h.top hs
  rw [h.rep.find_eq h.wf key hfuel, hf] at hitem
  cases hitem
  have hrep : Rep hash (f.writeData item r.value.length fun _ => v')
      (t.writeValue item fun _ => v') := h.rep.writeData hr (by rw [hvalue, hv])
  rw [hvalue] at hrep
  have hwf := h.wf.writeValue item fun _ => v'
  refine ⟨⟨_, hrep, hwf, ?_, h.fits⟩, ?_⟩
  · rw [h.wf.writeValue_stack hf, h.stack_eq]
  · have hfind := hrep.find_eq hwf key hfuel
    rwa [h.wf.writeValue_find, hf] at hfind

/-- `find` of a key without values ends with nothing. -/
theorem Holding.absent (h : Holding hash disk f t s) {key : Key keySize} (hs : s key = [])
    {fuel : Nat} (hfuel : f.count < fuel) : f.find hash fuel key = some none := by
  rw [h.rep.find_eq h.wf key hfuel, h.wf.find_none.mpr ((congrFun h.stack_eq key).trans hs)]

/-- A store with room in the counter throws exactly where the file has to grow, and the disk has not
    what the size is expanded to. -/
theorem Holding.throws (h : Holding hash disk f t s) (hd : disk.size ≤ maxObject) (key : Key keySize)
    (value : List UInt8) (hv : m.itemBytes keySize value.length ≤ maxObject)
    (hroom : m.Room f.count) : f.store hash disk key value = none ↔
      f.fileSize < f.logicalSize + m.itemBytes keySize value.length ∧
        disk.size < disk.expand (f.logicalSize + m.itemBytes keySize value.length) := by
  obtain ⟨_, hnew⟩ := h.rep.newItem_eq hd h.fits hv hroom
  unfold TableFile.store createItem
  rw [hnew, Option.map_eq_none_iff, Option.map_eq_none_iff, Option.map_eq_none_iff]
  exact Disk.reserve_eq_none

/-- **A store** with room in the counter, of a size the disk grants. -/
theorem Holding.store_returns (h : Holding hash disk f t s) (hd : disk.size ≤ maxObject)
    (key : Key keySize) (value : List UInt8) (hfits : m.Fits value) (hroom : m.Room f.count)
    (hdisk : disk.Grants (f.logicalSize + m.itemBytes keySize value.length)) : ∃ f' off,
    f.store hash disk key value = some (f', off) ∧
      f'.logicalSize = f.logicalSize + m.itemBytes keySize value.length := by
  have hv : m.itemBytes keySize value.length ≤ maxObject :=
    Nat.le_trans (Nat.le_add_left _ _) (Nat.le_trans hdisk.le hd)
  have hne : f.store hash disk key value ≠ none := fun hn =>
    Nat.not_lt.mpr (hdisk _ (Nat.le_refl _)) ((h.throws hd key value hv hroom).mp hn).2
  obtain ⟨⟨f', off⟩, hs⟩ := Option.ne_none_iff_exists'.mp hne
  exact ⟨f', off, hs, (h.rep.store h.wf hd h.fits key hfits hv hroom hs).2.2.2⟩

/-- What the queries answer, and that the calls return. -/
structure Serves (hash : Key keySize → Nat) (disk : Disk) (f : TableFile .slab keySize)
    (s : Stacks (Key keySize) (List UInt8)) : Prop where
  found : ∀ key v vs, s key = v :: vs → ∃ item, (∀ fuel > f.count,
    f.find hash fuel key = some (some item)) ∧ f.bytes.read (f.data item) v.length = v
  absent : ∀ key, s key = [] → ∀ fuel > f.count, f.find hash fuel key = some none
  stores : ∀ key value, (Call.store key value).Allowed .slab s → ∀ f' off,
    f.store hash disk key value = some (f', off) → ∃ item, (∀ fuel > f'.count,
      f'.find hash fuel key = some (some item)) ∧ f'.address off = f'.data item
  throws : ∀ key value, (Call.store key value).Allowed .slab s →
    (f.store hash disk key value = none ↔
      f.fileSize < f.logicalSize + Manager.slab.itemBytes keySize value.length ∧
        disk.size < disk.expand (f.logicalSize + Manager.slab.itemBytes keySize value.length))
  updates : ∀ key size write v vs, s key = v :: vs → v.length = size → (write v).length = size →
    ∀ fuel > f.count, ∃ f' off item, f.update hash fuel key size write = some (f', off) ∧
      f'.find hash fuel key = some (some item) ∧ f'.address off = f'.data item
  updatesNone : ∀ key size write, s key = [] → ∀ fuel > f.count,
    f.update hash fuel key size write = some (f, 0)
  unlinks : ∀ key, s key ≠ [] → ∃ f', f.unlink hash f.count key = some (f', true)
  visits : ∃ items : List (Nat × Key keySize × List UInt8), (items.map Prod.fst).Nodup ∧
    (∀ key, (items.filter fun item => item.2.1 = key).map (fun item => item.2.2) = s key) ∧
    (∀ item ∈ items, f.bytes.read item.1 item.2.2.length = item.2.2) ∧
    ∀ visit, ∀ fuel > f.count, f.forEach visit fuel = some (takeThrough visit (items.map Prod.fst))

/-- The address `find` returns is the one behind the offset. -/
theorem Rep.address_offset {f : TableFile .slab keySize} (h : Rep hash f t) (hw : t.WF) {item : Nat}
    {r : Row (Key keySize) (List UInt8)} (hr : t.row item = some r) :
    f.address (offset .slab keySize item) = f.data item := by
  have hle := h.item_le hw hr
  have hsmall := h.small
  unfold itemSize at hle
  rw [h.address_count] at hle
  unfold TableFile.data
  rw [h.address_item hr] at hle ⊢
  have hsum : f.headerSize + (item + Manager.slab.prefixSize keySize) =
      f.headerSize + item + Manager.slab.prefixSize keySize := (Nat.add_assoc ..).symm
  refine (address_eq ?_).trans hsum
  show f.headerSize + (item + Manager.slab.prefixSize keySize) < sizeLimit
  have hle : f.headerSize + item + (Manager.slab.prefixSize keySize + _) ≤ f.logicalSize := hle
  omega

theorem Holding.serves {f : TableFile .slab keySize} (h : Holding hash disk f t s)
    (hd : disk.size ≤ maxObject) : Serves hash disk f s where
  found _ _ _ hs := h.found hs
  absent _ hs _ hfuel := h.absent hs hfuel
  stores key value ha f' off hc := by
    obtain ⟨hheld, hoff, _⟩ := h.stored hd ha True.intro hc
    refine ⟨t.free, fun fuel hfuel => ?_, by rw [hoff, hheld.rep.address_offset hheld.wf
      ((HashTable.store_row ..).trans (if_pos rfl))]⟩
    rw [hheld.rep.find_eq hheld.wf key hfuel,
      h.wf.store_find key value (Manager.slab.extent_pos keySize value.length), if_pos rfl]
  throws key value ha := h.throws hd key value ha.2 True.intro
  updates key size write v vs hs hsize hw fuel hfuel := by
    obtain ⟨p, r, hf, hr, hv⟩ := h.top hs
    rw [← hv] at hsize hw
    rw [← hsize] at hw ⊢
    obtain ⟨f', hu, hrep, _, hcount⟩ := h.rep.update h.wf hf hr hw hfuel
    have hrow : (t.writeValue p write).row p = some { r with value := write r.value } := by
      refine (Function.update_self ..).trans ?_
      rw [hr]
      rfl
    refine ⟨f', _, p, hu, ?_, hrep.address_offset (h.wf.writeValue p write) hrow⟩
    rw [hrep.find_eq (h.wf.writeValue p write) key (hcount ▸ hfuel), h.wf.writeValue_find, hf]
  updatesNone key size write hs fuel hfuel := by
    unfold TableFile.update
    rw [h.rep.find_eq h.wf key hfuel, h.wf.find_none.mpr ((congrFun h.stack_eq key).trans hs)]
    rfl
  unlinks _ hs := (h.unlinks hs).imp fun _ hf => hf.1
  visits := by
    have hps : ∀ p ∈ (List.range f.buckets).flatMap t.chain, ∃ r, t.row p = some r := by
      intro p hp
      obtain ⟨b, _, hp⟩ := List.mem_flatMap.mp hp
      exact (h.wf.mem_chain hp).imp fun _ hr => hr.1
    have hdata := items_data f hps
    refine ⟨f.items t ((List.range f.buckets).flatMap t.chain), ?_, fun key => ?_,
      fun item hm => ?_, fun visit fuel hfuel => ?_⟩
    · rw [hdata]
      refine List.Nodup.map_on (fun p hp q hq hpq => ?_) (h.wf.linked_nodup _)
      obtain ⟨_, hp⟩ := hps p hp
      obtain ⟨_, hq⟩ := hps q hq
      unfold TableFile.data at hpq
      rw [h.rep.address_item hp, h.rep.address_item hq] at hpq
      have hpq : f.headerSize + p + Manager.slab.prefixSize keySize =
        f.headerSize + q + Manager.slab.prefixSize keySize := hpq
      omega
    · rw [items_values, h.wf.linked_stack (h.rep.bucketIndex_lt key), h.stack_eq]
    · obtain ⟨p, _, he⟩ := List.mem_filterMap.mp hm
      obtain ⟨r, hr, he⟩ := Option.map_eq_some_iff.mp he
      rw [← he]
      exact h.rep.value p r hr
    · rw [h.rep.forEach_eq h.wf visit hfuel, hdata]

/-! ## 3. Runs -/

/-- **A run of calls**, as long as the counter of a record table has room for the items stored. -/
theorem Holding.applyAll {f : TableFile m keySize} (h : Holding hash disk f t s)
    (hd : disk.size ≤ maxObject) {calls : List (Call keySize)}
    (ha : EveryStep Call.spec (Call.Allowed m) s calls)
    (hroom : ∀ valueSize, m = .record valueSize → f.count + stores calls < Memory.limit 4)
    {f' : TableFile m keySize} (hr : applyAll hash disk f calls = some f') :
    (∃ t', Holding hash disk f' t' (run Call.spec s calls)) ∧
      ∀ valueSize, m = .record valueSize → f'.count ≤ f.count + stores calls := by
  induction calls generalizing f t s with
  | nil =>
      cases hr
      exact ⟨⟨t, h⟩, fun _ _ => Nat.le_refl _⟩
  | cons c calls ih =>
      unfold TableFile.applyAll at hr
      cases hc : c.apply hash disk f with
      | none =>
          rw [hc] at hr
          cases hr
      | some f₁ =>
          rw [hc] at hr
          have hroom₁ : ∀ key value, c = .store key value → m.Room f.count := by
            rintro key value rfl
            cases m with
            | slab => exact True.intro
            | record v =>
                have hlt := hroom v rfl
                rw [stores_cons_store] at hlt
                show f.count + 1 < Memory.limit 4
                omega
          obtain ⟨⟨t₁, h₁⟩, _, hle⟩ := h.apply hd ha.1 hroom₁ hc
          have hstep : ∀ v, m = .record v → f₁.count + stores calls ≤ f.count + stores (c :: calls) := by
            intro v hv
            cases c with
            | store key value =>
                have hone : m.extent keySize value.length = 1 := by rw [hv]; rfl
                have hle : f₁.count ≤ f.count + m.extent keySize value.length := hle
                rw [stores_cons_store]
                omega
            | update key size write => exact Nat.add_le_add_right hle _
            | unlink key => exact Nat.add_le_add_right hle _
          obtain ⟨h', hle'⟩ := ih h₁ ha.2 (fun v hv => Nat.lt_of_le_of_lt (hstep v hv) (hroom v hv)) hr
          exact ⟨h', fun v hv => Nat.le_trans (hle' v hv) (hstep v hv)⟩

/-- **A run of calls from a created table.** -/
theorem holding_of_create (hash : Key keySize → Nat) {disk : Disk} {buckets : Nat}
    (hd : disk.size ≤ maxObject) (hb : buckets < Memory.limit 4) {bytes : Memory} {f : TableFile m keySize}
    (hc : create m keySize disk buckets bytes = some f) {calls : List (Call keySize)}
    (ha : EveryStep Call.spec (Call.Allowed m) (fun _ => []) calls)
    (hroom : ∀ valueSize, m = .record valueSize → stores calls < Memory.limit 4)
    {f₁ : TableFile m keySize} (hr : applyAll hash disk f calls = some f₁) :
    (∃ t, Holding hash disk f₁ t (run Call.spec (fun _ => []) calls)) ∧
      ∀ valueSize, m = .record valueSize → f₁.count ≤ stores calls := by
  obtain ⟨⟨t, h₀⟩, hfirst⟩ := create_holding hash hd hb hc
  have hzero : ∀ v, m = .record v → f.count = 0 := by
    rintro v rfl
    exact hfirst
  obtain ⟨h, hle⟩ := h₀.applyAll hd ha (fun v hv => by rw [hzero v hv, Nat.zero_add]; exact hroom v hv) hr
  refine ⟨h, fun v hv => ?_⟩
  have := hle v hv
  rwa [hzero v hv, Nat.zero_add] at this

end Holding

/-- The stack of a key is made by the calls on that key. -/
theorem run_spec_key (s : Stacks (Key keySize) (List UInt8)) (calls : List (Call keySize))
    (key : Key keySize) : run Call.spec s calls key =
      run Call.spec s (calls.filter fun c => c.key = key) key := by
  have hother (s : Stacks (Key keySize) (List UInt8)) (c : Call keySize) (hk : c.key ≠ key) :
      c.spec s key = s key := by
    have hk : key ≠ c.key := Ne.symm hk
    cases c with
    | store key' value => exact Stacks.push_ne _ _ hk
    | update key' size write => exact Stacks.modifyTop_ne _ _ hk
    | unlink key' => exact Stacks.pop_ne _ hk
  have hsame (s s' : Stacks (Key keySize) (List UInt8)) (hs : s key = s' key) (c : Call keySize)
      (hk : c.key = key) : c.spec s key = c.spec s' key := by
    subst hk
    cases c with
    | store key' value => simp [Call.spec, Call.key] at hs ⊢; exact hs
    | update key' size write =>
        show s.modifyTop key' write key' = s'.modifyTop key' write key'
        rw [Stacks.modifyTop_same, Stacks.modifyTop_same]
        exact congrArg _ hs
    | unlink key' =>
        show s.pop key' key' = s'.pop key' key'
        rw [Stacks.pop_same, Stacks.pop_same]
        exact congrArg _ hs
  have hgen (s' : Stacks (Key keySize) (List UInt8)) (hs : s key = s' key) :
      run Call.spec s calls key = run Call.spec s' (calls.filter fun c => c.key = key) key := by
    induction calls generalizing s s' with
    | nil => exact hs
    | cons c calls ih =>
        by_cases hk : c.key = key
        · rw [List.filter_cons_of_pos (by simpa using hk)]
          exact ih _ _ (hsame s s' hs c hk)
        · rw [List.filter_cons_of_neg (by simpa using hk)]
          exact ih _ _ ((hother s c hk).trans hs)
  exact hgen s rfl

/-- **`slab_hash_table` is a map from keys to stacks**: behind every sequence of calls on a created
    table `find` returns the bytes of the value stored last and not unlinked yet, as updated. -/
theorem slabTable_isMap (hash : Key keySize → Nat) {disk : Disk} {buckets : Nat}
    (hd : disk.size ≤ maxObject) (hb : buckets < Memory.limit 4) {bytes : Memory}
    {f : TableFile .slab keySize} (hc : create .slab keySize disk buckets bytes = some f)
    {calls : List (Call keySize)} (ha : EveryStep Call.spec (Call.Allowed .slab) (fun _ => []) calls)
    {f' : TableFile .slab keySize} (hr : applyAll hash disk f calls = some f') :
    Serves hash disk f' (run Call.spec (fun _ => []) calls) ∧
      ∀ key, run Call.spec (fun _ => []) calls key =
        run Call.spec (fun _ => []) (calls.filter fun c => c.key = key) key := by
  obtain ⟨⟨t', h'⟩, _⟩ := holding_of_create hash hd hb hc ha (fun _ hm => by cases hm) hr
  exact ⟨h'.serves hd, run_spec_key _ calls⟩

/-! ## 4. A table with one bucket -/

def oneKey (b : UInt8) : Key 1 := ⟨[b], rfl⟩

/-- Two keys in one bucket, the first of them stored twice. -/
def oneBucketCalls : List (Call 1) :=
  [.store (oneKey 1) [7], .store (oneKey 2) [9, 9], .store (oneKey 1) [8],
    .update (oneKey 1) 1 fun _ => [5], .unlink (oneKey 2)]

theorem oneBucketCalls_allowed :
    EveryStep Call.spec (Call.Allowed .slab) (fun _ => []) oneBucketCalls := by
  refine ⟨⟨True.intro, by decide⟩, ⟨True.intro, by decide⟩, ⟨True.intro, by decide⟩, ?_, ?_,
    True.intro⟩
  · intro v hv
    have hv : v = [8] := by simpa [Call.spec, Stacks.push] using hv.symm
    subst hv
    decide
  · simp [Call.Allowed, Call.spec, Stacks.push, Stacks.modifyTop, oneKey]

theorem oneBucket_isMap : ∃ f f', create .slab 1 .sample 1 (fun _ => 0) = some f ∧
    applyAll (fun _ => 0) .sample f oneBucketCalls = some f' ∧
    Serves (fun _ => 0) .sample f' (run Call.spec (fun _ => []) oneBucketCalls) ∧
    run Call.spec (fun _ => []) oneBucketCalls (oneKey 1) = [[5], [7]] := by
  have hb : ((create .slab 1 .sample 1 fun _ => 0).bind fun f =>
      applyAll (fun _ => 0) .sample f oneBucketCalls).isSome = true := by decide +kernel
  obtain ⟨f', hb⟩ := Option.isSome_iff_exists.mp hb
  obtain ⟨f, hc, hr⟩ := Option.bind_eq_some_iff.mp hb
  exact ⟨f, f', hc, hr, (slabTable_isMap (fun _ => 0) (by decide) (by decide) hc
    oneBucketCalls_allowed hr).1, by decide +kernel⟩

end TableFile

end Libbitcoin.Database
