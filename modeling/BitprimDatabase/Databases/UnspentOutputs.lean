/-
  File:      BitprimDatabase/Databases/UnspentOutputs.lean
  Subject:   THE OUTPUT CACHE (unspent_outputs.cpp, unspent_transaction.cpp): a bimap between
             unspent transactions (identified by their hash) and a 32-bit sequence number. The
             left side is unique by hash, the right side is ordered by sequence; an insert that
             collides on either side is refused. The hit counters are not modelled.
-/
import Mathlib.Data.List.Pairwise
import BitprimDatabase.ChainTypes

namespace Libbitcoin.Database

/-- A cached transaction; the outputs are the map from index to output. -/
structure UnspentTransaction where
  height : Nat
  isCoinbase : Bool
  isConfirmed : Bool
  hash : HashDigest
  outputs : List (Nat × Output)
  deriving DecidableEq

def UnspentTransaction.ofTransaction (tx : Transaction) (height : Nat) (confirmed : Bool) :
    UnspentTransaction :=
  ⟨height, tx.isCoinbase, confirmed, tx.hash, tx.outputs.zipIdx.map fun oi => (oi.2, oi.1)⟩

/-- The cached output at an index. -/
def UnspentTransaction.output (u : UnspentTransaction) (index : Nat) : Option Output :=
  (u.outputs.find? fun io => io.1 == index).map Prod.snd

/-- The cache: the capacity, the sequence counter and the relations of the bimap. -/
structure UnspentOutputs where
  capacity : Nat
  sequence : Nat
  unspent : List (UnspentTransaction × Nat)
  deriving DecidableEq

namespace UnspentOutputs

def create (capacity : Nat) : UnspentOutputs := ⟨capacity, 0, []⟩

def disabled (c : UnspentOutputs) : Bool := c.capacity == 0

/-- `unspent_.left.find(key)`. -/
def find (c : UnspentOutputs) (hash : HashDigest) : Option UnspentTransaction :=
  (c.unspent.find? fun us => us.1.hash == hash).map Prod.fst

/-- `unspent_.right.erase(unspent_.right.begin())`: the relation of the least sequence. -/
def eraseOldest (l : List (UnspentTransaction × Nat)) : List (UnspentTransaction × Nat) :=
  match (l.map Prod.snd).min? with
  | none => l
  | some oldest => l.filter fun us => us.2 != oldest

/-- What `add` does before it inserts: clear at the last sequence number, erase the oldest entry
    at capacity. -/
def makeRoom (c : UnspentOutputs) : UnspentOutputs :=
  let c := if c.sequence = maxUint32 then { c with unspent := [] } else c
  if c.unspent.length ≥ c.capacity then { c with unspent := eraseOldest c.unspent } else c

/-- `unspent_.insert`: refused when the hash or the sequence is already there. -/
def insert (c : UnspentOutputs) (u : UnspentTransaction) (sequence : Nat) : UnspentOutputs :=
  if c.unspent.any fun us => us.1.hash == u.hash || us.2 == sequence then c
  else { c with unspent := (u, sequence) :: c.unspent }

def add (c : UnspentOutputs) (tx : Transaction) (height : Nat) (confirmed : Bool) :
    UnspentOutputs :=
  if c.disabled || tx.outputs.isEmpty then c
  else
    let c := c.makeRoom
    let sequence := u32 (c.sequence + 1)
    { c with sequence := sequence }.insert
      (UnspentTransaction.ofTransaction tx height confirmed) sequence

/-- Remove a transaction. -/
def remove (c : UnspentOutputs) (hash : HashDigest) : UnspentOutputs :=
  if c.disabled then c
  else { c with unspent := c.unspent.filter fun us => us.1.hash != hash }

/-- Remove an output, and its transaction once no output is left. -/
def removePoint (c : UnspentOutputs) (point : Point) : UnspentOutputs :=
  if c.disabled then c
  else
    { c with
      unspent := c.unspent.filterMap fun us =>
        if us.1.hash == point.hash then
          let outputs := us.1.outputs.filter fun io => io.1 != point.index
          if outputs.isEmpty then none else some ({ us.1 with outputs := outputs }, us.2)
        else some us }

/-- The answer of `get_is_confirmed`: output, height, coinbase flag, confirmed flag. -/
structure Hit where
  output : Output
  height : Nat
  coinbase : Bool
  confirmed : Bool
  deriving DecidableEq

/-- `none` is a miss. -/
def getIsConfirmed (c : UnspentOutputs) (point : Point) (forkHeight : Nat)
    (requireConfirmed : Bool) : Option Hit :=
  if c.disabled then none
  else
    match c.find point.hash with
    | none => none
    | some tx =>
      if requireConfirmed && !tx.isConfirmed then none
      else
        match tx.output point.index with
        | none => none
        | some output =>
          if tx.height > forkHeight then none
          else some ⟨output, tx.height, tx.isCoinbase, tx.isConfirmed⟩

/-- `get` is `get_is_confirmed` without the confirmed flag. -/
def get (c : UnspentOutputs) (point : Point) (forkHeight : Nat) (requireConfirmed : Bool) :
    Option (Output × Nat × Bool) :=
  (c.getIsConfirmed point forkHeight requireConfirmed).map fun h => (h.output, h.height, h.coinbase)

/-! ## The invariant of the cache -/

/-- **The invariant of the cache**: a hash has one entry, sequence numbers do not exceed the
    counter, an entry holds at least one output and each index once. -/
structure WF (c : UnspentOutputs) : Prop where
  hash_unique : c.unspent.Pairwise fun us us' => us.1.hash ≠ us'.1.hash
  sequence_le : ∀ us ∈ c.unspent, us.2 ≤ c.sequence
  sequence_bound : c.sequence ≤ maxUint32
  outputs_ne : ∀ us ∈ c.unspent, us.1.outputs ≠ []
  index_unique : ∀ us ∈ c.unspent, (us.1.outputs.map Prod.fst).Nodup
  disabled_empty : c.capacity = 0 → c.unspent = []

theorem create_wf (capacity : Nat) : (create capacity).WF :=
  ⟨.nil, fun _ h => (nomatch h), Nat.zero_le _, fun _ h => (nomatch h), fun _ h => (nomatch h),
    fun _ => rfl⟩

theorem find_none {c : UnspentOutputs} {hash : HashDigest} :
    c.find hash = none ↔ ∀ us ∈ c.unspent, us.1.hash ≠ hash := by
  simp [find]

theorem find_mem {c : UnspentOutputs} {hash : HashDigest} {u : UnspentTransaction}
    (h : c.find hash = some u) : (∃ n, (u, n) ∈ c.unspent) ∧ u.hash = hash := by
  obtain ⟨⟨u', n⟩, hf, rfl⟩ := Option.map_eq_some_iff.mp h
  exact ⟨⟨n, List.mem_of_find?_eq_some hf⟩, by simpa using List.find?_some hf⟩

/-- The entry of a hash is the one `find` returns. -/
theorem WF.find_of_mem {c : UnspentOutputs} (hc : c.WF) {us : UnspentTransaction × Nat}
    (h : us ∈ c.unspent) : c.find us.1.hash = some us.1 := by
  cases hf : c.find us.1.hash with
  | none => exact absurd rfl (find_none.mp hf us h)
  | some u =>
      obtain ⟨⟨n, hm⟩, hu⟩ := find_mem hf
      have : us = (u, n) := by
        by_contra hne
        have : Std.Symm fun us us' : UnspentTransaction × Nat => us.1.hash ≠ us'.1.hash :=
          ⟨fun _ _ h => Ne.symm h⟩
        exact hc.hash_unique.forall h hm hne hu.symm
      rw [this]

theorem makeRoom_sublist (c : UnspentOutputs) : c.makeRoom.unspent.Sublist c.unspent := by
  have herase (l : List (UnspentTransaction × Nat)) : (eraseOldest l).Sublist l := by
    unfold eraseOldest
    split
    · exact List.Sublist.refl _
    · exact List.filter_sublist
  unfold makeRoom
  extract_lets c'
  have hc' : c'.unspent.Sublist c.unspent := by
    show (if _ then _ else _ : UnspentOutputs).unspent.Sublist _
    split
    · exact List.nil_sublist _
    · exact List.Sublist.refl _
  split
  · exact (herase _).trans hc'
  · exact hc'

theorem mem_eraseOldest {l : List (UnspentTransaction × Nat)} {us : UnspentTransaction × Nat} :
    us ∈ eraseOldest l ↔ us ∈ l ∧ ∃ us' ∈ l, us'.2 < us.2 := by
  unfold eraseOldest
  split
  · rename_i h
    have : l = [] := by simpa using h
    simp [this]
  · rename_i oldest h
    obtain ⟨hm, hle⟩ := List.min?_eq_some_iff.mp h
    rw [List.mem_filter, bne_iff_ne]
    refine and_congr_right fun hus => ⟨fun hne => ?_, ?_⟩
    · obtain ⟨us', hus', rfl⟩ := List.mem_map.mp hm
      have := hle us.2 (List.mem_map_of_mem hus)
      exact ⟨us', hus', by omega⟩
    · rintro ⟨us', hus', hlt⟩
      have := hle us'.2 (List.mem_map_of_mem hus')
      omega

/-- The entry outlives the room made for another: the counter is not at its end, and the cache is
    not full or holds an older entry. -/
def Survives (c : UnspentOutputs) (us : UnspentTransaction × Nat) : Prop :=
  us ∈ c.unspent ∧ c.sequence ≠ maxUint32 ∧
    (c.unspent.length < c.capacity ∨ ∃ us' ∈ c.unspent, us'.2 < us.2)

theorem mem_makeRoom {c : UnspentOutputs} {us : UnspentTransaction × Nat} :
    us ∈ c.makeRoom.unspent ↔ c.Survives us := by
  unfold makeRoom Survives
  by_cases hs : c.sequence = maxUint32
  · simp only [hs, if_true, ne_eq, not_true, false_and, and_false, iff_false]
    split
    · intro h
      have h' : us ∈ eraseOldest [] := h
      exact absurd (mem_eraseOldest.mp h').1 List.not_mem_nil
    · exact List.not_mem_nil
  · simp only [hs, if_false, ne_eq, not_false_eq_true, true_and]
    by_cases hl : c.unspent.length ≥ c.capacity
    · rw [if_pos hl, mem_eraseOldest]
      simp [Nat.not_lt.mpr hl]
    · rw [if_neg hl]
      simp [Nat.lt_of_not_le hl]

@[simp] theorem makeRoom_sequence (c : UnspentOutputs) : c.makeRoom.sequence = c.sequence := by
  unfold makeRoom
  extract_lets c'
  have hc' : c'.sequence = c.sequence := by
    show (if _ then _ else _ : UnspentOutputs).sequence = _
    split <;> rfl
  split <;> exact hc'

@[simp] theorem makeRoom_capacity (c : UnspentOutputs) : c.makeRoom.capacity = c.capacity := by
  unfold makeRoom
  extract_lets c'
  have hc' : c'.capacity = c.capacity := by
    show (if _ then _ else _ : UnspentOutputs).capacity = _
    split <;> rfl
  split <;> exact hc'

/-- At the last sequence number the map is cleared. -/
theorem makeRoom_wrap {c : UnspentOutputs} (h : c.sequence = maxUint32) :
    c.makeRoom.unspent = [] := by
  unfold makeRoom
  simp only [h, if_true]
  split <;> rfl

/-- An entry that was there before has a smaller sequence number than the one `add` uses. -/
theorem WF.sequence_ne {c : UnspentOutputs} (hc : c.WF) {us : UnspentTransaction × Nat}
    (h : us ∈ c.makeRoom.unspent) : us.2 < u32 (c.sequence + 1) := by
  have hle := hc.sequence_le us (c.makeRoom_sublist.subset h)
  by_cases hs : c.sequence = maxUint32
  · rw [makeRoom_wrap hs] at h
    cases h
  · have hb := hc.sequence_bound
    rw [u32_of_le (by omega)]
    omega

theorem add_capacity (c : UnspentOutputs) (tx : Transaction) (height : Nat) (confirmed : Bool) :
    (c.add tx height confirmed).capacity = c.capacity := by
  unfold add
  split
  · rfl
  · simp only [insert, makeRoom_sequence]
    split <;> exact makeRoom_capacity c

theorem removePoint_capacity (c : UnspentOutputs) (point : Point) :
    (c.removePoint point).capacity = c.capacity := by
  unfold removePoint
  split <;> rfl

/-- `add` on a disabled cache, or of a transaction without outputs. -/
theorem add_skip {c : UnspentOutputs} {tx : Transaction} (h : c.disabled ∨ tx.outputs = [])
    (height : Nat) (confirmed : Bool) : c.add tx height confirmed = c := by
  unfold add
  rcases h with h | h <;> simp [h]

/-- **`add` makes room and inserts the transaction, unless an entry of its hash survives.** -/
theorem WF.add_unspent {c : UnspentOutputs} (hc : c.WF) {tx : Transaction}
    (h : ¬(c.disabled ∨ tx.outputs = [])) (height : Nat) (confirmed : Bool) :
    (c.add tx height confirmed).unspent =
      match c.makeRoom.find tx.hash with
      | some _ => c.makeRoom.unspent
      | none => (UnspentTransaction.ofTransaction tx height confirmed, u32 (c.sequence + 1)) ::
          c.makeRoom.unspent := by
  obtain ⟨hd, ho⟩ := not_or.mp h
  unfold add
  simp only [hd, Bool.false_or, List.isEmpty_iff, ho, if_false, insert, makeRoom_sequence]
  cases hf : c.makeRoom.find tx.hash with
  | some u =>
      obtain ⟨⟨n, hm⟩, hu⟩ := find_mem hf
      rw [if_pos]
      exact List.any_eq_true.mpr ⟨(u, n), hm, by simp [hu, UnspentTransaction.ofTransaction]⟩
  | none =>
      rw [if_neg]
      intro ha
      obtain ⟨us, hm, he⟩ := List.any_eq_true.mp ha
      rw [Bool.or_eq_true, beq_iff_eq, beq_iff_eq] at he
      rcases he with he | he
      · exact find_none.mp hf us hm he
      · exact absurd he (Nat.ne_of_lt (hc.sequence_ne hm))

/-- The entries after an `add`: those that outlive it, and the new one unless its hash is one of
    theirs. -/
theorem WF.mem_add {c : UnspentOutputs} (hc : c.WF) {tx : Transaction} {height : Nat}
    {confirmed : Bool} {us : UnspentTransaction × Nat} :
    us ∈ (c.add tx height confirmed).unspent ↔
      (us ∈ c.unspent ∧ (tx.outputs = [] ∨ c.Survives us)) ∨
        (c.capacity ≠ 0 ∧ tx.outputs ≠ [] ∧ (∀ us', c.Survives us' → us'.1.hash ≠ tx.hash) ∧
          us = (UnspentTransaction.ofTransaction tx height confirmed, u32 (c.sequence + 1))) := by
  by_cases h : c.disabled ∨ tx.outputs = []
  · rw [add_skip h]
    rcases h with h | h
    · have h0 : c.capacity = 0 := by simpa [disabled] using h
      simp [hc.disabled_empty h0, h0]
    · simp [h]
  · obtain ⟨hd, ho⟩ := not_or.mp h
    have hcap : c.capacity ≠ 0 := by simpa [disabled] using hd
    rw [hc.add_unspent h height confirmed]
    have hmem : us ∈ c.makeRoom.unspent ↔ us ∈ c.unspent ∧ c.Survives us :=
      mem_makeRoom.trans ⟨fun h => ⟨h.1, h⟩, And.right⟩
    cases hf : c.makeRoom.find tx.hash with
    | some u =>
        obtain ⟨⟨n, hm⟩, hu⟩ := find_mem hf
        have hno : ¬ ∀ us', c.Survives us' → us'.1.hash ≠ tx.hash :=
          fun h => h _ (mem_makeRoom.mp hm) hu
        rw [hmem]
        exact ⟨fun h => .inl ⟨h.1, .inr h.2⟩,
          fun h => h.elim (fun h => ⟨h.1, h.2.resolve_left ho⟩) fun h => absurd h.2.2.1 hno⟩
    | none =>
        have hall : ∀ us', c.Survives us' → us'.1.hash ≠ tx.hash :=
          fun us' h => find_none.mp hf us' (mem_makeRoom.mpr h)
        rw [List.mem_cons, hmem]
        simp only [ho, false_or, ne_eq, hcap, not_false_eq_true, true_and]
        exact ⟨fun h => h.elim (fun h => .inr ⟨hall, h⟩) .inl,
          fun h => h.elim .inr fun h => .inl h.2⟩

theorem ofTransaction_indexes (tx : Transaction) (height : Nat) (confirmed : Bool) :
    (UnspentTransaction.ofTransaction tx height confirmed).outputs.map Prod.fst =
      List.range tx.outputs.length := by
  simp [UnspentTransaction.ofTransaction, Function.comp_def, List.zipIdx_map_snd,
    List.range_eq_range']

theorem WF.add {c : UnspentOutputs} (hc : c.WF) (tx : Transaction) (height : Nat)
    (confirmed : Bool) : (c.add tx height confirmed).WF := by
  by_cases h : c.disabled ∨ tx.outputs = []
  · rw [add_skip h]
    exact hc
  · have hu := hc.add_unspent h height confirmed
    have hs : (c.add tx height confirmed).sequence = u32 (c.sequence + 1) ∧
        (c.add tx height confirmed).capacity = c.capacity := by
      obtain ⟨hd, ho⟩ := not_or.mp h
      unfold UnspentOutputs.add
      simp only [hd, Bool.false_or, List.isEmpty_iff, ho, if_false, insert, makeRoom_sequence]
      split <;> exact ⟨rfl, makeRoom_capacity c⟩
    have hsub := c.makeRoom_sublist
    have hroom : ∀ us ∈ c.makeRoom.unspent, us.2 ≤ u32 (c.sequence + 1) :=
      fun us hm => Nat.le_of_lt (hc.sequence_ne hm)
    refine ⟨?_, ?_, by rw [hs.1]; exact u32_le _, ?_, ?_, fun h0 => ?_⟩
    · rw [hu]
      split
      · exact hc.hash_unique.sublist hsub
      · rename_i hf
        exact List.Pairwise.cons (fun us hm => (find_none.mp hf us hm).symm)
          (hc.hash_unique.sublist hsub)
    · rw [hu, hs.1]
      split
      · exact hroom
      · intro us hm
        rcases List.mem_cons.mp hm with rfl | hm
        · exact Nat.le_refl _
        · exact hroom us hm
    · rw [hu]
      split
      · exact fun us hm => hc.outputs_ne us (hsub.subset hm)
      · intro us hm
        rcases List.mem_cons.mp hm with rfl | hm
        · intro he
          have := congrArg List.length he
          simp [UnspentTransaction.ofTransaction] at this
          exact h (.inr this)
        · exact hc.outputs_ne us (hsub.subset hm)
    · rw [hu]
      split
      · exact fun us hm => hc.index_unique us (hsub.subset hm)
      · intro us hm
        rcases List.mem_cons.mp hm with rfl | hm
        · rw [ofTransaction_indexes]
          exact List.nodup_range
        · exact hc.index_unique us (hsub.subset hm)
    · rw [hs.2] at h0
      exact absurd (.inl (by simp [disabled, h0])) h

/-- What is left of an entry after an output was removed. -/
theorem removePoint_mem {c : UnspentOutputs} {point : Point} {us' : UnspentTransaction × Nat}
    (h : us' ∈ (c.removePoint point).unspent) :
    ∃ us ∈ c.unspent, us'.2 = us.2 ∧ us'.1.hash = us.1.hash ∧ us'.1.height = us.1.height ∧
      us'.1.isCoinbase = us.1.isCoinbase ∧ us'.1.isConfirmed = us.1.isConfirmed ∧
      us'.1.outputs.Sublist us.1.outputs ∧
      (c.capacity ≠ 0 → us.1.hash = point.hash → ∀ io ∈ us'.1.outputs, io.1 ≠ point.index) ∧
      (us.1.outputs ≠ [] → us'.1.outputs ≠ []) := by
  unfold removePoint at h
  by_cases hd : c.disabled = true
  · rw [if_pos hd] at h
    have : c.capacity = 0 := by simpa [disabled] using hd
    exact ⟨us', h, rfl, rfl, rfl, rfl, rfl, List.Sublist.refl _, fun h0 => absurd this h0, id⟩
  · rw [if_neg hd] at h
    obtain ⟨us, hm, he⟩ := List.mem_filterMap.mp h
    by_cases hh : us.1.hash = point.hash
    · rw [if_pos (beq_iff_eq.mpr hh)] at he
      dsimp only at he
      split at he
      · cases he
      · rename_i hne
        cases he
        refine ⟨us, hm, rfl, rfl, rfl, rfl, rfl, List.filter_sublist, fun _ _ io hio => ?_,
          fun _ => by simpa using hne⟩
        simpa using (List.mem_filter.mp hio).2
    · rw [if_neg (fun h => hh (beq_iff_eq.mp h))] at he
      cases he
      exact ⟨us', hm, rfl, rfl, rfl, rfl, rfl, List.Sublist.refl _, fun _ h => absurd h hh, id⟩

theorem WF.removePoint {c : UnspentOutputs} (hc : c.WF) (point : Point) :
    (c.removePoint point).WF := by
  have hs : (c.removePoint point).sequence = c.sequence ∧
      (c.removePoint point).capacity = c.capacity := by
    unfold UnspentOutputs.removePoint
    split <;> exact ⟨rfl, rfl⟩
  refine ⟨?_, fun us h => ?_, hs.1 ▸ hc.sequence_bound, fun us h => ?_, fun us h => ?_, fun h0 => ?_⟩
  · unfold UnspentOutputs.removePoint
    split
    · exact hc.hash_unique
    · refine List.Pairwise.filterMap _ (fun us us' hne v hv v' hv' => ?_) hc.hash_unique
      -- what is left of an entry keeps its hash
      have key : ∀ (us v : UnspentTransaction × Nat), v ∈ (if us.1.hash == point.hash then
          if (us.1.outputs.filter fun io => io.1 != point.index).isEmpty then none
          else some ({ us.1 with outputs := us.1.outputs.filter fun io => io.1 != point.index }, us.2)
          else some us) → v.1.hash = us.1.hash := by
        intro us v hv
        split at hv
        · split at hv
          · cases hv
          · cases hv; rfl
        · cases hv; rfl
      rw [key us v hv, key us' v' hv']
      exact hne
  · obtain ⟨us₀, hm, h2, _⟩ := removePoint_mem h
    rw [h2, hs.1]
    exact hc.sequence_le us₀ hm
  · obtain ⟨us₀, hm, _, _, _, _, _, _, _, hne⟩ := removePoint_mem h
    exact hne (hc.outputs_ne us₀ hm)
  · obtain ⟨us₀, hm, _, _, _, _, _, hsub, _⟩ := removePoint_mem h
    exact (hc.index_unique us₀ hm).sublist (hsub.map _)
  · have h0' : c.capacity = 0 := hs.2.symm.trans h0
    unfold UnspentOutputs.removePoint
    rw [if_pos (by simp [disabled, h0'])]
    exact hc.disabled_empty h0'

/-- A hit is the entry of the hash with the output, confirmed if required, not above the fork. -/
theorem getIsConfirmed_eq_some {c : UnspentOutputs} {point : Point} {forkHeight : Nat}
    {requireConfirmed : Bool} {hit : Hit} :
    c.getIsConfirmed point forkHeight requireConfirmed = some hit ↔
      c.capacity ≠ 0 ∧ ∃ u o, c.find point.hash = some u ∧ u.output point.index = some o ∧
        (requireConfirmed → u.isConfirmed) ∧ u.height ≤ forkHeight ∧
        hit = ⟨o, u.height, u.isCoinbase, u.isConfirmed⟩ := by
  unfold getIsConfirmed
  by_cases hd : c.capacity = 0
  · simp [disabled, hd]
  · have hd' : c.disabled = false := beq_false_of_ne hd
    rw [hd']
    cases hf : c.find point.hash with
    | none => simp
    | some u =>
        cases ho : u.output point.index with
        | none => cases requireConfirmed <;> cases u.isConfirmed <;> simp [ho]
        | some o =>
            by_cases hh : u.height > forkHeight
            · have : ¬ u.height ≤ forkHeight := by omega
              cases requireConfirmed <;> cases u.isConfirmed <;> simp [ho, hh, this, hd]
            · have hle : u.height ≤ forkHeight := by omega
              by_cases hr : requireConfirmed = true ∧ u.isConfirmed = false
              · simp [ho, hr.1, hr.2]
              · have hr' : requireConfirmed = true → u.isConfirmed = true := by
                  cases requireConfirmed <;> cases hcf : u.isConfirmed <;> simp_all
                have hb : (requireConfirmed && !u.isConfirmed) = false := by
                  cases requireConfirmed <;> simp_all
                simp only [Bool.false_eq_true, if_false, hb, ho, if_neg hh]
                constructor
                · rintro ⟨rfl⟩
                  exact ⟨hd, u, o, rfl, ho, hr', hle, rfl⟩
                · rintro ⟨-, u', o', ⟨rfl⟩, ho', -, -, rfl⟩
                  rw [ho] at ho'
                  cases ho'
                  rfl

end UnspentOutputs

end Libbitcoin.Database
