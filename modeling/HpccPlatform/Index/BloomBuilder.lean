import HpccPlatform.Index.Bloom
import HpccPlatform.Library.LinearProbe

/-!
# The hash set of the unsorted bloom builder

`UnsortedBloomBuilder` of `system/jhtree/bloom.cpp` keeps the hashes in an open-addressing table of
`((maxHashes*4)/3)+1` slots, computed with 32-bit numbers.  The search for a hash has an end as long
as the table has an empty slot or the hash.
-/

namespace HpccPlatform

namespace Bloom

namespace UnsortedBloomBuilder

open Probe

/-! ### The code -/

/-- `tableSize(((_maxHashes*4)/3)+1)` -/
def tableSize (maxHashes : ℕ) : ℕ := maxHashes * 4 % 2 ^ 32 / 3 + 1

/-- The constructor: `calloc` of the table. -/
def init (maxHashes : ℕ) : UnsortedBloomBuilder where
  hashes := some (List.replicate (tableSize maxHashes) 0)
  maxHashes := maxHashes
  tableCount := 0

def queryCount (b : UnsortedBloomBuilder) : ℕ := b.tableCount

/-- `add(hash)`, with what it returns, for a search of at most `fuel` slots. -/
def addWithin (fuel : ℕ) (b : UnsortedBloomBuilder) (hash : UInt64) :
    Option (Bool × UnsortedBloomBuilder) :=
  match b.hashes with
  | none => some (false, b)
  | some table =>
    if hash = 0 then some (false, { b with hashes := none, tableCount := 0 })
    else
      (probe table hash fuel (hash.toNat % table.length)).map fun r =>
        if r.2 then (true, b)
        else if b.tableCount = b.maxHashes then (false, { b with hashes := none, tableCount := 0 })
        else (true, { b with hashes := some (table.set r.1 hash), tableCount := b.tableCount + 1 })

/-- A sequence of calls of `add`. -/
def adds (fuel : ℕ) (b : UnsortedBloomBuilder) : List UInt64 →
    Option (List Bool × UnsortedBloomBuilder)
  | [] => some ([], b)
  | hash :: hashes => do
    let (added, b) ← addWithin fuel b hash
    let (rest, b) ← adds fuel b hashes
    some (added :: rest, b)

/-! ### What the builder is for -/

/-- The distinct hashes that a builder can hold. -/
def distinct (hashes : List UInt64) : Finset UInt64 := hashes.toFinset.erase 0

/-- There was no zero among the hashes, and not more than `maxHashes` distinct ones. -/
def Accepts (maxHashes : ℕ) (hashes : List UInt64) : Prop :=
  0 ∉ hashes ∧ (distinct hashes).card ≤ maxHashes

instance (maxHashes : ℕ) (hashes : List UInt64) : Decidable (Accepts maxHashes hashes) :=
  inferInstanceAs (Decidable (_ ∧ _))

/-- What a builder is after some calls of `add`, and what these have returned. -/
structure Correct (maxHashes : ℕ) (hashes : List UInt64) (added : List Bool)
    (b : UnsortedBloomBuilder) : Prop where
  added : added =
    (List.range hashes.length).map fun i => decide (Accepts maxHashes (hashes.take (i + 1)))
  valid : b.valid = true ↔ hashes ≠ [] ∧ Accepts maxHashes hashes
  table : b.valid = true → ∃ table, b.hashes = some table ∧
    ∀ hash, hash ≠ 0 → table.count hash = if hash ∈ hashes then 1 else 0
  count : b.valid = true → b.queryCount = (distinct hashes).card ∧ b.queryCount ≤ maxHashes

/-! ### The search -/

variable {table : List UInt64} {hash : UInt64} {b b' : UnsortedBloomBuilder} {fuel m pos : ℕ}
  {hashes : List UInt64}

/-- The search for `hash` stops at a slot. -/
def Stops (table : List UInt64) (hash : UInt64) (v : ℕ) : Prop :=
  table.getD v 0 = 0 ∨ table.getD v 0 = hash

theorem probe_of_stops (h : Stops table hash pos) :
    probe table hash (fuel + 1) pos = some (pos, decide (table.getD pos 0 ≠ 0)) := by
  rw [probe]
  by_cases hzero : table.getD pos 0 = 0
  · rw [if_pos hzero, hzero]
    rfl
  · rw [if_neg hzero, if_pos (h.resolve_left hzero), decide_eq_true hzero]

theorem probe_of_not_stops (h : ¬ Stops table hash pos) :
    probe table hash (fuel + 1) pos = probe table hash fuel (succ table.length pos) := by
  rw [Stops, not_or] at h
  rw [probe]
  rw [if_neg h.1, if_neg h.2]
  rfl

/-- The search stops at the first slot, if its fuel is enough. -/
theorem probe_eq {a v : ℕ} (ha : a < table.length)
    (hfirst : FirstAt table.length (Stops table hash) a v) (hpos : pos < table.length)
    (hle : dist table.length a pos ≤ dist table.length a v) :
    probe table hash fuel pos =
      if dist table.length a v < fuel + dist table.length a pos then
        some (v, decide (table.getD v 0 ≠ 0))
      else none := by
  induction fuel generalizing pos with
  | zero => rw [Nat.zero_add, if_neg (Nat.not_lt.2 hle), probe]
  | succ fuel ih =>
    rcases Nat.lt_or_eq_of_le hle with hlt | heq
    · have hnext : dist table.length a (succ table.length pos) = dist table.length a pos + 1 :=
        dist_succ ha hpos (Nat.lt_of_le_of_lt hlt (dist_lt ha hfirst.lt))
      rw [probe_of_not_stops (hfirst.before pos hpos hlt), ih (succ_lt hpos) (hnext ▸ hlt), hnext,
        Nat.add_assoc, Nat.add_comm 1]
    · have hv := dist_inj ha hpos hfirst.lt heq
      rw [probe_of_stops (hv ▸ hfirst.stops), heq, if_pos (by omega), hv]

/-- Without a slot to stop at the search does not end. -/
theorem probe_eq_none (h : ∀ u < table.length, ¬ Stops table hash u) (hpos : pos < table.length)
    (fuel : ℕ) : probe table hash fuel pos = none := by
  induction fuel generalizing pos with
  | zero => rw [probe]
  | succ fuel ih => rw [probe_of_not_stops (h pos hpos), ih (succ_lt hpos)]

/-- The search from `a` on, whatever its fuel. -/
theorem exists_probe {n a : ℕ} (hlen : table.length = n) (ha : a < n)
    (hstop : ∃ z < n, Stops table hash z) :
    ∃ v, FirstAt n (Stops table hash) a v ∧ ∀ fuel, probe table hash fuel a =
      if dist n a v < fuel then some (v, decide (table.getD v 0 ≠ 0)) else none := by
  subst hlen
  obtain ⟨v, hfirst⟩ := exists_firstAt hstop a
  refine ⟨v, hfirst, fun fuel => ?_⟩
  rw [probe_eq ha hfirst ha (by rw [dist_self ha]; exact Nat.zero_le _), dist_self ha, Nat.add_zero]

/-! ### The distinct hashes -/

theorem mem_distinct : hash ∈ distinct hashes ↔ hash ≠ 0 ∧ hash ∈ hashes := by
  rw [distinct, Finset.mem_erase, List.mem_toFinset]

theorem distinct_append (hashes : List UInt64) (h : hash ≠ 0) :
    distinct (hashes ++ [hash]) = insert hash (distinct hashes) := by
  ext x
  rw [mem_distinct, Finset.mem_insert, mem_distinct, List.mem_append, List.mem_singleton]
  constructor
  · rintro ⟨hx, hmem | rfl⟩
    · exact Or.inr ⟨hx, hmem⟩
    · exact Or.inl rfl
  · rintro (rfl | ⟨hx, hmem⟩)
    · exact ⟨h, Or.inr rfl⟩
    · exact ⟨hx, Or.inl hmem⟩

theorem distinct_append_of_mem (h : hash ∈ hashes) :
    distinct (hashes ++ [hash]) = distinct hashes := by
  ext x
  rw [mem_distinct, mem_distinct, List.mem_append, List.mem_singleton]
  refine and_congr_right fun _ => or_iff_left_of_imp ?_
  rintro rfl
  exact h

theorem card_distinct_append (h : hash ≠ 0) (hnot : hash ∉ hashes) :
    (distinct (hashes ++ [hash])).card = (distinct hashes).card + 1 := by
  rw [distinct_append hashes h, Finset.card_insert_of_notMem]
  rw [mem_distinct]
  exact fun hmem => hnot hmem.2

theorem distinct_subset {xs ys : List UInt64} (h : xs ⊆ ys) : distinct xs ⊆ distinct ys := by
  intro x hx
  rw [mem_distinct] at hx ⊢
  exact ⟨hx.1, h hx.2⟩

theorem Accepts.of_subset {xs ys : List UInt64} (h : Accepts m ys) (hsub : xs ⊆ ys) :
    Accepts m xs :=
  ⟨fun hzero => h.1 (hsub hzero), (Finset.card_le_card (distinct_subset hsub)).trans h.2⟩

/-! ### The table -/

/-- The slots of the table; zero is the empty one. -/
def slots (table : List UInt64) (v : ℕ) : Option UInt64 :=
  if table.getD v 0 = 0 then none else some (table.getD v 0)

/-- A table that holds each of the hashes once. -/
structure Stored (n : ℕ) (hashes : List UInt64) (table : List UInt64) : Prop where
  length : table.length = n
  settled : Settled n (fun hash => hash.toNat % n) (slots table)
  count : ∀ hash, hash ≠ 0 → table.count hash = if hash ∈ hashes then 1 else 0
  zeros : table.count 0 + (distinct hashes).card = n

theorem stored_init (n : ℕ) : Stored n [] (List.replicate n 0) where
  length := List.length_replicate
  settled := by
    refine settled_empty fun w hw => if_pos ?_
    rw [List.getD_eq_getElem _ _ (by rwa [List.length_replicate]), List.getElem_replicate]
  count hash h := by
    rw [List.count_replicate, if_neg (by simpa using h.symm), if_neg List.not_mem_nil]
  zeros := by
    rw [List.count_replicate_self]
    rfl

variable {n v : ℕ}

theorem Stored.mem_iff (h : Stored n hashes table) (hhash : hash ≠ 0) :
    hash ∈ table ↔ hash ∈ hashes := by
  rw [← List.count_pos_iff, h.count hash hhash]
  split_ifs with hmem
  · exact iff_of_true Nat.one_pos hmem
  · exact iff_of_false (Nat.lt_irrefl 0) hmem

theorem getD_mem (hv : v < table.length) : table.getD v 0 ∈ table := by
  rw [List.getD_eq_getElem _ _ hv]
  exact List.getElem_mem hv

theorem exists_getD (h : hash ∈ table) : ∃ w < table.length, table.getD w 0 = hash := by
  obtain ⟨w, hw, hget⟩ := List.mem_iff_getElem.1 h
  exact ⟨w, hw, by rw [List.getD_eq_getElem _ _ hw, hget]⟩

/-- The first slot where the search stops holds the hash, if the table does. -/
theorem Stored.found_iff (h : Stored n hashes table) (hhash : hash ≠ 0)
    (hfirst : FirstAt n (Stops table hash) (hash.toNat % n) v) :
    table.getD v 0 ≠ 0 ↔ hash ∈ hashes := by
  rw [← h.mem_iff hhash]
  have hv : v < table.length := h.length.symm ▸ hfirst.lt
  constructor
  · intro hne
    exact hfirst.stops.resolve_left hne ▸ getD_mem hv
  · intro hmem hzero
    obtain ⟨w, hw, hget⟩ := exists_getD hmem
    rw [h.length] at hw
    have hslot : slots table w = some hash := by rw [slots, hget, if_neg hhash]
    have hhome : hash.toNat % n < n := Nat.mod_lt _ (Nat.zero_lt_of_lt hw)
    have hne : dist n (hash.toNat % n) v ≠ dist n (hash.toNat % n) w := by
      intro heq
      rw [dist_inj hhome hfirst.lt hw heq, hget] at hzero
      exact hhash hzero
    have hle := Nat.not_lt.1 fun hlt => hfirst.before w hw hlt (Or.inr hget)
    exact h.settled w hw v hfirst.lt hash hslot (Nat.lt_of_le_of_ne hle hne) (if_pos hzero)

theorem getD_set_self (hv : v < table.length) (hash : UInt64) :
    (table.set v hash).getD v 0 = hash := by
  rw [List.getD_eq_getElem _ _ (by rwa [List.length_set]), List.getElem_set_self]

theorem slots_set (hv : v < table.length) (h : hash ≠ 0) :
    slots (table.set v hash) = Function.update (slots table) v (some hash) := by
  funext w
  by_cases hw : w = v
  · rw [hw, Function.update_self, slots, getD_set_self hv, if_neg h]
  · rw [Function.update_of_ne hw, slots, slots, List.getD_eq_getElem?_getD,
      List.getElem?_set_ne (Ne.symm hw), ← List.getD_eq_getElem?_getD]

/-- A new hash goes to the empty slot where the search for it has stopped. -/
theorem Stored.put (h : Stored n hashes table) (hhash : hash ≠ 0) (hnot : hash ∉ hashes)
    (hfirst : FirstAt n (Stops table hash) (hash.toNat % n) v) (hzero : table.getD v 0 = 0) :
    Stored n (hashes ++ [hash]) (table.set v hash) := by
  have hv : v < table.length := h.length.symm ▸ hfirst.lt
  have hget : table[v] = 0 := by rw [← List.getD_eq_getElem table 0 hv, hzero]
  refine ⟨by rw [List.length_set, h.length], ?_, fun x hx => ?_, ?_⟩
  · rw [slots_set hv hhash]
    refine settled_put h.settled fun u hu hlt hnone => hfirst.before u hu hlt (Or.inl ?_)
    by_contra hne
    rw [slots, if_neg hne] at hnone
    cases hnone
  · rw [List.count_set hv, hget, if_neg (by simpa using hx.symm), Nat.sub_zero, h.count x hx]
    by_cases hxh : x = hash
    · rw [hxh, if_neg hnot, if_pos (by simp), if_pos (by simp)]
    · simp [hxh, Ne.symm hxh]
  · have hpos : 0 < table.count 0 := List.count_pos_iff.2 (hget ▸ List.getElem_mem hv)
    rw [List.count_set hv, hget, if_pos (by simp), if_neg (by simpa using hhash),
      card_distinct_append hhash hnot, ← h.zeros]
    omega

theorem Stored.congr {hashes' : List UInt64} (h : Stored n hashes table)
    (hmem : ∀ x, x ∈ hashes' ↔ x ∈ hashes) : Stored n hashes' table where
  length := h.length
  settled := h.settled
  count x hx := by rw [h.count x hx, if_congr (hmem x) rfl rfl]
  zeros := by
    have : distinct hashes' = distinct hashes := by
      ext x
      rw [mem_distinct, mem_distinct, hmem]
    rw [this, h.zeros]

/-! ### One call -/

/-- The builder after the hashes: it holds them, or the table is given up. -/
structure Good (m : ℕ) (hashes : List UInt64) (b : UnsortedBloomBuilder) : Prop where
  maxHashes : b.maxHashes = m
  holds : Accepts m hashes → ∃ table, b.hashes = some table ∧
    Stored (tableSize m) hashes table ∧ b.tableCount = (distinct hashes).card
  gone : ¬ Accepts m hashes → b.hashes = none ∧ b.tableCount = 0

theorem good_init (m : ℕ) : Good m [] (init m) where
  maxHashes := rfl
  holds _ := ⟨_, rfl, stored_init _, rfl⟩
  gone h := absurd ⟨List.not_mem_nil, Nat.zero_le m⟩ h

theorem good_gone (h : ¬ Accepts m hashes) (hmax : b.maxHashes = m) :
    Good m hashes { b with hashes := none, tableCount := 0 } where
  maxHashes := hmax
  holds hacc := absurd hacc h
  gone _ := ⟨rfl, rfl⟩

theorem tableSize_pos (m : ℕ) : 0 < tableSize m := Nat.succ_pos _

theorem home_lt (m : ℕ) (hash : UInt64) : hash.toNat % tableSize m < tableSize m :=
  Nat.mod_lt _ (tableSize_pos m)

/-- A call that returns has done what it should. -/
theorem addWithin_good {added : Bool} (hg : Good m hashes b)
    (h : addWithin fuel b hash = some (added, b')) :
    added = decide (Accepts m (hashes ++ [hash])) ∧ Good m (hashes ++ [hash]) b' := by
  have hsub : hashes ⊆ hashes ++ [hash] := List.subset_append_left _ _
  by_cases hacc : Accepts m hashes
  swap
  · have hacc' : ¬ Accepts m (hashes ++ [hash]) := fun hall => hacc (hall.of_subset hsub)
    obtain ⟨hnone, hcount⟩ := hg.gone hacc
    rw [addWithin, hnone] at h
    obtain ⟨rfl, rfl⟩ := Prod.mk.inj (Option.some.inj h)
    exact ⟨(decide_eq_false hacc').symm, hg.maxHashes, fun hall => absurd hall hacc',
      fun _ => ⟨hnone, hcount⟩⟩
  obtain ⟨table, htable, hst, hcount⟩ := hg.holds hacc
  rw [addWithin, htable] at h
  dsimp only at h
  by_cases hhash : hash = 0
  · have hacc' : ¬ Accepts m (hashes ++ [hash]) := fun hall =>
      hall.1 (hhash ▸ List.mem_append_right _ List.mem_cons_self)
    rw [if_pos hhash] at h
    obtain ⟨rfl, rfl⟩ := Prod.mk.inj (Option.some.inj h)
    exact ⟨(decide_eq_false hacc').symm, good_gone hacc' hg.maxHashes⟩
  rw [if_neg hhash, hst.length] at h
  obtain ⟨r, hr, hret⟩ := Option.map_eq_some_iff.1 h
  -- the search has ended, so there is a slot where it stops
  have hstop : ∃ z < tableSize m, Stops table hash z := by
    by_contra hnone
    push Not at hnone
    rw [← hst.length] at hnone
    rw [probe_eq_none hnone (hst.length ▸ home_lt m hash)] at hr
    cases hr
  obtain ⟨v, hfirst, hprobe⟩ := exists_probe hst.length (home_lt m hash) hstop
  rw [hprobe] at hr
  obtain rfl := Option.some.inj (Option.ite_none_right_eq_some.1 hr).2
  have hfound := hst.found_iff hhash hfirst
  by_cases hmem : hash ∈ hashes
  · rw [if_pos (decide_eq_true (hfound.2 hmem))] at hret
    obtain ⟨rfl, rfl⟩ := Prod.mk.inj hret
    have hsame : ∀ x, x ∈ hashes ++ [hash] ↔ x ∈ hashes := fun x => by
      rw [List.mem_append, List.mem_singleton]
      exact or_iff_left_of_imp (fun hx => hx ▸ hmem)
    have hacc' : Accepts m (hashes ++ [hash]) := hacc.of_subset fun x hx => (hsame x).1 hx
    refine ⟨(decide_eq_true hacc').symm, hg.maxHashes, fun _ => ⟨table, htable, hst.congr hsame, ?_⟩,
      fun hnot => absurd hacc' hnot⟩
    rw [hcount, distinct_append_of_mem hmem]
  have hzero : table.getD v 0 = 0 := Classical.not_not.1 fun hne => hmem (hfound.1 hne)
  rw [if_neg (by simpa using hzero)] at hret
  have hcard := card_distinct_append hhash hmem
  by_cases hfull : b.tableCount = b.maxHashes
  · have hacc' : ¬ Accepts m (hashes ++ [hash]) := by
      rintro ⟨-, hle⟩
      rw [hcard, ← hcount, hfull, hg.maxHashes] at hle
      exact Nat.not_succ_le_self m hle
    rw [if_pos hfull] at hret
    obtain ⟨rfl, rfl⟩ := Prod.mk.inj hret
    exact ⟨(decide_eq_false hacc').symm, good_gone hacc' hg.maxHashes⟩
  · have hacc' : Accepts m (hashes ++ [hash]) := by
      refine ⟨fun hin => ?_, ?_⟩
      · rcases List.mem_append.1 hin with hin | hin
        · exact hacc.1 hin
        · exact hhash (List.mem_singleton.1 hin).symm
      · rw [hcard]
        rw [hcount, hg.maxHashes] at hfull
        exact Nat.lt_of_le_of_ne hacc.2 hfull
    rw [if_neg hfull] at hret
    obtain ⟨rfl, rfl⟩ := Prod.mk.inj hret
    refine ⟨(decide_eq_true hacc').symm, hg.maxHashes,
      fun _ => ⟨_, rfl, hst.put hhash hmem hfirst hzero, ?_⟩, fun hnot => absurd hacc' hnot⟩
    rw [hcard, ← hcount]

/-- A call returns while the table has the hash or an empty slot. -/
theorem addWithin_isSome (hg : Good m hashes b)
    (h : Accepts m hashes → hash ≠ 0 → hash ∉ hashes → (distinct hashes).card < tableSize m) :
    ∃ r, addWithin (tableSize m) b hash = some r := by
  by_cases hacc : Accepts m hashes
  swap
  · exact ⟨_, by rw [addWithin, (hg.gone hacc).1]⟩
  obtain ⟨table, htable, hst, -⟩ := hg.holds hacc
  rw [addWithin, htable]
  dsimp only
  by_cases hhash : hash = 0
  · exact ⟨_, if_pos hhash⟩
  have hstop : ∃ z < tableSize m, Stops table hash z := by
    rw [← hst.length]
    by_cases hmem : hash ∈ hashes
    · obtain ⟨w, hw, hget⟩ := exists_getD ((hst.mem_iff hhash).2 hmem)
      exact ⟨w, hw, Or.inr hget⟩
    · have hroom := h hacc hhash hmem
      rw [← hst.zeros] at hroom
      obtain ⟨w, hw, hget⟩ := exists_getD
        (List.count_pos_iff.1 (Nat.pos_of_lt_add_left hroom))
      exact ⟨w, hw, Or.inl hget⟩
  obtain ⟨v, hfirst, hprobe⟩ := exists_probe hst.length (home_lt m hash) hstop
  rw [if_neg hhash, hst.length, hprobe, if_pos (dist_lt (home_lt m hash) hfirst.lt)]
  exact ⟨_, rfl⟩

/-- In a full table the search for another hash does not end. -/
theorem addWithin_eq_none (hg : Good m hashes b) (hacc : Accepts m hashes) (hhash : hash ≠ 0)
    (hmem : hash ∉ hashes) (hfull : (distinct hashes).card = tableSize m) :
    addWithin fuel b hash = none := by
  obtain ⟨table, htable, hst, -⟩ := hg.holds hacc
  have hnozero : (0 : UInt64) ∉ table := by
    have hzeros := hst.zeros
    rw [hfull] at hzeros
    exact List.count_eq_zero.1 (Nat.add_eq_right.1 hzeros)
  have hstops : ∀ u < table.length, ¬ Stops table hash u := by
    rintro u hu (hget | hget)
    · exact hnozero (hget ▸ getD_mem hu)
    · exact hmem ((hst.mem_iff hhash).1 (hget ▸ getD_mem hu))
  rw [addWithin, htable]
  dsimp only
  rw [if_neg hhash, probe_eq_none hstops (by rw [hst.length]; exact home_lt m hash)]
  rfl

/-! ### Sequences of calls -/

theorem adds_append (fuel : ℕ) (b : UnsortedBloomBuilder) (hashes : List UInt64) (hash : UInt64) :
    adds fuel b (hashes ++ [hash]) = (adds fuel b hashes).bind fun r =>
      (addWithin fuel r.2 hash).map fun q => (r.1 ++ [q.1], q.2) := by
  induction hashes generalizing b with
  | nil =>
    rw [List.nil_append, adds, adds, Option.bind_some]
    cases addWithin fuel b hash with
    | none => rfl
    | some q => rfl
  | cons x hashes ih =>
    rw [List.cons_append, adds, adds]
    cases addWithin fuel b x with
    | none => rfl
    | some q =>
      obtain ⟨added, b⟩ := q
      simp only [Option.bind_eq_bind, Option.bind_some, ih b]
      cases adds fuel b hashes with
      | none => rfl
      | some r =>
        simp only [Option.bind_some]
        cases addWithin fuel r.2 hash with
        | none => rfl
        | some q => rfl

theorem adds_good {added : List Bool} (h : adds fuel (init m) hashes = some (added, b)) :
    Good m hashes b ∧ added =
      (List.range hashes.length).map fun i => decide (Accepts m (hashes.take (i + 1))) := by
  induction hashes using List.reverseRecOn generalizing added b with
  | nil =>
    obtain ⟨rfl, rfl⟩ := Prod.mk.inj (Option.some.inj h)
    exact ⟨good_init m, rfl⟩
  | append_singleton hashes hash ih =>
    rw [adds_append] at h
    obtain ⟨⟨rets, b₁⟩, hrun, hlast⟩ := Option.bind_eq_some_iff.1 h
    obtain ⟨⟨ret, b₂⟩, hadd, hret⟩ := Option.map_eq_some_iff.1 hlast
    obtain ⟨rfl, rfl⟩ := Prod.mk.inj hret
    obtain ⟨hg, rfl⟩ := ih hrun
    obtain ⟨rfl, hg'⟩ := addWithin_good hg hadd
    refine ⟨hg', ?_⟩
    rw [List.length_append, List.length_singleton, List.range_succ, List.map_append,
      List.map_singleton, List.take_of_length_le (by rw [List.length_append]; rfl)]
    congr 1
    refine List.map_congr_left fun i hi => ?_
    rw [List.take_append_of_le_length (List.mem_range.1 hi)]

/-- What a builder is follows from its invariant. -/
theorem Good.correct {added : List Bool} (hg : Good m hashes b) (hadded : added =
    (List.range hashes.length).map fun i => decide (Accepts m (hashes.take (i + 1)))) :
    Correct m hashes added b := by
  have hacc_of_valid : b.valid = true → Accepts m hashes := by
    intro hvalid
    by_contra hacc
    rw [valid, (hg.gone hacc).2] at hvalid
    cases hvalid
  refine ⟨hadded, ⟨fun hvalid => ⟨?_, hacc_of_valid hvalid⟩, ?_⟩, fun hvalid => ?_, fun hvalid => ?_⟩
  · rintro rfl
    obtain ⟨table, -, -, hcount⟩ := hg.holds (hacc_of_valid hvalid)
    rw [valid, hcount] at hvalid
    cases hvalid
  · rintro ⟨hne, hacc⟩
    obtain ⟨table, -, -, hcount⟩ := hg.holds hacc
    obtain ⟨x, hx⟩ := List.exists_mem_of_ne_nil hashes hne
    have hmem : x ∈ distinct hashes := mem_distinct.2 ⟨fun hzero => hacc.1 (hzero ▸ hx), hx⟩
    rw [valid, hcount, bne_iff_ne]
    exact (Finset.card_pos.2 ⟨x, hmem⟩).ne'
  · obtain ⟨table, htable, hst, -⟩ := hg.holds (hacc_of_valid hvalid)
    exact ⟨table, htable, hst.count⟩
  · have hacc := hacc_of_valid hvalid
    obtain ⟨table, -, -, hcount⟩ := hg.holds hacc
    exact ⟨hcount, by rw [queryCount, hcount]; exact hacc.2⟩

/-- With so many distinct hashes before the first zero the table has room for the search. -/
def Fits (m : ℕ) (hashes : List UInt64) : Prop :=
  m < 2 ^ 30 ∨ (distinct (hashes.takeWhile fun hash => hash ≠ 0)).card ≤ tableSize m

theorem lt_tableSize (h : m < 2 ^ 30) : m < tableSize m := by
  rw [tableSize, Nat.mod_eq_of_lt (by omega)]
  omega

theorem tableSize_le (h : 2 ^ 30 ≤ m) (h' : m < 2 ^ 32) : tableSize m ≤ m := by
  rw [tableSize]
  omega

theorem takeWhile_ne_zero (h : (0 : UInt64) ∉ hashes) :
    (hashes.takeWhile fun hash => hash ≠ 0) = hashes := by
  rw [List.takeWhile_eq_self_iff]
  exact fun x hx => decide_eq_true fun hzero => h (hzero ▸ hx)

theorem Fits.of_prefix {xs ys : List UInt64} (h : Fits m ys) (hsub : xs <+: ys) : Fits m xs := by
  refine h.imp_right fun hcard => (Finset.card_le_card (distinct_subset ?_)).trans hcard
  obtain ⟨zs, rfl⟩ := hsub
  rw [List.takeWhile_append]
  split_ifs with hall
  · rw [List.Sublist.eq_of_length (List.takeWhile_sublist _) hall]
    exact List.subset_append_left _ _
  · exact List.Subset.refl _

theorem adds_isSome (h : Fits m hashes) : ∃ r, adds (tableSize m) (init m) hashes = some r := by
  induction hashes using List.reverseRecOn with
  | nil => exact ⟨_, rfl⟩
  | append_singleton hashes hash ih =>
    obtain ⟨⟨rets, b₁⟩, hrun⟩ := ih (h.of_prefix (List.prefix_append _ _))
    have hroom : Accepts m hashes → hash ≠ 0 → hash ∉ hashes →
        (distinct hashes).card < tableSize m := by
      intro hacc hhash hmem
      rcases h with hm | hcard
      · exact hacc.2.trans_lt (lt_tableSize hm)
      · rw [takeWhile_ne_zero, card_distinct_append hhash hmem] at hcard
        · exact hcard
        · rw [List.mem_append, List.mem_singleton]
          exact fun hin => hin.elim hacc.1 fun hzero => hhash hzero.symm
    obtain ⟨q, hadd⟩ := addWithin_isSome (adds_good hrun).1 hroom
    rw [adds_append, hrun, Option.bind_some, hadd]
    exact ⟨_, rfl⟩

/-- The place in a list of hashes where one is added to `k` others. -/
theorem exists_split {k : ℕ} (hzero : (0 : UInt64) ∉ hashes) (h : k < (distinct hashes).card) :
    ∃ xs x, xs ++ [x] <+: hashes ∧ x ≠ 0 ∧ x ∉ xs ∧ (distinct xs).card = k := by
  induction hashes using List.reverseRecOn with
  | nil => cases h
  | append_singleton hashes hash ih =>
    have hzero' : (0 : UInt64) ∉ hashes := fun hmem => hzero (List.mem_append_left _ hmem)
    have hhash : hash ≠ 0 := fun heq => hzero (heq ▸ List.mem_append_right _ List.mem_cons_self)
    by_cases hlt : k < (distinct hashes).card
    · obtain ⟨xs, x, hsub, hrest⟩ := ih hzero' hlt
      exact ⟨xs, x, hsub.trans (List.prefix_append _ _), hrest⟩
    · have hmem : hash ∉ hashes := fun hmem => hlt (by rwa [distinct_append_of_mem hmem] at h)
      rw [card_distinct_append hhash hmem] at h
      exact ⟨hashes, hash, List.prefix_refl _, hhash, hmem,
        Nat.le_antisymm (Nat.not_lt.1 hlt) (Nat.le_of_lt_succ h)⟩

/-- The builder is a correct bounded set of hashes, after every call, as long as the search has
room. -/
theorem builder_correct_iff (hm : m < 2 ^ 32) (hashes : List UInt64) :
    (∀ first, first <+: hashes → ∃ fuel added b, adds fuel (init m) first = some (added, b) ∧
      Correct m first added b) ↔ Fits m hashes := by
  constructor
  · intro h
    by_contra hfits
    rw [Fits, not_or, Nat.not_lt, Nat.not_le] at hfits
    obtain ⟨hbig, hmany⟩ := hfits
    have hzero : (0 : UInt64) ∉ hashes.takeWhile fun hash => hash ≠ 0 := by
      intro hmem
      have hne := List.mem_takeWhile_imp hmem
      rw [decide_eq_true_eq] at hne
      exact hne rfl
    obtain ⟨xs, x, hsub, hx, hmem, hcard⟩ := exists_split hzero hmany
    have hacc : Accepts m xs :=
      ⟨fun hin => hzero (hsub.subset (List.mem_append_left _ hin)),
        hcard.le.trans (tableSize_le hbig hm)⟩
    obtain ⟨fuel, added, b, hrun, -⟩ := h (xs ++ [x]) (hsub.trans (List.takeWhile_prefix _))
    rw [adds_append] at hrun
    obtain ⟨⟨rets, b₁⟩, hfirst, hlast⟩ := Option.bind_eq_some_iff.1 hrun
    rw [addWithin_eq_none (adds_good hfirst).1 hacc hx hmem hcard] at hlast
    cases hlast
  · intro h first hsub
    obtain ⟨⟨added, b⟩, hrun⟩ := adds_isSome (h.of_prefix hsub)
    obtain ⟨hg, hadded⟩ := adds_good hrun
    exact ⟨_, added, b, hrun, hg.correct hadded⟩

theorem builder_correct_two :
    (∀ first, first <+: [3, 5, 3, 7] → ∃ fuel added b,
      adds fuel (init 2) first = some (added, b) ∧ Correct 2 first added b) ↔
        Fits 2 [3, 5, 3, 7] :=
  builder_correct_iff (by decide) _

/-- With a limit of `2 ^ 30` the table has one slot, and the second hash is searched for ever. -/
theorem adds_two_of_full :
    (∀ fuel, adds fuel (init (2 ^ 30)) [1, 2] = none) ∧
      ¬ ∀ first, first <+: [1, 2] → ∃ fuel added b,
        adds fuel (init (2 ^ 30)) first = some (added, b) ∧ Correct (2 ^ 30) first added b := by
  have hnone : ∀ fuel, adds fuel (init (2 ^ 30)) [1, 2] = none := by
    intro fuel
    rw [← List.singleton_append, adds_append, Option.bind_eq_none_iff]
    rintro ⟨added, b⟩ hrun
    rw [addWithin_eq_none (adds_good hrun).1 (by decide) (by decide) (by decide) (by decide),
      Option.map_none]
  refine ⟨hnone, ?_⟩
  intro hall
  obtain ⟨fuel, added, b, hrun, -⟩ := hall [1, 2] (List.prefix_refl _)
  rw [hnone fuel] at hrun
  exact absurd hrun (Option.some_ne_none _).symm

end UnsortedBloomBuilder

end Bloom

end HpccPlatform
