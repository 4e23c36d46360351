import HpccPlatform.Index.Bloom

/-!
# Row hashes and filter hashes

A Bloom filter is of use only if the hash of a row is the hash of the filters that the row matches.
That is so for a mask of one field and for a mask that is not a leading block of fields.  For a
leading block of several fields `createRowHasher` hashes as many bytes of the start of the row as the
last field has, and not the bytes of all the fields.
-/

namespace HpccPlatform

namespace Bloom

/-- The filters fix the fields of the mask to the values of the row. -/
def Fixes (sizes : List ℕ) (fields : UInt64) (row : List UInt8)
    (filters : ℕ → Option IndexFilter) : Prop :=
  ∀ f ∈ maskFields fields, filters f = some (.single (fieldBytes sizes row f))

/-- The mask has a field, and only fields of the record. -/
def IsMask (sizes : List ℕ) (fields : UInt64) : Prop :=
  fields ≠ 0 ∧ ∀ f ∈ maskFields fields, f < sizes.length

/-- Whatever the hash function and the sizes of the filters are: a row that was added to a builder
that stayed valid is never rejected. -/
def NeverSkips (sizes : List ℕ) (fields : UInt64) : Prop :=
  ∃ hasher, createRowHasher sizes fields = some hasher ∧
    ∀ (step : UInt64 → UInt8 → UInt64) (sizing : ℕ → ℕ × ℕ), (∀ n, 0 < (sizing n).2) →
    ∀ (limit : ℕ) (enabled : Bool) (rows : List (List UInt8)),
      (∀ row ∈ rows, row.length = sizes.sum) →
    ∀ b, (rows.map fun row => hasher.hash step sizes fields row).foldlM BloomBuilder.add
        (createBloomBuilder ⟨fields, limit, enabled⟩) = some b → b.valid = true →
      ∃ filter, b.build sizing = some filter ∧ ∀ row ∈ rows, ∀ filters,
        Fixes sizes fields row filters → reject step fields filter filters = false

/-- The mask is a leading block of at least two fields, and the block has bytes before its last
field (or is one of 64 fields, where the number of the last field is computed as `-2`). -/
def LeadingBlock (sizes : List ℕ) (fields : UInt64) : Prop :=
  ∃ k, 2 ≤ k ∧ fields.toNat = 2 ^ k - 1 ∧ (k = 64 ∨ 0 < getFixedOffset sizes (k - 1))

/-! ## Hashing field by field -/

section Hash

variable (step : UInt64 → UInt8 → UInt64) {sizes : List ℕ}

lemma foldl_rtlHash64Data (data : ℕ → List UInt8) (fs : List ℕ) (hash : UInt64) :
    fs.foldl (fun hashval f => rtlHash64Data step (data f) hashval) hash =
      rtlHash64Data step (fs.flatMap data) hash := by
  induction fs generalizing hash with
  | nil => rfl
  | cons f fs ih => rw [List.foldl_cons, ih, List.flatMap_cons, rtlHash64Data_append]

lemma getBloomHash_eq {filters : ℕ → Option IndexFilter} {data : ℕ → List UInt8} {fs : List ℕ}
    (h : ∀ f ∈ fs, filters f = some (.single (data f))) (hash : UInt64) :
    getBloomHash step filters fs hash = some (rtlHash64Data step (fs.flatMap data) hash) := by
  induction fs generalizing hash with
  | nil => rfl
  | cons f fs ih =>
    rw [getBloomHash, h f List.mem_cons_self]
    dsimp only
    rw [ih (fun g hg => h g (List.mem_cons_of_mem _ hg)), List.flatMap_cons, rtlHash64Data_append]

lemma getFixedOffset_succ {k : ℕ} (hk : k < sizes.length) :
    getFixedOffset sizes (k + 1) = getFixedOffset sizes k + sizes[k] := by
  unfold getFixedOffset
  rw [List.take_add_one, List.getElem?_eq_getElem hk, List.sum_append]
  simp

/-- The first fields of a row, one after the other, are the start of the row. -/
lemma flatMap_fieldBytes {row : List UInt8} {k : ℕ} (hk : k ≤ sizes.length) :
    (List.range k).flatMap (fieldBytes sizes row) = row.take (getFixedOffset sizes k) := by
  induction k with
  | zero => simp [getFixedOffset]
  | succ k ih =>
    have hlt : k < sizes.length := hk
    rw [List.range_succ, List.flatMap_append, ih hlt.le, getFixedOffset_succ hlt, List.take_add]
    congr 1
    unfold fieldBytes
    rw [List.flatMap_cons, List.flatMap_nil, List.append_nil, List.getD_eq_getElem?_getD,
      List.getElem?_eq_getElem hlt, Option.getD_some]

/-- The hash of the filters that fix the fields to the values of a row. -/
lemma reject_eq {fields : UInt64} {row : List UInt8} {filters : ℕ → Option IndexFilter}
    (h : Fixes sizes fields row filters) (filter : BloomFilter) :
    reject step fields filter filters =
      !filter.test (rtlHash64Data step ((maskFields fields).flatMap (fieldBytes sizes row))
        HASH64_INIT) := by
  unfold reject
  rw [getBloomHash_eq step h]

end Hash

/-! ## The shapes of a mask -/

section Mask

variable {fields : UInt64}

lemma filter_range_eq {p : ℕ → Bool} {n k : ℕ} (hk : k ≤ n) (hlt : ∀ i < k, p i = true)
    (hge : ∀ i, k ≤ i → p i = false) : (List.range n).filter p = List.range k := by
  obtain ⟨m, rfl⟩ := Nat.exists_eq_add_of_le hk
  rw [List.range_add, List.filter_append, List.filter_eq_self.2, List.filter_eq_nil_iff.2,
    List.append_nil]
  · intro i hi
    obtain ⟨j, -, rfl⟩ := List.mem_map.1 hi
    rw [hge _ (Nat.le_add_right k j)]
    exact Bool.false_ne_true
  · intro i hi
    exact hlt i (List.mem_range.1 hi)

lemma maskFields_two_pow {k : ℕ} (hk : k < 64) (h : fields.toNat = 2 ^ k) :
    maskFields fields = [k] := by
  unfold maskFields
  rw [h]
  have hsplit : List.range 64 = List.range k ++ k :: (List.range (63 - k)).map (k + 1 + ·) := by
    have h64 : 64 = k + 1 + (63 - k) := by omega
    conv_lhs => rw [h64, List.range_add, List.range_succ, List.append_assoc, List.singleton_append]
  rw [hsplit, List.filter_append, List.filter_eq_nil_iff.2, List.nil_append,
    List.filter_cons_of_pos, List.filter_eq_nil_iff.2]
  · intro i hi
    obtain ⟨j, -, rfl⟩ := List.mem_map.1 hi
    rw [Nat.testBit_two_pow, decide_eq_true_eq]
    omega
  · rw [Nat.testBit_two_pow_self]
  · intro i hi
    rw [Nat.testBit_two_pow, decide_eq_true_eq]
    have := List.mem_range.1 hi
    omega

lemma maskFields_two_pow_sub_one {k : ℕ} (hk : k ≤ 64) (h : fields.toNat = 2 ^ k - 1) :
    maskFields fields = List.range k := by
  unfold maskFields
  rw [h]
  refine filter_range_eq hk (fun i hi => ?_) fun i hi => ?_
  · rw [Nat.testBit_two_pow_sub_one, decide_eq_true hi]
  · rw [Nat.testBit_two_pow_sub_one, decide_eq_false (not_lt.2 hi)]

lemma ffsll_two_pow {k : ℕ} (hk : k < 64) (h : fields.toNat = 2 ^ k) : ffsll fields = k + 1 := by
  have hfind : (List.range 64).find? (fun f => fields.toNat.testBit f) = some k := by
    rw [List.find?_range_eq_some, h]
    refine ⟨Nat.testBit_two_pow_self, List.mem_range.2 hk, fun j hj => ?_⟩
    rw [Nat.testBit_two_pow, decide_eq_false (by omega)]
    rfl
  unfold ffsll
  rw [hfind]

lemma single_iff (hne : fields ≠ 0) :
    fields &&& (fields - 1) = 0 ↔ ∃ k < 64, fields.toNat = 2 ^ k := by
  have hpos : fields.toNat ≠ 0 := fun h => hne (UInt64.toNat.inj h)
  have hsub : (fields - 1).toNat = fields.toNat - 1 :=
    UInt64.toNat_sub_of_le _ _ (UInt64.le_iff_toNat_le.2 (Nat.one_le_iff_ne_zero.2 hpos))
  rw [← UInt64.toNat_inj, UInt64.toNat_and, hsub]
  refine (Nat.and_sub_one_eq_zero_iff_isPowerOfTwo hpos).trans ⟨?_, fun ⟨k, _, h⟩ => ⟨k, h⟩⟩
  rintro ⟨k, hk⟩
  refine ⟨k, ?_, hk⟩
  have hlt := fields.toNat_lt
  rw [hk] at hlt
  exact (Nat.pow_lt_pow_iff_right (by decide)).1 hlt

lemma leading_iff : fields &&& (fields + 1) = 0 ↔ ∃ k ≤ 64, fields.toNat = 2 ^ k - 1 := by
  have hlt := fields.toNat_lt
  rcases Nat.lt_or_ge (fields.toNat + 1) (2 ^ 64) with hsmall | hbig
  · have hadd : (fields + 1).toNat = fields.toNat + 1 := by
      rw [UInt64.toNat_add]
      exact Nat.mod_eq_of_lt hsmall
    have hcomm : fields.toNat &&& (fields.toNat + 1) =
        (fields.toNat + 1) &&& (fields.toNat + 1 - 1) := by
      rw [Nat.add_sub_cancel, Nat.and_comm]
    rw [← UInt64.toNat_inj, UInt64.toNat_and, hadd, hcomm]
    refine (Nat.and_sub_one_eq_zero_iff_isPowerOfTwo (Nat.succ_ne_zero _)).trans ⟨?_, ?_⟩
    · rintro ⟨k, hk⟩
      change fields.toNat + 1 = 2 ^ k at hk
      refine ⟨k, ?_, by omega⟩
      rw [hk] at hsmall
      exact ((Nat.pow_lt_pow_iff_right (by decide)).1 hsmall).le
    · rintro ⟨k, -, hk⟩
      have := Nat.one_le_two_pow (n := k)
      exact ⟨k, by omega⟩
  · have hall : fields.toNat = 2 ^ 64 - 1 := by omega
    have hzero : fields + 1 = 0 := by
      apply UInt64.toNat.inj
      rw [UInt64.toNat_add, hall]
      rfl
    rw [hzero, UInt64.and_zero]
    exact ⟨fun _ => ⟨64, le_rfl, hall⟩, fun _ => rfl⟩
lemma toNat_add_one {k : ℕ} (hk : k < 64) (h : fields.toNat = 2 ^ k - 1) :
    (fields + 1).toNat = 2 ^ k := by
  have hle := Nat.one_le_two_pow (n := k)
  have hlt64 : 2 ^ k < 2 ^ 64 := (Nat.pow_lt_pow_iff_right (by decide)).2 hk
  rw [UInt64.toNat_add, h]
  change (2 ^ k - 1 + 1) % 2 ^ 64 = 2 ^ k
  rw [Nat.sub_add_cancel hle, Nat.mod_eq_of_lt hlt64]

end Mask

/-! ## Which masks are safe -/

section Safe

variable {sizes : List ℕ} {fields : UInt64}

/-- A hasher that hashes the bytes of the fields of the mask, one field after the other. -/
def HashesFields (sizes : List ℕ) (fields : UInt64) (hasher : RowHasher) : Prop :=
  ∀ (step : UInt64 → UInt8 → UInt64) (row : List UInt8), hasher.hash step sizes fields row =
    rtlHash64Data step ((maskFields fields).flatMap (fieldBytes sizes row)) HASH64_INIT

/-- With such a hasher no row is skipped. -/
lemma neverSkips_of_hashesFields {hasher : RowHasher}
    (hcreate : createRowHasher sizes fields = some hasher)
    (hhash : HashesFields sizes fields hasher) : NeverSkips sizes fields := by
  refine ⟨hasher, hcreate, ?_⟩
  intro step sizing hsize limit enabled rows _ b hb hvalid
  have hholds := (BloomBuilder.holds_create ⟨fields, limit, enabled⟩).foldlM hb
  obtain ⟨filter, hbuild, htest⟩ := hholds.test_build hvalid hsize
  refine ⟨filter, hbuild, fun row hrow filters hfix => ?_⟩
  rw [reject_eq step hfix, ← hhash step row, htest _ (by
    rw [List.nil_append]
    exact List.mem_map_of_mem hrow)]
  rfl

lemma exists_hashesFields (hmask : IsMask sizes fields) (hblock : ¬ LeadingBlock sizes fields) :
    ∃ hasher, createRowHasher sizes fields = some hasher ∧
      HashesFields sizes fields hasher := by
  unfold createRowHasher
  by_cases hsingle : fields &&& (fields - 1) = 0
  · -- one field
    obtain ⟨k, hk, hpow⟩ := (single_iff hmask.1).1 hsingle
    have hfields := maskFields_two_pow hk hpow
    have hlt : k < sizes.length := hmask.2 k (by rw [hfields]; exact List.mem_cons_self)
    rw [if_pos hsingle, ffsll_two_pow hk hpow, if_neg (by omega), Nat.add_sub_cancel,
      List.getElem?_eq_getElem hlt]
    refine ⟨_, rfl, fun step row => ?_⟩
    rw [hfields, List.flatMap_cons, List.flatMap_nil, List.append_nil]
    unfold fieldBytes
    rw [List.getD_eq_getElem?_getD, List.getElem?_eq_getElem hlt]
    rfl
  rw [if_neg hsingle]
  by_cases hlead : fields &&& (fields + 1) = 0
  · -- a leading block, without bytes before the last field
    obtain ⟨k, hk, hpow⟩ := leading_iff.1 hlead
    have hk2 : 2 ≤ k := by
      by_contra hsmall
      have : fields.toNat = 0 ∨ fields.toNat = 2 ^ 0 := by
        rcases (show k = 0 ∨ k = 1 by omega) with rfl | rfl
        · exact Or.inl hpow
        · exact Or.inr hpow
      rcases this with h | h
      · exact hmask.1 (UInt64.toNat.inj h)
      · exact hsingle ((single_iff hmask.1).2 ⟨0, by decide, h⟩)
    have hne : k ≠ 64 := fun h => hblock ⟨k, hk2, hpow, Or.inl h⟩
    have hoff : getFixedOffset sizes (k - 1) = 0 := by
      by_contra h
      exact hblock ⟨k, hk2, hpow, Or.inr (Nat.pos_of_ne_zero h)⟩
    have hfields := maskFields_two_pow_sub_one hk hpow
    have hlt : k - 1 < sizes.length :=
      hmask.2 (k - 1) (by rw [hfields, List.mem_range]; omega)
    have hnext := toNat_add_one (by omega) hpow
    rw [if_pos hlead, ffsll_two_pow (by omega) hnext, if_neg (by omega),
      show k + 1 - 2 = k - 1 by omega, List.getElem?_eq_getElem hlt]
    refine ⟨_, rfl, fun step row => ?_⟩
    have hblockSize := getFixedOffset_succ hlt
    rw [Nat.sub_add_cancel (by omega), hoff, Nat.zero_add] at hblockSize
    rw [hfields, flatMap_fieldBytes (by omega), hblockSize]
    rfl
  · rw [if_neg hlead]
    exact ⟨_, rfl, fun step row => foldl_rtlHash64Data step _ _ _⟩

/-- A hash function that tells whether one of the bytes is 1. -/
def oneStep (hash : UInt64) (byte : UInt8) : UInt64 := if byte = 1 then 0 else hash

lemma rtlHash64Data_oneStep (data : List UInt8) (hash : UInt64) :
    rtlHash64Data oneStep data hash = if (1 : UInt8) ∈ data then 0 else hash := by
  induction data generalizing hash with
  | nil => rfl
  | cons b data ih =>
    change rtlHash64Data oneStep data (oneStep hash b) = _
    rw [ih]
    unfold oneStep
    by_cases hb : b = 1
    · simp [hb]
    · simp [hb, Ne.symm hb]

/-- The filter that is built for the first hash does not know the hash 0. -/
lemma build_init (fields : UInt64) (hlead : fields &&& (fields + 1) = 0) :
    ∃ b filter, [HASH64_INIT].foldlM BloomBuilder.add (createBloomBuilder ⟨fields, 1, true⟩) =
        some b ∧ b.valid = true ∧ b.build (fun _ => (1, 2)) = some filter ∧
        filter.test 0 = false := by
  unfold createBloomBuilder
  rw [if_pos hlead]
  exact ⟨_, (createBloomFilter (fun _ => (1, 2)) 1).add HASH64_INIT, rfl, rfl, rfl, by decide⟩

/-- A leading block of several fields: a row is rejected that differs from others only behind the
bytes that were hashed. -/
lemma not_neverSkips_of_leadingBlock (hmask : IsMask sizes fields)
    (hblock : LeadingBlock sizes fields) : ¬ NeverSkips sizes fields := by
  obtain ⟨k, hk2, hpow, hcase⟩ := hblock
  have hk : k ≤ 64 := by
    have hlt := fields.toNat_lt
    by_contra hbig
    have := Nat.pow_le_pow_right (show 0 < 2 by decide) (show 65 ≤ k by omega)
    omega
  have hlead : fields &&& (fields + 1) = 0 := leading_iff.2 ⟨k, hk, hpow⟩
  have hnot : ¬ fields &&& (fields - 1) = 0 := by
    rw [single_iff hmask.1]
    rintro ⟨j, -, hj⟩
    -- a number of at least two ones is not a power of two
    have h0 : fields.toNat.testBit 0 = true := by
      rw [hpow, Nat.testBit_two_pow_sub_one, decide_eq_true (by omega)]
    have h1 : fields.toNat.testBit 1 = true := by
      rw [hpow, Nat.testBit_two_pow_sub_one, decide_eq_true (by omega)]
    rw [hj, Nat.testBit_two_pow, decide_eq_true_eq] at h0 h1
    omega
  rintro ⟨hasher, hcreate, hsound⟩
  unfold createRowHasher at hcreate
  rw [if_neg hnot, if_pos hlead] at hcreate
  by_cases h64 : k = 64
  · have hzero : fields + 1 = 0 := by
      apply UInt64.toNat.inj
      rw [UInt64.toNat_add, hpow, h64]
      rfl
    rw [hzero] at hcreate
    cases hcreate
  have hoff : 0 < getFixedOffset sizes (k - 1) := hcase.resolve_left h64
  have hfields := maskFields_two_pow_sub_one hk hpow
  have hlt : k - 1 < sizes.length := hmask.2 (k - 1) (by rw [hfields, List.mem_range]; omega)
  have hnext := toNat_add_one (by omega) hpow
  rw [ffsll_two_pow (by omega) hnext, if_neg (by omega), show k + 1 - 2 = k - 1 by omega,
    List.getElem?_eq_getElem hlt, Option.map_some] at hcreate
  obtain rfl := Option.some.inj hcreate
  have htotal := getFixedOffset_succ hlt
  rw [Nat.sub_add_cancel (by omega)] at htotal
  have hsum : getFixedOffset sizes k ≤ sizes.sum := by
    unfold getFixedOffset
    conv_rhs => rw [← List.take_append_drop k sizes, List.sum_append]
    omega
  -- the row has its only 1 directly behind the bytes that are hashed
  set row : List UInt8 := (List.replicate sizes.sum 0).set sizes[k - 1] 1 with hrow
  have hlen : row.length = sizes.sum := by rw [hrow, List.length_set, List.length_replicate]
  have hhash : RowHasher.hash oneStep sizes fields row (.simple 0 sizes[k - 1]) = HASH64_INIT := by
    change rtlHash64Data oneStep ((row.drop 0).take sizes[k - 1]) HASH64_INIT = HASH64_INIT
    rw [rtlHash64Data_oneStep, if_neg]
    rw [List.drop_zero, hrow, List.take_set_of_le le_rfl, List.take_replicate]
    intro hmem
    exact absurd (List.eq_of_mem_replicate hmem) (by decide)
  have hfilters : rtlHash64Data oneStep ((maskFields fields).flatMap (fieldBytes sizes row))
      HASH64_INIT = 0 := by
    rw [hfields, flatMap_fieldBytes (by omega), rtlHash64Data_oneStep, if_pos]
    rw [List.mem_take_iff_getElem]
    refine ⟨sizes[k - 1], by rw [hlen]; omega, ?_⟩
    simp [hrow]
  obtain ⟨b, filter, hb, hvalid, hbuild, htest⟩ := build_init fields hlead
  obtain ⟨filter', hbuild', hreject⟩ := hsound oneStep (fun _ => (1, 2)) (fun _ => by decide) 1 true
    [row] (fun r hr => by rw [List.mem_singleton.1 hr, hlen]) b
    (by rw [List.map_cons, List.map_nil, hhash]; exact hb) hvalid
  obtain rfl := Option.some.inj (hbuild.symm.trans hbuild')
  have hfix : Fixes sizes fields row fun f => some (.single (fieldBytes sizes row f)) :=
    fun f _ => rfl
  have := hreject row List.mem_cons_self _ hfix
  rw [reject_eq oneStep hfix, hfilters, htest] at this
  cases this

/-- No row is skipped, whatever the hash function is, exactly when the mask is not a leading block
of several fields. -/
theorem neverSkips_iff (sizes : List ℕ) (fields : UInt64) (hmask : IsMask sizes fields) :
    NeverSkips sizes fields ↔ ¬ LeadingBlock sizes fields := by
  constructor
  · intro h hblock
    exact not_neverSkips_of_leadingBlock hmask hblock h
  · intro hblock
    obtain ⟨hasher, hcreate, hhash⟩ := exists_hashesFields hmask hblock
    exact neverSkips_of_hashesFields hcreate hhash

/-- The first and the third field of a record. -/
theorem neverSkips_firstAndThird : IsMask [4, 2, 8] 5 ∧ NeverSkips [4, 2, 8] 5 := by
  have hmask : IsMask [4, 2, 8] 5 := ⟨by decide, by decide⟩
  refine ⟨hmask, (neverSkips_iff _ _ hmask).2 ?_⟩
  rintro ⟨k, hk2, hpow, -⟩
  have h1 : (5 : UInt64).toNat.testBit 1 = true := by
    rw [hpow, Nat.testBit_two_pow_sub_one, decide_eq_true (by omega)]
  exact absurd h1 (by decide)

/-- The first two fields of a record, of four bytes each: only four bytes of each row are hashed. -/
theorem firstTwo_skips : IsMask [4, 4] 3 ∧ LeadingBlock [4, 4] 3 ∧ ¬ NeverSkips [4, 4] 3 := by
  have hmask : IsMask [4, 4] 3 := ⟨by decide, by decide⟩
  have hblock : LeadingBlock [4, 4] 3 := ⟨2, by decide, by decide, Or.inr (by decide)⟩
  exact ⟨hmask, hblock, not_neverSkips_of_leadingBlock hmask hblock⟩

end Safe

end Bloom

end HpccPlatform
