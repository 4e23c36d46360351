import HpccPlatform.KeyFilter.FieldBounds

/-!
# The bounds of a value set as numbers

The values of a byte-ordered type of `k` bytes are the numbers below `256 ^ k`.  Those that a bound
compares equal to are an interval, from `lo` up to `hi`, and the bound is one of its two ends (`cut`):
a lower bound admits the numbers from its cut on, and an upper bound those below.

`setLow` writes the cut of a lower bound, and `setHigh` the number before the cut of an upper bound,
unless the carry leaves the field.
-/

namespace HpccPlatform

open Bytes

/-- A byte-ordered type whose leading bytes are compared in the same order.  Its bounds are written
by `RtlTypeInfoBase::setBound`. -/
structure PrefixOrdered (size : ℕ) extends ByteOrdered size where
  range_neg_iff : ∀ s < size, ∀ a b,
    compareRange s a s b < 0 ↔ number (a.bytes.take s) < number (b.bytes.take s)
  range_pos_iff : ∀ s < size, ∀ a b,
    0 < compareRange s a s b ↔ number (b.bytes.take s) < number (a.bytes.take s)

namespace BoundRanks

variable {k : ℕ}

/-- The number of bytes that a bound compares. -/
def stemLength (t : ValueTransition (FixedBytes k)) : ℕ :=
  if t.matchSubString then t.subLength else k

def stem (t : ValueTransition (FixedBytes k)) (v : FixedBytes k) : ℕ :=
  number (v.bytes.take (stemLength t))

/-- The number of values with the same leading bytes. -/
def block (t : ValueTransition (FixedBytes k)) : ℕ := 256 ^ (k - stemLength t)

/-- The least value that the bound compares equal to. -/
def lo (t : ValueTransition (FixedBytes k)) : ℕ :=
  match t.value with
  | none => if t.isMinimum then 0 else 256 ^ k
  | some v => stem t v * block t

/-- The end of the values that the bound compares equal to. -/
def hi (t : ValueTransition (FixedBytes k)) : ℕ :=
  match t.value with
  | none => if t.isMinimum then 0 else 256 ^ k
  | some v => (stem t v + 1) * block t

def cut (t : ValueTransition (FixedBytes k)) : ℕ :=
  if t.isLowerBound = t.isInclusiveBound then lo t else hi t

/-- A minimum, a maximum, or a value with or without a sub-length. -/
structure IsBound (t : ValueTransition (FixedBytes k)) : Prop where
  subLength_le : t.subLength ≤ MatchFullString
  subLength_lt : t.matchSubString = true → t.subLength < k
  mask : t.mask ∈ if t.value = none then [CMPminmask, CMPmaxmask] else [CMPlt, CMPle, CMPgt, CMPge]

section Bounds

variable {type : PrefixOrdered k} {t : ValueTransition (FixedBytes k)} {v x : FixedBytes k}

theorem block_pos (t : ValueTransition (FixedBytes k)) : 0 < block t := Nat.pow_pos (by decide)

theorem IsBound.stemLength_le (h : IsBound t) : stemLength t ≤ k := by
  unfold stemLength
  split
  · rename_i hsub
    exact (h.subLength_lt hsub).le
  · exact le_rfl

/-- The leading bytes and the bytes behind them. -/
theorem rank_split (s : ℕ) (v : FixedBytes k) :
    v.rank = number (v.bytes.take s) * 256 ^ (k - s) + number (v.bytes.drop s) ∧
      number (v.bytes.drop s) < 256 ^ (k - s) := by
  have hlen : (v.bytes.drop s).length = k - s := by rw [List.length_drop, v.length_bytes]
  constructor
  · rw [← hlen, ← number_append, List.take_append_drop]
    rfl
  · rw [← hlen]
    exact number_lt _

theorem rank_div (t : ValueTransition (FixedBytes k)) (v : FixedBytes k) : v.rank / block t = stem t v := by
  obtain ⟨hrank, hlt⟩ := rank_split (stemLength t) v
  have hpos := block_pos t
  unfold block at hpos ⊢
  rw [hrank, Nat.mul_comm, Nat.mul_add_div hpos, Nat.div_eq_of_lt hlt, Nat.add_zero]
  rfl

/-- A bound is either a lower or an upper bound. -/
theorem IsBound.isUpperBound_eq (h : IsBound t) : t.isUpperBound = !t.isLowerBound := by
  have hmask := h.mask
  unfold ValueTransition.isUpperBound ValueTransition.isLowerBound
  split at hmask
  · simp only [List.mem_cons, List.not_mem_nil, or_false] at hmask
    rcases hmask with hm | hm <;> rw [hm] <;> rfl
  · simp only [List.mem_cons, List.not_mem_nil, or_false] at hmask
    rcases hmask with hm | hm | hm | hm <;> rw [hm] <;> rfl

/-- A bound without a value is the minimum or the maximum. -/
theorem IsBound.of_none (h : IsBound t) (hv : t.value = none) :
    t.isInclusiveBound = false ∧ t.isMinimum = t.isLowerBound := by
  have hmask := h.mask
  rw [if_pos hv] at hmask
  unfold ValueTransition.isInclusiveBound ValueTransition.isMinimum ValueTransition.isLowerBound
  simp only [List.mem_cons, List.not_mem_nil, or_false] at hmask
  rcases hmask with hm | hm <;> rw [hm] <;> exact ⟨rfl, rfl⟩

theorem lo_le_hi (t : ValueTransition (FixedBytes k)) : lo t ≤ hi t := by
  unfold lo hi
  cases t.value with
  | none => exact le_rfl
  | some v => exact Nat.mul_le_mul_right _ (Nat.le_succ _)

theorem lo_le_cut (t : ValueTransition (FixedBytes k)) : lo t ≤ cut t := by
  unfold cut
  split
  · exact le_rfl
  · exact lo_le_hi t

theorem cut_le_hi (t : ValueTransition (FixedBytes k)) : cut t ≤ hi t := by
  unfold cut
  split
  · exact lo_le_hi t
  · exact le_rfl

theorem IsBound.hi_le (h : IsBound t) : hi t ≤ 256 ^ k := by
  unfold hi
  cases hv : t.value with
  | none =>
    dsimp only
    split
    · exact Nat.zero_le _
    · exact le_rfl
  | some v =>
    have hlen : (v.bytes.take (stemLength t)).length = stemLength t := by
      rw [List.length_take, v.length_bytes, Nat.min_eq_left h.stemLength_le]
    have hlt : stem t v < 256 ^ stemLength t := by
      have hnumber := number_lt (v.bytes.take (stemLength t))
      rwa [hlen] at hnumber
    dsimp only
    calc (stem t v + 1) * block t ≤ 256 ^ stemLength t * block t :=
          Nat.mul_le_mul_right _ hlt
      _ = 256 ^ k := by rw [block, ← Nat.pow_add, Nat.add_sub_cancel' h.stemLength_le]

/-! ### Comparing a value with a bound -/

/-- The comparison with the value of a bound is that of the leading bytes. -/
theorem IsBound.compareRawField_some (h : IsBound t) (hv : t.value = some v) (x : FixedBytes k) :
    (t.compareRawField type.toRtlTypeInfo x < 0 ↔ stem t x < stem t v) ∧
      (0 < t.compareRawField type.toRtlTypeInfo x ↔ stem t v < stem t x) := by
  unfold ValueTransition.compareRawField stem stemLength
  rw [hv]
  by_cases hsub : t.matchSubString = true
  · have hlt := h.subLength_lt hsub
    dsimp only
    rw [if_pos hsub, if_pos hsub]
    exact ⟨type.range_neg_iff _ hlt x v, type.range_pos_iff _ hlt x v⟩
  · dsimp only
    rw [if_neg hsub, if_neg hsub, List.take_of_length_le x.length_bytes.le,
      List.take_of_length_le v.length_bytes.le]
    exact ⟨type.neg_iff x v, type.pos_iff x v⟩

theorem IsBound.compareRawField_neg_iff (h : IsBound t) (x : FixedBytes k) :
    t.compareRawField type.toRtlTypeInfo x < 0 ↔ x.rank < lo t := by
  cases hv : t.value with
  | none =>
    unfold ValueTransition.compareRawField lo
    rw [hv]
    dsimp only
    split
    · exact iff_of_false (by decide) (Nat.not_lt_zero _)
    · exact iff_of_true (by decide) x.rank_lt
  | some v =>
    rw [(h.compareRawField_some hv x).1, ← rank_div t x, Nat.div_lt_iff_lt_mul (block_pos t), lo, hv]

theorem IsBound.compareRawField_pos_iff (h : IsBound t) (x : FixedBytes k) :
    0 < t.compareRawField type.toRtlTypeInfo x ↔ hi t ≤ x.rank := by
  cases hv : t.value with
  | none =>
    unfold ValueTransition.compareRawField hi
    rw [hv]
    dsimp only
    split
    · exact iff_of_true (by decide) (Nat.zero_le _)
    · exact iff_of_false (by decide) (Nat.not_le.mpr x.rank_lt)
  | some v =>
    rw [(h.compareRawField_some hv x).2, ← rank_div t x, ← Nat.succ_le_iff,
      Nat.le_div_iff_mul_le (block_pos t), hi, hv]

theorem IsBound.compareRawField_zero_iff (h : IsBound t) (x : FixedBytes k) :
    t.compareRawField type.toRtlTypeInfo x = 0 ↔ lo t ≤ x.rank ∧ x.rank < hi t := by
  have hneg := @IsBound.compareRawField_neg_iff k type t h x
  have hpos := @IsBound.compareRawField_pos_iff k type t h x
  rw [← not_lt, ← not_le (a := hi t), ← hneg, ← hpos, not_lt, not_lt, and_comm]
  exact le_antisymm_iff

theorem cut_eq_lo (h : t.isLowerBound = t.isInclusiveBound) : cut t = lo t := if_pos h

theorem cut_eq_hi (h : t.isLowerBound ≠ t.isInclusiveBound) : cut t = hi t := if_neg h

/-- Only the values of an exclusive bound compare in another way. -/
theorem compareField_of_inclusive (type : RtlTypeInfo (FixedBytes k))
    (h : t.isInclusiveBound = true) (x : FixedBytes k) :
    t.compareField type x = t.compareRawField type x := by
  unfold ValueTransition.compareField
  rw [if_pos h]
  dsimp only
  split
  · rename_i hzero
    exact hzero.symm
  · rfl

/-- A lower bound admits the values from its cut on. -/
theorem IsBound.compareField_neg_iff (h : IsBound t) (hl : t.isLowerBound = true)
    (x : FixedBytes k) : t.compareField type.toRtlTypeInfo x < 0 ↔ x.rank < cut t := by
  by_cases hincl : t.isInclusiveBound = true
  · rw [compareField_of_inclusive _ hincl, cut_eq_lo (hl.trans hincl.symm)]
    exact h.compareRawField_neg_iff x
  · have hpos := @IsBound.compareRawField_pos_iff k type t h x
    rw [cut_eq_hi (fun he => hincl (he.symm.trans hl)), ← not_le (a := hi t), ← hpos, not_lt]
    unfold ValueTransition.compareField
    rw [if_neg hincl, if_pos hl]
    dsimp only
    split
    · rename_i hzero
      rw [hzero]
      exact iff_of_true (by decide) le_rfl
    · rename_i hne
      exact ⟨le_of_lt, fun hle => lt_of_le_of_ne hle hne⟩

/-- An upper bound admits the values below its cut. -/
theorem IsBound.compareField_pos_iff (h : IsBound t) (hl : t.isLowerBound = false)
    (x : FixedBytes k) : 0 < t.compareField type.toRtlTypeInfo x ↔ cut t ≤ x.rank := by
  have hupper : t.isUpperBound = true := by rw [h.isUpperBound_eq, hl]; rfl
  have hlower : ¬t.isLowerBound = true := by rw [hl]; exact Bool.false_ne_true
  by_cases hincl : t.isInclusiveBound = true
  · rw [compareField_of_inclusive _ hincl, cut_eq_hi (fun he => hlower (he.trans hincl))]
    exact h.compareRawField_pos_iff x
  · have hneg := @IsBound.compareRawField_neg_iff k type t h x
    rw [cut_eq_lo (hl.trans (Bool.eq_false_iff.mpr hincl).symm), ← not_lt, ← hneg, not_lt]
    unfold ValueTransition.compareField
    rw [if_neg hincl, if_neg hlower, if_pos hupper]
    dsimp only
    split
    · rename_i hzero
      rw [hzero]
      exact iff_of_true (by decide) le_rfl
    · rename_i hne
      exact ⟨le_of_lt, fun hle => lt_of_le_of_ne hle (Ne.symm hne)⟩

/-- Only the values of an inclusive bound compare equal to it. -/
theorem IsBound.of_compareField_zero (h : IsBound t) (hl : t.isLowerBound = true)
    (hzero : t.compareField type.toRtlTypeInfo x = 0) :
    t.isInclusiveBound = true ∧ lo t ≤ x.rank ∧ x.rank < hi t := by
  by_cases hincl : t.isInclusiveBound = true
  · rw [compareField_of_inclusive _ hincl] at hzero
    exact ⟨hincl, (h.compareRawField_zero_iff x).mp hzero⟩
  · unfold ValueTransition.compareField at hzero
    rw [if_neg hincl, if_pos hl] at hzero
    dsimp only at hzero
    split at hzero
    · exact absurd hzero (by decide)
    · rename_i hraw
      exact absurd hzero hraw

/-! ### The value that a bound writes -/

theorem rank_read_zero {bytes : List UInt8} (h : bytes.length = k) :
    (FixedBytes.read bytes 0 k).rank = number bytes := by
  have hslice : slice bytes 0 k = bytes := by
    rw [slice_eq (by rw [Nat.zero_add, h]), List.drop_zero, List.take_of_length_le h.le]
  exact congrArg number hslice

/-- The bytes that `setBound` copies. -/
theorem IsBound.setBound_some (h : IsBound t) (hv : t.value = some v) (fill : UInt8)
    (inclusive : Bool) : ∃ copied : List UInt8,
    (copied = if inclusive then v.bytes.take (stemLength t)
      else if fill = 0 then (incrementBuffer (v.bytes.take (stemLength t))).2
        else (decrementBuffer (v.bytes.take (stemLength t))).2) ∧
    (setBound t.value t.subLength fill inclusive).rank =
      number copied * block t + number (List.replicate (k - stemLength t) fill) := by
  have hcopy : (if t.subLength ≠ MatchFullString then min k t.subLength else k) = stemLength t := by
    unfold stemLength ValueTransition.matchSubString
    by_cases hfull : t.subLength = MatchFullString
    · rw [if_neg (not_not.mpr hfull), hfull, bne_self_eq_false, if_neg Bool.false_ne_true]
    · have hsub : (t.subLength != MatchFullString) = true := bne_iff_ne.mpr hfull
      rw [if_pos hfull, if_pos hsub, Nat.min_eq_right (h.subLength_lt hsub).le]
  have hlen : (v.bytes.take (stemLength t)).length = stemLength t := by
    rw [List.length_take, v.length_bytes, Nat.min_eq_left h.stemLength_le]
  refine ⟨_, rfl, ?_⟩
  unfold setBound
  rw [hv]
  dsimp only
  rw [hcopy]
  have hcopied : ∀ copied : List UInt8, copied.length = stemLength t →
      (FixedBytes.read (copied ++ List.replicate (k - stemLength t) fill) 0 k).rank =
        number copied * block t + number (List.replicate (k - stemLength t) fill) := by
    intro copied hc
    rw [rank_read_zero, number_append, List.length_replicate, block]
    rw [List.length_append, hc, List.length_replicate, Nat.add_sub_cancel' h.stemLength_le]
  refine hcopied _ ?_
  split
  · exact hlen
  · split
    · rw [length_incrementBuffer, hlen]
    · rw [length_decrementBuffer, hlen]

/-- `setLow` writes the first value of the range. -/
theorem IsBound.rank_setLow (h : IsBound t) (hl : t.isLowerBound = true) (hcut : cut t < 256 ^ k) :
    t.setLow.rank = cut t := by
  cases hv : t.value with
  | none =>
    have hmin := (h.of_none hv).2.trans hl
    have hcut : cut t = 0 := by
      unfold cut lo hi
      rw [hv]
      dsimp only
      rw [if_pos hmin, ite_self]
    rw [hcut, ValueTransition.setLow, hv]
    exact number_replicate_zero k
  | some v =>
    obtain ⟨copied, hcopied, hrank⟩ := h.setBound_some hv 0 t.isInclusiveBound
    unfold ValueTransition.setLow
    rw [hrank, number_replicate_zero, Nat.add_zero]
    by_cases hincl : t.isInclusiveBound = true
    · rw [if_pos hincl] at hcopied
      rw [cut_eq_lo (hl.trans hincl.symm), hcopied, lo, hv]
      rfl
    · rw [if_neg hincl, if_pos rfl] at hcopied
      rw [cut_eq_hi (fun he => hincl (he.symm.trans hl)), hi, hv] at hcut ⊢
      have hlen : (v.bytes.take (stemLength t)).length = stemLength t := by
        rw [List.length_take, v.length_bytes, Nat.min_eq_left h.stemLength_le]
      have hnext := incrementBuffer_spec (v.bytes.take (stemLength t))
      have hlt : stem t v + 1 < 256 ^ stemLength t := by
        refine Nat.lt_of_mul_lt_mul_right (a := block t) ?_
        calc (stem t v + 1) * block t < 256 ^ k := hcut
          _ = 256 ^ stemLength t * block t := by
            rw [block, ← Nat.pow_add, Nat.add_sub_cancel' h.stemLength_le]
      rw [hcopied]
      split at hnext
      · rw [hnext]
        rfl
      · rw [hlen] at hnext
        exact absurd hnext.1 hlt.ne

/-- `setHigh` writes the last value of the range. -/
theorem IsBound.rank_setHigh (h : IsBound t) (hl : t.isLowerBound = false) (hcut : 0 < cut t) :
    t.setHigh.rank + 1 = cut t := by
  cases hv : t.value with
  | none =>
    have hmin : ¬t.isMinimum = true := by
      rw [(h.of_none hv).2, hl]
      exact Bool.false_ne_true
    have hcut : cut t = 256 ^ k := by
      unfold cut lo hi
      rw [hv]
      dsimp only
      rw [if_neg hmin, ite_self]
    rw [hcut, ValueTransition.setHigh, hv]
    exact number_replicate_ff k
  | some v =>
    obtain ⟨copied, hcopied, hrank⟩ := h.setBound_some hv 0xff t.isInclusiveBound
    have hfill := number_replicate_ff (k - stemLength t)
    have hnumber : t.setHigh.rank + 1 = (number copied + 1) * block t := by
      unfold ValueTransition.setHigh
      rw [hrank, Nat.add_mul, Nat.one_mul, block, ← hfill, Nat.add_assoc]
    rw [hnumber]
    by_cases hincl : t.isInclusiveBound = true
    · rw [if_pos hincl] at hcopied
      rw [cut_eq_hi (by rw [hl, hincl]; exact Bool.false_ne_true), hcopied, hi, hv]
      rfl
    · rw [if_neg hincl, if_neg (by decide)] at hcopied
      rw [cut_eq_lo (hl.trans (Bool.eq_false_iff.mpr hincl).symm), lo, hv] at hcut ⊢
      have hprev := decrementBuffer_spec (v.bytes.take (stemLength t))
      have hpos : 0 < stem t v := Nat.pos_of_mul_pos_right hcut
      rw [hcopied]
      split at hprev
      · rw [hprev]
        rfl
      · exact absurd hprev.1 hpos.ne'

end Bounds

/-! ## The bounds of a set -/

section Order

variable {type : PrefixOrdered k} {t u : ValueTransition (FixedBytes k)} {v w : FixedBytes k}

/-- A bound stands before another one.  Two bounds of one value stand before and behind it. -/
def Before (type : RtlTypeInfo (FixedBytes k)) (t u : ValueTransition (FixedBytes k)) : Prop :=
  t.compareRaw type u < 0 ∨
    (t.compareRaw type u = 0 ∧ t.isLowerBound = t.isInclusiveBound ∧
      u.isLowerBound ≠ u.isInclusiveBound)

/-- Fewer leading bytes give a wider block. -/
theorem block_mono {m s : ℕ} (hm : m ≤ s) (hs : s ≤ k) (v : FixedBytes k) :
    number (v.bytes.take m) * 256 ^ (k - m) ≤ number (v.bytes.take s) * 256 ^ (k - s) ∧
      (number (v.bytes.take s) + 1) * 256 ^ (k - s) ≤
        (number (v.bytes.take m) + 1) * 256 ^ (k - m) := by
  have hlen : ((v.bytes.take s).drop m).length = s - m := by
    rw [List.length_drop, List.length_take, v.length_bytes, Nat.min_eq_left hs]
  have hnumber : number (v.bytes.take s) =
      number (v.bytes.take m) * 256 ^ (s - m) + number ((v.bytes.take s).drop m) := by
    have happend := number_append ((v.bytes.take s).take m) ((v.bytes.take s).drop m)
    rw [List.take_append_drop, List.take_take, Nat.min_eq_left hm, hlen] at happend
    exact happend
  have hlt := number_lt ((v.bytes.take s).drop m)
  rw [hlen] at hlt
  have hpow : 256 ^ (k - m) = 256 ^ (s - m) * 256 ^ (k - s) := by
    rw [← Nat.pow_add]
    congr 1
    omega
  rw [hpow, ← Nat.mul_assoc, ← Nat.mul_assoc, hnumber]
  constructor
  · exact Nat.mul_le_mul_right _ (Nat.le_add_right _ _)
  · refine Nat.mul_le_mul_right _ ?_
    rw [Nat.add_mul, Nat.one_mul]
    exact Nat.add_le_add_left hlt _

/-- The leading bytes that two bounds with values both have. -/
def commonLength (t u : ValueTransition (FixedBytes k)) : ℕ := min (stemLength t) (stemLength u)

theorem stemLength_sub (h : t.matchSubString = true) : stemLength t = t.subLength := if_pos h

theorem stemLength_full (h : ¬t.matchSubString = true) :
    stemLength t = k ∧ t.subLength = MatchFullString :=
  ⟨if_neg h, not_not.mp (mt bne_iff_ne.mpr h)⟩

theorem IsBound.subLength_lt_iff (ht : IsBound t) (hu : IsBound u) :
    t.subLength < u.subLength ↔ stemLength t < stemLength u := by
  by_cases hts : t.matchSubString = true
  · rw [stemLength_sub hts]
    by_cases hus : u.matchSubString = true
    · rw [stemLength_sub hus]
    · rw [(stemLength_full hus).1, (stemLength_full hus).2]
      exact iff_of_true (lt_of_le_of_ne ht.subLength_le (bne_iff_ne.mp hts)) (ht.subLength_lt hts)
  · rw [(stemLength_full hts).1, (stemLength_full hts).2]
    exact iff_of_false (Nat.not_lt.mpr hu.subLength_le) (Nat.not_lt.mpr hu.stemLength_le)

theorem IsBound.subLength_eq_iff (ht : IsBound t) (hu : IsBound u) :
    t.subLength = u.subLength ↔ stemLength t = stemLength u := by
  rw [le_antisymm_iff, le_antisymm_iff, ← Nat.not_lt, ← Nat.not_lt, ← Nat.not_lt, ← Nat.not_lt,
    ht.subLength_lt_iff hu, hu.subLength_lt_iff ht]

/-- When one of two bounds has a sub-length, fewer bytes than the value has are compared. -/
theorem IsBound.min_subLength (ht : IsBound t) (hu : IsBound u)
    (hsub : (t.matchSubString || u.matchSubString) = true) :
    min t.subLength u.subLength = commonLength t u ∧ commonLength t u < k := by
  unfold commonLength
  rcases Bool.or_eq_true_iff.mp hsub with hts | hus
  · have hlt := ht.subLength_lt hts
    rw [stemLength_sub hts]
    by_cases hus : u.matchSubString = true
    · rw [stemLength_sub hus]
      exact ⟨rfl, (Nat.min_le_left _ _).trans_lt hlt⟩
    · rw [(stemLength_full hus).1, (stemLength_full hus).2, Nat.min_eq_left ht.subLength_le,
        Nat.min_eq_left hlt.le]
      exact ⟨rfl, hlt⟩
  · have hlt := hu.subLength_lt hus
    rw [stemLength_sub hus]
    by_cases hts : t.matchSubString = true
    · rw [stemLength_sub hts]
      exact ⟨rfl, (Nat.min_le_right _ _).trans_lt hlt⟩
    · rw [(stemLength_full hts).1, (stemLength_full hts).2, Nat.min_eq_right hu.subLength_le,
        Nat.min_eq_right hlt.le]
      exact ⟨rfl, hlt⟩

/-- What the comparison of two bounds with values tells. -/
theorem IsBound.compareRaw_some (ht : IsBound t) (hu : IsBound u) (hv : t.value = some v)
    (hw : u.value = some w) :
    (t.compareRaw type.toRtlTypeInfo u < 0 →
      number (v.bytes.take (commonLength t u)) < number (w.bytes.take (commonLength t u)) ∨
      (number (v.bytes.take (commonLength t u)) = number (w.bytes.take (commonLength t u)) ∧
        ((stemLength t < stemLength u ∧ t.isLowerBound = true) ∨
          (stemLength u < stemLength t ∧ u.isLowerBound = false)))) ∧
    (t.compareRaw type.toRtlTypeInfo u = 0 →
      number (v.bytes.take (commonLength t u)) = number (w.bytes.take (commonLength t u)) ∧
        stemLength t = stemLength u) := by
  unfold ValueTransition.compareRaw
  rw [hv, hw]
  dsimp only
  by_cases hsub : (t.matchSubString || u.matchSubString) = true
  · obtain ⟨hmin, hlt⟩ := ht.min_subLength hu hsub
    rw [if_pos hsub, hmin]
    have hneg := type.range_neg_iff _ hlt v w
    have hpos := type.range_pos_iff _ hlt v w
    generalize type.compareRange (commonLength t u) v (commonLength t u) w = c at hneg hpos ⊢
    by_cases hzero : c = 0
    · have heq : number (v.bytes.take (commonLength t u)) =
          number (w.bytes.take (commonLength t u)) :=
        le_antisymm (Nat.not_lt.mp (fun hc => (hpos.mpr hc).ne' hzero))
          (Nat.not_lt.mp (fun hc => (hneg.mpr hc).ne hzero))
      by_cases hlen : t.subLength = u.subLength
      · rw [if_neg (fun hc => hc.2 hlen)]
        exact ⟨fun hc => Or.inl (hneg.mp hc), fun _ => ⟨heq, (ht.subLength_eq_iff hu).mp hlen⟩⟩
      · rw [if_pos ⟨hzero, hlen⟩]
        by_cases hshort : t.subLength < u.subLength
        · rw [if_pos hshort]
          by_cases hl : t.isLowerBound = true
          · rw [if_pos hl]
            exact ⟨fun _ => Or.inr ⟨heq, Or.inl ⟨(ht.subLength_lt_iff hu).mp hshort, hl⟩⟩,
              fun hc => absurd hc (by decide)⟩
          · rw [if_neg hl]
            exact ⟨fun hc => absurd hc (by decide), fun hc => absurd hc (by decide)⟩
        · have hlong := lt_of_le_of_ne (Nat.not_lt.mp hshort) (Ne.symm hlen)
          rw [if_neg hshort]
          by_cases hl : u.isLowerBound = true
          · rw [if_pos hl]
            exact ⟨fun hc => absurd hc (by decide), fun hc => absurd hc (by decide)⟩
          · rw [if_neg hl]
            exact ⟨fun _ => Or.inr ⟨heq, Or.inr ⟨(hu.subLength_lt_iff ht).mp hlong,
              Bool.eq_false_iff.mpr hl⟩⟩, fun hc => absurd hc (by decide)⟩
    · rw [if_neg (fun hc => hzero hc.1)]
      exact ⟨fun hc => Or.inl (hneg.mp hc), fun hc => absurd hc hzero⟩
  · rw [if_neg hsub]
    rw [Bool.or_eq_true_iff, not_or] at hsub
    have hts := (stemLength_full hsub.1).1
    have hus := (stemLength_full hsub.2).1
    have hneg := type.neg_iff v w
    have hpos := type.pos_iff v w
    rw [commonLength, hts, hus, Nat.min_self, List.take_of_length_le v.length_bytes.le,
      List.take_of_length_le w.length_bytes.le]
    refine ⟨fun hc => Or.inl (hneg.mp hc), fun hc => ⟨?_, rfl⟩⟩
    exact le_antisymm (Nat.not_lt.mp (fun hlt => (hpos.mpr hlt).ne' hc))
      (Nat.not_lt.mp (fun hlt => (hneg.mpr hlt).ne hc))

theorem IsBound.isMinimum_iff (h : IsBound t) :
    t.isMinimum = true ↔ t.value = none ∧ t.isLowerBound = true := by
  have hmask := h.mask
  unfold ValueTransition.isMinimum ValueTransition.isLowerBound
  split at hmask
  · rename_i hnone
    simp only [List.mem_cons, List.not_mem_nil, or_false] at hmask
    rcases hmask with hm | hm <;> rw [hm]
    · exact iff_of_true rfl ⟨hnone, rfl⟩
    · exact iff_of_false Bool.false_ne_true (fun hc => Bool.false_ne_true hc.2)
  · rename_i hsome
    simp only [List.mem_cons, List.not_mem_nil, or_false] at hmask
    rcases hmask with hm | hm | hm | hm <;> rw [hm] <;>
      exact iff_of_false Bool.false_ne_true (fun hc => hsome hc.1)

theorem IsBound.isMaximum_iff (h : IsBound t) :
    t.isMaximum = true ↔ t.value = none ∧ t.isLowerBound = false := by
  have hmask := h.mask
  unfold ValueTransition.isMaximum ValueTransition.isLowerBound
  split at hmask
  · rename_i hnone
    simp only [List.mem_cons, List.not_mem_nil, or_false] at hmask
    rcases hmask with hm | hm <;> rw [hm]
    · exact iff_of_false Bool.false_ne_true (fun hc => Bool.false_ne_true hc.2.symm)
    · exact iff_of_true rfl ⟨hnone, rfl⟩
  · rename_i hsome
    simp only [List.mem_cons, List.not_mem_nil, or_false] at hmask
    rcases hmask with hm | hm | hm | hm <;> rw [hm] <;>
      exact iff_of_false Bool.false_ne_true (fun hc => hsome hc.1)

/-- No bound stands behind the maximum. -/
theorem IsBound.not_before_of_none_left (ht : IsBound t) (hu : IsBound u) (hv : t.value = none)
    (htl : t.isLowerBound = false) : ¬Before type.toRtlTypeInfo t u := by
  have hmin : ¬t.isMinimum = true := fun hc =>
    Bool.false_ne_true (htl.symm.trans (ht.isMinimum_iff.mp hc).2)
  have hmax : t.isMaximum = true := ht.isMaximum_iff.mpr ⟨hv, htl⟩
  have hraw : t.compareRaw type.toRtlTypeInfo u = if u.isMaximum then 0 else 1 := by
    unfold ValueTransition.compareRaw
    rw [hv, if_neg hmin, if_pos hmax]
  unfold Before
  rw [hraw]
  by_cases humax : u.isMaximum = true
  · obtain ⟨hnone, hul⟩ := hu.isMaximum_iff.mp humax
    rw [if_pos humax, (hu.of_none hnone).1, hul]
    exact fun hc => hc.elim (fun hneg => absurd hneg (by decide))
      (fun hzero => hzero.2.2 rfl)
  · rw [if_neg humax]
    exact fun hc => hc.elim (fun hneg => absurd hneg (by decide))
      (fun hzero => absurd hzero.1 (by decide))

/-- No bound stands before the minimum. -/
theorem IsBound.not_before_of_none_right (ht : IsBound t) (hu : IsBound u) (hw : u.value = none)
    (hul : u.isLowerBound = true) : ¬Before type.toRtlTypeInfo t u := by
  have hmin : u.isMinimum = true := hu.isMinimum_iff.mpr ⟨hw, hul⟩
  have humax : ¬u.isMaximum = true := fun hc =>
    Bool.false_ne_true ((hu.isMaximum_iff.mp hc).2.symm.trans hul)
  have hraw : t.compareRaw type.toRtlTypeInfo u = if t.isMinimum then 0 else 1 := by
    unfold ValueTransition.compareRaw
    rw [hw, if_pos hmin, if_neg humax, if_pos hmin, ite_self]
    cases t.value with
    | none => rfl
    | some v => rfl
  unfold Before
  rw [hraw]
  by_cases htmin : t.isMinimum = true
  · obtain ⟨hnone, htl⟩ := ht.isMinimum_iff.mp htmin
    rw [if_pos htmin, (ht.of_none hnone).1, htl]
    exact fun hc => hc.elim (fun hneg => absurd hneg (by decide))
      (fun hzero => absurd hzero.2.1 (by decide))
  · rw [if_neg htmin]
    exact fun hc => hc.elim (fun hneg => absurd hneg (by decide))
      (fun hzero => absurd hzero.1 (by decide))

/-- The values of an upper bound end before a lower bound behind it, and those of the lower bound
begin behind the upper bound. -/
theorem IsBound.hi_le_cut (ht : IsBound t) (hu : IsBound u) (htl : t.isLowerBound = false)
    (hul : u.isLowerBound = true) (h : Before type.toRtlTypeInfo t u) :
    hi t ≤ cut u ∧ cut t ≤ lo u := by
  cases hv : t.value with
  | none => exact absurd h (ht.not_before_of_none_left hu hv htl)
  | some v =>
    cases hw : u.value with
    | none => exact absurd h (ht.not_before_of_none_right hu hw hul)
    | some w =>
      have hspec := @IsBound.compareRaw_some k type t u v w ht hu hv hw
      have hbt := block_mono (Nat.min_le_left (stemLength t) (stemLength u)) ht.stemLength_le v
      have hbu := block_mono (Nat.min_le_right (stemLength t) (stemLength u)) hu.stemLength_le w
      have hlo : lo u = stem u w * block u := by unfold lo; rw [hw]
      have hhi : hi t = (stem t v + 1) * block t := by unfold hi; rw [hv]
      rcases h with hneg | ⟨hzero, hti, hui⟩
      · rcases hspec.1 hneg with hlt | ⟨-, ⟨-, hc⟩ | ⟨-, hc⟩⟩
        · have hle : hi t ≤ lo u := by
            rw [hhi, hlo]
            calc (stem t v + 1) * block t
                ≤ (number (v.bytes.take (commonLength t u)) + 1) * 256 ^ (k - commonLength t u) :=
                  hbt.2
              _ ≤ number (w.bytes.take (commonLength t u)) * 256 ^ (k - commonLength t u) :=
                  Nat.mul_le_mul_right _ hlt
              _ ≤ stem u w * block u := hbu.1
          exact ⟨hle.trans (lo_le_cut u), (cut_le_hi t).trans hle⟩
        · exact absurd (htl.symm.trans hc) Bool.false_ne_true
        · exact absurd (hc.symm.trans hul) Bool.false_ne_true
      · obtain ⟨heq, hlen⟩ := hspec.2 hzero
        have hstem : stem t v = stem u w := by
          rw [commonLength, ← hlen, Nat.min_self] at heq
          rw [stem, stem, ← hlen]
          exact heq
        have hblock : block t = block u := by rw [block, block, hlen]
        rw [cut_eq_hi hui, cut_eq_lo hti, hhi, hlo, hstem, hblock]
        unfold hi lo
        rw [hw, hv]
        dsimp only
        rw [hstem, hblock]
        exact ⟨le_rfl, le_rfl⟩

/-- The values of a lower bound begin before those of a lower bound behind it. -/
theorem IsBound.lo_le_lo (ht : IsBound t) (hu : IsBound u) (htl : t.isLowerBound = true)
    (hul : u.isLowerBound = true) (h : Before type.toRtlTypeInfo t u) : lo t ≤ lo u := by
  cases hw : u.value with
  | none => exact absurd h (ht.not_before_of_none_right hu hw hul)
  | some w =>
    cases hv : t.value with
    | none =>
      have hmin : t.isMinimum = true := ht.isMinimum_iff.mpr ⟨hv, htl⟩
      have hlo : lo t = 0 := by
        unfold lo
        rw [hv]
        exact if_pos hmin
      rw [hlo]
      exact Nat.zero_le _
    | some v =>
      have hspec := @IsBound.compareRaw_some k type t u v w ht hu hv hw
      have hbt := block_mono (Nat.min_le_left (stemLength t) (stemLength u)) ht.stemLength_le v
      have hbu := block_mono (Nat.min_le_right (stemLength t) (stemLength u)) hu.stemLength_le w
      have hlot : lo t = stem t v * block t := by unfold lo; rw [hv]
      have hlou : lo u = stem u w * block u := by unfold lo; rw [hw]
      have hshort : stemLength t ≤ stemLength u →
          number (v.bytes.take (commonLength t u)) ≤ number (w.bytes.take (commonLength t u)) →
          lo t ≤ lo u := by
        intro hle hnumber
        rw [hlot, hlou]
        rw [commonLength, Nat.min_eq_left hle] at hnumber
        rw [Nat.min_eq_left hle] at hbu
        exact (Nat.mul_le_mul_right _ hnumber).trans hbu.1
      rcases h with hneg | ⟨hzero, -, -⟩
      · rcases hspec.1 hneg with hlt | ⟨heq, ⟨hlt, -⟩ | ⟨-, hc⟩⟩
        · rw [hlot, hlou]
          calc stem t v * block t ≤ (stem t v + 1) * block t :=
                Nat.mul_le_mul_right _ (Nat.le_succ _)
            _ ≤ (number (v.bytes.take (commonLength t u)) + 1) * 256 ^ (k - commonLength t u) :=
                hbt.2
            _ ≤ number (w.bytes.take (commonLength t u)) * 256 ^ (k - commonLength t u) :=
                Nat.mul_le_mul_right _ hlt
            _ ≤ stem u w * block u := hbu.1
        · exact hshort hlt.le heq.le
        · exact absurd (hc.symm.trans hul) Bool.false_ne_true
      · obtain ⟨heq, hlen⟩ := hspec.2 hzero
        exact hshort hlen.le heq.le

/-- The values of an upper bound end before those of an upper bound behind it. -/
theorem IsBound.hi_le_hi (ht : IsBound t) (hu : IsBound u) (htl : t.isLowerBound = false)
    (hul : u.isLowerBound = false) (h : Before type.toRtlTypeInfo t u) : hi t ≤ hi u := by
  cases hv : t.value with
  | none => exact absurd h (ht.not_before_of_none_left hu hv htl)
  | some v =>
    cases hw : u.value with
    | none =>
      have hmin : ¬u.isMinimum = true := fun hc =>
        Bool.false_ne_true (hul.symm.trans (hu.isMinimum_iff.mp hc).2)
      have hhi : hi u = 256 ^ k := by
        unfold hi
        rw [hw]
        exact if_neg hmin
      rw [hhi]
      exact ht.hi_le
    | some w =>
      have hspec := @IsBound.compareRaw_some k type t u v w ht hu hv hw
      have hbt := block_mono (Nat.min_le_left (stemLength t) (stemLength u)) ht.stemLength_le v
      have hbu := block_mono (Nat.min_le_right (stemLength t) (stemLength u)) hu.stemLength_le w
      have hhit : hi t = (stem t v + 1) * block t := by unfold hi; rw [hv]
      have hhiu : hi u = (stem u w + 1) * block u := by unfold hi; rw [hw]
      have hshort : stemLength u ≤ stemLength t →
          number (v.bytes.take (commonLength t u)) ≤ number (w.bytes.take (commonLength t u)) →
          hi t ≤ hi u := by
        intro hle hnumber
        rw [hhit, hhiu]
        rw [commonLength, Nat.min_eq_right hle] at hnumber
        rw [Nat.min_eq_right hle] at hbt
        exact hbt.2.trans (Nat.mul_le_mul_right _ (Nat.succ_le_succ hnumber))
      rcases h with hneg | ⟨hzero, -, -⟩
      · rcases hspec.1 hneg with hlt | ⟨heq, ⟨-, hc⟩ | ⟨hlt, -⟩⟩
        · rw [hhit, hhiu]
          calc (stem t v + 1) * block t
              ≤ (number (v.bytes.take (commonLength t u)) + 1) * 256 ^ (k - commonLength t u) :=
                hbt.2
            _ ≤ number (w.bytes.take (commonLength t u)) * 256 ^ (k - commonLength t u) :=
                Nat.mul_le_mul_right _ hlt
            _ ≤ stem u w * block u := hbu.1
            _ ≤ (stem u w + 1) * block u := Nat.mul_le_mul_right _ (Nat.le_succ _)
        · exact absurd (htl.symm.trans hc) Bool.false_ne_true
        · exact hshort hlt.le heq.le
      · obtain ⟨heq, hlen⟩ := hspec.2 hzero
        exact hshort hlen.ge heq.le

end Order

end BoundRanks

end HpccPlatform
