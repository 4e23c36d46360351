import HpccPlatform.Library.Bytes
import HpccPlatform.ValueSet.AddRange

/-!
# Bounds on the start of a string

A bound on a fixed-length string can have a sub-length `k`: only the first `k` characters of the
field are compared with it.  Its values are the strings that start with these characters, and the
bounds of different sub-lengths are nested in one another.

`compareRaw` places a bound below the longer bounds nested in it when it is a lower bound, and
above them when it is an upper bound.  That is where the cut of an inclusive bound is; the cut of
an exclusive bound is on the other side.  The operations are right as long as no exclusive bound has
a longer bound nested in it, and no range ends inside the values of its own inclusive lower bound.
-/

namespace HpccPlatform

open Bytes ValueTransition

/-! ## Fixed-length string types -/

/-- The value of a field of a string type of fixed length. -/
abbrev FixedString (n : ℕ) := {v : List UInt8 // v.length = n}

/-- The loop of `rtlCompareStrStr` over the characters beyond the end of the shorter string. -/
def compareBlank (blank : UInt8) : List UInt8 → ℤ
  | [] => 0
  | c :: cs => if c = blank then compareBlank blank cs else (c.toNat : ℤ) - blank.toNat

/-- `rtlCompareStrStr(l1, p1, l2, p2)`, and `rtlCompareEStrEStr` with the blank of EBCDIC: the
shorter string is compared as if it were padded with blanks. -/
def rtlCompareStrStr (blank : UInt8) (l1 : ℕ) (p1 : List UInt8) (l2 : ℕ) (p2 : List UInt8) : ℤ :=
  let len := min l1 l2
  let diff := memcmp len p1 p2
  if diff = 0 then
    if len ≠ l1 then compareBlank blank ((p1.take l1).drop len)
    else if len ≠ l2 then - compareBlank blank ((p2.take l2).drop len)
    else diff
  else diff

/-- `RtlStringTypeInfo` with a fixed length. -/
def stringType (blank : UInt8) (n : ℕ) : RtlTypeInfo (FixedString n) where
  compare left right := memcmp n left.1 right.1
  compareRange lenLeft left lenRight right :=
    rtlCompareStrStr blank (min lenLeft n) left.1 (min lenRight n) right.1
  isFixedSize := true
  getMinSize := n

variable {blank : UInt8} {n : ℕ}

lemma compareRange_stringType (k : ℕ) (v w : FixedString n) :
    (stringType blank n).compareRange k v k w = memcmp (min k n) v.1 w.1 := by
  simp only [stringType, rtlCompareStrStr, min_self, ne_eq, not_true_eq_false, if_false]
  split <;> rfl

/-- `needToApplySubString(type, value, subLength)` -/
def needToApplySubString (blank : UInt8) (value : FixedString n) (subLength : ℕ) : Bool :=
  subLength != MatchFullString &&
    (stringType blank n).compareRange subLength value MatchFullString value != 0

/-- `applySubString`: the value is truncated to the sub-length and filled up with blanks again.
Where that changes it, `>=` becomes `>` and `<` becomes `<=`. -/
def applySubString (blank : UInt8) (mask : TransitionMask) (value : FixedString n)
    (subLength : ℕ) : TransitionMask × FixedString n :=
  let stretched : FixedString n :=
    ⟨value.1.take subLength ++ List.replicate (n - subLength) blank, by
      rw [List.length_append, List.length_take, List.length_replicate, value.2]
      omega⟩
  (if (stringType blank n).compare stretched value ≠ 0 then
      if mask.lt then { mask with eq := true }
      else if mask.gt then { mask with eq := false }
      else mask
    else mask, stretched)

/-- `createRawTransitionEx(mask, value, subLength)` -/
def createRawTransitionEx (blank : UInt8) (mask : TransitionMask) (value : FixedString n)
    (subLength : ℕ) : ValueTransition (FixedString n) :=
  let subLength := clampSubLength subLength
  if needToApplySubString blank value subLength then
    let p := applySubString blank mask value subLength
    .create p.1 (stringType blank n) p.2 subLength
  else .create mask (stringType blank n) value subLength

/-! ## The values of a bound -/

/-- The number of characters that a bound compares. -/
def prefixLength (n : ℕ) (t : ValueTransition (FixedString n)) : ℕ :=
  if t.matchSubString then t.subLength else n

/-- The characters that a bound compares. -/
def stem (t : ValueTransition (FixedString n)) : List UInt8 :=
  match t.value with
  | some v => v.1.take (prefixLength n t)
  | none => []

/-- The bounds that the constructor can make for a type of length `n`. -/
structure Stored (t : ValueTransition (FixedString n)) : Prop where
  shape : (t.value ≠ none ∧ t.mask ∈ [CMPlt, CMPle, CMPgt, CMPge] ∧
    (t.subLength = MatchFullString ∨ (t.subLength < n ∧ t.subLength < MatchFullString))) ∨
      t = minimum ∨ t = maximum

lemma stored_create {mask : TransitionMask} (hmask : mask ∈ [CMPlt, CMPle, CMPgt, CMPge])
    (v : FixedString n) {k : ℕ} :
    Stored (create mask (stringType blank n) v k) := by
  have hclamp : clampSubLength k ≤ MatchFullString := by
    simp only [clampSubLength, MatchFullString]
    split <;> omega
  refine ⟨Or.inl ⟨by simp [create], hmask, ?_⟩⟩
  simp only [create, storedSubLength, stringType, true_and]
  split
  · exact Or.inl rfl
  · rename_i h
    rcases hclamp.lt_or_eq with hlt | heq
    · exact Or.inr ⟨not_le.1 fun hle => h ⟨hlt.ne, hle⟩, hlt⟩
    · exact Or.inl heq

/-- The bounds that `createRawTransitionEx` makes. -/
lemma stored_createRawTransitionEx {mask : TransitionMask}
    (hmask : mask ∈ [CMPlt, CMPle, CMPgt, CMPge]) (v : FixedString n) (k : ℕ) :
    Stored (createRawTransitionEx blank mask v k) := by
  rw [createRawTransitionEx]
  split
  · refine stored_create ?_ _
    simp only [List.mem_cons, List.not_mem_nil, or_false] at hmask
    simp only [applySubString]
    split
    · rcases hmask with rfl | rfl | rfl | rfl <;> decide
    · simpa using hmask
  · exact stored_create hmask v

section Stored

variable {t u : ValueTransition (FixedString n)} {v w : FixedString n}

lemma Stored.isUpperBound_eq (h : Stored t) : t.isUpperBound = !t.isLowerBound := by
  rcases h.shape with ⟨-, hmask, -⟩ | rfl | rfl
  · simp only [List.mem_cons, List.not_mem_nil, or_false] at hmask
    rcases hmask with h | h | h | h <;> rw [isUpperBound, isLowerBound, h] <;> rfl
  · rfl
  · rfl

/-- A bound with a value is neither the minimum nor the maximum. -/
lemma Stored.value_cases (h : Stored t) :
    (∃ v, t.value = some v ∧ t.isMinimum = false ∧ t.isMaximum = false ∧
      (t.subLength = MatchFullString ∨ (t.subLength < n ∧ t.subLength < MatchFullString))) ∨
      t = minimum ∨ t = maximum := by
  rcases h.shape with ⟨hv, hmask, hsub⟩ | h
  · obtain ⟨v, hv⟩ := Option.ne_none_iff_exists'.1 hv
    refine Or.inl ⟨v, hv, ?_⟩
    simp only [List.mem_cons, List.not_mem_nil, or_false] at hmask
    rcases hmask with h | h | h | h <;> rw [isMinimum, isMaximum, h] <;> exact ⟨rfl, rfl, hsub⟩
  · exact Or.inr h

lemma stem_eq (hv : t.value = some v) : stem t = v.1.take (prefixLength n t) := by
  rw [stem, hv]

lemma length_stem (hv : t.value = some v)
    (hsub : t.subLength = MatchFullString ∨ (t.subLength < n ∧ t.subLength < MatchFullString)) :
    (stem t).length = prefixLength n t := by
  rw [stem_eq hv, List.length_take, v.2, prefixLength]
  split
  · rename_i h
    simp only [matchSubString, bne_iff_ne, ne_eq] at h
    omega
  · simp

/-- The order of two bounds, from the characters that they compare. -/
lemma compareRaw_eq (hv : t.value = some v) (hw : u.value = some w)
    (ht : t.subLength = MatchFullString ∨ (t.subLength < n ∧ t.subLength < MatchFullString))
    (hu : u.subLength = MatchFullString ∨ (u.subLength < n ∧ u.subLength < MatchFullString)) :
    t.compareRaw (stringType blank n) u =
      if memcmp (min (stem t).length (stem u).length) (stem t) (stem u) = 0 ∧
          (stem t).length ≠ (stem u).length then
        if (stem t).length < (stem u).length then (if t.isLowerBound then -1 else 1)
        else (if u.isLowerBound then 1 else -1)
      else memcmp (min (stem t).length (stem u).length) (stem t) (stem u) := by
  have hlt := length_stem hv ht
  have hlu := length_stem hw hu
  have hcmp : memcmp (min (stem t).length (stem u).length) (stem t) (stem u) =
      memcmp (min (prefixLength n t) (prefixLength n u)) v.1 w.1 := by
    rw [hlt, hlu, stem_eq hv, stem_eq hw, memcmp_take (Nat.min_le_left _ _) (Nat.min_le_right _ _)]
  rw [hcmp, hlt, hlu]
  have hmt : t.matchSubString = true ↔ t.subLength ≠ MatchFullString := by simp [matchSubString]
  have hmu : u.matchSubString = true ↔ u.subLength ≠ MatchFullString := by simp [matchSubString]
  simp only [compareRaw, hv, hw, compareRange_stringType, Bool.or_eq_true, prefixLength, hmt, hmu]
  by_cases h₁ : t.subLength = MatchFullString <;> by_cases h₂ : u.subLength = MatchFullString
  · simp [h₁, h₂, stringType]
  · have hk : u.subLength < n ∧ u.subLength < MatchFullString := hu.resolve_left h₂
    have hmin : min (min MatchFullString u.subLength) n = min n u.subLength := by omega
    simp only [h₁, h₂, ne_eq, not_true_eq_false, not_false_eq_true, or_true, if_true, if_false, hmin,
      Ne.symm h₂, hk.1.ne', not_lt.2 hk.1.le, not_lt.2 hk.2.le]
  · have hk : t.subLength < n ∧ t.subLength < MatchFullString := ht.resolve_left h₁
    have hmin : min (min t.subLength MatchFullString) n = min t.subLength n := by omega
    simp only [h₁, h₂, ne_eq, not_true_eq_false, not_false_eq_true, true_or, if_true, if_false, hmin,
      hk.1.ne, hk.1, hk.2]
  · have hk : t.subLength < n ∧ t.subLength < MatchFullString := ht.resolve_left h₁
    have hk' : u.subLength < n ∧ u.subLength < MatchFullString := hu.resolve_left h₂
    have hmin : min (min t.subLength u.subLength) n = min t.subLength u.subLength := by omega
    simp only [h₁, h₂, ne_eq, not_false_eq_true, true_or, if_true, hmin]

/-- The longer bound `u` is nested in `t`: it starts with the characters of `t`. -/
def Nests (t u : ValueTransition (FixedString n)) : Prop :=
  t.value ≠ none ∧ u.value ≠ none ∧ (stem t).length < (stem u).length ∧ stem t <+: stem u

instance (t u : ValueTransition (FixedString n)) : Decidable (Nests t u) :=
  inferInstanceAs (Decidable (_ ∧ _))

/-- How the characters of two bounds can be related. -/
lemma stem_cases (p q : List UInt8) :
    memcmp (min p.length q.length) p q < 0 ∨ 0 < memcmp (min p.length q.length) p q ∨
      (memcmp (min p.length q.length) p q = 0 ∧
        (p = q ∨ (p.length < q.length ∧ p <+: q) ∨ (q.length < p.length ∧ q <+: p))) := by
  rcases lt_trichotomy (memcmp (min p.length q.length) p q) 0 with h | h | h
  · exact Or.inl h
  · refine Or.inr (Or.inr ⟨h, ?_⟩)
    rw [memcmp_eq_zero_iff (Nat.min_le_left _ _) (Nat.min_le_right _ _)] at h
    rcases lt_trichotomy p.length q.length with hlt | heq | hgt
    · refine Or.inr (Or.inl ⟨hlt, ?_⟩)
      rw [min_eq_left hlt.le, List.take_length] at h
      exact h ▸ List.take_prefix _ _
    · left
      rw [heq, min_self, List.take_length, ← heq, List.take_length] at h
      exact h
    · refine Or.inr (Or.inr ⟨hgt, ?_⟩)
      rw [min_eq_right hgt.le, List.take_length] at h
      exact h ▸ List.take_prefix _ _
  · exact Or.inr (Or.inl h)

lemma compareRaw_swap (ht : Stored t) (hu : Stored u) :
    u.compareRaw (stringType blank n) t = - t.compareRaw (stringType blank n) u := by
  rcases ht.value_cases with ⟨v, hv, hmin, hmax, hsub⟩ | rfl | rfl <;>
    rcases hu.value_cases with ⟨w, hw, hmin', hmax', hsub'⟩ | rfl | rfl
  · rw [compareRaw_eq hv hw hsub hsub', compareRaw_eq hw hv hsub' hsub,
      min_comm (stem u).length, memcmp_swap _ (stem t)]
    rcases lt_trichotomy (stem t).length (stem u).length with h | h | h
    · simp only [neg_eq_zero, ne_eq, h.ne', h.ne, not_false_eq_true, and_true, not_lt.2 h.le, h,
        if_true, if_false]
      split <;> [(split <;> rfl); rfl]
    · simp [h]
    · simp only [neg_eq_zero, ne_eq, h.ne', h.ne, not_false_eq_true, and_true, not_lt.2 h.le, h,
        if_true, if_false]
      split <;> [(split <;> rfl); rfl]
  all_goals simp [compareRaw, *]

end Stored

/-! ## The scale of nested bounds -/

namespace SubScale

variable {t u : ValueTransition (FixedString n)}

/-- A side of the values of a bound, on the line of places. -/
def side (t : ValueTransition (FixedString n)) (s : ℕ) : List ℕ :=
  match t.value with
  | some _ => 1 :: place (stem t) s
  | none => if t.isMinimum then [0, s] else [2, s]

lemma side_of_value (h : t.value ≠ none) (s : ℕ) : side t s = 1 :: place (stem t) s := by
  obtain ⟨v, hv⟩ := Option.ne_none_iff_exists'.1 h
  rw [side, hv]

/-- Where a bound stands. -/
def cutOf (t : ValueTransition (FixedString n)) : List ℕ :=
  side t (if t.isLowerBound = t.isInclusiveBound then 0 else 257)

/-- A bound that compares lower stands lower, on every side of its values, unless one of the
bounds is nested in the other. -/
lemma side_lt_side (ht : Stored t) (hu : Stored u)
    (h : t.compareRaw (stringType blank n) u < 0) :
    (∀ s r, side t s < side u r) ∨ (Nests t u ∧ t.isLowerBound = true) ∨
      (Nests u t ∧ u.isLowerBound = false) := by
  rcases ht.value_cases with ⟨v, hv, hmin, hmax, hsub⟩ | rfl | rfl <;>
    rcases hu.value_cases with ⟨w, hw, hmin', hmax', hsub'⟩ | rfl | rfl
  · have hv' : t.value ≠ none := by simp [hv]
    have hw' : u.value ≠ none := by simp [hw]
    rw [compareRaw_eq hv hw hsub hsub'] at h
    rcases stem_cases (stem t) (stem u) with hc | hc | ⟨hc, heq | ⟨hlt, hp⟩ | ⟨hlt, hp⟩⟩
    · left
      intro s r
      rw [side_of_value hv', side_of_value hw', List.cons_lt_cons_self]
      exact place_lt_place hc s r
    · rw [if_neg (by simp [hc.ne'])] at h
      omega
    · rw [if_neg (by simp [heq]), hc] at h
      omega
    · rw [if_pos ⟨hc, hlt.ne⟩, if_pos hlt] at h
      refine Or.inr (Or.inl ⟨⟨hv', hw', hlt, hp⟩, ?_⟩)
      by_contra hl
      rw [if_neg hl] at h
      omega
    · rw [if_pos ⟨hc, hlt.ne'⟩, if_neg (not_lt.2 hlt.le)] at h
      refine Or.inr (Or.inr ⟨⟨hw', hv', hlt, hp⟩, ?_⟩)
      by_contra hl
      rw [if_pos (by simpa using hl)] at h
      omega
  · simp [compareRaw, hmin, hmax] at h
  · left
    intro s r
    simp [side, hv, List.cons_lt_cons_iff]
  · left
    intro s r
    simp [side, hw, List.cons_lt_cons_iff]
  · simp [compareRaw] at h
  · left
    intro s r
    simp [side, List.cons_lt_cons_iff]
  · simp [compareRaw, hmax'] at h
  · simp [compareRaw] at h
  · simp [compareRaw] at h

/-- The sides of a longer bound are inside those of the bound in which it is nested. -/
lemma side_lt_of_nests (h : Nests t u) (s : ℕ) : side t 0 < side u s ∧ side u s < side t 257 := by
  obtain ⟨ht, hu, hlen, hp⟩ := h
  rw [side_of_value ht, side_of_value hu, side_of_value ht, List.cons_lt_cons_self,
    List.cons_lt_cons_self]
  exact ⟨place_zero_lt hp hlen s, lt_place_top hp hlen s⟩

/-- Bounds that compare equal have the same values. -/
lemma side_eq_side (ht : Stored t) (hu : Stored u)
    (h : t.compareRaw (stringType blank n) u = 0) (s : ℕ) : side t s = side u s := by
  rcases ht.value_cases with ⟨v, hv, hmin, hmax, hsub⟩ | rfl | rfl <;>
    rcases hu.value_cases with ⟨w, hw, hmin', hmax', hsub'⟩ | rfl | rfl
  · have hv' : t.value ≠ none := by simp [hv]
    have hw' : u.value ≠ none := by simp [hw]
    rw [compareRaw_eq hv hw hsub hsub'] at h
    rcases stem_cases (stem t) (stem u) with hc | hc | ⟨hc, heq | ⟨hlt, -⟩ | ⟨hlt, -⟩⟩
    · simp [hc.ne] at h
    · simp [hc.ne'] at h
    · rw [side_of_value hv', side_of_value hw', heq]
    · rw [if_pos ⟨hc, hlt.ne⟩, if_pos hlt] at h
      split at h <;> simp at h
    · rw [if_pos ⟨hc, hlt.ne'⟩, if_neg (not_lt.2 hlt.le)] at h
      split at h <;> simp at h
  · simp [compareRaw, hmin, hmax] at h
  · simp [compareRaw, hmin, hmax] at h
  · simp [compareRaw, hmin'] at h
  · rfl
  · simp [compareRaw] at h
  · simp [compareRaw, hmax'] at h
  · simp [compareRaw] at h
  · rfl

/-- Bounds with the same values compare equal. -/
lemma compareRaw_eq_zero (ht : Stored t) (hu : Stored u) (h : side t 0 = side u 0) :
    t.compareRaw (stringType blank n) u = 0 := by
  rcases ht.value_cases with ⟨v, hv, hmin, hmax, hsub⟩ | rfl | rfl <;>
    rcases hu.value_cases with ⟨w, hw, hmin', hmax', hsub'⟩ | rfl | rfl
  · rw [side_of_value (by simp [hv]), side_of_value (by simp [hw])] at h
    have heq := place_injective (List.cons.inj h).2
    have hself : memcmp (stem u).length (stem u) (stem u) = 0 :=
      (memcmp_eq_zero_iff le_rfl le_rfl).2 rfl
    simp [compareRaw_eq hv hw hsub hsub', heq, hself]
  all_goals simp_all [side, compareRaw]

/-- The field is below, among or above the values of a bound, on the line of places. -/
lemma compareRawField_eq {v : FixedString n} (hv : t.value = some v)
    (hsub : t.subLength = MatchFullString ∨ (t.subLength < n ∧ t.subLength < MatchFullString))
    (x : FixedString n) :
    t.compareRawField (stringType blank n) x = memcmp (stem t).length x.1 (stem t) := by
  have hlen := length_stem hv hsub
  rw [hlen, stem_eq hv]
  have htake := memcmp_take (le_refl (prefixLength n t)) (le_refl (prefixLength n t)) x.1 v.1
  have htake' := memcmp_take (le_refl (prefixLength n t)) (le_refl (prefixLength n t)) x.1
    (v.1.take (prefixLength n t))
  rw [List.take_take, min_self] at htake'
  rw [← htake', htake, compareRawField, hv, prefixLength]
  by_cases hm : t.matchSubString = true
  · have hne : t.subLength ≠ MatchFullString := by simpa [matchSubString] using hm
    simp only [hm, if_true, compareRange_stringType]
    rw [min_eq_left (hsub.resolve_left hne).1.le]
  · simp [hm, stringType]

/-- A field below the values of a bound. -/
lemma field_lt {x : FixedString n} (ht : Stored t) (h : t.compareRawField (stringType blank n) x < 0) :
    1 :: place x.1 0 < side t 0 := by
  rcases ht.value_cases with ⟨v, hv, -, -, hsub⟩ | rfl | rfl
  · rw [compareRawField_eq hv hsub] at h
    rw [side_of_value (by simp [hv]), List.cons_lt_cons_self]
    exact place_lt_place h 0 0
  · simp [compareRawField] at h
  · simp [side, List.cons_lt_cons_iff]

/-- A field above the values of a bound. -/
lemma lt_field {x : FixedString n} (ht : Stored t) (h : 0 < t.compareRawField (stringType blank n) x) :
    side t 257 < 1 :: place x.1 0 := by
  rcases ht.value_cases with ⟨v, hv, -, -, hsub⟩ | rfl | rfl
  · rw [compareRawField_eq hv hsub] at h
    rw [side_of_value (by simp [hv]), List.cons_lt_cons_self]
    refine place_lt_place (n := (stem t).length) ?_ 257 0
    rw [memcmp_swap]
    omega
  · simp [side, List.cons_lt_cons_iff]
  · simp [compareRawField] at h

/-- A field among the values of a bound: it starts with the characters of the bound. -/
lemma field_among {x : FixedString n} (ht : Stored t) (h : t.compareRawField (stringType blank n) x = 0) :
    side t 0 ∈ LowerSet.Iic (1 :: place x.1 0) ∧ side t 257 ∉ LowerSet.Iic (1 :: place x.1 0) := by
  rcases ht.value_cases with ⟨v, hv, -, -, hsub⟩ | rfl | rfl
  · have hlen : (stem t).length ≤ x.1.length := by
      rw [stem_eq hv, List.length_take, v.2, x.2]
      exact Nat.min_le_right _ _
    rw [compareRawField_eq hv hsub, memcmp_eq_zero_iff hlen le_rfl, List.take_length] at h
    have hp : stem t <+: x.1 := h ▸ List.take_prefix _ _
    rw [side_of_value (by simp [hv]), side_of_value (by simp [hv]), LowerSet.mem_Iic_iff,
      LowerSet.mem_Iic_iff, not_le, List.cons_lt_cons_self]
    rcases hlen.lt_or_eq with hlt | heq
    · exact ⟨(List.cons_lt_cons_self.2 (place_zero_lt hp hlt 0)).le, lt_place_top hp hlt 0⟩
    · rw [hp.eq_of_length heq]
      exact ⟨le_rfl, place_zero_lt_top _⟩
  · simp [compareRawField] at h
  · simp [compareRawField] at h

lemma cutOf_eq (t : ValueTransition (FixedString n)) :
    (if t.isLowerBound = t.isInclusiveBound then side t 0 else side t 257) = cutOf t := by
  rw [cutOf]
  split <;> rfl

lemma side_zero_lt_top (t : ValueTransition (FixedString n)) : side t 0 < side t 257 := by
  by_cases hv : t.value = none
  · simp only [side, hv]
    split <;> simp [List.cons_lt_cons_iff]
  · rw [side_of_value hv, side_of_value hv, List.cons_lt_cons_self]
    exact place_zero_lt_top _

/-- No exclusive bound has a longer bound nested in it. -/
def NotNested (bs : List (ValueTransition (FixedString n))) : Prop :=
  ∀ a ∈ bs, ∀ b ∈ bs, a.isInclusiveBound = false → ¬ Nests a b

instance (bs : List (ValueTransition (FixedString n))) : Decidable (NotNested bs) :=
  inferInstanceAs (Decidable (∀ _ ∈ _, _))

section Scale

variable {bs : List (ValueTransition (FixedString n))}

lemma cutOf_lt_cutOf (blank : UInt8) (hst : ∀ a ∈ bs, Stored a) (hex : NotNested bs) (ht : t ∈ bs) (hu : u ∈ bs)
    (h : t.compareRaw (stringType blank n) u < 0) : cutOf t < cutOf u := by
  rcases side_lt_side (hst t ht) (hst u hu) h with h | ⟨hn, hl⟩ | ⟨hn, hl⟩
  · exact h _ _
  · have hi : t.isInclusiveBound = true := by
      by_contra hcon
      exact hex t ht u hu (by simpa using hcon) hn
    rw [cutOf, if_pos (by rw [hl, hi])]
    exact (side_lt_of_nests hn _).1
  · have hi : u.isInclusiveBound = true := by
      by_contra hcon
      exact hex u hu t ht (by simpa using hcon) hn
    rw [cutOf, cutOf, if_neg (by simp [hl, hi] : ¬ u.isLowerBound = u.isInclusiveBound)]
    exact (side_lt_of_nests hn _).2

/-- The scale of the bounds of a set of string values. -/
def scale (blank : UInt8) (hst : ∀ a ∈ bs, Stored a) (hex : NotNested bs) :
    Scale (stringType blank n) (· ∈ bs) (List ℕ) where
  lo t := side t 0
  hi t := side t 257
  below x := LowerSet.Iic (1 :: place x.1 0)
  lo_lt_hi a _ := side_zero_lt_top a
  isUpperBound_eq a ha := (hst a ha).isUpperBound_eq
  cut_lt_of_neg a b ha hb h := by
    rw [cutOf_eq, cutOf_eq]
    exact cutOf_lt_cutOf blank hst hex ha hb h
  cut_lt_of_pos a b ha hb h := by
    rw [cutOf_eq, cutOf_eq]
    refine cutOf_lt_cutOf blank hst hex hb ha ?_
    rw [compareRaw_swap (hst a ha) (hst b hb)]
    omega
  eq_of_zero a b ha hb h :=
    ⟨side_eq_side (hst a ha) (hst b hb) h 0, side_eq_side (hst a ha) (hst b hb) h 257⟩
  zero_of_eq a b ha hb h := compareRaw_eq_zero (hst a ha) (hst b hb) h
  exclusive a b ha hb hinc := by
    rw [cutOf_eq]
    -- a bound in which this one is nested has its sides around it
    have hnests : Nests b a → cutOf b ≤ side a 0 ∨ side a 257 ≤ cutOf b := by
      intro hn
      rw [cutOf]
      split
      · exact Or.inl (side_lt_of_nests hn 0).1.le
      · exact Or.inr (side_lt_of_nests hn 257).2.le
    rcases lt_trichotomy (a.compareRaw (stringType blank n) b) 0 with h | h | h
    · rcases side_lt_side (hst a ha) (hst b hb) h with h | ⟨hn, -⟩ | ⟨hn, -⟩
      · exact Or.inr (h _ _).le
      · exact absurd hn (hex a ha b hb hinc)
      · exact hnests hn
    · rw [cutOf, ← side_eq_side (hst a ha) (hst b hb) h]
      split
      · exact Or.inl le_rfl
      · exact Or.inr le_rfl
    · have h' : b.compareRaw (stringType blank n) a < 0 := by
        rw [compareRaw_swap (hst a ha) (hst b hb)]
        omega
      rcases side_lt_side (hst b hb) (hst a ha) h' with h | ⟨hn, -⟩ | ⟨hn, -⟩
      · exact Or.inl (h _ _).le
      · exact hnests hn
      · exact absurd hn (hex a ha b hb hinc)
  field_neg a x ha h := by
    rw [LowerSet.mem_Iic_iff, not_le]
    exact field_lt (hst a ha) h
  field_zero a x ha h := field_among (hst a ha) h
  field_pos a x ha h := LowerSet.mem_Iic_iff.2 (lt_field (hst a ha) h).le

lemma scale_cut (blank : UInt8) (hst : ∀ a ∈ bs, Stored a) (hex : NotNested bs)
    (t : ValueTransition (FixedString n)) : (scale blank hst hex).cut t = cutOf t := cutOf_eq t

lemma scale_cuts (blank : UInt8) (hst : ∀ a ∈ bs, Stored a) (hex : NotNested bs)
    (ts : List (ValueTransition (FixedString n))) :
    (scale blank hst hex).cuts ts = ts.map cutOf :=
  List.map_congr_left fun t _ => cutOf_eq t

end Scale

end SubScale

/-! ## Adding ranges -/

/-- The bounds of a range to be added, as the constructors make them. -/
structure StringRange (n : ℕ) where
  lower : Option (ValueTransition (FixedString n))
  upper : Option (ValueTransition (FixedString n))
  lower_stored : ∀ t ∈ lower, Stored t ∧ t.isLowerBound = true
  upper_stored : ∀ t ∈ upper, Stored t ∧ t.isUpperBound = true

/-- How the first characters of a field compare with those of a bound. -/
def comparePrefix (t : ValueTransition (FixedString n)) (v x : FixedString n) : ℤ :=
  memcmp (prefixLength n t) x.1 v.1

/-- The field satisfies a lower bound. -/
def AboveLower (t : ValueTransition (FixedString n)) (x : FixedString n) : Prop :=
  ∀ v ∈ t.value, 0 < comparePrefix t v x ∨ (comparePrefix t v x = 0 ∧ t.isInclusiveBound = true)

/-- The field satisfies an upper bound. -/
def BelowUpper (t : ValueTransition (FixedString n)) (x : FixedString n) : Prop :=
  ∀ v ∈ t.value, comparePrefix t v x < 0 ∨ (comparePrefix t v x = 0 ∧ t.isInclusiveBound = true)

namespace StringRange

/-- The field satisfies both bounds of a range. -/
def Contains (r : StringRange n) (x : FixedString n) : Prop :=
  (∀ t ∈ r.lower, AboveLower t x) ∧ ∀ t ∈ r.upper, BelowUpper t x

/-- The set after a number of ranges have been added, the last one first in the list. -/
def run (blank : UInt8) : List (StringRange n) →
    Except SetError (List (ValueTransition (FixedString n)))
  | [] => .ok []
  | r :: rs => (run blank rs).bind fun ts =>
    ValueSet.addRange (stringType blank n) ts r.lower r.upper

/-- A range can be added safely: among its bounds and those of the set no exclusive bound has a
longer one nested in it, the range does not end among the values of its inclusive lower bound, and
it does not close a gap. -/
def SafeToAdd (blank : UInt8) (ts : List (ValueTransition (FixedString n)))
    (r : StringRange n) : Prop :=
  SubScale.NotNested (r.lower.getD .minimum :: r.upper.getD .maximum :: ts) ∧
    ¬ ((r.lower.getD .minimum).isInclusiveBound = true ∧
      Nests (r.lower.getD .minimum) (r.upper.getD .maximum)) ∧
    ¬ ValueSet.ClosesGap (stringType blank n) ts (r.lower.getD .minimum) (r.upper.getD .maximum)

instance (blank : UInt8) (ts : List (ValueTransition (FixedString n))) :
    DecidablePred (SafeToAdd blank ts) := fun _ => inferInstanceAs (Decidable (_ ∧ _))

/-- Every range is added safely. -/
def Safe (blank : UInt8) : List (StringRange n) → Prop
  | [] => True
  | r :: rs => Safe blank rs ∧ ∀ ts, run blank rs = .ok ts → SafeToAdd blank ts r

/-- `matches` finds the field in the set after the ranges have been added. -/
def Matched (blank : UInt8) (rs : List (StringRange n)) (x : FixedString n) : Prop :=
  ∃ ts, run blank rs = .ok ts ∧ ValueSet.matchesField (stringType blank n) ts x = true

section Run

open Scale CutList ValueSet

variable {ts : List (ValueTransition (FixedString n))} {r : StringRange n}
  {bs : List (ValueTransition (FixedString n))}

lemma lower_getD (r : StringRange n) :
    Stored (r.lower.getD .minimum) ∧ (r.lower.getD .minimum).isLowerBound = true := by
  cases h : r.lower with
  | none => exact ⟨⟨Or.inr (Or.inl rfl)⟩, rfl⟩
  | some t => exact r.lower_stored t h

lemma upper_getD (r : StringRange n) :
    Stored (r.upper.getD .maximum) ∧ (r.upper.getD .maximum).isUpperBound = true := by
  cases h : r.upper with
  | none => exact ⟨⟨Or.inr (Or.inr rfl)⟩, rfl⟩
  | some t => exact r.upper_stored t h

lemma compareRawField_comparePrefix {t : ValueTransition (FixedString n)} (ht : Stored t)
    {v : FixedString n} (hv : t.value = some v) (x : FixedString n) :
    t.compareRawField (stringType blank n) x = comparePrefix t v x := by
  rcases ht.value_cases with ⟨w, hw, -, -, hsub⟩ | rfl | rfl
  · obtain rfl : w = v := Option.some.inj (hw.symm.trans hv)
    rw [SubScale.compareRawField_eq hw hsub, length_stem hw hsub, stem_eq hw, comparePrefix]
    have h := memcmp_take (le_refl (prefixLength n t)) (le_refl (prefixLength n t)) x.1 w.1
    have h' := memcmp_take (le_refl (prefixLength n t)) (le_refl (prefixLength n t)) x.1
      (w.1.take (prefixLength n t))
    rw [List.take_take, min_self] at h'
    rw [← h', h]
  · simp at hv
  · simp at hv

/-- The values of a range are those between its cuts. -/
lemma contains_iff (r : StringRange n) (hst : ∀ a ∈ bs, Stored a) (hex : SubScale.NotNested bs)
    (hl : r.lower.getD .minimum ∈ bs) (hu : r.upper.getD .maximum ∈ bs) (x : FixedString n) :
    r.Contains x ↔
      SubScale.cutOf (r.lower.getD .minimum) ∈ (SubScale.scale blank hst hex).below x ∧
        SubScale.cutOf (r.upper.getD .maximum) ∉ (SubScale.scale blank hst hex).below x := by
  rw [← SubScale.scale_cut blank hst hex, ← SubScale.scale_cut blank hst hex,
    Scale.cut_mem_below_iff _ hl, Scale.cut_mem_below_iff _ hu, (lower_getD r).2]
  have hupper := (upper_getD r).1.isUpperBound_eq
  rw [(upper_getD r).2] at hupper
  refine and_congr ?_ ?_
  · cases h : r.lower with
    | none => simp [compareRawField]
    | some t =>
      have ht := (r.lower_stored t h).1
      simp only [Option.mem_some_iff, forall_eq', Option.getD_some, AboveLower]
      cases hv : t.value with
      | none =>
        have hl := (r.lower_stored t h).2
        rcases ht.value_cases with ⟨w, hw, -⟩ | rfl | rfl
        · simp [hw] at hv
        · simp [compareRawField]
        · simp at hl
      | some v =>
        simp only [Option.mem_some_iff, forall_eq', compareRawField_comparePrefix ht hv, eq_comm]
  · cases h : r.upper with
    | none => simp [compareRawField]
    | some t =>
      have ht := (r.upper_stored t h).1
      rw [h, Option.getD_some] at hupper
      simp only [Option.mem_some_iff, forall_eq', Option.getD_some, BelowUpper]
      cases hv : t.value with
      | none =>
        have hu := (r.upper_stored t h).2
        rcases ht.value_cases with ⟨w, hw, -⟩ | rfl | rfl
        · simp [hw] at hv
        · simp at hu
        · simp [compareRawField]
      | some v =>
        have hl : t.isLowerBound = false := by simpa using hupper.symm
        simp only [Option.mem_some_iff, forall_eq', compareRawField_comparePrefix ht hv, hl]
        rcases lt_trichotomy (comparePrefix t v x) 0 with h | h | h
        · simp [h, h.ne, h.le]
        · simp [h]
        · simp [h, h.ne', h.le]

/-- The form of a set of string bounds, without a scale. -/
structure Good (ts : List (ValueTransition (FixedString n))) : Prop where
  stored : ∀ t ∈ ts, Stored t
  sorted : (ts.map SubScale.cutOf).Pairwise (· < ·)
  alternates : Alternates true ts
  even : Even ts.length
  wide : ∀ a ∈ ts, a.isLowerBound = true → a.isInclusiveBound = true →
    ∀ D : LowerSet (List ℕ), SubScale.side a 0 ∈ D → SubScale.side a 257 ∉ D →
      Inside D (ts.map SubScale.cutOf)

lemma good_nil : Good ([] : List (ValueTransition (FixedString n))) :=
  ⟨by simp, by simp, trivial, by simp, by simp⟩

lemma Good.normal (h : Good ts) (blank : UInt8) (hst : ∀ a ∈ bs, Stored a) (hex : SubScale.NotNested bs)
    (hsub : ∀ t ∈ ts, t ∈ bs) : (SubScale.scale blank hst hex).Normal ts :=
  ⟨hsub, by rw [SubScale.scale_cuts]; exact h.sorted, h.alternates, h.even⟩

lemma Good.wide_scale (h : Good ts) (blank : UInt8) (hst : ∀ a ∈ bs, Stored a) (hex : SubScale.NotNested bs) :
    (SubScale.scale blank hst hex).Wide ts := by
  intro a ha hl hi D hlo hhi
  rw [SubScale.scale_cuts]
  exact h.wide a ha hl hi D hlo hhi

lemma good_of_normal {hst : ∀ a ∈ bs, Stored a} {hex : SubScale.NotNested bs}
    (hn : (SubScale.scale blank hst hex).Normal ts) (hw : (SubScale.scale blank hst hex).Wide ts) :
    Good ts := by
  refine ⟨fun t ht => hst t (hn.mem t ht), ?_, hn.alternates, hn.even, ?_⟩
  · rw [← SubScale.scale_cuts blank hst hex]
    exact hn.sorted
  · intro a ha hl hi D hlo hhi
    rw [← SubScale.scale_cuts blank hst hex]
    exact hw a ha hl hi D hlo hhi

/-- A range that is not empty ends above the values of its lower bound. -/
lemma side_le_cutOf (r : StringRange n) (hsafe : SafeToAdd blank ts r)
    (hne : isEmptyRange (stringType blank n) (r.lower.getD .minimum) (r.upper.getD .maximum) =
      false) :
    SubScale.side (r.lower.getD .minimum) 257 ≤ SubScale.cutOf (r.upper.getD .maximum) := by
  obtain ⟨hex, hends, -⟩ := hsafe
  obtain ⟨hl, -⟩ := lower_getD r
  obtain ⟨hu, hupper⟩ := upper_getD r
  have hlower : (r.upper.getD .maximum).isLowerBound = false := by
    simpa [hupper] using hu.isUpperBound_eq
  simp only [isEmptyRange, Bool.or_eq_false_iff, decide_eq_false_iff_not, not_lt,
    Bool.and_eq_false_iff, beq_eq_false_iff_ne, Bool.not_eq_false', ne_eq] at hne
  have hcut : (r.upper.getD .maximum).isInclusiveBound = true →
      SubScale.cutOf (r.upper.getD .maximum) = SubScale.side (r.upper.getD .maximum) 257 := by
    intro hi
    rw [SubScale.cutOf, if_neg (by simp [hlower, hi])]
  rcases hne.1.lt_or_eq with hlt | heq
  · rcases SubScale.side_lt_side hl hu hlt with h | ⟨hn, -⟩ | ⟨hn, -⟩
    · exact (h _ _).le
    · cases hi : (r.lower.getD .minimum).isInclusiveBound with
      | true => exact absurd ⟨hi, hn⟩ hends
      | false => exact absurd hn (hex _ (by simp) _ (by simp) hi)
    · cases hi : (r.upper.getD .maximum).isInclusiveBound with
      | true =>
        rw [hcut hi]
        exact (SubScale.side_lt_of_nests hn 257).2.le
      | false => exact absurd hn (hex _ (by simp) _ (by simp) hi)
  · have hi := hne.2.resolve_left (not_not.2 heq)
    rw [hcut hi.2, SubScale.side_eq_side hl hu heq]

/-- Adding a range safely: the form is kept, and the values of the range are added. -/
lemma addRange_of_safe (hg : Good ts) (hsafe : SafeToAdd blank ts r) :
    ∃ ts', addRange (stringType blank n) ts r.lower r.upper = .ok ts' ∧ Good ts' ∧
      ∀ x, matchesField (stringType blank n) ts' x = true ↔
        matchesField (stringType blank n) ts x = true ∨ r.Contains x := by
  have hst : ∀ a ∈ r.lower.getD .minimum :: r.upper.getD .maximum :: ts, Stored a := by
    simp only [List.mem_cons, forall_eq_or_imp]
    exact ⟨(lower_getD r).1, (upper_getD r).1, hg.stored⟩
  have hex := hsafe.1
  have hn := hg.normal blank hst hex (by simp +contextual)
  have hw := hg.wide_scale blank hst hex
  obtain ⟨ts', hok, hn', hw', hD, -⟩ := addRange_spec rfl rfl hn hw
    (List.mem_cons_self) (List.mem_cons_of_mem _ List.mem_cons_self) (lower_getD r).2
    (upper_getD r).2
    (fun hne => by rw [SubScale.scale_cut]; exact side_le_cutOf r hsafe hne) hsafe.2.2
  refine ⟨ts', hok, good_of_normal hn' hw', fun x => ?_⟩
  rw [matchesField_iff hn' hw', matchesField_iff hn hw, Member, Member, hD, SubScale.scale_cut,
    SubScale.scale_cut, contains_iff r hst hex List.mem_cons_self
      (List.mem_cons_of_mem _ List.mem_cons_self)]

/-- The set after ranges have been added safely. -/
lemma run_of_safe {rs : List (StringRange n)} (h : Safe blank rs) :
    ∃ ts, run blank rs = .ok ts ∧ Good ts ∧
      ∀ x, matchesField (stringType blank n) ts x = true ↔ ∃ r ∈ rs, r.Contains x := by
  induction rs with
  | nil => exact ⟨[], rfl, good_nil, fun x => by simp [matchesField, matchesLoop, numRanges]⟩
  | cons r rs ih =>
    obtain ⟨ts, hts, hg, hx⟩ := ih h.1
    obtain ⟨ts', hok, hg', hx'⟩ := addRange_of_safe hg (h.2 ts hts)
    refine ⟨ts', by simp [run, hts, Except.bind, hok], hg', fun x => ?_⟩
    rw [hx', hx, List.exists_mem_cons_iff, or_comm]

lemma Safe.suffix {rs s : List (StringRange n)} (h : Safe blank rs) (hs : s <:+ rs) :
    Safe blank s := by
  induction rs with
  | nil => rwa [List.suffix_nil.1 hs]
  | cons r rs ih =>
    rcases List.suffix_cons_iff.1 hs with rfl | hs
    · exact h
    · exact ih h.1 hs

end Run

/-- The set has exactly the fields that satisfy one of the ranges. -/
def Correct (blank : UInt8) (rs : List (StringRange n)) : Prop :=
  ∃ ts, run blank rs = .ok ts ∧
    ∀ x, ValueSet.matchesField (stringType blank n) ts x = true ↔ ∃ r ∈ rs, r.Contains x

/-- Adding the range does not lose a field that matched before. -/
def KeepsMatches (blank : UInt8) (rs : List (StringRange n)) (r : StringRange n) : Prop :=
  ∀ x, Matched blank rs x → Matched blank (r :: rs) x

/-- Whatever ranges are added safely, with bounds of any sub-length: after every step the set has
exactly the fields that satisfy one of the ranges so far, and no step loses a field. -/
theorem correct_of_safe (blank : UInt8) (rs : List (StringRange n)) (h : Safe blank rs) :
    ∀ s, s <:+ rs → Correct blank s ∧ ∀ r, r :: s <:+ rs → KeepsMatches blank s r := by
  intro s hs
  obtain ⟨ts, hts, -, hx⟩ := run_of_safe (h.suffix hs)
  refine ⟨⟨ts, hts, hx⟩, fun r hr x hmatch => ?_⟩
  obtain ⟨ts', hts', -, hx'⟩ := run_of_safe (h.suffix hr)
  refine ⟨ts', hts', (hx' x).2 ?_⟩
  obtain ⟨us, hus, hmatch⟩ := hmatch
  obtain rfl : us = ts := Except.ok.inj (hus.symm.trans hts)
  obtain ⟨q, hq, hc⟩ := (hx x).1 hmatch
  exact ⟨q, List.mem_cons_of_mem _ hq, hc⟩

lemma createRawTransitionEx_isLowerBound (blank : UInt8) (inclusive : Bool) (v : FixedString n)
    (k : ℕ) : Stored (createRawTransitionEx blank (if inclusive then CMPge else CMPgt) v k) ∧
      (createRawTransitionEx blank (if inclusive then CMPge else CMPgt) v k).isLowerBound =
        true := by
  refine ⟨stored_createRawTransitionEx (by cases inclusive <;> simp) v k, ?_⟩
  simp only [createRawTransitionEx, applySubString]
  split
  · cases inclusive <;> simp only [isLowerBound, create] <;> split <;> rfl
  · cases inclusive <;> rfl

lemma createRawTransitionEx_isUpperBound (blank : UInt8) (inclusive : Bool) (v : FixedString n)
    (k : ℕ) : Stored (createRawTransitionEx blank (if inclusive then CMPle else CMPlt) v k) ∧
      (createRawTransitionEx blank (if inclusive then CMPle else CMPlt) v k).isUpperBound =
        true := by
  refine ⟨stored_createRawTransitionEx (by cases inclusive <;> simp) v k, ?_⟩
  simp only [createRawTransitionEx, applySubString]
  split
  · cases inclusive <;> simp only [isUpperBound, create] <;> split <;> rfl
  · cases inclusive <;> rfl

/-- The range between two bounds made by `createRawTransitionEx`, each given by whether it is
inclusive, its value and its sub-length. -/
def between (blank : UInt8) (lower upper : Bool × FixedString n × ℕ) : StringRange n where
  lower := some (createRawTransitionEx blank (if lower.1 then CMPge else CMPgt) lower.2.1 lower.2.2)
  upper := some (createRawTransitionEx blank (if upper.1 then CMPle else CMPlt) upper.2.1 upper.2.2)
  lower_stored t ht := by
    obtain rfl := Option.mem_some_iff.1 ht
    exact createRawTransitionEx_isLowerBound blank lower.1 lower.2.1 lower.2.2
  upper_stored t ht := by
    obtain rfl := Option.mem_some_iff.1 ht
    exact createRawTransitionEx_isUpperBound blank upper.1 upper.2.1 upper.2.2

/-- A string of two characters. -/
def twoChars (a b : UInt8) : FixedString 2 := ⟨[a, b], rfl⟩

/-- The strings from `b` to before `d`, by their first character, and then those of `a` that are
not above `ab`. -/
def prefixRanges : List (StringRange 2) :=
  [between 32 (true, twoChars 97 32, MatchFullString) (true, twoChars 97 98, MatchFullString),
    between 32 (true, twoChars 98 32, 1) (false, twoChars 100 32, 1)]

theorem prefixRanges_correct : Safe 32 prefixRanges ∧ Correct 32 prefixRanges := by
  have hsafe : Safe 32 prefixRanges := by
    refine ⟨⟨trivial, ?_⟩, ?_⟩ <;> rintro ts hts <;> cases hts <;> decide +kernel
  exact ⟨hsafe, (correct_of_safe 32 prefixRanges hsafe prefixRanges List.suffix_rfl).1⟩

/-- The string `ab`. -/
def wholeRange : StringRange 2 :=
  between 32 (true, twoChars 97 98, MatchFullString) (true, twoChars 97 98, MatchFullString)

/-- The strings above all those that start with `a`, up to `c`. -/
def abovePrefix : StringRange 2 :=
  between 32 (false, twoChars 97 32, 1) (true, twoChars 99 32, MatchFullString)

lemma wholeRange_contains : wholeRange.Contains (twoChars 97 98) := by
  refine ⟨fun t ht v hv => ?_, fun t ht v hv => ?_⟩ <;> cases ht <;> cases hv <;> decide

/-- The bounds of `ab` are taken to be inside the second range, and are removed. -/
theorem abovePrefix_incorrect :
    wholeRange.Contains (twoChars 97 98) ∧ Matched 32 [wholeRange] (twoChars 97 98) ∧
      ¬ Matched 32 [abovePrefix, wholeRange] (twoChars 97 98) ∧
      ¬ Correct 32 [abovePrefix, wholeRange] ∧ ¬ KeepsMatches 32 [wholeRange] abovePrefix := by
  have hbefore : Matched 32 [wholeRange] (twoChars 97 98) := ⟨_, rfl, by decide⟩
  have hafter : ¬ Matched 32 [abovePrefix, wholeRange] (twoChars 97 98) := by
    rintro ⟨ts, hts, hm⟩
    cases hts
    revert hm
    decide
  refine ⟨wholeRange_contains, hbefore, hafter, ?_, fun h => hafter (h _ hbefore)⟩
  rintro ⟨ts, hts, hx⟩
  exact hafter ⟨ts, hts, (hx _).2 ⟨wholeRange, by simp, wholeRange_contains⟩⟩

end StringRange

end HpccPlatform
