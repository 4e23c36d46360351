import HpccPlatform.ValueSet.Lookup

/-!
# The lookups of a value set agree

A value set is searched in three ways: `matches` for a field, `matches` for a field and one range, and
`findForwardMatchRange` for the range of a field or the next one behind it.  For a set in its
documented form they give one answer, and `compareLowest` and `compareHighest` tell on which side of
the bounds of a range the field lies.
-/

namespace HpccPlatform

namespace ValueSet

open Scale FullScale

variable {α : Type*} {type : RtlTypeInfo α} {ts : List (ValueTransition α)} {t : ValueTransition α}
  {x : α} {i : ℕ}

/-- `matches(field, range)` -/
def matchesRange (type : RtlTypeInfo α) (transitions : List (ValueTransition α)) (field : α)
    (range : ℕ) : Bool :=
  if numRanges transitions ≤ range then false
  else
    match transitions[range * 2]?, transitions[range * 2 + 1]? with
    | some lower, some upper =>
      let rc := lower.compareField type field
      if rc < 0 then false
      else if rc = 0 then true
      else decide (upper.compareField type field ≤ 0)
    | _, _ => false

/-- The field does not satisfy a lower bound: the bound lies above it. -/
def LiesAbove (type : RtlTypeInfo α) (t : ValueTransition α) (x : α) : Prop :=
  ∃ v ∈ t.value, type.compare x v < 0 ∨ (type.compare x v = 0 ∧ t.isInclusiveBound = false)

/-- The field does not satisfy an upper bound: the bound lies below it. -/
def LiesBelow (type : RtlTypeInfo α) (t : ValueTransition α) (x : α) : Prop :=
  ∃ v ∈ t.value, 0 < type.compare x v ∨ (type.compare x v = 0 ∧ t.isInclusiveBound = false)

/-! ## One bound -/

lemma compareField_neg_iff_liesAbove (ht : t.Full) (hl : t.isLowerBound = true) :
    t.compareField type x < 0 ↔ LiesAbove type t x := by
  unfold LiesAbove ValueTransition.compareField ValueTransition.compareRawField
  rcases ht.value_cases with ⟨v, hv, -, -⟩ | rfl | rfl
  · simp only [hv, ht.matchSubString_eq, hl, Option.mem_some_iff, exists_eq_left']
    cases t.isInclusiveBound <;> by_cases hzero : type.compare x v = 0 <;> simp [hzero]
  · simp
  · simp at hl

lemma compareField_pos_iff_liesBelow (ht : t.Full) (hl : t.isLowerBound = false) :
    0 < t.compareField type x ↔ LiesBelow type t x := by
  have hupper : t.isUpperBound = true := by rw [ht.isUpperBound_eq, hl, Bool.not_false]
  unfold LiesBelow ValueTransition.compareField ValueTransition.compareRawField
  rcases ht.value_cases with ⟨v, hv, -, -⟩ | rfl | rfl
  · simp only [hv, ht.matchSubString_eq, hl, hupper, Option.mem_some_iff, exists_eq_left']
    cases t.isInclusiveBound <;> by_cases hzero : type.compare x v = 0 <;> simp [hzero]
  · simp at hl
  · simp

/-! ## One range -/

section Range

variable {Q : Type*} [LinearOrder Q] {r : Rank type.compare Q}

/-- The bounds of a range of the set. -/
structure Bounds (ts : List (ValueTransition α)) (i : ℕ) (lower upper : ValueTransition α) :
    Prop where
  lower_eq : ts[i * 2]? = some lower
  upper_eq : ts[i * 2 + 1]? = some upper
  lower_full : lower.Full
  upper_full : upper.Full
  isLowerBound : lower.isLowerBound = true
  isUpperBound : upper.isLowerBound = false

lemma exists_bounds (hn : (scale r).Normal ts) (hi : i < numRanges ts) :
    ∃ lower upper, Bounds ts i lower upper := by
  have hlen := length_eq_of_normal hn
  have hl : i * 2 < ts.length := by omega
  have hu : i * 2 + 1 < ts.length := by omega
  refine ⟨ts[i * 2], ts[i * 2 + 1], List.getElem?_eq_getElem hl, List.getElem?_eq_getElem hu,
    hn.mem _ (List.getElem_mem hl), hn.mem _ (List.getElem_mem hu), ?_, ?_⟩
  · simp [hn.alternates.isLowerBound_getElem hl]
  · simp [hn.alternates.isLowerBound_getElem hu]

variable {lower upper : ValueTransition α}

/-- A field is in a range when it lies between the bounds. -/
lemma Bounds.inRange_iff (hb : Bounds ts i lower upper) :
    InRange (scale r) ts ((scale r).below x) i ↔
      0 ≤ lower.compareField type x ∧ upper.compareField type x ≤ 0 := by
  obtain ⟨hl, hlower⟩ := List.getElem?_eq_some_iff.mp hb.lower_eq
  obtain ⟨hu, hupper⟩ := List.getElem?_eq_some_iff.mp hb.upper_eq
  have hneg := compareField_neg_iff r hb.lower_full hb.isLowerBound (x := x)
  have hpos := compareField_pos_iff r hb.upper_full hb.isUpperBound (x := x)
  rw [← not_lt, hneg, ← not_lt, hpos, not_not]
  constructor
  · rintro ⟨_, hin, hout⟩
    exact ⟨hlower ▸ hin, hupper ▸ hout⟩
  · rintro ⟨hin, hout⟩
    exact ⟨hu, hlower ▸ hin, hupper ▸ hout⟩

lemma Bounds.matchesRange_iff (hn : (scale r).Normal ts) (hb : Bounds ts i lower upper) :
    matchesRange type ts x i = true ↔
      0 ≤ lower.compareField type x ∧ upper.compareField type x ≤ 0 := by
  have hlen := length_eq_of_normal hn
  obtain ⟨hu, -⟩ := List.getElem?_eq_some_iff.mp hb.upper_eq
  unfold matchesRange
  rw [if_neg (by omega), hb.lower_eq, hb.upper_eq]
  dsimp only
  rcases lt_trichotomy (lower.compareField type x) 0 with hneg | hzero | hpos
  · rw [if_pos hneg]
    exact iff_of_false Bool.false_ne_true fun h => absurd h.1 hneg.not_ge
  · -- the bound is inclusive, and no range ends among the values of its inclusive lower bound
    rw [if_neg hzero.not_lt, if_pos hzero]
    have hin : InRange (scale r) ts ((scale r).below x) i := by
      obtain ⟨hl, hlower⟩ := List.getElem?_eq_some_iff.mp hb.lower_eq
      exact inRange_of_compareField hn hu (hlower ▸ hzero)
    exact iff_of_true rfl (hb.inRange_iff.mp hin)
  · rw [if_neg hpos.asymm, if_neg hpos.ne', decide_eq_true_iff]
    exact (and_iff_right hpos.le).symm

end Range

/-! ## All lookups -/

/-- The lower bound of a range of the set lies above the field. -/
def StartsAbove (type : RtlTypeInfo α) (ts : List (ValueTransition α)) (x : α) (i : ℕ) : Prop :=
  ∃ lower ∈ ts[i * 2]?, LiesAbove type lower x

/-- What `compareLowest` and `compareHighest` tell about a field and a range. -/
structure Compares (type : RtlTypeInfo α) (ts : List (ValueTransition α)) (x : α) (i : ℕ) :
    Prop where
  exists_bounds : ∃ lower upper rcLow rcHigh, ts[i * 2]? = some lower ∧
    ts[i * 2 + 1]? = some upper ∧ compareLowest type ts x i = some rcLow ∧
    compareHighest type ts x i = some rcHigh ∧ (rcLow < 0 ↔ LiesAbove type lower x) ∧
    (0 < rcHigh ↔ LiesBelow type upper x) ∧
    (matchesRange type ts x i = true ↔ 0 ≤ rcLow ∧ rcHigh ≤ 0)

/-- The lookups of a field agree. -/
structure LookupsAgree (type : RtlTypeInfo α) (ts : List (ValueTransition α)) (x : α) : Prop where
  found_iff : (findForwardMatchRange type ts x).1 = true ↔ matchesField type ts x = true
  inRange : (findForwardMatchRange type ts x).1 = true →
    matchesRange type ts x (findForwardMatchRange type ts x).2 = true
  next : (findForwardMatchRange type ts x).1 = false →
    IsLeast {i | StartsAbove type ts x i} (findForwardMatchRange type ts x).2 ∨
      ((findForwardMatchRange type ts x).2 = numRanges ts ∧ ∀ i, ¬ StartsAbove type ts x i)
  compares : ∀ i < numRanges ts, Compares type ts x i
  outside : ∀ i, numRanges ts ≤ i → matchesRange type ts x i = false

section Lookups

variable {Q : Type*} [LinearOrder Q] {r : Rank type.compare Q}

lemma startsAbove_iff (hn : (scale r).Normal ts) :
    StartsAbove type ts x i ↔ ∃ h : i * 2 < ts.length, (scale r).cut ts[i * 2] ∉ (scale r).below x := by
  have hiff : ∀ h : i * 2 < ts.length,
      LiesAbove type ts[i * 2] x ↔ (scale r).cut ts[i * 2] ∉ (scale r).below x := by
    intro h
    have hfull := hn.mem _ (List.getElem_mem h)
    have hlower : ts[i * 2].isLowerBound = true := by
      simp [hn.alternates.isLowerBound_getElem h]
    rw [← compareField_neg_iff_liesAbove hfull hlower, compareField_neg_iff r hfull hlower]
  constructor
  · rintro ⟨lower, hlower, habove⟩
    obtain ⟨h, rfl⟩ := List.getElem?_eq_some_iff.mp hlower
    exact ⟨h, (hiff h).mp habove⟩
  · rintro ⟨h, hcut⟩
    exact ⟨ts[i * 2], List.getElem?_eq_getElem h, (hiff h).mpr hcut⟩

lemma compares_of_normal (hn : (scale r).Normal ts) (hi : i < numRanges ts) :
    Compares type ts x i := by
  obtain ⟨lower, upper, hb⟩ := exists_bounds hn hi
  refine ⟨lower, upper, lower.compareField type x, upper.compareField type x, hb.lower_eq,
    hb.upper_eq, ?_, ?_, compareField_neg_iff_liesAbove hb.lower_full hb.isLowerBound,
    compareField_pos_iff_liesBelow hb.upper_full hb.isUpperBound, hb.matchesRange_iff hn⟩
  · rw [compareLowest, hb.lower_eq, Option.map_some]
  · rw [compareHighest, hb.upper_eq, Option.map_some]

lemma lookupsAgree_of_normal (hn : (scale r).Normal ts) (x : α) : LookupsAgree type ts x := by
  have hlen := length_eq_of_normal hn
  have hlocates := findForwardMatchRange_spec hn x
  have hmatches : matchesField type ts x = true ↔
      ∃ i, InRange (scale r) ts ((scale r).below x) i := by
    rw [matchesField_iff hn ((scale_closed r).wide hn)]
    exact inside_cuts_iff hn.sorted hn.even _
  revert hlocates
  generalize hfound : findForwardMatchRange type ts x = found
  obtain ⟨ok, j⟩ := found
  intro hlocates
  refine ⟨?_, ?_, ?_, fun i hi => compares_of_normal hn hi, ?_⟩
  · rw [hfound, hmatches]
    cases ok with
    | true => exact iff_of_true rfl ⟨j, hlocates⟩
    | false =>
      obtain ⟨-, hbefore, hafter⟩ := hlocates
      refine iff_of_false Bool.false_ne_true ?_
      rintro ⟨i, hi, hin, hout⟩
      rcases lt_or_ge i j with hlt | hge
      · exact hout (hbefore i hi hlt)
      · exact hafter i _ hge hin
  · rw [hfound]
    rintro rfl
    obtain ⟨hj, -⟩ := id hlocates
    obtain ⟨lower, upper, hb⟩ := @exists_bounds _ _ ts j _ _ r hn (by omega)
    exact (hb.matchesRange_iff hn).mpr (hb.inRange_iff.mp hlocates)
  · rw [hfound]
    rintro rfl
    obtain ⟨hle, hbefore, hafter⟩ := hlocates
    have hleast : ∀ i, StartsAbove type ts x i → j ≤ i := by
      intro i hi
      obtain ⟨h, hcut⟩ := (startsAbove_iff hn).mp hi
      by_contra hlt
      have hin := hbefore i (by omega) (not_le.mp hlt)
      exact hcut (((scale r).below x).lower (hn.cut_le_cut (Nat.le_succ _) (by omega)) hin)
    rcases hle.lt_or_eq with hlt | heq
    · refine Or.inl ⟨(startsAbove_iff hn).mpr ⟨by omega, hafter j _ le_rfl⟩, hleast⟩
    · refine Or.inr ⟨heq, fun i hi => ?_⟩
      obtain ⟨h, -⟩ := (startsAbove_iff hn).mp hi
      have hge := hleast i hi
      change j = numRanges ts at heq
      omega
  · intro i hi
    exact if_pos hi

end Lookups

/-- The type of an unsigned field. -/
def unsignedType : RtlTypeInfo ℕ where
  compare a b := (a : ℤ) - b
  compareRange _ _ _ _ := 0
  isFixedSize := true
  getMinSize := 4

/-- The values from 5 up to 7, without 7, and those above 9. -/
def twoRanges : List (ValueTransition ℕ) :=
  [.create CMPge unsignedType 5 MatchFullString, .create CMPlt unsignedType 7 MatchFullString,
    .create CMPgt unsignedType 9 MatchFullString, .maximum]

end ValueSet

end HpccPlatform
