import HpccPlatform.ValueSet.FullScale

/-!
# Looking up the range of a value

A keyed search needs more of a value set than `matches`: in which range a value lies, or which
range comes next, and on which side of the two bounds of a range it lies.

A value is the set of cuts below it.  `compareLowest` and `compareHighest` tell whether the cut of a
bound is one of them, and `findForwardMatchRange` finds the range whose lower bound is below the
value and whose upper bound is not.
-/

namespace HpccPlatform

namespace ValueSet

variable {α : Type*}

/-- `compareLowest(field, range)`, for a range of the set. -/
def compareLowest (type : RtlTypeInfo α) (transitions : List (ValueTransition α)) (field : α)
    (range : ℕ) : Option ℤ :=
  (transitions[range * 2]?).map fun t => t.compareField type field

/-- `compareHighest(field, range)`, for a range of the set. -/
def compareHighest (type : RtlTypeInfo α) (transitions : List (ValueTransition α)) (field : α)
    (range : ℕ) : Option ℤ :=
  (transitions[range * 2 + 1]?).map fun t => t.compareField type field

/-- The end of `findForwardMatchRange`, when the binary chop has arrived at `low`. -/
def checkRange (type : RtlTypeInfo α) (transitions : List (ValueTransition α)) (field : α)
    (low : ℕ) : Bool × ℕ :=
  match transitions[low * 2]?, transitions[low * 2 + 1]? with
  | some lower, some upper =>
    if 0 ≤ lower.compareField type field then
      if upper.compareField type field ≤ 0 then (true, low) else (false, low + 1)
    else (false, low)
  | _, _ => (false, low)  -- `low == ranges`

/-- The binary chop of `findForwardMatchRange` over the ranges `[low, high)`. -/
def findForwardLoop (type : RtlTypeInfo α) (transitions : List (ValueTransition α)) (field : α) :
    ℕ → ℕ → ℕ → Bool × ℕ
  | 0, low, _ => checkRange type transitions field low
  | fuel + 1, low, high =>
    if 1 < high - low then
      let mid := low + (high - low) / 2
      match transitions[mid * 2]? with
      | some lower =>
        let rc := lower.compareField type field
        if rc < 0 then findForwardLoop type transitions field fuel low mid
        else if 0 < rc then findForwardLoop type transitions field fuel mid high
        else (true, mid)
      | none => (false, mid)
    else checkRange type transitions field low

/-- `findForwardMatchRange(field, matchRange)`: whether the field lies within a range, and the
index of that range or of the next one. -/
def findForwardMatchRange (type : RtlTypeInfo α) (transitions : List (ValueTransition α))
    (field : α) : Bool × ℕ :=
  findForwardLoop type transitions field (numRanges transitions) 0 (numRanges transitions)

end ValueSet

/-! ## Comparing a value with a bound -/

namespace FullScale

open ValueTransition

variable {α : Type*} {type : RtlTypeInfo α} {Q : Type*} [LinearOrder Q]
  (r : Rank type.compare Q) {t : ValueTransition α} {x y : α}

/-- A value is before a lower bound when the cut of the bound is not below it. -/
lemma compareField_neg_iff (ht : t.Full) (hl : t.isLowerBound = true) :
    t.compareField type x < 0 ↔ (scale r).cut t ∉ (scale r).below x := by
  rw [(scale r).cut_mem_below_iff ht, hl]
  unfold compareField
  simp only [hl]
  cases t.isInclusiveBound <;> by_cases h : t.compareRawField type x = 0 <;> simp [h] <;> omega

/-- A value is behind an upper bound when the cut of the bound is below it. -/
lemma compareField_pos_iff (ht : t.Full) (hu : t.isLowerBound = false) :
    0 < t.compareField type x ↔ (scale r).cut t ∈ (scale r).below x := by
  have hupper : t.isUpperBound = true := by simpa [hu] using ht.isUpperBound_eq
  rw [(scale r).cut_mem_below_iff ht, hu]
  unfold compareField
  simp only [hu, hupper]
  cases t.isInclusiveBound <;> by_cases h : t.compareRawField type x = 0 <;> simp [h]

/-- A greater value has more cuts below it. -/
lemma below_mono (h : type.compare x y ≤ 0) : (scale r).below x ≤ (scale r).below y := by
  have hle : r.rank x ≤ r.rank y := by
    rcases h.lt_or_eq with h | h
    · exact ((r.neg_iff x y).1 h).le
    · exact ((r.zero_iff x y).1 h).le
  refine LowerSet.Iic_le.2 (LowerSet.mem_Iic_iff.2 ?_)
  rw [Prod.Lex.toLex_le_toLex]
  rcases hle.lt_or_eq with h | h
  · exact Or.inl (by simpa using h)
  · exact Or.inr ⟨by simp [h], le_rfl⟩

/-- Behind a value that has reached an upper bound, every greater value is behind the bound. -/
lemma cut_mem_below_of_lt (ht : t.Full) (hu : t.isLowerBound = false)
    (hx : 0 ≤ t.compareField type x) (h : type.compare x y < 0) :
    (scale r).cut t ∈ (scale r).below y := by
  rcases hx.lt_or_eq with hpos | hzero
  · exact below_mono r h.le ((compareField_pos_iff r ht hu).1 hpos)
  · have hraw : t.compareRawField type x = 0 := by
      by_contra hne
      rw [compareField, if_neg hne] at hzero
      exact hne hzero.symm
    have hxk := (compareRawField_iff r ht x).2.1 hraw
    have hlt : ((r.rank x : WithTop Q) : WithBot (WithTop Q)) < (r.rank y : WithTop Q) := by
      simpa using (r.neg_iff x y).1 h
    rw [(scale r).cut_mem_below_iff ht]
    left
    by_contra hle
    rcases (not_lt.1 hle).lt_or_eq with hneg | heq
    · exact absurd ((compareRawField_iff r ht y).1.1 hneg) (hxk ▸ not_lt.2 hlt.le)
    · exact absurd ((compareRawField_iff r ht y).2.1 heq) (hxk ▸ hlt.ne')

end FullScale

/-! ## Finding the range of a value -/

namespace ValueSet

open Scale FullScale

variable {α : Type*} {type : RtlTypeInfo α} {Q : Type*} [LinearOrder Q]
  {r : Rank type.compare Q} {ts : List (ValueTransition α)}

/-- What `findForwardMatchRange` finds out about a value: it is in range number `j`, or it is behind
the ranges before `j` and before the others. -/
def Locates (r : Rank type.compare Q) (ts : List (ValueTransition α)) (x : α)
    (found : Bool × ℕ) : Prop :=
  if found.1 then InRange (scale r) ts ((scale r).below x) found.2
  else found.2 ≤ numRanges ts ∧
    (∀ i (h : i * 2 + 1 < ts.length), i < found.2 →
      (scale r).cut ts[i * 2 + 1] ∈ (scale r).below x) ∧
    ∀ i (h : i * 2 < ts.length), found.2 ≤ i → (scale r).cut ts[i * 2] ∉ (scale r).below x

lemma length_eq_of_normal (hn : (scale r).Normal ts) : ts.length = numRanges ts * 2 := by
  obtain ⟨k, hk⟩ := hn.even
  unfold numRanges
  omega

/-- The last look at the range `low`, when the value is behind the lower bound of the range before
and before that of the range after. -/
lemma checkRange_spec (hn : (scale r).Normal ts) {x : α} {low : ℕ}
    (hlow : low ≤ numRanges ts)
    (hbefore : ∀ i (h : i * 2 + 1 < ts.length), i < low →
      (scale r).cut ts[i * 2 + 1] ∈ (scale r).below x)
    (hafter : ∀ i (h : i * 2 < ts.length), low < i →
      (scale r).cut ts[i * 2] ∉ (scale r).below x) :
    Locates r ts x (checkRange type ts x low) := by
  have hlen := length_eq_of_normal hn
  unfold checkRange
  rcases hlow.lt_or_eq with hlt | rfl
  · have hl : low * 2 < ts.length := by omega
    have hu : low * 2 + 1 < ts.length := by omega
    have hlower : ts[low * 2].isLowerBound = true := by
      simp [hn.alternates.isLowerBound_getElem hl]
    have hupper : ts[low * 2 + 1].isLowerBound = false := by
      simp [hn.alternates.isLowerBound_getElem hu]
    have hFl := hn.mem _ (List.getElem_mem hl)
    have hFu := hn.mem _ (List.getElem_mem hu)
    rw [List.getElem?_eq_getElem hl, List.getElem?_eq_getElem hu]
    by_cases hcl : 0 ≤ ts[low * 2].compareField type x
    · have hin : (scale r).cut ts[low * 2] ∈ (scale r).below x := by
        by_contra hcon
        exact absurd ((compareField_neg_iff r hFl hlower).2 hcon) (not_lt.2 hcl)
      simp only [if_pos hcl]
      by_cases hcu : ts[low * 2 + 1].compareField type x ≤ 0
      · rw [if_pos hcu]
        refine ⟨hu, hin, fun hcon => ?_⟩
        exact absurd ((compareField_pos_iff r hFu hupper).2 hcon) (not_lt.2 hcu)
      · rw [if_neg hcu]
        refine ⟨hlt, fun i h hi => ?_, fun i h hi => hafter i h hi⟩
        rcases (Nat.lt_succ_iff.1 hi).lt_or_eq with hi | rfl
        · exact hbefore i h hi
        · exact (compareField_pos_iff r hFu hupper).1 (not_le.1 hcu)
    · simp only [if_neg hcl]
      refine ⟨hlow, hbefore, fun i h hi => ?_⟩
      rcases hi.lt_or_eq with hi | rfl
      · exact hafter i h hi
      · exact (compareField_neg_iff r hFl hlower).1 (not_le.1 hcl)
  · rw [List.getElem?_eq_none (by omega)]
    refine ⟨le_rfl, hbefore, fun i h hi => ?_⟩
    change numRanges ts ≤ i at hi
    omega

/-- The binary chop keeps the value behind the lower bound of range `low`, unless it is the first,
and before that of range `high`. -/
structure Chopped (r : Rank type.compare Q) (ts : List (ValueTransition α)) (x : α)
    (low high : ℕ) : Prop where
  le : low ≤ high
  high_le : high ≤ numRanges ts
  before : low ≠ 0 → ∃ h : low * 2 < ts.length, (scale r).cut ts[low * 2] ∈ (scale r).below x
  after : ∀ i (h : i * 2 < ts.length), high ≤ i → (scale r).cut ts[i * 2] ∉ (scale r).below x

lemma Chopped.locates {x : α} {low high : ℕ} (h : Chopped r ts x low high)
    (hn : (scale r).Normal ts) (hsmall : high ≤ low + 1) :
    Locates r ts x (checkRange type ts x low) := by
  refine checkRange_spec hn (h.le.trans h.high_le) (fun i hi hlt => ?_)
    fun i hi hlt => h.after i hi (by omega)
  obtain ⟨hl, hin⟩ := h.before (by omega)
  exact ((scale r).below x).lower (hn.cut_le_cut (by omega) hl) hin

/-- A value equal to an inclusive lower bound is in the range of the bound. -/
lemma inRange_of_compareField (hn : (scale r).Normal ts) {x : α} {i : ℕ}
    (hi : i * 2 + 2 ≤ ts.length) (h : ts[i * 2].compareField type x = 0) :
    InRange (scale r) ts ((scale r).below x) i := by
  have hlower : ts[i * 2].isLowerBound = true := by
    simp [hn.alternates.isLowerBound_getElem (show i * 2 < ts.length by omega)]
  have hF := hn.mem _ (List.getElem_mem (show i * 2 < ts.length by omega))
  have hin : (scale r).cut ts[i * 2] ∈ (scale r).below x := by
    by_contra hcon
    have := (compareField_neg_iff r hF hlower).2 hcon
    omega
  have hraw : ts[i * 2].compareRawField type x = 0 := by
    by_contra hne
    rw [ValueTransition.compareField, if_neg hne] at h
    exact hne h
  have hhi := ((scale r).field_zero _ x hF hraw).2
  have hle := (scale_closed r).hi_le_cut hF (hn.mem _ (List.getElem_mem hi))
    (hn.cut_lt_cut (Nat.lt_succ_self _) hi)
  exact ⟨hi, hin, fun hcon => hhi (((scale r).below x).lower hle hcon)⟩

lemma findForwardLoop_spec (hn : (scale r).Normal ts) {x : α} {fuel low high : ℕ}
    (hfuel : high ≤ low + fuel + 1) (h : Chopped r ts x low high) :
    Locates r ts x (findForwardLoop type ts x fuel low high) := by
  have hlen := length_eq_of_normal hn
  induction fuel generalizing low high with
  | zero => exact h.locates hn (by omega)
  | succ fuel ih =>
    unfold findForwardLoop
    by_cases hlt : 1 < high - low
    · rw [if_pos hlt]
      set mid := low + (high - low) / 2 with hmid
      have hhigh := h.high_le
      have hm : mid * 2 < ts.length := by omega
      have hlower : ts[mid * 2].isLowerBound = true := by
        simp [hn.alternates.isLowerBound_getElem hm]
      have hF := hn.mem _ (List.getElem_mem hm)
      simp only [List.getElem?_eq_getElem hm]
      rcases lt_trichotomy (ts[mid * 2].compareField type x) 0 with hc | hc | hc
      · rw [if_pos hc]
        have hout := (compareField_neg_iff r hF hlower).1 hc
        refine ih (by omega) ⟨by omega, by omega, h.before, fun i hi hle hcon => ?_⟩
        exact hout (((scale r).below x).lower (hn.cut_le_cut (by omega) hi) hcon)
      · rw [if_neg (by omega), if_neg (by omega)]
        exact inRange_of_compareField hn (by omega) hc
      · rw [if_neg (by omega), if_pos hc]
        refine ih (by omega) ⟨by omega, hhigh, fun _ => ⟨hm, ?_⟩, h.after⟩
        by_contra hcon
        have := (compareField_neg_iff r hF hlower).2 hcon
        omega
    · rw [if_neg hlt]
      exact h.locates hn (by omega)

theorem findForwardMatchRange_spec (hn : (scale r).Normal ts) (x : α) :
    Locates r ts x (findForwardMatchRange type ts x) := by
  have hlen := length_eq_of_normal hn
  refine findForwardLoop_spec hn (by omega) ⟨Nat.zero_le _, le_rfl, fun h => absurd rfl h, ?_⟩
  intro i hi hle
  omega

end ValueSet

end HpccPlatform
