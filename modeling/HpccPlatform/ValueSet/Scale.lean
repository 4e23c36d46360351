import HpccPlatform.Library.CutList
import HpccPlatform.ValueSet.Operations

/-!
# The line of cuts behind a value set

Every bound of a value set is a place where membership changes.  A `Scale` puts the bounds of a
type on a linearly ordered line of cuts: the field values that a bound compares equal to lie
between its cuts `lo` and `hi`, and the bound itself is one of the two (`cut`), depending on which
side it is on and whether it is inclusive.  A field value is the set of cuts below it.

`Normal` is the documented form of a value set, alternating lower and upper bounds on strictly
increasing cuts: two neighbouring ranges neither overlap nor touch at a value that one of them
includes.  This file shows that `matches` computes membership for such a set.
-/

namespace HpccPlatform

/-- A line of cuts `C` for the bounds in `S`. -/
structure Scale {α : Type*} (type : RtlTypeInfo α) (S : ValueTransition α → Prop)
    (C : Type*) [LinearOrder C] where
  lo : ValueTransition α → C
  hi : ValueTransition α → C
  /-- the cuts below a field value -/
  below : α → LowerSet C
  lo_lt_hi : ∀ a, S a → lo a < hi a
  isUpperBound_eq : ∀ a, S a → a.isUpperBound = !a.isLowerBound
  cut_lt_of_neg : ∀ a b, S a → S b → a.compareRaw type b < 0 →
    (if a.isLowerBound = a.isInclusiveBound then lo a else hi a) <
      (if b.isLowerBound = b.isInclusiveBound then lo b else hi b)
  cut_lt_of_pos : ∀ a b, S a → S b → 0 < a.compareRaw type b →
    (if b.isLowerBound = b.isInclusiveBound then lo b else hi b) <
      (if a.isLowerBound = a.isInclusiveBound then lo a else hi a)
  eq_of_zero : ∀ a b, S a → S b → a.compareRaw type b = 0 → lo a = lo b ∧ hi a = hi b
  zero_of_eq : ∀ a b, S a → S b → lo a = lo b → a.compareRaw type b = 0
  /-- no bound lies among the values that an exclusive bound compares equal to -/
  exclusive : ∀ a b, S a → S b → a.isInclusiveBound = false →
    (if b.isLowerBound = b.isInclusiveBound then lo b else hi b) ≤ lo a ∨
      hi a ≤ (if b.isLowerBound = b.isInclusiveBound then lo b else hi b)
  field_neg : ∀ a x, S a → a.compareRawField type x < 0 → lo a ∉ below x
  field_zero : ∀ a x, S a → a.compareRawField type x = 0 → lo a ∈ below x ∧ hi a ∉ below x
  field_pos : ∀ a x, S a → 0 < a.compareRawField type x → hi a ∈ below x

namespace Scale

variable {α : Type*} {type : RtlTypeInfo α} {S : ValueTransition α → Prop} {C : Type*}
  [LinearOrder C] (sc : Scale type S C)

/-- The cut at which a bound stands. -/
def cut (a : ValueTransition α) : C :=
  if a.isLowerBound = a.isInclusiveBound then sc.lo a else sc.hi a

/-- The cuts of the transitions of a set. -/
def cuts (ts : List (ValueTransition α)) : List C := ts.map sc.cut

section Cut

variable {a b : ValueTransition α}

lemma cut_eq_lo (h : a.isLowerBound = a.isInclusiveBound) : sc.cut a = sc.lo a := if_pos h

lemma cut_eq_hi (h : a.isLowerBound = !a.isInclusiveBound) : sc.cut a = sc.hi a := by
  rw [cut, if_neg]
  simp [h]

lemma lo_le_cut (ha : S a) : sc.lo a ≤ sc.cut a := by
  rw [cut]
  split
  · exact le_rfl
  · exact (sc.lo_lt_hi a ha).le

lemma cut_le_hi (ha : S a) : sc.cut a ≤ sc.hi a := by
  rw [cut]
  split
  · exact (sc.lo_lt_hi a ha).le
  · exact le_rfl

lemma cut_lt_cut_of_neg (ha : S a) (hb : S b) (h : a.compareRaw type b < 0) :
    sc.cut a < sc.cut b := sc.cut_lt_of_neg a b ha hb h

lemma cut_lt_cut_of_pos (ha : S a) (hb : S b) (h : 0 < a.compareRaw type b) :
    sc.cut b < sc.cut a := sc.cut_lt_of_pos a b ha hb h

lemma cut_le_lo_or_hi_le_cut (ha : S a) (hb : S b) (h : a.isInclusiveBound = false) :
    sc.cut b ≤ sc.lo a ∨ sc.hi a ≤ sc.cut b := sc.exclusive a b ha hb h

/-- A lower bound that the field satisfies has its cut below the field. -/
lemma cut_mem_below_of_pos {x : α} (ha : S a) (h : 0 < a.compareRawField type x) :
    sc.cut a ∈ sc.below x :=
  (sc.below x).lower (sc.cut_le_hi ha) (sc.field_pos a x ha h)

lemma cut_notMem_below_of_neg {x : α} (ha : S a) (h : a.compareRawField type x < 0) :
    sc.cut a ∉ sc.below x := fun hcut =>
  sc.field_neg a x ha h ((sc.below x).lower (sc.lo_le_cut ha) hcut)

/-- A field is above the cut of a bound when it is above the values of the bound, or among them and
the cut is the first one. -/
lemma cut_mem_below_iff {x : α} (ha : S a) :
    sc.cut a ∈ sc.below x ↔ 0 < a.compareRawField type x ∨
      (a.compareRawField type x = 0 ∧ a.isLowerBound = a.isInclusiveBound) := by
  rcases lt_trichotomy (a.compareRawField type x) 0 with h | h | h
  · simp [sc.cut_notMem_below_of_neg ha h, not_lt.2 h.le, h.ne]
  · obtain ⟨hlo, hhi⟩ := sc.field_zero a x ha h
    rw [cut]
    split <;> simp_all
  · simp [sc.cut_mem_below_of_pos ha h, h]

end Cut

/-! ## The normal form -/

/-- The flags alternate, starting with a lower bound when `b` is true. -/
def Alternates : Bool → List (ValueTransition α) → Prop
  | _, [] => True
  | b, t :: ts => t.isLowerBound = b ∧ Alternates (!b) ts

lemma alternates_append {b : Bool} {ts us : List (ValueTransition α)} :
    Alternates b (ts ++ us) ↔
      Alternates b ts ∧ Alternates (b ^^ decide (Odd ts.length)) us := by
  induction ts generalizing b with
  | nil => simp [Alternates]
  | cons t ts ih =>
    rw [List.cons_append, Alternates, Alternates, ih, and_assoc, List.length_cons]
    rcases Nat.even_or_odd ts.length with h | h
    · simp [Nat.odd_add_one, Nat.not_odd_iff_even.2 h]
    · simp [Nat.odd_add_one, h]

/-- The documented form of the transitions of a value set. -/
structure Normal (ts : List (ValueTransition α)) : Prop where
  mem : ∀ t ∈ ts, S t
  sorted : (sc.cuts ts).Pairwise (· < ·)
  alternates : Alternates true ts
  even : Even ts.length

/-- Every field value that compares equal to an inclusive lower bound belongs to the set. -/
def Wide (ts : List (ValueTransition α)) : Prop :=
  ∀ a ∈ ts, a.isLowerBound = true → a.isInclusiveBound = true →
    ∀ D : LowerSet C, sc.lo a ∈ D → sc.hi a ∉ D → CutList.Inside D (sc.cuts ts)

/-- The field value belongs to the set. -/
def Member (ts : List (ValueTransition α)) (x : α) : Prop :=
  CutList.Inside (sc.below x) (sc.cuts ts)

section Normal

variable {sc} {ts us : List (ValueTransition α)}

@[simp] lemma cuts_nil : sc.cuts [] = [] := rfl

@[simp] lemma cuts_cons (t : ValueTransition α) : sc.cuts (t :: ts) = sc.cut t :: sc.cuts ts := rfl

@[simp] lemma cuts_append : sc.cuts (ts ++ us) = sc.cuts ts ++ sc.cuts us := List.map_append

@[simp] lemma length_cuts : (sc.cuts ts).length = ts.length := List.length_map _

lemma normal_nil : sc.Normal [] :=
  ⟨by simp, by simp, trivial, by simp⟩

/-- Positions are ordered as their cuts are. -/
lemma Normal.cut_lt_cut (h : sc.Normal ts) {i j : ℕ} (hij : i < j) (hj : j < ts.length) :
    sc.cut ts[i] < sc.cut ts[j] := by
  have := List.pairwise_iff_getElem.1 h.sorted i j (by rw [length_cuts]; omega)
    (by rw [length_cuts]; omega) hij
  simpa [cuts] using this

lemma Normal.cut_le_cut (h : sc.Normal ts) {i j : ℕ} (hij : i ≤ j) (hj : j < ts.length) :
    sc.cut ts[i] ≤ sc.cut ts[j] := by
  rcases Nat.lt_or_ge i j with hlt | hge
  · exact (h.cut_lt_cut hlt hj).le
  · obtain rfl : i = j := by omega
    exact le_rfl

/-- The transitions at even positions are the lower bounds. -/
lemma Alternates.isLowerBound_getElem {b : Bool} (h : Alternates b ts) {i : ℕ}
    (hi : i < ts.length) : ts[i].isLowerBound = (b ^^ decide (Odd i)) := by
  induction ts generalizing b i with
  | nil => simp at hi
  | cons t ts ih =>
    cases i with
    | zero => simpa using h.1
    | succ i =>
      rw [List.getElem_cons_succ, ih h.2 (by simpa using hi)]
      rcases Nat.even_or_odd i with hi | hi
      · simp [Nat.odd_add_one, Nat.not_odd_iff_even.2 hi]
      · simp [Nat.odd_add_one, hi]

/-- The point with the cuts `D` below it lies in range number `i`. -/
def InRange (sc : Scale type S C) (ts : List (ValueTransition α)) (D : LowerSet C) (i : ℕ) : Prop :=
  ∃ _ : i * 2 + 1 < ts.length, sc.cut ts[i * 2] ∈ D ∧ sc.cut ts[i * 2 + 1] ∉ D

/-- Membership is membership in one of the ranges. -/
lemma inside_cuts_iff (hs : (sc.cuts ts).Pairwise (· < ·)) (he : Even ts.length)
    (D : LowerSet C) : CutList.Inside D (sc.cuts ts) ↔ ∃ i, InRange sc ts D i := by
  induction ts using List.twoStepInduction with
  | nil => simp [InRange]
  | singleton t => simp at he
  | cons_cons l u ts ih _ =>
    rw [cuts_cons, cuts_cons] at hs
    have hs' : (sc.cuts ts).Pairwise (· < ·) := by
      simp only [List.pairwise_cons] at hs
      exact hs.2.2
    have he' : Even ts.length := by
      simpa [Nat.even_add_one] using he
    rw [cuts_cons, cuts_cons, CutList.inside_cons_cons hs, ih hs' he']
    constructor
    · rintro (⟨hl, hu⟩ | ⟨i, hi, h⟩)
      · exact ⟨0, by simp, hl, hu⟩
      · refine ⟨i + 1, by simp; omega, ?_⟩
        simpa [Nat.add_mul] using h
    · rintro ⟨i, hi, h⟩
      cases i with
      | zero => exact Or.inl h
      | succ i =>
        refine Or.inr ⟨i, by simp at hi; omega, ?_⟩
        simpa [Nat.add_mul] using h

/-- In a set in normal form no range ends among the values of its inclusive lower bound. -/
lemma Normal.hi_le_cut (hn : sc.Normal ts) (hw : sc.Wide ts) {i : ℕ} (hi : i + 1 < ts.length)
    (hlower : ts[i].isLowerBound = true) (hinc : ts[i].isInclusiveBound = true) :
    sc.hi ts[i] ≤ sc.cut ts[i + 1] := by
  by_contra hlt
  have hD := hw ts[i] (List.getElem_mem _) hlower hinc (LowerSet.Iic (sc.cut ts[i + 1]))
    ((sc.lo_le_cut (hn.mem _ (List.getElem_mem _))).trans
      (hn.cut_lt_cut (Nat.lt_succ_self i) hi).le) hlt
  obtain ⟨k, hk, hl, hu⟩ := (inside_cuts_iff hn.sorted hn.even _).1 hD
  rw [LowerSet.mem_Iic_iff] at hl hu
  -- the range that contains the cut would have to start at the upper bound `i + 1`
  have h₁ : k * 2 ≤ i + 1 := by
    by_contra h
    exact absurd hl (not_le.2 (hn.cut_lt_cut (by omega) (by omega)))
  have h₂ : i + 1 ≤ k * 2 := by
    by_contra h
    exact hu (hn.cut_le_cut (by omega) (by omega))
  have hodd : ¬ Odd i := by simpa [hn.alternates.isLowerBound_getElem] using hlower
  exact hodd ⟨k - 1, by omega⟩

variable {D : LowerSet C} {i j : ℕ}

/-- A range whose lower bound is above the point comes after the range of the point. -/
lemma InRange.lt_of_notMem (h : InRange sc ts D i) (hn : sc.Normal ts) (hj : j * 2 < ts.length)
    (hcut : sc.cut ts[j * 2] ∉ D) : i < j := by
  obtain ⟨hi, hl, -⟩ := h
  by_contra hge
  exact hcut (D.lower (hn.cut_le_cut (by omega) (by omega)) hl)

/-- A range whose upper bound is below the point comes before the range of the point. -/
lemma InRange.lt_of_mem (h : InRange sc ts D i) (hn : sc.Normal ts)
    (hj : j * 2 + 1 < ts.length) (hcut : sc.cut ts[j * 2 + 1] ∈ D) : j < i := by
  obtain ⟨hi, -, hu⟩ := h
  by_contra hge
  exact hu (D.lower (hn.cut_le_cut (by omega) hj) hcut)

/-- The values that compare equal to an exclusive lower bound belong to no range. -/
lemma Normal.not_inRange_of_lower (hn : sc.Normal ts) (hj : j * 2 < ts.length)
    (hlower : ts[j * 2].isLowerBound = true) (hinc : ts[j * 2].isInclusiveBound = false)
    (hlo : sc.lo ts[j * 2] ∈ D) (hhi : sc.hi ts[j * 2] ∉ D) : ¬ InRange sc ts D i := by
  intro h
  have hcut : sc.cut ts[j * 2] = sc.hi ts[j * 2] := sc.cut_eq_hi (by simp [hlower, hinc])
  have hbefore : i < j := h.lt_of_notMem hn hj (hcut ▸ hhi)
  obtain ⟨hi, -, hu⟩ := h
  have hlt := hn.cut_lt_cut (i := i * 2 + 1) (j := j * 2) (by omega) hj
  rcases sc.cut_le_lo_or_hi_le_cut (hn.mem _ (List.getElem_mem hj))
    (hn.mem _ (List.getElem_mem hi)) hinc with h | h
  · exact hu (D.lower h hlo)
  · exact absurd (hcut ▸ hlt) (not_lt.2 h)

/-- The values that compare equal to an exclusive upper bound belong to no range. -/
lemma Normal.not_inRange_of_upper (hn : sc.Normal ts) (hj : j * 2 + 1 < ts.length)
    (hupper : ts[j * 2 + 1].isLowerBound = false)
    (hinc : ts[j * 2 + 1].isInclusiveBound = false)
    (hlo : sc.lo ts[j * 2 + 1] ∈ D) (hhi : sc.hi ts[j * 2 + 1] ∉ D) : ¬ InRange sc ts D i := by
  intro h
  have hcut : sc.cut ts[j * 2 + 1] = sc.lo ts[j * 2 + 1] := sc.cut_eq_lo (by simp [hupper, hinc])
  have hafter : j < i := h.lt_of_mem hn hj (hcut ▸ hlo)
  obtain ⟨hi, hl, -⟩ := h
  have hlt := hn.cut_lt_cut (i := j * 2 + 1) (j := i * 2) (by omega) (by omega)
  rcases sc.cut_le_lo_or_hi_le_cut (hn.mem _ (List.getElem_mem hj))
    (hn.mem _ (List.getElem_mem (by omega : i * 2 < ts.length))) hinc with h | h
  · exact absurd (hcut ▸ hlt) (not_lt.2 h)
  · exact hhi (D.lower h hl)

end Normal

end Scale

/-! ## Looking a field value up -/

namespace ValueSet

open Scale

variable {α : Type*} {type : RtlTypeInfo α} {S : ValueTransition α → Prop} {C : Type*}
  [LinearOrder C] {sc : Scale type S C} {ts : List (ValueTransition α)}

/-- The loop answers membership, given that only the ranges of `[low, high)` can contain the
field. -/
lemma matchesLoop_iff (hn : sc.Normal ts) (hw : sc.Wide ts) (x : α) {fuel low high : ℕ}
    (hfuel : high - low ≤ fuel) (hhigh : high ≤ numRanges ts)
    (hrange : ∀ i, InRange sc ts (sc.below x) i → low ≤ i ∧ i < high) :
    matchesLoop type ts x fuel low high = true ↔ sc.Member ts x := by
  have hmem : sc.Member ts x ↔ ∃ i, InRange sc ts (sc.below x) i :=
    inside_cuts_iff hn.sorted hn.even (sc.below x)
  induction fuel generalizing low high with
  | zero =>
    rw [hmem]
    simp only [matchesLoop, Bool.false_eq_true, false_iff]
    rintro ⟨i, hi⟩
    have := hrange i hi
    omega
  | succ fuel ih =>
    rw [matchesLoop]
    by_cases hlt : low < high
    swap
    · simp only [if_neg hlt, Bool.false_eq_true, false_iff, hmem]
      rintro ⟨i, hi⟩
      have := hrange i hi
      omega
    set mid := low + (high - low) / 2 with hmid
    have hup : mid * 2 + 1 < ts.length := by
      rw [numRanges] at hhigh
      obtain ⟨k, hk⟩ := hn.even
      omega
    have hlo : mid * 2 < ts.length := by omega
    have hSl : S ts[mid * 2] := hn.mem _ (List.getElem_mem _)
    have hSu : S ts[mid * 2 + 1] := hn.mem _ (List.getElem_mem _)
    have hlower : ts[mid * 2].isLowerBound = true := by
      simp [hn.alternates.isLowerBound_getElem hlo]
    have hupper : ts[mid * 2 + 1].isLowerBound = false := by
      simp [hn.alternates.isLowerBound_getElem hup]
    simp only [if_pos hlt, List.getElem?_eq_getElem hlo, List.getElem?_eq_getElem hup]
    rcases lt_trichotomy (ts[mid * 2].compareRawField type x) 0 with hrc | hrc | hrc
    · -- below the lower bound: only earlier ranges remain
      rw [if_pos hrc]
      exact ih (by omega) (by omega) fun i hi =>
        ⟨(hrange i hi).1, hi.lt_of_notMem hn hlo (sc.cut_notMem_below_of_neg hSl hrc)⟩
    · -- equal to the lower bound: its inclusiveness decides
      rw [if_neg (by omega), if_pos hrc]
      obtain ⟨hloD, hhiD⟩ := sc.field_zero _ x hSl hrc
      cases hinc : ts[mid * 2].isInclusiveBound with
      | true =>
        simp only [true_iff]
        exact hw _ (List.getElem_mem _) hlower hinc _ hloD hhiD
      | false =>
        simp only [Bool.false_eq_true, false_iff, hmem, not_exists]
        exact fun i => hn.not_inRange_of_lower hlo hlower hinc hloD hhiD
    · -- above the lower bound: the upper bound decides, or a later range does
      rw [if_neg (by omega), if_neg (by omega)]
      have hlD := sc.cut_mem_below_of_pos hSl hrc
      rcases lt_trichotomy (ts[mid * 2 + 1].compareRawField type x) 0 with hru | hru | hru
      · rw [if_pos hru, hmem]
        simp only [true_iff]
        exact ⟨mid, hup, hlD, sc.cut_notMem_below_of_neg hSu hru⟩
      · rw [if_neg (by omega), if_pos hru, hmem]
        obtain ⟨hloD, hhiD⟩ := sc.field_zero _ x hSu hru
        cases hinc : ts[mid * 2 + 1].isInclusiveBound with
        | true =>
          have hcut : sc.cut ts[mid * 2 + 1] = sc.hi ts[mid * 2 + 1] :=
            sc.cut_eq_hi (by simp [hupper, hinc])
          simp only [true_iff]
          exact ⟨mid, hup, hlD, hcut ▸ hhiD⟩
        | false =>
          simp only [Bool.false_eq_true, false_iff, not_exists]
          exact fun i => hn.not_inRange_of_upper hup hupper hinc hloD hhiD
      · rw [if_neg (by omega), if_neg (by omega)]
        exact ih (by omega) (by omega) fun i hi =>
          ⟨hi.lt_of_mem hn hup (sc.cut_mem_below_of_pos hSu hru), (hrange i hi).2⟩

/-- `matches` computes membership of a set in normal form. -/
theorem matchesField_iff (hn : sc.Normal ts) (hw : sc.Wide ts) (x : α) :
    matchesField type ts x = true ↔ sc.Member ts x := by
  refine matchesLoop_iff hn hw x (by omega) le_rfl fun i hi => ⟨Nat.zero_le i, ?_⟩
  obtain ⟨hi, -⟩ := hi
  rw [numRanges]
  omega

end ValueSet

end HpccPlatform
