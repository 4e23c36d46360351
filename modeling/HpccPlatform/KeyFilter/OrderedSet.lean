import HpccPlatform.KeyFilter.BoundRanks

/-!
# The ranges of a value set as intervals

The ranges of a set in order are disjoint intervals of numbers, from the cut of the lower bound up to
that of the upper bound.  The binary chops of `matches` and `findForwardMatchRange` look at the
values that a bound compares equal to; they find the interval of a number when these do not reach
out of the range of the bound (`Unnested`).  A lower bound with a sub-length may have them behind its
upper bound, as in a range from 'a', in the first character, to 'ab'.
-/

namespace HpccPlatform

namespace BoundRanks

open ValueSet

variable {k : ℕ}

/-- The bounds of a set, lower and upper ones in turn, one before the other. -/
structure InOrder (type : RtlTypeInfo (FixedBytes k))
    (ts : List (ValueTransition (FixedBytes k))) : Prop where
  bound : ∀ t ∈ ts, IsBound t
  alternates : Scale.Alternates true ts
  even : Even ts.length
  sorted : ts.Pairwise (Before type)

/-- The number is in a range of the set. -/
def Within (ts : List (ValueTransition (FixedBytes k))) (n r : ℕ) : Prop :=
  ∃ h : r * 2 + 2 ≤ ts.length, cut ts[r * 2] ≤ n ∧ n < cut ts[r * 2 + 1]

def Member (ts : List (ValueTransition (FixedBytes k))) (n : ℕ) : Prop := ∃ r, Within ts n r

/-- The values that a lower bound compares equal to are in its range, or before the next lower
bounds when they are excluded; those excluded by the last upper bound are behind the other ranges. -/
structure Unnested (ts : List (ValueTransition (FixedBytes k))) : Prop where
  inclusive_lower : ∀ r (h : r * 2 + 1 < ts.length), ts[r * 2].isInclusiveBound = true →
    hi ts[r * 2] ≤ cut ts[r * 2 + 1]
  exclusive_lower : ∀ r j (h : j * 2 < ts.length) (_ : r < j),
    ts[r * 2].isInclusiveBound = false → hi ts[r * 2] ≤ cut ts[j * 2]
  exclusive_upper : ∀ i j (h : j * 2 + 1 < ts.length) (_ : i < j), j + 1 = numRanges ts →
    ts[j * 2 + 1].isInclusiveBound = false → cut ts[i * 2 + 1] ≤ lo ts[j * 2 + 1]

section InOrder

variable {type : PrefixOrdered k} {ts : List (ValueTransition (FixedBytes k))} {i j n r : ℕ}

theorem InOrder.length_eq (h : InOrder type.toRtlTypeInfo ts) : ts.length = numRanges ts * 2 :=
  (Nat.div_mul_cancel h.even.two_dvd).symm

theorem InOrder.lt_numRanges (h : InOrder type.toRtlTypeInfo ts) (hr : r * 2 < ts.length) :
    r < numRanges ts := by
  rw [h.length_eq] at hr
  exact Nat.lt_of_mul_lt_mul_right hr

theorem InOrder.upper_lt (h : InOrder type.toRtlTypeInfo ts) (hr : r < numRanges ts) :
    r * 2 + 1 < ts.length := by
  rw [h.length_eq]
  omega

theorem InOrder.bound_getElem (h : InOrder type.toRtlTypeInfo ts) (hi : i < ts.length) :
    IsBound ts[i] := h.bound _ (List.getElem_mem hi)

theorem InOrder.lower (h : InOrder type.toRtlTypeInfo ts) (hr : r * 2 < ts.length) :
    ts[r * 2].isLowerBound = true := by
  rw [h.alternates.isLowerBound_getElem hr, decide_eq_false (Nat.not_odd_iff_even.mpr ⟨r, by ring⟩)]
  rfl

theorem InOrder.upper (h : InOrder type.toRtlTypeInfo ts) (hr : r * 2 + 1 < ts.length) :
    ts[r * 2 + 1].isLowerBound = false := by
  rw [h.alternates.isLowerBound_getElem hr, decide_eq_true ⟨r, by ring⟩]
  rfl

/-- A range ends before the next ranges begin. -/
theorem InOrder.hi_le_cut (h : InOrder type.toRtlTypeInfo ts) (hij : i < j)
    (hj : j * 2 < ts.length) :
    hi ts[i * 2 + 1] ≤ cut ts[j * 2] ∧ cut ts[i * 2 + 1] ≤ lo ts[j * 2] := by
  have hi : i * 2 + 1 < ts.length := by omega
  have hbefore := List.pairwise_iff_getElem.mp h.sorted (i * 2 + 1) (j * 2) hi hj (by omega)
  exact (h.bound_getElem hi).hi_le_cut (h.bound_getElem hj) (h.upper hi) (h.lower hj) hbefore

theorem InOrder.lo_le_lo (h : InOrder type.toRtlTypeInfo ts) (hij : i ≤ j)
    (hj : j * 2 < ts.length) : lo ts[i * 2] ≤ lo ts[j * 2] := by
  rcases hij.eq_or_lt with rfl | hlt
  · exact le_rfl
  · have hi : i * 2 < ts.length := by omega
    have hbefore := List.pairwise_iff_getElem.mp h.sorted (i * 2) (j * 2) hi hj (by omega)
    exact (h.bound_getElem hi).lo_le_lo (h.bound_getElem hj) (h.lower hi) (h.lower hj) hbefore

theorem InOrder.cut_le_cut (h : InOrder type.toRtlTypeInfo ts) (hn : Unnested ts) (hij : i ≤ j)
    (hj : j * 2 < ts.length) : cut ts[i * 2] ≤ cut ts[j * 2] := by
  rcases hij.eq_or_lt with rfl | hlt
  · exact le_rfl
  · have hi : i * 2 < ts.length := by omega
    cases hincl : ts[i * 2].isInclusiveBound with
    | true =>
      rw [cut_eq_lo ((h.lower hi).trans hincl.symm)]
      exact (h.lo_le_lo hij hj).trans (lo_le_cut _)
    | false => exact (cut_le_hi _).trans (hn.exclusive_lower i j hj hlt hincl)

/-- A number behind the end of a range is not in an earlier one. -/
theorem InOrder.cut_le_of_lo_le (h : InOrder type.toRtlTypeInfo ts) (hj : j * 2 < ts.length)
    (hn : lo ts[j * 2] ≤ n) (hij : i < j) : ¬Within ts n i := by
  rintro ⟨_, _, hlt⟩
  exact absurd hlt (Nat.not_lt.mpr ((h.hi_le_cut hij hj).2.trans hn))

/-! ### `matches` -/

theorem InOrder.matchesLoop_iff (h : InOrder type.toRtlTypeInfo ts) (hn : Unnested ts)
    (x : FixedBytes k) {fuel low high : ℕ} (hfuel : high - low ≤ fuel)
    (hhigh : high ≤ numRanges ts) (hrange : ∀ r, Within ts x.rank r → low ≤ r ∧ r < high) :
    matchesLoop type.toRtlTypeInfo ts x fuel low high = true ↔ Member ts x.rank := by
  induction fuel generalizing low high with
  | zero =>
    refine iff_of_false Bool.false_ne_true ?_
    rintro ⟨r, hr⟩
    have hbetween := hrange r hr
    omega
  | succ fuel ih =>
    unfold matchesLoop
    by_cases hlt : low < high
    · have hmidlt : low + (high - low) / 2 < high := by omega
      have hmidge : low ≤ low + (high - low) / 2 := Nat.le_add_right _ _
      rw [if_pos hlt]
      generalize low + (high - low) / 2 = mid at hmidlt hmidge ⊢
      have hup := h.upper_lt (hmidlt.trans_le hhigh)
      have hlo : mid * 2 < ts.length := (Nat.lt_succ_self _).trans hup
      have hbl := h.bound_getElem hlo
      have hbu := h.bound_getElem hup
      have hlneg := @IsBound.compareRawField_neg_iff k type _ hbl x
      have hlzero := @IsBound.compareRawField_zero_iff k type _ hbl x
      have hlpos := @IsBound.compareRawField_pos_iff k type _ hbl x
      have huneg := @IsBound.compareRawField_neg_iff k type _ hbu x
      have huzero := @IsBound.compareRawField_zero_iff k type _ hbu x
      have hupos := @IsBound.compareRawField_pos_iff k type _ hbu x
      dsimp only
      rw [List.getElem?_eq_getElem hlo, List.getElem?_eq_getElem hup]
      dsimp only
      rcases lt_trichotomy (ts[mid * 2].compareRawField type.toRtlTypeInfo x) 0 with hrc | hrc | hrc
      · -- below the lower bound: only earlier ranges remain
        rw [if_pos hrc]
        refine ih (by omega) (hmidlt.le.trans hhigh) (fun r hr => ⟨(hrange r hr).1, ?_⟩)
        by_contra hge
        obtain ⟨hrup, hrl, _⟩ := hr
        have hle := h.lo_le_lo (Nat.not_lt.mp hge) ((Nat.lt_succ_self _).trans hrup)
        exact absurd (hlneg.mp hrc) (Nat.not_lt.mpr (hle.trans ((lo_le_cut _).trans hrl)))
      · -- equal to the lower bound: its inclusiveness decides
        rw [if_neg hrc.not_lt, if_pos hrc]
        obtain ⟨hge, hlt⟩ := hlzero.mp hrc
        cases hincl : ts[mid * 2].isInclusiveBound with
        | true =>
          refine iff_of_true rfl ⟨mid, hup, ?_, hlt.trans_le (hn.inclusive_lower mid hup hincl)⟩
          rw [cut_eq_lo ((h.lower hlo).trans hincl.symm)]
          exact hge
        | false =>
          refine iff_of_false Bool.false_ne_true ?_
          rintro ⟨r, hr⟩
          rcases Nat.lt_or_ge r mid with hlow | hhigh
          · exact h.cut_le_of_lo_le hlo hge hlow hr
          · obtain ⟨hrup, hrl, _⟩ := hr
            have hcut := h.cut_le_cut hn hhigh ((Nat.lt_succ_self _).trans hrup)
            rw [cut_eq_hi (by rw [h.lower hlo, hincl]; exact Bool.true_eq_false_eq_False)] at hcut
            exact absurd hlt (Nat.not_lt.mpr (hcut.trans hrl))
      · -- above the lower bound: the upper bound decides, or a later range does
        rw [if_neg hrc.not_gt, if_neg hrc.ne']
        have hgel := hlpos.mp hrc
        have hearlier : ∀ r, Within ts x.rank r → mid ≤ r := fun r hr =>
          Nat.not_lt.mp (fun hlow =>
            h.cut_le_of_lo_le hlo ((lo_le_hi _).trans hgel) hlow hr)
        rcases lt_trichotomy (ts[mid * 2 + 1].compareRawField type.toRtlTypeInfo x) 0 with
          hru | hru | hru
        · rw [if_pos hru]
          exact iff_of_true rfl ⟨mid, hup, (cut_le_hi _).trans hgel,
            (huneg.mp hru).trans_le (lo_le_cut _)⟩
        · rw [if_neg hru.not_lt, if_pos hru]
          obtain ⟨hge, hlt⟩ := huzero.mp hru
          cases hincl : ts[mid * 2 + 1].isInclusiveBound with
          | true =>
            refine iff_of_true rfl ⟨mid, hup, (cut_le_hi _).trans hgel, ?_⟩
            rw [cut_eq_hi (by rw [h.upper hup, hincl]; exact Bool.false_ne_true)]
            exact hlt
          | false =>
            refine iff_of_false Bool.false_ne_true ?_
            rintro ⟨r, hr⟩
            rcases (hearlier r hr).eq_or_lt with rfl | hlater
            · obtain ⟨_, _, hru⟩ := hr
              rw [cut_eq_lo ((h.upper hup).trans hincl.symm)] at hru
              exact absurd hru (Nat.not_lt.mpr hge)
            · obtain ⟨hrup, hrl, _⟩ := hr
              have hcut := (h.hi_le_cut hlater ((Nat.lt_succ_self _).trans hrup)).1
              exact absurd hlt (Nat.not_lt.mpr (hcut.trans hrl))
        · rw [if_neg hru.not_gt, if_neg hru.ne']
          refine ih (by omega) hhigh (fun r hr => ⟨?_, (hrange r hr).2⟩)
          rcases (hearlier r hr).eq_or_lt with rfl | hlater
          · obtain ⟨_, _, hlt⟩ := hr
            exact absurd hlt (Nat.not_lt.mpr ((cut_le_hi _).trans (hupos.mp hru)))
          · exact hlater
    · rw [if_neg hlt]
      refine iff_of_false Bool.false_ne_true ?_
      rintro ⟨r, hr⟩
      have hbetween := hrange r hr
      omega

/-- `matches` finds out whether a value is in a range. -/
theorem InOrder.matchesField_iff (h : InOrder type.toRtlTypeInfo ts) (hn : Unnested ts)
    (x : FixedBytes k) :
    matchesField type.toRtlTypeInfo ts x = true ↔ Member ts x.rank := by
  refine h.matchesLoop_iff hn x (Nat.sub_le _ _) le_rfl (fun r hr => ⟨Nat.zero_le r, ?_⟩)
  obtain ⟨hup, _, _⟩ := hr
  exact h.lt_numRanges ((Nat.lt_succ_self _).trans hup)

/-! ### `findForwardMatchRange` -/

/-- The range of a number, or the first range that begins behind it. -/
def Locates (ts : List (ValueTransition (FixedBytes k))) (n : ℕ) (found : Bool × ℕ) : Prop :=
  if found.1 then Within ts n found.2
  else found.2 ≤ numRanges ts ∧
    (∀ r (h : r * 2 + 2 ≤ ts.length), r < found.2 →
      cut ts[r * 2] ≤ n ∧ cut ts[r * 2 + 1] ≤ n) ∧
    ∀ r (h : r * 2 < ts.length), found.2 ≤ r → n < cut ts[r * 2]

/-- The binary chop keeps the number behind the lower bound of range `low`, unless it is the first,
and before that of range `high`. -/
structure Chopped (ts : List (ValueTransition (FixedBytes k))) (n low high : ℕ) : Prop where
  le : low ≤ high
  high_le : high ≤ numRanges ts
  before : low ≠ 0 → ∃ h : low * 2 < ts.length, cut ts[low * 2] ≤ n
  after : ∀ r (h : r * 2 < ts.length), high ≤ r → n < cut ts[r * 2]

theorem InOrder.checkRange_spec (h : InOrder type.toRtlTypeInfo ts) (hn : Unnested ts)
    (x : FixedBytes k) {low high : ℕ} (hchop : Chopped ts x.rank low high) (hsmall : high ≤ low + 1) :
    Locates ts x.rank (checkRange type.toRtlTypeInfo ts x low) := by
  have hbefore : ∀ r (hr : r * 2 + 1 < ts.length), r < low →
      cut ts[r * 2] ≤ x.rank ∧ cut ts[r * 2 + 1] ≤ x.rank := by
    intro r hr hlow
    obtain ⟨hl, hin⟩ := hchop.before (Nat.ne_zero_of_lt hlow)
    exact ⟨(h.cut_le_cut hn hlow.le hl).trans hin,
      (h.hi_le_cut hlow hl).2.trans ((lo_le_cut _).trans hin)⟩
  unfold checkRange
  rcases (hchop.le.trans hchop.high_le).eq_or_lt with heq | hlt
  · have hlen := h.length_eq
    rw [List.getElem?_eq_none (by omega)]
    refine ⟨heq.le, hbefore, fun r hr hle => ?_⟩
    exact absurd (h.lt_numRanges hr) (Nat.not_lt.mpr (heq.symm.le.trans hle))
  · have hup := h.upper_lt hlt
    have hlo : low * 2 < ts.length := (Nat.lt_succ_self _).trans hup
    have hlneg := @IsBound.compareField_neg_iff k type _ (h.bound_getElem hlo) (h.lower hlo) x
    have hupos := @IsBound.compareField_pos_iff k type _ (h.bound_getElem hup) (h.upper hup) x
    rw [List.getElem?_eq_getElem hlo, List.getElem?_eq_getElem hup]
    dsimp only
    by_cases hcl : 0 ≤ ts[low * 2].compareField type.toRtlTypeInfo x
    · have hin : cut ts[low * 2] ≤ x.rank := Nat.not_lt.mp (fun hc => hcl.not_gt (hlneg.mpr hc))
      rw [if_pos hcl]
      by_cases hcu : ts[low * 2 + 1].compareField type.toRtlTypeInfo x ≤ 0
      · rw [if_pos hcu]
        exact ⟨hup, hin, Nat.not_le.mp (fun hc => hcu.not_gt (hupos.mpr hc))⟩
      · rw [if_neg hcu]
        refine ⟨hlt, fun r hr hle => ?_, fun r hr hle => hchop.after r hr (hsmall.trans hle)⟩
        rcases (Nat.lt_succ_iff.mp hle).eq_or_lt with rfl | hlow
        · exact ⟨hin, hupos.mp (not_le.mp hcu)⟩
        · exact hbefore r hr hlow
    · rw [if_neg hcl]
      refine ⟨hlt.le, hbefore, fun r hr hle => ?_⟩
      rcases hle.eq_or_lt with rfl | hlater
      · exact hlneg.mp (not_le.mp hcl)
      · exact hchop.after r hr (hsmall.trans hlater)

theorem InOrder.findForwardLoop_spec (h : InOrder type.toRtlTypeInfo ts) (hn : Unnested ts)
    (x : FixedBytes k) {fuel low high : ℕ} (hfuel : high ≤ low + fuel + 1)
    (hchop : Chopped ts x.rank low high) :
    Locates ts x.rank (findForwardLoop type.toRtlTypeInfo ts x fuel low high) := by
  induction fuel generalizing low high with
  | zero => exact h.checkRange_spec hn x hchop hfuel
  | succ fuel ih =>
    unfold findForwardLoop
    by_cases hlt : 1 < high - low
    · have hmidlt : low + (high - low) / 2 < high := by omega
      have hmidgt : low < low + (high - low) / 2 := by omega
      have hhalf : high ≤ low + (high - low) / 2 + fuel + 1 := by omega
      rw [if_pos hlt]
      dsimp only
      generalize low + (high - low) / 2 = mid at hmidlt hmidgt hhalf ⊢
      have hup := h.upper_lt (hmidlt.trans_le hchop.high_le)
      have hlo : mid * 2 < ts.length := (Nat.lt_succ_self _).trans hup
      have hneg := @IsBound.compareField_neg_iff k type _ (h.bound_getElem hlo) (h.lower hlo) x
      rw [List.getElem?_eq_getElem hlo]
      dsimp only
      rcases lt_trichotomy (ts[mid * 2].compareField type.toRtlTypeInfo x) 0 with hc | hc | hc
      · rw [if_pos hc]
        refine ih (by omega) ⟨hmidgt.le, hmidlt.le.trans hchop.high_le, hchop.before, ?_⟩
        exact fun r hr hle => (hneg.mp hc).trans_le (h.cut_le_cut hn hle hr)
      · -- equal to an inclusive lower bound: in its range
        rw [if_neg hc.not_lt, if_neg hc.not_gt]
        obtain ⟨hincl, hge, hlt⟩ :=
          @IsBound.of_compareField_zero k type _ x (h.bound_getElem hlo) (h.lower hlo) hc
        refine ⟨hup, ?_, hlt.trans_le (hn.inclusive_lower mid hup hincl)⟩
        rw [cut_eq_lo ((h.lower hlo).trans hincl.symm)]
        exact hge
      · rw [if_neg hc.not_gt, if_pos hc]
        refine ih hhalf ⟨hmidlt.le, hchop.high_le, fun _ => ⟨hlo, ?_⟩, hchop.after⟩
        exact Nat.not_lt.mp (fun hcut => hc.not_gt (hneg.mpr hcut))
    · rw [if_neg hlt]
      exact h.checkRange_spec hn x hchop (by omega)

theorem InOrder.findForwardMatchRange_spec (h : InOrder type.toRtlTypeInfo ts) (hn : Unnested ts)
    (x : FixedBytes k) :
    Locates ts x.rank (findForwardMatchRange type.toRtlTypeInfo ts x) := by
  refine h.findForwardLoop_spec hn x (by omega)
    ⟨Nat.zero_le _, le_rfl, fun hc => absurd rfl hc, fun r hr hle => ?_⟩
  exact absurd (h.lt_numRanges hr) (Nat.not_lt.mpr hle)

/-! ### The ranges around a number -/

/-- The ranges have no numbers in common. -/
theorem InOrder.within_unique (h : InOrder type.toRtlTypeInfo ts) (hi : Within ts n i)
    (hj : Within ts n j) : i = j := by
  by_contra hne
  rcases Nat.lt_or_gt_of_ne hne with hlt | hgt
  · obtain ⟨hjup, hjl, _⟩ := hj
    exact h.cut_le_of_lo_le ((Nat.lt_succ_self _).trans hjup) ((lo_le_cut _).trans hjl) hlt hi
  · obtain ⟨hiup, hil, _⟩ := hi
    exact h.cut_le_of_lo_le ((Nat.lt_succ_self _).trans hiup) ((lo_le_cut _).trans hil) hgt hj

/-- When a number is in no range, the numbers of the set behind it are behind the lower bound that
was found. -/
theorem InOrder.cut_le_of_locates (h : InOrder type.toRtlTypeInfo ts) (hn : Unnested ts) {q : ℕ}
    (hloc : Locates ts n (false, r)) (hq : Member ts q) (hle : n ≤ q) :
    ∃ hr : r * 2 + 1 < ts.length, cut ts[r * 2] ≤ q := by
  obtain ⟨i, hup, hl, hu⟩ := hq
  obtain ⟨-, hbefore, -⟩ := hloc
  have hri : r ≤ i := Nat.not_lt.mp (fun hlt =>
    absurd hu (Nat.not_lt.mpr ((hbefore i hup hlt).2.trans hle)))
  exact ⟨by omega, (h.cut_le_cut hn hri ((Nat.lt_succ_self _).trans hup)).trans hl⟩

theorem Locates.not_member (hloc : Locates ts n (false, r)) : ¬Member ts n := by
  rintro ⟨i, hup, hl, hu⟩
  obtain ⟨-, hbefore, hafter⟩ := hloc
  rcases Nat.lt_or_ge i r with hlt | hge
  · exact absurd hu (Nat.not_lt.mpr (hbefore i hup hlt).2)
  · exact absurd hl (Nat.not_le.mpr (hafter i ((Nat.lt_succ_self _).trans hup) hge))

/-- The numbers of a set are not before its first bound. -/
theorem InOrder.first_cut_le (h : InOrder type.toRtlTypeInfo ts) (hn : Unnested ts) {q : ℕ}
    (hq : Member ts q) (hlen : 0 * 2 < ts.length) : cut ts[0 * 2] ≤ q := by
  obtain ⟨i, hup, hl, _⟩ := hq
  exact (h.cut_le_cut hn (Nat.zero_le i) ((Nat.lt_succ_self _).trans hup)).trans hl

/-- The numbers of a set are before its last bound. -/
theorem InOrder.lt_last_cut (h : InOrder type.toRtlTypeInfo ts) (hn : Unnested ts) {q : ℕ}
    (hq : Member ts q) (hr : r + 1 = numRanges ts) (hlen : r * 2 + 1 < ts.length) :
    q < cut ts[r * 2 + 1] := by
  obtain ⟨i, hup, _, hu⟩ := hq
  have hi := h.lt_numRanges ((Nat.lt_succ_self _).trans hup)
  refine hu.trans_le ?_
  rcases (Nat.lt_succ_iff.mp (hi.trans_eq hr.symm)).eq_or_lt with rfl | hlt
  · exact le_rfl
  · cases hincl : ts[r * 2 + 1].isInclusiveBound with
    | true =>
      have hbefore := List.pairwise_iff_getElem.mp h.sorted (i * 2 + 1) (r * 2 + 1) hup hlen
        (by omega)
      rw [cut_eq_hi (t := ts[r * 2 + 1]) (by rw [h.upper hlen, hincl]; exact Bool.false_ne_true)]
      exact (cut_le_hi _).trans ((h.bound_getElem hup).hi_le_hi (h.bound_getElem hlen)
        (h.upper hup) (h.upper hlen) hbefore)
    | false =>
      rw [cut_eq_lo (t := ts[r * 2 + 1]) ((h.upper hlen).trans hincl.symm)]
      exact hn.exclusive_upper i r hlen hlt hr hincl

end InOrder

end BoundRanks

end HpccPlatform
