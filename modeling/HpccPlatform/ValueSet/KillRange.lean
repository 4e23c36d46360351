import HpccPlatform.ValueSet.AddRange

/-!
# Removing a range

`killRange` on a set in normal form clears the line of cuts between its two bounds
(`killRange_cuts`).  Here the scale has to be closed: a bound keeps its place when its mask is
replaced by that of the complementary bound, no bound lies among the values of another one, and
the bounds without a value stand at the two ends of the line.
-/

namespace HpccPlatform

namespace Scale

variable {α : Type*} {type : RtlTypeInfo α} {S : ValueTransition α → Prop} {C : Type*}
  [LinearOrder C]

/-- The scale of a type whose bounds are compared as whole values. -/
structure Closed (sc : Scale type S C) : Prop where
  flat : ∀ a b, S a → S b → sc.cut b ≤ sc.lo a ∨ sc.hi a ≤ sc.cut b
  mask : ∀ a, S a → a.value ≠ none → a.mask ∈ [CMPlt, CMPle, CMPgt, CMPge]
  modify : ∀ a t, S a → a.value ≠ none → t.value = a.value → t.subLength = a.subLength →
    t.mask ∈ [CMPlt, CMPle, CMPgt, CMPge] → S t ∧ sc.lo t = sc.lo a ∧ sc.hi t = sc.hi a
  minimum : S .minimum
  maximum : S .maximum
  null : ∀ a, S a → a.value = none → a = .minimum ∨ a = .maximum
  isMinimum : ∀ a, S a → a.isMinimum = true → a = .minimum
  isMaximum : ∀ a, S a → a.isMaximum = true → a = .maximum

namespace Closed

variable {sc : Scale type S C} {a b : ValueTransition α}

lemma null_exclusive (hc : sc.Closed) (ha : S a) (hv : a.value = none) :
    a.isInclusiveBound = false := by
  rcases hc.null a ha hv with rfl | rfl <;> rfl

/-- A bound without a value compares equal only to such a bound. -/
lemma null_of_zero (hc : sc.Closed) (ha : S a) (hb : S b) (hv : a.value = none)
    (hzero : a.compareRaw type b = 0) : b.value = none := by
  rcases hc.null a ha hv with rfl | rfl
  · have : b.isMinimum = true := by
      by_contra h
      simp [ValueTransition.compareRaw, h] at hzero
    rw [hc.isMinimum b hb this]
    rfl
  · have : b.isMaximum = true := by
      by_contra h
      simp [ValueTransition.compareRaw, h] at hzero
    rw [hc.isMaximum b hb this]
    rfl

end Closed

/-- The minimum is not above any bound. -/
lemma minimum_compareRaw_le (b : ValueTransition α) :
    (ValueTransition.minimum : ValueTransition α).compareRaw type b ≤ 0 := by
  by_cases h : b.isMinimum = true <;> simp [ValueTransition.compareRaw, h]

/-- No bound is above the maximum. -/
lemma compareRaw_maximum_le (b : ValueTransition α) :
    b.compareRaw type (ValueTransition.maximum : ValueTransition α) ≤ 0 := by
  by_cases h₁ : b.isMinimum = true <;> by_cases h₂ : b.isMaximum = true <;>
    simp [ValueTransition.compareRaw, h₁, h₂]

/-- On a closed scale the values of a lower bound end before any upper bound above it. -/
lemma Closed.hi_le_cut {sc : Scale type S C} (hc : sc.Closed) {a b : ValueTransition α}
    (ha : S a) (hb : S b) (hlt : sc.cut a < sc.cut b) : sc.hi a ≤ sc.cut b :=
  (hc.flat a b ha hb).resolve_left (not_le.2 ((sc.lo_le_cut ha).trans_lt hlt))

/-- On a closed scale every set in normal form contains the values of its inclusive lower
bounds. -/
lemma Closed.wide {sc : Scale type S C} (hc : sc.Closed) {ts : List (ValueTransition α)}
    (hn : sc.Normal ts) : sc.Wide ts := by
  intro a ha hal hai D hlo hhi
  obtain ⟨i, hi, rfl⟩ := List.mem_iff_getElem.1 ha
  have heven : Even i := by
    simpa [hn.alternates.isLowerBound_getElem hi] using hal
  obtain ⟨k, rfl⟩ := heven.two_dvd
  obtain ⟨m, hm⟩ := hn.even
  have hi' : k * 2 + 1 < ts.length := by omega
  refine (inside_cuts_iff hn.sorted hn.even D).2 ⟨k, hi', ?_, fun h => hhi (D.lower ?_ h)⟩
  · simp only [Nat.mul_comm k 2]
    rwa [sc.cut_eq_lo (by rw [hal, hai])]
  · simp only [Nat.mul_comm k 2]
    exact hc.hi_le_cut (hn.mem _ ha) (hn.mem _ (List.getElem_mem _))
      (hn.cut_lt_cut (Nat.lt_succ_self _) (by omega))

end Scale

namespace ValueTransition

variable {α : Type*}

/-- A bound with a value can be given another mask. -/
lemma modifyTransition_ok {t : ValueTransition α} (h : t.value ≠ none) (mask : TransitionMask) :
    ∃ t', t.modifyTransition mask = .ok t' ∧ t'.mask = mask ∧ t'.value = t.value ∧
      t'.subLength = t.subLength := by
  unfold modifyTransition
  split
  · contradiction
  · exact ⟨_, rfl, rfl, rfl, rfl⟩

end ValueTransition

namespace ValueSet

open Scale CutList

variable {α : Type*} {type : RtlTypeInfo α} {S : ValueTransition α → Prop} {C : Type*}
  [LinearOrder C] {sc : Scale type S C} {ts : List (ValueTransition α)}
  {lower upper : ValueTransition α}

/-- The complementary bound: it stands at the same cut and faces the other way. -/
lemma complement (hc : sc.Closed) {a : ValueTransition α} (hSa : S a) (hv : a.value ≠ none)
    (mask : TransitionMask) (hmask : mask ∈ [CMPlt, CMPle, CMPgt, CMPge])
    (hgt : mask.gt = !a.isLowerBound) (heq : mask.eq = !a.isInclusiveBound) :
    ∃ t, a.modifyTransition mask = .ok t ∧ S t ∧ sc.cut t = sc.cut a ∧
      t.isLowerBound = !a.isLowerBound := by
  obtain ⟨t, hok, hm, hval, hsub⟩ := ValueTransition.modifyTransition_ok hv mask
  obtain ⟨hSt, hlo, hhi⟩ := hc.modify a t hSa hv hval hsub (hm ▸ hmask)
  have hl : t.isLowerBound = !a.isLowerBound := by rw [← hgt, ← hm]; rfl
  have hi : t.isInclusiveBound = !a.isInclusiveBound := by rw [← heq, ← hm]; rfl
  refine ⟨t, hok, hSt, ?_, hl⟩
  rw [cut, cut, hl, hi, hlo, hhi]
  cases a.isLowerBound <;> cases a.isInclusiveBound <;> rfl

/-! ## The first half -/

/-- The lower bound has a value when a transition at its values is inclusive. -/
lemma value_ne_none_of_zero (hc : sc.Closed) {a b : ValueTransition α} (hSa : S a) (hSb : S b)
    (hzero : a.compareRaw type b = 0) (hinc : b.isInclusiveBound = true) : a.value ≠ none := by
  intro hv
  have := hc.null_exclusive hSb (hc.null_of_zero hSa hSb hv hzero)
  simp [this] at hinc

/-- The first half of `killRange` ends membership at the lower bound. -/
lemma killLower_spec (hc : sc.Closed) {A B : List (ValueTransition α)}
    {next : ValueTransition α} (h : Placed sc lower A next B) :
    ∃ P R, killLower type (A ++ next :: B) lower next A.length = .ok (P ++ R, P.length) ∧
      Opened sc false (A ++ next :: B) lower P R ∧ ∀ t ∈ P, S t := by
  have hnext := h.isLowerBound_next
  have hlohi := sc.lo_lt_hi lower h.mem
  have hl := h.isLowerBound
  have hSA : ∀ t ∈ A, S t := fun t ht => h.normal.mem t (by simp [ht])
  have hSn := h.mem_next
  rw [killLower]
  rcases lt_or_eq_of_le h.notAfter with hneg | hzero
  · -- the lower bound falls between transitions
    rw [if_neg hneg.ne]
    rcases Nat.even_or_odd A.length with he | ho
    · have hnl : next.isLowerBound = true := by simp [hnext, he]
      have hnu : next.isUpperBound = false := by simp [sc.isUpperBound_eq _ hSn, hnl]
      refine ⟨A, next :: B, by simp [hnu], h.opened_cons hneg ?_ h.alternates, hSA⟩
      simp [openPart, he]
    · -- a range is cut in two, so there is a transition below and the bound has a value
      have hnl : next.isLowerBound = false := by simp [hnext, Nat.not_even_iff_odd.2 ho]
      have hnu : next.isUpperBound = true := by simp [sc.isUpperBound_eq _ hSn, hnl]
      have hv : lower.value ≠ none := by
        intro hv
        cases A with
        | nil => simp at ho
        | cons a A =>
          obtain rfl : lower = .minimum := (hc.null lower h.mem hv).resolve_right fun h => by
            rw [h] at hl
            simp at hl
          exact absurd (h.before a (by simp)) (not_lt.2 (minimum_compareRaw_le a))
      obtain ⟨t, hok, hSt, hcut, htl⟩ := complement hc h.mem hv
        (if lower.isInclusiveBound then CMPlt else CMPle)
        (by cases lower.isInclusiveBound <;> simp)
        (by cases lower.isInclusiveBound <;> simp [hl, CMPlt, CMPle])
        (by cases lower.isInclusiveBound <;> simp [CMPlt, CMPle])
      rw [hl] at htl
      refine ⟨A ++ [t], next :: B, ?_, h.opened_cons hneg ?_ ?_, ?_⟩
      · simp [hnu, hok, Except.map, insertIdx_append_length]
      · simp [openPart, Nat.not_even_iff_odd.2 ho, hcut]
      · simpa [alternates_append, h.alternates, Alternates, ho] using htl
      · simpa [or_imp, forall_and, hSt] using hSA
  · -- `next` has the values of the lower bound
    obtain ⟨hlo, hhi⟩ := sc.eq_of_zero _ _ h.mem hSn hzero
    rw [if_pos hzero]
    rcases Nat.even_or_odd A.length with he | ho
    · have hnl : next.isLowerBound = true := by simp [hnext, he]
      rw [if_pos hnl]
      by_cases hinc : (!lower.isInclusiveBound && next.isInclusiveBound) = true
      · -- only the value itself remains of the range that starts here
        rw [if_pos hinc]
        simp only [Bool.and_eq_true, Bool.not_eq_true'] at hinc
        obtain ⟨hil, hin⟩ := hinc
        have hlt : sc.cut next < sc.cut lower := by
          rw [sc.cut_eq_hi (a := lower) (by simp [hl, hil]), sc.cut_eq_lo (by simp [hnl, hin]),
            ← hlo]
          exact hlohi
        obtain ⟨t, hok, hSt, hcut, htl⟩ := complement hc h.mem
          (value_ne_none_of_zero hc h.mem hSn hzero hin) CMPle (by simp)
          (by simp [hl, CMPle]) (by simp [hil, CMPle])
        rw [hl] at htl
        refine ⟨A ++ [next, t], B, ?_, h.opened_tail hzero ?_ ?_, ?_⟩
        · have := insertIdx_append_length (A ++ [next]) B t
          simpa [hok, Except.map] using this
        · rw [h.filter_of_lt hzero hlt]
          simp [openPart, he, Nat.even_add_one, hcut]
        · simpa [alternates_append, h.alternates, Alternates, hnl, he,
            Nat.not_odd_iff_even.2 he] using htl
        · simpa [or_imp, forall_and, hSt, hSn] using hSA
      · have hle : sc.cut lower ≤ sc.cut next := by
          cases hil : lower.isInclusiveBound with
          | true =>
            rw [sc.cut_eq_lo (a := lower) (by simp [hl, hil]), hlo]
            exact sc.lo_le_cut hSn
          | false =>
            have hin : next.isInclusiveBound = false := by simpa [hil] using hinc
            rw [sc.cut_eq_hi (a := next) (by simp [hnl, hin]), ← hhi]
            exact sc.cut_le_hi h.mem
        refine ⟨A, B, ?_, h.opened_tail hzero ?_ h.alternates, hSA⟩
        · rw [if_neg hinc, List.eraseIdx_append_of_length_le le_rfl]
          simp
        · rw [h.filter_of_le hle]
          simp [openPart, he]
    · have hnl : next.isLowerBound = false := by simp [hnext, Nat.not_even_iff_odd.2 ho]
      rw [if_neg (by simp [hnl])]
      by_cases hinc : (lower.isInclusiveBound && next.isInclusiveBound) = true
      · -- the upper bound becomes exclusive
        rw [if_pos hinc]
        simp only [Bool.and_eq_true] at hinc
        obtain ⟨hil, hin⟩ := hinc
        have hv : next.value ≠ none := by
          intro hv
          simp [hc.null_exclusive hSn hv] at hin
        obtain ⟨t, hok, hm, hval, hsub⟩ := ValueTransition.modifyTransition_ok hv CMPlt
        obtain ⟨hSt, htlo, -⟩ := hc.modify next t hSn hv hval hsub (by simp [hm])
        have htl : t.isLowerBound = false := by rw [ValueTransition.isLowerBound, hm]; rfl
        have hti : t.isInclusiveBound = false := by rw [ValueTransition.isInclusiveBound, hm]; rfl
        have hcut : sc.cut t = sc.cut lower := by
          rw [sc.cut_eq_lo (by rw [htl, hti]), sc.cut_eq_lo (by rw [hl, hil]), htlo, hlo]
        have hle : sc.cut lower ≤ sc.cut next := by
          rw [sc.cut_eq_lo (a := lower) (by simp [hl, hil]), hlo]
          exact sc.lo_le_cut hSn
        refine ⟨A ++ [t], B, by simp [hok, Except.map], h.opened_tail hzero ?_ ?_, ?_⟩
        · rw [h.filter_of_le hle]
          simp [openPart, Nat.not_even_iff_odd.2 ho, hcut]
        · simpa [alternates_append, h.alternates, Alternates, ho] using htl
        · simpa [or_imp, forall_and, hSt] using hSA
      · -- the range already ends at the lower bound or before it
        rw [if_neg hinc]
        refine ⟨A ++ [next], B, by simp, h.opened_tail hzero ?_ ?_, ?_⟩
        · cases hil : lower.isInclusiveBound <;> cases hin : next.isInclusiveBound
          · have hlt : sc.cut next < sc.cut lower := by
              rw [sc.cut_eq_hi (a := lower) (by simp [hl, hil]),
                sc.cut_eq_lo (by simp [hnl, hin]), ← hlo]
              exact hlohi
            rw [h.filter_of_lt hzero hlt]
            simp [openPart, Nat.even_add_one, Nat.not_even_iff_odd.2 ho]
          · have hcut : sc.cut lower = sc.cut next := by
              rw [sc.cut_eq_hi (by simp [hl, hil]), sc.cut_eq_hi (by simp [hnl, hin]), hhi]
            rw [h.filter_of_le hcut.le]
            simp [openPart, Nat.not_even_iff_odd.2 ho, hcut]
          · have hcut : sc.cut lower = sc.cut next := by
              rw [sc.cut_eq_lo (by simp [hl, hil]), sc.cut_eq_lo (by simp [hnl, hin]), hlo]
            rw [h.filter_of_le hcut.le]
            simp [openPart, Nat.not_even_iff_odd.2 ho, hcut]
          · simp [hil, hin] at hinc
        · simpa [alternates_append, h.alternates, Alternates, ho] using hnl
        · simpa [or_imp, forall_and, hSn] using hSA

/-! ## The second half -/

/-- The second half of `killRange` drops the transitions up to the upper bound and lets membership
begin again there. -/
lemma killWalk_spec (hc : sc.Closed) (hSu : S upper) (hu : upper.isUpperBound = true)
    {rest : List (ValueTransition α)} (ht : Tail sc rest) :
    ∃ rest', killWalk type upper rest = .ok rest' ∧
      sc.cuts rest' =
        closePart false (sc.cut upper) ((sc.cuts rest).filter (sc.cut upper < ·)) ∧
      Alternates true rest' ∧ ∀ t ∈ rest', S t := by
  have hu' : upper.isLowerBound = false := by simpa [hu] using sc.isUpperBound_eq upper hSu
  induction rest with
  | nil => exact ⟨[], rfl, by simp [closePart], trivial, by simp⟩
  | cons cur rest ih =>
    have hSc : S cur := ht.mem cur (by simp)
    have hupper := sc.isUpperBound_eq cur hSc
    have hlower := ht.isLowerBound_eq
    rw [killWalk]
    rcases lt_trichotomy (cur.compareRaw type upper) 0 with hrc | hrc | hrc
    · -- below the upper bound: dropped
      have hlt := sc.cut_lt_cut_of_neg hSc hSu hrc
      obtain ⟨rest', h₁, h₂, h₃, h₄⟩ := ih ht.tail
      refine ⟨rest', by simp [not_lt.2 hrc.le, hrc.ne, h₁], ?_, h₃, h₄⟩
      rw [h₂, cuts_cons, filter_cons_of_le hlt.le]
    · -- at the same values as the upper bound
      obtain ⟨hlo, hhi⟩ := sc.eq_of_zero _ _ hSc hSu hrc
      simp only [hrc, lt_irrefl, if_false, if_true]
      rcases Nat.even_or_odd rest.length with he | ho
      · have hcl : cur.isLowerBound = false := by simpa [Nat.not_odd_iff_even.2 he] using hlower
        have hcu : cur.isUpperBound = true := by simpa [hcl] using hupper
        have halt : Alternates true rest := by simpa [he] using ht.tail.alternates
        rw [if_pos hcu]
        by_cases hinc : (cur.isInclusiveBound && !upper.isInclusiveBound) = true
        · -- only the value itself remains of the range that ends here
          rw [if_pos hinc]
          simp only [Bool.and_eq_true, Bool.not_eq_true'] at hinc
          obtain ⟨hic, hiu⟩ := hinc
          have hlt : sc.cut upper < sc.cut cur := by
            rw [sc.cut_eq_lo (by simp [hu', hiu]), sc.cut_eq_hi (a := cur) (by simp [hcl, hic]),
              hhi]
            exact sc.lo_lt_hi upper hSu
          obtain ⟨t, hok, hSt, hcut, htl⟩ := complement hc hSu
            (value_ne_none_of_zero hc hSu hSc (sc.zero_of_eq _ _ hSu hSc hlo.symm) hic) CMPge
            (by simp) (by simp [hu', CMPge]) (by simp [hiu, CMPge])
          rw [hu'] at htl
          refine ⟨t :: cur :: rest, by simp [hok, Except.map], ?_, ⟨htl, hcl, halt⟩,
            by simpa [hSt] using ht.mem⟩
          rw [ht.filter_eq_self hlt, closePart_of_odd (by simpa [Nat.odd_add_one] using he),
            cuts_cons, hcut]
          rfl
        · -- the end of the range is removed; what follows starts at the upper bound or above
          rw [if_neg hinc]
          have hle : sc.cut cur ≤ sc.cut upper := by
            cases hiu : upper.isInclusiveBound with
            | true =>
              rw [sc.cut_eq_hi (a := upper) (by simp [hu', hiu]), ← hhi]
              exact sc.cut_le_hi hSc
            | false =>
              have hic : cur.isInclusiveBound = false := by simpa [hiu] using hinc
              rw [sc.cut_eq_lo (a := cur) (by simp [hcl, hic]), hlo]
              exact sc.lo_le_cut hSu
          refine ⟨rest, rfl, ?_, halt, fun t h => ht.mem t (by simp [h])⟩
          rw [cuts_cons, filter_cons_of_le hle]
          cases rest with
          | nil => rfl
          | cons n rest =>
            have hSn : S n := ht.mem n (by simp)
            have hlt : sc.cut cur < sc.cut n := ht.cut_lt _ (by simp)
            have hun : sc.cut upper ≤ sc.cut n :=
              (sc.cut_le_hi hSu).trans (hhi ▸ hc.hi_le_cut hSc hSn hlt)
            exact (closePart_filter_of_le ht.tail.sorted
              (by simpa [← Nat.not_even_iff_odd] using he) hun).symm
      · have hcl : cur.isLowerBound = true := by simpa [ho] using hlower
        have hcu : cur.isUpperBound = false := by simpa [hcl] using hupper
        rw [if_neg (by simp [hcu])]
        cases hiu : upper.isInclusiveBound with
        | false =>
          -- the range that starts here is left alone
          have hun : sc.cut upper ≤ sc.cut cur := by
            rw [sc.cut_eq_lo (a := upper) (by simp [hu', hiu]), ← hlo]
            exact sc.lo_le_cut hSc
          refine ⟨cur :: rest, rfl, ?_, ⟨hcl, ?_⟩, ht.mem⟩
          · exact (closePart_filter_of_le ht.sorted
              (by simpa [Nat.odd_add_one] using ho) hun).symm
          · simpa [Nat.not_even_iff_odd.2 ho] using ht.tail.alternates
        | true =>
          have hle : sc.cut cur ≤ sc.cut upper := by
            rw [sc.cut_eq_hi (a := upper) (by simp [hu', hiu]), ← hhi]
            exact sc.cut_le_hi hSc
          obtain ⟨rest', h₁, h₂, h₃, h₄⟩ := ih ht.tail
          refine ⟨rest', by simpa using h₁, ?_, h₃, h₄⟩
          rw [h₂, cuts_cons, filter_cons_of_le hle]
    · -- above the upper bound
      have hlt := sc.cut_lt_cut_of_pos hSc hSu hrc
      rw [ht.filter_eq_self hlt]
      simp only [hrc, if_true]
      rcases Nat.even_or_odd rest.length with he | ho
      · -- inside a range, whose remainder starts at the upper bound
        have hcl : cur.isLowerBound = false := by simpa [Nat.not_odd_iff_even.2 he] using hlower
        have hcu : cur.isUpperBound = true := by simpa [hcl] using hupper
        have hv : upper.value ≠ none := by
          intro hv
          obtain rfl : upper = .maximum := (hc.null upper hSu hv).resolve_left fun h => by
            rw [h] at hu
            simp at hu
          exact absurd hrc (not_lt.2 (compareRaw_maximum_le cur))
        obtain ⟨t, hok, hSt, hcut, htl⟩ := complement hc hSu hv
          (if upper.isInclusiveBound then CMPgt else CMPge)
          (by cases upper.isInclusiveBound <;> simp)
          (by cases upper.isInclusiveBound <;> simp [hu', CMPgt, CMPge])
          (by cases upper.isInclusiveBound <;> simp [CMPgt, CMPge])
        rw [hu'] at htl
        refine ⟨t :: cur :: rest, by simp [hcu, hok, Except.map], ?_, ⟨htl, hcl, ?_⟩, ?_⟩
        · rw [closePart_of_odd (by simpa [Nat.odd_add_one] using he), cuts_cons, hcut]
          rfl
        · simpa [he] using ht.tail.alternates
        · simpa [hSt] using ht.mem
      · have hcl : cur.isLowerBound = true := by simpa [ho] using hlower
        have hcu : cur.isUpperBound = false := by simpa [hcl] using hupper
        refine ⟨cur :: rest, by simp [hcu], ?_, ⟨hcl, ?_⟩, ht.mem⟩
        · rw [closePart_of_even (by simpa [Nat.even_add_one] using ho)]
          rfl
        · simpa [Nat.not_even_iff_odd.2 ho] using ht.tail.alternates

/-! ## The whole operation -/

/-- The result of removing a range that is not empty: the line is cleared between its bounds. -/
theorem killRange_cuts (hc : sc.Closed) {lower? upper? : Option (ValueTransition α)}
    (hlower : lower?.getD .minimum = lower) (hupper : upper?.getD .maximum = upper)
    (hn : sc.Normal ts) (hSl : S lower) (hSu : S upper)
    (hl : lower.isLowerBound = true) (hu : upper.isUpperBound = true)
    (hne : isEmptyRange type lower upper = false) :
    ∃ ts', killRange type ts lower? upper? = .ok ts' ∧ sc.Normal ts' ∧
      sc.cuts ts' = fill false (sc.cut lower) (sc.cut upper) (sc.cuts ts) := by
  have hlu : sc.cut lower < sc.cut upper := cut_lt_cut_of_isEmptyRange hSl hSu hl hu hne
  have hhi : sc.hi lower ≤ sc.cut upper := hc.hi_le_cut hSl hSu hlu
  obtain ⟨A, B, hts, hlow, hA, hB⟩ := findLower_spec hn hSl hl
  simp only [killRange, hlower, hupper, hl, hu, hne, hlow, Bool.not_true, Bool.or_false,
    Bool.false_eq_true, if_false]
  cases B with
  | nil =>
    -- every transition is below the lower bound
    obtain rfl : ts = A := by simpa using hts
    have hcut : ∀ a ∈ ts, sc.cut a < sc.cut lower := fun a ha =>
      sc.cut_lt_cut_of_pos hSl (hn.mem a ha) (hA a ha)
    have hlt := filter_lt_cuts_append (B := []) hcut (by simp)
    have hgt : (sc.cuts ts).filter (sc.cut upper < ·) = [] := by
      simpa [List.filter_eq_nil_iff, cuts] using fun a ha => ((hcut a ha).trans hlu).le
    rw [List.append_nil] at hlt
    refine ⟨ts, by simp, hn, ?_⟩
    simp [fill, hlt, hgt, openPart, closePart, hn.even]
  | cons next B =>
    have hplaced : Placed sc lower A next B := ⟨hts ▸ hn, hSl, hl, hA, hB next B rfl⟩
    obtain ⟨P, R, hkill, hopen, hP⟩ := killLower_spec hc hplaced
    rw [← hts] at hkill hopen
    obtain ⟨R', hup, hcuts, halt, hR'⟩ := killWalk_spec hc hSu hu (hopen.tail hn)
    have hget : ts[A.length]? = some next := by simp [hts]
    refine ⟨P ++ R', ?_, hopen.normal hn hSl hlu hhi hcuts halt hP hR',
      hopen.cuts_append hn hSl hhi hcuts⟩
    simp only [hget, hkill]
    simp [hup, Except.map, Except.bind]

/-- Removing a range from a set in normal form: the result is in normal form and has the values of
the set that are not in the range. -/
theorem killRange_spec (hc : sc.Closed) {lower? upper? : Option (ValueTransition α)}
    (hlower : lower?.getD .minimum = lower) (hupper : upper?.getD .maximum = upper)
    (hn : sc.Normal ts) (hSl : S lower) (hSu : S upper)
    (hl : lower.isLowerBound = true) (hu : upper.isUpperBound = true) :
    ∃ ts', killRange type ts lower? upper? = .ok ts' ∧ sc.Normal ts' ∧
      ∀ D : LowerSet C, Inside D (sc.cuts ts') ↔
        Inside D (sc.cuts ts) ∧ ¬ (sc.cut lower ∈ D ∧ sc.cut upper ∉ D) := by
  cases hne : isEmptyRange type lower upper with
  | true =>
    have hle : sc.cut upper ≤ sc.cut lower := cut_le_cut_of_isEmptyRange hSl hSu hl hu hne
    refine ⟨ts, by simp [killRange, hlower, hupper, hl, hu, hne], hn, fun D => ?_⟩
    exact ⟨fun h => ⟨h, fun h => h.2 (D.lower hle h.1)⟩, And.left⟩
  | false =>
    obtain ⟨ts', hok, hn', hcuts⟩ := killRange_cuts hc hlower hupper hn hSl hSu hl hu hne
    have hlu : sc.cut lower < sc.cut upper := cut_lt_cut_of_isEmptyRange hSl hSu hl hu hne
    refine ⟨ts', hok, hn', fun D => ?_⟩
    rw [hcuts, inside_fill false hlu hn.sorted (by simpa using hn.even)]
    tauto

end ValueSet

end HpccPlatform
