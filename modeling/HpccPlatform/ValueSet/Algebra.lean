import HpccPlatform.ValueSet.FullScale

/-!
# Operations on whole sets

What `invertSet`, `excludeSet`, `intersectSet` and `unionSet` do to sets in normal form: the
result is in normal form and its values are those of the complement, difference, intersection or
union.  For `unionSet` this needs that no range of the other set closes a gap of this one.
-/

namespace HpccPlatform

namespace Scale

variable {α : Type*} {type : RtlTypeInfo α} {S : ValueTransition α → Prop} {C : Type*}
  [LinearOrder C] {sc : Scale type S C} {ts : List (ValueTransition α)}
  {a b lower upper : ValueTransition α}

/-- The minimum stands below every other bound. -/
lemma Closed.minimum_lt (hc : sc.Closed) (ha : S a) (h : a.isMinimum = false) :
    sc.cut .minimum < sc.cut a :=
  sc.cut_lt_cut_of_neg hc.minimum ha (by simp [ValueTransition.compareRaw, h])

/-- The maximum stands above every other bound. -/
lemma Closed.lt_maximum (hc : sc.Closed) (ha : S a) (h : a.isMaximum = false) :
    sc.cut a < sc.cut .maximum := by
  refine sc.cut_lt_cut_of_neg ha hc.maximum ?_
  by_cases hmin : a.isMinimum = true <;> simp [ValueTransition.compareRaw, h, hmin]

/-- A bound with a bound above it is not the maximum. -/
lemma Closed.isMaximum_eq_false (hc : sc.Closed) (ha : S a) (hb : S b)
    (h : sc.cut a < sc.cut b) : a.isMaximum = false := by
  by_contra hmax
  obtain rfl := hc.isMaximum a ha (by simpa using hmax)
  rcases hb' : b.isMaximum with _ | _
  · exact lt_asymm h (hc.lt_maximum hb hb')
  · exact lt_irrefl _ (hc.isMaximum b hb hb' ▸ h)

/-- A bound with a bound below it is not the minimum. -/
lemma Closed.isMinimum_eq_false (hc : sc.Closed) (ha : S a) (hb : S b)
    (h : sc.cut b < sc.cut a) : a.isMinimum = false := by
  by_contra hmin
  obtain rfl := hc.isMinimum a ha (by simpa using hmin)
  rcases hb' : b.isMinimum with _ | _
  · exact lt_asymm h (hc.minimum_lt hb hb')
  · exact lt_irrefl _ (hc.isMinimum b hb hb' ▸ h)

lemma Closed.value_ne_none (hc : sc.Closed) (ha : S a) (hmin : a.isMinimum = false)
    (hmax : a.isMaximum = false) : a.value ≠ none := by
  intro hv
  rcases hc.null a ha hv with rfl | rfl
  · simp at hmin
  · simp at hmax

lemma Normal.tail_tail (hn : sc.Normal (lower :: upper :: ts)) : sc.Normal ts := by
  obtain ⟨hmem, hs, halt, he⟩ := hn
  rw [cuts_cons, cuts_cons, List.pairwise_cons, List.pairwise_cons] at hs
  exact ⟨fun t ht => hmem t (by simp [ht]), hs.2.2, by simpa using halt.2.2,
    by simpa [Nat.even_add_one] using he⟩

/-- The range at the head of a set. -/
lemma Normal.head (hn : sc.Normal (lower :: upper :: ts)) :
    S lower ∧ S upper ∧ lower.isLowerBound = true ∧ upper.isUpperBound = true ∧
      sc.cut lower < sc.cut upper ∧ ∀ c ∈ sc.cuts ts, sc.cut upper < c := by
  obtain ⟨hmem, hs, halt, -⟩ := hn
  have hSu : S upper := hmem _ (by simp)
  have hs' := hs
  rw [cuts_cons, cuts_cons, List.pairwise_cons, List.pairwise_cons] at hs'
  refine ⟨hmem _ (by simp), hSu, halt.1, ?_, hs'.1 _ (by simp), hs'.2.1⟩
  rw [sc.isUpperBound_eq upper hSu, halt.2.1]
  rfl

end Scale

namespace ValueSet

open Scale CutList

variable {α : Type*} {type : RtlTypeInfo α} {S : ValueTransition α → Prop} {C : Type*}
  [LinearOrder C] {sc : Scale type S C} {ts other : List (ValueTransition α)}
  {lower upper : ValueTransition α}

/-- The pairs of bounds over which `unionSet` and `excludeSet` iterate. -/
def ranges : List (ValueTransition α) → List (ValueTransition α × ValueTransition α)
  | lower :: upper :: ts => (lower, upper) :: ranges ts
  | _ => []

/-- A range of a set: its two bounds are neighbours. -/
structure IsRange (sc : Scale type S C) (ts : List (ValueTransition α))
    (p : ValueTransition α × ValueTransition α) : Prop where
  lower_mem : p.1 ∈ ts
  upper_mem : p.2 ∈ ts
  isLowerBound : p.1.isLowerBound = true
  isUpperBound : p.2.isLowerBound = false
  cut_lt : sc.cut p.1 < sc.cut p.2
  outside : ∀ c ∈ sc.cuts ts, c ≤ sc.cut p.1 ∨ sc.cut p.2 ≤ c

lemma isRange_of_mem (hn : sc.Normal ts) {p : ValueTransition α × ValueTransition α}
    (hp : p ∈ ranges ts) : IsRange sc ts p := by
  induction ts using List.twoStepInduction with
  | nil => simp [ranges] at hp
  | singleton t => simp [ranges] at hp
  | cons_cons l u ts ih _ =>
    obtain ⟨-, -, -, -, hlu, hts⟩ := hn.head
    rcases List.mem_cons.1 hp with rfl | hp
    · refine ⟨by simp, by simp, hn.alternates.1, hn.alternates.2.1, hlu, fun c hc => ?_⟩
      simp only [cuts_cons, List.mem_cons] at hc
      rcases hc with rfl | rfl | hc
      · exact Or.inl le_rfl
      · exact Or.inr le_rfl
      · exact Or.inr (hts c hc).le
    · have h := ih hn.tail_tail hp
      refine ⟨by simp [h.lower_mem], by simp [h.upper_mem], h.isLowerBound, h.isUpperBound,
        h.cut_lt, fun c hc => ?_⟩
      have hfirst : sc.cut u < sc.cut p.1 := hts _ (List.mem_map_of_mem h.lower_mem)
      simp only [cuts_cons, List.mem_cons] at hc
      rcases hc with rfl | rfl | hc
      · exact Or.inl (hlu.trans hfirst).le
      · exact Or.inl hfirst.le
      · exact h.outside c hc

/-! ## Complement -/

/-- `addAll` on the empty set stores the minimum and the maximum. -/
lemma addAll_eq : addAll type = .ok [.minimum, .maximum] := by
  simp [addAll, addRange, isEmptyRange, ValueTransition.compareRaw]

/-- Inverting each transition keeps the cuts and turns the bounds around. -/
lemma mapM_modifyInverse (hc : sc.Closed) {mid : List (ValueTransition α)}
    (hmid : ∀ t ∈ mid, S t ∧ t.value ≠ none) :
    ∃ inverted, mid.mapM ValueTransition.modifyInverse = .ok inverted ∧
      sc.cuts inverted = sc.cuts mid ∧ (∀ t ∈ inverted, S t) ∧
      ∀ b, Alternates b mid → Alternates (!b) inverted := by
  induction mid with
  | nil => exact ⟨[], rfl, rfl, by simp, fun _ _ => trivial⟩
  | cons t mid ih =>
    obtain ⟨hS, hv⟩ := hmid t (by simp)
    obtain ⟨inverted, hok, hcuts, hmem, halt⟩ := ih fun u hu => hmid u (by simp [hu])
    have hmask := hc.mask t hS hv
    simp only [List.mem_cons, List.not_mem_nil, or_false] at hmask
    obtain ⟨u, hok', hSu, hcut, hl⟩ := complement hc hS hv (ValueTransition.inverseMask t.mask)
      (by rcases hmask with h | h | h | h <;> rw [h] <;> decide) rfl rfl
    refine ⟨u :: inverted, ?_, by rw [cuts_cons, cuts_cons, hcut, hcuts],
      by simpa [hSu] using hmem, fun b hb => ?_⟩
    · rw [List.mapM_cons, ValueTransition.modifyInverse, hok', hok]
      rfl
    · obtain ⟨hb, hmid⟩ := hb
      exact ⟨by rw [hl, hb], halt _ hmid⟩

/-- The parts of the array that `invertSet` treats differently: the bounds without a value, which
can only be at its ends, and the transitions between them. -/
lemma invertSet_parts (hc : sc.Closed) (hn : sc.Normal ts) (hne : ts ≠ []) :
    ∃ (bmin bmax : Bool) (mid : List (ValueTransition α)),
      ts = (if bmin then [.minimum] else []) ++ mid ++ (if bmax then [.maximum] else []) ∧
      (∀ t ∈ mid, t.value ≠ none) ∧
      invertSet type ts = (mid.mapM ValueTransition.modifyInverse).map fun inverted =>
        (if bmin then [] else [.minimum]) ++ inverted ++ (if bmax then [] else [.maximum]) := by
  obtain ⟨first, m, last, rfl⟩ : ∃ first m last, ts = first :: (m ++ [last]) := by
    cases ts with
    | nil => contradiction
    | cons first rest =>
      have hrest : rest ≠ [] := by
        rintro rfl
        simpa using hn.even
      exact ⟨first, rest.dropLast, rest.getLast hrest, by rw [List.dropLast_append_getLast]⟩
  have hs := hn.sorted
  simp only [cuts_cons, Scale.cuts_append, List.pairwise_cons, List.pairwise_append] at hs
  obtain ⟨hfirst, -, -, hlast⟩ := hs
  have hSf : S first := hn.mem _ (by simp)
  have hSl : S last := hn.mem _ (by simp)
  have hfl : sc.cut first < sc.cut last := hfirst _ (by simp [cuts])
  have hm : ∀ t ∈ m, t.value ≠ none := fun t ht => by
    have hSt : S t := hn.mem _ (by simp [ht])
    have hct : sc.cut t ∈ sc.cuts m := List.mem_map_of_mem ht
    exact hc.value_ne_none hSt (hc.isMinimum_eq_false hSt hSf (hfirst _ (by simp [hct])))
      (hc.isMaximum_eq_false hSt hSl (hlast _ hct _ (by simp)))
  have hfirst' : first.isMinimum = false → first.value ≠ none := fun h =>
    hc.value_ne_none hSf h (hc.isMaximum_eq_false hSf hSl hfl)
  have hlast' : last.isMaximum = false → last.value ≠ none := fun h =>
    hc.value_ne_none hSl (hc.isMinimum_eq_false hSl hSf hfl) h
  refine ⟨first.isMinimum, last.isMaximum, (if first.isMinimum then [] else [first]) ++ m ++
    (if last.isMaximum then [] else [last]), ?_, ?_, ?_⟩
  · cases h₁ : first.isMinimum <;> cases h₂ : last.isMaximum <;>
      simp [hc.isMinimum first hSf, hc.isMaximum last hSl, h₁, h₂]
  · intro t ht
    simp only [List.mem_append] at ht
    rcases ht with (ht | ht) | ht
    · split at ht <;> simp_all
    · exact hm t ht
    · split at ht <;> simp_all
  · have hgetLast : (first :: (m ++ [last])).getLast (by simp) = last := by simp
    simp only [invertSet, hgetLast]
    have hdropLast : (first :: (m ++ [last])).dropLast = first :: m := by
      rw [← List.cons_append, List.dropLast_concat]
    cases first.isMinimum <;> cases last.isMaximum <;> simp [hdropLast]

/-- `invertSet` complements the set. -/
theorem invertSet_spec (hc : sc.Closed) (hn : sc.Normal ts) :
    ∃ ts', invertSet type ts = .ok ts' ∧ sc.Normal ts' ∧
      ∀ D : LowerSet C, sc.cut .minimum ∈ D → sc.cut .maximum ∉ D →
        (Inside D (sc.cuts ts') ↔ ¬ Inside D (sc.cuts ts)) := by
  have hends : sc.cut .minimum < sc.cut .maximum := hc.minimum_lt hc.maximum (by simp)
  by_cases hne : ts = []
  · refine ⟨[.minimum, .maximum], by rw [hne, invertSet, addAll_eq], ⟨?_, ?_, ?_, by simp⟩,
      fun D hmin hmax => ?_⟩
    · simp [hc.minimum, hc.maximum]
    · simpa using hends
    · simp [Alternates]
    · simp [hne, inside_cons_of_mem hmin, inside_cons_of_notMem hmax]
  obtain ⟨bmin, bmax, mid, hts, hv, hinv⟩ := invertSet_parts hc hn hne
  have hSmid : ∀ t ∈ mid, S t := fun t ht => hn.mem t (by simp [hts, ht])
  have hgt : ∀ c ∈ sc.cuts mid, sc.cut .minimum < c := by
    simp only [cuts, List.mem_map, forall_exists_index, and_imp, forall_apply_eq_imp_iff₂]
    intro t ht
    refine hc.minimum_lt (hSmid t ht) ?_
    by_contra h
    exact hv t ht (by rw [hc.isMinimum t (hSmid t ht) (by simpa using h)]; rfl)
  have hlt : ∀ c ∈ sc.cuts mid, c < sc.cut .maximum := by
    simp only [cuts, List.mem_map, forall_exists_index, and_imp, forall_apply_eq_imp_iff₂]
    intro t ht
    refine hc.lt_maximum (hSmid t ht) ?_
    by_contra h
    exact hv t ht (by rw [hc.isMaximum t (hSmid t ht) (by simpa using h)]; rfl)
  have hs : (sc.cuts mid).Pairwise (· < ·) := by
    have := hn.sorted
    rw [hts, Scale.cuts_append, Scale.cuts_append, List.pairwise_append, List.pairwise_append]
      at this
    exact this.1.2.1
  have heven : Even mid.length ↔ bmin = bmax := by
    have := hn.even
    rw [hts] at this
    revert this
    cases bmin <;> cases bmax <;> simp [Nat.even_add_one]
  have haltMid : Alternates (!bmin) mid := by
    have := hn.alternates
    rw [hts, alternates_append, alternates_append] at this
    obtain ⟨⟨-, h⟩, -⟩ := this
    cases bmin <;> simpa using h
  obtain ⟨inverted, hok, hcuts, hmem, halt⟩ :=
    mapM_modifyInverse hc fun t ht => ⟨hSmid t ht, hv t ht⟩
  have hlen : inverted.length = mid.length := by
    have := congrArg List.length hcuts
    simpa using this
  replace halt := halt _ haltMid
  refine ⟨(if bmin then [] else [.minimum]) ++ inverted ++ (if bmax then [] else [.maximum]),
    by rw [hinv, hok]; rfl, ⟨?_, ?_, ?_, ?_⟩, fun D hmin hmax => ?_⟩
  · intro t ht
    simp only [List.mem_append] at ht
    rcases ht with (ht | ht) | ht
    · split at ht <;> simp_all [hc.minimum]
    · exact hmem t ht
    · split at ht <;> simp_all [hc.maximum]
  · rw [Scale.cuts_append, Scale.cuts_append, hcuts, List.pairwise_append, List.pairwise_append]
    cases bmin <;> cases bmax <;> simp_all [or_imp]
  · rw [alternates_append, alternates_append]
    cases bmin <;> cases bmax <;>
      simp_all [Alternates, Nat.odd_add_one]
  · cases bmin <;> cases bmax <;> simp_all
  · have hpost : ∀ b : Bool, ∀ c ∈ sc.cuts (if b then [] else [.maximum]), c ∉ D := by
      intro b
      cases b <;> simp [hmax]
    have hpost' : ∀ b : Bool, ∀ c ∈ sc.cuts (if b then [.maximum] else []), c ∉ D := by
      intro b
      cases b <;> simp [hmax]
    rw [hts, Scale.cuts_append, Scale.cuts_append, Scale.cuts_append, Scale.cuts_append, hcuts,
      inside_append_of_forall_notMem (hpost bmax), inside_append_of_forall_notMem (hpost' bmax)]
    cases bmin <;> simp [inside_cons_of_mem hmin]

/-! ## Difference -/

/-- `excludeSet` removes the values of the other set. -/
theorem excludeSet_spec (hc : sc.Closed) (hn : sc.Normal ts) (ho : sc.Normal other) :
    ∃ ts', excludeSet type ts other = .ok ts' ∧ sc.Normal ts' ∧
      ∀ D : LowerSet C, Inside D (sc.cuts ts') ↔
        Inside D (sc.cuts ts) ∧ ¬ Inside D (sc.cuts other) := by
  induction other using List.twoStepInduction generalizing ts with
  | nil => exact ⟨ts, rfl, hn, by simp⟩
  | singleton t => simpa using ho.even
  | cons_cons lower upper other ih _ =>
    obtain ⟨hSl, hSu, hl, hu, -⟩ := ho.head
    obtain ⟨ts₁, hok₁, hn₁, hD₁⟩ := killRange_spec hc
      (show (some lower).getD .minimum = lower from rfl)
      (show (some upper).getD .maximum = upper from rfl) hn hSl hSu hl hu
    obtain ⟨ts', hok', hn', hD'⟩ := ih hn₁ ho.tail_tail
    refine ⟨ts', by rw [excludeSet, hok₁]; exact hok', hn', fun D => ?_⟩
    have hs := ho.sorted
    rw [cuts_cons, cuts_cons] at hs
    rw [hD', hD₁, cuts_cons, cuts_cons, inside_cons_cons hs]
    tauto

/-! ## Intersection -/

variable (sc) in
/-- The test of `intersectSet` for two ranges, the first of which ends at `upper` and the second
of which starts at `lower`. -/
lemma endsBefore_iff (hSl : S lower) (hSu : S upper) (hl : lower.isLowerBound = true)
    (hu : upper.isUpperBound = true) :
    (upper.compareRaw type lower < 0 ∨ (upper.compareRaw type lower = 0 ∧
      (!upper.isInclusiveBound || !lower.isInclusiveBound))) ↔
      sc.cut upper ≤ sc.cut lower := by
  have hu' : upper.isLowerBound = false := by simpa [hu] using sc.isUpperBound_eq upper hSu
  rcases lt_trichotomy (upper.compareRaw type lower) 0 with h | h | h
  · simp [h, (sc.cut_lt_cut_of_neg hSu hSl h).le]
  · obtain ⟨hlo, hhi⟩ := sc.eq_of_zero _ _ hSu hSl h
    have hlt := sc.lo_lt_hi lower hSl
    simp only [cut, hl, hu', h, hlo, hhi]
    cases upper.isInclusiveBound <;> cases lower.isInclusiveBound <;> simp [hlt, hlt.le]
  · simp [not_lt.2 h.le, h.ne', sc.cut_lt_cut_of_pos hSu hSl h]

variable (sc) in
/-- Of two bounds on the same side, the one that `intersectSet` takes for the new lower bound is
the greater one. -/
lemma cut_newLower {otherLower : ValueTransition α} (hSl : S lower) (hSo : S otherLower)
    (hl : lower.isLowerBound = true) :
    sc.cut (if lower.compareRaw type otherLower < 0 ∨ (lower.compareRaw type otherLower = 0 ∧
      lower.isInclusiveBound) then otherLower else lower) =
      max (sc.cut lower) (sc.cut otherLower) := by
  rcases lt_trichotomy (lower.compareRaw type otherLower) 0 with h | h | h
  · rw [if_pos (Or.inl h), max_eq_right (sc.cut_lt_cut_of_neg hSl hSo h).le]
  · obtain ⟨hlo, hhi⟩ := sc.eq_of_zero _ _ hSl hSo h
    cases hi : lower.isInclusiveBound with
    | true =>
      rw [if_pos (Or.inr ⟨h, rfl⟩), max_eq_right]
      rw [sc.cut_eq_lo (by rw [hl, hi]), hlo]
      exact sc.lo_le_cut hSo
    | false =>
      rw [if_neg (by simp [h]), max_eq_left]
      rw [sc.cut_eq_hi (a := lower) (by simp [hl, hi]), hhi]
      exact sc.cut_le_hi hSo
  · rw [if_neg (by simp [not_lt.2 h.le, h.ne']), max_eq_left (sc.cut_lt_cut_of_pos hSl hSo h).le]

variable (sc) in
/-- The test of `intersectSet` that decides which of two upper bounds comes first. -/
lemma cut_le_cut_of_endsFirst {otherUpper : ValueTransition α} (hSu : S upper)
    (hSo : S otherUpper) (hu : upper.isUpperBound = true) :
    if upper.compareRaw type otherUpper < 0 ∨ (upper.compareRaw type otherUpper = 0 ∧
      !upper.isInclusiveBound) then sc.cut upper ≤ sc.cut otherUpper
    else sc.cut otherUpper ≤ sc.cut upper := by
  have hu' : upper.isLowerBound = false := by simpa [hu] using sc.isUpperBound_eq upper hSu
  rcases lt_trichotomy (upper.compareRaw type otherUpper) 0 with h | h | h
  · rw [if_pos (Or.inl h)]
    exact (sc.cut_lt_cut_of_neg hSu hSo h).le
  · obtain ⟨hlo, hhi⟩ := sc.eq_of_zero _ _ hSu hSo h
    cases hi : upper.isInclusiveBound with
    | true =>
      rw [if_neg (by simp [h]), sc.cut_eq_hi (a := upper) (by simp [hu', hi]), hhi]
      exact sc.cut_le_hi hSo
    | false =>
      rw [if_pos (Or.inr ⟨h, rfl⟩), sc.cut_eq_lo (a := upper) (by simp [hu', hi]), hlo]
      exact sc.lo_le_cut hSo
  · rw [if_neg (by simp [not_lt.2 h.le, h.ne'])]
    exact (sc.cut_lt_cut_of_pos hSu hSo h).le

/-- What the inner loop of `intersectSet` produces for the range from `lower` to `upper`: the
transitions `emitted`, and the ranges `rest` of the other set with which the next range goes on. -/
structure Intersects (sc : Scale type S C) (lower upper : ValueTransition α)
    (other emitted rest : List (ValueTransition α)) : Prop where
  normal : sc.Normal emitted
  within : ∀ c ∈ sc.cuts emitted, sc.cut lower ≤ c ∧ c ≤ sc.cut upper
  above : ∀ d, (∀ c ∈ sc.cuts other, d < c) → ∀ c ∈ sc.cuts emitted, d < c
  inside : ∀ D : LowerSet C, Inside D (sc.cuts emitted) ↔
    (sc.cut lower ∈ D ∧ sc.cut upper ∉ D) ∧ Inside D (sc.cuts other)
  rest_normal : sc.Normal rest
  rest_inside : ∀ D : LowerSet C, sc.cut upper ∈ D →
    (Inside D (sc.cuts rest) ↔ Inside D (sc.cuts other))

/-- A range of two bounds in order is a set in normal form. -/
lemma normal_pair (hSl : S lower) (hSu : S upper) (hl : lower.isLowerBound = true)
    (hu : upper.isUpperBound = true) (hlu : sc.cut lower < sc.cut upper) :
    sc.Normal [lower, upper] := by
  have hu' : upper.isLowerBound = false := by simpa [hu] using sc.isUpperBound_eq upper hSu
  exact ⟨by simp [hSl, hSu], by simpa using hlu, ⟨hl, hu', trivial⟩, by simp⟩

lemma normal_append {us : List (ValueTransition α)} (ht : sc.Normal ts) (hu : sc.Normal us)
    (h : ∀ a ∈ sc.cuts ts, ∀ b ∈ sc.cuts us, a < b) : sc.Normal (ts ++ us) := by
  refine ⟨fun t hmem => (List.mem_append.1 hmem).elim (ht.mem t) (hu.mem t), ?_, ?_, ?_⟩
  · rw [Scale.cuts_append, List.pairwise_append]
    exact ⟨ht.sorted, hu.sorted, h⟩
  · rw [alternates_append]
    exact ⟨ht.alternates, by simpa [Nat.not_odd_iff_even.2 ht.even] using hu.alternates⟩
  · rw [List.length_append]
    exact ht.even.add hu.even

lemma max_mem_iff {D : LowerSet C} {c d : C} : max c d ∈ D ↔ c ∈ D ∧ d ∈ D := by
  rcases le_total c d with h | h
  · rw [max_eq_right h]
    exact ⟨fun hd => ⟨D.lower h hd, hd⟩, And.right⟩
  · rw [max_eq_left h]
    exact ⟨fun hc => ⟨hc, D.lower h hc⟩, And.left⟩

/-- When a point lies above the upper bound of the first range, the other ranges decide. -/
lemma inside_of_upper_mem (ho : sc.Normal (lower :: upper :: other)) {D : LowerSet C}
    (hu : sc.cut upper ∈ D) :
    Inside D (sc.cuts (lower :: upper :: other)) ↔ Inside D (sc.cuts other) := by
  have hs := ho.sorted
  rw [cuts_cons, cuts_cons] at hs
  rw [cuts_cons, cuts_cons, inside_cons_cons hs]
  simp [hu]

section Cases

variable {oLower oUpper : ValueTransition α} {emitted rest : List (ValueTransition α)}

/-- The other range starts after this one: nothing is produced. -/
lemma intersects_of_le (ho : sc.Normal (oLower :: oUpper :: other))
    (h : sc.cut upper ≤ sc.cut oLower) :
    Intersects sc lower upper (oLower :: oUpper :: other) [] (oLower :: oUpper :: other) := by
  refine ⟨normal_nil, by simp, by simp, fun D => ?_, ho, fun D _ => Iff.rfl⟩
  simp only [cuts_nil, inside_nil, false_iff, not_and, and_imp]
  intro _ huD
  have hs := ho.sorted
  rw [cuts_cons] at hs
  refine not_inside_of_forall_notMem fun c hc hcD => huD (D.lower (h.trans ?_) hcD)
  rcases List.mem_cons.1 hc with rfl | hc
  · exact le_rfl
  · exact (List.rel_of_pairwise_cons hs hc).le

/-- The other range ends before this one: it is skipped. -/
lemma Intersects.skip (hi : Intersects sc lower upper other emitted rest)
    (ho : sc.Normal (oLower :: oUpper :: other)) (hlu : sc.cut lower < sc.cut upper)
    (h : sc.cut oUpper ≤ sc.cut lower) :
    Intersects sc lower upper (oLower :: oUpper :: other) emitted rest := by
  refine ⟨hi.normal, hi.within, fun d hd => hi.above d fun c hc => hd c (by simp [hc]),
    fun D => ?_, hi.rest_normal, fun D huD => ?_⟩
  · rw [hi.inside]
    exact and_congr_right fun hD => (inside_of_upper_mem ho (D.lower h hD.1)).symm
  · rw [hi.rest_inside D huD, inside_of_upper_mem ho (D.lower (h.trans hlu.le) huD)]

variable {newLower : ValueTransition α}

/-- The ranges overlap and this one ends first. -/
lemma intersects_of_cut_le (hSn : S newLower) (hSu : S upper)
    (hnl : newLower.isLowerBound = true) (hu : upper.isUpperBound = true)
    (hcut : sc.cut newLower = max (sc.cut lower) (sc.cut oLower))
    (hlu : sc.cut lower < sc.cut upper) (ho : sc.Normal (oLower :: oUpper :: other))
    (h₁ : sc.cut oLower < sc.cut upper) (hfirst : sc.cut upper ≤ sc.cut oUpper) :
    Intersects sc lower upper (oLower :: oUpper :: other) [newLower, upper]
      (oLower :: oUpper :: other) := by
  have hlt : sc.cut newLower < sc.cut upper := hcut ▸ max_lt hlu h₁
  have hs := ho.sorted
  rw [cuts_cons, cuts_cons] at hs
  refine ⟨normal_pair hSn hSu hnl hu hlt, ?_, ?_, fun D => ?_, ho, fun _ _ => Iff.rfl⟩
  · simp [hcut, hlu.le, h₁.le]
  · intro d hd
    have hdl : d < sc.cut newLower := hcut ▸ lt_max_of_lt_right (hd _ (by simp))
    simp [hdl, hdl.trans hlt]
  · rw [cuts_cons, cuts_cons, cuts_nil, inside_cons_cons (by simpa using hlt), cuts_cons,
      cuts_cons, inside_cons_cons hs, hcut, max_mem_iff]
    constructor
    · rintro (⟨⟨hlD, holD⟩, huD⟩ | h)
      · exact ⟨⟨hlD, huD⟩, Or.inl ⟨holD, fun h => huD (D.lower hfirst h)⟩⟩
      · exact absurd h inside_nil
    · rintro ⟨⟨hlD, huD⟩, ⟨holD, -⟩ | h⟩
      · exact Or.inl ⟨⟨hlD, holD⟩, huD⟩
      · refine absurd h (not_inside_of_forall_notMem fun c hc hcD => huD (D.lower ?_ hcD))
        exact hfirst.trans (ho.head.2.2.2.2.2 c hc).le

/-- The ranges overlap and the other one ends first. -/
lemma Intersects.cons (hi : Intersects sc lower upper other emitted rest) (hSn : S newLower)
    (hnl : newLower.isLowerBound = true)
    (hcut : sc.cut newLower = max (sc.cut lower) (sc.cut oLower))
    (hlu : sc.cut lower < sc.cut upper) (ho : sc.Normal (oLower :: oUpper :: other))
    (h₁ : sc.cut oLower < sc.cut upper) (h₂ : sc.cut lower < sc.cut oUpper)
    (hfirst : sc.cut oUpper ≤ sc.cut upper) :
    Intersects sc lower upper (oLower :: oUpper :: other) (newLower :: oUpper :: emitted)
      rest := by
  obtain ⟨hSol, hSou, hol, hou, holu, hother⟩ := ho.head
  have hs := ho.sorted
  rw [cuts_cons, cuts_cons] at hs
  have hlt : sc.cut newLower < sc.cut oUpper := hcut ▸ max_lt h₂ holu
  have habove := hi.above (sc.cut oUpper) hother
  have hnormal : sc.Normal (newLower :: oUpper :: emitted) := by
    refine normal_append (normal_pair hSn hSou hnl hou hlt) hi.normal fun a ha b hb => ?_
    simp only [cuts_cons, cuts_nil, List.mem_cons, List.not_mem_nil, or_false] at ha
    rcases ha with rfl | rfl
    · exact hlt.trans (habove b hb)
    · exact habove b hb
  refine ⟨hnormal, ?_, ?_, fun D => ?_, hi.rest_normal, fun D huD => ?_⟩
  · simpa [hcut, h₂.le, h₁.le, hlu.le, hfirst] using hi.within
  · intro d hd
    have hdl : d < sc.cut newLower := hcut ▸ lt_max_of_lt_right (hd _ (by simp))
    simpa [hdl, hdl.trans hlt] using hi.above d fun c hc => hd c (by simp [hc])
  · have hs' := hnormal.sorted
    rw [cuts_cons, cuts_cons] at hs'
    rw [cuts_cons, cuts_cons, inside_cons_cons hs', cuts_cons, cuts_cons, inside_cons_cons hs,
      hcut, max_mem_iff, hi.inside]
    constructor
    · rintro (⟨⟨hlD, holD⟩, houD⟩ | ⟨hr, hI⟩)
      · exact ⟨⟨hlD, fun h => houD (D.lower hfirst h)⟩, Or.inl ⟨holD, houD⟩⟩
      · exact ⟨hr, Or.inr hI⟩
    · rintro ⟨⟨hlD, huD⟩, ⟨holD, houD⟩ | hI⟩
      · exact Or.inl ⟨⟨hlD, holD⟩, houD⟩
      · exact Or.inr ⟨⟨hlD, huD⟩, hI⟩
  · rw [hi.rest_inside D huD, inside_of_upper_mem ho (D.lower hfirst huD)]

end Cases

/-- The inner loop of `intersectSet` intersects the range with the other set. -/
lemma intersectRange_spec (hSl : S lower) (hSu : S upper) (hl : lower.isLowerBound = true)
    (hu : upper.isUpperBound = true) (hlu : sc.cut lower < sc.cut upper)
    (ho : sc.Normal other) :
    Intersects sc lower upper other (intersectRange type lower upper other).1
        (intersectRange type lower upper other).2.1 ∧
      ((intersectRange type lower upper other).2.2 = true →
        (intersectRange type lower upper other).2.1 = []) := by
  induction other using List.twoStepInduction with
  | nil => exact ⟨⟨normal_nil, by simp [intersectRange], by simp [intersectRange],
      by simp [intersectRange], normal_nil, by simp [intersectRange]⟩, fun _ => rfl⟩
  | singleton t => simpa using ho.even
  | cons_cons oLower oUpper other ih _ =>
    obtain ⟨hSol, hSou, hol, hou, -⟩ := ho.head
    obtain ⟨hi, hdone⟩ := ih ho.tail_tail
    simp only [intersectRange, endsBefore_iff sc hSol hSu hol hu,
      endsBefore_iff sc hSl hSou hl hou]
    by_cases h₁ : sc.cut upper ≤ sc.cut oLower
    · rw [if_pos h₁]
      exact ⟨intersects_of_le ho h₁, by simp⟩
    rw [if_neg h₁]
    by_cases h₂ : sc.cut oUpper ≤ sc.cut lower
    · rw [if_pos h₂]
      exact ⟨hi.skip ho hlu h₂, hdone⟩
    rw [if_neg h₂]
    rw [not_le] at h₁ h₂
    have hcut := cut_newLower sc hSl hSol hl
    have hfirst := cut_le_cut_of_endsFirst sc hSu hSou hu
    generalize hnew : (if lower.compareRaw type oLower < 0 ∨ (lower.compareRaw type oLower = 0 ∧
      lower.isInclusiveBound) then oLower else lower) = newLower at hcut ⊢
    have hSn : S newLower := by
      rw [← hnew]
      split <;> assumption
    have hnl : newLower.isLowerBound = true := by
      rw [← hnew]
      split <;> assumption
    split at hfirst
    · rename_i h₄
      rw [if_pos h₄]
      exact ⟨intersects_of_cut_le hSn hSu hnl hu hcut hlu ho h₁ hfirst, by simp⟩
    · rename_i h₄
      rw [if_neg h₄]
      exact ⟨hi.cons hSn hnl hcut hlu ho h₁ h₂ hfirst, hdone⟩

/-- `intersectSet` keeps the values that both sets have. -/
theorem intersectSet_spec (hn : sc.Normal ts) (ho : sc.Normal other) :
    sc.Normal (intersectSet type ts other) ∧
      (∀ d, (∀ c ∈ sc.cuts ts, d < c) → ∀ c ∈ sc.cuts (intersectSet type ts other), d < c) ∧
      ∀ D : LowerSet C, Inside D (sc.cuts (intersectSet type ts other)) ↔
        Inside D (sc.cuts ts) ∧ Inside D (sc.cuts other) := by
  induction ts using List.twoStepInduction generalizing other with
  | nil => exact ⟨normal_nil, by simp [intersectSet], by simp [intersectSet]⟩
  | singleton t => simpa using hn.even
  | cons_cons lower upper ts ih _ =>
    obtain ⟨hSl, hSu, hl, hu, hlu, hts⟩ := hn.head
    have hs := hn.sorted
    rw [cuts_cons, cuts_cons] at hs
    obtain ⟨hi, hdone⟩ := intersectRange_spec hSl hSu hl hu hlu ho
    have hwithin : ∀ d, (∀ c ∈ sc.cuts (lower :: upper :: ts), d < c) →
        ∀ c ∈ sc.cuts (intersectRange type lower upper other).1, d < c := fun d hd c hc =>
      (hd _ (by simp)).trans_le (hi.within c hc).1
    -- a point of a later range is above this one
    have hlater : ∀ D : LowerSet C, sc.cut upper ∉ D → ¬ Inside D (sc.cuts ts) := fun D hD =>
      not_inside_of_forall_notMem fun c hc hcD => hD (D.lower (hts c hc).le hcD)
    rw [intersectSet]
    split
    · -- the other set is exhausted
      rename_i hr
      refine ⟨hi.normal, hwithin, fun D => ?_⟩
      rw [hi.inside, cuts_cons, cuts_cons, inside_cons_cons hs]
      have hnone : Inside D (sc.cuts ts) → ¬ Inside D (sc.cuts other) := fun h => by
        rw [← hi.rest_inside D (by_contra fun hcon => hlater D hcon h), hdone hr]
        exact inside_nil
      tauto
    · obtain ⟨hn', habove, hD'⟩ := ih hn.tail_tail hi.rest_normal
      have habove' := habove (sc.cut upper) hts
      refine ⟨normal_append hi.normal hn' fun a ha b hb =>
        (hi.within a ha).2.trans_lt (habove' b hb), ?_, fun D => ?_⟩
      · intro d hd c hc
        rw [Scale.cuts_append, List.mem_append] at hc
        rcases hc with hc | hc
        · exact hwithin d hd c hc
        · exact habove d (fun c hc => hd c (by simp [hc])) c hc
      · rw [Scale.cuts_append]
        by_cases huD : sc.cut upper ∈ D
        · rw [inside_append_of_forall_mem fun c hc => D.lower (hi.within c hc).2 huD, length_cuts,
            iff_true_right hi.normal.even, hD', hi.rest_inside D huD,
            inside_of_upper_mem hn huD]
        · rw [inside_append_of_forall_notMem fun c hc hcD => huD (D.lower (habove' c hc).le hcD),
            hi.inside, cuts_cons, cuts_cons, inside_cons_cons hs, or_iff_left (hlater D huD)]

end ValueSet

end HpccPlatform
