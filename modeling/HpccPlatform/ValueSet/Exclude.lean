import HpccPlatform.ValueSet.History
import HpccPlatform.ValueSet.Links

/-!
# What `excludeSet` does to its argument

`A.excludeSet(B)` always leaves in `A` the values that are not in `B`.  It leaves `B` as it was
exactly when no bound of `B` is turned into a bound of `A`: a lower bound is when it cuts a range
of `A` in two, an upper bound when it cuts off the start of a range of `A`.
-/

namespace HpccPlatform

open ValueTransition

namespace ValueSet

open Scale CutList Heap

variable {α : Type*}

/-- The lower bound of a removed range has a part of a range of the set below it: it lies inside
the range, or it leaves only the first value of it. -/
def CutsLower (type : RtlTypeInfo α) (ts : List (ValueTransition α))
    (lower : ValueTransition α) : Prop :=
  ∃ p ∈ ranges ts, (p.1.compareRaw type lower < 0 ∧ lower.compareRaw type p.2 < 0) ∨
    (p.1.compareRaw type lower = 0 ∧ p.1.isInclusiveBound = true ∧ lower.isInclusiveBound = false)

/-- The upper bound of a removed range has a part of a range of the set above it: it is not below
the start of the range, and the range does not end there or before. -/
def CutsUpper (type : RtlTypeInfo α) (ts : List (ValueTransition α))
    (upper : ValueTransition α) : Prop :=
  ∃ p ∈ ranges ts, (p.1.compareRaw type upper < 0 ∨
      (p.1.compareRaw type upper = 0 ∧ upper.isInclusiveBound = true)) ∧
    (upper.compareRaw type p.2 < 0 ∨ (upper.compareRaw type p.2 = 0 ∧
      p.2.isInclusiveBound = true ∧ upper.isInclusiveBound = false))

instance (type : RtlTypeInfo α) (ts : List (ValueTransition α)) :
    DecidablePred (CutsLower type ts) := fun _ => inferInstanceAs (Decidable (∃ _ ∈ _, _))

instance (type : RtlTypeInfo α) (ts : List (ValueTransition α)) :
    DecidablePred (CutsUpper type ts) := fun _ => inferInstanceAs (Decidable (∃ _ ∈ _, _))

section Cuts

variable {type : RtlTypeInfo α} {Q : Type*} [LinearOrder Q] {r : Rank type.compare Q}
  {ts ts' other : List (ValueTransition α)} {lower upper : ValueTransition α}

/-- The ranges of a set, on the line of cuts. -/
lemma exists_ranges_iff (hn : (FullScale.scale r).Normal ts)
    {P : ValueTransition α × ValueTransition α → Prop} {D : LowerSet (FullScale.Place Q)}
    {q : Prop}
    (hP : ∀ p ∈ ranges ts, P p ↔ ((FullScale.scale r).cut p.1 ∈ D ∧
      (FullScale.scale r).cut p.2 ∉ D) ∧ q) :
    (∃ p ∈ ranges ts, P p) ↔ Inside D ((FullScale.scale r).cuts ts) ∧ q := by
  induction ts using List.twoStepInduction with
  | nil => simp [ranges]
  | singleton t => simpa using hn.even
  | cons_cons l u ts ih _ =>
    have hs := hn.sorted
    rw [cuts_cons, cuts_cons] at hs
    rw [cuts_cons, cuts_cons, inside_cons_cons hs, or_and_right,
      ← ih hn.tail_tail fun p hp => hP p (by simp [ranges, hp]), ← hP (l, u) (by simp [ranges])]
    simp [ranges]

/-- A removed range has a part of the set above it, on the line of cuts. -/
lemma cutsUpper_iff (hn : (FullScale.scale r).Normal ts) (hSu : upper.Full)
    (hu : upper.isLowerBound = false) :
    CutsUpper type ts upper ↔
      Inside (LowerSet.Iic ((FullScale.scale r).cut upper)) ((FullScale.scale r).cuts ts) ∧
        (upper.isInclusiveBound = true ∨
          (FullScale.scale r).cut upper ∉ (FullScale.scale r).cuts ts) := by
  refine exists_ranges_iff hn fun p hp => ?_
  have hr := isRange_of_mem hn hp
  have hS₁ : p.1.Full := hn.mem _ hr.lower_mem
  have hS₂ : p.2.Full := hn.mem _ hr.upper_mem
  have hmem : (FullScale.scale r).cut p.1 ∈ (FullScale.scale r).cuts ts :=
    List.mem_map_of_mem hr.lower_mem
  have hbefore : (p.1.compareRaw type upper < 0 ∨
      (p.1.compareRaw type upper = 0 ∧ upper.isInclusiveBound = true)) ↔
      (FullScale.scale r).cut p.1 < (FullScale.scale r).cut upper ∨
        ((FullScale.scale r).cut p.1 = (FullScale.scale r).cut upper ∧
          upper.isInclusiveBound = true) := by
    rw [FullScale.neg_iff r hS₁ hSu, FullScale.zero_iff r hS₁ hSu, FullScale.scale_cut,
      FullScale.scale_cut, Prod.Lex.toLex_lt_toLex, hr.isLowerBound, hu]
    cases p.1.isInclusiveBound <;> cases upper.isInclusiveBound <;> simp
  have hafter : (upper.compareRaw type p.2 < 0 ∨ (upper.compareRaw type p.2 = 0 ∧
      p.2.isInclusiveBound = true ∧ upper.isInclusiveBound = false)) ↔
      (FullScale.scale r).cut upper < (FullScale.scale r).cut p.2 := by
    rw [FullScale.neg_iff r hSu hS₂, FullScale.zero_iff r hSu hS₂, FullScale.scale_cut,
      FullScale.scale_cut, Prod.Lex.toLex_lt_toLex, hr.isUpperBound, hu]
    cases p.2.isInclusiveBound <;> cases upper.isInclusiveBound <;> simp
  rw [hbefore, hafter, LowerSet.mem_Iic_iff, LowerSet.mem_Iic_iff, not_le]
  constructor
  · rintro ⟨h₁ | ⟨h₁, hinc⟩, h₂⟩
    · refine ⟨⟨h₁.le, h₂⟩, Or.inr fun hc => ?_⟩
      rcases hr.outside _ hc with h | h
      · exact absurd h₁ (not_lt.2 h)
      · exact absurd h₂ (not_lt.2 h)
    · exact ⟨⟨h₁.le, h₂⟩, Or.inl hinc⟩
  · rintro ⟨⟨h₁, h₂⟩, h₃⟩
    refine ⟨?_, h₂⟩
    rcases h₁.lt_or_eq with h | h
    · exact Or.inl h
    · exact Or.inr ⟨h, h₃.resolve_right fun hc => hc (h ▸ hmem)⟩

/-- A removed range has a part of the set below it, on the line of cuts. -/
lemma cutsLower_iff (hn : (FullScale.scale r).Normal ts) (hSl : lower.Full) :
    CutsLower type ts lower ↔
      (Inside (LowerSet.Iic ((FullScale.scale r).hi lower)) ((FullScale.scale r).cuts ts) ∧
        (FullScale.scale r).lo lower ∉ (FullScale.scale r).cuts ts ∧
        (FullScale.scale r).hi lower ∉ (FullScale.scale r).cuts ts) ∨
      (Inside (LowerSet.Iic ((FullScale.scale r).lo lower)) ((FullScale.scale r).cuts ts) ∧
        (FullScale.scale r).lo lower ∈ (FullScale.scale r).cuts ts ∧
        lower.isInclusiveBound = false) := by
  set sc := FullScale.scale r with hsc
  have hlohi := sc.lo_lt_hi lower hSl
  simp only [CutsLower, and_or_left, exists_or]
  refine or_congr (exists_ranges_iff hn fun p hp => ?_) (exists_ranges_iff hn fun p hp => ?_)
  · have hr := isRange_of_mem hn hp
    have hS₁ : p.1.Full := hn.mem _ hr.lower_mem
    have hS₂ : p.2.Full := hn.mem _ hr.upper_mem
    have hmem : sc.cut p.1 ∈ sc.cuts ts := List.mem_map_of_mem hr.lower_mem
    rw [← FullScale.cut_lt_lo_iff r hS₁ hSl, ← FullScale.hi_lt_cut_iff r hSl hS₂,
      LowerSet.mem_Iic_iff, LowerSet.mem_Iic_iff, not_le]
    constructor
    · rintro ⟨h₁, h₂⟩
      refine ⟨⟨(h₁.trans hlohi).le, h₂⟩, fun hc => ?_, fun hc => ?_⟩
      · rcases hr.outside _ hc with h | h
        · exact absurd h₁ (not_lt.2 h)
        · exact absurd (hlohi.trans h₂) (not_lt.2 h)
      · rcases hr.outside _ hc with h | h
        · exact absurd (h₁.trans hlohi) (not_lt.2 h)
        · exact absurd h₂ (not_lt.2 h)
    · rintro ⟨⟨h₁, h₂⟩, hlo, hhi⟩
      refine ⟨lt_of_le_of_ne ?_ fun h => hlo (h ▸ hmem), h₂⟩
      rw [← not_lt, FullScale.lo_lt_iff, not_le]
      exact lt_of_le_of_ne h₁ fun h => hhi (h ▸ hmem)
  · have hr := isRange_of_mem hn hp
    have hS₁ : p.1.Full := hn.mem _ hr.lower_mem
    have hmem : sc.cut p.1 ∈ sc.cuts ts := List.mem_map_of_mem hr.lower_mem
    have hat : (p.1.compareRaw type lower = 0 ∧ p.1.isInclusiveBound = true) ↔
        sc.cut p.1 = sc.lo lower := by
      rw [FullScale.zero_iff r hS₁ hSl, hsc, FullScale.scale_cut, hr.isLowerBound]
      simp [FullScale.scale]
    rw [← and_assoc, hat, LowerSet.mem_Iic_iff, LowerSet.mem_Iic_iff, not_le]
    constructor
    · rintro ⟨h₁, hinc⟩
      exact ⟨⟨h₁.le, h₁ ▸ hr.cut_lt⟩, h₁ ▸ hmem, hinc⟩
    · rintro ⟨⟨h₁, h₂⟩, hc, hinc⟩
      refine ⟨le_antisymm h₁ ?_, hinc⟩
      exact (hr.outside _ hc).resolve_right (not_le.2 h₂)

/-- `killRange` modifies its lower bound when the removed range has a part of the set below it. -/
lemma modifiesLower_iff {A B : List (ValueTransition α)} {next : ValueTransition α}
    (h : Placed (FullScale.scale r) lower A next B) :
    modifiesLower type lower next = true ↔ CutsLower type (A ++ next :: B) lower := by
  set sc := FullScale.scale r with hsc
  have hSn := h.mem_next
  have hlohi := sc.lo_lt_hi lower h.mem
  have hnext := h.isLowerBound_next
  have hA : ∀ c ∈ sc.cuts A, c < sc.lo lower := by
    simp only [cuts, List.mem_map, forall_exists_index, and_imp, forall_apply_eq_imp_iff₂]
    intro a ha
    have hSa : a.Full := h.normal.mem a (by simp [ha])
    rw [hsc, FullScale.cut_lt_lo_iff r hSa h.mem, ← FullScale.compareRaw_swap r h.mem hSa]
    exact h.before a ha
  have hB : ∀ c ∈ sc.cuts B, sc.cut next < c := by
    simpa [cuts] using h.lt_cut
  have hloA : sc.lo lower ∉ sc.cuts A := fun hc => lt_irrefl _ (hA _ hc)
  have hhiA : sc.hi lower ∉ sc.cuts A := fun hc => lt_asymm hlohi (hA _ hc)
  -- membership right after the cut `d` of the bound, given what `next` is
  have hinside : ∀ d, sc.lo lower ≤ d → (∀ c ∈ sc.cuts B, d < c) →
      (Inside (LowerSet.Iic d) (sc.cuts (A ++ next :: B)) ↔
        ((sc.cut next ≤ d) ↔ Even A.length)) := by
    intro d hd hdB
    rw [Scale.cuts_append, cuts_cons, inside_append_of_forall_mem
      (fun c hc => LowerSet.mem_Iic_iff.2 ((hA c hc).le.trans hd)), length_cuts]
    have hnone : ¬ Inside (LowerSet.Iic d) (sc.cuts B) :=
      not_inside_of_forall_notMem fun c hc => by simpa using hdB c hc
    refine iff_congr ?_ Iff.rfl
    by_cases hle : sc.cut next ≤ d
    · rw [inside_cons_of_mem (LowerSet.mem_Iic_iff.2 hle)]
      simp [hnone, hle]
    · rw [inside_cons_of_notMem (by simpa using hle)]
      simp [hnone, hle]
  rw [cutsLower_iff h.normal h.mem, ← hsc, modifiesLower]
  rcases h.notAfter.lt_or_eq with hneg | hzero
  · -- `next` is above the values of the bound
    have hhi : sc.hi lower < sc.cut next := (FullScale.hi_lt_cut_iff r h.mem hSn).2 hneg
    have hhiB : ∀ c ∈ sc.cuts B, sc.hi lower < c := fun c hc => hhi.trans (hB c hc)
    have hlo : sc.lo lower ∉ sc.cuts (A ++ next :: B) := by
      simp only [Scale.cuts_append, cuts_cons, List.mem_append, List.mem_cons, not_or]
      exact ⟨hloA, (hlohi.trans hhi).ne, fun hc => lt_asymm hlohi (hhiB _ hc)⟩
    have hhi' : sc.hi lower ∉ sc.cuts (A ++ next :: B) := by
      simp only [Scale.cuts_append, cuts_cons, List.mem_append, List.mem_cons, not_or]
      exact ⟨hhiA, hhi.ne, fun hc => lt_irrefl _ (hhiB _ hc)⟩
    rw [if_neg hneg.ne, hSn.isUpperBound_eq, hnext, hinside _ hlohi.le hhiB]
    simp only [hlo, hhi', not_le.2 hhi, not_false_eq_true, and_true, false_and, and_false,
      or_false, false_iff]
    simp
  · obtain ⟨hlo, hhi⟩ := sc.eq_of_zero _ _ h.mem hSn hzero
    rw [if_pos hzero]
    by_cases hcut : next.isLowerBound = next.isInclusiveBound
    · -- `next` is at the first side of the values of the bound
      have hcut' : sc.cut next = sc.lo lower := by rw [sc.cut_eq_lo hcut, hlo]
      have hmem : sc.lo lower ∈ sc.cuts (A ++ next :: B) := by simp [← hcut']
      rw [hinside _ le_rfl (hcut' ▸ hB), hcut', ← hcut, hnext]
      simp only [hmem, not_true_eq_false, false_and, and_false, false_or, true_and, le_refl, true_iff]
      simp [and_comm]
    · have hcut' : sc.cut next = sc.hi lower := by
        rw [sc.cut_eq_hi (by simpa [← Bool.not_eq] using hcut), hhi]
      have hmem : sc.hi lower ∈ sc.cuts (A ++ next :: B) := by simp [← hcut']
      have hnot : sc.lo lower ∉ sc.cuts (A ++ next :: B) := by
        simp only [Scale.cuts_append, cuts_cons, List.mem_append, List.mem_cons, not_or]
        exact ⟨hloA, hcut' ▸ hlohi.ne, fun hc => lt_asymm hlohi (hcut' ▸ hB _ hc)⟩
      have hflag : (next.isLowerBound && next.isInclusiveBound) = false := by
        cases h₁ : next.isLowerBound <;> cases h₂ : next.isInclusiveBound <;> simp_all
      simp only [hmem, hnot, not_true_eq_false, and_false, false_and, or_self, iff_false,
        Bool.not_eq_true]
      rw [Bool.and_left_comm, hflag, Bool.and_false]

/-- `killRange` modifies its upper bound when an odd number of transitions remains above it,
unless the transition that it meets first ends or starts a range there already. -/
lemma modifiesUpper_iff (hSu : upper.Full) (hu : upper.isLowerBound = false)
    {rest : List (ValueTransition α)} (ht : Tail (FullScale.scale r) rest) :
    modifiesUpper type upper rest = true ↔
      Odd (((FullScale.scale r).cuts rest).filter ((FullScale.scale r).cut upper < ·)).length ∧
        ¬ ((FullScale.scale r).lo upper ∈ (FullScale.scale r).cuts rest ∧
          (FullScale.scale r).cut upper ∈ (FullScale.scale r).cuts rest) := by
  set sc := FullScale.scale r with hsc
  have hlohi := sc.lo_lt_hi upper hSu
  induction rest with
  | nil => simp [modifiesUpper]
  | cons cur rest ih =>
    have hSc : cur.Full := ht.mem cur (by simp)
    have hlower := ht.isLowerBound_eq
    have hupper := hSc.isUpperBound_eq
    have hlt := ht.cut_lt
    rw [modifiesUpper]
    rcases lt_trichotomy (cur.compareRaw type upper) 0 with hrc | hrc | hrc
    · -- below the upper bound: dropped
      have hlo : sc.cut cur < sc.lo upper := (FullScale.cut_lt_lo_iff r hSc hSu).2 hrc
      have hcut : sc.cut cur < sc.cut upper := hlo.trans_le (sc.lo_le_cut hSu)
      rw [if_neg (not_lt.2 hrc.le), if_neg hrc.ne, cuts_cons, filter_cons_of_le hcut.le]
      refine (ih ht.tail).trans ?_
      simp [hlo.ne', hcut.ne']
    · obtain ⟨hlo, hhi⟩ := sc.eq_of_zero _ _ hSc hSu hrc
      have hnext : sc.lo upper ∉ sc.cuts rest := fun hc => by
        have := hlt _ hc
        rw [← hlo] at this
        exact absurd this (not_lt.2 (sc.lo_le_cut hSc))
      have hrest : ∀ c ∈ sc.cuts rest, sc.hi upper ≤ c := fun c hc => by
        rw [← FullScale.lo_lt_iff, ← hsc, ← hlo]
        exact (sc.lo_le_cut hSc).trans_lt (hlt c hc)
      rw [if_neg (by simp [hrc]), if_pos hrc]
      rcases Nat.even_or_odd rest.length with he | ho
      · -- a range ends here
        have hcl : cur.isLowerBound = false := by simpa [Nat.not_odd_iff_even.2 he] using hlower
        rw [if_pos (by simp [hupper, hcl])]
        cases hci : cur.isInclusiveBound <;> cases hui : upper.isInclusiveBound
        · have hcut : sc.cut upper = sc.cut cur := by
            rw [sc.cut_eq_lo (by rw [hu, hui]), sc.cut_eq_lo (by rw [hcl, hci]), hlo]
          rw [hcut, ht.filter_cut_eq, length_cuts]
          simp [Nat.not_odd_iff_even.2 he]
        · have hcut : sc.cut upper = sc.hi upper := sc.cut_eq_hi (by simp [hu, hui])
          have hcut' : sc.cut cur = sc.lo upper := by rw [sc.cut_eq_lo (by rw [hcl, hci]), hlo]
          rw [hcut, cuts_cons, hcut', filter_cons_of_le hlohi.le]
          by_cases hmem : sc.hi upper ∈ sc.cuts rest
          · simp [hmem]
          · rw [List.filter_eq_self.2 fun c hc => by
              simpa using lt_of_le_of_ne (hrest c hc) fun h => hmem (h ▸ hc), length_cuts]
            simp [Nat.not_odd_iff_even.2 he]
        · have hcut : sc.cut upper = sc.lo upper := sc.cut_eq_lo (by rw [hu, hui])
          have hcut' : sc.cut cur = sc.hi upper := by
            rw [sc.cut_eq_hi (by simp [hcl, hci]), hhi]
          rw [ht.filter_eq_self (by rw [hcut, hcut']; exact hlohi), length_cuts, cuts_cons, hcut']
          simp [hnext, hlohi.ne, Nat.odd_add_one, Nat.not_odd_iff_even.2 he]
        · have hcut : sc.cut upper = sc.cut cur := by
            rw [sc.cut_eq_hi (by simp [hu, hui]), sc.cut_eq_hi (by simp [hcl, hci]), hhi]
          rw [hcut, ht.filter_cut_eq, length_cuts]
          simp [Nat.not_odd_iff_even.2 he]
      · have hcl : cur.isLowerBound = true := by simpa [ho] using hlower
        rw [if_neg (by simp [hupper, hcl])]
        cases hui : upper.isInclusiveBound with
        | false =>
          have hcut : sc.cut upper = sc.lo upper := sc.cut_eq_lo (by rw [hu, hui])
          cases hci : cur.isInclusiveBound with
          | true =>
            have hcut' : sc.cut cur = sc.lo upper := by rw [sc.cut_eq_lo (by rw [hcl, hci]), hlo]
            simp [hcut, hcut']
          | false =>
            have hcut' : sc.cut cur = sc.hi upper := by
              rw [sc.cut_eq_hi (by simp [hcl, hci]), hhi]
            rw [ht.filter_eq_self (by rw [hcut, hcut']; exact hlohi), length_cuts]
            simp [Nat.odd_add_one, ho]
        | true =>
          have hcut : sc.cut upper = sc.hi upper := sc.cut_eq_hi (by simp [hu, hui])
          have hle : sc.cut cur ≤ sc.hi upper := hhi ▸ sc.cut_le_hi hSc
          rw [if_neg (by simp), cuts_cons, hcut, filter_cons_of_le hle]
          refine (ih ht.tail).trans ?_
          rw [hcut]
          refine and_congr_right fun hodd => ?_
          simp only [hnext, false_and, not_false_eq_true, true_iff, List.mem_cons, or_false]
          rintro ⟨hlo', hhi'⟩
          rcases hhi' with hhi' | hhi'
          · exact hlohi.ne (hlo'.trans hhi'.symm)
          · -- the number of transitions would be even
            have hall : (sc.cuts rest).filter (sc.hi upper ≤ ·) = sc.cuts rest :=
              List.filter_eq_self.2 fun c hc => by simpa using hrest c hc
            have hlen := congrArg List.length (filter_le_of_mem ht.tail.sorted hhi')
            rw [hall, length_cuts, List.length_cons] at hlen
            rw [hlen] at ho
            exact (Nat.odd_add_one.1 ho) hodd
    · -- above the upper bound, with everything that follows
      have hhi : sc.hi upper < sc.cut cur :=
        (FullScale.hi_lt_cut_iff r hSu hSc).2 ((FullScale.compareRaw_swap r hSc hSu).1 hrc)
      have hcut : sc.cut upper < sc.cut cur := (sc.cut_le_hi hSu).trans_lt hhi
      have hnot : sc.cut upper ∉ sc.cuts (cur :: rest) := by
        simp only [cuts_cons, List.mem_cons, not_or]
        exact ⟨hcut.ne, fun hc => lt_asymm hcut (hlt _ hc)⟩
      rw [if_pos hrc, ht.filter_eq_self hcut, hupper, hlower, length_cuts, List.length_cons]
      simp only [hnot, and_false, not_false_eq_true, and_true]
      simp [Nat.odd_add_one]

/-- The cuts of a gap. -/
lemma closesGap_iff_mem (hn : (FullScale.scale r).Normal ts) (hSu : upper.Full) :
    ClosesGap type ts lower upper ↔ upper.isInclusiveBound = true ∧
      lower.compareRaw type upper < 0 ∧
      (FullScale.scale r).lo upper ∈ (FullScale.scale r).cuts ts ∧
      (FullScale.scale r).hi upper ∈ (FullScale.scale r).cuts ts ∧
      Odd (((FullScale.scale r).cuts ts).filter ((FullScale.scale r).hi upper < ·)).length := by
  set sc := FullScale.scale r with hsc
  have hbetween : (sc.cuts ts).filter (sc.lo upper < ·) = (sc.cuts ts).filter (sc.hi upper ≤ ·) :=
    List.filter_congr fun c _ => decide_eq_decide.2 (FullScale.lo_lt_iff r upper c)
  constructor
  · intro h
    obtain ⟨rest, hodd, hrest⟩ := h.filter_eq hn hSu
    have hmem : ∀ c ∈ sc.lo upper :: sc.hi upper :: rest, c ∈ sc.cuts ts := fun c hc => by
      rw [← hrest] at hc
      exact (List.mem_filter.1 hc).1
    have hlo := hmem _ (List.mem_cons_self ..)
    have hhi : sc.hi upper ∈ sc.cuts ts := hmem _ (by simp)
    rw [filter_le_of_mem hn.sorted hlo, ← hsc, hbetween, filter_le_of_mem hn.sorted hhi] at hrest
    obtain rfl := (List.cons.inj (List.cons.inj hrest).2).2
    exact ⟨h.1, h.2.1, hlo, hhi, hodd⟩
  · rintro ⟨hinc, hneg, hlo, hhi, hodd⟩
    refine closesGap_of_filter_eq hn hSu hinc hneg hodd ?_
    rw [← hsc, filter_le_of_mem hn.sorted hlo, hbetween, filter_le_of_mem hn.sorted hhi]

/-- `killRange` modifies neither of its bounds when the removed range has no part of the set
below it, and none above it unless it closes a gap. -/
lemma rangeModifies_iff (hn : (FullScale.scale r).Normal ts) (hSl : lower.Full) (hSu : upper.Full)
    (hl : lower.isLowerBound = true) (hu : upper.isLowerBound = false)
    (hne : isEmptyRange type lower upper = false) :
    rangeModifies type ts lower upper = (false, false) ↔
      ¬ CutsLower type ts lower ∧ (CutsUpper type ts upper → ClosesGap type ts lower upper) := by
  set sc := FullScale.scale r with hsc
  have hc := FullScale.scale_closed r
  have hu' : upper.isUpperBound = true := by simp [hSu.isUpperBound_eq, hu]
  have hlu : sc.cut lower < sc.cut upper := cut_lt_cut_of_isEmptyRange hSl hSu hl hu' hne
  have hhi : sc.hi lower ≤ sc.cut upper := hc.hi_le_cut hSl hSu hlu
  obtain ⟨A, B, hts, hlow, hA, hB⟩ := findLower_spec hn hSl hl
  have hcutA : ∀ a ∈ A, sc.cut a < sc.lo lower := fun a ha => by
    have hSa : a.Full := hn.mem a (by simp [hts, ha])
    rw [hsc, FullScale.cut_lt_lo_iff r hSa hSl, ← FullScale.compareRaw_swap r hSl hSa]
    exact hA a ha
  rw [rangeModifies, if_neg (by simp [hne])]
  simp only [hlow]
  cases B with
  | nil =>
    -- every transition is below the removed range
    obtain rfl : ts = A := by simpa using hts
    have hmem : ∀ c ∈ sc.cuts ts, c < sc.lo lower := by simpa [cuts] using hcutA
    have hnone : ∀ d, sc.lo lower ≤ d → ¬ Inside (LowerSet.Iic d) (sc.cuts ts) := fun d hd => by
      rw [inside_iff_odd_of_forall_mem fun c hc => LowerSet.mem_Iic_iff.2 ((hmem c hc).le.trans hd),
        length_cuts]
      exact Nat.not_odd_iff_even.2 hn.even
    have h₁ := hnone _ (sc.lo_lt_hi lower hSl).le
    have h₂ := hnone _ le_rfl
    have h₃ := hnone _ ((sc.lo_lt_hi lower hSl).le.trans hhi)
    simp [cutsLower_iff hn hSl, cutsUpper_iff hn hSu hu, ← hsc, h₁, h₂, h₃]
  | cons next B =>
    have hplaced : Placed sc lower A next B := ⟨hts ▸ hn, hSl, hl, hA, hB next B rfl⟩
    obtain ⟨P, R, hkill, hopen, -⟩ := killLower_spec hc hplaced
    obtain ⟨X, hX, hXraw⟩ := hopen.suffix
    rw [← hts] at hkill hopen hX
    have hget : ts[A.length]? = some next := by simp [hts]
    simp only [hget, hkill, List.drop_left, Prod.mk.injEq]
    refine and_congr ?_ ?_
    · rw [← Bool.not_eq_true, modifiesLower_iff hplaced, ← hts]
    have htail := hopen.tail hn
    -- the transitions that are not walked over are below the upper bound
    have hXle : ∀ c ∈ sc.cuts X, c ≤ sc.hi lower := by
      simp only [cuts, List.mem_map, forall_exists_index, and_imp, forall_apply_eq_imp_iff₂]
      intro x hx
      have hSx : x.Full := hn.mem x (by simp [hX, hx])
      rcases (hXraw x hx).lt_or_eq with hpos | hzero
      · exact (sc.cut_lt_cut_of_pos hSl hSx hpos).le.trans (sc.cut_le_hi hSl)
      · rw [(sc.eq_of_zero _ _ hSl hSx hzero.symm).2]
        exact sc.cut_le_hi hSx
    have hfilter : (sc.cuts ts).filter (sc.cut upper < ·) =
        (sc.cuts R).filter (sc.cut upper < ·) := by
      rw [hX, Scale.cuts_append, List.filter_append, List.filter_eq_nil_iff.2, List.nil_append]
      intro c hc
      simpa using (hXle c hc).trans hhi
    rw [← Bool.not_eq_true, modifiesUpper_iff hSu hu htail, cutsUpper_iff hn hSu hu,
      inside_Iic_iff hn.sorted (by simpa using hn.even), ← hsc, hfilter]
    rcases lt_or_ge (lower.compareRaw type upper) 0 with hneg | hge
    · have hlo : sc.hi lower < sc.lo upper := by
        simp only [hsc, FullScale.scale, Prod.Lex.toLex_lt_toLex]
        exact Or.inl ((FullScale.neg_iff r hSl hSu).1 hneg)
      have hmem : ∀ c, sc.lo upper ≤ c → (c ∈ sc.cuts ts ↔ c ∈ sc.cuts R) := by
        intro c hle
        rw [hX, Scale.cuts_append, List.mem_append, or_iff_right]
        exact fun hcX => absurd (hlo.trans_le hle) (not_lt.2 (hXle c hcX))
      rw [closesGap_iff_mem hn hSu, ← hsc, hmem _ le_rfl, hmem _ (sc.lo_le_cut hSu),
        hmem _ (sc.lo_lt_hi upper hSu).le]
      cases hui : upper.isInclusiveBound with
      | false =>
        rw [sc.cut_eq_lo (a := upper) (by rw [hu, hui])]
        simp
      | true =>
        rw [← sc.cut_eq_hi (a := upper) (by simp [hu, hui]), hfilter]
        simp only [hneg, true_and, true_or, and_true]
        tauto
    · -- the removed range is a single value
      have hzero : lower.compareRaw type upper = 0 := by
        simp only [isEmptyRange, Bool.or_eq_false_iff, decide_eq_false_iff_not, not_lt] at hne
        exact le_antisymm hne.1 hge
      have hinc : lower.isInclusiveBound = true ∧ upper.isInclusiveBound = true := by
        simpa [isEmptyRange, hzero] using hne
      have hlo : sc.lo upper ∉ sc.cuts R := by
        rw [← (sc.eq_of_zero _ _ hSl hSu hzero).1, ← sc.cut_eq_lo (by rw [hl, hinc.1])]
        intro hc
        obtain ⟨t, ht, heq⟩ := List.mem_map.1 hc
        exact absurd heq (hopen.above hinc.1 t ht).ne'
      have hgap : ¬ ClosesGap type ts lower upper := fun h => absurd h.2.1 (not_lt.2 hge)
      simp [hlo, hgap, hinc.2]

/-- A removed range that modifies no bound changes nothing about the ranges above it. -/
lemma cuts_fill_iff (hn : (FullScale.scale r).Normal ts) (hn' : (FullScale.scale r).Normal ts')
    {l u : ValueTransition α} (hSu₀ : u.Full) (hu₀ : u.isLowerBound = false)
    (hlu₀ : (FullScale.scale r).cut l < (FullScale.scale r).cut u)
    (hcuts : (FullScale.scale r).cuts ts' = fill false ((FullScale.scale r).cut l)
      ((FullScale.scale r).cut u) ((FullScale.scale r).cuts ts))
    (hno : CutsUpper type ts u → ClosesGap type ts l u)
    (hSl : lower.Full) (hSu : upper.Full) (hu : upper.isLowerBound = false)
    (hlt : (FullScale.scale r).cut u < (FullScale.scale r).cut lower)
    (hlu : (FullScale.scale r).cut lower < (FullScale.scale r).cut upper) :
    (CutsLower type ts' lower ↔ CutsLower type ts lower) ∧
      (CutsUpper type ts' upper ↔ CutsUpper type ts upper) := by
  set sc := FullScale.scale r with hsc
  have hinside : ∀ D : LowerSet (FullScale.Place Q), sc.cut u ∈ D →
      (Inside D (sc.cuts ts') ↔ Inside D (sc.cuts ts)) := by
    intro D hD
    rw [hcuts, inside_fill false hlu₀ hn.sorted (by simpa using hn.even)]
    simp [hD]
  have hmem : ∀ c, sc.cut u < c → (c ∈ sc.cuts ts' ↔ c ∈ sc.cuts ts) := by
    intro c hc
    have hfilter := congrArg (c ∈ ·) (filter_le_fill false hlu₀ hc (sc.cuts ts))
    rw [← hcuts] at hfilter
    simpa using hfilter
  have hlo : sc.cut u ≤ sc.lo lower := by
    rw [← not_lt, FullScale.lo_lt_iff, not_le]
    exact hlt.trans_le (sc.cut_le_hi hSl)
  have hlohi := sc.lo_lt_hi lower hSl
  constructor
  · rw [cutsLower_iff hn' hSl, cutsLower_iff hn hSl, ← hsc,
      hinside (LowerSet.Iic (sc.hi lower)) (LowerSet.mem_Iic_iff.2 (hlo.trans hlohi.le)),
      hinside (LowerSet.Iic (sc.lo lower)) (LowerSet.mem_Iic_iff.2 hlo),
      hmem _ (hlo.trans_lt hlohi)]
    rcases hlo.lt_or_eq with hlt' | heq
    · rw [hmem _ hlt']
    · -- the removed range ends where this one starts, and both leave the value out
      have hinc : u.isInclusiveBound = false := by
        rw [hsc, FullScale.scale_cut, hu₀] at heq
        simpa [FullScale.scale] using congrArg (fun p => (ofLex p).2) heq
      have hstart : Inside (LowerSet.Iic (sc.lo lower)) (sc.cuts ts) →
          sc.lo lower ∈ sc.cuts ts := by
        intro hin
        by_contra hc
        have := (hno ((cutsUpper_iff hn hSu₀ hu₀).2 ⟨by rwa [← hsc, heq], Or.inr (by rwa [← hsc, heq])⟩)).1
        simp [hinc] at this
      have hstart' : Inside (LowerSet.Iic (sc.lo lower)) (sc.cuts ts) →
          sc.lo lower ∈ sc.cuts ts' := by
        intro hin
        rw [inside_Iic_iff hn.sorted (by simpa using hn.even)] at hin
        rw [hcuts, heq, fill, List.mem_append, closePart_of_odd hin]
        simp
      have hnext : sc.hi lower ∉ sc.cuts ts → Inside (LowerSet.Iic (sc.hi lower)) (sc.cuts ts) →
          Inside (LowerSet.Iic (sc.lo lower)) (sc.cuts ts) := by
        intro hc
        rw [inside_Iic_iff hn.sorted (by simpa using hn.even),
          inside_Iic_iff hn.sorted (by simpa using hn.even)]
        suffices h : (sc.cuts ts).filter (sc.hi lower < ·) = (sc.cuts ts).filter (sc.lo lower < ·) by
          rw [h]
          exact id
        refine List.filter_congr fun d hd => decide_eq_decide.2 ?_
        rw [hsc, FullScale.lo_lt_iff, ← hsc]
        exact ⟨le_of_lt, fun h => lt_of_le_of_ne h fun h => hc (h ▸ hd)⟩
      tauto
  · rw [cutsUpper_iff hn' hSu hu, cutsUpper_iff hn hSu hu, ← hsc,
      hinside _ (LowerSet.mem_Iic_iff.2 (hlt.trans hlu).le), hmem _ (hlt.trans hlu)]

end Cuts

end ValueSet

namespace Heap

open Scale CutList ValueSet

variable {α : Type*} {type : RtlTypeInfo α}

/-- No bound of the other set is turned into a bound of this one. -/
def KeepsBounds (type : RtlTypeInfo α) (ts other : List (ValueTransition α)) : Prop :=
  ∀ p ∈ ranges other, ¬ CutsLower type ts p.1 ∧
    (CutsUpper type ts p.2 → ClosesGap type ts p.1 p.2)

instance (ts other : List (ValueTransition α)) : Decidable (KeepsBounds type ts other) :=
  inferInstanceAs (Decidable (∀ _ ∈ _, _))

section Run

variable {Q : Type*} [LinearOrder Q] {r : Rank type.compare Q}

/-- `excludeSet` on links, from the range at which it has arrived: `done` are the bounds of the
other set that have been dealt with and `rest` those still to come. -/
lemma excludeSet_sim {h : Heap α} {items rest : List ℕ} (done : List ℕ)
    (hh : h.Held items (done ++ rest)) (hdisj : ∀ s ∈ rest, s ∉ items)
    (hn : (FullScale.scale r).Normal (h.deref items))
    (ho : (FullScale.scale r).Normal (h.deref rest)) :
    ∃ h' items', excludeSet type h items rest = .ok (h', items') ∧
      ValueSet.excludeSet type (h.deref items) (h.deref rest) = .ok (h'.deref items') ∧
      (∀ s ∈ done, h'.object s = h.object s) ∧
      (h'.deref rest = h.deref rest ↔ KeepsBounds type (h.deref items) (h.deref rest)) := by
  have hc := FullScale.scale_closed r
  induction rest using List.twoStepInduction generalizing h items done with
  | nil => exact ⟨h, items, rfl, rfl, fun _ _ => rfl, by simp [KeepsBounds, ranges]⟩
  | singleton t => simpa using ho.even
  | cons_cons lower upper rest ih _ =>
    rw [deref_cons, deref_cons] at ho
    obtain ⟨hSl, hSu, hl, hu, hlu, hrest⟩ := ho.head
    have hu' : (h.object upper).isLowerBound = false := by simpa [hu] using hSu.isUpperBound_eq
    have hne : isEmptyRange type (h.object lower) (h.object upper) = false := by
      by_contra hcon
      exact not_lt.2 (cut_le_cut_of_isEmptyRange hSl hSu hl hu (by simpa using hcon)) hlu
    obtain ⟨ts₁, hok₁, hn₁, hcuts⟩ := killRange_cuts hc
      (show (some (h.object lower)).getD .minimum = h.object lower from rfl)
      (show (some (h.object upper)).getD .maximum = h.object upper from rfl) hn hSl hSu hl hu hne
    -- the two bounds are in the other set once
    have hnodup := hh.nodup_other
    simp only [List.nodup_append, List.nodup_cons, List.mem_cons, not_or] at hnodup
    obtain ⟨-, ⟨⟨hlu', hlr⟩, hur, -⟩, hdone⟩ := hnodup
    obtain ⟨h₁, items₁, hk₁, rfl, hh₁, hframe₁, hmem₁, hmod₁⟩ := killRange_sim hh (by simp) (by simp)
      (hdisj lower (by simp)) (hdisj upper (by simp)) hlu' hl hu hu'
      (fun s hs => (hn.mem _ (List.mem_map_of_mem hs)).subLength_eq) hok₁
    have hrest₁ : h₁.deref rest = h.deref rest := deref_congr fun s hs =>
      hframe₁ s (by simp [hs]) (by rintro rfl; exact hlr hs) (by rintro rfl; exact hur hs)
    obtain ⟨h', items', hk', hpure', hdone', hiff'⟩ := ih (done ++ [lower, upper])
      (by simpa using hh₁) (fun s hs hcon => by
        rcases hmem₁ s hcon with hcon | rfl | rfl | hcon
        · exact hdisj s (by simp [hs]) hcon
        · exact hlr hs
        · exact hur hs
        · exact hcon (by simp [hs])) hn₁ (by rw [hrest₁]; exact ho.tail_tail)
    rw [hrest₁] at hpure' hiff'
    refine ⟨h', items', by rw [excludeSet, hk₁]; exact hk', ?_, fun s hs => ?_, ?_⟩
    · rw [deref_cons, deref_cons, ValueSet.excludeSet, hok₁]
      exact hpure'
    · rw [hdone' s (by simp [hs])]
      refine hframe₁ s (by simp [hs]) (fun heq => ?_) (fun heq => ?_)
      · exact hdone s hs lower (by simp) heq
      · exact hdone s hs upper (by simp) heq
    · have hhead := rangeModifies_iff hn hSl hSu hl hu' hne
      simp only [KeepsBounds, deref_cons, ranges, List.forall_mem_cons, List.cons.injEq,
        hdone' lower (by simp), hdone' upper (by simp)]
      rw [← and_assoc, hmod₁, hhead]
      refine and_congr_right fun hkeep => hiff'.trans ?_
      refine forall₂_congr fun p hp => ?_
      have hr := isRange_of_mem ho.tail_tail hp
      have hS₁ : p.1.Full := ho.tail_tail.mem _ hr.lower_mem
      have hS₂ : p.2.Full := ho.tail_tail.mem _ hr.upper_mem
      have hlt := hrest _ (List.mem_map_of_mem hr.lower_mem)
      obtain ⟨hlower, hupper⟩ := cuts_fill_iff hn hn₁ hSu hu' hlu hcuts hkeep.2 hS₁ hS₂
        hr.isUpperBound hlt hr.cut_lt
      rw [hlower, hupper, closesGap_fill_iff hn hn₁ false hlu hcuts hS₁ hS₂ hlt]

end Run

/-- Every transition of the two sets is held by exactly one of them. -/
structure HeldOnce (h : Heap α) (items other : List ℕ) : Prop where
  links_eq : ∀ s ∈ items ++ other, h.links s = 1
  lt_size : ∀ s ∈ items ++ other, s < h.size
  nodup : (items ++ other).Nodup

lemma HeldOnce.held {h : Heap α} {items other : List ℕ} (hh : h.HeldOnce items other) :
    h.Held items other := by
  refine ⟨fun s hs => ?_, hh.lt_size, (List.nodup_append.1 hh.nodup).1,
    (List.nodup_append.1 hh.nodup).2.1⟩
  rw [hh.links_eq s hs, ← List.count_append, List.count_eq_one_of_mem hh.nodup hs]

/-- After `excludeSet` the set has the values that it had and the other set has not. -/
def Excludes (type : RtlTypeInfo α) (h : Heap α) (items other : List ℕ) (h' : Heap α)
    (items' : List ℕ) : Prop :=
  ∀ x, matchesField type (h'.deref items') x =
    (matchesField type (h.deref items) x && !matchesField type (h.deref other) x)

/-- `excludeSet` removes the values of the other set, whatever the two sets are, and it leaves the
other set as it was exactly when it keeps its bounds. -/
theorem excludeSet_spec (horder : TotalOrder type.compare) {h : Heap α} {items other : List ℕ}
    (hh : h.HeldOnce items other) (hA : IsSet type (h.deref items))
    (hB : IsSet type (h.deref other)) :
    ∃ h' items', excludeSet type h items other = .ok (h', items') ∧
      Excludes type h items other h' items' ∧
      (h'.deref other = h.deref other ↔ KeepsBounds type (h.deref items) (h.deref other)) := by
  obtain ⟨Q, _, ⟨r⟩⟩ := horder.exists_rank
  have hc := FullScale.scale_closed r
  have hn := (wellFormed_iff_normal r hA.full).1 hA.wellFormed
  have ho := (wellFormed_iff_normal r hB.full).1 hB.wellFormed
  obtain ⟨h', items', hk, hpure, -, hiff⟩ := excludeSet_sim [] hh.held
    (fun s hs hcon => (List.nodup_append.1 hh.nodup).2.2 s hcon s hs rfl) hn ho
  obtain ⟨ts', hok, hn', hD⟩ := ValueSet.excludeSet_spec hc hn ho
  obtain rfl := Except.ok.inj (hpure.symm.trans hok)
  refine ⟨h', items', hk, fun x => ?_, hiff⟩
  rw [Bool.eq_iff_iff, Bool.and_eq_true, Bool.not_eq_true', ← Bool.not_eq_true,
    matchesField_iff hn' (hc.wide hn'), matchesField_iff hn (hc.wide hn),
    matchesField_iff ho (hc.wide ho)]
  exact hD _

/-- `excludeSet` leaves this set without the values of the other one, and the other one alone. -/
def LeavesOther (type : RtlTypeInfo α) (h : Heap α) (items other : List ℕ) : Prop :=
  ∃ h' items', excludeSet type h items other = .ok (h', items') ∧
    Excludes type h items other h' items' ∧ h'.deref other = h.deref other

/-! ## Two sets of integers -/

/-- A heap with the transitions of two sets. -/
def ofSets (ts other : List (ValueTransition α)) : Heap α where
  object i := (ts ++ other).getD i .minimum
  links i := if i < (ts ++ other).length then 1 else 0
  size := (ts ++ other).length

/-- A single range of integers. -/
def intRange (lower upper : Bound ℤ) : List (ValueTransition ℤ) :=
  [lower.lower History.intType, upper.upper History.intType]

lemma full_intRange (lower upper : Bound ℤ) : ∀ t ∈ intRange lower upper, t.Full := by
  intro t ht
  rcases List.mem_pair.1 ht with rfl | rfl
  · exact (History.full_lower _ (some lower)).1
  · exact (History.full_upper _ (some upper)).1

/-- A set of which the whole range is removed. -/
def covered : Heap ℤ := ofSets (intRange ⟨1, true⟩ ⟨9, true⟩) (intRange ⟨0, true⟩ ⟨9, true⟩)

/-- A set from the middle of which a range is removed. -/
def divided : Heap ℤ := ofSets (intRange ⟨1, true⟩ ⟨9, true⟩) (intRange ⟨3, true⟩ ⟨5, true⟩)

end Heap

end HpccPlatform
