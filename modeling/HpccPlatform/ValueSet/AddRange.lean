import HpccPlatform.ValueSet.Scale

/-!
# Adding a range

`addRange` on a set in normal form fills the line of cuts between its two bounds
(`addRange_cuts`), with one exception.  When the set leaves out a single value `v` (one range ends
before `v` and the next one starts after it) and the added range comes from below and ends
inclusively at `v`, the upper bound of the first range is replaced but the second range is not
merged with it.  `ClosesGap` is that situation, and `addRange_closesGap` shows that it always leaves
two ranges that touch at the included value `v`.
-/

namespace HpccPlatform

namespace ValueSet

open Scale CutList

variable {α : Type*} {type : RtlTypeInfo α} {S : ValueTransition α → Prop} {C : Type*}
  [LinearOrder C] {sc : Scale type S C} {ts : List (ValueTransition α)}
  {lower upper : ValueTransition α}

/-! ## The bounds of a range -/

/-- A range that is not empty starts below the cut at which it ends. -/
lemma cut_lt_cut_of_isEmptyRange (hSl : S lower) (hSu : S upper)
    (hl : lower.isLowerBound = true) (hu : upper.isUpperBound = true)
    (h : isEmptyRange type lower upper = false) : sc.cut lower < sc.cut upper := by
  simp only [isEmptyRange, Bool.or_eq_false_iff, decide_eq_false_iff_not, not_lt,
    Bool.and_eq_false_iff, Bool.not_eq_false', beq_eq_false_iff_ne, ne_eq] at h
  rcases lt_or_eq_of_le h.1 with hneg | hzero
  · exact sc.cut_lt_cut_of_neg hSl hSu hneg
  · obtain ⟨hil, hiu⟩ := h.2.resolve_left (by simp [hzero])
    have hu' : upper.isLowerBound = false := by simpa [hu] using sc.isUpperBound_eq upper hSu
    rw [sc.cut_eq_lo (by rw [hl, hil]), sc.cut_eq_hi (by rw [hu', hiu]; rfl),
      (sc.eq_of_zero _ _ hSl hSu hzero).1]
    exact sc.lo_lt_hi upper hSu

/-- An empty range does not start below the cut at which it ends. -/
lemma cut_le_cut_of_isEmptyRange (hSl : S lower) (hSu : S upper)
    (hl : lower.isLowerBound = true) (hu : upper.isUpperBound = true)
    (h : isEmptyRange type lower upper = true) : sc.cut upper ≤ sc.cut lower := by
  simp only [isEmptyRange, Bool.or_eq_true, decide_eq_true_eq, Bool.and_eq_true,
    Bool.not_eq_true', beq_iff_eq] at h
  have hu' : upper.isLowerBound = false := by simpa [hu] using sc.isUpperBound_eq upper hSu
  rcases h with hpos | ⟨hzero, hil | hiu⟩
  · exact (sc.cut_lt_cut_of_pos hSl hSu hpos).le
  · rw [sc.cut_eq_hi (a := lower) (by rw [hl, hil]; rfl), (sc.eq_of_zero _ _ hSl hSu hzero).2]
    exact sc.cut_le_hi hSu
  · rw [sc.cut_eq_lo (a := upper) (by rw [hu', hiu]), ← (sc.eq_of_zero _ _ hSl hSu hzero).1]
    exact sc.lo_le_cut hSl

/-! ## Finding the lower bound -/

/-- A transition that is not below the lower bound is followed by such transitions only. -/
lemma compareRaw_le_zero_of_le (hn : sc.Normal ts) (hSl : S lower)
    (hl : lower.isLowerBound = true) {i j : ℕ} (hj : j < ts.length) (hij : i ≤ j)
    (h : lower.compareRaw type ts[i] ≤ 0) : lower.compareRaw type ts[j] ≤ 0 := by
  by_contra hpos
  have hSi : S ts[i] := hn.mem _ (List.getElem_mem _)
  have hSj : S ts[j] := hn.mem _ (List.getElem_mem _)
  have hlt : sc.cut ts[j] < sc.cut lower := sc.cut_lt_cut_of_pos hSl hSj (not_le.1 hpos)
  have hle : sc.cut ts[i] ≤ sc.cut ts[j] := hn.cut_le_cut hij hj
  rcases lt_or_eq_of_le h with hneg | hzero
  · exact absurd (sc.cut_lt_cut_of_neg hSl hSi hneg) (not_lt.2 (hle.trans hlt.le))
  · -- the two bounds have the same values, so `lower` must be the exclusive one
    obtain ⟨hlo, hhi⟩ := sc.eq_of_zero _ _ hSl hSi hzero
    have hexc : lower.isInclusiveBound = false := by
      by_contra hinc
      have hcut : sc.cut lower = sc.lo lower := sc.cut_eq_lo (by simp [hl, hinc])
      exact absurd (hlo ▸ sc.lo_le_cut hSi) (not_le.2 (hcut ▸ hle.trans_lt hlt))
    have hcut : sc.cut lower = sc.hi lower := sc.cut_eq_hi (by simp [hl, hexc])
    rcases sc.cut_le_lo_or_hi_le_cut hSl hSj hexc with h | h
    · have heq : i = j := by
        by_contra hne
        have := hn.cut_lt_cut (i := i) (j := j) (by omega) hj
        exact absurd (hlo ▸ sc.lo_le_cut hSi) (not_le.2 (this.trans_le h))
      subst heq
      omega
    · exact absurd (hcut ▸ hlt) (not_lt.2 h)

/-- The chop splits the transitions into those below the lower bound and the others. -/
lemma findLower_spec (hn : sc.Normal ts) (hSl : S lower) (hl : lower.isLowerBound = true) :
    ∃ A B, ts = A ++ B ∧ findLower type ts lower = A.length ∧
      (∀ a ∈ A, 0 < lower.compareRaw type a) ∧
      (∀ b B', B = b :: B' → lower.compareRaw type b ≤ 0) := by
  obtain ⟨p, hp, hpi⟩ : ∃ p : ℕ → Bool, findLower type ts lower = BinaryChop.chop p ts.length 0 ts.length ∧
      ∀ i, ∀ h : i < ts.length, (p i = true ↔ lower.compareRaw type ts[i] ≤ 0) :=
    ⟨_, rfl, fun i h => by simp [List.getElem?_eq_getElem h]⟩
  have hrise : BinaryChop.Rises p 0 ts.length := by
    intro i j _ hij hj h
    rw [hpi j hj]
    exact compareRaw_le_zero_of_le hn hSl hl hj hij ((hpi i (by omega)).1 h)
  obtain ⟨-, hle, hbelow, hat⟩ := BinaryChop.chop_spec (Nat.zero_le ts.length) (Nat.sub_le ts.length 0) hrise
  rw [← hp] at hle hbelow hat
  set low := findLower type ts lower
  refine ⟨ts.take low, ts.drop low, (List.take_append_drop low ts).symm,
    by simp [hle], fun a ha => ?_, fun b B' hB => ?_⟩
  · obtain ⟨i, hi, rfl⟩ := List.mem_take_iff_getElem.1 ha
    have hi' : i < low ∧ i < ts.length := by simpa using hi
    have := hbelow i (Nat.zero_le i) hi'.1
    by_contra hcon
    rw [(hpi i hi'.2).2 (not_lt.1 hcon)] at this
    exact absurd this (by simp)
  · have hlt : low < ts.length := by
      by_contra hge
      rw [List.drop_eq_nil_of_le (not_lt.1 hge)] at hB
      exact absurd hB (by simp)
    have hb : b = ts[low] := by
      rw [List.drop_eq_getElem_cons hlt] at hB
      exact (List.cons.inj hB).1.symm
    rw [hb]
    exact (hpi low hlt).1 (hat hlt)

/-! ## Placing the upper bound -/

/-- What the loops over the transitions from `idx` on rely on: they are the end of a set in normal
form. -/
structure Tail (sc : Scale type S C) (rest : List (ValueTransition α)) : Prop where
  mem : ∀ t ∈ rest, S t
  sorted : (sc.cuts rest).Pairwise (· < ·)
  alternates : Alternates (decide (Even rest.length)) rest

namespace Tail

variable {cur : ValueTransition α} {rest : List (ValueTransition α)}

lemma tail (h : Tail sc (cur :: rest)) : Tail sc rest := by
  refine ⟨fun t ht => h.mem t (by simp [ht]), (List.pairwise_cons.1 h.sorted).2, ?_⟩
  have := h.alternates.2
  rcases Nat.even_or_odd rest.length with he | he
  · simpa [Nat.even_add_one, he] using this
  · simpa [Nat.even_add_one, Nat.not_even_iff_odd.2 he] using this

/-- A lower bound is followed by an odd number of transitions. -/
lemma isLowerBound_eq (h : Tail sc (cur :: rest)) :
    cur.isLowerBound = decide (Odd rest.length) := by
  have := h.alternates.1
  rw [this, List.length_cons]
  simp [Nat.even_add_one]

lemma cut_lt (h : Tail sc (cur :: rest)) : ∀ c ∈ sc.cuts rest, sc.cut cur < c :=
  (List.pairwise_cons.1 h.sorted).1

/-- When the first transition is above a cut, all of them are. -/
lemma filter_eq_self (h : Tail sc (cur :: rest)) {u : C} (hu : u < sc.cut cur) :
    (sc.cuts (cur :: rest)).filter (u < ·) = sc.cuts (cur :: rest) := by
  rw [List.filter_eq_self]
  simp only [cuts_cons, List.mem_cons, decide_eq_true_eq, forall_eq_or_imp]
  exact ⟨hu, fun c hc => hu.trans (h.cut_lt c hc)⟩

/-- Only the transitions after the first one are above its cut. -/
lemma filter_cut_eq (h : Tail sc (cur :: rest)) :
    (sc.cuts (cur :: rest)).filter (sc.cut cur < ·) = sc.cuts rest := by
  rw [cuts_cons, List.filter_cons_of_neg (by simp), List.filter_eq_self]
  simpa using h.cut_lt

end Tail

/-- A range that ends below the cut of a lower bound does not run into it. -/
lemma isPreviousBound_eq_false {a b : ValueTransition α} (hSa : S a) (hSb : S b)
    (ha : a.isLowerBound = false) (hb : b.isLowerBound = true) (hlt : sc.cut a < sc.cut b) :
    a.isPreviousBound type b = false := by
  by_contra h
  simp only [ValueTransition.isPreviousBound, Bool.not_eq_false, Bool.and_eq_true,
    Bool.or_eq_true, beq_iff_eq] at h
  obtain ⟨hinc, hzero⟩ := h
  obtain ⟨hlo, hhi⟩ := sc.eq_of_zero _ _ hSa hSb hzero
  rcases hinc with hinc | hinc
  · rw [sc.cut_eq_hi (by simp [ha, hinc]), hhi] at hlt
    exact absurd (sc.cut_le_hi hSb) (not_le.2 hlt)
  · rw [sc.cut_eq_lo (a := b) (by simp [hb, hinc]), ← hlo] at hlt
    exact absurd (sc.lo_le_cut hSa) (not_le.2 hlt)

/-- The transitions that follow an inclusive lower bound do not end among its values. -/
def WideStep (sc : Scale type S C) (a n : ValueTransition α) : Prop :=
  a.isLowerBound = true → a.isInclusiveBound = true → sc.hi a ≤ sc.cut n

/-- The value at which `t` ends exclusively and `upper` inclusively is not where `u` starts. -/
def GapStep (sc : Scale type S C) (upper t u : ValueTransition α) : Prop :=
  upper.isInclusiveBound = true → t.isUpperBound = true → t.isInclusiveBound = false →
    t.compareRaw type upper = 0 → sc.cut u ≠ sc.cut upper

/-- The second half of `addRange` at a transition with the same values as the upper bound. -/
lemma addUpper_of_zero (hSu : S upper) (hu : upper.isUpperBound = true)
    {cur : ValueTransition α} {rest : List (ValueTransition α)} (ht : Tail sc (cur :: rest))
    (hwide : (cur :: rest).IsChain (WideStep sc))
    (hgap : (cur :: rest).IsChain (GapStep sc upper)) (hrc : cur.compareRaw type upper = 0) :
    ∃ rest', addUpper type upper (cur :: rest) = .ok rest' ∧
      sc.cuts rest' =
        closePart true (sc.cut upper) ((sc.cuts (cur :: rest)).filter (sc.cut upper < ·)) ∧
      Alternates false rest' ∧ ∀ t ∈ rest', t ∈ cur :: rest ∨ t = upper := by
  have hSc : S cur := ht.mem cur (by simp)
  have hu' : upper.isLowerBound = false := by simpa [hu] using sc.isUpperBound_eq upper hSu
  have hupper := sc.isUpperBound_eq cur hSc
  have hlower := ht.isLowerBound_eq
  have hlohi := sc.lo_lt_hi upper hSu
  obtain ⟨hlo, hhi⟩ := sc.eq_of_zero _ _ hSc hSu hrc
  rcases Nat.even_or_odd rest.length with he | ho
  · -- an upper bound: keep the higher of the two
    have hcl : cur.isLowerBound = false := by simpa [Nat.not_odd_iff_even.2 he] using hlower
    have hcu : cur.isUpperBound = true := by simpa [hcl] using hupper
    have halt : Alternates true rest := by simpa [he] using ht.tail.alternates
    cases hic : cur.isInclusiveBound <;> cases hiu : upper.isInclusiveBound
    · have hcut : sc.cut upper = sc.cut cur := by
        rw [sc.cut_eq_lo (by simp [hu', hiu]), sc.cut_eq_lo (by simp [hcl, hic]), hlo]
      refine ⟨cur :: rest, by simp [addUpper, addWalk, hrc, hcu, hic, hiu], ?_, ⟨hcl, halt⟩,
        fun t h => Or.inl h⟩
      rw [hcut, ht.filter_cut_eq, closePart_of_even (by simpa using he), if_pos rfl, cuts_cons]
    · -- `cur` is replaced; by `hgap` the next range starts above the upper bound
      have hcut : sc.cut upper = sc.hi upper := sc.cut_eq_hi (by simp [hu', hiu])
      have hcutc : sc.cut cur = sc.lo upper := by
        rw [sc.cut_eq_lo (by simp [hcl, hic]), hlo]
      have habove : (sc.cuts rest).filter (sc.cut upper < ·) = sc.cuts rest := by
        cases rest with
        | nil => rfl
        | cons n rest =>
          have hne : sc.cut n ≠ sc.cut upper := (List.isChain_cons_cons.1 hgap).1 hiu hcu hic hrc
          have hlt : sc.cut cur < sc.cut n := ht.cut_lt _ (by simp)
          have hle : sc.hi cur ≤ sc.cut n :=
            (sc.cut_le_lo_or_hi_le_cut hSc (ht.mem n (by simp)) hic).resolve_left
              (by rw [hlo, ← hcutc]; exact not_le.2 hlt)
          exact ht.tail.filter_eq_self (lt_of_le_of_ne (by rw [hcut, ← hhi]; exact hle) hne.symm)
      refine ⟨upper :: rest, by simp [addUpper, addWalk, hrc, hcu, hic, hiu], ?_, ⟨hu', halt⟩,
        by simp +contextual⟩
      rw [cuts_cons, cuts_cons, filter_cons_of_le (by rw [hcutc, hcut]; exact hlohi.le), habove,
        closePart_of_even (by simpa using he), if_pos rfl]
    · have hcut : sc.cut upper = sc.lo upper := sc.cut_eq_lo (by simp [hu', hiu])
      have hcutc : sc.cut cur = sc.hi upper := by
        rw [sc.cut_eq_hi (by simp [hcl, hic]), hhi]
      refine ⟨cur :: rest, by simp [addUpper, addWalk, hrc, hcu, hic, hiu], ?_, ⟨hcl, halt⟩,
        fun t h => Or.inl h⟩
      rw [ht.filter_eq_self (by rw [hcut, hcutc]; exact hlohi),
        closePart_of_odd (by simpa [Nat.odd_add_one] using he), if_pos rfl]
    · have hcut : sc.cut upper = sc.cut cur := by
        rw [sc.cut_eq_hi (by simp [hu', hiu]), sc.cut_eq_hi (by simp [hcl, hic]), hhi]
      refine ⟨cur :: rest, by simp [addUpper, addWalk, hrc, hcu, hic, hiu], ?_, ⟨hcl, halt⟩,
        fun t h => Or.inl h⟩
      rw [hcut, ht.filter_cut_eq, closePart_of_even (by simpa using he), if_pos rfl, cuts_cons]
  · -- a lower bound: the two ranges are joined unless both bounds are exclusive
    have hcl : cur.isLowerBound = true := by simpa [ho] using hlower
    have hcu : cur.isUpperBound = false := by simpa [hcl] using hupper
    have halt : Alternates false rest := by
      simpa [Nat.not_even_iff_odd.2 ho] using ht.tail.alternates
    cases hic : cur.isInclusiveBound <;> cases hiu : upper.isInclusiveBound
    · have hlt : sc.cut upper < sc.cut cur := by
        rw [sc.cut_eq_lo (by simp [hu', hiu]), sc.cut_eq_hi (a := cur) (by simp [hcl, hic]), hhi]
        exact hlohi
      have hprev := isPreviousBound_eq_false hSu hSc hu' hcl hlt
      refine ⟨upper :: cur :: rest, ?_, ?_, ⟨hu', hcl, halt⟩, by simp +contextual⟩
      · simp [addUpper, addWalk, hrc, hcu, hcl, hic, hiu, hprev]
      · rw [ht.filter_eq_self hlt, closePart_of_even (by simpa [Nat.even_add_one] using ho),
          if_pos rfl]
        rfl
    all_goals
      refine ⟨rest, by simp [addUpper, addWalk, hrc, hcu, hic, hiu], ?_, halt,
        fun t h => Or.inl (by simp [h])⟩
    · have hcut : sc.cut upper = sc.cut cur := by
        rw [sc.cut_eq_hi (by simp [hu', hiu]), sc.cut_eq_hi (by simp [hcl, hic]), hhi]
      rw [hcut, ht.filter_cut_eq, closePart_of_odd (by simpa using ho), if_pos rfl]
    · have hcut : sc.cut upper = sc.cut cur := by
        rw [sc.cut_eq_lo (by simp [hu', hiu]), sc.cut_eq_lo (by simp [hcl, hic]), hlo]
      rw [hcut, ht.filter_cut_eq, closePart_of_odd (by simpa using ho), if_pos rfl]
    · -- the removed range extends at least to the end of the common values
      cases rest with
      | nil => simp at ho
      | cons n rest =>
        have hhn : sc.hi cur ≤ sc.cut n := (List.isChain_cons_cons.1 hwide).1 hcl hic
        have hcut : sc.cut upper = sc.hi cur := by
          rw [sc.cut_eq_hi (by simp [hu', hiu]), hhi]
        have hcutc : sc.cut cur ≤ sc.cut upper := by
          rw [hcut]
          exact sc.cut_le_hi hSc
        rw [cuts_cons cur, filter_cons_of_le hcutc]
        exact (closePart_filter_of_le ht.tail.sorted (by simpa using ho) (hcut ▸ hhn)).symm

/-- The second half of `addRange` drops the transitions up to the upper bound and closes the range
there. -/
lemma addUpper_spec (hSu : S upper) (hu : upper.isUpperBound = true)
    {rest : List (ValueTransition α)} (ht : Tail sc rest) (hwide : rest.IsChain (WideStep sc))
    (hgap : rest.IsChain (GapStep sc upper)) :
    ∃ rest', addUpper type upper rest = .ok rest' ∧
      sc.cuts rest' =
        closePart true (sc.cut upper) ((sc.cuts rest).filter (sc.cut upper < ·)) ∧
      Alternates false rest' ∧ ∀ t ∈ rest', t ∈ rest ∨ t = upper := by
  have hu' : upper.isLowerBound = false := by simpa [hu] using sc.isUpperBound_eq upper hSu
  induction rest with
  | nil => exact ⟨[upper], rfl, by simp [closePart], ⟨hu', trivial⟩, by simp⟩
  | cons cur rest ih =>
    have hSc : S cur := ht.mem cur (by simp)
    have hupper := sc.isUpperBound_eq cur hSc
    have hlower := ht.isLowerBound_eq
    rcases lt_trichotomy (cur.compareRaw type upper) 0 with hrc | hrc | hrc
    · -- below the upper bound: dropped
      have hlt := sc.cut_lt_cut_of_neg hSc hSu hrc
      obtain ⟨rest', h₁, h₂, h₃, h₄⟩ := ih ht.tail hwide.tail hgap.tail
      refine ⟨rest', ?_, ?_, h₃, fun t htr => ?_⟩
      · rw [← h₁, addUpper, addUpper, addWalk]
        simp [not_lt.2 hrc.le, hrc.ne]
      · rw [h₂, cuts_cons, filter_cons_of_le hlt.le]
      · rcases h₄ t htr with h | h
        · exact Or.inl (by simp [h])
        · exact Or.inr h
    · -- at the same values as the upper bound
      exact addUpper_of_zero hSu hu ht hwide hgap hrc
    · -- above the upper bound
      have hlt := sc.cut_lt_cut_of_pos hSc hSu hrc
      rw [ht.filter_eq_self hlt]
      rcases Nat.even_or_odd rest.length with he | ho
      · have hcl : cur.isLowerBound = false := by simpa [Nat.not_odd_iff_even.2 he] using hlower
        have hcu : cur.isUpperBound = true := by simpa [hcl] using hupper
        refine ⟨cur :: rest, ?_, ?_, ⟨hcl, ?_⟩, fun t h => Or.inl h⟩
        · simp [addUpper, addWalk, hrc, hcu]
        · rw [closePart_of_odd (by simpa [Nat.odd_add_one] using he), if_pos rfl]
        · simpa [he] using ht.tail.alternates
      · have hcl : cur.isLowerBound = true := by simpa [ho] using hlower
        have hcu : cur.isUpperBound = false := by simpa [hcl] using hupper
        have hprev := isPreviousBound_eq_false hSu hSc hu' hcl hlt
        refine ⟨upper :: cur :: rest, ?_, ?_, ⟨hu', hcl, ?_⟩, by simp +contextual⟩
        · simp [addUpper, addWalk, hrc, hcu, hcl, hprev]
        · rw [closePart_of_even (by simpa [Nat.even_add_one] using ho), if_pos rfl]
          rfl
        · simpa [Nat.not_even_iff_odd.2 ho] using ht.tail.alternates

/-! ## Placing the lower bound -/

/-- Inserting at the end of the first of two parts. -/
lemma insertIdx_append_length {β : Type*} (A B : List β) (x : β) :
    (A ++ B).insertIdx A.length x = A ++ x :: B := by
  induction A with
  | nil => simp
  | cons a A ih => simp [ih]

lemma Tail.of_normal_append {A R : List (ValueTransition α)} (hn : sc.Normal (A ++ R)) :
    Tail sc R := by
  refine ⟨fun t ht => hn.mem t (by simp [ht]), ?_, ?_⟩
  · have := hn.sorted
    rw [cuts_append, List.pairwise_append] at this
    exact this.2.1
  · have := (alternates_append.1 hn.alternates).2
    have he := hn.even
    rw [List.length_append, Nat.even_add] at he
    rcases Nat.even_or_odd A.length with h | h
    · simpa [Nat.not_odd_iff_even.2 h, he.1 h] using this
    · have hR : ¬ Even R.length := fun hR => Nat.not_even_iff_odd.2 h (he.2 hR)
      simpa [h, hR] using this

/-- The cuts below `l`, when the first part lies below and the second part does not. -/
lemma filter_lt_cuts_append {A B : List (ValueTransition α)} {l : C}
    (hA : ∀ a ∈ A, sc.cut a < l) (hB : ∀ b ∈ B, l ≤ sc.cut b) :
    (sc.cuts (A ++ B)).filter (· < l) = sc.cuts A := by
  have h₁ : (sc.cuts A).filter (· < l) = sc.cuts A := by
    simpa [List.filter_eq_self, cuts] using hA
  have h₂ : (sc.cuts B).filter (· < l) = [] := by
    simpa [List.filter_eq_nil_iff, cuts] using hB
  rw [cuts_append, List.filter_append, h₁, h₂, List.append_nil]

/-- What the first half of `addRange` or `killRange` leaves: the finished part `P`, with membership
`b` opened at the lower bound, and the transitions `R` still to be walked over. -/
structure Opened (sc : Scale type S C) (b : Bool) (ts : List (ValueTransition α))
    (lower : ValueTransition α) (P R : List (ValueTransition α)) : Prop where
  cuts_eq : sc.cuts P = openPart b (sc.cut lower) ((sc.cuts ts).filter (· < sc.cut lower))
  alternates : Alternates true P
  suffix : ∃ X, ts = X ++ R ∧ ∀ x ∈ X, 0 ≤ lower.compareRaw type x
  above : lower.isInclusiveBound = true → ∀ r ∈ R, sc.cut lower < sc.cut r

/-- The place of the lower bound in a set in normal form: after `A` and not after `next`. -/
structure Placed (sc : Scale type S C) (lower : ValueTransition α)
    (A : List (ValueTransition α)) (next : ValueTransition α)
    (B : List (ValueTransition α)) : Prop where
  normal : sc.Normal (A ++ next :: B)
  mem : S lower
  isLowerBound : lower.isLowerBound = true
  before : ∀ a ∈ A, 0 < lower.compareRaw type a
  notAfter : lower.compareRaw type next ≤ 0

namespace Placed

variable {A B : List (ValueTransition α)} {next : ValueTransition α}

lemma mem_next (h : Placed sc lower A next B) : S next := h.normal.mem next (by simp)

lemma cut_lt (h : Placed sc lower A next B) : ∀ a ∈ A, sc.cut a < sc.cut lower := fun a ha =>
  sc.cut_lt_cut_of_pos h.mem (h.normal.mem a (by simp [ha])) (h.before a ha)

lemma lt_cut (h : Placed sc lower A next B) : ∀ b ∈ B, sc.cut next < sc.cut b := by
  have := h.normal.sorted
  rw [cuts_append, cuts_cons, List.pairwise_append, List.pairwise_cons] at this
  simpa [cuts] using this.2.1.1

lemma isLowerBound_next (h : Placed sc lower A next B) :
    next.isLowerBound = decide (Even A.length) := by
  rw [(alternates_append.1 h.normal.alternates).2.1]
  rcases Nat.even_or_odd A.length with he | ho
  · simp [he, Nat.not_odd_iff_even.2 he]
  · simp [ho, Nat.not_even_iff_odd.2 ho]

lemma alternates (h : Placed sc lower A next B) : Alternates true A :=
  (alternates_append.1 h.normal.alternates).1

/-- The cuts below the lower bound, when `next` is not among them. -/
lemma filter_of_le (h : Placed sc lower A next B) (hle : sc.cut lower ≤ sc.cut next) :
    (sc.cuts (A ++ next :: B)).filter (· < sc.cut lower) = sc.cuts A := by
  refine filter_lt_cuts_append h.cut_lt fun b hb => ?_
  rcases List.mem_cons.1 hb with rfl | hb
  · exact hle
  · exact hle.trans (h.lt_cut b hb).le

/-- The cuts below the lower bound, when `next` is among them: then it is the last one. -/
lemma filter_of_lt (h : Placed sc lower A next B) (hzero : lower.compareRaw type next = 0)
    (hlt : sc.cut next < sc.cut lower) :
    (sc.cuts (A ++ next :: B)).filter (· < sc.cut lower) = sc.cuts (A ++ [next]) := by
  obtain ⟨hlo, hhi⟩ := sc.eq_of_zero _ _ h.mem h.mem_next hzero
  have hexc : lower.isInclusiveBound = false := by
    by_contra hinc
    have hcut : sc.cut lower = sc.lo lower := sc.cut_eq_lo (by simp [h.isLowerBound, hinc])
    exact absurd (hlo ▸ sc.lo_le_cut h.mem_next) (not_le.2 (hcut ▸ hlt))
  have hcut : sc.cut lower = sc.hi lower := sc.cut_eq_hi (by simp [h.isLowerBound, hexc])
  rw [show A ++ next :: B = (A ++ [next]) ++ B by simp]
  refine filter_lt_cuts_append (fun a ha => ?_) fun b hb => ?_
  · rcases List.mem_append.1 ha with ha | ha
    · exact h.cut_lt a ha
    · rw [List.mem_singleton.1 ha]
      exact hlt
  · have hSb : S b := h.normal.mem b (by simp [hb])
    rw [hcut]
    refine (sc.cut_le_lo_or_hi_le_cut h.mem hSb hexc).resolve_left (not_le.2 ?_)
    exact (hlo ▸ sc.lo_le_cut h.mem_next).trans_lt (h.lt_cut b hb)

/-- The part that remains to be walked over, when `next` belongs to it. -/
lemma opened_cons (h : Placed sc lower A next B) {b : Bool} {P : List (ValueTransition α)}
    (hneg : lower.compareRaw type next < 0)
    (hcuts : sc.cuts P = openPart b (sc.cut lower) (sc.cuts A)) (halt : Alternates true P) :
    Opened sc b (A ++ next :: B) lower P (next :: B) := by
  have hlt := sc.cut_lt_cut_of_neg h.mem h.mem_next hneg
  refine ⟨by rw [h.filter_of_le hlt.le, hcuts], halt, ⟨A, rfl, fun x hx => (h.before x hx).le⟩,
    fun _ r hr => ?_⟩
  rcases List.mem_cons.1 hr with rfl | hr
  · exact hlt
  · exact hlt.trans (h.lt_cut r hr)

/-- The part that remains to be walked over, when `next` has the values of the lower bound and is
already dealt with. -/
lemma opened_tail (h : Placed sc lower A next B) {b : Bool} {P : List (ValueTransition α)}
    (hzero : lower.compareRaw type next = 0)
    (hcuts : sc.cuts P = openPart b (sc.cut lower)
      ((sc.cuts (A ++ next :: B)).filter (· < sc.cut lower))) (halt : Alternates true P) :
    Opened sc b (A ++ next :: B) lower P B := by
  obtain ⟨hlo, hhi⟩ := sc.eq_of_zero _ _ h.mem h.mem_next hzero
  refine ⟨hcuts, halt, ⟨A ++ [next], by simp, fun x hx => ?_⟩, fun hinc r hr => ?_⟩
  · rcases List.mem_append.1 hx with hx | hx
    · exact (h.before x hx).le
    · rw [List.mem_singleton.1 hx, hzero]
  · rw [sc.cut_eq_lo (by simp [h.isLowerBound, hinc]), hlo]
    exact (sc.lo_le_cut h.mem_next).trans_lt (h.lt_cut r hr)

end Placed

/-- The first half of `addRange` opens the set at the lower bound. -/
lemma addLower_spec {A B : List (ValueTransition α)} {next : ValueTransition α}
    (h : Placed sc lower A next B) :
    ∃ P R, addLower type (A ++ next :: B) lower next A.length = (P ++ R, P.length) ∧
      Opened sc true (A ++ next :: B) lower P R ∧ ∀ t ∈ P, t ∈ A ++ next :: B ∨ t = lower := by
  have hnext := h.isLowerBound_next
  have hlohi := sc.lo_lt_hi lower h.mem
  have hl := h.isLowerBound
  rw [addLower]
  rcases lt_or_eq_of_le h.notAfter with hneg | hzero
  · -- the lower bound falls between transitions
    rw [if_neg hneg.ne]
    rcases Nat.even_or_odd A.length with he | ho
    · refine ⟨A ++ [lower], next :: B, ?_, h.opened_cons hneg ?_ ?_, by grind⟩
      · simp [hnext, he, insertIdx_append_length]
      · simp [openPart, he]
      · simp [alternates_append, h.alternates, Alternates, hl, he]
    · refine ⟨A, next :: B, ?_, h.opened_cons hneg ?_ h.alternates, by grind⟩
      · simp [hnext, Nat.not_even_iff_odd.2 ho]
      · simp [openPart, Nat.not_even_iff_odd.2 ho]
  · -- `next` has the values of the lower bound
    obtain ⟨hlo, hhi⟩ := sc.eq_of_zero _ _ h.mem h.mem_next hzero
    rw [if_pos hzero]
    rcases Nat.even_or_odd A.length with he | ho
    · have hnl : next.isLowerBound = true := by simp [hnext, he]
      rw [if_pos hnl]
      cases hin : next.isInclusiveBound <;> cases hil : lower.isInclusiveBound
      · have hcut : sc.cut lower = sc.cut next := by
          rw [sc.cut_eq_hi (by simp [hl, hil]), sc.cut_eq_hi (by simp [hnl, hin]), hhi]
        refine ⟨A ++ [next], B, by simp, h.opened_tail hzero ?_ ?_, by grind⟩
        · rw [h.filter_of_le hcut.le]
          simp [openPart, he, hcut]
        · simp [alternates_append, h.alternates, Alternates, hnl, he]
      · have hlt : sc.cut lower < sc.cut next := by
          rw [sc.cut_eq_lo (by simp [hl, hil]), sc.cut_eq_hi (by simp [hnl, hin]), ← hhi]
          exact hlohi
        refine ⟨A ++ [lower], B, by simp, h.opened_tail hzero ?_ ?_, by grind⟩
        · rw [h.filter_of_le hlt.le]
          simp [openPart, he]
        · simp [alternates_append, h.alternates, Alternates, hl, he]
      · have hlt : sc.cut next < sc.cut lower := by
          rw [sc.cut_eq_hi (a := lower) (by simp [hl, hil]), sc.cut_eq_lo (by simp [hnl, hin]),
            ← hlo]
          exact hlohi
        refine ⟨A ++ [next], B, by simp, h.opened_tail hzero ?_ ?_, by grind⟩
        · rw [h.filter_of_lt hzero hlt]
          simp [openPart, he, Nat.even_add_one]
        · simp [alternates_append, h.alternates, Alternates, hnl, he]
      · have hcut : sc.cut lower = sc.cut next := by
          rw [sc.cut_eq_lo (by simp [hl, hil]), sc.cut_eq_lo (by simp [hnl, hin]), hlo]
        refine ⟨A ++ [next], B, by simp, h.opened_tail hzero ?_ ?_, by grind⟩
        · rw [h.filter_of_le hcut.le]
          simp [openPart, he, hcut]
        · simp [alternates_append, h.alternates, Alternates, hnl, he]
    · have hnl : next.isLowerBound = false := by simp [hnext, Nat.not_even_iff_odd.2 ho]
      rw [if_neg (by simp [hnl])]
      by_cases hinc : (next.isInclusiveBound || lower.isInclusiveBound) = true
      · have hle : sc.cut lower ≤ sc.cut next := by
          rcases Bool.or_eq_true_iff.1 hinc with hin | hil
          · rw [sc.cut_eq_hi (a := next) (by simp [hnl, hin]), ← hhi]
            exact sc.cut_le_hi h.mem
          · rw [sc.cut_eq_lo (a := lower) (by simp [hl, hil]), hlo]
            exact sc.lo_le_cut h.mem_next
        refine ⟨A, B, ?_, h.opened_tail hzero ?_ h.alternates, by grind⟩
        · rw [if_pos hinc, List.eraseIdx_append_of_length_le le_rfl]
          simp
        · rw [h.filter_of_le hle]
          simp [openPart, Nat.not_even_iff_odd.2 ho]
      · simp only [Bool.or_eq_true, not_or, Bool.not_eq_true] at hinc
        obtain ⟨hin, hil⟩ := hinc
        have hlt : sc.cut next < sc.cut lower := by
          rw [sc.cut_eq_hi (a := lower) (by simp [hl, hil]), sc.cut_eq_lo (by simp [hnl, hin]),
            ← hlo]
          exact hlohi
        refine ⟨A ++ [next, lower], B, ?_, h.opened_tail hzero ?_ ?_, by grind⟩
        · rw [if_neg (by simp [hin, hil])]
          have := insertIdx_append_length (A ++ [next]) B lower
          simpa using this
        · rw [h.filter_of_lt hzero hlt]
          simp [openPart, Nat.even_add_one, Nat.not_even_iff_odd.2 ho]
        · simp [alternates_append, h.alternates, Alternates, hnl, hl, ho]

/-! ## The whole operation -/

namespace Opened

variable {b : Bool} {P R R' : List (ValueTransition α)}

/-- Opening at the lower bound and closing at the upper bound fills the line between them. -/
lemma cuts_append (h : Opened sc b ts lower P R) (hn : sc.Normal ts) (hSl : S lower) {u : C}
    (hu : sc.hi lower ≤ u)
    (hR : sc.cuts R' = closePart b u ((sc.cuts R).filter (u < ·))) :
    sc.cuts (P ++ R') = fill b (sc.cut lower) u (sc.cuts ts) := by
  obtain ⟨X, hts, hX⟩ := h.suffix
  have hle : ∀ x ∈ X, sc.cut x ≤ sc.hi lower := by
    intro x hx
    have hSx : S x := hn.mem x (by simp [hts, hx])
    rcases (hX x hx).lt_or_eq with hpos | hzero
    · exact (sc.cut_lt_cut_of_pos hSl hSx hpos).le.trans (sc.cut_le_hi hSl)
    · rw [(sc.eq_of_zero _ _ hSl hSx hzero.symm).2]
      exact sc.cut_le_hi hSx
  have hnil : (sc.cuts X).filter (u < ·) = [] := by
    simpa [List.filter_eq_nil_iff, cuts] using fun x hx => (hle x hx).trans hu
  have hfilter : (sc.cuts ts).filter (u < ·) = (sc.cuts R).filter (u < ·) := by
    rw [hts, Scale.cuts_append, List.filter_append, hnil, List.nil_append]
  rw [Scale.cuts_append, h.cuts_eq, hR, fill, hfilter]

/-- The result is in normal form again. -/
lemma normal (h : Opened sc b ts lower P R) (hn : sc.Normal ts) (hSl : S lower) {u : C}
    (hlu : sc.cut lower < u) (hu : sc.hi lower ≤ u)
    (hR : sc.cuts R' = closePart b u ((sc.cuts R).filter (u < ·)))
    (halt : Alternates (!b) R') (hP : ∀ t ∈ P, S t) (hR' : ∀ t ∈ R', S t) :
    sc.Normal (P ++ R') := by
  have hcuts := h.cuts_append hn hSl hu hR
  refine ⟨fun t ht => (List.mem_append.1 ht).elim (hP t) (hR' t), ?_, ?_, ?_⟩
  · rw [hcuts]
    exact pairwise_fill b hlu hn.sorted
  · rw [alternates_append]
    have hodd : decide (Odd P.length) = b := by
      have := odd_length_openPart b (sc.cut lower) ((sc.cuts ts).filter (· < sc.cut lower))
      rw [← h.cuts_eq, length_cuts] at this
      cases b <;> simpa using this
    rw [hodd]
    cases b <;> exact ⟨h.alternates, halt⟩
  · have := even_length_fill b (sc.cut lower) u (sc.cuts ts)
    rwa [← hcuts, length_cuts] at this

lemma tail (h : Opened sc b ts lower P R) (hn : sc.Normal ts) : Tail sc R := by
  obtain ⟨X, rfl, -⟩ := h.suffix
  exact Tail.of_normal_append hn

lemma subset (h : Opened sc b ts lower P R) : ∀ t ∈ R, t ∈ ts := by
  obtain ⟨X, rfl, -⟩ := h.suffix
  intro t ht
  simp [ht]

/-- What holds of neighbours in the set holds of neighbours in the part walked over. -/
lemma isChain (h : Opened sc b ts lower P R)
    {r : ValueTransition α → ValueTransition α → Prop} (hts : ts.IsChain r) : R.IsChain r := by
  obtain ⟨X, rfl, -⟩ := h.suffix
  exact hts.right_of_append

end Opened

/-- Two neighbouring ranges leave out exactly the value at which `upper` ends. -/
structure Gap (type : RtlTypeInfo α) (upper t u : ValueTransition α) : Prop where
  isUpperBound : t.isUpperBound = true
  ends : t.isInclusiveBound = false
  endsAt : t.compareRaw type upper = 0
  isLowerBound : u.isLowerBound = true
  starts : u.isInclusiveBound = false
  startsAt : u.compareRaw type upper = 0

/-- The added range comes from below and ends inclusively at a value `v` that the set leaves out
between two of its ranges, the first ending before `v` and the second starting after `v`. -/
def ClosesGap (type : RtlTypeInfo α) (ts : List (ValueTransition α))
    (lower upper : ValueTransition α) : Prop :=
  upper.isInclusiveBound = true ∧ lower.compareRaw type upper < 0 ∧
    ∃ A t u B, ts = A ++ t :: u :: B ∧ Gap type upper t u

instance (upper t u : ValueTransition α) : Decidable (Gap type upper t u) :=
  decidable_of_iff (t.isUpperBound = true ∧ t.isInclusiveBound = false ∧
      t.compareRaw type upper = 0 ∧ u.isLowerBound = true ∧ u.isInclusiveBound = false ∧
      u.compareRaw type upper = 0)
    ⟨fun ⟨h₁, h₂, h₃, h₄, h₅, h₆⟩ => ⟨h₁, h₂, h₃, h₄, h₅, h₆⟩,
      fun h => ⟨h.isUpperBound, h.ends, h.endsAt, h.isLowerBound, h.starts, h.startsAt⟩⟩

/-- The gap is found among the pairs of neighbouring transitions. -/
lemma closesGap_iff (ts : List (ValueTransition α)) (lower upper : ValueTransition α) :
    ClosesGap type ts lower upper ↔ upper.isInclusiveBound = true ∧
      lower.compareRaw type upper < 0 ∧ ∃ p ∈ ts.zip ts.tail, Gap type upper p.1 p.2 := by
  refine and_congr_right fun _ => and_congr_right fun _ => ?_
  constructor
  · rintro ⟨A, t, u, B, rfl, hg⟩
    refine ⟨(t, u), ?_, hg⟩
    induction A with
    | nil => simp
    | cons a A ih =>
      cases A with
      | nil => simp
      | cons b A => exact List.mem_cons_of_mem _ ih
  · rintro ⟨⟨t, u⟩, hmem, hg⟩
    obtain ⟨i, hi, heq⟩ := List.mem_iff_getElem.1 hmem
    simp only [List.length_zip, List.length_tail] at hi
    simp only [List.getElem_zip, List.getElem_tail, Prod.mk.injEq] at heq
    refine ⟨ts.take i, t, u, ts.drop (i + 2), ?_, hg⟩
    rw [← heq.1, ← heq.2, ← List.drop_eq_getElem_cons (by omega),
      ← List.drop_eq_getElem_cons (by omega), List.take_append_drop]

instance (ts : List (ValueTransition α)) (lower upper : ValueTransition α) :
    Decidable (ClosesGap type ts lower upper) :=
  decidable_of_iff' _ (closesGap_iff ts lower upper)

/-- In a set in normal form the transition after an inclusive lower bound is not inside its
values. -/
lemma isChain_wideStep (hn : sc.Normal ts) (hw : sc.Wide ts) : ts.IsChain (WideStep sc) := by
  rw [List.isChain_iff_getElem]
  exact fun i hi hl hinc => hn.hi_le_cut hw hi hl hinc

/-- Without a gap to close, no range starts where the walk replaces an upper bound. -/
lemma isChain_gapStep {P R : List (ValueTransition α)} (hn : sc.Normal ts)
    (hSl : S lower) (hSu : S upper) (hl : lower.isLowerBound = true)
    (hu : upper.isUpperBound = true) (hne : isEmptyRange type lower upper = false)
    (hgap : ¬ ClosesGap type ts lower upper) {b : Bool} (ho : Opened sc b ts lower P R) :
    R.IsChain (GapStep sc upper) := by
  have hu' : upper.isLowerBound = false := by simpa [hu] using sc.isUpperBound_eq upper hSu
  have ht := ho.tail hn
  rw [List.isChain_iff_getElem]
  intro i hi hiu hui hei hzi heq
  have hSi : S R[i] := ht.mem _ (List.getElem_mem _)
  have hSj : S R[i + 1] := ht.mem _ (List.getElem_mem _)
  have hil : R[i].isLowerBound = false := by
    have := sc.isUpperBound_eq _ hSi
    rw [hui] at this
    simpa using this.symm
  obtain ⟨hlo, hhi⟩ := sc.eq_of_zero _ _ hSi hSu hzi
  have hcuti : sc.cut R[i] = sc.lo upper := by rw [sc.cut_eq_lo (by rw [hil, hei]), hlo]
  have hcutu : sc.cut upper = sc.hi upper := sc.cut_eq_hi (by rw [hu', hiu]; rfl)
  -- the range cannot consist of the single value
  have hneg : lower.compareRaw type upper < 0 := by
    simp only [isEmptyRange, Bool.or_eq_false_iff, decide_eq_false_iff_not, not_lt,
      Bool.and_eq_false_iff, Bool.not_eq_false', beq_eq_false_iff_ne, ne_eq] at hne
    refine lt_of_le_of_ne hne.1 fun hzero => ?_
    have hil := (hne.2.resolve_left (by simp [hzero])).1
    have habove := ho.above hil _ (List.getElem_mem (by omega : i < R.length))
    rw [hcuti, sc.cut_eq_lo (by rw [hl, hil]), (sc.eq_of_zero _ _ hSl hSu hzero).1] at habove
    exact lt_irrefl _ habove
  have hzj : R[i + 1].compareRaw type upper = 0 := by
    rcases lt_trichotomy (R[i + 1].compareRaw type upper) 0 with h | h | h
    · exact absurd heq (sc.cut_lt_cut_of_neg hSj hSu h).ne
    · exact h
    · exact absurd heq (sc.cut_lt_cut_of_pos hSj hSu h).ne'
  have hjl : R[i + 1].isLowerBound = true := by
    have h₁ := ht.alternates.isLowerBound_getElem (by omega : i < R.length)
    have h₂ := ht.alternates.isLowerBound_getElem hi
    rcases Nat.even_or_odd i with h | h <;>
      simp_all [Nat.not_odd_iff_even.2]
  have hej : R[i + 1].isInclusiveBound = false := by
    by_contra hinc
    have := sc.cut_eq_lo (a := R[i + 1]) (by simp [hjl, hinc])
    rw [heq, hcutu, (sc.eq_of_zero _ _ hSj hSu hzj).1] at this
    exact (sc.lo_lt_hi upper hSu).ne' this
  obtain ⟨X, hts, -⟩ := ho.suffix
  refine hgap ⟨hiu, hneg, X ++ R.take i, R[i], R[i + 1], R.drop (i + 2), ?_,
    hui, hei, hzi, hjl, hej, hzj⟩
  rw [hts, List.append_assoc, ← List.drop_eq_getElem_cons hi,
    ← List.drop_eq_getElem_cons (by omega : i < R.length), List.take_append_drop]

/-- Opening at a lower bound above every transition. -/
lemma opened_of_forall_lt (hn : sc.Normal ts) (hSl : S lower) (hl : lower.isLowerBound = true)
    (hA : ∀ a ∈ ts, 0 < lower.compareRaw type a) : Opened sc true ts lower (ts ++ [lower]) [] := by
  have hcut : ∀ a ∈ ts, sc.cut a < sc.cut lower := fun a ha =>
    sc.cut_lt_cut_of_pos hSl (hn.mem a ha) (hA a ha)
  have hfilter := filter_lt_cuts_append (B := []) hcut (by simp)
  rw [List.append_nil] at hfilter
  refine ⟨?_, ?_, ⟨ts, by simp, fun x hx => (hA x hx).le⟩, by simp⟩
  · rw [hfilter]
    simp [openPart, hn.even]
  · rw [alternates_append]
    exact ⟨hn.alternates, by simpa [Nat.not_odd_iff_even.2 hn.even] using hl, trivial⟩

/-- The result of adding a range that is not empty: the line is filled between its bounds. -/
theorem addRange_cuts {lower? upper? : Option (ValueTransition α)}
    (hlower : lower?.getD .minimum = lower) (hupper : upper?.getD .maximum = upper)
    (hn : sc.Normal ts) (hw : sc.Wide ts) (hSl : S lower) (hSu : S upper)
    (hl : lower.isLowerBound = true) (hu : upper.isUpperBound = true)
    (hne : isEmptyRange type lower upper = false) (hhi : sc.hi lower ≤ sc.cut upper)
    (hgap : ¬ ClosesGap type ts lower upper) :
    ∃ ts', addRange type ts lower? upper? = .ok ts' ∧ sc.Normal ts' ∧
      sc.cuts ts' = fill true (sc.cut lower) (sc.cut upper) (sc.cuts ts) ∧
      ∀ t ∈ ts', t ∈ ts ∨ t = lower ∨ t = upper := by
  have hlu : sc.cut lower < sc.cut upper := cut_lt_cut_of_isEmptyRange hSl hSu hl hu hne
  have hu' : upper.isLowerBound = false := by simpa [hu] using sc.isUpperBound_eq upper hSu
  obtain ⟨A, B, hts, hlow, hA, hB⟩ := findLower_spec hn hSl hl
  simp only [addRange, hlower, hupper, hl, hu, hne, hlow, Bool.not_true, Bool.or_false,
    Bool.false_eq_true, if_false]
  cases B with
  | nil =>
    -- every transition is below the lower bound
    obtain rfl : ts = A := by simpa using hts
    have hopen := opened_of_forall_lt hn hSl hl hA
    have hclose : sc.cuts [upper] =
        closePart true (sc.cut upper) ((sc.cuts []).filter (sc.cut upper < ·)) := by
      simp [closePart]
    rw [show ts ++ [lower, upper] = (ts ++ [lower]) ++ [upper] by simp]
    refine ⟨_, by simp, hopen.normal hn hSl hlu hhi hclose ⟨hu', trivial⟩ ?_ (by simpa using hSu),
      hopen.cuts_append hn hSl hhi hclose, by grind⟩
    simpa [or_imp, forall_and, hSl] using hn.mem
  | cons next B =>
    have hplaced : Placed sc lower A next B := ⟨hts ▸ hn, hSl, hl, hA, hB next B rfl⟩
    obtain ⟨P, R, hadd, hopen, hP⟩ := addLower_spec hplaced
    rw [← hts] at hadd hopen hP
    obtain ⟨R', hup, hcuts, halt, hR'⟩ := addUpper_spec hSu hu (hopen.tail hn)
      (hopen.isChain (isChain_wideStep hn hw))
      (isChain_gapStep hn hSl hSu hl hu hne hgap hopen)
    have hget : ts[A.length]? = some next := by simp [hts]
    refine ⟨P ++ R', ?_, hopen.normal hn hSl hlu hhi hcuts halt ?_ ?_, hopen.cuts_append hn hSl hhi hcuts, ?_⟩
    · simp only [hget, hadd]
      simp [hup, Except.map]
    · exact fun t ht => (hP t ht).elim (hn.mem t) (fun h => h ▸ hSl)
    · exact fun t ht => (hR' t ht).elim (fun h => hn.mem t (hopen.subset t h)) (fun h => h ▸ hSu)
    · intro t ht
      rcases List.mem_append.1 ht with ht | ht
      · exact (hP t ht).imp_right Or.inl
      · exact (hR' t ht).imp (hopen.subset t) Or.inr

/-- Adding a range to a set in normal form, unless it closes a gap: the result is in normal form
and has the values of the set and those of the range. -/
theorem addRange_spec {lower? upper? : Option (ValueTransition α)}
    (hlower : lower?.getD .minimum = lower) (hupper : upper?.getD .maximum = upper)
    (hn : sc.Normal ts) (hw : sc.Wide ts) (hSl : S lower) (hSu : S upper)
    (hl : lower.isLowerBound = true) (hu : upper.isUpperBound = true)
    (hhi : isEmptyRange type lower upper = false → sc.hi lower ≤ sc.cut upper)
    (hgap : ¬ ClosesGap type ts lower upper) :
    ∃ ts', addRange type ts lower? upper? = .ok ts' ∧ sc.Normal ts' ∧ sc.Wide ts' ∧
      (∀ D : LowerSet C, Inside D (sc.cuts ts') ↔
        Inside D (sc.cuts ts) ∨ (sc.cut lower ∈ D ∧ sc.cut upper ∉ D)) ∧
      ∀ t ∈ ts', t ∈ ts ∨ t = lower ∨ t = upper := by
  cases hne : isEmptyRange type lower upper with
  | true =>
    have hle : sc.cut upper ≤ sc.cut lower := cut_le_cut_of_isEmptyRange hSl hSu hl hu hne
    refine ⟨ts, by simp [addRange, hlower, hupper, hl, hu, hne], hn, hw, fun D => ?_,
      fun t ht => Or.inl ht⟩
    exact ⟨Or.inl, fun h => h.elim id fun h => absurd (D.lower hle h.1) h.2⟩
  | false =>
    obtain ⟨ts', hok, hn', hcuts, hmem⟩ :=
      addRange_cuts hlower hupper hn hw hSl hSu hl hu hne (hhi hne) hgap
    have hlu : sc.cut lower < sc.cut upper := cut_lt_cut_of_isEmptyRange hSl hSu hl hu hne
    have hu' : upper.isLowerBound = false := by simpa [hu] using sc.isUpperBound_eq upper hSu
    have hD : ∀ D : LowerSet C, Inside D (sc.cuts ts') ↔
        Inside D (sc.cuts ts) ∨ (sc.cut lower ∈ D ∧ sc.cut upper ∉ D) := by
      intro D
      rw [hcuts, inside_fill true hlu hn.sorted (by simpa using hn.even)]
      tauto
    refine ⟨ts', hok, hn', fun a ha hal hai D hlo hhiD => ?_, hD, hmem⟩
    rw [hD]
    rcases hmem a ha with ha | rfl | rfl
    · exact Or.inl (hw a ha hal hai D hlo hhiD)
    · refine Or.inr ⟨?_, fun h => hhiD (D.lower (hhi hne) h)⟩
      rwa [sc.cut_eq_lo (by rw [hal, hai])]
    · rw [hu'] at hal
      exact absurd hal (by simp)

/-! ## Closing a gap -/

/-- The walk over a tail that holds the gap: it stops there and replaces the upper bound of the
first range, leaving the second range where it is. -/
lemma addWalk_gap (hSu : S upper)
    (hinc : upper.isInclusiveBound = true) {X B : List (ValueTransition α)}
    {t u : ValueTransition α} (ht : Tail sc (X ++ t :: u :: B)) (hg : Gap type upper t u) :
    addWalk type upper (X ++ t :: u :: B) = (upper :: u :: B, true) := by
  induction X with
  | nil => simp [addWalk, hg.endsAt, hg.isUpperBound, hg.ends, hinc]
  | cons x X ih =>
    have hSx : S x := ht.mem x (by simp)
    have hSt : S t := ht.mem t (by simp)
    obtain ⟨hlo, hhi⟩ := sc.eq_of_zero _ _ hSt hSu hg.endsAt
    have htl : t.isLowerBound = false := by
      have := sc.isUpperBound_eq _ hSt
      rw [hg.isUpperBound] at this
      simpa using this.symm
    have hlt : sc.cut x < sc.lo upper := by
      rw [← hlo, ← sc.cut_eq_lo (by rw [htl, hg.ends])]
      exact ht.cut_lt _ (by simp)
    have hneg : x.compareRaw type upper < 0 := by
      rcases lt_trichotomy (x.compareRaw type upper) 0 with h | h | h
      · exact h
      · rw [← (sc.eq_of_zero _ _ hSx hSu h).1] at hlt
        exact absurd (sc.lo_le_cut hSx) (not_le.2 hlt)
      · exact absurd ((sc.lo_le_cut hSu).trans_lt (sc.cut_lt_cut_of_pos hSx hSu h))
          (not_lt.2 hlt.le)
    rw [List.cons_append, addWalk]
    simp only [not_lt.2 hneg.le, hneg.ne, if_false]
    exact ih ht.tail

/-- Adding a range that closes a gap leaves two neighbouring ranges that touch at the value that
the first one includes: the result is not in normal form. -/
theorem addRange_closesGap {lower? upper? : Option (ValueTransition α)}
    (hlower : lower?.getD .minimum = lower) (hupper : upper?.getD .maximum = upper)
    (hn : sc.Normal ts) (hSl : S lower) (hSu : S upper)
    (hl : lower.isLowerBound = true) (hu : upper.isUpperBound = true)
    (hgap : ClosesGap type ts lower upper) :
    ∃ ts', addRange type ts lower? upper? = .ok ts' ∧ (∀ t ∈ ts', S t) ∧ ¬ sc.Normal ts' := by
  obtain ⟨hinc, hneg, A', t, u, B', hts', hg⟩ := hgap
  have hSt : S t := hn.mem t (by simp [hts'])
  have hSv : S u := hn.mem u (by simp [hts'])
  have hu' : upper.isLowerBound = false := by simpa [hu] using sc.isUpperBound_eq upper hSu
  obtain ⟨hlo, hhi⟩ := sc.eq_of_zero _ _ hSt hSu hg.endsAt
  have hne : isEmptyRange type lower upper = false := by
    simp [isEmptyRange, not_lt.2 hneg.le, hneg.ne]
  -- the lower bound is not above the end of the first range
  have hcutl : sc.cut lower ≤ sc.lo t := by
    refine (sc.cut_le_lo_or_hi_le_cut hSt hSl hg.ends).resolve_right (not_le.2 ?_)
    rw [hhi]
    exact (sc.cut_lt_cut_of_neg hSl hSu hneg).trans_le (sc.cut_le_hi hSu)
  have htneg : lower.compareRaw type t < 0 := by
    rcases lt_trichotomy (lower.compareRaw type t) 0 with h | h | h
    · exact h
    · have := sc.zero_of_eq _ _ hSl hSu ((sc.eq_of_zero _ _ hSl hSt h).1.trans hlo)
      exact absurd this hneg.ne
    · exact absurd ((sc.lo_le_cut hSt).trans_lt (sc.cut_lt_cut_of_pos hSl hSt h))
        (not_lt.2 hcutl)
  obtain ⟨A, B, hts, hlow, hA, hB⟩ := findLower_spec hn hSl hl
  cases B with
  | nil =>
    have : t ∈ A := by
      rw [← List.append_nil A, ← hts, hts']
      simp
    exact absurd (hA t this) (not_lt.2 htneg.le)
  | cons next B =>
    have hplaced : Placed sc lower A next B := ⟨hts ▸ hn, hSl, hl, hA, hB next B rfl⟩
    obtain ⟨P, R, hadd, hopen, hP⟩ := addLower_spec hplaced
    rw [← hts] at hadd hopen hP
    obtain ⟨X, hX, hXraw⟩ := hopen.suffix
    have htX : t ∉ X := fun h => absurd (hXraw t h) (not_le.2 htneg)
    -- so the gap lies in the part that is walked over
    obtain ⟨Y, rfl⟩ : ∃ Y, R = Y ++ t :: u :: B' := by
      rw [hts'] at hX
      rcases List.append_eq_append_iff.1 hX with ⟨Y, hY, hR⟩ | ⟨Y, hY, hR⟩
      · cases Y with
        | nil => exact ⟨[], by simpa using hR.symm⟩
        | cons y Y =>
          have hyt : t = y := by simpa using (List.cons.inj hR).1
          exact absurd (by simp [hY, hyt]) htX
      · exact ⟨Y, hR⟩
    have hget : ts[A.length]? = some next := by simp [hts]
    refine ⟨P ++ upper :: u :: B', ?_, fun x hx => ?_, fun hcon => ?_⟩
    · simp only [addRange, hlower, hupper, hl, hu, hne, hlow, Bool.not_true, Bool.or_false,
        Bool.false_eq_true, if_false, hget, hadd]
      simp [addUpper, addWalk_gap hSu hinc (hopen.tail hn) hg, Except.map]
    · rcases List.mem_append.1 hx with hx | hx
      · exact (hP x hx).elim (hn.mem x) fun h => h ▸ hSl
      · rcases List.mem_cons.1 hx with rfl | hx
        · exact hSu
        · exact hn.mem x (by simp [hts', List.mem_cons.1 hx])
    · have hs := hcon.sorted
      rw [Scale.cuts_append, cuts_cons, cuts_cons, List.pairwise_append, List.pairwise_cons] at hs
      have hlt : sc.cut upper < sc.cut u := hs.2.1.1 _ (by simp)
      rw [sc.cut_eq_hi (by simp [hu', hinc]), sc.cut_eq_hi (a := u) (by simp [hg.isLowerBound,
        hg.starts]), (sc.eq_of_zero _ _ hSv hSu hg.startsAt).2] at hlt
      exact lt_irrefl _ hlt

end ValueSet

end HpccPlatform
