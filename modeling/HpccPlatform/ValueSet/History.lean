import HpccPlatform.ValueSet.Algebra

/-!
# Value sets as a set algebra

Every value set is the result of a `History`: the operations performed on it since it was empty,
with the histories of the sets it was combined with.  `values` is what the same operations do to
mathematical sets of field values.

The two agree as long as no range is added that closes a gap.  `addRange` finds the upper bound
`v)` of the range that ends before the gap, makes it `v]`, and returns without looking at the range
`(v` that follows; the two ranges then touch at `v`, and `matches` no longer finds `v`.
-/

namespace HpccPlatform

namespace ValueSet

open Scale CutList ValueTransition

variable {α : Type*}

/-! ## Gaps of a union -/

section Union

variable {type : RtlTypeInfo α} {Q : Type*} [LinearOrder Q] {r : Rank type.compare Q}
  {ts ts' other : List (ValueTransition α)} {lower upper : ValueTransition α}

/-- The cuts of a gap: the two sides of the value, with an odd number of cuts above them. -/
lemma ClosesGap.filter_eq (hn : (FullScale.scale r).Normal ts) (hSu : upper.Full)
    (h : ClosesGap type ts lower upper) :
    ∃ rest, Odd rest.length ∧
      ((FullScale.scale r).cuts ts).filter ((FullScale.scale r).lo upper ≤ ·) =
        (FullScale.scale r).lo upper :: (FullScale.scale r).hi upper :: rest := by
  obtain ⟨-, -, A, t, u, B, rfl, hg⟩ := h
  set sc := FullScale.scale r
  have hSt : t.Full := hn.mem t (by simp)
  have hSv : u.Full := hn.mem u (by simp)
  obtain ⟨hlo, hhi⟩ := sc.eq_of_zero _ _ hSt hSu hg.endsAt
  obtain ⟨-, hhi'⟩ := sc.eq_of_zero _ _ hSv hSu hg.startsAt
  have htl : t.isLowerBound = false := by
    simpa [hg.isUpperBound] using hSt.isUpperBound_eq
  have hcut : sc.cut t = sc.lo upper := by rw [sc.cut_eq_lo (by rw [htl, hg.ends]), hlo]
  have hcut' : sc.cut u = sc.hi upper := by
    rw [sc.cut_eq_hi (by rw [hg.isLowerBound, hg.starts]; rfl), hhi']
  have hs := hn.sorted
  have halt := hn.alternates
  rw [alternates_append] at halt
  rw [Scale.cuts_append, List.pairwise_append, cuts_cons] at hs
  refine ⟨sc.cuts B, ?_, ?_⟩
  · have hA : Odd A.length := by simpa [htl] using halt.2.1
    have := hn.even
    rw [List.length_append, Nat.even_add, iff_false_left (Nat.not_even_iff_odd.2 hA)] at this
    simpa [Nat.even_add_one] using this
  · rw [Scale.cuts_append, List.filter_append, List.filter_eq_nil_iff.2, List.nil_append,
      List.filter_eq_self.2, cuts_cons, cuts_cons, hcut, hcut']
    · intro c hc
      rw [cuts_cons] at hc
      rcases List.mem_cons.1 hc with rfl | hc
      · simp [hcut]
      · simpa [hcut] using (List.rel_of_pairwise_cons hs.2.1 hc).le
    · intro c hc
      simpa [hcut] using hs.2.2 c hc (sc.cut t) (by simp)

/-- Conversely, these cuts are those of a gap. -/
lemma closesGap_of_filter_eq (hn : (FullScale.scale r).Normal ts) (hSu : upper.Full)
    (hinc : upper.isInclusiveBound = true) (hneg : lower.compareRaw type upper < 0)
    {rest : List (FullScale.Place Q)} (hodd : Odd rest.length)
    (h : ((FullScale.scale r).cuts ts).filter ((FullScale.scale r).lo upper ≤ ·) =
      (FullScale.scale r).lo upper :: (FullScale.scale r).hi upper :: rest) :
    ClosesGap type ts lower upper := by
  set sc := FullScale.scale r with hsc
  have hsplit := filter_lt_append_filter_le hn.sorted (sc.lo upper)
  rw [h] at hsplit
  obtain ⟨A, B, rfl, hA, hB⟩ := List.map_eq_append_iff.1 hsplit.symm
  obtain ⟨t, B, rfl, hcut, hB⟩ := List.map_eq_cons_iff.1 hB
  obtain ⟨u, B, rfl, hcut', rfl⟩ := List.map_eq_cons_iff.1 hB
  have hSt : t.Full := hn.mem t (by simp)
  have hSv : u.Full := hn.mem u (by simp)
  have halt := (alternates_append.1 hn.alternates).2
  have hlen : Odd A.length := by
    have := hn.even
    rw [List.length_append, Nat.even_add] at this
    simpa [Nat.even_add_one, ← Nat.not_even_iff_odd, Nat.not_even_iff_odd.2
      (by simpa using hodd : Odd B.length)] using this
  have htl : t.isLowerBound = false := by simpa [hlen] using halt.1
  have hul : u.isLowerBound = true := by simpa [hlen] using halt.2.1
  rw [hsc, FullScale.scale_cut] at hcut hcut'
  have hkey : FullScale.key r t = FullScale.key r upper := congrArg (fun p => (ofLex p).1) hcut
  have hkey' : FullScale.key r u = FullScale.key r upper := congrArg (fun p => (ofLex p).1) hcut'
  have ht : (t.isLowerBound ^^ t.isInclusiveBound) = false := congrArg (fun p => (ofLex p).2) hcut
  have hu : (u.isLowerBound ^^ u.isInclusiveBound) = true := congrArg (fun p => (ofLex p).2) hcut'
  exact ⟨hinc, hneg, A, t, u, B, rfl,
    ⟨by simp [hSt.isUpperBound_eq, htl], by simpa [htl] using ht,
      (FullScale.zero_iff r hSt hSu).2 hkey, hul, by simpa [hul] using hu,
      (FullScale.zero_iff r hSv hSu).2 hkey'⟩⟩

/-- Filling or clearing the line below a range changes nothing about the gap that it closes. -/
lemma closesGap_fill_iff (hn : (FullScale.scale r).Normal ts)
    (hn' : (FullScale.scale r).Normal ts') (b : Bool) {l u : FullScale.Place Q} (hlu : l < u)
    (hcuts : (FullScale.scale r).cuts ts' = fill b l u ((FullScale.scale r).cuts ts))
    (hSl : lower.Full) (hSu : upper.Full) (hlt : u < (FullScale.scale r).cut lower) :
    ClosesGap type ts' lower upper ↔ ClosesGap type ts lower upper := by
  have hfilter : lower.compareRaw type upper < 0 →
      ((FullScale.scale r).cuts ts').filter ((FullScale.scale r).lo upper ≤ ·) =
        ((FullScale.scale r).cuts ts).filter ((FullScale.scale r).lo upper ≤ ·) := by
    intro hneg
    rw [hcuts]
    refine filter_le_fill b hlu (hlt.trans ?_) _
    rw [FullScale.scale_cut]
    exact Prod.Lex.toLex_lt_toLex.2 (Or.inl ((FullScale.neg_iff r hSl hSu).1 hneg))
  constructor
  · intro h
    obtain ⟨rest, hodd, hrest⟩ := h.filter_eq hn' hSu
    exact closesGap_of_filter_eq hn hSu h.1 h.2.1 hodd (hfilter h.2.1 ▸ hrest)
  · intro h
    obtain ⟨rest, hodd, hrest⟩ := h.filter_eq hn hSu
    exact closesGap_of_filter_eq hn' hSu h.1 h.2.1 hodd ((hfilter h.2.1).symm ▸ hrest)

/-- `unionSet` adds the values of the other set, unless one of its ranges closes a gap. -/
theorem unionSet_spec (hn : (FullScale.scale r).Normal ts)
    (ho : (FullScale.scale r).Normal other)
    (hgap : ∀ p ∈ ranges other, ¬ ClosesGap type ts p.1 p.2) :
    ∃ ts', unionSet type ts other = .ok ts' ∧ (FullScale.scale r).Normal ts' ∧
      ∀ D, Inside D ((FullScale.scale r).cuts ts') ↔
        Inside D ((FullScale.scale r).cuts ts) ∨ Inside D ((FullScale.scale r).cuts other) := by
  have hc := FullScale.scale_closed r
  induction other using List.twoStepInduction generalizing ts with
  | nil => exact ⟨ts, rfl, hn, by simp⟩
  | singleton t => simpa using ho.even
  | cons_cons lower upper other ih _ =>
    obtain ⟨hSl, hSu, hl, hu, hlu, hother⟩ := ho.head
    have hne : isEmptyRange type lower upper = false := by
      by_contra h
      exact not_lt.2 (cut_le_cut_of_isEmptyRange hSl hSu hl hu (by simpa using h)) hlu
    obtain ⟨ts₁, hok₁, hn₁, hcuts, -⟩ := addRange_cuts
      (show (some lower).getD .minimum = lower from rfl)
      (show (some upper).getD .maximum = upper from rfl) hn (hc.wide hn) hSl hSu hl hu hne
      (hc.hi_le_cut hSl hSu hlu) (hgap (lower, upper) (by simp [ranges]))
    obtain ⟨ts', hok', hn', hD'⟩ := ih hn₁ ho.tail_tail fun p hp hcon => by
      have hr := isRange_of_mem ho.tail_tail hp
      exact hgap p (by simp [ranges, hp])
        ((closesGap_fill_iff hn hn₁ true hlu hcuts (ho.tail_tail.mem _ hr.lower_mem)
          (ho.tail_tail.mem _ hr.upper_mem) (hother _ (List.mem_map_of_mem hr.lower_mem))).1 hcon)
    refine ⟨ts', by rw [unionSet, hok₁]; exact hok', hn', fun D => ?_⟩
    have hs := ho.sorted
    rw [cuts_cons, cuts_cons] at hs
    rw [hD', hcuts, inside_fill true hlu hn.sorted (by simpa using hn.even), cuts_cons, cuts_cons,
      inside_cons_cons hs]
    tauto

end Union

/-! ## Histories -/

/-- A bound as the caller states it: a value, and whether the value belongs to the range. -/
structure Bound (α : Type*) where
  value : α
  inclusive : Bool

/-- `createTransition(inclusive ? CMPge : CMPgt, value)` -/
def Bound.lower (type : RtlTypeInfo α) (b : Bound α) : ValueTransition α :=
  .create (if b.inclusive then CMPge else CMPgt) type b.value MatchFullString

/-- `createTransition(inclusive ? CMPle : CMPlt, value)` -/
def Bound.upper (type : RtlTypeInfo α) (b : Bound α) : ValueTransition α :=
  .create (if b.inclusive then CMPle else CMPlt) type b.value MatchFullString

/-- The field values between two bounds, a missing bound being no restriction. -/
def between (type : RtlTypeInfo α) (lower upper : Option (Bound α)) : Set α :=
  {x | (∀ b ∈ lower, 0 < type.compare x b.value ∨ type.compare x b.value = 0 ∧ b.inclusive) ∧
    ∀ b ∈ upper, type.compare x b.value < 0 ∨ type.compare x b.value = 0 ∧ b.inclusive}

/-- The operations that led to a set, starting from the empty set. -/
inductive History (α : Type*) where
  | empty
  | addRange (h : History α) (lower upper : Option (Bound α))
  | killRange (h : History α) (lower upper : Option (Bound α))
  | addAll (h : History α)
  | reset (h : History α)
  | invertSet (h : History α)
  | unionSet (h other : History α)
  | excludeSet (h other : History α)
  | intersectSet (h other : History α)

namespace History

/-- The transitions after the operations of a history. -/
def run (type : RtlTypeInfo α) : History α → Except SetError (List (ValueTransition α))
  | empty => .ok []
  | addRange h lower upper => (run type h).bind fun ts =>
    ValueSet.addRange type ts (lower.map (Bound.lower type)) (upper.map (Bound.upper type))
  | killRange h lower upper => (run type h).bind fun ts =>
    ValueSet.killRange type ts (lower.map (Bound.lower type)) (upper.map (Bound.upper type))
  | addAll h => (run type h).bind fun _ => ValueSet.addAll type
  | reset h => (run type h).bind fun _ => .ok []
  | invertSet h => (run type h).bind (ValueSet.invertSet type)
  | unionSet h other => (run type h).bind fun ts => (run type other).bind (ValueSet.unionSet type ts)
  | excludeSet h other =>
    (run type h).bind fun ts => (run type other).bind (ValueSet.excludeSet type ts)
  | intersectSet h other =>
    (run type h).bind fun ts => (run type other).map (ValueSet.intersectSet type ts)

/-- The same operations on mathematical sets. -/
def values (type : RtlTypeInfo α) : History α → Set α
  | empty => ∅
  | addRange h lower upper => values type h ∪ between type lower upper
  | killRange h lower upper => values type h \ between type lower upper
  | addAll _ => Set.univ
  | reset _ => ∅
  | invertSet h => (values type h)ᶜ
  | unionSet h other => values type h ∪ values type other
  | excludeSet h other => values type h \ values type other
  | intersectSet h other => values type h ∩ values type other

/-- The states through which the run of a history goes, those of the other sets included. -/
def states : History α → List (History α)
  | empty => [empty]
  | addRange h lower upper => addRange h lower upper :: states h
  | killRange h lower upper => killRange h lower upper :: states h
  | addAll h => addAll h :: states h
  | reset h => reset h :: states h
  | invertSet h => invertSet h :: states h
  | unionSet h other => unionSet h other :: (states h ++ states other)
  | excludeSet h other => excludeSet h other :: (states h ++ states other)
  | intersectSet h other => intersectSet h other :: (states h ++ states other)

/-- The last step adds no range that closes a gap of the set to which it is added. -/
def StepAvoidsGaps (type : RtlTypeInfo α) : History α → Prop
  | addRange h lower upper => ∀ ts, run type h = .ok ts →
    ¬ ClosesGap type ts ((lower.map (Bound.lower type)).getD .minimum)
      ((upper.map (Bound.upper type)).getD .maximum)
  | unionSet h other => ∀ ts, run type h = .ok ts → ∀ us, run type other = .ok us →
    ∀ p ∈ ranges us, ¬ ClosesGap type ts p.1 p.2
  | _ => True

/-- A property of the result of an operation that may fail. -/
instance {β ε : Type*} (e : Except ε β) (P : β → Prop) [DecidablePred P] :
    Decidable (∀ b, e = .ok b → P b) :=
  match e with
  | .error _ => isTrue (by simp)
  | .ok b => decidable_of_iff (P b) (by simp)

instance (type : RtlTypeInfo α) : DecidablePred (StepAvoidsGaps type)
  | addRange h _ _ => inferInstanceAs (Decidable (∀ ts, run type h = .ok ts → _))
  | unionSet h other => inferInstanceAs (Decidable (∀ ts, run type h = .ok ts →
      ∀ us, run type other = .ok us → ∀ p ∈ ranges us, ¬ ClosesGap type ts p.1 p.2))
  | empty | killRange .. | addAll _ | reset _ | invertSet _ | excludeSet .. | intersectSet .. =>
    isTrue trivial

/-- After the last step of a history the transitions have their documented form and `matches`
finds exactly the values of the set; no exception or assertion occurs. -/
def Correct (type : RtlTypeInfo α) (h : History α) : Prop :=
  ∃ ts, run type h = .ok ts ∧ WellFormed type ts ∧
    ∀ x, matchesField type ts x = true ↔ x ∈ values type h

section Run

variable {type : RtlTypeInfo α} {Q : Type*} [LinearOrder Q] {r : Rank type.compare Q}

/-- The invariant of a run, on the scale. -/
def Sound (r : Rank type.compare Q) (h : History α) : Prop :=
  ∃ ts, run type h = .ok ts ∧ (FullScale.scale r).Normal ts ∧
    ∀ x, (FullScale.scale r).Member ts x ↔ x ∈ values type h

section Bounds

variable (type) (b : Bound α)

@[simp] lemma isLowerBound_lower : (b.lower type).isLowerBound = true := by
  cases h : b.inclusive <;> simp [Bound.lower, create, isLowerBound, h, CMPgt, CMPge]

@[simp] lemma isInclusiveBound_lower : (b.lower type).isInclusiveBound = b.inclusive := by
  cases h : b.inclusive <;> simp [Bound.lower, create, isInclusiveBound, h, CMPgt, CMPge]

@[simp] lemma isLowerBound_upper : (b.upper type).isLowerBound = false := by
  cases h : b.inclusive <;> simp [Bound.upper, create, isLowerBound, h, CMPlt, CMPle]

@[simp] lemma isInclusiveBound_upper : (b.upper type).isInclusiveBound = b.inclusive := by
  cases h : b.inclusive <;> simp [Bound.upper, create, isInclusiveBound, h, CMPlt, CMPle]

lemma compareRawField_create (mask : TransitionMask) (v x : α) :
    (create mask type v MatchFullString).compareRawField type x = type.compare x v := by
  simp [compareRawField, create, matchSubString, storedSubLength, clampSubLength, MatchFullString]

@[simp] lemma compareRawField_lower (x : α) :
    (b.lower type).compareRawField type x = type.compare x b.value :=
  compareRawField_create type _ _ _

@[simp] lemma compareRawField_upper (x : α) :
    (b.upper type).compareRawField type x = type.compare x b.value :=
  compareRawField_create type _ _ _

end Bounds

lemma full_lower (type : RtlTypeInfo α) (lower : Option (Bound α)) :
    ((lower.map (Bound.lower type)).getD .minimum).Full ∧
      ((lower.map (Bound.lower type)).getD .minimum).isLowerBound = true := by
  cases lower with
  | none => exact ⟨full_minimum, rfl⟩
  | some b =>
    refine ⟨full_create type b.value ?_, by simp⟩
    cases b.inclusive <;> simp

lemma full_upper (type : RtlTypeInfo α) (upper : Option (Bound α)) :
    ((upper.map (Bound.upper type)).getD .maximum).Full ∧
      ((upper.map (Bound.upper type)).getD .maximum).isUpperBound = true := by
  cases upper with
  | none => exact ⟨full_maximum, rfl⟩
  | some b =>
    have hfull : (b.upper type).Full := full_create type b.value (by cases b.inclusive <;> simp)
    exact ⟨hfull, by simp [hfull.isUpperBound_eq]⟩

/-- The field values between the cuts of two bounds. -/
lemma mem_between_iff (lower upper : Option (Bound α)) (x : α) :
    x ∈ between type lower upper ↔
      (FullScale.scale r).cut ((lower.map (Bound.lower type)).getD .minimum) ∈
          (FullScale.scale r).below x ∧
        (FullScale.scale r).cut ((upper.map (Bound.upper type)).getD .maximum) ∉
          (FullScale.scale r).below x := by
  rw [Scale.cut_mem_below_iff _ (full_lower type lower).1, Scale.cut_mem_below_iff _ (full_upper type upper).1]
  refine and_congr ?_ ?_
  · cases lower with
    | none => simp [compareRawField]
    | some b => cases h : b.inclusive <;> simp [h]
  · cases upper with
    | none => simp [compareRawField]
    | some b =>
      rcases lt_trichotomy (type.compare x b.value) 0 with h | h | h
      · simp [h, h.le, h.ne]
      · simp [h]
      · simp [h, not_lt.2 h.le, h.ne']

lemma states_subset {h s : History α} (hs : s ∈ h.states) : s.states ⊆ h.states := by
  induction h with
  | empty =>
    obtain rfl : s = empty := by simpa [states] using hs
    exact List.Subset.refl _
  | addRange h lower upper ih | killRange h lower upper ih | addAll h ih | reset h ih
  | invertSet h ih =>
    rw [states, List.mem_cons] at hs
    rcases hs with rfl | hs
    · exact List.Subset.refl _
    · exact List.subset_cons_of_subset _ (ih hs)
  | unionSet h other ih iho | excludeSet h other ih iho | intersectSet h other ih iho =>
    rw [states, List.mem_cons, List.mem_append] at hs
    rcases hs with rfl | hs | hs
    · exact List.Subset.refl _
    · exact List.subset_cons_of_subset _ (List.subset_append_of_subset_left _ (ih hs))
    · exact List.subset_cons_of_subset _ (List.subset_append_of_subset_right _ (iho hs))

/-- The invariant holds after every history whose steps avoid gaps.  Each step is one of the
operations on sets in normal form. -/
lemma sound (r : Rank type.compare Q) (h : History α)
    (hgap : ∀ s ∈ h.states, StepAvoidsGaps type s) : Sound r h := by
  have hc := FullScale.scale_closed r
  induction h with
  | empty => exact ⟨[], rfl, normal_nil, fun x => by simp [Member, values]⟩
  | addRange h lower upper ih =>
    obtain ⟨ts, hok, hn, hmem⟩ := ih fun s hs => hgap s (by simp [states, hs])
    have hstep := hgap (addRange h lower upper) (by simp [states]) ts hok
    obtain ⟨hSl, hl⟩ := full_lower type lower
    obtain ⟨hSu, hu⟩ := full_upper type upper
    obtain ⟨ts', hok', hn', -, hD, -⟩ := addRange_spec rfl rfl hn (hc.wide hn) hSl hSu hl hu
      (fun hne => hc.hi_le_cut hSl hSu (cut_lt_cut_of_isEmptyRange hSl hSu hl hu hne)) hstep
    refine ⟨ts', by rw [run, hok]; exact hok', hn', fun x => ?_⟩
    rw [Member, hD, ← mem_between_iff]
    exact or_congr_left (hmem x)
  | killRange h lower upper ih =>
    obtain ⟨ts, hok, hn, hmem⟩ := ih fun s hs => hgap s (by simp [states, hs])
    obtain ⟨hSl, hl⟩ := full_lower type lower
    obtain ⟨hSu, hu⟩ := full_upper type upper
    obtain ⟨ts', hok', hn', hD⟩ := killRange_spec hc rfl rfl hn hSl hSu hl hu
    refine ⟨ts', by rw [run, hok]; exact hok', hn', fun x => ?_⟩
    rw [Member, hD, ← mem_between_iff]
    exact and_congr_left fun _ => hmem x
  | addAll h ih =>
    obtain ⟨ts, hok, -⟩ := ih fun s hs => hgap s (by simp [states, hs])
    obtain ⟨ts', hok', hn', hD⟩ := invertSet_spec hc (normal_nil : (FullScale.scale r).Normal [])
    refine ⟨ts', by rw [run, hok]; exact hok', hn', fun x => ?_⟩
    have hx := (mem_between_iff (r := r) none none x).1 (by simp [between])
    simp [Member, hD _ hx.1 hx.2, values]
  | reset h ih =>
    obtain ⟨ts, hok, -⟩ := ih fun s hs => hgap s (by simp [states, hs])
    exact ⟨[], by rw [run, hok]; rfl, normal_nil, fun x => by simp [Member, values]⟩
  | invertSet h ih =>
    obtain ⟨ts, hok, hn, hmem⟩ := ih fun s hs => hgap s (by simp [states, hs])
    obtain ⟨ts', hok', hn', hD⟩ := invertSet_spec hc hn
    refine ⟨ts', by rw [run, hok]; exact hok', hn', fun x => ?_⟩
    have hx := (mem_between_iff (r := r) none none x).1 (by simp [between])
    rw [Member, hD _ hx.1 hx.2]
    exact not_congr (hmem x)
  | unionSet h other ih iho =>
    obtain ⟨ts, hok, hn, hmem⟩ := ih fun s hs => hgap s (by simp [states, hs])
    obtain ⟨us, hoko, hno, hmemo⟩ := iho fun s hs => hgap s (by simp [states, hs])
    have hstep := hgap (unionSet h other) (by simp [states]) ts hok us hoko
    obtain ⟨ts', hok', hn', hD⟩ := unionSet_spec hn hno hstep
    refine ⟨ts', by rw [run, hok, hoko]; exact hok', hn', fun x => ?_⟩
    rw [Member, hD]
    exact or_congr (hmem x) (hmemo x)
  | excludeSet h other ih iho =>
    obtain ⟨ts, hok, hn, hmem⟩ := ih fun s hs => hgap s (by simp [states, hs])
    obtain ⟨us, hoko, hno, hmemo⟩ := iho fun s hs => hgap s (by simp [states, hs])
    obtain ⟨ts', hok', hn', hD⟩ := excludeSet_spec hc hn hno
    refine ⟨ts', by rw [run, hok, hoko]; exact hok', hn', fun x => ?_⟩
    rw [Member, hD]
    exact and_congr (hmem x) (not_congr (hmemo x))
  | intersectSet h other ih iho =>
    obtain ⟨ts, hok, hn, hmem⟩ := ih fun s hs => hgap s (by simp [states, hs])
    obtain ⟨us, hoko, hno, hmemo⟩ := iho fun s hs => hgap s (by simp [states, hs])
    obtain ⟨hn', -, hD⟩ := intersectSet_spec hn hno
    refine ⟨_, by rw [run, hok, hoko]; rfl, hn', fun x => ?_⟩
    rw [Member, hD]
    exact and_congr (hmem x) (hmemo x)

lemma Sound.correct {h : History α} (hs : Sound r h) : Correct type h := by
  obtain ⟨ts, hok, hn, hmem⟩ := hs
  refine ⟨ts, hok, (wellFormed_iff_normal r hn.mem).2 hn, fun x => ?_⟩
  rw [matchesField_iff hn ((FullScale.scale_closed r).wide hn), hmem]

end Run

/-- The type of an integer field of four bytes. -/
def intType : RtlTypeInfo ℤ where
  compare a b := if a < b then -1 else if b < a then 1 else 0
  compareRange _ _ _ _ := 0
  isFixedSize := true
  getMinSize := 4

lemma intType_totalOrder : TotalOrder intType.compare := by
  constructor <;> intros <;> simp only [intType] at * <;> grind

/-- Two ranges that are added next to each other, and the part between two others removed. -/
def joined : History ℤ :=
  (((empty.addRange (some ⟨1, true⟩) (some ⟨5, true⟩)).addRange (some ⟨5, false⟩)
    (some ⟨9, true⟩)).killRange (some ⟨3, true⟩) (some ⟨4, false⟩)).invertSet

/-- A range that ends inclusively at a value which was removed from the set. -/
def gapClosed : History ℤ :=
  (empty.addAll.killRange (some ⟨17, true⟩) (some ⟨17, true⟩)).addRange (some ⟨5, true⟩)
    (some ⟨17, true⟩)

/-- After a run of which no step closes a gap, adding a range leaves the set as documented exactly if
it closes no gap. -/
theorem correct_addRange_iff {type : RtlTypeInfo α} (horder : TotalOrder type.compare) (h : History α)
    (hgap : ∀ s ∈ h.states, StepAvoidsGaps type s) (lower upper : Option (Bound α)) :
    Correct type (addRange h lower upper) ↔ StepAvoidsGaps type (addRange h lower upper) := by
  obtain ⟨Q, _, ⟨r⟩⟩ := horder.exists_rank
  refine ⟨?_, fun hstep => (sound r _ fun s hs => ?_).correct⟩
  · rintro ⟨ts', hok', hwell, -⟩ ts hok hcloses
    obtain ⟨ts₀, hok₀, hn, -⟩ := sound r h hgap
    obtain rfl := Except.ok.inj (hok.symm.trans hok₀)
    obtain ⟨hSl, hl⟩ := full_lower type lower
    obtain ⟨hSu, hu⟩ := full_upper type upper
    obtain ⟨us, hadd, hmem, hnot⟩ := addRange_closesGap rfl rfl hn hSl hSu hl hu hcloses
    rw [run, hok] at hok'
    obtain rfl := Except.ok.inj (hadd.symm.trans hok')
    exact hnot ((wellFormed_iff_normal r hmem).1 hwell)
  · rw [states, List.mem_cons] at hs
    exact hs.elim (fun heq => heq ▸ hstep) (hgap s)

theorem correct_addRange_removed : Correct intType gapClosed ↔ StepAvoidsGaps intType gapClosed :=
  correct_addRange_iff intType_totalOrder (empty.addAll.killRange (some ⟨17, true⟩) (some ⟨17, true⟩))
    (by decide +kernel) _ _

/-- The range is merged into the one before the gap only: its upper bound and the lower bound of
the next range are left at the same value. -/
def gapTransitions : List (ValueTransition ℤ) :=
  [.minimum, Bound.upper intType ⟨17, true⟩, Bound.lower intType ⟨17, false⟩, .maximum]

lemma run_gapClosed : run intType gapClosed = .ok gapTransitions := rfl

lemma not_wellFormed_gapTransitions : ¬ WellFormed intType gapTransitions := by
  intro h
  have h₁ := (List.isChain_iff_getElem.1 h.ordered) 1 (by decide)
  revert h₁
  decide

end History

end ValueSet

end HpccPlatform
