import HpccPlatform.ValueSet.KillRange

/-!
# The scale of full-length bounds

For a type whose `compare` is a total order, the bounds with a full-length value, together with the
minimum and the maximum, form a closed scale.  The cuts of this scale are the places just before
and just after each class of equal values, and the two ends of the line.

`WellFormed` is the documented form of the transitions, read from the code's own comparisons; for
full-length bounds it is the normal form on the scale.
-/

namespace HpccPlatform

universe u

/-- A map to a linear order that orders the field values as `compare` does. -/
structure Rank {α : Type*} (compare : α → α → ℤ) (Q : Type*) [LinearOrder Q] where
  rank : α → Q
  neg_iff : ∀ a b, compare a b < 0 ↔ rank a < rank b
  zero_iff : ∀ a b, compare a b = 0 ↔ rank a = rank b

/-- Field values up to equality under `compare` are linearly ordered. -/
theorem TotalOrder.exists_rank {α : Type u} {compare : α → α → ℤ} (h : TotalOrder compare) :
    ∃ (Q : Type u) (_ : LinearOrder Q), Nonempty (Rank compare Q) := by
  have hrefl : ∀ a, compare a a ≤ 0 := fun a => by
    have := h.swap a a
    omega
  have htotal : ∀ a b, compare a b ≤ 0 ∨ compare b a ≤ 0 := fun a b => by
    have := h.swap a b
    omega
  let : Preorder α :=
    { le := fun a b => compare a b ≤ 0, le_refl := hrefl, le_trans := h.trans }
  have : Std.Total (α := α) (· ≤ ·) := ⟨htotal⟩
  let : DecidableLE α := Classical.decRel _
  let : DecidableLT α := Classical.decRel _
  refine ⟨Antisymmetrization α (· ≤ ·), inferInstance, ⟨toAntisymmetrization (· ≤ ·), ?_, ?_⟩⟩
  · intro a b
    refine Iff.trans ?_ toAntisymmetrization_lt_toAntisymmetrization_iff.symm
    change compare a b < 0 ↔ compare a b ≤ 0 ∧ ¬ compare b a ≤ 0
    have := h.swap b a
    omega
  · intro a b
    refine Iff.trans ?_ le_antisymm_iff.symm
    change compare a b = 0 ↔ compare a b ≤ 0 ∧ compare b a ≤ 0
    have := h.swap b a
    omega

namespace ValueTransition

variable {α : Type*}

/-- A bound that is compared as a whole value, or the minimum or the maximum of the type. -/
structure Full (t : ValueTransition α) : Prop where
  subLength_eq : t.subLength = MatchFullString
  shape : (t.value ≠ none ∧ t.mask ∈ [CMPlt, CMPle, CMPgt, CMPge]) ∨ t = minimum ∨ t = maximum

lemma full_minimum : (minimum : ValueTransition α).Full := ⟨rfl, Or.inr (Or.inl rfl)⟩

lemma full_maximum : (maximum : ValueTransition α).Full := ⟨rfl, Or.inr (Or.inr rfl)⟩

lemma full_create (type : RtlTypeInfo α) (v : α) {mask : TransitionMask}
    (hmask : mask ∈ [CMPlt, CMPle, CMPgt, CMPge]) : (create mask type v MatchFullString).Full := by
  refine ⟨?_, Or.inl ⟨by simp [create], hmask⟩⟩
  simp [create, storedSubLength, clampSubLength, MatchFullString]

variable {t : ValueTransition α}

lemma Full.matchSubString_eq (h : t.Full) : t.matchSubString = false := by
  simp [matchSubString, h.subLength_eq]

lemma Full.isUpperBound_eq (h : t.Full) : t.isUpperBound = !t.isLowerBound := by
  rcases h.shape with ⟨-, hmask⟩ | rfl | rfl
  · simp only [List.mem_cons, List.not_mem_nil, or_false] at hmask
    rcases hmask with h | h | h | h <;> rw [isUpperBound, isLowerBound, h] <;> rfl
  · rfl
  · rfl

/-- A bound with a value is neither the minimum nor the maximum. -/
lemma Full.value_cases (h : t.Full) :
    (∃ v, t.value = some v ∧ t.isMinimum = false ∧ t.isMaximum = false) ∨
      t = minimum ∨ t = maximum := by
  rcases h.shape with ⟨hv, hmask⟩ | h
  · obtain ⟨v, hv⟩ := Option.ne_none_iff_exists'.1 hv
    refine Or.inl ⟨v, hv, ?_⟩
    simp only [List.mem_cons, List.not_mem_nil, or_false] at hmask
    rcases hmask with h | h | h | h <;> rw [isMinimum, isMaximum, h] <;> exact ⟨rfl, rfl⟩
  · exact Or.inr h

end ValueTransition

/-! ## The scale -/

namespace FullScale

open ValueTransition

variable {α : Type*} {type : RtlTypeInfo α} {Q : Type*} [LinearOrder Q]
  (r : Rank type.compare Q) {a b : ValueTransition α}

/-- Where the values of a bound lie: a class of equal values, or one of the ends. -/
def key (t : ValueTransition α) : WithBot (WithTop Q) :=
  match t.value with
  | some v => ((r.rank v : WithTop Q) : WithBot (WithTop Q))
  | none => if t.isMinimum then ⊥ else ⊤

lemma key_of_value {v : α} (h : a.value = some v) :
    key r a = ((r.rank v : WithTop Q) : WithBot (WithTop Q)) := by
  rw [key, h]

@[simp] lemma key_minimum : key r (minimum : ValueTransition α) = ⊥ := rfl

@[simp] lemma key_maximum : key r (maximum : ValueTransition α) = ⊤ := rfl

lemma coe_lt_top (q : Q) : ((q : WithTop Q) : WithBot (WithTop Q)) < ⊤ :=
  WithBot.coe_lt_coe.2 (WithTop.coe_lt_top q)

/-- The bounds are ordered as their keys are. -/
lemma compareRaw_iff (ha : a.Full) (hb : b.Full) :
    (a.compareRaw type b < 0 ↔ key r a < key r b) ∧
      (a.compareRaw type b = 0 ↔ key r a = key r b) := by
  rcases ha.value_cases with ⟨v, hv, hmin, hmax⟩ | rfl | rfl <;>
    rcases hb.value_cases with ⟨w, hw, hmin', hmax'⟩ | rfl | rfl
  · have hraw : a.compareRaw type b = type.compare v w := by
      simp [compareRaw, hv, hw, ha.matchSubString_eq, hb.matchSubString_eq]
    rw [hraw, key_of_value r hv, key_of_value r hw, r.neg_iff, r.zero_iff]
    simp
  · simp [compareRaw, key_of_value r hv, hmin, hmax]
  · simp [compareRaw, key_of_value r hv, hmin, hmax, coe_lt_top]
  · simp [compareRaw, key_of_value r hw, hmin']
  · simp [compareRaw]
  · simp [compareRaw]
  · simp [compareRaw, key_of_value r hw, hmax']
  · simp [compareRaw]
  · simp [compareRaw]

lemma neg_iff (ha : a.Full) (hb : b.Full) : a.compareRaw type b < 0 ↔ key r a < key r b :=
  (compareRaw_iff r ha hb).1

lemma zero_iff (ha : a.Full) (hb : b.Full) : a.compareRaw type b = 0 ↔ key r a = key r b :=
  (compareRaw_iff r ha hb).2

lemma pos_iff (ha : a.Full) (hb : b.Full) : 0 < a.compareRaw type b ↔ key r b < key r a := by
  have h₁ := neg_iff r ha hb
  have h₂ := zero_iff r ha hb
  rw [← not_le, le_iff_lt_or_eq, h₁, h₂, ← le_iff_lt_or_eq, not_le]

/-- A field lies below, among or above the values of a bound. -/
lemma compareRawField_iff (ha : a.Full) (x : α) :
    (a.compareRawField type x < 0 ↔
      ((r.rank x : WithTop Q) : WithBot (WithTop Q)) < key r a) ∧
    (a.compareRawField type x = 0 ↔
      ((r.rank x : WithTop Q) : WithBot (WithTop Q)) = key r a) := by
  rcases ha.value_cases with ⟨v, hv, hmin, hmax⟩ | rfl | rfl
  · have hraw : a.compareRawField type x = type.compare x v := by
      simp [compareRawField, hv, ha.matchSubString_eq]
    rw [hraw, key_of_value r hv, r.neg_iff, r.zero_iff]
    simp
  · simp [compareRawField]
  · simp [compareRawField, coe_lt_top]

/-- The places before (`false`) and after (`true`) each class of equal values. -/
abbrev Place (Q : Type*) := WithBot (WithTop Q) ×ₗ Bool

/-- The place at which a bound stands, from its key. -/
lemma place_ite (t : ValueTransition α) :
    (if t.isLowerBound = t.isInclusiveBound then (toLex (key r t, false) : Place Q)
      else toLex (key r t, true)) =
      toLex (key r t, t.isLowerBound ^^ t.isInclusiveBound) := by
  cases t.isLowerBound <;> cases t.isInclusiveBound <;> rfl

/-- The scale of the full-length bounds of a type. -/
def scale : Scale type (Full (α := α)) (Place Q) where
  lo t := toLex (key r t, false)
  hi t := toLex (key r t, true)
  below x := LowerSet.Iic (toLex (((r.rank x : WithTop Q) : WithBot (WithTop Q)), false))
  lo_lt_hi a _ := by simp [Prod.Lex.toLex_lt_toLex]
  isUpperBound_eq a ha := ha.isUpperBound_eq
  cut_lt_of_neg a b ha hb h := by
    rw [place_ite, place_ite, Prod.Lex.toLex_lt_toLex]
    exact Or.inl ((neg_iff r ha hb).1 h)
  cut_lt_of_pos a b ha hb h := by
    rw [place_ite, place_ite, Prod.Lex.toLex_lt_toLex]
    exact Or.inl ((pos_iff r ha hb).1 h)
  eq_of_zero a b ha hb h := by
    rw [(zero_iff r ha hb).1 h]
    exact ⟨rfl, rfl⟩
  zero_of_eq a b ha hb h := (zero_iff r ha hb).2 (congrArg (fun p => (ofLex p).1) h)
  exclusive a b _ _ _ := by
    rw [place_ite, Prod.Lex.toLex_le_toLex, Prod.Lex.toLex_le_toLex]
    rcases lt_trichotomy (key r a) (key r b) with h | h | h
    · exact Or.inr (Or.inl h)
    · rw [h]
      cases b.isLowerBound ^^ b.isInclusiveBound <;> simp
    · exact Or.inl (Or.inl h)
  field_neg a x ha h := by
    have := (compareRawField_iff r ha x).1.1 h
    simp [Prod.Lex.toLex_le_toLex, not_lt, this.le, this.ne']
  field_zero a x ha h := by
    have := (compareRawField_iff r ha x).2.1 h
    simp [Prod.Lex.toLex_le_toLex, this]
  field_pos a x ha h := by
    have h₁ := (compareRawField_iff r ha x).1
    have h₂ := (compareRawField_iff r ha x).2
    have hlt : key r a < ((r.rank x : WithTop Q) : WithBot (WithTop Q)) := by
      rw [← not_le, le_iff_lt_or_eq, ← h₁, ← h₂]
      omega
    simp [Prod.Lex.toLex_le_toLex, hlt]

lemma scale_cut (t : ValueTransition α) :
    (scale r).cut t = toLex (key r t, t.isLowerBound ^^ t.isInclusiveBound) :=
  place_ite r t

/-- No place lies between the two sides of a class of equal values. -/
lemma lo_lt_iff (t : ValueTransition α) (c : Place Q) :
    (scale r).lo t < c ↔ (scale r).hi t ≤ c := by
  obtain ⟨⟨k, b⟩, rfl⟩ := toLex.surjective c
  change toLex (key r t, false) < toLex (k, b) ↔ toLex (key r t, true) ≤ toLex (k, b)
  rw [Prod.Lex.toLex_lt_toLex, Prod.Lex.toLex_le_toLex]
  cases b <;> simp

lemma cut_lt_lo_iff (ha : a.Full) (hb : b.Full) :
    (scale r).cut a < (scale r).lo b ↔ a.compareRaw type b < 0 := by
  rw [neg_iff r ha hb, scale_cut]
  simp [scale, Prod.Lex.toLex_lt_toLex]

lemma hi_lt_cut_iff (ha : a.Full) (hb : b.Full) :
    (scale r).hi a < (scale r).cut b ↔ a.compareRaw type b < 0 := by
  rw [neg_iff r ha hb, scale_cut]
  simp [scale, Prod.Lex.toLex_lt_toLex]

lemma compareRaw_swap (r : Rank type.compare Q) (ha : a.Full) (hb : b.Full) :
    0 < a.compareRaw type b ↔ b.compareRaw type a < 0 := by
  rw [pos_iff r ha hb, neg_iff r hb ha]

lemma key_congr (hv : a.value = b.value) (hval : a.value ≠ none) : key r a = key r b := by
  obtain ⟨v, hv'⟩ := Option.ne_none_iff_exists'.1 hval
  rw [key_of_value r hv', key_of_value r (hv ▸ hv')]

/-- The scale is closed under the operations of `killRange`. -/
lemma scale_closed : (scale r).Closed where
  flat a b _ _ := by
    rw [scale_cut]
    simp only [scale, Prod.Lex.toLex_le_toLex]
    rcases lt_trichotomy (key r a) (key r b) with h | h | h
    · exact Or.inr (Or.inl h)
    · rw [h]
      cases b.isLowerBound ^^ b.isInclusiveBound <;> simp
    · exact Or.inl (Or.inl h)
  mask a ha hv := by
    rcases ha.shape with h | rfl | rfl
    · exact h.2
    · simp at hv
    · simp at hv
  modify a t ha hv hval hsub hmask := by
    have hkey : key r t = key r a := key_congr r hval (hval ▸ hv)
    refine ⟨⟨hsub ▸ ha.subLength_eq, Or.inl ⟨hval ▸ hv, hmask⟩⟩, ?_, ?_⟩ <;> simp [scale, hkey]
  minimum := full_minimum
  maximum := full_maximum
  null a ha hv := by
    rcases ha.shape with h | h
    · exact absurd hv h.1
    · exact h
  isMinimum a ha h := by
    rcases ha.value_cases with ⟨v, -, hmin, -⟩ | rfl | rfl
    · simp [hmin] at h
    · rfl
    · simp at h
  isMaximum a ha h := by
    rcases ha.value_cases with ⟨v, -, -, hmax⟩ | rfl | rfl
    · simp [hmax] at h
    · simp at h
    · rfl

end FullScale

/-! ## The documented form -/

namespace ValueSet

open ValueTransition Scale

variable {α : Type*}

/-- Two neighbouring transitions are in order: they differ in value, or they are the two inclusive
bounds of a single value, or two exclusive bounds that leave that value out. -/
def Ordered (type : RtlTypeInfo α) (a b : ValueTransition α) : Prop :=
  a.compareRaw type b < 0 ∨
    (a.compareRaw type b = 0 ∧ a.isInclusiveBound = a.isLowerBound ∧
      b.isInclusiveBound = a.isLowerBound)

instance (type : RtlTypeInfo α) : DecidableRel (Ordered type) := fun a b =>
  inferInstanceAs (Decidable (a.compareRaw type b < 0 ∨ _))

/-- The transitions come in pairs of a lower and an upper bound, in increasing order, and no two
neighbouring ranges overlap or touch at a value that one of them includes. -/
structure WellFormed (type : RtlTypeInfo α) (ts : List (ValueTransition α)) : Prop where
  even : Even ts.length
  isLowerBound : ∀ i (hi : i < ts.length), ts[i].isLowerBound = decide (Even i)
  isUpperBound : ∀ i (hi : i < ts.length), ts[i].isUpperBound = decide (Odd i)
  ordered : ts.IsChain (Ordered type)

/-- A value set whose bounds are compared as whole values, in its documented form. -/
structure IsSet (type : RtlTypeInfo α) (ts : List (ValueTransition α)) : Prop where
  full : ∀ t ∈ ts, t.Full
  wellFormed : WellFormed type ts

variable {type : RtlTypeInfo α} {Q : Type*} [LinearOrder Q] (r : Rank type.compare Q)
  {a b : ValueTransition α} {ts : List (ValueTransition α)}

/-- Neighbours that face different ways are in order when their cuts are. -/
lemma ordered_iff (ha : a.Full) (hb : b.Full) (hab : b.isLowerBound = !a.isLowerBound) :
    Ordered type a b ↔ (FullScale.scale r).cut a < (FullScale.scale r).cut b := by
  rw [Ordered, FullScale.neg_iff r ha hb, FullScale.zero_iff r ha hb, FullScale.scale_cut,
    FullScale.scale_cut, Prod.Lex.toLex_lt_toLex, hab]
  cases a.isLowerBound <;> cases a.isInclusiveBound <;> cases b.isInclusiveBound <;> simp

lemma alternates_iff {b : Bool} : Alternates b ts ↔
    ∀ i (hi : i < ts.length), ts[i].isLowerBound = (b ^^ decide (Odd i)) := by
  refine ⟨fun h i hi => h.isLowerBound_getElem hi, fun h => ?_⟩
  induction ts generalizing b with
  | nil => trivial
  | cons t ts ih =>
    refine ⟨(h 0 (by simp)).trans (by simp), ih fun i hi => ?_⟩
    have := h (i + 1) (by simpa using hi)
    rw [List.getElem_cons_succ] at this
    rw [this]
    rcases Nat.even_or_odd i with he | ho
    · simp [Nat.odd_add_one, Nat.not_odd_iff_even.2 he]
    · simp [Nat.odd_add_one, ho]

/-- For full-length bounds the documented form is the normal form on the scale. -/
theorem wellFormed_iff_normal (hfull : ∀ t ∈ ts, t.Full) :
    WellFormed type ts ↔ (FullScale.scale r).Normal ts := by
  have hflag : (∀ i (hi : i < ts.length), ts[i].isLowerBound = decide (Even i)) ↔
      Alternates true ts := by
    rw [alternates_iff]
    simp [← Nat.not_odd_iff_even]
  have hchain : Alternates true ts → (ts.IsChain (Ordered type) ↔
      ((FullScale.scale r).cuts ts).Pairwise (· < ·)) := by
    intro halt
    rw [Scale.cuts, ← List.isChain_iff_pairwise, List.isChain_map, List.isChain_iff_getElem,
      List.isChain_iff_getElem]
    refine forall₂_congr fun i hi => ordered_iff r (hfull _ (List.getElem_mem _))
      (hfull _ (List.getElem_mem _)) ?_
    rw [halt.isLowerBound_getElem, halt.isLowerBound_getElem]
    rcases Nat.even_or_odd i with he | ho
    · simp [he, Nat.not_odd_iff_even.2 he]
    · simp [Nat.odd_add_one, ho]
  constructor
  · intro h
    have halt := hflag.1 h.isLowerBound
    exact ⟨hfull, (hchain halt).1 h.ordered, halt, h.even⟩
  · intro h
    have hlow := hflag.2 h.alternates
    refine ⟨h.even, hlow, fun i hi => ?_, (hchain h.alternates).2 h.sorted⟩
    rw [(hfull _ (List.getElem_mem hi)).isUpperBound_eq, hlow i hi, ← decide_not]
    exact decide_eq_decide.2 Nat.not_even_iff_odd

end ValueSet

end HpccPlatform
