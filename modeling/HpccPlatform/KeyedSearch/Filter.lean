import HpccPlatform.ValueSet.Lookup

/-!
# Field filters

The filters of `rtl/eclrtl/rtlnewkey.cpp` that a keyed search is made of.  A filter on a field is
wild, or has a single value, or has a value set; each kind answers the same questions about a field
value, in terms of the ranges of values that it accepts.

A `RowFilter` holds filters on some of the fields, in any order.  `extractKeyFilter` puts them in
field order and fills the gaps up with wild filters.
-/

namespace HpccPlatform

universe u

variable {α : Type u}

/-! ## The values of a filter -/

/-- The values that a field filter accepts: `WildFieldFilter`, `SingleFieldFilter` and
`SetFieldFilter`.  A value set is in its documented form. -/
inductive FieldValues (type : RtlTypeInfo α) where
  | wild
  | single (value : α)
  | set (transitions : List (ValueTransition α)) (isSet : ValueSet.IsSet type transitions)

namespace FieldValues

variable {type : RtlTypeInfo α}

def numRanges : FieldValues type → ℕ
  | wild => 1
  | single _ => 1
  | set transitions _ => ValueSet.numRanges transitions

/-- `matches(row)`, for the field of the filter. -/
def accepts : FieldValues type → α → Bool
  | wild, _ => true
  | single value, x => type.compare x value == 0
  | set transitions _, x => ValueSet.matchesField type transitions x

/-- `compareLowest(row, range)`: a wild filter cannot tell the lowest value of its type. -/
def compareLowest : FieldValues type → α → ℕ → Option ℤ
  | wild, _, _ => some 1
  | single value, x, _ => some (type.compare x value)
  | set transitions _, x, range => ValueSet.compareLowest type transitions x range

/-- `compareHighest(row, range)` -/
def compareHighest : FieldValues type → α → ℕ → Option ℤ
  | wild, _, _ => some (-1)
  | single value, x, _ => some (type.compare x value)
  | set transitions _, x, range => ValueSet.compareHighest type transitions x range

/-- `findForwardMatchRange(row, matchRange)` -/
def findForwardMatchRange : FieldValues type → α → Bool × ℕ
  | wild, _ => (true, 0)
  | single value, x =>
    let rc := type.compare x value
    if rc = 0 then (true, 0) else if rc < 0 then (false, 0) else (false, 1)
  | set transitions _, x => ValueSet.findForwardMatchRange type transitions x

section Spec

open Scale FullScale ValueSet

variable {values : FieldValues type} {x y : α} {range : ℕ}

lemma exists_normal (horder : TotalOrder type.compare) {ts : List (ValueTransition α)}
    (h : IsSet type ts) : ∃ (Q : Type u) (_ : LinearOrder Q) (r : Rank type.compare Q),
      (scale r).Normal ts := by
  obtain ⟨Q, hQ, ⟨r⟩⟩ := horder.exists_rank
  exact ⟨Q, hQ, r, (wellFormed_iff_normal r h.full).1 h.wellFormed⟩

/-- A range index that is in range has a lowest and a highest value. -/
lemma exists_compareLowest (h : range < values.numRanges) (x : α) :
    ∃ c, values.compareLowest x range = some c := by
  cases values with
  | wild => exact ⟨1, rfl⟩
  | single value => exact ⟨_, rfl⟩
  | set ts hts =>
    have hlt : range * 2 < ts.length := by
      change range < ts.length / 2 at h
      omega
    exact ⟨_, by rw [compareLowest, ValueSet.compareLowest, List.getElem?_eq_getElem hlt]; rfl⟩

lemma exists_compareHighest (h : range < values.numRanges) (x : α) :
    ∃ c, values.compareHighest x range = some c := by
  cases values with
  | wild => exact ⟨-1, rfl⟩
  | single value => exact ⟨_, rfl⟩
  | set ts hts =>
    have hlt : range * 2 + 1 < ts.length := by
      change range < ts.length / 2 at h
      omega
    exact ⟨_, by rw [compareHighest, ValueSet.compareHighest, List.getElem?_eq_getElem hlt]; rfl⟩

lemma compareLowest_set {ts : List (ValueTransition α)} {hts : IsSet type ts} {c : ℤ}
    (h : (FieldValues.set ts hts).compareLowest x range = some c) :
    ∃ hlt : range * 2 < ts.length, ts[range * 2].compareField type x = c := by
  obtain ⟨t, ht, rfl⟩ := Option.map_eq_some_iff.1 h
  obtain ⟨hlt, rfl⟩ := List.getElem?_eq_some_iff.1 ht
  exact ⟨hlt, rfl⟩

lemma compareHighest_set {ts : List (ValueTransition α)} {hts : IsSet type ts} {c : ℤ}
    (h : (FieldValues.set ts hts).compareHighest x range = some c) :
    ∃ hlt : range * 2 + 1 < ts.length, ts[range * 2 + 1].compareField type x = c := by
  obtain ⟨t, ht, rfl⟩ := Option.map_eq_some_iff.1 h
  obtain ⟨hlt, rfl⟩ := List.getElem?_eq_some_iff.1 ht
  exact ⟨hlt, rfl⟩

section Normal

variable {Q : Type u} [LinearOrder Q] {r : Rank type.compare Q} {ts : List (ValueTransition α)}

lemma accepts_set_iff (hn : (scale r).Normal ts) (hts : IsSet type ts) (x : α) :
    (FieldValues.set ts hts).accepts x = true ↔ ∃ i, InRange (scale r) ts ((scale r).below x) i :=
  (matchesField_iff hn ((scale_closed r).wide hn) x).trans
    (inside_cuts_iff hn.sorted hn.even _)

/-- A value between two neighbouring ranges, or before the first or behind the last, is not
accepted. -/
lemma accepts_set_eq_false (hn : (scale r).Normal ts) (hts : IsSet type ts) (j : ℕ)
    (hbefore : ∀ i (h : i * 2 + 1 < ts.length), i < j →
      (scale r).cut ts[i * 2 + 1] ∈ (scale r).below x)
    (hafter : ∀ h : j * 2 < ts.length, (scale r).cut ts[j * 2] ∉ (scale r).below x) :
    (FieldValues.set ts hts).accepts x = false := by
  rw [← Bool.not_eq_true, accepts_set_iff hn]
  rintro ⟨i, hi, hl, hu⟩
  rcases Nat.lt_or_ge i j with hij | hij
  · exact hu (hbefore i hi hij)
  · exact hafter (by omega) (((scale r).below x).lower (hn.cut_le_cut (by omega) (by omega)) hl)

/-- A value that is before the lower bound of a range has the cut of that bound above it. -/
lemma compareLowest_set_iff (hn : (scale r).Normal ts) {hts : IsSet type ts} {c : ℤ}
    (h : (FieldValues.set ts hts).compareLowest x range = some c) :
    c < 0 ↔ ∀ hlt : range * 2 < ts.length,
      (scale r).cut ts[range * 2] ∉ (scale r).below x := by
  obtain ⟨hlt, rfl⟩ := compareLowest_set h
  rw [compareField_neg_iff r (hn.mem _ (List.getElem_mem hlt))
    (by simp [hn.alternates.isLowerBound_getElem hlt])]
  exact ⟨fun h _ => h, fun h => h hlt⟩

end Normal

lemma findForwardMatchRange_single {value : α} {b : Bool} {m : ℕ}
    (h : (FieldValues.single value : FieldValues type).findForwardMatchRange x = (b, m)) :
    (b = true ∧ m = 0 ∧ type.compare x value = 0) ∨
      (b = false ∧ m = 0 ∧ type.compare x value < 0) ∨
      (b = false ∧ m = 1 ∧ 0 < type.compare x value) := by
  change (if type.compare x value = 0 then (true, 0)
    else if type.compare x value < 0 then (false, 0) else (false, 1)) = (b, m) at h
  split_ifs at h with h₁ h₂
  · cases h
    exact Or.inl ⟨rfl, rfl, h₁⟩
  · cases h
    exact Or.inr (Or.inl ⟨rfl, rfl, h₂⟩)
  · cases h
    exact Or.inr (Or.inr ⟨rfl, rfl, by omega⟩)

/-- A filter accepts a value when it finds the range of the value. -/
lemma findForwardMatchRange_fst (horder : TotalOrder type.compare) (values : FieldValues type)
    (x : α) : (values.findForwardMatchRange x).1 = values.accepts x := by
  cases values with
  | wild => rfl
  | single value =>
    unfold findForwardMatchRange accepts
    by_cases h : type.compare x value = 0
    · simp [h]
    · by_cases h' : type.compare x value < 0 <;> simp [h, h']
  | set ts hts =>
    obtain ⟨Q, _, r, hn⟩ := exists_normal horder hts
    have hspec := ValueSet.findForwardMatchRange_spec hn x
    unfold Locates at hspec
    change (ValueSet.findForwardMatchRange type ts x).1 = _
    split at hspec
    · next hfound =>
      rw [hfound, eq_comm, accepts_set_iff hn]
      exact ⟨_, hspec⟩
    · next hfound =>
      rw [Bool.not_eq_true] at hfound
      rw [hfound, eq_comm]
      exact accepts_set_eq_false hn hts _ hspec.2.1 fun h => hspec.2.2 _ h le_rfl

/-- The range that a filter finds is one of its ranges. -/
lemma lt_numRanges_of_found (horder : TotalOrder type.compare) {m : ℕ}
    (h : values.findForwardMatchRange x = (true, m)) : m < values.numRanges := by
  cases values with
  | wild =>
    cases h
    exact Nat.one_pos
  | single value =>
    obtain ⟨-, rfl, -⟩ | ⟨hb, -⟩ | ⟨hb, -⟩ := findForwardMatchRange_single h
    · exact Nat.one_pos
    · cases hb
    · cases hb
  | set ts hts =>
    obtain ⟨Q, _, r, hn⟩ := exists_normal horder hts
    have hspec := ValueSet.findForwardMatchRange_spec hn x
    change ValueSet.findForwardMatchRange type ts x = (true, m) at h
    rw [h] at hspec
    obtain ⟨hlt, -⟩ := hspec
    change m < ts.length / 2
    change m * 2 + 1 < ts.length at hlt
    omega

/-- A value that is not accepted is before the next range. -/
lemma compareLowest_neg_of_notFound (horder : TotalOrder type.compare) {j : ℕ} {c : ℤ}
    (h : values.findForwardMatchRange x = (false, j)) (hj : j < values.numRanges)
    (hc : values.compareLowest x j = some c) : c < 0 := by
  cases values with
  | wild => cases h
  | single value =>
    cases hc
    obtain ⟨hb, -⟩ | ⟨-, -, hneg⟩ | ⟨-, rfl, -⟩ := findForwardMatchRange_single h
    · cases hb
    · exact hneg
    · exact absurd hj (lt_irrefl 1)
  | set ts hts =>
    obtain ⟨Q, _, r, hn⟩ := exists_normal horder hts
    have hspec := ValueSet.findForwardMatchRange_spec hn x
    change ValueSet.findForwardMatchRange type ts x = (false, j) at h
    rw [h] at hspec
    exact (compareLowest_set_iff hn hc).2 fun hlt => hspec.2.2 j hlt le_rfl

/-- From a value that is not accepted up to the next range, no value is accepted; nor is any value
when there is no next range. -/
lemma accepts_eq_false_of_notFound (horder : TotalOrder type.compare) {j : ℕ}
    (h : values.findForwardMatchRange x = (false, j)) (hxy : type.compare x y ≤ 0)
    (hnext : j < values.numRanges → ∃ c, values.compareLowest y j = some c ∧ c < 0) :
    values.accepts y = false := by
  cases values with
  | wild => cases h
  | single value =>
    change (type.compare y value == 0) = false
    rw [beq_eq_false_iff_ne]
    obtain ⟨hb, -⟩ | ⟨-, rfl, -⟩ | ⟨-, rfl, hpos⟩ := findForwardMatchRange_single h
    · cases hb
    · obtain ⟨c, hc, hneg⟩ := hnext Nat.one_pos
      cases hc
      exact hneg.ne
    · intro hy
      have := horder.trans x y value hxy hy.le
      omega
  | set ts hts =>
    obtain ⟨Q, _, r, hn⟩ := exists_normal horder hts
    have hspec := ValueSet.findForwardMatchRange_spec hn x
    change ValueSet.findForwardMatchRange type ts x = (false, j) at h
    rw [h] at hspec
    refine accepts_set_eq_false hn hts j (fun i hi hlt => ?_) fun hlt => ?_
    · exact below_mono r hxy (hspec.2.1 i hi hlt)
    · have hlen := length_eq_of_normal hn
      obtain ⟨c, hc, hneg⟩ := hnext (by change j < ValueSet.numRanges ts; omega)
      exact (compareLowest_set_iff hn hc).1 hneg hlt

/-- Behind a value that has reached the end of the last range, no value is accepted. -/
lemma accepts_eq_false_of_last (horder : TotalOrder type.compare) {m : ℕ} {c : ℤ}
    (h : values.findForwardMatchRange x = (true, m)) (hlast : values.numRanges ≤ m + 1)
    (hc : values.compareHighest x m = some c) (hnonneg : 0 ≤ c) (hxy : type.compare x y < 0) :
    values.accepts y = false := by
  cases values with
  | wild =>
    cases hc
    omega
  | single value =>
    change (type.compare y value == 0) = false
    cases hc
    rw [beq_eq_false_iff_ne]
    intro hy
    have h₁ := horder.swap y x
    have h₂ := horder.swap value x
    have h₃ := horder.swap y value
    have h₄ := horder.trans y value x hy.le (by omega)
    omega
  | set ts hts =>
    obtain ⟨Q, _, r, hn⟩ := exists_normal horder hts
    obtain ⟨hlt, rfl⟩ := compareHighest_set hc
    have hcut := cut_mem_below_of_lt r (hn.mem _ (List.getElem_mem hlt))
      (by simp [hn.alternates.isLowerBound_getElem hlt]) hnonneg hxy
    refine accepts_set_eq_false hn hts (m + 1) (fun i hi hle => ?_) fun hlt' => ?_
    · exact ((scale r).below y).lower (hn.cut_le_cut (by omega) hlt) hcut
    · change ts.length / 2 ≤ m + 1 at hlast
      obtain ⟨k, hk⟩ := hn.even
      omega

/-- No value before the first range is accepted. -/
lemma accepts_eq_false_of_lowest (horder : TotalOrder type.compare) {c : ℤ}
    (hc : values.compareLowest x 0 = some c) (hneg : c < 0) : values.accepts x = false := by
  cases values with
  | wild =>
    cases hc
    omega
  | single value =>
    change (type.compare x value == 0) = false
    cases hc
    rw [beq_eq_false_iff_ne]
    exact hneg.ne
  | set ts hts =>
    obtain ⟨Q, _, r, hn⟩ := exists_normal horder hts
    refine accepts_set_eq_false hn hts 0 (fun i _ hi => absurd hi (Nat.not_lt_zero i)) ?_
    exact (compareLowest_set_iff hn hc).1 hneg

/-- Values that are smaller than one before a range are before that range. -/
lemma compareLowest_neg_of_le (horder : TotalOrder type.compare) {c d : ℤ}
    (hc : values.compareLowest x range = some c) (hneg : c < 0) (hyx : type.compare y x ≤ 0)
    (hd : values.compareLowest y range = some d) : d < 0 := by
  cases values with
  | wild =>
    cases hc
    omega
  | single value =>
    cases hc
    cases hd
    have h₁ := horder.trans y x value hyx hneg.le
    have h₂ := horder.swap value y
    have h₃ := horder.swap value x
    have h₄ := horder.trans value y x
    omega
  | set ts hts =>
    obtain ⟨Q, _, r, hn⟩ := exists_normal horder hts
    refine (compareLowest_set_iff hn hd).2 fun hlt hcon => ?_
    exact (compareLowest_set_iff hn hc).1 hneg hlt (below_mono r hyx hcon)

end Spec

end FieldValues

/-! ## Filters on the fields of a row -/

variable {n : ℕ}

/-- A filter on one of the fields of a record with the given field types. -/
structure FieldFilter (types : Fin n → RtlTypeInfo α) where
  field : Fin n
  values : FieldValues (types field)

variable {types : Fin n → RtlTypeInfo α}

/-- `matches(row)` -/
def FieldFilter.accepts (f : FieldFilter types) (row : Fin n → α) : Bool :=
  f.values.accepts (row f.field)

/-- `compareRow(left, right)` -/
def FieldFilter.compareRow (f : FieldFilter types) (left right : Fin n → α) : ℤ :=
  (types f.field).compare (left f.field) (right f.field)

/-- `createWildFieldFilter(field, type)` -/
def createWildFieldFilter (types : Fin n → RtlTypeInfo α) (field : Fin n) : FieldFilter types :=
  ⟨field, .wild⟩

/-- `compareFields(fields, left, right)`: the rows are compared field by field. -/
def compareFields (types : Fin n → RtlTypeInfo α) (left right : Fin n → α) : List (Fin n) → ℤ
  | [] => 0
  | field :: fields =>
    let rc := (types field).compare (left field) (right field)
    if rc ≠ 0 then rc else compareFields types left right fields

/-- `RtlRecord::compare(left, right)` -/
def compareRecord (types : Fin n → RtlTypeInfo α) (left right : Fin n → α) : ℤ :=
  compareFields types left right (List.finRange n)

namespace RowFilter

/-- `RowFilter::matches(row)` -/
def accepts (filters : List (FieldFilter types)) (row : Fin n → α) : Bool :=
  filters.all (·.accepts row)

/-- The loop of `extractKeyFilter` over the fields, with the sorted filters that are left. -/
def fillWild (types : Fin n → RtlTypeInfo α) :
    List (Fin n) → List (FieldFilter types) → List (FieldFilter types)
  | field :: fields, cur :: temp =>
    if field = cur.field then cur :: fillWild types fields temp
    else createWildFieldFilter types field :: fillWild types fields (cur :: temp)
  | _, _ => []  -- the last field is the one of the last filter

/-- `extractKeyFilter(record, keyFilters)` -/
def extractKeyFilter (filters : List (FieldFilter types)) : List (FieldFilter types) :=
  let temp := filters.insertionSort fun a b => a.field ≤ b.field
  match temp.getLast? with
  | none => []
  | some tos => fillWild types ((List.finRange n).take (tos.field + 1)) temp

/-- The fields up to the last filter get one filter each, and the new ones are wild. -/
lemma fillWild_spec {fields : List (Fin n)} {temp : List (FieldFilter types)}
    (hfields : fields.Pairwise (· < ·)) (htemp : temp.Pairwise fun a b => a.field < b.field)
    (hsub : ∀ f ∈ temp, f.field ∈ fields) (hlast : ∀ x ∈ fields, ∃ f ∈ temp, x ≤ f.field) :
    (fillWild types fields temp).map FieldFilter.field = fields ∧
      ∀ row, accepts (fillWild types fields temp) row = accepts temp row := by
  induction fields generalizing temp with
  | nil =>
    obtain rfl : temp = [] := List.eq_nil_iff_forall_not_mem.2 fun f hf => by
      simpa using hsub f hf
    exact ⟨rfl, fun _ => rfl⟩
  | cons x xs ih =>
    obtain ⟨hx, hxs⟩ := List.pairwise_cons.1 hfields
    cases temp with
    | nil =>
      obtain ⟨f, hf, -⟩ := hlast x List.mem_cons_self
      cases hf
    | cons cur temp =>
      obtain ⟨hcur, htemp'⟩ := List.pairwise_cons.1 htemp
      unfold fillWild
      by_cases h : x = cur.field
      · rw [if_pos h]
        obtain ⟨hmap, hacc⟩ := ih hxs htemp' (fun f hf => by
            rcases List.mem_cons.1 (hsub f (List.mem_cons_of_mem _ hf)) with heq | hmem
            · exact absurd (hcur f hf) (by rw [heq, h]; exact lt_irrefl _)
            · exact hmem)
          (fun y hy => by
            obtain ⟨f, hf, hle⟩ := hlast y (List.mem_cons_of_mem _ hy)
            rcases List.mem_cons.1 hf with rfl | hf
            · exact absurd (hx y hy) (by rw [h]; exact not_lt.2 hle)
            · exact ⟨f, hf, hle⟩)
        refine ⟨by rw [List.map_cons, hmap, h], fun row => ?_⟩
        unfold accepts at hacc ⊢
        rw [List.all_cons, List.all_cons, hacc]
      · rw [if_neg h]
        -- the field has no filter: those that are left are on later fields
        have hmem : cur.field ∈ xs :=
          (List.mem_cons.1 (hsub cur List.mem_cons_self)).resolve_left (Ne.symm h)
        obtain ⟨hmap, hacc⟩ := ih hxs htemp (fun f hf => by
            rcases List.mem_cons.1 hf with rfl | hf'
            · exact hmem
            · rcases List.mem_cons.1 (hsub f hf) with heq | hin
              · exact absurd ((hx _ hmem).trans (hcur f hf')) (by rw [heq]; exact lt_irrefl _)
              · exact hin)
          (fun y hy => hlast y (List.mem_cons_of_mem _ hy))
        refine ⟨by rw [List.map_cons, hmap]; rfl, fun row => ?_⟩
        rw [← hacc]
        rfl

lemma mem_take_finRange {k : ℕ} {x : Fin n} : x ∈ (List.finRange n).take k ↔ (x : ℕ) < k := by
  rw [List.mem_take_iff_getElem]
  constructor
  · rintro ⟨i, hi, rfl⟩
    rw [List.getElem_finRange]
    exact lt_of_lt_of_le hi (min_le_left _ _)
  · intro h
    exact ⟨x, by simp [h], by simp⟩

/-- The key filters are on the first fields of the record, one on each, and accept the same rows. -/
theorem extractKeyFilter_spec (filters : List (FieldFilter types))
    (hone : (filters.map FieldFilter.field).Nodup) :
    (∃ k, (extractKeyFilter filters).map FieldFilter.field = (List.finRange n).take k) ∧
      ∀ row, accepts (extractKeyFilter filters) row = accepts filters row := by
  have hperm := List.perm_insertionSort (fun a b : FieldFilter types => a.field ≤ b.field) filters
  have haccepts : ∀ row, accepts (filters.insertionSort fun a b => a.field ≤ b.field) row =
      accepts filters row := fun row => hperm.all_eq
  have : Std.Total fun a b : FieldFilter types => a.field ≤ b.field :=
    ⟨fun a b => le_total a.field b.field⟩
  have : IsTrans (FieldFilter types) fun a b => a.field ≤ b.field :=
    ⟨fun _ _ _ => le_trans⟩
  have hsorted := List.pairwise_insertionSort
    (fun a b : FieldFilter types => a.field ≤ b.field) filters
  have hnodup : ((filters.insertionSort fun a b => a.field ≤ b.field).map
      FieldFilter.field).Nodup := (hperm.map FieldFilter.field).nodup_iff.2 hone
  unfold extractKeyFilter
  set temp := filters.insertionSort fun a b => a.field ≤ b.field with htemp
  have hstrict : temp.Pairwise fun a b => a.field < b.field := by
    have hne : temp.Pairwise fun a b => a.field ≠ b.field := List.pairwise_map.1 hnodup
    exact (hsorted.and hne).imp fun h => lt_of_le_of_ne h.1 h.2
  cases hlast : temp.getLast? with
  | none =>
    have h := List.getLast?_eq_none_iff.1 hlast
    simp only [hlast]
    refine ⟨⟨0, rfl⟩, fun row => ?_⟩
    rw [← haccepts, h]
  | some tos =>
    obtain ⟨ys, hys⟩ := List.getLast?_eq_some_iff.1 hlast
    have hle : ∀ f ∈ temp, f.field ≤ tos.field := by
      intro f hf
      rw [hys] at hf hsorted
      rcases List.mem_append.1 hf with hf | hf
      · exact (List.pairwise_append.1 hsorted).2.2 f hf tos List.mem_cons_self
      · rw [List.mem_singleton.1 hf]
    have hfields := (List.pairwise_lt_finRange n).sublist
      (List.take_sublist ((tos.field : ℕ) + 1) _)
    have hspec := fillWild_spec hfields hstrict
      (fun f hf => mem_take_finRange.2 (Nat.lt_succ_of_le (hle f hf)))
      (fun x hx => ⟨tos, by rw [hys]; simp, Nat.le_of_lt_succ (mem_take_finRange.1 hx)⟩)
    simp only [hlast]
    exact ⟨⟨_, hspec.1⟩, fun row => (hspec.2 row).trans (haccepts row)⟩

end RowFilter

end HpccPlatform
