import HpccPlatform.KeyedSearch.Cursor

/-!
# What the cursor learns from a row

`setRowForward` walks over the fields of a row and, when a filter has no more ranges, back again.
`verdict` is the same walk by recursion over the key filters, and says which place the search has to
continue at.  For each verdict but one, `compareNext` is negative for the rows up to the current
one, and is not negative for the later rows that the filters accept.

The exception is the step from the end of a range to the next range of an earlier field, where the
cursor counts one matched field too few.  `Carries` describes the rows for which that happens.
-/

namespace HpccPlatform

universe u

variable {α : Type u} {n : ℕ} {types : Fin n → RtlTypeInfo α}

/-- What comes after a row: it matches, the search continues at a range of a field, or at the rows
with a greater value of a field; it should continue at the next range of an earlier field; or there
is nothing more to find. -/
inductive Verdict where
  | matched
  | unmatched (field range : ℕ)
  | greater (field : ℕ)
  | carried (field range : ℕ)
  | exhausted
  deriving DecidableEq

/-- The verdict on a row from that on the later fields, when this field is matched in range
`matchRange`. -/
def Verdict.extend (filter : FieldFilter types) (row : Fin n → α) (matchRange : ℕ) :
    Verdict → Verdict
  | matched => matched
  | unmatched field range => unmatched (field + 1) range
  | greater field => greater (field + 1)
  | carried field range => carried (field + 1) range
  | exhausted =>
    match filter.values.compareHighest (row filter.field) matchRange with
    | none => exhausted
    | some c =>
      if c < 0 then greater 0
      else if matchRange + 1 < filter.values.numRanges then carried 0 (matchRange + 1)
      else exhausted

/-- The verdict of the filters on a row. -/
def verdict (row : Fin n → α) : List (FieldFilter types) → Verdict
  | [] => .matched
  | filter :: filters =>
    let found := filter.values.findForwardMatchRange (row filter.field)
    if found.1 then Verdict.extend filter row found.2 (verdict row filters)
    else if filter.values.numRanges ≤ found.2 then .exhausted
    else .unmatched 0 found.2

namespace RowCursor

/-! ## The verdict and the code -/

/-- The cursor that `setRowForward` leaves behind for a verdict. -/
def after (filters : List (FieldFilter types)) (cursor : RowCursor n α) :
    Verdict → Bool × RowCursor n α
  | .matched => (true, { cursor with numMatched := filters.length })
  | .unmatched field range =>
    (false, { cursor with numMatched := field, nextUnmatchedRange := some range })
  | .greater field => (false, { cursor with numMatched := field, nextUnmatchedRange := none })
  | .carried field range =>
    (false, { cursor with
      numMatched := (field + (2 ^ 32 - 1)) % 2 ^ 32
      nextUnmatchedRange := some range })
  | .exhausted => (false, { cursor with eos := true })

/-- The verdict on a row whose first fields are matched in the given ranges. -/
def extendAll (row : Fin n → α) : List (FieldFilter types) → List ℕ → Verdict → Verdict
  | filter :: filters, m :: ms, v => Verdict.extend filter row m (extendAll row filters ms v)
  | _, _, v => v

lemma extendAll_append (row : Fin n → α) (filter : FieldFilter types) (m : ℕ) (v : Verdict)
    {filters : List (FieldFilter types)} {ms : List ℕ} (h : filters.length = ms.length) :
    extendAll row (filters ++ [filter]) (ms ++ [m]) v =
      extendAll row filters ms (Verdict.extend filter row m v) := by
  induction filters generalizing ms with
  | nil =>
    obtain rfl := List.eq_nil_of_length_eq_zero h.symm
    rfl
  | cons f fs ih =>
    cases ms with
    | nil => cases h
    | cons k ks =>
      rw [List.cons_append, List.cons_append, extendAll, extendAll, ih (by simpa using h)]

/-- The field of a verdict is counted from the first of the matched fields. -/
lemma extendAll_of_ne (row : Fin n → α) {filters : List (FieldFilter types)} {ms : List ℕ}
    (h : filters.length = ms.length) :
    extendAll row filters ms .matched = .matched ∧
      (∀ k j, extendAll row filters ms (.unmatched k j) = .unmatched (k + filters.length) j) ∧
      (∀ k, extendAll row filters ms (.greater k) = .greater (k + filters.length)) ∧
      ∀ k j, extendAll row filters ms (.carried k j) = .carried (k + filters.length) j := by
  induction filters generalizing ms with
  | nil => exact ⟨rfl, fun _ _ => rfl, fun _ => rfl, fun _ _ => rfl⟩
  | cons f fs ih =>
    cases ms with
    | nil => cases h
    | cons k ks =>
      obtain ⟨h₁, h₂, h₃, h₄⟩ := @ih ks (by simpa using h)
      refine ⟨?_, fun k j => ?_, fun k => ?_, fun k j => ?_⟩
      · rw [extendAll, h₁]
        rfl
      · rw [extendAll, h₂]
        rfl
      · rw [extendAll, h₃]
        rfl
      · rw [extendAll, h₄]
        rfl

lemma extend_ne_matched (filter : FieldFilter types) (row : Fin n → α) (m : ℕ) {v : Verdict}
    (h : v ≠ .matched) : Verdict.extend filter row m v ≠ .matched := by
  cases v with
  | matched => exact absurd rfl h
  | exhausted =>
    rw [Verdict.extend]
    split
    · exact Verdict.noConfusion
    · split_ifs <;> exact Verdict.noConfusion
  | _ => exact Verdict.noConfusion

lemma extendAll_exhausted_ne (row : Fin n → α) (filters : List (FieldFilter types))
    (ms : List ℕ) : extendAll row filters ms .exhausted ≠ .matched := by
  induction filters generalizing ms with
  | nil =>
    unfold extendAll
    exact Verdict.noConfusion
  | cons f fs ih =>
    cases ms with
    | nil =>
      unfold extendAll
      exact Verdict.noConfusion
    | cons m ms => exact extend_ne_matched f row m (ih ms)

lemma after_fst (filters : List (FieldFilter types)) (cursor : RowCursor n α) (v : Verdict) :
    (after filters cursor v).1 = decide (v = .matched) := by
  cases v <;> rfl

/-- The walk back over the matched fields. -/
lemma findNextRange_eq (row : Fin n → α) {pre : List (FieldFilter types)} {ms : List ℕ}
    (hlen : pre.length = ms.length)
    (hms : ∀ p ∈ pre.zip ms, p.2 < p.1.values.numRanges)
    (suf : List (FieldFilter types)) (rest : List ℕ) {cursor : RowCursor n α}
    (hcursor : cursor.matchedRanges = ms ++ rest) :
    findNextRange (pre ++ suf) row pre.length cursor =
      some (after (pre ++ suf) cursor (extendAll row pre ms .exhausted)).2 := by
  induction pre using List.reverseRecOn generalizing ms suf rest with
  | nil =>
    obtain rfl := List.eq_nil_of_length_eq_zero hlen.symm
    rfl
  | append_singleton pre f ih =>
    obtain ⟨ms, m, rfl⟩ : ∃ ms' m, ms = ms' ++ [m] := by
      rcases List.eq_nil_or_concat ms with rfl | ⟨ms', m, rfl⟩
      · simp at hlen
      · exact ⟨ms', m, by simp⟩
    have hlen' : pre.length = ms.length := by simpa using hlen
    rw [List.zip_append hlen'] at hms
    have hm : m < f.values.numRanges := hms (f, m) (by simp)
    obtain ⟨c, hc⟩ := FieldValues.exists_compareHighest hm (row f.field)
    have hf : ((pre ++ [f]) ++ suf)[pre.length]? = some f := by simp
    have hr : cursor.matchedRanges[pre.length]? = some m := by
      rw [hcursor, hlen']
      simp
    rw [extendAll_append row f m _ hlen', List.length_append, List.length_singleton, findNextRange,
      hf, hr]
    simp only [hc, Option.bind_some, Verdict.extend]
    obtain ⟨-, -, hg, hcar⟩ := extendAll_of_ne row hlen'
    by_cases hneg : c < 0
    · rw [if_pos hneg, if_pos hneg, hg]
      simp [after]
    · rw [if_neg hneg, if_neg hneg]
      by_cases hnext : m + 1 < f.values.numRanges
      · rw [if_pos hnext, if_pos hnext, hcar]
        simp [after]
      · rw [if_neg hnext, if_neg hnext]
        have := ih hlen' (fun p hp => hms p (List.mem_append_left _ hp)) ([f] ++ suf) ([m] ++ rest)
          (by rw [hcursor, List.append_assoc])
        rw [← List.append_assoc] at this
        exact this

/-- The walk over the fields, from the field at which it has arrived. -/
lemma matchFields_eq (horder : ∀ i, TotalOrder (types i).compare) (row : Fin n → α)
    {pre suf : List (FieldFilter types)} {ms rest : List ℕ} (hlen : pre.length = ms.length)
    (hms : ∀ p ∈ pre.zip ms, p.2 < p.1.values.numRanges) {cursor : RowCursor n α}
    (hcursor : cursor.matchedRanges = ms ++ rest) (hrest : rest.length = suf.length) :
    ∃ ranges, ranges.length = (pre ++ suf).length ∧
      matchFields (pre ++ suf) row suf pre.length cursor =
        some (after (pre ++ suf) { cursor with matchedRanges := ranges }
          (extendAll row pre ms (verdict row suf))) := by
  induction suf generalizing pre ms rest cursor with
  | nil =>
    refine ⟨cursor.matchedRanges, by rw [hcursor]; simp [hlen, hrest], ?_⟩
    rw [verdict, (extendAll_of_ne row hlen).1]
    simp [matchFields, after]
  | cons f fs ih =>
    obtain ⟨k, ks, rfl⟩ := List.exists_cons_of_length_eq_add_one hrest
    have hranges : cursor.matchedRanges.length = (pre ++ f :: fs).length := by
      rw [hcursor, List.length_append, List.length_append, hlen, hrest]
    rw [matchFields, verdict]
    rcases hfound : f.values.findForwardMatchRange (row f.field) with ⟨b, m⟩
    cases b with
    | true =>
      have hm := FieldValues.lt_numRanges_of_found (horder f.field) hfound
      obtain ⟨ranges, hl, heq⟩ := @ih (pre ++ [f]) (ms ++ [m]) ks (by simp [hlen])
        (by
          rw [List.zip_append hlen]
          intro p hp
          rcases List.mem_append.1 hp with hp | hp
          · exact hms p hp
          · obtain rfl : p = (f, m) := by simpa using hp
            exact hm)
        { cursor with matchedRanges := cursor.matchedRanges.set pre.length m }
        (by
          change cursor.matchedRanges.set pre.length m = ms ++ [m] ++ ks
          rw [hcursor, hlen]
          simp)
        (by simpa using hrest)
      rw [List.append_assoc, List.singleton_append] at hl heq
      refine ⟨ranges, hl, ?_⟩
      rw [extendAll_append row f m _ hlen, List.length_append, List.length_singleton] at heq
      exact heq
    | false =>
      refine ⟨cursor.matchedRanges, hranges, ?_⟩
      simp only [Bool.false_eq_true, if_false]
      by_cases hle : f.values.numRanges ≤ m
      · rw [if_pos hle, if_pos hle, findNextRange_eq row hlen hms (f :: fs) (k :: ks) hcursor,
          Option.map_some]
        refine congrArg some (Prod.ext ?_ rfl)
        rw [after_fst, decide_eq_false (extendAll_exhausted_ne row pre ms)]
      · rw [if_neg hle, if_neg hle, (extendAll_of_ne row hlen).2.1, after, Nat.zero_add]

/-- `setRowForward` does what the verdict says. -/
theorem setRowForward_eq (horder : ∀ i, TotalOrder (types i).compare)
    (filters : List (FieldFilter types)) (cursor : RowCursor n α) (row : Fin n → α)
    (hranges : cursor.matchedRanges.length = filters.length) :
    ∃ ranges, ranges.length = filters.length ∧ cursor.setRowForward filters row =
      some (after filters { cursor with currentRow := some row, matchedRanges := ranges }
        (verdict row filters)) :=
  @matchFields_eq α n types horder row [] filters [] cursor.matchedRanges rfl (by simp)
    { cursor with currentRow := some row } rfl hranges

end RowCursor

/-! ## The rows that the code handles wrongly -/

/-- The value of the row is behind all the ranges of the filter. -/
def BehindRanges (row : Fin n → α) (f : FieldFilter types) : Prop :=
  f.accepts row = false ∧
    f.values.numRanges ≤ (f.values.findForwardMatchRange (row f.field)).2

/-- The value of the row is the last one of a range of the filter. -/
def EndsRange (row : Fin n → α) (f : FieldFilter types) : Prop :=
  f.accepts row = true ∧
    ∃ c ∈ f.values.compareHighest (row f.field)
      (f.values.findForwardMatchRange (row f.field)).2, 0 ≤ c

/-- The range of the filter in which the value of the row lies is not its last range. -/
def BeforeLast (row : Fin n → α) (f : FieldFilter types) : Prop :=
  (f.values.findForwardMatchRange (row f.field)).2 + 1 < f.values.numRanges

/-- There is nothing to find from this row on: the row is at the end of the last range of each of
the first fields, and behind the ranges of the next field. -/
def Exhausts (row : Fin n → α) : List (FieldFilter types) → Prop
  | [] => False
  | f :: fs => BehindRanges row f ∨ ((EndsRange row f ∧ ¬ BeforeLast row f) ∧ Exhausts row fs)

/-- The search has to go on with the next range of some field: the row matches up to that field, is
at the end of a range of it, and exhausts the later fields. -/
def Carries (row : Fin n → α) : List (FieldFilter types) → Prop
  | [] => False
  | f :: fs => ((EndsRange row f ∧ BeforeLast row f) ∧ Exhausts row fs) ∨
    (f.accepts row = true ∧ Carries row fs)

instance (row : Fin n → α) (f : FieldFilter types) : Decidable (BehindRanges row f) :=
  inferInstanceAs (Decidable (_ ∧ _))

instance (row : Fin n → α) (f : FieldFilter types) : Decidable (EndsRange row f) :=
  inferInstanceAs (Decidable (_ ∧ _))

instance (row : Fin n → α) (f : FieldFilter types) : Decidable (BeforeLast row f) :=
  inferInstanceAs (Decidable (_ < _))

instance decidableExhausts (row : Fin n → α) :
    (filters : List (FieldFilter types)) → Decidable (Exhausts row filters)
  | [] => isFalse id
  | f :: fs =>
    have := decidableExhausts row fs
    inferInstanceAs (Decidable (BehindRanges row f ∨ _))

instance decidableCarries (row : Fin n → α) :
    (filters : List (FieldFilter types)) → Decidable (Carries row filters)
  | [] => isFalse id
  | f :: fs =>
    have := decidableCarries row fs
    inferInstanceAs (Decidable (_ ∨ (f.accepts row = true ∧ _)))

/-- No filter without ranges comes first, or directly behind a filter that has an inclusive lower
bound at the value of the row. -/
structure AvoidsEmpty (row : Fin n → α) (filters : List (FieldFilter types)) : Prop where
  head : ∀ f ∈ filters.head?, 0 < f.values.numRanges
  chain : filters.IsChain fun f g => g.values.numRanges = 0 →
    ∀ range < f.values.numRanges, f.values.compareLowest (row f.field) range ≠ some 0

/-- Filters that all have ranges. -/
lemma avoidsEmpty_of_forall_pos {filters : List (FieldFilter types)}
    (h : ∀ f ∈ filters, 0 < f.values.numRanges) (row : Fin n → α) : AvoidsEmpty row filters := by
  refine ⟨fun f hf => h f (List.mem_of_mem_head? hf), ?_⟩
  refine (List.Pairwise.isChain (List.pairwise_of_forall_mem_list fun f _ g hg hempty => ?_))
  exact absurd (h g hg) (by omega)

section Carries

variable (horder : ∀ i, TotalOrder (types i).compare) (row : Fin n → α)

include horder

lemma accepts_eq_of_found {f : FieldFilter types} {b : Bool} {m : ℕ}
    (hfound : f.values.findForwardMatchRange (row f.field) = (b, m)) : f.accepts row = b := by
  have := FieldValues.findForwardMatchRange_fst (horder f.field) f.values (row f.field)
  rw [hfound] at this
  exact this.symm

/-- Going back to a matched field. -/
lemma extend_exhausted {f : FieldFilter types} {m : ℕ}
    (hfound : f.values.findForwardMatchRange (row f.field) = (true, m)) :
    (Verdict.extend f row m .exhausted = .greater 0 ∧ ¬ EndsRange row f) ∨
    (Verdict.extend f row m .exhausted = .carried 0 (m + 1) ∧
      EndsRange row f ∧ BeforeLast row f) ∨
    (Verdict.extend f row m .exhausted = .exhausted ∧ EndsRange row f ∧ ¬ BeforeLast row f) := by
  obtain ⟨c, hc⟩ := FieldValues.exists_compareHighest
    (FieldValues.lt_numRanges_of_found (horder f.field) hfound) (row f.field)
  have hends : EndsRange row f ↔ 0 ≤ c := by
    unfold EndsRange
    simp [accepts_eq_of_found horder row hfound, hfound, hc]
  have hlast : BeforeLast row f ↔ m + 1 < f.values.numRanges := by
    unfold BeforeLast
    rw [hfound]
  rw [Verdict.extend, hc, hends, hlast]
  dsimp only
  by_cases hneg : c < 0
  · rw [if_pos hneg]
    exact Or.inl ⟨rfl, not_le.2 hneg⟩
  · rw [if_neg hneg]
    by_cases hnext : m + 1 < f.values.numRanges
    · rw [if_pos hnext]
      exact Or.inr (Or.inl ⟨rfl, not_lt.1 hneg, hnext⟩)
    · rw [if_neg hnext]
      exact Or.inr (Or.inr ⟨rfl, not_lt.1 hneg, hnext⟩)

lemma verdict_exhausted_iff (filters : List (FieldFilter types)) :
    verdict row filters = .exhausted ↔ Exhausts row filters := by
  induction filters with
  | nil => simp [verdict, Exhausts]
  | cons f fs ih =>
    rw [verdict, Exhausts, ← ih]
    rcases hfound : f.values.findForwardMatchRange (row f.field) with ⟨b, m⟩
    have hacc := accepts_eq_of_found horder row hfound
    cases b with
    | true =>
      have hbehind : ¬ BehindRanges row f := fun h => Bool.noConfusion (hacc.symm.trans h.1)
      simp only [if_true, hbehind, false_or]
      cases hv : verdict row fs with
      | exhausted =>
        rcases extend_exhausted horder row hfound with ⟨h, h'⟩ | ⟨h, h'⟩ | ⟨h, h'⟩
        · simp [h, h']
        · simp [h, h']
        · simp [h, h']
      | _ => simp [Verdict.extend]
    | false =>
      have hends : ¬ EndsRange row f := fun h => Bool.noConfusion (hacc.symm.trans h.1)
      have hbehind : BehindRanges row f ↔ f.values.numRanges ≤ m := by
        unfold BehindRanges
        simp [hacc, hfound]
      simp only [Bool.false_eq_true, if_false, hends, false_and, or_false, hbehind]
      split_ifs <;> simp [*]

lemma verdict_carried_iff (filters : List (FieldFilter types)) :
    (∃ field range, verdict row filters = .carried field range) ↔ Carries row filters := by
  induction filters with
  | nil => simp [verdict, Carries]
  | cons f fs ih =>
    rw [verdict, Carries, ← ih, ← verdict_exhausted_iff horder]
    rcases hfound : f.values.findForwardMatchRange (row f.field) with ⟨b, m⟩
    have hacc := accepts_eq_of_found horder row hfound
    cases b with
    | true =>
      simp only [if_true, hacc, true_and]
      cases hv : verdict row fs with
      | exhausted =>
        rcases extend_exhausted horder row hfound with ⟨h, h'⟩ | ⟨h, h'⟩ | ⟨h, h'⟩
        · simp [h, h']
        · simp [h, h']
        · simp [h, h']
      | carried g j => simp [Verdict.extend]
      | _ => simp [Verdict.extend]
    | false =>
      have hends : ¬ EndsRange row f := fun h => Bool.noConfusion (hacc.symm.trans h.1)
      simp only [Bool.false_eq_true, if_false, hacc, hends, false_and, or_false]
      split_ifs <;> simp

end Carries

/-! ## The verdict and the rows that follow -/

/-- The row `x` comes before the row `y`, or neither comes before the other, in the order of the
fields of the filters. -/
def KeyLE (filters : List (FieldFilter types)) (x y : Fin n → α) : Prop :=
  compareFields types x y (filters.map FieldFilter.field) ≤ 0

lemma keyLE_cons_iff {f : FieldFilter types} {fs : List (FieldFilter types)} {x y : Fin n → α} :
    KeyLE (f :: fs) x y ↔ f.compareRow x y < 0 ∨ (f.compareRow x y = 0 ∧ KeyLE fs x y) := by
  unfold KeyLE FieldFilter.compareRow
  rw [List.map_cons, compareFields]
  by_cases h : (types f.field).compare (x f.field) (y f.field) = 0
  · simp [h]
  · simp only [ne_eq, h, not_false_eq_true, if_true, false_and, or_false]
    omega

lemma accepts_cons (f : FieldFilter types) (fs : List (FieldFilter types)) (x : Fin n → α) :
    RowFilter.accepts (f :: fs) x = (f.accepts x && RowFilter.accepts fs x) := rfl

section Succ

variable {r x : Fin n → α}

lemma compareRange_succ (f : FieldFilter types) (fs : List (FieldFilter types)) (k j : ℕ) :
    RowCursor.compareRange x (some r) (f :: fs) (k + 1) j =
      if f.compareRow x r ≠ 0 then some (f.compareRow x r)
      else RowCursor.compareRange x (some r) fs k j := by
  unfold RowCursor.compareRange
  rw [RowCursor.compareMatched, Option.bind_some]
  by_cases h : f.compareRow x r = 0
  · simp [h]
  · simp [h]

lemma compareGreater_succ (f : FieldFilter types) (fs : List (FieldFilter types)) (k : ℕ) :
    RowCursor.compareGreater x (some r) (f :: fs) (k + 1) =
      if f.compareRow x r ≠ 0 then some (f.compareRow x r)
      else RowCursor.compareGreater x (some r) fs k := by
  unfold RowCursor.compareGreater
  rw [RowCursor.compareMatched, Option.bind_some]
  by_cases h : f.compareRow x r = 0
  · simp [h]
  · simp [h]

end Succ

section Sound

variable (horder : ∀ i, TotalOrder (types i).compare) {r x : Fin n → α}

include horder

lemma verdict_matched_iff (r : Fin n → α) (filters : List (FieldFilter types)) :
    verdict r filters = .matched ↔ RowFilter.accepts filters r = true := by
  induction filters with
  | nil => simp [verdict, RowFilter.accepts]
  | cons f fs ih =>
    rw [verdict, accepts_cons, Bool.and_eq_true, ← ih]
    rcases hfound : f.values.findForwardMatchRange (r f.field) with ⟨b, m⟩
    have hacc := accepts_eq_of_found horder r hfound
    cases b with
    | true =>
      simp only [if_true, hacc, true_and]
      refine ⟨fun h => ?_, fun h => by rw [h]; rfl⟩
      by_contra hne
      exact RowCursor.extend_ne_matched f r m hne h
    | false =>
      simp only [Bool.false_eq_true, if_false, hacc, false_and, iff_false]
      split_ifs <;> simp

/-- From a row that exhausts the filters on, no row is accepted. -/
lemma accepts_eq_false_of_exhausts {filters : List (FieldFilter types)}
    (hex : Exhausts r filters) (hle : KeyLE filters r x) : RowFilter.accepts filters x = false := by
  induction filters with
  | nil => exact hex.elim
  | cons f fs ih =>
    rw [accepts_cons, Bool.and_eq_false_iff]
    rw [keyLE_cons_iff] at hle
    rcases hfound : f.values.findForwardMatchRange (r f.field) with ⟨b, m⟩
    have hacc := accepts_eq_of_found horder r hfound
    rcases hex with ⟨hb, hj⟩ | ⟨⟨⟨ha, c, hc, hnonneg⟩, hlast⟩, hex⟩
    · obtain rfl : b = false := hacc.symm.trans hb
      rw [hfound] at hj
      left
      refine FieldValues.accepts_eq_false_of_notFound (horder f.field) hfound ?_
        fun h => absurd hj (not_le.2 h)
      exact hle.elim le_of_lt fun h => h.1.le
    · obtain rfl : b = true := hacc.symm.trans ha
      unfold BeforeLast at hlast
      rw [hfound] at hlast hc
      rcases hle with hlt | ⟨-, hle⟩
      · left
        exact FieldValues.accepts_eq_false_of_last (horder f.field) hfound (not_lt.1 hlast) hc
          hnonneg hlt
      · right
        exact ih hex hle

/-- A row before the lowest values of the filters is not accepted, if it is not accepted by the first
filter when it is before the given range of it. -/
lemma compareLowests_spec {filters : List (FieldFilter types)} {range : ℕ}
    (hrange : ∀ f ∈ filters.head?, range < f.values.numRanges)
    (hchain : filters.IsChain fun f g => g.values.numRanges = 0 →
      ∀ range < f.values.numRanges, f.values.compareLowest (x f.field) range ≠ some 0) :
    ∃ c, RowCursor.compareLowests x filters range = some c ∧
      (c < 0 → (∀ f ∈ filters.head?, ∀ d, f.values.compareLowest (x f.field) range = some d →
        d < 0 → f.accepts x = false) → RowFilter.accepts filters x = false) ∧
      ∀ f ∈ filters.head?, ∀ d, f.values.compareLowest (x f.field) range = some d →
        d < 0 → c < 0 := by
  induction filters generalizing range with
  | nil => exact ⟨0, rfl, fun h => absurd h (lt_irrefl 0), fun f hf => by cases hf⟩
  | cons f fs ih =>
    have hlt := hrange f rfl
    obtain ⟨c, hc⟩ := FieldValues.exists_compareLowest hlt (x f.field)
    rw [RowCursor.compareLowests, if_pos hlt, hc, Option.bind_some]
    by_cases hzero : c = 0
    · -- the later fields are compared with their first ranges
      subst hzero
      obtain ⟨d, hd, hacc, -⟩ := @ih 0
        (fun g hg => Nat.pos_of_ne_zero fun hempty => by
          obtain ⟨gs, rfl⟩ : ∃ gs, fs = g :: gs := by
            cases fs with
            | nil => cases hg
            | cons g' gs => exact ⟨gs, by cases hg; rfl⟩
          exact (List.isChain_cons_cons.1 hchain).1 hempty range hlt hc)
        hchain.tail
      refine ⟨d, by simpa using hd, fun hneg _ => ?_, ?_⟩
      · rw [accepts_cons, hacc hneg (fun g _ e he hneg =>
          FieldValues.accepts_eq_false_of_lowest (horder g.field) he hneg), Bool.and_false]
      · rintro g hg e he hneg
        cases hg
        rw [hc] at he
        cases he
        exact absurd hneg (lt_irrefl 0)
    · refine ⟨c, by rw [if_pos hzero], fun hneg hfirst => ?_, ?_⟩
      · rw [accepts_cons, hfirst f rfl c hc hneg, Bool.false_and]
      · rintro g hg e he hneg
        cases hg
        rw [hc] at he
        cases he
        exact hneg

/-- The place at which the search continues is behind the rows up to `r`, and none of the later rows
before that place is accepted. -/
def Continues (filters : List (FieldFilter types)) (r x : Fin n → α) (place : Option ℤ) : Prop :=
  ∃ c, place = some c ∧ (KeyLE filters x r → c < 0) ∧
    (KeyLE filters r x → c < 0 → RowFilter.accepts filters x = false)

/-- Comparing one more matched field. -/
lemma Continues.cons {f : FieldFilter types} {fs : List (FieldFilter types)} {place : Option ℤ}
    (h : Continues fs r x place) :
    Continues (f :: fs) r x
      (if f.compareRow x r ≠ 0 then some (f.compareRow x r) else place) := by
  have hswap : f.compareRow r x < 0 ↔ 0 < f.compareRow x r := ((horder f.field).swap _ _).symm
  have hswap' : f.compareRow x r < 0 ↔ 0 < f.compareRow r x := ((horder f.field).swap _ _).symm
  obtain ⟨c, hc, hbefore, hafter⟩ := h
  by_cases hzero : f.compareRow x r = 0
  · refine ⟨c, by rw [if_neg (not_not.2 hzero), hc], fun hle => ?_, fun hle hneg => ?_⟩
    · rcases keyLE_cons_iff.1 hle with hlt | ⟨-, hle⟩
      · omega
      · exact hbefore hle
    · rcases keyLE_cons_iff.1 hle with hlt | ⟨-, hle⟩
      · omega
      · rw [accepts_cons, hafter hle hneg, Bool.and_false]
  · refine ⟨f.compareRow x r, if_pos hzero, fun hle => ?_, fun hle hneg => ?_⟩
    · rcases keyLE_cons_iff.1 hle with hlt | ⟨heq, -⟩
      · exact hlt
      · exact absurd heq hzero
    · rcases keyLE_cons_iff.1 hle with hlt | ⟨heq, -⟩ <;> omega

lemma continues_of_unmatched {filters : List (FieldFilter types)} {k j : ℕ}
    (hv : verdict r filters = .unmatched k j)
    (hchain : filters.IsChain fun f g => g.values.numRanges = 0 →
      ∀ range < f.values.numRanges, f.values.compareLowest (x f.field) range ≠ some 0) :
    Continues filters r x (RowCursor.compareRange x (some r) filters k j) := by
  induction filters generalizing k with
  | nil => cases hv
  | cons f fs ih =>
    rw [verdict] at hv
    rcases hfound : f.values.findForwardMatchRange (r f.field) with ⟨b, m⟩
    rw [hfound] at hv
    cases b with
    | true =>
      dsimp only at hv
      rw [if_pos rfl] at hv
      cases hvs : verdict r fs with
      | unmatched k' j' =>
        rw [hvs] at hv
        cases hv
        rw [compareRange_succ]
        exact (ih hvs hchain.tail).cons horder
      | exhausted =>
        rw [hvs] at hv
        rcases extend_exhausted horder r hfound with ⟨h, -⟩ | ⟨h, -⟩ | ⟨h, -⟩ <;>
          rw [h] at hv <;> cases hv
      | _ =>
        rw [hvs] at hv
        cases hv
    | false =>
      simp only [Bool.false_eq_true, if_false] at hv
      split_ifs at hv with hle
      cases hv
      have hlt := not_le.1 hle
      obtain ⟨c, hc, hacc, hneg⟩ := @compareLowests_spec α n types horder x (f :: fs)
        j (fun g hg => by cases hg; exact hlt) hchain
      obtain ⟨d, hd⟩ := FieldValues.exists_compareLowest hlt (x f.field)
      obtain ⟨e, he⟩ := FieldValues.exists_compareLowest hlt (r f.field)
      refine ⟨c, hc, fun hxr => ?_, fun hrx hcneg => hacc hcneg ?_⟩
      · have hle : f.compareRow x r ≤ 0 := (keyLE_cons_iff.1 hxr).elim le_of_lt fun h => h.1.le
        exact hneg f rfl d hd (FieldValues.compareLowest_neg_of_le (horder f.field) he
          (FieldValues.compareLowest_neg_of_notFound (horder f.field) hfound hlt he) hle hd)
      · rintro g hg e he heneg
        cases hg
        exact FieldValues.accepts_eq_false_of_notFound (horder f.field) hfound
          ((keyLE_cons_iff.1 hrx).elim le_of_lt fun h => h.1.le) fun _ => ⟨e, he, heneg⟩

lemma continues_of_greater {filters : List (FieldFilter types)} {k : ℕ}
    (hv : verdict r filters = .greater k) :
    k < filters.length ∧
      Continues filters r x (RowCursor.compareGreater x (some r) filters k) := by
  induction filters generalizing k with
  | nil => cases hv
  | cons f fs ih =>
    rw [verdict] at hv
    rcases hfound : f.values.findForwardMatchRange (r f.field) with ⟨b, m⟩
    rw [hfound] at hv
    cases b with
    | true =>
      dsimp only at hv
      rw [if_pos rfl] at hv
      cases hvs : verdict r fs with
      | greater k' =>
        rw [hvs] at hv
        cases hv
        obtain ⟨hlt, hcont⟩ := ih hvs
        rw [compareGreater_succ]
        exact ⟨Nat.succ_lt_succ hlt, hcont.cons horder⟩
      | exhausted =>
        rw [hvs] at hv
        have hk : k = 0 := by
          rcases extend_exhausted horder r hfound with ⟨h, -⟩ | ⟨h, -⟩ | ⟨h, -⟩ <;>
            rw [h] at hv <;> cases hv
          rfl
        subst hk
        -- the rows that start like `r` in this field are all behind it
        have hlater : Continues fs r x (some (-1)) := by
          refine ⟨-1, rfl, fun _ => by omega, fun hle _ => ?_⟩
          exact accepts_eq_false_of_exhausts horder ((verdict_exhausted_iff horder r fs).1 hvs) hle
        refine ⟨Nat.succ_pos _, ?_⟩
        have heq : RowCursor.compareGreater x (some r) (f :: fs) 0 =
            if f.compareRow x r ≠ 0 then some (f.compareRow x r) else some (-1) := by
          unfold RowCursor.compareGreater
          rw [RowCursor.compareMatched, Option.bind_some]
          by_cases h : f.compareRow x r = 0
          · simp [h, RowCursor.compareMatched]
          · simp [h]
        rw [heq]
        exact hlater.cons horder
      | _ =>
        rw [hvs] at hv
        cases hv
    | false =>
      simp only [Bool.false_eq_true, if_false] at hv
      split_ifs at hv

end Sound

end HpccPlatform
