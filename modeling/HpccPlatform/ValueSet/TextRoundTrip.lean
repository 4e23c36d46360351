import HpccPlatform.ValueSet.FilterText
import HpccPlatform.ValueSet.History

/-!
# Reading the text of a value set

The ranges that `describe` writes are read back one by one, and each is added to the ranges before
it; the set that is read is the union of its ranges, so that it has the values of the set that was
written.

There are two exceptions.  The parser takes a bound with an empty text for one that is not there,
even if the text is the constant of an empty string.  And the upper bound of a range of one value is
copied as a string of C, up to the first character 0.
-/

namespace HpccPlatform

namespace FilterText

open ValueSet ValueTransition Scale CutList

/-! ## Characters -/

theorem octalDigit_ne (n : ℕ) : octalDigit n ≠ quoteChar ∧ octalDigit n ≠ escapeChar := by
  unfold octalDigit quoteChar escapeChar
  have hn : n % 8 < 8 := Nat.mod_lt _ (by norm_num)
  interval_cases n % 8 <;> decide

theorem scanQuoted_plain {c : Char} (hquote : c ≠ quoteChar) (hescape : c ≠ escapeChar)
    (filter : List Char) :
    scanQuoted (c :: filter) = (scanQuoted filter).map fun p => (c :: p.1, p.2) := by
  rw [scanQuoted.eq_def]
  simp only
  rw [if_neg hquote, if_neg hescape]

theorem scanQuoted_escaped (d : Char) (filter : List Char) :
    scanQuoted (escapeChar :: d :: filter) =
      (scanQuoted filter).map fun p => (escapeChar :: d :: p.1, p.2) := by
  have hne : escapeChar ≠ quoteChar := by decide
  rw [scanQuoted.eq_def]
  simp only
  rw [if_neg hne, if_pos trivial]

/-- The text of one character is skipped as a whole. -/
theorem scanQuoted_escapeAsECL (c : Char) (filter : List Char) :
    scanQuoted (escapeAsECL c ++ filter) =
      (scanQuoted filter).map fun p => (escapeAsECL c ++ p.1, p.2) := by
  unfold escapeAsECL
  by_cases h₁ : c = '\n'
  · rw [if_pos h₁]
    exact scanQuoted_escaped _ _
  rw [if_neg h₁]
  by_cases h₂ : c = '\r'
  · rw [if_pos h₂]
    exact scanQuoted_escaped _ _
  rw [if_neg h₂]
  by_cases h₃ : c = '\t'
  · rw [if_pos h₃]
    exact scanQuoted_escaped _ _
  rw [if_neg h₃]
  by_cases h₄ : c = quoteChar
  · rw [if_pos h₄]
    exact scanQuoted_escaped _ _
  rw [if_neg h₄]
  by_cases h₅ : c = escapeChar
  · rw [if_pos h₅]
    exact scanQuoted_escaped _ _
  rw [if_neg h₅]
  by_cases h₆ : c.toNat < 32
  · rw [if_pos h₆]
    obtain ⟨hq₁, he₁⟩ := octalDigit_ne (c.toNat / 8)
    obtain ⟨hq₂, he₂⟩ := octalDigit_ne c.toNat
    simp only [List.cons_append, List.nil_append]
    rw [scanQuoted_escaped, scanQuoted_plain hq₁ he₁, scanQuoted_plain hq₂ he₂]
    simp only [Option.map_map]
    rfl
  · rw [if_neg h₆]
    exact scanQuoted_plain h₄ h₅ _

theorem scanQuoted_appendUtf8AsECL (value filter : List Char) :
    scanQuoted (appendUtf8AsECL value ++ quoteChar :: filter) =
      some (appendUtf8AsECL value, filter) := by
  unfold appendUtf8AsECL
  induction value with
  | nil =>
    rw [List.flatMap_nil, List.nil_append, scanQuoted.eq_def]
    simp only
    rw [if_pos trivial]
  | cons c value ih =>
    rw [List.flatMap_cons, List.append_assoc, scanQuoted_escapeAsECL, ih]
    rfl

/-! ## Values -/

section Values

variable {α : Type*} {text : FieldText α} {type : RtlTypeInfo α}

/-- The conversions to and from text are inverse on each value; the text of a number needs no
quotes. -/
structure Lossless (text : FieldText α) (type : RtlTypeInfo α) : Prop where
  value : ∀ v, type.compare (text.buildUtf8 (text.getUtf8 v)) v = 0
  literal : text.isNumeric = false →
    ∀ v, text.unescape (appendUtf8AsECL (text.getUtf8 v)) = .ok (text.getUtf8 v)
  plain : text.isNumeric = true →
    ∀ v, ∀ c ∈ text.getUtf8 v, c ≠ quoteChar ∧ c ∉ ":,])".toList

/-- The terminators of a bound: those of a lower or of an upper bound. -/
def IsTerminators (terminators : String) : Prop := terminators = ":,])" ∨ terminators = ":])"

theorem IsTerminators.subset {terminators : String} (h : IsTerminators terminators) {c : Char}
    (hc : c ∉ ":,])".toList) : c ∉ terminators.toList := by
  rcases h with rfl | rfl
  · exact hc
  · intro hmem
    apply hc
    have hmem' : c ∈ [':', ']', ')'] := hmem
    show c ∈ [':', ',', ']', ')']
    simp only [List.mem_cons, List.not_mem_nil, or_false] at hmem' ⊢
    tauto

theorem readUntilTerminator_eq {terminators : String} {value filter : List Char} {c : Char}
    (hvalue : ∀ d ∈ value, d ∉ terminators.toList) (hc : c ∈ terminators.toList) :
    readUntilTerminator terminators (value ++ c :: filter) = .ok (value, c :: filter) := by
  unfold readUntilTerminator
  have hany : (value ++ c :: filter).any (· ∈ terminators.toList) = true := by
    rw [List.any_eq_true]
    exact ⟨c, List.mem_append_right _ List.mem_cons_self, decide_eq_true hc⟩
  have hdrop : ∀ d ∈ value, decide (d ∉ terminators.toList) = true := by
    intro d hd
    exact decide_eq_true (hvalue d hd)
  rw [if_pos hany, List.takeWhile_append_of_pos hdrop, List.dropWhile_append_of_pos hdrop,
    List.takeWhile_cons_of_neg (by simpa using hc), List.dropWhile_cons_of_neg (by simpa using hc),
    List.append_nil]

theorem readSubLength_eq {c : Char} (hc : c ≠ ':') (filter : List Char) :
    readSubLength (c :: filter) = (MatchFullString, c :: filter) := by
  unfold readSubLength
  split
  · rename_i heq
    cases heq
    exact absurd rfl hc
  · rfl

/-- A value is read back, in front of a terminator. -/
theorem readBound_describeValue (hlossless : Lossless text type) {terminators : String}
    (hterm : IsTerminators terminators) {c : Char} (hc : c ∈ terminators.toList) (hcolon : c ≠ ':')
    (v : α) (filter : List Char) :
    readBound text.unescape terminators (describeValue text v ++ c :: filter) =
      .ok (text.getUtf8 v, MatchFullString, c :: filter) := by
  have hquote : c ≠ quoteChar := by
    intro heq
    rw [heq] at hc
    rcases hterm with rfl | rfl <;> revert hc <;> decide
  unfold readBound describeValue
  cases hnumeric : text.isNumeric with
  | false =>
    simp only [Bool.false_eq_true, if_false, List.cons_append, List.append_assoc, List.nil_append,
      List.head?_cons, if_true, List.tail_cons]
    unfold readString
    rw [scanQuoted_appendUtf8AsECL]
    simp only [hlossless.literal hnumeric v]
    show Except.ok (text.getUtf8 v, readSubLength (c :: filter)) = _
    rw [readSubLength_eq hcolon]
  | true =>
    have hplain := hlossless.plain hnumeric v
    have hhead : (text.getUtf8 v ++ c :: filter).head? ≠ some quoteChar := by
      cases hv : text.getUtf8 v with
      | nil =>
        intro heq
        exact hquote (Option.some.inj heq)
      | cons d rest =>
        intro heq
        rw [hv] at hplain
        exact (hplain d List.mem_cons_self).1 (Option.some.inj heq)
    simp only [if_true]
    rw [if_neg hhead, readUntilTerminator_eq (fun d hd => hterm.subset (hplain d hd).2) hc]
    show Except.ok (text.getUtf8 v, readSubLength (c :: filter)) = _
    rw [readSubLength_eq hcolon]

/-- A bound that is not there has an empty text. -/
theorem readBound_nil {terminators : String} (hterm : IsTerminators terminators) {c : Char}
    (hc : c ∈ terminators.toList) (hcolon : c ≠ ':') (filter : List Char) :
    readBound text.unescape terminators (c :: filter) =
      .ok ([], MatchFullString, c :: filter) := by
  have hquote : c ≠ quoteChar := by
    intro heq
    rw [heq] at hc
    rcases hterm with rfl | rfl <;> revert hc <;> decide
  unfold readBound
  have hhead : (c :: filter).head? ≠ some quoteChar := by
    intro heq
    exact hquote (Option.some.inj heq)
  have hread := @readUntilTerminator_eq terminators [] filter c (by simp) hc
  rw [List.nil_append] at hread
  rw [if_neg hhead, hread]
  show Except.ok ([], readSubLength (c :: filter)) = _
  rw [readSubLength_eq hcolon]

/-! ## Ranges -/

/-- The text of a bound, as it is written. -/
def boundText (text : FieldText α) (t : ValueTransition α) : List Char :=
  match t.value with
  | none => []
  | some v => describeValue text v

/-- The text of a bound, as it is read. -/
def boundUtf8 (text : FieldText α) (t : ValueTransition α) : List Char :=
  match t.value with
  | none => []
  | some v => text.getUtf8 v

theorem readBound_boundText (hlossless : Lossless text type) {terminators : String}
    (hterm : IsTerminators terminators) {c : Char} (hc : c ∈ terminators.toList) (hcolon : c ≠ ':')
    (t : ValueTransition α) (filter : List Char) :
    readBound text.unescape terminators (boundText text t ++ c :: filter) =
      .ok (boundUtf8 text t, MatchFullString, c :: filter) := by
  unfold boundText boundUtf8
  cases t.value with
  | none => exact readBound_nil hterm hc hcolon filter
  | some v => exact readBound_describeValue hlossless hterm hc hcolon v filter

theorem describeTransition_lower {t : ValueTransition α} (hfull : t.Full)
    (hlower : t.isLowerBound = true) : describeTransition text t =
      (if t.isInclusiveBound then '[' else '(') :: boundText text t := by
  have hupper : t.mask.lt = false := by
    have hside := hfull.isUpperBound_eq
    rw [hlower] at hside
    exact hside
  have hsub := hfull.matchSubString_eq
  unfold isLowerBound at hlower
  unfold describeTransition boundText isInclusiveBound
  rw [hlower, hupper]
  cases t.value with
  | none => cases t.mask.eq <;> rfl
  | some v =>
    simp only [hsub, Bool.false_eq_true, if_false, if_true, List.append_nil]
    cases t.mask.eq <;> rfl

theorem describeTransition_upper {t : ValueTransition α} (hfull : t.Full)
    (hupper : t.isUpperBound = true) : describeTransition text t =
      boundText text t ++ [if t.isInclusiveBound then ']' else ')'] := by
  have hlower : t.mask.gt = false := by
    have hside := hfull.isUpperBound_eq
    rw [hupper] at hside
    exact Bool.not_eq_true' _ |>.mp hside.symm
  have hsub := hfull.matchSubString_eq
  unfold isUpperBound at hupper
  unfold describeTransition boundText isInclusiveBound
  rw [hlower, hupper]
  cases t.value with
  | none => cases t.mask.eq <;> rfl
  | some v =>
    simp only [hsub, Bool.false_eq_true, if_false, if_true, List.append_nil, List.nil_append]
    cases t.mask.eq <;> rfl

/-- The mask of a lower or an upper bound. -/
def lowerMask (inclusive : Bool) : TransitionMask := if inclusive then CMPge else CMPgt

/-- The mask of an upper bound. -/
def upperMask (inclusive : Bool) : TransitionMask := if inclusive then CMPle else CMPlt

/-- What is read for the upper bound of a range. -/
def upperUtf8 (text : FieldText α) (type : RtlTypeInfo α) (lower upper : ValueTransition α) :
    List Char :=
  if lower.compareRaw type upper = 0 then (boundUtf8 text lower).takeWhile (· ≠ nulChar)
  else boundUtf8 text upper

/-- What follows a range: the end, or a comma and the next range. -/
def Follows (tail rest : List Char) : Prop := (tail = [] ∧ rest = []) ∨ tail = ',' :: rest

theorem readEnd_eq {c : Char} (hc : c = ')' ∨ c = ']') {tail rest : List Char}
    (h : Follows tail rest) : readEnd (c :: tail) = .ok (c, rest) := by
  have hnot : ¬ (c ≠ ')' ∧ c ≠ ']') := by tauto
  rw [readEnd.eq_def]
  simp only
  rw [if_neg hnot]
  rcases h with ⟨rfl, rfl⟩ | rfl
  · rfl
  · simp only [if_true]

/-- The parts of a range. -/
theorem readRange_of_parts {unescape : List Char → Except String (List Char)} {startRange : Char}
    {filter lowerString upperString : List Char} {lowerSubLength upperSubLength : ℕ}
    {filter₁ filter₂ rest : List Char} {endRange : Char}
    (hstart : ¬ (startRange ≠ '(' ∧ startRange ≠ '['))
    (hlower : readBound unescape ":,])" filter = .ok (lowerString, lowerSubLength, filter₁))
    (hupper : readUpper unescape lowerString lowerSubLength filter₁ =
      .ok (upperString, upperSubLength, filter₂))
    (hend : readEnd filter₂ = .ok (endRange, rest)) :
    readRange unescape (startRange :: filter) =
      .ok (⟨if startRange = '(' then CMPgt else CMPge, lowerString,
        if endRange = ')' then CMPlt else CMPle, upperString, lowerSubLength, upperSubLength⟩,
        rest) := by
  rw [readRange.eq_def]
  simp only
  rw [if_neg hstart, hlower]
  simp only [bind, Except.bind, hupper, hend, pure, Except.pure]

/-- A range is read back. -/
theorem readRange_describeRange (hlossless : Lossless text type) {lower upper : ValueTransition α}
    (hlower : lower.Full) (hupper : upper.Full) (hl : lower.isLowerBound = true)
    (hu : upper.isUpperBound = true)
    (hsingle : lower.compareRaw type upper = 0 → upper.isInclusiveBound = true)
    {tail rest : List Char} (hrest : Follows tail rest) :
    readRange text.unescape (describeRange text type lower upper ++ tail) =
      .ok (⟨lowerMask lower.isInclusiveBound, boundUtf8 text lower,
        upperMask upper.isInclusiveBound, upperUtf8 text type lower upper, MatchFullString,
        MatchFullString⟩, rest) := by
  have hstart : ∀ b : Bool, ¬ ((if b then '[' else '(') ≠ '(' ∧ (if b then '[' else '(') ≠ '[') := by
    decide
  have hstartMask : ∀ b : Bool, (if (if b then '[' else '(') = '(' then CMPgt else CMPge) =
      lowerMask b := by decide
  have hendMask : ∀ b : Bool, (if (if b then ']' else ')') = ')' then CMPlt else CMPle) =
      upperMask b := by decide
  have hend : ∀ b : Bool, (if b then ']' else ')') = ')' ∨ (if b then ']' else ')') = ']' := by
    decide
  unfold describeRange
  rw [describeTransition_lower hlower hl]
  by_cases hzero : lower.compareRaw type upper = 0
  · -- a single value
    have hread : readUpper text.unescape (boundUtf8 text lower) MatchFullString (']' :: tail) =
        .ok ((boundUtf8 text lower).takeWhile (· ≠ nulChar), MatchFullString, ']' :: tail) := by
      unfold readUpper
      split
      · rename_i heq
        cases heq
      · rfl
    rw [if_neg (not_not.mpr hzero), List.append_assoc, List.cons_append, List.singleton_append,
      readRange_of_parts (hstart _)
        (readBound_boundText hlossless (Or.inl rfl) (by decide) (by decide) _ _) hread
        (readEnd_eq (Or.inr rfl) hrest), hstartMask]
    unfold upperUtf8
    rw [if_pos hzero, hsingle hzero]
    rfl
  · have hread : readUpper text.unescape (boundUtf8 text lower) MatchFullString
        (',' :: (boundText text upper ++ (if upper.isInclusiveBound then ']' else ')') :: tail)) =
        .ok (boundUtf8 text upper, MatchFullString,
          (if upper.isInclusiveBound then ']' else ')') :: tail) := by
      apply readBound_boundText hlossless (Or.inr rfl)
      · cases upper.isInclusiveBound <;> decide
      · cases upper.isInclusiveBound <;> decide
    rw [if_pos hzero, List.append_assoc, List.cons_append, List.cons_append,
      describeTransition_upper hupper hu, List.append_assoc, List.singleton_append,
      readRange_of_parts (hstart _)
        (readBound_boundText hlossless (Or.inl rfl) (by decide) (by decide) _ _) hread
        (readEnd_eq (hend _) hrest), hstartMask, hendMask]
    unfold upperUtf8
    rw [if_neg hzero]

/-! ## Sets -/

/-- No bound has an empty text, and no range of one value has a text with a character 0. -/
structure Readable (text : FieldText α) (type : RtlTypeInfo α) (ts : List (ValueTransition α)) :
    Prop where
  nonempty : ∀ t ∈ ts, ∀ v, t.value = some v → text.getUtf8 v ≠ []
  single : ∀ p ∈ ranges ts, p.1.compareRaw type p.2 = 0 → nulChar ∉ boundUtf8 text p.1

variable {Q : Type*} [LinearOrder Q] (r : Rank type.compare Q)

theorem textTransition_eq {value : List Char} (hvalue : value ≠ []) (mask : TransitionMask) :
    textTransition text type mask value MatchFullString =
      some (create mask type (text.buildUtf8 value) MatchFullString) := by
  unfold textTransition createUtf8Transition
  rw [if_neg hvalue, if_pos rfl]

/-- The lower bound that is read stands where the bound stood that was written. -/
theorem cut_lower_read (hlossless : Lossless text type) {t : ValueTransition α} (hfull : t.Full)
    (hl : t.isLowerBound = true) (htext : ∀ v, t.value = some v → text.getUtf8 v ≠ []) :
    ∃ t', (textTransition text type (lowerMask t.isInclusiveBound) (boundUtf8 text t)
        MatchFullString).getD minimum = t' ∧ t'.Full ∧ t'.isLowerBound = true ∧
      (FullScale.scale r).cut t' = (FullScale.scale r).cut t := by
  rcases hfull.value_cases with ⟨v, hv, -, -⟩ | rfl | rfl
  · have hutf8 : boundUtf8 text t = text.getUtf8 v := by
      unfold boundUtf8
      rw [hv]
    have hrank := (r.zero_iff _ _).mp (hlossless.value v)
    rw [hutf8, textTransition_eq (htext v hv)]
    refine ⟨_, rfl, ?_, History.isLowerBound_lower type ⟨_, t.isInclusiveBound⟩, ?_⟩
    · apply full_create
      unfold lowerMask
      cases t.isInclusiveBound <;> simp
    · rw [FullScale.scale_cut, FullScale.scale_cut, FullScale.key_of_value r hv, ← hrank, hl]
      congr 2
      exact congrArg₂ _
        (History.isLowerBound_lower type ⟨text.buildUtf8 (text.getUtf8 v), t.isInclusiveBound⟩)
        (History.isInclusiveBound_lower type ⟨text.buildUtf8 (text.getUtf8 v), t.isInclusiveBound⟩)
  · exact ⟨minimum, rfl, full_minimum, rfl, rfl⟩
  · cases hl

/-- The upper bound that is read stands where the bound stood that was written. -/
theorem cut_upper_read {t : ValueTransition α} (hfull : t.Full) (hu : t.isUpperBound = true)
    {value : List Char} (hnone : t.value = none → value = [])
    (hsome : ∀ v, t.value = some v → value ≠ [] ∧ type.compare (text.buildUtf8 value) v = 0) :
    ∃ t', (textTransition text type (upperMask t.isInclusiveBound) value
        MatchFullString).getD maximum = t' ∧ t'.Full ∧ t'.isLowerBound = false ∧
      (FullScale.scale r).cut t' = (FullScale.scale r).cut t := by
  have hl : t.isLowerBound = false := by
    have hside := hfull.isUpperBound_eq
    rw [hu] at hside
    exact Bool.not_eq_true' _ |>.mp hside.symm
  rcases hfull.value_cases with ⟨v, hv, -, -⟩ | rfl | rfl
  · obtain ⟨hne, hvalue⟩ := hsome v hv
    have hrank := (r.zero_iff _ _).mp hvalue
    rw [textTransition_eq hne]
    refine ⟨_, rfl, ?_, History.isLowerBound_upper type ⟨_, t.isInclusiveBound⟩, ?_⟩
    · apply full_create
      unfold upperMask
      cases t.isInclusiveBound <;> simp
    · rw [FullScale.scale_cut, FullScale.scale_cut, FullScale.key_of_value r hv, ← hrank, hl]
      congr 2
      exact congrArg₂ _ (History.isLowerBound_upper type ⟨text.buildUtf8 value, t.isInclusiveBound⟩)
        (History.isInclusiveBound_upper type ⟨text.buildUtf8 value, t.isInclusiveBound⟩)
  · cases hu
  · rw [hnone rfl]
    exact ⟨maximum, rfl, full_maximum, rfl, rfl⟩

/-- The bounds of a range of one value are inclusive. -/
theorem inclusive_of_single {lower upper : ValueTransition α} (hlower : lower.Full)
    (hupper : upper.Full) (hl : lower.isLowerBound = true) (hu : upper.isUpperBound = true)
    (hlt : (FullScale.scale r).cut lower < (FullScale.scale r).cut upper)
    (hzero : lower.compareRaw type upper = 0) : upper.isInclusiveBound = true := by
  have hkey := (FullScale.zero_iff r hlower hupper).mp hzero
  have hside := hupper.isUpperBound_eq
  rw [hu] at hside
  have hul : upper.isLowerBound = false := Bool.not_eq_true' _ |>.mp hside.symm
  rw [FullScale.scale_cut, FullScale.scale_cut, hkey, hl, hul, Prod.Lex.toLex_lt_toLex] at hlt
  rcases hlt with hlt | ⟨-, hlt⟩
  · exact absurd hlt (lt_irrefl _)
  · cases hinclusive : upper.isInclusiveBound with
    | true => rfl
    | false =>
      rw [hinclusive] at hlt
      simp only at hlt
      revert hlt
      cases lower.isInclusiveBound <;> decide

/-- There is no text for an upper bound that is not there. -/
theorem upperUtf8_nil {lower upper : ValueTransition α} (hlower : lower.Full)
    (hl : lower.isLowerBound = true) (hnone : upper.value = none) :
    upperUtf8 text type lower upper = [] := by
  unfold upperUtf8
  split
  · rename_i hzero
    rcases hlower.value_cases with ⟨v, hv, hmin, hmax⟩ | rfl | rfl
    · have hside := upper.hasValue hnone
      unfold compareRaw at hzero
      rw [hv, hnone] at hzero
      simp only [hmin, hmax] at hzero
      revert hzero
      cases upper.isMinimum <;> simp
    · rfl
    · cases hl
  · unfold boundUtf8
    rw [hnone]

/-- The text for an upper bound stands for its value. -/
theorem upperUtf8_value (r : Rank type.compare Q) (hlossless : Lossless text type) {lower upper : ValueTransition α}
    (hlower : lower.Full) (hupper : upper.Full)
    (hlowerText : ∀ v, lower.value = some v → text.getUtf8 v ≠ [])
    (hupperText : ∀ v, upper.value = some v → text.getUtf8 v ≠ [])
    (hsingle : lower.compareRaw type upper = 0 → nulChar ∉ boundUtf8 text lower) (v : α)
    (hv : upper.value = some v) :
    upperUtf8 text type lower upper ≠ [] ∧
      type.compare (text.buildUtf8 (upperUtf8 text type lower upper)) v = 0 := by
  unfold upperUtf8
  by_cases hzero : lower.compareRaw type upper = 0
  · rw [if_pos hzero]
    have hkey := (FullScale.zero_iff r hlower hupper).mp hzero
    rw [FullScale.key_of_value r hv] at hkey
    have hclean : (boundUtf8 text lower).takeWhile (· ≠ nulChar) = boundUtf8 text lower := by
      apply List.takeWhile_eq_self_iff.mpr
      intro c hc
      apply decide_eq_true
      rintro rfl
      exact hsingle hzero hc
    rw [hclean]
    rcases hlower.value_cases with ⟨w, hw, -, -⟩ | rfl | rfl
    · rw [FullScale.key_of_value r hw] at hkey
      have hrank : r.rank w = r.rank v := by
        exact WithTop.coe_injective (WithBot.coe_injective hkey)
      have hutf8 : boundUtf8 text lower = text.getUtf8 w := by
        unfold boundUtf8
        rw [hw]
      rw [hutf8]
      refine ⟨hlowerText w hw, ?_⟩
      rw [r.zero_iff, ← hrank, ← r.zero_iff]
      exact hlossless.value w
    · rw [FullScale.key_minimum] at hkey
      cases hkey
    · rw [FullScale.key_maximum] at hkey
      exact absurd hkey.symm (FullScale.coe_lt_top _).ne
  · rw [if_neg hzero]
    have hutf8 : boundUtf8 text upper = text.getUtf8 v := by
      unfold boundUtf8
      rw [hv]
    rw [hutf8]
    exact ⟨hupperText v hv, hlossless.value v⟩

theorem addRange_getD (s : List (ValueTransition α)) (lower upper : Option (ValueTransition α)) :
    ValueSet.addRange type s lower upper =
      ValueSet.addRange type s (some (lower.getD minimum)) (some (upper.getD maximum)) := rfl

theorem loop_cons {σ : Type*} {unescape : List Char → Except String (List Char)}
    {addRange : FilterRange → σ → Except FilterError σ} {filter rest : List Char}
    {range : FilterRange} (hrange : readRange unescape filter = .ok (range, rest)) (n : ℕ) (s : σ) :
    deserializeSet.loop unescape addRange (n + 1) filter s =
      match addRange range s with
      | .error e => .error e
      | .ok s => deserializeSet.loop unescape addRange n rest s := by
  cases filter with
  | nil => cases hrange
  | cons c filter =>
    rw [deserializeSet.loop.eq_def]
    cases hadd : addRange range s with
    | error e => simp only [hrange, hadd]
    | ok s' => simp only [hrange, hadd]

/-- The ranges that are read for the text of a set, and that they are added one after the other. -/
theorem loop_describe (hlossless : Lossless text type) {ts : List (ValueTransition α)}
    (hn : (FullScale.scale r).Normal ts) (hread : Readable text type ts) :
    ∃ us, (FullScale.scale r).Normal us ∧
      (FullScale.scale r).cuts us = (FullScale.scale r).cuts ts ∧
      ∀ n s, (describe text type ts).length ≤ n →
        deserializeSet.loop text.unescape (ValueSetCreator.addRange text type) n
          (describe text type ts) s = (unionSet type s us).mapError .set := by
  induction ts using List.twoStepInduction with
  | nil =>
    refine ⟨[], hn, rfl, ?_⟩
    intro n s _
    cases n <;> rfl
  | singleton t => exact absurd hn.even Nat.not_even_one
  | cons_cons lower upper ts ih _ =>
    obtain ⟨hlower, hupper, hl, hu, hlt, hother⟩ := hn.head
    obtain ⟨us, hus, hcuts, hloop⟩ := ih hn.tail_tail
      ⟨fun t ht => hread.nonempty t (by simp [ht]), fun p hp => hread.single p (by simp [ranges, hp])⟩
    obtain ⟨lower', hlower', hfull', hl', hcut'⟩ := cut_lower_read r hlossless hlower hl
      (hread.nonempty lower (by simp))
    obtain ⟨upper', hupper', hfullu', hlu', hcutu'⟩ := cut_upper_read r hupper hu
      (upperUtf8_nil hlower hl) (upperUtf8_value r hlossless hlower hupper
        (hread.nonempty lower (by simp)) (hread.nonempty upper (by simp))
        (hread.single (lower, upper) (by simp [ranges])))
    have hcutsAll : (FullScale.scale r).cuts (lower' :: upper' :: us) =
        (FullScale.scale r).cuts (lower :: upper :: ts) := by
      rw [cuts_cons, cuts_cons, cuts_cons, cuts_cons, hcut', hcutu', hcuts]
    refine ⟨lower' :: upper' :: us, ⟨?_, ?_, ⟨hl', hlu', hus.alternates⟩, ?_⟩, hcutsAll, ?_⟩
    · intro t ht
      rcases List.mem_cons.mp ht with rfl | ht
      · exact hfull'
      · rcases List.mem_cons.mp ht with rfl | ht
        · exact hfullu'
        · exact hus.mem t ht
    · rw [hcutsAll]
      exact hn.sorted
    · have heven := hus.even
      simpa [Nat.even_add_one] using heven
    · intro n s hlength
      have hsingle := inclusive_of_single r hlower hupper hl hu hlt
      -- what follows the range is the text of the other ranges
      have hfollows : ∃ tail, describe text type (lower :: upper :: ts) =
          describeRange text type lower upper ++ tail ∧ Follows tail (describe text type ts) := by
        rw [describe.eq_def]
        cases ts with
        | nil => exact ⟨[], rfl, Or.inl ⟨rfl, rfl⟩⟩
        | cons t ts => exact ⟨_, rfl, Or.inr rfl⟩
      obtain ⟨tail, hdescribe, hfollow⟩ := hfollows
      have hrange := @readRange_describeRange α text type hlossless lower upper hlower hupper hl hu
        hsingle tail _ hfollow
      rw [hdescribe] at hlength ⊢
      have hpos : 0 < (describeRange text type lower upper).length := by
        unfold describeRange
        rw [describeTransition_lower hlower hl]
        exact Nat.succ_pos _
      have hshort : (describe text type ts).length ≤ tail.length := by
        rcases hfollow with ⟨-, hnil⟩ | hcons
        · rw [hnil]
          exact Nat.zero_le _
        · rw [hcons]
          exact Nat.le_succ _
      rw [List.length_append] at hlength
      obtain ⟨m, rfl⟩ : ∃ m, n = m + 1 := ⟨n - 1, by omega⟩
      rw [loop_cons hrange]
      unfold ValueSetCreator.addRange
      simp only
      rw [addRange_getD, hlower', hupper', unionSet]
      cases hadd : ValueSet.addRange type s (some lower') (some upper') with
      | error e => rfl
      | ok s' => exact hloop m s' (by omega)

/-- After every run of which no step closes a gap, the text of a set with readable bounds is the text
of a set with the same values. -/
theorem matches_of_text (text : FieldText α) (type : RtlTypeInfo α)
    (horder : TotalOrder type.compare) (hlossless : Lossless text type) (h : History α)
    (hgap : ∀ s ∈ h.states, History.StepAvoidsGaps type s) {ts : List (ValueTransition α)}
    (hrun : History.run type h = .ok ts) (hread : Readable text type ts) :
    ∃ ts', deserializeValueSet text type (describe text type ts) [] = .ok ts' ∧
      ∀ x, matchesField type ts' x = matchesField type ts x := by
  obtain ⟨Q, _, ⟨r⟩⟩ := horder.exists_rank
  obtain ⟨ts₀, hrun₀, hn, -⟩ := History.sound r h hgap
  rw [hrun] at hrun₀
  cases hrun₀
  obtain ⟨us, hus, hcuts, hloop⟩ := loop_describe r hlossless hn hread
  have hnogap : ∀ p ∈ ranges us, ¬ ClosesGap type [] p.1 p.2 := by
    rintro p - ⟨-, -, A, t, u, B, hnil, -⟩
    simp at hnil
  obtain ⟨ts', hunion, hn', hinside⟩ := unionSet_spec normal_nil hus hnogap
  refine ⟨ts', ?_, ?_⟩
  · unfold deserializeValueSet deserializeSet
    rw [hloop _ _ le_rfl, hunion]
    rfl
  · intro x
    have hc := FullScale.scale_closed r
    have hsame : matchesField type ts' x = true ↔ matchesField type ts x = true := by
      rw [matchesField_iff hn' (hc.wide hn'), matchesField_iff hn (hc.wide hn), Member, Member,
        hinside, hcuts]
      simp
    exact Bool.eq_iff_iff.mpr hsame

end Values

/-! ## Strings -/

/-- The comparison of the first characters of two strings, of which the shorter one is filled with
blanks. -/
def compareStart : ℕ → List Char → List Char → ℤ
  | 0, _, _ => 0
  | n + 1, a, b =>
    if a.headD ' ' < b.headD ' ' then -1
    else if b.headD ' ' < a.headD ' ' then 1
    else compareStart n a.tail b.tail

/-- The type of a string of any length. -/
def varStringType : RtlTypeInfo (List Char) where
  compare a b := compareStart (max a.length b.length) a b
  compareRange m a n b := compareStart (max (min m a.length) (min n b.length)) (a.take m) (b.take n)
  isFixedSize := false
  getMinSize := 4

theorem compareStart_swap (n : ℕ) (a b : List Char) :
    compareStart n b a = - compareStart n a b := by
  induction n generalizing a b with
  | zero => rfl
  | succ n ih =>
    unfold compareStart
    rcases lt_trichotomy (a.headD ' ') (b.headD ' ') with hlt | heq | hlt
    · rw [if_neg hlt.asymm, if_pos hlt, if_pos hlt]
      rfl
    · rw [heq, if_neg (lt_irrefl _), if_neg (lt_irrefl _), if_neg (lt_irrefl _),
        if_neg (lt_irrefl _)]
      exact ih _ _
    · rw [if_pos hlt, if_neg hlt.asymm, if_pos hlt]

theorem compareStart_trans (n : ℕ) (a b c : List Char) (hab : compareStart n a b ≤ 0)
    (hbc : compareStart n b c ≤ 0) : compareStart n a c ≤ 0 := by
  induction n generalizing a b c with
  | zero => exact le_rfl
  | succ n ih =>
    unfold compareStart at hab hbc ⊢
    rcases lt_trichotomy (a.headD ' ') (b.headD ' ') with hlt | heq | hlt
    · rcases lt_trichotomy (b.headD ' ') (c.headD ' ') with hlt' | heq' | hlt'
      · rw [if_pos (hlt.trans hlt')]
        norm_num
      · rw [if_pos (heq' ▸ hlt)]
        norm_num
      · rw [if_neg hlt'.asymm, if_pos hlt'] at hbc
        norm_num at hbc
    · rw [heq, if_neg (lt_irrefl _), if_neg (lt_irrefl _)] at hab
      rw [heq]
      rcases lt_trichotomy (b.headD ' ') (c.headD ' ') with hlt' | heq' | hlt'
      · rw [if_pos hlt']
        norm_num
      · rw [heq', if_neg (lt_irrefl _), if_neg (lt_irrefl _)] at hbc ⊢
        exact ih _ _ _ hab hbc
      · rw [if_neg hlt'.asymm, if_pos hlt'] at hbc
        norm_num at hbc
    · rw [if_neg hlt.asymm, if_pos hlt] at hab
      norm_num at hab

/-- Blanks compare equal to blanks. -/
theorem compareStart_nil (n : ℕ) : compareStart n [] [] = 0 := by
  induction n with
  | zero => rfl
  | succ n ih =>
    unfold compareStart
    exact ih

/-- Only the characters of the longer string count. -/
theorem compareStart_add (n m : ℕ) (a b : List Char) (ha : a.length ≤ n) (hb : b.length ≤ n) :
    compareStart (n + m) a b = compareStart n a b := by
  induction n generalizing a b with
  | zero =>
    rw [List.length_eq_zero_iff.mp (Nat.le_zero.mp ha), List.length_eq_zero_iff.mp (Nat.le_zero.mp hb),
      Nat.zero_add, compareStart_nil]
    rfl
  | succ n ih =>
    rw [Nat.add_right_comm]
    unfold compareStart
    rw [ih a.tail b.tail]
    · rw [List.length_tail]
      omega
    · rw [List.length_tail]
      omega

theorem varStringType_totalOrder : TotalOrder varStringType.compare := by
  have hlong : ∀ (a b : List Char) (n : ℕ), max a.length b.length ≤ n →
      varStringType.compare a b = compareStart n a b := by
    intro a b n hn
    obtain ⟨m, rfl⟩ := Nat.exists_eq_add_of_le hn
    exact (compareStart_add _ m a b (le_max_left _ _) (le_max_right _ _)).symm
  constructor
  · intro a b
    rw [hlong a b _ le_rfl, hlong b a (max a.length b.length) (max_comm _ _).le,
      compareStart_swap _ a b]
    omega
  · intro a b c hab hbc
    set n := max a.length (max b.length c.length) with hn
    rw [hlong a b n (by omega)] at hab
    rw [hlong b c n (by omega)] at hbc
    rw [hlong a c n (by omega)]
    exact compareStart_trans n a b c hab hbc

/-- The character of an escape sequence with one character. -/
def unescapeChar (c : Char) : Char :=
  if c = 'n' then '\n' else if c = 'r' then '\r' else if c = 't' then '\t' else c

/-- The characters of a literal with the escape sequences that `appendUtf8AsECL` writes. -/
def unescapeECL : List Char → Except String (List Char)
  | [] => .ok []
  | c :: filter =>
    if c = escapeChar then
      match filter with
      | [] => .error "Unrecognized escape sequence"
      | d :: filter =>
        if d.isDigit then
          match filter with
          | e :: f :: filter =>
            (unescapeECL filter).map
              (Char.ofNat ((d.toNat - 48) * 64 + (e.toNat - 48) * 8 + (f.toNat - 48)) :: ·)
          | _ => .error "3-digit numeric escape sequence contained non-octal digit"
        else (unescapeECL filter).map (unescapeChar d :: ·)
    else (unescapeECL filter).map (c :: ·)

/-- The text of a string of any length. -/
def varStringText : FieldText (List Char) where
  isNumeric := false
  getUtf8 := id
  buildUtf8 := id
  applySubString mask value subLength := (mask, value.take subLength)
  unescape := unescapeECL

theorem unescapeECL_plain {c : Char} (hc : c ≠ escapeChar) (filter : List Char) :
    unescapeECL (c :: filter) = (unescapeECL filter).map (c :: ·) := by
  rw [unescapeECL.eq_def]
  simp only
  rw [if_neg hc]

theorem unescapeECL_escaped {d : Char} (hd : d.isDigit = false) (filter : List Char) :
    unescapeECL (escapeChar :: d :: filter) = (unescapeECL filter).map (unescapeChar d :: ·) := by
  rw [unescapeECL.eq_def]
  simp only [if_true, hd, Bool.false_eq_true, if_false]

/-- The three digits of a control character. -/
theorem unescapeECL_octal {n : ℕ} (hn : n < 32) (filter : List Char) :
    unescapeECL (escapeChar :: octalDigit (n / 64) :: octalDigit (n / 8) :: octalDigit n :: filter) =
      (unescapeECL filter).map (Char.ofNat n :: ·) := by
  have hdigit : (octalDigit (n / 64)).isDigit = true := by
    interval_cases n <;> decide
  have hvalue : ((octalDigit (n / 64)).toNat - 48) * 64 + ((octalDigit (n / 8)).toNat - 48) * 8 +
      ((octalDigit n).toNat - 48) = n := by
    interval_cases n <;> decide
  rw [unescapeECL.eq_def]
  simp only [if_true, hdigit, hvalue]

theorem unescapeECL_escapeAsECL (c : Char) (filter : List Char) :
    unescapeECL (escapeAsECL c ++ filter) = (unescapeECL filter).map (c :: ·) := by
  unfold escapeAsECL
  by_cases h₁ : c = '\n'
  · rw [if_pos h₁, h₁]
    exact unescapeECL_escaped (by decide) filter
  rw [if_neg h₁]
  by_cases h₂ : c = '\r'
  · rw [if_pos h₂, h₂]
    exact unescapeECL_escaped (by decide) filter
  rw [if_neg h₂]
  by_cases h₃ : c = '\t'
  · rw [if_pos h₃, h₃]
    exact unescapeECL_escaped (by decide) filter
  rw [if_neg h₃]
  by_cases h₄ : c = quoteChar
  · rw [if_pos h₄, h₄]
    exact unescapeECL_escaped (by decide) filter
  rw [if_neg h₄]
  by_cases h₅ : c = escapeChar
  · rw [if_pos h₅, h₅]
    exact unescapeECL_escaped (by decide) filter
  rw [if_neg h₅]
  by_cases h₆ : c.toNat < 32
  · rw [if_pos h₆]
    have hoctal := unescapeECL_octal h₆ filter
    rw [Char.ofNat_toNat] at hoctal
    exact hoctal
  · rw [if_neg h₆]
    exact unescapeECL_plain h₅ filter

theorem varStringText_lossless : Lossless varStringText varStringType where
  value v := by
    have hself := compareStart_swap (max v.length v.length) v v
    show compareStart (max v.length v.length) v v = 0
    omega
  literal _ v := by
    show unescapeECL (appendUtf8AsECL v) = .ok v
    unfold appendUtf8AsECL
    induction v with
    | nil => rfl
    | cons c v ih =>
      rw [List.flatMap_cons, unescapeECL_escapeAsECL, ih]
      rfl
  plain h := by cases h

/-- All values from `a` to `z` but `it's`. -/
def quotedSet : History (List Char) :=
  (History.empty.addRange (some ⟨['a'], true⟩) (some ⟨['z'], true⟩)).killRange
    (some ⟨['i', 't', quoteChar, 's'], true⟩) (some ⟨['i', 't', quoteChar, 's'], true⟩)

/-- Its two ranges. -/
def quotedTransitions : List (ValueTransition (List Char)) :=
  [Bound.lower varStringType ⟨['a'], true⟩, Bound.upper varStringType ⟨['i', 't', quoteChar, 's'], false⟩,
    Bound.lower varStringType ⟨['i', 't', quoteChar, 's'], false⟩, Bound.upper varStringType ⟨['z'], true⟩]

theorem run_quotedSet : History.run varStringType quotedSet = .ok quotedTransitions := rfl

theorem readable_quotedTransitions : Readable varStringText varStringType quotedTransitions := by
  refine ⟨?_, ?_⟩
  · intro t ht v hv hnil
    have hall : ∀ t ∈ quotedTransitions, t.value ≠ some [] := by decide
    apply hall t ht
    rw [hv]
    exact congrArg some hnil
  · unfold quotedTransitions
    decide

theorem matches_quotedSet : History.run varStringType quotedSet = .ok quotedTransitions ∧
    ∃ ts', deserializeValueSet varStringText varStringType
        (describe varStringText varStringType quotedTransitions) [] = .ok ts' ∧
      ∀ x, matchesField varStringType ts' x = matchesField varStringType quotedTransitions x := by
  have hgap : ∀ s ∈ quotedSet.states, History.StepAvoidsGaps varStringType s := by decide +kernel
  exact ⟨run_quotedSet, matches_of_text varStringText varStringType varStringType_totalOrder
    varStringText_lossless quotedSet hgap run_quotedSet readable_quotedTransitions⟩

/-- The set with the empty string only. -/
def emptyString : History (List Char) := History.empty.addRange (some ⟨[], true⟩) (some ⟨[], true⟩)

/-- The text of the empty string is taken for a bound that is not there: the set that is read has
all values. -/
theorem emptyString_matches : TotalOrder varStringType.compare ∧
    Lossless varStringText varStringType ∧
    ∃ ts ts', History.run varStringType emptyString = .ok ts ∧
      describe varStringText varStringType ts = ['[', quoteChar, quoteChar, ']'] ∧
      deserializeValueSet varStringText varStringType (describe varStringText varStringType ts) [] =
        .ok ts' ∧
      matchesField varStringType ts ['a'] = false ∧ matchesField varStringType ts' ['a'] = true := by
  refine ⟨varStringType_totalOrder, varStringText_lossless, _, _, rfl, rfl, rfl, ?_, ?_⟩
  · decide
  · decide

end FilterText

end HpccPlatform
