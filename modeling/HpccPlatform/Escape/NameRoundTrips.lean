import HpccPlatform.Escape.Names

/-!
# Round trips of the escapes

What a writer makes of one character is read back as this character, whatever follows.  The name
of an empty string is the exception: its terminator is taken for a character.
-/

namespace Escape

open Ctype

variable {s t pending : List UInt8} {c : UInt8} {lower : Bool}

/-! ### Digits -/

theorem hex2num_hexDigit : ∀ n < 16, ∀ lower, hex2num (hexDigit lower n) = UInt8.ofNat n := by
  decide

theorem translateHex_hexDigit :
    ∀ n < 16, ∀ lower, translateHex (hexDigit lower n) = UInt8.ofNat n := by
  decide

theorem isxdigit_hexDigit : ∀ n < 16, ∀ lower, isxdigit (hexDigit lower n) = true := by
  decide

theorem isalnum_hexDigit : ∀ n < 16, ∀ lower, isalnum (hexDigit lower n) = true := by
  decide

theorem high_lt (c : UInt8) : c.toNat / 16 < 16 := Nat.div_lt_of_lt_mul c.toNat_lt

theorem low_lt (c : UInt8) : c.toNat % 16 < 16 := Nat.mod_lt _ (Nat.succ_pos 15)

theorem halves_eq (c : UInt8) :
    16 * UInt8.ofNat (c.toNat / 16) + UInt8.ofNat (c.toNat % 16) = c := by
  calc 16 * UInt8.ofNat (c.toNat / 16) + UInt8.ofNat (c.toNat % 16)
      = UInt8.ofNat (16 * (c.toNat / 16) + c.toNat % 16) := by
        rw [UInt8.ofNat_add, UInt8.ofNat_mul]
        rfl
    _ = c := by rw [Nat.div_add_mod, UInt8.ofNat_toNat]

/-! ### Names -/

theorem chunk_eq (h : t.length < 2 ^ 32) : chunk t = t := by
  unfold chunk
  rw [Nat.mod_eq_of_lt h, List.take_length]

/-- The text of a name behind its first character. -/
def escaped (s : List UInt8) : List UInt8 :=
  s.flatMap fun c => if isalnum c then [c] else underscored c

theorem ncnameEscapeFrom_cells (hs : 0 ∉ s) (hlen : pending.length + s.length < 2 ^ 32) :
    ncnameEscapeFrom pending (cells s) = .ok (pending ++ escaped s) := by
  induction s generalizing pending with
  | nil =>
    rw [cells_nil, ncnameEscapeFrom, if_pos rfl, chunk_eq hlen]
    exact congrArg Except.ok (List.append_nil pending).symm
  | cons c s ih =>
    rw [List.mem_cons, not_or] at hs
    rw [List.length_cons] at hlen
    rw [cells_cons, ncnameEscapeFrom, if_neg (Ne.symm hs.1)]
    unfold escaped
    rw [List.flatMap_cons]
    cases hc : isalnum c with
    | true =>
      rw [Bool.not_true, if_neg Bool.false_ne_true, if_pos rfl, ih hs.2, List.append_assoc]
      · rfl
      · rw [List.length_append, List.length_singleton, Nat.add_assoc, Nat.add_comm 1]
        exact hlen
    | false =>
      rw [Bool.not_false, if_pos rfl, ih hs.2, chunk_eq ((Nat.le_add_right _ _).trans_lt hlen),
        if_neg Bool.false_ne_true, ← List.append_assoc]
      · rfl
      · rw [List.length_nil, Nat.zero_add]
        exact (Nat.lt_succ_self _).trans_le ((Nat.le_add_left _ _).trans hlen.le)

theorem ncnameUnescapeFrom_zero : ncnameUnescapeFrom pending (cells []) = .ok (chunk pending) := by
  rw [cells_nil, ncnameUnescapeFrom.eq_def]
  exact if_pos rfl

theorem ncnameUnescapeFrom_other (hzero : c ≠ 0) (hunderscore : c ≠ 95) :
    ncnameUnescapeFrom pending (c :: t) = ncnameUnescapeFrom (pending ++ [c]) t := by
  rw [ncnameUnescapeFrom.eq_def]
  dsimp only
  rw [if_neg hzero, if_neg hunderscore]

/-- The escape of a character is read back. -/
theorem ncnameUnescapeFrom_underscored :
    ncnameUnescapeFrom pending (underscored c ++ t) =
      (ncnameUnescapeFrom [] t).map (chunk pending ++ [c] ++ ·) := by
  change ncnameUnescapeFrom pending (95 :: hexDigit false _ :: hexDigit false _ :: t) = _
  rw [ncnameUnescapeFrom, if_neg (by decide), if_pos rfl,
    hex2num_hexDigit _ (high_lt c),
    hex2num_hexDigit _ (low_lt c), halves_eq]

theorem ne_of_isalnum (h : isalnum c = true) : c ≠ 0 ∧ c ≠ 95 := by
  constructor
  · rintro rfl
    cases h
  · rintro rfl
    cases h

theorem ncnameUnescapeFrom_escaped (hlen : pending.length + s.length < 2 ^ 32) :
    ncnameUnescapeFrom pending (cells (escaped s)) = .ok (pending ++ s) := by
  induction s generalizing pending with
  | nil =>
    change ncnameUnescapeFrom pending (cells []) = _
    rw [ncnameUnescapeFrom_zero, chunk_eq hlen, List.append_nil]
  | cons c s ih =>
    rw [List.length_cons] at hlen
    unfold escaped
    rw [List.flatMap_cons, cells_append]
    cases hc : isalnum c with
    | true =>
      obtain ⟨hzero, hunderscore⟩ := ne_of_isalnum hc
      change ncnameUnescapeFrom pending (c :: cells (escaped s)) = _
      rw [ncnameUnescapeFrom_other hzero hunderscore, ih, List.append_assoc]
      · rfl
      · rw [List.length_append, List.length_singleton, Nat.add_assoc, Nat.add_comm 1]
        exact hlen
    | false =>
      change ncnameUnescapeFrom pending (underscored c ++ cells (escaped s)) = _
      rw [ncnameUnescapeFrom_underscored, ih, chunk_eq ((Nat.le_add_right _ _).trans_lt hlen)]
      · exact congrArg Except.ok (List.append_assoc pending [c] s)
      · rw [List.length_nil, Nat.zero_add]
        exact (Nat.lt_succ_self _).trans_le ((Nat.le_add_left _ _).trans hlen.le)

/-- The ASCII characters that a name may start with. -/
def IsNameStart (c : UInt8) : Prop := isalpha c = true ∨ c = 95

/-- The ASCII characters that may be in a name: besides, digits, the full stop and the hyphen. -/
def IsNameChar (c : UInt8) : Prop := isalnum c = true ∨ c = 95 ∨ c = 46 ∨ c = 45

def IsNCName (name : List UInt8) : Prop :=
  ∃ c rest, name = c :: rest ∧ IsNameStart c ∧ ∀ d ∈ rest, IsNameChar d

theorem isNameChar_underscored {d : UInt8} (h : d ∈ underscored c) : IsNameChar d := by
  rcases List.mem_cons.mp h with rfl | h
  · exact Or.inr (Or.inl rfl)
  rcases List.mem_cons.mp h with rfl | h
  · exact Or.inl (isalnum_hexDigit _ (high_lt c) false)
  · rw [List.mem_singleton.mp h]
    exact Or.inl (isalnum_hexDigit _ (low_lt c) false)

theorem isNameChar_escaped {d : UInt8} (h : d ∈ escaped s) : IsNameChar d := by
  obtain ⟨c, -, hd⟩ := List.mem_flatMap.mp h
  split_ifs at hd with hc
  · rw [List.mem_singleton.mp hd]
    exact Or.inl hc
  · exact isNameChar_underscored hd

/-- The name of a string that is not empty. -/
theorem ncnameEscape_cons (hs : 0 ∉ c :: s) (hlen : (c :: s).length < 2 ^ 32) :
    ∃ name, ncnameEscape (cells (c :: s)) = .ok name ∧ IsNCName name ∧
      ncnameUnescape (cells name) = .ok (c :: s) := by
  have htail : 0 ∉ s := fun h => hs (List.mem_cons_of_mem c h)
  have hshort : ([] : List UInt8).length + s.length < 2 ^ 32 := by
    rw [List.length_nil, Nat.zero_add]
    exact (Nat.lt_succ_self _).trans hlen
  have hfull : ([] : List UInt8).length + (c :: s).length < 2 ^ 32 := by
    rw [List.length_nil, Nat.zero_add]
    exact hlen
  rw [cells_cons, ncnameEscape]
  cases hc : isalpha c with
  | true =>
    have halnum : isalnum c = true := by
      unfold isalnum
      rw [hc, Bool.true_or]
    have hescaped : escaped (c :: s) = c :: escaped s := by
      unfold escaped
      rw [List.flatMap_cons, if_pos halnum]
      rfl
    rw [Bool.not_true, if_neg Bool.false_ne_true, ← cells_cons, ncnameEscapeFrom_cells hs hfull]
    refine ⟨escaped (c :: s), rfl, ⟨c, escaped s, hescaped, Or.inl hc, fun d => isNameChar_escaped⟩, ?_⟩
    exact ncnameUnescapeFrom_escaped hfull
  | false =>
    rw [Bool.not_false, if_pos rfl, ncnameEscapeFrom_cells htail hshort]
    refine ⟨underscored c ++ escaped s, rfl, ⟨95, _, rfl, Or.inr rfl, fun d hd => ?_⟩, ?_⟩
    · rcases List.mem_append.mp hd with hd | hd
      · exact isNameChar_underscored (List.mem_cons_of_mem 95 hd)
      · exact isNameChar_escaped hd
    · unfold ncnameUnescape
      rw [cells_append, ncnameUnescapeFrom_underscored, ncnameUnescapeFrom_escaped hshort]
      rfl

/-! ### URLs -/

theorem appendURLFrom_cells {k : ℕ} (hk : k ≤ s.length) :
    appendURLFrom lower k (cells s) = .ok ((s.take k).flatMap (appendURLByte lower)) := by
  induction s generalizing k with
  | nil =>
    cases Nat.le_zero.mp hk
    rfl
  | cons c s ih =>
    cases k with
    | zero => rfl
    | succ k =>
      rw [cells_cons, appendURLFrom, ih (Nat.le_of_succ_le_succ hk), List.take_succ_cons,
        List.flatMap_cons]
      rfl

/-- Without a length the string is written as far as its length is a number of 32 bits. -/
theorem appendURL_cells (hs : 0 ∉ s) :
    appendURL (cells s) (2 ^ 32 - 1) lower =
      .ok ((s.take (s.length % 2 ^ 32)).flatMap (appendURLByte lower)) := by
  unfold appendURL
  rw [if_pos rfl, strlen_cells hs]
  exact appendURLFrom_cells (Nat.mod_le _ _)

theorem appendDecodedURL_other (hzero : c ≠ 0) (hplus : c ≠ 43) (hpercent : c ≠ 37) :
    appendDecodedURL (c :: t) = (appendDecodedURL t).map (c :: ·) := by
  rw [appendDecodedURL.eq_def]
  dsimp only
  rw [if_neg hzero, if_neg hplus, if_neg hpercent]

/-- What stands for a character in a URL is read back. -/
theorem appendDecodedURL_byte (hc : c ≠ 0) :
    appendDecodedURL (appendURLByte lower c ++ t) = (appendDecodedURL t).map (c :: ·) := by
  unfold appendURLByte
  by_cases hspace : c = 32
  · rw [if_pos hspace, hspace]
    change appendDecodedURL (43 :: t) = _
    rw [appendDecodedURL.eq_def]
    rfl
  rw [if_neg hspace]
  by_cases hescape : c &&& 0x80 ≠ 0 ∨ !isalnum c
  · rw [if_pos hescape]
    change appendDecodedURL (37 :: hexDigit lower _ :: hexDigit lower _ :: t) = _
    rw [appendDecodedURL.eq_def]
    dsimp only
    rw [if_neg (by decide), if_neg (by decide), if_pos rfl, if_pos (isxdigit_hexDigit _ (high_lt c) _),
      if_pos (isxdigit_hexDigit _ (low_lt c) _), translateHex_hexDigit _ (high_lt c),
      translateHex_hexDigit _ (low_lt c), UInt8.mul_comm, halves_eq]
  · rw [if_neg hescape]
    have halnum : isalnum c = true := by
      cases h : isalnum c with
      | true => rfl
      | false => exact absurd (Or.inr (by rw [h]; rfl)) hescape
    refine appendDecodedURL_other hc ?_ ?_
    · rintro rfl
      cases halnum
    · rintro rfl
      cases halnum

theorem appendDecodedURL_flatMap (hs : 0 ∉ s) :
    appendDecodedURL (cells (s.flatMap (appendURLByte lower))) = .ok s := by
  induction s with
  | nil =>
    change appendDecodedURL [0] = _
    rw [appendDecodedURL.eq_def]
    rfl
  | cons c s ih =>
    rw [List.mem_cons, not_or] at hs
    rw [List.flatMap_cons, cells_append, appendDecodedURL_byte (Ne.symm hs.1), ih hs.2]
    rfl

/-! ### C++ strings -/

/-- The text of a C++ string without line breaks. -/
def expanded : List UInt8 → List UInt8
  | [] => []
  | c :: s => (expandChar true false (s.head? = some 63) 1 c).1 ++ expanded s

/-- Where a line may end does not matter for the text of a character. -/
theorem expandChar_column (isCpp isUtf8 trigraph : Bool) (m n : ℕ) (c : UInt8) :
    (expandChar isCpp isUtf8 trigraph m c).1 = (expandChar isCpp isUtf8 trigraph n c).1 := by
  unfold expandChar
  split_ifs <;> rfl

theorem expandControl_cells (column : ℕ) :
    appendStringExpandControl false true false s.length column (cells s) = .ok (expanded s) := by
  induction s generalizing column with
  | nil => rfl
  | cons c s ih =>
    rw [cells_cons, List.length_cons, appendStringExpandControl, if_neg]
    · dsimp only
      rw [Bool.false_and, if_neg Bool.false_ne_true, ih]
      have hnext : (decide (s.length ≠ 0) && decide ((cells s).head? = some 63)) =
          decide (s.head? = some 63) := by
        cases s with
        | nil => rfl
        | cons d s => rfl
      rw [hnext, expandChar_column _ _ _ (column + 1) 1]
      rfl
    · rintro ⟨-, -, -, hempty⟩
      exact List.append_ne_nil_of_right_ne_nil s (List.cons_ne_nil 0 []) hempty

section
variable {e : Bool}

theorem decode_other (hzero : c ≠ 0) (hbackslash : c ≠ 92) :
    decodeCppEscapeSequence e (c :: t) = (decodeCppEscapeSequence e t).map (c :: ·) := by
  rw [decodeCppEscapeSequence, if_neg hzero, if_neg hbackslash]

/-- What is read behind a backslash. -/
theorem decode_escape {value : UInt8} {rest : List UInt8}
    (h : cppEscape e t = .ok (value, rest)) :
    decodeCppEscapeSequence e (92 :: t) =
      (decodeCppEscapeSequence e rest).map (value :: ·) := by
  rw [decodeCppEscapeSequence, if_neg (by decide), if_pos rfl]
  split
  · rename_i fault hfault
    rw [h] at hfault
    cases hfault
  · rename_i value' rest' hvalue
    rw [h] at hvalue
    cases hvalue
    rfl

theorem decode_fault {fault : Fault} (h : cppEscape e t = .error fault) :
    decodeCppEscapeSequence e (92 :: t) = .error fault := by
  rw [decodeCppEscapeSequence, if_neg (by decide), if_pos rfl]
  split
  · rename_i fault' hfault
    rw [h] at hfault
    cases hfault
    rfl
  · rename_i value rest hvalue
    rw [h] at hvalue
    cases hvalue

theorem octal_value : ∀ i < 4, ∀ j < 8, ∀ k < 8,
    ((UInt8.ofNat (48 + i) - 48) <<< 3 ||| (UInt8.ofNat (48 + j) - 48)) <<< 3 |||
      (UInt8.ofNat (48 + k) - 48) = UInt8.ofNat (8 * (8 * i + j) + k) := by
  decide

theorem isOctal_digit : ∀ k < 8, isOctal (UInt8.ofNat (48 + k)) = true := by
  decide

theorem octal_first : ∀ i < 4, UInt8.ofNat (48 + i) ≠ 0 ∧ letterEscape (UInt8.ofNat (48 + i)) = none := by
  decide

theorem octal_digits_eq (c : UInt8) :
    8 * (8 * (c.toNat / 64) + c.toNat / 8 % 8) + c.toNat % 8 = c.toNat := by
  have hdiv : c.toNat / 64 = c.toNat / 8 / 8 := (Nat.div_div_eq_div_mul _ 8 8).symm
  rw [hdiv, Nat.div_add_mod, Nat.div_add_mod]

/-- Three digits in base 8 are read as one character, whatever follows. -/
theorem cppEscape_octal : cppEscape e ((octal c).tail ++ t) = .ok (c, t) := by
  have hfirst : c.toNat / 64 < 4 := Nat.div_lt_of_lt_mul c.toNat_lt
  have hsecond : c.toNat / 8 % 8 < 8 := Nat.mod_lt _ (Nat.succ_pos 7)
  have hthird : c.toNat % 8 < 8 := Nat.mod_lt _ (Nat.succ_pos 7)
  obtain ⟨hzero, hletter⟩ := octal_first _ hfirst
  change cppEscape e (UInt8.ofNat _ :: UInt8.ofNat _ :: UInt8.ofNat _ :: t) = _
  rw [cppEscape, if_neg hzero, hletter]
  dsimp only
  rw [if_pos (isOctal_digit _ (hfirst.trans (by decide))), octalDigits,
    if_pos (isOctal_digit _ hsecond), octalDigits, if_pos (isOctal_digit _ hthird), octalDigits,
    octal_value _ hfirst _ hsecond _ hthird, octal_digits_eq, UInt8.ofNat_toNat]

/-- A character other than the question mark is read back. -/
theorem decode_expandChar {trigraph : Bool} {column : ℕ} (hzero : c ≠ 0) (hquestion : c ≠ 63) :
    decodeCppEscapeSequence e ((expandChar true false trigraph column c).1 ++ t) =
      (decodeCppEscapeSequence e t).map (c :: ·) := by
  unfold expandChar
  by_cases hnewline : c = 10
  · rw [if_pos hnewline, hnewline]
    exact decode_escape rfl
  rw [if_neg hnewline]
  by_cases hcomma : c = 44
  · rw [if_pos hcomma, hcomma]
    exact decode_other (by decide) (by decide)
  rw [if_neg hcomma]
  by_cases hreturn : c = 13
  · rw [if_pos hreturn, hreturn]
    exact decode_escape rfl
  rw [if_neg hreturn]
  by_cases htab : c = 9
  · rw [if_pos htab, htab]
    exact decode_escape rfl
  rw [if_neg htab]
  by_cases hquote : c = 34
  · rw [if_pos hquote, hquote]
    exact decode_escape rfl
  rw [if_neg hquote]
  by_cases hsingle : c = 39
  · rw [if_pos hsingle, hsingle]
    exact decode_other (by decide) (by decide)
  rw [if_neg hsingle]
  by_cases hbackslash : c = 92
  · rw [if_pos hbackslash, hbackslash]
    exact decode_escape rfl
  rw [if_neg hbackslash, if_neg hquestion]
  by_cases hplain : 32 ≤ c ∧ (false = true ∨ c ≤ 126)
  · rw [if_pos hplain]
    exact decode_other hzero hbackslash
  · rw [if_neg hplain]
    exact decode_escape cppEscape_octal

/-- Between two question marks there is a backslash. -/
theorem expanded_question (s : List UInt8) :
    expanded (63 :: s) = 63 :: ((if s.head? = some 63 then [92] else []) ++ expanded s) := by
  rw [expanded]
  by_cases hnext : s.head? = some 63
  · rw [if_pos hnext, decide_eq_true hnext]
    rfl
  · rw [if_neg hnext, decide_eq_false hnext]
    rfl

/-- The text of a C++ string is read back. -/
theorem decode_expanded (hs : 0 ∉ s) : decodeCppEscapeSequence e (cells (expanded s)) = .ok s := by
  induction s with
  | nil =>
    change decodeCppEscapeSequence e [0] = _
    rw [decodeCppEscapeSequence, if_pos rfl]
  | cons c s ih =>
    rw [List.mem_cons, not_or] at hs
    have hrest := ih hs.2
    by_cases hquestion : c = 63
    · rw [hquestion, expanded_question, cells_cons, decode_other (by decide) (by decide)]
      suffices decodeCppEscapeSequence e
          (cells ((if s.head? = some 63 then [92] else []) ++ expanded s)) = .ok s by
        rw [this]
        rfl
      by_cases hnext : s.head? = some 63
      · -- behind the backslash a question mark stands for itself
        obtain ⟨s', rfl⟩ := List.head?_eq_some_iff.mp hnext
        rw [if_pos hnext, ← hrest, expanded_question, cells_cons]
        exact (decode_escape rfl).trans (decode_other (by decide) (by decide)).symm
      · rw [if_neg hnext]
        exact hrest
    · rw [expanded, cells_append, decode_expandChar (Ne.symm hs.1) hquestion, hrest]
      rfl

end

/-! ### All strings -/

/-- A `_` where the reader comes to has two characters behind it. -/
def escapesComplete : List UInt8 → Bool
  | [] => true
  | c :: rest =>
    if c = 95 then
      match rest with
      | _ :: _ :: rest => escapesComplete rest
      | _ => false
    else escapesComplete rest

/-- The escapes of a string are read back, and nothing behind the terminators is read. -/
structure Reversible (s : List UInt8) : Prop where
  ncname : ∃ name, ncnameEscape (cells s) = .ok name ∧ (s ≠ [] → IsNCName name) ∧
    ncnameUnescape (cells name) = .ok s
  url : ∀ lower, ∃ url, appendURL (cells s) (2 ^ 32 - 1) lower = .ok url ∧
    appendDecodedURL (cells url) = .ok s
  cpp : ∀ errorIfInvalid, ∃ text, appendStringAsCPP (s.length % 2 ^ 32) (cells s) false = .ok text ∧
    decodeCppEscapeSequence errorIfInvalid (cells text) = .ok s

theorem exists_map_ok {α β : Type} {r : Except Fault α} {f : α → β} :
    (∃ out, r.map f = .ok out) ↔ ∃ out, r = .ok out := by
  cases r with
  | error fault =>
    constructor <;> rintro ⟨out, h⟩ <;> cases h
  | ok value => exact ⟨fun _ => ⟨value, rfl⟩, fun _ => ⟨f value, rfl⟩⟩

theorem ncnameUnescapeFrom_ok_iff (hs : 0 ∉ s) :
    (∃ out, ncnameUnescapeFrom pending (cells s) = .ok out) ↔ escapesComplete s = true := by
  induction s using escapesComplete.induct generalizing pending with
  | case1 =>
    rw [ncnameUnescapeFrom_zero]
    exact ⟨fun _ => rfl, fun _ => ⟨_, rfl⟩⟩
  | case2 h1 h2 rest ih =>
    have hrest : 0 ∉ rest := fun h => hs (by simp only [List.mem_cons, h, or_true])
    rw [escapesComplete, if_pos rfl, cells_cons, cells_cons, cells_cons, ncnameUnescapeFrom,
      if_neg (by decide), if_pos rfl, exists_map_ok]
    exact ih hrest
  | case3 rest hshort =>
    have hfault : ∀ out, ncnameUnescapeFrom pending (cells (95 :: rest)) ≠ .ok out := by
      intro out h
      cases rest with
      | nil => cases h
      | cons h1 rest =>
        cases rest with
        | nil => cases h
        | cons h2 rest => exact hshort h1 h2 rest rfl
    have hincomplete : escapesComplete (95 :: rest) = false := by
      cases rest with
      | nil => rfl
      | cons h1 rest =>
        cases rest with
        | nil => rfl
        | cons h2 rest => exact absurd rfl (hshort h1 h2 rest)
    rw [hincomplete]
    exact ⟨fun ⟨out, h⟩ => absurd h (hfault out), fun h => by cases h⟩
  | case4 c rest hc ih =>
    rw [List.mem_cons, not_or] at hs
    rw [cells_cons, ncnameUnescapeFrom_other (Ne.symm hs.1) hc, ih hs.2,
      escapesComplete.eq_def (c :: rest)]
    dsimp only
    rw [if_neg hc]

/-- A percent sign without two digits stands for itself. -/
theorem appendDecodedURL_percent (hs : 0 ∉ s) :
    appendDecodedURL (37 :: cells s) = (appendDecodedURL (cells s)).map (37 :: ·) ∨
      ∃ h1 h2 rest value, s = h1 :: h2 :: rest ∧
        appendDecodedURL (37 :: cells s) = (appendDecodedURL (cells rest)).map (value :: ·) := by
  rw [appendDecodedURL.eq_def (37 :: cells s)]
  dsimp only
  rw [if_neg (by decide), if_neg (by decide), if_pos rfl]
  cases s with
  | nil => exact Or.inl rfl
  | cons h1 s =>
    rw [cells_cons]
    dsimp only
    by_cases hfirst : isxdigit h1 = true
    · rw [if_pos hfirst]
      cases s with
      | nil => exact Or.inl rfl
      | cons h2 s =>
        rw [cells_cons]
        dsimp only
        by_cases hsecond : isxdigit h2 = true
        · rw [if_pos hsecond]
          exact Or.inr ⟨h1, h2, s, _, rfl, rfl⟩
        · rw [if_neg hsecond]
          exact Or.inl rfl
    · rw [if_neg hfirst]
      exact Or.inl rfl

theorem appendDecodedURL_ok (hs : 0 ∉ s) : ∃ out, appendDecodedURL (cells s) = .ok out := by
  induction hn : s.length using Nat.strong_induction_on generalizing s with
  | _ n ih =>
    cases s with
    | nil => exact ⟨[], rfl⟩
    | cons c s =>
      rw [List.mem_cons, not_or] at hs
      rw [List.length_cons] at hn
      have hrest := ih s.length (hn ▸ Nat.lt_succ_self _) hs.2 rfl
      rw [cells_cons]
      by_cases hpercent : c = 37
      · rw [hpercent]
        rcases appendDecodedURL_percent hs.2 with hself | ⟨h1, h2, rest, value, hdigits, hvalue⟩
        · rw [hself, exists_map_ok]
          exact hrest
        · rw [hvalue, exists_map_ok]
          have hlen : rest.length < n := by
            rw [← hn, hdigits, List.length_cons, List.length_cons]
            omega
          refine ih rest.length hlen (fun h => hs.2 ?_) rfl
          rw [hdigits]
          exact List.mem_cons_of_mem h1 (List.mem_cons_of_mem h2 h)
      · by_cases hplus : c = 43
        · rw [hplus, appendDecodedURL.eq_def]
          dsimp only
          rw [if_neg (by decide), if_pos rfl, exists_map_ok]
          exact hrest
        · rw [appendDecodedURL_other (Ne.symm hs.1) hplus hpercent, exists_map_ok]
          exact hrest

/-- What a reader of digits has left of a string. -/
def Leaves (s : List UInt8) (r : Except Fault (UInt8 × List UInt8)) : Prop :=
  ∃ value rest, r = .ok (value, cells rest) ∧ 0 ∉ rest ∧ rest.length ≤ s.length

theorem octalDigits_leaves {n : ℕ} (hs : 0 ∉ s) : Leaves s (octalDigits n c (cells s)) := by
  induction n generalizing c s with
  | zero => exact ⟨c, s, rfl, hs, le_refl _⟩
  | succ n ih =>
    cases s with
    | nil => exact ⟨c, [], rfl, hs, le_refl _⟩
    | cons d s =>
      rw [cells_cons, octalDigits]
      by_cases hd : isOctal d = true
      · rw [if_pos hd]
        obtain ⟨value, rest, hresult, hzero, hlen⟩ :=
          ih (c := c <<< 3 ||| (d - 48)) fun h => hs (List.mem_cons_of_mem d h)
        exact ⟨value, rest, hresult, hzero, hlen.trans (Nat.le_succ _)⟩
      · rw [if_neg hd]
        exact ⟨c, d :: s, rfl, hs, le_refl _⟩

theorem hexDigits_leaves (hs : 0 ∉ s) : Leaves s (hexDigits c (cells s)) := by
  induction s generalizing c with
  | nil => exact ⟨c, [], rfl, hs, le_refl _⟩
  | cons d s ih =>
    rw [cells_cons, hexDigits]
    by_cases hd : isxdigit d = true
    · rw [if_pos hd]
      obtain ⟨value, rest, hresult, hzero, hlen⟩ :=
        ih (c := c <<< 4 ||| hex2num d) fun h => hs (List.mem_cons_of_mem d h)
      exact ⟨value, rest, hresult, hzero, hlen.trans (Nat.le_succ _)⟩
    · rw [if_neg hd]
      exact ⟨c, d :: s, rfl, hs, le_refl _⟩

theorem cppEscape_leaves (hs : 0 ∉ s) (e : Bool) :
    Leaves s (cppEscape e (cells s)) ∨
      ∃ code message, cppEscape e (cells s) = .error (.thrown code message) := by
  cases s with
  | nil => exact Or.inl ⟨92, [], rfl, hs, le_refl _⟩
  | cons next s =>
    have htail : 0 ∉ s := fun h => hs (List.mem_cons_of_mem next h)
    rw [List.mem_cons, not_or] at hs
    rw [cells_cons, cppEscape, if_neg (Ne.symm hs.1)]
    cases hletter : letterEscape next with
    | some value => exact Or.inl ⟨value, s, rfl, htail, Nat.le_succ _⟩
    | none =>
      dsimp only
      by_cases hoctal : isOctal next = true
      · rw [if_pos hoctal]
        obtain ⟨value, rest, hresult, hzero, hlen⟩ :=
          octalDigits_leaves (n := 2) (c := next - 48) htail
        exact Or.inl ⟨value, rest, hresult, hzero, hlen.trans (Nat.le_succ _)⟩
      rw [if_neg hoctal]
      by_cases hx : next = 120
      · rw [if_pos hx]
        obtain ⟨value, rest, hresult, hzero, hlen⟩ := hexDigits_leaves (c := 0) htail
        exact Or.inl ⟨value, rest, hresult, hzero, hlen.trans (Nat.le_succ _)⟩
      rw [if_neg hx]
      cases e with
      | true => exact Or.inr ⟨_, _, rfl⟩
      | false =>
        refine Or.inl ⟨92, next :: s, rfl, fun h => ?_, le_refl _⟩
        rcases List.mem_cons.mp h with hzero | hmem
        · exact hs.1 hzero
        · exact htail hmem

theorem decode_ne_readsPast (hs : 0 ∉ s) (e : Bool) :
    decodeCppEscapeSequence e (cells s) ≠ .error .readsPast := by
  induction hn : s.length using Nat.strong_induction_on generalizing s with
  | _ n ih =>
    cases s with
    | nil =>
      rw [cells_nil, decodeCppEscapeSequence, if_pos rfl]
      intro h
      cases h
    | cons c s =>
      rw [List.mem_cons, not_or] at hs
      rw [List.length_cons] at hn
      have hmap : ∀ rest : List UInt8, 0 ∉ rest → rest.length ≤ s.length → ∀ value,
          (decodeCppEscapeSequence e (cells rest)).map (value :: ·) ≠ .error .readsPast := by
        intro rest hrest hlen value h
        cases hdecode : decodeCppEscapeSequence e (cells rest) with
        | ok out =>
          rw [hdecode] at h
          cases h
        | error fault =>
          rw [hdecode] at h
          cases h
          exact ih rest.length (hn ▸ Nat.lt_succ_of_le hlen) hrest rfl hdecode
      rw [cells_cons]
      by_cases hbackslash : c = 92
      · rw [hbackslash]
        rcases cppEscape_leaves hs.2 e with ⟨value, rest, hresult, hzero, hlen⟩ |
          ⟨code, message, hthrown⟩
        · rw [decode_escape hresult]
          exact hmap rest hzero hlen value
        · rw [decode_fault hthrown]
          intro h
          cases h
      · rw [decode_other (Ne.symm hs.1) hbackslash]
        exact hmap s hs.2 (le_refl _) c

theorem reversible_iff (hs : 0 ∉ s) : Reversible s ↔ s ≠ [] ∧ s.length < 2 ^ 32 := by
  constructor
  · intro h
    constructor
    · rintro rfl
      obtain ⟨name, hname, -⟩ := h.ncname
      cases hname
    · obtain ⟨url, hurl, hdecoded⟩ := h.url false
      rw [appendURL_cells hs] at hurl
      cases hurl
      rw [appendDecodedURL_flatMap fun hmem => hs (List.mem_of_mem_take hmem)] at hdecoded
      have hlen := congrArg List.length (Except.ok.inj hdecoded)
      rw [List.length_take_of_le (Nat.mod_le _ _)] at hlen
      rw [← hlen]
      exact Nat.mod_lt _ (Nat.two_pow_pos 32)
  · rintro ⟨hne, hlen⟩
    refine ⟨?_, fun lower => ?_, fun e => ?_⟩
    · cases s with
      | nil => exact absurd rfl hne
      | cons c s =>
        obtain ⟨name, hname, hvalid, hback⟩ := ncnameEscape_cons hs hlen
        exact ⟨name, hname, fun _ => hvalid, hback⟩
    · rw [appendURL_cells hs, Nat.mod_eq_of_lt hlen, List.take_length]
      exact ⟨_, rfl, appendDecodedURL_flatMap hs⟩
    · rw [Nat.mod_eq_of_lt hlen]
      exact ⟨_, expandControl_cells 0, decode_expanded hs⟩

end Escape
