import HpccPlatform.Escape.Json

/-!
# The escapes of a JSON string

A string is cut into plain bytes and escapes.  What it stands for is said of the pieces, where two
groups of four digits may stand for one character; the decoder takes one piece at a time.
-/

namespace Escape

open Ctype

/-- A byte, an escape of one letter, what stands behind `\u` (four bytes, or fewer at the end) and a
backslash at the end. -/
inductive JsonPiece where
  | plain (c : UInt8)
  | escape (d : UInt8)
  | group (g : List UInt8)
  | cut
  deriving DecidableEq

open JsonPiece

def pieces : List UInt8 → List JsonPiece
  | [] => []
  | c :: j =>
    if c ≠ 92 then plain c :: pieces j
    else
      match j with
      | [] => [cut]
      | d :: rest =>
        if d = 117 then
          match rest with
          | h1 :: h2 :: h3 :: h4 :: rest => group [h1, h2, h3, h4] :: pieces rest
          | rest => [group rest]
        else escape d :: pieces rest

/-! ### What a string stands for -/

/-- One of the escapes of JSON, with four digits in base 16 behind `\u`. -/
def JsonPiece.valid : JsonPiece → Bool
  | plain _ => true
  | escape d => (jsonEscape d).isSome
  | group g => g.length = 4 && g.all isxdigit
  | cut => false

/-- The number of a group. -/
def hexNumber (g : List UInt8) : ℕ :=
  g.foldl (fun value h => value * 16 + (digitValue 16 h).getD 0) 0

def isHigh (v : ℕ) : Bool := 0xD800 ≤ v && v < 0xDC00

def isLow (v : ℕ) : Bool := 0xDC00 ≤ v && v < 0xE000

/-- The character of a pair of surrogates. -/
def pairNumber (high low : ℕ) : ℕ := 0x10000 + (high - 0xD800) * 0x400 + (low - 0xDC00)

/-- The number in UTF-8; a surrogate alone, which is no character, in three bytes. -/
def utf8Of (v : ℕ) : List UInt8 :=
  if 0xD800 ≤ v ∧ v < 0xE000 then
    [UInt8.ofNat (v / 4096 + 0xE0), UInt8.ofNat (v / 64 % 64 + 0x80), UInt8.ofNat (v % 64 + 0x80)]
  else String.utf8EncodeChar (Char.ofNat v)

/-- The text of a piece by itself. -/
def JsonPiece.text : JsonPiece → List UInt8
  | plain c => [c]
  | escape d => (jsonEscape d).toList
  | group g => utf8Of (hexNumber g)
  | cut => []

/-- The text of a string, with one character for two surrogates. -/
def denote : List JsonPiece → List UInt8
  | [] => []
  | group g :: group g' :: ps =>
    if isHigh (hexNumber g) ∧ isLow (hexNumber g') then
      utf8Of (pairNumber (hexNumber g) (hexNumber g')) ++ denote ps
    else (group g).text ++ denote (group g' :: ps)
  | p :: ps => p.text ++ denote ps

/-- How often two surrogates stand for one character. -/
def pairs : List JsonPiece → ℕ
  | [] => 0
  | group g :: group g' :: ps =>
    if isHigh (hexNumber g) ∧ isLow (hexNumber g') then pairs ps + 1
    else pairs (group g' :: ps)
  | _ :: ps => pairs ps

/-- The decoder throws exactly where an escape is not one of JSON, and gives the text otherwise. -/
def DecodesExactly (j : List UInt8) : Prop :=
  ∀ after, if ∀ p ∈ pieces j, p.valid = true then
      decodeJSON (j ++ after) j.length = .ok (denote (pieces j))
    else ∃ code message, decodeJSON (j ++ after) j.length = .error (.thrown code message)

/-! ### What the decoder does -/

/-- The decoder refuses the escape. -/
def JsonPiece.rejected : JsonPiece → Bool
  | plain _ => false
  | escape d => (jsonEscape d).isNone
  | group g => g.length ≠ 4 || match jsonGroup g with
    | .ok _ => false
    | .error _ => true
  | cut => false

/-- The pieces one after the other. -/
def decodePieces (after : List UInt8) : List JsonPiece → Except Fault (List UInt8)
  | [] => .ok []
  | plain c :: ps => (decodePieces after ps).map (c :: ·)
  | escape d :: ps =>
    match jsonEscape d with
    | some e => (decodePieces after ps).map (e :: ·)
    | none => .error invalidEscape
  | group g :: ps =>
    if g.length = 4 then (jsonGroup g).bind fun text => (decodePieces after ps).map (text ++ ·)
    else .error invalidUEscape
  | cut :: _ =>
    match after with
    | [] => .error .readsPast
    | d :: _ =>
      if d = 117 then .error invalidUEscape
      else
        match jsonEscape d with
        | some e => .ok [e]
        | none => .error invalidEscape

section
variable {n : ℕ} {c d : UInt8} {j rest : List UInt8}

attribute [local simp] decodeJSONFrom pieces

theorem decodeJSONFrom_plain (hzero : c ≠ 0) (hc : c ≠ 92) :
    decodeJSONFrom (n + 1) (c :: j) = (decodeJSONFrom n j).map (c :: ·) := by
  rw [decodeJSONFrom.eq_def]
  dsimp only
  rw [if_neg hzero, if_pos hc]

theorem decodeJSONFrom_escape (hd : d ≠ 117) :
    decodeJSONFrom (n + 1) (92 :: d :: rest) =
      match jsonEscape d with
      | some e => (decodeJSONFrom (n - 1) rest).map (e :: ·)
      | none => .error invalidEscape := by
  rw [decodeJSONFrom.eq_def]
  dsimp only
  rw [if_neg (by decide), if_neg (by decide)]
  refine (if_neg hd).trans ?_
  cases jsonEscape d <;> rfl

theorem decodeJSONFrom_group {h1 h2 h3 h4 : UInt8} (hn : 5 ≤ n) :
    decodeJSONFrom (n + 1) (92 :: 117 :: h1 :: h2 :: h3 :: h4 :: rest) =
      (jsonGroup [h1, h2, h3, h4]).bind fun text =>
        (decodeJSONFrom (n - 5) rest).map (text ++ ·) := by
  rw [decodeJSONFrom.eq_def]
  dsimp only
  rw [if_neg (by decide), if_neg (by decide), if_pos rfl, if_pos hn]

theorem decodeJSONFrom_short (hn : ¬5 ≤ n) :
    decodeJSONFrom (n + 1) (92 :: 117 :: rest) = .error invalidUEscape := by
  rw [decodeJSONFrom.eq_def]
  dsimp only
  rw [if_neg (by decide), if_neg (by decide), if_pos rfl, if_neg hn]

theorem pieces_plain (hc : c ≠ 92) : pieces (c :: j) = plain c :: pieces j := by
  rw [pieces.eq_def]
  dsimp only
  rw [if_pos hc]

theorem pieces_escape (hd : d ≠ 117) : pieces (92 :: d :: rest) = escape d :: pieces rest := by
  rw [pieces.eq_def]
  dsimp only
  rw [if_neg (by decide), if_neg hd]

theorem pieces_group {h1 h2 h3 h4 : UInt8} :
    pieces (92 :: 117 :: h1 :: h2 :: h3 :: h4 :: rest) = group [h1, h2, h3, h4] :: pieces rest := by
  rw [pieces.eq_def]
  dsimp only
  rw [if_neg (by decide), if_pos rfl]

theorem pieces_short (hshort : rest.length < 4) : pieces (92 :: 117 :: rest) = [group rest] := by
  rw [pieces.eq_def]
  dsimp only
  rw [if_neg (by decide), if_pos rfl]
  match rest, hshort with
  | [], _ => rfl
  | [_], _ => rfl
  | [_, _], _ => rfl
  | [_, _, _], _ => rfl

end

theorem length_of_short {rest : List UInt8} (hshort : ∀ h1 h2 h3 h4 (rest' : List UInt8),
    rest = h1 :: h2 :: h3 :: h4 :: rest' → False) : rest.length < 4 := by
  by_contra hge
  match rest, hge with
  | h1 :: h2 :: h3 :: h4 :: rest, _ => exact hshort h1 h2 h3 h4 rest rfl
  | [], hge => exact hge (show 0 < 4 by decide)
  | [_], hge => exact hge (show 1 < 4 by decide)
  | [_, _], hge => exact hge (show 2 < 4 by decide)
  | [_, _, _], hge => exact hge (show 3 < 4 by decide)

/-- Cut into pieces, a string is decoded piece by piece. -/
theorem decodeJSONFrom_pieces (after : List UInt8) {j : List UInt8} (hj : 0 ∉ j) :
    decodeJSONFrom j.length (j ++ after) = decodePieces after (pieces j) := by
  induction j using pieces.induct with
  | case1 => cases after <;> rfl
  | case2 c j hc ih =>
    rw [List.mem_cons, not_or] at hj
    rw [List.length_cons, List.cons_append, decodeJSONFrom_plain (Ne.symm hj.1) hc, pieces_plain hc,
      ih hj.2]
    rfl
  | case3 c hc =>
    rw [not_not] at hc
    rw [hc]
    cases after with
    | nil => rfl
    | cons d after =>
      change decodeJSONFrom (0 + 1) (92 :: d :: after) =
        if d = 117 then .error invalidUEscape else _
      by_cases hd : d = 117
      · rw [if_pos hd, hd, decodeJSONFrom_short (by decide)]
      · rw [if_neg hd, decodeJSONFrom_escape hd]
        cases jsonEscape d with
        | none => rfl
        | some e => cases after <;> rfl
  | case4 c hc h1 h2 h3 h4 rest ih =>
    rw [not_not] at hc
    rw [hc, pieces_group, decodePieces, if_pos (show [h1, h2, h3, h4].length = 4 from rfl),
      ← ih fun h => hj (by simp only [List.mem_cons, h, or_true])]
    exact decodeJSONFrom_group (Nat.le_add_left 5 rest.length)
  | case5 c hc rest hshort =>
    rw [not_not] at hc
    have hlen := length_of_short hshort
    rw [hc, pieces_short hlen, decodePieces, if_neg hlen.ne]
    exact decodeJSONFrom_short fun hle => absurd (Nat.le_of_succ_le_succ hle) (not_le.mpr hlen)
  | case6 c hc d rest hd ih =>
    rw [not_not] at hc
    have hrest := ih fun h => hj (List.mem_cons_of_mem c (List.mem_cons_of_mem d h))
    rw [hc, pieces_escape hd, decodePieces, ← hrest]
    exact decodeJSONFrom_escape hd

/-! ### Groups -/

theorem digit_facts : ∀ n < 256, isxdigit (UInt8.ofNat n) = true →
    (digitValue 16 (UInt8.ofNat n)).isSome = true ∧ isspace (UInt8.ofNat n) = false ∧
      UInt8.ofNat n ≠ 45 ∧ UInt8.ofNat n ≠ 43 ∧ UInt8.ofNat n ≠ 120 ∧ UInt8.ofNat n ≠ 88 := by
  decide +kernel

/-- A digit has a value, and is no space, no sign and no part of a prefix. -/
theorem exists_digitValue {h : UInt8} (hh : isxdigit h = true) :
    (∃ v < 16, digitValue 16 h = some v) ∧ isspace h = false ∧ h ≠ 45 ∧ h ≠ 43 ∧
      h ≠ 120 ∧ h ≠ 88 := by
  have hfacts := digit_facts h.toNat h.toNat_lt
  rw [UInt8.ofNat_toNat] at hfacts
  obtain ⟨hsome, hrest⟩ := hfacts hh
  obtain ⟨v, hv⟩ := Option.isSome_iff_exists.mp hsome
  exact ⟨⟨v, digitValue_lt hv, hv⟩, hrest⟩

/-- Four digits are read as their number. -/
theorem strtoul_group {g : List UInt8} (hlen : g.length = 4) (hg : ∀ h ∈ g, isxdigit h = true) :
    strtoul 16 (cells g) = .ok (hexNumber g, [0]) ∧ hexNumber g < 0x10000 := by
  obtain ⟨h1, h2, h3, h4, rfl⟩ : ∃ h1 h2 h3 h4, g = [h1, h2, h3, h4] := List.length_eq_four.mp hlen
  obtain ⟨⟨v1, hv1, hd1⟩, hspace, hminus, hplus, -⟩ := exists_digitValue (hg h1 (by simp))
  obtain ⟨⟨v2, hv2, hd2⟩, -, -, -, hx⟩ := exists_digitValue (hg h2 (by simp))
  obtain ⟨⟨v3, hv3, hd3⟩, -⟩ := exists_digitValue (hg h3 (by simp))
  obtain ⟨⟨v4, hv4, hd4⟩, -⟩ := exists_digitValue (hg h4 (by simp))
  have hnumber : hexNumber [h1, h2, h3, h4] = ((v1 * 16 + v2) * 16 + v3) * 16 + v4 := by
    unfold hexNumber
    rw [List.foldl_cons, List.foldl_cons, List.foldl_cons, List.foldl_cons, hd1, hd2, hd3, hd4,
      Nat.zero_mul, Nat.zero_add]
    rfl
  have hlt : hexNumber [h1, h2, h3, h4] < 0x10000 := by
    rw [hnumber]
    omega
  have hread : readDigits 16 0 [h1, h2, h3, h4, 0] = .ok (hexNumber [h1, h2, h3, h4], [0]) := by
    rw [readDigits_digit hd1, readDigits_digit hd2, readDigits_digit hd3, readDigits_digit hd4,
      readDigits_end rfl, hnumber, Nat.zero_mul, Nat.zero_add]
  refine ⟨strtoul_digits hspace hminus hplus hx ?_ hread (hlt.trans (by decide)), hlt⟩
  rw [hd1]
  rfl

theorem toNat_ofNat {v : ℕ} (hv : v.isValidChar) : (Char.ofNat v).toNat = v := by
  unfold Char.ofNat
  rw [dif_pos hv]
  rfl

/-- A number of 16 bits is written in UTF-8, also that of a surrogate. -/
theorem writeUtf8_utf8Of {v : ℕ} (hv : v < 0x10000) : writeUtf8 v = .ok (utf8Of v) := by
  unfold utf8Of
  by_cases hsurrogate : 0xD800 ≤ v ∧ v < 0xE000
  · have hlead : markedByte 0xE0 12 v = _ := markedByte_eq 4 14 (Nat.div_lt_of_lt_mul hv)
    have hzero := trailByte_eq 0 v
    rw [Nat.pow_zero, Nat.div_one] at hzero
    have hhigh : v / 2 ^ 12 % 2 ^ 4 = v / 2 ^ 12 := Nat.mod_eq_of_lt (Nat.div_lt_of_lt_mul hv)
    unfold writeUtf8
    rw [if_pos hsurrogate, if_neg, if_neg, if_pos hv, hlead, trailByte_eq 6, hzero, hhigh]
    · rfl
    · exact not_lt.mpr ((by decide : 0x800 ≤ 0xD800).trans hsurrogate.1)
    · exact not_lt.mpr ((by decide : 0x80 ≤ 0xD800).trans hsurrogate.1)
  · rw [if_neg hsurrogate]
    have hvalid : v.isValidChar := by
      rcases Nat.lt_or_ge v 0xD800 with hlow | hhigh
      · exact Or.inl hlow
      · refine Or.inr ⟨?_, hv.trans (by decide)⟩
        exact not_le.mp fun hle => hsurrogate ⟨hhigh, Nat.lt_succ_of_le hle⟩
    have h := writeUtf8_char (Char.ofNat v)
    rwa [toNat_ofNat hvalid] at h

theorem jsonGroup_valid {g : List UInt8} (hg : (group g).valid = true) :
    g.length = 4 ∧ jsonGroup g = .ok (group g).text := by
  unfold JsonPiece.valid at hg
  rw [Bool.and_eq_true, decide_eq_true_eq, List.all_eq_true] at hg
  obtain ⟨hlen, hdigits⟩ := hg
  obtain ⟨hnumber, hlt⟩ := strtoul_group hlen hdigits
  refine ⟨hlen, ?_⟩
  unfold jsonGroup
  rw [hnumber]
  change writeUtf8 (hexNumber g % 2 ^ 32) = _
  rw [Nat.mod_eq_of_lt (hlt.trans (by decide)), writeUtf8_utf8Of hlt]
  rfl

/-! ### Pairs -/

theorem length_utf8Of_surrogate {v : ℕ} (h : isHigh v = true ∨ isLow v = true) :
    (utf8Of v).length = 3 := by
  have hsurrogate : 0xD800 ≤ v ∧ v < 0xE000 := by
    rcases h with h | h
    · unfold isHigh at h
      rw [Bool.and_eq_true, decide_eq_true_eq, decide_eq_true_eq] at h
      exact ⟨h.1, h.2.trans (by decide)⟩
    · unfold isLow at h
      rw [Bool.and_eq_true, decide_eq_true_eq, decide_eq_true_eq] at h
      exact ⟨(by decide : 0xD800 ≤ 0xDC00).trans h.1, h.2⟩
  unfold utf8Of
  rw [if_pos hsurrogate]
  rfl

theorem length_utf8Of_pair {high low : ℕ} (hhigh : isHigh high = true) (hlow : isLow low = true) :
    (utf8Of (pairNumber high low)).length = 4 := by
  unfold isHigh at hhigh
  unfold isLow at hlow
  rw [Bool.and_eq_true, decide_eq_true_eq, decide_eq_true_eq] at hhigh hlow
  have hge : 0x10000 ≤ pairNumber high low := by
    unfold pairNumber
    exact (Nat.le_add_right _ _).trans (Nat.le_add_right _ _)
  have hlt : pairNumber high low < 0x110000 := by
    unfold pairNumber
    omega
  have hvalid : (pairNumber high low).isValidChar :=
    Or.inr ⟨(by decide : 0xDFFF < 0x10000).trans_le hge, hlt⟩
  have hsurrogate : ¬(0xD800 ≤ pairNumber high low ∧ pairNumber high low < 0xE000) :=
    fun h => absurd (hge.trans_lt h.2) (by decide)
  unfold utf8Of
  rw [if_neg hsurrogate, String.length_utf8EncodeChar, Utf8.utf8Size_eq, toNat_ofNat hvalid,
    if_neg, if_neg, if_neg]
  · exact not_le.mpr ((by decide : 0xffff < 0x10000).trans_le hge)
  · exact not_le.mpr ((by decide : 0x7ff < 0x10000).trans_le hge)
  · exact not_le.mpr ((by decide : 0x7f < 0x10000).trans_le hge)

/-- The text of the pieces one by one has two bytes more for each pair. -/
theorem length_flatMap_text (ps : List JsonPiece) :
    (ps.flatMap JsonPiece.text).length = (denote ps).length + 2 * pairs ps ∧
      (pairs ps = 0 → denote ps = ps.flatMap JsonPiece.text) := by
  induction ps using denote.induct with
  | case1 => exact ⟨rfl, fun _ => rfl⟩
  | case2 g g' ps hpair ih =>
    have hlen : (utf8Of (hexNumber g)).length + (utf8Of (hexNumber g')).length =
        (utf8Of (pairNumber (hexNumber g) (hexNumber g'))).length + 2 := by
      rw [length_utf8Of_surrogate (Or.inl hpair.1), length_utf8Of_surrogate (Or.inr hpair.2),
        length_utf8Of_pair hpair.1 hpair.2]
    rw [denote, if_pos hpair, pairs, if_pos hpair]
    refine ⟨?_, fun h => absurd h (Nat.succ_ne_zero _)⟩
    rw [List.flatMap_cons, List.flatMap_cons, List.length_append, List.length_append,
      List.length_append, ih.1]
    change (utf8Of (hexNumber g)).length + ((utf8Of (hexNumber g')).length + _) = _
    omega
  | case3 g g' ps hnot ih =>
    rw [denote, if_neg hnot, pairs, if_neg hnot, List.flatMap_cons, List.length_append, ih.1,
      List.length_append]
    exact ⟨(Nat.add_assoc _ _ _).symm, fun h => congrArg _ (ih.2 h)⟩
  | case4 p ps hother ih =>
    have hdenote : denote (p :: ps) = p.text ++ denote ps := by
      rw [denote.eq_def]
      split
      · rename_i heq
        cases heq
      · rename_i heq
        cases heq
        exact absurd rfl (hother _ _ _ rfl)
      · rename_i heq
        cases heq
        rfl
    have hpairs : pairs (p :: ps) = pairs ps := by
      rw [pairs.eq_def]
      split
      · rename_i heq
        cases heq
      · rename_i heq
        cases heq
        exact absurd rfl (hother _ _ _ rfl)
      · rename_i heq
        cases heq
        rfl
    rw [hdenote, hpairs, List.flatMap_cons, List.length_append, ih.1, List.length_append]
    exact ⟨(Nat.add_assoc _ _ _).symm, fun h => congrArg _ (ih.2 h)⟩

/-! ### All strings -/

/-- A group that is refused is refused with an exception. -/
theorem jsonGroup_error {g : List UInt8} {fault : Fault} (h : jsonGroup g = .error fault) :
    ∃ code message, fault = .thrown code message := by
  obtain ⟨r, hnumber⟩ := @strtoul_cells 16 g rfl
  unfold jsonGroup at h
  rw [hnumber] at h
  change (if r.2.head? = some 0 then _ else _) = _ at h
  split_ifs at h
  · unfold writeUtf8 at h
    split_ifs at h
    cases h
    exact ⟨_, _, rfl⟩
  · cases h
    exact ⟨_, _, rfl⟩

theorem rejected_of_valid {p : JsonPiece} (h : p.valid = true) : p.rejected = false := by
  cases p with
  | plain c => rfl
  | escape d =>
    change (jsonEscape d).isSome = true at h
    change (jsonEscape d).isNone = false
    rw [← Option.not_isSome, h]
    rfl
  | group g =>
    obtain ⟨hlen, hgroup⟩ := jsonGroup_valid h
    change (decide (g.length ≠ 4) || match jsonGroup g with
      | .ok _ => false
      | .error _ => true) = false
    rw [hgroup, hlen]
    rfl
  | cut => rfl

/-- A backslash at the end is the last piece. -/
def CutLast : List JsonPiece → Prop
  | [] => True
  | cut :: ps => ps = []
  | _ :: ps => CutLast ps

theorem cutLast_pieces (j : List UInt8) : CutLast (pieces j) := by
  induction j using pieces.induct with
  | case1 => trivial
  | case2 c j hc ih =>
    rw [pieces_plain hc]
    exact ih
  | case3 c hc =>
    rw [not_not] at hc
    rw [hc]
    exact rfl
  | case4 c hc h1 h2 h3 h4 rest ih =>
    rw [not_not] at hc
    rw [hc, pieces_group]
    exact ih
  | case5 c hc rest hshort =>
    rw [not_not] at hc
    rw [hc, pieces_short (length_of_short hshort)]
    trivial
  | case6 c hc d rest hd ih =>
    rw [not_not] at hc
    rw [hc, pieces_escape hd]
    exact ih

/-- Where an escape is refused the decoder throws, whatever else there is. -/
theorem decodePieces_rejected (after : List UInt8) {ps : List JsonPiece} (hcut : CutLast ps)
    (h : ∃ p ∈ ps, p.rejected = true) :
    ∃ code message, decodePieces after ps = .error (.thrown code message) := by
  induction ps with
  | nil =>
    obtain ⟨p, hp, -⟩ := h
    cases hp
  | cons p ps ih =>
    have hrest : p.rejected = false → ∃ q ∈ ps, q.rejected = true := by
      intro hp
      obtain ⟨q, hq, hrejected⟩ := h
      rcases List.mem_cons.mp hq with rfl | hq
      · rw [hp] at hrejected
        cases hrejected
      · exact ⟨q, hq, hrejected⟩
    cases p with
    | plain c =>
      obtain ⟨code, message, hthrown⟩ := ih hcut (hrest rfl)
      exact ⟨code, message, by rw [decodePieces, hthrown]; rfl⟩
    | escape d =>
      rw [decodePieces]
      cases hd : jsonEscape d with
      | none => exact ⟨_, _, rfl⟩
      | some e =>
        have hp : (escape d).rejected = false := by
          change (jsonEscape d).isNone = false
          rw [hd]
          rfl
        obtain ⟨code, message, hthrown⟩ := ih hcut (hrest hp)
        exact ⟨code, message, by rw [hthrown]; rfl⟩
    | group g =>
      rw [decodePieces]
      by_cases hlen : g.length = 4
      · rw [if_pos hlen]
        cases hg : jsonGroup g with
        | error fault =>
          obtain ⟨code, message, rfl⟩ := jsonGroup_error hg
          exact ⟨code, message, rfl⟩
        | ok text =>
          have hp : (group g).rejected = false := by
            change (decide (g.length ≠ 4) || match jsonGroup g with
              | .ok _ => false
              | .error _ => true) = false
            rw [hg, hlen]
            rfl
          obtain ⟨code, message, hthrown⟩ := ih hcut (hrest hp)
          exact ⟨code, message, by rw [hthrown]; rfl⟩
      · rw [if_neg hlen]
        exact ⟨_, _, rfl⟩
    | cut =>
      have hempty : ps = [] := hcut
      obtain ⟨q, hq, -⟩ := hrest rfl
      rw [hempty] at hq
      cases hq

/-- In front of a letter of an escape nothing else is refused. -/
theorem decodePieces_accepted {ps : List JsonPiece} (h : ∀ p ∈ ps, p.rejected = false) :
    ∃ out, decodePieces [110] ps = .ok out := by
  induction ps with
  | nil => exact ⟨[], rfl⟩
  | cons p ps ih =>
    obtain ⟨out, hout⟩ := ih fun q hq => h q (List.mem_cons_of_mem p hq)
    have hp := h p List.mem_cons_self
    cases p with
    | plain c => exact ⟨c :: out, by rw [decodePieces, hout]; rfl⟩
    | escape d =>
      change (jsonEscape d).isNone = false at hp
      rw [decodePieces]
      cases hd : jsonEscape d with
      | none =>
        rw [hd] at hp
        cases hp
      | some e => exact ⟨e :: out, by rw [hout]; rfl⟩
    | group g =>
      change (decide (g.length ≠ 4) || match jsonGroup g with
        | .ok _ => false
        | .error _ => true) = false at hp
      rw [Bool.or_eq_false_iff, decide_eq_false_iff_not, not_not] at hp
      rw [decodePieces, if_pos hp.1]
      cases hg : jsonGroup g with
      | error fault =>
        rw [hg] at hp
        cases hp.2
      | ok text => exact ⟨text ++ out, by rw [hout]; rfl⟩
    | cut => exact ⟨[10], rfl⟩

/-- Where all escapes are those of JSON the pieces are written one by one. -/
theorem decodePieces_valid (after : List UInt8) {ps : List JsonPiece}
    (h : ∀ p ∈ ps, p.valid = true) :
    decodePieces after ps = .ok (ps.flatMap JsonPiece.text) := by
  induction ps with
  | nil => rfl
  | cons p ps ih =>
    have hrest := ih fun q hq => h q (List.mem_cons_of_mem p hq)
    have hp := h p List.mem_cons_self
    cases p with
    | plain c =>
      rw [decodePieces, hrest]
      rfl
    | escape d =>
      change (jsonEscape d).isSome = true at hp
      obtain ⟨e, he⟩ := Option.isSome_iff_exists.mp hp
      have htext : (escape d).text = [e] := by
        change (jsonEscape d).toList = [e]
        rw [he]
        rfl
      rw [decodePieces, he, hrest, List.flatMap_cons, htext]
      rfl
    | group g =>
      obtain ⟨hlen, hgroup⟩ := jsonGroup_valid hp
      rw [decodePieces, if_pos hlen, hgroup, hrest]
      rfl
    | cut => cases hp

theorem decodeJSON_pieces (after : List UInt8) {j : List UInt8} (hj : 0 ∉ j)
    (hlen : j.length < 2 ^ 32 - 1) :
    decodeJSON (j ++ after) j.length = decodePieces after (pieces j) := by
  unfold decodeJSON
  rw [if_neg hlen.ne, decodeJSONFrom_pieces after hj]

/-- The decoder is exact for a string with an escape that it refuses, and for one whose escapes are
all those of JSON and in which no two stand for one character. -/
theorem decodesExactly_iff {j : List UInt8} (hj : 0 ∉ j) (hlen : j.length < 2 ^ 32 - 1) :
    DecodesExactly j ↔ (∃ p ∈ pieces j, p.rejected = true) ∨
      (∀ p ∈ pieces j, p.valid = true) ∧ pairs (pieces j) = 0 := by
  obtain ⟨hcount, hsame⟩ := length_flatMap_text (pieces j)
  constructor
  · intro h
    by_cases hrejected : ∃ p ∈ pieces j, p.rejected = true
    · exact Or.inl hrejected
    · have haccepted : ∀ p ∈ pieces j, p.rejected = false := by
        intro p hp
        cases hr : p.rejected with
        | false => rfl
        | true => exact absurd ⟨p, hp, hr⟩ hrejected
      have hresult := h [110]
      rw [decodeJSON_pieces _ hj hlen] at hresult
      by_cases hvalid : ∀ p ∈ pieces j, p.valid = true
      · rw [if_pos hvalid, decodePieces_valid _ hvalid] at hresult
        rw [Except.ok.inj hresult] at hcount
        exact Or.inr ⟨hvalid, by omega⟩
      · rw [if_neg hvalid] at hresult
        obtain ⟨code, message, hthrown⟩ := hresult
        obtain ⟨out, hout⟩ := decodePieces_accepted haccepted
        cases hout.symm.trans hthrown
  · rintro (⟨p, hp, hrejected⟩ | ⟨hvalid, hpairs⟩) after
    · have hnot : ¬∀ q ∈ pieces j, q.valid = true := by
        intro hall
        rw [rejected_of_valid (hall p hp)] at hrejected
        cases hrejected
      rw [if_neg hnot, decodeJSON_pieces _ hj hlen]
      exact decodePieces_rejected after (cutLast_pieces j) ⟨p, hp, hrejected⟩
    · rw [if_pos hvalid, decodeJSON_pieces _ hj hlen, decodePieces_valid _ hvalid, hsame hpairs]

end Escape
