import HpccPlatform.Library.Ctype

/-!
# Escapes in names, URLs and C++ strings

The writers and readers of `system/jlib/jstring.cpp`.  Memory is a list of bytes that a pointer
moves along; to read behind its end is a fault.
-/

namespace Escape

open Ctype

/-- `append` with a length that is converted to 32 bits. -/
def chunk (text : List UInt8) : List UInt8 := text.take (text.length % 2 ^ 32)

/-! ### Names -/

/-- The format `_%02X`. -/
def underscored (c : UInt8) : List UInt8 :=
  [95, hexDigit false (c.toNat / 16), hexDigit false (c.toNat % 16)]

/-- The loop of `ncnameEscape`, with the text from `in` on that has not been appended yet. -/
def ncnameEscapeFrom (pending : List UInt8) : List UInt8 → Except Fault (List UInt8)
  | [] => .error .readsPast
  | c :: finger =>
    if c = 0 then .ok (chunk pending)
    else if !isalnum c then
      (ncnameEscapeFrom [] finger).map (chunk pending ++ underscored c ++ ·)
    else ncnameEscapeFrom (pending ++ [c]) finger

def ncnameEscape : List UInt8 → Except Fault (List UInt8)
  | [] => .error .readsPast
  | c :: rest =>
    if !isalpha c then (ncnameEscapeFrom [] rest).map (underscored c ++ ·)
    else ncnameEscapeFrom [] (c :: rest)

def hex2num (next : UInt8) : UInt8 :=
  if 48 ≤ next ∧ next ≤ 57 then next - 48
  else if 97 ≤ next ∧ next ≤ 102 then next - 97 + 10
  else if 65 ≤ next ∧ next ≤ 70 then next - 65 + 10
  else 0

/-- The loop of `ncnameUnescape`. -/
def ncnameUnescapeFrom (pending : List UInt8) : List UInt8 → Except Fault (List UInt8)
  | [] => .error .readsPast
  | c :: finger =>
    if c = 0 then .ok (chunk pending)
    else if c = 95 then
      match finger with
      | h1 :: h2 :: rest =>
        (ncnameUnescapeFrom [] rest).map (chunk pending ++ [16 * hex2num h1 + hex2num h2] ++ ·)
      | _ => .error .readsPast
    else ncnameUnescapeFrom (pending ++ [c]) finger

def ncnameUnescape (src : List UInt8) : Except Fault (List UInt8) := ncnameUnescapeFrom [] src

/-! ### URLs -/

def appendURLByte (lower : Bool) (c : UInt8) : List UInt8 :=
  if c = 32 then [43]
  else if c &&& 0x80 ≠ 0 ∨ !isalnum c then
    [37, hexDigit lower (c.toNat / 16), hexDigit lower (c.toNat % 16)]
  else [c]

/-- The loop of `appendURL`. -/
def appendURLFrom (lower : Bool) : ℕ → List UInt8 → Except Fault (List UInt8)
  | 0, _ => .ok []
  | _ + 1, [] => .error .readsPast
  | len + 1, c :: src => (appendURLFrom lower len src).map (appendURLByte lower c ++ ·)

/-- The length is that of the string where it is the largest number. -/
def appendURL (src : List UInt8) (len : ℕ) (lower : Bool) : Except Fault (List UInt8) :=
  if len = 2 ^ 32 - 1 then (strlen src).bind fun n => appendURLFrom lower (n % 2 ^ 32) src
  else appendURLFrom lower len src

/-- The value of a digit in base 16. -/
def translateHex (hex : UInt8) : UInt8 := if 65 ≤ hex then (hex &&& 0xdf) - 65 + 10 else hex - 48

def appendDecodedURL : List UInt8 → Except Fault (List UInt8)
  | [] => .error .readsPast
  | c :: url =>
    if c = 0 then .ok []
    else if c = 43 then (appendDecodedURL url).map (32 :: ·)
    else if c = 37 then
      match url with
      | [] => .error .readsPast
      | h1 :: url' =>
        if isxdigit h1 then
          match url' with
          | [] => .error .readsPast
          | h2 :: rest =>
            if isxdigit h2 then
              (appendDecodedURL rest).map ((translateHex h1 * 16 + translateHex h2) :: ·)
            else (appendDecodedURL (h1 :: h2 :: rest)).map (c :: ·)
        else (appendDecodedURL (h1 :: url')).map (c :: ·)
    else (appendDecodedURL url).map (c :: ·)

/-! ### C++ strings -/

/-- The format `\%03o`. -/
def octal (c : UInt8) : List UInt8 :=
  [92, UInt8.ofNat (48 + c.toNat / 64), UInt8.ofNat (48 + c.toNat / 8 % 8),
    UInt8.ofNat (48 + c.toNat % 8)]

/-- Why a line may end behind a character. -/
inductive Break where
  | insert
  | allow
  | forbid
  deriving DecidableEq

/-- The text of one character and what it means for the line, of which `column` characters have been
read; `trigraph` tells that a question mark comes next. -/
def expandChar (isCpp isUtf8 trigraph : Bool) (column : ℕ) (c : UInt8) : List UInt8 × Break :=
  if c = 10 then ([92, 110], if 0 < column then .insert else .allow)
  else if c = 44 then ([c], if 70 < column then .insert else .allow)
  else if c = 13 then ([92, 114], .allow)
  else if c = 9 then ([92, 116], .allow)
  else if c = 34 then (if isCpp then [92, c] else [c], .allow)
  else if c = 39 then (if isCpp then [c] else [92, c], .allow)
  else if c = 92 then ([92, 92], .allow)
  else if c = 63 then (if isCpp && trigraph then ([c, 92], .forbid) else ([c], .allow))
  else (if 32 ≤ c ∧ (isUtf8 ∨ c ≤ 126) then [c] else octal c, .allow)

/-- Whether `insertBreak`, or a break is allowed and the line is long. -/
def breaks (column : ℕ) : Break → Bool
  | .insert => true
  | .allow => 120 ≤ column
  | .forbid => false

/-- `column` counts the characters since the start of the line. -/
def appendStringExpandControl (addBreak isCpp isUtf8 : Bool) :
    ℕ → ℕ → List UInt8 → Except Fault (List UInt8)
  | 0, _, _ => .ok []
  | _ + 1, _, [] => .error .readsPast
  | len + 1, column, c :: src =>
    -- the next character is only read behind a question mark that is not the last
    if c = 63 ∧ isCpp ∧ len ≠ 0 ∧ src = [] then .error .readsPast
    else
      let r := expandChar isCpp isUtf8 (len ≠ 0 && src.head? = some 63) (column + 1) c
      if addBreak && breaks (column + 1) r.2 then
        (appendStringExpandControl addBreak isCpp isUtf8 len 0 src).map
          (r.1 ++ [34, 10, 9, 9, 34] ++ ·)
      else (appendStringExpandControl addBreak isCpp isUtf8 len (column + 1) src).map (r.1 ++ ·)

def appendStringAsCPP (len : ℕ) (src : List UInt8) (addBreak : Bool) :
    Except Fault (List UInt8) :=
  appendStringExpandControl addBreak true false len 0 src

def isOctal (c : UInt8) : Bool := 48 ≤ c && c ≤ 55

/-- Up to `n` more digits in base 8, and what is behind them. -/
def octalDigits : ℕ → UInt8 → List UInt8 → Except Fault (UInt8 × List UInt8)
  | 0, c, src => .ok (c, src)
  | _ + 1, _, [] => .error .readsPast
  | n + 1, c, d :: rest =>
    if isOctal d then octalDigits n (c <<< 3 ||| (d - 48)) rest else .ok (c, d :: rest)

/-- The digits in base 16, and what is behind them. -/
def hexDigits (c : UInt8) : List UInt8 → Except Fault (UInt8 × List UInt8)
  | [] => .error .readsPast
  | next :: rest =>
    if isxdigit next then hexDigits (c <<< 4 ||| hex2num next) rest else .ok (c, next :: rest)

/-- The character for an escape of one letter. -/
def letterEscape (next : UInt8) : Option UInt8 :=
  if next = 97 then some 7
  else if next = 98 then some 8
  else if next = 102 then some 12
  else if next = 110 then some 10
  else if next = 114 then some 13
  else if next = 116 then some 9
  else if next = 118 then some 11
  else if next = 92 ∨ next = 39 ∨ next = 63 ∨ next = 34 then some next
  else none

/-- What stands behind a backslash. -/
def cppEscape (errorIfInvalid : Bool) : List UInt8 → Except Fault (UInt8 × List UInt8)
  | [] => .error .readsPast
  | next :: rest =>
    if next = 0 then .ok (92, next :: rest)
    else
      match letterEscape next with
      | some c => .ok (c, rest)
      | none =>
        if isOctal next then octalDigits 2 (next - 48) rest
        else if next = 120 then hexDigits 0 rest
        else if errorIfInvalid then
          .error (.thrown 1 ("unrecognised character escape sequence '\\" ++
            String.singleton (Char.ofNat next.toNat) ++ "'"))
        -- the backslash is kept as it is
        else .ok (92, next :: rest)

theorem octalDigits_length {n : ℕ} {c d : UInt8} {src rest : List UInt8}
    (h : octalDigits n c src = .ok (d, rest)) : rest.length ≤ src.length := by
  induction n generalizing c src with
  | zero =>
    cases h
    exact le_refl _
  | succ n ih =>
    cases src with
    | nil => cases h
    | cons x src =>
      rw [octalDigits] at h
      split_ifs at h with hx
      · exact (ih h).trans (Nat.le_succ _)
      · cases h
        exact le_refl _

theorem hexDigits_length {c d : UInt8} {src rest : List UInt8}
    (h : hexDigits c src = .ok (d, rest)) : rest.length ≤ src.length := by
  induction src generalizing c with
  | nil => cases h
  | cons x src ih =>
    rw [hexDigits] at h
    split_ifs at h with hx
    · exact (ih h).trans (Nat.le_succ _)
    · cases h
      exact le_refl _

theorem cppEscape_length {errorIfInvalid : Bool} {d : UInt8} {src rest : List UInt8}
    (h : cppEscape errorIfInvalid src = .ok (d, rest)) : rest.length ≤ src.length := by
  cases src with
  | nil => cases h
  | cons next src =>
    rw [cppEscape] at h
    by_cases hzero : next = 0
    · rw [if_pos hzero] at h
      cases h
      exact le_refl _
    · rw [if_neg hzero] at h
      cases hletter : letterEscape next with
      | some c =>
        rw [hletter] at h
        cases h
        exact Nat.le_succ _
      | none =>
        rw [hletter] at h
        dsimp only at h
        split_ifs at h
        · exact (octalDigits_length h).trans (Nat.le_succ _)
        · exact (hexDigits_length h).trans (Nat.le_succ _)
        · cases h
          exact le_refl _

def decodeCppEscapeSequence (errorIfInvalid : Bool) : List UInt8 → Except Fault (List UInt8)
  | [] => .error .readsPast
  | c :: src =>
    if c = 0 then .ok []
    else if c = 92 then
      match _h : cppEscape errorIfInvalid src with
      | .error e => .error e
      | .ok (value, rest) =>
        (decodeCppEscapeSequence errorIfInvalid rest).map (value :: ·)
    else (decodeCppEscapeSequence errorIfInvalid src).map (c :: ·)
termination_by src => src.length
decreasing_by
  · exact Nat.lt_succ_of_le (cppEscape_length ‹_›)
  · exact Nat.lt_succ_self _

end Escape
