import HpccPlatform.ValueSet.Operations

/-!
# The text of a set of field values

`deserializeSet` of `rtl/eclrtl/rtlnewkey.cpp` reads a comma-separated list of ranges and hands each
to a creator; `describe` writes the ranges of a value set.  A round bracket excludes its bound, and
a square one includes it.  A bound that is not there has an empty text.

The characters of a value are known by the functions of its type that convert it to and from UTF-8;
escape sequences are expanded by a Unicode library.
-/

namespace HpccPlatform

namespace FilterText

/-! ## Characters -/

/-- The quote of a string constant. -/
def quoteChar : Char := Char.ofNat 39

/-- The backslash. -/
def escapeChar : Char := Char.ofNat 92

/-- The character that ends a string of C. -/
def nulChar : Char := Char.ofNat 0

/-- A digit. -/
def octalDigit (n : ℕ) : Char := Char.ofNat (48 + n % 8)

/-- The text of one character in `appendUtf8AsECL`. -/
def escapeAsECL (c : Char) : List Char :=
  if c = '\n' then [escapeChar, 'n']
  else if c = '\r' then [escapeChar, 'r']
  else if c = '\t' then [escapeChar, 't']
  else if c = quoteChar then [escapeChar, c]
  else if c = escapeChar then [escapeChar, c]
  else if c.toNat < 32 then
    [escapeChar, octalDigit (c.toNat / 64), octalDigit (c.toNat / 8), octalDigit c.toNat]
  else [c]

/-- `appendUtf8AsECL(out, len, src)` -/
def appendUtf8AsECL (text : List Char) : List Char := text.flatMap escapeAsECL

/-! ## Reading -/

/-- The exceptions of `deserializeSet`. -/
inductive FilterError where
  | missingQuote
  | literal (errmsg : String)
  | terminator (terminators : String)
  | startOfRange
  | endOfRange
  | betweenRanges
  | set (e : SetError)

/-- The text of an exception. -/
def FilterError.message : FilterError → String
  | missingQuote => "Invalid filter - missing closing '"
  | literal errmsg => "Invalid filter - " ++ errmsg
  | terminator terminators => "Invalid filter - expected terminator '" ++ terminators ++ "'"
  | startOfRange => "Invalid filter string: expected [ or ( at start of range"
  | endOfRange => "Invalid filter string: expected ] or ) at end of range"
  | betweenRanges => "Invalid filter string: expected , between ranges"
  | set .invalidRangeBounds => "Invalid range bounds"
  | set .assertion => "assert failed"

/-- The characters up to the terminating quote, and what follows it; an escaped character is
skipped. -/
def scanQuoted : List Char → Option (List Char × List Char)
  | [] => none
  | c :: filter =>
    if c = quoteChar then some ([], filter)
    else if c = escapeChar then
      match filter with
      | [] => none
      | d :: filter => (scanQuoted filter).map fun p => (c :: d :: p.1, p.2)
    else (scanQuoted filter).map fun p => (c :: p.1, p.2)

section Reading

/- `checkUnicodeLiteral` and `rtlCodepageToUtf8XUnescape`: the characters that a literal stands for,
or the message about an escape sequence that is not valid. -/
variable (unescape : List Char → Except String (List Char))

/-- `readString(out, in)` -/
def readString (filter : List Char) : Except FilterError (List Char × List Char) :=
  match scanQuoted filter with
  | none => .error .missingQuote
  | some (literal, rest) =>
    match unescape literal with
    | .error errmsg => .error (.literal errmsg)
    | .ok text => .ok (text, rest)

/-- `readUntilTerminator(out, in, terminators)` -/
def readUntilTerminator (terminators : String) (filter : List Char) :
    Except FilterError (List Char × List Char) :=
  if filter.any (· ∈ terminators.toList) then
    .ok (filter.takeWhile (· ∉ terminators.toList), filter.dropWhile (· ∉ terminators.toList))
  else .error (.terminator terminators)

/-- `strtoul(str, &next, 10)`: leading blanks and a sign are skipped, the number is negated in 64
bits, and the text is left as it is when there is no digit. -/
def strtoul (str : List Char) : ℕ × List Char :=
  let signed := str.dropWhile Char.isWhitespace
  let number := if signed.head? = some '-' ∨ signed.head? = some '+' then signed.tail else signed
  let digits := number.takeWhile Char.isDigit
  let value := digits.foldl (fun n c => n * 10 + (c.toNat - 48)) 0
  if digits = [] then (0, str)
  else if 2 ^ 64 ≤ value then (2 ^ 64 - 1, number.dropWhile Char.isDigit)
  else if signed.head? = some '-' then ((2 ^ 64 - value) % 2 ^ 64, number.dropWhile Char.isDigit)
  else (value, number.dropWhile Char.isDigit)

/-- `readSubLength(subLength, in)` -/
def readSubLength (filter : List Char) : ℕ × List Char :=
  match filter with
  | ':' :: rest => ((strtoul rest).1 % 2 ^ 32, (strtoul rest).2)
  | _ => (MatchFullString, filter)

/-- A bound: its text and its sub-length. -/
def readBound (terminators : String) (filter : List Char) :
    Except FilterError (List Char × ℕ × List Char) := do
  let (text, rest) ←
    if filter.head? = some quoteChar then readString unescape filter.tail
    else readUntilTerminator terminators filter
  return (text, readSubLength rest)

/-- The upper bound, which is the lower bound when there is no comma.  The assignment
`upperString.set(lowerString)` is one of strings of C. -/
def readUpper (lowerString : List Char) (lowerSubLength : ℕ) (filter : List Char) :
    Except FilterError (List Char × ℕ × List Char) :=
  match filter with
  | ',' :: rest => readBound unescape ":])" rest
  | _ => .ok (lowerString.takeWhile (· ≠ nulChar), lowerSubLength, filter)

/-- The bracket at the end of a range, and the comma in front of the next one. -/
def readEnd : List Char → Except FilterError (Char × List Char)
  | [] => .error .endOfRange
  | endRange :: filter =>
    if endRange ≠ ')' ∧ endRange ≠ ']' then .error .endOfRange
    else
      match filter with
      | [] => .ok (endRange, [])
      | c :: rest => if c = ',' then .ok (endRange, rest) else .error .betweenRanges

/-- The arguments of `ISetCreator::addRange`. -/
structure FilterRange where
  lowerMask : TransitionMask
  lowerString : List Char
  upperMask : TransitionMask
  upperString : List Char
  lowerSubLength : ℕ
  upperSubLength : ℕ

/-- The body of the loop of `deserializeSet`: one range, and what follows it. -/
def readRange : List Char → Except FilterError (FilterRange × List Char)
  | [] => .error .startOfRange
  | startRange :: filter =>
    if startRange ≠ '(' ∧ startRange ≠ '[' then .error .startOfRange
    else do
      let (lowerString, lowerSubLength, filter) ← readBound unescape ":,])" filter
      let (upperString, upperSubLength, filter) ←
        readUpper unescape lowerString lowerSubLength filter
      let (endRange, filter) ← readEnd filter
      return (⟨if startRange = '(' then CMPgt else CMPge, lowerString,
        if endRange = ')' then CMPlt else CMPle, upperString, lowerSubLength, upperSubLength⟩, filter)

/-- The loop of `deserializeSet(creator, filter)`; each pass reads at least one character. -/
def deserializeSet.loop {σ : Type*} (addRange : FilterRange → σ → Except FilterError σ) :
    ℕ → List Char → σ → Except FilterError σ
  | _, [], s => .ok s
  | 0, _ :: _, _ => .error .startOfRange
  | n + 1, filter, s =>
    match readRange unescape filter with
    | .error e => .error e
    | .ok (range, rest) =>
      match addRange range s with
      | .error e => .error e
      | .ok s => deserializeSet.loop addRange n rest s

/-- `deserializeSet(creator, filter)` -/
def deserializeSet {σ : Type*} (addRange : FilterRange → σ → Except FilterError σ)
    (filter : List Char) (s : σ) : Except FilterError σ :=
  deserializeSet.loop unescape addRange filter.length filter s

end Reading

/-! ## Value sets -/

/-- The part of `RtlTypeInfo` that converts field values to and from text. -/
structure FieldText (α : Type*) where
  isNumeric : Bool
  getUtf8 : α → List Char
  buildUtf8 : List Char → α
  /-- `applySubString(mask, type, buff, value, subLength)` after `needToApplySubString` -/
  applySubString : TransitionMask → α → ℕ → TransitionMask × α
  /-- the characters that a literal stands for -/
  unescape : List Char → Except String (List Char)

variable {α : Type*} (text : FieldText α) (type : RtlTypeInfo α)

/-- `createUtf8Transition(mask, len, value, subLength)` -/
def createUtf8Transition (mask : TransitionMask) (value : List Char) (subLength : ℕ) :
    ValueTransition α :=
  if subLength = MatchFullString then
    ValueTransition.create mask type (text.buildUtf8 value) subLength
  else
    let r := text.applySubString mask (text.buildUtf8 value)
      (ValueTransition.clampSubLength subLength)
    ValueTransition.create r.1 type r.2 subLength

/-- A null transition for a text that is empty. -/
def textTransition (mask : TransitionMask) (value : List Char) (subLength : ℕ) :
    Option (ValueTransition α) :=
  if value = [] then none else some (createUtf8Transition text type mask value subLength)

/-- `ValueSetCreator::addRange` -/
def ValueSetCreator.addRange (range : FilterRange) (transitions : List (ValueTransition α)) :
    Except FilterError (List (ValueTransition α)) :=
  (ValueSet.addRange type transitions
    (textTransition text type range.lowerMask range.lowerString range.lowerSubLength)
    (textTransition text type range.upperMask range.upperString range.upperSubLength)).mapError .set

/-- `deserializeSet(set, filter)` for a value set -/
def deserializeValueSet (filter : List Char) (transitions : List (ValueTransition α)) :
    Except FilterError (List (ValueTransition α)) :=
  deserializeSet text.unescape (ValueSetCreator.addRange text type) filter transitions

/-- The text of a value. -/
def describeValue (value : α) : List Char :=
  if text.isNumeric then text.getUtf8 value
  else quoteChar :: (appendUtf8AsECL (text.getUtf8 value) ++ [quoteChar])

/-- `ValueTransition::describe` -/
def describeTransition (t : ValueTransition α) : List Char :=
  (if t.mask.gt then (if t.mask.eq then ['['] else ['(']) else []) ++
    (match t.value with
    | none => []
    | some value => describeValue text value ++
        if t.matchSubString then ':' :: (toString t.subLength).toList else []) ++
    (if t.mask.lt then (if t.mask.eq then [']'] else [')']) else [])

/-- One range of `ValueSet::describe`. -/
def describeRange (lower upper : ValueTransition α) : List Char :=
  describeTransition text lower ++
    if lower.compareRaw type upper ≠ 0 then ',' :: describeTransition text upper else [']']

/-- `ValueSet::describe` and `ValueSet::serialize(StringBuffer)` -/
def describe : List (ValueTransition α) → List Char
  | lower :: upper :: transitions => describeRange text type lower upper ++
      match transitions with
      | [] => []
      | _ :: _ => ',' :: describe transitions
  | _ => []

end FilterText

end HpccPlatform
