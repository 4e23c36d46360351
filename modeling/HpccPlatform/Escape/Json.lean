import HpccPlatform.Escape.Utf8Chars

/-!
# Strings in JSON

`encodeJSON` and `decodeJSON` of `system/jlib/jstring.cpp`.  The four digits of `\u` are read by
`strtoul`, and the character behind a backslash is read before the end of the text is looked at.
-/

namespace Escape

open Ctype

/-- The character for an escape of one letter. -/
def jsonEscape (d : UInt8) : Option UInt8 :=
  if d = 34 ∨ d = 92 ∨ d = 47 then some d
  else if d = 98 then some 8
  else if d = 102 then some 12
  else if d = 110 then some 10
  else if d = 114 then some 13
  else if d = 116 then some 9
  else none

def invalidEscape : Fault := .thrown (-1) "invalid json escaped sequence"

def invalidUEscape : Fault := .thrown (-1) "invalid json \\u escaped sequence"

/-- The character of the four bytes behind `\u`, which are copied and read as a number. -/
def jsonGroup (g : List UInt8) : Except Fault (List UInt8) :=
  (strtoul 16 (cells g)).bind fun r =>
    if r.2.head? = some 0 then writeUtf8 (r.1 % 2 ^ 32) else .error invalidUEscape

/-- The loop of `decodeJSON`, with `n` bytes to the end of the text. -/
def decodeJSONFrom : ℕ → List UInt8 → Except Fault (List UInt8)
  | 0, _ => .ok []
  | _ + 1, [] => .error .readsPast
  | n + 1, c :: j =>
    if c = 0 then .ok []
    else if c ≠ 92 then (decodeJSONFrom n j).map (c :: ·)
    else
      match j with
      | [] => .error .readsPast
      | d :: rest =>
        if d = 117 then
          if 5 ≤ n then
            match rest with
            | h1 :: h2 :: h3 :: h4 :: rest =>
              (jsonGroup [h1, h2, h3, h4]).bind fun text =>
                (decodeJSONFrom (n - 5) rest).map (text ++ ·)
            | _ => .error .readsPast
          else .error invalidUEscape
        else
          match jsonEscape d with
          | some e => (decodeJSONFrom (n - 1) rest).map (e :: ·)
          | none => .error invalidEscape

/-- The length is that of the string where it is the largest number. -/
def decodeJSON (j : List UInt8) (len : ℕ) : Except Fault (List UInt8) :=
  if len = 2 ^ 32 - 1 then (strlen j).bind fun n => decodeJSONFrom (n % 2 ^ 32) j
  else decodeJSONFrom len j

/-- The characters that have an escape of their own. -/
def jsonCharText (next : UInt8) : Option (List UInt8) :=
  if next = 8 then some (ascii "\\b")
  else if next = 12 then some (ascii "\\f")
  else if next = 10 then some (ascii "\\n")
  else if next = 13 then some (ascii "\\r")
  else if next = 9 then some (ascii "\\t")
  else if next = 34 ∨ next = 92 then some [92, next]
  else if next = 0 then some (ascii "\\u0000")
  else if next = 127 then some (ascii "\\u007f")
  else none

/-- An escape with two digits of its own. -/
def jsonHex (next : UInt8) : List UInt8 :=
  ascii "\\u00" ++ [hexDigit true (next.toNat / 16), hexDigit true (next.toNat % 16)]

/-- The text for the character in front, and how many bytes it has. -/
def encodeJSONChar (remaining : ℕ) : List UInt8 → Except Fault (List UInt8 × ℕ)
  | [] => .error .readsPast
  | next :: ch =>
    match jsonCharText next with
    | some text => .ok (text, 1)
    | none =>
      if 32 ≤ next ∧ next < 128 then .ok ([next], 1)
      else if next < 32 then .ok (jsonHex next, 1)
      else
        (utf8CharLen remaining (next :: ch)).map fun chlen =>
          if chlen = 0 then (jsonHex next, 1) else ((next :: ch).take chlen, chlen)

def encodeJSON : ℕ → List UInt8 → Except Fault (List UInt8)
  | 0, _ => .ok []
  | _ + 1, [] => .error .readsPast
  | size + 1, next :: value =>
    (encodeJSONChar (size + 1) (next :: value)).bind fun r =>
      (encodeJSON (size - (r.2 - 1)) (value.drop (r.2 - 1))).map (r.1 ++ ·)
termination_by size => size
decreasing_by exact Nat.lt_succ_of_le (Nat.sub_le _ _)

end Escape
