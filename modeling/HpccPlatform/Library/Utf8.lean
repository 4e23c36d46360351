import Mathlib.Data.List.Basic
import Mathlib.Tactic.IntervalCases

/-!
# Text in UTF-8

A text is a list of characters and its encoding the bytes of the characters one after the other.
The encoding of a character begins with a byte that tells how many bytes it has, and no encoding
goes on as another one.
-/

namespace Utf8

open String

variable {c d : Char} {xs ys : List Char} {rest : List UInt8}

/-- The bytes of a text. -/
def encode (text : List Char) : List UInt8 := text.flatMap utf8EncodeChar

@[simp] theorem encode_nil : encode [] = [] := rfl

@[simp] theorem encode_cons (c : Char) (xs : List Char) :
    encode (c :: xs) = utf8EncodeChar c ++ encode xs := rfl

@[simp] theorem encode_append (xs ys : List Char) : encode (xs ++ ys) = encode xs ++ encode ys :=
  List.flatMap_append

/-- The number of the bytes of a text. -/
def size (text : List Char) : ℕ := (text.map Char.utf8Size).sum

@[simp] theorem length_encode (text : List Char) : (encode text).length = size text := by
  induction text with
  | nil => rfl
  | cons c text ih =>
    rw [encode_cons, List.length_append, length_utf8EncodeChar, ih, size, size, List.map_cons,
      List.sum_cons]

@[simp] theorem size_nil : size [] = 0 := rfl

@[simp] theorem size_cons (c : Char) (xs : List Char) : size (c :: xs) = c.utf8Size + size xs :=
  List.sum_cons

theorem size_map {f : Char → Char} (hf : ∀ c, (f c).utf8Size = c.utf8Size) (text : List Char) :
    size (text.map f) = size text := by
  rw [size, size, List.map_map]
  exact congrArg List.sum (List.map_congr_left fun c _ => hf c)

/-! ### One character -/

/-- A character of one byte. -/
abbrev IsAscii (c : Char) : Prop := c.val < 0x80

/-- The first byte of a character. -/
def leadByte (c : Char) : UInt8 := (utf8EncodeChar c).headD 0

theorem encode_eq_lead (c : Char) (xs : List Char) :
    ∃ more, encode (c :: xs) = leadByte c :: more := by
  rw [encode_cons]
  cases h : utf8EncodeChar c with
  | nil => exact absurd h utf8EncodeChar_ne_nil
  | cons b more => exact ⟨more ++ encode xs, by rw [leadByte, h]; rfl⟩

theorem isAscii_iff : IsAscii c ↔ c.toNat ≤ 0x7f := by
  rw [IsAscii, UInt32.lt_iff_toNat_lt]
  exact Nat.lt_succ_iff

theorem encode_ascii (h : IsAscii c) : utf8EncodeChar c = [UInt8.ofNat c.toNat] :=
  if_pos (isAscii_iff.1 h)

theorem toNat_le (c : Char) : c.toNat ≤ 0x10ffff := by
  have h := c.valid
  rcases h with h | h
  · exact (Nat.lt_trans h (by decide)).le
  · exact Nat.le_of_lt_succ h.2

/-- The first byte of a character by the number of its bytes. -/
theorem leadByte_toNat (c : Char) : (leadByte c).toNat =
    if c.toNat ≤ 0x7f then c.toNat
    else if c.toNat ≤ 0x7ff then c.toNat / 64 + 0xc0
    else if c.toNat ≤ 0xffff then c.toNat / 4096 + 0xe0
    else c.toNat / 262144 + 0xf0 := by
  have hc := toNat_le c
  rw [Char.toNat] at *
  rw [leadByte, utf8EncodeChar]
  split_ifs <;> simp only [List.headD_cons, UInt8.toNat_ofNat'] <;> omega

theorem utf8Size_eq (c : Char) : c.utf8Size =
    if c.toNat ≤ 0x7f then 1 else if c.toNat ≤ 0x7ff then 2 else if c.toNat ≤ 0xffff then 3
    else 4 := rfl

theorem lt_leadByte (h : ¬ IsAscii c) : 0xc0 ≤ (leadByte c).toNat := by
  rw [isAscii_iff] at h
  rw [leadByte_toNat, if_neg h]
  split_ifs <;> omega

/-- Among the characters of a size, from two bytes on, no first byte is the only one. -/
theorem exists_leadByte_ne (h : ¬ IsAscii c) :
    ∃ d, d.utf8Size = c.utf8Size ∧ leadByte d ≠ leadByte c := by
  have key : ∀ a b : Char, a.utf8Size = c.utf8Size → b.utf8Size = c.utf8Size →
      leadByte a ≠ leadByte b → ∃ d, d.utf8Size = c.utf8Size ∧ leadByte d ≠ leadByte c := by
    intro a b ha hb hab
    by_cases hac : leadByte a = leadByte c
    · exact ⟨b, hb, fun hbc => hab (hac.trans hbc.symm)⟩
    · exact ⟨a, ha, hac⟩
  rw [isAscii_iff] at h
  have hsize := utf8Size_eq c
  rw [if_neg h] at hsize
  split_ifs at hsize
  · exact key '\u0080' 'À' hsize.symm hsize.symm (by decide)
  · exact key '\u0800' '\u1000' hsize.symm hsize.symm (by decide)
  · exact key (Char.ofNat 0x10000) (Char.ofNat 0x40000) hsize.symm hsize.symm (by decide)

/-! ### The encoding is read in one way -/

theorem char_eq_of_append_eq {u v : List UInt8} (h : utf8EncodeChar c ++ u = utf8EncodeChar d ++ v) :
    c = d := by
  have hc : (utf8EncodeChar c ++ u).toByteArray.utf8DecodeChar? 0 = some c := by
    rw [List.toByteArray_append]
    exact ByteArray.utf8DecodeChar?_utf8EncodeChar_append
  have hd : (utf8EncodeChar d ++ v).toByteArray.utf8DecodeChar? 0 = some d := by
    rw [List.toByteArray_append]
    exact ByteArray.utf8DecodeChar?_utf8EncodeChar_append
  exact Option.some.inj (hc.symm.trans (h ▸ hd))

/-- A text whose bytes begin another text is the beginning of it. -/
theorem isPrefix_of_encode (h : encode xs ++ rest = encode ys) : xs <+: ys := by
  induction xs generalizing ys with
  | nil => exact List.nil_prefix
  | cons c xs ih =>
    cases ys with
    | nil =>
      obtain ⟨more, hmore⟩ := encode_eq_lead c xs
      rw [hmore] at h
      cases h
    | cons d ys =>
      rw [encode_cons, encode_cons, List.append_assoc] at h
      obtain rfl := char_eq_of_append_eq h
      exact List.cons_prefix_cons.2 ⟨rfl, ih (List.append_cancel_left h)⟩

theorem eq_of_encode_append (h : encode xs ++ rest = encode ys) (hlen : xs.length = ys.length) :
    xs = ys :=
  (isPrefix_of_encode h).eq_of_length hlen

end Utf8
