import HpccPlatform.Escape.JsonPieces

/-!
# The round trip through JSON

Every character of a text is written as itself or as an escape that the decoder reads as the
character.
-/

namespace Escape

open Ctype
open Utf8 (IsAscii)

section
variable {n : ℕ} {c : UInt8} {x text : List UInt8}

theorem decodeJSONFrom_copied (h : ∀ d ∈ text, d ≠ 0 ∧ d ≠ 92) :
    decodeJSONFrom (text.length + n) (text ++ x) = (decodeJSONFrom n x).map (text ++ ·) := by
  induction text with
  | nil =>
    rw [List.length_nil, Nat.zero_add, List.nil_append]
    cases decodeJSONFrom n x with
    | error fault => rfl
    | ok out => rfl
  | cons d text ih =>
    obtain ⟨hzero, hbackslash⟩ := h d List.mem_cons_self
    rw [List.length_cons, Nat.add_right_comm, List.cons_append,
      decodeJSONFrom_plain hzero hbackslash, ih fun e he => h e (List.mem_cons_of_mem d he)]
    cases decodeJSONFrom n x with
    | error fault => rfl
    | ok out => rfl

/-- A letter behind a backslash. -/
theorem decodeJSONFrom_letter {d e : UInt8} (hd : d ≠ 117) (he : jsonEscape d = some e) :
    decodeJSONFrom (2 + n) (92 :: d :: x) = (decodeJSONFrom n x).map (e :: ·) := by
  have hn : 2 + n = n + 1 + 1 := Nat.add_comm 2 n
  rw [hn, decodeJSONFrom_escape hd, he]
  rfl

theorem jsonGroup_ascii : ∀ k < 128, jsonGroup
    [48, 48, hexDigit true (k / 16), hexDigit true (k % 16)] = .ok [UInt8.ofNat k] := by
  decide +kernel

/-- The escape of an ASCII character by its number. -/
theorem decodeJSONFrom_hex {k : ℕ} (hk : k < 128) :
    decodeJSONFrom (6 + n)
        (92 :: 117 :: 48 :: 48 :: hexDigit true (k / 16) :: hexDigit true (k % 16) :: x) =
      (decodeJSONFrom n x).map (UInt8.ofNat k :: ·) := by
  have hn : 6 + n = n + 5 + 1 := Nat.add_comm 6 n
  rw [hn, decodeJSONFrom_group (Nat.le_add_left 5 n), jsonGroup_ascii k hk]
  rfl

/-- A character with an escape of its own. -/
theorem decodeJSONFrom_charText (h : jsonCharText c = some text) :
    decodeJSONFrom (text.length + n) (text ++ x) = (decodeJSONFrom n x).map (c :: ·) := by
  have hletter : ∀ d e : UInt8, d ≠ 117 → jsonEscape d = some e → c = e → text = [92, d] →
      decodeJSONFrom (text.length + n) (text ++ x) = (decodeJSONFrom n x).map (c :: ·) := by
    rintro d e hd he rfl rfl
    exact decodeJSONFrom_letter hd he
  have hhex : ∀ k < 128, c = UInt8.ofNat k → text =
      [92, 117, 48, 48, hexDigit true (k / 16), hexDigit true (k % 16)] →
      decodeJSONFrom (text.length + n) (text ++ x) = (decodeJSONFrom n x).map (c :: ·) := by
    rintro k hk rfl rfl
    exact decodeJSONFrom_hex hk
  unfold jsonCharText at h
  split_ifs at h with hb hf hn hr ht hquote hzero hdel
  · exact hletter 98 8 (by decide) rfl hb ((Option.some.inj h).symm.trans (by decide))
  · exact hletter 102 12 (by decide) rfl hf ((Option.some.inj h).symm.trans (by decide))
  · exact hletter 110 10 (by decide) rfl hn ((Option.some.inj h).symm.trans (by decide))
  · exact hletter 114 13 (by decide) rfl hr ((Option.some.inj h).symm.trans (by decide))
  · exact hletter 116 9 (by decide) rfl ht ((Option.some.inj h).symm.trans (by decide))
  · rcases hquote with rfl | rfl
    · exact hletter 34 34 (by decide) rfl rfl (Option.some.inj h).symm
    · exact hletter 92 92 (by decide) rfl rfl (Option.some.inj h).symm
  · exact hhex 0 (by decide) hzero ((Option.some.inj h).symm.trans (by decide))
  · exact hhex 127 (by decide) hdel ((Option.some.inj h).symm.trans (by decide))

end

/-- What is written for a character. -/
def jsonText (c : Char) : List UInt8 :=
  if IsAscii c then
    (jsonCharText (UInt8.ofNat c.toNat)).getD
      (if 32 ≤ UInt8.ofNat c.toNat then [UInt8.ofNat c.toNat] else jsonHex (UInt8.ofNat c.toNat))
  else String.utf8EncodeChar c

section
variable {c : Char} {m n : ℕ} {x : List UInt8}

theorem toNat_ascii (h : IsAscii c) : (UInt8.ofNat c.toNat).toNat = c.toNat := by
  rw [UInt8.toNat_ofNat', Nat.mod_eq_of_lt]
  exact (Nat.lt_succ_of_le (Utf8.isAscii_iff.mp h)).trans (by decide)

theorem lt_ascii (h : IsAscii c) : UInt8.ofNat c.toNat < 128 := by
  rw [UInt8.lt_iff_toNat_lt, toNat_ascii h]
  exact Nat.lt_succ_of_le (Utf8.isAscii_iff.mp h)

theorem encodeJSONChar_ascii (h : IsAscii c) (remaining : ℕ) (x : List UInt8) :
    encodeJSONChar remaining (UInt8.ofNat c.toNat :: x) = .ok (jsonText c, 1) := by
  rw [encodeJSONChar]
  unfold jsonText
  rw [if_pos h]
  cases jsonCharText (UInt8.ofNat c.toNat) with
  | some text => rfl
  | none =>
    dsimp only
    by_cases hle : 32 ≤ UInt8.ofNat c.toNat
    · rw [if_pos ⟨hle, lt_ascii h⟩, if_pos hle]
      rfl
    · rw [if_neg fun hplain => hle hplain.1, if_pos (UInt8.not_le.mp hle), if_neg hle]
      rfl

theorem encodeJSONChar_lead {lead : UInt8} {more : List UInt8} (hlead : ¬lead < 192)
    (htrail : ∀ d ∈ more, isTrail d = true) (hcount : utf8LeadLen lead = more.length + 1) :
    encodeJSONChar (more.length + m + 1) (lead :: (more ++ x)) =
      .ok (lead :: more, more.length + 1) := by
  have hne : ∀ d : UInt8, d < 192 → lead ≠ d := by
    rintro d hd rfl
    exact hlead hd
  have hhigh : ¬lead < 128 := fun h => hlead (UInt8.lt_trans h (by decide))
  have hcontrol : ¬lead < 32 := fun h => hlead (UInt8.lt_trans h (by decide))
  have hnone : jsonCharText lead = none := by
    unfold jsonCharText
    rw [if_neg (hne 8 (by decide)), if_neg (hne 12 (by decide)), if_neg (hne 10 (by decide)),
      if_neg (hne 13 (by decide)), if_neg (hne 9 (by decide)), if_neg, if_neg (hne 0 (by decide)),
      if_neg (hne 127 (by decide))]
    rintro (h | h)
    · exact hne 34 (by decide) h
    · exact hne 92 (by decide) h
  have hfits : ¬more.length + m + 1 < utf8LeadLen lead := by
    rw [hcount, not_lt]
    exact Nat.succ_le_succ (Nat.le_add_right _ _)
  rw [encodeJSONChar, hnone]
  dsimp only
  rw [if_neg fun h => hhigh h.2, if_neg hcontrol, utf8CharLen, if_neg hhigh, if_neg hfits, hcount,
    Nat.add_sub_cancel, trails_append htrail]
  have htake : (lead :: (more ++ x)).take (more.length + 1) = lead :: more := by
    rw [List.take_succ_cons, List.take_left']
    rfl
  exact congrArg (fun t => Except.ok (t, more.length + 1)) htake

theorem encodeJSON_char :
    encodeJSON (c.utf8Size + m) (String.utf8EncodeChar c ++ x) =
      (encodeJSON m x).map (jsonText c ++ ·) := by
  by_cases h : IsAscii c
  · have hone : c.utf8Size + m = m + 1 := by
      rw [← String.length_utf8EncodeChar, Utf8.encode_ascii h]
      exact Nat.add_comm 1 m
    rw [hone, Utf8.encode_ascii h, List.singleton_append, encodeJSON, encodeJSONChar_ascii h]
    rfl
  · obtain ⟨lead, more, hencode, htrail, hlead, hcount⟩ := encodeChar_eq_cons h
    have hsize : c.utf8Size + m = more.length + m + 1 := by
      rw [← String.length_utf8EncodeChar, hencode, List.length_cons, Nat.add_right_comm]
    have htext : jsonText c = lead :: more := by
      unfold jsonText
      rw [if_neg h, hencode]
    rw [hsize, hencode, List.cons_append, encodeJSON, encodeJSONChar_lead hlead htrail hcount, htext]
    change Except.map _ (encodeJSON (more.length + m - (more.length + 1 - 1)) _) = _
    rw [Nat.add_sub_cancel, Nat.add_sub_cancel_left, List.drop_left']
    rfl

theorem encodeJSON_text (text : List Char) (after : List UInt8) :
    encodeJSON (Utf8.size text) (Utf8.encode text ++ after) = .ok (text.flatMap jsonText) := by
  induction text with
  | nil =>
    change encodeJSON 0 after = _
    rw [encodeJSON]
    rfl
  | cons c text ih =>
    rw [Utf8.size_cons, Utf8.encode_cons, List.append_assoc, encodeJSON_char, ih, List.flatMap_cons]
    rfl

/-- What is written for a character is read as the character, and has no zero byte. -/
theorem decodeJSONFrom_char :
    decodeJSONFrom ((jsonText c).length + n) (jsonText c ++ x) =
      (decodeJSONFrom n x).map (String.utf8EncodeChar c ++ ·) := by
  unfold jsonText
  by_cases h : IsAscii c
  · rw [if_pos h, Utf8.encode_ascii h]
    cases htext : jsonCharText (UInt8.ofNat c.toNat) with
    | some text => exact decodeJSONFrom_charText htext
    | none =>
      rw [Option.getD_none]
      by_cases hle : 32 ≤ UInt8.ofNat c.toNat
      · rw [if_pos hle]
        refine decodeJSONFrom_copied fun d hd => ?_
        rw [List.mem_singleton.mp hd]
        constructor
        · intro hzero
          rw [hzero] at hle
          exact absurd hle (by decide)
        · intro hbackslash
          rw [hbackslash] at htext
          cases htext
      · rw [if_neg hle]
        have hhex : jsonHex (UInt8.ofNat c.toNat) = 92 :: 117 :: 48 :: 48 ::
            [hexDigit true (c.toNat / 16), hexDigit true (c.toNat % 16)] := by
          unfold jsonHex
          rw [toNat_ascii h]
          rfl
        rw [hhex]
        exact decodeJSONFrom_hex (Nat.lt_succ_of_le (Utf8.isAscii_iff.mp h))
  · obtain ⟨lead, more, hencode, htrail, hlead, -⟩ := encodeChar_eq_cons h
    rw [if_neg h, hencode]
    refine decodeJSONFrom_copied fun d hd => ?_
    rcases List.mem_cons.mp hd with rfl | hd
    · constructor
      · rintro rfl
        exact hlead (by decide)
      · rintro rfl
        exact hlead (by decide)
    · have hd := htrail d hd
      constructor
      · rintro rfl
        cases hd
      · rintro rfl
        cases hd

theorem decodeJSONFrom_text (text : List Char) (after : List UInt8) :
    decodeJSONFrom (text.flatMap jsonText).length (text.flatMap jsonText ++ after) =
      .ok (Utf8.encode text) := by
  induction text with
  | nil => cases after <;> rfl
  | cons c text ih =>
    rw [List.flatMap_cons, List.length_append, List.append_assoc, decodeJSONFrom_char, ih]
    rfl

end

/-- A text is written, and what is written is read as the text. -/
def JsonRoundTrips (text : List Char) : Prop :=
  ∃ out, (∀ after, encodeJSON (Utf8.size text) (Utf8.encode text ++ after) = .ok out) ∧
    (out.length < 2 ^ 32 - 1 →
      ∀ after, decodeJSON (out ++ after) out.length = .ok (Utf8.encode text))

theorem jsonRoundTrips (text : List Char) : JsonRoundTrips text := by
  refine ⟨text.flatMap jsonText, encodeJSON_text text, fun hlen after => ?_⟩
  unfold decodeJSON
  rw [if_neg hlen.ne, decodeJSONFrom_text]

/-- **The decoder is exact for a string with an escape that it refuses**, and for one whose escapes
are all those of JSON and in which no two stand for one character; and every text is read back. -/
theorem decodeJSON_exact_iff (j : List UInt8) (hj : 0 ∉ j) (hlen : j.length < 2 ^ 32 - 1) :
    (DecodesExactly j ↔ (∃ p ∈ pieces j, p.rejected = true) ∨
      (∀ p ∈ pieces j, p.valid = true) ∧ pairs (pieces j) = 0) ∧
      ∀ text : List Char, JsonRoundTrips text :=
  ⟨decodesExactly_iff hj hlen, jsonRoundTrips⟩

/-- The string `\u0041\n`. -/
theorem decodeJSON_exact_letter : DecodesExactly [92, 117, 48, 48, 52, 49, 92, 110] :=
  (decodeJSON_exact_iff [92, 117, 48, 48, 52, 49, 92, 110] (by decide) (by decide)).1.mpr
    (Or.inr ⟨by decide, by decide⟩)

/-- The sign in `\u-000` is taken for a digit. -/
theorem decodeJSON_takes_sign : ¬∀ j : List UInt8, 0 ∉ j → j.length < 2 ^ 32 - 1 →
    DecodesExactly j := by
  intro hall
  have h := hall [92, 117, 45, 48, 48, 48] (by decide) (by decide) []
  rw [if_neg (by decide)] at h
  obtain ⟨code, message, hthrown⟩ := h
  have haccepted : decodeJSON ([92, 117, 45, 48, 48, 48] ++ []) 6 = .ok [0] := by decide
  cases haccepted.symm.trans hthrown

end Escape
