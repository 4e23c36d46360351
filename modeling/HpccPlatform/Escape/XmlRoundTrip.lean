import HpccPlatform.Escape.XmlDecode

/-!
# The round trip through XML

Every character of a text is written as itself, as an entity or as a number, and each of them is
read back.
-/

namespace Escape

open Ctype
open Utf8 (IsAscii)

section
variable {entityHelper : EntityHelper} {strict : Bool} {c : UInt8} {x text rest : List UInt8}

theorem decodeXML_entity (h : xmlEntity entityHelper strict x = .ok (some (text, rest))) :
    decodeXML entityHelper strict (38 :: x) =
      (decodeXML entityHelper strict rest).map (text ++ ·) := by
  rw [decodeXML, if_neg (by decide), if_pos rfl]
  split
  · rename_i fault hfault
    rw [h] at hfault
    cases hfault
  · rename_i hnone
    rw [h] at hnone
    cases hnone
  · rename_i text' rest' hsome
    rw [h] at hsome
    cases hsome
    rfl

theorem decodeXML_plain (hzero : c ≠ 0) (hamp : c ≠ 38) :
    decodeXML entityHelper strict (c :: x) = (decodeXML entityHelper strict x).map (c :: ·) := by
  rw [decodeXML, if_neg hzero, if_neg hamp]

theorem decodeXML_copied (h : ∀ d ∈ text, d ≠ 0 ∧ d ≠ 38) :
    decodeXML entityHelper strict (text ++ x) =
      (decodeXML entityHelper strict x).map (text ++ ·) := by
  induction text with
  | nil =>
    cases hx : decodeXML entityHelper strict x with
    | error fault => rw [List.nil_append, hx]; rfl
    | ok out => rw [List.nil_append, hx]; rfl
  | cons d text ih =>
    obtain ⟨hzero, hamp⟩ := h d List.mem_cons_self
    rw [List.cons_append, decodeXML_plain hzero hamp, ih fun e he => h e (List.mem_cons_of_mem d he)]
    cases decodeXML entityHelper strict x with
    | error fault => rfl
    | ok out => rfl

theorem matchText_append (expected x : List UInt8) :
    matchText expected (expected ++ x) = .ok (some x) := by
  induction expected with
  | nil => rfl
  | cons e expected ih =>
    rw [List.cons_append, matchText, if_pos rfl]
    exact ih

theorem knownEntity_append (name : String) (text x : List UInt8) :
    knownEntity name text (ascii name ++ x) = .ok (some (text, x)) := by
  unfold knownEntity
  rw [matchText_append]
  rfl

theorem numericEntity_decimal {n : ℕ} (hempty : x ≠ []) (hhex : x.head? ≠ some 120)
    (hnumber : strtoul 10 x = .ok (n, 59 :: rest)) (hlen : (59 :: rest).length < x.length)
    (hchar : writeUtf8 (n % 2 ^ 32) = .ok text) :
    numericEntity strict x = .ok (some (text, rest)) := by
  unfold numericEntity
  rw [if_neg hempty]
  dsimp only
  rw [if_neg hhex, if_neg hhex, hnumber]
  change (if (59 :: rest).length = x.length ∨ (59 :: rest).head? ≠ some 59 then _ else _) = _
  rw [if_neg, hchar]
  · rfl
  · rintro (heq | hne)
    · exact hlen.ne heq
    · exact hne rfl

theorem xmlEntity_amp : xmlEntity entityHelper strict (97 :: (ascii "mp;" ++ x)) =
    .ok (some ([38], x)) := by
  rw [xmlEntity, if_pos rfl, knownEntity_append]
  rfl

theorem xmlEntity_apos : xmlEntity entityHelper strict (97 :: (ascii "pos;" ++ x)) =
    .ok (some ([39], x)) := by
  have hother : knownEntity "mp;" [38] (ascii "pos;" ++ x) = .ok none := by
    have hascii : ascii "mp;" = [109, 112, 59] ∧ ascii "pos;" = [112, 111, 115, 59] := by decide
    unfold knownEntity
    rw [hascii.1, hascii.2]
    rfl
  rw [xmlEntity, if_pos rfl, hother]
  exact knownEntity_append "pos;" [39] x

theorem xmlEntity_lt : xmlEntity entityHelper strict (108 :: (ascii "t;" ++ x)) =
    .ok (some ([60], x)) := by
  rw [xmlEntity, if_neg (by decide), if_pos rfl, knownEntity_append]

theorem xmlEntity_gt : xmlEntity entityHelper strict (103 :: (ascii "t;" ++ x)) =
    .ok (some ([62], x)) := by
  rw [xmlEntity, if_neg (by decide), if_neg (by decide), if_pos rfl, knownEntity_append]

theorem xmlEntity_quot : xmlEntity entityHelper strict (113 :: (ascii "uot;" ++ x)) =
    .ok (some ([34], x)) := by
  rw [xmlEntity, if_neg (by decide), if_neg (by decide), if_neg (by decide), if_pos rfl,
    knownEntity_append]

theorem xmlEntity_number : xmlEntity entityHelper strict (35 :: x) = numericEntity strict x := by
  rw [xmlEntity, if_neg (by decide), if_neg (by decide), if_neg (by decide), if_neg (by decide),
    if_neg (by decide), if_pos rfl]

/-- A number of one digit. -/
theorem xmlEntity_digit {d : UInt8} {n : ℕ} (hd : d ≠ 120)
    (hnumber : strtoul 10 (d :: 59 :: x) = .ok (n, 59 :: x))
    (hchar : writeUtf8 (n % 2 ^ 32) = .ok text) :
    xmlEntity entityHelper strict (35 :: d :: 59 :: x) = .ok (some (text, x)) := by
  rw [xmlEntity_number]
  exact numericEntity_decimal (List.cons_ne_nil _ _) (fun h => hd (Option.some.inj h)) hnumber
    (Nat.lt_succ_self _) hchar

theorem xmlEntity_digits {d e : UInt8} {n : ℕ} (hd : d ≠ 120)
    (hnumber : strtoul 10 (d :: e :: 59 :: x) = .ok (n, 59 :: x))
    (hchar : writeUtf8 (n % 2 ^ 32) = .ok text) :
    xmlEntity entityHelper strict (35 :: d :: e :: 59 :: x) = .ok (some (text, x)) := by
  rw [xmlEntity_number]
  exact numericEntity_decimal (List.cons_ne_nil _ _) (fun h => hd (Option.some.inj h)) hnumber
    ((Nat.lt_succ_self _).trans (Nat.lt_succ_self _)) hchar

/-- An entity that is written for a character is read as the character. -/
theorem decodeXML_entityText {flags : ℕ} (h : entityText flags c = some text) :
    decodeXML entityHelper strict (text ++ x) =
      (decodeXML entityHelper strict x).map (c :: ·) := by
  unfold entityText at h
  by_cases hamp : c = 38
  · rw [if_pos hamp] at h
    have htext : text = 38 :: 97 :: ascii "mp;" := (Option.some.inj h).symm.trans (by decide)
    rw [hamp, htext]
    exact decodeXML_entity xmlEntity_amp
  rw [if_neg hamp] at h
  by_cases hlt : c = 60
  · rw [if_pos hlt] at h
    have htext : text = 38 :: 108 :: ascii "t;" := (Option.some.inj h).symm.trans (by decide)
    rw [hlt, htext]
    exact decodeXML_entity xmlEntity_lt
  rw [if_neg hlt] at h
  by_cases hgt : c = 62
  · rw [if_pos hgt] at h
    have htext : text = 38 :: 103 :: ascii "t;" := (Option.some.inj h).symm.trans (by decide)
    rw [hgt, htext]
    exact decodeXML_entity xmlEntity_gt
  rw [if_neg hgt] at h
  by_cases hquot : c = 34
  · rw [if_pos hquot] at h
    have htext : text = 38 :: 113 :: ascii "uot;" := (Option.some.inj h).symm.trans (by decide)
    rw [hquot, htext]
    exact decodeXML_entity xmlEntity_quot
  rw [if_neg hquot] at h
  by_cases hapos : c = 39
  · rw [if_pos hapos] at h
    have htext : text = 38 :: 97 :: ascii "pos;" := (Option.some.inj h).symm.trans (by decide)
    rw [hapos, htext]
    exact decodeXML_entity xmlEntity_apos
  rw [if_neg hapos] at h
  by_cases hspace : c = 32
  · rw [if_pos hspace] at h
    rw [hspace, ← Option.some.inj h]
    by_cases hflag : flags &&& ENCODE_SPACES ≠ 0
    · rw [if_pos hflag]
      exact decodeXML_entity (xmlEntity_digits (n := 32) (by decide) rfl rfl)
    · rw [if_neg hflag]
      exact decodeXML_plain (by decide) (by decide)
  rw [if_neg hspace] at h
  by_cases hnewline : c = 10
  · rw [if_pos hnewline] at h
    rw [hnewline, ← Option.some.inj h]
    by_cases hflag : flags &&& ENCODE_NEWLINES ≠ 0
    · rw [if_pos hflag]
      exact decodeXML_entity (xmlEntity_digits (n := 10) (by decide) rfl rfl)
    · rw [if_neg hflag]
      exact decodeXML_plain (by decide) (by decide)
  rw [if_neg hnewline] at h
  by_cases hreturn : c = 13
  · rw [if_pos hreturn] at h
    rw [hreturn, ← Option.some.inj h]
    by_cases hflag : flags &&& ENCODE_NEWLINES ≠ 0
    · rw [if_pos hflag]
      exact decodeXML_entity (xmlEntity_digits (n := 13) (by decide) rfl rfl)
    · rw [if_neg hflag]
      exact decodeXML_plain (by decide) (by decide)
  rw [if_neg hreturn] at h
  by_cases htab : c = 9
  · rw [if_pos htab] at h
    rw [htab, ← Option.some.inj h]
    by_cases hflag : flags &&& ENCODE_SPACES ≠ 0
    · rw [if_pos hflag]
      exact decodeXML_entity (xmlEntity_digit (n := 9) (by decide) rfl rfl)
    · rw [if_neg hflag]
      exact decodeXML_plain (by decide) (by decide)
  rw [if_neg htab] at h
  cases h

end

/-- No control character but the tab, the newline and the carriage return. -/
def IsPlain (c : Char) : Prop := 32 ≤ c.toNat ∨ c.toNat = 9 ∨ c.toNat = 10 ∨ c.toNat = 13

/-- What is written for a character. -/
def xmlText (flags : ℕ) (c : Char) : List UInt8 :=
  if IsAscii c then (entityText flags (UInt8.ofNat c.toNat)).getD [UInt8.ofNat c.toNat]
  else String.utf8EncodeChar c

/-- The length before and after `k` bytes: it is not known, or it is counted. -/
def Counts (k len len' : ℕ) : Prop :=
  (len = unknownLen ∧ len' = unknownLen) ∨ (len = k + len' ∧ len < unknownLen)

theorem Counts.add {k m len len' : ℕ} (h : Counts (k + m) len len') :
    ∃ mid, Counts k len mid ∧ Counts m mid len' := by
  rcases h with ⟨hlen, hlen'⟩ | ⟨hlen, hlt⟩
  · exact ⟨unknownLen, Or.inl ⟨hlen, rfl⟩, Or.inl ⟨rfl, hlen'⟩⟩
  · rw [Nat.add_assoc] at hlen
    exact ⟨m + len', Or.inr ⟨hlen, hlt⟩, Or.inr ⟨rfl, (hlen ▸ Nat.le_add_left _ _).trans_lt hlt⟩⟩

theorem Counts.countDown {len len' : ℕ} (h : Counts 1 len len') : Escape.countDown len = len' := by
  rcases h with ⟨rfl, rfl⟩ | ⟨hlen, hlt⟩
  · exact countDown_unknown
  · rw [Nat.add_comm] at hlen
    rw [hlen] at hlt ⊢
    exact countDown_succ hlt

theorem Counts.ne_zero {k len len' : ℕ} (h : Counts (k + 1) len len') : len ≠ 0 := by
  rcases h with ⟨rfl, -⟩ | ⟨hlen, -⟩
  · decide
  · rw [hlen, Nat.add_right_comm]
    exact Nat.succ_ne_zero _

theorem Counts.copyTrail {more x : List UInt8} {len len' : ℕ} (h : Counts more.length len len') :
    Escape.copyTrail more.length len (more ++ x) = .ok (more, len', x) := by
  rcases h with ⟨rfl, rfl⟩ | ⟨rfl, hlt⟩
  · exact copyTrail_unknown more x
  · exact copyTrail_append more x hlt

section
variable {flags : ℕ} {c : Char} {x : List UInt8} {len len' : ℕ}

theorem ascii_lt (h : IsAscii c) : UInt8.ofNat c.toNat < 128 := by
  rw [UInt8.lt_iff_toNat_lt, UInt8.toNat_ofNat', Nat.mod_eq_of_lt]
  · exact Nat.lt_succ_of_le (Utf8.isAscii_iff.mp h)
  · exact (Nat.lt_succ_of_le (Utf8.isAscii_iff.mp h)).trans (by decide)

/-- A plain ASCII character has an entity or is written as it is. -/
theorem entityText_plain (h : IsAscii c) (hc : IsPlain c) :
    (entityText flags (UInt8.ofNat c.toNat)).isSome ∨
      32 ≤ UInt8.ofNat c.toNat ∧ UInt8.ofNat c.toNat ≠ 38 := by
  rcases hc with hc | hc | hc | hc
  · by_cases hamp : UInt8.ofNat c.toNat = 38
    · rw [hamp]
      exact Or.inl rfl
    · refine Or.inr ⟨?_, hamp⟩
      rw [UInt8.le_iff_toNat_le, UInt8.toNat_ofNat', Nat.mod_eq_of_lt]
      · exact hc
      · exact (Nat.lt_succ_of_le (Utf8.isAscii_iff.mp h)).trans (by decide)
  · rw [hc]
    exact Or.inl rfl
  · rw [hc]
    exact Or.inl rfl
  · rw [hc]
    exact Or.inl rfl

theorem encodeXML_char (hc : IsPlain c) (hlen : Counts c.utf8Size len len') :
    encodeXML flags true len (String.utf8EncodeChar c ++ x) =
      (encodeXML flags true len' x).map (xmlText flags c ++ ·) := by
  unfold xmlText
  by_cases h : IsAscii c
  · rw [if_pos h, Utf8.encode_ascii h]
    have hone : c.utf8Size = 0 + 1 := by
      rw [← String.length_utf8EncodeChar, Utf8.encode_ascii h]
      rfl
    rw [hone] at hlen
    have hchar : xmlChar flags true len (UInt8.ofNat c.toNat) x = .ok (some
        ((entityText flags (UInt8.ofNat c.toNat)).getD [UInt8.ofNat c.toNat], len, x)) := by
      unfold xmlChar
      cases hentity : entityText flags (UInt8.ofNat c.toNat) with
      | some text => rfl
      | none =>
        obtain hsome | ⟨hle, -⟩ := @entityText_plain flags c h hc
        · rw [hentity] at hsome
          cases hsome
        · dsimp only
          rw [if_neg, if_pos ⟨hle, ascii_lt h⟩]
          · rfl
          · intro hzero
            rw [hzero] at hle
            exact absurd hle (by decide)
    rw [List.singleton_append, encodeXML_step hlen.ne_zero hchar, hlen.countDown]
  · obtain ⟨lead, more, hencode, htrail, hlead, hcount⟩ := encodeChar_eq_cons h
    have hsize : c.utf8Size = more.length + 1 := by
      rw [← String.length_utf8EncodeChar, hencode, List.length_cons]
    rw [hsize] at hlen
    obtain ⟨mid, hmore, hlast⟩ := hlen.add
    have hchar : xmlChar flags true len lead (more ++ x) = .ok (some (lead :: more, mid, x)) := by
      rw [xmlChar_lead flags len hlead, hcount, Nat.add_sub_cancel, trails_append htrail]
      change Except.map _ (copyTrail more.length len (more ++ x)) = _
      rw [hmore.copyTrail]
      rfl
    rw [if_neg h, hencode, List.cons_append, encodeXML_step hlen.ne_zero hchar, hlast.countDown]

theorem encodeXML_text {text : List Char} (htext : ∀ c ∈ text, IsPlain c)
    (hlen : Counts (Utf8.size text) len len') :
    encodeXML flags true len (Utf8.encode text ++ x) =
      (encodeXML flags true len' x).map (text.flatMap (xmlText flags) ++ ·) := by
  induction text generalizing len with
  | nil =>
    have heq : len = len' := by
      rcases hlen with ⟨rfl, rfl⟩ | ⟨hlen, -⟩
      · rfl
      · exact hlen.trans (Nat.zero_add len')
    rw [heq]
    change encodeXML flags true len' x = _
    cases encodeXML flags true len' x with
    | error fault => rfl
    | ok out => rfl
  | cons c text ih =>
    rw [Utf8.size_cons] at hlen
    obtain ⟨mid, hfirst, hrest⟩ := hlen.add
    rw [Utf8.encode_cons, List.append_assoc, encodeXML_char (htext c List.mem_cons_self) hfirst,
      ih (fun d hd => htext d (List.mem_cons_of_mem c hd)) hrest, List.flatMap_cons]
    cases encodeXML flags true len' x with
    | error fault => rfl
    | ok out => exact congrArg Except.ok (List.append_assoc ..).symm

theorem decodeXML_char {entityHelper : EntityHelper} (hc : IsPlain c) :
    decodeXML entityHelper true (xmlText flags c ++ x) =
      (decodeXML entityHelper true x).map (String.utf8EncodeChar c ++ ·) := by
  unfold xmlText
  by_cases h : IsAscii c
  · rw [if_pos h, Utf8.encode_ascii h]
    cases hentity : entityText flags (UInt8.ofNat c.toNat) with
    | some text => exact decodeXML_entityText hentity
    | none =>
      obtain hsome | ⟨hle, hamp⟩ := @entityText_plain flags c h hc
      · rw [hentity] at hsome
        cases hsome
      · refine decodeXML_plain ?_ hamp
        intro hzero
        rw [hzero] at hle
        exact absurd hle (by decide)
  · rw [if_neg h]
    obtain ⟨lead, more, hencode, htrail, hlead, -⟩ := encodeChar_eq_cons h
    rw [hencode]
    refine decodeXML_copied fun d hd => ?_
    rcases List.mem_cons.mp hd with rfl | hd
    · constructor
      · rintro rfl
        exact hlead (by decide)
      · rintro rfl
        exact hlead (by decide)
    · have hd := htrail d hd
      constructor
      · rintro rfl
        cases hd
      · rintro rfl
        cases hd

theorem decodeXML_text {entityHelper : EntityHelper} {text : List Char}
    (htext : ∀ c ∈ text, IsPlain c) :
    decodeXML entityHelper true (cells (text.flatMap (xmlText flags))) = .ok (Utf8.encode text) := by
  induction text with
  | nil =>
    change decodeXML entityHelper true [0] = _
    rw [decodeXML, if_pos rfl]
    rfl
  | cons c text ih =>
    rw [List.flatMap_cons, cells_append, decodeXML_char (htext c List.mem_cons_self),
      ih fun d hd => htext d (List.mem_cons_of_mem c hd)]
    rfl

end

/-- What is written for the text, as far as its terminator or with its length, is read as the
text. -/
def RoundTrips (flags : ℕ) (text : List Char) : Prop :=
  ∃ out, encodeXML flags true unknownLen (cells (Utf8.encode text)) = .ok out ∧
    (Utf8.size text < unknownLen → ∀ after,
      encodeXML flags true (Utf8.size text) (Utf8.encode text ++ after) = .ok out) ∧
    ∀ entityHelper, decodeXML entityHelper true (cells out) = .ok (Utf8.encode text)

theorem roundTrips (flags : ℕ) {text : List Char} (htext : ∀ c ∈ text, IsPlain c) :
    RoundTrips flags text := by
  refine ⟨text.flatMap (xmlText flags), ?_, fun hlen after => ?_, fun _ => decodeXML_text htext⟩
  · have hend : xmlChar flags true unknownLen 0 [] = .ok none := rfl
    rw [cells, encodeXML_text htext (Or.inl ⟨rfl, rfl⟩), encodeXML_end (by decide) hend]
    exact congrArg Except.ok (List.append_nil _)
  · rw [encodeXML_text htext (Or.inr ⟨(Nat.add_zero _).symm, hlen⟩), encodeXML_zero]
    exact congrArg Except.ok (List.append_nil _)

/-- **The output depends on the text alone exactly if no character of it is cut off**; and every
text is read back from it. -/
theorem encodeXML_faithful (flags : ℕ) (utf8 : Bool) (b : List UInt8) (hlen : b.length < unknownLen) :
    (StaysInside flags utf8 b ↔ utf8 = false ∨ ¬CutOff b) ∧
      ∀ text : List Char, (∀ c ∈ text, IsPlain c) → RoundTrips flags text :=
  ⟨staysInside_iff hlen, fun _ => roundTrips flags⟩

theorem encodeXML_faithful_latin : StaysInside 0 false [0xC3] :=
  (encodeXML_faithful 0 false [0xC3] (by decide)).1.mpr (Or.inl rfl)

/-- The first byte of a character of two bytes. -/
theorem encodeXML_reads_on : ¬∀ (flags : ℕ) (utf8 : Bool) (b : List UInt8),
    b.length < unknownLen → StaysInside flags utf8 b := by
  intro hall
  obtain ⟨out, hout⟩ := hall 0 true [0xC3] (by decide)
  refine encodeXML_of_cutOff (by decide) ⟨[], 0xC3, [], rfl, by decide, ?_, by decide⟩
    ⟨out, fun s => (hout (cells s)).1⟩
  exact fun d hd => by cases hd

end Escape
