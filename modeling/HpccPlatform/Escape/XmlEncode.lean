import HpccPlatform.Escape.Utf8Chars

/-!
# Text in XML

`encodeXML` of `system/jlib/jstring.cpp`, into a string and into a stream.  The length counts down
and is at the same time a marker: `(unsigned)-1` stands for a text up to its terminator.
-/

namespace Escape

open Ctype

/-- The length of a text that is terminated. -/
def unknownLen : ℕ := 2 ^ 32 - 1

/-- `if (len != (unsigned) -1) len--` in 32 bits. -/
def countDown (len : ℕ) : ℕ := if len = unknownLen then len else (len + unknownLen) % 2 ^ 32

def ENCODE_SPACES : ℕ := 1

def ENCODE_NEWLINES : ℕ := 2

def numtostr (value : ℕ) : List UInt8 := (Nat.toDigits 10 value).map fun c => UInt8.ofNat c.toNat

/-- The characters that have a text of their own. -/
def entityText (flags : ℕ) (c : UInt8) : Option (List UInt8) :=
  if c = 38 then some (ascii "&amp;")
  else if c = 60 then some (ascii "&lt;")
  else if c = 62 then some (ascii "&gt;")
  else if c = 34 then some (ascii "&quot;")
  else if c = 39 then some (ascii "&apos;")
  else if c = 32 then some (ascii (if flags &&& ENCODE_SPACES ≠ 0 then "&#32;" else " "))
  else if c = 10 then some (ascii (if flags &&& ENCODE_NEWLINES ≠ 0 then "&#10;" else "\n"))
  else if c = 13 then some (ascii (if flags &&& ENCODE_NEWLINES ≠ 0 then "&#13;" else "\r"))
  else if c = 9 then some (ascii (if flags &&& ENCODE_SPACES ≠ 0 then "&#9;" else "\t"))
  else none

/-! ### Into a string -/

/-- The loop that copies `n` more bytes; what is left of the length and of the text comes with
them. -/
def copyTrail : ℕ → ℕ → List UInt8 → Except Fault (List UInt8 × ℕ × List UInt8)
  | 0, len, x => .ok ([], len, x)
  | _ + 1, _, [] => .error .readsPast
  | n + 1, len, c :: x => (copyTrail n (countDown len) x).map fun r => (c :: r.1, r.2)

/-- One round of the loop, for the character `c` in front of `x`; without a result the function
returns. -/
def xmlChar (flags : ℕ) (utf8 : Bool) (len : ℕ) (c : UInt8) (x : List UInt8) :
    Except Fault (Option (List UInt8 × ℕ × List UInt8)) :=
  match entityText flags c with
  | some text => .ok (some (text, len, x))
  | none =>
    if c = 0 then
      if len = unknownLen then .ok none else .ok (some (ascii "&#xe000;", len, x))
    else if 32 ≤ c ∧ c < 128 then .ok (some ([c], len, x))
    else if c < 32 then
      .ok (some (ascii "&#xe0" ++ [hexDigit true (c.toNat / 16), hexDigit true (c.toNat % 16)] ++
        ascii ";", len, x))
    else if utf8 then
      (utf8CharLen unknownLen (c :: x)).bind fun chlen =>
        if chlen = 0 then .ok (some (ascii "&#" ++ numtostr c.toNat ++ ascii ";", len, x))
        else (copyTrail (chlen - 1) len x).map fun r => some (c :: r.1, r.2)
    else .ok (some (ascii "&#" ++ numtostr c.toNat ++ ascii ";", len, x))

theorem copyTrail_length {n len len' : ℕ} {x text rest : List UInt8}
    (h : copyTrail n len x = .ok (text, len', rest)) : rest.length ≤ x.length := by
  induction n generalizing len x text with
  | zero =>
    cases h
    exact le_refl _
  | succ n ih =>
    cases x with
    | nil => cases h
    | cons c x =>
      rw [copyTrail] at h
      cases hcopy : copyTrail n (countDown len) x with
      | error fault =>
        rw [hcopy] at h
        cases h
      | ok r =>
        obtain ⟨text', len'', rest'⟩ := r
        rw [hcopy] at h
        cases h
        exact (ih hcopy).trans (Nat.le_succ _)

/-- A byte that is not the first one of a longer character stands for itself. -/
theorem xmlChar_single (flags : ℕ) {utf8 : Bool} {c : UInt8} (hc : utf8 = false ∨ c < 192) :
    ∃ text, ∀ len x, xmlChar flags utf8 len c x =
      .ok (if c = 0 ∧ len = unknownLen then none else some (text, len, x)) := by
  unfold xmlChar
  cases hentity : entityText flags c with
  | some text =>
    have hzero : c ≠ 0 := by
      rintro rfl
      cases hentity
    exact ⟨text, fun len x => congrArg Except.ok
      (if_neg fun h : c = 0 ∧ len = unknownLen => hzero h.1).symm⟩
  | none =>
    dsimp only
    by_cases hzero : c = 0
    · refine ⟨ascii "&#xe000;", fun len x => ?_⟩
      rw [if_pos hzero]
      by_cases hlen : len = unknownLen
      · rw [if_pos hlen, if_pos ⟨hzero, hlen⟩]
      · rw [if_neg hlen, if_neg fun h => hlen h.2]
    have hnot : ∀ len : ℕ, ¬(c = 0 ∧ len = unknownLen) := fun len h => hzero h.1
    by_cases hplain : 32 ≤ c ∧ c < 128
    · exact ⟨[c], fun len x => by rw [if_neg hzero, if_pos hplain, if_neg (hnot len)]⟩
    by_cases hcontrol : c < 32
    · exact ⟨_, fun len x => by rw [if_neg hzero, if_neg hplain, if_pos hcontrol, if_neg (hnot len)]⟩
    refine ⟨ascii "&#" ++ numtostr c.toNat ++ ascii ";", fun len x => ?_⟩
    rw [if_neg hzero, if_neg hplain, if_neg hcontrol, if_neg (hnot len)]
    cases utf8 with
    | false => rfl
    | true =>
      have hhigh : ¬c < 128 := fun h => hplain ⟨UInt8.not_lt.mp hcontrol, h⟩
      have hlead : utf8LeadLen c = 0 := by
        unfold utf8LeadLen
        rw [if_neg hhigh, if_pos (hc.resolve_left Bool.true_eq_false_eq_False)]
      rw [if_pos rfl, utf8CharLen, if_neg hhigh, hlead]
      rfl

/-- The first byte of a longer character is copied with the others, if they are there. -/
theorem xmlChar_lead (flags len : ℕ) {c : UInt8} (hc : ¬c < 192) (x : List UInt8) :
    xmlChar flags true len c x = (trails (utf8LeadLen c - 1) x).bind fun valid =>
      if valid then (copyTrail (utf8LeadLen c - 1) len x).map fun r => some (c :: r.1, r.2)
      else .ok (some (ascii "&#" ++ numtostr c.toNat ++ ascii ";", len, x)) := by
  have hne : ∀ d : UInt8, d < 192 → c ≠ d := by
    rintro d hd rfl
    exact hc hd
  have hhigh : ¬c < 128 := fun h => hc (UInt8.lt_trans h (by decide))
  have hcontrol : ¬c < 32 := fun h => hc (UInt8.lt_trans h (by decide))
  have hentity : entityText flags c = none := by
    unfold entityText
    rw [if_neg (hne 38 (by decide)), if_neg (hne 60 (by decide)), if_neg (hne 62 (by decide)),
      if_neg (hne 34 (by decide)), if_neg (hne 39 (by decide)), if_neg (hne 32 (by decide)),
      if_neg (hne 10 (by decide)), if_neg (hne 13 (by decide)), if_neg (hne 9 (by decide))]
  have hlead : utf8LeadLen c = leadBits 8 (c <<< 1) + 1 := by
    unfold utf8LeadLen
    rw [if_neg hhigh, if_neg hc]
  have hshort : ¬unknownLen < utf8LeadLen c := by
    have hle := leadBits_le 8 (c <<< 1)
    rw [hlead, not_lt]
    exact (Nat.succ_le_succ hle).trans (by decide)
  unfold xmlChar
  rw [hentity]
  dsimp only
  rw [if_neg (hne 0 (by decide)), if_neg fun h => hhigh h.2, if_neg hcontrol, if_pos rfl, utf8CharLen,
    if_neg hhigh, if_neg hshort]
  cases trails (utf8LeadLen c - 1) x with
  | error fault => rfl
  | ok valid =>
    cases valid with
    | false => rfl
    | true =>
      rw [hlead]
      rfl

theorem xmlChar_length {flags len len' : ℕ} {utf8 : Bool} {c : UInt8} {x text rest : List UInt8}
    (h : xmlChar flags utf8 len c x = .ok (some (text, len', rest))) :
    rest.length ≤ x.length := by
  by_cases hc : utf8 = false ∨ c < 192
  · obtain ⟨text', hchar⟩ := xmlChar_single flags hc
    rw [hchar] at h
    by_cases hend : c = 0 ∧ len = unknownLen
    · rw [if_pos hend] at h
      cases h
    · rw [if_neg hend] at h
      cases h
      exact le_refl _
  · rw [not_or, Bool.not_eq_false] at hc
    obtain ⟨rfl, hc⟩ := hc
    rw [xmlChar_lead flags len hc] at h
    cases htrails : trails (utf8LeadLen c - 1) x with
    | error fault =>
      rw [htrails] at h
      cases h
    | ok valid =>
      rw [htrails] at h
      cases valid with
      | false =>
        cases h
        exact le_refl _
      | true =>
        change Except.map _ (copyTrail (utf8LeadLen c - 1) len x) = _ at h
        cases hcopy : copyTrail (utf8LeadLen c - 1) len x with
        | error fault =>
          rw [hcopy] at h
          cases h
        | ok r =>
          obtain ⟨text', len'', rest'⟩ := r
          rw [hcopy] at h
          cases h
          exact copyTrail_length hcopy

def encodeXML (flags : ℕ) (utf8 : Bool) (len : ℕ) : List UInt8 → Except Fault (List UInt8)
  | [] => if len = 0 then .ok [] else .error .readsPast
  | c :: x =>
    if len = 0 then .ok []
    else
      match _h : xmlChar flags utf8 len c x with
      | .error fault => .error fault
      | .ok none => .ok []
      | .ok (some (text, len, rest)) =>
        (encodeXML flags utf8 (countDown len) rest).map (text ++ ·)
termination_by x => x.length
decreasing_by exact Nat.lt_succ_of_le (xmlChar_length ‹_›)

/-! ### Into a stream -/

def writeStringToStream (out : List UInt8) (s : List UInt8) : List UInt8 := out ++ s

def writeCharToStream (out : List UInt8) (c : UInt8) : List UInt8 := out ++ [c]

/-- The loop that copies `n` more bytes to the stream. -/
def streamTrail (out : List UInt8) : ℕ → ℕ → List UInt8 → Except Fault (List UInt8 × ℕ × List UInt8)
  | 0, len, x => .ok (out, len, x)
  | _ + 1, _, [] => .error .readsPast
  | n + 1, len, c :: x => streamTrail (writeCharToStream out c) n (countDown len) x

/-- A character as a decimal number. -/
def streamNumber (out : List UInt8) (c : UInt8) : List UInt8 :=
  writeCharToStream (writeStringToStream (writeStringToStream out (ascii "&#")) (numtostr c.toNat)) 59

def streamChar (flags : ℕ) (utf8 : Bool) (out : List UInt8) (len : ℕ) (c : UInt8) (x : List UInt8) :
    Except Fault (Option (List UInt8 × ℕ × List UInt8)) :=
  match entityText flags c with
  | some text => .ok (some (writeStringToStream out text, len, x))
  | none =>
    if c = 0 then
      if len = unknownLen then .ok none
      else .ok (some (writeStringToStream out (ascii "&#xe000;"), len, x))
    else if 32 ≤ c ∧ c < 128 then .ok (some (writeCharToStream out c, len, x))
    else if c < 32 then
      let out := writeStringToStream out (ascii "&#xe0")
      let out := writeCharToStream out (hexDigit true (c.toNat / 16))
      let out := writeCharToStream out (hexDigit true (c.toNat % 16))
      .ok (some (writeCharToStream out 59, len, x))
    else if utf8 then
      (utf8CharLen unknownLen (c :: x)).bind fun chlen =>
        if chlen = 0 then .ok (some (streamNumber out c, len, x))
        else (streamTrail (writeCharToStream out c) (chlen - 1) len x).map some
    else .ok (some (streamNumber out c, len, x))

theorem streamTrail_eq (out : List UInt8) (n len : ℕ) (x : List UInt8) :
    streamTrail out n len x = (copyTrail n len x).map fun r => (out ++ r.1, r.2) := by
  induction n generalizing out len x with
  | zero =>
    rw [streamTrail, copyTrail]
    exact congrArg (fun t => Except.ok (t, len, x)) (List.append_nil out).symm
  | succ n ih =>
    cases x with
    | nil => rfl
    | cons c x =>
      rw [streamTrail, copyTrail, ih]
      cases copyTrail n (countDown len) x with
      | error fault => rfl
      | ok r => exact congrArg (fun t => Except.ok (t, r.2)) (List.append_assoc out [c] r.1)

/-- What is written to the stream is the text that is appended to the string. -/
theorem streamChar_eq (flags : ℕ) (utf8 : Bool) (out : List UInt8) (len : ℕ) (c : UInt8)
    (x : List UInt8) : streamChar flags utf8 out len c x =
      (xmlChar flags utf8 len c x).map (Option.map fun r => (out ++ r.1, r.2)) := by
  have hnumber : streamNumber out c = out ++ (ascii "&#" ++ numtostr c.toNat ++ ascii ";") := by
    unfold streamNumber writeCharToStream writeStringToStream
    rw [← List.append_assoc, ← List.append_assoc]
    rfl
  unfold streamChar xmlChar
  cases entityText flags c with
  | some text => rfl
  | none =>
    dsimp only
    by_cases hzero : c = 0
    · rw [if_pos hzero, if_pos hzero]
      split_ifs <;> rfl
    rw [if_neg hzero, if_neg hzero]
    by_cases hplain : 32 ≤ c ∧ c < 128
    · rw [if_pos hplain, if_pos hplain]
      rfl
    rw [if_neg hplain, if_neg hplain]
    by_cases hcontrol : c < 32
    · rw [if_pos hcontrol, if_pos hcontrol]
      unfold writeCharToStream writeStringToStream
      simp only [Except.map, Option.map, List.append_assoc, List.cons_append, List.nil_append]
      rfl
    rw [if_neg hcontrol, if_neg hcontrol, hnumber]
    cases utf8 with
    | false => rfl
    | true =>
      rw [if_pos rfl, if_pos rfl]
      cases utf8CharLen unknownLen (c :: x) with
      | error fault => rfl
      | ok chlen =>
        change (if chlen = 0 then _ else _) = Except.map _ (if chlen = 0 then _ else _)
        by_cases hlen : chlen = 0
        · rw [if_pos hlen, if_pos hlen]
          rfl
        rw [if_neg hlen, if_neg hlen, streamTrail_eq]
        cases copyTrail (chlen - 1) len x with
        | error fault => rfl
        | ok r =>
          exact congrArg (fun t => Except.ok (some (t, r.2))) (List.append_assoc out [c] r.1)

theorem streamChar_length {flags len len' : ℕ} {utf8 : Bool} {out out' : List UInt8} {c : UInt8}
    {x rest : List UInt8} (h : streamChar flags utf8 out len c x = .ok (some (out', len', rest))) :
    rest.length ≤ x.length := by
  rw [streamChar_eq] at h
  cases hchar : xmlChar flags utf8 len c x with
  | error fault =>
    rw [hchar] at h
    cases h
  | ok r =>
    rw [hchar] at h
    cases r with
    | none => cases h
    | some r =>
      obtain ⟨text, len'', rest'⟩ := r
      cases h
      exact xmlChar_length hchar

/-- The overload that writes to a stream, which has been written up to `out`. -/
def encodeXMLStream (flags : ℕ) (utf8 : Bool) (out : List UInt8) (len : ℕ) :
    List UInt8 → Except Fault (List UInt8)
  | [] => if len = 0 then .ok out else .error .readsPast
  | c :: x =>
    if len = 0 then .ok out
    else
      match _h : streamChar flags utf8 out len c x with
      | .error fault => .error fault
      | .ok none => .ok out
      | .ok (some (out, len, rest)) => encodeXMLStream flags utf8 out (countDown len) rest
termination_by x => x.length
decreasing_by exact Nat.lt_succ_of_le (streamChar_length ‹_›)

section
variable {flags len : ℕ} {utf8 : Bool} {c : UInt8} {x : List UInt8}

theorem encodeXML_zero (x : List UInt8) : encodeXML flags utf8 0 x = .ok [] := by
  cases x with
  | nil => rw [encodeXML, if_pos rfl]
  | cons c x => rw [encodeXML, if_pos rfl]

/-- A round that has a result. -/
theorem encodeXML_step {len' : ℕ} {text rest : List UInt8} (hlen : len ≠ 0)
    (h : xmlChar flags utf8 len c x = .ok (some (text, len', rest))) :
    encodeXML flags utf8 len (c :: x) =
      (encodeXML flags utf8 (countDown len') rest).map (text ++ ·) := by
  rw [encodeXML, if_neg hlen]
  split
  · rename_i fault hfault
    rw [h] at hfault
    cases hfault
  · rename_i hend
    rw [h] at hend
    cases hend
  · rename_i text' len'' rest' hstep
    rw [h] at hstep
    cases hstep
    rfl

theorem encodeXML_fault {fault : Fault} (hlen : len ≠ 0)
    (h : xmlChar flags utf8 len c x = .error fault) :
    encodeXML flags utf8 len (c :: x) = .error fault := by
  rw [encodeXML, if_neg hlen]
  split
  · rename_i fault' hfault
    rw [h] at hfault
    cases hfault
    rfl
  · rename_i hend
    rw [h] at hend
    cases hend
  · rename_i text len' rest hstep
    rw [h] at hstep
    cases hstep

theorem encodeXML_end (hlen : len ≠ 0) (h : xmlChar flags utf8 len c x = .ok none) :
    encodeXML flags utf8 len (c :: x) = .ok [] := by
  rw [encodeXML, if_neg hlen]
  split
  · rename_i fault hfault
    rw [h] at hfault
    cases hfault
  · rfl
  · rename_i text len' rest hstep
    rw [h] at hstep
    cases hstep

/-- **The overloads agree.** -/
theorem encodeXMLStream_eq (out : List UInt8) :
    encodeXMLStream flags utf8 out len x = (encodeXML flags utf8 len x).map (out ++ ·) := by
  induction hn : x.length using Nat.strong_induction_on generalizing x out len with
  | _ n ih =>
    cases x with
    | nil =>
      rw [encodeXMLStream, encodeXML]
      split_ifs
      · exact congrArg Except.ok (List.append_nil out).symm
      · rfl
    | cons c x =>
      rw [encodeXMLStream]
      by_cases hlen : len = 0
      · rw [if_pos hlen, hlen, encodeXML_zero]
        exact congrArg Except.ok (List.append_nil out).symm
      rw [if_neg hlen]
      split
      · rename_i fault hfault
        rw [streamChar_eq] at hfault
        cases hchar : xmlChar flags utf8 len c x with
        | error fault' =>
          rw [hchar] at hfault
          cases hfault
          rw [encodeXML_fault hlen hchar]
          rfl
        | ok r =>
          rw [hchar] at hfault
          cases hfault
      · rename_i hend
        rw [streamChar_eq] at hend
        cases hchar : xmlChar flags utf8 len c x with
        | error fault =>
          rw [hchar] at hend
          cases hend
        | ok r =>
          rw [hchar] at hend
          cases r with
          | none =>
            rw [encodeXML_end hlen hchar]
            exact congrArg Except.ok (List.append_nil out).symm
          | some r => cases hend
      · rename_i out' len' rest hstep
        rw [streamChar_eq] at hstep
        cases hchar : xmlChar flags utf8 len c x with
        | error fault =>
          rw [hchar] at hstep
          cases hstep
        | ok r =>
          rw [hchar] at hstep
          cases r with
          | none => cases hstep
          | some r =>
            obtain ⟨text, len'', rest'⟩ := r
            cases hstep
            have hlt : rest.length < n := hn ▸ Nat.lt_succ_of_le (xmlChar_length hchar)
            rw [encodeXML_step hlen hchar, ih rest.length hlt (out ++ text) rfl]
            cases encodeXML flags utf8 (countDown len') rest with
            | error fault => rfl
            | ok more => exact congrArg Except.ok (List.append_assoc out text more)

end

/-! ### What is read -/

/-- The text ends in the first bytes of a character that has more. -/
def CutOff (b : List UInt8) : Prop :=
  ∃ front c trail, b = front ++ c :: trail ∧ ¬c < 192 ∧ (∀ d ∈ trail, isTrail d = true) ∧
    trail.length + 1 < utf8LeadLen c

theorem CutOff.append (front : List UInt8) {b : List UInt8} (h : CutOff b) : CutOff (front ++ b) := by
  obtain ⟨front', c, trail, rfl, h⟩ := h
  exact ⟨front ++ front', c, trail, (List.append_assoc ..).symm, h⟩

theorem countDown_succ {n : ℕ} (h : n + 1 < unknownLen) : countDown (n + 1) = n := by
  unfold countDown
  rw [if_neg h.ne]
  have hsum : n + 1 + unknownLen = n + 2 ^ 32 := by
    rw [Nat.add_assoc]
    rfl
  rw [hsum, Nat.add_mod_right, Nat.mod_eq_of_lt (h.trans_le (by decide) |>.trans' (Nat.lt_succ_self n))]

theorem countDown_unknown : countDown unknownLen = unknownLen := if_pos rfl

/-- Bytes that are there are copied. -/
theorem copyTrail_append (more rest : List UInt8) {m : ℕ} (h : more.length + m < unknownLen) :
    copyTrail more.length (more.length + m) (more ++ rest) = .ok (more, m, rest) := by
  induction more with
  | nil => exact congrArg (fun n => Except.ok ([], n, rest)) (Nat.zero_add m)
  | cons d more ih =>
    rw [List.length_cons, Nat.add_right_comm] at h
    rw [List.length_cons, List.cons_append, Nat.add_right_comm, copyTrail, countDown_succ h,
      ih ((Nat.lt_succ_self _).trans h)]
    rfl

theorem copyTrail_unknown (more rest : List UInt8) :
    copyTrail more.length unknownLen (more ++ rest) = .ok (more, unknownLen, rest) := by
  induction more with
  | nil => rfl
  | cons d more ih =>
    rw [List.length_cons, List.cons_append, copyTrail, countDown_unknown, ih]
    rfl

/-- A byte among those looked at that is a first one, or ASCII. -/
theorem trails_false {n : ℕ} {l : List UInt8} (h : ∃ d ∈ l.take n, isTrail d = false)
    (rest : List UInt8) : trails n (l ++ rest) = .ok false := by
  induction l generalizing n with
  | nil =>
    obtain ⟨d, hd, -⟩ := h
    rw [List.take_nil] at hd
    cases hd
  | cons c l ih =>
    cases n with
    | zero =>
      obtain ⟨d, hd, -⟩ := h
      cases hd
    | succ n =>
      rw [List.cons_append, trails]
      by_cases hc : isTrail c = true
      · rw [if_pos hc]
        obtain ⟨d, hd, hdtrail⟩ := h
        rw [List.take_succ_cons] at hd
        rcases List.mem_cons.mp hd with rfl | hd
        · rw [hc] at hdtrail
          cases hdtrail
        · exact ih ⟨d, hd, hdtrail⟩
      · rw [if_neg hc]

/-- What follows does not matter: no character is cut off, or the next byte does not belong to
one. -/
def Independent (utf8 : Bool) (front x : List UInt8) : Prop :=
  utf8 = false ∨ ¬CutOff front ∨ ∃ c y, x = c :: y ∧ isTrail c = false

section
variable {flags : ℕ} {utf8 : Bool} {c : UInt8} {front : List UInt8}

/-- The first round leaves a part of what is in front. -/
theorem xmlChar_front (flags : ℕ) (utf8 : Bool) (c : UInt8) (front : List UInt8) :
    ∃ text seen rest, front = seen ++ rest ∧ ∀ m x, Independent utf8 (c :: front) x →
      front.length + 1 + m < unknownLen →
        xmlChar flags utf8 (front.length + 1 + m) c (front ++ x) =
          .ok (some (text, rest.length + 1 + m, rest ++ x)) := by
  by_cases hc : utf8 = false ∨ c < 192
  · obtain ⟨text, hchar⟩ := xmlChar_single flags hc
    refine ⟨text, [], front, rfl, fun m x _ hlen => ?_⟩
    rw [hchar, if_neg fun h => hlen.ne h.2]
  rw [not_or, Bool.not_eq_false] at hc
  obtain ⟨rfl, hc⟩ := hc
  by_cases hall : ∀ d ∈ front.take (utf8LeadLen c - 1), isTrail d = true
  · rcases le_or_gt (utf8LeadLen c - 1) front.length with hle | hgt
    · -- the character is complete
      refine ⟨c :: front.take (utf8LeadLen c - 1), front.take (utf8LeadLen c - 1),
        front.drop (utf8LeadLen c - 1), (List.take_append_drop _ _).symm, fun m x _ hlen => ?_⟩
      have hsplit : front ++ x =
          front.take (utf8LeadLen c - 1) ++ (front.drop (utf8LeadLen c - 1) ++ x) := by
        rw [← List.append_assoc, List.take_append_drop]
      have htake : (front.take (utf8LeadLen c - 1)).length = utf8LeadLen c - 1 :=
        List.length_take_of_le hle
      have htrails := @trails_append _ (front.drop (utf8LeadLen c - 1) ++ x) hall
      have hcount : front.length + 1 + m = (front.take (utf8LeadLen c - 1)).length +
          ((front.drop (utf8LeadLen c - 1)).length + 1 + m) := by
        rw [← Nat.add_assoc, ← Nat.add_assoc, ← List.length_append, List.take_append_drop]
      have hcopy := copyTrail_append (front.take (utf8LeadLen c - 1))
        (front.drop (utf8LeadLen c - 1) ++ x) (hcount ▸ hlen)
      rw [htake] at htrails hcopy hcount
      rw [xmlChar_lead flags _ hc, hsplit, htrails, hcount]
      change Except.map _ (copyTrail _ _ _) = _
      rw [hcopy]
      rfl
    · -- it goes on behind the bytes in front
      refine ⟨ascii "&#" ++ numtostr c.toNat ++ ascii ";", [], front, rfl, fun m x hx _ => ?_⟩
      obtain hfalse | hwhole | ⟨d, y, rfl, hd⟩ := hx
      · cases hfalse
      · rw [List.take_of_length_le hgt.le] at hall
        exact absurd ⟨[], c, front, rfl, hc, hall, Nat.add_lt_of_lt_sub hgt⟩ hwhole
      · have hfalse : trails (utf8LeadLen c - 1) (front ++ d :: y) = .ok false := by
          have hmem : d ∈ (front ++ [d]).take (utf8LeadLen c - 1) := by
            rw [List.take_of_length_le]
            · exact List.mem_append_right front (List.mem_singleton_self d)
            · rw [List.length_append]
              exact hgt
          rw [List.append_cons]
          exact trails_false ⟨d, hmem, hd⟩ y
        rw [xmlChar_lead flags _ hc, hfalse]
        rfl
  · -- a byte in front does not belong to the character
    refine ⟨ascii "&#" ++ numtostr c.toNat ++ ascii ";", [], front, rfl, fun m x _ _ => ?_⟩
    simp only [not_forall, Bool.not_eq_true] at hall
    obtain ⟨d, hd, hdfalse⟩ := hall
    rw [xmlChar_lead flags _ hc, trails_false ⟨d, hd, hdfalse⟩]
    rfl

/-- The text of what is in front does not depend on what follows. -/
theorem encodeXML_front (flags : ℕ) (utf8 : Bool) (front : List UInt8) :
    ∃ text, ∀ m x, Independent utf8 front x → front.length + m < unknownLen →
      encodeXML flags utf8 (front.length + m) (front ++ x) =
        (encodeXML flags utf8 m x).map (text ++ ·) := by
  induction hn : front.length using Nat.strong_induction_on generalizing front with
  | _ n ih =>
    cases front with
    | nil =>
      refine ⟨[], fun m x _ _ => ?_⟩
      rw [← hn, List.length_nil, Nat.zero_add, List.nil_append]
      cases encodeXML flags utf8 m x with
      | error fault => rfl
      | ok out => rfl
    | cons c front =>
      obtain ⟨text, seen, rest, rfl, hchar⟩ := xmlChar_front flags utf8 c front
      have hlt : rest.length < n := by
        rw [← hn, List.length_cons, List.length_append]
        exact Nat.lt_succ_of_le (Nat.le_add_left _ _)
      obtain ⟨text', hrest⟩ := ih rest.length hlt rest rfl
      refine ⟨text ++ text', fun m x hx hlen => ?_⟩
      rw [← hn, List.length_cons] at hlen ⊢
      have hrest_lt : rest.length + 1 + m < unknownLen := by
        rw [List.length_append] at hlen
        omega
      have hx' : Independent utf8 rest x := by
        obtain hfalse | hwhole | hnext := hx
        · exact Or.inl hfalse
        · exact Or.inr (Or.inl fun h => hwhole (h.append (c :: seen)))
        · exact Or.inr (Or.inr hnext)
      rw [List.cons_append, encodeXML_step (by omega) (hchar m x hx hlen), Nat.add_right_comm,
        countDown_succ (by omega), hrest m x hx' (by omega)]
      cases encodeXML flags utf8 m x with
      | error fault => rfl
      | ok out => exact congrArg Except.ok (List.append_assoc text text' out).symm

/-- The text is read as far as its length says: there is one output, whatever follows it. -/
def StaysInside (flags : ℕ) (utf8 : Bool) (b : List UInt8) : Prop :=
  ∃ out, ∀ after, encodeXML flags utf8 b.length (b ++ after) = .ok out ∧
    ∀ written, encodeXMLStream flags utf8 written b.length (b ++ after) = .ok (written ++ out)

theorem encodeXML_of_whole {b : List UInt8} (hlen : b.length < unknownLen)
    (hb : utf8 = false ∨ ¬CutOff b) : StaysInside flags utf8 b := by
  obtain ⟨text, htext⟩ := encodeXML_front flags utf8 b
  refine ⟨text, fun after => ?_⟩
  have hind : Independent utf8 b after := hb.imp_right Or.inl
  have hresult : encodeXML flags utf8 b.length (b ++ after) = .ok text := by
    have h := htext 0 after hind hlen
    rw [Nat.add_zero, encodeXML_zero] at h
    rw [h]
    exact congrArg Except.ok (List.append_nil text)
  refine ⟨hresult, fun written => ?_⟩
  rw [encodeXMLStream_eq, hresult]
  rfl

/-- A first byte without its further bytes is written as a number. -/
theorem encodeXML_broken {len : ℕ} {x out : List UInt8} (hlen : len ≠ 0) (hc : ¬c < 192)
    (htrails : trails (utf8LeadLen c - 1) x = .ok false)
    (h : encodeXML flags true len (c :: x) = .ok out) : out.head? = some 38 := by
  have hchar : xmlChar flags true len c x =
      .ok (some (ascii "&#" ++ numtostr c.toNat ++ ascii ";", len, x)) := by
    rw [xmlChar_lead flags len hc, htrails]
    rfl
  rw [encodeXML_step hlen hchar] at h
  cases hmore : encodeXML flags true (countDown len) x with
  | error fault =>
    rw [hmore] at h
    cases h
  | ok more =>
    rw [hmore] at h
    cases h
    rfl

/-- With them it is copied. -/
theorem encodeXML_copied {len : ℕ} {x out : List UInt8} (hlen : len ≠ 0) (hc : ¬c < 192)
    (htrails : trails (utf8LeadLen c - 1) x = .ok true)
    (h : encodeXML flags true len (c :: x) = .ok out) : out.head? = some c := by
  have hchar : xmlChar flags true len c x =
      (copyTrail (utf8LeadLen c - 1) len x).map fun r => some (c :: r.1, r.2) := by
    rw [xmlChar_lead flags len hc, htrails]
    rfl
  cases hcopy : copyTrail (utf8LeadLen c - 1) len x with
  | error fault =>
    rw [hcopy] at hchar
    rw [encodeXML_fault hlen hchar] at h
    cases h
  | ok r =>
    rw [hcopy] at hchar
    rw [encodeXML_step hlen hchar] at h
    cases hmore : encodeXML flags true (countDown r.2.1) r.2.2 with
    | error fault =>
      rw [hmore] at h
      cases h
    | ok more =>
      rw [hmore] at h
      cases h
      rfl

/-- A character that is cut off has one text in front of the terminator and another one in front of
its further bytes. -/
theorem encodeXML_of_cutOff {b : List UInt8} (hlen : b.length < unknownLen) (hb : CutOff b) :
    ¬∃ out, ∀ s, encodeXML flags true b.length (b ++ cells s) = .ok out := by
  rintro ⟨out, hout⟩
  obtain ⟨front, c, trail, rfl, hc, htrail, hmore⟩ := hb
  obtain ⟨text, htext⟩ := encodeXML_front flags true front
  have hnext : isTrail c = false := by
    unfold isTrail
    rw [decide_eq_false hc, Bool.and_false]
  rw [List.length_append, List.length_cons] at hlen hout
  have hsplit : ∀ s, ∃ out', encodeXML flags true (trail.length + 1) (c :: (trail ++ cells s)) =
      .ok out' ∧ out = text ++ out' := by
    intro s
    have h := hout s
    rw [List.append_assoc, List.cons_append,
      htext _ _ (Or.inr (Or.inr ⟨c, _, rfl, hnext⟩)) hlen] at h
    cases hrest : encodeXML flags true (trail.length + 1) (c :: (trail ++ cells s)) with
    | error fault =>
      rw [hrest] at h
      cases h
    | ok out' =>
      rw [hrest] at h
      cases h
      exact ⟨out', rfl, rfl⟩
  obtain ⟨out₁, hbroken, rfl⟩ := hsplit []
  have hfalse : trails (utf8LeadLen c - 1) (trail ++ cells []) = .ok false := by
    have hmem : (0 : UInt8) ∈ (trail ++ cells []).take (utf8LeadLen c - 1) := by
      rw [List.take_of_length_le]
      · exact List.mem_append_right trail (List.mem_singleton_self 0)
      · rw [List.length_append]
        exact Nat.le_sub_one_of_lt hmore
    have h := trails_false ⟨0, hmem, rfl⟩ []
    rwa [List.append_nil] at h
  obtain ⟨out₂, hcopied, heq⟩ :=
    hsplit (List.replicate (utf8LeadLen c - 1 - trail.length) 0x80)
  have htrue : trails (utf8LeadLen c - 1)
      (trail ++ cells (List.replicate (utf8LeadLen c - 1 - trail.length) 0x80)) = .ok true := by
    have hfull : (trail ++ List.replicate (utf8LeadLen c - 1 - trail.length) 0x80).length =
        utf8LeadLen c - 1 := by
      rw [List.length_append, List.length_replicate]
      exact Nat.add_sub_of_le (Nat.le_sub_one_of_lt ((Nat.lt_succ_self _).trans hmore))
    have h := @trails_append (trail ++ List.replicate (utf8LeadLen c - 1 - trail.length) 0x80) [0]
      fun d hd => by
        rcases List.mem_append.mp hd with hd | hd
        · exact htrail d hd
        · rw [List.eq_of_mem_replicate hd]
          rfl
    rwa [hfull, List.append_assoc] at h
  have hfirst := encodeXML_broken (Nat.succ_ne_zero _) hc hfalse hbroken
  rw [List.append_cancel_left heq, encodeXML_copied (Nat.succ_ne_zero _) hc htrue hcopied] at hfirst
  cases hfirst
  exact hc (by decide)

/-- The output depends on the text alone exactly if no character of it is cut off. -/
theorem staysInside_iff {b : List UInt8} (hlen : b.length < unknownLen) :
    StaysInside flags utf8 b ↔ utf8 = false ∨ ¬CutOff b := by
  constructor
  · rintro ⟨out, hout⟩
    cases utf8 with
    | false => exact Or.inl rfl
    | true => exact Or.inr fun hb => encodeXML_of_cutOff hlen hb ⟨out, fun s => (hout (cells s)).1⟩
  · exact encodeXML_of_whole hlen

end

end Escape
