import HpccPlatform.Csv.Splitter
import HpccPlatform.Utf8.ToLower
import Mathlib.Algebra.BigOperators.Group.List.Basic

/-!
# Fields in UTF-8

`writeUtf8` of `csvsplitter.cpp` does for UTF-8 what `writeString` does for single bytes, with the
number of bytes of each character in an array.  For ASCII the two write the same, but for a field of
blanks only: its spaces are all trimmed by `writeString`, and none by `writeUtf8`.
-/

namespace Utf8

/-! ### `readUtf8Character` -/

def sourceIllegal : ℕ := 0xFFFFFFFF

def sourceExhausted : ℕ := 0xFFFFFFFE

/-- The first byte is none that only goes on with a character or starts one that is too long. -/
def legalFirst (c : UInt8) : Bool := !(0x80 ≤ c && c < 0xC2) && !(0xF4 < c)

def legalSecond (c a : UInt8) : Bool :=
  !(0xBF < a) &&
    (if c = 0xE0 then !(a < 0xA0)
    else if c = 0xF0 then !(a < 0x90)
    else if c = 0xF4 then !(0x8F < a)
    else !(a < 0x80))

def legalTrail (a : UInt8) : Bool := !(a < 0x80 || 0xBF < a)

def isLegalUTF8 : List UInt8 → Bool
  | [c] => legalFirst c
  | [c, a] => legalSecond c a && legalFirst c
  | [c, a, b] => legalTrail b && legalSecond c a && legalFirst c
  | [c, a, b, d] => legalTrail d && legalTrail b && legalSecond c a && legalFirst c
  | _ => false

def offsetsFromUTF8 : ℕ → ℕ
  | 0 => 0x00000000
  | 1 => 0x00003080
  | 2 => 0x000E2080
  | 3 => 0x03C82080
  | 4 => 0xFA082080
  | _ => 0x82082080

/-- The character at `cur`, in at most `len` bytes, and by how much `cur` is advanced.  There is no
result if memory is read that does not belong to the text. -/
def readUtf8Character (len : ℕ) (cur : List UInt8) : Option (ℕ × ℕ) :=
  if len = 0 then some (sourceExhausted, 0)
  else
    match cur with
    | [] => none
    | c :: _ =>
      let extraBytesToRead := getTrailingBytesForUTF8 c
      if len ≤ extraBytesToRead then some (sourceExhausted, 0)
      else if cur.length < extraBytesToRead + 1 then none
      else if isLegalUTF8 (cur.take (extraBytesToRead + 1)) then
        let ch := (cur.take (extraBytesToRead + 1)).foldl (fun ch b => (ch * 64 + b.toNat) % 2 ^ 32) 0
        some ((ch + (2 ^ 32 - offsetsFromUTF8 extraBytesToRead)) % 2 ^ 32, extraBytesToRead + 1)
      else some (sourceIllegal, 0)

theorem getTrailingBytesForUTF8_ascii {c : UInt8} (hc : c < 0x80) : getTrailingBytesForUTF8 c = 0 := by
  have hlt : c.toNat < 128 := hc
  unfold getTrailingBytesForUTF8
  rw [if_pos]
  exact hlt.trans (by decide)

theorem readUtf8Character_ascii {c : UInt8} (hc : c < 0x80) (cur : List UInt8) :
    readUtf8Character 2 (c :: cur) = some (c.toNat, 1) := by
  have hlt : c.toNat < 128 := hc
  have hfirst : legalFirst c = true := by
    unfold legalFirst
    have hge : decide (0x80 ≤ c) = false := decide_eq_false (not_le.mpr hlt)
    have hgt : decide (0xF4 < c) = false :=
      decide_eq_false fun h => absurd (hlt.trans_le (by decide : 128 ≤ 244)) (not_lt.mpr (le_of_lt h))
    rw [hge, hgt]
    rfl
  unfold readUtf8Character
  dsimp only
  rw [if_neg (by decide), getTrailingBytesForUTF8_ascii hc, if_neg (by decide), if_neg (by simp),
    Nat.zero_add,
    List.take_succ_cons, List.take_zero, if_pos (show isLegalUTF8 [c] = true from hfirst), List.foldl_cons,
    List.foldl_nil, Nat.zero_mul, Nat.zero_add, offsetsFromUTF8, Nat.sub_zero, Nat.add_mod_right,
    Nat.mod_mod, Nat.mod_eq_of_lt (hlt.trans (by decide))]

end Utf8

namespace Csv

open Utf8

/-! ### `writeUtf8` -/

/-- What the first loop finds: the sizes of the characters, the first and the last one that is no
space, and the number of bytes. -/
structure CharacterSizes where
  cl : List ℕ
  start : Option ℕ
  last : ℕ
  size : ℕ

namespace CSVOutputStream

/-- The first loop, from the character `i` on, with the bytes `s` left. -/
def characterSizes : ℕ → ℕ → List UInt8 → CharacterSizes → Option CharacterSizes
  | 0, _, _, v => some v
  | n + 1, i, s, v =>
    match readUtf8Character 2 s with
    | none => none
    | some (character, size) =>
      -- `next` is a `UChar` of 16 bits
      let next := character % 2 ^ 16
      characterSizes n (i + 1) (s.drop size)
        { cl := v.cl ++ [size]
          start := if next ≠ 32 then v.start <|> some i else v.start
          last := if next ≠ 32 then i else v.last
          size := v.size + size }

/-- `while (end<len) e -= cl[--len]` -/
def trimEnd (cl : List ℕ) (last : ℕ) : ℕ → ℕ → ℕ × ℕ
  | 0, e => (0, e)
  | len + 1, e => if last < len + 1 then trimEnd cl last len (e - cl.getD len 0) else (len + 1, e)

/-- A separator, a terminator or a quote begins here. -/
def special (o : CSVOutputStream) (s : List UInt8) : Bool :=
  (!o.separator.isEmpty && o.separator.isPrefixOf s) ||
    (!o.terminator.isEmpty && o.terminator.isPrefixOf s) || o.quote.isPrefixOf s

def needQuoteUtf8 (o : CSVOutputStream) : List ℕ → List UInt8 → Bool
  | [], _ => false
  | size :: cl, s => o.special s || needQuoteUtf8 o cl (s.drop size)

def doubleQuotesUtf8 (o : CSVOutputStream) : List ℕ → List UInt8 → List UInt8
  | [], _ => []
  | size :: cl, s =>
    (if o.quote.isPrefixOf s then o.quote else []) ++ s.take size ++ doubleQuotesUtf8 o cl (s.drop size)

/-- What is left of the field: the sizes of its characters, and its bytes. -/
def trimUtf8 (v : CharacterSizes) (len : ℕ) (data : List UInt8) : List ℕ × List UInt8 :=
  match v.start with
  | none => (v.cl, data.take v.size)
  | some start =>
    let skipped := (v.cl.take start).sum
    let cl := v.cl.drop start
    let trimmed := trimEnd cl (v.last - start + 1) (len - start) v.size
    (cl.take trimmed.1, (data.take trimmed.2).drop skipped)

/-- `writeUtf8` for `len` characters from `data` on. -/
def writeUtf8 (o : CSVOutputStream) (len : ℕ) (data : List UInt8) : Option CSVOutputStream :=
  let written (field : List UInt8) : CSVOutputStream :=
    { o with text := o.text ++ o.lastPrefix ++ field, lastPrefix := o.separator }
  if o.oldOutputFormat then
    (rtlUtf8Size len data 0).map fun size => written (o.quote ++ data.take size ++ o.quote)
  else if len = 0 then some (written [])
  else
    (characterSizes len 0 data ⟨[], none, 0, 0⟩).map fun v =>
      let (cl, s) := trimUtf8 v len data
      written (if o.needQuoteUtf8 cl s then o.quote ++ o.doubleQuotesUtf8 cl s ++ o.quote else s)

/-! ### ASCII -/

variable {o : CSVOutputStream} {data front mid : List UInt8} {k b : ℕ}

/-- The text between the spaces at both ends. -/
structure Blanks (data mid : List UInt8) (k b : ℕ) : Prop where
  eq : data = List.replicate k 32 ++ mid ++ List.replicate b 32
  head : ∃ c ∈ mid.head?, c ≠ 32
  last : ∃ c ∈ mid.getLast?, c ≠ 32

theorem dropWhile_blanks (k : ℕ) (s : List UInt8) :
    (List.replicate k 32 ++ s).dropWhile (· = 32) = s.dropWhile (· = 32) := by
  refine List.dropWhile_append_of_pos fun c hc => ?_
  exact decide_eq_true (List.eq_of_mem_replicate hc)

theorem dropWhile_of_head {s : List UInt8} (hs : ∃ c ∈ s.head?, c ≠ 32) : s.dropWhile (· = 32) = s := by
  obtain ⟨c, hc, hne⟩ := hs
  cases s with
  | nil => cases hc
  | cons d s =>
    rw [List.head?_cons, Option.mem_some_iff] at hc
    exact List.dropWhile_cons_of_neg (by simpa [hc] using hne)

theorem Blanks.trim_eq (h : Blanks data mid k b) : trim data = mid := by
  have hhead : ∃ c ∈ (mid ++ List.replicate b 32).head?, c ≠ 32 := by
    obtain ⟨c, hc, hne⟩ := h.head
    exact ⟨c, by rw [List.head?_append, Option.mem_def.mp hc]; rfl, hne⟩
  have hlast : ∃ c ∈ mid.reverse.head?, c ≠ 32 := by
    rw [List.head?_reverse]
    exact h.last
  rw [trim, h.eq, List.append_assoc, dropWhile_blanks, dropWhile_of_head hhead, List.rdropWhile,
    List.reverse_append, List.reverse_replicate, dropWhile_blanks, dropWhile_of_head hlast,
    List.reverse_reverse]

theorem trim_replicate (n : ℕ) : trim (List.replicate n 32) = [] := by
  have h := dropWhile_blanks n []
  rw [List.append_nil] at h
  rw [trim, h]
  rfl

/-- What the first loop has found in the text so far. -/
structure Scanned (front : List UInt8) (v : CharacterSizes) : Prop where
  cl : v.cl = List.replicate front.length 1
  size : v.size = front.length
  blank : v.start = none → front = List.replicate front.length 32
  text : ∀ k, v.start = some k → ∃ mid b, Blanks front mid k b ∧ v.last + 1 = k + mid.length

theorem Scanned.step {v : CharacterSizes} (h : Scanned front v) (c : UInt8) :
    Scanned (front ++ [c])
      { cl := v.cl ++ [1]
        start := if c.toNat ≠ 32 then v.start <|> some front.length else v.start
        last := if c.toNat ≠ 32 then front.length else v.last
        size := v.size + 1 } := by
  have hlen : (front ++ [c]).length = front.length + 1 := List.length_append
  have hiff : c.toNat ≠ 32 ↔ c ≠ 32 := not_congr (UInt8.toNat_inj (b := 32))
  refine ⟨by rw [hlen, h.cl, List.replicate_succ'], by rw [hlen, h.size], fun hnone => ?_, fun k hk => ?_⟩
  · have hc : c = 32 := by
      by_contra hne
      dsimp only at hnone
      rw [if_pos (hiff.mpr hne)] at hnone
      cases hstart : v.start <;> rw [hstart] at hnone <;> cases hnone
    dsimp only at hnone
    rw [if_neg (not_not.mpr (by rw [hc]; rfl))] at hnone
    rw [hlen, List.replicate_succ', ← h.blank hnone, hc]
  · dsimp only at hk ⊢
    by_cases hc : c = 32
    · have hnat : ¬c.toNat ≠ 32 := not_not.mpr (by rw [hc]; rfl)
      rw [if_neg hnat] at hk ⊢
      obtain ⟨mid, b, hblanks, hlast⟩ := h.text k hk
      refine ⟨mid, b + 1, ⟨?_, hblanks.head, hblanks.last⟩, hlast⟩
      rw [hc, List.replicate_succ', ← List.append_assoc, ← hblanks.eq]
    · rw [if_pos (hiff.mpr hc)] at hk ⊢
      cases hstart : v.start with
      | none =>
        rw [hstart] at hk
        have hk : front.length = k := Option.some_inj.mp hk
        refine ⟨[c], 0, ⟨?_, ⟨c, rfl, hc⟩, ⟨c, rfl, hc⟩⟩, by rw [hk, List.length_singleton]⟩
        rw [← hk, ← h.blank hstart, List.replicate_zero, List.append_nil]
      | some j =>
        rw [hstart] at hk
        cases hk
        obtain ⟨mid, b, hblanks, hlast⟩ := h.text k hstart
        have heq : front ++ [c] =
            List.replicate k 32 ++ (mid ++ (List.replicate b 32 ++ [c])) ++ List.replicate 0 32 := by
          rw [List.replicate_zero, List.append_nil, ← List.append_assoc, ← List.append_assoc, ← hblanks.eq]
        refine ⟨mid ++ (List.replicate b 32 ++ [c]), 0, ⟨heq, ?_, ?_⟩, ?_⟩
        · obtain ⟨d, hd, hne⟩ := hblanks.head
          exact ⟨d, by rw [List.head?_append, Option.mem_def.mp hd]; rfl, hne⟩
        · refine ⟨c, ?_, hc⟩
          rw [← List.append_assoc, List.getLast?_append]
          rfl
        · have hcount := congrArg List.length heq
          rw [hlen, List.replicate_zero, List.append_nil, List.length_append, List.length_replicate] at hcount
          exact hcount

theorem characterSizes_ascii : ∀ (s front : List UInt8) (v : CharacterSizes), (∀ c ∈ s, c < 0x80) →
    Scanned front v → ∃ v', characterSizes s.length front.length s v = some v' ∧ Scanned (front ++ s) v'
  | [], front, v, _, h => ⟨v, rfl, by rwa [List.append_nil]⟩
  | c :: s, front, v, hascii, h => by
    have hc := hascii c List.mem_cons_self
    have hlt : c.toNat < 128 := hc
    obtain ⟨v', hrest, hscanned⟩ := characterSizes_ascii s (front ++ [c]) _
      (fun d hd => hascii d (List.mem_cons_of_mem c hd)) (h.step c)
    refine ⟨v', ?_, by rwa [List.append_assoc] at hscanned⟩
    rw [List.length_append, List.length_singleton] at hrest
    rw [List.length_cons, characterSizes, readUtf8Character_ascii hc]
    dsimp only
    rw [Nat.mod_eq_of_lt (hlt.trans (by decide))]
    exact hrest

theorem trimEnd_replicate (n m : ℕ) : ∀ (b e : ℕ), n + b ≤ m →
    trimEnd (List.replicate m 1) n (n + b) e = (n, e - b)
  | 0, e, _ => by
    cases n with
    | zero => rfl
    | succ n =>
      rw [Nat.add_zero, trimEnd, if_neg (lt_irrefl _)]
      rfl
  | b + 1, e, hm => by
    have hget : (List.replicate m 1).getD (n + b) 0 = 1 := by
      have hlt : n + b < m := Nat.lt_of_succ_le hm
      rw [List.getD_eq_getElem?_getD, List.getElem?_replicate_of_lt hlt]
      rfl
    rw [← Nat.add_assoc, trimEnd, if_pos (Nat.lt_succ_of_le (Nat.le_add_right n b)), hget,
      trimEnd_replicate n m b (e - 1) (Nat.le_of_succ_le hm), Nat.sub_sub, Nat.add_comm 1 b]

theorem Scanned.trimUtf8_text {v : CharacterSizes} (h : Scanned data v) (hstart : v.start = some k) :
    trimUtf8 v data.length data = (List.replicate (trim data).length 1, trim data) := by
  obtain ⟨mid, b, hblanks, hlast⟩ := h.text k hstart
  have hpos : 0 < mid.length := by
    obtain ⟨c, hc, -⟩ := hblanks.head
    exact List.length_pos_of_mem (List.mem_of_mem_head? hc)
  have hlen : data.length = k + mid.length + b := by
    rw [hblanks.eq, List.length_append, List.length_append, List.length_replicate, List.length_replicate]
  have hcount : v.last - k + 1 = mid.length := by omega
  have hrest : data.length - k = mid.length + b := by omega
  have hend : data.length - b = (List.replicate k 32 ++ mid).length := by
    rw [List.length_append, List.length_replicate, hlen, Nat.add_sub_cancel]
  have hskip : min k data.length = k := min_eq_left (by omega)
  unfold trimUtf8
  rw [hstart]
  dsimp only
  rw [h.cl, h.size, List.take_replicate, List.drop_replicate, hskip, hcount, hrest,
    trimEnd_replicate _ _ _ _ le_rfl]
  dsimp only
  rw [List.take_replicate, List.sum_replicate,
    show k • 1 = k from Nat.mul_one k, hend, hblanks.trim_eq, min_eq_left (Nat.le_add_right _ _)]
  conv_lhs => rw [hblanks.eq]
  rw [List.take_left, List.drop_left' (List.length_replicate)]

theorem needQuoteUtf8_ascii (o : CSVOutputStream) : ∀ s : List UInt8,
    o.needQuoteUtf8 (List.replicate s.length 1) s = o.needQuote s
  | [] => rfl
  | c :: s => by
    rw [List.length_cons, List.replicate_succ, needQuoteUtf8, needQuote, List.drop_one, List.tail_cons,
      needQuoteUtf8_ascii o s]
    rfl

theorem doubleQuotesUtf8_ascii (o : CSVOutputStream) : ∀ s : List UInt8,
    o.doubleQuotesUtf8 (List.replicate s.length 1) s = o.doubleQuotes s
  | [] => rfl
  | c :: s => by
    rw [List.length_cons, List.replicate_succ, doubleQuotesUtf8, doubleQuotes, List.drop_one,
      List.tail_cons, doubleQuotesUtf8_ascii o s]
    by_cases hquote : o.quote.isPrefixOf (c :: s) = true
    · rw [if_pos hquote, if_pos hquote, List.append_assoc]
      rfl
    · rw [if_neg hquote, if_neg hquote]
      rfl

theorem utf8SizeLoop_ascii (hascii : ∀ c ∈ data, c < 0x80) (hlen : data.length < 2 ^ 32) :
    ∀ n offset, offset + n = data.length → utf8SizeLoop data 0 n offset = some (offset + n)
  | 0, _, _ => rfl
  | n + 1, offset, h => by
    have hlt : offset < data.length := by omega
    have hsize : readUtf8Size data[offset] = 1 := by
      rw [readUtf8Size, getTrailingBytesForUTF8_ascii (hascii _ (List.getElem_mem hlt))]
    rw [utf8SizeLoop, Nat.zero_add, Buffer.peek, List.getElem?_eq_getElem hlt]
    change utf8SizeLoop data 0 n ((offset + readUtf8Size data[offset]) % 2 ^ 32) = _
    rw [hsize, Nat.mod_eq_of_lt (Nat.lt_of_le_of_lt hlt hlen), utf8SizeLoop_ascii hascii hlen n (offset + 1)
      (by omega), Nat.add_assoc, Nat.add_comm 1]

/-- The quoted field is not empty. -/
theorem field_ne_nil (o : CSVOutputStream) {s : List UInt8} (hs : s ≠ []) :
    (if o.needQuote s then o.quote ++ o.doubleQuotes s ++ o.quote else s) ≠ [] := by
  cases s with
  | nil => exact absurd rfl hs
  | cons c s =>
    by_cases hquote : o.needQuote (c :: s) = true
    · rw [if_pos hquote, doubleQuotes]
      split_ifs <;> simp
    · rw [if_neg hquote]
      exact hs

/-- For ASCII `writeUtf8` writes what `writeString` writes, exactly if the field is not of spaces
only or the format is the old one. -/
theorem writeUtf8_agrees_iff (o : CSVOutputStream) (data : List UInt8) (hascii : ∀ c ∈ data, c < 0x80)
    (hlen : data.length < 2 ^ 32) :
    (o.writeUtf8 data.length data).map text = some (o.writeString data).text ↔
      o.oldOutputFormat = true ∨ data = [] ∨ ∃ c ∈ data, c ≠ 32 := by
  unfold writeUtf8 writeString
  dsimp only
  by_cases hold : o.oldOutputFormat = true
  · rw [if_pos hold, if_pos hold, rtlUtf8Size, utf8SizeLoop_ascii hascii hlen _ 0 (Nat.zero_add _),
      Option.map_some, Option.map_some, Nat.zero_add, List.take_length]
    exact iff_of_true rfl (Or.inl hold)
  rw [if_neg hold, if_neg hold]
  by_cases hempty : data = []
  · subst hempty
    exact iff_of_true rfl (Or.inr (Or.inl rfl))
  have hlength : data.length ≠ 0 := fun h => hempty (List.length_eq_zero_iff.mp h)
  have hnot : data.isEmpty ≠ true := fun h => hempty (List.isEmpty_iff.mp h)
  obtain ⟨v, hv, hscanned⟩ := characterSizes_ascii data [] ⟨[], none, 0, 0⟩ hascii
    ⟨rfl, rfl, fun _ => rfl, fun k hk => by cases hk⟩
  rw [List.nil_append] at hscanned
  rw [if_neg hlength, if_neg hnot, show characterSizes data.length 0 data _ = some v from hv,
    Option.map_some, Option.map_some, Option.some_inj]
  cases hstart : v.start with
  | some k =>
    rw [hscanned.trimUtf8_text hstart]
    dsimp only
    rw [needQuoteUtf8_ascii, doubleQuotesUtf8_ascii]
    refine iff_of_true rfl (Or.inr (Or.inr ?_))
    obtain ⟨mid, b, hblanks, -⟩ := hscanned.text k hstart
    obtain ⟨c, hc, hne⟩ := hblanks.head
    refine ⟨c, ?_, hne⟩
    rw [hblanks.eq]
    exact List.mem_append_left _ (List.mem_append_right _ (List.mem_of_mem_head? hc))
  | none =>
    have hblank := hscanned.blank hstart
    have hall : trimUtf8 v data.length data = (List.replicate data.length 1, data) := by
      unfold trimUtf8
      rw [hstart, hscanned.cl, hscanned.size, List.take_length]
    have htrim : trim data = [] := by rw [hblank, trim_replicate]
    rw [hall, htrim]
    dsimp only
    rw [needQuoteUtf8_ascii, doubleQuotesUtf8_ascii]
    refine iff_of_false (fun h => field_ne_nil o hempty (List.append_cancel_left h)) ?_
    rintro (h | h | ⟨c, hc, hne⟩)
    · exact hold h
    · exact hempty h
    · rw [hblank] at hc
      exact hne (List.eq_of_mem_replicate hc)

/-- A word with a separator, between spaces. -/
theorem writeUtf8_agrees_word :
    ((init [34] [44] [10] false).writeUtf8 4 [32, 97, 44, 32]).map text =
      some ((init [34] [44] [10] false).writeString [32, 97, 44, 32]).text :=
  (writeUtf8_agrees_iff (init [34] [44] [10] false) [32, 97, 44, 32] (by decide +kernel) (by decide)).mpr
    (Or.inr (Or.inr ⟨97, by decide, by decide⟩))

/-- One space is written by `writeUtf8` only. -/
theorem writeUtf8_blank_differs :
    ((init [34] [44] [10] false).writeUtf8 1 [32]).map text ≠
      some ((init [34] [44] [10] false).writeString [32]).text := by
  decide

end CSVOutputStream

end Csv
