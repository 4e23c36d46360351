import HpccPlatform.Nbcd.Reading
import Mathlib.Data.List.DropRight
import Mathlib.Data.Nat.Digits.Lemmas

/-!
# Decimals as text

`setString` reads a text, with leading spaces, a sign, up to 32 digits before the point and up to 32
behind it.  What `getString` writes of a number is its canonical text, and it is read back as a number
equal to it.
-/

namespace Nbcd

open DigitWindow
open DecimalText hiding value

/-! ### The canonical text -/

/-- The digits before the point, without leading zeros. -/
def integerChars (n : ℕ) : List Char :=
  if n = 0 then ['0'] else (Nat.digits 10 n).reverse.map digitChar

/-- The digits behind the point, `places` of them, without the zeros at the end. -/
def fractionChars (places m : ℕ) : List Char :=
  ((List.range places).reverse.map fun i => digitChar (m / 10 ^ i % 10)).rdropWhile (· = '0')

/-- The text of a number with at most 32 digits behind the point: a minus sign only for a number
below 0, no zero in front but a single one, and no zero at the end behind the point. -/
def canonicalText (x : ℚ) : List Char :=
  let m := ⌊|x| * 10 ^ 32⌋.toNat
  (if x < 0 then ['-'] else []) ++ integerChars (m / 10 ^ 32) ++
    if fractionChars 32 m = [] then [] else '.' :: fractionChars 32 m

namespace Decimal

/-! ### `setString` -/

/-- Nothing happens on an overflow but that the first digits are not read. -/
def setString (d : Decimal) (text : List Char) : Decimal :=
  let cur := text.dropWhile (· = ' ')
  let negative : Bool := cur.head? = some '-'
  let cur := if negative then cur.drop 1 else cur
  let integer := cur.takeWhile Char.isDigit
  let cur := cur.dropWhile Char.isDigit
  let numDigits := min integer.length 32
  let digits := fun i =>
    if 32 ≤ i ∧ i < 32 + numDigits then digit (integer.reverse.getD (i - 32) '0') else d.digits i
  let msb := byteOf (32 + (numDigits - 1 : ℤ))
  if cur.head? = some '.' then
    let fraction := ((cur.drop 1).take 32).takeWhile Char.isDigit
    { digits := fun i =>
        if 32 - fraction.length ≤ i ∧ i < 32 then digit (fraction.getD (31 - i) '0') else digits i
      msb := msb
      lsb := byteOf (32 - fraction.length)
      negative := negative }
  else { digits := digits, msb := msb, lsb := 32, negative := negative }

variable {d e : Decimal}

/-! ### Digits and characters -/

theorem charsDown_eq_map (digits : ℕ → ℕ) (lo top : ℕ) :
    charsDown digits lo top =
      (List.range (top - lo)).reverse.map fun k => digitChar (digits (lo + k)) := by
  induction top with
  | zero => rw [charsDown_of_le (Nat.zero_le lo), Nat.zero_sub]; rfl
  | succ top ih =>
    rcases Nat.lt_or_ge top lo with hlt | hge
    · rw [charsDown_of_le hlt, Nat.sub_eq_zero_of_le hlt]
      rfl
    · rw [charsDown_succ hge, ih, Nat.succ_sub hge, List.range_succ, List.reverse_concat,
        List.map_cons, Nat.add_sub_cancel' hge]

theorem charsDown_congr {digits digits' : ℕ → ℕ} {lo top : ℕ}
    (h : ∀ i, lo ≤ i → i < top → digits i = digits' i) :
    charsDown digits lo top = charsDown digits' lo top := by
  rw [charsDown_eq_map, charsDown_eq_map]
  refine List.map_congr_left fun k hk => ?_
  rw [List.mem_reverse, List.mem_range] at hk
  rw [h (lo + k) (Nat.le_add_right _ _) (by omega)]

theorem charsDown_zeros {digits : ℕ → ℕ} {lo top : ℕ} (h : ∀ i, lo ≤ i → i < top → digits i = 0) :
    charsDown digits lo top = List.replicate (top - lo) '0' := by
  rw [charsDown_eq_map, List.eq_replicate_iff]
  refine ⟨by rw [List.length_map, List.length_reverse, List.length_range], fun c hc => ?_⟩
  obtain ⟨k, hk, rfl⟩ := List.mem_map.1 hc
  rw [List.mem_reverse, List.mem_range] at hk
  rw [h (lo + k) (Nat.le_add_right _ _) (by omega)]
  rfl

theorem charsDown_isDigit {digits : ℕ → ℕ} {lo top : ℕ}
    (hdigits : ∀ i, lo ≤ i → i < top → digits i < 10) :
    ∀ c ∈ charsDown digits lo top, c.isDigit = true := by
  have hall : ∀ n < 10, (digitChar n).isDigit = true := by decide
  intro c hc
  rw [charsDown_eq_map] at hc
  obtain ⟨k, hk, rfl⟩ := List.mem_map.1 hc
  rw [List.mem_reverse, List.mem_range] at hk
  exact hall _ (hdigits _ (Nat.le_add_right _ _) (by omega))

theorem digitChar_digit {c : Char} (hc : c.isDigit = true) : digitChar (digit c) = c := by
  have hrange : 48 ≤ c.toNat ∧ c.toNat ≤ 57 := by
    simp only [Char.isDigit, Bool.and_eq_true, decide_eq_true_eq] at hc
    exact ⟨hc.1, hc.2⟩
  unfold digitChar digit
  rw [Nat.add_sub_cancel' hrange.1, Char.ofNat_toNat]

theorem digit_le {c : Char} (hc : c.isDigit = true) : digit c ≤ 9 := by
  have hrange : c.toNat ≤ 57 := by
    simp only [Char.isDigit, Bool.and_eq_true, decide_eq_true_eq] at hc
    exact hc.2
  unfold digit
  omega

theorem digit_getD_le {text : List Char} (htext : ∀ c ∈ text, c.isDigit = true) (k : ℕ) :
    digit (text.getD k '0') ≤ 9 := by
  rw [List.getD_eq_getElem?_getD]
  cases hc : text[k]? with
  | none => decide
  | some c => exact digit_le (htext c (List.mem_of_getElem? hc))

theorem map_range_getD {α : Type*} (xs : List α) (x : α) :
    (List.range xs.length).map (fun k => xs.getD k x) = xs := by
  refine List.ext_getElem (by simp) fun i h h' => ?_
  simp [List.getD_eq_getElem?_getD, h']

/-- The digits of a text give the text back. -/
theorem charsDown_of_text {digits : ℕ → ℕ} {lo : ℕ} {text : List Char}
    (htext : ∀ c ∈ text, c.isDigit = true)
    (hdigits : ∀ k < text.length, digits (lo + k) = digit (text.reverse.getD k '0')) :
    charsDown digits lo (lo + text.length) = text := by
  have hchars : ∀ k ∈ (List.range text.length).reverse,
      digitChar (digits (lo + k)) = text.reverse.getD k '0' := by
    intro k hk
    rw [List.mem_reverse, List.mem_range] at hk
    rw [hdigits k hk, digitChar_digit]
    refine htext _ (List.mem_reverse.1 ?_)
    rw [← List.length_reverse] at hk
    rw [List.getD_eq_getElem?_getD, List.getElem?_eq_getElem hk, Option.getD_some]
    exact List.getElem_mem hk
  rw [charsDown_eq_map, Nat.add_sub_cancel_left, List.map_congr_left hchars, List.map_reverse,
    ← List.length_reverse, map_range_getD, List.reverse_reverse]

/-! ### What is read -/

/-- A sign, digits before the point, and if there is a point digits behind it. -/
def numberText (negative : Bool) (integer : List Char) (fraction : Option (List Char)) : List Char :=
  (if negative then ['-'] else []) ++ (integer ++ fraction.elim [] ('.' :: ·))

/-- The digits that `setString` has room for. -/
structure InRange (integer : List Char) (fraction : Option (List Char)) : Prop where
  integer_digit : ∀ c ∈ integer, c.isDigit = true
  integer_length : integer.length ≤ 32
  fraction_digit : ∀ c ∈ fraction.getD [], c.isDigit = true
  fraction_length : (fraction.getD []).length ≤ 32

section Read

variable {negative : Bool} {integer : List Char} {fraction : Option (List Char)}

theorem head_ne_of_inRange (h : InRange integer fraction) {c : Char}
    (hc : c.isDigit = false) (hpoint : c ≠ '.') :
    (integer ++ fraction.elim [] ('.' :: ·)).head? ≠ some c := by
  cases integer with
  | nil =>
    cases fraction with
    | none => exact (Option.some_ne_none c).symm
    | some f => exact fun heq => hpoint (Option.some.inj heq).symm
  | cons d integer =>
    intro heq
    have hd := h.integer_digit d List.mem_cons_self
    rw [Option.some.inj heq, hc] at hd
    exact Bool.false_ne_true hd

theorem takeWhile_tail (h : InRange integer fraction) :
    (integer ++ fraction.elim [] ('.' :: ·)).takeWhile Char.isDigit = integer := by
  rw [List.takeWhile_append_of_pos h.integer_digit]
  cases fraction with
  | none => exact List.append_nil integer
  | some f => exact List.append_nil integer

theorem dropWhile_tail (h : InRange integer fraction) :
    (integer ++ fraction.elim [] ('.' :: ·)).dropWhile Char.isDigit =
      fraction.elim [] ('.' :: ·) := by
  rw [List.dropWhile_append_of_pos h.integer_digit]
  cases fraction <;> rfl

theorem dropWhile_spaces (h : InRange integer fraction) (spaces : ℕ) :
    (List.replicate spaces ' ' ++ numberText negative integer fraction).dropWhile (· = ' ') =
      numberText negative integer fraction := by
  have hspaces : ∀ c ∈ List.replicate spaces ' ', decide (c = ' ') = true := fun c hc =>
    decide_eq_true (List.eq_of_mem_replicate hc)
  rw [List.dropWhile_append_of_pos hspaces]
  have hhead : (numberText negative integer fraction).head? ≠ some ' ' := by
    cases negative with
    | true => exact fun heq => absurd (Option.some.inj heq) (by decide)
    | false => exact head_ne_of_inRange h (by decide) (by decide)
  cases htext : numberText negative integer fraction with
  | nil => rfl
  | cons c text =>
    rw [htext] at hhead
    exact List.dropWhile_cons_of_neg fun hc => hhead (congrArg some (of_decide_eq_true hc))

/-- The number that is read. -/
theorem setString_numberText (d : Decimal) (h : InRange integer fraction) (spaces : ℕ) :
    d.setString (List.replicate spaces ' ' ++ numberText negative integer fraction) =
      { digits := fun i =>
          if 32 - (fraction.getD []).length ≤ i ∧ i < 32 then
            digit ((fraction.getD []).getD (31 - i) '0')
          else if 32 ≤ i ∧ i < 32 + integer.length then digit (integer.reverse.getD (i - 32) '0')
          else d.digits i
        msb := 31 + integer.length
        lsb := 32 - (fraction.getD []).length
        negative := negative } := by
  have hsign : decide ((numberText negative integer fraction).head? = some '-') = negative := by
    cases negative with
    | true => rfl
    | false => exact decide_eq_false (head_ne_of_inRange h (by decide) (by decide))
  have hcur : (if negative then (numberText negative integer fraction).drop 1
      else numberText negative integer fraction) = integer ++ fraction.elim [] ('.' :: ·) := by
    cases negative <;> rfl
  have hmsb : byteOf (32 + ((integer.length : ℤ) - 1)) = 31 + integer.length := by
    have := h.integer_length
    unfold byteOf
    omega
  unfold setString
  dsimp only
  rw [dropWhile_spaces h, hsign, hcur, takeWhile_tail h, dropWhile_tail h,
    min_eq_left h.integer_length, hmsb]
  cases fraction with
  | none =>
    rw [if_neg (by simp)]
    congr 1
    funext i
    exact (if_neg (by simp)).symm
  | some f =>
    have hlength : f.length ≤ 32 := h.fraction_length
    have hdigits : ∀ c ∈ f, c.isDigit = true := h.fraction_digit
    have htake : ((('.' :: f).drop 1).take 32).takeWhile Char.isDigit = f := by
      rw [List.drop_one, List.tail_cons, List.take_of_length_le hlength,
        List.takeWhile_eq_self_iff.2 hdigits]
    have hlsb : byteOf (32 - f.length) = 32 - f.length := by
      unfold byteOf
      omega
    simp only [Option.elim_some, List.head?_cons, if_true, htake, hlsb, Option.getD_some]

/-- The digits in the order of the text. -/
theorem setString_spec (d : Decimal) (negative : Bool) (h : InRange integer fraction) (spaces : ℕ) :
    (d.setString (List.replicate spaces ' ' ++ numberText negative integer fraction)).WellFormed ∧
      (d.setString (List.replicate spaces ' ' ++ numberText negative integer fraction)).negative =
        negative ∧
      (d.setString (List.replicate spaces ' ' ++ numberText negative integer fraction)).magnitude =
        whole (integer ++ fraction.getD []) * 10 ^ (32 - (fraction.getD []).length) := by
  rw [setString_numberText d h]
  generalize hf : fraction.getD [] = f
  have hfdigit := h.fraction_digit
  have hflength := h.fraction_length
  have hlength := h.integer_length
  rw [hf] at hfdigit hflength
  generalize hdigits : (fun i => if 32 - f.length ≤ i ∧ i < 32 then digit (f.getD (31 - i) '0')
    else if 32 ≤ i ∧ i < 32 + integer.length then digit (integer.reverse.getD (i - 32) '0')
    else d.digits i) = digits
  have hinteger : charsDown digits 32 (32 + integer.length) = integer := by
    refine charsDown_of_text h.integer_digit fun k hk => ?_
    rw [← hdigits]
    dsimp only
    rw [if_neg (by omega), if_pos (by omega), Nat.add_sub_cancel_left]
  have hfraction : charsDown digits (32 - f.length) 32 = f := by
    have hchars : charsDown digits (32 - f.length) (32 - f.length + f.length) = f := by
      refine charsDown_of_text hfdigit fun k hk => ?_
      rw [← hdigits]
      dsimp only
      rw [if_pos (by omega), List.getD_eq_getElem?_getD, List.getD_eq_getElem?_getD,
        List.getElem?_reverse hk, show 31 - (32 - f.length + k) = f.length - 1 - k by omega]
    rwa [Nat.sub_add_cancel hflength] at hchars
  have hall : charsDown digits (32 - f.length) (31 + integer.length + 1) = integer ++ f := by
    rw [show 31 + integer.length + 1 = 32 + integer.length by omega,
      ← charsDown_append digits (Nat.sub_le 32 f.length) (Nat.le_add_right 32 integer.length),
      hinteger, hfraction]
  have hproper : ∀ i, 32 - f.length ≤ i → i ≤ 31 + integer.length → digits i ≤ 9 := by
    intro i hlo hhi
    rw [← hdigits]
    dsimp only
    split_ifs
    · exact digit_getD_le hfdigit _
    · exact digit_getD_le (fun c hc => h.integer_digit c (List.mem_reverse.1 hc)) _
    · omega
  have hmsb : 31 + integer.length ≤ 63 := by omega
  have hlsb : 32 - f.length ≤ 31 + integer.length + 1 := by omega
  refine ⟨⟨hproper, hmsb, hlsb⟩, rfl, ?_⟩
  rw [← hall]
  exact (whole_charsDown (by omega) fun i hlo hhi =>
    Nat.lt_succ_of_le (hproper i hlo (Nat.le_of_lt_succ hhi))).symm

theorem value_of_head? {text : List Char} (h : text.head? ≠ some '-') :
    DecimalText.value text = unsignedValue text := by
  cases text with
  | nil => rfl
  | cons c text => exact value_of_head (fun hc => h (congrArg some hc)) text

/-- The number that the text stands for. -/
theorem value_numberText (h : InRange integer fraction) :
    DecimalText.value (numberText negative integer fraction) =
      (if negative then -1 else 1) *
        (whole (integer ++ fraction.getD []) / 10 ^ (fraction.getD []).length) := by
  have hpoint : ∀ c ∈ integer, c ≠ '.' := fun c hc hdot => by
    have hdigit := h.integer_digit c hc
    rw [hdot] at hdigit
    exact absurd hdigit (by decide)
  have hunsigned : unsignedValue (integer ++ fraction.elim [] ('.' :: ·)) =
      whole (integer ++ fraction.getD []) / 10 ^ (fraction.getD []).length := by
    cases fraction with
    | none =>
      rw [Option.elim_none, Option.getD_none, List.append_nil, unsignedValue_of_digits hpoint,
        List.length_nil, pow_zero, div_one]
    | some f => exact unsignedValue_point hpoint f
  rw [← hunsigned]
  cases negative with
  | true =>
    rw [if_pos rfl, neg_one_mul]
    exact value_minus _
  | false =>
    rw [if_neg Bool.false_ne_true, one_mul]
    exact value_of_head? (head_ne_of_inRange h (by decide) (by decide))

/-- What `setString` reads is the number of the text. -/
theorem val_setString (d : Decimal) (h : InRange integer fraction) (spaces : ℕ) :
    (d.setString (List.replicate spaces ' ' ++ numberText negative integer fraction)).val =
      DecimalText.value (numberText negative integer fraction) := by
  obtain ⟨_, hnegative, hmagnitude⟩ := setString_spec d negative h spaces
  have hlength := h.fraction_length
  rw [val_eq, hnegative, hmagnitude, value_numberText h]
  congr 1
  rw [div_eq_div_iff (by positivity) (by positivity)]
  push_cast
  rw [mul_assoc, ← pow_add, Nat.sub_add_cancel hlength]

end Read

/-! ### What is written -/

/-- The text of a number is one that `setString` has room for. -/
theorem doGetString_numberText (hd : d.WellFormed) :
    ∃ negative integer fraction, d.doGetString = numberText negative integer fraction ∧
      InRange integer fraction := by
  have hzero : ∀ n, ∀ c ∈ List.replicate n '0', c.isDigit = true := fun n c hc => by
    rw [List.eq_of_mem_replicate hc]
    decide
  unfold doGetString
  dsimp only
  rcases clip_cases d with ⟨hempty, _⟩ | ⟨hlt, hclip, _⟩
  · rw [if_pos hempty]
    exact ⟨false, ['0'], none, rfl, hzero 1, by decide, fun c hc => absurd hc List.not_mem_nil,
      by decide⟩
  have htop := hclip.top_le_maxDigits hd
  have hdigit : ∀ lo top, d.clipLsb ≤ lo → top ≤ d.clipTop → ∀ c ∈ charsDown d.digits lo top,
      c.isDigit = true := fun lo top hlo htop => charsDown_isDigit fun i h h' =>
    hclip.digit_lt hd.proper (hlo.trans h) (h'.trans_le htop)
  have hboth : ∀ {xs ys : List Char}, (∀ c ∈ xs, c.isDigit = true) → (∀ c ∈ ys, c.isDigit = true) →
      ∀ c ∈ xs ++ ys, c.isDigit = true := fun hxs hys c hc =>
    (List.mem_append.1 hc).elim (hxs c) (hys c)
  rw [if_neg (Nat.not_le.2 hlt)]
  refine ⟨d.negative, ?_⟩
  unfold numberText
  generalize (if d.negative then ['-'] else []) = sign
  split_ifs with hsmall hpoint
  all_goals simp only [List.append_cancel_left_eq]
  · refine ⟨['0'], some (List.replicate (32 - d.clipTop) '0' ++ charsDown d.digits d.clipLsb d.clipTop),
      rfl, hzero 1, by decide, hboth (hzero _) (hdigit _ _ le_rfl le_rfl), ?_⟩
    rw [Option.getD_some, List.length_append, List.length_replicate, length_charsDown]
    omega
  · refine ⟨charsDown d.digits 32 d.clipTop, some (charsDown d.digits d.clipLsb 32), rfl,
      hdigit _ _ hpoint.le le_rfl, ?_, hdigit _ _ le_rfl (by omega), ?_⟩
    · rw [length_charsDown]
      omega
    · rw [Option.getD_some, length_charsDown]
      omega
  · refine ⟨charsDown d.digits d.clipLsb d.clipTop ++ List.replicate (d.clipLsb - 32) '0', none, ?_,
      hboth (hdigit _ _ le_rfl le_rfl) (hzero _), ?_, fun c hc => absurd hc List.not_mem_nil,
      Nat.zero_le _⟩
    · exact (List.append_nil _).symm
    · rw [List.length_append, List.length_replicate, length_charsDown]
      omega

theorem rdropWhile_append_replicate (text : List Char) (n : ℕ) :
    (text ++ List.replicate n '0').rdropWhile (· = '0') = text.rdropWhile (· = '0') := by
  induction n with
  | zero => rw [List.replicate_zero, List.append_nil]
  | succ n ih =>
    rw [List.replicate_succ', ← List.append_assoc, List.rdropWhile_concat_pos _ _ _ (by decide), ih]

theorem digitChar_ne_zero {n : ℕ} (hn : n < 10) (hne : n ≠ 0) : digitChar n ≠ '0' := by
  have hall : ∀ n < 10, n ≠ 0 → digitChar n ≠ '0' := by decide
  exact hall n hn hne

/-- The digits of the whole part, if the number has one. -/
theorem integerChars_eq {n top : ℕ} (hlt : n < 10 ^ (top + 1)) (hle : 10 ^ top ≤ n) :
    integerChars n = (List.range (top + 1)).reverse.map fun k => digitChar (n / 10 ^ k % 10) := by
  have hlength : (Nat.digits 10 n).length = top + 1 :=
    Nat.le_antisymm ((Nat.digits_length_le_iff (by decide) n).2 hlt)
      ((Nat.lt_digits_length_iff (by decide) n).2 hle)
  have hdigits : Nat.digits 10 n = (List.range (top + 1)).map fun k => n / 10 ^ k % 10 := by
    rw [← map_range_getD (Nat.digits 10 n) 0, hlength]
    exact List.map_congr_left fun k _ => Nat.getD_digits n k (by decide)
  have hpos : 0 < 10 ^ top := Nat.pow_pos (by decide)
  rw [integerChars, if_neg (by omega), hdigits, ← List.map_reverse, List.map_map]
  rfl

/-- The digits behind the point. -/
theorem fractionChars_eq {digits : ℕ → ℕ} {lo m : ℕ} (hlo : lo < 32)
    (hbelow : ∀ i < lo, m / 10 ^ i % 10 = 0) (hne : m / 10 ^ lo % 10 ≠ 0)
    (hdigits : ∀ i, lo ≤ i → i < 32 → m / 10 ^ i % 10 = digits i) :
    fractionChars 32 m = charsDown digits lo 32 := by
  have hall : ((List.range 32).reverse.map fun i => digitChar (m / 10 ^ i % 10)) =
      charsDown (fun i => m / 10 ^ i % 10) lo 32 ++ List.replicate lo '0' := by
    rw [← Nat.sub_zero lo, ← charsDown_zeros fun i _ h => hbelow i h, Nat.sub_zero,
      charsDown_append _ (Nat.zero_le lo) hlo.le, charsDown_eq_map]
    simp only [Nat.sub_zero, Nat.zero_add]
  have hlast : charsDown (fun i => m / 10 ^ i % 10) lo (lo + 1) = [digitChar (m / 10 ^ lo % 10)] := by
    rw [charsDown_succ le_rfl, charsDown_of_le le_rfl]
  rw [fractionChars, hall, rdropWhile_append_replicate, ← charsDown_congr hdigits,
    ← charsDown_append _ (Nat.le_succ lo) hlo, hlast, List.rdropWhile_concat_neg]
  exact fun h => digitChar_ne_zero (Nat.mod_lt _ (by decide)) hne (of_decide_eq_true h)

theorem fractionChars_eq_nil {m : ℕ} (hbelow : ∀ i < 32, m / 10 ^ i % 10 = 0) :
    fractionChars 32 m = [] := by
  have hall : ((List.range 32).reverse.map fun i => digitChar (m / 10 ^ i % 10)) =
      [] ++ List.replicate 32 '0' := by
    rw [← Nat.sub_zero 32, ← charsDown_zeros fun i _ h => hbelow i h, charsDown_eq_map]
    simp only [Nat.sub_zero, Nat.zero_add, List.nil_append]
  rw [fractionChars, hall, rdropWhile_append_replicate, List.rdropWhile_nil]

theorem integerChars_magnitude (hclip : d.Clipped d.clipLsb d.clipTop) (hd : d.WellFormed)
    (hlt : d.clipLsb < d.clipTop) (hgt : 32 < d.clipTop) :
    integerChars (d.magnitude / 10 ^ 32) =
      charsDown (fun i => d.magnitude / 10 ^ i % 10) 32 d.clipTop := by
  obtain ⟨top, htop⟩ : ∃ top, d.clipTop = 32 + (top + 1) := ⟨d.clipTop - 33, by omega⟩
  have hupper := hclip.magnitude_lt hd
  have hlower := hclip.pow_le_magnitude hlt
  rw [htop, pow_add] at hupper
  rw [htop, show 32 + (top + 1) - 1 = top + 32 by omega, pow_add] at hlower
  have hpos : 0 < 10 ^ 32 := Nat.pow_pos (by decide)
  rw [integerChars_eq (Nat.div_lt_of_lt_mul hupper) ((Nat.le_div_iff_mul_le hpos).2 hlower),
    charsDown_eq_map, htop, Nat.add_sub_cancel_left]
  exact List.map_congr_left fun k _ => by rw [Nat.div_div_eq_div_mul, ← pow_add]

/-- **The text of a number is its canonical text.** -/
theorem doGetString_eq (hd : d.WellFormed) : d.doGetString = canonicalText d.val := by
  have hunits : ⌊|d.val| * 10 ^ 32⌋.toNat = d.magnitude := by
    rw [abs_val, div_mul_cancel₀ _ (by positivity), Int.floor_natCast, Int.toNat_natCast]
  unfold canonicalText
  dsimp only
  rw [hunits]
  rcases clip_cases d with ⟨hempty, hzero⟩ | ⟨hlt, hclip, hne⟩
  · have hnil : fractionChars 32 0 = [] := fractionChars_eq_nil fun i _ => by
      rw [Nat.zero_div, Nat.zero_mod]
    rw [doGetString, if_pos hempty, hzero, val_eq_zero_iff.2 hzero, if_neg (lt_irrefl _), hnil]
    rfl
  have hlo := hclip.magnitude_eq
  have htop := hclip.top_le_maxDigits hd
  have hdigit : ∀ i, d.magnitude / 10 ^ i % 10 =
      if d.clipLsb ≤ i ∧ i < d.clipTop then d.digits i else 0 := fun i => by
    rw [hclip.magnitude_eq]
    exact value_digit (by decide) (fun i => hclip.digit_lt hd.proper (i := i)) i
  have hfirst : d.magnitude / 10 ^ d.clipLsb % 10 ≠ 0 := by
    rw [hdigit, if_pos ⟨le_rfl, hlt⟩]
    exact hclip.first hlt
  have hbelow : ∀ i < d.clipLsb, d.magnitude / 10 ^ i % 10 = 0 := fun i hi => by
    rw [hdigit, if_neg (by omega)]
  have hsign : (if d.val < 0 then ['-'] else []) = if d.negative then ['-'] else [] := by
    simp only [val_neg_iff hne]
  rw [doGetString, if_neg (Nat.not_le.2 hlt), hsign, List.append_assoc]
  congr 1
  rcases Nat.lt_or_ge 32 d.clipTop with hgt | hle
  · have hinteger := integerChars_magnitude hclip hd hlt hgt
    rw [if_neg (Nat.not_le.2 hgt), hinteger]
    rcases Nat.lt_or_ge d.clipLsb 32 with hpoint | hwhole
    · have hfraction := @fractionChars_eq d.digits _ _ hpoint hbelow hfirst fun i h h' => by
        rw [hdigit, if_pos ⟨h, h'.trans hgt⟩]
      have hsome : charsDown d.digits d.clipLsb 32 ≠ [] := fun hnil => by
        have hlength := congrArg List.length hnil
        rw [length_charsDown, List.length_nil] at hlength
        omega
      rw [if_pos hpoint, hfraction, if_neg hsome, charsDown_congr fun i h h' => ?_]
      rw [hdigit, if_pos ⟨hpoint.le.trans h, h'⟩]
    · have hnil : fractionChars 32 d.magnitude = [] := fractionChars_eq_nil fun i hi =>
        hbelow i (hi.trans_le hwhole)
      rw [if_neg (Nat.not_lt.2 hwhole), hnil, if_pos rfl, List.append_nil,
        ← charsDown_append _ hwhole hlt.le, charsDown_zeros fun i _ h => hbelow i h]
      congr 1
      exact charsDown_congr fun i h h' => by rw [hdigit, if_pos ⟨h, h'⟩]
  · have hsmall : d.magnitude / 10 ^ 32 = 0 := Nat.div_eq_of_lt
      ((hclip.magnitude_lt hd).trans_le (Nat.pow_le_pow_right (by decide) hle))
    have hfraction : fractionChars 32 d.magnitude = List.replicate (32 - d.clipTop) '0' ++
        charsDown d.digits d.clipLsb d.clipTop := by
      have hchars := @fractionChars_eq (fun i => d.magnitude / 10 ^ i % 10) _ _
        (by omega : d.clipLsb < 32) hbelow hfirst fun i _ _ => rfl
      rw [hchars, ← charsDown_append _ hlt.le hle]
      congr 1
      · exact charsDown_zeros fun i h _ => by rw [hdigit, if_neg (by omega)]
      · exact charsDown_congr fun i h h' => by rw [hdigit, if_pos ⟨h, h'⟩]
    have hsome : List.replicate (32 - d.clipTop) '0' ++ charsDown d.digits d.clipLsb d.clipTop ≠
        [] := fun hnil => by
      have hlength := congrArg List.length hnil
      rw [List.length_append, length_charsDown, List.length_nil] at hlength
      omega
    rw [if_pos hle, hsmall, hfraction, if_neg hsome]
    rfl

/-! ### Round trips -/

/-- `getString` pads the text with spaces if there is room for it. -/
theorem getString_of_le {length : ℕ} (h : d.doGetString.length ≤ length) :
    d.getString length =
      some (d.doGetString ++ List.replicate (length - d.doGetString.length) ' ') := by
  have hlength := length_doGetString d
  rw [getString, if_neg (by omega), if_pos hlength.symm, hlength]

/-- Text and number go over into each other. -/
theorem text_roundTrips (d e : Decimal) (hd : d.WellFormed) :
    d.getStringLength = d.doGetString.length ∧
    (∀ spaces, (e.setString (List.replicate spaces ' ' ++ d.doGetString)).compare d = 0) ∧
    ∀ (spaces : ℕ) (negative : Bool) (integer : List Char) (fraction : Option (List Char))
        (text : List Char), InRange integer fraction →
      text = canonicalText (DecimalText.value (numberText negative integer fraction)) →
      (e.setString (List.replicate spaces ' ' ++
          numberText negative integer fraction)).doGetString = text ∧
        ∀ length, text.length ≤ length →
          (e.setString (List.replicate spaces ' ' ++
            numberText negative integer fraction)).getString length =
              some (text ++ List.replicate (length - text.length) ' ') := by
  refine ⟨(length_doGetString d).symm, fun spaces => ?_, ?_⟩
  · obtain ⟨negative, integer, fraction, htext, hrange⟩ := doGetString_numberText hd
    obtain ⟨hformed, _⟩ := setString_spec e negative hrange spaces
    have hval : (e.setString (List.replicate spaces ' ' ++ d.doGetString)).val = d.val := by
      rw [← value_doGetString hd.proper, htext, val_setString e hrange]
    rw [← htext] at hformed
    rw [compare_eq hformed.proper hd.proper, if_neg (not_lt.2 hval.ge), if_pos hval]
  · intro spaces negative integer fraction text h htext
    obtain ⟨hformed, _⟩ := setString_spec e negative h spaces
    have hwritten : (e.setString (List.replicate spaces ' ' ++
        numberText negative integer fraction)).doGetString = text := by
      rw [doGetString_eq hformed, val_setString e h, htext]
    refine ⟨hwritten, fun length hlength => ?_⟩
    rw [getString_of_le (hwritten.symm ▸ hlength), hwritten]

theorem text_roundTrips_seven :
    ((ofDigit 0 false).setString ([' '] ++ (ofDigit 7 true).doGetString)).compare (ofDigit 7 true) = 0 ∧
      ((ofDigit 0 false).setString ([' '] ++ numberText true ['0', '7'] (some ['5', '0']))).doGetString =
        canonicalText (DecimalText.value (numberText true ['0', '7'] (some ['5', '0']))) := by
  obtain ⟨_, hread, hwritten⟩ := text_roundTrips (ofDigit 7 true) (ofDigit 0 false)
    (wellFormed_ofDigit (by decide) true)
  refine ⟨hread 1, (hwritten 1 true ['0', '7'] (some ['5', '0']) _ ?_ rfl).1⟩
  exact ⟨List.all_eq_true.1 (by decide), by decide, List.all_eq_true.1 (by decide), by decide⟩

end Decimal

end Nbcd
