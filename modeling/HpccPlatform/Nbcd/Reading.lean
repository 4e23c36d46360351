import HpccPlatform.Library.DecimalText
import HpccPlatform.Nbcd.Decimal
import Mathlib.Data.Int.ModEq

/-!
# Reading a decimal

A number is read by `compare`, as text by `getString` and as an integer by `getInt64`.  The first
two only look at the digits of the range.  `getUInt64` starts with the digit at `msb` even if the
range is empty, where it is left over from before.
-/

namespace Nbcd

open DigitWindow
open DecimalText hiding value

namespace Decimal

/-! ### `compare` -/

/-- `for (;hi1 >= limit; hi1--)`, with `n` steps to go from `hi1 = top - 1`. -/
def compareDigits (d other : Decimal) : ℕ → ℕ → Option ℤ
  | 0, _ => none
  | n + 1, top =>
    if d.digits (top - 1) ≠ other.digits (top - 1) then
      some (if xor (decide (other.digits (top - 1) < d.digits (top - 1))) d.negative then 1 else -1)
    else compareDigits d other n (top - 1)

def compare (d other : Decimal) : ℤ :=
  let lo1 := d.clipLsb
  let top1 := d.clipTop
  let lo2 := other.clipLsb
  let top2 := other.clipTop
  if top1 ≤ lo1 then
    if top2 ≤ lo2 then 0 else if other.negative then 1 else -1
  else if top2 ≤ lo2 then if d.negative then -1 else 1
  else if xor d.negative other.negative then if d.negative then -1 else 1
  else if top1 ≠ top2 then if xor (decide (top2 < top1)) d.negative then 1 else -1
  else
    match compareDigits d other (top1 - max lo1 lo2) top1 with
    | some result => result
    | none =>
      if lo1 = lo2 then 0
      else if lo1 < lo2 then if d.negative then -1 else 1
      else if d.negative then 1 else -1

/-! ### `getString` -/

/-- The digits from place `top - 1` down to place `lo`. -/
def charsDown (digits : ℕ → ℕ) (lo : ℕ) : ℕ → List Char
  | 0 => []
  | top + 1 => if lo ≤ top then digitChar (digits top) :: charsDown digits lo top else []

def doGetString (d : Decimal) : List Char :=
  let lo := d.clipLsb
  let top := d.clipTop
  if top ≤ lo then ['0']
  else
    (if d.negative then ['-'] else []) ++
      if top ≤ 32 then
        '0' :: '.' :: (List.replicate (32 - top) '0' ++ charsDown d.digits lo top)
      else if lo < 32 then charsDown d.digits 32 top ++ '.' :: charsDown d.digits lo 32
      else charsDown d.digits lo top ++ List.replicate (lo - 32) '0'

def getStringLength (d : Decimal) : ℕ :=
  let lo := d.clipLsb
  let top := d.clipTop
  if top ≤ lo then 1
  else
    (if top ≤ 32 then 32 else top) - (if 32 < lo then 32 else lo) +
      (if d.negative then 1 else 0) + (if lo < 32 then 1 else 0) + if top ≤ 32 then 1 else 0

/-- The buffer after `getString`, if the check of the length holds. -/
def getString (d : Decimal) (length : ℕ) : Option (List Char) :=
  let len := d.getStringLength
  if length < len then some (List.replicate length '*')
  else if len = d.doGetString.length then
    some (d.doGetString ++ List.replicate (length - len) ' ')
  else none

/-! ### `getInt64` -/

/-- `value = value * 10 + digits[idx]`, for `n` digits from `idx = top - 1` down. -/
def appendDigits (digits : ℕ → ℕ) : ℕ → ℕ → ℕ → ℕ
  | 0, _, value => value
  | n + 1, top, value =>
    appendDigits digits n (top - 1) ((value * 10 + digits (top - 1)) % 2 ^ 64)

/-- `value *= 10`, `n` times. -/
def appendZeros : ℕ → ℕ → ℕ
  | 0, value => value
  | n + 1, value => appendZeros n (value * 10 % 2 ^ 64)

def getUInt64 (d : Decimal) : ℕ :=
  if 32 ≤ d.msb then
    let value := d.digits d.msb
    if d.lsb < 32 then appendDigits d.digits (d.msb - 32) d.msb value
    else
      appendZeros (min d.lsb d.msb - 32) (appendDigits d.digits (d.msb - d.lsb) d.msb value)
  else 0

def toInt64 (n : ℤ) : ℤ := n.bmod (2 ^ 64)

def getInt64 (d : Decimal) : ℤ :=
  if d.negative then toInt64 (-toInt64 d.getUInt64) else toInt64 d.getUInt64

/-! ### What they see -/

/-- The digits of the range are digits, whether or not the range is in order. -/
def Proper (d : Decimal) : Prop := ∀ i, d.lsb ≤ i → i ≤ d.msb → d.digits i ≤ 9

/-- The text, the integer and the order are those of the number. -/
structure Sees (d : Decimal) : Prop where
  string : ∀ length, d.getStringLength ≤ length →
    ∃ text, d.getString length = some (text ++ List.replicate (length - text.length) ' ') ∧
      DecimalText.value text = d.val
  int64 : ∀ n : ℤ, Rounding.truncateAt 0 d.val = n → d.getInt64 = toInt64 n
  compare_left : ∀ e : Decimal, e.WellFormed →
    d.compare e = if d.val < e.val then -1 else if d.val = e.val then 0 else 1
  compare_right : ∀ e : Decimal, e.WellFormed →
    e.compare d = if e.val < d.val then -1 else if e.val = d.val then 0 else 1

variable {d e : Decimal}

theorem WellFormed.proper (h : d.WellFormed) : d.Proper := h.digit

theorem Clipped.digit_lt {lo top : ℕ} (h : d.Clipped lo top) (hd : d.Proper) {i : ℕ} (hlo : lo ≤ i)
    (hhi : i < top) : d.digits i < 10 :=
  Nat.lt_succ_of_le (hd i (h.lsb_le.trans hlo) (Nat.le_of_lt_succ (hhi.trans_le h.top_le)))

/-- What clipping leaves: nothing of a number 0, and otherwise the digits. -/
theorem clip_cases (d : Decimal) : (d.clipTop ≤ d.clipLsb ∧ d.magnitude = 0) ∨
    (d.clipLsb < d.clipTop ∧ d.Clipped d.clipLsb d.clipTop ∧ d.magnitude ≠ 0) := by
  rcases Nat.lt_or_ge (d.msb + 1) d.lsb with hempty | hle
  · have hlsb : d.clipLsb = d.lsb := by
      unfold clipLsb
      rw [Nat.sub_eq_zero_of_le (by omega), skipUp]
    have htop : d.clipTop = d.msb + 1 := by
      unfold clipTop
      rw [hlsb, Nat.sub_eq_zero_of_le hempty.le, skipDown]
    exact Or.inl ⟨by omega, value_of_le hempty.le⟩
  · have hclip := clipped hle
    rcases Nat.lt_or_ge d.clipLsb d.clipTop with hlt | hge
    · exact Or.inr ⟨hlt, hclip, hclip.lt_iff.1 hlt⟩
    · exact Or.inl ⟨hge, by rw [hclip.magnitude_eq, value_of_le hge]⟩

/-! ### The order -/

/-- The highest digit that differs decides. -/
theorem value_lt_of_digit {f g : ℕ → ℕ} {lo lo' i top : ℕ} (hlo : lo ≤ i) (hlo' : lo' ≤ i)
    (hi : i < top) (hf : ∀ k, lo ≤ k → k < top → f k < 10) (hlt : f i < g i)
    (habove : ∀ k, i < k → k < top → f k = g k) : value 10 f lo top < value 10 g lo' top := by
  have hhigh : value 10 f (i + 1) top = value 10 g (i + 1) top :=
    value_congr fun k hk hk' => habove k (Nat.lt_of_succ_le hk) hk'
  have hlow : value 10 f lo i < 10 ^ i :=
    value_lt (by decide) fun k hk hk' => hf k hk (hk'.trans hi)
  have hdigit : (f i + 1) * 10 ^ i ≤ g i * 10 ^ i := Nat.mul_le_mul_right _ hlt
  rw [← value_append (Nat.le_succ_of_le hlo) hi, ← value_append (Nat.le_succ_of_le hlo') hi,
    value_succ hlo, value_succ hlo', hhigh]
  linarith [Nat.succ_mul (f i) (10 ^ i)]

/-- The digits agree, or there is a highest one that differs. -/
theorem compareDigits_spec (d other : Decimal) (n top : ℕ) (hn : n ≤ top) :
    (compareDigits d other n top = none ∧
        ∀ i, top - n ≤ i → i < top → d.digits i = other.digits i) ∨
      ∃ i, top - n ≤ i ∧ i < top ∧ d.digits i ≠ other.digits i ∧
        (∀ k, i < k → k < top → d.digits k = other.digits k) ∧
        compareDigits d other n top =
          some (if xor (decide (other.digits i < d.digits i)) d.negative then 1 else -1) := by
  induction n generalizing top with
  | zero => exact Or.inl ⟨rfl, fun i hlo hhi => absurd hhi (Nat.not_lt.2 hlo)⟩
  | succ n ih =>
    unfold compareDigits
    by_cases hne : d.digits (top - 1) ≠ other.digits (top - 1)
    · rw [if_pos hne]
      exact Or.inr ⟨top - 1, by omega, by omega, hne, fun k hk hk' => by omega, rfl⟩
    · rw [if_neg hne]
      have hlast := not_not.1 hne
      rcases ih (top - 1) (by omega) with ⟨hnone, hagree⟩ | ⟨i, hlo, hhi, hdiff, habove, hsome⟩
      · refine Or.inl ⟨hnone, fun i hlo hhi => ?_⟩
        rcases (Nat.le_sub_one_of_lt hhi).eq_or_lt with rfl | hlt
        · exact hlast
        · exact hagree i (by omega) hlt
      · refine Or.inr ⟨i, by omega, by omega, hdiff, fun k hk hk' => ?_, hsome⟩
        rcases (Nat.le_sub_one_of_lt hk').eq_or_lt with rfl | hlt
        · exact hlast
        · exact habove k hk hlt

/-- For numbers of one sign that are not 0, `compare` is the order of the magnitudes. -/
theorem compare_magnitude (hd : d.Proper) (he : e.Proper) (hne : d.clipLsb < d.clipTop)
    (hne' : e.clipLsb < e.clipTop) (hclip : d.Clipped d.clipLsb d.clipTop)
    (hclip' : e.Clipped e.clipLsb e.clipTop) (hsign : d.negative = e.negative) :
    (d.magnitude < e.magnitude ∧ d.compare e = if d.negative then 1 else -1) ∨
      (d.magnitude = e.magnitude ∧ d.compare e = 0) ∨
      (e.magnitude < d.magnitude ∧ d.compare e = if d.negative then -1 else 1) := by
  have hlt := fun i => hclip.digit_lt hd (i := i)
  have hlt' := fun i => hclip'.digit_lt he (i := i)
  have hmagnitude := hclip.magnitude_eq
  have hmagnitude' := hclip'.magnitude_eq
  have hxor : xor d.negative e.negative = false := by rw [hsign, Bool.xor_self]
  unfold compare
  dsimp only
  rw [if_neg (Nat.not_le.2 hne), if_neg (Nat.not_le.2 hne'), hxor, if_neg Bool.false_ne_true]
  by_cases htop : d.clipTop = e.clipTop
  · rw [if_neg (not_not.2 htop)]
    rw [← htop] at hlt' hmagnitude'
    rcases compareDigits_spec d e (d.clipTop - max d.clipLsb e.clipLsb) d.clipTop (Nat.sub_le _ _)
      with ⟨hnone, hagree⟩ | ⟨i, hlo, hhi, hdiff, habove, hsome⟩
    · rw [hnone]
      dsimp only
      rcases Nat.lt_trichotomy d.clipLsb e.clipLsb with hlsb | hlsb | hlsb
      · -- the digits of `d` go on below those of `e`
        rw [if_neg hlsb.ne, if_pos hlsb]
        refine Or.inr (Or.inr ⟨?_, rfl⟩)
        have hsame : value 10 d.digits e.clipLsb d.clipTop =
            value 10 e.digits e.clipLsb d.clipTop :=
          value_congr fun k hk hk' => hagree k (by omega) hk'
        have hpos := pow_le_value (b := 10) le_rfl hlsb (hclip.first hne)
        have happend := value_append (b := 10) (d := d.digits) hlsb.le
          (by omega : e.clipLsb ≤ d.clipTop)
        have : 0 < 10 ^ d.clipLsb := by positivity
        omega
      · rw [if_pos hlsb]
        refine Or.inr (Or.inl ⟨?_, rfl⟩)
        rw [hmagnitude, hmagnitude', ← hlsb]
        exact value_congr fun k hk hk' => hagree k (by omega) hk'
      · rw [if_neg hlsb.ne', if_neg hlsb.not_gt]
        refine Or.inl ⟨?_, rfl⟩
        have hsame : value 10 d.digits d.clipLsb d.clipTop =
            value 10 e.digits d.clipLsb d.clipTop :=
          value_congr fun k hk hk' => hagree k (by omega) hk'
        have hpos := pow_le_value (b := 10) le_rfl hlsb (hclip'.first hne')
        have happend := value_append (b := 10) (d := e.digits) hlsb.le hne.le
        have : 0 < 10 ^ e.clipLsb := by positivity
        omega
    · rw [hsome]
      dsimp only
      rcases hdiff.lt_or_gt with hdigit | hdigit
      · refine Or.inl ⟨?_, ?_⟩
        · rw [hmagnitude, hmagnitude']
          exact value_lt_of_digit (by omega) (by omega) hhi hlt hdigit habove
        · rw [decide_eq_false hdigit.not_gt, Bool.false_xor]
      · refine Or.inr (Or.inr ⟨?_, ?_⟩)
        · rw [hmagnitude, hmagnitude']
          exact value_lt_of_digit (by omega) (by omega) hhi hlt' hdigit
            fun k hk hk' => (habove k hk hk').symm
        · rw [decide_eq_true hdigit, Bool.true_xor]
          cases d.negative <;> rfl
  · rw [if_pos htop]
    have hbound : d.magnitude < 10 ^ d.clipTop := by
      rw [hmagnitude]
      exact value_lt (by decide) hlt
    have hbound' : e.magnitude < 10 ^ e.clipTop := by
      rw [hmagnitude']
      exact value_lt (by decide) hlt'
    rcases Nat.lt_or_gt_of_ne htop with hless | hmore
    · refine Or.inl ⟨hbound.trans_le (le_trans ?_ (hclip'.pow_le_magnitude hne')), ?_⟩
      · exact Nat.pow_le_pow_right (by decide) (by omega)
      · rw [decide_eq_false hless.not_gt, Bool.false_xor]
    · refine Or.inr (Or.inr ⟨hbound'.trans_le (le_trans ?_ (hclip.pow_le_magnitude hne)), ?_⟩)
      · exact Nat.pow_le_pow_right (by decide) (by omega)
      · rw [decide_eq_true hmore, Bool.true_xor]
        cases d.negative <;> rfl

/-- `compare` is the order of the numbers. -/
theorem compare_eq (hd : d.Proper) (he : e.Proper) :
    d.compare e = if d.val < e.val then -1 else if d.val = e.val then 0 else 1 := by
  rcases clip_cases d with ⟨hempty, hzero⟩ | ⟨hlt, hclip, hne⟩
  · have hval := val_eq_zero_iff.2 hzero
    rcases clip_cases e with ⟨hempty', hzero'⟩ | ⟨hlt', hclip', hne'⟩
    · rw [compare, if_pos hempty, if_pos hempty', hval, val_eq_zero_iff.2 hzero',
        if_neg (lt_irrefl _), if_pos rfl]
    · have hsign := val_neg_iff hne'
      have hval' := mt val_eq_zero_iff.1 hne'
      rw [compare, if_pos hempty, if_neg (Nat.not_le.2 hlt'), hval]
      by_cases hneg : e.negative = true
      · rw [if_pos hneg, if_neg (hsign.2 hneg).not_gt, if_neg (Ne.symm hval')]
      · rw [if_neg hneg, if_pos ((not_lt.1 (mt hsign.1 hneg)).lt_of_ne (Ne.symm hval'))]
  · have hsign := val_neg_iff hne
    have hval := mt val_eq_zero_iff.1 hne
    rcases clip_cases e with ⟨hempty', hzero'⟩ | ⟨hlt', hclip', hne'⟩
    · rw [compare, if_neg (Nat.not_le.2 hlt), if_pos hempty', val_eq_zero_iff.2 hzero']
      by_cases hneg : d.negative = true
      · rw [if_pos hneg, if_pos (hsign.2 hneg)]
      · rw [if_neg hneg, if_neg (mt hsign.1 hneg), if_neg hval]
    · have hsign' := val_neg_iff hne'
      by_cases hsame : d.negative = e.negative
      · have hcompare := compare_magnitude hd he hlt hlt' hclip hclip' hsame
        have hunits : ∀ m n : ℕ, (m : ℚ) / 10 ^ 32 < n / 10 ^ 32 ↔ m < n := fun m n => by
          rw [div_lt_div_iff_of_pos_right (by positivity), Nat.cast_lt]
        rw [val_eq d, val_eq e, ← hsame]
        rcases hcompare with ⟨hless, hresult⟩ | ⟨hequal, hresult⟩ | ⟨hmore, hresult⟩
        · rw [hresult]
          have hrat := (hunits _ _).2 hless
          split_ifs <;> first | rfl | linarith
        · rw [hresult, hequal, if_neg (lt_irrefl _), if_pos rfl]
        · rw [hresult]
          have hrat := (hunits _ _).2 hmore
          split_ifs <;> first | rfl | linarith
      · have hxor : xor d.negative e.negative = true := bne_iff_ne.2 hsame
        rw [compare, if_neg (Nat.not_le.2 hlt), if_neg (Nat.not_le.2 hlt'), if_pos hxor]
        have hval' := mt val_eq_zero_iff.1 hne'
        by_cases hneg : d.negative = true
        · have hpos : ¬ e.val < 0 := mt hsign'.1 fun h => hsame (hneg.trans h.symm)
          rw [if_pos hneg, if_pos ((hsign.2 hneg).trans_le (not_lt.1 hpos))]
        · have hneg' : e.val < 0 := hsign'.2 (by
            revert hsame hneg
            cases d.negative <;> cases e.negative <;> simp)
          have hpos := not_lt.1 (mt hsign.1 hneg)
          rw [if_neg hneg, if_neg (hneg'.trans_le hpos).not_gt, if_neg (hneg'.trans_le hpos).ne']

/-! ### The text -/

theorem zero_ne_point : ∀ c ∈ ['0'], c ≠ '.' := by
  intro c hc
  rw [List.mem_singleton.1 hc]
  decide

theorem charsDown_of_le {digits : ℕ → ℕ} {lo top : ℕ} (hle : top ≤ lo) :
    charsDown digits lo top = [] := by
  cases top with
  | zero => rfl
  | succ top => exact if_neg (Nat.not_le.2 hle)

theorem charsDown_succ {digits : ℕ → ℕ} {lo top : ℕ} (hle : lo ≤ top) :
    charsDown digits lo (top + 1) = digitChar (digits top) :: charsDown digits lo top :=
  if_pos hle

theorem length_charsDown (digits : ℕ → ℕ) (lo top : ℕ) :
    (charsDown digits lo top).length = top - lo := by
  induction top with
  | zero => rw [charsDown_of_le (Nat.zero_le lo), Nat.zero_sub, List.length_nil]
  | succ top ih =>
    rcases Nat.lt_or_ge top lo with hlt | hge
    · rw [charsDown_of_le hlt, Nat.sub_eq_zero_of_le hlt, List.length_nil]
    · rw [charsDown_succ hge, List.length_cons, ih, Nat.succ_sub hge]

theorem charsDown_append (digits : ℕ → ℕ) {lo mid top : ℕ} (hlo : lo ≤ mid) (hhi : mid ≤ top) :
    charsDown digits mid top ++ charsDown digits lo mid = charsDown digits lo top := by
  induction top, hhi using Nat.le_induction with
  | base => rw [charsDown_of_le le_rfl, List.nil_append]
  | succ top hle ih =>
    rw [charsDown_succ hle, charsDown_succ (hlo.trans hle), List.cons_append, ih]

theorem whole_charsDown {digits : ℕ → ℕ} {lo top : ℕ} (hle : lo ≤ top)
    (hdigits : ∀ i, lo ≤ i → i < top → digits i < 10) :
    whole (charsDown digits lo top) * 10 ^ lo = value 10 digits lo top := by
  induction top, hle using Nat.le_induction with
  | base => rw [charsDown_of_le le_rfl, value_self, whole, Nat.zero_mul]
  | succ top hle ih =>
    have hdigit := hdigits top hle (Nat.lt_succ_self top)
    rw [charsDown_succ hle, whole, (digitChar_spec (Nat.le_of_lt_succ hdigit)).1, length_charsDown,
      Nat.add_mul, ih fun i hlo hhi => hdigits i hlo (Nat.lt_succ_of_lt hhi), value_succ hle,
      Nat.mul_assoc, ← pow_add, Nat.sub_add_cancel hle, Nat.add_comm]

theorem mem_charsDown {digits : ℕ → ℕ} {lo top : ℕ}
    (hdigits : ∀ i, lo ≤ i → i < top → digits i < 10) {c : Char}
    (hc : c ∈ charsDown digits lo top) : c ≠ '.' ∧ c ≠ '-' := by
  induction top with
  | zero => exact absurd hc List.not_mem_nil
  | succ top ih =>
    rcases Nat.lt_or_ge top lo with hlt | hge
    · rw [charsDown_of_le hlt] at hc
      exact absurd hc List.not_mem_nil
    · rw [charsDown_succ hge] at hc
      rcases List.mem_cons.1 hc with rfl | hmem
      · exact (digitChar_spec (Nat.le_of_lt_succ (hdigits top hge (Nat.lt_succ_self top)))).2
      · exact ih (fun i hlo hhi => hdigits i hlo (Nat.lt_succ_of_lt hhi)) hmem

theorem length_doGetString (d : Decimal) : d.doGetString.length = d.getStringLength := by
  unfold doGetString getStringLength
  dsimp only
  rcases Nat.lt_or_ge d.clipLsb d.clipTop with hlt | hge
  · rw [if_neg (Nat.not_le.2 hlt), if_neg (Nat.not_le.2 hlt), List.length_append]
    have hsign : (if d.negative then ['-'] else []).length = if d.negative then 1 else 0 := by
      cases d.negative <;> rfl
    rw [hsign]
    generalize (if d.negative then 1 else 0) = sign
    split_ifs <;>
      simp only [List.length_cons, List.length_append, List.length_replicate, length_charsDown] <;>
      omega
  · rw [if_pos hge, if_pos hge]
    rfl

/-- The text without its sign. -/
theorem unsignedValue_digits {digits : ℕ → ℕ} {lo top : ℕ} (hlt : lo < top)
    (hdigits : ∀ i, lo ≤ i → i < top → digits i < 10) {body : List Char}
    (hbody : body = if top ≤ 32 then
        '0' :: '.' :: (List.replicate (32 - top) '0' ++ charsDown digits lo top)
      else if lo < 32 then charsDown digits 32 top ++ '.' :: charsDown digits lo 32
      else charsDown digits lo top ++ List.replicate (lo - 32) '0') :
    unsignedValue body = value 10 digits lo top / 10 ^ 32 ∧ ∃ c text, body = c :: text ∧ c ≠ '-' := by
  have hwhole := whole_charsDown hlt.le hdigits
  have hhead : ∃ c text, charsDown digits (max lo 32) top = c :: text ∧ c ≠ '-' ∨ top ≤ 32 := by
    rcases Nat.lt_or_ge 32 top with hgt | hle
    · obtain ⟨c, text, hcons⟩ := List.exists_cons_of_length_pos
        (by rw [length_charsDown]; omega : 0 < (charsDown digits (max lo 32) top).length)
      have hmem : c ∈ charsDown digits (max lo 32) top := hcons ▸ List.mem_cons_self
      exact ⟨c, text, Or.inl ⟨hcons, (mem_charsDown (fun i hlo hhi => hdigits i (by omega) hhi)
        hmem).2⟩⟩
    · exact ⟨'0', [], Or.inr hle⟩
  obtain ⟨c, text, hhead⟩ := hhead
  rw [← hwhole]
  split_ifs at hbody with htop hlo
  · refine ⟨?_, '0', _, hbody, by decide⟩
    have hpoint : unsignedValue (['0'] ++ '.' :: _) = _ := unsignedValue_point zero_ne_point
      (List.replicate (32 - top) '0' ++ charsDown digits lo top)
    rw [hbody]
    refine hpoint.trans ?_
    rw [whole_append, whole_append, whole_replicate_zero, List.length_append,
      List.length_replicate, length_charsDown, show 32 - top + (top - lo) = 32 - lo by omega,
      show whole ['0'] = 0 from rfl, Nat.zero_mul, Nat.zero_add, Nat.zero_mul, Nat.zero_add,
      div_eq_div_iff (by positivity) (by positivity)]
    push_cast
    rw [mul_assoc, ← pow_add, show lo + (32 - lo) = 32 by omega]
  · have hcons := hhead.resolve_right htop
    rw [max_eq_right hlo.le] at hcons
    refine ⟨?_, c, text ++ '.' :: charsDown digits lo 32, ?_, hcons.2⟩
    · rw [hbody, unsignedValue_point, charsDown_append digits hlo.le (by omega), length_charsDown,
        div_eq_div_iff (by positivity) (by positivity)]
      · push_cast
        rw [mul_assoc, ← pow_add, show lo + (32 - lo) = 32 by omega]
      · exact fun c hc => (mem_charsDown (fun i hlo' hhi => hdigits i (by omega) hhi) hc).1
    · rw [hbody, hcons.1, List.cons_append]
  · have hcons := hhead.resolve_right htop
    rw [max_eq_left (not_lt.1 hlo)] at hcons
    refine ⟨?_, c, text ++ List.replicate (lo - 32) '0', ?_, hcons.2⟩
    · rw [hbody, unsignedValue_of_digits, whole_append, whole_replicate_zero, Nat.add_zero,
        List.length_replicate, eq_div_iff (by positivity)]
      · push_cast
        rw [mul_assoc, ← pow_add, show lo - 32 + 32 = lo by omega]
      · intro c hc
        rcases List.mem_append.1 hc with hmem | hmem
        · exact (mem_charsDown hdigits hmem).1
        · rw [List.eq_of_mem_replicate hmem]
          decide
    · rw [hbody, hcons.1, List.cons_append]

/-- The text stands for the number. -/
theorem value_doGetString (hd : d.Proper) : DecimalText.value d.doGetString = d.val := by
  unfold doGetString
  dsimp only
  rcases clip_cases d with ⟨hempty, hzero⟩ | ⟨hlt, hclip, hne⟩
  · rw [if_pos hempty, val_eq_zero_iff.2 hzero, value_of_head (by decide),
      unsignedValue_of_digits zero_ne_point, show whole ['0'] = 0 from rfl, Nat.cast_zero]
  · rw [if_neg (Nat.not_le.2 hlt)]
    obtain ⟨hvalue, c, text, hhead, hc⟩ :=
      unsignedValue_digits hlt (fun i => hclip.digit_lt hd (i := i)) rfl
    rw [hhead] at hvalue ⊢
    rw [val_eq, hclip.magnitude_eq]
    by_cases hneg : d.negative = true
    · rw [if_pos hneg, if_pos hneg, List.singleton_append, value_minus, hvalue, neg_one_mul]
    · rw [if_neg hneg, if_neg hneg, List.nil_append, value_of_head hc, hvalue, one_mul]

/-! ### The integer -/

theorem toInt64_congr {m n : ℤ} (h : m ≡ n [ZMOD 2 ^ 64]) : toInt64 m = toInt64 n := by
  have h' : m % ((2 ^ 64 : ℕ) : ℤ) = n % ((2 ^ 64 : ℕ) : ℤ) := by exact_mod_cast h
  rw [toInt64, toInt64, Int.bmod_def, Int.bmod_def, h']

theorem toInt64_modEq (n : ℤ) : toInt64 n ≡ n [ZMOD 2 ^ 64] := by
  have h : n.bmod (2 ^ 64) % ((2 ^ 64 : ℕ) : ℤ) = n % ((2 ^ 64 : ℕ) : ℤ) := Int.bmod_emod
  exact_mod_cast h

theorem appendDigits_modEq (digits : ℕ → ℕ) (n top x : ℕ) (hn : n ≤ top) :
    appendDigits digits n top x ≡
      x * 10 ^ n + value 10 (fun i => digits (i + (top - n))) 0 n [MOD 2 ^ 64] := by
  induction n generalizing top x with
  | zero =>
    rw [value_self, pow_zero, Nat.mul_one, Nat.add_zero]
    rfl
  | succ n ih =>
    rw [appendDigits]
    refine (ih (top - 1) _ (by omega)).trans ?_
    have hdigit : n + (top - (n + 1)) = top - 1 := by omega
    have hplace : top - 1 - n = top - (n + 1) := by omega
    rw [value_succ (Nat.zero_le n), hdigit, hplace]
    calc (x * 10 + digits (top - 1)) % 2 ^ 64 * 10 ^ n +
          value 10 (fun i => digits (i + (top - (n + 1)))) 0 n
        ≡ (x * 10 + digits (top - 1)) * 10 ^ n +
          value 10 (fun i => digits (i + (top - (n + 1)))) 0 n [MOD 2 ^ 64] :=
          ((Nat.mod_modEq _ _).mul_right _).add_right _
      _ = x * 10 ^ (n + 1) + (value 10 (fun i => digits (i + (top - (n + 1)))) 0 n +
          digits (top - 1) * 10 ^ n) := by ring

theorem appendZeros_modEq (n x : ℕ) : appendZeros n x ≡ x * 10 ^ n [MOD 2 ^ 64] := by
  induction n generalizing x with
  | zero =>
    rw [pow_zero, Nat.mul_one]
    rfl
  | succ n ih =>
    have hpow : x * 10 * 10 ^ n = x * 10 ^ (n + 1) := by ring
    rw [appendZeros, ← hpow]
    exact (ih _).trans ((Nat.mod_modEq _ _).mul_right _)

/-- The integer that is read, modulo `2 ^ 64`. -/
def wholeSeen (d : Decimal) : ℕ :=
  if d.lsb ≤ d.msb then d.magnitude / 10 ^ 32
  else if 32 ≤ d.msb then d.digits d.msb * 10 ^ (d.msb - 32)
  else 0

theorem getUInt64_modEq (hd : d.Proper) : d.getUInt64 ≡ d.wholeSeen [MOD 2 ^ 64] := by
  have hlt : ∀ i, d.lsb ≤ i → i < d.msb + 1 → d.digits i < 10 := fun i hlo hhi =>
    Nat.lt_succ_of_le (hd i hlo (Nat.le_of_lt_succ hhi))
  unfold getUInt64 wholeSeen
  dsimp only
  by_cases hmsb : 32 ≤ d.msb
  · rw [if_pos hmsb, if_pos hmsb]
    by_cases hlsb : d.lsb < 32
    · rw [if_pos hlsb, if_pos (by omega)]
      refine (appendDigits_modEq _ _ _ _ (Nat.sub_le _ _)).trans ?_
      have hshift : value 10 (fun i => d.digits (i + 32)) 0 (d.msb - 32) * 10 ^ 32 =
          value 10 d.digits (0 + 32) (d.msb - 32 + 32) := value_shift 32
      have hcut : d.magnitude / 10 ^ 32 * 10 ^ 32 = value 10 d.digits 32 (d.msb + 1) :=
        value_div_mul (by decide) hlt hlsb.le (by omega)
      rw [value_succ hmsb] at hcut
      rw [Nat.zero_add, Nat.sub_add_cancel hmsb] at hshift
      rw [show d.msb - (d.msb - 32) = 32 by omega]
      have hpow : 10 ^ d.msb = 10 ^ (d.msb - 32) * 10 ^ 32 := by
        rw [← pow_add, Nat.sub_add_cancel hmsb]
      rw [hpow, ← Nat.mul_assoc] at hcut
      have hsum : d.digits d.msb * 10 ^ (d.msb - 32) +
          value 10 (fun i => d.digits (i + 32)) 0 (d.msb - 32) = d.magnitude / 10 ^ 32 := by
        refine Nat.eq_of_mul_eq_mul_right (by positivity : 0 < 10 ^ 32) ?_
        rw [Nat.add_mul, hshift, hcut, Nat.add_comm]
      rw [hsum]
    · rw [if_neg hlsb]
      refine (appendZeros_modEq _ _).trans
        (((appendDigits_modEq _ _ _ _ (Nat.sub_le _ _)).mul_right _).trans ?_)
      by_cases hle : d.lsb ≤ d.msb
      · rw [if_pos hle, min_eq_left hle, show d.msb - (d.msb - d.lsb) = d.lsb by omega]
        have hshift : value 10 (fun i => d.digits (i + d.lsb)) 0 (d.msb - d.lsb) * 10 ^ d.lsb =
            value 10 d.digits (0 + d.lsb) (d.msb - d.lsb + d.lsb) := value_shift d.lsb
        rw [Nat.zero_add, Nat.sub_add_cancel hle] at hshift
        have hsum : (d.digits d.msb * 10 ^ (d.msb - d.lsb) +
            value 10 (fun i => d.digits (i + d.lsb)) 0 (d.msb - d.lsb)) * 10 ^ (d.lsb - 32) =
            d.magnitude / 10 ^ 32 := by
          refine (Nat.div_eq_of_eq_mul_left (by positivity : 0 < 10 ^ 32) ?_).symm
          rw [Nat.mul_assoc, ← pow_add, Nat.sub_add_cancel (not_lt.1 hlsb), Nat.add_mul, hshift,
            Nat.mul_assoc, ← pow_add, Nat.sub_add_cancel hle, magnitude, value_succ hle,
            Nat.add_comm]
        rw [hsum]
      · rw [if_neg hle, min_eq_right (not_le.1 hle).le, Nat.sub_eq_zero_of_le (not_le.1 hle).le,
          value_self, pow_zero, Nat.mul_one, Nat.add_zero]
  · rw [if_neg hmsb, if_neg hmsb]
    split_ifs with hle
    · have hsmall : d.magnitude < 10 ^ 32 :=
        (value_lt (by decide) hlt).trans_le (Nat.pow_le_pow_right (by decide) (by omega))
      rw [Nat.div_eq_of_lt hsmall]
    · rfl

theorem getInt64_eq (hd : d.Proper) :
    d.getInt64 = toInt64 (if d.negative then -d.wholeSeen else d.wholeSeen) := by
  have hseen : toInt64 d.getUInt64 = toInt64 d.wholeSeen :=
    toInt64_congr (Int.natCast_modEq_iff.2 (getUInt64_modEq hd))
  unfold getInt64
  rw [hseen]
  split
  · exact toInt64_congr (toInt64_modEq _).neg
  · exact rfl

theorem truncateAt_zero (d : Decimal) : Rounding.truncateAt 0 d.val =
    ((if d.negative then -(d.magnitude / 10 ^ 32 : ℕ) else (d.magnitude / 10 ^ 32 : ℕ) : ℤ) : ℚ) := by
  have hfloor : ⌊|d.val| * 10 ^ (0 : ℤ)⌋ = ((d.magnitude / 10 ^ 32 : ℕ) : ℤ) := by
    have hunits : |d.val| * 10 ^ (0 : ℤ) = (d.magnitude : ℚ) / (10 ^ 32 : ℕ) := by
      rw [abs_val, zpow_zero, mul_one, Nat.cast_pow]
      rfl
    rw [hunits, Rat.floor_natCast_div_natCast, Int.natCast_div]
  rw [Rounding.truncateAt, Rounding.atPlace, hfloor, zpow_zero, div_one]
  rcases eq_or_ne d.magnitude 0 with hzero | hne
  · rw [hzero, Nat.zero_div]
    simp
  · simp only [val_neg_iff hne]
    split <;> push_cast <;> ring

/-- A digit that is not 0 is seen at any place. -/
theorem eq_zero_of_dvd {n k : ℕ} (hn : n < 256) (hk : k ≤ 31) (h : 2 ^ 64 ∣ n * 10 ^ k) :
    n = 0 := by
  have hfactor : n * 10 ^ k = n * 2 ^ k * 5 ^ k := by
    rw [Nat.mul_assoc, ← Nat.mul_pow]
  rw [hfactor] at h
  have hcoprime : Nat.Coprime (2 ^ 64) (5 ^ k) := Nat.Coprime.pow _ _ (by decide)
  have hdvd := hcoprime.dvd_of_dvd_mul_right h
  by_contra hne
  have hle := Nat.le_of_dvd (Nat.mul_pos (Nat.pos_of_ne_zero hne) (by positivity)) hdvd
  have hpow : 2 ^ k ≤ 2 ^ 31 := Nat.pow_le_pow_right (by decide) hk
  have hmul := Nat.mul_le_mul hn.le hpow
  omega

/-- Text, integer and order agree unless the range is empty and there is a digit above that is not
0. -/
theorem sees_iff (hd : d.Proper) (hmsb : d.msb ≤ 63) (hbyte : d.digits d.msb < 256) :
    d.Sees ↔ (d.msb < d.lsb → 32 ≤ d.msb → d.digits d.msb = 0) := by
  have hint := getInt64_eq hd
  constructor
  · intro h hempty hzero
    have hmagnitude : d.magnitude = 0 := value_of_le hempty
    have hseen := h.int64 0 (by
      rw [truncateAt_zero, hmagnitude, Nat.zero_div]
      simp)
    rw [hint, wholeSeen, if_neg (Nat.not_le.2 hempty), if_pos hzero] at hseen
    have hmod : (if d.negative then -(d.digits d.msb * 10 ^ (d.msb - 32) : ℕ)
        else (d.digits d.msb * 10 ^ (d.msb - 32) : ℕ) : ℤ) ≡ 0 [ZMOD 2 ^ 64] :=
      (toInt64_modEq _).symm.trans ((congrArg (· % 2 ^ 64) hseen).trans (toInt64_modEq 0))
    have hdvd : ((2 ^ 64 : ℕ) : ℤ) ∣ (d.digits d.msb * 10 ^ (d.msb - 32) : ℕ) := by
      have hdvd' := Int.modEq_zero_iff_dvd.1 hmod
      split at hdvd'
      · exact_mod_cast (Int.dvd_neg.1 hdvd')
      · exact_mod_cast hdvd'
    exact eq_zero_of_dvd hbyte (by omega) (Int.natCast_dvd_natCast.1 hdvd)
  · intro hclean
    have hwhole : d.wholeSeen = d.magnitude / 10 ^ 32 := by
      unfold wholeSeen
      rcases Nat.lt_or_ge d.msb d.lsb with hempty | hle
      · have hmagnitude : d.magnitude = 0 := value_of_le hempty
        rw [if_neg (Nat.not_le.2 hempty), hmagnitude, Nat.zero_div]
        split_ifs with hhigh
        · rw [hclean hempty hhigh, Nat.zero_mul]
        · rfl
      · rw [if_pos hle]
    refine ⟨fun length hlength => ⟨d.doGetString, ?_, value_doGetString hd⟩, ?_,
      fun e he => compare_eq hd he.proper, fun e he => compare_eq he.proper hd⟩
    · rw [getString, if_neg (Nat.not_lt.2 hlength), if_pos (length_doGetString d).symm,
        length_doGetString]
    · intro n hn
      rw [truncateAt_zero, Int.cast_inj] at hn
      rw [hint, hwhole, hn]

end Decimal

end Nbcd
