import HpccPlatform.Library.DigitWindow
import HpccPlatform.Library.Rounding

/-!
# Decimals

`Decimal` of `rtl/nbcd/nbcd.hpp` keeps a number as decimal digits, those from `lsb` to `msb` of an
array of `maxDigits = 64`.  The digit at `zeroDigit = 32` is the one of the units.  The digits
outside of the range are left over from before and do not count.
-/

namespace Nbcd

open DigitWindow

structure Decimal where
  digits : ℕ → ℕ
  msb : ℕ
  lsb : ℕ
  negative : Bool

namespace Decimal

/-- The digits read as a whole number, that is, the magnitude in units of `10 ^ (-32)`. -/
def magnitude (d : Decimal) : ℕ := value 10 d.digits d.lsb (d.msb + 1)

def scaled (d : Decimal) : ℤ := if d.negative then -d.magnitude else d.magnitude

/-- The number. -/
def val (d : Decimal) : ℚ := d.scaled / 10 ^ 32

/-- The range of digits may be empty, for the number 0. -/
structure WellFormed (d : Decimal) : Prop where
  digit : ∀ i, d.lsb ≤ i → i ≤ d.msb → d.digits i ≤ 9
  msb_le : d.msb ≤ 63
  lsb_le : d.lsb ≤ d.msb + 1

/-- What a byte keeps of a number. -/
def byteOf (n : ℤ) : ℕ := (n % 256).toNat

/-! ### Bounds -/

/-- `while (lo < hi && digits[lo] == 0) lo++`, with `hi - lo` steps to go. -/
def skipUp (digits : ℕ → ℕ) : ℕ → ℕ → ℕ
  | 0, lo => lo
  | n + 1, lo => if digits lo = 0 then skipUp digits n (lo + 1) else lo

/-- `while (hi >= lo && digits[hi] == 0) hi--`, for `hi + 1`. -/
def skipDown (digits : ℕ → ℕ) : ℕ → ℕ → ℕ
  | 0, top => top
  | n + 1, top => if digits (top - 1) = 0 then skipDown digits n (top - 1) else top

def clipLsb (d : Decimal) : ℕ := skipUp d.digits (d.msb - d.lsb) d.lsb

/-- One more than the `newMsb` of `clip`, which may be -1. -/
def clipTop (d : Decimal) : ℕ := skipDown d.digits (d.msb + 1 - d.clipLsb) (d.msb + 1)

def clipMsb (d : Decimal) : ℤ := d.clipTop - 1

def setZero (d : Decimal) : Decimal where
  digits := Function.update d.digits 32 0
  msb := 32
  lsb := 32
  negative := false

def extendRange (d : Decimal) (oLsb oMsb : ℕ) : Decimal :=
  let low : Decimal :=
    if oLsb < d.lsb then
      { d with
        digits := fun i => if oLsb ≤ i ∧ i < d.lsb then 0 else d.digits i
        lsb := oLsb }
    else d
  if low.msb < oMsb then
    { low with
      digits := fun i => if low.msb + 1 ≤ i ∧ i ≤ oMsb then 0 else low.digits i
      msb := oMsb }
  else low

variable {d e : Decimal}

theorem WellFormed.digit_lt (h : d.WellFormed) {i : ℕ} (hlo : d.lsb ≤ i) (hhi : i < d.msb + 1) :
    d.digits i < 10 :=
  Nat.lt_succ_of_le (h.digit i hlo (Nat.le_of_lt_succ hhi))

theorem WellFormed.magnitude_lt (h : d.WellFormed) : d.magnitude < 10 ^ 64 := by
  have hlt : d.magnitude < 10 ^ (d.msb + 1) :=
    value_lt (by decide) fun _ hlo hhi => h.digit_lt hlo hhi
  exact hlt.trans_le (Nat.pow_le_pow_right (by decide) (Nat.succ_le_succ h.msb_le))

theorem natAbs_scaled (d : Decimal) : d.scaled.natAbs = d.magnitude := by
  unfold scaled
  split
  · rw [Int.natAbs_neg, Int.natAbs_natCast]
  · rw [Int.natAbs_natCast]

theorem abs_val (d : Decimal) : |d.val| = d.magnitude / 10 ^ 32 := by
  rw [val, abs_div, abs_of_pos (by positivity : (0 : ℚ) < 10 ^ 32), ← Int.cast_abs,
    Int.abs_eq_natAbs, natAbs_scaled, Int.cast_natCast]

theorem val_eq (d : Decimal) :
    d.val = (if d.negative then -1 else 1) * (d.magnitude / 10 ^ 32) := by
  unfold val scaled
  split
  · push_cast
    ring
  · rw [one_mul]
    rfl

theorem val_eq_zero_iff : d.val = 0 ↔ d.magnitude = 0 := by
  rw [← abs_eq_zero, abs_val, div_eq_zero_iff, or_iff_left (by positivity), Nat.cast_eq_zero]

theorem val_neg_iff (hne : d.magnitude ≠ 0) : d.val < 0 ↔ d.negative = true := by
  have hpos : (0 : ℚ) < d.magnitude / 10 ^ 32 := by
    have hpos' : (0 : ℚ) < d.magnitude := by exact_mod_cast Nat.pos_of_ne_zero hne
    positivity
  rw [val_eq]
  cases d.negative
  · simp only [Bool.false_eq_true, if_false, one_mul, iff_false, not_lt]
    exact hpos.le
  · simp only [if_true, iff_true]
    linarith

/-- A number is rounded if its magnitude is and its sign, unless nothing is left, is kept. -/
theorem val_eq_atPlace_iff {f : ℚ → ℤ} {places : ℤ} {x : ℚ}
    (hsign : d.magnitude ≠ 0 → (d.negative = true ↔ x < 0))
    (hf : 0 ≤ f (|x| * 10 ^ places)) :
    d.val = Rounding.atPlace f places x ↔
      (d.magnitude / 10 ^ 32 : ℚ) = f (|x| * 10 ^ places) / 10 ^ places := by
  have hpow : (0 : ℚ) < 10 ^ places := zpow_pos (by norm_num) places
  constructor
  · intro h
    have habs := congrArg abs h
    rw [abs_val, Rounding.abs_atPlace hf] at habs
    exact habs
  · intro h
    rcases eq_or_ne d.magnitude 0 with hzero | hne
    · rw [val_eq_zero_iff.2 hzero, Rounding.atPlace, mul_div_assoc, ← h, hzero]
      simp
    · rw [val_eq, Rounding.atPlace, mul_div_assoc, ← h]
      simp only [hsign hne]

/-- The number `n`, of one digit. -/
def ofDigit (n : ℕ) (negative : Bool) : Decimal where
  digits i := if i = 32 then n else 0
  msb := 32
  lsb := 32
  negative := negative

theorem wellFormed_ofDigit {n : ℕ} (hn : n ≤ 9) (negative : Bool) :
    (ofDigit n negative).WellFormed := by
  refine ⟨?_, (by decide : 32 ≤ 63), (by decide : 32 ≤ 32 + 1)⟩
  intro i _ _
  unfold ofDigit
  dsimp only
  split
  · exact hn
  · exact Nat.zero_le _

theorem magnitude_ofDigit (n : ℕ) (negative : Bool) :
    (ofDigit n negative).magnitude = n * 10 ^ 32 := by
  change value 10 (fun i => if i = 32 then n else 0) 32 (32 + 1) = _
  rw [value_succ le_rfl, value_self, Nat.zero_add, if_pos rfl]

/-- The digit `n` at a place, with zeros up to the point. -/
def digitAt (n place : ℕ) : Decimal where
  digits i := if i = place then n else 0
  msb := max 32 place
  lsb := min 32 place
  negative := false

theorem wellFormed_digitAt {n place : ℕ} (hn : n ≤ 9) (hplace : place ≤ 63) :
    (digitAt n place).WellFormed := by
  refine ⟨fun i _ _ => ?_, max_le (by decide) hplace, ?_⟩
  · unfold digitAt
    dsimp only
    split
    · exact hn
    · exact Nat.zero_le _
  · exact (min_le_left _ _).trans ((le_max_left _ _).trans (Nat.le_succ _))

theorem magnitude_digitAt (n place : ℕ) : (digitAt n place).magnitude = n * 10 ^ place := by
  change value 10 (fun i => if i = place then n else 0) (min 32 place) (max 32 place + 1) = _
  rw [value_widen (min_le_right 32 place) (Nat.succ_le_succ (le_max_right 32 place))
    fun i _ _ hout => if_neg (by omega), value_succ le_rfl, value_self, Nat.zero_add, if_pos rfl]

/-! ### What is clipped -/

theorem skipUp_spec (digits : ℕ → ℕ) (n lo : ℕ) :
    lo ≤ skipUp digits n lo ∧ skipUp digits n lo ≤ lo + n ∧
      (∀ i, lo ≤ i → i < skipUp digits n lo → digits i = 0) ∧
      (skipUp digits n lo < lo + n → digits (skipUp digits n lo) ≠ 0) := by
  induction n generalizing lo with
  | zero => exact ⟨le_rfl, le_rfl, fun i hlo hhi => absurd hhi (Nat.not_lt.2 hlo),
      fun h => absurd h (lt_irrefl _)⟩
  | succ n ih =>
    unfold skipUp
    by_cases hzero : digits lo = 0
    · rw [if_pos hzero]
      obtain ⟨hle, hend, hskipped, hstop⟩ := ih (lo + 1)
      refine ⟨by omega, by omega, ?_, fun h => hstop (by omega)⟩
      intro i hlo hhi
      rcases hlo.eq_or_lt with rfl | hlt
      · exact hzero
      · exact hskipped i hlt hhi
    · rw [if_neg hzero]
      exact ⟨le_rfl, Nat.le_add_right _ _, fun i hlo hhi => absurd hhi (Nat.not_lt.2 hlo),
        fun _ => hzero⟩

theorem skipDown_spec (digits : ℕ → ℕ) (n top : ℕ) (hn : n ≤ top) :
    skipDown digits n top ≤ top ∧ top ≤ skipDown digits n top + n ∧
      (∀ i, skipDown digits n top ≤ i → i < top → digits i = 0) ∧
      (top < skipDown digits n top + n → digits (skipDown digits n top - 1) ≠ 0) := by
  induction n generalizing top with
  | zero => exact ⟨le_rfl, le_rfl, fun i hlo hhi => absurd hhi (Nat.not_lt.2 hlo),
      fun h => absurd h (lt_irrefl _)⟩
  | succ n ih =>
    unfold skipDown
    by_cases hzero : digits (top - 1) = 0
    · rw [if_pos hzero]
      obtain ⟨hle, hend, hskipped, hstop⟩ := ih (top - 1) (by omega)
      refine ⟨by omega, by omega, ?_, fun h => hstop (by omega)⟩
      intro i hlo hhi
      rcases (Nat.le_sub_one_of_lt hhi).eq_or_lt with rfl | hlt
      · exact hzero
      · exact hskipped i hlo hlt
    · rw [if_neg hzero]
      exact ⟨le_rfl, Nat.le_add_right _ _, fun i hlo hhi => absurd hhi (Nat.not_lt.2 hlo),
        fun _ => hzero⟩

/-- The digits of `d` are those from `lo` to below `top`, without zeros at the ends. -/
structure Clipped (d : Decimal) (lo top : ℕ) : Prop where
  lsb_le : d.lsb ≤ lo
  le_top : lo ≤ top
  top_le : top ≤ d.msb + 1
  magnitude_eq : d.magnitude = value 10 d.digits lo top
  first : lo < top → d.digits lo ≠ 0
  last : lo < top → d.digits (top - 1) ≠ 0

theorem clipped (h : d.lsb ≤ d.msb + 1) : d.Clipped d.clipLsb d.clipTop := by
  obtain ⟨hlo, hhi, hbelow, hfirst⟩ := skipUp_spec d.digits (d.msb - d.lsb) d.lsb
  change d.lsb ≤ d.clipLsb at hlo
  change d.clipLsb ≤ _ at hhi
  change ∀ i, d.lsb ≤ i → i < d.clipLsb → _ at hbelow
  change d.clipLsb < _ → d.digits d.clipLsb ≠ 0 at hfirst
  obtain ⟨htop, hend, habove, hlast⟩ :=
    skipDown_spec d.digits (d.msb + 1 - d.clipLsb) (d.msb + 1) (Nat.sub_le _ _)
  change d.clipTop ≤ _ at htop
  change _ ≤ d.clipTop + _ at hend
  change ∀ i, d.clipTop ≤ i → _ at habove
  change _ < d.clipTop + _ → d.digits (d.clipTop - 1) ≠ 0 at hlast
  refine ⟨hlo, by omega, htop, ?_, ?_, fun hlt => hlast (by omega)⟩
  · refine value_widen hlo htop fun i hlow hup hout => ?_
    rcases hout with hlt | hge
    · exact hbelow i hlow hlt
    · exact habove i hge hup
  · intro hlt
    rcases Nat.lt_or_ge d.clipLsb d.msb with hmsb | hmsb
    · exact hfirst (by omega)
    · -- only one digit is left, which is the last one
      have hlast' := hlast (by omega)
      rwa [show d.clipTop - 1 = d.clipLsb by omega] at hlast'

namespace Clipped

variable {lo top : ℕ}

theorem magnitude_lt (h : d.Clipped lo top) (hd : d.WellFormed) : d.magnitude < 10 ^ top := by
  rw [h.magnitude_eq]
  refine value_lt (by decide) fun i hlo hhi => hd.digit_lt (h.lsb_le.trans hlo) ?_
  exact hhi.trans_le h.top_le

theorem pow_le_magnitude (h : d.Clipped lo top) (hlt : lo < top) :
    10 ^ (top - 1) ≤ d.magnitude := by
  rw [h.magnitude_eq]
  exact pow_le_value (by omega) (by omega) (h.last hlt)

theorem pow_dvd_magnitude (h : d.Clipped lo top) : 10 ^ lo ∣ d.magnitude := by
  rw [h.magnitude_eq]
  exact pow_dvd_value

theorem lt_iff (h : d.Clipped lo top) : lo < top ↔ d.magnitude ≠ 0 := by
  constructor
  · intro hlt hzero
    have hpos : 0 < 10 ^ (top - 1) := by positivity
    have hle := h.pow_le_magnitude hlt
    omega
  · intro hne
    by_contra hge
    rw [h.magnitude_eq, value_of_le (Nat.not_lt.1 hge)] at hne
    exact hne rfl

theorem top_le_maxDigits (h : d.Clipped lo top) (hd : d.WellFormed) : top ≤ 64 :=
  h.top_le.trans (Nat.succ_le_succ hd.msb_le)

end Clipped

end Decimal

end Nbcd
