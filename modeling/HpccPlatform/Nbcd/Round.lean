import HpccPlatform.Nbcd.Multiply
import HpccPlatform.Nbcd.Reading

/-!
# Rounding

`truncate`, `round` and `roundup` move `lsb` to the place of the last digit that stays, which may be
above `msb`.  `round` and `roundup` then may add one there with `incLSD`.  An access outside of the
array of 64 digits has no result.
-/

namespace Nbcd

open DigitWindow

namespace Decimal

/-! ### The functions -/

/-- The loop of `incLSD`, with `n` digits from `index` on. -/
def incLSDFrom : ℕ → ℕ → Decimal → Option Decimal
  | 0, _, d =>
    if d.msb + 1 ≤ 63 then
      some { d with digits := Function.update d.digits (d.msb + 1) 1, msb := d.msb + 1 }
    else none
  | n + 1, index, d =>
    let next := (d.digits index + 1) % 256
    if next ≠ 10 then
      some { d with digits := Function.update d.digits index next, lsb := index }
    else incLSDFrom n (index + 1) { d with digits := Function.update d.digits index 0 }

def incLSD (d : Decimal) : Option Decimal := incLSDFrom (d.msb + 1 - d.lsb) d.lsb d

def round (d : Decimal) (places : ℤ) : Option Decimal :=
  if places < -32 then some d.setZero
  else if 32 - places ≤ d.lsb then some d
  else
    let lsb := byteOf (32 - places)
    if d.msb < lsb then
      if 63 < lsb then none
      else
        let digit := if lsb = d.msb + 1 ∧ 5 ≤ d.digits d.msb then 1 else 0
        some { d with digits := Function.update d.digits lsb digit, lsb := lsb, msb := lsb }
    else if d.digits (lsb - 1) < 5 then some { d with lsb := lsb }
    else incLSD { d with lsb := lsb }

/-- Whether one of `n` digits from `i` on is not 0. -/
def anyDigit (digits : ℕ → ℕ) : ℕ → ℕ → Option Bool
  | 0, _ => some false
  | n + 1, i =>
    if 63 < i then none
    else if digits i ≠ 0 then some true
    else anyDigit digits n (i + 1)

def roundup (d : Decimal) (places : ℤ) : Option Decimal :=
  if 32 ≤ places ∨ 32 - places ≤ d.lsb then some d
  else
    let lower := d.lsb
    let moved := { d with lsb := byteOf (32 - places) }
    (anyDigit d.digits (moved.lsb - lower) lower).bind fun any =>
      if any then incLSD moved else some moved

def truncate (d : Decimal) (places : ℤ) : Decimal :=
  if places ≤ -32 then d.setZero
  else if d.lsb < 32 - places then
    let lsb := byteOf (32 - places)
    if d.msb < lsb then
      { d with digits := Function.update d.digits lsb 0, lsb := lsb, msb := lsb }
    else { d with lsb := lsb }
  else d

/-! ### What they should give -/

inductive Operation
  | truncate
  | round
  | roundup

namespace Operation

def apply : Operation → Decimal → ℤ → Option Decimal
  | truncate, d, places => some (d.truncate places)
  | round, d, places => d.round places
  | roundup, d, places => d.roundup places

def target : Operation → ℤ → ℚ → ℚ
  | truncate => Rounding.truncateAt
  | round => Rounding.roundAt
  | roundup => Rounding.roundUpAt

/-- The result is the number rounded as named, and is read as that number. -/
def Computes (op : Operation) (d : Decimal) (places : ℤ) : Prop :=
  ∃ t, op.apply d places = some t ∧ t.val = op.target places d.val ∧ t.Sees

end Operation

/-- No digit is left over where `getInt64` looks at an empty range. -/
def Clean (d : Decimal) : Prop := d.msb < d.lsb → 32 ≤ d.msb → d.digits d.msb = 0

/-- The place `32 - places` is not so far above the digits that `incLSD` leaves a gap, or there is
nothing to be rounded. -/
def RoundsUp (d : Decimal) (places : ℤ) : Prop :=
  d.msb + 2 ≤ 32 - places → d.magnitude = 0 ∧ d.Clean ∧
    (d.msb < 31 ∨ ∀ i : ℕ, d.lsb ≤ i → i < 32 - places → d.digits i = 0)

/-- When an operation gives what it should. -/
def Operation.Condition (op : Operation) (d : Decimal) (places : ℤ) : Prop :=
  (32 - places ≤ d.lsb → d.Clean) ∧ (op = Operation.roundup → d.RoundsUp places)

variable {d t : Decimal} {places : ℤ}

theorem sees_of_le (hd : d.Proper) (hle : d.lsb ≤ d.msb) (hmsb : d.msb ≤ 63) : d.Sees := by
  have hdigit := hd d.msb hle le_rfl
  exact (sees_iff hd hmsb (by omega)).2 fun hempty => absurd hle (Nat.not_le.2 hempty)

/-! ### Places -/

/-- A number ending at `lsb` is not changed by rounding at a place below. -/
theorem atPlace_of_le {f : ℚ → ℤ} (hf : ∀ n : ℕ, f n = n) (hle : 32 - places ≤ d.lsb) :
    Rounding.atPlace f places d.val = d.val := by
  obtain ⟨k, hk⟩ : (10 ^ d.lsb : ℤ) ∣ d.scaled := by
    have hdvd : 10 ^ d.lsb ∣ d.magnitude := pow_dvd_value
    rw [← natAbs_scaled] at hdvd
    rw [← Int.dvd_natAbs]
    exact_mod_cast hdvd
  obtain ⟨e, he⟩ := Int.eq_ofNat_of_zero_le (by omega : 0 ≤ (d.lsb : ℤ) - 32 + places)
  refine Rounding.atPlace_of_eq hf (n := k * 10 ^ e) ?_
  have hpos : (0 : ℚ) < 10 ^ places := zpow_pos (by norm_num) places
  have hpow : (10 : ℚ) ^ d.lsb * 10 ^ places = 10 ^ e * 10 ^ 32 := by
    rw [← zpow_natCast, ← zpow_natCast (10 : ℚ) e, ← zpow_natCast (10 : ℚ) 32,
      ← zpow_add₀ (by norm_num), ← zpow_add₀ (by norm_num)]
    congr 1
    push_cast
    omega
  rw [val, hk, div_eq_div_iff (by positivity) hpos.ne']
  push_cast
  rw [mul_comm ((10 : ℚ) ^ d.lsb), mul_assoc, hpow, mul_assoc]

/-- Above `lsb` the number is counted in units of the place. -/
theorem abs_val_mul_places {place : ℕ} (hplace : (place : ℤ) = 32 - places) :
    |d.val| * 10 ^ places = (d.magnitude : ℚ) / (10 ^ place : ℕ) := by
  have hpow : (10 : ℚ) ^ places * 10 ^ place = 10 ^ 32 := by
    rw [← zpow_natCast, ← zpow_add₀ (by norm_num), hplace]
    norm_num
  rw [abs_val, eq_div_iff (by positivity)]
  push_cast
  rw [mul_assoc, hpow, div_mul_cancel₀ _ (by positivity)]

theorem val_eq_target_iff {f : ℚ → ℤ} {place n : ℕ} (hplace : (place : ℤ) = 32 - places)
    (hf : f ((d.magnitude : ℚ) / (10 ^ place : ℕ)) = n)
    (hsign : t.magnitude ≠ 0 → d.magnitude ≠ 0 ∧ t.negative = d.negative) :
    t.val = Rounding.atPlace f places d.val ↔ t.magnitude = n * 10 ^ place := by
  have hunits := abs_val_mul_places (d := d) hplace
  rw [val_eq_atPlace_iff, hunits, hf]
  · have hpos : (0 : ℚ) < 10 ^ places := zpow_pos (by norm_num) places
    have hpow : (10 : ℚ) ^ places * 10 ^ place = 10 ^ 32 := by
      rw [← zpow_natCast, ← zpow_add₀ (by norm_num), hplace]
      norm_num
    rw [div_eq_div_iff (by positivity) hpos.ne', ← hpow, Int.cast_natCast,
      mul_comm ((10 : ℚ) ^ places), ← mul_assoc, mul_left_inj' hpos.ne']
    exact_mod_cast Iff.rfl
  · intro hne
    obtain ⟨hne', hneg⟩ := hsign hne
    rw [val_neg_iff hne', hneg]
  · rw [hunits, hf]
    exact Int.natCast_nonneg n

theorem abs_target {f : ℚ → ℤ} {place n : ℕ} (hplace : (place : ℤ) = 32 - places)
    (hf : f ((d.magnitude : ℚ) / (10 ^ place : ℕ)) = n) :
    |Rounding.atPlace f places d.val| < 10 ^ 32 ↔ n * 10 ^ place < 10 ^ 64 := by
  have hunits := abs_val_mul_places (d := d) hplace
  have hpos : (0 : ℚ) < 10 ^ places := zpow_pos (by norm_num) places
  have hpow : (10 : ℚ) ^ places * 10 ^ place = 10 ^ 32 := by
    rw [← zpow_natCast, ← zpow_add₀ (by norm_num), hplace]
    norm_num
  rw [Rounding.abs_atPlace (by rw [hunits, hf]; exact Int.natCast_nonneg n), hunits, hf,
    div_lt_iff₀ hpos, Int.cast_natCast]
  have hscale : (n : ℚ) < 10 ^ 32 * 10 ^ places ↔
      (n : ℚ) * 10 ^ place < 10 ^ 32 * 10 ^ places * 10 ^ place :=
    (mul_lt_mul_iff_left₀ (by positivity)).symm
  rw [hscale, mul_assoc, hpow, ← pow_add]
  exact_mod_cast Iff.rfl

/-! ### One more at the last place -/

theorem incLSDFrom_spec (n index : ℕ) (d : Decimal) (hn : index + n = d.msb + 1)
    (hle : d.lsb ≤ index) (hzero : ∀ i, d.lsb ≤ i → i < index → d.digits i = 0) (hd : d.Proper)
    (hmsb : d.msb ≤ 63) (hbound : d.magnitude + 10 ^ index < 10 ^ 64) :
    ∃ t, incLSDFrom n index d = some t ∧ t.magnitude = d.magnitude + 10 ^ index ∧ t.Proper ∧
      t.lsb ≤ t.msb ∧ t.msb ≤ 63 ∧ t.negative = d.negative := by
  induction n generalizing index d with
  | zero =>
    obtain rfl : index = d.msb + 1 := hn
    have hnone : d.magnitude = 0 := value_eq_zero hzero
    rw [hnone, Nat.zero_add] at hbound ⊢
    have hplace := (Nat.pow_lt_pow_iff_right (by decide : 1 < 10)).1 hbound
    refine ⟨_, if_pos (by omega), ?_, ?_, hle, (by omega : d.msb + 1 ≤ 63), rfl⟩
    · have hbelow : value 10 (Function.update d.digits (d.msb + 1) 1) d.lsb (d.msb + 1) = 0 :=
        value_eq_zero fun i hlo hhi => (Function.update_of_ne hhi.ne _ _).trans (hzero i hlo hhi)
      change value 10 (Function.update d.digits (d.msb + 1) 1) d.lsb (d.msb + 1 + 1) = _
      rw [value_succ hle, hbelow, Function.update_self, Nat.zero_add, Nat.one_mul]
    · intro i hlo hhi
      change Function.update d.digits (d.msb + 1) 1 i ≤ 9
      rcases (show i ≤ d.msb + 1 from hhi).eq_or_lt with rfl | hlt
      · rw [Function.update_self]
        decide
      · rw [Function.update_of_ne hlt.ne, hzero i hlo hlt]
        decide
  | succ n ih =>
    have hdigit := hd index hle (by omega)
    have hupdate := fun x : ℕ => value_update (b := 10) (d := d.digits) (x := x) hle
      (by omega : index < d.msb + 1)
    unfold incLSDFrom
    dsimp only
    rw [Nat.mod_eq_of_lt (by omega)]
    by_cases hnine : d.digits index + 1 ≠ 10
    · rw [if_pos hnine]
      refine ⟨_, rfl, ?_, ?_, (by omega : index ≤ d.msb), hmsb, rfl⟩
      · have hcut : value 10 (Function.update d.digits index (d.digits index + 1)) index (d.msb + 1)
            = value 10 (Function.update d.digits index (d.digits index + 1)) d.lsb (d.msb + 1) := by
          refine (value_widen hle le_rfl fun i hlo hhi hout => ?_).symm
          have hlt : i < index := by omega
          rw [Function.update_of_ne hlt.ne, hzero i hlo hlt]
        have hnext := hupdate (d.digits index + 1)
        rw [Nat.succ_mul] at hnext
        change value 10 (Function.update d.digits index (d.digits index + 1)) index (d.msb + 1) =
          value 10 d.digits d.lsb (d.msb + 1) + 10 ^ index
        omega
      · intro i hlo hhi
        change Function.update d.digits index (d.digits index + 1) i ≤ 9
        rcases eq_or_ne i index with rfl | hne
        · rw [Function.update_self]
          omega
        · rw [Function.update_of_ne hne]
          exact hd i (hle.trans hlo) hhi
    · rw [if_neg hnine]
      have hnext : value 10 (Function.update d.digits index 0) d.lsb (d.msb + 1) + 9 * 10 ^ index =
          d.magnitude := by
        have hzeroed := hupdate 0
        rw [show d.digits index = 9 by omega, Nat.zero_mul, Nat.add_zero] at hzeroed
        exact hzeroed
      have hpow : 10 ^ (index + 1) = 10 * 10 ^ index := by rw [pow_succ, Nat.mul_comm]
      have hzero' : ∀ i, d.lsb ≤ i → i < index + 1 → Function.update d.digits index 0 i = 0 := by
        intro i hlo hhi
        rcases (Nat.le_of_lt_succ hhi).eq_or_lt with rfl | hlt
        · exact Function.update_self _ _ _
        · rw [Function.update_of_ne hlt.ne]
          exact hzero i hlo hlt
      have hd' : ∀ i, d.lsb ≤ i → i ≤ d.msb → Function.update d.digits index 0 i ≤ 9 := by
        intro i hlo hhi
        rcases eq_or_ne i index with rfl | hne
        · rw [Function.update_self]
          exact Nat.zero_le _
        · rw [Function.update_of_ne hne]
          exact hd i hlo hhi
      obtain ⟨t, hresult, hmagnitude, hrest⟩ := ih (index + 1)
        { d with digits := Function.update d.digits index 0 } (by dsimp only; omega)
        (Nat.le_succ_of_le hle) hzero' hd' hmsb
        (by
          change value 10 (Function.update d.digits index 0) d.lsb (d.msb + 1) + _ < _
          omega)
      refine ⟨t, hresult, ?_, hrest⟩
      change t.magnitude =
        value 10 (Function.update d.digits index 0) d.lsb (d.msb + 1) + _ at hmagnitude
      omega

theorem incLSD_spec (hd : d.Proper) (hle : d.lsb ≤ d.msb + 1) (hmsb : d.msb ≤ 63)
    (hbound : d.magnitude + 10 ^ d.lsb < 10 ^ 64) :
    ∃ t, d.incLSD = some t ∧ t.magnitude = d.magnitude + 10 ^ d.lsb ∧ t.Proper ∧
      t.lsb ≤ t.msb ∧ t.msb ≤ 63 ∧ t.negative = d.negative :=
  incLSDFrom_spec _ _ d (by omega) le_rfl (fun _ hlo hhi => absurd hhi (Nat.not_lt.2 hlo)) hd hmsb
    hbound

theorem anyDigit_spec (digits : ℕ → ℕ) (n i : ℕ) (hn : i + n ≤ 64) :
    (anyDigit digits n i = some true ∧ ∃ k, i ≤ k ∧ k < i + n ∧ digits k ≠ 0) ∨
      (anyDigit digits n i = some false ∧ ∀ k, i ≤ k → k < i + n → digits k = 0) := by
  induction n generalizing i with
  | zero => exact Or.inr ⟨rfl, fun k hlo hhi => absurd hhi (Nat.not_lt.2 hlo)⟩
  | succ n ih =>
    unfold anyDigit
    rw [if_neg (by omega)]
    by_cases hne : digits i ≠ 0
    · rw [if_pos hne]
      exact Or.inl ⟨rfl, i, le_rfl, by omega, hne⟩
    · rw [if_neg hne]
      rcases ih (i + 1) (by omega) with ⟨htrue, k, hlo, hhi, hk⟩ | ⟨hfalse, hall⟩
      · exact Or.inl ⟨htrue, k, by omega, by omega, hk⟩
      · refine Or.inr ⟨hfalse, fun k hlo hhi => ?_⟩
        rcases hlo.eq_or_lt with rfl | hlt
        · exact not_not.1 hne
        · exact hall k hlt (by omega)

/-! ### The results above `lsb` -/

/-- `t` is `d` with another magnitude, and is read as such. -/
structure Rounded (d t : Decimal) (magnitude : ℕ) : Prop where
  magnitude_eq : t.magnitude = magnitude
  sees : t.Sees
  negative_eq : t.negative = d.negative

variable {place : ℕ}

theorem byteOf_place (hplace : (place : ℤ) = 32 - places) (hle : place ≤ 63) :
    byteOf (32 - places) = place := by
  unfold byteOf
  omega

/-- The digits from a place on. -/
theorem magnitude_moved (hd : d.WellFormed) (hlo : d.lsb ≤ place) (hhi : place ≤ d.msb + 1) :
    ({ d with lsb := place } : Decimal).magnitude = d.magnitude / 10 ^ place * 10 ^ place :=
  (value_div_mul (by decide) (fun _ hlo hhi => hd.digit_lt hlo hhi) hlo hhi).symm

theorem proper_moved (hd : d.WellFormed) (hlo : d.lsb ≤ place) :
    ({ d with lsb := place } : Decimal).Proper := fun i hi hi' => hd.digit i (hlo.trans hi) hi'

theorem div_place_eq_zero (hd : d.WellFormed) (hhi : d.msb < place) :
    d.magnitude / 10 ^ place = 0 := by
  have hlt : d.magnitude < 10 ^ (d.msb + 1) := value_lt (by decide) fun _ hlo hhi =>
    hd.digit_lt hlo hhi
  exact Nat.div_eq_of_lt (hlt.trans_le (Nat.pow_le_pow_right (by decide) hhi))

/-- One digit, at the place to which `lsb` is moved. -/
theorem rounded_digit {digit : ℕ} (hdigit : digit ≤ 9) (hle : place ≤ 63) :
    d.Rounded { d with digits := Function.update d.digits place digit, lsb := place, msb := place }
      (digit * 10 ^ place) := by
  refine ⟨?_, sees_of_le (fun i hlo hhi => ?_) (le_refl place) hle, rfl⟩
  · change value 10 (Function.update d.digits place digit) place (place + 1) = _
    rw [value_succ le_rfl, value_self, Function.update_self, Nat.zero_add]
  · obtain rfl : i = place := le_antisymm hhi hlo
    change Function.update d.digits i digit i ≤ 9
    rw [Function.update_self]
    exact hdigit

theorem truncate_spec (hd : d.WellFormed) (hplace : (place : ℤ) = 32 - places)
    (hlo : d.lsb < place) (hle : place ≤ 63) :
    d.Rounded (d.truncate places) (d.magnitude / 10 ^ place * 10 ^ place) := by
  unfold truncate
  rw [if_neg (by omega), if_pos (by omega), byteOf_place hplace hle]
  dsimp only
  by_cases hhi : d.msb < place
  · rw [if_pos hhi, div_place_eq_zero hd hhi]
    exact rounded_digit (Nat.zero_le 9) hle
  · rw [if_neg hhi]
    exact ⟨magnitude_moved hd hlo.le (by omega), sees_of_le (proper_moved hd hlo.le)
      (not_lt.1 hhi) hd.msb_le, rfl⟩

/-- The digit below the place decides which way to round. -/
theorem halfUp_place (hd : d.WellFormed) (hlo : d.lsb < place) (hhi : place ≤ d.msb + 1) :
    (2 * d.magnitude + 10 ^ place) / (2 * 10 ^ place) =
      d.magnitude / 10 ^ place + if 5 ≤ d.digits (place - 1) then 1 else 0 := by
  have hdigits : ∀ i, d.lsb ≤ i → i < d.msb + 1 → d.digits i < 10 := fun _ hlo hhi =>
    hd.digit_lt hlo hhi
  obtain ⟨below, rfl⟩ := Nat.exists_eq_succ_of_ne_zero (Nat.ne_zero_of_lt hlo)
  have hle : d.lsb ≤ below := Nat.le_of_lt_succ hlo
  have hmod : d.magnitude % 10 ^ (below + 1) =
      value 10 d.digits d.lsb below + d.digits below * 10 ^ below := by
    rw [magnitude, value_mod (by decide) hdigits hlo.le hhi, value_succ hle]
  have hrest : value 10 d.digits d.lsb below < 10 ^ below :=
    value_lt (by decide) fun i hi hi' => hdigits i hi (by omega)
  have hdiv := Nat.div_add_mod' d.magnitude (10 ^ (below + 1))
  have hlt := Nat.mod_lt d.magnitude (by positivity : 10 ^ (below + 1) > 0)
  have hpow : 10 ^ (below + 1) = 10 * 10 ^ below := by rw [pow_succ, Nat.mul_comm]
  change _ = _ + if 5 ≤ d.digits below then 1 else 0
  generalize d.magnitude / 10 ^ (below + 1) = quotient at hdiv ⊢
  generalize d.magnitude % 10 ^ (below + 1) = rest at hdiv hmod hlt
  rw [← hdiv]
  rw [hpow] at hlt ⊢
  split_ifs with hfive
  · have hhalf := Nat.mul_le_mul_right (10 ^ below) hfive
    exact Nat.div_eq_of_lt_le (by linarith) (by linarith)
  · have hhalf := Nat.mul_le_mul_right (10 ^ below) (Nat.le_of_lt_succ (not_le.1 hfive))
    exact Nat.div_eq_of_lt_le (by linarith) (by linarith)

theorem round_spec (hd : d.WellFormed) (hplace : (place : ℤ) = 32 - places) (hlo : d.lsb < place)
    (hle : place ≤ 63)
    (hbound : (2 * d.magnitude + 10 ^ place) / (2 * 10 ^ place) * 10 ^ place < 10 ^ 64) :
    ∃ t, d.round places = some t ∧
      d.Rounded t ((2 * d.magnitude + 10 ^ place) / (2 * 10 ^ place) * 10 ^ place) := by
  have hlow : ¬ (32 - places ≤ d.lsb) := by omega
  unfold round
  rw [if_neg (by omega), if_neg hlow, byteOf_place hplace hle]
  dsimp only
  by_cases hhi : d.msb < place
  · rw [if_pos hhi, if_neg (Nat.not_lt.2 hle)]
    have hdigit : (2 * d.magnitude + 10 ^ place) / (2 * 10 ^ place) =
        if place = d.msb + 1 ∧ 5 ≤ d.digits d.msb then 1 else 0 := by
      rcases (show d.msb + 1 ≤ place from hhi).eq_or_lt with rfl | hgap
      · rw [halfUp_place hd hlo le_rfl, div_place_eq_zero hd hhi, Nat.zero_add]
        simp only [Nat.add_sub_cancel, true_and]
      · have hsmall := Nat.mul_le_mul_left 10 (Nat.div_eq_zero_iff.1
          (div_place_eq_zero hd (Nat.lt_succ_self d.msb)) |>.resolve_left (by positivity)).le
        have hpow : 10 * 10 ^ (d.msb + 1) ≤ 10 ^ place := by
          rw [Nat.mul_comm, ← pow_succ]
          exact Nat.pow_le_pow_right (by decide) hgap
        have hpos : 0 < 10 ^ place := by positivity
        rw [if_neg (fun h => hgap.ne' h.1), Nat.div_eq_of_lt (by omega)]
    rw [hdigit]
    exact ⟨_, rfl, rounded_digit (by split <;> decide) hle⟩
  · have hhi' : place ≤ d.msb + 1 := by omega
    have hmoved := magnitude_moved hd hlo.le hhi'
    rw [if_neg hhi]
    rw [halfUp_place hd hlo hhi'] at hbound ⊢
    by_cases hfive : d.digits (place - 1) < 5
    · rw [if_pos hfive, if_neg (Nat.not_le.2 hfive), Nat.add_zero]
      exact ⟨_, rfl, hmoved, sees_of_le (proper_moved hd hlo.le) (not_lt.1 hhi) hd.msb_le, rfl⟩
    · rw [if_pos (not_lt.1 hfive), Nat.succ_mul, ← hmoved] at hbound
      obtain ⟨t, hresult, hmagnitude, hproper, hrange, hmsb, hnegative⟩ :=
        incLSD_spec (proper_moved hd hlo.le) hhi' hd.msb_le hbound
      rw [if_neg hfive, if_pos (not_lt.1 hfive), Nat.succ_mul, ← hmoved]
      exact ⟨t, hresult, hmagnitude, sees_of_le hproper hrange hmsb, hnegative⟩

/-! ### Rounding up -/

theorem ceil_place_of_zero (hall : ∀ i, d.lsb ≤ i → i < place → d.digits i = 0)
    (hd : d.WellFormed) (hlo : d.lsb ≤ place) (hhi : place ≤ d.msb + 1) :
    (d.magnitude + 10 ^ place - 1) / 10 ^ place = d.magnitude / 10 ^ place := by
  have hmod : d.magnitude % 10 ^ place = 0 := by
    rw [magnitude, value_mod (by decide) (fun _ hlo hhi => hd.digit_lt hlo hhi) hlo hhi,
      value_eq_zero hall]
  obtain ⟨k, hk⟩ := Nat.dvd_of_mod_eq_zero hmod
  have hpos : 0 < 10 ^ place := by positivity
  rw [hk, Nat.mul_div_cancel_left _ hpos, Nat.add_sub_assoc hpos, Nat.mul_add_div hpos,
    Nat.div_eq_of_lt (Nat.sub_lt hpos Nat.one_pos), Nat.add_zero]

theorem ceil_place_of_digit {k : ℕ} (hk : d.lsb ≤ k) (hk' : k < place) (hne : d.digits k ≠ 0)
    (hd : d.WellFormed) (hhi : place ≤ d.msb + 1) :
    (d.magnitude + 10 ^ place - 1) / 10 ^ place = d.magnitude / 10 ^ place + 1 := by
  have hmod : d.magnitude % 10 ^ place ≠ 0 := by
    rw [magnitude, value_mod (by decide) (fun _ hlo hhi => hd.digit_lt hlo hhi) (hk.trans hk'.le)
      hhi]
    exact fun hzero => hne (eq_zero_of_value (by decide) hzero hk hk')
  have hpos : 0 < 10 ^ place := by positivity
  have hdiv := Nat.div_add_mod' d.magnitude (10 ^ place)
  have hlt := Nat.mod_lt d.magnitude hpos
  refine Nat.div_eq_of_lt_le ?_ ?_
  · rw [Nat.succ_mul]
    omega
  · rw [Nat.succ_mul, Nat.succ_mul]
    omega

theorem roundup_eq (hplace : (place : ℤ) = 32 - places) (hlo : d.lsb < place) (hle : place ≤ 63) :
    d.roundup places = (anyDigit d.digits (place - d.lsb) d.lsb).bind fun any =>
      if any then incLSD { d with lsb := place } else some { d with lsb := place } := by
  have hlow : ¬ (32 ≤ places ∨ 32 - places ≤ d.lsb) := by omega
  unfold roundup
  rw [if_neg hlow, byteOf_place hplace hle]

theorem roundup_spec (hd : d.WellFormed) (hplace : (place : ℤ) = 32 - places) (hlo : d.lsb < place)
    (hle : place ≤ 63) (hhi : place ≤ d.msb + 1)
    (hbound : (d.magnitude + 10 ^ place - 1) / 10 ^ place * 10 ^ place < 10 ^ 64) :
    ∃ t, d.roundup places = some t ∧
      d.Rounded t ((d.magnitude + 10 ^ place - 1) / 10 ^ place * 10 ^ place) := by
  have hmoved := magnitude_moved hd hlo.le hhi
  have hproper := proper_moved hd hlo.le
  rw [roundup_eq hplace hlo hle]
  rcases anyDigit_spec d.digits (place - d.lsb) d.lsb (by omega) with
    ⟨htrue, k, hk, hk', hne⟩ | ⟨hfalse, hall⟩
  · rw [Nat.add_sub_cancel' hlo.le] at hk'
    rw [ceil_place_of_digit hk hk' hne hd hhi, Nat.succ_mul, ← hmoved] at hbound ⊢
    obtain ⟨t, hresult, hmagnitude, hproper', hrange, hmsb, hnegative⟩ :=
      incLSD_spec hproper hhi hd.msb_le hbound
    rw [htrue]
    exact ⟨t, hresult, hmagnitude, sees_of_le hproper' hrange hmsb, hnegative⟩
  · rw [Nat.add_sub_cancel' hlo.le] at hall
    rw [ceil_place_of_zero hall hd hlo.le hhi, ← hmoved, hfalse]
    refine ⟨_, rfl, rfl, ?_, rfl⟩
    rcases hhi.eq_or_lt with hend | hlt
    · -- all digits are 0, also the last one
      have hlast := hall d.msb (by omega) (by omega)
      exact (sees_iff hproper hd.msb_le (by dsimp only; omega)).2 fun _ _ => hlast
    · exact sees_of_le hproper (Nat.le_of_lt_succ hlt) hd.msb_le

/-- The place is more than one above the digits: `incLSD` puts its digit below the new range. -/
theorem roundup_gap (hd : d.WellFormed) (hbyte : d.digits d.msb < 256)
    (hplace : (place : ℤ) = 32 - places) (hle : place ≤ 63) (hgap : d.msb + 2 ≤ place) :
    ∃ t, d.roundup places = some t ∧ t.magnitude = 0 ∧
      (d.magnitude = 0 → (t.Sees ↔ d.Clean ∧
        (d.msb < 31 ∨ ∀ i, d.lsb ≤ i → i < place → d.digits i = 0))) := by
  have hlsb := hd.lsb_le
  have hlo : d.lsb < place := by omega
  have hproper : ∀ f : ℕ → ℕ, ∀ msb, msb < place →
      Proper { d with digits := f, msb := msb, lsb := place } := fun _ _ hmsb i hi hi' =>
    absurd (hi.trans hi') (Nat.not_le.2 hmsb)
  rw [roundup_eq hplace hlo hle]
  rcases anyDigit_spec d.digits (place - d.lsb) d.lsb (by omega) with
    ⟨htrue, k, hk, hk', hne⟩ | ⟨hfalse, hall⟩
  · rw [Nat.add_sub_cancel' hlo.le] at hk'
    have hnone : d.msb + 1 - place = 0 := by omega
    have hroom : d.msb + 1 ≤ 63 := by omega
    rw [htrue, Option.bind_some, if_pos rfl, incLSD]
    dsimp only
    rw [hnone, incLSDFrom, if_pos hroom]
    dsimp only
    refine ⟨_, rfl, value_of_le hgap, fun _ => ?_⟩
    have hone : Function.update d.digits (d.msb + 1) 1 (d.msb + 1) = 1 := Function.update_self _ _ _
    have hsees := sees_iff (hproper (Function.update d.digits (d.msb + 1) 1) (d.msb + 1) (by omega))
      hroom (by dsimp only; omega)
    refine hsees.trans ?_
    dsimp only
    rw [hone]
    constructor
    · intro hclean
      have hlow : d.msb < 31 := by
        by_contra hhigh
        exact one_ne_zero (hclean (by omega) (by omega))
      exact ⟨fun _ hhigh => absurd hhigh (by omega), Or.inl hlow⟩
    · rintro ⟨-, hlow | hall⟩ - hhigh
      · omega
      · exact absurd (hall k hk hk') hne
  · rw [Nat.add_sub_cancel' hlo.le] at hall
    rw [hfalse]
    refine ⟨_, rfl, value_of_le (by dsimp only; omega), fun _ => ?_⟩
    have hsees := sees_iff (hproper d.digits d.msb (by omega)) hd.msb_le hbyte
    refine hsees.trans ?_
    dsimp only
    constructor
    · exact fun hclean => ⟨fun _ => hclean (by omega), Or.inr hall⟩
    · rintro ⟨hclean, -⟩ - hhigh
      rcases Nat.lt_or_ge d.msb d.lsb with hempty | hrange
      · exact hclean hempty hhigh
      · exact hall d.msb hrange (by omega)

/-! ### What the functions compute -/

/-- The magnitude after an operation, in units of the place. -/
def Operation.unitsOf : Operation → ℕ → ℕ → ℕ
  | truncate, place, magnitude => magnitude / 10 ^ place
  | round, place, magnitude => (2 * magnitude + 10 ^ place) / (2 * 10 ^ place)
  | roundup, place, magnitude => (magnitude + 10 ^ place - 1) / 10 ^ place

theorem val_eq_operation_iff (op : Operation) (hplace : (place : ℤ) = 32 - places)
    (hsign : t.magnitude ≠ 0 → d.magnitude ≠ 0 ∧ t.negative = d.negative) :
    t.val = op.target places d.val ↔ t.magnitude = op.unitsOf place d.magnitude * 10 ^ place := by
  have hpos : 0 < 10 ^ place := by positivity
  cases op with
  | truncate => exact val_eq_target_iff hplace (Rat.floor_natCast_div_natCast _ _) hsign
  | round => exact val_eq_target_iff hplace (Rounding.halfUp_div _ hpos) hsign
  | roundup => exact val_eq_target_iff hplace (Rounding.ceil_div _ hpos) hsign

theorem abs_operation (op : Operation) (hplace : (place : ℤ) = 32 - places) :
    |op.target places d.val| < 10 ^ 32 ↔ op.unitsOf place d.magnitude * 10 ^ place < 10 ^ 64 := by
  have hpos : 0 < 10 ^ place := by positivity
  cases op with
  | truncate => exact abs_target hplace (Rat.floor_natCast_div_natCast _ _)
  | round => exact abs_target hplace (Rounding.halfUp_div _ hpos)
  | roundup => exact abs_target hplace (Rounding.ceil_div _ hpos)

theorem unitsOf_zero (op : Operation) (place : ℕ) : op.unitsOf place 0 = 0 := by
  have hpos : 0 < 10 ^ place := by positivity
  cases op with
  | truncate => exact Nat.zero_div _
  | round => exact Nat.div_eq_of_lt (by omega)
  | roundup => exact Nat.div_eq_of_lt (by omega)

theorem target_of_le (op : Operation) (hle : 32 - places ≤ d.lsb) :
    op.target places d.val = d.val := by
  cases op with
  | truncate => exact atPlace_of_le (fun n => Int.floor_natCast n) hle
  | round => exact atPlace_of_le (fun n => Rounding.halfUp_intCast n) hle
  | roundup => exact atPlace_of_le (fun n => Int.ceil_natCast n) hle

theorem apply_of_le (op : Operation) (hplaces : -32 < places) (hle : 32 - places ≤ d.lsb) :
    op.apply d places = some d := by
  cases op with
  | truncate =>
    exact congrArg some ((if_neg (by omega)).trans (if_neg (by omega)))
  | round => exact (if_neg (by omega)).trans (if_pos hle)
  | roundup => exact if_pos (Or.inr hle)

/-- Above `lsb`, unless `roundup` leaves a gap. -/
theorem apply_spec (op : Operation) (hd : d.WellFormed) (hplace : (place : ℤ) = 32 - places)
    (hlo : d.lsb < place) (hle : place ≤ 63) (hgap : op = .roundup → place ≤ d.msb + 1)
    (hbound : op.unitsOf place d.magnitude * 10 ^ place < 10 ^ 64) :
    ∃ t, op.apply d places = some t ∧ d.Rounded t (op.unitsOf place d.magnitude * 10 ^ place) := by
  cases op with
  | truncate => exact ⟨_, rfl, truncate_spec hd hplace hlo hle⟩
  | round => exact round_spec hd hplace hlo hle hbound
  | roundup => exact roundup_spec hd hplace hlo hle (hgap rfl) hbound

theorem computes_iff (op : Operation) (hd : d.WellFormed) (hbyte : ∀ i, d.digits i < 256)
    (hplaces : -32 < places) (hbound : |op.target places d.val| < 10 ^ 32) :
    op.Computes d places ↔ op.Condition d places := by
  unfold Operation.Computes Operation.Condition RoundsUp
  rcases le_or_gt (32 - places) (d.lsb : ℤ) with hle | hlo
  · rw [apply_of_le op hplaces hle, target_of_le op hle]
    have hsees : d.Sees ↔ d.Clean := sees_iff hd.proper hd.msb_le (hbyte _)
    have hlsb := hd.lsb_le
    constructor
    · rintro ⟨t, hresult, -, hread⟩
      obtain rfl := Option.some.inj hresult
      exact ⟨fun _ => hsees.1 hread, fun _ hgap => by omega⟩
    · rintro ⟨hclean, -⟩
      exact ⟨d, rfl, rfl, hsees.2 (hclean hle)⟩
  · obtain ⟨place, hplace⟩ := Int.eq_ofNat_of_zero_le (by omega : 0 ≤ 32 - places)
    have hplace' : (place : ℤ) = 32 - places := hplace.symm
    have hnone : 32 - places ≤ d.lsb → d.Clean := fun hle => absurd hle (by omega)
    by_cases hgap : op = .roundup ∧ d.msb + 2 ≤ place
    · obtain ⟨rfl, hgap⟩ := hgap
      obtain ⟨t, hresult, hmagnitude, hsees⟩ := roundup_gap hd (hbyte _) hplace' (by omega) hgap
      have hval : t.val = Operation.roundup.target places d.val ↔ d.magnitude = 0 := by
        rw [val_eq_operation_iff .roundup hplace' fun hne => absurd hmagnitude hne, hmagnitude]
        have hpos : 0 < 10 ^ place := by positivity
        constructor
        · intro hzero
          have hunits := (Nat.mul_eq_zero.1 hzero.symm).resolve_right hpos.ne'
          have hsmall := (Nat.div_eq_zero_iff.1 hunits).resolve_left hpos.ne'
          omega
        · intro hzero
          rw [hzero, unitsOf_zero, Nat.zero_mul]
      have hall : (∀ i : ℕ, d.lsb ≤ i → i < 32 - places → d.digits i = 0) ↔
          ∀ i, d.lsb ≤ i → i < place → d.digits i = 0 := by
        rw [hplace]
        exact forall_congr' fun i => by rw [Nat.cast_lt]
      rw [hall]
      constructor
      · rintro ⟨t', hresult', hread, hseen⟩
        obtain rfl := Option.some.inj (hresult.symm.trans hresult')
        have hzero := hval.1 hread
        exact ⟨hnone, fun _ _ => ⟨hzero, (hsees hzero).1 hseen⟩⟩
      · rintro ⟨-, hcondition⟩
        obtain ⟨hzero, hclean⟩ := hcondition rfl (by omega)
        exact ⟨t, hresult, hval.2 hzero, (hsees hzero).2 hclean⟩
    · obtain ⟨t, hresult, hrounded⟩ := apply_spec op hd hplace' (by omega) (by omega)
        (fun hop => by
          by_contra hgt
          exact hgap ⟨hop, by omega⟩)
        ((abs_operation op hplace').1 hbound)
      refine iff_of_true ⟨t, hresult, ?_, hrounded.sees⟩
        ⟨hnone, fun hop hgt => absurd ⟨hop, by omega⟩ hgap⟩
      refine (val_eq_operation_iff op hplace' fun hne => ⟨?_, hrounded.negative_eq⟩).2
        hrounded.magnitude_eq
      rintro hzero
      rw [hrounded.magnitude_eq, hzero, unitsOf_zero, Nat.zero_mul] at hne
      exact hne rfl

/-- -7 rounded to tens is -10. -/
theorem computes_seven : |Operation.round.target (-1) (ofDigit 7 true).val| < 10 ^ 32 ∧
    (Operation.round.Computes (ofDigit 7 true) (-1) ↔
      Operation.round.Condition (ofDigit 7 true) (-1)) := by
  have hbound : |Operation.round.target (-1) (ofDigit 7 true).val| < 10 ^ 32 := by
    rw [abs_operation .round (by decide : ((33 : ℕ) : ℤ) = 32 - -1), magnitude_ofDigit]
    norm_num [Operation.unitsOf]
  refine ⟨hbound, computes_iff .round (wellFormed_ofDigit (by decide) true) (fun i => ?_)
    (by decide) hbound⟩
  change (if i = 32 then 7 else 0) < 256
  split <;> decide

/-- 1 rounded up to hundreds is read as 0 in the text and as 10 in the integer. -/
theorem roundup_one : Rounding.roundUpAt (-2) (ofDigit 1 false).val = 100 ∧
    ((ofDigit 1 false).roundup (-2)).map (fun t => (t.getString 3, t.getInt64)) =
      some (some ['0', ' ', ' '], 10) ∧
    ¬ Operation.roundup.Computes (ofDigit 1 false) (-2) := by
  have htarget : Rounding.roundUpAt (-2) (ofDigit 1 false).val = 100 := by
    have hval : (ofDigit 1 false).val = 1 := by
      rw [val_eq, magnitude_ofDigit]
      norm_num [ofDigit]
    have hceil : ⌈(1 : ℚ) * 10 ^ (-2 : ℤ)⌉ = 1 := by
      rw [Int.ceil_eq_iff]
      norm_num
    rw [hval, Rounding.roundUpAt, Rounding.atPlace_of_nonneg (by norm_num), hceil]
    norm_num
  refine ⟨htarget, by decide +kernel, ?_⟩
  rintro ⟨t, hresult, hval, -⟩
  obtain ⟨t', hresult', hmagnitude, -⟩ :=
    roundup_gap (wellFormed_ofDigit (by decide : 1 ≤ 9) false) (by decide)
      (by decide : ((34 : ℕ) : ℤ) = 32 - -2) (by decide) (by decide)
  obtain rfl := Option.some.inj (hresult.symm.trans hresult')
  rw [val_eq_zero_iff.2 hmagnitude] at hval
  exact absurd (hval.trans htarget) (by norm_num)

end Decimal

end Nbcd
