import HpccPlatform.Nbcd.AddSubtract
import HpccPlatform.Nbcd.Divide
import HpccPlatform.Nbcd.Round

/-!
# The remainder

`modulus` takes off the divisor as many times as the whole part of the quotient says.  The quotient
has been rounded before, so that its whole part may be one too many.
-/

namespace Nbcd

open DigitWindow

namespace Decimal

/-- `left.divide(other).truncate(0).multiply(other)` on a copy, which is then taken off. -/
def modulus (s other : Decimal) : Option Decimal :=
  (s.divide other).bind fun left => s.subtract (.other ((left.truncate 0).multiply other))

/-- The remainder is less than the divisor, has the sign of the number, and differs from it by a
multiple of the divisor. -/
def HasRemainder (a b : Decimal) : Prop :=
  ∃ t, a.modulus b = some t ∧ |t.val| < |b.val| ∧ (t.val = 0 ∨ 0 < t.val * a.val) ∧
    ∃ k : ℤ, a.val - t.val = k * b.val

/-- If the quotient is rounded up, it does not come to a whole number, or it consists of nines whose
carry is lost. -/
def KeepsWholePart (a b : Decimal) : Prop :=
  b.magnitude ≤ 2 * (a.cutNumerator b % b.magnitude) →
    10 ^ 32 ∣ a.magnitude * 10 ^ 32 / b.magnitude + 1 →
      a.magnitude * 10 ^ 32 / b.magnitude + 1 = 10 ^ 32 ∧ b.clipTop = a.clipTop + 1

variable {a b t : Decimal}

/-! ### The whole part of the quotient -/

/-- The whole part of what `divide` gives. -/
def wholeQuotient (a b : Decimal) : ℕ :=
  (if b.magnitude ≤ 2 * (a.cutNumerator b % b.magnitude) then
    if a.magnitude * 10 ^ 32 / b.magnitude + 1 = 10 ^ (a.clipTop + 33 - b.clipTop) then 0
    else a.magnitude * 10 ^ 32 / b.magnitude + 1
  else a.magnitude * 10 ^ 32 / b.magnitude) / 10 ^ 32

theorem wholeQuotient_eq_iff :
    a.wholeQuotient b = a.magnitude / b.magnitude ↔ a.KeepsWholePart b := by
  have hexact : a.magnitude / b.magnitude = a.magnitude * 10 ^ 32 / b.magnitude / 10 ^ 32 := by
    rw [Nat.div_div_eq_div_mul, Nat.mul_div_mul_right _ _ (by positivity)]
  unfold wholeQuotient KeepsWholePart
  rw [hexact]
  generalize a.magnitude * 10 ^ 32 / b.magnitude = q
  by_cases hup : b.magnitude ≤ 2 * (a.cutNumerator b % b.magnitude)
  · rw [if_pos hup]
    by_cases hnines : q + 1 = 10 ^ (a.clipTop + 33 - b.clipTop)
    · rw [if_pos hnines, hnines]
      rcases Nat.lt_trichotomy (a.clipTop + 33 - b.clipTop) 32 with hlt | heq | hgt
      · have hpow : 10 ^ (a.clipTop + 33 - b.clipTop) < 10 ^ 32 :=
          Nat.pow_lt_pow_right (by decide) hlt
        refine iff_of_true ?_ fun _ hdvd => absurd (Nat.le_of_dvd (by positivity) hdvd) (by omega)
        rw [Nat.div_eq_of_lt (by omega : q < 10 ^ 32), Nat.zero_div]
      · rw [heq] at hnines ⊢
        refine iff_of_true ?_ fun _ _ => ⟨rfl, by omega⟩
        rw [Nat.div_eq_of_lt (by omega : q < 10 ^ 32), Nat.zero_div]
      · have hpow : 10 ^ 32 < 10 ^ (a.clipTop + 33 - b.clipTop) :=
          Nat.pow_lt_pow_right (by decide) hgt
        refine iff_of_false ?_ fun h => absurd (h hup (pow_dvd_pow 10 hgt.le)).1 (by omega)
        rw [Nat.zero_div]
        exact (Nat.div_pos (by omega : 10 ^ 32 ≤ q) (by positivity)).ne
    · rw [if_neg hnines, Nat.succ_div]
      by_cases hdvd : 10 ^ 32 ∣ q + 1
      · rw [if_pos hdvd]
        refine iff_of_false (by omega) fun h => hnines ?_
        obtain ⟨hone, htop⟩ := h hup hdvd
        rw [hone, htop, show a.clipTop + 33 - (a.clipTop + 1) = 32 by omega]
      · rw [if_neg hdvd, Nat.add_zero]
        exact iff_of_true rfl fun _ h => absurd h hdvd
  · rw [if_neg hup]
    exact iff_of_true rfl fun h => absurd h hup

/-- The whole part, and where its digits are. -/
theorem truncate_zero_spec (ht : t.WellFormed) (hlsb : t.lsb = 0) :
    (t.truncate 0).WellFormed ∧ (t.truncate 0).magnitude = t.magnitude / 10 ^ 32 * 10 ^ 32 ∧
      (t.truncate 0).negative = t.negative ∧ (t.truncate 0).clipLsb ≤ max 32 t.msb := by
  have hrounded := truncate_spec ht (by decide : ((32 : ℕ) : ℤ) = 32 - 0) (by omega) (by decide)
  have hplace : byteOf (32 - 0) = 32 := by decide
  have htruncate : t.truncate 0 =
      if t.msb < 32 then
        { t with digits := Function.update t.digits 32 0, lsb := 32, msb := 32 }
      else { t with lsb := 32 } := by
    unfold truncate
    rw [if_neg (by decide), if_pos (by rw [hlsb]; decide), hplace]
  have hrange : (t.truncate 0).lsb = 32 ∧ (t.truncate 0).msb = max 32 t.msb := by
    rw [htruncate]
    split_ifs with hmsb
    · exact ⟨rfl, (max_eq_left hmsb.le).symm⟩
    · exact ⟨rfl, (max_eq_right (not_lt.1 hmsb)).symm⟩
  refine ⟨⟨fun i hlo hhi => ?_, ?_, ?_⟩, hrounded.magnitude_eq, hrounded.negative_eq, ?_⟩
  · rw [hrange.1] at hlo
    rw [hrange.2] at hhi
    rw [htruncate]
    split_ifs with hmsb
    · obtain rfl : i = 32 := by omega
      exact (Function.update_self 32 0 t.digits).trans_le (Nat.zero_le 9)
    · exact ht.digit i (by omega) (by omega)
  · rw [hrange.2]
    exact max_le (by decide) ht.msb_le
  · omega
  · have hskip := (skipUp_spec (t.truncate 0).digits ((t.truncate 0).msb - (t.truncate 0).lsb)
      (t.truncate 0).lsb).2.1
    change (t.truncate 0).clipLsb ≤ _ at hskip
    omega

/-! ### What is taken off -/

theorem subtract_multiple (ha : a.WellFormed) (hb : b.WellFormed) (hne : b.magnitude ≠ 0)
    (hsize : a.magnitude < 10 ^ 63) {u : Decimal} (hu : u.WellFormed)
    (hlow : u.clipLsb + b.clipLsb ≤ 96) {k : ℕ}
    (hval : u.val = (if xor a.negative b.negative then -1 else 1) * k)
    (hk : k * b.magnitude < a.magnitude + 10 ^ 32) :
    ∃ t, a.subtract (.other (u.multiply b)) = some t ∧
      t.val = (if a.negative then -1 else 1) * ((a.magnitude - k * b.magnitude) / 10 ^ 32) := by
  have hproduct : u.val * b.val =
      (if a.negative then -1 else 1) * ((k * b.magnitude : ℕ) / 10 ^ 32) := by
    rw [hval, val_eq b]
    cases a.negative <;> cases b.negative <;> push_cast <;> simp <;> ring
  have habs : |u.val * b.val| = (k * b.magnitude : ℕ) / 10 ^ 32 := by
    rw [hproduct, abs_mul, abs_of_nonneg (by positivity : (0 : ℚ) ≤ (k * b.magnitude : ℕ) / 10 ^ 32)]
    split <;> norm_num
  have hbound : |u.val * b.val| < 10 ^ 32 - 1 := by
    rw [habs, div_lt_iff₀ (by positivity)]
    have hless : k * b.magnitude < 10 ^ 64 - 10 ^ 32 := by omega
    have hcast : ((10 : ℚ) ^ 32 - 1) * 10 ^ 32 = ((10 ^ 64 - 10 ^ 32 : ℕ) : ℚ) := by
      norm_num
    rw [hcast]
    exact_mod_cast hless
  have hclip := (clipped hb.lsb_le).lt_iff.2 hne
  have hexact := multiply_exact hu hb hbound
    (n := (if a.negative then -1 else 1) * (k * b.magnitude : ℕ)) (by
      rw [hproduct]
      push_cast
      ring)
  obtain ⟨t, hresult, ht⟩ := subtract_exact ha (o := .other (u.multiply b))
    (multiply_wellFormed hu hb hbound hclip hlow)
  have hdifference : a.val - (u.multiply b).val =
      (if a.negative then -1 else 1) * ((a.magnitude - k * b.magnitude) / 10 ^ 32) := by
    rw [hexact, hproduct, val_eq a]
    push_cast
    ring
  refine ⟨t, hresult, (ht.eq ?_).trans hdifference⟩
  change |a.val - (u.multiply b).val| < _
  rw [hdifference, abs_mul]
  have hone : |(if a.negative then -1 else 1 : ℚ)| = 1 := by
    split <;> norm_num
  rw [hone, one_mul, abs_div, abs_of_pos (by positivity : (0 : ℚ) < 10 ^ 32),
    div_lt_iff₀ (by positivity), abs_lt]
  have hsize' : (a.magnitude : ℚ) < 10 ^ 63 := by exact_mod_cast hsize
  have hk' : (k * b.magnitude : ℚ) < a.magnitude + 10 ^ 32 := by exact_mod_cast hk
  have hnonneg : (0 : ℚ) ≤ k * b.magnitude := by positivity
  have hnonneg' : (0 : ℚ) ≤ a.magnitude := by positivity
  constructor <;> linarith

theorem wholeQuotient_mul_lt (hb : b.WellFormed) (hne : b.magnitude ≠ 0) :
    a.wholeQuotient b * b.magnitude < a.magnitude + 10 ^ 32 := by
  have hpos := Nat.pos_of_ne_zero hne
  have hle : a.wholeQuotient b ≤ (a.magnitude * 10 ^ 32 / b.magnitude + 1) / 10 ^ 32 := by
    unfold wholeQuotient
    refine Nat.div_le_div_right ?_
    split_ifs
    · exact Nat.zero_le _
    · exact le_rfl
    · exact Nat.le_succ _
  have hunits : a.wholeQuotient b * 10 ^ 32 ≤ a.magnitude * 10 ^ 32 / b.magnitude + 1 :=
    (Nat.mul_le_mul_right _ hle).trans (Nat.div_mul_le_self _ _)
  have hmul := Nat.mul_le_mul_right b.magnitude hunits
  have hdiv := Nat.div_mul_le_self (a.magnitude * 10 ^ 32) b.magnitude
  rw [Nat.add_mul, Nat.one_mul, Nat.mul_right_comm] at hmul
  have hsmall := hb.magnitude_lt
  omega

theorem modulus_spec (ha : a.WellFormed) (hb : b.WellFormed) (hne : b.val ≠ 0)
    (hbound : |a.val / b.val| < 10 ^ 31) (hsize : |a.val| < 10 ^ 31) :
    ∃ t, a.modulus b = some t ∧ t.val = (if a.negative then -1 else 1) *
      ((a.magnitude - a.wholeQuotient b * b.magnitude) / 10 ^ 32) := by
  have hne' : b.magnitude ≠ 0 := mt val_eq_zero_iff.2 hne
  have hsize' : a.magnitude < 10 ^ 63 := by
    rw [abs_val, div_lt_iff₀ (by positivity), ← pow_add] at hsize
    exact_mod_cast hsize
  have hclip := clipped hb.lsb_le
  have hclip' := hclip.top_le_maxDigits hb
  have htop := (clipped ha.lsb_le).top_le_maxDigits ha
  have hlt := hclip.lt_iff.2 hne'
  have hk := wholeQuotient_mul_lt (a := a) hb hne'
  unfold modulus
  rcases Nat.lt_or_ge (a.clipTop + 32) b.clipTop with hlow | hhi
  · have hsame : a.setZero.truncate 0 = a.setZero := rfl
    have hwhole : a.wholeQuotient b = 0 := by
      unfold wholeQuotient
      rw [quotient_eq_zero ha hb hne' hlow]
      refine Nat.div_eq_of_lt ?_
      split_ifs <;> norm_num
    rw [divide_setZero hlow, Option.bind_some, hsame]
    refine subtract_multiple ha hb hne' hsize' (wellFormed_setZero a) ?_ ?_ hk
    · change 32 + b.clipLsb ≤ 96
      omega
    · rw [val_setZero, hwhole, Nat.cast_zero, mul_zero]
  · obtain ⟨left, hresult, hneg, hleft, ⟨hlsb, hmsb⟩, hmagnitude⟩ :=
      divide_spec ha hb hlt hhi (quotient_lt hne' (by linarith))
    obtain ⟨hu, hwhole, hsign, hlow⟩ := truncate_zero_spec hleft hlsb
    rw [hresult, Option.bind_some]
    refine subtract_multiple ha hb hne' hsize' hu (by omega) ?_ hk
    rw [val_eq, hsign, hneg, hwhole, hmagnitude]
    change _ * (((a.wholeQuotient b * 10 ^ 32 : ℕ) : ℚ) / 10 ^ 32) = _
    rw [Nat.cast_mul, Nat.cast_pow, Nat.cast_ofNat, mul_div_cancel_right₀ _ (by positivity)]

/-! ### The remainder -/

/-- A number less a multiple of the divisor is the remainder if the multiple is the whole part of
the quotient. -/
theorem remainder_iff (hne : b.magnitude ≠ 0) {k : ℕ}
    (hval : t.val = (if a.negative then -1 else 1) * ((a.magnitude - k * b.magnitude) / 10 ^ 32)) :
    (|t.val| < |b.val| ∧ (t.val = 0 ∨ 0 < t.val * a.val) ∧ ∃ n : ℤ, a.val - t.val = n * b.val) ↔
      k = a.magnitude / b.magnitude := by
  have hpos := Nat.pos_of_ne_zero hne
  have hunit : (0 : ℚ) < 10 ^ 32 := by positivity
  have habs : |t.val| = |(a.magnitude - k * b.magnitude : ℚ)| / 10 ^ 32 := by
    rw [hval, abs_mul, abs_div, abs_of_pos hunit]
    split <;> simp
  have hsame : t.val * a.val =
      (a.magnitude - k * b.magnitude) * a.magnitude / (10 ^ 32 * 10 ^ 32) := by
    rw [hval, val_eq a]
    split <;> ring
  constructor
  · rintro ⟨hless, hsign, -⟩
    rw [habs, abs_val, div_lt_div_iff_of_pos_right hunit, abs_lt] at hless
    -- the sign says that not too much has been taken off
    have hle : k * b.magnitude ≤ a.magnitude := by
      rcases hsign with hzero | hpositive
      · rw [← abs_eq_zero, habs, div_eq_zero_iff, or_iff_left hunit.ne', abs_eq_zero] at hzero
        have hcast : (k * b.magnitude : ℚ) ≤ a.magnitude := by linarith
        exact_mod_cast hcast
      · rw [hsame] at hpositive
        by_contra hgt
        have hcast : (a.magnitude : ℚ) < k * b.magnitude := by exact_mod_cast not_le.1 hgt
        have hnonpos : (a.magnitude - k * b.magnitude : ℚ) * a.magnitude ≤ 0 :=
          mul_nonpos_of_nonpos_of_nonneg (by linarith) (by positivity)
        exact absurd hpositive (not_lt.2 (div_nonpos_of_nonpos_of_nonneg hnonpos (by positivity)))
    have hlt : a.magnitude < (k + 1) * b.magnitude := by
      have hcast : (a.magnitude : ℚ) < (k + 1) * b.magnitude := by linarith [hless.2]
      exact_mod_cast hcast
    exact (Nat.div_eq_of_lt_le hle hlt).symm
  · rintro rfl
    have hrest : (a.magnitude - (a.magnitude / b.magnitude : ℕ) * b.magnitude : ℚ) =
        (a.magnitude % b.magnitude : ℕ) := by
      have hdiv := Nat.div_add_mod' a.magnitude b.magnitude
      have hcast : ((a.magnitude / b.magnitude : ℕ) * b.magnitude + (a.magnitude % b.magnitude : ℕ) : ℚ)
          = a.magnitude := by exact_mod_cast hdiv
      linarith
    have hmod := Nat.mod_lt a.magnitude hpos
    refine ⟨?_, ?_, ?_⟩
    · rw [habs, hrest, abs_val, div_lt_div_iff_of_pos_right hunit, Nat.abs_cast]
      exact_mod_cast hmod
    · rcases Nat.eq_zero_or_pos (a.magnitude % b.magnitude) with hzero | hpositive
      · left
        rw [hval, hrest, hzero, Nat.cast_zero, zero_div, mul_zero]
      · right
        have ha : 0 < a.magnitude := by
          rcases Nat.eq_zero_or_pos a.magnitude with hzero | h
          · rw [hzero, Nat.zero_mod] at hpositive
            exact absurd hpositive (lt_irrefl 0)
          · exact h
        rw [hsame, hrest]
        have hcast : (0 : ℚ) < (a.magnitude % b.magnitude : ℕ) := by exact_mod_cast hpositive
        have hcast' : (0 : ℚ) < a.magnitude := by exact_mod_cast ha
        positivity
    · generalize a.magnitude / b.magnitude = k at hval
      refine ⟨(if xor a.negative b.negative then -1 else 1) * k, ?_⟩
      rw [hval, val_eq a, val_eq b]
      cases a.negative <;> cases b.negative <;> push_cast <;> simp <;> ring

theorem hasRemainder_iff (ha : a.WellFormed) (hb : b.WellFormed) (hne : b.val ≠ 0)
    (hbound : |a.val / b.val| < 10 ^ 31) (hsize : |a.val| < 10 ^ 31) :
    a.HasRemainder b ↔ a.KeepsWholePart b := by
  obtain ⟨t, hresult, hval⟩ := modulus_spec ha hb hne hbound hsize
  rw [← wholeQuotient_eq_iff, ← remainder_iff (mt val_eq_zero_iff.2 hne) hval]
  unfold HasRemainder
  rw [hresult]
  exact ⟨fun ⟨_, h, h'⟩ => Option.some.inj h ▸ h', fun h => ⟨t, rfl, h⟩⟩

/-- 7 modulo 3. -/
theorem hasRemainder_three : (digitAt 3 32).val ≠ 0 ∧
    |(digitAt 7 32).val / (digitAt 3 32).val| < 10 ^ 31 ∧ |(digitAt 7 32).val| < 10 ^ 31 ∧
    ((digitAt 7 32).HasRemainder (digitAt 3 32) ↔
      (digitAt 7 32).KeepsWholePart (digitAt 3 32)) := by
  have hne : (digitAt 3 32).val ≠ 0 := by
    rw [Ne, val_eq_zero_iff, magnitude_digitAt]
    norm_num
  have hbound : |(digitAt 7 32).val / (digitAt 3 32).val| < 10 ^ 31 := by
    rw [abs_val_div, magnitude_digitAt, magnitude_digitAt]
    norm_num
  have hsize : |(digitAt 7 32).val| < 10 ^ 31 := by
    rw [abs_val, magnitude_digitAt]
    norm_num
  exact ⟨hne, hbound, hsize, hasRemainder_iff (wellFormed_digitAt (by decide) (by decide))
    (wellFormed_digitAt (by decide) (by decide)) hne hbound hsize⟩

/-- The number `3 - 10 ^ (-32)`. -/
def belowThree : Decimal where
  digits i := if i < 32 then 9 else if i = 32 then 2 else 0
  msb := 32
  lsb := 0
  negative := false

theorem magnitude_belowThree : belowThree.magnitude = 3 * 10 ^ 32 - 1 := by
  have hnines := value_last_add (b := 10) (by decide) (Nat.zero_le 32)
  have hbelow : value 10 belowThree.digits 0 32 = value 10 (fun _ => 10 - 1) 0 32 :=
    value_congr fun i _ hi => if_pos hi
  generalize value 10 (fun _ => 10 - 1) 0 32 = nines at hnines hbelow
  have hvalue : belowThree.magnitude = value 10 belowThree.digits 0 32 + 2 * 10 ^ 32 :=
    value_succ (Nat.zero_le 32)
  generalize value 10 belowThree.digits 0 32 = below at hbelow hvalue
  omega

/-- The quotient of `3 - 10 ^ (-32)` by 3 is rounded up to 1, so that the remainder is negative. -/
theorem modulus_negative : belowThree.WellFormed ∧ (digitAt 3 32).WellFormed ∧
    (digitAt 3 32).val ≠ 0 ∧ |belowThree.val / (digitAt 3 32).val| < 10 ^ 31 ∧
    |belowThree.val| < 10 ^ 31 ∧
    (∃ t, belowThree.modulus (digitAt 3 32) = some t ∧ t.val = -1 / 10 ^ 32) ∧
    ¬ belowThree.HasRemainder (digitAt 3 32) := by
  have hwf : belowThree.WellFormed := by
    refine ⟨fun i _ _ => ?_, (by decide : 32 ≤ 63), (by decide : 0 ≤ 32 + 1)⟩
    unfold belowThree
    dsimp only
    split_ifs <;> decide
  have hwf' : (digitAt 3 32).WellFormed := wellFormed_digitAt (by decide) (by decide)
  have hne : (digitAt 3 32).val ≠ 0 := by
    rw [Ne, val_eq_zero_iff, magnitude_digitAt]
    norm_num
  have hbound : |belowThree.val / (digitAt 3 32).val| < 10 ^ 31 := by
    rw [abs_val_div, magnitude_belowThree, magnitude_digitAt]
    norm_num
  have hsize : |belowThree.val| < 10 ^ 31 := by
    rw [abs_val, magnitude_belowThree]
    norm_num
  have hwhole : belowThree.wholeQuotient (digitAt 3 32) = 1 := by
    have hcut : belowThree.cutNumerator (digitAt 3 32) = (3 * 10 ^ 32 - 1) * 10 ^ 32 := by
      rw [cutNumerator, magnitude_belowThree, show (digitAt 3 32).clipLsb = 32 by decide]
      norm_num
    rw [wholeQuotient, hcut, magnitude_belowThree, magnitude_digitAt,
      show belowThree.clipTop = 33 by decide, show (digitAt 3 32).clipTop = 33 by decide]
    norm_num
  obtain ⟨t, hresult, hval⟩ := modulus_spec hwf hwf' hne hbound hsize
  refine ⟨hwf, hwf', hne, hbound, hsize, ⟨t, hresult, ?_⟩, ?_⟩
  · rw [hval, hwhole, magnitude_belowThree, magnitude_digitAt, show belowThree.negative = false from rfl]
    norm_num
  · rintro ⟨t', hresult', hremainder⟩
    obtain rfl := Option.some.inj (hresult.symm.trans hresult')
    have hone := (remainder_iff (mt val_eq_zero_iff.2 hne) hval).1 hremainder
    rw [hwhole, magnitude_belowThree, magnitude_digitAt] at hone
    norm_num at hone

end Decimal

end Nbcd
