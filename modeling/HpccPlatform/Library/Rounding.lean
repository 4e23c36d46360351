import Mathlib.Data.Rat.Floor
import Mathlib.Tactic.Positivity

/-!
# Rounding at a decimal place

A number is rounded at a place by rounding its magnitude, counted in units of that place, to a whole
number; the sign stays.
-/

namespace Rounding

/-- `x` with its magnitude rounded by `f` to a whole number of units of `10 ^ (-places)`. -/
def atPlace (f : ℚ → ℤ) (places : ℤ) (x : ℚ) : ℚ :=
  (if x < 0 then -1 else 1) * f (|x| * 10 ^ places) / 10 ^ places

/-- Half of a unit is rounded up. -/
def halfUp (y : ℚ) : ℤ := ⌊y + 1 / 2⌋

/-- Cut toward zero. -/
def truncateAt : ℤ → ℚ → ℚ := atPlace Int.floor

/-- Rounded, half away from zero. -/
def roundAt : ℤ → ℚ → ℚ := atPlace halfUp

/-- Rounded away from zero. -/
def roundUpAt : ℤ → ℚ → ℚ := atPlace Int.ceil

theorem halfUp_intCast (n : ℤ) : halfUp n = n := by
  rw [halfUp, Int.floor_eq_iff]
  constructor <;> linarith

theorem halfUp_div (n : ℕ) {m : ℕ} (hm : 0 < m) :
    halfUp (n / m) = ((2 * n + m) / (2 * m) : ℕ) := by
  have hm' : (m : ℚ) ≠ 0 := by exact_mod_cast hm.ne'
  have hsum : (n / m + 1 / 2 : ℚ) = ((2 * n + m : ℕ) : ℚ) / ((2 * m : ℕ) : ℚ) := by
    push_cast
    field_simp
  rw [halfUp, hsum, Rat.floor_natCast_div_natCast, Int.natCast_div]

theorem ceil_div (n : ℕ) {m : ℕ} (hm : 0 < m) : ⌈(n / m : ℚ)⌉ = ((n + m - 1) / m : ℕ) := by
  have hm' : (0 : ℚ) < m := by exact_mod_cast hm
  have hlow := Nat.div_mul_le_self (n + m - 1) m
  have hhigh := Nat.lt_div_mul_add (a := n + m - 1) hm
  rw [Int.ceil_eq_iff]
  constructor
  · rw [lt_div_iff₀ hm', sub_mul, one_mul, sub_lt_iff_lt_add]
    exact_mod_cast (by omega : (n + m - 1) / m * m < n + m)
  · rw [div_le_iff₀ hm']
    exact_mod_cast (by omega : n ≤ (n + m - 1) / m * m)

variable {f : ℚ → ℤ} {places : ℤ}

theorem atPlace_of_nonneg {x : ℚ} (hx : 0 ≤ x) :
    atPlace f places x = f (x * 10 ^ places) / 10 ^ places := by
  rw [atPlace, if_neg (not_lt.2 hx), abs_of_nonneg hx, one_mul]

theorem abs_atPlace {x : ℚ} (hf : 0 ≤ f (|x| * 10 ^ places)) :
    |atPlace f places x| = f (|x| * 10 ^ places) / 10 ^ places := by
  have hpos : (0 : ℚ) < 10 ^ places := zpow_pos (by norm_num) places
  have hsign : |(if x < 0 then -1 else 1 : ℚ)| = 1 := by
    split <;> norm_num
  rw [atPlace, abs_div, abs_mul, hsign, one_mul, abs_of_pos hpos,
    abs_of_nonneg (by exact_mod_cast hf)]

theorem atPlace_neg (hf : f 0 = 0) (x : ℚ) : atPlace f places (-x) = -atPlace f places x := by
  unfold atPlace
  rw [abs_neg]
  rcases lt_trichotomy x 0 with hneg | rfl | hpos
  · rw [if_neg (by linarith), if_pos hneg]
    ring
  · simp [hf]
  · rw [if_pos (by linarith), if_neg (by linarith)]
    ring

/-- What already is a whole number of units is not changed. -/
theorem atPlace_of_eq (hf : ∀ n : ℕ, f n = n) {x : ℚ} {n : ℤ} (hx : x = n / 10 ^ places) :
    atPlace f places x = x := by
  have hpos : (0 : ℚ) < 10 ^ places := zpow_pos (by norm_num) places
  have hnonneg : ∀ n : ℕ, atPlace f places ((n : ℚ) / 10 ^ places) = n / 10 ^ places := by
    intro n
    rw [atPlace_of_nonneg (div_nonneg n.cast_nonneg hpos.le), div_mul_cancel₀ _ hpos.ne', hf]
    rfl
  have hzero : f 0 = 0 := by exact_mod_cast hf 0
  subst hx
  obtain ⟨k, rfl | rfl⟩ := n.eq_nat_or_neg
  · exact_mod_cast hnonneg k
  · rw [Int.cast_neg, neg_div, atPlace_neg hzero]
    exact_mod_cast congrArg Neg.neg (hnonneg k)

end Rounding
