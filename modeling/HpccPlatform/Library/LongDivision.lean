import Mathlib.Tactic.Linarith
import Mathlib.Tactic.Ring

/-!
# Long division

The next digit of a quotient is guessed from the leading digits of what is left and of the divisor.
With two digits of the divisor, in any base, the guess is never too small and at most one too large.
-/

namespace LongDivision

variable {b n v e rest divisor : ℕ}

/-- The leading part `n` of the rest over the leading part `v` of the divisor is no less than the
digit. -/
theorem le_guess (hrest : rest < (n + 1) * e) (hdivisor : v * e ≤ divisor) (hv : 0 < v) :
    rest / divisor ≤ n / v := by
  rw [Nat.le_div_iff_mul_le hv]
  have hquotient := Nat.div_mul_le_self rest divisor
  have hmul := Nat.mul_le_mul_left (rest / divisor) hdivisor
  have hlt : rest / divisor * v * e < (n + 1) * e := by
    rw [Nat.mul_assoc]
    omega
  exact Nat.le_of_lt_succ (Nat.lt_of_mul_lt_mul_right hlt)

/-- The guess is at most the base if the digit is less. -/
theorem guess_le_base (hrest : n * e ≤ rest) (hdivisor : divisor < (v + 1) * e) (hv : b ≤ v)
    (hb : 0 < b) (hdigit : rest < b * divisor) : n / v ≤ b := by
  have hlt : n * e < (b * v + b) * e := by
    calc n * e ≤ rest := hrest
      _ < b * divisor := hdigit
      _ ≤ b * ((v + 1) * e) := Nat.mul_le_mul_left _ hdivisor.le
      _ = (b * v + b) * e := by ring
  have hn := Nat.lt_of_mul_lt_mul_right hlt
  refine Nat.le_of_lt_succ ((Nat.div_lt_iff_lt_mul (hb.trans_le hv)).2 ?_)
  calc n < b * v + b := hn
    _ ≤ b * v + v := Nat.add_le_add_left hv _
    _ = (b + 1) * v := by ring

/-- The guess is at most one too large. -/
theorem guess_le (hrest : n * e ≤ rest) (hdivisor : divisor < (v + 1) * e) (hpos : 0 < divisor)
    (hv : b ≤ v) (hguess : n / v ≤ b) : n / v ≤ rest / divisor + 1 := by
  rcases Nat.eq_zero_or_pos (n / v) with hzero | hne
  · rw [hzero]
    exact Nat.zero_le _
  · refine Nat.le_add_of_sub_le ((Nat.le_div_iff_mul_le hpos).2 ?_)
    obtain ⟨g, hg⟩ := Nat.exists_eq_succ_of_ne_zero hne.ne'
    have hmul := Nat.div_mul_le_self n v
    rw [hg] at hmul hguess ⊢
    rw [Nat.succ_sub_one]
    have hg' : g + 1 ≤ v := hguess.trans hv
    calc g * divisor ≤ g * ((v + 1) * e) := Nat.mul_le_mul_left _ hdivisor.le
      _ = (g * v + g) * e := by ring
      _ ≤ ((g + 1) * v) * e := by
          refine Nat.mul_le_mul_right _ ?_
          linarith [Nat.succ_mul g v]
      _ ≤ n * e := Nat.mul_le_mul_right _ hmul
      _ ≤ rest := hrest

end LongDivision
