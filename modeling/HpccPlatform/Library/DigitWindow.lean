import Mathlib.Algebra.BigOperators.Intervals
import Mathlib.Algebra.BigOperators.Ring.Finset
import Mathlib.Algebra.Order.BigOperators.Group.Finset
import Mathlib.Tactic.Linarith
import Mathlib.Tactic.LinearCombination
import Mathlib.Tactic.Ring

/-!
# Numbers as windows of digits

The digits of a number in base `b` are those of an array from one place to another, the digit at
place `i` with the weight `b ^ i`.  A pass over the digits with a carry changes the number by what
each step adds to a digit and by the carries at the two ends.
-/

namespace DigitWindow

/-- The number with the digits of `d` from place `lo` to below place `hi`. -/
def value (b : ℕ) (d : ℕ → ℕ) (lo hi : ℕ) : ℕ := ∑ i ∈ Finset.Ico lo hi, d i * b ^ i

variable {b : ℕ} {d e : ℕ → ℕ} {lo mid hi : ℕ}

theorem value_of_le (hle : hi ≤ lo) : value b d lo hi = 0 := by
  rw [value, Finset.Ico_eq_empty_of_le hle, Finset.sum_empty]

@[simp] theorem value_self : value b d lo lo = 0 := value_of_le le_rfl

theorem value_succ (hle : lo ≤ hi) : value b d lo (hi + 1) = value b d lo hi + d hi * b ^ hi :=
  Finset.sum_Ico_succ_top hle _

theorem value_cons (hlt : lo < hi) : value b d lo hi = d lo * b ^ lo + value b d (lo + 1) hi :=
  Finset.sum_eq_sum_Ico_succ_bot hlt _

theorem value_append (hlo : lo ≤ mid) (hhi : mid ≤ hi) :
    value b d lo mid + value b d mid hi = value b d lo hi :=
  Finset.sum_Ico_consecutive _ hlo hhi

theorem value_congr (h : ∀ i, lo ≤ i → i < hi → d i = e i) : value b d lo hi = value b e lo hi := by
  refine Finset.sum_congr rfl fun i hi => ?_
  rw [Finset.mem_Ico] at hi
  rw [h i hi.1 hi.2]

theorem value_eq_zero (h : ∀ i, lo ≤ i → i < hi → d i = 0) : value b d lo hi = 0 := by
  refine Finset.sum_eq_zero fun i hi => ?_
  rw [Finset.mem_Ico] at hi
  rw [h i hi.1 hi.2, Nat.zero_mul]

theorem eq_zero_of_value (hb : 0 < b) (h : value b d lo hi = 0) {i : ℕ} (hlo : lo ≤ i)
    (hhi : i < hi) : d i = 0 := by
  have hterm := Finset.sum_eq_zero_iff.1 h i (Finset.mem_Ico.2 ⟨hlo, hhi⟩)
  exact (Nat.mul_eq_zero.1 hterm).resolve_right (Nat.pow_pos hb).ne'

theorem value_update {i x : ℕ} (hlo : lo ≤ i) (hhi : i < hi) :
    value b (Function.update d i x) lo hi + d i * b ^ i = value b d lo hi + x * b ^ i := by
  have hbelow : value b (Function.update d i x) lo i = value b d lo i :=
    value_congr fun k _ hk => Function.update_of_ne hk.ne _ _
  have habove : value b (Function.update d i x) (i + 1) hi = value b d (i + 1) hi :=
    value_congr fun k hk _ => Function.update_of_ne (Nat.lt_of_succ_le hk).ne' _ _
  rw [← value_append hlo hhi.le, ← value_append (d := d) hlo hhi.le, value_cons hhi,
    value_cons hhi, Function.update_self, hbelow, habove]
  ring

/-- The digits `k` places further down. -/
theorem value_shift (k : ℕ) :
    value b (fun i => d (i + k)) lo hi * b ^ k = value b d (lo + k) (hi + k) := by
  rw [value, value, Finset.sum_mul, ← Finset.sum_Ico_add' (fun i => d i * b ^ i)]
  exact Finset.sum_congr rfl fun i _ => by rw [pow_add, Nat.mul_assoc]

/-- Zeros around the digits do not count. -/
theorem value_widen {lo' hi' : ℕ} (hlo : lo' ≤ lo) (hhi : hi ≤ hi')
    (h : ∀ i, lo' ≤ i → i < hi' → i < lo ∨ hi ≤ i → d i = 0) :
    value b d lo' hi' = value b d lo hi := by
  refine (Finset.sum_subset (Finset.Ico_subset_Ico hlo hhi) ?_).symm
  intro i hi hnot
  rw [Finset.mem_Ico] at hi hnot
  rw [h i hi.1 hi.2 (by omega), Nat.zero_mul]

theorem pow_dvd_value : b ^ lo ∣ value b d lo hi := by
  refine Finset.dvd_sum fun i hi => ?_
  exact (pow_dvd_pow b (Finset.mem_Ico.1 hi).1).mul_left _

/-- With proper digits the number ends below the place of the window's end. -/
theorem value_add_pow_le (hd : ∀ i, lo ≤ i → i < hi → d i < b) (hle : lo ≤ hi) :
    value b d lo hi + b ^ lo ≤ b ^ hi := by
  induction hi, hle using Nat.le_induction with
  | base => rw [value_self, Nat.zero_add]
  | succ hi hle ih =>
    have hdigit : (d hi + 1) * b ^ hi ≤ b ^ (hi + 1) := by
      rw [pow_succ, Nat.mul_comm (b ^ hi)]
      exact Nat.mul_le_mul_right _ (hd hi hle (Nat.lt_succ_self hi))
    have hbelow := ih fun i hlo hhi => hd i hlo (Nat.lt_succ_of_lt hhi)
    rw [value_succ hle]
    linarith [Nat.succ_mul (d hi) (b ^ hi)]

theorem value_lt (hb : 0 < b) (hd : ∀ i, lo ≤ i → i < hi → d i < b) :
    value b d lo hi < b ^ hi := by
  rcases Nat.lt_or_ge hi lo with hlt | hle
  · rw [value_of_le hlt.le]
    exact Nat.pow_pos hb
  · have hpos : 0 < b ^ lo := Nat.pow_pos hb
    linarith [value_add_pow_le hd hle]

/-- The number of which all digits are the last one. -/
theorem value_last_add (hb : 0 < b) (hle : lo ≤ hi) :
    value b (fun _ => b - 1) lo hi + b ^ lo = b ^ hi := by
  induction hi, hle using Nat.le_induction with
  | base => rw [value_self, Nat.zero_add]
  | succ hi hle ih =>
    rw [value_succ hle, Nat.add_right_comm, ih, pow_succ, Nat.add_comm, ← Nat.succ_mul,
      Nat.succ_eq_add_one, Nat.sub_add_cancel hb, Nat.mul_comm]

/-- A digit that is not 0 bounds the number from below. -/
theorem pow_le_value {i : ℕ} (hlo : lo ≤ i) (hhi : i < hi) (hne : d i ≠ 0) :
    b ^ i ≤ value b d lo hi := by
  refine le_trans ?_ (Finset.single_le_sum (f := fun i => d i * b ^ i) (fun _ _ => Nat.zero_le _)
    (Finset.mem_Ico.2 ⟨hlo, hhi⟩))
  exact Nat.le_mul_of_pos_left _ (Nat.pos_of_ne_zero hne)

/-! ### Cutting -/

theorem value_mod (hb : 0 < b) (hd : ∀ i, lo ≤ i → i < hi → d i < b) (hlo : lo ≤ mid)
    (hhi : mid ≤ hi) : value b d lo hi % b ^ mid = value b d lo mid := by
  rw [← value_append hlo hhi]
  obtain ⟨k, hk⟩ : b ^ mid ∣ value b d mid hi := pow_dvd_value
  rw [hk, Nat.add_mul_mod_self_left]
  exact Nat.mod_eq_of_lt (value_lt hb fun i hi' hmid => hd i hi' (hmid.trans_le hhi))

theorem value_div_mul (hb : 0 < b) (hd : ∀ i, lo ≤ i → i < hi → d i < b) (hlo : lo ≤ mid)
    (hhi : mid ≤ hi) : value b d lo hi / b ^ mid * b ^ mid = value b d mid hi := by
  have hmod := value_mod hb hd hlo hhi
  have happend := value_append (b := b) (d := d) hlo hhi
  have hdiv := Nat.div_add_mod' (value b d lo hi) (b ^ mid)
  omega

/-- The digit at a place, read off the number. -/
theorem value_digit (hb : 1 < b) (hd : ∀ i, lo ≤ i → i < hi → d i < b) (i : ℕ) :
    value b d lo hi / b ^ i % b = if lo ≤ i ∧ i < hi then d i else 0 := by
  have hpos : 0 < b := Nat.zero_lt_of_lt hb
  split_ifs with hin
  · have hcut := value_div_mul hpos hd hin.1 hin.2.le
    obtain ⟨k, hk⟩ : b ^ (i + 1) ∣ value b d (i + 1) hi := pow_dvd_value
    have hquotient : value b d lo hi / b ^ i = d i + b * k := by
      refine Nat.eq_of_mul_eq_mul_right (Nat.pow_pos hpos : 0 < b ^ i) ?_
      rw [hcut, value_cons hin.2, hk]
      ring
    rw [hquotient, Nat.add_mul_mod_self_left, Nat.mod_eq_of_lt (hd i hin.1 hin.2)]
  · rcases Nat.lt_or_ge i lo with hlt | hge
    · obtain ⟨k, hk⟩ : b ^ (i + 1) ∣ value b d lo hi :=
        (pow_dvd_pow b (Nat.succ_le_of_lt hlt)).trans pow_dvd_value
      rw [hk, pow_succ, Nat.mul_assoc, Nat.mul_div_cancel_left _ (Nat.pow_pos hpos),
        Nat.mul_mod_right]
    · have hsmall : value b d lo hi < b ^ i :=
        (value_lt hpos hd).trans_le (Nat.pow_le_pow_right hpos (by omega))
      rw [Nat.div_eq_of_lt hsmall, Nat.zero_mod]

/-! ### Passes with a carry -/

/-- `n` steps of a loop that goes up from place `i`: the body gives the new digit and the new
carry. -/
def ripple (body : ℕ → ℕ → ℕ → ℕ × ℕ) : ℕ → ℕ → (ℕ → ℕ) → ℕ → (ℕ → ℕ) × ℕ
  | 0, _, d, carry => (d, carry)
  | n + 1, i, d, carry =>
    ripple body n (i + 1) (Function.update d i (body i (d i) carry).1) (body i (d i) carry).2

variable {body : ℕ → ℕ → ℕ → ℕ × ℕ} {n carry : ℕ}

/-- A pass leaves the digits outside of its places. -/
theorem ripple_outside {i : ℕ} (hi : i < lo ∨ lo + n ≤ i) :
    (ripple body n lo d carry).1 i = d i := by
  induction n generalizing lo d carry with
  | zero => rfl
  | succ n ih =>
    rw [ripple, ih (by omega), Function.update_of_ne (by omega)]

/-- **The rule for a pass**: what a step needs of its carry and its digit, it gives to the next
carry and to the new digit. -/
theorem ripple_rule (body : ℕ → ℕ → ℕ → ℕ × ℕ) (n lo : ℕ) (d : ℕ → ℕ) (carry : ℕ)
    (P Q : ℕ → ℕ → Prop) (hcarry : P lo carry)
    (hbody : ∀ i c, lo ≤ i → i < lo + n → P i c →
      P (i + 1) (body i (d i) c).2 ∧ Q i (body i (d i) c).1) :
    P (lo + n) (ripple body n lo d carry).2 ∧
      ∀ i, lo ≤ i → i < lo + n → Q i ((ripple body n lo d carry).1 i) := by
  induction n generalizing lo d carry with
  | zero => exact ⟨hcarry, fun i hlo hhi => absurd hhi (Nat.not_lt.2 hlo)⟩
  | succ n ih =>
    obtain ⟨hnext, hdigit⟩ := hbody lo carry le_rfl (by omega) hcarry
    have hrest := ih (lo + 1) (Function.update d lo (body lo (d lo) carry).1) _ hnext ?_
    · rw [ripple]
      refine ⟨by rw [← Nat.add_assoc, Nat.add_right_comm]; exact hrest.1, ?_⟩
      intro i hlo hhi
      rcases hlo.eq_or_lt with rfl | hlt
      · rw [ripple_outside (Or.inl (Nat.lt_succ_self _)), Function.update_self]
        exact hdigit
      · exact hrest.2 i hlt (by omega)
    · intro i c hlo hhi hc
      rw [Function.update_of_ne (by omega)]
      exact hbody i c (by omega) (by omega) hc

/-- **The number after a pass**: if a step makes a digit `u i` up to its carries, the pass makes
the number of the `u i` up to the carries at its ends. -/
theorem ripple_value (b : ℕ) (body : ℕ → ℕ → ℕ → ℕ × ℕ) (n lo : ℕ) (d : ℕ → ℕ) (carry : ℕ)
    (s : ℤ) (u : ℕ → ℤ) (P : ℕ → ℕ → Prop) (hcarry : P lo carry)
    (hbody : ∀ i c, lo ≤ i → i < lo + n → P i c → P (i + 1) (body i (d i) c).2 ∧
      ((body i (d i) c).1 : ℤ) = u i + s * (c - b * (body i (d i) c).2)) :
    (value b (ripple body n lo d carry).1 lo (lo + n) : ℤ) =
      ∑ i ∈ Finset.Ico lo (lo + n), u i * b ^ i +
        s * (carry * b ^ lo - (ripple body n lo d carry).2 * b ^ (lo + n)) := by
  induction n generalizing lo d carry with
  | zero => simp [ripple]
  | succ n ih =>
    obtain ⟨hnext, hdigit⟩ := hbody lo carry le_rfl (by omega) hcarry
    have hrest := ih (lo + 1) (Function.update d lo (body lo (d lo) carry).1) _ hnext ?_
    · have hplace : lo + (n + 1) = lo + 1 + n := by omega
      rw [ripple, hplace, value_cons (by omega), Finset.sum_eq_sum_Ico_succ_bot (by omega),
        ripple_outside (Or.inl (Nat.lt_succ_self _)), Function.update_self]
      push_cast
      rw [hrest, hdigit]
      ring
    · intro i c hlo hhi hc
      rw [Function.update_of_ne (by omega)]
      exact hbody i c (by omega) (by omega) hc

end DigitWindow
