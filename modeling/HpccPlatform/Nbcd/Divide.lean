import HpccPlatform.Library.LongDivision
import HpccPlatform.Nbcd.Multiply

/-!
# Division

Long division: the numerator is copied to `temp` with enough zeros, or cut, for the quotient to have
its digits down to the last place.  What is left of it stays in the places of the divisor.  The digits
are guessed from the first two of the divisor, and each guess is put right by adding the divisor
back.  At last one more digit is looked at and the quotient rounded.
-/

namespace Nbcd

open DigitWindow

namespace Decimal

/-! ### The loops -/

/-- `numerator012 / divisor01`, for the digits of `temp` from `pos` on. -/
def guess (temp : ℕ → ℕ) (pos nd2 divisor01 : ℕ) : ℕ :=
  (temp (pos + nd2) * 100 + temp (pos + nd2 - 1) * 10 + temp (pos + nd2 - 2)) / divisor01

/-- A step of the loop that takes off `q` times the divisor.  `next` is never less than 0. -/
def takeOffBody (divisor : ℕ → ℕ) (q pos i digit carry : ℕ) : ℕ × ℕ :=
  let next := 90 + digit - divisor (i - pos) * q - carry
  (next % 10, 9 - next / 10)

/-- A step of the loop that adds the divisor back. -/
def addBackBody (divisor : ℕ → ℕ) (pos i digit carry : ℕ) : ℕ × ℕ :=
  let next := digit + divisor (i - pos) + carry
  if 10 ≤ next then (next - 10, 1) else (next, 0)

/-- One digit of the quotient, with what is left in `temp`. -/
def divideDigit (divisor : ℕ → ℕ) (nd2 divisor01 pos : ℕ) (temp : ℕ → ℕ) :
    Option ((ℕ → ℕ) × ℕ) :=
  let q := guess temp pos nd2 divisor01
  let q := if q = 10 then 9 else q
  if q = 0 then some (temp, 0)
  else
    let taken := ripple (takeOffBody divisor q pos) nd2 pos temp 0
    if taken.2 = taken.1 (pos + nd2) then some (taken.1, q)
    -- assertex(carry==1)
    else if taken.2 ≠ taken.1 (pos + nd2) + 1 then none
    else
      let back := ripple (addBackBody divisor pos) nd2 pos taken.1 0
      -- assertex(carry)
      if back.2 = 0 then none else some (back.1, q - 1)

/-- The digits below place `iters`, from the highest. -/
def divideLoop (divisor : ℕ → ℕ) (nd2 divisor01 : ℕ) :
    ℕ → (ℕ → ℕ) → (ℕ → ℕ) → Option ((ℕ → ℕ) × (ℕ → ℕ))
  | 0, temp, digits => some (temp, digits)
  | iter + 1, temp, digits =>
    (divideDigit divisor nd2 divisor01 (iter + 3) temp).bind fun step =>
      divideLoop divisor nd2 divisor01 iter step.1
        (if iter < 64 then Function.update digits iter step.2 else digits)

/-- The digit after the last one, as far as it says how to round. -/
def roundDigit (divisor : ℕ → ℕ) (nd2 divisor01 : ℕ) (temp : ℕ → ℕ) : ℕ :=
  let q := guess temp 2 nd2 divisor01
  if q = 5 ∧ (ripple (takeOffBody divisor q 2) nd2 2 temp 0).2 ≠ temp (2 + nd2) then q - 1 else q

/-- The loop that adds one, for `n` digits from `i` on.  There is no digit 64. -/
def addOne : ℕ → ℕ → (ℕ → ℕ) → Option (ℕ → ℕ)
  | 0, _, digits => some digits
  | n + 1, i, digits =>
    if 63 < i then none
    else
      let next := if digits i + 1 = 10 then 0 else digits i + 1
      if next ≠ 0 then some (Function.update digits i next)
      else addOne n (i + 1) (Function.update digits i next)

/-- `temp` with the numerator, from index 3 on. -/
def numerator (d : Decimal) (numeratorDigits : ℕ) : ℕ → ℕ := fun i =>
  let nd1 := d.clipTop - d.clipLsb
  if nd1 < numeratorDigits then
    let start := 3 + (numeratorDigits - 1 - nd1)
    if start ≤ i ∧ i < start + nd1 then d.digits (d.clipLsb + (i - start)) else 0
  else if 3 ≤ i ∧ i < 3 + (numeratorDigits - 1) then
    d.digits (d.clipTop - (numeratorDigits - 1) + (i - 3))
  else 0

/-- `other` is another object, so that its digits stay.  There is no result if a check fails. -/
def divide (s other : Decimal) : Option Decimal :=
  let lo2 := other.clipLsb
  let top2 := other.clipTop
  let nd2 := top2 - lo2
  let hi := s.clipMsb - other.clipMsb + 32
  if hi < 0 then some s.setZero
  else if top2 ≤ lo2 then some s.setZero
  else
    let iters := hi.toNat + 1
    let divisor01 := other.digits (top2 - 1) * 10 +
      if top2 - 1 ≠ lo2 then other.digits (top2 - 2) else 0
    let divisor := fun i => other.digits (lo2 + i)
    (divideLoop divisor nd2 divisor01 iters (s.numerator (iters + nd2)) s.digits).bind fun left =>
      (if 5 ≤ roundDigit divisor nd2 divisor01 left.1 then addOne iters 0 left.2
        else some left.2).bind fun digits =>
        some
          { digits := digits
            msb := if 64 ≤ hi then 63 else hi.toNat
            lsb := 0
            negative := xor s.negative other.negative }

/-! ### Taking off and adding back -/

section Digit

variable {divisor : ℕ → ℕ} {nd2 q : ℕ} {temp : ℕ → ℕ}

theorem sum_divisor (divisor : ℕ → ℕ) (nd2 pos : ℕ) :
    value 10 (fun i => divisor (i - pos)) pos (pos + nd2) = value 10 divisor 0 nd2 * 10 ^ pos := by
  have hshift : value 10 (fun i => divisor (i + pos - pos)) 0 nd2 * 10 ^ pos =
      value 10 (fun i => divisor (i - pos)) (0 + pos) (nd2 + pos) :=
    value_shift (d := fun i => divisor (i - pos)) pos
  simp only [Nat.add_sub_cancel] at hshift
  rw [hshift, Nat.zero_add, Nat.add_comm]

theorem takeOff_spec (pos : ℕ) (hq : q ≤ 9) (htemp : ∀ i, temp i ≤ 9) (hdivisor : ∀ i < nd2, divisor i ≤ 9)
    {taken : (ℕ → ℕ) × ℕ} (htaken : taken = ripple (takeOffBody divisor q pos) nd2 pos temp 0) :
    value 10 taken.1 pos (pos + nd2) + q * (value 10 divisor 0 nd2 * 10 ^ pos) =
        value 10 temp pos (pos + nd2) + taken.2 * 10 ^ (pos + nd2) ∧
      ∀ i, taken.1 i ≤ 9 := by
  have hstep : ∀ i c, pos ≤ i → i < pos + nd2 → c ≤ 9 →
      (takeOffBody divisor q pos i (temp i) c).2 ≤ 9 ∧
        (takeOffBody divisor q pos i (temp i) c).1 ≤ 9 ∧
        ((takeOffBody divisor q pos i (temp i) c).1 : ℤ) = (temp i - divisor (i - pos) * q : ℤ) +
          -1 * (c - 10 * (takeOffBody divisor q pos i (temp i) c).2) := by
    intro i c hlo hhi hc
    have hdigit := htemp i
    have hproduct : divisor (i - pos) * q ≤ 81 :=
      Nat.mul_le_mul (hdivisor (i - pos) (by omega)) hq
    unfold takeOffBody
    dsimp only
    rw [← Nat.cast_mul]
    generalize divisor (i - pos) * q = product at hproduct
    omega
  have hrule := ripple_rule (takeOffBody divisor q pos) nd2 pos temp 0 (fun _ c => c ≤ 9)
    (fun _ x => x ≤ 9) (Nat.zero_le 9) fun i c hlo hhi hc =>
      ⟨(hstep i c hlo hhi hc).1, (hstep i c hlo hhi hc).2.1⟩
  have hvalue := ripple_value 10 (takeOffBody divisor q pos) nd2 pos temp 0 (-1)
    (fun i => temp i - divisor (i - pos) * q) (fun _ c => c ≤ 9) (Nat.zero_le 9)
    fun i c hlo hhi hc => ⟨(hstep i c hlo hhi hc).1, (hstep i c hlo hhi hc).2.2⟩
  rw [← htaken] at hrule hvalue
  refine ⟨?_, fun i => ?_⟩
  · have hsum : ∑ i ∈ Finset.Ico pos (pos + nd2), (temp i - divisor (i - pos) * q : ℤ) * 10 ^ i =
        value 10 temp pos (pos + nd2) - q * (value 10 divisor 0 nd2 * 10 ^ pos : ℕ) := by
      rw [← sum_divisor]
      unfold value
      push_cast
      rw [Finset.mul_sum, ← Finset.sum_sub_distrib]
      exact Finset.sum_congr rfl fun i _ => by ring
    push_cast at hvalue hsum
    rw [hsum] at hvalue
    zify
    linear_combination hvalue
  · by_cases hi : pos ≤ i ∧ i < pos + nd2
    · exact hrule.2 i hi.1 hi.2
    · rw [htaken, ripple_outside (by omega)]
      exact htemp i

theorem addBack_spec (pos : ℕ) (htemp : ∀ i, temp i ≤ 9) (hdivisor : ∀ i < nd2, divisor i ≤ 9)
    {back : (ℕ → ℕ) × ℕ} (hback : back = ripple (addBackBody divisor pos) nd2 pos temp 0) :
    value 10 back.1 pos (pos + nd2) + back.2 * 10 ^ (pos + nd2) =
        value 10 temp pos (pos + nd2) + value 10 divisor 0 nd2 * 10 ^ pos ∧
      back.2 ≤ 1 ∧ ∀ i, back.1 i ≤ 9 := by
  have hstep : ∀ i c, pos ≤ i → i < pos + nd2 → c ≤ 1 →
      (addBackBody divisor pos i (temp i) c).2 ≤ 1 ∧
        (addBackBody divisor pos i (temp i) c).1 ≤ 9 ∧
        ((addBackBody divisor pos i (temp i) c).1 : ℤ) = (temp i + divisor (i - pos) : ℤ) +
          1 * (c - 10 * (addBackBody divisor pos i (temp i) c).2) := by
    intro i c hlo hhi hc
    have hdigit := htemp i
    have hdigit' := hdivisor (i - pos) (by omega)
    unfold addBackBody
    dsimp only
    split <;> dsimp only <;> omega
  have hrule := ripple_rule (addBackBody divisor pos) nd2 pos temp 0 (fun _ c => c ≤ 1)
    (fun _ x => x ≤ 9) (Nat.zero_le 1) fun i c hlo hhi hc =>
      ⟨(hstep i c hlo hhi hc).1, (hstep i c hlo hhi hc).2.1⟩
  have hvalue := ripple_value 10 (addBackBody divisor pos) nd2 pos temp 0 1
    (fun i => temp i + divisor (i - pos)) (fun _ c => c ≤ 1) (Nat.zero_le 1)
    fun i c hlo hhi hc => ⟨(hstep i c hlo hhi hc).1, (hstep i c hlo hhi hc).2.2⟩
  rw [← hback] at hrule hvalue
  refine ⟨?_, hrule.1, fun i => ?_⟩
  · have hsum : ∑ i ∈ Finset.Ico pos (pos + nd2), (temp i + divisor (i - pos) : ℤ) * 10 ^ i =
        value 10 temp pos (pos + nd2) + (value 10 divisor 0 nd2 * 10 ^ pos : ℕ) := by
      rw [← sum_divisor]
      unfold value
      push_cast
      rw [← Finset.sum_add_distrib]
      exact Finset.sum_congr rfl fun i _ => by ring
    push_cast at hvalue hsum
    rw [hsum] at hvalue
    zify
    linear_combination hvalue
  · by_cases hi : pos ≤ i ∧ i < pos + nd2
    · exact hrule.2 i hi.1 hi.2
    · rw [hback, ripple_outside (by omega)]
      exact htemp i

end Digit

/-! ### A digit of the quotient -/

/-- The divisor as the loops see it, with its leading digits. -/
structure Divisor (divisor : ℕ → ℕ) (nd2 divisor01 : ℕ) : Prop where
  pos : 0 < nd2
  digit : ∀ i < nd2, divisor i ≤ 9
  last : divisor (nd2 - 1) ≠ 0
  leading : divisor01 = divisor (nd2 - 1) * 10 + if nd2 = 1 then 0 else divisor (nd2 - 2)

section Quotient

variable {divisor : ℕ → ℕ} {nd2 divisor01 pos : ℕ} {temp : ℕ → ℕ}

namespace Divisor

theorem pow_le (h : Divisor divisor nd2 divisor01) : 10 ^ (nd2 - 1) ≤ value 10 divisor 0 nd2 :=
  pow_le_value (Nat.zero_le _) (Nat.sub_lt h.pos Nat.one_pos) h.last

theorem lt_pow (h : Divisor divisor nd2 divisor01) : value 10 divisor 0 nd2 < 10 ^ nd2 :=
  value_lt (by decide) fun i _ hi => Nat.lt_succ_of_le (h.digit i hi)

theorem value_pos (h : Divisor divisor nd2 divisor01) : 0 < value 10 divisor 0 nd2 :=
  (by positivity : 0 < 10 ^ (nd2 - 1)).trans_le h.pow_le

theorem scaled_pos (h : Divisor divisor nd2 divisor01) (pos : ℕ) :
    0 < value 10 divisor 0 nd2 * 10 ^ pos :=
  Nat.mul_pos h.value_pos (by positivity)

/-- The guess is the digit or one more. -/
theorem guess_spec (h : Divisor divisor nd2 divisor01) (htemp : ∀ i, temp i ≤ 9)
    (hrest : value 10 temp pos (pos + nd2 + 1) < 10 * (value 10 divisor 0 nd2 * 10 ^ pos))
    {q : ℕ} (hq : q = value 10 temp pos (pos + nd2 + 1) / (value 10 divisor 0 nd2 * 10 ^ pos)) :
    guess temp pos nd2 divisor01 ≤ 10 ∧
      (guess temp pos nd2 divisor01 = q ∨ guess temp pos nd2 divisor01 = q + 1) := by
  have hscaled := h.scaled_pos pos
  have hnine : q ≤ 9 := by
    rw [hq]
    exact Nat.le_of_lt_succ ((Nat.div_lt_iff_lt_mul hscaled).2 hrest)
  obtain ⟨k, rfl⟩ | ⟨k, rfl⟩ : nd2 = 1 ∨ ∃ k, nd2 = k + 2 := by
    have := h.pos
    rcases Nat.lt_or_ge nd2 2 with hlt | hge
    · exact Or.inl (by omega)
    · exact Or.inr ⟨nd2 - 2, by omega⟩
  · -- with one digit the guess is exact
    have hvalue : value 10 divisor 0 1 = divisor 0 := by
      rw [value_succ le_rfl, value_self, pow_zero, Nat.mul_one, Nat.zero_add]
    have hwindow : value 10 temp pos (pos + 1 + 1) =
        (temp (pos + 1) * 10 + temp pos) * 10 ^ pos := by
      rw [value_succ (by omega : pos ≤ pos + 1), value_succ le_rfl, value_self]
      ring
    have hleading := h.leading
    rw [if_pos rfl, Nat.add_zero] at hleading
    rw [hvalue, hwindow, Nat.mul_div_mul_right _ _ (by positivity)] at hq
    have hguess : guess temp pos 1 divisor01 = q := by
      have hlow := htemp (pos + 1 - 2)
      unfold guess
      rw [hleading, Nat.sub_self, Nat.add_sub_cancel, Nat.mul_comm (divisor 0),
        ← Nat.div_div_eq_div_mul, hq]
      congr 1
      omega
    exact ⟨by omega, Or.inl hguess⟩
  · have hleading := h.leading
    rw [if_neg (by omega), show k + 2 - 1 = k + 1 by omega, Nat.add_sub_cancel] at hleading
    have hlast := h.last
    rw [show k + 2 - 1 = k + 1 by omega] at hlast
    have hten : 10 ≤ divisor01 := by omega
    generalize hn : temp (pos + (k + 2)) * 100 + temp (pos + (k + 2) - 1) * 10 +
      temp (pos + (k + 2) - 2) = n
    have hguess : guess temp pos (k + 2) divisor01 = n / divisor01 := by rw [guess, hn]
    have hwindow : value 10 temp pos (pos + (k + 2) + 1) =
        value 10 temp pos (pos + k) + n * 10 ^ (pos + k) := by
      rw [← hn, show pos + (k + 2) + 1 = pos + k + 1 + 1 + 1 by ring,
        value_succ (by omega), value_succ (by omega), value_succ (by omega),
        show pos + (k + 2) = pos + k + 1 + 1 by ring, Nat.add_sub_cancel,
        show pos + k + 1 + 1 - 2 = pos + k by omega]
      ring
    have hlow : value 10 temp pos (pos + k) < 10 ^ (pos + k) :=
      value_lt (by decide) fun i _ _ => Nat.lt_succ_of_le (htemp i)
    have hdivisor : value 10 divisor 0 (k + 2) * 10 ^ pos =
        value 10 divisor 0 k * 10 ^ pos + divisor01 * 10 ^ (pos + k) := by
      rw [value_succ (Nat.zero_le _), value_succ (Nat.zero_le _), hleading]
      ring
    have hlow' : value 10 divisor 0 k * 10 ^ pos < 10 ^ (pos + k) := by
      rw [Nat.add_comm pos, pow_add]
      exact Nat.mul_lt_mul_of_pos_right (value_lt (by decide) fun i _ hi =>
        Nat.lt_succ_of_le (h.digit i (by omega))) (by positivity)
    generalize value 10 divisor 0 k * 10 ^ pos = low' at hdivisor hlow'
    generalize value 10 temp pos (pos + k) = low at hwindow hlow
    generalize value 10 temp pos (pos + (k + 2) + 1) = rest at hrest hq hwindow
    generalize value 10 divisor 0 (k + 2) * 10 ^ pos = scaled at hrest hq hscaled hdivisor
    generalize 10 ^ (pos + k) = e at hwindow hlow hdivisor hlow'
    have hrest' : rest < (n + 1) * e := by rw [Nat.succ_mul]; omega
    have hscaled' : scaled < (divisor01 + 1) * e := by rw [Nat.succ_mul]; omega
    have hle := LongDivision.le_guess hrest' (by omega : divisor01 * e ≤ scaled) (by omega)
    have hbase := LongDivision.guess_le_base (by omega : n * e ≤ rest) hscaled' hten (by decide)
      hrest
    have hmore := LongDivision.guess_le (by omega : n * e ≤ rest) hscaled' hscaled hten hbase
    rw [← hq] at hle hmore
    rw [hguess]
    omega

end Divisor

/-- A number below a place and the digits above it are determined by their sum. -/
theorem eq_of_add_mul_eq {x y t c p : ℕ} (hx : x < p) (hy : y < p) (h : x + t * p = y + c * p) :
    t = c ∧ x = y := by
  have hdiv := congrArg (· / p) h
  simp only [Nat.add_mul_div_right _ _ (Nat.zero_lt_of_lt hx), Nat.div_eq_of_lt hx,
    Nat.div_eq_of_lt hy, Nat.zero_add] at hdiv
  subst hdiv
  exact ⟨rfl, Nat.add_right_cancel h⟩

/-- The digit is right, its checks hold, and `temp` keeps what is left. -/
theorem divideDigit_spec (h : Divisor divisor nd2 divisor01) (htemp : ∀ i, temp i ≤ 9)
    (hrest : value 10 temp pos (pos + nd2 + 1) < 10 * (value 10 divisor 0 nd2 * 10 ^ pos)) :
    ∃ left q, divideDigit divisor nd2 divisor01 pos temp = some (left, q) ∧ q ≤ 9 ∧
      value 10 temp pos (pos + nd2 + 1) =
        q * (value 10 divisor 0 nd2 * 10 ^ pos) + value 10 left pos (pos + nd2) ∧
      value 10 left pos (pos + nd2) < value 10 divisor 0 nd2 * 10 ^ pos ∧
      (∀ i < pos, left i = temp i) ∧ ∀ i, left i ≤ 9 := by
  have hscaled := h.scaled_pos pos
  have hpow : value 10 divisor 0 nd2 * 10 ^ pos < 10 ^ (pos + nd2) := by
    rw [Nat.add_comm pos, pow_add]
    exact Nat.mul_lt_mul_of_pos_right h.lt_pow (by positivity)
  have hguess := h.guess_spec htemp hrest rfl
  have htop : value 10 temp pos (pos + nd2 + 1) =
      value 10 temp pos (pos + nd2) + temp (pos + nd2) * 10 ^ (pos + nd2) :=
    value_succ (Nat.le_add_right _ _)
  have hdiv := Nat.div_add_mod' (value 10 temp pos (pos + nd2 + 1))
    (value 10 divisor 0 nd2 * 10 ^ pos)
  have hmod := Nat.mod_lt (value 10 temp pos (pos + nd2 + 1)) hscaled
  have hnine : value 10 temp pos (pos + nd2 + 1) / (value 10 divisor 0 nd2 * 10 ^ pos) ≤ 9 :=
    Nat.le_of_lt_succ ((Nat.div_lt_iff_lt_mul hscaled).2 hrest)
  generalize value 10 temp pos (pos + nd2 + 1) / (value 10 divisor 0 nd2 * 10 ^ pos) = q
    at hguess hdiv hnine
  generalize value 10 temp pos (pos + nd2 + 1) % (value 10 divisor 0 nd2 * 10 ^ pos) = rest
    at hdiv hmod
  have hlt : value 10 temp pos (pos + nd2) < 10 ^ (pos + nd2) :=
    value_lt (by decide) fun i _ _ => Nat.lt_succ_of_le (htemp i)
  unfold divideDigit
  dsimp only
  generalize hg : (if guess temp pos nd2 divisor01 = 10 then 9 else guess temp pos nd2 divisor01) = g
  have hg' : g = q ∨ g = q + 1 ∧ g ≤ 9 := by
    split at hg <;> omega
  by_cases hzero : g = 0
  · rw [if_pos hzero]
    have hq : q = 0 := by omega
    rw [hq, Nat.zero_mul, Nat.zero_add] at hdiv
    have hlast : temp (pos + nd2) = 0 := by
      by_contra hne
      have hmul := Nat.le_mul_of_pos_left (10 ^ (pos + nd2)) (Nat.pos_of_ne_zero hne)
      omega
    rw [hlast, Nat.zero_mul, Nat.add_zero] at htop
    refine ⟨temp, 0, rfl, Nat.zero_le 9, ?_, ?_, fun _ _ => rfl, htemp⟩
    · rw [Nat.zero_mul, Nat.zero_add, htop, Nat.add_zero]
    · omega
  · rw [if_neg hzero]
    obtain ⟨htaken, hdigits⟩ := takeOff_spec pos (by omega : g ≤ 9) htemp h.digit rfl
    have houtside : (ripple (takeOffBody divisor g pos) nd2 pos temp 0).1 (pos + nd2) =
        temp (pos + nd2) := ripple_outside (Or.inr le_rfl)
    have hbelow : ∀ i < pos, (ripple (takeOffBody divisor g pos) nd2 pos temp 0).1 i = temp i :=
      fun i hi => ripple_outside (Or.inl hi)
    generalize ripple (takeOffBody divisor g pos) nd2 pos temp 0 = taken
      at htaken hdigits houtside hbelow
    have hlt' : value 10 taken.1 pos (pos + nd2) < 10 ^ (pos + nd2) :=
      value_lt (by decide) fun i _ _ => Nat.lt_succ_of_le (hdigits i)
    rw [houtside]
    rcases hg' with rfl | ⟨rfl, hle⟩
    · -- the guess is right
      obtain ⟨hcarry, hleft⟩ := eq_of_add_mul_eq hlt' (hmod.trans hpow)
        (by omega : _ + temp (pos + nd2) * 10 ^ (pos + nd2) = rest + taken.2 * 10 ^ (pos + nd2))
      rw [if_pos hcarry.symm]
      exact ⟨_, _, rfl, hnine, by omega, by omega, hbelow, hdigits⟩
    · -- it is one too large
      rw [Nat.succ_mul] at htaken
      obtain ⟨hback, hcarry', hdigits'⟩ := addBack_spec pos hdigits h.digit rfl
      have hbelow' : ∀ i < pos, (ripple (addBackBody divisor pos) nd2 pos taken.1 0).1 i = temp i :=
        fun i hi => (ripple_outside (Or.inl hi)).trans (hbelow i hi)
      generalize ripple (addBackBody divisor pos) nd2 pos taken.1 0 = back
        at hback hcarry' hdigits' hbelow' ⊢
      have hlt'' : value 10 back.1 pos (pos + nd2) < 10 ^ (pos + nd2) :=
        value_lt (by decide) fun i _ _ => Nat.lt_succ_of_le (hdigits' i)
      obtain ⟨hcarry, hleft⟩ := eq_of_add_mul_eq hlt'' (hmod.trans hpow)
        (by
          rw [Nat.add_mul]
          omega : _ + (back.2 + temp (pos + nd2)) * 10 ^ (pos + nd2) =
            rest + taken.2 * 10 ^ (pos + nd2))
      have hone : back.2 = 1 := by
        by_contra hne
        have hnone : back.2 = 0 := by omega
        rw [hnone, Nat.zero_add] at hcarry
        rw [← hcarry] at htaken
        omega
      rw [hone] at hcarry
      rw [if_neg (by omega), if_neg (by omega), if_neg (by omega), Nat.add_sub_cancel]
      exact ⟨_, _, rfl, by omega, by omega, by omega, hbelow', hdigits'⟩

/-! ### All digits -/

theorem divideLoop_spec (h : Divisor divisor nd2 divisor01) (iters : ℕ) (temp digits : ℕ → ℕ)
    (htemp : ∀ i, temp i ≤ 9)
    (hrest : value 10 temp (iters + 3) (iters + 3 + nd2) <
      value 10 divisor 0 nd2 * 10 ^ (iters + 3)) :
    ∃ left quotient high, divideLoop divisor nd2 divisor01 iters temp digits =
        some (left, quotient) ∧
      value 10 temp 3 (iters + 3 + nd2) =
        (value 10 quotient 0 (min iters 64) + high * 10 ^ 64) *
          (value 10 divisor 0 nd2 * 10 ^ 3) + value 10 left 3 (3 + nd2) ∧
      value 10 left 3 (3 + nd2) < value 10 divisor 0 nd2 * 10 ^ 3 ∧
      (∀ i < min iters 64, quotient i ≤ 9) ∧ (∀ i, iters ≤ i → quotient i = digits i) ∧
      (∀ i < 3, left i = temp i) ∧ ∀ i, left i ≤ 9 := by
  induction iters generalizing temp digits with
  | zero =>
    rw [Nat.zero_add] at hrest
    refine ⟨temp, digits, 0, rfl, ?_, hrest, fun i hi => by omega, fun _ _ => rfl, fun _ _ => rfl,
      htemp⟩
    rw [Nat.zero_min, value_self, Nat.zero_add, Nat.zero_mul, Nat.zero_mul, Nat.zero_add]
  | succ iter ih =>
    have hplace : iter + 1 + 3 = iter + 3 + 1 := by omega
    have hend : iter + 3 + 1 + nd2 = iter + 3 + nd2 + 1 := by omega
    rw [hplace, hend] at hrest ⊢
    have hwindow : value 10 temp (iter + 3) (iter + 3 + nd2 + 1) =
        temp (iter + 3) * 10 ^ (iter + 3) + value 10 temp (iter + 3 + 1) (iter + 3 + nd2 + 1) :=
      value_cons (by omega)
    have hbound : value 10 temp (iter + 3) (iter + 3 + nd2 + 1) <
        10 * (value 10 divisor 0 nd2 * 10 ^ (iter + 3)) := by
      obtain ⟨k, hk⟩ : 10 ^ (iter + 3 + 1) ∣ value 10 temp (iter + 3 + 1) (iter + 3 + nd2 + 1) :=
        pow_dvd_value
      rw [hk, Nat.mul_comm, Nat.mul_lt_mul_right (by positivity)] at hrest
      rw [hwindow, hk]
      have hdigit := Nat.mul_le_mul_right (10 ^ (iter + 3)) (htemp (iter + 3))
      have hpos : 0 < 10 ^ (iter + 3) := by positivity
      calc temp (iter + 3) * 10 ^ (iter + 3) + 10 ^ (iter + 3 + 1) * k
          < 10 * 10 ^ (iter + 3) + 10 ^ (iter + 3 + 1) * k := by omega
        _ = (k + 1) * (10 * 10 ^ (iter + 3)) := by ring
        _ ≤ value 10 divisor 0 nd2 * (10 * 10 ^ (iter + 3)) := Nat.mul_le_mul_right _ hrest
        _ = 10 * (value 10 divisor 0 nd2 * 10 ^ (iter + 3)) := by ring
    obtain ⟨left, q, hdigit, hq, hvalue, hless, hbelow, hnine⟩ := divideDigit_spec h htemp hbound
    obtain ⟨left', quotient, high, hloop, hvalue', hless', hnine', habove, hbelow', htemp'⟩ :=
      ih left (if iter < 64 then Function.update digits iter q else digits) hnine hless
    have hlow : value 10 left 3 (iter + 3) = value 10 temp 3 (iter + 3) :=
      value_congr fun i _ hi => hbelow i hi
    have hsplit := value_append (b := 10) (d := left) (by omega : 3 ≤ iter + 3)
      (Nat.le_add_right (iter + 3) nd2)
    have hsplit' := value_append (b := 10) (d := temp) (by omega : 3 ≤ iter + 3)
      (by omega : iter + 3 ≤ iter + 3 + nd2 + 1)
    have hpow : value 10 divisor 0 nd2 * 10 ^ (iter + 3) =
        10 ^ iter * (value 10 divisor 0 nd2 * 10 ^ 3) := by ring
    rw [hpow] at hvalue
    have hbody : divideLoop divisor nd2 divisor01 (iter + 1) temp digits = some (left', quotient) := by
      rw [divideLoop, hdigit]
      exact hloop
    have hthree : ∀ i < 3, left' i = temp i := fun i hi =>
      (hbelow' i hi).trans (hbelow i (by omega))
    rcases Nat.lt_or_ge iter 64 with hlt | hge
    · rw [if_pos hlt] at habove
      have hlast : quotient iter = q := (habove iter le_rfl).trans (Function.update_self _ _ _)
      refine ⟨left', quotient, high, hbody, ?_, hless', ?_, ?_, hthree, htemp'⟩
      · rw [Nat.min_eq_left hlt, value_succ (Nat.zero_le _), hlast, ← hsplit', ← hlow, hvalue]
        rw [Nat.min_eq_left hlt.le] at hvalue'
        calc value 10 left 3 (iter + 3) + (q * (10 ^ iter * (value 10 divisor 0 nd2 * 10 ^ 3)) +
              value 10 left (iter + 3) (iter + 3 + nd2))
            = q * (10 ^ iter * (value 10 divisor 0 nd2 * 10 ^ 3)) +
              (value 10 left 3 (iter + 3) + value 10 left (iter + 3) (iter + 3 + nd2)) := by ring
          _ = _ := by
              rw [hsplit, hvalue']
              ring
      · intro i hi
        rcases (by omega : i < iter ∨ i = iter) with hi' | rfl
        · exact hnine' i (by omega)
        · rw [hlast]
          exact hq
      · intro i hi
        rw [habove i (by omega), Function.update_of_ne (by omega)]
    · rw [if_neg (Nat.not_lt.2 hge)] at habove
      obtain ⟨k, rfl⟩ := Nat.exists_eq_add_of_le hge
      refine ⟨left', quotient, high + q * 10 ^ k, hbody, ?_, hless', ?_, ?_, hthree, htemp'⟩
      · rw [Nat.min_eq_right (by omega), ← hsplit', ← hlow, hvalue]
        rw [Nat.min_eq_right hge] at hvalue'
        calc value 10 left 3 (64 + k + 3) + (q * (10 ^ (64 + k) * (value 10 divisor 0 nd2 * 10 ^ 3)) +
              value 10 left (64 + k + 3) (64 + k + 3 + nd2))
            = q * (10 ^ (64 + k) * (value 10 divisor 0 nd2 * 10 ^ 3)) +
              (value 10 left 3 (64 + k + 3) + value 10 left (64 + k + 3) (64 + k + 3 + nd2)) := by
              ring
          _ = _ := by
              rw [hsplit, hvalue', pow_add]
              ring
      · exact fun i hi => hnine' i (by omega)
      · exact fun i hi => habove i (by omega)

/-! ### The digit after the last one -/

theorem roundDigit_spec (h : Divisor divisor nd2 divisor01) (htemp : ∀ i, temp i ≤ 9)
    (hzero : temp 2 = 0)
    (hrest : value 10 temp 3 (3 + nd2) < value 10 divisor 0 nd2 * 10 ^ 3) :
    5 ≤ roundDigit divisor nd2 divisor01 temp ↔
      value 10 divisor 0 nd2 * 10 ^ 3 ≤ 2 * value 10 temp 3 (3 + nd2) := by
  have hwindow : value 10 temp 2 (2 + nd2 + 1) = value 10 temp 3 (3 + nd2) := by
    rw [value_cons (by omega), hzero, Nat.zero_mul, Nat.zero_add, Nat.add_right_comm]
  have hbound : value 10 temp 2 (2 + nd2 + 1) < 10 * (value 10 divisor 0 nd2 * 10 ^ 2) := by
    omega
  obtain ⟨-, hguess⟩ := h.guess_spec htemp hbound rfl
  have hscaled := h.scaled_pos 2
  have hpow : value 10 divisor 0 nd2 * 10 ^ 2 < 10 ^ (2 + nd2) := by
    rw [Nat.add_comm 2, pow_add]
    exact Nat.mul_lt_mul_of_pos_right h.lt_pow (by decide)
  have hdiv := Nat.div_add_mod' (value 10 temp 2 (2 + nd2 + 1)) (value 10 divisor 0 nd2 * 10 ^ 2)
  have hmod := Nat.mod_lt (value 10 temp 2 (2 + nd2 + 1)) hscaled
  have hfive : 5 ≤ value 10 temp 2 (2 + nd2 + 1) / (value 10 divisor 0 nd2 * 10 ^ 2) ↔
      value 10 divisor 0 nd2 * 10 ^ 3 ≤ 2 * value 10 temp 3 (3 + nd2) := by
    rw [Nat.le_div_iff_mul_le hscaled, hwindow]
    omega
  rw [← hfive]
  generalize value 10 temp 2 (2 + nd2 + 1) / (value 10 divisor 0 nd2 * 10 ^ 2) = q at hguess hdiv ⊢
  generalize value 10 temp 2 (2 + nd2 + 1) % (value 10 divisor 0 nd2 * 10 ^ 2) = rest at hdiv hmod
  unfold roundDigit
  dsimp only
  by_cases hguess5 : guess temp 2 nd2 divisor01 = 5
  · rw [hguess5] at hguess ⊢
    obtain ⟨htaken, hdigits⟩ := takeOff_spec 2 (by decide : 5 ≤ 9) htemp h.digit rfl
    generalize ripple (takeOffBody divisor 5 2) nd2 2 temp 0 = taken at htaken hdigits ⊢
    have hlt : value 10 taken.1 2 (2 + nd2) < 10 ^ (2 + nd2) :=
      value_lt (by decide) fun i _ _ => Nat.lt_succ_of_le (hdigits i)
    have htop : value 10 temp 2 (2 + nd2 + 1) =
        value 10 temp 2 (2 + nd2) + temp (2 + nd2) * 10 ^ (2 + nd2) :=
      value_succ (Nat.le_add_right _ _)
    rcases hguess with hq | hq
    · rw [← hq] at hdiv
      obtain ⟨hcarry, -⟩ := eq_of_add_mul_eq hlt (hmod.trans hpow)
        (by omega : _ + temp (2 + nd2) * 10 ^ (2 + nd2) = rest + taken.2 * 10 ^ (2 + nd2))
      rw [if_neg (fun hne => hne.2 hcarry.symm), ← hq]
    · have hcarry : taken.2 ≠ temp (2 + nd2) := by
        intro hcarry
        rw [hcarry] at htaken
        obtain rfl : q = 4 := by omega
        omega
      rw [if_pos ⟨rfl, hcarry⟩]
      omega
  · rw [if_neg (fun hne => hguess5 hne.1)]
    omega

end Quotient

/-! ### Adding one -/

/-- The loop stops below place `m`, unless all digits there are 9 and it ends there. -/
theorem addOne_spec (m n i : ℕ) (digits : ℕ → ℕ) (hm : i + m ≤ 64)
    (hnine : ∀ k, i ≤ k → k < i + m → digits k ≤ 9)
    (hn : n = m ∨ m ≤ n ∧ value 10 digits i (i + m) + 10 ^ i < 10 ^ (i + m)) :
    ∃ digits', addOne n i digits = some digits' ∧
      value 10 digits' i (i + m) = (if value 10 digits i (i + m) + 10 ^ i = 10 ^ (i + m) then 0
        else value 10 digits i (i + m) + 10 ^ i) ∧
      (∀ k < i, digits' k = digits k) ∧ ∀ k, i ≤ k → k < i + m → digits' k ≤ 9 := by
  induction m generalizing n i digits with
  | zero =>
    rw [Nat.add_zero, value_self, Nat.zero_add] at hn ⊢
    obtain rfl : n = 0 := hn.resolve_right fun h => absurd h.2 (lt_irrefl _)
    exact ⟨digits, rfl, by rw [value_self, if_pos rfl], fun _ _ => rfl, fun k hk hk' => by omega⟩
  | succ m ih =>
    obtain ⟨n, rfl⟩ := Nat.exists_eq_succ_of_ne_zero (by omega : n ≠ 0)
    have hplace : i + (m + 1) = i + 1 + m := by omega
    rw [hplace] at hn hnine ⊢
    have hdigit := hnine i le_rfl (by omega)
    have hcons := fun f : ℕ → ℕ => value_cons (b := 10) (d := f) (by omega : i < i + 1 + m)
    have hrest : value 10 digits (i + 1) (i + 1 + m) + 10 ^ (i + 1) ≤ 10 ^ (i + 1 + m) :=
      value_add_pow_le (fun k hk hk' => Nat.lt_succ_of_le (hnine k (by omega) hk')) (by omega)
    have hpow : 10 ^ (i + 1) = 10 * 10 ^ i := by rw [pow_succ, Nat.mul_comm]
    have hpos : 0 < 10 ^ i := by positivity
    unfold addOne
    rw [if_neg (by omega)]
    dsimp only
    by_cases hlast : digits i + 1 = 10
    · rw [if_pos hlast, if_neg (not_not.2 rfl)]
      have hupdate : value 10 (Function.update digits i 0) (i + 1) (i + 1 + m) =
          value 10 digits (i + 1) (i + 1 + m) :=
        value_congr fun k hk _ => Function.update_of_ne (by omega) _ _
      have hsum : value 10 digits i (i + 1 + m) + 10 ^ i =
          value 10 digits (i + 1) (i + 1 + m) + 10 ^ (i + 1) := by
        rw [hcons, show digits i = 9 by omega]
        omega
      rw [hsum] at hn ⊢
      obtain ⟨digits', hresult, hvalue, hbelow, hnine'⟩ := ih n (i + 1) (Function.update digits i 0)
        (by omega) (fun k hk hk' => by
          rw [Function.update_of_ne (by omega)]
          exact hnine k (by omega) hk') (by rw [hupdate]; omega)
      have hthis : digits' i = 0 := (hbelow i (Nat.lt_succ_self i)).trans (Function.update_self _ _ _)
      refine ⟨digits', hresult, ?_, fun k hk => ?_, fun k hk hk' => ?_⟩
      · rw [hcons, hthis, Nat.zero_mul, Nat.zero_add, hvalue, hupdate]
      · rw [hbelow k (by omega), Function.update_of_ne hk.ne]
      · rcases hk.eq_or_lt with rfl | hlt
        · rw [hthis]
          exact Nat.zero_le 9
        · exact hnine' k hlt (by omega)
    · rw [if_neg hlast, if_pos (Nat.succ_ne_zero _)]
      refine ⟨_, rfl, ?_, fun k hk => Function.update_of_ne hk.ne _ _, fun k hk hk' => ?_⟩
      rotate_left
      · rcases eq_or_ne k i with rfl | hne
        · rw [Function.update_self]
          omega
        · rw [Function.update_of_ne hne]
          exact hnine k hk (by omega)
      have hupdate : value 10 (Function.update digits i (digits i + 1)) (i + 1) (i + 1 + m) =
          value 10 digits (i + 1) (i + 1 + m) :=
        value_congr fun k hk _ => Function.update_of_ne (by omega) _ _
      have hsmall : digits i * 10 ^ i ≤ 8 * 10 ^ i := Nat.mul_le_mul_right _ (by omega)
      rw [hcons, hcons, Function.update_self, hupdate, Nat.succ_mul, if_neg (by omega)]
      omega


/-! ### The numerator -/

variable {a b : Decimal}

/-- The numerator is the number times `10 ^ 32`, counted in units of the place `lo2` and cut
there. -/
theorem numerator_spec (ha : a.WellFormed) {lo2 : ℕ} (hlo2 : lo2 ≤ a.clipTop + 32) {n : ℕ}
    (hn : n = a.clipTop + 33 - lo2) :
    value 10 (a.numerator n) 3 (3 + n) = a.magnitude * 10 ^ 32 / 10 ^ lo2 * 10 ^ 3 ∧
      (∀ i, a.numerator n i ≤ 9) ∧ (∀ i < 3, a.numerator n i = 0) ∧
      ∀ i, 3 + (n - 1) ≤ i → a.numerator n i = 0 := by
  have hclip := clipped ha.lsb_le
  have hle := hclip.le_top
  have hdigits : ∀ i, a.clipLsb ≤ i → i < a.clipTop → a.digits i < 10 := fun i hlo hhi =>
    ha.digit_lt (hclip.lsb_le.trans hlo) (hhi.trans_le hclip.top_le)
  rcases Nat.lt_or_ge (a.clipTop - a.clipLsb) n with hlong | hcut
  · have hnumerator : ∀ i, a.numerator n i = if 3 + (n - 1 - (a.clipTop - a.clipLsb)) ≤ i ∧
        i < 3 + (n - 1 - (a.clipTop - a.clipLsb)) + (a.clipTop - a.clipLsb) then
        a.digits (a.clipLsb + (i - (3 + (n - 1 - (a.clipTop - a.clipLsb))))) else 0 :=
      fun i => if_pos hlong
    generalize hstart : 3 + (n - 1 - (a.clipTop - a.clipLsb)) = start at hnumerator
    refine ⟨?_, fun i => ?_, fun i hi => ?_, fun i hi => ?_⟩
    · have hwindow : value 10 (a.numerator n) 3 (3 + n) =
          value 10 (a.numerator n) start (start + (a.clipTop - a.clipLsb)) :=
        value_widen (by omega) (by omega) fun i _ _ hout => by
          rw [hnumerator, if_neg (by omega)]
      have hshift : value 10 (fun i => a.numerator n (i + start)) 0 (a.clipTop - a.clipLsb) *
          10 ^ start = value 10 (a.numerator n) (0 + start) (a.clipTop - a.clipLsb + start) :=
        value_shift start
      have hshift' : value 10 (fun i => a.digits (i + a.clipLsb)) 0 (a.clipTop - a.clipLsb) *
          10 ^ a.clipLsb = value 10 a.digits (0 + a.clipLsb) (a.clipTop - a.clipLsb + a.clipLsb) :=
        value_shift a.clipLsb
      have hsame : value 10 (fun i => a.numerator n (i + start)) 0 (a.clipTop - a.clipLsb) =
          value 10 (fun i => a.digits (i + a.clipLsb)) 0 (a.clipTop - a.clipLsb) := by
        refine value_congr fun i _ hi => ?_
        rw [hnumerator, if_pos (by omega), Nat.add_sub_cancel, Nat.add_comm]
      rw [Nat.zero_add, Nat.sub_add_cancel hle, ← hclip.magnitude_eq] at hshift'
      rw [Nat.zero_add, Nat.add_comm _ start, hsame] at hshift
      have hpow : 10 ^ a.clipLsb * 10 ^ 32 = 10 ^ (start - 3) * 10 ^ lo2 := by
        rw [← pow_add, ← pow_add]
        congr 1
        omega
      rw [hwindow, ← hshift, ← hshift', Nat.mul_assoc _ _ (10 ^ 32), hpow, ← Nat.mul_assoc,
        Nat.mul_div_cancel _ (by positivity), Nat.mul_assoc, ← pow_add,
        show start - 3 + 3 = start by omega]
    · rw [hnumerator]
      split
      · exact Nat.le_of_lt_succ (hdigits _ (by omega) (by omega))
      · exact Nat.zero_le _
    · rw [hnumerator, if_neg (by omega)]
    · rw [hnumerator, if_neg (by omega)]
  · have hnumerator : ∀ i, a.numerator n i = if 3 ≤ i ∧ i < 3 + (n - 1) then
        a.digits (a.clipTop - (n - 1) + (i - 3)) else 0 :=
      fun i => if_neg (Nat.not_lt.2 hcut)
    obtain ⟨cut, hcut'⟩ : ∃ cut, lo2 = cut + 32 := ⟨lo2 - 32, by omega⟩
    rw [show a.clipTop - (n - 1) = cut by omega] at hnumerator
    refine ⟨?_, fun i => ?_, fun i hi => ?_, fun i hi => ?_⟩
    · have hwindow : value 10 (a.numerator n) 3 (3 + n) =
          value 10 (a.numerator n) 3 (3 + (n - 1)) :=
        value_widen le_rfl (by omega) fun i _ _ hout => by
          rw [hnumerator, if_neg (by omega)]
      have hshift : value 10 (fun i => a.numerator n (i + 3)) 0 (n - 1) * 10 ^ 3 =
          value 10 (a.numerator n) (0 + 3) (n - 1 + 3) := value_shift 3
      have hshift' : value 10 (fun i => a.digits (i + cut)) 0 (n - 1) * 10 ^ cut =
          value 10 a.digits (0 + cut) (n - 1 + cut) := value_shift cut
      have hsame : value 10 (fun i => a.numerator n (i + 3)) 0 (n - 1) =
          value 10 (fun i => a.digits (i + cut)) 0 (n - 1) := by
        refine value_congr fun i _ hi => ?_
        rw [hnumerator, if_pos (by omega), Nat.add_sub_cancel, Nat.add_comm]
      have hhigh : a.magnitude / 10 ^ cut * 10 ^ cut = value 10 a.digits cut a.clipTop := by
        rw [hclip.magnitude_eq]
        exact value_div_mul (by decide) hdigits (by omega) (by omega)
      rw [Nat.zero_add, show n - 1 + cut = a.clipTop by omega, ← hhigh] at hshift'
      rw [Nat.zero_add, Nat.add_comm _ 3, hsame,
        Nat.eq_of_mul_eq_mul_right (by positivity) hshift'] at hshift
      rw [hwindow, ← hshift, hcut', pow_add, Nat.mul_div_mul_right _ _ (by positivity)]
    · rw [hnumerator]
      split
      · exact Nat.le_of_lt_succ (hdigits _ (by omega) (by omega))
      · exact Nat.zero_le _
    · rw [hnumerator, if_neg (by omega)]
    · rw [hnumerator, if_neg (by omega)]

/-! ### The quotient -/

/-- The numerator without what is below the last digit of the divisor. -/
def cutNumerator (a b : Decimal) : ℕ :=
  a.magnitude * 10 ^ 32 / 10 ^ b.clipLsb * 10 ^ b.clipLsb

/-- What `divide` makes of the magnitudes. -/
theorem divide_spec (ha : a.WellFormed) (hb : b.WellFormed) (hne : b.clipLsb < b.clipTop)
    (hhi : b.clipTop ≤ a.clipTop + 32)
    (hbound : a.magnitude * 10 ^ 32 / b.magnitude + 1 < 10 ^ 64) :
    ∃ t, a.divide b = some t ∧ t.negative = xor a.negative b.negative ∧ t.WellFormed ∧
      (t.lsb = 0 ∧ t.msb ≤ a.clipTop + 32 - b.clipTop) ∧ t.magnitude = if b.magnitude ≤ 2 * (a.cutNumerator b % b.magnitude) then
          if a.magnitude * 10 ^ 32 / b.magnitude + 1 = 10 ^ (a.clipTop + 33 - b.clipTop) then 0
          else a.magnitude * 10 ^ 32 / b.magnitude + 1
        else a.magnitude * 10 ^ 32 / b.magnitude := by
  have hclip := clipped ha.lsb_le
  have hclip' := clipped hb.lsb_le
  -- the divisor in the places of the loops
  have hdigits : ∀ i, b.clipLsb ≤ i → i < b.clipTop → b.digits i < 10 := fun i hlo hi =>
    hb.digit_lt (hclip'.lsb_le.trans hlo) (hi.trans_le hclip'.top_le)
  have hdivisor : Divisor (fun i => b.digits (b.clipLsb + i)) (b.clipTop - b.clipLsb)
      (b.digits (b.clipTop - 1) * 10 +
        if b.clipTop - 1 ≠ b.clipLsb then b.digits (b.clipTop - 2) else 0) := by
    refine ⟨Nat.sub_pos_of_lt hne, fun i hi => ?_, ?_, ?_⟩
    · exact Nat.le_of_lt_succ (hdigits _ (by omega) (by omega))
    · rw [show b.clipLsb + (b.clipTop - b.clipLsb - 1) = b.clipTop - 1 by omega]
      exact hclip'.last hne
    · rw [show b.clipLsb + (b.clipTop - b.clipLsb - 1) = b.clipTop - 1 by omega]
      by_cases hone : b.clipTop - 1 = b.clipLsb
      · rw [if_neg (not_not.2 hone), if_pos (by omega)]
      · rw [if_pos hone, if_neg (by omega),
          show b.clipLsb + (b.clipTop - b.clipLsb - 2) = b.clipTop - 2 by omega]
  have hb' : b.magnitude =
      value 10 (fun i => b.digits (b.clipLsb + i)) 0 (b.clipTop - b.clipLsb) * 10 ^ b.clipLsb := by
    have hshift : value 10 (fun i => b.digits (i + b.clipLsb)) 0 (b.clipTop - b.clipLsb) *
        10 ^ b.clipLsb = value 10 b.digits (0 + b.clipLsb) (b.clipTop - b.clipLsb + b.clipLsb) :=
      value_shift b.clipLsb
    rw [Nat.zero_add, Nat.sub_add_cancel hne.le, ← hclip'.magnitude_eq] at hshift
    simp only [Nat.add_comm b.clipLsb]
    exact hshift.symm
  obtain ⟨hnumerator, hnine, hbelow, habove⟩ := numerator_spec ha (by omega : b.clipLsb ≤ _) rfl
  -- the quotient and what is left, in terms of the magnitudes
  have hquotient : a.magnitude * 10 ^ 32 / b.magnitude =
      a.magnitude * 10 ^ 32 / 10 ^ b.clipLsb /
        value 10 (fun i => b.digits (b.clipLsb + i)) 0 (b.clipTop - b.clipLsb) := by
    rw [Nat.div_div_eq_div_mul, Nat.mul_comm (10 ^ b.clipLsb), ← hb']
  have hhalf : b.magnitude ≤ 2 * (a.cutNumerator b % b.magnitude) ↔
      value 10 (fun i => b.digits (b.clipLsb + i)) 0 (b.clipTop - b.clipLsb) ≤
        2 * (a.magnitude * 10 ^ 32 / 10 ^ b.clipLsb %
          value 10 (fun i => b.digits (b.clipLsb + i)) 0 (b.clipTop - b.clipLsb)) := by
    rw [cutNumerator, hb', Nat.mul_mod_mul_right, ← Nat.mul_assoc]
    exact Nat.mul_le_mul_right_iff (by positivity)
  rw [hquotient] at hbound ⊢
  simp only [hhalf]
  generalize hiters : a.clipTop + 33 - b.clipTop = iters
  have hplaces : a.clipTop + 33 - b.clipLsb = iters + (b.clipTop - b.clipLsb) := by omega
  rw [hplaces] at hnumerator hnine hbelow habove
  generalize a.magnitude * 10 ^ 32 / 10 ^ b.clipLsb = n at hnumerator hbound ⊢
  have hpositive : 0 < iters := by omega
  have hscaled : 0 < value 10 (fun i => b.digits (b.clipLsb + i)) 0 (b.clipTop - b.clipLsb) *
      10 ^ 3 := hdivisor.scaled_pos 3
  have hrest : value 10 (a.numerator (iters + (b.clipTop - b.clipLsb))) (iters + 3)
      (iters + 3 + (b.clipTop - b.clipLsb)) <
      value 10 (fun i => b.digits (b.clipLsb + i)) 0 (b.clipTop - b.clipLsb) *
        10 ^ (iters + 3) := by
    rw [value_widen le_rfl (by omega : iters + 3 + (b.clipTop - b.clipLsb - 1) ≤ _)
      fun i _ _ hout => habove i (by omega)]
    refine (value_lt (by decide) fun i _ _ => Nat.lt_succ_of_le (hnine i)).trans_le ?_
    rw [Nat.add_comm (iters + 3), pow_add]
    exact Nat.mul_le_mul_right _ hdivisor.pow_le
  obtain ⟨left, quotient, high, hloop, hvalue, hless, hnine', -, hthree, htemp⟩ :=
    divideLoop_spec hdivisor iters (a.numerator (iters + (b.clipTop - b.clipLsb))) a.digits hnine
      hrest
  have hround := roundDigit_spec hdivisor htemp ((hthree 2 (by decide)).trans (hbelow 2 (by decide)))
    hless
  rw [show iters + 3 + (b.clipTop - b.clipLsb) = 3 + (iters + (b.clipTop - b.clipLsb)) by ring,
    hnumerator] at hvalue
  have htotal : n / value 10 (fun i => b.digits (b.clipLsb + i)) 0 (b.clipTop - b.clipLsb) =
      value 10 quotient 0 (min iters 64) + high * 10 ^ 64 := by
    rw [← Nat.mul_div_mul_right _ _ (by decide : 0 < 10 ^ 3), hvalue, Nat.add_comm,
      Nat.add_mul_div_right _ _ hscaled, Nat.div_eq_of_lt hless, Nat.zero_add]
  have hleft : (n % value 10 (fun i => b.digits (b.clipLsb + i)) 0 (b.clipTop - b.clipLsb)) *
      10 ^ 3 = value 10 left 3 (3 + (b.clipTop - b.clipLsb)) := by
    rw [← Nat.mul_mod_mul_right, hvalue, Nat.add_comm, Nat.add_mul_mod_self_right,
      Nat.mod_eq_of_lt hless]
  have hzero : high = 0 := by omega
  rw [hzero, Nat.zero_mul, Nat.add_zero] at htotal
  have hhigh : (a.clipMsb - b.clipMsb + 32).toNat + 1 = iters := by
    unfold clipMsb
    omega
  have hmsb : (if 64 ≤ a.clipMsb - b.clipMsb + 32 then 63 else
      (a.clipMsb - b.clipMsb + 32).toNat) + 1 = min iters 64 := by
    split <;> omega
  have hmsb' : (if 64 ≤ a.clipMsb - b.clipMsb + 32 then 63 else
      (a.clipMsb - b.clipMsb + 32).toNat) ≤ a.clipTop + 32 - b.clipTop := by
    split <;> omega
  have hresult : ∀ digits : ℕ → ℕ, (∀ i < min iters 64, digits i ≤ 9) →
      ({ digits := digits
         msb := if 64 ≤ a.clipMsb - b.clipMsb + 32 then 63 else (a.clipMsb - b.clipMsb + 32).toNat
         lsb := 0
         negative := xor a.negative b.negative } : Decimal).WellFormed := by
    intro digits hdigits'
    refine ⟨fun i _ hi => hdigits' i ?_, ?_, Nat.zero_le _⟩
    · rw [← hmsb]
      exact Nat.lt_succ_of_le hi
    · dsimp only
      omega
  unfold divide
  dsimp only
  rw [if_neg (by unfold clipMsb; omega), if_neg (Nat.not_le.2 hne), hhigh, hloop, Option.bind_some]
  dsimp only
  have hhalf' : value 10 (fun i => b.digits (b.clipLsb + i)) 0 (b.clipTop - b.clipLsb) ≤
      2 * (n % value 10 (fun i => b.digits (b.clipLsb + i)) 0 (b.clipTop - b.clipLsb)) ↔
      5 ≤ roundDigit (fun i => b.digits (b.clipLsb + i)) (b.clipTop - b.clipLsb)
        (b.digits (b.clipTop - 1) * 10 +
          if b.clipTop - 1 ≠ b.clipLsb then b.digits (b.clipTop - 2) else 0) left := by
    rw [hround, ← hleft]
    omega
  rw [htotal] at hbound ⊢
  simp only [hhalf']
  by_cases hup : 5 ≤ roundDigit (fun i => b.digits (b.clipLsb + i)) (b.clipTop - b.clipLsb)
        (b.digits (b.clipTop - 1) * 10 +
          if b.clipTop - 1 ≠ b.clipLsb then b.digits (b.clipTop - 2) else 0) left
  · obtain ⟨digits', hone, hvalue', -, hnine''⟩ := addOne_spec (min iters 64) iters 0 quotient
      (by omega) (fun k _ hk => hnine' k (by omega)) (by
        rw [Nat.zero_add, pow_zero]
        rcases Nat.lt_or_ge 64 iters with hlong | hshort
        · rw [Nat.min_eq_right hlong.le] at hbound ⊢
          exact Or.inr ⟨hlong.le, hbound⟩
        · exact Or.inl (Nat.min_eq_left hshort).symm)
    rw [Nat.zero_add, pow_zero] at hvalue'
    rw [Nat.zero_add] at hnine''
    rw [if_pos hup, hone, if_pos hup]
    refine ⟨_, rfl, rfl, hresult digits' fun i hi => hnine'' i (Nat.zero_le i) hi, ⟨rfl, hmsb'⟩, ?_⟩
    rw [magnitude]
    dsimp only
    rw [hmsb, hvalue']
    rcases Nat.lt_or_ge 64 iters with hlong | hshort
    · rw [Nat.min_eq_right hlong.le] at hbound ⊢
      have hpow : 10 ^ 64 ≤ 10 ^ iters := Nat.pow_le_pow_right (by decide) hlong.le
      rw [if_neg hbound.ne, if_neg (by omega)]
    · rw [Nat.min_eq_left hshort]
  · rw [if_neg hup, if_neg hup]
    refine ⟨_, rfl, rfl, hresult quotient hnine', ⟨rfl, hmsb'⟩, ?_⟩
    rw [magnitude]
    dsimp only
    rw [hmsb]

/-! ### The rounded quotient -/

theorem divide_setZero (hlow : a.clipTop + 32 < b.clipTop) : a.divide b = some a.setZero := by
  unfold divide clipMsb
  dsimp only
  rw [if_pos (by omega)]

/-- `divide` gives the rounded quotient, and its checks hold. -/
def Divides (a b : Decimal) : Prop :=
  ∃ t, a.divide b = some t ∧ t.val = Rounding.roundAt 32 (a.val / b.val)

/-- If the quotient is to be rounded up, then it has a place, what is cut off the numerator does not
matter for it, and not all its digits are 9. -/
def RoundsQuotient (a b : Decimal) : Prop :=
  b.magnitude ≤ 2 * (a.magnitude * 10 ^ 32 % b.magnitude) →
    b.clipTop ≤ a.clipTop + 32 ∧ b.magnitude ≤ 2 * (a.cutNumerator b % b.magnitude) ∧
      a.magnitude * 10 ^ 32 / b.magnitude + 1 ≠ 10 ^ (a.clipTop + 33 - b.clipTop)

theorem halfUp_quotient (hne : b.magnitude ≠ 0) :
    Rounding.halfUp (|a.val / b.val| * 10 ^ (32 : ℤ)) =
      ((a.magnitude * 10 ^ 32 / b.magnitude +
        if b.magnitude ≤ 2 * (a.magnitude * 10 ^ 32 % b.magnitude) then 1 else 0 : ℕ) : ℤ) := by
  have hb : (b.magnitude : ℚ) ≠ 0 := by exact_mod_cast hne
  have hunits : |a.val / b.val| * 10 ^ (32 : ℤ) =
      ((a.magnitude * 10 ^ 32 : ℕ) : ℚ) / (b.magnitude : ℕ) := by
    rw [abs_div, abs_val, abs_val]
    push_cast
    field_simp
  have hpos := Nat.pos_of_ne_zero hne
  rw [hunits, Rounding.halfUp_div _ hpos, Nat.cast_inj]
  have hdiv := Nat.div_add_mod' (a.magnitude * 10 ^ 32) b.magnitude
  have hmod := Nat.mod_lt (a.magnitude * 10 ^ 32) hpos
  generalize a.magnitude * 10 ^ 32 / b.magnitude = q at hdiv ⊢
  generalize a.magnitude * 10 ^ 32 % b.magnitude = rest at hdiv hmod ⊢
  rw [← hdiv]
  split_ifs with hhalf
  · exact Nat.div_eq_of_lt_le (by linarith) (by linarith)
  · exact Nat.div_eq_of_lt_le (by linarith) (by linarith)

/-- Cutting the numerator makes less of the rest. -/
theorem cutNumerator_mod_le (hb : b.WellFormed) (hne : b.magnitude ≠ 0) :
    a.cutNumerator b % b.magnitude ≤ a.magnitude * 10 ^ 32 % b.magnitude := by
  obtain ⟨k, hk⟩ := (clipped hb.lsb_le).pow_dvd_magnitude
  have hpos : 0 < 10 ^ b.clipLsb := by positivity
  have hk' : 0 < k := Nat.pos_of_ne_zero fun hzero => hne (by rw [hk, hzero, Nat.mul_zero])
  rw [cutNumerator, hk, Nat.mul_comm _ (10 ^ b.clipLsb), Nat.mul_mod_mul_left, Nat.mod_mul]
  exact Nat.le_add_left _ _

theorem val_div_neg_iff (hne : a.magnitude ≠ 0) (hne' : b.magnitude ≠ 0) :
    a.val / b.val < 0 ↔ xor a.negative b.negative = true := by
  rw [← val_mul_neg_iff hne hne', div_neg_iff, mul_neg_iff]

/-- There is room to round up. -/
theorem quotient_lt (hne : b.magnitude ≠ 0) (hbound : |a.val / b.val| < 10 ^ 32 - 1) :
    a.magnitude * 10 ^ 32 / b.magnitude + 1 < 10 ^ 64 := by
  have hpos := Nat.pos_of_ne_zero hne
  have hless : (a.magnitude + b.magnitude : ℚ) < 10 ^ 32 * b.magnitude := by
    rw [abs_div, abs_val, abs_val, div_div_div_cancel_right₀ (by positivity),
      div_lt_iff₀ (by exact_mod_cast hpos)] at hbound
    linarith
  have hless' : a.magnitude + b.magnitude < 10 ^ 32 * b.magnitude := by exact_mod_cast hless
  rw [← Nat.add_div_right _ hpos, Nat.div_lt_iff_lt_mul hpos]
  omega

/-- The leading digits of the quotient are too far below. -/
theorem quotient_eq_zero (ha : a.WellFormed) (hb : b.WellFormed) (hne : b.magnitude ≠ 0)
    (hlow : a.clipTop + 32 < b.clipTop) : a.magnitude * 10 ^ 32 / b.magnitude = 0 := by
  have hclip := clipped hb.lsb_le
  have ha' := (clipped ha.lsb_le).magnitude_lt ha
  have hb' := hclip.pow_le_magnitude (hclip.lt_iff.2 hne)
  refine Nat.div_eq_of_lt ?_
  calc a.magnitude * 10 ^ 32 < 10 ^ a.clipTop * 10 ^ 32 :=
        Nat.mul_lt_mul_of_pos_right ha' (by positivity)
    _ = 10 ^ (a.clipTop + 32) := (pow_add _ _ _).symm
    _ ≤ 10 ^ (b.clipTop - 1) := Nat.pow_le_pow_right (by decide) (by omega)
    _ ≤ b.magnitude := hb'

theorem divides_iff (ha : a.WellFormed) (hb : b.WellFormed) (hne : b.val ≠ 0)
    (hbound : |a.val / b.val| < 10 ^ 32 - 1) : a.Divides b ↔ a.RoundsQuotient b := by
  have hne' : b.magnitude ≠ 0 := mt val_eq_zero_iff.2 hne
  have hhalf := halfUp_quotient (a := a) hne'
  have hsmall := quotient_lt hne' hbound
  have hvalue : ∀ t : Decimal, (t.magnitude ≠ 0 → a.magnitude ≠ 0 ∧
      t.negative = xor a.negative b.negative) →
      (t.val = Rounding.roundAt 32 (a.val / b.val) ↔ t.magnitude =
        a.magnitude * 10 ^ 32 / b.magnitude +
          if b.magnitude ≤ 2 * (a.magnitude * 10 ^ 32 % b.magnitude) then 1 else 0) := by
    intro t hsign
    rw [Rounding.roundAt, val_eq_atPlace_iff, hhalf]
    · have hpow : ((10 : ℚ) ^ (32 : ℤ)) = 10 ^ 32 := by norm_num
      rw [hpow, div_left_inj' (by positivity), Int.cast_natCast, Nat.cast_inj]
    · intro hnonzero
      obtain ⟨hnonzero', hneg⟩ := hsign hnonzero
      rw [hneg, val_div_neg_iff hnonzero' hne']
    · rw [hhalf]
      exact Int.natCast_nonneg _
  unfold Divides RoundsQuotient
  have hclip := clipped hb.lsb_le
  rcases Nat.lt_or_ge (a.clipTop + 32) b.clipTop with hlow | hhi
  · -- the quotient has no place
    have hquotient := quotient_eq_zero ha hb hne' hlow
    have hzero : a.setZero.magnitude = 0 := val_eq_zero_iff.1 (val_setZero a)
    have hset := hvalue a.setZero fun hnonzero => absurd hzero hnonzero
    rw [hzero, hquotient, Nat.zero_add] at hset
    rw [divide_setZero hlow]
    constructor
    · rintro ⟨t, hresult, hval⟩ hup
      obtain rfl := Option.some.inj hresult
      have hnone := hset.1 hval
      rw [if_pos hup] at hnone
      exact absurd hnone (by decide)
    · intro hup
      refine ⟨_, rfl, hset.2 ?_⟩
      rw [if_neg fun h => absurd (hup h).1 (by omega)]
  · obtain ⟨t, hresult, hneg, -, -, hmagnitude⟩ :=
      divide_spec ha hb (hclip.lt_iff.2 hne') hhi hsmall
    have hcut := cutNumerator_mod_le (a := a) hb hne'
    have hnonzero : t.magnitude ≠ 0 → a.magnitude ≠ 0 := by
      rintro hnonzero hzero
      rw [hmagnitude, cutNumerator, hzero, Nat.zero_mul, Nat.zero_div, Nat.zero_mul, Nat.zero_mod,
        Nat.zero_div, if_neg (by omega)] at hnonzero
      exact hnonzero rfl
    have hval := hvalue t fun h => ⟨hnonzero h, hneg⟩
    rw [hmagnitude] at hval
    have hexists : (∃ t, a.divide b = some t ∧ t.val = Rounding.roundAt 32 (a.val / b.val)) ↔
        t.val = Rounding.roundAt 32 (a.val / b.val) := by
      rw [hresult]
      constructor
      · rintro ⟨u, h, hu⟩
        exact Option.some.inj h ▸ hu
      · exact fun h => ⟨t, rfl, h⟩
    rw [hexists, hval]
    generalize a.magnitude * 10 ^ 32 / b.magnitude = quotient
    generalize a.magnitude * 10 ^ 32 % b.magnitude = rest at hcut ⊢
    generalize a.cutNumerator b % b.magnitude = cut at hcut ⊢
    generalize 10 ^ (a.clipTop + 33 - b.clipTop) = nines
    by_cases hup : b.magnitude ≤ 2 * rest
    · rw [if_pos hup]
      by_cases hkept : b.magnitude ≤ 2 * cut
      · rw [if_pos hkept]
        by_cases hnines : quotient + 1 = nines
        · rw [if_pos hnines]
          exact iff_of_false (by omega) fun h => (h hup).2.2 hnines
        · rw [if_neg hnines]
          exact iff_of_true rfl fun _ => ⟨hhi, hkept, hnines⟩
      · rw [if_neg hkept]
        exact iff_of_false (by omega) fun h => hkept (h hup).2.1
    · rw [if_neg hup, if_neg (by omega)]
      exact iff_of_true rfl fun h => absurd h hup

theorem abs_val_div (a b : Decimal) : |a.val / b.val| = a.magnitude / b.magnitude := by
  rw [abs_div, abs_val, abs_val, div_div_div_cancel_right₀ (by positivity)]

/-- 2 by 3. -/
theorem divides_three : (digitAt 3 32).val ≠ 0 ∧
    |(digitAt 2 32).val / (digitAt 3 32).val| < 10 ^ 32 - 1 ∧
    ((digitAt 2 32).Divides (digitAt 3 32) ↔ (digitAt 2 32).RoundsQuotient (digitAt 3 32)) := by
  have hne : (digitAt 3 32).val ≠ 0 := by
    rw [Ne, val_eq_zero_iff, magnitude_digitAt]
    norm_num
  have hbound : |(digitAt 2 32).val / (digitAt 3 32).val| < 10 ^ 32 - 1 := by
    rw [abs_val_div, magnitude_digitAt, magnitude_digitAt]
    norm_num
  exact ⟨hne, hbound, divides_iff (wellFormed_digitAt (by decide) (by decide))
    (wellFormed_digitAt (by decide) (by decide)) hne hbound⟩

/-- Nine units of the last place by 10 are more than half a unit and become 0. -/
theorem divide_loses_half : (digitAt 9 0).WellFormed ∧ (digitAt 1 33).WellFormed ∧
    (digitAt 1 33).val ≠ 0 ∧ |(digitAt 9 0).val / (digitAt 1 33).val| < 10 ^ 32 - 1 ∧
    (∃ t, (digitAt 9 0).divide (digitAt 1 33) = some t ∧ t.val = 0) ∧
    Rounding.roundAt 32 ((digitAt 9 0).val / (digitAt 1 33).val) = 1 / 10 ^ 32 ∧
    ¬ (digitAt 9 0).Divides (digitAt 1 33) := by
  have hresult : (digitAt 9 0).divide (digitAt 1 33) = some (digitAt 9 0).setZero :=
    divide_setZero (by decide)
  have hne : (digitAt 1 33).magnitude ≠ 0 := by
    rw [magnitude_digitAt]
    norm_num
  have hnonneg : 0 ≤ (digitAt 9 0).val / (digitAt 1 33).val := by
    rw [val_eq, val_eq]
    norm_num [digitAt]
    positivity
  have hround : Rounding.roundAt 32 ((digitAt 9 0).val / (digitAt 1 33).val) = 1 / 10 ^ 32 := by
    have hunits := halfUp_quotient (a := digitAt 9 0) hne
    rw [abs_of_nonneg hnonneg, magnitude_digitAt, magnitude_digitAt] at hunits
    rw [Rounding.roundAt, Rounding.atPlace_of_nonneg hnonneg, hunits]
    norm_num
  refine ⟨wellFormed_digitAt (by decide) (by decide), wellFormed_digitAt (by decide) (by decide),
    mt val_eq_zero_iff.1 hne, ?_, ⟨_, hresult, val_setZero _⟩, hround, ?_⟩
  · rw [abs_val_div, magnitude_digitAt, magnitude_digitAt]
    norm_num
  · rintro ⟨t, hresult', hval⟩
    obtain rfl := Option.some.inj (hresult.symm.trans hresult')
    rw [val_setZero, hround] at hval
    norm_num at hval

end Decimal

end Nbcd
