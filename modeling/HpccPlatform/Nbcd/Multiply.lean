import HpccPlatform.Nbcd.Decimal

/-!
# Multiplication

The products of the digits are added up by places in `temp`, twice as long as the digits, and then
copied with their carries from place `zeroDigit = 32` on.  The part below is rounded into the first
carry.  A product whose leading digits come out too far below is taken for zero without rounding,
although its carries may make it more than half a unit; otherwise it is correctly rounded.
-/

namespace Nbcd

open DigitWindow

namespace Decimal

/-! ### The loops -/

/-- `temp[i+j] += next * digits2[j]`, for `n` digits from `j` on. -/
def addProducts (next i : ℕ) (digits2 : ℕ → ℕ) : ℕ → ℕ → (ℕ → ℕ) → ℕ → ℕ
  | 0, _, temp => temp
  | n + 1, j, temp =>
    addProducts next i digits2 n (j + 1)
      (Function.update temp (i + j) (temp (i + j) + next * digits2 j))

/-- All the products, for `n` digits from `i` on. -/
def addAllProducts (digits1 digits2 : ℕ → ℕ) (n2 low2 : ℕ) : ℕ → ℕ → (ℕ → ℕ) → ℕ → ℕ
  | 0, _, temp => temp
  | n + 1, i, temp =>
    addAllProducts digits1 digits2 n2 low2 n (i + 1)
      (if digits1 i ≠ 0 then addProducts (digits1 i) i digits2 n2 low2 temp else temp)

/-- A step of the loop below place 32.  Only its carry is used. -/
def roundBody (temp : ℕ → ℕ) (k _digit carry : ℕ) : ℕ × ℕ :=
  let next := temp k + carry + if k = 31 then 5 else 0
  (next % 10, next / 10)

/-- A step of the loop that copies the digits. -/
def copyBody (temp : ℕ → ℕ) (j _digit carry : ℕ) : ℕ × ℕ :=
  let next := temp (j + 32) + carry
  (next % 10, next / 10)

/-- `while ((hight < maxDigits-1) && (carry != 0))`, with `maxDigits - 1 - hight` steps to go. -/
def appendCarry : ℕ → ℕ → (ℕ → ℕ) → ℕ → (ℕ → ℕ) × ℕ
  | 0, hight, digits, _ => (digits, hight)
  | n + 1, hight, digits, carry =>
    if carry ≠ 0 then
      appendCarry n (hight + 1) (Function.update digits (hight + 1) (carry % 10)) (carry / 10)
    else (digits, hight)

/-- Everything of `other` is read before anything is written, so it may be the same object. -/
def multiply (s other : Decimal) : Decimal :=
  let low := s.clipLsb + other.clipLsb
  let lowt := low - 32
  let hight := s.clipMsb + other.clipMsb - 32
  if hight < -1 then s.setZero
  else
    let hight := if 64 ≤ hight then 63 else hight.toNat
    let temp := addAllProducts s.digits other.digits (other.clipTop - other.clipLsb) other.clipLsb
      (s.clipTop - s.clipLsb) s.clipLsb fun _ => 0
    let carry := (ripple (roundBody temp) (32 - low) low temp 0).2
    let copied := ripple (copyBody temp) (hight + 1 - lowt) lowt s.digits carry
    let appended := appendCarry (63 - hight) hight copied.1 copied.2
    { digits := appended.1
      msb := appended.2
      lsb := lowt
      negative := xor s.negative other.negative }

variable {a b : Decimal}

/-! ### The products by places -/

theorem value_addProducts (next i : ℕ) (digits2 : ℕ → ℕ) (n j : ℕ) (temp : ℕ → ℕ) {top : ℕ}
    (htop : i + j + n ≤ top) :
    value 10 (addProducts next i digits2 n j temp) 0 top =
      value 10 temp 0 top + next * 10 ^ i * value 10 digits2 j (j + n) := by
  induction n generalizing j temp with
  | zero => rw [addProducts, Nat.add_zero, value_self, Nat.mul_zero, Nat.add_zero]
  | succ n ih =>
    have hplace : j + (n + 1) = j + 1 + n := by omega
    rw [addProducts, ih (j + 1) _ (by omega), hplace, value_cons (by omega : j < j + 1 + n)]
    have hupdate : value 10 (Function.update temp (i + j) (temp (i + j) + next * digits2 j)) 0 top =
        value 10 temp 0 top + next * digits2 j * 10 ^ (i + j) := by
      have h := value_update (b := 10) (d := temp) (x := temp (i + j) + next * digits2 j)
        (Nat.zero_le (i + j)) (by omega : i + j < top)
      rw [Nat.add_mul] at h
      omega
    rw [hupdate]
    ring

theorem addProducts_outside (next i : ℕ) (digits2 : ℕ → ℕ) (n j : ℕ) (temp : ℕ → ℕ) {k : ℕ}
    (hk : k < i + j ∨ i + j + n ≤ k) : addProducts next i digits2 n j temp k = temp k := by
  induction n generalizing j temp with
  | zero => rfl
  | succ n ih => rw [addProducts, ih (j + 1) _ (by omega), Function.update_of_ne (by omega)]

theorem value_addAllProducts (digits1 digits2 : ℕ → ℕ) (n2 low2 n i : ℕ) (temp : ℕ → ℕ) {top : ℕ}
    (htop : i + n + (low2 + n2) ≤ top) :
    value 10 (addAllProducts digits1 digits2 n2 low2 n i temp) 0 top =
      value 10 temp 0 top + value 10 digits1 i (i + n) * value 10 digits2 low2 (low2 + n2) := by
  induction n generalizing i temp with
  | zero => rw [addAllProducts, Nat.add_zero, value_self, Nat.zero_mul, Nat.add_zero]
  | succ n ih =>
    have hplace : i + (n + 1) = i + 1 + n := by omega
    rw [addAllProducts, ih (i + 1) _ (by omega), hplace, value_cons (by omega : i < i + 1 + n)]
    by_cases hzero : digits1 i = 0
    · rw [if_neg (not_not.2 hzero), hzero]
      ring
    · rw [if_pos hzero, value_addProducts _ _ _ _ _ _ (by omega)]
      ring

theorem addAllProducts_outside (digits1 digits2 : ℕ → ℕ) (n2 low2 n i : ℕ) (temp : ℕ → ℕ) {k : ℕ}
    (hk : k < i + low2 ∨ i + n + (low2 + n2) ≤ k + 1) :
    addAllProducts digits1 digits2 n2 low2 n i temp k = temp k := by
  induction n generalizing i temp with
  | zero => rfl
  | succ n ih =>
    rw [addAllProducts, ih (i + 1) _ (by omega)]
    split
    · exact addProducts_outside _ _ _ _ _ _ (by omega)
    · rfl

/-! ### The carries -/

/-- The products below place 32, rounded. -/
theorem roundCarry_eq {temp : ℕ → ℕ} {low : ℕ} (hlow : ∀ k < low, temp k = 0) :
    (ripple (roundBody temp) (32 - low) low temp 0).2 =
      (value 10 temp 0 32 + 5 * 10 ^ 31) / 10 ^ 32 := by
  rcases Nat.lt_or_ge low 32 with hlt | hge
  · have hend : low + (32 - low) = 32 := by omega
    have hstep : ∀ k c, (roundBody temp k (temp k) c).1 ≤ 9 ∧
        ((roundBody temp k (temp k) c).1 : ℤ) = (temp k + if k = 31 then 5 else 0 : ℕ) +
          1 * (c - 10 * (roundBody temp k (temp k) c).2) := by
      intro k c
      unfold roundBody
      dsimp only
      generalize (if k = 31 then 5 else 0) = five
      omega
    have hrule := ripple_rule (roundBody temp) (32 - low) low temp 0 (fun _ _ => True)
      (fun _ x => x ≤ 9) trivial fun k c _ _ _ => ⟨trivial, (hstep k c).1⟩
    have hvalue := ripple_value 10 (roundBody temp) (32 - low) low temp 0 1
      (fun k => (temp k + if k = 31 then 5 else 0 : ℕ)) (fun _ _ => True) trivial
      fun k c _ _ _ => ⟨trivial, (hstep k c).2⟩
    rw [hend] at hrule hvalue
    generalize ripple (roundBody temp) (32 - low) low temp 0 = rounded at hrule hvalue ⊢
    have hlt' : value 10 rounded.1 low 32 < 10 ^ 32 :=
      value_lt (by decide) fun k hk hk' => Nat.lt_succ_of_le (hrule.2 k hk hk')
    have hsum : value 10 rounded.1 low 32 + rounded.2 * 10 ^ 32 =
        value 10 temp 0 32 + 5 * 10 ^ 31 := by
      have hwiden : value 10 temp 0 32 = value 10 temp low 32 :=
        value_widen (Nat.zero_le _) le_rfl fun k _ _ hout => hlow k (by omega)
      have hfive : ∑ k ∈ Finset.Ico low 32, ((temp k + if k = 31 then 5 else 0 : ℕ) : ℤ) * 10 ^ k =
          value 10 temp low 32 + 5 * 10 ^ 31 := by
        have hmem : 31 ∈ Finset.Ico low 32 := Finset.mem_Ico.2 ⟨by omega, by decide⟩
        unfold value
        push_cast
        simp only [add_mul, ite_mul, zero_mul, Finset.sum_add_distrib, Finset.sum_ite_eq',
          if_pos hmem]
        norm_num
      push_cast at hvalue hfive
      rw [hfive] at hvalue
      rw [hwiden]
      zify
      linear_combination hvalue
    rw [← hsum, Nat.add_mul_div_right _ _ (by positivity), Nat.div_eq_of_lt hlt', Nat.zero_add]
  · have hzero : value 10 temp 0 32 = 0 := value_eq_zero fun k _ hk => hlow k (by omega)
    rw [Nat.sub_eq_zero_of_le hge, hzero]
    rfl

/-- The digits from place 32 on are copied with their carries. -/
theorem copy_spec (temp digits : ℕ → ℕ) {lowt hight : ℕ} (carry : ℕ) (hle : lowt ≤ hight + 1)
    {copied : (ℕ → ℕ) × ℕ}
    (hcopied : copied = ripple (copyBody temp) (hight + 1 - lowt) lowt digits carry) :
    (value 10 copied.1 lowt (hight + 1) + copied.2 * 10 ^ (hight + 1)) * 10 ^ 32 =
        value 10 temp (lowt + 32) (hight + 33) + carry * 10 ^ lowt * 10 ^ 32 ∧
      ∀ j, lowt ≤ j → j ≤ hight → copied.1 j ≤ 9 := by
  have hend : lowt + (hight + 1 - lowt) = hight + 1 := by omega
  have hstep : ∀ j digit c, (copyBody temp j digit c).1 ≤ 9 ∧
      ((copyBody temp j digit c).1 : ℤ) = (temp (j + 32) : ℕ) +
        1 * (c - 10 * (copyBody temp j digit c).2) := by
    intro j digit c
    unfold copyBody
    dsimp only
    omega
  have hrule := ripple_rule (copyBody temp) (hight + 1 - lowt) lowt digits carry (fun _ _ => True)
    (fun _ x => x ≤ 9) trivial fun j c _ _ _ => ⟨trivial, (hstep j _ c).1⟩
  have hvalue := ripple_value 10 (copyBody temp) (hight + 1 - lowt) lowt digits carry 1
    (fun j => (temp (j + 32) : ℕ)) (fun _ _ => True) trivial
    fun j c _ _ _ => ⟨trivial, (hstep j _ c).2⟩
  rw [hend, ← hcopied] at hrule hvalue
  refine ⟨?_, fun j hlo hhi => hrule.2 j hlo (Nat.lt_succ_of_le hhi)⟩
  have hshift : value 10 (fun j => temp (j + 32)) lowt (hight + 1) * 10 ^ 32 =
      value 10 temp (lowt + 32) (hight + 1 + 32) := value_shift 32
  have hcast : ∑ j ∈ Finset.Ico lowt (hight + 1), (temp (j + 32) : ℤ) * 10 ^ j =
      value 10 (fun j => temp (j + 32)) lowt (hight + 1) := by
    unfold value
    push_cast
    rfl
  push_cast at hvalue
  rw [hcast] at hvalue
  rw [show hight + 1 + 32 = hight + 33 by ring] at hshift
  rw [← hshift]
  zify
  linear_combination 10 ^ 32 * hvalue

/-- The last carry becomes the digits above. -/
theorem appendCarry_spec (n hight lowt : ℕ) (digits : ℕ → ℕ) (carry : ℕ) (hle : lowt ≤ hight + 1)
    (hcarry : carry < 10 ^ n) (hdigits : ∀ j, lowt ≤ j → j ≤ hight → digits j ≤ 9) :
    value 10 (appendCarry n hight digits carry).1 lowt ((appendCarry n hight digits carry).2 + 1) =
        value 10 digits lowt (hight + 1) + carry * 10 ^ (hight + 1) ∧
      hight ≤ (appendCarry n hight digits carry).2 ∧
      (appendCarry n hight digits carry).2 ≤ hight + n ∧
      ∀ j, lowt ≤ j → j ≤ (appendCarry n hight digits carry).2 →
        (appendCarry n hight digits carry).1 j ≤ 9 := by
  induction n generalizing hight digits carry with
  | zero =>
    have hzero : carry = 0 := by simpa using hcarry
    rw [appendCarry, hzero, Nat.zero_mul, Nat.add_zero]
    exact ⟨rfl, le_rfl, le_rfl, hdigits⟩
  | succ n ih =>
    unfold appendCarry
    by_cases hne : carry ≠ 0
    · rw [if_pos hne]
      have hnext : ∀ j, lowt ≤ j → j ≤ hight + 1 →
          Function.update digits (hight + 1) (carry % 10) j ≤ 9 := by
        intro j hlo hhi
        rcases hhi.eq_or_lt with rfl | hlt
        · rw [Function.update_self]
          omega
        · rw [Function.update_of_ne hlt.ne]
          exact hdigits j hlo (Nat.le_of_lt_succ hlt)
      obtain ⟨hvalue, hle', hbound, hdigits'⟩ := ih (hight + 1) _ (carry / 10)
        (Nat.le_succ_of_le hle)
        (Nat.div_lt_of_lt_mul (by rwa [pow_succ, Nat.mul_comm] at hcarry)) hnext
      refine ⟨?_, by omega, by omega, hdigits'⟩
      have hsame : value 10 (Function.update digits (hight + 1) (carry % 10)) lowt (hight + 1) =
          value 10 digits lowt (hight + 1) :=
        value_congr fun j _ hj => Function.update_of_ne hj.ne _ _
      have hdiv := Nat.div_add_mod' carry 10
      rw [hvalue, value_succ hle, hsame, Function.update_self]
      calc value 10 digits lowt (hight + 1) + carry % 10 * 10 ^ (hight + 1) +
            carry / 10 * 10 ^ (hight + 1 + 1)
          = value 10 digits lowt (hight + 1) +
              (carry / 10 * 10 + carry % 10) * 10 ^ (hight + 1) := by ring
        _ = value 10 digits lowt (hight + 1) + carry * 10 ^ (hight + 1) := by rw [hdiv]
    · have hzero : carry = 0 := not_not.1 hne
      rw [if_neg hne, hzero, Nat.zero_mul, Nat.add_zero]
      exact ⟨rfl, le_rfl, Nat.le_add_right _ _, hdigits⟩

/-! ### The result -/

/-- What is known of `temp` when the products are added up. -/
theorem products_spec (ha : a.WellFormed) (hb : b.WellFormed) {temp : ℕ → ℕ}
    (htemp : temp = addAllProducts a.digits b.digits (b.clipTop - b.clipLsb) b.clipLsb
      (a.clipTop - a.clipLsb) a.clipLsb fun _ => 0) :
    value 10 temp 0 128 = a.magnitude * b.magnitude ∧
      (∀ k < a.clipLsb + b.clipLsb, temp k = 0) ∧
      ∀ k, a.clipTop + b.clipTop ≤ k + 1 → temp k = 0 := by
  have hclip := clipped ha.lsb_le
  have hclip' := clipped hb.lsb_le
  have htop := hclip.top_le_maxDigits ha
  have htop' := hclip'.top_le_maxDigits hb
  have hle := hclip.le_top
  have hle' := hclip'.le_top
  rw [htemp]
  refine ⟨?_, fun k hk => addAllProducts_outside _ _ _ _ _ _ _ (by omega),
    fun k hk => addAllProducts_outside _ _ _ _ _ _ _ (by omega)⟩
  rw [value_addAllProducts _ _ _ _ _ _ _ (by omega), Nat.add_sub_cancel' hle,
    Nat.add_sub_cancel' hle', ← hclip.magnitude_eq, ← hclip'.magnitude_eq,
    value_eq_zero fun _ _ _ => rfl, Nat.zero_add]

theorem appendCarry_zero (n hight : ℕ) (digits : ℕ → ℕ) :
    appendCarry n hight digits 0 = (digits, hight) := by
  cases n with
  | zero => rfl
  | succ n => exact if_neg fun h => h rfl

/-- The leading digits of a product that is not 0 have their places. -/
theorem clipTop_add_le (ha : a.WellFormed) (hb : b.WellFormed)
    (hbound : a.magnitude * b.magnitude < 10 ^ 96) (hne : a.magnitude * b.magnitude ≠ 0) :
    a.clipLsb < a.clipTop ∧ b.clipLsb < b.clipTop ∧ a.clipTop + b.clipTop ≤ 97 := by
  have hclip := clipped ha.lsb_le
  have hclip' := clipped hb.lsb_le
  have hlt := hclip.lt_iff.2 (Nat.ne_zero_of_mul_ne_zero_left hne)
  have hlt' := hclip'.lt_iff.2 (Nat.ne_zero_of_mul_ne_zero_right hne)
  refine ⟨hlt, hlt', ?_⟩
  have hpow : 10 ^ (a.clipTop - 1 + (b.clipTop - 1)) < 10 ^ 96 := by
    rw [pow_add]
    exact (Nat.mul_le_mul (hclip.pow_le_magnitude hlt) (hclip'.pow_le_magnitude hlt')).trans_lt
      hbound
  have hlt_places := (Nat.pow_lt_pow_iff_right (by decide : 1 < 10)).1 hpow
  omega

/-- The range stays in order if `b` is not 0 and the last digits are not too high up. -/
theorem multiply_spec (ha : a.WellFormed) (hb : b.WellFormed)
    (hbound : a.magnitude * b.magnitude + 10 ^ 64 < 10 ^ 96)
    (hhigh : 33 ≤ a.clipTop + b.clipTop) :
    (a.multiply b).magnitude = (a.magnitude * b.magnitude + 5 * 10 ^ 31) / 10 ^ 32 ∧
      (b.clipLsb < b.clipTop → a.clipLsb + b.clipLsb ≤ 96 → (a.multiply b).WellFormed) := by
  have hclip := clipped ha.lsb_le
  have hclip' := clipped hb.lsb_le
  unfold multiply clipMsb
  dsimp only
  rw [if_neg (by omega)]
  generalize hH : (if (64 : ℤ) ≤ (a.clipTop : ℤ) - 1 + (b.clipTop - 1) - 32 then 63
    else ((a.clipTop : ℤ) - 1 + (b.clipTop - 1) - 32).toNat) = hight
  generalize htemp : addAllProducts a.digits b.digits (b.clipTop - b.clipLsb) b.clipLsb
      (a.clipTop - a.clipLsb) a.clipLsb (fun _ => 0) = temp
  obtain ⟨hproduct, hbelow, habove⟩ := products_spec ha hb htemp.symm
  have hle63 : hight ≤ 63 := by
    split at hH <;> omega
  have horder : b.clipLsb < b.clipTop → a.clipLsb + b.clipLsb ≤ 96 →
      a.clipLsb + b.clipLsb - 32 ≤ hight + 1 := by
    intro hlt hlow
    have hle := hclip.le_top
    split at hH <;> omega
  have hwindow : a.magnitude * b.magnitude ≠ 0 →
      a.clipLsb + b.clipLsb - 32 ≤ hight + 1 ∧ a.clipTop + b.clipTop ≤ hight + 34 := by
    intro hne
    obtain ⟨hlt, hlt', hplaces⟩ := clipTop_add_le ha hb (by omega) hne
    split at hH <;> omega
  generalize hlow : a.clipLsb + b.clipLsb = low at hwindow hbelow horder ⊢
  have hcarry := roundCarry_eq hbelow
  generalize (ripple (roundBody temp) (32 - low) low temp 0).2 = carry at hcarry ⊢
  have hparts : value 10 temp 0 32 + value 10 temp 32 128 = a.magnitude * b.magnitude := by
    rw [value_append (by decide) (by decide), hproduct]
  -- above place 32 the first carry has no weight
  have hweight : carry * 10 ^ (low - 32) = carry := by
    rcases Nat.lt_or_ge 32 low with hgt | hge
    · have hzero : value 10 temp 0 32 = 0 := value_eq_zero fun k _ hk => hbelow k (by omega)
      rw [hzero] at hcarry
      have hnone : carry = 0 := hcarry
      rw [hnone, Nat.zero_mul]
    · rw [Nat.sub_eq_zero_of_le hge, pow_zero, Nat.mul_one]
  by_cases hle : low - 32 ≤ hight + 1
  · obtain ⟨hcopied, hdigits⟩ := copy_spec temp a.digits carry hle rfl
    generalize ripple (copyBody temp) (hight + 1 - (low - 32)) (low - 32) a.digits carry = copied
      at hcopied hdigits ⊢
    have htail : value 10 temp (low - 32 + 32) (hight + 33) = value 10 temp 32 128 := by
      by_cases hzero : a.magnitude * b.magnitude = 0
      · have hall : ∀ k < 128, temp k = 0 := fun k hk =>
          eq_zero_of_value (by decide) (hproduct.trans hzero) (Nat.zero_le k) hk
        rw [value_eq_zero fun k _ hk => hall k (by omega), value_eq_zero fun k _ hk => hall k hk]
      · obtain ⟨-, htop⟩ := hwindow hzero
        refine (value_widen (by omega) (by omega) fun k _ _ hout => ?_).symm
        rcases hout with hlt | hge
        · exact hbelow k (by omega)
        · exact habove k (by omega)
    rw [hweight, htail] at hcopied
    have htotal : value 10 copied.1 (low - 32) (hight + 1) + copied.2 * 10 ^ (hight + 1) =
        (a.magnitude * b.magnitude + 5 * 10 ^ 31) / 10 ^ 32 := by
      omega
    have hlast : copied.2 < 10 ^ (63 - hight) := by
      refine Nat.lt_of_mul_lt_mul_right (a := 10 ^ (hight + 1)) ?_
      rw [← pow_add, show 63 - hight + (hight + 1) = 64 by omega]
      omega
    obtain ⟨hvalue, hle', hmsb, hdigits'⟩ :=
      appendCarry_spec _ hight (low - 32) _ _ hle hlast hdigits
    exact ⟨hvalue.trans htotal, fun _ _ => ⟨hdigits', hmsb.trans (by omega),
      hle.trans (Nat.succ_le_succ hle')⟩⟩
  · have hzero : a.magnitude * b.magnitude = 0 := by
      by_contra hne
      exact hle (hwindow hne).1
    have hnone : carry = 0 := by
      have hvalue : value 10 temp 0 32 = 0 := by omega
      rw [hvalue] at hcarry
      exact hcarry
    refine ⟨?_, fun hlt hlow' => absurd (horder hlt hlow') hle⟩
    rw [hnone, Nat.sub_eq_zero_of_le (by omega : hight + 1 ≤ low - 32), ripple, appendCarry_zero,
      hzero, magnitude, value_of_le (by dsimp only; omega)]
    rfl

theorem multiply_magnitude (ha : a.WellFormed) (hb : b.WellFormed)
    (hbound : a.magnitude * b.magnitude + 10 ^ 64 < 10 ^ 96)
    (hhigh : 33 ≤ a.clipTop + b.clipTop) :
    (a.multiply b).magnitude = (a.magnitude * b.magnitude + 5 * 10 ^ 31) / 10 ^ 32 :=
  (multiply_spec ha hb hbound hhigh).1

/-! ### The rounded product -/

theorem multiply_negative (hhigh : 33 ≤ a.clipTop + b.clipTop) :
    (a.multiply b).negative = xor a.negative b.negative := by
  unfold multiply clipMsb
  dsimp only
  rw [if_neg (by omega)]

theorem multiply_setZero (hlow : a.clipTop + b.clipTop < 33) : a.multiply b = a.setZero := by
  unfold multiply clipMsb
  dsimp only
  rw [if_pos (by omega)]

theorem wellFormed_setZero (d : Decimal) : d.setZero.WellFormed := by
  refine ⟨fun i hlo hhi => ?_, (by decide : 32 ≤ 63), (by decide : 32 ≤ 32 + 1)⟩
  obtain rfl : i = 32 := le_antisymm hhi hlo
  exact (Function.update_self 32 0 d.digits).trans_le (Nat.zero_le 9)

theorem val_setZero (d : Decimal) : d.setZero.val = 0 := by
  rw [val_eq_zero_iff, magnitude, value_eq_zero]
  intro i hlo hhi
  obtain rfl : i = 32 := le_antisymm (Nat.le_of_lt_succ hhi) hlo
  exact Function.update_self 32 0 d.digits

theorem abs_val_mul (a b : Decimal) :
    |a.val * b.val| = (a.magnitude * b.magnitude : ℕ) / 10 ^ 64 := by
  rw [abs_mul, abs_val, abs_val]
  push_cast
  ring

theorem val_mul_neg_iff (hne : a.magnitude ≠ 0) (hne' : b.magnitude ≠ 0) :
    a.val * b.val < 0 ↔ xor a.negative b.negative = true := by
  have hpos : (0 : ℚ) < a.magnitude / 10 ^ 32 * (b.magnitude / 10 ^ 32) := by
    have ha : (0 : ℚ) < a.magnitude := by exact_mod_cast Nat.pos_of_ne_zero hne
    have hb : (0 : ℚ) < b.magnitude := by exact_mod_cast Nat.pos_of_ne_zero hne'
    positivity
  have hval : a.val * b.val = (if xor a.negative b.negative then -1 else 1) *
      (a.magnitude / 10 ^ 32 * (b.magnitude / 10 ^ 32)) := by
    rw [val_eq, val_eq]
    cases a.negative <;> cases b.negative <;> simp
  rw [hval]
  split_ifs with hsign
  · exact iff_of_true (by linarith) hsign
  · exact iff_of_false (by linarith) hsign

/-- The magnitude of the product in units of `10 ^ (-32)`, rounded. -/
theorem halfUp_product (a b : Decimal) :
    Rounding.halfUp (|a.val * b.val| * 10 ^ (32 : ℤ)) =
      ((a.magnitude * b.magnitude + 5 * 10 ^ 31) / 10 ^ 32 : ℕ) := by
  have hunits : |a.val * b.val| * 10 ^ (32 : ℤ) =
      (a.magnitude * b.magnitude : ℕ) / (10 ^ 32 : ℕ) := by
    rw [abs_val_mul]
    push_cast
    field_simp
    norm_num
  rw [hunits, Rounding.halfUp_div _ (by positivity)]
  congr 1
  omega

theorem product_lt (hbound : |a.val * b.val| < 10 ^ 32 - 1) :
    a.magnitude * b.magnitude + 10 ^ 64 < 10 ^ 96 := by
  rw [abs_val_mul, div_lt_iff₀ (by positivity), sub_mul, lt_sub_iff_add_lt] at hbound
  have hpow : (10 : ℚ) ^ 32 * 10 ^ 64 = (10 ^ 96 : ℕ) := by norm_num
  have hone : (1 : ℚ) * 10 ^ 64 = (10 ^ 64 : ℕ) := by norm_num
  rw [hpow, hone] at hbound
  exact_mod_cast hbound

theorem multiply_val_iff (ha : a.WellFormed) (hb : b.WellFormed)
    (hbound : |a.val * b.val| < 10 ^ 32 - 1) :
    (a.multiply b).val = Rounding.roundAt 32 (a.val * b.val) ↔
      (a.clipTop + b.clipTop < 33 → 2 * (a.magnitude * b.magnitude) < 10 ^ 32) := by
  have hround := halfUp_product a b
  have hsize := product_lt hbound
  rw [Rounding.roundAt, val_eq_atPlace_iff ?_ (by rw [hround]; exact Int.natCast_nonneg _),
    hround]
  · have hpow : ((10 : ℚ) ^ (32 : ℤ)) = 10 ^ 32 := by norm_num
    rw [hpow, div_left_inj' (by positivity), Int.cast_natCast, Nat.cast_inj]
    rcases Nat.lt_or_ge (a.clipTop + b.clipTop) 33 with hlow | hhigh
    · rw [multiply_setZero hlow, val_eq_zero_iff.1 (val_setZero a)]
      constructor
      · intro hzero _
        omega
      · intro hhalf
        have := hhalf hlow
        omega
    · rw [multiply_magnitude ha hb hsize hhigh]
      exact iff_of_true rfl fun hlow => absurd hhigh (Nat.not_le.2 hlow)
  · intro hne
    rcases Nat.lt_or_ge (a.clipTop + b.clipTop) 33 with hlow | hhigh
    · rw [multiply_setZero hlow, val_eq_zero_iff.1 (val_setZero a)] at hne
      exact absurd rfl hne
    · have hne' : a.magnitude * b.magnitude ≠ 0 := by
        intro hzero
        rw [multiply_magnitude ha hb hsize hhigh, hzero] at hne
        exact hne rfl
      rw [multiply_negative hhigh, val_mul_neg_iff (Nat.ne_zero_of_mul_ne_zero_left hne')
        (Nat.ne_zero_of_mul_ne_zero_right hne')]

theorem multiply_wellFormed (ha : a.WellFormed) (hb : b.WellFormed)
    (hbound : |a.val * b.val| < 10 ^ 32 - 1) (hne : b.clipLsb < b.clipTop)
    (hlow : a.clipLsb + b.clipLsb ≤ 96) : (a.multiply b).WellFormed := by
  rcases Nat.lt_or_ge (a.clipTop + b.clipTop) 33 with hsmall | hhigh
  · rw [multiply_setZero hsmall]
    exact wellFormed_setZero a
  · exact (multiply_spec ha hb (product_lt hbound) hhigh).2 hne hlow

/-- A product that ends at the last place is exact. -/
theorem multiply_exact (ha : a.WellFormed) (hb : b.WellFormed)
    (hbound : |a.val * b.val| < 10 ^ 32 - 1) {n : ℤ} (hn : a.val * b.val = n / 10 ^ 32) :
    (a.multiply b).val = a.val * b.val := by
  have hexact : Rounding.roundAt 32 (a.val * b.val) = a.val * b.val := by
    refine Rounding.atPlace_of_eq (fun n => Rounding.halfUp_intCast n) (n := n) ?_
    exact_mod_cast hn
  rw [(multiply_val_iff ha hb hbound).2, hexact]
  -- a product below the last place is 0
  intro hlow
  have hlt : a.magnitude * b.magnitude < 10 ^ 32 := by
    have ha' := (clipped ha.lsb_le).magnitude_lt ha
    have hb' := (clipped hb.lsb_le).magnitude_lt hb
    calc a.magnitude * b.magnitude < 10 ^ a.clipTop * 10 ^ b.clipTop :=
          Nat.mul_lt_mul'' ha' hb'
      _ = 10 ^ (a.clipTop + b.clipTop) := (pow_add _ _ _).symm
      _ ≤ 10 ^ 32 := Nat.pow_le_pow_right (by decide) (Nat.le_of_lt_succ hlow)
  have hunits : (a.magnitude * b.magnitude : ℤ) = n.natAbs * 10 ^ 32 := by
    have habs := abs_val_mul a b
    rw [hn, abs_div, abs_of_pos (by positivity : (0 : ℚ) < 10 ^ 32),
      div_eq_div_iff (by positivity) (by positivity), ← Int.cast_abs, Int.abs_eq_natAbs] at habs
    have hscale : ((n.natAbs : ℤ) : ℚ) * 10 ^ 32 = (a.magnitude * b.magnitude : ℕ) := by
      have hpow : (10 : ℚ) ^ 64 = 10 ^ 32 * 10 ^ 32 := by norm_num
      rw [hpow, ← mul_assoc] at habs
      exact mul_right_cancel₀ (by positivity) habs
    exact_mod_cast hscale.symm
  have hzero : a.magnitude * b.magnitude = 0 := by
    have hunits' : a.magnitude * b.magnitude = n.natAbs * 10 ^ 32 := by exact_mod_cast hunits
    omega
  omega

/-- The product is rounded at the last place, so that it is exact if it ends there. -/
structure Multiplies (a b : Decimal) : Prop where
  rounded : (a.multiply b).val = Rounding.roundAt 32 (a.val * b.val)
  exact : ∀ n : ℤ, a.val * b.val = n / 10 ^ 32 → (a.multiply b).val = a.val * b.val

/-- A product is correctly rounded unless its leading digits are too far below for their sum to be
looked at and it still is half a unit. -/
theorem multiplies_iff (ha : a.WellFormed) (hb : b.WellFormed)
    (hbound : |a.val * b.val| < 10 ^ 32 - 1) :
    a.Multiplies b ↔
      (a.clipTop + b.clipTop < 33 → 2 * (a.magnitude * b.magnitude) < 10 ^ 32) := by
  have hrounded := multiply_val_iff ha hb hbound
  exact ⟨fun h => hrounded.1 h.rounded, fun h => ⟨hrounded.2 h, fun _ hn =>
    multiply_exact ha hb hbound hn⟩⟩

/-- 7 by -7. -/
theorem multiplies_seven : |(ofDigit 7 false).val * (ofDigit 7 true).val| < 10 ^ 32 - 1 ∧
    ((ofDigit 7 false).Multiplies (ofDigit 7 true) ↔
      ((ofDigit 7 false).clipTop + (ofDigit 7 true).clipTop < 33 →
        2 * ((ofDigit 7 false).magnitude * (ofDigit 7 true).magnitude) < 10 ^ 32)) := by
  have hbound : |(ofDigit 7 false).val * (ofDigit 7 true).val| < 10 ^ 32 - 1 := by
    rw [abs_val_mul]
    rw [magnitude_ofDigit, magnitude_ofDigit]
    norm_num
  exact ⟨hbound, multiplies_iff (wellFormed_ofDigit (by decide) false)
    (wellFormed_ofDigit (by decide) true) hbound⟩

/-- The square of `9 * 10 ^ (-17)` is more than half a unit and becomes 0. -/
theorem multiply_loses_half : (digitAt 9 15).WellFormed ∧
    |(digitAt 9 15).val * (digitAt 9 15).val| < 10 ^ 32 - 1 ∧
    ((digitAt 9 15).multiply (digitAt 9 15)).val = 0 ∧
    Rounding.roundAt 32 ((digitAt 9 15).val * (digitAt 9 15).val) = 1 / 10 ^ 32 ∧
    ¬ (digitAt 9 15).Multiplies (digitAt 9 15) := by
  have hzero : ((digitAt 9 15).multiply (digitAt 9 15)).val = 0 := by
    rw [multiply_setZero (by decide), val_setZero]
  have hround : Rounding.roundAt 32 ((digitAt 9 15).val * (digitAt 9 15).val) = 1 / 10 ^ 32 := by
    have hunits := halfUp_product (digitAt 9 15) (digitAt 9 15)
    rw [abs_of_nonneg (mul_self_nonneg _), magnitude_digitAt] at hunits
    rw [Rounding.roundAt, Rounding.atPlace_of_nonneg (mul_self_nonneg _), hunits]
    norm_num
  refine ⟨wellFormed_digitAt (by decide) (by decide), ?_, hzero, hround, fun h => ?_⟩
  · rw [abs_val_mul, magnitude_digitAt]
    norm_num
  · have hrounded := h.rounded
    rw [hzero, hround] at hrounded
    norm_num at hrounded

end Decimal

end Nbcd
