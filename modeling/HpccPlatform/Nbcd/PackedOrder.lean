import HpccPlatform.Nbcd.Packed
import HpccPlatform.Nbcd.Valid

/-!
# The order of decimals

`compare` is the order of the numbers.  `decCompareDecimal` compares packed decimals without reading
them: the bytes decide, from the left, unless the signs differ, and then only numbers that are 0 are
equal.
-/

namespace Nbcd

open DigitWindow Nibbles
open Buffer (forall_byte)

/-- The difference of the first bytes that differ, 0 if none do. -/
def firstDifference : List UInt8 → List UInt8 → ℤ
  | l :: left, r :: right =>
    if (l.toNat : ℤ) - r.toNat ≠ 0 then l.toNat - r.toNat else firstDifference left right
  | _, _ => 0

def decCompareDecimal (bytes : ℕ) (left right : List UInt8) : ℤ :=
  let l := left.getD (bytes - 1) 0
  let r := right.getD (bytes - 1) 0
  let signLeft := low l
  let signRight := low r
  if signMap signLeft ≠ signMap signRight then
    let res := signMap signLeft - signMap signRight
    -- could be +0 and -0
    if l &&& 0xf0 ≠ 0 ∨ r &&& 0xf0 ≠ 0 then res
    else if (List.range (bytes - 1)).any fun i => left.getD i 0 ≠ 0 || right.getD i 0 ≠ 0 then res
    else 0
  else
    let numbersAreNegative : Bool := signMap signLeft = -1
    let res := firstDifference (left.take (bytes - 1)) (right.take (bytes - 1))
    let res := if res ≠ 0 then res else ((l &&& 0xf0).toNat : ℤ) - (r &&& 0xf0).toNat
    if numbersAreNegative then -res else res

/-! ### The first difference -/

theorem toNat_and_high (b : UInt8) : (b &&& 0xf0).toNat = high b * 16 := by
  refine forall_byte b ?_
  decide +kernel

/-- No byte differs, or there is a first one that does. -/
theorem firstDifference_spec {left right : List UInt8} (hlength : left.length = right.length) :
    (firstDifference left right = 0 ∧ left = right) ∨
      ∃ k < left.length, (∀ i < k, left.getD i 0 = right.getD i 0) ∧
        left.getD k 0 ≠ right.getD k 0 ∧
        firstDifference left right = (left.getD k 0).toNat - (right.getD k 0).toNat := by
  induction left generalizing right with
  | nil => exact Or.inl ⟨rfl, (List.length_eq_zero_iff.1 hlength.symm).symm⟩
  | cons l left ih =>
    obtain ⟨r, right, rfl⟩ := List.exists_cons_of_length_pos (l := right) (by
      rw [← hlength]
      exact Nat.succ_pos _)
    unfold firstDifference
    by_cases hne : (l.toNat : ℤ) - r.toNat ≠ 0
    · rw [if_pos hne]
      refine Or.inr ⟨0, Nat.succ_pos _, fun i hi => absurd hi (Nat.not_lt_zero i), ?_, rfl⟩
      intro heq
      have hbyte : l = r := heq
      exact hne (by rw [hbyte, Int.sub_self])
    · rw [if_neg hne]
      have heq : l = r := UInt8.toNat_inj.1 (by omega)
      rcases ih (Nat.succ.inj hlength) with ⟨hzero, hsame⟩ | ⟨k, hk, hbelow, hdiff, hresult⟩
      · exact Or.inl ⟨hzero, by rw [heq, hsame]⟩
      · refine Or.inr ⟨k + 1, Nat.succ_lt_succ hk, fun i hi => ?_, hdiff, hresult⟩
        cases i with
        | zero => exact heq
        | succ i => exact hbelow i (Nat.lt_of_succ_lt_succ hi)

/-- The first half byte that differs, and the order of the bytes by it. -/
theorem nibble_of_byte {left right : List UInt8} {k : ℕ}
    (hbelow : ∀ i < k, left.getD i 0 = right.getD i 0)
    (hlt : (left.getD k 0).toNat < (right.getD k 0).toNat) :
    ∃ j, (j = 2 * k ∨ j = 2 * k + 1) ∧ (∀ i < j, nibble left i = nibble right i) ∧
      nibble left j < nibble right j := by
  have hsame : ∀ i < 2 * k, nibble left i = nibble right i := by
    intro i hi
    unfold nibble
    rw [hbelow (i / 2) (by omega)]
  have heven : ∀ data, nibble data (2 * k) = high (data.getD k 0) := fun data => by
    unfold nibble
    rw [if_pos (by omega), Nat.mul_div_cancel_left k Nat.two_pos]
  have hodd : ∀ data, nibble data (2 * k + 1) = low (data.getD k 0) := fun data => by
    unfold nibble
    rw [if_neg (by omega), show (2 * k + 1) / 2 = k by omega]
  rcases lt_iff.1 hlt with hhigh | ⟨hhigh, hlow⟩
  · exact ⟨2 * k, Or.inl rfl, hsame, by rw [heven, heven]; exact hhigh⟩
  · refine ⟨2 * k + 1, Or.inr rfl, fun i hi => ?_, by rw [hodd, hodd]; exact hlow⟩
    rcases Nat.lt_or_ge i (2 * k) with hlt | hge
    · exact hsame i hlt
    · rw [show i = 2 * k by omega, heven, heven, hhigh]

/-! ### The numbers that are read -/

/-- A packed decimal that fits, with the number that is read of it. -/
structure Reads (n precision : ℕ) (data : List UInt8) (r : Decimal) : Prop where
  valid : ValidPacked true n data
  lsb : r.lsb = 32 - precision
  msb : r.msb = min 63 (2 * (n / 2) + 32 - precision)
  negative : r.negative = true ↔ signMap (nibble data (2 * (n / 2) + 1)) = -1
  digit : ∀ i, 32 - precision ≤ i → i ≤ r.msb →
    r.digits i = nibble data (2 * (n / 2) + 32 - precision - i)

namespace Reads

variable {n precision : ℕ} {left right : List UInt8} {d e : Decimal}

theorem of_decValid {data : List UInt8} (d : Decimal) (hpos : 1 ≤ n) (hprecision : precision ≤ 32)
    (hfits : n ≤ precision + 32) (hlength : data.length = n / 2 + 1)
    (hvalid : decValid true n data = true) :
    Reads n precision data (d.setDecimal (n / 2 + 1) precision data) := by
  obtain ⟨hlsb, hmsb, hnegative, hdigits⟩ :=
    d.setDecimal_spec hlength (Nat.succ_pos _) hprecision (by omega)
  have htop : 2 * (n / 2 + 1) + 30 - precision = 2 * (n / 2) + 32 - precision := by omega
  rw [htop] at hmsb hdigits
  exact ⟨(decValid_signed hpos (by omega) hlength).1 hvalid, hlsb, hmsb, hnegative,
    fun i hlo hhi => hdigits i hlo (hmsb ▸ hhi)⟩

theorem digitNibbles_eq (n : ℕ) : digitNibbles true n = 2 * (n / 2) + 1 := by
  unfold digitNibbles requiredLength
  rw [if_pos rfl, if_pos rfl]
  omega

theorem proper (h : Reads n precision left d) : d.Proper := by
  intro i hlo hhi
  rw [h.lsb] at hlo
  rw [h.digit i hlo hhi]
  refine h.valid.digit _ ?_
  rw [digitNibbles_eq]
  omega

theorem sign_eq (h : Reads n precision left d) :
    signMap (nibble left (2 * (n / 2) + 1)) = if d.negative then -1 else 1 := by
  have hsign := h.valid.sign rfl
  rw [digitNibbles_eq] at hsign
  have hnegative := h.negative
  rcases hsign with hC | hD | hF
  · rw [hC] at hnegative ⊢
    rw [if_neg fun hneg => absurd (hnegative.1 hneg) (by decide)]
    rfl
  · rw [hD] at hnegative ⊢
    rw [if_pos (hnegative.2 rfl)]
    rfl
  · rw [hF] at hnegative ⊢
    rw [if_neg fun hneg => absurd (hnegative.1 hneg) (by decide)]
    rfl

/-- The first half byte that differs decides. -/
theorem magnitude_lt (h : Reads n precision left d) (h' : Reads n precision right e)
    (hprecision : precision ≤ 32) (hfits : n ≤ precision + 32) {j : ℕ} (hj : j ≤ 2 * (n / 2))
    (hbelow : ∀ i < j, nibble left i = nibble right i) (hlt : nibble left j < nibble right j) :
    d.magnitude < e.magnitude := by
  have hplace : 2 * (n / 2) + 32 - precision - j < min 63 (2 * (n / 2) + 32 - precision) + 1 := by
    by_contra hnot
    -- the digit above the highest place is not used
    have hunused := h'.valid.unused (by rw [digitNibbles_eq]; omega)
    have hzero : j = 0 := by omega
    rw [hzero] at hlt
    omega
  have hdigit := h.digit (2 * (n / 2) + 32 - precision - j) (by omega) (by rw [h.msb]; omega)
  have hdigit' := h'.digit (2 * (n / 2) + 32 - precision - j) (by omega) (by rw [h'.msb]; omega)
  have hj' : 2 * (n / 2) + 32 - precision - (2 * (n / 2) + 32 - precision - j) = j := by omega
  rw [hj'] at hdigit hdigit'
  rw [Decimal.magnitude, Decimal.magnitude, h.lsb, h'.lsb, h.msb, h'.msb]
  refine Decimal.value_lt_of_digit (by omega) (by omega) hplace (fun k hlo hhi => ?_)
    (by rw [hdigit, hdigit']; exact hlt) fun k hlo hhi => ?_
  · have hnine := h.proper k (h.lsb ▸ hlo) (by rw [h.msb]; omega)
    omega
  · rw [h.digit k (by omega) (by rw [h.msb]; omega), h'.digit k (by omega) (by rw [h'.msb]; omega)]
    exact hbelow _ (by omega)

theorem magnitude_congr (h : Reads n precision left d) (h' : Reads n precision right e)
    (hsame : ∀ j ≤ 2 * (n / 2), nibble left j = nibble right j) : d.magnitude = e.magnitude := by
  rw [Decimal.magnitude, Decimal.magnitude, h.lsb, h'.lsb, h.msb, h'.msb]
  refine value_congr fun i hlo hhi => ?_
  rw [h.digit i hlo (by rw [h.msb]; omega), h'.digit i hlo (by rw [h'.msb]; omega)]
  exact hsame _ (by omega)

theorem magnitude_eq_zero_iff (h : Reads n precision left d) (hfits : n ≤ precision + 32)
    (hprecision : precision ≤ 32) : d.magnitude = 0 ↔ ∀ j ≤ 2 * (n / 2), nibble left j = 0 := by
  rw [Decimal.magnitude, h.lsb]
  constructor
  · intro hzero j hj
    by_cases hplace : 2 * (n / 2) + 32 - precision - j ≤ d.msb
    · have hdigit := eq_zero_of_value (by decide) hzero
        (by omega : 32 - precision ≤ 2 * (n / 2) + 32 - precision - j) (Nat.lt_succ_of_le hplace)
      rw [h.digit _ (by omega) hplace] at hdigit
      rwa [show 2 * (n / 2) + 32 - precision - (2 * (n / 2) + 32 - precision - j) = j by omega]
        at hdigit
    · rw [h.msb] at hplace
      rw [show j = 0 by omega]
      exact h.valid.unused (by rw [digitNibbles_eq]; omega)
  · intro hzero
    refine value_eq_zero fun i hlo hhi => ?_
    rw [h.digit i hlo (Nat.le_of_lt_succ hhi)]
    exact hzero _ (by omega)

end Reads

/-! ### The order of the packed decimals -/

theorem compare_of_same_sign {d e : Decimal} (hd : d.Proper) (he : e.Proper)
    (hsign : d.negative = e.negative) :
    d.compare e = (if d.negative then -1 else 1) * Int.sign ((d.magnitude : ℤ) - e.magnitude) := by
  have hunits : ∀ m k : ℕ, (m : ℚ) / 10 ^ 32 < k / 10 ^ 32 ↔ m < k := fun m k => by
    rw [div_lt_div_iff_of_pos_right (by positivity), Nat.cast_lt]
  rw [Decimal.compare_eq hd he, Decimal.val_eq, Decimal.val_eq, ← hsign]
  rcases Nat.lt_trichotomy d.magnitude e.magnitude with hlt | heq | hgt
  · have hrat := (hunits _ _).2 hlt
    rw [Int.sign_eq_neg_one_of_neg (by omega)]
    split_ifs <;> first | rfl | linarith
  · rw [heq, if_neg (lt_irrefl _), if_pos rfl, Int.sub_self, Int.sign_zero, Int.mul_zero]
  · have hrat := (hunits _ _).2 hgt
    rw [Int.sign_eq_one_of_pos (by omega)]
    split_ifs <;> first | rfl | linarith

theorem compare_of_signs {d e : Decimal} (hd : d.Proper) (he : e.Proper)
    (hsign : d.negative ≠ e.negative) : d.compare e =
      if d.magnitude = 0 ∧ e.magnitude = 0 then 0 else if d.negative then -1 else 1 := by
  have hunits : ∀ m : ℕ, m ≠ 0 → (0 : ℚ) < (m : ℚ) / 10 ^ 32 := fun m hm => by
    have hpos : (0 : ℚ) < m := by exact_mod_cast Nat.pos_of_ne_zero hm
    positivity
  have hnonneg : ∀ m : ℕ, (0 : ℚ) ≤ (m : ℚ) / 10 ^ 32 := fun m => by positivity
  have hd' := hnonneg d.magnitude
  have he' := hnonneg e.magnitude
  have hflip : e.negative = !d.negative := Bool.eq_not_of_ne (Ne.symm hsign)
  rw [Decimal.compare_eq hd he]
  by_cases hzero : d.magnitude = 0 ∧ e.magnitude = 0
  · rw [if_pos hzero, Decimal.val_eq_zero_iff.2 hzero.1, Decimal.val_eq_zero_iff.2 hzero.2,
      if_neg (lt_irrefl _), if_pos rfl]
  · rw [if_neg hzero, Decimal.val_eq, Decimal.val_eq, hflip]
    have hsome : 0 < (d.magnitude : ℚ) / 10 ^ 32 + (e.magnitude : ℚ) / 10 ^ 32 := by
      rcases eq_or_ne d.magnitude 0 with hm | hm
      · have := hunits _ fun hm' => hzero ⟨hm, hm'⟩
        linarith
      · have := hunits _ hm
        linarith
    cases d.negative <;>
      simp only [Bool.not_true, Bool.not_false, Bool.false_eq_true, if_true, if_false] <;>
      split_ifs <;> first | rfl | linarith

theorem nibbles_zero_iff (data : List UInt8) (m : ℕ) :
    (∀ j ≤ 2 * m, nibble data j = 0) ↔ high (data.getD m 0) = 0 ∧ ∀ i < m, data.getD i 0 = 0 := by
  have hbyte : ∀ b : UInt8, b = 0 ↔ high b = 0 ∧ low b = 0 := fun b => ext_iff
  constructor
  · intro h
    refine ⟨?_, fun i hi => (hbyte _).2 ⟨?_, ?_⟩⟩
    · have hlast := h (2 * m) le_rfl
      rwa [nibble, if_pos (by omega), Nat.mul_div_cancel_left m Nat.two_pos] at hlast
    · have heven := h (2 * i) (by omega)
      rwa [nibble, if_pos (by omega), Nat.mul_div_cancel_left i Nat.two_pos] at heven
    · have hodd := h (2 * i + 1) (by omega)
      rwa [nibble, if_neg (by omega), show (2 * i + 1) / 2 = i by omega] at hodd
  · rintro ⟨hlast, hbytes⟩ j hj
    rcases Nat.lt_or_ge (j / 2) m with hlt | hge
    · unfold nibble
      rw [hbytes (j / 2) hlt]
      split <;> rfl
    · rw [nibble, if_pos (by omega), show j / 2 = m by omega, hlast]

/-- What the bytes before the sign say of the magnitudes. -/
theorem sign_difference {n precision : ℕ} {left right : List UInt8} {d e : Decimal}
    (h : Reads n precision left d) (h' : Reads n precision right e) (hprecision : precision ≤ 32)
    (hfits : n ≤ precision + 32) (hleft : left.length = n / 2 + 1)
    (hright : right.length = n / 2 + 1) {res : ℤ}
    (hres : res = if firstDifference (left.take (n / 2)) (right.take (n / 2)) ≠ 0
      then firstDifference (left.take (n / 2)) (right.take (n / 2))
      else ((left.getD (n / 2) 0 &&& 0xf0).toNat : ℤ) - (right.getD (n / 2) 0 &&& 0xf0).toNat) :
    res.sign = Int.sign ((d.magnitude : ℤ) - e.magnitude) := by
  have hget : ∀ data : List UInt8, ∀ i < n / 2, (data.take (n / 2)).getD i 0 = data.getD i 0 :=
    fun data i hi => by
      rw [List.getD_eq_getElem?_getD, List.getD_eq_getElem?_getD, List.getElem?_take_of_lt hi]
  have hlengths : (left.take (n / 2)).length = (right.take (n / 2)).length := by
    rw [List.length_take, List.length_take, hleft, hright]
  have hless : ∀ j ≤ 2 * (n / 2), (∀ i < j, nibble left i = nibble right i) →
      nibble left j < nibble right j → Int.sign ((d.magnitude : ℤ) - e.magnitude) = -1 :=
    fun j hj hbelow hlt => Int.sign_eq_neg_one_of_neg (by
      have := h.magnitude_lt h' hprecision hfits hj hbelow hlt
      omega)
  have hmore : ∀ j ≤ 2 * (n / 2), (∀ i < j, nibble right i = nibble left i) →
      nibble right j < nibble left j → Int.sign ((d.magnitude : ℤ) - e.magnitude) = 1 :=
    fun j hj hbelow hlt => Int.sign_eq_one_of_pos (by
      have := h'.magnitude_lt h hprecision hfits hj hbelow hlt
      omega)
  rcases firstDifference_spec hlengths with ⟨hzero, htake⟩ | ⟨k, hk, hbelow, hdiff, hresult⟩
  · -- only the digit beside the sign may differ
    rw [if_neg (not_not.2 hzero), toNat_and_high, toNat_and_high] at hres
    have hbytes : ∀ i < n / 2, left.getD i 0 = right.getD i 0 := fun i hi => by
      rw [← hget left i hi, ← hget right i hi, htake]
    have hnibbles : ∀ j < 2 * (n / 2), nibble left j = nibble right j := fun j hj => by
      unfold nibble
      rw [hbytes (j / 2) (by omega)]
    have hlast : ∀ data, nibble data (2 * (n / 2)) = high (data.getD (n / 2) 0) := fun data => by
      rw [nibble, if_pos (by omega), Nat.mul_div_cancel_left _ Nat.two_pos]
    rcases Nat.lt_trichotomy (high (left.getD (n / 2) 0)) (high (right.getD (n / 2) 0)) with
      hlt | heq | hgt
    · rw [hless (2 * (n / 2)) le_rfl hnibbles (by rw [hlast, hlast]; exact hlt), hres]
      exact Int.sign_eq_neg_one_of_neg (by omega)
    · have hmagnitude : d.magnitude = e.magnitude := h.magnitude_congr h' fun j hj => by
        rcases hj.eq_or_lt with rfl | hlt
        · rw [hlast, hlast, heq]
        · exact hnibbles j hlt
      rw [hres, heq, hmagnitude, Int.sub_self, Int.sub_self]
    · rw [hmore (2 * (n / 2)) le_rfl (fun j hj => (hnibbles j hj).symm)
        (by rw [hlast, hlast]; exact hgt), hres]
      exact Int.sign_eq_one_of_pos (by omega)
  · rw [List.length_take, hleft] at hk
    have hk' : k < n / 2 := by omega
    have hbytes : ∀ i < k, left.getD i 0 = right.getD i 0 := fun i hi => by
      rw [← hget left i (by omega), ← hget right i (by omega), hbelow i hi]
    rw [hget left k hk', hget right k hk'] at hdiff hresult
    have hne : (left.getD k 0).toNat ≠ (right.getD k 0).toNat := fun heq =>
      hdiff (UInt8.toNat_inj.1 heq)
    rw [hresult, if_pos (by omega)] at hres
    rcases hne.lt_or_gt with hlt | hgt
    · obtain ⟨j, hj, hsame, hnibble⟩ := nibble_of_byte hbytes hlt
      rw [hless j (by omega) hsame hnibble, hres]
      exact Int.sign_eq_neg_one_of_neg (by omega)
    · obtain ⟨j, hj, hsame, hnibble⟩ := nibble_of_byte (fun i hi => (hbytes i hi).symm) hgt
      rw [hmore j (by omega) hsame hnibble, hres]
      exact Int.sign_eq_one_of_pos (by omega)

theorem sign_decCompareDecimal {n precision : ℕ} {left right : List UInt8} {d e : Decimal}
    (h : Reads n precision left d) (h' : Reads n precision right e) (hprecision : precision ≤ 32)
    (hfits : n ≤ precision + 32) (hleft : left.length = n / 2 + 1)
    (hright : right.length = n / 2 + 1) :
    Int.sign (decCompareDecimal (n / 2 + 1) left right) = d.compare e := by
  have hsign := h.sign_eq
  have hsign' := h'.sign_eq
  have hlow : ∀ data, nibble data (2 * (n / 2) + 1) = low (data.getD (n / 2) 0) := fun data => by
    rw [nibble, if_neg (by omega), show (2 * (n / 2) + 1) / 2 = n / 2 by omega]
  rw [hlow] at hsign hsign'
  unfold decCompareDecimal
  dsimp only
  rw [Nat.add_sub_cancel, hsign, hsign']
  by_cases hsame : d.negative = e.negative
  · have hnegative : ((if d.negative then (-1 : ℤ) else 1) = -1) ↔ d.negative = true := by
      cases d.negative <;> decide
    rw [← hsame, if_neg (not_not.2 rfl), compare_of_same_sign h.proper h'.proper hsame]
    simp only [hnegative, decide_eq_true_eq]
    generalize hres : (if firstDifference (left.take (n / 2)) (right.take (n / 2)) ≠ 0 then _ else _) =
      res
    have hdifference := sign_difference h h' hprecision hfits hleft hright hres.symm
    split_ifs
    · rw [Int.sign_neg, hdifference, Int.neg_one_mul]
    · rw [hdifference, Int.one_mul]
  · have hdiffer : (if d.negative then (-1 : ℤ) else 1) ≠ if e.negative then -1 else 1 := by
      revert hsame
      cases d.negative <;> cases e.negative <;> decide
    have hres : Int.sign ((if d.negative then (-1 : ℤ) else 1) - if e.negative then -1 else 1) =
        if d.negative then -1 else 1 := by
      revert hsame
      cases d.negative <;> cases e.negative <;> decide
    have hzero := (h.magnitude_eq_zero_iff hfits hprecision).trans (nibbles_zero_iff left (n / 2))
    have hzero' := (h'.magnitude_eq_zero_iff hfits hprecision).trans (nibbles_zero_iff right (n / 2))
    have hany : ((List.range (n / 2)).any fun i => left.getD i 0 ≠ 0 || right.getD i 0 ≠ 0) = true ↔
        ∃ i < n / 2, left.getD i 0 ≠ 0 ∨ right.getD i 0 ≠ 0 := by
      simp only [List.any_eq_true, List.mem_range, Bool.or_eq_true, decide_eq_true_eq]
    rw [if_pos hdiffer, compare_of_signs h.proper h'.proper hsame]
    by_cases hboth : d.magnitude = 0 ∧ e.magnitude = 0
    · obtain ⟨hhigh, hbytes⟩ := hzero.1 hboth.1
      obtain ⟨hhigh', hbytes'⟩ := hzero'.1 hboth.2
      rw [if_pos hboth, if_neg, if_neg, Int.sign_zero]
      · rw [hany]
        rintro ⟨i, hi, hne | hne⟩
        · exact hne (hbytes i hi)
        · exact hne (hbytes' i hi)
      · rw [and_high_ne_zero_iff, and_high_ne_zero_iff]
        exact fun hne => hne.elim (fun hl => hl hhigh) fun hr => hr hhigh'
    · rw [if_neg hboth]
      by_cases hhigh : left.getD (n / 2) 0 &&& 0xf0 ≠ 0 ∨ right.getD (n / 2) 0 &&& 0xf0 ≠ 0
      · rw [if_pos hhigh, hres]
      · rw [if_neg hhigh, if_pos, hres]
        rw [hany]
        by_contra hnone
        push Not at hnone
        rw [and_high_ne_zero_iff, and_high_ne_zero_iff, not_or, not_not, not_not] at hhigh
        exact hboth ⟨hzero.2 ⟨hhigh.1, fun i hi => (hnone i hi).1⟩,
          hzero'.2 ⟨hhigh.2, fun i hi => (hnone i hi).2⟩⟩

namespace Decimal

end Decimal

end Nbcd
