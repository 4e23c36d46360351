import Mathlib.Data.UInt

/-!
# Nibbles

The half bytes of a string of bytes, counted from the left, the high half of a byte before the low
one.
-/

namespace Nibbles

/-- `b >> 4` -/
def high (b : UInt8) : ℕ := b.toNat / 16

/-- `b & 0x0f` -/
def low (b : UInt8) : ℕ := b.toNat % 16

/-- `(high << 4) | low`, as a byte. -/
def pack (high low : ℕ) : UInt8 := (UInt8.ofNat high <<< 4) ||| UInt8.ofNat low

def nibble (bytes : List UInt8) (j : ℕ) : ℕ :=
  if j % 2 = 0 then high (bytes.getD (j / 2) 0) else low (bytes.getD (j / 2) 0)

/-- `n` bytes with the digits from place `top` down. -/
def packFrom (digits : ℤ → ℕ) : ℕ → ℤ → List UInt8
  | 0, _ => []
  | n + 1, top => pack (digits top) (digits (top - 1)) :: packFrom digits n (top - 2)

variable {digits digits' : ℤ → ℕ} {bytes : List UInt8} {top : ℤ} {m n : ℕ}

theorem high_lt (b : UInt8) : high b < 16 := by
  unfold high
  have := b.toNat_lt
  omega

theorem low_lt (b : UInt8) : low b < 16 := Nat.mod_lt _ (by decide)

theorem high_low (b : UInt8) : b.toNat = high b * 16 + low b := by
  unfold high low
  omega

theorem ext_iff {b c : UInt8} : b = c ↔ high b = high c ∧ low b = low c := by
  refine ⟨fun h => by rw [h]; exact ⟨rfl, rfl⟩, fun ⟨hhigh, hlow⟩ => UInt8.toNat_inj.1 ?_⟩
  rw [high_low b, high_low c, hhigh, hlow]

theorem lt_iff {b c : UInt8} :
    b.toNat < c.toNat ↔ high b < high c ∨ (high b = high c ∧ low b < low c) := by
  have hb := low_lt b
  have hc := low_lt c
  rw [high_low b, high_low c]
  omega

theorem toNat_pack {i j : ℕ} (hi : i < 16) (hj : j < 16) : (pack i j).toNat = i * 16 + j := by
  have hall : ∀ i : Fin 16, ∀ j : Fin 16, (pack i j).toNat = i * 16 + j := by decide
  exact hall ⟨i, hi⟩ ⟨j, hj⟩

theorem high_pack {i j : ℕ} (hi : i < 16) (hj : j < 16) : high (pack i j) = i := by
  rw [high, toNat_pack hi hj]
  omega

theorem low_pack {i j : ℕ} (hi : i < 16) (hj : j < 16) : low (pack i j) = j := by
  rw [low, toNat_pack hi hj]
  omega

@[simp] theorem length_packFrom (digits : ℤ → ℕ) (n : ℕ) (top : ℤ) :
    (packFrom digits n top).length = n := by
  induction n generalizing top with
  | zero => rfl
  | succ n ih => rw [packFrom, List.length_cons, ih]

theorem packFrom_add (digits : ℤ → ℕ) (m n : ℕ) (top : ℤ) :
    packFrom digits (m + n) top = packFrom digits m top ++ packFrom digits n (top - 2 * m) := by
  induction m generalizing top with
  | zero => simp [packFrom]
  | succ m ih =>
    have htop : top - 2 - 2 * (m : ℤ) = top - 2 * (m + 1 : ℕ) := by omega
    rw [Nat.succ_add, packFrom, packFrom, ih, htop, List.cons_append]

theorem packFrom_congr (h : ∀ i, top - 2 * n < i → i ≤ top → digits i = digits' i) :
    packFrom digits n top = packFrom digits' n top := by
  induction n generalizing top with
  | zero => rfl
  | succ n ih =>
    rw [packFrom, packFrom, h top (by omega) le_rfl, h (top - 1) (by omega) (by omega),
      ih fun i hlo hhi => h i (by push_cast; omega) (by omega)]

theorem nibble_cons_add_two (b : UInt8) (bytes : List UInt8) (j : ℕ) :
    nibble (b :: bytes) (j + 2) = nibble bytes j := by
  unfold nibble
  rw [Nat.add_mod_right, Nat.add_div_right j Nat.two_pos, List.getD_cons_succ]

theorem nibble_drop (bytes : List UInt8) (k j : ℕ) :
    nibble (bytes.drop k) j = nibble bytes (j + 2 * k) := by
  have hplace : (j + 2 * k) / 2 = k + j / 2 := by omega
  have hhalf : (j + 2 * k) % 2 = j % 2 := by omega
  unfold nibble
  rw [hplace, hhalf, List.getD_eq_getElem?_getD, List.getD_eq_getElem?_getD, List.getElem?_drop]

theorem nibble_take {j : ℕ} (hj : j < 2 * n) (bytes : List UInt8) :
    nibble (bytes.take n) j = nibble bytes j := by
  unfold nibble
  rw [List.getD_eq_getElem?_getD, List.getD_eq_getElem?_getD, List.getElem?_take_of_lt (by omega)]

/-- The digits read back. -/
theorem nibble_packFrom (hdigits : ∀ i, digits i < 16) {j : ℕ} (hj : j < 2 * n) :
    nibble (packFrom digits n top) j = digits (top - j) := by
  induction n generalizing top j with
  | zero => exact absurd hj (Nat.not_lt_zero j)
  | succ n ih =>
    rw [packFrom]
    match j with
    | 0 =>
      have htop : top - ((0 : ℕ) : ℤ) = top := by simp
      rw [htop]
      exact high_pack (hdigits _) (hdigits _)
    | 1 => exact low_pack (hdigits _) (hdigits _)
    | j + 2 =>
      have htop : top - 2 - (j : ℤ) = top - (j + 2 : ℕ) := by omega
      rw [nibble_cons_add_two, ih (by omega), htop]

theorem pack_or {i j : ℕ} (hi : i < 16) (hj : j < 16) : pack i 0 ||| UInt8.ofNat j = pack i j := by
  have hall : ∀ i : Fin 16, ∀ j : Fin 16, pack i 0 ||| UInt8.ofNat j = pack i j := by decide
  exact hall ⟨i, hi⟩ ⟨j, hj⟩

/-- The lowest digit, which is still 0, is put in. -/
theorem packFrom_modify {low : ℕ} (hlow : low < 16)
    (hdigits : ∀ i, digits i < 16) (hzero : digits (top - 2 * n - 1) = 0) :
    (packFrom digits (n + 1) top).modify n (· ||| UInt8.ofNat low) =
      packFrom (Function.update digits (top - 2 * n - 1) low) (n + 1) top := by
  induction n generalizing top with
  | zero =>
    have hplace : top - 2 * ((0 : ℕ) : ℤ) - 1 = top - 1 := by omega
    rw [hplace] at hzero ⊢
    rw [packFrom, packFrom, packFrom, packFrom, Function.update_of_ne (by omega),
      Function.update_self, hzero, List.modify_zero_cons, pack_or (hdigits top) hlow]
  | succ n ih =>
    have hplace : top - 2 * ((n + 1 : ℕ) : ℤ) - 1 = top - 2 - 2 * n - 1 := by omega
    rw [hplace] at hzero ⊢
    rw [packFrom, List.modify_succ_cons, ih hzero]
    conv_rhs => rw [packFrom, Function.update_of_ne (by omega), Function.update_of_ne (by omega)]

/-! ### Storing nibbles as digits -/

/-- The bytes are stored from place `cur` down, two digits each. -/
def storeBytes : (ℕ → ℕ) → ℕ → List UInt8 → ℕ → ℕ
  | digits, _, [] => digits
  | digits, cur, b :: bytes =>
    storeBytes (Function.update (Function.update digits cur (high b)) (cur - 1) (low b)) (cur - 2)
      bytes

theorem storeBytes_above {digits : ℕ → ℕ} {cur i : ℕ} (hi : cur < i) :
    storeBytes digits cur bytes i = digits i := by
  induction bytes generalizing digits cur with
  | nil => rfl
  | cons b bytes ih =>
    rw [storeBytes, ih (by omega), Function.update_of_ne (by omega), Function.update_of_ne (by omega)]

theorem storeBytes_inside {digits : ℕ → ℕ} {cur j : ℕ} (hroom : 2 * bytes.length ≤ cur + 1)
    (hj : j < 2 * bytes.length) : storeBytes digits cur bytes (cur - j) = nibble bytes j := by
  induction bytes generalizing digits cur j with
  | nil => exact absurd hj (Nat.not_lt_zero j)
  | cons b bytes ih =>
    rw [List.length_cons] at hroom hj
    rw [storeBytes]
    match j with
    | 0 =>
      rw [Nat.sub_zero, storeBytes_above (by omega), Function.update_of_ne (by omega),
        Function.update_self]
      rfl
    | 1 =>
      rcases Nat.lt_or_ge 1 cur with hlt | hge
      · rw [storeBytes_above (by omega), Function.update_self]
        rfl
      · -- nothing is left below
        have hnil : bytes = [] := List.eq_nil_of_length_eq_zero (by omega)
        rw [hnil, storeBytes, Function.update_self]
        rfl
    | j + 2 =>
      have hplace : cur - (j + 2) = cur - 2 - j := by omega
      rw [nibble_cons_add_two, hplace]
      exact ih (by omega) (by omega)

end Nibbles
