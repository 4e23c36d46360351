import Mathlib.Tactic

/-!
# Shift registers and the remainders of byte strings

A register of `w` bits holds a polynomial over the field of two elements with its lowest power in
the highest bit, and one `shift` multiplies it by the indeterminate modulo `poly`.  A shift is
linear for `^^^`, so the remainder of a byte string (`feed` for every byte) splits into the part
of the seed, shifted past the string, and the part of the string itself: `feedAll_xor`.  That
part of the seed is also a product: `multiply_shift` says that the usual multiplication loop by
the register that holds the `k`-th power shifts `k` times.
-/

namespace ShiftRegister

variable {w : ℕ} {poly : BitVec w}

/-- One shift of the register. -/
def shift (poly y : BitVec w) : BitVec w :=
  if y.getLsbD 0 then (y >>> 1) ^^^ poly else y >>> 1

theorem shift_zero : shift poly 0#w = 0#w := by
  unfold shift
  simp

theorem shift_xor (x y : BitVec w) : shift poly (x ^^^ y) = shift poly x ^^^ shift poly y := by
  unfold shift
  rw [BitVec.getLsbD_xor, BitVec.ushiftRight_xor_distrib]
  cases x.getLsbD 0 <;> cases y.getLsbD 0
  · rfl
  · simp only [Bool.false_xor, if_true, Bool.false_eq_true, if_false]
    rw [BitVec.xor_assoc]
  · simp only [Bool.xor_false, if_true, Bool.false_eq_true, if_false]
    rw [BitVec.xor_assoc, BitVec.xor_assoc, BitVec.xor_comm poly]
  · simp only [Bool.xor_self, if_true, Bool.false_eq_true, if_false]
    rw [BitVec.xor_assoc (x >>> 1) poly, ← BitVec.xor_assoc poly, BitVec.xor_comm poly (y >>> 1),
      BitVec.xor_assoc (y >>> 1), BitVec.xor_self, BitVec.xor_zero]

theorem iterate_zero (k : ℕ) : (shift poly)^[k] 0#w = 0#w := by
  induction k with
  | zero => rfl
  | succ k ih => rw [Function.iterate_succ_apply, shift_zero, ih]

theorem iterate_xor (k : ℕ) (x y : BitVec w) :
    (shift poly)^[k] (x ^^^ y) = (shift poly)^[k] x ^^^ (shift poly)^[k] y := by
  induction k generalizing x y with
  | zero => rfl
  | succ k ih =>
    rw [Function.iterate_succ_apply, shift_xor, ih]
    rfl

/-- A register whose `k` low bits are clear only moves down. -/
theorem iterate_of_clear {k : ℕ} {y : BitVec w} (hclear : ∀ i < k, y.getLsbD i = false) :
    (shift poly)^[k] y = y >>> k := by
  induction k with
  | zero => exact (BitVec.ushiftRight_zero y).symm
  | succ k ih =>
    rw [Function.iterate_succ_apply', ih (fun i hi => hclear i (by omega))]
    have hbit : (y >>> k).getLsbD 0 = false := by
      rw [BitVec.getLsbD_ushiftRight]
      exact hclear k (by omega)
    unfold shift
    rw [hbit, BitVec.shiftRight_add]
    rfl

/-- The `k` low bits are shifted through, the others move down. -/
theorem iterate_split (k : ℕ) (x : BitVec w) :
    (shift poly)^[k] x = (x >>> k) ^^^ (shift poly)^[k] ((x.setWidth k).setWidth w) := by
  have hsplit : x = (x ^^^ (x.setWidth k).setWidth w) ^^^ (x.setWidth k).setWidth w := by
    rw [BitVec.xor_assoc, BitVec.xor_self, BitVec.xor_zero]
  have hclear : ∀ i < k, (x ^^^ (x.setWidth k).setWidth w).getLsbD i = false := by
    intro i hi
    rw [BitVec.getLsbD_xor, BitVec.getLsbD_setWidth, BitVec.getLsbD_setWidth]
    by_cases hw : i < w
    · simp [hi, hw]
    · simp [BitVec.getLsbD_of_ge x i (by omega)]
  have hshift : (x ^^^ (x.setWidth k).setWidth w) >>> k = x >>> k := by
    apply BitVec.eq_of_getLsbD_eq
    intro i _
    rw [BitVec.getLsbD_ushiftRight, BitVec.getLsbD_ushiftRight, BitVec.getLsbD_xor,
      BitVec.getLsbD_setWidth, BitVec.getLsbD_setWidth]
    simp
  conv_lhs => rw [hsplit]
  rw [iterate_xor, iterate_of_clear hclear, hshift]

/-- The register that holds the power zero. -/
def unit (w : ℕ) : BitVec w := BitVec.twoPow w (w - 1)

/-- The powers below `w` are single bits. -/
theorem iterate_unit {k : ℕ} (hk : k < w) :
    (shift poly)^[k] (unit w) = BitVec.twoPow w (w - 1 - k) := by
  rw [iterate_of_clear]
  · apply BitVec.eq_of_getLsbD_eq
    intro i hi
    unfold unit
    rw [BitVec.getLsbD_ushiftRight, BitVec.getLsbD_twoPow, BitVec.getLsbD_twoPow]
    have hiff : w - 1 = k + i ↔ w - 1 - k = i := by omega
    simp only [hiff]
    have hlt : decide (w - 1 < w) = decide (w - 1 - k < w) := by
      rw [decide_eq_true (by omega), decide_eq_true (by omega)]
    rw [hlt]
  · intro i hi
    unfold unit
    rw [BitVec.getLsbD_twoPow, decide_eq_false (by omega : ¬ w - 1 = i), Bool.and_false]

/-- The multiplication loop: the bits of `x` from the highest down, with `y` shifted along. -/
def multiplyLoop (poly : BitVec w) : ℕ → BitVec w → BitVec w → BitVec w → BitVec w
  | 0, _, _, answer => answer
  | fuel + 1, x, y, answer =>
    if x = 0#w then answer
    else multiplyLoop poly fuel (x <<< 1) (shift poly y) (if x.msb then answer ^^^ y else answer)

/-- The highest bit of a register moved down by `j`, apart from the others. -/
theorem ushiftRight_eq_msb {x : BitVec w} {j : ℕ} (hj : j < w) :
    x >>> j = (if x.msb then BitVec.twoPow w (w - 1 - j) else 0#w) ^^^ ((x <<< 1) >>> (j + 1)) := by
  apply BitVec.eq_of_getLsbD_eq
  intro i hi
  rw [BitVec.getLsbD_xor, BitVec.getLsbD_ushiftRight, BitVec.getLsbD_ushiftRight,
    BitVec.getLsbD_shiftLeft]
  have hif : (if x.msb then BitVec.twoPow w (w - 1 - j) else 0#w).getLsbD i =
      (decide (w - 1 = j + i) && x.msb) := by
    split
    next hmsb =>
      rw [BitVec.getLsbD_twoPow, hmsb, Bool.and_true, decide_eq_true (by omega), Bool.true_and]
      apply decide_eq_decide.mpr
      omega
    next hmsb =>
      rw [Bool.not_eq_true] at hmsb
      rw [hmsb, Bool.and_false]
      exact BitVec.getLsbD_zero
  have hpred : j + 1 + i - 1 = j + i := by omega
  rw [hif, hpred]
  by_cases htop : w - 1 = j + i
  · have hlast : ¬ j + 1 + i < w := by omega
    rw [decide_eq_true htop, decide_eq_false hlast, BitVec.msb_eq_getLsbD_last, htop]
    simp
  · by_cases hlt : j + 1 + i < w
    · rw [decide_eq_false htop, decide_eq_true hlt]
      have hone : ¬ j + 1 + i < 1 := by omega
      simp [hone]
    · rw [decide_eq_false htop, decide_eq_false hlt, BitVec.getLsbD_of_ge x (j + i) (by omega)]
      simp

theorem multiplyLoop_iterate (k : ℕ) :
    ∀ fuel (x answer : BitVec w), fuel ≤ w →
      multiplyLoop poly fuel x ((shift poly)^[k + (w - fuel)] (unit w)) answer =
        answer ^^^ (shift poly)^[k] (x >>> (w - fuel)) := by
  intro fuel
  induction fuel with
  | zero =>
    intro x answer _
    have hgone : x >>> (w - 0) = 0#w := BitVec.ushiftRight_eq_zero le_rfl
    rw [hgone, iterate_zero, BitVec.xor_zero]
    rfl
  | succ fuel ih =>
    intro x answer hfuel
    unfold multiplyLoop
    split
    next hzero => rw [hzero, BitVec.zero_ushiftRight, iterate_zero, BitVec.xor_zero]
    next =>
      have hnext : shift poly ((shift poly)^[k + (w - (fuel + 1))] (unit w)) =
          (shift poly)^[k + (w - fuel)] (unit w) := by
        rw [← Function.iterate_succ_apply' (shift poly)]
        congr 2
        omega
      have hlen : w - (fuel + 1) + 1 = w - fuel := by omega
      rw [hnext, ih _ _ (by omega), ushiftRight_eq_msb (by omega : w - (fuel + 1) < w),
        iterate_xor, hlen]
      split
      · rw [← iterate_unit (by omega : w - (fuel + 1) < w), ← Function.iterate_add_apply,
          BitVec.xor_assoc]
      · rw [iterate_zero, BitVec.zero_xor]

/-- Multiplying by the `k`-th power shifts `k` times. -/
theorem multiply_shift (k : ℕ) (x : BitVec w) :
    multiplyLoop poly w x ((shift poly)^[k] (unit w)) 0#w = (shift poly)^[k] x := by
  have hall := @multiplyLoop_iterate w poly k w x 0#w le_rfl
  rw [Nat.sub_self, Nat.add_zero, BitVec.ushiftRight_zero, BitVec.zero_xor] at hall
  exact hall

/-- One byte goes through the register. -/
def feed (poly crc : BitVec w) (b : UInt8) : BitVec w :=
  (shift poly)^[8] (crc ^^^ b.toBitVec.setWidth w)

/-- A byte string goes through the register. -/
def feedAll (poly crc : BitVec w) (bytes : List UInt8) : BitVec w := bytes.foldl (feed poly) crc

theorem feedAll_append (crc : BitVec w) (xs ys : List UInt8) :
    feedAll poly crc (xs ++ ys) = feedAll poly (feedAll poly crc xs) ys :=
  List.foldl_append

/-- A part of the seed passes through the string on its own. -/
theorem feedAll_xor (x crc : BitVec w) (bytes : List UInt8) :
    feedAll poly (x ^^^ crc) bytes =
      (shift poly)^[8 * bytes.length] x ^^^ feedAll poly crc bytes := by
  induction bytes generalizing x crc with
  | nil => rfl
  | cons b bytes ih =>
    have hfeed : feed poly (x ^^^ crc) b = (shift poly)^[8] x ^^^ feed poly crc b := by
      unfold feed
      rw [BitVec.xor_assoc, iterate_xor]
    have hlen : 8 * (b :: bytes).length = 8 * bytes.length + 8 := by
      rw [List.length_cons]
      omega
    have hcons : ∀ c : BitVec w, feedAll poly c (b :: bytes) = feedAll poly (feed poly c b) bytes :=
      fun _ => rfl
    rw [hcons, hcons, hfeed, ih, hlen, Function.iterate_add_apply]

end ShiftRegister
