import HpccPlatform.Library.Buffer
import HpccPlatform.Library.Nibbles
import Mathlib.Tactic.NormNum

/-!
# Valid packed decimals

`decValid` checks the half bytes of a packed decimal.  Four bytes at a time are checked by adding 6
to each digit: up to the lowest half byte above 9 there is no carry, and that one gives one.  The
highest half byte of the four is compared on its own.
-/

namespace Nbcd

open Nibbles
open Buffer (forall_byte)

/-! ### The code -/

def byteValid (b : UInt8) : Bool := !(decide (0x90 < b &&& 0xF0) || decide (0x09 < b &&& 0x0F))

/-- The four bytes from `4 * k` on, the lowest first. -/
def dword (data : List UInt8) (k : ℕ) : BitVec 32 :=
  BitVec.ofNat 32 ((data.getD (4 * k) 0).toNat + (data.getD (4 * k + 1) 0).toNat * 2 ^ 8 +
    (data.getD (4 * k + 2) 0).toNat * 2 ^ 16 + (data.getD (4 * k + 3) 0).toNat * 2 ^ 24)

def dwordValid (l : BitVec 32) : Bool :=
  if 0x90000000#32 < l &&& 0xF0000000#32 then false
  else
    let l1 := l + 0x66666666#32
    let l2 := l1 ^^^ l
    let l3 := l2 &&& 0x11111110#32
    decide (l3 = 0#32)

/-- For data that is not null.  `digits` has 32 bits. -/
def decValid (isSigned : Bool) (digits : ℕ) (data : List UInt8) : Bool :=
  if digits = 0 then true
  else
    let unused := (isSigned && digits % 2 = 0) || (!isSigned && digits % 2 ≠ 0)
    if unused && data.getD 0 0 &&& 0xf0 ≠ 0 then false
    else
      let digits := if unused then (digits + 1) % 2 ^ 32 else digits
      let bytes := if isSigned then digits / 2 + 1 else (digits + 1) % 2 ^ 32 / 2
      let last := data.getD (bytes - 1) 0
      if isSigned && !(last &&& 0x0f = 0x0f || last &&& 0x0f = 0x0d || last &&& 0x0f = 0x0c) then
        false
      else if isSigned && decide (0x90 < last &&& 0xf0) then false
      else
        let bytes := if isSigned then bytes - 1 else bytes
        let dwords := bytes / 4
        ((data.drop (dwords * 4)).take (bytes % 4)).all byteValid &&
          (List.range dwords).all fun k => dwordValid (dword data k)

/-! ### What is valid -/

/-- How many bytes the digits need. -/
def requiredLength (isSigned : Bool) (digits : ℕ) : ℕ :=
  if isSigned then digits / 2 + 1 else (digits + 1) / 2

/-- How many half bytes are digits, the unused one counted. -/
def digitNibbles (isSigned : Bool) (digits : ℕ) : ℕ :=
  if isSigned then 2 * requiredLength isSigned digits - 1 else 2 * requiredLength isSigned digits

/-- The digits are at most 9, the unused half byte is 0, and the sign is one that is written. -/
structure ValidPacked (isSigned : Bool) (digits : ℕ) (data : List UInt8) : Prop where
  digit : ∀ j, j < digitNibbles isSigned digits → nibble data j ≤ 9
  unused : digits < digitNibbles isSigned digits → nibble data 0 = 0
  sign : isSigned = true → nibble data (digitNibbles isSigned digits) = 0xC ∨
    nibble data (digitNibbles isSigned digits) = 0xD ∨
    nibble data (digitNibbles isSigned digits) = 0xF

/-! ### Bytes -/

theorem byteValid_iff (b : UInt8) : byteValid b = true ↔ high b ≤ 9 ∧ low b ≤ 9 := by
  refine forall_byte b ?_
  decide +kernel

theorem and_high_ne_zero_iff (b : UInt8) : b &&& 0xf0 ≠ 0 ↔ high b ≠ 0 := by
  refine forall_byte b ?_
  decide +kernel

theorem lt_and_high_iff (b : UInt8) : 0x90 < b &&& 0xf0 ↔ 9 < high b := by
  refine forall_byte b ?_
  decide +kernel

theorem and_low_iff (b : UInt8) :
    (b &&& 0x0f = 0x0f ∨ b &&& 0x0f = 0x0d ∨ b &&& 0x0f = 0x0c) ↔
      low b = 0xC ∨ low b = 0xD ∨ low b = 0xF := by
  refine forall_byte b ?_
  decide +kernel

/-! ### Four bytes -/

/-- The carries into the digits are seen in their lowest bits. -/
theorem carries_iff (l : BitVec 32) :
    ((l + 0x66666666#32) ^^^ l) &&& 0x11111110#32 = 0#32 ↔
      ∀ k ∈ [4, 8, 12, 16, 20, 24, 28], l.toNat % 2 ^ k + 0x66666666 % 2 ^ k < 2 ^ k := by
  have hmask : ∀ i : Fin 32, (0x11111110#32).getLsbD i = true ↔
      i.val ∈ [4, 8, 12, 16, 20, 24, 28] := by decide
  have hsix : ∀ i : Fin 32, i.val ∈ [4, 8, 12, 16, 20, 24, 28] →
      (0x66666666#32).getLsbD i = false := by decide
  have hbit : ∀ i, (hi : i < 32) → i ∈ [4, 8, 12, 16, 20, 24, 28] →
      (((l + 0x66666666#32) ^^^ l).getLsbD i = false ↔
        l.toNat % 2 ^ i + 0x66666666 % 2 ^ i < 2 ^ i) := by
    intro i hi hmem
    rw [BitVec.getLsbD_xor, BitVec.getLsbD_add hi, hsix ⟨i, hi⟩ hmem, Bool.false_xor, BitVec.carry,
      Bool.xor_comm, ← Bool.xor_assoc, Bool.xor_self, Bool.false_xor, decide_eq_false_iff_not,
      not_le]
    rfl
  have hsmall : ∀ i ∈ [4, 8, 12, 16, 20, 24, 28], i < 32 := by decide
  constructor
  · intro h k hk
    refine (hbit k (hsmall k hk) hk).1 ?_
    have hand := congrArg (fun x : BitVec 32 => x.getLsbD k) h
    rwa [BitVec.getLsbD_and, (hmask ⟨k, hsmall k hk⟩).2 hk, Bool.and_true, BitVec.getLsbD_zero]
      at hand
  · intro h
    refine BitVec.eq_of_getLsbD_eq fun i hi => ?_
    rw [BitVec.getLsbD_and, BitVec.getLsbD_zero, Bool.and_eq_false_iff, or_iff_not_imp_right]
    intro hset
    have hmem := (hmask ⟨i, hi⟩).1 (Bool.eq_true_of_not_eq_false hset)
    exact (hbit i hi hmem).2 (h i hmem)

theorem and_highest_lt_iff (l : BitVec 32) :
    0x90000000#32 < l &&& 0xF0000000#32 ↔ 9 < l.toNat / 2 ^ 28 := by
  have hshift : l &&& 0xF0000000#32 = l >>> 28 <<< 28 := by
    rw [BitVec.shiftLeft_ushiftRight]
    rfl
  have hlt := l.isLt
  have hvalue : (l >>> 28 <<< 28).toNat = l.toNat / 2 ^ 28 * 2 ^ 28 := by
    rw [BitVec.toNat_shiftLeft, BitVec.toNat_ushiftRight, Nat.shiftRight_eq_div_pow,
      Nat.shiftLeft_eq, Nat.mod_eq_of_lt]
    omega
  rw [hshift, BitVec.lt_def, hvalue]
  have hnine : (0x90000000#32).toNat = 9 * 2 ^ 28 := rfl
  rw [hnine]
  omega

theorem dwordValid_iff (data : List UInt8) (k : ℕ) :
    dwordValid (dword data k) = true ↔
      ∀ i < 4, high (data.getD (4 * k + i) 0) ≤ 9 ∧ low (data.getD (4 * k + i) 0) ≤ 9 := by
  have hfour : (∀ i < 4, high (data.getD (4 * k + i) 0) ≤ 9 ∧ low (data.getD (4 * k + i) 0) ≤ 9) ↔
      (high (data.getD (4 * k) 0) ≤ 9 ∧ low (data.getD (4 * k) 0) ≤ 9) ∧
        (high (data.getD (4 * k + 1) 0) ≤ 9 ∧ low (data.getD (4 * k + 1) 0) ≤ 9) ∧
        (high (data.getD (4 * k + 2) 0) ≤ 9 ∧ low (data.getD (4 * k + 2) 0) ≤ 9) ∧
        (high (data.getD (4 * k + 3) 0) ≤ 9 ∧ low (data.getD (4 * k + 3) 0) ≤ 9) := by
    simp only [Nat.forall_lt_succ_right, Nat.not_lt_zero, IsEmpty.forall_iff, implies_true, true_and,
      Nat.add_zero, and_assoc]
  rw [hfour]
  unfold dword
  generalize data.getD (4 * k) 0 = b0
  generalize data.getD (4 * k + 1) 0 = b1
  generalize data.getD (4 * k + 2) 0 = b2
  generalize data.getD (4 * k + 3) 0 = b3
  have h0 := high_low b0
  have h1 := high_low b1
  have h2 := high_low b2
  have h3 := high_low b3
  have hl0 := low_lt b0
  have hl1 := low_lt b1
  have hl2 := low_lt b2
  have hl3 := low_lt b3
  have hh0 := high_lt b0
  have hh1 := high_lt b1
  have hh2 := high_lt b2
  have hh3 := high_lt b3
  generalize hl : BitVec.ofNat 32 (b0.toNat + b1.toNat * 2 ^ 8 + b2.toNat * 2 ^ 16 +
    b3.toNat * 2 ^ 24) = l
  have hvalue : l.toNat = b0.toNat + b1.toNat * 2 ^ 8 + b2.toNat * 2 ^ 16 + b3.toNat * 2 ^ 24 := by
    rw [← hl, BitVec.toNat_ofNat, Nat.mod_eq_of_lt]
    omega
  rw [h0, h1, h2, h3] at hvalue
  have hvalid : dwordValid l = true ↔ l.toNat / 2 ^ 28 ≤ 9 ∧
      ∀ k ∈ [4, 8, 12, 16, 20, 24, 28], l.toNat % 2 ^ k + 0x66666666 % 2 ^ k < 2 ^ k := by
    rw [← carries_iff, ← not_lt, ← and_highest_lt_iff]
    unfold dwordValid
    dsimp only
    split_ifs with hhigh
    · exact iff_of_false not_false fun h => h.1 hhigh
    · rw [decide_eq_true_iff, and_iff_right hhigh]
  rw [hvalid]
  generalize hh3' : high b3 = n7 at *
  generalize high b2 = n5 at *
  generalize high b1 = n3 at *
  generalize high b0 = n1 at *
  generalize low b3 = n6 at *
  generalize low b2 = n4 at *
  generalize low b1 = n2 at *
  generalize low b0 = n0 at *
  have hdiv : l.toNat / 2 ^ 28 = n7 := by omega
  have hmod4 : l.toNat % 2 ^ 4 = n0 := by omega
  have hmod8 : l.toNat % 2 ^ 8 = n0 + n1 * 2 ^ 4 := by omega
  have hmod12 : l.toNat % 2 ^ 12 = n0 + n1 * 2 ^ 4 + n2 * 2 ^ 8 := by omega
  have hmod16 : l.toNat % 2 ^ 16 = n0 + n1 * 2 ^ 4 + n2 * 2 ^ 8 + n3 * 2 ^ 12 := by omega
  have hmod20 : l.toNat % 2 ^ 20 =
      n0 + n1 * 2 ^ 4 + n2 * 2 ^ 8 + n3 * 2 ^ 12 + n4 * 2 ^ 16 := by omega
  have hmod24 : l.toNat % 2 ^ 24 =
      n0 + n1 * 2 ^ 4 + n2 * 2 ^ 8 + n3 * 2 ^ 12 + n4 * 2 ^ 16 + n5 * 2 ^ 20 := by omega
  have hmod28 : l.toNat % 2 ^ 28 =
      n0 + n1 * 2 ^ 4 + n2 * 2 ^ 8 + n3 * 2 ^ 12 + n4 * 2 ^ 16 + n5 * 2 ^ 20 + n6 * 2 ^ 24 := by
    omega
  simp only [List.forall_mem_cons, List.not_mem_nil, IsEmpty.forall_iff, implies_true, and_true,
    hdiv, hmod4, hmod8, hmod12, hmod16, hmod20, hmod24, hmod28]
  constructor
  · rintro ⟨h7, c1, c2, c3, c4, c5, c6, c7⟩
    refine ⟨⟨?_, ?_⟩, ⟨?_, ?_⟩, ⟨?_, ?_⟩, ?_, ?_⟩ <;> omega
  · rintro ⟨⟨d1, d0⟩, ⟨d3, d2⟩, ⟨d5, d4⟩, d7, d6⟩
    refine ⟨d7, ?_, ?_, ?_, ?_, ?_, ?_, ?_⟩ <;> omega

/-! ### All bytes -/

theorem forall_mem_iff_getD {P : UInt8 → Prop} (bytes : List UInt8) :
    (∀ b ∈ bytes, P b) ↔ ∀ i < bytes.length, P (bytes.getD i 0) := by
  rw [List.forall_mem_iff_forall_getElem]
  refine forall₂_congr fun i hi => ?_
  rw [List.getD_eq_getElem?_getD, List.getElem?_eq_getElem hi, Option.getD_some]

theorem nibbles_le_iff (data : List UInt8) (n : ℕ) :
    (∀ j < 2 * n, nibble data j ≤ 9) ↔
      ∀ i < n, high (data.getD i 0) ≤ 9 ∧ low (data.getD i 0) ≤ 9 := by
  constructor
  · intro h i hi
    have heven := h (2 * i) (by omega)
    have hodd := h (2 * i + 1) (by omega)
    unfold nibble at heven hodd
    rw [if_pos (by omega), Nat.mul_div_cancel_left i Nat.two_pos] at heven
    rw [if_neg (by omega), show (2 * i + 1) / 2 = i by omega] at hodd
    exact ⟨heven, hodd⟩
  · intro h j hj
    obtain ⟨hhigh, hlow⟩ := h (j / 2) (by omega)
    unfold nibble
    split
    · exact hhigh
    · exact hlow

/-- The loop over the last bytes and the one over four bytes at a time. -/
theorem loops_iff {data : List UInt8} {n : ℕ} (hn : n ≤ data.length) :
    (((data.drop (n / 4 * 4)).take (n % 4)).all byteValid &&
        (List.range (n / 4)).all fun k => dwordValid (dword data k)) = true ↔
      ∀ j < 2 * n, nibble data j ≤ 9 := by
  have htail : ((data.drop (n / 4 * 4)).take (n % 4)).length = n % 4 := by
    rw [List.length_take, List.length_drop]
    omega
  rw [nibbles_le_iff, Bool.and_eq_true, List.all_eq_true, List.all_eq_true, forall_mem_iff_getD, htail]
  simp only [byteValid_iff, dwordValid_iff, List.mem_range]
  have hget : ∀ i < n % 4, ((data.drop (n / 4 * 4)).take (n % 4)).getD i 0 =
      data.getD (n / 4 * 4 + i) 0 := by
    intro i hi
    rw [List.getD_eq_getElem?_getD, List.getD_eq_getElem?_getD, List.getElem?_take_of_lt hi,
      List.getElem?_drop]
  constructor
  · rintro ⟨hlast, hfull⟩ i hi
    rcases Nat.lt_or_ge i (n / 4 * 4) with hlt | hge
    · have hbyte := hfull (i / 4) (by omega) (i % 4) (by omega)
      rwa [Nat.div_add_mod] at hbyte
    · have hbyte := hlast (i - n / 4 * 4) (by omega)
      rwa [hget _ (by omega), Nat.add_sub_cancel' hge] at hbyte
  · intro h
    refine ⟨fun i hi => ?_, fun k hk i hi => h (4 * k + i) (by omega)⟩
    rw [hget i hi]
    exact h _ (by omega)

/-! ### `decValid` -/

theorem nibble_zero (data : List UInt8) : nibble data 0 = high (data.getD 0 0) := rfl

theorem guard_iff {b x : Bool} : (if b = true then false else x) = true ↔ b = false ∧ x = true := by
  cases b <;> simp

theorem unused_iff {unused : Bool} (data : List UInt8) :
    (unused && decide (data.getD 0 0 &&& 0xf0 ≠ 0)) = false ↔
      (unused = true → nibble data 0 = 0) := by
  rw [Bool.and_eq_false_imp, decide_eq_false_iff_not, and_high_ne_zero_iff, not_not, nibble_zero]

theorem decValid_signed {digits : ℕ} {data : List UInt8} (hpos : 1 ≤ digits)
    (hlt : digits < 2 ^ 32) (hlength : data.length = requiredLength true digits) :
    decValid true digits data = true ↔ ValidPacked true digits data := by
  have hnibbles : digitNibbles true digits = 2 * (digits / 2) + 1 := by
    unfold digitNibbles requiredLength
    rw [if_pos rfl, if_pos rfl]
    omega
  have hlength' : data.length = digits / 2 + 1 := hlength
  have hbytes : (if (decide (digits % 2 = 0)) = true then (digits + 1) % 2 ^ 32 else digits) / 2 + 1 =
      digits / 2 + 1 := by
    split_ifs with heven
    · rw [decide_eq_true_eq] at heven
      omega
    · rfl
  have hsign : low (data.getD (digits / 2) 0) = nibble data (2 * (digits / 2) + 1) := by
    unfold nibble
    rw [if_neg (by omega), show (2 * (digits / 2) + 1) / 2 = digits / 2 by omega]
  have hlast : high (data.getD (digits / 2) 0) = nibble data (2 * (digits / 2)) := by
    unfold nibble
    rw [if_pos (by omega), Nat.mul_div_cancel_left _ Nat.two_pos]
  have hspec : ValidPacked true digits data ↔ (digits % 2 = 0 → nibble data 0 = 0) ∧
      (nibble data (2 * (digits / 2) + 1) = 0xC ∨ nibble data (2 * (digits / 2) + 1) = 0xD ∨
        nibble data (2 * (digits / 2) + 1) = 0xF) ∧ nibble data (2 * (digits / 2)) ≤ 9 ∧
      ∀ j < 2 * (digits / 2), nibble data j ≤ 9 := by
    constructor
    · intro h
      refine ⟨fun heven => h.unused (by omega), hnibbles ▸ h.sign rfl, h.digit _ (by omega),
        fun j hj => h.digit j (by omega)⟩
    · rintro ⟨hunused, hsign, hlast, hdigits⟩
      refine ⟨fun j hj => ?_, fun hj => hunused (by omega), fun _ => hnibbles.symm ▸ hsign⟩
      rcases Nat.lt_or_ge j (2 * (digits / 2)) with hlt | hge
      · exact hdigits j hlt
      · rw [show j = 2 * (digits / 2) by omega]
        exact hlast
  rw [hspec]
  unfold decValid
  rw [if_neg (by omega)]
  simp only [Bool.true_and, Bool.not_true, Bool.false_and, Bool.or_false, if_true, hbytes,
    Nat.add_sub_cancel]
  rw [guard_iff, guard_iff, guard_iff, loops_iff (by omega), Bool.not_eq_false', Bool.or_eq_true,
    Bool.or_eq_true, decide_eq_true_iff, decide_eq_true_iff, decide_eq_true_iff, or_assoc,
    and_low_iff, hsign, decide_eq_false_iff_not, lt_and_high_iff, hlast, not_lt, unused_iff,
    decide_eq_true_iff]

theorem validPacked_unsigned {digits : ℕ} {data : List UInt8} :
    ValidPacked false digits data ↔ (digits % 2 ≠ 0 → nibble data 0 = 0) ∧
      ∀ j < 2 * ((digits + 1) / 2), nibble data j ≤ 9 := by
  have hnibbles : digitNibbles false digits = 2 * ((digits + 1) / 2) := rfl
  constructor
  · intro h
    exact ⟨fun hodd => h.unused (by omega), h.digit⟩
  · rintro ⟨hunused, hdigits⟩
    exact ⟨hdigits, fun hj => hunused (by omega), fun h => absurd h Bool.false_ne_true⟩

theorem decValid_unsigned {digits : ℕ} {data : List UInt8} (hpos : 1 ≤ digits)
    (hlt : digits < 2 ^ 32 - 1) (hlength : data.length = requiredLength false digits) :
    decValid false digits data = true ↔ ValidPacked false digits data := by
  have hlength' : data.length = (digits + 1) / 2 := hlength
  have hbytes : ((if (decide (digits % 2 ≠ 0)) = true then (digits + 1) % 2 ^ 32 else digits) + 1) %
      2 ^ 32 / 2 = (digits + 1) / 2 := by
    split_ifs with hodd
    · rw [decide_eq_true_eq] at hodd
      omega
    · omega
  rw [validPacked_unsigned]
  unfold decValid
  rw [if_neg (by omega)]
  simp only [Bool.false_and, Bool.not_false, Bool.true_and, Bool.false_or, Bool.false_eq_true,
    if_false, hbytes]
  rw [guard_iff, loops_iff (by omega), unused_iff, decide_eq_true_iff]

/-- With the largest number of digits the number of bytes wraps to 0. -/
theorem decValid_wraps (data : List UInt8) :
    decValid false (2 ^ 32 - 1) data = true ↔ nibble data 0 = 0 := by
  unfold decValid
  simp only [Bool.false_and, Bool.not_false, Bool.true_and, Bool.false_or, Bool.false_eq_true,
    if_false]
  rw [if_neg (by decide), guard_iff, unused_iff]
  simp

/-! ### Exactness -/

/-- `decValid` accepts exactly the valid data, except that with the largest number of unsigned
digits it only looks at the first half byte. -/
theorem decValid_exact_iff (isSigned : Bool) {digits : ℕ} {data : List UInt8} (hpos : 1 ≤ digits)
    (hlt : digits < 2 ^ 32) (hlength : data.length = requiredLength isSigned digits) :
    (decValid isSigned digits data = true ↔ ValidPacked isSigned digits data) ↔
      ¬ (isSigned = false ∧ digits = 2 ^ 32 - 1 ∧ nibble data 0 = 0 ∧
        ∃ j < 2 ^ 32, 9 < nibble data j) := by
  cases isSigned with
  | true =>
    exact iff_of_true (decValid_signed hpos hlt hlength) fun h => Bool.false_ne_true h.1.symm
  | false =>
    by_cases hwraps : digits = 2 ^ 32 - 1
    · subst hwraps
      have hlarge : 2 * ((2 ^ 32 - 1 + 1) / 2) = 2 ^ 32 := by norm_num
      have hodd : (2 ^ 32 - 1) % 2 ≠ 0 := by norm_num
      rw [decValid_wraps, validPacked_unsigned, hlarge]
      refine ⟨fun h hbad => ?_, fun h => ⟨fun hzero => ⟨fun _ => hzero, fun j hj => ?_⟩,
        fun hvalid => hvalid.1 hodd⟩⟩
      · obtain ⟨_, _, hzero, j, hj, hnine⟩ := hbad
        exact absurd ((h.1 hzero).2 j hj) (Nat.not_le.2 hnine)
      · by_contra hnine
        exact h ⟨rfl, rfl, hzero, j, hj, not_le.1 hnine⟩
    · exact iff_of_true (decValid_unsigned hpos (by omega) hlength) fun h => hwraps h.2.1

/-- 17.5 as a signed number. -/
theorem decValid_exact_signed : decValid true 3 [0x17, 0x5C] = true ↔ ValidPacked true 3 [0x17, 0x5C] :=
  (decValid_exact_iff true (by decide) (by norm_num) rfl).2 fun h => Bool.false_ne_true h.1.symm

/-- Bytes that are no digits are accepted. -/
theorem decValid_accepts_invalid :
    (0x0F :: List.replicate (2 ^ 31 - 1) 0xFF).length = requiredLength false (2 ^ 32 - 1) ∧
      ¬ (decValid false (2 ^ 32 - 1) (0x0F :: List.replicate (2 ^ 31 - 1) 0xFF) = true ↔
        ValidPacked false (2 ^ 32 - 1) (0x0F :: List.replicate (2 ^ 31 - 1) 0xFF)) := by
  have hlarge : requiredLength false (2 ^ 32 - 1) = 2 ^ 31 - 1 + 1 := by
    unfold requiredLength
    norm_num
  refine ⟨by rw [hlarge, List.length_cons, List.length_replicate], fun hvalid => ?_⟩
  rw [decValid_wraps, validPacked_unsigned] at hvalid
  have hfirst := (hvalid.1 rfl).2 1 (by norm_num)
  exact absurd hfirst (by decide)

end Nbcd
