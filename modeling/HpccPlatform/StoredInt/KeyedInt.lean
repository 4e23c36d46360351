import HpccPlatform.Library.ByteOrders
import HpccPlatform.StoredInt.Widths

/-!
# Keyed integers

The integers of an index, as `RtlKeyedIntTypeInfo` of `rtlfield.cpp` builds them on a little-endian
machine: the highest byte comes first, and a bias moves the signed values to the unsigned ones, so that
`memcmp` compares them.
-/

namespace StoredInt

open LittleEndian

/-- `struct RtlKeyedIntTypeInfo`, with its length and its flag for unsigned values. -/
structure RtlKeyedIntTypeInfo where
  length : ℕ
  isUnsigned : Bool

namespace RtlKeyedIntTypeInfo

def addBias (value : BitVec 64) (length : ℕ) : BitVec 64 := value + 1#64 <<< (length * 8 - 1)

def removeBias (value : BitVec 64) (length : ℕ) : BitVec 64 := value - 1#64 <<< (length * 8 - 1)

/-- `builder.ensureCapacity(size)`: bytes are added to the row. -/
def ensureCapacity (row : Data) (size : ℕ) : Data := row ++ List.replicate (size - row.length) 0

/-- `buildInt(builder, offset, field, val)`: the offset behind the field and the row. -/
def buildInt (t : RtlKeyedIntTypeInfo) (row : Data) (offset : ℕ) (val : BitVec 64) : Option (ℕ × Data) :=
  let row := ensureCapacity row (t.length + offset)
  let value := if t.isUnsigned then val else addBias val t.length
  (rtlWriteSwapInt (row.drop offset) value t.length).map fun field =>
    (offset + t.length, row.take offset ++ field)

def getInt (t : RtlKeyedIntTypeInfo) (ptr : Data) : Option (BitVec 64) :=
  if t.isUnsigned then rtlReadSwapUInt ptr t.length
  else (rtlReadSwapUInt ptr t.length).map (removeBias · t.length)

def compare (t : RtlKeyedIntTypeInfo) (left right : Data) : ℤ := Bytes.memcmp t.length left right

/-- The value reduced to the range of the type, as a 64-bit integer. -/
def reduce (t : RtlKeyedIntTypeInfo) (val : BitVec 64) : BitVec 64 :=
  if t.isUnsigned then (val.setWidth (8 * t.length)).setWidth 64
  else (val.setWidth (8 * t.length)).signExtend 64

/-- The number that a 64-bit integer stands for. -/
def number (t : RtlKeyedIntTypeInfo) (val : BitVec 64) : ℤ := if t.isUnsigned then val.toNat else val.toInt

/-- The numbers of the type. -/
def InRange (t : RtlKeyedIntTypeInfo) (n : ℤ) : Prop :=
  if t.isUnsigned then 0 ≤ n ∧ n < 2 ^ (8 * t.length)
  else -2 ^ (8 * t.length - 1) ≤ n ∧ n < 2 ^ (8 * t.length - 1)

/-! ### The bias -/

variable {n : ℕ} {v w : BitVec 64} {t : RtlKeyedIntTypeInfo}

theorem removeBias_addBias (v : BitVec 64) (n : ℕ) : removeBias (addBias v n) n = v :=
  BitVec.add_sub_cancel v _

theorem toNat_bias (hpos : 1 ≤ n) (hle : n ≤ 8) :
    (1#64 <<< (n * 8 - 1)).toNat = 2 ^ (8 * n - 1) := by
  interval_cases n <;> rfl

/-- The sign bit of the lower bytes is turned over. -/
theorem toNat_addBias (hpos : 1 ≤ n) (hle : n ≤ 8) (v : BitVec 64) :
    ((addBias v n).setWidth (8 * n)).toNat = (v.toNat + 2 ^ (8 * n - 1)) % 2 ^ (8 * n) := by
  have hdvd : 2 ^ (8 * n) ∣ 2 ^ 64 := Nat.pow_dvd_pow 2 (by omega)
  rw [BitVec.toNat_setWidth, addBias, BitVec.toNat_add, toNat_bias hpos hle,
    Nat.mod_mod_of_dvd _ hdvd]

/-- The lower bytes as a signed number, from the biased ones. -/
theorem toInt_setWidth (hpos : 1 ≤ n) (hle : n ≤ 8) (v : BitVec 64) :
    (v.setWidth (8 * n)).toInt = ((addBias v n).setWidth (8 * n)).toNat - 2 ^ (8 * n - 1) := by
  have hhalf : 2 ^ (8 * n) = 2 * 2 ^ (8 * n - 1) := by
    rw [← Nat.pow_succ', Nat.succ_eq_add_one, Nat.sub_add_cancel (by omega)]
  have hlow : (v.setWidth (8 * n)).toNat = v.toNat % 2 ^ (8 * n) := BitVec.toNat_setWidth _ _
  have hlt := Nat.mod_lt v.toNat (Nat.two_pow_pos (8 * n))
  rw [toNat_addBias hpos hle, BitVec.toInt_eq_toNat_cond, hlow, Nat.add_mod]
  rw [hhalf] at hlt ⊢
  have hcast : (2 : ℤ) ^ (8 * n - 1) = ((2 ^ (8 * n - 1) : ℕ) : ℤ) := by push_cast; rfl
  rw [hcast]
  generalize 2 ^ (8 * n - 1) = half at hlt ⊢
  generalize v.toNat % (2 * half) = low at hlt ⊢
  have hmod : half % (2 * half) = half := Nat.mod_eq_of_lt (by omega)
  rw [hmod]
  by_cases hneg : 2 * low < 2 * half
  · rw [if_pos hneg, Nat.mod_eq_of_lt (by omega)]
    push_cast
    ring
  · rw [if_neg hneg, Nat.mod_eq_sub_mod (by omega), Nat.mod_eq_of_lt (by omega)]
    push_cast [Nat.cast_sub (show 2 * half ≤ low + half by omega)]
    ring

/-- The bias is removed from the lower bytes. -/
theorem removeBias_setWidth (hpos : 1 ≤ n) (hle : n ≤ 8) (v : BitVec 64) :
    removeBias (((addBias v n).setWidth (8 * n)).setWidth 64) n = (v.setWidth (8 * n)).signExtend 64 := by
  have hbias : 1#64 <<< (n * 8 - 1) = BitVec.ofInt 64 (2 ^ (8 * n - 1)) := by
    interval_cases n <;> rfl
  have hlow : ((addBias v n).setWidth (8 * n)).setWidth 64 =
      BitVec.ofInt 64 ((addBias v n).setWidth (8 * n)).toNat := by
    refine BitVec.eq_of_toNat_eq ?_
    rw [BitVec.ofInt_natCast, BitVec.toNat_setWidth, BitVec.toNat_ofNat]
  rw [removeBias, hlow, hbias, BitVec.signExtend, toInt_setWidth hpos hle]
  generalize (((addBias v n).setWidth (8 * n)).toNat : ℤ) = stored
  generalize (2 : ℤ) ^ (8 * n - 1) = bias
  calc BitVec.ofInt 64 stored - BitVec.ofInt 64 bias
      = BitVec.ofInt 64 (stored - bias + bias) - BitVec.ofInt 64 bias := by rw [sub_add_cancel]
    _ = BitVec.ofInt 64 (stored - bias) := by rw [BitVec.ofInt_add, BitVec.add_sub_cancel]

/-! ### The bytes of a field -/

/-- The lowest bytes of an integer, the highest of them first. -/
theorem take_cpyrev (hle : n ≤ 8) (data : Data) (v : BitVec 64) :
    (cpyrev n data (bytes 8 v)).take n = (bytes n v).reverse := by
  have hlen : ((List.range n).map fun i => (bytes 8 v).getD (n - 1 - i) 0).length = n := by
    rw [List.length_map, List.length_range]
  rw [cpyrev, List.take_append_of_le_length hlen.ge, List.take_of_length_le hlen.le]
  refine List.ext_getElem ?_ fun i hi hi' => ?_
  · rw [hlen, List.length_reverse, length_bytes]
  · rw [hlen] at hi
    have hplace : n - 1 - i < 8 := by omega
    simp [bytes, List.getElem_reverse, hplace]

theorem number_bytes (n : ℕ) (v : BitVec 64) :
    LittleEndian.number (bytes n v) = (v.setWidth (8 * n)).toNat := by
  refine Nat.eq_of_testBit_eq fun i => ?_
  rw [testBit_number, BitVec.testBit_toNat, BitVec.getLsbD_setWidth]
  by_cases hi : i < 8 * n
  · rw [bit_bytes v hi, decide_eq_true hi, Bool.true_and]
  · have hout : (bytes n v).length ≤ i / 8 := by
      rw [length_bytes]
      omega
    rw [decide_eq_false hi, Bool.false_and, bit, List.getD_eq_default _ _ hout]
    exact Nat.zero_testBit _

/-- What a field holds for a value. -/
def stored (t : RtlKeyedIntTypeInfo) (val : BitVec 64) : BitVec 64 :=
  if t.isUnsigned then val else addBias val t.length

theorem length_ensureCapacity (row : Data) (size : ℕ) : size ≤ (ensureCapacity row size).length := by
  rw [ensureCapacity, List.length_append, List.length_replicate]
  omega

/-- The field that `buildInt` writes. -/
theorem buildInt_eq (hpos : 1 ≤ t.length) (hle : t.length ≤ 8) (row : Data) (offset : ℕ)
    (val : BitVec 64) :
    ∃ built rest, t.buildInt row offset val = some (offset + t.length, built) ∧
      built.drop offset = cpyrev t.length rest (bytes 8 (t.stored val)) := by
  have hlong := length_ensureCapacity row (t.length + offset)
  have hbuild : t.buildInt row offset val =
      (rtlWriteSwapInt ((ensureCapacity row (t.length + offset)).drop offset) (t.stored val)
        t.length).map fun field =>
          (offset + t.length, (ensureCapacity row (t.length + offset)).take offset ++ field) := rfl
  generalize ensureCapacity row (t.length + offset) = whole at hlong hbuild
  have hroom : t.length ≤ (whole.drop offset).length := by
    rw [List.length_drop]
    omega
  rw [rtlWriteSwapInt_eq hpos hle hroom, Option.map_some] at hbuild
  refine ⟨_, whole.drop offset, hbuild, List.drop_left' ?_⟩
  rw [List.length_take]
  omega

theorem getInt_eq (hpos : 1 ≤ t.length) (hle : t.length ≤ 8) (rest : Data) (val : BitVec 64) :
    t.getInt (cpyrev t.length rest (bytes 8 (t.stored val))) = some (t.reduce val) := by
  unfold getInt stored reduce
  rw [rtlReadSwapUInt_eq _ hpos hle, load_cpyrev_cpyrev _ hle]
  cases t.isUnsigned with
  | true => rfl
  | false =>
    rw [if_neg Bool.false_ne_true, if_neg Bool.false_ne_true, if_neg Bool.false_ne_true,
      Option.map_some, removeBias_setWidth hpos hle]

/-- The order of the fields is that of what they hold. -/
theorem compare_eq (hle : t.length ≤ 8) (rest rest' : Data) (v w : BitVec 64) :
    (t.compare (cpyrev t.length rest (bytes 8 v)) (cpyrev t.length rest' (bytes 8 w))).sign =
      (((v.setWidth (8 * t.length)).toNat : ℤ) - (w.setWidth (8 * t.length)).toNat).sign := by
  have hnumber : ∀ u : BitVec 64, Bytes.number (bytes t.length u).reverse =
      (u.setWidth (8 * t.length)).toNat := fun u => by
    rw [← Bytes.number_reverse, List.reverse_reverse, number_bytes]
  have hlen : ∀ u : BitVec 64, (bytes t.length u).reverse.length = t.length := fun u => by
    rw [List.length_reverse, length_bytes]
  have hneg := Bytes.memcmp_neg_iff (hlen v) (hlen w)
  have hpos := Bytes.memcmp_pos_iff (hlen v) (hlen w)
  have hlong : ∀ (rest : Data) (u : BitVec 64),
      t.length ≤ (cpyrev t.length rest (bytes 8 u)).length := fun rest u => by
    rw [cpyrev, List.length_append, List.length_map, List.length_range]
    exact Nat.le_add_right _ _
  have hcompare : t.compare (cpyrev t.length rest (bytes 8 v)) (cpyrev t.length rest' (bytes 8 w)) =
      Bytes.memcmp t.length (bytes t.length v).reverse (bytes t.length w).reverse := by
    rw [compare, ← take_cpyrev hle rest v, ← take_cpyrev hle rest' w,
      Bytes.memcmp_take le_rfl le_rfl]
  rw [hnumber, hnumber] at hneg hpos
  rw [hcompare]
  generalize Bytes.memcmp t.length (bytes t.length v).reverse (bytes t.length w).reverse = result at *
  rcases lt_trichotomy (v.setWidth (8 * t.length)).toNat (w.setWidth (8 * t.length)).toNat with
    hlt | heq | hgt
  · rw [Int.sign_eq_neg_one_of_neg (hneg.mpr hlt), Int.sign_eq_neg_one_of_neg (by omega)]
  · have hzero : result = 0 :=
      le_antisymm (not_lt.mp (mt hpos.mp heq.not_gt)) (not_lt.mp (mt hneg.mp heq.not_lt))
    rw [hzero, heq, sub_self]
  · rw [Int.sign_eq_one_of_pos (hpos.mpr hgt), Int.sign_eq_one_of_pos (by omega)]

/-- The number that a reduced value stands for. -/
theorem number_reduce (hpos : 1 ≤ t.length) (hle : t.length ≤ 8) (val : BitVec 64) :
    t.number (t.reduce val) = ((t.stored val).setWidth (8 * t.length)).toNat -
      if t.isUnsigned then 0 else 2 ^ (8 * t.length - 1) := by
  have hwidth : 8 * t.length ≤ 64 := by omega
  unfold number reduce stored
  cases t.isUnsigned with
  | true =>
    rw [if_pos rfl, if_pos rfl, if_pos rfl, if_pos rfl, sub_zero, BitVec.toNat_setWidth_of_le hwidth]
  | false =>
    rw [if_neg Bool.false_ne_true, if_neg Bool.false_ne_true, if_neg Bool.false_ne_true,
      if_neg Bool.false_ne_true, BitVec.toInt_signExtend_of_le hwidth, toInt_setWidth hpos hle]

/-- A value in the range of the type is not changed. -/
theorem reduce_of_inRange (hpos : 1 ≤ t.length) (hle : t.length ≤ 8) {val : BitVec 64}
    (hval : t.InRange (t.number val)) : t.reduce val = val := by
  unfold InRange number at hval
  unfold reduce
  revert hval
  cases t.isUnsigned with
  | true =>
    rw [if_pos rfl, if_pos rfl, if_pos rfl]
    rintro ⟨-, hlt⟩
    have hlt' : val.toNat < 2 ^ (8 * t.length) := by exact_mod_cast hlt
    refine BitVec.eq_of_toNat_eq ?_
    rw [BitVec.toNat_setWidth, BitVec.toNat_setWidth, Nat.mod_eq_of_lt hlt', Nat.mod_eq_of_lt val.isLt]
  | false =>
    rw [if_neg Bool.false_ne_true, if_neg Bool.false_ne_true, if_neg Bool.false_ne_true]
    rintro ⟨hge, hlt⟩
    have hdvd : 2 ^ (8 * t.length) ∣ 2 ^ 64 := Nat.pow_dvd_pow 2 (by omega)
    have hhalf : 2 ^ (8 * t.length) = 2 * 2 ^ (8 * t.length - 1) := by
      rw [← Nat.pow_succ', Nat.succ_eq_add_one, Nat.sub_add_cancel (by omega)]
    refine BitVec.eq_of_toInt_eq ?_
    rw [BitVec.toInt_signExtend_of_le (by omega), BitVec.toInt_setWidth, ← Int.bmod_bmod_of_dvd hdvd,
      ← BitVec.toInt_eq_toNat_bmod]
    refine Int.bmod_eq_of_le_mul_two ?_ ?_
    · rw [hhalf]
      push_cast
      linarith
    · rw [hhalf]
      push_cast
      linarith

/-- The fields of a type keep its numbers and their order. -/
structure KeepsOrder (t : RtlKeyedIntTypeInfo) : Prop where
  read : ∀ row offset val, ∃ built, t.buildInt row offset val = some (offset + t.length, built) ∧
    t.getInt (built.drop offset) = some (t.reduce val)
  exact : ∀ val, t.InRange (t.number val) → t.reduce val = val
  inRange : ∀ val, t.InRange (t.number (t.reduce val))
  order : ∀ {row offset val built next row' offset' val' built' next'},
    t.buildInt row offset val = some (next, built) → t.buildInt row' offset' val' = some (next', built') →
    (t.compare (built.drop offset) (built'.drop offset')).sign =
      (t.number (t.reduce val) - t.number (t.reduce val')).sign
  bias : ∀ val : BitVec 64, removeBias (addBias val t.length) t.length = val ∧
    (removeBias (((addBias val t.length).setWidth (8 * t.length)).setWidth 64) t.length).setWidth
      (8 * t.length) = val.setWidth (8 * t.length)

/-- Keyed integers of one to eight bytes are read back and compare as their bytes do. -/
theorem keepsOrder (hpos : 1 ≤ t.length) (hle : t.length ≤ 8) : t.KeepsOrder where
  read row offset val := by
    obtain ⟨built, rest, hbuild, hfield⟩ := buildInt_eq hpos hle row offset val
    exact ⟨built, hbuild, hfield ▸ getInt_eq hpos hle rest val⟩
  exact _ hval := reduce_of_inRange hpos hle hval
  inRange val := by
    have hlt := ((t.stored val).setWidth (8 * t.length)).isLt
    have hhalf : 2 ^ (8 * t.length) = 2 * 2 ^ (8 * t.length - 1) := by
      rw [← Nat.pow_succ', Nat.succ_eq_add_one, Nat.sub_add_cancel (by omega)]
    rw [number_reduce hpos hle]
    generalize ((t.stored val).setWidth (8 * t.length)).toNat = u at hlt
    unfold InRange
    cases t.isUnsigned with
    | true =>
      rw [if_pos rfl, if_pos rfl, sub_zero]
      exact ⟨Int.natCast_nonneg u, by exact_mod_cast hlt⟩
    | false =>
      rw [if_neg Bool.false_ne_true, if_neg Bool.false_ne_true]
      have hlt' : (u : ℤ) < 2 * 2 ^ (8 * t.length - 1) := by exact_mod_cast hhalf ▸ hlt
      have hnonneg := Int.natCast_nonneg u
      exact ⟨by linarith, by linarith⟩
  order {row offset val built next row' offset' val' built' next'} h h' := by
    obtain ⟨_, rest, hbuild, hfield⟩ := buildInt_eq hpos hle row offset val
    obtain ⟨_, rest', hbuild', hfield'⟩ := buildInt_eq hpos hle row' offset' val'
    obtain ⟨-, rfl⟩ := Prod.mk.inj (Option.some.inj (hbuild.symm.trans h))
    obtain ⟨-, rfl⟩ := Prod.mk.inj (Option.some.inj (hbuild'.symm.trans h'))
    rw [hfield, hfield', compare_eq hle, number_reduce hpos hle, number_reduce hpos hle,
      sub_sub_sub_cancel_right]
  bias val := by
    refine ⟨removeBias_addBias val t.length, ?_⟩
    rw [removeBias_setWidth hpos hle]
    refine BitVec.eq_of_getLsbD_eq fun i hi => ?_
    rw [BitVec.getLsbD_setWidth, BitVec.getLsbD_signExtend, if_pos hi, decide_eq_true hi,
      decide_eq_true (show i < 64 by omega), Bool.true_and, Bool.true_and]

/-- Signed integers of three bytes. -/
theorem keepsOrder_three : KeepsOrder ⟨3, false⟩ := keepsOrder (by decide) (by decide)

end RtlKeyedIntTypeInfo

end StoredInt
