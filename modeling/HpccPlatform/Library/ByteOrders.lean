import HpccPlatform.Library.FixedBytes
import HpccPlatform.Library.LittleEndian

/-!
# Other orders of byte strings

A byte string is also read from its last byte on, or with a signed leading byte.  Such a reading is
the big-endian reading of another byte string: of the bytes in reverse order, or of the bytes with
the sign bit turned over.
-/

namespace Bytes

variable {as bs : List UInt8} {a b : UInt8} {n : ℕ}

/-- The value of a signed byte. -/
def signed (b : UInt8) : ℤ := if b.toNat < 128 then b.toNat else b.toNat - 256

/-- The sign bit of the first byte is turned over. -/
def flip : List UInt8 → List UInt8
  | [] => []
  | b :: bs => (b + 0x80) :: bs

theorem toNat_add_128 (b : UInt8) : (b + 0x80).toNat = (b.toNat + 128) % 256 :=
  UInt8.toNat_add b 0x80

theorem signed_eq (b : UInt8) : signed b = ((b + 0x80).toNat : ℤ) - 128 := by
  have hb : b.toNat < 256 := b.toNat_lt
  rw [signed, toNat_add_128]
  split_ifs <;> omega

theorem length_flip (bs : List UInt8) : (flip bs).length = bs.length := by
  cases bs with
  | nil => rfl
  | cons b bs => rfl

theorem flip_append_singleton (hbs : bs ≠ []) (b : UInt8) : flip (bs ++ [b]) = flip bs ++ [b] := by
  cases bs with
  | nil => exact absurd rfl hbs
  | cons c bs => rfl

/-- Half of the numbers have the sign bit; turning it over moves them below the others. -/
theorem number_flip (hbs : bs.length = n + 1) :
    number (flip bs) = if number bs < 128 * 256 ^ n then number bs + 128 * 256 ^ n
      else number bs - 128 * 256 ^ n := by
  cases bs with
  | nil => cases hbs
  | cons b bs =>
    have hlen : bs.length = n := by simpa using hbs
    have hb : b.toNat < 256 := b.toNat_lt
    have hrest := number_lt bs
    rw [hlen] at hrest
    rw [flip, number, number, toNat_add_128, hlen]
    by_cases hlow : b.toNat < 128
    · have hmul := Nat.mul_le_mul_right (256 ^ n) (Nat.succ_le_of_lt hlow)
      rw [Nat.succ_mul] at hmul
      rw [if_pos (by omega), Nat.mod_eq_of_lt (by omega), Nat.add_mul]
      omega
    · have hsplit : b.toNat = b.toNat - 128 + 128 := by omega
      have hmod : (b.toNat + 128) % 256 = b.toNat - 128 := by omega
      rw [hmod, hsplit, Nat.add_mul, if_neg (by omega), Nat.add_sub_cancel]
      omega

/-- The little-endian number of a byte string is the number of the bytes in reverse order. -/
theorem number_reverse (bs : List UInt8) : LittleEndian.number bs.reverse = number bs := by
  have happend : ∀ (as : List UInt8) (b : UInt8),
      LittleEndian.number (as ++ [b]) = LittleEndian.number as + 256 ^ as.length * b.toNat := by
    intro as b
    induction as with
    | nil => simp [LittleEndian.number]
    | cons a as ih =>
      rw [List.cons_append, LittleEndian.number, LittleEndian.number, ih, List.length_cons,
        Nat.pow_succ]
      ring
  induction bs with
  | nil => rfl
  | cons b bs ih =>
    rw [List.reverse_cons, happend, ih, number, List.length_reverse, Nat.mul_comm, Nat.add_comm]

/-! ### Comparing -/

theorem memcmp_append_singleton (ha : as.length = n) (hb : bs.length = n) (a b : UInt8) :
    memcmp (n + 1) (as ++ [a]) (bs ++ [b]) =
      if memcmp n as bs ≠ 0 then memcmp n as bs else (a.toNat : ℤ) - b.toNat := by
  induction n generalizing as bs with
  | zero =>
    rw [List.length_eq_zero_iff.mp ha, List.length_eq_zero_iff.mp hb]
    by_cases heq : a = b
    · simp [memcmp, heq]
    · simp [memcmp, heq]
  | succ n ih =>
    obtain ⟨x, as, rfl⟩ := List.exists_cons_of_length_eq_add_one ha
    obtain ⟨y, bs, rfl⟩ := List.exists_cons_of_length_eq_add_one hb
    rw [List.length_cons, Nat.add_right_cancel_iff] at ha hb
    rw [List.cons_append, List.cons_append, memcmp, memcmp]
    by_cases heq : x = y
    · rw [if_pos heq, if_pos heq, ih ha hb]
    · have hne : (x.toNat : ℤ) - y.toNat ≠ 0 := by
        rw [ne_eq, sub_eq_zero, Nat.cast_inj, UInt8.toNat_inj]
        exact heq
      rw [if_neg heq, if_neg heq, if_pos hne]

theorem memcmp_cons_flip (as bs : List UInt8) (a b : UInt8) :
    memcmp (n + 1) ((a + 0x80) :: as) ((b + 0x80) :: bs) =
      if signed a - signed b ≠ 0 then signed a - signed b else memcmp n as bs := by
  have hdiff : signed a - signed b = ((a + 0x80).toNat : ℤ) - (b + 0x80).toNat := by
    rw [signed_eq, signed_eq]
    ring
  have hzero : signed a - signed b = 0 ↔ a + 0x80 = b + 0x80 := by
    rw [hdiff, sub_eq_zero, Nat.cast_inj, UInt8.toNat_inj]
  rw [memcmp]
  by_cases heq : a + 0x80 = b + 0x80
  · rw [if_pos heq, if_neg (not_not.mpr (hzero.mpr heq))]
  · rw [if_neg heq, if_pos (mt hzero.mp heq), hdiff]

/-! ### Little-endian steps -/

/-- The loop that adds one to a little-endian number: whether it did not overflow. -/
def incrementLittle : List UInt8 → Bool × List UInt8
  | [] => (false, [])
  | b :: bs =>
    if b + 1 != 0 then (true, (b + 1) :: bs)
    else
      let (ok, rest) := incrementLittle bs
      (ok, (b + 1) :: rest)

/-- The loop that takes one from a little-endian number. -/
def decrementLittle : List UInt8 → Bool × List UInt8
  | [] => (false, [])
  | b :: bs =>
    if b - 1 != 0xff then (true, (b - 1) :: bs)
    else
      let (ok, rest) := decrementLittle bs
      (ok, (b - 1) :: rest)

theorem incrementBuffer_append_singleton (bs : List UInt8) (b : UInt8) :
    incrementBuffer (bs ++ [b]) = if b + 1 != 0 then (true, bs ++ [b + 1])
      else ((incrementBuffer bs).1, (incrementBuffer bs).2 ++ [b + 1]) := by
  induction bs with
  | nil => by_cases hb : (b + 1 != 0) = true <;> simp [incrementBuffer, hb]
  | cons c bs ih =>
    rw [List.cons_append, incrementBuffer, ih]
    by_cases hb : (b + 1 != 0) = true
    · simp [hb]
    · by_cases hok : (incrementBuffer bs).1 = true <;> simp [hb, hok, incrementBuffer]

theorem decrementBuffer_append_singleton (bs : List UInt8) (b : UInt8) :
    decrementBuffer (bs ++ [b]) = if b - 1 != 0xff then (true, bs ++ [b - 1])
      else ((decrementBuffer bs).1, (decrementBuffer bs).2 ++ [b - 1]) := by
  induction bs with
  | nil => by_cases hb : (b - 1 != 0xff) = true <;> simp [decrementBuffer, hb]
  | cons c bs ih =>
    rw [List.cons_append, decrementBuffer, ih]
    by_cases hb : (b - 1 != 0xff) = true
    · simp [hb]
    · by_cases hok : (decrementBuffer bs).1 = true <;> simp [hb, hok, decrementBuffer]

theorem reverse_incrementLittle (bs : List UInt8) :
    (incrementLittle bs).2.reverse = (incrementBuffer bs.reverse).2 := by
  induction bs with
  | nil => rfl
  | cons b bs ih =>
    rw [List.reverse_cons, incrementBuffer_append_singleton, incrementLittle]
    by_cases hb : (b + 1 != 0) = true
    · rw [if_pos hb, if_pos hb, List.reverse_cons]
    · rw [if_neg hb, if_neg hb, List.reverse_cons, ih]

theorem reverse_decrementLittle (bs : List UInt8) :
    (decrementLittle bs).2.reverse = (decrementBuffer bs.reverse).2 := by
  induction bs with
  | nil => rfl
  | cons b bs ih =>
    rw [List.reverse_cons, decrementBuffer_append_singleton, decrementLittle]
    by_cases hb : (b - 1 != 0xff) = true
    · rw [if_pos hb, if_pos hb, List.reverse_cons]
    · rw [if_neg hb, if_neg hb, List.reverse_cons, ih]

theorem length_incrementLittle (bs : List UInt8) : (incrementLittle bs).2.length = bs.length := by
  rw [← List.length_reverse, reverse_incrementLittle, length_incrementBuffer, List.length_reverse]

theorem length_decrementLittle (bs : List UInt8) : (decrementLittle bs).2.length = bs.length := by
  rw [← List.length_reverse, reverse_decrementLittle, length_decrementBuffer, List.length_reverse]

/-- The sign bit does not matter to a step. -/
theorem flip_incrementBuffer (bs : List UInt8) :
    flip (incrementBuffer bs).2 = (incrementBuffer (flip bs)).2 := by
  cases bs with
  | nil => rfl
  | cons b bs =>
    rw [flip, incrementBuffer, incrementBuffer]
    by_cases hok : (incrementBuffer bs).1 = true
    · simp [hok, flip]
    · simp [hok, flip, add_right_comm]

theorem flip_decrementBuffer (bs : List UInt8) :
    flip (decrementBuffer bs).2 = (decrementBuffer (flip bs)).2 := by
  cases bs with
  | nil => rfl
  | cons b bs =>
    rw [flip, decrementBuffer, decrementBuffer]
    by_cases hok : (decrementBuffer bs).1 = true
    · simp [hok, flip]
    · simp [hok, flip, sub_add_eq_add_sub]

end Bytes

namespace FixedBytes

variable {n : ℕ}

/-- The bytes in reverse order. -/
def reverse (v : FixedBytes n) : FixedBytes n :=
  ⟨v.bytes.reverse, by rw [List.length_reverse, v.length_bytes]⟩

/-- The sign bit of the first byte is turned over. -/
def flip (v : FixedBytes n) : FixedBytes n :=
  ⟨Bytes.flip v.bytes, by rw [Bytes.length_flip, v.length_bytes]⟩

theorem reverse_injective : Function.Injective (reverse : FixedBytes n → FixedBytes n) := by
  intro v w h
  exact ext (List.reverse_injective (congrArg bytes h))

theorem flip_injective : Function.Injective (flip : FixedBytes n → FixedBytes n) := by
  intro v w h
  have hbytes : Bytes.flip v.bytes = Bytes.flip w.bytes := congrArg bytes h
  apply ext
  revert hbytes
  cases v.bytes with
  | nil => cases w.bytes <;> simp [Bytes.flip]
  | cons b bs => cases w.bytes <;> simp [Bytes.flip]

theorem rank_flip (v : FixedBytes (n + 1)) :
    v.flip.rank = if v.rank < 128 * 256 ^ n then v.rank + 128 * 256 ^ n
      else v.rank - 128 * 256 ^ n :=
  Bytes.number_flip v.length_bytes

theorem reverse_fill (b : UInt8) : (fill n b).reverse = fill n b :=
  ext List.reverse_replicate

end FixedBytes
