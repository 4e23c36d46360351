import HpccPlatform.Library.Bytes

/-!
# Byte strings of one size

A byte string is numbered as a big-endian number.  `memcmp` compares the numbers of strings of one
size, and the loops that add one to a buffer or take one from it do so with its number, up to the
overflow.

`put` writes a block into a longer byte string, and `read` reads one.
-/

namespace Bytes

/-- The big-endian number of a byte string. -/
def number : List UInt8 → ℕ
  | [] => 0
  | b :: bs => b.toNat * 256 ^ bs.length + number bs

variable {bs as : List UInt8} {n : ℕ}

theorem number_lt (bs : List UInt8) : number bs < 256 ^ bs.length := by
  induction bs with
  | nil => exact Nat.one_pos
  | cons b bs ih =>
    have hb : b.toNat + 1 ≤ 256 := b.toNat_lt
    have hmul := Nat.mul_le_mul_right (256 ^ bs.length) hb
    rw [number, List.length_cons, Nat.pow_succ, Nat.mul_comm (256 ^ bs.length)]
    rw [Nat.add_mul, Nat.one_mul] at hmul
    omega

/-- The first byte decides, and then the other bytes do. -/
theorem number_lt_number_iff {a b : UInt8} (hlen : as.length = bs.length) :
    number (a :: as) < number (b :: bs) ↔ a < b ∨ a = b ∧ number as < number bs := by
  have has := number_lt as
  have hbs := number_lt bs
  rw [hlen] at has
  rw [number, number, hlen, UInt8.lt_iff_toNat_lt, ← UInt8.toNat_inj]
  rcases lt_trichotomy a.toNat b.toNat with hlt | heq | hgt
  · have hmul := Nat.mul_le_mul_right (256 ^ bs.length) (Nat.succ_le_of_lt hlt)
    rw [Nat.succ_mul] at hmul
    refine iff_of_true ?_ (Or.inl hlt)
    omega
  · rw [heq]
    omega
  · have hmul := Nat.mul_le_mul_right (256 ^ bs.length) (Nat.succ_le_of_lt hgt)
    rw [Nat.succ_mul] at hmul
    refine iff_of_false ?_ ?_
    · omega
    · omega

theorem memcmp_neg_iff (ha : as.length = n) (hb : bs.length = n) :
    memcmp n as bs < 0 ↔ number as < number bs := by
  induction n generalizing as bs with
  | zero =>
    rw [List.length_eq_zero_iff] at ha hb
    rw [ha, hb]
    exact iff_of_false (lt_irrefl _) (lt_irrefl _)
  | succ n ih =>
    obtain ⟨a, as, rfl⟩ := List.exists_cons_of_length_eq_add_one ha
    obtain ⟨b, bs, rfl⟩ := List.exists_cons_of_length_eq_add_one hb
    rw [List.length_cons, Nat.add_right_cancel_iff] at ha hb
    rw [number_lt_number_iff (ha.trans hb.symm), memcmp]
    by_cases heq : a = b
    · rw [if_pos heq, ih ha hb]
      exact ⟨fun h => Or.inr ⟨heq, h⟩, fun h =>
        h.elim (fun hlt => absurd hlt (by rw [heq]; exact UInt8.lt_irrefl b)) And.right⟩
    · rw [if_neg heq, sub_neg, Nat.cast_lt, UInt8.lt_iff_toNat_lt]
      exact ⟨Or.inl, fun h => h.resolve_right (fun hc => heq hc.1)⟩

theorem memcmp_pos_iff (ha : as.length = n) (hb : bs.length = n) :
    0 < memcmp n as bs ↔ number bs < number as := by
  rw [← memcmp_neg_iff hb ha, memcmp_swap n as bs]
  exact neg_lt_zero.symm

theorem number_injective (hlen : as.length = bs.length) (h : number as = number bs) :
    as = bs := by
  have hzero : memcmp bs.length as bs = 0 := by
    have hneg := memcmp_neg_iff hlen (rfl : bs.length = bs.length)
    have hpos := memcmp_pos_iff hlen (rfl : bs.length = bs.length)
    omega
  rw [memcmp_eq_zero_iff hlen.ge le_rfl, List.take_length, List.take_of_length_le hlen.le] at hzero
  exact hzero

/-! ## The next and the previous byte string -/

/-- The loop of `incrementBuffer`, from the last byte on: whether it did not overflow. -/
def incrementBuffer : List UInt8 → Bool × List UInt8
  | [] => (false, [])
  | b :: bs =>
    let (ok, rest) := incrementBuffer bs
    if ok then (true, b :: rest) else (b + 1 != 0, (b + 1) :: rest)

/-- The loop of `decrementBuffer`. -/
def decrementBuffer : List UInt8 → Bool × List UInt8
  | [] => (false, [])
  | b :: bs =>
    let (ok, rest) := decrementBuffer bs
    if ok then (true, b :: rest) else (b - 1 != 0xff, (b - 1) :: rest)

theorem length_incrementBuffer (bs : List UInt8) :
    (incrementBuffer bs).2.length = bs.length := by
  induction bs with
  | nil => rfl
  | cons b bs ih =>
    unfold incrementBuffer
    dsimp only
    split_ifs
    · exact congrArg (· + 1) ih
    · exact congrArg (· + 1) ih

theorem length_decrementBuffer (bs : List UInt8) :
    (decrementBuffer bs).2.length = bs.length := by
  induction bs with
  | nil => rfl
  | cons b bs ih =>
    unfold decrementBuffer
    dsimp only
    split_ifs
    · exact congrArg (· + 1) ih
    · exact congrArg (· + 1) ih

/-- Either the number grows by one, or it was the greatest and becomes 0. -/
theorem incrementBuffer_spec (bs : List UInt8) :
    if (incrementBuffer bs).1 then number (incrementBuffer bs).2 = number bs + 1
    else number bs + 1 = 256 ^ bs.length ∧ number (incrementBuffer bs).2 = 0 := by
  induction bs with
  | nil => exact ⟨rfl, rfl⟩
  | cons b bs ih =>
    have hlen := length_incrementBuffer bs
    by_cases hok : (incrementBuffer bs).1 = true
    · have hcons : incrementBuffer (b :: bs) = (true, b :: (incrementBuffer bs).2) := if_pos hok
      rw [if_pos hok] at ih
      rw [hcons, if_pos rfl, number, number, hlen, ih]
      omega
    · have hcons : incrementBuffer (b :: bs) = (b + 1 != 0, (b + 1) :: (incrementBuffer bs).2) :=
        if_neg hok
      rw [if_neg hok] at ih
      have hb := b.toNat_lt
      have hadd : (b + 1).toNat = (b.toNat + 1) % 256 := UInt8.toNat_add b 1
      have hflag : b + 1 = 0 ↔ b.toNat = 255 := by
        rw [← UInt8.toNat_inj, hadd, UInt8.toNat_zero]
        omega
      by_cases htop : b.toNat = 255
      · rw [hflag.mpr htop, bne_self_eq_false] at hcons
        rw [hcons, if_neg Bool.false_ne_true, number, number, ih.2, htop, List.length_cons,
          Nat.pow_succ]
        refine ⟨?_, ?_⟩
        · omega
        · exact Nat.zero_mul _
      · rw [bne_iff_ne.mpr (mt hflag.mp htop)] at hcons
        rw [hcons, if_pos rfl, number, number, hlen, ih.2, hadd, Nat.mod_eq_of_lt (by omega),
          Nat.add_mul]
        omega

/-- Either the number shrinks by one, or it was 0 and becomes the greatest. -/
theorem decrementBuffer_spec (bs : List UInt8) :
    if (decrementBuffer bs).1 then number (decrementBuffer bs).2 + 1 = number bs
    else number bs = 0 ∧ number (decrementBuffer bs).2 + 1 = 256 ^ bs.length := by
  induction bs with
  | nil => exact ⟨rfl, rfl⟩
  | cons b bs ih =>
    have hlen := length_decrementBuffer bs
    by_cases hok : (decrementBuffer bs).1 = true
    · have hcons : decrementBuffer (b :: bs) = (true, b :: (decrementBuffer bs).2) := if_pos hok
      rw [if_pos hok] at ih
      rw [hcons, if_pos rfl, number, number, hlen]
      omega
    · have hcons : decrementBuffer (b :: bs) = (b - 1 != 0xff, (b - 1) :: (decrementBuffer bs).2) :=
        if_neg hok
      rw [if_neg hok] at ih
      have hb := b.toNat_lt
      have hsub : (b - 1).toNat = (255 + b.toNat) % 256 := UInt8.toNat_sub b 1
      have hff : (0xff : UInt8).toNat = 255 := rfl
      have hflag : b - 1 = 0xff ↔ b.toNat = 0 := by
        rw [← UInt8.toNat_inj, hsub, hff]
        omega
      by_cases hzero : b.toNat = 0
      · rw [hflag.mpr hzero, bne_self_eq_false] at hcons
        rw [hcons, if_neg Bool.false_ne_true, number, number, hlen, ih.1, hzero, hff,
          List.length_cons, Nat.pow_succ]
        refine ⟨?_, ?_⟩
        · exact Nat.zero_mul _
        · omega
      · have hpred : (255 + b.toNat) % 256 = b.toNat - 1 := by omega
        have hsplit : b.toNat = b.toNat - 1 + 1 := by omega
        rw [bne_iff_ne.mpr (mt hflag.mp hzero)] at hcons
        rw [hcons, if_pos rfl, number, number, hlen, ih.1, hsub, hpred]
        conv_rhs => rw [hsplit, Nat.add_mul]
        omega

theorem number_replicate_zero (n : ℕ) : number (List.replicate n 0) = 0 := by
  induction n with
  | zero => rfl
  | succ n ih =>
    rw [List.replicate_succ, number, ih]
    exact Nat.zero_mul _

theorem number_replicate_ff (n : ℕ) : number (List.replicate n 0xff) + 1 = 256 ^ n := by
  induction n with
  | zero => rfl
  | succ n ih =>
    have hff : (0xff : UInt8).toNat = 255 := rfl
    rw [List.replicate_succ, number, List.length_replicate, hff, Nat.pow_succ]
    omega

/-- The number of a string whose first bytes are `as`. -/
theorem number_append (as bs : List UInt8) :
    number (as ++ bs) = number as * 256 ^ bs.length + number bs := by
  induction as with
  | nil => rw [List.nil_append, number, Nat.zero_mul, Nat.zero_add]
  | cons a as ih =>
    rw [List.cons_append, number, number, ih, List.length_append, Nat.pow_add, Nat.add_mul,
      Nat.mul_assoc, Nat.add_assoc]

theorem number_eq_zero_iff : number bs = 0 ↔ ∀ b ∈ bs, b = 0 := by
  constructor
  · intro h
    have hzeros : bs = List.replicate bs.length 0 :=
      number_injective List.length_replicate.symm (h.trans (number_replicate_zero _).symm)
    exact (List.eq_replicate_iff.mp hzeros).2
  · intro h
    rw [List.eq_replicate_of_mem h]
    exact number_replicate_zero _

/-- The greatest number is that of the string of 0xff. -/
theorem number_add_one_eq_iff : number bs + 1 = 256 ^ bs.length ↔ ∀ b ∈ bs, b = 0xff := by
  constructor
  · intro h
    have htops : bs = List.replicate bs.length 0xff :=
      number_injective List.length_replicate.symm
        (Nat.succ.inj (h.trans (number_replicate_ff _).symm))
    exact (List.eq_replicate_iff.mp htops).2
  · intro h
    rw [List.eq_replicate_of_mem h, List.length_replicate]
    exact number_replicate_ff _

/-! ## Blocks of a longer byte string -/

/-- Copy a block to an offset. -/
def put (buffer : List UInt8) (offset : ℕ) (block : List UInt8) : List UInt8 :=
  buffer.take offset ++ block ++ buffer.drop (offset + block.length)

/-- The bytes at an offset; what is behind the end of the buffer reads as 0. -/
def slice (buffer : List UInt8) (offset size : ℕ) : List UInt8 :=
  (buffer.drop offset ++ List.replicate size 0).take size

variable {buffer block : List UInt8} {offset size i : ℕ}

theorem length_slice (buffer : List UInt8) (offset size : ℕ) :
    (slice buffer offset size).length = size := by
  unfold slice
  rw [List.length_take, List.length_append, List.length_replicate]
  omega

theorem length_put (h : offset + block.length ≤ buffer.length) :
    (put buffer offset block).length = buffer.length := by
  unfold put
  rw [List.length_append, List.length_append, List.length_take, List.length_drop]
  omega

theorem getElem?_put (h : offset + block.length ≤ buffer.length) (i : ℕ) :
    (put buffer offset block)[i]? =
      if offset ≤ i ∧ i < offset + block.length then block[i - offset]? else buffer[i]? := by
  have htake : (buffer.take offset).length = offset := by
    rw [List.length_take]
    omega
  unfold put
  rw [List.append_assoc]
  rcases lt_or_ge i offset with hlt | hge
  · rw [List.getElem?_append_left (by omega), List.getElem?_take_of_lt hlt, if_neg (by omega)]
  · rw [List.getElem?_append_right (by omega), htake]
    by_cases hin : i < offset + block.length
    · rw [List.getElem?_append_left (by omega), if_pos ⟨hge, hin⟩]
    · rw [List.getElem?_append_right (by omega), List.getElem?_drop, if_neg (by omega)]
      congr 1
      omega

theorem getElem?_slice (h : offset + size ≤ buffer.length) (hi : i < size) :
    (slice buffer offset size)[i]? = buffer[offset + i]? := by
  unfold slice
  rw [List.getElem?_take_of_lt hi, List.getElem?_append_left, List.getElem?_drop]
  rw [List.length_drop]
  omega

theorem slice_eq (h : offset + size ≤ buffer.length) :
    slice buffer offset size = (buffer.drop offset).take size := by
  unfold slice
  rw [List.take_append_of_le_length]
  rw [List.length_drop]
  omega

/-- Two blocks, one behind the other, are one block. -/
theorem put_put_append {rest : List UInt8}
    (h : offset + block.length + rest.length ≤ buffer.length) :
    put (put buffer offset block) (offset + block.length) rest =
      put buffer offset (block ++ rest) := by
  have hblock : offset + block.length ≤ buffer.length := (Nat.le_add_right _ _).trans h
  have htake : (buffer.take offset ++ block).length = offset + block.length := by
    rw [List.length_append, List.length_take, Nat.min_eq_left (by omega)]
  have hwritten : (put buffer offset block).take (offset + block.length) =
      buffer.take offset ++ block := by
    unfold put
    rw [List.take_append_of_le_length htake.ge, List.take_of_length_le htake.le]
  have hbehind : (put buffer offset block).drop (offset + block.length + rest.length) =
      buffer.drop (offset + block.length + rest.length) := by
    unfold put
    rw [← htake, ← List.drop_drop, List.drop_left, List.drop_drop, htake]
  rw [put.eq_def (put buffer offset block), hwritten, hbehind, put, List.length_append,
    ← Nat.add_assoc, ← List.append_assoc]

/-- A block that is written where it was read leaves the buffer as it was. -/
theorem put_slice_self (h : offset + size ≤ buffer.length) :
    put buffer offset (slice buffer offset size) = buffer := by
  rw [put, length_slice, slice_eq h, ← List.drop_drop, List.append_assoc, List.take_append_drop,
    List.take_append_drop]

/-- The second of two blocks of one length, at one place, is left. -/
theorem put_put_same {new : List UInt8} (hlen : new.length = block.length)
    (h : offset + block.length ≤ buffer.length) :
    put (put buffer offset block) offset new = put buffer offset new := by
  have htake : (buffer.take offset).length = offset := by
    rw [List.length_take, Nat.min_eq_left (by omega)]
  have hboth : (buffer.take offset ++ block).length = offset + block.length := by
    rw [List.length_append, htake]
  rw [put.eq_def (put buffer offset block), put, put, hlen, List.append_assoc (buffer.take offset),
    List.take_left' htake, ← List.append_assoc (buffer.take offset), ← hboth, List.drop_left]

/-- A block that was written is read again. -/
theorem slice_put_self (h : offset + block.length ≤ buffer.length) (hsize : block.length = size) :
    slice (put buffer offset block) offset size = block := by
  apply List.ext_getElem?
  intro i
  rcases lt_or_ge i size with hlt | hge
  · rw [getElem?_slice (by rw [length_put h]; omega) hlt, getElem?_put h, if_pos (by omega)]
    congr 1
    omega
  · rw [List.getElem?_eq_none (by rw [length_slice]; exact hge), List.getElem?_eq_none (by omega)]

/-- A block that does not meet the written one is left as it is. -/
theorem slice_put_of_disjoint {at' : ℕ} (h : offset + block.length ≤ buffer.length)
    (hsize : at' + size ≤ buffer.length)
    (hdisjoint : at' + size ≤ offset ∨ offset + block.length ≤ at') :
    slice (put buffer offset block) at' size = slice buffer at' size := by
  apply List.ext_getElem?
  intro i
  rcases lt_or_ge i size with hlt | hge
  · rw [getElem?_slice (by rw [length_put h]; exact hsize) hlt, getElem?_put h,
      getElem?_slice hsize hlt, if_neg (by omega)]
  · rw [List.getElem?_eq_none (by rw [length_slice]; exact hge),
      List.getElem?_eq_none (by rw [length_slice]; exact hge)]

/-- The bytes behind a written block are left as they are. -/
theorem put_append_slice (h : offset + block.length + size ≤ buffer.length) :
    put buffer offset (block ++ slice buffer (offset + block.length) size) =
      put buffer offset block := by
  have hlen := length_put ((Nat.le_add_right _ size).trans h)
  have hslice : slice buffer (offset + block.length) size =
      slice (put buffer offset block) (offset + block.length) size :=
    (slice_put_of_disjoint ((Nat.le_add_right _ _).trans h) h (Or.inr le_rfl)).symm
  rw [← put_put_append (by rw [length_slice]; exact h), hslice]
  exact put_slice_self (by rw [hlen]; exact h)

end Bytes

/-- A byte string with `n` bytes. -/
def FixedBytes (n : ℕ) : Type := { bytes : List UInt8 // bytes.length = n }

namespace FixedBytes

open Bytes

variable {n : ℕ}

instance : DecidableEq (FixedBytes n) :=
  inferInstanceAs (DecidableEq { bytes : List UInt8 // bytes.length = n })

def bytes (v : FixedBytes n) : List UInt8 := v.val

@[simp] theorem length_bytes (v : FixedBytes n) : v.bytes.length = n := v.property

@[ext] theorem ext {v w : FixedBytes n} (h : v.bytes = w.bytes) : v = w := Subtype.ext h

/-- The place of a byte string in the order of `memcmp`. -/
def rank (v : FixedBytes n) : ℕ := number v.bytes

theorem rank_lt (v : FixedBytes n) : v.rank < 256 ^ n := by
  have h := number_lt v.bytes
  rw [v.length_bytes] at h
  exact h

theorem rank_injective {v w : FixedBytes n} (h : v.rank = w.rank) : v = w :=
  ext (number_injective (by rw [v.length_bytes, w.length_bytes]) h)

/-- `memset` with one byte. -/
def fill (n : ℕ) (b : UInt8) : FixedBytes n := ⟨List.replicate n b, List.length_replicate⟩

def low : FixedBytes n := fill n 0

def high : FixedBytes n := fill n 0xff

theorem rank_low : (low : FixedBytes n).rank = 0 := number_replicate_zero n

theorem rank_high : (high : FixedBytes n).rank + 1 = 256 ^ n := number_replicate_ff n

/-- Whether there was no overflow, and the next byte string. -/
def increment (v : FixedBytes n) : Bool × FixedBytes n :=
  ((incrementBuffer v.bytes).1, ⟨(incrementBuffer v.bytes).2,
    (length_incrementBuffer v.bytes).trans v.length_bytes⟩)

def decrement (v : FixedBytes n) : Bool × FixedBytes n :=
  ((decrementBuffer v.bytes).1, ⟨(decrementBuffer v.bytes).2,
    (length_decrementBuffer v.bytes).trans v.length_bytes⟩)

theorem increment_spec (v : FixedBytes n) :
    if v.increment.1 then v.increment.2.rank = v.rank + 1
    else v.rank + 1 = 256 ^ n ∧ v.increment.2.rank = 0 := by
  have h := incrementBuffer_spec v.bytes
  rw [v.length_bytes] at h
  exact h

theorem decrement_spec (v : FixedBytes n) :
    if v.decrement.1 then v.decrement.2.rank + 1 = v.rank
    else v.rank = 0 ∧ v.decrement.2.rank + 1 = 256 ^ n := by
  have h := decrementBuffer_spec v.bytes
  rw [v.length_bytes] at h
  exact h

theorem increment_fst_iff (v : FixedBytes n) : v.increment.1 = true ↔ v.rank + 1 < 256 ^ n := by
  have h := v.increment_spec
  have hlt := v.increment.2.rank_lt
  by_cases hok : v.increment.1 = true
  · rw [if_pos hok] at h
    exact iff_of_true hok (by omega)
  · rw [if_neg hok] at h
    exact iff_of_false hok (by omega)

/-- Every number below the limit is the rank of a byte string. -/
theorem exists_rank {r : ℕ} (h : r < 256 ^ n) : ∃ v : FixedBytes n, v.rank = r := by
  induction r with
  | zero => exact ⟨low, rank_low⟩
  | succ r ih =>
    obtain ⟨v, rfl⟩ := ih ((Nat.lt_succ_self r).trans h)
    have hnext := v.increment_spec
    rw [if_pos (v.increment_fst_iff.mpr h)] at hnext
    exact ⟨v.increment.2, hnext⟩

/-- The field of a buffer at an offset. -/
def read (buffer : List UInt8) (offset n : ℕ) : FixedBytes n :=
  ⟨slice buffer offset n, length_slice buffer offset n⟩

theorem read_put_self {buffer : List UInt8} {offset : ℕ} (v : FixedBytes n)
    (h : offset + n ≤ buffer.length) : read (put buffer offset v.bytes) offset n = v :=
  ext (slice_put_self (by rw [v.length_bytes]; exact h) v.length_bytes)

end FixedBytes
