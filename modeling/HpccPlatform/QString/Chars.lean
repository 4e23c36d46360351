import HpccPlatform.Library.Buffer
import HpccPlatform.Library.SixBit

/-!
# The characters of a QSTRING

A QSTRING holds characters of six bits, four of them in three bytes.  The functions of `rtlqstr.cpp`
that read and write single characters are given here: `getQChar`, `setQChar` and `QStrReader`.
Lengths and positions have 32 bits.
-/

namespace QString

open Buffer SixBit

def QStrSize (length : ℕ) : ℕ := (length + 1) * 3 % 2 ^ 32 / 4

def lastQStrByteMask (tlen : ℕ) : UInt8 :=
  match tlen % 4 with
  | 1 => 0xfc
  | 2 => 0xf0
  | 3 => 0xc0
  | _ => 0xff

def expandQChar (c : UInt8) : UInt8 := 0x20 + c

def compressXlat : List UInt8 :=
  List.replicate 0x20 0x00 ++
  [0x00, 0x01, 0x02, 0x03, 0x04, 0x05, 0x06, 0x07, 0x08, 0x09, 0x0a, 0x0b, 0x0c, 0x0d, 0x0e, 0x0f,
    0x10, 0x11, 0x12, 0x13, 0x14, 0x15, 0x16, 0x17, 0x18, 0x19, 0x1a, 0x1b, 0x1c, 0x1d, 0x1e, 0x1f,
    0x20, 0x21, 0x22, 0x23, 0x24, 0x25, 0x26, 0x27, 0x28, 0x29, 0x2a, 0x2b, 0x2c, 0x2d, 0x2e, 0x2f,
    0x30, 0x31, 0x32, 0x33, 0x34, 0x35, 0x36, 0x37, 0x38, 0x39, 0x3a, 0x3b, 0x3c, 0x3d, 0x3e, 0x3f,
    0x00, 0x21, 0x22, 0x23, 0x24, 0x25, 0x26, 0x27, 0x28, 0x29, 0x2a, 0x2b, 0x2c, 0x2d, 0x2e, 0x2f,
    0x30, 0x31, 0x32, 0x33, 0x34, 0x35, 0x36, 0x37, 0x38, 0x39, 0x3a, 0x00, 0x00, 0x00, 0x00, 0x00] ++
  List.replicate 0x80 0x00

def compressQChar (c : UInt8) : UInt8 := compressXlat.getD c.toNat 0

/-- The switch of `getQChar` and of `QStrReader`. -/
def readQChar (buffer : List UInt8) (offset index : ℕ) : Option UInt8 :=
  match index % 4 with
  | 0 => do
    let cur ← peek buffer offset
    return cur >>> 2
  | 1 => do
    let cur ← peek buffer offset
    let next ← peek buffer (offset + 1)
    return (cur &&& 0x3 : UInt8) <<< 4 ||| next >>> 4
  | 2 => do
    let cur ← peek buffer offset
    let next ← peek buffer (offset + 1)
    return (cur &&& 0xf : UInt8) <<< 2 ||| next >>> 6
  | _ => do
    let cur ← peek buffer offset
    return cur &&& 0x3f

def getQChar (buffer : List UInt8) (index : ℕ) : Option UInt8 :=
  readQChar buffer (index * 3 % 2 ^ 32 / 4) index

def setQChar (buffer : List UInt8) (index : ℕ) (value : UInt8) : Option (List UInt8) := do
  let offset := index * 3 % 2 ^ 32 / 4
  let cur ← peek buffer offset
  match index % 4 with
  | 0 => poke buffer offset ((cur &&& 0x03 : UInt8) ||| value <<< 2)
  | 1 =>
    let next ← peek buffer (offset + 1)
    let buffer ← poke buffer (offset + 1) ((next &&& 0x0f : UInt8) ||| (value &&& 0x0F : UInt8) <<< 4)
    poke buffer offset ((cur &&& 0xFC : UInt8) ||| value >>> 4)
  | 2 =>
    let next ← peek buffer (offset + 1)
    let buffer ← poke buffer (offset + 1) ((next &&& 0x3f : UInt8) ||| (value &&& 0x03 : UInt8) <<< 6)
    poke buffer offset ((cur &&& 0xF0 : UInt8) ||| value >>> 2)
  | _ => poke buffer offset ((cur &&& 0xC0 : UInt8) ||| value)

/-! ### Steps of one character -/

/-- The loop of `incrementQString` and of `decrementQString` with `i` characters left: whether it
has found a character that does not become `wrapped`. -/
def stepLoop (step : UInt8 → UInt8) (wrapped : UInt8) : ℕ → List UInt8 → Option (Bool × List UInt8)
  | 0, buf => some (false, buf)
  | i + 1, buf => do
    let next ← getQChar buf i
    let next := step next &&& 0x3F
    let buf ← setQChar buf i next
    if next ≠ wrapped then return (true, buf) else stepLoop step wrapped i buf

/-- `int i = size` is negative from `2 ^ 31` on. -/
def stepQString (step : UInt8 → UInt8) (wrapped : UInt8) (buf : List UInt8) (size : ℕ) :
    Option (Bool × List UInt8) :=
  if size < 2 ^ 31 then stepLoop step wrapped size buf else none

def incrementQString : List UInt8 → ℕ → Option (Bool × List UInt8) := stepQString (· + 1) 0

def decrementQString : List UInt8 → ℕ → Option (Bool × List UInt8) := stepQString (· - 1) 0x3f

/-! ### `QStrReader` -/

structure QStrReader where
  buffer : List UInt8
  curLen : ℕ
  offset : ℕ

namespace QStrReader

def init (buffer : List UInt8) : QStrReader := ⟨buffer, 0, 0⟩

def curQChar (r : QStrReader) : Option UInt8 := readQChar r.buffer r.offset r.curLen

def nextQChar (r : QStrReader) : Option (UInt8 × QStrReader) := do
  let c ← r.curQChar
  let r := if r.curLen % 4 ≠ 0 then { r with offset := (r.offset + 1) % 2 ^ 32 } else r
  return (c, { r with curLen := (r.curLen + 1) % 2 ^ 32 })

def prevQChar (r : QStrReader) : Option (UInt8 × QStrReader) := do
  let r := { r with curLen := (r.curLen + 2 ^ 32 - 1) % 2 ^ 32 }
  let r := if r.curLen % 4 ≠ 0 then { r with offset := (r.offset + 2 ^ 32 - 1) % 2 ^ 32 } else r
  return (← r.curQChar, r)

def seek (r : QStrReader) (pos : ℕ) : QStrReader :=
  { r with curLen := pos, offset := pos * 3 % 2 ^ 32 / 4 }

end QStrReader

/-! ### Digits and bytes -/

/-- The bytes of a buffer as a sequence. -/
def bytesOf (buf : List UInt8) (k : ℕ) : ℕ := (buf.getD k 0).toNat

/-- The characters of a buffer as a sequence. -/
def charsOf (buf : List UInt8) : ℕ → ℕ := charAt (bytesOf buf)

/-- The lengths for which `QStrSize` does not overflow. -/
def Fits (length : ℕ) : Prop := length < 1431655765

variable {buf r : List UInt8} {i j k n : ℕ} {value x y : UInt8}

theorem bytesOf_lt (buf : List UInt8) (k : ℕ) : bytesOf buf k < 256 := UInt8.toNat_lt _

theorem charsOf_lt (buf : List UInt8) (i : ℕ) : charsOf buf i < 64 := charAt_lt (bytesOf_lt buf) i

theorem QStrSize_eq (h : Fits n) : QStrSize n = size n := by
  unfold Fits at h
  rw [QStrSize, size, Nat.mod_eq_of_lt (by omega)]

theorem size_mono (h : n ≤ k) : size n ≤ size k :=
  Nat.div_le_div_right (Nat.mul_le_mul_right 3 (Nat.succ_le_succ h))

/-- A buffer is given by its characters. -/
theorem bytesOf_eq_byteAt (buf : List UInt8) (k : ℕ) : bytesOf buf k = byteAt (charsOf buf) k :=
  (byteAt_charAt (bytesOf_lt buf) k).symm

theorem charsOf_eq_of_bytesOf {c : ℕ → ℕ} (hc : ∀ i, c i < 64) (h : ∀ k, bytesOf buf k = byteAt c k)
    (i : ℕ) : charsOf buf i = c i := by
  rw [charsOf, funext h, charAt_byteAt hc]

theorem toNat_or_eq_add (k : ℕ) (hx : x.toNat % 2 ^ k = 0) (hy : y.toNat < 2 ^ k) :
    (x ||| y).toNat = x.toNat + y.toNat := by
  rw [UInt8.toNat_or, ← Nat.div_add_mod x.toNat (2 ^ k), hx, Nat.add_zero,
    Nat.two_pow_add_eq_or_of_lt hy]

theorem toNat_shiftRight_two (x : UInt8) : (x >>> 2).toNat = x.toNat / 4 := by
  rw [UInt8.toNat_shiftRight]
  exact Nat.shiftRight_eq_div_pow _ 2

theorem toNat_shiftRight_four (x : UInt8) : (x >>> 4).toNat = x.toNat / 16 := by
  rw [UInt8.toNat_shiftRight]
  exact Nat.shiftRight_eq_div_pow _ 4

theorem toNat_shiftRight_six (x : UInt8) : (x >>> 6).toNat = x.toNat / 64 := by
  rw [UInt8.toNat_shiftRight]
  exact Nat.shiftRight_eq_div_pow _ 6

theorem toNat_shiftLeft_two (x : UInt8) : (x <<< 2).toNat = x.toNat * 4 % 256 := by
  rw [UInt8.toNat_shiftLeft]
  exact congrArg (· % 256) (Nat.shiftLeft_eq _ 2)

theorem toNat_shiftLeft_four (x : UInt8) : (x <<< 4).toNat = x.toNat * 16 % 256 := by
  rw [UInt8.toNat_shiftLeft]
  exact congrArg (· % 256) (Nat.shiftLeft_eq _ 4)

theorem toNat_shiftLeft_six (x : UInt8) : (x <<< 6).toNat = x.toNat * 64 % 256 := by
  rw [UInt8.toNat_shiftLeft]
  exact congrArg (· % 256) (Nat.shiftLeft_eq _ 6)

theorem toNat_and_3 (x : UInt8) : (x &&& 0x3).toNat = x.toNat % 4 := by
  rw [UInt8.toNat_and]
  exact Nat.and_two_pow_sub_one_eq_mod _ 2

theorem toNat_and_f (x : UInt8) : (x &&& 0xf).toNat = x.toNat % 16 := by
  rw [UInt8.toNat_and]
  exact Nat.and_two_pow_sub_one_eq_mod _ 4

theorem toNat_and_3f (x : UInt8) : (x &&& 0x3f).toNat = x.toNat % 64 := by
  rw [UInt8.toNat_and]
  exact Nat.and_two_pow_sub_one_eq_mod _ 6

/-- The masks that keep the upper bits. -/
theorem toNat_and_upper (x : UInt8) : (x &&& 0xFC).toNat = x.toNat / 4 * 4 ∧
    (x &&& 0xF0).toNat = x.toNat / 16 * 16 ∧ (x &&& 0xC0).toNat = x.toNat / 64 * 64 := by
  refine forall_byte x ?_
  decide +kernel

theorem toNat_and_fc (x : UInt8) : (x &&& 0xFC).toNat = x.toNat / 4 * 4 := (toNat_and_upper x).1

theorem toNat_and_f0 (x : UInt8) : (x &&& 0xF0).toNat = x.toNat / 16 * 16 := (toNat_and_upper x).2.1

theorem toNat_and_c0 (x : UInt8) : (x &&& 0xC0).toNat = x.toNat / 64 * 64 := (toNat_and_upper x).2.2

/-! ### Reading a character -/

/-- The character `i` of a buffer. -/
def qchar (buf : List UInt8) (i : ℕ) : UInt8 := UInt8.ofNat (charsOf buf i)

theorem toNat_qchar (buf : List UInt8) (i : ℕ) : (qchar buf i).toNat = charsOf buf i := by
  rw [qchar, UInt8.toNat_ofNat', Nat.mod_eq_of_lt ((charsOf_lt buf i).trans (by decide))]

theorem eq_qchar (h : x.toNat = charsOf buf i) : x = qchar buf i :=
  UInt8.toNat_inj.1 (h.trans (toNat_qchar buf i).symm)

section Groups

variable (buf : List UInt8) (g : ℕ)

theorem qchar_zero : buf.getD (3 * g) 0 >>> 2 = qchar buf (4 * g) := by
  refine eq_qchar ?_
  rw [toNat_shiftRight_two, charsOf, charAt_zero, bytesOf]

theorem qchar_one : (buf.getD (3 * g) 0 &&& 0x3) <<< 4 ||| buf.getD (3 * g + 1) 0 >>> 4 =
    qchar buf (4 * g + 1) := by
  have hhigh := toNat_shiftLeft_four (buf.getD (3 * g) 0 &&& 0x3)
  have hlow := toNat_shiftRight_four (buf.getD (3 * g + 1) 0)
  have hlt : (buf.getD (3 * g + 1) 0).toNat < 256 := UInt8.toNat_lt _
  rw [toNat_and_3] at hhigh
  refine eq_qchar ?_
  rw [toNat_or_eq_add 4 (by omega) (by omega), hhigh, hlow, charsOf, charAt_one, bytesOf, bytesOf]
  omega

theorem qchar_two : (buf.getD (3 * g + 1) 0 &&& 0xf) <<< 2 ||| buf.getD (3 * g + 2) 0 >>> 6 =
    qchar buf (4 * g + 2) := by
  have hhigh := toNat_shiftLeft_two (buf.getD (3 * g + 1) 0 &&& 0xf)
  have hlow := toNat_shiftRight_six (buf.getD (3 * g + 2) 0)
  have hlt : (buf.getD (3 * g + 2) 0).toNat < 256 := UInt8.toNat_lt _
  rw [toNat_and_f] at hhigh
  refine eq_qchar ?_
  rw [toNat_or_eq_add 2 (by omega) (by omega), hhigh, hlow, charsOf, charAt_two, bytesOf, bytesOf]
  omega

theorem qchar_three : buf.getD (3 * g + 2) 0 &&& 0x3f = qchar buf (4 * g + 3) := by
  refine eq_qchar ?_
  rw [toNat_and_3f, charsOf, charAt_three, bytesOf]

end Groups

theorem readQChar_eq (h : size (i + 1) ≤ buf.length) :
    readQChar buf (3 * i / 4) i = some (qchar buf i) := by
  unfold size at h
  obtain ⟨g, rfl | rfl | rfl | rfl⟩ := exists_group_of_four i
  · have ho : 3 * (4 * g) / 4 = 3 * g := by omega
    have hr : 4 * g % 4 = 0 := by omega
    simp only [readQChar, ho, hr, peek_of_lt (show 3 * g < buf.length by omega)]
    exact congrArg some (qchar_zero buf g)
  · have ho : 3 * (4 * g + 1) / 4 = 3 * g := by omega
    have hr : (4 * g + 1) % 4 = 1 := by omega
    simp only [readQChar, ho, hr, peek_of_lt (show 3 * g < buf.length by omega),
      peek_of_lt (show 3 * g + 1 < buf.length by omega)]
    exact congrArg some (qchar_one buf g)
  · have ho : 3 * (4 * g + 2) / 4 = 3 * g + 1 := by omega
    have hr : (4 * g + 2) % 4 = 2 := by omega
    simp only [readQChar, ho, hr, peek_of_lt (show 3 * g + 1 < buf.length by omega),
      peek_of_lt (show 3 * g + 1 + 1 < buf.length by omega)]
    exact congrArg some (qchar_two buf g)
  · have ho : 3 * (4 * g + 3) / 4 = 3 * g + 2 := by omega
    have hr : (4 * g + 3) % 4 = 3 := by omega
    simp only [readQChar, ho, hr, peek_of_lt (show 3 * g + 2 < buf.length by omega)]
    exact congrArg some (qchar_three buf g)

theorem offset_eq (h : Fits i) : i * 3 % 2 ^ 32 / 4 = 3 * i / 4 := by
  unfold Fits at h
  rw [Nat.mod_eq_of_lt (by omega), Nat.mul_comm]

theorem getQChar_eq (hi : Fits i) (h : size (i + 1) ≤ buf.length) :
    getQChar buf i = some (qchar buf i) := by
  rw [getQChar, offset_eq hi, readQChar_eq h]

/-! ### Writing a character -/

/-- The byte `k` does not depend on the characters apart from two. -/
theorem byteAt_congr {c c' : ℕ → ℕ} (h : c (4 * k / 3) = c' (4 * k / 3))
    (h' : c (4 * k / 3 + 1) = c' (4 * k / 3 + 1)) : byteAt c k = byteAt c' k := by
  simp only [byteAt, h, h']

/-- The bytes of a buffer in which the character `i` has been replaced. -/
theorem byteAt_update_of_ne (v : ℕ) (h : 4 * k / 3 ≠ i) (h' : 4 * k / 3 + 1 ≠ i) :
    byteAt (Function.update (charsOf buf) i v) k = bytesOf buf k := by
  rw [bytesOf_eq_byteAt]
  exact byteAt_congr (Function.update_of_ne h _ _) (Function.update_of_ne h' _ _)

/-- The low bits of a byte with new high ones. -/
theorem toNat_low_or (k : ℕ) (hx : x.toNat < 2 ^ k) (hy : y.toNat % 2 ^ k = 0) :
    (x ||| y).toNat = y.toNat + x.toNat := by
  rw [UInt8.or_comm, toNat_or_eq_add k hy hx]

section Groups

variable (buf : List UInt8) (g : ℕ)

theorem charsOf_zero : charsOf buf (4 * g) = bytesOf buf (3 * g) / 4 := charAt_zero ..

theorem charsOf_one :
    charsOf buf (4 * g + 1) = bytesOf buf (3 * g) % 4 * 16 + bytesOf buf (3 * g + 1) / 16 :=
  charAt_one ..

theorem charsOf_two :
    charsOf buf (4 * g + 2) = bytesOf buf (3 * g + 1) % 16 * 4 + bytesOf buf (3 * g + 2) / 64 :=
  charAt_two ..

theorem charsOf_three : charsOf buf (4 * g + 3) = bytesOf buf (3 * g + 2) % 64 := charAt_three ..

end Groups

theorem setQChar_eq (hi : Fits i) (h : size (i + 1) ≤ buf.length) (hv : value.toNat < 64) :
    ∃ r, setQChar buf i value = some r ∧ r.length = buf.length ∧
      ∀ k, bytesOf r k = byteAt (Function.update (charsOf buf) i value.toNat) k := by
  unfold size at h
  rw [setQChar, offset_eq hi]
  obtain ⟨g, rfl | rfl | rfl | rfl⟩ := exists_group_of_four i
  · have ho : 3 * (4 * g) / 4 = 3 * g := by omega
    have hr : 4 * g % 4 = 0 := by omega
    have hlt : 3 * g < buf.length := by omega
    simp only [ho, hr, peek_of_lt hlt]
    refine ⟨_, poke_of_lt hlt _, List.length_set .., fun k => ?_⟩
    rw [bytesOf, getD_set hlt]
    by_cases hk : k = 3 * g
    · have hlow := toNat_and_3 (buf.getD (3 * g) 0)
      have hhigh := toNat_shiftLeft_two value
      have hnext := bytesOf_lt buf (3 * g + 1)
      rw [if_pos hk, hk, toNat_low_or 2 (by omega) (by omega), byteAt_zero, Function.update_self,
        Function.update_of_ne (by omega), charsOf_one, hhigh, hlow, bytesOf]
      omega
    · rw [if_neg hk, byteAt_update_of_ne _ (by omega) (by omega), bytesOf]
  · have ho : 3 * (4 * g + 1) / 4 = 3 * g := by omega
    have hr : (4 * g + 1) % 4 = 1 := by omega
    have hlt : 3 * g < buf.length := by omega
    have hlt' : 3 * g + 1 < buf.length := by omega
    have hset : ∀ c, 3 * g < (buf.set (3 * g + 1) c).length := fun c => by rwa [List.length_set]
    simp only [ho, hr, peek_of_lt hlt, peek_of_lt hlt', poke_of_lt hlt', poke_of_lt (hset _),
      Option.bind_eq_bind, Option.bind_some]
    refine ⟨_, rfl, by rw [List.length_set, List.length_set], fun k => ?_⟩
    rw [bytesOf, getD_set (hset _), getD_set hlt']
    by_cases hk : k = 3 * g
    · have hhigh := toNat_and_fc (buf.getD (3 * g) 0)
      have hlow := toNat_shiftRight_four value
      rw [if_pos hk, hk, toNat_or_eq_add 2 (by omega) (by omega), byteAt_zero, Function.update_self,
        Function.update_of_ne (by omega), charsOf_zero, hhigh, hlow, bytesOf]
      have hcur : (buf.getD (3 * g) 0).toNat < 256 := UInt8.toNat_lt _
      omega
    by_cases hk' : k = 3 * g + 1
    · have hlow := toNat_and_f (buf.getD (3 * g + 1) 0)
      have hhigh := toNat_shiftLeft_four (value &&& 0x0F)
      have hnext := bytesOf_lt buf (3 * g + 2)
      rw [toNat_and_f] at hhigh
      rw [if_neg hk, if_pos hk', hk', toNat_low_or 4 (by omega) (by omega), byteAt_one,
        Function.update_self, Function.update_of_ne (by omega), charsOf_two, hhigh, hlow, bytesOf]
      omega
    · rw [if_neg hk, if_neg hk', byteAt_update_of_ne _ (by omega) (by omega), bytesOf]
  · have ho : 3 * (4 * g + 2) / 4 = 3 * g + 1 := by omega
    have hr : (4 * g + 2) % 4 = 2 := by omega
    have hlt : 3 * g + 1 < buf.length := by omega
    have hlt' : 3 * g + 2 < buf.length := by omega
    have hset : ∀ c, 3 * g + 1 < (buf.set (3 * g + 2) c).length := fun c => by
      rwa [List.length_set]
    have hnext : 3 * g + 1 + 1 = 3 * g + 2 := rfl
    simp only [ho, hr, hnext, peek_of_lt hlt, peek_of_lt hlt', poke_of_lt hlt', poke_of_lt (hset _),
      Option.bind_eq_bind, Option.bind_some]
    refine ⟨_, rfl, by rw [List.length_set, List.length_set], fun k => ?_⟩
    rw [bytesOf, getD_set (hset _), getD_set hlt']
    by_cases hk : k = 3 * g + 1
    · have hhigh := toNat_and_f0 (buf.getD (3 * g + 1) 0)
      have hlow := toNat_shiftRight_two value
      have hcur : (buf.getD (3 * g + 1) 0).toNat < 256 := UInt8.toNat_lt _
      rw [if_pos hk, hk, toNat_or_eq_add 4 (by omega) (by omega), byteAt_one, Function.update_self,
        Function.update_of_ne (by omega), charsOf_one, hhigh, hlow, bytesOf, bytesOf]
      omega
    by_cases hk' : k = 3 * g + 2
    · have hlow := toNat_and_3f (buf.getD (3 * g + 2) 0)
      have hhigh := toNat_shiftLeft_six (value &&& 0x03)
      rw [toNat_and_3] at hhigh
      rw [if_neg hk, if_pos hk', hk', toNat_low_or 6 (by omega) (by omega), byteAt_two,
        Function.update_self, Function.update_of_ne (by omega), charsOf_three, hhigh, hlow, bytesOf]
      omega
    · rw [if_neg hk, if_neg hk', byteAt_update_of_ne _ (by omega) (by omega), bytesOf]
  · have ho : 3 * (4 * g + 3) / 4 = 3 * g + 2 := by omega
    have hr : (4 * g + 3) % 4 = 3 := by omega
    have hlt : 3 * g + 2 < buf.length := by omega
    simp only [ho, hr, peek_of_lt hlt]
    refine ⟨_, poke_of_lt hlt _, List.length_set .., fun k => ?_⟩
    rw [bytesOf, getD_set hlt]
    by_cases hk : k = 3 * g + 2
    · have hhigh := toNat_and_c0 (buf.getD (3 * g + 2) 0)
      have hcur : (buf.getD (3 * g + 2) 0).toNat < 256 := UInt8.toNat_lt _
      rw [if_pos hk, hk, toNat_or_eq_add 6 (by omega) hv, byteAt_two, Function.update_self,
        Function.update_of_ne (by omega), charsOf_two, hhigh, bytesOf, bytesOf]
      omega
    · rw [if_neg hk, byteAt_update_of_ne _ (by omega) (by omega), bytesOf]

/-- One character is replaced, and no other bit. -/
theorem setQChar_charsOf (hi : Fits i) (h : size (i + 1) ≤ buf.length) (hv : value.toNat < 64) :
    ∃ r, setQChar buf i value = some r ∧ r.length = buf.length ∧
      ∀ j, charsOf r j = if j = i then value.toNat else charsOf buf j := by
  obtain ⟨r, hset, hlen, hbytes⟩ := setQChar_eq hi h hv
  refine ⟨r, hset, hlen, fun j => ?_⟩
  have hlt : ∀ j, Function.update (charsOf buf) i value.toNat j < 64 := fun j => by
    rw [Function.update_apply]
    split
    · exact hv
    · exact charsOf_lt buf j
  rw [charsOf_eq_of_bytesOf hlt hbytes, Function.update_apply]

theorem Fits.mono (h : Fits n) (hk : k ≤ n) : Fits k := lt_of_le_of_lt hk h

/-- Only the characters below `i` are changed. -/
theorem stepLoop_keeps (step : UInt8 → UInt8) (wrapped : UInt8) (hi : Fits i)
    (h : size i ≤ buf.length) :
    ∃ ok r, stepLoop step wrapped i buf = some (ok, r) ∧ r.length = buf.length ∧
      ∀ j, i ≤ j → charsOf r j = charsOf buf j := by
  induction i generalizing buf with
  | zero => exact ⟨false, buf, rfl, rfl, fun _ _ => rfl⟩
  | succ i ih =>
    have hfits : Fits i := hi.mono (Nat.le_succ i)
    have hget := getQChar_eq hfits h
    have hlt : (step (qchar buf i) &&& 0x3F).toNat < 64 := by
      rw [toNat_and_3f]
      exact Nat.mod_lt _ (by decide)
    obtain ⟨buf', hset, hlen, hchars⟩ := setQChar_charsOf hfits h hlt
    have hkeep : ∀ j, i + 1 ≤ j → charsOf buf' j = charsOf buf j := fun j hj => by
      rw [hchars, if_neg (Nat.ne_of_gt hj)]
    simp only [stepLoop, hget, hset, Option.bind_eq_bind, Option.bind_some]
    split
    · exact ⟨true, buf', rfl, hlen, hkeep⟩
    · obtain ⟨ok, r, hloop, hlen', hrest⟩ := @ih buf' hfits
        (by rw [hlen]; exact (size_mono (Nat.le_succ i)).trans h)
      refine ⟨ok, r, hloop, hlen'.trans hlen, fun j hj => ?_⟩
      rw [hrest j (Nat.le_of_succ_le hj), hkeep j hj]

theorem stepQString_keeps (step : UInt8 → UInt8) (wrapped : UInt8) (hn : Fits n)
    (h : size n ≤ buf.length) :
    ∃ ok r, stepQString step wrapped buf n = some (ok, r) ∧ r.length = buf.length ∧
      ∀ j, n ≤ j → charsOf r j = charsOf buf j := by
  rw [stepQString, if_pos (lt_trans hn (by decide))]
  exact stepLoop_keeps step wrapped hn h

/-! ### Reading in sequence -/

theorem offset_succ_of_eq (h : i % 4 = 0) : 3 * (i + 1) / 4 = 3 * i / 4 := by
  omega

theorem offset_succ_of_ne (h : i % 4 ≠ 0) : 3 * (i + 1) / 4 = 3 * i / 4 + 1 := by
  obtain ⟨g, rfl | rfl | rfl | rfl⟩ := exists_group_of_four i <;> omega

namespace QStrReader

/-- The reader of `buf` before the character `i`. -/
def before (buf : List UInt8) (i : ℕ) : QStrReader := ⟨buf, i, 3 * i / 4⟩

theorem init_eq (buf : List UInt8) : init buf = before buf 0 := rfl

theorem seek_eq (q : QStrReader) (hi : Fits i) : q.seek i = before q.buffer i := by
  rw [seek, before, offset_eq hi]

theorem nextQChar_before (hi : Fits i) (h : size (i + 1) ≤ buf.length) :
    (before buf i).nextQChar = some (qchar buf i, before buf (i + 1)) := by
  have hlt : i + 1 < 2 ^ 32 := lt_of_le_of_lt (Nat.succ_le_of_lt hi) (by decide)
  have hread : (before buf i).curQChar = some (qchar buf i) := readQChar_eq h
  simp only [nextQChar, hread, Option.bind_eq_bind, Option.bind_some]
  refine congrArg some (Prod.ext rfl ?_)
  unfold Fits at hi
  by_cases hi4 : i % 4 = 0
  · have hoffset := offset_succ_of_eq hi4
    simp only [before, hi4, hoffset, ne_eq, not_true_eq_false, if_false, Nat.mod_eq_of_lt hlt]
  · have hoffset : 3 * (i + 1) / 4 = (3 * i / 4 + 1) % 2 ^ 32 := by
      rw [offset_succ_of_ne hi4, Nat.mod_eq_of_lt (by omega)]
    simp only [before, hi4, hoffset, ne_eq, not_false_eq_true, if_true, Nat.mod_eq_of_lt hlt]

theorem prevQChar_before (hi : Fits i) (h : size (i + 1) ≤ buf.length) :
    (before buf (i + 1)).prevQChar = some (qchar buf i, before buf i) := by
  unfold Fits at hi
  have hlt : i < 2 ^ 32 := lt_trans hi (by decide)
  have hsub : (i + 1 + 2 ^ 32 - 1) % 2 ^ 32 = i := by omega
  have hread : (before buf i).curQChar = some (qchar buf i) := readQChar_eq h
  have hback : (if i % 4 ≠ 0 then (⟨buf, i, (3 * (i + 1) / 4 + 2 ^ 32 - 1) % 2 ^ 32⟩ : QStrReader)
      else ⟨buf, i, 3 * (i + 1) / 4⟩) = before buf i := by
    by_cases hi4 : i % 4 = 0
    · rw [if_neg (not_not.2 hi4), offset_succ_of_eq hi4, before]
    · have hoffset : (3 * (i + 1) / 4 + 2 ^ 32 - 1) % 2 ^ 32 = 3 * i / 4 := by
        rw [offset_succ_of_ne hi4]
        omega
      rw [if_pos hi4, hoffset, before]
  rw [prevQChar]
  simp only [before, hsub] at hback hread ⊢
  rw [hback, hread]
  rfl

/-- The next `n` characters. -/
def forwards : ℕ → QStrReader → Option (List UInt8)
  | 0, _ => some []
  | n + 1, r => do
    let (c, r) ← r.nextQChar
    let cs ← forwards n r
    return c :: cs

/-- The `n` characters before, the nearest first. -/
def backwards : ℕ → QStrReader → Option (List UInt8)
  | 0, _ => some []
  | n + 1, r => do
    let (c, r) ← r.prevQChar
    let cs ← backwards n r
    return c :: cs

theorem forwards_before (hn : Fits (i + n)) (h : size (i + n) ≤ buf.length) :
    forwards n (before buf i) = some ((List.range' i n).map (qchar buf)) := by
  induction n generalizing i with
  | zero => rfl
  | succ n ih =>
    rw [← Nat.add_assoc, Nat.add_right_comm] at hn h
    have hone : size (i + 1) ≤ buf.length := (size_mono (Nat.le_add_right _ _)).trans h
    simp only [forwards, nextQChar_before (hn.mono (by omega)) hone, ih hn h, Option.bind_eq_bind,
      Option.bind_some, List.range'_succ, List.map_cons]
    rfl

theorem backwards_before (hn : Fits n) (h : size n ≤ buf.length) :
    backwards n (before buf n) = some ((List.range n).reverse.map (qchar buf)) := by
  induction n with
  | zero => rfl
  | succ n ih =>
    have hfits : Fits n := hn.mono (Nat.le_succ n)
    have hle : size n ≤ buf.length := (size_mono (Nat.le_succ n)).trans h
    simp only [backwards, prevQChar_before hfits h, ih hfits hle, Option.bind_eq_bind,
      Option.bind_some, List.range_succ, List.reverse_append, List.reverse_singleton,
      List.singleton_append, List.map_cons]
    rfl

end QStrReader

end QString
