import HpccPlatform.Library.Buffer
import Mathlib.Data.UInt
import Mathlib.Tactic.IntervalCases
import Mathlib.Tactic.Ring

/-!
# Packed integers

An integer in one to nine bytes, as `eclrtl.cpp` stores it: the ones at the top of the first byte
count the bytes that follow, and the rest of the first byte is the top of the value.  A signed
integer is stored with its sign in the lowest bit, and inverted when it is negative.
`RtlPackedIntTypeInfo` of `rtlfield.cpp` has such integers as the fields of a row.
-/

namespace PackedInt

open Buffer

/-! ### The functions of the runtime -/

def numExtraBytesFromValue (first : UInt64) : ℕ :=
  if 0x10000000 ≤ first then
    if 0x40000000000 ≤ first then
      if 0x2000000000000 ≤ first then
        if 0x100000000000000 ≤ first then 8 else 7
      else 6
    else
      if 0x800000000 ≤ first then 5 else 4
  else
    if 0x4000 ≤ first then
      if 0x200000 ≤ first then 3 else 2
    else
      if 0x80 ≤ first then 1 else 0

def numExtraBytesFromFirst (first : UInt8) : ℕ :=
  if 0xF0 ≤ first then
    if 0xFC ≤ first then
      if 0xFE ≤ first then
        if 0xFF ≤ first then 8 else 7
      else 6
    else
      if 0xF8 ≤ first then 5 else 4
  else
    if 0xC0 ≤ first then
      if 0xE0 ≤ first then 3 else 2
    else
      if 0x80 ≤ first then 1 else 0

def leadingValueMask : List UInt8 := [0x7f, 0x3f, 0x1f, 0x0f, 0x07, 0x03, 0x01, 0x00, 0x00]

def leadingLengthMask : List UInt8 := [0x00, 0x80, 0xC0, 0xE0, 0xF0, 0xF8, 0xFC, 0xFE, 0xFF]

/-- The loop of `rtlGetPackedUnsigned`. -/
def getLoop : ℕ → List UInt8 → UInt64 → Option UInt64
  | 0, _, value => some value
  | _ + 1, [], _ => none
  | numExtra + 1, b :: ptr, value => getLoop numExtra ptr (value <<< 8 ||| b.toUInt64)

def rtlGetPackedUnsigned : List UInt8 → Option UInt64
  | [] => none
  | first :: ptr => do
    let numExtra := numExtraBytesFromFirst first
    let mask ← leadingValueMask[numExtra]?
    getLoop numExtra ptr (first &&& mask).toUInt64

/-- The loop of `rtlSetPackedUnsigned`, on a buffer with `ptr` at the place `o`. -/
def setLoop (o : ℕ) : ℕ → List UInt8 → UInt64 → Option (List UInt8 × UInt64)
  | 0, buf, value => some (buf, value)
  | numExtra + 1, buf, value => do
    let buf ← poke buf (o + (numExtra + 1)) value.toUInt8
    setLoop o numExtra buf (value >>> 8)

def rtlSetPackedUnsigned (buf : List UInt8) (o : ℕ) (value : UInt64) : Option (List UInt8) := do
  let numExtra := numExtraBytesFromValue value
  let firstMask ← leadingLengthMask[numExtra]?
  let (buf, value) ← setLoop o numExtra buf value
  poke buf o (value.toUInt8 ||| firstMask)

def rtlGetPackedSize (ptr : List UInt8) : Option ℕ :=
  ptr.head?.map fun first => numExtraBytesFromFirst first + 1

def rtlGetPackedSigned (ptr : List UInt8) : Option Int64 := do
  let value ← rtlGetPackedUnsigned ptr
  let shifted := value >>> 1
  some (if value &&& 1 ≠ 0 then ~~~shifted else shifted).toInt64

/-- The number that `rtlSetPackedSigned` stores, from the bits of `value`. -/
def storeValue (value : Int64) : UInt64 :=
  if value < 0 then ~~~value.toUInt64 <<< 1 ||| 1 else value.toUInt64 <<< 1

def rtlSetPackedSigned (buf : List UInt8) (o : ℕ) (value : Int64) : Option (List UInt8) :=
  rtlSetPackedUnsigned buf o (storeValue value)

/-! ### The fields -/

/-- `(left < right) ? -1 : (left > right) ? +1 : 0` -/
def threeWay {α : Type} [LT α] [DecidableLT α] (left right : α) : ℤ :=
  if left < right then -1 else if right < left then 1 else 0

/-- `ensureCapacity` of a builder that has just what has been asked for. -/
def ensureCapacity (self : List UInt8) (required : ℕ) : List UInt8 :=
  self ++ List.replicate (required - self.length) 0

namespace RtlPackedIntTypeInfo

def size (self : List UInt8) : Option ℕ := rtlGetPackedSize self

/-- `&val` on a little-endian machine. -/
def bytesOf (val : Int64) : List UInt8 :=
  (List.range 8).map fun i => UInt8.ofNat (val.toUInt64.toNat >>> (8 * i))

/-- The row and the offset behind the field; both are of type `size32_t`. -/
def buildInt (self : List UInt8) (offset : ℕ) (val : Int64) : Option (List UInt8 × ℕ) := do
  let sizeInBytes ← rtlGetPackedSize (bytesOf val)
  let self := ensureCapacity self ((sizeInBytes + offset) % 2 ^ 32)
  let self ← rtlSetPackedUnsigned self offset val.toUInt64
  some (self, (offset + sizeInBytes) % 2 ^ 32)

variable (isUnsigned : Bool)

def getInt (ptr : List UInt8) : Option Int64 :=
  if isUnsigned then (rtlGetPackedUnsigned ptr).map UInt64.toInt64 else rtlGetPackedSigned ptr

def compare (left right : List UInt8) : Option ℤ :=
  if isUnsigned then do
    let leftValue ← rtlGetPackedUnsigned left
    let rightValue ← rtlGetPackedUnsigned right
    some (threeWay leftValue rightValue)
  else do
    let leftValue ← rtlGetPackedSigned left
    let rightValue ← rtlGetPackedSigned right
    some (threeWay leftValue rightValue)

end RtlPackedIntTypeInfo

/-! ### The length of a packed integer -/

variable {k n o : ℕ} {value : UInt64} {buf rest : List UInt8}

theorem numExtraBytesFromValue_le (value : UInt64) : numExtraBytesFromValue value ≤ 8 := by
  unfold numExtraBytesFromValue
  split_ifs <;> decide

theorem numExtraBytesFromFirst_le (first : UInt8) : numExtraBytesFromFirst first ≤ 8 := by
  unfold numExtraBytesFromFirst
  split_ifs <;> decide

/-- Each byte that follows adds seven bits, until the eighth has room for all of them. -/
theorem numExtraBytesFromValue_le_iff (hk : k < 8) (value : UInt64) :
    numExtraBytesFromValue value ≤ k ↔ value.toNat < 2 ^ (7 * (k + 1)) := by
  unfold numExtraBytesFromValue
  simp only [UInt64.le_iff_toNat_le, UInt64.reduceToNat]
  interval_cases k <;> split_ifs <;> omega

theorem leadingValueMask_eq (hk : k ≤ 8) :
    leadingValueMask[k]? = some (UInt8.ofNat (2 ^ (7 - k) - 1)) := by
  interval_cases k <;> rfl

theorem leadingLengthMask_eq (hk : k ≤ 8) :
    leadingLengthMask[k]? = some (UInt8.ofNat (256 - 2 ^ (8 - k))) := by
  interval_cases k <;> rfl

/-! ### The bytes that are written -/

/-- The `n` lowest bytes of a number, the highest of them first. -/
def bigEndian : ℕ → ℕ → List UInt8
  | 0, _ => []
  | n + 1, v => bigEndian n (v / 256) ++ [UInt8.ofNat v]

/-- The packed form of a number. -/
def packed (value : UInt64) : List UInt8 :=
  let numExtra := numExtraBytesFromValue value
  UInt8.ofNat (256 - 2 ^ (8 - numExtra) + value.toNat / 256 ^ numExtra) ::
    bigEndian numExtra value.toNat

@[simp] theorem length_bigEndian (n v : ℕ) : (bigEndian n v).length = n := by
  induction n generalizing v with
  | zero => rfl
  | succ n ih => rw [bigEndian, List.length_append, ih, List.length_singleton]

@[simp] theorem length_packed (value : UInt64) :
    (packed value).length = numExtraBytesFromValue value + 1 := by
  rw [packed, List.length_cons, length_bigEndian]

/-- What is left of a value for the first byte fits behind the length. -/
theorem value_div_lt (value : UInt64) :
    value.toNat / 256 ^ numExtraBytesFromValue value < 2 ^ (7 - numExtraBytesFromValue value) := by
  have hle := numExtraBytesFromValue_le value
  rcases Nat.lt_or_eq_of_le hle with hlt | heq
  · have hvalue := (numExtraBytesFromValue_le_iff hlt value).1 le_rfl
    generalize numExtraBytesFromValue value = k at hlt hvalue ⊢
    refine Nat.div_lt_of_lt_mul ?_
    rwa [show (256 : ℕ) = 2 ^ 8 from rfl, ← Nat.pow_mul, ← Nat.pow_add,
      show 8 * k + (7 - k) = 7 * (k + 1) by omega]
  · rw [heq]
    exact Nat.div_lt_of_lt_mul value.toNat_lt

/-- A first byte with the length `k` and `q` behind it. -/
theorem toNat_first (hk : k ≤ 8) {q : ℕ} (hq : q < 2 ^ (7 - k)) :
    (UInt8.ofNat (256 - 2 ^ (8 - k) + q)).toNat = 256 - 2 ^ (8 - k) + q := by
  refine UInt8.toNat_ofNat_of_lt' (show _ < 256 from ?_)
  interval_cases k <;> omega

theorem numExtraBytesFromFirst_first (hk : k ≤ 8) {q : ℕ} (hq : q < 2 ^ (7 - k)) :
    numExtraBytesFromFirst (UInt8.ofNat (256 - 2 ^ (8 - k) + q)) = k := by
  have hfirst := toNat_first hk hq
  unfold numExtraBytesFromFirst
  simp only [UInt8.le_iff_toNat_le, UInt8.reduceToNat, hfirst]
  interval_cases k <;> split_ifs <;> omega

/-- The length is read from the first byte. -/
theorem rtlGetPackedSize_packed (value : UInt64) (rest : List UInt8) :
    rtlGetPackedSize (packed value ++ rest) = some (packed value).length := by
  rw [length_packed, packed, List.cons_append, rtlGetPackedSize, List.head?_cons, Option.map_some,
    numExtraBytesFromFirst_first (numExtraBytesFromValue_le value) (value_div_lt value)]

/-! ### Reading -/

theorem toNat_append_byte (value : UInt64) (b : UInt8) :
    (value <<< 8 ||| b.toUInt64).toNat = value.toNat * 256 % 2 ^ 64 + b.toNat := by
  have hb : b.toNat < 2 ^ 8 := b.toNat_lt
  have hmod : value.toNat * 256 % 2 ^ 64 = 2 ^ 8 * (value.toNat % 2 ^ 56) := by
    rw [Nat.mul_comm]
    exact Nat.mul_mod_mul_left (2 ^ 8) value.toNat (2 ^ 56)
  rw [UInt64.toNat_or, UInt64.toNat_shiftLeft, UInt8.toNat_toUInt64]
  simp only [UInt64.reduceToNat, Nat.reduceMod, Nat.shiftLeft_eq, Nat.reducePow] at hmod ⊢
  rw [hmod, ← Nat.two_pow_add_eq_or_of_lt hb]

theorem getLoop_add (m n : ℕ) (ptr : List UInt8) (value : UInt64) :
    getLoop (m + n) ptr value =
      (getLoop m ptr value).bind fun value => getLoop n (ptr.drop m) value := by
  induction m generalizing ptr value with
  | zero => rw [Nat.zero_add]; rfl
  | succ m ih =>
    rw [Nat.succ_add]
    cases ptr with
    | nil => rfl
    | cons b ptr => exact ih ptr _

theorem getLoop_bigEndian (n v : ℕ) (rest : List UInt8) (value : UInt64)
    (hlt : value.toNat * 256 ^ n + v % 256 ^ n < 2 ^ 64) :
    getLoop n (bigEndian n v ++ rest) value =
      some (UInt64.ofNat (value.toNat * 256 ^ n + v % 256 ^ n)) := by
  induction n generalizing v rest with
  | zero => simp [getLoop, Nat.mod_one]
  | succ n ih =>
    have hsplit : value.toNat * 256 ^ (n + 1) + v % 256 ^ (n + 1) =
        (value.toNat * 256 ^ n + v / 256 % 256 ^ n) * 256 + v % 256 := by
      rw [Nat.pow_succ', Nat.mod_mul]
      ring
    rw [hsplit] at hlt ⊢
    have hhigh : value.toNat * 256 ^ n + v / 256 % 256 ^ n < 2 ^ 64 := by omega
    have hdrop : (bigEndian n (v / 256) ++ UInt8.ofNat v :: rest).drop n =
        UInt8.ofNat v :: rest := by
      rw [List.drop_append_of_le_length (by rw [length_bigEndian]), List.drop_eq_nil_of_le
        (by rw [length_bigEndian]), List.nil_append]
    have hbyte : (UInt8.ofNat v).toNat = v % 256 := UInt8.toNat_ofNat'
    rw [bigEndian, List.append_assoc, List.singleton_append, getLoop_add, ih _ _ hhigh,
      Option.bind_some, hdrop, getLoop, getLoop, Option.some.injEq, ← UInt64.toNat_inj,
      toNat_append_byte, hbyte, UInt64.toNat_ofNat_of_lt' hhigh, UInt64.toNat_ofNat_of_lt' hlt,
      Nat.mod_eq_of_lt (Nat.lt_of_le_of_lt (Nat.le_add_right _ _) hlt)]

theorem rtlGetPackedUnsigned_packed (value : UInt64) (rest : List UInt8) :
    rtlGetPackedUnsigned (packed value ++ rest) = some value := by
  have hle := numExtraBytesFromValue_le value
  have hq := value_div_lt value
  have hdiv := Nat.div_add_mod' value.toNat (256 ^ numExtraBytesFromValue value)
  rw [packed, List.cons_append, rtlGetPackedUnsigned, numExtraBytesFromFirst_first hle hq,
    leadingValueMask_eq hle, Option.bind_eq_bind, Option.bind_some]
  have hmask : (UInt8.ofNat (256 - 2 ^ (8 - numExtraBytesFromValue value) +
      value.toNat / 256 ^ numExtraBytesFromValue value) &&&
      UInt8.ofNat (2 ^ (7 - numExtraBytesFromValue value) - 1)).toUInt64.toNat =
      value.toNat / 256 ^ numExtraBytesFromValue value := by
    rw [UInt8.toNat_toUInt64, UInt8.toNat_and, toNat_first hle hq]
    generalize value.toNat / 256 ^ numExtraBytesFromValue value = q at hq
    generalize numExtraBytesFromValue value = k at hq hle
    rw [UInt8.toNat_ofNat_of_lt' (show _ < 256 by interval_cases k <;> decide),
      Nat.and_two_pow_sub_one_eq_mod]
    interval_cases k <;> omega
  rw [getLoop_bigEndian, hmask, hdiv, UInt64.ofNat_toNat]
  rw [hmask, hdiv]
  exact value.toNat_lt

theorem getLoop_lt {ptr : List UInt8} {acc : UInt64} (h : getLoop n ptr acc = some value) :
    value.toNat < (acc.toNat + 1) * 256 ^ n := by
  induction n generalizing ptr acc with
  | zero =>
    rw [getLoop, Option.some.injEq] at h
    rw [h, Nat.pow_zero, Nat.mul_one]
    exact Nat.lt_succ_self _
  | succ n ih =>
    cases ptr with
    | nil => rw [getLoop] at h; cases h
    | cons b ptr =>
      refine (ih h).trans_le ?_
      have hb : b.toNat < 256 := b.toNat_lt
      have hmod := Nat.mod_le (acc.toNat * 256) (2 ^ 64)
      rw [toNat_append_byte, show 256 ^ (n + 1) = 256 * 256 ^ n from Nat.pow_succ', ← Nat.mul_assoc]
      exact Nat.mul_le_mul_right _ (by omega)

/-- No shorter form is read as the same value. -/
theorem length_packed_le {size : ℕ} (hget : rtlGetPackedUnsigned buf = some value)
    (hsize : rtlGetPackedSize buf = some size) : (packed value).length ≤ size := by
  cases buf with
  | nil => cases hget
  | cons first ptr =>
    rw [rtlGetPackedSize, List.head?_cons, Option.map_some, Option.some.injEq] at hsize
    rw [length_packed, ← hsize, Nat.succ_le_succ_iff]
    rcases Nat.lt_or_eq_of_le (numExtraBytesFromFirst_le first) with hlt | heq
    · rw [numExtraBytesFromValue_le_iff hlt]
      rw [rtlGetPackedUnsigned, leadingValueMask_eq hlt.le, Option.bind_eq_bind,
        Option.bind_some] at hget
      generalize numExtraBytesFromFirst first = k at hget hlt ⊢
      refine (getLoop_lt hget).trans_le ?_
      have hmask : (first &&& UInt8.ofNat (2 ^ (7 - k) - 1)).toUInt64.toNat < 2 ^ (7 - k) := by
        rw [UInt8.toNat_toUInt64, UInt8.toNat_and, UInt8.toNat_ofNat_of_lt'
          (show _ < 256 by interval_cases k <;> decide), Nat.and_two_pow_sub_one_eq_mod]
        exact Nat.mod_lt _ (Nat.two_pow_pos _)
      calc _ ≤ 2 ^ (7 - k) * 256 ^ k := Nat.mul_le_mul_right _ hmask
        _ = 2 ^ (7 * (k + 1)) := by
          rw [show (256 : ℕ) = 2 ^ 8 from rfl, ← Nat.pow_mul, ← Nat.pow_add,
            show 7 - k + 8 * k = 7 * (k + 1) by omega]
    · rw [heq]
      exact numExtraBytesFromValue_le value

/-! ### Writing -/

theorem setLoop_eq (hlt : o + n < buf.length) :
    setLoop o n buf value =
      some (buf.take (o + 1) ++ (bigEndian n value.toNat ++ buf.drop (o + 1 + n)),
        UInt64.ofNat (value.toNat / 256 ^ n)) := by
  induction n generalizing buf value with
  | zero =>
    rw [setLoop, bigEndian, List.nil_append, Nat.add_zero, List.take_append_drop, Nat.pow_zero,
      Nat.div_one, UInt64.ofNat_toNat]
  | succ n ih =>
    have hshift : (value >>> 8).toNat = value.toNat / 256 := by
      rw [UInt64.toNat_shiftRight, Nat.shiftRight_eq_div_pow]
      rfl
    have hdrop : (buf.set (o + (n + 1)) value.toUInt8).drop (o + 1 + n) =
        value.toUInt8 :: buf.drop (o + 1 + (n + 1)) := by
      rw [show o + (n + 1) = o + 1 + n by omega, List.drop_eq_getElem_cons
        (by rw [List.length_set]; omega), List.getElem_set_self, List.drop_set_of_lt (by omega)]
      rfl
    rw [setLoop, poke_of_lt hlt, Option.bind_eq_bind, Option.bind_some,
      ih (by rw [List.length_set]; omega), hshift, hdrop, List.take_set_of_le (by omega), bigEndian,
      List.append_assoc, Nat.div_div_eq_div_mul, ← Nat.pow_succ']
    rfl

/-- The packed form is written, and nothing else. -/
theorem rtlSetPackedUnsigned_eq (hle : o + (packed value).length ≤ buf.length) :
    rtlSetPackedUnsigned buf o value =
      some (buf.take o ++ packed value ++ buf.drop (o + (packed value).length)) := by
  have hk := numExtraBytesFromValue_le value
  have hq := value_div_lt value
  rw [length_packed] at hle ⊢
  rw [rtlSetPackedUnsigned, packed, leadingLengthMask_eq hk, setLoop_eq (by omega)]
  generalize numExtraBytesFromValue value = k at hk hq hle ⊢
  simp only [Option.bind_eq_bind, Option.bind_some]
  have hfirst : (UInt64.ofNat (value.toNat / 256 ^ k)).toUInt8 ||| UInt8.ofNat (256 - 2 ^ (8 - k)) =
      UInt8.ofNat (256 - 2 ^ (8 - k) + value.toNat / 256 ^ k) := by
    have hvalue := value.toNat_lt
    have hdiv := Nat.div_le_self value.toNat (256 ^ k)
    have hmask : 256 - 2 ^ (8 - k) = 2 ^ (8 - k) * (2 ^ k - 1) := by
      interval_cases k <;> rfl
    have hlow : 2 ^ (7 - k) ≤ 2 ^ (8 - k) := Nat.pow_le_pow_right (by decide) (by omega)
    have hbyte : 256 - 2 ^ (8 - k) < 256 := Nat.sub_lt (by decide) (Nat.two_pow_pos _)
    rw [← UInt8.toNat_inj, toNat_first hk hq, UInt8.toNat_or, UInt64.toNat_toUInt8,
      UInt64.toNat_ofNat_of_lt' (show _ < 2 ^ 64 by omega), UInt8.toNat_ofNat_of_lt' hbyte,
      Nat.mod_eq_of_lt (by interval_cases k <;> omega), hmask, Nat.or_comm,
      ← Nat.two_pow_add_eq_or_of_lt (hq.trans_le hlow)]
  have htake : (buf.take (o + 1)).length = o + 1 := by
    rw [List.length_take]
    omega
  rw [hfirst, poke_of_lt (by rw [List.length_append, htake]; omega), List.set_append_left _ _
    (by omega), List.take_add_one, List.getElem?_eq_getElem (by omega), Option.toList_some,
    List.set_append_right _ _ (by simp), List.length_take, Nat.min_eq_left (by omega), Nat.sub_self]
  simp [Nat.add_assoc, Nat.add_comm 1]

theorem rtlSetPackedUnsigned_eq_none (hlt : buf.length < o + (packed value).length) :
    rtlSetPackedUnsigned buf o value = none := by
  rw [length_packed] at hlt
  rw [rtlSetPackedUnsigned, leadingLengthMask_eq (numExtraBytesFromValue_le value)]
  simp only [Option.bind_eq_bind, Option.bind_some]
  generalize numExtraBytesFromValue value = k at hlt
  cases k with
  | zero =>
    simp only [setLoop, Option.bind_some]
    exact if_neg (Nat.not_lt.2 (Nat.le_of_lt_succ hlt))
  | succ k =>
    have hfull : ¬ o + (k + 1) < buf.length := Nat.not_lt.2 (Nat.le_of_lt_succ hlt)
    rw [setLoop, poke, if_neg hfull]
    rfl

/-! ### Signed integers -/

theorem lt_zero_iff (value : Int64) : value < 0 ↔ 2 ^ 63 ≤ value.toUInt64.toNat := by
  have hint : value.toInt = if 2 * value.toUInt64.toNat < 2 ^ 64 then (value.toUInt64.toNat : ℤ)
      else value.toUInt64.toNat - 2 ^ 64 := BitVec.toInt_eq_toNat_cond value.toBitVec
  have hlt := value.toUInt64.toNat_lt
  rw [Int64.lt_iff_toInt_lt, hint, Int64.toInt_zero]
  split <;> omega

theorem toNat_shiftLeft_one (value : UInt64) (hlt : 2 * value.toNat < 2 ^ 64) :
    (value <<< 1).toNat = 2 * value.toNat := by
  rw [UInt64.toNat_shiftLeft, show (1 : UInt64).toNat % 64 = 1 from rfl, Nat.shiftLeft_eq,
    Nat.pow_one, Nat.mul_comm, Nat.mod_eq_of_lt hlt]

theorem toNat_storeValue (value : Int64) :
    (storeValue value).toNat =
      if value < 0 then 2 * (2 ^ 64 - 1 - value.toUInt64.toNat) + 1
      else 2 * value.toUInt64.toNat := by
  have hlt := value.toUInt64.toNat_lt
  have hneg := lt_zero_iff value
  have hnot : (~~~value.toUInt64).toNat = 2 ^ 64 - 1 - value.toUInt64.toNat :=
    UInt64.toNat_not _
  unfold storeValue
  split_ifs with h
  · have hlow := hneg.1 h
    have hfit : 2 * (~~~value.toUInt64).toNat < 2 ^ 64 := by omega
    rw [UInt64.toNat_or, toNat_shiftLeft_one _ hfit, hnot]
    exact (Nat.two_pow_add_eq_or_of_lt (i := 1) (b := 1) (by decide) _).symm
  · have hhigh := Nat.not_le.1 (mt hneg.2 h)
    exact toNat_shiftLeft_one _ (by omega)

/-- `(value & 1) ? ~shifted : shifted` -/
theorem toNat_unshift (value : UInt64) :
    (if value &&& 1 ≠ 0 then ~~~(value >>> 1) else value >>> 1).toNat =
      if value.toNat % 2 = 1 then 2 ^ 64 - 1 - value.toNat / 2 else value.toNat / 2 := by
  have hbit : value &&& 1 ≠ 0 ↔ value.toNat % 2 = 1 := by
    have hand : (value &&& 1).toNat = value.toNat % 2 :=
      (UInt64.toNat_and _ _).trans (Nat.and_one_is_mod _)
    have hzero : (0 : UInt64).toNat = 0 := rfl
    rw [ne_eq, ← UInt64.toNat_inj, hand, hzero]
    omega
  have hshift : (value >>> 1).toNat = value.toNat / 2 := by
    rw [UInt64.toNat_shiftRight, Nat.shiftRight_eq_div_pow]
    rfl
  by_cases h : value.toNat % 2 = 1
  · rw [if_pos (hbit.2 h), if_pos h, UInt64.toNat_not, hshift]
    rfl
  · rw [if_neg (mt hbit.1 h), if_neg h, hshift]

theorem toInt64_eq_iff (a : UInt64) (b : Int64) : a.toInt64 = b ↔ a.toNat = b.toUInt64.toNat :=
  ⟨fun h => h ▸ rfl, fun h => congrArg UInt64.toInt64 (UInt64.toNat_inj.1 h)⟩

theorem rtlGetPackedSigned_packed (value : UInt64) (rest : List UInt8) :
    rtlGetPackedSigned (packed value ++ rest) =
      some (if value &&& 1 ≠ 0 then ~~~(value >>> 1) else value >>> 1).toInt64 := by
  rw [rtlGetPackedSigned, rtlGetPackedUnsigned_packed]
  rfl

theorem rtlGetPackedSigned_storeValue (value : Int64) (rest : List UInt8) :
    rtlGetPackedSigned (packed (storeValue value) ++ rest) = some value := by
  have hlt := value.toUInt64.toNat_lt
  have hneg := lt_zero_iff value
  rw [rtlGetPackedSigned_packed, Option.some.injEq, toInt64_eq_iff, toNat_unshift,
    toNat_storeValue]
  split_ifs <;> omega

/-- Only zero is the same number in both forms. -/
theorem rtlGetPackedSigned_packed_eq_iff (value : Int64) (rest : List UInt8) :
    rtlGetPackedSigned (packed value.toUInt64 ++ rest) = some value ↔ value = 0 := by
  have hlt := value.toUInt64.toNat_lt
  have hzero : value = 0 ↔ 0 = value.toUInt64.toNat := eq_comm.trans (toInt64_eq_iff 0 value)
  rw [rtlGetPackedSigned_packed, Option.some.injEq, toInt64_eq_iff, toNat_unshift, hzero]
  -- the equation for an odd number has no solution modulo 3
  split_ifs <;> omega

/-! ### The fields of a row -/

namespace RtlPackedIntTypeInfo

/-- The order of the type of a field. -/
def valueOrder (isUnsigned : Bool) (left right : Int64) : ℤ :=
  if isUnsigned then threeWay left.toUInt64 right.toUInt64 else threeWay left right

/-- `buildInt` at the end of a row reserves what it writes and leaves the offset behind it, and the
field is read and compared as the value. -/
structure Holds (isUnsigned : Bool) (row : List UInt8) (val : Int64) : Prop where
  built : ∃ field : List UInt8,
    buildInt row row.length val = some (row ++ field, row.length + field.length) ∧
    size field = some field.length ∧
    getInt isUnsigned field = some val ∧
    ∀ other right, getInt isUnsigned right = some other →
      compare isUnsigned field right = some (valueOrder isUnsigned val other)

/-- The length that the lowest byte of a value stands for is that of its packed form. -/
def SizeAgrees (val : Int64) : Prop :=
  numExtraBytesFromFirst val.toUInt64.toUInt8 = numExtraBytesFromValue val.toUInt64

instance (val : Int64) : Decidable (SizeAgrees val) := inferInstanceAs (Decidable (_ = _))

theorem rtlGetPackedSize_bytesOf (val : Int64) :
    rtlGetPackedSize (bytesOf val) = some (numExtraBytesFromFirst val.toUInt64.toUInt8 + 1) := rfl

theorem ensureCapacity_append (row : List UInt8) (n : ℕ) :
    ensureCapacity row (n + row.length) = row ++ List.replicate n 0 := by
  rw [ensureCapacity, Nat.add_sub_cancel]

theorem ensureCapacity_of_le {row : List UInt8} {required : ℕ} (h : required ≤ row.length) :
    ensureCapacity row required = row := by
  rw [ensureCapacity, Nat.sub_eq_zero_of_le h, List.replicate_zero, List.append_nil]

/-- What `buildInt` does where the sum of the offset and the size is a `size32_t`. -/
theorem buildInt_eq {row : List UInt8} {val : Int64}
    (hlt : row.length + (numExtraBytesFromFirst val.toUInt64.toUInt8 + 1) < 2 ^ 32) :
    buildInt row row.length val =
      (rtlSetPackedUnsigned
        (row ++ List.replicate (numExtraBytesFromFirst val.toUInt64.toUInt8 + 1) 0) row.length
        val.toUInt64).map fun self =>
          (self, row.length + (numExtraBytesFromFirst val.toUInt64.toUInt8 + 1)) := by
  rw [buildInt, rtlGetPackedSize_bytesOf]
  generalize numExtraBytesFromFirst val.toUInt64.toUInt8 + 1 = sizeInBytes at hlt
  have hsum : (sizeInBytes + row.length) % 2 ^ 32 = sizeInBytes + row.length :=
    Nat.mod_eq_of_lt (by omega)
  simp only [Option.bind_eq_bind, Option.bind_some, hsum, ensureCapacity_append,
    Nat.mod_eq_of_lt hlt]
  cases rtlSetPackedUnsigned (row ++ List.replicate sizeInBytes 0) row.length val.toUInt64 <;> rfl

theorem buildInt_of_sizeAgrees {row : List UInt8} {val : Int64} (hsize : SizeAgrees val)
    (hlt : row.length + (numExtraBytesFromValue val.toUInt64 + 1) < 2 ^ 32) :
    buildInt row row.length val =
      some (row ++ packed val.toUInt64, row.length + (packed val.toUInt64).length) := by
  rw [SizeAgrees] at hsize
  rw [buildInt_eq (by rwa [hsize]), hsize, rtlSetPackedUnsigned_eq (by simp), length_packed,
    List.take_left, Option.map_some, List.drop_eq_nil_of_le (by simp), List.append_nil]

/-- Where the sum of the offset and the size wraps, nothing is reserved. -/
theorem buildInt_eq_none {row : List UInt8} {val : Int64} (hrow : row.length < 2 ^ 32)
    (hge : 2 ^ 32 ≤ row.length + (numExtraBytesFromFirst val.toUInt64.toUInt8 + 1)) :
    buildInt row row.length val = none := by
  have hextra := numExtraBytesFromFirst_le val.toUInt64.toUInt8
  rw [buildInt, rtlGetPackedSize_bytesOf]
  generalize numExtraBytesFromFirst val.toUInt64.toUInt8 = k at hge hextra
  have hsum : (k + 1 + row.length) % 2 ^ 32 ≤ row.length := by omega
  simp only [Option.bind_eq_bind, Option.bind_some, ensureCapacity_of_le hsum]
  rw [rtlSetPackedUnsigned_eq_none (by simp)]
  rfl

/-- A row is built with a field of its own length only where the sizes agree. -/
theorem sizeAgrees_of_buildInt {row field : List UInt8} {val : Int64}
    (hrow : row.length < 2 ^ 32)
    (hbuild : buildInt row row.length val = some (row ++ field, row.length + field.length))
    (hsize : size field = some field.length) :
    SizeAgrees val ∧ row.length + (numExtraBytesFromValue val.toUInt64 + 1) < 2 ^ 32 ∧
      field = packed val.toUInt64 := by
  rcases Nat.lt_or_ge (row.length + (numExtraBytesFromFirst val.toUInt64.toUInt8 + 1)) (2 ^ 32)
    with hlt | hge
  · rw [buildInt_eq hlt] at hbuild
    rcases Nat.lt_or_ge (numExtraBytesFromFirst val.toUInt64.toUInt8)
      (numExtraBytesFromValue val.toUInt64) with hshort | hle
    · rw [rtlSetPackedUnsigned_eq_none (by simpa using hshort)] at hbuild
      cases hbuild
    · rw [rtlSetPackedUnsigned_eq (by simpa using hle), List.take_left, List.append_assoc,
        Option.map_some, Option.some.injEq, Prod.mk.injEq, List.append_cancel_left_eq] at hbuild
      obtain ⟨hfield, hoffset⟩ := hbuild
      rw [← hfield, size, rtlGetPackedSize_packed, Option.some.injEq, hfield,
        length_packed] at hsize
      have hagrees : SizeAgrees val := by
        rw [SizeAgrees]
        omega
      have hagrees' := hagrees
      rw [SizeAgrees] at hagrees'
      rw [hagrees', List.drop_eq_nil_of_le (by simp), List.append_nil] at hfield
      exact ⟨hagrees, by omega, hfield.symm⟩
  · rw [buildInt_eq_none hrow hge] at hbuild
    cases hbuild

@[simp] theorem getInt_true (ptr : List UInt8) :
    getInt true ptr = (rtlGetPackedUnsigned ptr).map UInt64.toInt64 := rfl

@[simp] theorem getInt_false (ptr : List UInt8) : getInt false ptr = rtlGetPackedSigned ptr := rfl

/-- Fields that are read are compared as what has been read. -/
theorem compare_eq {isUnsigned : Bool} {left right : List UInt8} {val other : Int64}
    (hleft : getInt isUnsigned left = some val) (hright : getInt isUnsigned right = some other) :
    compare isUnsigned left right = some (valueOrder isUnsigned val other) := by
  cases isUnsigned with
  | true =>
    rw [getInt_true, Option.map_eq_some_iff] at hleft hright
    obtain ⟨value, hleft, rfl⟩ := hleft
    obtain ⟨value', hright, rfl⟩ := hright
    simp [compare, valueOrder, hleft, hright]
  | false =>
    rw [getInt_false] at hleft hright
    simp [compare, valueOrder, hleft, hright]

/-- The field holds the value just where the lowest byte of the value stands for its length, the row
has room for it, and, in a signed field, the value is zero. -/
theorem holds_iff (isUnsigned : Bool) {row : List UInt8} {val : Int64}
    (hrow : row.length < 2 ^ 32) :
    Holds isUnsigned row val ↔
      SizeAgrees val ∧ row.length + (numExtraBytesFromValue val.toUInt64 + 1) < 2 ^ 32 ∧
        (isUnsigned = false → val = 0) := by
  have hpacked := rtlGetPackedSigned_packed_eq_iff val []
  rw [List.append_nil] at hpacked
  have hunsigned := rtlGetPackedUnsigned_packed val.toUInt64 []
  rw [List.append_nil] at hunsigned
  constructor
  · rintro ⟨field, hbuild, hsize, hget, -⟩
    obtain ⟨hagrees, hroom, rfl⟩ := sizeAgrees_of_buildInt hrow hbuild hsize
    refine ⟨hagrees, hroom, ?_⟩
    rintro rfl
    rwa [getInt_false, hpacked] at hget
  · rintro ⟨hagrees, hroom, hzero⟩
    have hget : getInt isUnsigned (packed val.toUInt64) = some val := by
      cases isUnsigned with
      | true => rw [getInt_true, hunsigned, Option.map_some, Int64.toInt64_toUInt64]
      | false => rw [getInt_false, hpacked, hzero rfl]
    refine ⟨packed val.toUInt64, buildInt_of_sizeAgrees hagrees hroom, ?_, hget,
      fun other right hright => compare_eq hget hright⟩
    have hlength := rtlGetPackedSize_packed val.toUInt64 []
    rwa [List.append_nil] at hlength

end RtlPackedIntTypeInfo

/-! ### The round trips -/

/-- A value is stored in a buffer with room for it, in the bytes from `o` on that its length says,
and read back from there; no other form that is read as the value is shorter. -/
def RoundTrips {α : Type} (set : List UInt8 → ℕ → α → Option (List UInt8))
    (get : List UInt8 → Option α) (value : α) : Prop :=
  ∃ form : List UInt8,
    (∀ buf o, o + form.length ≤ buf.length →
      ∃ buf', set buf o value = some buf' ∧
        buf' = buf.take o ++ form ++ buf.drop (o + form.length) ∧
        get (buf'.drop o) = some value ∧ rtlGetPackedSize (buf'.drop o) = some form.length) ∧
    ∀ other size, get other = some value → rtlGetPackedSize other = some size → form.length ≤ size

/-- A value that is stored as the packed form of `stored`, and is read from no other number. -/
theorem roundTrips_of_stored {α : Type} {set : List UInt8 → ℕ → α → Option (List UInt8)}
    {get : List UInt8 → Option α} {value : α} {stored : UInt64}
    (hset : ∀ buf o, set buf o value = rtlSetPackedUnsigned buf o stored)
    (hget : ∀ rest, get (packed stored ++ rest) = some value)
    (hother : ∀ other, get other = some value → rtlGetPackedUnsigned other = some stored) :
    RoundTrips set get value := by
  refine ⟨packed stored, fun buf o hle => ?_,
    fun other size hread hsize => length_packed_le (hother other hread) hsize⟩
  refine ⟨_, (hset buf o).trans (rtlSetPackedUnsigned_eq hle), rfl, ?_⟩
  have htake : (buf.take o).length = o := by
    rw [List.length_take]
    omega
  have hdrop : (buf.take o ++ packed stored ++ buf.drop (o + (packed stored).length)).drop o =
      packed stored ++ buf.drop (o + (packed stored).length) := by
    rw [List.append_assoc, List.drop_left' htake]
  rw [hdrop]
  exact ⟨hget _, rtlGetPackedSize_packed _ _⟩

theorem rtlSetPackedUnsigned_roundTrips (value : UInt64) :
    RoundTrips rtlSetPackedUnsigned rtlGetPackedUnsigned value :=
  roundTrips_of_stored (fun _ _ => rfl) (rtlGetPackedUnsigned_packed value) fun _ h => h

theorem rtlSetPackedSigned_roundTrips (value : Int64) :
    RoundTrips rtlSetPackedSigned rtlGetPackedSigned value := by
  refine roundTrips_of_stored (fun _ _ => rfl) (rtlGetPackedSigned_storeValue value) ?_
  intro other hread
  rw [rtlGetPackedSigned, Option.bind_eq_bind, Option.bind_eq_some_iff] at hread
  obtain ⟨stored, hstored, hvalue⟩ := hread
  have hlt := stored.toNat_lt
  have hneg := lt_zero_iff value
  rw [Option.some.injEq, toInt64_eq_iff, toNat_unshift] at hvalue
  rw [hstored, Option.some.injEq, ← UInt64.toNat_inj, toNat_storeValue]
  by_cases hsign : value < 0
  · have hhigh := hneg.1 hsign
    rw [if_pos hsign]
    split_ifs at hvalue <;> omega
  · have hlow := Nat.not_le.1 (mt hneg.2 hsign)
    rw [if_neg hsign]
    split_ifs at hvalue <;> omega

/-- Packed integers are read back as they were stored, in as few bytes as the format has for them.
As fields of a row they are built right where the lowest byte of the value stands for the length of
its packed form, the row does not reach the largest size, and a signed value is zero. -/
theorem packedIntegers_hold_iff (value : UInt64) (signed : Int64) (isUnsigned : Bool)
    {row : List UInt8} {val : Int64} (hrow : row.length < 2 ^ 32) :
    RoundTrips rtlSetPackedUnsigned rtlGetPackedUnsigned value ∧
      RoundTrips rtlSetPackedSigned rtlGetPackedSigned signed ∧
      (RtlPackedIntTypeInfo.Holds isUnsigned row val ↔
        RtlPackedIntTypeInfo.SizeAgrees val ∧
          row.length + (numExtraBytesFromValue val.toUInt64 + 1) < 2 ^ 32 ∧
          (isUnsigned = false → val = 0)) :=
  ⟨rtlSetPackedUnsigned_roundTrips value, rtlSetPackedSigned_roundTrips signed,
    RtlPackedIntTypeInfo.holds_iff isUnsigned hrow⟩

theorem packedIntegers_hold_128 :
    RoundTrips rtlSetPackedSigned rtlGetPackedSigned (-65) ∧
      RtlPackedIntTypeInfo.Holds true [7, 7, 7] 128 := by
  have h := @packedIntegers_hold_iff 0 (-65) true [7, 7, 7] 128 (by decide)
  exact ⟨h.2.1, h.2.2.2 ⟨by decide, by decide, by decide⟩⟩

/-- A signed 5 is read as -3; for an unsigned 200 the row has a byte more than is written, and for
256 it has no room for the second byte. -/
theorem buildInt_five :
    (RtlPackedIntTypeInfo.buildInt [] 0 5 = some ([5], 1) ∧
      RtlPackedIntTypeInfo.getInt false [5] = some (-3) ∧
      ¬ RtlPackedIntTypeInfo.Holds false [] 5) ∧
    (RtlPackedIntTypeInfo.buildInt [] 0 200 = some ([128, 200, 0], 3) ∧
      RtlPackedIntTypeInfo.size [128, 200, 0] = some 2) ∧
    RtlPackedIntTypeInfo.buildInt [] 0 256 = none := by
  refine ⟨⟨by decide, by decide, ?_⟩, ⟨by decide, by decide⟩, by decide⟩
  rintro ⟨field, hbuild, -, hget, -⟩
  have hfield : field = [5] := by
    have hrow : RtlPackedIntTypeInfo.buildInt [] 0 5 = some ([5], 1) := by decide
    rw [List.length_nil, hrow, Option.some.injEq, Prod.mk.injEq] at hbuild
    exact hbuild.1.symm
  rw [hfield] at hget
  exact absurd hget (by decide)

end PackedInt
