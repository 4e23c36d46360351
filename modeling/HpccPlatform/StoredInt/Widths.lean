import HpccPlatform.Library.LittleEndian
import Mathlib.Tactic.IntervalCases

/-!
# Stored integers

The integers of one to eight bytes, as the functions of `rtlint.cpp` and the inline functions of
`eclrtl.hpp` read and write them on a little-endian machine.  An `int` has 32 bits, an `__int64`
64, and an integer that is returned as another type is extended by the sign of its own.  The swapped
functions keep the highest byte first.
-/

namespace StoredInt

open LittleEndian

/-- A memory of bytes. -/
abbrev Data := List UInt8

/-! ### Reading -/

def rtlReadInt1 (data : Data) : BitVec 32 := (load 1 data 0).signExtend 32

def rtlReadInt2 (data : Data) : BitVec 32 := (load 2 data 0).signExtend 32

def rtlReadInt3 (data : Data) : BitVec 32 :=
  (load 1 data 2).signExtend 32 <<< 16 ||| (load 2 data 0).setWidth 32

def rtlReadInt4 (data : Data) : BitVec 32 := load 4 data 0

def rtlReadInt5 (data : Data) : BitVec 64 :=
  (load 1 data 4).signExtend 64 <<< 32 ||| (load 4 data 0).setWidth 64

def rtlReadInt6 (data : Data) : BitVec 64 :=
  (load 2 data 4).signExtend 64 <<< 32 ||| (load 4 data 0).setWidth 64

def rtlReadInt7 (data : Data) : BitVec 64 :=
  (load 1 data 6).signExtend 64 <<< 48 ||| (load 2 data 4).setWidth 64 <<< 32 |||
    (load 4 data 0).setWidth 64

def rtlReadInt8 (data : Data) : BitVec 64 := load 8 data 0

def rtlReadUInt1 (data : Data) : BitVec 32 := (load 1 data 0).setWidth 32

def rtlReadUInt2 (data : Data) : BitVec 32 := (load 2 data 0).setWidth 32

def rtlReadUInt3 (data : Data) : BitVec 32 :=
  (load 1 data 2).setWidth 32 <<< 16 ||| (load 2 data 0).setWidth 32

def rtlReadUInt4 (data : Data) : BitVec 32 := load 4 data 0

def rtlReadUInt5 (data : Data) : BitVec 64 :=
  (load 1 data 4).setWidth 64 <<< 32 ||| (load 4 data 0).setWidth 64

def rtlReadUInt6 (data : Data) : BitVec 64 :=
  (load 2 data 4).setWidth 64 <<< 32 ||| (load 4 data 0).setWidth 64

def rtlReadUInt7 (data : Data) : BitVec 64 :=
  (load 1 data 6).setWidth 64 <<< 48 ||| (load 2 data 4).setWidth 64 <<< 32 |||
    (load 4 data 0).setWidth 64

def rtlReadUInt8 (data : Data) : BitVec 64 := load 8 data 0

/-- `rtlFailUnexpected` for another length. -/
def rtlReadInt (self : Data) (length : ℕ) : Option (BitVec 64) :=
  match length with
  | 1 => some ((rtlReadInt1 self).signExtend 64)
  | 2 => some ((rtlReadInt2 self).signExtend 64)
  | 3 => some ((rtlReadInt3 self).signExtend 64)
  | 4 => some ((rtlReadInt4 self).signExtend 64)
  | 5 => some (rtlReadInt5 self)
  | 6 => some (rtlReadInt6 self)
  | 7 => some (rtlReadInt7 self)
  | 8 => some (rtlReadInt8 self)
  | _ => none

def rtlReadUInt (self : Data) (length : ℕ) : Option (BitVec 64) :=
  match length with
  | 1 => some ((rtlReadUInt1 self).setWidth 64)
  | 2 => some ((rtlReadUInt2 self).setWidth 64)
  | 3 => some ((rtlReadUInt3 self).setWidth 64)
  | 4 => some ((rtlReadUInt4 self).setWidth 64)
  | 5 => some (rtlReadUInt5 self)
  | 6 => some (rtlReadUInt6 self)
  | 7 => some (rtlReadUInt7 self)
  | 8 => some (rtlReadUInt8 self)
  | _ => none

/-! ### Reading the highest byte first -/

def rtlReadSwapInt1 (data : Data) : BitVec 32 := (load 1 data 0).signExtend 32

def rtlReadSwapInt2 (data : Data) : BitVec 32 :=
  let temp : BitVec 16 := cpyrevInto 2 2 0 data
  temp.signExtend 32

/-- The first byte is read through a pointer to `unsigned char`. -/
def rtlReadSwapInt3 (data : Data) : BitVec 32 :=
  cpyrevInto 4 2 ((load 1 data 0).setWidth 32 <<< 16) (data.drop 1)

def rtlReadSwapInt4 (data : Data) : BitVec 32 := cpyrevInto 4 4 0 data

/-- The first byte is read through a pointer to `unsigned char`. -/
def rtlReadSwapInt5 (data : Data) : BitVec 64 :=
  cpyrevInto 8 4 ((load 1 data 0).setWidth 64 <<< 32) (data.drop 1)

def rtlReadSwapInt6 (data : Data) : BitVec 64 :=
  cpyrevInto 8 5 ((load 1 data 0).signExtend 64 <<< 40) (data.drop 1)

def rtlReadSwapInt7 (data : Data) : BitVec 64 :=
  cpyrevInto 8 6 ((load 1 data 0).signExtend 64 <<< 48) (data.drop 1)

def rtlReadSwapInt8 (data : Data) : BitVec 64 := cpyrevInto 8 8 0 data

def rtlReadSwapUInt1 (data : Data) : BitVec 32 := (load 1 data 0).setWidth 32

def rtlReadSwapUInt2 (data : Data) : BitVec 32 :=
  let temp : BitVec 16 := cpyrevInto 2 2 0 data
  temp.setWidth 32

def rtlReadSwapUInt3 (data : Data) : BitVec 32 := cpyrevInto 4 3 0 data

def rtlReadSwapUInt4 (data : Data) : BitVec 32 := cpyrevInto 4 4 0 data

def rtlReadSwapUInt5 (data : Data) : BitVec 64 := cpyrevInto 8 5 0 data

def rtlReadSwapUInt6 (data : Data) : BitVec 64 := cpyrevInto 8 6 0 data

def rtlReadSwapUInt7 (data : Data) : BitVec 64 := cpyrevInto 8 7 0 data

def rtlReadSwapUInt8 (data : Data) : BitVec 64 := cpyrevInto 8 8 0 data

def rtlReadSwapInt (self : Data) (length : ℕ) : Option (BitVec 64) :=
  match length with
  | 1 => some ((rtlReadSwapInt1 self).signExtend 64)
  | 2 => some ((rtlReadSwapInt2 self).signExtend 64)
  | 3 => some ((rtlReadSwapInt3 self).signExtend 64)
  | 4 => some ((rtlReadSwapInt4 self).signExtend 64)
  | 5 => some (rtlReadSwapInt5 self)
  | 6 => some (rtlReadSwapInt6 self)
  | 7 => some (rtlReadSwapInt7 self)
  | 8 => some (rtlReadSwapInt8 self)
  | _ => none

def rtlReadSwapUInt (self : Data) (length : ℕ) : Option (BitVec 64) :=
  match length with
  | 1 => some ((rtlReadSwapUInt1 self).setWidth 64)
  | 2 => some ((rtlReadSwapUInt2 self).setWidth 64)
  | 3 => some ((rtlReadSwapUInt3 self).setWidth 64)
  | 4 => some ((rtlReadSwapUInt4 self).setWidth 64)
  | 5 => some (rtlReadSwapUInt5 self)
  | 6 => some (rtlReadSwapUInt6 self)
  | 7 => some (rtlReadSwapUInt7 self)
  | 8 => some (rtlReadSwapUInt8 self)
  | _ => none

/-! ### Reversing -/

def rtlRevInt2 (data : Data) : BitVec 16 := cpyrevInto 2 2 0 data

def rtlRevInt3 (data : Data) : BitVec 32 :=
  cpyrevInto 4 2 ((load 1 data 0).signExtend 32 <<< 16) (data.drop 1)

def rtlRevInt4 (data : Data) : BitVec 32 := cpyrevInto 4 4 0 data

def rtlRevInt5 (data : Data) : BitVec 64 :=
  cpyrevInto 8 4 ((load 1 data 0).signExtend 64 <<< 32) (data.drop 1)

def rtlRevInt6 (data : Data) : BitVec 64 :=
  cpyrevInto 8 5 ((load 1 data 0).signExtend 64 <<< 40) (data.drop 1)

def rtlRevInt7 (data : Data) : BitVec 64 :=
  cpyrevInto 8 6 ((load 1 data 0).signExtend 64 <<< 48) (data.drop 1)

def rtlRevInt8 (data : Data) : BitVec 64 := cpyrevInto 8 8 0 data

/-- The value of the `rtlRevInt` for the length, as an `__int64`. -/
def rtlRevInt (data : Data) (length : ℕ) : Option (BitVec 64) :=
  match length with
  | 2 => some ((rtlRevInt2 data).signExtend 64)
  | 3 => some ((rtlRevInt3 data).signExtend 64)
  | 4 => some ((rtlRevInt4 data).signExtend 64)
  | 5 => some (rtlRevInt5 data)
  | 6 => some (rtlRevInt6 data)
  | 7 => some (rtlRevInt7 data)
  | 8 => some (rtlRevInt8 data)
  | _ => none

/-! ### Writing -/

section Write

variable (data : Data) (value : BitVec 32) (val : BitVec 64)

def rtlWriteInt1 : Data := store 1 data 0 value

def rtlWriteInt2 : Data := store 2 data 0 value

def rtlWriteInt3 : Data := store 2 (store 1 data 2 (value >>> 16)) 0 value

def rtlWriteInt4 : Data := store 4 data 0 value

def rtlWriteInt5 : Data := store 4 (store 1 data 4 (val >>> 32)) 0 val

def rtlWriteInt6 : Data := store 4 (store 2 data 4 (val >>> 32)) 0 val

def rtlWriteInt7 : Data := store 4 (store 2 (store 1 data 6 (val >>> 48)) 4 (val >>> 32)) 0 val

def rtlWriteInt8 : Data := store 8 data 0 val

def rtlWriteSwapInt1 : Data := store 1 data 0 value

def rtlWriteSwapInt2 : Data := cpyrev 2 data (bytes 4 value)

def rtlWriteSwapInt3 : Data := cpyrev 3 data (bytes 4 value)

def rtlWriteSwapInt4 : Data := cpyrev 4 data (bytes 4 value)

def rtlWriteSwapInt5 : Data := cpyrev 5 data (bytes 8 val)

def rtlWriteSwapInt6 : Data := cpyrev 6 data (bytes 8 val)

def rtlWriteSwapInt7 : Data := cpyrev 7 data (bytes 8 val)

def rtlWriteSwapInt8 : Data := cpyrev 8 data (bytes 8 val)

end Write

def rtlWriteInt (self : Data) (val : BitVec 64) (length : ℕ) : Option Data :=
  match length with
  | 1 => some (rtlWriteInt1 self (val.setWidth 32))
  | 2 => some (rtlWriteInt2 self (val.setWidth 32))
  | 3 => some (rtlWriteInt3 self (val.setWidth 32))
  | 4 => some (rtlWriteInt4 self (val.setWidth 32))
  | 5 => some (rtlWriteInt5 self val)
  | 6 => some (rtlWriteInt6 self val)
  | 7 => some (rtlWriteInt7 self val)
  | 8 => some (rtlWriteInt8 self val)
  | _ => none

def rtlWriteSwapInt (self : Data) (val : BitVec 64) (length : ℕ) : Option Data :=
  match length with
  | 1 => some (rtlWriteSwapInt1 self (val.setWidth 32))
  | 2 => some (rtlWriteSwapInt2 self (val.setWidth 32))
  | 3 => some (rtlWriteSwapInt3 self (val.setWidth 32))
  | 4 => some (rtlWriteSwapInt4 self (val.setWidth 32))
  | 5 => some (rtlWriteSwapInt5 self val)
  | 6 => some (rtlWriteSwapInt6 self val)
  | 7 => some (rtlWriteSwapInt7 self val)
  | 8 => some (rtlWriteSwapInt8 self val)
  | _ => none

/-! ### What is read -/

section Read

variable {n : ℕ} (data : Data)

theorem rtlReadInt3_eq : rtlReadInt3 data = (load 3 data 0).signExtend 32 :=
  shiftLeft_signExtend_or_load (k := 2) Nat.one_pos data 0 32

theorem rtlReadInt5_eq : rtlReadInt5 data = (load 5 data 0).signExtend 64 :=
  shiftLeft_signExtend_or_load (k := 4) Nat.one_pos data 0 64

theorem rtlReadInt6_eq : rtlReadInt6 data = (load 6 data 0).signExtend 64 :=
  shiftLeft_signExtend_or_load (k := 4) Nat.two_pos data 0 64

theorem rtlReadInt7_eq : rtlReadInt7 data = (load 7 data 0).signExtend 64 := by
  have hlow : (load 2 data 4).setWidth 64 <<< 32 ||| (load 4 data 0).setWidth 64 =
      (load 6 data 0).setWidth 64 := shiftLeft_or_load (m := 2) (k := 4) data 0 64
  rw [rtlReadInt7, BitVec.or_assoc, hlow]
  exact shiftLeft_signExtend_or_load (k := 6) Nat.one_pos data 0 64

theorem rtlReadUInt3_eq : rtlReadUInt3 data = (load 3 data 0).setWidth 32 :=
  shiftLeft_or_load (m := 1) (k := 2) data 0 32

theorem rtlReadUInt5_eq : rtlReadUInt5 data = (load 5 data 0).setWidth 64 :=
  shiftLeft_or_load (m := 1) (k := 4) data 0 64

theorem rtlReadUInt6_eq : rtlReadUInt6 data = (load 6 data 0).setWidth 64 :=
  shiftLeft_or_load (m := 2) (k := 4) data 0 64

theorem rtlReadUInt7_eq : rtlReadUInt7 data = (load 7 data 0).setWidth 64 := by
  have hlow : (load 2 data 4).setWidth 64 <<< 32 ||| (load 4 data 0).setWidth 64 =
      (load 6 data 0).setWidth 64 := shiftLeft_or_load (m := 2) (k := 4) data 0 64
  rw [rtlReadUInt7, BitVec.or_assoc, hlow]
  exact shiftLeft_or_load (m := 1) (k := 6) data 0 64

theorem rtlReadInt_eq (hpos : 1 ≤ n) (hle : n ≤ 8) :
    rtlReadInt data n = some ((load n data 0).signExtend 64) := by
  have hsign : ∀ {m : ℕ} (x : BitVec m), m ≤ 32 → (x.signExtend 32).signExtend 64 =
      x.signExtend 64 := fun x hm => signExtend_signExtend hm (by decide)
  interval_cases n <;> refine congrArg some ?_
  · exact hsign _ (by decide)
  · exact hsign _ (by decide)
  · rw [rtlReadInt3_eq]
    exact hsign _ (by decide)
  · rfl
  · exact rtlReadInt5_eq data
  · exact rtlReadInt6_eq data
  · exact rtlReadInt7_eq data
  · exact (BitVec.signExtend_eq _).symm

theorem rtlReadUInt_eq (hpos : 1 ≤ n) (hle : n ≤ 8) :
    rtlReadUInt data n = some ((load n data 0).setWidth 64) := by
  have hwide : ∀ {m : ℕ} (x : BitVec m), m ≤ 32 → (x.setWidth 32).setWidth 64 = x.setWidth 64 :=
    fun x hm => BitVec.setWidth_setWidth (fun h => absurd h.1 (Nat.not_lt.2 hm))
  interval_cases n <;> refine congrArg some ?_
  · exact hwide _ (by decide)
  · exact hwide _ (by decide)
  · rw [rtlReadUInt3_eq]
    exact hwide _ (by decide)
  · rfl
  · exact rtlReadUInt5_eq data
  · exact rtlReadUInt6_eq data
  · exact rtlReadUInt7_eq data
  · exact (BitVec.setWidth_eq _).symm

theorem rtlReadSwapUInt_eq (hpos : 1 ≤ n) (hle : n ≤ 8) :
    rtlReadSwapUInt data n = some ((load n (cpyrev n [] data) 0).setWidth 64) := by
  have hwide : ∀ {m : ℕ} (x : BitVec m), m ≤ 32 → (x.setWidth 32).setWidth 64 = x.setWidth 64 :=
    fun x hm => BitVec.setWidth_setWidth (fun h => absurd h.1 (Nat.not_lt.2 hm))
  interval_cases n <;> refine congrArg some ?_
  · rw [load_cpyrev_one]
    exact hwide _ (by decide)
  · rw [rtlReadSwapUInt2, cpyrevInto_self]
    exact hwide _ (by decide)
  · exact (congrArg (BitVec.setWidth 64) (cpyrevInto_zero 4 3 data)).trans (hwide _ (by decide))
  · exact congrArg (BitVec.setWidth 64) (cpyrevInto_self (k := 4) 0 data)
  · exact cpyrevInto_zero 8 5 data
  · exact cpyrevInto_zero 8 6 data
  · exact cpyrevInto_zero 8 7 data
  · exact cpyrevInto_zero 8 8 data

/-- The widths that are read without their sign. -/
def Unsigned (n : ℕ) : Prop := n = 3 ∨ n = 5

instance (n : ℕ) : Decidable (Unsigned n) := inferInstanceAs (Decidable (_ ∨ _))

theorem rtlReadSwapInt_eq (hpos : 1 ≤ n) (hle : n ≤ 8) :
    rtlReadSwapInt data n =
      some (if Unsigned n then (load n (cpyrev n [] data) 0).setWidth 64
        else (load n (cpyrev n [] data) 0).signExtend 64) := by
  have hsign : ∀ {m : ℕ} (x : BitVec m), m ≤ 32 → (x.signExtend 32).signExtend 64 =
      x.signExtend 64 := fun x hm => signExtend_signExtend hm (by decide)
  have hsign16 : (rtlReadSwapInt2 data).signExtend 64 =
      (load 2 (cpyrev 2 [] data) 0).signExtend 64 := by
    rw [rtlReadSwapInt2, cpyrevInto_self]
    exact hsign _ (by decide)
  interval_cases n <;> refine congrArg some ?_
  · rw [if_neg (by decide), load_cpyrev_one]
    exact hsign _ (by decide)
  · rw [if_neg (by decide)]
    exact hsign16
  · rw [if_pos (by decide)]
    exact (congrArg (BitVec.signExtend 64) (cpyrevInto_setWidth 4 2 data)).trans
      (signExtend_setWidth (by decide))
  · exact congrArg (BitVec.signExtend 64) (cpyrevInto_self (k := 4) 0 data)
  · rw [if_pos (by decide)]
    exact cpyrevInto_setWidth 8 4 data
  · rw [if_neg (by decide)]
    exact cpyrevInto_signExtend 8 5 data
  · rw [if_neg (by decide)]
    exact cpyrevInto_signExtend 8 6 data
  · rw [if_neg (by decide), BitVec.signExtend_eq]
    exact cpyrevInto_self (k := 8) 0 data

theorem rtlRevInt_eq (hpos : 2 ≤ n) (hle : n ≤ 8) :
    rtlRevInt data n = some ((load n (cpyrev n [] data) 0).signExtend 64) := by
  interval_cases n <;> refine congrArg some ?_
  · exact congrArg (BitVec.signExtend 64) (cpyrevInto_self (k := 2) 0 data)
  · exact (congrArg (BitVec.signExtend 64) (cpyrevInto_signExtend 4 2 data)).trans
      (signExtend_signExtend (by decide) (by decide))
  · exact congrArg (BitVec.signExtend 64) (cpyrevInto_self (k := 4) 0 data)
  · exact cpyrevInto_signExtend 8 4 data
  · exact cpyrevInto_signExtend 8 5 data
  · exact cpyrevInto_signExtend 8 6 data
  · rw [BitVec.signExtend_eq]
    exact cpyrevInto_self (k := 8) 0 data

end Read

/-! ### What is written -/

section Written

variable {n : ℕ} {data : Data}

/-- The lowest bytes of the value are stored, for the odd widths in two or three parts. -/
theorem rtlWriteInt_eq (hpos : 1 ≤ n) (hle : n ≤ 8) (hdata : n ≤ data.length) (val : BitVec 64) :
    rtlWriteInt data val n = some (store n data 0 val) := by
  have hshift : ∀ {w : ℕ} (v : BitVec w) (k n : ℕ), ∀ j < 8 * n,
      (v >>> (8 * k)).getLsbD j = v.getLsbD (8 * k + j) := fun v k n j _ => by
    rw [BitVec.getLsbD_ushiftRight]
  interval_cases n <;> refine congrArg some ?_
  · exact store_setWidth data 0 val (by decide)
  · exact store_setWidth data 0 val (by decide)
  · exact (store_store (k := 2) (n := 1) (val.setWidth 32) _ hdata (hshift _ 2 1)).trans
      (store_setWidth data 0 val (by decide))
  · exact store_setWidth data 0 val (by decide)
  · exact store_store (k := 4) (n := 1) val _ hdata (hshift val 4 1)
  · exact store_store (k := 4) (n := 2) val _ hdata (hshift val 4 2)
  · have hhigh : store 2 (store 1 data 6 (val >>> 48)) 4 (val >>> 32) =
        store 3 data 4 (val >>> 32) := by
      refine store_store (k := 2) (n := 1) (o := 4) (val >>> 32) _ hdata fun j _ => ?_
      rw [BitVec.getLsbD_ushiftRight, BitVec.getLsbD_ushiftRight, ← Nat.add_assoc]
    rw [rtlWriteInt7, hhigh]
    exact store_store (k := 4) (n := 3) val _ hdata (hshift val 4 3)
  · rfl

/-- The lowest bytes of the value are stored, the highest of them first. -/
theorem rtlWriteSwapInt_eq (hpos : 1 ≤ n) (hle : n ≤ 8) (hdata : n ≤ data.length)
    (val : BitVec 64) : rtlWriteSwapInt data val n = some (cpyrev n data (bytes 8 val)) := by
  interval_cases n <;> refine congrArg some ?_
  · exact (store_setWidth data 0 val (by decide)).trans
      (store_one_eq_cpyrev val (by decide) hdata)
  · exact cpyrev_bytes_setWidth data val (by decide) (by decide) (by decide)
  · exact cpyrev_bytes_setWidth data val (by decide) (by decide) (by decide)
  · exact cpyrev_bytes_setWidth data val (by decide) (by decide) (by decide)
  · rfl
  · rfl
  · rfl
  · rfl

end Written

/-! ### Round trips -/

/-- What is written in `n` bytes is read back by the readers of both signs. -/
def RoundTrips (read readUnsigned : Data → ℕ → Option (BitVec 64))
    (write : Data → BitVec 64 → ℕ → Option Data) (n : ℕ) (v : BitVec 64) (data : Data) : Prop :=
  ∃ bs, write data v n = some bs ∧ read bs n = some ((v.setWidth (8 * n)).signExtend 64) ∧
    readUnsigned bs n = some (BitVec.ofNat 64 (v.toNat % 2 ^ (8 * n)))

variable {n : ℕ}

theorem setWidth_setWidth_eq (v : BitVec 64) (n : ℕ) :
    (v.setWidth (8 * n)).setWidth 64 = BitVec.ofNat 64 (v.toNat % 2 ^ (8 * n)) := by
  refine BitVec.eq_of_toNat_eq ?_
  rw [BitVec.toNat_setWidth, BitVec.toNat_setWidth, BitVec.toNat_ofNat]

theorem msb_setWidth_eq (hpos : 1 ≤ n) (v : BitVec 64) :
    (v.setWidth (8 * n)).msb = v.getLsbD (8 * n - 1) := by
  rw [BitVec.msb_eq_getLsbD_last, BitVec.getLsbD_setWidth,
    decide_eq_true (show 8 * n - 1 < 8 * n by omega), Bool.true_and]

theorem rtlWriteInt_roundTrips (hpos : 1 ≤ n) (hle : n ≤ 8) (v : BitVec 64) {data : Data}
    (hdata : n ≤ data.length) : RoundTrips rtlReadInt rtlReadUInt rtlWriteInt n v data := by
  have hload : load n (store n data 0 v) 0 = v.setWidth (8 * n) :=
    load_store v (by rwa [Nat.zero_add])
  refine ⟨_, rtlWriteInt_eq hpos hle hdata v, ?_, ?_⟩
  · rw [rtlReadInt_eq _ hpos hle, hload]
  · rw [rtlReadUInt_eq _ hpos hle, hload, setWidth_setWidth_eq]

/-- A negative value of three or five bytes is not read back from the swapped form. -/
theorem rtlWriteSwapInt_roundTrips_iff (hpos : 1 ≤ n) (hle : n ≤ 8) (v : BitVec 64) {data : Data}
    (hdata : n ≤ data.length) :
    RoundTrips rtlReadSwapInt rtlReadSwapUInt rtlWriteSwapInt n v data ↔
      ¬ (Unsigned n ∧ v.getLsbD (8 * n - 1) = true) := by
  have hload : load n (cpyrev n [] (cpyrev n data (bytes 8 v))) 0 = v.setWidth (8 * n) :=
    load_cpyrev_cpyrev v hle data
  have hsigned : RoundTrips rtlReadSwapInt rtlReadSwapUInt rtlWriteSwapInt n v data ↔
      (if Unsigned n then (v.setWidth (8 * n)).setWidth 64 else (v.setWidth (8 * n)).signExtend 64) =
        (v.setWidth (8 * n)).signExtend 64 := by
    constructor
    · rintro ⟨bs, hwrite, hread, -⟩
      rw [rtlWriteSwapInt_eq hpos hle hdata, Option.some.injEq] at hwrite
      rw [← hwrite, rtlReadSwapInt_eq _ hpos hle, hload] at hread
      exact Option.some.inj hread
    · intro h
      refine ⟨_, rtlWriteSwapInt_eq hpos hle hdata v, ?_, ?_⟩
      · rw [rtlReadSwapInt_eq _ hpos hle, hload, h]
      · rw [rtlReadSwapUInt_eq _ hpos hle, hload, setWidth_setWidth_eq]
  rw [hsigned]
  by_cases hn : Unsigned n
  · have hlt : 8 * n < 64 := by
      rcases hn with rfl | rfl <;> decide
    rw [if_pos hn, setWidth_eq_signExtend_iff hlt, msb_setWidth_eq hpos, and_iff_right hn,
      Bool.not_eq_true]
  · rw [if_neg hn]
    exact iff_of_true rfl fun h => hn h.1

/-- A reversing function agrees with the swapped reader, but for the negative integers of three or
five bytes. -/
theorem rtlRevInt_eq_rtlReadSwapInt_iff (hpos : 2 ≤ n) (hle : n ≤ 8) (data : Data) :
    rtlRevInt data n = rtlReadSwapInt data n ↔ ¬ (Unsigned n ∧ 0x80 ≤ data.getD 0 0) := by
  rw [rtlRevInt_eq data hpos hle, rtlReadSwapInt_eq data (by omega) hle, Option.some.injEq]
  by_cases hn : Unsigned n
  · have hlt : 8 * n < 64 := by
      rcases hn with rfl | rfl <;> decide
    have hmirror : mirror n (8 * n - 1) = 7 := by
      unfold mirror
      omega
    have hmsb : (load n (cpyrev n [] data) 0).msb = decide (0x80 ≤ (data.getD 0 0).toNat) := by
      have hbyte : (data.getD 0 0).toNat < 256 := UInt8.toNat_lt _
      rw [BitVec.msb_eq_getLsbD_last, getLsbD_load, Nat.mul_zero, Nat.zero_add, bit_cpyrev,
        if_pos (by omega), hmirror, decide_eq_true (show 8 * n - 1 < 8 * n by omega), Bool.true_and,
        bit, Nat.testBit_eq_decide_div_mod_eq]
      simp only [Nat.reduceDiv, Nat.reduceMod]
      exact decide_eq_decide.2 (by omega)
    rw [if_pos hn, eq_comm, setWidth_eq_signExtend_iff hlt, hmsb, and_iff_right hn,
      decide_eq_false_iff_not]
    rfl
  · rw [if_neg hn]
    exact iff_of_true rfl fun h => hn h.1

/-- Every integer is read back from both forms unless it is negative and has three or five bytes,
and the reversing functions agree with the swapped reader with the same exception. -/
theorem readBack_iff (hpos : 1 ≤ n) (hle : n ≤ 8) (v : BitVec 64) {data : Data}
    (hdata : n ≤ data.length) :
    (RoundTrips rtlReadInt rtlReadUInt rtlWriteInt n v data ∧
        RoundTrips rtlReadSwapInt rtlReadSwapUInt rtlWriteSwapInt n v data ↔
      ¬ (Unsigned n ∧ v.getLsbD (8 * n - 1) = true)) ∧
    (2 ≤ n → (rtlRevInt data n = rtlReadSwapInt data n ↔
      ¬ (Unsigned n ∧ 0x80 ≤ data.getD 0 0))) :=
  ⟨(and_iff_right (rtlWriteInt_roundTrips hpos hle v hdata)).trans
      (rtlWriteSwapInt_roundTrips_iff hpos hle v hdata),
    fun htwo => rtlRevInt_eq_rtlReadSwapInt_iff htwo hle data⟩

theorem readBack_three :
    (RoundTrips rtlReadInt rtlReadUInt rtlWriteInt 3 5 [0, 0, 0] ∧
        RoundTrips rtlReadSwapInt rtlReadSwapUInt rtlWriteSwapInt 3 5 [0, 0, 0]) ∧
      rtlRevInt [0, 0, 5] 3 = rtlReadSwapInt [0, 0, 5] 3 :=
  ⟨(readBack_iff (n := 3) (by decide) (by decide) 5 (by decide : 3 ≤ [0, 0, 0].length)).1.2
      (by decide),
    ((readBack_iff (n := 3) (by decide) (by decide) 5 (by decide : 3 ≤ [0, 0, 5].length)).2
      (by decide)).2 (by decide)⟩

/-- The value `-1` of three bytes is read as `0xffffff` from the swapped form. -/
theorem rtlReadSwapInt_minusOne :
    rtlWriteSwapInt [0, 0, 0] (-1) 3 = some [0xff, 0xff, 0xff] ∧
      rtlReadSwapInt [0xff, 0xff, 0xff] 3 = some 0xffffff ∧
      rtlRevInt [0xff, 0xff, 0xff] 3 = some (-1) ∧
      ¬ RoundTrips rtlReadSwapInt rtlReadSwapUInt rtlWriteSwapInt 3 (-1) [0, 0, 0] := by
  refine ⟨by decide, by decide, by decide, ?_⟩
  rintro ⟨bs, hwrite, hread, -⟩
  have hbs : bs = [0xff, 0xff, 0xff] :=
    Option.some.inj (hwrite.symm.trans (show rtlWriteSwapInt [0, 0, 0] (-1) 3 = _ by decide))
  rw [hbs] at hread
  exact absurd hread (by decide)

end StoredInt
