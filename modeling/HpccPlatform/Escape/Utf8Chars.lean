import HpccPlatform.Library.Ctype
import HpccPlatform.Library.Utf8

/-!
# Characters in UTF-8

`utf8CharLen` tells the length of the character in front of a pointer, and `writeUtf8` writes the
character of a number.  Neither refuses what is not a character of Unicode.
-/

namespace Escape

open Ctype

/-- The loop that counts the further bits that are set in front. -/
def leadBits : ℕ → UInt8 → ℕ
  | 0, _ => 0
  | n + 1, lead => if lead &&& 0x80 ≠ 0 then leadBits n (lead <<< 1) + 1 else 0

/-- The length that the first byte tells; `0` for a byte that is not a first one. -/
def utf8LeadLen (ch : UInt8) : ℕ :=
  if ch < 128 then 1
  else if ch < 192 then 0
  else leadBits 8 (ch <<< 1) + 1

theorem leadBits_le (n : ℕ) (lead : UInt8) : leadBits n lead ≤ n := by
  induction n generalizing lead with
  | zero => exact le_refl 0
  | succ n ih =>
    rw [leadBits]
    split_ifs
    · exact Nat.succ_le_succ (ih _)
    · exact Nat.zero_le _

/-- A byte that is not the first one of a character. -/
def isTrail (c : UInt8) : Bool := 128 ≤ c && c < 192

/-- Whether the next bytes are none of them first ones. -/
def trails : ℕ → List UInt8 → Except Fault Bool
  | 0, _ => .ok true
  | _ + 1, [] => .error .readsPast
  | n + 1, c :: rest => if isTrail c then trails n rest else .ok false

/-- The length of the character, or `0` if there is none or if it is longer than `maxsize`. -/
def utf8CharLen (maxsize : ℕ) : List UInt8 → Except Fault ℕ
  | [] => .error .readsPast
  | c :: rest =>
    if c < 128 then .ok 1
    else if maxsize < utf8LeadLen c then .ok 0
    else (trails (utf8LeadLen c - 1) rest).map fun valid => if valid then utf8LeadLen c else 0

/-- A byte in front of which the bits of `mark` are set, for the bits of `c` from `shift` on. -/
def markedByte (mark shift c : ℕ) : UInt8 := UInt8.ofNat (mark ||| c >>> shift)

/-- A further byte, of six bits. -/
def trailByte (shift c : ℕ) : UInt8 := UInt8.ofNat (0x80 ||| (c >>> shift &&& 0x3F))

def writeUtf8 (c : ℕ) : Except Fault (List UInt8) :=
  if c < 0x80 then .ok [UInt8.ofNat c]
  else if c < 0x800 then .ok [markedByte 0xC0 6 c, trailByte 0 c]
  else if c < 0x10000 then .ok [markedByte 0xE0 12 c, trailByte 6 c, trailByte 0 c]
  else if c < 0x200000 then
    .ok [markedByte 0xF0 18 c, trailByte 12 c, trailByte 6 c, trailByte 0 c]
  else if c < 0x4000000 then
    .ok [markedByte 0xF8 24 c, trailByte 18 c, trailByte 12 c, trailByte 6 c, trailByte 0 c]
  else if c < 0x80000000 then
    .ok [markedByte 0xFC 30 c, trailByte 24 c, trailByte 18 c, trailByte 12 c, trailByte 6 c,
      trailByte 0 c]
  else .error (.thrown 3000 "assert(false) failed - file: jstring.cpp, line 1986")

/-! ### The characters of Unicode -/

theorem markedByte_eq {shift c : ℕ} (k high : ℕ) (hc : c / 2 ^ shift < 2 ^ k) :
    markedByte (2 ^ k * high) shift c = UInt8.ofNat (c / 2 ^ shift % 2 ^ k + 2 ^ k * high) := by
  unfold markedByte
  rw [Nat.shiftRight_eq_div_pow, ← Nat.two_pow_add_eq_or_of_lt hc, Nat.mod_eq_of_lt hc, Nat.add_comm]

theorem trailByte_eq (shift c : ℕ) :
    trailByte shift c = UInt8.ofNat (c / 2 ^ shift % 64 + 0x80) := by
  unfold trailByte
  have hlt : c / 2 ^ shift % 2 ^ 6 < 2 ^ 7 := (Nat.mod_lt _ (Nat.two_pow_pos 6)).trans (by decide)
  have hor := Nat.two_pow_add_eq_or_of_lt hlt 1
  rw [Nat.shiftRight_eq_div_pow, Nat.and_two_pow_sub_one_eq_mod _ 6, Nat.add_comm]
  exact congrArg UInt8.ofNat hor.symm

/-- Of a character of Unicode its encoding is written. -/
theorem writeUtf8_char (c : Char) : writeUtf8 c.toNat = .ok (String.utf8EncodeChar c) := by
  have hmax := Utf8.toNat_le c
  unfold writeUtf8 String.utf8EncodeChar
  dsimp only
  change (if c.toNat < 0x80 then _ else _) = Except.ok (if c.toNat ≤ 0x7f then _ else
    if c.toNat ≤ 0x7ff then _ else if c.toNat ≤ 0xffff then _ else _)
  have hzero := trailByte_eq 0 c.toNat
  rw [Nat.pow_zero, Nat.div_one] at hzero
  by_cases hone : c.toNat ≤ 0x7f
  · rw [if_pos hone, if_pos (Nat.lt_succ_of_le hone)]
    rfl
  rw [if_neg hone, if_neg (fun h => hone (Nat.le_of_lt_succ h))]
  by_cases htwo : c.toNat ≤ 0x7ff
  · have hlead : markedByte 0xC0 6 c.toNat = _ :=
      markedByte_eq 5 6 (Nat.div_lt_of_lt_mul (Nat.lt_succ_of_le htwo))
    rw [if_pos htwo, if_pos (Nat.lt_succ_of_le htwo), hlead, hzero]
    rfl
  rw [if_neg htwo, if_neg (fun h => htwo (Nat.le_of_lt_succ h))]
  by_cases hthree : c.toNat ≤ 0xffff
  · have hlead : markedByte 0xE0 12 c.toNat = _ :=
      markedByte_eq 4 14 (Nat.div_lt_of_lt_mul (Nat.lt_succ_of_le hthree))
    rw [if_pos hthree, if_pos (Nat.lt_succ_of_le hthree), hlead, trailByte_eq 6, hzero]
    rfl
  have hfour : c.toNat < 0x200000 := hmax.trans_lt (by decide)
  have hlead : markedByte 0xF0 18 c.toNat = _ := markedByte_eq 3 30 (Nat.div_lt_of_lt_mul hfour)
  rw [if_neg hthree, if_neg (fun h => hthree (Nat.le_of_lt_succ h)), if_pos hfour, hlead,
    trailByte_eq 12, trailByte_eq 6, hzero]
  rfl

theorem isTrail_six : ∀ m < 64, isTrail (UInt8.ofNat (m + 0x80)) = true := by
  decide

theorem utf8LeadLen_two : ∀ m < 32,
    ¬UInt8.ofNat (m + 0xc0) < 192 ∧ utf8LeadLen (UInt8.ofNat (m + 0xc0)) = 2 := by
  decide

theorem utf8LeadLen_three : ∀ m < 16,
    ¬UInt8.ofNat (m + 0xe0) < 192 ∧ utf8LeadLen (UInt8.ofNat (m + 0xe0)) = 3 := by
  decide

theorem utf8LeadLen_four : ∀ m < 8,
    ¬UInt8.ofNat (m + 0xf0) < 192 ∧ utf8LeadLen (UInt8.ofNat (m + 0xf0)) = 4 := by
  decide

/-- The first byte of a character that is not ASCII tells how many bytes follow. -/
theorem encodeChar_eq_cons {c : Char} (h : ¬Utf8.IsAscii c) :
    ∃ lead more, String.utf8EncodeChar c = lead :: more ∧ (∀ d ∈ more, isTrail d = true) ∧
      ¬lead < 192 ∧ utf8LeadLen lead = more.length + 1 := by
  rw [Utf8.isAscii_iff] at h
  have htrail : ∀ m : ℕ, isTrail (UInt8.ofNat (m % 0x40 + 0x80)) = true :=
    fun m => isTrail_six _ (Nat.mod_lt _ (by decide))
  unfold String.utf8EncodeChar
  dsimp only
  change ∃ lead more, (if c.toNat ≤ 0x7f then _ else
    if c.toNat ≤ 0x7ff then _ else if c.toNat ≤ 0xffff then _ else _) = _ ∧ _
  rw [if_neg h]
  by_cases htwo : c.toNat ≤ 0x7ff
  · rw [if_pos htwo]
    refine ⟨_, _, rfl, fun d hd => ?_, utf8LeadLen_two _ (Nat.mod_lt _ (by decide))⟩
    rw [List.mem_singleton.mp hd]
    exact htrail _
  rw [if_neg htwo]
  by_cases hthree : c.toNat ≤ 0xffff
  · rw [if_pos hthree]
    refine ⟨_, _, rfl, fun d hd => ?_, utf8LeadLen_three _ (Nat.mod_lt _ (by decide))⟩
    rcases List.mem_cons.mp hd with rfl | hd
    · exact htrail _
    · rw [List.mem_singleton.mp hd]
      exact htrail _
  · rw [if_neg hthree]
    refine ⟨_, _, rfl, fun d hd => ?_, utf8LeadLen_four _ (Nat.mod_lt _ (by decide))⟩
    rcases List.mem_cons.mp hd with rfl | hd
    · exact htrail _
    rcases List.mem_cons.mp hd with rfl | hd
    · exact htrail _
    · rw [List.mem_singleton.mp hd]
      exact htrail _

theorem trails_append {more rest : List UInt8} (h : ∀ d ∈ more, isTrail d = true) :
    trails more.length (more ++ rest) = .ok true := by
  induction more with
  | nil => rfl
  | cons d more ih =>
    rw [List.length_cons, List.cons_append, trails, if_pos (h d List.mem_cons_self)]
    exact ih fun x hx => h x (List.mem_cons_of_mem d hx)

end Escape
