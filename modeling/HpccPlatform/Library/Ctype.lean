import Mathlib.Data.List.Basic
import Mathlib.Tactic.IntervalCases

/-!
# Terminated strings

Strings in memory with the zero byte behind them, and what may go wrong where they are read; the
classes of `ctype.h` in the C locale, in which no byte from 128 on is, and the digits of a number.
-/

namespace Ctype

def isdigit (c : UInt8) : Bool := 48 ≤ c && c ≤ 57

def isalpha (c : UInt8) : Bool := (65 ≤ c && c ≤ 90) || (97 ≤ c && c ≤ 122)

def isspace (c : UInt8) : Bool := c = 32 || (9 ≤ c && c ≤ 13)

def isalnum (c : UInt8) : Bool := isalpha c || isdigit c

def isxdigit (c : UInt8) : Bool :=
  isdigit c || (65 ≤ c && c ≤ 70) || (97 ≤ c && c ≤ 102)

/-- A digit of a number in base 16. -/
def hexDigit (lower : Bool) (n : ℕ) : UInt8 :=
  if n < 10 then UInt8.ofNat (48 + n)
  else if lower then UInt8.ofNat (97 + n - 10)
  else UInt8.ofNat (65 + n - 10)

/-- How a function ends that has no result: it reads behind the end of the memory, or it throws. -/
inductive Fault where
  | readsPast
  | thrown (code : ℤ) (message : String)
  deriving DecidableEq

theorem bind_eq_ok {α β : Type*} {r : Except Fault α} {f : α → Except Fault β} {b : β}
    (h : r.bind f = .ok b) : ∃ a, r = .ok a ∧ f a = .ok b := by
  cases r with
  | error fault => cases h
  | ok a => exact ⟨a, rfl, h⟩

theorem map_eq_ok {α β : Type*} {r : Except Fault α} {f : α → β} {b : β}
    (h : r.map f = .ok b) : ∃ a, r = .ok a ∧ f a = b := by
  cases r with
  | error fault => cases h
  | ok a => exact ⟨a, rfl, Except.ok.inj h⟩

/-- A terminated string in memory, with nothing behind it. -/
def cells (s : List UInt8) : List UInt8 := s ++ [0]

@[simp] theorem cells_nil : cells [] = [0] := rfl

@[simp] theorem cells_cons (c : UInt8) (s : List UInt8) : cells (c :: s) = c :: cells s := rfl

theorem cells_append (s t : List UInt8) : cells (s ++ t) = s ++ cells t :=
  List.append_assoc s t [0]

/-- The bytes in front of the terminator. -/
def strlen : List UInt8 → Except Fault ℕ
  | [] => .error .readsPast
  | c :: s => if c = 0 then .ok 0 else (strlen s).map (· + 1)

theorem strlen_cells {s : List UInt8} (hs : 0 ∉ s) : strlen (cells s) = .ok s.length := by
  induction s with
  | nil => rfl
  | cons c s ih =>
    rw [List.mem_cons, not_or] at hs
    rw [cells_cons, strlen, if_neg (Ne.symm hs.1), ih hs.2]
    rfl

/-- The bytes of a text. -/
def ascii (text : String) : List UInt8 := text.toList.map fun c => UInt8.ofNat c.toNat

/-! ### Numbers -/

/-- The value of a digit in a base up to 36. -/
def digitValue (base : ℕ) (c : UInt8) : Option ℕ :=
  let value := if isdigit c then c.toNat - 48
    else if 97 ≤ c ∧ c ≤ 122 then c.toNat - 87
    else if 65 ≤ c ∧ c ≤ 90 then c.toNat - 55
    else base
  if value < base then some value else none

theorem digitValue_lt {base v : ℕ} {c : UInt8} (h : digitValue base c = some v) : v < base := by
  unfold digitValue at h
  dsimp only at h
  by_cases hlt : (if isdigit c then c.toNat - 48
      else if 97 ≤ c ∧ c ≤ 122 then c.toNat - 87
      else if 65 ≤ c ∧ c ≤ 90 then c.toNat - 55
      else base) < base
  · rw [if_pos hlt] at h
    exact Option.some.inj h ▸ hlt
  · rw [if_neg hlt] at h
    cases h

def skipSpaces : List UInt8 → Except Fault (List UInt8)
  | [] => .error .readsPast
  | c :: s => if isspace c then skipSpaces s else .ok (c :: s)

/-- The number that the digits continue, and what is behind them. -/
def readDigits (base : ℕ) : ℕ → List UInt8 → Except Fault (ℕ × List UInt8)
  | _, [] => .error .readsPast
  | value, c :: s =>
    match digitValue base c with
    | some digit => readDigits base (value * base + digit) s
    | none => .ok (value, c :: s)

theorem readDigits_digit {base value digit : ℕ} {c : UInt8} {s : List UInt8}
    (h : digitValue base c = some digit) :
    readDigits base value (c :: s) = readDigits base (value * base + digit) s := by
  rw [readDigits, h]

theorem readDigits_end {base value : ℕ} {c : UInt8} {s : List UInt8}
    (h : digitValue base c = none) : readDigits base value (c :: s) = .ok (value, c :: s) := by
  rw [readDigits, h]

/-- In base 16 there may be `0x` in front of a digit. -/
def skipHexPrefix (base : ℕ) : List UInt8 → List UInt8
  | 48 :: x :: c :: s =>
    if base = 16 ∧ (x = 120 ∨ x = 88) ∧ isxdigit c then c :: s else 48 :: x :: c :: s
  | s => s

theorem skipHexPrefix_of_ne {base : ℕ} {c x : UInt8} {s : List UInt8} (hx : x ≠ 120 ∧ x ≠ 88) :
    skipHexPrefix base (c :: x :: s) = c :: x :: s := by
  unfold skipHexPrefix
  split
  · rename_i y d t heq
    obtain ⟨-, htail⟩ := List.cons.inj heq
    obtain ⟨hy, -⟩ := List.cons.inj htail
    rw [if_neg]
    · exact heq.symm
    · rintro ⟨-, rfl | rfl, -⟩
      · exact hx.1 hy
      · exact hx.2 hy
  · rfl

/-- The number of 64 bits for the digits: the largest one if they say more. -/
def toULong (negative : Bool) (value : ℕ) : ℕ :=
  if 2 ^ 64 ≤ value then 2 ^ 64 - 1
  else if negative then (2 ^ 64 - value) % 2 ^ 64
  else value

/-- `strtoul`, and what is behind the number; where there is none, this is the whole string. -/
def strtoul (base : ℕ) (src : List UInt8) : Except Fault (ℕ × List UInt8) :=
  (skipSpaces src).bind fun s =>
    let negative := s.head? = some 45
    let digits := skipHexPrefix base (if negative ∨ s.head? = some 43 then s.tail else s)
    if ((digits.head?).bind (digitValue base)).isSome then
      (readDigits base 0 digits).map fun r => (toULong negative r.1, r.2)
    else .ok (0, src)

/-- A number without spaces, a sign or a prefix in front. -/
theorem strtoul_digits {base value : ℕ} {c x : UInt8} {s rest : List UInt8}
    (hspace : isspace c = false) (hminus : c ≠ 45) (hplus : c ≠ 43) (hx : x ≠ 120 ∧ x ≠ 88)
    (hdigit : (digitValue base c).isSome = true)
    (hread : readDigits base 0 (c :: x :: s) = .ok (value, rest)) (hlt : value < 2 ^ 64) :
    strtoul base (c :: x :: s) = .ok (value, rest) := by
  have hspaces : skipSpaces (c :: x :: s) = .ok (c :: x :: s) := by
    rw [skipSpaces, hspace, if_neg Bool.false_ne_true]
  have hsigned : ¬((c :: x :: s).head? = some 45 ∨ (c :: x :: s).head? = some 43) := by
    rintro (h | h)
    · exact hminus (Option.some.inj h)
    · exact hplus (Option.some.inj h)
  have hnumber : toULong (decide ((c :: x :: s).head? = some 45)) value = value := by
    unfold toULong
    rw [if_neg (not_le.mpr hlt), decide_eq_false fun h => hsigned (Or.inl h),
      if_neg Bool.false_ne_true]
  unfold strtoul
  rw [hspaces]
  change (if _ then _ else _) = _
  rw [if_neg hsigned, skipHexPrefix_of_ne hx, List.head?_cons, Option.bind_some, if_pos hdigit, hread]
  exact congrArg (fun v => Except.ok (v, rest)) hnumber

theorem readDigits_length {base value n : ℕ} {s rest : List UInt8}
    (h : readDigits base value s = .ok (n, rest)) : rest.length ≤ s.length := by
  induction s generalizing value with
  | nil => cases h
  | cons c s ih =>
    rw [readDigits] at h
    cases hdigit : digitValue base c with
    | some digit =>
      rw [hdigit] at h
      exact (ih h).trans (Nat.le_succ _)
    | none =>
      rw [hdigit] at h
      cases h
      exact le_refl _

theorem skipSpaces_length {s rest : List UInt8} (h : skipSpaces s = .ok rest) :
    rest.length ≤ s.length := by
  induction s with
  | nil => cases h
  | cons c s ih =>
    rw [skipSpaces] at h
    split_ifs at h with hc
    · exact (ih h).trans (Nat.le_succ _)
    · cases h
      exact le_refl _

theorem skipHexPrefix_length (base : ℕ) (s : List UInt8) :
    (skipHexPrefix base s).length ≤ s.length := by
  unfold skipHexPrefix
  split
  · split_ifs
    · exact (Nat.le_succ _).trans (Nat.le_succ _)
    · exact le_refl _
  · exact le_refl _

/-- The number is in front of what is left. -/
theorem strtoul_length {base n : ℕ} {src rest : List UInt8}
    (h : strtoul base src = .ok (n, rest)) : rest.length ≤ src.length := by
  obtain ⟨s, hspaces, h⟩ := bind_eq_ok h
  have hs := skipSpaces_length hspaces
  have hsign : (if s.head? = some 45 ∨ s.head? = some 43 then s.tail else s).length ≤ s.length := by
    split_ifs
    · rw [List.length_tail]
      exact Nat.sub_le _ _
    · exact le_refl _
  dsimp only at h
  by_cases hdigit : (((skipHexPrefix base
      (if s.head? = some 45 ∨ s.head? = some 43 then s.tail else s)).head?).bind
        (digitValue base)).isSome = true
  · rw [if_pos hdigit] at h
    obtain ⟨r, hread, hr⟩ := map_eq_ok h
    cases hr
    exact (readDigits_length hread).trans ((skipHexPrefix_length base _).trans (hsign.trans hs))
  · rw [if_neg hdigit] at h
    cases h
    exact le_refl _

theorem skipSpaces_cells (s : List UInt8) : ∃ s', skipSpaces (cells s) = .ok (cells s') := by
  induction s with
  | nil => exact ⟨[], rfl⟩
  | cons c s ih =>
    rw [cells_cons, skipSpaces]
    split_ifs
    · exact ih
    · exact ⟨c :: s, rfl⟩

theorem readDigits_cells (base value : ℕ) (s : List UInt8) (hzero : digitValue base 0 = none) :
    ∃ r, readDigits base value (cells s) = .ok r := by
  induction s generalizing value with
  | nil => exact ⟨(value, [0]), readDigits_end hzero⟩
  | cons c s ih =>
    rw [cells_cons]
    cases hdigit : digitValue base c with
    | some digit =>
      rw [readDigits_digit hdigit]
      exact ih _
    | none => exact ⟨_, readDigits_end hdigit⟩

theorem skipHexPrefix_cells (base : ℕ) (s : List UInt8) :
    ∃ s', skipHexPrefix base (cells s) = cells s' := by
  match s with
  | [] => exact ⟨[], rfl⟩
  | [c] =>
    refine ⟨[c], ?_⟩
    exact skipHexPrefix_of_ne (by decide)
  | [c, x] =>
    by_cases hx : x ≠ 120 ∧ x ≠ 88
    · exact ⟨[c, x], skipHexPrefix_of_ne hx⟩
    · refine ⟨[c, x], ?_⟩
      unfold skipHexPrefix
      split
      · rename_i heq
        cases heq
        rw [if_neg]
        · rfl
        · rintro ⟨-, -, h⟩
          cases h
      · rfl
  | c :: x :: d :: s =>
    change ∃ s', skipHexPrefix base (c :: x :: d :: cells s) = cells s'
    unfold skipHexPrefix
    split
    · rename_i heq
      cases heq
      split_ifs
      · exact ⟨d :: s, rfl⟩
      · exact ⟨48 :: x :: d :: s, rfl⟩
    · exact ⟨c :: x :: d :: s, rfl⟩

/-- A terminated string is not left. -/
theorem strtoul_cells {base : ℕ} (s : List UInt8) (hzero : digitValue base 0 = none) :
    ∃ r, strtoul base (cells s) = .ok r := by
  obtain ⟨s', hspaces⟩ := skipSpaces_cells s
  have hsigned : ∃ t, (if (cells s').head? = some 45 ∨ (cells s').head? = some 43 then
      (cells s').tail else cells s') = cells t := by
    split_ifs with hsign
    · cases s' with
      | nil => rcases hsign with h | h <;> cases h
      | cons c s' => exact ⟨s', rfl⟩
    · exact ⟨s', rfl⟩
  obtain ⟨t, ht⟩ := hsigned
  obtain ⟨t', ht'⟩ := skipHexPrefix_cells base t
  obtain ⟨r, hread⟩ := readDigits_cells base 0 t' hzero
  unfold strtoul
  rw [hspaces]
  dsimp only [Except.bind]
  rw [ht, ht', hread]
  by_cases hdigit : (((cells t').head?).bind (digitValue base)).isSome = true
  · rw [if_pos hdigit]
    exact ⟨_, rfl⟩
  · rw [if_neg hdigit]
    exact ⟨_, rfl⟩

end Ctype
