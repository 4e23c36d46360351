import Mathlib.Algebra.Order.Field.Rat
import Mathlib.Data.List.TakeWhile
import Mathlib.Tactic.Ring

/-!
# Numbers as decimal text

The number that a text stands for: an optional minus sign, digits, and optionally a point with more
digits.
-/

namespace DecimalText

def digitChar (n : ℕ) : Char := Char.ofNat (48 + n)

def digit (c : Char) : ℕ := c.toNat - 48

/-- The digits of a text as a whole number. -/
def whole : List Char → ℕ
  | [] => 0
  | c :: text => digit c * 10 ^ text.length + whole text

/-- The number without its sign. -/
def unsignedValue (text : List Char) : ℚ :=
  let integer := text.takeWhile (· != '.')
  let fraction := (text.dropWhile (· != '.')).drop 1
  whole (integer ++ fraction) / 10 ^ fraction.length

def value : List Char → ℚ
  | '-' :: text => -unsignedValue text
  | text => unsignedValue text

theorem digitChar_spec {n : ℕ} (hn : n ≤ 9) :
    digit (digitChar n) = n ∧ digitChar n ≠ '.' ∧ digitChar n ≠ '-' := by
  have hall : ∀ n < 10, digit (digitChar n) = n ∧ digitChar n ≠ '.' ∧ digitChar n ≠ '-' := by
    decide
  exact hall n (Nat.lt_succ_of_le hn)

theorem whole_append (text rest : List Char) :
    whole (text ++ rest) = whole text * 10 ^ rest.length + whole rest := by
  induction text with
  | nil => rw [List.nil_append, whole, Nat.zero_mul, Nat.zero_add]
  | cons c text ih =>
    rw [List.cons_append, whole, whole, ih, List.length_append]
    ring

theorem whole_replicate_zero (n : ℕ) : whole (List.replicate n '0') = 0 := by
  induction n with
  | zero => rfl
  | succ n ih =>
    rw [List.replicate_succ, whole, ih]
    exact Nat.zero_mul _

theorem unsignedValue_of_digits {text : List Char} (h : ∀ c ∈ text, c ≠ '.') :
    unsignedValue text = whole text := by
  have hall : ∀ c ∈ text, (c != '.') = true := fun c hc => bne_iff_ne.2 (h c hc)
  unfold unsignedValue
  rw [List.takeWhile_eq_self_iff.2 hall, List.dropWhile_eq_nil_iff.2 hall]
  simp

theorem unsignedValue_point {text : List Char} (h : ∀ c ∈ text, c ≠ '.') (fraction : List Char) :
    unsignedValue (text ++ '.' :: fraction) =
      whole (text ++ fraction) / 10 ^ fraction.length := by
  have hall : ∀ c ∈ text, (c != '.') = true := fun c hc => bne_iff_ne.2 (h c hc)
  unfold unsignedValue
  rw [List.takeWhile_append_of_pos hall, List.dropWhile_append_of_pos hall]
  simp

theorem value_minus (text : List Char) : value ('-' :: text) = -unsignedValue text := rfl

theorem value_of_head {c : Char} (hc : c ≠ '-') (text : List Char) :
    value (c :: text) = unsignedValue (c :: text) := by
  unfold value
  split
  · rename_i heq
    exact absurd (List.cons.inj heq).1 hc
  · rfl

end DecimalText
