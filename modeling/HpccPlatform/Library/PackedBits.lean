import Mathlib.Data.List.GetD
import Mathlib.Tactic

/-!
# Bits packed in words

A list of words is read as an infinite sequence of bits, the lowest bit of a word first, which ends
in zeros.
-/

namespace PackedBits

variable {w : ℕ} {xs ys : List (BitVec w)} {m : BitVec w} {i n p : ℕ}

/-- The bit at a place of the sequence. -/
def bitAt (xs : List (BitVec w)) (p : ℕ) : Bool := (xs.getD (p / w) 0#w).getLsbD (p % w)

@[simp] theorem bitAt_nil (p : ℕ) : bitAt ([] : List (BitVec w)) p = false :=
  BitVec.getLsbD_zero

theorem bitAt_of_le (h : w * xs.length ≤ p) (hw : 0 < w) : bitAt xs p = false := by
  have hlen : xs.length ≤ p / w := (Nat.le_div_iff_mul_le hw).2 (by rwa [Nat.mul_comm])
  rw [bitAt, List.getD_eq_default _ _ hlen, BitVec.getLsbD_zero]

theorem bitAt_append (hw : 0 < w) (xs ys : List (BitVec w)) (p : ℕ) :
    bitAt (xs ++ ys) p =
      if p < w * xs.length then bitAt xs p else bitAt ys (p - w * xs.length) := by
  rw [bitAt]
  split_ifs with h
  · rw [List.getD_append _ _ _ _ (Nat.div_lt_of_lt_mul h), bitAt]
  · have hle : w * xs.length ≤ p := Nat.not_lt.1 h
    have hlen : xs.length ≤ p / w := (Nat.le_div_iff_mul_le hw).2 (by rwa [Nat.mul_comm])
    rw [List.getD_append_right _ _ _ _ hlen, bitAt, Nat.sub_mul_div, Nat.sub_mul_mod hle]

theorem bitAt_cons (hw : 0 < w) (m : BitVec w) (xs : List (BitVec w)) (p : ℕ) :
    bitAt (m :: xs) p = if p < w then m.getLsbD p else bitAt xs (p - w) := by
  have h := bitAt_append hw [m] xs p
  rw [List.length_singleton, Nat.mul_one] at h
  rw [← List.singleton_append, h]
  refine if_ctx_congr Iff.rfl (fun hp => ?_) fun _ => rfl
  rw [bitAt, Nat.div_eq_of_lt hp, Nat.mod_eq_of_lt hp, List.getD_cons_zero]

theorem bitAt_drop (hw : 0 < w) (xs : List (BitVec w)) (i p : ℕ) :
    bitAt (xs.drop i) p = bitAt xs (w * i + p) := by
  rw [bitAt, bitAt, List.getD_eq_getElem?_getD, List.getElem?_drop, ← List.getD_eq_getElem?_getD,
    Nat.mul_add_div hw, Nat.mul_add_mod]

theorem bitAt_take (hw : 0 < w) (xs : List (BitVec w)) (hi : i ≤ xs.length) (p : ℕ) :
    bitAt (xs.take i) p = if p < w * i then bitAt xs p else false := by
  have h := bitAt_append hw (xs.take i) (xs.drop i) p
  rw [List.take_append_drop, List.length_take_of_le hi] at h
  split_ifs with hp
  · rw [h, if_pos hp]
  · refine bitAt_of_le ?_ hw
    rw [List.length_take_of_le hi]
    exact Nat.not_lt.1 hp

theorem bitAt_replicate_zero (n p : ℕ) : bitAt (List.replicate n 0#w) p = false := by
  rw [bitAt, List.getD_eq_getElem?_getD, List.getElem?_replicate]
  split_ifs
  · rw [Option.getD_some, BitVec.getLsbD_zero]
  · rw [Option.getD_none, BitVec.getLsbD_zero]

theorem bitAt_replicate_allOnes (hw : 0 < w) (n p : ℕ) :
    bitAt (List.replicate n (BitVec.allOnes w)) p = decide (p < w * n) := by
  by_cases hp : p < w * n
  · have hlt : p / w < n := Nat.div_lt_of_lt_mul hp
    rw [bitAt, List.getD_eq_getElem _ _ (by rwa [List.length_replicate]), List.getElem_replicate,
      BitVec.getLsbD_allOnes, decide_eq_true (Nat.mod_lt p hw), decide_eq_true hp]
  · rw [bitAt_of_le (by rw [List.length_replicate]; exact Nat.not_lt.1 hp) hw, decide_eq_false hp]

theorem bitAt_set (hi : i < xs.length) (m : BitVec w) (p : ℕ) :
    bitAt (xs.set i m) p = if p / w = i then m.getLsbD (p % w) else bitAt xs p := by
  rw [bitAt, List.getD_eq_getElem?_getD, List.getElem?_set]
  by_cases h : i = p / w
  · rw [if_pos h, if_pos hi, if_pos h.symm, Option.getD_some]
  · rw [if_neg h, if_neg (Ne.symm h), bitAt, List.getD_eq_getElem?_getD]

theorem getLsbD_of_getElem? (h : xs[p / w]? = some m) : m.getLsbD (p % w) = bitAt xs p := by
  rw [bitAt, List.getD_eq_getElem?_getD, h, Option.getD_some]

end PackedBits
