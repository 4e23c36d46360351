import Mathlib

/-!
# Byte strings

The comparison of two blocks of memory, and the places between byte strings in lexicographic
order.  A prefix `p` has a place before every string that starts with `p` and a place after all of
them; these places are ordered as lists of numbers, with a terminator below or above every byte.
-/

namespace Bytes

/-- `memcmp` of the first `n` bytes. -/
def memcmp : ℕ → List UInt8 → List UInt8 → ℤ
  | n + 1, a :: as, b :: bs => if a = b then memcmp n as bs else (a.toNat : ℤ) - b.toNat
  | _, _, _ => 0

variable {n : ℕ} {a b : List UInt8}

@[simp] lemma memcmp_zero (a b : List UInt8) : memcmp 0 a b = 0 := by
  simp [memcmp]

lemma memcmp_swap (n : ℕ) (a b : List UInt8) : memcmp n b a = - memcmp n a b := by
  induction n generalizing a b with
  | zero => simp
  | succ n ih =>
    rcases a with _ | ⟨x, as⟩ <;> rcases b with _ | ⟨y, bs⟩ <;> simp only [memcmp, neg_zero]
    by_cases h : x = y
    · rw [if_pos h, if_pos h.symm]
      exact ih as bs
    · simp [h, Ne.symm h]

/-- Only the bytes that are compared matter. -/
lemma memcmp_take {m k : ℕ} (hm : n ≤ m) (hk : n ≤ k) (a b : List UInt8) :
    memcmp n (a.take m) (b.take k) = memcmp n a b := by
  induction n generalizing a b m k with
  | zero => simp
  | succ n ih =>
    obtain ⟨m, rfl⟩ : ∃ i, m = i + 1 := ⟨m - 1, by omega⟩
    obtain ⟨k, rfl⟩ : ∃ i, k = i + 1 := ⟨k - 1, by omega⟩
    rcases a with _ | ⟨x, as⟩ <;> rcases b with _ | ⟨y, bs⟩ <;> simp only [List.take_nil,
      List.take_succ_cons, memcmp]
    rw [ih (by omega) (by omega)]

lemma memcmp_eq_zero_iff (ha : n ≤ a.length) (hb : n ≤ b.length) :
    memcmp n a b = 0 ↔ a.take n = b.take n := by
  induction n generalizing a b with
  | zero => simp
  | succ n ih =>
    rcases a with _ | ⟨x, as⟩ <;> rcases b with _ | ⟨y, bs⟩
    · simp at ha
    · simp at ha
    · simp at hb
    · simp only [memcmp, List.take_succ_cons, List.cons.injEq]
      simp only [List.length_cons, Nat.add_le_add_iff_right] at ha hb
      by_cases h : x = y
      · simp [h, ih ha hb]
      · have : (x.toNat : ℤ) ≠ y.toNat := by
          simpa [UInt8.toNat_inj] using h
        simp [h, sub_eq_zero, this]

/-! ## Places -/

/-- The code of a byte in a place: the codes 0 and 257 are left for the terminators. -/
def code (b : UInt8) : ℕ := b.toNat + 1

lemma code_pos (b : UInt8) : 0 < code b := Nat.succ_pos _

lemma code_lt (b : UInt8) : code b < 257 := Nat.succ_lt_succ b.toNat_lt

/-- The place of a prefix `p` with the terminator `s`. -/
def place (p : List UInt8) (s : ℕ) : List ℕ := p.map code ++ [s]

/-- Strings that differ in their first `n` bytes have their places in the same order. -/
lemma place_lt_place (h : memcmp n a b < 0) (s t : ℕ) : place a s < place b t := by
  induction n generalizing a b with
  | zero => simp at h
  | succ n ih =>
    rcases a with _ | ⟨x, as⟩ <;> rcases b with _ | ⟨y, bs⟩ <;> simp only [memcmp, lt_irrefl] at h
    simp only [place, List.map_cons, List.cons_append]
    by_cases hxy : x = y
    · rw [if_pos hxy] at h
      rw [hxy, List.cons_lt_cons_self]
      exact ih h
    · rw [if_neg hxy] at h
      refine List.cons_lt_cons_iff.2 (Or.inl ?_)
      simp only [code]
      omega

/-- The place before a prefix is before every longer string that starts with it. -/
lemma place_zero_lt {p q : List UInt8} (hp : p <+: q) (hlen : p.length < q.length) (s : ℕ) :
    place p 0 < place q s := by
  obtain ⟨t, rfl⟩ := hp
  cases t with
  | nil => simp at hlen
  | cons x t =>
    rw [place, place, List.map_append, List.append_assoc]
    refine List.append_left_lt ?_
    exact List.cons_lt_cons_iff.2 (Or.inl (code_pos x))

/-- The place after a prefix is after every longer string that starts with it. -/
lemma lt_place_top {p q : List UInt8} (hp : p <+: q) (hlen : p.length < q.length) (s : ℕ) :
    place q s < place p 257 := by
  obtain ⟨t, rfl⟩ := hp
  cases t with
  | nil => simp at hlen
  | cons x t =>
    rw [place, place, List.map_append, List.append_assoc]
    refine List.append_left_lt ?_
    exact List.cons_lt_cons_iff.2 (Or.inl (code_lt x))

lemma place_zero_lt_top (p : List UInt8) : place p 0 < place p 257 := by
  refine List.append_left_lt ?_
  exact List.cons_lt_cons_iff.2 (Or.inl (by norm_num))

lemma place_injective {p q : List UInt8} {s : ℕ} (h : place p s = place q s) : p = q := by
  have hcode : Function.Injective code := fun x y hxy => by
    simpa [code, UInt8.toNat_inj] using hxy
  exact List.map_injective_iff.2 hcode (List.append_cancel_right h)

end Bytes
