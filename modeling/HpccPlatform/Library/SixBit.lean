import Mathlib.Tactic.Ring

/-!
# Six bits in eight

Four digits of six bits are three bytes.  Both are taken as sequences without an end, zero from some
place on, so that each is got from the other at every place, and the digits are in lexicographic
order as the bytes are.
-/

namespace SixBit

variable {b b' c : ℕ → ℕ} {base n m i k g : ℕ}

/-- The digit `i` of a sequence of bytes. -/
def charAt (b : ℕ → ℕ) (i : ℕ) : ℕ :=
  let o := 3 * i / 4
  match i % 4 with
  | 0 => b o / 4
  | 1 => b o % 4 * 16 + b (o + 1) / 16
  | 2 => b o % 16 * 4 + b (o + 1) / 64
  | _ => b o % 64

/-- The byte `k` of a sequence of digits. -/
def byteAt (c : ℕ → ℕ) (k : ℕ) : ℕ :=
  let o := 4 * k / 3
  match k % 3 with
  | 0 => c o * 4 % 256 + c (o + 1) / 16
  | 1 => c o * 16 % 256 + c (o + 1) / 4
  | _ => c o * 64 % 256 + c (o + 1)

/-- The bytes that `n` digits take. -/
def size (n : ℕ) : ℕ := (n + 1) * 3 / 4

section Groups

variable (b c : ℕ → ℕ) (g : ℕ)

theorem charAt_zero : charAt b (4 * g) = b (3 * g) / 4 := by
  have ho : 3 * (4 * g) / 4 = 3 * g := by omega
  rw [charAt, ho, Nat.mul_mod_right]
  rfl

theorem charAt_one : charAt b (4 * g + 1) = b (3 * g) % 4 * 16 + b (3 * g + 1) / 16 := by
  have ho : 3 * (4 * g + 1) / 4 = 3 * g := by omega
  rw [charAt, ho, Nat.mul_add_mod]
  rfl

theorem charAt_two : charAt b (4 * g + 2) = b (3 * g + 1) % 16 * 4 + b (3 * g + 2) / 64 := by
  have ho : 3 * (4 * g + 2) / 4 = 3 * g + 1 := by omega
  rw [charAt, ho, Nat.mul_add_mod]
  rfl

theorem charAt_three : charAt b (4 * g + 3) = b (3 * g + 2) % 64 := by
  have ho : 3 * (4 * g + 3) / 4 = 3 * g + 2 := by omega
  rw [charAt, ho, Nat.mul_add_mod]
  rfl

theorem byteAt_zero : byteAt c (3 * g) = c (4 * g) * 4 % 256 + c (4 * g + 1) / 16 := by
  have ho : 4 * (3 * g) / 3 = 4 * g := by omega
  rw [byteAt, ho, Nat.mul_mod_right]
  rfl

theorem byteAt_one : byteAt c (3 * g + 1) = c (4 * g + 1) * 16 % 256 + c (4 * g + 2) / 4 := by
  have ho : 4 * (3 * g + 1) / 3 = 4 * g + 1 := by omega
  rw [byteAt, ho, Nat.mul_add_mod]
  rfl

theorem byteAt_two : byteAt c (3 * g + 2) = c (4 * g + 2) * 64 % 256 + c (4 * g + 3) := by
  have ho : 4 * (3 * g + 2) / 3 = 4 * g + 2 := by omega
  rw [byteAt, ho, Nat.mul_add_mod]
  rfl

end Groups

/-- A digit is one of a group of four. -/
theorem exists_group_of_four (i : ℕ) :
    ∃ g, i = 4 * g ∨ i = 4 * g + 1 ∨ i = 4 * g + 2 ∨ i = 4 * g + 3 :=
  ⟨i / 4, by omega⟩

/-- A byte is one of a group of three. -/
theorem exists_group_of_three (k : ℕ) : ∃ g, k = 3 * g ∨ k = 3 * g + 1 ∨ k = 3 * g + 2 :=
  ⟨k / 3, by omega⟩

theorem charAt_lt (hb : ∀ k, b k < 256) (i : ℕ) : charAt b i < 64 := by
  obtain ⟨g, rfl | rfl | rfl | rfl⟩ := exists_group_of_four i
  · have h := hb (3 * g)
    rw [charAt_zero]
    omega
  · have h := hb (3 * g + 1)
    rw [charAt_one]
    omega
  · have h := hb (3 * g + 2)
    rw [charAt_two]
    omega
  · rw [charAt_three]
    exact Nat.mod_lt _ (by decide)

theorem charAt_byteAt (hc : ∀ i, c i < 64) (i : ℕ) : charAt (byteAt c) i = c i := by
  obtain ⟨g, rfl | rfl | rfl | rfl⟩ := exists_group_of_four i
  · have h := hc (4 * g)
    have h' := hc (4 * g + 1)
    rw [charAt_zero, byteAt_zero]
    omega
  · have h := hc (4 * g + 1)
    have h' := hc (4 * g + 2)
    rw [charAt_one, byteAt_zero, byteAt_one]
    omega
  · have h := hc (4 * g + 2)
    have h' := hc (4 * g + 3)
    rw [charAt_two, byteAt_one, byteAt_two]
    omega
  · have h := hc (4 * g + 3)
    rw [charAt_three, byteAt_two]
    omega

theorem byteAt_charAt (hb : ∀ k, b k < 256) (k : ℕ) : byteAt (charAt b) k = b k := by
  obtain ⟨g, rfl | rfl | rfl⟩ := exists_group_of_three k
  · have h := hb (3 * g)
    have h' := hb (3 * g + 1)
    rw [byteAt_zero, charAt_zero, charAt_one]
    omega
  · have h := hb (3 * g + 1)
    have h' := hb (3 * g + 2)
    rw [byteAt_one, charAt_one, charAt_two]
    omega
  · have h := hb (3 * g + 2)
    rw [byteAt_two, charAt_two, charAt_three]
    omega

/-- A digit depends on the bytes that the digits up to it take. -/
theorem charAt_congr (h : ∀ k < size (i + 1), b k = b' k) : charAt b i = charAt b' i := by
  obtain ⟨g, rfl | rfl | rfl | rfl⟩ := exists_group_of_four i
  · have h0 := h (3 * g) (by unfold size; omega)
    rw [charAt_zero, charAt_zero, h0]
  · have h0 := h (3 * g) (by unfold size; omega)
    have h1 := h (3 * g + 1) (by unfold size; omega)
    rw [charAt_one, charAt_one, h0, h1]
  · have h1 := h (3 * g + 1) (by unfold size; omega)
    have h2 := h (3 * g + 2) (by unfold size; omega)
    rw [charAt_two, charAt_two, h1, h2]
  · have h2 := h (3 * g + 2) (by unfold size; omega)
    rw [charAt_three, charAt_three, h2]

/-- Behind the digits that are not zero there are only zero bytes. -/
theorem byteAt_eq_zero (hc : ∀ i, n ≤ i → c i = 0) (hk : size n ≤ k) : byteAt c k = 0 := by
  unfold size at hk
  obtain ⟨g, rfl | rfl | rfl⟩ := exists_group_of_three k
  · rw [byteAt_zero, hc (4 * g) (by omega), hc (4 * g + 1) (by omega)]
  · rw [byteAt_one, hc (4 * g + 1) (by omega), hc (4 * g + 2) (by omega)]
  · rw [byteAt_two, hc (4 * g + 2) (by omega), hc (4 * g + 3) (by omega)]

/-! ### Lexicographic order -/

/-- The first place where two sequences differ has the smaller entry of `b`. -/
def Precedes (b b' : ℕ → ℕ) : Prop := ∃ k, (∀ j < k, b j = b' j) ∧ b k < b' k

/-- The number of the first `n` digits. -/
def number (base : ℕ) (b : ℕ → ℕ) : ℕ → ℕ
  | 0 => 0
  | n + 1 => number base b n * base + b n

theorem number_lt_number_add (hb : ∀ k, b k < base) (h : number base b n < number base b' n)
    (m : ℕ) : number base b (n + m) < number base b' (n + m) := by
  induction m with
  | zero => exact h
  | succ m ih =>
    have hmul := Nat.mul_le_mul_right base (Nat.succ_le_of_lt ih)
    have hk := hb (n + m)
    rw [Nat.succ_mul] at hmul
    rw [← Nat.add_assoc, number, number]
    omega

theorem number_congr (h : ∀ j < n, b j = b' j) : number base b n = number base b' n := by
  induction n with
  | zero => rfl
  | succ n ih =>
    rw [number, number, ih fun j hj => h j (hj.trans (Nat.lt_succ_self n)), h n (Nat.lt_succ_self n)]

/-- Two sequences agree up to `n`, or one of them precedes the other below `n`. -/
theorem agree_or_precedes (b b' : ℕ → ℕ) (n : ℕ) :
    (∀ j < n, b j = b' j) ∨ (∃ k < n, (∀ j < k, b j = b' j) ∧ b k < b' k) ∨
      ∃ k < n, (∀ j < k, b' j = b j) ∧ b' k < b k := by
  induction n with
  | zero => exact Or.inl fun j hj => absurd hj (Nat.not_lt_zero j)
  | succ n ih =>
    rcases ih with heq | ⟨k, hk, h⟩ | ⟨k, hk, h⟩
    · rcases lt_trichotomy (b n) (b' n) with hlt | hn | hgt
      · exact Or.inr (Or.inl ⟨n, Nat.lt_succ_self n, heq, hlt⟩)
      · refine Or.inl fun j hj => ?_
        rcases Nat.lt_succ_iff_lt_or_eq.1 hj with hlt | rfl
        · exact heq j hlt
        · exact hn
      · exact Or.inr (Or.inr ⟨n, Nat.lt_succ_self n, fun j hj => (heq j hj).symm, hgt⟩)
    · exact Or.inr (Or.inl ⟨k, hk.trans (Nat.lt_succ_self n), h⟩)
    · exact Or.inr (Or.inr ⟨k, hk.trans (Nat.lt_succ_self n), h⟩)

theorem number_lt_of_first (heq : ∀ j < k, b j = b' j) (hlt : b k < b' k) :
    number base b (k + 1) < number base b' (k + 1) := by
  rw [number, number, number_congr heq]
  exact Nat.add_lt_add_left hlt _

/-- The order of sequences is that of the numbers of their beginnings. -/
theorem precedes_iff_number_lt (hb' : ∀ k, b' k < base) :
    Precedes b b' ↔ ∃ n, number base b n < number base b' n := by
  constructor
  · rintro ⟨k, heq, hlt⟩
    exact ⟨k + 1, number_lt_of_first heq hlt⟩
  · rintro ⟨n, hn⟩
    rcases agree_or_precedes b b' n with heq | ⟨k, -, h⟩ | ⟨k, hk, heq, hlt⟩
    · exact absurd hn (by rw [number_congr heq]; exact Nat.lt_irrefl _)
    · exact ⟨k, h⟩
    · obtain ⟨m, rfl⟩ := Nat.exists_eq_add_of_lt hk
      have hgt : number base b' (k + 1 + m) < number base b (k + 1 + m) :=
        number_lt_number_add hb' (number_lt_of_first heq hlt) m
      rw [Nat.add_right_comm] at hgt
      exact absurd hn (Nat.lt_asymm hgt)

theorem precedes_iff_number_mul_lt (hb : ∀ k, b k < base) (hb' : ∀ k, b' k < base) (hm : 0 < m) :
    Precedes b b' ↔ ∃ g, number base b (m * g) < number base b' (m * g) := by
  rw [precedes_iff_number_lt hb']
  constructor
  · rintro ⟨n, hn⟩
    obtain ⟨d, hd⟩ := Nat.exists_eq_add_of_le (Nat.le_mul_of_pos_left n hm)
    exact ⟨n, hd ▸ number_lt_number_add hb hn d⟩
  · rintro ⟨g, hg⟩
    exact ⟨m * g, hg⟩

theorem number_charAt (hb : ∀ k, b k < 256) (g : ℕ) :
    number 64 (charAt b) (4 * g) = number 256 b (3 * g) := by
  induction g with
  | zero => rfl
  | succ g ih =>
    have h0 := hb (3 * g)
    have h1 := hb (3 * g + 1)
    have h2 := hb (3 * g + 2)
    rw [show 4 * (g + 1) = 4 * g + 1 + 1 + 1 + 1 by ring, show 3 * (g + 1) = 3 * g + 1 + 1 + 1 by ring]
    simp only [number]
    rw [ih, charAt_zero, charAt_one, charAt_two, charAt_three]
    omega

/-- The digits are ordered as the bytes are. -/
theorem precedes_charAt_iff (hb : ∀ k, b k < 256) (hb' : ∀ k, b' k < 256) :
    Precedes (charAt b) (charAt b') ↔ Precedes b b' := by
  rw [precedes_iff_number_mul_lt (charAt_lt hb) (charAt_lt hb') (show 0 < 4 by decide),
    precedes_iff_number_mul_lt hb hb' (show 0 < 3 by decide)]
  simp only [number_charAt hb, number_charAt hb']

theorem Precedes.asymm (h : Precedes b b') : ¬ Precedes b' b := by
  obtain ⟨k, heq, hlt⟩ := h
  rintro ⟨k', heq', hlt'⟩
  rcases lt_trichotomy k k' with h | rfl | h
  · exact absurd (heq' k h) hlt.ne'
  · exact Nat.lt_asymm hlt hlt'
  · exact absurd (heq k' h) hlt'.ne'

/-- The sign of a comparison is the order of the sequences. -/
structure Signs (z : ℤ) (b b' : ℕ → ℕ) : Prop where
  neg : z < 0 ↔ Precedes b b'
  pos : 0 < z ↔ Precedes b' b

theorem signs_of {z : ℤ} (hneg : z < 0 → Precedes b b') (hpos : 0 < z → Precedes b' b)
    (hzero : z = 0 → b = b') : Signs z b b' := by
  have hirrefl : ∀ c : ℕ → ℕ, ¬ Precedes c c := fun c h => h.asymm h
  rcases lt_trichotomy z 0 with h | rfl | h
  · exact ⟨iff_of_true h (hneg h), iff_of_false (lt_asymm h) (hneg h).asymm⟩
  · rw [hzero rfl]
    exact ⟨iff_of_false (lt_irrefl 0) (hirrefl b'), iff_of_false (lt_irrefl 0) (hirrefl b')⟩
  · exact ⟨iff_of_false (lt_asymm h) (hpos h).asymm, iff_of_true h (hpos h)⟩

/-- Two comparisons of the same sequences agree. -/
theorem Signs.sign_eq {z z' : ℤ} (h : Signs z b b') (h' : Signs z' b b') : z.sign = z'.sign := by
  have hneg := h.neg.trans h'.neg.symm
  have hpos := h.pos.trans h'.pos.symm
  rcases lt_trichotomy z 0 with hz | rfl | hz
  · rw [Int.sign_eq_neg_one_of_neg hz, Int.sign_eq_neg_one_of_neg (hneg.1 hz)]
  · have hz' : z' = 0 := by omega
    rw [hz']
  · rw [Int.sign_eq_one_of_pos hz, Int.sign_eq_one_of_pos (hpos.1 hz)]

end SixBit
