import Mathlib

/-!
# Binary chop

The loop `while (low < high) { mid = low + (high - low) / 2; ... }` that halves an index range
until it meets the first index with a given property.  The loop is written with a bound on the
number of iterations; `high - low` of them are always enough.
-/

namespace BinaryChop

/-- Chop `[low, high)` to the first index at which `p` holds, in at most `fuel` iterations. -/
def chop (p : ℕ → Bool) : ℕ → ℕ → ℕ → ℕ
  | 0, low, _ => low
  | fuel + 1, low, high =>
    if low < high then
      let mid := low + (high - low) / 2
      if p mid then chop p fuel low mid else chop p fuel (mid + 1) high
    else low

/-- `p` never becomes false again once it has become true. -/
def Rises (p : ℕ → Bool) (low high : ℕ) : Prop :=
  ∀ i j, low ≤ i → i ≤ j → j < high → p i = true → p j = true

/-- The chop returns the first index of `[low, high)` at which a rising predicate holds, and
`high` when there is none. -/
theorem chop_spec {p : ℕ → Bool} {fuel low high : ℕ} (hle : low ≤ high)
    (hfuel : high - low ≤ fuel) (hp : Rises p low high) :
    low ≤ chop p fuel low high ∧ chop p fuel low high ≤ high ∧
      (∀ i, low ≤ i → i < chop p fuel low high → p i = false) ∧
      (chop p fuel low high < high → p (chop p fuel low high) = true) := by
  induction fuel generalizing low high with
  | zero =>
    obtain rfl : low = high := by omega
    refine ⟨le_rfl, le_rfl, fun i h₁ h₂ => ?_, fun h => absurd h (lt_irrefl _)⟩
    simp only [chop] at h₂
    omega
  | succ fuel ih =>
    rw [chop]
    by_cases hlt : low < high
    · rw [if_pos hlt]
      set mid := low + (high - low) / 2 with hmid
      have hmlow : low ≤ mid := by omega
      have hmhigh : mid < high := by omega
      by_cases hpm : p mid = true
      · -- the first index is at or before `mid`
        simp only [hpm, if_true]
        obtain ⟨h₁, h₂, h₃, h₄⟩ := @ih low mid hmlow (by omega)
          fun i j hi hij hj => hp i j hi hij (by omega)
        refine ⟨h₁, by omega, h₃, fun _ => ?_⟩
        rcases Nat.lt_or_ge (chop p fuel low mid) mid with h | h
        · exact h₄ h
        · rwa [show chop p fuel low mid = mid by omega]
      · -- every index up to `mid` is excluded
        simp only [hpm]
        obtain ⟨h₁, h₂, h₃, h₄⟩ := @ih (mid + 1) high (by omega) (by omega)
          fun i j hi hij hj => hp i j (by omega) hij hj
        refine ⟨by simp only [Bool.false_eq_true, if_false]; omega, h₂, fun i hi hlt' => ?_, h₄⟩
        rcases Nat.lt_or_ge mid i with him | him
        · exact h₃ i (by omega) hlt'
        · by_contra hcon
          exact hpm (hp i mid hi him hmhigh (by simpa using hcon))
    · rw [if_neg hlt]
      obtain rfl : low = high := by omega
      exact ⟨le_rfl, le_rfl, fun i h₁ h₂ => by omega, fun h => absurd h (lt_irrefl _)⟩

/-! ## Counting -/

/-- The loop `while (a < b) { i = a + (b + 1 - a) / 2; ... }` that counts the items before the first
at which `p` fails, in at most `fuel` iterations. -/
def chopCount (p : ℕ → Bool) : ℕ → ℕ → ℕ → ℕ
  | 0, a, _ => a
  | fuel + 1, a, b =>
    if a < b then
      let i := a + (b + 1 - a) / 2
      if p (i - 1) then chopCount p fuel i b else chopCount p fuel a (i - 1)
    else a

/-- `p` never becomes true again once it has become false. -/
def Falls (p : ℕ → Bool) (high : ℕ) : Prop := ∀ i j, i ≤ j → j < high → p j = true → p i = true

/-- The items before the count have the property, and the item at it has not. -/
theorem chopCount_spec {p : ℕ → Bool} {fuel a b high : ℕ} (hle : a ≤ b) (hb : b ≤ high)
    (hfuel : b - a ≤ fuel) (hp : Falls p high) (hbelow : ∀ i < a, p i = true)
    (habove : ∀ i, b ≤ i → i < high → p i = false) :
    chopCount p fuel a b ≤ high ∧ (∀ i < chopCount p fuel a b, p i = true) ∧
      ∀ i, chopCount p fuel a b ≤ i → i < high → p i = false := by
  induction fuel generalizing a b with
  | zero =>
    have heq : a = b := by omega
    subst heq
    exact ⟨hb, hbelow, habove⟩
  | succ fuel ih =>
    unfold chopCount
    by_cases hlt : a < b
    · rw [if_pos hlt]
      simp only
      set i := a + (b + 1 - a) / 2 with hi
      have hia : a < i := by omega
      have hib : i ≤ b := by omega
      cases hmid : p (i - 1) with
      | true =>
        rw [if_pos rfl]
        refine ih hib hb (by omega) ?_ habove
        intro j hj
        exact hp j (i - 1) (by omega) (by omega) hmid
      | false =>
        rw [if_neg Bool.false_ne_true]
        refine ih (by omega) (by omega) (by omega) hbelow ?_
        intro j hj hjhigh
        by_contra htrue
        rw [Bool.not_eq_false] at htrue
        rw [hp (i - 1) j hj hjhigh htrue] at hmid
        cases hmid
    · rw [if_neg hlt]
      have heq : a = b := by omega
      subst heq
      exact ⟨hb, hbelow, habove⟩

/-- The count of a predicate on the items of a list that falls along the list. -/
theorem chopCount_list {α : Type*} {xs : List α} {p : ℕ → Bool} {q : α → Prop}
    (hp : ∀ i (hi : i < xs.length), p i = true ↔ q xs[i])
    (hq : xs.Pairwise fun x y => q y → q x) :
    chopCount p xs.length 0 xs.length ≤ xs.length ∧
      (∀ x ∈ xs.take (chopCount p xs.length 0 xs.length), q x) ∧
      ∀ x ∈ xs.drop (chopCount p xs.length 0 xs.length), ¬ q x := by
  have hfalls : Falls p xs.length := by
    intro i j hij hj hpj
    rw [hp j hj] at hpj
    rw [hp i (hij.trans_lt hj)]
    rcases hij.eq_or_lt with rfl | hlt
    · exact hpj
    · exact List.pairwise_iff_getElem.mp hq i j (hij.trans_lt hj) hj hlt hpj
  obtain ⟨hle, hbelow, habove⟩ := chopCount_spec (Nat.zero_le xs.length) le_rfl (Nat.sub_le _ _)
    hfalls (fun i hi => absurd hi (Nat.not_lt_zero i)) (fun i hi hlt => absurd hlt (not_lt.mpr hi))
  refine ⟨hle, ?_, ?_⟩
  · intro x hx
    obtain ⟨i, hi, rfl⟩ := List.getElem_of_mem hx
    rw [List.length_take, lt_min_iff] at hi
    rw [List.getElem_take, ← hp i hi.2]
    exact hbelow i hi.1
  · intro x hx
    obtain ⟨i, hi, rfl⟩ := List.getElem_of_mem hx
    rw [List.length_drop] at hi
    rw [List.getElem_drop, ← hp _ (Nat.add_lt_of_lt_sub' hi),
      habove _ (Nat.le_add_right _ _) (Nat.add_lt_of_lt_sub' hi)]
    exact Bool.false_ne_true

end BinaryChop
