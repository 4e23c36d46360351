import Mathlib.Tactic

/-!
# Sums over parties of which one changes

What all parties hold together, when the state of one of them is replaced.
-/

namespace UpdateSum

theorem sum_update_add {α γ : Type*} [DecidableEq α] {S : Finset α} {a : α} (ha : a ∈ S)
    (f : α → γ) (w : γ → ℕ) (x : γ) :
    ∑ b ∈ S, w (Function.update f a x b) + w (f a) = ∑ b ∈ S, w (f b) + w x := by
  rw [← Finset.add_sum_erase S (fun b => w (Function.update f a x b)) ha,
    ← Finset.add_sum_erase S (fun b => w (f b)) ha, Function.update_self]
  have hrest : ∑ b ∈ S.erase a, w (Function.update f a x b) = ∑ b ∈ S.erase a, w (f b) := by
    refine Finset.sum_congr rfl fun b hb => ?_
    rw [Function.update_of_ne (Finset.ne_of_mem_erase hb)]
  rw [hrest]
  ac_rfl

/-- What the others hold together does not change. -/
theorem exists_rest {α γ : Type*} [DecidableEq α] {S : Finset α} {a : α} (ha : a ∈ S)
    (f : α → γ) (w : γ → ℕ) : ∃ rest, ∑ b ∈ S, w (f b) = w (f a) + rest ∧
      ∀ x, ∑ b ∈ S, w (Function.update f a x b) = w x + rest := by
  refine ⟨∑ b ∈ S.erase a, w (f b), (Finset.add_sum_erase S (fun b => w (f b)) ha).symm,
    fun x => ?_⟩
  have hsum := sum_update_add ha f w x
  rw [← Finset.add_sum_erase S (fun b => w (f b)) ha] at hsum
  omega

end UpdateSum
