import Mathlib.Data.Int.Order.Basic
import Mathlib.Order.Basic
import Mathlib.Tactic.ByContra

/-!
# Comparisons

A comparison returns a number whose sign tells the order of its arguments, in the manner of `memcmp`.
-/

variable {R : Type*} {icmp : R → R → ℤ} {a b c : R}

/-- The comparison is that of a total preorder. -/
structure TotalPreorder (icmp : R → R → ℤ) : Prop where
  swap : ∀ a b, 0 < icmp a b ↔ icmp b a < 0
  trans : ∀ a b c, icmp a b ≤ 0 → icmp b c ≤ 0 → icmp a c ≤ 0

namespace TotalPreorder

theorem nonneg_iff (h : TotalPreorder icmp) : 0 ≤ icmp a b ↔ icmp b a ≤ 0 := by
  rw [← not_lt, ← not_lt, ← h.swap]

theorem zero_comm (h : TotalPreorder icmp) : icmp a b = 0 ↔ icmp b a = 0 := by
  rw [le_antisymm_iff, le_antisymm_iff, h.nonneg_iff, h.nonneg_iff, and_comm]

theorem self (h : TotalPreorder icmp) (a : R) : icmp a a = 0 := by
  rcases lt_trichotomy (icmp a a) 0 with hlt | heq | hgt
  · exact absurd ((h.swap a a).mpr hlt) hlt.not_gt
  · exact heq
  · exact absurd ((h.swap a a).mp hgt) hgt.not_gt

theorem lt_of_le_of_lt (h : TotalPreorder icmp) (hab : icmp a b ≤ 0) (hbc : icmp b c < 0) :
    icmp a c < 0 := by
  by_contra hac
  have hca := h.nonneg_iff.mp (not_lt.mp hac)
  exact absurd ((h.swap c b).mpr hbc) (not_lt.mpr (h.trans c a b hca hab))

theorem lt_of_lt_of_le (h : TotalPreorder icmp) (hab : icmp a b < 0) (hbc : icmp b c ≤ 0) :
    icmp a c < 0 := by
  by_contra hac
  have hca := h.nonneg_iff.mp (not_lt.mp hac)
  exact absurd ((h.swap b a).mpr hab) (not_lt.mpr (h.trans b c a hbc hca))

/-- Equal items are in the same place to any third one. -/
theorem zero_trans (h : TotalPreorder icmp) (hab : icmp a b = 0) (hbc : icmp b c = 0) : icmp a c = 0 :=
  le_antisymm (h.trans a b c hab.le hbc.le)
    (h.nonneg_iff.mpr (h.trans c b a (h.zero_comm.mp hbc).le (h.zero_comm.mp hab).le))

end TotalPreorder
