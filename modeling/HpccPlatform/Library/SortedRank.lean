import HpccPlatform.Library.BinaryChop

/-!
# Ranks in a sorted list

The rank of a key in a list that is sorted by its keys: the number of items with a lesser key, which is
also where a binary chop ends.
-/

namespace SortedRank

open BinaryChop

variable {E K : Type*} [LinearOrder K] {k : E → K} {c : K} {xs ys : List E} {q : ℕ → Bool} {low fuel i : ℕ}

/-- The items are in the order of their keys. -/
def Sorted (k : E → K) (xs : List E) : Prop := xs.Pairwise fun x y => k x ≤ k y

/-- The number of items with a key less than `c`. -/
def rank (k : E → K) (c : K) (xs : List E) : ℕ := xs.countP fun x => decide (k x < c)

theorem rank_append : rank k c (xs ++ ys) = rank k c xs + rank k c ys := List.countP_append

theorem rank_le_length : rank k c xs ≤ xs.length := List.countP_le_length

theorem rank_eq_length (h : ∀ x ∈ xs, k x < c) : rank k c xs = xs.length :=
  List.countP_eq_length.mpr fun x hx => decide_eq_true (h x hx)

theorem rank_eq_zero (h : ∀ x ∈ xs, c ≤ k x) : rank k c xs = 0 :=
  List.countP_eq_zero.mpr fun x hx => by simpa using h x hx

theorem lt_rank_iff (h : Sorted k xs) (hi : i < xs.length) : i < rank k c xs ↔ k xs[i] < c := by
  induction xs generalizing i with
  | nil => exact absurd hi (Nat.not_lt_zero i)
  | cons x xs ih =>
    obtain ⟨hx, hxs⟩ := List.pairwise_cons.mp h
    by_cases hlt : k x < c
    · have hcons : rank k c (x :: xs) = rank k c xs + 1 :=
        List.countP_cons_of_pos (p := fun x => decide (k x < c)) (decide_eq_true hlt)
      rw [hcons]
      cases i with
      | zero => exact iff_of_true (Nat.succ_pos _) hlt
      | succ i =>
        rw [Nat.succ_lt_succ_iff, List.getElem_cons_succ]
        exact ih hxs (Nat.lt_of_succ_lt_succ hi)
    · have hge : ∀ y ∈ x :: xs, c ≤ k y := List.forall_mem_cons.mpr
        ⟨not_lt.mp hlt, fun y hy => (not_lt.mp hlt).trans (hx y hy)⟩
      rw [rank_eq_zero hge]
      exact iff_of_false (Nat.not_lt_zero i) (not_lt.mpr (hge _ (List.getElem_mem hi)))

theorem rank_le_iff (h : Sorted k xs) (hi : i < xs.length) : rank k c xs ≤ i ↔ c ≤ k xs[i] := by
  rw [← not_lt, lt_rank_iff h hi, not_lt]

/-- The chop to the first key that is not less than `c`. -/
theorem chop_eq_rank (h : Sorted k xs) (hq : ∀ i (hi : i < xs.length), q i = decide (c ≤ k xs[i]))
    (hlow : low ≤ rank k c xs) (hfuel : xs.length - low ≤ fuel) :
    chop q fuel low xs.length = rank k c xs := by
  have hiff : ∀ i (hi : i < xs.length), q i = true ↔ rank k c xs ≤ i := fun i hi => by
    rw [hq i hi, decide_eq_true_iff, rank_le_iff h hi]
  obtain ⟨-, hle, hbelow, hat⟩ := chop_spec (hlow.trans rank_le_length) hfuel fun i j _ hij hj hi =>
    (hiff j hj).mpr (((hiff i (hij.trans_lt hj)).mp hi).trans hij)
  refine le_antisymm (not_lt.mp fun hlt => ?_) (not_lt.mp fun hlt => ?_)
  · have htrue := (hiff _ (hlt.trans_le hle)).mpr le_rfl
    rw [hbelow _ hlow hlt] at htrue
    cases htrue
  · have hlength := hlt.trans_le rank_le_length
    exact not_lt.mpr ((hiff _ hlength).mp (hat hlength)) hlt

end SortedRank
