import HpccPlatform.StringSet.Canonical
import HpccPlatform.StringSet.Lookup

/-!
# Counting the members of a set

The ranges of a canonical set are taken one by one, each with its two transitions; the number of the
members is the sum of the lengths of the ranges.
-/

namespace HpccPlatform

namespace StringSet

open RangeEnds

variable {V : Type*} {kind : ValueKind V} {rank : V → ℕ} {M : ℕ} {ts : List (Transition V)}
  {t u : Transition V} {x : ℕ}

/-- A first range, and the other ranges behind it. -/
structure FirstRange (rank : V → ℕ) (t u : Transition V) (ts : List (Transition V)) : Prop where
  begins : t.state = true
  closes : u.state = false
  le : rank t.val ≤ rank u.val
  gap : ∀ w ∈ ts, rank u.val + 1 < rank w.val
  rest : Canonical rank ts

theorem Canonical.firstRange (h : Canonical rank (t :: u :: ts)) : FirstRange rank t u ts := by
  obtain ⟨ht, hu, halt⟩ := h.alternates
  rw [ht, Bool.not_false, Bool.not_true] at hu
  obtain ⟨hfirst, hsecond⟩ := List.pairwise_cons.mp h.increasing
  obtain ⟨hbehind, hinc⟩ := List.pairwise_cons.mp hsecond
  rw [hu] at halt
  refine ⟨ht, hu, rank_le_of_cut_lt (hfirst u List.mem_cons_self), ?_, halt, h.closed, hinc⟩
  intro w hw
  cases ts with
  | nil => cases hw
  | cons v ts =>
    have hv := hbehind v List.mem_cons_self
    rw [cut_of_not_state hu, cut_of_state (t := v) halt.1] at hv
    rcases List.mem_cons.mp hw with rfl | hw
    · exact hv
    · exact hv.trans_le (rank_le_of_cut_lt ((List.pairwise_cons.mp hinc).1 w hw))

/-- Induction over the ranges of a canonical set. -/
theorem Canonical.induct {motive : List (Transition V) → Prop} (nil : motive [])
    (range : ∀ t u ts, FirstRange rank t u ts → motive ts → motive (t :: u :: ts)) :
    ∀ {ts}, Canonical rank ts → motive ts
  | [], _ => nil
  | [_], h => absurd h.closed (by rw [ends, List.map_singleton]; exact Bool.true_eq_false_eq_False)
  | t :: u :: ts, h => range t u ts h.firstRange (Canonical.induct nil range h.firstRange.rest)

/-- The members are those of the first range and those of the others. -/
theorem FirstRange.covers_iff (h : FirstRange rank t u ts) :
    Covers false (ends rank (t :: u :: ts)) x ↔
      (rank t.val ≤ x ∧ x ≤ rank u.val) ∨ Covers false (ends rank ts) x := by
  show (rank t.val ≤ x ∧ (x ≤ rank u.val ∨ Covers false (ends rank ts) x)) ↔ _
  rw [and_or_left]
  refine or_congr_right (and_iff_right_of_imp fun hcovers => ?_)
  by_contra hlt
  refine not_covers_false ?_ hcovers
  intro y hy
  obtain ⟨w, hw, rfl⟩ := mem_ends.mp hy
  have hgap := h.gap w hw
  have hle := h.le
  omega

theorem FirstRange.not_covers (h : FirstRange rank t u ts) (hx : x ≤ rank u.val + 1) :
    ¬ Covers false (ends rank ts) x := by
  refine not_covers_false ?_
  intro y hy
  obtain ⟨w, hw, rfl⟩ := mem_ends.mp hy
  exact hx.trans_lt (h.gap w hw)

/-- The sum of the lengths of the ranges. -/
def totalSize (rank : V → ℕ) : List (Transition V) → ℕ
  | t :: u :: ts => rank u.val + 1 - rank t.val + totalSize rank ts
  | _ => 0

theorem finite_covers (h : Canonical rank ts) :
    {x | Covers false (ends rank ts) x}.Finite ∧
      {x | Covers false (ends rank ts) x}.ncard = totalSize rank ts := by
  refine Canonical.induct (motive := fun ts => {x | Covers false (ends rank ts) x}.Finite ∧
      {x | Covers false (ends rank ts) x}.ncard = totalSize rank ts) ?nil ?range h
  case nil =>
    have hempty : {x | Covers false (ends rank ([] : List (Transition V))) x} = ∅ :=
      Set.eq_empty_iff_forall_notMem.mpr fun x hx => Bool.false_ne_true hx
    rw [hempty]
    exact ⟨Set.finite_empty, Set.ncard_empty _⟩
  case range =>
    intro t u ts hfirst ih
    obtain ⟨hfinite, hcard⟩ := ih
    have hunion : {x | Covers false (ends rank (t :: u :: ts)) x} =
        ↑(Finset.Icc (rank t.val) (rank u.val)) ∪ {x | Covers false (ends rank ts) x} := by
      ext x
      rw [Set.mem_union, Finset.coe_Icc, Set.mem_Icc]
      exact hfirst.covers_iff
    have hdisjoint : Disjoint (↑(Finset.Icc (rank t.val) (rank u.val)) : Set ℕ)
        {x | Covers false (ends rank ts) x} := by
      rw [Set.disjoint_left]
      intro x hx
      rw [Finset.coe_Icc, Set.mem_Icc] at hx
      exact hfirst.not_covers (hx.2.trans (Nat.le_succ _))
    rw [hunion]
    refine ⟨(Finset.finite_toSet _).union hfinite, ?_⟩
    rw [Set.ncard_union_eq hdisjoint (Finset.finite_toSet _) hfinite, Set.ncard_coe_finset,
      Nat.card_Icc, hcard]
    rfl

/-- Every number is the place of a value. -/
theorem Ranked.exists_rank (h : Ranked kind rank M) (hx : x < M) : ∃ v, rank v = x := by
  induction x with
  | zero => exact ⟨kind.low, h.low⟩
  | succ x ih =>
    obtain ⟨v, hv⟩ := ih (Nat.lt_of_succ_lt hx)
    refine ⟨kind.increment v, ?_⟩
    rw [h.increment v (by rw [hv]; exact hx), hv]

theorem lt_of_covers (h : Ranked kind rank M) (hts : Canonical rank ts)
    (hcovers : Covers false (ends rank ts) x) : x < M := by
  by_contra hge
  have hall : ∀ y ∈ ends rank ts, y < x := by
    intro y hy
    obtain ⟨w, -, rfl⟩ := mem_ends.mp hy
    exact (h.lt w.val).trans_le (not_lt.mp hge)
  have hafter := @covers_append_of_gt false _ [] x hall
  rw [List.append_nil, hts.closed] at hafter
  exact Bool.false_ne_true (hafter.mp hcovers)

/-- The number of the values that `inRange` finds. -/
noncomputable def numMembers (kind : ValueKind V) (ts : List (Transition V)) : ℕ :=
  {v | (inRange kind ts v).1 = true}.ncard

theorem numMembers_eq (h : Ranked kind rank M) (hinj : Function.Injective rank)
    (hts : Canonical rank ts) : numMembers kind ts = totalSize rank ts := by
  have hpreimage : {v | (inRange kind ts v).1 = true} =
      Set.preimage rank {x | Covers false (ends rank ts) x} := by
    ext v
    exact inRange_iff h hts.valid v
  have hrange : {x | Covers false (ends rank ts) x} ⊆ Set.range rank :=
    fun x hx => h.exists_rank (lt_of_covers h hts hx)
  rw [numMembers, hpreimage, Set.ncard_preimage_of_injective_subset_range hinj hrange]
  exact (finite_covers hts).2

theorem totalSize_le (h : Ranked kind rank M) (hts : Canonical rank ts) : totalSize rank ts ≤ M := by
  rw [← (finite_covers hts).2, ← Finset.card_range M, ← Set.ncard_coe_finset]
  exact Set.ncard_le_ncard (fun x hx => Finset.mem_coe.mpr (Finset.mem_range.mpr
    (lt_of_covers h hts hx))) (Finset.finite_toSet _)

end StringSet

end HpccPlatform
