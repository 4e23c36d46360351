import HpccPlatform.Library.Comparison
import Mathlib.Data.List.Basic

/-!
# Stable sorting

The stable sort of a list has its items in order, and those that are equal in the order of the list.
Putting each item behind those that are not greater makes it.
-/

variable {R : Type*} {icmp : R → R → ℤ} {base l l' : List R} {x : R} {p : ℕ}

/-- The list `l'` is `l` in order, with equal items as they were. -/
structure IsStableSort (icmp : R → R → ℤ) (l l' : List R) : Prop where
  perm : l'.Perm l
  sorted : l'.Pairwise (icmp · · ≤ 0)
  stable : ∀ a, l'.filter (icmp a · = 0) = l.filter (icmp a · = 0)

/-- An item between those that are not greater than it and those that are not less. -/
theorem pairwise_insert (hbase : base.Pairwise (icmp · · ≤ 0))
    (hbefore : ∀ b ∈ base.take p, icmp b x ≤ 0) (hbehind : ∀ b ∈ base.drop p, icmp x b ≤ 0) :
    (base.take p ++ x :: base.drop p).Pairwise (icmp · · ≤ 0) := by
  rw [← List.take_append_drop p base, List.pairwise_append] at hbase
  obtain ⟨htake, hdrop, hcross⟩ := hbase
  refine List.pairwise_append.mpr ⟨htake, List.pairwise_cons.mpr ⟨hbehind, hdrop⟩, ?_⟩
  intro a ha b hb
  rcases List.mem_cons.mp hb with rfl | hb
  · exact hbefore a ha
  · exact hcross a ha b hb

theorem perm_insert (base : List R) (p : ℕ) (x : R) :
    (base.take p ++ x :: base.drop p).Perm (x :: base) := by
  have hmiddle := @List.perm_middle _ x (base.take p) (base.drop p)
  rwa [List.take_append_drop] at hmiddle

/-- An item that is put behind all that are not greater. -/
theorem IsStableSort.insert (h : TotalPreorder icmp) (hl : IsStableSort icmp l base)
    (hbefore : ∀ b ∈ base.take p, icmp b x ≤ 0) (hbehind : ∀ b ∈ base.drop p, icmp x b < 0) :
    IsStableSort icmp (l ++ [x]) (base.take p ++ x :: base.drop p) where
  perm := by
    have hx : (x :: base).Perm (x :: l) := hl.perm.cons x
    exact (perm_insert base p x).trans (hx.trans (List.perm_append_singleton x l).symm)
  sorted := pairwise_insert hl.sorted hbefore fun b hb => (hbehind b hb).le
  stable a := by
    have hstable := hl.stable a
    rw [← List.take_append_drop p base, List.filter_append] at hstable
    rw [List.filter_append, List.filter_append, ← hstable]
    by_cases hx : icmp a x = 0
    · -- no item behind `x` equals it
      have hnone : (base.drop p).filter (icmp a · = 0) = [] := by
        refine List.filter_eq_nil_iff.mpr fun b hb heq => ?_
        have hab : icmp a b = 0 := of_decide_eq_true heq
        exact (hbehind b hb).ne (h.zero_trans (h.zero_comm.mp hx) hab)
      rw [List.filter_cons_of_pos (by simpa using hx), List.filter_cons_of_pos (by simpa using hx), hnone,
        List.append_nil]
      rfl
    · rw [List.filter_cons_of_neg (by simpa using hx), List.filter_cons_of_neg (by simpa using hx),
        List.filter_nil, List.append_nil]

/-- Two lists in order with the same items are the same, if equal items are in the same order. -/
theorem eq_of_sorted (h : TotalPreorder icmp) : ∀ {l l' : List R}, l.Perm l' → l.Pairwise (icmp · · ≤ 0) →
    l'.Pairwise (icmp · · ≤ 0) → (∀ a, l.filter (icmp a · = 0) = l'.filter (icmp a · = 0)) → l = l'
  | [], l', hperm, _, _, _ => hperm.nil_eq
  | x :: l, [], hperm, _, _, _ => absurd hperm.symm.nil_eq (List.cons_ne_nil x l).symm
  | x :: l, y :: l', hperm, hl, hl', hsame => by
    have hxy : icmp x y ≤ 0 := by
      rcases List.mem_cons.mp (hperm.mem_iff.mpr List.mem_cons_self) with rfl | hy
      · exact (h.self y).le
      · exact (List.pairwise_cons.mp hl).1 y hy
    have hyx : icmp y x ≤ 0 := by
      rcases List.mem_cons.mp (hperm.mem_iff.mp List.mem_cons_self) with rfl | hx
      · exact (h.self x).le
      · exact (List.pairwise_cons.mp hl').1 x hx
    -- both are the first item of their class
    have heq : icmp x y = 0 := le_antisymm hxy (h.nonneg_iff.mpr hyx)
    have hclass := hsame x
    rw [List.filter_cons_of_pos (by simpa using h.self x), List.filter_cons_of_pos (by simpa using heq)]
      at hclass
    obtain ⟨rfl, -⟩ := List.cons.inj hclass
    have htail : l = l' := by
      refine eq_of_sorted h (hperm.cons_inv) (List.pairwise_cons.mp hl).2 (List.pairwise_cons.mp hl').2 ?_
      intro a
      have ha := hsame a
      by_cases hax : icmp a x = 0
      · rw [List.filter_cons_of_pos (by simpa using hax), List.filter_cons_of_pos (by simpa using hax)] at ha
        exact (List.cons.inj ha).2
      · rwa [List.filter_cons_of_neg (by simpa using hax), List.filter_cons_of_neg (by simpa using hax)] at ha
    rw [htail]

theorem IsStableSort.unique (h : TotalPreorder icmp) {l₁ l₂ : List R} (h₁ : IsStableSort icmp l l₁)
    (h₂ : IsStableSort icmp l l₂) : l₁ = l₂ :=
  eq_of_sorted h (h₁.perm.trans h₂.perm.symm) h₁.sorted h₂.sorted fun a =>
    (h₁.stable a).trans (h₂.stable a).symm

/-- The places of the items are sorted, equal items by their places. -/
theorem IsStableSort.of_places (h : TotalPreorder icmp) {row : ℕ → R} {n : ℕ} {places : List ℕ}
    (hperm : places.Perm (List.range n))
    (hsorted : places.Pairwise fun i j => icmp (row i) (row j) ≤ 0 ∧ (icmp (row i) (row j) = 0 → i ≤ j)) :
    IsStableSort icmp ((List.range n).map row) (places.map row) where
  perm := hperm.map row
  sorted := List.pairwise_map.mpr (hsorted.imp fun hij => hij.1)
  stable a := by
    have hplaces : (places.filter fun i => decide (icmp a (row i) = 0)) =
        (List.range n).filter fun i => decide (icmp a (row i) = 0) := by
      refine (hperm.filter _).eq_of_pairwise (fun i j _ _ => Nat.le_antisymm) ?_ ?_
      · refine (hsorted.filter _).imp_of_mem fun hi hj hij => hij.2 ?_
        have hi := of_decide_eq_true (List.mem_filter.mp hi).2
        have hj := of_decide_eq_true (List.mem_filter.mp hj).2
        exact h.zero_trans (h.zero_comm.mp hi) hj
      · exact (List.pairwise_lt_range.filter _).imp Nat.le_of_lt
    rw [List.filter_map, List.filter_map]
    exact congrArg (List.map row) hplaces
