import HpccPlatform.JSort.Partition

/-!
# What the quicksort sorts

The quicksort sorts each range of fewer than `2 ^ 31` items.  On a longer one a part may have a length
that is negative in an `int`; such a part is left as it is.
-/

namespace HpccPlatform

namespace JSort

open ArrayRange

variable {α : Type*} {icmp : α → α → ℤ} {a n r1 r2 : ℕ} {items items' : ℕ → α} {v : α}

/-- A result with the items from `lo` up to `up` in order, and all others where they were. -/
def SortsRange (icmp : α → α → ℤ) (lo up : ℕ) (items : ℕ → α) (r : Option (ℕ → α)) : Prop :=
  ∃ items', r = some items' ∧ RearrangedOn lo up items items' ∧ SortedOn icmp lo up items'

/-- No part of `2 ^ 31` items or more is out of order after the first partition. -/
def PartsInOrder (icmp : α → α → ℤ) (a n : ℕ) (items : ℕ → α) : Prop :=
  ∀ s items', part icmp a n items = some s → gather a n s = some items' →
    (2 ^ 31 ≤ s.pb - s.pa → SortedOn icmp a (a + (s.pb - s.pa)) items') ∧
      (2 ^ 31 ≤ s.pd - s.pc → SortedOn icmp (a + n - (s.pd - s.pc)) (a + n) items')

/-! ### The lengths of the parts -/

theorem toInt_of_lt {x : ℕ} (hx : x < 2 ^ 31) : toInt x = x := by
  have hmod : x % 2 ^ 32 = x := Nat.mod_eq_of_lt (hx.trans (by decide))
  have hmod' : (x : ℤ) % 2 ^ 32 = x := by exact_mod_cast hmod
  rw [toInt, hmod, if_pos hx, hmod']

theorem toInt_neg {x : ℕ} (hx : 2 ^ 31 ≤ x) (hx' : x < 2 ^ 32) : toInt x < 0 := by
  have hmod : x % 2 ^ 32 = x := Nat.mod_eq_of_lt hx'
  rw [toInt, hmod, if_neg (not_lt.mpr hx)]
  omega

theorem toSize32_natCast {x : ℕ} (hx : x < 2 ^ 32) : toSize32 x = x := by
  have hmod : (x : ℤ) % 2 ^ 32 = x := by exact_mod_cast Nat.mod_eq_of_lt hx
  rw [toSize32, hmod, Int.toNat_natCast]

/-! ### The parts -/

namespace Gathered

theorem sortLeft (h : Gathered icmp a n v r1 r2 items) (hsorted : RearrangedOn a (a + r1) items items') :
    Gathered icmp a n v r1 r2 items' := by
  have hlt := h.lt
  refine ⟨hlt, hsorted.forall_mem (P := fun x => icmp x v < 0) h.less, fun i hi hi' => ?_, fun i hi hi' => ?_⟩
  · rw [hsorted.outside (Or.inr hi)]
    exact h.equal i hi hi'
  · rw [hsorted.outside (Or.inr (by omega))]
    exact h.greater i hi hi'

theorem sortRight (h : Gathered icmp a n v r1 r2 items)
    (hsorted : RearrangedOn (a + n - r2) (a + n) items items') : Gathered icmp a n v r1 r2 items' := by
  have hlt := h.lt
  refine ⟨hlt, fun i hi hi' => ?_, fun i hi hi' => ?_, 
    hsorted.forall_mem (P := fun x => 0 < icmp x v) h.greater⟩
  · rw [hsorted.outside (Or.inl (by omega))]
    exact h.less i hi hi'
  · rw [hsorted.outside (Or.inl hi')]
    exact h.equal i hi hi'

theorem sortedOn (h : Gathered icmp a n v r1 r2 items) (htotal : TotalPreorder icmp)
    (hleft : SortedOn icmp a (a + r1) items) (hright : SortedOn icmp (a + n - r2) (a + n) items) :
    SortedOn icmp a (a + n) items :=
  SortedOn.of_parts htotal h.less h.equal h.greater hleft hright

/-- The left part is sorted, then the right one. -/
theorem leftRight (h : Gathered icmp a n v r1 r2 items) (htotal : TotalPreorder icmp) {f g : ℕ → α}
    (hf : RearrangedOn a (a + r1) items f) (hleft : SortedOn icmp a (a + r1) f)
    (hg : RearrangedOn (a + n - r2) (a + n) f g) (hright : SortedOn icmp (a + n - r2) (a + n) g) :
    RearrangedOn a (a + n) items g ∧ SortedOn icmp a (a + n) g := by
  have hlt := h.lt
  refine ⟨(hf.mono le_rfl (by omega)).trans (hg.mono (by omega) le_rfl),
    ((h.sortLeft hf).sortRight hg).sortedOn htotal (hleft.congr fun i hi hi' => ?_) hright⟩
  exact hg.outside (Or.inl (by omega))

/-- The right part is sorted, then the left one. -/
theorem rightLeft (h : Gathered icmp a n v r1 r2 items) (htotal : TotalPreorder icmp) {f g : ℕ → α}
    (hf : RearrangedOn (a + n - r2) (a + n) items f) (hright : SortedOn icmp (a + n - r2) (a + n) f)
    (hg : RearrangedOn a (a + r1) f g) (hleft : SortedOn icmp a (a + r1) g) :
    RearrangedOn a (a + n) items g ∧ SortedOn icmp a (a + n) g := by
  have hlt := h.lt
  refine ⟨(hf.mono (by omega) le_rfl).trans (hg.mono le_rfl (by omega)),
    ((h.sortRight hf).sortLeft hg).sortedOn htotal hleft (hright.congr fun i hi hi' => ?_)⟩
  exact hg.outside (Or.inr (by omega))

end Gathered

/-! ### The quicksort -/

/-- A range is sorted, unless there are too few calls. -/
def SortsSmall (icmp : α → α → ℤ) (fuel : ℕ) : Prop :=
  ∀ (a n : ℕ) (items : ℕ → α), n < 2 ^ 31 →
    SortsRange icmp a (a + n) items (qsort icmp fuel a n items) ∨ fuel ≤ n ∧ qsort icmp fuel a n items = none

/-- A part of at most one item is not sorted by a call. -/
theorem SortsSmall.call {fuel : ℕ} (hsmall : SortsSmall icmp fuel) (a : ℕ) {m : ℕ} (items : ℕ → α)
    (hm : m < 2 ^ 31) :
    SortsRange icmp a (a + m) items (if 1 < (m : ℤ) then qsort icmp fuel a m items else some items) ∨
      fuel ≤ m ∧ (if 1 < (m : ℤ) then qsort icmp fuel a m items else some items) = none := by
  by_cases hone : 1 < (m : ℤ)
  · rw [if_pos hone]
    exact hsmall a m items hm
  · rw [if_neg hone]
    exact Or.inl ⟨items, rfl, .refl _ _ _, .of_short (by omega)⟩

/-- Two parts of fewer than `2 ^ 31` items are sorted one after the other. -/
theorem SortsSmall.sortParts {fuel : ℕ} (hsmall : SortsSmall icmp fuel) (h : TotalPreorder icmp)
    (hgathered : Gathered icmp a n v r1 r2 items) (hr1 : r1 < 2 ^ 31) (hr2 : r2 < 2 ^ 31) :
    SortsRange icmp a (a + n) items (sortParts (qsort icmp fuel) a n (toInt r1) (toInt r2) items) ∨
      fuel + 1 ≤ n ∧ sortParts (qsort icmp fuel) a n (toInt r1) (toInt r2) items = none := by
  have hlt := hgathered.lt
  have hright : a + n - r2 + r2 = a + n := by omega
  unfold JSort.sortParts
  dsimp only
  rw [toInt_of_lt hr1, toInt_of_lt hr2, toSize32_natCast (hr1.trans (by decide)),
    toSize32_natCast (hr2.trans (by decide))]
  by_cases hless : (r1 : ℤ) < r2
  · rw [if_pos hless]
    rcases hsmall.call a items hr1 with ⟨f, hf, hfr, hfs⟩ | ⟨hfuel, hnone⟩
    · rw [hf, Option.bind_some]
      rcases hsmall (a + n - r2) r2 f hr2 with ⟨g, hg, hgr, hgs⟩ | ⟨hfuel, hnone⟩
      · rw [hright] at hgr hgs
        exact Or.inl ⟨g, hg, hgathered.leftRight h hfr hfs hgr hgs⟩
      · exact Or.inr ⟨by omega, hnone⟩
    · rw [hnone]
      exact Or.inr ⟨by omega, rfl⟩
  · rw [if_neg hless]
    rcases hsmall.call (a + n - r2) items hr2 with ⟨f, hf, hfr, hfs⟩ | ⟨hfuel, hnone⟩
    · rw [hright] at hfr hfs
      rw [hf, Option.bind_some]
      rcases hsmall a r1 f hr1 with ⟨g, hg, hgr, hgs⟩ | ⟨hfuel, hnone⟩
      · exact Or.inl ⟨g, hg, hgathered.rightLeft h hfr hfs hgr hgs⟩
      · exact Or.inr ⟨by omega, hnone⟩
    · rw [hnone]
      exact Or.inr ⟨by omega, rfl⟩

theorem qsort_small (h : TotalPreorder icmp) : ∀ fuel, SortsSmall icmp fuel
  | 0 => fun _ n _ _ => Or.inr ⟨Nat.zero_le n, rfl⟩
  | fuel + 1 => fun a n items hn => by
    rw [qsort]
    by_cases hshort : n < 7
    · rw [if_pos hshort]
      exact Or.inl (insertionSort_spec h a n items)
    obtain ⟨s, v, hpart, hparted, hcrossed⟩ := part_spec h a items (not_lt.mp hshort)
    rw [if_neg hshort, hpart, Option.bind_some]
    by_cases hswap : s.swapCnt = false ∧ n < 1000
    · obtain ⟨items', hsort, hrearranged, hsorted⟩ := insertionSort_spec h a n s.items
      rw [if_pos hswap]
      exact Or.inl ⟨items', hsort, hparted.rearranged.trans hrearranged, hsorted⟩
    obtain ⟨items₁, hgather, hrearranged, hgathered⟩ :=
      hparted.gather_spec hcrossed (hn.trans (by decide))
    rw [if_neg hswap, hgather, Option.bind_some]
    have hlt := hgathered.lt
    rcases (qsort_small h fuel).sortParts h hgathered (by omega) (by omega) with
      ⟨items', hsort, hrearranged', hsorted⟩ | hnone
    · exact Or.inl ⟨items', hsort, hrearranged.trans hrearranged', hsorted⟩
    · exact Or.inr hnone

/-- Fewer than `2 ^ 31` items are sorted in as many calls as there are items, and one. -/
theorem qsort_sorts (h : TotalPreorder icmp) (a : ℕ) (items : ℕ → α) (hn : n < 2 ^ 31) :
    SortsRange icmp a (a + n) items (qsort icmp (n + 1) a n items) :=
  (qsort_small h (n + 1) a n items hn).resolve_right fun hfew => absurd hfew.1 (Nat.not_succ_le_self n)

/-! ### Ranges of any length -/

/-- A left part that is too long is not sorted. -/
theorem sortParts_longLeft (fuel : ℕ) (hr1 : 2 ^ 31 ≤ r1) (hr1' : r1 < 2 ^ 32) (hr2 : r2 < 2 ^ 31) :
    sortParts (qsort icmp fuel) a n (toInt r1) (toInt r2) items =
      qsort icmp fuel (a + n - r2) r2 items := by
  have hneg := toInt_neg hr1 hr1'
  unfold sortParts
  dsimp only
  rw [toInt_of_lt hr2, toSize32_natCast (hr2.trans (by decide)), if_pos (by omega), if_neg (by omega),
    Option.bind_some]

/-- A right part that is too long is not sorted. -/
theorem sortParts_longRight (fuel : ℕ) (hr1 : r1 < 2 ^ 31) (hr2 : 2 ^ 31 ≤ r2) (hr2' : r2 < 2 ^ 32) :
    sortParts (qsort icmp fuel) a n (toInt r1) (toInt r2) items = qsort icmp fuel a r1 items := by
  have hneg := toInt_neg hr2 hr2'
  unfold sortParts
  dsimp only
  rw [toInt_of_lt hr1, toSize32_natCast (hr1.trans (by decide)), if_neg (by omega), if_neg (by omega),
    Option.bind_some]

/-- What the calls for the two parts do: a part that is too long is left as it is. -/
inductive PartsSorted (icmp : α → α → ℤ) (a n r1 r2 : ℕ) (items items' : ℕ → α) : Prop
  | both (hr1 : r1 < 2 ^ 31) (hr2 : r2 < 2 ^ 31) (all : RearrangedOn a (a + n) items items')
      (sorted : SortedOn icmp a (a + n) items')
  | longLeft (hr1 : 2 ^ 31 ≤ r1) (hr2 : r2 < 2 ^ 31) (right : RearrangedOn (a + n - r2) (a + n) items items')
      (sorted : SortedOn icmp (a + n - r2) (a + n) items')
  | longRight (hr1 : r1 < 2 ^ 31) (hr2 : 2 ^ 31 ≤ r2) (left : RearrangedOn a (a + r1) items items')
      (sorted : SortedOn icmp a (a + r1) items')

theorem sortParts_spec (h : TotalPreorder icmp) (hgathered : Gathered icmp a n v r1 r2 items)
    (hn : n < 2 ^ 32) (fuel : ℕ) :
    (∃ items', sortParts (qsort icmp fuel) a n (toInt r1) (toInt r2) items = some items' ∧
      PartsSorted icmp a n r1 r2 items items') ∨
      fuel + 1 ≤ n ∧ sortParts (qsort icmp fuel) a n (toInt r1) (toInt r2) items = none := by
  have hlt := hgathered.lt
  have hend : a + n - r2 + r2 = a + n := by omega
  by_cases hr1 : 2 ^ 31 ≤ r1
  · have hr2 : r2 < 2 ^ 31 := by omega
    rw [sortParts_longLeft fuel hr1 (by omega) hr2]
    rcases qsort_small h fuel (a + n - r2) r2 items hr2 with ⟨g, hg, hright, hsorted⟩ | ⟨hfuel, hnone⟩
    · rw [hend] at hright hsorted
      exact Or.inl ⟨g, hg, .longLeft hr1 hr2 hright hsorted⟩
    · exact Or.inr ⟨by omega, hnone⟩
  have hr1 := not_le.mp hr1
  by_cases hr2 : 2 ^ 31 ≤ r2
  · rw [sortParts_longRight fuel hr1 hr2 (by omega)]
    rcases qsort_small h fuel a r1 items hr1 with ⟨g, hg, hleft, hsorted⟩ | ⟨hfuel, hnone⟩
    · exact Or.inl ⟨g, hg, .longRight hr1 hr2 hleft hsorted⟩
    · exact Or.inr ⟨by omega, hnone⟩
  have hr2 := not_le.mp hr2
  rcases (qsort_small h fuel).sortParts h hgathered hr1 hr2 with ⟨g, hg, hall, hsorted⟩ | hnone
  · exact Or.inl ⟨g, hg, .both hr1 hr2 hall hsorted⟩
  · exact Or.inr hnone

theorem PartsSorted.rearranged (h : PartsSorted icmp a n r1 r2 items items') (hlt : r1 + r2 < n) :
    RearrangedOn a (a + n) items items' := by
  cases h with
  | both hr1 hr2 all sorted => exact all
  | longLeft hr1 hr2 right sorted => exact right.mono (by omega) le_rfl
  | longRight hr1 hr2 left sorted => exact left.mono le_rfl (by omega)

/-- The result is in order exactly if a part that is too long has been. -/
theorem PartsSorted.sortedOn_iff (h : PartsSorted icmp a n r1 r2 items items') (htotal : TotalPreorder icmp)
    (hgathered : Gathered icmp a n v r1 r2 items) :
    SortedOn icmp a (a + n) items' ↔ (2 ^ 31 ≤ r1 → SortedOn icmp a (a + r1) items) ∧
      (2 ^ 31 ≤ r2 → SortedOn icmp (a + n - r2) (a + n) items) := by
  have hlt := hgathered.lt
  cases h with
  | both hr1 hr2 all sorted => exact iff_of_true sorted ⟨fun hle => by omega, fun hle => by omega⟩
  | longLeft hr1 hr2 right sorted =>
    have hsame : ∀ i, a ≤ i → i < a + r1 → items' i = items i := fun i _ hi =>
      right.outside (Or.inl (by omega))
    constructor
    · intro hall
      refine ⟨fun _ => ?_, fun hle => by omega⟩
      exact (hall.mono le_rfl (by omega)).congr fun i hi hi' => (hsame i hi hi').symm
    · rintro ⟨hleft, -⟩
      exact (hgathered.rightLeft htotal right sorted (.refl _ _ _) ((hleft hr1).congr hsame)).2
  | longRight hr1 hr2 left sorted =>
    have hsame : ∀ i, a + n - r2 ≤ i → i < a + n → items' i = items i := fun i hi _ =>
      left.outside (Or.inr (by omega))
    constructor
    · intro hall
      refine ⟨fun hle => by omega, fun _ => ?_⟩
      exact (hall.mono (by omega) le_rfl).congr fun i hi hi' => (hsame i hi hi').symm
    · rintro ⟨-, hright⟩
      exact (hgathered.leftRight htotal left sorted (.refl _ _ _) ((hright hr2).congr hsame)).2

/-- On a range of `2 ^ 31` items or more the first partition is followed by the calls for its parts. -/
theorem qsort_long (h : TotalPreorder icmp) (a : ℕ) (items : ℕ → α) (hlarge : 2 ^ 31 ≤ n)
    (hn : n < 2 ^ 32) :
    ∃ s v items₁, part icmp a n items = some s ∧ gather a n s = some items₁ ∧
      RearrangedOn a (a + n) items items₁ ∧ Gathered icmp a n v (s.pb - s.pa) (s.pd - s.pc) items₁ ∧
      ∀ fuel, (∃ items', qsort icmp fuel a n items = some items' ∧
        PartsSorted icmp a n (s.pb - s.pa) (s.pd - s.pc) items₁ items') ∨
          fuel ≤ n ∧ qsort icmp fuel a n items = none := by
  have hlong : 7 ≤ n := le_trans (by decide) hlarge
  obtain ⟨s, v, hpart, hparted, hcrossed⟩ := part_spec h a items hlong
  have hswap : ¬(s.swapCnt = false ∧ n < 1000) := fun hswap => by omega
  obtain ⟨items₁, hgather, hrearranged, hgathered⟩ := hparted.gather_spec hcrossed hn
  refine ⟨s, v, items₁, hpart, hgather, hrearranged, hgathered, fun fuel => ?_⟩
  cases fuel with
  | zero => exact Or.inr ⟨Nat.zero_le n, rfl⟩
  | succ fuel =>
    rw [qsort, if_neg (not_lt.mpr hlong), hpart, Option.bind_some, if_neg hswap, hgather,
      Option.bind_some]
    exact sortParts_spec h hgathered hn fuel

/-- What holds of the one partition holds of every partition. -/
theorem forall_parts {P : Parting α → (ℕ → α) → Prop} {s : Parting α} {items₁ : ℕ → α}
    (hpart : part icmp a n items = some s) (hgather : gather a n s = some items₁) :
    (∀ s items', part icmp a n items = some s → gather a n s = some items' → P s items') ↔ P s items₁ := by
  constructor
  · exact fun hall => hall s items₁ hpart hgather
  · intro hP s' items' hpart' hgather'
    rw [hpart, Option.some_inj] at hpart'
    subst hpart'
    rw [hgather, Option.some_inj] at hgather'
    rwa [← hgather']

/-- A range is sorted exactly if the first partition leaves no part of `2 ^ 31` items or more that is out of
order; no range of fewer items has such a part. -/
theorem qsort_iff (h : TotalPreorder icmp) (hn : n < 2 ^ 32) (a : ℕ) (items : ℕ → α) :
    (∃ fuel, SortsRange icmp a (a + n) items (qsort icmp fuel a n items)) ↔
      (2 ^ 31 ≤ n → PartsInOrder icmp a n items) := by
  rcases Nat.lt_or_ge n (2 ^ 31) with hsmall | hlarge
  · exact iff_of_true ⟨n + 1, qsort_sorts h a items hsmall⟩ fun hle => absurd hle (not_le.mpr hsmall)
  obtain ⟨s, v, items₁, hpart, hgather, hrearranged, hgathered, hresult⟩ := qsort_long h a items hlarge hn
  have hlt := hgathered.lt
  rw [imp_iff_right hlarge, PartsInOrder, forall_parts hpart hgather]
  constructor
  · rintro ⟨fuel, items', hsort, -, hsorted⟩
    rcases hresult fuel with ⟨g, hg, hparts⟩ | ⟨-, hnone⟩
    · rw [hsort, Option.some_inj] at hg
      subst hg
      exact (hparts.sortedOn_iff h hgathered).mp hsorted
    · rw [hsort] at hnone
      cases hnone
  · intro horder
    obtain ⟨g, hg, hparts⟩ := (hresult (n + 1)).resolve_right fun hfew =>
      absurd hfew.1 (Nat.not_succ_le_self n)
    exact ⟨n + 1, g, hg, hrearranged.trans (hparts.rearranged hlt),
      (hparts.sortedOn_iff h hgathered).mpr horder⟩

end JSort

end HpccPlatform
