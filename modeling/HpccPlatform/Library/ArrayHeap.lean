import Mathlib

/-!
# Binary heaps in an array

The first `n` items of an array are the nodes of a binary tree: the children of `p` are at `2 * p + 1`
and `2 * p + 2`.  A heap has no item that comes before its parent.  An item that is put into a place
with heaps below it sinks to where the heap needs it.
-/

namespace ArrayHeap

variable {α : Type*}

/-- The place above another one. -/
def parent (i : ℕ) : ℕ := (i - 1) / 2

/-- Exchanges two items. -/
def exchange (a : ℕ → α) (i j : ℕ) : ℕ → α := a ∘ Equiv.swap i j

/-- The smaller child of `p`; `less d c` tells that the second child `d` is smaller than the first. -/
def smallerChild (less : α → α → Bool) (n : ℕ) (a : ℕ → α) (p : ℕ) : ℕ :=
  if 2 * p + 2 < n ∧ less (a (2 * p + 2)) (a (2 * p + 1)) = true then 2 * p + 2 else 2 * p + 1

/-- Lets the item at `p` sink, in at most `fuel` steps, and tells whether nothing has changed;
`rests c p` tells that the item at `p` may stay above its smaller child `c`. -/
def siftDown (less rests : α → α → Bool) (n : ℕ) : ℕ → (ℕ → α) → ℕ → (ℕ → α) × Bool
  | 0, a, _ => (a, true)
  | fuel + 1, a, p =>
    if n ≤ 2 * p + 1 then (a, true)
    else
      let c := smallerChild less n a p
      if rests (a c) (a p) then (a, true)
      else ((siftDown less rests n fuel (exchange a p c) c).1, false)

/-- The items below `q` do not come before their parents. -/
def HeapFrom (le : α → α → Prop) (q n : ℕ) (a : ℕ → α) : Prop :=
  ∀ i, 0 < i → i < n → q ≤ parent i → le (a (parent i)) (a i)

/-- The comparisons are those of an order. -/
structure Decides (le : α → α → Prop) (less rests : α → α → Bool) : Prop where
  refl : ∀ x, le x x
  trans : ∀ {x y z}, le x y → le y z → le x z
  le_of_less : ∀ {x y}, less x y = true → le x y
  le_of_not_less : ∀ {x y}, less x y = false → le y x
  le_of_rests : ∀ {c p}, rests c p = true → le p c
  le_of_not_rests : ∀ {c p}, rests c p = false → le c p

/-! ### Places -/

theorem parent_lt {i : ℕ} (hi : 0 < i) : parent i < i := by
  unfold parent
  omega

theorem parent_eq_iff {i p : ℕ} (hi : 0 < i) : parent i = p ↔ i = 2 * p + 1 ∨ i = 2 * p + 2 := by
  unfold parent
  omega

theorem exchange_left (a : ℕ → α) (i j : ℕ) : exchange a i j i = a j :=
  congrArg a (Equiv.swap_apply_left i j)

theorem exchange_right (a : ℕ → α) (i j : ℕ) : exchange a i j j = a i :=
  congrArg a (Equiv.swap_apply_right i j)

theorem exchange_of_ne (a : ℕ → α) {i j k : ℕ} (hi : k ≠ i) (hj : k ≠ j) : exchange a i j k = a k :=
  congrArg a (Equiv.swap_apply_of_ne_of_ne hi hj)

/-! ### Where the items are -/

/-- The first `n` items have only changed their places. -/
def Rearranged (n : ℕ) (a b : ℕ → α) : Prop :=
  ∃ σ : Equiv.Perm ℕ, b = a ∘ σ ∧ ∀ i, n ≤ i → σ i = i

namespace Rearranged

variable {n : ℕ} {a b c : ℕ → α}

theorem refl (n : ℕ) (a : ℕ → α) : Rearranged n a a := ⟨Equiv.refl ℕ, rfl, fun _ _ => rfl⟩

theorem trans (h : Rearranged n a b) (h' : Rearranged n b c) : Rearranged n a c := by
  obtain ⟨σ, rfl, hσ⟩ := h
  obtain ⟨τ, rfl, hτ⟩ := h'
  refine ⟨τ.trans σ, rfl, fun i hi => ?_⟩
  rw [Equiv.trans_apply, hτ i hi, hσ i hi]

theorem exchange (a : ℕ → α) {i j : ℕ} (hi : i < n) (hj : j < n) :
    Rearranged n a (exchange a i j) :=
  ⟨Equiv.swap i j, rfl, fun _ hk =>
    Equiv.swap_apply_of_ne_of_ne (hi.trans_le hk).ne' (hj.trans_le hk).ne'⟩

/-- Only the first `n` places are concerned. -/
theorem place_lt {σ : Equiv.Perm ℕ} (hσ : ∀ i, n ≤ i → σ i = i) {i : ℕ} (hi : i < n) : σ i < n := by
  by_contra hge
  have hfix := hσ (σ i) (not_lt.mp hge)
  exact hge ((σ.injective hfix).symm ▸ hi)

theorem symm (h : Rearranged n a b) : Rearranged n b a := by
  obtain ⟨σ, rfl, hσ⟩ := h
  refine ⟨σ.symm, ?_, fun i hi => ?_⟩
  · funext i
    exact congrArg a (σ.apply_symm_apply i).symm
  · rw [Equiv.symm_apply_eq, hσ i hi]

theorem exists_place (h : Rearranged n a b) {i : ℕ} (hi : i < n) : ∃ j < n, b j = a i := by
  obtain ⟨σ, rfl, hσ⟩ := h.symm
  exact ⟨σ i, place_lt hσ hi, rfl⟩

/-- The items are the same ones. -/
theorem mem_iff (h : Rearranged n a b) (x : α) : (∃ i < n, b i = x) ↔ ∃ i < n, a i = x := by
  constructor
  · rintro ⟨i, hi, rfl⟩
    exact h.symm.exists_place hi
  · rintro ⟨i, hi, rfl⟩
    exact h.exists_place hi

theorem injOn (h : Rearranged n a b) (ha : Set.InjOn a (Set.Iio n)) : Set.InjOn b (Set.Iio n) := by
  obtain ⟨σ, rfl, hσ⟩ := h
  intro i hi j hj hij
  exact σ.injective (ha (place_lt hσ hi) (place_lt hσ hj) hij)

end Rearranged

/-! ### Taking an item out -/

section Remove

variable {n p : ℕ} {a : ℕ → α}

/-- Puts the last item into a place. -/
def replaceByLast (a : ℕ → α) (n p : ℕ) : ℕ → α := Function.update a p (a (n - 1))

theorem replaceByLast_of_ne {k : ℕ} (hk : k ≠ p) : replaceByLast a n p k = a k :=
  Function.update_of_ne hk _ _

theorem replaceByLast_injOn (ha : Set.InjOn a (Set.Iio n)) :
    Set.InjOn (replaceByLast a n p) (Set.Iio (n - 1)) := by
  have hlast : ∀ k, k < n - 1 → a k ≠ a (n - 1) := by
    intro k hk heq
    exact hk.ne (ha (hk.trans_le (Nat.sub_le n 1)) (by rw [Set.mem_Iio]; omega) heq)
  intro i hi j hj hij
  have hi' : i < n - 1 := hi
  have hj' : j < n - 1 := hj
  by_cases hip : i = p
  · by_cases hjp : j = p
    · exact hip.trans hjp.symm
    · rw [hip, replaceByLast_of_ne hjp, replaceByLast, Function.update_self] at hij
      exact absurd hij.symm (hlast j hj')
  · by_cases hjp : j = p
    · rw [hjp, replaceByLast_of_ne hip, replaceByLast, Function.update_self] at hij
      exact absurd hij (hlast i hi')
    · rw [replaceByLast_of_ne hip, replaceByLast_of_ne hjp] at hij
      exact ha (hi'.trans_le (Nat.sub_le n 1)) (hj'.trans_le (Nat.sub_le n 1)) hij

/-- All items but one are left. -/
theorem mem_replaceByLast (ha : Set.InjOn a (Set.Iio n)) (hp : p < n) (x : α) :
    (∃ k < n - 1, replaceByLast a n p k = x) ↔ (∃ k < n, a k = x) ∧ x ≠ a p := by
  constructor
  · rintro ⟨k, hk, rfl⟩
    have hkn : k < n := hk.trans_le (Nat.sub_le n 1)
    by_cases hkp : k = p
    · rw [hkp, replaceByLast, Function.update_self]
      have hlast : n - 1 < n := Nat.sub_lt (Nat.zero_lt_of_lt hp) Nat.one_pos
      exact ⟨⟨n - 1, hlast, rfl⟩, fun heq => hk.ne (hkp.trans (ha hp hlast heq.symm))⟩
    · rw [replaceByLast_of_ne hkp]
      exact ⟨⟨k, hkn, rfl⟩, fun heq => hkp (ha hkn hp heq)⟩
  · rintro ⟨⟨k, hk, rfl⟩, hne⟩
    have hkp : k ≠ p := fun heq => hne (congrArg a heq)
    by_cases hlast : k = n - 1
    · have hpn : p < n - 1 := by omega
      refine ⟨p, hpn, ?_⟩
      rw [replaceByLast, Function.update_self, hlast]
    · exact ⟨k, by omega, replaceByLast_of_ne hkp⟩

end Remove

/-! ### Sinking -/

section SiftDown

variable {le : α → α → Prop} {less rests : α → α → Bool} {n fuel p q : ℕ} {a : ℕ → α}

attribute [local simp] siftDown

theorem smallerChild_eq (less : α → α → Bool) (n : ℕ) (a : ℕ → α) (p : ℕ) :
    smallerChild less n a p = 2 * p + 1 ∨ smallerChild less n a p = 2 * p + 2 := by
  unfold smallerChild
  split_ifs
  · exact Or.inr rfl
  · exact Or.inl rfl

theorem smallerChild_lt (less : α → α → Bool) (a : ℕ → α) (hleaf : ¬ n ≤ 2 * p + 1) :
    smallerChild less n a p < n := by
  unfold smallerChild
  split_ifs with hsecond
  · exact hsecond.1
  · exact not_le.mp hleaf

theorem smallerChild_le (h : Decides le less rests) {i : ℕ} (hi : 0 < i) (hin : i < n)
    (hparent : parent i = p) : le (a (smallerChild less n a p)) (a i) := by
  unfold smallerChild
  split_ifs with hsecond
  · rcases (parent_eq_iff hi).mp hparent with rfl | rfl
    · exact h.le_of_less hsecond.2
    · exact h.refl _
  · rcases (parent_eq_iff hi).mp hparent with rfl | rfl
    · exact h.refl _
    · exact h.le_of_not_less (eq_false_of_ne_true fun htrue => hsecond ⟨hin, htrue⟩)

/-- The items behind `n` stay, and the others only change their places. -/
theorem siftDown_rearranged (hp : p < n) :
    Rearranged n a (siftDown less rests n fuel a p).1 := by
  induction fuel generalizing a p with
  | zero => exact .refl n a
  | succ fuel ih =>
    rw [siftDown]
    dsimp only
    by_cases hleaf : n ≤ 2 * p + 1
    · rw [if_pos hleaf]
      exact .refl n a
    rw [if_neg hleaf]
    have hc := smallerChild_lt less a hleaf
    by_cases hrest : rests (a (smallerChild less n a p)) (a p) = true
    · rw [if_pos hrest]
      exact .refl n a
    · rw [if_neg hrest]
      exact (Rearranged.exchange a hp hc).trans (ih hc)

/-- The places that are not below `p` keep their items. -/
theorem siftDown_frame {j : ℕ} (hjp : j ≠ p) (hj : j < 2 * p + 1) :
    (siftDown less rests n fuel a p).1 j = a j := by
  induction fuel generalizing a p with
  | zero => rfl
  | succ fuel ih =>
    have hle : 2 * p + 1 ≤ smallerChild less n a p := by
      rcases smallerChild_eq less n a p with heq | heq <;> rw [heq]
      exact Nat.le_succ _
    have hlt : smallerChild less n a p < 2 * smallerChild less n a p + 1 := by omega
    rw [siftDown]
    dsimp only
    split_ifs
    · rfl
    · rfl
    · rw [ih (hj.trans_le hle).ne ((hj.trans_le hle).trans hlt)]
      exact exchange_of_ne a hjp (hj.trans_le hle).ne

theorem siftDown_nochange (h : (siftDown less rests n fuel a p).2 = true) :
    (siftDown less rests n fuel a p).1 = a := by
  cases fuel with
  | zero => rfl
  | succ fuel =>
    rw [siftDown] at h ⊢
    dsimp only at h ⊢
    split_ifs at h ⊢
    · rfl
    · rfl

/-- An item that does not stay is replaced by its smaller child. -/
theorem siftDown_changed (h : (siftDown less rests n fuel a p).2 = false) :
    ∃ c, 0 < c ∧ c < n ∧ parent c = p ∧ (siftDown less rests n fuel a p).1 p = a c := by
  cases fuel with
  | zero => cases h
  | succ fuel =>
    have hchild := smallerChild_eq less n a p
    have hpos : 0 < smallerChild less n a p := by omega
    rw [siftDown] at h ⊢
    dsimp only at h ⊢
    by_cases hleaf : n ≤ 2 * p + 1
    · rw [if_pos hleaf] at h
      cases h
    rw [if_neg hleaf] at h ⊢
    by_cases hrests : rests (a (smallerChild less n a p)) (a p) = true
    · rw [if_pos hrests] at h
      cases h
    rw [if_neg hrests]
    refine ⟨_, hpos, smallerChild_lt less a hleaf, (parent_eq_iff hpos).mpr hchild, ?_⟩
    dsimp only
    rw [siftDown_frame (by omega) (by omega)]
    exact exchange_left a p _

/-- The item at `p` sinks until a heap is made of those from `q` on.  Without `p` they are one: the
items below `p` come after the one above it. -/
theorem siftDown_heap (h : Decides le less rests) (hqp : q ≤ p) (hp : p < n) (hfuel : n ≤ p + fuel)
    (hedges : ∀ i, 0 < i → i < n → q ≤ parent i → parent i ≠ p → le (a (parent i)) (a i))
    (hgrand : 0 < p → q ≤ parent p → ∀ i, 0 < i → i < n → parent i = p → le (a (parent p)) (a i)) :
    HeapFrom le q n (siftDown less rests n fuel a p).1 := by
  induction fuel generalizing a p with
  | zero => exact absurd hp (not_lt.mpr hfuel)
  | succ fuel ih =>
    rw [siftDown]
    dsimp only
    by_cases hleaf : n ≤ 2 * p + 1
    · rw [if_pos hleaf]
      intro i hi hin hqi
      refine hedges i hi hin hqi fun hparent => ?_
      rcases (parent_eq_iff hi).mp hparent with rfl | rfl
      · exact absurd hin (not_lt.mpr hleaf)
      · exact absurd hin (not_lt.mpr (hleaf.trans (Nat.le_succ _)))
    rw [if_neg hleaf]
    have hcn := smallerChild_lt less a hleaf
    have hsmaller : ∀ i, 0 < i → i < n → parent i = p → le (a (smallerChild less n a p)) (a i) :=
      fun i hi hin hparent => smallerChild_le h hi hin hparent
    have hchild := smallerChild_eq less n a p
    generalize smallerChild less n a p = c at hcn hsmaller hchild
    have hc0 : 0 < c := by omega
    have hpc : p < c := by omega
    have hparentc : parent c = p := (parent_eq_iff hc0).mpr hchild
    by_cases hrest : rests (a c) (a p) = true
    · rw [if_pos hrest]
      intro i hi hin hqi
      by_cases hparent : parent i = p
      · rw [hparent]
        exact h.trans (h.le_of_rests hrest) (hsmaller i hi hin hparent)
      · exact hedges i hi hin hqi hparent
    rw [if_neg hrest]
    have hup : le (a c) (a p) := h.le_of_not_rests (eq_false_of_ne_true hrest)
    refine ih (hqp.trans hpc.le) hcn (by omega) ?_ ?_
    · intro i hi hin hqi hne
      by_cases hparent : parent i = p
      · rw [hparent, exchange_left]
        by_cases hic : i = c
        · rw [hic, exchange_right]
          exact hup
        · have hip : i ≠ p := fun heq => (parent_lt hi).ne (hparent.trans heq.symm)
          rw [exchange_of_ne a hip hic]
          exact hsmaller i hi hin hparent
      · have hic : i ≠ c := fun heq => hparent (heq ▸ hparentc)
        rw [exchange_of_ne a hparent hne]
        by_cases hip : i = p
        · subst hip
          rw [exchange_left]
          exact hgrand hi hqi c hc0 hcn hparentc
        · rw [exchange_of_ne a hip hic]
          exact hedges i hi hin hqi hparent
    · intro _ _ i hi hin hparent
      have hlt := parent_lt hi
      rw [hparentc, exchange_left, exchange_of_ne a (by omega) (by omega)]
      have hedge := hedges i hi hin (by omega) (by omega)
      rwa [hparent] at hedge

/-- Nothing comes before the first item of a heap. -/
theorem HeapFrom.root_le (h : Decides le less rests) (hheap : HeapFrom le 0 n a) {i : ℕ} (hi : i < n) :
    le (a 0) (a i) := by
  induction i using Nat.strong_induction_on with
  | _ i ih =>
    rcases Nat.eq_zero_or_pos i with rfl | hpos
    · exact h.refl _
    · have hlt := parent_lt hpos
      exact h.trans (ih (parent i) hlt (hlt.trans hi)) (hheap i hpos hi (Nat.zero_le _))

/-- What comes before both children of the first place comes before all other items. -/
theorem HeapFrom.child_le (h : Decides le less rests) (hheap : HeapFrom le 1 n a) {i : ℕ} (hpos : 0 < i)
    (hi : i < n) : ∃ c, (c = 1 ∨ c = 2) ∧ c < n ∧ le (a c) (a i) := by
  induction i using Nat.strong_induction_on with
  | _ i ih =>
    rcases Nat.eq_zero_or_pos (parent i) with hzero | hparent
    · refine ⟨i, ?_, hi, h.refl _⟩
      exact (parent_eq_iff hpos).mp hzero
    · have hlt := parent_lt hpos
      obtain ⟨c, hc, hcn, hle⟩ := ih (parent i) hlt hparent (hlt.trans hi)
      exact ⟨c, hc, hcn, h.trans hle (hheap i hpos hi hparent)⟩

/-- A heap below the first place is a whole one if the first item comes before both children. -/
theorem HeapFrom.of_children (hheap : HeapFrom le 1 n a)
    (hroot : ∀ c, (c = 1 ∨ c = 2) → c < n → le (a 0) (a c)) : HeapFrom le 0 n a := by
  intro i hi hin _
  rcases Nat.eq_zero_or_pos (parent i) with hzero | hparent
  · rw [hzero]
    exact hroot i ((parent_eq_iff hi).mp hzero) hin
  · exact hheap i hi hin hparent

end SiftDown

end ArrayHeap
