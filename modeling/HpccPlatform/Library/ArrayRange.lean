import HpccPlatform.Library.ArrayHeap
import HpccPlatform.Library.Comparison

/-!
# Ranges of an array

A range of an array is given by its first place and the place behind it.  Its items may be
rearranged, with all others where they were, and they may be in order.
-/

namespace ArrayRange

open ArrayHeap (exchange exchange_left exchange_right exchange_of_ne)

variable {α : Type*} {a b c : ℕ → α} {lo up lo' up' i j : ℕ} {icmp : α → α → ℤ}

/-- The items from `lo` up to `up` only change their places. -/
def RearrangedOn (lo up : ℕ) (a b : ℕ → α) : Prop :=
  ∃ σ : Equiv.Perm ℕ, b = a ∘ σ ∧ ∀ i, i < lo ∨ up ≤ i → σ i = i

namespace RearrangedOn

theorem refl (lo up : ℕ) (a : ℕ → α) : RearrangedOn lo up a a := ⟨Equiv.refl ℕ, rfl, fun _ _ => rfl⟩

theorem trans (h : RearrangedOn lo up a b) (h' : RearrangedOn lo up b c) : RearrangedOn lo up a c := by
  obtain ⟨σ, rfl, hσ⟩ := h
  obtain ⟨τ, rfl, hτ⟩ := h'
  refine ⟨τ.trans σ, rfl, fun i hi => ?_⟩
  rw [Equiv.trans_apply, hτ i hi, hσ i hi]

theorem mono (h : RearrangedOn lo up a b) (hlo : lo' ≤ lo) (hup : up ≤ up') :
    RearrangedOn lo' up' a b := by
  obtain ⟨σ, hb, hσ⟩ := h
  exact ⟨σ, hb, fun i hi => hσ i (hi.imp (fun h => h.trans_le hlo) fun h => hup.trans h)⟩

theorem of_exchange (a : ℕ → α) (hi : lo ≤ i ∧ i < up) (hj : lo ≤ j ∧ j < up) :
    RearrangedOn lo up a (exchange a i j) := by
  refine ⟨Equiv.swap i j, rfl, fun k hk => Equiv.swap_apply_of_ne_of_ne ?_ ?_⟩ <;> omega

theorem outside (h : RearrangedOn lo up a b) (hi : i < lo ∨ up ≤ i) : b i = a i := by
  obtain ⟨σ, rfl, hσ⟩ := h
  rw [Function.comp_apply, hσ i hi]

theorem place_mem {σ : Equiv.Perm ℕ} (hσ : ∀ i, i < lo ∨ up ≤ i → σ i = i) (hlo : lo ≤ i) (hup : i < up) :
    lo ≤ σ i ∧ σ i < up := by
  by_contra hout
  have hfix := σ.injective (hσ (σ i) (by omega))
  omega

/-- What holds for all items of the range goes on to hold. -/
theorem forall_mem (h : RearrangedOn lo up a b) {P : α → Prop} (ha : ∀ i, lo ≤ i → i < up → P (a i)) :
    ∀ i, lo ≤ i → i < up → P (b i) := by
  obtain ⟨σ, rfl, hσ⟩ := h
  intro i hlo hup
  obtain ⟨hlo', hup'⟩ := place_mem hσ hlo hup
  exact ha (σ i) hlo' hup'

/-- An array with the same items in the range can be rearranged alike. -/
theorem transport (h : RearrangedOn lo up a b) (hac : ∀ i, lo ≤ i → i < up → c i = a i) :
    ∃ d, RearrangedOn lo up c d ∧ ∀ i, lo ≤ i → i < up → d i = b i := by
  obtain ⟨σ, rfl, hσ⟩ := h
  refine ⟨c ∘ σ, ⟨σ, rfl, hσ⟩, fun i hlo hup => ?_⟩
  obtain ⟨hlo', hup'⟩ := place_mem hσ hlo hup
  exact hac (σ i) hlo' hup'

theorem perm_range (h : RearrangedOn 0 up a b) : ((List.range up).map b).Perm ((List.range up).map a) := by
  obtain ⟨σ, rfl, hσ⟩ := h
  have hplaces : ((List.range up).map σ).Perm (List.range up) := by
    refine (List.perm_ext_iff_of_nodup (List.nodup_range.map σ.injective) List.nodup_range).mpr fun i => ?_
    rw [List.mem_map, List.mem_range]
    constructor
    · rintro ⟨j, hj, rfl⟩
      exact (place_mem hσ (Nat.zero_le j) (List.mem_range.mp hj)).2
    · intro hi
      have hfix : ∀ j, j < 0 ∨ up ≤ j → σ.symm j = j := fun j hj => by rw [Equiv.symm_apply_eq, hσ j hj]
      exact ⟨σ.symm i, List.mem_range.mpr (place_mem hfix (Nat.zero_le i) hi).2, σ.apply_symm_apply i⟩
  rw [← List.map_map]
  exact hplaces.map a

end RearrangedOn

/-- The items from `lo` up to `up` are in order. -/
def SortedOn (icmp : α → α → ℤ) (lo up : ℕ) (a : ℕ → α) : Prop :=
  ∀ i j, lo ≤ i → i < j → j < up → icmp (a i) (a j) ≤ 0

namespace SortedOn

theorem mono (h : SortedOn icmp lo up a) (hlo : lo ≤ lo') (hup : up' ≤ up) : SortedOn icmp lo' up' a :=
  fun i j hi hij hj => h i j (hlo.trans hi) hij (hj.trans_le hup)

theorem congr (h : SortedOn icmp lo up a) (hab : ∀ i, lo ≤ i → i < up → b i = a i) :
    SortedOn icmp lo up b := fun i j hi hij hj => by
  rw [hab i hi (hij.trans hj), hab j (hi.trans hij.le) hj]
  exact h i j hi hij hj

theorem of_short (h : up ≤ lo + 1) : SortedOn icmp lo up a := fun i j hi hij hj => by omega

end SortedOn

/-! ### An item on its way down -/

/-- The items from `lo` up to `up` are in order, but for the one at `p` and those in front of it. -/
def SortedBut (icmp : α → α → ℤ) (lo up p : ℕ) (a : ℕ → α) : Prop :=
  ∀ i j, lo ≤ i → i < j → j < up → j ≠ p → icmp (a i) (a j) ≤ 0

theorem SortedOn.sortedBut (h : SortedOn icmp lo up a) : SortedBut icmp lo (up + 1) up a :=
  fun i j hi hij hj hne => h i j hi hij (by omega)

/-- The item is at the front, or it does not come before the one in front of it. -/
theorem SortedBut.sortedOn (htrans : TotalPreorder icmp) (h : SortedBut icmp lo up i a)
    (hstop : i ≤ lo ∨ ∃ k, i = k + 1 ∧ icmp (a k) (a i) ≤ 0) : SortedOn icmp lo up a := by
  intro k j hk hkj hj
  by_cases hne : j = i
  · subst hne
    rcases hstop with hle | ⟨p, rfl, hle⟩
    · omega
    · rcases Nat.lt_succ_iff_lt_or_eq.mp hkj with hlt | rfl
      · exact htrans.trans _ _ _ (h k p hk hlt (by omega) (by omega)) hle
      · exact hle
  · exact h k j hk hkj hj hne

/-- The item changes its place with one that is greater. -/
theorem SortedBut.exchange (htrans : TotalPreorder icmp) (h : SortedBut icmp lo up (i + 1) a)
    (hlo : lo ≤ i) (hi : i + 1 < up) (hgt : 0 < icmp (a i) (a (i + 1))) :
    SortedBut icmp lo up i (exchange a (i + 1) i) := by
  intro k j hk hkj hj hne
  have hlt : icmp (a (i + 1)) (a i) ≤ 0 := ((htrans.swap _ _).mp hgt).le
  by_cases hji : j = i + 1
  · rw [hji, exchange_left]
    rcases Nat.lt_succ_iff_lt_or_eq.mp (hji ▸ hkj) with hki | rfl
    · rw [exchange_of_ne a (by omega) hki.ne]
      exact h k i hk hki (by omega) (by omega)
    · rw [exchange_right]
      exact hlt
  · rw [exchange_of_ne a hji hne]
    by_cases hki : k = i + 1
    · rw [hki, exchange_left]
      exact h i j (by omega) (by omega) hj hji
    · by_cases hki' : k = i
      · rw [hki', exchange_right]
        exact h (i + 1) j (by omega) (by omega) hj hji
      · rw [exchange_of_ne a hki hki']
        exact h k j hk hkj hj hji

/-! ### Blocks -/

/-- Two blocks of `r` items have changed places. -/
structure BlocksExchanged (v w r : ℕ) (a b : ℕ → α) : Prop where
  first : ∀ k < r, b (v + k) = a (w + k)
  second : ∀ k < r, b (w + k) = a (v + k)
  other : ∀ i, ¬(v ≤ i ∧ i < v + r) → ¬(w ≤ i ∧ i < w + r) → b i = a i

/-- One more item of each block. -/
theorem BlocksExchanged.step {v w r : ℕ} (hvw : v + (r + 1) ≤ w)
    (h : BlocksExchanged (v + 1) (w + 1) r (exchange a v w) b) : BlocksExchanged v w (r + 1) a b where
  first k hk := by
    rcases k with _ | k
    · rw [Nat.add_zero, Nat.add_zero, h.other v (by omega) (by omega), exchange_left]
    · have hfirst := h.first k (by omega)
      rw [exchange_of_ne a (by omega) (by omega)] at hfirst
      rwa [Nat.add_assoc, Nat.add_assoc, Nat.add_comm 1] at hfirst
  second k hk := by
    rcases k with _ | k
    · rw [Nat.add_zero, Nat.add_zero, h.other w (by omega) (by omega), exchange_right]
    · have hsecond := h.second k (by omega)
      rw [exchange_of_ne a (by omega) (by omega)] at hsecond
      rwa [Nat.add_assoc, Nat.add_assoc, Nat.add_comm 1] at hsecond
  other i hv hw := by
    rw [h.other i (by omega) (by omega), exchange_of_ne a (by omega) (by omega)]

/-- Two neighbouring parts change places if as many items as the shorter one has are exchanged between the
ends. -/
theorem BlocksExchanged.turn {p q r : ℕ} {P Q : α → Prop} (h : BlocksExchanged lo (up - r) r a b)
    (hr : r = min (p - lo) (up - p)) (hlo : lo ≤ p) (hup : p ≤ up) (hq : q = lo + (up - p))
    (hP : ∀ i, lo ≤ i → i < p → P (a i)) (hQ : ∀ i, p ≤ i → i < up → Q (a i)) :
    (∀ i, lo ≤ i → i < q → Q (b i)) ∧ ∀ i, q ≤ i → i < up → P (b i) := by
  have hle : r ≤ p - lo := hr.trans_le (min_le_left _ _)
  have hle' : r ≤ up - p := hr.trans_le (min_le_right _ _)
  have hor : r = p - lo ∨ r = up - p := by omega
  constructor
  · intro i hi hiq
    by_cases hfirst : i < lo + r
    · have heq := h.first (i - lo) (by omega)
      rw [Nat.add_sub_cancel' hi] at heq
      rw [heq]
      exact hQ _ (by omega) (by omega)
    · rw [h.other i (by omega) (by omega)]
      exact hQ i (by omega) (by omega)
  · intro i hi hiup
    by_cases hsecond : up - r ≤ i
    · have heq := h.second (i - (up - r)) (by omega)
      rw [Nat.add_sub_cancel' hsecond] at heq
      rw [heq]
      exact hP _ (by omega) (by omega)
    · rw [h.other i (by omega) (by omega)]
      exact hP i (by omega) (by omega)

/-- A part of items less than `v`, one of items equal to it and one of greater items. -/
theorem SortedOn.of_parts (h : TotalPreorder icmp) {v : α} {p q : ℕ}
    (hless : ∀ i, lo ≤ i → i < p → icmp (a i) v < 0) (hequal : ∀ i, p ≤ i → i < q → icmp (a i) v = 0)
    (hgreater : ∀ i, q ≤ i → i < up → 0 < icmp (a i) v) (hleft : SortedOn icmp lo p a)
    (hright : SortedOn icmp q up a) : SortedOn icmp lo up a := by
  intro i j hi hij hj
  by_cases hip : i < p
  · by_cases hjp : j < p
    · exact hleft i j hi hij hjp
    refine (h.lt_of_lt_of_le (hless i hi hip) ?_).le
    by_cases hjq : j < q
    · exact (h.zero_comm.mp (hequal j (not_lt.mp hjp) hjq)).le
    · exact ((h.swap _ _).mp (hgreater j (not_lt.mp hjq) hj)).le
  by_cases hiq : i < q
  · refine h.trans _ _ _ (hequal i (not_lt.mp hip) hiq).le ?_
    by_cases hjq : j < q
    · exact (h.zero_comm.mp (hequal j (by omega) hjq)).le
    · exact ((h.swap _ _).mp (hgreater j (not_lt.mp hjq) hj)).le
  · exact hright i j (not_lt.mp hiq) hij hj

end ArrayRange
