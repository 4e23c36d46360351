import Mathlib.Tactic

/-!
# Linear probing on a circle of slots

A table of `n` slots is a function from slot numbers to optional elements, read only below
`n`; each element has a home slot, and a search starts there and moves forward, wrapping at the
end.  `dist n a b` counts the steps forward from `a` to `b`.  The table is `Settled` when no
empty slot stands between the home of an element and the slot that holds it, which is what lets
a search stop at the first empty slot.

Adding an element at the first empty slot after its home keeps the table settled
(`settled_put`).  Removing one does not, and the slots behind the hole are visited in order
until the next empty slot: `Holed` is the invariant of that walk, with one lemma for each of the
three things a visit can do.
-/

namespace Probe

variable {E : Type*}

/-- The steps forward from slot `a` to slot `b` on a circle of `n` slots. -/
def dist (n a b : ℕ) : ℕ := (b + n - a) % n

/-- The slot after `v`. -/
def succ (n v : ℕ) : ℕ := if v + 1 = n then 0 else v + 1

variable {n a b c u v w : ℕ}

theorem succ_lt (hv : v < n) : succ n v < n := by
  unfold succ
  split
  · omega
  · omega

theorem dist_eq (ha : a < n) (hb : b < n) :
    dist n a b = if a ≤ b then b - a else b + n - a := by
  unfold dist
  split
  next hab =>
    have hsum : b + n - a = (b - a) + n := by omega
    rw [hsum, Nat.add_mod_right]
    exact Nat.mod_eq_of_lt (by omega)
  next hab =>
    exact Nat.mod_eq_of_lt (by omega)

theorem dist_lt (ha : a < n) (hb : b < n) : dist n a b < n := by
  rw [dist_eq ha hb]
  split
  · omega
  · omega

theorem dist_self (ha : a < n) : dist n a a = 0 := by
  rw [dist_eq ha ha, if_pos le_rfl]
  omega

theorem dist_eq_zero (ha : a < n) (hb : b < n) : dist n a b = 0 ↔ a = b := by
  rw [dist_eq ha hb]
  split
  · omega
  · omega

/-- Going from `a` to `c` by way of `b` takes the direct number of steps, or one full circle
more. -/
theorem dist_by_way (ha : a < n) (hb : b < n) (hc : c < n) :
    dist n a b + dist n b c = dist n a c ∨ dist n a b + dist n b c = dist n a c + n := by
  rw [dist_eq ha hb, dist_eq hb hc, dist_eq ha hc]
  split <;> split <;> split <;> omega

theorem dist_inj (ha : a < n) (hb : b < n) (hc : c < n) (h : dist n a b = dist n a c) :
    b = c := by
  rw [dist_eq ha hb, dist_eq ha hc] at h
  split at h <;> split at h <;> omega

/-- One step further on, unless that step closes the circle. -/
theorem dist_succ (ha : a < n) (hv : v < n) (h : dist n a v + 1 < n) :
    dist n a (succ n v) = dist n a v + 1 := by
  rw [dist_eq ha hv] at h
  rw [dist_eq ha hv, dist_eq ha (succ_lt hv)]
  unfold succ
  split_ifs at h ⊢ <;> omega

theorem succ_eq_start (ha : a < n) (hv : v < n) :
    succ n v = a ↔ dist n a v + 1 = n := by
  rw [dist_eq ha hv]
  unfold succ
  split <;> split <;> omega

/-- No empty slot stands between the home of an element and the slot that holds it. -/
def Settled (n : ℕ) (home : E → ℕ) (slots : ℕ → Option E) : Prop :=
  ∀ w < n, ∀ u < n, ∀ e, slots w = some e →
    dist n (home e) u < dist n (home e) w → slots u ≠ none

variable {home : E → ℕ} {slots : ℕ → Option E}

theorem settled_empty (h : ∀ w < n, slots w = none) : Settled n home slots := by
  intro w hw u _ e he
  rw [h w hw] at he
  exact absurd he (by simp)

/-- A new element goes in the first empty slot at or after its home. -/
theorem settled_put (hset : Settled n home slots) {e : E}
    (hpath : ∀ u < n, dist n (home e) u < dist n (home e) v → slots u ≠ none) :
    Settled n home (Function.update slots v (some e)) := by
  intro w hw u hu f hf hlt
  by_cases huv : u = v
  · subst huv
    rw [Function.update_self]
    exact Option.some_ne_none e
  · rw [Function.update_of_ne huv]
    by_cases hwv : w = v
    · subst hwv
      rw [Function.update_self] at hf
      cases hf
      exact hpath u hu hlt
    · rw [Function.update_of_ne hwv] at hf
      exact hset w hw u hu f hf hlt

/-- An element takes the slot of another one with the same home. -/
theorem settled_replace (hset : Settled n home slots) (hv : v < n) {e f : E}
    (hf : slots v = some f) (hhome : home e = home f) :
    Settled n home (Function.update slots v (some e)) := by
  apply settled_put hset
  intro u hu hlt
  rw [hhome] at hlt
  exact hset v hv u hu f hf hlt

/-- The state of a walk that closes the hole left at `v`: the `d` slots behind it have been
visited.  None of them is empty and none of their elements was reached across the hole; no
element anywhere was reached across another empty slot. -/
structure Holed (n : ℕ) (home : E → ℕ) (slots : ℕ → Option E) (v d : ℕ) : Prop where
  lt : v < n
  hole : slots v = none
  across : ∀ w < n, ∀ u < n, ∀ e, slots w = some e →
    dist n (home e) u < dist n (home e) w → slots u = none → u = v
  visited : ∀ w < n, ∀ e, slots w = some e → dist n v w ≤ d →
    dist n (home e) w ≤ dist n (home e) v
  full : ∀ u < n, 0 < dist n v u → dist n v u ≤ d → slots u ≠ none

/-- A slot of a settled table is emptied. -/
theorem holed_of_settled (hset : Settled n home slots) (hv : v < n) :
    Holed n home (Function.update slots v none) v 0 := by
  refine ⟨hv, Function.update_self v none slots, ?_, ?_, ?_⟩
  · intro w hw u hu e he hlt hnone
    by_contra huv
    rw [Function.update_of_ne huv] at hnone
    by_cases hwv : w = v
    · subst hwv
      rw [Function.update_self] at he
      exact absurd he (by simp)
    · rw [Function.update_of_ne hwv] at he
      exact hset w hw u hu e he hlt hnone
  · intro w hw e _ hd
    have hwv : v = w := (dist_eq_zero hv hw).mp (by omega)
    rw [hwv]
  · intro u _ hpos hle
    omega

section Walk

variable {d vn : ℕ} (hh : Holed n home slots v d) (hvn : vn < n) (hd : dist n v vn = d + 1)
include hh hvn hd

/-- The walk meets an empty slot: the table is settled again. -/
theorem Holed.settled (hhome : ∀ e, home e < n) (hnone : slots vn = none) :
    Settled n home slots := by
  intro w hw u hu e he hlt hu0
  have huv : u = v := hh.across w hw u hu e he hlt hu0
  subst huv
  by_cases hnear : dist n u w ≤ d
  · have hle := hh.visited w hw e he hnear
    omega
  · -- the element was reached across the hole and so across the empty slot behind it too
    have hwvn : dist n u w ≠ d + 1 := by
      intro h
      have hw' : w = vn := dist_inj hh.lt hw hvn (by omega)
      rw [hw', hnone] at he
      exact absurd he (by simp)
    have h1 := dist_by_way (hhome e) hh.lt hw
    have h2 := dist_by_way (hhome e) hh.lt hvn
    have h3 := dist_lt (hhome e) hvn
    have h4 := dist_lt (hhome e) hw
    have h5 := dist_lt hh.lt hw
    have hlt' : dist n (home e) vn < dist n (home e) w := by omega
    have hvn' : vn = u := hh.across w hw vn hvn e he hlt' hnone
    rw [hvn', dist_self hh.lt] at hd
    omega

/-- The visited element was not reached across the hole: it stays. -/
theorem Holed.stay {e : E} (he : slots vn = some e)
    (hnear : dist n (home e) vn < dist n v vn) (hhome : home e < n) :
    Holed n home slots v (d + 1) := by
  refine ⟨hh.lt, hh.hole, hh.across, ?_, ?_⟩
  · intro w hw f hf hle
    by_cases hlast : dist n v w ≤ d
    · exact hh.visited w hw f hf hlast
    · have hw' : w = vn := dist_inj hh.lt hw hvn (by omega)
      subst hw'
      rw [he] at hf
      cases hf
      have h1 := dist_by_way hhome hh.lt hw
      have h2 := dist_lt hhome hh.lt
      have h3 := dist_lt hhome hw
      have h4 := dist_lt hh.lt hw
      omega
  · intro u hu hpos hle
    by_cases hlast : dist n v u ≤ d
    · exact hh.full u hu hpos hlast
    · have hu' : u = vn := dist_inj hh.lt hu hvn (by omega)
      rw [hu', he]
      exact Option.some_ne_none e

/-- The visited element was reached across the hole: it moves there, and leaves a new one. -/
theorem Holed.move {e : E} (he : slots vn = some e)
    (hfar : dist n v vn ≤ dist n (home e) vn) (hhome : home e < n) :
    Holed n home (Function.update (Function.update slots v (some e)) vn none) vn 0 := by
  have hne : vn ≠ v := by
    intro h
    rw [h, dist_self hh.lt] at hd
    omega
  refine ⟨hvn, by rw [Function.update_self], ?_, ?_, ?_⟩
  · intro w hw u hu f hf hlt hnone
    by_contra huvn
    rw [Function.update_of_ne huvn] at hnone
    have huv : u ≠ v := by
      intro h
      rw [h, Function.update_self] at hnone
      exact absurd hnone (by simp)
    rw [Function.update_of_ne huv] at hnone
    have hwvn : w ≠ vn := by
      intro h
      rw [h, Function.update_self] at hf
      exact absurd hf (by simp)
    rw [Function.update_of_ne hwvn] at hf
    by_cases hwv : w = v
    · subst hwv
      rw [Function.update_self] at hf
      cases hf
      have h1 := dist_by_way hhome hh.lt hvn
      have h2 := dist_lt hhome hvn
      have h3 := dist_lt hhome hh.lt
      have hlt' : dist n (home e) u < dist n (home e) vn := by omega
      exact huv (hh.across vn hvn u hu e he hlt' hnone)
    · rw [Function.update_of_ne hwv] at hf
      exact huv (hh.across w hw u hu f hf hlt hnone)
  · intro w hw f _ hle
    have hw' : vn = w := (dist_eq_zero hvn hw).mp (by omega)
    rw [hw']
  · intro u _ hpos hle
    omega

end Walk

/-! ### The first slot where a search stops -/

/-- `v` is the first slot from `a` on where a search stops. -/
structure FirstAt (n : ℕ) (stop : ℕ → Prop) (a v : ℕ) : Prop where
  lt : v < n
  stops : stop v
  before : ∀ u < n, dist n a u < dist n a v → ¬ stop u

variable {stop : ℕ → Prop}

theorem exists_firstAt (hstop : ∃ z < n, stop z) (a : ℕ) : ∃ v, FirstAt n stop a v := by
  classical
  obtain ⟨z, hz, hzstop⟩ := hstop
  have hmem : z ∈ (Finset.range n).filter stop :=
    Finset.mem_filter.2 ⟨Finset.mem_range.2 hz, hzstop⟩
  obtain ⟨v, hv, hmin⟩ := Finset.exists_min_image _ (dist n a) ⟨z, hmem⟩
  obtain ⟨hvn, hvstop⟩ := Finset.mem_filter.1 hv
  refine ⟨v, Finset.mem_range.1 hvn, hvstop, fun u hu hlt hustop => ?_⟩
  exact Nat.not_le.2 hlt (hmin u (Finset.mem_filter.2 ⟨Finset.mem_range.2 hu, hustop⟩))

end Probe
