import Mathlib.Tactic

/-!
# Ring buffers

The elements of a circular array of `n` places: `count` of them, from a first place on.
-/

namespace RingBuffer

variable {α : Type*}

def contents (n : ℕ) (elements : ℕ → α) : ℕ → ℕ → List α
  | 0, _ => []
  | count + 1, cur => elements cur :: contents n elements count ((cur + 1) % n)

variable {n cur count p : ℕ} {elements : ℕ → α}

theorem mod_add_succ (n cur i : ℕ) : ((cur + 1) % n + i) % n = (cur + (i + 1)) % n := by
  rw [Nat.mod_add_mod, Nat.add_assoc, Nat.add_comm 1 i]

/-- The last of the elements. -/
theorem contents_succ (hcur : cur < n) (count : ℕ) :
    contents n elements (count + 1) cur =
      contents n elements count cur ++ [elements ((cur + count) % n)] := by
  induction count generalizing cur with
  | zero =>
    change _ = [] ++ [elements (cur % n)]
    rw [Nat.mod_eq_of_lt hcur]
    rfl
  | succ count ih =>
    have hnext : (cur + 1) % n < n := Nat.mod_lt _ (Nat.zero_lt_of_lt hcur)
    rw [contents, ih hnext, mod_add_succ]
    rfl

/-- A place that is not one of them is written. -/
theorem contents_update (hcur : cur < n) (hp : ∀ i < count, (cur + i) % n ≠ p) (x : α) :
    contents n (Function.update elements p x) count cur = contents n elements count cur := by
  induction count generalizing cur with
  | zero => rfl
  | succ count ih =>
    have hnext : (cur + 1) % n < n := Nat.mod_lt _ (Nat.zero_lt_of_lt hcur)
    have hfirst := hp 0 (Nat.succ_pos count)
    rw [Nat.add_zero, Nat.mod_eq_of_lt hcur] at hfirst
    unfold contents
    rw [Function.update_of_ne hfirst, ih hnext]
    intro i hi
    rw [mod_add_succ]
    exact hp (i + 1) (Nat.succ_lt_succ hi)

/-- Within one lap all places are different. -/
theorem place_ne {i j : ℕ} (hij : i < j) (hj : j < n + i) : (cur + i) % n ≠ (cur + j) % n := by
  intro h
  have hmod : i ≡ j [MOD n] := Nat.ModEq.add_left_cancel' cur h
  have hdvd := (Nat.modEq_iff_dvd' hij.le).mp hmod
  have hle := Nat.le_of_dvd (Nat.sub_pos_of_lt hij) hdvd
  omega

/-- An element is written behind the last one. -/
theorem contents_push (hcur : cur < n) (hcount : count < n) (x : α) :
    contents n (Function.update elements ((cur + count) % n) x) (count + 1) cur =
      contents n elements count cur ++ [x] := by
  rw [contents_succ hcur, Function.update_self, contents_update hcur]
  intro i hi
  exact place_ne hi (hcount.trans_le (Nat.le_add_right n i))

end RingBuffer
