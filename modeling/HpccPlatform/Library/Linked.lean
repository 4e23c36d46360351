import Mathlib.Tactic

/-!
# Singly linked lists in a heap

Objects are numbered and `next` gives the object behind each.  `Chain next start ids` says that
the list entered at `start` runs through `ids` and ends.  The lemmas say what one write to `next`
does to a chain: nothing when the object is not in it, and an insertion when the object is put
behind one that is.
-/

namespace Linked

variable {next : ℕ → Option ℕ} {start : Option ℕ} {x p q : ℕ} {ids xs ys : List ℕ}

/-- The list entered at `start` runs through `ids`. -/
def Chain (next : ℕ → Option ℕ) : Option ℕ → List ℕ → Prop
  | start, [] => start = none
  | start, x :: ids => start = some x ∧ Chain next (next x) ids

theorem chain_cons (h : Chain next start (x :: ids)) : start = some x ∧ Chain next (next x) ids := h

/-- The entry of a chain is its first object. -/
theorem Chain.head (h : Chain next start ids) : start = ids.head? := by
  cases ids with
  | nil => exact h
  | cons x ids => exact h.1

/-- Behind an object of a chain the chain goes on. -/
theorem Chain.behind (h : Chain next start (xs ++ p :: ys)) : Chain next (next p) ys := by
  induction xs generalizing start with
  | nil => exact h.2
  | cons x xs ih => exact ih h.2

theorem Chain.update (h : Chain next start ids) (hp : p ∉ ids) (v : Option ℕ) :
    Chain (Function.update next p v) start ids := by
  induction ids generalizing start with
  | nil => exact h
  | cons x ids ih =>
    rw [List.mem_cons, not_or] at hp
    refine ⟨h.1, ?_⟩
    rw [Function.update_of_ne (Ne.symm hp.1)]
    exact ih h.2 hp.2

/-- A new object in front of a chain. -/
theorem Chain.push (h : Chain next start ids) (hq : q ∉ ids) :
    Chain (Function.update next q start) (some q) (q :: ids) := by
  refine ⟨rfl, ?_⟩
  rw [Function.update_self]
  exact h.update hq start

/-- A new object behind an object of the chain. -/
theorem Chain.insert (h : Chain next start (xs ++ p :: ys)) (hnodup : (xs ++ p :: ys).Nodup)
    (hq : q ∉ xs ++ p :: ys) :
    Chain (Function.update (Function.update next p (some q)) q (next p)) start
      (xs ++ p :: q :: ys) := by
  induction xs generalizing start with
  | nil =>
    rw [List.nil_append, List.mem_cons, not_or] at hq
    rw [List.nil_append, List.nodup_cons] at hnodup
    refine ⟨h.1, ?_⟩
    rw [Function.update_of_ne (Ne.symm hq.1), Function.update_self]
    refine ⟨rfl, ?_⟩
    rw [Function.update_self]
    exact (Chain.update h.2 hnodup.1 _).update hq.2 _
  | cons x xs ih =>
    rw [List.cons_append, List.mem_cons, not_or] at hq
    rw [List.cons_append, List.nodup_cons] at hnodup
    have hxp : x ≠ p := by
      intro heq
      exact hnodup.1 (heq ▸ List.mem_append_right xs List.mem_cons_self)
    refine ⟨h.1, ?_⟩
    rw [Function.update_of_ne (Ne.symm hq.1), Function.update_of_ne hxp]
    exact ih h.2 hnodup.2 hq.2

/-- An object that has none behind it is put behind the last one. -/
theorem Chain.append (h : Chain next start (xs ++ [p])) (hnodup : (xs ++ [p]).Nodup)
    (hq : q ∉ xs ++ [p]) (hnone : next q = none) :
    Chain (Function.update next p (some q)) start (xs ++ [p] ++ [q]) := by
  have hp : next p = none := h.behind
  have hpq : q ≠ p := by
    rintro rfl
    exact hq (List.mem_append_right xs (List.mem_singleton_self q))
  have hsame : Function.update (Function.update next p (some q)) q (next p) =
      Function.update next p (some q) := by
    rw [hp, ← hnone, Function.update_eq_self_iff, Function.update_of_ne hpq]
  rw [List.append_assoc, ← hsame]
  exact h.insert hnodup hq

/-- The object behind another is left out. -/
theorem Chain.remove (h : Chain next start (xs ++ p :: x :: ys))
    (hnodup : (xs ++ p :: x :: ys).Nodup) :
    Chain (Function.update next p (next x)) start (xs ++ p :: ys) := by
  induction xs generalizing start with
  | nil =>
    rw [List.nil_append, List.nodup_cons, List.mem_cons, not_or] at hnodup
    refine ⟨h.1, ?_⟩
    rw [Function.update_self]
    exact Chain.update h.2.2 hnodup.1.2 _
  | cons y xs ih =>
    rw [List.cons_append, List.nodup_cons] at hnodup
    have hyp : y ≠ p := by
      intro heq
      exact hnodup.1 (heq ▸ List.mem_append_right xs List.mem_cons_self)
    refine ⟨h.1, ?_⟩
    rw [Function.update_of_ne hyp]
    exact ih h.2 hnodup.2

/-- So many objects of the list entered at `start`. -/
def follow (next : ℕ → Option ℕ) : ℕ → Option ℕ → List ℕ
  | 0, _ => []
  | _, none => []
  | fuel + 1, some x => x :: follow next fuel (next x)

theorem Chain.follow_eq (h : Chain next start ids) : follow next ids.length start = ids := by
  induction ids generalizing start with
  | nil => rfl
  | cons x ids ih =>
    rw [h.1]
    exact congrArg (x :: ·) (ih h.2)

end Linked
