import Mathlib

/-!
# Closed ranges stored by their ends

A finite set of natural numbers can be stored as the list of the first and the last number of each
of its ranges, in increasing order.  Unlike the cuts of `Library.CutList` the ends are numbers of the
set, and two neighbouring ranges may have a number in common.

`Covers b ends v` says that `v` is in the set when the list is read from a place inside a range (`b`
is true) or outside of all ranges.
-/

namespace RangeEnds

/-- The number belongs to the rest of a set, of which a range is open if `b` is true. -/
def Covers : Bool → List ℕ → ℕ → Prop
  | b, [], _ => b = true
  | true, x :: xs, v => v ≤ x ∨ Covers false xs v
  | false, x :: xs, v => x ≤ v ∧ Covers true xs v

/-- A range is open behind some ends. -/
def after : Bool → List ℕ → Bool
  | b, [] => b
  | b, _ :: xs => after (!b) xs

theorem after_append (b : Bool) (xs ys : List ℕ) : after b (xs ++ ys) = after (after b xs) ys := by
  induction xs generalizing b with
  | nil => rfl
  | cons x xs ih => exact ih (!b)

section Covers

variable {b : Bool} {xs ys : List ℕ} {v x : ℕ}

/-- In an open range, a number before all other ends is in the set. -/
theorem covers_true (h : ∀ x ∈ xs, v ≤ x) : Covers true xs v := by
  cases xs with
  | nil => rfl
  | cons x xs => exact Or.inl (h x List.mem_cons_self)

/-- Outside of all ranges, a number before all ends is not in the set. -/
theorem not_covers_false (h : ∀ x ∈ xs, v < x) : ¬ Covers false xs v := by
  cases xs with
  | nil =>
    intro hcovers
    cases hcovers
  | cons x xs =>
    intro hcovers
    exact absurd hcovers.1 (not_le.mpr (h x List.mem_cons_self))

/-- Ends above a number do not matter to it. -/
theorem covers_of_lt (h : ∀ x ∈ xs, v < x) : Covers b xs v ↔ b = true := by
  cases b with
  | false =>
    constructor
    · intro hcovers
      exact absurd hcovers (not_covers_false h)
    · intro hfalse
      cases hfalse
  | true =>
    constructor
    · intro _
      rfl
    · intro _
      exact covers_true fun x hx => (h x hx).le

/-- Ends above a number do not matter to it, at the end of a list. -/
theorem covers_append_of_lt (h : ∀ y ∈ ys, v < y) : Covers b (xs ++ ys) v ↔ Covers b xs v := by
  induction xs generalizing b with
  | nil => exact covers_of_lt h
  | cons x xs ih =>
    cases b with
    | false => exact and_congr_right fun _ => ih
    | true => exact or_congr_right ih

/-- The same for an end that is the number itself, if a range is open there. -/
theorem covers_append_of_le (hopen : after b xs = true) (h : ∀ y ∈ ys, v ≤ y) :
    Covers b (xs ++ ys) v ↔ Covers b xs v := by
  induction xs generalizing b with
  | nil =>
    have hb : b = true := hopen
    subst hb
    constructor
    · intro _
      rfl
    · intro _
      exact covers_true h
  | cons x xs ih =>
    cases b with
    | false => exact and_congr_right fun _ => ih hopen
    | true => exact or_congr_right (ih hopen)

/-- Ends below a number only open and close ranges. -/
theorem covers_append_of_gt (h : ∀ x ∈ xs, x < v) :
    Covers b (xs ++ ys) v ↔ Covers (after b xs) ys v := by
  induction xs generalizing b with
  | nil => rfl
  | cons x xs ih =>
    have hx := h x List.mem_cons_self
    have hrest := fun y hy => h y (List.mem_cons_of_mem _ hy)
    cases b with
    | false =>
      rw [List.cons_append, Covers, after, ih hrest]
      exact and_iff_right hx.le
    | true =>
      rw [List.cons_append, Covers, after, ih hrest]
      exact or_iff_right (not_le.mpr hx)

/-- A number behind all ends is in the set if a range is open there. -/
theorem covers_of_ge (hopen : after b xs = true) (h : ∀ x ∈ xs, x ≤ v) : Covers b xs v := by
  induction xs generalizing b with
  | nil => exact hopen
  | cons x xs ih =>
    have hrest := ih hopen fun y hy => h y (List.mem_cons_of_mem _ hy)
    cases b with
    | false => exact ⟨h x List.mem_cons_self, hrest⟩
    | true => exact Or.inr hrest

end Covers

/-! ## Reading on behind a list -/

/-- The number belongs to the ranges of a list, behind which `rest` takes over. -/
def CoversThen : Bool → List ℕ → (ℕ → Prop) → ℕ → Prop
  | _, [], rest, v => rest v
  | true, x :: xs, rest, v => v ≤ x ∨ CoversThen false xs rest v
  | false, x :: xs, rest, v => x ≤ v ∧ CoversThen true xs rest v

section CoversThen

variable {b : Bool} {xs ys : List ℕ} {rest rest' : ℕ → Prop} {v : ℕ}

theorem coversThen_append :
    CoversThen b (xs ++ ys) rest v ↔ CoversThen b xs (CoversThen (after b xs) ys rest) v := by
  induction xs generalizing b with
  | nil => rfl
  | cons x xs ih =>
    cases b with
    | false => exact and_congr_right fun _ => ih
    | true => exact or_congr_right ih

theorem covers_append :
    Covers b (xs ++ ys) v ↔ CoversThen b xs (Covers (after b xs) ys) v := by
  induction xs generalizing b with
  | nil => rfl
  | cons x xs ih =>
    cases b with
    | false => exact and_congr_right fun _ => ih
    | true => exact or_congr_right ih

theorem coversThen_congr (h : ∀ v, rest v ↔ rest' v) :
    CoversThen b xs rest v ↔ CoversThen b xs rest' v := by
  induction xs generalizing b with
  | nil => exact h v
  | cons x xs ih =>
    cases b with
    | false => exact and_congr_right fun _ => ih
    | true => exact or_congr_right ih

/-- Nothing takes over behind ranges that are all closed. -/
theorem coversThen_closed (hclosed : after b xs = false) (h : ∀ v, ¬ rest v) :
    CoversThen b xs rest v ↔ Covers b xs v := by
  induction xs generalizing b with
  | nil =>
    have hb : b = false := hclosed
    subst hb
    exact iff_of_false (h v) Bool.false_ne_true
  | cons x xs ih =>
    cases b with
    | false => exact and_congr_right fun _ => ih hclosed
    | true => exact or_congr_right (ih hclosed)

/-- What takes over has the last word on the numbers behind a list. -/
theorem coversThen_of_ge (h : ∀ x ∈ xs, x ≤ v) (hrest : rest v) : CoversThen b xs rest v := by
  induction xs generalizing b with
  | nil => exact hrest
  | cons x xs ih =>
    have hrest' := fun y hy => h y (List.mem_cons_of_mem _ hy)
    cases b with
    | false => exact ⟨h x List.mem_cons_self, ih hrest'⟩
    | true => exact Or.inr (ih hrest')

end CoversThen

/-! ## Adding and removing a range -/

section Edit

variable {below among above start finish : List ℕ} {lo hi v : ℕ}

/-- A list that has a range opened below `lo` or at it, and not closed up to `hi`. -/
theorem covers_added (hlh : lo ≤ hi) (hbelow : ∀ x ∈ below, x < lo)
    (hamong : ∀ x ∈ among, x ≤ hi) (habove : ∀ x ∈ above, hi < x)
    (hstart : after false start = true) (hstartLe : ∀ x ∈ start, x ≤ lo)
    (hstartCovers : v < lo → (Covers false start v ↔ Covers false below v))
    (hfinishGe : ∀ x ∈ finish, hi ≤ x)
    (hfinishCovers : hi < v →
      (Covers true finish v ↔ Covers (after false (below ++ among)) above v))
    (hamongGe : ∀ x ∈ among, lo ≤ x) :
    Covers false (start ++ finish) v ↔
      Covers false (below ++ among ++ above) v ∨ (lo ≤ v ∧ v ≤ hi) := by
  rcases lt_or_ge v lo with hlt | hge
  · have hfinish : ∀ x ∈ finish, v < x := fun x hx => (hlt.trans_le hlh).trans_le (hfinishGe x hx)
    have hrest : ∀ x ∈ among ++ above, v < x := by
      intro x hx
      rcases List.mem_append.mp hx with hx | hx
      · exact hlt.trans_le (hamongGe x hx)
      · exact (hlt.trans_le hlh).trans (habove x hx)
    rw [covers_append_of_lt hfinish, hstartCovers hlt, List.append_assoc, covers_append_of_lt hrest]
    constructor
    · exact Or.inl
    · rintro (hcovers | ⟨hle, -⟩)
      · exact hcovers
      · exact absurd hle (not_le.mpr hlt)
  · rcases lt_or_ge hi v with hlt | hle
    · have hstart' : ∀ x ∈ start, x < v := fun x hx => ((hstartLe x hx).trans hlh).trans_lt hlt
      have hrest : ∀ x ∈ below ++ among, x < v := by
        intro x hx
        rcases List.mem_append.mp hx with hx | hx
        · exact (hbelow x hx).trans_le hge
        · exact (hamong x hx).trans_lt hlt
      rw [covers_append_of_gt hstart', hstart, hfinishCovers hlt, covers_append_of_gt hrest]
      constructor
      · exact Or.inl
      · rintro (hcovers | ⟨-, hle⟩)
        · exact hcovers
        · exact absurd hle (not_le.mpr hlt)
    · have hopen : Covers false (start ++ finish) v := by
        rw [covers_append_of_le hstart fun x hx => hle.trans (hfinishGe x hx)]
        exact covers_of_ge hstart fun x hx => (hstartLe x hx).trans hge
      exact iff_of_true hopen (Or.inr ⟨hge, hle⟩)

/-- A list that has all ranges closed before `lo`, and opened behind `hi`. -/
theorem covers_removed (hlh : lo ≤ hi) (hbelow : ∀ x ∈ below, x < lo)
    (hamong : ∀ x ∈ among, x ≤ hi) (habove : ∀ x ∈ above, hi < x)
    (hstart : after false start = false) (hstartLt : ∀ x ∈ start, x < lo)
    (hstartCovers : v < lo → (Covers false start v ↔ Covers false below v))
    (hfinishGt : ∀ x ∈ finish, hi < x)
    (hfinishCovers : hi < v →
      (Covers false finish v ↔ Covers (after false (below ++ among)) above v))
    (hamongGe : ∀ x ∈ among, lo ≤ x) :
    Covers false (start ++ finish) v ↔
      Covers false (below ++ among ++ above) v ∧ ¬ (lo ≤ v ∧ v ≤ hi) := by
  rcases lt_or_ge v lo with hlt | hge
  · have hfinish : ∀ x ∈ finish, v < x := fun x hx => (hlt.trans_le hlh).trans (hfinishGt x hx)
    have hrest : ∀ x ∈ among ++ above, v < x := by
      intro x hx
      rcases List.mem_append.mp hx with hx | hx
      · exact hlt.trans_le (hamongGe x hx)
      · exact (hlt.trans_le hlh).trans (habove x hx)
    rw [covers_append_of_lt hfinish, hstartCovers hlt, List.append_assoc, covers_append_of_lt hrest]
    constructor
    · intro hcovers
      exact ⟨hcovers, fun hle => absurd hle.1 (not_le.mpr hlt)⟩
    · exact And.left
  · have hstart' : ∀ x ∈ start, x < v := fun x hx => (hstartLt x hx).trans_le hge
    rw [covers_append_of_gt hstart', hstart]
    rcases lt_or_ge hi v with hlt | hle
    · have hrest : ∀ x ∈ below ++ among, x < v := by
        intro x hx
        rcases List.mem_append.mp hx with hx | hx
        · exact (hbelow x hx).trans_le hge
        · exact (hamong x hx).trans_lt hlt
      rw [hfinishCovers hlt, covers_append_of_gt hrest]
      constructor
      · intro hcovers
        exact ⟨hcovers, fun hle => absurd hle.2 (not_le.mpr hlt)⟩
      · exact And.left
    · have hclosed : ¬ Covers false finish v :=
        not_covers_false fun x hx => hle.trans_lt (hfinishGt x hx)
      exact iff_of_false hclosed fun hboth => hboth.2 ⟨hge, hle⟩

end Edit

end RangeEnds
