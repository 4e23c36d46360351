import HpccPlatform.Csv.Splitter

/-!
# Texts of any length

The `StringMatcher` of `jregexp.cpp`: tables of 256 elements, where an element tells what the text up
to it stands for and may have the table for longer texts.  A match is the longest text that the bytes
begin with, so on a part of the bytes only it may be another one.
-/

namespace CsvStream

open Csv (MatchItem)

/-- `StringMatcher::entry`, without or with a table. -/
inductive Entry where
  | leaf (value : MatchItem)
  | node (value : MatchItem) (table : UInt8 → Entry)

/-- `firstLevel` -/
abbrev StringMatcher := UInt8 → Entry

def Entry.value : Entry → MatchItem
  | .leaf v => v
  | .node v _ => v

/-- An element is given its value, if it has none or the same; `text` is what follows it. -/
def Entry.add (action : MatchItem) : Entry → List UInt8 → Option Entry
  | .leaf v, [] => if v = action ∨ v = .none then some (.leaf action) else none
  | .node v table, [] => if v = action ∨ v = .none then some (.node action table) else none
  | .leaf v, c :: text =>
    (add action (.leaf .none) text).map fun element => .node v (Function.update (fun _ => .leaf .none) c element)
  | .node v table, c :: text =>
    (add action (table c) text).map fun element => .node v (Function.update table c element)

namespace StringMatcher

def empty : StringMatcher := fun _ => .leaf .none

/-- There is no result where the source returns false. -/
def queryAddEntry (m : StringMatcher) (action : MatchItem) : List UInt8 → Option StringMatcher
  | [] => none
  | c :: text => ((m c).add action text).map (Function.update m c)

/-- The loop of `getMatch` at an element, with `n` bytes behind the cursor and the best match so far. -/
def walk : Entry → List UInt8 → ℕ → MatchItem × ℕ → MatchItem × ℕ
  | .node v table, c :: text, n, best =>
    walk (table c) text (n + 1) (if v ≠ .none then (v, n) else best)
  | .node v _, [], n, best => if v ≠ .none then (v, n) else best
  | .leaf v, _, n, best => if v ≠ .none then (v, n) else best

/-- What the bytes begin with, and its length. -/
def getMatch (m : StringMatcher) : List UInt8 → MatchItem × ℕ
  | [] => (.none, 0)
  | c :: text => walk (m c) text 1 (.none, 0)

end StringMatcher

/-! ### What is matched -/

namespace StringMatcher

variable {m : StringMatcher}

theorem walk_cases (e : Entry) (text : List UInt8) (n : ℕ) (best : MatchItem × ℕ) :
    walk e text n best = best ∨
      (walk e text n best).1 ≠ .none ∧ n ≤ (walk e text n best).2 ∧
        (walk e text n best).2 ≤ n + text.length := by
  induction text generalizing e n best with
  | nil =>
    cases e with
    | leaf v =>
      rw [walk]
      by_cases hv : v ≠ .none
      · rw [if_pos hv]
        exact Or.inr ⟨hv, le_rfl, Nat.le_add_right _ _⟩
      · rw [if_neg hv]
        exact Or.inl rfl
    | node v table =>
      rw [walk]
      by_cases hv : v ≠ .none
      · rw [if_pos hv]
        exact Or.inr ⟨hv, le_rfl, Nat.le_add_right _ _⟩
      · rw [if_neg hv]
        exact Or.inl rfl
  | cons c text ih =>
    cases e with
    | leaf v =>
      rw [walk]
      by_cases hv : v ≠ .none
      · rw [if_pos hv]
        exact Or.inr ⟨hv, le_rfl, Nat.le_add_right _ _⟩
      · rw [if_neg hv]
        exact Or.inl rfl
    | node v table =>
      rw [walk]
      by_cases hv : v ≠ .none
      · rw [if_pos hv]
        rcases ih (table c) (n + 1) (v, n) with heq | ⟨hne, hge, hle⟩
        · rw [heq]
          exact Or.inr ⟨hv, le_rfl, Nat.le_add_right _ _⟩
        · refine Or.inr ⟨hne, Nat.le_of_succ_le hge, hle.trans_eq ?_⟩
          rw [List.length_cons, Nat.add_assoc, Nat.add_comm 1]
      · rw [if_neg hv]
        rcases ih (table c) (n + 1) best with heq | ⟨hne, hge, hle⟩
        · exact Or.inl heq
        · refine Or.inr ⟨hne, Nat.le_of_succ_le hge, hle.trans_eq ?_⟩
          rw [List.length_cons, Nat.add_assoc, Nat.add_comm 1]

/-- With more bytes the match is the same or goes on into them. -/
theorem walk_append (e : Entry) (text more : List UInt8) (n : ℕ) (best : MatchItem × ℕ) :
    walk e (text ++ more) n best = walk e text n best ∨
      n + text.length < (walk e (text ++ more) n best).2 := by
  induction text generalizing e n best with
  | nil =>
    cases e with
    | leaf v => exact Or.inl (by rw [walk, walk])
    | node v table =>
      cases more with
      | nil => exact Or.inl rfl
      | cons c more =>
        rw [List.nil_append, walk, walk]
        rcases walk_cases (table c) more (n + 1) (if v ≠ .none then (v, n) else best) with
          heq | ⟨-, hge, -⟩
        · exact Or.inl heq
        · exact Or.inr hge
  | cons c text ih =>
    cases e with
    | leaf v => exact Or.inl (by rw [walk, walk])
    | node v table =>
      rw [List.cons_append, walk, walk, List.length_cons, Nat.add_comm text.length, ← Nat.add_assoc]
      exact ih (table c) (n + 1) _

theorem getMatch_cases (text : List UInt8) :
    m.getMatch text = (.none, 0) ∨
      (m.getMatch text).1 ≠ .none ∧ 0 < (m.getMatch text).2 ∧ (m.getMatch text).2 ≤ text.length := by
  cases text with
  | nil => exact Or.inl rfl
  | cons c text =>
    rw [getMatch, List.length_cons, Nat.add_comm]
    exact walk_cases (m c) text 1 (.none, 0)

theorem getMatch_le (text : List UInt8) : (m.getMatch text).2 ≤ text.length := by
  rcases getMatch_cases text with heq | ⟨-, -, hle⟩
  · rw [heq]
    exact Nat.zero_le _
  · exact hle

/-- A match that differs on more bytes goes on into them. -/
theorem getMatch_append (text more : List UInt8) :
    m.getMatch (text ++ more) = m.getMatch text ∨ text.length < (m.getMatch (text ++ more)).2 := by
  cases text with
  | nil =>
    rcases getMatch_cases more with heq | ⟨-, hpos, -⟩
    · exact Or.inl heq
    · exact Or.inr hpos
  | cons c text =>
    rw [List.cons_append, getMatch, getMatch, List.length_cons, Nat.add_comm]
    exact walk_append (m c) text more 1 (.none, 0)

end StringMatcher

end CsvStream
