import HpccPlatform.StringSet.Combine

/-!
# The members of a union or an intersection

What is left of two sets determines what is left of their union or intersection: a transition of the
result is appended where it begins or ends.  This holds of all sets whose transitions take turns, also
of those in which two ranges share a value.

For equal values the order of the transitions only matters to an intersection: two ranges that have
just one value in common meet there if the first value of the one is taken before the last value of
the other.
-/

namespace HpccPlatform

namespace StringSet

open RangeEnds

variable {V : Type*} {kind : ValueKind V} {rank : V → ℕ} {M : ℕ} {isUnion inA inB : Bool}
  {a b result : List (Transition V)} {t u : Transition V}

/-- Membership in the result. -/
def Combined (isUnion : Bool) (p q : Prop) : Prop := if isUnion then p ∨ q else p ∧ q

theorem combined_comm (isUnion : Bool) (p q : Prop) : Combined isUnion p q ↔ Combined isUnion q p := by
  cases isUnion with
  | false => exact and_comm
  | true => exact or_comm

theorem combine_self (isUnion b : Bool) : combine isUnion b b = b := by
  cases isUnion <;> cases b <;> rfl

/-- What is left of a set, from the number `p` on. -/
structure Rest (rank : V → ℕ) (p : ℕ) (b : Bool) (ts : List (Transition V)) : Prop where
  alternates : Alternates b ts
  closed : after b (ends rank ts) = false
  sorted : (ends rank ts).Pairwise (· ≤ ·)
  ge : ∀ x ∈ ends rank ts, p ≤ x

namespace Rest

variable {p : ℕ} {b : Bool} {ts : List (Transition V)}

theorem from_le {q : ℕ} (h : Rest rank p b ts) (hle : ∀ x ∈ ends rank ts, q ≤ x) :
    Rest rank q b ts :=
  ⟨h.alternates, h.closed, h.sorted, hle⟩

theorem tail (h : Rest rank p b (t :: ts)) : Rest rank (rank t.val) t.state ts := by
  refine ⟨h.alternates.2, ?_, (List.pairwise_cons.mp h.sorted).2, (List.pairwise_cons.mp h.sorted).1⟩
  rw [h.alternates.1]
  exact h.closed

theorem head_le (h : Rest rank p b (t :: ts)) : ∀ x ∈ ends rank (t :: ts), rank t.val ≤ x := by
  intro x hx
  rcases List.mem_cons.mp hx with rfl | hx
  · exact le_rfl
  · exact (List.pairwise_cons.mp h.sorted).1 x hx

end Rest

/-! ### One pass -/

/-- How the result that is left changes at a transition with the number `x`. -/
structure Passes (x : ℕ) (state state' : Bool) (T T' : ℕ → Prop) : Prop where
  same : state = state' → ∀ v, T v ↔ T' v
  opens : state = false → state' = true → ∀ v, T v ↔ x ≤ v ∧ T' v
  closes : state = true → state' = false → ∀ v, T v ↔ v ≤ x ∨ T' v

theorem Passes.congr {x : ℕ} {state state' state₁ state₁' : Bool} {T T' T₁ T₁' : ℕ → Prop}
    (h : Passes x state state' T T') (hstate : state₁ = state) (hstate' : state₁' = state')
    (hT : ∀ v, T₁ v ↔ T v) (hT' : ∀ v, T₁' v ↔ T' v) : Passes x state₁ state₁' T₁ T₁' := by
  subst hstate
  subst hstate'
  refine ⟨?_, ?_, ?_⟩
  · intro heq v
    rw [hT, hT', h.same heq v]
  · intro h₁ h₂ v
    rw [hT, hT', h.opens h₁ h₂ v]
  · intro h₁ h₂ v
    rw [hT, hT', h.closes h₁ h₂ v]

/-- What is left of the two sets together. -/
def Left (rank : V → ℕ) (isUnion : Bool) (a b : List (Transition V)) (inA inB : Bool) (v : ℕ) : Prop :=
  Combined isUnion (Covers inA (ends rank a) v) (Covers inB (ends rank b) v)

theorem left_comm (isUnion : Bool) (a b : List (Transition V)) (inA inB : Bool) (v : ℕ) :
    Left rank isUnion a b inA inB v ↔ Left rank isUnion b a inB inA v :=
  combined_comm _ _ _

/-- A transition of a union is passed. -/
theorem passes_union {x : ℕ} {b c : Bool} {xs ys : List ℕ} (hys : ∀ y ∈ ys, x ≤ y) :
    Passes x (b || c) (!b || c) (fun v => Covers b (x :: xs) v ∨ Covers c ys v)
      (fun v => Covers (!b) xs v ∨ Covers c ys v) := by
  cases c with
  | true =>
    have hinside : ∀ v, v ≤ x → Covers true ys v :=
      fun v hle => covers_true fun y hy => hle.trans (hys y hy)
    rw [Bool.or_true, Bool.or_true]
    refine ⟨fun _ v => ?_, fun h => absurd h.symm Bool.false_ne_true,
      fun _ h => absurd h.symm Bool.false_ne_true⟩
    have hv := hinside v
    cases b with
    | false =>
      show (x ≤ v ∧ Covers true xs v) ∨ Covers true ys v ↔ Covers true xs v ∨ Covers true ys v
      rcases le_total x v with hle | hle
      · rw [and_iff_right hle]
      · exact iff_of_true (Or.inr (hv hle)) (Or.inr (hv hle))
    | true =>
      show (v ≤ x ∨ Covers false xs v) ∨ Covers true ys v ↔ Covers false xs v ∨ Covers true ys v
      rw [or_assoc]
      exact or_iff_right_of_imp fun hle => Or.inr (hv hle)
  | false =>
    have hbefore : ∀ v, Covers false ys v → x ≤ v := by
      intro v hcovers
      by_contra hlt
      exact not_covers_false (fun y hy => (not_le.mp hlt).trans_le (hys y hy)) hcovers
    cases b with
    | false =>
      refine ⟨fun h => absurd h Bool.false_ne_true, fun _ _ v => ?_, fun h => absurd h Bool.false_ne_true⟩
      show (x ≤ v ∧ Covers true xs v) ∨ Covers false ys v ↔
        x ≤ v ∧ (Covers true xs v ∨ Covers false ys v)
      rw [and_or_left, and_iff_right_of_imp (hbefore v)]
    | true =>
      refine ⟨fun h => absurd h.symm Bool.false_ne_true, fun h => absurd h.symm Bool.false_ne_true,
        fun _ _ v => ?_⟩
      show (v ≤ x ∨ Covers false xs v) ∨ Covers false ys v ↔
        v ≤ x ∨ (Covers false xs v ∨ Covers false ys v)
      exact or_assoc

/-- A transition of an intersection is passed; it comes before those of the other set, if it ends a
range. -/
theorem passes_intersection {x : ℕ} {b c : Bool} {xs ys : List ℕ} (hys : ∀ y ∈ ys, x ≤ y)
    (htie : b = true → c = false → ∀ y ∈ ys, x < y) :
    Passes x (b && c) (!b && c) (fun v => Covers b (x :: xs) v ∧ Covers c ys v)
      (fun v => Covers (!b) xs v ∧ Covers c ys v) := by
  cases c with
  | true =>
    cases b with
    | false =>
      refine ⟨fun h => absurd h Bool.false_ne_true, fun _ _ v => ?_, fun h => absurd h Bool.false_ne_true⟩
      show (x ≤ v ∧ Covers true xs v) ∧ Covers true ys v ↔
        x ≤ v ∧ (Covers true xs v ∧ Covers true ys v)
      exact and_assoc
    | true =>
      refine ⟨fun h => absurd h.symm Bool.false_ne_true, fun h => absurd h.symm Bool.false_ne_true,
        fun _ _ v => ?_⟩
      show (v ≤ x ∨ Covers false xs v) ∧ Covers true ys v ↔
        v ≤ x ∨ (Covers false xs v ∧ Covers true ys v)
      rw [or_and_right, and_iff_left_of_imp
        fun hle => covers_true fun y hy => le_trans hle (hys y hy)]
  | false =>
    rw [Bool.and_false, Bool.and_false]
    refine ⟨fun _ v => and_congr_left fun hcovers => ?_, fun _ h => absurd h Bool.false_ne_true,
      fun h => absurd h Bool.false_ne_true⟩
    cases b with
    | false =>
      have hle : x ≤ v := by
        by_contra hlt
        exact not_covers_false (fun y hy => (not_le.mp hlt).trans_le (hys y hy)) hcovers
      exact and_iff_right hle
    | true =>
      -- here the tie has to be resolved in favour of the other set
      have hgt : ¬ v ≤ x := fun hle =>
        not_covers_false (fun y hy => hle.trans_lt (htie rfl rfl y hy)) hcovers
      exact or_iff_right hgt

/-- A transition of one set is passed, with the other set left as it is. -/
theorem passes_one (isUnion : Bool) {x : ℕ} {b c : Bool} {xs ys : List ℕ} (hys : ∀ y ∈ ys, x ≤ y)
    (htie : isUnion = false → b = true → c = false → ∀ y ∈ ys, x < y) :
    Passes x (combine isUnion b c) (combine isUnion (!b) c)
      (fun v => Combined isUnion (Covers b (x :: xs) v) (Covers c ys v))
      (fun v => Combined isUnion (Covers (!b) xs v) (Covers c ys v)) := by
  cases isUnion with
  | true => exact passes_union hys
  | false => exact passes_intersection hys (htie rfl)

/-- Equal transitions of both sets are passed. -/
theorem passes_both (isUnion b : Bool) {x y : ℕ} (hxy : x = y) (xs ys : List ℕ) :
    Passes y (combine isUnion b b) (combine isUnion (!b) (!b))
      (fun v => Combined isUnion (Covers b (x :: xs) v) (Covers b (y :: ys) v))
      (fun v => Combined isUnion (Covers (!b) xs v) (Covers (!b) ys v)) := by
  subst hxy
  rw [combine_self, combine_self]
  cases b with
  | false =>
    refine ⟨fun h => absurd h Bool.false_ne_true, fun _ _ v => ?_, fun h => absurd h Bool.false_ne_true⟩
    cases isUnion with
    | true => exact (and_or_left (a := x ≤ v)).symm
    | false => exact (and_and_left (a := x ≤ v)).symm
  | true =>
    refine ⟨fun h => absurd h.symm Bool.false_ne_true, fun h => absurd h.symm Bool.false_ne_true,
      fun _ _ v => ?_⟩
    cases isUnion with
    | true => exact (or_or_distrib_left (a := v ≤ x)).symm
    | false => exact (or_and_left (a := v ≤ x)).symm

/-- What one pass of the loop does. -/
structure EdgeTaken (rank : V → ℕ) (isUnion : Bool) (p : ℕ) (a b : List (Transition V))
    (inA inB : Bool) (t : Transition V) (a' b' : List (Transition V)) (inA' inB' : Bool) : Prop where
  ge : p ≤ rank t.val
  shorter : a'.length + b'.length < a.length + b.length
  restA : Rest rank (rank t.val) inA' a'
  restB : Rest rank (rank t.val) inB' b'
  state : combine isUnion inA' inB' ≠ combine isUnion inA inB → combine isUnion inA' inB' = t.state
  passes : Passes (rank t.val) (combine isUnion inA inB) (combine isUnion inA' inB')
    (Left rank isUnion a b inA inB) (Left rank isUnion a' b' inA' inB')

/-- A transition of the first set is taken. -/
theorem edgeTaken_left {p : ℕ} (ha : Rest rank p inA (t :: a)) (hb : Rest rank p inB b)
    (hbefore : ∀ u ∈ b.head?, Before rank isUnion t u) :
    EdgeTaken rank isUnion p (t :: a) b inA inB t a b t.state inB := by
  have hstate := ha.alternates.1
  have hle : ∀ y ∈ ends rank b, rank t.val ≤ y := by
    cases b with
    | nil => exact fun y hy => absurd hy List.not_mem_nil
    | cons w b =>
      refine fun y hy => le_trans ?_ (hb.head_le y hy)
      rcases hbefore w rfl with hlt | ⟨heq, -⟩
      · exact hlt.le
      · exact heq.le
  have htie : isUnion = false → inA = true → inB = false → ∀ y ∈ ends rank b, rank t.val < y := by
    intro hinter hinA _
    cases b with
    | nil => exact fun y hy => absurd hy List.not_mem_nil
    | cons w b =>
      refine fun y hy => lt_of_lt_of_le ?_ (hb.head_le y hy)
      rcases hbefore w rfl with hlt | ⟨-, hopens, -⟩
      · exact hlt
      · rw [hstate, hinA, hinter] at hopens
        exact absurd hopens Bool.false_ne_true
  refine ⟨ha.ge _ List.mem_cons_self, ?_, ha.tail, hb.from_le hle, ?_, ?_⟩
  · rw [List.length_cons]
    exact Nat.add_lt_add_right (Nat.lt_succ_self _) _
  · rw [hstate]
    cases isUnion <;> cases inA <;> cases inB <;> decide
  · rw [hstate]
    exact passes_one isUnion hle htie

/-- The pass of the loop that takes a transition. -/
theorem edgeTaken (h : Ranked kind rank M) {p : ℕ} {a' b' : List (Transition V)} {inA' inB' : Bool}
    (ha : Rest rank p inA a) (hb : Rest rank p inB b)
    (hnext : nextEdge kind isUnion a b inA inB = some (t, a', b', inA', inB')) :
    EdgeTaken rank isUnion p a b inA inB t a' b' inA' inB' := by
  rcases nextEdge_cases h hnext with ⟨rfl, rfl, rfl, rfl, hbefore⟩ | ⟨rfl, rfl, rfl, rfl, hbefore⟩ |
    ⟨u, rfl, rfl, rfl, rfl, hrank, hstates⟩
  · exact edgeTaken_left ha hb hbefore
  · have hswap := edgeTaken_left hb ha hbefore
    refine ⟨hswap.ge, ?_, hswap.restB, hswap.restA, ?_, ?_⟩
    · rw [Nat.add_comm, Nat.add_comm a'.length]
      exact hswap.shorter
    · rw [combine_comm isUnion inA', combine_comm isUnion inA']
      exact hswap.state
    · exact hswap.passes.congr (combine_comm _ _ _) (combine_comm _ _ _) (left_comm _ _ _ _ _)
        (left_comm _ _ _ _ _)
  · have hin : inA = inB := by
      have hA := ha.alternates.1
      rw [hstates, hb.alternates.1] at hA
      exact (Bool.not_inj hA).symm
    subst hin
    have hA := ha.tail
    rw [hrank] at hA
    refine ⟨hb.ge _ List.mem_cons_self, ?_, hA, hb.tail, ?_, ?_⟩
    · rw [List.length_cons, List.length_cons]
      exact Nat.add_lt_add (Nat.lt_succ_self _) (Nat.lt_succ_self _)
    · intro _
      rw [hstates, combine_self]
    · rw [hstates, hb.alternates.1]
      exact passes_both isUnion inA hrank (ends rank a') (ends rank b')

/-! ### Appending -/

/-- The transition is appended behind the others, or takes the last one away that comes one before
it; `T` becomes `T'` there. -/
theorem appendTransition_covers (h : Ranked kind rank M) {T T' : ℕ → Prop}
    (halt : Alternates false result) (hafter : after false (ends rank result) = !t.state)
    (hsorted : (ends rank result).Pairwise (· ≤ ·)) (hle : ∀ x ∈ ends rank result, x ≤ rank t.val)
    (hopens : t.state = true → ∀ v, T v ↔ rank t.val ≤ v ∧ T' v)
    (hcloses : t.state = false → ∀ v, T v ↔ v ≤ rank t.val ∨ T' v)
    (hinside : t.state = true → ∀ v ≤ rank t.val, T' v) :
    ∃ result', appendTransition kind result t = some result' ∧ Alternates false result' ∧
      after false (ends rank result') = t.state ∧ (ends rank result').Pairwise (· ≤ ·) ∧
      (∀ x ∈ ends rank result', x ≤ rank t.val) ∧
      ∀ v, CoversThen false (ends rank result') T' v ↔ CoversThen false (ends rank result) T v := by
  have hput : Alternates false (result ++ [t]) ∧ after false (ends rank (result ++ [t])) = t.state ∧
      (ends rank (result ++ [t])).Pairwise (· ≤ ·) ∧
      (∀ x ∈ ends rank (result ++ [t]), x ≤ rank t.val) ∧
      ∀ v, CoversThen false (ends rank (result ++ [t])) T' v ↔
        CoversThen false (ends rank result) T v := by
    rw [ends_append]
    have hone : ∀ y ∈ ends rank [t], y = rank t.val := fun y hy => List.mem_singleton.mp hy
    refine ⟨?_, ?_, ?_, ?_, ?_⟩
    · rw [alternates_append rank, hafter]
      exact ⟨halt, (Bool.not_not _).symm, trivial⟩
    · rw [after_append, hafter]
      exact Bool.not_not _
    · refine List.pairwise_append.mpr ⟨hsorted, List.pairwise_singleton _ _, ?_⟩
      intro x hx y hy
      rw [hone y hy]
      exact hle x hx
    · intro x hx
      rcases List.mem_append.mp hx with hx | hx
      · exact hle x hx
      · exact (hone x hx).le
    · intro v
      rw [coversThen_append, hafter]
      refine coversThen_congr fun w => ?_
      cases hstate : t.state with
      | true => exact (hopens hstate w).symm
      | false => exact (hcloses hstate w).symm
  unfold appendTransition
  cases hlast : result.getLast? with
  | none =>
    refine ⟨result ++ [t], ?_, hput⟩
    cases t.state <;> rfl
  | some prev =>
    have hprev : prev.state = !t.state := (@after_eq_getLast _ rank _ _ _ halt hlast).symm.trans hafter
    cases hstate : t.state with
    | false =>
      rw [hstate] at hput
      exact ⟨result ++ [t], rfl, hput⟩
    | true =>
      rw [hstate] at hput hprev hafter
      simp only [hprev, Bool.not_true, Bool.false_eq_true, if_false]
      by_cases hjoin : oneless kind prev.val t.val = true
      · obtain ⟨start, rfl⟩ := List.getLast?_eq_some_iff.mp hlast
        rw [if_pos hjoin, List.dropLast_concat]
        rw [ends_append] at hsorted hle hafter
        rw [alternates_append rank] at halt
        have hlePrev := hle (rank prev.val) (List.mem_append_right _ List.mem_cons_self)
        have hnext := (oneless_iff h hlePrev).mp hjoin
        have hopen : after false (ends rank start) = true := by
          have hfirst := halt.2.1
          rw [hprev] at hfirst
          exact (Bool.not_inj hfirst).symm
        refine ⟨start, rfl, halt.1, hopen, (List.pairwise_append.mp hsorted).1,
          fun x hx => hle x (List.mem_append_left _ hx), fun v => ?_⟩
        rw [ends_append, coversThen_append, hopen]
        refine coversThen_congr fun w => ?_
        show T' w ↔ w ≤ rank prev.val ∨ T w
        rw [hopens hstate, ← hnext]
        constructor
        · intro hT
          exact (le_or_gt w (rank prev.val)).imp_right fun hlt => ⟨hlt, hT⟩
        · rintro (hle | ⟨-, hT⟩)
          · exact hinside hstate w (by rw [← hnext]; exact hle.trans (Nat.le_succ _))
          · exact hT
      · rw [if_neg hjoin]
        exact ⟨result ++ [t], rfl, hput⟩

/-! ### The loop -/

/-- Inside of the result that is left, the numbers before all transitions belong to it. -/
theorem left_inside {p : ℕ} (ha : Rest rank p inA a) (hb : Rest rank p inB b)
    (hopen : combine isUnion inA inB = true) : ∀ v ≤ p, Left rank isUnion a b inA inB v := by
  intro v hv
  have hA : inA = true → Covers inA (ends rank a) v := by
    rintro rfl
    exact covers_true fun y hy => hv.trans (ha.ge y hy)
  have hB : inB = true → Covers inB (ends rank b) v := by
    rintro rfl
    exact covers_true fun y hy => hv.trans (hb.ge y hy)
  cases isUnion with
  | true => exact ((Bool.or_eq_true _ _).mp hopen).imp hA hB
  | false => exact ((Bool.and_eq_true _ _).mp hopen).imp hA hB

theorem unionOrIntersect_loop_covers (h : Ranked kind rank M) {fuel p : ℕ}
    (hfuel : a.length + b.length < fuel) (ha : Rest rank p inA a) (hb : Rest rank p inB b)
    (halt : Alternates false result)
    (hafter : after false (ends rank result) = combine isUnion inA inB)
    (hsorted : (ends rank result).Pairwise (· ≤ ·)) (hle : ∀ x ∈ ends rank result, x ≤ p) :
    ∃ ts, unionOrIntersect.loop kind isUnion fuel a b inA inB (combine isUnion inA inB) result =
        some ts ∧ Valid rank ts ∧
      ∀ v, Covers false (ends rank ts) v ↔
        CoversThen false (ends rank result) (Left rank isUnion a b inA inB) v := by
  induction fuel generalizing a b inA inB p result with
  | zero => exact absurd hfuel (Nat.not_lt_zero _)
  | succ fuel ih =>
    cases hnext : nextEdge kind isUnion a b inA inB with
    | none =>
      obtain ⟨rfl, rfl⟩ := nextEdge_eq_none hnext
      have hA : inA = false := ha.closed
      have hB : inB = false := hb.closed
      subst hA
      subst hB
      rw [combine_self] at hafter
      refine ⟨result, ?_, ⟨halt, hafter, hsorted⟩, fun v => (coversThen_closed hafter ?_).symm⟩
      · rw [unionOrIntersect.loop, hnext]
      · intro w hw
        cases isUnion with
        | true => exact hw.elim Bool.false_ne_true Bool.false_ne_true
        | false => exact Bool.false_ne_true hw.1
    | some edge =>
      obtain ⟨t, a', b', inA', inB'⟩ := edge
      have hedge := edgeTaken h ha hb hnext
      have hfuel' : a'.length + b'.length < fuel :=
        hedge.shorter.trans_le (Nat.le_of_lt_succ hfuel)
      have hle' : ∀ x ∈ ends rank result, x ≤ rank t.val := fun x hx => (hle x hx).trans hedge.ge
      by_cases hsame : combine isUnion inA' inB' = combine isUnion inA inB
      · have hadvance : advance kind (combine isUnion inA inB) (combine isUnion inA' inB') result t =
            some result := if_pos hsame
        obtain ⟨ts, hloop, hvalid, hcovers⟩ :=
          ih hfuel' hedge.restA hedge.restB halt (hafter.trans hsame.symm) hsorted hle'
        rw [unionOrIntersect_loop_eq hnext hadvance]
        refine ⟨ts, hloop, hvalid, fun v => (hcovers v).trans ?_⟩
        exact coversThen_congr fun w => (hedge.passes.same hsame.symm w).symm
      · have hstate := hedge.state hsame
        have hold : combine isUnion inA inB = !t.state := by
          rw [← hstate]
          revert hsame
          cases combine isUnion inA' inB' <;> cases combine isUnion inA inB <;> simp
        obtain ⟨result', happend, halt', hafter', hsorted', hle'', hcovers'⟩ :=
          @appendTransition_covers _ _ _ _ _ _ h (Left rank isUnion a b inA inB)
            (Left rank isUnion a' b' inA' inB') halt (hafter.trans hold) hsorted hle'
            (fun hopen => hedge.passes.opens (by rw [hold, hopen]; rfl) (hstate.trans hopen))
            (fun hclose => hedge.passes.closes (by rw [hold, hclose]; rfl) (hstate.trans hclose))
            (fun hopen => left_inside hedge.restA hedge.restB (hstate.trans hopen))
        have hadvance : advance kind (combine isUnion inA inB) (combine isUnion inA' inB') result t =
            some result' := (if_neg hsame).trans happend
        obtain ⟨ts, hloop, hvalid, hcovers⟩ :=
          ih hfuel' hedge.restA hedge.restB halt' (hafter'.trans hstate.symm) hsorted' hle''
        rw [unionOrIntersect_loop_eq hnext hadvance]
        exact ⟨ts, hloop, hvalid, fun v => (hcovers v).trans (hcovers' v)⟩

/-- `unionSet` and `intersectSet` have the values of both sets, or the common ones. -/
theorem unionOrIntersect_spec (h : Ranked kind rank M) (isUnion : Bool) (ha : Valid rank a)
    (hb : Valid rank b) :
    ∃ ts, unionOrIntersect kind isUnion a b = some ts ∧ Valid rank ts ∧
      ∀ v, Member rank ts v ↔ Combined isUnion (Member rank a v) (Member rank b v) := by
  have hrest : ∀ {ts : List (Transition V)}, Valid rank ts → Rest rank 0 false ts :=
    fun hts => ⟨hts.alternates, hts.closed, hts.sorted, fun x _ => Nat.zero_le x⟩
  obtain ⟨ts, hloop, hvalid, hcovers⟩ := @unionOrIntersect_loop_covers _ _ _ _ isUnion _ _ _ _ [] h
    _ _ (Nat.lt_succ_self _) (hrest ha) (hrest hb) trivial (combine_self isUnion false).symm
    List.Pairwise.nil fun x hx => absurd hx List.not_mem_nil
  rw [combine_self] at hloop
  exact ⟨ts, hloop, hvalid, fun v => hcovers (rank v)⟩

/-! ### The complement -/

/-- The ranges that the loop of `invertSet` still removes. -/
theorem invertSet_loop_spec (h : Ranked kind rank M) {loval : V} {inset : Bool}
    {ts : List (Transition V)} (halt : Alternates inset ts)
    (hclosed : after inset (ends rank ts) = false) (hsorted : (ends rank ts).Pairwise (· ≤ ·))
    (hle : inset = true → ∀ x ∈ ends rank ts, rank loval ≤ x) (hresult : Valid rank result) :
    ∃ ts', invertSet.loop kind ts inset loval result = some ts' ∧ Valid rank ts' ∧
      ∀ v, Member rank ts' v ↔ Member rank result v ∧
        ¬ (if inset then rank loval ≤ rank v ∧ Covers true (ends rank ts) (rank v)
          else Covers false (ends rank ts) (rank v)) := by
  induction ts generalizing inset loval result with
  | nil =>
    have hinset : inset = false := hclosed
    subst hinset
    refine ⟨result, rfl, hresult, fun v => ?_⟩
    exact (and_iff_left Bool.false_ne_true).symm
  | cons t ts ih =>
    obtain ⟨hstate, hrest⟩ := halt
    obtain ⟨hfirst, hsorted'⟩ := List.pairwise_cons.mp hsorted
    have hclosed' : after t.state (ends rank ts) = false := by
      rw [hstate]
      exact hclosed
    rw [invertSet.loop, if_neg (by rw [hstate]; cases inset <;> decide)]
    cases inset with
    | false =>
      rw [if_neg Bool.false_ne_true]
      obtain ⟨ts', hloop, hvalid, hmem⟩ := @ih result t.val t.state hrest hclosed' hsorted'
        (fun _ => hfirst) hresult
      refine ⟨ts', hloop, hvalid, fun v => (hmem v).trans ?_⟩
      rw [hstate]
      exact Iff.rfl
    | true =>
      have hlh : rank loval ≤ rank t.val := hle rfl _ List.mem_cons_self
      obtain ⟨killed, hkill, hvalidKilled, hmemKilled⟩ := killRange_spec h hresult (some loval)
        (some t.val) (mt (h.pos_iff _ _).mp hlh.not_gt)
      have hstate' : t.state = false := hstate
      rw [if_pos rfl, hkill]
      obtain ⟨ts', hloop, hvalid, hmem⟩ := @ih killed loval t.state hrest hclosed' hsorted'
        (fun htrue => by rw [hstate'] at htrue; cases htrue) hvalidKilled
      refine ⟨ts', hloop, hvalid, fun v => (hmem v).trans ?_⟩
      rw [hmemKilled, hstate', if_neg Bool.false_ne_true, if_pos rfl, and_assoc]
      refine and_congr_right fun _ => ?_
      show ¬ (rank loval ≤ rank v ∧ rank v ≤ rank t.val) ∧ ¬ Covers false (ends rank ts) (rank v) ↔
        ¬ (rank loval ≤ rank v ∧ (rank v ≤ rank t.val ∨ Covers false (ends rank ts) (rank v)))
      -- what is left lies behind the transition
      have hbehind : Covers false (ends rank ts) (rank v) → rank loval ≤ rank v := by
        intro hcovers
        by_contra hlt
        exact not_covers_false
          (fun y hy => (not_le.mp hlt).trans_le (hlh.trans (hfirst y hy))) hcovers
      rw [← not_or, and_or_left]
      exact not_congr (or_congr_right (and_iff_right_of_imp hbehind).symm)

/-- `addAll` has all values. -/
theorem addAll_member (h : Ranked kind rank M) (v : V) : Member rank (addAll kind) v := by
  have hhigh : rank v ≤ rank kind.high := by
    apply Nat.le_of_lt_succ
    rw [Nat.succ_eq_add_one, h.high]
    exact h.lt v
  show rank kind.low ≤ rank v ∧ (rank v ≤ rank kind.high ∨ false = true)
  rw [h.low]
  exact ⟨Nat.zero_le _, Or.inl hhigh⟩

/-- `invertSet` has the other values. -/
theorem invertSet_spec (h : Ranked kind rank M) {ts : List (Transition V)} (hts : Valid rank ts) :
    ∃ ts', invertSet kind ts = some ts' ∧ Valid rank ts' ∧
      ∀ v, Member rank ts' v ↔ ¬ Member rank ts v := by
  obtain ⟨ts', hloop, hvalid, hmem⟩ := @invertSet_loop_spec _ _ _ _ _ h kind.low false ts
    hts.alternates hts.closed hts.sorted (fun hfalse => absurd hfalse Bool.false_ne_true)
    (addAll_canonical h).valid
  refine ⟨ts', hloop, hvalid, fun v => (hmem v).trans ?_⟩
  exact and_iff_right (addAll_member h v)

end StringSet

end HpccPlatform
