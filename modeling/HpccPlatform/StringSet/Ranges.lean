import HpccPlatform.Library.RangeEnds
import HpccPlatform.StringSet.Operations

/-!
# The ranges of a string set

The values of a kind are numbered in their order, so that the transitions of a set are the ends of
closed ranges of numbers.  `addRange` and `killRange` keep the ends in order, and change the set as
they should; ranges that follow each other directly are joined by `addRange`.
-/

namespace HpccPlatform

namespace StringSet

open RangeEnds

variable {V : Type*} {kind : ValueKind V} {rank : V → ℕ} {M : ℕ}

/-- The values are numbered from 0 to `M - 1` in the order of `memcmp`. -/
structure Ranked (kind : ValueKind V) (rank : V → ℕ) (M : ℕ) : Prop where
  lt : ∀ v, rank v < M
  neg_iff : ∀ a b, kind.memcmp a b < 0 ↔ rank a < rank b
  pos_iff : ∀ a b, 0 < kind.memcmp a b ↔ rank b < rank a
  increment : ∀ v, rank v + 1 < M → rank (kind.increment v) = rank v + 1
  decrement : ∀ v, 0 < rank v → rank (kind.decrement v) + 1 = rank v
  decrement_zero : ∀ v, rank v = 0 → 0 < rank (kind.decrement v)
  low : rank kind.low = 0
  high : rank kind.high + 1 = M

theorem Ranked.zero_iff (h : Ranked kind rank M) (a b : V) :
    kind.memcmp a b = 0 ↔ rank a = rank b := by
  have hneg := h.neg_iff a b
  have hpos := h.pos_iff a b
  omega

/-- The numbers of the transitions. -/
def ends (rank : V → ℕ) (ts : List (Transition V)) : List ℕ := ts.map fun t => rank t.val

/-- The first and the last values of ranges take turns. -/
def Alternates : Bool → List (Transition V) → Prop
  | _, [] => True
  | b, t :: ts => t.state = !b ∧ Alternates t.state ts

/-- The form of the transitions of a set. -/
structure Valid (rank : V → ℕ) (ts : List (Transition V)) : Prop where
  alternates : Alternates false ts
  closed : after false (ends rank ts) = false
  sorted : (ends rank ts).Pairwise (· ≤ ·)

/-- The value belongs to the set. -/
def Member (rank : V → ℕ) (ts : List (Transition V)) (v : V) : Prop :=
  Covers false (ends rank ts) (rank v)

theorem ends_append (ts us : List (Transition V)) :
    ends rank (ts ++ us) = ends rank ts ++ ends rank us := List.map_append

theorem mem_ends {ts : List (Transition V)} {x : ℕ} :
    x ∈ ends rank ts ↔ ∃ t ∈ ts, rank t.val = x := List.mem_map

theorem alternates_append (rank : V → ℕ) {b : Bool} {ts us : List (Transition V)} :
    Alternates b (ts ++ us) ↔ Alternates b ts ∧ Alternates (after b (ends rank ts)) us := by
  induction ts generalizing b with
  | nil => exact ⟨fun h => ⟨trivial, h⟩, And.right⟩
  | cons t ts ih =>
    constructor
    · rintro ⟨hstate, hrest⟩
      obtain ⟨hts, hus⟩ := ih.mp hrest
      refine ⟨⟨hstate, hts⟩, ?_⟩
      rw [hstate] at hus
      exact hus
    · rintro ⟨⟨hstate, hts⟩, hus⟩
      refine ⟨hstate, ih.mpr ⟨hts, ?_⟩⟩
      rw [hstate]
      exact hus

/-- The state behind the last transition is the state of that transition. -/
theorem after_eq_getLast {b : Bool} {ts : List (Transition V)} {t : Transition V}
    (h : Alternates b ts) (hlast : ts.getLast? = some t) : after b (ends rank ts) = t.state := by
  induction ts generalizing b with
  | nil => cases hlast
  | cons u ts ih =>
    obtain ⟨hstate, hrest⟩ := h
    show after (!b) (ends rank ts) = t.state
    rw [← hstate]
    cases ts with
    | nil =>
      cases hlast
      rfl
    | cons w ts =>
      rw [List.getLast?_cons_cons] at hlast
      exact ih hrest hlast

theorem sorted_append {xs ys : List ℕ} {x : ℕ} (hxs : xs.Pairwise (· ≤ ·))
    (hys : ys.Pairwise (· ≤ ·)) (hle : ∀ y ∈ xs, y ≤ x) (hge : ∀ y ∈ ys, x ≤ y) :
    (xs ++ ys).Pairwise (· ≤ ·) := by
  rw [List.pairwise_append]
  refine ⟨hxs, hys, ?_⟩
  intro a ha b hb
  exact (hle a ha).trans (hge b hb)

/-! ## Parts of a set -/

theorem removeUpTo_spec (h : Ranked kind rank M) (hi : V) {rest : List (Transition V)} {b : Bool}
    (halt : Alternates b rest) (hsorted : (ends rank rest).Pairwise (· ≤ ·)) :
    ∃ among above, rest = among ++ above ∧
      removeUpTo kind hi rest b = (above, after b (ends rank among)) ∧
      (∀ x ∈ ends rank among, x ≤ rank hi) ∧ ∀ x ∈ ends rank above, rank hi < x := by
  induction rest generalizing b with
  | nil =>
    refine ⟨[], [], rfl, rfl, ?_, ?_⟩
    · intro x hx
      cases hx
    · intro x hx
      cases hx
  | cons t rest ih =>
    obtain ⟨hstate, hrest⟩ := halt
    have hsorted' := List.pairwise_cons.mp hsorted
    unfold removeUpTo
    by_cases hle : kind.memcmp t.val hi ≤ 0
    · rw [if_pos hle]
      obtain ⟨among, above, heq, hremove, hamong, habove⟩ := ih hrest hsorted'.2
      refine ⟨t :: among, above, ?_, ?_, ?_, habove⟩
      · rw [heq]
        rfl
      · rw [hremove, hstate]
        rfl
      · intro x hx
        rcases List.mem_cons.mp hx with rfl | hx
        · show rank t.val ≤ rank hi
          have hpos := h.pos_iff t.val hi
          omega
        · exact hamong x hx
    · rw [if_neg hle]
      have hgt : rank hi < rank t.val := (h.pos_iff t.val hi).mp (not_le.mp hle)
      refine ⟨[], t :: rest, rfl, rfl, ?_, ?_⟩
      · intro x hx
        cases hx
      · intro x hx
        rcases List.mem_cons.mp hx with rfl | hx
        · exact hgt
        · exact hgt.trans_le (hsorted'.1 x hx)

theorem oneless_iff (h : Ranked kind rank M) {l r : V} (hle : rank l ≤ rank r) :
    oneless kind l r = true ↔ rank l + 1 = rank r := by
  have hdec := h.decrement r
  have hzero := h.decrement_zero r
  unfold oneless
  rw [beq_iff_eq, h.zero_iff]
  omega

/-! ## Adding a range -/

/-- The transitions up to the range that is added. -/
structure Opened (rank : V → ℕ) (lo : ℕ) (below start : List (Transition V)) : Prop where
  alternates : Alternates false start
  opened : after false (ends rank start) = true
  sorted : (ends rank start).Pairwise (· ≤ ·)
  le : ∀ x ∈ ends rank start, x ≤ lo
  covers : ∀ v < lo, Covers false (ends rank start) v ↔ Covers false (ends rank below) v

theorem addLow_spec (h : Ranked kind rank M) (lo : V) {ts : List (Transition V)} (a : ℕ)
    (halt : Alternates false (ts.take a)) (hsorted : (ends rank (ts.take a)).Pairwise (· ≤ ·))
    (hlt : ∀ x ∈ ends rank (ts.take a), x < rank lo) :
    ∃ start, addLow kind ts lo a = (start, after false (ends rank (ts.take a))) ∧
      Opened rank (rank lo) (ts.take a) start := by
  unfold addLow
  generalize ts.take a = below at halt hsorted hlt
  cases hlast : below.getLast? with
  | none =>
    rw [List.getLast?_eq_none_iff.mp hlast]
    refine ⟨[⟨lo, true⟩], rfl, ⟨rfl, trivial⟩, rfl, List.pairwise_singleton _ _, ?_, ?_⟩
    · intro x hx
      exact (List.mem_singleton.mp hx).le
    · intro v hv
      exact iff_of_false (fun hcovers => absurd hcovers.1 (not_le.mpr hv)) Bool.false_ne_true
  | some t =>
    have hafter := @after_eq_getLast V rank false below t halt hlast
    have hmem : t ∈ below := List.mem_of_getLast? hlast
    have htlt : rank t.val < rank lo := hlt _ (List.mem_map_of_mem hmem)
    have hsplit : below = below.dropLast ++ [t] := by
      obtain ⟨hne, hget⟩ := List.getLast?_eq_some_iff.mp hlast
      rw [hget, List.dropLast_concat]
    cases hstate : t.state with
    | true =>
      rw [hstate] at hafter
      refine ⟨below, ?_, halt, hafter, hsorted, fun x hx => (hlt x hx).le, fun v _ => Iff.rfl⟩
      simp only [hstate, Bool.not_true, Bool.false_eq_true, if_false, hafter]
    | false =>
      rw [hstate] at hafter
      simp only [hstate, Bool.not_false, if_true]
      by_cases hone : oneless kind t.val lo = true
      · -- the range before goes on
        rw [if_pos hone, hafter]
        have hnext := (oneless_iff h htlt.le).mp hone
        rw [hsplit, alternates_append rank] at halt
        have hopened : after false (ends rank below.dropLast) = true := by
          have ht := halt.2.1
          rw [hstate] at ht
          revert ht
          cases after false (ends rank below.dropLast) <;> simp
        have hsub : ∀ x ∈ ends rank below.dropLast, x ∈ ends rank below := by
          intro x hx
          rw [hsplit, ends_append]
          exact List.mem_append_left _ hx
        refine ⟨below.dropLast, rfl, halt.1, hopened, ?_, fun x hx => (hlt x (hsub x hx)).le, ?_⟩
        · rw [hsplit, ends_append] at hsorted
          exact (List.pairwise_append.mp hsorted).1
        · intro v hv
          have hcut : Covers false (ends rank below) v ↔
              Covers false (ends rank below.dropLast ++ [rank t.val]) v := by
            rw [← show ends rank [t] = [rank t.val] from rfl, ← ends_append, ← hsplit]
          rw [hcut, covers_append_of_le hopened]
          intro y hy
          rw [List.mem_singleton.mp hy]
          omega
      · rw [if_neg hone, hafter]
        refine ⟨below ++ [⟨lo, true⟩], rfl, ?_, ?_, ?_, ?_, ?_⟩
        · rw [alternates_append rank, hafter]
          exact ⟨halt, rfl, trivial⟩
        · rw [ends_append, after_append, hafter]
          rfl
        · rw [ends_append]
          apply sorted_append hsorted (List.pairwise_singleton _ _) fun x hx => (hlt x hx).le
          intro y hy
          exact (List.mem_singleton.mp hy).ge
        · intro x hx
          rw [ends_append] at hx
          rcases List.mem_append.mp hx with hx | hx
          · exact (hlt x hx).le
          · exact (List.mem_singleton.mp hx).le
        · intro v hv
          rw [ends_append]
          apply covers_append_of_lt
          intro y hy
          rw [List.mem_singleton.mp hy]
          exact hv

/-- The transitions from the range on that is added. -/
structure Closed (rank : V → ℕ) (hi : ℕ) (b : Bool) (above finish : List (Transition V)) : Prop where
  alternates : Alternates true finish
  closed : after true (ends rank finish) = false
  sorted : (ends rank finish).Pairwise (· ≤ ·)
  ge : ∀ x ∈ ends rank finish, hi ≤ x
  covers : ∀ v, hi < v → (Covers true (ends rank finish) v ↔ Covers b (ends rank above) v)

theorem addHigh_spec (h : Ranked kind rank M) (hi : V) {b : Bool} {above : List (Transition V)}
    (halt : Alternates b above) (hclosed : after b (ends rank above) = false)
    (hsorted : (ends rank above).Pairwise (· ≤ ·)) (hgt : ∀ x ∈ ends rank above, rank hi < x) :
    ∃ finish, addHigh kind hi b above = some finish ∧ Closed rank (rank hi) b above finish := by
  unfold addHigh
  cases b with
  | true =>
    rw [if_pos rfl]
    exact ⟨above, rfl, halt, hclosed, hsorted, fun x hx => (hgt x hx).le, fun v _ => Iff.rfl⟩
  | false =>
    rw [if_neg Bool.false_ne_true]
    have hcovers : ∀ v, rank hi < v →
        (Covers true (rank hi :: ends rank above) v ↔ Covers false (ends rank above) v) := by
      intro v hv
      exact or_iff_right (not_le.mpr hv)
    have hput : Closed rank (rank hi) false above (⟨hi, false⟩ :: above) := by
      refine ⟨⟨rfl, halt⟩, hclosed, ?_, ?_, hcovers⟩
      · exact List.pairwise_cons.mpr ⟨fun x hx => (hgt x hx).le, hsorted⟩
      · intro x hx
        rcases List.mem_cons.mp hx with rfl | hx
        · exact le_rfl
        · exact (hgt x hx).le
    cases above with
    | nil => exact ⟨_, rfl, hput⟩
    | cons t tail =>
      have hstate : t.state = true := halt.1
      have htgt : rank hi < rank t.val := hgt _ List.mem_cons_self
      simp only [hstate, Bool.not_true, Bool.false_eq_true, if_false]
      by_cases hone : oneless kind hi t.val = true
      · -- the next range goes on
        rw [if_pos hone]
        have hnext := (oneless_iff h htgt.le).mp hone
        have halt' := halt.2
        rw [hstate] at halt'
        refine ⟨tail, rfl, halt', hclosed, (List.pairwise_cons.mp hsorted).2, ?_, ?_⟩
        · intro x hx
          exact (hgt x (List.mem_cons_of_mem _ hx)).le
        · intro v hv
          have hle : rank t.val ≤ v := by omega
          exact (and_iff_right hle).symm
      · rw [if_neg hone]
        exact ⟨_, rfl, hput⟩

/-- The transitions below a value come first. -/
theorem countBelow_spec (h : Ranked kind rank M) {ts : List (Transition V)}
    (hsorted : (ends rank ts).Pairwise (· ≤ ·)) (lo : V) :
    (∀ x ∈ ends rank (ts.take (countBelow kind ts lo)), x < rank lo) ∧
      ∀ x ∈ ends rank (ts.drop (countBelow kind ts lo)), rank lo ≤ x := by
  have hfalls : ts.Pairwise fun t u => rank u.val < rank lo → rank t.val < rank lo :=
    (List.pairwise_map.mp hsorted).imp fun hle => hle.trans_lt
  obtain ⟨-, hbelow, habove⟩ : countBelow kind ts lo ≤ ts.length ∧
      (∀ t ∈ ts.take (countBelow kind ts lo), rank t.val < rank lo) ∧
      ∀ t ∈ ts.drop (countBelow kind ts lo), ¬rank t.val < rank lo :=
    BinaryChop.chopCount_list (fun i hi => by
      rw [List.getElem?_eq_getElem hi, decide_eq_true_iff, h.pos_iff]) hfalls
  constructor
  · intro x hx
    obtain ⟨t, ht, rfl⟩ := mem_ends.mp hx
    exact hbelow t ht
  · intro x hx
    obtain ⟨t, ht, rfl⟩ := mem_ends.mp hx
    exact not_lt.mp (habove t ht)

/-- What `addRange` does to a set that is not empty: the transitions below the range and above it. -/
theorem addRange_parts (h : Ranked kind rank M) {ts : List (Transition V)} (hts : Valid rank ts)
    (hne : ts ≠ []) {lo hi : V} (hlh : rank lo ≤ rank hi) :
    ∃ below among above start finish, ts = below ++ (among ++ above) ∧
      (∀ x ∈ ends rank below, x < rank lo) ∧
      (∀ x ∈ ends rank among, rank lo ≤ x ∧ x ≤ rank hi) ∧
      (∀ x ∈ ends rank above, rank hi < x) ∧
      addLow kind ts lo (countBelow kind ts lo) = (start, after false (ends rank below)) ∧
      below = ts.take (countBelow kind ts lo) ∧
      addHigh kind hi (after false (ends rank (below ++ among))) above = some finish ∧
      addRange kind ts (some lo) (some hi) = some (start ++ finish) ∧
      Opened rank (rank lo) below start ∧
      Closed rank (rank hi) (after false (ends rank (below ++ among))) above finish := by
  set a := countBelow kind ts lo with ha
  obtain ⟨hbelow, hrest⟩ := countBelow_spec h hts.sorted lo
  rw [← ha] at hbelow hrest
  have hsplit : ts.take a ++ ts.drop a = ts := List.take_append_drop a ts
  have halt := hts.alternates
  have hsorted := hts.sorted
  have hclosed := hts.closed
  rw [← hsplit] at halt hsorted hclosed
  rw [alternates_append rank] at halt
  rw [ends_append] at hsorted hclosed
  rw [after_append] at hclosed
  obtain ⟨hsortedBelow, hsortedRest, -⟩ := List.pairwise_append.mp hsorted
  obtain ⟨start, hstart, hopened⟩ := addLow_spec h lo a halt.1 hsortedBelow hbelow
  obtain ⟨among, above, heq, hremove, hamong, habove⟩ := removeUpTo_spec h hi halt.2 hsortedRest
  rw [heq, ends_append] at hrest hclosed hsortedRest
  rw [after_append] at hclosed
  have haltRest := halt.2
  rw [heq, alternates_append rank] at haltRest
  obtain ⟨finish, hfinish, hclosed'⟩ := addHigh_spec h hi haltRest.2 hclosed
    (List.pairwise_append.mp hsortedRest).2.1 habove
  have hafter : after false (ends rank (ts.take a ++ among)) =
      after (after false (ends rank (ts.take a))) (ends rank among) := by
    rw [ends_append, after_append]
  rw [← hafter] at hfinish hclosed' hremove
  refine ⟨ts.take a, among, above, start, finish, ?_, hbelow, ?_, habove, hstart, rfl, hfinish, ?_,
    hopened, hclosed'⟩
  · rw [← heq, hsplit]
  · intro x hx
    exact ⟨hrest x (List.mem_append_left _ hx), hamong x hx⟩
  · have hle : ¬ 0 < kind.memcmp lo hi := by
      have hpos := h.pos_iff lo hi
      omega
    unfold addRange
    simp only [Option.getD_some]
    rw [if_neg hle, if_neg hne, ← ha, hstart]
    simp only
    rw [hremove]
    simp only
    rw [hfinish]
    rfl

/-- `addRange` adds the values of the range. -/
theorem addRange_spec (h : Ranked kind rank M) {ts : List (Transition V)} (hts : Valid rank ts)
    (lo hi : Option V) :
    ∃ ts', addRange kind ts lo hi = some ts' ∧ Valid rank ts' ∧
      ∀ v, Member rank ts' v ↔ Member rank ts v ∨
        (rank (lo.getD kind.low) ≤ rank v ∧ rank v ≤ rank (hi.getD kind.high)) := by
  rw [show addRange kind ts lo hi =
    addRange kind ts (some (lo.getD kind.low)) (some (hi.getD kind.high)) from rfl]
  generalize lo.getD kind.low = lo
  generalize hi.getD kind.high = hi
  by_cases hempty : 0 < kind.memcmp lo hi
  · refine ⟨ts, if_pos hempty, hts, ?_⟩
    intro v
    have hgt := (h.pos_iff lo hi).mp hempty
    exact (or_iff_left fun hle => absurd (hle.1.trans hle.2) (not_le.mpr hgt)).symm
  have hlh : rank lo ≤ rank hi := by
    have hpos := h.pos_iff lo hi
    omega
  by_cases hnil : ts = []
  · rw [hnil]
    refine ⟨[⟨lo, true⟩, ⟨hi, false⟩], if_neg hempty, ⟨⟨rfl, rfl, trivial⟩, rfl, ?_⟩, ?_⟩
    · show [rank lo, rank hi].Pairwise (· ≤ ·)
      rw [List.pairwise_pair]
      exact hlh
    · intro v
      show (rank lo ≤ rank v ∧ (rank v ≤ rank hi ∨ false = true)) ↔ false = true ∨ _
      simp
  obtain ⟨below, among, above, start, finish, hparts, hbelow, hamong, habove, -, -, -, hadd, hopened,
    hclosed⟩ := addRange_parts h hts hnil hlh
  refine ⟨start ++ finish, hadd, ⟨?_, ?_, ?_⟩, ?_⟩
  · rw [alternates_append rank, hopened.opened]
    exact ⟨hopened.alternates, hclosed.alternates⟩
  · rw [ends_append, after_append, hopened.opened]
    exact hclosed.closed
  · rw [ends_append]
    exact sorted_append hopened.sorted hclosed.sorted hopened.le
      fun x hx => hlh.trans (hclosed.ge x hx)
  · intro v
    unfold Member
    rw [ends_append, hparts, ends_append, ends_append, ← List.append_assoc]
    apply covers_added hlh hbelow (fun x hx => (hamong x hx).2) habove hopened.opened hopened.le
      (hopened.covers _) hclosed.ge
    · intro hv
      rw [← ends_append]
      exact hclosed.covers _ hv
    · exact fun x hx => (hamong x hx).1

/-! ## Removing a range -/

/-- The start of `killRange`: the ranges are closed before the first value that is removed. -/
theorem killLow_spec (h : Ranked kind rank M) (lo : V) {below : List (Transition V)}
    (halt : Alternates false below) (hsorted : (ends rank below).Pairwise (· ≤ ·))
    (hlt : ∀ x ∈ ends rank below, x < rank lo) :
    ∃ start, (if after false (ends rank below) then below ++ [⟨kind.decrement lo, false⟩]
        else below) = start ∧ Alternates false start ∧ after false (ends rank start) = false ∧
      (ends rank start).Pairwise (· ≤ ·) ∧ (∀ x ∈ ends rank start, x < rank lo) ∧
      ∀ v < rank lo, Covers false (ends rank start) v ↔ Covers false (ends rank below) v := by
  cases hafter : after false (ends rank below) with
  | false =>
    rw [if_neg Bool.false_ne_true]
    exact ⟨below, rfl, halt, hafter, hsorted, hlt, fun v _ => Iff.rfl⟩
  | true =>
    rw [if_pos rfl]
    have hpos : 0 < rank lo := by
      cases below with
      | nil => cases hafter
      | cons t below => exact Nat.zero_lt_of_lt (hlt _ List.mem_cons_self)
    have hdec := h.decrement lo hpos
    refine ⟨below ++ [⟨kind.decrement lo, false⟩], rfl, ?_, ?_, ?_, ?_, ?_⟩
    · rw [alternates_append rank, hafter]
      exact ⟨halt, rfl, trivial⟩
    · rw [ends_append, after_append, hafter]
      rfl
    · rw [ends_append]
      apply @sorted_append _ _ (rank (kind.decrement lo)) hsorted (List.pairwise_singleton _ _)
      · intro x hx
        have hx' := hlt x hx
        omega
      · intro y hy
        exact (List.mem_singleton.mp hy).ge
    · intro x hx
      rw [ends_append] at hx
      rcases List.mem_append.mp hx with hx | hx
      · exact hlt x hx
      · rw [List.mem_singleton.mp hx]
        show rank (kind.decrement lo) < rank lo
        omega
    · intro v hv
      rw [ends_append]
      apply covers_append_of_le hafter
      intro y hy
      rw [List.mem_singleton.mp hy]
      show v ≤ rank (kind.decrement lo)
      omega

/-- The transitions below a value, by the loop of `killRange`. -/
theorem takeWhile_spec (h : Ranked kind rank M) {ts : List (Transition V)}
    (hsorted : (ends rank ts).Pairwise (· ≤ ·)) (lo : V) :
    ∃ rest, ts = ts.takeWhile (fun t => kind.memcmp t.val lo < 0) ++ rest ∧
      ts.drop (ts.takeWhile fun t => kind.memcmp t.val lo < 0).length = rest ∧
      (∀ x ∈ ends rank (ts.takeWhile fun t => kind.memcmp t.val lo < 0), x < rank lo) ∧
      ∀ x ∈ ends rank rest, rank lo ≤ x := by
  induction ts with
  | nil =>
    refine ⟨[], rfl, rfl, ?_, ?_⟩
    · intro x hx
      cases hx
    · intro x hx
      cases hx
  | cons t ts ih =>
    have hsorted' := List.pairwise_cons.mp hsorted
    by_cases hlt : kind.memcmp t.val lo < 0
    · obtain ⟨rest, heq, hdrop, hbelow, hrest⟩ := ih hsorted'.2
      rw [List.takeWhile_cons_of_pos (by simpa using hlt)]
      refine ⟨rest, ?_, ?_, ?_, hrest⟩
      · rw [List.cons_append, ← heq]
      · exact hdrop
      · intro x hx
        rcases List.mem_cons.mp hx with rfl | hx
        · exact (h.neg_iff t.val lo).mp hlt
        · exact hbelow x hx
    · rw [List.takeWhile_cons_of_neg (by simpa using hlt)]
      have hge : rank lo ≤ rank t.val := by
        have hneg := h.neg_iff t.val lo
        omega
      refine ⟨t :: ts, rfl, rfl, ?_, ?_⟩
      · intro x hx
        cases hx
      · intro x hx
        rcases List.mem_cons.mp hx with rfl | hx
        · exact hge
        · exact hge.trans (hsorted'.1 x hx)

/-- What `killRange` does: the transitions below the range and above it. -/
theorem killRange_parts (h : Ranked kind rank M) {ts : List (Transition V)} (hts : Valid rank ts)
    {lo hi : V} (hlh : rank lo ≤ rank hi) :
    ∃ below among above, ts = below ++ (among ++ above) ∧ (∀ x ∈ ends rank below, x < rank lo) ∧
      (∀ x ∈ ends rank among, rank lo ≤ x ∧ x ≤ rank hi) ∧ (∀ x ∈ ends rank above, rank hi < x) ∧
      killRange kind ts (some lo) (some hi) = some
        ((if after false (ends rank below) then below ++ [⟨kind.decrement lo, false⟩] else below) ++
          if after false (ends rank (below ++ among)) then ⟨kind.increment hi, true⟩ :: above
          else above) := by
  have hle : ¬ 0 < kind.memcmp lo hi := by
    have hpos := h.pos_iff lo hi
    omega
  unfold killRange
  simp only [Option.getD_some]
  rw [if_neg hle]
  obtain ⟨rest, hsplit, hdrop, hbelow, hrest⟩ := takeWhile_spec h hts.sorted lo
  rw [hdrop]
  generalize ts.takeWhile (fun t => kind.memcmp t.val lo < 0) = below at hsplit hbelow
  have halt := hts.alternates
  have hsorted := hts.sorted
  rw [hsplit] at halt hsorted
  rw [alternates_append rank] at halt
  rw [ends_append] at hsorted
  have hinset : (below.getLast?.map Transition.state).getD false = after false (ends rank below) := by
    cases hlast : below.getLast? with
    | none =>
      rw [List.getLast?_eq_none_iff.mp hlast]
      rfl
    | some t => exact (after_eq_getLast halt.1 hlast).symm
  rw [hinset]
  obtain ⟨among, above, heq, hremove, hamong, habove⟩ :=
    removeUpTo_spec h hi halt.2 (List.pairwise_append.mp hsorted).2.1
  rw [heq, ends_append] at hrest
  rw [hremove, ← after_append, ← ends_append]
  refine ⟨below, among, above, ?_, hbelow, ?_, habove, rfl⟩
  · rw [hsplit, heq]
  · intro x hx
    exact ⟨hrest x (List.mem_append_left _ hx), hamong x hx⟩

/-- A range that is open behind a value has a greater value. -/
theorem increment_room (h : Ranked kind rank M) {hi : V} {above : List (Transition V)}
    (hclosed : after true (ends rank above) = false) (hgt : ∀ x ∈ ends rank above, rank hi < x) :
    rank hi + 1 < M := by
  cases above with
  | nil => cases hclosed
  | cons t above =>
    have hlt : rank hi < rank t.val := hgt _ List.mem_cons_self
    exact lt_of_le_of_lt hlt (h.lt t.val)

/-- The end of `killRange`: the ranges are opened behind the last value that is removed. -/
theorem killHigh_spec (h : Ranked kind rank M) (hi : V) {b : Bool} {above : List (Transition V)}
    (halt : Alternates b above) (hclosed : after b (ends rank above) = false)
    (hsorted : (ends rank above).Pairwise (· ≤ ·)) (hgt : ∀ x ∈ ends rank above, rank hi < x) :
    ∃ finish, (if b then ⟨kind.increment hi, true⟩ :: above else above) = finish ∧
      Alternates false finish ∧ after false (ends rank finish) = false ∧
      (ends rank finish).Pairwise (· ≤ ·) ∧ (∀ x ∈ ends rank finish, rank hi < x) ∧
      ∀ v, rank hi < v → (Covers false (ends rank finish) v ↔ Covers b (ends rank above) v) := by
  cases b with
  | false =>
    rw [if_neg Bool.false_ne_true]
    exact ⟨above, rfl, halt, hclosed, hsorted, hgt, fun v _ => Iff.rfl⟩
  | true =>
    rw [if_pos rfl]
    have hinc := h.increment hi (increment_room h hclosed hgt)
    refine ⟨⟨kind.increment hi, true⟩ :: above, rfl, ⟨rfl, halt⟩, hclosed, ?_, ?_, ?_⟩
    · refine List.pairwise_cons.mpr ⟨?_, hsorted⟩
      intro x hx
      have hx' := hgt x hx
      show rank (kind.increment hi) ≤ x
      omega
    · intro x hx
      rcases List.mem_cons.mp hx with rfl | hx
      · show rank hi < rank (kind.increment hi)
        omega
      · exact hgt x hx
    · intro v hv
      have hge : rank (kind.increment hi) ≤ v := by omega
      exact and_iff_right hge

/-- `killRange` removes the values of the range; its assertion holds for a range that is not
empty. -/
theorem killRange_spec (h : Ranked kind rank M) {ts : List (Transition V)} (hts : Valid rank ts)
    (lo hi : Option V) (hle : ¬ 0 < kind.memcmp (lo.getD kind.low) (hi.getD kind.high)) :
    ∃ ts', killRange kind ts lo hi = some ts' ∧ Valid rank ts' ∧
      ∀ v, Member rank ts' v ↔ Member rank ts v ∧
        ¬ (rank (lo.getD kind.low) ≤ rank v ∧ rank v ≤ rank (hi.getD kind.high)) := by
  rw [show killRange kind ts lo hi =
    killRange kind ts (some (lo.getD kind.low)) (some (hi.getD kind.high)) from rfl]
  generalize lo.getD kind.low = lo at hle
  generalize hi.getD kind.high = hi at hle
  have hlh : rank lo ≤ rank hi := by
    have hpos := h.pos_iff lo hi
    omega
  obtain ⟨below, among, above, hparts, hbelow, hamong, habove, hkill⟩ := killRange_parts h hts hlh
  have halt := hts.alternates
  have hsorted := hts.sorted
  have hclosed := hts.closed
  rw [hparts, ← List.append_assoc] at halt hsorted hclosed
  rw [alternates_append rank, alternates_append rank] at halt
  rw [ends_append, after_append] at hclosed
  rw [ends_append, ends_append] at hsorted
  obtain ⟨hsortedLow, hsortedAbove, -⟩ := List.pairwise_append.mp hsorted
  obtain ⟨start, hstart, haltStart, hclosedStart, hsortedStart, hltStart, hcoversStart⟩ :=
    killLow_spec h lo halt.1.1 (List.pairwise_append.mp hsortedLow).1 hbelow
  obtain ⟨finish, hfinish, haltFinish, hclosedFinish, hsortedFinish, hgtFinish, hcoversFinish⟩ :=
    killHigh_spec h hi halt.2 hclosed hsortedAbove habove
  rw [hkill, hstart, hfinish]
  refine ⟨start ++ finish, rfl, ⟨?_, ?_, ?_⟩, ?_⟩
  · rw [alternates_append rank, hclosedStart]
    exact ⟨haltStart, haltFinish⟩
  · rw [ends_append, after_append, hclosedStart]
    exact hclosedFinish
  · rw [ends_append]
    exact sorted_append hsortedStart hsortedFinish (fun x hx => (hltStart x hx).le)
      fun x hx => hlh.trans (hgtFinish x hx).le
  · intro v
    unfold Member
    rw [ends_append, hparts, ends_append, ends_append, ← List.append_assoc]
    apply covers_removed hlh hbelow (fun x hx => (hamong x hx).2) habove hclosedStart hltStart
      (hcoversStart _) hgtFinish
    · intro hv
      rw [← ends_append]
      exact hcoversFinish _ hv
    · exact fun x hx => (hamong x hx).1

end StringSet

end HpccPlatform
