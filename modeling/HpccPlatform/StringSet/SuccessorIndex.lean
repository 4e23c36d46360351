import HpccPlatform.StringSet.Lookup

/-!
# The transition behind a value

Besides its answer `inRange` returns the index of a transition, with which a seek goes on: the last
value of the range it has found, or the first value of the next range.
-/

namespace HpccPlatform

namespace StringSet

open RangeEnds

variable {V : Type*} {kind : ValueKind V} {rank : V → ℕ} {M : ℕ}
  {ts front back : List (Transition V)} {t u : Transition V} {v : V} {i : ℕ}

/-- The transitions at `i` and behind it are the first and the last value of a range that has `v`. -/
structure RangeAt (rank : V → ℕ) (ts : List (Transition V)) (i : ℕ) (v : V)
    (t u : Transition V) : Prop where
  first : ts[i]? = some t
  last : ts[i + 1]? = some u
  opens : t.state = true
  closes : u.state = false
  ge : rank t.val ≤ rank v
  le : rank v ≤ rank u.val

/-- The index of the last value of a range that has `v`. -/
def EndsRange (rank : V → ℕ) (ts : List (Transition V)) (v : V) (next : Option ℕ) : Prop :=
  ∃ i t u, RangeAt rank ts i v t u ∧ next = some (i + 1)

/-- The index of the smallest first value above `v`. -/
def FirstAbove (rank : V → ℕ) (ts : List (Transition V)) (v : V) : Option ℕ → Prop
  | some i => ∃ t, ts[i]? = some t ∧ t.state = true ∧ rank v < rank t.val ∧
      ∀ j u, ts[j]? = some u → u.state = true → rank v < rank u.val → rank t.val ≤ rank u.val ∧ i ≤ j
  | none => ∀ u ∈ ts, u.state = true → rank u.val ≤ rank v

/-- What `nextTransition` is set to. -/
structure NextTransition (rank : V → ℕ) (ts : List (Transition V)) (v : V)
    (answer : Bool × Option ℕ) : Prop where
  found : answer.1 = true → EndsRange rank ts v answer.2
  missed : answer.1 = false → FirstAbove rank ts v answer.2

theorem endsRange_split (ht : t.state = true) (hu : u.state = false) (hge : rank t.val ≤ rank v)
    (hle : rank v ≤ rank u.val) :
    EndsRange rank (front ++ t :: u :: back) v (some (front.length + 1)) := by
  refine ⟨front.length, t, u, ⟨?_, ?_, ht, hu, hge, hle⟩, rfl⟩
  · rw [List.getElem?_append_right le_rfl, Nat.sub_self]
    rfl
  · rw [List.getElem?_append_right (Nat.le_add_right _ 1), Nat.add_sub_cancel_left]
    rfl

theorem firstAbove_split (hsorted : (ends rank (front ++ t :: back)).Pairwise (· ≤ ·))
    (ht : t.state = true) (hgt : rank v < rank t.val) (hfront : ∀ u ∈ front, rank u.val ≤ rank v) :
    FirstAbove rank (front ++ t :: back) v (some front.length) := by
  refine ⟨t, ?_, ht, hgt, ?_⟩
  · rw [List.getElem?_append_right le_rfl, Nat.sub_self]
    rfl
  · intro j u hu _ huv
    rcases Nat.lt_or_ge j front.length with hlt | hge
    · rw [List.getElem?_append_left hlt] at hu
      exact absurd huv (not_lt.mpr (hfront u (List.mem_of_getElem? hu)))
    · refine ⟨?_, hge⟩
      rw [List.getElem?_append_right hge] at hu
      rcases List.mem_cons.mp (List.mem_of_getElem? hu) with rfl | hmem
      · exact le_rfl
      · rw [ends_append] at hsorted
        exact (List.pairwise_cons.mp (List.pairwise_append.mp hsorted).2.1).1 _
          (mem_ends.mpr ⟨u, hmem, rfl⟩)

/-- The values of a stored range belong to the set. -/
theorem RangeAt.member (hts : Valid rank ts) (hrange : RangeAt rank ts i v t u) :
    Member rank ts v := by
  obtain ⟨hi, hfirst⟩ := List.getElem?_eq_some_iff.mp hrange.first
  obtain ⟨hi', hlast⟩ := List.getElem?_eq_some_iff.mp hrange.last
  have hsplit : ts = ts.take i ++ t :: u :: ts.drop (i + 2) := by
    rw [← hfirst, ← hlast, ← List.drop_eq_getElem_cons hi', ← List.drop_eq_getElem_cons hi,
      List.take_append_drop]
  have halt := hts.alternates
  have hsorted := hts.sorted
  rw [hsplit, alternates_append rank] at halt
  rw [hsplit, ends_append] at hsorted
  have hclosed : after false (ends rank (ts.take i)) = false := by
    have hopens := halt.2.1
    rw [hrange.opens, ← Bool.not_false] at hopens
    exact (Bool.not_inj hopens).symm
  rw [Member, hsplit, ends_append, covers_append, hclosed]
  refine coversThen_of_ge ?_ ⟨hrange.ge, Or.inl hrange.le⟩
  intro x hx
  exact ((List.pairwise_append.mp hsorted).2.2 x hx _ List.mem_cons_self).trans hrange.ge

/-- The transition behind the first value of a range. -/
theorem exists_last_value (halt : Alternates true back) (hclosed : after true (ends rank back) = false) :
    ∃ u rest, back = u :: rest ∧ u.state = false := by
  cases back with
  | nil => cases hclosed
  | cons u rest => exact ⟨u, rest, rfl, halt.1⟩

/-! ### Fewer than four transitions -/

/-- The index at which the loop stops, with the transitions `front` behind it. -/
theorem inRangeLoop_next (h : Ranked kind rank M) (v : V) {inset : Bool}
    (halt : Alternates inset back) (hclosed : after inset (ends rank back) = false)
    (hsorted : (ends rank (front ++ back)).Pairwise (· ≤ ·))
    (hfront : ∀ u ∈ front, rank u.val ≤ rank v)
    (hopen : inset = true → ∃ start t, front = start ++ [t] ∧ t.state = true) :
    ((inRangeLoop kind v back front.length inset).1 = true →
      EndsRange rank (front ++ back) v (some (inRangeLoop kind v back front.length inset).2)) ∧
    ((inRangeLoop kind v back front.length inset).1 = false →
      FirstAbove rank (front ++ back) v
        (if (front ++ back).length ≤ (inRangeLoop kind v back front.length inset).2 then none
          else some (inRangeLoop kind v back front.length inset).2)) := by
  induction back generalizing front inset with
  | nil =>
    have hinset : inset = false := hclosed
    subst hinset
    refine ⟨fun hfound => absurd hfound Bool.false_ne_true, fun _ => ?_⟩
    rw [List.append_nil, inRangeLoop, if_pos le_rfl]
    exact fun u hu _ => hfront u hu
  | cons t back ih =>
    obtain ⟨hstate, hrest⟩ := halt
    have hclosed' : after t.state (ends rank back) = false := by
      rw [hstate]
      exact hclosed
    have hassoc : front ++ t :: back = front ++ [t] ++ back := (List.append_assoc front [t] back).symm
    have hlength : front.length + 1 = (front ++ [t]).length := by
      rw [List.length_append, List.length_singleton]
    have hneg := h.neg_iff t.val v
    have hpos := h.pos_iff t.val v
    rw [inRangeLoop]
    -- the transition is passed
    have hpass : rank t.val < rank v → ∀ u ∈ front ++ [t], rank u.val ≤ rank v := by
      intro hlt u hu
      rcases List.mem_append.mp hu with hu | hu
      · exact hfront u hu
      · rw [List.mem_singleton.mp hu]
        exact hlt.le
    cases inset with
    | false =>
      have ht : t.state = true := hstate
      rw [if_pos ht]
      rcases lt_trichotomy (rank t.val) (rank v) with hlt | heq | hgt
      · have hdiff := hneg.mpr hlt
        rw [if_pos hdiff.le, if_neg hdiff.ne, if_neg hdiff.asymm, hlength, hassoc]
        rw [ht] at hrest hclosed'
        exact ih hrest hclosed' (hassoc ▸ hsorted) (hpass hlt) fun _ => ⟨front, t, rfl, ht⟩
      · have hdiff := (h.zero_iff t.val v).mpr heq
        rw [if_pos hdiff.le, if_pos hdiff]
        rw [ht] at hrest hclosed'
        obtain ⟨u, rest, rfl, hu⟩ := exists_last_value hrest hclosed'
        have htu : rank t.val ≤ rank u.val := by
          rw [ends_append] at hsorted
          exact (List.pairwise_cons.mp (List.pairwise_append.mp hsorted).2.1).1 _ List.mem_cons_self
        exact ⟨fun _ => endsRange_split ht hu heq.le (heq ▸ htu), fun hmissed => by cases hmissed⟩
      · have hdiff := hpos.mpr hgt
        rw [if_neg hdiff.not_ge, if_neg hdiff.ne', if_pos hdiff]
        refine ⟨fun hfound => absurd hfound Bool.false_ne_true, fun _ => ?_⟩
        have hlt : ¬ (front ++ t :: back).length ≤ front.length := by
          rw [List.length_append, List.length_cons]
          exact not_le.mpr (Nat.lt_add_of_pos_right (Nat.succ_pos _))
        rw [if_neg hlt]
        exact firstAbove_split hsorted ht hgt hfront
    | true =>
      have ht : t.state = false := hstate
      rw [if_neg (by rw [ht]; exact Bool.false_ne_true)]
      obtain ⟨start, t₀, rfl, ht₀⟩ := hopen rfl
      by_cases hle : rank v ≤ rank t.val
      · rw [if_pos (not_lt.mp (mt hneg.mp hle.not_gt))]
        have hends := @endsRange_split _ rank start back t₀ t v ht₀ ht
          (hfront t₀ (List.mem_append_right _ List.mem_cons_self)) hle
        rw [List.length_append, List.append_assoc]
        exact ⟨fun _ => hends, fun hmissed => by cases hmissed⟩
      · rw [if_neg (not_le.mpr (hneg.mpr (not_le.mp hle))), hlength, hassoc]
        rw [ht] at hrest hclosed'
        exact ih hrest hclosed' (hassoc ▸ hsorted) (hpass (not_le.mp hle))
          fun htrue => absurd htrue Bool.false_ne_true

theorem inRangeLinear_next (h : Ranked kind rank M) (hts : Valid rank ts) (v : V) :
    NextTransition rank ts v (inRangeLinear kind ts v) := by
  obtain ⟨hfound, hmissed⟩ := @inRangeLoop_next _ _ _ _ [] ts h v false hts.alternates hts.closed
    hts.sorted (fun u hu => absurd hu List.not_mem_nil) fun htrue => absurd htrue Bool.false_ne_true
  refine ⟨fun hin => ?_, hmissed⟩
  have hends := hfound hin
  obtain ⟨i, t, u, hrange, hnext⟩ := hends
  have hlt : (inRangeLoop kind v ts 0 false).2 < ts.length := by
    obtain ⟨hbound, -⟩ := List.getElem?_eq_some_iff.mp hrange.last
    exact (Option.some.inj hnext) ▸ hbound
  refine ⟨i, t, u, hrange, ?_⟩
  show (if ts.length ≤ (inRangeLoop kind v ts 0 false).2 then none
    else some (inRangeLoop kind v ts 0 false).2) = _
  rw [if_neg (not_le.mpr hlt)]
  exact hnext

/-! ### Four transitions and more -/

theorem inRangeChop_next (h : Ranked kind rank M) (hts : Valid rank ts) (hne : ts ≠ []) (v : V) :
    NextTransition rank ts v (inRangeChop kind ts v) := by
  obtain ⟨front, back, rfl, hfront, hback, hchop⟩ := inRangeChop_split h hts.sorted v
  have halt := hts.alternates
  have hclosed := hts.closed
  rw [alternates_append rank] at halt
  rw [ends_append, after_append] at hclosed
  -- the first value of the next range
  have hnext : after false (ends rank front) = false →
      FirstAbove rank (front ++ back) v (if back = [] then none else some front.length) := by
    intro hend
    cases back with
    | nil =>
      rw [if_pos rfl, List.append_nil]
      exact fun u hu _ => hfront u hu
    | cons u rest =>
      rw [if_neg (List.cons_ne_nil u rest)]
      refine firstAbove_split hts.sorted ?_ (hback u List.mem_cons_self) hfront
      rw [halt.2.1, hend]
      rfl
  rw [hchop]
  cases hlast : front.getLast? with
  | none =>
    have hnil := List.getLast?_eq_none_iff.mp hlast
    subst hnil
    have hend := hnext rfl
    rw [if_neg (show back ≠ [] from hne)] at hend
    exact ⟨fun hfound => absurd hfound Bool.false_ne_true, fun _ => hend⟩
  | some t =>
    have hafter := @after_eq_getLast _ rank _ _ _ halt.1 hlast
    obtain ⟨start, rfl⟩ := List.getLast?_eq_some_iff.mp hlast
    have htle := hfront t (List.mem_append_right _ List.mem_cons_self)
    dsimp only
    cases hstate : t.state with
    | true =>
      rw [if_pos rfl]
      rw [hafter, hstate] at halt hclosed
      obtain ⟨u, rest, rfl, hu⟩ := exists_last_value halt.2 hclosed
      rw [if_neg (List.cons_ne_nil u rest), List.append_assoc, List.length_append]
      exact ⟨fun _ => endsRange_split hstate hu htle (hback u List.mem_cons_self).le,
        fun hmissed => by cases hmissed⟩
    | false =>
      rw [if_neg Bool.false_ne_true]
      by_cases hsame : kind.memcmp v t.val = 0
      · rw [if_pos hsame]
        refine ⟨fun _ => ?_, fun hmissed => by cases hmissed⟩
        have haltStart := halt.1
        rw [alternates_append rank] at haltStart
        have hopen : after false (ends rank start) = true := by
          have hfirst := haltStart.2.1
          rw [hstate, ← Bool.not_true] at hfirst
          exact (Bool.not_inj hfirst).symm
        rcases List.eq_nil_or_concat start with rfl | ⟨start, t₀, rfl⟩
        · cases hopen
        · rw [List.concat_eq_append] at *
          have ht₀ : t₀.state = true :=
            (@after_eq_getLast _ rank _ _ _ haltStart.1 List.getLast?_concat).symm.trans hopen
          have hge := hfront t₀
            (List.mem_append_left _ (List.mem_append_right _ List.mem_cons_self))
          have hends := @endsRange_split _ rank start back t₀ t v ht₀ hstate hge
            ((h.zero_iff v t.val).mp hsame).le
          rw [List.append_assoc, List.append_assoc, List.length_append, List.length_append]
          exact hends
      · rw [if_neg hsame]
        exact ⟨fun hfound => absurd hfound Bool.false_ne_true, fun _ => hnext (hafter.trans hstate)⟩

/-- `inRange` returns the last value of the range it has found, or the first value of the next one. -/
theorem inRange_next (h : Ranked kind rank M) (hts : Valid rank ts) (v : V) :
    NextTransition rank ts v (inRange kind ts v) := by
  unfold inRange
  by_cases hnil : ts = []
  · rw [if_pos hnil, hnil]
    exact ⟨fun hfound => absurd hfound Bool.false_ne_true, fun _ u hu => absurd hu List.not_mem_nil⟩
  rw [if_neg hnil]
  by_cases hlong : 4 ≤ ts.length
  · rw [if_pos hlong]
    exact inRangeChop_next h hts hnil v
  · rw [if_neg hlong]
    exact inRangeLinear_next h hts v

end StringSet

end HpccPlatform
