import HpccPlatform.StringSet.Ranges

/-!
# Looking a value up in a string set

`inRange` chops a set of four transitions and more, and goes through a smaller one.  Both ways find the
members of the set, also where two ranges share a value.
-/

namespace HpccPlatform

namespace StringSet

open RangeEnds

variable {V : Type*} {kind : ValueKind V} {rank : V → ℕ} {M : ℕ} {ts : List (Transition V)}

theorem inRangeLoop_iff (h : Ranked kind rank M) (v : V) {idx : ℕ} {inset : Bool}
    (halt : Alternates inset ts) (hsorted : (ends rank ts).Pairwise (· ≤ ·)) :
    (inRangeLoop kind v ts idx inset).1 = true ↔ Covers inset (ends rank ts) (rank v) := by
  induction ts generalizing idx inset with
  | nil => exact Iff.rfl
  | cons t ts ih =>
    obtain ⟨hstate, hrest⟩ := halt
    obtain ⟨hfirst, hsorted'⟩ := List.pairwise_cons.mp hsorted
    have hneg := h.neg_iff t.val v
    have hpos := h.pos_iff t.val v
    rw [inRangeLoop]
    cases inset with
    | false =>
      rw [Bool.not_false] at hstate
      rw [hstate] at hrest
      simp only [hstate, if_true]
      show _ ↔ rank t.val ≤ rank v ∧ Covers true (ends rank ts) (rank v)
      rcases lt_trichotomy (rank t.val) (rank v) with hlt | heq | hgt
      · have hdiff := hneg.mpr hlt
        rw [if_pos hdiff.le, if_neg hdiff.ne, if_neg hdiff.asymm, ih hrest hsorted',
          and_iff_right hlt.le]
      · have hdiff := (h.zero_iff t.val v).mpr heq
        rw [if_pos hdiff.le, if_pos hdiff]
        exact iff_of_true rfl ⟨heq.le, covers_true fun x hx => heq ▸ hfirst x hx⟩
      · have hdiff := hpos.mpr hgt
        rw [if_neg hdiff.not_ge, if_neg hdiff.ne', if_pos hdiff]
        exact iff_of_false Bool.false_ne_true fun hcovers => absurd hcovers.1 hgt.not_ge
    | true =>
      rw [Bool.not_true] at hstate
      rw [hstate] at hrest
      simp only [hstate, Bool.false_eq_true, if_false]
      show _ ↔ rank v ≤ rank t.val ∨ Covers false (ends rank ts) (rank v)
      by_cases hle : rank v ≤ rank t.val
      · rw [if_pos (not_lt.mp (mt hneg.mp hle.not_gt))]
        exact iff_of_true rfl (Or.inl hle)
      · rw [if_neg (not_le.mpr (hneg.mpr (not_le.mp hle))), ih hrest hsorted', or_iff_right hle]

/-- The chop splits the transitions at the value; the last one before it decides. -/
theorem inRangeChop_split (h : Ranked kind rank M) (hsorted : (ends rank ts).Pairwise (· ≤ ·)) (v : V) :
    ∃ front back, ts = front ++ back ∧ (∀ t ∈ front, rank t.val ≤ rank v) ∧
      (∀ t ∈ back, rank v < rank t.val) ∧
      inRangeChop kind ts v =
        match front.getLast? with
        | none => (false, some 0)
        | some t =>
          if t.state then (true, if back = [] then none else some front.length)
          else if kind.memcmp v t.val = 0 then (true, some (front.length - 1))
          else (false, if back = [] then none else some front.length) := by
  have hfalls : ts.Pairwise fun t u => rank u.val ≤ rank v → rank t.val ≤ rank v :=
    (List.pairwise_map.mp hsorted).imp fun hle => hle.trans
  unfold inRangeChop
  dsimp only
  generalize hchop : BinaryChop.chopCount _ ts.length 0 ts.length = a
  obtain ⟨hlen, hbelow, habove⟩ : a ≤ ts.length ∧ (∀ t ∈ ts.take a, rank t.val ≤ rank v) ∧
      ∀ t ∈ ts.drop a, ¬rank t.val ≤ rank v := by
    rw [← hchop]
    exact BinaryChop.chopCount_list (fun i hi => by
      rw [List.getElem?_eq_getElem hi, decide_eq_true_iff, ← not_lt, h.neg_iff, not_lt]) hfalls
  refine ⟨ts.take a, ts.drop a, (List.take_append_drop a ts).symm, hbelow,
    fun t ht => not_le.mp (habove t ht), ?_⟩
  have hnext : (if ts.length ≤ a then none else some a) =
      if ts.drop a = [] then none else some (ts.take a).length := by
    rw [List.length_take, min_eq_left hlen]
    exact if_congr List.drop_eq_nil_iff.symm rfl rfl
  rw [hnext, List.length_take, min_eq_left hlen]
  by_cases hzero : 0 < a
  · have hlt : a - 1 < ts.length := (Nat.sub_lt hzero Nat.one_pos).trans_le hlen
    have hsplit : ts.take a = ts.take (a - 1) ++ [ts[a - 1]] := by
      rw [List.take_append_getElem hlt, Nat.sub_add_cancel hzero]
    have hlast : (ts.take a).getLast? = some ts[a - 1] := by rw [hsplit, List.getLast?_concat]
    rw [if_pos hzero, List.getElem?_eq_getElem hlt, hlast]
  · rw [if_neg hzero, Nat.eq_zero_of_not_pos hzero]
    rfl

theorem inRangeChop_iff (h : Ranked kind rank M) (hts : Valid rank ts) (v : V) :
    (inRangeChop kind ts v).1 = true ↔ Member rank ts v := by
  obtain ⟨front, back, rfl, hfront, hback, hchop⟩ := inRangeChop_split h hts.sorted v
  have hle : ∀ x ∈ ends rank front, x ≤ rank v := by
    intro x hx
    obtain ⟨t, ht, rfl⟩ := mem_ends.mp hx
    exact hfront t ht
  have hgt : ∀ x ∈ ends rank back, rank v < x := by
    intro x hx
    obtain ⟨t, ht, rfl⟩ := mem_ends.mp hx
    exact hback t ht
  have hcut : Member rank (front ++ back) v ↔ Covers false (ends rank front) (rank v) := by
    rw [Member, ends_append, covers_append_of_lt hgt]
  have halt := hts.alternates
  have hsorted := hts.sorted
  rw [alternates_append rank] at halt
  rw [ends_append] at hsorted
  rw [hcut, hchop]
  cases hlast : front.getLast? with
  | none =>
    rw [List.getLast?_eq_none_iff.mp hlast]
    exact iff_of_false Bool.false_ne_true Bool.false_ne_true
  | some t =>
    dsimp only
    have hafter := @after_eq_getLast _ rank _ _ _ halt.1 hlast
    cases hstate : t.state with
    | true =>
      rw [if_pos rfl]
      exact iff_of_true rfl (covers_of_ge (hafter.trans hstate) hle)
    | false =>
      rw [if_neg Bool.false_ne_true]
      obtain ⟨start, rfl⟩ := List.getLast?_eq_some_iff.mp hlast
      have haltStart := halt.1
      rw [alternates_append rank] at haltStart
      rw [ends_append] at hle hsorted ⊢
      have hopen : after false (ends rank start) = true := by
        have hfirst := haltStart.2.1
        rw [hstate, ← Bool.not_true] at hfirst
        exact (Bool.not_inj hfirst).symm
      have htle : rank t.val ≤ rank v := hle _ (List.mem_append_right _ (List.mem_singleton_self _))
      by_cases hsame : kind.memcmp v t.val = 0
      · rw [if_pos hsame]
        have heq := (h.zero_iff v t.val).mp hsame
        refine iff_of_true rfl ((covers_append_of_le hopen ?_).mpr (covers_of_ge hopen ?_))
        · intro y hy
          rw [List.mem_singleton.mp hy]
          exact heq.le
        · exact fun x hx => hle x (List.mem_append_left _ hx)
      · rw [if_neg hsame]
        have hlt : rank t.val < rank v :=
          lt_of_le_of_ne htle fun heq => hsame ((h.zero_iff v t.val).mpr heq.symm)
        have hbefore : ∀ x ∈ ends rank start ++ ends rank [t], x < rank v := by
          intro x hx
          rcases List.mem_append.mp hx with hx | hx
          · have hxt := (List.pairwise_append.mp (List.pairwise_append.mp hsorted).1).2.2 x hx
              (rank t.val) (List.mem_singleton_self _)
            exact hxt.trans_lt hlt
          · rw [List.mem_singleton.mp hx]
            exact hlt
        have hall := @covers_append_of_gt false _ [] (rank v) hbefore
        rw [List.append_nil] at hall
        rw [hall, after_append, hopen]
        exact iff_of_false Bool.false_ne_true Bool.false_ne_true

/-- `inRange` finds the members of a set. -/
theorem inRange_iff (h : Ranked kind rank M) (hts : Valid rank ts) (v : V) :
    (inRange kind ts v).1 = true ↔ Member rank ts v := by
  unfold inRange
  by_cases hnil : ts = []
  · rw [if_pos hnil, hnil]
    exact Iff.rfl
  rw [if_neg hnil]
  by_cases hlong : 4 ≤ ts.length
  · rw [if_pos hlong]
    exact inRangeChop_iff h hts v
  · rw [if_neg hlong]
    exact inRangeLoop_iff h v hts.alternates hts.sorted

end StringSet

end HpccPlatform
