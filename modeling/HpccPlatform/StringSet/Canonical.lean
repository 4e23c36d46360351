import HpccPlatform.StringSet.Ranges

/-!
# Separated ranges

A transition stands at a cut between values: before the first value of a range, or behind the last
one.  The cuts of a set increase strictly when no range is empty and a value is left out between any
two of them.  The operations of a set keep this, but for a union of two sets one of which has a range
that ends where a range of the other begins.
-/

namespace HpccPlatform

namespace StringSet

open RangeEnds

variable {V : Type*} {kind : ValueKind V} {rank : V → ℕ} {M : ℕ}

/-- The place of a transition between the values. -/
def cut (rank : V → ℕ) (t : Transition V) : ℕ := if t.state then rank t.val else rank t.val + 1

def Increasing (rank : V → ℕ) (ts : List (Transition V)) : Prop :=
  ts.Pairwise fun t u => cut rank t < cut rank u

/-- The transitions of separated ranges. -/
structure Canonical (rank : V → ℕ) (ts : List (Transition V)) : Prop where
  alternates : Alternates false ts
  closed : after false (ends rank ts) = false
  increasing : Increasing rank ts

section Cuts

variable {t u : Transition V} {ts us : List (Transition V)}

theorem cut_of_state (h : t.state = true) : cut rank t = rank t.val := by rw [cut, if_pos h]

theorem cut_of_not_state (h : t.state = false) : cut rank t = rank t.val + 1 := by
  rw [cut, h, if_neg Bool.false_ne_true]

theorem rank_le_cut (rank : V → ℕ) (t : Transition V) : rank t.val ≤ cut rank t := by
  unfold cut
  split_ifs <;> omega

theorem cut_le (rank : V → ℕ) (t : Transition V) : cut rank t ≤ rank t.val + 1 := by
  unfold cut
  split_ifs <;> omega

theorem rank_le_of_cut_lt (h : cut rank t < cut rank u) : rank t.val ≤ rank u.val := by
  have hle := rank_le_cut rank t
  have hge := cut_le rank u
  omega

theorem Increasing.sorted (h : Increasing rank ts) : (ends rank ts).Pairwise (· ≤ ·) := by
  unfold ends
  rw [List.pairwise_map]
  exact h.imp rank_le_of_cut_lt

theorem Canonical.valid (h : Canonical rank ts) : Valid rank ts :=
  ⟨h.alternates, h.closed, h.increasing.sorted⟩

theorem increasing_append {x : ℕ} (hts : Increasing rank ts) (hus : Increasing rank us)
    (hle : ∀ t ∈ ts, cut rank t ≤ x) (hgt : ∀ u ∈ us, x < cut rank u) :
    Increasing rank (ts ++ us) :=
  List.pairwise_append.mpr ⟨hts, hus, fun t ht u hu => (hle t ht).trans_lt (hgt u hu)⟩

theorem lt_of_mem_ends {x : ℕ} (h : ∀ y ∈ ends rank ts, y < x) : ∀ t ∈ ts, rank t.val < x :=
  fun _ ht => h _ (List.mem_map_of_mem ht)

theorem gt_of_mem_ends {x : ℕ} (h : ∀ y ∈ ends rank ts, x < y) : ∀ t ∈ ts, x < rank t.val :=
  fun _ ht => h _ (List.mem_map_of_mem ht)

theorem cut_le_of_lt {x : ℕ} (h : ∀ t ∈ ts, rank t.val < x) : ∀ t ∈ ts, cut rank t ≤ x :=
  fun t ht => (cut_le rank t).trans (h t ht)

theorem lt_cut_of_lt {x : ℕ} (h : ∀ t ∈ ts, x < rank t.val) : ∀ t ∈ ts, x < cut rank t :=
  fun t ht => (h t ht).trans_le (rank_le_cut rank t)

/-- The last transition stands behind all others. -/
theorem exists_last (hinc : Increasing rank ts) (hlast : ts.getLast? = some t) :
    ts = ts.dropLast ++ [t] ∧ ∀ u ∈ ts.dropLast, cut rank u < cut rank t := by
  have hsplit : ts = ts.dropLast ++ [t] := by
    obtain ⟨us, hus⟩ := List.getLast?_eq_some_iff.mp hlast
    rw [hus, List.dropLast_concat]
  refine ⟨hsplit, ?_⟩
  intro u hu
  rw [Increasing, hsplit] at hinc
  exact (List.pairwise_append.mp hinc).2.2 u hu t (List.mem_singleton_self t)

end Cuts

/-! ### Adding and removing a range -/

section Edit

variable {ts ts' : List (Transition V)} {lo hi : Option V}

theorem addLow_increasing (h : Ranked kind rank M) {lo : V} {a : ℕ} {start : List (Transition V)}
    {b : Bool} (hinc : Increasing rank (ts.take a))
    (hlt : ∀ t ∈ ts.take a, rank t.val < rank lo) (hstart : addLow kind ts lo a = (start, b)) :
    Increasing rank start ∧ ∀ t ∈ start, cut rank t ≤ rank lo := by
  unfold addLow at hstart
  generalize ts.take a = below at hinc hlt hstart
  have hle := cut_le_of_lt hlt
  have hone : cut rank ⟨lo, true⟩ = rank lo := rfl
  cases hlast : below.getLast? with
  | none =>
    rw [hlast] at hstart
    obtain ⟨rfl, -⟩ := Prod.mk.inj hstart
    refine ⟨List.pairwise_singleton _ _, ?_⟩
    intro t ht
    rw [List.mem_singleton.mp ht, hone]
  | some t =>
    obtain ⟨hsplit, hbefore⟩ := exists_last hinc hlast
    have hmem : t ∈ below := List.mem_of_getLast? hlast
    rw [hlast] at hstart
    simp only at hstart
    cases hstate : t.state with
    | true =>
      rw [hstate, Bool.not_true, if_neg Bool.false_ne_true] at hstart
      obtain ⟨rfl, -⟩ := Prod.mk.inj hstart
      exact ⟨hinc, hle⟩
    | false =>
      rw [hstate, Bool.not_false, if_pos rfl] at hstart
      by_cases hjoin : oneless kind t.val lo = true
      · rw [if_pos hjoin] at hstart
        obtain ⟨rfl, -⟩ := Prod.mk.inj hstart
        exact ⟨hinc.sublist (List.dropLast_sublist _),
          fun u hu => hle u (List.mem_of_mem_dropLast hu)⟩
      · rw [if_neg hjoin] at hstart
        obtain ⟨rfl, -⟩ := Prod.mk.inj hstart
        have hgap : cut rank t < rank lo := by
          have hlt' := hlt t hmem
          have hne := mt (oneless_iff h hlt'.le).mpr hjoin
          rw [cut_of_not_state hstate]
          omega
        refine ⟨List.pairwise_append.mpr ⟨hinc, List.pairwise_singleton _ _, ?_⟩, ?_⟩
        · intro u hu w hw
          rw [List.mem_singleton.mp hw, hone]
          rw [hsplit] at hu
          rcases List.mem_append.mp hu with hu | hu
          · exact (hbefore u hu).trans hgap
          · rw [List.mem_singleton.mp hu]
            exact hgap
        · intro u hu
          rcases List.mem_append.mp hu with hu | hu
          · exact hle u hu
          · rw [List.mem_singleton.mp hu, hone]

theorem addHigh_increasing (h : Ranked kind rank M) {hi : V} {b : Bool}
    {above finish : List (Transition V)} (halt : Alternates b above) (hinc : Increasing rank above)
    (hgt : ∀ t ∈ above, rank hi < rank t.val) (hfinish : addHigh kind hi b above = some finish) :
    Increasing rank finish ∧ ∀ t ∈ finish, rank hi < cut rank t := by
  have hlt := lt_cut_of_lt hgt
  have hone : cut rank ⟨hi, false⟩ = rank hi + 1 := rfl
  unfold addHigh at hfinish
  cases b with
  | true =>
    obtain rfl := Option.some.inj hfinish
    exact ⟨hinc, hlt⟩
  | false =>
    rw [if_neg Bool.false_ne_true] at hfinish
    cases above with
    | nil =>
      obtain rfl := Option.some.inj hfinish
      refine ⟨List.pairwise_singleton _ _, ?_⟩
      intro t ht
      rw [List.mem_singleton.mp ht, hone]
      exact Nat.lt_succ_self _
    | cons t tail =>
      have hstate : t.state = true := halt.1
      have hcut : cut rank t = rank t.val := cut_of_state hstate
      have hbefore := List.pairwise_cons.mp hinc
      simp only [hstate, Bool.not_true, Bool.false_eq_true, if_false] at hfinish
      by_cases hjoin : oneless kind hi t.val = true
      · rw [if_pos hjoin] at hfinish
        obtain rfl := Option.some.inj hfinish
        exact ⟨hbefore.2, fun u hu => hlt u (List.mem_cons_of_mem _ hu)⟩
      · rw [if_neg hjoin] at hfinish
        obtain rfl := Option.some.inj hfinish
        have hgap : rank hi + 1 < cut rank t := by
          have hgt' := hgt t List.mem_cons_self
          have hne := mt (oneless_iff h hgt'.le).mpr hjoin
          omega
        refine ⟨List.pairwise_cons.mpr ⟨?_, hinc⟩, ?_⟩
        · intro u hu
          rw [hone]
          rcases List.mem_cons.mp hu with rfl | hu
          · exact hgap
          · exact hgap.trans (hbefore.1 u hu)
        · intro u hu
          rcases List.mem_cons.mp hu with rfl | hu
          · rw [hone]
            exact Nat.lt_succ_self _
          · exact hlt u hu

/-- `addRange` keeps the ranges apart. -/
theorem addRange_canonical (h : Ranked kind rank M) (hts : Canonical rank ts)
    (hadd : addRange kind ts lo hi = some ts') : Canonical rank ts' := by
  obtain ⟨_, hadd', hvalid, -⟩ := addRange_spec h hts.valid lo hi
  obtain rfl := Option.some.inj (hadd.symm.trans hadd')
  refine ⟨hvalid.alternates, hvalid.closed, ?_⟩
  rw [show addRange kind ts lo hi =
    addRange kind ts (some (lo.getD kind.low)) (some (hi.getD kind.high)) from rfl] at hadd
  generalize lo.getD kind.low = lo at hadd
  generalize hi.getD kind.high = hi at hadd
  by_cases hempty : 0 < kind.memcmp lo hi
  · obtain rfl := Option.some.inj ((if_pos hempty).symm.trans hadd)
    exact hts.increasing
  have hlh : rank lo ≤ rank hi := by
    have hpos := h.pos_iff lo hi
    omega
  by_cases hnil : ts = []
  · have hnew : addRange kind ts (some lo) (some hi) = some [⟨lo, true⟩, ⟨hi, false⟩] := by
      rw [hnil]
      exact if_neg hempty
    obtain rfl := Option.some.inj (hnew.symm.trans hadd)
    exact List.pairwise_pair.mpr (Nat.lt_succ_of_le hlh)
  obtain ⟨below, among, above, start, finish, hparts, hbelow, -, habove, hstart, htake, hfinish, hnew,
    -, -⟩ := addRange_parts h hts.valid hnil hlh
  obtain rfl := Option.some.inj (hnew.symm.trans hadd)
  have halt := hts.alternates
  have hinc := hts.increasing
  rw [hparts, ← List.append_assoc] at halt
  rw [hparts] at hinc
  rw [alternates_append rank] at halt
  obtain ⟨hincBelow, hincRest, -⟩ := List.pairwise_append.mp hinc
  have hincAbove := (List.pairwise_append.mp hincRest).2.1
  rw [htake] at hincBelow hbelow
  obtain ⟨hincStart, hle⟩ := addLow_increasing h hincBelow (lt_of_mem_ends hbelow) hstart
  obtain ⟨hincFinish, hgt⟩ := addHigh_increasing h halt.2 hincAbove (gt_of_mem_ends habove) hfinish
  exact increasing_append hincStart hincFinish (fun t ht => (hle t ht).trans hlh) hgt

/-- `killRange` keeps the ranges apart. -/
theorem killRange_canonical (h : Ranked kind rank M) (hts : Canonical rank ts)
    (hkill : killRange kind ts lo hi = some ts') : Canonical rank ts' := by
  have hassert : ¬ 0 < kind.memcmp (lo.getD kind.low) (hi.getD kind.high) := by
    intro hlt
    rw [killRange, if_pos hlt] at hkill
    cases hkill
  obtain ⟨_, hkill', hvalid, -⟩ := killRange_spec h hts.valid lo hi hassert
  obtain rfl := Option.some.inj (hkill.symm.trans hkill')
  refine ⟨hvalid.alternates, hvalid.closed, ?_⟩
  rw [show killRange kind ts lo hi =
    killRange kind ts (some (lo.getD kind.low)) (some (hi.getD kind.high)) from rfl] at hkill
  generalize lo.getD kind.low = lo at hkill hassert
  generalize hi.getD kind.high = hi at hkill hassert
  have hlh : rank lo ≤ rank hi := by
    have hpos := h.pos_iff lo hi
    omega
  obtain ⟨below, among, above, hparts, hbelow, -, habove, hnew⟩ := killRange_parts h hts.valid hlh
  obtain rfl := Option.some.inj (hnew.symm.trans hkill)
  have halt := hts.alternates
  have hclosed := hts.closed
  have hinc := hts.increasing
  rw [hparts] at hinc
  rw [hparts, ← List.append_assoc] at halt hclosed
  rw [alternates_append rank, alternates_append rank] at halt
  rw [ends_append, after_append] at hclosed
  obtain ⟨hincBelow, hincRest, -⟩ := List.pairwise_append.mp hinc
  have hincAbove := (List.pairwise_append.mp hincRest).2.1
  have hltBelow := lt_of_mem_ends hbelow
  have hgtAbove := gt_of_mem_ends habove
  have hstart : Increasing rank
        (if after false (ends rank below) then below ++ [⟨kind.decrement lo, false⟩] else below) ∧
      ∀ t ∈ (if after false (ends rank below) then below ++ [⟨kind.decrement lo, false⟩] else below),
        cut rank t ≤ rank lo := by
    cases hopen : after false (ends rank below) with
    | false =>
      rw [if_neg Bool.false_ne_true]
      exact ⟨hincBelow, cut_le_of_lt hltBelow⟩
    | true =>
      rw [if_pos rfl]
      -- the last transition below begins a range, so it stands before its value
      cases hlast : below.getLast? with
      | none =>
        rw [List.getLast?_eq_none_iff.mp hlast] at hopen
        cases hopen
      | some t =>
        obtain ⟨hsplit, hbefore⟩ := exists_last hincBelow hlast
        have hstate : t.state = true :=
          (@after_eq_getLast _ rank _ _ _ halt.1.1 hlast).symm.trans hopen
        have hlt := hltBelow t (List.mem_of_getLast? hlast)
        have hdec := h.decrement lo (Nat.zero_lt_of_lt hlt)
        have hone : cut rank ⟨kind.decrement lo, false⟩ = rank lo := hdec
        have hall : ∀ u ∈ below, cut rank u < rank lo := by
          intro u hu
          rw [hsplit] at hu
          have hcut : cut rank t = rank t.val := cut_of_state hstate
          rcases List.mem_append.mp hu with hu | hu
          · have hu' := hbefore u hu
            omega
          · rw [List.mem_singleton.mp hu]
            omega
        refine ⟨List.pairwise_append.mpr ⟨hincBelow, List.pairwise_singleton _ _, ?_⟩, ?_⟩
        · intro u hu w hw
          rw [List.mem_singleton.mp hw, hone]
          exact hall u hu
        · intro u hu
          rcases List.mem_append.mp hu with hu | hu
          · exact (hall u hu).le
          · rw [List.mem_singleton.mp hu, hone]
  have hfinish : Increasing rank
        (if after false (ends rank (below ++ among)) then ⟨kind.increment hi, true⟩ :: above
          else above) ∧
      ∀ t ∈ (if after false (ends rank (below ++ among)) then ⟨kind.increment hi, true⟩ :: above
        else above), rank hi < cut rank t := by
    have haltAbove := halt.2
    cases hopen : after false (ends rank (below ++ among)) with
    | false =>
      rw [if_neg Bool.false_ne_true]
      exact ⟨hincAbove, lt_cut_of_lt hgtAbove⟩
    | true =>
      rw [if_pos rfl]
      rw [hopen] at haltAbove hclosed
      have hinc := h.increment hi (increment_room h hclosed habove)
      have hone : cut rank ⟨kind.increment hi, true⟩ = rank hi + 1 := hinc
      refine ⟨List.pairwise_cons.mpr ⟨?_, hincAbove⟩, ?_⟩
      · -- the first transition above ends a range, so it stands behind its value
        intro u hu
        rw [hone]
        cases above with
        | nil => cases hu
        | cons t above =>
          have hcut : cut rank t = rank t.val + 1 := cut_of_not_state haltAbove.1
          have hgt := hgtAbove t List.mem_cons_self
          rcases List.mem_cons.mp hu with rfl | hu
          · omega
          · have hu' := (List.pairwise_cons.mp hincAbove).1 u hu
            omega
      · intro u hu
        rcases List.mem_cons.mp hu with rfl | hu
        · rw [hone]
          exact Nat.lt_succ_self _
        · exact lt_cut_of_lt hgtAbove u hu
  exact increasing_append hstart.1 hfinish.1 (fun t ht => (hstart.2 t ht).trans hlh) hfinish.2

theorem addAll_canonical (h : Ranked kind rank M) : Canonical rank (addAll kind) := by
  refine ⟨⟨rfl, rfl, trivial⟩, rfl, List.pairwise_pair.mpr ?_⟩
  show rank kind.low < rank kind.high + 1
  rw [h.low]
  exact Nat.succ_pos _

theorem nil_canonical : Canonical rank ([] : List (Transition V)) :=
  ⟨trivial, rfl, List.Pairwise.nil⟩

/-- The loop of `invertSet` only takes ranges out of its result. -/
theorem invertSet_loop_canonical (h : Ranked kind rank M) {inset : Bool} {loval : V}
    {result : List (Transition V)} (hresult : Canonical rank result)
    (hloop : invertSet.loop kind ts inset loval result = some ts') : Canonical rank ts' := by
  induction ts generalizing inset loval result with
  | nil =>
    rw [invertSet.loop] at hloop
    cases inset with
    | true => exact killRange_canonical h hresult hloop
    | false =>
      obtain rfl := Option.some.inj hloop
      exact hresult
  | cons t ts ih =>
    rw [invertSet.loop] at hloop
    by_cases hassert : t.state = inset
    · rw [if_pos hassert] at hloop
      cases hloop
    rw [if_neg hassert] at hloop
    cases inset with
    | false => exact ih hresult hloop
    | true =>
      rw [if_pos rfl] at hloop
      obtain ⟨killed, hkill, hrest⟩ := Option.bind_eq_some_iff.mp hloop
      exact ih (killRange_canonical h hresult hkill) hrest

theorem invertSet_canonical (h : Ranked kind rank M) (hinvert : invertSet kind ts = some ts') :
    Canonical rank ts' :=
  invertSet_loop_canonical h (addAll_canonical h) hinvert

end Edit

end StringSet

end HpccPlatform
