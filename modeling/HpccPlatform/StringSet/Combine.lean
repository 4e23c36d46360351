import HpccPlatform.StringSet.Canonical

/-!
# Union and intersection

`unionOrIntersect` goes through the transitions of two sets in the order of their values.  An
intersection takes the transitions in the order of their cuts.  A union does not where a range of one
set ends at the first value of a range of the other: it takes the end first, and stores two ranges that
share this value.
-/

namespace HpccPlatform

namespace StringSet

open RangeEnds

variable {V : Type*} {kind : ValueKind V} {rank : V → ℕ} {M : ℕ} {isUnion inA inB : Bool}
  {A B a b result : List (Transition V)} {t u : Transition V}

/-- A range of `a` that has more than one value ends where a range of `b` begins. -/
def Touches (a b : List (Transition V)) : Prop :=
  ∃ x : V, (⟨x, false⟩ : Transition V) ∈ a ∧ (⟨x, true⟩ : Transition V) ∈ b ∧
    (⟨x, true⟩ : Transition V) ∉ a

/-- No range of one set ends where a range of the other begins, but for ranges of one value. -/
def Apart (a b : List (Transition V)) : Prop := ¬ Touches a b ∧ ¬ Touches b a

/-! ### The next transition -/

/-- The transition `t` of one set is taken before the transition `u` of the other. -/
def Before (rank : V → ℕ) (isUnion : Bool) (t u : Transition V) : Prop :=
  rank t.val < rank u.val ∨ rank t.val = rank u.val ∧ t.state = !isUnion ∧ u.state = isUnion

theorem compareEdges_eq_zero (h : Ranked kind rank M) (hzero : compareEdges kind isUnion t u = 0) :
    rank t.val = rank u.val ∧ t.state = u.state := by
  unfold compareEdges at hzero
  by_cases hdiff : kind.memcmp t.val u.val = 0
  · refine ⟨(h.zero_iff _ _).mp hdiff, ?_⟩
    simp only [hdiff, if_true] at hzero
    revert hzero
    cases isUnion <;> cases t.state <;> cases u.state <;> simp
  · simp only [hdiff, if_false] at hzero

theorem before_of_compareEdges_neg (h : Ranked kind rank M)
    (hneg : compareEdges kind isUnion t u < 0) : Before rank isUnion t u := by
  unfold compareEdges at hneg
  by_cases hdiff : kind.memcmp t.val u.val = 0
  · refine Or.inr ⟨(h.zero_iff _ _).mp hdiff, ?_⟩
    simp only [hdiff, if_true] at hneg
    revert hneg
    cases isUnion <;> cases t.state <;> cases u.state <;> simp
  · simp only [hdiff, if_false] at hneg
    exact Or.inl ((h.neg_iff _ _).mp hneg)

theorem before_of_compareEdges_pos (h : Ranked kind rank M)
    (hpos : 0 < compareEdges kind isUnion t u) : Before rank isUnion u t := by
  unfold compareEdges at hpos
  by_cases hdiff : kind.memcmp t.val u.val = 0
  · refine Or.inr ⟨((h.zero_iff _ _).mp hdiff).symm, ?_⟩
    simp only [hdiff, if_true] at hpos
    revert hpos
    cases isUnion <;> cases t.state <;> cases u.state <;> simp
  · simp only [hdiff, if_false] at hpos
    exact Or.inl ((h.pos_iff _ _).mp hpos)

/-- A pass takes a transition of one set that comes before those of the other, or two that are
equal. -/
theorem nextEdge_cases (h : Ranked kind rank M) {a' b' : List (Transition V)} {inA' inB' : Bool}
    (hnext : nextEdge kind isUnion a b inA inB = some (t, a', b', inA', inB')) :
    (a = t :: a' ∧ b' = b ∧ inA' = t.state ∧ inB' = inB ∧ ∀ u ∈ b.head?, Before rank isUnion t u) ∨
      (b = t :: b' ∧ a' = a ∧ inB' = t.state ∧ inA' = inA ∧ ∀ u ∈ a.head?, Before rank isUnion t u) ∨
      ∃ u, a = u :: a' ∧ b = t :: b' ∧ inA' = u.state ∧ inB' = t.state ∧
        rank u.val = rank t.val ∧ u.state = t.state := by
  cases a with
  | nil =>
    cases b with
    | nil => cases hnext
    | cons tB restB =>
      cases hnext
      refine Or.inr (Or.inl ⟨rfl, rfl, rfl, rfl, ?_⟩)
      intro u hu
      cases hu
  | cons tA restA =>
    cases b with
    | nil =>
      cases hnext
      refine Or.inl ⟨rfl, rfl, rfl, rfl, ?_⟩
      intro u hu
      cases hu
    | cons tB restB =>
      rw [nextEdge] at hnext
      by_cases hneg : compareEdges kind isUnion tA tB < 0
      · rw [if_pos hneg] at hnext
        cases hnext
        refine Or.inl ⟨rfl, rfl, rfl, rfl, ?_⟩
        intro u hu
        obtain rfl := Option.some.inj hu
        exact before_of_compareEdges_neg h hneg
      rw [if_neg hneg] at hnext
      by_cases hpos : 0 < compareEdges kind isUnion tA tB
      · rw [if_pos hpos] at hnext
        cases hnext
        refine Or.inr (Or.inl ⟨rfl, rfl, rfl, rfl, ?_⟩)
        intro u hu
        obtain rfl := Option.some.inj hu
        exact before_of_compareEdges_pos h hpos
      · rw [if_neg hpos] at hnext
        cases hnext
        obtain ⟨hrank, hstate⟩ :=
          compareEdges_eq_zero h (le_antisymm (not_lt.mp hpos) (not_lt.mp hneg))
        exact Or.inr (Or.inr ⟨tA, rfl, rfl, rfl, rfl, hrank, hstate⟩)

theorem nextEdge_eq_none (hnext : nextEdge kind isUnion a b inA inB = none) : a = [] ∧ b = [] := by
  cases a with
  | nil =>
    cases b with
    | nil => exact ⟨rfl, rfl⟩
    | cons tB restB => cases hnext
  | cons tA restA =>
    cases b with
    | nil => cases hnext
    | cons tB restB =>
      rw [nextEdge] at hnext
      split_ifs at hnext

/-! ### Appending -/

/-- A transition behind all others is appended, or joins the last range with the one it begins. -/
theorem appendTransition_spec (h : Ranked kind rank M) (halt : Alternates false result)
    (hafter : after false (ends rank result) = !t.state) (hinc : Increasing rank result)
    (hle : ∀ r ∈ result, rank r.val ≤ rank t.val ∧ cut rank r ≤ cut rank t) :
    ∃ result', appendTransition kind result t = some result' ∧ Alternates false result' ∧
      after false (ends rank result') = t.state ∧ Increasing rank result' ∧
      ∀ r ∈ result', r ∈ result ∨ r = t := by
  have hput : (∀ r ∈ result, cut rank r < cut rank t) →
      Alternates false (result ++ [t]) ∧ after false (ends rank (result ++ [t])) = t.state ∧
        Increasing rank (result ++ [t]) ∧ ∀ r ∈ result ++ [t], r ∈ result ∨ r = t := by
    intro hlt
    refine ⟨?_, ?_, ?_, ?_⟩
    · rw [alternates_append rank, hafter]
      exact ⟨halt, (Bool.not_not _).symm, trivial⟩
    · rw [ends_append, after_append, hafter]
      exact Bool.not_not _
    · refine List.pairwise_append.mpr ⟨hinc, List.pairwise_singleton _ _, ?_⟩
      intro r hr w hw
      rw [List.mem_singleton.mp hw]
      exact hlt r hr
    · intro r hr
      exact (List.mem_append.mp hr).imp_right List.mem_singleton.mp
  unfold appendTransition
  cases hlast : result.getLast? with
  | none =>
    have hnil := List.getLast?_eq_none_iff.mp hlast
    refine ⟨result ++ [t], ?_, hput ?_⟩
    · cases t.state <;> rfl
    · intro r hr
      rw [hnil] at hr
      cases hr
  | some prev =>
    obtain ⟨hsplit, hbefore⟩ := exists_last hinc hlast
    have hprev : prev.state = !t.state := (@after_eq_getLast _ rank _ _ _ halt hlast).symm.trans hafter
    have hlePrev := hle prev (List.mem_of_getLast? hlast)
    have hall : cut rank prev < cut rank t → ∀ r ∈ result, cut rank r < cut rank t := by
      intro hlt r hr
      rw [hsplit] at hr
      rcases List.mem_append.mp hr with hr | hr
      · exact (hbefore r hr).trans hlt
      · rw [List.mem_singleton.mp hr]
        exact hlt
    cases hstate : t.state with
    | false =>
      rw [hstate] at hput hprev
      refine ⟨result ++ [t], rfl, hput (hall ?_)⟩
      rw [cut_of_state hprev, cut_of_not_state hstate]
      omega
    | true =>
      rw [hstate] at hput hprev hafter
      simp only [hprev, Bool.not_true, Bool.false_eq_true, if_false]
      by_cases hjoin : oneless kind prev.val t.val = true
      · rw [if_pos hjoin]
        have haltSplit := halt
        rw [hsplit, alternates_append rank] at haltSplit
        refine ⟨result.dropLast, rfl, haltSplit.1, ?_, hinc.sublist (List.dropLast_sublist _), ?_⟩
        · have hfirst := haltSplit.2.1
          rw [hprev] at hfirst
          revert hfirst
          cases after false (ends rank result.dropLast) <;> simp
        · exact fun r hr => Or.inl (List.mem_of_mem_dropLast hr)
      · rw [if_neg hjoin]
        refine ⟨result ++ [t], rfl, hput (hall ?_)⟩
        have hne := mt (oneless_iff h hlePrev.1).mpr hjoin
        have hcut := hlePrev.2
        rw [cut_of_not_state hprev, cut_of_state hstate] at hcut ⊢
        omega

/-! ### The loop -/

/-- What is left of one set; the ranges that have begun do not begin later in the other. -/
structure Remains (rank : V → ℕ) (S a other : List (Transition V)) (inS : Bool) : Prop where
  subset : ∀ t ∈ a, t ∈ S
  alternates : Alternates inS a
  closed : after inS (ends rank a) = false
  increasing : Increasing rank a
  begun : ∀ x, (⟨x, true⟩ : Transition V) ∈ S → (⟨x, true⟩ : Transition V) ∉ a →
    (⟨x, true⟩ : Transition V) ∉ other

/-- The transitions of the result are separated, and come before what is left of the two sets. -/
structure Merging (rank : V → ℕ) (isUnion : Bool) (A B a b : List (Transition V)) (inA inB : Bool)
    (result : List (Transition V)) : Prop where
  left : Remains rank A a b inA
  right : Remains rank B b a inB
  alternates : Alternates false result
  state : after false (ends rank result) = combine isUnion inA inB
  increasing : Increasing rank result
  le : ∀ r ∈ result, ∀ u, u ∈ a ∨ u ∈ b → rank r.val ≤ rank u.val ∧ cut rank r ≤ cut rank u

theorem combine_comm (isUnion inA inB : Bool) : combine isUnion inA inB = combine isUnion inB inA := by
  cases isUnion <;> cases inA <;> cases inB <;> rfl

theorem Merging.swap (m : Merging rank isUnion A B a b inA inB result) :
    Merging rank isUnion B A b a inB inA result :=
  ⟨m.right, m.left, m.alternates, m.state.trans (combine_comm _ _ _), m.increasing,
    fun r hr u hu => m.le r hr u hu.symm⟩

/-- The end of a pass: the transition is appended when the state changes. -/
def advance (kind : ValueKind V) (state newState : Bool) (result : List (Transition V))
    (t : Transition V) : Option (List (Transition V)) :=
  if newState = state then some result else appendTransition kind result t

/-- The result after a pass, when the transition that is taken comes before what is left. -/
theorem advance_spec (h : Ranked kind rank M) {newA newB : Bool}
    (m : Merging rank isUnion A B a b inA inB result)
    (hstate : combine isUnion newA newB ≠ combine isUnion inA inB →
      combine isUnion newA newB = t.state)
    (hmem : t ∈ a ∨ t ∈ b) {a' b' : List (Transition V)} (ha : ∀ u ∈ a', u ∈ a)
    (hb : ∀ u ∈ b', u ∈ b)
    (hle : ∀ u, u ∈ a' ∨ u ∈ b' → rank t.val ≤ rank u.val ∧ cut rank t ≤ cut rank u) :
    ∃ result', advance kind (combine isUnion inA inB) (combine isUnion newA newB) result t =
        some result' ∧ Alternates false result' ∧
      after false (ends rank result') = combine isUnion newA newB ∧ Increasing rank result' ∧
      ∀ r ∈ result', ∀ u, u ∈ a' ∨ u ∈ b' → rank r.val ≤ rank u.val ∧ cut rank r ≤ cut rank u := by
  have hold : ∀ r ∈ result, ∀ u, u ∈ a' ∨ u ∈ b' →
      rank r.val ≤ rank u.val ∧ cut rank r ≤ cut rank u :=
    fun r hr u hu => m.le r hr u (hu.imp (ha u) (hb u))
  unfold advance
  by_cases hsame : combine isUnion newA newB = combine isUnion inA inB
  · rw [if_pos hsame, hsame]
    exact ⟨result, rfl, m.alternates, m.state, m.increasing, hold⟩
  · rw [if_neg hsame]
    have hnew := hstate hsame
    have hafter : after false (ends rank result) = !t.state := by
      rw [m.state, ← hnew]
      revert hsame
      cases combine isUnion newA newB <;> cases combine isUnion inA inB <;> simp
    obtain ⟨result', happend, halt, hstate', hinc, hsub⟩ :=
      appendTransition_spec h m.alternates hafter m.increasing fun r hr => m.le r hr t hmem
    refine ⟨result', happend, halt, hstate'.trans hnew.symm, hinc, ?_⟩
    intro r hr u hu
    rcases hsub r hr with hr | rfl
    · exact hold r hr u hu
    · exact hle u hu

theorem Increasing.head_lt (hinc : Increasing rank (t :: a)) (hu : u ∈ a) :
    rank t.val ≤ rank u.val ∧ cut rank t < cut rank u :=
  have hlt := (List.pairwise_cons.mp hinc).1 u hu
  ⟨rank_le_of_cut_lt hlt, hlt⟩

/-- The transition that is taken from one set has no greater cut than those of the other set. -/
theorem Merging.before_le (hinj : Function.Injective rank) (hapart : isUnion = true → ¬ Touches A B)
    (m : Merging rank isUnion A B (t :: a) b inA inB result)
    (hbefore : ∀ u ∈ b.head?, Before rank isUnion t u) (hu : u ∈ b) :
    rank t.val ≤ rank u.val ∧ cut rank t ≤ cut rank u := by
  cases b with
  | nil => cases hu
  | cons w b =>
    have hfirst : rank t.val ≤ rank w.val ∧ cut rank t ≤ cut rank w := by
      rcases hbefore w rfl with hlt | ⟨heq, ht, hw⟩
      · have hcut := cut_le rank t
        have hcut' := rank_le_cut rank w
        omega
      · refine ⟨heq.le, ?_⟩
        cases isUnion with
        | false =>
          rw [cut_of_state ht, heq]
          exact rank_le_cut rank w
        | true =>
          -- the only case against the order of the cuts: the sets touch
          exfalso
          have hval : t.val = w.val := hinj heq
          have htmem : (⟨w.val, false⟩ : Transition V) ∈ A := by
            have hmem := m.left.subset t List.mem_cons_self
            have hstruct : t = ⟨w.val, false⟩ := by
              rw [← hval]
              cases t
              exact congrArg _ ht
            rwa [hstruct] at hmem
          have hwstruct : w = ⟨w.val, true⟩ := by
            cases w
            exact congrArg _ hw
          have hwmem : (⟨w.val, true⟩ : Transition V) ∈ B := by
            rw [← hwstruct]
            exact m.right.subset w List.mem_cons_self
          by_cases hbegun : (⟨w.val, true⟩ : Transition V) ∈ A
          · refine m.left.begun w.val hbegun ?_ ?_
            · intro hmem
              rcases List.mem_cons.mp hmem with heq' | hmem
              · rw [← heq'] at ht
                cases ht
              · have hlt := (m.left.increasing.head_lt hmem).2
                rw [cut_of_not_state ht, cut_of_state rfl, heq] at hlt
                exact absurd hlt (by simp)
            · rw [← hwstruct]
              exact List.mem_cons_self
          · exact hapart rfl ⟨w.val, htmem, hwmem, hbegun⟩
    rcases List.mem_cons.mp hu with rfl | hu
    · exact hfirst
    · obtain ⟨hrank, hcut⟩ := m.right.increasing.head_lt hu
      exact ⟨hfirst.1.trans hrank, hfirst.2.trans hcut.le⟩

/-- A pass that takes a transition of the first set. -/
theorem Merging.advance_left (h : Ranked kind rank M) (hinj : Function.Injective rank)
    (hapart : isUnion = true → ¬ Touches A B)
    (m : Merging rank isUnion A B (t :: a) b inA inB result)
    (hbefore : ∀ u ∈ b.head?, Before rank isUnion t u) :
    ∃ result', advance kind (combine isUnion inA inB) (combine isUnion t.state inB) result t =
      some result' ∧ Merging rank isUnion A B a b t.state inB result' := by
  obtain ⟨hfirst, halt⟩ := m.left.alternates
  have hle : ∀ u, u ∈ a ∨ u ∈ b → rank t.val ≤ rank u.val ∧ cut rank t ≤ cut rank u := by
    rintro u (hu | hu)
    · obtain ⟨hrank, hcut⟩ := m.left.increasing.head_lt hu
      exact ⟨hrank, hcut.le⟩
    · exact m.before_le hinj hapart hbefore hu
  have hstate : combine isUnion t.state inB ≠ combine isUnion inA inB →
      combine isUnion t.state inB = t.state := by
    rw [hfirst]
    cases isUnion <;> cases inA <;> cases inB <;> simp [combine]
  obtain ⟨result', hadvance, halt', hafter, hinc, hle'⟩ := advance_spec h m hstate
    (Or.inl List.mem_cons_self) (fun u hu => List.mem_cons_of_mem t hu) (fun u hu => hu) hle
  refine ⟨result', hadvance, ⟨?_, ?_, halt', hafter, hinc, hle'⟩⟩
  · refine ⟨fun u hu => m.left.subset u (List.mem_cons_of_mem t hu), halt, ?_,
      (List.pairwise_cons.mp m.left.increasing).2, ?_⟩
    · rw [hfirst]
      exact m.left.closed
    · intro x hx hnot hmem
      by_cases heq : (⟨x, true⟩ : Transition V) = t
      · -- the range begins here, and the other set has only later ones
        have hx' : t.val = x := by rw [← heq]
        have ht : t.state = true := by rw [← heq]
        cases b with
        | nil => cases hmem
        | cons w b =>
          have hw : rank w.val ≤ rank x := by
            rcases List.mem_cons.mp hmem with rfl | hmem
            · exact le_rfl
            · exact (m.right.increasing.head_lt hmem).1
          rcases hbefore w rfl with hlt | ⟨hrank, hstate', hwstate⟩
          · rw [hx'] at hlt
            omega
          · cases isUnion with
            | true =>
              rw [ht] at hstate'
              cases hstate'
            | false =>
              rcases List.mem_cons.mp hmem with hmem | hmem
              · rw [← hmem] at hwstate
                cases hwstate
              · have hlt := (m.right.increasing.head_lt hmem).2
                rw [cut_of_not_state hwstate, cut_of_state rfl, ← hrank, hx'] at hlt
                exact absurd hlt (by simp)
      · refine m.left.begun x hx ?_ hmem
        intro hcons
        rcases List.mem_cons.mp hcons with hcons | hcons
        · exact heq hcons
        · exact hnot hcons
  · refine ⟨m.right.subset, m.right.alternates, m.right.closed, m.right.increasing, ?_⟩
    intro x hx hnot hmem
    exact m.right.begun x hx hnot (List.mem_cons_of_mem t hmem)

/-- A pass that takes equal transitions of both sets. -/
theorem Merging.advance_both (h : Ranked kind rank M)
    (m : Merging rank isUnion A B (u :: a) (t :: b) inA inB result)
    (hrank : rank u.val = rank t.val) (hstates : u.state = t.state) :
    ∃ result', advance kind (combine isUnion inA inB) (combine isUnion u.state t.state) result t =
      some result' ∧ Merging rank isUnion A B a b u.state t.state result' := by
  obtain ⟨hfirstA, haltA⟩ := m.left.alternates
  obtain ⟨hfirstB, haltB⟩ := m.right.alternates
  have hcut : cut rank u = cut rank t := by rw [cut, cut, hrank, hstates]
  have hle : ∀ w, w ∈ a ∨ w ∈ b → rank t.val ≤ rank w.val ∧ cut rank t ≤ cut rank w := by
    rintro w (hw | hw)
    · obtain ⟨hrank', hcut'⟩ := m.left.increasing.head_lt hw
      exact ⟨hrank ▸ hrank', hcut ▸ hcut'.le⟩
    · obtain ⟨hrank', hcut'⟩ := m.right.increasing.head_lt hw
      exact ⟨hrank', hcut'.le⟩
  have hstate : combine isUnion u.state t.state ≠ combine isUnion inA inB →
      combine isUnion u.state t.state = t.state := by
    rw [hstates]
    cases isUnion <;> cases t.state <;> simp [combine]
  obtain ⟨result', hadvance, halt', hafter, hinc, hle'⟩ := advance_spec h m hstate
    (Or.inr List.mem_cons_self) (fun w hw => List.mem_cons_of_mem u hw)
    (fun w hw => List.mem_cons_of_mem t hw) hle
  refine ⟨result', hadvance, ⟨?_, ?_, halt', hafter, hinc, hle'⟩⟩
  · refine ⟨fun w hw => m.left.subset w (List.mem_cons_of_mem u hw), haltA, ?_,
      (List.pairwise_cons.mp m.left.increasing).2, ?_⟩
    · rw [hfirstA]
      exact m.left.closed
    · intro x hx hnot hmem
      by_cases heq : (⟨x, true⟩ : Transition V) = u
      · have hlt := (m.right.increasing.head_lt hmem).2
        rw [← hcut, ← heq] at hlt
        exact lt_irrefl _ hlt
      · exact m.left.begun x hx (fun hcons => (List.mem_cons.mp hcons).elim heq hnot)
          (List.mem_cons_of_mem t hmem)
  · refine ⟨fun w hw => m.right.subset w (List.mem_cons_of_mem t hw), haltB, ?_,
      (List.pairwise_cons.mp m.right.increasing).2, ?_⟩
    · rw [hfirstB]
      exact m.right.closed
    · intro x hx hnot hmem
      by_cases heq : (⟨x, true⟩ : Transition V) = t
      · have hlt := (m.left.increasing.head_lt hmem).2
        rw [hcut, ← heq] at hlt
        exact lt_irrefl _ hlt
      · exact m.right.begun x hx (fun hcons => (List.mem_cons.mp hcons).elim heq hnot)
          (List.mem_cons_of_mem u hmem)

theorem unionOrIntersect_loop_eq {fuel : ℕ} {a' b' : List (Transition V)} {newA newB state : Bool}
    (hnext : nextEdge kind isUnion a b inA inB = some (t, a', b', newA, newB))
    {result' : List (Transition V)}
    (hadvance : advance kind state (combine isUnion newA newB) result t = some result') :
    unionOrIntersect.loop kind isUnion (fuel + 1) a b inA inB state result =
      unionOrIntersect.loop kind isUnion fuel a' b' newA newB (combine isUnion newA newB) result' := by
  unfold advance at hadvance
  rw [unionOrIntersect.loop, hnext]
  dsimp only
  by_cases hsame : combine isUnion newA newB = state
  · rw [if_pos hsame] at hadvance ⊢
    obtain rfl := Option.some.inj hadvance
    rw [hsame]
  · rw [if_neg hsame] at hadvance ⊢
    rw [hadvance]
    rfl

theorem unionOrIntersect_loop_canonical (h : Ranked kind rank M) (hinj : Function.Injective rank)
    (hapart : isUnion = true → Apart A B) {fuel : ℕ} (hfuel : a.length + b.length < fuel)
    (m : Merging rank isUnion A B a b inA inB result) :
    ∃ ts, unionOrIntersect.loop kind isUnion fuel a b inA inB (combine isUnion inA inB) result =
      some ts ∧ Canonical rank ts := by
  induction fuel generalizing a b inA inB result with
  | zero => omega
  | succ fuel ih =>
    cases hnext : nextEdge kind isUnion a b inA inB with
    | none =>
      obtain ⟨rfl, rfl⟩ := nextEdge_eq_none hnext
      refine ⟨result, ?_, m.alternates, ?_, m.increasing⟩
      · rw [unionOrIntersect.loop, hnext]
      · rw [m.state, show inA = false from m.left.closed, show inB = false from m.right.closed]
        cases isUnion <;> rfl
    | some edge =>
      obtain ⟨t, a', b', newA, newB⟩ := edge
      rcases nextEdge_cases h hnext with ⟨rfl, rfl, rfl, rfl, hbefore⟩ |
        ⟨rfl, rfl, rfl, rfl, hbefore⟩ | ⟨u, rfl, rfl, rfl, rfl, hrank, hstates⟩
      · obtain ⟨result', hadvance, m'⟩ :=
          m.advance_left h hinj (fun hunion => (hapart hunion).1) hbefore
        rw [unionOrIntersect_loop_eq hnext hadvance]
        exact ih (by rw [List.length_cons] at hfuel; omega) m'
      · obtain ⟨result', hadvance, m'⟩ :=
          m.swap.advance_left h hinj (fun hunion => (hapart hunion).2) hbefore
        rw [combine_comm isUnion inB, combine_comm isUnion t.state] at hadvance
        rw [unionOrIntersect_loop_eq hnext hadvance]
        exact ih (by rw [List.length_cons] at hfuel; omega) m'.swap
      · obtain ⟨result', hadvance, m'⟩ := m.advance_both h hrank hstates
        rw [unionOrIntersect_loop_eq hnext hadvance]
        exact ih (by rw [List.length_cons, List.length_cons] at hfuel; omega) m'

/-- An intersection of separated ranges has separated ranges, and so has a union of sets that are
apart. -/
theorem unionOrIntersect_canonical (h : Ranked kind rank M) (hinj : Function.Injective rank)
    (ha : Canonical rank a) (hb : Canonical rank b) (hapart : isUnion = true → Apart a b) :
    ∃ ts, unionOrIntersect kind isUnion a b = some ts ∧ Canonical rank ts := by
  have hstate : combine isUnion false false = false := by cases isUnion <;> rfl
  have m : Merging rank isUnion a b a b false false [] :=
    { left := ⟨fun _ ht => ht, ha.alternates, ha.closed, ha.increasing,
        fun _ hx hnot => absurd hx hnot⟩
      right := ⟨fun _ ht => ht, hb.alternates, hb.closed, hb.increasing,
        fun _ hx hnot => absurd hx hnot⟩
      alternates := trivial
      state := hstate.symm
      increasing := List.Pairwise.nil
      le := fun r hr => absurd hr List.not_mem_nil }
  have hloop := unionOrIntersect_loop_canonical h hinj hapart (Nat.lt_succ_self _) m
  rw [hstate] at hloop
  exact hloop

end StringSet

end HpccPlatform
