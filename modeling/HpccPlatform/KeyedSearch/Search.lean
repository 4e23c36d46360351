import HpccPlatform.KeyedSearch.Verdict
import HpccPlatform.ValueSet.History

/-!
# Keyed search and full scan

A keyed search jumps from one row that may match to the next.  Its invariant (`Ready`) is that
`compareNext` separates the rows that are dealt with from those still to come, up to rows that the
filters do not accept.  Each row that the search looks at restores it for the rows behind, so the
search finds the rows that a full scan finds.

`Carries` and `AvoidsEmpty` are what has to be known of the rows for that: no row of the list leads
the cursor to the next range of an earlier field, and none makes it look at a filter without ranges.
-/

namespace HpccPlatform

universe u

variable {α : Type u} {n : ℕ} {types : Fin n → RtlTypeInfo α}

namespace KeySearcher

/-- The rows before number `p` are dealt with, and the cursor leads to the others. -/
structure Ready (filters : List (FieldFilter types)) (rows : List (Fin n → α))
    (cursor : RowCursor n α) (p : ℕ) : Prop where
  length_eq : cursor.matchedRanges.length = filters.length
  leads : (cursor.eos = true ∧
      ∀ i (hi : i < rows.length), p ≤ i → RowFilter.accepts filters rows[i] = false) ∨
    (cursor.eos = false ∧ ∀ i (hi : i < rows.length),
      ∃ c, cursor.compareNext filters rows[i] = some c ∧ (i < p → c < 0) ∧
        (p ≤ i → c < 0 → RowFilter.accepts filters rows[i] = false))

section Step

variable (horder : ∀ i, TotalOrder (types i).compare) {filters : List (FieldFilter types)}
  {rows : List (Fin n → α)} (hsorted : rows.Pairwise (KeyLE filters))
  (hsafe : ∀ row ∈ rows, ¬ Carries row filters ∧ AvoidsEmpty row filters)

include horder in
lemma keyLE_refl (filters : List (FieldFilter types)) (x : Fin n → α) : KeyLE filters x x := by
  induction filters with
  | nil => exact le_refl (0 : ℤ)
  | cons f fs ih =>
    have hswap := (horder f.field).swap (x f.field) (x f.field)
    refine keyLE_cons_iff.2 (Or.inr ⟨?_, ih⟩)
    unfold FieldFilter.compareRow
    omega

include horder hsorted in
lemma keyLE_getElem {i j : ℕ} (hij : i ≤ j) (hj : j < rows.length) :
    KeyLE filters rows[i] rows[j] := by
  rcases hij.lt_or_eq with hlt | rfl
  · exact List.pairwise_iff_getElem.1 hsorted i j (by omega) hj hlt
  · exact keyLE_refl horder filters _

/-- The start of a search. -/
lemma ready_selectFirst (hsafe : ∀ row ∈ rows, ¬ Carries row filters ∧ AvoidsEmpty row filters)
    (horder : ∀ i, TotalOrder (types i).compare) {cursor : RowCursor n α}
    (hlen : cursor.matchedRanges.length = filters.length) :
    Ready filters rows cursor.selectFirst 0 := by
  refine ⟨hlen, Or.inr ⟨rfl, fun i hi => ?_⟩⟩
  have havoid := (hsafe _ (List.getElem_mem hi)).2
  obtain ⟨c, hc, hacc, -⟩ := @compareLowests_spec α n types horder rows[i] filters 0 havoid.head
    havoid.chain
  refine ⟨c, ?_, fun h => absurd h (Nat.not_lt_zero i), fun _ hneg => hacc hneg ?_⟩
  · change RowCursor.compareRange rows[i] cursor.currentRow filters 0 0 = some c
    rw [← hc]
    unfold RowCursor.compareRange
    rw [RowCursor.compareMatched, Option.bind_some, if_neg (not_not.2 rfl), List.drop_zero]
  · intro f _ d hd hdneg
    exact FieldValues.accepts_eq_false_of_lowest (horder f.field) hd hdneg

include horder hsorted hsafe in
/-- Looking at a row deals with it. -/
lemma setRowForward_ready {cursor : RowCursor n α} {q : ℕ} (hq : q < rows.length)
    (hlen : cursor.matchedRanges.length = filters.length) (heos : cursor.eos = false) :
    ∃ cursor', cursor.setRowForward filters rows[q] =
        some (RowFilter.accepts filters rows[q], cursor') ∧
      cursor'.matchedRanges.length = filters.length ∧ cursor'.currentRow = some rows[q] ∧
      (RowFilter.accepts filters rows[q] = true → cursor'.eos = false) ∧
      (RowFilter.accepts filters rows[q] = false → Ready filters rows cursor' (q + 1)) := by
  obtain ⟨ranges, hranges, hset⟩ :=
    RowCursor.setRowForward_eq horder filters cursor rows[q] hlen
  -- what `Continues` says about the rows of the list
  have hleads : ∀ place : (Fin n → α) → Option ℤ,
      (∀ i (hi : i < rows.length), Continues filters rows[q] rows[i] (place rows[i])) →
      ∀ i (hi : i < rows.length), ∃ c, place rows[i] = some c ∧ (i < q + 1 → c < 0) ∧
        (q + 1 ≤ i → c < 0 → RowFilter.accepts filters rows[i] = false) := by
    intro place hcont i hi
    obtain ⟨c, hc, hbefore, hafter⟩ := hcont i hi
    exact ⟨c, hc, fun h => hbefore (keyLE_getElem horder hsorted (by omega) hq),
      fun h => hafter (keyLE_getElem horder hsorted (by omega) hi)⟩
  have hmatched := verdict_matched_iff horder rows[q] filters
  cases hv : verdict rows[q] filters with
  | matched =>
    rw [hv] at hset hmatched
    rw [hmatched.1 rfl]
    exact ⟨_, hset, hranges, rfl, fun _ => heos, fun h => by cases h⟩
  | unmatched k j =>
    have hacc : RowFilter.accepts filters rows[q] = false := by
      rw [← Bool.not_eq_true, ← hmatched, hv]
      exact Verdict.noConfusion
    rw [hv] at hset
    rw [hacc]
    refine ⟨_, hset, hranges, rfl, fun h => (by cases h), fun _ => ⟨hranges, Or.inr ⟨heos, ?_⟩⟩⟩
    exact hleads (fun x => RowCursor.compareRange x (some rows[q]) filters k j)
      fun i hi => continues_of_unmatched horder hv (hsafe _ (List.getElem_mem hi)).2.chain
  | greater k =>
    have hacc : RowFilter.accepts filters rows[q] = false := by
      rw [← Bool.not_eq_true, ← hmatched, hv]
      exact Verdict.noConfusion
    rw [hv] at hset
    rw [hacc]
    have hk := (continues_of_greater horder (x := rows[q]) hv).1
    refine ⟨_, hset, hranges, rfl, fun h => (by cases h), fun _ => ⟨hranges, Or.inr ⟨heos, ?_⟩⟩⟩
    have hcmp := hleads (fun x => RowCursor.compareGreater x (some rows[q]) filters k)
      fun i hi => (continues_of_greater horder hv).2
    intro i hi
    obtain ⟨c, hc, h⟩ := hcmp i hi
    refine ⟨c, ?_, h⟩
    change (if k = filters.length then none
      else RowCursor.compareGreater rows[i] (some rows[q]) filters k) = some c
    rw [if_neg hk.ne, hc]
  | carried k j =>
    exact absurd ((verdict_carried_iff horder rows[q] filters).1 ⟨k, j, hv⟩)
      (hsafe _ (List.getElem_mem hq)).1
  | exhausted =>
    have hacc : RowFilter.accepts filters rows[q] = false := by
      rw [← Bool.not_eq_true, ← hmatched, hv]
      exact Verdict.noConfusion
    have hex := (verdict_exhausted_iff horder rows[q] filters).1 hv
    rw [hv] at hset
    rw [hacc]
    refine ⟨_, hset, hranges, rfl, fun h => (by cases h), fun _ => ⟨hranges, Or.inl ⟨rfl, ?_⟩⟩⟩
    intro i hi hle
    exact accepts_eq_false_of_exhausts horder hex (keyLE_getElem horder hsorted (by omega) hi)

/-- The source finds the first row that is not before the place to continue at. -/
lemma findNext_spec {cursor : RowCursor n α} {p : ℕ}
    (hleads : ∀ i (hi : i < rows.length),
      ∃ c, cursor.compareNext filters rows[i] = some c ∧ (i < p → c < 0) ∧
        (p ≤ i → c < 0 → RowFilter.accepts filters rows[i] = false)) :
    (findNext filters rows cursor = some none ∧
      ∀ i (hi : i < rows.length), p ≤ i → RowFilter.accepts filters rows[i] = false) ∨
    ∃ q, q < rows.length ∧ p ≤ q ∧ findNext filters rows cursor = some (some q) ∧
      ∀ i (hi : i < rows.length), p ≤ i → i < q →
        RowFilter.accepts filters rows[i] = false := by
  -- the comparison of every row is defined
  let comparison : (Fin n → α) → ℤ := fun row => (cursor.compareNext filters row).getD 0
  have hcmp : ∀ row ∈ rows, cursor.compareNext filters row = some (comparison row) := by
    intro row hrow
    obtain ⟨i, hi, rfl⟩ := List.mem_iff_getElem.1 hrow
    obtain ⟨c, hc, -⟩ := hleads i hi
    change _ = some ((cursor.compareNext filters rows[i]).getD 0)
    rw [hc, Option.getD_some]
  have hmap : rows.mapM (cursor.compareNext filters) = some (rows.map comparison) := by
    clear hleads
    induction rows with
    | nil => rfl
    | cons row rows ih =>
      rw [List.mapM_cons, hcmp row List.mem_cons_self,
        ih fun r hr => hcmp r (List.mem_cons_of_mem _ hr)]
      rfl
  have hget : ∀ i (hi : i < rows.length), (i < p → comparison rows[i] < 0) ∧
      (p ≤ i → comparison rows[i] < 0 → RowFilter.accepts filters rows[i] = false) := by
    intro i hi
    obtain ⟨c, hc, h⟩ := hleads i hi
    have heq : comparison rows[i] = c := by
      change (cursor.compareNext filters rows[i]).getD 0 = c
      rw [hc, Option.getD_some]
    rw [heq]
    exact h
  unfold findNext
  rw [hmap, Option.map_some]
  cases hfind : (rows.map comparison).findIdx? (0 ≤ ·) with
  | none =>
    left
    refine ⟨rfl, fun i hi hle => (hget i hi).2 hle ?_⟩
    have := List.findIdx?_eq_none_iff.1 hfind _ (List.mem_map_of_mem (List.getElem_mem hi))
    simpa using this
  | some q =>
    right
    obtain ⟨hq, hge, hbefore⟩ := List.findIdx?_eq_some_iff_getElem.1 hfind
    rw [List.length_map] at hq
    have hge' : 0 ≤ comparison rows[q] := by simpa using hge
    refine ⟨q, hq, ?_, rfl, fun i hi hle hlt => (hget i hi).2 hle ?_⟩
    · by_contra hlt
      exact absurd ((hget q hq).1 (not_le.1 hlt)) (not_lt.2 hge')
    · have := hbefore i hlt
      simpa using this

/-- The next row that the filters accept, from row number `p` on, has been found. -/
def Found (filters : List (FieldFilter types)) (rows : List (Fin n → α)) (p : ℕ)
    (r : Bool × KeySearcher n α) : Prop :=
  (r.1 = false ∧ ∀ i (hi : i < rows.length), p ≤ i → RowFilter.accepts filters rows[i] = false) ∨
  (r.1 = true ∧ ∃ hq : r.2.cur < rows.length, p ≤ r.2.cur ∧
    (∀ i (hi : i < rows.length), p ≤ i → i < r.2.cur →
      RowFilter.accepts filters rows[i] = false) ∧
    RowFilter.accepts filters rows[r.2.cur] = true ∧
    r.2.cursor.currentRow = some rows[r.2.cur] ∧
    r.2.cursor.matchedRanges.length = filters.length ∧ r.2.cursor.eos = false ∧
    r.2.firstPending = false)

lemma Found.of_skipped {p q : ℕ} {r : Bool × KeySearcher n α} (h : Found filters rows q r)
    (hpq : p ≤ q) (hskip : ∀ i (hi : i < rows.length), p ≤ i → i < q →
      RowFilter.accepts filters rows[i] = false) : Found filters rows p r := by
  rcases h with ⟨hr, hnone⟩ | ⟨hr, hq, hle, hbetween, hacc⟩
  · refine Or.inl ⟨hr, fun i hi hpi => ?_⟩
    rcases Nat.lt_or_ge i q with hlt | hge
    · exact hskip i hi hpi hlt
    · exact hnone i hi hge
  · refine Or.inr ⟨hr, hq, hpq.trans hle, fun i hi hpi hlt => ?_, hacc⟩
    rcases Nat.lt_or_ge i q with hlt' | hge
    · exact hskip i hi hpi hlt'
    · exact hbetween i hi hge hlt

include horder hsorted hsafe in
/-- `resolveValidRow` finds the next row, and ends. -/
lemma resolveValidRow_spec {fuel p : ℕ} {searcher : KeySearcher n α}
    (hready : Ready filters rows searcher.cursor p) (hp : p ≤ rows.length)
    (hfuel : rows.length < p + fuel) (hpending : searcher.firstPending = false) :
    ∃ r, resolveValidRow filters rows fuel searcher = some r ∧ Found filters rows p r := by
  induction fuel generalizing p searcher with
  | zero => omega
  | succ fuel ih =>
    rw [resolveValidRow]
    rcases hready.leads with ⟨heos, hnone⟩ | ⟨heos, hleads⟩
    · rw [if_pos heos]
      exact ⟨_, rfl, Or.inl ⟨rfl, hnone⟩⟩
    · rw [if_neg (by simp [heos])]
      rcases findNext_spec hleads with ⟨hfind, hnone⟩ | ⟨q, hq, hpq, hfind, hskip⟩
      · rw [hfind, Option.bind_some]
        exact ⟨_, rfl, Or.inl ⟨rfl, hnone⟩⟩
      · rw [hfind, Option.bind_some]
        dsimp only
        rw [List.getElem?_eq_getElem hq, Option.bind_some]
        obtain ⟨cursor, hset, hlen, hrow, hacc, hrej⟩ :=
          setRowForward_ready horder hsorted hsafe hq hready.length_eq heos
        rw [hset, Option.bind_some]
        cases hres : RowFilter.accepts filters rows[q] with
        | true =>
          refine ⟨_, rfl, Or.inr ⟨rfl, hq, hpq, hskip, hres, hrow, hlen, hacc hres, hpending⟩⟩
        | false =>
          obtain ⟨r, hr, hfound⟩ := @ih (q + 1) { searcher with cursor := cursor, cur := q }
            (hrej hres) hq (by omega) hpending
          refine ⟨r, hr, hfound.of_skipped (by omega) fun i hi hpi hlt => ?_⟩
          rcases Nat.lt_succ_iff_lt_or_eq.1 hlt with hlt | rfl
          · exact hskip i hi hpi hlt
          · exact hres

/-- The searcher between two calls of `next`, when the rows before number `p` are dealt with. -/
def At (filters : List (FieldFilter types)) (rows : List (Fin n → α)) (searcher : KeySearcher n α)
    (p : ℕ) : Prop :=
  searcher.cursor.matchedRanges.length = filters.length ∧
    ((searcher.firstPending = true ∧ p = 0) ∨
      (searcher.firstPending = false ∧ searcher.cursor.eos = false ∧ p = searcher.cur + 1 ∧
        p ≤ rows.length))

include horder hsorted hsafe in
lemma next_spec {fuel p : ℕ} {searcher : KeySearcher n α} (hat : At filters rows searcher p)
    (hfuel : rows.length < p + fuel) :
    ∃ r, next filters rows fuel searcher = some r ∧ Found filters rows p r := by
  obtain ⟨hlen, ⟨hpending, rfl⟩ | ⟨hpending, heos, rfl, hp⟩⟩ := hat
  · rw [next, if_pos hpending]
    exact resolveValidRow_spec horder hsorted hsafe (ready_selectFirst hsafe horder hlen)
      (Nat.zero_le _) hfuel rfl
  · rw [next, if_neg (by simp [hpending])]
    rcases hp.lt_or_eq with hlt | heq
    · rw [List.getElem?_eq_getElem hlt]
      dsimp only
      obtain ⟨cursor, hset, hlen', hrow, hacc, hrej⟩ :=
        setRowForward_ready horder hsorted hsafe hlt hlen heos
      rw [hset, Option.bind_some]
      cases hres : RowFilter.accepts filters rows[searcher.cur + 1] with
      | true =>
        refine ⟨_, rfl, Or.inr ⟨rfl, hlt, le_rfl, ?_, hres, hrow, hlen', hacc hres, hpending⟩⟩
        intro i hi hle hlt
        exact absurd hle (not_le.2 hlt)
      | false =>
        have hlt' : rows.length < searcher.cur + 1 + 1 + fuel := by omega
        obtain ⟨r, hr, hfound⟩ := @resolveValidRow_spec α n types horder filters rows hsorted hsafe
          fuel _ { searcher with cursor := cursor, cur := searcher.cur + 1 } (hrej hres) hlt hlt'
          hpending
        refine ⟨r, hr, hfound.of_skipped (Nat.le_succ _) fun i hi hpi hlt => ?_⟩
        obtain rfl : i = searcher.cur + 1 := by omega
        exact hres
    · rw [List.getElem?_eq_none heq.ge]
      refine ⟨_, rfl, Or.inl ⟨rfl, fun i hi hle => ?_⟩⟩
      omega

/-- The rows from `p` on that are accepted, when those before `q` are not. -/
lemma filter_drop_of_skipped {accepts : (Fin n → α) → Bool} {p q : ℕ} (hpq : p ≤ q)
    (hskip : ∀ i (hi : i < rows.length), p ≤ i → i < q → accepts rows[i] = false) :
    (rows.drop p).filter accepts = (rows.drop q).filter accepts := by
  have hsplit : rows.drop p = (rows.drop p).take (q - p) ++ rows.drop q := by
    conv_lhs => rw [← List.take_append_drop (q - p) (rows.drop p)]
    rw [List.drop_drop, Nat.add_sub_cancel' hpq]
  rw [hsplit, List.filter_append]
  have hnil : ((rows.drop p).take (q - p)).filter accepts = [] := by
    rw [List.filter_eq_nil_iff]
    intro row hrow
    obtain ⟨i, hi, rfl⟩ := List.mem_take_iff_getElem.1 hrow
    rw [List.getElem_drop, Bool.not_eq_true]
    rw [List.length_drop, lt_min_iff] at hi
    exact hskip (p + i) (by omega) (by omega) (by omega)
  rw [hnil, List.nil_append]

include horder hsorted hsafe in
lemma collect_spec {fuel p : ℕ} {searcher : KeySearcher n α} (hat : At filters rows searcher p)
    (hp : p ≤ rows.length) (hfuel : rows.length < p + fuel) :
    collect filters rows fuel searcher =
      some ((rows.drop p).filter (RowFilter.accepts filters)) := by
  induction fuel generalizing p searcher with
  | zero => omega
  | succ fuel ih =>
    obtain ⟨r, hr, hfound⟩ := next_spec horder hsorted hsafe hat hfuel
    rw [collect, hr, Option.bind_some]
    rcases hfound with ⟨hfalse, hnone⟩ | ⟨htrue, hq, hpq, hskip, hacc, hrow, hlen, heos, hpending⟩
    · rw [if_neg (by simp [hfalse]), filter_drop_of_skipped hp fun i hi hle _ => hnone i hi hle,
        List.drop_length, List.filter_nil]
    · rw [if_pos htrue, hrow, Option.bind_some,
        @ih (r.2.cur + 1) r.2 ⟨hlen, Or.inr ⟨hpending, heos, rfl, hq⟩⟩ hq (by omega),
        filter_drop_of_skipped hpq hskip, List.drop_eq_getElem_cons hq, List.filter_cons_of_pos hacc,
        Option.map_some]

end Step

end KeySearcher

/-! ## The search as a whole -/

/-- A list that is sorted field by field is sorted by its first fields. -/
lemma compareFields_take_nonpos {fields : List (Fin n)} {x y : Fin n → α} (k : ℕ)
    (h : compareFields types x y fields ≤ 0) : compareFields types x y (fields.take k) ≤ 0 := by
  induction fields generalizing k with
  | nil => simpa using h
  | cons i is ih =>
    cases k with
    | zero => exact le_refl (0 : ℤ)
    | succ k =>
      rw [compareFields] at h
      rw [List.take_succ_cons, compareFields]
      by_cases hzero : (types i).compare (x i) (y i) = 0
      · rw [if_neg (not_not.2 hzero)] at h ⊢
        exact ih k h
      · rw [if_pos hzero] at h ⊢
        exact h

/-! ## Two integer fields -/

open ValueSet History

/-- A filter on a field of a record of two integers: the values between the given bounds. -/
def intFilter (field : Fin 2) (ranges : List (ℤ × ℤ))
    (h : IsSet intType (ranges.flatMap fun p =>
      [Bound.lower intType ⟨p.1, true⟩, Bound.upper intType ⟨p.2, true⟩])) :
    FieldFilter fun _ : Fin 2 => intType :=
  ⟨field, .set _ h⟩

lemma isSet_singles : IsSet intType ([(1, 1), (3, 3)].flatMap fun p =>
    [Bound.lower intType ⟨p.1, true⟩, Bound.upper intType ⟨p.2, true⟩]) := by
  refine ⟨fun t ht => ?_, by decide, by decide, by decide, by decide⟩
  simp only [List.flatMap_cons, List.flatMap_nil, List.cons_append, List.nil_append,
    List.append_nil, List.mem_cons, List.not_mem_nil, or_false] at ht
  rcases ht with rfl | rfl | rfl | rfl
  · exact (full_lower _ (some _)).1
  · exact (full_upper _ (some _)).1
  · exact (full_lower _ (some _)).1
  · exact (full_upper _ (some _)).1

/-- The first field is 1 or 3, and the second field is 5. -/
def twoFilters : List (FieldFilter fun _ : Fin 2 => intType) :=
  [⟨1, .single 5⟩, intFilter 0 [(1, 1), (3, 3)] isSet_singles]

end HpccPlatform
