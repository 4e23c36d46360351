import HpccPlatform.Merge.Merger

/-!
# A stream of merged rows

`class CMergeRowStreams` returns the rows of a merger until the streams are exhausted or the caller
stops.  The merger stops an input only when it has a pending row, but the input of the row that was
returned last has none.
-/

namespace HpccPlatform

namespace Merge

open scoped List

variable {R : Type*} {icmp : R → R → ℤ}

namespace CRowStreamMerger

/-- One pass of the loop of `stop`. -/
def stopInput (s : CRowStreamMerger R) (k : ℕ) : CRowStreamMerger R :=
  match s.pending (s.mergeheap k) with
  | some row => { s with
      activeInputs := k
      released := s.released ++ [(s.mergeheap k, row)]
      stopped := s.stopped ++ [s.mergeheap k] }
  | none => { s with activeInputs := k }

/-- The loop of `stop`, with the number of inputs that are left. -/
def stop.loop : ℕ → CRowStreamMerger R → CRowStreamMerger R
  | 0, s => s
  | k + 1, s => stop.loop k (s.stopInput k)

/-- `stop()`; the destructor makes the same call. -/
def stop (s : CRowStreamMerger R) : CRowStreamMerger R :=
  { stop.loop s.activeInputs s with
    pending := fun _ => none
    mergeheap := fun _ => 0 }

end CRowStreamMerger

/-- `class CMergeRowStreams` -/
structure CMergeRowStreams (R : Type*) where
  merger : CRowStreamMerger R
  eos : Bool

namespace CMergeRowStreams

/-- `CMergeRowStreams(_numstreams, _provider, _icmp, partdedup)` -/
def construct (icmp : R → R → ℤ) (numstreams : ℕ) (partdedup : Bool) (rows : ℕ → List R) :
    CMergeRowStreams R :=
  { merger := CRowStreamMerger.construct icmp numstreams partdedup rows, eos := numstreams == 0 }

/-- `stop()` -/
def stop (s : CMergeRowStreams R) : CMergeRowStreams R :=
  if s.eos then s else { merger := s.merger.stop, eos := true }

/-- `nextRow()` -/
def nextRow (icmp : R → R → ℤ) (s : CMergeRowStreams R) : CMergeRowStreams R × Option (ℕ × R) :=
  if s.eos then (s, none)
  else
    match s.merger.next icmp with
    | (merger, some row) => ({ s with merger }, some row)
    | (merger, none) => ({ s with merger }.stop, none)

/-- The destructor. -/
def destroy (s : CMergeRowStreams R) : CMergeRowStreams R := { s with merger := s.merger.stop }

/-- The state after some calls of `nextRow`, with the rows that they have returned. -/
def nextRows (icmp : R → R → ℤ) (s : CMergeRowStreams R) : ℕ → CMergeRowStreams R × List (ℕ × R)
  | 0 => (s, [])
  | k + 1 =>
    let (s, returned) := nextRows icmp s k
    let (s, row) := s.nextRow icmp
    (s, returned ++ row.toList)

end CMergeRowStreams

namespace CRowStreamMerger

variable {s t : CRowStreamMerger R} {n k : ℕ} {rows : ℕ → List R} {returned taken : List (ℕ × R)}
  {row : R}

/-! ### Stopping the merger -/

/-- The streams at the first places of the heap that have a pending row, from the last one on. -/
def waiting (s : CRowStreamMerger R) (k : ℕ) : List (ℕ × R) :=
  (List.range k).reverse.flatMap fun j => s.droppedRow (s.mergeheap j)

theorem waiting_succ (s : CRowStreamMerger R) (k : ℕ) :
    s.waiting (k + 1) = s.droppedRow (s.mergeheap k) ++ s.waiting k := by
  rw [waiting, List.range_succ, List.reverse_append, List.reverse_singleton, List.singleton_append,
    List.flatMap_cons]
  rfl

theorem stopInput_eq (s : CRowStreamMerger R) (k : ℕ) :
    s.stopInput k = { s with
      activeInputs := k
      released := s.released ++ s.droppedRow (s.mergeheap k)
      stopped := s.stopped ++ (s.droppedRow (s.mergeheap k)).map Prod.fst } := by
  unfold stopInput droppedRow
  cases s.pending (s.mergeheap k) with
  | none => simp
  | some row => simp

theorem stop_loop_eq (hk : s.activeInputs = k) :
    stop.loop k s = { s with
      activeInputs := 0
      released := s.released ++ s.waiting k
      stopped := s.stopped ++ (s.waiting k).map Prod.fst } := by
  induction k generalizing s with
  | zero =>
    rw [stop.loop, show s.waiting 0 = [] from rfl, List.map_nil, List.append_nil, List.append_nil, ← hk]
  | succ k ih =>
    have hactive : (s.stopInput k).activeInputs = k := by rw [stopInput_eq]
    have hwaiting : (s.stopInput k).waiting k = s.waiting k := by
      rw [stopInput_eq]
      rfl
    rw [stop.loop, ih hactive, hwaiting, stopInput_eq, waiting_succ]
    simp only [List.map_append, List.append_assoc]

theorem stop_eq (s : CRowStreamMerger R) :
    s.stop = { s with
      pending := fun _ => none
      mergeheap := fun _ => 0
      activeInputs := 0
      released := s.released ++ s.waiting s.activeInputs
      stopped := s.stopped ++ (s.waiting s.activeInputs).map Prod.fst } := by
  rw [stop, stop_loop_eq rfl]

/-- The rows of one stream that are released. -/
theorem ofStream_waiting (hinj : Set.InjOn s.mergeheap (Set.Iio s.activeInputs))
    (hk : k ≤ s.activeInputs) (i : ℕ) :
    ofStream i (s.waiting k) = if ∃ j < k, s.mergeheap j = i then (s.pending i).toList else [] := by
  induction k with
  | zero =>
    rw [if_neg fun ⟨j, hj, _⟩ => Nat.not_lt_zero j hj]
    rfl
  | succ k ih =>
    rw [waiting_succ, ofStream_append, ofStream_droppedRow, ih (Nat.le_of_succ_le hk)]
    by_cases hlast : s.mergeheap k = i
    · have hbefore : ¬ ∃ j < k, s.mergeheap j = i := by
        rintro ⟨j, hj, hji⟩
        exact hj.ne (hinj (hj.trans_le (Nat.le_of_succ_le hk)) hk (hji.trans hlast.symm))
      rw [if_pos hlast, if_neg hbefore, if_pos ⟨k, Nat.lt_succ_self k, hlast⟩, hlast, List.append_nil]
    · rw [if_neg hlast, List.nil_append]
      refine if_congr ⟨?_, ?_⟩ rfl rfl
      · rintro ⟨j, hj, hji⟩
        exact ⟨j, hj.trans (Nat.lt_succ_self k), hji⟩
      · rintro ⟨j, hj, hji⟩
        rcases Nat.lt_succ_iff_lt_or_eq.mp hj with hj | rfl
        · exact ⟨j, hj, hji⟩
        · exact absurd hji hlast

theorem count_stream (taken : List (ℕ × R)) (i : ℕ) :
    (taken.map Prod.fst).count i = (ofStream i taken).length := by
  rw [ofStream, List.length_map, List.count, List.countP_map, List.countP_eq_length_filter]
  rfl

/-- How often an input has been stopped in the end. -/
theorem count_stop (hs : s.Sound) {i : ℕ} (hi : i < s.numstreams) :
    s.stop.stopped.count i = if i ∈ s.stopped then 1 else (s.pending i).toList.length := by
  rw [stop_eq]
  show (s.stopped ++ (s.waiting s.activeInputs).map Prod.fst).count i = _
  rw [List.count_append, count_stream, ofStream_waiting hs.injOn le_rfl]
  by_cases hstopped : i ∈ s.stopped
  · have hout : ¬ ∃ j < s.activeInputs, s.mergeheap j = i := fun hin => ((hs.active i).mp hin).2 hstopped
    rw [if_pos hstopped, if_neg hout, List.count_eq_one_of_mem hs.once.1 hstopped]
    rfl
  · rw [if_neg hstopped, if_pos ((hs.active i).mpr ⟨hi, hstopped⟩), List.count_eq_zero_of_not_mem hstopped,
      Nat.zero_add]

/-- The rows that `stop` releases are those that are pending. -/
theorem ofStream_waiting_eq (hs : s.Sound) {i : ℕ} (hi : i < s.numstreams) :
    ofStream i (s.waiting s.activeInputs) = (s.pending i).toList := by
  rw [ofStream_waiting hs.injOn le_rfl]
  by_cases hin : ∃ j < s.activeInputs, s.mergeheap j = i
  · rw [if_pos hin]
  · have hstopped : i ∈ s.stopped := by
      by_contra hrunning
      exact hin ((hs.active i).mpr ⟨hi, hrunning⟩)
    have hheld := hs.exhausted i hstopped
    rw [if_neg hin, (List.append_eq_nil_iff.mp hheld).1]

/-! ### Accounting for the rows -/

/-- The caller has been given the rows of `returned`; all rows that were pulled are accounted for. -/
structure Accounted (n : ℕ) (rows : ℕ → List R) (returned : List (ℕ × R)) (s : CRowStreamMerger R) :
    Prop where
  sound : s.Sound
  numstreams : s.numstreams = n
  pulled : ∀ i, ∃ pulled, rows i = pulled ++ s.held i ∧
    (ofStream i (returned ++ s.released)).Perm pulled

theorem Accounted.releases (h : s.Accounted n rows returned) (hreleases : s.Releases taken t)
    (hsound : t.Sound) : t.Accounted n rows returned := by
  refine ⟨hsound, hreleases.numstreams.trans h.numstreams, fun i => ?_⟩
  obtain ⟨pulled, hrows, hperm⟩ := h.pulled i
  refine ⟨pulled ++ ofStream i taken, ?_, ?_⟩
  · rw [hrows, hreleases.held i, List.append_assoc]
  · rw [hreleases.released, ← List.append_assoc, ofStream_append]
    exact hperm.append_right _

theorem Accounted.moved (h : s.Accounted n rows returned) (hmoved : s.Moved t) :
    t.Accounted n rows returned := by
  obtain ⟨taken, hreleases⟩ := hmoved.releases
  exact h.releases hreleases hmoved.sound

theorem Accounted.take (h : s.Accounted n rows returned) (hpos : 0 < s.activeInputs)
    (hrow : s.pending (s.mergeheap 0) = some row) :
    s.take.Accounted n rows (returned ++ [(s.mergeheap 0, row)]) := by
  refine ⟨h.sound.take hpos, h.numstreams, fun i => ?_⟩
  obtain ⟨pulled, hrows, hperm⟩ := h.pulled i
  refine ⟨pulled ++ ofStream i [(s.mergeheap 0, row)], ?_, ?_⟩
  · rw [hrows, take_held hrow i, List.append_assoc]
  · show (ofStream i (returned ++ [(s.mergeheap 0, row)] ++ s.released)).Perm _
    rw [ofStream_append] at hperm
    rw [ofStream_append, ofStream_append]
    generalize ofStream i [(s.mergeheap 0, row)] = one
    calc ofStream i returned ++ one ++ ofStream i s.released
        = ofStream i returned ++ (one ++ ofStream i s.released) := List.append_assoc _ _ _
      _ ~ ofStream i returned ++ (ofStream i s.released ++ one) := List.perm_append_comm.append_left _
      _ = ofStream i returned ++ ofStream i s.released ++ one := (List.append_assoc _ _ _).symm
      _ ~ pulled ++ one := hperm.append_right _

/-- After `stop` the rows that were pulled have been returned or released. -/
theorem Accounted.stop (h : s.Accounted n rows returned) {i : ℕ} (hi : i < n) :
    ∃ pulled, rows i = pulled ++ s.stop.rows i ∧
      (ofStream i (returned ++ s.stop.released)).Perm pulled := by
  obtain ⟨pulled, hrows, hperm⟩ := h.pulled i
  rw [stop_eq]
  refine ⟨pulled ++ (s.pending i).toList, ?_, ?_⟩
  · rw [hrows, held, List.append_assoc]
  · show (ofStream i (returned ++ (s.released ++ s.waiting s.activeInputs))).Perm _
    rw [← List.append_assoc, ofStream_append, ofStream_waiting_eq h.sound (h.numstreams.symm ▸ hi)]
    exact hperm.append_right _

/-- Stopping a merger of which all inputs are exhausted. -/
theorem stop_empty (hempty : s.activeInputs = 0) :
    s.stop = { s with pending := fun _ => none, mergeheap := fun _ => 0, activeInputs := 0 } := by
  rw [stop, hempty, stop.loop, hempty]

/-! ### Calls of `next` -/

/-- The merger between two calls of `next`. -/
inductive Between (s : CRowStreamMerger R) : Prop
  | start (hrecno : s.recno = 0) (hfilled : s.Filled)
  | given (u : CRowStreamMerger R) (heq : s = u.take) (hsound : u.Sound) (hfilled : u.Filled)
      (hpos : 0 < u.activeInputs)

/-- A call of `next` returns a pending row, or no stream is left. -/
theorem Accounted.next (h : s.Accounted n rows returned) (hs : s.Between) :
    (s.next icmp).1.Accounted n rows (returned ++ (s.next icmp).2.toList) ∧
      ((s.next icmp).2 = none → (s.next icmp).1.activeInputs = 0) ∧
      ((s.next icmp).2 ≠ none → ∃ u : CRowStreamMerger R, (s.next icmp).1 = u.take ∧ u.Sound ∧
        u.Filled ∧ 0 < u.activeInputs) := by
  -- the row at the top of a merger is returned
  have htake : ∀ u : CRowStreamMerger R, u.Accounted n rows returned → u.Filled → 0 < u.activeInputs →
      s.advance icmp = ({ u with recno := u.recno + 1 }, true) →
      (s.next icmp).1.Accounted n rows (returned ++ (s.next icmp).2.toList) ∧
        ((s.next icmp).2 = none → (s.next icmp).1.activeInputs = 0) ∧
        ((s.next icmp).2 ≠ none → ∃ u : CRowStreamMerger R, (s.next icmp).1 = u.take ∧ u.Sound ∧
          u.Filled ∧ 0 < u.activeInputs) := by
    intro u hu hfilled hpos hadvance
    obtain ⟨row, hrow⟩ := hfilled 0 hpos
    rw [next_of_advance hadvance hrow]
    exact ⟨hu.take hpos hrow, fun hnone => absurd hnone (Option.some_ne_none _),
      fun _ => ⟨u, rfl, hu.sound, hfilled, hpos⟩⟩
  cases hs with
  | start hrecno hfilled =>
    by_cases hpos : 0 < s.activeInputs
    · refine htake s h hfilled hpos ?_
      rw [advance, if_neg hpos.ne', if_neg (not_not.mpr hrecno)]
    · have hempty := Nat.eq_zero_of_not_pos hpos
      have hnext : s.next icmp = (s, none) := by rw [CRowStreamMerger.next, advance, if_pos hempty]
      rw [hnext]
      exact ⟨(List.append_nil returned).symm ▸ h, fun _ => hempty, fun hne => absurd rfl hne⟩
  | given u heq hsound hfilled hpos =>
    subst heq
    obtain ⟨hrefill, hreleases⟩ := take_refilled hsound hpos
    have hrefilled := h.releases hreleases hrefill.sound
    cases hmore : (u.take.refill 0).2 with
    | false =>
      have hnext : u.take.next icmp = ((u.take.refill 0).1, none) := by
        rw [CRowStreamMerger.next, advance_take_left hpos hmore]
      rw [hnext]
      exact ⟨(List.append_nil returned).symm ▸ hrefilled, fun _ => hrefill.eq_of_left hmore,
        fun hne => absurd rfl hne⟩
    | true =>
      have hfilled' := refill_take_filled hsound hfilled hpos
      obtain ⟨hmoved, hpos''⟩ := @siftTop_moved _ icmp _ hrefill.sound hfilled' (hrefill.lt_of_found hmore)
      exact htake _ (hrefilled.moved hmoved) hmoved.filled hpos'' (advance_take_found hpos hmore)

theorem init_loop_moved {p : ℕ} (hs : s.Sound) (hfilled : s.Filled) (hp : 0 < p → p < s.activeInputs) :
    s.Moved (init.loop icmp p s) ∧ (init.loop icmp p s).activeInputs = s.activeInputs := by
  induction p generalizing s with
  | zero => exact ⟨.refl hs hfilled, rfl⟩
  | succ p ih =>
    have hlt := hp (Nat.succ_pos p)
    have hmoved := @siftDown_moved _ icmp _ _ hs hfilled hlt
    have hactive : (s.siftDown icmp (p + 1)).1.activeInputs = s.activeInputs := rfl
    obtain ⟨hrest, hactive'⟩ := ih hmoved.sound hmoved.filled
      fun _ => by rw [hactive]; exact (Nat.lt_succ_self p).trans hlt
    exact ⟨hmoved.trans hrest, hactive'.trans hactive⟩

theorem Accounted.restart (h : s.Accounted n rows returned) : s.restart.Accounted n rows returned :=
  ⟨⟨h.sound.injOn, h.sound.active, h.sound.exhausted, h.sound.failed, h.sound.once⟩, h.numstreams,
    h.pulled⟩

/-- The merger after the constructor. -/
theorem construct_accounted (n : ℕ) (partdedup : Bool) (rows : ℕ → List R) :
    (construct icmp n partdedup rows).Accounted n rows [] ∧
      (construct icmp n partdedup rows).Between := by
  have hload := unsorted_loaded n partdedup rows
  have hconstruct : construct icmp n partdedup rows = init icmp (unsorted n partdedup rows) := rfl
  rw [hconstruct]
  generalize unsorted n partdedup rows = s at hload
  have hsound : s.Sound :=
    ⟨hload.injOn, fun i => hload.numstreams.symm ▸ hload.active i, hload.exhausted, hload.failed,
      hload.nodup, fun i hi => hload.numstreams.symm ▸ hload.stopped_lt i hi⟩
  have haccounted : s.Accounted n rows [] := by
    refine ⟨hsound, hload.numstreams, fun i => ⟨[], (hload.held i).symm, ?_⟩⟩
    rw [hload.released]
    exact List.Perm.nil
  have hinit : ∀ t : CRowStreamMerger R, s.Moved t →
      t.restart.Accounted n rows [] ∧ t.restart.Between := fun t hmoved =>
    ⟨(haccounted.moved hmoved).restart, .start rfl hmoved.filled⟩
  unfold init
  by_cases hpos : 0 < s.activeInputs
  · rw [if_pos hpos]
    by_cases htwo : 2 ≤ s.activeInputs
    · rw [if_pos htwo]
      obtain ⟨hloop, hactive⟩ := @init_loop_moved _ icmp s ((s.activeInputs - 2) / 2) hsound
        hload.filled fun _ => by omega
      have hsift := @siftTop_moved _ icmp _ hloop.sound hloop.filled (hactive.symm ▸ hpos)
      exact hinit _ (hloop.trans hsift.1)
    · rw [if_neg htwo]
      exact hinit _ (siftTop_moved hsound hload.filled hpos).1
  · rw [if_neg hpos]
    exact hinit s (.refl hsound hload.filled)

end CRowStreamMerger

/-! ### Runs -/

namespace CMergeRowStreams

open CRowStreamMerger

variable {n k : ℕ} {rows : ℕ → List R} {returned : List (ℕ × R)} {s : CMergeRowStreams R}
  {m : CRowStreamMerger R}

/-- Each input has been stopped once, and the rows that were pulled have been returned or released. -/
structure Settled (n : ℕ) (rows : ℕ → List R) (returned : List (ℕ × R)) (m : CRowStreamMerger R) :
    Prop where
  stopped : ∀ i < n, m.stopped.count i = 1
  pulled : ∀ i < n, ∃ pulled, rows i = pulled ++ m.rows i ∧
    (ofStream i (returned ++ m.released)).Perm pulled

/-- What holds between two calls of `nextRow`. -/
structure Running (n : ℕ) (rows : ℕ → List R) (returned : List (ℕ × R)) (s : CMergeRowStreams R) :
    Prop where
  ended : s.eos = true → s.merger.activeInputs = 0 ∧ Settled n rows returned s.merger
  goes : s.eos = false → s.merger.Accounted n rows returned ∧ s.merger.Between

/-- When each stream in the heap has a pending row, `stop` stops all of them. -/
theorem settled_stop (h : m.Accounted n rows returned) (hfilled : m.Filled) :
    Settled n rows returned m.stop := by
  refine ⟨fun i hi => ?_, fun i hi => h.stop hi⟩
  have hin : i < m.numstreams := h.numstreams.symm ▸ hi
  rw [count_stop h.sound hin]
  by_cases hstopped : i ∈ m.stopped
  · rw [if_pos hstopped]
  · obtain ⟨k, hk, hki⟩ := (h.sound.active i).mpr ⟨hin, hstopped⟩
    obtain ⟨row, hrow⟩ := hfilled k hk
    rw [if_neg hstopped, ← hki, hrow]
    rfl

/-- A merger that has just returned a row does not stop its input. -/
theorem settled_stop_iff (h : m.Accounted n rows returned) (hm : m.Between) :
    Settled n rows returned m.stop ↔ m.recno = 0 := by
  cases hm with
  | start hrecno hfilled => exact iff_of_true (settled_stop h hfilled) hrecno
  | given u heq hsound hfilled hpos =>
    subst heq
    refine iff_of_false (fun hsettled => ?_) (Nat.succ_ne_zero u.recno)
    obtain ⟨hin, hrunning⟩ := (h.sound.active _).mp ⟨0, hpos, rfl⟩
    have hcount := hsettled.stopped _ (h.numstreams ▸ hin)
    have hpending : u.take.pending (u.take.mergeheap 0) = none := Function.update_self _ _ _
    rw [count_stop h.sound hin, if_neg hrunning, hpending] at hcount
    exact absurd hcount Nat.zero_ne_one

theorem Settled.stop (h : Settled n rows returned m) (hempty : m.activeInputs = 0) :
    Settled n rows returned m.stop := by
  rw [stop_empty hempty]
  exact ⟨h.stopped, h.pulled⟩

theorem settled_stop_stop : Settled n rows returned m.stop.stop ↔ Settled n rows returned m.stop := by
  have hempty : m.stop.activeInputs = 0 := by rw [stop_eq]
  refine ⟨fun h => ?_, fun h => h.stop hempty⟩
  rw [stop_empty hempty] at h
  exact ⟨h.stopped, h.pulled⟩

/-- One call of `nextRow`. -/
theorem Running.nextRow (h : Running n rows returned s) :
    Running n rows (returned ++ (s.nextRow icmp).2.toList) (s.nextRow icmp).1 := by
  unfold CMergeRowStreams.nextRow
  cases heos : s.eos with
  | true =>
    rw [if_pos rfl]
    exact ⟨fun _ => (List.append_nil returned).symm ▸ h.ended heos,
      fun hgoes => absurd (heos.symm.trans hgoes) (by decide)⟩
  | false =>
    rw [if_neg (by decide)]
    obtain ⟨haccounted, hbetween⟩ := h.goes heos
    obtain ⟨hnext, hempty, hgiven⟩ := @Accounted.next _ icmp _ _ _ _ haccounted hbetween
    generalize s.merger.next icmp = r at hnext hempty hgiven
    obtain ⟨merger, row⟩ := r
    cases row with
    | some row =>
      obtain ⟨u, heq, hsound, hfilled, hpos⟩ := hgiven (Option.some_ne_none row)
      exact ⟨fun hended => absurd hended Bool.false_ne_true,
        fun _ => ⟨hnext, .given u heq hsound hfilled hpos⟩⟩
    | none =>
      have hzero : merger.activeInputs = 0 := hempty rfl
      have hsettled := settled_stop hnext fun k hk => absurd hk (hzero ▸ Nat.not_lt_zero k)
      refine ⟨fun _ => ⟨?_, hsettled⟩, fun hgoes => absurd hgoes.symm Bool.false_ne_true⟩
      show merger.stop.activeInputs = 0
      rw [stop_eq]

theorem construct_running (n : ℕ) (partdedup : Bool) (rows : ℕ → List R) :
    Running n rows [] (construct icmp n partdedup rows) := by
  obtain ⟨haccounted, hbetween⟩ := @construct_accounted _ icmp n partdedup rows
  refine ⟨fun hended => ?_, fun _ => ⟨haccounted, hbetween⟩⟩
  -- there are no streams
  obtain rfl : n = 0 := beq_iff_eq.mp hended
  refine ⟨?_, fun i hi => absurd hi (Nat.not_lt_zero i), fun i hi => absurd hi (Nat.not_lt_zero i)⟩
  by_contra hne
  obtain ⟨hlt, -⟩ := (haccounted.sound.active _).mp ⟨0, Nat.pos_of_ne_zero hne, rfl⟩
  rw [haccounted.numstreams] at hlt
  exact Nat.not_lt_zero _ hlt

/-- Any number of calls of `nextRow`. -/
theorem nextRows_running (h : Running n rows [] s) (k : ℕ) :
    Running n rows (s.nextRows icmp k).2 (s.nextRows icmp k).1 := by
  induction k with
  | zero => exact h
  | succ k ih => exact ih.nextRow

theorem settled_destroy_iff (h : Running n rows returned s) :
    Settled n rows returned s.stop.destroy.merger ↔ s.eos = true ∨ s.merger.recno = 0 := by
  unfold CMergeRowStreams.stop destroy
  cases heos : s.eos with
  | true =>
    obtain ⟨hempty, hsettled⟩ := h.ended heos
    rw [if_pos rfl]
    exact iff_of_true (hsettled.stop hempty) (Or.inl rfl)
  | false =>
    obtain ⟨haccounted, hbetween⟩ := h.goes heos
    rw [if_neg (by decide)]
    show Settled n rows returned s.merger.stop.stop ↔ _
    rw [settled_stop_stop, settled_stop_iff haccounted hbetween, or_iff_right (by decide)]

/-- Each input of a merge is stopped once, and its rows are returned or released, if `stop` is called
before the first row or after the end of the streams, and then only. -/
theorem nextRows_stop_settled_iff (icmp : R → R → ℤ) (numstreams : ℕ) (partdedup : Bool) (rows : ℕ → List R)
    (calls : ℕ) :
    Settled numstreams rows ((construct icmp numstreams partdedup rows).nextRows icmp calls).2
        ((construct icmp numstreams partdedup rows).nextRows icmp calls).1.stop.destroy.merger ↔
      ((construct icmp numstreams partdedup rows).nextRows icmp calls).1.eos = true ∨
        ((construct icmp numstreams partdedup rows).nextRows icmp calls).1.merger.recno = 0 :=
  settled_destroy_iff (nextRows_running (construct_running numstreams partdedup rows) calls)

/-- Of two streams with one row each, the one whose row has been returned is not stopped. -/
theorem not_settled_two_streams :
    ¬ Settled 2 (fun i => [(i : ℤ)])
      ((construct (fun a b => a - b) 2 false fun i => [(i : ℤ)]).nextRows (fun a b => a - b) 1).2
      ((construct (fun a b => a - b) 2 false fun i => [(i : ℤ)]).nextRows (fun a b => a - b)
        1).1.stop.destroy.merger := by
  intro h
  have hstopped := h.stopped 0 (by decide)
  revert hstopped
  decide

end CMergeRowStreams

end Merge

end HpccPlatform
