import HpccPlatform.Merge.Start

/-!
# Returning rows

`next` returns the row at the top of the heap.  The next call pulls another row of its stream, or takes
the stream out of the heap, before it puts the heap in order again.
-/

namespace HpccPlatform

namespace Merge

open ArrayHeap

namespace CRowStreamMerger

variable {R : Type*} {icmp : R → R → ℤ} {s t x z : CRowStreamMerger R} {row : R} {k : ℕ}
  {returned released : List (ℕ × R)}

/-- The merger has a row to return. -/
structure Ordered (icmp : R → R → ℤ) (s : CRowStreamMerger R) : Prop where
  sound : s.Sound
  filled : s.Filled
  heap : s.HeapOf icmp 0

/-- The pending rows, with the row that has just been returned. -/
def shown (s : CRowStreamMerger R) : Option (ℕ × R) → ℕ → Option R
  | some (strm, row) => Function.update s.pending strm (some row)
  | none => s.pending

/-- The heap has the streams that are not exhausted, each once, in the order of their rows; `last` is
what has just been returned. -/
structure IsMergeHeap (icmp : R → R → ℤ) (s : CRowStreamMerger R) (last : Option (ℕ × R)) : Prop where
  once : Set.InjOn s.mergeheap (Set.Iio s.activeInputs)
  active : ∀ i, (∃ k < s.activeInputs, s.mergeheap k = i) ↔ i < s.numstreams ∧ i ∉ s.stopped
  exhausted : ∀ i ∈ s.stopped, s.held i = []
  rows : ∀ k < s.activeInputs, ∃ row, s.shown last (s.mergeheap k) = some row
  heap : HeapFrom (StreamLe icmp (s.shown last)) 0 s.activeInputs s.mergeheap
  failed : s.failed = false

theorem Ordered.isMergeHeap (h : s.Ordered icmp) : s.IsMergeHeap icmp none :=
  ⟨h.sound.injOn, h.sound.active, h.sound.exhausted, h.filled, h.heap, h.sound.failed⟩

/-! ### The row at the top -/

/-- The row at the top is returned. -/
def take (s : CRowStreamMerger R) : CRowStreamMerger R :=
  { s with
    recno := s.recno + 1
    pending := Function.update s.pending (s.mergeheap 0) none }

theorem take_pending_of_ne {i : ℕ} (hi : i ≠ s.mergeheap 0) : s.take.pending i = s.pending i :=
  Function.update_of_ne hi _ _

theorem take_held (hrow : s.pending (s.mergeheap 0) = some row) (i : ℕ) :
    s.held i = ofStream i [(s.mergeheap 0, row)] ++ s.take.held i := by
  rw [ofStream_singleton]
  unfold held
  by_cases hi : s.mergeheap 0 = i
  · rw [if_pos hi, ← hi, hrow]
    show _ = [row] ++ ((Function.update s.pending (s.mergeheap 0) none (s.mergeheap 0)).toList ++ _)
    rw [Function.update_self]
    rfl
  · rw [if_neg hi, take_pending_of_ne (Ne.symm hi)]
    rfl

theorem Sound.take (h : s.Sound) (hpos : 0 < s.activeInputs) : s.take.Sound := by
  refine ⟨h.injOn, h.active, fun i hi => ?_, h.failed, h.once⟩
  have hne : i ≠ s.mergeheap 0 := by
    rintro rfl
    exact ((h.active _).mp ⟨0, hpos, rfl⟩).2 hi
  have hheld := h.exhausted i hi
  unfold held at hheld ⊢
  rw [take_pending_of_ne hne]
  exact hheld

theorem shown_take (hrow : s.pending (s.mergeheap 0) = some row) :
    s.take.shown (some (s.mergeheap 0, row)) = s.pending := by
  show Function.update (Function.update s.pending (s.mergeheap 0) none) (s.mergeheap 0) (some row) = _
  rw [Function.update_idem, ← hrow]
  exact Function.update_eq_self _ _

theorem Ordered.isMergeHeap_take (h : s.Ordered icmp) (hpos : 0 < s.activeInputs)
    (hrow : s.pending (s.mergeheap 0) = some row) :
    s.take.IsMergeHeap icmp (some (s.mergeheap 0, row)) := by
  have hsound := h.sound.take hpos
  refine ⟨hsound.injOn, hsound.active, hsound.exhausted, ?_, ?_, hsound.failed⟩
  · rw [shown_take hrow]
    exact h.filled
  · rw [shown_take hrow]
    exact h.heap

/-- The top of the heap is refilled after its row has been returned. -/
theorem take_refilled (hs : s.Sound) (hpos : 0 < s.activeInputs) :
    s.take.Refilled 0 (s.take.refill 0).1 (s.take.refill 0).2 ∧
      s.take.Releases [] (s.take.refill 0).1 := by
  have htop : s.take.pending (s.take.mergeheap 0) = none := Function.update_self _ _ _
  have hrefill := refill_spec (hs.take hpos) hpos (Or.inr htop)
  have hdropped : s.take.droppedRow (s.take.mergeheap 0) = [] := by
    rw [droppedRow, htop]
    rfl
  have hreleases := hrefill.releases
  rw [hdropped] at hreleases
  exact ⟨hrefill, hreleases⟩

theorem refill_take_filled (hs : s.Sound) (hfilled : s.Filled) (hpos : 0 < s.activeInputs) :
    (s.take.refill 0).1.Filled := by
  refine (take_refilled hs hpos).1.filled fun j hj hj0 => ?_
  have hne : s.mergeheap j ≠ s.mergeheap 0 := fun heq => hj0 (hs.injOn hj hpos heq)
  show ∃ row, s.take.pending (s.mergeheap j) = some row
  rw [take_pending_of_ne hne]
  exact hfilled j hj

/-- What is left after the row at the top of an ordered heap has been returned. -/
theorem Ordered.refill_take (h : s.Ordered icmp) (hpos : 0 < s.activeInputs) :
    s.take.Releases [] (s.take.refill 0).1 ∧ (s.take.refill 0).1.load < s.load ∧
      (s.take.refill 0).1.Sound ∧
      ((s.take.refill 0).2 = true → (s.take.refill 0).1.Ready icmp ∧
        0 < (s.take.refill 0).1.activeInputs) ∧
      ((s.take.refill 0).2 = false → (s.take.refill 0).1.activeInputs = 0) := by
  obtain ⟨hrefill, hreleases⟩ := take_refilled h.sound hpos
  have hne : ∀ j < s.activeInputs, j ≠ 0 → s.mergeheap j ≠ s.mergeheap 0 :=
    fun j hj hj0 heq => hj0 (h.sound.injOn hj hpos heq)
  refine ⟨hreleases, hrefill.load, hrefill.sound,
    fun hfound => ⟨⟨hrefill.sound, refill_take_filled h.sound h.filled hpos, ?_⟩,
      hrefill.lt_of_found hfound⟩, hrefill.eq_of_left⟩
  intro i hi hin hge
  have hparent : parent i < i := parent_lt hi
  have hi0 : i ≠ 0 := hi.ne'
  have hparent0 : parent i ≠ 0 := (Nat.lt_of_lt_of_le Nat.one_pos hge).ne'
  have hin' : i < s.activeInputs := hin.trans_le hrefill.le
  rw [hrefill.frame i hin hi0, hrefill.frame (parent i) (hparent.trans hin) hparent0]
  have hedge := h.heap i hi hin' (Nat.zero_le _)
  have hnei := hne i hin' hi0
  have hnep := hne (parent i) (hparent.trans hin') hparent0
  refine (StreamLe.congr ?_ ?_).mpr hedge
  · exact (hrefill.pending_of_ne _ hnep).trans (take_pending_of_ne hnep)
  · exact (hrefill.pending_of_ne _ hnei).trans (take_pending_of_ne hnei)

theorem advance_take_left (hpos : 0 < s.activeInputs) (hleft : (s.take.refill 0).2 = false) :
    s.take.advance icmp = ((s.take.refill 0).1, false) := by
  have hactive : s.take.activeInputs ≠ 0 := hpos.ne'
  rw [advance, if_neg hactive, if_pos (show s.take.recno ≠ 0 from Nat.succ_ne_zero _)]
  generalize s.take.refill 0 = r at hleft
  obtain ⟨t, found⟩ := r
  dsimp only at hleft
  rw [hleft]

theorem advance_take_found (hpos : 0 < s.activeInputs) (hfound : (s.take.refill 0).2 = true) :
    s.take.advance icmp = ({ (s.take.refill 0).1.siftTop icmp with
      recno := ((s.take.refill 0).1.siftTop icmp).recno + 1 }, true) := by
  have hactive : s.take.activeInputs ≠ 0 := hpos.ne'
  rw [advance, if_neg hactive, if_pos (show s.take.recno ≠ 0 from Nat.succ_ne_zero _)]
  generalize s.take.refill 0 = r at hfound
  obtain ⟨t, found⟩ := r
  dsimp only at hfound ⊢
  rw [hfound]

/-! ### Calls of `next` -/

theorem next_of_advance (hadvance : x.advance icmp = ({ s with recno := s.recno + 1 }, true))
    (hrow : s.pending (s.mergeheap 0) = some row) :
    x.next icmp = (s.take, some (s.mergeheap 0, row)) := by
  rw [next, hadvance]
  dsimp only
  rw [hrow]
  rfl

theorem calls_exhausted (hempty : z.activeInputs = 0) (k : ℕ) :
    z.calls icmp k = (z, List.replicate k none) := by
  induction k with
  | zero => rfl
  | succ k ih =>
    have hnext : z.next icmp = (z, none) := by rw [next, advance, if_pos hempty]
    rw [calls, hnext]
    dsimp only
    rw [ih]
    rfl

/-- The calls of `next` return the rows of a list and then null pointers, and keep the heap in order.
The rows of another list are released up to the first null pointer. -/
structure Delivers (icmp : R → R → ℤ) (x : CRowStreamMerger R) (returned released : List (ℕ × R)) :
    Prop where
  rows : ∀ k, (x.calls icmp k).2 =
    (returned.take k).map some ++ List.replicate (k - returned.length) none
  heap : ∀ k, 0 < k → (x.calls icmp k).1.IsMergeHeap icmp (x.calls icmp k).2.getLast?.join
  released : ∀ k, returned.length < k → (x.calls icmp k).1.released = x.released ++ released

theorem delivers_nil (hadvance : x.advance icmp = (z, false)) (hempty : z.activeInputs = 0)
    (hsound : z.Sound) (hreleased : z.released = x.released) : x.Delivers icmp [] [] := by
  have hcalls : ∀ k, x.calls icmp (k + 1) = (z, List.replicate (k + 1) none) := by
    intro k
    have hnext : x.next icmp = (z, none) := by rw [next, hadvance]
    rw [calls, hnext]
    dsimp only
    rw [calls_exhausted hempty]
    rfl
  refine ⟨fun k => ?_, fun k hk => ?_, fun k hk => ?_⟩
  · cases k with
    | zero => rfl
    | succ k =>
      rw [hcalls]
      rfl
  · obtain ⟨k, rfl⟩ := Nat.exists_eq_succ_of_ne_zero hk.ne'
    rw [hcalls, List.replicate_succ', List.getLast?_concat]
    refine ⟨hsound.injOn, hsound.active, hsound.exhausted, ?_, ?_, hsound.failed⟩
    · intro j hj
      exact absurd hj (hempty ▸ Nat.not_lt_zero j)
    · intro i _ hi
      exact absurd hi (hempty ▸ Nat.not_lt_zero i)
  · obtain ⟨k, rfl⟩ := Nat.exists_eq_succ_of_ne_zero (Nat.zero_lt_of_lt hk).ne'
    rw [hcalls, List.append_nil]
    exact hreleased

/-- When the last stream is exhausted, nothing is left. -/
theorem Ordered.delivers_last (h : s.Ordered icmp) (hpos : 0 < s.activeInputs)
    (hleft : (s.take.refill 0).2 = false) :
    s.take.Delivers icmp [] [] ∧ ∀ i < s.numstreams, s.take.held i = [] := by
  obtain ⟨hreleases, -, hsound, -, hempty⟩ := h.refill_take hpos
  have hzero := hempty hleft
  refine ⟨delivers_nil (advance_take_left hpos hleft) hzero hsound ?_, fun i hi => ?_⟩
  · rw [hreleases.released, List.append_nil]
  · rw [hreleases.held i]
    refine hsound.exhausted i ?_
    by_contra hrunning
    obtain ⟨j, hj, -⟩ := (hsound.active i).mpr ⟨hreleases.numstreams.symm ▸ hi, hrunning⟩
    rw [hzero] at hj
    exact Nat.not_lt_zero j hj

theorem delivers_cons {taken : List (ℕ × R)}
    (hadvance : x.advance icmp = ({ s with recno := s.recno + 1 }, true))
    (hrow : s.pending (s.mergeheap 0) = some row)
    (hheap : s.take.IsMergeHeap icmp (some (s.mergeheap 0, row)))
    (hreleased : s.released = x.released ++ taken) (hrest : s.take.Delivers icmp returned released) :
    x.Delivers icmp ((s.mergeheap 0, row) :: returned) (taken ++ released) := by
  have hcalls : ∀ k, x.calls icmp (k + 1) =
      ((s.take.calls icmp k).1, some (s.mergeheap 0, row) :: (s.take.calls icmp k).2) := by
    intro k
    rw [calls, next_of_advance hadvance hrow]
  refine ⟨fun k => ?_, fun k hk => ?_, fun k hk => ?_⟩
  · cases k with
    | zero =>
      rw [Nat.zero_sub]
      rfl
    | succ k =>
      rw [hcalls, hrest.rows k, List.length_cons, Nat.succ_sub_succ]
      rfl
  · obtain ⟨k, rfl⟩ := Nat.exists_eq_succ_of_ne_zero hk.ne'
    rw [hcalls]
    rcases Nat.eq_zero_or_pos k with rfl | hpos
    · exact hheap
    · have hprev := hrest.heap k hpos
      dsimp only
      have hne : (s.take.calls icmp k).2 ≠ [] := by
        intro hnil
        have hlen := congrArg List.length (hrest.rows k)
        rw [hnil, List.length_append, List.length_map, List.length_take, List.length_replicate,
          List.length_nil] at hlen
        omega
      rw [List.getLast?_cons_of_ne_nil hne]
      exact hprev
  · obtain ⟨k, rfl⟩ := Nat.exists_eq_succ_of_ne_zero (Nat.zero_lt_of_lt hk).ne'
    rw [hcalls]
    dsimp only
    rw [hrest.released k (Nat.lt_of_succ_lt_succ hk)]
    show s.released ++ released = _
    rw [hreleased, List.append_assoc]

end CRowStreamMerger

end Merge

end HpccPlatform
