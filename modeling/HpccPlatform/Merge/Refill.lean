import HpccPlatform.Merge.StreamOrder

/-!
# Pulling the next row of a stream

A place of the heap is refilled with the next row of its stream, or with the last stream of the heap.
-/

namespace HpccPlatform

namespace Merge

open ArrayHeap

namespace CRowStreamMerger

variable {R : Type*} {icmp : R → R → ℤ} {s : CRowStreamMerger R} {c p q : ℕ}

/-- The items of the heap from `q` on do not come before their parents. -/
def HeapOf (icmp : R → R → ℤ) (q : ℕ) (s : CRowStreamMerger R) : Prop :=
  HeapFrom (StreamLe icmp s.pending) q s.activeInputs s.mergeheap

/-! ### Sinking -/

/-- `siftDown` only rearranges the heap. -/
theorem siftDown_rearranged (hp : p < s.activeInputs) :
    ∃ heap, (s.siftDown icmp p).1 = { s with mergeheap := heap } ∧
      Rearranged s.activeInputs s.mergeheap heap :=
  ⟨_, rfl, ArrayHeap.siftDown_rearranged hp⟩

theorem siftDown_mergeheap {j : ℕ} (hjp : j ≠ p) (hj : j < 2 * p + 1) :
    (s.siftDown icmp p).1.mergeheap j = s.mergeheap j :=
  siftDown_frame hjp hj

theorem siftDown_nochange (h : (s.siftDown icmp p).2 = true) : (s.siftDown icmp p).1 = s := by
  show { s with mergeheap := (ArrayHeap.siftDown (s.secondIsLess icmp) (s.mayRest icmp)
    s.activeInputs s.activeInputs s.mergeheap p).1 } = s
  rw [ArrayHeap.siftDown_nochange h]

/-- The stream at `p` sinks to its place in the heap from `q` on. -/
theorem siftDown_heapOf (h : TotalPreorder icmp) (hqp : q ≤ p) (hp : p < s.activeInputs)
    (hparent : 0 < p → parent p < q)
    (hedges : ∀ i, 0 < i → i < s.activeInputs → q ≤ parent i → parent i ≠ p →
      StreamLe icmp s.pending (s.mergeheap (parent i)) (s.mergeheap i)) :
    HeapOf icmp q (s.siftDown icmp p).1 :=
  siftDown_heap (decides_streamLe h s) hqp hp (Nat.le_add_left _ _) hedges
    fun hpos hq => absurd hq (not_le.mpr (hparent hpos))

/-! ### Refilling a place -/

/-- The row of a stream that `pullInput` releases. -/
def droppedRow (s : CRowStreamMerger R) (i : ℕ) : List (ℕ × R) :=
  (s.pending i).toList.map (i, ·)

theorem ofStream_droppedRow (s : CRowStreamMerger R) (i j : ℕ) :
    ofStream j (s.droppedRow i) = if i = j then (s.pending i).toList else [] := by
  unfold droppedRow
  cases s.pending i with
  | none => simp
  | some row => exact ofStream_singleton j i row

/-- What `pullInput` does to the merger. -/
structure Pulled (s : CRowStreamMerger R) (i : ℕ) (s' : CRowStreamMerger R) : Prop where
  releases : s.Releases (s.droppedRow i) s'
  mergeheap : s'.mergeheap = s.mergeheap
  activeInputs : s'.activeInputs = s.activeInputs
  pending_of_ne : ∀ j ≠ i, s'.pending j = s.pending j
  pending : s'.pending i = (s.rows i).head?
  rows_of_ne : ∀ j ≠ i, s'.rows j = s.rows j
  rows : s'.rows i = (s.rows i).tail
  failed : s.failed = false → (s.partdedup = true ∨ s.pending i = none) → s'.failed = false

theorem releasePending_eq (s : CRowStreamMerger R) (i : ℕ) :
    s.releasePending i = { s with
      failed := s.failed || (!s.partdedup && (s.pending i).isSome)
      released := s.released ++ s.droppedRow i } := by
  unfold releasePending droppedRow
  cases s.pending i with
  | none => simp
  | some row => simp

theorem pullInput_nil {i : ℕ} (hrows : s.rows i = []) :
    s.pullInput i = ({ s.releasePending i with
      pending := Function.update s.pending i none
      stopped := s.stopped ++ [i] }, false) := by
  rw [pullInput, releasePending_eq]
  dsimp only
  rw [hrows]

theorem pullInput_cons {i : ℕ} {row : R} {rest : List R} (hrows : s.rows i = row :: rest) :
    s.pullInput i = ({ s.releasePending i with
      pending := Function.update s.pending i (some row)
      rows := Function.update s.rows i rest }, true) := by
  rw [pullInput, releasePending_eq]
  dsimp only
  rw [hrows]

/-- The rows of the streams before and after a row has been released. -/
theorem releases_of_pulled {s' : CRowStreamMerger R} {i : ℕ}
    (hreleased : s'.released = s.released ++ s.droppedRow i)
    (hpending : s'.pending i = (s.rows i).head?) (hrows : s'.rows i = (s.rows i).tail)
    (hpending' : ∀ j ≠ i, s'.pending j = s.pending j) (hrows' : ∀ j ≠ i, s'.rows j = s.rows j)
    (hnumstreams : s'.numstreams = s.numstreams) (hpartdedup : s'.partdedup = s.partdedup)
    (hrecno : s'.recno = s.recno) : s.Releases (s.droppedRow i) s' := by
  refine ⟨hreleased, fun j => ?_, hnumstreams, hpartdedup, hrecno⟩
  rw [ofStream_droppedRow]
  unfold held
  by_cases hij : i = j
  · subst hij
    rw [if_pos rfl, hpending, hrows]
    cases s.rows i with
    | nil => rfl
    | cons row rest => rfl
  · rw [if_neg hij, hpending' j (Ne.symm hij), hrows' j (Ne.symm hij)]
    rfl

theorem pullInput_pulled (s : CRowStreamMerger R) (i : ℕ) : s.Pulled i (s.pullInput i).1 := by
  have hfailed : s.failed = false → (s.partdedup = true ∨ s.pending i = none) →
      (s.failed || (!s.partdedup && (s.pending i).isSome)) = false := by
    rintro hfailed (hdedup | hnone)
    · rw [hfailed, hdedup]
      rfl
    · rw [hfailed, hnone, Option.isSome_none, Bool.and_false]
      rfl
  cases hrows : s.rows i with
  | nil =>
    rw [pullInput_nil hrows, releasePending_eq]
    refine ⟨releases_of_pulled rfl ?_ ?_ ?_ ?_ rfl rfl rfl, rfl, rfl, ?_, ?_, fun _ _ => rfl, ?_, hfailed⟩
    · rw [hrows]
      exact Function.update_self i _ _
    · rw [hrows]
      rfl
    · exact fun j hj => Function.update_of_ne hj _ _
    · exact fun _ _ => rfl
    · exact fun j hj => Function.update_of_ne hj _ _
    · rw [hrows]
      exact Function.update_self i _ _
    · rw [hrows]
      rfl
  | cons row rest =>
    rw [pullInput_cons hrows, releasePending_eq]
    refine ⟨releases_of_pulled rfl ?_ ?_ ?_ ?_ rfl rfl rfl, rfl, rfl, ?_, ?_, ?_, ?_, hfailed⟩
    · rw [hrows]
      exact Function.update_self i _ _
    · rw [hrows]
      exact Function.update_self i _ _
    · exact fun j hj => Function.update_of_ne hj _ _
    · exact fun j hj => Function.update_of_ne hj _ _
    · exact fun j hj => Function.update_of_ne hj _ _
    · rw [hrows]
      exact Function.update_self i _ _
    · exact fun j hj => Function.update_of_ne hj _ _
    · rw [hrows]
      exact Function.update_self i _ _

theorem pullInput_snd (s : CRowStreamMerger R) (i : ℕ) :
    (s.pullInput i).2 = true ↔ s.rows i ≠ [] := by
  cases hrows : s.rows i with
  | nil =>
    rw [pullInput_nil hrows]
    exact iff_of_false Bool.false_ne_true fun h => h rfl
  | cons row rest =>
    rw [pullInput_cons hrows]
    exact iff_of_true rfl (List.cons_ne_nil row rest)

theorem pullInput_stopped (s : CRowStreamMerger R) (i : ℕ) :
    (s.pullInput i).1.stopped = if s.rows i = [] then s.stopped ++ [i] else s.stopped := by
  cases hrows : s.rows i with
  | nil =>
    rw [pullInput_nil hrows, releasePending_eq, if_pos rfl]
  | cons row rest =>
    rw [pullInput_cons hrows, releasePending_eq, if_neg (List.cons_ne_nil row rest)]

/-- The heap without the stream at `p`. -/
theorem promote_spec (hp : p < s.activeInputs) :
    ∃ heap, (s.promote p).1 = { s with activeInputs := s.activeInputs - 1, mergeheap := heap } ∧
      (∀ k < s.activeInputs - 1, heap k = replaceByLast s.mergeheap s.activeInputs p k) ∧
      ((s.promote p).2 = true ↔ p < s.activeInputs - 1) := by
  unfold promote
  by_cases hlast : s.activeInputs - 1 = p
  · simp only [hlast, if_true]
    refine ⟨s.mergeheap, rfl, fun k hk => (replaceByLast_of_ne hk.ne).symm, ?_⟩
    exact iff_of_false Bool.false_ne_true (lt_irrefl p)
  · simp only [hlast, if_false]
    exact ⟨_, rfl, fun _ _ => rfl, iff_of_true trivial (by omega)⟩

/-- What happens when a place of the heap is refilled. -/
structure Refilled (s : CRowStreamMerger R) (p : ℕ) (s' : CRowStreamMerger R) (found : Bool) :
    Prop where
  releases : s.Releases (s.droppedRow (s.mergeheap p)) s'
  sound : s'.Sound
  pending_of_ne : ∀ j ≠ s.mergeheap p, s'.pending j = s.pending j
  pending : s'.pending (s.mergeheap p) = (s.rows (s.mergeheap p)).head?
  frame : ∀ k < s'.activeInputs, k ≠ p → s'.mergeheap k = s.mergeheap k
  le : s'.activeInputs ≤ s.activeInputs
  load : s'.load < s.load
  filled : (∀ k < s.activeInputs, k ≠ p → ∃ row, s.pending (s.mergeheap k) = some row) → s'.Filled
  lt_of_found : found = true → p < s'.activeInputs
  eq_of_left : found = false → s'.activeInputs = p

theorem refill_spec (hs : s.Sound) (hp : p < s.activeInputs)
    (hdedup : s.partdedup = true ∨ s.pending (s.mergeheap p) = none) :
    s.Refilled p (s.refill p).1 (s.refill p).2 := by
  have hpulled := s.pullInput_pulled (s.mergeheap p)
  have hfound := s.pullInput_snd (s.mergeheap p)
  have hstopped := s.pullInput_stopped (s.mergeheap p)
  obtain ⟨hin, hrunning⟩ := (hs.active (s.mergeheap p)).mp ⟨p, hp, rfl⟩
  have hfailed := hpulled.failed hs.failed hdedup
  unfold refill
  generalize s.pullInput (s.mergeheap p) = r at hpulled hfound hstopped hfailed
  obtain ⟨t, pulled⟩ := r
  have hothers : ∀ i ≠ s.mergeheap p, t.held i = s.held i := by
    intro i hi
    unfold held
    rw [hpulled.pending_of_ne i hi, hpulled.rows_of_ne i hi]
  cases pulled with
  | true =>
    dsimp only at hpulled hfound hstopped hfailed ⊢
    have hrows := hfound.mp rfl
    rw [if_neg hrows] at hstopped
    refine ⟨hpulled.releases, ⟨?_, ?_, ?_, hfailed, ?_⟩, hpulled.pending_of_ne, hpulled.pending, ?_,
      ?_, ?_, ?_, ?_, ?_⟩
    · rw [hpulled.mergeheap, hpulled.activeInputs]
      exact hs.injOn
    · rw [hpulled.mergeheap, hpulled.activeInputs, hpulled.releases.numstreams, hstopped]
      exact hs.active
    · intro i hi
      rw [hstopped] at hi
      rw [hothers i fun heq => hrunning (heq ▸ hi)]
      exact hs.exhausted i hi
    · rw [hstopped, hpulled.releases.numstreams]
      exact hs.once
    · exact fun k _ _ => congrFun hpulled.mergeheap k
    · exact hpulled.activeInputs.le
    · unfold load
      rw [hpulled.activeInputs, hpulled.releases.numstreams]
      refine Nat.add_lt_add_right (Finset.sum_lt_sum ?_ ⟨s.mergeheap p, Finset.mem_range.mpr hin, ?_⟩) _
      · intro i _
        by_cases hi : i = s.mergeheap p
        · rw [hi, hpulled.rows]
          exact (List.length_tail).le.trans (Nat.sub_le _ _)
        · rw [hpulled.rows_of_ne i hi]
      · rw [hpulled.rows, List.length_tail]
        exact Nat.sub_lt (List.length_pos_iff.mpr hrows) Nat.one_pos
    · intro hfilled k hk
      rw [hpulled.activeInputs] at hk
      rw [hpulled.mergeheap]
      by_cases hkp : k = p
      · rw [hkp, hpulled.pending]
        exact ⟨_, List.head?_eq_some_head hrows⟩
      · rw [hpulled.pending_of_ne _ fun heq => hkp (hs.injOn hk hp heq)]
        exact hfilled k hk hkp
    · intro _
      rw [hpulled.activeInputs]
      exact hp
    · intro hfalse
      cases hfalse
  | false =>
    dsimp only at hpulled hfound hstopped hfailed ⊢
    have hrows : s.rows (s.mergeheap p) = [] := by
      by_contra hne
      exact Bool.false_ne_true (hfound.mpr hne)
    rw [if_pos hrows] at hstopped
    have hp' : p < t.activeInputs := by
      rw [hpulled.activeInputs]
      exact hp
    obtain ⟨heap, hpromote, hheap, hleft⟩ := promote_spec hp'
    rw [hpulled.activeInputs, hpulled.mergeheap] at hheap
    rw [hpulled.activeInputs] at hpromote hleft
    have hinj := @replaceByLast_injOn _ _ p _ hs.injOn
    have hmem : ∀ x, (∃ k < s.activeInputs - 1, heap k = x) ↔
        (∃ k < s.activeInputs, s.mergeheap k = x) ∧ x ≠ s.mergeheap p := by
      intro x
      rw [← mem_replaceByLast hs.injOn hp x]
      exact exists_congr fun k => and_congr_right fun hk => by rw [hheap k hk]
    rw [hpromote]
    refine ⟨?_, ⟨?_, ?_, ?_, hfailed, ?_⟩, hpulled.pending_of_ne, hpulled.pending, ?_, ?_, ?_, ?_, ?_, ?_⟩
    · exact ⟨hpulled.releases.released, hpulled.releases.held, hpulled.releases.numstreams,
        hpulled.releases.partdedup, hpulled.releases.recno⟩
    · exact hinj.congr fun k hk => (hheap k hk).symm
    · intro i
      show (∃ k < s.activeInputs - 1, heap k = i) ↔ i < t.numstreams ∧ i ∉ t.stopped
      rw [hmem, hs.active, hpulled.releases.numstreams, hstopped, List.mem_append, not_or,
        List.mem_singleton, and_assoc]
    · intro i hi
      have hi' : i ∈ s.stopped ++ [s.mergeheap p] := hstopped ▸ hi
      show t.held i = []
      rcases List.mem_append.mp hi' with hi' | hi'
      · rw [hothers i fun heq => hrunning (heq ▸ hi')]
        exact hs.exhausted i hi'
      · rw [List.mem_singleton.mp hi', held, hpulled.pending, hpulled.rows, hrows]
        rfl
    · show t.stopped.Nodup ∧ ∀ i ∈ t.stopped, i < t.numstreams
      rw [hstopped, hpulled.releases.numstreams]
      refine ⟨List.nodup_append.mpr ⟨hs.once.1, List.nodup_singleton _, ?_⟩, fun i hi => ?_⟩
      · rintro i hi j hj rfl
        exact hrunning (List.mem_singleton.mp hj ▸ hi)
      · rcases List.mem_append.mp hi with hi | hi
        · exact hs.once.2 i hi
        · exact List.mem_singleton.mp hi ▸ hin
    · intro k hk hkp
      exact (hheap k hk).trans (replaceByLast_of_ne hkp)
    · exact Nat.sub_le _ _
    · show ∑ i ∈ Finset.range t.numstreams, (t.rows i).length + (s.activeInputs - 1) < s.load
      have hsame : ∀ i, t.rows i = s.rows i := by
        intro i
        by_cases hi : i = s.mergeheap p
        · rw [hi, hpulled.rows, hrows]
          rfl
        · exact hpulled.rows_of_ne i hi
      rw [hpulled.releases.numstreams, Finset.sum_congr rfl fun i _ => by rw [hsame i]]
      exact Nat.add_lt_add_left (Nat.sub_lt (Nat.zero_lt_of_lt hp) Nat.one_pos) _
    · intro hfilled k hk
      have hk' : k < s.activeInputs - 1 := hk
      show ∃ row, t.pending (heap k) = some row
      obtain ⟨⟨j, hj, hjk⟩, hne⟩ := (hmem (heap k)).mp ⟨k, hk', rfl⟩
      rw [hpulled.pending_of_ne _ hne, ← hjk]
      exact hfilled j hj fun heq => hne (by rw [← hjk, heq])
    · exact fun hfound' => hleft.mp hfound'
    · intro hnot
      show s.activeInputs - 1 = p
      have hge : ¬ p < s.activeInputs - 1 := fun hlt => by
        rw [hleft.mpr hlt] at hnot
        cases hnot
      omega

end CRowStreamMerger

end Merge

end HpccPlatform
