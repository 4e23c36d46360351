import HpccPlatform.Merge.Refill

/-!
# The start of a merge

The constructor pulls the first row of each stream, and `init` makes a heap of the streams that have
one.
-/

namespace HpccPlatform

namespace Merge

open ArrayHeap

namespace CRowStreamMerger

variable {R : Type*} {icmp : R → R → ℤ} {s : CRowStreamMerger R}

/-! ### The first rows -/

/-- The state of the loop of the constructor before the stream `k`. -/
structure Loaded (numstreams : ℕ) (partdedup : Bool) (rows : ℕ → List R) (k : ℕ)
    (s : CRowStreamMerger R) : Prop where
  numstreams : s.numstreams = numstreams
  partdedup : s.partdedup = partdedup
  injOn : Set.InjOn s.mergeheap (Set.Iio s.activeInputs)
  active : ∀ i, (∃ j < s.activeInputs, s.mergeheap j = i) ↔ i < k ∧ i ∉ s.stopped
  exhausted : ∀ i ∈ s.stopped, s.held i = []
  stopped_lt : ∀ i ∈ s.stopped, i < k
  nodup : s.stopped.Nodup
  filled : s.Filled
  held : ∀ i, s.held i = rows i
  waiting : ∀ i, k ≤ i → s.pending i = none
  released : s.released = []
  failed : s.failed = false

theorem addStream_loaded {numstreams k : ℕ} {partdedup : Bool} {rows : ℕ → List R}
    (h : s.Loaded numstreams partdedup rows k) :
    (s.addStream k).Loaded numstreams partdedup rows (k + 1) := by
  have hnone : Function.update s.pending k none = s.pending := by
    rw [← h.waiting k le_rfl]
    exact Function.update_eq_self k s.pending
  have hpulled := s.pullInput_pulled k
  have hfound := s.pullInput_snd k
  have hstopped := s.pullInput_stopped k
  have hfailed := hpulled.failed h.failed (Or.inr (h.waiting k le_rfl))
  have hdropped : s.droppedRow k = [] := by
    rw [droppedRow, h.waiting k le_rfl]
    rfl
  have hrows : s.rows k = rows k := by
    rw [← h.held k, CRowStreamMerger.held, h.waiting k le_rfl]
    rfl
  unfold addStream
  rw [hnone]
  generalize s.pullInput k = r at hpulled hfound hstopped hfailed
  obtain ⟨t, pulled⟩ := r
  dsimp only at hpulled hfound hstopped hfailed
  have hreleased : t.released = [] := by
    rw [hpulled.releases.released, h.released, hdropped]
    rfl
  have hheld : ∀ i, t.held i = rows i := by
    intro i
    rw [← h.held i, hpulled.releases.held i, hdropped]
    rfl
  have hwaiting : ∀ i, k + 1 ≤ i → t.pending i = none := by
    intro i hi
    rw [hpulled.pending_of_ne i (Nat.lt_of_succ_le hi).ne']
    exact h.waiting i ((Nat.le_succ k).trans hi)
  have hlt : ∀ j < s.activeInputs, s.mergeheap j < k := fun j hj =>
    ((h.active (s.mergeheap j)).mp ⟨j, hj, rfl⟩).1
  cases pulled with
  | true =>
    have hne := hfound.mp rfl
    rw [if_neg hne] at hstopped
    dsimp only
    have hheap : ∀ j < s.activeInputs, Function.update t.mergeheap t.activeInputs k j =
        s.mergeheap j := by
      intro j hj
      rw [hpulled.activeInputs, hpulled.mergeheap, Function.update_of_ne hj.ne]
    have hlast : Function.update t.mergeheap t.activeInputs k s.activeInputs = k := by
      rw [hpulled.activeInputs, Function.update_self]
    refine ⟨hpulled.releases.numstreams.trans h.numstreams,
      hpulled.releases.partdedup.trans h.partdedup, ?_, ?_, ?_, ?_, ?_, ?_, hheld, hwaiting,
      hreleased, hfailed⟩
    · intro i hi j hj hij
      have hi' : i < s.activeInputs + 1 := by rw [← hpulled.activeInputs]; exact hi
      have hj' : j < s.activeInputs + 1 := by rw [← hpulled.activeInputs]; exact hj
      dsimp only at hij
      rcases Nat.lt_succ_iff_lt_or_eq.mp hi' with hi' | rfl
      · rcases Nat.lt_succ_iff_lt_or_eq.mp hj' with hj' | rfl
        · rw [hheap i hi', hheap j hj'] at hij
          exact h.injOn hi' hj' hij
        · rw [hheap i hi', hlast] at hij
          exact absurd hij (hlt i hi').ne
      · rcases Nat.lt_succ_iff_lt_or_eq.mp hj' with hj' | rfl
        · rw [hheap j hj', hlast] at hij
          exact absurd hij.symm (hlt j hj').ne
        · rfl
    · intro i
      show (∃ j < t.activeInputs + 1, Function.update t.mergeheap t.activeInputs k j = i) ↔
        i < k + 1 ∧ i ∉ t.stopped
      rw [hstopped]
      constructor
      · rintro ⟨j, hj, rfl⟩
        rw [hpulled.activeInputs] at hj
        rcases Nat.lt_succ_iff_lt_or_eq.mp hj with hj | rfl
        · rw [hheap j hj]
          obtain ⟨hjk, hrunning⟩ := (h.active (s.mergeheap j)).mp ⟨j, hj, rfl⟩
          exact ⟨hjk.trans (Nat.lt_succ_self k), hrunning⟩
        · rw [hlast]
          exact ⟨Nat.lt_succ_self k, fun hmem => (h.stopped_lt k hmem).ne rfl⟩
      · rintro ⟨hik, hrunning⟩
        rw [hpulled.activeInputs]
        rcases Nat.lt_succ_iff_lt_or_eq.mp hik with hik | rfl
        · obtain ⟨j, hj, hji⟩ := (h.active i).mpr ⟨hik, hrunning⟩
          refine ⟨j, hj.trans (Nat.lt_succ_self _), ?_⟩
          rw [← hpulled.activeInputs, hheap j hj, hji]
        · refine ⟨s.activeInputs, Nat.lt_succ_self _, ?_⟩
          rw [← hpulled.activeInputs, hpulled.activeInputs, ← hpulled.activeInputs]
          exact Function.update_self _ _ _
    · intro i hi
      have hi' : i ∈ s.stopped := hstopped ▸ hi
      show t.held i = []
      rw [hheld i, ← h.held i]
      exact h.exhausted i hi'
    · intro i hi
      have hi' : i ∈ s.stopped := hstopped ▸ hi
      exact (h.stopped_lt i hi').trans (Nat.lt_succ_self k)
    · exact (congrArg List.Nodup hstopped).mpr h.nodup
    · intro j hj
      have hj' : j < s.activeInputs + 1 := by rw [← hpulled.activeInputs]; exact hj
      show ∃ row, t.pending (Function.update t.mergeheap t.activeInputs k j) = some row
      rcases Nat.lt_succ_iff_lt_or_eq.mp hj' with hj' | rfl
      · rw [hheap j hj', hpulled.pending_of_ne _ (hlt j hj').ne]
        exact h.filled j hj'
      · rw [hlast, hpulled.pending]
        exact ⟨_, List.head?_eq_some_head hne⟩
  | false =>
    have hnil : s.rows k = [] := by
      by_contra hne
      exact Bool.false_ne_true (hfound.mpr hne)
    rw [if_pos hnil] at hstopped
    refine ⟨hpulled.releases.numstreams.trans h.numstreams,
      hpulled.releases.partdedup.trans h.partdedup, ?_, ?_, ?_, ?_, ?_, ?_, hheld, hwaiting,
      hreleased, hfailed⟩
    · rw [hpulled.mergeheap, hpulled.activeInputs]
      exact h.injOn
    · intro i
      rw [hpulled.mergeheap, hpulled.activeInputs, h.active, hstopped, List.mem_append, not_or,
        List.mem_singleton, Nat.lt_succ_iff_lt_or_eq]
      constructor
      · rintro ⟨hik, hrunning⟩
        exact ⟨Or.inl hik, hrunning, hik.ne⟩
      · rintro ⟨hik, hrunning, hne⟩
        exact ⟨hik.resolve_right hne, hrunning⟩
    · intro i hi
      rw [hstopped] at hi
      rw [hheld i]
      rcases List.mem_append.mp hi with hi | hi
      · rw [← h.held i]
        exact h.exhausted i hi
      · rw [List.mem_singleton.mp hi, ← hrows]
        exact hnil
    · intro i hi
      rw [hstopped] at hi
      rcases List.mem_append.mp hi with hi | hi
      · exact (h.stopped_lt i hi).trans (Nat.lt_succ_self k)
      · rw [List.mem_singleton.mp hi]
        exact Nat.lt_succ_self k
    · rw [hstopped]
      refine List.nodup_append.mpr ⟨h.nodup, List.nodup_singleton _, ?_⟩
      rintro i hi j hj rfl
      exact (h.stopped_lt i hi).ne (List.mem_singleton.mp hj)
    · intro j hj
      rw [hpulled.activeInputs] at hj
      rw [hpulled.mergeheap, hpulled.pending_of_ne _ (hlt j hj).ne]
      exact h.filled j hj

/-- The merger before `init`. -/
def unsorted (numstreams : ℕ) (partdedup : Bool) (rows : ℕ → List R) : CRowStreamMerger R :=
  (List.range numstreams).foldl addStream
    { numstreams, partdedup, pending := fun _ => none, mergeheap := fun _ => 0, activeInputs := 0,
      recno := 0, rows, released := [], stopped := [], failed := false }

theorem unsorted_loaded (numstreams : ℕ) (partdedup : Bool) (rows : ℕ → List R) :
    (unsorted numstreams partdedup rows).Loaded numstreams partdedup rows numstreams := by
  have hall : ∀ k, ((List.range k).foldl addStream
      { numstreams, partdedup, pending := fun _ => none, mergeheap := fun _ => 0, activeInputs := 0,
        recno := 0, rows, released := [], stopped := [], failed := false }).Loaded numstreams partdedup
          rows k := by
    intro k
    induction k with
    | zero =>
      refine ⟨rfl, rfl, ?_, ?_, ?_, ?_, List.nodup_nil, ?_, fun _ => rfl, fun _ _ => rfl, rfl, rfl⟩
      · exact fun i hi => absurd hi (Nat.not_lt_zero i)
      · intro i
        exact iff_of_false (fun ⟨j, hj, _⟩ => absurd hj (Nat.not_lt_zero j))
          fun hi => absurd hi.1 (Nat.not_lt_zero i)
      · exact fun i hi => absurd hi List.not_mem_nil
      · exact fun i hi => absurd hi List.not_mem_nil
      · exact fun j hj => absurd hj (Nat.not_lt_zero j)
    | succ k ih =>
      rw [List.range_succ, List.foldl_append]
      exact addStream_loaded ih
  exact hall numstreams

/-! ### The first heap -/

/-- What holds before the item at the top sinks: the other items are in order. -/
structure Ready (icmp : R → R → ℤ) (s : CRowStreamMerger R) : Prop where
  sound : s.Sound
  filled : s.Filled
  heap : s.HeapOf icmp 1

theorem init_loop_ready (h : TotalPreorder icmp) {p : ℕ} (hs : s.Sound) (hfilled : s.Filled)
    (hp : 0 < p → p < s.activeInputs) (hheap : s.HeapOf icmp (p + 1)) :
    (init.loop icmp p s).Ready icmp ∧ s.Releases [] (init.loop icmp p s) ∧
      (init.loop icmp p s).activeInputs = s.activeInputs := by
  induction p generalizing s with
  | zero => exact ⟨⟨hs, hfilled, hheap⟩, .refl s, rfl⟩
  | succ p ih =>
    have hlt := hp (Nat.succ_pos p)
    have hrearranged := @siftDown_rearranged _ icmp s _ hlt
    obtain ⟨heap, hsift, -⟩ := hrearranged
    have hactive : (s.siftDown icmp (p + 1)).1.activeInputs = s.activeInputs := by rw [hsift]
    have hstep : s.Releases [] (s.siftDown icmp (p + 1)).1 := releases_of_heap ⟨heap, hsift⟩
    have hheap' : (s.siftDown icmp (p + 1)).1.HeapOf icmp (p + 1) := by
      refine siftDown_heapOf h le_rfl hlt (fun hpos => parent_lt hpos) fun i hi hin hge hne => ?_
      exact hheap i hi hin (Nat.lt_of_le_of_ne hge hne.symm)
    obtain ⟨hready, hreleases, hactive'⟩ := ih (hs.rearranged (siftDown_rearranged hlt)) (hfilled.rearranged (siftDown_rearranged hlt))
      (fun _ => by rw [hactive]; exact (Nat.lt_succ_self p).trans hlt) hheap'
    exact ⟨hready, hstep.trans hreleases, hactive'.trans hactive⟩

/-- The merger before its first item at the top sinks. -/
theorem construct_ready (h : TotalPreorder icmp) (numstreams : ℕ) (partdedup : Bool)
    (rows : ℕ → List R) :
    ∃ s : CRowStreamMerger R, s.Ready icmp ∧ s.numstreams = numstreams ∧ s.partdedup = partdedup ∧
      (∀ i, s.held i = rows i) ∧ s.released = [] ∧
      construct icmp numstreams partdedup rows =
        { (if 0 < s.activeInputs then s.siftTop icmp else s) with recno := 0 } := by
  have hload := unsorted_loaded numstreams partdedup rows
  have hconstruct : construct icmp numstreams partdedup rows =
      init icmp (unsorted numstreams partdedup rows) := rfl
  rw [hconstruct]
  generalize unsorted numstreams partdedup rows = s at hload
  have hsound : s.Sound :=
    ⟨hload.injOn, fun i => hload.numstreams.symm ▸ hload.active i, hload.exhausted, hload.failed,
      hload.nodup, fun i hi => hload.numstreams.symm ▸ hload.stopped_lt i hi⟩
  by_cases htwo : 2 ≤ s.activeInputs
  · have hfrom : s.HeapOf icmp ((s.activeInputs - 2) / 2 + 1) := by
      intro i hi hin hge
      unfold parent at hge
      omega
    obtain ⟨hready, hreleases, hactive⟩ :=
      init_loop_ready h hsound hload.filled (fun hpos => by omega) hfrom
    refine ⟨_, hready, hreleases.numstreams.trans hload.numstreams,
      hreleases.partdedup.trans hload.partdedup, ?_, ?_, ?_⟩
    · intro i
      rw [← hload.held i, hreleases.held i]
      rfl
    · rw [hreleases.released, hload.released]
      rfl
    · have hpos : 0 < s.activeInputs := Nat.zero_lt_of_lt htwo
      rw [init, if_pos hpos, if_pos htwo, if_pos (hactive.symm ▸ hpos)]
  · refine ⟨s, ⟨hsound, hload.filled, fun i hi hin => by omega⟩, hload.numstreams, hload.partdedup,
      hload.held, hload.released, ?_⟩
    rw [init, if_neg htwo]

end CRowStreamMerger

end Merge

end HpccPlatform
