import HpccPlatform.Library.Comparison
import HpccPlatform.Merge.RowStreams

/-!
# The order of the streams

The heap orders the streams by their pending rows, and streams with equal rows by their numbers.  The
rows that a stream still holds leave it from the front, by being released or returned.
-/

namespace HpccPlatform

namespace Merge

open ArrayHeap

variable {R : Type*} {icmp : R → R → ℤ}

theorem docompare_totalPreorder (h : TotalPreorder icmp) : TotalPreorder (docompare icmp) where
  swap a b := by
    cases a with
    | none => cases b <;> simp [docompare]
    | some a =>
      cases b with
      | none => simp [docompare]
      | some b => exact h.swap a b
  trans a b c := by
    cases a with
    | none => cases b <;> cases c <;> simp [docompare]
    | some a =>
      cases b with
      | none => cases c <;> simp [docompare]
      | some b =>
        cases c with
        | none => simp [docompare]
        | some c => exact h.trans a b c

/-- The stream `i` comes before `j`, by its pending row or by its number. -/
def StreamLe (icmp : R → R → ℤ) (pending : ℕ → Option R) (i j : ℕ) : Prop :=
  docompare icmp (pending i) (pending j) < 0 ∨ docompare icmp (pending i) (pending j) = 0 ∧ i ≤ j

section StreamLe

variable {pending pending' : ℕ → Option R} {i j k : ℕ}

theorem StreamLe.le (h : StreamLe icmp pending i j) : docompare icmp (pending i) (pending j) ≤ 0 :=
  h.elim le_of_lt fun heq => heq.1.le

theorem StreamLe.congr (hi : pending' i = pending i) (hj : pending' j = pending j) :
    StreamLe icmp pending' i j ↔ StreamLe icmp pending i j := by
  unfold StreamLe
  rw [hi, hj]

/-- The tests of `siftDown` are those of this order. -/
theorem decides_streamLe (h : TotalPreorder icmp) (s : CRowStreamMerger R) :
    Decides (StreamLe icmp s.pending) (s.secondIsLess icmp) (s.mayRest icmp) := by
  have hd := docompare_totalPreorder h
  refine ⟨fun i => Or.inr ⟨hd.self _, le_rfl⟩, ?_, ?_, ?_, ?_, ?_⟩
  · intro i j k hij hjk
    have hle := hd.trans _ _ _ hij.le hjk.le
    rcases hij with hlt | ⟨heq, hij⟩
    · exact Or.inl (hd.lt_of_lt_of_le hlt hjk.le)
    · rcases hjk with hlt | ⟨heq', hjk⟩
      · exact Or.inl (hd.lt_of_le_of_lt heq.le hlt)
      · refine Or.inr ⟨le_antisymm hle ?_, hij.trans hjk⟩
        exact hd.nonneg_iff.mpr (hd.trans _ _ _ (hd.zero_comm.mp heq').le (hd.zero_comm.mp heq).le)
  · intro d c hless
    exact (of_decide_eq_true hless).imp_right fun heq => ⟨heq.1, heq.2.le⟩
  · intro d c hless
    have hnot := of_decide_eq_false hless
    rw [not_or, not_and, not_lt, not_lt] at hnot
    rcases hnot.1.lt_or_eq with hgt | heq
    · exact Or.inl ((hd.swap _ _).mp hgt)
    · exact Or.inr ⟨hd.zero_comm.mp heq.symm, hnot.2 heq.symm⟩
  · intro c p hrest
    rcases of_decide_eq_true hrest with hgt | ⟨heq, hlt⟩
    · exact Or.inl ((hd.swap _ _).mp hgt)
    · exact Or.inr ⟨hd.zero_comm.mp heq, hlt.le⟩
  · intro c p hrest
    have hnot := of_decide_eq_false hrest
    rw [not_or, not_and, not_lt, not_lt] at hnot
    rcases hnot.1.lt_or_eq with hlt | heq
    · exact Or.inl hlt
    · exact Or.inr ⟨heq, hnot.2 heq⟩

end StreamLe

/-! ### The rows that leave the streams -/

/-- The rows of one stream, in their order. -/
def ofStream (i : ℕ) (taken : List (ℕ × R)) : List R :=
  (taken.filter fun x => x.1 = i).map Prod.snd

@[simp] theorem ofStream_nil (i : ℕ) : ofStream i ([] : List (ℕ × R)) = [] := rfl

theorem ofStream_append (i : ℕ) (taken taken' : List (ℕ × R)) :
    ofStream i (taken ++ taken') = ofStream i taken ++ ofStream i taken' := by
  rw [ofStream, List.filter_append, List.map_append]
  rfl

theorem ofStream_singleton (i j : ℕ) (row : R) :
    ofStream i [(j, row)] = if j = i then [row] else [] := by
  unfold ofStream
  by_cases hji : j = i
  · rw [if_pos hji, List.filter_cons_of_pos (by simpa using hji)]
    rfl
  · rw [if_neg hji, List.filter_cons_of_neg (by simpa using hji)]
    rfl

theorem mem_ofStream {i : ℕ} {taken : List (ℕ × R)} {row : R} :
    row ∈ ofStream i taken ↔ (i, row) ∈ taken := by
  unfold ofStream
  constructor
  · intro hrow
    obtain ⟨⟨j, row'⟩, hmem, rfl⟩ := List.mem_map.mp hrow
    obtain ⟨hmem, hj⟩ := List.mem_filter.mp hmem
    have hji : j = i := of_decide_eq_true hj
    exact hji ▸ hmem
  · intro hmem
    exact List.mem_map.mpr ⟨(i, row), List.mem_filter.mpr ⟨hmem, decide_eq_true rfl⟩, rfl⟩

namespace CRowStreamMerger

/-- The rows that a stream still holds. -/
def held (s : CRowStreamMerger R) (i : ℕ) : List R := (s.pending i).toList ++ s.rows i

/-- Between two states of the merger the rows of `taken` have been released. -/
structure Releases (s : CRowStreamMerger R) (taken : List (ℕ × R)) (s' : CRowStreamMerger R) : Prop where
  released : s'.released = s.released ++ taken
  held : ∀ i, s.held i = ofStream i taken ++ s'.held i
  numstreams : s'.numstreams = s.numstreams
  partdedup : s'.partdedup = s.partdedup
  recno : s'.recno = s.recno

theorem Releases.refl (s : CRowStreamMerger R) : s.Releases [] s :=
  ⟨(List.append_nil _).symm, fun _ => rfl, rfl, rfl, rfl⟩

theorem Releases.trans {s s' s'' : CRowStreamMerger R} {taken taken' : List (ℕ × R)}
    (h : s.Releases taken s') (h' : s'.Releases taken' s'') : s.Releases (taken ++ taken') s'' where
  released := by rw [h'.released, h.released, List.append_assoc]
  held i := by rw [h.held, h'.held, ofStream_append, List.append_assoc]
  numstreams := h'.numstreams.trans h.numstreams
  partdedup := h'.partdedup.trans h.partdedup
  recno := h'.recno.trans h.recno

/-- A merger in which only the order of the heap has changed. -/
theorem releases_of_heap {s s' : CRowStreamMerger R} (h : ∃ heap, s' = { s with mergeheap := heap }) :
    s.Releases [] s' := by
  obtain ⟨heap, rfl⟩ := h
  exact ⟨(List.append_nil _).symm, fun _ => rfl, rfl, rfl, rfl⟩

/-! ### The streams in the heap -/

/-- The heap has the streams that are not exhausted, each once, and the others have been stopped once. -/
structure Sound (s : CRowStreamMerger R) : Prop where
  injOn : Set.InjOn s.mergeheap (Set.Iio s.activeInputs)
  active : ∀ i, (∃ k < s.activeInputs, s.mergeheap k = i) ↔ i < s.numstreams ∧ i ∉ s.stopped
  exhausted : ∀ i ∈ s.stopped, s.held i = []
  failed : s.failed = false
  once : s.stopped.Nodup ∧ ∀ i ∈ s.stopped, i < s.numstreams

/-- Each stream in the heap has a pending row. -/
def Filled (s : CRowStreamMerger R) : Prop :=
  ∀ k < s.activeInputs, ∃ row, s.pending (s.mergeheap k) = some row

/-- Rearranging the heap. -/
theorem Sound.rearranged {s s' : CRowStreamMerger R} (h : s.Sound)
    (hheap : ∃ heap, s' = { s with mergeheap := heap } ∧
      Rearranged s.activeInputs s.mergeheap heap) : s'.Sound := by
  obtain ⟨heap, rfl, hrearranged⟩ := hheap
  exact ⟨hrearranged.injOn h.injOn, fun i => (hrearranged.mem_iff i).trans (h.active i), h.exhausted,
    h.failed, h.once⟩

theorem Filled.rearranged {s s' : CRowStreamMerger R} (h : s.Filled)
    (hheap : ∃ heap, s' = { s with mergeheap := heap } ∧
      Rearranged s.activeInputs s.mergeheap heap) : s'.Filled := by
  obtain ⟨heap, rfl, hrearranged⟩ := hheap
  intro k hk
  obtain ⟨j, hj, hjk⟩ := (hrearranged.mem_iff _).mp ⟨k, hk, rfl⟩
  show ∃ row, s.pending (heap k) = some row
  rw [← hjk]
  exact h j hj

end CRowStreamMerger

end Merge

end HpccPlatform
