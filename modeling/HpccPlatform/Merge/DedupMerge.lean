import HpccPlatform.Merge.DedupTop
import HpccPlatform.Merge.PlainMerge

/-!
# Merging distinct rows

With `partdedup` and strictly increasing streams each value is returned once, from the stream with the
lowest number that has it, and the other rows of that value are released.  The constructor and the
calls of `next` then keep the heap in order in both modes.
-/

namespace HpccPlatform

namespace Merge

open ArrayHeap
open scoped List

namespace CRowStreamMerger

variable {R : Type*} {icmp : R → R → ℤ} {s t u : CRowStreamMerger R} {row : R} {numstreams : ℕ}
  {rows : ℕ → List R} {dropped m released : List (ℕ × R)}

theorem DedupedTop.ordered (h : DedupedTop icmp s dropped t row) : t.Ordered icmp :=
  ⟨h.sound, h.filled, h.heap⟩

theorem Increasing.take (h : s.Increasing icmp) (hrow : s.pending (s.mergeheap 0) = some row) :
    s.take.Increasing icmp := by
  intro i hi
  have hheld := h i hi
  rw [take_held hrow i] at hheld
  exact (List.pairwise_append.mp hheld).2.1

/-- The row at the top is less than all that are left. -/
theorem DedupedTop.lt_held (h : TotalPreorder icmp) (ht : DedupedTop icmp s dropped t row)
    (hincreasing : t.Increasing icmp) {i : ℕ} (hi : i < t.numstreams) {r : R}
    (hr : r ∈ t.take.held i) : icmp row r < 0 := by
  have hheld := hincreasing i hi
  rw [take_held ht.top i, ofStream_singleton] at hheld
  by_cases htop : t.mergeheap 0 = i
  · rw [if_pos htop] at hheld
    exact (List.pairwise_cons.mp hheld).1 r hr
  · rw [if_neg htop, List.nil_append] at hheld
    have hrunning : i ∉ t.stopped := by
      intro hmem
      have hnil := (ht.sound.take ht.pos).exhausted i hmem
      rw [hnil] at hr
      cases hr
    obtain ⟨k, hk, hki⟩ := (ht.sound.active i).mpr ⟨hi, hrunning⟩
    have hk0 : 0 < k := Nat.pos_of_ne_zero fun h0 => htop (h0 ▸ hki)
    obtain ⟨first, hfirst, hless⟩ := ht.less k hk0 hk
    rw [hki] at hfirst
    unfold held at hr hheld
    rw [take_pending_of_ne (Ne.symm htop), hfirst] at hr hheld
    rcases List.mem_cons.mp hr with rfl | hmem
    · exact hless
    · exact h.lt_of_lt_of_le hless ((List.pairwise_cons.mp hheld).1 r hmem).le

/-- The rows of `m` are returned and those of `released` are released, of all that the streams hold. -/
structure Distinct (icmp : R → R → ℤ) (s : CRowStreamMerger R) (m released : List (ℕ × R)) : Prop where
  stream : ∀ x ∈ m, x.1 < s.numstreams
  all : ∀ i < s.numstreams, (ofStream i m ++ ofStream i released).Perm (s.held i)
  increasing : m.Pairwise (icmp ·.2 ·.2 < 0)
  equal : ∀ x ∈ released, x.1 < s.numstreams ∧ ∃ y ∈ m, icmp y.2 x.2 = 0 ∧ y.1 ≤ x.1

/-- The row at the top is returned and the rows that equal it are released before all others. -/
theorem DedupedTop.distinct (h : TotalPreorder icmp) (ht : DedupedTop icmp s dropped t row)
    {x : CRowStreamMerger R} (hreleases : x.Releases dropped t) (hincreasing : t.Increasing icmp)
    (hrest : t.take.Distinct icmp m released) :
    x.Distinct icmp ((t.mergeheap 0, row) :: m) (dropped ++ released) := by
  have hnum : t.numstreams = x.numstreams := hreleases.numstreams
  have htop : t.mergeheap 0 < t.numstreams := ((ht.sound.active _).mp ⟨0, ht.pos, rfl⟩).1
  refine ⟨fun y hy => ?_, fun i hi => ?_, ?_, fun y hy => ?_⟩
  · rcases List.mem_cons.mp hy with rfl | hy
    · exact hnum ▸ htop
    · exact hnum ▸ hrest.stream y hy
  · have hall := hrest.all i (hnum.symm ▸ hi)
    rw [hreleases.held i, take_held ht.top i, ← List.singleton_append, ofStream_append, ofStream_append]
    generalize ofStream i [(t.mergeheap 0, row)] = one
    generalize ofStream i dropped = gone
    calc one ++ ofStream i m ++ (gone ++ ofStream i released)
        = one ++ (ofStream i m ++ gone) ++ ofStream i released := by simp only [List.append_assoc]
      _ ~ one ++ (gone ++ ofStream i m) ++ ofStream i released :=
          (List.perm_append_comm.append_left one).append_right _
      _ = one ++ gone ++ (ofStream i m ++ ofStream i released) := by simp only [List.append_assoc]
      _ ~ gone ++ one ++ t.take.held i := List.perm_append_comm.append hall
      _ = gone ++ (one ++ t.take.held i) := List.append_assoc _ _ _
  · refine List.pairwise_cons.mpr ⟨fun y hy => ?_, hrest.increasing⟩
    have hylt := hrest.stream y hy
    refine ht.lt_held h hincreasing hylt ?_
    exact (hrest.all y.1 hylt).mem_iff.mp (List.mem_append_left _ (mem_ofStream.mpr hy))
  · rcases List.mem_append.mp hy with hy | hy
    · obtain ⟨hylt, hyeq, hyle⟩ := ht.equal y hy
      exact ⟨hnum ▸ hylt, _, List.mem_cons_self, hyeq, hyle⟩
    · obtain ⟨hylt, z, hz, hzeq⟩ := hrest.equal y hy
      exact ⟨hnum ▸ hylt, z, List.mem_cons_of_mem _ hz, hzeq⟩

/-- The rows that follow the one at the top. -/
theorem DedupedTop.rest (h : TotalPreorder icmp) : ∀ (n : ℕ) (s t : CRowStreamMerger R)
    (dropped : List (ℕ × R)) (row : R), t.load = n → DedupedTop icmp s dropped t row →
    t.Increasing icmp → t.partdedup = true →
    ∃ m released, t.take.Distinct icmp m released ∧ t.take.Delivers icmp m released := by
  intro n
  induction n using Nat.strong_induction_on with
  | _ n ih =>
    rintro s t dropped row rfl ht hincreasing hdedup
    obtain ⟨hreleases, hload, -, hfound, -⟩ := ht.ordered.refill_take ht.pos
    cases hmore : (t.take.refill 0).2 with
    | false =>
      -- the last stream is exhausted
      obtain ⟨hdelivers, hnil⟩ := ht.ordered.delivers_last ht.pos hmore
      refine ⟨[], [], ⟨fun x hx => absurd hx List.not_mem_nil, fun i hi => ?_, List.Pairwise.nil,
        fun x hx => absurd hx List.not_mem_nil⟩, hdelivers⟩
      rw [hnil i hi]
      exact List.Perm.nil
    | true =>
      obtain ⟨hready, hpos'⟩ := hfound hmore
      have hdedup' : (t.take.refill 0).1.partdedup = true := hreleases.partdedup.trans hdedup
      have hincreasing' := (hincreasing.take ht.top).releases hreleases
      obtain ⟨dropped', row', hu⟩ := hready.siftDownDedupTop h hpos' hdedup' hincreasing'
      have hadvance := @advance_take_found _ icmp _ ht.pos hmore
      rw [siftTop, hdedup', if_pos rfl] at hadvance
      generalize (t.take.refill 0).1.siftDownDedupTop icmp = u at hu hadvance
      have hall : t.take.Releases dropped' u := hreleases.trans hu.releases
      obtain ⟨m, released, hdistinct, hdelivers⟩ := ih u.load (hu.load.trans_lt hload) _ u dropped' row'
        rfl hu (hincreasing'.releases hu.releases) (hu.releases.partdedup.trans hdedup')
      exact ⟨(u.mergeheap 0, row') :: m, dropped' ++ released,
        hu.distinct h hall (hincreasing'.releases hu.releases) hdistinct,
        delivers_cons hadvance hu.top (hu.ordered.isMergeHeap_take hu.pos hu.top) hall.released
          hdelivers⟩

/-! ### From the constructor on -/

/-- The calls of `next` return the rows of `m` and then null pointers, the rows of `released` are
released up to the first null pointer, and after each call the heap is in order. -/
structure Merges (icmp : R → R → ℤ) (x : CRowStreamMerger R) (m released : List (ℕ × R)) : Prop where
  rows : ∀ k, (x.calls icmp k).2 = (m.take k).map some ++ List.replicate (k - m.length) none
  heap : ∀ k, (x.calls icmp k).1.IsMergeHeap icmp (x.calls icmp k).2.getLast?.join
  released : ∀ k, m.length < k → (x.calls icmp k).1.released = released

/-- The merge has all rows, sorted, and equal rows in the order of the streams. -/
structure MergesAll (icmp : R → R → ℤ) (numstreams : ℕ) (rows : ℕ → List R) (m : List (ℕ × R)) :
    Prop where
  stream : ∀ x ∈ m, x.1 < numstreams
  all : ∀ i < numstreams, ofStream i m = rows i
  sorted : m.Pairwise (RowLe icmp)

/-- The merge has each value once, from the lowest stream that has it; all other rows are released. -/
structure MergesDistinct (icmp : R → R → ℤ) (numstreams : ℕ) (rows : ℕ → List R)
    (m released : List (ℕ × R)) : Prop where
  stream : ∀ x ∈ m ++ released, x.1 < numstreams
  all : ∀ i < numstreams, (ofStream i m ++ ofStream i released).Perm (rows i)
  increasing : m.Pairwise (icmp ·.2 ·.2 < 0)
  present : ∀ i < numstreams, ∀ r ∈ rows i, ∃ y ∈ m, icmp y.2 r = 0
  lowest : ∀ y ∈ m, ∀ i < numstreams, ∀ r ∈ rows i, icmp y.2 r = 0 → y.1 ≤ i

/-- Of two rows of a strictly increasing list that equal a third, both are one. -/
theorem eq_of_equal (h : TotalPreorder icmp) (hpair : m.Pairwise (icmp ·.2 ·.2 < 0)) {y z : ℕ × R}
    (hy : y ∈ m) (hz : z ∈ m) {r : R} (hyr : icmp y.2 r = 0) (hzr : icmp z.2 r = 0) : y = z := by
  have hyz : icmp y.2 z.2 = 0 := by
    refine le_antisymm (h.trans _ _ _ hyr.le (h.zero_comm.mp hzr).le) (h.nonneg_iff.mpr ?_)
    exact h.trans _ _ _ hzr.le (h.zero_comm.mp hyr).le
  by_contra hne
  have : Std.Symm fun a b : ℕ × R => a ≠ b → icmp a.2 b.2 ≠ 0 :=
    ⟨fun a b hab hba heq => hab hba.symm (h.zero_comm.mp heq)⟩
  have hdistinct : m.Pairwise fun a b => a ≠ b → icmp a.2 b.2 ≠ 0 :=
    hpair.imp fun hlt _ => hlt.ne
  exact hdistinct.forall_of_forall (fun a _ hself => absurd rfl hself) hy hz hne hyz

theorem Distinct.mergesDistinct (h : TotalPreorder icmp) (hs : s.Distinct icmp m released) :
    MergesDistinct icmp s.numstreams s.held m released := by
  have hcover : ∀ i < s.numstreams, ∀ r ∈ s.held i, ∃ y ∈ m, icmp y.2 r = 0 ∧ y.1 ≤ i := by
    intro i hi r hr
    rcases List.mem_append.mp ((hs.all i hi).mem_iff.mpr hr) with hr | hr
    · exact ⟨(i, r), mem_ofStream.mp hr, h.self r, le_rfl⟩
    · exact (hs.equal (i, r) (mem_ofStream.mp hr)).2
  refine ⟨fun x hx => ?_, hs.all, hs.increasing, fun i hi r hr => ?_, fun y hy i hi r hr hyr => ?_⟩
  · exact (List.mem_append.mp hx).elim (hs.stream x) fun hx => (hs.equal x hx).1
  · obtain ⟨y, hy, hyr, -⟩ := hcover i hi r hr
    exact ⟨y, hy, hyr⟩
  · obtain ⟨z, hz, hzr, hzi⟩ := hcover i hi r hr
    rw [eq_of_equal h hs.increasing hy hz hyr hzr]
    exact hzi

end CRowStreamMerger

end Merge

end HpccPlatform
