import HpccPlatform.Merge.Taking

/-!
# Merging all rows

Without `partdedup` each row of each stream is returned.  Rows that are equal come in the order of
their streams, and those of one stream in their own order.
-/

namespace HpccPlatform

namespace Merge

open ArrayHeap

namespace CRowStreamMerger

variable {R : Type*} {icmp : R → R → ℤ} {s t : CRowStreamMerger R} {row : R}

/-- The order of the rows that are returned. -/
def RowLe (icmp : R → R → ℤ) (a b : ℕ × R) : Prop :=
  icmp a.2 b.2 < 0 ∨ icmp a.2 b.2 = 0 ∧ a.1 ≤ b.1

/-- Each stream is sorted. -/
def Sorted (icmp : R → R → ℤ) (s : CRowStreamMerger R) : Prop :=
  ∀ i < s.numstreams, (s.held i).Pairwise (icmp · · ≤ 0)

/-- A sorted stream still is when rows have left it. -/
theorem Sorted.releases {taken : List (ℕ × R)} (h : s.Sorted icmp) (hreleases : s.Releases taken t) :
    t.Sorted icmp := by
  intro i hi
  rw [hreleases.numstreams] at hi
  have hheld := h i hi
  rw [hreleases.held i] at hheld
  exact (List.pairwise_append.mp hheld).2.1

theorem Sorted.take (h : s.Sorted icmp) (hrow : s.pending (s.mergeheap 0) = some row) :
    s.take.Sorted icmp := by
  intro i hi
  have hheld := h i hi
  rw [take_held hrow i] at hheld
  exact (List.pairwise_append.mp hheld).2.1

/-- The row at the top comes before all others. -/
theorem Ordered.rowLe (h : TotalPreorder icmp) (hs : s.Ordered icmp) (hsorted : s.Sorted icmp)
    (hpos : 0 < s.activeInputs) (hrow : s.pending (s.mergeheap 0) = some row) {i : ℕ}
    (hi : i < s.numstreams) {r : R} (hr : r ∈ s.take.held i) : RowLe icmp (s.mergeheap 0, row) (i, r) := by
  have hheld := hsorted i hi
  rw [take_held hrow i, ofStream_singleton] at hheld
  by_cases htop : s.mergeheap 0 = i
  · rw [if_pos htop] at hheld
    have hle := (List.pairwise_cons.mp hheld).1 r hr
    rcases hle.lt_or_eq with hlt | heq
    · exact Or.inl hlt
    · exact Or.inr ⟨heq, htop.le⟩
  · rw [if_neg htop, List.nil_append] at hheld
    -- the stream stands in the heap, and `r` behind its pending row
    have hrunning : i ∉ s.stopped := by
      intro hmem
      have hnil := (hs.sound.take hpos).exhausted i hmem
      rw [hnil] at hr
      cases hr
    obtain ⟨k, hk, hki⟩ := (hs.sound.active i).mpr ⟨hi, hrunning⟩
    obtain ⟨first, hfirst⟩ := hs.filled k hk
    rw [hki] at hfirst
    have hroot := hs.heap.root_le (decides_streamLe h s) hk
    rw [hki] at hroot
    have hfirstle : icmp first r ≤ 0 := by
      unfold held at hr hheld
      rw [take_pending_of_ne (Ne.symm htop), hfirst] at hr hheld
      rcases List.mem_cons.mp hr with rfl | hmem
      · exact (h.self r).le
      · exact (List.pairwise_cons.mp hheld).1 r hmem
    unfold StreamLe at hroot
    rw [hrow, hfirst] at hroot
    rcases hroot with hlt | ⟨heq, hle⟩
    · exact Or.inl (h.lt_of_lt_of_le hlt hfirstle)
    · rcases (h.trans row first r heq.le hfirstle).lt_or_eq with hlt | heq'
      · exact Or.inl hlt
      · exact Or.inr ⟨heq', hle⟩

/-- Without `partdedup` the item at the top sinks to its place. -/
theorem Ready.siftTop_plain (h : TotalPreorder icmp) (hs : s.Ready icmp) (hplain : s.partdedup = false)
    (hpos : 0 < s.activeInputs) :
    (s.siftTop icmp).Ordered icmp ∧ s.Releases [] (s.siftTop icmp) ∧
      (s.siftTop icmp).activeInputs = s.activeInputs ∧ (s.siftTop icmp).load = s.load := by
  have hsift : s.siftTop icmp = (s.siftDown icmp 0).1 := by
    rw [siftTop, hplain]
    rfl
  rw [hsift]
  have hrearranged := @siftDown_rearranged _ icmp s 0 hpos
  refine ⟨⟨hs.sound.rearranged hrearranged, hs.filled.rearranged hrearranged, ?_⟩,
    releases_of_heap ⟨_, rfl⟩, rfl, rfl⟩
  refine siftDown_heapOf h le_rfl hpos (fun hlt => absurd hlt (lt_irrefl 0)) fun i hi hin _ hne => ?_
  exact hs.heap i hi hin (Nat.one_le_iff_ne_zero.mpr hne)

/-- The rows that follow the one at the top. -/
theorem Ordered.plain_rest (h : TotalPreorder icmp) : ∀ (n : ℕ) (s : CRowStreamMerger R), s.load = n →
    s.Ordered icmp → s.Sorted icmp → s.partdedup = false → 0 < s.activeInputs →
    ∃ m : List (ℕ × R), (∀ x ∈ m, x.1 < s.numstreams) ∧
      (∀ i < s.numstreams, ofStream i m = s.take.held i) ∧ m.Pairwise (RowLe icmp) ∧
      s.take.Delivers icmp m [] := by
  intro n
  induction n using Nat.strong_induction_on with
  | _ n ih =>
    rintro s rfl hs hsorted hplain hpos
    obtain ⟨row, hrow⟩ := hs.filled 0 hpos
    obtain ⟨hreleases, hload, -, hfound, -⟩ := hs.refill_take hpos
    cases hmore : (s.take.refill 0).2 with
    | false =>
      -- the last stream is exhausted
      obtain ⟨hdelivers, hnil⟩ := hs.delivers_last hpos hmore
      exact ⟨[], fun x hx => absurd hx List.not_mem_nil, fun i hi => (hnil i hi).symm,
        List.Pairwise.nil, hdelivers⟩
    | true =>
      obtain ⟨hready, hpos'⟩ := hfound hmore
      have hplain' : (s.take.refill 0).1.partdedup = false := hreleases.partdedup.trans hplain
      obtain ⟨hordered, hreleases', hactive, hload'⟩ := hready.siftTop_plain h hplain' hpos'
      have hadvance := @advance_take_found _ icmp _ hpos hmore
      have hall := hreleases.trans hreleases'
      generalize (s.take.refill 0).1.siftTop icmp = u at hordered hactive hload' hadvance hall
      have hsorted' : u.Sorted icmp := (hsorted.take hrow).releases hall
      have hposu : 0 < u.activeInputs := hactive ▸ hpos'
      have hnum : u.numstreams = s.numstreams := hall.numstreams
      obtain ⟨m, hlt, hof, hpair, hdelivers⟩ := ih u.load (hload' ▸ hload) u rfl hordered hsorted'
        (hall.partdedup.trans hplain) hposu
      obtain ⟨urow, hurow⟩ := hordered.filled 0 hposu
      have htop : u.mergeheap 0 < u.numstreams :=
        ((hordered.sound.active _).mp ⟨0, hposu, rfl⟩).1
      have hreleased : u.released = s.take.released ++ [] := hall.released
      refine ⟨(u.mergeheap 0, urow) :: m, ?_, ?_, ?_, ?_⟩
      · intro x hx
        rcases List.mem_cons.mp hx with rfl | hx
        · exact hnum ▸ htop
        · exact hnum ▸ hlt x hx
      · intro i hi
        rw [show (u.mergeheap 0, urow) :: m = [(u.mergeheap 0, urow)] ++ m from rfl, ofStream_append,
          hof i (hnum.symm ▸ hi), ← take_held hurow i, hall.held i]
        rfl
      · refine List.pairwise_cons.mpr ⟨fun x hx => ?_, hpair⟩
        have hxlt := hlt x hx
        refine hordered.rowLe h hsorted' hposu hurow hxlt ?_
        rw [← hof x.1 hxlt]
        exact mem_ofStream.mpr hx
      · exact delivers_cons hadvance hurow (hordered.isMergeHeap_take hposu hurow) hreleased hdelivers

end CRowStreamMerger

end Merge

end HpccPlatform
