import HpccPlatform.Merge.DedupMerge

/-!
# The merged rows

The calls of `next` after the constructor: the whole merge without `partdedup`, and the distinct rows
with it.
-/

namespace HpccPlatform

namespace Merge

open ArrayHeap

namespace CRowStreamMerger

variable {R : Type*} {icmp : R → R → ℤ} {s x : CRowStreamMerger R} {row : R} {numstreams : ℕ}
  {rows : ℕ → List R} {taken dropped m released : List (ℕ × R)}

/-- The merger at the end of `init`. -/
def restart (s : CRowStreamMerger R) : CRowStreamMerger R := { s with recno := 0 }

theorem Ordered.restart (h : s.Ordered icmp) : s.restart.Ordered icmp :=
  ⟨⟨h.sound.injOn, h.sound.active, h.sound.exhausted, h.sound.failed, h.sound.once⟩,
    h.filled, h.heap⟩

theorem DedupedTop.restart {t : CRowStreamMerger R} (h : DedupedTop icmp s dropped t row) :
    DedupedTop icmp s.restart dropped t.restart row where
  sound := h.ordered.restart.sound
  filled := h.filled
  heap := h.heap
  pos := h.pos
  load := h.load
  releases := ⟨h.releases.released, h.releases.held, h.releases.numstreams, h.releases.partdedup, rfl⟩
  top := h.top
  less := h.less
  equal := h.equal

theorem advance_restart (hpos : 0 < s.activeInputs) :
    s.restart.advance icmp = ({ s.restart with recno := s.restart.recno + 1 }, true) := by
  have hactive : s.restart.activeInputs ≠ 0 := hpos.ne'
  rw [advance, if_neg hactive, if_neg (not_not.mpr (show s.restart.recno = 0 from rfl))]

theorem Delivers.merges (h : x.Delivers icmp m released) (hx : x.IsMergeHeap icmp none)
    (hreleased : x.released = taken) : x.Merges icmp m (taken ++ released) := by
  refine ⟨h.rows, fun k => ?_, fun k hk => ?_⟩
  · rcases Nat.eq_zero_or_pos k with rfl | hk
    · exact hx
    · exact h.heap k hk
  · rw [h.released k hk, hreleased]

/-- A merger of which all streams are exhausted. -/
theorem Ready.merges_empty (h : s.Ready icmp) (hempty : s.activeInputs = 0)
    (hreleased : s.released = []) :
    s.restart.Merges icmp [] [] ∧ ∀ i < s.numstreams, s.held i = [] := by
  have hordered : s.Ordered icmp :=
    ⟨h.sound, h.filled, fun i _ hi => absurd hi (hempty ▸ Nat.not_lt_zero i)⟩
  have hadvance : s.restart.advance icmp = (s.restart, false) := by
    rw [advance, if_pos (show s.restart.activeInputs = 0 from hempty)]
  refine ⟨(delivers_nil hadvance hempty hordered.restart.sound rfl).merges
    hordered.restart.isMergeHeap hreleased, fun i hi => h.sound.exhausted i ?_⟩
  by_contra hrunning
  obtain ⟨j, hj, -⟩ := (h.sound.active i).mpr ⟨hi, hrunning⟩
  rw [hempty] at hj
  exact Nat.not_lt_zero j hj

/-- Without `partdedup` the calls return all rows. -/
theorem construct_merges_all (h : TotalPreorder icmp)
    (hsorted : ∀ i < numstreams, (rows i).Pairwise (icmp · · ≤ 0)) :
    ∃ m, MergesAll icmp numstreams rows m ∧ (construct icmp numstreams false rows).Merges icmp m [] := by
  obtain ⟨s, hs, hnum, hplain, hheld, hreleased, hconstruct⟩ := construct_ready h numstreams false rows
  subst hnum
  rw [hconstruct]
  have hsorteds : s.Sorted icmp := by
    intro i hi
    rw [hheld i]
    exact hsorted i hi
  by_cases hpos : 0 < s.activeInputs
  · rw [if_pos hpos]
    obtain ⟨hordered, hreleases, hactive, -⟩ := hs.siftTop_plain h hplain hpos
    generalize s.siftTop icmp = t at hordered hreleases hactive
    have hpost : 0 < t.activeInputs := hactive.symm ▸ hpos
    have hsortedt : t.Sorted icmp := hsorteds.releases hreleases
    obtain ⟨m, hlt, hof, hpair, hdelivers⟩ := hordered.restart.plain_rest h _ _ rfl hsortedt
      (hreleases.partdedup.trans hplain) hpost
    obtain ⟨row, hrow⟩ := hordered.restart.filled 0 hpost
    have hnum : t.restart.numstreams = s.numstreams := hreleases.numstreams
    have hreleasedt : t.restart.released = [] := hreleases.released.trans (by rw [hreleased]; rfl)
    refine ⟨(t.restart.mergeheap 0, row) :: m, ⟨?_, ?_, ?_⟩, ?_⟩
    · intro y hy
      rcases List.mem_cons.mp hy with rfl | hy
      · exact hnum ▸ ((hordered.restart.sound.active _).mp ⟨0, hpost, rfl⟩).1
      · exact hnum ▸ hlt y hy
    · intro i hi
      rw [← hheld i, hreleases.held i, ← List.singleton_append, ofStream_append,
        hof i (hnum.symm ▸ hi), ← take_held hrow i]
      rfl
    · refine List.pairwise_cons.mpr ⟨fun y hy => ?_, hpair⟩
      refine hordered.restart.rowLe h hsortedt hpost hrow (hlt y hy) ?_
      rw [← hof y.1 (hlt y hy)]
      exact mem_ofStream.mpr hy
    · refine (delivers_cons (advance_restart hpost) hrow ?_ (List.append_nil _).symm hdelivers).merges
        hordered.restart.isMergeHeap hreleasedt
      exact hordered.restart.isMergeHeap_take hpost hrow
  · rw [if_neg hpos]
    have hempty := Nat.eq_zero_of_not_pos hpos
    obtain ⟨hmerges, hnil⟩ := hs.merges_empty hempty hreleased
    refine ⟨[], ⟨fun y hy => absurd hy List.not_mem_nil, fun i hi => ?_, List.Pairwise.nil⟩, hmerges⟩
    rw [← hheld i, hnil i hi]
    rfl

/-- With `partdedup` the calls return each value once. -/
theorem construct_merges_distinct (h : TotalPreorder icmp)
    (hsorted : ∀ i < numstreams, (rows i).Pairwise (icmp · · < 0)) :
    ∃ m released, MergesDistinct icmp numstreams rows m released ∧
      (construct icmp numstreams true rows).Merges icmp m released := by
  obtain ⟨s, hs, hnum, hdedup, hheld, hreleased, hconstruct⟩ := construct_ready h numstreams true rows
  subst hnum
  have hrows : s.held = rows := funext hheld
  subst hrows
  rw [hconstruct]
  by_cases hpos : 0 < s.activeInputs
  · rw [if_pos hpos, siftTop, hdedup, if_pos rfl]
    obtain ⟨dropped, row, ht⟩ := hs.siftDownDedupTop h hpos hdedup hsorted
    generalize s.siftDownDedupTop icmp = t at ht
    have hreleases := ht.releases
    have hincreasing : t.Increasing icmp := Increasing.releases hsorted hreleases
    have hordered := ht.ordered.restart
    obtain ⟨m, released, hdistinct, hdelivers⟩ := ht.restart.rest h _ _ _ dropped row rfl
      hincreasing (hreleases.partdedup.trans hdedup)
    have hreleasedt : t.restart.released = dropped := by
      rw [← List.nil_append dropped, ← hreleased]
      exact hreleases.released
    have hrest : t.take.Distinct icmp m released :=
      ⟨hdistinct.stream, hdistinct.all, hdistinct.increasing, hdistinct.equal⟩
    have hdelivered := delivers_cons (advance_restart ht.pos) ht.top
      (hordered.isMergeHeap_take ht.pos ht.top) (List.append_nil _).symm hdelivers
    exact ⟨(t.mergeheap 0, row) :: m, dropped ++ released,
      (ht.distinct h hreleases hincreasing hrest).mergesDistinct h,
      hdelivered.merges hordered.isMergeHeap hreleasedt⟩
  · rw [if_neg hpos]
    obtain ⟨hmerges, hnil⟩ := hs.merges_empty (Nat.eq_zero_of_not_pos hpos) hreleased
    refine ⟨[], [], Distinct.mergesDistinct h ⟨fun y hy => absurd hy List.not_mem_nil, fun i hi => ?_,
      List.Pairwise.nil, fun y hy => absurd hy List.not_mem_nil⟩, hmerges⟩
    rw [hnil i hi]
    exact List.Perm.nil

/-- The merger merges: all rows of sorted streams in order, or with `partdedup` the first row of each
value of strictly increasing streams, the others being released. -/
theorem construct_merges (h : TotalPreorder icmp) (numstreams : ℕ) (rows : ℕ → List R) :
    ((∀ i < numstreams, (rows i).Pairwise (icmp · · ≤ 0)) →
      ∃ m, MergesAll icmp numstreams rows m ∧
        (construct icmp numstreams false rows).Merges icmp m []) ∧
    ((∀ i < numstreams, (rows i).Pairwise (icmp · · < 0)) →
      ∃ m released, MergesDistinct icmp numstreams rows m released ∧
        (construct icmp numstreams true rows).Merges icmp m released) :=
  ⟨construct_merges_all h, construct_merges_distinct h⟩

/-- The merger of two streams that share a row. -/
theorem construct_merges_shared :
    (∃ m, MergesAll (fun a b : ℤ => a - b) 2 (fun i => [(i : ℤ), 1 + i]) m ∧
      (construct (fun a b : ℤ => a - b) 2 false fun i => [(i : ℤ), 1 + i]).Merges (fun a b => a - b)
        m []) ∧
    ∃ m released, MergesDistinct (fun a b : ℤ => a - b) 2 (fun i => [(i : ℤ), 1 + i]) m released ∧
      (construct (fun a b : ℤ => a - b) 2 true fun i => [(i : ℤ), 1 + i]).Merges (fun a b => a - b)
        m released := by
  have hpreorder : TotalPreorder fun a b : ℤ => a - b := ⟨fun a b => by omega, fun a b c => by omega⟩
  obtain ⟨hall, hdistinct⟩ := construct_merges hpreorder 2 fun i => [(i : ℤ), 1 + i]
  refine ⟨hall fun i _ => ?_, hdistinct fun i _ => ?_⟩
  · simp
  · simp

end CRowStreamMerger

end Merge

end HpccPlatform
