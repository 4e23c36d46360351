import HpccPlatform.Merge.Start

/-!
# The moves of the heap

Whatever the order of the rows, the passes of `siftDownDedupTop` keep the streams that are not
exhausted in the heap, each with a pending row, and release the rows that they drop.  With a total
preorder each pass that exchanges streams is followed by one that drops a row, so that the loops end.
-/

namespace HpccPlatform

namespace Merge

open ArrayHeap

namespace CRowStreamMerger

variable {R : Type*} {icmp : R → R → ℤ} {s t u : CRowStreamMerger R} {c k fuel : ℕ} {cmp : ℤ}

/-- What holds between two states of the loops of `siftDownDedupTop`. -/
structure Moved (s t : CRowStreamMerger R) : Prop where
  sound : t.Sound
  filled : t.Filled
  releases : ∃ taken, s.Releases taken t
  le : t.activeInputs ≤ s.activeInputs
  load : t.load ≤ s.load

theorem Moved.refl (hs : s.Sound) (hfilled : s.Filled) : s.Moved s :=
  ⟨hs, hfilled, ⟨[], .refl s⟩, le_rfl, le_rfl⟩

theorem Moved.trans (h : s.Moved t) (h' : t.Moved u) : s.Moved u := by
  obtain ⟨taken, hreleases⟩ := h.releases
  obtain ⟨taken', hreleases'⟩ := h'.releases
  exact ⟨h'.sound, h'.filled, ⟨_, hreleases.trans hreleases'⟩, h'.le.trans h.le, h'.load.trans h.load⟩

theorem Moved.partdedup (h : s.Moved t) : t.partdedup = s.partdedup := by
  obtain ⟨taken, hreleases⟩ := h.releases
  exact hreleases.partdedup

/-- Rearranging the heap. -/
theorem moved_of_rearranged (hs : s.Sound) (hfilled : s.Filled)
    (hheap : ∃ heap, t = { s with mergeheap := heap } ∧
      Rearranged s.activeInputs s.mergeheap heap) : s.Moved t := by
  have hsound := hs.rearranged hheap
  have hfilled' := hfilled.rearranged hheap
  obtain ⟨heap, rfl, -⟩ := hheap
  exact ⟨hsound, hfilled', ⟨[], releases_of_heap ⟨heap, rfl⟩⟩, le_rfl, le_rfl⟩

theorem siftDown_moved (hs : s.Sound) (hfilled : s.Filled) (hc : c < s.activeInputs) :
    s.Moved (s.siftDown icmp c).1 :=
  moved_of_rearranged hs hfilled (siftDown_rearranged hc)

/-- Exchanging the top with a child of it. -/
theorem exchangeTop_rearranged (hpos : 0 < s.activeInputs) (hc : c < s.activeInputs) :
    ∃ heap, s.exchangeTop c = { s with mergeheap := heap } ∧
      Rearranged s.activeInputs s.mergeheap heap :=
  ⟨_, rfl, .exchange s.mergeheap hpos hc⟩

theorem exchangeTop_moved (hs : s.Sound) (hfilled : s.Filled) (hc : c < s.activeInputs) :
    s.Moved ((s.exchangeTop c).siftDown icmp c).1 := by
  have hmoved := moved_of_rearranged hs hfilled (exchangeTop_rearranged (Nat.zero_lt_of_lt hc) hc)
  exact hmoved.trans (siftDown_moved hmoved.sound hmoved.filled hc)

/-- The two streams of equal rows, with the one of the lower number at the top. -/
theorem orderEqual_rearranged (hc : c < s.activeInputs) :
    ∃ heap, (if s.mergeheap c < s.mergeheap 0 then s.exchangeTop c else s) =
        { s with mergeheap := heap } ∧ Rearranged s.activeInputs s.mergeheap heap ∧
      ∀ k, k ≠ 0 → k ≠ c → heap k = s.mergeheap k := by
  by_cases hlt : s.mergeheap c < s.mergeheap 0
  · rw [if_pos hlt]
    exact ⟨exchange s.mergeheap 0 c, rfl, .exchange s.mergeheap (Nat.zero_lt_of_lt hc) hc,
      fun k hk0 hkc => exchange_of_ne _ hk0 hkc⟩
  · rw [if_neg hlt]
    exact ⟨s.mergeheap, rfl, .refl _ _, fun _ _ _ => rfl⟩

/-- A pass that drops a row. -/
structure Dropped (s : CRowStreamMerger R) (c : ℕ) (t : CRowStreamMerger R) (found : Bool) : Prop where
  moved : s.Moved t
  load : t.load < s.load
  lt_of_found : found = true → c < t.activeInputs
  eq_of_left : found = false → t.activeInputs = c

theorem dropEqual_dropped (hs : s.Sound) (hfilled : s.Filled) (hdedup : s.partdedup = true)
    (hc : c < s.activeInputs) : s.Dropped c (s.dropEqual icmp c).1 (s.dropEqual icmp c).2 := by
  obtain ⟨heap, horder, hrearranged, -⟩ := orderEqual_rearranged hc
  have hmoved := moved_of_rearranged hs hfilled ⟨heap, horder, hrearranged⟩
  rw [dropEqual, resift]
  rw [horder] at hmoved ⊢
  generalize hx : ({ s with mergeheap := heap } : CRowStreamMerger R) = x at hmoved
  have hcx : c < x.activeInputs := hx ▸ hc
  have hdedupx : x.partdedup = true := hx ▸ hdedup
  have hloadx : x.load = s.load := hx ▸ rfl
  have hrefill := refill_spec hmoved.sound hcx (Or.inl hdedupx)
  generalize x.refill c = r at hrefill
  obtain ⟨u, found⟩ := r
  dsimp only at hrefill
  have hmovedu : x.Moved u :=
    ⟨hrefill.sound, hrefill.filled fun k hk _ => hmoved.filled k hk, ⟨_, hrefill.releases⟩, hrefill.le,
      hrefill.load.le⟩
  cases found with
  | true =>
    have hcu := hrefill.lt_of_found rfl
    have hsift := @siftDown_moved _ icmp u c hmovedu.sound hmovedu.filled hcu
    refine ⟨(hmoved.trans hmovedu).trans hsift, hloadx ▸ hrefill.load, fun _ => hcu, ?_⟩
    exact fun hfalse => absurd hfalse.symm Bool.false_ne_true
  | false =>
    exact ⟨hmoved.trans hmovedu, hloadx ▸ hrefill.load, fun htrue => absurd htrue Bool.false_ne_true,
      hrefill.eq_of_left⟩

/-! ### The loops -/

/-- The first loop keeps the streams, and more than the places before `c`. -/
theorem first_moved (hs : s.Sound) (hfilled : s.Filled) (hdedup : s.partdedup = true)
    (hc : c < s.activeInputs) :
    s.Moved (siftDownDedupTop.first icmp fuel s c cmp) ∧
      c ≤ (siftDownDedupTop.first icmp fuel s c cmp).activeInputs := by
  induction fuel generalizing s cmp with
  | zero => exact ⟨.refl hs hfilled, hc.le⟩
  | succ fuel ih =>
    rw [siftDownDedupTop.first]
    by_cases hle : cmp ≤ 0
    · rw [if_pos hle]
      by_cases hzero : cmp = 0
      · rw [if_pos hzero]
        have hdropped := @dropEqual_dropped _ icmp _ _ hs hfilled hdedup hc
        generalize s.dropEqual icmp c = r at hdropped
        obtain ⟨t, found⟩ := r
        dsimp only at hdropped
        have hmoved := hdropped.moved
        cases found with
        | true =>
          obtain ⟨hrest, hle⟩ := @ih t (t.buffCompare icmp c 0) hmoved.sound hmoved.filled
            (hmoved.partdedup.trans hdedup) (hdropped.lt_of_found rfl)
          exact ⟨hmoved.trans hrest, hle⟩
        | false => exact ⟨hmoved, (hdropped.eq_of_left rfl).ge⟩
      · rw [if_neg hzero]
        have hmoved := @exchangeTop_moved _ icmp _ _ hs hfilled hc
        have hactive : ((s.exchangeTop c).siftDown icmp c).1.activeInputs = s.activeInputs := rfl
        generalize (s.exchangeTop c).siftDown icmp c = r at hmoved hactive
        obtain ⟨t, nochange⟩ := r
        dsimp only at hmoved hactive
        have hct : c < t.activeInputs := hactive ▸ hc
        cases nochange with
        | true => exact ⟨hmoved, hct.le⟩
        | false =>
          obtain ⟨hrest, hle⟩ := @ih t (t.buffCompare icmp c 0) hmoved.sound hmoved.filled
            (hmoved.partdedup.trans hdedup) hct
          exact ⟨hmoved.trans hrest, hle⟩
    · rw [if_neg hle]
      exact ⟨.refl hs hfilled, hc.le⟩

theorem second_moved (hs : s.Sound) (hfilled : s.Filled) (hdedup : s.partdedup = true)
    (hc : c < s.activeInputs) :
    s.Moved (siftDownDedupTop.second icmp fuel s c cmp) ∧
      c ≤ (siftDownDedupTop.second icmp fuel s c cmp).activeInputs := by
  induction fuel generalizing s cmp with
  | zero => exact ⟨.refl hs hfilled, hc.le⟩
  | succ fuel ih =>
    rw [siftDownDedupTop.second]
    by_cases hzero : cmp = 0
    · rw [if_pos hzero]
      have hdropped := @dropEqual_dropped _ icmp _ _ hs hfilled hdedup hc
      generalize s.dropEqual icmp c = r at hdropped
      obtain ⟨t, found⟩ := r
      dsimp only at hdropped
      have hmoved := hdropped.moved
      cases found with
      | true =>
        obtain ⟨hrest, hle⟩ := @ih t (t.buffCompare icmp c 0) hmoved.sound hmoved.filled
          (hmoved.partdedup.trans hdedup) (hdropped.lt_of_found rfl)
        exact ⟨hmoved.trans hrest, hle⟩
      | false => exact ⟨hmoved, (hdropped.eq_of_left rfl).ge⟩
    · rw [if_neg hzero]
      exact ⟨.refl hs hfilled, hc.le⟩

/-- The item at the top sinks to its place, in either mode. -/
theorem siftTop_moved (hs : s.Sound) (hfilled : s.Filled) (hpos : 0 < s.activeInputs) :
    s.Moved (s.siftTop icmp) ∧ 0 < (s.siftTop icmp).activeInputs := by
  unfold siftTop
  cases hdedup : s.partdedup with
  | false => exact ⟨siftDown_moved hs hfilled hpos, hpos⟩
  | true =>
    rw [if_pos rfl, siftDownDedupTop]
    by_cases hone : s.activeInputs < 2
    · rw [if_pos hone]
      exact ⟨.refl hs hfilled, hpos⟩
    rw [if_neg hone]
    dsimp only
    generalize hchildcmp : (if 3 ≤ s.activeInputs then s.buffCompare icmp 2 1 else 1) = childcmp
    obtain ⟨c, hc, hc0, hc3, hclt⟩ : ∃ c, (if childcmp < 0 then 2 else 1) = c ∧ 0 < c ∧
        c < 3 ∧ c < s.activeInputs := by
      by_cases hthree : 3 ≤ s.activeInputs
      · refine ⟨_, rfl, ?_⟩
        by_cases hneg : childcmp < 0
        · rw [if_pos hneg]
          exact ⟨Nat.two_pos, by decide, hthree⟩
        · rw [if_neg hneg]
          exact ⟨Nat.one_pos, by decide, Nat.lt_of_succ_lt hthree⟩
      · rw [if_neg hthree] at hchildcmp
        rw [← hchildcmp]
        exact ⟨1, if_neg (by decide), Nat.one_pos, by decide, not_lt.mp hone⟩
    rw [hc]
    by_cases hgreater : 0 < s.buffCompare icmp c 0
    · rw [if_pos hgreater]
      exact ⟨.refl hs hfilled, hpos⟩
    rw [if_neg hgreater]
    obtain ⟨hfirst, hle⟩ := @first_moved _ icmp s c (2 * s.load + 2) (s.buffCompare icmp c 0) hs
      hfilled hdedup hclt
    generalize siftDownDedupTop.first icmp (2 * s.load + 2) s c (s.buffCompare icmp c 0) = t at hfirst hle
    by_cases hdone : t.activeInputs ≤ 3 - c
    · rw [if_pos hdone]
      exact ⟨hfirst, hc0.trans_le hle⟩
    · rw [if_neg hdone]
      obtain ⟨hsecond, hle'⟩ := @second_moved _ icmp t (3 - c) (t.load + 1) childcmp hfirst.sound
        hfirst.filled (hfirst.partdedup.trans hdedup) (not_le.mp hdone)
      exact ⟨hfirst.trans hsecond, (Nat.sub_pos_of_lt hc3).trans_le hle'⟩

/-! ### The loops end -/

theorem IsChild.parent (hc : c = 1 ∨ c = 2) : ArrayHeap.parent c = 0 :=
  (parent_eq_iff (by omega)).mpr hc

/-- A stream sinks from `c` when only the top and `c` have changed. -/
theorem siftDown_ready (h : TotalPreorder icmp) (hc : c = 1 ∨ c = 2) (hlt : c < t.activeInputs)
    (hle : t.activeInputs ≤ s.activeInputs) (hs : s.HeapOf icmp 1)
    (hframe : ∀ k < t.activeInputs, k ≠ 0 → k ≠ c → t.mergeheap k = s.mergeheap k ∧
      t.pending (s.mergeheap k) = s.pending (s.mergeheap k)) :
    (t.siftDown icmp c).1.HeapOf icmp 1 := by
  have hparentc : parent c = 0 := IsChild.parent hc
  have hc0 : 0 < c := by omega
  refine siftDown_heapOf h hc0 hlt (fun _ => hparentc ▸ Nat.one_pos) fun i hi hin hge hne => ?_
  have hic : i ≠ c := by
    rintro rfl
    rw [hparentc] at hge
    exact absurd hge (by decide)
  have hparent0 : parent i ≠ 0 := (Nat.lt_of_lt_of_le Nat.one_pos hge).ne'
  obtain ⟨hi₁, hi₂⟩ := hframe i hin hi.ne' hic
  obtain ⟨hp₁, hp₂⟩ := hframe (parent i) ((parent_lt hi).trans hin) hparent0 hne
  rw [hi₁, hp₁]
  exact (StreamLe.congr hp₂ hi₂).mpr (hs i hi (hin.trans_le hle) hge)

theorem exchangeTop_ready (h : TotalPreorder icmp) (hs : s.HeapOf icmp 1) (hc : c = 1 ∨ c = 2)
    (hlt : c < s.activeInputs) : ((s.exchangeTop c).siftDown icmp c).1.HeapOf icmp 1 :=
  @siftDown_ready _ icmp s (s.exchangeTop c) c h hc hlt le_rfl hs
    fun _ _ hk0 hkc => ⟨exchange_of_ne _ hk0 hkc, rfl⟩

theorem dropEqual_ready (h : TotalPreorder icmp) (hs : s.Sound) (hfilled : s.Filled)
    (hheap : s.HeapOf icmp 1) (hdedup : s.partdedup = true) (hc : c = 1 ∨ c = 2)
    (hlt : c < s.activeInputs) : (s.dropEqual icmp c).1.HeapOf icmp 1 := by
  obtain ⟨heap, horder, hrearranged, hsame⟩ := orderEqual_rearranged hlt
  have hmoved := moved_of_rearranged hs hfilled ⟨heap, horder, hrearranged⟩
  rw [dropEqual, resift]
  rw [horder] at hmoved ⊢
  have hrefill := @refill_spec _ { s with mergeheap := heap } c hmoved.sound hlt (Or.inl hdedup)
  generalize CRowStreamMerger.refill { s with mergeheap := heap } c = r at hrefill
  obtain ⟨u, found⟩ := r
  dsimp only at hrefill
  cases found with
  | true =>
    refine @siftDown_ready _ icmp s u c h hc (hrefill.lt_of_found rfl) hrefill.le hheap
      fun k hk hk0 hkc => ?_
    have hne : heap k ≠ heap c := fun heq => hkc (hmoved.sound.injOn (hk.trans_le hrefill.le) hlt heq)
    have hframe : u.mergeheap k = heap k := hrefill.frame k hk hkc
    have hpending : u.pending (heap k) = s.pending (heap k) := hrefill.pending_of_ne _ hne
    rw [hsame k hk0 hkc] at hframe hpending
    exact ⟨hframe, hpending⟩
  | false =>
    -- only one place is left behind the top
    intro i hi hin hge
    have hactive : u.activeInputs = c := hrefill.eq_of_left rfl
    have hparent := parent_lt hi
    dsimp only at hin
    omega

/-- After the top and a smaller child have been exchanged, the child is not less than the top. -/
theorem exchangeTop_buffCompare (h : TotalPreorder icmp) (hs : s.HeapOf icmp 1) (hc : c = 1 ∨ c = 2)
    (hchanged : ((s.exchangeTop c).siftDown icmp c).2 = false) :
    0 ≤ ((s.exchangeTop c).siftDown icmp c).1.buffCompare icmp c 0 := by
  obtain ⟨d, hd, hdn, hparent, hplace⟩ := ArrayHeap.siftDown_changed hchanged
  have hc0 : 0 < c := by omega
  have htop : ((s.exchangeTop c).siftDown icmp c).1.mergeheap 0 = s.mergeheap c :=
    (siftDown_mergeheap hc0.ne (Nat.succ_pos _)).trans (exchange_left _ _ _)
  have hd0 : d ≠ c := fun heq => absurd (parent_lt hd) (by rw [hparent, heq]; exact lt_irrefl c)
  have hbelow : ((s.exchangeTop c).siftDown icmp c).1.mergeheap c = s.mergeheap d :=
    hplace.trans (exchange_of_ne _ hd.ne' hd0)
  -- the new row at `c` stood below the one that is now at the top
  have hedge := hs d hd hdn (hparent.symm ▸ hc0)
  rw [hparent] at hedge
  rw [buffCompare, htop, hbelow]
  exact (docompare_totalPreorder h).nonneg_iff.mpr hedge.le

/-- With a total preorder the first loop ends: more passes do not change its result. -/
theorem first_fuel (h : TotalPreorder icmp) (hs : s.Sound) (hfilled : s.Filled)
    (hheap : s.HeapOf icmp 1) (hdedup : s.partdedup = true) (hc : c = 1 ∨ c = 2)
    (hlt : c < s.activeInputs)
    (hfuel : 2 * s.load + (if s.buffCompare icmp c 0 < 0 then 1 else 0) < fuel) :
    siftDownDedupTop.first icmp (fuel + 1) s c (s.buffCompare icmp c 0) =
      siftDownDedupTop.first icmp fuel s c (s.buffCompare icmp c 0) := by
  induction fuel generalizing s with
  | zero => exact absurd hfuel (Nat.not_lt_zero _)
  | succ fuel ih =>
    rw [siftDownDedupTop.first, siftDownDedupTop.first]
    by_cases hle : s.buffCompare icmp c 0 ≤ 0
    · rw [if_pos hle, if_pos hle]
      by_cases hzero : s.buffCompare icmp c 0 = 0
      · rw [if_pos hzero, if_pos hzero]
        rw [if_neg (not_lt.mpr hzero.ge)] at hfuel
        have hdropped := @dropEqual_dropped _ icmp _ _ hs hfilled hdedup hlt
        have hready := dropEqual_ready h hs hfilled hheap hdedup hc hlt
        generalize s.dropEqual icmp c = r at hdropped hready
        obtain ⟨t, found⟩ := r
        dsimp only at hdropped hready
        have hmoved := hdropped.moved
        cases found with
        | true =>
          refine ih hmoved.sound hmoved.filled hready (hmoved.partdedup.trans hdedup)
            (hdropped.lt_of_found rfl) ?_
          have hload := hdropped.load
          split_ifs <;> omega
        | false => rfl
      · rw [if_neg hzero, if_neg hzero]
        rw [if_pos (lt_of_le_of_ne hle hzero)] at hfuel
        have hmoved := @exchangeTop_moved _ icmp _ _ hs hfilled hlt
        have hready := exchangeTop_ready h hheap hc hlt
        have hnonneg := @exchangeTop_buffCompare _ icmp _ _ h hheap hc
        have hactive : ((s.exchangeTop c).siftDown icmp c).1.activeInputs = s.activeInputs := rfl
        generalize (s.exchangeTop c).siftDown icmp c = r at hmoved hready hnonneg hactive
        obtain ⟨t, nochange⟩ := r
        dsimp only at hmoved hready hnonneg hactive
        cases nochange with
        | true => rfl
        | false =>
          refine ih hmoved.sound hmoved.filled hready (hmoved.partdedup.trans hdedup)
            (hactive ▸ hlt) ?_
          have hload := hmoved.load
          rw [if_neg (not_lt.mpr (hnonneg rfl))]
          omega
    · rw [if_neg hle, if_neg hle]

theorem second_fuel (hs : s.Sound) (hfilled : s.Filled) (hdedup : s.partdedup = true)
    (hlt : c < s.activeInputs) (hfuel : s.load < fuel) :
    siftDownDedupTop.second icmp (fuel + 1) s c cmp = siftDownDedupTop.second icmp fuel s c cmp := by
  induction fuel generalizing s cmp with
  | zero => exact absurd hfuel (Nat.not_lt_zero _)
  | succ fuel ih =>
    rw [siftDownDedupTop.second, siftDownDedupTop.second]
    by_cases hzero : cmp = 0
    · rw [if_pos hzero, if_pos hzero]
      have hdropped := @dropEqual_dropped _ icmp _ _ hs hfilled hdedup hlt
      generalize s.dropEqual icmp c = r at hdropped
      obtain ⟨t, found⟩ := r
      dsimp only at hdropped
      have hmoved := hdropped.moved
      cases found with
      | true =>
        exact ih hmoved.sound hmoved.filled (hmoved.partdedup.trans hdedup) (hdropped.lt_of_found rfl)
          (hdropped.load.trans_le (Nat.le_of_lt_succ hfuel))
      | false => rfl
    · rw [if_neg hzero, if_neg hzero]

end CRowStreamMerger

end Merge

end HpccPlatform
