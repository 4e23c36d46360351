import HpccPlatform.Merge.HeapMoves

/-!
# Dropping equal rows

`siftDownDedupTop` puts the item at the top in order and drops the rows that equal it, of all streams
but the one with the lowest number.  It goes down the branch of the smaller child first, and looks at
the other branch only if its first row equals the one of that child.
-/

namespace HpccPlatform

namespace Merge

open ArrayHeap

namespace CRowStreamMerger

variable {R : Type*} {icmp : R → R → ℤ} {s t u : CRowStreamMerger R} {v row : R} {c k fuel : ℕ}
  {dropped : List (ℕ × R)}

/-- Each stream is strictly increasing. -/
def Increasing (icmp : R → R → ℤ) (s : CRowStreamMerger R) : Prop :=
  ∀ i < s.numstreams, (s.held i).Pairwise (icmp · · < 0)

theorem Increasing.releases {taken : List (ℕ × R)} (h : s.Increasing icmp)
    (hreleases : s.Releases taken t) : t.Increasing icmp := by
  intro i hi
  rw [hreleases.numstreams] at hi
  have hheld := h i hi
  rw [hreleases.held i] at hheld
  exact (List.pairwise_append.mp hheld).2.1

/-- The rows that equal the one at the top have been dropped in part; `v` is one of them. -/
structure Dropping (icmp : R → R → ℤ) (v : R) (s : CRowStreamMerger R) (dropped : List (ℕ × R))
    (t : CRowStreamMerger R) : Prop where
  ready : t.Ready icmp
  pos : 0 < t.activeInputs
  dedup : t.partdedup = true
  increasing : t.Increasing icmp
  top : ∃ row, t.pending (t.mergeheap 0) = some row ∧ icmp v row = 0
  ge : ∀ i < t.numstreams, ∀ row, t.pending i = some row → icmp v row ≤ 0
  releases : s.Releases dropped t
  equal : ∀ x ∈ dropped, x.1 < t.numstreams ∧ icmp v x.2 = 0 ∧ t.mergeheap 0 ≤ x.1

/-- The row at a place is greater than those that are dropped. -/
def Above (icmp : R → R → ℤ) (v : R) (t : CRowStreamMerger R) (k : ℕ) : Prop :=
  ∃ row, t.pending (t.mergeheap k) = some row ∧ icmp v row < 0

theorem Sound.lt (h : s.Sound) (hk : k < s.activeInputs) : s.mergeheap k < s.numstreams :=
  ((h.active _).mp ⟨k, hk, rfl⟩).1

/-- A stream with a pending row stands in the heap. -/
theorem Sound.exists_place (h : s.Sound) {i : ℕ} (hi : i < s.numstreams)
    (hrow : s.pending i = some row) : ∃ k < s.activeInputs, s.mergeheap k = i := by
  refine (h.active i).mpr ⟨hi, fun hmem => ?_⟩
  have hnil := h.exhausted i hmem
  rw [held, hrow] at hnil
  cases hnil

/-- The row at the child compared with the one at the top. -/
theorem Dropping.buffCompare_eq (h : TotalPreorder icmp) (hs : Dropping icmp v s dropped t)
    (hk : k < t.activeInputs) :
    0 ≤ t.buffCompare icmp k 0 ∧ (0 < t.buffCompare icmp k 0 → Above icmp v t k) ∧
      (t.buffCompare icmp k 0 = 0 →
        ∃ row, t.pending (t.mergeheap k) = some row ∧ icmp v row = 0) := by
  obtain ⟨top, htop, hv⟩ := hs.top
  obtain ⟨row, hrow⟩ := hs.ready.filled k hk
  have hge := hs.ge _ (hs.ready.sound.lt hk) row hrow
  have hcmp : t.buffCompare icmp k 0 = icmp row top := by
    rw [buffCompare, hrow, htop]
    rfl
  have htoprow : icmp top row ≤ 0 := h.trans top v row (h.zero_comm.mp hv).le hge
  rw [hcmp]
  refine ⟨h.nonneg_iff.mpr htoprow, fun hpos => ⟨row, hrow, ?_⟩, fun hzero => ⟨row, hrow, ?_⟩⟩
  · exact h.lt_of_le_of_lt hv.le ((h.swap _ _).mp hpos)
  · refine le_antisymm hge (h.nonneg_iff.mpr ?_)
    exact h.trans row top v hzero.le (h.zero_comm.mp hv).le

/-- The two equal rows, with the stream of the lower number at the top. -/
theorem exchanged_spec (hpos : 0 < s.activeInputs) (hc : c < s.activeInputs) :
    ∃ heap, (if s.mergeheap c < s.mergeheap 0 then s.exchangeTop c else s) =
        { s with mergeheap := heap } ∧ Rearranged s.activeInputs s.mergeheap heap ∧
      heap 0 ≤ heap c ∧ heap 0 ≤ s.mergeheap 0 ∧
      (heap 0 = s.mergeheap 0 ∧ heap c = s.mergeheap c ∨
        heap 0 = s.mergeheap c ∧ heap c = s.mergeheap 0) ∧
      ∀ k, k ≠ 0 → k ≠ c → heap k = s.mergeheap k := by
  by_cases hlt : s.mergeheap c < s.mergeheap 0
  · rw [if_pos hlt]
    refine ⟨exchange s.mergeheap 0 c, rfl, .exchange s.mergeheap hpos hc, ?_, ?_, ?_, ?_⟩
    · rw [exchange_left, exchange_right]
      exact hlt.le
    · rw [exchange_left]
      exact hlt.le
    · exact Or.inr ⟨exchange_left _ _ _, exchange_right _ _ _⟩
    · exact fun k hk0 hkc => exchange_of_ne _ hk0 hkc
  · rw [if_neg hlt]
    exact ⟨s.mergeheap, rfl, .refl _ _, not_lt.mp hlt, le_rfl, Or.inl ⟨rfl, rfl⟩, fun _ _ _ => rfl⟩

/-- One of two equal rows has been dropped, and its place filled with another stream. -/
theorem Dropping.refill (h : TotalPreorder icmp) (hs : Dropping icmp v s dropped t)
    (hc0 : 0 < c) (hlt : c < t.activeInputs) {heap : ℕ → ℕ}
    (hrearranged : Rearranged t.activeInputs t.mergeheap heap) (hle : heap 0 ≤ heap c)
    (hle' : heap 0 ≤ t.mergeheap 0) {rtop rchild : R} (htop : t.pending (heap 0) = some rtop)
    (hvtop : icmp v rtop = 0) (hchild : t.pending (heap c) = some rchild) (hvchild : icmp v rchild = 0)
    (hrefill : Refilled { t with mergeheap := heap } c u true ∨
      Refilled { t with mergeheap := heap } c u false) :
    u.Increasing icmp ∧ u.partdedup = true ∧
      (∃ row, u.pending (heap 0) = some row ∧ icmp v row = 0) ∧
      (∀ i < u.numstreams, ∀ row, u.pending i = some row → icmp v row ≤ 0) ∧
      s.Releases (dropped ++ [(heap c, rchild)]) u ∧
      ∀ x ∈ dropped ++ [(heap c, rchild)], x.1 < u.numstreams ∧ icmp v x.2 = 0 ∧ heap 0 ≤ x.1 := by
  have hsound : CRowStreamMerger.Sound { t with mergeheap := heap } :=
    hs.ready.sound.rearranged ⟨heap, rfl, hrearranged⟩
  have hne : heap 0 ≠ heap c := fun heq => hc0.ne (hsound.injOn hs.pos hlt heq)
  have hjlt : heap c < t.numstreams := hsound.lt hlt
  have hdropped : CRowStreamMerger.droppedRow { t with mergeheap := heap } (heap c) =
      [(heap c, rchild)] := by
    show (t.pending (heap c)).toList.map (heap c, ·) = _
    rw [hchild]
    rfl
  have hreleases : CRowStreamMerger.Releases { t with mergeheap := heap } [(heap c, rchild)] u := by
    rw [← hdropped]
    exact hrefill.elim (fun hr => hr.releases) fun hr => hr.releases
  have hpendingNe : ∀ i ≠ heap c, u.pending i = t.pending i :=
    hrefill.elim (fun hr => hr.pending_of_ne) fun hr => hr.pending_of_ne
  have hpending : u.pending (heap c) = (t.rows (heap c)).head? :=
    hrefill.elim (fun hr => hr.pending) fun hr => hr.pending
  have hall : t.Releases [(heap c, rchild)] u :=
    ⟨hreleases.released, hreleases.held, hreleases.numstreams, hreleases.partdedup, hreleases.recno⟩
  refine ⟨hs.increasing.releases hall, hall.partdedup.trans hs.dedup,
    ⟨rtop, (hpendingNe _ hne).trans htop, hvtop⟩, ?_, hs.releases.trans hall, ?_⟩
  · intro i hi row hrow
    rw [hall.numstreams] at hi
    by_cases hij : i = heap c
    · -- the next row of the stream is greater
      rw [hij, hpending] at hrow
      have hpair := hs.increasing (heap c) hjlt
      unfold held at hpair
      rw [hchild] at hpair
      have hmem : row ∈ t.rows (heap c) := List.mem_of_mem_head? hrow
      exact (h.lt_of_le_of_lt hvchild.le ((List.pairwise_cons.mp hpair).1 row hmem)).le
    · rw [hpendingNe i hij] at hrow
      exact hs.ge i hi row hrow
  · intro x hx
    rw [hall.numstreams]
    rcases List.mem_append.mp hx with hx | hx
    · obtain ⟨hxlt, hxv, hxle⟩ := hs.equal x hx
      exact ⟨hxlt, hxv, hle'.trans hxle⟩
    · rw [List.mem_singleton.mp hx]
      exact ⟨hjlt, hvchild, hle⟩

/-- One of two equal rows is dropped. -/
theorem Dropping.dropEqual (h : TotalPreorder icmp) (hs : Dropping icmp v s dropped t)
    (hc : c = 1 ∨ c = 2) (hlt : c < t.activeInputs) (hequal : t.buffCompare icmp c 0 = 0) :
    (∃ x, Dropping icmp v s (dropped ++ [x]) (t.dropEqual icmp c).1) ∧
      (t.dropEqual icmp c).1.load < t.load ∧
      (t.dropEqual icmp c).1.activeInputs ≤ t.activeInputs ∧
      ((t.dropEqual icmp c).2 = true → c < (t.dropEqual icmp c).1.activeInputs) ∧
      ((t.dropEqual icmp c).2 = false → (t.dropEqual icmp c).1.activeInputs = c) ∧
      ∀ k, (k = 1 ∨ k = 2) → k ≠ c → k < (t.dropEqual icmp c).1.activeInputs →
        (t.dropEqual icmp c).1.pending ((t.dropEqual icmp c).1.mergeheap k) =
          t.pending (t.mergeheap k) := by
  have hc0 : 0 < c := by omega
  have hdropped := @dropEqual_dropped _ icmp _ _ hs.ready.sound hs.ready.filled hs.dedup hlt
  have hready := dropEqual_ready h hs.ready.sound hs.ready.filled hs.ready.heap hs.dedup hc hlt
  obtain ⟨rtop, htop, hvtop⟩ := hs.top
  obtain ⟨rchild, hchild, hvchild⟩ := (hs.buffCompare_eq h hlt).2.2 hequal
  obtain ⟨heap, hexchange, hrearranged, hle, hle', hplaces, hframe⟩ := exchanged_spec hs.pos hlt
  -- both rows equal `v`, wherever they stand
  obtain ⟨r₀, r₁, h₀, hv₀, h₁, hv₁⟩ : ∃ r₀ r₁, t.pending (heap 0) = some r₀ ∧ icmp v r₀ = 0 ∧
      t.pending (heap c) = some r₁ ∧ icmp v r₁ = 0 := by
    rcases hplaces with ⟨heq₀, heq₁⟩ | ⟨heq₀, heq₁⟩
    · exact ⟨rtop, rchild, heq₀ ▸ htop, hvtop, heq₁ ▸ hchild, hvchild⟩
    · exact ⟨rchild, rtop, heq₀ ▸ hchild, hvchild, heq₁ ▸ htop, hvtop⟩
  have hsound : CRowStreamMerger.Sound { t with mergeheap := heap } :=
    hs.ready.sound.rearranged ⟨heap, rfl, hrearranged⟩
  have hrefill := @refill_spec _ { t with mergeheap := heap } c hsound hlt (Or.inl hs.dedup)
  rw [CRowStreamMerger.dropEqual, hexchange, resift] at hdropped hready ⊢
  generalize CRowStreamMerger.refill { t with mergeheap := heap } c = r at hrefill hdropped hready
  obtain ⟨u, found⟩ := r
  dsimp only at hrefill
  have hloads := hdropped.load
  have hle'' := hdropped.moved.le
  have hready' : CRowStreamMerger.Ready icmp _ := ⟨hdropped.moved.sound, hdropped.moved.filled, hready⟩
  have hboth : Refilled { t with mergeheap := heap } c u true ∨
      Refilled { t with mergeheap := heap } c u false := by
    cases found with
    | true => exact Or.inl hrefill
    | false => exact Or.inr hrefill
  obtain ⟨hincreasing, hdedup, hutop, hge, hreleases, hequal'⟩ :=
    hs.refill h hc0 hlt hrearranged hle hle' h₀ hv₀ h₁ hv₁ hboth
  have hother : ∀ k < u.activeInputs, k ≠ 0 → k ≠ c → u.mergeheap k = t.mergeheap k ∧
      u.pending (u.mergeheap k) = t.pending (t.mergeheap k) := by
    intro k hk hk0 hkc
    have hheapk : u.mergeheap k = heap k := hrefill.frame k hk hkc
    have hne : heap k ≠ heap c := fun heq => hkc (hsound.injOn (hk.trans_le hrefill.le) hlt heq)
    rw [hheapk, hrefill.pending_of_ne _ hne, hframe k hk0 hkc]
    exact ⟨rfl, rfl⟩
  cases found with
  | false =>
    have hactive := hrefill.eq_of_left rfl
    have htopu : u.mergeheap 0 = heap 0 := hrefill.frame 0 (hactive ▸ hc0) hc0.ne
    refine ⟨⟨(heap c, r₁), hready', hactive ▸ hc0, hdedup, hincreasing, ?_, hge, hreleases, ?_⟩, hloads,
      hle'', hdropped.lt_of_found, hdropped.eq_of_left, ?_⟩
    · rw [htopu]
      exact hutop
    · rw [htopu]
      exact hequal'
    · exact fun k hk hkc hklt => (hother k hklt (by omega) hkc).2
  | true =>
    have hcu := hrefill.lt_of_found rfl
    have htopu : (u.siftDown icmp c).1.mergeheap 0 = heap 0 :=
      (siftDown_mergeheap hc0.ne (Nat.succ_pos _)).trans
        (hrefill.frame 0 (hc0.trans hcu) hc0.ne)
    have hreleases' : s.Releases (dropped ++ [(heap c, r₁)]) (u.siftDown icmp c).1 :=
      ⟨hreleases.released, hreleases.held, hreleases.numstreams, hreleases.partdedup, hreleases.recno⟩
    refine ⟨⟨(heap c, r₁), hready', hc0.trans hcu, hdedup, hincreasing, ?_, hge, hreleases', ?_⟩, hloads,
      hle'', hdropped.lt_of_found, hdropped.eq_of_left, ?_⟩
    · rw [htopu]
      exact hutop
    · rw [htopu]
      exact hequal'
    · intro k hk hkc hklt
      have hsame : (u.siftDown icmp c).1.mergeheap k = u.mergeheap k :=
        siftDown_mergeheap hkc (by omega)
      rw [hsame]
      exact (hother k hklt (by omega) hkc).2

/-! ### The loops -/

/-- The places behind the top of which the rows have been told apart from the one at the top. -/
theorem Dropping.above_or_equal (h : TotalPreorder icmp) (hs : Dropping icmp v s dropped t)
    (hk : k < t.activeInputs) (hne : t.buffCompare icmp k 0 ≠ 0) : Above icmp v t k := by
  obtain ⟨hnonneg, habove, -⟩ := hs.buffCompare_eq h hk
  exact habove (lt_of_le_of_ne hnonneg hne.symm)

/-- What a loop of `siftDownDedupTop` leaves for the branch at `c`. -/
structure Cleared (icmp : R → R → ℤ) (v : R) (s t : CRowStreamMerger R) (c : ℕ)
    (u : CRowStreamMerger R) : Prop where
  dropping : ∃ dropped, Dropping icmp v s dropped u
  load : u.load ≤ t.load
  le : u.activeInputs ≤ t.activeInputs
  above : c < u.activeInputs → Above icmp v u c
  frame : ∀ k, (k = 1 ∨ k = 2) → k ≠ c → k < u.activeInputs →
    u.pending (u.mergeheap k) = t.pending (t.mergeheap k)

theorem Cleared.trans {t' : CRowStreamMerger R} (h : Cleared icmp v s t' c u)
    (hload : t'.load ≤ t.load) (hle : t'.activeInputs ≤ t.activeInputs)
    (hframe : ∀ k, (k = 1 ∨ k = 2) → k ≠ c → k < t'.activeInputs →
      t'.pending (t'.mergeheap k) = t.pending (t.mergeheap k)) : Cleared icmp v s t c u :=
  ⟨h.dropping, h.load.trans hload, h.le.trans hle, h.above, fun k hk hkc hlt =>
    (h.frame k hk hkc hlt).trans (hframe k hk hkc (hlt.trans_le h.le))⟩

/-- The second loop clears its branch. -/
theorem Dropping.second (h : TotalPreorder icmp) (hs : Dropping icmp v s dropped t)
    (hc : c = 1 ∨ c = 2) (hlt : c < t.activeInputs) (hfuel : t.load < fuel) {cmp : ℤ}
    (hcmp : cmp = 0 ↔ t.buffCompare icmp c 0 = 0) :
    Cleared icmp v s t c (siftDownDedupTop.second icmp fuel t c cmp) := by
  induction fuel generalizing t dropped cmp with
  | zero => exact absurd hfuel (Nat.not_lt_zero _)
  | succ fuel ih =>
    rw [siftDownDedupTop.second]
    by_cases hzero : cmp = 0
    · rw [if_pos hzero]
      obtain ⟨⟨x, hdrop⟩, hload, hle, hmore, hleft, hframe⟩ := hs.dropEqual h hc hlt (hcmp.mp hzero)
      generalize t.dropEqual icmp c = r at hdrop hload hle hmore hleft hframe
      obtain ⟨u, found⟩ := r
      dsimp only at hdrop hload hle hmore hleft hframe
      cases found with
      | false =>
        refine ⟨⟨_, hdrop⟩, hload.le, hle, fun hcu => ?_, hframe⟩
        exact absurd hcu (hleft rfl ▸ lt_irrefl c)
      | true =>
        have hrest := ih hdrop (hmore rfl) (hload.trans_le (Nat.le_of_lt_succ hfuel)) Iff.rfl
        exact hrest.trans hload.le hle hframe
    · rw [if_neg hzero]
      exact ⟨⟨_, hs⟩, le_rfl, le_rfl, fun _ => hs.above_or_equal h hlt (mt hcmp.mpr hzero),
        fun _ _ _ _ => rfl⟩

/-- The first loop clears its branch, once the row at the top does not come after the child. -/
theorem Dropping.first (h : TotalPreorder icmp) (hs : Dropping icmp v s dropped t)
    (hc : c = 1 ∨ c = 2) (hlt : c < t.activeInputs) (hfuel : t.load < fuel) :
    Cleared icmp v s t c (siftDownDedupTop.first icmp fuel t c (t.buffCompare icmp c 0)) := by
  induction fuel generalizing t dropped with
  | zero => exact absurd hfuel (Nat.not_lt_zero _)
  | succ fuel ih =>
    rw [siftDownDedupTop.first]
    obtain ⟨hnonneg, habove, -⟩ := hs.buffCompare_eq h hlt
    by_cases hle0 : t.buffCompare icmp c 0 ≤ 0
    · have hzero := le_antisymm hle0 hnonneg
      rw [if_pos hle0, if_pos hzero]
      obtain ⟨⟨x, hdrop⟩, hload, hle, hmore, hleft, hframe⟩ := hs.dropEqual h hc hlt hzero
      generalize t.dropEqual icmp c = r at hdrop hload hle hmore hleft hframe
      obtain ⟨u, found⟩ := r
      dsimp only at hdrop hload hle hmore hleft hframe
      cases found with
      | false =>
        refine ⟨⟨_, hdrop⟩, hload.le, hle, fun hcu => ?_, hframe⟩
        exact absurd hcu (hleft rfl ▸ lt_irrefl c)
      | true =>
        have hrest := ih hdrop (hmore rfl) (hload.trans_le (Nat.le_of_lt_succ hfuel))
        exact hrest.trans hload.le hle hframe
    · rw [if_neg hle0]
      exact ⟨⟨_, hs⟩, le_rfl, le_rfl, fun _ => habove (not_le.mp hle0), fun _ _ _ _ => rfl⟩

/-! ### The top of the heap -/

/-- A child that is smaller than the top takes its place; the old top sinks into the branch. -/
theorem Ready.exchangeTop (h : TotalPreorder icmp) (hs : s.Ready icmp) (hdedup : s.partdedup = true)
    (hincreasing : s.Increasing icmp) (hc : c = 1 ∨ c = 2) (hlt : c < s.activeInputs)
    (hless : s.buffCompare icmp c 0 < 0) (hchild : s.pending (s.mergeheap c) = some v)
    (hge : ∀ k, (k = 1 ∨ k = 2) → k < s.activeInputs → ∀ row,
      s.pending (s.mergeheap k) = some row → icmp v row ≤ 0) :
    Dropping icmp v s [] ((s.exchangeTop c).siftDown icmp c).1 ∧
      (((s.exchangeTop c).siftDown icmp c).2 = true →
        Above icmp v ((s.exchangeTop c).siftDown icmp c).1 c) ∧
      ∀ k, (k = 1 ∨ k = 2) → k ≠ c →
        ((s.exchangeTop c).siftDown icmp c).1.mergeheap k = s.mergeheap k := by
  have hc0 : 0 < c := by omega
  have hpos : 0 < s.activeInputs := hc0.trans hlt
  have hmoved := @exchangeTop_moved _ icmp _ _ hs.sound hs.filled hlt
  have hready := exchangeTop_ready h hs.heap hc hlt
  have hreleases : s.Releases [] ((s.exchangeTop c).siftDown icmp c).1 :=
    (releases_of_heap ⟨_, rfl⟩).trans (releases_of_heap ⟨_, rfl⟩)
  obtain ⟨top, htop⟩ := hs.filled 0 hpos
  have hvtop : icmp v top < 0 := by
    rw [buffCompare, hchild, htop] at hless
    exact hless
  have hnewtop : ((s.exchangeTop c).siftDown icmp c).1.mergeheap 0 = s.mergeheap c :=
    (siftDown_mergeheap hc0.ne (Nat.succ_pos _)).trans (exchange_left _ _ _)
  refine ⟨⟨⟨hmoved.sound, hmoved.filled, hready⟩, hpos, hdedup, hincreasing.releases hreleases, ?_, ?_,
    hreleases, fun x hx => absurd hx List.not_mem_nil⟩, ?_, ?_⟩
  · rw [hnewtop]
    exact ⟨v, hchild, h.self v⟩
  · -- all other rows come after one of the children
    intro i hi row hrow
    change s.pending i = some row at hrow
    obtain ⟨k, hk, rfl⟩ := hs.sound.exists_place hi hrow
    rcases Nat.eq_zero_or_pos k with rfl | hkpos
    · obtain rfl := Option.some.inj (htop.symm.trans hrow)
      exact hvtop.le
    · obtain ⟨d, hd, hdlt, hle⟩ := hs.heap.child_le (decides_streamLe h s) hkpos hk
      obtain ⟨drow, hdrow⟩ := hs.filled d hdlt
      have hcmp := hle.le
      rw [hdrow, hrow] at hcmp
      exact h.trans v drow row (hge d hd hdlt drow hdrow) hcmp
  · intro hnochange
    rw [siftDown_nochange hnochange]
    exact ⟨top, (congrArg s.pending (exchange_right s.mergeheap 0 c)).trans htop, hvtop⟩
  · intro k hk hkc
    rw [siftDown_mergeheap hkc (by omega)]
    exact exchange_of_ne _ (by omega) hkc

/-- The rows of all streams come after one of the children, or stand at the top. -/
theorem Ready.dropping (h : TotalPreorder icmp) (hs : s.Ready icmp) (hpos : 0 < s.activeInputs)
    (hdedup : s.partdedup = true) (hincreasing : s.Increasing icmp) {top : R}
    (htop : s.pending (s.mergeheap 0) = some top) (hv : icmp v top = 0)
    (hge : ∀ k, (k = 1 ∨ k = 2) → k < s.activeInputs → ∀ row,
      s.pending (s.mergeheap k) = some row → icmp v row ≤ 0) : Dropping icmp v s [] s := by
  refine ⟨hs, hpos, hdedup, hincreasing, ⟨top, htop, hv⟩, ?_, .refl s,
    fun x hx => absurd hx List.not_mem_nil⟩
  intro i hi row hrow
  obtain ⟨k, hk, rfl⟩ := hs.sound.exists_place hi hrow
  rcases Nat.eq_zero_or_pos k with rfl | hkpos
  · obtain rfl := Option.some.inj (htop.symm.trans hrow)
    exact hv.le
  · obtain ⟨d, hd, hdlt, hle⟩ := hs.heap.child_le (decides_streamLe h s) hkpos hk
    obtain ⟨drow, hdrow⟩ := hs.filled d hdlt
    have hcmp := hle.le
    rw [hdrow, hrow] at hcmp
    exact h.trans v drow row (hge d hd hdlt drow hdrow) hcmp

/-- The result of `siftDownDedupTop`: the row at the top is less than all others, and the rows that
equal it, of streams with higher numbers, have been released. -/
structure DedupedTop (icmp : R → R → ℤ) (s : CRowStreamMerger R) (dropped : List (ℕ × R))
    (t : CRowStreamMerger R) (row : R) : Prop where
  sound : t.Sound
  filled : t.Filled
  heap : t.HeapOf icmp 0
  pos : 0 < t.activeInputs
  load : t.load ≤ s.load
  releases : s.Releases dropped t
  top : t.pending (t.mergeheap 0) = some row
  less : ∀ k, 0 < k → k < t.activeInputs → Above icmp row t k
  equal : ∀ x ∈ dropped, x.1 < t.numstreams ∧ icmp row x.2 = 0 ∧ t.mergeheap 0 ≤ x.1

/-- When the rows of both children are greater, all others are. -/
theorem Dropping.dedupedTop (h : TotalPreorder icmp) (hs : Dropping icmp v s dropped t)
    (hload : t.load ≤ s.load)
    (habove : ∀ k, (k = 1 ∨ k = 2) → k < t.activeInputs → Above icmp v t k) :
    ∃ row, DedupedTop icmp s dropped t row := by
  obtain ⟨row, htop, hv⟩ := hs.top
  have hrow : icmp row v ≤ 0 := (h.zero_comm.mp hv).le
  have hchild : ∀ k, (k = 1 ∨ k = 2) → k < t.activeInputs → Above icmp row t k := by
    intro k hk hlt
    obtain ⟨r, hr, hless⟩ := habove k hk hlt
    exact ⟨r, hr, h.lt_of_le_of_lt hrow hless⟩
  refine ⟨row, hs.ready.sound, hs.ready.filled, ?_, hs.pos, hload, hs.releases, htop, ?_, ?_⟩
  · refine hs.ready.heap.of_children fun k hk hlt => ?_
    obtain ⟨r, hr, hless⟩ := hchild k hk hlt
    refine Or.inl ?_
    rw [htop, hr]
    exact hless
  · intro k hkpos hlt
    obtain ⟨d, hd, hdlt, hle⟩ := hs.ready.heap.child_le (decides_streamLe h t) hkpos hlt
    obtain ⟨r, hr, hless⟩ := hchild d hd hdlt
    obtain ⟨krow, hkrow⟩ := hs.ready.filled k hlt
    have hcmp := hle.le
    rw [hr, hkrow] at hcmp
    exact ⟨krow, hkrow, h.lt_of_lt_of_le hless hcmp⟩
  · intro x hx
    obtain ⟨hxlt, hxv, hxle⟩ := hs.equal x hx
    refine ⟨hxlt, le_antisymm ?_ (h.nonneg_iff.mpr ?_), hxle⟩
    · exact h.trans row v x.2 hrow hxv.le
    · exact h.trans x.2 v row (h.zero_comm.mp hxv).le hv.le

/-- The branch at `c` is cleared first, and the other branch when its row equals the one of `c`. -/
theorem Cleared.second (h : TotalPreorder icmp) (hc : c = 1 ∨ c = 2) (hs : Cleared icmp v s s c u)
    {childcmp : ℤ} (hother : 3 - c < u.activeInputs →
      (childcmp = 0 ↔ u.buffCompare icmp (3 - c) 0 = 0)) :
    ∃ dropped row, DedupedTop icmp s dropped
      (if u.activeInputs ≤ 3 - c then u
        else siftDownDedupTop.second icmp (u.load + 1) u (3 - c) childcmp) row := by
  obtain ⟨dropped, hdrop⟩ := hs.dropping
  have hc' : 3 - c = 1 ∨ 3 - c = 2 := by omega
  have hcases : ∀ k, (k = 1 ∨ k = 2) → k = c ∨ k = 3 - c := by omega
  by_cases hdone : u.activeInputs ≤ 3 - c
  · rw [if_pos hdone]
    refine ⟨dropped, hdrop.dedupedTop h hs.load fun k hk hlt => ?_⟩
    rcases hcases k hk with rfl | rfl
    · exact hs.above hlt
    · exact absurd hlt (not_lt.mpr hdone)
  · rw [if_neg hdone]
    have hlt := not_le.mp hdone
    have hcleared := hdrop.second h hc' hlt (Nat.lt_succ_self u.load) (hother hlt)
    generalize siftDownDedupTop.second icmp (u.load + 1) u (3 - c) childcmp = w at hcleared
    obtain ⟨dropped', hdrop'⟩ := hcleared.dropping
    refine ⟨dropped', hdrop'.dedupedTop h (hcleared.load.trans hs.load) fun k hk hklt => ?_⟩
    rcases hcases k hk with rfl | rfl
    · obtain ⟨r, hr, hless⟩ := hs.above (hklt.trans_le hcleared.le)
      refine ⟨r, ?_, hless⟩
      rw [hcleared.frame k hk (by omega) hklt]
      exact hr
    · exact hcleared.above hklt

/-- `siftDownDedupTop` makes a heap of which the top is less than all others. -/
theorem Ready.siftDownDedupTop (h : TotalPreorder icmp) (hs : s.Ready icmp) (hpos : 0 < s.activeInputs)
    (hdedup : s.partdedup = true) (hincreasing : s.Increasing icmp) :
    ∃ dropped row, DedupedTop icmp s dropped (s.siftDownDedupTop icmp) row := by
  obtain ⟨top, htop⟩ := hs.filled 0 hpos
  unfold CRowStreamMerger.siftDownDedupTop
  by_cases hone : s.activeInputs < 2
  · rw [if_pos hone]
    refine ⟨[], (hs.dropping h hpos hdedup hincreasing htop (h.self top) ?_).dedupedTop h le_rfl ?_⟩
    · exact fun k hk hlt => by omega
    · exact fun k hk hlt => by omega
  rw [if_neg hone]
  dsimp only
  -- the smaller child and its row
  generalize hchildcmp : (if 3 ≤ s.activeInputs then s.buffCompare icmp 2 1 else 1) = childcmp
  generalize hc : (if childcmp < 0 then 2 else 1) = c
  have hc12 : c = 1 ∨ c = 2 := by
    rw [← hc]
    split_ifs
    · exact Or.inr rfl
    · exact Or.inl rfl
  have hclt : c < s.activeInputs := by
    by_cases hthree : 3 ≤ s.activeInputs
    · omega
    · rw [if_neg hthree] at hchildcmp
      rw [← hchildcmp, if_neg (by decide)] at hc
      omega
  obtain ⟨v, hv⟩ := hs.filled c hclt
  have hrows : ∀ k, (k = 1 ∨ k = 2) → k < s.activeInputs → ∀ row,
      s.pending (s.mergeheap k) = some row → icmp v row ≤ 0 := by
    intro k hk hlt row hrow
    by_cases hkc : k = c
    · subst hkc
      obtain rfl := Option.some.inj (hv.symm.trans hrow)
      exact (h.self v).le
    · have hthree : 3 ≤ s.activeInputs := by omega
      rw [if_pos hthree] at hchildcmp
      by_cases hneg : childcmp < 0
      · rw [if_pos hneg] at hc
        subst hc
        have hk1 : k = 1 := by omega
        subst hk1
        rw [← hchildcmp, buffCompare, hv, hrow] at hneg
        exact hneg.le
      · rw [if_neg hneg] at hc
        subst hc
        have hk2 : k = 2 := by omega
        subst hk2
        rw [← hchildcmp, buffCompare, hv, hrow] at hneg
        exact h.nonneg_iff.mp (not_lt.mp hneg)
  have hcmp : s.buffCompare icmp c 0 = icmp v top := by
    rw [buffCompare, hv, htop]
    rfl
  -- the row of the other child equals the one of `c` when `childcmp` is zero
  have hother : ∀ u, Cleared icmp v s s c u → 3 - c < u.activeInputs →
      (childcmp = 0 ↔ u.buffCompare icmp (3 - c) 0 = 0) := by
    intro u hu hlt
    obtain ⟨dropped, hdrop⟩ := hu.dropping
    obtain ⟨utop, hutop, hvtop⟩ := hdrop.top
    have hlts : 3 - c < s.activeInputs := hlt.trans_le hu.le
    obtain ⟨r, hr⟩ := hs.filled (3 - c) hlts
    have hur := hu.frame (3 - c) (by omega) (by omega) hlt
    have hbuff : u.buffCompare icmp (3 - c) 0 = icmp r utop := by
      rw [buffCompare, hur, hr, hutop]
      rfl
    have hequiv : icmp r utop = 0 ↔ icmp r v = 0 := by
      constructor
      · intro hzero
        refine le_antisymm (h.trans r utop v hzero.le (h.zero_comm.mp hvtop).le)
          (h.nonneg_iff.mpr (h.trans v utop r hvtop.le (h.zero_comm.mp hzero).le))
      · intro hzero
        refine le_antisymm (h.trans r v utop hzero.le hvtop.le)
          (h.nonneg_iff.mpr (h.trans utop v r (h.zero_comm.mp hvtop).le (h.zero_comm.mp hzero).le))
    rw [hbuff, hequiv]
    have hthree : 3 ≤ s.activeInputs := by omega
    rw [if_pos hthree] at hchildcmp
    by_cases hneg : childcmp < 0
    · rw [if_pos hneg] at hc
      subst hc
      rw [← hchildcmp, buffCompare, hv, hr] at hneg
      rw [← hchildcmp, buffCompare, hv, hr]
      exact h.zero_comm
    · rw [if_neg hneg] at hc
      subst hc
      rw [← hchildcmp, buffCompare, hr, hv]
      exact Iff.rfl
  by_cases hgreater : 0 < s.buffCompare icmp c 0
  · rw [if_pos hgreater]
    rw [hcmp] at hgreater
    have hless := (h.swap v top).mp hgreater
    refine ⟨[], (hs.dropping h hpos hdedup hincreasing htop (h.self top) ?_).dedupedTop h le_rfl ?_⟩
    · exact fun k hk hlt row hrow => (h.lt_of_lt_of_le hless (hrows k hk hlt row hrow)).le
    · intro k hk hlt
      obtain ⟨row, hrow⟩ := hs.filled k hlt
      exact ⟨row, hrow, h.lt_of_lt_of_le hless (hrows k hk hlt row hrow)⟩
  rw [if_neg hgreater]
  have hfuel : s.load < 2 * s.load + 2 := by omega
  have hcleared : Cleared icmp v s s c
      (siftDownDedupTop.first icmp (2 * s.load + 2) s c (s.buffCompare icmp c 0)) := by
    rcases (not_lt.mp hgreater).lt_or_eq with hneg | hzero
    · -- the child goes to the top
      obtain ⟨hdrop, hstop, hframe⟩ :=
        hs.exchangeTop h hdedup hincreasing hc12 hclt hneg hv hrows
      rw [siftDownDedupTop.first, if_pos hneg.le, if_neg hneg.ne]
      have hload : ((s.exchangeTop c).siftDown icmp c).1.load = s.load := rfl
      have hactive : ((s.exchangeTop c).siftDown icmp c).1.activeInputs = s.activeInputs := rfl
      have hpending : ((s.exchangeTop c).siftDown icmp c).1.pending = s.pending := rfl
      generalize (s.exchangeTop c).siftDown icmp c = r at hdrop hstop hframe hload hactive hpending
      obtain ⟨t, nochange⟩ := r
      dsimp only at hdrop hstop hframe hload hactive hpending
      have hsame : ∀ k, (k = 1 ∨ k = 2) → k ≠ c → k < t.activeInputs →
          t.pending (t.mergeheap k) = s.pending (s.mergeheap k) := by
        intro k hk hkc _
        rw [hpending, hframe k hk hkc]
      cases nochange with
      | true => exact ⟨⟨_, hdrop⟩, hload.le, hactive.le, fun _ => hstop rfl, hsame⟩
      | false =>
        have hrest := hdrop.first h hc12 (hactive.symm ▸ hclt)
          (show t.load < 2 * s.load + 1 by omega)
        exact hrest.trans hload.le hactive.le hsame
    · have hvtop : icmp v top = 0 := hcmp.symm.trans hzero
      exact (hs.dropping h hpos hdedup hincreasing htop hvtop hrows).first h hc12 hclt hfuel
  exact hcleared.second h hc12 (hother _ hcleared)

end CRowStreamMerger

end Merge

end HpccPlatform
