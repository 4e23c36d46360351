import HpccPlatform.JSort.QuickSort

/-!
# The partition of the quicksort

The loops keep the items equal to the pivot at both ends, then the less ones on the left and the
greater ones on the right.  When the equal ones have been moved to the middle, the two parts lie at
the ends, and the pivot is in neither.
-/

namespace HpccPlatform

namespace JSort

open ArrayHeap (exchange)

open ArrayRange

variable {α : Type*} {icmp : α → α → ℤ} {a n : ℕ} {items items' : ℕ → α} {i j k : ℕ}

/-- What the loops keep: from both ends the items equal to the pivot `v`, then the less ones from the left
and the greater ones from the right. -/
structure Parted (icmp : α → α → ℤ) (a n : ℕ) (v : α) (items₀ : ℕ → α) (s : Parting α) : Prop where
  rearranged : RearrangedOn a (a + n) items₀ s.items
  front : s.items a = v
  lt_pa : a < s.pa
  pa_le : s.pa ≤ s.pb
  pb_le : s.pb ≤ s.pc + 1
  pc_le : s.pc ≤ s.pd
  pd_lt : s.pd < a + n
  left : ∀ i, a ≤ i → i < s.pa → icmp (s.items i) v = 0
  less : ∀ i, s.pa ≤ i → i < s.pb → icmp (s.items i) v < 0
  greater : ∀ i, s.pc < i → i ≤ s.pd → 0 < icmp (s.items i) v
  right : ∀ i, s.pd < i → i < a + n → icmp (s.items i) v = 0

namespace Parted

variable {v : α} {items₀ : ℕ → α} {s t : Parting α}

theorem pb_mem (h : Parted icmp a n v items₀ s) (hle : s.pb ≤ s.pc) : a ≤ s.pb ∧ s.pb < a + n := by
  have := h.lt_pa
  have := h.pa_le
  have := h.pc_le
  have := h.pd_lt
  omega

theorem pc_mem (h : Parted icmp a n v items₀ s) (hle : s.pb ≤ s.pc) : a ≤ s.pc ∧ s.pc < a + n := by
  have := h.lt_pa
  have := h.pa_le
  have := h.pc_le
  have := h.pd_lt
  omega

/-- An item equal to the pivot goes to the left end. -/
theorem equalUp (h : Parted icmp a n v items₀ s) (hle : s.pb ≤ s.pc) (hzero : icmp (s.items s.pb) v = 0) :
    Parted icmp a n v items₀
      { s with items := exchange s.items s.pa s.pb, pa := s.pa + 1, pb := s.pb + 1, swapCnt := true } := by
  obtain ⟨hrearranged, hfront, ha, hpa, hpb, hpc, hpd, hleft, hless, hgreater, hright⟩ := h
  have hother : ∀ i, i ≠ s.pa → i ≠ s.pb → exchange s.items s.pa s.pb i = s.items i :=
    fun i => ArrayHeap.exchange_of_ne s.items
  have hfront' : exchange s.items s.pa s.pb a = v := by rw [hother a ha.ne (by omega), hfront]
  refine ⟨hrearranged.trans (.of_exchange _ (by omega) (by omega)), hfront', Nat.lt_succ_of_lt ha,
    Nat.succ_le_succ hpa, by dsimp only; omega, hpc, hpd, fun i hi hi' => ?_, fun i hi hi' => ?_,
    fun i hi hi' => ?_, fun i hi hi' => ?_⟩ <;> dsimp only at hi hi' ⊢
  · by_cases hnew : i = s.pa
    · rw [hnew, ArrayHeap.exchange_left]
      exact hzero
    · rw [hother i hnew (by omega)]
      exact hleft i hi (by omega)
  · by_cases hnew : i = s.pb
    · rw [hnew, ArrayHeap.exchange_right]
      exact hless s.pa le_rfl (by omega)
    · rw [hother i (by omega) hnew]
      exact hless i (by omega) (by omega)
  · rw [hother i (by omega) (by omega)]
    exact hgreater i hi hi'
  · rw [hother i (by omega) (by omega)]
    exact hright i hi hi'

theorem lessUp (h : Parted icmp a n v items₀ s) (hle : s.pb ≤ s.pc) (hneg : icmp (s.items s.pb) v < 0) :
    Parted icmp a n v items₀ { s with pb := s.pb + 1 } := by
  refine ⟨h.rearranged, h.front, h.lt_pa, h.pa_le.trans (Nat.le_succ _), Nat.succ_le_succ hle, h.pc_le,
    h.pd_lt, h.left, fun i hi hi' => ?_, h.greater, h.right⟩
  rcases Nat.lt_succ_iff_lt_or_eq.mp hi' with hlt | rfl
  · exact h.less i hi hlt
  · exact hneg

/-- An item equal to the pivot goes to the right end. -/
theorem equalDown (h : Parted icmp a n v items₀ s) (hle : s.pb ≤ s.pc) (hzero : icmp (s.items s.pc) v = 0) :
    Parted icmp a n v items₀
      { s with items := exchange s.items s.pc s.pd, pc := s.pc - 1, pd := s.pd - 1, swapCnt := true } := by
  obtain ⟨hrearranged, hfront, ha, hpa, hpb, hpc, hpd, hleft, hless, hgreater, hright⟩ := h
  have hother : ∀ i, i ≠ s.pc → i ≠ s.pd → exchange s.items s.pc s.pd i = s.items i :=
    fun i => ArrayHeap.exchange_of_ne s.items
  have hfront' : exchange s.items s.pc s.pd a = v := by rw [hother a (by omega) (by omega), hfront]
  refine ⟨hrearranged.trans (.of_exchange _ (by omega) (by omega)), hfront', ha, hpa, by dsimp only; omega,
    Nat.sub_le_sub_right hpc 1, (Nat.sub_le _ 1).trans_lt hpd, fun i hi hi' => ?_, fun i hi hi' => ?_,
    fun i hi hi' => ?_, fun i hi hi' => ?_⟩ <;> dsimp only at hi hi' ⊢
  · rw [hother i (by omega) (by omega)]
    exact hleft i hi hi'
  · rw [hother i (by omega) (by omega)]
    exact hless i hi hi'
  · by_cases hnew : i = s.pc
    · rw [hnew, ArrayHeap.exchange_left]
      exact hgreater s.pd (by omega) le_rfl
    · rw [hother i hnew (by omega)]
      exact hgreater i (by omega) (by omega)
  · by_cases hnew : i = s.pd
    · rw [hnew, ArrayHeap.exchange_right]
      exact hzero
    · rw [hother i (by omega) hnew]
      exact hright i (by omega) hi'

theorem greaterDown (h : Parted icmp a n v items₀ s) (hle : s.pb ≤ s.pc) (hpos : 0 < icmp (s.items s.pc) v) :
    Parted icmp a n v items₀ { s with pc := s.pc - 1 } := by
  have ha := h.lt_pa
  have hpa := h.pa_le
  refine ⟨h.rearranged, h.front, ha, hpa, by dsimp only; omega, (Nat.sub_le _ 1).trans h.pc_le, h.pd_lt,
    h.left, h.less, fun i hi hi' => ?_, h.right⟩
  dsimp only at hi hi'
  by_cases hnew : i = s.pc
  · rw [hnew]
    exact hpos
  · exact h.greater i (by omega) hi'

/-- A greater item and a less one change places. -/
theorem cross (h : Parted icmp a n v items₀ s) (hle : s.pb ≤ s.pc) (hpos : 0 < icmp (s.items s.pb) v)
    (hneg : icmp (s.items s.pc) v < 0) :
    Parted icmp a n v items₀
      { s with items := exchange s.items s.pb s.pc, pb := s.pb + 1, pc := s.pc - 1, swapCnt := true } := by
  obtain ⟨hrearranged, hfront, ha, hpa, hpb, hpc, hpd, hleft, hless, hgreater, hright⟩ := h
  have hne : s.pb ≠ s.pc := fun heq => by
    rw [heq] at hpos
    exact absurd hpos hneg.not_gt
  have hother : ∀ i, i ≠ s.pb → i ≠ s.pc → exchange s.items s.pb s.pc i = s.items i :=
    fun i => ArrayHeap.exchange_of_ne s.items
  have hfront' : exchange s.items s.pb s.pc a = v := by rw [hother a (by omega) (by omega), hfront]
  refine ⟨hrearranged.trans (.of_exchange _ (by omega) (by omega)), hfront', ha, hpa.trans (Nat.le_succ _),
    by dsimp only; omega, (Nat.sub_le _ 1).trans hpc, hpd, fun i hi hi' => ?_, fun i hi hi' => ?_,
    fun i hi hi' => ?_, fun i hi hi' => ?_⟩ <;> dsimp only at hi hi' ⊢
  · rw [hother i (by omega) (by omega)]
    exact hleft i hi hi'
  · by_cases hnew : i = s.pb
    · rw [hnew, ArrayHeap.exchange_left]
      exact hneg
    · rw [hother i hnew (by omega)]
      exact hless i hi (by omega)
  · by_cases hnew : i = s.pc
    · rw [hnew, ArrayHeap.exchange_right]
      exact hpos
    · rw [hother i (by omega) hnew]
      exact hgreater i (by omega) hi'
  · rw [hother i (by omega) (by omega)]
    exact hright i hi hi'

/-- The loop at `pb` ends behind `pc` or at a greater item. -/
theorem scanUp_spec : ∀ (fuel : ℕ) (s : Parting α), Parted icmp a n v items₀ s →
    s.pc + 1 - s.pb < fuel → ∃ t, scanUp icmp a n fuel s = some t ∧ Parted icmp a n v items₀ t ∧
      t.pc = s.pc ∧ s.pb ≤ t.pb ∧ (t.pb ≤ t.pc → 0 < icmp (t.items t.pb) v)
  | 0, _, _, hfuel => absurd hfuel (Nat.not_lt_zero _)
  | fuel + 1, s, h, hfuel => by
    rw [scanUp]
    by_cases hle : s.pb ≤ s.pc
    · rw [if_pos hle, cmp_eq icmp s.items (h.pb_mem hle) (by have := h.pb_mem hle; omega), h.front]
      dsimp only
      rcases lt_trichotomy (icmp (s.items s.pb) v) 0 with hneg | hzero | hpos
      · rw [if_pos hneg.le, if_neg hneg.ne]
        obtain ⟨t, hscan, ht, hpc, hpb, hend⟩ := scanUp_spec fuel _ (h.lessUp hle hneg)
          (by dsimp only; omega)
        exact ⟨t, hscan, ht, hpc, (Nat.le_succ _).trans hpb, hend⟩
      · have hpa : a ≤ s.pa ∧ s.pa < a + n := by
          have := h.pb_mem hle
          have := h.lt_pa
          have := h.pa_le
          omega
        rw [if_pos hzero.le, if_pos hzero, swap_eq s.items hpa (h.pb_mem hle), Option.bind_some]
        obtain ⟨t, hscan, ht, hpc, hpb, hend⟩ := scanUp_spec fuel _ (h.equalUp hle hzero)
          (by dsimp only; omega)
        exact ⟨t, hscan, ht, hpc, (Nat.le_succ _).trans hpb, hend⟩
      · rw [if_neg hpos.not_ge]
        exact ⟨s, rfl, h, rfl, le_rfl, fun _ => hpos⟩
    · rw [if_neg hle]
      exact ⟨s, rfl, h, rfl, le_rfl, fun hle' => absurd hle' hle⟩

/-- The loop at `pc` ends in front of `pb` or at a less item. -/
theorem scanDown_spec : ∀ (fuel : ℕ) (s : Parting α), Parted icmp a n v items₀ s →
    (s.pb ≤ s.pc → 0 < icmp (s.items s.pb) v) → s.pc + 1 - s.pb < fuel →
    ∃ t, scanDown icmp a n fuel s = some t ∧ Parted icmp a n v items₀ t ∧ t.pb = s.pb ∧ t.pc ≤ s.pc ∧
      (t.pb ≤ t.pc → 0 < icmp (t.items t.pb) v ∧ icmp (t.items t.pc) v < 0)
  | 0, _, _, _, hfuel => absurd hfuel (Nat.not_lt_zero _)
  | fuel + 1, s, h, hgt, hfuel => by
    rw [scanDown]
    by_cases hle : s.pb ≤ s.pc
    · rw [if_pos hle, cmp_eq icmp s.items (h.pc_mem hle) (by have := h.pb_mem hle; omega), h.front]
      dsimp only
      have hpos₁ : 0 < s.pc := by
        have := h.lt_pa
        have := h.pa_le
        omega
      rcases lt_trichotomy (icmp (s.items s.pc) v) 0 with hneg | hzero | hpos
      · rw [if_neg hneg.not_ge]
        exact ⟨s, rfl, h, rfl, le_rfl, fun _ => ⟨hgt hle, hneg⟩⟩
      · have hne : s.pb ≠ s.pc := fun heq => by
          have := hgt hle
          rw [heq] at this
          exact this.ne' hzero
        have hpd : a ≤ s.pd ∧ s.pd < a + n := by
          have := h.pc_mem hle
          have := h.pc_le
          have := h.pd_lt
          omega
        rw [if_pos hzero.ge, if_pos hzero, swap_eq s.items (h.pc_mem hle) hpd, Option.bind_some]
        have hgt' : exchange s.items s.pc s.pd s.pb = s.items s.pb :=
          ArrayHeap.exchange_of_ne s.items hne (by have := h.pc_le; omega)
        obtain ⟨t, hscan, ht, hpb, hpc, hend⟩ := scanDown_spec fuel _ (h.equalDown hle hzero)
          (fun _ => by dsimp only; rw [hgt']; exact hgt hle) (by dsimp only; omega)
        exact ⟨t, hscan, ht, hpb, hpc.trans (Nat.sub_le _ _), hend⟩
      · rw [if_pos hpos.le, if_neg hpos.ne']
        obtain ⟨t, hscan, ht, hpb, hpc, hend⟩ := scanDown_spec fuel _ (h.greaterDown hle hpos)
          (fun _ => hgt hle) (by dsimp only; omega)
        exact ⟨t, hscan, ht, hpb, hpc.trans (Nat.sub_le _ _), hend⟩
    · rw [if_neg hle]
      exact ⟨s, rfl, h, rfl, le_rfl, fun hle' => absurd hle' hle⟩

theorem partLoop_spec : ∀ (fuel : ℕ) (s : Parting α), Parted icmp a n v items₀ s → s.pc + 1 - s.pb < fuel →
    ∃ t, partLoop icmp a n fuel s = some t ∧ Parted icmp a n v items₀ t ∧ t.pb = t.pc + 1
  | 0, _, _, hfuel => absurd hfuel (Nat.not_lt_zero _)
  | fuel + 1, s, h, hfuel => by
    have hshort : ∀ t, Parted icmp a n v items₀ t → t.pc + 1 - t.pb < n + 1 := fun t ht => by
      have := ht.lt_pa
      have := ht.pa_le
      have := ht.pc_le
      have := ht.pd_lt
      omega
    obtain ⟨t, hup, ht, htpc, htpb, hgt⟩ := scanUp_spec (n + 1) s h (hshort s h)
    obtain ⟨u, hdown, hu, hupb, hupc, hend⟩ := scanDown_spec (n + 1) t ht hgt (hshort t ht)
    rw [partLoop, hup, Option.bind_some, hdown, Option.bind_some]
    by_cases hcrossed : u.pc < u.pb
    · rw [if_pos hcrossed]
      exact ⟨u, rfl, hu, le_antisymm hu.pb_le hcrossed⟩
    · rw [if_neg hcrossed]
      have hle := not_lt.mp hcrossed
      obtain ⟨hpos, hneg⟩ := hend hle
      have hpc : 0 < u.pc := by
        have := hu.lt_pa
        have := hu.pa_le
        omega
      rw [swap_eq u.items (hu.pb_mem hle) (hu.pc_mem hle), Option.bind_some]
      exact partLoop_spec fuel _ (hu.cross hle hpos hneg) (by dsimp only; omega)

end Parted

/-- The result of the partition, and of moving the items equal to the pivot to the middle. -/
theorem part_spec (h : TotalPreorder icmp) (a : ℕ) (items : ℕ → α) (hn : 7 ≤ n) :
    ∃ s v, part icmp a n items = some s ∧ Parted icmp a n v items s ∧ s.pb = s.pc + 1 := by
  obtain ⟨pm, hpivot, hpm⟩ := pivot_spec icmp a items hn
  have ha : a ≤ a ∧ a < a + n := by omega
  have hstart : Parted icmp a n (exchange items a pm a) items
      ⟨exchange items a pm, a + 1, a + 1, a + (n - 1), a + (n - 1), false⟩ := by
    refine ⟨.of_exchange items ha hpm, rfl, Nat.lt_succ_self a, le_rfl, by dsimp only; omega, le_rfl,
      by dsimp only; omega, fun i hi hi' => ?_, fun i hi hi' => ?_, fun i hi hi' => ?_, fun i hi hi' => ?_⟩ <;>
      dsimp only at hi hi' ⊢
    · rw [le_antisymm (Nat.le_of_lt_succ hi') hi]
      exact h.self _
    · omega
    · omega
    · omega
  obtain ⟨s, hloop, hs, hcrossed⟩ := Parted.partLoop_spec (n + 1) _ hstart (by dsimp only; omega)
  refine ⟨s, _, ?_, hs, hcrossed⟩
  rw [part, hpivot, Option.bind_some, swap_eq items ha hpm, Option.bind_some, hloop]

/-! ### The items equal to the pivot -/

/-- Two parts at the ends, and the items equal to the pivot between them. -/
structure Gathered (icmp : α → α → ℤ) (a n : ℕ) (v : α) (r1 r2 : ℕ) (items : ℕ → α) : Prop where
  lt : r1 + r2 < n
  less : ∀ i, a ≤ i → i < a + r1 → icmp (items i) v < 0
  equal : ∀ i, a + r1 ≤ i → i < a + n - r2 → icmp (items i) v = 0
  greater : ∀ i, a + n - r2 ≤ i → i < a + n → 0 < icmp (items i) v

theorem swapBlocks_spec : ∀ (r v1 v2 : ℕ) (items : ℕ → α), a ≤ v1 → v1 + r ≤ v2 → v2 + r ≤ a + n →
    ∃ items', swapBlocks a n r v1 v2 items = some items' ∧ BlocksExchanged v1 v2 r items items' ∧
      RearrangedOn a (a + n) items items'
  | 0, _, _, items, _, _, _ =>
    ⟨items, rfl, ⟨fun k hk => absurd hk (Nat.not_lt_zero k), fun k hk => absurd hk (Nat.not_lt_zero k),
      fun _ _ _ => rfl⟩, .refl _ _ _⟩
  | r + 1, v1, v2, items, ha, hv, hup => by
    have hv1 : a ≤ v1 ∧ v1 < a + n := by omega
    have hv2 : a ≤ v2 ∧ v2 < a + n := by omega
    obtain ⟨items', hswap, hblocks, hrearranged⟩ := swapBlocks_spec r (v1 + 1) (v2 + 1) (exchange items v1 v2)
      (by omega) (by omega) (by omega)
    refine ⟨items', ?_, hblocks.step hv, (RearrangedOn.of_exchange items hv1 hv2).trans hrearranged⟩
    rw [swapBlocks, swap_eq items hv1 hv2, Option.bind_some, hswap]

theorem Parted.gather_spec {v : α} {items₀ : ℕ → α} {s : Parting α} (h : Parted icmp a n v items₀ s)
    (hcrossed : s.pb = s.pc + 1) (hn : n < 2 ^ 32) :
    ∃ items', gather a n s = some items' ∧ RearrangedOn a (a + n) items₀ items' ∧
      Gathered icmp a n v (s.pb - s.pa) (s.pd - s.pc) items' := by
  obtain ⟨hrearranged, hfront, ha, hpa, hpb, hpc, hpd, hleft, hless, hgreater, hright⟩ := h
  have hr : min (s.pa - a) (s.pb - s.pa) % 2 ^ 32 = min (s.pa - a) (s.pb - s.pa) :=
    Nat.mod_eq_of_lt (by omega)
  have hr' : min (s.pd - s.pc) (a + n - s.pd - 1) % 2 ^ 32 = min (s.pd - s.pc) (a + n - s.pd - 1) :=
    Nat.mod_eq_of_lt (by omega)
  obtain ⟨items₁, hswap₁, hblocks₁, hrearranged₁⟩ :=
    @swapBlocks_spec α a n (min (s.pa - a) (s.pb - s.pa)) a (s.pb - min (s.pa - a) (s.pb - s.pa)) s.items
      le_rfl (by omega) (by omega)
  obtain ⟨items₂, hswap₂, hblocks₂, hrearranged₂⟩ :=
    @swapBlocks_spec α a n (min (s.pd - s.pc) (a + n - s.pd - 1)) s.pb
      (a + n - min (s.pd - s.pc) (a + n - s.pd - 1)) items₁ (by omega) (by omega) (by omega)
  have hfirst : ∀ i, i < s.pb → items₂ i = items₁ i := fun i hi =>
    hblocks₂.other i (by omega) (by omega)
  have hsecond : ∀ i, s.pb ≤ i → i < a + n → items₁ i = s.items i := fun i hi hi' =>
    hblocks₁.other i (by omega) (by omega)
  obtain ⟨hless₁, hequal₁⟩ := hblocks₁.turn (P := fun x => icmp x v = 0) (Q := fun x => icmp x v < 0) rfl
    ha.le hpa rfl hleft hless
  have hgreater₁ : ∀ i, s.pb ≤ i → i < s.pd + 1 → 0 < icmp (items₁ i) v := fun i hi hi' => by
    rw [hsecond i hi (by omega)]
    exact hgreater i (by omega) (by omega)
  have hright₁ : ∀ i, s.pd + 1 ≤ i → i < a + n → icmp (items₁ i) v = 0 := fun i hi hi' => by
    rw [hsecond i (by omega) hi']
    exact hright i hi hi'
  obtain ⟨hequal₂, hgreater₂⟩ := hblocks₂.turn (p := s.pd + 1) (P := fun x => 0 < icmp x v)
    (Q := fun x => icmp x v = 0) (by omega) (by omega) (by omega) rfl hgreater₁ hright₁
  refine ⟨items₂, ?_, hrearranged.trans (hrearranged₁.trans hrearranged₂), by omega, fun i hi hi' => ?_,
    fun i hi hi' => ?_, fun i hi hi' => ?_⟩
  · rw [gather]
    dsimp only
    rw [hr, hr', hswap₁, Option.bind_some, hswap₂]
  · rw [hfirst i (by omega)]
    exact hless₁ i hi hi'
  · by_cases hmiddle : i < s.pb
    · rw [hfirst i hmiddle]
      exact hequal₁ i hi hmiddle
    · exact hequal₂ i (by omega) (by omega)
  · exact hgreater₂ i (by omega) hi'

end JSort

end HpccPlatform
