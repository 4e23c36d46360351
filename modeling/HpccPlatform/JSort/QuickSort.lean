import HpccPlatform.Library.ArrayRange

/-!
# Quicksort

The text of `jsort2.inc`, which is compiled into `qsortvec` and `doqsortvecstable`.  Items equal to the
pivot are collected at both ends while the others are parted, and are then moved to the middle.  The
lengths of the two parts are kept in an `int`.
-/

namespace HpccPlatform

namespace JSort

open ArrayHeap (exchange)

variable {α : Type*}

/-- A number in an `int` of 32 bits. -/
def toInt (x : ℕ) : ℤ := if x % 2 ^ 32 < 2 ^ 31 then x % 2 ^ 32 else x % 2 ^ 32 - 2 ^ 32

/-- An `int` in a `size32_t`. -/
def toSize32 (r : ℤ) : ℕ := (r % 2 ^ 32).toNat

/-- The array and the variables of the partition. -/
structure Parting (α : Type*) where
  items : ℕ → α
  pa : ℕ
  pb : ℕ
  pc : ℕ
  pd : ℕ
  swapCnt : Bool

section Text

variable (icmp : α → α → ℤ)

/-! The text for the `n` items from `a` on.  There is no result if a pointer to another item is used. -/

section Range

variable (a n : ℕ)

/-- `CMP` -/
def cmp (items : ℕ → α) (i j : ℕ) : Option ℤ :=
  if (a ≤ i ∧ i < a + n) ∧ a ≤ j ∧ j < a + n then some (icmp (items i) (items j)) else none

/-- `SWAP` -/
def swap (items : ℕ → α) (i j : ℕ) : Option (ℕ → α) :=
  if (a ≤ i ∧ i < a + n) ∧ a ≤ j ∧ j < a + n then some (exchange items i j) else none

/-- The inner loop of the insertion sort, from `pl` on. -/
def insertDown : ℕ → (ℕ → α) → Option (ℕ → α)
  | 0, items => some items
  | pl + 1, items =>
    if a < pl + 1 then
      match cmp icmp a n items pl (pl + 1) with
      | none => none
      | some r =>
        if 0 < r then (swap a n items (pl + 1) pl).bind (insertDown pl) else some items
    else some items

/-- `rounds` rounds of the outer loop, from `pm` on. -/
def insertionLoop : ℕ → ℕ → (ℕ → α) → Option (ℕ → α)
  | 0, _, items => some items
  | rounds + 1, pm, items => (insertDown icmp a n pm items).bind (insertionLoop rounds (pm + 1))

def insertionSort (items : ℕ → α) : Option (ℕ → α) := insertionLoop icmp a n (n - 1) (a + 1) items

/-- `MED3` -/
def med3 (items : ℕ → α) (i j k : ℕ) : Option ℕ :=
  match cmp icmp a n items i j, cmp icmp a n items j k, cmp icmp a n items i k with
  | some ij, some jk, some ik =>
    some (if ij < 0 then if jk < 0 then j else if ik < 0 then k else i
      else if 0 < jk then j else if ik < 0 then i else k)
  | _, _, _ => none

/-- Where the pivot is taken from. -/
def pivot (items : ℕ → α) : Option ℕ :=
  let pm := a + n / 2
  if 7 < n then
    let pl := a
    let pn := a + (n - 1)
    if 40 < n then
      let d := n / 8
      match med3 icmp a n items pl (pl + d) (pl + 2 * d), med3 icmp a n items (pm - d) pm (pm + d),
          med3 icmp a n items (pn - 2 * d) (pn - d) pn with
      | some pl, some pm, some pn => med3 icmp a n items pl pm pn
      | _, _, _ => none
    else med3 icmp a n items pl pm pn
  else some pm

/-- The loop at `pb`. -/
def scanUp : ℕ → Parting α → Option (Parting α)
  | 0, _ => none
  | fuel + 1, s =>
    if s.pb ≤ s.pc then
      match cmp icmp a n s.items s.pb a with
      | none => none
      | some r =>
        if r ≤ 0 then
          if r = 0 then
            (swap a n s.items s.pa s.pb).bind fun items =>
              scanUp fuel { s with items := items, pa := s.pa + 1, pb := s.pb + 1, swapCnt := true }
          else scanUp fuel { s with pb := s.pb + 1 }
        else some s
    else some s

/-- The loop at `pc`. -/
def scanDown : ℕ → Parting α → Option (Parting α)
  | 0, _ => none
  | fuel + 1, s =>
    if s.pb ≤ s.pc then
      match cmp icmp a n s.items s.pc a with
      | none => none
      | some r =>
        if 0 ≤ r then
          if r = 0 then
            (swap a n s.items s.pc s.pd).bind fun items =>
              scanDown fuel { s with items := items, pc := s.pc - 1, pd := s.pd - 1, swapCnt := true }
          else scanDown fuel { s with pc := s.pc - 1 }
        else some s
    else some s

/-- The loop around both. -/
def partLoop : ℕ → Parting α → Option (Parting α)
  | 0, _ => none
  | fuel + 1, s =>
    (scanUp icmp a n (n + 1) s).bind fun s =>
      (scanDown icmp a n (n + 1) s).bind fun s =>
        if s.pc < s.pb then some s
        else
          (swap a n s.items s.pb s.pc).bind fun items =>
            partLoop fuel { s with items := items, pb := s.pb + 1, pc := s.pc - 1, swapCnt := true }

/-- The items parted around a pivot, which is put to the front first. -/
def part (items : ℕ → α) : Option (Parting α) :=
  (pivot icmp a n items).bind fun pm =>
    (swap a n items a pm).bind fun items =>
      partLoop icmp a n (n + 1) ⟨items, a + 1, a + 1, a + (n - 1), a + (n - 1), false⟩

/-- The loops that swap `r` items; `r` is an `int`, and taken to 0 in as many rounds as it has as a number
without a sign. -/
def swapBlocks : ℕ → ℕ → ℕ → (ℕ → α) → Option (ℕ → α)
  | 0, _, _, items => some items
  | r + 1, v1, v2, items => (swap a n items v1 v2).bind (swapBlocks r (v1 + 1) (v2 + 1))

/-- The items equal to the pivot are moved to the middle. -/
def gather (s : Parting α) : Option (ℕ → α) :=
  let pn := a + n
  let r := min (s.pa - a) (s.pb - s.pa) % 2 ^ 32
  (swapBlocks a n r a (s.pb - r) s.items).bind fun items =>
    let r := min (s.pd - s.pc) (pn - s.pd - 1) % 2 ^ 32
    swapBlocks a n r s.pb (pn - r) items

end Range

/-- The calls for the two parts; the last one is the jump to `reloop`. -/
def sortParts (sort : ℕ → ℕ → (ℕ → α) → Option (ℕ → α)) (a n : ℕ) (r1 r2 : ℤ) (items : ℕ → α) :
    Option (ℕ → α) :=
  let pn := a + n
  if r1 < r2 then
    (if 1 < r1 then sort a (toSize32 r1) items else some items).bind (sort (pn - toSize32 r2) (toSize32 r2))
  else
    (if 1 < r2 then sort (pn - toSize32 r2) (toSize32 r2) items else some items).bind (sort a (toSize32 r1))

/-- The text of `jsort2.inc`. -/
def qsort : ℕ → ℕ → ℕ → (ℕ → α) → Option (ℕ → α)
  | 0, _, _, _ => none
  | fuel + 1, a, n, items =>
    if n < 7 then insertionSort icmp a n items
    else
      (part icmp a n items).bind fun s =>
        if s.swapCnt = false ∧ n < 1000 then insertionSort icmp a n s.items
        else
          (gather a n s).bind fun items =>
            sortParts (qsort fuel) a n (toInt (s.pb - s.pa)) (toInt (s.pd - s.pc)) items

end Text

section Spec

open ArrayRange

variable {icmp : α → α → ℤ} {a n : ℕ} {items items' : ℕ → α} {i j k : ℕ}

theorem cmp_eq (icmp : α → α → ℤ) (items : ℕ → α) (hi : a ≤ i ∧ i < a + n) (hj : a ≤ j ∧ j < a + n) :
    cmp icmp a n items i j = some (icmp (items i) (items j)) := if_pos ⟨hi, hj⟩

theorem swap_eq (items : ℕ → α) (hi : a ≤ i ∧ i < a + n) (hj : a ≤ j ∧ j < a + n) :
    swap a n items i j = some (exchange items i j) := if_pos ⟨hi, hj⟩

/-! ### Insertion sort -/

theorem insertDown_spec (h : TotalPreorder icmp) {pm : ℕ} (hpm : pm < a + n) :
    ∀ (pl : ℕ) (items : ℕ → α), a ≤ pl → pl ≤ pm → SortedBut icmp a (pm + 1) pl items →
      ∃ items', insertDown icmp a n pl items = some items' ∧ RearrangedOn a (a + n) items items' ∧
        SortedOn icmp a (pm + 1) items'
  | 0, items, ha, _, hsorted => ⟨items, rfl, .refl _ _ _, hsorted.sortedOn h (Or.inl (Nat.zero_le a))⟩
  | pl + 1, items, ha, hpl, hsorted => by
    rw [insertDown]
    by_cases hfront : a < pl + 1
    · have hpl' : a ≤ pl ∧ pl < a + n := by omega
      have hpl₁ : a ≤ pl + 1 ∧ pl + 1 < a + n := by omega
      rw [if_pos hfront, cmp_eq icmp items hpl' hpl₁]
      dsimp only
      by_cases hgt : 0 < icmp (items pl) (items (pl + 1))
      · rw [if_pos hgt, swap_eq items hpl₁ hpl', Option.bind_some]
        obtain ⟨items', hdown, hrearranged, hsorted'⟩ := insertDown_spec h hpm pl _ hpl'.1
          (Nat.le_of_succ_le hpl) (hsorted.exchange h hpl'.1 (Nat.lt_succ_of_le hpl) hgt)
        exact ⟨items', hdown, (RearrangedOn.of_exchange items hpl₁ hpl').trans hrearranged, hsorted'⟩
      · rw [if_neg hgt]
        exact ⟨items, rfl, .refl _ _ _, hsorted.sortedOn h (Or.inr ⟨pl, rfl, not_lt.mp hgt⟩)⟩
    · rw [if_neg hfront]
      exact ⟨items, rfl, .refl _ _ _, hsorted.sortedOn h (Or.inl (not_lt.mp hfront))⟩

theorem insertionLoop_spec (h : TotalPreorder icmp) : ∀ (rounds pm : ℕ) (items : ℕ → α), a ≤ pm →
    pm + rounds = a + n → SortedOn icmp a pm items →
    ∃ items', insertionLoop icmp a n rounds pm items = some items' ∧
      RearrangedOn a (a + n) items items' ∧ SortedOn icmp a (a + n) items'
  | 0, pm, items, _, hpm, hsorted => ⟨items, rfl, .refl _ _ _, by rwa [← hpm]⟩
  | rounds + 1, pm, items, ha, hpm, hsorted => by
    obtain ⟨items₁, hdown, hrearranged, hsorted₁⟩ :=
      insertDown_spec h (show pm < a + n by omega) pm items ha le_rfl hsorted.sortedBut
    obtain ⟨items', hloop, hrearranged', hsorted'⟩ := insertionLoop_spec h rounds (pm + 1) items₁
      (ha.trans (Nat.le_succ pm)) (by omega) hsorted₁
    refine ⟨items', ?_, hrearranged.trans hrearranged', hsorted'⟩
    rw [insertionLoop, hdown, Option.bind_some, hloop]

theorem insertionSort_spec (h : TotalPreorder icmp) (a n : ℕ) (items : ℕ → α) :
    ∃ items', insertionSort icmp a n items = some items' ∧ RearrangedOn a (a + n) items items' ∧
      SortedOn icmp a (a + n) items' := by
  rcases Nat.eq_zero_or_pos n with rfl | hpos
  · exact ⟨items, rfl, .refl _ _ _, .of_short (Nat.le_succ a)⟩
  · exact insertionLoop_spec h (n - 1) (a + 1) items (Nat.le_succ a) (by omega) (.of_short le_rfl)

/-! ### The pivot -/

theorem med3_spec (icmp : α → α → ℤ) (items : ℕ → α) (hi : a ≤ i ∧ i < a + n) (hj : a ≤ j ∧ j < a + n)
    (hk : a ≤ k ∧ k < a + n) : ∃ m, med3 icmp a n items i j k = some m ∧ a ≤ m ∧ m < a + n := by
  rw [med3, cmp_eq icmp items hi hj, cmp_eq icmp items hj hk, cmp_eq icmp items hi hk]
  refine ⟨_, rfl, ?_⟩
  split_ifs <;> assumption

theorem pivot_spec (icmp : α → α → ℤ) (a : ℕ) (items : ℕ → α) (hn : 7 ≤ n) :
    ∃ pm, pivot icmp a n items = some pm ∧ a ≤ pm ∧ pm < a + n := by
  have hmiddle : a ≤ a + n / 2 ∧ a + n / 2 < a + n := by omega
  unfold pivot
  dsimp only
  by_cases hseven : 7 < n
  · rw [if_pos hseven]
    by_cases hforty : 40 < n
    · rw [if_pos hforty]
      obtain ⟨pl, hpl, hpl'⟩ := med3_spec icmp items (show a ≤ a ∧ a < a + n by omega)
        (show a ≤ a + n / 8 ∧ a + n / 8 < a + n by omega)
        (show a ≤ a + 2 * (n / 8) ∧ a + 2 * (n / 8) < a + n by omega)
      obtain ⟨pm, hpm, hpm'⟩ := med3_spec icmp items
        (show a ≤ a + n / 2 - n / 8 ∧ a + n / 2 - n / 8 < a + n by omega) hmiddle
        (show a ≤ a + n / 2 + n / 8 ∧ a + n / 2 + n / 8 < a + n by omega)
      obtain ⟨pn, hpn, hpn'⟩ := med3_spec icmp items
        (show a ≤ a + (n - 1) - 2 * (n / 8) ∧ a + (n - 1) - 2 * (n / 8) < a + n by omega)
        (show a ≤ a + (n - 1) - n / 8 ∧ a + (n - 1) - n / 8 < a + n by omega)
        (show a ≤ a + (n - 1) ∧ a + (n - 1) < a + n by omega)
      rw [hpl, hpm, hpn]
      exact med3_spec icmp items hpl' hpm' hpn'
    · rw [if_neg hforty]
      exact med3_spec icmp items (by omega) hmiddle (by omega)
  · rw [if_neg hseven]
    exact ⟨_, rfl, hmiddle⟩

end Spec

end JSort

end HpccPlatform
