import HpccPlatform.JSort.Sorting
import HpccPlatform.Library.StableSort

/-!
# The stable quicksort

The stable sort puts the addresses of the rows of a copy in order, equal rows by their addresses, and
then fetches the rows.  The array of the rows itself is used for the addresses.
-/

namespace HpccPlatform

namespace JSort

open ArrayHeap (exchange exchange_left exchange_right exchange_of_ne)

open ArrayRange

variable {α : Type*}

/-- A word of the array of rows: a row, or the place of one in the copy. -/
inductive Word (α : Type*)
  | row (r : α)
  | place (i : ℕ)

section Text

variable (compare : α → α → ℤ)

def qsortvec (fuel a n : ℕ) (items : ℕ → α) : Option (ℕ → α) := qsort compare fuel a n items

def cmpicindstable (rows : ℕ → α) (a b : ℕ) : ℤ :=
  let ret := compare (rows a) (rows b)
  if ret = 0 then if b < a then 1 else if a < b then -1 else ret
  else ret

def doqsortvecstable (rows : ℕ → α) (fuel a n : ℕ) (index : ℕ → ℕ) : Option (ℕ → ℕ) :=
  qsort (cmpicindstable compare rows) fuel a n index

/-- `index[i]` is the address of the row `i` at first. -/
def qsortvecstable (fuel n : ℕ) (rows : ℕ → α) : Option (ℕ → ℕ) :=
  doqsortvecstable compare rows fuel 0 n fun i => i

/-- The copy made by `memcpy`. -/
def copyRows (n : ℕ) (rows temp : ℕ → α) (i : ℕ) : α := if i < n then rows i else temp i

/-- `rounds` rounds of the loop that fetches the rows, from `i` on.  There is no result if a word is not the
address of one of `n` rows. -/
def fetchRows (n : ℕ) (temp : ℕ → α) : ℕ → ℕ → (ℕ → Word α) → Option (ℕ → Word α)
  | 0, _, words => some words
  | rounds + 1, i, words =>
    match words i with
    | .row _ => none
    | .place p =>
      if p < n then fetchRows n temp rounds (i + 1) (Function.update words i (.row (temp p))) else none

def qsortvecstableinplace (fuel n : ℕ) (rows temp : ℕ → α) : Option (ℕ → Word α) :=
  (qsortvecstable compare fuel n (copyRows n rows temp)).bind fun index =>
    fetchRows n (copyRows n rows temp) n 0 fun i => if i < n then .place (index i) else .row (rows i)

end Text

variable {compare : α → α → ℤ} {n : ℕ} {rows temp : ℕ → α} {index index' : ℕ → ℕ}

/-- A result with the first `n` rows in their stable order, and all others where they were. -/
def StablySorts (compare : α → α → ℤ) (n : ℕ) (rows : ℕ → α) (r : Option (ℕ → Word α)) : Prop :=
  ∃ rows' : ℕ → α, r = some (fun i => .row (rows' i)) ∧ (∀ i, n ≤ i → rows' i = rows i) ∧
    IsStableSort compare ((List.range n).map rows) ((List.range n).map rows')

/-- The index has the same rows from `lo` up to `up` as when it is sorted there. -/
def RowsInOrder (compare : α → α → ℤ) (rows : ℕ → α) (lo up : ℕ) (index : ℕ → ℕ) : Prop :=
  ∃ index', RearrangedOn lo up index index' ∧ SortedOn (cmpicindstable compare rows) lo up index' ∧
    ∀ i, lo ≤ i → i < up → rows (index' i) = rows (index i)

/-- No part of `2 ^ 31` rows or more is out of order after the first partition of the index. -/
def RowPartsInOrder (compare : α → α → ℤ) (n : ℕ) (rows : ℕ → α) : Prop :=
  ∀ s index, part (cmpicindstable compare rows) 0 n (fun i => i) = some s → gather 0 n s = some index →
    (2 ^ 31 ≤ s.pb - s.pa → RowsInOrder compare rows 0 (s.pb - s.pa) index) ∧
      (2 ^ 31 ≤ s.pd - s.pc → RowsInOrder compare rows (n - (s.pd - s.pc)) n index)

/-! ### The order of the index -/

theorem cmpicindstable_nonpos {a b : ℕ} : cmpicindstable compare rows a b ≤ 0 ↔
    compare (rows a) (rows b) ≤ 0 ∧ (compare (rows a) (rows b) = 0 → a ≤ b) := by
  unfold cmpicindstable
  dsimp only
  by_cases heq : compare (rows a) (rows b) = 0
  · rw [if_pos heq, heq]
    by_cases hgt : b < a
    · rw [if_pos hgt]
      exact iff_of_false (by decide) fun hle => absurd (hle.2 rfl) (not_le.mpr hgt)
    · rw [if_neg hgt]
      refine iff_of_true ?_ ⟨le_rfl, fun _ => not_lt.mp hgt⟩
      split_ifs <;> decide
  · rw [if_neg heq]
    exact ⟨fun hle => ⟨hle, fun h => absurd h heq⟩, fun hle => hle.1⟩

theorem cmpicindstable_pos {a b : ℕ} : 0 < cmpicindstable compare rows a b ↔
    0 < compare (rows a) (rows b) ∨ compare (rows a) (rows b) = 0 ∧ b < a := by
  rw [← not_le, cmpicindstable_nonpos]
  constructor
  · intro hnot
    by_cases hle : compare (rows a) (rows b) ≤ 0
    · by_contra hcon
      exact hnot ⟨hle, fun heq => not_lt.mp fun hlt => hcon (Or.inr ⟨heq, hlt⟩)⟩
    · exact Or.inl (not_le.mp hle)
  · rintro (hpos | ⟨heq, hlt⟩) ⟨hle, hplace⟩
    · exact absurd hpos (not_lt.mpr hle)
    · exact absurd (hplace heq) (not_le.mpr hlt)

theorem cmpicindstable_neg {a b : ℕ} : cmpicindstable compare rows a b < 0 ↔
    compare (rows a) (rows b) < 0 ∨ compare (rows a) (rows b) = 0 ∧ a < b := by
  unfold cmpicindstable
  dsimp only
  by_cases heq : compare (rows a) (rows b) = 0
  · rw [if_pos heq, heq]
    rcases lt_trichotomy a b with hlt | rfl | hgt
    · rw [if_neg hlt.not_gt, if_pos hlt]
      exact iff_of_true (by decide) (Or.inr ⟨rfl, hlt⟩)
    · rw [if_neg (lt_irrefl a)]
      simp
    · rw [if_pos hgt]
      exact iff_of_false (by decide) fun h => h.elim (by decide) fun h => absurd h.2 hgt.not_gt
  · rw [if_neg heq]
    exact ⟨Or.inl, fun h => h.resolve_right fun h => heq h.1⟩

theorem totalPreorder_cmpicindstable (h : TotalPreorder compare) (rows : ℕ → α) :
    TotalPreorder (cmpicindstable compare rows) where
  swap a b := by
    rw [cmpicindstable_pos, cmpicindstable_neg, h.swap, h.zero_comm]
  trans a b c hab hbc := by
    rw [cmpicindstable_nonpos] at hab hbc ⊢
    refine ⟨h.trans _ _ _ hab.1 hbc.1, fun heq => ?_⟩
    -- if the ends are equal, so is the row between them
    have hac : compare (rows c) (rows a) ≤ 0 := (h.zero_comm.mp heq).le
    have hba : compare (rows b) (rows a) ≤ 0 := h.trans _ _ _ hbc.1 hac
    have hcb : compare (rows c) (rows b) ≤ 0 := h.trans _ _ _ hac hab.1
    exact (hab.2 (le_antisymm hab.1 (h.nonneg_iff.mpr hba))).trans
      (hbc.2 (le_antisymm hbc.1 (h.nonneg_iff.mpr hcb)))

/-! ### The rows are fetched -/

theorem fetchRows_eq (hindex : ∀ i < n, index i < n) : ∀ (rounds i : ℕ) (words : ℕ → Word α),
    i + rounds = n → (∀ j, i ≤ j → j < n → words j = .place (index j)) →
    fetchRows n temp rounds i words =
      some fun j => if i ≤ j ∧ j < n then .row (temp (index j)) else words j
  | 0, i, words, hi, _ => by
    rw [fetchRows, Option.some_inj]
    funext j
    rw [if_neg (by omega)]
  | rounds + 1, i, words, hi, hwords => by
    have hin : i < n := by omega
    rw [fetchRows, hwords i le_rfl hin]
    dsimp only
    rw [if_pos (hindex i hin), fetchRows_eq hindex rounds (i + 1) _ (by omega) fun j hj hjn => by
      rw [Function.update_of_ne (by omega)]
      exact hwords j (by omega) hjn]
    rw [Option.some_inj]
    funext j
    by_cases hji : j = i
    · subst hji
      rw [if_neg (by omega), if_pos ⟨le_rfl, hin⟩, Function.update_self]
    · rw [Function.update_of_ne hji]
      exact if_congr (by omega) rfl rfl

theorem index_lt (h : RearrangedOn 0 n (fun i => i) index) : ∀ i < n, index i < n := fun i hi =>
  h.forall_mem (P := fun i => i < n) (fun _ _ hi => hi) i (Nat.zero_le i) hi

theorem qsortvecstableinplace_eq {fuel : ℕ} (hindex : ∀ i < n, index i < n)
    (hsort : qsort (cmpicindstable compare (copyRows n rows temp)) fuel 0 n (fun i => i) = some index) :
    qsortvecstableinplace compare fuel n rows temp =
      some fun i => .row (if i < n then copyRows n rows temp (index i) else rows i) := by
  rw [qsortvecstableinplace, qsortvecstable, doqsortvecstable, hsort, Option.bind_some,
    fetchRows_eq hindex n 0 _ (Nat.zero_add n) fun j _ hj => if_pos hj, Option.some_inj]
  funext i
  by_cases hi : i < n
  · rw [if_pos ⟨Nat.zero_le i, hi⟩, if_pos hi]
  · rw [if_neg fun hin => hi hin.2, if_neg hi, if_neg hi]

theorem map_copyRows (rows temp : ℕ → α) :
    (List.range n).map (copyRows n rows temp) = (List.range n).map rows :=
  List.map_congr_left fun _ hi => if_pos (List.mem_range.mp hi)

/-! ### The stable sort -/

theorem isStableSort_of_sorted (h : TotalPreorder compare) (hall : RearrangedOn 0 n (fun i => i) index)
    (hsorted : SortedOn (cmpicindstable compare rows) 0 n index) :
    IsStableSort compare ((List.range n).map rows) ((List.range n).map fun i => rows (index i)) := by
  have hplaces : ((List.range n).map index).Perm (List.range n) := by
    simpa using hall.perm_range
  have hpairs : ((List.range n).map index).Pairwise fun i j =>
      compare (rows i) (rows j) ≤ 0 ∧ (compare (rows i) (rows j) = 0 → i ≤ j) := by
    refine List.pairwise_map.mpr (List.pairwise_lt_range.imp_of_mem fun _ hj hij => ?_)
    exact cmpicindstable_nonpos.mp (hsorted _ _ (Nat.zero_le _) hij (List.mem_range.mp hj))
  have hstable := IsStableSort.of_places h hplaces hpairs
  rwa [List.map_map] at hstable

/-- The rows are sorted exactly if the one part that has not been sorted needs no sorting. -/
theorem isStableSort_iff_rowsInOrder (h : TotalPreorder compare) {lo up : ℕ}
    (hsame : ∀ i, lo ≤ i → i < up → index' i = index i) (hlo : lo ≤ up) (hup : up ≤ n)
    (hjoin : ∀ index'', RearrangedOn lo up index' index'' →
      SortedOn (cmpicindstable compare rows) lo up index'' →
      RearrangedOn 0 n (fun i => i) index'' ∧ SortedOn (cmpicindstable compare rows) 0 n index'') :
    IsStableSort compare ((List.range n).map rows) ((List.range n).map fun i => rows (index' i)) ↔
      RowsInOrder compare rows lo up index := by
  constructor
  · intro hstable
    obtain ⟨sorted, -, hsort, hsorted⟩ :=
      insertionSort_spec (totalPreorder_cmpicindstable h rows) lo (up - lo) index
    rw [Nat.add_sub_cancel' hlo] at hsort hsorted
    obtain ⟨index'', hall, hsame'⟩ := hsort.transport hsame
    obtain ⟨hplaces, hsorted'⟩ := hjoin index'' hall (hsorted.congr hsame')
    -- there is one stable sort only
    have hlist := (isStableSort_of_sorted h hplaces hsorted').unique h hstable
    refine ⟨sorted, hsort, hsorted, fun i hi hi' => ?_⟩
    have hrow := List.map_inj_left.mp hlist i (List.mem_range.mpr (hi'.trans_le hup))
    rw [hsame' i hi hi', hsame i hi hi'] at hrow
    exact hrow
  · rintro ⟨sorted, hsort, hsorted, hrows⟩
    obtain ⟨index'', hall, hsame'⟩ := hsort.transport hsame
    obtain ⟨hplaces, hsorted'⟩ := hjoin index'' hall (hsorted.congr hsame')
    have hlist : ((List.range n).map fun i => rows (index' i)) =
        (List.range n).map fun i => rows (index'' i) := by
      refine List.map_congr_left fun i _ => ?_
      by_cases hin : lo ≤ i ∧ i < up
      · rw [hsame' i hin.1 hin.2, hrows i hin.1 hin.2, hsame i hin.1 hin.2]
      · rw [hall.outside (by omega)]
    rw [hlist]
    exact isStableSort_of_sorted h hplaces hsorted'

/-- The result of a sorted index is the stable sort exactly if its rows are. -/
theorem stablySorts_iff {fuel : ℕ} (hall : RearrangedOn 0 n (fun i => i) index)
    (hsort : qsort (cmpicindstable compare (copyRows n rows temp)) fuel 0 n (fun i => i) = some index) :
    StablySorts compare n rows (qsortvecstableinplace compare fuel n rows temp) ↔
      IsStableSort compare ((List.range n).map (copyRows n rows temp))
        ((List.range n).map fun i => copyRows n rows temp (index i)) := by
  have hresult := qsortvecstableinplace_eq (index_lt hall) hsort
  have hlist : ((List.range n).map fun i => if i < n then copyRows n rows temp (index i) else rows i) =
      (List.range n).map fun i => copyRows n rows temp (index i) :=
    List.map_congr_left fun i hi => if_pos (List.mem_range.mp hi)
  rw [map_copyRows]
  constructor
  · rintro ⟨rows', hrows, -, hstable⟩
    rw [hresult, Option.some_inj] at hrows
    have hrows' : rows' = fun i => if i < n then copyRows n rows temp (index i) else rows i :=
      funext fun i => (Word.row.inj (congrFun hrows i)).symm
    rwa [hrows', hlist] at hstable
  · intro hstable
    exact ⟨_, hresult, fun i hi => if_neg (not_lt.mpr hi), by rwa [hlist]⟩

theorem PartsSorted.isStableSort_iff (h : TotalPreorder compare) {r1 r2 v : ℕ}
    (hparts : PartsSorted (cmpicindstable compare rows) 0 n r1 r2 index index')
    (hgathered : Gathered (cmpicindstable compare rows) 0 n v r1 r2 index)
    (hall : RearrangedOn 0 n (fun i => i) index) :
    IsStableSort compare ((List.range n).map rows) ((List.range n).map fun i => rows (index' i)) ↔
      (2 ^ 31 ≤ r1 → RowsInOrder compare rows 0 r1 index) ∧
        (2 ^ 31 ≤ r2 → RowsInOrder compare rows (n - r2) n index) := by
  have htotal := totalPreorder_cmpicindstable h rows
  have hlt := hgathered.lt
  cases hparts with
  | both hr1 hr2 hrearranged hsorted =>
    rw [Nat.zero_add] at hrearranged hsorted
    exact iff_of_true (isStableSort_of_sorted h (hall.trans hrearranged) hsorted)
      ⟨fun hle => absurd hle (not_le.mpr hr1), fun hle => absurd hle (not_le.mpr hr2)⟩
  | longLeft hr1 hr2 hright hsorted =>
    rw [imp_iff_right hr1, and_iff_left fun hle => absurd hle (not_le.mpr hr2)]
    refine isStableSort_iff_rowsInOrder h (fun i _ hi => hright.outside (Or.inl (by omega))) (Nat.zero_le r1)
      (by omega) fun index'' hleft hsorted' => ?_
    have hboth := hgathered.rightLeft htotal hright hsorted (by rwa [Nat.zero_add]) (by rwa [Nat.zero_add])
    rw [Nat.zero_add] at hboth
    exact ⟨hall.trans hboth.1, hboth.2⟩
  | longRight hr1 hr2 hleft hsorted =>
    rw [imp_iff_right hr2, and_iff_right fun hle => absurd hle (not_le.mpr hr1)]
    refine isStableSort_iff_rowsInOrder h (fun i hi _ => hleft.outside (Or.inr (by omega))) (Nat.sub_le n r2)
      le_rfl fun index'' hright hsorted' => ?_
    have hboth := hgathered.leftRight htotal hleft hsorted (by rwa [Nat.zero_add]) (by rwa [Nat.zero_add])
    rw [Nat.zero_add] at hboth
    exact ⟨hall.trans hboth.1, hboth.2⟩

theorem qsortvecstableinplace_iff (h : TotalPreorder compare) (hn : n < 2 ^ 32) (rows temp : ℕ → α) :
    (∃ fuel, StablySorts compare n rows (qsortvecstableinplace compare fuel n rows temp)) ↔
      (2 ^ 31 ≤ n → RowPartsInOrder compare n (copyRows n rows temp)) := by
  have htotal := totalPreorder_cmpicindstable h (copyRows n rows temp)
  rcases Nat.lt_or_ge n (2 ^ 31) with hsmall | hlarge
  · refine iff_of_true ⟨n + 1, ?_⟩ fun hle => absurd hle (not_le.mpr hsmall)
    obtain ⟨index, hsort, hall, hsorted⟩ := qsort_sorts htotal 0 (fun i => i) hsmall
    rw [Nat.zero_add] at hall hsorted
    exact (stablySorts_iff hall hsort).mpr (isStableSort_of_sorted h hall hsorted)
  obtain ⟨s, v, index₁, hpart, hgather, hall, hgathered, hresult⟩ :=
    qsort_long htotal 0 (fun i => i) hlarge hn
  have hrearranged : ∀ {index}, PartsSorted (cmpicindstable compare (copyRows n rows temp)) 0 n
      (s.pb - s.pa) (s.pd - s.pc) index₁ index → RearrangedOn 0 n (fun i => i) index := fun hparts => by
    have htrans := hall.trans (hparts.rearranged hgathered.lt)
    rwa [Nat.zero_add] at htrans
  rw [Nat.zero_add] at hall
  rw [imp_iff_right hlarge, RowPartsInOrder, forall_parts hpart hgather]
  constructor
  · rintro ⟨fuel, hstable⟩
    rcases hresult fuel with ⟨index, hsort, hparts⟩ | ⟨-, hnone⟩
    · exact (hparts.isStableSort_iff h hgathered hall).mp
        ((stablySorts_iff (hrearranged hparts) hsort).mp hstable)
    · obtain ⟨rows', hrows, -⟩ := hstable
      rw [qsortvecstableinplace, qsortvecstable, doqsortvecstable, hnone] at hrows
      cases hrows
  · intro horder
    obtain ⟨index, hsort, hparts⟩ := (hresult (n + 1)).resolve_right fun hfew =>
      absurd hfew.1 (Nat.not_succ_le_self n)
    exact ⟨n + 1, (stablySorts_iff (hrearranged hparts) hsort).mpr
      ((hparts.isStableSort_iff h hgathered hall).mpr horder)⟩

/-! ### Both sorts -/

/-- `qsortvec` sorts, and `qsortvecstableinplace` sorts stably, exactly if the first partition leaves no part
of `2 ^ 31` items or more that is out of order. -/
theorem qsortvec_sorts_iff (h : TotalPreorder compare) (hn : n < 2 ^ 32) (a : ℕ) (rows temp : ℕ → α) :
    ((∃ fuel, SortsRange compare a (a + n) rows (qsortvec compare fuel a n rows)) ↔
      (2 ^ 31 ≤ n → PartsInOrder compare a n rows)) ∧
    ((∃ fuel, StablySorts compare n rows (qsortvecstableinplace compare fuel n rows temp)) ↔
      (2 ^ 31 ≤ n → RowPartsInOrder compare n (copyRows n rows temp))) :=
  ⟨qsort_iff h hn a rows, qsortvecstableinplace_iff h hn rows temp⟩

theorem totalPreorder_sub : TotalPreorder fun x y : ℤ => x - y where
  swap _ _ := by omega
  trans _ _ _ _ _ := by omega

theorem qsortvec_sorts_iff_three :
    (∃ fuel, SortsRange (fun x y : ℤ => x - y) 0 (0 + 3) (fun i => -i)
      (qsortvec (fun x y => x - y) fuel 0 3 fun i => -i)) ∧
      ∃ fuel, StablySorts (fun x y : ℤ => x - y) 3 (fun i => -i)
        (qsortvecstableinplace (fun x y => x - y) fuel 3 (fun i => -i) fun _ => 0) :=
  have hsorts := qsortvec_sorts_iff totalPreorder_sub (show 3 < 2 ^ 32 by decide) 0 (fun i => -i) fun _ => 0
  ⟨hsorts.1.mpr fun hle => absurd hle (by decide), hsorts.2.mpr fun hle => absurd hle (by decide)⟩

/-- The loop at `pb` runs over less items. -/
theorem scanUp_run {icmp : α → α → ℤ} {a q : ℕ} {items : ℕ → α} : ∀ (fuel : ℕ) (s : Parting α),
    s.items = items → a ≤ s.pb → s.pb ≤ q → q ≤ s.pc + 1 → s.pc < a + n → q - s.pb < fuel →
    (∀ i, s.pb ≤ i → i < q → icmp (items i) (items a) < 0) →
    (q ≤ s.pc → 0 < icmp (items q) (items a)) → scanUp icmp a n fuel s = some { s with pb := q }
  | 0, _, _, _, _, _, _, hfuel, _, _ => absurd hfuel (Nat.not_lt_zero _)
  | fuel + 1, s, hitems, ha, hq, hpc, hn, hfuel, hless, hend => by
    subst hitems
    rw [scanUp]
    by_cases hlt : s.pb < q
    · have hneg := hless s.pb le_rfl hlt
      rw [if_pos (by omega), cmp_eq icmp s.items (by omega) (by omega)]
      dsimp only
      rw [if_pos hneg.le, if_neg hneg.ne]
      exact scanUp_run fuel _ rfl (by dsimp only; omega) hlt hpc hn (by dsimp only; omega)
        (fun i hi hi' => hless i (Nat.le_of_succ_le hi) hi') hend
    · have heq : s.pb = q := by omega
      by_cases hle : s.pb ≤ s.pc
      · rw [if_pos hle, cmp_eq icmp s.items (by omega) (by omega)]
        dsimp only
        rw [heq, if_neg (hend (heq ▸ hle)).not_ge, ← heq]
      · rw [if_neg hle, ← heq]

/-- The loop at `pc` runs over greater items. -/
theorem scanDown_run {icmp : α → α → ℤ} {a q : ℕ} {items : ℕ → α} : ∀ (fuel : ℕ) (s : Parting α),
    s.items = items → a < s.pb → s.pb ≤ q + 1 → q ≤ s.pc → s.pc < a + n → s.pc - q < fuel →
    (∀ i, q < i → i ≤ s.pc → 0 < icmp (items i) (items a)) →
    (s.pb ≤ q → icmp (items q) (items a) < 0) → scanDown icmp a n fuel s = some { s with pc := q }
  | 0, _, _, _, _, _, _, hfuel, _, _ => absurd hfuel (Nat.not_lt_zero _)
  | fuel + 1, s, hitems, ha, hpb, hq, hn, hfuel, hgreater, hend => by
    subst hitems
    rw [scanDown]
    by_cases hlt : q < s.pc
    · have hpos := hgreater s.pc hlt le_rfl
      rw [if_pos (by omega), cmp_eq icmp s.items (by omega) (by omega)]
      dsimp only
      rw [if_pos hpos.le, if_neg hpos.ne']
      exact scanDown_run fuel _ rfl ha hpb (Nat.le_sub_one_of_lt hlt) (by dsimp only; omega)
        (by dsimp only; omega) (fun i hi hi' => hgreater i hi (hi'.trans (Nat.sub_le _ 1))) hend
    · have heq : s.pc = q := by omega
      by_cases hle : s.pb ≤ s.pc
      · rw [if_pos hle, cmp_eq icmp s.items (by omega) (by omega)]
        dsimp only
        rw [heq, if_neg (hend (heq ▸ hle)).not_ge, ← heq]
      · rw [if_neg hle, ← heq]

/-- More than `2 ^ 31` small rows, of which the second is greater than the others, in front of large ones;
the pivot is in the middle. -/
def lateRows (i : ℕ) : ℤ :=
  if i = 7 * 2 ^ 28 then 2 else if i = 1 then 1 else if 2 ^ 31 < i then 3 else 0

theorem part_lateRows : part (fun x y => x - y) 0 (7 * 2 ^ 29) lateRows =
    some ⟨exchange lateRows 0 (7 * 2 ^ 28), 1, 2 ^ 31 + 1, 2 ^ 31, 7 * 2 ^ 29 - 1, false⟩ := by
  have hpivot : pivot (fun x y => x - y) 0 (7 * 2 ^ 29) lateRows = some (7 * 2 ^ 28) := by decide +kernel
  have hfront : exchange lateRows 0 (7 * 2 ^ 28) 0 = 2 := exchange_left _ _ _
  have hmiddle : exchange lateRows 0 (7 * 2 ^ 28) (7 * 2 ^ 28) = 0 := exchange_right _ _ _
  have hsmall : ∀ i, 0 + 1 ≤ i → i < 2 ^ 31 + 1 → exchange lateRows 0 (7 * 2 ^ 28) i ≤ 1 := fun i hi hi' => by
    by_cases hm : i = 7 * 2 ^ 28
    · rw [hm, hmiddle]
      decide
    · rw [exchange_of_ne _ (by omega) hm, lateRows, if_neg hm]
      split_ifs <;> omega
  have hlarge : ∀ i, 2 ^ 31 < i → exchange lateRows 0 (7 * 2 ^ 28) i = 3 := fun i hi => by
    rw [exchange_of_ne _ (by omega) (by omega), lateRows, if_neg (by omega), if_neg (by omega), if_pos hi]
  have hup : scanUp (fun x y => x - y) 0 (7 * 2 ^ 29) (7 * 2 ^ 29 + 1)
      ⟨exchange lateRows 0 (7 * 2 ^ 28), 1, 1, 7 * 2 ^ 29 - 1, 7 * 2 ^ 29 - 1, false⟩ =
        some ⟨exchange lateRows 0 (7 * 2 ^ 28), 1, 2 ^ 31 + 1, 7 * 2 ^ 29 - 1, 7 * 2 ^ 29 - 1, false⟩ := by
    refine scanUp_run _ _ rfl (by decide) (by decide) (by decide) (by decide) (by decide)
      (fun i hi hi' => ?_) ?_
    · have := hsmall i hi hi'
      dsimp only
      rw [hfront]
      omega
    · intro _
      dsimp only
      rw [hlarge (2 ^ 31 + 1) (by decide), hfront]
      decide
  have hdown : scanDown (fun x y => x - y) 0 (7 * 2 ^ 29) (7 * 2 ^ 29 + 1)
      ⟨exchange lateRows 0 (7 * 2 ^ 28), 1, 2 ^ 31 + 1, 7 * 2 ^ 29 - 1, 7 * 2 ^ 29 - 1, false⟩ =
        some ⟨exchange lateRows 0 (7 * 2 ^ 28), 1, 2 ^ 31 + 1, 2 ^ 31, 7 * 2 ^ 29 - 1, false⟩ := by
    refine scanDown_run _ _ rfl (by decide) (by decide) (by decide) (by decide) (by decide)
      (fun i hi _ => ?_) ?_
    · dsimp only
      rw [hlarge i hi, hfront]
      decide
    · exact fun hle => absurd hle (by decide)
  rw [part, hpivot, Option.bind_some, swap_eq _ (by decide) (by decide), Option.bind_some, partLoop,
    Nat.zero_add, Nat.zero_add, hup, Option.bind_some, hdown, Option.bind_some]
  exact if_pos (by decide)

/-- The left part has `2 ^ 31` rows, and is left as it is. -/
theorem qsortvec_lateRows : ¬∃ fuel, SortsRange (fun x y => x - y) 0 (0 + 7 * 2 ^ 29) lateRows
    (qsortvec (fun x y => x - y) fuel 0 (7 * 2 ^ 29) lateRows) := by
  have hiff := qsort_iff totalPreorder_sub (show 7 * 2 ^ 29 < 2 ^ 32 by decide) 0 lateRows
  intro hsorts
  have horder := hiff.mp hsorts (by decide)
  have hgather : gather 0 (7 * 2 ^ 29)
      ⟨exchange lateRows 0 (7 * 2 ^ 28), 1, 2 ^ 31 + 1, 2 ^ 31, 7 * 2 ^ 29 - 1, false⟩ =
        some (exchange (exchange lateRows 0 (7 * 2 ^ 28)) 0 (2 ^ 31)) := rfl
  have hleft := (horder _ _ part_lateRows hgather).1 (by decide) 1 2 (by decide) (by decide) (by decide)
  rw [exchange_of_ne _ (by decide) (by decide), exchange_of_ne _ (by decide) (by decide),
    exchange_of_ne _ (by decide) (by decide), exchange_of_ne _ (by decide) (by decide)] at hleft
  exact absurd hleft (by decide)

end JSort

end HpccPlatform
