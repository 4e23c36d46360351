import HpccPlatform.Library.StableSort
import Mathlib.Algebra.Order.Ring.Int

/-!
# The shared binary search

The text of `jsort.inc` is compiled into `binary_add`, `binary_vec_find`, `binary_vec_insert` and
`binary_vec_insert_stable`.  It narrows the range down to one or two items, checks these, and then, as
the macros say, reports the place, or adds the item there or behind the items that equal it.
-/

namespace HpccPlatform

namespace JSort

variable {α : Type*}

/-- The macros `ALWAYS_ADD`, `NEVER_ADD` and `SEEK_LAST_MATCH`. -/
structure Macros where
  alwaysAdd : Bool
  neverAdd : Bool
  seekLastMatch : Bool

/-- The place of the entry that is returned, `ItemAdded`, and the array. -/
structure Outcome (α : Type*) where
  position : ℕ
  itemAdded : Bool
  base : List α

section Text

variable (compare : α → ℤ) (base : List α)

/-- The loop; `inl` is a jump to `Done`.  There is no result if an index is outside of the array or a
subtraction wraps. -/
def narrow : ℕ → ℕ → ℕ → Option (ℕ ⊕ ℕ × ℕ)
  | 0, _, _ => none
  | fuel + 1, left, right =>
    if base.length ≤ right ∨ right < left then none
    else if 1 < right - left then
      let middle := (right + left) >>> 1
      match base[middle]? with
      | none => none
      | some entry =>
        let result := compare entry
        if result < 0 then
          if middle = 0 then none else narrow fuel left (middle - 1)
        else if 0 < result then narrow fuel (middle + 1) right
        else some (.inl middle)
    else some (.inr (left, right))

/-- The check of the last two items: the place, and whether it is that of an equal item. -/
def lastTwo (left right : ℕ) : Option (ℕ × Bool) :=
  match base[left]? with
  | none => none
  | some entry =>
    let result := compare entry
    if result = 0 then some (left, true)
    else if 0 < result then
      if right = left + 1 then
        match base[left + 1]? with
        | none => none
        | some entry =>
          let result := compare entry
          if result = 0 then some (left + 1, true)
          else if 0 < result then some (left + 2, false)
          else some (left + 1, false)
      else some (left + 1, false)
    else some (left, false)

/-- The text up to the labels `AddEntry` and `Done`, with whether it jumps to `Done`. -/
def search : Option (ℕ × Bool) :=
  if base.length = 0 then some (0, false)
  else
    match narrow compare base base.length 0 (base.length - 1) with
    | some (.inl middle) => some (middle, true)
    | some (.inr (left, right)) => lastTwo compare base left right
    | none => none

/-- The loop of `SEEK_LAST_MATCH`. -/
def seek : ℕ → ℕ → ℕ
  | 0, middle => middle
  | fuel + 1, middle =>
    match base[middle]? with
    | some entry => if compare entry = 0 then seek fuel (middle + 1) else middle
    | none => middle

/-- The text of `jsort.inc`. -/
def jsortInc (macros : Macros) (newitem : α) : Option (Outcome α) :=
  match search compare base with
  | none => none
  | some (middle, done) =>
    if base.length < middle then none
    else if (done && !macros.alwaysAdd) = true then some ⟨middle, false, base⟩
    else if macros.neverAdd then some ⟨middle, true, base⟩
    else
      let middle := if macros.seekLastMatch then seek compare base (base.length - middle) middle else middle
      some ⟨middle, true, base.take middle ++ newitem :: base.drop middle⟩

end Text

variable (icmp : α → α → ℤ) (newitem : α) (base : List α)

/-- `binary_add`, for items of any width -/
def binary_add : Option (Outcome α) := jsortInc (icmp newitem) base ⟨false, false, false⟩ newitem

/-- `binary_vec_find`, for both kinds of comparisons -/
def binary_vec_find : Option (Outcome α) := jsortInc (icmp newitem) base ⟨false, true, false⟩ newitem

def binary_vec_insert : Option (ℕ × List α) :=
  (jsortInc (icmp newitem) base ⟨true, false, false⟩ newitem).map fun r => (r.position, r.base)

def binary_vec_insert_stable : Option (ℕ × List α) :=
  (jsortInc (icmp newitem) base ⟨true, false, true⟩ newitem).map fun r => (r.position, r.base)

/-! ### The search -/

section Search

variable {compare : α → ℤ} {base : List α} {left right middle : ℕ} {entry : α}

/-- The item comes after a first part of the array and before a last part. -/
def Ordered (compare : α → ℤ) (base : List α) : Prop :=
  base.Pairwise fun a b => (0 < compare b → 0 < compare a) ∧ (compare a < 0 → compare b < 0)

/-- What the loop keeps: the item comes after all in front of `left` and before all behind `right`. -/
structure Narrowed (compare : α → ℤ) (base : List α) (left right : ℕ) : Prop where
  le : left ≤ right
  lt : right < base.length
  before : ∀ b ∈ base.take left, 0 < compare b
  behind : ∀ b ∈ base.drop (right + 1), compare b < 0

/-- The item has its place between two parts of the array. -/
structure IsPlace (compare : α → ℤ) (base : List α) (p : ℕ) : Prop where
  le : p ≤ base.length
  before : ∀ b ∈ base.take p, 0 < compare b
  behind : ∀ b ∈ base.drop p, compare b < 0

/-- There is an equal item. -/
def IsEqualAt (compare : α → ℤ) (base : List α) (p : ℕ) : Prop :=
  ∃ entry, base[p]? = some entry ∧ compare entry = 0

theorem Ordered.before (h : Ordered compare base) (hentry : base[middle]? = some entry) {b : α}
    (hb : b ∈ base.take middle) :
    (0 < compare entry → 0 < compare b) ∧ (compare b < 0 → compare entry < 0) := by
  obtain ⟨hlt, rfl⟩ := List.getElem?_eq_some_iff.mp hentry
  unfold Ordered at h
  rw [← List.take_append_drop middle base, List.pairwise_append] at h
  refine h.2.2 b hb _ ?_
  rw [List.drop_eq_getElem_cons hlt]
  exact List.mem_cons_self

theorem Ordered.behind (h : Ordered compare base) (hentry : base[middle]? = some entry) {b : α}
    (hb : b ∈ base.drop (middle + 1)) :
    (0 < compare b → 0 < compare entry) ∧ (compare entry < 0 → compare b < 0) := by
  obtain ⟨hlt, rfl⟩ := List.getElem?_eq_some_iff.mp hentry
  have hdrop : (base.drop middle).Pairwise _ := List.Pairwise.drop h
  rw [List.drop_eq_getElem_cons hlt] at hdrop
  exact (List.pairwise_cons.mp hdrop).1 b hb

/-- The item at a place, or an item in front of it. -/
theorem mem_take_succ_cases (hentry : base[middle]? = some entry) {b : α}
    (hb : b ∈ base.take (middle + 1)) : b ∈ base.take middle ∨ b = entry := by
  obtain ⟨hlt, rfl⟩ := List.getElem?_eq_some_iff.mp hentry
  rwa [List.take_succ_eq_append_getElem hlt, List.mem_append, List.mem_singleton] at hb

/-- The item at a place, or an item behind it. -/
theorem mem_drop_cases (hentry : base[middle]? = some entry) {b : α} (hb : b ∈ base.drop middle) :
    b = entry ∨ b ∈ base.drop (middle + 1) := by
  obtain ⟨hlt, rfl⟩ := List.getElem?_eq_some_iff.mp hentry
  rwa [List.drop_eq_getElem_cons hlt, List.mem_cons] at hb

theorem Ordered.take_pos (h : Ordered compare base) (hentry : base[middle]? = some entry)
    (hpos : 0 < compare entry) : ∀ b ∈ base.take (middle + 1), 0 < compare b := by
  intro b hb
  rcases mem_take_succ_cases hentry hb with hb | rfl
  · exact (h.before hentry hb).1 hpos
  · exact hpos

theorem Ordered.drop_neg (h : Ordered compare base) (hentry : base[middle]? = some entry)
    (hneg : compare entry < 0) : ∀ b ∈ base.drop middle, compare b < 0 := by
  intro b hb
  rcases mem_drop_cases hentry hb with rfl | hb
  · exact hneg
  · exact (h.behind hentry hb).2 hneg

/-- The loop jumps to `Done` at an equal item, or leaves one or two items. -/
theorem narrow_spec (h : Ordered compare base) : ∀ (fuel left right : ℕ),
    Narrowed compare base left right → right - left < fuel →
    (∃ p, narrow compare base fuel left right = some (.inl p) ∧ IsEqualAt compare base p) ∨
      ∃ l r, narrow compare base fuel left right = some (.inr (l, r)) ∧ Narrowed compare base l r ∧
        r ≤ l + 1
  | 0, left, right, _, hfuel => absurd hfuel (Nat.not_lt_zero _)
  | fuel + 1, left, right, hn, hfuel => by
    rw [narrow, if_neg (not_or.mpr ⟨not_le.mpr hn.lt, not_lt.mpr hn.le⟩)]
    by_cases hwide : 1 < right - left
    · rw [if_pos hwide]
      have hmiddle : (right + left) >>> 1 = (right + left) / 2 := Nat.shiftRight_eq_div_pow _ 1
      have hleft : left < (right + left) / 2 := by omega
      have hright : (right + left) / 2 < right := by omega
      dsimp only
      rw [hmiddle]
      generalize (right + left) / 2 = middle at hleft hright
      have hlt := hright.trans hn.lt
      have hentry := List.getElem?_eq_getElem hlt
      rw [hentry]
      dsimp only
      rcases lt_trichotomy (compare base[middle]) 0 with hneg | hzero | hpos
      · rw [if_pos hneg, if_neg (Nat.ne_zero_of_lt hleft)]
        refine narrow_spec h fuel left (middle - 1) ⟨Nat.le_sub_one_of_lt hleft,
          (Nat.sub_le _ _).trans_lt (hright.trans hn.lt), hn.before, ?_⟩ (by omega)
        rw [Nat.sub_add_cancel (Nat.one_le_of_lt hleft)]
        exact h.drop_neg hentry hneg
      · rw [if_neg hzero.not_lt, if_neg hzero.not_gt]
        exact Or.inl ⟨middle, rfl, base[middle], hentry, hzero⟩
      · rw [if_neg hpos.not_gt, if_pos hpos]
        exact narrow_spec h fuel (middle + 1) right ⟨hright, hn.lt, h.take_pos hentry hpos, hn.behind⟩
          (by omega)
    · rw [if_neg hwide]
      exact Or.inr ⟨left, right, rfl, hn, by omega⟩

/-- A place that the text has found, with the flag of the jump to `Done`. -/
def Located (compare : α → ℤ) (base : List α) (r : ℕ × Bool) : Prop :=
  if r.2 = true then IsEqualAt compare base r.1 else IsPlace compare base r.1

theorem lastTwo_spec (h : Ordered compare base) (hn : Narrowed compare base left right)
    (hlast : right ≤ left + 1) :
    ∃ r, lastTwo compare base left right = some r ∧ Located compare base r := by
  have hlt := hn.le.trans_lt hn.lt
  have hentry := List.getElem?_eq_getElem hlt
  unfold lastTwo
  rw [hentry]
  change ∃ r, (if compare base[left] = 0 then _ else _) = some r ∧ _
  rcases lt_trichotomy (compare base[left]) 0 with hneg | hzero | hpos
  · rw [if_neg hneg.ne, if_neg hneg.not_gt]
    exact ⟨(left, false), rfl, hlt.le, hn.before, h.drop_neg hentry hneg⟩
  · rw [if_pos hzero]
    exact ⟨(left, true), rfl, base[left], hentry, hzero⟩
  rw [if_neg hpos.ne', if_pos hpos]
  by_cases htwo : right = left + 1
  · rw [if_pos htwo]
    subst htwo
    have hlt' := hn.lt
    have hentry' := List.getElem?_eq_getElem hlt'
    rw [hentry']
    change ∃ r, (if compare base[left + 1] = 0 then _ else _) = some r ∧ _
    rcases lt_trichotomy (compare base[left + 1]) 0 with hneg' | hzero' | hpos'
    · rw [if_neg hneg'.ne, if_neg hneg'.not_gt]
      exact ⟨(left + 1, false), rfl, hlt, h.take_pos hentry hpos, h.drop_neg hentry' hneg'⟩
    · rw [if_pos hzero']
      exact ⟨(left + 1, true), rfl, base[left + 1], hentry', hzero'⟩
    · rw [if_neg hpos'.ne', if_pos hpos']
      exact ⟨(left + 2, false), rfl, hn.lt, h.take_pos hentry' hpos', hn.behind⟩
  · rw [if_neg htwo]
    have hone : right = left := le_antisymm (Nat.le_of_lt_succ (lt_of_le_of_ne hlast htwo)) hn.le
    subst hone
    exact ⟨(right + 1, false), rfl, hlt, h.take_pos hentry hpos, hn.behind⟩

theorem search_spec (h : Ordered compare base) :
    ∃ r, search compare base = some r ∧ Located compare base r := by
  unfold search
  by_cases hempty : base.length = 0
  · rw [if_pos hempty]
    have hnil := List.length_eq_zero_iff.mp hempty
    subst hnil
    exact ⟨(0, false), rfl, le_rfl, fun b hb => absurd hb List.not_mem_nil,
      fun b hb => absurd hb List.not_mem_nil⟩
  rw [if_neg hempty]
  have hlt : base.length - 1 < base.length := Nat.sub_one_lt hempty
  have hstart : Narrowed compare base 0 (base.length - 1) := by
    refine ⟨Nat.zero_le _, hlt, fun b hb => absurd hb List.not_mem_nil, ?_⟩
    rw [Nat.sub_one_add_one hempty, List.drop_length]
    exact fun b hb => absurd hb List.not_mem_nil
  rcases narrow_spec h base.length 0 (base.length - 1) hstart hlt with
    ⟨p, hnarrow, hequal⟩ | ⟨l, r, hnarrow, hn, hlast⟩
  · rw [hnarrow]
    exact ⟨(p, true), rfl, hequal⟩
  · rw [hnarrow]
    exact lastTwo_spec h hn hlast

theorem seek_spec : ∀ (fuel middle : ℕ), base.length ≤ middle + fuel → middle ≤ base.length →
    middle ≤ seek compare base fuel middle ∧ seek compare base fuel middle ≤ base.length ∧
      (∀ p, middle ≤ p → p < seek compare base fuel middle → IsEqualAt compare base p) ∧
      ¬IsEqualAt compare base (seek compare base fuel middle)
  | 0, middle, hfuel, hle => by
    refine ⟨le_rfl, hle, fun p hp hlt => absurd hlt (not_lt.mpr hp), ?_⟩
    rintro ⟨entry, hentry, -⟩
    exact absurd (List.getElem?_eq_some_iff.mp hentry).1 (not_lt.mpr hfuel)
  | fuel + 1, middle, hfuel, hle => by
    rw [seek]
    cases hentry : base[middle]? with
    | none =>
      refine ⟨le_rfl, hle, fun p hp hlt => absurd hlt (not_lt.mpr hp), ?_⟩
      rintro ⟨entry, hentry', -⟩
      rw [hentry] at hentry'
      cases hentry'
    | some entry =>
      dsimp only
      by_cases hzero : compare entry = 0
      · rw [if_pos hzero]
        have hlt := (List.getElem?_eq_some_iff.mp hentry).1
        obtain ⟨hge, hle', hequal, hend⟩ := seek_spec fuel (middle + 1) (by omega) hlt
        refine ⟨(Nat.le_succ middle).trans hge, hle', fun p hp hlt' => ?_, hend⟩
        rcases hp.eq_or_lt with rfl | hp
        · exact ⟨entry, hentry, hzero⟩
        · exact hequal p hp hlt'
      · rw [if_neg hzero]
        refine ⟨le_rfl, hle, fun p hp hlt => absurd hlt (not_lt.mpr hp), ?_⟩
        rintro ⟨entry', hentry', hzero'⟩
        rw [hentry, Option.some_inj] at hentry'
        exact hzero (hentry' ▸ hzero')

/-- What has been found is a place where the item can be added. -/
theorem Located.between (h : Ordered compare base) {r : ℕ × Bool} (hr : Located compare base r) :
    r.1 ≤ base.length ∧ (∀ b ∈ base.take r.1, 0 ≤ compare b) ∧ ∀ b ∈ base.drop r.1, compare b ≤ 0 := by
  obtain ⟨p, done⟩ := r
  cases done with
  | true =>
    obtain ⟨entry, hentry, hzero⟩ : IsEqualAt compare base p := hr
    refine ⟨(List.getElem?_eq_some_iff.mp hentry).1.le, fun b hb => ?_, fun b hb => ?_⟩
    · by_contra hneg
      exact absurd hzero ((h.before hentry hb).2 (not_le.mp hneg)).ne
    · rcases mem_drop_cases hentry hb with rfl | hb
      · exact hzero.le
      · by_contra hpos
        exact absurd hzero ((h.behind hentry hb).1 (not_le.mp hpos)).ne'
  | false =>
    have hplace : IsPlace compare base p := hr
    exact ⟨hplace.le, fun b hb => (hplace.before b hb).le, fun b hb => (hplace.behind b hb).le⟩

/-- Behind all equal items there are only items that the item comes before. -/
theorem Located.seek (h : Ordered compare base) {r : ℕ × Bool} (hr : Located compare base r) {p : ℕ}
    (hp : seek compare base (base.length - r.1) r.1 = p) :
    p ≤ base.length ∧ (∀ b ∈ base.take p, 0 ≤ compare b) ∧ ∀ b ∈ base.drop p, compare b < 0 := by
  obtain ⟨hle, hbefore, hbehind⟩ := hr.between h
  have hseek := @seek_spec _ compare base (base.length - r.1) r.1 (Nat.add_sub_cancel' hle).ge hle
  rw [hp] at hseek
  obtain ⟨hge, hle', hequal, hend⟩ := hseek
  refine ⟨hle', fun b hb => ?_, fun b hb => ?_⟩
  · obtain ⟨i, hi⟩ := List.mem_iff_getElem?.mp hb
    have hip : i < p := (List.getElem?_eq_some_iff.mp hi).1.trans_le (List.length_take_le _ _)
    rw [List.getElem?_take_of_lt hip] at hi
    rcases Nat.lt_or_ge i r.1 with hlt | hir
    · exact hbefore b (List.mem_iff_getElem?.mpr ⟨i, by rw [List.getElem?_take_of_lt hlt, hi]⟩)
    · obtain ⟨entry, hentry, hzero⟩ := hequal i hir hip
      rw [hi, Option.some_inj] at hentry
      exact (hentry ▸ hzero).ge
  · cases hentry : base[p]? with
    | none =>
      rw [List.drop_eq_nil_of_le (List.getElem?_eq_none_iff.mp hentry)] at hb
      exact absurd hb List.not_mem_nil
    | some entry =>
      have hmem : entry ∈ base.drop r.1 := by
        refine List.mem_iff_getElem?.mpr ⟨p - r.1, ?_⟩
        rw [List.getElem?_drop, Nat.add_sub_cancel' hge, hentry]
      exact h.drop_neg hentry (lt_of_le_of_ne (hbehind entry hmem) fun hzero => hend ⟨entry, hentry, hzero⟩) b hb

theorem jsortInc_of_search {p : ℕ} {done : Bool} (hsearch : search compare base = some (p, done))
    (hle : p ≤ base.length) (macros : Macros) (newitem : α) :
    jsortInc compare base macros newitem =
      if (done && !macros.alwaysAdd) = true then some ⟨p, false, base⟩
      else if macros.neverAdd then some ⟨p, true, base⟩
      else
        let middle := if macros.seekLastMatch then JSort.seek compare base (base.length - p) p else p
        some ⟨middle, true, base.take middle ++ newitem :: base.drop middle⟩ := by
  rw [jsortInc, hsearch]
  exact if_neg (not_lt.mpr hle)

end Search

/-! ### The instantiations -/

/-- The array stays in order with the item at the place. -/
def Inserts (p : ℕ) : Prop :=
  p ≤ base.length ∧ (base.take p ++ newitem :: base.drop p).Pairwise (icmp · · ≤ 0)

/-- `ItemAdded` is false exactly where there is an equal item, whose place is returned; otherwise it is
the only place of the item. -/
structure Reports (r : Outcome α) : Prop where
  le : r.position ≤ base.length
  added_iff : r.itemAdded = false ↔ ∃ entry ∈ base, icmp newitem entry = 0
  equal : r.itemAdded = false → IsEqualAt (icmp newitem) base r.position
  place : r.itemAdded = true → ∀ p, Inserts icmp newitem base p ↔ p = r.position

/-- What the instantiations do for one item and one array. -/
structure Searches : Prop where
  add : ∃ r, binary_add icmp newitem base = some r ∧ Reports icmp newitem base r ∧
    r.base = if r.itemAdded = true then base.take r.position ++ newitem :: base.drop r.position else base
  find : ∃ r, binary_vec_find icmp newitem base = some r ∧ Reports icmp newitem base r ∧ r.base = base
  insert : ∃ p l, binary_vec_insert icmp newitem base = some (p, l) ∧ Inserts icmp newitem base p ∧
    l = base.take p ++ newitem :: base.drop p ∧ l.Perm (newitem :: base)
  insert_stable : ∃ p l, binary_vec_insert_stable icmp newitem base = some (p, l) ∧
    Inserts icmp newitem base p ∧ l = base.take p ++ newitem :: base.drop p ∧
    l.Perm (newitem :: base) ∧ ∀ b ∈ base.drop p, icmp newitem b < 0

/-- The items are put into an empty array one by one. -/
def insertAll (items : List α) : Option (List α) :=
  items.foldlM (fun base newitem => (binary_vec_insert_stable icmp newitem base).map Prod.snd) []

variable {icmp newitem base}

theorem ordered_of_sorted (h : TotalPreorder icmp) (hbase : base.Pairwise (icmp · · ≤ 0)) (newitem : α) :
    Ordered (icmp newitem) base :=
  hbase.imp fun hab => ⟨fun hb => (h.swap _ _).mpr (h.lt_of_le_of_lt hab ((h.swap _ _).mp hb)),
    fun ha => h.lt_of_lt_of_le ha hab⟩

theorem inserts_of_between (h : TotalPreorder icmp) (hbase : base.Pairwise (icmp · · ≤ 0)) {p : ℕ}
    (hp : p ≤ base.length ∧ (∀ b ∈ base.take p, 0 ≤ icmp newitem b) ∧
      ∀ b ∈ base.drop p, icmp newitem b ≤ 0) : Inserts icmp newitem base p :=
  ⟨hp.1, pairwise_insert hbase (fun b hb => h.nonneg_iff.mp (hp.2.1 b hb)) hp.2.2⟩

/-- If no item is equal there is only one place. -/
theorem IsPlace.inserts_iff (h : TotalPreorder icmp) (hbase : base.Pairwise (icmp · · ≤ 0)) {p q : ℕ}
    (hp : IsPlace (icmp newitem) base p) : Inserts icmp newitem base q ↔ q = p := by
  constructor
  · rintro ⟨hle, hsorted⟩
    obtain ⟨-, hcons, hcross⟩ := List.pairwise_append.mp hsorted
    have hbehind := (List.pairwise_cons.mp hcons).1
    rcases lt_trichotomy q p with hlt | heq | hgt
    · have hentry := List.getElem?_eq_getElem (hlt.trans_le hp.le)
      have htake := List.mem_iff_getElem?.mpr ⟨q, (List.getElem?_take_of_lt hlt).trans hentry⟩
      have hdrop := List.mem_iff_getElem?.mpr ⟨0, (List.getElem?_drop).trans hentry⟩
      exact absurd (hp.before _ htake) (not_lt.mpr (hbehind _ hdrop))
    · exact heq
    · have hentry := List.getElem?_eq_getElem (hgt.trans_le hle)
      have htake := List.mem_iff_getElem?.mpr ⟨p, (List.getElem?_take_of_lt hgt).trans hentry⟩
      have hdrop := List.mem_iff_getElem?.mpr ⟨0, (List.getElem?_drop).trans hentry⟩
      have hle' := hcross _ htake newitem List.mem_cons_self
      exact absurd (hp.behind _ hdrop) (not_lt.mpr (h.nonneg_iff.mpr hle'))
  · rintro rfl
    exact inserts_of_between h hbase
      ⟨hp.le, fun b hb => (hp.before b hb).le, fun b hb => (hp.behind b hb).le⟩

/-- The report of what has been found is right, whatever is done with the array. -/
theorem Located.reports (h : TotalPreorder icmp) (hbase : base.Pairwise (icmp · · ≤ 0)) {p : ℕ}
    {done : Bool} (hr : Located (icmp newitem) base (p, done)) (array : List α) :
    Reports icmp newitem base ⟨p, !done, array⟩ := by
  have hle := (hr.between (ordered_of_sorted h hbase newitem)).1
  cases done with
  | true =>
    have hequal : IsEqualAt (icmp newitem) base p := hr
    obtain ⟨entry, hentry, hzero⟩ := id hequal
    exact ⟨hle, ⟨fun _ => ⟨entry, List.mem_of_getElem? hentry, hzero⟩, fun _ => rfl⟩, fun _ => hequal,
      fun hadded => absurd hadded Bool.false_ne_true⟩
  | false =>
    have hplace : IsPlace (icmp newitem) base p := hr
    refine ⟨hle, ⟨fun hadded => absurd hadded Bool.false_ne_true.symm, ?_⟩,
      fun hadded => absurd hadded Bool.false_ne_true.symm, fun _ q => hplace.inserts_iff h hbase⟩
    rintro ⟨entry, hentry, hzero⟩
    rw [← List.take_append_drop p base, List.mem_append] at hentry
    rcases hentry with hentry | hentry
    · exact absurd hzero (hplace.before entry hentry).ne'
    · exact absurd hzero (hplace.behind entry hentry).ne

theorem searches (h : TotalPreorder icmp) (hbase : base.Pairwise (icmp · · ≤ 0)) :
    Searches icmp newitem base := by
  have hordered := ordered_of_sorted h hbase newitem
  obtain ⟨⟨p, done⟩, hsearch, hr⟩ := search_spec hordered
  have hbetween := hr.between hordered
  have hinc := jsortInc_of_search hsearch hbetween.1
  have hperm := perm_insert base
  refine ⟨?_, ?_, ?_, ?_⟩
  · have hreport := hr.reports h hbase
    unfold binary_add
    rw [hinc]
    cases done with
    | true => exact ⟨_, rfl, hreport base, rfl⟩
    | false => exact ⟨_, rfl, hreport _, rfl⟩
  · have hreport := hr.reports h hbase base
    unfold binary_vec_find
    rw [hinc]
    cases done with
    | true => exact ⟨_, rfl, hreport, rfl⟩
    | false => exact ⟨_, rfl, hreport, rfl⟩
  · unfold binary_vec_insert
    rw [hinc]
    refine ⟨p, _, ?_, inserts_of_between h hbase hbetween, rfl, hperm p newitem⟩
    cases done <;> rfl
  · have hseek := hr.seek hordered rfl
    unfold binary_vec_insert_stable
    rw [hinc]
    refine ⟨_, _, ?_, inserts_of_between h hbase ⟨hseek.1, hseek.2.1, fun b hb => (hseek.2.2 b hb).le⟩, rfl,
      hperm _ newitem, hseek.2.2⟩
    cases done <;> rfl

/-- One item after the other is put behind all that equal it. -/
theorem foldlM_insert_stable (h : TotalPreorder icmp) (items : List α) : ∀ {done base : List α},
    IsStableSort icmp done base → ∃ l,
      items.foldlM (fun base newitem => (binary_vec_insert_stable icmp newitem base).map Prod.snd) base =
        some l ∧ IsStableSort icmp (done ++ items) l := by
  induction items with
  | nil => exact fun hbase => ⟨_, rfl, by rwa [List.append_nil]⟩
  | cons newitem items ih =>
    intro done base hbase
    have hsearches : Searches icmp newitem base := searches h hbase.sorted
    obtain ⟨p, l, hinsert, ⟨-, hsorted⟩, rfl, -, hbehind⟩ := hsearches.insert_stable
    have hbefore := fun b hb => (List.pairwise_append.mp hsorted).2.2 b hb newitem List.mem_cons_self
    obtain ⟨l, hl, hstable⟩ := ih (hbase.insert h hbefore hbehind)
    refine ⟨l, ?_, by rwa [List.append_assoc] at hstable⟩
    rw [List.foldlM_cons, hinsert]
    exact hl

theorem isStableSort_nil : IsStableSort icmp [] [] := ⟨List.Perm.refl [], List.Pairwise.nil, fun _ => rfl⟩

/-- The binary search is right in all its instantiations. -/
theorem binary_search_right (h : TotalPreorder icmp) :
    (∀ base : List α, base.Pairwise (icmp · · ≤ 0) → ∀ newitem, Searches icmp newitem base) ∧
      ∀ items, ∃ l, insertAll icmp items = some l ∧ IsStableSort icmp items l :=
  ⟨fun _ hbase _ => searches h hbase, fun items => foldlM_insert_stable h items isStableSort_nil⟩

/-- The numbers in their order, and three of them put into an empty array. -/
theorem binary_search_right_int : TotalPreorder (fun a b : ℤ => a - b) ∧
    Searches (fun a b : ℤ => a - b) 2 [1, 2, 2, 3] ∧
    ∃ l, insertAll (fun a b : ℤ => a - b) [3, 1, 2] = some l ∧
      IsStableSort (fun a b : ℤ => a - b) [3, 1, 2] l := by
  have h : TotalPreorder fun a b : ℤ => a - b := ⟨fun a b => by omega, fun a b c => by omega⟩
  exact ⟨h, (binary_search_right h).1 _ (by decide) 2, (binary_search_right h).2 _⟩

end JSort

end HpccPlatform
