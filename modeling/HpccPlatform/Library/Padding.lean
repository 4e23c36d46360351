import HpccPlatform.Library.SixBit
import Mathlib.Data.List.DropRight
import Mathlib.Data.List.GetD

/-!
# Strings with padding

A string that is compared without the pads at its end is the sequence of its characters with pads
behind them.  The strings that begin as a given one are those between two, which go on with the
smallest and with the largest character.
-/

namespace Padding

variable {α : Type} [DecidableEq α] {pad : α} {xs ys : List α} {m : ℕ}

/-- A string without the pads at its end. -/
def trim (pad : α) (xs : List α) : List α := xs.rdropWhile fun x => x = pad

theorem trim_concat (pad : α) (xs : List α) (x : α) :
    trim pad (xs ++ [x]) = if x = pad then trim pad xs else xs ++ [x] := by
  rw [trim, List.rdropWhile_concat]
  simp only [decide_eq_true_eq]
  rfl

theorem length_trim_le (pad : α) (xs : List α) : (trim pad xs).length ≤ xs.length :=
  (List.rdropWhile_prefix _ _).length_le

/-- The pads at the end are not seen in the padded sequence. -/
theorem getD_trim (pad : α) (xs : List α) (j : ℕ) : (trim pad xs).getD j pad = xs.getD j pad := by
  induction xs using List.reverseRecOn with
  | nil => rfl
  | append_singleton xs x ih =>
    rw [trim_concat]
    split_ifs with hx
    · rw [ih]
      rcases lt_trichotomy j xs.length with hj | rfl | hj
      · rw [List.getD_append _ _ _ _ hj]
      · rw [List.getD_append_right _ _ _ _ le_rfl, Nat.sub_self, List.getD_cons_zero,
          List.getD_eq_default _ _ le_rfl, hx]
      · rw [List.getD_eq_default _ _ hj.le, List.getD_eq_default _ _ (by rwa [List.length_append])]
    · rfl

theorem length_trim_le_iff : (trim pad xs).length ≤ m ↔ ∀ j, m ≤ j → xs.getD j pad = pad := by
  constructor
  · intro h j hj
    rw [← getD_trim, List.getD_eq_default _ _ (h.trans hj)]
  · induction xs using List.reverseRecOn with
    | nil => exact fun _ => Nat.zero_le m
    | append_singleton xs x ih =>
      intro h
      rw [trim_concat]
      split_ifs with hx
      · refine ih fun j hj => ?_
        by_cases hlt : j < xs.length
        · exact (List.getD_append _ _ _ _ hlt).symm.trans (h j hj)
        · exact List.getD_eq_default _ _ (Nat.not_lt.1 hlt)
      · by_contra hlong
        rw [List.length_append, List.length_singleton, Nat.not_le, Nat.lt_succ_iff] at hlong
        have hlast := h xs.length hlong
        rw [List.getD_append_right _ _ _ _ le_rfl, Nat.sub_self, List.getD_cons_zero] at hlast
        exact hx hlast

/-- Strings are equal without the pads at their ends when they are the same padded sequence. -/
theorem trim_eq_iff : trim pad xs = trim pad ys ↔ ∀ j, xs.getD j pad = ys.getD j pad := by
  constructor
  · intro h j
    rw [← getD_trim, h, getD_trim]
  · intro h
    have hlen : (trim pad xs).length = (trim pad ys).length :=
      le_antisymm
        (length_trim_le_iff.2 fun j hj => (h j).trans (length_trim_le_iff.1 le_rfl j hj))
        (length_trim_le_iff.2 fun j hj => (h j).symm.trans (length_trim_le_iff.1 le_rfl j hj))
    refine List.ext_getElem hlen fun j hj hj' => ?_
    rw [← List.getD_eq_getElem _ pad hj, ← List.getD_eq_getElem _ pad hj', getD_trim, getD_trim, h]

/-- The first `m` characters of a sequence are the string `ys`, with pads behind it. -/
def Begins (pad : α) (ys : List α) (m : ℕ) (g : ℕ → α) : Prop :=
  (trim pad ys).length ≤ m ∧ ∀ j < m, g j = ys.getD j pad

theorem trim_take_eq_iff :
    trim pad (xs.take m) = trim pad ys ↔ Begins pad ys m fun j => xs.getD j pad := by
  have htake : ∀ j, (xs.take m).getD j pad = if j < m then xs.getD j pad else pad := fun j => by
    split_ifs with hj
    · simp only [List.getD_eq_getElem?_getD, List.getElem?_take_of_lt hj]
    · exact List.getD_eq_default _ _ ((List.length_take_le m xs).trans (Nat.not_lt.1 hj))
  rw [trim_eq_iff, Begins, length_trim_le_iff]
  constructor
  · intro h
    refine ⟨fun j hj => ?_, fun j hj => ?_⟩
    · rw [← h, htake, if_neg (Nat.not_lt.2 hj)]
    · rw [← h, htake, if_pos hj]
  · rintro ⟨hrest, heq⟩ j
    rw [htake]
    split_ifs with hj
    · exact heq j hj
    · exact (hrest j (Nat.not_lt.1 hj)).symm

/-! ### Beginnings of different lengths -/

section Beginnings

variable {a b : ℕ} {c : α}

/-- A beginning of another length says something else of some sequence, as long as the string fits
in the longer one. -/
theorem exists_begins_differ (hc : c ≠ pad) (hab : a < b) (hb : (trim pad ys).length ≤ b) :
    ∃ g : ℕ → α, (∀ j, g j = ys.getD j pad ∨ g j = c) ∧
      ¬ (Begins pad ys a g ↔ Begins pad ys b g) := by
  by_cases ha : (trim pad ys).length ≤ a
  · refine ⟨fun j => if j = a then c else ys.getD j pad, fun j => ?_, fun h => ?_⟩
    · dsimp only
      split_ifs
      · exact Or.inr rfl
      · exact Or.inl rfl
    · have hlong : c = ys.getD a pad :=
        (if_pos rfl).symm.trans ((h.1 ⟨ha, fun j hj => if_neg hj.ne⟩).2 a hab)
      exact hc (hlong.trans (length_trim_le_iff.1 ha a le_rfl))
  · exact ⟨fun j => ys.getD j pad, fun j => Or.inl rfl, fun h =>
      ha (h.2 ⟨hb, fun j _ => rfl⟩).1⟩

theorem eq_or_lt_of_begins_agree (hc : c ≠ pad)
    (h : ∀ g : ℕ → α, (∀ j, g j = ys.getD j pad ∨ g j = c) →
      (Begins pad ys a g ↔ Begins pad ys b g)) :
    a = b ∨ max a b < (trim pad ys).length := by
  rcases lt_trichotomy a b with hab | hab | hab
  · refine Or.inr (Nat.lt_of_not_le fun hle => ?_)
    rw [max_eq_right hab.le] at hle
    obtain ⟨g, hg, hne⟩ := exists_begins_differ hc hab hle
    exact hne (h g hg)
  · exact Or.inl hab
  · refine Or.inr (Nat.lt_of_not_le fun hle => ?_)
    rw [max_eq_left hab.le] at hle
    obtain ⟨g, hg, hne⟩ := exists_begins_differ hc hab hle
    exact hne (h g hg).symm

theorem begins_agree (h : a = b ∨ max a b < (trim pad ys).length) (g : ℕ → α) :
    Begins pad ys a g ↔ Begins pad ys b g := by
  rcases h with rfl | hlong
  · exact Iff.rfl
  · rw [max_lt_iff] at hlong
    exact iff_of_false (fun h => Nat.not_lt.2 h.1 hlong.1) fun h => Nat.not_lt.2 h.1 hlong.2

theorem Begins.congr {g g' : ℕ → α} {m : ℕ} (h : ∀ j < m, g j = g' j) :
    Begins pad ys m g ↔ Begins pad ys m g' :=
  and_congr_right fun _ => forall₂_congr fun j hj => by rw [h j hj]

/-- Where the end of the string is not compared, a sequence without it is taken as well. -/
theorem exists_not_begins (ha : a < (trim pad ys).length) :
    ∃ g : ℕ → α, (∀ j, g j = ys.getD j pad ∨ g j = pad) ∧ (∀ j < a, g j = ys.getD j pad) ∧
      ¬ Begins pad ys b g := by
  obtain ⟨j, hj, hne⟩ : ∃ j, a ≤ j ∧ ys.getD j pad ≠ pad := by
    by_contra h
    push Not at h
    exact Nat.not_lt.2 (length_trim_le_iff.2 h) ha
  refine ⟨fun i => if i = j then pad else ys.getD i pad, fun i => ?_, fun i hi => ?_, ?_⟩
  · dsimp only
    split_ifs
    · exact Or.inr rfl
    · exact Or.inl rfl
  · exact if_neg (hi.trans_le hj).ne
  · rintro ⟨hb, heq⟩
    by_cases hjb : j < b
    · have hpad : pad = ys.getD j pad := (if_pos rfl).symm.trans (heq j hjb)
      exact hne hpad.symm
    · exact hne (length_trim_le_iff.1 hb j (Nat.not_lt.1 hjb))

end Beginnings

/-! ### The strings with a beginning -/

open SixBit

variable {x y lo hi : ℕ → ℕ} {top n : ℕ}

/-- A sequence lies between the smallest and the largest one that begin as `y` when it begins so. -/
theorem between_iff (htop : ∀ i, x i ≤ top) (hlo : ∀ i, lo i = if i < m then y i else 0)
    (hhi : ∀ i, hi i = if i < m then y i else top) :
    ¬ Precedes x lo ∧ ¬ Precedes hi x ↔ ∀ i < m, x i = y i := by
  constructor
  · rintro ⟨hlow, hhigh⟩
    rcases agree_or_precedes x y m with heq | ⟨k, hk, heq, hlt⟩ | ⟨k, hk, heq, hlt⟩
    · exact heq
    · refine absurd ⟨k, fun j hj => ?_, ?_⟩ hlow
      · rw [hlo, if_pos (hj.trans hk), heq j hj]
      · rwa [hlo, if_pos hk]
    · refine absurd ⟨k, fun j hj => ?_, ?_⟩ hhigh
      · rw [hhi, if_pos (hj.trans hk), heq j hj]
      · rwa [hhi, if_pos hk]
  · intro heq
    constructor
    · rintro ⟨k, -, hlt⟩
      rw [hlo] at hlt
      split_ifs at hlt with hk
      · exact hlt.ne (heq k hk)
      · exact Nat.not_lt_zero _ hlt
    · rintro ⟨k, -, hlt⟩
      rw [hhi] at hlt
      split_ifs at hlt with hk
      · exact hlt.ne' (heq k hk)
      · exact Nat.not_lt.2 (htop k) hlt

/-- What is above `hi` in a sequence of `n` entries does not depend on the rest of `hi`. -/
theorem precedes_cut_iff {cut : ℕ → ℕ} (hcut : ∀ i < n, cut i = hi i) (hx : ∀ i, n ≤ i → x i = 0) :
    Precedes cut x ↔ Precedes hi x := by
  have hlt_of : ∀ {z : ℕ → ℕ} {k : ℕ}, z k < x k → k < n := fun {z k} h => by
    by_contra hk
    rw [hx k (Nat.not_lt.1 hk)] at h
    exact Nat.not_lt_zero _ h
  constructor
  · rintro ⟨k, heq, hlt⟩
    have hk := hlt_of hlt
    exact ⟨k, fun j hj => (hcut j (hj.trans hk)).symm.trans (heq j hj), hcut k hk ▸ hlt⟩
  · rintro ⟨k, heq, hlt⟩
    have hk := hlt_of hlt
    exact ⟨k, fun j hj => (hcut j (hj.trans hk)).trans (heq j hj), (hcut k hk).symm ▸ hlt⟩

end Padding
