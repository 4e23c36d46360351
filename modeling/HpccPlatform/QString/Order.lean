import HpccPlatform.Library.Bytes
import HpccPlatform.QString.Canonical

/-!
# The order of QSTRINGs

`rtlCompareQStrQStr` compares the packed bytes of two QSTRINGs, `rtlSafeCompareQStrQStr` their
characters.  Both give the order of the expanded strings with spaces behind the shorter one, as long
as the spare bits are zero.
-/

namespace QString

open Buffer SixBit

/-! ### The code -/

/-- The loop over the `n` bytes from `k` on that one of two QSTRINGs has more. -/
def anyNonZero (buf : List UInt8) : ℕ → ℕ → Option Bool
  | 0, _ => some false
  | n + 1, k => do
    let byte ← peek buf k
    if byte ≠ 0 then return true else anyNonZero buf n (k + 1)

def rtlCompareQStrQStr (llen : ℕ) (left : List UInt8) (rlen : ℕ) (right : List UInt8) :
    Option ℤ :=
  let lsize := QStrSize llen
  let rsize := QStrSize rlen
  if lsize ≤ left.length ∧ rsize ≤ right.length then
    if lsize < rsize then
      let ret := Bytes.memcmp lsize left right
      if ret = 0 then (anyNonZero right (rsize - lsize) lsize).map fun any => if any then -1 else ret
      else some ret
    else
      let ret := Bytes.memcmp rsize left right
      if ret = 0 then (anyNonZero left (lsize - rsize) rsize).map fun any => if any then 1 else ret
      else some ret
  else none

/-- The loop over the characters that both have, up to the first difference. -/
def compareChars : ℕ → QStrReader → QStrReader → Option (ℤ × QStrReader × QStrReader)
  | 0, leftIter, rightIter => some (0, leftIter, rightIter)
  | n + 1, leftIter, rightIter => do
    let (l, leftIter) ← leftIter.nextQChar
    let (r, rightIter) ← rightIter.nextQChar
    let diff := (l.toNat : ℤ) - r.toNat
    if diff ≠ 0 then return (diff, leftIter, rightIter) else compareChars n leftIter rightIter

/-- The loop over the `n` characters that one of two QSTRINGs has more. -/
def anyNonZeroQChar : ℕ → QStrReader → Option Bool
  | 0, _ => some false
  | n + 1, iter => do
    let (c, iter) ← iter.nextQChar
    if c ≠ 0 then return true else anyNonZeroQChar n iter

def rtlSafeCompareQStrQStr (llen : ℕ) (left : List UInt8) (rlen : ℕ) (right : List UInt8) :
    Option ℤ := do
  let len := min llen rlen
  let (diff, leftIter, rightIter) ← compareChars len (QStrReader.init left) (QStrReader.init right)
  if diff ≠ 0 then return diff
  else if len < llen then
    (anyNonZeroQChar (llen - len) leftIter).map fun any => if any then 1 else 0
  else (anyNonZeroQChar (rlen - len) rightIter).map fun any => if any then -1 else 0

/-- The comparison of the expanded strings, the shorter one padded with spaces. -/
def compareExpanded (llen : ℕ) (left : List UInt8) (rlen : ℕ) (right : List UInt8) : Option ℤ := do
  let len := max llen rlen
  let l ← rtlQStrToStr len (List.replicate len 0) llen left
  let r ← rtlQStrToStr len (List.replicate len 0) rlen right
  return Bytes.memcmp len l r

/-! ### Bytes -/

variable {n m k i : ℕ} {a b q left right : List UInt8}

theorem precedes_cons (x : UInt8) (h : Precedes (bytesOf a) (bytesOf b)) :
    Precedes (bytesOf (x :: a)) (bytesOf (x :: b)) := by
  obtain ⟨k, heq, hlt⟩ := h
  refine ⟨k + 1, fun j hj => ?_, hlt⟩
  cases j with
  | zero => rfl
  | succ j => exact heq j (Nat.lt_of_succ_lt_succ hj)

theorem precedes_of_first {x y : UInt8} (h : x.toNat < y.toNat) :
    Precedes (bytesOf (x :: a)) (bytesOf (y :: b)) :=
  ⟨0, fun j hj => absurd hj (Nat.not_lt_zero j), h⟩

/-- The sign of `memcmp` is that of the first difference. -/
theorem memcmp_cases (ha : n ≤ a.length) (hb : n ≤ b.length) :
    (Bytes.memcmp n a b < 0 → Precedes (bytesOf a) (bytesOf b)) ∧
      (0 < Bytes.memcmp n a b → Precedes (bytesOf b) (bytesOf a)) ∧
      (Bytes.memcmp n a b = 0 → ∀ j < n, bytesOf a j = bytesOf b j) := by
  induction n generalizing a b with
  | zero => simp
  | succ n ih =>
    obtain ⟨x, as, rfl⟩ := List.exists_cons_of_length_pos (Nat.lt_of_lt_of_le (Nat.succ_pos n) ha)
    obtain ⟨y, bs, rfl⟩ := List.exists_cons_of_length_pos (Nat.lt_of_lt_of_le (Nat.succ_pos n) hb)
    obtain ⟨hneg, hpos, hzero⟩ := ih (Nat.le_of_succ_le_succ ha) (Nat.le_of_succ_le_succ hb)
    rw [Bytes.memcmp]
    by_cases hxy : x = y
    · subst hxy
      rw [if_pos rfl]
      refine ⟨fun h => precedes_cons x (hneg h), fun h => precedes_cons x (hpos h),
        fun h j hj => ?_⟩
      cases j with
      | zero => rfl
      | succ j => exact hzero h j (Nat.lt_of_succ_lt_succ hj)
    · have hne : x.toNat ≠ y.toNat := fun h => hxy (UInt8.toNat_inj.1 h)
      rw [if_neg hxy]
      exact ⟨fun h => precedes_of_first (by omega), fun h => precedes_of_first (by omega),
        fun h => by omega⟩

/-- With zeros behind `n` in one of two sequences that agree up to there, any other entry decides. -/
theorem precedes_of_rest {x y : ℕ → ℕ} (heq : ∀ j < n, x j = y j) (hx : ∀ j, n ≤ j → x j = 0)
    (hy : ∃ j, n ≤ j ∧ y j ≠ 0) : Precedes x y := by
  classical
  obtain ⟨hle, hne⟩ := Nat.find_spec hy
  refine ⟨Nat.find hy, fun j hj => ?_, ?_⟩
  · by_cases hjn : j < n
    · exact heq j hjn
    · have hzero : ¬ (n ≤ j ∧ y j ≠ 0) := Nat.find_min hy hj
      rw [hx j (Nat.not_lt.1 hjn)]
      by_contra h
      exact hzero ⟨Nat.not_lt.1 hjn, Ne.symm h⟩
  · rw [hx _ hle]
    exact Nat.pos_of_ne_zero hne

theorem eq_of_rest {x y : ℕ → ℕ} (heq : ∀ j < n, x j = y j) (hx : ∀ j, n ≤ j → x j = 0)
    (hy : ¬ ∃ j, n ≤ j ∧ y j ≠ 0) : x = y := by
  funext j
  by_cases hj : j < n
  · exact heq j hj
  · rw [hx j (Nat.not_lt.1 hj)]
    by_contra h
    exact hy ⟨j, Nat.not_lt.1 hj, Ne.symm h⟩

theorem anyNonZero_eq {buf : List UInt8} (h : k + n ≤ buf.length) :
    ∃ any, anyNonZero buf n k = some any ∧
      (any = true ↔ ∃ j, k ≤ j ∧ j < k + n ∧ bytesOf buf j ≠ 0) := by
  induction n generalizing k with
  | zero => exact ⟨false, rfl, by simp; omega⟩
  | succ n ih =>
    have hk : k < buf.length := by omega
    simp only [anyNonZero, peek_of_lt hk, Option.bind_eq_bind, Option.bind_some]
    by_cases hzero : buf.getD k 0 = 0
    · obtain ⟨any, hany, hiff⟩ := ih (k := k + 1) (by omega)
      refine ⟨any, by rw [if_neg (not_not.2 hzero), hany], hiff.trans ?_⟩
      have hk0 : bytesOf buf k = 0 := congrArg UInt8.toNat hzero
      constructor
      · rintro ⟨j, hj, hj', hne⟩
        exact ⟨j, by omega, by omega, hne⟩
      · rintro ⟨j, hj, hj', hne⟩
        exact ⟨j, Nat.lt_of_le_of_ne hj fun h => hne (h ▸ hk0), by omega, hne⟩
    · refine ⟨true, if_pos hzero, iff_of_true rfl ⟨k, le_rfl, by omega, fun h => ?_⟩⟩
      exact hzero (UInt8.toNat_inj.1 h)

/-! ### The comparisons -/

variable {llen rlen : ℕ}

theorem exists_rest_iff {any : Bool} {y : ℕ → ℕ} {m : ℕ} (hm : ∀ j, m ≤ j → y j = 0)
    (hany : any = true ↔ ∃ j, n ≤ j ∧ j < m ∧ y j ≠ 0) :
    any = true ↔ ∃ j, n ≤ j ∧ y j ≠ 0 := by
  rw [hany]
  constructor
  · rintro ⟨j, hj, -, hne⟩
    exact ⟨j, hj, hne⟩
  · rintro ⟨j, hj, hne⟩
    exact ⟨j, hj, Nat.lt_of_not_le fun h => hne (hm j h), hne⟩

/-- The rest of the right side decides after a common beginning. -/
theorem signs_of_right_rest {any : Bool} {x y : ℕ → ℕ} (heq : ∀ j < n, x j = y j)
    (hx : ∀ j, n ≤ j → x j = 0) (hany : any = true ↔ ∃ j, n ≤ j ∧ y j ≠ 0) :
    Signs (if any then -1 else 0) x y := by
  cases any with
  | true =>
    exact signs_of (fun _ => precedes_of_rest heq hx (hany.1 rfl)) (fun h => absurd h (by decide))
      (fun h => absurd h (by decide))
  | false =>
    exact signs_of (fun h => absurd h (by decide)) (fun h => absurd h (by decide))
      (fun _ => eq_of_rest heq hx fun h => Bool.false_ne_true (hany.2 h))

theorem signs_of_left_rest {any : Bool} {x y : ℕ → ℕ} (heq : ∀ j < n, x j = y j)
    (hy : ∀ j, n ≤ j → y j = 0) (hany : any = true ↔ ∃ j, n ≤ j ∧ x j ≠ 0) :
    Signs (if any then 1 else 0) x y := by
  have h := signs_of_right_rest (fun j hj => (heq j hj).symm) hy hany
  cases any with
  | true => exact ⟨iff_of_false (by decide) (h.neg.1 (by decide)).asymm,
      iff_of_true (by decide) (h.neg.1 (by decide))⟩
  | false => exact ⟨h.pos, h.neg⟩

theorem rtlCompareQStrQStr_signs (hl : Canonical llen left) (hr : Canonical rlen right) :
    ∃ z, rtlCompareQStrQStr llen left rlen right = some z ∧
      Signs z (bytesOf left) (bytesOf right) := by
  have hlzero : ∀ k, size llen ≤ k → bytesOf left k = 0 := fun k hk =>
    bytesOf_eq_zero (hl.size ▸ hk)
  have hrzero : ∀ k, size rlen ≤ k → bytesOf right k = 0 := fun k hk =>
    bytesOf_eq_zero (hr.size ▸ hk)
  unfold rtlCompareQStrQStr
  dsimp only
  rw [QStrSize_eq hl.fits, QStrSize_eq hr.fits, if_pos ⟨hl.size.ge, hr.size.ge⟩]
  by_cases hlt : size llen < size rlen
  · obtain ⟨hneg, hpos, hzero⟩ := memcmp_cases hl.size.ge (hlt.le.trans hr.size.ge)
    rw [if_pos hlt]
    by_cases hret : Bytes.memcmp (size llen) left right = 0
    · have hadd : size llen + (size rlen - size llen) = size rlen := Nat.add_sub_cancel' hlt.le
      obtain ⟨any, hany, hiff⟩ := anyNonZero_eq (hadd.trans hr.size.symm).le
      rw [hadd] at hiff
      rw [if_pos hret, hany, hret]
      exact ⟨_, rfl, signs_of_right_rest (hzero hret) hlzero (exists_rest_iff hrzero hiff)⟩
    · rw [if_neg hret]
      exact ⟨_, rfl, signs_of hneg hpos fun h => absurd h hret⟩
  · have hle := Nat.not_lt.1 hlt
    obtain ⟨hneg, hpos, hzero⟩ := memcmp_cases (hle.trans hl.size.ge) hr.size.ge
    rw [if_neg hlt]
    by_cases hret : Bytes.memcmp (size rlen) left right = 0
    · have hadd : size rlen + (size llen - size rlen) = size llen := Nat.add_sub_cancel' hle
      obtain ⟨any, hany, hiff⟩ := anyNonZero_eq (hadd.trans hl.size.symm).le
      rw [hadd] at hiff
      rw [if_pos hret, hany, hret]
      exact ⟨_, rfl, signs_of_left_rest (hzero hret) hrzero (exists_rest_iff hlzero hiff)⟩
    · rw [if_neg hret]
      exact ⟨_, rfl, signs_of hneg hpos fun h => absurd h hret⟩

/-- The characters are compared up to the first difference. -/
theorem compareChars_eq (heq : ∀ j < i, charsOf left j = charsOf right j) (hfits : Fits (i + n))
    (hl : size (i + n) ≤ left.length) (hr : size (i + n) ≤ right.length) :
    ∃ diff l r, compareChars n (QStrReader.before left i) (QStrReader.before right i) =
        some (diff, l, r) ∧
      (diff < 0 → Precedes (charsOf left) (charsOf right)) ∧
      (0 < diff → Precedes (charsOf right) (charsOf left)) ∧
      (diff = 0 → (∀ j < i + n, charsOf left j = charsOf right j) ∧
        l = QStrReader.before left (i + n) ∧ r = QStrReader.before right (i + n)) := by
  induction n generalizing i with
  | zero =>
    exact ⟨0, _, _, rfl, fun h => absurd h (by decide), fun h => absurd h (by decide),
      fun _ => ⟨heq, rfl, rfl⟩⟩
  | succ n ih =>
    have hone : Fits i := hfits.mono (by omega)
    have hsize : size (i + 1) ≤ size (i + (n + 1)) := size_mono (by omega)
    have hadd : i + 1 + n = i + (n + 1) := by omega
    have hleft := QStrReader.nextQChar_before hone (hsize.trans hl)
    have hright := QStrReader.nextQChar_before hone (hsize.trans hr)
    have hlchar := toNat_qchar left i
    have hrchar := toNat_qchar right i
    simp only [compareChars, hleft, hright, Option.bind_eq_bind, Option.bind_some, hlchar, hrchar]
    by_cases hdiff : (charsOf left i : ℤ) - charsOf right i = 0
    · rw [if_neg (not_not.2 hdiff)]
      rw [← hadd] at hfits hl hr ⊢
      refine ih (fun j hj => ?_) hfits hl hr
      rcases Nat.lt_succ_iff_lt_or_eq.1 hj with hlt | rfl
      · exact heq j hlt
      · omega
    · rw [if_pos hdiff]
      exact ⟨_, _, _, rfl, fun h => ⟨i, heq, by omega⟩,
        fun h => ⟨i, fun j hj => (heq j hj).symm, by omega⟩, fun h => absurd h hdiff⟩

theorem anyNonZeroQChar_eq (hfits : Fits (i + n)) (hq : size (i + n) ≤ q.length) :
    ∃ any, anyNonZeroQChar n (QStrReader.before q i) = some any ∧
      (any = true ↔ ∃ j, i ≤ j ∧ j < i + n ∧ charsOf q j ≠ 0) := by
  induction n generalizing i with
  | zero => exact ⟨false, rfl, by simp; omega⟩
  | succ n ih =>
    have hone : Fits i := hfits.mono (by omega)
    have hsize : size (i + 1) ≤ q.length := (size_mono (by omega)).trans hq
    have hadd : i + 1 + n = i + (n + 1) := by omega
    have hchar := toNat_qchar q i
    simp only [anyNonZeroQChar, QStrReader.nextQChar_before hone hsize, Option.bind_eq_bind,
      Option.bind_some]
    by_cases hzero : qchar q i = 0
    · have hk0 : charsOf q i = 0 := by
        rw [← hchar, hzero]
        rfl
      rw [← hadd] at hfits hq
      obtain ⟨any, hany, hiff⟩ := ih hfits hq
      refine ⟨any, by rw [if_neg (not_not.2 hzero), hany], hiff.trans ?_⟩
      constructor
      · rintro ⟨j, hj, hj', hne⟩
        exact ⟨j, by omega, by omega, hne⟩
      · rintro ⟨j, hj, hj', hne⟩
        exact ⟨j, Nat.lt_of_le_of_ne hj fun h => hne (h ▸ hk0), by omega, hne⟩
    · refine ⟨true, if_pos hzero, iff_of_true rfl ⟨i, le_rfl, by omega, fun h => ?_⟩⟩
      exact hzero (UInt8.toNat_inj.1 (hchar.trans h))

theorem rtlSafeCompareQStrQStr_signs (hl : Canonical llen left) (hr : Canonical rlen right) :
    ∃ z, rtlSafeCompareQStrQStr llen left rlen right = some z ∧
      Signs z (charsOf left) (charsOf right) := by
  have hmin : Fits (min llen rlen) := hl.fits.mono (min_le_left _ _)
  obtain ⟨diff, l, r, hcompare, hneg, hpos, hzero⟩ := @compareChars_eq (min llen rlen) 0 left right
    (fun j hj => absurd hj (Nat.not_lt_zero j)) (by rwa [Nat.zero_add])
    (by rw [Nat.zero_add, hl.size]; exact size_mono (min_le_left _ _))
    (by rw [Nat.zero_add, hr.size]; exact size_mono (min_le_right _ _))
  rw [← QStrReader.init_eq, ← QStrReader.init_eq] at hcompare
  simp only [rtlSafeCompareQStrQStr, hcompare, Option.bind_eq_bind, Option.bind_some]
  by_cases hdiff : diff = 0
  · obtain ⟨heq, rfl, rfl⟩ := hzero hdiff
    rw [Nat.zero_add] at heq
    rw [if_neg (not_not.2 hdiff), Nat.zero_add]
    by_cases hlt : min llen rlen < llen
    · have hmin' : min llen rlen = rlen := by omega
      have hadd : rlen + (llen - rlen) = llen := by omega
      obtain ⟨any, hany, hiff⟩ := @anyNonZeroQChar_eq (llen - rlen) rlen left
        (by rw [hadd]; exact hl.fits) (by rw [hadd]; exact hl.size.ge)
      rw [hadd] at hiff
      rw [if_pos hlt, hmin', hany]
      rw [hmin'] at heq
      exact ⟨_, rfl, signs_of_left_rest heq hr.rest (exists_rest_iff hl.rest hiff)⟩
    · have hmin' : min llen rlen = llen := by omega
      have hadd : llen + (rlen - llen) = rlen := by omega
      obtain ⟨any, hany, hiff⟩ := @anyNonZeroQChar_eq (rlen - llen) llen right
        (by rw [hadd]; exact hr.fits) (by rw [hadd]; exact hr.size.ge)
      rw [hadd] at hiff
      rw [if_neg hlt, hmin', hany]
      rw [hmin'] at heq
      exact ⟨_, rfl, signs_of_right_rest heq hl.rest (exists_rest_iff hr.rest hiff)⟩
  · rw [if_pos hdiff]
    exact ⟨diff, rfl, signs_of hneg hpos fun h => absurd h hdiff⟩

/-- The expanded string of a canonical QSTRING, with spaces behind it. -/
theorem rtlQStrToStr_bytesOf (hq : Canonical n q) (m : ℕ) :
    ∃ l, rtlQStrToStr m (List.replicate m 0) n q = some l ∧ l.length = m ∧
      ∀ k < m, bytesOf l k = 32 + charsOf q k := by
  refine ⟨_, rtlQStrToStr_eq hq.size.ge List.length_replicate, by simp, fun k hk => ?_⟩
  have hlt := charsOf_lt q k
  have hchar := toNat_qchar q k
  have hspace : (0x20 : UInt8).toNat = 32 := rfl
  have hget : ((List.range m).map fun i => if i < n then expanded q i else 0x20).getD k 0 =
      if k < n then expanded q k else 0x20 := by simp [List.getD_eq_getElem?_getD, hk]
  rw [bytesOf, hget]
  by_cases hkn : k < n
  · rw [if_pos hkn, expanded, expandQChar, UInt8.toNat_add, hchar, hspace]
    omega
  · rw [if_neg hkn, hq.rest k (Nat.not_lt.1 hkn), hspace]

theorem precedes_of_expanded {l r : List UInt8} (hlen : l.length = m) (hlen' : r.length = m)
    (hl : ∀ k < m, bytesOf l k = 32 + charsOf left k)
    (hr : ∀ k < m, bytesOf r k = 32 + charsOf right k)
    (h : Precedes (bytesOf l) (bytesOf r)) : Precedes (charsOf left) (charsOf right) := by
  obtain ⟨k, heq, hlt⟩ := h
  have hk : k < m := Nat.lt_of_not_le fun hk => by
    rw [bytesOf_eq_zero (hlen ▸ hk), bytesOf_eq_zero (hlen' ▸ hk)] at hlt
    exact Nat.lt_irrefl 0 hlt
  refine ⟨k, fun j hj => ?_, ?_⟩
  · have hj' := heq j hj
    rw [hl j (hj.trans hk), hr j (hj.trans hk)] at hj'
    exact Nat.add_left_cancel hj'
  · rw [hl k hk, hr k hk] at hlt
    exact Nat.lt_of_add_lt_add_left hlt

theorem compareExpanded_signs (hl : Canonical llen left) (hr : Canonical rlen right) :
    ∃ z, compareExpanded llen left rlen right = some z ∧
      Signs z (charsOf left) (charsOf right) := by
  obtain ⟨l, hlstr, hllen, hlbytes⟩ := rtlQStrToStr_bytesOf hl (max llen rlen)
  obtain ⟨r, hrstr, hrlen, hrbytes⟩ := rtlQStrToStr_bytesOf hr (max llen rlen)
  obtain ⟨hneg, hpos, hzero⟩ := memcmp_cases hllen.ge hrlen.ge
  refine ⟨Bytes.memcmp (max llen rlen) l r, ?_, signs_of (fun h => ?_) (fun h => ?_) fun h => ?_⟩
  · rw [compareExpanded, hlstr, hrstr]
    rfl
  · exact precedes_of_expanded hllen hrlen hlbytes hrbytes (hneg h)
  · exact precedes_of_expanded hrlen hllen hrbytes hlbytes (hpos h)
  · funext j
    by_cases hj : j < max llen rlen
    · have hj' := hzero h j hj
      rw [hlbytes j hj, hrbytes j hj] at hj'
      exact Nat.add_left_cancel hj'
    · have hout := Nat.not_lt.1 hj
      rw [hl.rest j (le_of_max_le_left hout), hr.rest j (le_of_max_le_right hout)]

/-- The three comparisons of QSTRINGs agree. -/
def ComparesAlike (l r : QStr) : Prop :=
  ∃ z₁ z₂ z₃ : ℤ, rtlCompareQStrQStr l.len l.bytes r.len r.bytes = some z₁ ∧
    rtlSafeCompareQStrQStr l.len l.bytes r.len r.bytes = some z₂ ∧
    compareExpanded l.len l.bytes r.len r.bytes = some z₃ ∧ z₁.sign = z₂.sign ∧ z₂.sign = z₃.sign

theorem comparesAlike_of_canonical {l r : QStr} (hl : Canonical l.len l.bytes)
    (hr : Canonical r.len r.bytes) : ComparesAlike l r := by
  obtain ⟨z₁, h₁, hsign₁⟩ := rtlCompareQStrQStr_signs hl hr
  obtain ⟨z₂, h₂, hsign₂⟩ := rtlSafeCompareQStrQStr_signs hl hr
  obtain ⟨z₃, h₃, hsign₃⟩ := compareExpanded_signs hl hr
  have hchars : Signs z₁ (charsOf l.bytes) (charsOf r.bytes) :=
    ⟨hsign₁.neg.trans (precedes_charAt_iff (bytesOf_lt _) (bytesOf_lt _)).symm,
      hsign₁.pos.trans (precedes_charAt_iff (bytesOf_lt _) (bytesOf_lt _)).symm⟩
  exact ⟨z₁, z₂, z₃, h₁, h₂, h₃, hchars.sign_eq hsign₂, hsign₂.sign_eq hsign₃⟩

/-- The QSTRINGs that compositions make have no spare bits set and compare as their characters, if
no step overflows a length or leaves a part of a character behind a cut. -/
theorem run_compares_alike {ops ops' : List Op} {l r : QStr} (hl : Op.Run ops QStr.empty l)
    (hr : Op.Run ops' QStr.empty r) :
    SpareZero l.len l.bytes ∧ SpareZero r.len r.bytes ∧ ComparesAlike l r := by
  have hl' := Op.canonical_run canonical_empty hl
  have hr' := Op.canonical_run canonical_empty hr
  exact ⟨(canonical_iff hl'.fits hl'.size).1 hl', (canonical_iff hr'.fits hr'.size).1 hr',
    comparesAlike_of_canonical hl' hr'⟩

theorem run_compares_alike_cut :
    SpareZero 3 [0x86, 0x28, 0xc0] ∧ SpareZero 1 [0x84] ∧
      ComparesAlike ⟨3, [0x86, 0x28, 0xc0]⟩ ⟨1, [0x84]⟩ :=
  @run_compares_alike
    [.rtlStrToQStr 4 [1, 2, 3] [0x41, 0x42, 0x43, 0x20], .rtlQStrToQStr 3 [4, 5, 6]]
    [.rtlStrToQStr 2 [0, 0] [0x61, 0x42], .copyQStrRange 1 [7] 0 1]
    ⟨3, [0x86, 0x28, 0xc0]⟩ ⟨1, [0x84]⟩
    ⟨⟨4, [0x86, 0x28, 0xc0]⟩, by decide, show 4 < 1431655765 by decide, ⟨3, [0x86, 0x28, 0xc0]⟩,
      by decide, ⟨show 3 < 1431655765 by decide, fun _ => by decide⟩, rfl⟩
    ⟨⟨2, [0x86, 0x20]⟩, by decide, show 2 < 1431655765 by decide, ⟨1, [0x84]⟩, by decide,
      show 1 < 1431655765 by decide, rfl⟩

/-- The string `"AB"` cut to one character is not equal to `"A"` for the comparison of bytes. -/
theorem cut_not_compares_alike :
    Op.apply (.rtlStrToQStr 2 [0, 0] [0x41, 0x42]) QStr.empty = some ⟨2, [0x86, 0x20]⟩ ∧
      Op.apply (.rtlQStrToQStr 1 [0]) ⟨2, [0x86, 0x20]⟩ = some ⟨1, [0x86]⟩ ∧
      Op.apply (.rtlStrToQStr 1 [0] [0x41]) QStr.empty = some ⟨1, [0x84]⟩ ∧
      ¬ SpareZero 1 [0x86] ∧ ¬ ComparesAlike ⟨1, [0x86]⟩ ⟨1, [0x84]⟩ := by
  refine ⟨by decide, by decide, by decide, by decide, ?_⟩
  rintro ⟨z₁, z₂, z₃, h₁, h₂, -, hsign, -⟩
  have hbytes : z₁ = 2 := Option.some.inj (h₁.symm.trans (by decide))
  have hchars : z₂ = 0 := Option.some.inj (h₂.symm.trans (by decide))
  rw [hbytes, hchars] at hsign
  exact absurd hsign (by decide)

end QString
