import HpccPlatform.Library.Padding
import HpccPlatform.QString.Order

/-!
# The key ranges of substring comparisons

A condition `x[1..m] = y` on a field of an index is searched as a range of the field, from `y` with
the lowest characters behind it to `y` with the highest.  `rtlCreateRange` of `eclrtl.cpp` makes the
ends for strings and data, `rtlCreateQStrRange` of `rtlqstr.cpp` for QSTRINGs.  A condition that no
field meets becomes a range from the highest to the lowest characters.
-/

namespace SubstringRange

open Buffer SixBit Padding QString

/-! ### The code -/

/-- `compareLen` after the first test of both functions; it is negative as an `int` from `2 ^ 31`
on. -/
def clipLen (fieldLen compareLen : ℕ) : ℕ :=
  if fieldLen < compareLen then if compareLen < 2 ^ 31 then fieldLen else 0 else compareLen

def invertFill (fill : UInt8) : UInt8 := if fill = 0 then 255 else 0

/-- The loop `while ((len > compareLen) && (str[len-1] == pad)) len--`. -/
def trimLen (str : List UInt8) (pad : UInt8) (compareLen : ℕ) : ℕ → Option ℕ
  | 0 => some 0
  | len + 1 =>
    if compareLen < len + 1 then do
      let c ← peek str len
      if c = pad then trimLen str pad compareLen len else some (len + 1)
    else some (len + 1)

/-- `if (len >= compareLen)`: the compared part of `out`. -/
def copyStart (out : List UInt8) (compareLen len : ℕ) (str : List UInt8) (pad : UInt8) :
    Option (List UInt8) :=
  if compareLen ≤ len then memcpy out str compareLen
  else do
    let out ← memcpy out str len
    memset out len pad (compareLen - len)

/-- `out` in `rtlCreateRange`, with what is left of the lengths. -/
def fillRange (fieldLen compareLen len : ℕ) (str : List UInt8) (fill pad : UInt8) :
    Option (List UInt8) := do
  let out ← copyStart (List.replicate fieldLen 0) compareLen len str pad
  if compareLen < fieldLen then memset out compareLen fill (fieldLen - compareLen) else some out

def rtlCreateRange (fieldLen compareLen len : ℕ) (str : List UInt8) (fill pad : UInt8) :
    Option (List UInt8) := do
  let compareLen := clipLen fieldLen compareLen
  if compareLen < len then
    let len ← trimLen str pad compareLen len
    if compareLen < len then fillRange fieldLen 0 len str (invertFill fill) pad
    else fillRange fieldLen compareLen len str fill pad
  else fillRange fieldLen compareLen len str fill pad

def rtlCreateStrRangeLow (fieldLen compareLen len : ℕ) (str : List UInt8) : Option (List UInt8) :=
  rtlCreateRange fieldLen compareLen len str 0 0x20

def rtlCreateStrRangeHigh (fieldLen compareLen len : ℕ) (str : List UInt8) : Option (List UInt8) :=
  rtlCreateRange fieldLen compareLen len str 255 0x20

def rtlCreateDataRangeLow (fieldLen compareLen len : ℕ) (str : List UInt8) : Option (List UInt8) :=
  rtlCreateRange fieldLen compareLen len str 0 0

def rtlCreateDataRangeHigh (fieldLen compareLen len : ℕ) (str : List UInt8) : Option (List UInt8) :=
  rtlCreateRange fieldLen compareLen len str 255 0

/-- The loop of `rtlTrimQStrLen`. -/
def trimQStrLoop : ℕ → QStrReader → Option ℕ
  | 0, _ => some 0
  | l + 1, reader => do
    let (c, reader) ← reader.prevQChar
    if c = 0 then trimQStrLoop l reader else some (l + 1)

def rtlTrimQStrLen (l : ℕ) (t : List UInt8) : Option ℕ :=
  trimQStrLoop l ((QStrReader.init t).seek l)

/-- `if (len >= compareLen)`: the compared part. -/
def appendStart (builder : QStrBuilder) (compareLen len : ℕ) (qstr : List UInt8) :
    Option QStrBuilder :=
  if compareLen ≤ len then builder.appendQStr compareLen (QStrReader.init qstr)
  else do
    let builder ← builder.appendQStr len (QStrReader.init qstr)
    builder.appendQCharN (compareLen - len) (compressQChar 0x20)

/-- The part of `rtlCreateQStrRange` with the builder. -/
def fillQStrRange (fieldLen compareLen len : ℕ) (qstr : List UInt8) (fill : UInt8) :
    Option (List UInt8) := do
  let builder := QStrBuilder.init (List.replicate (QStrSize fieldLen) 0)
  let builder ← appendStart builder compareLen len qstr
  let builder ← builder.finish fieldLen fill
  some builder.bytes

def rtlCreateQStrRange (fieldLen compareLen len : ℕ) (qstr : List UInt8) (fill : UInt8) :
    Option (List UInt8) :=
  let compareLen := clipLen fieldLen compareLen
  if fieldLen < len then fillQStrRange fieldLen 0 len qstr (invertFill fill)
  else fillQStrRange fieldLen compareLen len qstr fill

def rtlCreateQStrRangeLow (fieldLen compareLen len : ℕ) (qstr : List UInt8) :
    Option (List UInt8) := do
  let len ← rtlTrimQStrLen len qstr
  rtlCreateQStrRange fieldLen compareLen len qstr 0

def rtlCreateQStrRangeHigh (fieldLen compareLen len : ℕ) (qstr : List UInt8) :
    Option (List UInt8) := do
  let len ← rtlTrimQStrLen len qstr
  rtlCreateQStrRange fieldLen compareLen len qstr 255

/-! ### The ends of a range of strings -/

variable {f m c n : ℕ} {str x : List UInt8} {fill pad : UInt8}

theorem clipLen_le (f m : ℕ) : clipLen f m ≤ f := by
  unfold clipLen
  split_ifs <;> omega

theorem trimLen_eq {len : ℕ} (hlen : len ≤ str.length) :
    trimLen str pad c len = some (max (min c len) (trim pad (str.take len)).length) := by
  induction len with
  | zero => simp [trimLen, trim]
  | succ len ih =>
    have htake : str.take (len + 1) = str.take len ++ [str.getD len 0] := by
      rw [List.take_add_one, List.getElem?_eq_getElem hlen, Option.toList_some,
        List.getD_eq_getElem _ _ hlen]
    rw [trimLen]
    by_cases hc : c < len + 1
    · have hmin : min c (len + 1) = min c len := by omega
      rw [if_pos hc, peek_of_lt hlen, Option.bind_eq_bind, Option.bind_some, htake, trim_concat,
        hmin]
      split_ifs with hpad
      · exact ih (Nat.le_of_succ_le hlen)
      · rw [List.length_append, List.length_take, List.length_singleton,
          Nat.min_eq_left (Nat.le_of_succ_le hlen), max_eq_right (by omega)]
    · have hle := (length_trim_le pad (str.take (len + 1))).trans (List.length_take_le _ _)
      rw [if_neg hc, min_eq_right (Nat.not_lt.1 hc), max_eq_left hle]

theorem getD_pad_eq {k : ℕ} (hk : k < str.length) : str.getD k 0 = str.getD k pad := by
  rw [List.getD_eq_getElem _ _ hk, List.getD_eq_getElem _ _ hk]

/-- The compared part of `out`: the string and pads. -/
theorem copyStart_filled {len : ℕ} {out : List UInt8} (hc : c ≤ out.length)
    (hlen : len ≤ str.length) (hpad : ∀ k, len ≤ k → k < c → str.getD k pad = pad) :
    ∃ r, copyStart out c len str pad = some r ∧ Filled (fun k => str.getD k pad) 0 c out r := by
  unfold copyStart
  by_cases hle : c ≤ len
  · obtain ⟨r, hcopy, hr⟩ := memcpy_filled hc (hle.trans hlen)
    rw [if_pos hle]
    exact ⟨r, hcopy, hr.congr fun k _ hk => getD_pad_eq (hk.trans_le (hle.trans hlen))⟩
  · have hlt := Nat.not_le.1 hle
    have hadd : len + (c - len) = c := Nat.add_sub_cancel' hlt.le
    obtain ⟨r, hcopy, hr⟩ := memcpy_filled (hlt.le.trans hc) hlen
    obtain ⟨r', hset, hr'⟩ := @memset_filled r (c - len) len (by rwa [hadd, hr.length]) pad
    rw [if_neg hle, hcopy, Option.bind_eq_bind, Option.bind_some, hset]
    rw [hadd] at hr'
    exact ⟨r', rfl, (hr.congr fun k _ hk => getD_pad_eq (hk.trans_le hlen)).append
      (hr'.congr fun k hk hk' => (hpad k hk hk').symm) (Nat.zero_le len) hlt.le⟩

/-- The bytes of `out`: the compared part and the fill. -/
theorem fillRange_filled {len : ℕ} (hc : c ≤ f) (hlen : len ≤ str.length)
    (hpad : ∀ k, len ≤ k → k < c → str.getD k pad = pad) :
    ∃ r, fillRange f c len str fill pad = some r ∧
      Filled (fun k => if k < c then str.getD k pad else fill) 0 f (List.replicate f 0) r := by
  obtain ⟨r, hr, hstart⟩ := @copyStart_filled c str pad len (List.replicate f 0)
    (by rwa [List.length_replicate]) hlen hpad
  have hfilled : Filled (fun k => if k < c then str.getD k pad else fill) 0 c
      (List.replicate f 0) r := hstart.congr fun k _ hk => (if_pos hk).symm
  rw [fillRange, hr, Option.bind_eq_bind, Option.bind_some]
  by_cases hlt : c < f
  · have hadd : c + (f - c) = f := Nat.add_sub_cancel' hlt.le
    obtain ⟨r', hset, hr'⟩ := @memset_filled r (f - c) c
      (by rw [hadd, hfilled.length, List.length_replicate]) fill
    rw [hadd] at hr'
    rw [if_pos hlt, hset]
    exact ⟨r', rfl, hfilled.append (hr'.congr fun k hk _ => (if_neg (Nat.not_lt.2 hk)).symm)
      (Nat.zero_le c) hlt.le⟩
  · have hcf : c = f := le_antisymm hc (Nat.not_lt.1 hlt)
    rw [if_neg hlt]
    rw [hcf] at hfilled ⊢
    exact ⟨r, rfl, hfilled⟩

/-- The bytes of an end: the string in the compared part and the fill behind it, or, where the string
does not fit in that part, the opposite fill everywhere. -/
theorem rtlCreateRange_filled (f m : ℕ) (str : List UInt8) (fill pad : UInt8) :
    ∃ r, rtlCreateRange f m str.length str fill pad = some r ∧
      Filled (fun k => if (trim pad str).length ≤ clipLen f m then
        if k < clipLen f m then str.getD k pad else fill else invertFill fill) 0 f
        (List.replicate f 0) r := by
  have hle := clipLen_le f m
  have hn := length_trim_le pad str
  have hrest := (@length_trim_le_iff _ _ pad str _).1 le_rfl
  rw [rtlCreateRange]
  generalize clipLen f m = c at hle ⊢
  by_cases hlong : c < str.length
  · rw [if_pos hlong, trimLen_eq le_rfl, List.take_length, min_eq_left hlong.le,
      Option.bind_eq_bind, Option.bind_some]
    by_cases hfit : (trim pad str).length ≤ c
    · rw [max_eq_left hfit, if_neg (Nat.lt_irrefl c)]
      obtain ⟨r, hr, hfilled⟩ := @fillRange_filled f c str fill pad c hle hlong.le
        fun k hk hk' => absurd hk' (Nat.not_lt.2 hk)
      exact ⟨r, hr, hfilled.congr fun k _ _ => (if_pos hfit).symm⟩
    · rw [max_eq_right (Nat.not_le.1 hfit).le, if_pos (Nat.not_le.1 hfit)]
      obtain ⟨r, hr, hfilled⟩ := @fillRange_filled f 0 str (invertFill fill) pad
        (trim pad str).length (Nat.zero_le f) hn fun k _ hk => absurd hk (Nat.not_lt_zero k)
      exact ⟨r, hr, hfilled.congr fun k _ _ => by rw [if_neg (Nat.not_lt_zero k), if_neg hfit]⟩
  · have hfit := hn.trans (Nat.not_lt.1 hlong)
    rw [if_neg hlong]
    obtain ⟨r, hr, hfilled⟩ := @fillRange_filled f c str fill pad str.length hle le_rfl
      fun k hk _ => List.getD_eq_default _ _ hk
    exact ⟨r, hr, hfilled.congr fun k _ _ => (if_pos hfit).symm⟩

/-! ### The range of strings -/

/-- A field lies between two ends in the order of `memcmp`. -/
def InRange (low high x : List UInt8) : Prop :=
  Bytes.memcmp x.length low x ≤ 0 ∧ Bytes.memcmp x.length x high ≤ 0

theorem memcmp_signs {a b : List UInt8} (ha : a.length = n) (hb : b.length = n) :
    Signs (Bytes.memcmp n a b) (bytesOf a) (bytesOf b) := by
  obtain ⟨hneg, hpos, hzero⟩ := memcmp_cases ha.ge hb.ge
  refine signs_of hneg hpos fun h => funext fun j => ?_
  by_cases hj : j < n
  · exact hzero h j hj
  · rw [bytesOf_eq_zero (ha ▸ Nat.not_lt.1 hj), bytesOf_eq_zero (hb ▸ Nat.not_lt.1 hj)]

theorem inRange_iff {low high : List UInt8} (hlow : low.length = x.length)
    (hhigh : high.length = x.length) :
    InRange low high x ↔
      ¬ Precedes (bytesOf x) (bytesOf low) ∧ ¬ Precedes (bytesOf high) (bytesOf x) := by
  rw [InRange, ← (memcmp_signs hlow rfl).pos, ← (memcmp_signs rfl hhigh).pos, not_lt, not_lt]

/-- A range whose ends are the wrong way round is empty. -/
theorem not_inRange {low high : List UInt8} (hlow : low.length = x.length)
    (hhigh : high.length = x.length) (h : bytesOf high 0 < bytesOf low 0) :
    ¬ InRange low high x := by
  rw [inRange_iff hlow hhigh]
  rintro ⟨hlow', hhigh'⟩
  have hge : bytesOf low 0 ≤ bytesOf x 0 := Nat.not_lt.1 fun hlt =>
    hlow' ⟨0, fun j hj => absurd hj (Nat.not_lt_zero j), hlt⟩
  exact hhigh' ⟨0, fun j hj => absurd hj (Nat.not_lt_zero j), h.trans_le hge⟩

/-- The ends exist, and a field of the size lies between them when it meets the condition. -/
def Exact (size : ℕ) (low high : Option (List UInt8)) (Meets : List UInt8 → Prop) : Prop :=
  ∃ l h, low = some l ∧ high = some h ∧ ∀ x : List UInt8, x.length = size →
    (InRange l h x ↔ Meets x)

theorem Exact.congr_iff {size : ℕ} {low high : Option (List UInt8)}
    {Meets Meets' : List UInt8 → Prop} (h : Exact size low high Meets) :
    Exact size low high Meets' ↔ ∀ x : List UInt8, x.length = size → (Meets x ↔ Meets' x) := by
  obtain ⟨l, u, hl, hu, hmeets⟩ := h
  constructor
  · rintro ⟨l', u', hl', hu', hmeets'⟩ x hx
    rw [← hmeets x hx, ← hmeets' x hx, Option.some.inj (hl.symm.trans hl'),
      Option.some.inj (hu.symm.trans hu')]
  · exact fun heq => ⟨l, u, hl, hu, fun x hx => (hmeets x hx).trans (heq x hx)⟩

/-- The fields in the range begin with the string in as many characters as the code compares. -/
theorem rtlCreateRange_exact (hf : 1 ≤ f) (m : ℕ) (str : List UInt8) (pad : UInt8) :
    Exact f (rtlCreateRange f m str.length str 0 pad) (rtlCreateRange f m str.length str 255 pad)
      fun x => trim pad (x.take (clipLen f m)) = trim pad str := by
  obtain ⟨low, hlow, hlowFilled⟩ := rtlCreateRange_filled f m str 0 pad
  obtain ⟨high, hhigh, hhighFilled⟩ := rtlCreateRange_filled f m str 255 pad
  refine ⟨low, high, hlow, hhigh, fun x hx => ?_⟩
  have hle := clipLen_le f m
  have hlen : ∀ {fill r}, Filled fill 0 f (List.replicate f 0) r → r.length = x.length :=
    fun {fill r} h => by rw [h.length, List.length_replicate, hx]
  have hget : ∀ {fill : ℕ → UInt8} {r}, Filled fill 0 f (List.replicate f 0) r → ∀ k < f,
      bytesOf r k = (fill k).toNat := fun {fill r} h k hk => by
    rw [bytesOf, h.getD, if_pos ⟨Nat.zero_le k, hk⟩]
  change _ ↔ trim pad (x.take (clipLen f m)) = trim pad str
  rw [trim_take_eq_iff]
  generalize clipLen f m = c at hle hlowFilled hhighFilled ⊢
  by_cases hfit : (trim pad str).length ≤ c
  · have hx0 : ∀ k, f ≤ k → bytesOf x k = 0 := fun k hk => bytesOf_eq_zero (hx ▸ hk)
    have hlow' : ∀ k, bytesOf low k = if k < c then (str.getD k pad).toNat else 0 := fun k => by
      by_cases hk : k < f
      · rw [hget hlowFilled k hk, if_pos hfit]
        split_ifs <;> rfl
      · rw [bytesOf_eq_zero (by rw [hlen hlowFilled, hx]; exact Nat.not_lt.1 hk),
          if_neg fun h => hk (h.trans_le hle)]
    have hcut : ∀ k < f, bytesOf high k = if k < c then (str.getD k pad).toNat else 255 :=
      fun k hk => by
        rw [hget hhighFilled k hk, if_pos hfit]
        split_ifs <;> rfl
    have hbetween := @between_iff c (bytesOf x) (fun k => (str.getD k pad).toNat) (bytesOf low)
      (fun k => if k < c then (str.getD k pad).toNat else 255) 255
      (fun k => Nat.le_of_lt_succ (bytesOf_lt x k)) hlow' fun k => rfl
    rw [inRange_iff (hlen hlowFilled) (hlen hhighFilled), precedes_cut_iff hcut hx0, hbetween,
      Begins, and_iff_right hfit]
    refine forall₂_congr fun k hk => ?_
    rw [bytesOf, UInt8.toNat_inj, getD_pad_eq (hx ▸ hk.trans_le hle)]
  · refine iff_of_false (not_inRange (hlen hlowFilled) (hlen hhighFilled) ?_) fun h => hfit h.1
    rw [hget hlowFilled 0 hf, hget hhighFilled 0 hf, if_neg hfit, if_neg hfit]
    decide

/-! ### The range of QSTRINGs -/

variable {q : List UInt8} {len : ℕ} {cs : ℕ → ℕ}

/-- The characters of a QSTRING. -/
def chars (len : ℕ) (q : List UInt8) : List ℕ := (List.range len).map (charsOf q)

theorem getD_chars (q : List UInt8) (len i : ℕ) :
    (chars len q).getD i 0 = if i < len then charsOf q i else 0 := by
  split_ifs with h
  · simp [chars, List.getD_eq_getElem?_getD, h]
  · exact List.getD_eq_default _ _ (by rw [chars, List.length_map, List.length_range]; omega)

theorem getD_chars_lt (q : List UInt8) (len i : ℕ) : (chars len q).getD i 0 < 64 := by
  rw [getD_chars]
  split_ifs
  · exact charsOf_lt q i
  · decide

theorem length_trim_chars_le (len : ℕ) (q : List UInt8) : (trim 0 (chars len q)).length ≤ len :=
  (length_trim_le _ _).trans_eq (by rw [chars, List.length_map, List.length_range])

theorem rtlTrimQStrLen_eq (hlen : Fits len) (hq : size len ≤ q.length) :
    rtlTrimQStrLen len q = some (trim 0 (chars len q)).length := by
  rw [rtlTrimQStrLen, QStrReader.seek_eq _ hlen]
  change trimQStrLoop len (QStrReader.before q len) = _
  induction len with
  | zero => rfl
  | succ len ih =>
    have hfits : Fits len := hlen.mono (Nat.le_succ len)
    have hconcat : chars (len + 1) q = chars len q ++ [charsOf q len] := by
      rw [chars, List.range_succ, List.map_append, List.map_singleton]
      rfl
    have hzero : qchar q len = 0 ↔ charsOf q len = 0 := by
      rw [← UInt8.toNat_inj, toNat_qchar]
      rfl
    rw [trimQStrLoop, QStrReader.prevQChar_before hfits hq, Option.bind_eq_bind, Option.bind_some,
      hconcat, trim_concat]
    dsimp only
    by_cases hc : charsOf q len = 0
    · rw [if_pos hc, if_pos (hzero.2 hc)]
      exact ih hfits ((size_mono (Nat.le_succ len)).trans hq)
    · rw [if_neg hc, if_neg (mt hzero.1 hc), List.length_append, chars, List.length_map,
        List.length_range, List.length_singleton]

/-- The bytes of an end: those of the string in the compared part, with the fill behind it. -/
theorem fillQStrRange_eq (hf : Fits f) (hc : c ≤ f) (hn : Fits n) (hq : size n ≤ q.length)
    (fill : UInt8) :
    ∃ r, fillQStrRange f c n q fill = some r ∧ r.length = size f ∧ ∀ k < size f,
      bytesOf r k = byteAt (fun i => if i < c then (chars n q).getD i 0
        else (fill &&& 0x3F).toNat) k := by
  have hf' := hf
  unfold Fits at hf'
  generalize hcs : (fun i => if i < c then (chars n q).getD i 0 else (fill &&& 0x3F).toNat) = cs
  have hlt : ∀ i, cs i < 64 := fun i => by
    rw [← hcs]
    dsimp only
    split_ifs
    · exact getD_chars_lt q n i
    · exact toNat_fill_lt fill
  have hin : ∀ i < c, i < n → charsOf q i = cs i := fun i hi hin => by
    rw [← hcs]
    dsimp only
    rw [if_pos hi, getD_chars, if_pos hin]
  have hroom : ∀ i ≤ f, 3 * i / 4 ≤ (List.replicate (QStrSize f) (0 : UInt8)).length :=
    fun i hi => by
      rw [List.length_replicate, QStrSize_eq hf, size]
      omega
  have hsize : size f ≤ (List.replicate (QStrSize f) (0 : UInt8)).length := by
    rw [List.length_replicate, QStrSize_eq hf]
  obtain ⟨b, hstart, hb⟩ : ∃ b, appendStart
      (QStrBuilder.init (List.replicate (QStrSize f) 0)) c n q = some b ∧
        QStrBuilder.Built cs (List.replicate (QStrSize f) 0) c b := by
    have hinit := QStrBuilder.built_init cs (List.replicate (QStrSize f) 0)
    unfold appendStart
    by_cases hle : c ≤ n
    · rw [if_pos hle]
      have happend := @QStrBuilder.Built.appendQStr cs _ 0 _ q c 0 hinit hlt
        (fun j hj => by rw [Nat.zero_add]; exact hin j hj (hj.trans_le hle))
        (by rw [Nat.zero_add]; exact hn.mono hle)
        (by rw [Nat.zero_add]; exact (size_mono hle).trans hq) (by omega)
        (by rw [Nat.zero_add]; exact hroom c hc)
      rwa [Nat.zero_add] at happend
    · have hnc := (Nat.not_le.1 hle).le
      obtain ⟨b, happend, hb⟩ := @QStrBuilder.Built.appendQStr cs _ 0 _ q n 0 hinit hlt
        (fun j hj => by rw [Nat.zero_add]; exact hin j (hj.trans_le hnc) hj)
        (by rwa [Nat.zero_add]) (by rwa [Nat.zero_add]) (by omega)
        (by rw [Nat.zero_add]; exact hroom n (hnc.trans hc))
      rw [Nat.zero_add] at hb
      have hadd : n + (c - n) = c := Nat.add_sub_cancel' hnc
      obtain ⟨b', happend', hb'⟩ := @QStrBuilder.Built.appendN cs _ n b (compressQChar 0x20) (c - n)
        hb hlt (fun i hi hi' => by
          rw [compressQChar_space, ← hcs]
          dsimp only
          rw [if_pos (by omega), getD_chars, if_neg (Nat.not_lt.2 hi)]
          rfl) (by omega) (by rw [hadd]; exact hroom c hc)
      rw [hadd] at hb'
      rw [if_neg hle, QStrReader.init_eq, happend, Option.bind_eq_bind, Option.bind_some]
      exact ⟨b', happend', hb'⟩
  obtain ⟨b', hfinish, hlen, hbytes⟩ := hb.finish hlt hc hf
    (fun i hi => by rw [← hcs]; exact if_neg (Nat.not_lt.2 hi)) hsize
  refine ⟨b'.bytes, ?_, by rw [hlen, List.length_replicate, QStrSize_eq hf], fun k hk => ?_⟩
  · rw [fillQStrRange]
    simp only [hstart, hfinish, Option.bind_eq_bind, Option.bind_some]
  · rw [hbytes, if_pos hk]

/-- A builder that has taken `n` characters and has written within `size` bytes. -/
structure Placed (size n : ℕ) (b : QStrBuilder) : Prop where
  curLen : b.curLen = n
  pos : b.pos = 3 * n / 4
  length : b.bytes.length = size
  le : b.pos ≤ size

theorem put_placed {size : ℕ} {b b' : QStrBuilder} {v : UInt8} (h : Placed size n b)
    (hput : b.put v = some b') : b'.pos = 3 * n / 4 + 1 ∧ b'.bytes.length = size ∧ b'.pos ≤ size := by
  have hpos := h.pos
  have hlength := h.length
  rw [QStrBuilder.put, poke, Option.map_eq_some_iff] at hput
  obtain ⟨bytes, hpoke, rfl⟩ := hput
  split_ifs at hpoke with hlt
  rw [Option.some.injEq] at hpoke
  rw [← hpoke]
  exact ⟨congrArg (· + 1) hpos, by rw [List.length_set, hlength], by rw [← hlength]; exact hlt⟩

/-- A character that is appended has its byte within the buffer. -/
theorem appendQChar_placed {size : ℕ} {b b' : QStrBuilder} {v : UInt8} (h : Placed size n b)
    (happend : b.appendQChar v = some b') :
    b'.curLen = (n + 1) % 2 ^ 32 ∧ b'.pos = 3 * (n + 1) / 4 ∧ b'.bytes.length = size ∧
      b'.pos ≤ size := by
  have hcur := h.curLen
  have hput : ∀ {pending : UInt8} {w : UInt8}, n % 4 ≠ 0 →
      ((b.put w).map fun b => { b with pending := pending, curLen := (n + 1) % 2 ^ 32 }) =
        some b' → b'.curLen = (n + 1) % 2 ^ 32 ∧ b'.pos = 3 * (n + 1) / 4 ∧
          b'.bytes.length = size ∧ b'.pos ≤ size := by
    intro pending w hn hmap
    obtain ⟨b₁, hb₁, rfl⟩ := Option.map_eq_some_iff.1 hmap
    have hplaced := put_placed h hb₁
    rw [offset_succ_of_ne hn]
    exact ⟨rfl, hplaced⟩
  rw [QStrBuilder.appendQChar, hcur] at happend
  obtain ⟨g, hg⟩ := exists_group_of_four n
  rcases hg with hg | hg | hg | hg
  · have hr : n % 4 = 0 := by omega
    simp only [hr, Option.some.injEq] at happend
    rw [← happend, offset_succ_of_eq hr]
    exact ⟨rfl, h.pos, h.length, h.le⟩
  · have hr : n % 4 = 1 := by omega
    simp only [hr] at happend
    exact hput (by omega) happend
  · have hr : n % 4 = 2 := by omega
    simp only [hr] at happend
    exact hput (by omega) happend
  · have hr : n % 4 = 3 := by omega
    simp only [hr] at happend
    exact hput (by omega) happend

theorem Placed.append {size : ℕ} {b b' : QStrBuilder} {v : UInt8} (h : Placed size n b)
    (hn : n + 1 < 2 ^ 32) (happend : b.appendQChar v = some b') : Placed size (n + 1) b' := by
  obtain ⟨hcur, hpos, hlength, hle⟩ := appendQChar_placed h happend
  exact ⟨hcur.trans (Nat.mod_eq_of_lt hn), hpos, hlength, hle⟩

theorem Placed.appendN {size k : ℕ} {b b' : QStrBuilder} {v : UInt8} (h : Placed size n b)
    (hn : n + k < 2 ^ 32) (happend : b.appendQCharN k v = some b') : Placed size (n + k) b' := by
  induction k generalizing n b with
  | zero =>
    rw [← Option.some.inj happend]
    exact h
  | succ k ih =>
    rw [QStrBuilder.appendQCharN, Option.bind_eq_bind, Option.bind_eq_some_iff] at happend
    obtain ⟨b₁, hone, hrest⟩ := happend
    have hb₁ := ih (h.append (by omega) hone) (by omega) hrest
    rwa [Nat.add_right_comm, Nat.add_assoc] at hb₁

theorem Placed.appendQStr {size k : ℕ} {b b' : QStrBuilder} {reader : QStrReader}
    (h : Placed size n b) (hn : n + k < 2 ^ 32) (happend : b.appendQStr k reader = some b') :
    Placed size (n + k) b' := by
  induction k generalizing n b reader with
  | zero =>
    rw [← Option.some.inj happend]
    exact h
  | succ k ih =>
    simp only [QStrBuilder.appendQStr, Option.bind_eq_bind, Option.bind_eq_some_iff] at happend
    obtain ⟨⟨v, reader'⟩, -, b₁, hone, hrest⟩ := happend
    have hb₁ := ih (h.append (by omega) hone) (by omega) hrest
    rwa [Nat.add_right_comm, Nat.add_assoc] at hb₁

/-- An end is made only for a field whose size does not overflow. -/
theorem fits_of_fillQStrRange {r : List UInt8} (hf : f < 2 ^ 32) (hc : c ≤ f)
    (h : fillQStrRange f c n q fill = some r) : Fits f := by
  simp only [fillQStrRange, Option.bind_eq_bind, Option.bind_eq_some_iff, QStrBuilder.finish] at h
  obtain ⟨b, hstart, b₂, ⟨b₁, hloop, hlast⟩, -⟩ := h
  have hinit : Placed (QStrSize f) 0 (QStrBuilder.init (List.replicate (QStrSize f) 0)) :=
    ⟨rfl, rfl, List.length_replicate, Nat.zero_le _⟩
  have hb : Placed (QStrSize f) c b := by
    unfold appendStart at hstart
    split_ifs at hstart with hle
    · have happend := hinit.appendQStr (by omega) hstart
      rwa [Nat.zero_add] at happend
    · rw [Option.bind_eq_bind, Option.bind_eq_some_iff] at hstart
      obtain ⟨b₀, hfirst, hrest⟩ := hstart
      have happend := (hinit.appendQStr (by omega) hfirst).appendN (by omega) hrest
      rwa [Nat.zero_add, Nat.add_sub_cancel' (Nat.not_le.1 hle).le] at happend
  have hcur := hb.curLen
  rw [hcur] at hloop
  have hend := hb.appendN (by omega) hloop
  rw [Nat.add_sub_cancel' hc] at hend
  obtain ⟨-, hpos, -, hle⟩ := appendQChar_placed hend hlast
  rw [hpos, QStrSize] at hle
  unfold Fits
  omega

/-- The trimmed string has the characters of the whole. -/
theorem getD_chars_trim (q : List UInt8) (len i : ℕ) :
    (chars (trim 0 (chars len q)).length q).getD i 0 = (chars len q).getD i 0 := by
  have hn := length_trim_chars_le len q
  by_cases hi : i < (trim 0 (chars len q)).length
  · rw [getD_chars, getD_chars, if_pos hi, if_pos (hi.trans_le hn)]
  · rw [length_trim_le_iff.1 le_rfl i (Nat.not_lt.1 hi), getD_chars, if_neg hi]

/-- What a field of the QSTRING range has: nothing when the trimmed string is longer than the field,
and otherwise the string in as many characters as are compared, however long it is. -/
def QStrMeets (f m len : ℕ) (q x : List UInt8) : Prop :=
  (trim 0 (chars len q)).length ≤ f ∧ ∀ i < clipLen f m, charsOf x i = (chars len q).getD i 0

theorem rtlCreateQStrRange_exact (hf1 : 1 ≤ f) (hf : Fits f) (m : ℕ) (hlen : Fits len)
    (hq : size len ≤ q.length) :
    Exact (QStrSize f) (rtlCreateQStrRangeLow f m len q) (rtlCreateQStrRangeHigh f m len q)
      (QStrMeets f m len q) := by
  have hn := length_trim_chars_le len q
  have hc := clipLen_le f m
  have hnfits : Fits (trim 0 (chars len q)).length := hlen.mono hn
  have hnq := (size_mono hn).trans hq
  have hchars := getD_chars_trim q len
  have hpos : 0 < size f := by
    rw [size]
    omega
  rw [rtlCreateQStrRangeLow, rtlCreateQStrRangeHigh, rtlTrimQStrLen_eq hlen hq, Option.bind_eq_bind,
    Option.bind_some, Option.bind_some, rtlCreateQStrRange, rtlCreateQStrRange, QStrSize_eq hf]
  by_cases hlong : f < (trim 0 (chars len q)).length
  · obtain ⟨low, hlow, hlowLen, hlowBytes⟩ :=
      fillQStrRange_eq hf (Nat.zero_le f) hnfits hnq (invertFill 0)
    obtain ⟨high, hhigh, hhighLen, hhighBytes⟩ :=
      fillQStrRange_eq hf (Nat.zero_le f) hnfits hnq (invertFill 255)
    rw [if_pos hlong, if_pos hlong]
    refine ⟨low, high, hlow, hhigh, fun x hx => iff_of_false ?_ fun h =>
      Nat.not_lt.2 h.1 hlong⟩
    refine not_inRange (hlowLen.trans hx.symm) (hhighLen.trans hx.symm) ?_
    rw [hlowBytes 0 hpos, hhighBytes 0 hpos]
    simp only [Nat.not_lt_zero, if_false]
    decide
  · have hshort := Nat.not_lt.1 hlong
    obtain ⟨low, hlow, hlowLen, hlowBytes⟩ := fillQStrRange_eq hf hc hnfits hnq 0
    obtain ⟨high, hhigh, hhighLen, hhighBytes⟩ := fillQStrRange_eq hf hc hnfits hnq 255
    simp only [hchars] at hlowBytes hhighBytes
    rw [if_neg hlong, if_neg hlong]
    refine ⟨low, high, hlow, hhigh, fun x hx => ?_⟩
    have hseq : ∀ fill : UInt8, ∀ i, (if i < clipLen f m then (chars len q).getD i 0
        else (fill &&& 0x3F).toNat) < 64 := fun fill i => by
      split_ifs
      · exact getD_chars_lt q len i
      · exact toNat_fill_lt fill
    have hx0 : ∀ k, size f ≤ k → bytesOf x k = 0 := fun k hk => bytesOf_eq_zero (hx ▸ hk)
    have hlowAll : bytesOf low = byteAt fun i =>
        if i < clipLen f m then (chars len q).getD i 0 else ((0 : UInt8) &&& 0x3F).toNat := by
      funext k
      by_cases hk : k < size f
      · exact hlowBytes k hk
      · rw [bytesOf_eq_zero (hlowLen ▸ Nat.not_lt.1 hk), byteAt_eq_zero (n := f) (fun i hi => by
          rw [if_neg (Nat.not_lt.2 (hc.trans hi))]; rfl) (Nat.not_lt.1 hk)]
    rw [inRange_iff (hlowLen.trans hx.symm) (hhighLen.trans hx.symm),
      precedes_cut_iff hhighBytes hx0, hlowAll,
      ← precedes_charAt_iff (bytesOf_lt x) (byteAt_lt (hseq 0)),
      ← precedes_charAt_iff (byteAt_lt (hseq 255)) (bytesOf_lt x),
      funext (charAt_byteAt (hseq 0)), funext (charAt_byteAt (hseq 255)), QStrMeets,
      and_iff_right hshort]
    exact between_iff (y := fun i => (chars len q).getD i 0)
      (fun i => Nat.le_of_lt_succ (charsOf_lt x i)) (fun i => rfl) fun i => rfl

/-! ### What the ranges are for -/

/-- The number of characters that a condition on `x[1..m]` compares. -/
def countsAs (fieldLen m : ℕ) : ℕ := if 2 ^ 31 < m then 0 else min m fieldLen

theorem countsAs_le (f m : ℕ) : countsAs f m ≤ f := by
  unfold countsAs
  split_ifs
  · exact Nat.zero_le f
  · exact min_le_right m f

/-- A QSTRING that a field is compared with: the bytes of its characters. -/
structure SearchQStr where
  len : ℕ
  bytes : List UInt8
  fits : Fits len
  size_le : size len ≤ bytes.length

/-- The range of strings is that of the fields that the condition holds of. -/
def StrExact (f m : ℕ) (str : List UInt8) : Prop :=
  Exact f (rtlCreateStrRangeLow f m str.length str) (rtlCreateStrRangeHigh f m str.length str)
    fun x => trim 0x20 (x.take (countsAs f m)) = trim 0x20 str

def DataExact (f m : ℕ) (str : List UInt8) : Prop :=
  Exact f (rtlCreateDataRangeLow f m str.length str) (rtlCreateDataRangeHigh f m str.length str)
    fun x => trim 0 (x.take (countsAs f m)) = trim 0 str

def QStrExact (f m : ℕ) (q : SearchQStr) : Prop :=
  Exact (QStrSize f) (rtlCreateQStrRangeLow f m q.len q.bytes)
    (rtlCreateQStrRangeHigh f m q.len q.bytes)
    fun x => trim 0 ((chars f x).take (countsAs f m)) = trim 0 (chars q.len q.bytes)

/-- The code compares as many characters as the condition does, or the string is longer than both. -/
def LengthAgrees (f m n : ℕ) : Prop :=
  clipLen f m = countsAs f m ∨ max (clipLen f m) (countsAs f m) < n

instance (f m n : ℕ) : Decidable (LengthAgrees f m n) := inferInstanceAs (Decidable (_ ∨ _))

/-- Comparing another number of characters is seen in some field of the size. -/
theorem trim_take_agree_iff {a b : ℕ} {other : UInt8} (hother : other ≠ pad) (ha : a ≤ f)
    (hb : b ≤ f) (str : List UInt8) :
    (∀ x : List UInt8, x.length = f →
        (trim pad (x.take a) = trim pad str ↔ trim pad (x.take b) = trim pad str)) ↔
      a = b ∨ max a b < (trim pad str).length := by
  simp only [trim_take_eq_iff]
  constructor
  · refine fun h => eq_or_lt_of_begins_agree hother fun g _ => ?_
    have hx := h ((List.range f).map g) (by rw [List.length_map, List.length_range])
    have hget : ∀ k ≤ f, Begins pad str k (fun j => ((List.range f).map g).getD j pad) ↔
        Begins pad str k g := fun k hk => Begins.congr fun j hj => by
      simp [List.getD_eq_getElem?_getD, hj.trans_le hk]
    rwa [hget a ha, hget b hb] at hx
  · exact fun h x _ => begins_agree h _

theorem strExact_iff (hf : 1 ≤ f) (m : ℕ) (str : List UInt8) :
    StrExact f m str ↔ LengthAgrees f m (trim 0x20 str).length :=
  (rtlCreateRange_exact hf m str 0x20).congr_iff.trans
    (@trim_take_agree_iff f 0x20 (clipLen f m) (countsAs f m) 0 (by decide) (clipLen_le f m)
      (countsAs_le f m) str)

theorem dataExact_iff (hf : 1 ≤ f) (m : ℕ) (str : List UInt8) :
    DataExact f m str ↔ LengthAgrees f m (trim 0 str).length :=
  (rtlCreateRange_exact hf m str 0).congr_iff.trans
    (@trim_take_agree_iff f 0 (clipLen f m) (countsAs f m) 1 (by decide) (clipLen_le f m)
      (countsAs_le f m) str)

/-- The characters of a field are any row of characters. -/
theorem exists_chars {g : ℕ → ℕ} (hg : ∀ i, g i < 64) (f : ℕ) :
    ∃ x : List UInt8, x.length = size f ∧ ∀ i < f, charsOf x i = g i := by
  have hlt : ∀ i, (if i < f then g i else 0) < 64 := fun i => by
    split_ifs
    · exact hg i
    · decide
  refine ⟨(List.range (size f)).map (packed fun i => if i < f then g i else 0),
    by rw [List.length_map, List.length_range], fun i hi => ?_⟩
  refine (charsOf_eq_of_bytesOf hlt (fun k => ?_) i).trans (if_pos hi)
  by_cases hk : k < size f
  · rw [bytesOf, ← toNat_packed hlt]
    simp [List.getD_eq_getElem?_getD, hk]
  · rw [bytesOf_eq_zero (by simpa using hk),
      byteAt_eq_zero (fun i hi => if_neg (Nat.not_lt.2 hi)) (Nat.not_lt.1 hk)]

/-- For a QSTRING that is not longer than the field but longer than the compared part, the range is
too wide. -/
theorem qstrMeets_agree_iff (f m len : ℕ) (q : List UInt8) :
    (∀ x : List UInt8, x.length = size f → (QStrMeets f m len q x ↔
        trim 0 ((chars f x).take (countsAs f m)) = trim 0 (chars len q))) ↔
      f < (trim 0 (chars len q)).length ∨
        (trim 0 (chars len q)).length ≤ clipLen f m ∧ clipLen f m = countsAs f m := by
  have ha := clipLen_le f m
  have hb := countsAs_le f m
  have hchars : ∀ (x : List UInt8) (g : ℕ → ℕ), (∀ i < f, charsOf x i = g i) →
      ∀ k ≤ f, (Begins 0 (chars len q) k (fun j => (chars f x).getD j 0) ↔
        Begins 0 (chars len q) k g) := fun x g hx k hk => Begins.congr fun j hj => by
    rw [getD_chars, if_pos (hj.trans_le hk), hx j (hj.trans_le hk)]
  have hsmall : ∀ {g : ℕ → ℕ} {c : ℕ}, c < 64 → (∀ j, g j = (chars len q).getD j 0 ∨ g j = c) →
      ∀ j, g j < 64 := fun {g c} hc hg j => by
    rcases hg j with h | h
    · rw [h]
      exact getD_chars_lt q len j
    · rwa [h]
  simp only [trim_take_eq_iff]
  constructor
  · intro h
    refine or_iff_not_imp_left.2 fun hshort => ?_
    have hshort' := Nat.not_lt.1 hshort
    by_cases hfit : (trim 0 (chars len q)).length ≤ clipLen f m
    · refine ⟨hfit, ?_⟩
      have hagree := @eq_or_lt_of_begins_agree ℕ _ 0 (chars len q) (clipLen f m) (countsAs f m) 1
        (by decide) fun g hg => by
          obtain ⟨x, hlen, hx⟩ := exists_chars (hsmall (by decide) hg) f
          have hmeets := h x hlen
          rw [hchars x g hx _ hb] at hmeets
          refine Iff.trans ⟨fun hbegin => ⟨hshort', fun i hi => ?_⟩,
            fun hmeet => ⟨hfit, fun i hi => ?_⟩⟩ hmeets
          · exact (hx i (hi.trans_le ha)).symm.trans (hmeet.2 i hi)
          · exact (hx i (hi.trans_le ha)).trans (hbegin.2 i hi)
      exact hagree.resolve_right fun hlong =>
        Nat.not_lt.2 hfit (lt_of_le_of_lt (le_max_left _ _) hlong)
    · obtain ⟨g, hg, hkeep, hnot⟩ := @exists_not_begins ℕ _ 0 (chars len q) (clipLen f m)
        (countsAs f m) (Nat.not_le.1 hfit)
      obtain ⟨x, hlen, hx⟩ := exists_chars (hsmall (by decide) hg) f
      have hmeets := (h x hlen).1 ⟨hshort', fun i hi => by
        rw [hx i (hi.trans_le ha), hkeep i hi]⟩
      exact absurd ((hchars x g hx _ hb).1 hmeets) hnot
  · rintro (hlong | ⟨hfit, heq⟩) x hlen
    · exact iff_of_false (fun h => Nat.not_lt.2 h.1 hlong)
        fun h => Nat.not_lt.2 (h.1.trans hb) hlong
    · rw [← heq, hchars x (charsOf x) (fun _ _ => rfl) _ ha]
      exact ⟨fun h => ⟨hfit, h.2⟩, fun h => ⟨hfit.trans ha, h.2⟩⟩

/-- An end is made of a field that does not fit only by writing behind it. -/
theorem fits_of_qstrExact {q : SearchQStr} (hf : f < 2 ^ 32) (h : QStrExact f m q) : Fits f := by
  obtain ⟨low, -, hlow, -, -⟩ := h
  rw [rtlCreateQStrRangeLow, rtlTrimQStrLen_eq q.fits q.size_le, Option.bind_eq_bind,
    Option.bind_some, rtlCreateQStrRange] at hlow
  split_ifs at hlow
  · exact fits_of_fillQStrRange hf (Nat.zero_le f) hlow
  · exact fits_of_fillQStrRange hf (clipLen_le f m) hlow

theorem qstrExact_iff (hf1 : 1 ≤ f) (hf : f < 2 ^ 32) (m : ℕ) (q : SearchQStr) :
    QStrExact f m q ↔ f < 1431655765 ∧ (f < (trim 0 (chars q.len q.bytes)).length ∨
      (trim 0 (chars q.len q.bytes)).length ≤ clipLen f m ∧ clipLen f m = countsAs f m) := by
  constructor
  · intro h
    have hfits : Fits f := fits_of_qstrExact hf h
    refine ⟨hfits, (qstrMeets_agree_iff f m q.len q.bytes).1 ?_⟩
    rw [← QStrSize_eq hfits]
    exact (rtlCreateQStrRange_exact hf1 hfits m q.fits q.size_le).congr_iff.1 h
  · rintro ⟨hfits, hagree⟩
    refine (rtlCreateQStrRange_exact hf1 hfits m q.fits q.size_le).congr_iff.2 ?_
    rw [QStrSize_eq hfits]
    exact (qstrMeets_agree_iff f m q.len q.bytes).2 hagree

/-- The ranges are those of the fields that meet the condition right when the code compares as many
characters as the condition does, where that matters, and, for QSTRINGs, the size of the field does
not overflow and the trimmed string fits in the compared part or not even in the field. -/
theorem ranges_exact_iff (hf1 : 1 ≤ f) (hf : f < 2 ^ 32) (m : ℕ) (str data : List UInt8)
    (q : SearchQStr) :
    StrExact f m str ∧ DataExact f m data ∧ QStrExact f m q ↔
      LengthAgrees f m (trim 0x20 str).length ∧ LengthAgrees f m (trim 0 data).length ∧
        f < 1431655765 ∧ (f < (trim 0 (chars q.len q.bytes)).length ∨
          (trim 0 (chars q.len q.bytes)).length ≤ clipLen f m ∧ clipLen f m = countsAs f m) := by
  rw [strExact_iff hf1, dataExact_iff hf1, qstrExact_iff hf1 hf]

/-- The QSTRING `"AB"`. -/
def searchAB : SearchQStr where
  len := 2
  bytes := [0x86, 0x20]
  fits := show 2 < 1431655765 by decide
  size_le := by decide

theorem ranges_exact_two :
    StrExact 4 2 [0x41, 0x42, 0x20] ∧ DataExact 4 2 [1, 2, 3] ∧ QStrExact 4 2 searchAB :=
  (ranges_exact_iff (f := 4) (by decide) (by decide) 2 [0x41, 0x42, 0x20] [1, 2, 3] searchAB).2
    (by decide)

/-- For `x[1..1] = 'AB'` on a QSTRING of four characters the range has all fields that begin with
`A`, as for instance `"AB"`. -/
theorem qstr_range_too_wide :
    rtlCreateQStrRangeLow 4 1 2 [0x86, 0x20] = some [0x84, 0x00, 0x00] ∧
      rtlCreateQStrRangeHigh 4 1 2 [0x86, 0x20] = some [0x87, 0xff, 0xff] ∧
      InRange [0x84, 0x00, 0x00] [0x87, 0xff, 0xff] [0x86, 0x20, 0x00] ∧
      trim 0 ((chars 4 [0x86, 0x20, 0x00]).take 1) ≠ trim 0 (chars 2 [0x86, 0x20]) ∧
      ¬ (StrExact 4 1 [0x41] ∧ DataExact 4 1 [0x41] ∧ QStrExact 4 1 searchAB) := by
  refine ⟨by decide, by decide, ⟨by decide, by decide⟩, by decide, ?_⟩
  rintro ⟨-, -, low, high, hlow, hhigh, hmeets⟩
  have hl : low = [0x84, 0x00, 0x00] := Option.some.inj (hlow.symm.trans (by decide))
  have hh : high = [0x87, 0xff, 0xff] := Option.some.inj (hhigh.symm.trans (by decide))
  rw [hl, hh] at hmeets
  have hx := (hmeets [0x86, 0x20, 0x00] (by decide)).1 ⟨by decide, by decide⟩
  exact absurd hx (by decide)

end SubstringRange
