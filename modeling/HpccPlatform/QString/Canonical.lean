import HpccPlatform.QString.Convert

/-!
# Canonical QSTRINGs

The last byte of a QSTRING has bits that no character uses, unless its length is a multiple of four.
They are zero in what the library makes, with one exception: `rtlQStrToQStr` copies whole bytes and
does not clear them when it cuts a QSTRING within a byte.
-/

namespace QString

open Buffer SixBit

def rtlQStrToQStr (outlen : ℕ) (out : List UInt8) (inlen : ℕ) (qstr : List UInt8) :
    Option (List UInt8) :=
  let inSize := QStrSize inlen
  let outSize := QStrSize outlen
  if outSize ≤ inSize then memcpy out qstr outSize
  else do
    let out ← memcpy out qstr inSize
    memset out inSize 0 (outSize - inSize)

/-- The new memory is zero here, and is overwritten. -/
def rtlQStrToStrX (inlen : ℕ) (qstr : List UInt8) : Option (List UInt8) :=
  rtlQStrToStr inlen (List.replicate inlen 0) inlen qstr

def copyQStrRange (tlen : ℕ) (tgt src : List UInt8) (first last : ℕ) : Option (List UInt8) :=
  let copylen := (last + 2 ^ 32 - first) % 2 ^ 32
  if first % 4 = 0 then do
    let tgt ← rtlQStrToQStr tlen tgt copylen (src.drop (QStrSize first))
    if copylen % 4 ≠ 0 then
      let copysize := QStrSize copylen
      let byte ← peek tgt (copysize - 1)
      poke tgt (copysize - 1) (byte &&& lastQStrByteMask copylen)
    else some tgt
  else if copylen = 0 then memset tgt 0 0 (QStrSize tlen)
  else do
    let temp ← rtlQStrToStrX ((first + copylen) % 2 ^ 32) src
    rtlStrToQStr tlen tgt copylen (temp.drop first)

/-! ### The spare bits -/

/-- The bits of the last byte that the characters do not use. -/
def SpareZero (length : ℕ) (bytes : List UInt8) : Prop :=
  bytes.getD (QStrSize length - 1) 0 &&& ~~~ lastQStrByteMask length = 0

instance (length : ℕ) (bytes : List UInt8) : Decidable (SpareZero length bytes) :=
  inferInstanceAs (Decidable (_ = _))

/-- A QSTRING with its length has the size for it, and no character behind its last one. -/
structure Canonical (length : ℕ) (bytes : List UInt8) : Prop where
  fits : Fits length
  size : bytes.length = size length
  rest : ∀ i, length ≤ i → charsOf bytes i = 0

variable {n m i k : ℕ} {q r out s : List UInt8}

theorem and_not_fc (x : UInt8) : x &&& ~~~ 0xfc = 0 ↔ x.toNat % 4 = 0 := by
  rw [← UInt8.toNat_inj, show ~~~ (0xfc : UInt8) = 0x3 from rfl, toNat_and_3]
  rfl

theorem and_not_f0 (x : UInt8) : x &&& ~~~ 0xf0 = 0 ↔ x.toNat % 16 = 0 := by
  rw [← UInt8.toNat_inj, show ~~~ (0xf0 : UInt8) = 0xf from rfl, toNat_and_f]
  rfl

theorem and_not_c0 (x : UInt8) : x &&& ~~~ 0xc0 = 0 ↔ x.toNat % 64 = 0 := by
  rw [← UInt8.toNat_inj, show ~~~ (0xc0 : UInt8) = 0x3f from rfl, toNat_and_3f]
  rfl

theorem bytesOf_eq_zero (h : q.length ≤ k) : bytesOf q k = 0 := by
  rw [bytesOf, getD_eq_zero h]
  rfl

theorem charsOf_eq_zero (h : ∀ k, n ≤ k → bytesOf q k = 0) (hi : n ≤ 3 * i / 4) :
    charsOf q i = 0 := by
  obtain ⟨g, rfl | rfl | rfl | rfl⟩ := exists_group_of_four i
  · rw [charsOf_zero, h _ (by omega)]
  · rw [charsOf_one, h _ (by omega), h _ (by omega)]
  · rw [charsOf_two, h _ (by omega), h _ (by omega)]
  · rw [charsOf_three, h _ (by omega)]

/-- The spare bits are those of the character behind the last one. -/
theorem spareZero_iff (hn : Fits n) (hbytes : ∀ k, size n ≤ k → bytesOf q k = 0) :
    SpareZero n q ↔ ∀ i, n ≤ i → charsOf q i = 0 := by
  rw [SpareZero, QStrSize_eq hn, lastQStrByteMask]
  obtain ⟨g, rfl | rfl | rfl | rfl⟩ := exists_group_of_four n
  · have hsize : size (4 * g) = 3 * g := by unfold size; omega
    have hr : 4 * g % 4 = 0 := by omega
    simp only [hr]
    exact iff_of_true UInt8.and_zero fun i hi => charsOf_eq_zero hbytes (by omega)
  · have hsize : size (4 * g + 1) = 3 * g + 1 := by unfold size; omega
    have hr : (4 * g + 1) % 4 = 1 := by omega
    rw [hsize] at hbytes
    have hnext : charsOf q (4 * g + 1) = bytesOf q (3 * g) % 4 * 16 := by
      rw [charsOf_one, hbytes _ le_rfl, Nat.zero_div, Nat.add_zero]
    simp only [hr, hsize, Nat.add_sub_cancel, and_not_fc]
    change bytesOf q (3 * g) % 4 = 0 ↔ _
    constructor
    · intro h i hi
      rcases Nat.eq_or_lt_of_le hi with rfl | hlt
      · rw [hnext, h, Nat.zero_mul]
      · exact charsOf_eq_zero hbytes (by omega)
    · intro h
      have hzero := h _ le_rfl
      omega
  · have hsize : size (4 * g + 2) = 3 * g + 2 := by unfold size; omega
    have hr : (4 * g + 2) % 4 = 2 := by omega
    rw [hsize] at hbytes
    have hnext : charsOf q (4 * g + 2) = bytesOf q (3 * g + 1) % 16 * 4 := by
      rw [charsOf_two, hbytes _ le_rfl, Nat.zero_div, Nat.add_zero]
    simp only [hr, hsize, Nat.succ_sub_one, and_not_f0]
    change bytesOf q (3 * g + 1) % 16 = 0 ↔ _
    constructor
    · intro h i hi
      rcases Nat.eq_or_lt_of_le hi with rfl | hlt
      · rw [hnext, h, Nat.zero_mul]
      · exact charsOf_eq_zero hbytes (by omega)
    · intro h
      have hzero := h _ le_rfl
      omega
  · have hsize : size (4 * g + 3) = 3 * g + 3 := by unfold size; omega
    have hr : (4 * g + 3) % 4 = 3 := by omega
    rw [hsize] at hbytes
    simp only [hr, hsize, Nat.succ_sub_one, and_not_c0]
    change bytesOf q (3 * g + 2) % 64 = 0 ↔ _
    constructor
    · intro h i hi
      rcases Nat.eq_or_lt_of_le hi with rfl | hlt
      · rw [charsOf_three, h]
      · exact charsOf_eq_zero hbytes (by omega)
    · intro h
      rw [← charsOf_three]
      exact h _ le_rfl

theorem canonical_iff (hn : Fits n) (hq : q.length = size n) : Canonical n q ↔ SpareZero n q := by
  rw [spareZero_iff hn fun k hk => bytesOf_eq_zero (hq ▸ hk)]
  exact ⟨Canonical.rest, fun h => ⟨hn, hq, h⟩⟩

/-! ### What the functions make -/

theorem canonical_rtlStrToQStr (hn : Fits n) (hout : out.length = QStrSize n)
    (h : rtlStrToQStr n out s.length s = some r) : Canonical n r := by
  rw [rtlStrToQStr_eq hn hout, Option.some.injEq] at h
  have hc := charSeq_lt s (min n s.length)
  have hlen : r.length = size n := by rw [← h, List.length_map, List.length_range]
  have hbytes : ∀ k, bytesOf r k = byteAt (charSeq s (min n s.length)) k := fun k => by
    by_cases hk : k < size n
    · rw [bytesOf, ← toNat_packed hc, ← h]
      simp [List.getD_eq_getElem?_getD, hk]
    · rw [bytesOf_eq_zero (hlen ▸ Nat.not_lt.1 hk),
        byteAt_eq_zero (fun i hi => charSeq_eq_zero (min_le_of_left_le hi)) (Nat.not_lt.1 hk)]
  refine ⟨hn, hlen, fun i hi => ?_⟩
  rw [charsOf_eq_of_bytesOf hc hbytes, charSeq_eq_zero (min_le_of_left_le hi)]

theorem canonical_stepQString {step : UInt8 → UInt8} {wrapped : UInt8} {ok : Bool}
    (hq : Canonical n q) (h : stepQString step wrapped q n = some (ok, r)) : Canonical n r := by
  obtain ⟨ok', r', hstep, hlen, hkeep⟩ := stepQString_keeps step wrapped hq.fits hq.size.ge
  rw [hstep, Option.some.injEq, Prod.mk.injEq] at h
  obtain ⟨-, rfl⟩ := h
  exact ⟨hq.fits, hlen.trans hq.size, fun i hi => (hkeep i hi).trans (hq.rest i hi)⟩

/-- The bytes that are copied, with zeros behind them. -/
theorem rtlQStrToQStr_eq (hm : Fits m) (hn : Fits n) (hout : out.length = size m)
    (hq : size n ≤ q.length) :
    ∃ r, rtlQStrToQStr m out n q = some r ∧ r.length = size m ∧
      ∀ k, bytesOf r k = if k < size m ∧ k < size n then bytesOf q k else 0 := by
  unfold rtlQStrToQStr
  dsimp only
  rw [QStrSize_eq hm, QStrSize_eq hn]
  by_cases hle : size m ≤ size n
  · obtain ⟨r, hcopy, hfill⟩ := memcpy_filled hout.ge (hle.trans hq)
    have hlen : r.length = size m := hfill.length.trans hout
    refine ⟨r, by rw [if_pos hle, hcopy], hlen, fun k => ?_⟩
    by_cases hk : k < size m
    · rw [if_pos ⟨hk, hk.trans_le hle⟩, bytesOf, hfill.getD, if_pos ⟨Nat.zero_le k, hk⟩, bytesOf]
    · rw [if_neg (fun h => hk h.1), bytesOf_eq_zero (hlen ▸ Nat.not_lt.1 hk)]
  · have hlt := Nat.not_le.1 hle
    have hadd : size n + (size m - size n) = size m := Nat.add_sub_cancel' hlt.le
    obtain ⟨out', hcopy, hfill⟩ := memcpy_filled (hout ▸ hlt.le) hq
    have hlen : out'.length = size m := hfill.length.trans hout
    obtain ⟨r, hset, hzeros⟩ := memset_filled (hadd.trans hlen.symm).le 0
    have hlen' : r.length = size m := hzeros.length.trans hlen
    refine ⟨r, by rw [if_neg hle, hcopy]; exact hset, hlen', fun k => ?_⟩
    by_cases hk : k < size m
    · rw [bytesOf, hzeros.getD, hadd]
      by_cases hcopied : k < size n
      · rw [if_neg (fun h => absurd hcopied (Nat.not_lt.2 h.1)), if_pos ⟨hk, hcopied⟩, hfill.getD,
          if_pos ⟨Nat.zero_le k, hcopied⟩, bytesOf]
      · rw [if_pos ⟨Nat.not_lt.1 hcopied, hk⟩, if_neg (fun h => hcopied h.2)]
        rfl
    · rw [if_neg (fun h => hk h.1), bytesOf_eq_zero (hlen' ▸ Nat.not_lt.1 hk)]

theorem spareZero_zero (q : List UInt8) : SpareZero 0 q := UInt8.and_zero

theorem spareZero_congr (h : r.getD (QStrSize m - 1) 0 = q.getD (QStrSize m - 1) 0) :
    SpareZero m r ↔ SpareZero m q := by
  rw [SpareZero, SpareZero, h]

/-- A copy to another length is canonical unless it keeps a part of a character that is cut off. -/
theorem canonical_rtlQStrToQStr_iff (hm : Fits m) (hq : Canonical n q) (hout : out.length = QStrSize m)
    (h : rtlQStrToQStr m out n q = some r) :
    Canonical m r ↔ (QStrSize m ≤ QStrSize n → SpareZero m q) := by
  rw [QStrSize_eq hm] at hout
  obtain ⟨r', hcopy, hlen, hbytes⟩ := rtlQStrToQStr_eq hm hq.fits hout hq.size.ge
  rw [hcopy, Option.some.injEq] at h
  subst h
  rw [canonical_iff hm hlen, QStrSize_eq hm, QStrSize_eq hq.fits]
  by_cases hle : size m ≤ size n
  · rw [imp_iff_right hle]
    rcases Nat.eq_zero_or_pos m with rfl | hpos
    · exact iff_of_true (spareZero_zero _) (spareZero_zero _)
    · refine spareZero_congr ?_
      have hlast : size m - 1 < size m := Nat.sub_lt (by unfold size; omega) Nat.one_pos
      have hbyte := hbytes (size m - 1)
      rw [if_pos ⟨hlast, hlast.trans_le hle⟩] at hbyte
      rw [QStrSize_eq hm]
      exact UInt8.toNat_inj.1 hbyte
  · have hlt := Nat.not_le.1 hle
    have hnm : n ≤ m := Nat.le_of_not_lt fun h => hle (size_mono h.le)
    have hsame : bytesOf r' = bytesOf q := funext fun k => by
      rw [hbytes]
      by_cases hk : k < size n
      · rw [if_pos ⟨hk.trans hlt, hk⟩]
      · rw [if_neg (fun h => hk h.2), bytesOf_eq_zero (hq.size ▸ Nat.not_lt.1 hk)]
    refine iff_of_true ?_ fun h => absurd h hle
    rw [spareZero_iff hm fun k hk => bytesOf_eq_zero (hlen ▸ hk)]
    intro i hi
    rw [charsOf, hsame]
    exact hq.rest i (hnm.trans hi)

theorem canonical_of_bytesOf (hm : Fits m) (hr : r.length = size m) (hnm : n ≤ m)
    (hbytes : ∀ k, size n ≤ k → bytesOf r k = 0) (hspare : SpareZero n r) : Canonical m r :=
  ⟨hm, hr, fun i hi => (spareZero_iff (hm.mono hnm) hbytes).1 hspare i (hnm.trans hi)⟩

theorem spareZero_of_mod (h : n % 4 = 0) (q : List UInt8) : SpareZero n q := by
  rw [SpareZero, lastQStrByteMask, h]
  exact UInt8.and_zero

theorem and_and_not (x y : UInt8) : x &&& y &&& ~~~ y = 0 := by
  rw [UInt8.and_assoc, UInt8.and_not_self, UInt8.and_zero]

/-- The end of `copyQStrRange` for a range that starts at a byte. -/
theorem canonical_mask {tgt : List UInt8} (hm : Fits m) (hnm : n ≤ m) (hlen : tgt.length = size m)
    (hbytes : ∀ k, size n ≤ k → bytesOf tgt k = 0)
    (h : (if n % 4 ≠ 0 then do
        let byte ← peek tgt (QStrSize n - 1)
        poke tgt (QStrSize n - 1) (byte &&& lastQStrByteMask n)
      else some tgt) = some r) : Canonical m r := by
  by_cases hmod : n % 4 = 0
  · rw [if_neg (not_not.2 hmod), Option.some.injEq] at h
    subst h
    exact canonical_of_bytesOf hm hlen hnm hbytes (spareZero_of_mod hmod tgt)
  · have hsize : QStrSize n = size n := QStrSize_eq (hm.mono hnm)
    have hone : 0 < n := Nat.pos_of_ne_zero fun h => hmod (by rw [h])
    have hpos : 0 < size n := by
      unfold size
      omega
    have hlast : size n - 1 < tgt.length :=
      (Nat.sub_lt hpos Nat.one_pos).trans_le (hlen ▸ size_mono hnm)
    rw [if_pos hmod, hsize, peek_of_lt hlast, Option.bind_eq_bind, Option.bind_some,
      poke_of_lt hlast, Option.some.injEq] at h
    subst h
    refine canonical_of_bytesOf hm ((List.length_set ..).trans hlen) hnm (fun k hk => ?_) ?_
    · have hne : k ≠ size n - 1 := by omega
      rw [bytesOf, getD_set hlast, if_neg hne]
      exact hbytes k hk
    · rw [SpareZero, hsize, getD_set hlast, if_pos rfl]
      exact and_and_not _ _

/-- A range is canonical also where the bytes that are copied have more characters. -/
theorem canonical_copyQStrRange {first last : ℕ} (hm : Fits m) (hq : Canonical n q)
    (hout : out.length = QStrSize m) (hfirst : first ≤ last) (hlast : last ≤ n)
    (hroom : last - first ≤ m) (h : copyQStrRange m out q first last = some r) :
    Canonical m r := by
  have hn := hq.fits
  have hlt : last < 2 ^ 32 := lt_of_le_of_lt hlast (lt_trans hn (by decide))
  have hlen : (last + 2 ^ 32 - first) % 2 ^ 32 = last - first := by omega
  have hadd : (first + (last - first)) % 2 ^ 32 = last := by omega
  have hcopy : Fits (last - first) := hm.mono hroom
  unfold copyQStrRange at h
  simp only [hlen, hadd] at h
  by_cases hgroup : first % 4 = 0
  · rw [if_pos hgroup] at h
    have hsize : QStrSize first = 3 * (first / 4) := by
      rw [QStrSize_eq (hn.mono (hfirst.trans hlast)), size]
      omega
    have hbytes : size (last - first) ≤ (q.drop (QStrSize first)).length := by
      have hmono := size_mono hlast
      have hqsize := hq.size
      rw [List.length_drop, hsize]
      unfold size at *
      omega
    obtain ⟨tgt, hcopied, hlen', htgt⟩ := rtlQStrToQStr_eq hm hcopy (hout.trans (QStrSize_eq hm))
      hbytes
    rw [hcopied] at h
    exact canonical_mask hm hroom hlen' (fun k hk => by
      rw [htgt, if_neg (fun hlt' => Nat.not_lt.2 hk hlt'.2)]) h
  · rw [if_neg hgroup] at h
    by_cases hzero : last - first = 0
    · rw [if_pos hzero] at h
      have hbuf : 0 + QStrSize m ≤ out.length := by rw [Nat.zero_add, hout]
      obtain ⟨r', hset, hzeros⟩ := memset_filled hbuf 0
      rw [hset, Option.some.injEq] at h
      subst h
      have hlen' : r'.length = size m := (hzeros.length.trans hout).trans (QStrSize_eq hm)
      refine canonical_of_bytesOf hm hlen' (Nat.zero_le m) (fun k _ => ?_) (spareZero_zero r')
      by_cases hk : k < QStrSize m
      · rw [bytesOf, hzeros.getD, Nat.zero_add, if_pos ⟨Nat.zero_le k, hk⟩]
        rfl
      · rw [QStrSize_eq hm] at hk
        exact bytesOf_eq_zero (hlen' ▸ Nat.not_lt.1 hk)
    · rw [if_neg hzero] at h
      have htemp : rtlQStrToStrX last q = some ((List.range last).map fun i =>
          if i < last then expanded q i else 0x20) :=
        rtlQStrToStr_eq ((size_mono hlast).trans hq.size.ge) List.length_replicate
      rw [htemp] at h
      refine canonical_rtlStrToQStr hm hout (s := ((List.range last).map fun i =>
          if i < last then expanded q i else 0x20).drop first) ?_
      rw [List.length_drop, List.length_map, List.length_range]
      exact h

/-! ### Compositions -/

/-- A QSTRING with its length. -/
structure QStr where
  len : ℕ
  bytes : List UInt8
  deriving DecidableEq

inductive Op where
  | rtlStrToQStr (outlen : ℕ) (out s : List UInt8)
  | rtlQStrToQStr (outlen : ℕ) (out : List UInt8)
  | copyQStrRange (tlen : ℕ) (tgt : List UInt8) (first last : ℕ)
  | incrementQString
  | decrementQString

namespace Op

/-- The buffers `out` and `tgt` have the size for their lengths, whatever they contain, and a range
is one of the QSTRING with room for it. -/
def apply : Op → QStr → Option QStr
  | rtlStrToQStr outlen out s, _ =>
    if out.length = QStrSize outlen then
      (QString.rtlStrToQStr outlen out s.length s).map (QStr.mk outlen)
    else none
  | rtlQStrToQStr outlen out, q =>
    if out.length = QStrSize outlen then
      (QString.rtlQStrToQStr outlen out q.len q.bytes).map (QStr.mk outlen)
    else none
  | copyQStrRange tlen tgt first last, q =>
    if tgt.length = QStrSize tlen ∧ first ≤ last ∧ last ≤ q.len ∧ last - first ≤ tlen then
      (QString.copyQStrRange tlen tgt q.bytes first last).map (QStr.mk tlen)
    else none
  | incrementQString, q => (QString.incrementQString q.bytes q.len).map fun p => ⟨q.len, p.2⟩
  | decrementQString, q => (QString.decrementQString q.bytes q.len).map fun p => ⟨q.len, p.2⟩

/-- The length does not overflow, and no part of a character is left behind a cut. -/
def Clears : Op → QStr → Prop
  | rtlStrToQStr outlen _ _, _ => Fits outlen
  | rtlQStrToQStr outlen _, q =>
    Fits outlen ∧ (QStrSize outlen ≤ QStrSize q.len → SpareZero outlen q.bytes)
  | copyQStrRange tlen _ _ _, _ => Fits tlen
  | _, _ => True

theorem canonical_apply {op : Op} {q r : QStr} (hq : Canonical q.len q.bytes)
    (h : op.apply q = some r) (hop : op.Clears q) : Canonical r.len r.bytes := by
  cases op with
  | rtlStrToQStr outlen out s =>
    obtain ⟨hout, h⟩ := Option.ite_none_right_eq_some.1 h
    obtain ⟨bytes, hbytes, rfl⟩ := Option.map_eq_some_iff.1 h
    exact canonical_rtlStrToQStr hop hout hbytes
  | rtlQStrToQStr outlen out =>
    obtain ⟨hout, h⟩ := Option.ite_none_right_eq_some.1 h
    obtain ⟨bytes, hbytes, rfl⟩ := Option.map_eq_some_iff.1 h
    exact (canonical_rtlQStrToQStr_iff hop.1 hq hout hbytes).2 hop.2
  | copyQStrRange tlen tgt first last =>
    obtain ⟨⟨hout, hfirst, hlast, hroom⟩, h⟩ := Option.ite_none_right_eq_some.1 h
    obtain ⟨bytes, hbytes, rfl⟩ := Option.map_eq_some_iff.1 h
    exact canonical_copyQStrRange hop hq hout hfirst hlast hroom hbytes
  | incrementQString =>
    obtain ⟨⟨ok, bytes⟩, hbytes, rfl⟩ := Option.map_eq_some_iff.1 h
    exact canonical_stepQString hq hbytes
  | decrementQString =>
    obtain ⟨⟨ok, bytes⟩, hbytes, rfl⟩ := Option.map_eq_some_iff.1 h
    exact canonical_stepQString hq hbytes

/-- A composition of operations, each of which clears what it cuts off. -/
def Run : List Op → QStr → QStr → Prop
  | [], q, r => r = q
  | op :: ops, q, r => ∃ q', op.apply q = some q' ∧ op.Clears q ∧ Run ops q' r

theorem canonical_run {ops : List Op} {q r : QStr} (hq : Canonical q.len q.bytes)
    (h : Run ops q r) : Canonical r.len r.bytes := by
  induction ops generalizing q with
  | nil =>
    rw [show r = q from h]
    exact hq
  | cons op ops ih =>
    obtain ⟨q', happly, hclears, hrest⟩ := h
    exact ih (canonical_apply hq happly hclears) hrest

end Op

/-- The QSTRING without characters. -/
def QStr.empty : QStr := ⟨0, []⟩

theorem canonical_empty : Canonical QStr.empty.len QStr.empty.bytes where
  fits := Nat.succ_pos _
  size := rfl
  rest _ _ := charsOf_eq_zero (fun _ _ => bytesOf_eq_zero (Nat.zero_le _)) (Nat.zero_le _)

end QString
