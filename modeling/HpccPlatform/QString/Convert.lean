import HpccPlatform.QString.Builder

/-!
# Strings to QSTRINGs and back

`rtlStrToQStr` packs four characters of a string into three bytes at a time, and `rtlQStrToStr`
takes them out again.  Within the lengths for which `QStrSize` does not overflow, every way to read
the characters gives those of the string, cut or padded with spaces, and no access leaves the bytes
of the QSTRING.
-/

namespace QString

open Buffer SixBit

/-! ### The code -/

section Code

variable (text : List UInt8) (curIn curOut : ℕ) (out : List UInt8)

/-- `case 1` of `rtlStrToQStr`. -/
def encode1 (c1 : UInt8) : Option (List UInt8) := do
  let c0 := compressQChar (← peek text curIn)
  poke out curOut (c0 <<< 2 ||| c1 >>> 4)

/-- `case 2`, which falls through. -/
def encode2 (c2 : UInt8) : Option (List UInt8) := do
  let c1 := compressQChar (← peek text (curIn + 1))
  let out ← poke out (curOut + 1) (c1 <<< 4 ||| c2 >>> 2)
  encode1 text curIn curOut out c1

/-- `case 3`, which falls through. -/
def encode3 : Option (List UInt8) := do
  let c2 := compressQChar (← peek text (curIn + 2))
  let out ← poke out (curOut + 2) (c2 <<< 6)
  encode2 text curIn curOut out c2

/-- The loop of `rtlStrToQStr` and the switch behind it, with `n` characters left. -/
def encode : ℕ → ℕ → ℕ → List UInt8 → Option (List UInt8)
  | n + 4, curIn, curOut, out => do
    let c0 := compressQChar (← peek text curIn)
    let c1 := compressQChar (← peek text (curIn + 1))
    let c2 := compressQChar (← peek text (curIn + 2))
    let c3 := compressQChar (← peek text (curIn + 3))
    let out ← poke out curOut (c0 <<< 2 ||| c1 >>> 4)
    let out ← poke out (curOut + 1) (c1 <<< 4 ||| c2 >>> 2)
    let out ← poke out (curOut + 2) (c2 <<< 6 ||| c3)
    encode n (curIn + 4) (curOut + 3) out
  | 3, curIn, curOut, out => encode3 text curIn curOut out
  | 2, curIn, curOut, out => encode2 text curIn curOut out 0
  | 1, curIn, curOut, out => encode1 text curIn curOut out 0
  | 0, _, _, out => some out

def rtlStrToQStr (outlen : ℕ) (out : List UInt8) (inlen : ℕ) (text : List UInt8) :
    Option (List UInt8) :=
  let outSize := QStrSize outlen
  if outlen ≤ inlen then encode text outlen 0 0 out
  else do
    let size := QStrSize inlen
    let out ← memset out size 0 ((outSize + 2 ^ 32 - size) % 2 ^ 32)
    encode text inlen 0 0 out

variable (qstr : List UInt8)

def decode1 : Option (List UInt8) := do
  poke out curOut (expandQChar ((← peek qstr curIn) >>> 2))

def decode2 : Option (List UInt8) := do
  let c0 ← peek qstr curIn
  let c1 ← peek qstr (curIn + 1)
  let out ← poke out (curOut + 1) (expandQChar ((c0 &&& 0x3 : UInt8) <<< 4 ||| c1 >>> 4))
  decode1 curIn curOut out qstr

def decode3 : Option (List UInt8) := do
  let c1 ← peek qstr (curIn + 1)
  let c2 ← peek qstr (curIn + 2)
  let out ← poke out (curOut + 2) (expandQChar ((c1 &&& 0xF : UInt8) <<< 2 ||| c2 >>> 6))
  decode2 curIn curOut out qstr

/-- The loop of `rtlQStrToStr` and the switch behind it, with `n` characters left. -/
def decode : ℕ → ℕ → ℕ → List UInt8 → Option (List UInt8)
  | n + 4, curIn, curOut, out => do
    let c0 ← peek qstr curIn
    let c1 ← peek qstr (curIn + 1)
    let c2 ← peek qstr (curIn + 2)
    let out ← poke out curOut (expandQChar (c0 >>> 2))
    let out ← poke out (curOut + 1) (expandQChar ((c0 &&& 0x3 : UInt8) <<< 4 ||| c1 >>> 4))
    let out ← poke out (curOut + 2) (expandQChar ((c1 &&& 0xF : UInt8) <<< 2 ||| c2 >>> 6))
    let out ← poke out (curOut + 3) (expandQChar (c2 &&& 0x3F))
    decode n (curIn + 3) (curOut + 4) out
  | 3, curIn, curOut, out => decode3 curIn curOut out qstr
  | 2, curIn, curOut, out => decode2 curIn curOut out qstr
  | 1, curIn, curOut, out => decode1 curIn curOut out qstr
  | 0, _, _, out => some out

def rtlQStrToStr (outlen : ℕ) (out : List UInt8) (inlen : ℕ) (qstr : List UInt8) :
    Option (List UInt8) :=
  if inlen < outlen then do
    let out ← memset out inlen 0x20 (outlen - inlen)
    decode qstr inlen 0 0 out
  else decode qstr outlen 0 0 out

end Code

/-! ### Packing -/

/-- The byte `k` of the characters `c`. -/
def packed (c : ℕ → ℕ) (k : ℕ) : UInt8 := UInt8.ofNat (byteAt c k)

/-- The characters of a string that are stored in `n` characters. -/
def charSeq (text : List UInt8) (n i : ℕ) : ℕ :=
  if i < n then (compressQChar (text.getD i 0)).toNat else 0

theorem compressQChar_lt (b : UInt8) : (compressQChar b).toNat < 64 := by
  refine forall_byte b ?_
  decide +kernel

theorem compressQChar_space : compressQChar 0x20 = 0 := by decide

theorem charSeq_lt (text : List UInt8) (n i : ℕ) : charSeq text n i < 64 := by
  unfold charSeq
  split
  · exact compressQChar_lt _
  · decide

theorem charSeq_eq_zero {text : List UInt8} {n i : ℕ} (h : n ≤ i) : charSeq text n i = 0 :=
  if_neg (Nat.not_lt.2 h)

section Packed

variable {c : ℕ → ℕ} {g k : ℕ} {x y : UInt8}

theorem byteAt_lt (hc : ∀ i, c i < 64) (k : ℕ) : byteAt c k < 256 := by
  obtain ⟨g, rfl | rfl | rfl⟩ := exists_group_of_three k
  · have h := hc (4 * g)
    have h' := hc (4 * g + 1)
    rw [byteAt_zero]
    omega
  · have h := hc (4 * g + 1)
    have h' := hc (4 * g + 2)
    rw [byteAt_one]
    omega
  · have h := hc (4 * g + 2)
    have h' := hc (4 * g + 3)
    rw [byteAt_two]
    omega

theorem toNat_packed (hc : ∀ i, c i < 64) (k : ℕ) : (packed c k).toNat = byteAt c k := by
  rw [packed, UInt8.toNat_ofNat', Nat.mod_eq_of_lt (byteAt_lt hc k)]

theorem packed_zero (hc : ∀ i, c i < 64) (hx : x.toNat = c (4 * g)) (hy : y.toNat = c (4 * g + 1)) :
    x <<< 2 ||| y >>> 4 = packed c (3 * g) := by
  have hhigh := toNat_shiftLeft_two x
  have hlow := toNat_shiftRight_four y
  have hlt := hc (4 * g + 1)
  refine UInt8.toNat_inj.1 ?_
  rw [toNat_or_eq_add 2 (by omega) (by omega), hhigh, hlow, hx, hy, toNat_packed hc, byteAt_zero]

theorem packed_one (hc : ∀ i, c i < 64) (hx : x.toNat = c (4 * g + 1))
    (hy : y.toNat = c (4 * g + 2)) : x <<< 4 ||| y >>> 2 = packed c (3 * g + 1) := by
  have hhigh := toNat_shiftLeft_four x
  have hlow := toNat_shiftRight_two y
  have hlt := hc (4 * g + 2)
  refine UInt8.toNat_inj.1 ?_
  rw [toNat_or_eq_add 4 (by omega) (by omega), hhigh, hlow, hx, hy, toNat_packed hc, byteAt_one]

theorem packed_two (hc : ∀ i, c i < 64) (hx : x.toNat = c (4 * g + 2))
    (hy : y.toNat = c (4 * g + 3)) : x <<< 6 ||| y = packed c (3 * g + 2) := by
  have hhigh := toNat_shiftLeft_six x
  have hlt := hc (4 * g + 3)
  refine UInt8.toNat_inj.1 ?_
  rw [toNat_or_eq_add 6 (by omega) (by omega), hhigh, hx, hy, toNat_packed hc, byteAt_two]

/-- The last byte of three characters. -/
theorem packed_two_last (hc : ∀ i, c i < 64) (hx : x.toNat = c (4 * g + 2))
    (hlast : c (4 * g + 3) = 0) : x <<< 6 = packed c (3 * g + 2) := by
  rw [← packed_two hc hx (y := 0) hlast.symm, UInt8.or_zero]

end Packed

section Encode

variable {text out : List UInt8} {c : ℕ → ℕ} {g n : ℕ} {c1 c2 : UInt8}

theorem encode1_filled (hc : ∀ i, c i < 64) (ht : 4 * g < text.length) (ho : 3 * g < out.length)
    (h0 : (compressQChar (text.getD (4 * g) 0)).toNat = c (4 * g)) (h1 : c1.toNat = c (4 * g + 1)) :
    ∃ r, encode1 text (4 * g) (3 * g) out c1 = some r ∧
      Filled (packed c) (3 * g) (3 * g + 1) out r := by
  simp only [encode1, peek_of_lt ht, Option.bind_eq_bind, Option.bind_some]
  exact poke_filled ho (packed_zero hc h0 h1)

theorem encode2_filled (hc : ∀ i, c i < 64) (ht : 4 * g + 1 < text.length)
    (ho : 3 * g + 1 < out.length)
    (hchars : ∀ i ≤ 1, (compressQChar (text.getD (4 * g + i) 0)).toNat = c (4 * g + i))
    (h2 : c2.toNat = c (4 * g + 2)) :
    ∃ r, encode2 text (4 * g) (3 * g) out c2 = some r ∧
      Filled (packed c) (3 * g) (3 * g + 2) out r := by
  obtain ⟨out', hpoke, hfill⟩ := poke_filled ho (packed_one hc (hchars 1 le_rfl) h2)
  have hlen := hfill.length
  obtain ⟨r, hrest, hfill'⟩ := @encode1_filled text out' c g _ hc (by omega) (by omega)
    (hchars 0 (by omega)) (hchars 1 le_rfl)
  refine ⟨r, ?_, hfill.prepend hfill' (by omega) (by omega)⟩
  simp only [encode2, peek_of_lt ht, hpoke, Option.bind_eq_bind, Option.bind_some]
  exact hrest

theorem encode3_filled (hc : ∀ i, c i < 64) (ht : 4 * g + 2 < text.length)
    (ho : 3 * g + 2 < out.length)
    (hchars : ∀ i ≤ 2, (compressQChar (text.getD (4 * g + i) 0)).toNat = c (4 * g + i))
    (hlast : c (4 * g + 3) = 0) :
    ∃ r, encode3 text (4 * g) (3 * g) out = some r ∧
      Filled (packed c) (3 * g) (3 * g + 3) out r := by
  obtain ⟨out', hpoke, hfill⟩ := poke_filled ho (packed_two_last hc (hchars 2 le_rfl) hlast)
  have hlen := hfill.length
  obtain ⟨r, hrest, hfill'⟩ := @encode2_filled text out' c g _ hc (by omega) (by omega)
    (fun i hi => hchars i (by omega)) (hchars 2 le_rfl)
  refine ⟨r, ?_, hfill.prepend hfill' (by omega) (by omega)⟩
  simp only [encode3, peek_of_lt ht, hpoke, Option.bind_eq_bind, Option.bind_some]
  exact hrest

/-- The packed bytes of the first `n` characters are written. -/
theorem encode_filled (hlast : ∀ i, n ≤ i → c i = 0) (hc : ∀ i, c i < 64)
    (hchars : ∀ i < n, (compressQChar (text.getD i 0)).toNat = c i) (ht : n ≤ text.length)
    (ho : size n ≤ out.length) {left : ℕ} (hn : 4 * g + left = n) :
    ∃ r, encode text left (4 * g) (3 * g) out = some r ∧
      Filled (packed c) (3 * g) (size n) out r := by
  unfold size at ho ⊢
  induction left using Nat.strong_induction_on generalizing g out with
  | _ left ih =>
    match left, hn with
    | 0, hn =>
      have hsize : (n + 1) * 3 / 4 = 3 * g := by omega
      exact ⟨out, rfl, by rw [hsize]; exact filled_refl _ _ _⟩
    | 1, hn =>
      have hsize : (n + 1) * 3 / 4 = 3 * g + 1 := by omega
      rw [hsize] at ho ⊢
      exact encode1_filled hc (by omega) (by omega) (hchars _ (by omega)) (hlast _ (by omega)).symm
    | 2, hn =>
      have hsize : (n + 1) * 3 / 4 = 3 * g + 2 := by omega
      rw [hsize] at ho ⊢
      exact encode2_filled hc (by omega) (by omega) (fun i hi => hchars _ (by omega))
        (hlast _ (by omega)).symm
    | 3, hn =>
      have hsize : (n + 1) * 3 / 4 = 3 * g + 3 := by omega
      rw [hsize] at ho ⊢
      exact encode3_filled hc (by omega) (by omega) (fun i hi => hchars _ (by omega))
        (hlast _ (by omega))
    | left + 4, hn =>
      have hi0 := hchars (4 * g) (by omega)
      have hi1 := hchars (4 * g + 1) (by omega)
      have hi2 := hchars (4 * g + 2) (by omega)
      have hi3 := hchars (4 * g + 3) (by omega)
      have hsize : 3 * (g + 1) ≤ (n + 1) * 3 / 4 := by omega
      obtain ⟨out₁, hpoke₁, hfill₁⟩ := poke_filled (show 3 * g < out.length by omega)
        (packed_zero hc hi0 hi1)
      obtain ⟨out₂, hpoke₂, hfill₂⟩ := poke_filled
        (show 3 * g + 1 < out₁.length by rw [hfill₁.length]; omega) (packed_one hc hi1 hi2)
      obtain ⟨out₃, hpoke₃, hfill₃⟩ := poke_filled
        (show 3 * g + 2 < out₂.length by rw [hfill₂.length, hfill₁.length]; omega)
        (packed_two hc hi2 hi3)
      have hgroup : Filled (packed c) (3 * g) (3 * (g + 1)) out out₃ :=
        (hfill₁.append hfill₂ (by omega) (by omega)).append hfill₃ (by omega) (by omega)
      obtain ⟨r, hrest, hfill⟩ := @ih left (by omega) out₃ (g + 1) (by rwa [hgroup.length])
        (by omega)
      refine ⟨r, ?_, hgroup.append hfill (by omega) hsize⟩
      simp only [encode, peek_of_lt (show 4 * g < text.length by omega),
        peek_of_lt (show 4 * g + 1 < text.length by omega),
        peek_of_lt (show 4 * g + 2 < text.length by omega),
        peek_of_lt (show 4 * g + 3 < text.length by omega), hpoke₁, hpoke₂, hpoke₃,
        Option.bind_eq_bind, Option.bind_some]
      exact hrest

end Encode

/-- The bytes of a string in `n` characters, whatever was in the buffer. -/
theorem rtlStrToQStr_eq {text out : List UInt8} {n : ℕ} (hn : Fits n)
    (hout : out.length = QStrSize n) :
    rtlStrToQStr n out text.length text =
      some ((List.range (size n)).map (packed (charSeq text (min n text.length)))) := by
  have hsize := QStrSize_eq hn
  rw [hsize] at hout
  unfold rtlStrToQStr
  dsimp only
  by_cases hle : n ≤ text.length
  · obtain ⟨r, hencode, hfill⟩ := @encode_filled text out (charSeq text n) 0 n
      (fun i hi => charSeq_eq_zero hi) (charSeq_lt text n) (fun i hi => (if_pos hi).symm) hle
      hout.ge n (by omega)
    rw [if_pos hle, Nat.min_eq_left hle, ← hfill.eq_map hout]
    exact hencode
  · have hlt := Nat.not_le.1 hle
    have hfits : Fits text.length := hn.mono hlt.le
    have hmono : size text.length ≤ size n := size_mono hlt.le
    have hroom : (QStrSize n + 2 ^ 32 - QStrSize text.length) % 2 ^ 32 =
        size n - size text.length := by
      have hbound : size n < 2 ^ 32 := by
        unfold Fits at hn
        unfold size
        omega
      rw [hsize, QStrSize_eq hfits]
      omega
    have hadd : size text.length + (size n - size text.length) = size n := Nat.add_sub_cancel' hmono
    have hbuf : size text.length + (size n - size text.length) ≤ out.length := by rw [hadd, hout]
    obtain ⟨out', hset, hzeros⟩ := memset_filled hbuf 0
    have hlen := hzeros.length
    obtain ⟨r, hencode, hfill⟩ := @encode_filled text out' (charSeq text text.length) 0 text.length
      (fun i hi => charSeq_eq_zero hi) (charSeq_lt text _) (fun i hi => (if_pos hi).symm)
      le_rfl (by omega) text.length (by omega)
    -- behind the characters the packed bytes are zero
    have hzeros' : Filled (packed (charSeq text text.length)) (size text.length) (size n) out out' := by
      refine ⟨hlen, fun k => ?_⟩
      rw [hzeros.getD, hadd]
      by_cases hk : size text.length ≤ k ∧ k < size n
      · rw [if_pos hk, if_pos hk, packed, byteAt_eq_zero (fun i hi => charSeq_eq_zero hi) hk.1]
        rfl
      · rw [if_neg hk, if_neg hk]
    rw [if_neg hle, Nat.min_eq_right hlt.le, hroom, QStrSize_eq hfits, hset,
      ← (hzeros'.prepend hfill (Nat.zero_le _) hmono).eq_map hout]
    exact hencode

/-! ### Unpacking -/

/-- The characters of a QSTRING as those of a string. -/
def expanded (qstr : List UInt8) (i : ℕ) : UInt8 := expandQChar (qchar qstr i)

section Decode

variable {qstr out : List UInt8} {g n : ℕ}

theorem decode1_filled (hq : 3 * g < qstr.length) (ho : 4 * g < out.length) :
    ∃ r, decode1 (3 * g) (4 * g) out qstr = some r ∧
      Filled (expanded qstr) (4 * g) (4 * g + 1) out r := by
  simp only [decode1, peek_of_lt hq, Option.bind_eq_bind, Option.bind_some]
  exact poke_filled ho (congrArg expandQChar (qchar_zero qstr g))

theorem decode2_filled (hq : 3 * g + 1 < qstr.length) (ho : 4 * g + 1 < out.length) :
    ∃ r, decode2 (3 * g) (4 * g) out qstr = some r ∧
      Filled (expanded qstr) (4 * g) (4 * g + 2) out r := by
  obtain ⟨out', hpoke, hfill⟩ := @poke_filled out (4 * g + 1) _ (expanded qstr) ho
    (congrArg expandQChar (qchar_one qstr g))
  have hlen := hfill.length
  obtain ⟨r, hrest, hfill'⟩ := @decode1_filled qstr out' g (by omega) (by omega)
  refine ⟨r, ?_, hfill.prepend hfill' (by omega) (by omega)⟩
  simp only [decode2, peek_of_lt hq, peek_of_lt (show 3 * g < qstr.length by omega), hpoke,
    Option.bind_eq_bind, Option.bind_some]
  exact hrest

theorem decode3_filled (hq : 3 * g + 2 < qstr.length) (ho : 4 * g + 2 < out.length) :
    ∃ r, decode3 (3 * g) (4 * g) out qstr = some r ∧
      Filled (expanded qstr) (4 * g) (4 * g + 3) out r := by
  obtain ⟨out', hpoke, hfill⟩ := @poke_filled out (4 * g + 2) _ (expanded qstr) ho
    (congrArg expandQChar (qchar_two qstr g))
  have hlen := hfill.length
  obtain ⟨r, hrest, hfill'⟩ := @decode2_filled qstr out' g (by omega) (by omega)
  refine ⟨r, ?_, hfill.prepend hfill' (by omega) (by omega)⟩
  simp only [decode3, peek_of_lt hq, peek_of_lt (show 3 * g + 1 < qstr.length by omega), hpoke,
    Option.bind_eq_bind, Option.bind_some]
  exact hrest

theorem decode_filled (hq : size n ≤ qstr.length) (ho : n ≤ out.length) {left : ℕ}
    (hn : 4 * g + left = n) :
    ∃ r, decode qstr left (3 * g) (4 * g) out = some r ∧
      Filled (expanded qstr) (4 * g) n out r := by
  unfold size at hq
  induction left using Nat.strong_induction_on generalizing g out with
  | _ left ih =>
    match left, hn with
    | 0, hn =>
      rw [Nat.add_zero] at hn
      exact ⟨out, rfl, hn ▸ filled_refl _ _ _⟩
    | 1, hn =>
      rw [← hn]
      exact decode1_filled (by omega) (by omega)
    | 2, hn =>
      rw [← hn]
      exact decode2_filled (by omega) (by omega)
    | 3, hn =>
      rw [← hn]
      exact decode3_filled (by omega) (by omega)
    | left + 4, hn =>
      obtain ⟨out₁, hpoke₁, hfill₁⟩ := @poke_filled out (4 * g) _ (expanded qstr) (by omega)
        (congrArg expandQChar (qchar_zero qstr g))
      obtain ⟨out₂, hpoke₂, hfill₂⟩ := @poke_filled out₁ (4 * g + 1) _ (expanded qstr)
        (by rw [hfill₁.length]; omega) (congrArg expandQChar (qchar_one qstr g))
      obtain ⟨out₃, hpoke₃, hfill₃⟩ := @poke_filled out₂ (4 * g + 2) _ (expanded qstr)
        (by rw [hfill₂.length, hfill₁.length]; omega) (congrArg expandQChar (qchar_two qstr g))
      obtain ⟨out₄, hpoke₄, hfill₄⟩ := @poke_filled out₃ (4 * g + 3) _ (expanded qstr)
        (by rw [hfill₃.length, hfill₂.length, hfill₁.length]; omega)
        (congrArg expandQChar (qchar_three qstr g))
      have hgroup : Filled (expanded qstr) (4 * g) (4 * (g + 1)) out out₄ :=
        ((hfill₁.append hfill₂ (by omega) (by omega)).append hfill₃ (by omega) (by omega)).append
          hfill₄ (by omega) (by omega)
      obtain ⟨r, hrest, hfill⟩ := @ih left (by omega) out₄ (g + 1) (by rwa [hgroup.length])
        (by omega)
      refine ⟨r, ?_, hgroup.append hfill (by omega) (by omega)⟩
      simp only [decode, peek_of_lt (show 3 * g < qstr.length by omega),
        peek_of_lt (show 3 * g + 1 < qstr.length by omega),
        peek_of_lt (show 3 * g + 2 < qstr.length by omega), hpoke₁, hpoke₂, hpoke₃, hpoke₄,
        Option.bind_eq_bind, Option.bind_some]
      exact hrest

/-- The last byte that is read is a byte of the QSTRING. -/
theorem size_le_of_decode {r : List UInt8} {i o : ℕ} (hn : 0 < n)
    (h : decode qstr n i o out = some r) : i + size n ≤ qstr.length := by
  unfold size
  induction n using Nat.strong_induction_on generalizing i o out with
  | _ n ih =>
    match n, hn with
    | 1, _ =>
      simp only [decode, decode1, Option.bind_eq_bind, Option.bind_eq_some_iff] at h
      obtain ⟨c0, h0, -⟩ := h
      exact lt_of_peek h0
    | 2, _ =>
      simp only [decode, decode2, Option.bind_eq_bind, Option.bind_eq_some_iff] at h
      obtain ⟨c0, -, c1, h1, -⟩ := h
      exact lt_of_peek h1
    | 3, _ =>
      simp only [decode, decode3, Option.bind_eq_bind, Option.bind_eq_some_iff] at h
      obtain ⟨c1, -, c2, h2, -⟩ := h
      exact lt_of_peek h2
    | n + 4, _ =>
      simp only [decode, Option.bind_eq_bind, Option.bind_eq_some_iff] at h
      obtain ⟨c0, -, c1, -, c2, h2, out₁, -, out₂, -, out₃, -, out₄, -, hrest⟩ := h
      have hread : i + 2 < qstr.length := lt_of_peek h2
      rcases Nat.eq_zero_or_pos n with rfl | hpos
      · omega
      · have hle := ih n (by omega) hpos hrest
        omega

end Decode

/-- The characters of a QSTRING, cut or padded with spaces. -/
theorem rtlQStrToStr_eq {qstr out : List UInt8} {outlen inlen : ℕ} (hq : size inlen ≤ qstr.length)
    (hout : out.length = outlen) :
    rtlQStrToStr outlen out inlen qstr =
      some ((List.range outlen).map fun i => if i < inlen then expanded qstr i else 0x20) := by
  unfold rtlQStrToStr
  by_cases hlt : inlen < outlen
  · have hadd : inlen + (outlen - inlen) = outlen := Nat.add_sub_cancel' hlt.le
    have hbuf : inlen + (outlen - inlen) ≤ out.length := by rw [hadd, hout]
    obtain ⟨out', hset, hspaces⟩ := memset_filled hbuf 0x20
    have hlen := hspaces.length
    obtain ⟨r, hdecode, hfill⟩ := @decode_filled qstr out' 0 inlen hq (by omega) inlen (by omega)
    rw [if_pos hlt, hset]
    refine hdecode.trans (congrArg some ?_)
    refine ext_getD (by rw [hfill.length, hlen, hout, List.length_map, List.length_range])
      fun k hk => ?_
    rw [hfill.length, hlen, hout] at hk
    rw [hfill.getD, hspaces.getD, hadd]
    by_cases hin : k < inlen
    · rw [if_pos ⟨Nat.zero_le _, hin⟩]
      simp [List.getD_eq_getElem?_getD, hk, hin]
    · rw [if_neg (fun h => hin h.2), if_pos ⟨Nat.not_lt.1 hin, hk⟩]
      simp [List.getD_eq_getElem?_getD, hk, hin]
  · have hle := Nat.not_lt.1 hlt
    obtain ⟨r, hdecode, hfill⟩ := @decode_filled qstr out 0 outlen
      ((size_mono hle).trans hq) hout.ge outlen (by omega)
    rw [if_neg hlt]
    refine hdecode.trans (congrArg some ?_)
    rw [hfill.eq_map hout]
    refine List.map_congr_left fun i hi => ?_
    rw [if_pos ((List.mem_range.1 hi).trans_le hle)]

/-! ### Round trip -/

/-- All ways to read the `m` characters of a QSTRING give `cs`. -/
structure Reads (q : List UInt8) (m : ℕ) (cs : ℕ → UInt8) : Prop where
  getQChar : ∀ i < m, getQChar q i = some (cs i)
  forwards : ∀ n ≤ m, (QStrReader.init q).forwards n = some ((List.range n).map cs)
  backwards : ∀ n ≤ m,
    ((QStrReader.init q).seek n).backwards n = some ((List.range n).reverse.map cs)
  seek : ∀ i < m, (((QStrReader.init q).seek i).nextQChar).map Prod.fst = some (cs i)
  rtlQStrToStr : ∀ out : List UInt8, rtlQStrToStr out.length out m q =
    some ((List.range out.length).map fun i => if i < m then expandQChar (cs i) else 0x20)

variable {q s : List UInt8} {m : ℕ} {cs : ℕ → UInt8}

theorem reads_qchar (hm : Fits m) (hq : size m ≤ q.length) : Reads q m (qchar q) where
  getQChar i hi := getQChar_eq (hm.mono hi.le) ((size_mono hi).trans hq)
  forwards n hn := by
    rw [QStrReader.init_eq, QStrReader.forwards_before (by rw [Nat.zero_add]; exact hm.mono hn)
      (by rw [Nat.zero_add]; exact (size_mono hn).trans hq), List.range_eq_range']
  backwards n hn := by
    rw [QStrReader.seek_eq _ (hm.mono hn)]
    exact QStrReader.backwards_before (hm.mono hn) ((size_mono hn).trans hq)
  seek i hi := by
    rw [QStrReader.seek_eq _ (hm.mono hi.le)]
    exact congrArg (Option.map Prod.fst)
      (QStrReader.nextQChar_before (hm.mono hi.le) ((size_mono hi).trans hq))
  rtlQStrToStr out := rtlQStrToStr_eq hq rfl

theorem Reads.congr {cs' : ℕ → UInt8} (h : Reads q m cs) (heq : ∀ i < m, cs i = cs' i) :
    Reads q m cs' := by
  have hrange : ∀ n ≤ m, (List.range n).map cs = (List.range n).map cs' := fun n hn =>
    List.map_congr_left fun i hi => heq i ((List.mem_range.1 hi).trans_le hn)
  refine ⟨fun i hi => ?_, fun n hn => ?_, fun n hn => ?_, fun i hi => ?_, fun out => ?_⟩
  · rw [h.getQChar i hi, heq i hi]
  · rw [h.forwards n hn, hrange n hn]
  · rw [h.backwards n hn, List.map_reverse, List.map_reverse, hrange n hn]
  · rw [h.seek i hi, heq i hi]
  · rw [h.rtlQStrToStr]
    refine congrArg some (List.map_congr_left fun i _ => ?_)
    by_cases hi : i < m
    · rw [if_pos hi, if_pos hi, heq i hi]
    · rw [if_neg hi, if_neg hi]

/-- A buffer of the packed bytes of `c` reads as `c`. -/
theorem reads_of_bytesOf {c : ℕ → ℕ} (hm : Fits m) (hq : size m ≤ q.length) (hc : ∀ i, c i < 64)
    (hbytes : ∀ k < size m, bytesOf q k = byteAt c k) (hcs : ∀ i < m, (cs i).toNat = c i) :
    Reads q m cs := by
  refine (reads_qchar hm hq).congr fun i hi => UInt8.toNat_inj.1 ?_
  have hlocal : charAt (bytesOf q) i = charAt (byteAt c) i :=
    charAt_congr fun k hk => hbytes k (hk.trans_le (size_mono hi))
  rw [toNat_qchar, charsOf, hlocal, charAt_byteAt hc, hcs i hi]

/-- A string stored in `m` characters reads as its own characters, padded with spaces.  Any bytes of
this size can be read and written within them, and the builder writes all of them. -/
structure RoundTrips (s : List UInt8) (m : ℕ) : Prop where
  rtlStrToQStr : ∀ out : List UInt8, out.length = QStrSize m → ∃ q,
    rtlStrToQStr m out s.length s = some q ∧ q.length = QStrSize m ∧
      Reads q m fun i => compressQChar (s.getD i 0x20)
  reads : ∀ q : List UInt8, q.length = QStrSize m → ∃ cs, Reads q m cs
  setQChar : ∀ q : List UInt8, q.length = QStrSize m → ∀ i < m, ∀ value : UInt8,
    value.toNat < 64 → ∃ r, setQChar q i value = some r ∧ r.length = q.length
  builder : ∀ out : List UInt8, out.length = QStrSize m → ∀ fill, s.length ≤ m → ∃ b,
    ((QStrBuilder.init out).appendStr s >>= fun b => b.finish m fill) = some b ∧
      b.bytes.length = QStrSize m ∧
      Reads b.bytes m fun i => if i < s.length then compressQChar (s.getD i 0) else fill &&& 0x3F
  builderQStr : ∀ out text : List UInt8, out.length = QStrSize m → ∀ fill, ∀ n ≤ m,
    text.length = QStrSize n → ∃ b cs,
    (QStrBuilder.appendQStr n (QStrReader.init text) (QStrBuilder.init out) >>=
        fun b => b.finish m fill) = some b ∧
      b.bytes.length = QStrSize m ∧ Reads text n cs ∧
      Reads b.bytes m fun i => if i < n then cs i else fill &&& 0x3F

theorem toNat_fill_lt (fill : UInt8) : (fill &&& 0x3F).toNat < 64 := by
  rw [toNat_and_3f]
  exact Nat.mod_lt _ (by decide)

theorem roundTrips_of_fits (hm : Fits m) : RoundTrips s m where
  rtlStrToQStr out hout := by
    have hc := charSeq_lt s (min m s.length)
    have hlen : ((List.range (size m)).map (packed (charSeq s (min m s.length)))).length =
        size m := by rw [List.length_map, List.length_range]
    refine ⟨_, rtlStrToQStr_eq hm hout, by rw [hlen, QStrSize_eq hm],
      reads_of_bytesOf hm hlen.ge hc (fun k hk => ?_) fun i hi => ?_⟩
    · rw [bytesOf, ← toNat_packed hc]
      simp [List.getD_eq_getElem?_getD, hk]
    · by_cases hs : i < s.length
      · rw [charSeq, if_pos (lt_min hi hs), List.getD_eq_getElem _ _ hs, List.getD_eq_getElem _ _ hs]
      · rw [charSeq_eq_zero (min_le_of_right_le (Nat.not_lt.1 hs)), List.getD_eq_default _ _
          (Nat.not_lt.1 hs), compressQChar_space]
        rfl
  reads q hq := ⟨_, reads_qchar hm (by rw [hq, QStrSize_eq hm])⟩
  setQChar q hq i hi value hvalue := by
    obtain ⟨r, hset, hlen, -⟩ := setQChar_charsOf (hm.mono hi.le)
      ((size_mono hi).trans (by rw [hq, QStrSize_eq hm])) hvalue
    exact ⟨r, hset, hlen⟩
  builder out hout fill hs := by
    have hsize : size m = out.length := by rw [hout, QStrSize_eq hm]
    have hlt : m + 1 < 2 ^ 32 := by
      unfold Fits at hm
      omega
    have hroom : 3 * (0 + s.length) / 4 ≤ out.length := by
      rw [← hsize, size]
      omega
    have hc : ∀ i, (if i < s.length then (compressQChar (s.getD i 0)).toNat
        else (fill &&& 0x3F).toNat) < 64 := fun i => by
      split
      · exact compressQChar_lt _
      · exact toNat_fill_lt fill
    have hvalue : ∀ i < s.length, (compressQChar (s.getD i 0)).toNat =
        if 0 + i < s.length then (compressQChar (s.getD (0 + i) 0)).toNat
          else (fill &&& 0x3F).toNat := fun i hi => by rw [Nat.zero_add, if_pos hi]
    obtain ⟨b, happend, hb⟩ := (QStrBuilder.built_init _ out).appendStr hc hvalue (by omega) hroom
    rw [Nat.zero_add] at hb
    obtain ⟨b', hfinish, hlen, hbytes⟩ := hb.finish hc hs hm
      (fun i hi => if_neg (Nat.not_lt.2 hi)) hsize.le
    refine ⟨b', ?_, hlen.trans hout, reads_of_bytesOf hm (hsize.trans hlen.symm).le hc
      (fun k hk => by rw [hbytes, if_pos hk]) fun i hi => ?_⟩
    · rw [happend]
      exact hfinish
    · split <;> rfl
  builderQStr out text hout fill n hn htext := by
    have hsize : size m = out.length := by rw [hout, QStrSize_eq hm]
    have hfits : Fits n := hm.mono hn
    have htext' : size n ≤ text.length := by rw [htext, QStrSize_eq hfits]
    have hlt : m + 1 < 2 ^ 32 := by
      unfold Fits at hm
      omega
    have hroom : 3 * (0 + n) / 4 ≤ out.length := by
      rw [← hsize, size]
      omega
    have hc : ∀ i, (if i < n then charsOf text i else (fill &&& 0x3F).toNat) < 64 := fun i => by
      split
      · exact charsOf_lt text i
      · exact toNat_fill_lt fill
    have hvalue : ∀ j < n, charsOf text (0 + j) =
        if 0 + j < n then charsOf text (0 + j) else (fill &&& 0x3F).toNat := fun j hj => by
      rw [Nat.zero_add, if_pos hj]
    obtain ⟨b, happend, hb⟩ := (QStrBuilder.built_init _ out).appendQStr hc hvalue
      (by rwa [Nat.zero_add]) (by rwa [Nat.zero_add]) (by omega) hroom
    rw [Nat.zero_add] at hb
    obtain ⟨b', hfinish, hlen, hbytes⟩ := hb.finish hc hn hm
      (fun i hi => if_neg (Nat.not_lt.2 hi)) hsize.le
    refine ⟨b', qchar text, ?_, hlen.trans hout, reads_qchar hfits htext',
      reads_of_bytesOf hm (hsize.trans hlen.symm).le hc (fun k hk => by rw [hbytes, if_pos hk])
        fun i hi => ?_⟩
    · rw [QStrReader.init_eq, happend]
      exact hfinish
    · split
      · exact toNat_qchar text i
      · rfl

/-- Beyond these lengths a string is taken out from behind the bytes of its QSTRING. -/
theorem fits_of_roundTrips (h : RoundTrips s m) : Fits m := by
  obtain ⟨cs, hreads⟩ := h.reads (List.replicate (QStrSize m) 0) List.length_replicate
  have hstr := hreads.rtlQStrToStr (List.replicate m 0)
  rw [List.length_replicate, rtlQStrToStr, if_neg (Nat.lt_irrefl m)] at hstr
  rcases Nat.eq_zero_or_pos m with rfl | hpos
  · exact Nat.succ_pos _
  · have hle := size_le_of_decode hpos hstr
    rw [List.length_replicate, QStrSize, size] at hle
    unfold Fits
    omega

/-- Strings are stored and read back as they should for exactly the lengths whose `QStrSize` does
not overflow. -/
theorem converted_roundTrips_iff (s : List UInt8) (m : ℕ) : RoundTrips s m ↔ m < 1431655765 :=
  ⟨fits_of_roundTrips, roundTrips_of_fits⟩

/-- A QSTRING of this length has a size of no bytes. -/
theorem not_roundTrips_overflow : QStrSize 1431655765 = 0 ∧ ¬ RoundTrips [] 1431655765 :=
  ⟨by decide, fun h => Nat.lt_irrefl _ (fits_of_roundTrips h)⟩

end QString
