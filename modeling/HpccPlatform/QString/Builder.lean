import HpccPlatform.QString.Chars

/-!
# `QStrBuilder`

The builder takes characters one after the other and writes a byte as soon as it has all of it.  At
the end it is filled up to a length, with one more character for the last byte.
-/

namespace QString

open Buffer SixBit

/-- The byte at `buffer` is at the place `pos` of `bytes`. -/
structure QStrBuilder where
  bytes : List UInt8
  pos : ℕ
  curLen : ℕ
  pending : UInt8

namespace QStrBuilder

def init (buffer : List UInt8) : QStrBuilder := ⟨buffer, 0, 0, 0⟩

/-- `*buffer++ = c` -/
def put (b : QStrBuilder) (c : UInt8) : Option QStrBuilder :=
  (poke b.bytes b.pos c).map fun bytes => { b with bytes := bytes, pos := b.pos + 1 }

def appendQChar (b : QStrBuilder) (c : UInt8) : Option QStrBuilder :=
  let next := (b.curLen + 1) % 2 ^ 32
  match b.curLen % 4 with
  | 0 => some { b with pending := c <<< 2, curLen := next }
  | 1 => (b.put (b.pending ||| c >>> 4)).map fun b => { b with pending := c <<< 4, curLen := next }
  | 2 => (b.put (b.pending ||| c >>> 2)).map fun b => { b with pending := c <<< 6, curLen := next }
  | _ => (b.put (b.pending ||| c)).map fun b => { b with pending := 0, curLen := next }

def appendChar (b : QStrBuilder) (next : UInt8) : Option QStrBuilder :=
  b.appendQChar (compressQChar next)

def appendStr (b : QStrBuilder) (text : List UInt8) : Option QStrBuilder :=
  text.foldlM appendChar b

/-- The loop of `appendQStr` with the reader of the text. -/
def appendQStr : ℕ → QStrReader → QStrBuilder → Option QStrBuilder
  | 0, _, b => some b
  | len + 1, reader, b => do
    let (c, reader) ← reader.nextQChar
    let b ← b.appendQChar c
    appendQStr len reader b

/-- The loop of `appendCharN`, and of `finish`. -/
def appendQCharN : ℕ → UInt8 → QStrBuilder → Option QStrBuilder
  | 0, _, b => some b
  | len + 1, c, b => do
    let b ← b.appendQChar c
    appendQCharN len c b

def finish (b : QStrBuilder) (max : ℕ) (fill : UInt8) : Option QStrBuilder := do
  let b ← appendQCharN (max - b.curLen) (fill &&& 0x3F) b
  b.appendQChar (fill &&& 0x3F)

/-! ### The invariant of the builder -/

/-- The bits of the last characters that are not written yet. -/
def pendingOf (c : ℕ → ℕ) (n : ℕ) : ℕ :=
  match n % 4 with
  | 0 => 0
  | 1 => c (n - 1) * 4 % 256
  | 2 => c (n - 1) * 16 % 256
  | _ => c (n - 1) * 64 % 256

/-- The characters of `c` below `n` have been appended to a builder that was given `buf`. -/
structure Built (c : ℕ → ℕ) (buf : List UInt8) (n : ℕ) (b : QStrBuilder) : Prop where
  curLen : b.curLen = n
  pos : b.pos = 3 * n / 4
  length : b.bytes.length = buf.length
  bytes : ∀ k, bytesOf b.bytes k = if k < 3 * n / 4 then byteAt c k else bytesOf buf k
  pending : b.pending.toNat = pendingOf c n

variable {c : ℕ → ℕ} {buf : List UInt8} {n k : ℕ} {b : QStrBuilder} {value : UInt8}

theorem built_init (c : ℕ → ℕ) (buf : List UInt8) : Built c buf 0 (init buf) where
  curLen := rfl
  pos := rfl
  length := rfl
  bytes k := (if_neg (Nat.not_lt_zero k)).symm
  pending := rfl

theorem Built.put (h : Built c buf n b) (hlt : 3 * n / 4 < buf.length)
    (hvalue : value.toNat = byteAt c (3 * n / 4)) :
    ∃ b', b.put value = some b' ∧ b'.pos = 3 * n / 4 + 1 ∧ b'.bytes.length = buf.length ∧
      ∀ k, bytesOf b'.bytes k = if k < 3 * n / 4 + 1 then byteAt c k else bytesOf buf k := by
  have hpos : b.pos < b.bytes.length := by rwa [h.pos, h.length]
  refine ⟨_, congrArg (Option.map _) (poke_of_lt hpos value), congrArg (· + 1) h.pos,
    (List.length_set ..).trans h.length, fun k => ?_⟩
  have hk := h.bytes k
  rw [bytesOf] at hk
  rw [bytesOf, getD_set hpos, h.pos]
  rcases lt_trichotomy k (3 * n / 4) with hlt | heq | hgt
  · rw [if_neg hlt.ne, if_pos (hlt.trans (Nat.lt_succ_self _)), hk, if_pos hlt]
  · rw [if_pos heq, if_pos (heq ▸ Nat.lt_succ_self _), hvalue, heq]
  · rw [if_neg hgt.ne', if_neg (Nat.not_lt.2 hgt), hk, if_neg (Nat.lt_asymm hgt)]

/-- A character that completes a byte. -/
theorem Built.put_append (h : Built c buf n b) (hn : n % 4 ≠ 0)
    (hlen : 3 * (n + 1) / 4 ≤ buf.length) (hvalue : value.toNat = byteAt c (3 * n / 4))
    {pending : UInt8} (hpending : pending.toNat = pendingOf c (n + 1)) :
    ∃ b', ((b.put value).map fun b => { b with pending := pending, curLen := n + 1 }) = some b' ∧
      Built c buf (n + 1) b' := by
  rw [offset_succ_of_ne hn] at hlen
  obtain ⟨b', hput, hpos, hlength, hbytes⟩ := h.put hlen hvalue
  rw [← offset_succ_of_ne hn] at hpos
  refine ⟨_, congrArg (Option.map _) hput, rfl, hpos, hlength, fun k => ?_, hpending⟩
  rw [offset_succ_of_ne hn]
  exact hbytes k

/-- A character is appended. -/
theorem Built.append (h : Built c buf n b) (hc : ∀ i, c i < 64) (hvalue : value.toNat = c n)
    (hn : n + 1 < 2 ^ 32) (hlen : 3 * (n + 1) / 4 ≤ buf.length) :
    ∃ b', b.appendQChar value = some b' ∧ Built c buf (n + 1) b' := by
  have hnext : (b.curLen + 1) % 2 ^ 32 = n + 1 := by rw [h.curLen, Nat.mod_eq_of_lt hn]
  have hpending := h.pending
  have hlt := hc n
  rw [appendQChar, hnext, h.curLen]
  obtain ⟨g, rfl | rfl | rfl | rfl⟩ := exists_group_of_four n
  · have hr : 4 * g % 4 = 0 := by omega
    have hr' : (4 * g + 1) % 4 = 1 := by omega
    have hoffset := offset_succ_of_eq hr
    simp only [hr]
    refine ⟨_, rfl, rfl, ?_, h.length, ?_, ?_⟩
    · rw [hoffset]
      exact h.pos
    · rw [hoffset]
      exact h.bytes
    · simp only [pendingOf, hr', Nat.add_sub_cancel]
      rw [toNat_shiftLeft_two, hvalue]
  · have hr : (4 * g + 1) % 4 = 1 := by omega
    have hr' : (4 * g + 1 + 1) % 4 = 2 := by omega
    have ho : 3 * (4 * g + 1) / 4 = 3 * g := by omega
    have hlow := toNat_shiftRight_four value
    simp only [pendingOf, hr, Nat.add_sub_cancel] at hpending
    simp only [hr]
    refine h.put_append (by omega) hlen ?_ ?_
    · rw [ho, byteAt_zero, toNat_or_eq_add 2 (by omega) (by omega), hpending, hlow, hvalue]
    · simp only [pendingOf, hr', Nat.add_sub_cancel]
      rw [toNat_shiftLeft_four, hvalue]
  · have hr : (4 * g + 2) % 4 = 2 := by omega
    have hr' : (4 * g + 2 + 1) % 4 = 3 := by omega
    have ho : 3 * (4 * g + 2) / 4 = 3 * g + 1 := by omega
    have hlow := toNat_shiftRight_two value
    simp only [pendingOf, hr, Nat.succ_sub_one] at hpending
    simp only [hr]
    refine h.put_append (by omega) hlen ?_ ?_
    · rw [ho, byteAt_one, toNat_or_eq_add 4 (by omega) (by omega), hpending, hlow, hvalue]
    · simp only [pendingOf, hr', Nat.add_sub_cancel]
      rw [toNat_shiftLeft_six, hvalue]
  · have hr : (4 * g + 3) % 4 = 3 := by omega
    have hr' : (4 * g + 3 + 1) % 4 = 0 := by omega
    have ho : 3 * (4 * g + 3) / 4 = 3 * g + 2 := by omega
    simp only [pendingOf, hr, Nat.succ_sub_one] at hpending
    simp only [hr]
    refine h.put_append (by omega) hlen ?_ ?_
    · rw [ho, byteAt_two, toNat_or_eq_add 6 (by omega) (by omega), hpending, hvalue]
    · simp only [pendingOf, hr', UInt8.toNat_zero]

/-- A run of one character is appended. -/
theorem Built.appendN {len : ℕ} (h : Built c buf n b) (hc : ∀ i, c i < 64)
    (hvalue : ∀ i, n ≤ i → i < n + len → value.toNat = c i) (hn : n + len < 2 ^ 32)
    (hlen : 3 * (n + len) / 4 ≤ buf.length) :
    ∃ b', appendQCharN len value b = some b' ∧ Built c buf (n + len) b' := by
  induction len generalizing n b with
  | zero => exact ⟨b, rfl, h⟩
  | succ len ih =>
    obtain ⟨b', happend, h'⟩ := h.append hc (hvalue n le_rfl (by omega)) (by omega) (by omega)
    obtain ⟨b'', hrest, h''⟩ := ih h' (fun i hi hi' => hvalue i (by omega) (by omega)) (by omega)
      (by omega)
    refine ⟨b'', ?_, ?_⟩
    · simp only [appendQCharN, happend, Option.bind_eq_bind, Option.bind_some]
      exact hrest
    · rwa [Nat.add_right_comm, Nat.add_assoc] at h''

/-- A text is appended. -/
theorem Built.appendStr {text : List UInt8} (h : Built c buf n b) (hc : ∀ i, c i < 64)
    (hvalue : ∀ i < text.length, (compressQChar (text.getD i 0)).toNat = c (n + i))
    (hn : n + text.length < 2 ^ 32) (hlen : 3 * (n + text.length) / 4 ≤ buf.length) :
    ∃ b', b.appendStr text = some b' ∧ Built c buf (n + text.length) b' := by
  induction text generalizing n b with
  | nil => exact ⟨b, rfl, h⟩
  | cons x text ih =>
    rw [List.length_cons] at hn hlen hvalue
    obtain ⟨b', happend, h'⟩ := h.append hc (hvalue 0 (Nat.succ_pos _)) (by omega) (by omega)
    obtain ⟨b'', hrest, h''⟩ := ih h' (fun i hi => by
      rw [Nat.add_assoc, Nat.add_comm 1 i]
      exact hvalue (i + 1) (Nat.succ_lt_succ hi)) (by omega) (by omega)
    refine ⟨b'', ?_, ?_⟩
    · rw [QStrBuilder.appendStr, List.foldlM_cons, appendChar]
      rw [List.getD_cons_zero] at happend
      rw [happend]
      exact hrest
    · rwa [List.length_cons, ← Nat.add_assoc, Nat.add_right_comm]

/-- The characters of another QSTRING are appended. -/
theorem Built.appendQStr {text : List UInt8} {len i : ℕ} (h : Built c buf n b)
    (hc : ∀ i, c i < 64) (hvalue : ∀ j < len, charsOf text (i + j) = c (n + j))
    (hfits : Fits (i + len)) (htext : size (i + len) ≤ text.length) (hn : n + len < 2 ^ 32)
    (hlen : 3 * (n + len) / 4 ≤ buf.length) :
    ∃ b', appendQStr len (QStrReader.before text i) b = some b' ∧ Built c buf (n + len) b' := by
  induction len generalizing n i b with
  | zero => exact ⟨b, rfl, h⟩
  | succ len ih =>
    have hread := QStrReader.nextQChar_before (hfits.mono (by omega) : Fits i)
      ((size_mono (by omega)).trans htext)
    have hzero := hvalue 0 (Nat.succ_pos _)
    obtain ⟨b', happend, h'⟩ := h.append hc ((toNat_qchar text i).trans hzero) (by omega) (by omega)
    obtain ⟨b'', hrest, h''⟩ := @ih (n + 1) b' (i + 1) h' (fun j hj => by
      have hj' := hvalue (j + 1) (Nat.succ_lt_succ hj)
      rwa [← Nat.add_assoc, ← Nat.add_assoc, Nat.add_right_comm, Nat.add_right_comm n] at hj')
      (hfits.mono (by omega)) ((size_mono (by omega)).trans htext) (by omega) (by omega)
    refine ⟨b'', ?_, ?_⟩
    · simp only [QStrBuilder.appendQStr, hread, happend, Option.bind_eq_bind, Option.bind_some]
      exact hrest
    · rwa [Nat.add_right_comm, Nat.add_assoc] at h''

/-- The builder writes the bytes that `max` characters take, and no other. -/
theorem Built.finish {max : ℕ} {fill : UInt8} (h : Built c buf n b) (hc : ∀ i, c i < 64)
    (hn : n ≤ max) (hmax : Fits max) (hfill : ∀ i, n ≤ i → c i = (fill &&& 0x3F).toNat)
    (hlen : size max ≤ buf.length) :
    ∃ b', b.finish max fill = some b' ∧ b'.bytes.length = buf.length ∧
      ∀ k, bytesOf b'.bytes k = if k < size max then byteAt c k else bytesOf buf k := by
  unfold Fits at hmax
  have hsize : size max = 3 * (max + 1) / 4 := by rw [size, Nat.mul_comm]
  rw [hsize] at hlen ⊢
  obtain ⟨b', hloop, h'⟩ := @Built.appendN c buf n b (fill &&& 0x3F) (max - n) h hc
    (fun i hi _ => (hfill i hi).symm) (by omega) (by omega)
  rw [Nat.add_sub_cancel' hn] at h'
  obtain ⟨b'', hlast, h''⟩ := h'.append hc (hfill max hn).symm (by omega) hlen
  refine ⟨b'', ?_, h''.length, h''.bytes⟩
  simp only [QStrBuilder.finish, h.curLen, hloop, Option.bind_eq_bind, Option.bind_some]
  exact hlast

end QStrBuilder

end QString
