import HpccPlatform.Library.Buffer
import HpccPlatform.Library.Utf8

/-!
# Lower case of UTF-8 text

`rtlUtf8ToLower` of `eclrtl.cpp` lower-cases a text in place.  It takes the bytes one by one as long
as they are ASCII, and at the first other byte it goes on with the conversion to Unicode and back.
The memory holds the text only: what reads or writes outside of it has no result.
-/

namespace Utf8

open Buffer String

/-! ### The code -/

/-- `rtlCodepageToUnicode`, `rtlUnicodeToLower` and `rtlUnicodeToCodepage` one after the other: the
bytes that take the place of the bytes of a text of some characters. -/
structure Conversion where
  convert : ℕ → List UInt8 → List UInt8
  length_convert : ∀ len text, (convert len text).length = text.length

def getTrailingBytesForUTF8 (value : UInt8) : ℕ :=
  if value < 0xc0 then 0
  else if value < 0xe0 then 1
  else if value < 0xf0 then 2
  else if value < 0xf8 then 3
  else if value < 0xfc then 4
  else 5

def readUtf8Size (value : UInt8) : ℕ := getTrailingBytesForUTF8 value + 1

/-- The loop of `rtlUtf8Size` on the bytes from `data` on, with a 32-bit `offset`. -/
def utf8SizeLoop (mem : List UInt8) (data : ℕ) : ℕ → ℕ → Option ℕ
  | 0, offset => some offset
  | len + 1, offset => do
    let value ← peek mem (data + offset)
    utf8SizeLoop mem data len ((offset + readUtf8Size value) % 2 ^ 32)

def rtlUtf8Size (len : ℕ) (mem : List UInt8) (data : ℕ) : Option ℕ := utf8SizeLoop mem data len 0

/-- The bytes that `rtlDataAttr` allocates for a `size32_t`. -/
def dataAttrSize (size : ℕ) : ℕ := size % 2 ^ 32

def tolower (c : UInt8) : UInt8 := if 0x41 ≤ c ∧ c ≤ 0x5a then c + 0x20 else c

/-- The part of `rtlUtf8ToLower` that goes via Unicode, for `len` characters from `data` on.  The
conversion fills the Unicode buffer with `len` characters of two bytes. -/
def lowerUnicode (conv : Conversion) (len : ℕ) (mem : List UInt8) (data : ℕ) :
    Option (List UInt8) := do
  let size ← rtlUtf8Size len mem data
  if len * 2 ≤ dataAttrSize (len * 2) ∧ data + size ≤ mem.length then
    some (mem.take data ++ conv.convert len ((mem.drop data).take size) ++ mem.drop (data + size))
  else none

/-- The loop of `rtlUtf8ToLower` with `l - i` rounds left; `t` is advanced with `i`. -/
def lowerLoop (conv : Conversion) (l : ℕ) : ℕ → ℕ → ℕ → List UInt8 → Option (List UInt8)
  | 0, _, _, mem => some mem
  | n + 1, i, t, mem => do
    let next ← peek mem t
    if 0x80 ≤ next then lowerUnicode conv (l - i) mem (t + i)
    else do
      let mem ← poke mem t (tolower next)
      lowerLoop conv l n (i + 1) (t + 1) mem

def rtlUtf8ToLower (conv : Conversion) (l : ℕ) (mem : List UInt8) : Option (List UInt8) :=
  lowerLoop conv l l 0 0 mem

/-- The conversion lower-cases each character on its own, ASCII as `tolower` and without a change of
the number of bytes. -/
structure Lowers (conv : Conversion) (lower : Char → Char) : Prop where
  ascii : ∀ c, IsAscii c → utf8EncodeChar (lower c) = (utf8EncodeChar c).map tolower
  utf8Size : ∀ c, (lower c).utf8Size = c.utf8Size
  convert : ∀ text, conv.convert text.length (encode text) = encode (text.map lower)

variable {conv : Conversion} {lower : Char → Char} {c : Char} {text front back : List Char}
  {mem : List UInt8}

/-! ### The sizes -/

theorem readUtf8Size_eq (b : UInt8) : readUtf8Size b =
    if b.toNat < 0xc0 then 1 else if b.toNat < 0xe0 then 2 else if b.toNat < 0xf0 then 3
    else if b.toNat < 0xf8 then 4 else if b.toNat < 0xfc then 5 else 6 := by
  simp only [readUtf8Size, getTrailingBytesForUTF8, UInt8.lt_iff_toNat_lt, UInt8.reduceToNat]
  split_ifs <;> rfl

theorem readUtf8Size_leadByte (c : Char) : readUtf8Size (leadByte c) = c.utf8Size := by
  have hc := toNat_le c
  rw [readUtf8Size_eq, leadByte_toNat, utf8Size_eq]
  split_ifs <;> omega

theorem peek_lead (pre : List UInt8) (c : Char) (xs : List Char) :
    peek (pre ++ encode (c :: xs)) pre.length = some (leadByte c) := by
  obtain ⟨more, hmore⟩ := encode_eq_lead c xs
  rw [hmore, peek, List.getElem?_append_right le_rfl, Nat.sub_self]
  rfl

/-- The size of what is left of a text, as long as it is a number of 32 bits. -/
theorem utf8SizeLoop_eq (front text : List Char) (h : size front + size text < 2 ^ 32) :
    utf8SizeLoop (encode front ++ encode text) 0 text.length (size front) =
      some (size front + size text) := by
  induction text generalizing front with
  | nil => rfl
  | cons c text ih =>
    have hpeek := peek_lead (encode front) c text
    rw [length_encode] at hpeek
    rw [List.length_cons, utf8SizeLoop, Nat.zero_add, hpeek, Option.bind_eq_bind, Option.bind_some,
      readUtf8Size_leadByte]
    have hfront : size (front ++ [c]) = size front + c.utf8Size := by
      rw [size, List.map_append, List.sum_append, List.map_singleton, List.sum_singleton]
      rfl
    rw [size_cons, ← Nat.add_assoc, ← hfront] at h ⊢
    have hlt : size (front ++ [c]) < 2 ^ 32 := Nat.lt_of_le_of_lt (Nat.le_add_right _ _) h
    rw [Nat.mod_eq_of_lt hlt, ← ih (front ++ [c]) h, encode_append, encode_cons, encode_cons,
      encode_nil, List.append_nil, List.append_assoc]

theorem rtlUtf8Size_encode (h : size text < 2 ^ 32) :
    rtlUtf8Size text.length (encode text) 0 = some (size text) := by
  have hloop := utf8SizeLoop_eq [] text (by rwa [size_nil, Nat.zero_add])
  rwa [size_nil, Nat.zero_add, encode_nil, List.nil_append] at hloop

theorem utf8SizeLoop_lt {data len offset n : ℕ} (ho : offset < 2 ^ 32)
    (h : utf8SizeLoop mem data len offset = some n) : n < 2 ^ 32 := by
  induction len generalizing offset with
  | zero =>
    obtain rfl := Option.some.inj h
    exact ho
  | succ len ih =>
    obtain ⟨value, -, hrest⟩ := Option.bind_eq_some_iff.1 h
    exact ih (Nat.mod_lt _ (by decide)) hrest

theorem dataAttrSize_iff {len : ℕ} : len * 2 ≤ dataAttrSize (len * 2) ↔ len < 2 ^ 31 := by
  rw [dataAttrSize]
  constructor
  · intro h
    have := Nat.mod_lt (len * 2) (show 0 < 2 ^ 32 by decide)
    omega
  · intro h
    rw [Nat.mod_eq_of_lt (by omega)]

/-! ### The text via Unicode -/

theorem lowerUnicode_eq (hconv : Lowers conv lower) (hlen : text.length < 2 ^ 31)
    (hsize : size text < 2 ^ 32) :
    lowerUnicode conv text.length (encode text) 0 = some (encode (text.map lower)) := by
  have hfit : text.length * 2 ≤ dataAttrSize (text.length * 2) ∧
      0 + size text ≤ (encode text).length :=
    ⟨dataAttrSize_iff.2 hlen, by rw [Nat.zero_add, length_encode]⟩
  have htake : (encode text).take (size text) = encode text :=
    List.take_of_length_le (length_encode text).le
  rw [lowerUnicode, rtlUtf8Size_encode hsize, Option.bind_eq_bind, Option.bind_some, if_pos hfit,
    List.take_zero, List.nil_append, List.drop_zero, Nat.zero_add, htake, hconv.convert,
    List.drop_of_length_le (length_encode text).le, List.append_nil]

/-- What the part via Unicode leaves as it was, and its size. -/
theorem lowerUnicode_frame {len data : ℕ} {r : List UInt8}
    (h : lowerUnicode conv len mem data = some r) :
    len < 2 ^ 31 ∧ ∃ n < 2 ^ 32, data + n ≤ mem.length ∧
      r = mem.take data ++ conv.convert len ((mem.drop data).take n) ++ mem.drop (data + n) := by
  obtain ⟨n, hn, hrest⟩ := Option.bind_eq_some_iff.1 h
  obtain ⟨hfit, hr⟩ := Option.ite_none_right_eq_some.1 hrest
  exact ⟨dataAttrSize_iff.1 hfit.1, n, utf8SizeLoop_lt (by decide) hn, hfit.2,
    (Option.some.inj hr).symm⟩

/-! ### The ASCII characters -/

theorem ascii_byte (h : IsAscii c) : ¬ (0x80 : UInt8) ≤ UInt8.ofNat c.toNat := by
  have hc := isAscii_iff.1 h
  rw [UInt8.le_iff_toNat_le, UInt8.toNat_ofNat', Nat.mod_eq_of_lt (by omega)]
  exact Nat.not_le.2 (Nat.lt_succ_of_le hc)

theorem size_ascii (h : ∀ c ∈ text, IsAscii c) : size text = text.length := by
  induction text with
  | nil => rfl
  | cons c text ih =>
    have hc : c.utf8Size = 1 := by
      rw [utf8Size_eq, if_pos (isAscii_iff.1 (h c List.mem_cons_self))]
    rw [size_cons, hc, ih fun d hd => h d (List.mem_cons_of_mem c hd), List.length_cons,
      Nat.add_comm]

/-- The loop passes ASCII characters: they are lower-cased, and both counters move past them. -/
theorem lowerLoop_ascii (hconv : Lowers conv lower) (l n : ℕ) (done : List UInt8)
    (h : ∀ c ∈ front, IsAscii c) (rest : List UInt8) :
    lowerLoop conv l (front.length + n) done.length done.length (done ++ encode front ++ rest) =
      lowerLoop conv l n (done.length + front.length) (done.length + front.length)
        (done ++ encode (front.map lower) ++ rest) := by
  induction front generalizing done with
  | nil => rw [List.length_nil, Nat.zero_add, Nat.add_zero, List.map_nil]
  | cons c front ih =>
    have hc := h c List.mem_cons_self
    have henc := encode_ascii hc
    have hpeek : peek (done ++ encode (c :: front) ++ rest) done.length =
        some (UInt8.ofNat c.toNat) := by
      rw [encode_cons, henc, peek, List.append_assoc, List.getElem?_append_right le_rfl,
        Nat.sub_self]
      rfl
    have hpoke : poke (done ++ encode (c :: front) ++ rest) done.length
        (tolower (UInt8.ofNat c.toNat)) =
          some ((done ++ [tolower (UInt8.ofNat c.toNat)]) ++ encode front ++ rest) := by
      rw [encode_cons, henc, poke_of_lt (by simp), List.append_assoc,
        List.set_append_right _ _ le_rfl, Nat.sub_self, List.append_assoc, List.append_assoc,
        List.singleton_append, List.set_cons_zero, List.append_assoc done, List.singleton_append]
    have hlower : utf8EncodeChar (lower c) = [tolower (UInt8.ofNat c.toNat)] := by
      rw [hconv.ascii c hc, henc, List.map_singleton]
    have hlen : front.length + 1 + n = front.length + n + 1 := by omega
    rw [List.length_cons, hlen, lowerLoop, hpeek, Option.bind_eq_bind, Option.bind_some,
      if_neg (ascii_byte hc), hpoke, Option.bind_eq_bind, Option.bind_some]
    have hnext := ih (done ++ [tolower (UInt8.ofNat c.toNat)])
      fun d hd => h d (List.mem_cons_of_mem c hd)
    rw [List.length_append, List.length_singleton] at hnext
    rw [hnext, List.map_cons, encode_cons, hlower, Nat.add_assoc, Nat.add_comm 1, List.append_assoc,
      List.append_assoc, List.append_assoc, List.append_assoc]

theorem rtlUtf8ToLower_eq (hconv : Lowers conv lower) (h : ∀ c ∈ front, IsAscii c)
    (back : List Char) :
    rtlUtf8ToLower conv (front ++ back).length (encode (front ++ back)) =
      lowerLoop conv (front ++ back).length back.length front.length front.length
        (encode (front.map lower) ++ encode back) := by
  have hloop := lowerLoop_ascii hconv (front ++ back).length back.length [] h (encode back)
  rw [List.length_nil, Nat.zero_add, List.nil_append, List.nil_append] at hloop
  rw [rtlUtf8ToLower, encode_append, ← hloop, List.length_append]

/-- From the first other character on, the code goes via Unicode twice as far from the beginning. -/
theorem rtlUtf8ToLower_other (hconv : Lowers conv lower) (h : ∀ c ∈ front, IsAscii c)
    (hc : ¬ IsAscii c) (back : List Char) :
    rtlUtf8ToLower conv (front ++ c :: back).length (encode (front ++ c :: back)) =
      lowerUnicode conv (back.length + 1) (encode (front.map lower) ++ encode (c :: back))
        (front.length + front.length) := by
  have hlen : (encode (front.map lower)).length = front.length := by
    rw [length_encode, size_map hconv.utf8Size, size_ascii h]
  have hpeek := peek_lead (encode (front.map lower)) c back
  rw [hlen] at hpeek
  have hlead : (0x80 : UInt8) ≤ leadByte c :=
    UInt8.le_iff_toNat_le.2 (le_trans (by decide) (lt_leadByte hc))
  have hleft : (front ++ c :: back).length - front.length = back.length + 1 := by
    rw [List.length_append, Nat.add_sub_cancel_left, List.length_cons]
  rw [rtlUtf8ToLower_eq hconv h, List.length_cons, lowerLoop, hpeek, Option.bind_eq_bind,
    Option.bind_some, if_pos hlead, hleft]

theorem exists_front (text : List Char) :
    (∀ c ∈ text, IsAscii c) ∨
      ∃ front c back, text = front ++ c :: back ∧ (∀ c ∈ front, IsAscii c) ∧ ¬ IsAscii c := by
  induction text with
  | nil => exact Or.inl fun c hc => absurd hc List.not_mem_nil
  | cons c text ih =>
    by_cases hc : IsAscii c
    · rcases ih with hall | ⟨front, d, back, rfl, hfront, hd⟩
      · exact Or.inl (List.forall_mem_cons.2 ⟨hc, hall⟩)
      · exact Or.inr ⟨c :: front, d, back, rfl, List.forall_mem_cons.2 ⟨hc, hfront⟩, hd⟩
    · exact Or.inr ⟨[], c, text, rfl, fun d hd => absurd hd List.not_mem_nil, hc⟩

/-! ### Conversions -/

theorem toLower_ascii (h : IsAscii c) :
    utf8EncodeChar c.toLower = (utf8EncodeChar c).map tolower := by
  have key : ∀ n : Fin 128, utf8EncodeChar (Char.ofNat n).toLower =
      (utf8EncodeChar (Char.ofNat n)).map tolower := by decide
  have hc := key ⟨c.toNat, Nat.lt_succ_of_le (isAscii_iff.1 h)⟩
  rwa [Char.ofNat_toNat] at hc

/-- Every such map of characters is the one of a conversion, which leaves bytes as they are where
they are no text of the given length. -/
theorem exists_conversion (hascii : ∀ c, IsAscii c →
    utf8EncodeChar (lower c) = (utf8EncodeChar c).map tolower)
    (hsize : ∀ c, (lower c).utf8Size = c.utf8Size) :
    ∃ conv, Lowers conv lower ∧ ∀ len bytes,
      (∀ text : List Char, text.length = len → bytes ≠ encode text) →
        conv.convert len bytes = bytes := by
  classical
  let IsText := fun len bytes => ∃ text : List Char, text.length = len ∧ bytes = encode text
  let convert := fun len bytes =>
    if h : IsText len bytes then encode (h.choose.map lower) else bytes
  have hlength : ∀ len bytes, (convert len bytes).length = bytes.length := by
    intro len bytes
    by_cases h : IsText len bytes
    · rw [show convert len bytes = _ from dif_pos h, length_encode, size_map hsize,
        ← length_encode, ← h.choose_spec.2]
    · rw [show convert len bytes = _ from dif_neg h]
  refine ⟨⟨convert, hlength⟩, ⟨hascii, hsize, fun text => ?_⟩, fun len bytes hno => ?_⟩
  · have h : IsText text.length (encode text) := ⟨text, rfl, rfl⟩
    have heq : h.choose = text :=
      @eq_of_encode_append h.choose text [] (by rw [List.append_nil, ← h.choose_spec.2])
        h.choose_spec.1
    change convert text.length (encode text) = _
    rw [show convert text.length (encode text) = _ from dif_pos h, heq]
  · exact dif_neg fun ⟨text, hlen, hbytes⟩ => hno text hlen hbytes

theorem exists_lowers_changing (hc : ¬ IsAscii c) :
    ∃ conv lower, Lowers conv lower ∧ leadByte (lower c) ≠ leadByte c ∧
      ∀ len bytes, (∀ text : List Char, text.length = len → bytes ≠ encode text) →
        conv.convert len bytes = bytes := by
  obtain ⟨d, hsize, hlead⟩ := exists_leadByte_ne hc
  let lower := fun x : Char => if IsAscii x then x.toLower else if x = c then d else x
  have hascii : ∀ x, IsAscii x → utf8EncodeChar (lower x) = (utf8EncodeChar x).map tolower := by
    intro x hx
    rw [show lower x = x.toLower from if_pos hx, toLower_ascii hx]
  have hlower : lower c = d := (if_neg hc).trans (if_pos rfl)
  have hkeep : ∀ x, (lower x).utf8Size = x.utf8Size := by
    intro x
    by_cases hx : IsAscii x
    · rw [← length_utf8EncodeChar, hascii x hx, List.length_map, length_utf8EncodeChar]
    · by_cases hxc : x = c
      · rw [hxc, hlower, hsize]
      · rw [show lower x = x from (if_neg hx).trans (if_neg hxc)]
  obtain ⟨conv, hconv, hno⟩ := exists_conversion hascii hkeep
  exact ⟨conv, lower, hconv, by rwa [hlower], hno⟩

/-- The text begins with a character of more than one byte, and its sizes are numbers that the code
can hold: the Unicode buffer has two bytes for a character. -/
def StartsUnicode (text : List Char) : Prop :=
  (∃ c ∈ text.head?, ¬ IsAscii c) ∧ text.length < 2 ^ 31 ∧ size text < 2 ^ 32

/-- What a run has done when it meets the claim, for a text with another character than ASCII. -/
theorem startsUnicode_of_lowered (hfront : ∀ c ∈ front, IsAscii c) (hc : ¬ IsAscii c)
    (h : ∀ conv lower, Lowers conv lower →
      rtlUtf8ToLower conv (front ++ c :: back).length (encode (front ++ c :: back)) =
        some (conv.convert (front ++ c :: back).length (encode (front ++ c :: back)))) :
    StartsUnicode (front ++ c :: back) := by
  obtain ⟨conv, lower, hconv, hlead, hno⟩ := exists_lowers_changing hc
  have hrun := h conv lower hconv
  rw [rtlUtf8ToLower_other hconv hfront hc, hconv.convert, List.map_append, List.map_cons,
    encode_append] at hrun
  obtain ⟨hlen, n, hn, hfit, hr⟩ := lowerUnicode_frame hrun
  have hmap : (encode (front.map lower)).length = front.length := by
    rw [length_encode, size_map hconv.utf8Size, size_ascii hfront]
  have hwant := peek_lead (encode (front.map lower)) (lower c) (back.map lower)
  have hhad := peek_lead (encode (front.map lower)) c back
  rw [hmap] at hwant hhad
  -- the first byte of `c` is never written, neither from the place of the counters on …
  have hnil : front = [] := by
    by_contra hne
    have hpos : front.length < front.length + front.length :=
      Nat.lt_add_of_pos_left (List.length_pos_iff.2 hne)
    have hin : front.length < ((encode (front.map lower) ++ encode (c :: back)).take
        (front.length + front.length)).length := by
      rw [List.length_take, lt_min_iff]
      exact ⟨hpos, hpos.trans_le ((Nat.le_add_right _ _).trans hfit)⟩
    rw [hr, peek, List.append_assoc, List.getElem?_append_left hin, List.getElem?_take_of_lt hpos]
      at hwant
    exact hlead (Option.some.inj (hwant.symm.trans hhad))
  subst hnil
  refine ⟨⟨c, rfl, hc⟩, hlen, ?_⟩
  -- … nor when the size has lost its upper part
  by_contra hbig
  rw [List.nil_append, Nat.not_lt] at hbig
  have hcut : ∀ text : List Char, text.length = back.length + 1 →
      (encode (c :: back)).take n ≠ encode text := by
    intro text htext heq
    have hsame := @eq_of_encode_append text (c :: back) ((encode (c :: back)).drop n)
      (by rw [← heq, List.take_append_drop]) htext
    have hsizes := congrArg List.length heq
    rw [hsame, List.length_take, length_encode] at hsizes
    exact absurd (hsizes ▸ Nat.min_le_left _ _) (Nat.not_le.2 (hn.trans_le hbig))
  rw [List.map_nil, encode_nil, List.nil_append, List.length_nil, List.take_zero, List.drop_zero,
    List.nil_append, Nat.zero_add, List.nil_append, hno _ _ hcut, List.take_append_drop] at hr
  rw [List.map_nil, encode_nil, List.nil_append, hr, List.length_nil] at hwant
  exact hlead (Option.some.inj (hwant.symm.trans hhad))

theorem rtlUtf8ToLower_ascii (hconv : Lowers conv lower) (h : ∀ c ∈ text, IsAscii c) :
    rtlUtf8ToLower conv text.length (encode text) = some (conv.convert text.length (encode text))
    := by
  have hrun := rtlUtf8ToLower_eq hconv h []
  rw [List.append_nil, List.length_nil, encode_nil, List.append_nil] at hrun
  rw [hrun, hconv.convert]
  rfl

theorem rtlUtf8ToLower_startsUnicode (hconv : Lowers conv lower) (h : StartsUnicode text) :
    rtlUtf8ToLower conv text.length (encode text) = some (conv.convert text.length (encode text))
    := by
  obtain ⟨⟨c, hmem, hc⟩, hlen, hsize⟩ := h
  cases text with
  | nil => cases hmem
  | cons d back =>
    obtain rfl := Option.some.inj hmem
    have hrun := @rtlUtf8ToLower_other conv lower d [] hconv
      (fun c hc => absurd hc List.not_mem_nil) hc back
    rw [List.map_nil, encode_nil, List.nil_append, List.nil_append, List.length_nil] at hrun
    rw [hrun, ← List.length_cons, lowerUnicode_eq hconv hlen hsize, hconv.convert]

/-- A text is lower-cased as via Unicode, whatever the conversion, when it is ASCII or does not
begin with ASCII. -/
theorem utf8ToLower_agrees_iff (text : List Char) :
    (∀ conv lower, Lowers conv lower →
      rtlUtf8ToLower conv text.length (encode text) =
        some (conv.convert text.length (encode text))) ↔
      (∀ c ∈ text, IsAscii c) ∨ StartsUnicode text := by
  constructor
  · intro h
    rcases exists_front text with hall | ⟨front, c, back, rfl, hfront, hc⟩
    · exact Or.inl hall
    · exact Or.inr (startsUnicode_of_lowered hfront hc h)
  · rintro (hall | hstart) conv lower hconv
    · exact rtlUtf8ToLower_ascii hconv hall
    · exact rtlUtf8ToLower_startsUnicode hconv hstart

/-- For `abÉ` the conversion starts behind the last byte. -/
theorem utf8ToLower_abE :
    (∃ conv lower, Lowers conv lower) ∧ ∀ conv lower, Lowers conv lower →
      rtlUtf8ToLower conv 3 (encode ['a', 'b', 'É']) = none := by
  refine ⟨?_, fun conv lower _ => rfl⟩
  obtain ⟨conv, lower, hconv, -⟩ := exists_lowers_changing (c := 'É') (by decide)
  exact ⟨conv, lower, hconv⟩

end Utf8
