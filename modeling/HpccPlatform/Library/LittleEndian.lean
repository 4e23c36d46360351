import Mathlib.Data.List.Basic
import Mathlib.Data.Nat.Bitwise

/-!
# Little-endian memory

A byte string as the memory of integers: `load` reads an integer of some bytes at a place, `store`
writes one, and `cpyrev` copies bytes in the reverse order.  Each is described by the single bits,
so that what shifts, extensions and partial copies make of an integer is compared bit by bit.
-/

namespace LittleEndian

variable {k m n o w i j : ℕ} {data src tgt : List UInt8}

/-- The bit `i` of a byte string, the bits of its first byte first. -/
def bit (data : List UInt8) (i : ℕ) : Bool := (data.getD (i / 8) 0).toNat.testBit (i % 8)

def number : List UInt8 → ℕ
  | [] => 0
  | b :: bs => b.toNat + 2 ^ 8 * number bs

/-- The integer of the `k` bytes from `o` on. -/
def load (k : ℕ) (data : List UInt8) (o : ℕ) : BitVec (8 * k) :=
  BitVec.ofNat _ (number ((data.drop o).take k))

/-- The `k` lowest bytes of an integer. -/
def bytes (k : ℕ) (v : BitVec w) : List UInt8 :=
  (List.range k).map fun i => UInt8.ofNat (v.toNat >>> (8 * i))

/-- The `k` lowest bytes of `v` are written from `o` on. -/
def store (k : ℕ) (data : List UInt8) (o : ℕ) (v : BitVec w) : List UInt8 :=
  data.take o ++ bytes k v ++ data.drop (o + k)

/-- The first `n` bytes of `src` are copied to the first ones of `tgt`, the last of them first. -/
def cpyrev (n : ℕ) (tgt src : List UInt8) : List UInt8 :=
  (List.range n).map (fun i => src.getD (n - 1 - i) 0) ++ tgt.drop n

/-- `cpyrev` to an integer of `k` bytes. -/
def cpyrevInto (k n : ℕ) (tgt : BitVec (8 * k)) (src : List UInt8) : BitVec (8 * k) :=
  load k (cpyrev n (bytes k tgt) src) 0

/-! ### Bits -/

theorem testBit_number (bs : List UInt8) (i : ℕ) : (number bs).testBit i = bit bs i := by
  induction bs generalizing i with
  | nil => simp [number, bit]
  | cons b bs ih =>
    have hb : b.toNat < 2 ^ 8 := b.toNat_lt
    rw [number, Nat.add_comm, Nat.testBit_two_pow_mul_add _ hb, bit]
    by_cases hi : i < 8
    · rw [if_pos hi, Nat.div_eq_of_lt hi, Nat.mod_eq_of_lt hi, List.getD_cons_zero]
    · obtain ⟨i, rfl⟩ := Nat.exists_eq_add_of_le (Nat.not_lt.1 hi)
      rw [if_neg hi, Nat.add_sub_cancel_left, ih, bit, Nat.add_mod_left,
        Nat.add_div_left i (by decide), List.getD_cons_succ]

@[simp] theorem getLsbD_load (k : ℕ) (data : List UInt8) (o j : ℕ) :
    (load k data o).getLsbD j = (decide (j < 8 * k) && bit data (8 * o + j)) := by
  rw [load, BitVec.getLsbD_ofNat, testBit_number]
  by_cases hj : j < 8 * k
  · have hlt : j / 8 < k := Nat.div_lt_of_lt_mul hj
    have hadd : (8 * o + j) / 8 = o + j / 8 := by omega
    simp only [bit, List.getD_eq_getElem?_getD, List.getElem?_take_of_lt hlt, List.getElem?_drop,
      hadd, Nat.mul_add_mod]
  · simp [hj]

theorem length_bytes (k : ℕ) (v : BitVec w) : (bytes k v).length = k := by
  simp [bytes]

theorem bit_bytes (v : BitVec w) (hi : i < 8 * k) : bit (bytes k v) i = v.getLsbD i := by
  have hlt : i / 8 < k := Nat.div_lt_of_lt_mul hi
  have hbyte : (bytes k v).getD (i / 8) 0 = UInt8.ofNat (v.toNat >>> (8 * (i / 8))) := by
    simp [bytes, hlt]
  rw [bit, hbyte, UInt8.toNat_ofNat', Nat.testBit_mod_two_pow, Nat.testBit_shiftRight,
    Nat.div_add_mod, BitVec.testBit_toNat]
  simp [Nat.mod_lt]

theorem bit_append_left (tgt : List UInt8) (hi : i < 8 * data.length) :
    bit (data ++ tgt) i = bit data i := by
  rw [bit, bit, List.getD_append _ _ _ _ (Nat.div_lt_of_lt_mul hi)]

theorem bit_append_right (tgt : List UInt8) (hi : 8 * data.length ≤ i) :
    bit (data ++ tgt) i = bit tgt (i - 8 * data.length) := by
  obtain ⟨j, rfl⟩ := Nat.exists_eq_add_of_le hi
  have hdiv : (8 * data.length + j) / 8 = data.length + j / 8 := by omega
  rw [bit, bit, hdiv, List.getD_append_right _ _ _ _ (Nat.le_add_right _ _), Nat.mul_add_mod,
    Nat.add_sub_cancel_left, Nat.add_sub_cancel_left]

theorem bit_drop (data : List UInt8) (o i : ℕ) : bit (data.drop o) i = bit data (8 * o + i) := by
  have hadd : (8 * o + i) / 8 = o + i / 8 := by omega
  simp only [bit, List.getD_eq_getElem?_getD, List.getElem?_drop, hadd, Nat.mul_add_mod]

theorem bit_take (hi : i < 8 * o) : bit (data.take o) i = bit data i := by
  simp only [bit, List.getD_eq_getElem?_getD, List.getElem?_take_of_lt (Nat.div_lt_of_lt_mul hi)]

theorem length_store (v : BitVec w) (ho : o + k ≤ data.length) :
    (store k data o v).length = data.length := by
  simp only [store, List.length_append, List.length_take, List.length_drop, length_bytes]
  omega

/-- A store changes the bits of its own place only. -/
theorem bit_store (v : BitVec w) (ho : o + k ≤ data.length) (i : ℕ) :
    bit (store k data o v) i =
      if 8 * o ≤ i ∧ i < 8 * (o + k) then v.getLsbD (i - 8 * o) else bit data i := by
  have htake : (data.take o).length = o := by rw [List.length_take]; omega
  rw [store, List.append_assoc]
  by_cases hlow : i < 8 * o
  · rw [if_neg (fun h => absurd hlow (Nat.not_lt.2 h.1)), bit_append_left _ (by rwa [htake]),
      bit_take hlow]
  rw [bit_append_right _ (by rw [htake]; exact Nat.not_lt.1 hlow), htake]
  by_cases hhigh : i < 8 * (o + k)
  · rw [if_pos ⟨Nat.not_lt.1 hlow, hhigh⟩, bit_append_left _ (by rw [length_bytes]; omega),
      bit_bytes v (by omega)]
  · rw [if_neg (fun h => hhigh h.2), bit_append_right _ (by rw [length_bytes]; omega),
      length_bytes, bit_drop]
    congr 1
    omega

/-- An integer that is stored and read again at its place. -/
theorem load_store (v : BitVec w) (ho : o + k ≤ data.length) :
    load k (store k data o v) o = v.setWidth (8 * k) := by
  refine BitVec.eq_of_getLsbD_eq fun j hj => ?_
  rw [getLsbD_load, bit_store v ho, if_pos ⟨Nat.le_add_right _ _, by omega⟩, BitVec.getLsbD_setWidth,
    Nat.add_sub_cancel_left]

theorem eq_of_bit_eq {as bs : List UInt8} (hlen : as.length = bs.length)
    (h : ∀ i < 8 * as.length, bit as i = bit bs i) : as = bs := by
  refine List.ext_getElem hlen fun i hi₁ hi₂ => UInt8.toNat_inj.1 (Nat.eq_of_testBit_eq fun j => ?_)
  by_cases hj : j < 8
  · have hbit := h (8 * i + j) (by omega)
    simp only [bit, Nat.mul_add_mod, Nat.mod_eq_of_lt hj,
      Nat.mul_add_div (show 0 < 8 by decide), Nat.div_eq_of_lt hj, Nat.add_zero,
      List.getD_eq_getElem _ _ hi₁, List.getD_eq_getElem _ _ hi₂] at hbit
    exact hbit
  · have hlt : ∀ b : UInt8, b.toNat < 2 ^ j := fun b =>
      b.toNat_lt.trans_le (Nat.pow_le_pow_right Nat.two_pos (Nat.not_lt.1 hj))
    rw [Nat.testBit_lt_two_pow (hlt _), Nat.testBit_lt_two_pow (hlt _)]

/-- Only the bits that fit into the bytes matter. -/
theorem bytes_setWidth (v : BitVec w) (hm : 8 * k ≤ m) : bytes k (v.setWidth m) = bytes k v := by
  refine eq_of_bit_eq ?_ fun i hi => ?_
  · rw [length_bytes, length_bytes]
  · rw [length_bytes] at hi
    rw [bit_bytes _ hi, bit_bytes v hi, BitVec.getLsbD_setWidth,
      decide_eq_true (lt_of_lt_of_le hi hm), Bool.true_and]

theorem store_setWidth (data : List UInt8) (o : ℕ) (v : BitVec w) (hm : 8 * k ≤ m) :
    store k data o (v.setWidth m) = store k data o v := by
  rw [store, bytes_setWidth v hm, store]

/-- Two stores side by side are one store, where the upper one has the upper bits. -/
theorem store_store (v : BitVec w) (u : BitVec m) (ho : o + k + n ≤ data.length)
    (hu : ∀ j < 8 * n, u.getLsbD j = v.getLsbD (8 * k + j)) :
    store k (store n data (o + k) u) o v = store (k + n) data o v := by
  have hlen := length_store u ho
  refine eq_of_bit_eq ?_ fun i _ => ?_
  · rw [length_store v (by omega), hlen, length_store v (by omega)]
  · rw [bit_store v (by omega), bit_store u ho, bit_store v (by omega)]
    by_cases hlow : i < 8 * (o + k)
    · rw [if_neg (fun h : 8 * (o + k) ≤ i ∧ _ => absurd hlow (Nat.not_lt.2 h.1))]
      by_cases ho' : 8 * o ≤ i
      · rw [if_pos ⟨ho', hlow⟩, if_pos ⟨ho', by omega⟩]
      · rw [if_neg (fun h => ho' h.1), if_neg (fun h => ho' h.1)]
    · rw [if_neg (fun h => hlow h.2)]
      by_cases hhigh : i < 8 * (o + (k + n))
      · rw [if_pos ⟨by omega, by omega⟩, if_pos ⟨by omega, hhigh⟩, hu _ (by omega)]
        congr 1
        omega
      · rw [if_neg (by omega), if_neg (by omega)]

/-! ### Reversed copies -/

/-- The place of a bit when `n` bytes are reversed. -/
def mirror (n i : ℕ) : ℕ := 8 * (n - 1 - i / 8) + i % 8

theorem mirror_lt (hi : i < 8 * n) : mirror n i < 8 * n := by
  have hdiv : i / 8 < n := Nat.div_lt_of_lt_mul hi
  unfold mirror
  omega

theorem mirror_mirror (hi : i < 8 * n) : mirror n (mirror n i) = i := by
  have hdiv : i / 8 < n := Nat.div_lt_of_lt_mul hi
  have hplace : mirror n i / 8 = n - 1 - i / 8 := by
    unfold mirror
    omega
  have hbit : mirror n i % 8 = i % 8 := by
    unfold mirror
    omega
  rw [mirror, hplace, hbit]
  omega

theorem length_cpyrev (hn : n ≤ tgt.length) (src : List UInt8) :
    (cpyrev n tgt src).length = tgt.length := by
  simp only [cpyrev, List.length_append, List.length_map, List.length_range, List.length_drop]
  omega

theorem bit_cpyrev (n : ℕ) (tgt src : List UInt8) (i : ℕ) :
    bit (cpyrev n tgt src) i = if i < 8 * n then bit src (mirror n i) else bit tgt i := by
  have hlen : ((List.range n).map fun i => src.getD (n - 1 - i) 0).length = n := by
    rw [List.length_map, List.length_range]
  rw [cpyrev]
  by_cases hi : i < 8 * n
  · have hdiv : i / 8 < n := Nat.div_lt_of_lt_mul hi
    have hplace : mirror n i / 8 = n - 1 - i / 8 := by
      unfold mirror
      omega
    have hbit : mirror n i % 8 = i % 8 := by
      unfold mirror
      omega
    rw [if_pos hi, bit_append_left _ (by rwa [hlen]), bit, bit, hplace, hbit]
    simp [hdiv]
  · rw [if_neg hi, bit_append_right _ (by rw [hlen]; exact Nat.not_lt.1 hi), hlen, bit_drop]
    congr 1
    omega

theorem getLsbD_cpyrevInto (tgt : BitVec (8 * k)) (src : List UInt8) (hj : j < 8 * k) :
    (cpyrevInto k n tgt src).getLsbD j =
      if j < 8 * n then bit src (mirror n j) else tgt.getLsbD j := by
  rw [cpyrevInto, getLsbD_load, decide_eq_true hj, Bool.true_and, Nat.mul_zero, Nat.zero_add,
    bit_cpyrev, bit_bytes tgt hj]

/-- What a reversed copy of all bytes of an integer loads. -/
theorem cpyrevInto_self (tgt : BitVec (8 * k)) (src : List UInt8) :
    cpyrevInto k k tgt src = load k (cpyrev k [] src) 0 := by
  refine BitVec.eq_of_getLsbD_eq fun j hj => ?_
  rw [getLsbD_cpyrevInto tgt src hj, getLsbD_load, bit_cpyrev, Nat.mul_zero, Nat.zero_add,
    if_pos hj, if_pos hj, decide_eq_true hj, Bool.true_and]

/-- Only the lowest `n` bytes of an integer are copied. -/
theorem cpyrev_bytes_setWidth {l : ℕ} (tgt : List UInt8) (v : BitVec w) (hk : n ≤ k) (hl : n ≤ l)
    (hm : 8 * n ≤ m) : cpyrev n tgt (bytes k (v.setWidth m)) = cpyrev n tgt (bytes l v) := by
  refine eq_of_bit_eq (by simp [cpyrev]) fun i _ => ?_
  rw [bit_cpyrev, bit_cpyrev]
  by_cases hi : i < 8 * n
  · have hmirror := mirror_lt hi
    rw [if_pos hi, if_pos hi, bit_bytes _ (by omega), bit_bytes _ (by omega),
      BitVec.getLsbD_setWidth, decide_eq_true (lt_of_lt_of_le hmirror hm), Bool.true_and]
  · rw [if_neg hi, if_neg hi]

theorem store_one_eq_cpyrev (v : BitVec w) (hk : 1 ≤ k) (ho : 1 ≤ data.length) :
    store 1 data 0 v = cpyrev 1 data (bytes k v) := by
  refine eq_of_bit_eq ?_ fun i _ => ?_
  · rw [length_store v (by omega), length_cpyrev ho]
  · rw [bit_store v (by omega), bit_cpyrev]
    by_cases hi : i < 8 * 1
    · have hmirror : mirror 1 i = i := by
        unfold mirror
        omega
      rw [if_pos ⟨Nat.zero_le _, hi⟩, if_pos hi, hmirror, bit_bytes v (by omega), Nat.mul_zero,
        Nat.sub_zero]
    · rw [if_neg (fun h => hi h.2), if_neg hi]

theorem load_cpyrev_one (data : List UInt8) : load 1 (cpyrev 1 [] data) 0 = load 1 data 0 := by
  refine BitVec.eq_of_getLsbD_eq fun j hj => ?_
  have hmirror : mirror 1 j = j := by
    unfold mirror
    omega
  rw [getLsbD_load, getLsbD_load, Nat.mul_zero, Nat.zero_add, bit_cpyrev, if_pos hj, hmirror]

theorem cpyrevInto_zero (k n : ℕ) (src : List UInt8) :
    cpyrevInto k n 0 src = (load n (cpyrev n [] src) 0).setWidth (8 * k) := by
  refine BitVec.eq_of_getLsbD_eq fun j hj => ?_
  rw [getLsbD_cpyrevInto 0 src hj, BitVec.getLsbD_setWidth, getLsbD_load, bit_cpyrev, Nat.mul_zero,
    Nat.zero_add, decide_eq_true hj, Bool.true_and]
  by_cases hlow : j < 8 * n
  · rw [if_pos hlow, if_pos hlow, decide_eq_true hlow, Bool.true_and]
  · rw [if_neg hlow, if_neg hlow, decide_eq_false hlow, Bool.false_and]
    exact BitVec.getLsbD_zero

/-- An integer that is stored in reversed order and read so again. -/
theorem load_cpyrev_cpyrev (v : BitVec w) (hn : n ≤ k) (data : List UInt8) :
    load n (cpyrev n [] (cpyrev n data (bytes k v))) 0 = v.setWidth (8 * n) := by
  refine BitVec.eq_of_getLsbD_eq fun j hj => ?_
  rw [getLsbD_load, Nat.mul_zero, Nat.zero_add, bit_cpyrev, if_pos hj, bit_cpyrev,
    if_pos (mirror_lt hj), mirror_mirror hj, bit_bytes v (by omega), BitVec.getLsbD_setWidth]

/-! ### Extensions -/

theorem getLsbD_signExtend_load (hk : 0 < k) (data : List UInt8) (o j : ℕ) :
    ((load k data o).signExtend w).getLsbD j =
      (decide (j < w) && bit data (8 * o + min j (8 * k - 1))) := by
  rw [BitVec.getLsbD_signExtend, BitVec.msb_eq_getLsbD_last, getLsbD_load, getLsbD_load]
  by_cases hj : j < 8 * k
  · rw [if_pos hj, Nat.min_eq_left (Nat.le_sub_one_of_lt hj), decide_eq_true hj, Bool.true_and]
  · rw [if_neg hj, Nat.min_eq_right (by omega), decide_eq_true (show 8 * k - 1 < 8 * k by omega),
      Bool.true_and]

/-- A signed integer above an unsigned one. -/
theorem shiftLeft_signExtend_or_load (hm : 0 < m) (data : List UInt8) (o w : ℕ) :
    (load m data (o + k)).signExtend w <<< (8 * k) ||| (load k data o).setWidth w =
      (load (k + m) data o).signExtend w := by
  refine BitVec.eq_of_getLsbD_eq fun j hj => ?_
  rw [BitVec.getLsbD_or, BitVec.getLsbD_shiftLeft, getLsbD_signExtend_load hm,
    getLsbD_signExtend_load (by omega), BitVec.getLsbD_setWidth, getLsbD_load]
  by_cases hlow : j < 8 * k
  · have hmin : min j (8 * (k + m) - 1) = j := by omega
    simp [hj, hlow, hmin]
  · have hmin : 8 * (o + k) + min (j - 8 * k) (8 * m - 1) = 8 * o + min j (8 * (k + m) - 1) := by
      omega
    have hsub : j - 8 * k < w := by omega
    simp [hj, hlow, hmin, hsub]

theorem shiftLeft_or_load (data : List UInt8) (o w : ℕ) :
    (load m data (o + k)).setWidth w <<< (8 * k) ||| (load k data o).setWidth w =
      (load (k + m) data o).setWidth w := by
  refine BitVec.eq_of_getLsbD_eq fun j hj => ?_
  simp only [BitVec.getLsbD_or, BitVec.getLsbD_shiftLeft, BitVec.getLsbD_setWidth, getLsbD_load]
  by_cases hlow : j < 8 * k
  · have hlt : j < 8 * (k + m) := by omega
    simp [hj, hlow, hlt]
  · have hadd : 8 * (o + k) + (j - 8 * k) = 8 * o + j := by omega
    have hlt : j - 8 * k < 8 * m ↔ j < 8 * (k + m) := by omega
    have hsub : j - 8 * k < w := by omega
    simp [hj, hlow, hadd, hlt, hsub]

/-- The first byte shifted above the others, and the others copied below it. -/
theorem cpyrevInto_signExtend (k n : ℕ) (data : List UInt8) :
    cpyrevInto k n ((load 1 data 0).signExtend (8 * k) <<< (8 * n)) (data.drop 1) =
      (load (n + 1) (cpyrev (n + 1) [] data) 0).signExtend (8 * k) := by
  refine BitVec.eq_of_getLsbD_eq fun j hj => ?_
  have hmin : 8 * 0 + min j (8 * (n + 1) - 1) < 8 * (n + 1) := by omega
  rw [getLsbD_cpyrevInto _ _ hj, getLsbD_signExtend_load (Nat.succ_pos n), bit_cpyrev,
    BitVec.getLsbD_shiftLeft, getLsbD_signExtend_load Nat.one_pos, bit_drop, if_pos hmin,
    Nat.mul_zero, Nat.zero_add]
  by_cases hlow : j < 8 * n
  · have hj' : min j (8 * (n + 1) - 1) = j := by omega
    have hmirror : 8 * 1 + mirror n j = mirror (n + 1) j := by
      have hdiv : j / 8 < n := Nat.div_lt_of_lt_mul hlow
      unfold mirror
      omega
    rw [if_pos hlow, hj', Nat.zero_add, hmirror, decide_eq_true hj, Bool.true_and]
  · have hmirror : mirror (n + 1) (min j (8 * (n + 1) - 1)) = min (j - 8 * n) 7 := by
      unfold mirror
      omega
    have hsub : j - 8 * n < 8 * k := by omega
    simp [hj, hlow, hmirror, hsub]

theorem cpyrevInto_setWidth (k n : ℕ) (data : List UInt8) :
    cpyrevInto k n ((load 1 data 0).setWidth (8 * k) <<< (8 * n)) (data.drop 1) =
      (load (n + 1) (cpyrev (n + 1) [] data) 0).setWidth (8 * k) := by
  refine BitVec.eq_of_getLsbD_eq fun j hj => ?_
  rw [getLsbD_cpyrevInto _ _ hj, BitVec.getLsbD_setWidth, getLsbD_load, bit_cpyrev,
    BitVec.getLsbD_shiftLeft, BitVec.getLsbD_setWidth, getLsbD_load, bit_drop,
    decide_eq_true hj, Bool.true_and, Bool.true_and]
  by_cases hlow : j < 8 * n
  · have hmirror : 8 * 1 + mirror n j = mirror (n + 1) j := by
      have hdiv : j / 8 < n := Nat.div_lt_of_lt_mul hlow
      unfold mirror
      omega
    have hlt : j < 8 * (n + 1) := by omega
    simp [hlow, hlt, ← hmirror]
  · have hsub : j - 8 * n < 8 * k := by omega
    by_cases hhigh : j < 8 * (n + 1)
    · have hmirror : mirror (n + 1) j = j - 8 * n := by
        unfold mirror
        omega
      have hbyte : j - 8 * n < 8 := by omega
      simp [hlow, hsub, hhigh, hmirror, hbyte]
    · have hbyte : ¬ j - 8 * n < 8 := by omega
      simp [hlow, hhigh, hbyte]

theorem signExtend_signExtend {x : BitVec m} {v : ℕ} (hw : m ≤ w) (hv : w ≤ v) :
    (x.signExtend w).signExtend v = x.signExtend v := by
  refine BitVec.eq_of_toInt_eq ?_
  rw [BitVec.toInt_signExtend_of_le hv, BitVec.toInt_signExtend_of_le hw,
    BitVec.toInt_signExtend_of_le (hw.trans hv)]

/-- An integer that has been widened without its sign has none. -/
theorem signExtend_setWidth {x : BitVec m} {v : ℕ} (hw : m < w) :
    (x.setWidth w).signExtend v = x.setWidth v := by
  have hmsb : (x.setWidth w).msb = false := by
    rw [BitVec.msb_eq_getLsbD_last, BitVec.getLsbD_setWidth,
      BitVec.getLsbD_of_ge x (w - 1) (Nat.le_sub_one_of_lt hw), Bool.and_false]
  rw [BitVec.signExtend_eq_setWidth_of_msb_false hmsb,
    BitVec.setWidth_setWidth (fun h => absurd h.1 (Nat.not_lt.2 hw.le))]

/-- Both extensions agree on the integers that are not negative. -/
theorem setWidth_eq_signExtend_iff {x : BitVec m} (hm : m < w) :
    x.setWidth w = x.signExtend w ↔ x.msb = false := by
  constructor
  · intro h
    have hbit : (x.setWidth w).getLsbD m = (x.signExtend w).getLsbD m := by rw [h]
    rw [BitVec.getLsbD_setWidth, BitVec.getLsbD_signExtend, if_neg (Nat.lt_irrefl m),
      BitVec.getLsbD_of_ge x m le_rfl, decide_eq_true hm, Bool.true_and, Bool.true_and] at hbit
    exact hbit.symm
  · exact fun h => (BitVec.signExtend_eq_setWidth_of_msb_false h).symm

end LittleEndian
