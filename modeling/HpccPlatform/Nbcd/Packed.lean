import HpccPlatform.Library.Nibbles
import HpccPlatform.Nbcd.Reading

/-!
# Packed decimals

`getDecimal` and `getUDecimal` write the digits of a number to a buffer, two digits in each byte and
the sign in the last half byte if there is one.  `setDecimal` and `setUDecimal` read them back.
-/

namespace Nbcd

open DigitWindow Nibbles

/-- The sign that a half byte stands for. -/
def signMap (sign : ℕ) : ℤ := [0, 0, 0, 0, 0, 0, 0, 0, 0, 0, 1, -1, 1, -1, 1, 1].getD sign 0

namespace Decimal

/-! ### Reading -/

/-- `while (msb > maxDigits) { msb -= 2; idx++; }`, with `n` steps at most. -/
def dropTop : ℕ → ℕ → ℕ → ℕ × ℕ
  | 0, msb, idx => (msb, idx)
  | n + 1, msb, idx => if 64 < msb then dropTop n (msb - 2) (idx + 1) else (msb, idx)

def setDecimal (d : Decimal) (length precision : ℕ) (buffer : List UInt8) : Decimal :=
  let lsb := byteOf (32 - precision)
  let (msb, idx) := dropTop 256 (byteOf (lsb + length * 2 - 2)) 0
  let next := buffer.getD (max (if msb = 64 then idx + 1 else idx) (length - 1)) 0
  if msb = 64 then
    let digits := Function.update d.digits 63 (low (buffer.getD idx 0))
    let bytes := (buffer.drop (idx + 1)).take (length - 1 - (idx + 1))
    { digits := Function.update (storeBytes digits 62 bytes) (62 - 2 * bytes.length) (high next)
      msb := 63
      lsb := lsb
      negative := signMap (low next) = -1 }
  else
    let bytes := (buffer.drop idx).take (length - 1 - idx)
    { digits := Function.update (storeBytes d.digits msb bytes) (msb - 2 * bytes.length) (high next)
      msb := msb
      lsb := lsb
      negative := signMap (low next) = -1 }

def setUDecimal (d : Decimal) (length precision : ℕ) (buffer : List UInt8) : Decimal :=
  let lsb := byteOf (32 - precision)
  let msb := byteOf (lsb + length * 2 - 1)
  { digits := storeBytes d.digits msb (buffer.take length)
    msb := msb
    lsb := lsb
    negative := false }

/-! ### Writing -/

/-- `clip` with bounds for the digits. -/
def clipBetween (d : Decimal) (minLsb maxMsb : ℤ) : ℤ × ℤ :=
  let newLsb := if (d.clipLsb : ℤ) < minLsb then minLsb else d.clipLsb
  let newMsb := if maxMsb < d.clipMsb then maxMsb else d.clipMsb
  (newLsb, if newMsb < newLsb then newLsb - 1 else newMsb)

/-- The loops over the bytes are told by how often they go round. -/
def doGetDecimal (d : Decimal) (length maxDigits precision : ℕ) : List UInt8 :=
  let tgtHighPos : ℤ := 32 + maxDigits - precision - 1
  let tgtLowPos := tgtHighPos - length * 2 + 1
  let (lowPos, highPos) := d.clipBetween (32 - precision) (32 + maxDigits - precision - 1)
  if highPos < lowPos ∨ tgtHighPos < highPos then List.replicate length 0
  else
    let copyHighPos :=
      if highPos < tgtLowPos then tgtLowPos
      else if tgtHighPos < highPos then tgtHighPos
      else highPos
    let copyLowPos := if lowPos < tgtLowPos then tgtLowPos else lowPos
    let digits := fun i : ℤ => d.digits i.toNat
    -- first pad with zeros
    let zeros := (tgtHighPos - copyHighPos).toNat
    let odd := if zeros % 2 ≠ 0 then [UInt8.ofNat (digits copyHighPos)] else []
    let pairsPos := if zeros % 2 ≠ 0 then copyHighPos - 1 else copyHighPos
    -- now the pairs of digits
    let pairs := ((pairsPos - copyLowPos + 1) / 2).toNat
    let lastPos := pairsPos - 2 * pairs
    let last := if copyLowPos = lastPos then [UInt8.ofNat (digits copyLowPos) <<< 4] else []
    let restPos := if copyLowPos = lastPos then copyLowPos - 2 else copyLowPos
    List.replicate (zeros / 2) 0 ++ odd ++ packFrom digits pairs pairsPos ++ last ++
      List.replicate ((restPos - tgtLowPos + 1) / 2).toNat 0

/-- The sign is put into the last byte. -/
def getDecimal (d : Decimal) (length precision signs : ℕ) : List UInt8 :=
  let sign := UInt8.ofNat (if d.negative then signs % 16 else signs / 16)
  (d.doGetDecimal length (2 * length - 1) precision).modify (length - 1) (· ||| sign)

def getUDecimal (d : Decimal) (length precision : ℕ) : List UInt8 :=
  d.doGetDecimal length (2 * length) precision

variable {d e : Decimal}

/-! ### The digits of a number -/

/-- The digit at a place, 0 outside of the range. -/
def place (d : Decimal) (i : ℤ) : ℕ :=
  if (d.lsb : ℤ) ≤ i ∧ i ≤ d.msb then d.digits i.toNat else 0

theorem place_le (hd : d.Proper) (i : ℤ) : d.place i ≤ 9 := by
  unfold place
  split
  · rename_i h
    exact hd i.toNat (by omega) (by omega)
  · exact Nat.zero_le 9

theorem place_eq_zero {i : ℤ} (hi : i < d.clipLsb ∨ d.clipMsb < i) : d.place i = 0 := by
  unfold place
  split
  · rename_i h
    obtain ⟨_, _, hbelow, _⟩ := skipUp_spec d.digits (d.msb - d.lsb) d.lsb
    obtain ⟨_, _, habove, _⟩ :=
      skipDown_spec d.digits (d.msb + 1 - d.clipLsb) (d.msb + 1) (Nat.sub_le _ _)
    change ∀ i, d.lsb ≤ i → i < d.clipLsb → _ at hbelow
    change ∀ i, d.clipTop ≤ i → _ at habove
    unfold clipMsb at hi
    rcases hi with hlt | hgt
    · exact hbelow i.toNat (by omega) (by omega)
    · exact habove i.toNat (by omega) (by omega)
  · rfl

theorem place_of_mem (hd : d.lsb ≤ d.msb + 1) {i : ℤ} (hlo : d.clipLsb ≤ i) (hhi : i ≤ d.clipMsb) :
    d.place i = d.digits i.toNat := by
  have hclip := clipped hd
  have hlsb := hclip.lsb_le
  have htop := hclip.top_le
  unfold clipMsb at hhi
  exact if_pos ⟨by omega, by omega⟩

/-- The digits of the places from `lo` to below `hi` only. -/
def window (d : Decimal) (lo hi : ℕ) : ℕ := value 10 (fun i => d.place i) lo hi

/-! ### What is written -/

theorem ofNat_eq_pack {n : ℕ} (hn : n < 16) : UInt8.ofNat n = pack 0 n := by
  have hall : ∀ n : Fin 16, UInt8.ofNat n = pack 0 n := by decide
  exact hall ⟨n, hn⟩

theorem shiftLeft_eq_pack {n : ℕ} (hn : n < 16) : UInt8.ofNat n <<< 4 = pack n 0 := by
  have hall : ∀ n : Fin 16, UInt8.ofNat n <<< 4 = pack n 0 := by decide
  exact hall ⟨n, hn⟩

theorem replicate_eq_packFrom {digits : ℤ → ℕ} {n : ℕ} {top : ℤ}
    (h : ∀ i, top - 2 * n < i → i ≤ top → digits i = 0) :
    List.replicate n 0 = packFrom digits n top := by
  rw [packFrom_congr h]
  clear h
  induction n generalizing top with
  | zero => rfl
  | succ n ih => rw [packFrom, List.replicate_succ, ih]; rfl

section Write

/-- The digits from `low` to `high` only. -/
def between (digits : ℤ → ℕ) (low high i : ℤ) : ℕ := if low ≤ i ∧ i ≤ high then digits i else 0

variable {digits : ℤ → ℕ} {low high top bottom : ℤ} {length n : ℕ}

theorem replicate_eq_between (h : top < low ∨ high ≤ top - 2 * n) :
    List.replicate n (0 : UInt8) = packFrom (between digits low high) n top :=
  replicate_eq_packFrom fun i _ _ => if_neg (by omega)

/-- The pairs, the last digit and the zeros below. -/
theorem write_pairs (hlow : bottom ≤ low) (hle : low ≤ top + 1) (htop : top ≤ high)
    (hlength : top - bottom + 1 = 2 * length)
    (hdigits : ∀ i, low ≤ i → i ≤ high → digits i < 16) {pairs : ℕ}
    (hpairs : ((top - low + 1) / 2).toNat = pairs) :
    packFrom digits pairs top ++
        ((if low = top - 2 * pairs then [UInt8.ofNat (digits low) <<< 4] else []) ++
          List.replicate
            (((if low = top - 2 * pairs then low - 2 else low) - bottom + 1) / 2).toNat 0) =
      packFrom (between digits low high) length top := by
  have hcopied : packFrom digits pairs top = packFrom (between digits low high) pairs top :=
    packFrom_congr fun i hlo hhi => (if_pos ⟨by omega, by omega⟩).symm
  rw [hcopied]
  by_cases hlast : low = top - 2 * pairs
  · have hdigit : [UInt8.ofNat (digits low) <<< 4] = packFrom (between digits low high) 1 low := by
      have hin : between digits low high low = digits low := if_pos ⟨le_rfl, by omega⟩
      have hbelow : between digits low high (low - 1) = 0 := if_neg (by omega)
      rw [packFrom, packFrom, hin, hbelow, shiftLeft_eq_pack (hdigits low le_rfl (by omega))]
    have hrest : length = pairs + (1 + ((low - 2 - bottom + 1) / 2).toNat) := by omega
    have hzeros : List.replicate ((low - 2 - bottom + 1) / 2).toNat (0 : UInt8) =
        packFrom (between digits low high) ((low - 2 - bottom + 1) / 2).toNat (low - 2 * (1 : ℕ)) :=
      replicate_eq_between (Or.inl (by omega))
    rw [if_pos hlast, if_pos hlast, hrest, packFrom_add, packFrom_add, ← hlast, hdigit, hzeros]
  · have hrest : length = pairs + ((low - bottom + 1) / 2).toNat := by omega
    have hzeros : List.replicate ((low - bottom + 1) / 2).toNat (0 : UInt8) =
        packFrom (between digits low high) ((low - bottom + 1) / 2).toNat (top - 2 * pairs) :=
      replicate_eq_between (Or.inl (by omega))
    rw [if_neg hlast, if_neg hlast, hrest, packFrom_add, List.nil_append, hzeros]

/-- The digits between `low` and `high` with zeros around them, in an even number of half bytes. -/
theorem write_eq_packFrom (hlow : bottom ≤ low) (hle : low ≤ high) (hhigh : high ≤ top)
    (hlength : top - bottom + 1 = 2 * length)
    (hdigits : ∀ i, low ≤ i → i ≤ high → digits i < 16) :
    (let zeros := (top - high).toNat
    let odd := if zeros % 2 ≠ 0 then [UInt8.ofNat (digits high)] else []
    let pairsPos := if zeros % 2 ≠ 0 then high - 1 else high
    let pairs := ((pairsPos - low + 1) / 2).toNat
    let lastPos := pairsPos - 2 * pairs
    let last := if low = lastPos then [UInt8.ofNat (digits low) <<< 4] else []
    let restPos := if low = lastPos then low - 2 else low
    List.replicate (zeros / 2) 0 ++ odd ++ packFrom digits pairs pairsPos ++ last ++
      List.replicate ((restPos - bottom + 1) / 2).toNat 0) =
      packFrom (between digits low high) length top := by
  dsimp only
  generalize hzeros : (top - high).toNat = zeros
  have hpadding : List.replicate (zeros / 2) (0 : UInt8) =
      packFrom (between digits low high) (zeros / 2) top :=
    replicate_eq_between (Or.inr (by omega))
  rw [hpadding]
  by_cases hodd : zeros % 2 ≠ 0
  · have hdigit : [UInt8.ofNat (digits high)] =
        packFrom (between digits low high) 1 (top - 2 * (zeros / 2 : ℕ)) := by
      have hhigh : top - 2 * ((zeros / 2 : ℕ) : ℤ) - 1 = high := by omega
      have hin : between digits low high high = digits high := if_pos ⟨hle, le_rfl⟩
      have habove : between digits low high (top - 2 * (zeros / 2 : ℕ)) = 0 := if_neg (by omega)
      rw [packFrom, packFrom, hhigh, hin, habove, ofNat_eq_pack (hdigits high hle le_rfl)]
    obtain ⟨rest, hrest⟩ : ∃ rest, length = zeros / 2 + (1 + rest) := ⟨length - (zeros / 2 + 1), by omega⟩
    have hpairsPos : top - 2 * ((zeros / 2 : ℕ) : ℤ) - 2 * (1 : ℕ) = high - 1 := by omega
    simp only [if_pos hodd]
    have hwrite := @write_pairs digits low high _ bottom rest hlow
      (by omega : low ≤ high - 1 + 1) (by omega) (by omega) hdigits _ rfl
    rw [hrest, packFrom_add, packFrom_add, hdigit, hpairsPos, ← hwrite]
    simp only [List.append_assoc]
  · obtain ⟨rest, hrest⟩ : ∃ rest, length = zeros / 2 + rest := ⟨length - zeros / 2, by omega⟩
    have hpairsPos : top - 2 * ((zeros / 2 : ℕ) : ℤ) = high := by omega
    simp only [if_neg hodd]
    have hwrite := @write_pairs digits low high _ bottom rest hlow
      (by omega : low ≤ high + 1) le_rfl (by omega) hdigits _ rfl
    rw [hrest, packFrom_add, hpairsPos, ← hwrite]
    simp only [List.append_assoc, List.nil_append]

end Write

theorem place_between {low high minLsb maxMsb : ℤ} (hd : d.lsb ≤ d.msb + 1)
    (hlow : (if (d.clipLsb : ℤ) < minLsb then minLsb else d.clipLsb) = low)
    (hhigh : (if maxMsb < d.clipMsb then maxMsb else d.clipMsb) = high) :
    between d.place minLsb maxMsb = between (fun i => d.digits i.toNat) low high := by
  funext i
  unfold between
  by_cases hin : low ≤ i ∧ i ≤ high
  · have hwindow : minLsb ≤ i ∧ i ≤ maxMsb := by
      constructor
      · split at hlow <;> omega
      · split at hhigh <;> omega
    have hclip : (d.clipLsb : ℤ) ≤ i ∧ i ≤ d.clipMsb := by
      constructor
      · split at hlow <;> omega
      · split at hhigh <;> omega
    rw [if_pos hin, if_pos hwindow, place_of_mem hd hclip.1 hclip.2]
  · rw [if_neg hin]
    split_ifs with hwindow
    · refine place_eq_zero ?_
      split at hlow <;> split at hhigh <;> omega
    · rfl

theorem doGetDecimal_eq (hd : d.WellFormed) {length maxDigits precision : ℕ}
    (hmax : maxDigits ≤ 2 * length) (hmax' : 2 * length ≤ maxDigits + 1) :
    d.doGetDecimal length maxDigits precision =
      packFrom (between d.place (32 - precision) (32 + maxDigits - precision - 1)) length
        (32 + maxDigits - precision - 1) := by
  have hclip := clipped hd.lsb_le
  have hlsb := hclip.lsb_le
  have htop := hclip.top_le
  have hmsb : d.clipMsb = d.clipTop - 1 := rfl
  unfold doGetDecimal clipBetween
  dsimp only
  generalize hlow : (if (d.clipLsb : ℤ) < 32 - precision then 32 - (precision : ℤ) else d.clipLsb) =
    low
  generalize hhigh : (if 32 + (maxDigits : ℤ) - precision - 1 < d.clipMsb
    then 32 + (maxDigits : ℤ) - precision - 1 else d.clipMsb) = high
  rw [place_between hd.lsb_le hlow hhigh]
  have hbottom : 32 - (precision : ℤ) ≤ low := by split at hlow <;> omega
  have hlow' : (d.clipLsb : ℤ) ≤ low := by split at hlow <;> omega
  have hlimit : high ≤ 32 + (maxDigits : ℤ) - precision - 1 := by split at hhigh <;> omega
  have hhigh' : high ≤ d.clipMsb := by split at hhigh <;> omega
  by_cases hempty : high < low
  · rw [if_pos hempty, if_pos (Or.inl (by omega))]
    exact replicate_eq_packFrom fun i _ _ => if_neg (by omega)
  · have hdigits : ∀ i, low ≤ i → i ≤ high → d.digits i.toNat < 16 := fun i hlo hhi => by
      have hdigit := hd.digit i.toNat (by omega) (by omega)
      omega
    have hfits : ¬ (high < low ∨ 32 + (maxDigits : ℤ) - precision - 1 < high) := by omega
    have hcopyHigh : ¬ high < 32 + (maxDigits : ℤ) - precision - 1 - length * 2 + 1 := by omega
    have hcopyLow : ¬ low < 32 + (maxDigits : ℤ) - precision - 1 - length * 2 + 1 := by omega
    rw [if_neg hempty, if_neg hfits, if_neg hcopyHigh, if_neg (not_lt.2 hlimit), if_neg hcopyLow]
    exact write_eq_packFrom (by omega) (by omega) hlimit (by omega) hdigits

/-! ### What is read back -/

theorem setDecimal_spec (d : Decimal) {length precision : ℕ} {buffer : List UInt8}
    (hlength : buffer.length = length) (hpos : 1 ≤ length) (hprecision : precision ≤ 32) (hfits : 2 * length ≤ precision + 34) :
    (d.setDecimal length precision buffer).lsb = 32 - precision ∧
      (d.setDecimal length precision buffer).msb = min 63 (2 * length + 30 - precision) ∧
      ((d.setDecimal length precision buffer).negative = true ↔
        signMap (nibble buffer (2 * length - 1)) = -1) ∧
      ∀ i, 32 - precision ≤ i → i ≤ min 63 (2 * length + 30 - precision) →
        (d.setDecimal length precision buffer).digits i =
          nibble buffer (2 * length + 30 - precision - i) := by
  have hlsb : byteOf (32 - precision) = 32 - precision := by
    unfold byteOf
    omega
  have hmsb : byteOf ((32 - precision : ℕ) + length * 2 - 2) = 2 * length + 30 - precision := by
    unfold byteOf
    omega
  have hdrop : dropTop 256 (2 * length + 30 - precision) 0 = (2 * length + 30 - precision, 0) := by
    rw [dropTop, if_neg (by omega)]
  unfold setDecimal
  dsimp only
  rw [hlsb, hmsb, hdrop]
  dsimp only
  have hnegative : low (buffer.getD (length - 1) 0) = nibble buffer (2 * length - 1) := by
    unfold nibble
    rw [if_neg (by omega), show (2 * length - 1) / 2 = length - 1 by omega]
  have hlast : high (buffer.getD (length - 1) 0) = nibble buffer (2 * length - 2) := by
    unfold nibble
    rw [if_pos (by omega), show (2 * length - 2) / 2 = length - 1 by omega]
  by_cases hfull : 2 * length + 30 - precision = 64
  · have hnext : max (0 + 1) (length - 1) = length - 1 := by omega
    have hbytes : ((buffer.drop (0 + 1)).take (length - 1 - (0 + 1))).length = length - 2 := by
      rw [List.length_take, List.length_drop, hlength]
      omega
    rw [if_pos hfull, if_pos hfull, hnext]
    dsimp only
    rw [hnegative, hlast, hbytes]
    refine ⟨rfl, by omega, decide_eq_true_iff, fun i hlo hhi => ?_⟩
    by_cases hend : i = 62 - 2 * (length - 2)
    · rw [hend, Function.update_self]
      congr 1
      omega
    · rw [Function.update_of_ne hend]
      by_cases hfirst : i = 63
      · rw [hfirst, storeBytes_above (by decide), Function.update_self, hfull]
        rfl
      · have hplace : i = 62 - (62 - i) := by omega
        conv_lhs => rw [hplace]
        rw [storeBytes_inside (by omega) (by omega), nibble_take (by omega), nibble_drop]
        congr 1
        omega
  · have hnext : max 0 (length - 1) = length - 1 := by omega
    have hbytes : ((buffer.drop 0).take (length - 1 - 0)).length = length - 1 := by
      rw [List.length_take, List.length_drop, hlength]
      omega
    rw [if_neg hfull, if_neg hfull, hnext]
    dsimp only
    rw [hnegative, hlast, hbytes]
    refine ⟨rfl, by omega, decide_eq_true_iff, fun i hlo hhi => ?_⟩
    by_cases hend : i = 2 * length + 30 - precision - 2 * (length - 1)
    · rw [hend, Function.update_self]
      congr 1
      omega
    · rw [Function.update_of_ne hend]
      have hplace : i = 2 * length + 30 - precision - (2 * length + 30 - precision - i) := by omega
      conv_lhs => rw [hplace]
      rw [storeBytes_inside (by omega) (by omega), nibble_take (by omega), nibble_drop]
      congr 1

theorem setUDecimal_spec (d : Decimal) {length precision : ℕ} {buffer : List UInt8}
    (hlength : buffer.length = length) (hpos : 1 ≤ length) (hle : length ≤ 16)
    (hprecision : precision ≤ 32) :
    (d.setUDecimal length precision buffer).lsb = 32 - precision ∧
      (d.setUDecimal length precision buffer).msb = 2 * length + 31 - precision ∧
      (d.setUDecimal length precision buffer).negative = false ∧
      ∀ i, 32 - precision ≤ i → i ≤ 2 * length + 31 - precision →
        (d.setUDecimal length precision buffer).digits i =
          nibble buffer (2 * length + 31 - precision - i) := by
  have hlsb : byteOf (32 - precision) = 32 - precision := by
    unfold byteOf
    omega
  have hmsb : byteOf ((32 - precision : ℕ) + length * 2 - 1) = 2 * length + 31 - precision := by
    unfold byteOf
    omega
  unfold setUDecimal
  dsimp only
  rw [hlsb, hmsb]
  refine ⟨rfl, rfl, rfl, fun i hlo hhi => ?_⟩
  have hplace : i = 2 * length + 31 - precision - (2 * length + 31 - precision - i) := by omega
  have hbytes : (buffer.take length).length = length := by
    rw [List.length_take, hlength, Nat.min_self]
  conv_lhs => rw [hplace]
  rw [storeBytes_inside (by omega) (by omega), nibble_take (by omega)]

/-! ### The number that is kept -/

theorem between_lt (hd : d.Proper) (low high i : ℤ) : between d.place low high i < 16 := by
  unfold between
  split
  · exact Nat.lt_of_le_of_lt (place_le hd i) (by decide)
  · decide

theorem window_eq_magnitude {lo hi : ℕ}
    (hin : ∀ i, d.lsb ≤ i → i ≤ d.msb → d.digits i ≠ 0 → lo ≤ i ∧ i < hi) :
    d.window lo hi = d.magnitude := by
  have hplace : ∀ i : ℕ, d.lsb ≤ i → i < d.msb + 1 → d.place i = d.digits i := fun i h h' =>
    if_pos ⟨by omega, by omega⟩
  have houtside : ∀ i : ℕ, i < d.lsb ∨ d.msb + 1 ≤ i → d.place i = 0 := fun i h =>
    if_neg (by omega)
  have hall : value 10 (fun i => d.place i) 0 (max hi (d.msb + 1)) = d.window lo hi := by
    refine value_widen (Nat.zero_le lo) (le_max_left _ _) fun i _ _ hout => ?_
    by_contra hne
    have hrange : d.lsb ≤ i ∧ i < d.msb + 1 := by
      by_contra hnot
      exact hne (houtside i (by omega))
    rw [hplace i hrange.1 hrange.2] at hne
    have := hin i hrange.1 (by omega) hne
    omega
  rw [← hall, magnitude, ← value_congr hplace]
  exact value_widen (Nat.zero_le _) (le_max_right _ _) fun i _ _ hout => houtside i hout

/-- A number whose digits are those of `d` in a window. -/
theorem magnitude_of_window {r : Decimal} {lo hi : ℕ} (hlsb : r.lsb = lo) (hmsb : r.msb + 1 ≤ hi)
    (hdigits : ∀ i, lo ≤ i → i ≤ r.msb → r.digits i = d.place i)
    (habove : ∀ i, r.msb < i → i < hi → d.place i = 0) :
    r.magnitude = d.window lo hi := by
  have hcongr : r.magnitude = value 10 (fun i => d.place i) lo (r.msb + 1) := by
    rw [magnitude, hlsb]
    exact value_congr fun i h h' => hdigits i h (Nat.le_of_lt_succ h')
  rw [hcongr, window]
  exact (value_widen le_rfl hmsb fun i h h' hout => habove i (by omega) h').symm

theorem place_above (hd : d.WellFormed) {i : ℕ} (hi : 63 < i) : d.place i = 0 := by
  have := hd.msb_le
  exact if_neg (by omega)

/-- Numbers with the same digits and the same sign are equal to `compare`. -/
theorem compare_eq_zero_of_magnitude {r : Decimal} (hr : r.Proper) (hd : d.WellFormed)
    (hmagnitude : r.magnitude = d.magnitude)
    (hsign : d.magnitude ≠ 0 → r.negative = d.negative) : r.compare d = 0 := by
  have hval : r.val = d.val := by
    rcases eq_or_ne d.magnitude 0 with hzero | hne
    · rw [val_eq_zero_iff.2 hzero, val_eq_zero_iff.2 (hmagnitude.trans hzero)]
    · rw [val_eq, val_eq, hmagnitude, hsign hne]
  rw [compare_eq hr hd.proper, if_neg (not_lt.2 hval.ge), if_pos hval]

section Signed

variable {length precision : ℕ}

theorem getDecimal_eq (hd : d.WellFormed) (hpos : 1 ≤ length) :
    d.getDecimal length precision 0xFD =
      packFrom (Function.update (between d.place (32 - precision) (2 * length + 30 - precision))
        (31 - precision) (if d.negative then 0xD else 0xF)) length (2 * length + 30 - precision) := by
  obtain ⟨n, rfl⟩ := Nat.exists_eq_add_of_le' hpos
  have htop : 32 + ((2 * (n + 1) - 1 : ℕ) : ℤ) - precision - 1 = 2 * (n + 1 : ℕ) + 30 - precision := by
    omega
  have hsignPlace : 2 * ((n + 1 : ℕ) : ℤ) + 30 - precision - 2 * n - 1 = 31 - precision := by
    omega
  have hsign : (if d.negative then 0xFD % 16 else 0xFD / 16) = if d.negative then 0xD else 0xF := rfl
  have hzero : between d.place (32 - precision) (2 * (n + 1 : ℕ) + 30 - precision)
      (2 * (n + 1 : ℕ) + 30 - precision - 2 * n - 1) = 0 := if_neg (by omega)
  have hlt : (if d.negative then 0xD else 0xF) < 16 := by
    cases d.negative <;> decide
  unfold getDecimal
  dsimp only
  rw [doGetDecimal_eq hd (by omega) (by omega), htop, Nat.add_sub_cancel, hsign,
    packFrom_modify hlt (between_lt hd.proper _ _) hzero, hsignPlace]

/-- A signed number that has been stored. -/
theorem setDecimal_getDecimal (e : Decimal) (hd : d.WellFormed) (hpos : 1 ≤ length)
    (hle : length ≤ 17) (hprecision : precision ≤ 32) :
    (d.getDecimal length precision 0xFD).length = length ∧
      (e.setDecimal length precision (d.getDecimal length precision 0xFD)).Proper ∧
      (e.setDecimal length precision (d.getDecimal length precision 0xFD)).negative = d.negative ∧
      (e.setDecimal length precision (d.getDecimal length precision 0xFD)).magnitude =
        d.window (32 - precision) (32 - precision + (2 * length - 1)) := by
  have hbuffer := @getDecimal_eq d length precision hd hpos
  have hlength : (d.getDecimal length precision 0xFD).length = length := by
    rw [hbuffer, length_packFrom]
  obtain ⟨hlsb, hmsb, hnegative, hdigits⟩ :=
    setDecimal_spec e hlength hpos hprecision (by omega)
  generalize e.setDecimal length precision (d.getDecimal length precision 0xFD) = r at *
  have hlt : ∀ i, Function.update (between d.place (32 - precision) (2 * length + 30 - precision))
      (31 - precision) (if d.negative then 0xD else 0xF) i < 16 := by
    intro i
    rcases eq_or_ne i (31 - precision) with rfl | hne
    · rw [Function.update_self]
      cases d.negative <;> decide
    · rw [Function.update_of_ne hne]
      exact between_lt hd.proper _ _ i
  have hnibble : ∀ j, j < 2 * length → nibble (d.getDecimal length precision 0xFD) j =
      Function.update (between d.place (32 - precision) (2 * length + 30 - precision))
        (31 - precision) (if d.negative then 0xD else 0xF) (2 * length + 30 - precision - j) :=
    fun j hj => by rw [hbuffer, nibble_packFrom hlt hj]
  have hplaces : ∀ i, 32 - precision ≤ i → i ≤ min 63 (2 * length + 30 - precision) →
      r.digits i = d.place i := by
    intro i hlo hhi
    have hi : 2 * (length : ℤ) + 30 - precision - (2 * length + 30 - precision - i : ℕ) = i := by
      omega
    rw [hdigits i hlo hhi, hnibble _ (by omega), hi, Function.update_of_ne (by omega)]
    exact if_pos ⟨by omega, by omega⟩
  refine ⟨hlength, fun i hlo hhi => ?_, ?_, ?_⟩
  · rw [hlsb] at hlo
    rw [hmsb] at hhi
    rw [hplaces i hlo hhi]
    exact place_le hd.proper i
  · have hplace : 2 * (length : ℤ) + 30 - precision - (2 * length - 1 : ℕ) = 31 - precision := by
      omega
    rw [hnibble _ (by omega), hplace, Function.update_self] at hnegative
    rw [Bool.eq_iff_iff, hnegative]
    cases d.negative <;> decide
  · refine magnitude_of_window hlsb (by omega) (fun i hlo hhi => hplaces i hlo (hmsb ▸ hhi)) ?_
    intro i hhi hhi'
    exact place_above hd (by omega)

/-- An unsigned number that has been stored. -/
theorem setUDecimal_getUDecimal (e : Decimal) (hd : d.WellFormed) (hpos : 1 ≤ length)
    (hle : length ≤ 16) (hprecision : precision ≤ 32) :
    (d.getUDecimal length precision).length = length ∧
      (e.setUDecimal length precision (d.getUDecimal length precision)).Proper ∧
      (e.setUDecimal length precision (d.getUDecimal length precision)).negative = false ∧
      (e.setUDecimal length precision (d.getUDecimal length precision)).magnitude =
        d.window (32 - precision) (32 - precision + 2 * length) := by
  have htop : 32 + ((2 * length : ℕ) : ℤ) - precision - 1 = 2 * length + 31 - precision := by omega
  have hbuffer : d.getUDecimal length precision =
      packFrom (between d.place (32 - precision) (2 * length + 31 - precision)) length
        (2 * length + 31 - precision) := by
    rw [getUDecimal, doGetDecimal_eq hd le_rfl (by omega), htop]
  have hlength : (d.getUDecimal length precision).length = length := by
    rw [hbuffer, length_packFrom]
  obtain ⟨hlsb, hmsb, hnegative, hdigits⟩ := setUDecimal_spec e hlength hpos hle hprecision
  generalize e.setUDecimal length precision (d.getUDecimal length precision) = r at *
  have hplaces : ∀ i, 32 - precision ≤ i → i ≤ 2 * length + 31 - precision →
      r.digits i = d.place i := by
    intro i hlo hhi
    have hi : 2 * (length : ℤ) + 31 - precision - (2 * length + 31 - precision - i : ℕ) = i := by
      omega
    rw [hdigits i hlo hhi, hbuffer, nibble_packFrom (between_lt hd.proper _ _) (by omega), hi]
    exact if_pos ⟨by omega, by omega⟩
  refine ⟨hlength, fun i hlo hhi => ?_, hnegative, ?_⟩
  · rw [hlsb] at hlo
    rw [hmsb] at hhi
    rw [hplaces i hlo hhi]
    exact place_le hd.proper i
  · refine magnitude_of_window hlsb (by omega) (fun i hlo hhi => hplaces i hlo (hmsb ▸ hhi)) ?_
    intro i hhi hhi'
    omega

end Signed

/-- All digits that are not 0 are at places from `lo` to below `hi`. -/
def FitsIn (d : Decimal) (lo hi : ℕ) : Prop :=
  ∀ i, d.lsb ≤ i → i ≤ d.msb → d.digits i ≠ 0 → lo ≤ i ∧ i < hi

/-- **A stored number is the number without the digits outside of the target**, in exactly the bytes
of the target, and so it is the number itself if there are none. -/
theorem stored_digits (d e : Decimal) (hd : d.WellFormed) (length precision : ℕ) (hpos : 1 ≤ length)
    (hprecision : precision ≤ 32) :
    (length ≤ 17 → precision ≤ 2 * length - 1 →
      (d.getDecimal length precision 0xFD).length = length ∧
      (e.setDecimal length precision (d.getDecimal length precision 0xFD)).val =
        (if d.negative then -1 else 1) *
          (d.window (32 - precision) (32 - precision + (2 * length - 1)) / 10 ^ 32) ∧
      (d.FitsIn (32 - precision) (32 - precision + (2 * length - 1)) →
        (e.setDecimal length precision (d.getDecimal length precision 0xFD)).compare d = 0)) ∧
    (length ≤ 16 → precision ≤ 2 * length →
      (d.getUDecimal length precision).length = length ∧
      (e.setUDecimal length precision (d.getUDecimal length precision)).val =
        d.window (32 - precision) (32 - precision + 2 * length) / 10 ^ 32 ∧
      (d.FitsIn (32 - precision) (32 - precision + 2 * length) → 0 ≤ d.val →
        (e.setUDecimal length precision (d.getUDecimal length precision)).compare d = 0)) := by
  refine ⟨fun hle _ => ?_, fun hle _ => ?_⟩
  · obtain ⟨hlength, hproper, hnegative, hmagnitude⟩ :=
      setDecimal_getDecimal e hd hpos hle hprecision
    refine ⟨hlength, ?_, fun hfits => ?_⟩
    · rw [val_eq, hnegative, hmagnitude]
    · exact compare_eq_zero_of_magnitude hproper hd
        (hmagnitude.trans (window_eq_magnitude hfits)) fun _ => hnegative
  · obtain ⟨hlength, hproper, hnegative, hmagnitude⟩ :=
      setUDecimal_getUDecimal e hd hpos hle hprecision
    refine ⟨hlength, ?_, fun hfits hval => ?_⟩
    · rw [val_eq, hnegative, hmagnitude, if_neg Bool.false_ne_true, one_mul]
    · refine compare_eq_zero_of_magnitude hproper hd
        (hmagnitude.trans (window_eq_magnitude hfits)) fun hne => ?_
      rw [hnegative, eq_comm, Bool.eq_false_iff]
      exact fun hneg => (not_lt.2 hval) ((val_neg_iff hne).2 hneg)

theorem fitsIn_ofDigit {n lo hi : ℕ} {negative : Bool} (hlo : lo ≤ 32) (hhi : 32 < hi) :
    (ofDigit n negative).FitsIn lo hi := fun _ h h' _ => ⟨hlo.trans h, h'.trans_lt hhi⟩

theorem stored_digits_seven :
    ((ofDigit 0 false).setDecimal 2 1 ((ofDigit 7 true).getDecimal 2 1 0xFD)).compare
        (ofDigit 7 true) = 0 ∧
      ((ofDigit 0 false).setUDecimal 2 4 ((ofDigit 0 true).getUDecimal 2 4)).compare
        (ofDigit 0 true) = 0 := by
  have hseven := stored_digits (ofDigit 7 true) (ofDigit 0 false)
    (wellFormed_ofDigit (by decide) true) 2 1 (by decide) (by decide)
  have hzero := stored_digits (ofDigit 0 true) (ofDigit 0 false)
    (wellFormed_ofDigit (by decide) true) 2 4 (by decide) (by decide)
  refine ⟨(hseven.1 (by decide) (by decide)).2.2 (fitsIn_ofDigit (by decide) (by decide)),
    (hzero.2 (by decide) (by decide)).2.2 (fun i h h' hne => absurd ?_ hne) ?_⟩
  · unfold ofDigit
    exact ite_self 0
  · rw [val_eq_zero_iff.2 ((magnitude_ofDigit 0 true).trans (Nat.zero_mul _))]

end Decimal

end Nbcd
