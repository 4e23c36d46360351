import HpccPlatform.StringSet.ByteKinds
import HpccPlatform.StringSet.Combine
import HpccPlatform.StringSet.Count

/-!
# The number of values of a string set

`numValues` adds the lengths of the stored ranges up.  The length of a range is computed from its bytes
as unsigned numbers, so that a range from a negative value to one that is not counts too few values if
the values have fewer than four bytes.
-/

namespace HpccPlatform

namespace StringSet

open RangeEnds

variable {n : ℕ} {bigEndian isSigned : Bool}

/-- The loop of `getCardinality`, over the bytes of both values from the least significant ones on. -/
def getCardinality.loop : List (UInt8 × UInt8) → UInt32 → UInt32 → UInt32
  | [], ret, _ => ret
  | (b1, b2) :: rest, ret, mult =>
    let diff := b2.toUInt32 - b1.toUInt32
    let next := if mult * 256 < mult then 0 else mult * 256
    if diff ≠ 0 then
      if mult = 0 then 0xffffffff else getCardinality.loop rest (ret + diff * mult) next
    else getCardinality.loop rest ret next

/-- `getCardinality(val1, val2, size)` -/
def getCardinality (bigEndian : Bool) (val1 val2 : FixedBytes n) : UInt32 :=
  let bytes := val1.bytes.zip val2.bytes
  getCardinality.loop (if bigEndian then bytes.reverse else bytes) 1 1

/-- The loop of `numValues`, with the transitions from `idx` on. -/
def numValues.loop (bigEndian : Bool) : List (Transition (FixedBytes n)) → UInt32 → UInt32
  | t :: u :: transitions, ret =>
    let thisrange := getCardinality bigEndian t.val u.val
    if thisrange + ret < ret then 0xffffffff
    else numValues.loop bigEndian transitions (ret + thisrange)
  | _, ret => ret

/-- `numValues()` -/
def numValues (bigEndian : Bool) (transitions : List (Transition (FixedBytes n))) : UInt32 :=
  numValues.loop bigEndian transitions 0

/-- `CSetKeySegmentMonitor::isWellKeyed` -/
def isWellKeyed (bigEndian : Bool) (set : List (Transition (FixedBytes n))) : Bool :=
  numValues bigEndian set < 50

/-! ### One range -/

theorem getCardinality_loop_eq {as bs : List UInt8} {k : ℕ} (hlen : as.length = bs.length)
    (hk : as.length + k ≤ 4) (ret : UInt32) :
    getCardinality.loop (as.zip bs) ret (UInt32.ofNat (256 ^ k)) = ret + UInt32.ofNat (256 ^ k) *
      (UInt32.ofNat (LittleEndian.number bs) - UInt32.ofNat (LittleEndian.number as)) := by
  induction as generalizing bs k ret with
  | nil =>
    rw [List.length_eq_zero_iff.mp hlen.symm]
    simp [getCardinality.loop]
  | cons a as ih =>
    cases bs with
    | nil => cases hlen
    | cons b bs =>
      have hk' : k < 4 := by
        rw [List.length_cons] at hk
        omega
      have hmult : UInt32.ofNat (256 ^ k) ≠ 0 := by
        interval_cases k <;> decide
      have hnext : (if UInt32.ofNat (256 ^ k) * 256 < UInt32.ofNat (256 ^ k) then 0
          else UInt32.ofNat (256 ^ k) * 256) = UInt32.ofNat (256 ^ (k + 1)) := by
        interval_cases k <;> decide
      have hstep : getCardinality.loop ((a, b) :: as.zip bs) ret (UInt32.ofNat (256 ^ k)) =
          getCardinality.loop (as.zip bs)
            (ret + (b.toUInt32 - a.toUInt32) * UInt32.ofNat (256 ^ k))
            (UInt32.ofNat (256 ^ (k + 1))) := by
        rw [getCardinality.loop, hnext, if_neg hmult]
        by_cases hdiff : b.toUInt32 - a.toUInt32 = 0
        · rw [if_neg (not_not.mpr hdiff), hdiff, UInt32.zero_mul, UInt32.add_zero]
        · rw [if_pos hdiff]
      have hbyte : ∀ c : UInt8, c.toUInt32 = UInt32.ofNat c.toNat := fun c =>
        UInt32.toNat_inj.mp (by simp)
      rw [List.zip_cons_cons, hstep, ih (by simpa using hlen) (by
        rw [List.length_cons] at hk
        omega), LittleEndian.number, LittleEndian.number, hbyte, hbyte, Nat.pow_succ,
        UInt32.ofNat_mul, UInt32.ofNat_add, UInt32.ofNat_add, UInt32.ofNat_mul, UInt32.ofNat_mul]
      grind

/-- A value as an unsigned number. -/
def unsignedNumber (bigEndian : Bool) (v : FixedBytes n) : ℕ := valueRank bigEndian false v

/-- The length of a range of unsigned numbers. -/
theorem getCardinality_eq (hn : n ≤ 4) (v w : FixedBytes n) :
    getCardinality bigEndian v w =
      UInt32.ofNat (unsignedNumber bigEndian w) - UInt32.ofNat (unsignedNumber bigEndian v) + 1 := by
  have hloop : ∀ as bs : List UInt8, as.length = n → bs.length = n →
      getCardinality.loop (as.zip bs) 1 1 = UInt32.ofNat (LittleEndian.number bs) -
        UInt32.ofNat (LittleEndian.number as) + 1 := by
    intro as bs has hbs
    have h := @getCardinality_loop_eq as bs 0 (has.trans hbs.symm) (by rw [has]; exact hn) 1
    refine h.trans ?_
    rw [Nat.pow_zero, UInt32.add_comm]
    exact congrArg (· + 1) (UInt32.one_mul _)
  unfold getCardinality
  dsimp only
  cases bigEndian with
  | true =>
    have hzip : (v.bytes.zip w.bytes).reverse = v.bytes.reverse.zip w.bytes.reverse :=
      List.reverse_zipWith (v.length_bytes.trans w.length_bytes.symm)
    rw [if_pos rfl, hzip, hloop _ _ (by rw [List.length_reverse, v.length_bytes])
        (by rw [List.length_reverse, w.length_bytes]),
      Bytes.number_reverse, Bytes.number_reverse]
    rfl
  | false =>
    rw [if_neg Bool.false_ne_true, hloop _ _ v.length_bytes w.length_bytes,
      ← List.reverse_reverse v.bytes, ← List.reverse_reverse w.bytes, Bytes.number_reverse,
      Bytes.number_reverse]
    rfl

/-- The range begins with a negative value and ends with one that is not. -/
def Crosses (n : ℕ) (isSigned : Bool) (x y : ℕ) : Prop :=
  isSigned = true ∧ x < 128 * 256 ^ (n - 1) ∧ 128 * 256 ^ (n - 1) ≤ y

instance (n : ℕ) (isSigned : Bool) (x y : ℕ) : Decidable (Crosses n isSigned x y) :=
  inferInstanceAs (Decidable (_ ∧ _ ∧ _))

theorem valueRank_signed (bigEndian : Bool) (hn : 0 < n) (v : FixedBytes n) :
    valueRank bigEndian true v = if unsignedNumber bigEndian v < 128 * 256 ^ (n - 1)
      then unsignedNumber bigEndian v + 128 * 256 ^ (n - 1)
      else unsignedNumber bigEndian v - 128 * 256 ^ (n - 1) := by
  obtain ⟨m, rfl⟩ := Nat.exists_eq_succ_of_ne_zero hn.ne'
  exact FixedBytes.rank_flip _

theorem two_halves (hn : 0 < n) : 128 * 256 ^ (n - 1) + 128 * 256 ^ (n - 1) = 256 ^ n := by
  obtain ⟨m, rfl⟩ := Nat.exists_eq_succ_of_ne_zero hn.ne'
  rw [Nat.succ_sub_one, Nat.pow_succ]
  omega

/-- The unsigned numbers of the ends of a range differ by its length, up to the overflow. -/
theorem unsignedNumber_add (hn : 0 < n) {v w : FixedBytes n}
    (hle : valueRank bigEndian isSigned v ≤ valueRank bigEndian isSigned w) :
    unsignedNumber bigEndian w + 1 + (if Crosses n isSigned (valueRank bigEndian isSigned v)
        (valueRank bigEndian isSigned w) then 256 ^ n else 0) =
      unsignedNumber bigEndian v +
        (valueRank bigEndian isSigned w + 1 - valueRank bigEndian isSigned v) := by
  cases isSigned with
  | false =>
    rw [if_neg (fun hcross => Bool.false_ne_true hcross.1), unsignedNumber, unsignedNumber]
    omega
  | true =>
    have hhalves := two_halves hn
    have hv := valueRank_signed bigEndian hn v
    have hw := valueRank_signed bigEndian hn w
    have hvlt : unsignedNumber bigEndian v < 256 ^ n := FixedBytes.rank_lt _
    have hwlt : unsignedNumber bigEndian w < 256 ^ n := FixedBytes.rank_lt _
    by_cases hcross : Crosses n true (valueRank bigEndian true v) (valueRank bigEndian true w)
    · rw [if_pos hcross]
      obtain ⟨-, hneg, hpos⟩ := hcross
      split_ifs at hv hw <;> omega
    · rw [if_neg hcross]
      rw [Crosses, not_and, not_and] at hcross
      have hcross' := hcross rfl
      split_ifs at hv hw <;> omega

theorem getCardinality_add (hn : 0 < n) (hn4 : n ≤ 4) {v w : FixedBytes n}
    (hle : valueRank bigEndian isSigned v ≤ valueRank bigEndian isSigned w) :
    getCardinality bigEndian v w + UInt32.ofNat (if Crosses n isSigned
        (valueRank bigEndian isSigned v) (valueRank bigEndian isSigned w) then 256 ^ n else 0) =
      UInt32.ofNat (valueRank bigEndian isSigned w + 1 - valueRank bigEndian isSigned v) := by
  have hnat := congrArg UInt32.ofNat (unsignedNumber_add hn hle)
  rw [UInt32.ofNat_add, UInt32.ofNat_add, UInt32.ofNat_add] at hnat
  rw [getCardinality_eq hn4]
  have hone : UInt32.ofNat 1 = 1 := rfl
  rw [hone] at hnat
  grind

/-! ### All ranges -/

section Sum

variable {ts : List (Transition (FixedBytes n))}

/-- A range of the set begins with a negative value and ends with one that is not. -/
def CrossesZero (n : ℕ) (bigEndian isSigned : Bool) (ts : List (Transition (FixedBytes n))) : Prop :=
  isSigned = true ∧ Covers false (ends (valueRank bigEndian isSigned) ts) (128 * 256 ^ (n - 1) - 1) ∧
    Covers false (ends (valueRank bigEndian isSigned) ts) (128 * 256 ^ (n - 1))

/-- The sum of the lengths, without the test for an overflow. -/
def sumCardinalities (bigEndian : Bool) : List (Transition (FixedBytes n)) → UInt32
  | t :: u :: ts => getCardinality bigEndian t.val u.val + sumCardinalities bigEndian ts
  | _ => 0

theorem numValues_loop_cases (bigEndian : Bool) : ∀ (ts : List (Transition (FixedBytes n)))
    (ret : UInt32), numValues.loop bigEndian ts ret = 0xffffffff ∨
      numValues.loop bigEndian ts ret = ret + sumCardinalities bigEndian ts
  | [], ret => Or.inr (UInt32.add_zero ret).symm
  | [_], ret => Or.inr (UInt32.add_zero ret).symm
  | t :: u :: ts, ret => by
    rw [numValues.loop]
    split_ifs with hoverflow
    · exact Or.inl rfl
    · refine (numValues_loop_cases bigEndian ts _).imp_right fun h => h.trans ?_
      rw [sumCardinalities, UInt32.add_assoc]

variable {t u : Transition (FixedBytes n)}

theorem FirstRange.crosses (h : FirstRange (valueRank bigEndian isSigned) t u ts) :
    CrossesZero n bigEndian isSigned (t :: u :: ts) ↔
      Crosses n isSigned (valueRank bigEndian isSigned t.val) (valueRank bigEndian isSigned u.val) ∨
        CrossesZero n bigEndian isSigned ts := by
  have hhalf : 0 < 128 * 256 ^ (n - 1) := Nat.mul_pos (by decide) (Nat.pow_pos (by decide))
  unfold CrossesZero Crosses
  rw [h.covers_iff, h.covers_iff]
  generalize 128 * 256 ^ (n - 1) = half at hhalf
  constructor
  · rintro ⟨hsigned, hbelow, hat⟩
    rcases hbelow with hbelow | hbelow
    · rcases hat with hat | hat
      · exact Or.inl ⟨hsigned, by omega, hat.2⟩
      · exact absurd hat (h.not_covers (by omega))
    · rcases hat with hat | hat
      · exact absurd hbelow (h.not_covers (by omega))
      · exact Or.inr ⟨hsigned, hbelow, hat⟩
  · rintro (⟨hsigned, hbelow, hat⟩ | ⟨hsigned, hbelow, hat⟩)
    · exact ⟨hsigned, Or.inl ⟨by omega, by omega⟩, Or.inl ⟨by omega, hat⟩⟩
    · exact ⟨hsigned, Or.inr hbelow, Or.inr hat⟩

/-- Where no range crosses zero the sum is that of the lengths. -/
theorem numValues_loop_eq (hn : 0 < n) (hn4 : n ≤ 4)
    (hts : Canonical (valueRank bigEndian isSigned) ts) :
    (CrossesZero n bigEndian isSigned ts → n = 4) → ∀ ret : UInt32,
      ret.toNat + totalSize (valueRank bigEndian isSigned) ts < 2 ^ 32 →
        (numValues.loop bigEndian ts ret).toNat =
          ret.toNat + totalSize (valueRank bigEndian isSigned) ts := by
  refine Canonical.induct (motive := fun ts => (CrossesZero n bigEndian isSigned ts → n = 4) →
    ∀ ret : UInt32, ret.toNat + totalSize (valueRank bigEndian isSigned) ts < 2 ^ 32 →
      (numValues.loop bigEndian ts ret).toNat =
        ret.toNat + totalSize (valueRank bigEndian isSigned) ts) ?nil ?range hts
  case nil => exact fun _ ret _ => rfl
  case range =>
    intro t u ts hfirst ih hcross ret hlt
    rw [hfirst.crosses] at hcross
    rw [totalSize] at hlt ⊢
    have hcard := getCardinality_add hn hn4 hfirst.le
    have hzero : UInt32.ofNat (if Crosses n isSigned (valueRank bigEndian isSigned t.val)
        (valueRank bigEndian isSigned u.val) then 256 ^ n else 0) = 0 := by
      split_ifs with hpair
      · rw [hcross (Or.inl hpair)]
        rfl
      · rfl
    rw [hzero, UInt32.add_zero] at hcard
    have hone : (getCardinality bigEndian t.val u.val).toNat =
        valueRank bigEndian isSigned u.val + 1 - valueRank bigEndian isSigned t.val := by
      rw [hcard]
      exact UInt32.toNat_ofNat_of_lt ((Nat.le_add_right _ _).trans_lt
        ((Nat.le_add_left _ ret.toNat).trans_lt hlt))
    have hsum : (ret + getCardinality bigEndian t.val u.val).toNat = ret.toNat +
        (valueRank bigEndian isSigned u.val + 1 - valueRank bigEndian isSigned t.val) := by
      rw [UInt32.toNat_add, hone, Nat.mod_eq_of_lt (by omega)]
    have hover : ¬ getCardinality bigEndian t.val u.val + ret < ret := by
      rw [UInt32.add_comm, UInt32.lt_iff_toNat_lt, hsum]
      exact not_lt.mpr (Nat.le_add_right _ _)
    rw [numValues.loop, if_neg hover, ih (fun hrest => hcross (Or.inr hrest)) _ (by omega), hsum,
      Nat.add_assoc]

/-- Where a range crosses zero the sum is short by the number of the values of that size. -/
theorem sumCardinalities_add (hn : 0 < n) (hn4 : n ≤ 4)
    (hts : Canonical (valueRank bigEndian isSigned) ts) :
    (¬ CrossesZero n bigEndian isSigned ts → sumCardinalities bigEndian ts =
      UInt32.ofNat (totalSize (valueRank bigEndian isSigned) ts)) ∧
    (CrossesZero n bigEndian isSigned ts →
      sumCardinalities bigEndian ts + UInt32.ofNat (256 ^ n) =
        UInt32.ofNat (totalSize (valueRank bigEndian isSigned) ts)) := by
  refine Canonical.induct (motive := fun ts => (¬ CrossesZero n bigEndian isSigned ts →
      sumCardinalities bigEndian ts =
        UInt32.ofNat (totalSize (valueRank bigEndian isSigned) ts)) ∧
    (CrossesZero n bigEndian isSigned ts →
      sumCardinalities bigEndian ts + UInt32.ofNat (256 ^ n) =
        UInt32.ofNat (totalSize (valueRank bigEndian isSigned) ts))) ?nil ?range hts
  case nil => exact ⟨fun _ => rfl, fun hcross => absurd hcross.2.1 Bool.false_ne_true⟩
  case range =>
    intro t u ts hfirst ih
    have hcard := getCardinality_add hn hn4 hfirst.le
    have hdisjoint : Crosses n isSigned (valueRank bigEndian isSigned t.val)
        (valueRank bigEndian isSigned u.val) → ¬ CrossesZero n bigEndian isSigned ts :=
      fun hpair hrest => hfirst.not_covers (hpair.2.2.trans (Nat.le_succ _)) hrest.2.2
    rw [hfirst.crosses, sumCardinalities, totalSize, UInt32.ofNat_add, ← hcard]
    by_cases hpair : Crosses n isSigned (valueRank bigEndian isSigned t.val)
        (valueRank bigEndian isSigned u.val)
    · rw [if_pos hpair, ← ih.1 (hdisjoint hpair)]
      refine ⟨fun hnot => absurd (Or.inl hpair) hnot, fun _ => ?_⟩
      rw [UInt32.add_assoc, UInt32.add_assoc, UInt32.add_comm (sumCardinalities _ _)]
    · have hzero : UInt32.ofNat 0 = 0 := rfl
      rw [if_neg hpair, hzero, UInt32.add_zero, or_iff_right hpair]
      refine ⟨fun hnot => by rw [ih.1 hnot], fun hcross => ?_⟩
      rw [UInt32.add_assoc, ih.2 hcross]

end Sum

/-! ### Sets that are built by operations -/

/-- The sets that sequences of operations lead to; `ok` is asked of the two sets of a union. -/
inductive Built {V : Type*} (kind : ValueKind V)
    (ok : List (Transition V) → List (Transition V) → Prop) : List (Transition V) → Prop
  | empty : Built kind ok []
  | addRange {ts ts' : List (Transition V)} {loval hival : Option V} (hts : Built kind ok ts)
      (hadd : addRange kind ts loval hival = some ts') : Built kind ok ts'
  | killRange {ts ts' : List (Transition V)} {loval hival : Option V} (hts : Built kind ok ts)
      (hkill : killRange kind ts loval hival = some ts') : Built kind ok ts'
  | addAll : Built kind ok (addAll kind)
  | invertSet {ts ts' : List (Transition V)} (hts : Built kind ok ts)
      (hinvert : invertSet kind ts = some ts') : Built kind ok ts'
  | unionSet {a b ts : List (Transition V)} (ha : Built kind ok a) (hb : Built kind ok b)
      (hok : ok a b) (hunion : unionOrIntersect kind true a b = some ts) : Built kind ok ts
  | intersectSet {a b ts : List (Transition V)} (ha : Built kind ok a) (hb : Built kind ok b)
      (hintersect : unionOrIntersect kind false a b = some ts) : Built kind ok ts

/-- Unions of sets that are apart keep the ranges of a set separated. -/
theorem Built.canonical {V : Type*} {kind : ValueKind V} {rank : V → ℕ} {M : ℕ}
    {ts : List (Transition V)} (h : Ranked kind rank M) (hinj : Function.Injective rank)
    (hts : Built kind Apart ts) : Canonical rank ts := by
  induction hts with
  | empty => exact nil_canonical
  | addRange _ hadd ih => exact addRange_canonical h ih hadd
  | killRange _ hkill ih => exact killRange_canonical h ih hkill
  | addAll => exact addAll_canonical h
  | invertSet _ hinvert _ => exact invertSet_canonical h hinvert
  | unionSet _ _ hok hunion iha ihb =>
    obtain ⟨_, hunion', hcanonical⟩ := unionOrIntersect_canonical h hinj iha ihb fun _ => hok
    obtain rfl := Option.some.inj (hunion'.symm.trans hunion)
    exact hcanonical
  | intersectSet _ _ hintersect iha ihb =>
    obtain ⟨_, hintersect', hcanonical⟩ :=
      @unionOrIntersect_canonical _ _ _ _ false _ _ h hinj iha ihb fun hf => by cases hf
    obtain rfl := Option.some.inj (hintersect'.symm.trans hintersect)
    exact hcanonical

/-! ### Counting -/

/-- `numValues` is the number of members, and `isWellKeyed` tells whether there are fewer than 50. -/
def CountsMembers (n : ℕ) (bigEndian isSigned : Bool) (ts : List (Transition (FixedBytes n))) :
    Prop :=
  (numValues bigEndian ts).toNat = numMembers (createStringSet n bigEndian isSigned) ts ∧
    (isWellKeyed bigEndian ts = true ↔ numMembers (createStringSet n bigEndian isSigned) ts < 50)

/-- The set of signed values of fewer than four bytes holds -1, all bytes of which are 0xff, and 0. -/
def SpansZero (n : ℕ) (bigEndian isSigned : Bool) (ts : List (Transition (FixedBytes n))) : Prop :=
  isSigned = true ∧ 0 < n ∧ n < 4 ∧
    (inRange (createStringSet n bigEndian isSigned) ts .high).1 = true ∧
      (inRange (createStringSet n bigEndian isSigned) ts .low).1 = true

section Counting

variable {ts : List (Transition (FixedBytes n))}

theorem countsMembers_iff :
    CountsMembers n bigEndian isSigned ts ↔
      (numValues bigEndian ts).toNat = numMembers (createStringSet n bigEndian isSigned) ts := by
  refine and_iff_left_of_imp fun heq => ?_
  rw [← heq, isWellKeyed, decide_eq_true_iff]
  exact UInt32.lt_iff_toNat_lt

theorem unsignedNumber_low : unsignedNumber bigEndian (.low : FixedBytes n) = 0 := by
  cases bigEndian with
  | true => exact FixedBytes.rank_low
  | false => exact (congrArg FixedBytes.rank (FixedBytes.reverse_fill 0)).trans FixedBytes.rank_low

theorem unsignedNumber_high (bigEndian : Bool) (n : ℕ) :
    unsignedNumber bigEndian (.high : FixedBytes n) + 1 = 256 ^ n := by
  cases bigEndian with
  | true => exact FixedBytes.rank_high
  | false =>
    exact (congrArg (FixedBytes.rank · + 1) (FixedBytes.reverse_fill 0xff)).trans
      FixedBytes.rank_high

theorem spansZero_iff (hn : 0 < n) (hts : Canonical (valueRank bigEndian isSigned) ts) :
    SpansZero n bigEndian isSigned ts ↔ n < 4 ∧ CrossesZero n bigEndian isSigned ts := by
  have h := ranked_createStringSet hn bigEndian isSigned
  unfold SpansZero CrossesZero
  rw [inRange_iff h hts.valid, inRange_iff h hts.valid, Member, Member]
  cases isSigned with
  | false => simp
  | true =>
    have hhalves := two_halves hn
    have hhalf : 0 < 128 * 256 ^ (n - 1) := Nat.mul_pos (by decide) (Nat.pow_pos (by decide))
    have hlow : valueRank bigEndian true (.low : FixedBytes n) = 128 * 256 ^ (n - 1) := by
      rw [valueRank_signed bigEndian hn, unsignedNumber_low, if_pos hhalf, Nat.zero_add]
    have hhigh : valueRank bigEndian true (.high : FixedBytes n) = 128 * 256 ^ (n - 1) - 1 := by
      have hff := unsignedNumber_high bigEndian n
      rw [valueRank_signed bigEndian hn, if_neg (by omega)]
      omega
    rw [hlow, hhigh]
    tauto

/-- The sets of values without a byte. -/
theorem Built.of_zero {ok : List (Transition (FixedBytes 0)) → List (Transition (FixedBytes 0)) → Prop}
    {ts : List (Transition (FixedBytes 0))} (hts : Built (createStringSet 0 bigEndian isSigned) ok ts) :
    ts = [] ∨ ts = [⟨.low, true⟩, ⟨.low, false⟩] := by
  have hone : ∀ v : FixedBytes 0, v = .low := fun v =>
    FixedBytes.ext ((List.length_eq_zero_iff.mp v.length_bytes).trans rfl)
  induction hts with
  | empty => exact Or.inl rfl
  | @addRange ts ts' loval hival _ hadd ih =>
    rw [show StringSet.addRange (createStringSet 0 bigEndian isSigned) ts loval hival =
      StringSet.addRange (createStringSet 0 bigEndian isSigned) ts (some (loval.getD _))
        (some (hival.getD _)) from rfl, hone (loval.getD _), hone (hival.getD _)] at hadd
    rcases ih with rfl | rfl <;> revert hadd <;> cases bigEndian <;> cases isSigned <;>
      (rintro ⟨⟩; exact Or.inr rfl)
  | @killRange ts ts' loval hival _ hkill ih =>
    rw [show StringSet.killRange (createStringSet 0 bigEndian isSigned) ts loval hival =
      StringSet.killRange (createStringSet 0 bigEndian isSigned) ts (some (loval.getD _))
        (some (hival.getD _)) from rfl, hone (loval.getD _), hone (hival.getD _)] at hkill
    rcases ih with rfl | rfl <;> revert hkill <;> cases bigEndian <;> cases isSigned <;>
      (rintro ⟨⟩; exact Or.inl rfl)
  | addAll =>
    rw [StringSet.addAll, hone (ValueKind.low _), hone (ValueKind.high _)]
    exact Or.inr rfl
  | invertSet _ hinvert ih =>
    rcases ih with rfl | rfl <;> revert hinvert <;> cases bigEndian <;> cases isSigned <;>
      (rintro ⟨⟩; first | exact Or.inl rfl | exact Or.inr rfl)
  | unionSet _ _ _ hunion iha ihb =>
    rcases iha with rfl | rfl <;> rcases ihb with rfl | rfl <;> revert hunion <;>
      cases bigEndian <;> cases isSigned <;>
      (rintro ⟨⟩; first | exact Or.inl rfl | exact Or.inr rfl)
  | intersectSet _ _ hintersect iha ihb =>
    rcases iha with rfl | rfl <;> rcases ihb with rfl | rfl <;> revert hintersect <;>
      cases bigEndian <;> cases isSigned <;>
      (rintro ⟨⟩; first | exact Or.inl rfl | exact Or.inr rfl)

theorem countsMembers_zero (hts : ts = [] ∨ ts = [⟨.low, true⟩, ⟨.low, false⟩]) (hn : n = 0) :
    CountsMembers n bigEndian isSigned ts := by
  subst hn
  have hone : ∀ v : FixedBytes 0, v = .low := fun v =>
    FixedBytes.ext ((List.length_eq_zero_iff.mp v.length_bytes).trans rfl)
  rw [countsMembers_iff, numMembers]
  rcases hts with rfl | rfl
  · have hempty : {v : FixedBytes 0 |
        (inRange (createStringSet 0 bigEndian isSigned) [] v).1 = true} = ∅ :=
      Set.eq_empty_iff_forall_notMem.mpr fun v hv => Bool.false_ne_true hv
    rw [hempty, Set.ncard_empty]
    rfl
  · have hall : {v : FixedBytes 0 | (inRange (createStringSet 0 bigEndian isSigned)
        [⟨.low, true⟩, ⟨.low, false⟩] v).1 = true} = {FixedBytes.low} := by
      ext v
      rw [Set.mem_singleton_iff, hone v]
      refine iff_of_true ?_ rfl
      cases bigEndian <;> cases isSigned <;> rfl
    rw [hall, Set.ncard_singleton]
    cases bigEndian <;> rfl

/-- The count of a canonical set. -/
theorem countsMembers_canonical (hpos : 0 < n) (hn : n ≤ 4)
    (hts : Canonical (valueRank bigEndian isSigned) ts)
    (hN : numMembers (createStringSet n bigEndian isSigned) ts < 2 ^ 32) :
    CountsMembers n bigEndian isSigned ts ↔ ¬ SpansZero n bigEndian isSigned ts := by
  have h := ranked_createStringSet hpos bigEndian isSigned
  rw [numMembers_eq h (valueRank_injective _ _) hts] at hN
  rw [countsMembers_iff, numMembers_eq h (valueRank_injective _ _) hts, spansZero_iff hpos hts]
  constructor
  · rintro hcount ⟨hlt, hcross⟩
    have hle := totalSize_le h hts
    have hsum := (sumCardinalities_add hpos hn hts).2 hcross
    have hpow : 256 ^ n ≤ 256 ^ 3 := Nat.pow_le_pow_right (by decide) (Nat.le_of_lt_succ hlt)
    have hpos' : 0 < 256 ^ n := Nat.pow_pos (by decide)
    have hmod : ∀ k ≤ 256 ^ 3, (UInt32.ofNat k).toNat = k := fun k hk =>
      UInt32.toNat_ofNat_of_lt (hk.trans_lt (by decide))
    rcases numValues_loop_cases bigEndian ts 0 with hmax | hloop
    · have hmax' : (numValues bigEndian ts).toNat = 4294967295 := congrArg UInt32.toNat hmax
      omega
    · have hvalue : numValues bigEndian ts = UInt32.ofNat (totalSize (valueRank bigEndian isSigned) ts) := by
        rw [← UInt32.toNat_inj, hcount, hmod _ (hle.trans hpow)]
      have hzero : UInt32.ofNat (256 ^ n) = 0 := by
        rw [← hvalue, numValues, hloop, UInt32.zero_add] at hsum
        exact left_eq_add.mp hsum.symm
      have hcontra := congrArg UInt32.toNat hzero
      rw [hmod _ hpow, UInt32.toNat_zero] at hcontra
      omega
  · intro hnot
    have hloop := numValues_loop_eq hpos hn hts
      (fun hcross => le_antisymm hn (not_lt.mp fun hlt => hnot ⟨hlt, hcross⟩)) 0
      (by rw [UInt32.toNat_zero, Nat.zero_add]; exact hN)
    rw [UInt32.toNat_zero, Nat.zero_add] at hloop
    exact hloop

/-- In a run all unions of which are of sets that are apart, `numValues` is the number of members of
each set that does not span zero, and of no other set. -/
theorem built_countsMembers_iff (hn : n ≤ 4)
    (hts : Built (createStringSet n bigEndian isSigned) Apart ts)
    (hN : numMembers (createStringSet n bigEndian isSigned) ts < 2 ^ 32) :
    CountsMembers n bigEndian isSigned ts ↔ ¬ SpansZero n bigEndian isSigned ts := by
  rcases Nat.eq_zero_or_pos n with rfl | hpos
  · exact iff_of_true (countsMembers_zero hts.of_zero rfl) fun hspans => lt_irrefl 0 hspans.2.1
  · exact countsMembers_canonical hpos hn
      (hts.canonical (ranked_createStringSet hpos _ _) (valueRank_injective _ _)) hN

end Counting

/-- A value of one byte. -/
def byteValue (b : UInt8) : FixedBytes 1 := ⟨[b], rfl⟩

theorem built_range (isSigned : Bool) (ok : List (Transition (FixedBytes 1)) → List _ → Prop)
    {lo hi : UInt8} (hle : ¬ 0 < (createStringSet 1 true isSigned).memcmp (byteValue lo) (byteValue hi)) :
    Built (createStringSet 1 true isSigned) ok [⟨byteValue lo, true⟩, ⟨byteValue hi, false⟩] :=
  @Built.addRange _ _ ok [] _ (some (byteValue lo)) (some (byteValue hi)) .empty (if_neg hle)

/-- The members of one range of bytes. -/
theorem numMembers_byte_range {lo hi : UInt8} (hle : lo.toNat ≤ hi.toNat) :
    numMembers (createStringSet 1 true false) [⟨byteValue lo, true⟩, ⟨byteValue hi, false⟩] =
      hi.toNat + 1 - lo.toNat := by
  have hrank : ∀ b, valueRank true false (byteValue b) = b.toNat := fun b => by
    show b.toNat * 256 ^ 0 + 0 = b.toNat
    rw [Nat.pow_zero, Nat.mul_one, Nat.add_zero]
  have hcanonical : Canonical (valueRank true false)
      [⟨byteValue lo, true⟩, ⟨byteValue hi, false⟩] := by
    refine ⟨⟨rfl, rfl, trivial⟩, rfl, List.pairwise_pair.mpr ?_⟩
    show valueRank true false (byteValue lo) < valueRank true false (byteValue hi) + 1
    rw [hrank, hrank]
    exact Nat.lt_succ_of_le hle
  rw [numMembers_eq (ranked_createStringSet (by decide) true false) (valueRank_injective _ _) hcanonical,
    totalSize, hrank, hrank]
  exact Nat.add_zero _

theorem built_countsMembers_three_to_seven :
    CountsMembers 1 true false [⟨byteValue 3, true⟩, ⟨byteValue 7, false⟩] ↔
      ¬ SpansZero 1 true false [⟨byteValue 3, true⟩, ⟨byteValue 7, false⟩] :=
  built_countsMembers_iff (by decide) (built_range false Apart (by decide))
    (by rw [numMembers_byte_range (by decide)]; decide)

/-- All values of one signed byte, counted from -128 to 127 as from 128 to 127. -/
example : numValues true (addAll (createStringSet 1 true true)) = 0 := by decide

/-- The union of `[1..5]` and `[5..9]` stores the value 5 twice: 10 values are counted, not 9. -/
theorem union_counts_twice :
    ¬ ∀ (n : ℕ) (bigEndian isSigned : Bool) (ts : List (Transition (FixedBytes n))), n ≤ 4 →
      Built (createStringSet n bigEndian isSigned) (fun _ _ => True) ts →
      numMembers (createStringSet n bigEndian isSigned) ts < 2 ^ 32 →
        CountsMembers n bigEndian isSigned ts := by
  intro hall
  have hunion : Built (createStringSet 1 true false) (fun _ _ => True)
      [⟨byteValue 1, true⟩, ⟨byteValue 5, false⟩, ⟨byteValue 5, true⟩, ⟨byteValue 9, false⟩] :=
    .unionSet (@built_range false _ 1 5 (by decide)) (@built_range false _ 5 9 (by decide)) trivial
      (by decide)
  have hsame : numMembers (createStringSet 1 true false)
      [⟨byteValue 1, true⟩, ⟨byteValue 5, false⟩, ⟨byteValue 5, true⟩, ⟨byteValue 9, false⟩] = 9 := by
    have h := ranked_createStringSet (by decide : 0 < 1) true false
    have hone : Valid (valueRank true false)
        [⟨byteValue 1, true⟩, ⟨byteValue 9, false⟩] := ⟨⟨rfl, rfl, trivial⟩, rfl, by decide⟩
    have htwo : Valid (valueRank true false) [⟨byteValue 1, true⟩, ⟨byteValue 5, false⟩,
        ⟨byteValue 5, true⟩, ⟨byteValue 9, false⟩] :=
      ⟨⟨rfl, rfl, rfl, rfl, trivial⟩, rfl, by decide⟩
    refine Eq.trans (congrArg Set.ncard (Set.ext fun v => ?_))
      (@numMembers_byte_range 1 9 (by decide))
    refine (inRange_iff h htwo v).trans (Iff.trans ?_ (inRange_iff h hone v).symm)
    show (1 ≤ _ ∧ (_ ≤ 5 ∨ (5 ≤ _ ∧ (_ ≤ 9 ∨ false = true)))) ↔ (1 ≤ _ ∧ (_ ≤ 9 ∨ false = true))
    rw [or_iff_left Bool.false_ne_true]
    omega
  have hcount := (hall 1 true false _ (by decide) hunion (by rw [hsame]; decide)).1
  rw [hsame] at hcount
  exact absurd hcount (by decide)

end StringSet

end HpccPlatform
