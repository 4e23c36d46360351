import HpccPlatform.KeyFilter.OrderedSet

/-!
# Stepping through the values of a filtered field

`setLow`, `setHigh`, `incrementKey` and `endRange` of the field filters of `rtl/eclrtl/rtlnewkey.cpp`,
on a field of a key buffer.  The values of a `FixedSubStringFieldFilter` are those of a type that is
shorter than the field: a step of the set is made on the leading bytes, and the bytes behind them
are filled up.

`incrementKey` adds one to the leading bytes.  When the result is in the set the bytes behind it
are left as they were, although the next value has zeros there, and when the field is in the set
itself the values with the same leading bytes are passed over.
-/

namespace HpccPlatform

open Bytes ValueSet BoundRanks

/-! ## The filters -/

/-- `WildFieldFilter`, `SingleFieldFilter`, and `SetFieldFilter` or `FixedSubStringFieldFilter`, which
differ in the size of the type of the values. -/
inductive FixedFieldFilter (size : ℕ) where
  | wild
  | single (value : FixedBytes size)
  | set (subSize : ℕ) (type : PrefixOrdered subSize)
      (transitions : List (ValueTransition (FixedBytes subSize)))

namespace FixedFieldFilter

variable {size : ℕ}

def matchesField (type : ByteOrdered size) : FixedFieldFilter size → FixedBytes size → Bool
  | wild, _ => true
  | single value, v => type.compare v value == 0
  | set subSize subType transitions, v =>
    ValueSet.matchesField subType.toRtlTypeInfo transitions (.read v.bytes 0 subSize)

/-- Write the bound of a range, and fill up the field with one byte.  Nothing is left to be filled
when the bound has the type of the field. -/
def storeBound {subSize : ℕ} (size : ℕ) (fill : UInt8) (bound : FixedBytes subSize)
    (buffer : List UInt8) (offset : ℕ) : List UInt8 :=
  put (put buffer offset bound.bytes) (offset + subSize) (List.replicate (size - subSize) fill)

/-- `setLow`; it fails for a set without bounds. -/
def setLow : FixedFieldFilter size → List UInt8 → ℕ → Option (List UInt8)
  | wild, buffer, offset => some (put buffer offset (FixedBytes.low : FixedBytes size).bytes)
  | single value, buffer, offset => some (put buffer offset value.bytes)
  | set _ _ transitions, buffer, offset =>
    transitions[0]?.map (fun t => storeBound size 0 t.setLow buffer offset)

def setHigh : FixedFieldFilter size → List UInt8 → ℕ → Option (List UInt8)
  | wild, buffer, offset => some (put buffer offset (FixedBytes.high : FixedBytes size).bytes)
  | single value, buffer, offset => some (put buffer offset value.bytes)
  | set _ _ transitions, buffer, offset =>
    transitions[transitions.length - 1]?.map (fun t => storeBound size 0xff t.setHigh buffer offset)

def incrementKey (type : ByteOrdered size) :
    FixedFieldFilter size → List UInt8 → ℕ → Option (Bool × List UInt8)
  | wild, buffer, offset =>
    let (ok, ptr) := (FixedBytes.read buffer offset size).increment
    some (ok, put buffer offset ptr.bytes)
  | single value, buffer, offset =>
    if type.compare (.read buffer offset size) value < 0 then
      some (true, put buffer offset value.bytes)
    else some (false, buffer)
  | set subSize subType transitions, buffer, offset =>
    let (ok, ptr) := (FixedBytes.read buffer offset subSize).increment
    let buffer := put buffer offset ptr.bytes
    if ok then
      match findForwardMatchRange subType.toRtlTypeInfo transitions ptr with
      | (true, _) => some (true, buffer)
      | (false, nextRange) =>
        if nextRange = numRanges transitions then some (false, buffer)
        else transitions[nextRange * 2]?.map
          (fun t => (true, storeBound size 0 t.setLow buffer offset))
    else some (false, buffer)

/-- `endRange`; it fails when the field is in no range of a set. -/
def endRange : FixedFieldFilter size → List UInt8 → ℕ → Option (List UInt8)
  | wild, buffer, offset => (wild : FixedFieldFilter size).setHigh buffer offset
  | single _, buffer, _ => some buffer
  | set subSize subType transitions, buffer, offset =>
    match findForwardMatchRange subType.toRtlTypeInfo transitions (.read buffer offset subSize) with
    | (true, nextRange) =>
      transitions[nextRange * 2 + 1]?.map (fun t => storeBound size 0xff t.setHigh buffer offset)
    | (false, _) => none

/-! ## The number of a field and of its leading bytes -/

section Leading

variable {subSize : ℕ}

/-- The number of the leading bytes of a field. -/
def leading (subSize : ℕ) (b : FixedBytes size) : ℕ := (FixedBytes.read b.bytes 0 subSize).rank

/-- The number of values with the same leading bytes. -/
def behind (size subSize : ℕ) : ℕ := 256 ^ (size - subSize)

theorem behind_pos (size subSize : ℕ) : 0 < behind size subSize := Nat.pow_pos (by decide)

theorem pow_eq (hsub : subSize ≤ size) : 256 ^ subSize * behind size subSize = 256 ^ size := by
  rw [behind, ← Nat.pow_add, Nat.add_sub_cancel' hsub]

theorem leading_eq (hsub : subSize ≤ size) (b : FixedBytes size) :
    leading subSize b = number (b.bytes.take subSize) := by
  have hslice : slice b.bytes 0 subSize = b.bytes.take subSize := by
    rw [slice_eq (by rw [Nat.zero_add, b.length_bytes]; exact hsub), List.drop_zero]
  exact congrArg number hslice

theorem rank_div (hsub : subSize ≤ size) (b : FixedBytes size) :
    b.rank / behind size subSize = leading subSize b ∧
      b.rank % behind size subSize = number (b.bytes.drop subSize) := by
  obtain ⟨hrank, hlt⟩ := rank_split subSize b
  have hpos := behind_pos size subSize
  unfold behind at hpos ⊢
  rw [leading_eq hsub, hrank, Nat.mul_comm, Nat.mul_add_div hpos, Nat.div_eq_of_lt hlt,
    Nat.add_zero, Nat.mul_add_mod, Nat.mod_eq_of_lt hlt]
  exact ⟨rfl, rfl⟩

theorem bytes_behind_high_iff (hsub : subSize ≤ size) (b : FixedBytes size) :
    (∀ byte ∈ b.bytes.drop subSize, byte = 0xff) ↔
      b.rank % behind size subSize + 1 = behind size subSize := by
  rw [(rank_div hsub b).2, ← number_add_one_eq_iff, List.length_drop, b.length_bytes]
  rfl

theorem bytes_behind_low_iff (hsub : subSize ≤ size) (b : FixedBytes size) :
    (∀ byte ∈ b.bytes.drop subSize, byte = 0) ↔ b.rank % behind size subSize = 0 := by
  rw [(rank_div hsub b).2, number_eq_zero_iff]

/-- There is a field with leading bytes and bytes behind them. -/
theorem exists_of_leading (hsub : subSize ≤ size) {q t : ℕ} (hq : q < 256 ^ subSize)
    (ht : t < behind size subSize) : ∃ v : FixedBytes size,
      v.rank = q * behind size subSize + t ∧ leading subSize v = q := by
  have hlt : q * behind size subSize + t < 256 ^ size := by
    calc q * behind size subSize + t < (q + 1) * behind size subSize := by
          rw [Nat.add_mul, Nat.one_mul]
          exact Nat.add_lt_add_left ht _
      _ ≤ 256 ^ subSize * behind size subSize := Nat.mul_le_mul_right _ hq
      _ = 256 ^ size := pow_eq hsub
  obtain ⟨v, hv⟩ := FixedBytes.exists_rank hlt
  refine ⟨v, hv, ?_⟩
  rw [← (rank_div hsub v).1, hv, Nat.mul_comm, Nat.mul_add_div (behind_pos size subSize),
    Nat.div_eq_of_lt ht, Nat.add_zero]

theorem leading_lt (subSize : ℕ) (b : FixedBytes size) : leading subSize b < 256 ^ subSize :=
  FixedBytes.rank_lt _

/-- Fields are ordered by their leading bytes first. -/
theorem rank_lt_of_leading_lt (hsub : subSize ≤ size) {v w : FixedBytes size}
    (h : leading subSize v < leading subSize w) : v.rank < w.rank := by
  rw [← (rank_div hsub v).1, ← (rank_div hsub w).1] at h
  exact Nat.lt_of_div_lt_div h

theorem leading_le_of_rank_le (hsub : subSize ≤ size) {v w : FixedBytes size}
    (h : v.rank ≤ w.rank) : leading subSize v ≤ leading subSize w := by
  rw [← (rank_div hsub v).1, ← (rank_div hsub w).1]
  exact Nat.div_le_div_right h

theorem rank_eq (hsub : subSize ≤ size) (v : FixedBytes size) :
    v.rank = leading subSize v * behind size subSize + v.rank % behind size subSize := by
  rw [← (rank_div hsub v).1, Nat.mul_comm]
  exact (Nat.div_add_mod _ _).symm

end Leading

/-! ## What the steps are for -/

variable {type : ByteOrdered size}

def Least (P : FixedBytes size → Prop) (v : FixedBytes size) : Prop :=
  P v ∧ ∀ w, P w → v.rank ≤ w.rank

def Greatest (P : FixedBytes size → Prop) (v : FixedBytes size) : Prop :=
  P v ∧ ∀ w, P w → w.rank ≤ v.rank

/-- Two values satisfy both bounds of one range. -/
def SameRange (type : ByteOrdered size) :
    FixedFieldFilter size → FixedBytes size → FixedBytes size → Prop
  | wild, _, _ => True
  | single value, v, w => type.compare v value = 0 ∧ type.compare w value = 0
  | set subSize subType transitions, v, w =>
    ∃ range, ∃ h : range * 2 + 1 < transitions.length,
      ∀ x ∈ [FixedBytes.read v.bytes 0 subSize, .read w.bytes 0 subSize],
        0 ≤ transitions[range * 2].compareField subType.toRtlTypeInfo x ∧
          transitions[range * 2 + 1].compareField subType.toRtlTypeInfo x ≤ 0

/-- The four operations, on a field at an offset of a buffer: each changes only the field.  `stays`
tells which values `endRange` goes on to from a value. -/
structure Steps (type : ByteOrdered size) (f : FixedFieldFilter size)
    (stays : FixedBytes size → FixedBytes size → Prop) (buffer : List UInt8) (offset : ℕ) :
    Prop where
  setLow : ∃ v : FixedBytes size, f.setLow buffer offset = some (put buffer offset v.bytes) ∧
    Least (fun v => f.matchesField type v = true) v
  setHigh : ∃ v : FixedBytes size, f.setHigh buffer offset = some (put buffer offset v.bytes) ∧
    Greatest (fun v => f.matchesField type v = true) v
  incrementKey : ∃ (ok : Bool) (v : FixedBytes size),
    f.incrementKey type buffer offset = some (ok, put buffer offset v.bytes) ∧
      (ok = true → Least (fun v => f.matchesField type v = true ∧
        (FixedBytes.read buffer offset size).rank < v.rank) v) ∧
      (ok = false → ¬∃ v, f.matchesField type v = true ∧
        (FixedBytes.read buffer offset size).rank < v.rank)
  endRange : f.matchesField type (.read buffer offset size) = true →
    ∃ v : FixedBytes size, f.endRange buffer offset = some (put buffer offset v.bytes) ∧
      Greatest (fun v => (FixedBytes.read buffer offset size).rank ≤ v.rank ∧
        ∀ x : FixedBytes size, (FixedBytes.read buffer offset size).rank ≤ x.rank →
          x.rank ≤ v.rank → stays (.read buffer offset size) x) v

/-- The set of a filter is in order, and its values are not longer than the field. -/
def InOrder : FixedFieldFilter size → Prop
  | wild => True
  | single _ => True
  | set subSize subType transitions =>
    subSize ≤ size ∧ BoundRanks.InOrder subType.toRtlTypeInfo transitions

def Unnested : FixedFieldFilter size → Prop
  | wild => True
  | single _ => True
  | set _ _ transitions => BoundRanks.Unnested transitions

/-- When the steps of a set from a value of the field are right. -/
structure SetSteps (subSize : ℕ) (transitions : List (ValueTransition (FixedBytes subSize)))
    (b : FixedBytes size) : Prop where
  unnested : BoundRanks.Unnested transitions
  /-- the first value behind the first lower bound is in the set -/
  first : ∀ h : 0 < transitions.length, Member transitions (cut transitions[0])
  /-- and the last value before the last upper bound -/
  last : ∀ h : transitions.length - 1 < transitions.length,
    0 < cut transitions[transitions.length - 1] ∧
      Member transitions (cut transitions[transitions.length - 1] - 1)
  /-- a value of the set is the last one with its leading bytes -/
  matching : Member transitions (leading subSize b) → ∀ byte ∈ b.bytes.drop subSize, byte = 0xff
  /-- or it is behind the set, and the next leading bytes are in the set: then it has the lowest
  bytes behind the leading ones -/
  entering : Member transitions (leading subSize b + 1) → ∀ byte ∈ b.bytes.drop subSize, byte = 0
  /-- or the first value behind the next lower bound is in the set -/
  next : ¬Member transitions (leading subSize b + 1) →
    ∀ r (h : r * 2 < transitions.length), leading subSize b + 1 < cut transitions[r * 2] →
      (∀ i (_ : i < r), cut transitions[i * 2] ≤ leading subSize b + 1) →
        Member transitions (cut transitions[r * 2])

def HoldsWhen : FixedFieldFilter size → FixedBytes size → Prop
  | wild, _ => True
  | single _, _ => True
  | set subSize _ transitions, b => SetSteps subSize transitions b

/-- The range of a value is not followed at once by another one. -/
def Apart : FixedFieldFilter size → FixedBytes size → Prop
  | wild, _ => True
  | single _, _ => True
  | set subSize _ transitions, b =>
    ∀ r (h : r * 2 + 1 < transitions.length), Within transitions (leading subSize b) r →
      ¬Member transitions (cut transitions[r * 2 + 1])

/-! ## The next value of a set -/

section Next

variable {subSize : ℕ} {M : ℕ → Prop} {b w : FixedBytes size}

/-- Without leading bytes of the set behind those of a value, there is a greater value when the
value is in the set and not the last one with its leading bytes. -/
theorem none_above_iff (hsub : subSize ≤ size) (hM : ∀ q, M q → q ≤ leading subSize b) :
    (¬∃ v : FixedBytes size, M (leading subSize v) ∧ b.rank < v.rank) ↔
      (M (leading subSize b) → b.rank % behind size subSize + 1 = behind size subSize) := by
  have hmod := Nat.mod_lt b.rank (behind_pos size subSize)
  constructor
  · intro hnone hp
    by_contra hne
    obtain ⟨v, hv, hlead⟩ := exists_of_leading hsub (leading_lt subSize b)
      (lt_of_le_of_ne hmod hne)
    refine hnone ⟨v, hlead.symm ▸ hp, ?_⟩
    rw [hv, Nat.add_succ, ← rank_eq hsub b]
    exact Nat.lt_succ_self _
  · rintro htail ⟨v, hv, hlt⟩
    have heq := le_antisymm (hM _ hv) (leading_le_of_rank_le hsub hlt.le)
    rw [heq] at hv
    have hvmod := Nat.mod_lt v.rank (behind_pos size subSize)
    have hveq := rank_eq hsub v
    have hbeq := rank_eq hsub b
    have htop := htail hv
    rw [heq] at hveq
    omega

/-- The next value of the set has the lowest bytes behind the next leading bytes of the set, unless
there is a value with the leading bytes of the given one. -/
theorem least_above_iff (hsub : subSize ≤ size) (hlt : leading subSize b < leading subSize w)
    (hw : M (leading subSize w))
    (hM : ∀ q, M q → leading subSize b < q → leading subSize w ≤ q) :
    Least (fun v : FixedBytes size => M (leading subSize v) ∧ b.rank < v.rank) w ↔
      (M (leading subSize b) → b.rank % behind size subSize + 1 = behind size subSize) ∧
        w.rank % behind size subSize = 0 := by
  have hmod := Nat.mod_lt b.rank (behind_pos size subSize)
  have hbw := rank_lt_of_leading_lt hsub hlt
  have hweq := rank_eq hsub w
  constructor
  · rintro ⟨-, hleast⟩
    constructor
    · intro hp
      by_contra hne
      obtain ⟨v, hv, hlead⟩ := exists_of_leading hsub (leading_lt subSize b)
        (lt_of_le_of_ne hmod hne)
      have hvw : v.rank < w.rank := rank_lt_of_leading_lt hsub (hlead.symm ▸ hlt)
      refine absurd hvw (Nat.not_lt.mpr (hleast v ⟨hlead.symm ▸ hp, ?_⟩))
      rw [hv, Nat.add_succ, ← rank_eq hsub b]
      exact Nat.lt_succ_self _
    · obtain ⟨v, hv, hlead⟩ := exists_of_leading hsub (leading_lt subSize w)
        (behind_pos size subSize)
      have hle := hleast v ⟨hlead.symm ▸ hw, rank_lt_of_leading_lt hsub (hlead.symm ▸ hlt)⟩
      omega
  · rintro ⟨htail, hzero⟩
    refine ⟨⟨hw, hbw⟩, fun v hv => ?_⟩
    rcases (leading_le_of_rank_le hsub hv.2.le).eq_or_lt with heq | hgt
    · have hvmod := Nat.mod_lt v.rank (behind_pos size subSize)
      have hveq := rank_eq hsub v
      have hbeq := rank_eq hsub b
      have htop := htail (heq.symm ▸ hv.1)
      have hbv := hv.2
      rw [← heq] at hveq
      omega
    · have hle := Nat.mul_le_mul_right (behind size subSize) (hM _ hv.1 hgt)
      have hveq := rank_eq hsub v
      omega

end Next

/-! ## The buffer -/

section Buffer

variable {subSize : ℕ} {buffer : List UInt8} {offset : ℕ}

/-- A field can be made from its leading bytes and the bytes behind them. -/
theorem exists_append (hsub : subSize ≤ size) (ptr : FixedBytes subSize) {rest : List UInt8}
    (hrest : rest.length = size - subSize) : ∃ w : FixedBytes size,
      w.bytes = ptr.bytes ++ rest ∧ leading subSize w = ptr.rank ∧ w.bytes.drop subSize = rest := by
  have hsize : (ptr.bytes ++ rest).length = size := by
    rw [List.length_append, ptr.length_bytes, hrest, Nat.add_sub_cancel' hsub]
  obtain ⟨w, hw⟩ : ∃ w : FixedBytes size, w.bytes = ptr.bytes ++ rest := ⟨⟨_, hsize⟩, rfl⟩
  refine ⟨w, hw, ?_, ?_⟩
  · rw [leading_eq hsub, hw, List.take_left' ptr.length_bytes]
    rfl
  · rw [hw, List.drop_left' ptr.length_bytes]

/-- `storeBound` writes the field that begins with the bound. -/
theorem storeBound_eq (hsub : subSize ≤ size) (hlen : offset + size ≤ buffer.length) (fill : UInt8)
    (bound : FixedBytes subSize) : ∃ w : FixedBytes size,
      storeBound size fill bound buffer offset = put buffer offset w.bytes ∧
        leading subSize w = bound.rank ∧ w.bytes.drop subSize = List.replicate (size - subSize) fill := by
  obtain ⟨w, hw, hlead, hdrop⟩ := exists_append hsub bound
    (List.length_replicate (n := size - subSize) (a := fill))
  refine ⟨w, ?_, hlead, hdrop⟩
  have hfit : offset + bound.bytes.length + (List.replicate (size - subSize) fill).length ≤
      buffer.length := by
    rw [bound.length_bytes, List.length_replicate]
    omega
  have hput := put_put_append hfit
  rw [bound.length_bytes] at hput
  rw [hw, ← hput]
  rfl

/-- The leading bytes of the field at an offset are at the offset. -/
theorem leading_read (hsub : subSize ≤ size) (hlen : offset + size ≤ buffer.length) :
    leading subSize (FixedBytes.read buffer offset size) =
      (FixedBytes.read buffer offset subSize).rank := by
  rw [leading_eq hsub]
  refine congrArg number ?_
  show (slice buffer offset size).take subSize = slice buffer offset subSize
  rw [slice_eq hlen, slice_eq ((Nat.add_le_add_left hsub _).trans hlen), List.take_take,
    Nat.min_eq_left hsub]

/-- Writing the leading bytes leaves the bytes behind them. -/
theorem put_leading_eq (hsub : subSize ≤ size) (hlen : offset + size ≤ buffer.length)
    (ptr : FixedBytes subSize) : ∃ w : FixedBytes size,
      put buffer offset ptr.bytes = put buffer offset w.bytes ∧ leading subSize w = ptr.rank ∧
        w.bytes.drop subSize = (FixedBytes.read buffer offset size).bytes.drop subSize := by
  obtain ⟨w, hw, hlead, hdrop⟩ := exists_append hsub ptr
    (length_slice buffer (offset + subSize) (size - subSize))
  have hbehind : offset + subSize + (size - subSize) ≤ buffer.length := by omega
  refine ⟨w, ?_, hlead, ?_⟩
  · have hfit : offset + ptr.bytes.length + (size - subSize) ≤ buffer.length := by
      rw [ptr.length_bytes]
      exact hbehind
    have hput := put_append_slice hfit
    rw [ptr.length_bytes] at hput
    rw [hw, hput]
  · have hbytes : (FixedBytes.read buffer offset size).bytes = slice buffer offset size := rfl
    rw [hdrop, hbytes, slice_eq hlen, List.drop_take, List.drop_drop, slice_eq hbehind]

/-- What is written is known from the buffer. -/
theorem put_bytes_injective (hlen : offset + size ≤ buffer.length) {v w : FixedBytes size}
    (h : put buffer offset v.bytes = put buffer offset w.bytes) : v = w := by
  rw [← FixedBytes.read_put_self v hlen, h, FixedBytes.read_put_self w hlen]

theorem writes_iff (hlen : offset + size ≤ buffer.length) {w : FixedBytes size}
    {P : FixedBytes size → Prop} :
    (∃ v : FixedBytes size, some (put buffer offset w.bytes) = some (put buffer offset v.bytes) ∧
      P v) ↔ P w := by
  constructor
  · rintro ⟨v, heq, hv⟩
    rw [put_bytes_injective hlen (Option.some.inj heq)]
    exact hv
  · exact fun hw => ⟨w, rfl, hw⟩

theorem increments_iff (hlen : offset + size ≤ buffer.length) {ok : Bool} {w : FixedBytes size}
    {result : Option (Bool × List UInt8)} (h : result = some (ok, put buffer offset w.bytes))
    {P : FixedBytes size → Prop} {Q : Prop} :
    (∃ (ok : Bool) (v : FixedBytes size), result = some (ok, put buffer offset v.bytes) ∧
      (ok = true → P v) ∧ (ok = false → Q)) ↔ if ok then P w else Q := by
  rw [h]
  constructor
  · rintro ⟨ok', v, heq, hP, hQ⟩
    have hpair := Prod.mk.inj (Option.some.inj heq)
    rw [put_bytes_injective hlen hpair.2, hpair.1]
    split
    · rename_i hok
      exact hP hok
    · rename_i hok
      exact hQ (Bool.eq_false_iff.mpr hok)
  · intro hif
    refine ⟨ok, w, rfl, fun hok => ?_, fun hok => ?_⟩
    · rwa [if_pos hok] at hif
    · rwa [if_neg (hok ▸ Bool.false_ne_true)] at hif

end Buffer

/-! ## The steps of a set -/

section Set

variable {subSize : ℕ} {subType : PrefixOrdered subSize}
  {ts : List (ValueTransition (FixedBytes subSize))} {buffer : List UInt8} {offset : ℕ}

theorem matches_set_iff (ho : BoundRanks.InOrder subType.toRtlTypeInfo ts)
    (hn : BoundRanks.Unnested ts) (v : FixedBytes size) :
    (set subSize subType ts : FixedFieldFilter size).matchesField type v = true ↔
      Member ts (leading subSize v) :=
  ho.matchesField_iff hn (.read v.bytes 0 subSize)

theorem lt_of_member (ho : BoundRanks.InOrder subType.toRtlTypeInfo ts) {q : ℕ}
    (hq : Member ts q) : q < 256 ^ subSize := by
  obtain ⟨r, hup, _, hlt⟩ := hq
  exact hlt.trans_le ((cut_le_hi _).trans (ho.bound_getElem hup).hi_le)

theorem setLow_iff (hsub : subSize ≤ size) (hlen : offset + size ≤ buffer.length)
    (ho : BoundRanks.InOrder subType.toRtlTypeInfo ts) (hn : BoundRanks.Unnested ts)
    (hts : 0 < ts.length) :
    (∃ v : FixedBytes size,
      (set subSize subType ts : FixedFieldFilter size).setLow buffer offset = some (put buffer offset v.bytes) ∧
        Least (fun v => (set subSize subType ts : FixedFieldFilter size).matchesField type v = true) v) ↔
      Member ts (cut ts[0]) := by
  obtain ⟨w, hput, hlead, hdrop⟩ := storeBound_eq hsub hlen 0 ts[0].setLow
  have hset : (set subSize subType ts : FixedFieldFilter size).setLow buffer offset =
      some (put buffer offset w.bytes) := by
    unfold FixedFieldFilter.setLow
    dsimp only
    rw [List.getElem?_eq_getElem hts, ← hput]
    rfl
  have hzero : w.rank % behind size subSize = 0 := by
    rw [← bytes_behind_low_iff hsub, hdrop]
    exact fun byte hbyte => List.eq_of_mem_replicate hbyte
  have hfirst : ∀ q, Member ts q → cut ts[0] ≤ q := fun q hq => ho.first_cut_le hn hq hts
  have hlower : ts[0].isLowerBound = true := @InOrder.lower subSize subType ts 0 ho hts
  simp only [@matches_set_iff size type subSize subType ts ho hn]
  rw [hset, writes_iff hlen]
  constructor
  · rintro ⟨hw, -⟩
    rw [hlead] at hw
    have hcut := (hfirst _ hw).trans_lt (lt_of_member ho hw)
    rwa [(ho.bound_getElem hts).rank_setLow hlower hcut] at hw
  · intro hcut
    rw [(ho.bound_getElem hts).rank_setLow hlower (lt_of_member ho hcut)] at hlead
    have hw : Member ts (leading subSize w) := hlead.symm ▸ hcut
    refine ⟨hw, fun v hv => ?_⟩
    have hle := Nat.mul_le_mul_right (behind size subSize) (hfirst _ hv)
    rw [rank_eq hsub w, rank_eq hsub v, hzero, hlead, Nat.add_zero]
    exact hle.trans (Nat.le_add_right _ _)

theorem setHigh_iff (hsub : subSize ≤ size) (hlen : offset + size ≤ buffer.length)
    (ho : BoundRanks.InOrder subType.toRtlTypeInfo ts) (hn : BoundRanks.Unnested ts)
    (hts : ts.length - 1 < ts.length) (hsome : ∃ q, Member ts q) :
    (∃ v : FixedBytes size,
      (set subSize subType ts : FixedFieldFilter size).setHigh buffer offset = some (put buffer offset v.bytes) ∧
        Greatest (fun v => (set subSize subType ts : FixedFieldFilter size).matchesField type v = true) v) ↔
      0 < cut ts[ts.length - 1] ∧ Member ts (cut ts[ts.length - 1] - 1) := by
  obtain ⟨w, hput, hlead, hdrop⟩ := storeBound_eq hsub hlen 0xff ts[ts.length - 1].setHigh
  have hset : (set subSize subType ts : FixedFieldFilter size).setHigh buffer offset =
      some (put buffer offset w.bytes) := by
    unfold FixedFieldFilter.setHigh
    dsimp only
    rw [List.getElem?_eq_getElem hts, ← hput]
    rfl
  have htop : w.rank % behind size subSize + 1 = behind size subSize := by
    rw [← bytes_behind_high_iff hsub, hdrop]
    exact fun byte hbyte => List.eq_of_mem_replicate hbyte
  obtain ⟨r, hr, hidx⟩ : ∃ r, r + 1 = numRanges ts ∧ ts.length - 1 = r * 2 + 1 := by
    have hlength := ho.length_eq
    exact ⟨numRanges ts - 1, by omega, by omega⟩
  have hbound := ho.bound_getElem hts
  have hlast : ∀ q, Member ts q → q < cut ts[ts.length - 1] := by
    intro q hq
    simp only [hidx]
    exact ho.lt_last_cut hn hq hr (hidx ▸ hts)
  have hupper : ts[ts.length - 1].isLowerBound = false := by
    simp only [hidx]
    exact ho.upper (hidx ▸ hts)
  obtain ⟨q, hq⟩ := hsome
  have hpos : 0 < cut ts[ts.length - 1] := (Nat.zero_le q).trans_lt (hlast q hq)
  have hrank := hbound.rank_setHigh hupper hpos
  have hpred : cut ts[ts.length - 1] - 1 = leading subSize w := by
    rw [hlead, ← hrank, Nat.add_sub_cancel]
  simp only [@matches_set_iff size type subSize subType ts ho hn]
  rw [hset, writes_iff hlen, hpred]
  constructor
  · exact fun hw => ⟨hpos, hw.1⟩
  · rintro ⟨-, hw⟩
    refine ⟨hw, fun v hv => ?_⟩
    have hle : leading subSize v ≤ leading subSize w :=
      hpred ▸ Nat.le_sub_one_of_lt (hlast _ hv)
    rcases hle.eq_or_lt with heq | hlt
    · have hmod := Nat.mod_lt v.rank (behind_pos size subSize)
      have hveq := rank_eq hsub v
      have hweq := rank_eq hsub w
      rw [heq] at hveq
      omega
    · exact (rank_lt_of_leading_lt hsub hlt).le

/-- The step to the next value, with leading bytes that are found in the set. -/
theorem incrementKey_iff (hsub : subSize ≤ size) (hlen : offset + size ≤ buffer.length)
    (ho : BoundRanks.InOrder subType.toRtlTypeInfo ts) (hn : BoundRanks.Unnested ts)
    {b : FixedBytes size} (hb : b = .read buffer offset size) :
    (∃ (ok : Bool) (v : FixedBytes size),
      (set subSize subType ts : FixedFieldFilter size).incrementKey type buffer offset =
        some (ok, put buffer offset v.bytes) ∧
      (ok = true → Least (fun v => (set subSize subType ts : FixedFieldFilter size).matchesField
        type v = true ∧ b.rank < v.rank) v) ∧
      (ok = false → ¬∃ v, (set subSize subType ts : FixedFieldFilter size).matchesField
        type v = true ∧ b.rank < v.rank)) ↔
      (Member ts (leading subSize b) → ∀ byte ∈ b.bytes.drop subSize, byte = 0xff) ∧
      (Member ts (leading subSize b + 1) → ∀ byte ∈ b.bytes.drop subSize, byte = 0) ∧
      (¬Member ts (leading subSize b + 1) →
        ∀ r (h : r * 2 < ts.length), leading subSize b + 1 < cut ts[r * 2] →
          (∀ i (_ : i < r), cut ts[i * 2] ≤ leading subSize b + 1) →
            Member ts (cut ts[r * 2])) := by
  subst hb
  have hp := leading_read hsub hlen
  have hspec := (FixedBytes.read buffer offset subSize).increment_spec
  obtain ⟨w, hput, hlead, hdrop⟩ := put_leading_eq hsub hlen
    (FixedBytes.read buffer offset subSize).increment.2
  simp only [@matches_set_iff size type subSize subType ts ho hn]
  have hcode : (set subSize subType ts : FixedFieldFilter size).incrementKey type buffer offset =
      if (FixedBytes.read buffer offset subSize).increment.1 then
        match findForwardMatchRange subType.toRtlTypeInfo ts
          (FixedBytes.read buffer offset subSize).increment.2 with
        | (true, _) => some (true, put buffer offset w.bytes)
        | (false, nextRange) =>
          if nextRange = numRanges ts then some (false, put buffer offset w.bytes)
          else ts[nextRange * 2]?.map
            (fun t => (true, storeBound size 0 t.setLow (put buffer offset w.bytes) offset))
      else some (false, put buffer offset w.bytes) := by
    rw [← hput]
    rfl
  rw [bytes_behind_high_iff hsub, bytes_behind_low_iff hsub]
  generalize FixedBytes.read buffer offset size = b at hp hdrop ⊢
  rw [← hp] at hspec
  by_cases hok : (FixedBytes.read buffer offset subSize).increment.1 = true
  · rw [if_pos hok] at hcode hspec
    rw [hspec] at hlead
    have hloc := ho.findForwardMatchRange_spec hn (FixedBytes.read buffer offset subSize).increment.2
    rw [hspec] at hloc
    generalize findForwardMatchRange subType.toRtlTypeInfo ts
      (FixedBytes.read buffer offset subSize).increment.2 = found at hcode hloc
    match found with
    | (true, r) =>
      -- the leading bytes behind those of the field are in the set
      have hmem : Member ts (leading subSize b + 1) := ⟨r, hloc⟩
      rw [increments_iff hlen hcode, if_pos rfl, least_above_iff hsub
        (hlead.symm ▸ Nat.lt_succ_self _) (hlead.symm ▸ hmem)
        (fun q _ hq => hlead.symm ▸ hq), (rank_div hsub w).2, hdrop, (rank_div hsub b).2]
      exact ⟨fun h => ⟨h.1, fun _ => h.2, fun hc => absurd hmem hc⟩,
        fun h => ⟨h.1, h.2.1 hmem⟩⟩
    | (false, r) =>
      have hnot : ¬Member ts (leading subSize b + 1) := Locates.not_member hloc
      dsimp only at hcode
      by_cases hend : r = numRanges ts
      · -- no range is left
        rw [if_pos hend] at hcode
        have hnone : ∀ q, Member ts q → q ≤ leading subSize b := by
          intro q hq
          by_contra hgt
          obtain ⟨hr, -⟩ := ho.cut_le_of_locates hn hloc hq (Nat.not_le.mp hgt)
          exact absurd (ho.lt_numRanges ((Nat.lt_succ_self _).trans hr)) (hend ▸ Nat.lt_irrefl _)
        rw [increments_iff hlen hcode, if_neg Bool.false_ne_true, none_above_iff hsub hnone]
        refine ⟨fun h => ⟨h, fun hc => absurd hc hnot, fun _ i hi hgt _ => ?_⟩, fun h => h.1⟩
        have hlow := hloc.2.1 i (ho.upper_lt (ho.lt_numRanges hi)) (hend ▸ ho.lt_numRanges hi)
        exact absurd hgt (Nat.not_lt.mpr hlow.1)
      · -- the lower bound of the next range
        have hr : r < numRanges ts := lt_of_le_of_ne hloc.1 hend
        have hup := ho.upper_lt hr
        have hlo : r * 2 < ts.length := (Nat.lt_succ_self _).trans hup
        have hgt := hloc.2.2 r hlo le_rfl
        have hfit : offset + size ≤ (put buffer offset w.bytes).length := by
          rw [length_put (by rw [w.length_bytes]; exact hlen)]
          exact hlen
        obtain ⟨u, huput, hulead, hudrop⟩ := storeBound_eq hsub hfit 0 ts[r * 2].setLow
        have htwice : put (put buffer offset w.bytes) offset u.bytes = put buffer offset u.bytes :=
          put_put_same (by rw [u.length_bytes, w.length_bytes]) (by rw [w.length_bytes]; exact hlen)
        rw [if_neg hend, List.getElem?_eq_getElem hlo, Option.map_some, huput, htwice] at hcode
        have huzero : u.rank % behind size subSize = 0 := by
          rw [← bytes_behind_low_iff hsub, hudrop]
          exact fun byte hbyte => List.eq_of_mem_replicate hbyte
        have hnext : ∀ q, Member ts q → leading subSize b < q → cut ts[r * 2] ≤ q :=
          fun q hq hgt => (ho.cut_le_of_locates hn hloc hq hgt).2
        have honly : (¬Member ts (leading subSize b + 1) →
            ∀ i (h : i * 2 < ts.length), leading subSize b + 1 < cut ts[i * 2] →
              (∀ j (_ : j < i), cut ts[j * 2] ≤ leading subSize b + 1) →
                Member ts (cut ts[i * 2])) ↔ Member ts (cut ts[r * 2]) := by
          constructor
          · refine fun h => h hnot r hlo hgt (fun j hj => ?_)
            exact (hloc.2.1 j (by omega) hj).1
          · intro h _ i hi hgti hbefore
            rcases Nat.lt_trichotomy i r with hlt | rfl | hlater
            · have hlow := hloc.2.1 i (ho.upper_lt (ho.lt_numRanges hi)) hlt
              exact absurd hgti (Nat.not_lt.mpr hlow.1)
            · exact h
            · exact absurd hgt (Nat.not_lt.mpr (hbefore r hlater))
        rw [increments_iff hlen hcode, if_pos rfl, honly]
        have hrank : Member ts (cut ts[r * 2]) → leading subSize u = cut ts[r * 2] := fun hc => by
          rw [hulead, (ho.bound_getElem hlo).rank_setLow (ho.lower hlo) (lt_of_member ho hc)]
        have hiff : Member ts (cut ts[r * 2]) →
            (Least (fun v => Member ts (leading subSize v) ∧ b.rank < v.rank) u ↔
              (Member ts (leading subSize b) →
                b.rank % behind size subSize + 1 = behind size subSize) ∧
                u.rank % behind size subSize = 0) := by
          intro hc
          have hu := hrank hc
          refine least_above_iff hsub ?_ (hu.symm ▸ hc) (fun q hq hgt => hu.symm ▸ hnext q hq hgt)
          rw [hu]
          exact (Nat.lt_succ_self _).trans hgt
        constructor
        · intro hleast
          have hmem := hleast.1.1
          have hlt : leading subSize b < leading subSize u := by
            refine lt_of_le_of_ne (leading_le_of_rank_le hsub hleast.1.2.le) (fun heq => ?_)
            have hueq := rank_eq hsub u
            have hbeq := rank_eq hsub b
            have hbu := hleast.1.2
            rw [← heq] at hueq
            omega
          have hcut : cut ts[r * 2] < 256 ^ subSize :=
            (hnext _ hmem hlt).trans_lt (lt_of_member ho hmem)
          rw [hulead, (ho.bound_getElem hlo).rank_setLow (ho.lower hlo) hcut] at hmem
          exact ⟨((hiff hmem).mp hleast).1, fun hc => absurd hc hnot, hmem⟩
        · exact fun h => (hiff h.2.2).mpr ⟨h.1, huzero⟩
  · -- the leading bytes are the greatest ones
    rw [if_neg hok] at hcode hspec
    have hnone : ∀ q, Member ts q → q ≤ leading subSize b := fun q hq =>
      Nat.lt_succ_iff.mp ((lt_of_member ho hq).trans_eq hspec.1.symm)
    have hnot : ¬Member ts (leading subSize b + 1) := fun hc =>
      absurd (lt_of_member ho hc) (hspec.1 ▸ Nat.lt_irrefl _)
    rw [increments_iff hlen hcode, if_neg Bool.false_ne_true, none_above_iff hsub hnone]
    refine ⟨fun h => ⟨h, fun hc => absurd hc hnot, fun _ i hi hgt _ => ?_⟩, fun h => h.1⟩
    have hle := (cut_le_hi ts[i * 2]).trans (ho.bound_getElem hi).hi_le
    exact absurd hgt (Nat.not_lt.mpr (hspec.1 ▸ hle))

/-- The bounds of a range, compared with the leading bytes of a field. -/
theorem sameRange_iff (ho : BoundRanks.InOrder subType.toRtlTypeInfo ts) {v w : FixedBytes size} :
    (set subSize subType ts : FixedFieldFilter size).SameRange type v w ↔
      ∃ r, Within ts (leading subSize v) r ∧ Within ts (leading subSize w) r := by
  have hone : ∀ r (h : r * 2 + 1 < ts.length) (x : FixedBytes subSize),
      (0 ≤ ts[r * 2].compareField subType.toRtlTypeInfo x ∧
        ts[r * 2 + 1].compareField subType.toRtlTypeInfo x ≤ 0) ↔
        cut ts[r * 2] ≤ x.rank ∧ x.rank < cut ts[r * 2 + 1] := by
    intro r h x
    have hlo : r * 2 < ts.length := (Nat.lt_succ_self _).trans h
    have hneg := @IsBound.compareField_neg_iff _ subType _ (ho.bound_getElem hlo) (ho.lower hlo) x
    have hpos := @IsBound.compareField_pos_iff _ subType _ (ho.bound_getElem h) (ho.upper h) x
    rw [← not_lt, hneg, Nat.not_lt, ← not_lt (a := (0 : ℤ)), hpos, Nat.not_le]
  constructor
  · rintro ⟨r, h, hboth⟩
    exact ⟨r, ⟨h, (hone r h _).mp (hboth _ List.mem_cons_self)⟩,
      ⟨h, (hone r h _).mp (hboth _ (List.mem_cons_of_mem _ List.mem_cons_self))⟩⟩
  · rintro ⟨r, ⟨h, hv⟩, ⟨_, hw⟩⟩
    refine ⟨r, h, fun x hx => ?_⟩
    rcases List.mem_cons.mp hx with rfl | hx
    · exact (hone r h _).mpr hv
    · rw [List.mem_singleton.mp hx]
      exact (hone r h _).mpr hw

/-- `endRange` goes to the last value of the range. -/
theorem endRange_spec (hsub : subSize ≤ size) (hlen : offset + size ≤ buffer.length)
    (ho : BoundRanks.InOrder subType.toRtlTypeInfo ts) (hn : BoundRanks.Unnested ts)
    (hb : Member ts (leading subSize (.read buffer offset size : FixedBytes size))) :
    ∃ (r : ℕ) (h : r * 2 + 1 < ts.length) (w : FixedBytes size),
      Within ts (leading subSize (.read buffer offset size : FixedBytes size)) r ∧
      (set subSize subType ts : FixedFieldFilter size).endRange buffer offset =
        some (put buffer offset w.bytes) ∧
      leading subSize w + 1 = cut ts[r * 2 + 1] ∧
      w.rank % behind size subSize + 1 = behind size subSize := by
  have hp := leading_read hsub hlen
  have hloc := ho.findForwardMatchRange_spec hn (.read buffer offset subSize)
  rw [← hp] at hloc
  unfold FixedFieldFilter.endRange
  dsimp only
  generalize findForwardMatchRange subType.toRtlTypeInfo ts (.read buffer offset subSize) = found
    at hloc ⊢
  match found with
  | (false, r) => exact absurd hb (Locates.not_member hloc)
  | (true, r) =>
    obtain ⟨hup, hl, hu⟩ := hloc
    obtain ⟨w, hput, hlead, hdrop⟩ := storeBound_eq hsub hlen 0xff ts[r * 2 + 1].setHigh
    dsimp only at hup hl hu hput hlead ⊢
    refine ⟨r, hup, w, ⟨hup, hl, hu⟩, ?_, ?_, ?_⟩
    · rw [List.getElem?_eq_getElem hup, Option.map_some, hput]
    · rw [hlead]
      exact (ho.bound_getElem hup).rank_setHigh (ho.upper hup) ((Nat.zero_le _).trans_lt hu)
    · rw [← bytes_behind_high_iff hsub, hdrop]
      exact fun byte hbyte => List.eq_of_mem_replicate hbyte

/-- The values with smaller leading bytes are before the last value with given leading bytes. -/
theorem rank_le_last_iff (hsub : subSize ≤ size) {v w : FixedBytes size}
    (hw : w.rank % behind size subSize + 1 = behind size subSize) :
    v.rank ≤ w.rank ↔ leading subSize v < leading subSize w + 1 := by
  constructor
  · exact fun h => Nat.lt_succ_iff.mpr (leading_le_of_rank_le hsub h)
  · intro h
    rcases (Nat.lt_succ_iff.mp h).eq_or_lt with heq | hlt
    · have hmod := Nat.mod_lt v.rank (behind_pos size subSize)
      have hveq := rank_eq hsub v
      have hweq := rank_eq hsub w
      rw [heq] at hveq
      omega
    · exact (rank_lt_of_leading_lt hsub hlt).le

theorem endRange_sameRange (hsub : subSize ≤ size) (hlen : offset + size ≤ buffer.length)
    (ho : BoundRanks.InOrder subType.toRtlTypeInfo ts) (hn : BoundRanks.Unnested ts)
    {b : FixedBytes size} (hb : b = .read buffer offset size)
    (hmem : Member ts (leading subSize b)) :
    ∃ v : FixedBytes size, (set subSize subType ts : FixedFieldFilter size).endRange buffer offset =
      some (put buffer offset v.bytes) ∧
      Greatest (fun v => b.rank ≤ v.rank ∧ ∀ x : FixedBytes size, b.rank ≤ x.rank →
        x.rank ≤ v.rank →
          (set subSize subType ts : FixedFieldFilter size).SameRange type b x) v := by
  subst hb
  obtain ⟨r, hup, w, hin, hend, hcut, htop⟩ := endRange_spec hsub hlen ho hn hmem
  have hlast := fun v => @rank_le_last_iff size subSize hsub v w htop
  rw [hcut] at hlast
  obtain ⟨_, hl, hu⟩ := hin
  refine ⟨w, hend, ⟨(hlast _).mpr hu, fun x hbx hxw => ?_⟩, ?_⟩
  · rw [sameRange_iff ho]
    exact ⟨r, ⟨hup, hl, hu⟩, hup, hl.trans (leading_le_of_rank_le hsub hbx), (hlast x).mp hxw⟩
  · rintro v ⟨hbv, hstays⟩
    obtain ⟨i, hib, hiv⟩ := (sameRange_iff ho).mp (hstays v hbv le_rfl)
    rw [ho.within_unique hib ⟨hup, hl, hu⟩] at hiv
    obtain ⟨_, _, hlt⟩ := hiv
    exact (hlast v).mpr hlt

/-- The values behind the range may be in the set as well. -/
theorem endRange_matching_iff (hsub : subSize ≤ size) (hlen : offset + size ≤ buffer.length)
    (ho : BoundRanks.InOrder subType.toRtlTypeInfo ts) (hn : BoundRanks.Unnested ts)
    {b : FixedBytes size} (hb : b = .read buffer offset size)
    (hmem : Member ts (leading subSize b)) :
    (∃ v : FixedBytes size, (set subSize subType ts : FixedFieldFilter size).endRange buffer offset =
      some (put buffer offset v.bytes) ∧
      Greatest (fun v => b.rank ≤ v.rank ∧ ∀ x : FixedBytes size, b.rank ≤ x.rank →
        x.rank ≤ v.rank →
          (set subSize subType ts : FixedFieldFilter size).matchesField type x = true) v) ↔
      ∀ r (h : r * 2 + 1 < ts.length), Within ts (leading subSize b) r →
        ¬Member ts (cut ts[r * 2 + 1]) := by
  subst hb
  obtain ⟨r, hup, w, hin, hend, hcut, htop⟩ := endRange_spec hsub hlen ho hn hmem
  have hlast := fun v => @rank_le_last_iff size subSize hsub v w htop
  rw [hcut] at hlast
  obtain ⟨_, hl, hu⟩ := hin
  have honly : (∀ i (h : i * 2 + 1 < ts.length),
      Within ts (leading subSize (.read buffer offset size : FixedBytes size)) i →
        ¬Member ts (cut ts[i * 2 + 1])) ↔ ¬Member ts (cut ts[r * 2 + 1]) := by
    constructor
    · exact fun h => h r hup ⟨hup, hl, hu⟩
    · intro h i hi hiw
      obtain rfl := ho.within_unique hiw ⟨hup, hl, hu⟩
      exact h
  simp only [@matches_set_iff size type subSize subType ts ho hn]
  rw [honly, hend, writes_iff hlen]
  constructor
  · rintro ⟨-, hgreatest⟩ hnext
    -- the first value behind the range is in the set
    obtain ⟨v, hv, hlead⟩ := exists_of_leading hsub (lt_of_member ho hnext)
      (behind_pos size subSize)
    have hbehind : ¬v.rank ≤ w.rank := by
      rw [hlast, hlead]
      exact Nat.lt_irrefl _
    refine hbehind (hgreatest v ⟨?_, fun x hbx hxv => ?_⟩)
    · exact (rank_lt_of_leading_lt hsub (hlead.symm ▸ hu)).le
    · have hle := leading_le_of_rank_le hsub hxv
      rw [hlead] at hle
      rcases hle.eq_or_lt with heq | hlt
      · exact heq.symm ▸ hnext
      · exact ⟨r, hup, hl.trans (leading_le_of_rank_le hsub hbx), hlt⟩
  · refine fun hnext => ⟨⟨(hlast _).mpr hu, fun x hbx hxw => ?_⟩, ?_⟩
    · exact ⟨r, hup, hl.trans (leading_le_of_rank_le hsub hbx), (hlast x).mp hxw⟩
    · rintro v ⟨hbv, hstays⟩
      rw [hlast]
      by_contra hge
      have hcutlt : cut ts[r * 2 + 1] < 256 ^ subSize :=
        (Nat.not_lt.mp hge).trans_lt (leading_lt subSize v)
      obtain ⟨x, hx, hlead⟩ := exists_of_leading hsub hcutlt (behind_pos size subSize)
      have hxv : x.rank ≤ v.rank := by
        have hmul := Nat.mul_le_mul_right (behind size subSize) (Nat.not_lt.mp hge)
        have hveq := rank_eq hsub v
        omega
      have hbx := (rank_lt_of_leading_lt hsub (hlead.symm ▸ hu)).le
      exact hnext (hlead ▸ hstays x hbx hxv)

/-- The steps of a set are right when its bounds are, and the bytes behind the leading ones. -/
theorem steps_set_iff (hsub : subSize ≤ size) (hlen : offset + size ≤ buffer.length)
    (ho : BoundRanks.InOrder subType.toRtlTypeInfo ts) (hn : BoundRanks.Unnested ts)
    (hsome : ∃ v : FixedBytes size,
      (set subSize subType ts : FixedFieldFilter size).matchesField type v = true)
    {stays : FixedBytes size → FixedBytes size → Prop} :
    (set subSize subType ts : FixedFieldFilter size).Steps type stays buffer offset ↔
      SetSteps subSize ts (.read buffer offset size : FixedBytes size) ∧
      (Member ts (leading subSize (.read buffer offset size : FixedBytes size)) →
        ∃ v : FixedBytes size,
          (set subSize subType ts : FixedFieldFilter size).endRange buffer offset =
            some (put buffer offset v.bytes) ∧
          Greatest (fun v => (FixedBytes.read buffer offset size).rank ≤ v.rank ∧
            ∀ x : FixedBytes size, (FixedBytes.read buffer offset size).rank ≤ x.rank →
              x.rank ≤ v.rank → stays (.read buffer offset size) x) v) := by
  have hmatches := @matches_set_iff size type subSize subType ts ho hn
  obtain ⟨v, hv⟩ := hsome
  have hmem := (hmatches v).mp hv
  have hpos : 0 < ts.length := by
    obtain ⟨r, hup, -⟩ := hmem
    exact (Nat.zero_le _).trans_lt hup
  have hlast : ts.length - 1 < ts.length := Nat.sub_lt hpos Nat.one_pos
  have hlow := @setLow_iff size type subSize subType ts buffer offset hsub hlen ho hn hpos
  have hhigh := @setHigh_iff size type subSize subType ts buffer offset hsub hlen ho hn hlast
    ⟨_, hmem⟩
  have hincrement := @incrementKey_iff size type subSize subType ts buffer offset hsub hlen ho hn _
    rfl
  constructor
  · intro h
    obtain ⟨hmatching, hentering, hnext⟩ := hincrement.mp h.incrementKey
    exact ⟨⟨hn, fun _ => hlow.mp h.setLow, fun _ => hhigh.mp h.setHigh, hmatching, hentering, hnext⟩,
      fun hb => h.endRange ((hmatches _).mpr hb)⟩
  · rintro ⟨h, hend⟩
    exact ⟨hlow.mpr (h.first hpos), hhigh.mpr (h.last hlast),
      hincrement.mpr ⟨h.matching, h.entering, h.next⟩, fun hb => hend ((hmatches _).mp hb)⟩

end Set

/-! ## The steps of the other filters -/

section Other

variable {buffer : List UInt8} {offset : ℕ} {stays : FixedBytes size → FixedBytes size → Prop}

theorem steps_wild (hstays : ∀ x, stays (.read buffer offset size) x) :
    (wild : FixedFieldFilter size).Steps type stays buffer offset := by
  have hhigh : ∀ v : FixedBytes size, v.rank ≤ (FixedBytes.high : FixedBytes size).rank :=
    fun v => Nat.lt_succ_iff.mp (v.rank_lt.trans_eq FixedBytes.rank_high.symm)
  refine ⟨⟨_, rfl, rfl, fun v _ => ?_⟩, ⟨_, rfl, rfl, fun v _ => hhigh v⟩, ?_,
    fun _ => ⟨_, rfl, ⟨hhigh _, fun x _ _ => hstays x⟩, fun v _ => hhigh v⟩⟩
  · rw [FixedBytes.rank_low]
    exact Nat.zero_le _
  · have hspec := (FixedBytes.read buffer offset size).increment_spec
    refine ⟨(FixedBytes.read buffer offset size).increment.1,
      (FixedBytes.read buffer offset size).increment.2, rfl, fun hok => ?_, fun hok => ?_⟩
    · rw [if_pos hok] at hspec
      exact ⟨⟨rfl, hspec ▸ Nat.lt_succ_self _⟩, fun v hv => hspec.le.trans hv.2⟩
    · rw [if_neg (hok ▸ Bool.false_ne_true)] at hspec
      rintro ⟨v, -, hlt⟩
      exact absurd v.rank_lt (Nat.not_lt.mpr (hspec.1 ▸ hlt))

theorem compare_eq_zero_iff {v w : FixedBytes size} : type.compare v w = 0 ↔ v = w := by
  have hneg := type.neg_iff v w
  have hpos := type.pos_iff v w
  constructor
  · intro h
    refine FixedBytes.rank_injective (le_antisymm ?_ ?_)
    · exact Nat.not_lt.mp (fun hc => (hpos.mpr hc).ne' h)
    · exact Nat.not_lt.mp (fun hc => (hneg.mpr hc).ne h)
  · rintro rfl
    exact le_antisymm (not_lt.mp (fun hc => Nat.lt_irrefl _ (hpos.mp hc)))
      (not_lt.mp (fun hc => Nat.lt_irrefl _ (hneg.mp hc)))

theorem steps_single (hlen : offset + size ≤ buffer.length) {value : FixedBytes size}
    (hstays : ∀ x, stays value x ↔ x = value) :
    (single value).Steps type stays buffer offset := by
  have hmatches : ∀ v, (single value).matchesField type v = true ↔ v = value :=
    fun v => beq_iff_eq.trans compare_eq_zero_iff
  refine ⟨⟨_, rfl, (hmatches _).mpr rfl, fun v hv => ?_⟩,
    ⟨_, rfl, (hmatches _).mpr rfl, fun v hv => ?_⟩, ?_, fun hb => ?_⟩
  · rw [(hmatches v).mp hv]
  · rw [(hmatches v).mp hv]
  · have hself : put buffer offset (FixedBytes.read buffer offset size).bytes = buffer :=
      put_slice_self hlen
    unfold FixedFieldFilter.incrementKey
    dsimp only
    split
    · rename_i hlt
      refine ⟨_, _, rfl, fun _ => ⟨⟨(hmatches _).mpr rfl, (type.neg_iff _ _).mp hlt⟩, ?_⟩,
        fun hok => absurd hok (by decide)⟩
      rintro v ⟨hv, -⟩
      rw [(hmatches v).mp hv]
    · rename_i hge
      refine ⟨false, .read buffer offset size, by rw [hself], fun hok => absurd hok (by decide),
        fun _ => ?_⟩
      rintro ⟨v, hv, hlt⟩
      rw [(hmatches v).mp hv, ← type.neg_iff] at hlt
      exact hge hlt
  · have hself : put buffer offset (FixedBytes.read buffer offset size).bytes = buffer :=
      put_slice_self hlen
    have hvalue := (hmatches _).mp hb
    refine ⟨.read buffer offset size, by rw [hself]; rfl, ⟨le_rfl, fun x hge hle => ?_⟩, ?_⟩
    · rw [hvalue, hstays]
      rw [hvalue] at hge hle
      exact FixedBytes.rank_injective (le_antisymm hle hge)
    · rintro v ⟨hge, hv⟩
      have hlast := hv v hge le_rfl
      rw [hvalue, hstays] at hlast
      rw [hlast, hvalue]

end Other

/-! ### A range of first characters -/

/-- `compareRange` of `RtlDataTypeInfo`, for a fixed size. -/
def dataCompareRange (size lenLeft : ℕ) (left : FixedBytes size) (lenRight : ℕ)
    (right : FixedBytes size) : ℤ :=
  let lenLeft := min lenLeft size
  let lenRight := min lenRight size
  let compared := memcmp (min lenLeft lenRight) left.bytes right.bytes
  if compared ≠ 0 then compared else (lenLeft : ℤ) - (lenRight : ℤ)

theorem dataCompareRange_self {s : ℕ} (hs : s < size) (a b : FixedBytes size) :
    dataCompareRange size s a s b = memcmp s (a.bytes.take s) (b.bytes.take s) := by
  unfold dataCompareRange
  dsimp only
  rw [memcmp_take le_rfl le_rfl, Nat.min_eq_left hs.le, Nat.min_self, sub_self]
  split
  · rfl
  · rename_i hzero
    exact (not_not.mp hzero).symm

theorem length_take {s : ℕ} (hs : s < size) (a : FixedBytes size) : (a.bytes.take s).length = s := by
  rw [List.length_take, a.length_bytes, Nat.min_eq_left hs.le]

/-- `RtlDataTypeInfo` of a fixed size. -/
def dataType (size : ℕ) : PrefixOrdered size where
  compare a b := memcmp size a.bytes b.bytes
  compareRange := dataCompareRange size
  isFixedSize := true
  getMinSize := size
  neg_iff a b := memcmp_neg_iff a.length_bytes b.length_bytes
  pos_iff a b := memcmp_pos_iff a.length_bytes b.length_bytes
  isFixedSize_eq := rfl
  getMinSize_eq := rfl
  range_neg_iff s hs a b := by
    rw [dataCompareRange_self hs]
    exact memcmp_neg_iff (length_take hs a) (length_take hs b)
  range_pos_iff s hs a b := by
    rw [dataCompareRange_self hs]
    exact memcmp_pos_iff (length_take hs a) (length_take hs b)

/-- The bounds 'a' and 'b' of one character. -/
def aAndB : List (ValueTransition (FixedBytes 1)) :=
  [⟨CMPge, MatchFullString, some ⟨[0x61], rfl⟩, by simp⟩,
    ⟨CMPle, MatchFullString, some ⟨[0x62], rfl⟩, by simp⟩]

/-- The values of two characters of which the first is 'a' or 'b'. -/
def aToB : FixedFieldFilter 2 := .set 1 (dataType 1) aAndB

end FixedFieldFilter

end HpccPlatform
