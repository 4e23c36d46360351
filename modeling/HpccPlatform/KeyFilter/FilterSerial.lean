import HpccPlatform.Library.LittleEndian
import HpccPlatform.ValueSet.Operations

/-!
# Field filters in a memory buffer

`serialize(MemoryBuffer)` of the filters of `rtl/eclrtl/rtlnewkey.cpp` and `deserializeFieldFilter`.
A filter starts with the number of its field, packed into groups of seven bits, and a character for
its kind.  A set has the number of its transitions, which is never 1, so that 1 stands for the filter
with a single value; the flags of a transition say whether a value and a sub-length follow.

The reader creates its filters anew: a set with a single value becomes that value, and a set of
everything a wild filter.
-/

namespace HpccPlatform

namespace FilterSerial

open LittleEndian

/-! ## Packed numbers -/

/-- `MemoryBuffer::appendPacked`: bytes with the top bit set until the value is less than 0x80. -/
def appendPacked (value : BitVec 64) : List UInt8 :=
  if 0x80 ≤ value.toNat then
    ⟨value.setWidth 8 ||| 0x80⟩ :: appendPacked (value >>> 7)
  else [⟨value.setWidth 8⟩]
termination_by value.toNat
decreasing_by
  rw [BitVec.toNat_ushiftRight, Nat.shiftRight_eq_div_pow]
  exact Nat.div_lt_self (by omega) (by decide)

/-- The loop of `MemoryBuffer::readPacked`, which fails at the end of the buffer. -/
def readPackedFrom : List UInt8 → BitVec 64 → ℕ → Option (BitVec 64 × List UInt8)
  | [], _, _ => none
  | next :: src, value, shift =>
    let value := value ||| ((next.toBitVec &&& 0x7f).setWidth 64 <<< shift)
    if next.toBitVec &&& 0x80 = 0 then some (value, src) else readPackedFrom src value (shift + 7)

def readPacked (src : List UInt8) : Option (BitVec 64 × List UInt8) := readPackedFrom src 0#64 0

/-- `readPacked` of an unsigned number. -/
def readPackedUnsigned (src : List UInt8) : Option (BitVec 32 × List UInt8) :=
  (readPacked src).map fun r => (r.1.setWidth 32, r.2)

theorem getLsbD_low (i : ℕ) : (0x7f : BitVec 8).getLsbD i = decide (i < 7) := by
  have h := Nat.testBit_two_pow_sub_one 7 i
  have hofNat : (0x7f : BitVec 8).getLsbD i = (decide (i < 8) && Nat.testBit 127 i) :=
    BitVec.getLsbD_ofNat 8 127 i
  rw [hofNat, show (127 : ℕ) = 2 ^ 7 - 1 from rfl, h]
  by_cases hi : i < 7
  · rw [decide_eq_true hi, decide_eq_true (hi.trans (by decide))]
    rfl
  · rw [decide_eq_false hi, Bool.and_false]

/-- Seven bits of a value and the bits above them. -/
theorem low_or_high (value : BitVec 64) (shift : ℕ) :
    ((value.setWidth 8 &&& 0x7f).setWidth 64 <<< shift) ||| ((value >>> 7) <<< (shift + 7)) =
      value <<< shift := by
  rw [Nat.add_comm, BitVec.shiftLeft_add, ← BitVec.shiftLeft_or_distrib]
  congr 1
  apply BitVec.eq_of_getLsbD_eq
  intro i hi
  rw [BitVec.getLsbD_or, BitVec.getLsbD_setWidth, BitVec.getLsbD_and, BitVec.getLsbD_setWidth,
    getLsbD_low, BitVec.getLsbD_shiftLeft, BitVec.getLsbD_ushiftRight, decide_eq_true hi]
  by_cases hlow : i < 7
  · rw [decide_eq_true hlow, decide_eq_true (hlow.trans (by decide))]
    simp
  · rw [decide_eq_false hlow, Nat.add_sub_cancel' (Nat.le_of_not_lt hlow)]
    simp

theorem and_top_iff : ∀ v : BitVec 8, v &&& 0x80 = 0 ↔ v.toNat < 0x80 := by decide

theorem or_top : ∀ v : BitVec 8, (v ||| 0x80) &&& 0x80 ≠ 0 ∧ (v ||| 0x80) &&& 0x7f = v &&& 0x7f := by
  decide

theorem readPackedFrom_append (value acc : BitVec 64) (shift : ℕ) (rest : List UInt8) :
    readPackedFrom (appendPacked value ++ rest) acc shift = some (acc ||| value <<< shift, rest) := by
  induction value using appendPacked.induct generalizing acc shift with
  | case1 value hge ih =>
    obtain ⟨hmore, hlow⟩ := or_top (value.setWidth 8)
    rw [appendPacked, if_pos hge, List.cons_append, readPackedFrom]
    dsimp only
    rw [if_neg hmore, hlow, ih, BitVec.or_assoc, low_or_high]
  | case2 value hlt =>
    have hsmall : value.toNat < 0x80 := Nat.lt_of_not_le hlt
    have htoNat : (value.setWidth 8).toNat = value.toNat := by
      rw [BitVec.toNat_setWidth]
      exact Nat.mod_eq_of_lt (hsmall.trans (by decide))
    have hend : value.setWidth 8 &&& 0x80 = 0 := (and_top_iff _).mpr (htoNat ▸ hsmall)
    have hhigh : value >>> 7 = 0#64 := by
      apply BitVec.eq_of_toNat_eq
      rw [BitVec.toNat_ushiftRight, Nat.shiftRight_eq_div_pow]
      exact Nat.div_eq_of_lt hsmall
    have hall := low_or_high value shift
    rw [hhigh, BitVec.zero_shiftLeft, BitVec.or_zero] at hall
    rw [appendPacked, if_neg hlt, List.singleton_append, readPackedFrom]
    dsimp only
    rw [if_pos hend, hall]

/-- Every 64-bit value is read back. -/
theorem readPacked_append (value : BitVec 64) (rest : List UInt8) :
    readPacked (appendPacked value ++ rest) = some (value, rest) := by
  rw [readPacked, readPackedFrom_append, BitVec.shiftLeft_zero, BitVec.zero_or]

theorem readPackedUnsigned_append (value : BitVec 32) (rest : List UInt8) :
    readPackedUnsigned (appendPacked (value.setWidth 64) ++ rest) = some (value, rest) := by
  rw [readPackedUnsigned, readPacked_append, Option.map_some, BitVec.setWidth_setWidth_of_le _ (by decide),
    BitVec.setWidth_eq]

/-! ## Types, bounds and filters -/

/-- A scalar type: how its values are compared, and how many bytes the value has that a string of
bytes starts with. -/
structure ScalarType extends RtlTypeInfo (List UInt8) where
  size : List UInt8 → ℕ
  order : TotalOrder compare

/-- The bytes of a value, whatever follows them. -/
def ScalarType.IsValue (type : ScalarType) (value : List UInt8) : Prop :=
  ∀ rest, type.size (value ++ rest) = value.length

/-- The type of a field of a record. -/
structure FieldType where
  type : ScalarType
  /-- `info.createRtlTypeInfo()`: the type truncated to a length -/
  subType : BitVec 32 → ScalarType
  /-- `translateScalar` to the truncated type -/
  translateScalar : BitVec 32 → List UInt8 → List UInt8

/-- The fields of a record, by number. -/
abbrev RtlRecord := BitVec 32 → FieldType

abbrev Transition := ValueTransition (List UInt8)

/-- A filter with its field. -/
inductive FieldFilter where
  | wild (field : BitVec 32)
  | single (field : BitVec 32) (value : List UInt8)
  | set (field : BitVec 32) (transitions : List Transition)
  | fixedSubString (field subLength : BitVec 32) (transitions : List Transition)
  | variableSubString (field subLength : BitVec 32) (transitions : List Transition)

namespace FieldFilter

def field : FieldFilter → BitVec 32
  | wild field => field
  | single field _ => field
  | set field _ => field
  | fixedSubString field _ _ => field
  | variableSubString field _ _ => field

/-- `matches`; `row` has the bytes from each field on. -/
def matchesRow (record : RtlRecord) : FieldFilter → (BitVec 32 → List UInt8) → Bool
  | wild _, _ => true
  | single field value, row => (record field).type.compare (row field) value == 0
  | set field transitions, row =>
    ValueSet.matchesField (record field).type.toRtlTypeInfo transitions (row field)
  | fixedSubString field subLength transitions, row =>
    ValueSet.matchesField ((record field).subType subLength).toRtlTypeInfo transitions (row field)
  | variableSubString field subLength transitions, row =>
    let ptr := row field
    let len : BitVec 32 := load 4 ptr 0
    let sub := if subLength ≤ len then ptr.drop 4 else (record field).translateScalar subLength ptr
    ValueSet.matchesField ((record field).subType subLength).toRtlTypeInfo transitions sub

end FieldFilter

/-! ## Writing -/

/-- The flags as they are written. -/
def maskByte (mask : TransitionMask) : BitVec 8 :=
  (if mask.lt then 0x01 else 0) ||| (if mask.eq then 0x02 else 0) |||
    (if mask.gt then 0x04 else 0) ||| (if mask.min then 0x08 else 0) |||
    (if mask.max then 0x10 else 0)

def CMPsubstring : BitVec 8 := 0x40
def CMPnovalue : BitVec 8 := 0x80

/-- The first byte that is written of a transition. -/
def outmask (t : Transition) : BitVec 8 :=
  maskByte t.mask ||| (if t.value = none then CMPnovalue else 0) |||
    (if t.matchSubString then CMPsubstring else 0)

def valueBytes (type : ScalarType) (t : Transition) : List UInt8 :=
  match t.value with
  | some value => value.take (type.size value)
  | none => []

def subLengthBytes (t : Transition) : List UInt8 :=
  if t.matchSubString then appendPacked (BitVec.ofNat 64 t.subLength) else []

/-- `ValueTransition::serialize` -/
def serializeTransition (type : ScalarType) (t : Transition) : List UInt8 :=
  ⟨outmask t⟩ :: (valueBytes type t ++ subLengthBytes t)

/-- `ValueSet::serialize` -/
def serializeSet (type : ScalarType) (transitions : List Transition) : List UInt8 :=
  appendPacked (BitVec.ofNat 64 transitions.length) ++
    transitions.flatMap (serializeTransition type)

/-- `serialize(MemoryBuffer)` of the filters. -/
def FieldFilter.serialize (record : RtlRecord) : FieldFilter → List UInt8
  | wild field => appendPacked (field.setWidth 64) ++ [42]
  | single field value =>
    appendPacked (field.setWidth 64) ++ 61 ::
      (appendPacked 1 ++ value.take ((record field).type.size value))
  | set field transitions =>
    appendPacked (field.setWidth 64) ++ 61 :: serializeSet (record field).type transitions
  | fixedSubString field subLength transitions =>
    appendPacked (field.setWidth 64) ++ 58 ::
      (bytes 4 subLength ++ serializeSet ((record field).subType subLength) transitions)
  | variableSubString field subLength transitions =>
    appendPacked (field.setWidth 64) ++ 58 ::
      (bytes 4 subLength ++ serializeSet ((record field).subType subLength) transitions)

/-! ## Reading -/

/-- `type.size(in.readDirect(0))` bytes. -/
def readValue (type : ScalarType) (src : List UInt8) : Option (List UInt8 × List UInt8) :=
  let size := type.size src
  if size ≤ src.length then some (src.take size, src.drop size) else none

/-- The flags without the two that are for the reader. -/
def readMask (inmask : BitVec 8) : TransitionMask where
  lt := inmask.getLsbD 0
  eq := inmask.getLsbD 1
  gt := inmask.getLsbD 2
  min := inmask.getLsbD 3
  max := inmask.getLsbD 4

/-- The value of a transition, unless `CMPnovalue` says that there is none. -/
def readTransitionValue (type : ScalarType) (inmask : BitVec 8) (src : List UInt8) :
    Option (Option (List UInt8) × List UInt8) :=
  if inmask &&& CMPnovalue = 0 then (readValue type src).map fun r => (some r.1, r.2)
  else some (none, src)

/-- The sub-length of a transition, if `CMPsubstring` says that there is one. -/
def readSubLength (inmask : BitVec 8) (src : List UInt8) : Option (ℕ × List UInt8) :=
  if inmask &&& CMPsubstring = 0 then some (MatchFullString, src)
  else (readPackedUnsigned src).map fun r => (r.1.toNat, r.2)

/-- `ValueTransition(type, in)`; without a value the transition has to be a minimum or a maximum. -/
def readTransition (type : ScalarType) : List UInt8 → Option (Transition × List UInt8)
  | [] => none
  | inmask :: src => do
    let (value, src) ← readTransitionValue type inmask.toBitVec src
    let (subLength, src) ← readSubLength inmask.toBitVec src
    let mask := readMask inmask.toBitVec
    if h : value = none → mask.min = true ∨ mask.max = true then
      some (⟨mask, subLength, value, h⟩, src)
    else none

/-- The loop of `ValueSet(type, in)`. -/
def readTransitions (type : ScalarType) : ℕ → List UInt8 → Option (List Transition × List UInt8)
  | 0, src => some ([], src)
  | cnt + 1, src => do
    let (t, src) ← readTransition type src
    let (transitions, src) ← readTransitions type cnt src
    return (t :: transitions, src)

/-- `createValueSet(type, in)` -/
def createValueSet (type : ScalarType) (src : List UInt8) :
    Option (List Transition × List UInt8) := do
  let (cnt, src) ← readPackedUnsigned src
  readTransitions type cnt.toNat src

/-- `ValueSet::querySingleValue` -/
def querySingleValue (type : ScalarType) : List Transition → Option (List UInt8)
  | [lower, upper] =>
    match lower.value, upper.value with
    | some lowerValue, some upperValue =>
      if lower.isInclusiveBound ∧ ¬ lower.matchSubString ∧ upper.isInclusiveBound ∧
          ¬ upper.matchSubString ∧ type.compare lowerValue upperValue = 0 then some lowerValue
      else none
    | _, _ => none  -- a bound without a value is not inclusive
  | _ => none

/-- `ValueSet::isWild` -/
def isWild : List Transition → Bool
  | [lower, upper] => lower.isMinimum && upper.isMaximum
  | _ => false

/-- `createFieldFilter(fieldId, values)` -/
def createFieldFilter (type : ScalarType) (field : BitVec 32) (transitions : List Transition) :
    FieldFilter :=
  match querySingleValue type transitions with
  | some single => .single field single
  | none => if isWild transitions then .wild field else .set field transitions

/-- The case `'='` of `deserializeFieldFilter`. -/
def deserializeSet (type : ScalarType) (field : BitVec 32) (src : List UInt8) :
    Option (FieldFilter × List UInt8) := do
  let (numTransitions, behind) ← readPackedUnsigned src
  if numTransitions = 1 then (readValue type behind).map fun r => (.single field r.1, r.2)
  else (createValueSet type src).map fun r => (createFieldFilter type field r.1, r.2)

/-- The case `':'` of `deserializeFieldFilter`. -/
def deserializeSubString (info : FieldType) (field : BitVec 32) (src : List UInt8) :
    Option (FieldFilter × List UInt8) :=
  if src.length < 4 then none
  else
    let subLength : BitVec 32 := load 4 src 0
    (createValueSet (info.subType subLength) (src.drop 4)).map fun r =>
      (if info.type.isFixedSize then .fixedSubString field subLength r.1
        else .variableSubString field subLength r.1, r.2)

/-- `deserializeFieldFilter(fieldId, type, in)` -/
def deserializeKind (info : FieldType) (field : BitVec 32) :
    List UInt8 → Option (FieldFilter × List UInt8)
  | 42 :: src => some (.wild field, src)
  | 61 :: src => deserializeSet info.type field src
  | 58 :: src => deserializeSubString info field src
  | _ => none

/-- `deserializeFieldFilter(searchRecord, in)` -/
def deserializeFieldFilter (record : RtlRecord) (src : List UInt8) :
    Option (FieldFilter × List UInt8) := do
  let (fieldNum, src) ← readPackedUnsigned src
  deserializeKind (record fieldNum) fieldNum src

/-! ## Filters that can be made -/

/-- A bound: a minimum, a maximum, or a value, inclusive or not, with or without a sub-length. -/
structure IsBound (type : ScalarType) (t : Transition) : Prop where
  isValue : ∀ value ∈ t.value, type.IsValue value
  mask : t.mask ∈ if t.value = none then [CMPminmask, CMPmaxmask] else [CMPlt, CMPle, CMPgt, CMPge]
  subLength_lt : t.subLength < 2 ^ 32

/-- The transitions of a set come in pairs. -/
structure IsSet (type : ScalarType) (transitions : List Transition) : Prop where
  bound : ∀ t ∈ transitions, IsBound type t
  even : Even transitions.length
  length_lt : transitions.length < 2 ^ 32

/-- The filters that the constructors make. -/
def FieldFilter.IsValid (record : RtlRecord) : FieldFilter → Prop
  | wild _ => True
  | single field value => (record field).type.IsValue value
  | set field transitions => IsSet (record field).type transitions
  | fixedSubString field subLength transitions =>
    (record field).type.isFixedSize = true ∧ IsSet ((record field).subType subLength) transitions
  | variableSubString field subLength transitions =>
    (record field).type.isFixedSize = false ∧ IsSet ((record field).subType subLength) transitions

/-! ## The round trip -/

/-- The flags of a transition are kept apart from one another. -/
theorem flags_spec : ∀ lt eq gt min max noValue subString : Bool,
    let inmask := maskByte ⟨lt, eq, gt, min, max⟩ ||| (if noValue then CMPnovalue else 0) |||
      (if subString then CMPsubstring else 0)
    readMask inmask = ⟨lt, eq, gt, min, max⟩ ∧
      (inmask &&& CMPnovalue = 0 ↔ noValue = false) ∧
      (inmask &&& CMPsubstring = 0 ↔ subString = false) := by
  decide

theorem outmask_spec (t : Transition) :
    readMask (outmask t) = t.mask ∧ (outmask t &&& CMPnovalue = 0 ↔ t.value ≠ none) ∧
      (outmask t &&& CMPsubstring = 0 ↔ t.matchSubString = false) := by
  obtain ⟨⟨lt, eq, gt, min, max⟩, subLength, value, hasValue⟩ := t
  have h := flags_spec lt eq gt min max value.isNone
    (ValueTransition.matchSubString ⟨⟨lt, eq, gt, min, max⟩, subLength, value, hasValue⟩)
  cases value with
  | none => exact ⟨h.1, h.2.1.trans (by simp), h.2.2⟩
  | some value => exact ⟨h.1, h.2.1.trans (by simp), h.2.2⟩

variable {type : ScalarType} {t : Transition} {transitions : List Transition} {value : List UInt8}
  {rest : List UInt8}

/-- A 32-bit number as it is written. -/
theorem ofNat_eq_setWidth {n : ℕ} (h : n < 2 ^ 32) :
    BitVec.ofNat 64 n = (BitVec.ofNat 32 n).setWidth 64 := by
  apply BitVec.eq_of_toNat_eq
  rw [BitVec.toNat_setWidth, BitVec.toNat_ofNat, BitVec.toNat_ofNat, Nat.mod_eq_of_lt h]

/-- A value is written as it is. -/
theorem take_size (h : type.IsValue value) : value.take (type.size value) = value := by
  have hsize := h []
  rw [List.append_nil] at hsize
  rw [hsize, List.take_length]

theorem readValue_append (h : type.IsValue value) (rest : List UInt8) :
    readValue type (value ++ rest) = some (value, rest) := by
  unfold readValue
  dsimp only
  rw [h rest, if_pos (by rw [List.length_append]; exact Nat.le_add_right _ _), List.take_left,
    List.drop_left]

theorem readTransitionValue_append (h : IsBound type t) (rest : List UInt8) :
    readTransitionValue type (outmask t) (valueBytes type t ++ rest) = some (t.value, rest) := by
  have hvalue := (outmask_spec t).2.1
  unfold readTransitionValue valueBytes
  cases hv : t.value with
  | none => rw [if_neg (fun hz => hvalue.mp hz hv), List.nil_append]
  | some value =>
    have hisValue := h.isValue value hv
    rw [if_pos (hvalue.mpr (by rw [hv]; exact Option.some_ne_none value))]
    dsimp only
    rw [take_size hisValue, readValue_append hisValue, Option.map_some]

theorem readSubLength_append (h : IsBound type t) (rest : List UInt8) :
    readSubLength (outmask t) (subLengthBytes t ++ rest) = some (t.subLength, rest) := by
  have hsub := (outmask_spec t).2.2
  unfold readSubLength subLengthBytes
  cases hm : t.matchSubString with
  | false =>
    have heq : t.subLength = MatchFullString := by
      simpa [ValueTransition.matchSubString] using hm
    rw [if_pos (hsub.mpr hm), if_neg Bool.false_ne_true, List.nil_append, heq]
  | true =>
    have hne : ¬ outmask t &&& CMPsubstring = 0 := by
      rw [hsub, hm]
      exact Bool.true_eq_false.mp
    rw [if_neg hne, if_pos rfl, ofNat_eq_setWidth h.subLength_lt, readPackedUnsigned_append,
      Option.map_some, BitVec.toNat_ofNat, Nat.mod_eq_of_lt h.subLength_lt]

theorem readTransition_serialize (h : IsBound type t) (rest : List UInt8) :
    readTransition type (serializeTransition type t ++ rest) = some (t, rest) := by
  rw [serializeTransition, List.cons_append, List.append_assoc, readTransition]
  simp only [readTransitionValue_append h, readSubLength_append h, Option.bind_eq_bind,
    Option.bind_some, (outmask_spec t).1]
  rw [dif_pos t.hasValue]

theorem readTransitions_serialize (h : ∀ t ∈ transitions, IsBound type t) (rest : List UInt8) :
    readTransitions type transitions.length
      (transitions.flatMap (serializeTransition type) ++ rest) = some (transitions, rest) := by
  induction transitions with
  | nil => rfl
  | cons t ts ih =>
    have ht := readTransition_serialize (h t List.mem_cons_self)
      (ts.flatMap (serializeTransition type) ++ rest)
    have hts := ih fun u hu => h u (List.mem_cons_of_mem t hu)
    rw [List.flatMap_cons, List.append_assoc, List.length_cons, readTransitions]
    simp only [ht, hts, Option.bind_eq_bind, Option.bind_some]
    rfl

theorem createValueSet_serialize (h : IsSet type transitions) (rest : List UInt8) :
    createValueSet type (serializeSet type transitions ++ rest) = some (transitions, rest) := by
  rw [createValueSet, serializeSet, List.append_assoc,
    ofNat_eq_setWidth h.length_lt]
  simp only [readPackedUnsigned_append, Option.bind_eq_bind, Option.bind_some]
  rw [BitVec.toNat_ofNat, Nat.mod_eq_of_lt h.length_lt]
  exact readTransitions_serialize h.bound rest

/-! ## What the new filter matches -/

/-- `matches` of a set with one range. -/
theorem matchesField_pair (type : RtlTypeInfo (List UInt8)) (lower upper : Transition)
    (field : List UInt8) :
    ValueSet.matchesField type [lower, upper] field =
      if lower.compareRawField type field < 0 then false
      else if lower.compareRawField type field = 0 then lower.isInclusiveBound
      else if upper.compareRawField type field < 0 then true
      else if upper.compareRawField type field = 0 then upper.isInclusiveBound
      else false := by
  simp [ValueSet.matchesField, ValueSet.numRanges, ValueSet.matchesLoop]

/-- Equal values are on the same side of a field. -/
theorem compare_congr {compare : List UInt8 → List UInt8 → ℤ} (h : TotalOrder compare)
    {a b c : List UInt8} (hbc : compare b c = 0) (hpos : 0 < compare a b) : 0 < compare a c := by
  by_contra hle
  have hcb : compare c b ≤ 0 := by
    by_contra hcb
    have hneg := (h.swap c b).mp (not_le.mp hcb)
    rw [hbc] at hneg
    exact lt_irrefl _ hneg
  exact absurd (h.trans a c b (not_lt.mp hle) hcb) (not_le.mpr hpos)

theorem matchesField_single (h : querySingleValue type transitions = some value)
    (field : List UInt8) :
    (type.compare field value == 0) =
      ValueSet.matchesField type.toRtlTypeInfo transitions field := by
  unfold querySingleValue at h
  split at h
  · rename_i lower upper
    split at h
    · rename_i lowerValue upperValue hlower hupper
      split at h
      · rename_i hsingle
        obtain ⟨hincl, hlsub, hincu, husub, hzero⟩ := hsingle
        obtain rfl := Option.some.inj h
        have hl : lower.compareRawField type.toRtlTypeInfo field = type.compare field lowerValue := by
          unfold ValueTransition.compareRawField
          rw [hlower]
          exact if_neg hlsub
        have hu : upper.compareRawField type.toRtlTypeInfo field = type.compare field upperValue := by
          unfold ValueTransition.compareRawField
          rw [hupper]
          exact if_neg husub
        rw [matchesField_pair, hl, hu]
        rcases lt_trichotomy (type.compare field lowerValue) 0 with hc | hc | hc
        · rw [if_pos hc]
          exact beq_eq_false_iff_ne.mpr hc.ne
        · rw [if_neg hc.not_lt, if_pos hc, hincl, hc]
          rfl
        · have hgt := compare_congr type.order hzero hc
          rw [if_neg hc.not_gt, if_neg hc.ne', if_neg hgt.not_gt, if_neg hgt.ne']
          exact beq_eq_false_iff_ne.mpr hc.ne'
      · cases h
    · cases h
  · cases h

theorem matchesField_wild (h : IsSet type transitions) (hw : isWild transitions = true)
    (field : List UInt8) :
    ValueSet.matchesField type.toRtlTypeInfo transitions field = true := by
  unfold isWild at hw
  split at hw
  · rename_i lower upper
    rw [Bool.and_eq_true] at hw
    have hnone : ∀ t ∈ [lower, upper], t.isMinimum = true ∨ t.isMaximum = true → t.value = none := by
      intro t ht hflag
      by_contra hv
      have hmask := (h.bound t ht).mask
      rw [if_neg hv] at hmask
      simp only [List.mem_cons, List.not_mem_nil, or_false] at hmask
      unfold ValueTransition.isMinimum ValueTransition.isMaximum at hflag
      rcases hmask with hm | hm | hm | hm <;> rw [hm] at hflag <;> exact absurd hflag (by decide)
    have hlower := hnone lower (by simp) (Or.inl hw.1)
    have hupper := hnone upper (by simp) (Or.inr hw.2)
    have hmax : upper.isMinimum = false := by
      have hmask := (h.bound upper (by simp)).mask
      rw [if_pos hupper] at hmask
      simp only [List.mem_cons, List.not_mem_nil, or_false] at hmask
      have hu := hw.2
      unfold ValueTransition.isMaximum at hu
      unfold ValueTransition.isMinimum
      rcases hmask with hm | hm
      · rw [hm] at hu
        exact absurd hu (by decide)
      · rw [hm]
        rfl
    have hl : lower.compareRawField type.toRtlTypeInfo field = 1 := by
      unfold ValueTransition.compareRawField
      rw [hlower]
      exact if_pos hw.1
    have hu : upper.compareRawField type.toRtlTypeInfo field = -1 := by
      unfold ValueTransition.compareRawField
      rw [hupper]
      exact if_neg (by rw [hmax]; exact Bool.false_ne_true)
    rw [matchesField_pair, hl, hu]
    rfl
  · exact absurd hw Bool.false_ne_true

theorem createFieldFilter_spec (record : RtlRecord) (field : BitVec 32)
    (h : IsSet (record field).type transitions) :
    (createFieldFilter (record field).type field transitions).field = field ∧
      ∀ row, (createFieldFilter (record field).type field transitions).matchesRow record row =
        (FieldFilter.set field transitions).matchesRow record row := by
  unfold createFieldFilter
  cases hsingle : querySingleValue (record field).type transitions with
  | some value => exact ⟨rfl, fun row => matchesField_single hsingle (row field)⟩
  | none =>
    by_cases hw : isWild transitions = true
    · dsimp only
      rw [if_pos hw]
      exact ⟨rfl, fun row => (matchesField_wild h hw (row field)).symm⟩
    · dsimp only
      rw [if_neg hw]
      exact ⟨rfl, fun _ => rfl⟩

theorem deserializeSet_single (field : BitVec 32) (h : type.IsValue value) (rest : List UInt8) :
    deserializeSet type field (appendPacked 1 ++ value.take (type.size value) ++ rest) =
      some (.single field value, rest) := by
  have hone := readPackedUnsigned_append 1 (value ++ rest)
  rw [take_size h, List.append_assoc]
  unfold deserializeSet
  rw [show (1 : BitVec 64) = (1 : BitVec 32).setWidth 64 from rfl, hone]
  simp only [Option.bind_eq_bind, Option.bind_some, if_true, readValue_append h, Option.map_some]

/-- The number of transitions is not the one for a single value. -/
theorem deserializeSet_set (field : BitVec 32) (h : IsSet type transitions) (rest : List UInt8) :
    deserializeSet type field (serializeSet type transitions ++ rest) =
      some (createFieldFilter type field transitions, rest) := by
  have hcount := readPackedUnsigned_append (BitVec.ofNat 32 transitions.length)
    (transitions.flatMap (serializeTransition type) ++ rest)
  rw [← ofNat_eq_setWidth h.length_lt, ← List.append_assoc] at hcount
  have hne : BitVec.ofNat 32 transitions.length ≠ 1 := by
    intro heq
    have htoNat := congrArg BitVec.toNat heq
    rw [BitVec.toNat_ofNat, Nat.mod_eq_of_lt h.length_lt] at htoNat
    have heven := h.even
    rw [htoNat] at heven
    exact absurd heven (by decide)
  unfold deserializeSet
  rw [show serializeSet type transitions ++ rest = appendPacked (BitVec.ofNat 64 transitions.length) ++
    transitions.flatMap (serializeTransition type) ++ rest from rfl, hcount]
  simp only [Option.bind_eq_bind, Option.bind_some, if_neg hne]
  rw [show appendPacked (BitVec.ofNat 64 transitions.length) ++
    transitions.flatMap (serializeTransition type) ++ rest = serializeSet type transitions ++ rest
    from rfl, createValueSet_serialize h, Option.map_some]

theorem load_bytes (v : BitVec 32) (rest : List UInt8) : load 4 (bytes 4 v ++ rest) 0 = v := by
  apply BitVec.eq_of_getLsbD_eq
  intro i hi
  rw [getLsbD_load, decide_eq_true hi, Nat.mul_zero, Nat.zero_add,
    bit_append_left rest (by rw [length_bytes]; exact hi), bit_bytes v hi, Bool.true_and]

theorem deserializeSubString_append (info : FieldType) (field subLength : BitVec 32)
    (h : IsSet (info.subType subLength) transitions) (rest : List UInt8) :
    deserializeSubString info field
        (bytes 4 subLength ++ serializeSet (info.subType subLength) transitions ++ rest) =
      some (if info.type.isFixedSize then .fixedSubString field subLength transitions
        else .variableSubString field subLength transitions, rest) := by
  have hlen : ¬ (bytes 4 subLength ++
      (serializeSet (info.subType subLength) transitions ++ rest)).length < 4 := by
    rw [List.length_append, length_bytes]
    exact Nat.not_lt.mpr (Nat.le_add_right 4 _)
  have hdrop : (bytes 4 subLength ++
      (serializeSet (info.subType subLength) transitions ++ rest)).drop 4 =
        serializeSet (info.subType subLength) transitions ++ rest :=
    List.drop_left' (length_bytes 4 subLength)
  unfold deserializeSubString
  rw [List.append_assoc, if_neg hlen, load_bytes, hdrop]
  dsimp only
  rw [createValueSet_serialize h, Option.map_some]

/-- What is written of a filter is read as a filter of the same field that matches the same rows,
and no byte more; and every packed number is read as it was written. -/
theorem deserializeFieldFilter_serialize (record : RtlRecord) {filter : FieldFilter}
    (h : filter.IsValid record) (rest : List UInt8) :
    (∃ copy, deserializeFieldFilter record (filter.serialize record ++ rest) = some (copy, rest) ∧
      copy.field = filter.field ∧ ∀ row, copy.matchesRow record row = filter.matchesRow record row) ∧
      ∀ value : BitVec 64, readPacked (appendPacked value ++ rest) = some (value, rest) := by
  refine ⟨?_, fun value => readPacked_append value rest⟩
  have hkind : ∀ field tail, filter.serialize record = appendPacked (field.setWidth 64) ++ tail →
      deserializeFieldFilter record (filter.serialize record ++ rest) =
        deserializeKind (record field) field (tail ++ rest) := by
    intro field tail heq
    rw [heq, List.append_assoc, deserializeFieldFilter, readPackedUnsigned_append]
    rfl
  cases filter with
  | wild field => exact ⟨.wild field, hkind field _ rfl, rfl, fun _ => rfl⟩
  | single field value =>
    refine ⟨.single field value, ?_, rfl, fun _ => rfl⟩
    rw [hkind field _ rfl]
    exact deserializeSet_single field h rest
  | set field transitions =>
    obtain ⟨hfield, hmatches⟩ := createFieldFilter_spec record field h
    refine ⟨createFieldFilter (record field).type field transitions, ?_, hfield, hmatches⟩
    rw [hkind field _ rfl]
    exact deserializeSet_set field h rest
  | fixedSubString field subLength transitions =>
    obtain ⟨hfixed, hset⟩ := h
    refine ⟨.fixedSubString field subLength transitions, ?_, rfl, fun _ => rfl⟩
    rw [hkind field _ rfl]
    have hread := deserializeSubString_append (record field) field subLength hset rest
    rw [if_pos hfixed] at hread
    exact hread
  | variableSubString field subLength transitions =>
    obtain ⟨hvariable, hset⟩ := h
    refine ⟨.variableSubString field subLength transitions, ?_, rfl, fun _ => rfl⟩
    rw [hkind field _ rfl]
    have hread := deserializeSubString_append (record field) field subLength hset rest
    rw [hvariable, if_neg Bool.false_ne_true] at hread
    exact hread

/-- Unsigned numbers of one byte. -/
def byteType : ScalarType where
  compare left right := ((left.headD 0).toNat : ℤ) - (right.headD 0).toNat
  compareRange _ left _ right := ((left.headD 0).toNat : ℤ) - (right.headD 0).toNat
  isFixedSize := true
  getMinSize := 1
  size _ := 1
  order := ⟨fun a b => by rw [sub_pos, sub_neg], fun a b c hab hbc => by
    rw [sub_nonpos] at hab hbc ⊢
    exact hab.trans hbc⟩

def byteRecord : RtlRecord := fun _ => ⟨byteType, fun _ => byteType, fun _ ptr => ptr⟩

/-- The values above 5 of the third field. -/
def aboveFive : FieldFilter :=
  .set 3 [.create CMPgt byteType.toRtlTypeInfo [5] MatchFullString, .maximum]

theorem deserializeFieldFilter_aboveFive :
    (∃ copy, deserializeFieldFilter byteRecord (aboveFive.serialize byteRecord ++ [9]) =
        some (copy, [9]) ∧ copy.field = aboveFive.field ∧
      ∀ row, copy.matchesRow byteRecord row = aboveFive.matchesRow byteRecord row) ∧
      ∀ value : BitVec 64, readPacked (appendPacked value ++ [9]) = some (value, [9]) := by
  have hvalid : aboveFive.IsValid byteRecord := by
    refine ⟨?_, by decide, by decide⟩
    intro t ht
    rcases List.mem_cons.mp ht with rfl | ht
    · refine ⟨?_, by decide, by decide⟩
      rintro value hvalue
      obtain rfl := Option.some.inj hvalue
      exact fun _ => rfl
    · rw [List.mem_singleton.mp ht]
      exact ⟨fun _ hvalue => absurd hvalue (Option.some_ne_none _).symm, by decide, by decide⟩
  exact deserializeFieldFilter_serialize byteRecord hvalid [9]

end FilterSerial

end HpccPlatform
