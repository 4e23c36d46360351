import Mathlib

/-!
# Field types and value transitions

The bounds from which the value sets of `rtl/eclrtl/rtlnewkey.cpp` are made.  A
`ValueTransition` is a value of a field together with the comparisons that hold on its side: a
lower bound has `CMPgt` in its mask and an upper bound `CMPlt`, each with `CMPeq` when the bound
is inclusive.  A transition without a value is the minimum or the maximum of the type; the
constructors of the source insist on that, and here it is a field of the structure.

A field type is known only through its comparison functions (`RtlTypeInfo`), since a
value is always represented in the same way as a field of that type would be in a record.
-/

namespace HpccPlatform

/-- The part of `RtlTypeInfo` that value sets use: the comparison of two field values, the
comparison of their leading characters, and the size of a fixed-size field. -/
structure RtlTypeInfo (α : Type*) where
  compare : α → α → ℤ
  /-- `compareRange lenLeft left lenRight right` -/
  compareRange : ℕ → α → ℕ → α → ℤ
  isFixedSize : Bool
  getMinSize : ℕ

/-- The sign of `compare` is that of a total order of the field values. -/
structure TotalOrder {α : Type*} (compare : α → α → ℤ) : Prop where
  swap : ∀ a b, 0 < compare a b ↔ compare b a < 0
  trans : ∀ a b c, compare a b ≤ 0 → compare b c ≤ 0 → compare a c ≤ 0

/-- `enum TransitionMask`: a set of flags. -/
structure TransitionMask where
  lt : Bool
  eq : Bool
  gt : Bool
  min : Bool
  max : Bool
  deriving DecidableEq, Repr

def CMPlt : TransitionMask := ⟨true, false, false, false, false⟩
def CMPle : TransitionMask := ⟨true, true, false, false, false⟩
def CMPgt : TransitionMask := ⟨false, false, true, false, false⟩
def CMPge : TransitionMask := ⟨false, true, true, false, false⟩
def CMPminmask : TransitionMask := ⟨false, false, true, true, false⟩
def CMPmaxmask : TransitionMask := ⟨true, false, false, false, true⟩

/-- The sub-length of a bound that is compared with the whole field. -/
def MatchFullString : ℕ := 0x7FFFFFFF

/-- A bound of a range of values.  `hasValue` is the assertion of the constructors: only a
minimum or a maximum can lack a value. -/
structure ValueTransition (α : Type*) where
  mask : TransitionMask
  subLength : ℕ
  value : Option α
  hasValue : value = none → mask.min = true ∨ mask.max = true
  deriving DecidableEq

namespace ValueTransition

variable {α : Type*}

theorem hasValue_some (mask : TransitionMask) (value : α) (h : some value = none) :
    mask.min = true ∨ mask.max = true := nomatch h

def isLowerBound (t : ValueTransition α) : Bool := t.mask.gt
def isUpperBound (t : ValueTransition α) : Bool := t.mask.lt
def isInclusiveBound (t : ValueTransition α) : Bool := t.mask.eq
def isMinimum (t : ValueTransition α) : Bool := t.mask.min
def isMaximum (t : ValueTransition α) : Bool := t.mask.max
def matchSubString (t : ValueTransition α) : Bool := t.subLength != MatchFullString

/-- `ValueTransition(CMPminmask)`: the bound used for a null lower transition. -/
def minimum : ValueTransition α := ⟨CMPminmask, MatchFullString, none, fun _ => Or.inl rfl⟩

/-- `ValueTransition(CMPmaxmask)`: the bound used for a null upper transition. -/
def maximum : ValueTransition α := ⟨CMPmaxmask, MatchFullString, none, fun _ => Or.inr rfl⟩

@[simp] lemma value_minimum : (minimum : ValueTransition α).value = none := rfl
@[simp] lemma value_maximum : (maximum : ValueTransition α).value = none := rfl
@[simp] lemma isMinimum_minimum : (minimum : ValueTransition α).isMinimum = true := rfl
@[simp] lemma isMinimum_maximum : (maximum : ValueTransition α).isMinimum = false := rfl
@[simp] lemma isMaximum_minimum : (minimum : ValueTransition α).isMaximum = false := rfl
@[simp] lemma isMaximum_maximum : (maximum : ValueTransition α).isMaximum = true := rfl
@[simp] lemma isLowerBound_minimum : (minimum : ValueTransition α).isLowerBound = true := rfl
@[simp] lemma isLowerBound_maximum : (maximum : ValueTransition α).isLowerBound = false := rfl
@[simp] lemma isUpperBound_minimum : (minimum : ValueTransition α).isUpperBound = false := rfl
@[simp] lemma isUpperBound_maximum : (maximum : ValueTransition α).isUpperBound = true := rfl
@[simp] lemma isInclusiveBound_minimum :
    (minimum : ValueTransition α).isInclusiveBound = false := rfl
@[simp] lemma isInclusiveBound_maximum :
    (maximum : ValueTransition α).isInclusiveBound = false := rfl

/-- `if ((int)subLength < 0) subLength = 0;` -/
def clampSubLength (subLength : ℕ) : ℕ := if 0x80000000 ≤ subLength then 0 else subLength

/-- The sub-length that the constructor stores: a subset at least as long as a fixed-size field is
discarded. -/
def storedSubLength (type : RtlTypeInfo α) (subLength : ℕ) : ℕ :=
  let sub := clampSubLength subLength
  if sub ≠ MatchFullString ∧ type.isFixedSize = true ∧ type.getMinSize ≤ sub then MatchFullString
  else sub

/-- `ValueTransition(mask, type, value, subLength)` with a value. -/
def create (mask : TransitionMask) (type : RtlTypeInfo α) (value : α) (subLength : ℕ) :
    ValueTransition α :=
  ⟨mask, storedSubLength type subLength, some value, by simp⟩

/-- `compareRaw(type, field)`: where the field lies relative to the value of this bound. -/
def compareRawField (t : ValueTransition α) (type : RtlTypeInfo α) (field : α) : ℤ :=
  match t.value with
  | none => if t.isMinimum then 1 else -1  -- `hasValue` leaves only the maximum here
  | some value =>
    if t.matchSubString then type.compareRange t.subLength field t.subLength value
    else type.compare field value

/-- `compare(type, field)`: as `compareRawField`, but a field equal to an exclusive bound is
reported on the side that the bound excludes. -/
def compareField (t : ValueTransition α) (type : RtlTypeInfo α) (field : α) : ℤ :=
  let c := t.compareRawField type field
  if c = 0 then
    if t.isInclusiveBound then 0
    else if t.isLowerBound then -1
    else if t.isUpperBound then 1
    else 0  -- `throwUnexpected()`: every bound of a set is a lower or an upper bound
  else c

/-- `compareRaw(type, other)`: the order of two bounds, leaving aside whether they are
inclusive. -/
def compareRaw (t : ValueTransition α) (type : RtlTypeInfo α) (other : ValueTransition α) : ℤ :=
  match t.value, other.value with
  | some value, some otherValue =>
    if t.matchSubString || other.matchSubString then
      let minLength := min t.subLength other.subLength
      let compare := type.compareRange minLength value minLength otherValue
      if compare = 0 ∧ t.subLength ≠ other.subLength then
        if t.subLength < other.subLength then
          if t.isLowerBound then -1 else 1
        else
          if other.isLowerBound then 1 else -1
      else compare
    else type.compare value otherValue
  | _, _ =>
    if t.isMinimum then (if other.isMinimum then 0 else -1)
    else if t.isMaximum then (if other.isMaximum then 0 else 1)
    else if other.isMinimum then 1
    else -1  -- `hasValue` leaves only `other.isMaximum()` here

/-- `isPreviousBound(type, other)` -/
def isPreviousBound (t : ValueTransition α) (type : RtlTypeInfo α) (other : ValueTransition α) :
    Bool :=
  (t.isInclusiveBound || other.isInclusiveBound) && t.compareRaw type other == 0

end ValueTransition

/-- What stops an operation on a value set: the exception for a range whose bounds are not a
lower and an upper bound, or a failed `assertex`. -/
inductive SetError where
  | invalidRangeBounds
  | assertion
  deriving DecidableEq, Repr

namespace ValueTransition

variable {α : Type*}

/-- `modifyTransition(type, newMask)`, by value: the bound with another mask.  The source asserts
that the bound has a value. -/
def modifyTransition (t : ValueTransition α) (newMask : TransitionMask) :
    Except SetError (ValueTransition α) :=
  match h : t.value with
  | none => .error .assertion
  | some _ => .ok ⟨newMask, t.subLength, t.value, by simp [h]⟩

/-- `mask ^ (CMPgt|CMPlt|CMPeq)` -/
def inverseMask (mask : TransitionMask) : TransitionMask :=
  { mask with lt := !mask.lt, eq := !mask.eq, gt := !mask.gt }

/-- `modifyInverse(type)` -/
def modifyInverse (t : ValueTransition α) : Except SetError (ValueTransition α) :=
  t.modifyTransition (inverseMask t.mask)

end ValueTransition

end HpccPlatform
