import HpccPlatform.Library.BinaryChop
import HpccPlatform.ValueSet.Transition

/-!
# Building and using value sets

`class ValueSet` of `rtl/eclrtl/rtlnewkey.cpp`: a set of field values held as an array of
transitions, which always come in pairs of a lower and an upper bound.  The array is a list; an
index `idx` at which the source removes items in a loop is the boundary between the part of the
list that is finished and the part that the loop walks over.

The operations work on transitions by value.  Which of them share objects with their arguments is
the subject of `ValueSet.Links`.
-/

namespace HpccPlatform

namespace ValueSet

variable {α : Type*}

/-! ## Adding and removing a range -/

/-- The index of the first transition that is not below `lower`, found by a binary chop. -/
def findLower (type : RtlTypeInfo α) (transitions : List (ValueTransition α))
    (lower : ValueTransition α) : ℕ :=
  BinaryChop.chop
    (fun mid => match transitions[mid]? with
      | some t => decide (lower.compareRaw type t ≤ 0)
      | none => true)
    transitions.length 0 transitions.length

/-- The range is empty: the bounds cross, or they meet at a value that one of them excludes. -/
def isEmptyRange (type : RtlTypeInfo α) (lower upper : ValueTransition α) : Bool :=
  let rc := lower.compareRaw type upper
  decide (0 < rc) || (rc == 0 && (!lower.isInclusiveBound || !upper.isInclusiveBound))

/-- First half of `addRange`: merge the lower bound with the transition `next` found at `low`.
Returns the transitions and the index from which the upper bound is looked for. -/
def addLower (type : RtlTypeInfo α) (transitions : List (ValueTransition α))
    (lower next : ValueTransition α) (low : ℕ) : List (ValueTransition α) × ℕ :=
  if lower.compareRaw type next = 0 then
    if next.isLowerBound then
      (if !next.isInclusiveBound && lower.isInclusiveBound then transitions.set low lower
        else transitions, low + 1)
    else if next.isInclusiveBound || lower.isInclusiveBound then
      (transitions.eraseIdx low, low)
    else
      (transitions.insertIdx (low + 1) lower, low + 2)
  else if next.isLowerBound then
    (transitions.insertIdx low lower, low + 1)
  else
    (transitions, low)  -- previous must exist and be lower => ignore this one

/-- The loop of `addRange` over the transitions from `idx` on: drop those below the upper bound.
The flag says that the function returns; otherwise the upper bound is still to be added. -/
def addWalk (type : RtlTypeInfo α) (upper : ValueTransition α) :
    List (ValueTransition α) → List (ValueTransition α) × Bool
  | [] => ([], false)
  | cur :: rest =>
    let rc := cur.compareRaw type upper
    if 0 < rc then (cur :: rest, cur.isUpperBound)
    else if rc = 0 then
      if cur.isUpperBound then
        ((if !cur.isInclusiveBound && upper.isInclusiveBound then upper else cur) :: rest, true)
      else if cur.isInclusiveBound || upper.isInclusiveBound then (rest, true)
      else (cur :: rest, false)
    else addWalk type upper rest

/-- Second half of `addRange`, on the transitions from `idx` on. -/
def addUpper (type : RtlTypeInfo α) (upper : ValueTransition α)
    (rest : List (ValueTransition α)) : Except SetError (List (ValueTransition α)) :=
  match addWalk type upper rest with
  | (rest, true) => .ok rest
  | ([], false) => .ok [upper]
  | (cur :: rest, false) =>
    if cur.isLowerBound then
      if upper.isPreviousBound type cur then .ok rest else .ok (upper :: cur :: rest)
    else .error .assertion

/-- `addRange(lower, upper)`, a null bound standing for the minimum or the maximum. -/
def addRange (type : RtlTypeInfo α) (transitions : List (ValueTransition α))
    (lower upper : Option (ValueTransition α)) : Except SetError (List (ValueTransition α)) :=
  let lower := lower.getD .minimum
  let upper := upper.getD .maximum
  if !lower.isLowerBound || !upper.isUpperBound then .error .invalidRangeBounds
  else if isEmptyRange type lower upper then .ok transitions
  else
    let low := findLower type transitions lower
    match transitions[low]? with
    | none => .ok (transitions ++ [lower, upper])
    | some next =>
      let (transitions, idx) := addLower type transitions lower next low
      (addUpper type upper (transitions.drop idx)).map (transitions.take idx ++ ·)

/-- First half of `killRange`: terminate any range that overlaps the start of the removed range. -/
def killLower (type : RtlTypeInfo α) (transitions : List (ValueTransition α))
    (lower next : ValueTransition α) (low : ℕ) :
    Except SetError (List (ValueTransition α) × ℕ) :=
  if lower.compareRaw type next = 0 then
    if next.isLowerBound then
      if !lower.isInclusiveBound && next.isInclusiveBound then
        (lower.modifyTransition CMPle).map fun t => (transitions.insertIdx (low + 1) t, low + 2)
      else .ok (transitions.eraseIdx low, low)
    else if lower.isInclusiveBound && next.isInclusiveBound then
      (next.modifyTransition CMPlt).map fun t => (transitions.set low t, low + 1)
    else .ok (transitions, low + 1)
  else if next.isUpperBound then
    (lower.modifyTransition (if lower.isInclusiveBound then CMPlt else CMPle)).map
      fun t => (transitions.insertIdx low t, low + 1)
  else .ok (transitions, low)

/-- The loop of `killRange` over the transitions from `idx` on. -/
def killWalk (type : RtlTypeInfo α) (upper : ValueTransition α) :
    List (ValueTransition α) → Except SetError (List (ValueTransition α))
  | [] => .ok []
  | cur :: rest =>
    let rc := cur.compareRaw type upper
    if 0 < rc then
      if cur.isUpperBound then
        (upper.modifyTransition (if upper.isInclusiveBound then CMPgt else CMPge)).map
          (· :: cur :: rest)
      else .ok (cur :: rest)
    else if rc = 0 then
      if cur.isUpperBound then
        if cur.isInclusiveBound && !upper.isInclusiveBound then
          (upper.modifyTransition CMPge).map (· :: cur :: rest)
        else .ok rest
      else if !upper.isInclusiveBound then .ok (cur :: rest)
      else killWalk type upper rest
    else killWalk type upper rest

/-- `killRange(lower, upper)` -/
def killRange (type : RtlTypeInfo α) (transitions : List (ValueTransition α))
    (lower upper : Option (ValueTransition α)) : Except SetError (List (ValueTransition α)) :=
  let lower := lower.getD .minimum
  let upper := upper.getD .maximum
  if !lower.isLowerBound || !upper.isUpperBound then .error .invalidRangeBounds
  else if isEmptyRange type lower upper then .ok transitions
  else
    let low := findLower type transitions lower
    match transitions[low]? with
    | none => .ok transitions
    | some next =>
      (killLower type transitions lower next low).bind fun r =>
        (killWalk type upper (r.1.drop r.2)).map (r.1.take r.2 ++ ·)

/-- `addAll()` -/
def addAll (type : RtlTypeInfo α) : Except SetError (List (ValueTransition α)) :=
  addRange type [] none none

/-! ## Operations on whole sets -/

/-- `invertSet()` -/
def invertSet (type : RtlTypeInfo α) (transitions : List (ValueTransition α)) :
    Except SetError (List (ValueTransition α)) :=
  match transitions with
  | [] => addAll type
  | first :: rest =>
    let unboundedUpper := ((first :: rest).getLast (by simp)).isMaximum
    let low := if first.isMinimum then rest else first :: rest
    let mid := if unboundedUpper then low.dropLast else low
    (mid.mapM ValueTransition.modifyInverse).map fun inverted =>
      (if first.isMinimum then [] else [.minimum]) ++ inverted ++
        (if unboundedUpper then [] else [.maximum])

/-- `unionSet(other)`: the ranges of the other set are added one after the other.  The error case
is the read of an upper bound that is not there. -/
def unionSet (type : RtlTypeInfo α) (transitions : List (ValueTransition α)) :
    List (ValueTransition α) → Except SetError (List (ValueTransition α))
  | lower :: upper :: other =>
    (addRange type transitions (some lower) (some upper)).bind fun ts => unionSet type ts other
  | [_] => .error .assertion
  | [] => .ok transitions

/-- `excludeSet(other)`: the ranges of the other set are removed one after the other. -/
def excludeSet (type : RtlTypeInfo α) (transitions : List (ValueTransition α)) :
    List (ValueTransition α) → Except SetError (List (ValueTransition α))
  | lower :: upper :: other =>
    (killRange type transitions (some lower) (some upper)).bind fun ts => excludeSet type ts other
  | [_] => .error .assertion
  | [] => .ok transitions

/-- The inner loop of `intersectSet`, for the range from `lower` to `upper` and the ranges of the
other set from `curOther` on.  Returns the transitions produced, the ranges of the other set from
the new `curOther` on, and whether the other set is exhausted (`goto done`). -/
def intersectRange (type : RtlTypeInfo α) (lower upper : ValueTransition α) :
    List (ValueTransition α) → List (ValueTransition α) × List (ValueTransition α) × Bool
  | otherLower :: otherUpper :: other =>
    let rc1 := upper.compareRaw type otherLower
    let rc2 := otherUpper.compareRaw type lower
    if rc1 < 0 ∨ (rc1 = 0 ∧ (!upper.isInclusiveBound || !otherLower.isInclusiveBound)) then
      ([], otherLower :: otherUpper :: other, false)
    else if rc2 < 0 ∨ (rc2 = 0 ∧ (!otherUpper.isInclusiveBound || !lower.isInclusiveBound)) then
      intersectRange type lower upper other
    else
      let rc3 := lower.compareRaw type otherLower
      let newLower := if rc3 < 0 ∨ (rc3 = 0 ∧ lower.isInclusiveBound) then otherLower else lower
      let rc4 := upper.compareRaw type otherUpper
      if rc4 < 0 ∨ (rc4 = 0 ∧ !upper.isInclusiveBound) then
        ([newLower, upper], otherLower :: otherUpper :: other, false)
      else
        let r := intersectRange type lower upper other
        (newLower :: otherUpper :: r.1, r.2)
  | _ => ([], [], true)

/-- `intersectSet(other)` -/
def intersectSet (type : RtlTypeInfo α) :
    List (ValueTransition α) → List (ValueTransition α) → List (ValueTransition α)
  | lower :: upper :: transitions, other =>
    let r := intersectRange type lower upper other
    if r.2.2 then r.1 else r.1 ++ intersectSet type transitions r.2.1
  | _, _ => []

/-! ## Looking values up -/

def numRanges (transitions : List (ValueTransition α)) : ℕ := transitions.length / 2

/-- The loop of `matches(field)` over the ranges `[low, high)`. -/
def matchesLoop (type : RtlTypeInfo α) (transitions : List (ValueTransition α)) (field : α) :
    ℕ → ℕ → ℕ → Bool
  | 0, _, _ => false
  | fuel + 1, low, high =>
    if low < high then
      let mid := low + (high - low) / 2
      match transitions[mid * 2]?, transitions[mid * 2 + 1]? with
      | some lower, some upper =>
        let rc := lower.compareRawField type field
        if rc < 0 then matchesLoop type transitions field fuel low mid
        else if rc = 0 then lower.isInclusiveBound
        else
          let rc := upper.compareRawField type field
          if rc < 0 then true
          else if rc = 0 then upper.isInclusiveBound
          else matchesLoop type transitions field fuel (mid + 1) high
      | _, _ => false
    else false

/-- `matches(field)`: does the field match any range? -/
def matchesField (type : RtlTypeInfo α) (transitions : List (ValueTransition α)) (field : α) : Bool :=
  matchesLoop type transitions field (numRanges transitions) 0 (numRanges transitions)

end ValueSet

end HpccPlatform
