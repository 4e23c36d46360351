import HpccPlatform.Library.BinaryChop

/-!
# String sets

`class CStringSet` of `rtl/eclrtl/rtlkey.cpp`: a set of values of one size, held as an array of
transitions.  A transition with the state `true` is the first value of a range, and the transition
behind it, with the state `false`, is the last value of that range.

The four kinds of sets differ in how they compare, increment and decrement values.  The functions of
a kind are the fields of `ValueKind`.
-/

namespace HpccPlatform

namespace StringSet

/-- The virtual functions of `CStringSet`; `low` and `high` are what `memset` makes of 0 and 0xff. -/
structure ValueKind (V : Type*) where
  memcmp : V → V → ℤ
  increment : V → V
  decrement : V → V
  low : V
  high : V

/-- `class CTransition` -/
structure Transition (V : Type*) where
  val : V
  state : Bool
  deriving DecidableEq

section Operations

variable {V : Type*} (kind : ValueKind V)

/-- `oneless(l, r)` -/
def oneless (l r : V) : Bool := kind.memcmp l (kind.decrement r) == 0

/-- `appendTransition(t)`; `none` when the assertion fails. -/
def appendTransition (transitions : List (Transition V)) (t : Transition V) :
    Option (List (Transition V)) :=
  match t.state, transitions.getLast? with
  | true, some prev =>
    if prev.state = t.state then none
    else if oneless kind prev.val t.val then some transitions.dropLast
    else some (transitions ++ [t])
  | _, _ => some (transitions ++ [t])

/-! ## Adding and removing a range -/

/-- The number of transitions below a value, found by a binary chop. -/
def countBelow (transitions : List (Transition V)) (val : V) : ℕ :=
  BinaryChop.chopCount
    (fun i => match transitions[i]? with
      | some t => decide (0 < kind.memcmp val t.val)
      | none => false)
    transitions.length 0 transitions.length

/-- First half of `addRange`, with `a` transitions below the first value: the transitions up to
`idx`, and `inset`. -/
def addLow (transitions : List (Transition V)) (loval : V) (a : ℕ) : List (Transition V) × Bool :=
  match (transitions.take a).getLast? with
  | some t =>
    if !t.state then
      if oneless kind t.val loval then ((transitions.take a).dropLast, false)
      else (transitions.take a ++ [⟨loval, true⟩], false)
    else (transitions.take a, true)
  | none => ([⟨loval, true⟩], false)

/-- The loop that removes the transitions up to `hival`: those that are left, and `inset`. -/
def removeUpTo (hival : V) : List (Transition V) → Bool → List (Transition V) × Bool
  | [], inset => ([], inset)
  | t :: transitions, inset =>
    if kind.memcmp t.val hival ≤ 0 then removeUpTo hival transitions t.state
    else (t :: transitions, inset)

/-- The end of `addRange`, on the transitions from `idx` on; `none` when the assertion fails. -/
def addHigh (hival : V) (inset : Bool) (rest : List (Transition V)) :
    Option (List (Transition V)) :=
  if inset then some rest
  else
    match rest with
    | [] => some [⟨hival, false⟩]
    | t :: tail =>
      if !t.state then none
      else if oneless kind hival t.val then some tail
      else some (⟨hival, false⟩ :: rest)

/-- `addRange(loval, hival)`, a null value standing for the lowest or the highest value. -/
def addRange (transitions : List (Transition V)) (loval hival : Option V) :
    Option (List (Transition V)) :=
  let lo := loval.getD kind.low
  let hi := hival.getD kind.high
  if 0 < kind.memcmp lo hi then some transitions
  else if transitions = [] then some [⟨lo, true⟩, ⟨hi, false⟩]
  else
    let a := countBelow kind transitions lo
    let (start, inset) := addLow kind transitions lo a
    let (rest, inset) := removeUpTo kind hi (transitions.drop a) inset
    (addHigh kind hi inset rest).map (start ++ ·)

/-- `killRange(loval, hival)`; `none` when the assertion fails. -/
def killRange (transitions : List (Transition V)) (loval hival : Option V) :
    Option (List (Transition V)) :=
  let lo := loval.getD kind.low
  let hi := hival.getD kind.high
  if 0 < kind.memcmp lo hi then none
  else
    let below := transitions.takeWhile fun t => kind.memcmp t.val lo < 0
    let inset := (below.getLast?.map Transition.state).getD false
    let start := if inset then below ++ [⟨kind.decrement lo, false⟩] else below
    let (rest, inset) := removeUpTo kind hi (transitions.drop below.length) inset
    some (start ++ if inset then ⟨kind.increment hi, true⟩ :: rest else rest)

/-- `addAll()` -/
def addAll : List (Transition V) := [⟨kind.low, true⟩, ⟨kind.high, false⟩]

/-! ## Looking values up -/

/-- The path of `inRange` for four transitions and more.  `none` stands for `(unsigned) -1`. -/
def inRangeChop (transitions : List (Transition V)) (val : V) : Bool × Option ℕ :=
  let a := BinaryChop.chopCount
    (fun i => match transitions[i]? with
      | some t => decide (0 ≤ kind.memcmp val t.val)
      | none => false)
    transitions.length 0 transitions.length
  if 0 < a then
    let nextTransition := if transitions.length ≤ a then none else some a
    match transitions[a - 1]? with
    | some t =>
      if t.state then (true, nextTransition)
      else if kind.memcmp val t.val = 0 then (true, some (a - 1))
      else (false, nextTransition)
    | none => (false, none)
  else (false, some 0)

/-- The loop of `inRange` for fewer transitions: `inset`, and the index at which it stops. -/
def inRangeLoop (val : V) : List (Transition V) → ℕ → Bool → Bool × ℕ
  | [], idx, inset => (inset, idx)
  | t :: transitions, idx, inset =>
    let diff := kind.memcmp t.val val
    if t.state then
      let inset := if diff ≤ 0 then true else inset
      if diff = 0 then (inset, idx + 1)
      else if 0 < diff then (inset, idx)
      else inRangeLoop val transitions (idx + 1) inset
    else if 0 ≤ diff then (inset, idx)
    else inRangeLoop val transitions (idx + 1) false

/-- The path of `inRange` for fewer than four transitions. -/
def inRangeLinear (transitions : List (Transition V)) (val : V) : Bool × Option ℕ :=
  let (inset, idx) := inRangeLoop kind val transitions 0 false
  (inset, if transitions.length ≤ idx then none else some idx)

/-- `inRange(val, nextTransition)` -/
def inRange (transitions : List (Transition V)) (val : V) : Bool × Option ℕ :=
  if transitions = [] then (false, none)
  else if 4 ≤ transitions.length then inRangeChop kind transitions val
  else inRangeLinear kind transitions val

/-! ## Operations on whole sets -/

/-- The order of the next transitions of two sets; a set that is exhausted comes last.  For equal
values, an intersection takes the first value of a range before the last value of one, and a union
takes it after. -/
def compareEdges (isUnion : Bool) (tA tB : Transition V) : ℤ :=
  let diff := kind.memcmp tA.val tB.val
  if diff = 0 then
    let diff := (tB.state.toNat : ℤ) - tA.state.toNat
    if isUnion then -diff else diff
  else diff

/-- The state of the result. -/
def combine (isUnion inA inB : Bool) : Bool := if isUnion then inA || inB else inA && inB

/-- The start of a pass of the loop of `unionOrIntersect`: the next transition, the transitions of the
two sets that are left, `inA` and `inB`. -/
def nextEdge (isUnion : Bool) : List (Transition V) → List (Transition V) → Bool → Bool →
    Option (Transition V × List (Transition V) × List (Transition V) × Bool × Bool)
  | [], [], _, _ => none
  | [], tB :: restB, inA, _ => some (tB, [], restB, inA, tB.state)
  | tA :: restA, [], _, inB => some (tA, restA, [], tA.state, inB)
  | tA :: restA, tB :: restB, inA, inB =>
    let diff := compareEdges kind isUnion tA tB
    if diff < 0 then some (tA, restA, tB :: restB, tA.state, inB)
    else if 0 < diff then some (tB, tA :: restA, restB, inA, tB.state)
    else some (tB, restA, restB, tA.state, tB.state)

/-- The loop of `unionOrIntersect`, with a bound on its passes: a transition is appended when the
state changes. -/
def unionOrIntersect.loop (isUnion : Bool) : ℕ → List (Transition V) → List (Transition V) →
    Bool → Bool → Bool → List (Transition V) → Option (List (Transition V))
  | 0, _, _, _, _, _, _ => none
  | fuel + 1, a, b, inA, inB, state, result =>
    match nextEdge kind isUnion a b inA inB with
    | none => some result
    | some (t, a, b, inA, inB) =>
      let newState := combine isUnion inA inB
      if newState = state then unionOrIntersect.loop isUnion fuel a b inA inB state result
      else do
        let result ← appendTransition kind result t
        unionOrIntersect.loop isUnion fuel a b inA inB newState result

/-- `unionOrIntersect(r, isUnion)` -/
def unionOrIntersect (isUnion : Bool) (a b : List (Transition V)) : Option (List (Transition V)) :=
  unionOrIntersect.loop kind isUnion (a.length + b.length + 1) a b false false false []

/-- The loop of `invertSet`: `loval` is the first value of the range that is open. -/
def invertSet.loop : List (Transition V) → Bool → V → List (Transition V) →
    Option (List (Transition V))
  | [], inset, loval, result =>
    if inset then killRange kind result (some loval) (some kind.high) else some result
  | t :: transitions, inset, loval, result =>
    if t.state = inset then none
    else if inset then do
      let result ← killRange kind result (some loval) (some t.val)
      invertSet.loop transitions t.state loval result
    else invertSet.loop transitions t.state t.val result

/-- `invertSet()` -/
def invertSet (transitions : List (Transition V)) : Option (List (Transition V)) :=
  invertSet.loop kind transitions false kind.low (addAll kind)

end Operations

end StringSet

end HpccPlatform
