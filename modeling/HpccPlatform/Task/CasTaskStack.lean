import HpccPlatform.Library.StealingDeque

/-!
# The stack of a task processor

`CasTaskStack` of `system/jlib/jtask.cpp`: the owner pushes and pops tasks at the end of an array,
other threads steal them from its start.  `start` and `end` are packed into one word, which is
changed by compare-exchange.  Every atomic access is a step of its own, and the accesses of the
threads may come in any order.
-/

namespace Task

open StealingDeque

/-- `nextPowerOf2` -/
def nextPowerOf2 (v : ℕ) : ℕ :=
  let v := (v + (2 ^ 64 - 1)) % 2 ^ 64
  let v := v ||| v >>> 1
  let v := v ||| v >>> 2
  let v := v ||| v >>> 4
  let v := v ||| v >>> 8
  let v := v ||| v >>> 16
  let v := v ||| v >>> 32
  (v + 1) % 2 ^ 64

namespace CasTaskStack

def getStart (value : ℕ) : ℕ := value % 2 ^ 32

def getEnd (value : ℕ) : ℕ := (value >>> 32) % 2 ^ 32

def makePair (start finish : ℕ) : ℕ := finish <<< 32 ||| start

/-- The number of elements that a stack is made for.  For others `numElements()` is 0 and the array
is empty. -/
structure Size where
  numElements : ℕ
  pos : 0 < numElements
  le : numElements ≤ 2 ^ 31

/-- The mask that the constructor computes. -/
def Size.elementMask (size : Size) : ℕ := nextPowerOf2 size.numElements - 1

/-- Where the owner is in a call of `pushTask` or `popNextTask`. -/
inductive OwnerPc (τ : Type*) where
  | idle
  /-- room was found in `cur` -/
  | pushLoaded (task : τ) (cur : ℕ)
  /-- the task is in its place -/
  | pushSet (task : τ)
  | popLoaded (cur : ℕ)
  /-- at the beginning of the loop -/
  | popLoop (finish : ℕ) (task : Option τ) (cur : ℕ)

/-- Where a thief is in a call of `stealTask`. -/
inductive ThiefPc (τ : Type*) where
  | idle
  /-- at the beginning of the loop -/
  | stealLoop (cur : ℕ)
  | stealRead (task : Option τ) (cur : ℕ)

end CasTaskStack

/-- The words of the stack and the threads.  A place of the array in which no task has been put has
none. -/
structure CasTaskStack (ι τ : Type*) where
  startEnd : ℕ
  tasks : ℕ → Option τ
  owner : CasTaskStack.OwnerPc τ
  thieves : ι → CasTaskStack.ThiefPc τ

namespace CasTaskStack

variable {ι τ : Type*} [DecidableEq ι]

def new : CasTaskStack ι τ := ⟨0, fun _ => none, .idle, fun _ => .idle⟩

def get (mask : ℕ) (s : CasTaskStack ι τ) (index : ℕ) : Option τ := s.tasks (index &&& mask)

def set (mask : ℕ) (s : CasTaskStack ι τ) (index : ℕ) (task : τ) : CasTaskStack ι τ :=
  { s with tasks := Function.update s.tasks (index &&& mask) (some task) }

/-- `end - start` and other differences of `seq_type` -/
def seqSub (a b : ℕ) : ℕ := (a + (2 ^ 32 - b)) % 2 ^ 32

/-- A step of a schedule: the owner calls a function, a thief begins to steal, or one of them goes
on.  A compare-exchange may fail for no reason. -/
inductive Action (ι τ : Type*) where
  | pushTask (task : τ)
  | popNextTask
  | owner (fails : Bool)
  | stealTask (i : ι)
  | thief (i : ι) (fails : Bool)

/-- The next access of the owner. -/
def ownerStep (mask : ℕ) (fails : Bool) (s : CasTaskStack ι τ) :
    CasTaskStack ι τ × Label ι τ :=
  match s.owner with
  | .idle => (s, .internal)
  | .pushLoaded task cur => ({ s.set mask (getEnd cur) task with owner := .pushSet task }, .internal)
  | .pushSet task =>
    ({ s with
      startEnd := (s.startEnd + makePair 0 1) % 2 ^ 64
      owner := .idle }, .pushed task)
  | .popLoaded cur =>
    let finish := getEnd cur
    ({ s with owner := .popLoop finish (s.get mask (seqSub finish 1)) cur }, .internal)
  | .popLoop finish task cur =>
    let start := getStart cur
    if start = finish then ({ s with owner := .idle }, .popped none)
    else
      let next := if start = seqSub finish 1 then makePair finish finish
        else makePair start (seqSub finish 1)
      if s.startEnd = cur ∧ fails = false then
        ({ s with
          startEnd := next
          owner := .idle }, .popped task)
      else ({ s with owner := .popLoop finish task s.startEnd }, .internal)

/-- The next access of a thief. -/
def thiefStep (mask : ℕ) (i : ι) (fails : Bool) (s : CasTaskStack ι τ) :
    CasTaskStack ι τ × Label ι τ :=
  match s.thieves i with
  | .idle => (s, .internal)
  | .stealLoop cur =>
    if getStart cur = getEnd cur then
      ({ s with thieves := Function.update s.thieves i .idle }, .stolen i none)
    else
      ({ s with thieves :=
        Function.update s.thieves i (.stealRead (s.get mask (getStart cur)) cur) }, .internal)
  | .stealRead task cur =>
    if s.startEnd = cur ∧ fails = false then
      ({ s with
        startEnd := makePair ((getStart cur + 1) % 2 ^ 32) (getEnd cur)
        thieves := Function.update s.thieves i .idle }, .stolen i task)
    else
      ({ s with thieves := Function.update s.thieves i (.stealLoop s.startEnd) }, .internal)

/-- A thread in a call does not begin another one, and one that is in no call does not go on. -/
def step (mask : ℕ) (s : CasTaskStack ι τ) : Action ι τ → CasTaskStack ι τ × Label ι τ
  | .pushTask task =>
    match s.owner with
    | .idle =>
      -- `outOfMemory` throws, and nothing is pushed
      if mask < seqSub (getEnd s.startEnd) (getStart s.startEnd) then (s, .internal)
      else ({ s with owner := .pushLoaded task s.startEnd }, .call none)
    | _ => (s, .internal)
  | .popNextTask =>
    match s.owner with
    | .idle => ({ s with owner := .popLoaded s.startEnd }, .call none)
    | _ => (s, .internal)
  | .owner fails => s.ownerStep mask fails
  | .stealTask i =>
    match s.thieves i with
    | .idle =>
      ({ s with thieves := Function.update s.thieves i (.stealLoop s.startEnd) }, .call (some i))
    | _ => (s, .internal)
  | .thief i fails => s.thiefStep mask i fails

/-- The tasks between `start` and `end`. -/
def contents (mask : ℕ) (s : CasTaskStack ι τ) : List (Option τ) :=
  (List.range (seqSub (getEnd s.startEnd) (getStart s.startEnd))).map fun i =>
    s.get mask (getStart s.startEnd + i)

/-- What is seen of the run may be seen of a work-stealing stack that has the tasks of the array, as
long as fewer than `2 ^ 32` operations take effect during any one steal. -/
def Runs (mask : ℕ) : CasTaskStack ι τ → Observed ι τ → List (Action ι τ) → Prop
  | s, o, [] => s.contents mask = o.deque.map some ∧ o.Conserved
  | s, o, action :: actions =>
    s.contents mask = o.deque.map some ∧ o.Conserved ∧
      ∃ o', Observed.Step o (s.step mask action).2 o' ∧
        (o'.FewerThan (2 ^ 32) → Runs mask (s.step mask action).1 o' actions)

end CasTaskStack

end Task
