import HpccPlatform.Library.RingBuffer
import HpccPlatform.Library.UpdateSum

/-!
# A queue with a fixed number of slots

`simple_queue` of `roxie/udplib/udpsha.hpp`: a ring buffer, with a semaphore for its free slots and
one for its elements.  The threads take turns at every operation on a semaphore and at every
critical section.

`pushOrModify` takes a free slot before it looks for an element that it can modify instead of
adding one.  When it finds one it returns without giving the slot back.
-/

namespace Udp

open UpdateSum (sum_update_add)

/-- A function that is called for the elements until it says so: it is given those it was called
for before, and it may change the element. -/
abbrev WalkFunc (α : Type*) := List α → α → Bool × α

/-- Where a thread is in a call: before the semaphore, before the critical section or before the
signal.  A call of `push` has no function. -/
inductive QueueCall (α : Type*) where
  | idle
  | waitFree (element : α) (walkFunc : Option (WalkFunc α))
  | enterPush (element : α) (walkFunc : Option (WalkFunc α))
  | signalData
  | waitData
  | enterPop
  | signalFree (element : α)

structure SimpleQueue (α ι : Type*) where
  elements : ℕ → α
  elementCount : ℕ
  first : ℕ
  last : ℕ
  activeBuffers : ℕ
  dataAvail : ℕ
  freeSpace : ℕ
  calls : ι → QueueCall α

/-- A call, the next operation of a thread, or a wait that gives up. -/
inductive QueueAction (α ι : Type*) where
  | push (i : ι) (element : α)
  | pushOrModify (i : ι) (element : α) (walkFunc : WalkFunc α)
  | pop (i : ι)
  | walk (walkFunc : WalkFunc α)
  | advance (i : ι)
  | timeout (i : ι)

namespace SimpleQueue

variable {α ι : Type*}

def new [Inhabited α] (queueSize : ℕ) : SimpleQueue α ι :=
  ⟨fun _ => default, queueSize, 0, 0, 0, 0, queueSize, fun _ => .idle⟩

def doWalk (walkFunc : WalkFunc α) (elementCount : ℕ) :
    ℕ → ℕ → List α → (ℕ → α) → Bool × (ℕ → α)
  | 0, _, _, elements => (false, elements)
  | count + 1, cur, seen, elements =>
    let r := walkFunc seen (elements cur)
    let elements' := Function.update elements cur r.2
    if r.1 then (true, elements')
    else doWalk walkFunc elementCount count ((cur + 1) % elementCount) (seen ++ [elements cur])
      elements'

def walked (s : SimpleQueue α ι) (walkFunc : WalkFunc α) : Bool × (ℕ → α) :=
  doWalk walkFunc s.elementCount s.activeBuffers s.first [] s.elements

def doPush (s : SimpleQueue α ι) (element : α) : SimpleQueue α ι :=
  { s with
    elements := Function.update s.elements s.last element
    last := (s.last + 1) % s.elementCount
    activeBuffers := s.activeBuffers + 1 }

variable [DecidableEq ι]

def setCall (s : SimpleQueue α ι) (i : ι) (c : QueueCall α) : SimpleQueue α ι :=
  { s with calls := Function.update s.calls i c }

def call (s : SimpleQueue α ι) (i : ι) (c : QueueCall α) : Option (SimpleQueue α ι) :=
  match s.calls i with
  | .idle => some (s.setCall i c)
  | _ => none

/-- The next operation of a thread; there is none while it has to wait. -/
def advance (s : SimpleQueue α ι) (i : ι) : Option (SimpleQueue α ι) :=
  match s.calls i with
  | .idle => none
  | .waitFree element walkFunc =>
    if 0 < s.freeSpace then
      some ({ s with freeSpace := s.freeSpace - 1 }.setCall i (.enterPush element walkFunc))
    else none
  | .enterPush element none => some ((s.doPush element).setCall i .signalData)
  | .enterPush element (some walkFunc) =>
    let r := s.walked walkFunc
    if r.1 then some ({ s with elements := r.2 }.setCall i .idle)
    else some (({ s with elements := r.2 }.doPush element).setCall i .signalData)
  | .signalData => some ({ s with dataAvail := s.dataAvail + 1 }.setCall i .idle)
  | .waitData =>
    if 0 < s.dataAvail then
      some ({ s with dataAvail := s.dataAvail - 1 }.setCall i .enterPop)
    else none
  | .enterPop =>
    some ({ s with
      first := (s.first + 1) % s.elementCount
      activeBuffers := s.activeBuffers - 1 }.setCall i (.signalFree (s.elements s.first)))
  | .signalFree _ => some ({ s with freeSpace := s.freeSpace + 1 }.setCall i .idle)

/-- A wait for a free slot gives up only while there is none. -/
def timeout (s : SimpleQueue α ι) (i : ι) : Option (SimpleQueue α ι) :=
  match s.calls i with
  | .waitFree _ _ => if 0 < s.freeSpace then none else some (s.setCall i .idle)
  | _ => none

def step (s : SimpleQueue α ι) : QueueAction α ι → Option (SimpleQueue α ι)
  | .push i element => s.call i (.waitFree element none)
  | .pushOrModify i element walkFunc => s.call i (.waitFree element (some walkFunc))
  | .pop i => s.call i .waitData
  | .walk walkFunc => some { s with elements := (s.walked walkFunc).2 }
  | .advance i => s.advance i
  | .timeout i => s.timeout i

def run : SimpleQueue α ι → List (QueueAction α ι) → Option (SimpleQueue α ι)
  | s, [] => some s
  | s, a :: actions =>
    match s.step a with
    | some s' => run s' actions
    | none => none

/-- Does a call of `pushOrModify` find an element to modify? -/
def modifies (s : SimpleQueue α ι) : QueueAction α ι → Bool
  | .advance i =>
    match s.calls i with
    | .enterPush _ (some walkFunc) => (s.walked walkFunc).1
    | _ => false
  | _ => false

/-- How often that happens in a run. -/
def modifications : SimpleQueue α ι → List (QueueAction α ι) → ℕ
  | _, [] => 0
  | s, a :: actions =>
    match s.step a with
    | some s' => (s.modifies a).toNat + modifications s' actions
    | none => 0

end SimpleQueue

namespace SimpleQueue

variable {α ι : Type*}

/-! ### The elements as a list -/

/-- The elements of the queue, the oldest first. -/
def queued (s : SimpleQueue α ι) : List α :=
  RingBuffer.contents s.elementCount s.elements s.activeBuffers s.first

def walkList (walkFunc : WalkFunc α) : List α → List α → Bool × List α
  | _, [] => (false, [])
  | seen, x :: xs =>
    let r := walkFunc seen x
    if r.1 then (true, r.2 :: xs)
    else
      let rest := walkList walkFunc (seen ++ [x]) xs
      (rest.1, r.2 :: rest.2)

theorem doWalk_outside {walkFunc : WalkFunc α} {n count cur p : ℕ} {seen : List α}
    {elements : ℕ → α} (hcur : cur < n) (hp : ∀ i < count, (cur + i) % n ≠ p) :
    (doWalk walkFunc n count cur seen elements).2 p = elements p := by
  induction count generalizing cur seen elements with
  | zero => rfl
  | succ count ih =>
    have hfirst := hp 0 (Nat.succ_pos count)
    rw [Nat.add_zero, Nat.mod_eq_of_lt hcur] at hfirst
    unfold doWalk
    dsimp only
    split_ifs
    · exact Function.update_of_ne hfirst.symm _ _
    · rw [ih (Nat.mod_lt _ (Nat.zero_lt_of_lt hcur)), Function.update_of_ne hfirst.symm]
      intro i hi
      rw [RingBuffer.mod_add_succ]
      exact hp (i + 1) (Nat.succ_lt_succ hi)

/-- Walking over the ring is walking over the list. -/
theorem doWalk_eq {walkFunc : WalkFunc α} {n count cur : ℕ} {seen : List α} {elements : ℕ → α}
    (hcur : cur < n) (hcount : count ≤ n) :
    (doWalk walkFunc n count cur seen elements).1 =
        (walkList walkFunc seen (RingBuffer.contents n elements count cur)).1 ∧
      RingBuffer.contents n (doWalk walkFunc n count cur seen elements).2 count cur =
        (walkList walkFunc seen (RingBuffer.contents n elements count cur)).2 := by
  induction count generalizing cur seen elements with
  | zero => exact ⟨rfl, rfl⟩
  | succ count ih =>
    have hnext : (cur + 1) % n < n := Nat.mod_lt _ (Nat.zero_lt_of_lt hcur)
    -- the place that is walked over is not one of those behind it
    have hbehind : ∀ i < count, ((cur + 1) % n + i) % n ≠ cur := by
      intro i hi
      have hne : (cur + 0) % n ≠ (cur + (i + 1)) % n :=
        RingBuffer.place_ne (Nat.succ_pos i) ((Nat.succ_lt_succ hi).trans_le hcount)
      rw [Nat.add_zero, Nat.mod_eq_of_lt hcur] at hne
      rw [RingBuffer.mod_add_succ]
      exact hne.symm
    unfold doWalk RingBuffer.contents walkList
    dsimp only
    split_ifs with hfound
    · refine ⟨rfl, ?_⟩
      dsimp only
      rw [Function.update_self, RingBuffer.contents_update hnext hbehind]
    · obtain ⟨hresult, hcontents⟩ := @ih ((cur + 1) % n) (seen ++ [elements cur])
        (Function.update elements cur (walkFunc seen (elements cur)).2) hnext
        (Nat.le_of_succ_le hcount)
      rw [RingBuffer.contents_update hnext hbehind] at hresult hcontents
      refine ⟨hresult, ?_⟩
      rw [hcontents, doWalk_outside hnext hbehind, Function.update_self]

/-! ### What the threads hold -/

end SimpleQueue

/-- A slot that is taken and not used yet, or used no longer and not given back. -/
def QueueCall.slots {α : Type*} : QueueCall α → ℕ
  | .enterPush _ _ => 1
  | .signalFree _ => 1
  | _ => 0

/-- An element that is there and not signalled, or no longer and still there. -/
def QueueCall.data {α : Type*} : QueueCall α → ℕ
  | .signalData => 1
  | .enterPop => 1
  | _ => 0

namespace SimpleQueue

variable {α ι : Type*} [Fintype ι] {s s' : SimpleQueue α ι} {n lost : ℕ}

def Quiet (s : SimpleQueue α ι) : Prop := ∀ i, s.calls i = .idle

/-- The slots of the queue are free, used or held by a thread, but for those that were lost; and so
it is with the elements. -/
structure Balanced (n lost : ℕ) (s : SimpleQueue α ι) : Prop where
  elementCount : s.elementCount = n
  first_lt : s.first < n
  slots : s.freeSpace + s.activeBuffers + ∑ i, (s.calls i).slots + lost = n
  data : s.dataAvail + ∑ i, (s.calls i).data = s.activeBuffers
  last : s.last = (s.first + s.activeBuffers) % n

/-- The slots are counted, the ring is closed, and who pushes an element on a queue that is not full
does not wait. -/
structure Conserved (n : ℕ) (s : SimpleQueue α ι) : Prop where
  slots : s.freeSpace + s.activeBuffers = n
  data : s.dataAvail = s.activeBuffers
  last : s.last = (s.first + s.activeBuffers) % n
  free : s.activeBuffers < n → 0 < s.freeSpace

theorem balanced_new [Inhabited α] (hn : 0 < n) :
    Balanced n 0 (new n : SimpleQueue α ι) where
  elementCount := rfl
  first_lt := hn
  slots := by
    have hzero : ∑ i, ((new n : SimpleQueue α ι).calls i).slots = 0 :=
      Finset.sum_eq_zero fun _ _ => rfl
    rw [hzero]
    rfl
  data := by
    have hzero : ∑ i, ((new n : SimpleQueue α ι).calls i).data = 0 :=
      Finset.sum_eq_zero fun _ _ => rfl
    rw [hzero]
    rfl
  last := (Nat.zero_mod n).symm

/-- When no call is in progress nobody holds a slot. -/
theorem Balanced.conserved_iff (h : Balanced n lost s) (hquiet : s.Quiet) :
    Conserved n s ↔ lost = 0 := by
  have hslots : ∑ i, (s.calls i).slots = 0 := by
    refine Finset.sum_eq_zero fun i _ => ?_
    rw [hquiet i]
    rfl
  have hdata : ∑ i, (s.calls i).data = 0 := by
    refine Finset.sum_eq_zero fun i _ => ?_
    rw [hquiet i]
    rfl
  have hall := h.slots
  rw [hslots, Nat.add_zero] at hall
  constructor
  · intro hconserved
    rw [hconserved.slots] at hall
    exact Nat.add_left_cancel (hall.trans (Nat.add_zero n).symm)
  · intro hzero
    rw [hzero, Nat.add_zero] at hall
    refine ⟨hall, ?_, h.last, ?_⟩
    · have hd := h.data
      rwa [hdata, Nat.add_zero] at hd
    · intro hlt
      by_contra hnone
      rw [Nat.eq_zero_of_not_pos hnone, Nat.zero_add] at hall
      exact absurd hall (Nat.ne_of_lt hlt)

theorem Balanced.le (h : Balanced n lost s) : s.activeBuffers ≤ n := by
  rw [← h.slots, Nat.add_assoc, Nat.add_assoc]
  exact (Nat.le_add_right _ _).trans (Nat.le_add_left _ _)

theorem Balanced.queued_doPush (h : Balanced n lost s) (hlt : s.activeBuffers < n) (element : α) :
    (s.doPush element).queued = s.queued ++ [element] := by
  unfold queued doPush
  dsimp only
  rw [h.last, h.elementCount]
  exact RingBuffer.contents_push h.first_lt hlt element

theorem Balanced.last_doPush (h : Balanced n lost s) (element : α) :
    (s.doPush element).last = ((s.doPush element).first + (s.doPush element).activeBuffers) % n := by
  unfold doPush
  dsimp only
  rw [h.last, h.elementCount, Nat.mod_add_mod, Nat.add_assoc]

/-- The elements that a walk changes. -/
theorem Balanced.walked (h : Balanced n lost s) (walkFunc : WalkFunc α) :
    (s.walked walkFunc).1 = (walkList walkFunc [] s.queued).1 ∧
      queued { s with elements := (s.walked walkFunc).2 } = (walkList walkFunc [] s.queued).2 := by
  have hfirst : s.first < s.elementCount := h.elementCount ▸ h.first_lt
  have hle : s.activeBuffers ≤ s.elementCount := h.elementCount ▸ h.le
  exact doWalk_eq hfirst hle

theorem Balanced.setElements (h : Balanced n lost s) (elements : ℕ → α) :
    Balanced n lost { s with elements := elements } :=
  ⟨h.elementCount, h.first_lt, h.slots, h.data, h.last⟩

variable [DecidableEq ι] {i : ι}

theorem slots_setCall (s : SimpleQueue α ι) (i : ι) (c : QueueCall α) :
    ∑ j, ((s.setCall i c).calls j).slots + (s.calls i).slots =
      ∑ j, (s.calls j).slots + c.slots :=
  sum_update_add (Finset.mem_univ i) s.calls QueueCall.slots c

theorem data_setCall (s : SimpleQueue α ι) (i : ι) (c : QueueCall α) :
    ∑ j, ((s.setCall i c).calls j).data + (s.calls i).data = ∑ j, (s.calls j).data + c.data :=
  sum_update_add (Finset.mem_univ i) s.calls QueueCall.data c

/-- A thread moves from one place of its call to another, and what it held before is in the other
state. -/
theorem Balanced.setCall (h : Balanced n lost s) {t : SimpleQueue α ι} {c : QueueCall α}
    {lost' : ℕ} (hcalls : t.calls = s.calls) (hcount : t.elementCount = s.elementCount)
    (hfirst : t.first < n)
    (hslots : t.freeSpace + t.activeBuffers + c.slots + lost' =
      s.freeSpace + s.activeBuffers + (s.calls i).slots + lost)
    (hdata : t.dataAvail + c.data + s.activeBuffers =
      s.dataAvail + (s.calls i).data + t.activeBuffers)
    (hlast : t.last = (t.first + t.activeBuffers) % n) :
    Balanced n lost' (t.setCall i c) := by
  have hs := slots_setCall t i c
  have hd := data_setCall t i c
  rw [hcalls] at hs hd
  refine ⟨hcount.trans h.elementCount, hfirst, ?_, ?_, hlast⟩
  · have hall := h.slots
    change t.freeSpace + t.activeBuffers + _ + lost' = n
    omega
  · have hall := h.data
    change t.dataAvail + _ = t.activeBuffers
    omega

/-! ### The steps -/

/-- What a step does to the list of elements. -/
def FifoStep (s : SimpleQueue α ι) (a : QueueAction α ι) (s' : SimpleQueue α ι) : Prop :=
  match a with
  | .walk walkFunc => s'.queued = (walkList walkFunc [] s.queued).2
  | .advance i =>
    match s.calls i with
    | .enterPush element none => s'.queued = s.queued ++ [element]
    | .enterPush element (some walkFunc) =>
      let r := walkList walkFunc [] s.queued
      s'.queued = if r.1 then r.2 else r.2 ++ [element]
    | .enterPop => ∃ element, s.queued = element :: s'.queued ∧
        s'.calls i = .signalFree element
    | _ => s'.queued = s.queued
  | _ => s'.queued = s.queued

/-- A thread with a slot pushes its element. -/
theorem Balanced.push (h : Balanced n lost s) {element : α} {walkFunc : Option (WalkFunc α)}
    (hcall : s.calls i = .enterPush element walkFunc) :
    Balanced n lost ((s.doPush element).setCall i .signalData) ∧
      ((s.doPush element).setCall i .signalData).queued = s.queued ++ [element] := by
  have hheld : 1 ≤ ∑ j, (s.calls j).slots := by
    have hle : (s.calls i).slots ≤ ∑ j, (s.calls j).slots :=
      Finset.single_le_sum (f := fun j => (s.calls j).slots) (fun _ _ => Nat.zero_le _)
        (Finset.mem_univ i)
    rwa [hcall] at hle
  have hlt : s.activeBuffers < n := by
    have hall := h.slots
    omega
  refine ⟨h.setCall rfl rfl h.first_lt ?_ ?_ (h.last_doPush element),
    h.queued_doPush hlt element⟩
  · rw [hcall]
    rfl
  · rw [hcall]
    exact Nat.add_right_comm s.dataAvail 1 s.activeBuffers

theorem Balanced.pop (h : Balanced n lost s) (hcall : s.calls i = .enterPop)
    (hstep : s.advance i = some s') :
    Balanced n lost s' ∧ ∃ element, s.queued = element :: s'.queued ∧
      s'.calls i = .signalFree element := by
  have hheld : 1 ≤ ∑ j, (s.calls j).data := by
    have hle : (s.calls i).data ≤ ∑ j, (s.calls j).data :=
      Finset.single_le_sum (f := fun j => (s.calls j).data) (fun _ _ => Nat.zero_le _)
        (Finset.mem_univ i)
    rwa [hcall] at hle
  obtain ⟨active, hactive⟩ : ∃ active, s.activeBuffers = active + 1 := by
    have hall := h.data
    exact ⟨s.activeBuffers - 1, by omega⟩
  unfold SimpleQueue.advance at hstep
  rw [hcall] at hstep
  cases hstep
  refine ⟨h.setCall rfl rfl (h.elementCount ▸ Nat.mod_lt _ (h.elementCount ▸
    Nat.zero_lt_of_lt h.first_lt)) ?_ ?_ ?_, s.elements s.first, ?_, Function.update_self ..⟩
  · rw [hcall]
    change s.freeSpace + (s.activeBuffers - 1) + 1 + lost = s.freeSpace + s.activeBuffers + 0 + lost
    rw [hactive, Nat.add_sub_cancel, Nat.add_zero]
    rfl
  · rw [hcall]
    change s.dataAvail + 0 + s.activeBuffers = s.dataAvail + 1 + (s.activeBuffers - 1)
    rw [hactive, Nat.add_sub_cancel]
    exact Nat.add_right_comm s.dataAvail active 1
  · dsimp only
    rw [h.last, h.elementCount, Nat.mod_add_mod, hactive, Nat.add_sub_cancel, Nat.add_assoc,
      Nat.add_comm 1]
  · change RingBuffer.contents _ _ _ _ = _ :: RingBuffer.contents _ _ (s.activeBuffers - 1) _
    rw [hactive]
    rfl

/-- A thread goes on and the ring stays. -/
theorem Balanced.move (h : Balanced n lost s) {c : QueueCall α} (dataAvail freeSpace : ℕ)
    (hslots : freeSpace + c.slots = s.freeSpace + (s.calls i).slots)
    (hdata : dataAvail + c.data = s.dataAvail + (s.calls i).data) :
    Balanced n lost ({ s with dataAvail := dataAvail, freeSpace := freeSpace }.setCall i c) := by
  refine h.setCall rfl rfl h.first_lt ?_ ?_ h.last
  · dsimp only
    rw [Nat.add_right_comm freeSpace, Nat.add_right_comm s.freeSpace, hslots]
  · dsimp only
    rw [hdata]

theorem Balanced.call (h : Balanced n lost s) {c : QueueCall α} (hslots : c.slots = 0)
    (hdata : c.data = 0) (hstep : s.call i c = some s') :
    Balanced n lost s' ∧ s'.queued = s.queued := by
  unfold SimpleQueue.call at hstep
  cases hcall : s.calls i <;> rw [hcall] at hstep <;> cases hstep
  refine ⟨h.move s.dataAvail s.freeSpace ?_ ?_, rfl⟩
  · rw [hslots, hcall]
    rfl
  · rw [hdata, hcall]
    rfl

theorem Balanced.timeout (h : Balanced n lost s) (hstep : s.timeout i = some s') :
    Balanced n lost s' ∧ s'.queued = s.queued := by
  unfold SimpleQueue.timeout at hstep
  cases hcall : s.calls i <;> rw [hcall] at hstep <;> try cases hstep
  dsimp only at hstep
  split_ifs at hstep
  cases hstep
  refine ⟨h.move s.dataAvail s.freeSpace ?_ ?_, rfl⟩
  · rw [hcall]
    rfl
  · rw [hcall]
    rfl

/-- The walk of a call that holds a slot: when it finds its element the slot is lost. -/
theorem Balanced.pushOrModify (h : Balanced n lost s) {element : α} {walkFunc : WalkFunc α}
    (hcall : s.calls i = .enterPush element (some walkFunc)) (hstep : s.advance i = some s') :
    Balanced n (lost + (s.walked walkFunc).1.toNat) s' ∧
      s'.queued = if (walkList walkFunc [] s.queued).1 then (walkList walkFunc [] s.queued).2
        else (walkList walkFunc [] s.queued).2 ++ [element] := by
  obtain ⟨hfound, hqueued⟩ := h.walked walkFunc
  unfold SimpleQueue.advance at hstep
  rw [hcall] at hstep
  dsimp only at hstep
  rw [← hfound, ← hqueued]
  split_ifs at hstep ⊢ with hmodified
  · cases hstep
    refine ⟨(h.setElements _).setCall rfl rfl h.first_lt ?_ ?_ h.last, rfl⟩
    · rw [hmodified]
      dsimp only
      rw [hcall]
      change s.freeSpace + s.activeBuffers + 0 + (lost + 1) = s.freeSpace + s.activeBuffers + 1 + lost
      ac_rfl
    · dsimp only
      rw [hcall]
      rfl
  · cases hstep
    rw [Bool.not_eq_true] at hmodified
    rw [hmodified]
    exact (h.setElements (s.walked walkFunc).2).push hcall

/-- **Every step keeps the slots**, but for those that a modification loses, and the elements in
their order. -/
theorem Balanced.step (h : Balanced n lost s) {a : QueueAction α ι} (hstep : s.step a = some s') :
    Balanced n (lost + (s.modifies a).toNat) s' ∧ FifoStep s a s' := by
  cases a with
  | push i element => exact h.call rfl rfl hstep
  | pushOrModify i element walkFunc => exact h.call rfl rfl hstep
  | pop i => exact h.call rfl rfl hstep
  | walk walkFunc =>
    cases hstep
    exact ⟨h.setElements _, (h.walked walkFunc).2⟩
  | timeout i => exact h.timeout hstep
  | advance i =>
    unfold SimpleQueue.step at hstep
    unfold modifies FifoStep
    dsimp only at hstep ⊢
    cases hcall : s.calls i with
    | idle =>
      unfold SimpleQueue.advance at hstep
      rw [hcall] at hstep
      cases hstep
    | waitFree element walkFunc =>
      unfold SimpleQueue.advance at hstep
      rw [hcall] at hstep
      dsimp only at hstep ⊢
      split_ifs at hstep with hfree
      cases hstep
      refine ⟨h.move s.dataAvail (s.freeSpace - 1) ?_ ?_, rfl⟩
      · rw [hcall]
        exact Nat.sub_add_cancel hfree
      · rw [hcall]
        rfl
    | enterPush element walkFunc =>
      cases walkFunc with
      | none =>
        unfold SimpleQueue.advance at hstep
        rw [hcall] at hstep
        cases hstep
        exact h.push hcall
      | some walkFunc => exact h.pushOrModify hcall hstep
    | signalData =>
      unfold SimpleQueue.advance at hstep
      rw [hcall] at hstep
      cases hstep
      refine ⟨h.move (s.dataAvail + 1) s.freeSpace ?_ ?_, rfl⟩
      · rw [hcall]
        rfl
      · rw [hcall]
        rfl
    | waitData =>
      unfold SimpleQueue.advance at hstep
      rw [hcall] at hstep
      dsimp only at hstep ⊢
      split_ifs at hstep with havail
      cases hstep
      refine ⟨h.move (s.dataAvail - 1) s.freeSpace ?_ ?_, rfl⟩
      · rw [hcall]
        rfl
      · rw [hcall]
        exact Nat.sub_add_cancel havail
    | enterPop => exact h.pop hcall hstep
    | signalFree element =>
      unfold SimpleQueue.advance at hstep
      rw [hcall] at hstep
      cases hstep
      refine ⟨h.move s.dataAvail (s.freeSpace + 1) ?_ ?_, rfl⟩
      · rw [hcall]
        rfl
      · rw [hcall]
        rfl

theorem Balanced.run (h : Balanced n lost s) {actions : List (QueueAction α ι)}
    (hrun : s.run actions = some s') : Balanced n (lost + s.modifications actions) s' := by
  induction actions generalizing s lost with
  | nil =>
    cases hrun
    exact h
  | cons a actions ih =>
    unfold SimpleQueue.run at hrun
    unfold modifications
    cases hstep : s.step a with
    | none =>
      rw [hstep] at hrun
      cases hrun
    | some t =>
      rw [hstep] at hrun
      dsimp only at hrun ⊢
      rw [← Nat.add_assoc]
      exact ih (h.step hstep).1 hrun

/-- Between calls the slots are counted, and the next step keeps the elements in their order. -/
def KeepsSlots (n : ℕ) (s : SimpleQueue α ι) : Prop :=
  (s.Quiet → Conserved n s) ∧ ∀ a s', s.step a = some s' → FifoStep s a s'

/-- **The queue conserves its slots exactly if no element has been modified** by a call that might
have pushed one. -/
theorem keepsSlots_iff_unmodified [Inhabited α] (hn : 0 < n) (actions : List (QueueAction α ι))
    (hrun : (new n).run actions = some s) :
    KeepsSlots n s ↔ (s.Quiet → (new n : SimpleQueue α ι).modifications actions = 0) := by
  have hnew : Balanced n 0 (new n : SimpleQueue α ι) := balanced_new hn
  have hbalanced := hnew.run hrun
  rw [Nat.zero_add] at hbalanced
  constructor
  · intro hkeeps hquiet
    exact (hbalanced.conserved_iff hquiet).mp (hkeeps.1 hquiet)
  · intro hnone
    exact ⟨fun hquiet => (hbalanced.conserved_iff hquiet).mpr (hnone hquiet),
      fun _ _ hstep => (hbalanced.step hstep).2⟩

end SimpleQueue

/-- A call of `pushOrModify` for an element that is there already. -/
def pushTwice : List (QueueAction ℕ Unit) :=
  [.push () 5, .advance (), .advance (), .advance (),
    .pushOrModify () 5 fun _ x => (x == 5, x), .advance (), .advance ()]

theorem keepsSlots_iff_unmodified_push : ∃ s : SimpleQueue ℕ Unit,
    (SimpleQueue.new 2).run (pushTwice.take 4) = some s ∧ (SimpleQueue.KeepsSlots 2 s ↔
      (s.Quiet → (SimpleQueue.new 2 : SimpleQueue ℕ Unit).modifications (pushTwice.take 4) = 0)) :=
  ⟨_, rfl, SimpleQueue.keepsSlots_iff_unmodified (by decide) _ rfl⟩

/-- Of two slots one is used and none is free. -/
theorem modified_not_keepsSlots : ¬∀ (n : ℕ) (actions : List (QueueAction ℕ Unit))
    (s : SimpleQueue ℕ Unit), 0 < n → (SimpleQueue.new n).run actions = some s →
    SimpleQueue.KeepsSlots n s := by
  intro h
  have hkeeps := h 2 pushTwice _ (by decide) rfl
  have hslots := (hkeeps.1 fun _ => rfl).slots
  exact absurd hslots (by decide)

end Udp
