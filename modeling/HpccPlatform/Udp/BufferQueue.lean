import HpccPlatform.Library.Linked

/-!
# The queue of data buffers

`queue_t` of `roxie/udplib/udpsha.cpp`: the buffers are linked by `msgNext`, one semaphore counts
what can be popped, and another one wakes the threads that wait for room.  The threads take turns
at every operation on a semaphore and at every critical section; signals are sent after the
critical section.
-/

namespace Udp

/-- Where a thread is in a call.  The thread that waits for `free_sl` comes back to the critical
section with the same buffer. -/
inductive BufferCall where
  | idle
  | enterPush (buf : ℕ) (wait : Bool)
  | waitFree (buf : ℕ)
  | woken (buf : ℕ)
  | signalData
  | waitData (block : Bool)
  | enterPop
  | popped (buf : ℕ) (signalFreeSlots : ℕ)
  | enterRemove (pkCmpFn : ℕ → Bool)
  | signalFree (signalFreeSlots : ℕ)

structure BufferQueue (ι : Type*) where
  head : Option ℕ
  tail : Option ℕ
  msgNext : ℕ → Option ℕ
  count : ℕ
  limit : ℕ
  dataAvail : ℕ
  freeSl : ℕ
  signalFreeSl : ℕ
  calls : ι → BufferCall

/-- A call, or the next operation of a thread.  `removeData` without a key is for all buffers. -/
inductive BufferAction (ι : Type*) where
  | pushOwn (i : ι) (buf : ℕ)
  | pushOwnWait (i : ι) (buf : ℕ)
  | pop (i : ι) (block : Bool)
  | removeData (i : ι) (pkCmpFn : ℕ → Bool)
  | advance (i : ι)

/-- The buffers that a step puts into the queue or takes from it. -/
inductive Moved where
  | nothing
  | entered (buf : ℕ)
  | popped (buf : ℕ)
  | removed (bufs : List ℕ)

namespace BufferQueue

variable {ι : Type*}

def new (limit : ℕ) : BufferQueue ι :=
  ⟨none, none, fun _ => none, 0, limit, 0, 0, 0, fun _ => .idle⟩

/-- There is no result where an assertion fails. -/
def doEnqueue (s : BufferQueue ι) (buf : ℕ) : Option (BufferQueue ι) :=
  match s.tail with
  | some tail =>
    if s.head = none ∨ s.msgNext tail ≠ none then none
    else some { s with
      msgNext := Function.update s.msgNext tail (some buf)
      tail := some buf
      count := s.count + 1 }
  | none =>
    if s.head ≠ none then none
    else some { s with head := some buf, tail := some buf, count := s.count + 1 }

/-- A place has become free: a waiting thread is to be woken, if there is one and there is room. -/
def wakeWaiter (s : BufferQueue ι) : BufferQueue ι × ℕ :=
  if s.count < s.limit ∧ s.signalFreeSl ≠ 0 then
    ({ s with signalFreeSl := s.signalFreeSl - 1 }, 1)
  else (s, 0)

/-- The first buffer and the number of threads to wake. -/
def takeHead (s : BufferQueue ι) : Option (ℕ × BufferQueue ι × ℕ) :=
  match s.head with
  | none => none
  | some ret =>
    let s := { s with count := s.count - 1, head := s.msgNext ret }
    if s.head = none then
      if s.count = 0 then some (ret, { s with tail := none }.wakeWaiter) else none
    else some (ret, s.wakeWaiter)

/-- A buffer is taken out behind `prev`. -/
def unlink (s : BufferQueue ι) (prev : Option ℕ) (temp : ℕ) : Option (BufferQueue ι) :=
  let tail := if s.tail = some temp then prev else s.tail
  match prev with
  | none =>
    if s.head = some temp then
      some { s with head := s.msgNext temp, tail := tail, count := s.count - 1 }
    else none
  | some p =>
    some { s with
      msgNext := Function.update s.msgNext p (s.msgNext temp), tail := tail, count := s.count - 1 }

/-- The loop of `removeData`, with the buffers removed so far. -/
def removeLoop (pkCmpFn : ℕ → Bool) :
    ℕ → BufferQueue ι → Option ℕ → Option ℕ → ℕ → List ℕ → Option (BufferQueue ι × ℕ × List ℕ)
  | _, s, _, none, signalFreeSlots, removed => some (s, signalFreeSlots, removed)
  | 0, _, _, some _, _, _ => none
  | fuel + 1, s, prev, some finger, signalFreeSlots, removed =>
    if pkCmpFn finger then
      match s.unlink prev finger with
      | none => none
      | some s' =>
        removeLoop pkCmpFn fuel s'.wakeWaiter.1 prev (s.msgNext finger)
          (signalFreeSlots + s'.wakeWaiter.2) (removed ++ [finger])
    else removeLoop pkCmpFn fuel s (some finger) (s.msgNext finger) signalFreeSlots removed

variable [DecidableEq ι]

def setCall (s : BufferQueue ι) (i : ι) (c : BufferCall) : BufferQueue ι :=
  { s with calls := Function.update s.calls i c }

def call (s : BufferQueue ι) (i : ι) (c : BufferCall) : Option (BufferQueue ι × Moved) :=
  match s.calls i with
  | .idle => some (s.setCall i c, .nothing)
  | _ => none

/-- The critical section of a push. -/
def enqueue (s : BufferQueue ι) (i : ι) (buf : ℕ) : Option (BufferQueue ι × Moved) :=
  (s.doEnqueue buf).map fun s => (s.setCall i .signalData, .entered buf)

/-- That of `pushOwnWait`. -/
def enqueueWait (s : BufferQueue ι) (i : ι) (buf : ℕ) : Option (BufferQueue ι × Moved) :=
  if s.count < s.limit then s.enqueue i buf
  else some ({ s with signalFreeSl := s.signalFreeSl + 1 }.setCall i (.waitFree buf), .nothing)

/-- The next operation of a thread; there is none while it has to wait, and where an assertion
fails. -/
def advance (s : BufferQueue ι) (i : ι) : Option (BufferQueue ι × Moved) :=
  match s.calls i with
  | .idle => none
  | .enterPush buf wait => if wait then s.enqueueWait i buf else s.enqueue i buf
  | .waitFree buf =>
    if 0 < s.freeSl then some ({ s with freeSl := s.freeSl - 1 }.setCall i (.woken buf), .nothing)
    else none
  | .woken buf => s.enqueueWait i buf
  | .signalData => some ({ s with dataAvail := s.dataAvail + 1 }.setCall i .idle, .nothing)
  | .waitData block =>
    if 0 < s.dataAvail then
      some ({ s with dataAvail := s.dataAvail - 1 }.setCall i .enterPop, .nothing)
    else if block then none
    else some (s.setCall i .idle, .nothing)
  | .enterPop =>
    if s.count = 0 then some (s.setCall i .idle, .nothing)
    else s.takeHead.map fun r => (r.2.1.setCall i (.popped r.1 r.2.2), .popped r.1)
  | .popped buf signalFreeSlots =>
    some ({ s with
      msgNext := Function.update s.msgNext buf none
      freeSl := s.freeSl + signalFreeSlots }.setCall i .idle, .nothing)
  | .enterRemove pkCmpFn =>
    if s.count = 0 then some (s.setCall i (.signalFree 0), .nothing)
    else (removeLoop pkCmpFn s.count s none s.head 0 []).map fun r =>
      (r.1.setCall i (.signalFree r.2.1), .removed r.2.2)
  | .signalFree signalFreeSlots =>
    some ({ s with freeSl := s.freeSl + signalFreeSlots }.setCall i .idle, .nothing)

/-- A buffer that is pushed has no other behind it. -/
def step (s : BufferQueue ι) : BufferAction ι → Option (BufferQueue ι × Moved)
  | .pushOwn i buf => if s.msgNext buf = none then s.call i (.enterPush buf false) else none
  | .pushOwnWait i buf => if s.msgNext buf = none then s.call i (.enterPush buf true) else none
  | .pop i block => s.call i (.waitData block)
  | .removeData i pkCmpFn => s.call i (.enterRemove pkCmpFn)
  | .advance i => s.advance i

end BufferQueue

/-- The buffer that a thread has in hand. -/
def BufferCall.buffer : BufferCall → Option ℕ
  | .enterPush buf _ => some buf
  | .waitFree buf => some buf
  | .woken buf => some buf
  | .popped buf _ => some buf
  | _ => none

namespace BufferQueue

variable {ι : Type*}

/-- The buffers in the queue. -/
def buffers (s : BufferQueue ι) : List ℕ := Linked.follow s.msgNext s.count s.head

/-- A buffer belongs to the caller when it is neither in the queue nor with another thread. -/
def Owned (s : BufferQueue ι) (buf : ℕ) : Prop :=
  buf ∉ s.buffers ∧ ∀ i, (s.calls i).buffer ≠ some buf

/-- Only buffers that belong to the caller are pushed. -/
def Enabled (s : BufferQueue ι) : BufferAction ι → Prop
  | .pushOwn _ buf => s.Owned buf
  | .pushOwnWait _ buf => s.Owned buf
  | _ => True

end BufferQueue

/-- The buffers that have entered, and those that have left with how they left, each in order. -/
structure History where
  entered : List ℕ
  left : List (Bool × ℕ)

namespace History

def empty : History := ⟨[], []⟩

def record (h : History) : Moved → History
  | .nothing => h
  | .entered buf => { h with entered := h.entered ++ [buf] }
  | .popped buf => { h with left := h.left ++ [(true, buf)] }
  | .removed bufs => { h with left := h.left ++ bufs.map fun buf => (false, buf) }

def popped (h : History) : List ℕ := (h.left.filter fun e => e.1).map Prod.snd

end History

namespace BufferQueue

/-- The states of a run, with what has happened. -/
inductive Run {ι : Type*} [DecidableEq ι] (limit : ℕ) : BufferQueue ι → History → Prop
  | new : Run limit (new limit) .empty
  | step {s s' : BufferQueue ι} {h : History} {a : BufferAction ι} {moved : Moved} :
    Run limit s h → s.Enabled a → s.step a = some (s', moved) → Run limit s' (h.record moved)

end BufferQueue

end Udp
