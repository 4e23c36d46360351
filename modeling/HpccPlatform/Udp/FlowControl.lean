import HpccPlatform.Library.DoublyLinked
import HpccPlatform.Udp.Tracker

/-!
# The flow control of a receiver

`receive_receive_flow` of `roxie/udplib/udptrr.cpp` decides which senders may send.  A sender asks
with `request_to_send` and is put on the list of pending requests; `checkPendingRequests` takes
senders from that list and gives each a permit, which is put on the list of pending permits until the
sender says that it is done or the permit expires.  A sender may have several permits, each for the
flow sequence number of a request.

`msTick` counts milliseconds modulo `2 ^ 32`.  Only differences of times are used, so that the model
keeps the times and reduces the differences.
-/

namespace Udp

open DoublyLinked

inductive ReceiveState where
  | idle
  | requested
  | granted
  deriving DecidableEq

structure SendPermit where
  flowSeq : ℕ
  numPackets : ℕ
  sendSeq : ℕ
  permitTime : ℕ

namespace SendPermit

/-- The number 0 is not used by a sender. -/
def isActive (p : SendPermit) : Prop := p.flowSeq ≠ 0

instance (p : SendPermit) : Decidable p.isActive := inferInstanceAs (Decidable (p.flowSeq ≠ 0))

/-- The packets are counted down by another thread, and what is below zero is zero. -/
def getNumReserved (p : SendPermit) : ℕ :=
  if p.numPackets < 2 ^ 31 then p.numPackets else 0

def revoked : SendPermit := ⟨0, 0, 0, 0⟩

end SendPermit

def maxPermitsPerSender : ℕ := 4

structure UdpSenderEntry where
  state : ReceiveState
  flowSeq : ℕ
  sendSeq : ℕ
  timeouts : ℕ
  requestTime : ℕ
  lastPermitTime : ℕ
  numPermits : ℕ
  permits : Fin maxPermitsPerSender → SendPermit

namespace UdpSenderEntry

def new : UdpSenderEntry := ⟨.idle, 0, 0, 0, 0, 0, 0, fun _ => .revoked⟩

def hasActivePermit (e : UdpSenderEntry) : Prop := e.numPermits ≠ 0

instance (e : UdpSenderEntry) : Decidable e.hasActivePermit :=
  inferInstanceAs (Decidable (e.numPermits ≠ 0))

def hasUnusedPermit (e : UdpSenderEntry) : Prop := e.numPermits ≠ maxPermitsPerSender

instance (e : UdpSenderEntry) : Decidable e.hasUnusedPermit :=
  inferInstanceAs (Decidable (e.numPermits ≠ maxPermitsPerSender))

/-- The first permit with the number. -/
def queryPermit (e : UdpSenderEntry) (flowSeq : ℕ) : Option (Fin maxPermitsPerSender) :=
  (List.finRange maxPermitsPerSender).find? fun i => (e.permits i).flowSeq = flowSeq

/-- There is no result where the code throws. -/
def allocatePermit (e : UdpSenderEntry) (permitTime num : ℕ) :
    Option (UdpSenderEntry × Fin maxPermitsPerSender) :=
  match (List.finRange maxPermitsPerSender).find? fun i => ¬(e.permits i).isActive with
  | some i =>
    some ({ e with
      numPermits := e.numPermits + 1
      lastPermitTime := permitTime
      permits := Function.update e.permits i ⟨e.flowSeq, num, e.sendSeq, permitTime⟩ }, i)
  | none => none

def revokePermit (e : UdpSenderEntry) (i : Fin maxPermitsPerSender) : UdpSenderEntry :=
  { e with
    permits := Function.update e.permits i .revoked
    numPermits := e.numPermits - 1 }

def updateNumReserved (e : UdpSenderEntry) (flowSeq num : ℕ) : UdpSenderEntry :=
  match e.queryPermit flowSeq with
  | some i =>
    { e with permits := Function.update e.permits i { (e.permits i) with numPackets := num } }
  | none => e

end UdpSenderEntry

/-- What is sent back to a sender: `ok_to_send`, or `request_received` with no data. -/
inductive PermitMessage where
  | ok_to_send (flowSeq maxData : ℕ)
  | request_received (flowSeq : ℕ)
  deriving DecidableEq

/-- The limits that a receiver is started with. -/
structure FlowLimits where
  maxSlotsPerSender : ℕ
  maxPermits : ℕ
  udpPermitTimeout : ℕ
  udpMaxPermitDeadTimeouts : ℕ
  udpMaxPendingPermits : ℕ
  udpMinSlotsPerSender : ℕ
  updDataSendTimeout : ℕ
  udpResendDelay : ℕ

/-- The state of `receive_receive_flow`, with the table of the senders, the time and what was
sent. -/
structure ReceiveFlow (σ : Type*) where
  senders : σ → UdpSenderEntry
  pendingRequests : LinkedListOf σ
  pendingPermits : LinkedListOf (σ × Fin maxPermitsPerSender)
  msTick : ℕ
  sent : List (σ × PermitMessage)

namespace ReceiveFlow

variable {σ : Type*} [DecidableEq σ]

def new : ReceiveFlow σ := ⟨fun _ => .new, .empty, .empty, 0, []⟩

def setSender (s : ReceiveFlow σ) (x : σ) (e : UdpSenderEntry) : ReceiveFlow σ :=
  { s with senders := Function.update s.senders x e }

def send (s : ReceiveFlow σ) (x : σ) (m : PermitMessage) : ReceiveFlow σ :=
  { s with sent := s.sent ++ [(x, m)] }

/-- The message has the number of the latest request. -/
def sendPermitToSend (s : ReceiveFlow σ) (x : σ) (maxTransfer : ℕ) : ReceiveFlow σ :=
  s.send x (.ok_to_send (s.senders x).flowSeq maxTransfer)

def acknowledgeRequest (s : ReceiveFlow σ) (x : σ) (flowSeq sendSeq : ℕ) : ReceiveFlow σ :=
  (s.setSender x { s.senders x with
    flowSeq := flowSeq
    sendSeq := sendSeq
    requestTime := s.msTick
    timeouts := 0 }).send x (.request_received flowSeq)

/-- A sender is put at the back of the list of requests. -/
def appendRequest (s : ReceiveFlow σ) (x : σ) : Option (ReceiveFlow σ) :=
  (s.pendingRequests.append x).map fun l =>
    { s with pendingRequests := l }.setSender x { s.senders x with state := .requested }

def noteRequest (s : ReceiveFlow σ) (x : σ) (flowSeq sendSeq : ℕ) : Option (ReceiveFlow σ) :=
  match (s.senders x).queryPermit flowSeq with
  | some i =>
    -- probably the ok_to_send was lost
    some (s.sendPermitToSend x ((s.senders x).permits i).getNumReserved)
  | none =>
    match (s.senders x).state with
    | .granted | .idle => (s.appendRequest x).map fun s => s.acknowledgeRequest x flowSeq sendSeq
    | .requested => some (s.acknowledgeRequest x flowSeq sendSeq)

/-- The sender is given a permit, at the time that it is then. -/
def grantPermit (s : ReceiveFlow σ) (x : σ) (slots : ℕ) : Option (ReceiveFlow σ) :=
  match (s.senders x).allocatePermit s.msTick slots with
  | none => none
  | some (e, i) =>
    (s.pendingPermits.append (x, i)).map fun l =>
      ({ s with
        pendingRequests := s.pendingRequests.remove x
        pendingPermits := l }.setSender x { e with
          state := .granted
          requestTime := s.msTick }).sendPermitToSend x slots

/-- A permit leaves the list of permits and becomes unused. -/
def removePermit (s : ReceiveFlow σ) (p : σ × Fin maxPermitsPerSender) : ReceiveFlow σ :=
  { s with pendingPermits := s.pendingPermits.remove p }.setSender p.1
    ((s.senders p.1).revokePermit p.2)

/-- The number is not after the other one, in the order of numbers that wrap. -/
def notAfter (a b : ℕ) : Prop := unsignedSub a b = 0 ∨ 2 ^ 31 ≤ unsignedSub a b

instance (a b : ℕ) : Decidable (notAfter a b) :=
  inferInstanceAs (Decidable (unsignedSub a b = 0 ∨ 2 ^ 31 ≤ unsignedSub a b))

/-- A permit of the loop in `noteDone`. -/
def doneWith (x : σ) (flowSeq : ℕ) (s : ReceiveFlow σ) (i : Fin maxPermitsPerSender) :
    ReceiveFlow σ :=
  if ((s.senders x).permits i).isActive ∧ notAfter ((s.senders x).permits i).flowSeq flowSeq then
    s.removePermit (x, i)
  else s

def noteDone (s : ReceiveFlow σ) (x : σ) (flowSeq : ℕ) : ReceiveFlow σ :=
  let s := (List.finRange maxPermitsPerSender).foldl (doneWith x flowSeq) s
  if flowSeq = (s.senders x).flowSeq then
    match (s.senders x).state with
    | .requested =>
      { s with pendingRequests := s.pendingRequests.remove x }.setSender x
        { s.senders x with state := .idle }
    | .granted | .idle => s.setSender x { s.senders x with state := .idle }
  else s

end ReceiveFlow

/-- The commands of a sender. -/
inductive FlowCmd where
  | request_to_send
  | send_start
  | send_completed
  | request_to_send_more
  deriving DecidableEq

/-- A message of a sender, whose number is not 0. -/
structure UdpRequestToSendMsg where
  cmd : FlowCmd
  packets : ℕ
  sendSeq : ℕ
  flowSeq : ℕ
  flowSeq_pos : 0 < flowSeq
  flowSeq_lt : flowSeq < 2 ^ 32

/-- The number of the request that follows. -/
def nextFlowSeq (flowSeq : ℕ) : ℕ := max ((flowSeq + 1) % 2 ^ 32) 1

namespace ReceiveFlow

variable {σ : Type*} [DecidableEq σ]

def doFlowRequest (s : ReceiveFlow σ) (x : σ) (msg : UdpRequestToSendMsg) :
    Option (ReceiveFlow σ) :=
  match msg.cmd with
  | .request_to_send => s.noteRequest x msg.flowSeq msg.sendSeq
  | .send_start =>
    some (s.setSender x ((s.senders x).updateNumReserved msg.flowSeq msg.packets))
  | .send_completed => some (s.noteDone x msg.flowSeq)
  | .request_to_send_more =>
    (s.noteDone x msg.flowSeq).noteRequest x (nextFlowSeq msg.flowSeq) msg.sendSeq

/-- What happens to the sender of an expired permit. -/
def reschedule (limits : FlowLimits) (s : ReceiveFlow σ) (x : σ) : Option (ReceiveFlow σ) :=
  let e := { s.senders x with timeouts := ((s.senders x).timeouts + 1) % 2 ^ 32 }
  let s := s.setSender x e
  if limits.udpMaxPermitDeadTimeouts < e.timeouts ∧ limits.udpMaxPermitDeadTimeouts ≠ 0 then
    if ¬e.hasActivePermit ∧ e.state ≠ .requested then
      some (s.setSender x { e with state := .idle })
    else some s
  else if e.state ≠ .requested then s.appendRequest x
  else some s

/-- The loop over the permits that are expired, the first ones of the list.  The result has the
permit that is not, if there is one, and how long to wait. -/
def expirePermits (limits : FlowLimits) (now : ℕ) : ℕ → ReceiveFlow σ → ℕ →
    Option (σ × Fin maxPermitsPerSender) →
    Option (ReceiveFlow σ × Option (σ × Fin maxPermitsPerSender) × ℕ)
  | _, s, timeout, none => some (s, none, timeout)
  | 0, _, _, some _ => none
  | fuel + 1, s, timeout, some finger =>
    let elapsed := (now - ((s.senders finger.1).permits finger.2).permitTime) % 2 ^ 32
    if limits.udpPermitTimeout ≤ elapsed then
      match reschedule limits (s.removePermit finger) finger.1 with
      | some s' =>
        expirePermits limits now fuel s' timeout (s.pendingPermits.next finger)
      | none => none
    else some (s, some finger, limits.udpPermitTimeout - elapsed)

/-- The slots that are reserved by the permits from the given one on. -/
def sumReserved (s : ReceiveFlow σ) : ℕ → ℕ → Option (σ × Fin maxPermitsPerSender) → Option ℕ
  | _, permitsIssued, none => some permitsIssued
  | 0, _, some _ => none
  | fuel + 1, permitsIssued, some finger =>
    sumReserved s fuel
      ((permitsIssued + ((s.senders finger.1).permits finger.2).getNumReserved) % 2 ^ 32)
      (s.pendingPermits.next finger)

/-- What a call of `checkPendingRequests` finds: how long after the last event it is made and how
long the grant of a permit takes, how many places the queue has, and which senders can send. -/
structure Surroundings (σ : Type*) where
  elapsed : ℕ
  grantDelay : σ → ℕ
  available : ℕ
  canSendAny : σ → Bool

/-- The loop over the requests. -/
def grantPermits (limits : FlowLimits) (env : Surroundings σ) (permitsIssued : ℕ) : ℕ →
    ReceiveFlow σ → ℕ → ℕ → Bool → Bool → Option σ → Option (ReceiveFlow σ × ℕ × Bool × Bool)
  | _, s, _, timeout, anyCanSend, anyCannotSend, none =>
    some (s, timeout, anyCanSend, anyCannotSend)
  | 0, _, _, _, _, _, some _ => none
  | fuel + 1, s, slots, timeout, anyCanSend, anyCannotSend, some finger =>
    if limits.udpMaxPendingPermits ≤ s.pendingPermits.numEntries then
      some (s, timeout, anyCanSend, anyCannotSend)
    else if slots < limits.udpMinSlotsPerSender then
      some (s, min timeout (max (limits.updDataSendTimeout / 10) 1), anyCanSend, anyCannotSend)
    else if env.canSendAny finger then
      if (s.senders finger).hasUnusedPermit then
        let requestSlots := min (min slots limits.maxSlotsPerSender)
          (unsignedSub limits.maxPermits permitsIssued)
        match { s with msTick := s.msTick + env.grantDelay finger }.grantPermit finger
          requestSlots with
        | none => none
        | some s' =>
          -- the sender has been taken from the list, and with it the way to the next one
          grantPermits limits env permitsIssued fuel s' (slots - requestSlots)
            (min timeout limits.udpPermitTimeout) true anyCannotSend
            (s'.pendingRequests.next finger)
      else
        grantPermits limits env permitsIssued fuel s slots timeout anyCanSend anyCannotSend
          (s.pendingRequests.next finger)
    else
      grantPermits limits env permitsIssued fuel s slots timeout anyCanSend true
        (s.pendingRequests.next finger)

/-- The result has how long to wait for the next message. -/
def checkPendingRequests (limits : FlowLimits) (env : Surroundings σ) (s : ReceiveFlow σ) :
    Option (ReceiveFlow σ × ℕ) :=
  let s := { s with msTick := s.msTick + env.elapsed }
  match expirePermits limits s.msTick s.pendingPermits.numEntries s 5000 s.pendingPermits.head with
  | none => none
  | some (s, finger, timeout) =>
    match s.sumReserved s.pendingPermits.numEntries 0 finger with
    | none => none
    | some permitsIssued =>
      match grantPermits limits env permitsIssued s.pendingRequests.numEntries s
        (env.available - permitsIssued) timeout false false s.pendingRequests.head with
      | none => none
      | some (s, timeout, anyCanSend, anyCannotSend) =>
        if anyCannotSend ∧ ¬anyCanSend then
          some (s, min timeout (max limits.udpResendDelay 1))
        else some (s, timeout)

end ReceiveFlow

/-- A message comes, some time after the last event, or the requests are checked. -/
inductive FlowEvent (σ : Type*) where
  | message (x : σ) (msg : UdpRequestToSendMsg) (elapsed : ℕ)
  | check (env : ReceiveFlow.Surroundings σ)

namespace ReceiveFlow

variable {σ : Type*} [DecidableEq σ]

def step (limits : FlowLimits) (s : ReceiveFlow σ) : FlowEvent σ → Option (ReceiveFlow σ)
  | .message x msg elapsed => { s with msTick := s.msTick + elapsed }.doFlowRequest x msg
  | .check env => (checkPendingRequests limits env s).map Prod.fst

/-- All the events, one after the other. -/
def run (limits : FlowLimits) : ReceiveFlow σ → List (FlowEvent σ) → Option (ReceiveFlow σ)
  | s, [] => some s
  | s, event :: events =>
    match s.step limits event with
    | some s' => run limits s' events
    | none => none

end ReceiveFlow

end Udp
