import HpccPlatform.Udp.ResendList

/-!
# What the threads of a sender share

`UdpReceiverEntry` of `roxie/udplib/udptrs.cpp` has the data that is queued for one receiver, and is
used by several threads: any number of workers push data or abort it, `send_data` sends what a
permit allows, `send_resend_flow` repeats a request that was not answered, and `send_receive_flow`
takes the answers.  A step is one access to an atomic variable or one critical section.

Messages to the receiver are left out; what they depend on and what comes back is up to the
schedule.
-/

namespace Udp

/-- An `ok_to_send` message. -/
structure OkToSend where
  flowSeq : ℕ
  max_data : ℕ
  deriving DecidableEq

/-- Where a worker is in `pushData`: its buffer is queued and not counted, or it found no other one
and will make a request. -/
inductive PushPc where
  | idle
  | queued
  | requesting
  deriving DecidableEq

/-- Where a worker is in `removeData`: at a queue, with so many buffers removed. -/
inductive RemovePc (β : Type*) where
  | idle
  | removing (isKey : β → Bool) (queue removed : ℕ)

/-- Where `send_data` is in `sendData`. -/
inductive DataPc where
  | idle
  /-- at the loop that collects buffers -/
  | gather (maxPackets : ℕ)
  /-- in `popQueuedData`, with so many queues tried -/
  | popping (maxPackets tried : ℕ)
  /-- a buffer is taken and still counted -/
  | popped (maxPackets : ℕ)
  | sending
  /-- before the critical section of `sendDone` -/
  | done
  deriving DecidableEq

/-- Where `send_resend_flow` is: in its check of the entry or in `resendRequestToSend`. -/
inductive ResendPc where
  | idle
  | loadedExpiry (expireTime : ℕ)
  | loadedPermit (expireTime curPermitSeq : ℕ)
  /-- `resendRequestToSend` is called -/
  | called
  | counted
  deriving DecidableEq

/-- Where `send_receive_flow` is: in `notePermitReceived` or in `requestAcknowledged`. -/
inductive FlowPc where
  | idle
  | noting (flowSeq : ℕ)
  | comparing (flowSeq activePermitSeq : ℕ)
  | storing (flowSeq : ℕ)
  | resetting
  | acknowledged
  deriving DecidableEq

/-- What an entry is made with. -/
structure SendSettings where
  numQueues : ℕ
  queueSize : ℕ
  maxRequestDeadTimeouts : ℕ
  udpOutQsPriority : Bool
  maxPktsPerQ : ℕ → ℕ
  udpRemoveDuplicatePermits : Bool

/-- The entry and its threads: workers `ι` that push data and workers `κ` that abort it. -/
structure UdpReceiverEntry (β ι κ : Type*) where
  output_queue : ℕ → List β
  packetsQueued : ℕ
  requestExpiryTime : ℕ
  timeouts : ℕ
  activeFlowSequence : ℕ
  activePermitSeq : ℕ
  current_q : ℕ
  currentQNumPkts : ℕ
  send_queue : List OkToSend
  pushers : ι → PushPc
  aborters : κ → RemovePc β
  data : DataPc
  resend : ResendPc
  flow : FlowPc

/-- What is up to the schedule in a step: the time and the expiry time that is computed from it,
how many packets the permit leaves after those that are sent again, whether a queue seems empty,
whether enough was collected for a local receiver, and the list of packets to send again. -/
structure Choice where
  now : ℕ
  expiry : ℕ
  maxPackets : ℕ
  seemsEmpty : Bool
  enough : Bool
  resendList : Option UdpResendList
  nextSendSequence : ℕ

/-- A step of a thread. -/
inductive SendAction (β ι κ : Type*) where
  | pushData (i : ι) (queue : ℕ) (buffer : β)
  | pusher (i : ι) (choice : Choice)
  | abortData (j : κ) (isKey : β → Bool)
  | aborter (j : κ)
  | ok_to_send (permit : OkToSend) (accepted : Bool)
  | request_received
  | flow (choice : Choice)
  | data (choice : Choice)
  | resend (choice : Choice)

/-- `canRecord` -/
def UdpResendList.canRecord (l : UdpResendList) (seq : ℕ) : Prop :=
  l.count = 0 ∨ unsignedSub seq l.first < trackerBits

instance (l : UdpResendList) (seq : ℕ) : Decidable (l.canRecord seq) :=
  inferInstanceAs (Decidable (_ ∨ _))

/-- The number 0 is never used. -/
def nextFlowSequence (activeFlowSequence : ℕ) : ℕ :=
  let seq := (activeFlowSequence + 1) % 2 ^ 32
  if seq = 0 then 1 else seq

namespace UdpReceiverEntry

variable {β ι κ : Type*}

def new : UdpReceiverEntry β ι κ where
  output_queue _ := []
  packetsQueued := 0
  requestExpiryTime := 0
  timeouts := 0
  activeFlowSequence := 0
  activePermitSeq := 0
  current_q := 0
  currentQNumPkts := 0
  send_queue := []
  pushers _ := .idle
  aborters _ := .idle
  data := .idle
  resend := .idle
  flow := .idle

/-! ### Critical sections -/

def requestToSendNew (s : UdpReceiverEntry β ι κ) (expiry : ℕ) : UdpReceiverEntry β ι κ :=
  if s.requestExpiryTime = 0 then
    { s with
      activeFlowSequence := nextFlowSequence s.activeFlowSequence
      requestExpiryTime := expiry }
  else s

def dataRemaining (s : UdpReceiverEntry β ι κ) (c : Choice) : Prop :=
  match c.resendList with
  | some l => s.packetsQueued ≠ 0 ∧ l.canRecord c.nextSendSequence ∨ l.count ≠ 0
  | none => s.packetsQueued ≠ 0

instance (s : UdpReceiverEntry β ι κ) (c : Choice) : Decidable (s.dataRemaining c) := by
  unfold dataRemaining
  cases c.resendList <;> infer_instance

def sendDone (s : UdpReceiverEntry β ι κ) (c : Choice) : UdpReceiverEntry β ι κ :=
  if s.dataRemaining c ∧ s.requestExpiryTime ≠ 0 then
    { s with
      activeFlowSequence := nextFlowSequence s.activeFlowSequence
      requestExpiryTime := c.expiry }
  else { s with requestExpiryTime := 0 }

/-- `abort`: everything is removed. -/
def abort (settings : SendSettings) (s : UdpReceiverEntry β ι κ) : UdpReceiverEntry β ι κ :=
  let s := { s with
    timeouts := 0
    requestExpiryTime := 0 }
  if s.packetsQueued = 0 then s
  else
    let removed := ∑ q ∈ Finset.range settings.numQueues, (s.output_queue q).length
    { s with
      output_queue := fun q => if q < settings.numQueues then [] else s.output_queue q
      packetsQueued := unsignedSub s.packetsQueued (removed % 2 ^ 32) }

/-- `resendRequestToSend` after it has counted the timeout. -/
def resendRequestToSend (settings : SendSettings) (s : UdpReceiverEntry β ι κ) (expiry : ℕ) :
    UdpReceiverEntry β ι κ :=
  if settings.maxRequestDeadTimeouts ≠ 0 ∧ settings.maxRequestDeadTimeouts ≤ s.timeouts then
    s.abort settings
  else if s.requestExpiryTime ≠ 0 then { s with requestExpiryTime := expiry }
  else s

def requestAcknowledged (s : UdpReceiverEntry β ι κ) (expiry : ℕ) : UdpReceiverEntry β ι κ :=
  if s.requestExpiryTime ≠ 0 then { s with requestExpiryTime := expiry } else s

/-- One turn of the loop in `popQueuedData`: a buffer is taken from the current queue, or the next
queue becomes the current one. -/
def popQueue (settings : SendSettings) (s : UdpReceiverEntry β ι κ) (maxPackets tried : ℕ)
    (seemsEmpty : Bool) : UdpReceiverEntry β ι κ :=
  let next := (s.current_q + 1) % settings.numQueues
  let queue := if settings.udpOutQsPriority then s.current_q else next
  match s.output_queue queue, seemsEmpty with
  | _ :: rest, false =>
    let s := { s with
      output_queue := Function.update s.output_queue queue rest
      data := .popped maxPackets }
    if settings.udpOutQsPriority then
      if settings.maxPktsPerQ queue ≤ s.currentQNumPkts + 1 then
        { s with
          current_q := next
          currentQNumPkts := 0 }
      else { s with currentQNumPkts := s.currentQNumPkts + 1 }
    else { s with current_q := next }
  | _, _ =>
    { s with
      current_q := next
      currentQNumPkts := if settings.udpOutQsPriority then 0 else s.currentQNumPkts
      data := .popping maxPackets (tried + 1) }

/-! ### The threads -/

variable [DecidableEq ι] [DecidableEq κ]

def pusherStep (s : UdpReceiverEntry β ι κ) (i : ι) (c : Choice) : UdpReceiverEntry β ι κ :=
  match s.pushers i with
  | .idle => s
  | .queued =>
    { s with
      packetsQueued := (s.packetsQueued + 1) % 2 ^ 32
      pushers := Function.update s.pushers i
        (if s.packetsQueued = 0 then .requesting else .idle) }
  | .requesting =>
    { s.requestToSendNew c.expiry with pushers := Function.update s.pushers i .idle }

/-- `removeData` of a worker. -/
def aborterStep (settings : SendSettings) (s : UdpReceiverEntry β ι κ) (j : κ) :
    UdpReceiverEntry β ι κ :=
  match s.aborters j with
  | .idle => s
  | .removing isKey queue removed =>
    if queue < settings.numQueues then
      { s with
        output_queue := Function.update s.output_queue queue
          ((s.output_queue queue).filter fun b => !isKey b)
        aborters := Function.update s.aborters j (.removing isKey (queue + 1)
          (removed + ((s.output_queue queue).filter isKey).length)) }
    else
      { s with
        packetsQueued := unsignedSub s.packetsQueued (removed % 2 ^ 32)
        aborters := Function.update s.aborters j .idle }

/-- `sendData` of the next permit; one that is out of date is ignored. -/
def dataStep (settings : SendSettings) (s : UdpReceiverEntry β ι κ) (c : Choice) :
    UdpReceiverEntry β ι κ :=
  match s.data with
  | .idle =>
    match s.send_queue with
    | [] => s
    | permit :: rest =>
      let s := { s with send_queue := rest }
      if permit.flowSeq = s.activeFlowSequence then { s with data := .gather c.maxPackets } else s
  | .gather maxPackets =>
    if maxPackets ≠ 0 ∧ s.packetsQueued ≠ 0 then { s with data := .popping maxPackets 0 }
    else { s with data := .sending }
  | .popping maxPackets tried =>
    if tried < settings.numQueues then s.popQueue settings maxPackets tried c.seemsEmpty
    else { s with data := .sending }
  | .popped maxPackets =>
    { s with
      packetsQueued := unsignedSub s.packetsQueued 1
      data := if c.enough then .sending else .gather (maxPackets - 1) }
  | .sending =>
    { s with
      activePermitSeq := 0
      data := .done }
  | .done => { s.sendDone c with data := .idle }

/-- The check of the entry in `send_resend_flow`, and `resendRequestToSend`. -/
def resendStep (settings : SendSettings) (s : UdpReceiverEntry β ι κ) (c : Choice) :
    UdpReceiverEntry β ι κ :=
  match s.resend with
  | .idle => { s with resend := .loadedExpiry s.requestExpiryTime }
  | .loadedExpiry expireTime => { s with resend := .loadedPermit expireTime s.activePermitSeq }
  | .loadedPermit expireTime curPermitSeq =>
    -- the time to go is compared as a signed number
    if expireTime ≠ 0 ∧ (curPermitSeq = 0 ∨ curPermitSeq ≠ s.activeFlowSequence) ∧
        (unsignedSub expireTime c.now = 0 ∨ 2 ^ 31 ≤ unsignedSub expireTime c.now) then
      { s with resend := .called }
    else { s with resend := .idle }
  | .called =>
    { s with
      timeouts := (s.timeouts + 1) % 2 ^ 32
      resend := .counted }
  | .counted => { s.resendRequestToSend settings c.expiry with resend := .idle }

/-- `notePermitReceived` and `requestAcknowledged` -/
def flowStep (s : UdpReceiverEntry β ι κ) (c : Choice) : UdpReceiverEntry β ι κ :=
  match s.flow with
  | .idle => s
  | .noting flowSeq => { s with flow := .comparing flowSeq s.activePermitSeq }
  | .comparing flowSeq activePermitSeq =>
    if activePermitSeq = s.activeFlowSequence then { s with flow := .storing flowSeq }
    else { s with flow := .idle }
  | .storing flowSeq =>
    { s with
      activePermitSeq := flowSeq
      flow := .resetting }
  | .resetting =>
    { s with
      timeouts := 0
      flow := .idle }
  | .acknowledged => { s.requestAcknowledged c.expiry with flow := .idle }

/-- A thread that is busy does not begin a call. -/
def step (settings : SendSettings) (s : UdpReceiverEntry β ι κ) :
    SendAction β ι κ → UdpReceiverEntry β ι κ
  | .pushData i queue buffer =>
    -- `pushOwnWait` waits for room in the queue
    if s.pushers i = .idle ∧ queue < settings.numQueues ∧
        (s.output_queue queue).length < settings.queueSize then
      { s with
        output_queue := Function.update s.output_queue queue (s.output_queue queue ++ [buffer])
        pushers := Function.update s.pushers i .queued }
    else s
  | .pusher i c => s.pusherStep i c
  | .abortData j isKey =>
    match s.aborters j with
    | .idle =>
      if s.packetsQueued = 0 then s
      else { s with aborters := Function.update s.aborters j (.removing isKey 0 0) }
    | .removing _ _ _ => s
  | .aborter j => s.aborterStep settings j
  | .ok_to_send permit accepted =>
    -- `pushPermit` may fail, and then the permit is not noted
    if s.flow = .idle ∧ accepted = true then
      { s with
        send_queue :=
          if settings.udpRemoveDuplicatePermits = true ∧ permit ∈ s.send_queue then s.send_queue
          else s.send_queue ++ [permit]
        flow := .noting permit.flowSeq }
    else s
  | .request_received =>
    if s.flow = .idle then
      { s with
        timeouts := 0
        flow := .acknowledged }
    else s
  | .flow c => s.flowStep c
  | .data c => s.dataStep settings c
  | .resend c => s.resendStep settings c

def run (settings : SendSettings) : UdpReceiverEntry β ι κ → List (SendAction β ι κ) →
    UdpReceiverEntry β ι κ
  | s, [] => s
  | s, action :: actions => run settings (s.step settings action) actions

/-- Every step of a run is taken in a state in which `R` allows it. -/
def Along (settings : SendSettings) (R : UdpReceiverEntry β ι κ → SendAction β ι κ → Prop) :
    UdpReceiverEntry β ι κ → List (SendAction β ι κ) → Prop
  | _, [] => True
  | s, action :: actions => R s action ∧ Along settings R (s.step settings action) actions

end UdpReceiverEntry

end Udp
