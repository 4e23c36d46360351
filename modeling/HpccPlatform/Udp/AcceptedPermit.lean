import HpccPlatform.Udp.QueuedData

/-!
# A permit that waits

A permit for the active flow that is accepted should keep `send_resend_flow` from repeating the
request and reset the timeouts.  `notePermitReceived` is to record it, but passes over any permit
unless the permit that is recorded already is the one for the active flow.  As `sendData` records
the number 0 when it is done, this is so only for a permit that came before its request.

Which permits are accepted for the active flow, and not processed yet, is recorded beside a run.
-/

namespace Udp

/-- Which of the permits in the queue were accepted for the flow that was active, whether the one
that `send_data` works on was, and the one that `send_receive_flow` notes. -/
structure Watch where
  waiting : List Bool
  serving : Bool
  noting : Bool

namespace Watch

def new : Watch where
  waiting := []
  serving := false
  noting := false

/-- A permit for the active flow is accepted and not processed. -/
def Pending (w : Watch) : Prop := true ∈ w.waiting ∨ w.serving = true

/-- The permit is in the queue, so it is not put there again. -/
def mark (permit : OkToSend) (current : Bool) : List OkToSend → List Bool → List Bool
  | queued :: queue, flag :: flags =>
    if queued = permit then (flag || current) :: flags
    else flag :: mark permit current queue flags
  | _, flags => flags

variable {β ι κ : Type*}

def observe (settings : SendSettings) (s : UdpReceiverEntry β ι κ) (w : Watch) :
    SendAction β ι κ → Watch
  | .ok_to_send permit accepted =>
    if s.flow = .idle ∧ accepted = true then
      { w with
        waiting :=
          if settings.udpRemoveDuplicatePermits = true ∧ permit ∈ s.send_queue then
            mark permit (decide (permit.flowSeq = s.activeFlowSequence)) s.send_queue w.waiting
          else w.waiting ++ [decide (permit.flowSeq = s.activeFlowSequence)]
        noting := decide (permit.flowSeq = s.activeFlowSequence) }
    else w
  | .data _ =>
    match s.data, s.send_queue, w.waiting with
    | .idle, permit :: _, flag :: flags =>
      -- a permit that is out of date is processed at once
      { w with
        waiting := flags
        serving := flag && decide (permit.flowSeq = s.activeFlowSequence) }
    | .done, _, _ => { w with serving := false }
    | _, _, _ => w
  | _ => w

end Watch

/-- What `send_resend_flow` has read keeps it from a call, or it has not read it yet. -/
def ResendPc.Sees (activeFlowSequence : ℕ) : ResendPc → Prop
  | .idle => True
  | .loadedExpiry _ => True
  | .loadedPermit expireTime curPermitSeq => expireTime = 0 ∨ curPermitSeq = activeFlowSequence
  | .called => False
  | .counted => False

/-- The number of the permit that `notePermitReceived` is to record. -/
def FlowPc.note : FlowPc → Option ℕ
  | .noting flowSeq => some flowSeq
  | .comparing flowSeq _ => some flowSeq
  | .storing flowSeq => some flowSeq
  | _ => none

namespace UdpReceiverEntry

variable {β ι κ : Type*} {settings : SendSettings}

/-- In a step: `resendRequestToSend` is not called while a permit for the active flow waits, and
when such a permit has been noted the timeouts are reset. -/
structure Suppresses (s : UdpReceiverEntry β ι κ) (w : Watch) (s' : UdpReceiverEntry β ι κ) :
    Prop where
  calls : s.resend ≠ .called → s'.resend = .called → ¬ w.Pending
  resets : w.noting = true → s.flow ≠ .idle → s.flow ≠ .acknowledged → s'.flow = .idle →
    s.flow = .resetting ∧ s'.timeouts = 0

/-- In a step: a permit for the active flow is accepted while it already is the one that is
recorded, for a request that is active, and `send_resend_flow` is not at work on what it read before; no other
permit is accepted while such a permit waits; `send_data` is not done before the permit is noted, nor
while another one waits; and the request is not found expired between the end of `sendData` and
`sendDone`. -/
def Notes (s : UdpReceiverEntry β ι κ) (w : Watch) : SendAction β ι κ → Prop
  | .ok_to_send permit accepted =>
    s.flow = .idle → accepted = true →
      if permit.flowSeq = s.activeFlowSequence then
        s.activeFlowSequence ≠ 0 ∧ s.activePermitSeq = s.activeFlowSequence ∧
          s.requestExpiryTime ≠ 0 ∧ s.data ≠ .done ∧ s.resend.Sees s.activeFlowSequence
      else ¬ w.Pending
  | .data _ =>
    s.data = .sending → true ∉ w.waiting ∧ (s.flow.note ≠ none → w.noting = false)
  | .resend _ =>
    ∀ expireTime, s.resend = .loadedExpiry expireTime → s.data = .done → w.serving = true →
      expireTime = 0
  | .flow c => s.flow = .acknowledged → c.expiry ≠ 0
  | _ => True

/-- What holds between any two steps. -/
structure Watched (s : UdpReceiverEntry β ι κ) (w : Watch) : Prop where
  flagged : List.Forall₂ (fun permit flag => flag = true → permit.flowSeq = s.activeFlowSequence)
    s.send_queue w.waiting
  done : s.data = .done → true ∉ w.waiting
  serving : w.serving = true → s.data ≠ .idle
  numbered : w.Pending → s.activeFlowSequence ≠ 0
  requested : w.Pending → s.requestExpiryTime ≠ 0
  recorded : w.Pending → s.data ≠ .done → s.activePermitSeq = s.activeFlowSequence
  seen : w.Pending → s.resend.Sees s.activeFlowSequence
  noting : ∀ flowSeq, s.flow.note = some flowSeq → w.noting = true →
    flowSeq = s.activeFlowSequence ∧ w.Pending ∧ s.data ≠ .done
  comparing : ∀ flowSeq activePermitSeq, s.flow = .comparing flowSeq activePermitSeq →
    w.noting = true → activePermitSeq = s.activeFlowSequence
  stray : ∀ flowSeq, s.flow.note = some flowSeq → w.Pending → w.noting = true

theorem not_mem_forall₂ {α : Type*} {P : α → Prop} {queue : List α} {flags : List Bool}
    (hlength : queue.length = flags.length) (hflags : true ∉ flags) :
    List.Forall₂ (fun permit flag => flag = true → P permit) queue flags := by
  rw [List.forall₂_iff_zip]
  refine ⟨hlength, ?_⟩
  rintro permit flag hmem rfl
  exact absurd (List.of_mem_zip hmem).2 hflags

variable {s s' : UdpReceiverEntry β ι κ} {w w' : Watch}

/-- Where no permit waits for the active flow nothing is to be shown. -/
theorem watched_of_not_pending (hlength : s.send_queue.length = w.waiting.length)
    (hnot : ¬ w.Pending) (hnoting : s.flow.note ≠ none → w.noting = false) : s.Watched w := by
  have hflags : true ∉ w.waiting := fun h => hnot (Or.inl h)
  have hserving : w.serving ≠ true := fun h => hnot (Or.inr h)
  refine ⟨not_mem_forall₂ hlength hflags, fun _ => hflags, fun h => absurd h hserving,
    fun h => absurd h hnot, fun h => absurd h hnot, fun h => absurd h hnot,
    fun h => absurd h hnot, ?_, ?_, fun _ _ h => absurd h hnot⟩
  · intro flowSeq hnote htrue
    rw [hnoting (by rw [hnote]; exact Option.some_ne_none _)] at htrue
    cases htrue
  · intro flowSeq activePermitSeq hflow htrue
    rw [hnoting (by rw [hflow]; exact Option.some_ne_none _)] at htrue
    cases htrue

/-- A step that changes nothing that matters here. -/
theorem Watched.same (h : s.Watched w) (hactive : s'.activeFlowSequence = s.activeFlowSequence)
    (hpermit : s'.activePermitSeq = s.activePermitSeq)
    (hexpiry : s'.requestExpiryTime = s.requestExpiryTime)
    (hqueue : s'.send_queue = s.send_queue) (hdata : s'.data = s.data)
    (hresend : s'.resend = s.resend) (hflow : s'.flow = s.flow) : s'.Watched w := by
  obtain ⟨hflagged, hdone, hserving, hnumbered, hrequested, hrecorded, hseen, hnoting, hcomparing,
    hstray⟩ := h
  constructor <;> simp only [hactive, hpermit, hexpiry, hqueue, hdata, hresend, hflow] <;>
    assumption

/-- No permit for the active flow waits while a call is made. -/
theorem Watched.not_pending_of_sees (h : s.Watched w)
    (hresend : ¬ s.resend.Sees s.activeFlowSequence) : ¬ w.Pending :=
  fun hpending => hresend (h.seen hpending)

theorem Watched.length (h : s.Watched w) : s.send_queue.length = w.waiting.length :=
  h.flagged.length_eq

theorem Watched.noting_of_not_pending (h : s.Watched w) (hnot : ¬ w.Pending)
    (hnote : s.flow.note ≠ none) : w.noting = false := by
  obtain ⟨flowSeq, hflowSeq⟩ := Option.ne_none_iff_exists'.1 hnote
  rw [← Bool.not_eq_true]
  intro htrue
  exact hnot (h.noting flowSeq hflowSeq htrue).2.1

/-- As long as no permit waits the flow may change. -/
theorem Watched.change (h : s.Watched w) (hnot : ¬ w.Pending)
    (hqueue : s'.send_queue = s.send_queue) (hflow : s'.flow.note = s.flow.note) :
    s'.Watched w := by
  refine watched_of_not_pending ?_ hnot ?_
  · rw [hqueue]
    exact h.length
  · rw [hflow]
    exact h.noting_of_not_pending hnot

/-! ### The threads -/

theorem watched_pusherStep [DecidableEq ι] (h : s.Watched w) (i : ι) (c : Choice) :
    (s.pusherStep i c).Watched w := by
  unfold pusherStep
  cases s.pushers i with
  | idle => exact h
  | queued => exact h.same rfl rfl rfl rfl rfl rfl rfl
  | requesting =>
    unfold requestToSendNew
    dsimp only
    by_cases hexpiry : s.requestExpiryTime = 0
    · rw [if_pos hexpiry]
      exact h.change (fun hpending => h.requested hpending hexpiry) rfl rfl
    · rw [if_neg hexpiry]
      exact h.same rfl rfl rfl rfl rfl rfl rfl

theorem watched_aborterStep [DecidableEq κ] (h : s.Watched w) (j : κ) :
    (s.aborterStep settings j).Watched w := by
  unfold aborterStep
  cases s.aborters j with
  | idle => exact h
  | removing isKey queue removed =>
    dsimp only
    split <;> exact h.same rfl rfl rfl rfl rfl rfl rfl

/-- `send_resend_flow` goes on, and reads what is as it should be if a permit waits. -/
theorem Watched.read (h : s.Watched w) {resend : ResendPc}
    (hsees : w.Pending → resend.Sees s.activeFlowSequence) :
    { s with resend := resend }.Watched w :=
  ⟨h.flagged, h.done, h.serving, h.numbered, h.requested, h.recorded, hsees, h.noting, h.comparing,
    h.stray⟩

theorem watched_resendStep (h : s.Watched w) {c : Choice}
    (hnotes : ∀ expireTime, s.resend = .loadedExpiry expireTime → s.data = .done →
      w.serving = true → expireTime = 0) :
    (s.resendStep settings c).Watched w := by
  unfold resendStep
  cases hresend : s.resend with
  | idle => exact h.read fun _ => trivial
  | loadedExpiry expireTime =>
    refine h.read ?_
    intro hpending
    by_cases hdone : s.data = .done
    · exact Or.inl (hnotes _ hresend hdone (hpending.resolve_left (h.done hdone)))
    · exact Or.inr (h.recorded hpending hdone)
  | loadedPermit expireTime curPermitSeq =>
    dsimp only
    split
    · rename_i hcall
      refine h.read ?_
      intro hpending
      have hsees := h.seen hpending
      rw [hresend] at hsees
      obtain ⟨hexpire, hpermit, -⟩ := hcall
      rcases hsees with hzero | hsame
      · exact absurd hzero hexpire
      · rcases hpermit with hzero | hne
        · exact absurd (hsame.symm.trans hzero) (h.numbered hpending)
        · exact absurd hsame hne
    · exact h.read fun _ => trivial
  | called =>
    have hnot := h.not_pending_of_sees (by rw [hresend]; exact id)
    exact h.change hnot rfl rfl
  | counted =>
    have hnot := h.not_pending_of_sees (by rw [hresend]; exact id)
    unfold resendRequestToSend abort
    dsimp only
    split
    · split <;> exact h.change hnot rfl rfl
    · split <;> exact h.change hnot rfl rfl

/-- `notePermitReceived` goes on. -/
theorem Watched.turn (h : s.Watched w) {flow : FlowPc}
    (hnote : ∀ flowSeq, flow.note = some flowSeq → s.flow.note = some flowSeq)
    (hcomparing : ∀ flowSeq activePermitSeq, flow = .comparing flowSeq activePermitSeq →
      w.noting = true → activePermitSeq = s.activeFlowSequence) :
    { s with flow := flow }.Watched w :=
  ⟨h.flagged, h.done, h.serving, h.numbered, h.requested, h.recorded, h.seen,
    fun flowSeq hflow => h.noting flowSeq (hnote flowSeq hflow), hcomparing,
    fun flowSeq hflow => h.stray flowSeq (hnote flowSeq hflow)⟩

/-- `notePermitReceived` is done. -/
theorem Watched.rest (h : s.Watched w) {flow : FlowPc} (hnote : flow.note = none) :
    { s with flow := flow }.Watched w := by
  refine h.turn ?_ ?_
  · intro flowSeq hflow
    rw [hnote] at hflow
    cases hflow
  · rintro flowSeq activePermitSeq rfl
    cases hnote

theorem watched_flowStep (h : s.Watched w) {c : Choice}
    (hnotes : s.flow = .acknowledged → c.expiry ≠ 0) : (s.flowStep c).Watched w := by
  unfold flowStep
  cases hflow : s.flow with
  | idle => exact h
  | noting flowSeq =>
    refine h.turn ?_ ?_
    · intro k hk
      rw [hflow]
      exact hk
    · intro k activePermitSeq hcomparing htrue
      obtain ⟨-, hpending, hdone⟩ := h.noting flowSeq (by rw [hflow]; rfl) htrue
      cases hcomparing
      exact h.recorded hpending hdone
  | comparing flowSeq activePermitSeq =>
    dsimp only
    split
    · refine h.turn ?_ ?_
      · intro k hk
        rw [hflow]
        exact hk
      · intro k seq hcomparing
        cases hcomparing
    · exact h.rest rfl
  | storing flowSeq =>
    by_cases hpending : w.Pending
    · have htrue := h.stray flowSeq (by rw [hflow]; rfl) hpending
      obtain ⟨hseq, -, hdone⟩ := h.noting flowSeq (by rw [hflow]; rfl) htrue
      have hstored : { s with activePermitSeq := flowSeq }.Watched w :=
        h.same rfl (hseq.trans (h.recorded hpending hdone).symm) rfl rfl rfl rfl rfl
      exact hstored.rest rfl
    · exact watched_of_not_pending h.length hpending fun hnote => absurd rfl hnote
  | resetting =>
    have htimeouts : { s with timeouts := 0 }.Watched w := h.same rfl rfl rfl rfl rfl rfl rfl
    exact htimeouts.rest rfl
  | acknowledged =>
    unfold requestAcknowledged
    dsimp only
    split
    · have hexpiry : { s with requestExpiryTime := c.expiry }.Watched w :=
        ⟨h.flagged, h.done, h.serving, h.numbered, fun _ => hnotes hflow, h.recorded, h.seen,
          h.noting, h.comparing, h.stray⟩
      exact hexpiry.rest rfl
    · exact h.rest rfl

/-- `send_data` goes on with a permit and is not done with it. -/
theorem Watched.work (h : s.Watched w) {data : DataPc} (hactive : s.data ≠ .done)
    (hdone : data ≠ .done) (hidle : data ≠ .idle) : { s with data := data }.Watched w :=
  ⟨h.flagged, fun hdata => absurd hdata hdone, fun _ => hidle, h.numbered, h.requested,
    fun hpending _ => h.recorded hpending hactive, h.seen,
    fun flowSeq hnote htrue =>
      ⟨(h.noting flowSeq hnote htrue).1, (h.noting flowSeq hnote htrue).2.1, hdone⟩,
    h.comparing, h.stray⟩

/-- `send_data` takes a permit; one that was accepted for the active flow is not out of date. -/
theorem Watched.take (h : s.Watched w) {permit : OkToSend} {queue : List OkToSend} {flag : Bool}
    {flags : List Bool} {data : DataPc} (hidle : s.data = .idle)
    (hqueue : s.send_queue = permit :: queue) (hwaiting : w.waiting = flag :: flags)
    (hdone : data ≠ .done) (hdata : permit.flowSeq = s.activeFlowSequence → data ≠ .idle) :
    { s with
      send_queue := queue
      data := data }.Watched
      { w with
        waiting := flags
        serving := flag && decide (permit.flowSeq = s.activeFlowSequence) } := by
  have hserving : w.serving ≠ true := fun htrue => h.serving htrue hidle
  have hflagged := h.flagged
  rw [hqueue, hwaiting, List.forall₂_cons] at hflagged
  obtain ⟨hflag, hflags⟩ := hflagged
  have hpending : w.Pending ↔ true ∈ flags ∨
      (flag && decide (permit.flowSeq = s.activeFlowSequence)) = true := by
    rw [Watch.Pending, or_iff_left hserving, hwaiting, List.mem_cons, Bool.and_eq_true,
      decide_eq_true_eq, or_comm, eq_comm, and_iff_left_of_imp hflag]
  refine ⟨hflags, fun hd => absurd hd hdone, ?_, ?_, ?_, ?_, ?_, ?_, h.comparing, ?_⟩
  · intro htrue
    rw [Bool.and_eq_true, decide_eq_true_eq] at htrue
    exact hdata htrue.2
  · exact fun hp => h.numbered (hpending.2 hp)
  · exact fun hp => h.requested (hpending.2 hp)
  · exact fun hp _ => h.recorded (hpending.2 hp) (by rw [hidle]; simp)
  · exact fun hp => h.seen (hpending.2 hp)
  · intro flowSeq hnote htrue
    obtain ⟨hseq, hp, -⟩ := h.noting flowSeq hnote htrue
    exact ⟨hseq, hpending.1 hp, hdone⟩
  · exact fun flowSeq hnote hp => h.stray flowSeq hnote (hpending.2 hp)

theorem watched_popQueue (h : s.Watched w) {maxPackets tried : ℕ} {seemsEmpty : Bool}
    (hdata : s.data ≠ .done) : (s.popQueue settings maxPackets tried seemsEmpty).Watched w := by
  have hpopped : { s with data := .popped maxPackets }.Watched w :=
    h.work hdata (by simp) (by simp)
  have hpopping : { s with data := .popping maxPackets (tried + 1) }.Watched w :=
    h.work hdata (by simp) (by simp)
  unfold popQueue
  dsimp only
  split
  · split
    · split <;> exact hpopped.same rfl rfl rfl rfl rfl rfl rfl
    · exact hpopped.same rfl rfl rfl rfl rfl rfl rfl
  · exact hpopping.same rfl rfl rfl rfl rfl rfl rfl

theorem watched_dataStep (h : s.Watched w) {c : Choice}
    (hnotes : s.data = .sending → true ∉ w.waiting ∧ (s.flow.note ≠ none → w.noting = false)) :
    (s.dataStep settings c).Watched (w.observe settings s (.data c)) := by
  unfold dataStep Watch.observe
  cases hdata : s.data with
  | idle =>
    cases hqueue : s.send_queue with
    | nil =>
      cases w.waiting <;> exact h
    | cons permit queue =>
      cases hwaiting : w.waiting with
      | nil =>
        have hlength := h.length
        rw [hqueue, hwaiting] at hlength
        cases hlength
      | cons flag flags =>
        dsimp only
        split
        · exact h.take hdata hqueue hwaiting (by simp) (by simp)
        · rename_i hstale
          exact h.take hdata hqueue hwaiting (by simp) fun hactive => absurd hactive hstale
  | gather maxPackets =>
    dsimp only
    split <;> exact h.work (by rw [hdata]; simp) (by simp) (by simp)
  | popping maxPackets tried =>
    dsimp only
    split
    · exact watched_popQueue h (by rw [hdata]; simp)
    · exact h.work (by rw [hdata]; simp) (by simp) (by simp)
  | popped maxPackets =>
    dsimp only
    have hwork : { s with
        data := if c.enough = true then DataPc.sending else .gather (maxPackets - 1) }.Watched
          w := by
      refine h.work (by rw [hdata]; simp) ?_ ?_ <;> split <;> simp
    exact hwork.same rfl rfl rfl rfl rfl rfl rfl
  | sending =>
    obtain ⟨hflags, hnoting⟩ := hnotes hdata
    refine ⟨h.flagged, fun _ => hflags, fun _ => by simp, h.numbered, h.requested,
      fun _ hdone => absurd rfl hdone, h.seen, ?_, h.comparing, h.stray⟩
    intro flowSeq hnote htrue
    rw [hnoting (by rw [hnote]; exact Option.some_ne_none _)] at htrue
    cases htrue
  | done =>
    refine watched_of_not_pending ?_ ?_ ?_
    · unfold sendDone
      dsimp only
      split <;> exact h.length
    · rintro (hflag | hserving)
      · exact h.done hdata hflag
      · cases hserving
    · intro hnote
      obtain ⟨flowSeq, hflowSeq⟩ := Option.ne_none_iff_exists'.1 hnote
      rw [← Bool.not_eq_true]
      intro htrue
      refine (h.noting flowSeq ?_ htrue).2.2 hdata
      rw [← hflowSeq]
      unfold sendDone
      dsimp only
      split <;> rfl

/-! ### A permit is accepted -/

theorem mark_false (permit : OkToSend) (queue : List OkToSend) (flags : List Bool) :
    Watch.mark permit false queue flags = flags := by
  induction queue generalizing flags with
  | nil => rfl
  | cons queued queue ih =>
    cases flags with
    | nil => rfl
    | cons flag flags =>
      unfold Watch.mark
      rw [Bool.or_false, ih, ite_self]

theorem length_mark (permit : OkToSend) (current : Bool) (queue : List OkToSend)
    (flags : List Bool) : (Watch.mark permit current queue flags).length = flags.length := by
  induction queue generalizing flags with
  | nil => rfl
  | cons queued queue ih =>
    cases flags with
    | nil => rfl
    | cons flag flags =>
      unfold Watch.mark
      split
      · rfl
      · exact congrArg Nat.succ (ih flags)

/-- The permit that is in the queue is marked, and no other. -/
theorem forall₂_mark {P : OkToSend → Prop} {permit : OkToSend} (hpermit : P permit)
    {queue : List OkToSend} {flags : List Bool} (hmem : permit ∈ queue)
    (hflags : List.Forall₂ (fun permit flag => flag = true → P permit) queue flags) :
    List.Forall₂ (fun permit flag => flag = true → P permit) queue
        (Watch.mark permit true queue flags) ∧
      true ∈ Watch.mark permit true queue flags := by
  induction hflags with
  | nil => cases hmem
  | cons hflag hflags ih =>
    unfold Watch.mark
    split
    · rename_i hsame
      rw [Bool.or_true]
      exact ⟨.cons (fun _ => hsame ▸ hpermit) hflags, List.mem_cons_self⟩
    · rename_i hne
      obtain ⟨hrest, hmarked⟩ := ih ((List.mem_cons.1 hmem).resolve_left fun h => hne h.symm)
      exact ⟨.cons hflag hrest, List.mem_cons_of_mem _ hmarked⟩

/-- A permit for the active flow is accepted. -/
theorem Watched.accept (h : s.Watched w) {permit : OkToSend} {queue : List OkToSend}
    {flags : List Bool} (hpermit : permit.flowSeq = s.activeFlowSequence)
    (hflagged : List.Forall₂ (fun permit flag => flag = true →
      permit.flowSeq = s.activeFlowSequence) queue flags) (hflags : true ∈ flags)
    (hnumbered : s.activeFlowSequence ≠ 0) (hrecorded : s.activePermitSeq = s.activeFlowSequence)
    (hrequested : s.requestExpiryTime ≠ 0) (hdata : s.data ≠ .done)
    (hseen : s.resend.Sees s.activeFlowSequence) :
    { s with
      send_queue := queue
      flow := .noting permit.flowSeq }.Watched
      { w with
        waiting := flags
        noting := true } := by
  refine ⟨hflagged, fun hdone => absurd hdone hdata, h.serving, fun _ => hnumbered,
    fun _ => hrequested, fun _ _ => hrecorded, fun _ => hseen, ?_, ?_, fun _ _ _ => rfl⟩
  · intro flowSeq hnote _
    cases hnote
    exact ⟨hpermit, Or.inl hflags, hdata⟩
  · intro flowSeq activePermitSeq hflow
    cases hflow

theorem watched_ok_to_send [DecidableEq ι] [DecidableEq κ] (h : s.Watched w) {permit : OkToSend}
    {accepted : Bool} (hnotes : s.Notes w (.ok_to_send permit accepted)) :
    (s.step settings (.ok_to_send permit accepted)).Watched
      (w.observe settings s (.ok_to_send permit accepted)) := by
  unfold step Watch.observe
  dsimp only
  by_cases haccepted : s.flow = .idle ∧ accepted = true
  · rw [if_pos haccepted, if_pos haccepted]
    have hcase := hnotes haccepted.1 haccepted.2
    by_cases hpermit : permit.flowSeq = s.activeFlowSequence
    · rw [if_pos hpermit] at hcase
      obtain ⟨hnumbered, hrecorded, hrequested, hdata, hseen⟩ := hcase
      rw [decide_eq_true hpermit]
      by_cases hduplicate : settings.udpRemoveDuplicatePermits = true ∧ permit ∈ s.send_queue
      · rw [if_pos hduplicate, if_pos hduplicate]
        obtain ⟨hflagged, hflags⟩ := forall₂_mark
          (P := fun permit => permit.flowSeq = s.activeFlowSequence) hpermit hduplicate.2 h.flagged
        exact h.accept hpermit hflagged hflags hnumbered hrecorded hrequested hdata hseen
      · rw [if_neg hduplicate, if_neg hduplicate]
        refine h.accept hpermit ?_ ?_ hnumbered hrecorded hrequested hdata hseen
        · exact List.rel_append h.flagged (.cons (fun _ => hpermit) .nil)
        · exact List.mem_append_right _ (List.mem_singleton_self _)
    · rw [if_neg hpermit] at hcase
      rw [decide_eq_false hpermit]
      refine watched_of_not_pending ?_ ?_ fun _ => rfl
      · dsimp only
        split
        · rw [length_mark]
          exact h.length
        · rw [List.length_append, List.length_append, h.length]
          rfl
      · rintro (hflag | hserving)
        · refine hcase (Or.inl ?_)
          dsimp only at hflag
          split at hflag
          · rwa [mark_false] at hflag
          · simpa using hflag
        · exact hcase (Or.inr hserving)
  · rw [if_neg haccepted, if_neg haccepted]
    exact h

/-! ### What a thread leaves alone -/

theorem popQueue_frame (settings : SendSettings) (s : UdpReceiverEntry β ι κ)
    (maxPackets tried : ℕ) (seemsEmpty : Bool) :
    ∃ queues current_q currentQNumPkts data,
      s.popQueue settings maxPackets tried seemsEmpty = { s with
        output_queue := queues
        current_q := current_q
        currentQNumPkts := currentQNumPkts
        data := data } := by
  unfold popQueue
  dsimp only
  split
  · split
    · split <;> exact ⟨_, _, _, _, rfl⟩
    · exact ⟨_, _, _, _, rfl⟩
  · exact ⟨_, _, _, _, rfl⟩

/-- What `send_data` may change. -/
theorem dataStep_frame (settings : SendSettings) (s : UdpReceiverEntry β ι κ) (c : Choice) :
    ∃ queues counter expiry active permit current_q currentQNumPkts permits data,
      s.dataStep settings c = { s with
        output_queue := queues
        packetsQueued := counter
        requestExpiryTime := expiry
        activeFlowSequence := active
        activePermitSeq := permit
        current_q := current_q
        currentQNumPkts := currentQNumPkts
        send_queue := permits
        data := data } := by
  unfold dataStep
  cases hdata : s.data with
  | idle =>
    cases hpermits : s.send_queue with
    | nil => exact ⟨_, _, _, _, _, _, _, _, _, rfl⟩
    | cons permit queue =>
      dsimp only
      split <;> exact ⟨_, _, _, _, _, _, _, _, _, rfl⟩
  | gather maxPackets =>
    dsimp only
    split <;> exact ⟨_, _, _, _, _, _, _, _, _, rfl⟩
  | popping maxPackets tried =>
    obtain ⟨queues, current_q, currentQNumPkts, data, hpop⟩ :=
      popQueue_frame settings s maxPackets tried c.seemsEmpty
    dsimp only
    split
    · exact ⟨_, _, _, _, _, _, _, _, _, hpop⟩
    · exact ⟨_, _, _, _, _, _, _, _, _, rfl⟩
  | popped maxPackets =>
    exact ⟨_, _, _, _, _, _, _, _, _, rfl⟩
  | sending => exact ⟨_, _, _, _, _, _, _, _, _, rfl⟩
  | done =>
    unfold sendDone
    dsimp only
    split <;> exact ⟨_, _, _, _, _, _, _, _, _, rfl⟩

/-- What a worker that pushes data may change. -/
theorem pusherStep_frame [DecidableEq ι] (s : UdpReceiverEntry β ι κ) (i : ι) (c : Choice) :
    ∃ counter expiry active pushers, s.pusherStep i c = { s with
      packetsQueued := counter
      requestExpiryTime := expiry
      activeFlowSequence := active
      pushers := pushers } := by
  unfold pusherStep
  cases s.pushers i with
  | idle => exact ⟨_, _, _, _, rfl⟩
  | queued => exact ⟨_, _, _, _, rfl⟩
  | requesting =>
    unfold requestToSendNew
    dsimp only
    split <;> exact ⟨_, _, _, _, rfl⟩

/-- What a worker that aborts data may change. -/
theorem aborterStep_frame [DecidableEq κ] (settings : SendSettings)
    (s : UdpReceiverEntry β ι κ) (j : κ) :
    ∃ queues counter aborters, s.aborterStep settings j = { s with
      output_queue := queues
      packetsQueued := counter
      aborters := aborters } := by
  unfold aborterStep
  cases s.aborters j with
  | idle => exact ⟨_, _, _, rfl⟩
  | removing isKey queue removed =>
    generalize unsignedSub s.packetsQueued (removed % 2 ^ 32) = counter
    by_cases hqueue : queue < settings.numQueues
    · exact ⟨_, _, _, if_pos hqueue⟩
    · exact ⟨_, _, _, (if_neg hqueue).trans rfl⟩

theorem abort_frame (settings : SendSettings) (s : UdpReceiverEntry β ι κ) :
    ∃ queues counter, s.abort settings = { s with
      output_queue := queues
      packetsQueued := counter
      timeouts := 0
      requestExpiryTime := 0 } := by
  unfold abort
  by_cases hcounter : s.packetsQueued = 0
  · exact ⟨_, _, if_pos hcounter⟩
  · exact ⟨_, _, (if_neg hcounter).trans rfl⟩

/-- What `send_resend_flow` may change. -/
theorem resendStep_frame (settings : SendSettings) (s : UdpReceiverEntry β ι κ) (c : Choice) :
    ∃ queues counter expiry timeouts resend, s.resendStep settings c = { s with
      output_queue := queues
      packetsQueued := counter
      requestExpiryTime := expiry
      timeouts := timeouts
      resend := resend } := by
  unfold resendStep
  cases s.resend with
  | idle => exact ⟨_, _, _, _, _, rfl⟩
  | loadedExpiry expireTime => exact ⟨_, _, _, _, _, rfl⟩
  | loadedPermit expireTime curPermitSeq =>
    dsimp only
    split <;> exact ⟨_, _, _, _, _, rfl⟩
  | called => exact ⟨_, _, _, _, _, rfl⟩
  | counted =>
    obtain ⟨queues, counter, habort⟩ := abort_frame settings s
    unfold resendRequestToSend
    rw [habort]
    dsimp only
    split
    · exact ⟨_, _, _, _, _, rfl⟩
    · split <;> exact ⟨_, _, _, _, _, rfl⟩

theorem flowStep_resend (s : UdpReceiverEntry β ι κ) (c : Choice) :
    (s.flowStep c).resend = s.resend := by
  unfold flowStep
  cases s.flow with
  | idle => rfl
  | noting flowSeq => rfl
  | comparing flowSeq activePermitSeq =>
    dsimp only
    split <;> rfl
  | storing flowSeq => rfl
  | resetting => rfl
  | acknowledged =>
    unfold requestAcknowledged
    dsimp only
    split <;> rfl

/-- A thread that does nothing in a step is where it was. -/
theorem suppresses_of_frame (hresend : s'.resend = s.resend)
    (hflow : s.flow ≠ .idle → s'.flow = s.flow) : s.Suppresses w s' where
  calls hne hcalled := absurd (hresend.symm.trans hcalled) hne
  resets _ hne _ hidle := absurd ((hflow hne).symm.trans hidle) hne

/-- A permit for the active flow is noted, and the timeouts are reset. -/
theorem suppresses_flowStep (h : s.Watched w) (c : Choice) : s.Suppresses w (s.flowStep c) := by
  refine ⟨fun hne hcalled => absurd ((flowStep_resend s c).symm.trans hcalled) hne, ?_⟩
  intro htrue hne hacknowledged hidle
  unfold flowStep at hidle ⊢
  cases hflow : s.flow with
  | idle => exact absurd hflow hne
  | noting flowSeq =>
    rw [hflow] at hidle
    cases hidle
  | comparing flowSeq activePermitSeq =>
    rw [hflow] at hidle
    dsimp only at hidle
    rw [if_pos (h.comparing flowSeq activePermitSeq hflow htrue)] at hidle
    cases hidle
  | storing flowSeq =>
    rw [hflow] at hidle
    cases hidle
  | resetting => exact ⟨rfl, rfl⟩
  | acknowledged => exact absurd hflow hacknowledged

/-! ### Runs -/

variable [DecidableEq ι] [DecidableEq κ]

theorem watched_step (h : s.Watched w) {action : SendAction β ι κ} (hnotes : s.Notes w action) :
    (s.step settings action).Watched (w.observe settings s action) := by
  cases action with
  | pushData i queue buffer =>
    unfold step
    dsimp only
    split
    · exact h.same rfl rfl rfl rfl rfl rfl rfl
    · exact h
  | pusher i c => exact watched_pusherStep h i c
  | abortData j isKey =>
    unfold step
    dsimp only
    split
    · split
      · exact h
      · exact h.same rfl rfl rfl rfl rfl rfl rfl
    · exact h
  | aborter j => exact watched_aborterStep h j
  | ok_to_send permit accepted => exact watched_ok_to_send h hnotes
  | request_received =>
    unfold step
    dsimp only
    split
    · have htimeouts : { s with timeouts := 0 }.Watched w := h.same rfl rfl rfl rfl rfl rfl rfl
      exact htimeouts.rest rfl
    · exact h
  | flow c => exact watched_flowStep h hnotes
  | data c => exact watched_dataStep h hnotes
  | resend c => exact watched_resendStep h hnotes

theorem suppresses_step (h : s.Watched w) {action : SendAction β ι κ} (hnotes : s.Notes w action) :
    s.Suppresses w (s.step settings action) := by
  cases action with
  | pushData i queue buffer =>
    unfold step
    dsimp only
    split <;> exact suppresses_of_frame rfl fun _ => rfl
  | pusher i c =>
    obtain ⟨counter, expiry, active, pushers, hstep⟩ := pusherStep_frame s i c
    change s.Suppresses w (s.pusherStep i c)
    rw [hstep]
    exact suppresses_of_frame rfl fun _ => rfl
  | abortData j isKey =>
    unfold step
    dsimp only
    split
    · split <;> exact suppresses_of_frame rfl fun _ => rfl
    · exact suppresses_of_frame rfl fun _ => rfl
  | aborter j =>
    obtain ⟨queues, counter, aborters, hstep⟩ := aborterStep_frame settings s j
    change s.Suppresses w (s.aborterStep settings j)
    rw [hstep]
    exact suppresses_of_frame rfl fun _ => rfl
  | ok_to_send permit accepted =>
    unfold step
    dsimp only
    split
    · rename_i hidle
      exact suppresses_of_frame rfl fun hne => absurd hidle.1 hne
    · exact suppresses_of_frame rfl fun _ => rfl
  | request_received =>
    unfold step
    dsimp only
    split
    · rename_i hidle
      exact suppresses_of_frame rfl fun hne => absurd hidle hne
    · exact suppresses_of_frame rfl fun _ => rfl
  | flow c => exact suppresses_flowStep h c
  | data c =>
    obtain ⟨queues, counter, expiry, active, permit, current_q, currentQNumPkts, permits, data,
      hstep⟩ := dataStep_frame settings s c
    change s.Suppresses w (s.dataStep settings c)
    rw [hstep]
    exact suppresses_of_frame rfl fun _ => rfl
  | resend c =>
    have hstep : (s.resendStep settings c).Watched w := watched_resendStep h hnotes
    refine ⟨?_, ?_⟩
    · intro _ hcalled hpending
      have hsees := hstep.seen hpending
      have hcalled' : (s.resendStep settings c).resend = .called := hcalled
      rw [hcalled'] at hsees
      exact hsees
    · intro _ hne _ hidle
      obtain ⟨queues, counter, expiry, timeouts, resend, hframe⟩ :=
        resendStep_frame settings s c
      have hidle' : (s.resendStep settings c).flow = .idle := hidle
      rw [hframe] at hidle'
      exact absurd hidle' hne

/-- Every step of a run is as `R` says. -/
def AlongWatched (settings : SendSettings)
    (R : UdpReceiverEntry β ι κ → Watch → SendAction β ι κ → UdpReceiverEntry β ι κ → Prop) :
    UdpReceiverEntry β ι κ → Watch → List (SendAction β ι κ) → Prop
  | _, _, [] => True
  | s, w, action :: actions =>
    R s w action (s.step settings action) ∧
      AlongWatched settings R (s.step settings action) (w.observe settings s action) actions

theorem suppresses_run (h : s.Watched w) {actions : List (SendAction β ι κ)}
    (hnotes : AlongWatched settings (fun s w action _ => s.Notes w action) s w actions) :
    AlongWatched settings (fun s w _ s' => s.Suppresses w s') s w actions := by
  induction actions generalizing s w with
  | nil => trivial
  | cons action actions ih =>
    exact ⟨suppresses_step h hnotes.1, ih (watched_step h hnotes.1) hnotes.2⟩

/-- In a run whose steps all are as `Notes` says, a permit that was accepted for the active flow
suppresses requests until it is processed. -/
theorem suppresses_of_notes {actions : List (SendAction β ι κ)}
    (hnotes : AlongWatched settings (fun s w action _ => s.Notes w action) new Watch.new actions) :
    AlongWatched settings (fun s w _ s' => s.Suppresses w s') new Watch.new actions := by
  refine suppresses_run (watched_of_not_pending rfl ?_ fun hnote => absurd rfl hnote) hnotes
  rintro (hflag | hserving)
  · cases hflag
  · cases hserving

end UdpReceiverEntry

/-! ### A permit that is passed over -/

/-- The request of `pushOne` is answered.  The answer is not recorded, and the request, which has
expired, is made again while the permit waits. -/
def requestRepeated : List (SendAction Unit Unit Unit) :=
  pushOne ++
    [.ok_to_send ⟨1, 1⟩ true, .flow expired, .flow expired,
      .resend expired, .resend expired, .resend expired]

theorem requestRepeated_not_suppressed :
    ¬ UdpReceiverEntry.AlongWatched oneQueue (fun s w _ s' => s.Suppresses w s')
      UdpReceiverEntry.new Watch.new requestRepeated := by
  intro hrun
  obtain ⟨-, -, -, -, -, -, -, -, hcall, -⟩ := hrun
  exact hcall.calls (by decide) (by decide) (Or.inl (by decide))

/-- A permit with the number 1 comes before the first request, so that it is recorded and
out of date.  The permit for the first request then is noted and suppresses it. -/
def permitNoted : List (SendAction Unit Unit Unit) :=
  [.ok_to_send ⟨1, 1⟩ true, .flow expired, .flow expired, .flow expired, .flow expired,
    .data expired] ++ requestRepeated ++
    [.flow expired, .flow expired, .data expired, .data expired, .data expired, .data expired,
      .data expired, .data expired, .data expired]

theorem permitNoted_suppressed :
    UdpReceiverEntry.AlongWatched oneQueue (fun s w _ s' => s.Suppresses w s')
      UdpReceiverEntry.new Watch.new permitNoted := by
  refine UdpReceiverEntry.suppresses_of_notes ⟨?_, fun _ => by decide, fun _ => by decide,
    fun _ => by decide, fun _ => by decide, fun hdata => absurd hdata (by decide), trivial,
    trivial, trivial, ?_, fun _ => by decide, fun _ => by decide, ?_, ?_, ?_, fun _ => by decide,
    fun _ => by decide, fun hdata => absurd hdata (by decide),
    fun hdata => absurd hdata (by decide), fun hdata => absurd hdata (by decide),
    fun hdata => absurd hdata (by decide), fun hdata => absurd hdata (by decide),
    fun _ => ⟨by decide, by decide⟩, fun hdata => absurd hdata (by decide), trivial⟩
  · intro _ _
    rw [if_neg (by decide)]
    rintro (hflag | hserving)
    · cases hflag
    · cases hserving
  · intro _ _
    rw [if_pos (by decide)]
    exact ⟨by decide, by decide, by decide, by decide, trivial⟩
  · exact fun _ _ hdone => absurd hdone (by decide)
  · exact fun _ _ hdone => absurd hdone (by decide)
  · exact fun _ _ hdone => absurd hdone (by decide)

end Udp