import HpccPlatform.Udp.FlowReservation

/-!
# Requests that come out of order

A sender numbers its requests one after the other, in 32 bits and without 0.  The receiver records
the number of a request for which it has no permit, whatever it has recorded before.  So it goes
back to an older request when that comes again after a newer one, and only then; as long as this
does not happen, permits are granted for the newest request and the sender is idle when it is done
with it.
-/

namespace Udp

/-- The number of the request that a sender makes, from the first one on. -/
def flowSeqOf : ℕ → ℕ
  | 0 => 0
  | k + 1 => nextFlowSeq (flowSeqOf k)

/-- An event, and which request of the sender `x` it is about if it is a message of that sender. -/
structure SenderEvent {σ : Type*} (x : σ) where
  event : FlowEvent σ
  index : ℕ
  numbered : ∀ msg elapsed, event = .message x msg elapsed → msg.flowSeq = flowSeqOf index

namespace ReceiveFlow

variable {σ : Type*} [DecidableEq σ] {x : σ}

/-- The request that a message of `x` makes and the state in which it is noted. -/
def noted (s : ReceiveFlow σ) (e : SenderEvent x) : Option (ReceiveFlow σ × ℕ) :=
  match e.event with
  | .message y ⟨.request_to_send, _, _, _, _, _⟩ elapsed =>
    if y = x then some ({ s with msTick := s.msTick + elapsed }, e.index) else none
  | .message y ⟨.request_to_send_more, _, _, flowSeq, _, _⟩ elapsed =>
    if y = x then
      some ({ s with msTick := s.msTick + elapsed }.noteDone x flowSeq, e.index + 1)
    else none
  | _ => none

/-- The requests of `x` that are recorded, the last one first: a request is, if there is no permit
for it. -/
def record (s : ReceiveFlow σ) (history : List ℕ) (e : SenderEvent x) : List ℕ :=
  match s.noted e with
  | some (t, k) =>
    if (t.senders x).queryPermit (flowSeqOf k) = none then k :: history else history
  | none => history

/-- Nothing that is older than a recorded request has an effect: what is recorded is not older, a
new permit is for the newest request, and the sender is idle when it is done with that. -/
structure StaleIgnored (s : ReceiveFlow σ) (history : List ℕ) (e : SenderEvent x)
    (s' : ReceiveFlow σ) : Prop where
  recorded : ∀ k, s.record history e = k :: history → ∀ j ∈ history, j ≤ k
  granted : ∀ i, (s'.permit (x, i)).isActive →
    (s'.permit (x, i)).flowSeq = (s.permit (x, i)).flowSeq ∨
      ∃ k ∈ history, (s'.permit (x, i)).flowSeq = flowSeqOf k ∧ ∀ j ∈ history, j ≤ k
  completed : ∀ msg elapsed, e.event = .message x msg elapsed → msg.cmd = .send_completed →
    e.index ∈ history → (∀ j ∈ history, j ≤ e.index) → (s'.senders x).state = .idle

/-- A request that comes has a permit, or is not older than those that have been recorded. -/
def InOrder (s : ReceiveFlow σ) (history : List ℕ) (e : SenderEvent x) : Prop :=
  match s.noted e with
  | some (t, k) =>
    (t.senders x).queryPermit (flowSeqOf k) ≠ none ∨ ∀ j ∈ history, j ≤ k
  | none => True

/-- Every step of the run of a sender is as `R` says. -/
def AlongSender (limits : FlowLimits)
    (R : ReceiveFlow σ → List ℕ → SenderEvent x → ReceiveFlow σ → Prop) :
    ReceiveFlow σ → List ℕ → List (SenderEvent x) → Prop
  | _, _, [] => True
  | s, history, e :: events =>
    match s.step limits e.event with
    | some s' => R s history e s' ∧ AlongSender limits R s' (s.record history e) events
    | none => False

variable {s s' : ReceiveFlow σ} {history : List ℕ} {e : SenderEvent x} {limits : FlowLimits}
  {requests : List σ} {permits : List (σ × Fin maxPermitsPerSender)}

theorem recorded_iff_inOrder :
    (∀ k, s.record history e = k :: history → ∀ j ∈ history, j ≤ k) ↔ s.InOrder history e := by
  unfold record InOrder
  cases hnoted : s.noted e with
  | none =>
    refine iff_of_true ?_ trivial
    intro k heq
    exact absurd heq (List.cons_ne_self k history).symm
  | some pair =>
    obtain ⟨t, k⟩ := pair
    dsimp only
    by_cases hquery : (t.senders x).queryPermit (flowSeqOf k) = none
    · rw [if_pos hquery]
      constructor
      · intro h
        exact Or.inr (h k rfl)
      · intro h k' heq
        rw [← (List.cons.inj heq).1]
        exact h.resolve_left (not_not.mpr hquery)
    · rw [if_neg hquery]
      refine iff_of_true ?_ (Or.inl hquery)
      intro k heq
      exact absurd heq (List.cons_ne_self k history).symm

/-- The number of the last request is the one that the receiver has for the sender. -/
def Latest (s : ReceiveFlow σ) (x : σ) (history : List ℕ) : Prop :=
  (s.senders x).flowSeq = flowSeqOf (history.headD 0)

/-! ### What a step does to the number -/

/-- The number and the permits of the sender after a step. -/
structure Follows (s : ReceiveFlow σ) (history : List ℕ) (e : SenderEvent x) (s' : ReceiveFlow σ) :
    Prop where
  latest : s'.Latest x (s.record history e)
  permit : ∀ i, (s'.permit (x, i)).isActive →
    (s'.permit (x, i)).flowSeq = (s.permit (x, i)).flowSeq ∨
      (s'.permit (x, i)).flowSeq = (s.senders x).flowSeq
  completed : ∀ msg elapsed, e.event = .message x msg elapsed → msg.cmd = .send_completed →
    msg.flowSeq = (s.senders x).flowSeq → (s'.senders x).state = .idle

/-- The number after a request of any sender. -/
theorem Holds.noteRequest_flowSeq (h : Holds s requests permits) (x y : σ) {flowSeq : ℕ}
    (sendSeq : ℕ) (hflow : flowSeq ≠ 0) :
    ∃ s' requests', s.noteRequest y flowSeq sendSeq = some s' ∧ Holds s' requests' permits ∧
      (∀ q, s'.permit q = s.permit q) ∧ (s'.senders x).flowSeq =
        if y = x ∧ (s.senders x).queryPermit flowSeq = none then flowSeq
        else (s.senders x).flowSeq := by
  cases hquery : (s.senders y).queryPermit flowSeq with
  | none =>
    obtain ⟨s', requests', hresult, hstep, hholds⟩ :=
      h.noteRequest_of_none sendSeq hflow hquery
    refine ⟨s', requests', hresult, hholds, hstep.permit, ?_⟩
    rw [hstep.flowSeq]
    by_cases hyx : x = y
    · rw [if_pos hyx, if_pos ⟨hyx.symm, hyx ▸ hquery⟩]
    · rw [if_neg hyx, if_neg (fun hand => hyx hand.1.symm)]
  | some i =>
    refine ⟨_, requests, noteRequest_of_some hquery, h.send y _, fun _ => rfl, ?_⟩
    rw [if_neg]
    · rfl
    · rintro ⟨rfl, hnone⟩
      rw [hquery] at hnone
      cases hnone

theorem latest_record {t : ReceiveFlow σ} {k : ℕ} (hlatest : s.Latest x history)
    (hnoted : s.noted e = some (t, k)) (hflow : (t.senders x).flowSeq = (s.senders x).flowSeq)
    (hstep : (s'.senders x).flowSeq = if (t.senders x).queryPermit (flowSeqOf k) = none then
      flowSeqOf k else (t.senders x).flowSeq) : s'.Latest x (s.record history e) := by
  unfold Latest record
  rw [hstep, hnoted]
  dsimp only
  split_ifs with hquery
  · rfl
  · rw [hflow]
    exact hlatest

theorem latest_same (hlatest : s.Latest x history) (hnoted : s.noted e = none)
    (hflow : (s'.senders x).flowSeq = (s.senders x).flowSeq) :
    s'.Latest x (s.record history e) := by
  unfold Latest record
  rw [hflow, hnoted]
  exact hlatest

/-- The number and the permits in a check of the requests. -/
theorem Holds.check_flowSeq (h : Holds s requests permits) (limits : FlowLimits)
    (env : Surroundings σ) (x : σ) :
    ∃ s' requests' permits', s.step limits (.check env) = some s' ∧ Holds s' requests' permits' ∧
      (s'.senders x).flowSeq = (s.senders x).flowSeq ∧ ∀ i, (s'.permit (x, i)).isActive →
        (s'.permit (x, i)).flowSeq = (s.permit (x, i)).flowSeq ∨
          (s'.permit (x, i)).flowSeq = (s.senders x).flowSeq := by
  let P : ReceiveFlow σ → Prop := fun t => (t.senders x).flowSeq = (s.senders x).flowSeq ∧
    ∀ i, (t.permit (x, i)).isActive → (t.permit (x, i)).flowSeq = (s.permit (x, i)).flowSeq ∨
      (t.permit (x, i)).flowSeq = (s.senders x).flowSeq
  have hcheck : ∃ s' requests' permits' timeout,
      ReceiveFlow.checkPendingRequests limits env s = some (s', timeout) ∧
        Holds s' requests' permits' ∧ P s' := by
    refine h.checkPendingRequests (P := P) limits env ⟨rfl, fun _ _ => Or.inl rfl⟩ ?_
      (fun _ hP _ => hP) ?_
    · -- a permit expires
      intro t t' requests permits p _ hP _ hstep
      constructor
      · by_cases hxp : x = p.1
        · rw [hxp, hstep.flowSeq]
          unfold ReceiveFlow.removePermit
          rw [senders_setSender_self, ← hxp]
          exact hP.1
        · rw [hstep.other x hxp]
          unfold ReceiveFlow.removePermit
          rw [senders_setSender_of_ne _ _ hxp]
          exact hP.1
      · intro i hi
        rw [hstep.permit, permit_removePermit] at hi ⊢
        split_ifs at hi ⊢
        · exact absurd hi not_isActive_revoked
        · exact hP.2 i hi
    · -- a permit is granted
      intro t t' requests permits y slots i _ hP _ hstep
      constructor
      · rw [hstep.flowSeq]
        exact hP.1
      · intro j hj
        rw [hstep.permit] at hj ⊢
        split_ifs at hj ⊢ with hnew
        · rw [← (Prod.mk.inj hnew).1]
          exact Or.inr hP.1
        · exact hP.2 j hj
  obtain ⟨s', requests', permits', timeout, hresult, hholds, hP⟩ := hcheck
  refine ⟨s', requests', permits', ?_, hholds, hP⟩
  unfold ReceiveFlow.step
  dsimp only
  rw [hresult]
  rfl

/-- The step lemma. -/
theorem Holds.step_follows (h : Holds s requests permits) (hlatest : s.Latest x history)
    (limits : FlowLimits) (e : SenderEvent x) :
    ∃ s' requests' permits', s.step limits e.event = some s' ∧ Holds s' requests' permits' ∧
      Follows s history e s' := by
  obtain ⟨event, index, hnumbered⟩ := e
  cases event with
  | check env =>
    obtain ⟨s', requests', permits', hresult, hholds, hflow, hpermit⟩ :=
      h.check_flowSeq limits env x
    refine ⟨s', requests', permits', hresult, hholds, latest_same hlatest rfl hflow, hpermit, ?_⟩
    intro msg elapsed heq
    cases heq
  | message y msg elapsed =>
    have hwait := h.wait elapsed
    obtain ⟨cmd, packets, sendSeq, flowSeq, hpos, hlt⟩ := msg
    cases cmd with
    | request_to_send =>
      obtain ⟨s', requests', hresult, hholds, hpermit, hflow⟩ :=
        hwait.noteRequest_flowSeq x y sendSeq hpos.ne'
      refine ⟨s', requests', permits, hresult, hholds, ?_, ?_, ?_⟩
      · by_cases hyx : y = x
        · subst hyx
          refine latest_record hlatest (if_pos rfl) rfl ?_
          rw [hflow]
          simp only [true_and]
          rw [show flowSeq = flowSeqOf index from hnumbered _ _ rfl]
        · refine latest_same hlatest (if_neg hyx) ?_
          rw [hflow, if_neg (fun hand => hyx hand.1)]
      · intro i _
        rw [hpermit]
        exact Or.inl rfl
      · intro msg elapsed heq hcmd
        cases heq
        cases hcmd
    | send_start =>
      obtain ⟨s', requests', permits', hresult, hholds⟩ :=
        hwait.doFlowRequest y ⟨.send_start, packets, sendSeq, flowSeq, hpos, hlt⟩
      cases hresult
      refine ⟨_, requests', permits', rfl, hholds, latest_same hlatest rfl ?_, ?_, ?_⟩
      · by_cases hyx : x = y
        · rw [hyx, senders_setSender_self]
          exact (state_updateNumReserved _ _ _).2
        · rw [senders_setSender_of_ne _ _ hyx]
      · intro i _
        exact Or.inl (flowSeq_permit_updateNumReserved _ _ _ _ _)
      · intro msg elapsed heq hcmd
        cases heq
        cases hcmd
    | send_completed =>
      obtain ⟨requests', permits', hholds, hdone⟩ := hwait.noteDone y flowSeq
      refine ⟨_, requests', permits', rfl, hholds, ?_, ?_, ?_⟩
      · exact latest_same hlatest rfl (hdone.flowSeq x)
      · intro i hi
        rw [active_of_done hdone hi]
        exact Or.inl rfl
      · intro msg elapsed' heq hcmd hflow
        cases heq
        rw [hdone.state, if_pos ⟨rfl, hflow⟩]
    | request_to_send_more =>
      obtain ⟨requests', permits', hholds, hdone⟩ := hwait.noteDone y flowSeq
      obtain ⟨s', requests'', hresult, hholds', hpermit, hflow⟩ :=
        hholds.noteRequest_flowSeq x y sendSeq (nextFlowSeq_ne_zero flowSeq)
      refine ⟨s', requests'', permits', hresult, hholds', ?_, ?_, ?_⟩
      · by_cases hyx : y = x
        · subst hyx
          refine latest_record hlatest (if_pos rfl) (hdone.flowSeq y) ?_
          rw [hflow]
          simp only [true_and]
          rw [show flowSeq = flowSeqOf index from hnumbered _ _ rfl]
          rfl
        · refine latest_same hlatest (if_neg hyx) ?_
          rw [hflow, if_neg (fun hand => hyx hand.1)]
          exact hdone.flowSeq x
      · intro i hi
        rw [hpermit] at hi ⊢
        rw [active_of_done hdone hi]
        exact Or.inl rfl
      · intro msg elapsed heq hcmd
        cases heq
        cases hcmd

/-! ### Runs -/

theorem record_cases (s : ReceiveFlow σ) (history : List ℕ) (e : SenderEvent x) :
    s.record history e = history ∨ ∃ k, s.record history e = k :: history := by
  unfold record
  cases s.noted e with
  | none => exact Or.inl rfl
  | some pair =>
    dsimp only
    split_ifs
    · exact Or.inr ⟨pair.2, rfl⟩
    · exact Or.inl rfl

/-- The last request that is recorded is the newest. -/
def Ascending (history : List ℕ) : Prop := ∀ j ∈ history, j ≤ history.headD 0

theorem ascending_record (hascending : Ascending history)
    (horder : ∀ k, s.record history e = k :: history → ∀ j ∈ history, j ≤ k) :
    Ascending (s.record history e) := by
  rcases record_cases s history e with hsame | ⟨k, hnew⟩
  · rw [hsame]
    exact hascending
  · rw [hnew]
    intro j hj
    rcases List.mem_cons.mp hj with rfl | hj
    · exact le_rfl
    · exact horder k hnew j hj

theorem headD_mem (h : history ≠ []) : history.headD 0 ∈ history := by
  cases history with
  | nil => exact absurd rfl h
  | cons k history => exact List.mem_cons_self

/-- While what is recorded ascends, nothing that is older has an effect. -/
theorem Follows.staleIgnored (h : Follows s history e s') (hlatest : s.Latest x history)
    (hascending : Ascending history) (horder : s.InOrder history e) :
    StaleIgnored s history e s' where
  recorded := recorded_iff_inOrder.mpr horder
  granted i hi := by
    refine (h.permit i hi).imp_right ?_
    intro hnumber
    have hflow : (s.senders x).flowSeq ≠ 0 := by
      rw [← hnumber]
      exact hi
    have hmem : history.headD 0 ∈ history := by
      apply headD_mem
      rintro rfl
      exact hflow hlatest
    exact ⟨history.headD 0, hmem, hnumber.trans hlatest, hascending⟩
  completed msg elapsed heq hcmd hmem hnewest := by
    apply h.completed msg elapsed heq hcmd
    have hhead : history.headD 0 ∈ history := headD_mem (List.ne_nil_of_mem hmem)
    have hindex : e.index = history.headD 0 :=
      le_antisymm (hascending _ hmem) (hnewest _ hhead)
    rw [e.numbered msg elapsed heq, hindex]
    exact hlatest.symm

end ReceiveFlow

/-- The request of a sender that comes after a time. -/
def requestAfter (elapsed k : ℕ) (hpos : 0 < flowSeqOf k) (hlt : flowSeqOf k < 2 ^ 32) :
    SenderEvent () where
  event := .message () ⟨.request_to_send, 0, 0, flowSeqOf k, hpos, hlt⟩ elapsed
  index := k
  numbered msg elapsed heq := by
    cases heq
    rfl

end Udp
