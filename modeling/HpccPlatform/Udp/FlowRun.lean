import HpccPlatform.Udp.FlowInvariant

/-!
# Runs of the flow control

Every function of `receive_receive_flow` has a result on lists that agree with the senders, and the
lists agree again.  `checkPendingRequests_rule` says once what a check of the requests consists of:
permits expire, one after the other, and their senders are rescheduled; then permits are granted.
-/

namespace Udp

open DoublyLinked

namespace ReceiveFlow

variable {σ : Type*} {s s' : ReceiveFlow σ} {requests : List σ}
  {permits : List (σ × Fin maxPermitsPerSender)} {x y : σ} {flowSeq sendSeq : ℕ}
  {limits : FlowLimits}

theorem Holds.sumReserved (h : Holds s requests permits)
    (before : List (σ × Fin maxPermitsPerSender)) {rest} (fuel permitsIssued : ℕ)
    (hsplit : permits = before ++ rest) (hfuel : rest.length ≤ fuel) :
    ∃ n, ReceiveFlow.sumReserved s fuel permitsIssued rest.head? = some n := by
  induction rest generalizing before fuel permitsIssued with
  | nil => exact ⟨permitsIssued, by cases fuel <;> rfl⟩
  | cons p rest ih =>
    obtain ⟨fuel, rfl⟩ : ∃ n, fuel = n + 1 := by
      cases fuel with
      | zero => exact absurd hfuel (Nat.not_succ_le_zero _)
      | succ n => exact ⟨n, rfl⟩
    rw [List.head?_cons]
    unfold ReceiveFlow.sumReserved
    rw [(h.permits_represents.links before p rest hsplit).2]
    refine ih (before ++ [p]) fuel _ ?_ (Nat.le_of_succ_le_succ hfuel)
    rw [hsplit, List.append_assoc]
    rfl

/-- How long ago the permit was given, as far as it can be told. -/
def age (s : ReceiveFlow σ) (now : ℕ) (p : σ × Fin maxPermitsPerSender) : ℕ :=
  (now - (s.permit p).permitTime) % 2 ^ 32

/-- The permits get younger along the list, as long as none is older than `msTick` can count. -/
theorem Holds.age_antitone (h : Holds s requests permits) {now : ℕ}
    (hnow : ∀ p ∈ permits, now < (s.permit p).permitTime + 2 ^ 32) :
    permits.Pairwise fun p q => s.age now q ≤ s.age now p := by
  refine h.ordered.imp_of_mem ?_
  intro p q hp hq hle
  have hp' := hnow p hp
  have hq' := hnow q hq
  unfold age
  rw [Nat.mod_eq_of_lt (by omega), Nat.mod_eq_of_lt (by omega)]
  omega

variable [DecidableEq σ]

/-! ### The messages -/

theorem appendRequest_eq {l : LinkedListOf σ} (hl : s.pendingRequests.append x = some l) :
    s.appendRequest x = some ({ s with pendingRequests := l }.setSender x
      { s.senders x with state := .requested }) := by
  unfold appendRequest
  rw [hl]
  rfl

theorem appendRequest_setSender {l : LinkedListOf σ} (hl : s.pendingRequests.append x = some l)
    (e : UdpSenderEntry) : (s.setSender x e).appendRequest x =
      some ({ s with pendingRequests := l }.setSender x { e with state := .requested }) := by
  rw [appendRequest_eq (s := s.setSender x e) hl, senders_setSender_self]
  exact congrArg some (setSender_setSender { s with pendingRequests := l } x _ _)

theorem acknowledgeRequest_setSender (s : ReceiveFlow σ) (l : LinkedListOf σ) (x : σ)
    (e : UdpSenderEntry) (flowSeq sendSeq : ℕ) :
    ({ s with pendingRequests := l }.setSender x e).acknowledgeRequest x flowSeq sendSeq =
      ({ s with pendingRequests := l }.setSender x { e with
        flowSeq := flowSeq
        sendSeq := sendSeq
        requestTime := s.msTick
        timeouts := 0 }).send x (.request_received flowSeq) := by
  unfold acknowledgeRequest
  rw [senders_setSender_self, setSender_setSender]
  rfl

/-- What a request for which there is no permit does to the senders. -/
structure Requested (s : ReceiveFlow σ) (x : σ) (flowSeq : ℕ) (s' : ReceiveFlow σ) : Prop where
  sent : s'.sent = s.sent ++ [(x, .request_received flowSeq)]
  permit : ∀ q, s'.permit q = s.permit q
  flowSeq : ∀ y, (s'.senders y).flowSeq = if y = x then flowSeq else (s.senders y).flowSeq
  state : ∀ y, (s'.senders y).state = if y = x then .requested else (s.senders y).state

theorem requested_acknowledge (l : LinkedListOf σ) {e : UdpSenderEntry}
    (hpermits : e.permits = (s.senders x).permits) (hstate : e.state = .requested)
    (hflow : e.flowSeq = flowSeq) : Requested s x flowSeq
      (({ s with pendingRequests := l }.setSender x e).send x (.request_received flowSeq)) := by
  refine ⟨rfl, ?_, ?_, ?_⟩
  · rintro ⟨y, j⟩
    change (({ s with pendingRequests := l }.setSender x e).senders y).permits j =
      (s.senders y).permits j
    by_cases hyx : y = x
    · rw [hyx, senders_setSender_self, hpermits]
    · rw [senders_setSender_of_ne _ _ hyx]
  · intro y
    change (({ s with pendingRequests := l }.setSender x e).senders y).flowSeq = _
    by_cases hyx : y = x
    · rw [hyx, senders_setSender_self, if_pos rfl, hflow]
    · rw [senders_setSender_of_ne _ _ hyx, if_neg hyx]
  · intro y
    change (({ s with pendingRequests := l }.setSender x e).senders y).state = _
    by_cases hyx : y = x
    · rw [hyx, senders_setSender_self, if_pos rfl, hstate]
    · rw [senders_setSender_of_ne _ _ hyx, if_neg hyx]

/-- A request without a permit is put on the list, if the sender is not there yet, and is
acknowledged. -/
theorem Holds.noteRequest_of_none (h : Holds s requests permits) (sendSeq : ℕ)
    (hflow : flowSeq ≠ 0) (hnone : (s.senders x).queryPermit flowSeq = none) :
    ∃ s' requests', s.noteRequest x flowSeq sendSeq = some s' ∧ Requested s x flowSeq s' ∧
      Holds s' requests' permits := by
  unfold noteRequest
  rw [hnone]
  dsimp only
  by_cases hstate : (s.senders x).state = .requested
  · rw [hstate]
    refine ⟨_, requests, rfl, ?_, ?_⟩
    · exact requested_acknowledge s.pendingRequests rfl hstate rfl
    · refine Holds.send ?_ x _
      exact h.setSender (SamePermits.of_eq rfl rfl) Iff.rfl (Or.inr hflow)
  · let e : UdpSenderEntry := { s.senders x with
      state := .requested
      flowSeq := flowSeq
      sendSeq := sendSeq
      requestTime := s.msTick
      timeouts := 0 }
    obtain ⟨l, hl, hholds⟩ :=
      h.enqueue (x := x) (e := e) hstate (SamePermits.of_eq rfl rfl) rfl hflow
    have hresult : (s.appendRequest x).map (fun s => s.acknowledgeRequest x flowSeq sendSeq) =
        some (({ s with pendingRequests := l }.setSender x e).send x
          (.request_received flowSeq)) := by
      rw [appendRequest_eq hl, Option.map_some, acknowledgeRequest_setSender]
    refine ⟨_, requests ++ [x], ?_, requested_acknowledge (e := e) l rfl rfl rfl,
      hholds.send x _⟩
    cases hcase : (s.senders x).state with
    | idle => exact hresult
    | granted => exact hresult
    | requested => exact absurd hcase hstate

theorem noteRequest_of_some {i : Fin maxPermitsPerSender}
    (hsome : (s.senders x).queryPermit flowSeq = some i) :
    s.noteRequest x flowSeq sendSeq =
      some (s.sendPermitToSend x (s.permit (x, i)).getNumReserved) := by
  unfold noteRequest
  rw [hsome]
  rfl

theorem Holds.noteRequest (h : Holds s requests permits) (x : σ) (sendSeq : ℕ)
    (hflow : flowSeq ≠ 0) :
    ∃ s' requests', s.noteRequest x flowSeq sendSeq = some s' ∧ Holds s' requests' permits := by
  cases hquery : (s.senders x).queryPermit flowSeq with
  | none =>
    obtain ⟨s', requests', hresult, -, hholds⟩ :=
      h.noteRequest_of_none sendSeq hflow hquery
    exact ⟨s', requests', hresult, hholds⟩
  | some i =>
    rw [noteRequest_of_some hquery]
    exact ⟨_, requests, rfl, h.send x _⟩

/-- What a sender that is done changes: some of its permits are gone, and it is idle if the number
is that of its latest request. -/
structure Done (s : ReceiveFlow σ) (x : σ) (flowSeq : ℕ) (s' : ReceiveFlow σ) : Prop where
  permit : ∀ q, s'.permit q = s.permit q ∨ s'.permit q = .revoked
  state : ∀ y, (s'.senders y).state =
    if y = x ∧ flowSeq = (s.senders x).flowSeq then .idle else (s.senders y).state
  flowSeq : ∀ y, (s'.senders y).flowSeq = (s.senders y).flowSeq
  sent : s'.sent = s.sent

/-- The loop that takes permits away. -/
theorem Holds.foldl_doneWith (h : Holds s requests permits) (x : σ) (flowSeq : ℕ)
    (is : List (Fin maxPermitsPerSender)) :
    ∃ permits', Holds (is.foldl (doneWith x flowSeq) s) requests permits' ∧
      (∀ q, (is.foldl (doneWith x flowSeq) s).permit q = s.permit q ∨
        (is.foldl (doneWith x flowSeq) s).permit q = .revoked) ∧
      (∀ y, ((is.foldl (doneWith x flowSeq) s).senders y).flowSeq = (s.senders y).flowSeq ∧
        ((is.foldl (doneWith x flowSeq) s).senders y).state = (s.senders y).state) ∧
      (is.foldl (doneWith x flowSeq) s).sent = s.sent := by
  induction is generalizing s permits with
  | nil => exact ⟨permits, h, fun _ => Or.inl rfl, fun _ => ⟨rfl, rfl⟩, rfl⟩
  | cons i is ih =>
    rw [List.foldl_cons]
    by_cases hdone : ((s.senders x).permits i).isActive ∧
        notAfter ((s.senders x).permits i).flowSeq flowSeq
    · rw [show doneWith x flowSeq s i = s.removePermit (x, i) from if_pos hdone]
      obtain ⟨permits', hholds, hpermit, hsenders, hsent⟩ :=
        ih (h.removePermit ((h.mem_permits (x, i)).mpr hdone.1))
      refine ⟨permits', hholds, ?_, ?_, hsent⟩
      · intro q
        refine (hpermit q).elim (fun hq => ?_) Or.inr
        rw [hq, permit_removePermit]
        split_ifs
        · exact Or.inr rfl
        · exact Or.inl rfl
      · intro y
        rw [(hsenders y).1, (hsenders y).2]
        unfold ReceiveFlow.removePermit
        by_cases hyx : y = x
        · rw [hyx, senders_setSender_self]
          exact ⟨rfl, rfl⟩
        · rw [senders_setSender_of_ne _ _ hyx]
          exact ⟨rfl, rfl⟩
    · rw [show doneWith x flowSeq s i = s from if_neg hdone]
      exact ih h

theorem Holds.noteDone (h : Holds s requests permits) (x : σ) (flowSeq : ℕ) :
    ∃ requests' permits', Holds (s.noteDone x flowSeq) requests' permits' ∧
      Done s x flowSeq (s.noteDone x flowSeq) := by
  obtain ⟨permits', h', hpermit, hsenders, hsent⟩ :=
    h.foldl_doneWith x flowSeq (List.finRange maxPermitsPerSender)
  unfold ReceiveFlow.noteDone
  dsimp only
  generalize (List.finRange maxPermitsPerSender).foldl (doneWith x flowSeq) s = t at *
  have hidle : ∀ l, Done s x flowSeq ({ t with pendingRequests := l }.setSender x
      { t.senders x with state := .idle }) ∨ flowSeq ≠ (s.senders x).flowSeq := by
    intro l
    by_cases hflow : flowSeq = (s.senders x).flowSeq
    · refine Or.inl ⟨?_, ?_, ?_, hsent⟩
      · rintro ⟨y, j⟩
        by_cases hyx : y = x
        · refine Eq.mp ?_ (hpermit (y, j))
          unfold permit
          dsimp only
          rw [hyx, senders_setSender_self]
        · rw [permit_setSender_of_ne _ _ hyx]
          exact hpermit (y, j)
      · intro y
        by_cases hyx : y = x
        · rw [hyx, senders_setSender_self, if_pos ⟨rfl, hflow⟩]
        · rw [senders_setSender_of_ne _ _ hyx, if_neg (fun hand => hyx hand.1)]
          exact (hsenders y).2
      · intro y
        by_cases hyx : y = x
        · rw [hyx, senders_setSender_self]
          exact (hsenders x).1
        · rw [senders_setSender_of_ne _ _ hyx]
          exact (hsenders y).1
    · exact Or.inr hflow
  split_ifs with hflow
  · have hlatest : flowSeq = (s.senders x).flowSeq := hflow.trans (hsenders x).1
    cases hstate : (t.senders x).state with
    | requested =>
      refine ⟨_, permits', h'.dequeue hstate (SamePermits.of_eq rfl rfl) ?_ rfl,
        (hidle _).resolve_right (not_not.mpr hlatest)⟩
      intro hcontra
      cases hcontra
    | granted | idle =>
      refine ⟨requests, permits', h'.setSender (SamePermits.of_eq rfl rfl) ?_ (Or.inl rfl),
        (hidle t.pendingRequests).resolve_right (not_not.mpr hlatest)⟩
      refine iff_of_false ?_ (fun hcontra => ReceiveState.noConfusion (hstate.symm.trans hcontra))
      intro hcontra
      cases hcontra
  · refine ⟨requests, permits', h', hpermit, ?_, fun y => (hsenders y).1, hsent⟩
    intro y
    rw [if_neg (fun hand => hflow (hand.2.trans (hsenders x).1.symm))]
    exact (hsenders y).2

theorem samePermits_updateNumReserved (e : UdpSenderEntry) (flowSeq num : ℕ) :
    SamePermits e (e.updateNumReserved flowSeq num) := by
  unfold UdpSenderEntry.updateNumReserved
  cases hquery : e.queryPermit flowSeq with
  | none => exact SamePermits.of_eq rfl rfl
  | some i =>
    refine ⟨?_, ?_, rfl⟩
    · intro j
      dsimp only
      by_cases hji : j = i
      · rw [hji, Function.update_self]
        rfl
      · rw [Function.update_of_ne hji]
    · intro j
      dsimp only
      by_cases hji : j = i
      · rw [hji, Function.update_self]
      · rw [Function.update_of_ne hji]

theorem state_updateNumReserved (e : UdpSenderEntry) (flowSeq num : ℕ) :
    (e.updateNumReserved flowSeq num).state = e.state ∧
      (e.updateNumReserved flowSeq num).flowSeq = e.flowSeq := by
  unfold UdpSenderEntry.updateNumReserved
  cases e.queryPermit flowSeq with
  | none => exact ⟨rfl, rfl⟩
  | some i => exact ⟨rfl, rfl⟩

theorem nextFlowSeq_ne_zero (flowSeq : ℕ) : nextFlowSeq flowSeq ≠ 0 := by
  unfold nextFlowSeq
  omega

theorem Holds.doFlowRequest (h : Holds s requests permits) (x : σ) (msg : UdpRequestToSendMsg) :
    ∃ s' requests' permits', s.doFlowRequest x msg = some s' ∧ Holds s' requests' permits' := by
  have hpos : msg.flowSeq ≠ 0 := msg.flowSeq_pos.ne'
  unfold ReceiveFlow.doFlowRequest
  cases msg.cmd with
  | request_to_send =>
    obtain ⟨s', requests', hresult, hholds⟩ := h.noteRequest x msg.sendSeq hpos
    exact ⟨s', requests', permits, hresult, hholds⟩
  | send_start =>
    have hstate := state_updateNumReserved (s.senders x) msg.flowSeq msg.packets
    refine ⟨_, requests, permits, rfl, h.setSender (samePermits_updateNumReserved _ _ _) ?_
      (Or.inl hstate.2)⟩
    rw [hstate.1]
  | send_completed =>
    obtain ⟨requests', permits', hholds, -⟩ := h.noteDone x msg.flowSeq
    exact ⟨_, requests', permits', rfl, hholds⟩
  | request_to_send_more =>
    obtain ⟨requests', permits', hholds, -⟩ := h.noteDone x msg.flowSeq
    obtain ⟨s', requests'', hresult, hholds'⟩ :=
      hholds.noteRequest x msg.sendSeq (nextFlowSeq_ne_zero msg.flowSeq)
    exact ⟨s', requests'', permits', hresult, hholds'⟩

/-! ### The check of the requests -/

/-- The sender is not asked to try again after one more permit that expires. -/
def Abandons (limits : FlowLimits) (timeouts : ℕ) : Prop :=
  limits.udpMaxPermitDeadTimeouts < (timeouts + 1) % 2 ^ 32 ∧ limits.udpMaxPermitDeadTimeouts ≠ 0

/-- What becomes of the sender of an expired permit. -/
structure Rescheduled (limits : FlowLimits) (s : ReceiveFlow σ) (x : σ) (s' : ReceiveFlow σ) :
    Prop where
  permit : ∀ q, s'.permit q = s.permit q
  other : ∀ y, y ≠ x → s'.senders y = s.senders y
  flowSeq : (s'.senders x).flowSeq = (s.senders x).flowSeq
  numPermits : (s'.senders x).numPermits = (s.senders x).numPermits
  timeouts : (s'.senders x).timeouts = ((s.senders x).timeouts + 1) % 2 ^ 32
  requested : (s'.senders x).state = .requested ↔
    (s.senders x).state = .requested ∨ ¬Abandons limits (s.senders x).timeouts
  msTick : s'.msTick = s.msTick
  sent : s'.sent = s.sent
  pendingPermits : s'.pendingPermits = s.pendingPermits

theorem rescheduled_of_setSender (l : LinkedListOf σ) {e : UdpSenderEntry}
    (hpermits : e.permits = (s.senders x).permits) (hflow : e.flowSeq = (s.senders x).flowSeq)
    (hnum : e.numPermits = (s.senders x).numPermits)
    (htimeouts : e.timeouts = ((s.senders x).timeouts + 1) % 2 ^ 32)
    (hstate : e.state = .requested ↔
      (s.senders x).state = .requested ∨ ¬Abandons limits (s.senders x).timeouts) :
    Rescheduled limits s x ({ s with pendingRequests := l }.setSender x e) where
  permit := by
    rintro ⟨y, j⟩
    by_cases hyx : y = x
    · unfold ReceiveFlow.permit
      dsimp only
      rw [hyx, senders_setSender_self, hpermits]
    · rw [permit_setSender_of_ne _ _ hyx]
      rfl
  other y hyx := senders_setSender_of_ne _ _ hyx
  flowSeq := by rw [senders_setSender_self, hflow]
  numPermits := by rw [senders_setSender_self, hnum]
  timeouts := by rw [senders_setSender_self, htimeouts]
  requested := by rw [senders_setSender_self, hstate]
  msTick := rfl
  sent := rfl
  pendingPermits := rfl

theorem Holds.reschedule (h : Holds s requests permits) (limits : FlowLimits)
    (hflow : (s.senders x).flowSeq ≠ 0) :
    ∃ s' requests', reschedule limits s x = some s' ∧ Rescheduled limits s x s' ∧
      Holds s' requests' permits := by
  unfold ReceiveFlow.reschedule
  dsimp only
  have hsame : ∀ state : ReceiveState, SamePermits (s.senders x) { s.senders x with
      state := state
      timeouts := ((s.senders x).timeouts + 1) % 2 ^ 32 } :=
    fun _ => SamePermits.of_eq rfl rfl
  have hstay : Holds (s.setSender x { s.senders x with
      timeouts := ((s.senders x).timeouts + 1) % 2 ^ 32 }) requests permits :=
    h.setSender (SamePermits.of_eq rfl rfl) Iff.rfl (Or.inl rfl)
  split_ifs with habandons hidle hidle
  · -- the last permit has gone and there is no request
    rw [setSender_setSender]
    refine ⟨_, requests, rfl, rescheduled_of_setSender s.pendingRequests rfl rfl rfl rfl ?_,
      h.setSender (hsame .idle) ?_ (Or.inl rfl)⟩
    · refine iff_of_false ?_ (fun hor => hor.elim hidle.2 (fun hnot => hnot habandons))
      intro hcontra
      cases hcontra
    · refine iff_of_false ?_ hidle.2
      intro hcontra
      cases hcontra
  · refine ⟨_, requests, rfl, rescheduled_of_setSender s.pendingRequests rfl rfl rfl rfl ?_,
      hstay⟩
    exact (or_iff_left (fun hnot => hnot habandons)).symm
  · let e : UdpSenderEntry := { s.senders x with
      state := .requested
      timeouts := ((s.senders x).timeouts + 1) % 2 ^ 32 }
    obtain ⟨l, hl, hholds⟩ := h.enqueue (e := e) hidle (hsame .requested) rfl hflow
    refine ⟨_, requests ++ [x], ?_, rescheduled_of_setSender (e := e) l rfl rfl rfl rfl ?_,
      hholds⟩
    · exact appendRequest_setSender hl _
    · exact iff_of_true rfl (Or.inr habandons)
  · refine ⟨_, requests, rfl, rescheduled_of_setSender s.pendingRequests rfl rfl rfl rfl ?_,
      hstay⟩
    exact iff_of_true (not_not.mp hidle) (Or.inr habandons)

/-- The permits that are expired go one by one, from the front of the list. -/
theorem Holds.expirePermits (h : Holds s requests permits) {P : ReceiveFlow σ → Prop} (hP : P s)
    {now : ℕ} (hstep : ∀ {s s' : ReceiveFlow σ} {requests permits} {p},
      Holds s requests (p :: permits) → P s →
      limits.udpPermitTimeout ≤ s.age now p →
      Rescheduled limits (s.removePermit p) p.1 s' → P s')
    (fuel timeout : ℕ) (hfuel : permits.length ≤ fuel) :
    ∃ s' requests' permits' timeout', ReceiveFlow.expirePermits limits now fuel s timeout
        permits.head? = some (s', permits'.head?, timeout') ∧
      Holds s' requests' permits' ∧ P s' ∧ ∀ p, permits'.head? = some p →
        s'.age now p < limits.udpPermitTimeout := by
  induction permits generalizing s requests fuel with
  | nil =>
    refine ⟨s, requests, [], timeout, ?_, h, hP, fun p hp => by cases hp⟩
    cases fuel <;> rfl
  | cons p permits ih =>
    obtain ⟨fuel, rfl⟩ : ∃ n, fuel = n + 1 := by
      cases fuel with
      | zero => exact absurd hfuel (Nat.not_succ_le_zero _)
      | succ n => exact ⟨n, rfl⟩
    rw [List.head?_cons]
    unfold ReceiveFlow.expirePermits
    dsimp only
    rw [show (now - ((s.senders p.1).permits p.2).permitTime) % 2 ^ 32 = s.age now p from rfl]
    by_cases hexpired : limits.udpPermitTimeout ≤ s.age now p
    · have hflow : ((s.removePermit p).senders p.1).flowSeq ≠ 0 := by
        have hactive := (h.mem_permits p).mp List.mem_cons_self
        unfold ReceiveFlow.removePermit
        rw [senders_setSender_self]
        exact h.numbered p.1 (Or.inr ⟨p.2, hactive⟩)
      have hrest : (p :: permits).filter (fun q => q ≠ p) = permits := by
        have hnodup := List.nodup_cons.mp h.permits_represents.nodup
        rw [List.filter_cons_of_neg (by rw [decide_eq_true_iff]; exact not_not.mpr rfl),
          List.filter_eq_self]
        intro q hq
        apply decide_eq_true
        intro heq
        exact hnodup.1 (heq ▸ hq)
      have hremoved := h.removePermit List.mem_cons_self
      rw [hrest] at hremoved
      obtain ⟨s', requests', hresult, hrescheduled, hholds⟩ := hremoved.reschedule limits hflow
      rw [if_pos hexpired, hresult]
      dsimp only
      rw [h.permits_represents.head_cons.2]
      exact ih hholds (hstep h hP hexpired hrescheduled) fuel (Nat.le_of_succ_le_succ hfuel)
    · rw [if_neg hexpired]
      refine ⟨s, requests, p :: permits, _, rfl, h, hP, ?_⟩
      intro q hq
      rw [← Option.some.inj hq]
      exact not_le.mp hexpired

/-- The loop over the requests grants at most one permit: it does not find its way back to the
list from a sender that has been taken from it. -/
theorem Holds.grantPermits (h : Holds s requests permits) {P : ReceiveFlow σ → Prop} (hP : P s)
    (limits : FlowLimits) (env : Surroundings σ)
    (hstep : ∀ {s s' : ReceiveFlow σ} {requests permits} {x} {slots : ℕ} {i},
      Holds s requests permits → P s → (s.senders x).state = .requested →
      Granted { s with msTick := s.msTick + env.grantDelay x } x slots i s' → P s')
    (before : List σ) {rest : List σ} (hsplit : requests = before ++ rest)
    (permitsIssued fuel slots timeout : ℕ) (anyCanSend anyCannotSend : Bool)
    (hfuel : rest.length ≤ fuel) :
    ∃ s' requests' permits' result, ReceiveFlow.grantPermits limits env permitsIssued fuel s slots
        timeout anyCanSend anyCannotSend rest.head? = some (s', result) ∧
      Holds s' requests' permits' ∧ P s' := by
  induction rest generalizing before fuel slots timeout anyCanSend anyCannotSend with
  | nil => exact ⟨s, requests, permits, _, by cases fuel <;> rfl, h, hP⟩
  | cons x rest ih =>
    obtain ⟨fuel, rfl⟩ : ∃ n, fuel = n + 1 := by
      cases fuel with
      | zero => exact absurd hfuel (Nat.not_succ_le_zero _)
      | succ n => exact ⟨n, rfl⟩
    have hnext : s.pendingRequests.next x = rest.head? :=
      (h.requests_represents.links before x rest hsplit).2
    have hrest : requests = (before ++ [x]) ++ rest := by
      rw [hsplit, List.append_assoc]
      rfl
    have hfuel' : rest.length ≤ fuel := Nat.le_of_succ_le_succ hfuel
    rw [List.head?_cons]
    unfold ReceiveFlow.grantPermits
    split_ifs with hfull hslots hcan hunused
    · exact ⟨s, requests, permits, _, rfl, h, hP⟩
    · exact ⟨s, requests, permits, _, rfl, h, hP⟩
    · have hstate : (s.senders x).state = .requested := by
        rw [← h.mem_requests, hsplit]
        exact List.mem_append_right _ List.mem_cons_self
      obtain ⟨s', i, hresult, hgranted, hholds⟩ := (h.wait (env.grantDelay x)).grantPermit
        (min (min slots limits.maxSlotsPerSender) (unsignedSub limits.maxPermits permitsIssued))
        hstate hunused
      dsimp only
      rw [hresult]
      dsimp only
      have hgone : s'.pendingRequests.next x = none := by
        refine (hholds.requests_represents.outside x ?_).2
        intro hmem
        exact of_decide_eq_true (List.mem_filter.mp hmem).2 rfl
      rw [hgone]
      exact ⟨s', _, _, _, by cases fuel <;> rfl, hholds, hstep h hP hstate hgranted⟩
    · rw [hnext]
      exact ih (before ++ [x]) hrest fuel slots timeout anyCanSend anyCannotSend hfuel'
    · rw [hnext]
      exact ih (before ++ [x]) hrest fuel slots timeout anyCanSend true hfuel'

/-- **The rule for a check of the requests**: `P` is kept by each permit that expires, and gives
`Q` when the first permit that is left is not expired; `Q` is kept by each permit that is
granted. -/
theorem Holds.checkPendingRequests (h : Holds s requests permits) {P Q : ReceiveFlow σ → Prop}
    (limits : FlowLimits) (env : Surroundings σ)
    (hP : P { s with msTick := s.msTick + env.elapsed })
    (hexpire : ∀ {t t' : ReceiveFlow σ} {requests permits} {p},
      Holds t requests (p :: permits) → P t →
      limits.udpPermitTimeout ≤ t.age (s.msTick + env.elapsed) p →
      Rescheduled limits (t.removePermit p) p.1 t' → P t')
    (hrest : ∀ {t : ReceiveFlow σ} {requests permits}, Holds t requests permits → P t →
      (∀ p, permits.head? = some p → t.age (s.msTick + env.elapsed) p < limits.udpPermitTimeout) →
      Q t)
    (hgrant : ∀ {t t' : ReceiveFlow σ} {requests permits} {x} {slots : ℕ} {i},
      Holds t requests permits → Q t → (t.senders x).state = .requested →
      Granted { t with msTick := t.msTick + env.grantDelay x } x slots i t' → Q t') :
    ∃ s' requests' permits' timeout, checkPendingRequests limits env s = some (s', timeout) ∧
      Holds s' requests' permits' ∧ Q s' := by
  have hwait := h.wait env.elapsed
  unfold ReceiveFlow.checkPendingRequests
  dsimp only
  obtain ⟨t, requests₁, permits₁, timeout₁, hexpired, hholds₁, hP₁, hhead⟩ := hwait.expirePermits hP
    hexpire s.pendingPermits.numEntries 5000 h.permits_represents.numEntries.ge
  rw [← h.permits_represents.head] at hexpired
  rw [hexpired]
  dsimp only
  obtain ⟨n, hsum⟩ := hholds₁.sumReserved [] t.pendingPermits.numEntries 0 rfl
    hholds₁.permits_represents.numEntries.ge
  rw [hsum]
  dsimp only
  obtain ⟨s', requests', permits', result, hresult, hholds, hQ⟩ :=
    hholds₁.grantPermits (hrest hholds₁ hP₁ hhead) limits env hgrant [] rfl
      n t.pendingRequests.numEntries (env.available - n) timeout₁ false false
      hholds₁.requests_represents.numEntries.ge
  rw [← hholds₁.requests_represents.head] at hresult
  rw [hresult]
  dsimp only
  split_ifs
  · exact ⟨s', requests', permits', _, rfl, hholds, hQ⟩
  · exact ⟨s', requests', permits', _, rfl, hholds, hQ⟩

/-! ### Runs -/

theorem Holds.step (h : Holds s requests permits) (limits : FlowLimits) (event : FlowEvent σ) :
    ∃ s' requests' permits', s.step limits event = some s' ∧ Holds s' requests' permits' := by
  cases event with
  | message x msg elapsed => exact (h.wait elapsed).doFlowRequest x msg
  | check env =>
    obtain ⟨s', requests', permits', timeout, hresult, hholds, -⟩ :=
      h.checkPendingRequests (P := fun _ => True) (Q := fun _ => True) limits env trivial
        (fun _ _ _ _ => trivial) (fun _ _ _ => trivial) (fun _ _ _ _ => trivial)
    refine ⟨s', requests', permits', ?_, hholds⟩
    unfold ReceiveFlow.step
    dsimp only
    rw [hresult]
    rfl

theorem Holds.run (h : Holds s requests permits) (limits : FlowLimits)
    (events : List (FlowEvent σ)) :
    ∃ s' requests' permits', run limits s events = some s' ∧ Holds s' requests' permits' := by
  induction events generalizing s requests permits with
  | nil => exact ⟨s, requests, permits, rfl, h⟩
  | cons event events ih =>
    obtain ⟨s', requests', permits', hresult, hholds⟩ := h.step limits event
    unfold ReceiveFlow.run
    rw [hresult]
    exact ih hholds

/-- **Every run keeps the lists and the senders together**, whatever messages come and in which
order: it has a state, in which the lists are well formed and agree with the senders, no sender has
too many permits, and after a permit that is not expired there is none that is. -/
theorem run_consistent (limits : FlowLimits) (events : List (FlowEvent σ)) :
    ∃ s requests permits, run limits new events = some s ∧ Holds s requests permits ∧
      (∀ x, (s.senders x).numPermits ≤ maxPermitsPerSender) ∧
      ∀ now, (∀ p ∈ permits, now < (s.permit p).permitTime + 2 ^ 32) →
        permits.Pairwise fun p q =>
          s.age now p < limits.udpPermitTimeout → s.age now q < limits.udpPermitTimeout := by
  obtain ⟨s, requests, permits, hrun, hholds⟩ := holds_new.run limits events
  refine ⟨s, requests, permits, hrun, hholds, ?_, ?_⟩
  · intro x
    rw [hholds.numPermits]
    exact UdpSenderEntry.card_activePermits_le _
  · intro now hnow
    refine (hholds.age_antitone hnow).imp ?_
    intro p q hle hlt
    exact hle.trans_lt hlt

end ReceiveFlow

end Udp
