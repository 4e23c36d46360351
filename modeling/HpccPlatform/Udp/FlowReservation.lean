import HpccPlatform.Udp.FlowRun

/-!
# One permit for each request

The permits of a sender are looked up by the number of the request they were given for, and the
first one that is found is taken.  There is only one as long as no sender is put back on the list of
requests, because one of its permits has expired, while it still has the permit for its latest
request: the next permit would get the same number.
-/

namespace Udp

/-- The sender and the number of the request that a message makes. -/
def FlowEvent.request {σ : Type*} : FlowEvent σ → Option (σ × ℕ)
  | .message x ⟨.request_to_send, _, _, flowSeq, _, _⟩ _ => some (x, flowSeq)
  | .message x ⟨.request_to_send_more, _, _, flowSeq, _, _⟩ _ => some (x, nextFlowSeq flowSeq)
  | _ => none

namespace ReceiveFlow

variable {σ : Type*}

/-- The active permits of a sender have different numbers. -/
def Distinct (s : ReceiveFlow σ) : Prop :=
  ∀ x i j, (s.permit (x, i)).isActive →
    (s.permit (x, i)).flowSeq = (s.permit (x, j)).flowSeq → i = j

/-- All that is reserved under a number. -/
def totalReserved (s : ReceiveFlow σ) (x : σ) (flowSeq : ℕ) : ℕ :=
  ∑ i with (s.permit (x, i)).flowSeq = flowSeq, (s.permit (x, i)).getNumReserved

/-- After the event there is one reservation for each request: the permits have different numbers,
a permit that is sent again has the number that was asked for and what is reserved for it, and what
a sender announces is what is reserved. -/
structure OneReservation (s : ReceiveFlow σ) (event : FlowEvent σ) (s' : ReceiveFlow σ) :
    Prop where
  distinct : s'.Distinct
  resent : ∀ x flowSeq, event.request = some (x, flowSeq) →
    ∀ i, (s'.permit (x, i)).flowSeq = flowSeq →
      s'.sent = s.sent ++ [(x, .ok_to_send flowSeq (s'.permit (x, i)).getNumReserved)]
  started : ∀ x msg elapsed, event = .message x msg elapsed → msg.cmd = .send_start →
    s'.totalReserved x msg.flowSeq = msg.packets

/-- A permit is left by a check at the time `now`: there is one that is not younger and not
expired. -/
def Survives (limits : FlowLimits) (s : ReceiveFlow σ) (now : ℕ)
    (q : σ × Fin maxPermitsPerSender) : Prop :=
  ∃ y i, (s.permit (y, i)).isActive ∧ (s.permit (y, i)).permitTime ≤ (s.permit q).permitTime ∧
    s.age now (y, i) < limits.udpPermitTimeout

/-- When a permit of a sender expires and that for its latest request stays, the sender is
abandoned. -/
def KeepsLatest (limits : FlowLimits) (s : ReceiveFlow σ) (now : ℕ) : Prop :=
  ∀ x i j, (s.permit (x, i)).isActive → limits.udpPermitTimeout ≤ s.age now (x, i) →
    (s.permit (x, j)).isActive → (s.permit (x, j)).flowSeq = (s.senders x).flowSeq →
      Survives limits s now (x, j) →
        ∀ k < (s.senders x).numPermits, Abandons limits (((s.senders x).timeouts + k) % 2 ^ 32)

/-- A permit with the number is that for the latest request. -/
def OfLatest (s : ReceiveFlow σ) (x : σ) (flowSeq : ℕ) : Prop :=
  ∀ i, (s.permit (x, i)).flowSeq = flowSeq → flowSeq = (s.senders x).flowSeq

/-- The event is one for which the permits stay different: a request for which there is a permit
is the latest one, a sender starts to send while it has the permit, and no permit expires before
that for the latest request unless the sender is abandoned. -/
def Orderly (limits : FlowLimits) (s : ReceiveFlow σ) : FlowEvent σ → Prop
  | .message x ⟨.request_to_send, _, _, flowSeq, _, _⟩ _ => s.OfLatest x flowSeq
  | .message x ⟨.request_to_send_more, _, _, flowSeq, _, _⟩ _ => s.OfLatest x (nextFlowSeq flowSeq)
  | .message x ⟨.send_start, packets, _, flowSeq, _, _⟩ _ =>
    packets = 0 ∨ (∃ i, (s.permit (x, i)).flowSeq = flowSeq) ∧ packets < 2 ^ 31
  | .message _ ⟨.send_completed, _, _, _, _, _⟩ _ => True
  | .check env => s.KeepsLatest limits (s.msTick + env.elapsed)

/-- The permits are different, and a sender that is on the list of requests has no permit for its
latest request. -/
structure Separate (s : ReceiveFlow σ) : Prop where
  distinct : s.Distinct
  requested : ∀ x i, (s.senders x).state = .requested → (s.permit (x, i)).isActive →
    (s.permit (x, i)).flowSeq ≠ (s.senders x).flowSeq

variable {s s' : ReceiveFlow σ} {x : σ} {flowSeq : ℕ} {limits : FlowLimits}
  {requests : List σ} {permits : List (σ × Fin maxPermitsPerSender)}

theorem separate_new : Separate (new : ReceiveFlow σ) where
  distinct _ _ _ hactive := absurd hactive not_isActive_revoked
  requested _ _ hstate := by cases hstate

theorem Distinct.of_subset (h : s.Distinct)
    (hpermit : ∀ q, (s'.permit q).isActive → (s.permit q).isActive ∧
      (s'.permit q).flowSeq = (s.permit q).flowSeq) : s'.Distinct := by
  intro x i j hactive heq
  have hj : (s'.permit (x, j)).isActive := by
    unfold SendPermit.isActive at hactive ⊢
    rwa [← heq]
  obtain ⟨hi', hi⟩ := hpermit _ hactive
  obtain ⟨-, hj⟩ := hpermit _ hj
  apply h x i j hi'
  rw [← hi, heq, hj]

theorem Separate.wait (h : s.Separate) (elapsed : ℕ) :
    Separate { s with msTick := s.msTick + elapsed } where
  distinct := h.distinct
  requested := h.requested

/-! ### Permits that expire -/

/-- While the permits of `s` expire: a sender that is on the list of requests has a permit for its
latest request only if that permit will expire as well. -/
structure Expiring (limits : FlowLimits) (s : ReceiveFlow σ) (now : ℕ) (t : ReceiveFlow σ) :
    Prop where
  distinct : t.Distinct
  permit : ∀ q, (t.permit q).isActive → t.permit q = s.permit q
  flowSeq : ∀ y, (t.senders y).flowSeq = (s.senders y).flowSeq
  numPermits : ∀ y, (t.senders y).numPermits ≤ (s.senders y).numPermits
  timeouts : ∀ y, (t.senders y).timeouts % 2 ^ 32 = ((s.senders y).timeouts +
    ((s.senders y).numPermits - (t.senders y).numPermits)) % 2 ^ 32
  requested : ∀ y i, (t.senders y).state = .requested → (t.permit (y, i)).isActive →
    (t.permit (y, i)).flowSeq = (t.senders y).flowSeq → ¬Survives limits s now (y, i)

theorem Separate.expiring (h : s.Separate) (now elapsed : ℕ) :
    Expiring limits s now { s with msTick := s.msTick + elapsed } where
  distinct := h.distinct
  permit _ _ := rfl
  flowSeq _ := rfl
  numPermits _ := le_rfl
  timeouts y := by
    dsimp only
    rw [Nat.sub_self, Nat.add_zero]
  requested y i hstate hactive hflow := absurd hflow (h.requested y i hstate hactive)

theorem abandons_mod (limits : FlowLimits) (n : ℕ) :
    Abandons limits (n % 2 ^ 32) ↔ Abandons limits n := by
  unfold Abandons
  rw [Nat.mod_add_mod]

theorem Holds.numPermits_pos (h : Holds s requests permits) {p : σ × Fin maxPermitsPerSender}
    (hp : p ∈ permits) : 0 < (s.senders p.1).numPermits := by
  rw [h.numPermits]
  exact Finset.card_pos.mpr ⟨p.2, UdpSenderEntry.mem_activePermits.mpr ((h.mem_permits p).mp hp)⟩

theorem Expiring.separate {now : ℕ} {t : ReceiveFlow σ} (h : Expiring limits s now t)
    (hholds : Holds t requests permits)
    (hhead : ∀ p, permits.head? = some p → t.age now p < limits.udpPermitTimeout) :
    t.Separate where
  distinct := h.distinct
  requested y i hstate hactive hlatest := by
    apply h.requested y i hstate hactive hlatest
    have hmem := (hholds.mem_permits (y, i)).mpr hactive
    cases permits with
    | nil => cases hmem
    | cons r permits =>
      have hr : (t.permit r).isActive := (hholds.mem_permits r).mp List.mem_cons_self
      have hage : s.age now r = t.age now r := by
        unfold age
        rw [h.permit r hr]
      refine ⟨r.1, r.2, ?_, ?_, ?_⟩
      · rw [← h.permit _ hr]
        exact hr
      · rw [← h.permit _ hr, ← h.permit _ hactive]
        rcases List.mem_cons.mp hmem with heq | hmem
        · rw [heq]
        · exact (List.pairwise_cons.mp hholds.ordered).1 _ hmem
      · rw [hage]
        exact hhead r rfl

variable [DecidableEq σ]

/-- Every step of the run is as `R` says. -/
def Along (limits : FlowLimits) (R : ReceiveFlow σ → FlowEvent σ → ReceiveFlow σ → Prop) :
    ReceiveFlow σ → List (FlowEvent σ) → Prop
  | _, [] => True
  | s, event :: events =>
    match s.step limits event with
    | some s' => R s event s' ∧ Along limits R s' events
    | none => False

theorem Separate.requested_step (h : s.Separate) (hstep : Requested s x flowSeq s')
    (hnone : (s.senders x).queryPermit flowSeq = none) : s'.Separate where
  distinct := h.distinct.of_subset fun q hq => by
    rw [hstep.permit] at hq ⊢
    exact ⟨hq, rfl⟩
  requested y i hstate hactive := by
    rw [hstep.permit] at hactive ⊢
    rw [hstep.flowSeq]
    rw [hstep.state] at hstate
    by_cases hyx : y = x
    · rw [hyx, if_pos rfl]
      exact UdpSenderEntry.queryPermit_eq_none.mp hnone i
    · rw [if_neg hyx] at hstate ⊢
      exact h.requested y i hstate hactive

theorem active_of_done (hstep : Done s x flowSeq s') {q : σ × Fin maxPermitsPerSender}
    (hq : (s'.permit q).isActive) : s'.permit q = s.permit q := by
  refine (hstep.permit q).resolve_right ?_
  intro hrevoked
  rw [hrevoked] at hq
  exact not_isActive_revoked hq

theorem Separate.done_step (h : s.Separate) (hstep : Done s x flowSeq s') : s'.Separate where
  distinct := h.distinct.of_subset fun q hq => by
    have hsame := active_of_done hstep hq
    rw [hsame] at hq ⊢
    exact ⟨hq, rfl⟩
  requested y i hstate hactive := by
    have hsame := active_of_done hstep hactive
    rw [hsame] at hactive ⊢
    rw [hstep.flowSeq]
    rw [hstep.state] at hstate
    split_ifs at hstate
    exact h.requested y i hstate hactive

theorem Separate.granted_step (h : s.Separate) {slots : ℕ} {i : Fin maxPermitsPerSender}
    (hflow : (s.senders x).flowSeq ≠ 0) (hstate : (s.senders x).state = .requested)
    (hstep : Granted s x slots i s') : s'.Separate where
  distinct y j k hactive heq := by
    rw [hstep.permit, hstep.permit] at heq
    rw [hstep.permit] at hactive
    -- the new permit has the number of the latest request, which no other one has
    have hother : ∀ k', k' ≠ i → (s.permit (x, k')).flowSeq ≠ (s.senders x).flowSeq := by
      intro k' _ heq'
      refine h.requested x k' hstate ?_ heq'
      unfold SendPermit.isActive
      rwa [heq']
    by_cases hj : (y, j) = (x, i)
    · obtain ⟨rfl, rfl⟩ := Prod.mk.inj hj
      by_contra hne
      rw [if_pos rfl, if_neg (fun hk => hne (Prod.mk.inj hk).2.symm)] at heq
      exact hother k (fun hk => hne hk.symm) heq.symm
    · by_cases hk : (y, k) = (x, i)
      · obtain ⟨rfl, rfl⟩ := Prod.mk.inj hk
        rw [if_pos rfl, if_neg hj] at heq
        exact absurd heq (hother j (fun hji => hj (by rw [hji])))
      · rw [if_neg hj, if_neg hk] at heq
        rw [if_neg hj] at hactive
        exact h.distinct y j k hactive heq
  requested y j hstate' hactive := by
    rw [hstep.state] at hstate'
    by_cases hyx : y = x
    · rw [if_pos hyx] at hstate'
      cases hstate'
    · rw [if_neg hyx] at hstate'
      rw [hstep.permit, if_neg (fun hq => hyx (Prod.mk.inj hq).1)] at hactive ⊢
      rw [hstep.flowSeq]
      exact h.requested y j hstate' hactive

theorem Expiring.step {now : ℕ} {t t' : ReceiveFlow σ} {p : σ × Fin maxPermitsPerSender}
    (h : Expiring limits s now t) (hkeeps : KeepsLatest limits s now)
    (hholds : Holds t requests (p :: permits)) (hexpired : limits.udpPermitTimeout ≤ t.age now p)
    (hstep : Rescheduled limits (t.removePermit p) p.1 t') : Expiring limits s now t' := by
  have hp : (t.permit p).isActive := (hholds.mem_permits p).mp List.mem_cons_self
  have hself : (t.removePermit p).senders p.1 = (t.senders p.1).revokePermit p.2 :=
    senders_setSender_self _ _ _
  have hother : ∀ y, y ≠ p.1 → t'.senders y = t.senders y := by
    intro y hy
    rw [hstep.other y hy]
    exact senders_setSender_of_ne _ _ hy
  have hactive : ∀ q, (t'.permit q).isActive → q ≠ p ∧ t'.permit q = t.permit q := by
    intro q hq
    rw [hstep.permit, permit_removePermit] at hq ⊢
    split_ifs at hq ⊢ with hqp
    · exact absurd hq not_isActive_revoked
    · exact ⟨hqp, rfl⟩
  have hflow : ∀ y, (t'.senders y).flowSeq = (t.senders y).flowSeq := by
    intro y
    by_cases hy : y = p.1
    · rw [hy, hstep.flowSeq, hself]
      rfl
    · rw [hother y hy]
  have hnum : (t'.senders p.1).numPermits = (t.senders p.1).numPermits - 1 := by
    rw [hstep.numPermits, hself]
    rfl
  have hpos := hholds.numPermits_pos List.mem_cons_self
  have hle := h.numPermits p.1
  have htimes := h.timeouts p.1
  refine ⟨?_, ?_, ?_, ?_, ?_, ?_⟩
  · refine h.distinct.of_subset ?_
    intro q hq
    have hsame := (hactive q hq).2
    rw [hsame] at hq ⊢
    exact ⟨hq, rfl⟩
  · intro q hq
    have hsame := (hactive q hq).2
    rw [hsame] at hq ⊢
    exact h.permit q hq
  · intro y
    rw [hflow]
    exact h.flowSeq y
  · intro y
    by_cases hy : y = p.1
    · rw [hy, hnum]
      omega
    · rw [hother y hy]
      exact h.numPermits y
  · intro y
    by_cases hy : y = p.1
    · have ht : (t'.senders p.1).timeouts = ((t.senders p.1).timeouts + 1) % 2 ^ 32 := by
        rw [hstep.timeouts, hself]
        rfl
      rw [hy, hnum, ht]
      omega
    · rw [hother y hy]
      exact h.timeouts y
  · intro y i hstate hi hlatest hsurvives
    have hsame := (hactive (y, i) hi).2
    rw [hflow, hsame] at hlatest
    rw [hsame] at hi
    by_cases hy : y = p.1
    · rw [hy] at hstate hlatest hsurvives hi
      rcases hstep.requested.mp hstate with hstate | habandons
      · rw [hself] at hstate
        exact h.requested p.1 i hstate hi hlatest hsurvives
      · -- the sender has been put back, so that it was not abandoned
        apply habandons
        have hall := hkeeps p.1 p.2 i
        rw [← h.permit _ hp, ← h.permit _ hi, ← h.flowSeq] at hall
        have hage : s.age now (p.1, p.2) = t.age now p := by
          unfold age
          rw [h.permit p hp]
        rw [hage] at hall
        have hk := hall hp hexpired hi hlatest hsurvives
          ((s.senders p.1).numPermits - (t.senders p.1).numPermits) (by omega)
        rw [← htimes, abandons_mod] at hk
        rw [hself]
        exact hk
    · rw [hother y hy] at hstate
      exact h.requested y i hstate hi hlatest hsurvives

/-! ### Steps and runs -/

/-- A request is answered with the permit for it, or there is none. -/
theorem Separate.noteRequest (h : s.Separate) (hholds : Holds s requests permits)
    (sendSeq : ℕ) (hflow : flowSeq ≠ 0) (hlatest : s.OfLatest x flowSeq) :
    ∃ s' requests', s.noteRequest x flowSeq sendSeq = some s' ∧ Holds s' requests' permits ∧
      s'.Separate ∧ ∀ i, (s'.permit (x, i)).flowSeq = flowSeq →
        s'.sent = s.sent ++ [(x, .ok_to_send flowSeq (s'.permit (x, i)).getNumReserved)] := by
  cases hquery : (s.senders x).queryPermit flowSeq with
  | none =>
    obtain ⟨s', requests', hresult, hstep, hholds'⟩ :=
      hholds.noteRequest_of_none sendSeq hflow hquery
    refine ⟨s', requests', hresult, hholds', h.requested_step hstep hquery, ?_⟩
    intro i hi
    rw [hstep.permit] at hi
    exact absurd hi (UdpSenderEntry.queryPermit_eq_none.mp hquery i)
  | some j =>
    have hj : (s.permit (x, j)).flowSeq = flowSeq := UdpSenderEntry.flowSeq_of_queryPermit hquery
    refine ⟨_, requests, noteRequest_of_some hquery, hholds.send x _, ⟨h.distinct, h.requested⟩, ?_⟩
    intro i hi
    have hij : j = i := by
      refine h.distinct x j i ?_ (hj.trans hi.symm)
      unfold SendPermit.isActive
      rwa [hj]
    rw [← hij, permit_sendPermitToSend, hlatest j hj]
    rfl

theorem permits_updateNumReserved (e : UdpSenderEntry) (flowSeq num : ℕ)
    (j : Fin maxPermitsPerSender) : (e.updateNumReserved flowSeq num).permits j =
      if e.queryPermit flowSeq = some j then { (e.permits j) with numPackets := num }
      else e.permits j := by
  unfold UdpSenderEntry.updateNumReserved
  cases e.queryPermit flowSeq with
  | none => rfl
  | some i =>
    dsimp only
    by_cases hji : j = i
    · rw [hji, Function.update_self, if_pos rfl]
    · rw [Function.update_of_ne hji, if_neg (fun heq => hji (Option.some.inj heq).symm)]

theorem flowSeq_permit_updateNumReserved (s : ReceiveFlow σ) (x : σ) (flowSeq num : ℕ)
    (q : σ × Fin maxPermitsPerSender) :
    ((s.setSender x ((s.senders x).updateNumReserved flowSeq num)).permit q).flowSeq =
      (s.permit q).flowSeq := by
  obtain ⟨y, j⟩ := q
  by_cases hyx : y = x
  · unfold permit
    dsimp only
    rw [hyx, senders_setSender_self, permits_updateNumReserved]
    split_ifs
    · rfl
    · rfl
  · rw [permit_setSender_of_ne _ _ hyx]

/-- What is announced is reserved for the one permit with the number. -/
theorem Separate.updateNumReserved (h : s.Separate) {num : ℕ} (hflow : flowSeq ≠ 0)
    (hnum : num = 0 ∨ (∃ i, (s.permit (x, i)).flowSeq = flowSeq) ∧ num < 2 ^ 31) :
    (s.setSender x ((s.senders x).updateNumReserved flowSeq num)).Separate ∧
      (s.setSender x ((s.senders x).updateNumReserved flowSeq num)).totalReserved x flowSeq =
        num := by
  have hpermit := flowSeq_permit_updateNumReserved s x flowSeq num
  constructor
  · refine ⟨h.distinct.of_subset ?_, ?_⟩
    · intro q hq
      unfold SendPermit.isActive at hq ⊢
      rw [hpermit] at hq ⊢
      exact ⟨hq, rfl⟩
    · intro y j hstate hactive
      unfold SendPermit.isActive at hactive
      rw [hpermit] at hactive ⊢
      by_cases hyx : y = x
      · rw [hyx, senders_setSender_self, (state_updateNumReserved _ _ _).1] at hstate
        rw [hyx, senders_setSender_self, (state_updateNumReserved _ _ _).2]
        rw [hyx] at hactive
        exact h.requested x j hstate hactive
      · rw [senders_setSender_of_ne _ _ hyx] at hstate ⊢
        exact h.requested y j hstate hactive
  · unfold totalReserved
    simp only [hpermit]
    cases hquery : (s.senders x).queryPermit flowSeq with
    | none =>
      have hno : ∀ i, (s.permit (x, i)).flowSeq ≠ flowSeq :=
        UdpSenderEntry.queryPermit_eq_none.mp hquery
      rw [Finset.filter_false_of_mem (fun i _ => hno i), Finset.sum_empty]
      rcases hnum with hnum | ⟨⟨i, hi⟩, -⟩
      · exact hnum.symm
      · exact absurd hi (hno i)
    | some j =>
      have hj : (s.permit (x, j)).flowSeq = flowSeq := UdpSenderEntry.flowSeq_of_queryPermit hquery
      have hone : (Finset.univ.filter fun i => (s.permit (x, i)).flowSeq = flowSeq) = {j} := by
        ext i
        rw [Finset.mem_filter, Finset.mem_singleton]
        constructor
        · rintro ⟨-, hi⟩
          refine h.distinct x i j ?_ (hi.trans hj.symm)
          unfold SendPermit.isActive
          rwa [hi]
        · rintro rfl
          exact ⟨Finset.mem_univ _, hj⟩
      rw [hone, Finset.sum_singleton]
      unfold permit
      dsimp only
      rw [senders_setSender_self, permits_updateNumReserved, if_pos hquery]
      unfold SendPermit.getNumReserved
      dsimp only
      rcases hnum with rfl | ⟨-, hlt⟩
      · exact if_pos (by norm_num)
      · exact if_pos hlt

/-- The step lemma: an orderly event keeps the permits separate and has one reservation for each
request. -/
theorem Separate.step (h : s.Separate) (hholds : Holds s requests permits)
    (event : FlowEvent σ) (horderly : Orderly limits s event) :
    ∃ s' requests' permits', s.step limits event = some s' ∧ Holds s' requests' permits' ∧
      s'.Separate ∧ OneReservation s event s' := by
  cases event with
  | message x msg elapsed =>
    have hwait := h.wait elapsed
    have hholds' := hholds.wait elapsed
    obtain ⟨cmd, packets, sendSeq, flowSeq, hpos, hlt⟩ := msg
    cases cmd with
    | request_to_send =>
      obtain ⟨s', requests', hresult, hnext, hseparate, hsent⟩ :=
        hwait.noteRequest hholds' sendSeq hpos.ne' horderly
      refine ⟨s', requests', permits, hresult, hnext, hseparate, hseparate.distinct, ?_, ?_⟩
      · intro y n hrequest
        obtain ⟨rfl, rfl⟩ := Prod.mk.inj (Option.some.inj hrequest)
        exact hsent
      · intro y msg elapsed heq hcmd
        cases heq
        cases hcmd
    | send_start =>
      obtain ⟨hseparate, htotal⟩ := hwait.updateNumReserved hpos.ne' horderly
      obtain ⟨s', requests', permits', hresult, hnext⟩ :=
        hholds'.doFlowRequest x ⟨.send_start, packets, sendSeq, flowSeq, hpos, hlt⟩
      cases hresult
      refine ⟨_, requests', permits', rfl, hnext, hseparate, hseparate.distinct, ?_, ?_⟩
      · intro y n hrequest
        cases hrequest
      · intro y msg elapsed heq hcmd
        cases heq
        exact htotal
    | send_completed =>
      obtain ⟨requests', permits', hnext, hdone⟩ := hholds'.noteDone x flowSeq
      have hseparate := hwait.done_step hdone
      refine ⟨_, requests', permits', rfl, hnext, hseparate, hseparate.distinct, ?_, ?_⟩
      · intro y n hrequest
        cases hrequest
      · intro y msg elapsed heq hcmd
        cases heq
        cases hcmd
    | request_to_send_more =>
      obtain ⟨requests', permits', hnext, hdone⟩ := hholds'.noteDone x flowSeq
      have hlatest : ReceiveFlow.OfLatest
          ({ s with msTick := s.msTick + elapsed }.noteDone x flowSeq) x (nextFlowSeq flowSeq) := by
        intro i hi
        rw [hdone.flowSeq]
        apply horderly i
        refine Eq.trans (congrArg SendPermit.flowSeq (active_of_done hdone ?_)).symm hi
        unfold SendPermit.isActive
        rw [hi]
        exact nextFlowSeq_ne_zero flowSeq
      obtain ⟨s', requests'', hresult, hnext', hseparate, hsent⟩ :=
        (hwait.done_step hdone).noteRequest hnext sendSeq (nextFlowSeq_ne_zero flowSeq) hlatest
      refine ⟨s', requests'', permits', hresult, hnext', hseparate, hseparate.distinct, ?_, ?_⟩
      · intro y n hrequest
        obtain ⟨rfl, rfl⟩ := Prod.mk.inj (Option.some.inj hrequest)
        rw [hdone.sent] at hsent
        exact hsent
      · intro y msg elapsed heq hcmd
        cases heq
        cases hcmd
  | check env =>
    obtain ⟨s', requests', permits', timeout, hresult, hnext, hseparate⟩ :=
      hholds.checkPendingRequests limits env (h.expiring _ env.elapsed)
        (fun hholds hP hexpired hstep => hP.step horderly hholds hexpired hstep)
        (fun hholds hP hhead => hP.separate hholds hhead)
        (fun {t t' _ _ x _ _} hholds hQ hstate hstep => (hQ.wait (env.grantDelay x)).granted_step
          (hholds.numbered x (Or.inl hstate)) hstate hstep)
    refine ⟨s', requests', permits', ?_, hnext, hseparate, hseparate.distinct, ?_, ?_⟩
    · unfold ReceiveFlow.step
      dsimp only
      rw [hresult]
      rfl
    · intro y n hrequest
      cases hrequest
    · intro y msg elapsed heq
      cases heq

/-- **There is one reservation for each request in every run of orderly events.** -/
theorem oneReservation_of_orderly (limits : FlowLimits) (events : List (FlowEvent σ))
    (horderly : Along limits (fun s event _ => Orderly limits s event) new events) :
    Along limits OneReservation new events := by
  have hrun : ∀ (s : ReceiveFlow σ) (requests permits), Holds s requests permits → s.Separate →
      Along limits (fun s event _ => Orderly limits s event) s events →
        Along limits OneReservation s events := by
    clear horderly
    induction events with
    | nil => exact fun _ _ _ _ _ _ => trivial
    | cons event events ih =>
      intro s requests permits hholds hseparate halong
      unfold Along at halong ⊢
      cases hstep : s.step limits event with
      | none =>
        rw [hstep] at halong
        exact halong
      | some s' =>
        rw [hstep] at halong
        obtain ⟨t, requests', permits', ht, hholds', hseparate', hone⟩ :=
          hseparate.step hholds event halong.1
        rw [hstep] at ht
        cases ht
        exact ⟨hone, ih s' requests' permits' hholds' hseparate' halong.2⟩
  exact hrun new [] [] holds_new separate_new horderly

/-! ### Runs that are computed -/

instance decidableAlong (limits : FlowLimits)
    (R : ReceiveFlow σ → FlowEvent σ → ReceiveFlow σ → Prop)
    [∀ s event s', Decidable (R s event s')] :
    ∀ s events, Decidable (Along limits R s events)
  | _, [] => isTrue trivial
  | s, event :: events =>
    match hstep : s.step limits event with
    | some s' =>
      have := decidableAlong limits R s' events
      decidable_of_iff (R s event s' ∧ Along limits R s' events) (by rw [Along, hstep])
    | none => isFalse (by rw [Along, hstep]; exact id)

theorem Along.mono {R Q : ReceiveFlow σ → FlowEvent σ → ReceiveFlow σ → Prop}
    (hR : ∀ s event s', R s event s' → Q s event s') {events : List (FlowEvent σ)}
    (h : Along limits R s events) : Along limits Q s events := by
  induction events generalizing s with
  | nil => trivial
  | cons event events ih =>
    unfold Along at h ⊢
    cases hstep : s.step limits event with
    | none =>
      rw [hstep] at h
      exact h
    | some s' =>
      rw [hstep] at h
      exact ⟨hR _ _ _ h.1, ih h.2⟩

instance (limits : FlowLimits) (timeouts : ℕ) : Decidable (Abandons limits timeouts) :=
  inferInstanceAs (Decidable (_ ∧ _))

variable [Fintype σ]

instance (s : ReceiveFlow σ) : Decidable s.Distinct :=
  inferInstanceAs (Decidable (∀ x i j, (s.permit (x, i)).isActive →
    (s.permit (x, i)).flowSeq = (s.permit (x, j)).flowSeq → i = j))

instance (limits : FlowLimits) (s : ReceiveFlow σ) (now : ℕ) (q : σ × Fin maxPermitsPerSender) :
    Decidable (Survives limits s now q) :=
  inferInstanceAs (Decidable (∃ y i, (s.permit (y, i)).isActive ∧
    (s.permit (y, i)).permitTime ≤ (s.permit q).permitTime ∧
    s.age now (y, i) < limits.udpPermitTimeout))

instance (limits : FlowLimits) (s : ReceiveFlow σ) (now : ℕ) :
    Decidable (KeepsLatest limits s now) :=
  inferInstanceAs (Decidable (∀ x i j, (s.permit (x, i)).isActive →
    limits.udpPermitTimeout ≤ s.age now (x, i) → (s.permit (x, j)).isActive →
      (s.permit (x, j)).flowSeq = (s.senders x).flowSeq → Survives limits s now (x, j) →
        ∀ k < (s.senders x).numPermits,
          Abandons limits (((s.senders x).timeouts + k) % 2 ^ 32)))

instance (limits : FlowLimits) (s : ReceiveFlow σ) : ∀ event, Decidable (Orderly limits s event)
  | .message x ⟨.request_to_send, _, _, flowSeq, _, _⟩ _ =>
    inferInstanceAs (Decidable (∀ i, (s.permit (x, i)).flowSeq = flowSeq → _))
  | .message x ⟨.request_to_send_more, _, _, flowSeq, _, _⟩ _ =>
    inferInstanceAs (Decidable (∀ i, (s.permit (x, i)).flowSeq = nextFlowSeq flowSeq → _))
  | .message x ⟨.send_start, packets, _, flowSeq, _, _⟩ _ =>
    inferInstanceAs (Decidable
      (packets = 0 ∨ (∃ i, (s.permit (x, i)).flowSeq = flowSeq) ∧ packets < 2 ^ 31))
  | .message _ ⟨.send_completed, _, _, _, _, _⟩ _ => isTrue trivial
  | .check env => inferInstanceAs (Decidable (KeepsLatest limits s (s.msTick + env.elapsed)))

end ReceiveFlow

/-- Limits for the runs below: a permit lasts for 100 milliseconds. -/
def shortLimits : FlowLimits := ⟨10, 20, 100, 100, 10, 1, 500, 0⟩

/-- The requests are checked some time after the last event, with 20 places free. -/
def checkAfter (elapsed : ℕ) : FlowEvent Unit := .check ⟨elapsed, fun _ => 0, 20, fun _ => true⟩

def messageAfter (elapsed : ℕ) (cmd : FlowCmd) (packets : ℕ)
    (flowSeq : { n : ℕ // 0 < n ∧ n < 2 ^ 32 }) : FlowEvent Unit :=
  .message () ⟨cmd, packets, 0, flowSeq, flowSeq.2.1, flowSeq.2.2⟩ elapsed

/-- A sender asks, sends what it announces and is done. -/
theorem oneReservation_of_transfer : ReceiveFlow.Along shortLimits ReceiveFlow.OneReservation
    (ReceiveFlow.new : ReceiveFlow Unit)
    [messageAfter 1 .request_to_send 0 ⟨1, by decide⟩, checkAfter 0,
      messageAfter 5 .send_start 7 ⟨1, by decide⟩, messageAfter 0 .request_to_send 0 ⟨1, by decide⟩,
      messageAfter 5 .send_completed 7 ⟨1, by decide⟩, checkAfter 0] :=
  ReceiveFlow.oneReservation_of_orderly shortLimits _ (by decide +kernel)

/-- The permit for the first request expires while the sender has one for the second: it is given
another one for the second. -/
theorem permittedTwice_not_oneReservation : ¬ReceiveFlow.Along shortLimits
    ReceiveFlow.OneReservation (ReceiveFlow.new : ReceiveFlow Unit)
    [messageAfter 1 .request_to_send 0 ⟨1, by decide⟩, checkAfter 0,
      messageAfter 50 .request_to_send 0 ⟨2, by decide⟩, checkAfter 0, checkAfter 60] := by
  intro h
  have hdistinct := h.mono (Q := fun _ _ s' => s'.Distinct) (fun _ _ _ hone => hone.distinct)
  revert hdistinct
  decide +kernel

end Udp
