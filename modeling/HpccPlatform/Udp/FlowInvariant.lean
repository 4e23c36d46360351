import HpccPlatform.Udp.FlowControl

/-!
# The lists of a receiver

What `receive_receive_flow` keeps of its senders agrees: the senders on the list of requests are
those in the state `requested`, the permits on the list of permits are the active ones, each sender
knows how many it has, and the list of permits is in the order of time.  Every message and every
check of the requests keeps this.
-/

namespace Udp

open DoublyLinked

namespace UdpSenderEntry

variable {e : UdpSenderEntry} {flowSeq : ℕ} {i : Fin maxPermitsPerSender}

/-- The active permits. -/
def activePermits (e : UdpSenderEntry) : Finset (Fin maxPermitsPerSender) :=
  Finset.univ.filter fun i => (e.permits i).isActive

theorem mem_activePermits : i ∈ e.activePermits ↔ (e.permits i).isActive := by
  unfold activePermits
  rw [Finset.mem_filter]
  exact and_iff_right (Finset.mem_univ i)

theorem card_activePermits_le (e : UdpSenderEntry) :
    e.activePermits.card ≤ maxPermitsPerSender := by
  have h := Finset.card_le_univ e.activePermits
  rwa [Fintype.card_fin] at h

theorem flowSeq_of_queryPermit (h : e.queryPermit flowSeq = some i) :
    (e.permits i).flowSeq = flowSeq := by
  have hfound := List.find?_some h
  exact of_decide_eq_true hfound

theorem queryPermit_eq_none : e.queryPermit flowSeq = none ↔
    ∀ i, (e.permits i).flowSeq ≠ flowSeq := by
  unfold queryPermit
  rw [List.find?_eq_none]
  constructor
  · intro h i
    have hi := h i (List.mem_finRange i)
    rwa [decide_eq_true_iff] at hi
  · intro h i _
    rw [decide_eq_true_iff]
    exact h i

/-- A sender with fewer permits than it can have is given one more. -/
theorem allocatePermit_eq (e : UdpSenderEntry) (permitTime num : ℕ)
    (hnum : e.numPermits = e.activePermits.card) (hunused : e.hasUnusedPermit) :
    ∃ i, ¬(e.permits i).isActive ∧ e.allocatePermit permitTime num = some ({ e with
      numPermits := e.numPermits + 1
      lastPermitTime := permitTime
      permits := Function.update e.permits i ⟨e.flowSeq, num, e.sendSeq, permitTime⟩ }, i) := by
  have hfree : ∃ i, ¬(e.permits i).isActive := by
    by_contra hall
    apply hunused
    rw [hnum]
    have huniv : e.activePermits = Finset.univ := by
      apply Finset.eq_univ_of_forall
      intro i
      exact mem_activePermits.mpr (not_not.mp fun hi => hall ⟨i, hi⟩)
    rw [huniv, Finset.card_univ, Fintype.card_fin]
  unfold allocatePermit
  cases hfind : (List.finRange maxPermitsPerSender).find? fun i => ¬(e.permits i).isActive with
  | none =>
    obtain ⟨i, hi⟩ := hfree
    have hno := List.find?_eq_none.mp hfind i (List.mem_finRange i)
    exact absurd (decide_eq_true hi) hno
  | some i =>
    have hfound := List.find?_some hfind
    exact ⟨i, of_decide_eq_true hfound, rfl⟩

theorem activePermits_update (e : UdpSenderEntry) (i : Fin maxPermitsPerSender) (p : SendPermit)
    (e' : UdpSenderEntry) (he' : e'.permits = Function.update e.permits i p) :
    e'.activePermits =
      if p.isActive then insert i e.activePermits else e.activePermits.erase i := by
  ext j
  rw [mem_activePermits, he']
  by_cases hji : j = i
  · rw [hji, Function.update_self]
    by_cases hp : p.isActive
    · rw [if_pos hp]
      exact iff_of_true hp (Finset.mem_insert_self i _)
    · rw [if_neg hp]
      exact iff_of_false hp (Finset.notMem_erase i _)
  · rw [Function.update_of_ne hji]
    split_ifs
    · rw [Finset.mem_insert, mem_activePermits]
      exact (or_iff_right hji).symm
    · rw [Finset.mem_erase, mem_activePermits]
      exact (and_iff_right hji).symm

end UdpSenderEntry

theorem not_isActive_revoked : ¬SendPermit.revoked.isActive := fun h => h rfl

namespace ReceiveFlow

variable {σ : Type*}

def permit (s : ReceiveFlow σ) (p : σ × Fin maxPermitsPerSender) : SendPermit :=
  (s.senders p.1).permits p.2

/-- The list of requests has the senders `requests`, that of permits the permits `permits`. -/
structure Holds (s : ReceiveFlow σ) (requests : List σ)
    (permits : List (σ × Fin maxPermitsPerSender)) : Prop where
  requests_represents : s.pendingRequests.Represents requests
  permits_represents : s.pendingPermits.Represents permits
  mem_requests : ∀ x, x ∈ requests ↔ (s.senders x).state = .requested
  mem_permits : ∀ p, p ∈ permits ↔ (s.permit p).isActive
  numPermits : ∀ x, (s.senders x).numPermits = (s.senders x).activePermits.card
  ordered : permits.Pairwise fun p q => (s.permit p).permitTime ≤ (s.permit q).permitTime
  past : ∀ p ∈ permits, (s.permit p).permitTime ≤ s.msTick
  numbered : ∀ x, (s.senders x).state = .requested ∨ (∃ i, (s.permit (x, i)).isActive) →
    (s.senders x).flowSeq ≠ 0

variable {s s' : ReceiveFlow σ} {requests : List σ}
  {permits : List (σ × Fin maxPermitsPerSender)} {x y : σ} {e : UdpSenderEntry}

@[simp]
theorem senders_sendPermitToSend (s : ReceiveFlow σ) (x : σ) (n : ℕ) :
    (s.sendPermitToSend x n).senders = s.senders := rfl

@[simp]
theorem permit_sendPermitToSend (s : ReceiveFlow σ) (x : σ) (n : ℕ)
    (p : σ × Fin maxPermitsPerSender) : (s.sendPermitToSend x n).permit p = s.permit p := rfl

theorem holds_new : Holds (new : ReceiveFlow σ) [] [] where
  requests_represents := LinkedListOf.represents_empty
  permits_represents := LinkedListOf.represents_empty
  mem_requests x := by
    refine iff_of_false List.not_mem_nil ?_
    intro h
    cases h
  mem_permits p := iff_of_false List.not_mem_nil not_isActive_revoked
  numPermits x := by
    symm
    apply Finset.card_eq_zero.mpr
    apply Finset.eq_empty_of_forall_notMem
    intro i hi
    exact not_isActive_revoked (UdpSenderEntry.mem_activePermits.mp hi)
  ordered := List.Pairwise.nil
  past p hp := absurd hp List.not_mem_nil
  numbered x h := by
    rcases h with h | ⟨i, hi⟩
    · cases h
    · exact absurd hi not_isActive_revoked

namespace Holds

theorem send (h : Holds s requests permits) (x : σ) (m : PermitMessage) :
    Holds (s.send x m) requests permits where
  requests_represents := h.requests_represents
  permits_represents := h.permits_represents
  mem_requests := h.mem_requests
  mem_permits := h.mem_permits
  numPermits := h.numPermits
  ordered := h.ordered
  past := h.past
  numbered := h.numbered

theorem wait (h : Holds s requests permits) (elapsed : ℕ) :
    Holds { s with msTick := s.msTick + elapsed } requests permits where
  requests_represents := h.requests_represents
  permits_represents := h.permits_represents
  mem_requests := h.mem_requests
  mem_permits := h.mem_permits
  numPermits := h.numPermits
  ordered := h.ordered
  past p hp := (h.past p hp).trans (Nat.le_add_right _ _)
  numbered := h.numbered

end Holds

/-! ### What each operation does to the lists -/

variable [DecidableEq σ]

@[simp]
theorem senders_setSender_self (s : ReceiveFlow σ) (x : σ) (e : UdpSenderEntry) :
    (s.setSender x e).senders x = e := Function.update_self _ _ _

theorem senders_setSender_of_ne (s : ReceiveFlow σ) (e : UdpSenderEntry) (h : y ≠ x) :
    (s.setSender x e).senders y = s.senders y := Function.update_of_ne h _ _

theorem setSender_setSender (s : ReceiveFlow σ) (x : σ) (e e' : UdpSenderEntry) :
    (s.setSender x e).setSender x e' = s.setSender x e' := by
  unfold setSender
  rw [Function.update_idem]

theorem permit_setSender_of_ne (s : ReceiveFlow σ) (e : UdpSenderEntry)
    {p : σ × Fin maxPermitsPerSender} (h : p.1 ≠ x) : (s.setSender x e).permit p = s.permit p := by
  unfold permit
  rw [senders_setSender_of_ne s e h]

/-- The entry of a sender has the same permits, but for the packets that are reserved. -/
structure SamePermits (e e' : UdpSenderEntry) : Prop where
  isActive : ∀ i, (e'.permits i).isActive ↔ (e.permits i).isActive
  permitTime : ∀ i, (e'.permits i).permitTime = (e.permits i).permitTime
  numPermits : e'.numPermits = e.numPermits

theorem SamePermits.of_eq {e e' : UdpSenderEntry} (h : e'.permits = e.permits)
    (hnum : e'.numPermits = e.numPermits) : SamePermits e e' where
  isActive i := by rw [h]
  permitTime i := by rw [h]
  numPermits := hnum

theorem SamePermits.activePermits {e e' : UdpSenderEntry} (h : SamePermits e e') :
    e'.activePermits = e.activePermits := by
  ext i
  rw [UdpSenderEntry.mem_activePermits, UdpSenderEntry.mem_activePermits]
  exact h.isActive i

/-- The entry of a sender changes, and the list of requests to the senders `requests'`. -/
theorem Holds.setRequests (h : Holds s requests permits) {l : LinkedListOf σ} {requests' : List σ}
    (hl : l.Represents requests') (hsame : SamePermits (s.senders x) e)
    (hself : x ∈ requests' ↔ e.state = .requested)
    (hother : ∀ y, y ≠ x → (y ∈ requests' ↔ y ∈ requests))
    (hflow : e.state = .requested ∨ (∃ i, (e.permits i).isActive) → e.flowSeq ≠ 0) :
    Holds ({ s with pendingRequests := l }.setSender x e) requests' permits := by
  have hactive : ∀ p, (({ s with pendingRequests := l }.setSender x e).permit p).isActive ↔
      (s.permit p).isActive := by
    rintro ⟨y, i⟩
    by_cases hyx : y = x
    · unfold permit
      rw [hyx, senders_setSender_self]
      exact hsame.isActive i
    · rw [permit_setSender_of_ne _ _ hyx]
      rfl
  have htime : ∀ p, (({ s with pendingRequests := l }.setSender x e).permit p).permitTime =
      (s.permit p).permitTime := by
    rintro ⟨y, i⟩
    by_cases hyx : y = x
    · unfold permit
      rw [hyx, senders_setSender_self]
      exact hsame.permitTime i
    · rw [permit_setSender_of_ne _ _ hyx]
      rfl
  refine ⟨hl, h.permits_represents, ?_, ?_, ?_, ?_, ?_, ?_⟩
  · intro y
    by_cases hyx : y = x
    · rw [hyx, senders_setSender_self]
      exact hself
    · rw [senders_setSender_of_ne _ _ hyx, hother y hyx]
      exact h.mem_requests y
  · intro p
    rw [hactive]
    exact h.mem_permits p
  · intro y
    by_cases hyx : y = x
    · rw [hyx, senders_setSender_self, hsame.activePermits, hsame.numPermits]
      exact h.numPermits x
    · rw [senders_setSender_of_ne _ _ hyx]
      exact h.numPermits y
  · refine h.ordered.imp ?_
    intro p q hpq
    rw [htime, htime]
    exact hpq
  · intro p hp
    rw [htime]
    exact h.past p hp
  · intro y hy
    simp only [hactive] at hy
    by_cases hyx : y = x
    · rw [hyx, senders_setSender_self] at hy ⊢
      refine hflow (hy.imp_right ?_)
      rintro ⟨i, hi⟩
      exact ⟨i, (hsame.isActive i).mpr hi⟩
    · rw [senders_setSender_of_ne _ _ hyx] at hy ⊢
      exact h.numbered y hy

/-- The entry of a sender changes and the lists stay. -/
theorem Holds.setSender (h : Holds s requests permits) (hsame : SamePermits (s.senders x) e)
    (hstate : e.state = .requested ↔ (s.senders x).state = .requested)
    (hflow : e.flowSeq = (s.senders x).flowSeq ∨ e.flowSeq ≠ 0) :
    Holds (s.setSender x e) requests permits := by
  refine h.setRequests h.requests_represents hsame ?_ (fun y _ => Iff.rfl) ?_
  · rw [hstate]
    exact h.mem_requests x
  · intro hneed
    rcases hflow with hflow | hflow
    · rw [hflow]
      refine h.numbered x (hneed.imp hstate.mp ?_)
      rintro ⟨i, hi⟩
      exact ⟨i, (hsame.isActive i).mp hi⟩
    · exact hflow

theorem Holds.enqueue (h : Holds s requests permits) (hstate : (s.senders x).state ≠ .requested)
    (hsame : SamePermits (s.senders x) e) (he : e.state = .requested) (hflow : e.flowSeq ≠ 0) :
    ∃ l, s.pendingRequests.append x = some l ∧
      Holds ({ s with pendingRequests := l }.setSender x e) (requests ++ [x]) permits := by
  have hx : x ∉ requests := fun hmem => hstate ((h.mem_requests x).mp hmem)
  obtain ⟨l, hl, hrepresents⟩ := h.requests_represents.append_eq hx
  refine ⟨l, hl, h.setRequests hrepresents hsame ?_ ?_ (fun _ => hflow)⟩
  · exact iff_of_true (List.mem_append_right _ (List.mem_singleton_self x)) he
  · intro y hyx
    rw [List.mem_append, List.mem_singleton]
    exact or_iff_left hyx

theorem Holds.dequeue (h : Holds s requests permits) (hstate : (s.senders x).state = .requested)
    (hsame : SamePermits (s.senders x) e) (he : e.state ≠ .requested)
    (hflow : e.flowSeq = (s.senders x).flowSeq) :
    Holds ({ s with pendingRequests := s.pendingRequests.remove x }.setSender x e)
      (requests.filter fun y => y ≠ x) permits := by
  have hx : x ∈ requests := (h.mem_requests x).mpr hstate
  refine h.setRequests (h.requests_represents.remove_filter hx) hsame ?_ ?_ ?_
  · refine iff_of_false ?_ he
    intro hmem
    exact of_decide_eq_true (List.mem_filter.mp hmem).2 rfl
  · intro y hyx
    rw [List.mem_filter]
    exact and_iff_left (decide_eq_true hyx)
  · intro _
    rw [hflow]
    exact h.numbered x (Or.inl hstate)

/-! ### Permits that go and come -/

theorem permit_removePermit (s : ReceiveFlow σ) (p q : σ × Fin maxPermitsPerSender) :
    (s.removePermit p).permit q = if q = p then .revoked else s.permit q := by
  obtain ⟨x, i⟩ := p
  obtain ⟨y, j⟩ := q
  unfold removePermit
  by_cases hyx : y = x
  · unfold permit
    rw [hyx, senders_setSender_self]
    unfold UdpSenderEntry.revokePermit
    dsimp only
    by_cases hji : j = i
    · rw [hji, Function.update_self, if_pos rfl]
    · rw [Function.update_of_ne hji, if_neg (fun heq => hji (Prod.mk.inj heq).2)]
  · rw [permit_setSender_of_ne _ _ hyx, if_neg (fun heq => hyx (Prod.mk.inj heq).1)]
    rfl

theorem Holds.removePermit (h : Holds s requests permits) {p : σ × Fin maxPermitsPerSender}
    (hp : p ∈ permits) : Holds (s.removePermit p) requests (permits.filter fun q => q ≠ p) := by
  have hstate : ∀ y, ((s.removePermit p).senders y).state = (s.senders y).state ∧
      ((s.removePermit p).senders y).flowSeq = (s.senders y).flowSeq := by
    intro y
    unfold ReceiveFlow.removePermit
    by_cases hyx : y = p.1
    · rw [hyx, senders_setSender_self]
      exact ⟨rfl, rfl⟩
    · rw [senders_setSender_of_ne _ _ hyx]
      exact ⟨rfl, rfl⟩
  have hother : ∀ q ∈ permits.filter fun q => q ≠ p, (s.removePermit p).permit q = s.permit q := by
    intro q hq
    rw [permit_removePermit, if_neg (of_decide_eq_true (List.mem_filter.mp hq).2)]
  refine ⟨h.requests_represents, h.permits_represents.remove_filter hp, ?_, ?_, ?_, ?_, ?_, ?_⟩
  · intro y
    rw [(hstate y).1]
    exact h.mem_requests y
  · intro q
    rw [List.mem_filter, permit_removePermit, decide_eq_true_iff]
    by_cases hqp : q = p
    · rw [if_pos hqp]
      exact iff_of_false (fun hmem => hmem.2 hqp) not_isActive_revoked
    · rw [if_neg hqp, ← h.mem_permits]
      exact and_iff_left hqp
  · intro y
    by_cases hyx : y = p.1
    · have hactive : p.2 ∈ (s.senders p.1).activePermits :=
        UdpSenderEntry.mem_activePermits.mpr ((h.mem_permits p).mp hp)
      unfold ReceiveFlow.removePermit
      rw [hyx, senders_setSender_self,
        UdpSenderEntry.activePermits_update (s.senders p.1) p.2 .revoked _ rfl,
        if_neg not_isActive_revoked, Finset.card_erase_of_mem hactive, ← h.numPermits]
      rfl
    · unfold ReceiveFlow.removePermit
      rw [senders_setSender_of_ne _ _ hyx]
      exact h.numPermits y
  · refine (h.ordered.sublist List.filter_sublist).imp_of_mem ?_
    intro q r hq hr hle
    rw [hother q hq, hother r hr]
    exact hle
  · intro q hq
    rw [hother q hq]
    exact h.past q (List.mem_of_mem_filter hq)
  · intro y hy
    rw [(hstate y).1] at hy
    rw [(hstate y).2]
    refine h.numbered y (hy.imp_right ?_)
    rintro ⟨i, hi⟩
    rw [permit_removePermit] at hi
    split_ifs at hi
    · exact absurd hi not_isActive_revoked
    · exact ⟨i, hi⟩

/-- What the grant of a permit does: one that was not active becomes the permit for the latest
request of the sender. -/
structure Granted (s : ReceiveFlow σ) (x : σ) (slots : ℕ) (i : Fin maxPermitsPerSender)
    (s' : ReceiveFlow σ) : Prop where
  unused : ¬(s.permit (x, i)).isActive
  permit : ∀ q, s'.permit q = if q = (x, i) then
    ⟨(s.senders x).flowSeq, slots, (s.senders x).sendSeq, s.msTick⟩ else s.permit q
  flowSeq : ∀ y, (s'.senders y).flowSeq = (s.senders y).flowSeq
  state : ∀ y, (s'.senders y).state = if y = x then .granted else (s.senders y).state
  numPermits : ∀ y, (s'.senders y).numPermits =
    if y = x then (s.senders y).numPermits + 1 else (s.senders y).numPermits
  msTick : s'.msTick = s.msTick
  pendingRequests : s'.pendingRequests = s.pendingRequests.remove x
  sent : s'.sent = s.sent ++ [(x, .ok_to_send (s.senders x).flowSeq slots)]

theorem Granted.activePermits {slots : ℕ} {i : Fin maxPermitsPerSender}
    (g : Granted s x slots i s') (hflow : (s.senders x).flowSeq ≠ 0) (y : σ) :
    (s'.senders y).activePermits = if y = x then insert i (s.senders y).activePermits
      else (s.senders y).activePermits := by
  ext j
  have hpermit := g.permit (y, j)
  unfold ReceiveFlow.permit at hpermit
  rw [UdpSenderEntry.mem_activePermits, hpermit]
  by_cases hyx : y = x
  · rw [hyx, if_pos rfl, Finset.mem_insert, UdpSenderEntry.mem_activePermits]
    by_cases hji : j = i
    · rw [hji, if_pos rfl]
      exact iff_of_true hflow (Or.inl rfl)
    · rw [if_neg (fun heq => hji (Prod.mk.inj heq).2)]
      exact (or_iff_right hji).symm
  · rw [if_neg (fun heq => hyx (Prod.mk.inj heq).1), if_neg hyx]
    exact UdpSenderEntry.mem_activePermits.symm

theorem Granted.holds {slots : ℕ} {i : Fin maxPermitsPerSender} (g : Granted s x slots i s')
    (h : Holds s requests permits) (hstate : (s.senders x).state = .requested)
    (hpermits : s'.pendingPermits.Represents (permits ++ [(x, i)])) :
    Holds s' (requests.filter fun y => y ≠ x) (permits ++ [(x, i)]) := by
  have hflow : (s.senders x).flowSeq ≠ 0 := h.numbered x (Or.inl hstate)
  have hold : ∀ q ∈ permits, s'.permit q = s.permit q := by
    intro q hq
    rw [g.permit, if_neg]
    intro heq
    exact g.unused (heq ▸ (h.mem_permits q).mp hq)
  have hnew : s'.permit (x, i) =
      ⟨(s.senders x).flowSeq, slots, (s.senders x).sendSeq, s.msTick⟩ := by
    rw [g.permit, if_pos rfl]
  refine ⟨?_, hpermits, ?_, ?_, ?_, ?_, ?_, ?_⟩
  · rw [g.pendingRequests]
    exact h.requests_represents.remove_filter ((h.mem_requests x).mpr hstate)
  · intro y
    rw [List.mem_filter, g.state, decide_eq_true_iff]
    by_cases hyx : y = x
    · rw [if_pos hyx]
      refine iff_of_false (fun hmem => hmem.2 hyx) ?_
      intro hcontra
      cases hcontra
    · rw [if_neg hyx, h.mem_requests]
      exact and_iff_left hyx
  · intro q
    rw [List.mem_append, List.mem_singleton, g.permit]
    by_cases hq : q = (x, i)
    · rw [if_pos hq]
      exact iff_of_true (Or.inr hq) hflow
    · rw [if_neg hq, h.mem_permits]
      exact or_iff_left hq
  · intro y
    rw [g.numPermits, g.activePermits hflow, h.numPermits]
    split_ifs with hyx
    · rw [Finset.card_insert_of_notMem]
      intro hmem
      rw [hyx] at hmem
      exact g.unused (UdpSenderEntry.mem_activePermits.mp hmem)
    · rfl
  · rw [List.pairwise_append]
    refine ⟨h.ordered.imp_of_mem ?_, List.pairwise_singleton _ _, ?_⟩
    · intro q r hq hr hle
      rw [hold q hq, hold r hr]
      exact hle
    · -- the new permit has the time of now
      intro q hq r hr
      rw [List.mem_singleton.mp hr, hold q hq, hnew]
      exact h.past q hq
  · intro q hq
    rw [g.msTick]
    rcases List.mem_append.mp hq with hq | hq
    · rw [hold q hq]
      exact h.past q hq
    · rw [List.mem_singleton.mp hq, hnew]
  · intro y hy
    rw [g.flowSeq]
    by_cases hyx : y = x
    · rw [hyx]
      exact hflow
    · apply h.numbered y
      rw [g.state, if_neg hyx] at hy
      refine hy.imp_right ?_
      rintro ⟨j, hj⟩
      rw [g.permit, if_neg (fun heq => hyx (Prod.mk.inj heq).1)] at hj
      exact ⟨j, hj⟩

theorem Holds.grantPermit (h : Holds s requests permits) (slots : ℕ)
    (hstate : (s.senders x).state = .requested) (hunused : (s.senders x).hasUnusedPermit) :
    ∃ s' i, s.grantPermit x slots = some s' ∧ Granted s x slots i s' ∧
      Holds s' (requests.filter fun y => y ≠ x) (permits ++ [(x, i)]) := by
  obtain ⟨i, hi, hallocate⟩ :=
    (s.senders x).allocatePermit_eq s.msTick slots (h.numPermits x) hunused
  have hflow : (s.senders x).flowSeq ≠ 0 := h.numbered x (Or.inl hstate)
  have hfresh : (x, i) ∉ permits := fun hmem => hi ((h.mem_permits (x, i)).mp hmem)
  obtain ⟨l, hl, hrepresents⟩ := h.permits_represents.append_eq hfresh
  unfold ReceiveFlow.grantPermit
  rw [hallocate]
  dsimp only
  rw [hl, Option.map_some]
  refine ⟨_, i, rfl, ?granted, Granted.holds ?granted h hstate hrepresents⟩
  refine ⟨hi, ?_, ?_, ?_, ?_, rfl, rfl, ?_⟩
  · rintro ⟨y, j⟩
    rw [permit_sendPermitToSend]
    by_cases hyx : y = x
    · unfold ReceiveFlow.permit
      dsimp only
      rw [hyx, senders_setSender_self]
      dsimp only
      by_cases hji : j = i
      · rw [hji, Function.update_self, if_pos rfl]
      · rw [Function.update_of_ne hji, if_neg (fun heq => hji (Prod.mk.inj heq).2)]
    · rw [permit_setSender_of_ne _ _ hyx, if_neg (fun heq => hyx (Prod.mk.inj heq).1)]
      rfl
  · intro y
    rw [senders_sendPermitToSend]
    by_cases hyx : y = x
    · rw [hyx, senders_setSender_self]
    · rw [senders_setSender_of_ne _ _ hyx]
  · intro y
    rw [senders_sendPermitToSend]
    by_cases hyx : y = x
    · rw [hyx, senders_setSender_self, if_pos rfl]
    · rw [senders_setSender_of_ne _ _ hyx, if_neg hyx]
  · intro y
    rw [senders_sendPermitToSend]
    by_cases hyx : y = x
    · rw [hyx, senders_setSender_self, if_pos rfl]
    · rw [senders_setSender_of_ne _ _ hyx, if_neg hyx]
  · unfold sendPermitToSend
    rw [senders_setSender_self]
    rfl

end ReceiveFlow

end Udp
