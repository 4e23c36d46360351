import HpccPlatform.Udp.PendingRequests

/-!
# What a check permits

The slots that one call of `checkPendingRequests` permits fit the places of the queue that no other
permit has reserved.  What is reserved is added up in 32 bits: the sum may wrap when there are very
many permits for which more packets were announced than were granted.
-/

namespace Udp

open DoublyLinked

namespace ReceiveFlow

variable {σ : Type*} {s s' t : ReceiveFlow σ} {requests : List σ}
  {permits : List (σ × Fin maxPermitsPerSender)} {limits : FlowLimits} {env : Surroundings σ}

/-- What is permitted fits what is not reserved, each permit is for at most so many slots as a
sender may have, no difference wraps, and there are not too many permits. -/
structure WithinQueue (limits : FlowLimits) (env : Surroundings σ) (s t s' : ReceiveFlow σ) :
    Prop where
  total : slotsSince t s' ≤ env.available - t.reserved
  each : ∀ m ∈ sentSince t s', m.2.slots ≤ limits.maxSlotsPerSender
  noWrap : sentSince t s' ≠ [] → t.reserved % 2 ^ 32 ≤ env.available ∧
    t.reserved % 2 ^ 32 ≤ limits.maxPermits ∧
    requestSlots limits env (t.reserved % 2 ^ 32) ≤ env.available - t.reserved % 2 ^ 32
  numEntries : s'.pendingPermits.numEntries ≤
    max limits.udpMaxPendingPermits s.pendingPermits.numEntries

/-- The sum of what is reserved does not wrap, or no slot is granted. -/
def SumFits (limits : FlowLimits) (env : Surroundings σ) (t : ReceiveFlow σ) : Prop :=
  t.reserved < 2 ^ 32 ∨ limits.maxSlotsPerSender = 0 ∨
    NothingGranted limits env (t.reserved % 2 ^ 32) t t.pendingRequests.members

theorem queueAvailable_le (limit num : ℕ) : queueAvailable limit num ≤ limit := by
  unfold queueAvailable
  split_ifs
  · exact Nat.sub_le limit num
  · exact Nat.zero_le limit

theorem withinQueue_self (hle : t.pendingPermits.numEntries ≤ s.pendingPermits.numEntries) :
    WithinQueue limits env s t t where
  total := by
    unfold slotsSince
    rw [sentSince_self]
    exact Nat.zero_le _
  each := by
    intro m hm
    rw [sentSince_self] at hm
    cases hm
  noWrap := by
    intro hne
    exact absurd (sentSince_self t) hne
  numEntries := hle.trans (le_max_right ..)

/-- The slots of the permit that is granted. -/
theorem requestSlots_eq {permitsIssued : ℕ} (hissued : permitsIssued < env.available)
    (havailable : env.available ≤ limits.maxPermits) (hlimit : limits.maxPermits < 2 ^ 32) :
    requestSlots limits env permitsIssued =
      min (env.available - permitsIssued) limits.maxSlotsPerSender := by
  have hdiff : unsignedSub limits.maxPermits permitsIssued = limits.maxPermits - permitsIssued := by
    unfold unsignedSub
    omega
  unfold requestSlots
  rw [hdiff, min_assoc, min_comm limits.maxSlotsPerSender, ← min_assoc,
    min_eq_left (Nat.sub_le_sub_right havailable permitsIssued)]

theorem FirstGranted.withinQueue_iff {front behind : List σ} {x : σ}
    (g : FirstGranted limits env (t.reserved % 2 ^ 32) t front x behind s')
    (h : Holds t (front ++ x :: behind) permits) (hmin : 1 ≤ limits.udpMinSlotsPerSender)
    (havailable : env.available ≤ limits.maxPermits) (hlimit : limits.maxPermits < 2 ^ 32) :
    WithinQueue limits env s t s' ↔ SumFits limits env t := by
  have hslots : slotsSince t s' = requestSlots limits env (t.reserved % 2 ^ 32) := by
    unfold slotsSince
    rw [g.sent]
    exact List.sum_singleton
  have hfree : 1 ≤ env.available - t.reserved % 2 ^ 32 := hmin.trans g.slots
  have hissued : t.reserved % 2 ^ 32 < env.available := Nat.lt_of_sub_pos hfree
  have hrequest : requestSlots limits env (t.reserved % 2 ^ 32) = _ :=
    requestSlots_eq hissued havailable hlimit
  have hgranted : ¬NothingGranted limits env (t.reserved % 2 ^ 32) t t.pendingRequests.members := by
    rintro (hfull | hfew | hnone)
    · exact absurd g.room (not_lt.mpr hfull)
    · exact absurd g.slots (not_le.mpr hfew)
    · have hx := hnone x (by
        rw [h.requests_represents.members_eq]
        exact List.mem_append_right front List.mem_cons_self)
      rw [g.first] at hx
      cases hx
  -- all but the sum holds in any case
  have hrest : slotsSince t s' ≤ env.available - t.reserved → WithinQueue limits env s t s' := by
    intro htotal
    refine ⟨htotal, ?_, fun _ => ⟨hissued.le, hissued.le.trans havailable, ?_⟩, ?_⟩
    · intro m hm
      rw [g.sent] at hm
      rw [List.mem_singleton.mp hm]
      change requestSlots limits env (t.reserved % 2 ^ 32) ≤ _
      rw [hrequest]
      exact min_le_right ..
    · rw [hrequest]
      exact min_le_left ..
    · rw [g.numEntries]
      exact (Nat.succ_le_of_lt g.room).trans (le_max_left ..)
  unfold SumFits
  constructor
  · intro hwithin
    by_contra hcon
    rw [not_or, not_or] at hcon
    obtain ⟨hwraps, hnonzero, -⟩ := hcon
    have htotal := hwithin.total
    have hnone : env.available - t.reserved = 0 :=
      Nat.sub_eq_zero_of_le ((havailable.trans_lt hlimit).le.trans (not_lt.mp hwraps))
    rw [hslots, hrequest, hnone, Nat.le_zero, Nat.min_eq_zero_iff] at htotal
    rcases htotal with hzero | hzero
    · rw [hzero] at hfree
      exact absurd hfree (by decide)
    · exact hnonzero hzero
  · rintro (hsum | hzero | hnothing)
    · refine hrest ?_
      rw [hslots, hrequest, Nat.mod_eq_of_lt hsum]
      exact min_le_left ..
    · refine hrest ?_
      rw [hslots, hrequest, hzero, Nat.min_zero]
      exact Nat.zero_le _
    · exact absurd hnothing hgranted

variable [DecidableEq σ]

end ReceiveFlow

/-! ### A sum that wraps -/

/-- So many senders that have announced as many packets as a message can say, for each of four
permits. -/
def busySenders : ℕ := 16385

def busySender : UdpSenderEntry :=
  ⟨.granted, 4, 0, 0, 0, 0, 4, fun i => ⟨i + 1, 65535, 0, 0⟩⟩

def askingSender : UdpSenderEntry := { UdpSenderEntry.new with state := .requested, flowSeq := 1 }

def busyPermits : List (ℕ × Fin maxPermitsPerSender) :=
  List.range busySenders ×ˢ List.finRange maxPermitsPerSender

/-- One more sender has asked. -/
def busyReceiver (pendingRequests : LinkedListOf ℕ)
    (pendingPermits : LinkedListOf (ℕ × Fin maxPermitsPerSender)) : ReceiveFlow ℕ where
  senders x := if x < busySenders then busySender else if x = busySenders then askingSender else .new
  pendingRequests := pendingRequests
  pendingPermits := pendingPermits
  msTick := 0
  sent := []

theorem mem_busyPermits {p : ℕ × Fin maxPermitsPerSender} :
    p ∈ busyPermits ↔ p.1 < busySenders := by
  obtain ⟨x, i⟩ := p
  unfold busyPermits
  rw [List.mem_product, List.mem_range]
  exact and_iff_left (List.mem_finRange i)

section Busy

variable {pendingRequests : LinkedListOf ℕ}
  {pendingPermits : LinkedListOf (ℕ × Fin maxPermitsPerSender)}

theorem permit_busyReceiver (p : ℕ × Fin maxPermitsPerSender) :
    (busyReceiver pendingRequests pendingPermits).permit p =
      if p.1 < busySenders then ⟨p.2 + 1, 65535, 0, 0⟩ else .revoked := by
  unfold ReceiveFlow.permit busyReceiver
  dsimp only
  split_ifs <;> rfl

theorem holds_busyReceiver (hrequests : pendingRequests.Represents [busySenders])
    (hpermits : pendingPermits.Represents busyPermits) :
    (busyReceiver pendingRequests pendingPermits).Holds [busySenders] busyPermits where
  requests_represents := hrequests
  permits_represents := hpermits
  mem_requests x := by
    rw [List.mem_singleton]
    unfold busyReceiver
    dsimp only
    split_ifs with hbusy hasking
    · refine iff_of_false (Nat.ne_of_lt hbusy) ?_
      intro hcontra
      cases hcontra
    · exact iff_of_true hasking rfl
    · refine iff_of_false hasking ?_
      intro hcontra
      cases hcontra
  mem_permits p := by
    rw [mem_busyPermits, permit_busyReceiver]
    split_ifs with hbusy
    · exact iff_of_true hbusy (Nat.succ_ne_zero _)
    · exact iff_of_false hbusy not_isActive_revoked
  numPermits x := by
    unfold busyReceiver
    dsimp only
    split_ifs
    · rfl
    · rfl
    · rfl
  ordered := by
    refine List.Pairwise.imp_of_mem ?_ (List.pairwise_of_forall (fun _ _ => trivial) :
      busyPermits.Pairwise fun _ _ => True)
    intro p q hp hq _
    rw [permit_busyReceiver, permit_busyReceiver, if_pos (mem_busyPermits.mp hp),
      if_pos (mem_busyPermits.mp hq)]
  past p hp := by
    rw [permit_busyReceiver, if_pos (mem_busyPermits.mp hp)]
    exact le_refl 0
  numbered x hx := by
    have hflow : x < busySenders ∨ x = busySenders →
        ((busyReceiver pendingRequests pendingPermits).senders x).flowSeq ≠ 0 := by
      unfold busyReceiver
      rintro (hbusy | hasking)
      · dsimp only
        rw [if_pos hbusy]
        decide
      · dsimp only
        rw [if_neg (hasking ▸ Nat.lt_irrefl _), if_pos hasking]
        decide
    refine hflow ?_
    rcases hx with hx | ⟨i, hi⟩
    · right
      by_contra hasking
      unfold busyReceiver at hx
      dsimp only at hx
      rw [if_neg hasking] at hx
      split_ifs at hx
      · cases hx
      · cases hx
    · left
      rw [permit_busyReceiver] at hi
      by_contra hbusy
      rw [if_neg hbusy] at hi
      exact not_isActive_revoked hi

theorem reserved_busyReceiver (hrequests : pendingRequests.Represents [busySenders])
    (hpermits : pendingPermits.Represents busyPermits) :
    (busyReceiver pendingRequests pendingPermits).reserved = 16385 * 4 * 65535 := by
  have hconst : busyPermits.map (fun p =>
      ((busyReceiver pendingRequests pendingPermits).permit p).getNumReserved) =
      busyPermits.map fun _ => 65535 := by
    refine List.map_congr_left fun p hp => ?_
    rw [permit_busyReceiver, if_pos (mem_busyPermits.mp hp)]
    rfl
  rw [(holds_busyReceiver hrequests hpermits).reserved_eq, hconst, List.map_const',
    List.sum_replicate, busyPermits, List.length_product, List.length_range, List.length_finRange]
  rfl

end Busy

/-- A queue of 200000 places, and permits for at most 17 packets. -/
def manyPermits : FlowLimits := ⟨17, 200000, 100, 100, 70000, 1, 500, 0⟩

def emptyQueue : ReceiveFlow.Surroundings ℕ :=
  ⟨0, fun _ => 0, queueAvailable 200000 0, fun _ => true⟩

end Udp
