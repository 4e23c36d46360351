import HpccPlatform.Udp.FlowRun

/-!
# Which requests a check serves

One call of `checkPendingRequests`: the permits that have expired are taken away, the slots of the
others are counted, and then requests are granted.  A sender that is granted a permit is taken from
the list of requests and has no next one any more, so that the loop over the list ends there.
-/

namespace Udp

open DoublyLinked

/-- What a message permits. -/
def PermitMessage.slots : PermitMessage → ℕ
  | .ok_to_send _ maxData => maxData
  | .request_received _ => 0

/-- `queue_t::available` -/
def queueAvailable (limit num : ℕ) : ℕ := if num < limit then limit - num else 0

namespace ReceiveFlow

variable {σ : Type*}

/-- Can the sender be given a permit? -/
def grantable (env : Surroundings σ) (s : ReceiveFlow σ) (x : σ) : Bool :=
  env.canSendAny x && decide (s.senders x).hasUnusedPermit

/-- The slots of the first permit that is granted. -/
def requestSlots (limits : FlowLimits) (env : Surroundings σ) (permitsIssued : ℕ) : ℕ :=
  min (min (env.available - permitsIssued) limits.maxSlotsPerSender)
    (unsignedSub limits.maxPermits permitsIssued)

/-- All that is reserved by permits. -/
def reserved (s : ReceiveFlow σ) : ℕ :=
  (s.pendingPermits.members.map fun p => (s.permit p).getNumReserved).sum

/-- The messages that were sent since `t`. -/
def sentSince (t s : ReceiveFlow σ) : List (σ × PermitMessage) := s.sent.drop t.sent.length

def slotsSince (t s : ReceiveFlow σ) : ℕ := ((sentSince t s).map fun m => m.2.slots).sum

variable {s t : ReceiveFlow σ} {requests : List σ}
  {permits : List (σ × Fin maxPermitsPerSender)} {limits : FlowLimits} {env : Surroundings σ}
  {permitsIssued : ℕ}

/-- No request is granted: there are enough permits or too few slots, or there is no sender that
can be given a permit. -/
def NothingGranted (limits : FlowLimits) (env : Surroundings σ) (permitsIssued : ℕ)
    (t : ReceiveFlow σ) (requests : List σ) : Prop :=
  limits.udpMaxPendingPermits ≤ t.pendingPermits.numEntries ∨
    env.available - permitsIssued < limits.udpMinSlotsPerSender ∨
    ∀ y ∈ requests, grantable env t y = false

/-- The first request that can be granted is granted, and nothing else changes. -/
structure FirstGranted (limits : FlowLimits) (env : Surroundings σ) (permitsIssued : ℕ)
    (t : ReceiveFlow σ) (front : List σ) (x : σ) (behind : List σ) (s : ReceiveFlow σ) :
    Prop where
  skipped : ∀ y ∈ front, grantable env t y = false
  first : grantable env t x = true
  room : t.pendingPermits.numEntries < limits.udpMaxPendingPermits
  slots : limits.udpMinSlotsPerSender ≤ env.available - permitsIssued
  requests : s.pendingRequests.members = front ++ behind
  numEntries : s.pendingPermits.numEntries = t.pendingPermits.numEntries + 1
  numPermits : ∀ y, y ≠ x → (s.senders y).numPermits = (t.senders y).numPermits
  sent : sentSince t s =
    [(x, .ok_to_send (t.senders x).flowSeq (requestSlots limits env permitsIssued))]

/-! ### Requests that are left -/

/-- Every sender that is left on the list of requests has a reason to be there, and the others were
served in the order of the list. -/
structure ServesAll (limits : FlowLimits) (env : Surroundings σ) (permitsIssued : ℕ)
    (t s : ReceiveFlow σ) : Prop where
  left : ∀ y ∈ s.pendingRequests.members,
    limits.udpMaxPendingPermits ≤ s.pendingPermits.numEntries ∨
    env.available - permitsIssued - slotsSince t s < limits.udpMinSlotsPerSender ∨
    ¬(s.senders y).hasUnusedPermit ∨ env.canSendAny y = false
  inOrder : ((sentSince t s).map Prod.fst).Sublist t.pendingRequests.members

/-- There is no second request to grant: one more permit is the last, or takes all slots but a few,
or there is at most one sender that can be given a permit. -/
def OneToServe (limits : FlowLimits) (env : Surroundings σ) (permitsIssued : ℕ)
    (t : ReceiveFlow σ) : Prop :=
  limits.udpMaxPendingPermits ≤ t.pendingPermits.numEntries + 1 ∨
    env.available - permitsIssued - requestSlots limits env permitsIssued <
      limits.udpMinSlotsPerSender ∨
    (t.pendingRequests.members.filter (grantable env t)).length ≤ 1

theorem sentSince_self (t : ReceiveFlow σ) : sentSince t t = [] := List.drop_length

theorem servesAll_of_nothing (hnothing : NothingGranted limits env permitsIssued t requests)
    (h : Holds t requests permits) : ServesAll limits env permitsIssued t t where
  left := by
    intro y hy
    rw [h.requests_represents.members_eq] at hy
    unfold slotsSince
    rw [sentSince_self, List.map_nil, List.sum_nil, Nat.sub_zero]
    rcases hnothing with hfull | hslots | hnone
    · exact Or.inl hfull
    · exact Or.inr (Or.inl hslots)
    · rcases Bool.and_eq_false_iff.mp (hnone y hy) with hcannot | hused
      · exact Or.inr (Or.inr (Or.inr hcannot))
      · exact Or.inr (Or.inr (Or.inl (of_decide_eq_false hused)))
  inOrder := by
    rw [sentSince_self]
    exact List.nil_sublist _

theorem oneToServe_of_nothing (hnothing : NothingGranted limits env permitsIssued t requests)
    (h : Holds t requests permits) : OneToServe limits env permitsIssued t := by
  rcases hnothing with hfull | hslots | hnone
  · exact Or.inl (Nat.le_succ_of_le hfull)
  · exact Or.inr (Or.inl ((Nat.sub_le _ _).trans_lt hslots))
  · refine Or.inr (Or.inr ?_)
    rw [h.requests_represents.members_eq, List.filter_eq_nil_iff.mpr]
    · exact Nat.zero_le 1
    · intro y hy
      rw [hnone y hy]
      exact Bool.false_ne_true

/-- What is left is left for a reason when nobody behind the sender that was served could have been
served as well. -/
theorem FirstGranted.servesAll_iff {front behind : List σ} {x : σ}
    (g : FirstGranted limits env permitsIssued t front x behind s)
    (h : Holds t (front ++ x :: behind) permits) :
    ServesAll limits env permitsIssued t s ↔ OneToServe limits env permitsIssued t := by
  have hslots : slotsSince t s = requestSlots limits env permitsIssued := by
    unfold slotsSince
    rw [g.sent]
    exact List.sum_singleton
  have hmembers := h.requests_represents.members_eq
  have hnodup := h.requests_represents.nodup
  -- the others can be given a permit as before
  have hother : ∀ y ∈ front ++ behind, ((¬(s.senders y).hasUnusedPermit ∨
      env.canSendAny y = false) ↔ grantable env t y = false) := by
    intro y hy
    have hyx : y ≠ x := by
      rintro rfl
      have hmoved := (@List.perm_middle _ y front behind).nodup_iff.mp hnodup
      exact (List.nodup_cons.mp hmoved).1 hy
    have hsame : (s.senders y).hasUnusedPermit ↔ (t.senders y).hasUnusedPermit := by
      unfold UdpSenderEntry.hasUnusedPermit
      rw [g.numPermits y hyx]
    unfold grantable
    rw [hsame, Bool.and_eq_false_iff, decide_eq_false_iff_not, or_comm]
  have hfilter : (t.pendingRequests.members.filter (grantable env t)).length =
      (behind.filter (grantable env t)).length + 1 := by
    rw [hmembers, List.filter_append, List.filter_cons_of_pos g.first, List.filter_eq_nil_iff.mpr]
    · rfl
    · intro y hy
      rw [g.skipped y hy]
      exact Bool.false_ne_true
  unfold OneToServe
  rw [hfilter]
  constructor
  · intro hserves
    by_contra hcon
    rw [not_or, not_or] at hcon
    obtain ⟨hroom, hleft, hmore⟩ := hcon
    have hne : behind.filter (grantable env t) ≠ [] := by
      intro hnil
      rw [hnil] at hmore
      exact hmore (le_refl 1)
    obtain ⟨y, hy⟩ := List.exists_mem_of_ne_nil _ hne
    obtain ⟨hybehind, hygrant⟩ := List.mem_filter.mp hy
    have hyrest : y ∈ front ++ behind := List.mem_append_right front hybehind
    have hreason := hserves.left y (by rw [g.requests]; exact hyrest)
    rw [g.numEntries, hslots, hother y hyrest, hygrant] at hreason
    rcases hreason with hfull | hfew | hno
    · exact hroom hfull
    · exact hleft hfew
    · cases hno
  · intro hone
    refine ⟨fun y hy => ?_, ?_⟩
    · rw [g.requests] at hy
      rw [g.numEntries, hslots, hother y hy]
      rcases hone with hfull | hfew | hfilter
      · exact Or.inl hfull
      · exact Or.inr (Or.inl hfew)
      · refine Or.inr (Or.inr ?_)
        rcases List.mem_append.mp hy with hy | hy
        · exact g.skipped y hy
        · have hnil := List.eq_nil_of_length_eq_zero (Nat.le_zero.mp (Nat.le_of_succ_le_succ hfilter))
          exact Bool.eq_false_iff.mpr (List.filter_eq_nil_iff.mp hnil y hy)
    · rw [g.sent, hmembers]
      exact List.singleton_sublist.mpr (List.mem_append_right front List.mem_cons_self)

/-! ### One call -/

theorem Holds.sumReserved_eq (h : Holds t requests permits)
    (before : List (σ × Fin maxPermitsPerSender)) {rest} (fuel k : ℕ)
    (hsplit : permits = before ++ rest) (hfuel : rest.length ≤ fuel) :
    ReceiveFlow.sumReserved t fuel (k % 2 ^ 32) rest.head? =
      some ((k + (rest.map fun p => (t.permit p).getNumReserved).sum) % 2 ^ 32) := by
  induction rest generalizing before fuel k with
  | nil => cases fuel <;> rfl
  | cons p rest ih =>
    obtain ⟨fuel, rfl⟩ : ∃ n, fuel = n + 1 :=
      ⟨fuel - 1, (Nat.sub_add_cancel (le_trans (Nat.succ_pos _) hfuel)).symm⟩
    rw [List.head?_cons]
    unfold ReceiveFlow.sumReserved
    rw [(h.permits_represents.links before p rest hsplit).2, Nat.mod_add_mod,
      ih (before ++ [p]) fuel _ (by rw [hsplit, List.append_assoc]; rfl)
        (Nat.le_of_succ_le_succ hfuel), List.map_cons, List.sum_cons, Nat.add_assoc]
    rfl

theorem Holds.reserved_eq (h : Holds t requests permits) :
    t.reserved = (permits.map fun p => (t.permit p).getNumReserved).sum := by
  unfold reserved
  rw [h.permits_represents.members_eq]

variable [DecidableEq σ]

/-- The first part of `checkPendingRequests`, before it comes to the requests: what is left when
the expired permits are gone, and `permitsIssued`. -/
def countIssued (limits : FlowLimits) (env : Surroundings σ) (s : ReceiveFlow σ) :
    Option (ReceiveFlow σ × ℕ) :=
  let s := { s with msTick := s.msTick + env.elapsed }
  match expirePermits limits s.msTick s.pendingPermits.numEntries s 5000 s.pendingPermits.head with
  | none => none
  | some (s, finger, _) => (s.sumReserved s.pendingPermits.numEntries 0 finger).map fun n => (s, n)

theorem Holds.firstGranted (h : Holds t requests permits) {before behind : List σ} {x : σ}
    (hsplit : requests = before ++ x :: behind)
    (hbefore : ∀ y ∈ before, grantable env t y = false) (hfirst : grantable env t x = true)
    (hroom : t.pendingPermits.numEntries < limits.udpMaxPendingPermits)
    (hslots : limits.udpMinSlotsPerSender ≤ env.available - permitsIssued) :
    ∃ s, { t with msTick := t.msTick + env.grantDelay x }.grantPermit x
        (requestSlots limits env permitsIssued) = some s ∧
      s.pendingRequests.next x = none ∧
      FirstGranted limits env permitsIssued t before x behind s := by
  have hstate : (t.senders x).state = .requested := by
    rw [← h.mem_requests, hsplit]
    exact List.mem_append_right _ List.mem_cons_self
  have hunused : (t.senders x).hasUnusedPermit :=
    of_decide_eq_true (Bool.and_eq_true_iff.mp hfirst).2
  obtain ⟨s, i, hresult, hgranted, hholds⟩ := (h.wait (env.grantDelay x)).grantPermit
    (requestSlots limits env permitsIssued) hstate hunused
  have hrest : requests.filter (fun y => y ≠ x) = before ++ behind := by
    have hnodup := h.requests_represents.nodup
    rw [hsplit, List.nodup_append] at hnodup
    obtain ⟨-, hcons, hdisjoint⟩ := hnodup
    rw [hsplit, List.filter_append, List.filter_cons_of_neg (by simp), List.filter_eq_self.mpr,
      List.filter_eq_self.mpr]
    · intro y hy
      exact decide_eq_true fun heq => (List.nodup_cons.mp hcons).1 (heq ▸ hy)
    · intro y hy
      exact decide_eq_true fun heq => hdisjoint y hy x List.mem_cons_self heq
  refine ⟨s, hresult, ?_, hbefore, hfirst, hroom, hslots, ?_, ?_, ?_, ?_⟩
  · refine (hholds.requests_represents.outside x ?_).2
    intro hmem
    exact of_decide_eq_true (List.mem_filter.mp hmem).2 rfl
  · rw [hholds.requests_represents.members_eq, hrest]
  · rw [hholds.permits_represents.numEntries, h.permits_represents.numEntries, List.length_append]
    rfl
  · intro y hyx
    rw [hgranted.numPermits, if_neg hyx]
  · unfold sentSince
    rw [hgranted.sent]
    exact List.drop_left

/-- The loop over the requests from `rest` on, when none of those before could be granted. -/
theorem Holds.grantPermits_cases (h : Holds t requests permits) (limits : FlowLimits)
    (env : Surroundings σ) (permitsIssued : ℕ) (before : List σ) {rest : List σ}
    (hsplit : requests = before ++ rest) (hbefore : ∀ y ∈ before, grantable env t y = false)
    (fuel timeout : ℕ) (anyCanSend anyCannotSend : Bool) (hfuel : rest.length ≤ fuel) :
    ∃ s result, ReceiveFlow.grantPermits limits env permitsIssued fuel t
        (env.available - permitsIssued) timeout anyCanSend anyCannotSend rest.head?
          = some (s, result) ∧
      (s = t ∧ NothingGranted limits env permitsIssued t requests ∨
        ∃ front x behind, requests = front ++ x :: behind ∧
          FirstGranted limits env permitsIssued t front x behind s) := by
  induction rest generalizing before fuel timeout anyCanSend anyCannotSend with
  | nil =>
    refine ⟨t, (timeout, anyCanSend, anyCannotSend), by cases fuel <;> rfl,
      Or.inl ⟨rfl, Or.inr (Or.inr ?_)⟩⟩
    rwa [hsplit, List.append_nil]
  | cons x rest ih =>
    obtain ⟨fuel, rfl⟩ : ∃ n, fuel = n + 1 :=
      ⟨fuel - 1, (Nat.sub_add_cancel (le_trans (Nat.succ_pos _) hfuel)).symm⟩
    have hnext : t.pendingRequests.next x = rest.head? :=
      (h.requests_represents.links before x rest hsplit).2
    have hrest : requests = (before ++ [x]) ++ rest := by
      rw [hsplit, List.append_assoc]
      rfl
    have hbefore' : grantable env t x = false →
        ∀ y ∈ before ++ [x], grantable env t y = false := by
      intro hx y hy
      rcases List.mem_append.mp hy with hy | hy
      · exact hbefore y hy
      · rw [List.mem_singleton.mp hy]
        exact hx
    have hfuel' : rest.length ≤ fuel := Nat.le_of_succ_le_succ hfuel
    rw [List.head?_cons]
    unfold ReceiveFlow.grantPermits
    split_ifs with hfull hslots hcan hunused
    · exact ⟨t, _, rfl, Or.inl ⟨rfl, Or.inl hfull⟩⟩
    · exact ⟨t, _, rfl, Or.inl ⟨rfl, Or.inr (Or.inl hslots)⟩⟩
    · obtain ⟨s, hresult, hgone, hgranted⟩ := h.firstGranted hsplit hbefore
        (Bool.and_eq_true_iff.mpr ⟨hcan, decide_eq_true hunused⟩) (not_le.mp hfull)
        (not_lt.mp hslots)
      unfold requestSlots at hresult
      dsimp only
      rw [hresult]
      dsimp only
      rw [hgone]
      exact ⟨s, _, by cases fuel <;> rfl, Or.inr ⟨before, x, rest, hsplit, hgranted⟩⟩
    · rw [hnext]
      refine ih (before ++ [x]) hrest (hbefore' ?_) fuel timeout anyCanSend anyCannotSend hfuel'
      exact Bool.and_eq_false_iff.mpr (Or.inr (decide_eq_false hunused))
    · rw [hnext]
      refine ih (before ++ [x]) hrest (hbefore' ?_) fuel timeout anyCanSend true hfuel'
      exact Bool.and_eq_false_iff.mpr (Or.inl (Bool.eq_false_iff.mpr hcan))

/-- A call of `checkPendingRequests`: it counts what is reserved, modulo `2 ^ 32`, and grants at
most one request. -/
theorem Holds.check_cases (h : Holds s requests permits) (limits : FlowLimits)
    (env : Surroundings σ) :
    ∃ t s' timeout requests' permits', countIssued limits env s =
        some (t, t.reserved % 2 ^ 32) ∧
      ReceiveFlow.checkPendingRequests limits env s = some (s', timeout) ∧ Holds t requests' permits' ∧
      t.pendingPermits.numEntries ≤ s.pendingPermits.numEntries ∧
      (s' = t ∧ NothingGranted limits env (t.reserved % 2 ^ 32) t requests' ∨
        ∃ before x behind, requests' = before ++ x :: behind ∧
          FirstGranted limits env (t.reserved % 2 ^ 32) t before x behind s') := by
  obtain ⟨t, requests', permits', timeout, hexpired, hholds, hentries, -⟩ :=
    @Holds.expirePermits σ _ _ _ limits _ (h.wait env.elapsed)
      (fun t => t.pendingPermits.numEntries ≤ s.pendingPermits.numEntries) (le_refl _) _
      (fun _ hle _ hstep => by
        rw [hstep.pendingPermits]
        exact (Nat.sub_le _ 1).trans hle)
      s.pendingPermits.numEntries 5000 h.permits_represents.numEntries.ge
  rw [← h.permits_represents.head] at hexpired
  have hsum := hholds.sumReserved_eq [] t.pendingPermits.numEntries 0 rfl
    hholds.permits_represents.numEntries.ge
  rw [Nat.zero_mod, Nat.zero_add, ← hholds.reserved_eq] at hsum
  obtain ⟨s', result, hresult, hcases⟩ := hholds.grantPermits_cases limits env
    (t.reserved % 2 ^ 32) [] rfl (fun y hy => by cases hy) t.pendingRequests.numEntries timeout
    false false hholds.requests_represents.numEntries.ge
  rw [← hholds.requests_represents.head] at hresult
  have hcheck : ∃ timeout', ReceiveFlow.checkPendingRequests limits env s = some (s', timeout') := by
    unfold ReceiveFlow.checkPendingRequests
    dsimp only
    rw [hexpired]
    dsimp only
    rw [hsum]
    dsimp only
    rw [hresult]
    dsimp only
    split_ifs
    · exact ⟨_, rfl⟩
    · exact ⟨_, rfl⟩
  obtain ⟨timeout', hcheck⟩ := hcheck
  refine ⟨t, s', timeout', requests', permits', ?_, hcheck, hholds, hentries, hcases⟩
  unfold countIssued
  dsimp only
  rw [hexpired]
  dsimp only
  rw [hsum]
  rfl

/-- Nothing is taken away while the permits are not expired. -/
theorem Holds.countIssued_eq (h : Holds s requests permits) (limits : FlowLimits)
    (env : Surroundings σ)
    (hfresh : ∀ p ∈ permits, s.age (s.msTick + env.elapsed) p < limits.udpPermitTimeout) :
    ReceiveFlow.countIssued limits env s =
      some ({ s with msTick := s.msTick + env.elapsed }, s.reserved % 2 ^ 32) := by
  have hwait := h.wait env.elapsed
  have hsum := hwait.sumReserved_eq [] s.pendingPermits.numEntries 0 rfl
    h.permits_represents.numEntries.ge
  rw [Nat.zero_mod, Nat.zero_add, ← hwait.reserved_eq] at hsum
  have hexpired : ∃ timeout, ReceiveFlow.expirePermits limits (s.msTick + env.elapsed)
      s.pendingPermits.numEntries { s with msTick := s.msTick + env.elapsed } 5000
      permits.head? = some ({ s with msTick := s.msTick + env.elapsed }, permits.head?,
        timeout) := by
    rw [h.permits_represents.numEntries]
    cases permits with
    | nil => exact ⟨5000, rfl⟩
    | cons p permits =>
      have hage := hfresh p List.mem_cons_self
      refine ⟨limits.udpPermitTimeout - s.age (s.msTick + env.elapsed) p, ?_⟩
      rw [List.head?_cons, List.length_cons]
      unfold ReceiveFlow.expirePermits
      exact if_neg (not_le.mpr hage)
  obtain ⟨timeout, hexpired⟩ := hexpired
  unfold ReceiveFlow.countIssued
  dsimp only
  rw [h.permits_represents.head, hexpired]
  dsimp only
  rw [hsum]
  rfl

end ReceiveFlow

/-- Limits for the runs below. -/
def tenPermits : FlowLimits := ⟨10, 20, 100, 100, 10, 1, 500, 0⟩

def twentyFree : ReceiveFlow.Surroundings Bool := ⟨0, fun _ => 0, 20, fun _ => true⟩

/-- A sender asks. -/
def askedBy (x : Bool) : FlowEvent Bool :=
  .message x ⟨.request_to_send, 0, 0, 1, by decide, by decide⟩ 0

end Udp
