import HpccPlatform.Udp.SendEntry
import HpccPlatform.Library.UpdateSum

/-!
# Data that is queued is counted and requested

The counter of an entry and its queues are changed one after the other, so they agree only up to
what the threads are about to count.  A request is made when the counter leaves 0, not when the
request that was active is given up.  So a buffer that is counted while the counter is not 0 and no
request is active is forgotten, and that is the only way to forget one, apart from an expiry time
that comes out as 0 and is taken for none.
-/

namespace Udp

open UpdateSum (sum_update_add)

/-- A buffer that is queued and not counted. -/
def PushPc.uncounted : PushPc → ℕ
  | .queued => 1
  | _ => 0

/-- How many buffers are removed and still counted. -/
def RemovePc.removed {β : Type*} : RemovePc β → ℕ
  | .idle => 0
  | .removing _ _ removed => removed

/-- A buffer that is taken and still counted. -/
def DataPc.taken : DataPc → ℕ
  | .popped _ => 1
  | _ => 0

namespace UdpReceiverEntry

variable {β ι κ : Type*} {settings : SendSettings}

/-- No call is in progress. -/
structure Quiet (s : UdpReceiverEntry β ι κ) : Prop where
  pushers : ∀ i, s.pushers i = .idle
  aborters : ∀ j, s.aborters j = .idle
  data : s.data = .idle
  resend : s.resend ≠ .called ∧ s.resend ≠ .counted
  flow : s.flow ≠ .acknowledged

/-- How many buffers are in the queues. -/
def queued (settings : SendSettings) (s : UdpReceiverEntry β ι κ) : ℕ :=
  ∑ q ∈ Finset.range settings.numQueues, (s.output_queue q).length

/-- What is queued is counted, and there is a request for it that will be repeated. -/
def KeepsData (settings : SendSettings) (s : UdpReceiverEntry β ι κ) : Prop :=
  s.Quiet → s.packetsQueued = s.queued settings ∧
    (s.packetsQueued ≠ 0 → s.requestExpiryTime ≠ 0)

/-- A request is active or about to be made. -/
def Requested (s : UdpReceiverEntry β ι κ) : Prop :=
  s.requestExpiryTime ≠ 0 ∨ ∃ i, s.pushers i = .requesting

def uncounted [Fintype ι] (s : UdpReceiverEntry β ι κ) : ℕ := ∑ i, (s.pushers i).uncounted

def removed [Fintype κ] (s : UdpReceiverEntry β ι κ) : ℕ := ∑ j, (s.aborters j).removed

variable {s s' : UdpReceiverEntry β ι κ}

theorem queued_update {q : ℕ} (hq : q < settings.numQueues) (l : List β) :
    ∑ k ∈ Finset.range settings.numQueues, (Function.update s.output_queue q l k).length +
      (s.output_queue q).length = s.queued settings + l.length :=
  sum_update_add (Finset.mem_range.2 hq) s.output_queue List.length l

/-- A worker that is not about to make a request does something else. -/
theorem Requested.update [DecidableEq ι] (hrequested : s.Requested) {i : ι}
    (hi : s.pushers i ≠ .requesting) {pc : PushPc} (hpushers : s'.pushers = Function.update s.pushers i pc)
    (hexpiry : s'.requestExpiryTime = s.requestExpiryTime) : s'.Requested := by
  rcases hrequested with hne | ⟨k, hk⟩
  · left
    rw [hexpiry]
    exact hne
  · right
    refine ⟨k, ?_⟩
    rw [hpushers, Function.update_of_ne]
    · exact hk
    · rintro rfl
      exact hi hk

theorem uncounted_update [Fintype ι] [DecidableEq ι] (i : ι) (pc : PushPc) :
    ∑ k, (Function.update s.pushers i pc k).uncounted + (s.pushers i).uncounted =
      s.uncounted + pc.uncounted :=
  sum_update_add (Finset.mem_univ i) s.pushers PushPc.uncounted pc

theorem removed_update [Fintype κ] [DecidableEq κ] (j : κ) (pc : RemovePc β) :
    ∑ k, (Function.update s.aborters j pc k).removed + (s.aborters j).removed =
      s.removed + pc.removed :=
  sum_update_add (Finset.mem_univ j) s.aborters RemovePc.removed pc

variable [Fintype ι] [Fintype κ]

/-- The buffers that are in the queues, or were and are still counted. -/
def present (settings : SendSettings) (s : UdpReceiverEntry β ι κ) : ℕ :=
  s.queued settings + s.data.taken + s.removed

/-- In a step: a buffer that is counted while others are is requested, the expiry time of a request
is not 0, and there are fewer than `2 ^ 32` buffers. -/
def Counts (settings : SendSettings) (s : UdpReceiverEntry β ι κ) : SendAction β ι κ → Prop
  | .pushData _ _ _ => s.present settings + 1 < 2 ^ 32 ∧ s.uncounted + 1 < 2 ^ 32
  | .pusher i c =>
    (s.pushers i = .queued → s.packetsQueued ≠ 0 → s.Requested) ∧
      (s.pushers i = .requesting → c.expiry ≠ 0)
  | .data c => s.data = .done → c.expiry ≠ 0
  | .resend c => s.resend = .counted → c.expiry ≠ 0
  | .flow c => s.flow = .acknowledged → c.expiry ≠ 0
  | _ => True

/-- What holds between any two steps. -/
structure Accounted (settings : SendSettings) (s : UdpReceiverEntry β ι κ) : Prop where
  outside : ∀ q, settings.numQueues ≤ q → s.output_queue q = []
  counter_lt : s.packetsQueued < 2 ^ 32
  present_lt : s.present settings < 2 ^ 32
  uncounted_lt : s.uncounted < 2 ^ 32
  counted : (s.packetsQueued + s.uncounted) % 2 ^ 32 = s.present settings % 2 ^ 32
  requested : s.Requested ∨ s.queued settings ≤ s.uncounted

/-! ### What a step changes -/

theorem unsignedSub_add_mod {a b : ℕ} (hb : b ≤ 2 ^ 32) :
    (unsignedSub a b + b) % 2 ^ 32 = a % 2 ^ 32 := by
  rw [unsignedSub, Nat.mod_add_mod, Nat.add_assoc, Nat.sub_add_cancel hb, Nat.add_mod_right]

/-- Buffers leave the queues, and some that have left are no longer counted. -/
theorem Accounted.drop (h : s.Accounted settings) (n : ℕ)
    (houtside : ∀ q, settings.numQueues ≤ q → s'.output_queue q = [])
    (hcounter : s'.packetsQueued = unsignedSub s.packetsQueued (n % 2 ^ 32))
    (huncounted : s'.uncounted = s.uncounted)
    (hpresent : s'.present settings + n = s.present settings)
    (hrequested : s'.Requested ∨ s'.queued settings ≤ s.uncounted) : s'.Accounted settings := by
  refine ⟨houtside, ?_, ?_, ?_, ?_, ?_⟩
  · rw [hcounter]
    exact Nat.mod_lt _ (Nat.two_pow_pos 32)
  · exact Nat.lt_of_le_of_lt (hpresent ▸ Nat.le_add_right _ n) h.present_lt
  · rw [huncounted]
    exact h.uncounted_lt
  · have hlow : n % 2 ^ 32 ≤ 2 ^ 32 := (Nat.mod_lt _ (Nat.two_pow_pos 32)).le
    have hsub : s'.packetsQueued + n ≡ s.packetsQueued [MOD 2 ^ 32] := by
      refine (Nat.ModEq.add_left _ (Nat.mod_modEq n (2 ^ 32)).symm).trans ?_
      rw [hcounter]
      exact unsignedSub_add_mod hlow
    refine Nat.ModEq.add_right_cancel' n ?_
    rw [hpresent, huncounted, Nat.add_right_comm]
    exact (Nat.ModEq.add_right _ hsub).trans h.counted
  · rw [huncounted]
    exact hrequested

theorem Accounted.unsignedSub_zero (h : s.Accounted settings) :
    s.packetsQueued = unsignedSub s.packetsQueued (0 % 2 ^ 32) := by
  rw [Nat.zero_mod, unsignedSub, Nat.sub_zero, Nat.add_mod_right, Nat.mod_eq_of_lt h.counter_lt]

theorem Accounted.congr (h : s.Accounted settings) (hqueues : s'.output_queue = s.output_queue)
    (hcounter : s'.packetsQueued = s.packetsQueued) (huncounted : s'.uncounted = s.uncounted)
    (hremoved : s'.removed = s.removed) (htaken : s'.data.taken = s.data.taken)
    (hrequested : s'.Requested ∨ s.queued settings ≤ s.uncounted) : s'.Accounted settings := by
  have hqueued : s'.queued settings = s.queued settings := by rw [queued, queued, hqueues]
  refine h.drop 0 ?_ ?_ huncounted ?_ ?_
  · rw [hqueues]
    exact h.outside
  · rw [hcounter]
    exact h.unsignedSub_zero
  · rw [present, present, hqueued, htaken, hremoved, Nat.add_zero]
  · rw [hqueued]
    exact hrequested

theorem Accounted.same (h : s.Accounted settings) (hqueues : s'.output_queue = s.output_queue)
    (hcounter : s'.packetsQueued = s.packetsQueued) (hpushers : s'.pushers = s.pushers)
    (haborters : s'.aborters = s.aborters) (htaken : s'.data.taken = s.data.taken)
    (hexpiry : s'.requestExpiryTime = s.requestExpiryTime) : s'.Accounted settings := by
  refine h.congr hqueues hcounter ?_ ?_ htaken ?_
  · rw [uncounted, uncounted, hpushers]
  · rw [removed, removed, haborters]
  · rw [Requested, hexpiry, hpushers]
    exact h.requested

/-- If the counter is 0 then every buffer that is queued is one that is not counted yet. -/
theorem Accounted.queued_le_of_counter (h : s.Accounted settings) (hzero : s.packetsQueued = 0) :
    s.queued settings ≤ s.uncounted := by
  have hcounted := h.counted
  rw [hzero, Nat.zero_add, Nat.mod_eq_of_lt h.uncounted_lt, Nat.mod_eq_of_lt h.present_lt]
    at hcounted
  rw [hcounted, present, Nat.add_assoc]
  exact Nat.le_add_right _ _

theorem accounted_new : (new : UdpReceiverEntry β ι κ).Accounted settings where
  outside _ _ := rfl
  counter_lt := Nat.two_pow_pos 32
  present_lt := by
    have hpresent : (new : UdpReceiverEntry β ι κ).present settings = 0 := by
      simp [present, queued, removed, new, DataPc.taken, RemovePc.removed]
    rw [hpresent]
    exact Nat.two_pow_pos 32
  uncounted_lt := by
    have huncounted : (new : UdpReceiverEntry β ι κ).uncounted = 0 := by
      simp [uncounted, new, PushPc.uncounted]
    rw [huncounted]
    exact Nat.two_pow_pos 32
  counted := by
    simp [present, queued, uncounted, removed, new, DataPc.taken, RemovePc.removed,
      PushPc.uncounted]
  requested := by
    right
    simp [queued, new]

/-- When no call is in progress everything is counted. -/
theorem Accounted.keepsData (h : s.Accounted settings) : s.KeepsData settings := by
  intro hquiet
  have huncounted : s.uncounted = 0 := by
    refine Finset.sum_eq_zero fun i _ => ?_
    rw [hquiet.pushers i]
    rfl
  have hremoved : s.removed = 0 := by
    refine Finset.sum_eq_zero fun j _ => ?_
    rw [hquiet.aborters j]
    rfl
  have hpresent : s.present settings = s.queued settings := by
    rw [present, hquiet.data, hremoved]
    rfl
  have hcounted := h.counted
  have hlt := h.present_lt
  rw [hpresent] at hcounted hlt
  rw [huncounted, Nat.add_zero, Nat.mod_eq_of_lt h.counter_lt, Nat.mod_eq_of_lt hlt] at hcounted
  refine ⟨hcounted, ?_⟩
  intro hne
  rcases h.requested with (hexpiry | ⟨i, hi⟩) | hle
  · exact hexpiry
  · rw [hquiet.pushers i] at hi
    cases hi
  · rw [huncounted, Nat.le_zero] at hle
    exact absurd (hcounted.trans hle) hne

theorem outside_update (h : s.Accounted settings) {q : ℕ} (hq : q < settings.numQueues)
    (l : List β) (k : ℕ) (hk : settings.numQueues ≤ k) :
    Function.update s.output_queue q l k = [] := by
  rw [Function.update_of_ne (Nat.ne_of_gt (Nat.lt_of_lt_of_le hq hk))]
  exact h.outside k hk

theorem accounted_abort (h : s.Accounted settings) (hs' : s' = s.abort settings) :
    s'.Accounted settings := by
  unfold abort at hs'
  dsimp only at hs'
  by_cases hzero : s.packetsQueued = 0
  · rw [if_pos hzero] at hs'
    subst hs'
    exact h.congr rfl rfl rfl rfl rfl (Or.inr (h.queued_le_of_counter hzero))
  · rw [if_neg hzero] at hs'
    have hqueued' : s'.queued settings = 0 := by
      refine Finset.sum_eq_zero fun q hq => ?_
      rw [hs']
      dsimp only
      rw [if_pos (Finset.mem_range.1 hq)]
      rfl
    have hremoved' : s'.removed = s.removed := by rw [hs']; rfl
    have hdata : s'.data = s.data := by rw [hs']
    refine h.drop (s.queued settings) ?_ ?_ ?_ ?_ ?_
    · intro q hq
      rw [hs']
      dsimp only
      rw [if_neg (Nat.not_lt.2 hq)]
      exact h.outside q hq
    · rw [hs']
      rfl
    · rw [hs']
      rfl
    · rw [present, present, hqueued', hremoved', hdata]
      ac_rfl
    · rw [hqueued']
      exact Or.inr (Nat.zero_le _)

/-- A buffer is taken from a queue. -/
theorem Accounted.pop (h : s.Accounted settings) {queue : ℕ} {buffer : β} {rest : List β}
    (hqueue : s.output_queue queue = buffer :: rest) (hdata : s.data.taken = 0)
    (hqueues : s'.output_queue = Function.update s.output_queue queue rest)
    (htaken : s'.data.taken = 1) (hcounter : s'.packetsQueued = s.packetsQueued)
    (hpushers : s'.pushers = s.pushers) (haborters : s'.aborters = s.aborters)
    (hexpiry : s'.requestExpiryTime = s.requestExpiryTime) : s'.Accounted settings := by
  have hlt : queue < settings.numQueues := by
    by_contra hge
    rw [h.outside queue (Nat.not_lt.1 hge)] at hqueue
    cases hqueue
  have hqueued' : s'.queued settings + 1 = s.queued settings := by
    have hsum := queued_update (s := s) hlt rest
    rw [hqueue, List.length_cons] at hsum
    rw [queued, hqueues]
    omega
  refine h.drop 0 ?_ ?_ ?_ ?_ ?_
  · rw [hqueues]
    exact outside_update h hlt rest
  · rw [hcounter]
    exact h.unsignedSub_zero
  · rw [uncounted, uncounted, hpushers]
  · rw [present, present, htaken, hdata, removed, removed, haborters, hqueued', Nat.add_zero,
      Nat.add_zero]
  · rcases h.requested with hrequested | hle
    · left
      rw [Requested, hexpiry, hpushers]
      exact hrequested
    · exact Or.inr ((Nat.le_succ _).trans (hqueued'.le.trans hle))

theorem accounted_popQueue (h : s.Accounted settings) {maxPackets tried : ℕ} (seemsEmpty : Bool)
    (hdata : s.data.taken = 0) :
    (s.popQueue settings maxPackets tried seemsEmpty).Accounted settings := by
  unfold popQueue
  dsimp only
  split
  · rename_i buffer rest hqueue
    by_cases hpriority : settings.udpOutQsPriority = true
    · simp only [if_pos hpriority] at hqueue ⊢
      split <;> exact h.pop hqueue hdata rfl rfl rfl rfl rfl rfl
    · simp only [if_neg hpriority] at hqueue ⊢
      exact h.pop hqueue hdata rfl rfl rfl rfl rfl rfl
  · exact h.congr rfl rfl rfl rfl hdata.symm h.requested

/-- The request is given up only if nothing is counted, or if it was given up before. -/
theorem accounted_sendDone (h : s.Accounted settings) {c : Choice} (hexpiry : c.expiry ≠ 0)
    (hdata : s.data.taken = 0) : { s.sendDone c with data := .idle }.Accounted settings := by
  unfold sendDone
  by_cases hmore : s.dataRemaining c ∧ s.requestExpiryTime ≠ 0
  · rw [if_pos hmore]
    exact h.congr rfl rfl rfl rfl hdata.symm (Or.inl (Or.inl hexpiry))
  · rw [if_neg hmore]
    refine h.congr rfl rfl rfl rfl hdata.symm ?_
    by_cases hremaining : s.dataRemaining c
    · rcases h.requested with (hne | hrequesting) | hle
      · exact absurd ⟨hremaining, hne⟩ hmore
      · exact Or.inl (Or.inr hrequesting)
      · exact Or.inr hle
    · right
      refine h.queued_le_of_counter ?_
      by_contra hne
      refine hremaining ?_
      unfold dataRemaining
      cases c.resendList with
      | none => exact hne
      | some l =>
        by_cases hcount : l.count = 0
        · exact Or.inl ⟨hne, Or.inl hcount⟩
        · exact Or.inr hcount

/-- The buffer that was taken is no longer counted. -/
theorem accounted_uncount (h : s.Accounted settings) (hdata : s.data.taken = 1)
    (htaken : s'.data.taken = 0) (hqueues : s'.output_queue = s.output_queue)
    (hcounter : s'.packetsQueued = unsignedSub s.packetsQueued 1)
    (hpushers : s'.pushers = s.pushers) (haborters : s'.aborters = s.aborters)
    (hexpiry : s'.requestExpiryTime = s.requestExpiryTime) : s'.Accounted settings := by
  have hqueued' : s'.queued settings = s.queued settings := by rw [queued, queued, hqueues]
  have hone : 1 % 2 ^ 32 = 1 := Nat.mod_eq_of_lt (Nat.one_lt_two_pow (Nat.succ_ne_zero 31))
  refine h.drop 1 ?_ ?_ ?_ ?_ ?_
  · rw [hqueues]
    exact h.outside
  · rw [hcounter, hone]
  · rw [uncounted, uncounted, hpushers]
  · rw [present, present, hqueued', htaken, hdata, removed, removed, haborters]
    exact Nat.add_right_comm _ _ _
  · rw [hqueued', Requested, hexpiry, hpushers]
    exact h.requested

theorem accounted_dataStep (h : s.Accounted settings) {c : Choice}
    (hcounts : s.Counts settings (.data c)) : (s.dataStep settings c).Accounted settings := by
  unfold dataStep
  cases hdata : s.data with
  | idle =>
    dsimp only
    cases hpermits : s.send_queue with
    | nil => exact h
    | cons permit rest =>
      dsimp only
      split
      · exact h.same rfl rfl rfl rfl (by rw [hdata]; rfl) rfl
      · exact h.same rfl rfl rfl rfl (by rw [hdata]) rfl
  | gather maxPackets =>
    dsimp only
    split <;> exact h.same rfl rfl rfl rfl (by rw [hdata]; rfl) rfl
  | popping maxPackets tried =>
    dsimp only
    split
    · exact accounted_popQueue h _ (by rw [hdata]; rfl)
    · exact h.same rfl rfl rfl rfl (by rw [hdata]; rfl) rfl
  | popped maxPackets =>
    dsimp only
    refine accounted_uncount h (by rw [hdata]; rfl) ?_ rfl rfl rfl rfl rfl
    split <;> rfl
  | sending => exact h.same rfl rfl rfl rfl (by rw [hdata]; rfl) rfl
  | done => exact accounted_sendDone h (hcounts hdata) (by rw [hdata]; rfl)

/-- The buffers of a queue that an abort is about are removed. -/
theorem Accounted.removeQueue [DecidableEq κ] (h : s.Accounted settings) {j : κ} {isKey : β → Bool}
    {queue removed : ℕ} (hj : s.aborters j = .removing isKey queue removed)
    (hqueue : queue < settings.numQueues)
    (hs' : s' = { s with
      output_queue := Function.update s.output_queue queue
        ((s.output_queue queue).filter fun b => !isKey b)
      aborters := Function.update s.aborters j (.removing isKey (queue + 1)
        (removed + ((s.output_queue queue).filter isKey).length)) }) : s'.Accounted settings := by
  have hqueued' : s'.queued settings + (s.output_queue queue).length =
      s.queued settings + ((s.output_queue queue).filter fun b => !isKey b).length := by
    rw [hs']
    exact queued_update hqueue _
  have hremoved' : s'.removed = s.removed + ((s.output_queue queue).filter isKey).length := by
    have hsum := removed_update (s := s) j (.removing isKey (queue + 1)
      (removed + ((s.output_queue queue).filter isKey).length))
    rw [hj] at hsum
    rw [hs']
    exact Nat.add_right_cancel (hsum.trans (by change _ + (removed + _) = _ + removed; ac_rfl))
  have hsplit := List.length_eq_length_filter_add (l := s.output_queue queue) isKey
  have hle : s'.queued settings ≤ s.queued settings := by omega
  refine h.drop 0 ?_ ?_ ?_ ?_ ?_
  · rw [hs']
    exact outside_update h hqueue _
  · rw [hs']
    exact h.unsignedSub_zero
  · rw [hs']
    rfl
  · have htaken : s'.data.taken = s.data.taken := by rw [hs']
    rw [present, present]
    omega
  · rcases h.requested with hrequested | hqueued
    · left
      rw [hs']
      exact hrequested
    · exact Or.inr (hle.trans hqueued)

theorem accounted_aborterStep [DecidableEq κ] (h : s.Accounted settings) (j : κ) :
    (s.aborterStep settings j).Accounted settings := by
  unfold aborterStep
  cases hj : s.aborters j with
  | idle => exact h
  | removing isKey queue removed =>
    dsimp only
    by_cases hqueue : queue < settings.numQueues
    · rw [if_pos hqueue]
      exact h.removeQueue hj hqueue rfl
    · rw [if_neg hqueue]
      have hremoved := removed_update (s := s) j .idle
      rw [hj] at hremoved
      refine h.drop removed h.outside rfl rfl ?_ h.requested
      change s.queued settings + s.data.taken + _ + removed = s.queued settings + s.data.taken + _
      rw [Nat.add_assoc]
      exact congrArg (_ + ·) hremoved

theorem accounted_resendStep (h : s.Accounted settings) {c : Choice}
    (hcounts : s.Counts settings (.resend c)) : (s.resendStep settings c).Accounted settings := by
  unfold resendStep
  cases hresend : s.resend with
  | idle => exact h.same rfl rfl rfl rfl rfl rfl
  | loadedExpiry expireTime => exact h.same rfl rfl rfl rfl rfl rfl
  | loadedPermit expireTime curPermitSeq =>
    dsimp only
    split <;> exact h.same rfl rfl rfl rfl rfl rfl
  | called => exact h.same rfl rfl rfl rfl rfl rfl
  | counted =>
    unfold resendRequestToSend
    dsimp only
    split
    · exact (accounted_abort h rfl).same rfl rfl rfl rfl rfl rfl
    · split
      · exact h.congr rfl rfl rfl rfl rfl (Or.inl (Or.inl (hcounts hresend)))
      · exact h.same rfl rfl rfl rfl rfl rfl

theorem accounted_flowStep (h : s.Accounted settings) {c : Choice}
    (hcounts : s.Counts settings (.flow c)) : (s.flowStep c).Accounted settings := by
  unfold flowStep
  cases hflow : s.flow with
  | idle => exact h
  | noting flowSeq => exact h.same rfl rfl rfl rfl rfl rfl
  | comparing flowSeq activePermitSeq =>
    dsimp only
    split <;> exact h.same rfl rfl rfl rfl rfl rfl
  | storing flowSeq => exact h.same rfl rfl rfl rfl rfl rfl
  | resetting => exact h.same rfl rfl rfl rfl rfl rfl
  | acknowledged =>
    unfold requestAcknowledged
    dsimp only
    split
    · exact h.congr rfl rfl rfl rfl rfl (Or.inl (Or.inl (hcounts hflow)))
    · exact h.same rfl rfl rfl rfl rfl rfl

variable [DecidableEq ι]

theorem Accounted.pushData (h : s.Accounted settings) {i : ι} {queue : ℕ} (buffer : β)
    (hidle : s.pushers i = .idle) (hqueue : queue < settings.numQueues)
    (hpresent : s.present settings + 1 < 2 ^ 32) (huncounted : s.uncounted + 1 < 2 ^ 32)
    (hs' : s' = { s with
      output_queue := Function.update s.output_queue queue (s.output_queue queue ++ [buffer])
      pushers := Function.update s.pushers i .queued }) : s'.Accounted settings := by
  have hqueued' : s'.queued settings = s.queued settings + 1 := by
    have hsum := queued_update (s := s) hqueue (s.output_queue queue ++ [buffer])
    rw [List.length_append, List.length_singleton] at hsum
    rw [hs']
    exact Nat.add_right_cancel (hsum.trans (by ac_rfl))
  have huncounted' : s'.uncounted = s.uncounted + 1 := by
    have hsum := uncounted_update (s := s) i .queued
    rw [hidle] at hsum
    rw [hs']
    exact hsum
  have hpresent' : s'.present settings = s.present settings + 1 := by
    rw [present, hqueued', present]
    subst hs'
    change _ + 1 + s.data.taken + s.removed = _
    ac_rfl
  refine ⟨?_, ?_, ?_, ?_, ?_, ?_⟩
  · rw [hs']
    exact outside_update h hqueue _
  · rw [hs']
    exact h.counter_lt
  · rw [hpresent']
    exact hpresent
  · rw [huncounted']
    exact huncounted
  · rw [huncounted', hpresent', hs', ← Nat.add_assoc]
    exact Nat.ModEq.add_right 1 h.counted
  · rw [hqueued', huncounted']
    rcases h.requested with hrequested | hle
    · left
      exact hrequested.update (i := i) (by simp [hidle]) (by rw [hs']) (by rw [hs'])
    · exact Or.inr (Nat.succ_le_succ hle)

/-- A buffer is counted. -/
theorem Accounted.count (h : s.Accounted settings) {i : ι} (hi : s.pushers i = .queued)
    (hrequested : s.packetsQueued ≠ 0 → s.Requested)
    (hs' : s' = { s with
      packetsQueued := (s.packetsQueued + 1) % 2 ^ 32
      pushers := Function.update s.pushers i
        (if s.packetsQueued = 0 then .requesting else .idle) }) : s'.Accounted settings := by
  have huncounted' : s'.uncounted + 1 = s.uncounted := by
    have hsum := uncounted_update (s := s) i (if s.packetsQueued = 0 then .requesting else .idle)
    have hzero : (if s.packetsQueued = 0 then PushPc.requesting else .idle).uncounted = 0 := by
      split <;> rfl
    rw [hi, hzero] at hsum
    rw [hs']
    exact hsum
  have hqueued' : s'.queued settings = s.queued settings := by rw [hs']; rfl
  have hpresent' : s'.present settings = s.present settings := by rw [hs']; rfl
  have hcounter' : s'.packetsQueued = (s.packetsQueued + 1) % 2 ^ 32 := by rw [hs']
  refine ⟨?_, ?_, ?_, ?_, ?_, ?_⟩
  · rw [hs']
    exact h.outside
  · rw [hcounter']
    exact Nat.mod_lt _ (Nat.two_pow_pos 32)
  · rw [hpresent']
    exact h.present_lt
  · exact Nat.lt_of_le_of_lt (huncounted' ▸ Nat.le_succ _) h.uncounted_lt
  · rw [hcounter', hpresent', ← h.counted, ← huncounted', Nat.mod_add_mod, Nat.add_assoc,
      Nat.add_comm 1]
  · left
    by_cases hzero : s.packetsQueued = 0
    · right
      refine ⟨i, ?_⟩
      rw [hs']
      exact (Function.update_self _ _ _).trans (if_pos hzero)
    · exact (hrequested hzero).update (i := i) (by simp [hi]) (by rw [hs']) (by rw [hs'])

theorem accounted_pusherStep (h : s.Accounted settings) {i : ι} {c : Choice}
    (hcounts : s.Counts settings (.pusher i c)) : (s.pusherStep i c).Accounted settings := by
  unfold pusherStep
  cases hi : s.pushers i with
  | idle => exact h
  | queued => exact h.count hi (hcounts.1 hi) rfl
  | requesting =>
    have hsum := uncounted_update (s := s) i .idle
    rw [hi] at hsum
    unfold requestToSendNew
    dsimp only
    by_cases hexpiry : s.requestExpiryTime = 0
    · rw [if_pos hexpiry]
      exact h.congr rfl rfl hsum rfl rfl (Or.inl (Or.inl (hcounts.2 hi)))
    · rw [if_neg hexpiry]
      exact h.congr rfl rfl hsum rfl rfl (Or.inl (Or.inl hexpiry))

variable [DecidableEq κ]

/-- A step keeps the account. -/
theorem accounted_step (h : s.Accounted settings) {action : SendAction β ι κ}
    (hcounts : s.Counts settings action) : (s.step settings action).Accounted settings := by
  cases action with
  | pushData i queue buffer =>
    unfold step
    dsimp only
    split
    · rename_i hfree
      exact h.pushData buffer hfree.1 hfree.2.1 hcounts.1 hcounts.2 rfl
    · exact h
  | pusher i c => exact accounted_pusherStep h hcounts
  | abortData j isKey =>
    unfold step
    dsimp only
    cases hj : s.aborters j with
    | idle =>
      dsimp only
      split
      · exact h
      · have hremoved := removed_update (s := s) j (.removing isKey 0 0)
        rw [hj] at hremoved
        exact h.congr rfl rfl rfl hremoved rfl h.requested
    | removing isKey queue removed => exact h
  | aborter j => exact accounted_aborterStep h j
  | ok_to_send permit accepted =>
    unfold step
    dsimp only
    split
    · exact h.same rfl rfl rfl rfl rfl rfl
    · exact h
  | request_received =>
    unfold step
    dsimp only
    split
    · exact h.same rfl rfl rfl rfl rfl rfl
    · exact h
  | flow c => exact accounted_flowStep h hcounts
  | data c => exact accounted_dataStep h hcounts
  | resend c => exact accounted_resendStep h hcounts

theorem accounted_run (h : s.Accounted settings) {actions : List (SendAction β ι κ)}
    (hcounts : Along settings (Counts settings) s actions) :
    (s.run settings actions).Accounted settings := by
  induction actions generalizing s with
  | nil => exact h
  | cons action actions ih => exact ih (accounted_step h hcounts.1) hcounts.2

end UdpReceiverEntry

/-! ### A buffer that is forgotten -/

def oneQueue : SendSettings where
  numQueues := 1
  queueSize := 10
  maxRequestDeadTimeouts := 1
  udpOutQsPriority := false
  maxPktsPerQ _ := 0
  udpRemoveDuplicatePermits := true

/-- Everything takes place at the time 2, and a request expires at the time 1. -/
def expired : Choice where
  now := 2
  expiry := 1
  maxPackets := 1
  seemsEmpty := false
  enough := false
  resendList := none
  nextSendSequence := 1

/-- A worker queues a buffer, counts it and requests that it be sent. -/
def pushOne : List (SendAction Unit Unit Unit) :=
  [.pushData () 0 (), .pusher () expired, .pusher () expired]

/-- `send_data` has taken the only buffer and not yet lowered the counter, when the request is given
up for the permit that it works on.  The next buffer is the second one to be counted, so that no
request is made for it. -/
def abortWhileSending : List (SendAction Unit Unit Unit) :=
  pushOne ++
    [.ok_to_send ⟨1, 1⟩ true, .flow expired, .flow expired,
      .data expired, .data expired, .data expired,
      .resend expired, .resend expired, .resend expired, .resend expired, .resend expired,
      .pushData () 0 (), .pusher () expired,
      .data expired, .data expired, .data expired, .data expired]

end Udp
