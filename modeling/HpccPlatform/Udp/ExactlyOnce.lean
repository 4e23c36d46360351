import HpccPlatform.Udp.ResendList

/-!
# A sender and a receiver that track packets

One sender with its list of packets to send again (`roxie/udplib/udptrs.cpp`) and one receiver with
its tracker (`udptrr.cpp`).  What was written to the network stays there, so that a packet or a
permit may be read late, often or never, and in any order.  The flow messages decide when permits
are sent; here the receiver may send one at any time, with any flow sequence.

The invariant ties the two windows together: a packet that the sender has released has been
delivered, so the window of the sender starts at or before the first packet that the receiver is
missing.
-/

namespace Udp

/-- A permit with the tracker of the receiver.  `missing` is not part of the message: it is the
first packet that the receiver was missing then. -/
structure Permit where
  flowSeq : ℕ
  maxData : ℕ
  seen : PacketTracker
  missing : ℕ

/-- `buffers` is the number of buffers that were given a sequence number. -/
structure Sender where
  nextSendSequence : ℕ
  activeFlowSequence : ℕ
  resendList : UdpResendList
  buffers : ℕ

namespace Sender

def new : Sender := ⟨0, 0, .new, 0⟩

/-- `nextFlowSequence`: it is never 0. -/
def nextFlowSequence (s : Sender) : Sender :=
  let seq := (s.activeFlowSequence + 1) % 2 ^ 32
  { s with activeFlowSequence := if seq = 0 then seq + 1 else seq }

/-- New packets; each takes the next sequence number. -/
def popQueued : ℕ → ℕ → ℕ → List Packet
  | 0, _, _ => []
  | k + 1, buffer, seq => ⟨buffer, seq, false⟩ :: popQueued k (buffer + 1) ((seq + 1) % 2 ^ 32)

/-- Packets that were written for the first time go on the list. -/
def appendAll : List Packet → UdpResendList → Option UdpResendList
  | [], l => some l
  | p :: ps, l => (l.append p).bind (appendAll ps)

/-- The number of new packets that may be sent without overwriting one on the list. -/
def newPackets (s : Sender) (l : UdpResendList) (maxPackets : ℕ) : Option ℕ :=
  let inflight := unsignedSub s.nextSendSequence l.first
  if l.count = 0 then some maxPackets
  else if trackerBits < inflight then none
  else some (min maxPackets (trackerBits - inflight))

/-- `sendData`: what it writes.  `available` is the number of queued packets that it can take. -/
def sendData (opts : ResendOptions) (expired : ℕ → Bool) (available : ℕ) (s : Sender)
    (permit : Permit) : Option (Sender × List Packet) :=
  if permit.flowSeq ≠ s.activeFlowSequence then some (s, [])
  else do
    let (l, toSend) ← s.resendList.noteRead opts expired permit.seen permit.maxData
    let maxPackets ← s.newPackets l (permit.maxData - toSend.length)
    let k := min maxPackets available
    let fresh := popQueued k s.buffers s.nextSendSequence
    let l ← appendAll fresh l
    return ({ s with
      nextSendSequence := (s.nextSendSequence + k) % 2 ^ 32
      resendList := l
      buffers := s.buffers + k }, toSend ++ fresh)

end Sender

/-- The two sides and all that was written to the network.  `delivered` has the packets that
came, `passedOn` those that the tracker took for new ones. -/
structure Link where
  sender : Sender
  tracker : PacketTracker
  network : List Packet
  permits : List Permit
  delivered : List ℕ
  passedOn : List ℕ

inductive Event where
  /-- the sender asks again -/
  | request
  /-- the receiver sends a permit -/
  | grant (flowSeq maxData : ℕ)
  /-- a permit comes -/
  | permit (p : Permit) (expired : ℕ → Bool) (available : ℕ)
  /-- a data packet comes -/
  | deliver (p : Packet)

/-- The first number that is not in a list. -/
def firstMissing (delivered : List ℕ) : ℕ :=
  ((List.range (delivered.length + 1)).find? (fun n => !delivered.contains n)).getD 0

namespace Link

def new : Link := ⟨.new, .new, [], [], [], []⟩

def missing (s : Link) : ℕ := firstMissing s.delivered

/-- One step; it fails where the code throws or an assertion fails. -/
def step (opts : ResendOptions) (s : Link) : Event → Option Link
  | .request => some { s with sender := s.sender.nextFlowSequence }
  | .grant flowSeq maxData =>
    some { s with permits := s.permits ++ [⟨flowSeq, maxData, s.tracker, s.missing⟩] }
  | .permit p expired available => do
    let (sender, written) ← s.sender.sendData opts expired available p
    return { s with sender := sender, network := s.network ++ written }
  | .deliver p => do
    let (duplicate, tracker) ← s.tracker.noteSeen p.sendSeq p.resent
    return { s with
      tracker := tracker
      delivered := s.delivered ++ [p.data]
      passedOn := if duplicate then s.passedOn else s.passedOn ++ [p.data] }

/-- What comes was written, and a permit is for at most 1024 packets. -/
def Enabled (s : Link) : Event → Prop
  | .request => True
  | .grant _ maxData => maxData ≤ trackerBits
  | .permit p _ _ => p ∈ s.permits
  | .deliver p => p ∈ s.network

/-- Nothing comes too late: a packet that is not marked as sent again comes while it or an earlier
one is missing, a marked one before its number can be taken for a new one, and a permit that is
used is not older than half the sequence numbers. -/
def Timely (s : Link) : Event → Prop
  | .request => True
  | .grant _ _ => True
  | .permit p _ _ =>
    p.flowSeq = s.sender.activeFlowSequence → s.sender.buffers ≤ p.missing + 2 ^ 31
  | .deliver p =>
    if p.resent then s.missing + trackerBits ≤ p.data + 2 ^ 32 else s.missing ≤ p.data

/-- The states of a run. -/
inductive Run (opts : ResendOptions) : Link → Prop where
  | new : Run opts new
  | step {s s' : Link} {e : Event} (h : Run opts s) (henabled : s.Enabled e)
      (hstep : s.step opts e = some s') : Run opts s'

/-- The states of a run in which nothing comes too late. -/
inductive TimelyRun (opts : ResendOptions) : Link → Prop where
  | new : TimelyRun opts new
  | step {s s' : Link} {e : Event} (h : TimelyRun opts s) (henabled : s.Enabled e)
      (htimely : s.Timely e) (hstep : s.step opts e = some s') : TimelyRun opts s'

/-- A packet is in the list of the sender. -/
def Kept (s : Link) (n : ℕ) : Prop := ∃ idx p, s.sender.resendList.entries idx = some p ∧ p.data = n

/-- Every packet is passed on at most once, what the tracker reports as seen was delivered, and so
was what the sender has released. -/
structure ExactlyOnce (s : Link) : Prop where
  passedOn : s.passedOn.Nodup
  reports : ∀ n < s.sender.buffers, s.tracker.hasSeen (n % 2 ^ 32) = true → n ∈ s.delivered
  released : ∀ n < s.sender.buffers, ¬s.Kept n → n ∈ s.delivered

/-- The base of the tracker does not go back. -/
def Forward (s s' : Link) : Prop := unsignedSub s'.tracker.base s.tracker.base < 2 ^ 31

/-! ### The first missing packet -/

theorem firstMissing_spec (delivered : List ℕ) :
    firstMissing delivered ∉ delivered ∧ ∀ n < firstMissing delivered, n ∈ delivered := by
  unfold firstMissing
  cases hfind : (List.range (delivered.length + 1)).find? (fun n => !delivered.contains n) with
  | none =>
    -- a list does not have more different numbers than members
    rw [List.find?_eq_none] at hfind
    have hsub : List.range (delivered.length + 1) ⊆ delivered := by
      intro n hn
      have hnot := hfind n hn
      simpa using hnot
    have hle := (List.nodup_range.subperm hsub).length_le
    rw [List.length_range] at hle
    omega
  | some n =>
    rw [List.find?_range_eq_some] at hfind
    obtain ⟨hn, -, hbelow⟩ := hfind
    rw [Option.getD_some]
    refine ⟨by simpa using hn, ?_⟩
    intro j hj
    simpa using hbelow j hj

theorem tracks_missing {t : PacketTracker} {delivered : List ℕ} {missing : ℕ}
    (h : t.Tracks (· ∈ delivered) missing) : firstMissing delivered = missing := by
  obtain ⟨hnot, hbelow⟩ := firstMissing_spec delivered
  apply le_antisymm
  · by_contra hcon
    exact h.notGot (hbelow missing (not_le.mp hcon))
  · by_contra hcon
    exact hnot (h.below _ (not_le.mp hcon))

end Link

/-! ### Sending -/

namespace Sender

open UdpResendList (Keeps)

variable {l : UdpResendList} {live : Finset ℕ} {lo b k : ℕ}

theorem popQueued_eq (p : Packet) (hp : p ∈ popQueued k b (b % 2 ^ 32)) :
    ∃ n, b ≤ n ∧ n < b + k ∧ p = sentAs n false := by
  induction k generalizing b with
  | zero => cases hp
  | succ k ih =>
    unfold popQueued at hp
    rw [Nat.mod_add_mod, List.mem_cons] at hp
    rcases hp with rfl | hp
    · exact ⟨b, le_refl b, by omega, rfl⟩
    · obtain ⟨n, hge, hlt, heq⟩ := ih hp
      exact ⟨n, by omega, by omega, heq⟩

/-- The new packets go on the list, within the window. -/
theorem appendAll_spec (h : Keeps l live lo) (hfirst : live.Nonempty → l.first = lo % 2 ^ 32)
    (hlt : ∀ n ∈ live, n < b) (hle : lo ≤ b) (hwindow : live.Nonempty → b + k ≤ lo + trackerBits)
    (hk : k ≤ trackerBits) :
    ∃ l' live' lo', appendAll (popQueued k b (b % 2 ^ 32)) l = some l' ∧ Keeps l' live' lo' ∧
      (live'.Nonempty → l'.first = lo' % 2 ^ 32) ∧ live ⊆ live' ∧
      (∀ n, n ∈ live' ↔ n ∈ live ∨ b ≤ n ∧ n < b + k) ∧ lo' ≤ b + k ∧
      (live'.Nonempty → b + k ≤ lo' + trackerBits) := by
  induction k generalizing l live lo b with
  | zero =>
    refine ⟨l, live, lo, rfl, h, hfirst, Finset.Subset.refl _, ?_, hle, hwindow⟩
    intro n
    exact ⟨Or.inl, fun hc => hc.resolve_right (by omega)⟩
  | succ k ih =>
    have hnot : b ∉ live := fun hmem => Nat.lt_irrefl b (hlt b hmem)
    obtain ⟨l₁, lo₁, happend, hkeeps, hfirst₁, hsame, hnew⟩ :=
      UdpResendList.append_spec h hfirst hnot (fun _ => hle) (fun hne => by
        have hroom := hwindow hne
        omega)
    have hlo : lo₁ ≤ b + 1 ∧ b + 1 + k ≤ lo₁ + trackerBits := by
      rcases live.eq_empty_or_nonempty with hempty | hne
      · rw [hnew hempty]
        omega
      · have hroom := hwindow hne
        rw [hsame hne]
        omega
    have hlt₁ : ∀ n ∈ insert b live, n < b + 1 := by
      intro n hn
      rcases Finset.mem_insert.mp hn with rfl | hn
      · exact Nat.lt_succ_self n
      · exact (hlt n hn).trans (Nat.lt_succ_self b)
    obtain ⟨l', live', lo', hrun, hkeeps', hfirst', hsub, hmem, hle', hwindow'⟩ :=
      ih hkeeps (fun _ => hfirst₁) hlt₁ hlo.1 (fun _ => hlo.2) (by omega)
    unfold popQueued appendAll
    rw [Nat.mod_add_mod]
    change ∃ l' live' lo', (l.append (sentAs b false)).bind _ = _ ∧ _
    rw [happend, Option.bind_some]
    refine ⟨l', live', lo', hrun, hkeeps', hfirst', (Finset.subset_insert b live).trans hsub, ?_,
      by omega, fun hne => by have hroom := hwindow' hne; omega⟩
    intro n
    rw [hmem n, Finset.mem_insert]
    constructor
    · rintro ((rfl | hn) | hn)
      · exact Or.inr (by omega)
      · exact Or.inl hn
      · exact Or.inr (by omega)
    · rintro (hn | hn)
      · exact Or.inl (Or.inr hn)
      · by_cases heq : n = b
        · exact Or.inl (Or.inl heq)
        · exact Or.inr (by omega)

/-- What the sender has: the list with its window, and the next number. -/
structure Holds (s : Sender) (live : Finset ℕ) (lo : ℕ) : Prop where
  next : s.nextSendSequence = s.buffers % 2 ^ 32
  keeps : Keeps s.resendList live lo
  first : live.Nonempty → s.resendList.first = lo % 2 ^ 32
  live_lt : ∀ n ∈ live, n < s.buffers
  lo_le : lo ≤ s.buffers
  window : live.Nonempty → s.buffers ≤ lo + trackerBits

/-- `sendData` keeps the window; what it releases was reported as seen, and what it writes has its
sequence number. -/
theorem sendData_spec (opts : ResendOptions) (expired : ℕ → Bool) (available : ℕ) {s : Sender}
    (h : Holds s live lo) (permit : Permit) (hmax : permit.maxData ≤ trackerBits) :
    ∃ s' written live' lo', s.sendData opts expired available permit = some (s', written) ∧
      Holds s' live' lo' ∧ s.buffers ≤ s'.buffers ∧
      (∀ n < s'.buffers, n ∉ live' → n < s.buffers ∧ (n ∉ live ∨
        permit.flowSeq = s.activeFlowSequence ∧ permit.seen.hasSeen (n % 2 ^ 32) = true)) ∧
      (∀ p ∈ written, ∃ n < s'.buffers, p = sentAs n p.resent) := by
  unfold sendData
  by_cases hflow : permit.flowSeq ≠ s.activeFlowSequence
  · rw [if_pos hflow]
    refine ⟨s, [], live, lo, rfl, h, le_refl _, fun n hn hnot => ⟨hn, Or.inl hnot⟩, ?_⟩
    intro p hp
    cases hp
  · rw [if_neg hflow]
    obtain ⟨l, toSend, live₁, lo₁, hread, hkeeps, hsub, hfirst, hge, hempty, hseen, hsent⟩ :=
      UdpResendList.noteRead_spec opts expired permit.seen permit.maxData h.keeps h.first
    dsimp only [Option.bind_eq_bind]
    rw [hread, Option.bind_some]
    dsimp only
    have hlo₁ : lo₁ ≤ s.buffers := by
      rcases live₁.eq_empty_or_nonempty with hnil | ⟨n, hn⟩
      · rw [hempty hnil]
        exact h.lo_le
      · have hlt := h.live_lt n (hsub hn)
        have hrange := (hkeeps.range n hn).1
        omega
    have hwindow₁ : live₁.Nonempty → s.buffers ≤ lo₁ + trackerBits := by
      intro hne
      have hroom := h.window (hne.mono hsub)
      omega
    -- the number of new packets leaves the window of the list
    obtain ⟨maxPackets, hmaxPackets, hle, hroom⟩ : ∃ maxPackets,
        s.newPackets l (permit.maxData - toSend.length) = some maxPackets ∧
        maxPackets ≤ trackerBits ∧
        (live₁.Nonempty → s.buffers + maxPackets ≤ lo₁ + trackerBits) := by
      unfold newPackets
      dsimp only
      by_cases hzero : l.count = 0
      · rw [if_pos hzero]
        refine ⟨_, rfl, by omega, ?_⟩
        intro hne
        rw [hkeeps.count] at hzero
        exact absurd hzero (Finset.card_ne_zero.mpr hne)
      · rw [if_neg hzero]
        have hne : live₁.Nonempty := by
          rw [← Finset.card_ne_zero, ← hkeeps.count]
          exact hzero
        have hbound := hwindow₁ hne
        have hinflight : unsignedSub s.nextSendSequence l.first = s.buffers - lo₁ := by
          rw [h.next, hfirst hne]
          exact unsignedSub_of_le hlo₁ (by unfold trackerBits at hbound; omega)
        rw [hinflight, if_neg (by omega)]
        exact ⟨_, rfl, by omega, fun _ => by omega⟩
    rw [hmaxPackets, Option.bind_some]
    generalize hk : min maxPackets available = k
    obtain ⟨l', live', lo', hrun, hkeeps', hfirst', hsub', hmem, hle', hwindow'⟩ :=
      appendAll_spec hkeeps hfirst (fun n hn => h.live_lt n (hsub hn)) hlo₁
        (fun hne => by have hroom' := hroom hne; omega : live₁.Nonempty →
          s.buffers + k ≤ lo₁ + trackerBits) (by omega)
    rw [h.next, hrun, Option.bind_some]
    refine ⟨_, _, live', lo', rfl, ⟨?_, hkeeps', hfirst', ?_, hle', hwindow'⟩,
      Nat.le_add_right _ _, ?_, ?_⟩
    · exact Nat.mod_add_mod _ _ _
    · intro n hn
      dsimp only
      rcases (hmem n).mp hn with hn | hn
      · have hlt := h.live_lt n (hsub hn)
        omega
      · exact hn.2
    · intro n hn hnot
      rw [hmem n, not_or, not_and] at hnot
      dsimp only at hn
      have hlt : n < s.buffers := by
        by_contra hcon
        exact hnot.2 (not_lt.mp hcon) hn
      refine ⟨hlt, ?_⟩
      by_cases hold : n ∈ live
      · exact Or.inr ⟨not_not.mp hflow, hseen n hold hnot.1⟩
      · exact Or.inl hold
    · intro p hp
      dsimp only
      rcases List.mem_append.mp hp with hp | hp
      · obtain ⟨n, hn, rfl⟩ := hsent p hp
        exact ⟨n, (h.live_lt n hn).trans_le (Nat.le_add_right _ _), rfl⟩
      · obtain ⟨n, -, hlt, rfl⟩ := popQueued_eq p hp
        exact ⟨n, hlt, rfl⟩

end Sender

/-! ### The invariant -/

namespace Link

open UdpResendList (Keeps)
open PacketTracker (Tracks)

variable {s s' : Link} {live : Finset ℕ} {lo missing : ℕ} {opts : ResendOptions}

/-- What the sender has released and what the tracker or a permit reports was delivered. -/
structure Inv (s : Link) (live : Finset ℕ) (lo missing : ℕ) : Prop where
  sender : s.sender.Holds live lo
  tracker : s.tracker.Tracks (· ∈ s.delivered) missing
  released : ∀ n < s.sender.buffers, n ∉ live → n ∈ s.delivered
  delivered : ∀ n ∈ s.delivered, n < s.sender.buffers
  network : ∀ p ∈ s.network, ∃ n < s.sender.buffers, p = sentAs n p.resent
  permits : ∀ p ∈ s.permits, p.maxData ≤ trackerBits ∧
    ∃ got, p.seen.Tracks got p.missing ∧ ∀ n, got n → n ∈ s.delivered
  passedOn : s.passedOn.Nodup
  came : ∀ n ∈ s.passedOn, n ∈ s.delivered

theorem inv_new : Inv new ∅ 0 0 where
  sender := by
    refine ⟨rfl, UdpResendList.keeps_new 0, ?_, ?_, le_refl 0, ?_⟩
    · intro hne
      exact absurd hne Finset.not_nonempty_empty
    · intro n hn
      cases hn
    · intro hne
      exact absurd hne Finset.not_nonempty_empty
  tracker := by
    change PacketTracker.new.Tracks (· ∈ []) 0
    simp only [List.not_mem_nil]
    exact PacketTracker.tracks_new
  released := by
    intro n hn
    cases hn
  delivered := by
    intro n hn
    cases hn
  network := by
    intro p hp
    cases hp
  permits := by
    intro p hp
    cases hp
  passedOn := List.nodup_nil
  came := by
    intro n hn
    cases hn

/-- The window of the sender starts at or before the first missing packet. -/
theorem Inv.lo_le_missing (h : Inv s live lo missing) : lo ≤ missing := by
  by_contra hcon
  have hlt : missing < lo := not_le.mp hcon
  have hnot : missing ∉ live := by
    intro hmem
    have hrange := (h.sender.keeps.range missing hmem).1
    omega
  exact h.tracker.notGot (h.released missing (hlt.trans_le h.sender.lo_le) hnot)

/-- No packet that was sent is behind the window of the tracker. -/
theorem Inv.near (h : Inv s live lo missing) {n : ℕ} (hn : n < s.sender.buffers) :
    n < missing + trackerBits := by
  rcases live.eq_empty_or_nonempty with rfl | hne
  · exact h.tracker.bound n (h.released n hn (Finset.notMem_empty n))
  · have hlo := h.lo_le_missing
    have hwindow := h.sender.window hne
    omega

theorem Inv.missing_le (h : Inv s live lo missing) : missing ≤ s.sender.buffers := by
  by_contra hcon
  exact Nat.lt_irrefl _ (h.delivered _ (h.tracker.below _ (not_le.mp hcon)))

/-- A tracker that was sent earlier misses no later packet. -/
theorem Inv.snapshot_le (h : Inv s live lo missing) {p : Permit} (hp : p ∈ s.permits) :
    p.missing ≤ missing := by
  obtain ⟨-, got, htracks, hgot⟩ := h.permits p hp
  by_contra hcon
  exact h.tracker.notGot (hgot missing (htracks.below missing (not_le.mp hcon)))

theorem Inv.exactlyOnce (h : Inv s live lo missing) : s.ExactlyOnce where
  passedOn := h.passedOn
  reports := by
    intro n hn hseen
    rcases lt_or_ge n missing with hlt | hge
    · exact h.tracker.below n hlt
    · have hnear := h.near hn
      have hiff := PacketTracker.hasSeen_iff h.tracker (n := n) (by unfold trackerBits at hnear; omega) (by omega)
      exact hiff.mp hseen
  released := by
    intro n hn hkept
    apply h.released n hn
    intro hmem
    exact hkept ⟨_, _, h.sender.keeps.entry n hmem, rfl⟩

/-! ### The steps -/

theorem Inv.request (h : Inv s live lo missing) :
    Inv { s with sender := s.sender.nextFlowSequence } live lo missing where
  sender := ⟨h.sender.next, h.sender.keeps, h.sender.first, h.sender.live_lt, h.sender.lo_le,
    h.sender.window⟩
  tracker := h.tracker
  released := h.released
  delivered := h.delivered
  network := h.network
  permits := h.permits
  passedOn := h.passedOn
  came := h.came

theorem Inv.grant (h : Inv s live lo missing) (flowSeq : ℕ) {maxData : ℕ}
    (hmax : maxData ≤ trackerBits) :
    Inv { s with permits := s.permits ++ [⟨flowSeq, maxData, s.tracker, s.missing⟩] } live lo
      missing where
  sender := h.sender
  tracker := h.tracker
  released := h.released
  delivered := h.delivered
  network := h.network
  permits := by
    intro p hp
    rcases List.mem_append.mp hp with hp | hp
    · exact h.permits p hp
    · rw [List.mem_singleton.mp hp]
      refine ⟨hmax, (· ∈ s.delivered), ?_, fun n hn => hn⟩
      change s.tracker.Tracks _ (firstMissing s.delivered)
      rw [tracks_missing h.tracker]
      exact h.tracker
  passedOn := h.passedOn
  came := h.came

/-- What the sender releases was reported by the permit, so it was delivered. -/
theorem Inv.permit (h : Inv s live lo missing) {p : Permit} (hp : p ∈ s.permits)
    (opts : ResendOptions) (expired : ℕ → Bool)
    (available : ℕ) (htimely : p.flowSeq = s.sender.activeFlowSequence →
      s.sender.buffers ≤ p.missing + 2 ^ 31) :
    ∃ sender written live' lo',
      s.sender.sendData opts expired available p = some (sender, written) ∧
      Inv { s with sender := sender, network := s.network ++ written } live' lo' missing := by
  obtain ⟨hmax, got, htracks, hgot⟩ := h.permits p hp
  obtain ⟨sender, written, live', lo', hrun, hholds, hmore, hreleased, hwritten⟩ :=
    Sender.sendData_spec opts expired available h.sender p hmax
  refine ⟨sender, written, live', lo', hrun, hholds, h.tracker, ?_, ?_, ?_, h.permits, h.passedOn,
    h.came⟩
  · intro n hn hnot
    obtain ⟨hlt, hcases⟩ := hreleased n hn hnot
    by_cases hlive : n ∈ live
    · obtain ⟨hflow, hseen⟩ := hcases.resolve_left (not_not.mpr hlive)
      have hage := htimely hflow
      have hsnapshot := h.snapshot_le hp
      have hmissing := h.missing_le
      have hlo := (h.sender.keeps.range n hlive).1
      have hwindow := h.sender.window ⟨n, hlive⟩
      unfold trackerBits at hwindow
      have hiff := PacketTracker.hasSeen_iff htracks (n := n) (by omega) (by omega)
      exact hgot n (hiff.mp hseen)
    · exact h.released n hlt hlive
  · intro n hn
    exact (h.delivered n hn).trans_le hmore
  · intro q hq
    rcases List.mem_append.mp hq with hq | hq
    · obtain ⟨n, hn, heq⟩ := h.network q hq
      exact ⟨n, hn.trans_le hmore, heq⟩
    · exact hwritten q hq

/-- A delivered packet: the tracker moves on, and it is passed on if it had not come before. -/
theorem Inv.deliver (h : Inv s live lo missing) {p : Packet} (hp : p ∈ s.network)
    (htimely : if p.resent then s.missing + trackerBits ≤ p.data + 2 ^ 32
      else s.missing ≤ p.data) :
    ∃ duplicate tracker missing', s.tracker.noteSeen p.sendSeq p.resent = some (duplicate, tracker) ∧
      Inv { s with
        tracker := tracker
        delivered := s.delivered ++ [p.data]
        passedOn := if duplicate then s.passedOn else s.passedOn ++ [p.data] } live lo missing' ∧
      missing ≤ missing' ∧ missing' ≤ missing + trackerBits := by
  obtain ⟨n, hn, heq⟩ := h.network p hp
  have hdata : p.data = n := by
    rw [heq]
    rfl
  have hseq : p.sendSeq = n % 2 ^ 32 := by
    rw [heq]
    rfl
  have hmissing : s.missing = missing := tracks_missing h.tracker
  rw [hmissing, hdata] at htimely
  rw [hdata, hseq]
  have hgot : (fun k => k ∈ s.delivered ++ [n]) = fun k => k ∈ s.delivered ∨ k = n := by
    funext k
    rw [List.mem_append, List.mem_singleton]
  -- what does not depend on the answer of the tracker
  have hrest : ∀ {duplicate : Bool} {tracker : PacketTracker} {missing' : ℕ},
      (duplicate = true ↔ n ∈ s.delivered) →
      tracker.Tracks (fun k => k ∈ s.delivered ∨ k = n) missing' →
      Inv { s with
        tracker := tracker
        delivered := s.delivered ++ [n]
        passedOn := if duplicate then s.passedOn else s.passedOn ++ [n] } live lo missing' := by
    intro duplicate tracker missing' hduplicate htracks
    refine ⟨h.sender, ?_, ?_, ?_, h.network, ?_, ?_, ?_⟩
    · dsimp only
      rw [hgot]
      exact htracks
    · intro k hk hnot
      exact List.mem_append_left _ (h.released k hk hnot)
    · intro k hk
      rcases List.mem_append.mp hk with hk | hk
      · exact h.delivered k hk
      · rw [List.mem_singleton.mp hk]
        exact hn
    · intro q hq
      obtain ⟨hmax, got, hseen, hsub⟩ := h.permits q hq
      exact ⟨hmax, got, hseen, fun k hk => List.mem_append_left _ (hsub k hk)⟩
    · dsimp only
      split_ifs with hc
      · exact h.passedOn
      · -- a new packet was not passed on before
        rw [List.nodup_append]
        refine ⟨h.passedOn, List.nodup_singleton n, ?_⟩
        intro a ha b hb hab
        rw [List.mem_singleton.mp hb] at hab
        exact hc (hduplicate.mpr (hab ▸ h.came a ha))
    · dsimp only
      intro k hk
      split_ifs at hk with hc
      · exact List.mem_append_left _ (h.came k hk)
      · rcases List.mem_append.mp hk with hk | hk
        · exact List.mem_append_left _ (h.came k hk)
        · exact List.mem_append_right _ hk
  rcases le_or_gt missing n with hge | hlt
  · obtain ⟨duplicate, tracker, missing', hrun, hduplicate, htracks, hle, hbound⟩ :=
      PacketTracker.noteSeen_window h.tracker hge (h.near hn) p.resent
    exact ⟨duplicate, tracker, missing', hrun, hrest hduplicate htracks, hle, hbound⟩
  · -- behind the first missing packet: only a packet that was sent again
    have hresent : p.resent = true := by
      by_contra hcon
      rw [if_neg hcon] at htimely
      omega
    rw [if_pos hresent] at htimely
    have hcame : n ∈ s.delivered := h.tracker.below n hlt
    refine ⟨true, s.tracker, missing, ?_, hrest (iff_of_true rfl hcame) ?_, le_refl _,
      Nat.le_add_right _ _⟩
    · rw [hresent]
      exact PacketTracker.noteSeen_resent h.tracker hlt htimely
    · have hsame : (fun k => k ∈ s.delivered ∨ k = n) = fun k => k ∈ s.delivered := by
        funext k
        refine propext (or_iff_left_of_imp ?_)
        rintro rfl
        exact hcame
      rw [hsame]
      exact h.tracker

/-- A step in which nothing comes too late succeeds and keeps the invariant. -/
theorem Inv.step (h : Inv s live lo missing) (opts : ResendOptions) {e : Event}
    (henabled : s.Enabled e) (htimely : s.Timely e) :
    ∃ s' live' lo' missing', s.step opts e = some s' ∧ Inv s' live' lo' missing' ∧
      missing ≤ missing' ∧ missing' ≤ missing + trackerBits := by
  have hsame : missing ≤ missing ∧ missing ≤ missing + trackerBits :=
    ⟨le_refl _, Nat.le_add_right _ _⟩
  cases e with
  | request => exact ⟨_, live, lo, missing, rfl, h.request, hsame⟩
  | grant flowSeq maxData => exact ⟨_, live, lo, missing, rfl, h.grant flowSeq henabled, hsame⟩
  | permit p expired available =>
    obtain ⟨sender, written, live', lo', hrun, hinv⟩ :=
      h.permit henabled opts expired available htimely
    refine ⟨_, live', lo', missing, ?_, hinv, hsame⟩
    unfold Link.step
    dsimp only
    rw [hrun]
    rfl
  | deliver p =>
    obtain ⟨duplicate, tracker, missing', hrun, hinv, hle⟩ := h.deliver henabled htimely
    refine ⟨_, live, lo, missing', ?_, hinv, hle⟩
    unfold Link.step
    dsimp only
    rw [hrun]
    rfl

theorem TimelyRun.inv (h : TimelyRun opts s) : ∃ live lo missing, Inv s live lo missing := by
  induction h with
  | new => exact ⟨∅, 0, 0, inv_new⟩
  | step _ henabled htimely hstep ih =>
    obtain ⟨live, lo, missing, hinv⟩ := ih
    obtain ⟨s', live', lo', missing', hrun, hinv', -⟩ := hinv.step opts henabled htimely
    rw [hstep, Option.some_inj] at hrun
    rw [hrun]
    exact ⟨live', lo', missing', hinv'⟩

/-- **The tracking is exact as long as nothing comes too late**: every packet is passed on at most
once and released only when it was delivered, no step fails and the tracker does not go back. -/
theorem exactlyOnce_of_timely (h : TimelyRun opts s) :
    s.ExactlyOnce ∧ ∀ e, s.Enabled e → s.Timely e →
      ∃ s', s.step opts e = some s' ∧ s.Forward s' := by
  obtain ⟨live, lo, missing, hinv⟩ := h.inv
  refine ⟨hinv.exactlyOnce, ?_⟩
  intro e henabled htimely
  obtain ⟨s', live', lo', missing', hrun, hinv', hle, hbound⟩ :=
    hinv.step opts henabled htimely
  refine ⟨s', hrun, ?_⟩
  unfold trackerBits at hbound
  unfold Forward
  rw [hinv.tracker.base, hinv'.tracker.base, unsignedSub_of_le hle (by omega)]
  omega

/-- What the sender and the receiver use by default. -/
def defaultOptions : ResendOptions := ⟨true, false⟩

/-- A permit for one packet, given before anything came. -/
def firstPermit : Permit := ⟨0, 1, .new, 0⟩

theorem exactlyOnce_of_timely_first : ∃ s : Link, s.passedOn = [0] ∧ s.ExactlyOnce ∧
    ∀ e, s.Enabled e → s.Timely e → ∃ s', s.step defaultOptions e = some s' ∧ s.Forward s' := by
  have hgrant : TimelyRun defaultOptions _ :=
    .step .new (e := .grant 0 1) (by decide : 1 ≤ trackerBits) trivial rfl
  have hpermit : TimelyRun defaultOptions _ :=
    .step hgrant (e := .permit firstPermit (fun _ => false) 1) (List.mem_singleton.mpr rfl)
      (fun _ => Nat.zero_le _) rfl
  have hdeliver : TimelyRun defaultOptions _ :=
    .step hpermit (e := .deliver (sentAs 0 false)) (List.mem_singleton.mpr rfl)
      (le_refl 0) rfl
  exact ⟨_, rfl, exactlyOnce_of_timely hdeliver⟩

/-- The network duplicates the first packet, and it is passed on twice: the second one is taken
for the first packet of a sender that has restarted. -/
theorem duplicated_not_exactlyOnce : ¬∀ s : Link, Run defaultOptions s → s.ExactlyOnce := by
  intro h
  have hgrant : Run defaultOptions _ :=
    .step .new (e := .grant 0 1) (by decide : 1 ≤ trackerBits) rfl
  have hpermit : Run defaultOptions _ :=
    .step hgrant (e := .permit firstPermit (fun _ => false) 1) (List.mem_singleton.mpr rfl) rfl
  have hfirst : Run defaultOptions _ :=
    .step hpermit (e := .deliver (sentAs 0 false)) (List.mem_singleton.mpr rfl) rfl
  have hsecond : Run defaultOptions _ :=
    .step hfirst (e := .deliver (sentAs 0 false)) (List.mem_singleton.mpr rfl) rfl
  have hnodup := (h _ hsecond).passedOn
  change [0, 0].Nodup at hnodup
  exact absurd hnodup (by decide)

end Link

end Udp
