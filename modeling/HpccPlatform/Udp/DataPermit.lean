import HpccPlatform.Udp.FlowControl

/-!
# The permit of a data packet

A new data packet lowers what is reserved by the permit it was sent under (`decPermit` of
`roxie/udplib/udptrr.cpp`).  The sender numbers its packets to a receiver by `sendSeq`, and a permit
has the number that was next when it was asked for; but the number that is looked up is `msgSeq`,
which counts the messages of the sender to all receivers.
-/

namespace Udp

/-- The numbers in the `UdpPacketHeader` of a data packet. -/
structure DataPacketHeader where
  msgSeq : ℕ
  sendSeq : ℕ
  resent : Bool

/-- One reservation less; the count may go below zero. -/
def SendPermit.fetchSub (p : SendPermit) : SendPermit :=
  { p with numPackets := (p.numPackets + (2 ^ 32 - 1)) % 2 ^ 32 }

theorem SendPermit.fetchSub_ne (p : SendPermit) : p.fetchSub ≠ p := by
  intro h
  unfold fetchSub at h
  have hnum := congrArg SendPermit.numPackets h
  dsimp only at hnum
  omega

/-- What the data thread uses of a sender. -/
structure DataEntry extends UdpSenderEntry where
  packetsSeen : PacketTracker
  lastDataPermit : Fin maxPermitsPerSender

namespace DataEntry

def noteSeen (resendLostPackets : Bool) (e : DataEntry) (hdr : DataPacketHeader) :
    Option (Bool × DataEntry) :=
  if resendLostPackets then
    (e.packetsSeen.noteSeen hdr.sendSeq hdr.resent).map fun r => (r.1, { e with packetsSeen := r.2 })
  else some (false, e)

def fetchSub (e : DataEntry) (i : Fin maxPermitsPerSender) : DataEntry :=
  { e with permits := Function.update e.permits i (e.permits i).fetchSub }

/-- How far a number is behind the one of the permit; as an `int`, it is negative from `2 ^ 31`
on. -/
def delta (e : DataEntry) (seq : ℕ) (i : Fin maxPermitsPerSender) : ℕ :=
  unsignedSub seq (e.permits i).sendSeq

/-- The body of the loop over the permits, with `bestPermit` and `bestDelta`. -/
def searchStep (e : DataEntry) (msgSeq : ℕ) (best : Option (Fin maxPermitsPerSender) × ℕ)
    (i : Fin maxPermitsPerSender) : Option (Fin maxPermitsPerSender) × ℕ :=
  if (e.permits i).isActive ∧ e.delta msgSeq i < 2 ^ 31 ∧ e.delta msgSeq i < best.2 then
    (some i, e.delta msgSeq i)
  else best

def decPermit (e : DataEntry) (msgSeq : ℕ) : DataEntry :=
  if (e.permits e.lastDataPermit).isActive ∧ e.delta msgSeq e.lastDataPermit < 2 ^ 31 then
    e.fetchSub e.lastDataPermit
  else
    match ((List.finRange maxPermitsPerSender).foldl (e.searchStep msgSeq) (none, 2 ^ 31 - 1)).1 with
    | some i => { e.fetchSub i with lastDataPermit := i }
    | none => e

/-- A data packet in `receive_data`. -/
def receiveData (resendLostPackets : Bool) (e : DataEntry) (hdr : DataPacketHeader) :
    Option DataEntry :=
  (e.noteSeen resendLostPackets hdr).map fun r => if r.1 then r.2 else r.2.decPermit hdr.msgSeq

/-! ### The search -/

variable {e e' : DataEntry} {seq msgSeq sendSeq : ℕ} {i j : Fin maxPermitsPerSender}

/-- The permit is active and its number is not after `seq`. -/
def Qualifies (e : DataEntry) (seq : ℕ) (i : Fin maxPermitsPerSender) : Prop :=
  (e.permits i).isActive ∧ e.delta seq i < 2 ^ 31

/-- No permit that qualifies has a later number. -/
def Own (e : DataEntry) (seq : ℕ) (i : Fin maxPermitsPerSender) : Prop :=
  e.Qualifies seq i ∧ ∀ j, e.Qualifies seq j → e.delta seq i ≤ e.delta seq j

/-- The search leaves out what is `INT_MAX` behind. -/
def Searched (e : DataEntry) (seq : ℕ) (i : Fin maxPermitsPerSender) : Prop :=
  (e.permits i).isActive ∧ e.delta seq i < 2 ^ 31 - 1

/-- One of the permits that the search may find. -/
def Found (e : DataEntry) (seq : ℕ) (i : Fin maxPermitsPerSender) : Prop :=
  e.Searched seq i ∧ ∀ j, e.Searched seq j → e.delta seq i ≤ e.delta seq j

theorem foldl_searchStep (l seen : List (Fin maxPermitsPerSender))
    {best : Option (Fin maxPermitsPerSender) × ℕ}
    (hmin : ∀ j ∈ seen, e.Searched msgSeq j → best.2 ≤ e.delta msgSeq j)
    (hbest : best = (none, 2 ^ 31 - 1) ∨ ∃ i, e.Searched msgSeq i ∧
      best = (some i, e.delta msgSeq i)) :
    (∀ j ∈ seen ++ l, e.Searched msgSeq j →
      (l.foldl (e.searchStep msgSeq) best).2 ≤ e.delta msgSeq j) ∧
    (l.foldl (e.searchStep msgSeq) best = (none, 2 ^ 31 - 1) ∨ ∃ i, e.Searched msgSeq i ∧
      l.foldl (e.searchStep msgSeq) best = (some i, e.delta msgSeq i)) := by
  induction l generalizing seen best with
  | nil =>
    rw [List.append_nil]
    exact ⟨hmin, hbest⟩
  | cons k l ih =>
    rw [List.foldl_cons, ← List.singleton_append, ← List.append_assoc]
    have hbound : best.2 ≤ 2 ^ 31 - 1 := by
      rcases hbest with rfl | ⟨i, hi, rfl⟩
      · exact le_refl _
      · exact hi.2.le
    unfold searchStep
    split_ifs with hbetter
    · obtain ⟨hactive, -, hless⟩ := hbetter
      refine ih (seen ++ [k]) ?_ (Or.inr ⟨k, ⟨hactive, hless.trans_le hbound⟩, rfl⟩)
      intro j hj hsearched
      rcases List.mem_append.mp hj with hj | hj
      · exact hless.le.trans (hmin j hj hsearched)
      · rw [List.mem_singleton.mp hj]
    · refine ih (seen ++ [k]) ?_ hbest
      intro j hj hsearched
      rcases List.mem_append.mp hj with hj | hj
      · exact hmin j hj hsearched
      · rw [List.mem_singleton.mp hj] at hsearched ⊢
        by_contra hless
        exact hbetter ⟨hsearched.1, hsearched.2.trans (by decide), not_le.mp hless⟩

/-- The search finds a permit with the latest number, if there is one to find. -/
theorem search_cases (e : DataEntry) (msgSeq : ℕ) :
    (((List.finRange maxPermitsPerSender).foldl (e.searchStep msgSeq) (none, 2 ^ 31 - 1)).1 = none ∧
      ∀ i, ¬e.Searched msgSeq i) ∨
    ∃ i, ((List.finRange maxPermitsPerSender).foldl (e.searchStep msgSeq)
      (none, 2 ^ 31 - 1)).1 = some i ∧ e.Found msgSeq i := by
  obtain ⟨hmin, hnone | ⟨i, hi, hsome⟩⟩ := @foldl_searchStep e msgSeq
    (List.finRange maxPermitsPerSender) [] (none, 2 ^ 31 - 1) (fun j hj => by cases hj) (Or.inl rfl)
  · refine Or.inl ⟨by rw [hnone], fun j hj => ?_⟩
    have hle := hmin j (List.mem_finRange j) hj
    rw [hnone] at hle
    exact absurd hj.2 (not_lt.mpr hle)
  · refine Or.inr ⟨i, by rw [hsome], hi, fun j hj => ?_⟩
    have hle := hmin j (List.mem_finRange j) hj
    rwa [hsome] at hle

/-! ### The permit that is lowered -/

/-- A packet lowers the permit with the latest number that is not after its own, and no other; when
there is none, nothing changes. -/
def ReleasesOwn (e : DataEntry) (sendSeq : ℕ) (e' : DataEntry) : Prop :=
  (∃ i, e.Own sendSeq i ∧ e'.permits = Function.update e.permits i (e.permits i).fetchSub) ∨
    (∀ i, ¬e.Qualifies sendSeq i) ∧ e'.permits = e.permits

/-- By the number of the message the permit of the packet is found: the last one, when it
qualifies, and else any that the search may find. -/
def FoundByMessage (e : DataEntry) (hdr : DataPacketHeader) : Prop :=
  (e.Qualifies hdr.msgSeq e.lastDataPermit ∧ e.Own hdr.sendSeq e.lastDataPermit) ∨
    ¬e.Qualifies hdr.msgSeq e.lastDataPermit ∧
      (∀ i, e.Found hdr.msgSeq i → e.Own hdr.sendSeq i) ∧
      ((∀ i, ¬e.Searched hdr.msgSeq i) → ∀ i, ¬e.Qualifies hdr.sendSeq i)

theorem releasesOwn_update_iff
    (h : e'.permits = Function.update e.permits i (e.permits i).fetchSub) :
    e.ReleasesOwn sendSeq e' ↔ e.Own sendSeq i := by
  constructor
  · rintro (⟨j, hown, hj⟩ | ⟨-, hsame⟩)
    · by_cases hij : i = j
      · rwa [hij]
      · have hat := congrFun (h.symm.trans hj) i
        rw [Function.update_self, Function.update_of_ne hij] at hat
        exact absurd hat (SendPermit.fetchSub_ne _)
    · have hat := congrFun (h.symm.trans hsame) i
      rw [Function.update_self] at hat
      exact absurd hat (SendPermit.fetchSub_ne _)
  · intro hown
    exact Or.inl ⟨i, hown, h⟩

theorem releasesOwn_same_iff (h : e'.permits = e.permits) :
    e.ReleasesOwn sendSeq e' ↔ ∀ i, ¬e.Qualifies sendSeq i := by
  constructor
  · rintro (⟨j, -, hj⟩ | ⟨hnone, -⟩)
    · have hat := congrFun (h.symm.trans hj) j
      rw [Function.update_self] at hat
      exact absurd hat.symm (SendPermit.fetchSub_ne _)
    · exact hnone
  · intro hnone
    exact Or.inr ⟨hnone, h⟩

/-- Permits with the same number are as good as each other. -/
theorem Found.own_iff (hi : e.Found msgSeq i) (hj : e.Found msgSeq j)
    (hrange : ∀ i, (e.permits i).sendSeq < 2 ^ 32) : e.Own sendSeq i ↔ e.Own sendSeq j := by
  have hdelta : e.delta msgSeq i = e.delta msgSeq j :=
    le_antisymm (hi.2 j hj.1) (hj.2 i hi.1)
  have hseq : (e.permits i).sendSeq = (e.permits j).sendSeq := by
    have hilt := hrange i
    have hjlt := hrange j
    unfold delta unsignedSub at hdelta
    omega
  have hactive : (e.permits i).isActive ↔ (e.permits j).isActive :=
    iff_of_true hi.1.1 hj.1.1
  unfold Own Qualifies delta
  rw [hseq, hactive]

theorem decPermit_releasesOwn_iff (e : DataEntry) (hdr : DataPacketHeader)
    (hrange : ∀ i, (e.permits i).sendSeq < 2 ^ 32) :
    e.ReleasesOwn hdr.sendSeq (e.decPermit hdr.msgSeq) ↔ e.FoundByMessage hdr := by
  unfold decPermit FoundByMessage
  by_cases hlast : e.Qualifies hdr.msgSeq e.lastDataPermit
  · have hfast : (e.permits e.lastDataPermit).isActive ∧
        e.delta hdr.msgSeq e.lastDataPermit < 2 ^ 31 := hlast
    rw [if_pos hfast, releasesOwn_update_iff rfl, or_iff_left (fun hc => hc.1 hlast)]
    exact (and_iff_right hlast).symm
  · have hslow : ¬((e.permits e.lastDataPermit).isActive ∧
        e.delta hdr.msgSeq e.lastDataPermit < 2 ^ 31) := hlast
    rw [if_neg hslow, or_iff_right (fun hc => hlast hc.1), and_iff_right hlast]
    rcases e.search_cases hdr.msgSeq with ⟨hnone, hall⟩ | ⟨i, hsome, hfound⟩
    · rw [hnone]
      dsimp only
      rw [releasesOwn_same_iff rfl]
      constructor
      · intro h
        exact ⟨fun i hi => absurd hi.1 (hall i), fun _ => h⟩
      · rintro ⟨-, h⟩
        exact h hall
    · rw [hsome]
      dsimp only
      rw [releasesOwn_update_iff rfl]
      constructor
      · intro hown
        exact ⟨fun j hj => (hfound.own_iff hj hrange).mp hown,
          fun hnone => absurd hfound.1 (hnone i)⟩
      · rintro ⟨h, -⟩
        exact h i hfound

/-- **A new packet lowers its own permit exactly if the number of its message leads to it.** -/
theorem receiveData_releasesOwn_iff {e e₁ : DataEntry} {hdr : DataPacketHeader}
    {resendLostPackets : Bool} (hnew : e.noteSeen resendLostPackets hdr = some (false, e₁))
    (hrange : ∀ i, (e.permits i).sendSeq < 2 ^ 32) :
    ∃ e', e.receiveData resendLostPackets hdr = some e' ∧
      (e.ReleasesOwn hdr.sendSeq e' ↔ e.FoundByMessage hdr) := by
  obtain ⟨t, rfl⟩ : ∃ t, e₁ = { e with packetsSeen := t } := by
    unfold noteSeen at hnew
    split_ifs at hnew
    · obtain ⟨r, -, hr⟩ := Option.map_eq_some_iff.mp hnew
      exact ⟨r.2, (Prod.mk.inj hr).2.symm⟩
    · exact ⟨e.packetsSeen, (Prod.mk.inj (Option.some.inj hnew)).2.symm⟩
  refine ⟨_, ?_, decPermit_releasesOwn_iff { e with packetsSeen := t } hdr hrange⟩
  unfold receiveData
  rw [hnew]
  rfl

/-- A sender with one permit for ten packets, asked for when 100 packets had been sent. -/
def onePermit : DataEntry where
  toUdpSenderEntry := { UdpSenderEntry.new with
    numPermits := 1
    permits := fun i => if i.val = 0 then ⟨1, 10, 100, 0⟩ else .revoked }
  packetsSeen := .new
  lastDataPermit := ⟨0, by decide⟩

theorem sendSeq_onePermit : ∀ i, (onePermit.permits i).sendSeq < 2 ^ 32 := by decide

/-- The first packet that is sent under the permit. -/
def firstData (msgSeq : ℕ) : DataPacketHeader := ⟨msgSeq, 100, false⟩

theorem receiveData_releasesOwn_later : ∃ e', onePermit.receiveData true (firstData 120) = some e' ∧
    (onePermit.ReleasesOwn 100 e' ↔ onePermit.FoundByMessage (firstData 120)) :=
  @receiveData_releasesOwn_iff onePermit _ (firstData 120) true rfl sendSeq_onePermit

/-- The packet is of the seventh message of its sender, and no permit is lowered. -/
theorem firstData_not_releasesOwn : ¬∀ (e e₁ e' : DataEntry) (hdr : DataPacketHeader)
    (resendLostPackets : Bool), e.noteSeen resendLostPackets hdr = some (false, e₁) →
    (∀ i, (e.permits i).sendSeq < 2 ^ 32) → e.receiveData resendLostPackets hdr = some e' →
    e.ReleasesOwn hdr.sendSeq e' := by
  intro h
  have hreleases := h onePermit _ (onePermit.decPermit 7) (firstData 7) false rfl sendSeq_onePermit rfl
  have hsame : (onePermit.decPermit 7).permits = onePermit.permits := rfl
  exact (releasesOwn_same_iff hsame).mp hreleases ⟨0, by decide⟩ ⟨by decide, by decide⟩

end DataEntry

end Udp
