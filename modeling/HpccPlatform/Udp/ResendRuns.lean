import HpccPlatform.Udp.ExactlyOnce

/-!
# Runs of the resend list

What holds of `UdpResendList` between any two calls of `sendData`, with any permits: its packets
are in their places within one window, the first of which is used, and the next call neither
throws nor drops a packet that was not seen.
-/

namespace Udp

open UdpResendList (Keeps)

namespace UdpResendList

variable {l l' : UdpResendList}

/-! ### What is sent again -/

/-- What the loop sends is on the list, was not seen, and comes in the order of the numbers. -/
theorem noteReadLoop_sends {seen : PacketTracker} {sendAll : Bool} {due : ℕ → Bool}
    {fuel base d checked space : ℕ} {toSend : List Packet}
    (h : noteReadLoop seen sendAll due fuel l ((base + d) % 2 ^ 32) checked space
      = some (l', toSend)) (hfuel : d + fuel ≤ 2 ^ 32) :
    toSend.Pairwise (fun p q =>
      unsignedSub p.sendSeq (base % 2 ^ 32) < unsignedSub q.sendSeq (base % 2 ^ 32)) ∧
    ∀ p ∈ toSend, l.entries (p.sendSeq % trackerBits) = some p ∧
      seen.hasSeen p.sendSeq = false ∧ d ≤ unsignedSub p.sendSeq (base % 2 ^ 32) := by
  induction fuel generalizing l d checked space toSend with
  | zero => cases h
  | succ fuel ih =>
    have hnext : ((base + d) % 2 ^ 32 + 1) % 2 ^ 32 = (base + (d + 1)) % 2 ^ 32 :=
      Nat.mod_add_mod (base + d) _ 1
    have hfuel' : d + 1 + fuel ≤ 2 ^ 32 := by omega
    have hdiff : unsignedSub ((base + d) % 2 ^ 32) (base % 2 ^ 32) = d := by
      rw [unsignedSub_of_le (Nat.le_add_right base d) (by omega), Nat.add_sub_cancel_left]
    unfold noteReadLoop at h
    rw [hnext] at h
    by_cases hgo : checked < l.count ∧ (space ≠ 0 ∨ sendAll = true)
    · rw [if_pos hgo] at h
      cases hentry : l.entries ((base + d) % 2 ^ 32 % trackerBits) with
      | none =>
        rw [hentry] at h
        obtain ⟨hpairs, hall⟩ := ih h hfuel'
        refine ⟨hpairs, fun p hp => ?_⟩
        obtain ⟨hstored, hunseen, hle⟩ := hall p hp
        exact ⟨hstored, hunseen, Nat.le_of_succ_le hle⟩
      | some buf =>
        rw [hentry] at h
        dsimp only at h
        split_ifs at h with hseq hseen
        · -- released
          obtain ⟨hpairs, hall⟩ := ih h hfuel'
          refine ⟨hpairs, fun p hp => ?_⟩
          obtain ⟨hstored, hunseen, hle⟩ := hall p hp
          refine ⟨?_, hunseen, Nat.le_of_succ_le hle⟩
          dsimp only at hstored
          by_cases hidx : p.sendSeq % trackerBits = (base + d) % 2 ^ 32 % trackerBits
          · rw [hidx, Function.update_self] at hstored
            cases hstored
          · rwa [Function.update_of_ne hidx] at hstored
        · -- sent again
          obtain ⟨⟨l₁, rest⟩, hrun, hret⟩ := Option.map_eq_some_iff.mp h
          cases hret
          obtain ⟨hpairs, hall⟩ := ih hrun hfuel'
          have hbuf : buf.sendSeq = (base + d) % 2 ^ 32 := not_not.mp hseq
          refine ⟨List.pairwise_cons.mpr ⟨fun q hq => ?_, hpairs⟩, fun p hp => ?_⟩
          · rw [hbuf, hdiff]
            exact (hall q hq).2.2
          · rcases List.mem_cons.mp hp with rfl | hp
            · refine ⟨?_, Bool.eq_false_iff.mpr hseen, ?_⟩
              · rwa [hbuf]
              · rw [hbuf, hdiff]
            · obtain ⟨hstored, hunseen, hle⟩ := hall p hp
              exact ⟨hstored, hunseen, Nat.le_of_succ_le hle⟩
        · -- sent not long ago
          obtain ⟨hpairs, hall⟩ := ih h hfuel'
          refine ⟨hpairs, fun p hp => ?_⟩
          obtain ⟨hstored, hunseen, hle⟩ := hall p hp
          exact ⟨hstored, hunseen, Nat.le_of_succ_le hle⟩
    · rw [if_neg hgo] at h
      cases h
      exact ⟨List.Pairwise.nil, fun p hp => by cases hp⟩

theorem noteRead_sends {opts : ResendOptions} {expired : ℕ → Bool} {seen : PacketTracker}
    {space lo : ℕ} {toSend : List Packet} (hfirst : l.count ≠ 0 → l.first = lo % 2 ^ 32)
    (h : noteRead opts expired l seen space = some (l', toSend)) :
    toSend.Pairwise (fun p q => unsignedSub p.sendSeq l.first < unsignedSub q.sendSeq l.first) ∧
    ∀ p ∈ toSend, l.entries (p.sendSeq % trackerBits) = some p ∧
      seen.hasSeen p.sendSeq = false := by
  unfold noteRead at h
  split_ifs at h with hzero
  · cases h
    exact ⟨List.Pairwise.nil, fun p hp => by cases hp⟩
  · obtain ⟨⟨after, sent⟩, hloop, hret⟩ := Option.bind_eq_some_iff.mp h
    have hsent : sent = toSend := by
      dsimp only at hret
      split_ifs at hret
      · obtain ⟨first, -, hret⟩ := Option.bind_eq_some_iff.mp hret
        cases hret
        rfl
      · cases hret
        rfl
    subst hsent
    rw [hfirst hzero] at hloop ⊢
    obtain ⟨hpairs, hall⟩ := @noteReadLoop_sends l after seen
      (space = 0 || opts.resendAllMissingPackets) (isDue opts seen expired) (trackerBits + 1) lo 0 0
      space sent hloop (by decide)
    exact ⟨hpairs, fun p hp => ⟨(hall p hp).1, (hall p hp).2.1⟩⟩

/-! ### The first entry -/

/-- The first place of a list that is not empty is used. -/
def FirstStored (l : UdpResendList) : Prop :=
  l.count ≠ 0 → (l.entries (l.first % trackerBits)).isSome = true

theorem skipReleased_stored {entries : ℕ → Option Packet} {fuel first first' : ℕ}
    (h : skipReleased entries fuel first = some first') :
    (entries (first' % trackerBits)).isSome = true := by
  induction fuel generalizing first with
  | zero => cases h
  | succ fuel ih =>
    unfold skipReleased at h
    split_ifs at h with hnone
    · exact ih h
    · cases h
      exact Option.isSome_iff_ne_none.mpr (fun hc => hnone (Option.isNone_iff_eq_none.mpr hc))

/-- `first` is moved when packets were released; otherwise nothing has changed. -/
theorem noteRead_firstStored {opts : ResendOptions} {expired : ℕ → Bool} {seen : PacketTracker}
    {space lo : ℕ} {live : Finset ℕ} (hkeeps : Keeps l live lo)
    (hfirst : live.Nonempty → l.first = lo % 2 ^ 32) (hstored : l.FirstStored)
    {toSend : List Packet} (h : noteRead opts expired l seen space = some (l', toSend)) :
    l'.FirstStored := by
  obtain ⟨_, _, live', lo', hrun, hkeeps', hsub, hfirst', hge, -, -, -⟩ :=
    noteRead_spec opts expired seen space hkeeps hfirst
  rw [h] at hrun
  cases hrun
  intro hcount
  have hne' : live'.Nonempty := by
    rw [← Finset.card_ne_zero, ← hkeeps'.count]
    exact hcount
  by_cases hsame : l'.count = l.count
  · rw [hkeeps.count, hkeeps'.count] at hsame
    have hlive : live' = live := Finset.eq_of_subset_of_card_le hsub (Nat.le_of_eq hsame.symm)
    subst hlive
    have hlist : l.count ≠ 0 := by
      rw [hkeeps.count]
      exact Finset.card_ne_zero.mpr hne'
    -- the first place of the old list has a packet, so the window has not moved
    have hmem : lo ∈ live' := by
      have hsome := hstored hlist
      rw [hfirst hne', hkeeps.entries_eq ⟨le_refl lo, Nat.lt_add_of_pos_right (by decide)⟩] at hsome
      by_contra hnot
      rw [if_neg hnot] at hsome
      cases hsome
    have hlo : lo' = lo := le_antisymm (hkeeps'.range lo hmem).1 hge
    rw [hfirst' hne', hkeeps'.entries_eq ⟨le_refl lo', Nat.lt_add_of_pos_right (by decide)⟩, hlo,
      if_pos hmem]
    rfl
  · unfold noteRead at h
    split_ifs at h with hzero
    · cases h
      exact absurd rfl hsame
    · obtain ⟨⟨after, sent⟩, -, hret⟩ := Option.bind_eq_some_iff.mp h
      dsimp only at hret
      split_ifs at hret with hmove
      · obtain ⟨first, hskip, hret⟩ := Option.bind_eq_some_iff.mp hret
        cases hret
        exact skipReleased_stored hskip
      · cases hret
        exact absurd ⟨hsame, hcount⟩ hmove

theorem append_firstStored {buf : Packet} (hstored : l.FirstStored)
    (h : l.append buf = some l') : l'.FirstStored := by
  unfold append at h
  dsimp only at h
  split_ifs at h with hzero hfar hused hfar hused
  · cases h
    intro _
    dsimp only
    rw [Function.update_self]
    rfl
  · cases h
    intro _
    dsimp only
    by_cases hidx : l.first % trackerBits = buf.sendSeq % trackerBits
    · rw [hidx, Function.update_self]
      rfl
    · rw [Function.update_of_ne hidx]
      exact hstored hzero

theorem appendAll_firstStored {packets : List Packet} (hstored : l.FirstStored)
    (h : Sender.appendAll packets l = some l') : l'.FirstStored := by
  induction packets generalizing l with
  | nil =>
    cases h
    exact hstored
  | cons p packets ih =>
    obtain ⟨l₁, happend, hrest⟩ := Option.bind_eq_some_iff.mp h
    exact ih (append_firstStored hstored happend) hrest

end UdpResendList

namespace Sender

variable {s s' : Sender} {live : Finset ℕ} {lo : ℕ}

/-! ### Runs -/

/-- The states of a sender between its calls. -/
inductive Run : Sender → Prop
  | new : Run Sender.new
  | request {s : Sender} : Run s → Run s.nextFlowSequence
  | send {s s' : Sender} {opts : ResendOptions} {expired : ℕ → Bool} {available : ℕ}
    {permit : Permit} {written : List Packet} : Run s → permit.maxData ≤ trackerBits →
    s.sendData opts expired available permit = some (s', written) → Run s'

/-- The list counts its packets, and has them in their places within one window, from the first
that is still there to the last that was sent. -/
structure WindowKept (s : Sender) : Prop where
  count : s.resendList.count =
    ((Finset.range trackerBits).filter fun idx => (s.resendList.entries idx).isSome).card
  entries : ∀ idx p, s.resendList.entries idx = some p →
    idx < trackerBits ∧ p.sendSeq % trackerBits = idx ∧
    unsignedSub p.sendSeq s.resendList.first <
      unsignedSub s.nextSendSequence s.resendList.first
  window : s.resendList.count ≠ 0 →
    unsignedSub s.nextSendSequence s.resendList.first ≤ trackerBits
  first : s.resendList.FirstStored

theorem sendData_firstStored {opts : ResendOptions} {expired : ℕ → Bool} {available : ℕ}
    {permit : Permit} {written : List Packet} (h : Holds s live lo)
    (hstored : s.resendList.FirstStored)
    (hsend : s.sendData opts expired available permit = some (s', written)) :
    s'.resendList.FirstStored := by
  unfold sendData at hsend
  split_ifs at hsend
  · cases hsend
    exact hstored
  · obtain ⟨⟨l, toSend⟩, hread, hsend⟩ := Option.bind_eq_some_iff.mp hsend
    obtain ⟨maxPackets, -, hsend⟩ := Option.bind_eq_some_iff.mp hsend
    obtain ⟨l₁, happend, hsend⟩ := Option.bind_eq_some_iff.mp hsend
    cases hsend
    exact UdpResendList.appendAll_firstStored
      (UdpResendList.noteRead_firstStored h.keeps h.first hstored hread) happend

theorem holds_new : Holds Sender.new ∅ 0 where
  next := rfl
  keeps := UdpResendList.keeps_new 0
  first := fun _ => rfl
  live_lt := by
    intro n hn
    cases hn
  lo_le := le_refl 0
  window := by
    rintro ⟨n, hn⟩
    cases hn

theorem Run.holds (h : Run s) : ∃ live lo, Holds s live lo ∧ s.resendList.FirstStored := by
  induction h with
  | new => exact ⟨∅, 0, holds_new, fun hc => absurd rfl hc⟩
  | request _ ih =>
    obtain ⟨live, lo, hholds, hstored⟩ := ih
    exact ⟨live, lo, ⟨hholds.next, hholds.keeps, hholds.first, hholds.live_lt, hholds.lo_le,
      hholds.window⟩, hstored⟩
  | @send s s' opts expired available permit written _ hmax hsend ih =>
    obtain ⟨live, lo, hholds, hstored⟩ := ih
    obtain ⟨_, _, live', lo', hrun, hholds', -, -, -⟩ :=
      sendData_spec opts expired available hholds permit hmax
    rw [hsend] at hrun
    cases hrun
    exact ⟨live', lo', hholds', sendData_firstStored hholds hstored hsend⟩

/-- A packet on the list is the one with its number. -/
theorem Holds.entry (h : Holds s live lo) {idx : ℕ} {p : Packet}
    (hp : s.resendList.entries idx = some p) :
    p.data ∈ live ∧ p = sentAs p.data true ∧ p.data % trackerBits = idx := by
  obtain ⟨hmem, hidx⟩ := h.keeps.only idx p hp
  have hentry := h.keeps.entry p.data hmem
  rw [hidx, hp] at hentry
  exact ⟨hmem, Option.some.inj hentry, hidx⟩

theorem Holds.count_eq (h : Holds s live lo) : s.resendList.count =
    ((Finset.range trackerBits).filter fun idx => (s.resendList.entries idx).isSome).card := by
  have himage : ((Finset.range trackerBits).filter fun idx => (s.resendList.entries idx).isSome)
      = live.image (· % trackerBits) := by
    ext idx
    rw [Finset.mem_filter, Finset.mem_image, Option.isSome_iff_exists]
    constructor
    · rintro ⟨-, p, hp⟩
      obtain ⟨hmem, -, hidx⟩ := h.entry hp
      exact ⟨p.data, hmem, hidx⟩
    · rintro ⟨n, hn, rfl⟩
      exact ⟨Finset.mem_range.mpr (Nat.mod_lt _ (by decide)), _, h.keeps.entry n hn⟩
  rw [himage, Finset.card_image_of_injOn, h.keeps.count]
  intro n hn m hm heq
  exact UdpResendList.eq_of_mod (h.keeps.range n hn) (h.keeps.range m hm) heq

theorem Holds.windowKept (h : Holds s live lo) (hstored : s.resendList.FirstStored) :
    s.WindowKept where
  count := h.count_eq
  entries := by
    intro idx p hp
    obtain ⟨hmem, hp, hidx⟩ := h.entry hp
    have hrange := h.keeps.range _ hmem
    have hlt := h.live_lt _ hmem
    have hwindow := h.window ⟨_, hmem⟩
    have hwide : trackerBits < 2 ^ 32 := by decide
    rw [h.first ⟨_, hmem⟩, h.next, unsignedSub_of_le h.lo_le (by omega), hp]
    dsimp only [sentAs]
    rw [unsignedSub_of_le hrange.1 (by omega), UdpResendList.mod_mod_trackerBits, ← hidx]
    exact ⟨Nat.mod_lt _ (by decide), rfl, Nat.sub_lt_sub_right hrange.1 hlt⟩
  window := by
    intro hcount
    have hne : live.Nonempty := by
      rw [← Finset.card_ne_zero, ← h.keeps.count]
      exact hcount
    have hwindow := h.window hne
    have hwide : trackerBits < 2 ^ 32 := by decide
    rw [h.first hne, h.next, unsignedSub_of_le h.lo_le (by omega)]
    omega
  first := hstored

/-- **The list keeps its window** in every run of `sendData`: between the calls it is well formed,
and no call throws, sends a packet out of turn or drops one that was not seen. -/
theorem run_windowKept (h : Run s) :
    s.WindowKept ∧ ∀ opts expired available (permit : Permit), permit.maxData ≤ trackerBits →
      (∃ l toSend, s.resendList.noteRead opts expired permit.seen permit.maxData
          = some (l, toSend) ∧
        toSend.Pairwise (fun p q => unsignedSub p.sendSeq s.resendList.first <
          unsignedSub q.sendSeq s.resendList.first) ∧
        ∀ p ∈ toSend, s.resendList.entries (p.sendSeq % trackerBits) = some p ∧
          permit.seen.hasSeen p.sendSeq = false) ∧
      ∃ s' written, s.sendData opts expired available permit = some (s', written) ∧
        s'.WindowKept ∧
        ∀ idx p, s.resendList.entries idx = some p → s'.resendList.entries idx = some p ∨
          permit.flowSeq = s.activeFlowSequence ∧ permit.seen.hasSeen p.sendSeq = true := by
  obtain ⟨live, lo, hholds, hstored⟩ := h.holds
  refine ⟨hholds.windowKept hstored, fun opts expired available permit hmax => ⟨?_, ?_⟩⟩
  · obtain ⟨l, toSend, _, _, hread, -⟩ :=
      UdpResendList.noteRead_spec opts expired permit.seen permit.maxData hholds.keeps hholds.first
    have hfirst : s.resendList.count ≠ 0 → s.resendList.first = lo % 2 ^ 32 := by
      intro hcount
      refine hholds.first ?_
      rw [← Finset.card_ne_zero, ← hholds.keeps.count]
      exact hcount
    exact ⟨l, toSend, hread, UdpResendList.noteRead_sends hfirst hread⟩
  · obtain ⟨s', written, live', lo', hsend, hholds', hmore, hreleased, -⟩ :=
      sendData_spec opts expired available hholds permit hmax
    refine ⟨s', written, hsend,
      hholds'.windowKept (sendData_firstStored hholds hstored hsend), fun idx p hp => ?_⟩
    obtain ⟨hmem, heq, hidx⟩ := hholds.entry hp
    by_cases hmem' : p.data ∈ live'
    · left
      rw [heq, ← hidx]
      exact hholds'.keeps.entry _ hmem'
    · right
      have hlt := (hholds.live_lt _ hmem).trans_le hmore
      obtain ⟨hflow, hseen⟩ := (hreleased _ hlt hmem').2.resolve_left (not_not.mpr hmem)
      rw [heq]
      exact ⟨hflow, hseen⟩

/-- The first permit is for two packets. -/
theorem run_windowKept_first : ∃ s : Sender, s.resendList.count = 2 ∧ s.WindowKept := by
  have hsend : Run _ :=
    @Run.send _ _ ⟨true, false⟩ (fun _ => false) 2 ⟨0, 2, .new, 0⟩ _ .new (by decide) rfl
  exact ⟨_, rfl, (run_windowKept hsend).1⟩

end Sender

end Udp
