import HpccPlatform.Udp.Tracker

/-!
# The packets a sender may have to send again

`UdpResendList` of `roxie/udplib/udptrs.cpp` keeps the packets that were sent and are not known to
have come, in a circular array by their sequence numbers.  `Keeps` says which packets these are
with numbers that do not wrap; they lie in a window of 1024.
-/

namespace Udp

/-- A packet between the two sides; `data` says which of the buffers of the sender it is. -/
structure Packet where
  data : ℕ
  sendSeq : ℕ
  resent : Bool
  deriving DecidableEq, Repr

/-- The packet of the buffer with number `n`. -/
def sentAs (n : ℕ) (resent : Bool) : Packet := ⟨n, n % 2 ^ 32, resent⟩

structure UdpResendList where
  entries : ℕ → Option Packet
  first : ℕ
  count : ℕ

/-- `udpResendAllMissingPackets` and `udpAssumeSequential` -/
structure ResendOptions where
  resendAllMissingPackets : Bool
  assumeSequential : Bool

namespace UdpResendList

def new : UdpResendList := ⟨fun _ => none, 0, 0⟩

/-- `append`; it throws when the packet is too far from the first one. -/
def append (l : UdpResendList) (buf : Packet) : Option UdpResendList :=
  let buf := { buf with resent := true }
  let first := if l.count = 0 then buf.sendSeq else l.first
  if l.count ≠ 0 ∧ trackerBits ≤ unsignedSub buf.sendSeq first then none
  else
    let idx := buf.sendSeq % trackerBits
    if (l.entries idx).isSome then none
    else some ⟨Function.update l.entries idx (some buf), first, l.count + 1⟩

/-- The loop of `noteRead`: packets that were seen are released, others that are due are sent. -/
def noteReadLoop (seen : PacketTracker) (sendAll : Bool) (due : ℕ → Bool) :
    ℕ → UdpResendList → ℕ → ℕ → ℕ → Option (UdpResendList × List Packet)
  | 0, _, _, _, _ => none
  | fuel + 1, l, seq, checked, space =>
    if checked < l.count ∧ (space ≠ 0 ∨ sendAll) then
      match l.entries (seq % trackerBits) with
      | none => noteReadLoop seen sendAll due fuel l ((seq + 1) % 2 ^ 32) checked space
      | some buf =>
        if buf.sendSeq ≠ seq then none
        else if seen.hasSeen buf.sendSeq then
          noteReadLoop seen sendAll due fuel
            { l with
              entries := Function.update l.entries (seq % trackerBits) none, count := l.count - 1 }
            ((seq + 1) % 2 ^ 32) checked space
        else if due seq then
          (noteReadLoop seen sendAll due fuel l ((seq + 1) % 2 ^ 32) (checked + 1)
            (unsignedSub space 1)).map (fun r => (r.1, buf :: r.2))
        else noteReadLoop seen sendAll due fuel l ((seq + 1) % 2 ^ 32) (checked + 1) space
    else some (l, [])

/-- The loop that moves `first` to a packet that is still there. -/
def skipReleased (entries : ℕ → Option Packet) : ℕ → ℕ → Option ℕ
  | 0, _ => none
  | fuel + 1, first =>
    if (entries (first % trackerBits)).isNone then skipReleased entries fuel ((first + 1) % 2 ^ 32)
    else some first

/-- Whether a packet that was not seen is sent again; `expired` says whether it was last sent
longer than `udpResendDelay` ago. -/
def isDue (opts : ResendOptions) (seen : PacketTracker) (expired : ℕ → Bool) (seq : ℕ) : Bool :=
  expired seq || (opts.assumeSequential && decide (2 ^ 31 ≤ unsignedSub seq seen.hwm))

/-- `noteRead`: the list and the packets to send. -/
def noteRead (opts : ResendOptions) (expired : ℕ → Bool) (l : UdpResendList)
    (seen : PacketTracker) (space : ℕ) : Option (UdpResendList × List Packet) :=
  if l.count = 0 then some (l, [])
  else do
    let sendAll := space = 0 || opts.resendAllMissingPackets
    let (after, toSend) ← noteReadLoop seen sendAll (isDue opts seen expired) (trackerBits + 1) l
      l.first 0 space
    -- some were released and some are left
    if after.count ≠ l.count ∧ after.count ≠ 0 then
      let first ← skipReleased after.entries (trackerBits + 1) after.first
      return ({ after with first := first }, toSend)
    else return (after, toSend)

/-! ### What a list stands for -/

variable {l : UdpResendList} {live : Finset ℕ} {lo n pos : ℕ}

/-- The list has the packets of `live`, all from `lo` on and in one window. -/
structure Keeps (l : UdpResendList) (live : Finset ℕ) (lo : ℕ) : Prop where
  entry : ∀ n ∈ live, l.entries (n % trackerBits) = some (sentAs n true)
  only : ∀ idx p, l.entries idx = some p → p.data ∈ live ∧ p.data % trackerBits = idx
  count : l.count = live.card
  range : ∀ n ∈ live, lo ≤ n ∧ n < lo + trackerBits

theorem keeps_new (lo : ℕ) : Keeps new ∅ lo where
  entry := by
    intro n hn
    cases hn
  only := by
    intro idx p hp
    cases hp
  count := rfl
  range := by
    intro n hn
    cases hn

/-- In one window a place belongs to one packet. -/
theorem eq_of_mod {m lo : ℕ} (hn : lo ≤ n ∧ n < lo + trackerBits)
    (hm : lo ≤ m ∧ m < lo + trackerBits) (h : n % trackerBits = m % trackerBits) : n = m := by
  unfold trackerBits at *
  omega

theorem mod_mod_trackerBits (n : ℕ) : n % 2 ^ 32 % trackerBits = n % trackerBits := by
  unfold trackerBits
  omega

/-- The place of a packet in the window has that packet or none. -/
theorem Keeps.entries_eq (h : Keeps l live lo) (hpos : lo ≤ pos ∧ pos < lo + trackerBits) :
    l.entries (pos % 2 ^ 32 % trackerBits) = if pos ∈ live then some (sentAs pos true) else none := by
  rw [mod_mod_trackerBits]
  by_cases hmem : pos ∈ live
  · rw [if_pos hmem]
    exact h.entry pos hmem
  · rw [if_neg hmem]
    cases hentry : l.entries (pos % trackerBits) with
    | none => rfl
    | some p =>
      obtain ⟨hlive, hslot⟩ := h.only _ _ hentry
      have heq := eq_of_mod (h.range p.data hlive) hpos hslot
      exact absurd (heq ▸ hlive) hmem

/-- A packet is released. -/
theorem Keeps.release (h : Keeps l live lo) (hmem : pos ∈ live) :
    Keeps { l with
      entries := Function.update l.entries (pos % 2 ^ 32 % trackerBits) none, count := l.count - 1 }
      (live.erase pos) lo := by
  refine ⟨?_, ?_, ?_, ?_⟩
  · intro n hn
    rw [Finset.mem_erase] at hn
    have hslot : n % trackerBits ≠ pos % 2 ^ 32 % trackerBits := by
      rw [mod_mod_trackerBits]
      exact fun heq => hn.1 (eq_of_mod (h.range n hn.2) (h.range pos hmem) heq)
    dsimp only
    rw [Function.update_of_ne hslot]
    exact h.entry n hn.2
  · intro idx p hp
    dsimp only at hp
    by_cases hidx : idx = pos % 2 ^ 32 % trackerBits
    · rw [hidx, Function.update_self] at hp
      cases hp
    · rw [Function.update_of_ne hidx] at hp
      obtain ⟨hlive, hslot⟩ := h.only idx p hp
      refine ⟨Finset.mem_erase.mpr ⟨?_, hlive⟩, hslot⟩
      intro heq
      rw [heq, ← mod_mod_trackerBits] at hslot
      exact hidx hslot.symm
  · rw [Finset.card_erase_of_mem hmem, ← h.count]
  · intro n hn
    exact h.range n (Finset.mem_of_mem_erase hn)

/-- A packet is added in its place. -/
theorem Keeps.insert (h : Keeps l live lo) (hnot : n ∉ live)
    (hn : lo ≤ n ∧ n < lo + trackerBits) (first : ℕ) :
    Keeps ⟨Function.update l.entries (n % 2 ^ 32 % trackerBits) (some (sentAs n true)), first,
      l.count + 1⟩ (Insert.insert n live) lo := by
  have hrange : ∀ k ∈ Insert.insert n live, lo ≤ k ∧ k < lo + trackerBits := by
    intro k hk
    rcases Finset.mem_insert.mp hk with rfl | hk
    · exact hn
    · exact h.range k hk
  refine ⟨?_, ?_, ?_, hrange⟩
  · intro k hk
    dsimp only
    rw [mod_mod_trackerBits]
    by_cases heq : k = n
    · rw [heq, Function.update_self]
    · have hslot : k % trackerBits ≠ n % trackerBits :=
        fun hc => heq (eq_of_mod (hrange k hk) hn hc)
      rw [Function.update_of_ne hslot]
      exact h.entry k ((Finset.mem_insert.mp hk).resolve_left heq)
  · intro idx p hp
    dsimp only at hp
    rw [mod_mod_trackerBits] at hp
    by_cases hidx : idx = n % trackerBits
    · rw [hidx, Function.update_self, Option.some.injEq] at hp
      rw [← hp, hidx]
      exact ⟨Finset.mem_insert_self n live, rfl⟩
    · rw [Function.update_of_ne hidx] at hp
      obtain ⟨hlive, hslot⟩ := h.only idx p hp
      exact ⟨Finset.mem_insert_of_mem hlive, hslot⟩
  · rw [Finset.card_insert_of_notMem hnot, ← h.count]

/-- A packet behind all the others is appended; the first one is the first of an empty list. -/
theorem append_spec (h : Keeps l live lo) (hfirst : live.Nonempty → l.first = lo % 2 ^ 32)
    (hnot : n ∉ live) (hge : live.Nonempty → lo ≤ n)
    (hwindow : live.Nonempty → n < lo + trackerBits) :
    ∃ l' lo', l.append (sentAs n false) = some l' ∧ Keeps l' (Insert.insert n live) lo' ∧
      l'.first = lo' % 2 ^ 32 ∧ (live.Nonempty → lo' = lo) ∧ (live = ∅ → lo' = n) := by
  -- the window of the list with the new packet, which is that of the list unless it is empty
  obtain ⟨lo', hkeeps, hlo, hn, hfirst', hthrows⟩ : ∃ lo', Keeps l live lo' ∧
      ((live.Nonempty → lo' = lo) ∧ (live = ∅ → lo' = n)) ∧
      (lo' ≤ n ∧ n < lo' + trackerBits) ∧
      (if l.count = 0 then n % 2 ^ 32 else l.first) = lo' % 2 ^ 32 ∧
      ¬(l.count ≠ 0 ∧ trackerBits ≤ unsignedSub (n % 2 ^ 32) (lo' % 2 ^ 32)) := by
    rcases live.eq_empty_or_nonempty with rfl | hne
    · have hzero : l.count = 0 := by rw [h.count, Finset.card_empty]
      refine ⟨n, ⟨h.entry, h.only, h.count, ?_⟩, ⟨fun hc => absurd hc (by simp), fun _ => rfl⟩,
        ⟨le_refl n, Nat.lt_add_of_pos_right (by decide)⟩, if_pos hzero, fun hc => hc.1 hzero⟩
      intro k hk
      cases hk
    · have hpos : l.count ≠ 0 := by
        rw [h.count]
        exact Finset.card_ne_zero.mpr hne
      have hlt := hwindow hne
      have hle := hge hne
      refine ⟨lo, h, ⟨fun _ => rfl, fun hc => absurd hc hne.ne_empty⟩, ⟨hle, hlt⟩, (if_neg hpos).trans (hfirst hne), ?_⟩
      rintro ⟨-, hfar⟩
      rw [unsignedSub_of_le hle (by unfold trackerBits at hlt; omega)] at hfar
      omega
  have hnone : l.entries (n % 2 ^ 32 % trackerBits) = none := by
    rw [hkeeps.entries_eq hn, if_neg hnot]
  have hfree : ¬(l.entries (n % 2 ^ 32 % trackerBits)).isSome = true := by
    rw [hnone]
    exact Bool.false_ne_true
  refine ⟨_, lo', ?_, hkeeps.insert hnot hn (lo' % 2 ^ 32), rfl, hlo⟩
  unfold append
  dsimp only [sentAs]
  rw [hfirst', if_neg hthrows, if_neg hfree]

/-! ### Reading a tracker -/

theorem card_filter_succ_of_mem (hmem : pos ∈ live) :
    (live.filter (· < pos + 1)).card = (live.filter (· < pos)).card + 1 := by
  have hinsert : live.filter (· < pos + 1) = Insert.insert pos (live.filter (· < pos)) := by
    ext k
    simp only [Finset.mem_filter, Finset.mem_insert]
    constructor
    · rintro ⟨hk, hlt⟩
      rcases Nat.lt_succ_iff_lt_or_eq.mp hlt with hlt | rfl
      · exact Or.inr ⟨hk, hlt⟩
      · exact Or.inl rfl
    · rintro (rfl | ⟨hk, hlt⟩)
      · exact ⟨hmem, Nat.lt_succ_self _⟩
      · exact ⟨hk, Nat.lt_succ_of_lt hlt⟩
  rw [hinsert, Finset.card_insert_of_notMem]
  simp

theorem filter_succ_of_not_mem (hmem : pos ∉ live) :
    live.filter (· < pos + 1) = live.filter (· < pos) := by
  ext k
  simp only [Finset.mem_filter]
  constructor
  · rintro ⟨hk, hlt⟩
    rcases Nat.lt_succ_iff_lt_or_eq.mp hlt with hlt | rfl
    · exact ⟨hk, hlt⟩
    · exact absurd hk hmem
  · rintro ⟨hk, hlt⟩
    exact ⟨hk, Nat.lt_succ_of_lt hlt⟩

/-- While fewer packets are behind the position than there are, the position is in the window. -/
theorem Keeps.lt_of_card_lt (h : Keeps l live lo) (hlt : (live.filter (· < pos)).card < l.count) :
    pos < lo + trackerBits := by
  by_contra hcon
  have hall : live.filter (· < pos) = live := by
    apply Finset.filter_true_of_mem
    intro n hn
    have hrange := h.range n hn
    omega
  rw [hall, h.count] at hlt
  exact Nat.lt_irrefl _ hlt

/-- What reading a tracker does to the list: only packets that were seen are released, and only
packets of the list are sent. -/
structure Reads (seen : PacketTracker) (l : UdpResendList) (live : Finset ℕ) (lo : ℕ)
    (l' : UdpResendList) (live' : Finset ℕ) (toSend : List Packet) : Prop where
  keeps : Keeps l' live' lo
  sub : live' ⊆ live
  first : l'.first = l.first
  seen : ∀ n ∈ live, n ∉ live' → seen.hasSeen (n % 2 ^ 32) = true
  toSend : ∀ p ∈ toSend, ∃ n ∈ live, p = sentAs n true

theorem noteReadLoop_spec (seen : PacketTracker) (sendAll : Bool) (due : ℕ → Bool)
    (fuel space pos : ℕ) (h : Keeps l live lo) (hge : lo ≤ pos)
    (hfuel : lo + trackerBits < pos + fuel) (hle : pos ≤ lo + trackerBits) :
    ∃ l' toSend live', noteReadLoop seen sendAll due fuel l (pos % 2 ^ 32)
      (live.filter (· < pos)).card space = some (l', toSend) ∧
      Reads seen l live lo l' live' toSend := by
  induction fuel generalizing l live pos space with
  | zero => omega
  | succ fuel ih =>
    have hstop : Reads seen l live lo l live [] := by
      refine ⟨h, Finset.Subset.refl _, rfl, fun n hn hnot => absurd hn hnot, ?_⟩
      intro p hp
      cases hp
    unfold noteReadLoop
    by_cases hgo : (live.filter (· < pos)).card < l.count ∧ (space ≠ 0 ∨ sendAll = true)
    · rw [if_pos hgo]
      have hlt := h.lt_of_card_lt hgo.1
      have hnext : (pos % 2 ^ 32 + 1) % 2 ^ 32 = (pos + 1) % 2 ^ 32 := Nat.mod_add_mod pos _ 1
      rw [h.entries_eq ⟨hge, hlt⟩, hnext]
      by_cases hmem : pos ∈ live
      · rw [if_pos hmem]
        dsimp only [sentAs]
        rw [if_neg (not_not.mpr rfl)]
        by_cases hseen : seen.hasSeen (pos % 2 ^ 32) = true
        · -- the packet is released
          rw [if_pos hseen]
          have hcard : (live.filter (· < pos)).card
              = ((live.erase pos).filter (· < pos + 1)).card := by
            rw [filter_succ_of_not_mem (Finset.notMem_erase pos live)]
            congr 1
            ext k
            simp only [Finset.mem_filter, Finset.mem_erase]
            constructor
            · rintro ⟨hk, hkpos⟩
              exact ⟨⟨Nat.ne_of_lt hkpos, hk⟩, hkpos⟩
            · rintro ⟨⟨-, hk⟩, hkpos⟩
              exact ⟨hk, hkpos⟩
          rw [hcard]
          obtain ⟨l', toSend, live', hrun, hreads⟩ :=
            ih space (pos + 1) (h.release hmem) (by omega) (by omega) (by omega)
          refine ⟨l', toSend, live', hrun, hreads.keeps,
            hreads.sub.trans (Finset.erase_subset pos live), hreads.first, ?_, ?_⟩
          · intro n hn hnot
            by_cases heq : n = pos
            · rw [heq]
              exact hseen
            · exact hreads.seen n (Finset.mem_erase.mpr ⟨heq, hn⟩) hnot
          · intro p hp
            obtain ⟨n, hn, hpn⟩ := hreads.toSend p hp
            exact ⟨n, Finset.mem_of_mem_erase hn, hpn⟩
        · rw [if_neg hseen, ← card_filter_succ_of_mem hmem]
          by_cases hdue : due (pos % 2 ^ 32) = true
          · -- the packet is sent again
            rw [if_pos hdue]
            obtain ⟨l', toSend, live', hrun, hreads⟩ :=
              ih (unsignedSub space 1) (pos + 1) h (by omega) (by omega) (by omega)
            rw [hrun]
            refine ⟨l', _, live', rfl, hreads.keeps, hreads.sub, hreads.first, hreads.seen, ?_⟩
            intro p hp
            rcases List.mem_cons.mp hp with rfl | hp
            · exact ⟨pos, hmem, rfl⟩
            · exact hreads.toSend p hp
          · rw [if_neg hdue]
            exact ih space (pos + 1) h (by omega) (by omega) (by omega)
      · rw [if_neg hmem, ← filter_succ_of_not_mem hmem]
        exact ih space (pos + 1) h (by omega) (by omega) (by omega)
    · rw [if_neg hgo]
      exact ⟨l, [], live, rfl, hstop⟩

/-- The loop that moves `first` stops at or before the first packet that is still there. -/
theorem skipReleased_spec (fuel : ℕ) (h : Keeps l live lo) (hge : lo ≤ pos)
    (hfuel : lo + trackerBits < pos + fuel) {k : ℕ} (hk : k ∈ live)
    (hall : ∀ n ∈ live, pos ≤ n) :
    ∃ lo', skipReleased l.entries fuel (pos % 2 ^ 32) = some (lo' % 2 ^ 32) ∧ lo ≤ lo' ∧
      (∀ n ∈ live, lo' ≤ n) := by
  induction fuel generalizing pos with
  | zero =>
    have hrange := h.range k hk
    have hle := hall k hk
    omega
  | succ fuel ih =>
    have hrange := h.range k hk
    have hle := hall k hk
    unfold skipReleased
    rw [h.entries_eq ⟨hge, by omega⟩]
    by_cases hmem : pos ∈ live
    · rw [if_pos hmem, if_neg (by simp)]
      exact ⟨pos, rfl, hge, hall⟩
    · have hnext : (pos % 2 ^ 32 + 1) % 2 ^ 32 = (pos + 1) % 2 ^ 32 := Nat.mod_add_mod pos _ 1
      rw [if_neg hmem, if_pos Option.isNone_none, hnext]
      refine ih (by omega) (by omega) ?_
      intro n hn
      have hpos := hall n hn
      have hne : n ≠ pos := fun heq => hmem (heq ▸ hn)
      omega

/-- Reading a tracker as a whole. -/
theorem noteRead_spec (opts : ResendOptions) (expired : ℕ → Bool) (seen : PacketTracker)
    (space : ℕ) (h : Keeps l live lo) (hfirst : live.Nonempty → l.first = lo % 2 ^ 32) :
    ∃ l' toSend live' lo', noteRead opts expired l seen space = some (l', toSend) ∧
      Keeps l' live' lo' ∧ live' ⊆ live ∧ (live'.Nonempty → l'.first = lo' % 2 ^ 32) ∧
      lo ≤ lo' ∧ (live' = ∅ → lo' = lo) ∧
      (∀ n ∈ live, n ∉ live' → seen.hasSeen (n % 2 ^ 32) = true) ∧
      (∀ p ∈ toSend, ∃ n ∈ live, p = sentAs n true) := by
  unfold noteRead
  by_cases hzero : l.count = 0
  · rw [if_pos hzero]
    refine ⟨l, [], live, lo, rfl, h, Finset.Subset.refl _, hfirst, le_refl _, fun _ => rfl,
      fun n hn hnot => absurd hn hnot, ?_⟩
    intro p hp
    cases hp
  · rw [if_neg hzero]
    have hne : live.Nonempty := by
      rw [← Finset.card_ne_zero, ← h.count]
      exact hzero
    have hnone : (live.filter (· < lo)).card = 0 := by
      rw [Finset.card_eq_zero]
      apply Finset.filter_false_of_mem
      intro n hn
      exact not_lt.mpr (h.range n hn).1
    obtain ⟨l', toSend, live', hrun, hreads⟩ := noteReadLoop_spec seen
      (space = 0 || opts.resendAllMissingPackets) (isDue opts seen expired) (trackerBits + 1) space
      lo h (le_refl lo) (by omega) (by omega)
    rw [hnone, ← hfirst hne] at hrun
    dsimp only [Option.bind_eq_bind]
    rw [hrun, Option.bind_some]
    by_cases hmove : l'.count ≠ l.count ∧ l'.count ≠ 0
    · rw [if_pos hmove]
      have hne' : live'.Nonempty := by
        rw [← Finset.card_ne_zero, ← hreads.keeps.count]
        exact hmove.2
      obtain ⟨k, hk⟩ := hne'
      obtain ⟨lo', hskip, hge, hall⟩ := skipReleased_spec (trackerBits + 1) hreads.keeps
        (le_refl lo) (by omega) hk (fun n hn => (hreads.keeps.range n hn).1)
      rw [hreads.first, hfirst hne, hskip, Option.bind_some]
      refine ⟨_, toSend, live', lo', rfl, ⟨hreads.keeps.entry, hreads.keeps.only,
        hreads.keeps.count, ?_⟩, hreads.sub, fun _ => rfl, hge, ?_, hreads.seen, hreads.toSend⟩
      · intro n hn
        have hrange := hreads.keeps.range n hn
        exact ⟨hall n hn, by omega⟩
      · intro hempty
        rw [hempty] at hk
        cases hk
    · rw [if_neg hmove]
      exact ⟨l', toSend, live', lo, rfl, hreads.keeps, hreads.sub,
        fun _ => hreads.first.trans (hfirst hne), le_refl _, fun _ => rfl, hreads.seen,
        hreads.toSend⟩

end UdpResendList

end Udp
