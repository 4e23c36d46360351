import HpccPlatform.Udp.Tracker

/-!
# Runs of the packet tracker

What `PacketTracker` reports after any sequence of packets that come in time: of the window, or
sent again and behind it.  The packets are numbered without wrapping from `2 ^ 32` on, and all
the numbers before that count as noted.
-/

namespace Udp.PacketTracker

/-- Is something between `base` and `hwm` missing? -/
def hasGaps (t : PacketTracker) : Bool := t.base != (t.hwm + 1) % 2 ^ 32

/-! ### What `noteSeen` leaves alone -/

theorem slot_lt (seq : ℕ) : slot seq < trackerBits := by
  have hword := Nat.mod_lt (seq / 64) (show 0 < trackerBits / 64 by decide)
  have hbit := Nat.mod_lt seq (show 0 < 64 by decide)
  unfold slot
  unfold trackerBits at hword ⊢
  omega

theorem advance_frame {fuel : ℕ} {t t' : PacketTracker} (h : advance fuel t = some t') :
    t'.hwm = t.hwm ∧ ∀ i, t'.seen i = true → t.seen i = true := by
  induction fuel generalizing t with
  | zero => cases h
  | succ fuel ih =>
    unfold advance at h
    split_ifs at h with hseen
    · obtain ⟨hhwm, hbits⟩ := ih h
      refine ⟨hhwm, fun i hi => ?_⟩
      have hupdate := hbits i hi
      dsimp only at hupdate
      by_cases hslot : i = slot t.base
      · rw [hslot]
        exact hseen
      · rwa [Function.update_of_ne hslot] at hupdate
    · cases h
      exact ⟨rfl, fun i hi => hi⟩

/-- A packet of the window moves `hwm` when it is ahead of it, and sets no bit but its own. -/
theorem noteSeen_frame {t t' : PacketTracker} {seq : ℕ} {resent duplicate : Bool}
    (hdelta : unsignedSub seq t.base < trackerBits)
    (h : t.noteSeen seq resent = some (duplicate, t')) :
    t'.hwm = (if 0 < unsignedSub seq t.hwm ∧ unsignedSub seq t.hwm < 2 ^ 31
      then seq else t.hwm) ∧
    ∀ i, t'.seen i = true → t.seen i = true ∨ i = slot seq := by
  have hset : ∀ i, Function.update t.seen (slot seq) true i = true →
      t.seen i = true ∨ i = slot seq := by
    intro i hi
    by_cases hslot : i = slot seq
    · exact Or.inr hslot
    · rw [Function.update_of_ne hslot] at hi
      exact Or.inl hi
  -- what is done with the tracker `u` whose bits are up to date
  have hret : ∀ {u : PacketTracker}, u.hwm = t.hwm →
      (∀ i, u.seen i = true → t.seen i = true ∨ i = slot seq) →
      some (t.seen (slot seq), if 0 < unsignedSub seq u.hwm ∧ unsignedSub seq u.hwm < 2 ^ 31
        then { u with hwm := seq } else u) = some (duplicate, t') →
      t'.hwm = (if 0 < unsignedSub seq t.hwm ∧ unsignedSub seq t.hwm < 2 ^ 31
        then seq else t.hwm) ∧
      ∀ i, t'.seen i = true → t.seen i = true ∨ i = slot seq := by
    intro u hhwm hbits heq
    rw [hhwm] at heq
    cases heq
    split_ifs
    · exact ⟨rfl, hbits⟩
    · exact ⟨hhwm, hbits⟩
  unfold noteSeen at h
  dsimp only at h
  rw [if_pos hdelta] at h
  split_ifs at h
  · obtain ⟨u, hu, heq⟩ := Option.bind_eq_some_iff.mp h
    obtain ⟨hhwm, hbits⟩ := advance_frame hu
    exact hret hhwm (fun i hi => hset i (hbits i hi)) heq
  · obtain ⟨u, hu, heq⟩ := Option.bind_eq_some_iff.mp h
    have hhwm : u.hwm = t.hwm := by rw [← Option.some.inj hu]
    have hseen : u.seen = Function.update t.seen (slot seq) true := by rw [← Option.some.inj hu]
    exact hret hhwm (hseen ▸ hset) heq

/-! ### The packets noted -/

/-- The packet has been noted, or is before the first one. -/
def Noted (noted : List ℕ) (n : ℕ) : Prop := n < 2 ^ 32 ∨ n ∈ noted

instance (noted : List ℕ) : DecidablePred (Noted noted) :=
  fun n => inferInstanceAs (Decidable (n < 2 ^ 32 ∨ n ∈ noted))

/-- The packet with the highest number. -/
def highest (noted : List ℕ) : ℕ := noted.foldr max (2 ^ 32 - 1)

theorem isGreatest_highest (noted : List ℕ) :
    IsGreatest {n | Noted noted n} (highest noted) := by
  induction noted with
  | nil =>
    refine ⟨Or.inl (by decide), ?_⟩
    rintro n (hn | hn)
    · exact Nat.le_sub_one_of_lt hn
    · cases hn
  | cons m noted ih =>
    have hcons : highest (m :: noted) = max m (highest noted) := rfl
    rw [hcons]
    refine ⟨?_, ?_⟩
    · rcases max_choice m (highest noted) with heq | heq <;> rw [heq]
      · exact Or.inr (List.mem_cons_self ..)
      · exact ih.1.imp_right (List.mem_cons_of_mem m)
    · rintro n (hn | hn)
      · exact (ih.2 (Or.inl hn)).trans (le_max_right ..)
      · rcases List.mem_cons.mp hn with rfl | hn
        · exact le_max_left ..
        · exact (ih.2 (Or.inr hn)).trans (le_max_right ..)

theorem exists_not_noted (noted : List ℕ) : ∃ n, ¬Noted noted n :=
  ⟨highest noted + 1, fun h => Nat.not_succ_le_self _ ((isGreatest_highest noted).2 h)⟩

/-- The first packet that has not been noted. -/
def firstMissing (noted : List ℕ) : ℕ := Nat.find (exists_not_noted noted)

theorem isLeast_firstMissing (noted : List ℕ) :
    IsLeast {n | ¬Noted noted n} (firstMissing noted) :=
  ⟨Nat.find_spec (exists_not_noted noted), fun _ hn => Nat.find_min' _ hn⟩

theorem noted_of_lt_firstMissing {noted : List ℕ} {n : ℕ} (h : n < firstMissing noted) :
    Noted noted n := by
  by_contra hn
  exact absurd ((isLeast_firstMissing noted).2 hn) (Nat.not_le_of_lt h)

theorem le_firstMissing (noted : List ℕ) : 2 ^ 32 ≤ firstMissing noted :=
  Nat.le_of_not_lt fun h => (isLeast_firstMissing noted).1 (Or.inl h)

theorem noted_cons (noted : List ℕ) (n : ℕ) :
    Noted (n :: noted) = fun k => Noted noted k ∨ k = n := by
  funext k
  unfold Noted
  rw [List.mem_cons, or_assoc, or_comm (a := k = n)]

/-- The tracker of what was noted has its first missing packet as `base`. -/
theorem Tracks.eq_firstMissing {t : PacketTracker} {noted : List ℕ} {missing : ℕ}
    (h : Tracks t (Noted noted) missing) : missing = firstMissing noted :=
  le_antisymm
    (Nat.le_of_not_lt fun hlt => (isLeast_firstMissing noted).1 (h.below _ hlt))
    ((isLeast_firstMissing noted).2 h.notGot)

/-! ### The number of a packet -/

/-- The packet that a sequence number means to a tracker: the nearest to the first missing. -/
def numberOf (missing seq : ℕ) : ℕ :=
  let delta := unsignedSub seq (missing % 2 ^ 32)
  if delta < 2 ^ 31 then missing + delta else missing + delta - 2 ^ 32

/-- The packet is in the window, or behind it and sent again. -/
def Timely (t : PacketTracker) (seq : ℕ) (resent : Bool) : Prop :=
  unsignedSub seq t.base < trackerBits ∨
    2 ^ 31 - 1 < unsignedSub seq t.base ∧ resent = true

section NumberOf

variable {missing seq : ℕ}

theorem numberOf_mod (hmissing : 2 ^ 32 ≤ missing) (hseq : seq < 2 ^ 32) :
    numberOf missing seq % 2 ^ 32 = seq := by
  unfold numberOf unsignedSub
  dsimp only
  split_ifs
  · omega
  · omega

theorem numberOf_window (h : unsignedSub seq (missing % 2 ^ 32) < trackerBits) :
    missing ≤ numberOf missing seq ∧ numberOf missing seq < missing + trackerBits := by
  have hhalf : trackerBits < 2 ^ 31 := by decide
  unfold numberOf
  dsimp only
  rw [if_pos (h.trans hhalf)]
  exact ⟨Nat.le_add_right .., Nat.add_lt_add_left h _⟩

theorem numberOf_behind (hmissing : 2 ^ 32 ≤ missing)
    (h : 2 ^ 31 - 1 < unsignedSub seq (missing % 2 ^ 32)) :
    numberOf missing seq < missing ∧ missing ≤ numberOf missing seq + 2 ^ 31 := by
  have hlt : unsignedSub seq (missing % 2 ^ 32) < 2 ^ 32 := Nat.mod_lt _ (by decide)
  unfold numberOf
  dsimp only
  rw [if_neg (by omega)]
  omega

end NumberOf

/-! ### Runs -/

/-- The tracker after the packets noted, the last of them first. -/
inductive Run : PacketTracker → List ℕ → Prop
  | new : Run PacketTracker.new []
  | note {t t' : PacketTracker} {noted : List ℕ} {seq : ℕ} {resent duplicate : Bool} :
    Run t noted → seq < 2 ^ 32 → Timely t seq resent →
    t.noteSeen seq resent = some (duplicate, t') →
    Run t' (numberOf (firstMissing noted) seq :: noted)

/-- What a run keeps. -/
structure Follows (t : PacketTracker) (noted : List ℕ) : Prop where
  tracks : Tracks t (Noted noted) (firstMissing noted)
  hwm : t.hwm = highest noted % 2 ^ 32
  inside : ∀ i, t.seen i = true → i < trackerBits

theorem firstMissing_nil : firstMissing [] = 2 ^ 32 := by
  refine (isLeast_firstMissing []).unique ⟨?_, ?_⟩
  · rintro (h | h)
    · exact Nat.lt_irrefl _ h
    · cases h
  · intro n hn
    exact Nat.le_of_not_lt fun h => hn (Or.inl h)

theorem follows_new : Follows PacketTracker.new [] where
  tracks := by
    rw [firstMissing_nil]
    refine ⟨⟨rfl, fun n hn => Or.inl hn, ?_, ?_⟩, ?_⟩
    · intro n hge _
      refine iff_of_false Bool.false_ne_true ?_
      rintro (h | h)
      · exact Nat.not_le_of_lt h hge
      · cases h
    · rintro n (h | h)
      · exact h.trans (Nat.lt_add_of_pos_right (by decide))
      · cases h
    · rintro (h | h)
      · exact Nat.lt_irrefl _ h
      · cases h
  hwm := rfl
  inside := by
    intro i hi
    cases hi

section Follows

variable {t : PacketTracker} {noted : List ℕ} {seq : ℕ}

theorem Follows.base (h : Follows t noted) : t.base = firstMissing noted % 2 ^ 32 :=
  h.tracks.base

/-- `hwm` is not far from `base`. -/
theorem Follows.highest_near (h : Follows t noted) :
    firstMissing noted ≤ highest noted + 1 ∧
      highest noted < firstMissing noted + trackerBits := by
  refine ⟨?_, h.tracks.bound _ (isGreatest_highest noted).1⟩
  exact (isLeast_firstMissing noted).2
    fun hn => Nat.not_succ_le_self _ ((isGreatest_highest noted).2 hn)

/-- A number behind the first missing packet was noted already. -/
theorem highest_cons_of_noted {n : ℕ} (h : Noted noted n) :
    highest (n :: noted) = highest noted :=
  max_eq_right ((isGreatest_highest noted).2 h)

theorem noted_cons_of_noted {n : ℕ} (h : Noted noted n) : Noted (n :: noted) = Noted noted := by
  rw [noted_cons]
  funext k
  refine propext (or_iff_left_of_imp ?_)
  rintro rfl
  exact h

theorem firstMissing_congr {noted' : List ℕ} (h : Noted noted' = Noted noted) :
    firstMissing noted' = firstMissing noted := by
  have hleast := isLeast_firstMissing noted'
  rw [h] at hleast
  exact hleast.unique (isLeast_firstMissing noted)

/-- A packet of the window is noted. -/
theorem Follows.noteSeen_window (h : Follows t noted) (hseq : seq < 2 ^ 32)
    (hdelta : unsignedSub seq t.base < trackerBits) (resent : Bool) :
    ∃ duplicate t', t.noteSeen seq resent = some (duplicate, t') ∧
      (duplicate = true ↔ Noted noted (numberOf (firstMissing noted) seq)) ∧
      Follows t' (numberOf (firstMissing noted) seq :: noted) := by
  have hmissing := le_firstMissing noted
  obtain ⟨hge, hlt⟩ := numberOf_window (h.base ▸ hdelta)
  have hmod := numberOf_mod hmissing hseq
  obtain ⟨hnear, hnear'⟩ := h.highest_near
  generalize numberOf (firstMissing noted) seq = n at hge hlt hmod ⊢
  obtain ⟨duplicate, t', missing', hnote, hdup, htracks, -, -⟩ :=
    PacketTracker.noteSeen_window h.tracks hge hlt resent
  rw [hmod] at hnote
  rw [← noted_cons] at htracks
  obtain ⟨hhwm, hbits⟩ := noteSeen_frame hdelta hnote
  refine ⟨duplicate, t', hnote, hdup, htracks.eq_firstMissing ▸ htracks, ?_, ?_⟩
  · have hcons : highest (n :: noted) = max n (highest noted) := rfl
    rw [hhwm, hcons, h.hwm, ← hmod]
    unfold trackerBits at hlt hnear'
    rcases lt_or_ge (highest noted) n with hahead | hbehind
    · rw [max_eq_left hahead.le, unsignedSub_of_le hahead.le (by omega), if_pos]
      omega
    · rw [max_eq_right hbehind, if_neg]
      unfold unsignedSub
      omega
  · intro i hi
    rcases hbits i hi with hold | rfl
    · exact h.inside i hold
    · exact slot_lt seq

/-- A packet behind the window was noted already. -/
theorem Follows.noteSeen_behind (h : Follows t noted) (hseq : seq < 2 ^ 32)
    (hdelta : 2 ^ 31 - 1 < unsignedSub seq t.base) :
    t.noteSeen seq true = some (true, t) ∧
      Noted noted (numberOf (firstMissing noted) seq) ∧
      Follows t (numberOf (firstMissing noted) seq :: noted) := by
  have hmissing := le_firstMissing noted
  obtain ⟨hlt, hle⟩ := numberOf_behind hmissing (h.base ▸ hdelta)
  have hmod := numberOf_mod hmissing hseq
  generalize numberOf (firstMissing noted) seq = n at hlt hle hmod ⊢
  have hnoted := noted_of_lt_firstMissing hlt
  have hsame := noted_cons_of_noted hnoted
  refine ⟨?_, hnoted, ?_, ?_, h.inside⟩
  · rw [← hmod]
    exact noteSeen_resent h.tracks hlt (by unfold trackerBits; omega)
  · rw [hsame, firstMissing_congr hsame]
    exact h.tracks
  · rw [highest_cons_of_noted hnoted]
    exact h.hwm

/-- Every packet in time is recorded, and a duplicate is told from a new one. -/
theorem Follows.noteSeen (h : Follows t noted) (hseq : seq < 2 ^ 32) {resent : Bool}
    (htimely : Timely t seq resent) :
    ∃ duplicate t', t.noteSeen seq resent = some (duplicate, t') ∧
      (duplicate = true ↔ Noted noted (numberOf (firstMissing noted) seq)) ∧
      Follows t' (numberOf (firstMissing noted) seq :: noted) := by
  rcases htimely with hwindow | ⟨hbehind, rfl⟩
  · exact h.noteSeen_window hseq hwindow resent
  · obtain ⟨hnote, hnoted, hfollows⟩ := h.noteSeen_behind hseq hbehind
    exact ⟨true, t, hnote, iff_of_true rfl hnoted, hfollows⟩

/-- What the tracker says of a packet near the window. -/
theorem Follows.hasSeen (h : Follows t noted) (hseq : seq < 2 ^ 32)
    (hnear : unsignedSub seq t.base < trackerBits ∨ 2 ^ 31 - 1 < unsignedSub seq t.base) :
    t.hasSeen seq = true ↔ Noted noted (numberOf (firstMissing noted) seq) := by
  have hmissing := le_firstMissing noted
  have hmod := numberOf_mod hmissing hseq
  have hiff := @hasSeen_iff t (Noted noted) (firstMissing noted)
    (numberOf (firstMissing noted) seq) h.tracks
  rw [hmod] at hiff
  rcases hnear with hwindow | hbehind
  · obtain ⟨hge, hlt⟩ := numberOf_window (h.base ▸ hwindow)
    unfold trackerBits at hlt
    exact hiff (by omega) (by omega)
  · obtain ⟨hlt, hle⟩ := numberOf_behind hmissing (h.base ▸ hbehind)
    exact hiff (by omega) hle

theorem Follows.hasGaps (h : Follows t noted) :
    t.hasGaps = true ↔
      ∃ n, firstMissing noted ≤ n ∧ n ≤ highest noted ∧ ¬Noted noted n := by
  obtain ⟨hle, hlt⟩ := h.highest_near
  have hbase : t.base = (t.hwm + 1) % 2 ^ 32 ↔ firstMissing noted = highest noted + 1 := by
    rw [h.base, h.hwm]
    unfold trackerBits at hlt
    omega
  unfold PacketTracker.hasGaps
  rw [bne_iff_ne, Ne, hbase]
  constructor
  · intro hne
    exact ⟨firstMissing noted, le_refl _, Nat.le_of_lt_succ (lt_of_le_of_ne hle hne),
      (isLeast_firstMissing noted).1⟩
  · rintro ⟨n, hge, hn, -⟩ heq
    omega

/-- Every bit that is set is the one of a noted packet of the window. -/
theorem Follows.bit (h : Follows t noted) {i : ℕ} (hi : t.seen i = true) :
    i < trackerBits ∧ ∃ n ∈ noted, firstMissing noted ≤ n ∧ n ≤ highest noted ∧
      n < firstMissing noted + trackerBits ∧ n % trackerBits = i := by
  have hinside := h.inside i hi
  have hmissing := le_firstMissing noted
  refine ⟨hinside, ?_⟩
  -- the packet of the window with this bit
  obtain ⟨n, hge, hlt, hmod⟩ : ∃ n, firstMissing noted ≤ n ∧
      n < firstMissing noted + trackerBits ∧ n % trackerBits = i := by
    refine ⟨firstMissing noted + (i + trackerBits - firstMissing noted % trackerBits) % trackerBits,
      Nat.le_add_right .., Nat.add_lt_add_left (Nat.mod_lt _ (by decide)) _, ?_⟩
    unfold trackerBits at hinside ⊢
    omega
  have hnoted : Noted noted n := (h.tracks.window n hge hlt).mp (by rw [hmod]; exact hi)
  have hmem := hnoted.resolve_left (Nat.not_lt_of_le (hmissing.trans hge))
  exact ⟨n, hmem, hge, (isGreatest_highest noted).2 hnoted, hlt, hmod⟩

end Follows

theorem Run.follows {t : PacketTracker} {noted : List ℕ} (h : Run t noted) : Follows t noted := by
  induction h with
  | new => exact follows_new
  | note _ hseq htimely hnote ih =>
    obtain ⟨_, _, hnote', -, hfollows⟩ := ih.noteSeen hseq htimely
    rw [hnote] at hnote'
    cases hnote'
    exact hfollows

/-- After any run the tracker says of the packets near its window what was noted, and the next
packet in time is told from a duplicate. -/
theorem run_exact {t : PacketTracker} {noted : List ℕ} (h : Run t noted) :
    IsLeast {n | ¬Noted noted n} (firstMissing noted) ∧
    t.base = firstMissing noted % 2 ^ 32 ∧
    IsGreatest {n | Noted noted n} (highest noted) ∧
    t.hwm = highest noted % 2 ^ 32 ∧
    (∀ seq < 2 ^ 32, ∀ resent, Timely t seq resent →
      ∃ duplicate t', t.noteSeen seq resent = some (duplicate, t') ∧
        (duplicate = true ↔ numberOf (firstMissing noted) seq ∈ noted ∨
          numberOf (firstMissing noted) seq < firstMissing noted)) ∧
    (∀ seq < 2 ^ 32,
      unsignedSub seq t.base < trackerBits ∨ 2 ^ 31 - 1 < unsignedSub seq t.base →
      (t.hasSeen seq = true ↔ numberOf (firstMissing noted) seq ∈ noted ∨
        numberOf (firstMissing noted) seq < firstMissing noted)) ∧
    (t.hasGaps = true ↔
      ∃ n, firstMissing noted ≤ n ∧ n ≤ highest noted ∧ ¬Noted noted n) ∧
    ∀ i, t.seen i = true → i < trackerBits ∧ ∃ n ∈ noted, firstMissing noted ≤ n ∧
      n ≤ highest noted ∧ n < firstMissing noted + trackerBits ∧ n % trackerBits = i := by
  have hfollows := h.follows
  have hmissing := le_firstMissing noted
  have hnoted : ∀ n, Noted noted n ↔ n ∈ noted ∨ n < firstMissing noted := by
    intro n
    constructor
    · rintro (hn | hn)
      · exact Or.inr (hn.trans_le hmissing)
      · exact Or.inl hn
    · rintro (hn | hn)
      · exact Or.inr hn
      · exact noted_of_lt_firstMissing hn
  refine ⟨isLeast_firstMissing noted, hfollows.base, isGreatest_highest noted, hfollows.hwm,
    ?_, ?_, hfollows.hasGaps, fun i hi => hfollows.bit hi⟩
  · intro seq hseq resent htimely
    obtain ⟨duplicate, t', hnote, hdup, -⟩ := hfollows.noteSeen hseq htimely
    exact ⟨duplicate, t', hnote, hdup.trans (hnoted _)⟩
  · intro seq hseq hnear
    exact (hfollows.hasSeen hseq hnear).trans (hnoted _)

/-- Packet 1 comes before packet 0. -/
theorem run_exact_overtaken : ∃ t noted, Run t noted ∧ t.base = 0 ∧ t.hwm = 1 ∧
    ∃ n, firstMissing noted ≤ n ∧ n ≤ highest noted ∧ ¬Noted noted n := by
  have hrun : Run _ _ := @Run.note _ _ _ 1 false _ Run.new (by decide)
    (Or.inl (by decide)) rfl
  exact ⟨_, _, hrun, rfl, rfl, (run_exact hrun).2.2.2.2.2.2.1.mp rfl⟩

end Udp.PacketTracker
