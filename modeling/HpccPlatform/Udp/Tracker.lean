import Mathlib.Tactic

/-!
# The packets a receiver has seen

`PacketTracker` of `roxie/udplib/udpsha.cpp` remembers which packets of a sender have come: all
those before `base`, and those of the next 1024 whose bits are set in a circular bit array.  The
numbers are 32-bit and wrap around.  `Tracks` says this of a tracker with packet numbers that do
not wrap.
-/

namespace Udp

/-- `TRACKER_BITS` -/
def trackerBits : ℕ := 1024

/-- The difference of two `unsigned`. -/
def unsignedSub (a b : ℕ) : ℕ := (a + (2 ^ 32 - b)) % 2 ^ 32

theorem unsignedSub_of_le {n base : ℕ} (hle : base ≤ n) (hlt : n < base + 2 ^ 32) :
    unsignedSub (n % 2 ^ 32) (base % 2 ^ 32) = n - base := by
  unfold unsignedSub
  omega

theorem unsignedSub_of_lt {n base : ℕ} (hlt : n < base) (hle : base ≤ n + 2 ^ 32) :
    unsignedSub (n % 2 ^ 32) (base % 2 ^ 32) = n + 2 ^ 32 - base := by
  unfold unsignedSub
  omega

/-- `seen` has the bits of the array, 64 for each of its words. -/
structure PacketTracker where
  base : ℕ
  hwm : ℕ
  seen : ℕ → Bool

namespace PacketTracker

def new : PacketTracker := ⟨0, 2 ^ 32 - 1, fun _ => false⟩

/-- The bit of a packet: its word and the place in the word. -/
def slot (seq : ℕ) : ℕ := seq / 64 % (trackerBits / 64) * 64 + seq % 64

theorem slot_mod (n : ℕ) : slot (n % 2 ^ 32) = n % trackerBits := by
  unfold slot trackerBits
  omega

/-- The loop that moves `base` over the packets that were seen. -/
def advance : ℕ → PacketTracker → Option PacketTracker
  | 0, _ => none
  | fuel + 1, t =>
    if t.seen (slot t.base) then
      advance fuel { t with
        seen := Function.update t.seen (slot t.base) false
        base := (t.base + 1) % 2 ^ 32 }
    else some t

/-- `noteSeen`: whether the packet is a duplicate. -/
def noteSeen (t : PacketTracker) (sendSeq : ℕ) (resent : Bool) :
    Option (Bool × PacketTracker) :=
  let delta := unsignedSub sendSeq t.base
  if delta < trackerBits then do
    let duplicate := t.seen (slot sendSeq)
    let t := { t with seen := Function.update t.seen (slot sendSeq) true }
    let t ← if sendSeq = t.base then advance (trackerBits + 1) t else some t
    let ahead := unsignedSub sendSeq t.hwm
    return (duplicate, if 0 < ahead ∧ ahead < 2 ^ 31 then { t with hwm := sendSeq } else t)
  else if resent then some (true, t)
  -- taken for a sender that has restarted
  else some (false, ⟨(sendSeq + 1) % 2 ^ 32, sendSeq, fun _ => false⟩)

def hasSeen (t : PacketTracker) (seq : ℕ) : Bool :=
  let delta := unsignedSub seq t.base
  if delta < trackerBits then t.seen (slot seq) else decide (2 ^ 31 - 1 < delta)

/-! ### What a tracker stands for -/

variable {t : PacketTracker} {got : ℕ → Prop} {missing n : ℕ}

/-- Up to `missing` every packet has been got, and of the next 1024 the bits say which. -/
structure Covers (t : PacketTracker) (got : ℕ → Prop) (missing : ℕ) : Prop where
  base : t.base = missing % 2 ^ 32
  below : ∀ n < missing, got n
  window : ∀ n, missing ≤ n → n < missing + trackerBits →
    (t.seen (n % trackerBits) = true ↔ got n)
  bound : ∀ n, got n → n < missing + trackerBits

/-- `missing` is the first packet that has not been got. -/
structure Tracks (t : PacketTracker) (got : ℕ → Prop) (missing : ℕ) : Prop
    extends Covers t got missing where
  notGot : ¬got missing

theorem tracks_new : Tracks new (fun _ => False) 0 where
  base := rfl
  below := by
    intro n hn
    cases hn
  window := by
    intro n _ _
    exact iff_of_false Bool.false_ne_true id
  bound := by
    intro n hn
    cases hn
  notGot := id

theorem Covers.slot_base (h : Covers t got missing) : slot t.base = missing % trackerBits := by
  rw [h.base, slot_mod]

/-- One step of the loop: the bit of the first packet is free for the one behind the window. -/
theorem Covers.step (h : Covers t got missing) (hgot : got missing) :
    Covers { t with
      seen := Function.update t.seen (slot t.base) false
      base := (t.base + 1) % 2 ^ 32 } got (missing + 1) := by
  refine ⟨?_, ?_, ?_, ?_⟩
  · change (t.base + 1) % 2 ^ 32 = _
    rw [h.base]
    omega
  · intro n hn
    rcases Nat.lt_succ_iff_lt_or_eq.mp hn with hn | rfl
    · exact h.below n hn
    · exact hgot
  · intro n hge hlt
    dsimp only
    rw [h.slot_base]
    by_cases hlast : n = missing + trackerBits
    · have hslot : n % trackerBits = missing % trackerBits := by
        rw [hlast, Nat.add_mod_right]
      rw [hslot, Function.update_self]
      refine iff_of_false Bool.false_ne_true ?_
      intro hn
      exact absurd (h.bound n hn) (by omega)
    · have hslot : n % trackerBits ≠ missing % trackerBits := by
        unfold trackerBits at hlt hlast ⊢
        omega
      rw [Function.update_of_ne hslot]
      exact h.window n (by omega) (by omega)
  · intro n hn
    have hlt := h.bound n hn
    omega

/-- The loop stops at the first packet that has not been got. -/
theorem advance_spec (fuel : ℕ) (h : Covers t got missing) (bound : ℕ)
    (hbound : ∀ n, got n → n < bound) (hfuel : bound < missing + fuel) (hle : missing ≤ bound) :
    ∃ t' missing', advance fuel t = some t' ∧ Tracks t' got missing' ∧ missing ≤ missing' ∧
      missing' ≤ bound ∧ t'.hwm = t.hwm := by
  induction fuel generalizing t missing with
  | zero => omega
  | succ fuel ih =>
    have hiff := h.window missing (le_refl _) (by unfold trackerBits; omega)
    rw [← h.slot_base] at hiff
    unfold advance
    by_cases hgot : got missing
    · rw [if_pos (hiff.mpr hgot)]
      have hlt := hbound missing hgot
      obtain ⟨t', missing', hrun, htracks, hge, hle', hhwm⟩ :=
        ih (h.step hgot) (by omega) (by omega)
      exact ⟨t', missing', hrun, htracks, by omega, hle', hhwm⟩
    · rw [if_neg (fun hc => hgot (hiff.mp hc))]
      exact ⟨t, missing, rfl, ⟨h, hgot⟩, le_refl _, hle, rfl⟩

/-- The bit of a packet in the window is set. -/
theorem Covers.setBit (h : Covers t got missing) (hge : missing ≤ n)
    (hlt : n < missing + trackerBits) :
    Covers { t with seen := Function.update t.seen (slot (n % 2 ^ 32)) true }
      (fun k => got k ∨ k = n) missing := by
  refine ⟨h.base, fun k hk => Or.inl (h.below k hk), ?_, ?_⟩
  · intro k hkge hklt
    dsimp only
    rw [slot_mod]
    by_cases hk : k = n
    · rw [hk, Function.update_self]
      exact iff_of_true rfl (Or.inr rfl)
    · have hslot : k % trackerBits ≠ n % trackerBits := by
        unfold trackerBits at hlt hklt ⊢
        omega
      rw [Function.update_of_ne hslot, h.window k hkge hklt]
      exact (or_iff_left hk).symm
  · rintro k (hk | rfl)
    · exact h.bound k hk
    · exact hlt

/-- A packet in the window: it is a duplicate when it was got before, and then it has been got. -/
theorem noteSeen_window (h : Tracks t got missing) (hge : missing ≤ n)
    (hlt : n < missing + trackerBits) (resent : Bool) :
    ∃ duplicate t' missing', t.noteSeen (n % 2 ^ 32) resent = some (duplicate, t') ∧
      (duplicate = true ↔ got n) ∧ Tracks t' (fun k => got k ∨ k = n) missing' ∧
      missing ≤ missing' ∧ missing' ≤ missing + trackerBits := by
  have hdelta : unsignedSub (n % 2 ^ 32) t.base = n - missing := by
    rw [h.base]
    exact unsignedSub_of_le hge (by unfold trackerBits at hlt; omega)
  have hset := h.toCovers.setBit hge hlt
  have hiff : t.seen (slot (n % 2 ^ 32)) = true ↔ got n := by
    rw [slot_mod]
    exact h.window n hge hlt
  -- `hwm` is not part of what a tracker stands for
  have hhwm : ∀ {t' : PacketTracker} {missing' : ℕ} (hwm : ℕ),
      Tracks t' (fun k => got k ∨ k = n) missing' →
      Tracks { t' with hwm := hwm } (fun k => got k ∨ k = n) missing' :=
    fun hwm ht => ⟨⟨ht.base, ht.below, ht.window, ht.bound⟩, ht.notGot⟩
  unfold noteSeen
  dsimp only
  rw [hdelta, if_pos (by omega)]
  by_cases hfirst : n % 2 ^ 32 = t.base
  · rw [if_pos hfirst]
    obtain ⟨t', missing', hrun, htracks, hle, hbound, -⟩ :=
      advance_spec (trackerBits + 1) hset (missing + trackerBits) hset.bound (by omega) (by omega)
    rw [hrun]
    refine ⟨_, _, missing', rfl, hiff, ?_, hle, hbound⟩
    split_ifs
    · exact hhwm _ htracks
    · exact htracks
  · rw [if_neg hfirst]
    have htracks : Tracks { t with seen := Function.update t.seen (slot (n % 2 ^ 32)) true }
        (fun k => got k ∨ k = n) missing := by
      refine ⟨hset, ?_⟩
      rintro (hgot | heq)
      · exact h.notGot hgot
      · exact hfirst (by rw [h.base, heq])
    refine ⟨_, _, missing, rfl, hiff, ?_, le_refl _, Nat.le_add_right _ _⟩
    split_ifs
    · exact hhwm _ htracks
    · exact htracks

/-- A packet that was sent again and is behind the first missing one is a duplicate. -/
theorem noteSeen_resent (h : Tracks t got missing) (hlt : n < missing)
    (hle : missing + trackerBits ≤ n + 2 ^ 32) : t.noteSeen (n % 2 ^ 32) true = some (true, t) := by
  have hdelta : unsignedSub (n % 2 ^ 32) t.base = n + 2 ^ 32 - missing := by
    rw [h.base]
    exact unsignedSub_of_lt hlt (by omega)
  unfold noteSeen
  dsimp only
  rw [hdelta, if_neg (by omega), if_pos rfl]

/-- The tracker reports what was got, for packets not too far from the first missing one. -/
theorem hasSeen_iff (h : Tracks t got missing) (hlt : n < missing + 2 ^ 31)
    (hle : missing ≤ n + 2 ^ 31) : t.hasSeen (n % 2 ^ 32) = true ↔ got n := by
  unfold hasSeen
  dsimp only
  rw [h.base]
  rcases le_or_gt missing n with hge | hbehind
  · rw [unsignedSub_of_le hge (by omega)]
    by_cases hwindow : n - missing < trackerBits
    · rw [if_pos hwindow, slot_mod]
      exact h.window n hge (by omega)
    · rw [if_neg hwindow, decide_eq_true_iff]
      refine iff_of_false (by omega) ?_
      intro hgot
      exact hwindow (by have hbound := h.bound n hgot; omega)
  · rw [unsignedSub_of_lt hbehind (by omega), if_neg (by unfold trackerBits; omega),
      decide_eq_true_iff]
    exact iff_of_true (by omega) (h.below n hbehind)

end PacketTracker

end Udp
