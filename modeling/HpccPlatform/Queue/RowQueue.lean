import Mathlib.Data.Nat.Bitwise
import Mathlib.Tactic

/-!
# The choice of a row queue

The state word of a `ReaderWriterQueue` has the position of the next item to dequeue, the numbers of
waiting readers and writers and the number of items, from the top down.  `createRowQueue` chooses an
instantiation by the numbers of readers, writers and items; the constructor keeps one slot free.
-/

namespace HpccPlatform

namespace Queue

/-- The template parameters of a `ReaderWriterQueue`, with the number of bits of `state_t`. -/
structure Layout where
  stateBits : ℕ
  readerBits : ℕ
  writerBits : ℕ
  maxSlotBits : ℕ
  fixedSlotBits : ℕ
deriving DecidableEq, Repr

namespace Layout

variable (q : Layout)

/-! The constants are of type `unsigned`, and the masks of type `state_t`. -/

def extraSequenceBits : ℕ := q.writerBits

def padBits : ℕ :=
  (q.stateBits + 2 ^ 32 -
    (q.extraSequenceBits + q.writerBits + 2 * q.maxSlotBits + q.readerBits) % 2 ^ 32) % 2 ^ 32

def countBits : ℕ := (q.maxSlotBits + q.padBits) % 2 ^ 32

def sequenceBits : ℕ := (q.extraSequenceBits + q.maxSlotBits) % 2 ^ 32

def writerShift : ℕ := q.countBits

def readerShift : ℕ := (q.countBits + q.writerBits) % 2 ^ 32

def dequeueShift : ℕ := (q.countBits + q.writerBits + q.readerBits) % 2 ^ 32

def readerMask : BitVec q.stateBits := 1#q.stateBits <<< q.dequeueShift - 1#q.stateBits <<< q.readerShift

def writerMask : BitVec q.stateBits := 1#q.stateBits <<< q.readerShift - 1#q.stateBits <<< q.writerShift

def sequenceMask : BitVec q.stateBits := 1#q.stateBits <<< q.sequenceBits - 1#q.stateBits

def countMask : BitVec q.stateBits := 1#q.stateBits <<< q.countBits - 1#q.stateBits

def dequeueMask : BitVec q.stateBits := q.sequenceMask <<< q.dequeueShift

def maxSlots : ℕ := (1 <<< q.maxSlotBits % 2 ^ 32 + 2 ^ 32 - 1) % 2 ^ 32

def fixedSlotMask : ℕ := (1 <<< q.fixedSlotBits % 2 ^ 32 + 2 ^ 32 - 1) % 2 ^ 32

/-- The amounts of the shifts of the class with the widths of the integers that are shifted: 1 of type
`state_t`, `sequenceMask` and the state, 1 of type `unsigned`, and 1 of type `int`. -/
def shifts : List (ℕ × ℕ) :=
  [(q.dequeueShift, q.stateBits), (q.readerShift, q.stateBits), (q.writerShift, q.stateBits),
    (q.sequenceBits, q.stateBits), (q.countBits, q.stateBits), (q.maxSlotBits, 32),
    (q.fixedSlotBits, 32), (q.readerShift, 32), (q.writerShift, 32)]

/-- The assertions of the constructor on the constants. -/
def layoutAssertions : Bool :=
  decide (q.padBits < q.stateBits) && decide (q.maxSlotBits ≤ q.countBits) &&
    decide ((q.sequenceBits + q.readerBits + q.writerBits + q.countBits) % 2 ^ 32 = q.stateBits) &&
    q.readerMask ||| q.writerMask ||| q.countMask ||| q.dequeueMask == BitVec.allOnes q.stateBits &&
    q.readerMask ||| q.writerMask ||| q.countMask ||| q.dequeueMask ==
      q.readerMask ^^^ q.writerMask ^^^ q.countMask ^^^ q.dequeueMask

end Layout

/-- The number of entries that the queue always leaves free. -/
def minSpace : ℕ := 1

/-- The fields of a `ReaderWriterQueue`, with the sequence numbers of its slots. -/
structure ReaderWriterQueue (q : Layout) where
  maxItems : ℕ
  maxReaders : ℕ
  maxWriters : ℕ
  dynamicSlotMask : ℕ
  activeReaders : ℕ
  activeWriters : ℕ
  aborted : Bool
  state : BitVec q.stateBits
  sequences : List ℕ

/-- The loop of the constructor for the number of slots, in at most `fuel` passes. -/
def slotsFor (space : ℕ) : ℕ → ℕ → ℕ
  | 0, numSlots => numSlots
  | fuel + 1, numSlots =>
    if numSlots < space then slotsFor space fuel ((numSlots + numSlots) % 2 ^ 32) else numSlots

/-- `ReaderWriterQueue(_maxWriters, _maxReaders, _maxItems)`, or `none` when an assertion fails. -/
def ReaderWriterQueue.construct (q : Layout) (_maxWriters _maxReaders _maxItems : ℕ) :
    Option (ReaderWriterQueue q) :=
  if q.layoutAssertions = true ∧ _maxItems ≠ 0 ∧ (_maxItems + minSpace) % 2 ^ 32 ≤ q.maxSlots then
    let numSlots :=
      if q.fixedSlotBits = 0 then slotsFor ((_maxItems + minSpace) % 2 ^ 32) 32 1
      else (q.fixedSlotMask + 1) % 2 ^ 32
    some
      { maxItems := _maxItems
        maxReaders := _maxReaders
        maxWriters := _maxWriters
        dynamicSlotMask := if q.fixedSlotBits = 0 then numSlots - 1 else q.fixedSlotMask
        activeReaders := _maxReaders
        activeWriters := _maxWriters
        aborted := false
        state := 0
        sequences := List.range numSlots }
  else none

/-- The instantiation that `createRowQueue` selects, or `none` when an assertion of it fails. -/
def createRowQueue (numReaders numWriters maxItems maxSlots : ℕ) : Option Layout :=
  if ¬ (maxSlots = 0 ∨ maxItems < maxSlots) then none
  else if numReaders = 1 ∧ numWriters = 1 ∧ maxItems < 256 then some ⟨32, 1, 1, 8, 8⟩
  else if numReaders = 1 ∧ numWriters = 1 ∧ maxItems < 0x4000 then some ⟨32, 1, 1, 14, 0⟩
  else if numReaders = 1 ∧ numWriters ≤ 127 ∧ maxItems < 256 then some ⟨32, 1, 7, 8, 0⟩
  else if numWriters = 1 ∧ numReaders ≤ 255 ∧ maxItems < 2048 then some ⟨32, 8, 1, 11, 0⟩
  else if numReaders ≤ 31 ∧ numWriters ≤ 31 ∧ maxItems < 128 then some ⟨32, 6, 6, 7, 0⟩
  else if numReaders < 0x1000 ∧ numWriters < 0x400 then some ⟨64, 12, 10, 16, 0⟩
  else none

/-- An instantiation fits the readers, the writers and the items: its constructor passes the
assertions, its fields are wide enough for all waiting threads and for the items with one to spare, it
has a slot for each of these, and it shifts no integer by its width or more. -/
structure Fits (q : Layout) (numReaders numWriters maxItems : ℕ) : Prop where
  constructs : ∃ queue, ReaderWriterQueue.construct q numWriters numReaders maxItems = some queue ∧
    maxItems + 1 ≤ queue.sequences.length
  readers : numReaders < 2 ^ q.readerBits
  writers : numWriters < 2 ^ q.writerBits
  count : maxItems + 1 < 2 ^ q.countBits
  shifts : ∀ shift ∈ q.shifts, shift.1 < shift.2

/-! ### The slots -/

/-- The doubling ends at or above the space that is needed. -/
theorem le_slotsFor {space fuel numSlots : ℕ} (hspace : space ≤ 2 ^ 31) (hpos : 0 < numSlots)
    (hfuel : space ≤ numSlots * 2 ^ fuel) : space ≤ slotsFor space fuel numSlots := by
  induction fuel generalizing numSlots with
  | zero =>
    rw [pow_zero, Nat.mul_one] at hfuel
    exact hfuel
  | succ fuel ih =>
    rw [slotsFor]
    by_cases hlt : numSlots < space
    · have hsmall : numSlots + numSlots < 2 ^ 32 := by omega
      rw [if_pos hlt, Nat.mod_eq_of_lt hsmall]
      refine ih (Nat.add_pos_left hpos _) (hfuel.trans_eq ?_)
      ring
    · rw [if_neg hlt]
      exact not_lt.mp hlt

/-- What the constants of an instantiation have to satisfy. -/
def Layout.sound (q : Layout) : Bool :=
  q.layoutAssertions && decide (q.maxSlots < 2 ^ 16 ∧ q.maxSlots < 2 ^ q.countBits ∧
    (q.fixedSlotBits ≠ 0 → q.maxSlots ≤ (q.fixedSlotMask + 1) % 2 ^ 32)) &&
    q.shifts.all fun shift => decide (shift.1 < shift.2)

/-- With sound constants only the numbers matter. -/
theorem fits_iff {q : Layout} (hq : q.sound = true) {numReaders numWriters maxItems : ℕ}
    (hpos : 1 ≤ maxItems) (hmax : maxItems + 1 ≤ 0xffff) :
    Fits q numReaders numWriters maxItems ↔
      maxItems + 1 ≤ q.maxSlots ∧ numReaders < 2 ^ q.readerBits ∧ numWriters < 2 ^ q.writerBits := by
  rw [Layout.sound, Bool.and_eq_true, Bool.and_eq_true, decide_eq_true_iff, List.all_eq_true] at hq
  obtain ⟨⟨hassertions, hslots, hcount, hfixed⟩, hshifts⟩ := hq
  have hspace : (maxItems + minSpace) % 2 ^ 32 = maxItems + 1 := by
    refine Nat.mod_eq_of_lt ?_
    unfold minSpace
    omega
  constructor
  · rintro ⟨⟨queue, hqueue, -⟩, hreaders, hwriters, -, -⟩
    refine ⟨?_, hreaders, hwriters⟩
    by_contra hmany
    rw [ReaderWriterQueue.construct, hspace, if_neg fun h => hmany h.2.2] at hqueue
    cases hqueue
  · rintro ⟨hfew, hreaders, hwriters⟩
    refine ⟨?_, hreaders, hwriters, hfew.trans_lt hcount, fun shift hshift => ?_⟩
    · rw [ReaderWriterQueue.construct, hspace, if_pos ⟨hassertions, Nat.one_le_iff_ne_zero.mp hpos, hfew⟩]
      refine ⟨_, rfl, ?_⟩
      dsimp only
      rw [List.length_range]
      by_cases hdynamic : q.fixedSlotBits = 0
      · rw [if_pos hdynamic]
        refine le_slotsFor ?_ Nat.one_pos ?_
        · exact hmax.trans (by norm_num)
        · exact hmax.trans (by norm_num)
      · rw [if_neg hdynamic]
        exact hfew.trans (hfixed hdynamic)
    · exact of_decide_eq_true (hshifts shift hshift)

/-! ### The choice -/

/-- The numbers of items for which the limit of the choice and the spare slot do not agree. -/
def OnLimit (numReaders numWriters maxItems : ℕ) : Prop :=
  numReaders = 1 ∧ numWriters ≤ 127 ∧ maxItems = 255 ∨
    numReaders = 1 ∧ numWriters = 1 ∧ maxItems = 0x3fff ∨
    2 ≤ numReaders ∧ numReaders ≤ 255 ∧ numWriters = 1 ∧ maxItems = 2047 ∨
    2 ≤ numReaders ∧ numReaders ≤ 31 ∧ 2 ≤ numWriters ∧ numWriters ≤ 31 ∧ maxItems = 127

instance (numReaders numWriters maxItems : ℕ) : Decidable (OnLimit numReaders numWriters maxItems) :=
  inferInstanceAs (Decidable (_ ∨ _))

/-- The queue that `createRowQueue` selects fits, except where a limit of the choice admits one item
more than the constructor. -/
theorem createRowQueue_fits_iff {numReaders numWriters maxItems maxSlots : ℕ}
    (hreaders : 1 ≤ numReaders) (hwriters : 1 ≤ numWriters) (hitems : 1 ≤ maxItems)
    (hmaxReaders : numReaders < 0x1000) (hmaxWriters : numWriters < 0x400)
    (hmaxItems : maxItems + 1 ≤ 0xffff) (hslots : maxSlots = 0 ∨ maxItems < maxSlots) :
    (∃ q, createRowQueue numReaders numWriters maxItems maxSlots = some q ∧
        Fits q numReaders numWriters maxItems) ↔ ¬ OnLimit numReaders numWriters maxItems := by
  have hchoice : ∀ {q : Layout}, q.sound = true →
      ((∃ q', some q = some q' ∧ Fits q' numReaders numWriters maxItems) ↔
        maxItems + 1 ≤ q.maxSlots ∧ numReaders < 2 ^ q.readerBits ∧ numWriters < 2 ^ q.writerBits) := by
    intro q hq
    rw [← fits_iff hq hitems hmaxItems]
    refine ⟨?_, fun h => ⟨q, rfl, h⟩⟩
    rintro ⟨q', hq', h⟩
    exact Option.some.inj hq' ▸ h
  rw [createRowQueue, if_neg (not_not.mpr hslots)]
  unfold OnLimit
  by_cases h₁ : numReaders = 1 ∧ numWriters = 1 ∧ maxItems < 256
  · rw [if_pos h₁, hchoice (by decide +kernel)]
    change maxItems + 1 ≤ 255 ∧ numReaders < 2 ∧ numWriters < 2 ↔ _
    omega
  rw [if_neg h₁]
  by_cases h₂ : numReaders = 1 ∧ numWriters = 1 ∧ maxItems < 0x4000
  · rw [if_pos h₂, hchoice (by decide +kernel)]
    change maxItems + 1 ≤ 16383 ∧ numReaders < 2 ∧ numWriters < 2 ↔ _
    omega
  rw [if_neg h₂]
  by_cases h₃ : numReaders = 1 ∧ numWriters ≤ 127 ∧ maxItems < 256
  · rw [if_pos h₃, hchoice (by decide +kernel)]
    change maxItems + 1 ≤ 255 ∧ numReaders < 2 ∧ numWriters < 128 ↔ _
    omega
  rw [if_neg h₃]
  by_cases h₄ : numWriters = 1 ∧ numReaders ≤ 255 ∧ maxItems < 2048
  · rw [if_pos h₄, hchoice (by decide +kernel)]
    change maxItems + 1 ≤ 2047 ∧ numReaders < 256 ∧ numWriters < 2 ↔ _
    omega
  rw [if_neg h₄]
  by_cases h₅ : numReaders ≤ 31 ∧ numWriters ≤ 31 ∧ maxItems < 128
  · rw [if_pos h₅, hchoice (by decide +kernel)]
    change maxItems + 1 ≤ 127 ∧ numReaders < 64 ∧ numWriters < 64 ↔ _
    omega
  rw [if_neg h₅, if_pos ⟨hmaxReaders, hmaxWriters⟩, hchoice (by decide +kernel)]
  change maxItems + 1 ≤ 65535 ∧ numReaders < 4096 ∧ numWriters < 1024 ↔ _
  omega

/-- One reader and one writer with 100 items. -/
theorem createRowQueue_fits_hundred :
    (∃ q, createRowQueue 1 1 100 0 = some q ∧ Fits q 1 1 100) ↔ ¬ OnLimit 1 1 100 :=
  createRowQueue_fits_iff (by decide) (by decide) (by decide) (by decide) (by decide) (by decide)
    (Or.inl rfl)

/-- With 255 items the first instantiation is selected, which has room for 254. -/
theorem createRowQueue_limit_not_fits :
    ¬ ∃ q, createRowQueue 1 1 255 0 = some q ∧ Fits q 1 1 255 := by
  rintro ⟨q, hq, ⟨queue, hqueue, -⟩, -⟩
  obtain rfl : (⟨32, 1, 1, 8, 8⟩ : Layout) = q := Option.some.inj hq
  have hnone : (ReaderWriterQueue.construct ⟨32, 1, 1, 8, 8⟩ 1 1 255).isNone = true := by decide +kernel
  rw [hqueue] at hnone
  cases hnone

end Queue

end HpccPlatform
