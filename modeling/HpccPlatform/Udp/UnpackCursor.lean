import HpccPlatform.Udp.Reassembly

/-!
# Reading a message

`CMessageUnpackCursor` of `roxie/udplib/udpmsgpk.cpp` hands out the data of a message in pieces of
the lengths that the reader asks for.  Positions are counted from behind the packet header.  A
cursor that is `At` some bytes stands on a packet with data left in it, or behind the last packet
when there are none.
-/

namespace Udp

/-- `packetDataLimit`, counted from behind the packet header. -/
def DataBuffer.dataLimit (b : DataBuffer) : ℕ := b.body.length - b.metalength

theorem DataBuffer.length_data (b : DataBuffer) : b.data.length = b.dataLimit := by
  unfold data dataLimit
  rw [List.length_take]
  omega

/-- The bytes between two positions of a packet, when the second is not behind the data. -/
theorem DataBuffer.bytes_eq (b : DataBuffer) {pos n : ℕ} (h : pos + n ≤ b.dataLimit) :
    (b.body.drop pos).take n = (b.data.drop pos).take n := by
  unfold data
  unfold dataLimit at h
  rw [List.drop_take, List.take_take, Nat.min_eq_left (by omega)]

structure CMessageUnpackCursor where
  pkSequencer : PackageSequencer
  dataBuff : Option ℕ
  currentPos : ℕ

namespace CMessageUnpackCursor

/-- The loop that leaves a packet with no data left. -/
def skip : ℕ → CMessageUnpackCursor → Option CMessageUnpackCursor
  | 0, _ => none
  | fuel + 1, c =>
    match c.dataBuff with
    | none => some c
    | some dataBuff =>
      if (c.pkSequencer.buffers dataBuff).dataLimit ≤ c.currentPos then do
        let (dataBuff, pkSequencer) ← c.pkSequencer.next (some dataBuff)
        skip fuel ⟨pkSequencer, dataBuff, 0⟩
      else some c

/-- The constructor: the data is behind the message header. -/
def new (pkSequencer : PackageSequencer) : Option CMessageUnpackCursor := do
  match ← pkSequencer.next none with
  | (none, _) => none
  | (some dataBuff, s) => skip (s.fresh + 2) ⟨s, some dataBuff, s.headerSize + 2⟩

def atEOF (c : CMessageUnpackCursor) : Bool := c.dataBuff.isNone

/-- The loop of `getNext` for bytes in more than one packet; it throws when there are not enough. -/
def copy : ℕ → CMessageUnpackCursor → ℕ → Option (List UInt8 × CMessageUnpackCursor)
  | 0, _, _ => none
  | fuel + 1, c, length =>
    if length = 0 then some ([], c)
    else
      match c.dataBuff with
      | none => none
      | some dataBuff => do
        let b := c.pkSequencer.buffers dataBuff
        let cpyLen := min (b.dataLimit - c.currentPos) length
        let next ← skip (c.pkSequencer.fresh + 2) { c with currentPos := c.currentPos + cpyLen }
        let (bytes, next) ← copy fuel next (length - cpyLen)
        return ((b.body.drop c.currentPos).take cpyLen ++ bytes, next)

/-- `getNext`: `none` inside stands for the null pointer. -/
def getNext (c : CMessageUnpackCursor) (length : ℕ) :
    Option (Option (List UInt8) × CMessageUnpackCursor) :=
  match c.dataBuff with
  | none => some (none, c)
  | some dataBuff =>
    let b := c.pkSequencer.buffers dataBuff
    if length ≤ b.dataLimit - c.currentPos then do
      let next ← skip (c.pkSequencer.fresh + 2) { c with currentPos := c.currentPos + length }
      return (some ((b.body.drop c.currentPos).take length), next)
    else do
      let (bytes, next) ← copy (length + 1) c length
      return (some bytes, next)

/-- Requests one after the other; a null pointer gives no bytes. -/
def getAll : CMessageUnpackCursor → List ℕ → Option (List (List UInt8) × CMessageUnpackCursor)
  | c, [] => some ([], c)
  | c, length :: lengths => do
    let (bytes, c) ← c.getNext length
    let (rest, c) ← getAll c lengths
    return (bytes.getD [] :: rest, c)

/-- Consecutive slices of the given lengths. -/
def slices : List UInt8 → List ℕ → List (List UInt8)
  | _, [] => []
  | bytes, n :: ns => bytes.take n :: slices (bytes.drop n) ns

variable {s : PackageSequencer} {c : CMessageUnpackCursor} {id pos : ℕ} {after : List ℕ}
  {rest : List UInt8}

/-- The data of the packets behind one. -/
def dataOf (s : PackageSequencer) (ids : List ℕ) : List UInt8 :=
  ids.flatMap (fun id => (s.buffers id).data)

/-- The cursor stands in packet `id`, with those of `after` behind it, and can read them. -/
structure Within (c : CMessageUnpackCursor) (id : ℕ) (after : List ℕ) : Prop where
  dataBuff : c.dataBuff = some id
  chain : Linked.Chain c.pkSequencer.msgNext (c.pkSequencer.msgNext id) after
  signals : c.pkSequencer.dataAvailable = after.length + 1
  fuel : after.length < c.pkSequencer.fresh + 1

/-- The bytes `rest` are left to read. -/
def At (c : CMessageUnpackCursor) (rest : List UInt8) : Prop :=
  (∃ id after, Within c id after ∧
    c.currentPos < (c.pkSequencer.buffers id).dataLimit ∧
    rest = (c.pkSequencer.buffers id).data.drop c.currentPos ++ dataOf c.pkSequencer after) ∨
  (c.dataBuff = none ∧ rest = [])

theorem At.eof_iff (h : At c rest) : c.atEOF = true ↔ rest = [] := by
  unfold atEOF
  rcases h with ⟨id, after, hwithin, hpos, rfl⟩ | ⟨hnone, rfl⟩
  · rw [hwithin.dataBuff]
    refine iff_of_false Bool.false_ne_true ?_
    intro hnil
    have hlength := congrArg List.length hnil
    rw [List.length_append, List.length_drop, DataBuffer.length_data, List.length_nil] at hlength
    omega
  · rw [hnone]
    exact iff_of_true rfl rfl

/-- With a signal `next` does not block. -/
theorem next_of_signal (hpos : 0 < s.dataAvailable) (a : ℕ) {behind : Option ℕ}
    (hnext : s.msgNext a = behind) :
    s.next (some a) = some (behind, { s with dataAvailable := s.dataAvailable - 1 }) := by
  have hbehind : s.behind (some a) = behind := hnext
  unfold PackageSequencer.next
  rw [if_neg (Nat.ne_of_gt hpos), hbehind]

/-- The loop stops at the next packet with data. -/
theorem skip_spec (fuel : ℕ) (h : Within c id after) (hfuel : after.length + 1 < fuel) :
    ∃ c', skip fuel c = some c' ∧ c'.pkSequencer.fresh = c.pkSequencer.fresh ∧
      At c' ((c.pkSequencer.buffers id).data.drop c.currentPos ++ dataOf c.pkSequencer after) := by
  induction after generalizing c id fuel with
  | nil =>
    obtain ⟨fuel, rfl⟩ : ∃ n, fuel = n + 1 := ⟨fuel - 1, by omega⟩
    unfold skip
    rw [h.dataBuff]
    dsimp only
    by_cases hpos : (c.pkSequencer.buffers id).dataLimit ≤ c.currentPos
    · obtain ⟨fuel, rfl⟩ : ∃ n, fuel = n + 1 := ⟨fuel - 1, by simp at hfuel; omega⟩
      have hnull : c.pkSequencer.msgNext id = none := h.chain
      rw [if_pos hpos, next_of_signal (by rw [h.signals]; omega) id hnull]
      refine ⟨_, rfl, rfl, Or.inr ⟨rfl, ?_⟩⟩
      rw [List.drop_eq_nil_of_le (by rw [DataBuffer.length_data]; exact hpos)]
      rfl
    · rw [if_neg hpos]
      exact ⟨c, rfl, rfl, Or.inl ⟨id, [], h, not_le.mp hpos, rfl⟩⟩
  | cons next after ih =>
    obtain ⟨fuel, rfl⟩ : ∃ n, fuel = n + 1 := ⟨fuel - 1, by omega⟩
    unfold skip
    rw [h.dataBuff]
    dsimp only
    by_cases hpos : (c.pkSequencer.buffers id).dataLimit ≤ c.currentPos
    · obtain ⟨hsome, hbehind⟩ := Linked.chain_cons h.chain
      have hsignals := h.signals
      have hlength := h.fuel
      rw [List.length_cons] at hsignals hlength hfuel
      rw [if_pos hpos, next_of_signal (by omega) id hsome]
      have hwithin : Within ⟨{ c.pkSequencer with
          dataAvailable := c.pkSequencer.dataAvailable - 1 }, some next, 0⟩ next after :=
        ⟨rfl, hbehind, by dsimp only; omega, by dsimp only; omega⟩
      obtain ⟨c', hrun, hfresh, hat⟩ := ih fuel hwithin (by omega)
      refine ⟨c', hrun, hfresh, ?_⟩
      rw [List.drop_eq_nil_of_le (by rw [DataBuffer.length_data]; exact hpos), List.nil_append]
      exact hat
    · rw [if_neg hpos]
      exact ⟨c, rfl, rfl, Or.inl ⟨id, next :: after, h, not_le.mp hpos, rfl⟩⟩

/-- The cursor moves on inside its packet. -/
theorem Within.advance (h : Within c id after) (n : ℕ) :
    Within { c with currentPos := c.currentPos + n } id after :=
  ⟨h.dataBuff, h.chain, h.signals, h.fuel⟩

/-- The loop reads across packets. -/
theorem copy_spec {fuel : ℕ} (length : ℕ) (h : At c rest) (hlength : length ≤ rest.length)
    (hfuel : length < fuel) :
    ∃ c', copy fuel c length = some (rest.take length, c') ∧ At c' (rest.drop length) := by
  induction fuel generalizing c rest length with
  | zero => omega
  | succ fuel ih =>
    unfold copy
    by_cases hzero : length = 0
    · rw [if_pos hzero, hzero]
      exact ⟨c, rfl, h⟩
    · rw [if_neg hzero]
      rcases h with ⟨id, after, hwithin, hpos, rfl⟩ | ⟨hnone, rfl⟩
      · rw [hwithin.dataBuff]
        dsimp only [Option.bind_eq_bind]
        generalize hcpy : min ((c.pkSequencer.buffers id).dataLimit - c.currentPos) length = cpyLen
        obtain ⟨next, hskip, hfresh, hat⟩ :=
          skip_spec (c.pkSequencer.fresh + 2) (hwithin.advance cpyLen)
            (by have hle := hwithin.fuel; omega)
        rw [hwithin.dataBuff] at hskip
        have hdata := DataBuffer.length_data (c.pkSequencer.buffers id)
        have hcut : (((c.pkSequencer.buffers id).data.drop c.currentPos
            ++ dataOf c.pkSequencer after).drop cpyLen)
            = (c.pkSequencer.buffers id).data.drop (c.currentPos + cpyLen)
              ++ dataOf c.pkSequencer after := by
          rw [List.drop_append_of_le_length (by rw [List.length_drop]; omega), List.drop_drop]
        have hhead : (((c.pkSequencer.buffers id).data.drop c.currentPos
            ++ dataOf c.pkSequencer after).take cpyLen)
            = ((c.pkSequencer.buffers id).body.drop c.currentPos).take cpyLen := by
          rw [List.take_append_of_le_length (by rw [List.length_drop]; omega),
            DataBuffer.bytes_eq _ (by omega)]
        rw [← hcut] at hat
        obtain ⟨c', hcopy, hat'⟩ := ih (length - cpyLen) hat
          (by rw [List.length_drop]; omega) (by omega)
        rw [hskip, Option.bind_some, hcopy, Option.bind_some]
        refine ⟨c', ?_, ?_⟩
        · dsimp only
          rw [← hhead, ← List.take_add, Nat.add_sub_cancel' (by omega)]
          rfl
        · rw [List.drop_drop, Nat.add_sub_cancel' (by omega)] at hat'
          exact hat'
      · rw [List.length_nil] at hlength
        omega

/-- One request within the data that is left. -/
theorem getNext_spec {length : ℕ} (h : At c rest) (hlength : length ≤ rest.length) :
    ∃ bytes c', c.getNext length = some (bytes, c') ∧ bytes.getD [] = rest.take length ∧
      At c' (rest.drop length) := by
  rcases h with ⟨id, after, hwithin, hpos, hrest⟩ | ⟨hnone, rfl⟩
  · unfold getNext
    rw [hwithin.dataBuff]
    dsimp only [Option.bind_eq_bind]
    by_cases hin : length ≤ (c.pkSequencer.buffers id).dataLimit - c.currentPos
    · rw [if_pos hin]
      obtain ⟨next, hskip, -, hat⟩ :=
        skip_spec (c.pkSequencer.fresh + 2) (hwithin.advance length)
          (by have hle := hwithin.fuel; omega)
      rw [hwithin.dataBuff] at hskip
      have hdata := DataBuffer.length_data (c.pkSequencer.buffers id)
      rw [hskip, Option.bind_some]
      refine ⟨_, next, rfl, ?_, ?_⟩
      · rw [hrest, List.take_append_of_le_length (by rw [List.length_drop]; omega),
          ← DataBuffer.bytes_eq _ (by omega)]
        rfl
      · rw [hrest, List.drop_append_of_le_length (by rw [List.length_drop]; omega), List.drop_drop]
        exact hat
    · rw [if_neg hin]
      have hat : At c rest := Or.inl ⟨id, after, hwithin, hpos, hrest⟩
      obtain ⟨c', hcopy, hat'⟩ := copy_spec length hat hlength (Nat.lt_succ_self length)
      rw [hcopy, Option.bind_some]
      exact ⟨_, c', rfl, rfl, hat'⟩
  · unfold getNext
    rw [hnone]
    refine ⟨none, c, rfl, ?_, Or.inr ⟨hnone, List.drop_nil⟩⟩
    rw [List.take_nil]
    rfl

/-- Requests one after the other give consecutive slices. -/
theorem getAll_spec {lengths : List ℕ} (h : At c rest) (hsum : lengths.sum ≤ rest.length) :
    ∃ c', c.getAll lengths = some (slices rest lengths, c') ∧ At c' (rest.drop lengths.sum) := by
  induction lengths generalizing c rest with
  | nil => exact ⟨c, rfl, h⟩
  | cons length lengths ih =>
    rw [List.sum_cons] at hsum ⊢
    obtain ⟨bytes, next, hget, hbytes, hat⟩ := getNext_spec h (Nat.le_of_add_right_le hsum)
    obtain ⟨c', hall, hat'⟩ := ih hat (by rw [List.length_drop]; omega)
    refine ⟨c', ?_, ?_⟩
    · unfold getAll
      dsimp only [Option.bind_eq_bind]
      rw [hget, Option.bind_some]
      dsimp only
      rw [hall, Option.bind_some, hbytes]
      rfl
    · rw [List.drop_drop] at hat'
      exact hat'

/-- A new cursor on a whole message is at the data behind the message header. -/
theorem new_spec {ids : List ℕ} (hchain : Linked.Chain s.msgNext s.firstPacket (id :: after))
    (hids : ids = id :: after) (hsignals : s.dataAvailable = ids.length + 1)
    (hfresh : ids.length ≤ s.fresh) :
    ∃ c, new s = some c ∧
      At c ((s.buffers id).data.drop (s.headerSize + 2) ++ dataOf s after) := by
  subst hids
  obtain ⟨hfirst, hbehind⟩ := Linked.chain_cons hchain
  have hnext : s.next none
      = some (some id, { s with dataAvailable := s.dataAvailable - 1 }) := by
    have hstart : s.behind none = some id := hfirst
    unfold PackageSequencer.next
    rw [if_neg (by rw [hsignals]; omega), hstart]
  rw [List.length_cons] at hsignals hfresh
  have hwithin : Within ⟨{ s with dataAvailable := s.dataAvailable - 1 }, some id,
      s.headerSize + 2⟩ id after :=
    ⟨rfl, hbehind, by dsimp only; omega, by dsimp only; omega⟩
  obtain ⟨c, hskip, -, hat⟩ := skip_spec (s.fresh + 2) hwithin (by omega)
  refine ⟨c, ?_, hat⟩
  unfold new
  dsimp only [Option.bind_eq_bind]
  rw [hnext, Option.bind_some]
  exact hskip

end CMessageUnpackCursor

end Udp
