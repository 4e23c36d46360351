import HpccPlatform.Udp.Layout
import HpccPlatform.Udp.UnpackCursor

/-!
# Packing and unpacking

The packets that the packer sends, received by a sequencer and read through a cursor.  They are
encrypted on the way when encryption is on, and may be marked as sent again.
-/

namespace Udp

/-- `DATA_ALIGNMENT_SIZE`: a power of two between 0x400 and 0x2000. -/
structure Alignment where
  bits : ℕ
  ten_le : 10 ≤ bits
  le_thirteen : bits ≤ 13

/-- `data_buffer_size`: without the head of a `DataBuffer`, the packet header and the bytes that
encryption may add. -/
def Alignment.dataBufferSize (a : Alignment) (encrypted : Bool) : ℕ :=
  2 ^ a.bits - 32 - 28 - if encrypted then 16 else 0

theorem Alignment.dataBufferSize_bounds (a : Alignment) (encrypted : Bool) :
    4 ≤ a.dataBufferSize encrypted ∧ a.dataBufferSize encrypted < 2 ^ 16 := by
  have hge : 2 ^ 10 ≤ 2 ^ a.bits := Nat.pow_le_pow_right (by decide) a.ten_le
  have hle : 2 ^ a.bits ≤ 2 ^ 13 := Nat.pow_le_pow_right (by decide) a.le_thirteen
  unfold dataBufferSize
  split_ifs <;> omega

/-- The cipher of the packets: it decrypts what it encrypted. -/
structure Cipher where
  encrypt : List UInt8 → List UInt8
  decrypt : List UInt8 → List UInt8
  decrypt_encrypt : ∀ bytes, decrypt (encrypt bytes) = bytes

namespace Cipher

/-- What is behind the packet header on the way. -/
def encode (c : Cipher) (encrypted : Bool) (bytes : List UInt8) : List UInt8 :=
  if encrypted then c.encrypt bytes else bytes

def decode (c : Cipher) (encrypted : Bool) (bytes : List UInt8) : List UInt8 :=
  if encrypted then c.decrypt bytes else bytes

theorem decode_encode (c : Cipher) (encrypted : Bool) (bytes : List UInt8) :
    c.decode encrypted (c.encode encrypted bytes) = bytes := by
  cases encrypted with
  | false => rfl
  | true => exact c.decrypt_encrypt bytes

end Cipher

/-- A packet on the way. -/
def transmit (c : Cipher) (encrypted resent : Bool) (b : DataBuffer) : DataBuffer :=
  { b with
    pktSeq := if resent then b.pktSeq ||| 2 ^ 30 else b.pktSeq
    body := c.encode encrypted b.body }

namespace CMessagePacker

/-- What is packed is what is unpacked: the packets are numbered in order with the mark of the last
one on the last only and are not too large, and a sequencer that received them all, in any order,
has the header and the metadata and gives the records to its cursor. -/
def RoundTrips (a : Alignment) (c : Cipher) (encrypted : Bool) (node msgSeq : UInt32)
    (header : List UInt8) (ops : List Op) : Prop :=
  ∃ packets, pack (a.dataBufferSize encrypted) node msgSeq header ops = some packets ∧
    (∀ i b, packets[i]? = some b → sequenceNumber b.pktSeq = i ∧
      (isComplete b.pktSeq = true ↔ i + 1 = packets.length) ∧
      b.body.length ≤ a.dataBufferSize encrypted) ∧
    ∀ calls : List (Fin packets.length × Bool), (∀ i, ∃ resent, (i, resent) ∈ calls) →
      ∃ results s cursor,
        PackageSequencer.new.insertAll (c.decode encrypted)
          (calls.map (fun call => transmit c encrypted call.2 (packets.get call.1)))
          = some (results, s) ∧
        s.header = header ∧ s.headerSize = header.length ∧ s.metadata = Udp.metaInfo ops ∧
        CMessageUnpackCursor.new s = some cursor ∧
        ∀ lengths : List ℕ, lengths.sum ≤ (stream ops).length →
          ∃ cursor', cursor.getAll lengths
            = some (CMessageUnpackCursor.slices (stream ops) lengths, cursor') ∧
            (cursor'.atEOF = true ↔ lengths.sum = (stream ops).length)

/-- The lengths fit: a record whose length wraps around with its prefix has room where it is put,
and the packets can be numbered. -/
def Fits (a : Alignment) (encrypted : Bool) (header : List UInt8) (ops : List Op) : Prop :=
  ∃ l, Layout.placeAll (a.dataBufferSize encrypted) ⟨0, header.length + 2⟩ ops = some l ∧
    l.packets (a.dataBufferSize encrypted) (Udp.metaInfo ops).length ≤ 2 ^ 30

/-! ### The packets as a message -/

variable {size : ℕ} {node msgSeq : UInt32} {front text metaData : List UInt8}
  {packets : List DataBuffer} {parts : List Part} {last : Part} {c : Cipher} {encrypted : Bool}

/-- The packets as the sequencer knows them. -/
def messageOf (c : Cipher) (encrypted : Bool) (node msgSeq : UInt32) (parts : List Part)
    (last : Part) (hlt : parts.length < 2 ^ 30) : Message where
  node := node
  msgSeq := msgSeq
  last := parts.length
  last_lt := hlt
  metalength := fun i => ((parts ++ [last]).getD i ([], [])).2.length
  body := fun i =>
    c.encode encrypted (((parts ++ [last]).getD i ([], [])).1
      ++ ((parts ++ [last]).getD i ([], [])).2)

theorem kept_body (hlt : parts.length < 2 ^ 30) (i : ℕ) :
    ((messageOf c encrypted node msgSeq parts last hlt).kept (c.decode encrypted) i).body
      = ((parts ++ [last]).getD i ([], [])).1 ++ ((parts ++ [last]).getD i ([], [])).2 := by
  unfold Message.kept messageOf
  dsimp only
  rw [c.decode_encode]

/-- The parts of a message, as the data and the metadata of its packets. -/
theorem kept_part (hlt : parts.length < 2 ^ 30) (i : ℕ) :
    ((messageOf c encrypted node msgSeq parts last hlt).kept (c.decode encrypted) i).data
      = ((parts ++ [last]).getD i ([], [])).1 ∧
    ((messageOf c encrypted node msgSeq parts last hlt).kept (c.decode encrypted) i).metadata
      = ((parts ++ [last]).getD i ([], [])).2 := by
  have hmeta : ((messageOf c encrypted node msgSeq parts last hlt).kept
      (c.decode encrypted) i).metalength = ((parts ++ [last]).getD i ([], [])).2.length := rfl
  unfold DataBuffer.data DataBuffer.metadata
  rw [kept_body, hmeta, List.length_append, Nat.add_sub_cancel]
  exact ⟨List.take_left, List.drop_left⟩

/-- The packets are those that the sequencer keeps. -/
theorem Packed.eq_kept (h : Packed size node msgSeq front text metaData packets parts last)
    (hlt : parts.length < 2 ^ 30) :
    packets = (List.range (parts.length + 1)).map
      ((messageOf c encrypted node msgSeq parts last hlt).kept (c.decode encrypted)) := by
  rw [h.packets]
  apply List.ext_getElem?
  intro i
  rw [List.getElem?_map]
  have hkept : (messageOf c encrypted node msgSeq parts last hlt).kept (c.decode encrypted) i
      = ⟨node, msgSeq, i + (if i = parts.length then 2 ^ 31 else 0),
        ((parts ++ [last]).getD i ([], [])).2.length,
        ((parts ++ [last]).getD i ([], [])).1 ++ ((parts ++ [last]).getD i ([], [])).2⟩ := by
    unfold Message.kept messageOf Message.pktSeq
    dsimp only
    rw [c.decode_encode]
  rcases lt_trichotomy i parts.length with hi | rfl | hi
  · have hget : (parts ++ [last]).getD i ([], []) = parts[i] := by
      rw [List.getD_eq_getElem?_getD, List.getElem?_append_left hi, List.getElem?_eq_getElem hi,
        Option.getD_some]
    rw [List.getElem?_append_left (by rw [List.length_mapIdx]; exact hi), List.getElem?_mapIdx,
      List.getElem?_eq_getElem hi, List.getElem?_range (by omega), Option.map_some,
      Option.map_some, hkept, hget, if_neg (by omega), packetOf, Nat.mod_eq_of_lt (by omega)]
    rfl
  · have hget : (parts ++ [last]).getD parts.length ([], []) = last := by
      rw [List.getD_eq_getElem?_getD, List.getElem?_concat_length, Option.getD_some]
    have hlast : (parts.mapIdx (packetOf node msgSeq)).length = parts.length :=
      List.length_mapIdx
    rw [List.getElem?_append_right (by rw [hlast]), hlast, Nat.sub_self,
      List.getElem?_range (by omega), Option.map_some, hkept, hget, if_pos rfl, lastPacketOf,
      Nat.mod_eq_of_lt (by omega), Nat.or_two_pow_eq_add_of_lt (by omega)]
    rfl
  · rw [List.getElem?_eq_none (by simp; omega), List.getElem?_eq_none (by simp; omega)]
    rfl

/-- The mark of a packet that was sent again, in a packet number that does not have it. -/
theorem pktSeq_or (m : Message) {i : ℕ} (hi : i ≤ m.last) :
    m.pktSeq i ||| 2 ^ 30 = m.pktSeq i + 2 ^ 30 := by
  have hlast := m.last_lt
  unfold Message.pktSeq
  by_cases heq : i = m.last
  · have hmark : i ||| 2 ^ 30 = i + 2 ^ 30 := Nat.or_two_pow_eq_add_of_lt (by omega)
    have hcomplete : i + 2 ^ 31 = i ||| 2 ^ 31 := (Nat.or_two_pow_eq_add_of_lt (by omega)).symm
    rw [if_pos heq, hcomplete, Nat.or_assoc, Nat.or_comm (2 ^ 31), ← Nat.or_assoc, hmark,
      Nat.or_two_pow_eq_add_of_lt (by omega), ← hcomplete]
    omega
  · rw [if_neg heq, Nat.add_zero]
    exact Nat.or_two_pow_eq_add_of_lt (by omega)

/-- A packet on the way is a packet of the message. -/
theorem transmit_kept (hlt : parts.length < 2 ^ 30) {i : ℕ} (hi : i ≤ parts.length)
    (resent : Bool) :
    transmit c encrypted resent
        ((messageOf c encrypted node msgSeq parts last hlt).kept (c.decode encrypted) i)
      = (messageOf c encrypted node msgSeq parts last hlt).packet i resent := by
  have hseq : (if resent then (messageOf c encrypted node msgSeq parts last hlt).pktSeq i ||| 2 ^ 30
      else (messageOf c encrypted node msgSeq parts last hlt).pktSeq i)
      = (messageOf c encrypted node msgSeq parts last hlt).pktSeq i
        + if resent then 2 ^ 30 else 0 := by
    cases resent with
    | false => rfl
    | true => exact pktSeq_or _ hi
  have hbody : c.encode encrypted ((messageOf c encrypted node msgSeq parts last hlt).kept
      (c.decode encrypted) i).body = (messageOf c encrypted node msgSeq parts last hlt).body i := by
    unfold Message.kept messageOf
    dsimp only
    rw [c.decode_encode]
  unfold transmit Message.packet
  rw [hbody, ← hseq]
  rfl

/-- A list read through its indices. -/
theorem flatMap_range_getD (all : List Part) (f : Part → List UInt8) :
    (List.range all.length).flatMap (fun i => f (all.getD i ([], []))) = all.flatMap f := by
  induction all using List.reverseRecOn with
  | nil => rfl
  | append_singleton all part ih =>
    rw [List.length_append, List.length_singleton, List.range_succ, List.flatMap_append,
      List.flatMap_append, List.flatMap_singleton, List.flatMap_singleton]
    congr 1
    · rw [← ih]
      apply List.flatMap_congr
      intro i hi
      rw [List.mem_range] at hi
      rw [List.getD_eq_getElem?_getD, List.getElem?_append_left hi, List.getD_eq_getElem?_getD]
    · rw [List.getD_eq_getElem?_getD, List.getElem?_concat_length, Option.getD_some]

/-- The two bytes before the message header are its length. -/
theorem headerSize_headerBlock {header more : List UInt8} {b : DataBuffer}
    (hbody : b.body = headerBlock header ++ more) (hlt : header.length < 2 ^ 16) :
    b.headerSize = header.length ∧ b.header = header := by
  have hsize : b.headerSize = header.length := by
    unfold DataBuffer.headerSize
    rw [hbody]
    unfold headerBlock littleEndian littleEndian littleEndian
    simp only [List.cons_append, List.getD_cons_zero, List.getD_cons_succ, UInt8.toNat_ofNat']
    omega
  refine ⟨hsize, ?_⟩
  unfold DataBuffer.header
  rw [hsize, hbody]
  unfold headerBlock littleEndian littleEndian littleEndian
  simp only [List.cons_append, List.nil_append, List.drop_succ_cons, List.drop_zero]
  exact List.take_left

theorem Packed.getElem_eq (c : Cipher) (encrypted : Bool)
    (h : Packed size node msgSeq front text metaData packets parts last) (hlt : parts.length < 2 ^ 30)
    {i : ℕ} (hi : i < packets.length) (hi' : i ≤ parts.length) :
    packets[i] = (messageOf c encrypted node msgSeq parts last hlt).kept (c.decode encrypted) i := by
  rw [List.getElem_eq_iff, h.eq_kept hlt, List.getElem?_map, List.getElem?_range (by omega),
    Option.map_some]

theorem Packed.length_eq (h : Packed size node msgSeq front text metaData packets parts last) :
    packets.length = parts.length + 1 := by
  rw [h.packets, List.length_append, List.length_mapIdx]
  rfl

/-- The packets of the message that came are those of the packer on the way. -/
theorem Packed.arrivals (h : Packed size node msgSeq front text metaData packets parts last)
    (hlt : parts.length < 2 ^ 30) (calls : List (Fin packets.length × Bool)) :
    calls.map (fun call => transmit c encrypted call.2 (packets.get call.1))
      = (messageOf c encrypted node msgSeq parts last hlt).arrivals
          (calls.map (fun call => (call.1.cast h.length_eq, call.2))) := by
  unfold Message.arrivals
  rw [List.map_map]
  apply List.map_congr_left
  intro call _
  have hle : (call.1 : ℕ) ≤ parts.length := by
    have hbound := call.1.isLt
    have hlength := h.length_eq
    omega
  dsimp only [Function.comp]
  rw [List.get_eq_getElem, h.getElem_eq c encrypted hlt call.1.isLt hle, transmit_kept hlt hle]
  rfl

/-- The packets of the packer, all received: the header, the metadata and the records. -/
theorem Packed.unpacks {header : List UInt8} {ops : List Op} (hheader : header.length < 2 ^ 16)
    (h : Packed size node msgSeq (headerBlock header) (headerBlock header ++ stream ops)
      metaData packets parts last)
    (hlt : parts.length < 2 ^ 30) {received done pending : List ℕ} {s : PackageSequencer}
    (hholds : PackageSequencer.Holds (messageOf c encrypted node msgSeq parts last hlt)
      (c.decode encrypted) received s done pending)
    (hcomplete : PackageSequencer.Complete (messageOf c encrypted node msgSeq parts last hlt)
      received) :
    s.header = header ∧ s.headerSize = header.length ∧ s.metadata = metaData ∧
    ∃ cursor, CMessageUnpackCursor.new s = some cursor ∧
      CMessageUnpackCursor.At cursor (stream ops) := by
  have hlength : done.length = (parts ++ [last]).length := by
    rw [hholds.length_eq hcomplete, List.length_append]
    rfl
  have hnil := hholds.pending_eq_nil hcomplete
  subst hnil
  obtain ⟨first, rest, hfirst, more, hmore⟩ := h.front
  have hzero : (parts ++ [last]).getD 0 ([], []) = first := by
    rw [hfirst]
    rfl
  have hpos : 0 < done.length := by
    rw [hlength, hfirst]
    exact Nat.succ_pos _
  obtain ⟨hhead, hheadSize⟩ := hholds.taken.header hpos
  have hbody : ((messageOf c encrypted node msgSeq parts last hlt).kept
      (c.decode encrypted) 0).body = headerBlock header ++ (more ++ first.2) := by
    rw [kept_body, hzero, ← hmore, List.append_assoc]
  obtain ⟨hsize, hheader'⟩ := headerSize_headerBlock hbody hheader
  rw [hsize] at hheadSize
  refine ⟨hhead.trans hheader', hheadSize, ?_, ?_⟩
  · rw [hholds.taken.metadata, hlength, ← h.metadata, ← flatMap_range_getD]
    apply List.flatMap_congr
    intro i _
    exact (kept_part hlt i).2
  · obtain ⟨id, after, rfl⟩ := List.exists_cons_of_length_pos hpos
    have hchain := hholds.threaded.chain
    have hfresh := hholds.threaded.length
    rw [List.append_nil] at hchain hfresh
    have hsignals := hholds.reassembled.signalsComplete hcomplete
    obtain ⟨cursor, hnew, hat⟩ :=
      CMessageUnpackCursor.new_spec hchain rfl hsignals hfresh.le
    have hmap := hholds.map_buffers hcomplete
    have hall : (id :: after).flatMap (fun id => (s.buffers id).data)
        = headerBlock header ++ stream ops := by
      have hdata : ((id :: after).map s.buffers).map DataBuffer.data
          = (List.range (parts ++ [last]).length).map
            (fun i => ((parts ++ [last]).getD i ([], [])).1) := by
        rw [hmap, List.map_map, List.length_append]
        apply List.map_congr_left
        intro i _
        exact (kept_part hlt i).1
      rw [← h.data, ← flatMap_range_getD, List.flatMap_def, List.flatMap_def, ← hdata, List.map_map]
      rfl
    have hdata : (s.buffers id).data = first.1 := by
      have hhead' : s.buffers id = (messageOf c encrypted node msgSeq parts last hlt).kept
          (c.decode encrypted) 0 := by
        rw [List.range_succ_eq_map, List.map_cons, List.map_cons] at hmap
        exact (List.cons.inj hmap).1
      rw [hhead', (kept_part hlt 0).1, hzero]
    have hblock : (headerBlock header).length = header.length + 2 := by
      unfold headerBlock
      rw [List.length_append, length_littleEndian, Nat.add_comm]
    refine ⟨cursor, hnew, ?_⟩
    rw [List.flatMap_cons, hdata, ← hmore, List.append_assoc, List.append_cancel_left_eq] at hall
    rw [hheadSize, hdata, ← hmore, ← hblock, List.drop_left] at hat
    rw [← hall]
    exact hat

/-- The smallest packets. -/
def smallPackets : Alignment := ⟨10, le_refl 10, by decide⟩

/-- No cipher. -/
def plainText : Cipher := ⟨id, id, fun _ => rfl⟩

/-- A variable record of which 2 ^ 32 - 4 bytes are asked for: with the prefix the length is 0. -/
def wrappedRecord : Record where
  len := 2 ^ 32 - 4
  variableSize := true
  bytes := List.replicate 1000 0
  len_lt := by decide
  bytes_pos := by
    rw [List.length_replicate]
    decide
  bytes_le := by
    rw [List.length_replicate]
    decide

end CMessagePacker

end Udp
