import HpccPlatform.Udp.RoundTrip

/-!
# Sending a packet again

`sendData` of `roxie/udplib/udptrs.cpp` writes a packet from the buffer that it keeps for sending the
packet again.  With encryption it puts the length of the encrypted bytes into the header of that
buffer, so that the next time more bytes are taken for the packet than it has.  A receiver
(`PackageSequencer::insert` of `udpmsgpk.cpp`) finds the metadata by the length of what it decrypts.
-/

namespace Udp

/-- `sizeof(UdpPacketHeader)` -/
def sizeofPacketHeader : ℕ := 28

/-- The fields of `UdpPacketHeader` that a receiver reads. -/
structure UdpPacketHeader where
  length : ℕ
  metalength : ℕ
  pktSeq : ℕ
  deriving DecidableEq

/-- A buffer of the sender: the header and the memory behind it, of which the packet has the first
`length - sizeof(UdpPacketHeader)` bytes. -/
structure KeptBuffer where
  header : UdpPacketHeader
  memory : ℕ → UInt8

/-- What is written to the data socket. -/
structure Datagram where
  header : UdpPacketHeader
  body : List UInt8

namespace KeptBuffer

/-- The bytes behind the header, as many as its length says. -/
def payload (b : KeptBuffer) : List UInt8 :=
  (List.range (b.header.length - sizeofPacketHeader)).map b.memory

/-- The part of `sendData` that writes one packet. -/
def write (c : Cipher) (encrypted : Bool) (b : KeptBuffer) : KeptBuffer × Datagram :=
  let body := c.encode encrypted b.payload
  if encrypted then
    -- only the length has to be updated, but it is updated in the buffer
    let header := { b.header with length := sizeofPacketHeader + body.length }
    ({ b with header := header }, ⟨header, body⟩)
  else (b, ⟨b.header, body⟩)

/-- `UdpResendList::append` marks the packet. -/
def append (b : KeptBuffer) : KeptBuffer :=
  { b with header := { b.header with pktSeq := b.header.pktSeq ||| 2 ^ 30 } }

/-- The packet is sent again. -/
def resend (c : Cipher) (encrypted : Bool) : ℕ → KeptBuffer → List Datagram
  | 0, _ => []
  | times + 1, b =>
    let (b, datagram) := b.write c encrypted
    datagram :: b.resend c encrypted times

/-- All that is written for a packet that is sent once, kept and sent again a number of times. -/
def transmissions (c : Cipher) (encrypted : Bool) (times : ℕ) (b : KeptBuffer) :
    List Datagram :=
  let (b, datagram) := b.write c encrypted
  datagram :: b.append.resend c encrypted times

end KeptBuffer

/-- What a receiver has of a packet. -/
structure Received where
  length : ℕ
  metalength : ℕ
  pktSeq : ℕ
  data : List UInt8
  metadata : List UInt8
  deriving DecidableEq

/-- The packet with the bytes behind its header. -/
def UdpPacketHeader.contents (header : UdpPacketHeader) (bytes : List UInt8) : Received where
  length := bytes.length + sizeofPacketHeader
  metalength := header.metalength
  -- without the mark of a packet that was sent again
  pktSeq := if isResent header.pktSeq then header.pktSeq ^^^ 2 ^ 30 else header.pktSeq
  data := bytes.take (bytes.length - header.metalength)
  metadata := bytes.drop (bytes.length - header.metalength)

/-- A receiver decrypts the bytes behind the header. -/
def Datagram.receive (c : Cipher) (encrypted : Bool) (d : Datagram) : Received :=
  d.header.contents (c.decode encrypted d.body)

/-- Every transmission brings the receiver the packet of the buffer. -/
def SamePacket (c : Cipher) (encrypted : Bool) (times : ℕ) (b : KeptBuffer) : Prop :=
  ∀ d ∈ b.transmissions c encrypted times, d.receive c encrypted = b.header.contents b.payload

/-! ### Which packets stay the same -/

namespace KeptBuffer

variable {c : Cipher} {encrypted : Bool} {b : KeptBuffer}

theorem receive_write (c : Cipher) (encrypted : Bool) (b : KeptBuffer) :
    (b.write c encrypted).2.receive c encrypted = b.header.contents b.payload := by
  unfold write Datagram.receive
  cases encrypted with
  | false =>
    dsimp only
    rw [if_neg Bool.false_ne_true, c.decode_encode]
  | true =>
    dsimp only
    rw [if_pos rfl, c.decode_encode]
    rfl

/-- The mark does not matter to a receiver. -/
theorem contents_append (b : KeptBuffer) (bytes : List UInt8) :
    b.append.header.contents bytes = b.header.contents bytes := by
  have hmark : isResent (b.header.pktSeq ||| 2 ^ 30) = true := by
    unfold isResent
    rw [Nat.testBit_or, Nat.testBit_two_pow_self, Bool.or_true]
  have hclear : (b.header.pktSeq ||| 2 ^ 30) ^^^ 2 ^ 30 =
      if isResent b.header.pktSeq then b.header.pktSeq ^^^ 2 ^ 30 else b.header.pktSeq := by
    apply Nat.eq_of_testBit_eq
    intro i
    rw [Nat.testBit_xor, Nat.testBit_or, Nat.testBit_two_pow]
    by_cases hi : 30 = i
    · subst hi
      unfold isResent
      rw [decide_eq_true rfl, Bool.or_true, Bool.xor_self]
      cases hset : b.header.pktSeq.testBit 30 with
      | false => rw [if_neg Bool.false_ne_true, hset]
      | true => rw [if_pos rfl, Nat.testBit_xor, hset, Nat.testBit_two_pow_self, Bool.xor_self]
    · rw [decide_eq_false hi, Bool.or_false, Bool.xor_false]
      split_ifs
      · rw [Nat.testBit_xor, Nat.testBit_two_pow_of_ne hi, Bool.xor_false]
      · rfl
  unfold UdpPacketHeader.contents append
  dsimp only
  rw [if_pos hmark, hclear]

/-- A buffer that is written once has the length of the encrypted bytes. -/
theorem length_payload_write (c : Cipher) (b : KeptBuffer) :
    (b.write c true).1.payload.length = (c.encrypt b.payload).length := by
  unfold write payload
  dsimp only
  rw [if_pos rfl]
  dsimp only
  rw [List.length_map, List.length_range]
  exact Nat.add_sub_cancel_left _ _

/-- A buffer keeps its payload when it is not encrypted or the encrypted bytes are as many. -/
theorem payload_write (h : encrypted = false ∨ (c.encrypt b.payload).length = b.payload.length) :
    (b.write c encrypted).1.payload = b.payload ∧
      ∀ bytes, (b.write c encrypted).1.header.contents bytes = b.header.contents bytes := by
  unfold write
  cases encrypted with
  | false => exact ⟨rfl, fun _ => rfl⟩
  | true =>
    have hlength := h.resolve_left Bool.true_eq_false_eq_False
    dsimp only
    rw [if_pos rfl]
    refine ⟨?_, fun _ => rfl⟩
    unfold payload at hlength ⊢
    dsimp only [Cipher.encode]
    rw [if_pos rfl, hlength, List.length_map, List.length_range, Nat.add_sub_cancel_left]

/-- The next transmissions of a buffer that keeps its payload. -/
theorem receive_resend (times : ℕ) {d : Datagram} (hd : d ∈ b.resend c encrypted times)
    (h : encrypted = false ∨ (c.encrypt b.payload).length = b.payload.length) :
    d.receive c encrypted = b.header.contents b.payload := by
  induction times generalizing b with
  | zero => cases hd
  | succ times ih =>
    obtain ⟨hpayload, hcontents⟩ := payload_write h
    rcases List.mem_cons.mp hd with rfl | hd
    · exact receive_write c encrypted b
    · have hrest : d ∈ (b.write c encrypted).1.resend c encrypted times := hd
      rw [ih hrest (by rw [hpayload]; exact h), hpayload, hcontents]

/-- **A packet that is sent again is the same packet exactly when** it is not encrypted, or it is
never sent again, or encryption does not change its length. -/
theorem samePacket_iff (c : Cipher) (encrypted : Bool) (times : ℕ) (b : KeptBuffer) :
    SamePacket c encrypted times b ↔
      encrypted = false ∨ times = 0 ∨ (c.encrypt b.payload).length = b.payload.length := by
  constructor
  · intro h
    cases encrypted with
    | false => exact Or.inl rfl
    | true =>
      refine Or.inr ?_
      cases times with
      | zero => exact Or.inl rfl
      | succ times =>
        -- the second transmission tells the length of the encrypted bytes
        have hsecond := h ((b.write c true).1.append.write c true).2
          (List.mem_cons_of_mem _ List.mem_cons_self)
        rw [receive_write, contents_append] at hsecond
        have hlength := congrArg Received.length hsecond
        change (b.write c true).1.payload.length + _ = b.payload.length + _ at hlength
        rw [length_payload_write] at hlength
        exact Or.inr (Nat.add_right_cancel hlength)
  · intro h d hd
    rcases List.mem_cons.mp hd with rfl | hd
    · exact receive_write c encrypted b
    · by_cases hnone : times = 0
      · rw [hnone] at hd
        cases hd
      · have hkeeps : encrypted = false ∨
            (c.encrypt b.payload).length = b.payload.length := by tauto
        obtain ⟨hpayload, hcontents⟩ := payload_write hkeeps
        have happend : (b.write c encrypted).1.append.payload = b.payload := hpayload
        have hagain : d ∈ (b.write c encrypted).1.append.resend c encrypted times := hd
        rw [receive_resend times hagain (by rw [happend]; exact hkeeps), happend,
          contents_append, hcontents]

/-- A cipher that appends a block of 16 bytes. -/
def paddingCipher : Cipher where
  encrypt bytes := bytes ++ List.replicate 16 16
  decrypt bytes := bytes.take (bytes.length - 16)
  decrypt_encrypt bytes := by
    rw [List.length_append, List.length_replicate, Nat.add_sub_cancel, List.take_left]

/-- A packet with one byte of data and one of metadata, encrypted and sent again. -/
theorem encryptedTwice_not_samePacket :
    ¬SamePacket paddingCipher true 1 ⟨⟨30, 1, 0⟩, fun _ => 7⟩ := by
  unfold SamePacket
  decide

end KeptBuffer

end Udp
