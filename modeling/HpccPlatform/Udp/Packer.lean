import Mathlib.Data.Nat.Bitwise
import HpccPlatform.Udp.Sequencer

/-!
# Packing a message

`CMessagePacker` of `roxie/udplib/udptrs.cpp` cuts a message into packets: the message header,
then the records, then the metadata.  A record that fits a packet is not cut; a larger one is
collected in a buffer of its own first and then spread.  The lengths are 32-bit, also the length
of a variable record together with the prefix that holds it.
-/

namespace Udp

/-- A record: the length that `getBuffer` is asked for and the bytes that `putBuffer` is given. -/
structure Record where
  len : ℕ
  variableSize : Bool
  bytes : List UInt8
  len_lt : len < 2 ^ 32
  bytes_pos : 0 < bytes.length
  bytes_le : bytes.length ≤ len

/-- An `unsigned` or an `unsigned short` in memory. -/
def littleEndian : ℕ → ℕ → List UInt8
  | 0, _ => []
  | width + 1, n => UInt8.ofNat n :: littleEndian width (n / 256)

@[simp] theorem length_littleEndian (width n : ℕ) : (littleEndian width n).length = width := by
  induction width generalizing n with
  | zero => rfl
  | succ width ih => rw [littleEndian, List.length_cons, ih]

namespace Record

/-- The length that `getBuffer` looks for room for. -/
def need (r : Record) : ℕ := if r.variableSize then (r.len + 4) % 2 ^ 32 else r.len

/-- The record as it is in the message. -/
def text (r : Record) : List UInt8 :=
  if r.variableSize then littleEndian 4 r.bytes.length ++ r.bytes else r.bytes

theorem text_pos (r : Record) : 0 < r.text.length := by
  have hpos := r.bytes_pos
  unfold text
  split_ifs
  · rw [List.length_append, length_littleEndian]
    omega
  · exact hpos

end Record

/-- What a caller does with a packer before the last `flush`. -/
inductive Op where
  | record (r : Record)
  | sendMetaInfo (bytes : List UInt8)

/-- The records of a message, one behind the other. -/
def stream : List Op → List UInt8
  | [] => []
  | .record r :: ops => r.text ++ stream ops
  | .sendMetaInfo _ :: ops => stream ops

def metaInfo : List Op → List UInt8
  | [] => []
  | .record _ :: ops => metaInfo ops
  | .sendMetaInfo bytes :: ops => bytes ++ metaInfo ops

/-- The bytes of `part_buffer` are those that are in use: `data_used` is their number. -/
structure CMessagePacker where
  node : UInt32
  msgSeq : UInt32
  pktSeq : ℕ
  dataBufferSize : ℕ
  partBuffer : Option (List UInt8)
  packedRequest : Bool
  memBufferSize : ℕ
  totalSize : ℕ
  metaInfo : List UInt8
  lastMessageDone : Bool
  /-- what `writeOwn` was given -/
  sent : List DataBuffer

namespace CMessagePacker

def dataUsed (p : CMessagePacker) : ℕ := (p.partBuffer.getD []).length

/-- The message header at the start of the first packet. -/
def headerBlock (header : List UInt8) : List UInt8 := littleEndian 2 header.length ++ header

def new (dataBufferSize : ℕ) (node msgSeq : UInt32) (header : List UInt8) :
    Option CMessagePacker :=
  if dataBufferSize < header.length + 2 then none
  else some {
    node := node
    msgSeq := msgSeq
    pktSeq := 0
    dataBufferSize := dataBufferSize
    partBuffer := some (headerBlock header)
    packedRequest := false
    memBufferSize := 0
    totalSize := 0
    metaInfo := []
    lastMessageDone := false
    sent := [] }

def putPackage (p : CMessagePacker) (data metadata : List UInt8) : CMessagePacker :=
  { p with
    sent := p.sent ++ [⟨p.node, p.msgSeq, p.pktSeq, metadata.length, data ++ metadata⟩]
    pktSeq := (p.pktSeq + 1) % 2 ^ 32 }

/-- `flush(false)`: a packet with no data in it is not sent. -/
def flushPart (p : CMessagePacker) : CMessagePacker :=
  match p.partBuffer with
  | some data =>
    { (if data.length ≠ 0 then p.putPackage data [] else p) with partBuffer := none }
  | none => p

/-- The loop of `flush(true)`: as much of the metadata in each packet as it has room for. -/
def putMetaData : ℕ → CMessagePacker → List UInt8 → List UInt8 → Option CMessagePacker
  | 0, _, _, _ => none
  | fuel + 1, p, data, metaData =>
    let maxMetaLength := p.dataBufferSize - data.length
    if maxMetaLength < metaData.length then
      putMetaData fuel (p.putPackage data (metaData.take maxMetaLength)) []
        (metaData.drop maxMetaLength)
    else
      let p := { p with pktSeq := p.pktSeq ||| 2 ^ 31 }
      some { p.putPackage data metaData with partBuffer := none }

/-- `flush(true)` -/
def flush (p : CMessagePacker) : Option CMessagePacker :=
  if p.lastMessageDone then some p.flushPart
  else
    putMetaData (p.metaInfo.length + 2) { p with lastMessageDone := true } (p.partBuffer.getD [])
      p.metaInfo

/-- `getBuffer`: also the number of bytes between the pointer it returns and the end of the buffer
that the pointer is in. -/
def getBuffer (p : CMessagePacker) (len : ℕ) (variableSize : Bool) : ℕ × CMessagePacker :=
  let lengthSize := if variableSize then 4 else 0
  let len := (len + lengthSize) % 2 ^ 32
  if p.dataBufferSize < len then
    let memBufferSize := max p.memBufferSize len
    (memBufferSize - lengthSize, { p with memBufferSize := memBufferSize, packedRequest := false })
  else
    let p := if p.partBuffer.isSome ∧ p.dataBufferSize - p.dataUsed < len then p.flushPart else p
    let p := { p with partBuffer := some (p.partBuffer.getD []), packedRequest := true }
    (p.dataBufferSize - p.dataUsed - lengthSize, p)

/-- The loop of `putBuffer` for a record that was collected in a buffer of its own. -/
def putChunks : ℕ → CMessagePacker → List UInt8 → Option CMessagePacker
  | 0, _, _ => none
  | fuel + 1, p, buf =>
    if buf.length = 0 then some p
    else
      let part := p.partBuffer.getD []
      let chunkLen := min (p.dataBufferSize - part.length) buf.length
      let p := { p with partBuffer := some (part ++ buf.take chunkLen) }
      let buf := buf.drop chunkLen
      putChunks fuel (if buf.length ≠ 0 then p.flushPart else p) buf

/-- `putBuffer`; `bytes` are those at `buf`. -/
def putBuffer (p : CMessagePacker) (bytes : List UInt8) (variableSize : Bool) :
    Option CMessagePacker :=
  if variableSize ∧ 2 ^ 32 - 1 ≤ bytes.length then none
  else
    let buf := if variableSize then littleEndian 4 bytes.length ++ bytes else bytes
    let len := (bytes.length + if variableSize then 4 else 0) % 2 ^ 32
    let p := { p with totalSize := (p.totalSize + len) % 2 ^ 32 }
    if p.packedRequest then
      some { p with partBuffer := some (p.partBuffer.getD [] ++ buf.take len) }
    else putChunks (len + 2) p (buf.take len)

/-- A caller gets a buffer, writes a record to it and puts it; it fails when the record is written
behind the end of the buffer. -/
def write (p : CMessagePacker) (r : Record) : Option CMessagePacker :=
  let (room, p) := p.getBuffer r.len r.variableSize
  if room < r.bytes.length then none else p.putBuffer r.bytes r.variableSize

def apply (p : CMessagePacker) : Op → Option CMessagePacker
  | .record r => p.write r
  | .sendMetaInfo bytes => some { p with metaInfo := p.metaInfo ++ bytes }

def applyAll : CMessagePacker → List Op → Option CMessagePacker
  | p, [] => some p
  | p, op :: ops => (p.apply op).bind (applyAll · ops)

/-- The packets of a message. -/
def pack (dataBufferSize : ℕ) (node msgSeq : UInt32) (header : List UInt8) (ops : List Op) :
    Option (List DataBuffer) := do
  let p ← new dataBufferSize node msgSeq header
  let p ← p.applyAll ops
  let p ← p.flush
  return p.sent

end CMessagePacker

end Udp
