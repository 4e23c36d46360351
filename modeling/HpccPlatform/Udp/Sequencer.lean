import HpccPlatform.Library.Linked

/-!
# The packets of a message

`PackageSequencer` of `roxie/udplib/udpmsgpk.cpp` puts the packets of one message in order as they
arrive.  The packets are linked by `msgNext` from `firstPacket` on, with `tail` the last one and
`lastContiguousPacket` the last one before the first gap; a packet number has two flags in it, for
the last packet of a message and for a packet that was sent again.  A semaphore counts the packets
a reader may take, and once more at the end for the null behind the last one.
-/

namespace Udp

/-- A data buffer: the sender and the message of the packet, its number with the flags, the length
of the metadata, and what is behind the packet header (data, then metadata). -/
structure DataBuffer where
  node : UInt32
  msgSeq : UInt32
  pktSeq : ℕ
  metalength : ℕ
  body : List UInt8

/-- `pktSeq & UDP_PACKET_SEQUENCE_MASK` -/
def sequenceNumber (pktSeq : ℕ) : ℕ := pktSeq % 2 ^ 30

/-- `pktSeq & UDP_PACKET_RESENT` -/
def isResent (pktSeq : ℕ) : Bool := pktSeq.testBit 30

/-- `pktSeq & UDP_PACKET_COMPLETE` -/
def isComplete (pktSeq : ℕ) : Bool := pktSeq.testBit 31

namespace DataBuffer

/-- The data of a packet, without its metadata. -/
def data (b : DataBuffer) : List UInt8 := b.body.take (b.body.length - b.metalength)

def metadata (b : DataBuffer) : List UInt8 := b.body.drop (b.body.length - b.metalength)

/-- The `unsigned short` at the start of the first packet. -/
def headerSize (b : DataBuffer) : ℕ := (b.body.getD 0 0).toNat + 256 * (b.body.getD 1 0).toNat

/-- The message header behind it. -/
def header (b : DataBuffer) : List UInt8 := (b.body.drop 2).take b.headerSize

end DataBuffer

structure PackageSequencer where
  buffers : ℕ → DataBuffer
  msgNext : ℕ → Option ℕ
  /-- the number of buffers that were kept -/
  fresh : ℕ
  firstPacket : Option ℕ
  lastContiguousPacket : Option ℕ
  tail : Option ℕ
  maxSeqSeen : ℕ
  header : List UInt8
  headerSize : ℕ
  metadata : List UInt8
  metaSize : ℕ
  dataAvailable : ℕ
  duplicates : ℕ
  resends : ℕ

namespace PackageSequencer

def new : PackageSequencer where
  buffers := fun _ => ⟨0, 0, 0, 0, []⟩
  msgNext := fun _ => none
  fresh := 0
  firstPacket := none
  lastContiguousPacket := none
  tail := none
  maxSeqSeen := 0
  header := []
  headerSize := 0
  metadata := []
  metaSize := 0
  dataAvailable := 0
  duplicates := 0
  resends := 0

def seqOf (s : PackageSequencer) (id : ℕ) : ℕ := (s.buffers id).pktSeq

inductive Place where
  | duplicate
  | between (prev finger : Option ℕ)

/-- The insertion sort, from `finger` on with `prev` before it. -/
def scan (s : PackageSequencer) (pktseq : ℕ) : ℕ → Option ℕ → Option ℕ → Option Place
  | 0, _, _ => none
  | _ + 1, none, prev => some (.between prev none)
  | fuel + 1, some finger, prev =>
    if pktseq = s.seqOf finger then some .duplicate
    else if pktseq < s.seqOf finger then some (.between prev (some finger))
    else scan s pktseq fuel (s.msgNext finger) (some finger)

/-- The sort from the packets before the first gap on; what is before it is a duplicate. -/
def sortedPlace (s : PackageSequencer) (pktseq : ℕ) : Option (PackageSequencer × Place) :=
  match s.lastContiguousPacket with
  | some last =>
    if pktseq ≤ s.seqOf last then some ({ s with duplicates := s.duplicates + 1 }, .duplicate)
    else (scan s pktseq (s.fresh + 1) (s.msgNext last) (some last)).map (fun place => (s, place))
  | none => (scan s pktseq (s.fresh + 1) s.firstPacket none).map (fun place => (s, place))

/-- Where a packet goes: behind `tail`, or where the sort finds a place for it. -/
def findPlace (s : PackageSequencer) (pktseq : ℕ) : Option (PackageSequencer × Place) :=
  match s.tail with
  | some t =>
    if s.seqOf t < pktseq then some ({ s with tail := some s.fresh }, .between (some t) none)
    else s.sortedPlace pktseq
  | none => s.sortedPlace pktseq

/-- Link the packet behind `prev` and before `finger`. -/
def link (s : PackageSequencer) (dataBuff : DataBuffer) (prev finger : Option ℕ) :
    PackageSequencer :=
  let id := s.fresh
  let s := { s with buffers := Function.update s.buffers id dataBuff, fresh := id + 1 }
  match prev with
  | some p =>
    { s with msgNext := Function.update (Function.update s.msgNext p (some id)) id finger }
  | none =>
    { s with
      firstPacket := some id, tail := s.tail <|> some id,
      msgNext := Function.update s.msgNext id finger }

/-- The next packet in order is taken into the contiguous ones. -/
def accept (s : PackageSequencer) (finger : ℕ) : PackageSequencer :=
  let b := s.buffers finger
  let s := if sequenceNumber b.pktSeq = 0 then
    { s with headerSize := b.headerSize, header := b.header } else s
  let s := if b.metalength ≠ 0 then
    { s with metaSize := s.metaSize + b.metalength, metadata := s.metadata ++ b.metadata } else s
  let s := { s with lastContiguousPacket := some finger, dataAvailable := s.dataAvailable + 1 }
  if isComplete b.pktSeq then { s with dataAvailable := s.dataAvailable + 1 } else s

/-- The loop that catches up from `finger`; `prevseq` is the number before it. -/
def catchUp : ℕ → PackageSequencer → Option ℕ → ℕ → Bool → Option (Bool × PackageSequencer)
  | 0, _, _, _, _ => none
  | _ + 1, s, none, _, res => some (res, s)
  | fuel + 1, s, some finger, prevseq, res =>
    let pktseq := sequenceNumber (s.seqOf finger)
    if pktseq = (prevseq + 1) % 2 ^ 32 then
      let res := res || isComplete (s.seqOf finger)
      catchUp fuel (s.accept finger) (s.msgNext finger) pktseq res
    else some (res, s)

/-- A packet behind the packets before the first gap may have closed it. -/
def closeGap (s : PackageSequencer) (prev : Option ℕ) : Option (Bool × PackageSequencer) :=
  if prev = s.lastContiguousPacket then
    match s.lastContiguousPacket with
    | some last =>
      catchUp (s.fresh + 1) s (s.msgNext last) (sequenceNumber (s.seqOf last)) false
    | none => catchUp (s.fresh + 1) s s.firstPacket (2 ^ 32 - 1) false
  else some (false, s)

/-- `insert`; `decrypt` is the decryption of what is behind the packet header, nothing when the
packets are not encrypted. -/
def insert (decrypt : List UInt8 → List UInt8) (s : PackageSequencer) (dataBuff : DataBuffer) :
    Option (Bool × PackageSequencer) := do
  let s := { s with maxSeqSeen := max s.maxSeqSeen (sequenceNumber dataBuff.pktSeq) }
  let (s, dataBuff) :=
    if isResent dataBuff.pktSeq then
      ({ s with resends := s.resends + 1 }, { dataBuff with pktSeq := dataBuff.pktSeq - 2 ^ 30 })
    else (s, dataBuff)
  match ← findPlace s dataBuff.pktSeq with
  | (s, .duplicate) => return (false, s)
  | (s, .between prev finger) =>
    (s.link { dataBuff with body := decrypt dataBuff.body } prev finger).closeGap prev

/-- The packets that arrive, one after the other. -/
def insertAll (decrypt : List UInt8 → List UInt8) :
    PackageSequencer → List DataBuffer → Option (List Bool × PackageSequencer)
  | s, [] => some ([], s)
  | s, dataBuff :: rest => do
    let (res, s) ← s.insert decrypt dataBuff
    let (results, s) ← insertAll decrypt s rest
    return (res :: results, s)

/-- The buffer behind `after`, the first one when there is none. -/
def behind (s : PackageSequencer) : Option ℕ → Option ℕ
  | some after => s.msgNext after
  | none => s.firstPacket

/-- `next`: it blocks, with `none`, until the semaphore is signalled. -/
def next (s : PackageSequencer) (after : Option ℕ) : Option (Option ℕ × PackageSequencer) :=
  if s.dataAvailable = 0 then none
  else some (s.behind after, { s with dataAvailable := s.dataAvailable - 1 })

/-- Reading through `next` until it yields the null. -/
def readAll : ℕ → PackageSequencer → Option ℕ → Option (List ℕ)
  | 0, _, _ => none
  | fuel + 1, s, after => do
    match ← s.next after with
    | (none, _) => return []
    | (some id, s) => return id :: (← readAll fuel s (some id))

end PackageSequencer

end Udp
