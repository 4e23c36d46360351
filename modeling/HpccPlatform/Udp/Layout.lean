import HpccPlatform.Udp.Packer

/-!
# The layout of a message

How many packets a message takes, and how full they are, is a matter of lengths alone: `Layout`
counts the closed packets and the bytes in the open one.  The packer follows the layout: it fails
where the layout does, and otherwise its packets hold the header, the records and the metadata in
order.
-/

namespace Udp

/-- The packets that are closed, and the bytes in the open one. -/
structure Layout where
  closed : ℕ
  used : ℕ
  deriving DecidableEq, Repr

namespace Layout

/-- One record more.  A record that is looked for room for goes into one packet, the open one or
the next; it does not fit only when its length with the prefix wraps around. -/
def place (size : ℕ) (l : Layout) (r : Record) : Option Layout :=
  if size < r.need then
    some ⟨l.closed + (l.used + r.text.length - 1) / size,
      (l.used + r.text.length - 1) % size + 1⟩
  else
    let l := if size - l.used < r.need then ⟨l.closed + 1, 0⟩ else l
    if size - l.used < r.text.length then none else some ⟨l.closed, l.used + r.text.length⟩

def placeAll (size : ℕ) : Layout → List Op → Option Layout
  | l, [] => some l
  | l, .record r :: ops => (l.place size r).bind (placeAll size · ops)
  | l, .sendMetaInfo _ :: ops => placeAll size l ops

/-- The number of packets with the metadata behind the records. -/
def packets (size metaLength : ℕ) (l : Layout) : ℕ := l.closed + (l.used + metaLength - 1) / size + 1

end Layout

/-- The data and the metadata of a packet. -/
abbrev Part := List UInt8 × List UInt8

/-- A packet that is not the last one of its message. -/
def packetOf (node msgSeq : UInt32) (i : ℕ) (part : Part) : DataBuffer :=
  ⟨node, msgSeq, i % 2 ^ 32, part.2.length, part.1 ++ part.2⟩

namespace CMessagePacker

variable {p : CMessagePacker} {front text data : List UInt8} {parts : List Part}

/-- The packer has sent `parts`. -/
structure Sent (p : CMessagePacker) (parts : List Part) : Prop where
  sent : p.sent = parts.mapIdx (packetOf p.node p.msgSeq)
  pktSeq : p.pktSeq = parts.length % 2 ^ 32

theorem Sent.putPackage (h : Sent p parts) (data metadata : List UInt8) :
    Sent (p.putPackage data metadata) (parts ++ [(data, metadata)]) := by
  refine ⟨?_, ?_⟩
  · unfold CMessagePacker.putPackage
    dsimp only
    rw [h.sent, h.pktSeq, List.mapIdx_concat]
    rfl
  · unfold CMessagePacker.putPackage
    dsimp only
    rw [h.pktSeq, List.length_append, List.length_singleton, Nat.mod_add_mod]

/-- The packer between two calls: the packets sent and the open one hold `text`, and the first of
them starts with `front`. -/
structure Holding (p : CMessagePacker) (front text : List UInt8) (parts : List Part)
    (data : List UInt8) : Prop where
  sent : Sent p parts
  noMeta : ∀ part ∈ parts, part.2 = []
  small : ∀ part ∈ parts, part.1.length ≤ p.dataBufferSize
  data_le : data.length ≤ p.dataBufferSize
  text : parts.flatMap Prod.fst ++ data = text
  front : front <+: (parts.map Prod.fst ++ [data]).headD []

/-- What a call does not change. -/
structure Same (p p' : CMessagePacker) : Prop where
  node : p'.node = p.node
  msgSeq : p'.msgSeq = p.msgSeq
  dataBufferSize : p'.dataBufferSize = p.dataBufferSize
  metaInfo : p'.metaInfo = p.metaInfo
  lastMessageDone : p'.lastMessageDone = p.lastMessageDone

theorem Same.trans {p' p'' : CMessagePacker} (h : Same p p') (h' : Same p' p'') : Same p p'' :=
  ⟨h'.node.trans h.node, h'.msgSeq.trans h.msgSeq, h'.dataBufferSize.trans h.dataBufferSize,
    h'.metaInfo.trans h.metaInfo, h'.lastMessageDone.trans h.lastMessageDone⟩

/-- A full open packet is closed. -/
theorem flushPart_some (hpart : p.partBuffer = some data) (hpos : 0 < data.length) :
    p.flushPart = { p.putPackage data [] with partBuffer := none } := by
  unfold flushPart
  rw [hpart]
  dsimp only
  rw [if_pos (Nat.ne_of_gt hpos)]

theorem same_flushPart (hpart : p.partBuffer = some data) (hpos : 0 < data.length) :
    Same p p.flushPart := by
  rw [flushPart_some hpart hpos]
  exact ⟨rfl, rfl, rfl, rfl, rfl⟩

theorem sent_flushPart (h : Sent p parts) (hpart : p.partBuffer = some data)
    (hpos : 0 < data.length) : Sent p.flushPart (parts ++ [(data, [])]) := by
  rw [flushPart_some hpart hpos]
  exact ⟨(h.putPackage data []).sent, (h.putPackage data []).pktSeq⟩

/-- The open packet is closed, and the next one is empty. -/
theorem Holding.flushPart (h : Holding p front text parts data) (hpart : p.partBuffer = some data)
    (hpos : 0 < data.length) :
    Holding p.flushPart front text (parts ++ [(data, [])]) [] := by
  have hsame := same_flushPart hpart hpos
  refine ⟨sent_flushPart h.sent hpart hpos, ?_, ?_, Nat.zero_le _, ?_, ?_⟩
  · intro part hmem
    rcases List.mem_append.mp hmem with hmem | hmem
    · exact h.noMeta part hmem
    · rw [List.mem_singleton.mp hmem]
  · intro part hmem
    rw [hsame.dataBufferSize]
    rcases List.mem_append.mp hmem with hmem | hmem
    · exact h.small part hmem
    · rw [List.mem_singleton.mp hmem]
      exact h.data_le
  · rw [List.flatMap_append, List.flatMap_singleton, List.append_nil]
    exact h.text
  · have hfront := h.front
    cases parts with
    | nil => exact hfront
    | cons part parts => exact hfront

/-- More bytes in the open packet. -/
theorem Holding.extend (h : Holding p front text parts data) (more : List UInt8)
    (hle : data.length + more.length ≤ p.dataBufferSize) :
    Holding p front (text ++ more) parts (data ++ more) := by
  refine ⟨h.sent, h.noMeta, h.small, ?_, ?_, ?_⟩
  · rw [List.length_append]
    exact hle
  · rw [← List.append_assoc, h.text]
  · have hfront := h.front
    cases parts with
    | nil => exact hfront.trans (List.prefix_append data more)
    | cons part parts => exact hfront

theorem Holding.congr (h : Holding p front text parts data) (p' : CMessagePacker)
    (hsame : Same p p') (hsent : p'.sent = p.sent) (hseq : p'.pktSeq = p.pktSeq) :
    Holding p' front text parts data := by
  refine ⟨⟨?_, ?_⟩, h.noMeta, ?_, ?_, h.text, h.front⟩
  · rw [hsent, hsame.node, hsame.msgSeq]
    exact h.sent.sent
  · rw [hseq]
    exact h.sent.pktSeq
  · rw [hsame.dataBufferSize]
    exact h.small
  · rw [hsame.dataBufferSize]
    exact h.data_le

/-! ### Spreading a record -/

/-- The loop fills the open packet and the next ones; only full packets are closed. -/
theorem putChunks_spec {fuel : ℕ} {buf : List UInt8} (hsize : 0 < p.dataBufferSize)
    (h : Holding p front text parts data) (hdata : p.partBuffer.getD [] = data)
    (hfuel : buf.length + (if data.length = p.dataBufferSize then 1 else 0) < fuel) :
    ∃ p' parts' data', putChunks fuel p buf = some p' ∧ Same p p' ∧
      Holding p' front (text ++ buf) parts' data' ∧
      (0 < buf.length → p'.partBuffer = some data' ∧ 0 < data'.length) ∧
      parts'.length * p.dataBufferSize + data'.length
        = parts.length * p.dataBufferSize + data.length + buf.length := by
  induction fuel generalizing p text parts data buf with
  | zero => omega
  | succ fuel ih =>
    unfold putChunks
    by_cases hnil : buf.length = 0
    · obtain rfl : buf = [] := List.eq_nil_of_length_eq_zero hnil
      refine ⟨p, parts, data, if_pos rfl, ⟨rfl, rfl, rfl, rfl, rfl⟩, ?_, by simp, by simp⟩
      rw [List.append_nil]
      exact h
    · rw [if_neg hnil]
      dsimp only
      rw [hdata]
      have hle := h.data_le
      generalize hchunk : min (p.dataBufferSize - data.length) buf.length = chunkLen
      have htake : (buf.take chunkLen).length = chunkLen := by
        rw [List.length_take]
        omega
      have hlonger := (h.extend (buf.take chunkLen) (by omega)).congr
        { p with partBuffer := some (data ++ buf.take chunkLen) }
        ⟨rfl, rfl, rfl, rfl, rfl⟩ rfl rfl
      have hlength : (data ++ buf.take chunkLen).length = data.length + chunkLen := by
        rw [List.length_append, htake]
      by_cases hrest : (buf.drop chunkLen).length = 0
      · -- the record ends in the open packet
        rw [if_neg (not_not.mpr hrest)]
        have hall : buf.take chunkLen = buf := by
          apply List.take_of_length_le
          rw [List.length_drop] at hrest
          omega
        rw [hall] at hlonger hlength ⊢
        refine ⟨{ p with partBuffer := some (data ++ buf) }, parts, data ++ buf, ?_, ⟨rfl, rfl, rfl, rfl, rfl⟩, hlonger, ?_, ?_⟩
        · cases fuel with
          | zero => omega
          | succ fuel =>
            unfold putChunks
            rw [if_pos hrest]
        · intro _
          refine ⟨rfl, ?_⟩
          rw [List.length_append]
          omega
        · rw [List.length_append]
          omega
      · -- the open packet is full
        rw [if_pos hrest]
        have hfull : data.length + chunkLen = p.dataBufferSize := by
          rw [List.length_drop] at hrest
          omega
        have hclosed := hlonger.flushPart rfl (by omega)
        have hsame := @same_flushPart
          { p with partBuffer := some (data ++ buf.take chunkLen) } _ rfl (by omega)
        have hpart : ({ p with partBuffer := some (data ++ buf.take chunkLen) } :
            CMessagePacker).flushPart.partBuffer.getD [] = [] := by
          rw [flushPart_some rfl (by omega)]
          rfl
        have hsize' : ({ p with partBuffer := some (data ++ buf.take chunkLen) } :
            CMessagePacker).flushPart.dataBufferSize = p.dataBufferSize := hsame.dataBufferSize
        have hdrop : (buf.drop chunkLen).length = buf.length - chunkLen := List.length_drop
        have hfuel' : (buf.drop chunkLen).length + (if ([] : List UInt8).length
            = ({ p with partBuffer := some (data ++ buf.take chunkLen) } :
              CMessagePacker).flushPart.dataBufferSize then 1 else 0) < fuel := by
          rw [hsize', List.length_nil, if_neg (by omega)]
          split_ifs at hfuel <;> omega
        obtain ⟨p', parts', data', hrun, hsame', hholding, hpos, hcount⟩ :=
          ih (by rw [hsize']; exact hsize) hclosed hpart hfuel'
        have hset : Same p { p with partBuffer := some (data ++ buf.take chunkLen) } :=
          ⟨rfl, rfl, rfl, rfl, rfl⟩
        refine ⟨p', parts', data', hrun, (hset.trans hsame).trans hsame', ?_, ?_, ?_⟩
        · rw [List.append_assoc, List.take_append_drop] at hholding
          exact hholding
        · intro _
          exact hpos (Nat.pos_of_ne_zero hrest)
        · rw [hsize', List.length_append, List.length_singleton, List.length_nil, Nat.add_mul,
            Nat.one_mul] at hcount
          omega

/-! ### One record -/

/-- The packer as `getBuffer` finds it for a record. -/
structure Ready (p : CMessagePacker) (front text : List UInt8) (parts : List Part)
    (data : List UInt8) : Prop where
  holding : Holding p front text parts data
  part : p.partBuffer = some data
  four_le : 4 ≤ p.dataBufferSize
  size_lt : p.dataBufferSize < 2 ^ 16

/-- A call leaves the packer ready for the next one. -/
structure Advances (p p' : CMessagePacker) (front text : List UInt8) (l : Layout) : Prop where
  same : Same p p'
  ready : ∃ parts data, Ready p' front text parts data ∧ l = ⟨parts.length, data.length⟩

theorem length_text (r : Record) :
    r.text.length = r.bytes.length + if r.variableSize then 4 else 0 := by
  unfold Record.text
  split_ifs
  · rw [List.length_append, length_littleEndian, Nat.add_comm]
  · rfl

theorem need_eq (r : Record) :
    (r.len + if r.variableSize then 4 else 0) % 2 ^ 32 = r.need := by
  have hlt := r.len_lt
  unfold Record.need
  split_ifs
  · rfl
  · rw [Nat.add_zero, Nat.mod_eq_of_lt hlt]

theorem Ready.congr (h : Ready p front text parts data) (q : CMessagePacker) (hsame : Same p q)
    (hsent : q.sent = p.sent) (hseq : q.pktSeq = p.pktSeq) (hpart : q.partBuffer = p.partBuffer) :
    Ready q front text parts data :=
  ⟨h.holding.congr q hsame hsent hseq, hpart.trans h.part, hsame.dataBufferSize ▸ h.four_le,
    hsame.dataBufferSize ▸ h.size_lt⟩

/-- `putBuffer` when the length of the record with its prefix does not wrap around. -/
theorem putBuffer_eq (h : Ready p front text parts data) (r : Record)
    (hlt : r.text.length < 2 ^ 32) :
    ∃ q, Same p q ∧ Ready q front text parts data ∧ p.putBuffer r.bytes r.variableSize
      = if p.packedRequest then some { q with partBuffer := some (data ++ r.text) }
        else putChunks (r.text.length + 2) q r.text := by
  have hlength := length_text r
  have hmod : (r.bytes.length + if r.variableSize then 4 else 0) % 2 ^ 32 = r.text.length := by
    rw [← hlength]
    exact Nat.mod_eq_of_lt hlt
  refine ⟨{ p with totalSize := (p.totalSize + r.text.length) % 2 ^ 32 },
    ⟨rfl, rfl, rfl, rfl, rfl⟩, h.congr _ ⟨rfl, rfl, rfl, rfl, rfl⟩ rfl rfl rfl, ?_⟩
  unfold putBuffer
  rw [if_neg (fun hc => absurd hc.2 (by rw [hlength, if_pos hc.1] at hlt; omega))]
  dsimp only
  have hbuf : (if r.variableSize then littleEndian 4 r.bytes.length ++ r.bytes else r.bytes)
      = r.text := rfl
  rw [hmod, h.part, hbuf, List.take_length]
  rfl

/-- A record larger than a packet: its length with the prefix has not wrapped around, or it would
be smaller than a packet. -/
theorem need_of_large (r : Record) (hfour : 4 ≤ p.dataBufferSize)
    (hneed : p.dataBufferSize < r.need) :
    r.need = r.len + (if r.variableSize then 4 else 0) ∧ r.text.length < 2 ^ 32 := by
  have hlen := r.len_lt
  have hbytes := r.bytes_le
  have hmod := need_eq r
  have hneed' : r.need = r.len + if r.variableSize then 4 else 0 := by
    split_ifs at hmod ⊢ <;> omega
  have hlt : r.need < 2 ^ 32 := by
    rw [← hmod]
    exact Nat.mod_lt _ (by decide)
  refine ⟨hneed', ?_⟩
  rw [length_text]
  omega

theorem getBuffer_large (h : Ready p front text parts data) (r : Record)
    (hneed : p.dataBufferSize < r.need) :
    ∃ room q, p.getBuffer r.len r.variableSize = (room, q) ∧ r.bytes.length ≤ room ∧
      q.packedRequest = false ∧ Same p q ∧ Ready q front text parts data := by
  have hbytes := r.bytes_le
  have hneed' := (need_of_large r h.four_le hneed).1
  refine ⟨max p.memBufferSize r.need - (if r.variableSize then 4 else 0),
    { p with memBufferSize := max p.memBufferSize r.need, packedRequest := false }, ?_, ?_, rfl,
    ⟨rfl, rfl, rfl, rfl, rfl⟩, h.congr _ ⟨rfl, rfl, rfl, rfl, rfl⟩ rfl rfl rfl⟩
  · unfold getBuffer
    dsimp only
    rw [need_eq, if_pos hneed]
  · split_ifs at hneed' ⊢ <;> omega

/-- Full packets and a last one that is not empty: the counts by division. -/
theorem Layout.eq_of_count {size closed used closed' used' n : ℕ} (hpos : 0 < used')
    (hle : used' ≤ size) (hn : 0 < n) (h : closed' * size + used' = closed * size + used + n) :
    (⟨closed + (used + n - 1) / size, (used + n - 1) % size + 1⟩ : Layout) = ⟨closed', used'⟩ := by
  have hge : closed ≤ closed' := by
    by_contra hcon
    have hmul : (closed' + 1) * size ≤ closed * size := Nat.mul_le_mul_right _ (by omega)
    rw [Nat.add_mul, Nat.one_mul] at hmul
    omega
  obtain ⟨k, rfl⟩ := Nat.exists_eq_add_of_le hge
  rw [Nat.add_mul] at h
  have hsum : used + n - 1 = size * k + (used' - 1) := by
    rw [Nat.mul_comm size k]
    omega
  rw [hsum, Nat.mul_add_div (by omega), Nat.mul_add_mod, Nat.div_eq_of_lt (by omega),
    Nat.mod_eq_of_lt (by omega), Nat.add_zero, Nat.sub_add_cancel hpos]

/-- A record larger than a packet is spread. -/
theorem write_large (h : Ready p front text parts data) (r : Record)
    (hneed : p.dataBufferSize < r.need) :
    ∃ p' l, p.write r = some p' ∧ Layout.place p.dataBufferSize ⟨parts.length, data.length⟩ r
      = some l ∧ Advances p p' front (text ++ r.text) l := by
  obtain ⟨room, q, hget, hroom, hpacked, hsame, hready⟩ := getBuffer_large h r hneed
  obtain ⟨q', hsame', hready', hput⟩ := putBuffer_eq hready r (need_of_large r h.four_le hneed).2
  have hpart : q'.partBuffer.getD [] = data := by
    rw [hready'.part]
    rfl
  have hfuel : r.text.length + (if data.length = q'.dataBufferSize then 1 else 0)
      < r.text.length + 2 := by
    split_ifs <;> omega
  obtain ⟨p', parts', data', hrun, hsame'', hholding, hpos, hcount⟩ :=
    putChunks_spec (Nat.lt_of_lt_of_le (by decide) hready'.four_le) hready'.holding hpart hfuel
  obtain ⟨hpart', hdata'⟩ := hpos r.text_pos
  have hall : Same p p' := (hsame.trans hsame').trans hsame''
  have hfinal : Ready p' front (text ++ r.text) parts' data' :=
    ⟨hholding, hpart', hall.dataBufferSize ▸ h.four_le, hall.dataBufferSize ▸ h.size_lt⟩
  refine ⟨p', ⟨parts'.length, data'.length⟩, ?_, ?_, hall, parts', data', hfinal, rfl⟩
  · unfold write
    rw [hget]
    dsimp only
    rw [if_neg (not_lt.mpr hroom), hput, hpacked]
    exact hrun
  · unfold Layout.place
    rw [if_pos hneed, Option.some.injEq]
    have hsize : q'.dataBufferSize = p.dataBufferSize :=
      hsame'.dataBufferSize.trans hsame.dataBufferSize
    rw [hsize] at hcount
    exact Layout.eq_of_count hdata' (hall.dataBufferSize ▸ hholding.data_le) r.text_pos hcount

/-- A record that fits a packet: `getBuffer` finds it room in the open one or in the next. -/
theorem getBuffer_small (h : Ready p front text parts data) (r : Record)
    (hneed : r.need ≤ p.dataBufferSize) :
    ∃ q parts' data', p.getBuffer r.len r.variableSize
        = (p.dataBufferSize - data'.length - (if r.variableSize then 4 else 0), q) ∧
      q.packedRequest = true ∧ Same p q ∧ Ready q front text parts' data' ∧
      (⟨parts'.length, data'.length⟩ : Layout)
        = if p.dataBufferSize - data.length < r.need then ⟨parts.length + 1, 0⟩
          else ⟨parts.length, data.length⟩ := by
  have hle := h.holding.data_le
  unfold getBuffer dataUsed
  dsimp only
  rw [need_eq, if_neg (not_lt.mpr hneed), h.part]
  by_cases hroom : p.dataBufferSize - data.length < r.need
  · have hpos : 0 < data.length := by omega
    have hsame := same_flushPart h.part hpos
    have hclosed := h.holding.flushPart h.part hpos
    have hpart : p.flushPart.partBuffer = none := by
      rw [flushPart_some h.part hpos]
    rw [if_pos ⟨rfl, hroom⟩, if_pos hroom, hpart]
    refine ⟨{ p.flushPart with partBuffer := some [], packedRequest := true },
      parts ++ [(data, [])], [], ?_, rfl, ?_, ⟨?_, rfl, ?_, ?_⟩, ?_⟩
    · rw [← hsame.dataBufferSize]
      rfl
    · exact hsame.trans ⟨rfl, rfl, rfl, rfl, rfl⟩
    · exact hclosed.congr _ ⟨rfl, rfl, rfl, rfl, rfl⟩ rfl rfl
    · exact hsame.dataBufferSize ▸ h.four_le
    · exact hsame.dataBufferSize ▸ h.size_lt
    · rw [List.length_append]
      rfl
  · rw [if_neg (fun hc => hroom hc.2), if_neg hroom]
    refine ⟨{ p with partBuffer := some data, packedRequest := true }, parts, data, ?_, rfl,
      ⟨rfl, rfl, rfl, rfl, rfl⟩, ⟨?_, rfl, h.four_le, h.size_lt⟩,
      rfl⟩
    · rw [h.part]
      rfl
    · exact h.holding.congr _ ⟨rfl, rfl, rfl, rfl, rfl⟩ rfl rfl

/-- A record that fits a packet is put in one, or does not fit there after all. -/
theorem write_small (h : Ready p front text parts data) (r : Record)
    (hneed : r.need ≤ p.dataBufferSize) :
    (Layout.place p.dataBufferSize ⟨parts.length, data.length⟩ r = none ∧ p.write r = none) ∨
    ∃ p' l, p.write r = some p' ∧ Layout.place p.dataBufferSize ⟨parts.length, data.length⟩ r
      = some l ∧ Advances p p' front (text ++ r.text) l := by
  obtain ⟨q, parts', data', hget, hpacked, hsame, hready, hlayout⟩ := getBuffer_small h r hneed
  have hsize := h.size_lt
  have hlength := length_text r
  have hpos := r.bytes_pos
  unfold write Layout.place
  rw [hget, if_neg (not_lt.mpr hneed)]
  dsimp only
  rw [← hlayout]
  dsimp only
  by_cases hfits : p.dataBufferSize - data'.length < r.text.length
  · left
    rw [if_pos hfits, if_pos (by rw [hlength] at hfits; split_ifs at hfits ⊢ <;> omega)]
    exact ⟨rfl, rfl⟩
  · right
    rw [if_neg hfits, if_neg (by rw [hlength] at hfits; split_ifs at hfits ⊢ <;> omega)]
    obtain ⟨q', hsame', hready', hput⟩ := putBuffer_eq hready r (by omega)
    have hall := hsame.trans hsame'
    have hle := hready'.holding.data_le
    have hextend := hready'.holding.extend r.text (by rw [hall.dataBufferSize] at hle ⊢; omega)
    rw [hput, if_pos hpacked]
    refine ⟨_, _, rfl, rfl, hall.trans ⟨rfl, rfl, rfl, rfl, rfl⟩, parts', data' ++ r.text, ?_, ?_⟩
    · exact ⟨hextend.congr _ ⟨rfl, rfl, rfl, rfl, rfl⟩ rfl rfl, rfl, hready'.four_le,
        hready'.size_lt⟩
    · rw [List.length_append]

/-- One record: the packer follows the layout. -/
theorem write_spec (h : Ready p front text parts data) (r : Record) :
    (Layout.place p.dataBufferSize ⟨parts.length, data.length⟩ r = none ∧ p.write r = none) ∨
    ∃ p' l, p.write r = some p' ∧ Layout.place p.dataBufferSize ⟨parts.length, data.length⟩ r
      = some l ∧ Advances p p' front (text ++ r.text) l := by
  rcases lt_or_ge p.dataBufferSize r.need with hneed | hneed
  · exact Or.inr (write_large h r hneed)
  · exact write_small h r hneed

/-! ### The whole message -/

/-- The records one after the other. -/
theorem applyAll_spec (h : Ready p front text parts data) (ops : List Op) :
    (Layout.placeAll p.dataBufferSize ⟨parts.length, data.length⟩ ops = none ∧
      p.applyAll ops = none) ∨
    ∃ p' parts' data', p.applyAll ops = some p' ∧
      Layout.placeAll p.dataBufferSize ⟨parts.length, data.length⟩ ops
        = some ⟨parts'.length, data'.length⟩ ∧
      Ready p' front (text ++ stream ops) parts' data' ∧
      p'.metaInfo = p.metaInfo ++ Udp.metaInfo ops ∧ p'.dataBufferSize = p.dataBufferSize ∧
      p'.node = p.node ∧ p'.msgSeq = p.msgSeq ∧ p'.lastMessageDone = p.lastMessageDone := by
  induction ops generalizing p text parts data with
  | nil =>
    refine Or.inr ⟨p, parts, data, rfl, rfl, ?_, ?_, rfl, rfl, rfl, rfl⟩
    · unfold stream
      rw [List.append_nil]
      exact h
    · unfold Udp.metaInfo
      rw [List.append_nil]
  | cons op ops ih =>
    cases op with
    | record r =>
      have happly : p.apply (.record r) = p.write r := rfl
      unfold applyAll Layout.placeAll stream Udp.metaInfo
      rw [happly]
      rcases write_spec h r with ⟨hplace, hwrite⟩ | ⟨p', l, hwrite, hplace, hadvances⟩
      · rw [hplace, hwrite]
        exact Or.inl ⟨rfl, rfl⟩
      · obtain ⟨hsame, parts', data', hready, rfl⟩ := hadvances
        rw [hplace, hwrite, Option.bind_some, Option.bind_some]
        rw [← hsame.dataBufferSize, ← hsame.node, ← hsame.msgSeq, ← hsame.lastMessageDone,
          ← hsame.metaInfo, ← List.append_assoc]
        exact ih hready
    | sendMetaInfo bytes =>
      have happly : p.apply (.sendMetaInfo bytes)
          = some { p with metaInfo := p.metaInfo ++ bytes } := rfl
      unfold applyAll Layout.placeAll stream Udp.metaInfo
      rw [happly, Option.bind_some, ← List.append_assoc]
      have hready : Ready { p with metaInfo := p.metaInfo ++ bytes } front text parts data :=
        ⟨⟨⟨h.holding.sent.sent, h.holding.sent.pktSeq⟩, h.holding.noMeta, h.holding.small,
          h.holding.data_le, h.holding.text, h.holding.front⟩, h.part, h.four_le, h.size_lt⟩
      exact ih hready

/-- The last packet of a message. -/
def lastPacketOf (node msgSeq : UInt32) (i : ℕ) (part : Part) : DataBuffer :=
  ⟨node, msgSeq, i % 2 ^ 32 ||| 2 ^ 31, part.2.length, part.1 ++ part.2⟩

/-- The loop of the last `flush`: the metadata behind the data of the open packet, and in packets
of its own. -/
theorem putMetaData_spec {fuel : ℕ} {metaData : List UInt8} (hsize : 0 < p.dataBufferSize)
    (h : Sent p parts) (hle : data.length ≤ p.dataBufferSize)
    (hfuel : metaData.length + (if data.length = p.dataBufferSize then 1 else 0) < fuel) :
    ∃ p' parts' last, putMetaData fuel p data metaData = some p' ∧
      p'.sent = (parts ++ parts').mapIdx (packetOf p.node p.msgSeq)
        ++ [lastPacketOf p.node p.msgSeq (parts ++ parts').length last] ∧
      (parts' ++ [last]).flatMap Prod.fst = data ∧
      (parts' ++ [last]).flatMap Prod.snd = metaData ∧
      (∃ first rest, parts' ++ [last] = first :: rest ∧ first.1 = data) ∧
      (∀ part ∈ parts' ++ [last], part.1.length + part.2.length ≤ p.dataBufferSize) ∧
      parts'.length = (data.length + metaData.length - 1) / p.dataBufferSize := by
  induction fuel generalizing p parts data metaData with
  | zero => omega
  | succ fuel ih =>
    unfold putMetaData
    dsimp only
    by_cases hroom : p.dataBufferSize - data.length < metaData.length
    · rw [if_pos hroom]
      generalize hmax : p.dataBufferSize - data.length = maxMetaLength at hroom ⊢
      have htake : (metaData.take maxMetaLength).length = maxMetaLength := by
        rw [List.length_take]
        omega
      have hdrop : (metaData.drop maxMetaLength).length = metaData.length - maxMetaLength :=
        List.length_drop
      have hfuel' : (metaData.drop maxMetaLength).length
          + (if ([] : List UInt8).length = p.dataBufferSize then 1 else 0) < fuel := by
        rw [List.length_nil, if_neg (by omega), hdrop]
        split_ifs at hfuel <;> omega
      obtain ⟨p', parts', last, hrun, hsent, hdata, hmeta, -, hsmall, hcount⟩ :=
        ih (p := p.putPackage data (metaData.take maxMetaLength)) hsize
          (h.putPackage data (metaData.take maxMetaLength)) (Nat.zero_le _) hfuel'
      refine ⟨p', (data, metaData.take maxMetaLength) :: parts', last, hrun, ?_, ?_, ?_,
        ⟨_, parts' ++ [last], rfl, rfl⟩, ?_, ?_⟩
      · rw [List.append_assoc, List.singleton_append] at hsent
        exact hsent
      · rw [List.cons_append, List.flatMap_cons, hdata, List.append_nil]
      · rw [List.cons_append, List.flatMap_cons, hmeta, List.take_append_drop]
      · intro part hmem
        rw [List.cons_append, List.mem_cons] at hmem
        rcases hmem with rfl | hmem
        · dsimp only
          omega
        · exact hsmall part hmem
      · have hsplit : data.length + metaData.length - 1
            = p.dataBufferSize + ((metaData.drop maxMetaLength).length - 1) := by
          omega
        rw [List.length_nil, Nat.zero_add] at hcount
        rw [List.length_cons, hcount, hsplit, Nat.add_div_left _ hsize]
        rfl
    · rw [if_neg hroom]
      refine ⟨_, [], (data, metaData), rfl, ?_, ?_, ?_, ⟨(data, metaData), [], rfl, rfl⟩, ?_, ?_⟩
      · unfold CMessagePacker.putPackage
        dsimp only
        rw [List.append_nil, h.sent, h.pktSeq]
        rfl
      · simp
      · simp
      · intro part hmem
        rw [List.nil_append, List.mem_singleton] at hmem
        rw [hmem]
        dsimp only
        omega
      · rw [List.length_nil, Nat.div_eq_of_lt (by omega)]

/-- What the packets of a message hold: all but the last are numbered without the mark of the last
one, the first starts with the header, and behind it are the records and the metadata. -/
structure Packed (size : ℕ) (node msgSeq : UInt32) (front text metaData : List UInt8)
    (packets : List DataBuffer) (parts : List Part) (last : Part) : Prop where
  packets : packets = parts.mapIdx (packetOf node msgSeq)
    ++ [lastPacketOf node msgSeq parts.length last]
  small : ∀ part ∈ parts ++ [last], part.1.length + part.2.length ≤ size
  data : (parts ++ [last]).flatMap Prod.fst = text
  metadata : (parts ++ [last]).flatMap Prod.snd = metaData
  front : ∃ first rest, parts ++ [last] = first :: rest ∧ front <+: first.1

/-- The last `flush`. -/
theorem flush_spec (h : Ready p front text parts data) (hdone : p.lastMessageDone = false) :
    ∃ p' parts' last, p.flush = some p' ∧
      Packed p.dataBufferSize p.node p.msgSeq front text p.metaInfo p'.sent parts' last ∧
      (parts' ++ [last]).length
        = Layout.packets p.dataBufferSize p.metaInfo.length ⟨parts.length, data.length⟩ := by
  have hfuel : p.metaInfo.length + (if data.length = p.dataBufferSize then 1 else 0)
      < p.metaInfo.length + 2 := by
    split_ifs <;> omega
  have hsent : Sent { p with lastMessageDone := true } parts :=
    ⟨h.holding.sent.sent, h.holding.sent.pktSeq⟩
  obtain ⟨p', more, last, hrun, hpackets, hdata, hmeta, ⟨first, rest, hfirst, hfirst'⟩, hsmall,
    hcount⟩ := putMetaData_spec (p := { p with lastMessageDone := true })
      (Nat.lt_of_lt_of_le (by decide) h.four_le) hsent h.holding.data_le hfuel
  refine ⟨p', parts ++ more, last, ?_, ⟨hpackets, ?_, ?_, ?_, ?_⟩, ?_⟩
  · have hpart : p.partBuffer.getD [] = data := by
      rw [h.part]
      rfl
    unfold flush
    rw [hdone, if_neg Bool.false_ne_true, hpart]
    exact hrun
  · intro part hmem
    rw [List.append_assoc] at hmem
    rcases List.mem_append.mp hmem with hmem | hmem
    · rw [h.holding.noMeta part hmem]
      exact h.holding.small part hmem
    · exact hsmall part hmem
  · rw [List.append_assoc, List.flatMap_append, hdata]
    exact h.holding.text
  · have hnone : parts.flatMap Prod.snd = [] := by
      rw [List.flatMap_eq_nil_iff]
      exact h.holding.noMeta
    rw [List.append_assoc, List.flatMap_append, hmeta, hnone, List.nil_append]
  · have hfront := h.holding.front
    cases parts with
    | nil => exact ⟨first, rest, hfirst, hfirst' ▸ hfront⟩
    | cons part parts =>
      exact ⟨part, parts ++ more ++ [last], rfl, hfront⟩
  · unfold Layout.packets
    dsimp only at hcount ⊢
    rw [List.length_append, List.length_append, List.length_singleton, hcount]

/-- The packets of a message: the packer fails where the layout does. -/
theorem pack_spec {size : ℕ} (node msgSeq : UInt32) {header : List UInt8} (hfour : 4 ≤ size)
    (hlt : size < 2 ^ 16) (hfit : header.length + 2 ≤ size) (ops : List Op) :
    (Layout.placeAll size ⟨0, header.length + 2⟩ ops = none ∧
      pack size node msgSeq header ops = none) ∨
    ∃ l packets parts last, Layout.placeAll size ⟨0, header.length + 2⟩ ops = some l ∧
      pack size node msgSeq header ops = some packets ∧
      Packed size node msgSeq (headerBlock header) (headerBlock header ++ stream ops)
        (Udp.metaInfo ops) packets parts last ∧
      (parts ++ [last]).length = Layout.packets size (Udp.metaInfo ops).length l := by
  have hlength : (headerBlock header).length = header.length + 2 := by
    unfold headerBlock
    rw [List.length_append, length_littleEndian, Nat.add_comm]
  obtain ⟨p, hnew, hready, hdone, hsize, hnode, hseq, hmeta⟩ : ∃ p,
      new size node msgSeq header = some p ∧
      Ready p (headerBlock header) (headerBlock header) [] (headerBlock header) ∧
      p.lastMessageDone = false ∧ p.dataBufferSize = size ∧ p.node = node ∧ p.msgSeq = msgSeq ∧
      p.metaInfo = [] := by
    refine ⟨_, if_neg (not_lt.mpr hfit), ⟨⟨⟨rfl, rfl⟩, ?_, ?_, ?_, rfl, List.prefix_rfl⟩, rfl,
      hfour, hlt⟩, rfl, rfl, rfl, rfl, rfl⟩
    · intro part hmem
      cases hmem
    · intro part hmem
      cases hmem
    · rw [hlength]
      exact hfit
  unfold pack
  dsimp only [Option.bind_eq_bind]
  rw [hnew, Option.bind_some]
  rcases applyAll_spec hready ops
    with ⟨hplace, hrun⟩ | ⟨p', parts, data, hrun, hplace, hready', hmeta', hsize', hnode', hseq',
      hdone'⟩
  · rw [hsize, List.length_nil, hlength] at hplace
    rw [hrun]
    exact Or.inl ⟨hplace, rfl⟩
  · rw [hsize, List.length_nil, hlength] at hplace
    rw [hrun, Option.bind_some]
    obtain ⟨p'', parts', last, hflush, hpacked, hcount⟩ := flush_spec hready' (hdone'.trans hdone)
    rw [hflush, Option.bind_some]
    rw [hsize', hsize, hmeta', hmeta, List.nil_append] at hcount
    rw [hsize', hsize, hnode', hnode, hseq', hseq, hmeta', hmeta, List.nil_append] at hpacked
    exact Or.inr ⟨_, p''.sent, parts', last, hplace, rfl, hpacked, hcount⟩

end CMessagePacker

end Udp
