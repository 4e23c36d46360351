import HpccPlatform.Index.BuilderTree

/-!
# Reading a blob back

What `createBlob` writes, `loadBlob` reads: the nodes of a blob hold its length and its bytes, and if
the bytes are cut then the rest follows in the right sibling, behind the length of the rest.  Later
blobs are written behind it or into other nodes.

The nodes are only expanded when the index has `HTREE_COMPRESSED_KEY`.  The coder of a blob node is
used without it too; the blobs of an index with prefix compression only cannot be read.
-/

namespace HpccPlatform

namespace KeyBuilder

/-! ## Numbers -/

theorem ofBe_be32 {n : ℕ} (h : n < 2 ^ 32) : ofBe (be32 n) = n := by
  unfold ofBe be32
  simp only [List.foldl_cons, List.foldl_nil, UInt8.toNat_ofNat']
  omega

theorem length_be32 (n : ℕ) : (be32 n).length = 4 := rfl

/-- The position and the offset in a blob id. -/
theorem blobId_parts {nodepos offset : ℕ} (hpos : nodepos < 2 ^ 48) (hoffset : offset < 2 ^ 20)
    (haligned : offset % 16 = 0) :
    ((offset <<< 44) % 2 ^ 64 ||| nodepos) &&& 0xffffffffffff = nodepos ∧
      (((offset <<< 44) % 2 ^ 64 ||| nodepos) &&& 0xffff000000000000) >>> 44 = offset := by
  obtain ⟨k, rfl⟩ : ∃ k, offset = 16 * k := ⟨offset / 16, by omega⟩
  have hk : k < 2 ^ 16 := by omega
  have hshift : (16 * k) <<< 44 % 2 ^ 64 = 2 ^ 48 * k := by
    rw [Nat.shiftLeft_eq]
    omega
  have hid : 2 ^ 48 * k ||| nodepos = 2 ^ 48 * k + nodepos :=
    (Nat.two_pow_add_eq_or_of_lt hpos k).symm
  rw [hshift, hid]
  constructor
  · rw [show (0xffffffffffff : ℕ) = 2 ^ 48 - 1 by norm_num, Nat.and_two_pow_sub_one_eq_mod]
    omega
  · rw [Nat.shiftRight_and_distrib, Nat.shiftRight_eq_div_pow, Nat.shiftRight_eq_div_pow]
    have hdiv : (2 ^ 48 * k + nodepos) / 2 ^ 44 = 2 ^ 4 * k + nodepos / 2 ^ 44 := by omega
    have hsmall : nodepos / 2 ^ 44 < 2 ^ 4 := by omega
    rw [hdiv, show (0xffff000000000000 : ℕ) / 2 ^ 44 = 2 ^ 4 * (2 ^ 16 - 1) by norm_num]
    apply Nat.eq_of_testBit_eq
    intro i
    rw [Nat.testBit_and, Nat.testBit_two_pow_mul_add _ hsmall, Nat.testBit_two_pow_mul,
      Nat.testBit_two_pow_sub_one, show 16 * k = 2 ^ 4 * k by ring, Nat.testBit_two_pow_mul]
    by_cases hi : i < 4
    · have hnot : ¬ 4 ≤ i := not_le.mpr hi
      simp [hi, hnot]
    · simp only [hi, if_false, not_lt.mp hi, decide_true, Bool.true_and]
      by_cases hi' : i - 4 < 16
      · simp [hi']
      · have hzero : k.testBit (i - 4) = false := by
          apply Nat.testBit_lt_two_pow
          exact hk.trans_le (Nat.pow_le_pow_right (by norm_num) (not_lt.mp hi'))
        simp [hi', hzero]

/-! ## The coder -/

section Coder

variable {refuses : List UInt8 → List UInt8 → Bool}

/-- The bytes that are read from a node. -/
def KeyCompressor.content (c : KeyCompressor) : List UInt8 := c.comp.close.bytes

/-- A coder between two blobs: while it is open, all its bytes are committed. -/
def KeyCompressor.Settled (c : KeyCompressor) : Prop :=
  c.comp.isOpen = true → c.comp.block = none ∧ c.curOffset = c.comp.bytes.length

theorem Coder.close_of_closed {c : Coder} (h : c.isOpen = false) : c.close = c := by
  unfold Coder.close
  rw [h]
  rfl

theorem Coder.isOpen_close (c : Coder) : c.close.isOpen = false := by
  unfold Coder.close
  cases h : c.isOpen with
  | false => exact h
  | true =>
    simp only [if_true]
    cases c.block <;> rfl

/-- A write in a block. -/
theorem Coder.write_block (refuses : List UInt8 → List UInt8 → Bool) {c : Coder} {m : ℕ} (hopen : c.isOpen = true) (hblock : c.block = some m)
    (data : List UInt8) :
    c.write refuses data = ({ c with bytes := c.bytes ++ data }, true) ∨
      c.write refuses data = (⟨false, c.bytes.take m, none⟩, false) := by
  unfold Coder.write Coder.close
  rw [hopen, hblock]
  by_cases href : refuses c.bytes data = true
  · right
    rw [href]
    rfl
  · left
    rw [Bool.not_eq_true] at href
    rw [href]
    rfl

theorem pad_spec {n m : ℕ} {c : KeyCompressor} (hopen : c.comp.isOpen = true)
    (hblock : c.comp.block = some m) (hm : m ≤ c.comp.bytes.length) :
    KeyCompressor.pad refuses n c =
        (⟨{ c.comp with bytes := c.comp.bytes ++ List.replicate n 0 }, c.curOffset + n⟩, true) ∨
      ∃ offset, KeyCompressor.pad refuses n c =
        (⟨⟨false, c.comp.bytes.take m, none⟩, offset⟩, false) := by
  induction n generalizing c with
  | zero =>
    left
    unfold KeyCompressor.pad
    simp
  | succ n ih =>
    unfold KeyCompressor.pad
    rcases Coder.write_block refuses hopen hblock [0] with hwrite | hwrite
    · rw [hwrite]
      simp only
      have hm' : m ≤ (c.comp.bytes ++ [0]).length := by
        rw [List.length_append]
        omega
      rcases @ih ⟨⟨c.comp.isOpen, c.comp.bytes ++ [0], c.comp.block⟩, c.curOffset + 1⟩ hopen hblock
        hm' with h | ⟨offset, h⟩
      · left
        rw [h]
        simp only [List.append_assoc, List.singleton_append, ← List.replicate_succ]
        congr 2
        ring
      · right
        refine ⟨offset, ?_⟩
        rw [h]
        simp only [List.take_append_of_le_length hm]
    · right
      refine ⟨c.curOffset, ?_⟩
      rw [hwrite]

/-- What the loop that writes the data leaves. -/
structure DataWritten (data : List UInt8) (m : ℕ) (c c' : KeyCompressor) (written : ℕ)
    (refused : Bool) : Prop where
  written_le : written ≤ data.length
  below : 0 < written → c.curOffset < 0x100000
  accepted : refused = false → c'.comp.isOpen = true ∧
    c'.comp.bytes = c.comp.bytes ++ data.take written ∧ c'.curOffset = c.curOffset + written ∧
    (data ≠ [] → written = 0 → 0x100000 ≤ c.curOffset)
  closed : refused = true → c'.comp.isOpen = false ∧ written < data.length ∧
    c'.comp.bytes = if written = 0 then c.comp.bytes.take m else c.comp.bytes ++ data.take written

theorem writeData_spec {data : List UInt8} {m : ℕ} {c : KeyCompressor}
    (hopen : c.comp.isOpen = true) (hblock : c.comp.block = some m) :
    DataWritten data m c (KeyCompressor.writeData refuses data c).1
      (KeyCompressor.writeData refuses data c).2.1 (KeyCompressor.writeData refuses data c).2.2 := by
  induction data generalizing c m with
  | nil =>
    unfold KeyCompressor.writeData
    refine ⟨le_rfl, ?_, ?_, ?_⟩
    · intro h
      cases h
    · intro _
      refine ⟨hopen, by simp, rfl, ?_⟩
      intro h
      exact absurd rfl h
    · intro h
      cases h
  | cons b data ih =>
    unfold KeyCompressor.writeData
    by_cases hlimit : c.curOffset < 0x100000
    · rw [if_pos hlimit]
      rcases Coder.write_block refuses hopen hblock [b] with hwrite | hwrite
      · rw [hwrite]
        simp only
        have hrest := @ih (c.comp.bytes ++ [b]).length
          ⟨Coder.startblock ⟨c.comp.isOpen, c.comp.bytes ++ [b], c.comp.block⟩, c.curOffset + 1⟩
          hopen rfl
        refine ⟨?_, ?_, ?_, ?_⟩
        · exact Nat.succ_le_succ hrest.written_le
        · intro _
          exact hlimit
        · intro hrefused
          obtain ⟨h₁, h₂, h₃, -⟩ := hrest.accepted hrefused
          refine ⟨h₁, ?_, ?_, ?_⟩
          · rw [h₂]
            simp [Coder.startblock]
          · rw [h₃]
            simp only
            ring
          · intro _ hzero
            cases hzero
        · intro hrefused
          obtain ⟨h₁, h₂, h₃⟩ := hrest.closed hrefused
          refine ⟨h₁, ?_, ?_⟩
          · exact Nat.succ_lt_succ h₂
          · rw [h₃, if_neg (Nat.succ_ne_zero _)]
            split
            · rename_i hzero
              rw [hzero]
              simp [Coder.startblock]
            · simp [Coder.startblock]
      · rw [hwrite]
        refine ⟨Nat.zero_le _, ?_, ?_, ?_⟩
        · intro h
          cases h
        · intro h
          cases h
        · intro _
          exact ⟨rfl, Nat.succ_pos _, rfl⟩
    · rw [if_neg hlimit]
      refine ⟨Nat.zero_le _, ?_, ?_, ?_⟩
      · intro h
        cases h
      · intro _
        refine ⟨hopen, by simp, rfl, ?_⟩
        intro _ _
        exact not_lt.mp hlimit
      · intro h
        cases h

/-- What `writeBlob` leaves. -/
structure BlobWritten (data : List UInt8) (c c' : KeyCompressor) (written : ℕ) : Prop where
  settled : c'.Settled
  written_le : written ≤ data.length
  cut : written < data.length → c'.comp.isOpen = false
  kept : c.content <+: c'.content
  stored : 0 < written → c'.content = c.content ++
    List.replicate (KeyCompressor.padding c.curOffset) 0 ++ be32 data.length ++ data.take written ∧
    c.content.length + KeyCompressor.padding c.curOffset = c.getCurrentOffset ∧
    c.getCurrentOffset < 2 ^ 20

theorem KeyCompressor.content_of_open {c : KeyCompressor} (h : c.Settled)
    (hopen : c.comp.isOpen = true) : c.content = c.comp.bytes := by
  unfold KeyCompressor.content Coder.close
  rw [hopen, (h hopen).1]
  rfl

theorem KeyCompressor.content_of_closed {c : KeyCompressor} (h : c.comp.isOpen = false) :
    c.content = c.comp.bytes := by
  unfold KeyCompressor.content
  rw [Coder.close_of_closed h]

theorem KeyCompressor.settled_of_closed {c : KeyCompressor} (h : c.comp.isOpen = false) :
    c.Settled := by
  intro hopen
  rw [h] at hopen
  cases hopen

theorem getCurrentOffset_eq (c : KeyCompressor) :
    c.getCurrentOffset = c.curOffset + KeyCompressor.padding c.curOffset := by
  unfold KeyCompressor.getCurrentOffset KeyCompressor.padding
  omega

/-- A blob of which nothing is written: the node is closed, with what it had. -/
theorem blobWritten_zero {data : List UInt8} {c c' : KeyCompressor}
    (hclosed : c'.comp.isOpen = false) (hkept : c.content <+: c'.comp.bytes) :
    BlobWritten data c c' 0 where
  settled := KeyCompressor.settled_of_closed hclosed
  written_le := Nat.zero_le _
  cut := fun _ => hclosed
  kept := by
    rw [KeyCompressor.content_of_closed hclosed]
    exact hkept
  stored := by
    intro h
    cases h

theorem writeBlob_spec {data : List UInt8} {c : KeyCompressor} (h : c.Settled) :
    BlobWritten data c (c.writeBlob refuses data).1 (c.writeBlob refuses data).2 := by
  unfold KeyCompressor.writeBlob
  by_cases hopen : c.comp.isOpen = true
  swap
  · rw [if_neg hopen]
    rw [Bool.not_eq_true] at hopen
    apply blobWritten_zero hopen
    rw [KeyCompressor.content_of_closed hopen]
  rw [if_pos hopen]
  obtain ⟨hblock, hoffset⟩ := h hopen
  have hcontent := KeyCompressor.content_of_open h hopen
  have hrollback : ∀ l : List UInt8, (c.comp.bytes ++ l).take c.comp.bytes.length = c.comp.bytes := by
    intro l
    exact List.take_left
  rcases @pad_spec refuses (KeyCompressor.padding c.curOffset) c.comp.bytes.length
    ⟨c.comp.startblock, c.curOffset⟩ hopen rfl le_rfl with hpad | ⟨offset, hpad⟩
  swap
  · -- a zero is refused
    rw [hpad]
    apply blobWritten_zero
    · exact Coder.isOpen_close _
    · rw [hcontent]
      show c.comp.bytes <+: c.comp.bytes.take c.comp.bytes.length
      rw [List.take_length]
  rw [hpad]
  simp only
  set zeros := List.replicate (KeyCompressor.padding c.curOffset) (0 : UInt8) with hzeros
  set padded : Coder := ⟨c.comp.isOpen, c.comp.bytes ++ zeros, some c.comp.bytes.length⟩ with hpadded
  have hpaddedEq : ({ c.comp.startblock with bytes := c.comp.startblock.bytes ++ zeros } : Coder) =
      padded := rfl
  rw [hpaddedEq]
  rcases @Coder.write_block refuses padded c.comp.bytes.length hopen rfl (be32 data.length) with
    hlength | hlength
  swap
  · -- the length is refused
    rw [hlength]
    apply blobWritten_zero
    · exact Coder.isOpen_close _
    · rw [hcontent]
      show c.comp.bytes <+: (c.comp.bytes ++ zeros).take c.comp.bytes.length
      rw [hrollback]
  rw [hlength]
  simp only
  set headed : KeyCompressor := ⟨⟨c.comp.isOpen, c.comp.bytes ++ zeros ++ be32 data.length,
    some c.comp.bytes.length⟩, c.curOffset + KeyCompressor.padding c.curOffset + 4⟩ with hheaded
  have hdata := @writeData_spec refuses data c.comp.bytes.length headed hopen rfl
  rcases hresult : KeyCompressor.writeData refuses data headed with ⟨c₂, written, refused⟩
  rw [hresult] at hdata
  simp only at hdata
  have hbase : c.content <+: headed.comp.bytes := by
    rw [hcontent]
    exact ⟨zeros ++ be32 data.length, (List.append_assoc _ _ _).symm⟩
  have hstored : 0 < written → c.content.length + KeyCompressor.padding c.curOffset =
      c.getCurrentOffset ∧ c.getCurrentOffset < 2 ^ 20 := by
    intro hpos
    have hbelow := hdata.below hpos
    rw [getCurrentOffset_eq, hcontent, ← hoffset]
    refine ⟨rfl, ?_⟩
    simp only [hheaded] at hbelow
    omega
  cases refused with
  | true =>
    obtain ⟨hclosed, hless, hbytes⟩ := hdata.closed rfl
    cases written with
    | zero =>
      -- only room to put the length
      apply blobWritten_zero
      · exact Coder.isOpen_close _
      · show c.content <+: c₂.comp.close.bytes
        rw [hcontent, Coder.close_of_closed hclosed, hbytes]
        simp only [if_true, hheaded]
        rw [List.append_assoc, hrollback]
    | succ k =>
      simp only
      rw [if_neg hless.ne]
      have hcommit : c₂.comp.commitblock.close = c₂.comp.commitblock :=
        Coder.close_of_closed hclosed
      rw [hcommit]
      have hnew : KeyCompressor.content ⟨c₂.comp.commitblock, c₂.curOffset⟩ =
          headed.comp.bytes ++ data.take (k + 1) := by
        rw [KeyCompressor.content_of_closed (c := ⟨c₂.comp.commitblock, c₂.curOffset⟩) hclosed]
        exact hbytes
      refine ⟨KeyCompressor.settled_of_closed hclosed, hless.le, fun _ => hclosed, ?_, ?_⟩
      · rw [hnew]
        exact hbase.trans (List.prefix_append _ _)
      · intro hpos
        refine ⟨?_, hstored hpos⟩
        rw [hnew, hcontent]
  | false =>
    obtain ⟨hstill, hbytes, hcur, -⟩ := hdata.accepted rfl
    simp only
    have hnew : c₂.comp.bytes = headed.comp.bytes ++ data.take written := hbytes
    have hcur' : c₂.curOffset = c₂.comp.bytes.length := by
      rw [hcur, hbytes]
      simp only [hheaded, List.length_append, List.length_take, Nat.min_eq_left hdata.written_le,
        hzeros, List.length_replicate, length_be32, hoffset]
    by_cases hall : written = data.length
    · rw [if_pos hall]
      have hsettled : KeyCompressor.Settled ⟨c₂.comp.commitblock, c₂.curOffset⟩ := by
        intro _
        exact ⟨rfl, hcur'⟩
      have hcontent₂ : KeyCompressor.content ⟨c₂.comp.commitblock, c₂.curOffset⟩ =
          headed.comp.bytes ++ data.take written := by
        rw [KeyCompressor.content_of_open hsettled hstill]
        exact hnew
      refine ⟨hsettled, hall.le, fun hlt => absurd hall hlt.ne, ?_, ?_⟩
      · rw [hcontent₂]
        exact hbase.trans (List.prefix_append _ _)
      · intro hpos
        refine ⟨?_, hstored hpos⟩
        rw [hcontent₂, hcontent]
    · rw [if_neg hall]
      have hclosed := Coder.isOpen_close c₂.comp.commitblock
      have hcontent₂ : KeyCompressor.content ⟨c₂.comp.commitblock.close, c₂.curOffset⟩ =
          headed.comp.bytes ++ data.take written := by
        rw [KeyCompressor.content_of_closed (c := ⟨c₂.comp.commitblock.close, c₂.curOffset⟩) hclosed]
        unfold Coder.close Coder.commitblock
        simp only [hstill, if_true]
        exact hnew
      refine ⟨KeyCompressor.settled_of_closed hclosed, hdata.written_le, fun _ => hclosed, ?_, ?_⟩
      · rw [hcontent₂]
        exact hbase.trans (List.prefix_append _ _)
      · intro hpos
        refine ⟨?_, hstored hpos⟩
        rw [hcontent₂, hcontent]

end Coder

/-! ## The blob nodes of a state -/

/-- The blob nodes among nodes that are written. -/
def blobNodes (nodes : List (ℕ × Node)) : List (ℕ × BlobWriteNode) :=
  nodes.filterMap fun w =>
    match w.2 with
    | .blob node => some (w.1, node)
    | _ => none

/-- The pending nodes that are blob nodes, with the positions where they will be written. -/
def pendingBlobs (s : State) : List (ℕ × BlobWriteNode) :=
  blobNodes (s.pendingNodes.map fun node => (node.getFpos, node))

/-- The blob nodes that are complete. -/
def doneBlobs (s : State) : List (ℕ × BlobWriteNode) := blobNodes s.written ++ pendingBlobs s

/-- All blob nodes. -/
def allBlobs (s : State) : List (ℕ × BlobWriteNode) :=
  doneBlobs s ++ s.activeBlobNode.toList.map fun node => (node.fpos, node)

/-- What may become of a blob node. -/
structure Later (node node' : BlobWriteNode) : Prop where
  kept : node.lzwcomp.content <+: node'.lzwcomp.content
  closed : node.lzwcomp.comp.isOpen = false →
    node'.lzwcomp.comp.isOpen = false ∧ node'.lzwcomp.content = node.lzwcomp.content
  rightSib : node.rightSib ≠ 0 → node'.rightSib = node.rightSib

/-- Every blob node is still there. -/
def Grown (nodes nodes' : List (ℕ × BlobWriteNode)) : Prop :=
  ∀ pos node, (pos, node) ∈ nodes → ∃ node', (pos, node') ∈ nodes' ∧ Later node node'

theorem Later.refl (node : BlobWriteNode) : Later node node :=
  ⟨List.prefix_refl _, fun h => ⟨h, rfl⟩, fun _ => rfl⟩

theorem Later.trans {a b c : BlobWriteNode} (hab : Later a b) (hbc : Later b c) : Later a c := by
  refine ⟨hab.kept.trans hbc.kept, ?_, ?_⟩
  · intro ha
    obtain ⟨hb, hab'⟩ := hab.closed ha
    obtain ⟨hc, hbc'⟩ := hbc.closed hb
    exact ⟨hc, hbc'.trans hab'⟩
  · intro ha
    have hb := hab.rightSib ha
    rw [← hb] at ha ⊢
    exact hbc.rightSib ha

theorem Grown.of_subset {a b : List (ℕ × BlobWriteNode)} (h : a ⊆ b) : Grown a b := by
  intro pos node hmem
  exact ⟨node, h hmem, Later.refl node⟩

theorem Grown.trans {a b c : List (ℕ × BlobWriteNode)} (hab : Grown a b) (hbc : Grown b c) :
    Grown a c := by
  intro pos node hmem
  obtain ⟨node₁, hmem₁, hlater₁⟩ := hab pos node hmem
  obtain ⟨node₂, hmem₂, hlater₂⟩ := hbc pos node₁ hmem₁
  exact ⟨node₂, hmem₂, hlater₁.trans hlater₂⟩

theorem blobNodes_append (a b : List (ℕ × Node)) :
    blobNodes (a ++ b) = blobNodes a ++ blobNodes b := by
  unfold blobNodes
  rw [List.filterMap_append]

theorem blobNodes_map_blob (nodes : List BlobWriteNode) :
    blobNodes (nodes.map fun node => (node.fpos, Node.blob node)) =
      nodes.map fun node => (node.fpos, node) := by
  unfold blobNodes
  rw [List.filterMap_map]
  exact congrFun List.filterMap_eq_map nodes

/-- A complete blob node is not touched by `flushNode`. -/
theorem flushNode_blobs (keyHdr : KeyHdr) (node : Option WriteNode) (infos : List Entry)
    (s : State) : doneBlobs (flushNode keyHdr node infos s).2 = doneBlobs s ∧
      (pendingBlobs s = [] → pendingBlobs (flushNode keyHdr node infos s).2 = []) := by
  have hpending : doneBlobs (flushPending keyHdr s) = doneBlobs s ∧
      (pendingBlobs s = [] → pendingBlobs (flushPending keyHdr s) = []) := by
    unfold flushPending
    split
    · rename_i prev _ _
      have hparts : pendingBlobs s =
          blobNodes ((s.pendingNodes.takeWhile (·.getFpos ≤ prev.fpos)).map
            fun node => (node.getFpos, node)) ++
          blobNodes ((s.pendingNodes.dropWhile (·.getFpos ≤ prev.fpos)).map
            fun node => (node.getFpos, node)) := by
        unfold pendingBlobs
        rw [← blobNodes_append, ← List.map_append, List.takeWhile_append_dropWhile]
      constructor
      · unfold doneBlobs
        rw [hparts]
        simp only [blobNodes_append, List.append_assoc]
        rfl
      · intro hnil
        rw [hparts] at hnil
        exact (List.append_eq_nil_iff.mp hnil).2
    · exact ⟨rfl, id⟩
  unfold flushNode
  simp only
  cases (flushPending keyHdr s).prevLeafNode with
  | none => exact hpending
  | some prev =>
    simp only
    rw [← hpending.1]
    split
    · constructor
      · unfold doneBlobs pendingBlobs
        rw [List.map_append, blobNodes_append]
        simp only [List.map_singleton]
        rw [show blobNodes [((Node.key (setRightSib node prev)).getFpos,
          Node.key (setRightSib node prev))] = [] from rfl, List.append_nil]
      · intro hnil
        have hnil' := hpending.2 hnil
        unfold pendingBlobs at hnil' ⊢
        rw [List.map_append, blobNodes_append, hnil']
        rfl
    · constructor
      · unfold doneBlobs writeNode
        rw [blobNodes_append]
        simp only
        rw [show blobNodes [((Node.key (setRightSib node prev)).getFpos,
          Node.key (setRightSib node prev))] = [] from rfl, List.append_nil]
        rfl
      · intro hnil
        exact hpending.2 hnil

/-! ## Steps -/

section Steps

variable {keyHdr : KeyHdr}

/-- What holds for the blob nodes between two steps. -/
structure BlobState (keyHdr : KeyHdr) (s : State) : Prop where
  nextPos_ne : s.nextPos ≠ 0
  active : ∀ node, s.activeBlobNode = some node → node.rightSib = 0 ∧ node.lzwcomp.Settled
  pending : keyHdr.trailingHeaderOnly = false → pendingBlobs s = []

theorem blobState_init (startSequence : ℕ) : BlobState keyHdr (init keyHdr startSequence) := by
  refine ⟨(nodeSize_pos keyHdr).ne', ?_, fun _ => rfl⟩
  intro node h
  cases h

theorem settled_openBlob : KeyCompressor.openBlob.Settled := fun _ => ⟨rfl, rfl⟩

theorem writeBlob_of_closed {refuses : List UInt8 → List UInt8 → Bool} {data : List UInt8}
    {c : KeyCompressor} (h : c.comp.isOpen = false) : c.writeBlob refuses data = (c, 0) := by
  unfold KeyCompressor.writeBlob
  rw [h]
  rfl

/-- What `add` does to a blob node. -/
theorem BlobWriteNode.add_eq_some {data : List UInt8} {node node' : BlobWriteNode}
    {head written : ℕ} (h : node.add keyHdr.refuses data = some (node', head, written)) :
    makeBlobId node.fpos node.lzwcomp.getCurrentOffset = some head ∧
      node' = { node with lzwcomp := (node.lzwcomp.writeBlob (keyHdr.refuses node.fpos) data).1 } ∧
      written = (node.lzwcomp.writeBlob (keyHdr.refuses node.fpos) data).2 := by
  unfold BlobWriteNode.add at h
  simp only [Option.bind_eq_bind, Option.bind_eq_some_iff, Option.pure_def, Option.some.injEq,
    Prod.mk.injEq] at h
  obtain ⟨ret, hid, rfl, rfl, rfl⟩ := h
  exact ⟨hid, rfl, rfl⟩

theorem Later.add {data : List UInt8} {node node' : BlobWriteNode} {head written : ℕ}
    (hsettled : node.lzwcomp.Settled)
    (h : node.add keyHdr.refuses data = some (node', head, written)) : Later node node' := by
  obtain ⟨-, rfl, -⟩ := BlobWriteNode.add_eq_some h
  refine ⟨(writeBlob_spec hsettled).kept, ?_, fun _ => rfl⟩
  intro hclosed
  rw [writeBlob_of_closed hclosed]
  exact ⟨hclosed, rfl⟩

theorem mem_allBlobs_active {s : State} {node : BlobWriteNode} (h : s.activeBlobNode = some node) :
    (node.fpos, node) ∈ allBlobs s := by
  unfold allBlobs
  rw [h]
  exact List.mem_append_right _ (List.mem_singleton.mpr rfl)

/-- The blob nodes after `newBlobNode`. -/
theorem newBlobNode_blobs {s : State} (h : BlobState keyHdr s) :
    doneBlobs (newBlobNode keyHdr s) =
        doneBlobs s ++ (closedBlob s).map fun node => (node.fpos, node) := by
  obtain ⟨blobHead, leftSib, heq⟩ := newBlobNode_eq keyHdr s
  rw [heq]
  unfold doneBlobs pendingBlobs
  cases htrailing : keyHdr.trailingHeaderOnly with
  | true =>
    simp only [if_true, List.map_append, List.map_map, blobNodes_append, ← List.append_assoc]
    congr 1
    exact blobNodes_map_blob (closedBlob s)
  | false =>
    have hnil := h.pending htrailing
    unfold pendingBlobs at hnil
    simp only [Bool.false_eq_true, if_false, hnil, List.append_nil, blobNodes_append]
    rw [blobNodes_map_blob]

/-- The step of the blob nodes. -/
theorem BlobState.prim {rows : List Entry} {s s' : State} (hprim : Prim keyHdr rows s s')
    (h : BlobState keyHdr s) : BlobState keyHdr s' ∧ Grown (allBlobs s) (allBlobs s') := by
  cases hprim with
  | first =>
    refine ⟨⟨?_, h.active, h.pending⟩, Grown.of_subset (List.Subset.refl _)⟩
    exact (Nat.add_pos_left (Nat.pos_of_ne_zero h.nextPos_ne) _).ne'
  | row => exact ⟨⟨h.nextPos_ne, h.active, h.pending⟩, Grown.of_subset (List.Subset.refl _)⟩
  | @flush _ node node' keyData pos hactive hadd hadd' =>
    obtain ⟨hdone, hpending⟩ := flushNode_blobs keyHdr (some node) s.leafInfo s
    obtain ⟨written, pending, prev, heq, -⟩ := flushNode_frame keyHdr (some node) s.leafInfo s
    have hblob : (flushNode keyHdr (some node) s.leafInfo s).2.activeBlobNode =
        s.activeBlobNode := by
      rw [heq]
    have hpos : (flushNode keyHdr (some node) s.leafInfo s).2.nextPos = s.nextPos := by
      rw [heq]
    refine ⟨⟨?_, ?_, ?_⟩, Grown.of_subset ?_⟩
    · show (flushNode keyHdr (some node) s.leafInfo s).2.nextPos + keyHdr.nodeSize ≠ 0
      rw [hpos]
      exact (Nat.add_pos_left (Nat.pos_of_ne_zero h.nextPos_ne) _).ne'
    · intro blob hactive'
      exact h.active blob (hblob.symm.trans hactive')
    · intro htrailing
      exact hpending (h.pending htrailing)
    · show allBlobs s ⊆ doneBlobs (flushNode keyHdr (some node) s.leafInfo s).2 ++
        (flushNode keyHdr (some node) s.leafInfo s).2.activeBlobNode.toList.map
          fun node => (node.fpos, node)
      rw [hdone, hblob]
      exact List.Subset.refl _
  | newBlob =>
    have hdone := newBlobNode_blobs h
    obtain ⟨blobHead, leftSib, heq⟩ := newBlobNode_eq keyHdr s
    have hactive : (newBlobNode keyHdr s).activeBlobNode =
        some ⟨s.nextPos, leftSib, 0, .openBlob⟩ := by
      rw [heq]
    refine ⟨⟨?_, ?_, ?_⟩, ?_⟩
    · rw [heq]
      exact (Nat.add_pos_left (Nat.pos_of_ne_zero h.nextPos_ne) _).ne'
    · intro node hnode
      rw [hactive] at hnode
      cases hnode
      exact ⟨rfl, settled_openBlob⟩
    · intro htrailing
      have hnil := h.pending htrailing
      rw [heq]
      unfold pendingBlobs at hnil ⊢
      simp only [htrailing, Bool.false_eq_true, if_false]
      exact hnil
    · intro pos node hmem
      unfold allBlobs at hmem ⊢
      rw [hdone]
      rcases List.mem_append.mp hmem with hmem | hmem
      · refine ⟨node, ?_, Later.refl node⟩
        exact List.mem_append_left _ (List.mem_append_left _ hmem)
      · obtain ⟨node', hnode', heq'⟩ := List.mem_map.mp hmem
        cases heq'
        have hnode : s.activeBlobNode = some node := Option.mem_toList.mp hnode'
        refine ⟨{ node with rightSib := s.nextPos }, ?_, ?_⟩
        · apply List.mem_append_left
          apply List.mem_append_right
          unfold closedBlob
          rw [hnode]
          exact List.mem_singleton.mpr rfl
        · refine ⟨List.prefix_refl _, fun hclosed => ⟨hclosed, rfl⟩, ?_⟩
          intro hne
          exact absurd (h.active node hnode).1 hne
  | @addBlob _ node node' data head written hnode hadd =>
    obtain ⟨hsib, hsettled⟩ := h.active node hnode
    have hlater := Later.add hsettled hadd
    obtain ⟨-, heq, -⟩ := BlobWriteNode.add_eq_some hadd
    refine ⟨⟨h.nextPos_ne, ?_, h.pending⟩, ?_⟩
    · intro blob hblob
      cases hblob
      rw [heq]
      exact ⟨hsib, (writeBlob_spec hsettled).settled⟩
    · intro pos blob hmem
      unfold allBlobs at hmem ⊢
      rcases List.mem_append.mp hmem with hmem | hmem
      · exact ⟨blob, List.mem_append_left _ hmem, Later.refl blob⟩
      · rw [hnode] at hmem
        cases List.mem_singleton.mp hmem
        refine ⟨node', List.mem_append_right _ ?_, hlater⟩
        rw [← (BlobWriteNode.add_fpos hadd).1]
        exact List.mem_singleton.mpr rfl

theorem BlobState.prims {s s' : State} (hprims : Relation.ReflTransGen (Prim keyHdr []) s s')
    (h : BlobState keyHdr s) : BlobState keyHdr s' ∧ Grown (allBlobs s) (allBlobs s') := by
  induction hprims with
  | refl => exact ⟨h, Grown.of_subset (List.Subset.refl _)⟩
  | tail _ hprim ih =>
    obtain ⟨hstate, hgrown⟩ := ih.1.prim hprim
    exact ⟨hstate, ih.2.trans hgrown⟩

/-! ## Blobs in nodes -/

/-- A blob is stored in the node at a position, at an offset. -/
inductive Stored (nodes : List (ℕ × BlobWriteNode)) : ℕ → ℕ → List UInt8 → Prop
  | whole {pos offset : ℕ} {data : List UInt8} {node : BlobWriteNode} : (pos, node) ∈ nodes →
    be32 data.length ++ data <+: node.lzwcomp.content.drop offset → Stored nodes pos offset data
  | cut {pos offset : ℕ} {here rest : List UInt8} {node : BlobWriteNode} : (pos, node) ∈ nodes →
    node.lzwcomp.comp.isOpen = false →
    node.lzwcomp.content.drop offset = be32 (here ++ rest).length ++ here → rest ≠ [] →
    node.rightSib ≠ 0 → Stored nodes node.rightSib 0 rest → Stored nodes pos offset (here ++ rest)

theorem Stored.grown {nodes nodes' : List (ℕ × BlobWriteNode)} {pos offset : ℕ}
    {data : List UInt8} (h : Stored nodes pos offset data) (hgrown : Grown nodes nodes') :
    Stored nodes' pos offset data := by
  induction h with
  | whole hmem hdata =>
    obtain ⟨node', hmem', hlater⟩ := hgrown _ _ hmem
    exact Stored.whole hmem' (hdata.trans (hlater.kept.drop _))
  | cut hmem hclosed hhere hrest hsib _ ih =>
    obtain ⟨node', hmem', hlater⟩ := hgrown _ _ hmem
    obtain ⟨hclosed', hcontent⟩ := hlater.closed hclosed
    have hsib' := hlater.rightSib hsib
    refine Stored.cut hmem' hclosed' ?_ hrest ?_ ?_
    · rw [hcontent]
      exact hhere
    · rw [hsib']
      exact hsib
    · rw [hsib']
      exact ih

/-- What `addBlob` does when it writes something. -/
theorem addBlob_stored {data rest : List UInt8} {s s' : State} {head : ℕ} (h : BlobState keyHdr s)
    (hadd : addBlob keyHdr data s = some (s', head, rest)) (hhead : head ≠ 0) :
    ∃ node node' written, s.activeBlobNode = some node ∧ s'.activeBlobNode = some node' ∧
      node'.fpos = node.fpos ∧ makeBlobId node.fpos node.lzwcomp.getCurrentOffset = some head ∧
      node.lzwcomp.getCurrentOffset < 2 ^ 20 ∧ rest = data.drop written ∧
      (rest ≠ [] → node'.lzwcomp.comp.isOpen = false) ∧
      node'.lzwcomp.content.drop node.lzwcomp.getCurrentOffset =
        be32 data.length ++ data.take written := by
  unfold addBlob at hadd
  simp only [Option.bind_eq_bind, Option.bind_eq_some_iff, Option.pure_def, Option.some.injEq,
    Prod.mk.injEq, Prod.exists] at hadd
  obtain ⟨node, hnode, node', id, written, hnodeAdd, rfl, hid, rfl⟩ := hadd
  obtain ⟨hblobId, hnode', hwritten⟩ := BlobWriteNode.add_eq_some hnodeAdd
  have hspec := @writeBlob_spec (keyHdr.refuses node.fpos) data node.lzwcomp (h.active node hnode).2
  rw [← hwritten] at hspec
  have hpos : 0 < written := by
    rcases Nat.eq_zero_or_pos written with hzero | hpos
    · rw [if_pos hzero] at hid
      exact absurd hid.symm hhead
    · exact hpos
  rw [if_neg hpos.ne'] at hid
  obtain ⟨hcontent, hoffset, hlimit⟩ := hspec.stored hpos
  refine ⟨node, node', written, hnode, rfl, ?_, ?_, hlimit, rfl, ?_, ?_⟩
  · rw [hnode']
  · rw [hblobId, hid]
  · intro hrest
    rw [hnode']
    apply hspec.cut
    by_contra hall
    exact hrest (List.drop_eq_nil_of_le (not_lt.mp hall))
  · rw [hnode']
    simp only
    rw [hcontent, List.append_assoc]
    apply List.drop_left'
    rw [List.length_append, List.length_replicate]
    exact hoffset

theorem createBlob_loop_nil {fuel : ℕ} {s s' : State}
    (h : createBlob.loop keyHdr fuel [] s = some s') : s' = s := by
  cases fuel with
  | zero =>
    unfold createBlob.loop at h
    rw [if_pos rfl] at h
    exact (Option.some.inj h).symm
  | succ fuel =>
    unfold createBlob.loop at h
    rw [if_pos rfl] at h
    exact (Option.some.inj h).symm

/-- The rest of a blob is stored in the next node, and the node before is its left neighbour. -/
def RestStored (s s' : State) (rest : List UInt8) : Prop :=
  Stored (allBlobs s') s.nextPos 0 rest ∧
    ∀ node, s.activeBlobNode = some node → ∃ node', (node.fpos, node') ∈ allBlobs s' ∧
      Later { node with rightSib := s.nextPos } node'

/-- A blob whose start is written, and whose rest is written by the loop. -/
theorem stored_of_addBlob {fuel head : ℕ} {data rest : List UInt8} {s s₁ s₂ : State}
    (h : BlobState keyHdr s) (hadd : addBlob keyHdr data s = some (s₁, head, rest))
    (hhead : head ≠ 0) (hloop : createBlob.loop keyHdr fuel rest s₁ = some s₂)
    (hrest : rest ≠ [] → RestStored s₁ s₂ rest) :
    ∃ node, s.activeBlobNode = some node ∧
      makeBlobId node.fpos node.lzwcomp.getCurrentOffset = some head ∧
      node.lzwcomp.getCurrentOffset < 2 ^ 20 ∧
      Stored (allBlobs s₂) node.fpos node.lzwcomp.getCurrentOffset data := by
  obtain ⟨node, node', written, hnode, hnode', hfpos, hid, hlimit, hdrop, hclosed, hcontent⟩ :=
    addBlob_stored h hadd hhead
  refine ⟨node, hnode, hid, hlimit, ?_⟩
  by_cases hnil : rest = []
  · rw [hnil] at hloop
    have hsame := createBlob_loop_nil hloop
    have hall : data.take written = data := by
      apply List.take_of_length_le
      exact List.drop_eq_nil_iff.mp (hdrop.symm.trans hnil)
    rw [hsame, ← hfpos]
    apply Stored.whole (mem_allBlobs_active hnode')
    rw [hcontent, hall]
  · obtain ⟨hstored, hneighbour⟩ := hrest hnil
    obtain ⟨node₂, hmem, hlater⟩ := hneighbour node' hnode'
    have hstate := (h.prim (prim_addBlob hadd)).1
    have hsib : node₂.rightSib = s₁.nextPos := hlater.rightSib hstate.nextPos_ne
    obtain ⟨hclosed₂, hcontent₂⟩ := hlater.closed (hclosed hnil)
    have hdata : data = data.take written ++ rest := by
      rw [hdrop, List.take_append_drop]
    rw [hfpos] at hmem
    rw [hdata]
    refine Stored.cut hmem hclosed₂ ?_ hnil ?_ ?_
    · rw [hcontent₂, ← hdata]
      exact hcontent
    · rw [hsib]
      exact hstate.nextPos_ne
    · rw [hsib]
      exact hstored

/-- The loop of `createBlob`. -/
theorem createBlob_loop_stored {fuel : ℕ} {data : List UInt8} {s s' : State}
    (h : BlobState keyHdr s) (hdata : data ≠ [])
    (hloop : createBlob.loop keyHdr fuel data s = some s') : RestStored s s' data := by
  induction fuel generalizing data s with
  | zero =>
    unfold createBlob.loop at hloop
    rw [if_neg hdata] at hloop
    cases hloop
  | succ fuel ih =>
    unfold createBlob.loop at hloop
    rw [if_neg hdata] at hloop
    simp only [Option.bind_eq_bind, Option.bind_eq_some_iff, Prod.exists] at hloop
    obtain ⟨s₁, head, rest, hadd, hloop⟩ := hloop
    split at hloop
    · cases hloop
    rename_i hhead
    have hstate := (h.prim (Prim.newBlob)).1
    have hstate₁ := (hstate.prim (prim_addBlob hadd)).1
    obtain ⟨node, hnode, -, -, hstored⟩ := stored_of_addBlob hstate hadd hhead hloop
      fun hrest => ih hstate₁ hrest hloop
    obtain ⟨blobHead, leftSib, heq⟩ := newBlobNode_eq keyHdr s
    rw [heq] at hnode
    cases hnode
    have hstart : KeyCompressor.openBlob.getCurrentOffset = 0 := by decide
    rw [hstart] at hstored
    refine ⟨hstored, ?_⟩
    intro node hnode
    -- the node before is complete when the new one is created
    have hmem : (node.fpos, { node with rightSib := s.nextPos }) ∈
        allBlobs (newBlobNode keyHdr s) := by
      unfold allBlobs
      rw [newBlobNode_blobs h]
      apply List.mem_append_left
      apply List.mem_append_right
      unfold closedBlob
      rw [hnode]
      exact List.mem_singleton.mpr rfl
    have hgrown := ((hstate.prim (prim_addBlob hadd)).2).trans
      (hstate₁.prims (prim_createBlob_loop hloop)).2
    exact hgrown _ _ hmem

/-- A blob is stored under an id. -/
def StoredAs (nodes : List (ℕ × BlobWriteNode)) (id : ℕ) (data : List UInt8) : Prop :=
  ∃ pos offset, makeBlobId pos offset = some id ∧ offset < 2 ^ 20 ∧ Stored nodes pos offset data

theorem StoredAs.grown {nodes nodes' : List (ℕ × BlobWriteNode)} {id : ℕ} {data : List UInt8}
    (h : StoredAs nodes id data) (hgrown : Grown nodes nodes') : StoredAs nodes' id data := by
  obtain ⟨pos, offset, hid, hlimit, hstored⟩ := h
  exact ⟨pos, offset, hid, hlimit, hstored.grown hgrown⟩

theorem createBlob_stored {data : List UInt8} {s s' : State} {id : ℕ} (h : BlobState keyHdr s)
    (hdata : data ≠ []) (hcreate : createBlob keyHdr data s = some (s', id)) :
    StoredAs (allBlobs s') id data := by
  unfold createBlob at hcreate
  rw [if_neg hdata] at hcreate
  simp only [Option.bind_eq_bind, Option.bind_eq_some_iff, Prod.exists] at hcreate
  obtain ⟨s₁, head₁, rest₁, hadd, s₂, head₂, rest₂, hagain, hcreate⟩ := hcreate
  split at hcreate
  · cases hcreate
  rename_i hhead
  simp only [Option.bind_eq_some_iff, Option.pure_def, Option.some.injEq, Prod.mk.injEq] at hcreate
  obtain ⟨s₃, hloop, rfl, rfl⟩ := hcreate
  have hopen : BlobState keyHdr (openBlobNode keyHdr s) := by
    unfold openBlobNode
    split
    · exact (h.prim Prim.newBlob).1
    · exact h
  -- the start of the blob is in the node in progress, or in a new node
  obtain ⟨t, ht, haddt⟩ : ∃ t, BlobState keyHdr t ∧
      addBlob keyHdr data t = some (s₂, head₂, rest₂) := by
    unfold retryBlob at hagain
    split at hagain
    · exact ⟨_, ((hopen.prim (prim_addBlob hadd)).1.prim Prim.newBlob).1, hagain⟩
    · cases hagain
      exact ⟨_, hopen, hadd⟩
  have hstate := (ht.prim (prim_addBlob haddt)).1
  obtain ⟨node, -, hid, hlimit, hstored⟩ := stored_of_addBlob ht haddt hhead hloop
    fun hrest => createBlob_loop_stored hstate hrest hloop
  exact ⟨_, _, hid, hlimit, hstored⟩

/-- The blobs of a run. -/
theorem run_stored {calls : List Call} {s s' : State} {ids : List (List UInt8 × ℕ)}
    (h : BlobState keyHdr s) (hrun : run keyHdr calls s = some (s', ids)) :
    BlobState keyHdr s' ∧ Grown (allBlobs s) (allBlobs s') ∧
      ∀ blob ∈ ids, blob.1.length < 2 ^ 32 ∧
        (blob.1 ≠ [] → StoredAs (allBlobs s') blob.2 blob.1) := by
  induction calls generalizing s ids with
  | nil =>
    cases hrun
    refine ⟨h, Grown.of_subset (List.Subset.refl _), ?_⟩
    intro blob hblob
    cases hblob
  | cons c calls ih =>
    unfold run at hrun
    simp only [Option.bind_eq_bind, Option.bind_eq_some_iff, Option.pure_def, Option.some.injEq,
      Prod.mk.injEq, Prod.exists] at hrun
    obtain ⟨s₁, ids₁, hcall, s₂, ids₂, hrest, rfl, rfl⟩ := hrun
    have hstep : BlobState keyHdr s₁ ∧ Grown (allBlobs s) (allBlobs s₁) ∧
        ∀ blob ∈ ids₁, blob.1.length < 2 ^ 32 ∧
          (blob.1 ≠ [] → StoredAs (allBlobs s₁) blob.2 blob.1) := by
      cases c with
      | processKeyData keyData pos =>
        unfold step at hcall
        simp only [Option.bind_eq_bind, Option.bind_eq_some_iff, Option.pure_def,
          Option.some.injEq, Prod.mk.injEq] at hcall
        obtain ⟨s₁', hcall, rfl, rfl⟩ := hcall
        obtain ⟨hstate, hgrown⟩ := h.prim (prim_processKeyData hcall)
        refine ⟨hstate, hgrown, ?_⟩
        intro blob hblob
        cases hblob
      | createBlob data =>
        unfold step at hcall
        simp only [Option.bind_eq_bind, Option.bind_eq_some_iff, Option.pure_def,
          Option.some.injEq, Prod.mk.injEq, Prod.exists] at hcall
        obtain ⟨s₁', id, hcall, rfl, rfl⟩ := hcall
        obtain ⟨hstate, hgrown⟩ := h.prims (prim_createBlob hcall)
        refine ⟨hstate, hgrown, ?_⟩
        intro blob hblob
        cases List.mem_singleton.mp hblob
        exact ⟨data.2, fun hne => createBlob_stored h hne hcall⟩
    obtain ⟨hstate, hgrown, hblobs⟩ := ih hstep.1 hrest
    refine ⟨hstate, hstep.2.1.trans hgrown, ?_⟩
    intro blob hblob
    rcases List.mem_append.mp hblob with hblob | hblob
    · obtain ⟨hlength, hstored⟩ := hstep.2.2 blob hblob
      exact ⟨hlength, fun hne => (hstored hne).grown hgrown⟩
    · exact hblobs blob hblob

/-! ## The end of an index -/

/-- No blob node is pending before or after, and none is written. -/
def SameBlobs (s s' : State) : Prop :=
  pendingBlobs s = [] → pendingBlobs s' = [] ∧ blobNodes s'.written = blobNodes s.written

theorem SameBlobs.trans {s s₁ s₂ : State} (h : SameBlobs s s₁) (h' : SameBlobs s₁ s₂) :
    SameBlobs s s₂ := by
  intro hnil
  obtain ⟨hnil₁, hsame₁⟩ := h hnil
  obtain ⟨hnil₂, hsame₂⟩ := h' hnil₁
  exact ⟨hnil₂, hsame₂.trans hsame₁⟩

theorem sameBlobs_flushNode (node : Option WriteNode) (infos : List Entry) (s : State) :
    SameBlobs s (flushNode keyHdr node infos s).2 := by
  intro hnil
  obtain ⟨hdone, hpending⟩ := flushNode_blobs keyHdr node infos s
  have hnil' := hpending hnil
  unfold doneBlobs at hdone
  rw [hnil, hnil', List.append_nil, List.append_nil] at hdone
  exact ⟨hnil', hdone⟩

theorem sameBlobs_buildLevel_loop {thisLevel : List Entry} {node node' : WriteNode}
    {parents parents' : List Entry} {s s' : State}
    (h : buildLevel.loop keyHdr thisLevel node parents s = some (node', parents', s')) :
    SameBlobs s s' := by
  induction thisLevel generalizing node parents s with
  | nil =>
    cases h
    exact fun hnil => ⟨hnil, rfl⟩
  | cons info thisLevel ih =>
    unfold buildLevel.loop at h
    cases hadd : node.add keyHdr info with
    | some next =>
      rw [hadd] at h
      exact ih h
    | none =>
      rw [hadd] at h
      simp only [Option.bind_eq_bind, Option.bind_eq_some_iff] at h
      obtain ⟨next, -, h⟩ := h
      have hrest := ih h
      exact (sameBlobs_flushNode (some node) parents s).trans hrest

theorem sameBlobs_buildLevel {thisLevel parents : List Entry} {s s' : State}
    (h : buildLevel keyHdr thisLevel s = some (parents, s')) : SameBlobs s s' := by
  unfold buildLevel at h
  simp only [Option.bind_eq_bind, Option.bind_eq_some_iff, Option.pure_def, Option.some.injEq,
    Prod.exists] at h
  obtain ⟨node, parents₁, s₁, hloop, h⟩ := h
  have hs' : s' = (flushNode keyHdr none (flushNode keyHdr (some node) parents₁ s₁).1
      (flushNode keyHdr (some node) parents₁ s₁).2).2 := by rw [h]
  rw [hs']
  have hloop' := sameBlobs_buildLevel_loop hloop
  exact hloop'.trans ((sameBlobs_flushNode _ _ _).trans (sameBlobs_flushNode _ _ _))

theorem sameBlobs_buildTree {fuel : ℕ} {children : List Entry} {s s' : State}
    (h : buildTree keyHdr fuel children s = some s') : SameBlobs s s' := by
  induction fuel generalizing children s with
  | zero => cases h
  | succ fuel ih =>
    unfold buildTree at h
    split at h
    · simp only [Option.bind_eq_bind, Option.bind_eq_some_iff, Prod.exists] at h
      obtain ⟨parents, s₁, hlevel, h⟩ := h
      exact (sameBlobs_buildLevel hlevel).trans (ih h)
    · cases h
      exact fun hnil => ⟨hnil, rfl⟩

theorem sameBlobs_extends {s s' : State} (h : Extends keyHdr s s') : SameBlobs s s' := by
  obtain ⟨others, _, _, -, hdata, rfl⟩ := h
  intro hnil
  refine ⟨hnil, ?_⟩
  simp only
  rw [blobNodes_append]
  have hnone : blobNodes others = [] := by
    unfold blobNodes
    apply List.filterMap_eq_nil_iff.mpr
    intro w hw
    have hw' := hdata w hw
    rcases hnode : w.2 with node | node | node | node | _
    · rfl
    · rw [hnode] at hw'
      exact hw'.elim
    · rfl
    · rfl
    · rfl
  rw [hnone, List.append_nil]

theorem sameBlobs_writeFileHeader (s : State) : SameBlobs s (writeFileHeader keyHdr s) := by
  intro hnil
  unfold writeFileHeader
  split
  · refine ⟨hnil, ?_⟩
    simp only
    rw [blobNodes_append]
    exact List.append_nil _
  · exact ⟨hnil, rfl⟩

theorem allBlobs_appendBlobNode (s : State) :
    allBlobs (appendBlobNode keyHdr s) = allBlobs s ∧
      (keyHdr.trailingHeaderOnly = false → appendBlobNode keyHdr s = s) := by
  unfold appendBlobNode
  split
  · rename_i blob htrailing hblob
    constructor
    · unfold allBlobs doneBlobs pendingBlobs
      rw [hblob, List.map_append, blobNodes_append]
      simp only [Option.toList_none, List.map_nil, List.append_nil, Option.toList_some,
        List.append_assoc]
      rfl
    · intro hfalse
      rw [htrailing] at hfalse
      cases hfalse
  · exact ⟨rfl, fun _ => rfl⟩

theorem allBlobs_flushActiveNode (s : State) :
    allBlobs (flushActiveNode keyHdr s) = allBlobs s ∧
      (pendingBlobs s = [] → pendingBlobs (flushActiveNode keyHdr s) = []) := by
  unfold flushActiveNode
  cases s.activeNode with
  | none => exact ⟨rfl, id⟩
  | some node =>
    obtain ⟨hdone, hpending⟩ := flushNode_blobs keyHdr (some node) s.leafInfo s
    obtain ⟨written, pending, prev, heq, -⟩ := flushNode_frame keyHdr (some node) s.leafInfo s
    refine ⟨?_, hpending⟩
    show doneBlobs (flushNode keyHdr (some node) s.leafInfo s).2 ++
      (flushNode keyHdr (some node) s.leafInfo s).2.activeBlobNode.toList.map
        (fun node => (node.fpos, node)) = allBlobs s
    rw [hdone, heq]
    rfl

theorem doneBlobs_writeBlobNode (s : State) :
    allBlobs s ⊆ doneBlobs (writeBlobNode s) ∧
      pendingBlobs (writeBlobNode s) = pendingBlobs s := by
  unfold writeBlobNode
  cases hblob : s.activeBlobNode with
  | none =>
    refine ⟨?_, rfl⟩
    unfold allBlobs
    rw [hblob, Option.toList_none, List.map_nil, List.append_nil]
    exact List.Subset.refl _
  | some blob =>
    refine ⟨?_, rfl⟩
    intro w hw
    unfold allBlobs doneBlobs at hw
    rw [hblob] at hw
    have hsplit : doneBlobs { writeNode (.blob blob) s with activeBlobNode := none } =
        blobNodes s.written ++ [(blob.fpos, blob)] ++ pendingBlobs s := by
      unfold doneBlobs writeNode
      simp only
      rw [blobNodes_append]
      rfl
    rw [hsplit]
    simp only [List.mem_append] at hw ⊢
    tauto

/-- `finishLeaves` writes all blob nodes. -/
theorem BlobState.finishLeaves {s : State} (h : BlobState keyHdr s) :
    pendingBlobs (finishLeaves keyHdr s) = [] ∧
      allBlobs s ⊆ blobNodes (finishLeaves keyHdr s).written := by
  obtain ⟨happend, hseek⟩ := @allBlobs_appendBlobNode keyHdr s
  obtain ⟨hflush, hflushed⟩ := @allBlobs_flushActiveNode keyHdr (appendBlobNode keyHdr s)
  obtain ⟨hwrite, hkept⟩ := doneBlobs_writeBlobNode (flushActiveNode keyHdr (appendBlobNode keyHdr s))
  set s₃ := writeBlobNode (flushActiveNode keyHdr (appendBlobNode keyHdr s)) with hs₃
  obtain ⟨hlast, hlasted⟩ := flushNode_blobs keyHdr none s₃.leafInfo s₃
  have hmem : allBlobs s ⊆ doneBlobs (flushLastNode keyHdr s₃) := by
    show allBlobs s ⊆ doneBlobs (flushNode keyHdr none s₃.leafInfo s₃).2
    rw [hlast, ← happend, ← hflush]
    exact hwrite
  unfold KeyBuilder.finishLeaves writePendingNodes
  rw [← hs₃]
  cases htrailing : keyHdr.trailingHeaderOnly with
  | true =>
    rw [if_pos rfl]
    refine ⟨rfl, ?_⟩
    show allBlobs s ⊆ blobNodes ((flushLastNode keyHdr s₃).written ++
      (flushLastNode keyHdr s₃).pendingNodes.map fun node => (node.getFpos, node))
    rw [blobNodes_append]
    exact hmem
  | false =>
    rw [if_neg Bool.false_ne_true]
    have hnil : pendingBlobs (flushLastNode keyHdr s₃) = [] := by
      apply hlasted
      rw [hkept]
      apply hflushed
      rw [hseek htrailing]
      exact h.pending htrailing
    refine ⟨hnil, ?_⟩
    unfold doneBlobs at hmem
    rw [hnil, List.append_nil] at hmem
    exact hmem

/-- All blob nodes of the builder are written, and `finish` writes no other blob nodes behind the
leaves. -/
theorem finish_blobs {fuel : ℕ} {metadata : Option (List UInt8)} {tables : List (List UInt8)}
    {s s' : State} (h : BlobState keyHdr s)
    (hfinish : finish keyHdr fuel metadata tables s = some s') :
    allBlobs s ⊆ blobNodes s'.written ∧
      blobNodes s'.written = blobNodes (finishLeaves keyHdr s).written := by
  obtain ⟨hnil, hall⟩ := h.finishLeaves
  unfold finish at hfinish
  simp only [Option.bind_eq_bind, Option.bind_eq_some_iff, Option.pure_def, Option.some.injEq] at hfinish
  obtain ⟨s₁, htree, s₂, hmeta, s₃, hbloom, rfl⟩ := hfinish
  have hsame₁ := sameBlobs_buildTree htree
  have hsame₂ : SameBlobs s₁ s₂ := by
    unfold finishMetadata at hmeta
    cases metadata with
    | none =>
      cases hmeta
      exact fun hnil => ⟨hnil, rfl⟩
    | some data => exact sameBlobs_extends (writeMetadata_spec hmeta)
  have hsame₃ : SameBlobs s₂ s₃ := by
    unfold finishBloomFilters at hbloom
    split at hbloom
    · exact sameBlobs_extends (writeBloomFilters_spec hbloom)
    · cases hbloom
      exact fun hnil => ⟨hnil, rfl⟩
  have hheader := @sameBlobs_writeFileHeader keyHdr s₃
  have hsame := (((hsame₁.trans hsame₂).trans hsame₃).trans hheader) hnil
  rw [hsame.2]
  exact ⟨hall, rfl⟩

theorem blobNodes_positions (written : List (ℕ × Node)) :
    ((blobNodes written).map Prod.fst).Sublist (written.map Prod.fst) := by
  induction written with
  | nil => exact List.Sublist.refl _
  | cons w written ih =>
    unfold blobNodes at ih ⊢
    rw [List.filterMap_cons]
    split
    · exact ih.cons _
    · rename_i b hb
      split at hb
      · cases hb
        exact ih.cons_cons _
      · cases hb

theorem nodup_blobNodes {fuel : ℕ} {metadata : Option (List UInt8)} {tables : List (List UInt8)}
    {s s' : State} (h : BlobState keyHdr s) (hbalanced : Balanced keyHdr s)
    (hfinish : finish keyHdr fuel metadata tables s = some s') :
    ((blobNodes s'.written).map Prod.fst).Nodup := by
  rw [(finish_blobs h hfinish).2]
  obtain ⟨n, hledger⟩ := hbalanced.finishLeaves
  have hnodup : (taken (finishLeaves keyHdr s) []).Nodup := by
    rw [hledger.taken_eq, Multiset.coe_nodup]
    exact (pairwise_positions (nodeSize_pos keyHdr) n).imp fun hlt => hlt.ne
  have hle : ((writtenPos (finishLeaves keyHdr s) : List ℕ) : Multiset ℕ) ≤
      taken (finishLeaves keyHdr s) [] := by
    unfold taken
    rw [add_assoc, add_assoc, add_assoc]
    exact Multiset.le_add_right _ _
  have hwritten := Multiset.coe_nodup.mp (Multiset.nodup_of_le hle hnodup)
  exact hwritten.sublist (blobNodes_positions _)

/-! ## Reading -/

/-- The buffer of a blob node, as `unpack` leaves it: a node is expanded only in an index with
`HTREE_COMPRESSED_KEY`, with prefix compression only it is empty as the node has no keys, and
without both it has the bytes of the file. -/
def unpackBlobNode (keyHdr : KeyHdr) (raw : BlobWriteNode → List UInt8) (node : BlobWriteNode) :
    List UInt8 :=
  if keyHdr.compressed then node.lzwcomp.content
  else if keyHdr.colPrefix then []
  else raw node

/-- `getBlobNode(nodepos)`: the buffer and the right sibling of the blob node at a position. -/
def getBlobNode (keyHdr : KeyHdr) (raw : BlobWriteNode → List UInt8) (written : List (ℕ × Node))
    (nodepos : ℕ) : Option (List UInt8 × ℕ) :=
  ((blobNodes written).find? fun w => w.1 = nodepos).map fun w =>
    (unpackBlobNode keyHdr raw w.2, w.2.rightSib)

theorem getBlobNode_eq {raw : BlobWriteNode → List UInt8} {written : List (ℕ × Node)} {pos : ℕ}
    {node : BlobWriteNode} (hnodup : ((blobNodes written).map Prod.fst).Nodup)
    (hmem : (pos, node) ∈ blobNodes written) :
    getBlobNode keyHdr raw written pos = some (unpackBlobNode keyHdr raw node, node.rightSib) := by
  have hfind : (blobNodes written).find? (fun w => w.1 = pos) = some (pos, node) := by
    generalize blobNodes written = nodes at hnodup hmem
    induction nodes with
    | nil => cases hmem
    | cons w nodes ih =>
      rw [List.map_cons, List.nodup_cons] at hnodup
      rcases List.mem_cons.mp hmem with rfl | hmem
      · rw [List.find?_cons_of_pos]
        exact decide_eq_true rfl
      · rw [List.find?_cons_of_neg]
        · exact ih hnodup.2 hmem
        · intro heq
          apply hnodup.1
          rw [of_decide_eq_true heq]
          exact List.mem_map_of_mem hmem
  unfold getBlobNode
  rw [hfind]
  rfl

/-- The length and the data that stand at an offset. -/
theorem getTotalBlobSize_eq {keyBuf tail : List UInt8} {offset n : ℕ} (hn : n < 2 ^ 32)
    (h : keyBuf.drop offset = be32 n ++ tail) : getTotalBlobSize keyBuf offset = some n ∧
      getBlobData keyBuf offset = some (tail.take n) := by
  have hlength := congrArg List.length h
  rw [List.length_drop, List.length_append, length_be32] at hlength
  have hsize : getTotalBlobSize keyBuf offset = some n := by
    unfold getTotalBlobSize
    rw [if_pos (by omega), h, List.take_left' (length_be32 n), ofBe_be32 hn]
  refine ⟨hsize, ?_⟩
  unfold getBlobData
  rw [hsize, ← List.drop_drop, h, List.drop_left' (length_be32 n)]
  rfl

section Reading

variable {raw : BlobWriteNode → List UInt8} {written : List (ℕ × Node)}

/-- The loop of `loadBlob` reads a blob that is stored. -/
theorem loadBlob_loop_of_stored (hcompressed : keyHdr.compressed = true)
    (hnodup : ((blobNodes written).map Prod.fst).Nodup) {pos offset : ℕ} {data : List UInt8}
    (hlength : data.length < 2 ^ 32) (h : Stored (blobNodes written) pos offset data) :
    ∃ fuel node, getBlobNode keyHdr raw written pos = some node ∧
      getTotalBlobSize node.1 offset = some data.length ∧
      loadBlob.loop (getBlobNode keyHdr raw written) fuel node offset data.length = some data := by
  induction h with
  | @whole pos offset data node hmem hdata =>
    obtain ⟨tail, htail⟩ := hdata
    have hnode := @getBlobNode_eq keyHdr raw written pos node hnodup hmem
    unfold unpackBlobNode at hnode
    rw [if_pos hcompressed] at hnode
    rw [List.append_assoc] at htail
    obtain ⟨hsize, hhere⟩ := getTotalBlobSize_eq hlength htail.symm
    rw [List.take_left] at hhere
    refine ⟨1, _, hnode, hsize, ?_⟩
    unfold loadBlob.loop
    simp only [hhere, Option.bind_eq_bind, Option.bind_some, lt_irrefl, if_false, if_true,
      Option.pure_def]
  | @cut pos offset here rest node hmem hclosed hdata hrest hsib hstored ih =>
    rw [List.length_append] at hlength
    obtain ⟨fuel, next, hnext, -, hloop⟩ := ih (by omega)
    have hnode := @getBlobNode_eq keyHdr raw written pos node hnodup hmem
    unfold unpackBlobNode at hnode
    rw [if_pos hcompressed] at hnode
    have hlength' : (here ++ rest).length < 2 ^ 32 := by
      rw [List.length_append]
      exact hlength
    obtain ⟨hsize, hhere⟩ := getTotalBlobSize_eq hlength' hdata
    have hshort : here.length < (here ++ rest).length := by
      rw [List.length_append]
      have hpos := List.length_pos_of_ne_nil hrest
      omega
    rw [List.take_of_length_le hshort.le] at hhere
    refine ⟨fuel + 1, _, hnode, hsize, ?_⟩
    unfold loadBlob.loop
    have hremaining : (here ++ rest).length - here.length = rest.length := by
      rw [List.length_append]
      omega
    simp only [hhere, Option.bind_eq_bind, Option.bind_some]
    rw [if_neg hshort.not_gt, if_neg hshort.ne', hnext, hremaining]
    simp only [Option.bind_some, hloop, Option.pure_def]

theorem makeBlobId_eq_some {pos offset id : ℕ} (h : makeBlobId pos offset = some id)
    (hlimit : offset < 2 ^ 20) : id &&& 0xffffffffffff = pos ∧
      (id &&& 0xffff000000000000) >>> 44 = offset := by
  unfold makeBlobId at h
  split at h
  · rename_i hparts
    cases h
    exact blobId_parts hparts.2.1 hlimit hparts.2.2
  · cases h

theorem loadBlob_of_storedAs (hcompressed : keyHdr.compressed = true)
    (hnodup : ((blobNodes written).map Prod.fst).Nodup) {id : ℕ} {data : List UInt8}
    (hlength : data.length < 2 ^ 32) (h : StoredAs (blobNodes written) id data) :
    ∃ fuel, loadBlob (getBlobNode keyHdr raw written) fuel id = some (data.length, data) := by
  obtain ⟨pos, offset, hid, hlimit, hstored⟩ := h
  obtain ⟨hpos, hoffset⟩ := makeBlobId_eq_some hid hlimit
  obtain ⟨fuel, node, hnode, hsize, hloop⟩ :=
    @loadBlob_loop_of_stored keyHdr raw written hcompressed hnodup pos offset data hlength hstored
  refine ⟨fuel, ?_⟩
  unfold loadBlob
  simp only [hpos, hoffset, hnode, Option.bind_eq_bind, Option.bind_some, hsize, hloop,
    Option.pure_def]

/-- Without `HTREE_COMPRESSED_KEY` a blob node has an empty buffer. -/
theorem loadBlob_of_not_compressed (hcol : keyHdr.colPrefix = true)
    (hcompressed : ¬ keyHdr.compressed = true) (fuel id : ℕ) :
    loadBlob (getBlobNode keyHdr raw written) fuel id = none := by
  unfold loadBlob
  simp only [Option.bind_eq_bind]
  cases hnode : getBlobNode keyHdr raw written (id &&& 0xffffffffffff) with
  | none => rfl
  | some node =>
    have hempty : node.1 = [] := by
      unfold getBlobNode at hnode
      obtain ⟨w, -, rfl⟩ := Option.map_eq_some_iff.mp hnode
      unfold unpackBlobNode
      rw [if_neg hcompressed, if_pos hcol]
    have hsize : getTotalBlobSize node.1 ((id &&& 0xffff000000000000) >>> 44) = none := by
      unfold getTotalBlobSize
      rw [hempty, if_neg]
      exact Nat.not_succ_le_zero _
    simp only [Option.bind_some, hsize, Option.bind_none]

/-- The blobs of a run can be read if and only if the index has `HTREE_COMPRESSED_KEY`. -/
theorem loadBlob_iff (keyHdr : KeyHdr) (hcol : keyHdr.colPrefix = true)
    (raw : BlobWriteNode → List UInt8) {startSequence : ℕ} {calls : List Call} {s s' : State}
    {ids : List (List UInt8 × ℕ)} (hrun : run keyHdr calls (init keyHdr startSequence) = some (s, ids))
    {fuel : ℕ} {metadata : Option (List UInt8)} {tables : List (List UInt8)}
    (hfinish : finish keyHdr fuel metadata tables s = some s') {data : List UInt8} {id : ℕ}
    (hblob : (data, id) ∈ ids) (hdata : data ≠ []) :
    (∃ fuel, loadBlob (getBlobNode keyHdr raw s'.written) fuel id = some (data.length, data)) ↔
      keyHdr.compressed = true := by
  obtain ⟨hstate, -, hblobs⟩ := run_stored (blobState_init startSequence) hrun
  obtain ⟨hlength, hstored⟩ := hblobs _ hblob
  constructor
  · rintro ⟨fuel, hload⟩
    by_contra hcompressed
    rw [loadBlob_of_not_compressed hcol hcompressed] at hload
    cases hload
  · intro hcompressed
    apply loadBlob_of_storedAs hcompressed
    · exact nodup_blobNodes hstate (balanced_of_run hrun) hfinish
    · exact hlength
    · exact (hstored hdata).grown (Grown.of_subset (finish_blobs hstate hfinish).1)

theorem loadBlob_twoBlobs : ∃ s ids,
    run { smallHdr with compressed := true } [smallBlob, smallRow 1, smallBlob]
        (init smallHdr 0) = some (s, ids) ∧
      ids = [([1, 2], 280), ([1, 2], 2 ^ 48 + 280)] ∧
      ∃ s', finish { smallHdr with compressed := true } 2 none [] s = some s' ∧
        ∀ blob ∈ ids, ∃ fuel,
          loadBlob (getBlobNode { smallHdr with compressed := true } (fun _ => []) s'.written) fuel
            blob.2 = some (2, [1, 2]) := by
  have hall : (run { smallHdr with compressed := true } [smallBlob, smallRow 1, smallBlob]
      (init smallHdr 0)).map (fun r => (r.2, (finish { smallHdr with compressed := true } 2 none []
        r.1).isSome)) = some ([([1, 2], 280), ([1, 2], 2 ^ 48 + 280)], true) := by decide
  obtain ⟨⟨s, ids⟩, hrun, heq⟩ := Option.map_eq_some_iff.mp hall
  simp only [Prod.mk.injEq] at heq
  obtain ⟨hids, hsome⟩ := heq
  obtain ⟨s', hfinish⟩ := Option.isSome_iff_exists.mp hsome
  refine ⟨s, ids, hrun, hids, s', hfinish, ?_⟩
  intro blob hblob
  have hdata : blob.1 = [1, 2] := by
    rw [hids] at hblob
    simp only [List.mem_cons, List.not_mem_nil, or_false] at hblob
    rcases hblob with rfl | rfl <;> rfl
  have hload := (loadBlob_iff { smallHdr with compressed := true } rfl (fun _ => []) hrun hfinish
    hblob (by rw [hdata]; decide)).mpr rfl
  rw [hdata] at hload
  exact hload

/-- An index with prefix compression only: the blob cannot be read. -/
theorem notCompressed_unread : ∃ s s' ids,
    run smallHdr [smallBlob, smallRow 1] (init smallHdr 0) = some (s, ids) ∧
      finish smallHdr 1 none [] s = some s' ∧ ids = [([1, 2], 280)] ∧
      ∀ fuel, loadBlob (getBlobNode smallHdr (fun _ => []) s'.written) fuel 280 ≠
        some (2, [1, 2]) := by
  have hall : (run smallHdr [smallBlob, smallRow 1] (init smallHdr 0)).map
      (fun r => (r.2, (finish smallHdr 1 none [] r.1).isSome)) =
      some ([([1, 2], 280)], true) := by decide
  obtain ⟨⟨s, ids⟩, hrun, heq⟩ := Option.map_eq_some_iff.mp hall
  simp only [Prod.mk.injEq] at heq
  obtain ⟨hids, hsome⟩ := heq
  obtain ⟨s', hfinish⟩ := Option.isSome_iff_exists.mp hsome
  refine ⟨s, s', ids, hrun, hfinish, hids, ?_⟩
  intro fuel hload
  rw [loadBlob_of_not_compressed rfl Bool.false_ne_true] at hload
  cases hload

end Reading

end Steps

end KeyBuilder

end HpccPlatform
