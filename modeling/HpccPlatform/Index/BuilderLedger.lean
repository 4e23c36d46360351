import HpccPlatform.Index.BuilderSteps

/-!
# The positions of the nodes of an index

Every node that the builder creates takes the next position, and is later written there.  The
ledger of a state is the collection of all positions that have been taken: those of the nodes that
are written, and of those that wait, are in progress, or are held back until their right sibling is
known.  Each operation keeps it balanced, so that in the end every position has been written once.
-/

namespace HpccPlatform

namespace KeyBuilder

/-- The first `n` positions behind the header. -/
def positions (nodeSize n : ℕ) : List ℕ := (List.range n).map fun i => (i + 1) * nodeSize

theorem positions_succ (nodeSize n : ℕ) :
    positions nodeSize (n + 1) = positions nodeSize n ++ [(n + 1) * nodeSize] := by
  unfold positions
  rw [List.range_succ, List.map_append, List.map_singleton]

theorem pairwise_positions {nodeSize : ℕ} (h : 0 < nodeSize) (n : ℕ) :
    (positions nodeSize n).Pairwise (· < ·) := by
  unfold positions
  rw [List.pairwise_map]
  apply List.pairwise_lt_range.imp
  intro a b hab
  exact Nat.mul_lt_mul_of_pos_right (by omega) h

/-- The positions of the written nodes. -/
def writtenPos (s : State) : List ℕ := s.written.map Prod.fst

/-- The positions of nodes that wait. -/
def pendingPos (s : State) : List ℕ := s.pendingNodes.map Node.getFpos

/-- The position of the leaf or branch that waits for its right sibling. -/
def prevPos (s : State) : List ℕ := s.prevLeafNode.toList.map WriteNode.fpos

/-- The position of the leaf in progress. -/
def activePos (s : State) : List ℕ := s.activeNode.toList.map WriteNode.fpos

/-- The position of the blob node in progress. -/
def blobPos (s : State) : List ℕ := s.activeBlobNode.toList.map BlobWriteNode.fpos

/-- The positions that have been taken, where `current` are those of the nodes in progress that are
not blob nodes. -/
def taken (s : State) (current : List ℕ) : Multiset ℕ :=
  (writtenPos s : Multiset ℕ) + (pendingPos s : Multiset ℕ) + (prevPos s : Multiset ℕ) +
    (current : Multiset ℕ) + (blobPos s : Multiset ℕ)

/-- The first `n` positions have been taken, each once. -/
structure Ledger (keyHdr : KeyHdr) (s : State) (current : List ℕ) (n : ℕ) : Prop where
  nextPos_eq : s.nextPos = (n + 1) * keyHdr.nodeSize
  taken_eq : taken s current = (positions keyHdr.nodeSize n : Multiset ℕ)

theorem nodeSize_pos (keyHdr : KeyHdr) : 0 < keyHdr.nodeSize :=
  lt_of_lt_of_le (by norm_num) keyHdr.nodeSize_ge

section Operations

variable (keyHdr : KeyHdr)

/-! ## Flushing a node -/

theorem writtenPos_writeNode (node : Node) (s : State) :
    writtenPos (writeNode node s) = writtenPos s ++ [node.getFpos] := by
  unfold writtenPos writeNode
  rw [List.map_append, List.map_singleton]

/-- The pending nodes that are written keep their order. -/
theorem flushPending_pos (s : State) :
    writtenPos (flushPending keyHdr s) ++ pendingPos (flushPending keyHdr s) =
      writtenPos s ++ pendingPos s := by
  unfold flushPending
  split
  · rename_i prev _ _
    unfold writtenPos pendingPos
    simp only [List.map_append, List.map_map, List.append_assoc]
    congr 1
    rw [show (Prod.fst ∘ fun node : Node => (node.getFpos, node)) = Node.getFpos from rfl,
      ← List.map_append, List.takeWhile_append_dropWhile]
  · rfl

theorem setRightSib_fpos (node : Option WriteNode) (prev : WriteNode) :
    (setRightSib node prev).fpos = prev.fpos := by
  cases node <;> rfl

/-- The node that waited for its sibling is written, or waits for a blob node. -/
theorem flushNode_taken (node : Option WriteNode) (infos : List Entry) (s : State) :
    (writtenPos (flushNode keyHdr node infos s).2 : Multiset ℕ) +
        (pendingPos (flushNode keyHdr node infos s).2 : Multiset ℕ) =
      (writtenPos s : Multiset ℕ) + (pendingPos s : Multiset ℕ) + (prevPos s : Multiset ℕ) := by
  have hpending := flushPending_pos keyHdr s
  obtain ⟨written, pending, heq⟩ := flushPending_frame keyHdr s
  have hprev : (flushPending keyHdr s).prevLeafNode = s.prevLeafNode := by rw [heq]
  unfold flushNode
  simp only [hprev]
  cases hp : s.prevLeafNode with
  | none =>
    simp only [prevPos, hp, Option.toList_none, List.map_nil, Multiset.coe_nil, add_zero,
      Multiset.coe_add]
    exact congrArg _ hpending
  | some prev =>
    simp only [prevPos, hp, Option.toList_some, List.map_singleton]
    rw [Multiset.coe_add (writtenPos s), ← hpending, ← Multiset.coe_add]
    split
    · unfold writtenPos pendingPos
      simp only [List.map_append, List.map_singleton, ← Multiset.coe_add, Node.getFpos,
        setRightSib_fpos]
      abel
    · show ((writtenPos (writeNode _ (flushPending keyHdr s)) : Multiset ℕ)) +
        (pendingPos (flushPending keyHdr s) : Multiset ℕ) = _
      rw [writtenPos_writeNode, ← Multiset.coe_add]
      simp only [Node.getFpos, setRightSib_fpos]
      abel

variable {keyHdr}

theorem Ledger.flushNode {node : Option WriteNode} {s : State} {n : ℕ}
    (h : Ledger keyHdr s (node.toList.map WriteNode.fpos) n) (infos : List Entry) :
    Ledger keyHdr (flushNode keyHdr node infos s).2 [] n := by
  have htaken := flushNode_taken keyHdr node infos s
  obtain ⟨written, pending, prev, heq, hprev⟩ := flushNode_frame keyHdr node infos s
  have hpos : prevPos (KeyBuilder.flushNode keyHdr node infos s).2 =
      node.toList.map WriteNode.fpos := by
    rw [heq]
    unfold prevPos
    simp only
    rw [← Option.toList_map, ← Option.toList_map, hprev]
  refine ⟨?_, ?_⟩
  · rw [heq]
    exact h.nextPos_eq
  · rw [← h.taken_eq]
    unfold taken
    rw [htaken, hpos]
    have hblob : blobPos (KeyBuilder.flushNode keyHdr node infos s).2 = blobPos s := by
      rw [heq]
      rfl
    rw [hblob, Multiset.coe_nil, add_zero]

theorem Ledger.allocate {s : State} {current : List ℕ} {n : ℕ} (h : Ledger keyHdr s current n) :
    Ledger keyHdr (allocate keyHdr s) (current ++ [s.nextPos]) (n + 1) := by
  refine ⟨?_, ?_⟩
  · show s.nextPos + keyHdr.nodeSize = _
    rw [h.nextPos_eq]
    ring
  · rw [positions_succ, ← Multiset.coe_add, ← h.taken_eq, ← h.nextPos_eq]
    unfold taken
    rw [← Multiset.coe_add]
    show (writtenPos s : Multiset ℕ) + (pendingPos s : Multiset ℕ) + (prevPos s : Multiset ℕ) +
      _ + (blobPos s : Multiset ℕ) = _
    abel

/-! ## Runs -/

/-- A state between calls. -/
def Balanced (keyHdr : KeyHdr) (s : State) : Prop := ∃ n, Ledger keyHdr s (activePos s) n

theorem balanced_init (startSequence : ℕ) : Balanced keyHdr (init keyHdr startSequence) := by
  refine ⟨0, ?_, rfl⟩
  show keyHdr.nodeSize = (0 + 1) * keyHdr.nodeSize
  ring

/-- A new blob node takes the next position, and the last one is written or waits. -/
theorem Ledger.newBlobNode {s : State} {current : List ℕ} {n : ℕ} (h : Ledger keyHdr s current n) :
    Ledger keyHdr (newBlobNode keyHdr s) current (n + 1) := by
  have hnew := h.allocate
  obtain ⟨blobHead, leftSib, heq⟩ := newBlobNode_eq keyHdr s
  have hclosed : blobPos (KeyBuilder.allocate keyHdr s) =
      (closedBlob s).map BlobWriteNode.fpos := by
    unfold closedBlob blobPos
    rw [List.map_map]
    rfl
  rw [heq]
  refine ⟨hnew.nextPos_eq, ?_⟩
  rw [← hnew.taken_eq]
  unfold taken
  rw [hclosed, ← Multiset.coe_add]
  cases keyHdr.trailingHeaderOnly with
  | false =>
    simp only [writtenPos, pendingPos, prevPos, blobPos, List.map_append, List.map_map,
      Option.toList_some, List.map_singleton, ← Multiset.coe_add, KeyBuilder.allocate, if_false,
      Bool.false_eq_true]
    rw [show (Prod.fst ∘ fun blob : BlobWriteNode => (blob.fpos, Node.blob blob)) =
      BlobWriteNode.fpos from rfl]
    abel
  | true =>
    simp only [writtenPos, pendingPos, prevPos, blobPos, List.map_append, List.map_map,
      Option.toList_some, List.map_singleton, ← Multiset.coe_add, KeyBuilder.allocate, if_true]
    rw [show (Node.getFpos ∘ Node.blob) = BlobWriteNode.fpos from rfl]
    abel

theorem Balanced.prim {rows : List Entry} {s s' : State} (hprim : Prim keyHdr rows s s') (h : Balanced keyHdr s) :
    Balanced keyHdr s' := by
  obtain ⟨n, h⟩ := h
  unfold activePos at h
  cases hprim with
  | first hactive hadd =>
    rw [hactive] at h
    have hnew := h.allocate
    refine ⟨n + 1, hnew.nextPos_eq, ?_⟩
    unfold activePos
    simp only [Option.toList_some, List.map_singleton]
    rw [WriteNode.add_fpos hadd]
    exact hnew.taken_eq
  | row hactive hadd =>
    rw [hactive] at h
    refine ⟨n, h.nextPos_eq, ?_⟩
    unfold activePos
    simp only [Option.toList_some, List.map_singleton]
    rw [WriteNode.add_fpos hadd]
    exact h.taken_eq
  | flush hactive hadd hadd' =>
    rw [hactive] at h
    have hflush := h.flushNode s.leafInfo
    obtain ⟨written, pending, prev, heq, -⟩ := flushNode_frame keyHdr s.activeNode s.leafInfo s
    rw [hactive] at heq
    have hnew := hflush.allocate
    refine ⟨n + 1, hnew.nextPos_eq, ?_⟩
    unfold activePos
    simp only [Option.toList_some, List.map_singleton]
    rw [WriteNode.add_fpos hadd', show (newNode true s).fpos =
      (flushNode keyHdr (some _) s.leafInfo s).2.nextPos by rw [heq]; rfl]
    exact hnew.taken_eq
  | newBlob =>
    refine ⟨n + 1, ?_⟩
    obtain ⟨blobHead, leftSib, heq⟩ := newBlobNode_eq keyHdr s
    have hnew := h.newBlobNode
    unfold activePos
    rw [heq] at hnew ⊢
    exact hnew
  | addBlob hnode hadd =>
    refine ⟨n, h.nextPos_eq, ?_⟩
    rw [← h.taken_eq]
    unfold taken blobPos
    simp only [Option.toList_some, List.map_singleton]
    rw [(BlobWriteNode.add_fpos hadd).1, hnode]
    rfl

/-- The ledger of a run. -/
theorem balanced_of_run {startSequence : ℕ} {calls : List Call} {s : State}
    {ids : List (List UInt8 × ℕ)} (h : run keyHdr calls (init keyHdr startSequence) = some (s, ids)) :
    Balanced keyHdr s :=
  @run_induction keyHdr (fun _ s => Balanced keyHdr s) (fun _ _ _ _ hprim hs => hs.prim hprim)
    calls _ s ids [] (balanced_init startSequence) h

/-! ## The end of the leaves -/

theorem Ledger.appendBlobNode {s : State} {current : List ℕ} {n : ℕ}
    (h : Ledger keyHdr s current n) : Ledger keyHdr (appendBlobNode keyHdr s) current n := by
  unfold KeyBuilder.appendBlobNode
  split
  · rename_i blob _ hblob
    refine ⟨h.nextPos_eq, ?_⟩
    rw [← h.taken_eq]
    unfold taken
    simp only [writtenPos, pendingPos, prevPos, blobPos, hblob, Option.toList_some,
      Option.toList_none, List.map_append, List.map_nil, List.map_singleton, ← Multiset.coe_add,
      Node.getFpos, Multiset.coe_nil]
    abel
  · exact h

theorem Ledger.flushActiveNode {s : State} {n : ℕ} (h : Ledger keyHdr s (activePos s) n) :
    Ledger keyHdr (flushActiveNode keyHdr s) [] n := by
  unfold KeyBuilder.flushActiveNode
  unfold activePos at h
  cases hactive : s.activeNode with
  | none =>
    rw [hactive] at h
    exact h
  | some node =>
    rw [hactive] at h
    have hflush := h.flushNode s.leafInfo
    exact ⟨hflush.nextPos_eq, hflush.taken_eq⟩

theorem Ledger.writeBlobNode {s : State} {current : List ℕ} {n : ℕ}
    (h : Ledger keyHdr s current n) : Ledger keyHdr (writeBlobNode s) current n := by
  unfold KeyBuilder.writeBlobNode
  split
  · rename_i blob hblob
    refine ⟨h.nextPos_eq, ?_⟩
    rw [← h.taken_eq]
    unfold taken
    simp only [writeNode, writtenPos, pendingPos, prevPos, blobPos, hblob, Option.toList_some,
      Option.toList_none, List.map_append, List.map_nil, List.map_singleton, ← Multiset.coe_add,
      Node.getFpos, Multiset.coe_nil]
    abel
  · exact h

theorem Ledger.flushLastNode {s : State} {n : ℕ} (h : Ledger keyHdr s [] n) :
    Ledger keyHdr (flushLastNode keyHdr s) [] n := by
  have hflush := @Ledger.flushNode keyHdr none s n h s.leafInfo
  exact ⟨hflush.nextPos_eq, hflush.taken_eq⟩

theorem Ledger.writePendingNodes {s : State} {current : List ℕ} {n : ℕ}
    (h : Ledger keyHdr s current n) : Ledger keyHdr (writePendingNodes keyHdr s) current n := by
  unfold KeyBuilder.writePendingNodes
  split
  · refine ⟨h.nextPos_eq, ?_⟩
    rw [← h.taken_eq]
    unfold taken
    simp only [writtenPos, pendingPos, prevPos, blobPos, List.map_append, List.map_map,
      List.map_nil, ← Multiset.coe_add, Multiset.coe_nil, add_zero]
    rfl
  · exact h

theorem Balanced.finishLeaves {s : State} (h : Balanced keyHdr s) :
    ∃ n, Ledger keyHdr (finishLeaves keyHdr s) [] n := by
  obtain ⟨n, h⟩ := h
  have hactive : activePos (KeyBuilder.appendBlobNode keyHdr s) = activePos s := by
    unfold KeyBuilder.appendBlobNode
    split <;> rfl
  have happend := h.appendBlobNode
  rw [← hactive] at happend
  exact ⟨n, happend.flushActiveNode.writeBlobNode.flushLastNode.writePendingNodes⟩

end Operations

end KeyBuilder

end HpccPlatform
