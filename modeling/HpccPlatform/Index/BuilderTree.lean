import HpccPlatform.Index.BuilderLevels

/-!
# The index that is built

For an output that can seek, the file that the builder writes is a well formed index: each position
is written once, the leaves hold the rows in order and are linked, and the branches are a tree above
them with the root in the header.  There is one exception.  The root is taken to be the last node
that was created, which is not so if all rows are in one leaf and a blob node was created after it.
-/

namespace HpccPlatform

namespace KeyBuilder

/-- The leaves and branches among the nodes, in the order in which they are written. -/
def keyNodes (written : List (ℕ × Node)) : List WriteNode :=
  written.filterMap fun w => match w.2 with
    | .key node => some node
    | _ => none

/-- The index in a file is well formed, and has the given rows. -/
structure WellFormed (keyHdr : KeyHdr) (rows : List Entry) (leaves : List WriteNode)
    (levels : List (List WriteNode)) (root : WriteNode) (s : State) : Prop where
  /-- every position is written once -/
  once : ∃ n, (writtenPos s).Perm (positions keyHdr.nodeSize n)
  /-- a leaf or branch is at its position -/
  placed : ∀ pos node, (pos, Node.key node) ∈ s.written → pos = node.fpos
  nodes : keyNodes s.written = leaves ++ levels.flatten
  leaf : ∀ node ∈ leaves, node.isLeaf = true
  branch : ∀ node ∈ levels.flatten, node.isLeaf = false
  rows_eq : leaves.flatMap WriteNode.entries = rows
  firstLeaf_eq : s.firstLeaf = (leaves.head?.map WriteNode.fpos).getD 0
  linked : Linked 0 leaves
  above : Above keyHdr leaves levels root
  hdrseq_eq : s.hdrseq = levels.length
  root_eq : s.root = root.fpos
  root_leaf : root.isLeaf = true ↔ leaves.length = 1

/-! ## Leaves -/

/-- The leaves of a state between calls. -/
def leavesOf (s : State) : List WriteNode :=
  keyNodes s.written ++ s.prevLeafNode.toList ++ s.activeNode.toList

/-- Leaves with the given rows, of which the first is at the given position. -/
structure LeafNodes (rows : List Entry) (firstLeaf : ℕ) (nodes : List WriteNode) : Prop where
  leaf : ∀ node ∈ nodes, node.isLeaf = true
  rows_eq : nodes.flatMap WriteNode.entries = rows
  firstLeaf_eq : firstLeaf = (nodes.head?.map WriteNode.fpos).getD 0

theorem LeafNodes.congr {rows : List Entry} {firstLeaf : ℕ} {nodes nodes' : List WriteNode}
    (h : LeafNodes rows firstLeaf nodes) (heq : nodes'.map strip = nodes.map strip) :
    LeafNodes rows firstLeaf nodes' := by
  refine ⟨?_, ?_, ?_⟩
  · intro node hnode
    have hmem : strip node ∈ nodes.map strip := by
      rw [← heq]
      exact List.mem_map_of_mem hnode
    obtain ⟨node', hnode', hstrip⟩ := List.mem_map.mp hmem
    have hleaf : (strip node').isLeaf = (strip node).isLeaf := by rw [hstrip]
    show (strip node).isLeaf = true
    rw [← hleaf]
    exact h.leaf node' hnode'
  · rw [← h.rows_eq]
    have hmap := congrArg (List.flatMap WriteNode.entries) heq
    rw [List.flatMap_map, List.flatMap_map] at hmap
    exact hmap
  · rw [h.firstLeaf_eq]
    have hmap := congrArg (fun l => (l.head?.map WriteNode.fpos).getD 0) heq
    simp only [List.head?_map, Option.map_map] at hmap
    exact hmap.symm

/-- A new leaf, on the right of others. -/
theorem LeafNodes.snoc {rows : List Entry} {firstLeaf : ℕ} {nodes : List WriteNode}
    (h : LeafNodes rows firstLeaf nodes) (hne : nodes ≠ []) {node : WriteNode} {e : Entry}
    (hleaf : node.isLeaf = true) (hentries : node.entries = [e]) :
    LeafNodes (rows ++ [e]) firstLeaf (nodes ++ [node]) := by
  refine ⟨?_, ?_, ?_⟩
  · intro n hn
    rcases List.mem_append.mp hn with hn | hn
    · exact h.leaf n hn
    · rw [List.mem_singleton.mp hn]
      exact hleaf
  · rw [List.flatMap_append, h.rows_eq, List.flatMap_singleton, hentries]
  · rw [h.firstLeaf_eq, List.head?_append_of_ne_nil _ hne]

/-- One more row for the last leaf. -/
theorem LeafNodes.addRow {rows : List Entry} {firstLeaf : ℕ} {nodes : List WriteNode}
    {node : WriteNode} (h : LeafNodes rows firstLeaf (nodes ++ [node])) (e : Entry) :
    LeafNodes (rows ++ [e]) firstLeaf (nodes ++ [{ node with entries := node.entries ++ [e] }]) := by
  refine ⟨?_, ?_, ?_⟩
  · intro n hn
    rcases List.mem_append.mp hn with hn | hn
    · exact h.leaf n (List.mem_append_left _ hn)
    · rw [List.mem_singleton.mp hn]
      exact h.leaf node (List.mem_append_right _ (List.mem_singleton_self node))
  · rw [← h.rows_eq, List.flatMap_append, List.flatMap_append, List.flatMap_singleton,
      List.flatMap_singleton, List.append_assoc]
  · rw [h.firstLeaf_eq]
    cases nodes <;> rfl

/-- The invariant of a run for an output that can seek. -/
structure LeafRun (keyHdr : KeyHdr) (rows : List Entry) (s : State) : Prop where
  level : Level keyHdr (keyNodes s.written) s.leafInfo s.prevLeafNode
  leaves : LeafNodes rows s.firstLeaf (leavesOf s)
  placed : ∀ pos node, (pos, Node.key node) ∈ s.written → pos = node.fpos
  fresh : ∀ node, s.activeNode = some node → node.leftSib = 0 ∧ node.rightSib = 0
  start : s.activeNode = none → s.prevLeafNode = none
  header : s.metadataHead = 0 ∧ s.levels = 0
  pending : s.pendingNodes = []

theorem keyNodes_append (a b : List (ℕ × Node)) : keyNodes (a ++ b) = keyNodes a ++ keyNodes b :=
  List.filterMap_append

theorem keyNodes_map_key (nodes : List WriteNode) :
    keyNodes (nodes.map fun n => (n.fpos, Node.key n)) = nodes := by
  unfold keyNodes
  rw [List.filterMap_map]
  exact List.filterMap_some

theorem keyNodes_map_blob (nodes : List BlobWriteNode) :
    keyNodes (nodes.map fun n => (n.fpos, Node.blob n)) = [] := by
  unfold keyNodes
  rw [List.filterMap_map]
  exact List.filterMap_eq_nil_iff.mpr fun _ _ => rfl

section Runs

variable {keyHdr : KeyHdr}

theorem leafRun_init (keyHdr : KeyHdr) (startSequence : ℕ) :
    LeafRun keyHdr [] (init keyHdr startSequence) := by
  refine ⟨⟨trivial, rfl, fun _ => rfl⟩, ⟨?_, rfl, rfl⟩, ?_, ?_, fun _ => rfl, ⟨rfl, rfl⟩, rfl⟩
  · intro node hnode
    cases hnode
  · intro pos node hnode
    cases hnode
  · intro node hnode
    cases hnode

/-- A row that starts a new leaf. -/
theorem LeafRun.flush {rows : List Entry} {s : State} (h : LeafRun keyHdr rows s)
    (hseek : keyHdr.trailingHeaderOnly = false) {node node' : WriteNode} {e : Entry}
    (hactive : s.activeNode = some node) (hadd : (newNode true s).add keyHdr e = some node') :
    LeafRun keyHdr (rows ++ [e])
      { allocate keyHdr (flushNode keyHdr (some node) s.leafInfo s).2 with
        activeNode := some node'
        leafInfo := (flushNode keyHdr (some node) s.leafInfo s).1
        sequence := s.sequence + 1 } := by
  have hfresh := h.fresh node hactive
  obtain ⟨-, hnode'⟩ := WriteNode.add_eq_some hadd
  have hstrip := map_strip_flushed (keyNodes s.written) s.prevLeafNode (some node)
  have hleaves := h.leaves
  unfold leavesOf at hleaves
  rw [hactive] at hleaves
  have hkeys : keyNodes (s.written ++ (s.prevLeafNode.toList.map (setRightSib (some node))).map
      fun n => (n.fpos, Node.key n)) = flushed (keyNodes s.written) s.prevLeafNode (some node) := by
    rw [keyNodes_append, keyNodes_map_key]
    rfl
  rw [h.level.flushNode (Or.inl hseek) (some node)]
  refine ⟨?_, ?_, ?_, ?_, ?_, h.header, h.pending⟩
  · simp only [allocate]
    rw [hkeys]
    exact h.level.next hfresh.1 hfresh.2
  · unfold leavesOf
    simp only [allocate]
    rw [hkeys]
    refine (hleaves.congr hstrip).snoc ?_ ?_ ?_
    · intro hnil
      rw [hnil] at hstrip
      simp at hstrip
    · rw [hnode']
      rfl
    · rw [hnode']
      rfl
  · intro pos n hn
    simp only [allocate] at hn
    rcases List.mem_append.mp hn with hn | hn
    · exact h.placed pos n hn
    · obtain ⟨n', -, heq⟩ := List.mem_map.mp hn
      simp only [Prod.mk.injEq, Node.key.injEq] at heq
      rw [← heq.1, heq.2]
  · intro n hn
    simp only [Option.some.injEq] at hn
    rw [← hn, hnode']
    exact ⟨rfl, rfl⟩
  · intro hnone
    cases hnone

theorem LeafRun.prim (hseek : keyHdr.trailingHeaderOnly = false) {rows new : List Entry}
    {s s' : State} (hprim : Prim keyHdr new s s') (h : LeafRun keyHdr rows s) :
    LeafRun keyHdr (rows ++ new) s' := by
  cases hprim with
  | first hactive hadd =>
    rename_i node keyData pos
    obtain ⟨-, hnode⟩ := WriteNode.add_eq_some hadd
    have hprev := h.start hactive
    have hnil : keyNodes s.written = [] := h.level.start hprev
    have hrows : rows = [] := by
      rw [← h.leaves.rows_eq]
      unfold leavesOf
      rw [hnil, hprev, hactive]
      rfl
    refine ⟨h.level, ?_, h.placed, ?_, ?_, h.header, h.pending⟩
    · unfold leavesOf
      simp only [allocate]
      rw [hnil, hprev, hnode, hrows]
      refine ⟨?_, rfl, rfl⟩
      intro n hn
      simp only [Option.toList_none, Option.toList_some, List.append_nil, List.nil_append,
        List.mem_singleton] at hn
      rw [hn]
      rfl
    · intro n hn
      simp only [Option.some.injEq] at hn
      rw [← hn, hnode]
      exact ⟨rfl, rfl⟩
    · intro hnone
      cases hnone
  | row hactive hadd =>
    obtain ⟨-, hnode⟩ := WriteNode.add_eq_some hadd
    have hfresh := h.fresh _ hactive
    have hleaves := h.leaves
    unfold leavesOf at hleaves
    rw [hactive] at hleaves
    refine ⟨h.level, ?_, h.placed, ?_, ?_, h.header, h.pending⟩
    · unfold leavesOf
      simp only
      rw [hnode]
      exact hleaves.addRow _
    · intro n hn
      simp only [Option.some.injEq] at hn
      rw [← hn, hnode]
      exact hfresh
    · intro hnone
      cases hnone
  | flush hactive hfull hadd => exact h.flush hseek hactive hadd
  | newBlob =>
    obtain ⟨blobHead, leftSib, heq⟩ := newBlobNode_eq keyHdr s
    rw [heq, hseek, List.append_nil]
    simp only [Bool.false_eq_true, if_false]
    have hkeys : keyNodes (s.written ++ (closedBlob s).map fun blob => (blob.fpos, Node.blob blob)) =
        keyNodes s.written := by
      rw [keyNodes_append, keyNodes_map_blob, List.append_nil]
    refine ⟨?_, ?_, ?_, h.fresh, h.start, h.header, h.pending⟩
    · simp only
      rw [hkeys]
      exact h.level
    · unfold leavesOf
      simp only
      rw [hkeys]
      exact h.leaves
    · intro pos n hn
      rcases List.mem_append.mp hn with hn | hn
      · exact h.placed pos n hn
      · obtain ⟨b, -, hb⟩ := List.mem_map.mp hn
        simp at hb
  | addBlob hnode hadd =>
    rw [List.append_nil]
    exact ⟨h.level, h.leaves, h.placed, h.fresh, h.start, h.header, h.pending⟩

/-- The leaves of a run. -/
theorem leafRun_of_run (hseek : keyHdr.trailingHeaderOnly = false) {startSequence : ℕ}
    {calls : List Call} {s : State} {ids : List (List UInt8 × ℕ)}
    (h : run keyHdr calls (init keyHdr startSequence) = some (s, ids)) :
    LeafRun keyHdr (rowsOf startSequence calls) s :=
  run_induction (fun _ _ _ _ hprim hs => hs.prim hseek hprim) (leafRun_init keyHdr startSequence) h

/-! ## The end of the leaves -/

/-- The state when all leaves and blob nodes are written. -/
structure LeavesDone (keyHdr : KeyHdr) (rows : List Entry) (leaves : List WriteNode) (s : State) :
    Prop where
  nodes : keyNodes s.written = leaves
  leafNodes : LeafNodes rows s.firstLeaf leaves
  linked : Linked 0 leaves
  infos : s.leafInfo = leaves.map (nodeInfo keyHdr)
  placed : ∀ pos node, (pos, Node.key node) ∈ s.written → pos = node.fpos
  prev : s.prevLeafNode = none
  blob : s.activeBlobNode = none
  pending : s.pendingNodes = []
  header : s.metadataHead = 0 ∧ s.levels = 0
  /-- the last leaf is written last -/
  last : ∀ node, leaves.getLast? = some node → (writtenPos s).getLast? = some node.fpos

/-- The active blob node does not matter for the leaves. -/
theorem writeBlobNode_eq (s : State) : writeBlobNode s =
    { s with
      written := s.written ++ s.activeBlobNode.toList.map fun blob => (blob.fpos, .blob blob)
      activeBlobNode := none } := by
  unfold writeBlobNode
  cases hblob : s.activeBlobNode with
  | none =>
    simp only [Option.toList_none, List.map_nil, List.append_nil]
    cases s
    simp only at hblob
    rw [hblob]
  | some blob => rfl

theorem LeafRun.finishLeaves (hseek : keyHdr.trailingHeaderOnly = false) {rows : List Entry}
    {s : State} (h : LeafRun keyHdr rows s) :
    ∃ leaves, LeavesDone keyHdr rows leaves (finishLeaves keyHdr s) ∧
      leaves.map strip = (leavesOf s).map strip ∧ (finishLeaves keyHdr s).nextPos = s.nextPos := by
  have happend : appendBlobNode keyHdr s = s := by
    unfold appendBlobNode
    rw [hseek]
  have hpending : ∀ s, writePendingNodes keyHdr s = s := by
    intro s
    unfold writePendingNodes
    rw [hseek]
    rfl
  unfold KeyBuilder.finishLeaves
  rw [happend, hpending]
  have hblobs : ∀ l : List (ℕ × Node), keyNodes (l ++ s.activeBlobNode.toList.map
      fun blob => (blob.fpos, Node.blob blob)) = keyNodes l := by
    intro l
    rw [keyNodes_append, keyNodes_map_blob, List.append_nil]
  have hnotBlob : ∀ pos node, (pos, Node.key node) ∉ s.activeBlobNode.toList.map
      fun blob => (blob.fpos, Node.blob blob) := by
    intro pos node hmem
    obtain ⟨b, -, hb⟩ := List.mem_map.mp hmem
    simp at hb
  cases hactive : s.activeNode with
  | none =>
    -- there are no rows
    have hprev := h.start hactive
    have hnil : keyNodes s.written = [] := h.level.start hprev
    have hflush : flushActiveNode keyHdr s = s := by
      unfold flushActiveNode
      rw [hactive]
    rw [hflush, writeBlobNode_eq, flushLastNode_first (Or.inl hseek)]
    swap
    · exact hprev
    have hleaves := h.leaves
    unfold leavesOf at hleaves
    rw [hnil, hprev, hactive] at hleaves
    refine ⟨[], ⟨?_, ?_, trivial, ?_, ?_, rfl, rfl, h.pending, h.header, ?_⟩, ?_, rfl⟩
    · simp only
      rw [hblobs, hnil]
    · exact hleaves
    · simp only
      rw [h.level.infos_eq, hnil]
    · intro pos node hmem
      rcases List.mem_append.mp hmem with hmem | hmem
      · exact h.placed pos node hmem
      · exact absurd hmem (hnotBlob pos node)
    · intro node hnode
      cases hnode
    · unfold leavesOf
      rw [hnil, hprev, hactive]
      rfl
  | some node =>
    have hfresh := h.fresh node hactive
    have hflush : flushActiveNode keyHdr s =
        { (flushNode keyHdr (some node) s.leafInfo s).2 with
          activeNode := none
          leafInfo := (flushNode keyHdr (some node) s.leafInfo s).1 } := by
      unfold flushActiveNode
      rw [hactive]
    rw [hflush, h.level.flushNode (Or.inl hseek) (some node), writeBlobNode_eq]
    have hlevel := h.level.next hfresh.1 hfresh.2
    have hstrip := map_strip_flushed (keyNodes s.written) s.prevLeafNode (some node)
    have hkeys : keyNodes (s.written ++ (s.prevLeafNode.toList.map (setRightSib (some node))).map
        fun n => (n.fpos, Node.key n)) = flushed (keyNodes s.written) s.prevLeafNode (some node) := by
      rw [keyNodes_append, keyNodes_map_key]
      rfl
    obtain ⟨p, hp⟩ : ∃ p, waiting s.prevLeafNode (some node) = some p := by
      unfold waiting
      cases s.prevLeafNode <;> exact ⟨_, rfl⟩
    rw [hp] at hstrip hlevel ⊢
    rw [@flushLastNode_next keyHdr _ (Or.inl hseek) p rfl]
    refine ⟨flushed (keyNodes s.written) s.prevLeafNode (some node) ++ [p],
      ⟨?_, ?_, hlevel.linked, ?_, ?_, rfl, rfl, h.pending, h.header, ?_⟩, ?_, rfl⟩
    · simp only
      rw [keyNodes_append, hblobs, hkeys]
      rfl
    · have hleaves := h.leaves
      unfold leavesOf at hleaves
      rw [hactive] at hleaves
      exact hleaves.congr hstrip
    · simp only
      rw [List.map_append, List.map_singleton]
    · intro pos n hmem
      simp only [List.mem_append, List.mem_singleton, Prod.mk.injEq, Node.key.injEq] at hmem
      rcases hmem with ((hmem | hmem) | hmem) | ⟨rfl, rfl⟩
      · exact h.placed pos n hmem
      · obtain ⟨n', -, heq⟩ := List.mem_map.mp hmem
        simp only [Prod.mk.injEq, Node.key.injEq] at heq
        rw [← heq.1, heq.2]
      · exact absurd hmem (hnotBlob pos n)
      · rfl
    · intro n hn
      rw [List.getLast?_concat, Option.some.injEq] at hn
      unfold writtenPos
      simp only
      rw [List.map_append, List.map_singleton, List.getLast?_concat, hn]
    · unfold leavesOf
      rw [hactive]
      exact hstrip

/-! ## The file -/

theorem positions_add (nodeSize m n : ℕ) :
    positions nodeSize (m + n) = positions nodeSize m ++ places nodeSize ((m + 1) * nodeSize) n := by
  unfold positions places
  rw [List.range_add, List.map_append, List.map_map]
  congr 1
  apply List.map_congr_left
  intro i _
  simp only [Function.comp_apply]
  ring

/-- The leaves and branches of a file that has been finished, and the positions in it. -/
structure FileSpec (keyHdr : KeyHdr) (leaves : List WriteNode) (levels : List (List WriteNode))
    (s₀ s₂ : State) (k : ℕ) : Prop where
  nodes : keyNodes s₂.written = keyNodes s₀.written ++ levels.flatten
  pos : writtenPos s₂ = writtenPos s₀ ++ places keyHdr.nodeSize s₀.nextPos k
  next : s₂.nextPos = s₀.nextPos + k * keyHdr.nodeSize
  branch : levels ≠ [] → 0 < k
  firstLeaf : s₂.firstLeaf = s₀.firstLeaf
  hdrseq : s₂.hdrseq = s₀.levels + levels.length
  pending : s₂.pendingNodes = s₀.pendingNodes
  placed : (∀ pos node, (pos, Node.key node) ∈ s₀.written → pos = node.fpos) →
    ∀ pos node, (pos, Node.key node) ∈ s₂.written → pos = node.fpos

theorem fileSpec_of_tree {leaves : List WriteNode} {levels : List (List WriteNode)}
    {root : WriteNode} {s₀ s₁ s₂ : State} (htree : BuiltTree keyHdr leaves s₀ s₁ levels root)
    (hextends : Extends keyHdr s₁ s₂) :
    ∃ k, FileSpec keyHdr leaves levels s₀ s₂ k ∧ s₂.root = s₁.nextPos - keyHdr.nodeSize ∧
      s₁.nextPos = s₀.nextPos + levels.flatten.length * keyHdr.nodeSize := by
  obtain ⟨others, mh, bh, hplaced, hdata, rfl⟩ := hextends
  have hnext₁ : s₁.nextPos = s₀.nextPos + levels.flatten.length * keyHdr.nodeSize := by
    rw [htree.state_eq]
    rfl
  have hwritten₁ : s₁.written = s₀.written ++ levels.flatten.map fun n => (n.fpos, Node.key n) := by
    rw [htree.state_eq]
    rfl
  have hothers : keyNodes others = [] := by
    unfold keyNodes
    refine List.filterMap_eq_nil_iff.mpr ?_
    intro w hw
    have hw := hdata w hw
    cases h : w.2 with
    | key node =>
      rw [h] at hw
      exact absurd hw (by simp [Node.IsData])
    | _ => rfl
  refine ⟨levels.flatten.length + others.length, ⟨?_, ?_, ?_, ?_, ?_, ?_, ?_, ?_⟩, ?_, hnext₁⟩
  · simp only
    rw [hwritten₁, keyNodes_append, keyNodes_append, keyNodes_map_key, hothers, List.append_nil]
  · unfold writtenPos
    simp only
    rw [hwritten₁, List.map_append, List.map_append, List.map_map, hplaced, places_add, hnext₁,
      ← htree.placed, List.append_assoc]
    rfl
  · simp only
    rw [hnext₁]
    ring
  · intro hne
    have := List.length_pos_of_mem (htree.root_mem hne)
    omega
  · show s₁.firstLeaf = _
    rw [htree.state_eq]
    rfl
  · show s₁.hdrseq = _
    rw [htree.state_eq]
  · show s₁.pendingNodes = _
    rw [htree.state_eq]
    rfl
  · intro hbefore pos node hmem
    simp only [hwritten₁, List.mem_append] at hmem
    rcases hmem with (hmem | hmem) | hmem
    · exact hbefore pos node hmem
    · obtain ⟨n, -, heq⟩ := List.mem_map.mp hmem
      simp only [Prod.mk.injEq, Node.key.injEq] at heq
      rw [← heq.1, heq.2]
    · exact absurd (hdata _ hmem) (by simp [Node.IsData])
  · exact congrArg State.root htree.state_eq

theorem tell_writtenPos (s : State) : tell keyHdr s =
    ((writtenPos s).getLast?.map (· + keyHdr.nodeSize)).getD keyHdr.nodeSize := by
  unfold tell writtenPos
  rw [List.getLast?_map, Option.map_map]
  rfl

/-- The header follows the last node, if that is the last one in the file. -/
theorem tell_eq {leaves : List WriteNode} {levels : List (List WriteNode)} {s₀ s₂ : State} {k : ℕ}
    (h : FileSpec keyHdr leaves levels s₀ s₂ k) (hlast : k = 0 → tell keyHdr s₀ = s₀.nextPos) :
    tell keyHdr s₂ = s₂.nextPos := by
  rw [tell_writtenPos] at hlast ⊢
  rw [h.pos, h.next]
  cases k with
  | zero =>
    rw [show places keyHdr.nodeSize s₀.nextPos 0 = [] from rfl, List.append_nil, hlast rfl]
    ring
  | succ k =>
    rw [places_add, show places keyHdr.nodeSize (s₀.nextPos + k * keyHdr.nodeSize) 1 =
      [s₀.nextPos + k * keyHdr.nodeSize] by simp [places], ← List.append_assoc,
      List.getLast?_concat]
    simp only [Option.map_some, Option.getD_some]
    ring

theorem writeFileHeader_once {s₀ s₂ : State} {n k : ℕ} (hledger : Ledger keyHdr s₀ [] n)
    (hpending : s₀.pendingNodes = []) (hprev : s₀.prevLeafNode = none)
    (hblob : s₀.activeBlobNode = none)
    (hpos : writtenPos s₂ = writtenPos s₀ ++ places keyHdr.nodeSize s₀.nextPos k)
    (hnext : s₂.nextPos = s₀.nextPos + k * keyHdr.nodeSize) (htell : tell keyHdr s₂ = s₂.nextPos) :
    ∃ m, (writtenPos (writeFileHeader keyHdr s₂)).Perm (positions keyHdr.nodeSize m) := by
  have htaken := hledger.taken_eq
  unfold taken pendingPos prevPos blobPos at htaken
  rw [hpending, hprev, hblob] at htaken
  simp only [List.map_nil, Option.toList_none, Multiset.coe_nil, add_zero] at htaken
  have hperm : (writtenPos s₀).Perm (positions keyHdr.nodeSize n) := Multiset.coe_eq_coe.mp htaken
  have hperm₂ : (writtenPos s₂).Perm (positions keyHdr.nodeSize (n + k)) := by
    rw [hpos, positions_add, ← hledger.nextPos_eq]
    exact hperm.append_right _
  unfold writeFileHeader
  split
  · refine ⟨n + k + 1, ?_⟩
    unfold writtenPos at hperm₂ ⊢
    simp only [List.map_append, List.map_singleton]
    rw [positions_succ, htell, hnext, hledger.nextPos_eq]
    rw [show (n + 1) * keyHdr.nodeSize + k * keyHdr.nodeSize = (n + k + 1) * keyHdr.nodeSize by ring]
    exact hperm₂.append_right _
  · exact ⟨n + k, hperm₂⟩

theorem Above.root_mem {nodes : List WriteNode} {levels : List (List WriteNode)} {root : WriteNode}
    (h : Above keyHdr nodes levels root) : root ∈ nodes ++ levels.flatten := by
  induction h with
  | top root => exact List.mem_append_left _ (List.mem_singleton_self root)
  | level _ _ _ _ ih =>
    rw [List.flatten_cons]
    exact List.mem_append_right _ ih

/-- There is one leaf. -/
theorem length_leavesOf {rows : List Entry} {s : State} (h : LeafRun keyHdr rows s) :
    (leavesOf s).length = 1 ↔ ∃ node, s.activeNode = some node ∧ s.prevLeafNode = none := by
  unfold leavesOf
  rw [List.length_append, List.length_append]
  cases hactive : s.activeNode with
  | none =>
    have hprev := h.start hactive
    rw [h.level.start hprev, hprev]
    simp
  | some node =>
    cases hprev : s.prevLeafNode with
    | none =>
      rw [h.level.start hprev]
      simp
    | some prev =>
      simp

/-- If all rows are in one leaf, that leaf is the last node that was created. -/
def LeafIsLast (keyHdr : KeyHdr) (s : State) : Prop :=
  ∀ node, s.activeNode = some node → s.prevLeafNode = none →
    node.fpos + keyHdr.nodeSize = s.nextPos

/-- The only leaf, in the state in which all leaves are written. -/
theorem fpos_of_single {leaves : List WriteNode} {s : State} {leaf node : WriteNode}
    {rows : List Entry} (h : LeafRun keyHdr rows s) (hleaves : leaves = [leaf])
    (hstrip : leaves.map strip = (leavesOf s).map strip) (hactive : s.activeNode = some node)
    (hprev : s.prevLeafNode = none) : leaf.fpos = node.fpos := by
  unfold leavesOf at hstrip
  rw [hleaves, hactive, hprev, h.level.start hprev] at hstrip
  simp only [List.map_singleton, Option.toList_none, Option.toList_some, List.append_nil,
    List.nil_append, List.cons.injEq, and_true] at hstrip
  have hfpos : (strip leaf).fpos = (strip node).fpos := by rw [hstrip]
  exact hfpos

theorem wellFormed_of_leafIsLast (hseek : keyHdr.trailingHeaderOnly = false) {rows : List Entry}
    {s s' : State} (hbalanced : Balanced keyHdr s) (h : LeafRun keyHdr rows s)
    (hlast : LeafIsLast keyHdr s) {fuel : ℕ} {metadata : Option (List UInt8)}
    {tables : List (List UInt8)} (heq : finish keyHdr fuel metadata tables s = some s') :
    ∃ leaves levels root, WellFormed keyHdr rows leaves levels root s' := by
  obtain ⟨leaves, hdone, hstrip, hnext⟩ := h.finishLeaves hseek
  obtain ⟨n, hledger⟩ := hbalanced.finishLeaves
  obtain ⟨s₁, s₂, levels, root, htree, hextends, rfl⟩ :=
    finish_spec (Or.inl hseek) hdone.prev hdone.infos heq
  obtain ⟨k, hfile, hroot, hnext₁⟩ := fileSpec_of_tree htree hextends
  have hlength : leaves.length = (leavesOf s).length := by
    rw [← List.length_map strip, hstrip, List.length_map]
  -- a single leaf is the last node of the file
  have hsingle : leaves.length = 1 → ∃ leaf, leaves = [leaf] ∧
      leaf.fpos + keyHdr.nodeSize = (finishLeaves keyHdr s).nextPos := by
    intro hone
    obtain ⟨leaf, hleaf⟩ := List.length_eq_one_iff.mp hone
    rw [hlength] at hone
    obtain ⟨node, hactive, hprev⟩ := (length_leavesOf h).mp hone
    refine ⟨leaf, hleaf, ?_⟩
    rw [fpos_of_single h hleaf hstrip hactive hprev, hnext]
    exact hlast node hactive hprev
  have htell : tell keyHdr s₂ = s₂.nextPos := by
    apply tell_eq hfile
    intro hk
    have hlevels : levels = [] := by
      by_contra hne
      have := hfile.branch hne
      omega
    obtain ⟨leaf, hleaf, hfpos⟩ := hsingle (htree.single.mp hlevels)
    have hwritten : (writtenPos (finishLeaves keyHdr s)).getLast? = some leaf.fpos := by
      apply hdone.last
      rw [hleaf]
      rfl
    rw [tell_writtenPos, hwritten]
    exact hfpos
  have hheader : keyNodes (writeFileHeader keyHdr s₂).written = keyNodes s₂.written := by
    unfold writeFileHeader
    split
    · rw [keyNodes_append]
      exact List.append_nil _
    · rfl
  refine ⟨leaves, levels, root, ?_, ?_, ?_, hdone.leafNodes.leaf, htree.branch,
    hdone.leafNodes.rows_eq, ?_, hdone.linked, htree.above, ?_, ?_, ?_⟩
  · exact writeFileHeader_once hledger hdone.pending hdone.prev hdone.blob hfile.pos hfile.next htell
  · intro pos node hmem
    apply hfile.placed hdone.placed
    unfold writeFileHeader at hmem
    split at hmem
    · simpa using hmem
    · exact hmem
  · rw [hheader, hfile.nodes, hdone.nodes]
  · rw [show (writeFileHeader keyHdr s₂).firstLeaf = s₂.firstLeaf by
      unfold writeFileHeader; split <;> rfl, hfile.firstLeaf]
    exact hdone.leafNodes.firstLeaf_eq
  · rw [show (writeFileHeader keyHdr s₂).hdrseq = s₂.hdrseq by
      unfold writeFileHeader; split <;> rfl, hfile.hdrseq, hdone.header.2, zero_add]
  · rw [show (writeFileHeader keyHdr s₂).root = s₂.root by
      unfold writeFileHeader; split <;> rfl, hroot]
    by_cases hlevels : levels = []
    · obtain ⟨leaf, hleaf, hfpos⟩ := hsingle (htree.single.mp hlevels)
      have habove := htree.above
      rw [hleaf, hlevels] at habove
      cases habove
      rw [hnext₁, hlevels, ← hfpos]
      simp
    · exact (htree.root_pos hlevels).symm
  · rw [← htree.single]
    constructor
    · intro hleaf
      by_contra hne
      have hbranch := htree.branch root (htree.root_mem hne)
      rw [hbranch] at hleaf
      cases hleaf
    · intro hlevels
      have hmem := htree.above.root_mem
      rw [hlevels, List.flatten_nil, List.append_nil] at hmem
      exact hdone.leafNodes.leaf root hmem

/-- The root is not the only leaf if another node was created after it. -/
theorem leafIsLast_of_wellFormed (hseek : keyHdr.trailingHeaderOnly = false) {rows rows' : List Entry}
    {s s' : State} (hbalanced : Balanced keyHdr s) (h : LeafRun keyHdr rows s) {fuel : ℕ}
    {metadata : Option (List UInt8)} {tables : List (List UInt8)}
    (heq : finish keyHdr fuel metadata tables s = some s') {leaves : List WriteNode}
    {levels : List (List WriteNode)} {root : WriteNode}
    (hwell : WellFormed keyHdr rows' leaves levels root s') : LeafIsLast keyHdr s := by
  intro node hactive hprev
  obtain ⟨leaves₀, hdone, hstrip, hnext⟩ := h.finishLeaves hseek
  obtain ⟨n, hledger⟩ := hbalanced.finishLeaves
  obtain ⟨s₁, s₂, levels₀, root₀, htree, hextends, rfl⟩ :=
    finish_spec (Or.inl hseek) hdone.prev hdone.infos heq
  obtain ⟨k, hfile, hroot, hnext₁⟩ := fileSpec_of_tree htree hextends
  have hone : leaves₀.length = 1 := by
    rw [← List.length_map strip, hstrip, List.length_map]
    exact (length_leavesOf h).mpr ⟨node, hactive, hprev⟩
  obtain ⟨leaf, hleaf⟩ := List.length_eq_one_iff.mp hone
  have hlevels : levels₀ = [] := htree.single.mpr hone
  have hnodes := hwell.nodes
  have hheader : keyNodes (writeFileHeader keyHdr s₂).written = keyNodes s₂.written := by
    unfold writeFileHeader
    split
    · rw [keyNodes_append]
      exact List.append_nil _
    · rfl
  rw [hheader, hfile.nodes, hdone.nodes, hleaf, hlevels, List.flatten_nil, List.append_nil] at hnodes
  have hmem := hwell.above.root_mem
  rw [← hnodes, List.mem_singleton] at hmem
  have hrootpos := hwell.root_eq
  rw [show (writeFileHeader keyHdr s₂).root = s₂.root by
    unfold writeFileHeader; split <;> rfl, hroot, hnext₁, hlevels, hmem,
    fpos_of_single h hleaf hstrip hactive hprev] at hrootpos
  simp only [List.flatten_nil, List.length_nil, zero_mul, add_zero] at hrootpos
  have hpos : keyHdr.nodeSize ≤ (finishLeaves keyHdr s).nextPos := by
    rw [hledger.nextPos_eq]
    exact Nat.le_mul_of_pos_left _ (Nat.succ_pos n)
  omega

end Runs

/-- For an output that can seek and keys of which two fit a branch, `finish` ends, and the file is a
well formed index of the rows if and only if, in case all rows are in one leaf, no node was created
after that leaf. -/
theorem wellFormed_iff (keyHdr : KeyHdr) (hseek : keyHdr.trailingHeaderOnly = false)
    (hfit : TwoFit keyHdr) (startSequence : ℕ) (calls : List Call) (s : State)
    (ids : List (List UInt8 × ℕ)) (hrun : run keyHdr calls (init keyHdr startSequence) = some (s, ids))
    (metadata : Option (List UInt8)) (hmeta : metadata ≠ some []) (tables : List (List UInt8)) :
    (∃ fuel s', finish keyHdr fuel metadata tables s = some s' ∧
      ∃ leaves levels root,
        WellFormed keyHdr (rowsOf startSequence calls) leaves levels root s') ↔
      LeafIsLast keyHdr s := by
  have hbalanced := balanced_of_run hrun
  have hleafRun := leafRun_of_run hseek hrun
  constructor
  · rintro ⟨fuel, s', heq, leaves, levels, root, hwell⟩
    exact leafIsLast_of_wellFormed hseek hbalanced hleafRun heq hwell
  · intro hlast
    obtain ⟨leaves, hdone, -, -⟩ := hleafRun.finishLeaves hseek
    obtain ⟨s', heq⟩ := finish_isSome hfit tables (Or.inl hseek) hdone.prev hdone.infos
      hdone.header.1 hmeta
    exact ⟨_, s', heq, wellFormed_of_leafIsLast hseek hbalanced hleafRun hlast heq⟩

/-- A header for small nodes, of which a leaf has room for one row of 120 bytes, and a blob node for
small blobs. -/
def smallHdr : KeyHdr where
  nodeSize := 280
  keyedSize := 4
  trailingHeaderOnly := false
  useTrailingHeader := true
  colPrefix := true
  compressed := false
  isVariable := false
  enforceOrder := true
  leafRoom := fun rows _ => rows.isEmpty
  refuses := fun _ _ _ => false
  nodeSize_ge := by decide
  nodeSize_le := by decide

/-- A row of 120 bytes. -/
def smallRow (b : UInt8) : Call := .processKeyData (List.replicate 120 b) 0

/-- A blob of two bytes. -/
def smallBlob : Call := .createBlob ⟨[1, 2], by decide⟩

theorem wellFormed_twoLeaves : ∃ s ids,
    run smallHdr [smallRow 1, smallBlob, smallRow 2] (init smallHdr 0) = some (s, ids) ∧
      ∃ fuel s', finish smallHdr fuel none [] s = some s' ∧ ∃ leaves levels root,
        WellFormed smallHdr (rowsOf 0 [smallRow 1, smallBlob, smallRow 2]) leaves levels root s' := by
  have hprev : (run smallHdr [smallRow 1, smallBlob, smallRow 2] (init smallHdr 0)).map
      (fun r => r.1.prevLeafNode.isSome) = some true := by decide
  obtain ⟨⟨s, ids⟩, hrun, hsome⟩ := Option.map_eq_some_iff.mp hprev
  have hfit : TwoFit smallHdr := by
    unfold TwoFit
    decide
  refine ⟨s, ids, hrun, (wellFormed_iff smallHdr rfl hfit 0 _ s ids hrun none (by decide) []).mpr ?_⟩
  intro node _ hnone
  rw [hnone] at hsome
  cases hsome

/-- A leaf and a blob node after it: the header has the position of the blob node for the root. -/
theorem leafThenBlob_root : ∃ s ids,
    run smallHdr [smallRow 1, smallBlob] (init smallHdr 0) = some (s, ids) ∧
      (finish smallHdr 1 none [] s).map (fun s' => (s'.root, (keyNodes s'.written).map (·.fpos),
        writtenPos s')) = some (560, [280], [560, 280, 560]) ∧
      ∀ fuel s', finish smallHdr fuel none [] s = some s' → ∀ leaves levels root,
        ¬ WellFormed smallHdr (rowsOf 0 [smallRow 1, smallBlob]) leaves levels root s' := by
  have hall : (run smallHdr [smallRow 1, smallBlob] (init smallHdr 0)).map
      (fun r => ((finish smallHdr 1 none [] r.1).map (fun s' => (s'.root,
        (keyNodes s'.written).map (·.fpos), writtenPos s')),
        r.1.activeNode.map (·.fpos), r.1.prevLeafNode.isNone, r.1.nextPos)) =
      some (some (560, [280], [560, 280, 560]), some 280, true, 840) := by decide
  obtain ⟨⟨s, ids⟩, hrun, heq⟩ := Option.map_eq_some_iff.mp hall
  simp only [Prod.mk.injEq] at heq
  obtain ⟨hfile, hactive, hprev, hnext⟩ := heq
  refine ⟨s, ids, hrun, hfile, ?_⟩
  intro fuel s' hfinish leaves levels root hwell
  have hbalanced := balanced_of_run hrun
  have hleafRun := leafRun_of_run rfl hrun
  have hlast := leafIsLast_of_wellFormed rfl hbalanced hleafRun hfinish hwell
  obtain ⟨node, hnode, hfpos⟩ := Option.map_eq_some_iff.mp hactive
  have hend := hlast node hnode (Option.isNone_iff_eq_none.mp hprev)
  rw [hfpos, hnext] at hend
  revert hend
  decide

end KeyBuilder

end HpccPlatform
