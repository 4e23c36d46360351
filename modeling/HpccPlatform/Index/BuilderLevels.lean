import HpccPlatform.Index.BuilderLedger

/-!
# Levels of an index

The nodes of one level are flushed one after the other, and each is written when the next one is
flushed.  The result is a list of nodes that are linked to their siblings, with one entry for each
node in the level above.  `buildTree` builds such levels on consecutive positions until one has a
single node.
-/

namespace HpccPlatform

namespace KeyBuilder

/-! ## Siblings -/

/-- Nodes that are linked to their siblings; the first has the given node on its left. -/
def Linked : ℕ → List WriteNode → Prop
  | _, [] => True
  | left, [node] => node.leftSib = left ∧ node.rightSib = 0
  | left, node :: next :: nodes =>
    node.leftSib = left ∧ node.rightSib = next.fpos ∧ Linked node.fpos (next :: nodes)

/-- A new node on the right. -/
theorem Linked.snoc {left : ℕ} {nodes : List WriteNode} {prev node : WriteNode}
    (h : Linked left (nodes ++ [prev])) (hright : node.rightSib = 0) :
    Linked left (nodes ++ [{ prev with rightSib := node.fpos }, { node with leftSib := prev.fpos }]) := by
  induction nodes generalizing left with
  | nil => exact ⟨h.1, rfl, rfl, hright⟩
  | cons a nodes ih =>
    cases nodes with
    | nil =>
      obtain ⟨hleft, hnext, hrest⟩ := h
      exact ⟨hleft, hnext, ih hrest⟩
    | cons b nodes =>
      obtain ⟨hleft, hnext, hrest⟩ := h
      exact ⟨hleft, hnext, ih hrest⟩

/-- A level in progress: the nodes that are written, with their entries for the level above, and
the node that waits for its right sibling. -/
structure Level (keyHdr : KeyHdr) (done : List WriteNode) (infos : List Entry)
    (prev : Option WriteNode) : Prop where
  linked : Linked 0 (done ++ prev.toList)
  infos_eq : infos = done.map (nodeInfo keyHdr)
  start : prev = none → done = []

section Flush

variable {keyHdr : KeyHdr}

theorem nodeInfo_setRightSib (node : Option WriteNode) (prev : WriteNode) :
    nodeInfo keyHdr (setRightSib node prev) = nodeInfo keyHdr prev := by
  cases node <;> rfl

/-- The builder does not hold nodes back for blob nodes: it may seek, or there are none. -/
def Quiet (keyHdr : KeyHdr) (s : State) : Prop :=
  keyHdr.trailingHeaderOnly = false ∨ s.pendingNodes = [] ∧ s.activeBlobNode = none

theorem flushPending_quiet {s : State} (h : Quiet keyHdr s) : flushPending keyHdr s = s := by
  unfold flushPending
  rcases h with h | ⟨h, -⟩
  · rw [h]
  · rw [h]
    split
    · rename_i heq
      cases s
      simp only at h
      subst h
      simp
    · rfl

theorem parks_quiet {s : State} (h : Quiet keyHdr s) (prev : WriteNode) :
    parks keyHdr s prev = false := by
  unfold parks
  rcases h with h | ⟨-, h⟩
  · rw [h, Bool.false_and]
  · rw [h, Bool.and_false]

/-- `flushNode` without a previous node. -/
theorem flushNode_first {s : State} (h : Quiet keyHdr s) (hprev : s.prevLeafNode = none)
    (node : Option WriteNode) (infos : List Entry) :
    flushNode keyHdr node infos s = (infos, { s with prevLeafNode := node }) := by
  unfold flushNode
  simp only [flushPending_quiet h, hprev]

/-- `flushNode` writes the previous node. -/
theorem flushNode_next {s : State} (h : Quiet keyHdr s) {prev : WriteNode}
    (hprev : s.prevLeafNode = some prev) (node : Option WriteNode) (infos : List Entry) :
    flushNode keyHdr node infos s = (infos ++ [nodeInfo keyHdr prev],
      { s with
        written := s.written ++ [(prev.fpos, .key (setRightSib node prev))]
        prevLeafNode := node.map fun n => { n with leftSib := prev.fpos } }) := by
  unfold flushNode
  simp only [flushPending_quiet h, hprev, parks_quiet h, nodeInfo_setRightSib, setRightSib_fpos]
  unfold writeNode
  simp only [Bool.false_eq_true, if_false, Node.getFpos, setRightSib_fpos]

theorem flushLastNode_first {s : State} (h : Quiet keyHdr s) (hprev : s.prevLeafNode = none) :
    flushLastNode keyHdr s = { s with prevLeafNode := none } := by
  unfold flushLastNode
  rw [flushNode_first h hprev]

theorem flushLastNode_next {s : State} (h : Quiet keyHdr s) {prev : WriteNode}
    (hprev : s.prevLeafNode = some prev) :
    flushLastNode keyHdr s = { s with
      leafInfo := s.leafInfo ++ [nodeInfo keyHdr prev]
      written := s.written ++ [(prev.fpos, .key prev)]
      prevLeafNode := none } := by
  unfold flushLastNode
  rw [flushNode_next h hprev]
  rfl

/-- The nodes that are written after a node is flushed. -/
def flushed (done : List WriteNode) (prev node : Option WriteNode) : List WriteNode :=
  done ++ prev.toList.map (setRightSib node)

/-- The node that waits after a node is flushed. -/
def waiting (prev node : Option WriteNode) : Option WriteNode :=
  match prev with
  | none => node
  | some prev => node.map fun n => { n with leftSib := prev.fpos }

/-- A node is flushed on a level in progress. -/
theorem Level.flushNode {s : State} (h : Quiet keyHdr s) {done : List WriteNode}
    {infos : List Entry} (hlevel : Level keyHdr done infos s.prevLeafNode) (node : Option WriteNode) :
    flushNode keyHdr node infos s = ((flushed done s.prevLeafNode node).map (nodeInfo keyHdr),
      { s with
        written := s.written ++ (s.prevLeafNode.toList.map (setRightSib node)).map
          fun n => (n.fpos, .key n)
        prevLeafNode := waiting s.prevLeafNode node }) := by
  cases hprev : s.prevLeafNode with
  | none =>
    rw [flushNode_first h hprev, hlevel.infos_eq]
    unfold flushed waiting
    simp only [Option.toList_none, List.map_nil, List.append_nil]
  | some prev =>
    rw [flushNode_next h hprev, hlevel.infos_eq]
    unfold flushed waiting
    simp only [Option.toList_some, List.map_singleton, List.map_append, nodeInfo_setRightSib,
      setRightSib_fpos]

theorem Level.next {done : List WriteNode} {infos : List Entry} {prev : Option WriteNode}
    (h : Level keyHdr done infos prev) {node : WriteNode} (hleft : node.leftSib = 0)
    (hright : node.rightSib = 0) :
    Level keyHdr (flushed done prev (some node)) ((flushed done prev (some node)).map (nodeInfo keyHdr))
      (waiting prev (some node)) := by
  refine ⟨?_, rfl, ?_⟩
  · have hlinked := h.linked
    unfold flushed waiting
    cases hprev : prev with
    | none =>
      rw [h.start hprev]
      exact ⟨hleft, hright⟩
    | some p =>
      rw [hprev] at hlinked
      simp only [Option.toList_some, List.map_singleton, Option.map_some, List.append_assoc,
        List.singleton_append]
      exact hlinked.snoc hright
  · intro hnone
    unfold waiting at hnone
    cases prev <;> cases hnone

/-- A node without its siblings. -/
def strip (node : WriteNode) : WriteNode := { node with leftSib := 0, rightSib := 0 }

theorem strip_setRightSib (node : Option WriteNode) (prev : WriteNode) :
    strip (setRightSib node prev) = strip prev := by
  cases node <;> rfl

/-- Flushing a node changes siblings only. -/
theorem map_strip_flushed (done : List WriteNode) (prev : Option WriteNode)
    (node : Option WriteNode) :
    (flushed done prev node ++ (waiting prev node).toList).map strip =
      (done ++ prev.toList ++ node.toList).map strip := by
  unfold flushed waiting
  cases prev with
  | none =>
    simp only [Option.toList_none, List.map_nil, List.append_nil]
  | some p =>
    simp only [Option.toList_some, List.map_append, List.map_singleton, strip_setRightSib]
    cases node <;> rfl

end Flush

/-! ## One level of branches -/

/-- The given number of positions, from the given one on. -/
def places (nodeSize start n : ℕ) : List ℕ := (List.range n).map fun i => start + i * nodeSize

theorem places_add (nodeSize start m n : ℕ) :
    places nodeSize start (m + n) =
      places nodeSize start m ++ places nodeSize (start + m * nodeSize) n := by
  unfold places
  rw [List.range_add, List.map_append, List.map_map]
  congr 1
  apply List.map_congr_left
  intro i _
  simp only [Function.comp_apply]
  ring

/-- Branches on consecutive positions with the given entries. -/
structure Branches (keyHdr : KeyHdr) (start : ℕ) (entries : List Entry) (nodes : List WriteNode) :
    Prop where
  placed : nodes.map WriteNode.fpos = places keyHdr.nodeSize start nodes.length
  entries_eq : nodes.flatMap WriteNode.entries = entries
  branch : ∀ node ∈ nodes, node.isLeaf = false

section Build

variable {keyHdr : KeyHdr}

theorem Branches.congr {start : ℕ} {entries : List Entry} {nodes nodes' : List WriteNode}
    (h : Branches keyHdr start entries nodes) (heq : nodes'.map strip = nodes.map strip) :
    Branches keyHdr start entries nodes' := by
  have hlength : nodes'.length = nodes.length := by
    rw [← List.length_map strip, heq, List.length_map]
  refine ⟨?_, ?_, ?_⟩
  · rw [hlength, ← h.placed]
    have hmap := congrArg (List.map WriteNode.fpos) heq
    rw [List.map_map, List.map_map] at hmap
    exact hmap
  · rw [← h.entries_eq]
    have hmap := congrArg (List.flatMap WriteNode.entries) heq
    rw [List.flatMap_map, List.flatMap_map] at hmap
    exact hmap
  · intro node hnode
    have hmem : strip node ∈ nodes.map strip := by
      rw [← heq]
      exact List.mem_map_of_mem hnode
    obtain ⟨node', hnode', hstrip⟩ := List.mem_map.mp hmem
    have hleaf : (strip node').isLeaf = (strip node).isLeaf := by rw [hstrip]
    show (strip node).isLeaf = false
    rw [← hleaf]
    exact h.branch node' hnode'

/-- A new node with one entry. -/
theorem Branches.newNode {start : ℕ} {entries : List Entry} {nodes : List WriteNode}
    (h : Branches keyHdr start entries nodes) {node : WriteNode} {e : Entry}
    (hfpos : node.fpos = start + nodes.length * keyHdr.nodeSize) (hleaf : node.isLeaf = false)
    (hentries : node.entries = [e]) :
    Branches keyHdr start (entries ++ [e]) (nodes ++ [node]) := by
  refine ⟨?_, ?_, ?_⟩
  · rw [List.map_append, h.placed, List.map_singleton, List.length_append, List.length_singleton,
      places_add, hfpos]
    simp [places]
  · rw [List.flatMap_append, h.entries_eq, List.flatMap_singleton, hentries]
  · intro n hn
    rcases List.mem_append.mp hn with hn | hn
    · exact h.branch n hn
    · rw [List.mem_singleton.mp hn, hleaf]

/-- One more entry for the last node. -/
theorem Branches.addEntry {start : ℕ} {entries : List Entry} {nodes : List WriteNode}
    {node : WriteNode} {e : Entry} (h : Branches keyHdr start entries (nodes ++ [node])) :
    Branches keyHdr start (entries ++ [e])
      (nodes ++ [{ node with entries := node.entries ++ [e] }]) := by
  refine ⟨?_, ?_, ?_⟩
  · have hplaced := h.placed
    rw [List.map_append, List.length_append] at hplaced ⊢
    exact hplaced
  · have hentries := h.entries_eq
    rw [List.flatMap_append, List.flatMap_singleton] at hentries ⊢
    rw [← hentries, List.append_assoc]
  · intro n hn
    rcases List.mem_append.mp hn with hn | hn
    · exact h.branch n (List.mem_append_left _ hn)
    · rw [List.mem_singleton.mp hn]
      exact h.branch node (List.mem_append_right _ (List.mem_singleton_self node))

/-- Two entries of the size of a key fit a branch. -/
def TwoFit (keyHdr : KeyHdr) : Prop :=
  2 * (8 + (if keyHdr.colPrefix then keyHdr.keyedSize + 1 else keyHdr.keyedSize) +
    (if keyHdr.isVariable then 2 else 0)) < maxBytes keyHdr

theorem entryBytes_le (lastKeyValue : List UInt8) {value : List UInt8} (h : value.length ≤ keyHdr.keyedSize) :
    entryBytes keyHdr lastKeyValue value ≤
      8 + (if keyHdr.colPrefix then keyHdr.keyedSize + 1 else keyHdr.keyedSize) +
        (if keyHdr.isVariable then 2 else 0) := by
  unfold entryBytes
  split <;> omega

/-- A branch with at most one entry has room for another one. -/
theorem branchRoom_of_twoFit (hfit : TwoFit keyHdr) {entries : List Entry} {e : Entry}
    (hentries : ∀ e ∈ entries, e.value.length ≤ keyHdr.keyedSize) (hlength : entries.length ≤ 1)
    (he : e.value.length ≤ keyHdr.keyedSize) : branchRoom keyHdr entries e = true := by
  unfold branchRoom
  unfold TwoFit at hfit
  match entries, hlength with
  | [], _ =>
    have hbytes := entryBytes_le [] he
    refine Bool.and_eq_true_iff.mpr ⟨rfl, decide_eq_true ?_⟩
    show 0 + entryBytes keyHdr [] e.value < maxBytes keyHdr
    omega
  | [a], _ =>
    have hbytes := entryBytes_le [] (hentries a (List.mem_singleton_self a))
    have hbytes' := entryBytes_le a.value he
    refine Bool.and_eq_true_iff.mpr ⟨rfl, decide_eq_true ?_⟩
    show entryBytes keyHdr [] a.value + 0 + entryBytes keyHdr a.value e.value < maxBytes keyHdr
    omega

/-- All nodes of a level in progress. -/
def levelNodes (done : List WriteNode) (prev : Option WriteNode) (node : WriteNode) :
    List WriteNode := done ++ prev.toList ++ [node]

/-- A level of branches in progress: `base` is the state before it. -/
structure Building (keyHdr : KeyHdr) (base : State) (entries : List Entry) (done : List WriteNode)
    (node : WriteNode) (parents : List Entry) (s : State) : Prop where
  level : Level keyHdr done parents s.prevLeafNode
  branches : Branches keyHdr base.nextPos entries (levelNodes done s.prevLeafNode node)
  state_eq : s = { base with
    nextPos := base.nextPos + (levelNodes done s.prevLeafNode node).length * keyHdr.nodeSize
    prevLeafNode := s.prevLeafNode
    written := base.written ++ done.map fun n => (n.fpos, .key n) }
  fresh : node.leftSib = 0 ∧ node.rightSib = 0
  /-- a branch that is full has two entries -/
  full : TwoFit keyHdr → (∀ e ∈ entries, e.value.length ≤ keyHdr.keyedSize) →
    ∀ n ∈ done ++ s.prevLeafNode.toList, 2 ≤ n.entries.length
  last : entries ≠ [] → node.entries ≠ []
  start : entries = [] → done ++ s.prevLeafNode.toList = []

theorem Building.quiet {base s : State} {entries parents : List Entry} {done : List WriteNode}
    {node : WriteNode} (h : Building keyHdr base entries done node parents s)
    (hbase : Quiet keyHdr base) : Quiet keyHdr s := by
  rw [h.state_eq]
  exact hbase

theorem Building.levels_eq {base s : State} {entries parents : List Entry} {done : List WriteNode}
    {node : WriteNode} (h : Building keyHdr base entries done node parents s) :
    s.levels = base.levels := by
  rw [h.state_eq]

/-- The active branch takes the entry. -/
theorem Building.addEntry {base s : State} {entries parents : List Entry} {done : List WriteNode}
    {node : WriteNode} (h : Building keyHdr base entries done node parents s) (e : Entry) :
    Building keyHdr base (entries ++ [e]) done { node with entries := node.entries ++ [e] }
      parents s where
  level := h.level
  branches := h.branches.addEntry
  state_eq := by
    have hlength : ∀ node', (levelNodes done s.prevLeafNode node').length =
        (levelNodes done s.prevLeafNode node).length := by
      intro node'
      simp only [levelNodes, List.length_append, List.length_singleton]
    rw [hlength]
    exact h.state_eq
  fresh := h.fresh
  full := by
    intro hfit hvalues
    exact h.full hfit fun e he => hvalues e (List.mem_append_left _ he)
  last := by
    intro _
    exact List.append_ne_nil_of_right_ne_nil _ (List.cons_ne_nil _ _)
  start := by
    intro h
    exact absurd h (List.append_ne_nil_of_right_ne_nil _ (List.cons_ne_nil _ _))

/-- The entries of the active branch are among those of the level. -/
theorem Building.mem_entries {base s : State} {entries parents : List Entry}
    {done : List WriteNode} {node : WriteNode}
    (h : Building keyHdr base entries done node parents s) {e : Entry} (he : e ∈ node.entries) :
    e ∈ entries := by
  rw [← h.branches.entries_eq]
  exact List.mem_flatMap.mpr ⟨node, List.mem_append_right _ (List.mem_singleton_self node), he⟩

/-- The active branch is full, and the next one takes the entry. -/
theorem Building.flushNode {base s : State} {entries parents : List Entry} {done : List WriteNode}
    {node node' : WriteNode} (h : Building keyHdr base entries done node parents s)
    (hbase : Quiet keyHdr base) (hlevels : base.levels ≠ 0) {e : Entry}
    (hroom : node.add keyHdr e = none)
    (hadd : (newNode (s.levels == 0) s).add keyHdr e = some node') :
    Building keyHdr base (entries ++ [e]) (flushed done s.prevLeafNode (some node)) node'
      (flushNode keyHdr (some node) parents s).1
      (allocate keyHdr (flushNode keyHdr (some node) parents s).2) := by
  have hlevels' : (s.levels == 0) = false := by
    rw [h.levels_eq]
    exact beq_eq_false_iff_ne.mpr hlevels
  obtain ⟨-, hnode'⟩ := WriteNode.add_eq_some hadd
  have hstrip := map_strip_flushed done s.prevLeafNode (some node)
  have hlength : (flushed done s.prevLeafNode (some node) ++
      (waiting s.prevLeafNode (some node)).toList).length =
      (levelNodes done s.prevLeafNode node).length := by
    have := congrArg List.length hstrip
    rw [List.length_map, List.length_map] at this
    exact this
  have hbranches := h.branches.congr hstrip
  have hnext : s.nextPos =
      base.nextPos + (levelNodes done s.prevLeafNode node).length * keyHdr.nodeSize := by
    rw [h.state_eq]
  rw [h.level.flushNode (h.quiet hbase) (some node)]
  refine ⟨h.level.next h.fresh.1 h.fresh.2, ?_, ?_, ?_, ?_, ?_, ?_⟩
  · refine hbranches.newNode ?_ ?_ ?_
    · rw [hnode', hlength]
      exact hnext
    · rw [hnode', hlevels']
      rfl
    · rw [hnode']
      rfl
  · -- the state has one more node, and the previous node is written
    have hnodes : (levelNodes (flushed done s.prevLeafNode (some node))
        (waiting s.prevLeafNode (some node)) node').length =
        (levelNodes done s.prevLeafNode node).length + 1 := by
      rw [← hlength]
      unfold levelNodes
      rw [List.length_append, List.length_singleton]
    unfold allocate
    simp only
    rw [hnodes, hnext]
    have hwritten : s.written = base.written ++ done.map fun n => (n.fpos, .key n) := by
      rw [h.state_eq]
    rw [hwritten]
    unfold flushed
    rw [List.map_append, List.append_assoc]
    conv_lhs => rw [h.state_eq]
    simp only [State.mk.injEq, and_true]
    ring
  · rw [hnode']
    exact ⟨rfl, rfl⟩
  · intro hfit hvalues n hn
    have hvalues' : ∀ e ∈ entries, e.value.length ≤ keyHdr.keyedSize := by
      intro e he
      exact hvalues e (List.mem_append_left _ he)
    have hmem : strip n ∈ (done ++ s.prevLeafNode.toList ++ [node]).map strip := by
      rw [← Option.toList_some, ← hstrip]
      exact List.mem_map_of_mem hn
    obtain ⟨n', hn', heq⟩ := List.mem_map.mp hmem
    have hentries : (strip n').entries.length = (strip n).entries.length := by rw [heq]
    show 2 ≤ (strip n).entries.length
    rw [← hentries]
    rcases List.mem_append.mp hn' with hn' | hn'
    · exact h.full hfit hvalues' n' hn'
    · rw [List.mem_singleton.mp hn']
      by_contra hshort
      have hhas : node.hasRoom keyHdr e = true := by
        unfold WriteNode.hasRoom
        rw [h.branches.branch node (List.mem_append_right _ (List.mem_singleton_self node))]
        apply branchRoom_of_twoFit hfit _ (Nat.lt_succ_iff.mp (not_le.mp hshort))
          (hvalues e (List.mem_append_right _ (List.mem_singleton_self e)))
        intro e' he'
        exact hvalues' e' (h.mem_entries he')
      unfold WriteNode.add at hroom
      rw [if_pos hhas] at hroom
      cases hroom
  · intro _
    rw [hnode']
    exact List.cons_ne_nil _ _
  · intro h
    exact absurd h (List.append_ne_nil_of_right_ne_nil _ (List.cons_ne_nil _ _))

/-- The loop of `buildLevel`. -/
theorem Building.loop {base s s' : State} {entries parents parents' : List Entry}
    {done : List WriteNode} {node node' : WriteNode}
    (h : Building keyHdr base entries done node parents s) (hbase : Quiet keyHdr base)
    (hlevels : base.levels ≠ 0) {thisLevel : List Entry}
    (heq : buildLevel.loop keyHdr thisLevel node parents s = some (node', parents', s')) :
    ∃ done', Building keyHdr base (entries ++ thisLevel) done' node' parents' s' := by
  induction thisLevel generalizing entries done node parents s with
  | nil =>
    simp only [buildLevel.loop, Option.some.injEq, Prod.mk.injEq] at heq
    obtain ⟨rfl, rfl, rfl⟩ := heq
    rw [List.append_nil]
    exact ⟨done, h⟩
  | cons info thisLevel ih =>
    rw [show entries ++ info :: thisLevel = (entries ++ [info]) ++ thisLevel by simp]
    unfold buildLevel.loop at heq
    cases hadd : node.add keyHdr info with
    | some node₁ =>
      rw [hadd] at heq
      obtain ⟨-, rfl⟩ := WriteNode.add_eq_some hadd
      exact ih (h.addEntry info) heq
    | none =>
      rw [hadd] at heq
      simp only [Option.bind_eq_bind, Option.bind_eq_some_iff] at heq
      obtain ⟨node₁, hnew, heq⟩ := heq
      have hsame : newNode ((KeyBuilder.flushNode keyHdr (some node) parents s).2.levels == 0)
          (KeyBuilder.flushNode keyHdr (some node) parents s).2 = newNode (s.levels == 0) s := by
        obtain ⟨written, pending, prev, hframe, -⟩ := flushNode_frame keyHdr (some node) parents s
        rw [hframe]
        rfl
      rw [hsame] at hnew
      exact ih (h.flushNode hbase hlevels hadd hnew) heq

/-- The loop of `buildLevel` does not fail when two entries fit a branch. -/
theorem Building.loop_isSome {base s : State} {entries parents : List Entry}
    {done : List WriteNode} {node : WriteNode}
    (h : Building keyHdr base entries done node parents s) (hbase : Quiet keyHdr base)
    (hlevels : base.levels ≠ 0) (hfit : TwoFit keyHdr) {thisLevel : List Entry}
    (hvalues : ∀ e ∈ thisLevel, e.value.length ≤ keyHdr.keyedSize) :
    (buildLevel.loop keyHdr thisLevel node parents s).isSome = true := by
  induction thisLevel generalizing entries done node parents s with
  | nil => rfl
  | cons info thisLevel ih =>
    have hrest : ∀ e ∈ thisLevel, e.value.length ≤ keyHdr.keyedSize := by
      intro e he
      exact hvalues e (List.mem_cons_of_mem _ he)
    unfold buildLevel.loop
    cases hadd : node.add keyHdr info with
    | some node₁ =>
      obtain ⟨-, rfl⟩ := WriteNode.add_eq_some hadd
      exact ih (h.addEntry info) hrest
    | none =>
      obtain ⟨written, pending, prev, hframe, -⟩ := flushNode_frame keyHdr (some node) parents s
      have hsame : newNode ((KeyBuilder.flushNode keyHdr (some node) parents s).2.levels == 0)
          (KeyBuilder.flushNode keyHdr (some node) parents s).2 = newNode (s.levels == 0) s := by
        rw [hframe]
        rfl
      have hroom : (newNode (s.levels == 0) s).hasRoom keyHdr info = true := by
        unfold WriteNode.hasRoom newNode
        rw [h.levels_eq, beq_eq_false_iff_ne.mpr hlevels]
        exact branchRoom_of_twoFit hfit (by simp) (by simp) (hvalues info (List.mem_cons_self))
      have hnew : (newNode (s.levels == 0) s).add keyHdr info =
          some { newNode (s.levels == 0) s with entries := [info] } := by
        unfold WriteNode.add
        rw [if_pos hroom]
        rfl
      simp only [hsame, hnew, Option.bind_eq_bind, Option.bind_some]
      exact ih (h.flushNode hbase hlevels hadd hnew) hrest

/-- A level of branches, with its entries. -/
structure IsLevel (keyHdr : KeyHdr) (start : ℕ) (children : List Entry) (nodes : List WriteNode) :
    Prop where
  branches : Branches keyHdr start children nodes
  linked : Linked 0 nodes
  ne_nil : nodes ≠ []
  /-- a level has fewer nodes than the level below -/
  shorter : TwoFit keyHdr → (∀ e ∈ children, e.value.length ≤ keyHdr.keyedSize) →
    2 ≤ children.length → nodes.length < children.length
  empty : children = [] → nodes.length = 1

/-- The state after a list of nodes has been written on consecutive positions. -/
def writeNodes (keyHdr : KeyHdr) (nodes : List WriteNode) (s : State) : State :=
  { s with
    nextPos := s.nextPos + nodes.length * keyHdr.nodeSize
    written := s.written ++ nodes.map fun n => (n.fpos, .key n) }

/-- The number of entries of nodes that have two entries, and a last one. -/
theorem length_flatMap_ge {nodes : List WriteNode} {node : WriteNode}
    (h : ∀ n ∈ nodes, 2 ≤ n.entries.length) (hlast : node.entries ≠ []) :
    2 * nodes.length + 1 ≤ ((nodes ++ [node]).flatMap WriteNode.entries).length := by
  have hpos := List.length_pos_of_ne_nil hlast
  induction nodes with
  | nil =>
    rw [List.nil_append, List.flatMap_singleton, List.length_nil]
    omega
  | cons a nodes ih =>
    have ha := h a List.mem_cons_self
    have hrest := ih fun n hn => h n (List.mem_cons_of_mem _ hn)
    rw [List.cons_append, List.flatMap_cons, List.length_append, List.length_cons]
    omega

theorem building_init {s : State} (hprev : s.prevLeafNode = none) (hlevels : s.levels ≠ 0) :
    Building keyHdr s [] [] (newNode (s.levels == 0) s) [] (allocate keyHdr s) := by
  have hlevel : (s.levels == 0) = false := beq_eq_false_iff_ne.mpr hlevels
  have hprev' : (allocate keyHdr s).prevLeafNode = none := hprev
  refine ⟨?_, ?_, ?_, ⟨rfl, rfl⟩, ?_, ?_, ?_⟩
  · rw [hprev']
    exact ⟨trivial, rfl, fun _ => rfl⟩
  · rw [hprev']
    refine ⟨?_, rfl, ?_⟩
    · simp [levelNodes, newNode, places]
    · intro n hn
      rw [show levelNodes [] none (newNode (s.levels == 0) s) = [newNode (s.levels == 0) s]
        from rfl] at hn
      rw [List.mem_singleton.mp hn]
      exact hlevel
  · rw [hprev']
    unfold allocate levelNodes
    simp [hprev]
  · intro _ _ n hn
    rw [hprev'] at hn
    cases hn
  · intro h
    exact absurd rfl h
  · intro _
    rw [hprev']
    rfl

/-- What `buildLevel` does. -/
theorem buildLevel_spec {s s' : State} {children parents : List Entry} (hquiet : Quiet keyHdr s)
    (hprev : s.prevLeafNode = none) (hlevels : s.levels ≠ 0)
    (heq : buildLevel keyHdr children s = some (parents, s')) :
    ∃ nodes, parents = nodes.map (nodeInfo keyHdr) ∧ s' = writeNodes keyHdr nodes s ∧
      IsLevel keyHdr s.nextPos children nodes := by
  unfold buildLevel at heq
  simp only [Option.bind_eq_bind, Option.bind_eq_some_iff, Option.pure_def, Option.some.injEq,
    Prod.exists] at heq
  obtain ⟨node, parents₁, s₁, hloop, heq⟩ := heq
  obtain ⟨done, hbuilding⟩ := (building_init hprev hlevels).loop hquiet hlevels hloop
  rw [List.nil_append] at hbuilding
  have hquiet₁ := hbuilding.quiet hquiet
  -- the last node is flushed, and then the level is closed
  rw [hbuilding.level.flushNode hquiet₁ (some node)] at heq
  have hclosed := hbuilding.level.next hbuilding.fresh.1 hbuilding.fresh.2
  set done₁ := flushed done s₁.prevLeafNode (some node) with hdone₁
  set prev₁ := waiting s₁.prevLeafNode (some node) with hprev₁
  have hstrip := map_strip_flushed done s₁.prevLeafNode (some node)
  rw [← hdone₁, ← hprev₁] at hstrip
  have hsome : ∃ p, prev₁ = some p := by
    rw [hprev₁]
    unfold waiting
    cases s₁.prevLeafNode <;> exact ⟨_, rfl⟩
  obtain ⟨p, hp⟩ := hsome
  have hquiet₂ : Quiet keyHdr { s₁ with
      written := s₁.written ++ (s₁.prevLeafNode.toList.map (setRightSib (some node))).map
        fun n => (n.fpos, .key n)
      prevLeafNode := prev₁ } := hquiet₁
  rw [flushNode_next hquiet₂ hp] at heq
  simp only [Prod.mk.injEq] at heq
  obtain ⟨rfl, rfl⟩ := heq
  rw [hp, Option.toList_some] at hstrip
  have hnodes : (done₁ ++ [p]).map strip = (levelNodes done s₁.prevLeafNode node).map strip :=
    hstrip
  have hlength : (done₁ ++ [p]).length = (levelNodes done s₁.prevLeafNode node).length := by
    rw [← List.length_map strip, hnodes, List.length_map]
  have hlast : (levelNodes done s₁.prevLeafNode node).length =
      (done ++ s₁.prevLeafNode.toList).length + 1 := List.length_append
  refine ⟨done₁ ++ [p], ?_, ?_, ?_, ?_, ?_, ?_, ?_⟩
  · rw [List.map_append, List.map_singleton]
  · unfold writeNodes
    rw [hlength, List.map_append, List.map_singleton]
    conv_lhs => rw [hbuilding.state_eq]
    simp only [State.mk.injEq, true_and, and_true]
    refine ⟨?_, ?_⟩
    · rw [hprev]
      rfl
    · rw [hdone₁]
      unfold flushed
      rw [List.map_append, List.append_assoc, List.append_assoc, List.append_assoc]
      rfl
  · exact hbuilding.branches.congr hnodes
  · have hlinked := hclosed.linked
    rw [hp] at hlinked
    exact hlinked
  · exact List.append_ne_nil_of_right_ne_nil _ (List.cons_ne_nil _ _)
  · intro hfit hvalues hlong
    have hfull := hbuilding.full hfit hvalues
    have hne : children ≠ [] := by
      rintro rfl
      simp at hlong
    have hcount := length_flatMap_ge hfull (hbuilding.last hne)
    rw [show done ++ s₁.prevLeafNode.toList ++ [node] = levelNodes done s₁.prevLeafNode node
      from rfl, hbuilding.branches.entries_eq] at hcount
    rw [hlength, hlast]
    omega
  · intro hempty
    rw [hlength, hlast, hbuilding.start hempty]
    rfl

theorem buildLevel_isSome {s : State} {children : List Entry} (hquiet : Quiet keyHdr s)
    (hprev : s.prevLeafNode = none) (hlevels : s.levels ≠ 0) (hfit : TwoFit keyHdr)
    (hvalues : ∀ e ∈ children, e.value.length ≤ keyHdr.keyedSize) :
    ∃ r, buildLevel keyHdr children s = some r := by
  have hloop := (building_init hprev hlevels).loop_isSome hquiet hlevels hfit hvalues
  obtain ⟨⟨node, parents, s₁⟩, heq⟩ := Option.isSome_iff_exists.mp hloop
  unfold buildLevel
  rw [heq]
  exact ⟨_, rfl⟩

/-! ## The tree -/

/-- The levels of branches above the given nodes, from the lowest to the highest, and the single
node of the highest: each entry of a branch is the position and last key of a node one level below,
and each node has one entry. -/
inductive Above (keyHdr : KeyHdr) : List WriteNode → List (List WriteNode) → WriteNode → Prop
  | top (root : WriteNode) : Above keyHdr [root] [] root
  | level {nodes parents : List WriteNode} {levels : List (List WriteNode)} {root : WriteNode} :
    parents.flatMap WriteNode.entries = nodes.map (nodeInfo keyHdr) →
    (∀ node ∈ parents, node.isLeaf = false) → Linked 0 parents →
    Above keyHdr parents levels root → Above keyHdr nodes (parents :: levels) root

/-- What `buildTree` does. -/
structure BuiltTree (keyHdr : KeyHdr) (nodes : List WriteNode) (s s' : State)
    (levels : List (List WriteNode)) (root : WriteNode) : Prop where
  above : Above keyHdr nodes levels root
  single : levels = [] ↔ nodes.length = 1
  placed : levels.flatten.map WriteNode.fpos =
    places keyHdr.nodeSize s.nextPos levels.flatten.length
  root_pos : levels ≠ [] → root.fpos = s'.nextPos - keyHdr.nodeSize
  branch : ∀ node ∈ levels.flatten, node.isLeaf = false
  root_mem : levels ≠ [] → root ∈ levels.flatten
  state_eq : s' = { writeNodes keyHdr levels.flatten s with
    levels := s.levels + levels.length
    root := s'.nextPos - keyHdr.nodeSize
    hdrseq := s.levels + levels.length }

theorem nodeInfo_value_length (keyHdr : KeyHdr) (nodes : List WriteNode) :
    ∀ e ∈ nodes.map (nodeInfo keyHdr), e.value.length ≤ keyHdr.keyedSize := by
  intro e he
  obtain ⟨node, -, rfl⟩ := List.mem_map.mp he
  exact List.length_take_le _ _

theorem buildTree_spec {fuel : ℕ} {nodes : List WriteNode} {s s' : State}
    (hquiet : Quiet keyHdr s) (hprev : s.prevLeafNode = none)
    (heq : buildTree keyHdr fuel (nodes.map (nodeInfo keyHdr)) s = some s') :
    ∃ levels root, BuiltTree keyHdr nodes s s' levels root := by
  induction fuel generalizing nodes s with
  | zero => cases heq
  | succ fuel ih =>
    unfold buildTree at heq
    rw [List.length_map] at heq
    by_cases hone : nodes.length = 1
    · rw [if_neg (not_not.mpr hone), Option.some.injEq] at heq
      obtain ⟨root, rfl⟩ := List.length_eq_one_iff.mp hone
      subst heq
      refine ⟨[], root, Above.top root, ⟨fun _ => rfl, fun _ => rfl⟩, rfl, ?_, ?_, ?_, ?_⟩
      · intro h
        exact absurd rfl h
      · intro node hnode
        cases hnode
      · intro h
        exact absurd rfl h
      · unfold writeNodes
        simp
    · rw [if_pos hone] at heq
      simp only [Option.bind_eq_bind, Option.bind_eq_some_iff, Prod.exists] at heq
      obtain ⟨parents, s₁, hlevel, heq⟩ := heq
      have hquiet₁ : Quiet keyHdr { s with levels := s.levels + 1 } := hquiet
      obtain ⟨nodes₁, rfl, rfl, hnodes₁⟩ :=
        buildLevel_spec hquiet₁ hprev (Nat.succ_ne_zero _) hlevel
      have hquiet₂ : Quiet keyHdr (writeNodes keyHdr nodes₁ { s with levels := s.levels + 1 }) :=
        hquiet
      obtain ⟨levels, root, htree⟩ := ih hquiet₂ hprev heq
      have hstate := htree.state_eq
      have hnext : s'.nextPos = s.nextPos + nodes₁.length * keyHdr.nodeSize +
          levels.flatten.length * keyHdr.nodeSize := by
        rw [hstate]
        rfl
      refine ⟨nodes₁ :: levels, root, ?_, ?_, ?_, ?_, ?_, ?_, ?_⟩
      · exact Above.level hnodes₁.branches.entries_eq hnodes₁.branches.branch hnodes₁.linked
          htree.above
      · exact ⟨fun h => absurd h (List.cons_ne_nil _ _), fun h => absurd h hone⟩
      · rw [List.flatten_cons, List.map_append, hnodes₁.branches.placed, htree.placed,
          List.length_append, places_add]
        rfl
      · intro _
        by_cases hlevels : levels = []
        · -- the level is the top one
          have hsingle := htree.single.mp hlevels
          obtain ⟨top, rfl⟩ := List.length_eq_one_iff.mp hsingle
          subst hlevels
          have habove := htree.above
          cases habove
          have hplaced := hnodes₁.branches.placed
          simp only [List.map_singleton, List.length_singleton, places, List.range_one,
            List.cons.injEq, and_true, zero_mul, add_zero] at hplaced
          rw [hplaced, hnext]
          simp
        · exact htree.root_pos hlevels
      · intro node hnode
        rw [List.flatten_cons] at hnode
        rcases List.mem_append.mp hnode with hnode | hnode
        · exact hnodes₁.branches.branch node hnode
        · exact htree.branch node hnode
      · intro _
        rw [List.flatten_cons]
        by_cases hlevels : levels = []
        · have hsingle := htree.single.mp hlevels
          obtain ⟨top, rfl⟩ := List.length_eq_one_iff.mp hsingle
          subst hlevels
          have habove := htree.above
          cases habove
          exact List.mem_append_left _ (List.mem_singleton_self _)
        · exact List.mem_append_right _ (htree.root_mem hlevels)
      · conv_lhs => rw [hstate]
        unfold writeNodes
        simp only [State.mk.injEq, List.flatten_cons, List.length_append, List.map_append,
          List.append_assoc, List.length_cons, true_and, and_true]
        refine ⟨?_, ?_, ?_⟩ <;> ring

/-- `buildTree` ends when two entries fit a branch. -/
theorem buildTree_isSome (hfit : TwoFit keyHdr) {fuel : ℕ} {nodes : List WriteNode} {s : State}
    (hquiet : Quiet keyHdr s) (hprev : s.prevLeafNode = none) (hfuel : nodes.length + 2 ≤ fuel) :
    ∃ s', buildTree keyHdr fuel (nodes.map (nodeInfo keyHdr)) s = some s' := by
  induction fuel generalizing nodes s with
  | zero => omega
  | succ fuel ih =>
    unfold buildTree
    rw [List.length_map]
    by_cases hone : nodes.length = 1
    · rw [if_neg (not_not.mpr hone)]
      exact ⟨_, rfl⟩
    · rw [if_pos hone]
      have hvalues := nodeInfo_value_length keyHdr nodes
      have hquiet₁ : Quiet keyHdr { s with levels := s.levels + 1 } := hquiet
      obtain ⟨⟨parents, s₁⟩, hlevel⟩ :=
        buildLevel_isSome hquiet₁ hprev (Nat.succ_ne_zero _) hfit hvalues
      rw [hlevel]
      obtain ⟨nodes₁, rfl, rfl, hnodes₁⟩ :=
        buildLevel_spec hquiet₁ hprev (Nat.succ_ne_zero _) hlevel
      have hquiet₂ : Quiet keyHdr (writeNodes keyHdr nodes₁ { s with levels := s.levels + 1 }) :=
        hquiet
      simp only [Option.bind_eq_bind, Option.bind_some]
      by_cases hzero : nodes = []
      · -- an index without rows gets one empty branch
        subst hzero
        have hlength := hnodes₁.empty rfl
        cases fuel with
        | zero => simp at hfuel
        | succ fuel =>
          unfold buildTree
          rw [List.length_map, if_neg (not_not.mpr hlength)]
          exact ⟨_, rfl⟩
      · have hlong : 2 ≤ (nodes.map (nodeInfo keyHdr)).length := by
          rw [List.length_map]
          have := List.length_pos_of_ne_nil hzero
          omega
        have hshorter := hnodes₁.shorter hfit hvalues hlong
        rw [List.length_map] at hshorter
        exact ih hquiet₂ hprev (by omega)

/-! ## Metadata and Bloom filters -/

/-- A node with metadata or a part of a Bloom filter. -/
def Node.IsData : Node → Prop
  | .metadata _ => True
  | .bloom _ => True
  | _ => False

/-- A state to which nodes with data have been added on consecutive positions. -/
def Extends (keyHdr : KeyHdr) (s s' : State) : Prop :=
  ∃ (others : List (ℕ × Node)) (metadataHead bloomHead : ℕ),
    others.map Prod.fst = places keyHdr.nodeSize s.nextPos others.length ∧
    (∀ w ∈ others, w.2.IsData) ∧
    s' = { s with
      nextPos := s.nextPos + others.length * keyHdr.nodeSize
      written := s.written ++ others
      metadataHead := metadataHead
      bloomHead := bloomHead }

theorem Extends.refl (s : State) : Extends keyHdr s s := by
  refine ⟨[], s.metadataHead, s.bloomHead, rfl, ?_, ?_⟩
  · intro w hw
    cases hw
  · simp

theorem Extends.trans {s s₁ s₂ : State} (h : Extends keyHdr s s₁) (h' : Extends keyHdr s₁ s₂) :
    Extends keyHdr s s₂ := by
  obtain ⟨others, mh, bh, hplaced, hdata, rfl⟩ := h
  obtain ⟨others', mh', bh', hplaced', hdata', rfl⟩ := h'
  refine ⟨others ++ others', mh', bh', ?_, ?_, ?_⟩
  · rw [List.map_append, hplaced, hplaced', List.length_append, places_add]
  · intro w hw
    rcases List.mem_append.mp hw with hw | hw
    · exact hdata w hw
    · exact hdata' w hw
  · simp only [State.mk.injEq, List.length_append, List.append_assoc, and_true]
    ring

/-- The loop that writes data over nodes. -/
theorem writeDataNodes_spec {node : DataWriteNode → Node}
    (hnode : ∀ d, (node d).getFpos = d.fpos ∧ (node d).IsData) {fuel room : ℕ} {data : List UInt8}
    {prev : Option DataWriteNode} {s s' : State}
    (heq : writeDataNodes keyHdr node fuel room data prev s = some s') :
    ∃ (others : List (ℕ × Node)) (m : ℕ),
      others.map Prod.fst = prev.toList.map DataWriteNode.fpos ++ places keyHdr.nodeSize s.nextPos m ∧
      (∀ w ∈ others, w.2.IsData) ∧
      s' = { s with
        nextPos := s.nextPos + m * keyHdr.nodeSize
        written := s.written ++ others } := by
  induction fuel generalizing room data prev s with
  | zero =>
    cases data with
    | nil =>
      unfold writeDataNodes at heq
      cases prev with
      | none => cases heq
      | some p =>
        simp only [Option.some.injEq] at heq
        refine ⟨[((node p).getFpos, node p)], 0, ?_, ?_, ?_⟩
        · rw [(hnode p).1]
          rfl
        · intro w hw
          rw [List.mem_singleton.mp hw]
          exact (hnode p).2
        · rw [← heq, zero_mul, add_zero]
          rfl
    | cons b data =>
      unfold writeDataNodes at heq
      cases heq
  | succ fuel ih =>
    cases data with
    | nil =>
      unfold writeDataNodes at heq
      cases prev with
      | none => cases heq
      | some p =>
        simp only [Option.some.injEq] at heq
        refine ⟨[((node p).getFpos, node p)], 0, ?_, ?_, ?_⟩
        · rw [(hnode p).1]
          rfl
        · intro w hw
          rw [List.mem_singleton.mp hw]
          exact (hnode p).2
        · rw [← heq, zero_mul, add_zero]
          rfl
    | cons b data =>
      unfold writeDataNodes at heq
      by_cases hroom : room = 0
      · rw [if_pos hroom] at heq
        cases heq
      · rw [if_neg hroom] at heq
        obtain ⟨others, m, hplaced, hdata, rfl⟩ := ih heq
        cases prev with
        | none =>
          refine ⟨others, m + 1, ?_, hdata, ?_⟩
          · rw [hplaced, add_comm m 1, places_add]
            simp [places, allocate]
          · simp only [allocate, State.mk.injEq, and_true]
            ring
        | some p =>
          refine ⟨(p.fpos, node { p with rightSib := s.nextPos }) :: others, m + 1, ?_, ?_, ?_⟩
          · rw [List.map_cons, hplaced, add_comm m 1, places_add]
            simp [places, allocate, writeNode]
          · intro w hw
            rcases List.mem_cons.mp hw with rfl | hw
            · exact (hnode _).2
            · exact hdata w hw
          · simp only [allocate, writeNode, (hnode _).1, State.mk.injEq, List.append_assoc,
              List.singleton_append, and_true]
            ring

theorem writeDataNodes_isSome {node : DataWriteNode → Node} {fuel room : ℕ} {data : List UInt8}
    {prev : Option DataWriteNode} {s : State} (hroom : room ≠ 0) (hbytes : maxBytes keyHdr - 2 ≠ 0)
    (hfuel : data.length ≤ fuel) (hsome : data ≠ [] ∨ prev ≠ none) :
    (writeDataNodes keyHdr node fuel room data prev s).isSome = true := by
  induction fuel generalizing room data prev s with
  | zero =>
    have hdata : data = [] := List.length_eq_zero_iff.mp (Nat.le_zero.mp hfuel)
    subst hdata
    unfold writeDataNodes
    cases prev with
    | none => simp at hsome
    | some p => rfl
  | succ fuel ih =>
    cases data with
    | nil =>
      unfold writeDataNodes
      cases prev with
      | none => simp at hsome
      | some p => rfl
    | cons b data =>
      unfold writeDataNodes
      rw [if_neg hroom]
      apply ih hbytes
      · rw [List.length_drop]
        rw [List.length_cons] at hfuel ⊢
        omega
      · right
        exact Option.some_ne_none _

theorem maxBytes_ge (keyHdr : KeyHdr) : 254 ≤ maxBytes keyHdr := by
  have := keyHdr.nodeSize_ge
  unfold maxBytes
  omega

theorem writeMetadata_spec {data : List UInt8} {s s' : State}
    (heq : writeMetadata keyHdr data s = some s') : Extends keyHdr s s' := by
  unfold writeMetadata at heq
  split at heq
  · obtain ⟨others, m, hplaced, hdata, rfl⟩ :=
      @writeDataNodes_spec keyHdr .metadata (fun _ => ⟨rfl, trivial⟩) _ _ _ _ _ _ heq
    have hlength : others.length = m := by
      have := congrArg List.length hplaced
      simpa [places] using this
    subst hlength
    exact ⟨others, s.nextPos, s.bloomHead, hplaced, hdata, rfl⟩
  · cases heq

theorem writeBloomFilter_spec {table : List UInt8} {s s' : State}
    (heq : writeBloomFilter keyHdr table s = some s') : Extends keyHdr s s' := by
  unfold writeBloomFilter at heq
  by_cases hempty : table = []
  · rw [if_pos hempty, Option.some.injEq] at heq
    subst heq
    exact Extends.refl s
  · rw [if_neg hempty] at heq
    split at heq
    · cases heq
    · obtain ⟨others, m, hplaced, hdata, rfl⟩ :=
        @writeDataNodes_spec keyHdr .bloom (fun _ => ⟨rfl, trivial⟩) _ _ _ _ _ _ heq
      have hlength : others.length = m := by
        have := congrArg List.length hplaced
        simpa [places] using this
      subst hlength
      exact ⟨others, s.metadataHead, s.nextPos, hplaced, hdata, rfl⟩

theorem writeBloomFilters_spec {tables : List (List UInt8)} {s s' : State}
    (heq : writeBloomFilters keyHdr tables s = some s') : Extends keyHdr s s' := by
  induction tables generalizing s with
  | nil =>
    simp only [writeBloomFilters, Option.some.injEq] at heq
    subst heq
    exact Extends.refl s
  | cons table tables ih =>
    simp only [writeBloomFilters, Option.bind_eq_bind, Option.bind_eq_some_iff] at heq
    obtain ⟨s₁, hfirst, hrest⟩ := heq
    exact (writeBloomFilter_spec hfirst).trans (ih hrest)

theorem writeBloomFilters_isSome (tables : List (List UInt8)) (s : State) :
    ∃ s', writeBloomFilters keyHdr tables s = some s' := by
  have hbytes := maxBytes_ge keyHdr
  induction tables generalizing s with
  | nil => exact ⟨s, rfl⟩
  | cons table tables ih =>
    have hfirst : ∃ s₁, writeBloomFilter keyHdr table s = some s₁ := by
      unfold writeBloomFilter
      by_cases hempty : table = []
      · rw [if_pos hempty]
        exact ⟨s, rfl⟩
      · rw [if_neg hempty, if_neg (by omega)]
        exact Option.isSome_iff_exists.mp
          (writeDataNodes_isSome (by omega) (by omega) le_rfl (Or.inl hempty))
    obtain ⟨s₁, hs₁⟩ := hfirst
    obtain ⟨s₂, hs₂⟩ := ih s₁
    refine ⟨s₂, ?_⟩
    simp only [writeBloomFilters, hs₁, Option.bind_eq_bind, Option.bind_some]
    exact hs₂

/-! ## The end of an index -/

/-- What `finish` does after the leaves. -/
theorem finish_spec {fuel : ℕ} {metadata : Option (List UInt8)} {tables : List (List UInt8)}
    {s s' : State} {leaves : List WriteNode} (hquiet : Quiet keyHdr (finishLeaves keyHdr s))
    (hprev : (finishLeaves keyHdr s).prevLeafNode = none)
    (hinfo : (finishLeaves keyHdr s).leafInfo = leaves.map (nodeInfo keyHdr))
    (heq : finish keyHdr fuel metadata tables s = some s') :
    ∃ s₁ s₂ levels root, BuiltTree keyHdr leaves (finishLeaves keyHdr s) s₁ levels root ∧
      Extends keyHdr s₁ s₂ ∧ s' = writeFileHeader keyHdr s₂ := by
  unfold finish at heq
  simp only [Option.bind_eq_bind, Option.bind_eq_some_iff, Option.pure_def, Option.some.injEq] at heq
  obtain ⟨s₁, htree, s₂, hmeta, s₃, hbloom, rfl⟩ := heq
  rw [hinfo] at htree
  obtain ⟨levels, root, hbuilt⟩ := buildTree_spec hquiet hprev htree
  refine ⟨s₁, s₃, levels, root, hbuilt, ?_, rfl⟩
  have hextends₂ : Extends keyHdr s₁ s₂ := by
    unfold finishMetadata at hmeta
    cases metadata with
    | none =>
      simp only [Option.some.injEq] at hmeta
      rw [hmeta]
      exact Extends.refl s₂
    | some data => exact writeMetadata_spec hmeta
  have hextends₃ : Extends keyHdr s₂ s₃ := by
    unfold finishBloomFilters at hbloom
    split at hbloom
    · exact writeBloomFilters_spec hbloom
    · cases hbloom
      exact Extends.refl s₂
  exact hextends₂.trans hextends₃

/-- `finish` ends when two entries fit a branch. -/
theorem finish_isSome (hfit : TwoFit keyHdr) {metadata : Option (List UInt8)}
    (tables : List (List UInt8)) {s : State} {leaves : List WriteNode}
    (hquiet : Quiet keyHdr (finishLeaves keyHdr s))
    (hprev : (finishLeaves keyHdr s).prevLeafNode = none)
    (hinfo : (finishLeaves keyHdr s).leafInfo = leaves.map (nodeInfo keyHdr))
    (hhead : (finishLeaves keyHdr s).metadataHead = 0) (hmeta : metadata ≠ some []) :
    ∃ s', finish keyHdr (leaves.length + 2) metadata tables s = some s' := by
  have hbytes := maxBytes_ge keyHdr
  obtain ⟨s₁, htree⟩ := buildTree_isSome hfit hquiet hprev (le_refl (leaves.length + 2))
  obtain ⟨levels, root, hbuilt⟩ := buildTree_spec hquiet hprev htree
  have hhead₁ : s₁.metadataHead = 0 := by
    rw [hbuilt.state_eq]
    exact hhead
  have hsecond : ∃ s₂, finishMetadata keyHdr metadata s₁ = some s₂ := by
    unfold finishMetadata
    cases metadata with
    | none => exact ⟨s₁, rfl⟩
    | some data =>
      have hdata : data ≠ [] := by
        rintro rfl
        exact hmeta rfl
      simp only
      unfold writeMetadata
      rw [if_pos ⟨hhead₁, hdata⟩]
      exact Option.isSome_iff_exists.mp
        (writeDataNodes_isSome (by omega) (by omega) le_rfl (Or.inl hdata))
  obtain ⟨s₂, hs₂⟩ := hsecond
  have hthird : ∃ s₃, finishBloomFilters keyHdr tables s₂ = some s₃ := by
    unfold finishBloomFilters
    split
    · exact writeBloomFilters_isSome tables s₂
    · exact ⟨s₂, rfl⟩
  obtain ⟨s₃, hs₃⟩ := hthird
  refine ⟨writeFileHeader keyHdr s₃, ?_⟩
  unfold finish
  simp only [hinfo, htree, hs₂, hs₃, Option.bind_eq_bind, Option.bind_some]
  rfl

end Build

end KeyBuilder

end HpccPlatform
