import HpccPlatform.Index.CursorSearch

/-!
# The cursor of an index that has been built

For an output that can seek, the rows that are put into an index are those that `next` reads from it.
-/

namespace HpccPlatform

namespace KeyBuilder

variable {keyHdr : KeyHdr} {rows new : List Entry} {s s' : State}

/-- No leaf of a state between calls is empty. -/
def LeavesFilled (s : State) : Prop := ∀ node ∈ leavesOf s, node.entries ≠ []

theorem leavesFilled_of_strip {nodes nodes' : List WriteNode} (h : ∀ node ∈ nodes, node.entries ≠ [])
    (heq : nodes'.map strip = nodes.map strip) : ∀ node ∈ nodes', node.entries ≠ [] := by
  intro node hnode
  obtain ⟨node', hnode', hstrip⟩ := List.mem_map.mp (heq ▸ List.mem_map_of_mem (f := strip) hnode)
  have hentries : (strip node').entries = (strip node).entries := congrArg WriteNode.entries hstrip
  exact fun hnil => h node' hnode' (hentries.trans hnil)

theorem filled_snoc {nodes : List WriteNode} (h : ∀ node ∈ nodes, node.entries ≠ []) {node node' : WriteNode}
    {e : Entry} (hadd : node.add keyHdr e = some node') : ∀ node ∈ nodes ++ [node'], node.entries ≠ [] := by
  intro n hn
  rcases List.mem_append.mp hn with hn | hn
  · exact h n hn
  · rw [List.mem_singleton.mp hn, (WriteNode.add_eq_some hadd).2]
    exact List.append_ne_nil_of_right_ne_nil _ (List.cons_ne_nil e [])

theorem LeafRun.leavesFilled (hseek : keyHdr.trailingHeaderOnly = false) (h : LeafRun keyHdr rows s)
    (hprim : Prim keyHdr new s s') (hfilled : LeavesFilled s) : LeavesFilled s' := by
  unfold LeavesFilled leavesOf at hfilled ⊢
  cases hprim with
  | first hactive hadd | row hactive hadd =>
    exact filled_snoc (fun node hnode => hfilled node (List.mem_append_left _ hnode)) hadd
  | flush hactive hfull hadd =>
    have hstrip := map_strip_flushed (keyNodes s.written) s.prevLeafNode s.activeNode
    have hkeys := keyNodes_map_key (s.prevLeafNode.toList.map (setRightSib s.activeNode))
    rw [← hactive, h.level.flushNode (Or.inl hseek) s.activeNode]
    simp only [allocate]
    rw [keyNodes_append, hkeys]
    exact filled_snoc (leavesFilled_of_strip hfilled hstrip) hadd
  | newBlob =>
    obtain ⟨blobHead, leftSib, heq⟩ := newBlobNode_eq keyHdr s
    rw [heq, hseek]
    simp only [Bool.false_eq_true, if_false]
    rw [keyNodes_append, keyNodes_map_blob, List.append_nil]
    exact hfilled
  | addBlob hnode hadd => exact hfilled

/-! ## The file -/

/-- The leaf or branch that was written last at a position. -/
def nodeAt (s : State) (pos : ℕ) : Option WriteNode :=
  match (s.written.filter fun w => w.1 == pos).getLast? with
  | some (_, .key node) => some node
  | _ => none

/-- The index in a file that the builder has written. -/
def openIndex (keyHdr : KeyHdr) (s : State) : KeyIndex where
  keyHdr := keyHdr
  loadNode := nodeAt s
  rootNode := (nodeAt s s.root).getD ⟨0, 0, 0, true, []⟩
  getFirstLeafPos := s.firstLeaf

variable {leaves : List WriteNode} {levels : List (List WriteNode)} {root : WriteNode}

theorem WellFormed.getNode_eq (h : WellFormed keyHdr rows leaves levels root s) {node : WriteNode}
    (hnode : node ∈ leaves ++ levels.flatten) : getNode (openIndex keyHdr s) node.fpos = some node := by
  have hmem : (node.fpos, Node.key node) ∈ s.written := by
    rw [← h.nodes, keyNodes, List.mem_filterMap] at hnode
    obtain ⟨⟨pos, w⟩, hw, heq⟩ := hnode
    cases w <;> cases heq
    rw [← h.placed pos node hw]
    exact hw
  obtain ⟨n, hperm⟩ := h.once
  have hsize : 0 < keyHdr.nodeSize := Nat.lt_of_lt_of_le (by decide) keyHdr.nodeSize_ge
  have hnodup : (writtenPos s).Nodup := hperm.nodup_iff.mpr
    (List.nodup_range.map fun i j hij => Nat.succ_injective (Nat.eq_of_mul_eq_mul_right hsize hij))
  have hpos : node.fpos ≠ 0 := by
    obtain ⟨i, -, hi⟩ := List.mem_map.mp (hperm.subset (List.mem_map_of_mem (f := Prod.fst) hmem))
    exact Nat.ne_of_gt ((Nat.mul_pos i.succ_pos hsize).trans_eq hi)
  have hfilter : (node.fpos, Node.key node) ∈ s.written.filter fun w => w.1 == node.fpos :=
    List.mem_filter.mpr ⟨hmem, beq_self_eq_true node.fpos⟩
  have hlast := List.mem_filter.mp (List.getLast_mem (List.ne_nil_of_mem hfilter))
  have heq := List.inj_on_of_nodup_map hnodup hlast.1 hmem (eq_of_beq hlast.2)
  rw [getNode, if_neg hpos]
  show nodeAt s node.fpos = some node
  rw [nodeAt, List.getLast?_eq_some_getLast (List.ne_nil_of_mem hfilter), heq]

/-- No leaf of a file is empty. -/
theorem LeafRun.finish_filled (hseek : keyHdr.trailingHeaderOnly = false) {rows' : List Entry}
    (h : LeafRun keyHdr rows' s) (hfilled : LeavesFilled s) {fuel : ℕ} {metadata : Option (List UInt8)}
    {tables : List (List UInt8)} (heq : finish keyHdr fuel metadata tables s = some s')
    (hwell : WellFormed keyHdr rows leaves levels root s') : ∀ node ∈ leaves, node.entries ≠ [] := by
  obtain ⟨leaves₀, hdone, hstrip, -⟩ := h.finishLeaves hseek
  obtain ⟨s₁, s₂, levels₀, root₀, htree, hextends, rfl⟩ :=
    finish_spec (Or.inl hseek) hdone.prev hdone.infos heq
  obtain ⟨k, hfile, -, -⟩ := fileSpec_of_tree htree hextends
  have hheader : keyNodes (writeFileHeader keyHdr s₂).written = keyNodes s₂.written := by
    unfold writeFileHeader
    split
    · rw [keyNodes_append]
      exact List.append_nil _
    · rfl
  have hnodes := hwell.nodes
  rw [hheader, hfile.nodes, hdone.nodes] at hnodes
  intro node hnode
  rcases List.mem_append.mp (hnodes ▸ List.mem_append_left _ hnode) with hmem | hmem
  · exact leavesFilled_of_strip hfilled hstrip node hmem
  · have hbranch := htree.branch node hmem
    rw [hwell.leaf node hnode] at hbranch
    cases hbranch

/-- The rows that are read from an index are those that were put into it, in order. -/
theorem built_scan (keyHdr : KeyHdr) (hseek : keyHdr.trailingHeaderOnly = false) (startSequence : ℕ)
    (calls : List Call) (s s' : State) (ids : List (List UInt8 × ℕ))
    (hrun : run keyHdr calls (init keyHdr startSequence) = some (s, ids)) (hlast : LeafIsLast keyHdr s)
    (fuel : ℕ) (metadata : Option (List UInt8)) (tables : List (List UInt8))
    (heq : finish keyHdr fuel metadata tables s = some s') (n : ℕ) :
    scan (openIndex keyHdr s') n KeyCursor.new = ((rowsOf startSequence calls).take n).map Entry.value := by
  obtain ⟨hleafRun, hfilled⟩ := run_induction (P := fun rows s => LeafRun keyHdr rows s ∧ LeavesFilled s)
    (fun _ _ _ _ hprim h => ⟨h.1.prim hseek hprim, h.1.leavesFilled hseek hprim h.2⟩)
    ⟨leafRun_init keyHdr startSequence, fun _ hnode => absurd hnode List.not_mem_nil⟩ hrun
  obtain ⟨leaves, levels, root, hwell⟩ :=
    wellFormed_of_leafIsLast hseek (balanced_of_run hrun) hleafRun hlast heq
  exact LeafChain.scan_eq ⟨hwell.rows_eq, hleafRun.finish_filled hseek hfilled heq hwell, hwell.linked,
    fun node hnode => hwell.getNode_eq (List.mem_append_left _ hnode), hwell.firstLeaf_eq⟩ (Or.inl ⟨rfl, rfl⟩)

theorem built_scan_twoLeaves : ∃ s s' ids,
    run smallHdr [smallRow 1, smallBlob, smallRow 2] (init smallHdr 0) = some (s, ids) ∧
      finish smallHdr 2 none [] s = some s' ∧
        scan (openIndex smallHdr s') 3 KeyCursor.new = [List.replicate 120 1, List.replicate 120 2] := by
  have hend : (run smallHdr [smallRow 1, smallBlob, smallRow 2] (init smallHdr 0)).map
      (fun r => ((finish smallHdr 2 none [] r.1).isSome, r.1.prevLeafNode.isSome)) = some (true, true) := by
    decide
  obtain ⟨⟨s, ids⟩, hrun, hsome⟩ := Option.map_eq_some_iff.mp hend
  obtain ⟨s', heq⟩ := Option.isSome_iff_exists.mp (congrArg Prod.fst hsome)
  refine ⟨s, s', ids, hrun, heq, built_scan smallHdr rfl 0 _ s s' ids hrun ?_ 2 none [] heq 3⟩
  intro node _ hnone
  rw [hnone] at hsome
  cases congrArg Prod.snd hsome

end KeyBuilder

end HpccPlatform
