import HpccPlatform.Index.BuilderTree

/-!
# The order of writes for an output that cannot seek

With `TRAILING_HEADER_ONLY` the builder holds nodes back in a list, in order to write the file from
start to end.  Full blob nodes wait there until the leaves before them are written.  A full leaf is
put into the same list if a blob node before it is still in progress; but that blob node goes into
the list behind the leaf when it is full, and the list is written from its head.  So the file is
written in order if and only if that never happens.
-/

namespace HpccPlatform

namespace KeyBuilder

/-- The nodes of the file have been written from start to end, with the header as the last. -/
structure InOrder (keyHdr : KeyHdr) (s : State) : Prop where
  pos : ∃ n, writtenPos s = positions keyHdr.nodeSize n
  header : ∃ pos, s.written.getLast? = some (pos, .header)
  pending : s.pendingNodes = []

/-- The previous leaf has to wait for the blob node in progress. -/
def wouldPark (keyHdr : KeyHdr) (s : State) : Bool :=
  match s.prevLeafNode with
  | some prev => parks keyHdr s prev
  | none => false

/-- The row does not fit the active leaf. -/
def startsLeaf (keyHdr : KeyHdr) (keyData : List UInt8) (pos : ℕ) (s : State) : Bool :=
  match s.activeNode with
  | some node => (node.add keyHdr ⟨pos, keyData, s.sequence⟩).isNone
  | none => false

/-- A call that starts a new leaf while the previous leaf has to wait for a blob node. -/
def callParks (keyHdr : KeyHdr) (s : State) : Call → Bool
  | .processKeyData keyData pos => startsLeaf keyHdr keyData pos s && wouldPark keyHdr s
  | .createBlob _ => false

/-- No call of a run is of that kind. -/
def neverParks (keyHdr : KeyHdr) : List Call → State → Bool
  | [], _ => true
  | c :: calls, s =>
    !callParks keyHdr s c &&
      match step keyHdr s c with
      | some (s', _) => neverParks keyHdr calls s'
      | none => true

section Order

variable {keyHdr : KeyHdr}

/-! ## Flushing a node -/

theorem flushPending_trailing (htrailing : keyHdr.trailingHeaderOnly = true) {s : State}
    {prev : WriteNode} (hprev : s.prevLeafNode = some prev) :
    writtenPos (flushPending keyHdr s) =
        writtenPos s ++ (pendingPos s).takeWhile (fun x => decide (x ≤ prev.fpos)) ∧
      pendingPos (flushPending keyHdr s) =
        (pendingPos s).dropWhile fun x => decide (x ≤ prev.fpos) := by
  unfold flushPending
  rw [htrailing, hprev]
  unfold writtenPos pendingPos
  rw [List.takeWhile_map, List.dropWhile_map, List.map_append, List.map_map]
  exact ⟨rfl, rfl⟩

/-- `flushNode` without a previous node. -/
theorem flushNode_none_pos {s : State} (hprev : s.prevLeafNode = none) (node : Option WriteNode)
    (infos : List Entry) :
    writtenPos (flushNode keyHdr node infos s).2 = writtenPos s ∧
      pendingPos (flushNode keyHdr node infos s).2 = pendingPos s := by
  have hflush : flushPending keyHdr s = s := by
    unfold flushPending
    rw [hprev]
    cases keyHdr.trailingHeaderOnly <;> rfl
  unfold flushNode
  simp only [hflush, hprev]
  exact ⟨rfl, rfl⟩

theorem parks_setRightSib (s : State) (node : Option WriteNode) (prev : WriteNode) :
    parks keyHdr (flushPending keyHdr s) (setRightSib node prev) = parks keyHdr s prev := by
  obtain ⟨written, pending, heq⟩ := flushPending_frame keyHdr s
  unfold parks
  rw [heq, setRightSib_fpos]

/-- `flushNode` for a previous node that does not wait. -/
theorem flushNode_writes_pos (htrailing : keyHdr.trailingHeaderOnly = true) {s : State}
    {prev : WriteNode} (hprev : s.prevLeafNode = some prev) (hpark : parks keyHdr s prev = false)
    (node : Option WriteNode) (infos : List Entry) :
    writtenPos (flushNode keyHdr node infos s).2 = writtenPos s ++
        (pendingPos s).takeWhile (fun x => decide (x ≤ prev.fpos)) ++ [prev.fpos] ∧
      pendingPos (flushNode keyHdr node infos s).2 =
        (pendingPos s).dropWhile fun x => decide (x ≤ prev.fpos) := by
  obtain ⟨hwritten, hpending⟩ := flushPending_trailing htrailing hprev
  obtain ⟨written, pending, heq⟩ := flushPending_frame keyHdr s
  have hprev' : (flushPending keyHdr s).prevLeafNode = some prev := by
    rw [heq]
    exact hprev
  unfold flushNode
  simp only [hprev', parks_setRightSib, hpark, Bool.false_eq_true, if_false]
  refine ⟨?_, hpending⟩
  have hwrite := writtenPos_writeNode (.key (setRightSib node prev)) (flushPending keyHdr s)
  rw [hwritten] at hwrite
  simp only [Node.getFpos, setRightSib_fpos] at hwrite
  exact hwrite

/-- `flushNode` for a previous node that waits. -/
theorem flushNode_parks_pos (htrailing : keyHdr.trailingHeaderOnly = true) {s : State}
    {prev : WriteNode} (hprev : s.prevLeafNode = some prev) (hpark : parks keyHdr s prev = true)
    (node : Option WriteNode) (infos : List Entry) :
    writtenPos (flushNode keyHdr node infos s).2 = writtenPos s ++
        (pendingPos s).takeWhile (fun x => decide (x ≤ prev.fpos)) ∧
      pendingPos (flushNode keyHdr node infos s).2 =
        (pendingPos s).dropWhile (fun x => decide (x ≤ prev.fpos)) ++ [prev.fpos] := by
  obtain ⟨hwritten, hpending⟩ := flushPending_trailing htrailing hprev
  obtain ⟨written, pending, heq⟩ := flushPending_frame keyHdr s
  have hprev' : (flushPending keyHdr s).prevLeafNode = some prev := by
    rw [heq]
    exact hprev
  unfold flushNode
  simp only [hprev', parks_setRightSib, hpark, if_true]
  refine ⟨hwritten, ?_⟩
  unfold pendingPos at hpending ⊢
  simp only [List.map_append, List.map_singleton, Node.getFpos, setRightSib_fpos]
  rw [hpending]

theorem flushNode_blobPos (node : Option WriteNode) (infos : List Entry) (s : State) :
    blobPos (flushNode keyHdr node infos s).2 = blobPos s := by
  obtain ⟨written, pending, prev, heq, -⟩ := flushNode_frame keyHdr node infos s
  rw [heq]
  rfl

theorem flushNode_prevPos (node : Option WriteNode) (infos : List Entry) (s : State) :
    prevPos (flushNode keyHdr node infos s).2 = node.toList.map WriteNode.fpos := by
  obtain ⟨written, pending, prev, heq, hprev⟩ := flushNode_frame keyHdr node infos s
  rw [heq]
  unfold prevPos
  simp only
  rw [← Option.toList_map, ← Option.toList_map, hprev]

/-! ## Positions in order -/

/-- The positions in the ledger are different, and before the next one. -/
theorem Ledger.nodup {s : State} {current : List ℕ} {n : ℕ} (h : Ledger keyHdr s current n) :
    (writtenPos s ++ pendingPos s ++ prevPos s ++ current ++ blobPos s).Nodup := by
  have hnodup : (positions keyHdr.nodeSize n).Nodup :=
    (pairwise_positions (nodeSize_pos keyHdr) n).imp fun hab => hab.ne
  rw [← Multiset.coe_nodup, ← h.taken_eq] at hnodup
  unfold taken at hnodup
  simp only [Multiset.coe_add] at hnodup
  exact Multiset.coe_nodup.mp hnodup

theorem Ledger.lt_nextPos {s : State} {current : List ℕ} {n : ℕ} (h : Ledger keyHdr s current n)
    {x : ℕ} (hx : x ∈ writtenPos s ++ pendingPos s ++ prevPos s ++ current ++ blobPos s) :
    x < s.nextPos := by
  have hmem : x ∈ taken s current := by
    unfold taken
    simp only [Multiset.coe_add, Multiset.mem_coe]
    exact hx
  rw [h.taken_eq, Multiset.mem_coe] at hmem
  unfold positions at hmem
  obtain ⟨i, hi, rfl⟩ := List.mem_map.mp hmem
  rw [h.nextPos_eq]
  exact Nat.mul_lt_mul_of_pos_right (by simpa using hi) (nodeSize_pos keyHdr)

/-- The nodes so far have been written in order, and those that wait can follow. -/
structure Ordered (s : State) (current : List ℕ) : Prop where
  sorted : (writtenPos s).Pairwise (· < ·)
  before : ∀ w ∈ writtenPos s, ∀ u ∈ pendingPos s ++ prevPos s ++ current ++ blobPos s, w < u
  blobs : (pendingPos s ++ blobPos s).Pairwise (· < ·)
  leaves : ∀ p ∈ prevPos s, ∀ c ∈ current, p < c

/-- What is left of an ordered list. -/
theorem lt_of_mem_dropWhile {l : List ℕ} (h : l.Pairwise (· < ·)) {p x : ℕ}
    (hx : x ∈ l.dropWhile fun y => decide (y ≤ p)) : p < x := by
  induction l with
  | nil => cases hx
  | cons a l ih =>
    rw [List.pairwise_cons] at h
    by_cases ha : a ≤ p
    · rw [List.dropWhile_cons_of_pos (by simpa using ha)] at hx
      exact ih h.2 hx
    · rw [List.dropWhile_cons_of_neg (by simpa using ha)] at hx
      rcases List.mem_cons.mp hx with rfl | hx
      · omega
      · have := h.1 x hx
        omega

theorem Ordered.flushNode (htrailing : keyHdr.trailingHeaderOnly = true) {s : State} {n : ℕ}
    {node : Option WriteNode} (hledger : Ledger keyHdr s (node.toList.map WriteNode.fpos) n)
    (h : Ordered s (node.toList.map WriteNode.fpos)) (hpark : wouldPark keyHdr s = false)
    (infos : List Entry) : Ordered (flushNode keyHdr node infos s).2 [] := by
  have hnodup := hledger.nodup
  set current := node.toList.map WriteNode.fpos with hcurrent
  have hblob := @flushNode_blobPos keyHdr node infos s
  have hprevPos := @flushNode_prevPos keyHdr node infos s
  unfold wouldPark at hpark
  cases hprev : s.prevLeafNode with
  | none =>
    obtain ⟨hwritten, hpending⟩ := @flushNode_none_pos keyHdr s hprev node infos
    refine ⟨?_, ?_, ?_, ?_⟩
    · rw [hwritten]
      exact h.sorted
    · rw [hwritten, hpending, hblob, hprevPos]
      intro w hw u hu
      apply h.before w hw u
      simp only [List.append_nil, List.mem_append] at hu ⊢
      tauto
    · rw [hpending, hblob]
      exact h.blobs
    · intro p _ c hc
      cases hc
  | some prev =>
    rw [hprev] at hpark
    simp only at hpark
    obtain ⟨hwritten, hpending⟩ := flushNode_writes_pos htrailing hprev hpark node infos
    have hprev' : prevPos s = [prev.fpos] := by
      unfold prevPos
      rw [hprev]
      rfl
    rw [hprev'] at hnodup
    have hbefore := h.before
    rw [hprev'] at hbefore
    have hleaves := h.leaves
    rw [hprev'] at hleaves
    have hpairs := List.pairwise_append.mp h.blobs
    -- a pending node that is written is before the leaf
    have htake : ∀ r ∈ (pendingPos s).takeWhile (fun x => decide (x ≤ prev.fpos)),
        r < prev.fpos := by
      intro r hr
      have hle : r ≤ prev.fpos := by simpa using List.mem_takeWhile_imp hr
      have hmem : r ∈ pendingPos s := (List.takeWhile_sublist _).subset hr
      have hne : r ≠ prev.fpos := by
        rintro rfl
        simp only [List.nodup_append, List.mem_append, List.mem_singleton] at hnodup
        grind
      omega
    -- what is not written is after it
    have hafter : ∀ u ∈ (pendingPos s).dropWhile (fun x => decide (x ≤ prev.fpos)) ++ current ++
        blobPos s, prev.fpos < u := by
      intro u hu
      rcases List.mem_append.mp hu with hu | hu
      · rcases List.mem_append.mp hu with hu | hu
        · exact lt_of_mem_dropWhile hpairs.1 hu
        · exact hleaves prev.fpos (List.mem_singleton_self _) u hu
      · have hne : u ≠ prev.fpos := by
          rintro rfl
          simp only [List.nodup_append, List.mem_append, List.mem_singleton] at hnodup
          grind
        unfold parks at hpark
        rw [htrailing, Bool.true_and] at hpark
        unfold blobPos at hu
        cases hactive : s.activeBlobNode with
        | none =>
          rw [hactive] at hu
          cases hu
        | some blob =>
          rw [hactive] at hu hpark
          simp only [Option.toList_some, List.map_singleton, List.mem_singleton] at hu
          have hnot : ¬ blob.fpos < prev.fpos := by simpa using hpark
          omega
    refine ⟨?_, ?_, ?_, ?_⟩
    · rw [hwritten, List.pairwise_append, List.pairwise_append]
      refine ⟨⟨h.sorted, hpairs.1.sublist (List.takeWhile_sublist _), ?_⟩,
        List.pairwise_singleton _ _, ?_⟩
      · intro w hw r hr
        apply hbefore w hw
        have := (List.takeWhile_sublist _).subset hr
        simp only [List.mem_append]
        tauto
      · intro w hw p hp
        rw [List.mem_singleton.mp hp]
        rcases List.mem_append.mp hw with hw | hw
        · apply hbefore w hw
          simp
        · exact htake w hw
    · rw [hwritten, hpending, hblob, hprevPos]
      intro w hw u hu
      rw [List.append_nil] at hu
      simp only [List.mem_append, List.mem_singleton] at hw
      rcases hw with (hw | hw) | rfl
      · apply hbefore w hw
        simp only [List.mem_append] at hu ⊢
        rcases hu with (hu | hu) | hu
        · have := (List.dropWhile_sublist _).subset hu
          tauto
        · tauto
        · tauto
      · exact (htake w hw).trans (hafter u hu)
      · exact hafter u hu
    · rw [hpending, hblob]
      exact h.blobs.sublist ((List.dropWhile_sublist _).append_right _)
    · intro p _ c hc
      cases hc

theorem Ordered.allocate {s : State} {n : ℕ} (hledger : Ledger keyHdr s [] n) (h : Ordered s []) :
    Ordered (allocate keyHdr s) [s.nextPos] := by
  refine ⟨h.sorted, ?_, h.blobs, ?_⟩
  · intro w hw u hu
    simp only [List.mem_append, List.mem_singleton] at hu
    rcases hu with ((hu | hu) | rfl) | hu
    · apply h.before w hw
      exact List.mem_append_left _ (List.mem_append_left _ (List.mem_append_left _ hu))
    · apply h.before w hw
      exact List.mem_append_left _ (List.mem_append_left _ (List.mem_append_right _ hu))
    · apply hledger.lt_nextPos
      have hw' : w ∈ writtenPos s := hw
      simp only [List.mem_append]
      tauto
    · exact h.before w hw u (List.mem_append_right _ hu)
  · intro p hp c hc
    rw [List.mem_singleton.mp hc]
    apply hledger.lt_nextPos
    have hp' : p ∈ prevPos s := hp
    simp only [List.mem_append]
    tauto

/-- The blob nodes that wait, and a new one. -/
theorem Ordered.newBlobNode (htrailing : keyHdr.trailingHeaderOnly = true) {s : State}
    {current : List ℕ} {n : ℕ} (hledger : Ledger keyHdr s current n) (h : Ordered s current) :
    Ordered (newBlobNode keyHdr s) current := by
  obtain ⟨blobHead, leftSib, heq⟩ := newBlobNode_eq keyHdr s
  have hpending : pendingPos (KeyBuilder.newBlobNode keyHdr s) = pendingPos s ++ blobPos s := by
    rw [heq, htrailing]
    unfold pendingPos blobPos closedBlob
    simp only [if_true, List.map_append, List.map_map]
    rfl
  have hwritten : writtenPos (KeyBuilder.newBlobNode keyHdr s) = writtenPos s := by
    rw [heq, htrailing]
    rfl
  have hprev : prevPos (KeyBuilder.newBlobNode keyHdr s) = prevPos s := by
    rw [heq]
    rfl
  have hblob : blobPos (KeyBuilder.newBlobNode keyHdr s) = [s.nextPos] := by
    rw [heq]
    rfl
  refine ⟨?_, ?_, ?_, ?_⟩
  · rw [hwritten]
    exact h.sorted
  · rw [hwritten, hpending, hprev, hblob]
    intro w hw u hu
    by_cases hnext : u = s.nextPos
    · rw [hnext]
      apply hledger.lt_nextPos
      simp only [List.mem_append]
      tauto
    · apply h.before w hw
      simp only [List.mem_append, List.mem_singleton] at hu ⊢
      tauto
  · rw [hpending, hblob, List.pairwise_append]
    refine ⟨h.blobs, List.pairwise_singleton _ _, ?_⟩
    intro u hu v hv
    rw [List.mem_singleton.mp hv]
    apply hledger.lt_nextPos
    simp only [List.mem_append] at hu ⊢
    tauto
  · rw [hprev]
    exact h.leaves

/-- A step that does not make a leaf wait. -/
theorem Ordered.prim (htrailing : keyHdr.trailingHeaderOnly = true) {rows : List Entry}
    {s s' : State} (hprim : Prim keyHdr rows s s') (hbalanced : Balanced keyHdr s)
    (hpark : ∀ e ∈ rows, ∀ node, s.activeNode = some node → node.add keyHdr e = none →
      wouldPark keyHdr s = false) (h : Ordered s (activePos s)) : Ordered s' (activePos s') := by
  obtain ⟨n, hledger⟩ := hbalanced
  unfold activePos at h hledger
  cases hprim with
  | first hactive hadd =>
    rw [hactive] at h hledger
    have hnew := Ordered.allocate hledger h
    unfold activePos
    simp only [Option.toList_some, List.map_singleton]
    rw [WriteNode.add_fpos hadd]
    exact ⟨hnew.sorted, hnew.before, hnew.blobs, hnew.leaves⟩
  | row hactive hadd =>
    rw [hactive] at h
    unfold activePos
    simp only [Option.toList_some, List.map_singleton]
    rw [WriteNode.add_fpos hadd]
    exact ⟨h.sorted, h.before, h.blobs, h.leaves⟩
  | flush hactive hadd hadd' =>
    rw [hactive] at h hledger
    have hnotPark := hpark _ (List.mem_singleton_self _) _ hactive hadd
    have hflush := h.flushNode htrailing hledger hnotPark s.leafInfo
    have hnew := Ordered.allocate (hledger.flushNode s.leafInfo) hflush
    obtain ⟨written, pending, prev, heq, -⟩ := flushNode_frame keyHdr s.activeNode s.leafInfo s
    rw [hactive] at heq
    unfold activePos
    simp only [Option.toList_some, List.map_singleton]
    rw [WriteNode.add_fpos hadd', show (newNode true s).fpos =
      (KeyBuilder.flushNode keyHdr (some _) s.leafInfo s).2.nextPos by rw [heq]; rfl]
    exact ⟨hnew.sorted, hnew.before, hnew.blobs, hnew.leaves⟩
  | newBlob =>
    have hnew := h.newBlobNode htrailing hledger
    obtain ⟨blobHead, leftSib, heq⟩ := newBlobNode_eq keyHdr s
    unfold activePos
    rw [heq] at hnew ⊢
    exact hnew
  | @addBlob _ node node' _ _ _ hnode hadd =>
    have hblob : blobPos { s with activeBlobNode := some node' } = blobPos s := by
      unfold blobPos
      rw [hnode]
      simp only [Option.toList_some, List.map_singleton]
      rw [(BlobWriteNode.add_fpos hadd).1]
    refine ⟨h.sorted, ?_, ?_, h.leaves⟩
    · rw [hblob]
      exact h.before
    · rw [hblob]
      exact h.blobs

/-- A run in which no leaf waits. -/
theorem ordered_run (htrailing : keyHdr.trailingHeaderOnly = true) {calls : List Call}
    {s s' : State} {ids : List (List UInt8 × ℕ)} (hbalanced : Balanced keyHdr s)
    (h : Ordered s (activePos s)) (hnever : neverParks keyHdr calls s = true)
    (hrun : run keyHdr calls s = some (s', ids)) : Ordered s' (activePos s') := by
  induction calls generalizing s ids with
  | nil =>
    cases hrun
    exact h
  | cons c calls ih =>
    unfold run at hrun
    simp only [Option.bind_eq_bind, Option.bind_eq_some_iff, Option.pure_def, Option.some.injEq,
      Prod.mk.injEq, Prod.exists] at hrun
    obtain ⟨s₁, ids₁, hcall, s₂, ids₂, hrest, rfl, -⟩ := hrun
    unfold neverParks at hnever
    rw [hcall] at hnever
    simp only [Bool.and_eq_true, Bool.not_eq_true'] at hnever
    obtain ⟨hpark, hnever⟩ := hnever
    cases c with
    | processKeyData keyData pos =>
      unfold step at hcall
      simp only [Option.bind_eq_bind, Option.bind_eq_some_iff, Option.pure_def, Option.some.injEq,
        Prod.mk.injEq] at hcall
      obtain ⟨s₁', hcall, rfl, -⟩ := hcall
      have hprim := prim_processKeyData hcall
      refine ih (hbalanced.prim hprim) (h.prim htrailing hprim hbalanced ?_) hnever hrest
      intro e he node hactive hadd
      rw [List.mem_singleton.mp he] at hadd
      unfold callParks startsLeaf at hpark
      rw [hactive] at hpark
      simp only [hadd, Option.isNone_none, Bool.true_and] at hpark
      exact hpark
    | createBlob data =>
      unfold step at hcall
      simp only [Option.bind_eq_bind, Option.bind_eq_some_iff, Option.pure_def, Option.some.injEq,
        Prod.mk.injEq, Prod.exists] at hcall
      obtain ⟨s₁', id, hcall, rfl, -⟩ := hcall
      have hmany : ∀ a b, Relation.ReflTransGen (Prim keyHdr []) a b →
          Balanced keyHdr a ∧ Ordered a (activePos a) → Balanced keyHdr b ∧ Ordered b (activePos b) := by
        intro a b hab ha
        induction hab with
        | refl => exact ha
        | tail _ hprim ih =>
          refine ⟨ih.1.prim hprim, ih.2.prim htrailing hprim ih.1 ?_⟩
          intro e he
          cases he
      obtain ⟨hbalanced₁, hordered₁⟩ := hmany _ _ (prim_createBlob hcall) ⟨hbalanced, h⟩
      exact ih hbalanced₁ hordered₁ hnever hrest

/-! ## The end of the leaves -/

/-- The blob node in progress is put into the list. -/
theorem appendBlobNode_pos (htrailing : keyHdr.trailingHeaderOnly = true) (s : State) :
    writtenPos (appendBlobNode keyHdr s) = writtenPos s ∧
      pendingPos (appendBlobNode keyHdr s) = pendingPos s ++ blobPos s ∧
      prevPos (appendBlobNode keyHdr s) = prevPos s ∧
      (appendBlobNode keyHdr s).activeBlobNode = none ∧
      (appendBlobNode keyHdr s).activeNode = s.activeNode := by
  cases hblob : s.activeBlobNode with
  | none =>
    have heq : appendBlobNode keyHdr s = s := by
      unfold appendBlobNode
      rw [htrailing, hblob]
    rw [heq]
    refine ⟨rfl, ?_, rfl, hblob, rfl⟩
    unfold blobPos
    rw [hblob]
    exact (List.append_nil _).symm
  | some blob =>
    have heq : appendBlobNode keyHdr s =
        { s with pendingNodes := s.pendingNodes ++ [Node.blob blob], activeBlobNode := none } := by
      unfold appendBlobNode
      rw [htrailing, hblob]
    rw [heq]
    refine ⟨rfl, ?_, rfl, rfl, rfl⟩
    unfold pendingPos blobPos
    rw [hblob, List.map_append]
    rfl

theorem Ordered.appendBlobNode (htrailing : keyHdr.trailingHeaderOnly = true) {s : State}
    {current : List ℕ} (h : Ordered s current) : Ordered (appendBlobNode keyHdr s) current := by
  obtain ⟨hwritten, hpending, hprev, hblob, -⟩ := appendBlobNode_pos htrailing s
  have hblobPos : blobPos (KeyBuilder.appendBlobNode keyHdr s) = [] := by
    unfold blobPos
    rw [hblob]
    rfl
  refine ⟨?_, ?_, ?_, ?_⟩
  · rw [hwritten]
    exact h.sorted
  · rw [hwritten, hpending, hprev, hblobPos]
    intro w hw u hu
    apply h.before w hw
    simp only [List.append_nil, List.mem_append] at hu ⊢
    tauto
  · rw [hpending, hblobPos, List.append_nil]
    exact h.blobs
  · rw [hprev]
    exact h.leaves

theorem wouldPark_of_blob {s : State} (h : s.activeBlobNode = none) : wouldPark keyHdr s = false := by
  unfold wouldPark parks
  rw [h]
  split
  · rw [Bool.and_false]
  · rfl

/-- The state before the pending nodes are written. -/
def beforePending (keyHdr : KeyHdr) (s : State) : State :=
  flushLastNode keyHdr (writeBlobNode (flushActiveNode keyHdr (appendBlobNode keyHdr s)))

/-- The active leaf is flushed, if there is one. -/
theorem flushActiveNode_eq (s : State) : flushActiveNode keyHdr s = s ∧ s.activeNode = none ∨
    ∃ node, s.activeNode = some node ∧ flushActiveNode keyHdr s =
      { (flushNode keyHdr (some node) s.leafInfo s).2 with
        activeNode := none
        leafInfo := (flushNode keyHdr (some node) s.leafInfo s).1 } := by
  unfold flushActiveNode
  cases hactive : s.activeNode with
  | none => exact Or.inl ⟨rfl, rfl⟩
  | some node => exact Or.inr ⟨node, rfl, rfl⟩

theorem flushActiveNode_blob (s : State) :
    (flushActiveNode keyHdr s).activeBlobNode = s.activeBlobNode := by
  rcases @flushActiveNode_eq keyHdr s with ⟨heq, -⟩ | ⟨node, -, heq⟩
  · rw [heq]
  · obtain ⟨written, pending, prev, hframe, -⟩ := flushNode_frame keyHdr (some node) s.leafInfo s
    rw [heq, hframe]

theorem writeBlobNode_none {s : State} (h : s.activeBlobNode = none) : writeBlobNode s = s := by
  unfold writeBlobNode
  rw [h]

theorem Ordered.beforePending (htrailing : keyHdr.trailingHeaderOnly = true) {s : State}
    (hbalanced : Balanced keyHdr s) (h : Ordered s (activePos s)) :
    Ordered (beforePending keyHdr s) [] := by
  obtain ⟨n, hledger⟩ := hbalanced
  obtain ⟨-, -, -, hblob, hactive⟩ := appendBlobNode_pos htrailing s
  unfold activePos at h hledger
  rw [← hactive] at h hledger
  have hledger₁ := hledger.appendBlobNode
  have hordered₁ := h.appendBlobNode htrailing
  unfold KeyBuilder.beforePending
  set s₁ := KeyBuilder.appendBlobNode keyHdr s with hs₁
  have hblob₂ : (flushActiveNode keyHdr s₁).activeBlobNode = none := by
    rw [flushActiveNode_blob]
    exact hblob
  have hledger₂ := Ledger.flushActiveNode hledger₁
  have hordered₂ : Ordered (flushActiveNode keyHdr s₁) [] := by
    rcases @flushActiveNode_eq keyHdr s₁ with ⟨heq, hnone⟩ | ⟨node, hsome, heq⟩
    · rw [heq]
      rw [hnone] at hordered₁
      exact hordered₁
    · rw [hsome] at hordered₁ hledger₁
      have hflush := hordered₁.flushNode htrailing hledger₁ (wouldPark_of_blob hblob) s₁.leafInfo
      rw [heq]
      exact ⟨hflush.sorted, hflush.before, hflush.blobs, hflush.leaves⟩
  rw [writeBlobNode_none hblob₂]
  have hlast := @Ordered.flushNode keyHdr htrailing _ n none hledger₂ hordered₂
    (wouldPark_of_blob hblob₂) (flushActiveNode keyHdr s₁).leafInfo
  exact ⟨hlast.sorted, hlast.before, hlast.blobs, hlast.leaves⟩

/-- The state when all leaves and blob nodes are written. -/
structure LeavesWritten (s : State) : Prop where
  prev : s.prevLeafNode = none
  blob : s.activeBlobNode = none
  pending : s.pendingNodes = []

theorem flushLastNode_prev (s : State) : (flushLastNode keyHdr s).prevLeafNode = none := by
  obtain ⟨written, pending, prev, heq, hprev⟩ := flushNode_frame keyHdr none s.leafInfo s
  have hnone : prev = none := Option.map_eq_none_iff.mp hprev
  unfold flushLastNode
  simp only [heq, hnone]

theorem flushLastNode_blob (s : State) :
    (flushLastNode keyHdr s).activeBlobNode = s.activeBlobNode := by
  obtain ⟨written, pending, prev, heq, -⟩ := flushNode_frame keyHdr none s.leafInfo s
  unfold flushLastNode
  simp only [heq]

theorem leavesWritten (htrailing : keyHdr.trailingHeaderOnly = true) (s : State) :
    LeavesWritten (finishLeaves keyHdr s) := by
  obtain ⟨-, -, -, hblob, -⟩ := appendBlobNode_pos htrailing s
  have hblob₂ : (flushActiveNode keyHdr (appendBlobNode keyHdr s)).activeBlobNode = none := by
    rw [flushActiveNode_blob]
    exact hblob
  unfold finishLeaves writePendingNodes
  rw [htrailing]
  refine ⟨flushLastNode_prev _, ?_, rfl⟩
  show (flushLastNode keyHdr _).activeBlobNode = none
  rw [flushLastNode_blob, writeBlobNode_none hblob₂]
  exact hblob₂

/-- The pending nodes are written at the end. -/
theorem writtenPos_finishLeaves (htrailing : keyHdr.trailingHeaderOnly = true) (s : State) :
    writtenPos (finishLeaves keyHdr s) =
      writtenPos (beforePending keyHdr s) ++ pendingPos (beforePending keyHdr s) := by
  unfold finishLeaves writePendingNodes beforePending
  rw [htrailing]
  unfold writtenPos pendingPos
  simp only [if_true, List.map_append, List.map_map]
  rfl

theorem Ordered.finishLeaves (htrailing : keyHdr.trailingHeaderOnly = true) {s : State}
    (hbalanced : Balanced keyHdr s) (h : Ordered s (activePos s)) :
    (writtenPos (finishLeaves keyHdr s)).Pairwise (· < ·) := by
  have hordered := h.beforePending htrailing hbalanced
  rw [writtenPos_finishLeaves htrailing, List.pairwise_append]
  refine ⟨hordered.sorted, (List.pairwise_append.mp hordered.blobs).1, ?_⟩
  intro w hw u hu
  apply hordered.before w hw
  simp only [List.mem_append]
  tauto

/-- The entries for the leaves. -/
theorem flushNode_infos (node : Option WriteNode) (infos : List Entry) (s : State) :
    (flushNode keyHdr node infos s).1 =
      infos ++ s.prevLeafNode.toList.map (nodeInfo keyHdr) := by
  obtain ⟨written, pending, heq⟩ := flushPending_frame keyHdr s
  unfold flushNode
  rw [heq]
  simp only
  cases s.prevLeafNode with
  | none => exact (List.append_nil infos).symm
  | some prev =>
    simp only [nodeInfo_setRightSib]
    rfl

/-- The entries for leaves are made from leaves, and there is no metadata before the end. -/
def HasInfos (keyHdr : KeyHdr) (s : State) : Prop :=
  (∃ leaves : List WriteNode, s.leafInfo = leaves.map (nodeInfo keyHdr)) ∧ s.metadataHead = 0

theorem HasInfos.flushNode {s s' : State} (h : HasInfos keyHdr s) (node : Option WriteNode)
    (hinfo : s'.leafInfo = (flushNode keyHdr node s.leafInfo s).1)
    (hhead : s'.metadataHead = s.metadataHead) : HasInfos keyHdr s' := by
  obtain ⟨⟨leaves, hleaves⟩, hmeta⟩ := h
  refine ⟨⟨leaves ++ s.prevLeafNode.toList, ?_⟩, by rw [hhead, hmeta]⟩
  rw [hinfo, flushNode_infos, hleaves, List.map_append]

theorem HasInfos.prim {rows : List Entry} {s s' : State} (hprim : Prim keyHdr rows s s')
    (h : HasInfos keyHdr s) : HasInfos keyHdr s' := by
  cases hprim with
  | first => exact h
  | row => exact h
  | @flush _ node _ _ _ hactive hadd hadd' =>
    obtain ⟨written, pending, prev, heq, -⟩ := flushNode_frame keyHdr (some node) s.leafInfo s
    refine h.flushNode (some node) rfl ?_
    unfold allocate
    rw [heq]
  | newBlob =>
    obtain ⟨blobHead, leftSib, heq⟩ := newBlobNode_eq keyHdr s
    rw [heq]
    exact h
  | addBlob => exact h

theorem HasInfos.finishLeaves {s : State} (h : HasInfos keyHdr s) :
    HasInfos keyHdr (finishLeaves keyHdr s) := by
  have happend : HasInfos keyHdr (KeyBuilder.appendBlobNode keyHdr s) := by
    unfold KeyBuilder.appendBlobNode
    split <;> exact h
  have hactive : HasInfos keyHdr (flushActiveNode keyHdr (KeyBuilder.appendBlobNode keyHdr s)) := by
    rcases @flushActiveNode_eq keyHdr (KeyBuilder.appendBlobNode keyHdr s) with
      ⟨heq, -⟩ | ⟨node, -, heq⟩
    · rw [heq]
      exact happend
    · obtain ⟨written, pending, prev, hframe, -⟩ := flushNode_frame keyHdr (some node)
        (KeyBuilder.appendBlobNode keyHdr s).leafInfo (KeyBuilder.appendBlobNode keyHdr s)
      rw [heq]
      refine happend.flushNode (some node) rfl ?_
      rw [hframe]
  have hblob : HasInfos keyHdr
      (writeBlobNode (flushActiveNode keyHdr (KeyBuilder.appendBlobNode keyHdr s))) := by
    rw [writeBlobNode_eq]
    exact hactive
  have hlast : HasInfos keyHdr (flushLastNode keyHdr
      (writeBlobNode (flushActiveNode keyHdr (KeyBuilder.appendBlobNode keyHdr s)))) := by
    refine hblob.flushNode none rfl ?_
    obtain ⟨written, pending, prev, hframe, -⟩ := flushNode_frame keyHdr none
      (writeBlobNode (flushActiveNode keyHdr (KeyBuilder.appendBlobNode keyHdr s))).leafInfo
      (writeBlobNode (flushActiveNode keyHdr (KeyBuilder.appendBlobNode keyHdr s)))
    unfold flushLastNode
    simp only [hframe]
  unfold KeyBuilder.finishLeaves writePendingNodes
  split <;> exact hlast

/-! ## A leaf that waits -/

/-- A leaf has been written, or waits, and a blob node before it comes later. -/
def OutOfOrder (s : State) : Prop :=
  ∃ leaf blob, blob < leaf ∧ ([leaf, blob].Sublist (writtenPos s ++ pendingPos s) ∨
    leaf ∈ writtenPos s ++ pendingPos s ∧ blob ∈ blobPos s)

theorem flushNode_sublist (htrailing : keyHdr.trailingHeaderOnly = true)
    (node : Option WriteNode) (infos : List Entry) (s : State) :
    (writtenPos s ++ pendingPos s).Sublist (writtenPos (flushNode keyHdr node infos s).2 ++
      pendingPos (flushNode keyHdr node infos s).2) := by
  cases hprev : s.prevLeafNode with
  | none =>
    obtain ⟨hwritten, hpending⟩ := @flushNode_none_pos keyHdr s hprev node infos
    rw [hwritten, hpending]
  | some prev =>
    have hsplit : writtenPos s ++ pendingPos s = writtenPos s ++
        (pendingPos s).takeWhile (fun x => decide (x ≤ prev.fpos)) ++
        (pendingPos s).dropWhile fun x => decide (x ≤ prev.fpos) := by
      rw [List.append_assoc, List.takeWhile_append_dropWhile]
    rw [hsplit]
    cases hpark : parks keyHdr s prev with
    | false =>
      obtain ⟨hwritten, hpending⟩ := flushNode_writes_pos htrailing hprev hpark node infos
      rw [hwritten, hpending]
      exact (List.sublist_append_left _ _).append_right _
    | true =>
      obtain ⟨hwritten, hpending⟩ := flushNode_parks_pos htrailing hprev hpark node infos
      rw [hwritten, hpending, ← List.append_assoc]
      exact List.sublist_append_left _ _

theorem OutOfOrder.mono {s s' : State} (h : OutOfOrder s)
    (hsub : (writtenPos s ++ pendingPos s).Sublist (writtenPos s' ++ pendingPos s'))
    (hblob : blobPos s' = blobPos s) : OutOfOrder s' := by
  obtain ⟨leaf, blob, hlt, hsublist | ⟨hmem, hactive⟩⟩ := h
  · exact ⟨leaf, blob, hlt, Or.inl (hsublist.trans hsub)⟩
  · rw [← hblob] at hactive
    exact ⟨leaf, blob, hlt, Or.inr ⟨hsub.subset hmem, hactive⟩⟩

/-- The blob node comes after the leaf. -/
theorem pair_sublist {l l' : List ℕ} {a b : ℕ} (ha : a ∈ l) (hb : b ∈ l') :
    [a, b].Sublist (l ++ l') := by
  have h := (List.singleton_sublist.mpr ha).append (List.singleton_sublist.mpr hb)
  exact h

theorem OutOfOrder.prim (htrailing : keyHdr.trailingHeaderOnly = true) {rows : List Entry}
    {s s' : State} (hprim : Prim keyHdr rows s s') (h : OutOfOrder s) : OutOfOrder s' := by
  cases hprim with
  | first => exact h
  | row => exact h
  | @flush _ node _ _ _ hactive hadd hadd' =>
    have hnext := h.mono (flushNode_sublist htrailing (some node) s.leafInfo s)
      (flushNode_blobPos (some node) s.leafInfo s)
    exact hnext
  | newBlob =>
    obtain ⟨blobHead, leftSib, heq⟩ := newBlobNode_eq keyHdr s
    have hpending : pendingPos (newBlobNode keyHdr s) = pendingPos s ++ blobPos s := by
      rw [heq, htrailing]
      unfold pendingPos blobPos closedBlob
      simp only [if_true, List.map_append, List.map_map]
      rfl
    have hwritten : writtenPos (newBlobNode keyHdr s) = writtenPos s := by
      rw [heq, htrailing]
      rfl
    obtain ⟨leaf, blob, hlt, h⟩ := h
    refine ⟨leaf, blob, hlt, Or.inl ?_⟩
    rw [hwritten, hpending, ← List.append_assoc]
    rcases h with hsublist | ⟨hmem, hactive⟩
    · exact hsublist.trans (List.sublist_append_left _ _)
    · exact pair_sublist hmem hactive
  | @addBlob _ node node' _ _ _ hnode hadd =>
    refine h.mono (List.Sublist.refl _) ?_
    unfold blobPos
    rw [hnode]
    simp only [Option.toList_some, List.map_singleton]
    rw [(BlobWriteNode.add_fpos hadd).1]

/-- A leaf that has to wait is out of order. -/
theorem outOfOrder_of_park (htrailing : keyHdr.trailingHeaderOnly = true) {s : State}
    (hpark : wouldPark keyHdr s = true) (node : Option WriteNode) (infos : List Entry) :
    OutOfOrder (flushNode keyHdr node infos s).2 := by
  unfold wouldPark at hpark
  cases hprev : s.prevLeafNode with
  | none =>
    rw [hprev] at hpark
    cases hpark
  | some prev =>
    rw [hprev] at hpark
    simp only at hpark
    obtain ⟨hwritten, hpending⟩ := flushNode_parks_pos htrailing hprev hpark node infos
    unfold parks at hpark
    cases hblob : s.activeBlobNode with
    | none =>
      rw [hblob, Bool.and_false] at hpark
      cases hpark
    | some blob =>
      rw [hblob] at hpark
      have hlt : blob.fpos < prev.fpos := by simpa [htrailing] using hpark
      refine ⟨prev.fpos, blob.fpos, hlt, Or.inr ⟨?_, ?_⟩⟩
      · rw [hpending]
        simp
      · rw [flushNode_blobPos]
        unfold blobPos
        rw [hblob]
        exact List.mem_singleton_self _

/-- A step that makes a leaf wait. -/
theorem outOfOrder_prim (htrailing : keyHdr.trailingHeaderOnly = true) {rows : List Entry}
    {s s' : State} (hprim : Prim keyHdr rows s s') (hpark : wouldPark keyHdr s = true) {e : Entry}
    (he : rows = [e]) {node : WriteNode} (hactive : s.activeNode = some node)
    (hadd : node.add keyHdr e = none) : OutOfOrder s' := by
  cases hprim with
  | first hnone _ =>
    rw [hactive] at hnone
    cases hnone
  | row hsome htaken =>
    rw [hactive, Option.some.injEq] at hsome
    rw [List.cons.injEq] at he
    rw [← hsome, he.1, hadd] at htaken
    cases htaken
  | @flush _ node' _ _ _ _ _ _ => exact outOfOrder_of_park htrailing hpark (some node') s.leafInfo
  | newBlob => cases he
  | addBlob _ _ => cases he

/-- A run in which a leaf waits. -/
theorem outOfOrder_run (htrailing : keyHdr.trailingHeaderOnly = true) {calls : List Call}
    {s s' : State} {ids : List (List UInt8 × ℕ)}
    (h : OutOfOrder s ∨ neverParks keyHdr calls s = false)
    (hrun : run keyHdr calls s = some (s', ids)) : OutOfOrder s' := by
  induction calls generalizing s ids with
  | nil =>
    cases hrun
    rcases h with h | h
    · exact h
    · cases h
  | cons c calls ih =>
    unfold run at hrun
    simp only [Option.bind_eq_bind, Option.bind_eq_some_iff, Option.pure_def, Option.some.injEq,
      Prod.mk.injEq, Prod.exists] at hrun
    obtain ⟨s₁, ids₁, hcall, s₂, ids₂, hrest, rfl, -⟩ := hrun
    refine ih ?_ hrest
    unfold neverParks at h
    rw [hcall] at h
    simp only [Bool.and_eq_false_iff, Bool.not_eq_false'] at h
    cases c with
    | processKeyData keyData pos =>
      unfold step at hcall
      simp only [Option.bind_eq_bind, Option.bind_eq_some_iff, Option.pure_def, Option.some.injEq,
        Prod.mk.injEq] at hcall
      obtain ⟨s₁', hcall, rfl, -⟩ := hcall
      have hprim := prim_processKeyData hcall
      rcases h with h | h | h
      · exact Or.inl (h.prim htrailing hprim)
      · -- the row starts a new leaf while the previous one has to wait
        left
        unfold callParks startsLeaf at h
        rw [Bool.and_eq_true] at h
        obtain ⟨hstarts, hpark⟩ := h
        cases hactive : s.activeNode with
        | none =>
          rw [hactive] at hstarts
          cases hstarts
        | some node =>
          rw [hactive] at hstarts
          exact outOfOrder_prim htrailing hprim hpark rfl hactive (Option.isNone_iff_eq_none.mp hstarts)
      · exact Or.inr h
    | createBlob data =>
      unfold step at hcall
      simp only [Option.bind_eq_bind, Option.bind_eq_some_iff, Option.pure_def, Option.some.injEq,
        Prod.mk.injEq, Prod.exists] at hcall
      obtain ⟨s₁', id, hcall, rfl, -⟩ := hcall
      have hmany : ∀ a b, Relation.ReflTransGen (Prim keyHdr []) a b → OutOfOrder a →
          OutOfOrder b := by
        intro a b hab ha
        induction hab with
        | refl => exact ha
        | tail _ hprim ih => exact ih.prim htrailing hprim
      rcases h with h | h | h
      · exact Or.inl (hmany _ _ (prim_createBlob hcall) h)
      · cases h
      · exact Or.inr h

theorem OutOfOrder.finishLeaves (htrailing : keyHdr.trailingHeaderOnly = true) {s : State}
    (h : OutOfOrder s) : ∃ leaf blob, blob < leaf ∧
      [leaf, blob].Sublist (writtenPos (finishLeaves keyHdr s)) := by
  obtain ⟨leaf, blob, hlt, h⟩ := h
  refine ⟨leaf, blob, hlt, ?_⟩
  obtain ⟨hwritten, hpending, -, hblob, -⟩ := appendBlobNode_pos htrailing s
  have hlast : [leaf, blob].Sublist (writtenPos (appendBlobNode keyHdr s) ++
      pendingPos (appendBlobNode keyHdr s)) := by
    rw [hwritten, hpending, ← List.append_assoc]
    rcases h with hsublist | ⟨hmem, hactive⟩
    · exact hsublist.trans (List.sublist_append_left _ _)
    · exact pair_sublist hmem hactive
  rw [writtenPos_finishLeaves htrailing]
  unfold beforePending
  set s₁ := appendBlobNode keyHdr s
  have hblob₂ : (flushActiveNode keyHdr s₁).activeBlobNode = none := by
    rw [flushActiveNode_blob]
    exact hblob
  have hactive : (writtenPos s₁ ++ pendingPos s₁).Sublist
      (writtenPos (flushActiveNode keyHdr s₁) ++ pendingPos (flushActiveNode keyHdr s₁)) := by
    rcases @flushActiveNode_eq keyHdr s₁ with ⟨heq, -⟩ | ⟨node, -, heq⟩
    · rw [heq]
    · rw [heq]
      exact flushNode_sublist htrailing (some node) s₁.leafInfo s₁
  rw [writeBlobNode_none hblob₂]
  exact (hlast.trans hactive).trans (flushNode_sublist htrailing none _ _)

/-! ## The order of the file -/

theorem positions_getLast (nodeSize n : ℕ) :
    ((positions nodeSize n).getLast?.map (· + nodeSize)).getD nodeSize = (n + 1) * nodeSize := by
  cases n with
  | zero => simp [positions]
  | succ n =>
    rw [positions_succ, List.getLast?_concat]
    simp only [Option.map_some, Option.getD_some]
    ring

/-- The rest of `finish` keeps the order. -/
theorem inOrder_finish (htrailing : keyHdr.trailingHeaderOnly = true) {s s' : State} {n fuel : ℕ}
    {metadata : Option (List UInt8)} {tables : List (List UInt8)}
    (hledger : Ledger keyHdr (finishLeaves keyHdr s) [] n) (hinfos : HasInfos keyHdr (finishLeaves keyHdr s))
    (hpos : writtenPos (finishLeaves keyHdr s) = positions keyHdr.nodeSize n)
    (heq : finish keyHdr fuel metadata tables s = some s') : InOrder keyHdr s' := by
  have hwritten := leavesWritten htrailing s
  obtain ⟨⟨leaves, hleaves⟩, -⟩ := hinfos
  obtain ⟨s₁, s₂, levels, root, htree, hextends, rfl⟩ :=
    finish_spec (Or.inr ⟨hwritten.pending, hwritten.blob⟩) hwritten.prev hleaves heq
  obtain ⟨k, hfile, -, -⟩ := fileSpec_of_tree htree hextends
  have htell : tell keyHdr s₂ = s₂.nextPos := by
    apply tell_eq hfile
    intro _
    rw [tell_writtenPos, hpos, positions_getLast, hledger.nextPos_eq]
  unfold writeFileHeader
  rw [htrailing]
  simp only [Bool.true_or, if_true]
  refine ⟨⟨n + k + 1, ?_⟩, ⟨tell keyHdr s₂, List.getLast?_concat⟩, ?_⟩
  · have hpos₂ : writtenPos s₂ = positions keyHdr.nodeSize (n + k) := by
      rw [hfile.pos, hpos, positions_add, ← hledger.nextPos_eq]
    unfold writtenPos at hpos₂ ⊢
    simp only [List.map_append, List.map_singleton]
    rw [hpos₂, htell, hfile.next, hledger.nextPos_eq, positions_succ]
    rw [show (n + 1) * keyHdr.nodeSize + k * keyHdr.nodeSize = (n + k + 1) * keyHdr.nodeSize by ring]
  · exact hfile.pending.trans hwritten.pending

/-- A file that has been written from start to end. -/
theorem neverParks_of_inOrder (htrailing : keyHdr.trailingHeaderOnly = true) {startSequence : ℕ}
    {calls : List Call} {s s' : State} {ids : List (List UInt8 × ℕ)}
    (hrun : run keyHdr calls (init keyHdr startSequence) = some (s, ids)) {fuel : ℕ}
    {metadata : Option (List UInt8)} {tables : List (List UInt8)}
    (hinfos : HasInfos keyHdr (finishLeaves keyHdr s))
    (heq : finish keyHdr fuel metadata tables s = some s') (hinOrder : InOrder keyHdr s') :
    neverParks keyHdr calls (init keyHdr startSequence) = true := by
  have hwritten := leavesWritten htrailing s
  by_contra hparks
  rw [Bool.not_eq_true] at hparks
  obtain ⟨leaf, blob, hlt, hsub⟩ :=
    (outOfOrder_run htrailing (Or.inr hparks) hrun).finishLeaves htrailing
  obtain ⟨⟨leaves, hleaves⟩, -⟩ := hinfos
  obtain ⟨s₁, s₂, levels, root, htree, hextends, rfl⟩ :=
    finish_spec (Or.inr ⟨hwritten.pending, hwritten.blob⟩) hwritten.prev hleaves heq
  obtain ⟨k, hfile, -, -⟩ := fileSpec_of_tree htree hextends
  have hstart : (writtenPos (finishLeaves keyHdr s)).Sublist
      (writtenPos (writeFileHeader keyHdr s₂)) := by
    have hsub₂ : (writtenPos (finishLeaves keyHdr s)).Sublist (writtenPos s₂) := by
      rw [hfile.pos]
      exact List.sublist_append_left _ _
    unfold writeFileHeader
    split
    · apply hsub₂.trans
      unfold writtenPos
      simp only [List.map_append]
      exact List.sublist_append_left _ _
    · exact hsub₂
  obtain ⟨m, hm⟩ := hinOrder.pos
  have hsorted := pairwise_positions (nodeSize_pos keyHdr) m
  rw [← hm] at hsorted
  have hpair := hsorted.sublist (hsub.trans hstart)
  have hgt : leaf < blob := (List.pairwise_cons.mp hpair).1 blob (List.mem_singleton_self _)
  omega

theorem hasInfos_of_run {startSequence : ℕ} {calls : List Call} {s : State}
    {ids : List (List UInt8 × ℕ)} (h : run keyHdr calls (init keyHdr startSequence) = some (s, ids)) :
    HasInfos keyHdr (finishLeaves keyHdr s) := by
  apply HasInfos.finishLeaves
  exact @run_induction keyHdr (fun _ s => HasInfos keyHdr s) (fun _ _ _ _ hprim hs => hs.prim hprim)
    calls _ s ids [] ⟨⟨[], rfl⟩, rfl⟩ h

/-- The leaves and blob nodes of a run in which no leaf waits. -/
theorem writtenPos_of_neverParks (htrailing : keyHdr.trailingHeaderOnly = true) {startSequence : ℕ}
    {calls : List Call} {s : State} {ids : List (List UInt8 × ℕ)}
    (hrun : run keyHdr calls (init keyHdr startSequence) = some (s, ids))
    (hnever : neverParks keyHdr calls (init keyHdr startSequence) = true) :
    ∃ n, Ledger keyHdr (finishLeaves keyHdr s) [] n ∧
      writtenPos (finishLeaves keyHdr s) = positions keyHdr.nodeSize n := by
  have hbalanced := balanced_of_run hrun
  obtain ⟨n, hledger⟩ := hbalanced.finishLeaves
  have hwritten := leavesWritten htrailing s
  have hordered : Ordered s (activePos s) := by
    refine ordered_run htrailing (balanced_init startSequence) ?_ hnever hrun
    refine ⟨List.Pairwise.nil, ?_, List.Pairwise.nil, ?_⟩
    · intro w hw
      cases hw
    · intro p hp
      cases hp
  have htaken := hledger.taken_eq
  unfold taken pendingPos prevPos blobPos at htaken
  rw [hwritten.pending, hwritten.prev, hwritten.blob] at htaken
  simp only [List.map_nil, Option.toList_none, Multiset.coe_nil, add_zero] at htaken
  have hperm : (writtenPos (finishLeaves keyHdr s)).Perm (positions keyHdr.nodeSize n) :=
    Multiset.coe_eq_coe.mp htaken
  refine ⟨n, hledger, ?_⟩
  exact hperm.eq_of_pairwise (fun a b _ _ hab hba => absurd hba (lt_asymm hab))
    (hordered.finishLeaves htrailing hbalanced) (pairwise_positions (nodeSize_pos keyHdr) n)

end Order

/-- For an output that cannot seek and keys of which two fit a branch, `finish` ends, and the file
has been written from start to end if and only if no call starts a new leaf while the previous leaf
has to wait for a blob node in progress. -/
theorem inOrder_iff (keyHdr : KeyHdr) (htrailing : keyHdr.trailingHeaderOnly = true)
    (hfit : TwoFit keyHdr) (startSequence : ℕ) (calls : List Call) (s : State)
    (ids : List (List UInt8 × ℕ)) (hrun : run keyHdr calls (init keyHdr startSequence) = some (s, ids))
    (metadata : Option (List UInt8)) (hmeta : metadata ≠ some []) (tables : List (List UInt8)) :
    (∃ fuel s', finish keyHdr fuel metadata tables s = some s' ∧ InOrder keyHdr s') ↔
      neverParks keyHdr calls (init keyHdr startSequence) = true := by
  have hinfos := hasInfos_of_run hrun
  constructor
  · rintro ⟨fuel, s', heq, hinOrder⟩
    exact neverParks_of_inOrder htrailing hrun hinfos heq hinOrder
  · intro hnever
    obtain ⟨n, hledger, hpos⟩ := writtenPos_of_neverParks htrailing hrun hnever
    have hwritten := leavesWritten htrailing s
    obtain ⟨leaves, hleaves⟩ := hinfos.1
    obtain ⟨s', heq⟩ := finish_isSome hfit tables (Or.inr ⟨hwritten.pending, hwritten.blob⟩)
      hwritten.prev hleaves hinfos.2 hmeta
    exact ⟨_, s', heq, inOrder_finish htrailing hledger hinfos hpos heq⟩

/-- The header for small nodes, for an output that cannot seek. -/
def noSeekHdr : KeyHdr := { smallHdr with trailingHeaderOnly := true }

theorem inOrder_rowThenBlob : ∃ s ids,
    run noSeekHdr [smallRow 1, smallBlob, smallRow 2, smallRow 3] (init noSeekHdr 0) =
      some (s, ids) ∧ ∃ fuel s', finish noSeekHdr fuel none [] s = some s' ∧ InOrder noSeekHdr s' := by
  have hsome : (run noSeekHdr [smallRow 1, smallBlob, smallRow 2, smallRow 3]
      (init noSeekHdr 0)).isSome = true := by decide
  obtain ⟨⟨s, ids⟩, hrun⟩ := Option.isSome_iff_exists.mp hsome
  have hfit : TwoFit noSeekHdr := by
    unfold TwoFit
    decide
  exact ⟨s, ids, hrun, (inOrder_iff noSeekHdr rfl hfit 0 _ s ids hrun none (by decide) []).mpr
    (by decide)⟩

/-- A blob node in progress and three leaves after it: the first leaf is written before the blob
node. -/
theorem blobThenRows_order : ∃ s ids,
    run noSeekHdr [smallBlob, smallRow 1, smallRow 2, smallRow 3] (init noSeekHdr 0) =
      some (s, ids) ∧
      (finish noSeekHdr 5 none [] s).map writtenPos = some [560, 280, 840, 1120, 1400, 1680] ∧
      ∀ fuel s', finish noSeekHdr fuel none [] s = some s' → ¬ InOrder noSeekHdr s' := by
  have hall : (run noSeekHdr [smallBlob, smallRow 1, smallRow 2, smallRow 3] (init noSeekHdr 0)).map
      (fun r => (finish noSeekHdr 5 none [] r.1).map writtenPos) =
      some (some [560, 280, 840, 1120, 1400, 1680]) := by decide
  obtain ⟨⟨s, ids⟩, hrun, hfile⟩ := Option.map_eq_some_iff.mp hall
  refine ⟨s, ids, hrun, hfile, ?_⟩
  intro fuel s' hfinish hinOrder
  have hnever := neverParks_of_inOrder rfl hrun (hasInfos_of_run hrun) hfinish hinOrder
  revert hnever
  decide

end KeyBuilder

end HpccPlatform
