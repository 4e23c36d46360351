import HpccPlatform.Index.Builder

/-!
# The steps of the builder

A call of `processKeyData` is one of three steps, and a call of `createBlob` a sequence of two kinds
of steps.  What every step preserves is preserved by every run.
-/

namespace HpccPlatform

namespace KeyBuilder

/-- One step of the builder, with the row that it adds. -/
inductive Prim (keyHdr : KeyHdr) : List Entry → State → State → Prop
  /-- the first row -/
  | first {s : State} {node : WriteNode} {keyData : List UInt8} {pos : ℕ} :
    s.activeNode = none →
    (newNode true s).add keyHdr ⟨pos, keyData, s.sequence⟩ = some node →
    Prim keyHdr [⟨pos, keyData, s.sequence⟩] s
      { allocate keyHdr { s with firstLeaf := s.nextPos } with
        activeNode := some node, sequence := s.sequence + 1 }
  /-- a row that the active leaf takes -/
  | row {s : State} {node node' : WriteNode} {keyData : List UInt8} {pos : ℕ} :
    s.activeNode = some node → node.add keyHdr ⟨pos, keyData, s.sequence⟩ = some node' →
    Prim keyHdr [⟨pos, keyData, s.sequence⟩] s
      { s with activeNode := some node', sequence := s.sequence + 1 }
  /-- a row that starts a new leaf -/
  | flush {s : State} {node node' : WriteNode} {keyData : List UInt8} {pos : ℕ} :
    s.activeNode = some node → node.add keyHdr ⟨pos, keyData, s.sequence⟩ = none →
    (newNode true s).add keyHdr ⟨pos, keyData, s.sequence⟩ = some node' →
    Prim keyHdr [⟨pos, keyData, s.sequence⟩] s
      { allocate keyHdr (flushNode keyHdr (some node) s.leafInfo s).2 with
        activeNode := some node'
        leafInfo := (flushNode keyHdr (some node) s.leafInfo s).1
        sequence := s.sequence + 1 }
  /-- a new blob node -/
  | newBlob {s : State} : Prim keyHdr [] s (newBlobNode keyHdr s)
  /-- data for the blob node in progress -/
  | addBlob {s : State} {node node' : BlobWriteNode} {data : List UInt8} {head written : ℕ} :
    s.activeBlobNode = some node → node.add keyHdr.refuses data = some (node', head, written) →
    Prim keyHdr [] s { s with activeBlobNode := some node' }

/-- The rows of a list of calls. -/
def rowsOf : ℕ → List Call → List Entry
  | _, [] => []
  | sequence, .processKeyData keyData pos :: calls =>
    ⟨pos, keyData, sequence⟩ :: rowsOf (sequence + 1) calls
  | sequence, .createBlob _ :: calls => rowsOf sequence calls

section Steps

variable {keyHdr : KeyHdr}

theorem WriteNode.add_eq_some {e : Entry} {node node' : WriteNode}
    (h : node.add keyHdr e = some node') :
    node.hasRoom keyHdr e = true ∧ node' = { node with entries := node.entries ++ [e] } := by
  unfold WriteNode.add at h
  by_cases hroom : node.hasRoom keyHdr e = true
  · rw [if_pos hroom, Option.some.injEq] at h
    exact ⟨hroom, h.symm⟩
  · rw [if_neg hroom] at h
    cases h

theorem WriteNode.add_fpos {e : Entry} {node node' : WriteNode}
    (h : node.add keyHdr e = some node') : node'.fpos = node.fpos := by
  rw [(WriteNode.add_eq_some h).2]

theorem BlobWriteNode.add_fpos {refuses : ℕ → List UInt8 → List UInt8 → Bool} {data : List UInt8}
    {node node' : BlobWriteNode} {head written : ℕ}
    (h : node.add refuses data = some (node', head, written)) :
    node'.fpos = node.fpos ∧ node'.leftSib = node.leftSib ∧ node'.rightSib = node.rightSib := by
  unfold BlobWriteNode.add at h
  simp only [Option.bind_eq_bind, Option.bind_eq_some_iff, Option.pure_def, Option.some.injEq,
    Prod.mk.injEq] at h
  obtain ⟨_, _, rfl, _⟩ := h
  exact ⟨rfl, rfl, rfl⟩

variable (keyHdr)

/-- What `flushPending` leaves alone. -/
theorem flushPending_frame (s : State) : ∃ written pending, flushPending keyHdr s =
    { s with written := written, pendingNodes := pending } := by
  unfold flushPending
  split
  · exact ⟨_, _, rfl⟩
  · exact ⟨s.written, s.pendingNodes, rfl⟩

/-- What `flushNode` leaves alone. -/
theorem flushNode_frame (node : Option WriteNode) (infos : List Entry) (s : State) :
    ∃ written pending prev, (flushNode keyHdr node infos s).2 =
      { s with written := written, pendingNodes := pending, prevLeafNode := prev } ∧
      prev.map WriteNode.fpos = node.map WriteNode.fpos := by
  obtain ⟨written, pending, heq⟩ := flushPending_frame keyHdr s
  unfold flushNode
  rw [heq]
  simp only
  cases s.prevLeafNode with
  | none => exact ⟨written, pending, node, rfl, rfl⟩
  | some prev =>
    simp only
    split
    · refine ⟨_, _, _, rfl, ?_⟩
      rw [Option.map_map]
      rfl
    · refine ⟨_, _, _, rfl, ?_⟩
      rw [Option.map_map]
      rfl

/-- The blob node in progress, when the next one is created. -/
def closedBlob (s : State) : List BlobWriteNode :=
  s.activeBlobNode.toList.map fun blob => { blob with rightSib := s.nextPos }

/-- What `newBlobNode` does. -/
theorem newBlobNode_eq (s : State) : ∃ blobHead leftSib, newBlobNode keyHdr s =
    { s with
      nextPos := s.nextPos + keyHdr.nodeSize
      blobHead := blobHead
      activeBlobNode := some ⟨s.nextPos, leftSib, 0, .openBlob⟩
      pendingNodes := if keyHdr.trailingHeaderOnly then s.pendingNodes ++ (closedBlob s).map .blob
        else s.pendingNodes
      written := if keyHdr.trailingHeaderOnly then s.written
        else s.written ++ (closedBlob s).map fun blob => (blob.fpos, .blob blob) } := by
  unfold newBlobNode closedBlob
  cases hblob : s.activeBlobNode with
  | none =>
    refine ⟨if s.blobHead = 0 then s.nextPos else s.blobHead, 0, ?_⟩
    simp only [Option.toList_none, List.map_nil, List.append_nil, ite_self]
    rfl
  | some prev =>
    refine ⟨if s.blobHead = 0 then s.nextPos else s.blobHead, prev.fpos, ?_⟩
    simp only [Option.toList_some, List.map_singleton]
    cases keyHdr.trailingHeaderOnly <;> rfl

variable {keyHdr}

/-! ## Calls as steps -/

theorem prim_processKeyData {keyData : List UInt8} {pos : ℕ} {s s' : State}
    (h : processKeyData keyHdr keyData pos s = some s') :
    Prim keyHdr [⟨pos, keyData, s.sequence⟩] s s' := by
  unfold processKeyData at h
  simp only [Option.bind_eq_bind, Option.bind_eq_some_iff, Prod.exists] at h
  obtain ⟨node, s₁, hleaf, h⟩ := h
  unfold activeLeaf at hleaf
  cases hactive : s.activeNode with
  | none =>
    rw [hactive] at hleaf
    simp only [Option.some.injEq, Prod.mk.injEq] at hleaf
    obtain ⟨rfl, rfl⟩ := hleaf
    cases hadd : (newNode true s).add keyHdr ⟨pos, keyData, s.sequence⟩ with
    | some node' =>
      simp only [allocate, hadd, Option.pure_def, Option.some.injEq] at h
      subst h
      have hprim := Prim.first hactive hadd
      rw [hactive] at hprim
      exact hprim
    | none =>
      -- a row that does not fit an empty leaf does not fit the next one either
      simp only [allocate, hadd, Option.bind_eq_some_iff] at h
      obtain ⟨node', hadd', -⟩ := h
      have hroom : (newNode true s).hasRoom keyHdr ⟨pos, keyData, s.sequence⟩ = true :=
        (WriteNode.add_eq_some hadd').1
      unfold WriteNode.add at hadd
      rw [if_pos hroom] at hadd
      cases hadd
  | some node₀ =>
    rw [hactive] at hleaf
    simp only at hleaf
    by_cases hsorted : notSorted keyHdr keyData node₀ = true
    · rw [if_pos hsorted] at hleaf
      cases hleaf
    · rw [if_neg hsorted] at hleaf
      simp only [Option.some.injEq, Prod.mk.injEq] at hleaf
      obtain ⟨rfl, rfl⟩ := hleaf
      cases hadd : node₀.add keyHdr ⟨pos, keyData, s.sequence⟩ with
      | some node' =>
        simp only [hadd, Option.pure_def, Option.some.injEq] at h
        subst h
        exact Prim.row hactive hadd
      | none =>
        simp only [hadd, Option.bind_eq_some_iff, Option.pure_def, Option.some.injEq] at h
        obtain ⟨node', hadd', rfl⟩ := h
        obtain ⟨written, pending, prev, heq, -⟩ := flushNode_frame keyHdr (some node₀) s.leafInfo s
        have hnew : (newNode true s).add keyHdr ⟨pos, keyData, s.sequence⟩ = some node' := by
          rw [← hadd']
          unfold newNode
          rw [heq]
        have hprim := Prim.flush hactive hadd hnew
        have hseq : (flushNode keyHdr (some node₀) s.leafInfo s).2.sequence = s.sequence := by
          rw [heq]
        simp only [allocate, hseq] at hprim ⊢
        exact hprim

theorem prim_addBlob {data rest : List UInt8} {s s' : State} {head : ℕ}
    (h : addBlob keyHdr data s = some (s', head, rest)) : Prim keyHdr [] s s' := by
  unfold addBlob at h
  simp only [Option.bind_eq_bind, Option.bind_eq_some_iff, Option.pure_def, Option.some.injEq,
    Prod.mk.injEq, Prod.exists] at h
  obtain ⟨node, hnode, node', head', written, hadd, rfl, -⟩ := h
  exact Prim.addBlob hnode hadd

theorem prim_createBlob_loop {fuel : ℕ} {data : List UInt8} {s s' : State}
    (h : createBlob.loop keyHdr fuel data s = some s') :
    Relation.ReflTransGen (Prim keyHdr []) s s' := by
  induction fuel generalizing data s with
  | zero =>
    unfold createBlob.loop at h
    split at h
    · cases h
      exact Relation.ReflTransGen.refl
    · cases h
  | succ fuel ih =>
    unfold createBlob.loop at h
    split at h
    · cases h
      exact Relation.ReflTransGen.refl
    · simp only [Option.bind_eq_bind, Option.bind_eq_some_iff, Prod.exists] at h
      obtain ⟨s₁, head, rest, hadd, h⟩ := h
      split at h
      · cases h
      · exact ((Relation.ReflTransGen.single Prim.newBlob).tail (prim_addBlob hadd)).trans (ih h)

theorem prim_createBlob {data : List UInt8} {s s' : State} {id : ℕ}
    (h : createBlob keyHdr data s = some (s', id)) : Relation.ReflTransGen (Prim keyHdr []) s s' := by
  unfold createBlob at h
  by_cases hdata : data = []
  · rw [if_pos hdata] at h
    cases h
    exact Relation.ReflTransGen.refl
  · rw [if_neg hdata] at h
    simp only [Option.bind_eq_bind, Option.bind_eq_some_iff, Prod.exists] at h
    obtain ⟨s₁, head₁, rest₁, hadd, s₂, head₂, rest₂, hagain, h⟩ := h
    have hopen : Relation.ReflTransGen (Prim keyHdr []) s (openBlobNode keyHdr s) := by
      unfold openBlobNode
      split
      · exact Relation.ReflTransGen.single Prim.newBlob
      · exact Relation.ReflTransGen.refl
    have hsecond : Relation.ReflTransGen (Prim keyHdr []) s₁ s₂ := by
      unfold retryBlob at hagain
      split at hagain
      · exact (Relation.ReflTransGen.single Prim.newBlob).tail (prim_addBlob hagain)
      · cases hagain
        exact Relation.ReflTransGen.refl
    split at h
    · cases h
    · simp only [Option.bind_eq_some_iff, Option.pure_def, Option.some.injEq, Prod.mk.injEq] at h
      obtain ⟨s₃, hloop, rfl, -⟩ := h
      exact ((hopen.tail (prim_addBlob hadd)).trans hsecond).trans (prim_createBlob_loop hloop)

theorem Prim.sequence_eq {rows : List Entry} {s s' : State} (h : Prim keyHdr rows s s') :
    s'.sequence = s.sequence + rows.length := by
  cases h with
  | first => rfl
  | row => rfl
  | flush => rfl
  | newBlob =>
    obtain ⟨blobHead, leftSib, heq⟩ := newBlobNode_eq keyHdr s
    rw [heq]
    rfl
  | addBlob => rfl

/-- What every step preserves holds after every run. -/
theorem run_induction {P : List Entry → State → Prop}
    (hstep : ∀ rows new s s', Prim keyHdr new s s' → P rows s → P (rows ++ new) s')
    {calls : List Call} {s s' : State} {ids : List (List UInt8 × ℕ)} {rows : List Entry}
    (hs : P rows s) (h : run keyHdr calls s = some (s', ids)) :
    P (rows ++ rowsOf s.sequence calls) s' := by
  have hblob : ∀ rows a b, Relation.ReflTransGen (Prim keyHdr []) a b → P rows a →
      P rows b ∧ b.sequence = a.sequence := by
    intro rows a b hab ha
    induction hab with
    | refl => exact ⟨ha, rfl⟩
    | tail _ hprim ih =>
      have hnext := hstep _ _ _ _ hprim ih.1
      rw [List.append_nil] at hnext
      exact ⟨hnext, hprim.sequence_eq.trans ih.2⟩
  induction calls generalizing s ids rows with
  | nil =>
    cases h
    rw [rowsOf, List.append_nil]
    exact hs
  | cons c calls ih =>
    unfold run at h
    simp only [Option.bind_eq_bind, Option.bind_eq_some_iff, Option.pure_def, Option.some.injEq,
      Prod.mk.injEq, Prod.exists] at h
    obtain ⟨s₁, ids₁, hcall, s₂, ids₂, hrun, rfl, -⟩ := h
    cases c with
    | processKeyData keyData pos =>
      unfold step at hcall
      simp only [Option.bind_eq_bind, Option.bind_eq_some_iff, Option.pure_def, Option.some.injEq,
        Prod.mk.injEq] at hcall
      obtain ⟨s₁', hcall, rfl, -⟩ := hcall
      have hprim := prim_processKeyData hcall
      have hrest := ih (hstep _ _ _ _ hprim hs) hrun
      rw [hprim.sequence_eq, List.append_assoc] at hrest
      exact hrest
    | createBlob data =>
      unfold step at hcall
      simp only [Option.bind_eq_bind, Option.bind_eq_some_iff, Option.pure_def, Option.some.injEq,
        Prod.mk.injEq, Prod.exists] at hcall
      obtain ⟨s₁', id, hcall, rfl, -⟩ := hcall
      obtain ⟨hP, hseq⟩ := hblob rows _ _ (prim_createBlob hcall) hs
      have hrest := ih hP hrun
      rw [hseq] at hrest
      exact hrest

end Steps

end KeyBuilder

end HpccPlatform
