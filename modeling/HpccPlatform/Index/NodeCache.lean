import Mathlib

/-!
# The memory account of the node cache

`CNodeCache` of `system/jhtree/jhtree.cpp` keeps the nodes of indexes in memory: three caches, one
for each kind of node, that share nothing.  This file is about one of them, a `CNodeMRUCache` with
its lock, used by any number of callers of `getNode`.

A node is put into the table before it is loaded, and its size is added to the account in two parts:
a fixed overhead under the lock of the cache, and the size of its contents when it has been loaded,
under another lock.  In between the node can be removed from the table, by `clear` or by a caller
that failed to load it.  The account is exact in every run in which no node is loaded that has been
removed from the table, and no failed load leaves a size behind.
-/

namespace HpccPlatform

namespace NodeCache

/-! ## The cache -/

/-- A `CJHTreeNode`, as far as the cache sees it. -/
structure Node where
  ready : Bool
  memSize : ℕ

/-- A `CNodeMapping`: the key id and file position, and the node object. -/
structure Mapping where
  key : ℕ × ℕ
  node : ℕ
  deriving DecidableEq

/-- A call of `getNode` that is in progress: the node it got from the cache, and whether an
exception has been thrown. -/
structure Call where
  key : ℕ × ℕ
  node : ℕ
  threw : Bool

/-- A cache and its callers.  The mappings are in the order of `mruList`, the least recently used
one first; the table has the same mappings.  Sizes are of type `size32_t`. -/
structure State where
  mappings : List Mapping
  sizeInMem : ℕ
  memLimit : ℕ
  node : ℕ → Node
  /-- the number of node objects that have been created -/
  created : ℕ
  /-- the calls in progress, by the thread that makes them -/
  call : ℕ → Option Call
  /-- `assertex(tail)` has failed -/
  failed : Bool

section Model

variable (overhead : ℕ)

/-- `FIXED_NODE_OVERHEAD+node.getMemSize()` -/
def nodeSize (node : ℕ → Node) (m : Mapping) : ℕ := overhead + (node m.node).memSize

/-- `sizeInMem += size` -/
def added (sizeInMem size : ℕ) : ℕ := (sizeInMem + size) % 2 ^ 32

/-- `sizeInMem -= size` -/
def removed (sizeInMem size : ℕ) : ℕ := (sizeInMem + (2 ^ 32 - size % 2 ^ 32)) % 2 ^ 32

/-- `full()` -/
def full (memLimit sizeInMem : ℕ) : Bool := memLimit != 2 ^ 32 - 1 && decide (memLimit < sizeInMem)

/-- `makeSpace()`: the mappings and the size that are left; `none` when there is no tail. -/
def makeSpace (node : ℕ → Node) (memLimit : ℕ) : List Mapping → ℕ → Option (List Mapping × ℕ)
  | [], _ => none
  | tail :: rest, sizeInMem =>
    if (node tail.node).ready then
      let sizeInMem := removed sizeInMem (nodeSize overhead node tail)
      if full memLimit sizeInMem then makeSpace node memLimit rest sizeInMem
      else some (rest, sizeInMem)
    else some (tail :: rest, sizeInMem)

/-- `if (full()) makeSpace();` -/
def reduce (s : State) : State :=
  if full s.memLimit s.sizeInMem then
    match makeSpace overhead s.node s.memLimit s.mappings s.sizeInMem with
    | some (mappings, sizeInMem) => { s with mappings := mappings, sizeInMem := sizeInMem }
    | none => { s with failed := true }
  else s

/-- `setMemLimit(memLimit)`, under the lock of the cache. -/
def setMemLimit (memLimit : ℕ) (s : State) : State :=
  reduce overhead { s with memLimit := memLimit }

/-- `kill()`, under the lock of the cache: all mappings are removed, one after the other. -/
def kill (s : State) : State :=
  { s with
    mappings := []
    sizeInMem := s.mappings.foldl
      (fun size m => removed size (nodeSize overhead s.node m)) s.sizeInMem }

/-- `replace(key, entry)` for a new node. -/
def replace (key : ℕ × ℕ) (s : State) : State :=
  let s := reduce overhead s
  { s with
    mappings := s.mappings ++ [⟨key, s.created⟩]
    sizeInMem := added s.sizeInMem (nodeSize overhead s.node ⟨key, s.created⟩)
    created := s.created + 1 }

/-- `remove(key)` -/
def removeKey (key : ℕ × ℕ) (s : State) : State :=
  match s.mappings.find? (·.key = key) with
  | none => s
  | some m =>
    { s with
      mappings := s.mappings.erase m
      sizeInMem := removed s.sizeInMem (nodeSize overhead s.node m) }

/-- The first part of `getNode`, under the lock of the cache: the node of the key is promoted, or a
new one is created. -/
def enter (thread : ℕ) (key : ℕ × ℕ) (s : State) : State :=
  match s.mappings.find? (·.key = key) with
  | some m =>
    { s with
      mappings := s.mappings.erase m ++ [m]
      call := Function.update s.call thread (some ⟨key, m.node, false⟩) }
  | none =>
    let new : State := { s with node := Function.update s.node s.created ⟨false, 0⟩ }
    let s' := replace overhead key new
    { s' with call := Function.update s'.call thread (some ⟨key, s.created, false⟩) }

/-- The load of a node, under the lock that belongs to its key: it succeeds, with the memory size of
the node, or throws an exception and leaves a memory size behind. -/
inductive Load where
  | loaded (memSize : ℕ)
  | threw (memSize : ℕ)

/-- `if (!ownedNode->isReady()) { loadNode; noteReady; }` -/
def load (thread : ℕ) (c : Call) (l : Load) (s : State) : State :=
  if (s.node c.node).ready then s
  else
    match l with
    | .loaded memSize =>
      { s with
        node := Function.update s.node c.node ⟨true, memSize⟩
        sizeInMem := added s.sizeInMem memSize }
    | .threw memSize =>
      { s with
        node := Function.update s.node c.node ⟨false, memSize⟩
        call := Function.update s.call thread (some { c with threw := true }) }

/-- The exception handler of `getNode`, under the lock of the cache. -/
def cleanUp (thread : ℕ) (c : Call) (s : State) : State :=
  let s := { s with call := Function.update s.call thread none }
  if (s.node c.node).ready then s else removeKey overhead c.key s

/-! ## Runs -/

/-- The steps of the callers and of the cache. -/
inductive Event where
  /-- a thread calls `getNode` -/
  | enter (thread : ℕ) (key : ℕ × ℕ)
  /-- the thread takes the lock for loading -/
  | load (thread : ℕ) (result : Load)
  /-- an exception outside the load, for example in `noteStatistic` -/
  | throw (thread : ℕ)
  /-- the exception handler -/
  | cleanUp (thread : ℕ)
  /-- the node is ready and `getNode` returns it -/
  | leave (thread : ℕ)
  | clear
  | setCacheMem (memLimit : ℕ)

/-- The state after a step; a step that a thread cannot make changes nothing. -/
def step (s : State) : Event → State
  | .enter thread key =>
    match s.call thread with
    | none => enter overhead thread key s
    | some _ => s
  | .load thread result =>
    match s.call thread with
    | some c => if c.threw then s else load thread c result s
    | none => s
  | .throw thread =>
    match s.call thread with
    | some c => { s with call := Function.update s.call thread (some { c with threw := true }) }
    | none => s
  | .cleanUp thread =>
    match s.call thread with
    | some c => if c.threw then cleanUp overhead thread c s else s
    | none => s
  | .leave thread =>
    match s.call thread with
    | some c =>
      if !c.threw && (s.node c.node).ready then
        { s with call := Function.update s.call thread none }
      else s
    | none => s
  | .clear => kill overhead s
  | .setCacheMem memLimit => setMemLimit overhead memLimit s

/-- An empty cache. -/
def init (memLimit : ℕ) : State where
  mappings := []
  sizeInMem := 0
  memLimit := memLimit
  node := fun _ => ⟨false, 0⟩
  created := 0
  call := fun _ => none
  failed := false

/-- The state after the given steps, of which the last one comes first. -/
def run (memLimit : ℕ) : List Event → State
  | [] => init memLimit
  | e :: es => step overhead (run memLimit es) e

/-- The memory sizes of the nodes in the table, with their overheads. -/
def total (s : State) : ℕ := (s.mappings.map (nodeSize overhead s.node)).sum

/-- The node is in the table. -/
def InTable (s : State) (node : ℕ) : Prop := ∃ m ∈ s.mappings, m.node = node

/-- The account of a cache without callers: it is the size of the nodes in the table, these are all
ready, and the next `replace` does not fail. -/
structure Exact (s : State) : Prop where
  sizeInMem_eq : s.sizeInMem = total overhead s % 2 ^ 32
  ready : ∀ m ∈ s.mappings, (s.node m.node).ready = true
  replace : ∀ key, (replace overhead key s).failed = false

/-- A load that succeeds is one of a node that is still in the table, and one that fails leaves a
node of the table without a memory size. -/
def LoadsTabled (s : State) : Event → Prop
  | .load thread (.loaded _) =>
    ∀ c ∈ s.call thread, c.threw = false → (s.node c.node).ready = false → InTable s c.node
  | .load thread (.threw memSize) =>
    ∀ c ∈ s.call thread, c.threw = false → (s.node c.node).ready = false → InTable s c.node →
      memSize = 0
  | _ => True

/-- Every load of a run is of that kind. -/
def TabledRun (memLimit : ℕ) : List Event → Prop
  | [] => True
  | e :: es => TabledRun memLimit es ∧ LoadsTabled (run overhead memLimit es) e

/-! ## The account -/

theorem removed_add (a t : ℕ) : removed ((a + t) % 2 ^ 32) a = t % 2 ^ 32 := by
  unfold removed
  omega

theorem added_mod (t a : ℕ) : added (t % 2 ^ 32) a = (t + a) % 2 ^ 32 := by
  unfold added
  omega

theorem pos_of_full {memLimit sizeInMem : ℕ} (h : full memLimit sizeInMem = true) :
    0 < sizeInMem := by
  unfold full at h
  have hlt : memLimit < sizeInMem := by simpa using (Bool.and_eq_true_iff.mp h).2
  omega

variable {overhead}

/-- The sum of the sizes of the given mappings. -/
def listTotal (overhead : ℕ) (node : ℕ → Node) (l : List Mapping) : ℕ :=
  (l.map (nodeSize overhead node)).sum

theorem listTotal_cons (node : ℕ → Node) (m : Mapping) (l : List Mapping) :
    listTotal overhead node (m :: l) = nodeSize overhead node m + listTotal overhead node l := by
  unfold listTotal
  rw [List.map_cons, List.sum_cons]

theorem listTotal_append (node : ℕ → Node) (l l' : List Mapping) :
    listTotal overhead node (l ++ l') = listTotal overhead node l + listTotal overhead node l' := by
  unfold listTotal
  rw [List.map_append, List.sum_append]

theorem listTotal_erase (node : ℕ → Node) {m : Mapping} {l : List Mapping} (h : m ∈ l) :
    nodeSize overhead node m + listTotal overhead node (l.erase m) = listTotal overhead node l := by
  unfold listTotal
  exact List.sum_map_erase (nodeSize overhead node) h

/-- A change of the nodes that are not in the list does not change its total. -/
theorem listTotal_congr {node node' : ℕ → Node} {l : List Mapping}
    (h : ∀ m ∈ l, node' m.node = node m.node) :
    listTotal overhead node' l = listTotal overhead node l := by
  unfold listTotal
  congr 1
  apply List.map_congr_left
  intro m hm
  unfold nodeSize
  rw [h m hm]

/-- `makeSpace` finds a tail, removes mappings from the end of the list, and keeps the account. -/
theorem makeSpace_spec (node : ℕ → Node) (memLimit : ℕ) (l : List Mapping) {sizeInMem : ℕ}
    (hsize : sizeInMem = listTotal overhead node l % 2 ^ 32)
    (hfull : full memLimit sizeInMem = true) :
    ∃ rest, makeSpace overhead node memLimit l sizeInMem =
      some (rest, listTotal overhead node rest % 2 ^ 32) ∧ rest <:+ l := by
  induction l generalizing sizeInMem with
  | nil =>
    -- an empty list has the size 0, which is not above the limit
    have hpos := pos_of_full hfull
    rw [hsize] at hpos
    simp [listTotal] at hpos
  | cons tail rest ih =>
    unfold makeSpace
    by_cases hready : (node tail.node).ready = true
    · rw [if_pos hready]
      have hleft : removed sizeInMem (nodeSize overhead node tail) =
          listTotal overhead node rest % 2 ^ 32 := by
        rw [hsize, listTotal_cons]
        exact removed_add _ _
      by_cases hagain : full memLimit (removed sizeInMem (nodeSize overhead node tail)) = true
      · obtain ⟨rest', hrest', hsuffix⟩ := ih hleft hagain
        refine ⟨rest', ?_, hsuffix.trans (List.suffix_cons tail rest)⟩
        rw [if_pos hagain]
        exact hrest'
      · refine ⟨rest, ?_, List.suffix_cons tail rest⟩
        rw [if_neg hagain, hleft]
    · refine ⟨tail :: rest, ?_, List.suffix_refl _⟩
      rw [if_neg hready, hsize]

/-- `kill` takes the sizes of all mappings off the account. -/
theorem foldl_removed (node : ℕ → Node) (l : List Mapping) (t : ℕ) :
    l.foldl (fun size m => removed size (nodeSize overhead node m))
      ((listTotal overhead node l + t) % 2 ^ 32) = t % 2 ^ 32 := by
  induction l generalizing t with
  | nil => simp [listTotal]
  | cons m l ih =>
    rw [List.foldl_cons, listTotal_cons, add_assoc, removed_add]
    exact ih t

/-! ## The invariant of a run -/

/-- The invariant: the account is the size of the table, a key and a node have one mapping, and a
node of the table that is not ready has no size and is held by a call for its key. -/
structure Inv (overhead : ℕ) (s : State) : Prop where
  size : s.sizeInMem = listTotal overhead s.node s.mappings % 2 ^ 32
  distinct : s.mappings.Pairwise (fun a b => a.key ≠ b.key ∧ a.node ≠ b.node)
  created : ∀ m ∈ s.mappings, m.node < s.created
  pending : ∀ m ∈ s.mappings, (s.node m.node).ready = false →
    (s.node m.node).memSize = 0 ∧ ∃ thread c, s.call thread = some c ∧ c.key = m.key ∧ c.node = m.node
  callCreated : ∀ thread c, s.call thread = some c → c.node < s.created
  callKey : ∀ thread c, s.call thread = some c → ∀ m ∈ s.mappings, m.node = c.node → m.key = c.key
  failed : s.failed = false

theorem inv_init (memLimit : ℕ) : Inv overhead (init memLimit) where
  size := rfl
  distinct := List.Pairwise.nil
  created := by
    intro m hm
    cases hm
  pending := by
    intro m hm
    cases hm
  callCreated := by
    intro thread c hc
    cases hc
  callKey := by
    intro thread c hc
    cases hc
  failed := rfl

/-- The mappings of the table with one key are one mapping. -/
theorem Inv.eq_of_key {s : State} (h : Inv overhead s) {a b : Mapping} (ha : a ∈ s.mappings)
    (hb : b ∈ s.mappings) (hkey : a.key = b.key) : a = b := by
  by_contra hne
  have hsymm : Std.Symm (fun a b : Mapping => a.key ≠ b.key ∧ a.node ≠ b.node) :=
    ⟨fun a b hab => ⟨hab.1.symm, hab.2.symm⟩⟩
  exact (h.distinct.forall ha hb hne).1 hkey

/-- The mappings of the table with one node are one mapping. -/
theorem Inv.eq_of_node {s : State} (h : Inv overhead s) {a b : Mapping} (ha : a ∈ s.mappings)
    (hb : b ∈ s.mappings) (hnode : a.node = b.node) : a = b := by
  by_contra hne
  have hsymm : Std.Symm (fun a b : Mapping => a.key ≠ b.key ∧ a.node ≠ b.node) :=
    ⟨fun a b hab => ⟨hab.1.symm, hab.2.symm⟩⟩
  exact (h.distinct.forall ha hb hne).2 hnode

/-- A step that only removes mappings, with their sizes, and whose calls are calls from before it
keeps the invariant, if no call is lost that holds a node which is not ready. -/
theorem Inv.subperm {s s' : State} (h : Inv overhead s)
    (hmappings : List.Subperm s'.mappings s.mappings)
    (hsize : s'.sizeInMem = listTotal overhead s.node s'.mappings % 2 ^ 32)
    (hnode : ∀ m ∈ s'.mappings, s'.node m.node = s.node m.node)
    (hcreated : s'.created = s.created)
    (hcalls : ∀ thread c', s'.call thread = some c' →
      ∃ c, s.call thread = some c ∧ c'.key = c.key ∧ c'.node = c.node)
    (hheld : ∀ m ∈ s'.mappings, (s.node m.node).ready = false →
      ∀ thread c, s.call thread = some c → c.key = m.key → c.node = m.node →
        ∃ c', s'.call thread = some c' ∧ c'.key = m.key ∧ c'.node = m.node)
    (hfailed : s'.failed = s.failed) : Inv overhead s' where
  size := by
    rw [listTotal_congr hnode]
    exact hsize
  distinct := by
    obtain ⟨l, hl, hsub⟩ := hmappings
    have hsymm : Std.Symm (fun a b : Mapping => a.key ≠ b.key ∧ a.node ≠ b.node) :=
      ⟨fun a b hab => ⟨hab.1.symm, hab.2.symm⟩⟩
    exact (hl.pairwise_iff (fun {a b} hab => ⟨hab.1.symm, hab.2.symm⟩)).mp (h.distinct.sublist hsub)
  created := by
    intro m hm
    rw [hcreated]
    exact h.created m (hmappings.subset hm)
  pending := by
    intro m hm hready
    rw [hnode m hm] at hready ⊢
    obtain ⟨hzero, thread, c, hc, hkey, hcnode⟩ := h.pending m (hmappings.subset hm) hready
    obtain ⟨c', hc', hkey', hnode'⟩ := hheld m hm hready thread c hc hkey hcnode
    exact ⟨hzero, thread, c', hc', hkey', hnode'⟩
  callCreated := by
    intro thread c' hc'
    obtain ⟨c, hc, hkey, hcnode⟩ := hcalls thread c' hc'
    rw [hcreated, hcnode]
    exact h.callCreated thread c hc
  callKey := by
    intro thread c' hc' m hm hmnode
    obtain ⟨c, hc, hkey, hcnode⟩ := hcalls thread c' hc'
    rw [hkey]
    apply h.callKey thread c hc m (hmappings.subset hm)
    rw [hmnode, hcnode]
  failed := by
    rw [hfailed]
    exact h.failed

/-- The same for a step that keeps the calls and the nodes. -/
theorem Inv.shrink {s s' : State} (h : Inv overhead s)
    (hmappings : List.Subperm s'.mappings s.mappings)
    (hsize : s'.sizeInMem = listTotal overhead s.node s'.mappings % 2 ^ 32)
    (hnode : s'.node = s.node) (hcreated : s'.created = s.created) (hcall : s'.call = s.call)
    (hfailed : s'.failed = s.failed) : Inv overhead s' := by
  apply h.subperm hmappings hsize _ hcreated _ _ hfailed
  · intro m _
    rw [hnode]
  · intro thread c hc
    rw [hcall] at hc
    exact ⟨c, hc, rfl, rfl⟩
  · intro m _ _ thread c hc hkey hcnode
    rw [hcall]
    exact ⟨c, hc, hkey, hcnode⟩

/-- What `reduce` leaves: it never fails on a table with an exact account. -/
theorem reduce_spec {s : State}
    (hsize : s.sizeInMem = listTotal overhead s.node s.mappings % 2 ^ 32) :
    ∃ rest, rest <:+ s.mappings ∧ reduce overhead s =
      { s with mappings := rest, sizeInMem := listTotal overhead s.node rest % 2 ^ 32 } := by
  unfold reduce
  by_cases hfull : full s.memLimit s.sizeInMem = true
  · obtain ⟨rest, hrest, hsuffix⟩ := makeSpace_spec s.node s.memLimit s.mappings hsize hfull
    refine ⟨rest, hsuffix, ?_⟩
    rw [if_pos hfull, hrest]
  · refine ⟨s.mappings, List.suffix_refl _, ?_⟩
    rw [if_neg hfull, ← hsize]

theorem Inv.reduce {s : State} (h : Inv overhead s) : Inv overhead (reduce overhead s) := by
  obtain ⟨rest, hsuffix, heq⟩ := reduce_spec h.size
  rw [heq]
  exact h.shrink hsuffix.sublist.subperm rfl rfl rfl rfl rfl

theorem Inv.setMemLimit {s : State} (h : Inv overhead s) (memLimit : ℕ) :
    Inv overhead (setMemLimit overhead memLimit s) := by
  have hset : Inv overhead { s with memLimit := memLimit } :=
    h.shrink (List.Subperm.refl _) h.size rfl rfl rfl rfl
  exact hset.reduce

theorem Inv.kill {s : State} (h : Inv overhead s) : Inv overhead (kill overhead s) := by
  refine h.shrink List.nil_subperm ?_ rfl rfl rfl rfl
  show s.mappings.foldl (fun size m => removed size (nodeSize overhead s.node m)) s.sizeInMem = 0
  rw [h.size]
  exact foldl_removed s.node s.mappings 0

/-- A call for a mapping of the table. -/
theorem Inv.addCall {s : State} (h : Inv overhead s) {m : Mapping} (hm : m ∈ s.mappings)
    {thread : ℕ} (hfree : s.call thread = none) (threw : Bool) :
    Inv overhead
      { s with call := Function.update s.call thread (some ⟨m.key, m.node, threw⟩) } where
  size := h.size
  distinct := h.distinct
  created := h.created
  pending := by
    intro m' hm' hready
    obtain ⟨hzero, thread', c, hc, hkey, hcnode⟩ := h.pending m' hm' hready
    refine ⟨hzero, thread', c, ?_, hkey, hcnode⟩
    have hne : thread' ≠ thread := by
      intro heq
      rw [heq, hfree] at hc
      cases hc
    simp only [Function.update_of_ne hne]
    exact hc
  callCreated := by
    intro thread' c hc
    by_cases heq : thread' = thread
    · subst heq
      simp only [Function.update_self, Option.some.injEq] at hc
      subst hc
      exact h.created m hm
    · simp only [Function.update_of_ne heq] at hc
      exact h.callCreated thread' c hc
  callKey := by
    intro thread' c hc m' hm' hnode
    by_cases heq : thread' = thread
    · subst heq
      simp only [Function.update_self, Option.some.injEq] at hc
      subst hc
      rw [h.eq_of_node hm' hm hnode]
    · simp only [Function.update_of_ne heq] at hc
      exact h.callKey thread' c hc m' hm' hnode
  failed := h.failed

/-- A mapping of a new node, with the call that made it. -/
theorem Inv.addNew {s : State} (h : Inv overhead s) {key : ℕ × ℕ}
    (hkey : ∀ m ∈ s.mappings, m.key ≠ key) (hnew : s.node s.created = ⟨false, 0⟩) {thread : ℕ}
    (hfree : s.call thread = none) :
    Inv overhead
      { s with
        mappings := s.mappings ++ [⟨key, s.created⟩]
        sizeInMem := added s.sizeInMem (nodeSize overhead s.node ⟨key, s.created⟩)
        created := s.created + 1
        call := Function.update s.call thread (some ⟨key, s.created, false⟩) } where
  size := by
    show added s.sizeInMem _ = listTotal overhead s.node (s.mappings ++ [_]) % 2 ^ 32
    rw [h.size, added_mod, listTotal_append]
    rfl
  distinct := by
    rw [List.pairwise_append]
    refine ⟨h.distinct, List.pairwise_singleton _ _, ?_⟩
    intro a ha b hb
    rw [List.mem_singleton.mp hb]
    exact ⟨hkey a ha, (h.created a ha).ne⟩
  created := by
    intro m hm
    rcases List.mem_append.mp hm with hm | hm
    · exact (h.created m hm).trans (Nat.lt_succ_self _)
    · rw [List.mem_singleton.mp hm]
      exact Nat.lt_succ_self _
  pending := by
    intro m hm hready
    rcases List.mem_append.mp hm with hm | hm
    · obtain ⟨hzero, thread', c, hc, hckey, hcnode⟩ := h.pending m hm hready
      refine ⟨hzero, thread', c, ?_, hckey, hcnode⟩
      have hne : thread' ≠ thread := by
        intro heq
        rw [heq, hfree] at hc
        cases hc
      simp only [Function.update_of_ne hne]
      exact hc
    · rw [List.mem_singleton.mp hm]
      exact ⟨congrArg Node.memSize hnew, thread, _, Function.update_self _ _ _, rfl, rfl⟩
  callCreated := by
    intro thread' c hc
    by_cases heq : thread' = thread
    · subst heq
      simp only [Function.update_self, Option.some.injEq] at hc
      subst hc
      exact Nat.lt_succ_self _
    · simp only [Function.update_of_ne heq] at hc
      exact (h.callCreated thread' c hc).trans (Nat.lt_succ_self _)
  callKey := by
    intro thread' c hc m hm hnode
    by_cases heq : thread' = thread
    · subst heq
      simp only [Function.update_self, Option.some.injEq] at hc
      subst hc
      rcases List.mem_append.mp hm with hm | hm
      · exact absurd hnode (h.created m hm).ne
      · rw [List.mem_singleton.mp hm]
    · simp only [Function.update_of_ne heq] at hc
      rcases List.mem_append.mp hm with hm | hm
      · exact h.callKey thread' c hc m hm hnode
      · -- a call that was there holds an older node
        rw [List.mem_singleton.mp hm] at hnode
        have hlt := h.callCreated thread' c hc
        rw [← hnode] at hlt
        exact absurd hlt (lt_irrefl _)
  failed := h.failed

theorem find?_key {s : State} {key : ℕ × ℕ} {m : Mapping}
    (h : s.mappings.find? (·.key = key) = some m) : m ∈ s.mappings ∧ m.key = key := by
  refine ⟨List.mem_of_find?_eq_some h, ?_⟩
  simpa using List.find?_some h

theorem Inv.enter {s : State} (h : Inv overhead s) {thread : ℕ} (hfree : s.call thread = none)
    (key : ℕ × ℕ) : Inv overhead (enter overhead thread key s) := by
  unfold NodeCache.enter
  cases hfind : s.mappings.find? (·.key = key) with
  | some m =>
    obtain ⟨hm, hkey⟩ := find?_key hfind
    have hperm : (s.mappings.erase m ++ [m]).Perm s.mappings :=
      (List.perm_append_singleton m _).trans (List.perm_cons_erase hm).symm
    have hpromoted : Inv overhead { s with mappings := s.mappings.erase m ++ [m] } := by
      refine h.shrink hperm.subperm ?_ rfl rfl rfl rfl
      rw [h.size]
      unfold listTotal
      rw [(hperm.map _).sum_eq]
    have hmem : m ∈ s.mappings.erase m ++ [m] := List.mem_append_right _ (List.mem_singleton_self m)
    have hadd := hpromoted.addCall hmem hfree false
    rw [hkey] at hadd
    exact hadd
  | none =>
    have hfresh : ∀ m ∈ s.mappings, m.key ≠ key := by
      intro m hm
      simpa using List.find?_eq_none.mp hfind m hm
    have hcreate : Inv overhead { s with node := Function.update s.node s.created ⟨false, 0⟩ } := by
      refine h.subperm (List.Subperm.refl _) h.size ?_ rfl ?_ ?_ rfl
      · intro m hm
        exact Function.update_of_ne (h.created m hm).ne _ _
      · intro thread c hc
        exact ⟨c, hc, rfl, rfl⟩
      · intro m _ _ thread c hc hckey hcnode
        exact ⟨c, hc, hckey, hcnode⟩
    obtain ⟨rest, hsuffix, heq⟩ := reduce_spec hcreate.size
    have hreduced := hcreate.reduce
    show Inv overhead { replace overhead key _ with call := _ }
    unfold replace
    rw [heq] at hreduced ⊢
    refine hreduced.addNew ?_ ?_ hfree
    · intro m hm
      exact hfresh m (hsuffix.subset hm)
    · exact Function.update_self _ _ _

/-- A successful load of a node of the table. -/
theorem listTotal_load {s : State} (h : Inv overhead s) {m : Mapping} (hm : m ∈ s.mappings)
    (hzero : (s.node m.node).memSize = 0) (memSize : ℕ) :
    listTotal overhead (Function.update s.node m.node ⟨true, memSize⟩) s.mappings =
      listTotal overhead s.node s.mappings + memSize := by
  have hnodup : s.mappings.Nodup := h.distinct.imp (fun hab heq => hab.1 (congrArg Mapping.key heq))
  have hothers : listTotal overhead (Function.update s.node m.node ⟨true, memSize⟩)
      (s.mappings.erase m) = listTotal overhead s.node (s.mappings.erase m) := by
    apply listTotal_congr
    intro m' hm'
    obtain ⟨hne, hmem⟩ := (hnodup.mem_erase_iff).mp hm'
    apply Function.update_of_ne
    intro hnode
    exact hne (h.eq_of_node hmem hm hnode)
  rw [← listTotal_erase _ hm, ← listTotal_erase s.node hm, hothers]
  unfold nodeSize
  rw [Function.update_self, hzero]
  show overhead + memSize + _ = overhead + 0 + _ + memSize
  omega

theorem Inv.loaded {s : State} (h : Inv overhead s) {thread : ℕ} {c : Call}
    (hready : (s.node c.node).ready = false) (htabled : InTable s c.node) (memSize : ℕ) :
    Inv overhead (load thread c (.loaded memSize) s) := by
  obtain ⟨m, hm, hnode⟩ := htabled
  rw [← hnode] at hready
  obtain ⟨hzero, -⟩ := h.pending m hm hready
  unfold load
  rw [← hnode, if_neg (by rw [hready]; decide)]
  exact {
    size := by
      show added s.sizeInMem memSize = _
      rw [listTotal_load h hm hzero, h.size, added_mod]
    distinct := h.distinct
    created := h.created
    pending := by
      intro m' hm' hready'
      by_cases heq : m'.node = m.node
      · simp only [heq, Function.update_self] at hready'
        cases hready'
      · simp only [Function.update_of_ne heq] at hready' ⊢
        exact h.pending m' hm' hready'
    callCreated := h.callCreated
    callKey := h.callKey
    failed := h.failed }

/-- A call keeps its key and its node when an exception is thrown. -/
theorem Inv.setThrew {s s' : State} (h : Inv overhead s) {thread : ℕ} {c : Call}
    (hc : s.call thread = some c) (hmappings : s'.mappings = s.mappings)
    (hsize : s'.sizeInMem = s.sizeInMem) (hnode : ∀ m ∈ s.mappings, s'.node m.node = s.node m.node)
    (hcreated : s'.created = s.created)
    (hcall : s'.call = Function.update s.call thread (some { c with threw := true }))
    (hfailed : s'.failed = s.failed) : Inv overhead s' := by
  refine h.subperm (by rw [hmappings]) ?_ ?_ hcreated ?_ ?_ hfailed
  · rw [hsize, hmappings]
    exact h.size
  · intro m hm
    rw [hmappings] at hm
    exact hnode m hm
  · intro thread' c' hc'
    rw [hcall] at hc'
    by_cases heq : thread' = thread
    · subst heq
      simp only [Function.update_self, Option.some.injEq] at hc'
      subst hc'
      exact ⟨c, hc, rfl, rfl⟩
    · rw [Function.update_of_ne heq] at hc'
      exact ⟨c', hc', rfl, rfl⟩
  · intro m _ _ thread' c' hc' hkey hcnode
    rw [hcall]
    by_cases heq : thread' = thread
    · subst heq
      rw [hc, Option.some.injEq] at hc'
      subst hc'
      exact ⟨_, Function.update_self _ _ _, hkey, hcnode⟩
    · rw [Function.update_of_ne heq]
      exact ⟨c', hc', hkey, hcnode⟩

theorem Inv.threw {s : State} (h : Inv overhead s) {thread : ℕ} {c : Call}
    (hc : s.call thread = some c) (hready : (s.node c.node).ready = false) {memSize : ℕ}
    (hzero : InTable s c.node → memSize = 0) :
    Inv overhead (load thread c (.threw memSize) s) := by
  unfold load
  rw [if_neg (by rw [hready]; decide)]
  refine h.setThrew hc rfl rfl ?_ rfl rfl rfl
  intro m hm
  by_cases heq : m.node = c.node
  · -- the node has no size before the load, and none after it
    rw [← heq] at hready
    obtain ⟨hbefore, -⟩ := h.pending m hm hready
    have hafter := hzero ⟨m, hm, heq⟩
    show Function.update s.node c.node ⟨false, memSize⟩ m.node = _
    rw [heq, Function.update_self, ← heq, hafter]
    cases hn : s.node m.node with
    | mk ready size =>
      rw [hn] at hready hbefore
      simp only at hready hbefore
      rw [hready, hbefore]
  · exact Function.update_of_ne heq _ _

/-- A call that ends while its node is ready is not needed. -/
theorem Inv.endCall {s : State} (h : Inv overhead s) {thread : ℕ} {c : Call}
    (hc : s.call thread = some c) (hready : (s.node c.node).ready = true) :
    Inv overhead { s with call := Function.update s.call thread none } := by
  refine h.subperm (List.Subperm.refl _) h.size (fun _ _ => rfl) rfl ?_ ?_ rfl
  · intro thread' c' hc'
    by_cases heq : thread' = thread
    · subst heq
      simp only [Function.update_self] at hc'
      cases hc'
    · simp only [Function.update_of_ne heq] at hc'
      exact ⟨c', hc', rfl, rfl⟩
  · intro m _ hpending thread' c' hc' hkey hcnode
    have hne : thread' ≠ thread := by
      intro heq
      rw [heq, hc, Option.some.injEq] at hc'
      rw [← hcnode, ← hc', hready] at hpending
      cases hpending
    simp only [Function.update_of_ne hne]
    exact ⟨c', hc', hkey, hcnode⟩

/-- A call that ends with the removal of its key. -/
theorem Inv.endRemove {s : State} (h : Inv overhead s) {thread : ℕ} {c : Call}
    (hc : s.call thread = some c) :
    Inv overhead (removeKey overhead c.key { s with call := Function.update s.call thread none }) := by
  have hcalls : ∀ thread' c', Function.update s.call thread none thread' = some c' →
      thread' ≠ thread ∧ s.call thread' = some c' := by
    intro thread' c' hc'
    by_cases heq : thread' = thread
    · subst heq
      rw [Function.update_self] at hc'
      cases hc'
    · rw [Function.update_of_ne heq] at hc'
      exact ⟨heq, hc'⟩
  -- a call for another key is not the one that ends
  have hother : ∀ m : Mapping, m.key ≠ c.key → ∀ thread' c', s.call thread' = some c' →
      c'.key = m.key → Function.update s.call thread none thread' = some c' := by
    intro m hm thread' c' hc' hkey
    have hne : thread' ≠ thread := by
      intro heq
      rw [heq, hc, Option.some.injEq] at hc'
      exact hm (by rw [← hkey, hc'])
    rw [Function.update_of_ne hne]
    exact hc'
  unfold removeKey
  simp only
  cases hfind : s.mappings.find? (·.key = c.key) with
  | none =>
    refine h.subperm (List.Subperm.refl _) h.size (fun _ _ => rfl) rfl ?_ ?_ rfl
    · intro thread' c' hc'
      exact ⟨c', (hcalls thread' c' hc').2, rfl, rfl⟩
    · intro m hm _ thread' c' hc' hkey hcnode
      have hne : m.key ≠ c.key := by simpa using List.find?_eq_none.mp hfind m hm
      exact ⟨c', hother m hne thread' c' hc' hkey, hkey, hcnode⟩
  | some m₀ =>
    obtain ⟨hm₀, hkey₀⟩ := find?_key hfind
    refine h.subperm (List.erase_subperm _ _) ?_ (fun _ _ => rfl) rfl ?_ ?_ rfl
    · show removed s.sizeInMem (nodeSize overhead s.node m₀) = _
      rw [h.size, ← listTotal_erase s.node hm₀]
      exact removed_add _ _
    · intro thread' c' hc'
      exact ⟨c', (hcalls thread' c' hc').2, rfl, rfl⟩
    · intro m hm _ thread' c' hc' hkey hcnode
      have hne : m.key ≠ c.key := by
        intro heq
        have hm' : m ∈ s.mappings := List.mem_of_mem_erase hm
        have hnodup : s.mappings.Nodup :=
          h.distinct.imp (fun hab heq => hab.1 (congrArg Mapping.key heq))
        have hsame := h.eq_of_key hm' hm₀ (heq.trans hkey₀.symm)
        exact ((hnodup.mem_erase_iff).mp hm).1 hsame
      exact ⟨c', hother m hne thread' c' hc' hkey, hkey, hcnode⟩

/-- One step. -/
theorem Inv.step {s : State} (h : Inv overhead s) {e : Event} (htabled : LoadsTabled s e) :
    Inv overhead (step overhead s e) := by
  cases e with
  | enter thread key =>
    simp only [NodeCache.step]
    cases hc : s.call thread with
    | none => exact h.enter hc key
    | some c => exact h
  | load thread result =>
    simp only [NodeCache.step]
    cases hc : s.call thread with
    | none => exact h
    | some c =>
      simp only
      by_cases hthrew : c.threw = true
      · rw [if_pos hthrew]
        exact h
      · rw [if_neg hthrew]
        have hthrew' : c.threw = false := by simpa using hthrew
        by_cases hready : (s.node c.node).ready = true
        · unfold load
          rw [if_pos hready]
          exact h
        · have hready' : (s.node c.node).ready = false := by simpa using hready
          cases result with
          | loaded memSize => exact h.loaded hready' (htabled c hc hthrew' hready') memSize
          | threw memSize => exact h.threw hc hready' (htabled c hc hthrew' hready')
  | throw thread =>
    simp only [NodeCache.step]
    cases hc : s.call thread with
    | none => exact h
    | some c => exact h.setThrew hc rfl rfl (fun _ _ => rfl) rfl rfl rfl
  | cleanUp thread =>
    simp only [NodeCache.step]
    cases hc : s.call thread with
    | none => exact h
    | some c =>
      simp only
      by_cases hthrew : c.threw = true
      · rw [if_pos hthrew]
        unfold cleanUp
        by_cases hready : (s.node c.node).ready = true
        · simp only [hready, if_true]
          exact h.endCall hc hready
        · simp only [hready]
          exact h.endRemove hc
      · rw [if_neg hthrew]
        exact h
  | leave thread =>
    simp only [NodeCache.step]
    cases hc : s.call thread with
    | none => exact h
    | some c =>
      simp only
      split
      · rename_i hdone
        exact h.endCall hc (Bool.and_eq_true_iff.mp hdone).2
      · exact h
  | clear => exact h.kill
  | setCacheMem memLimit => exact h.setMemLimit memLimit

/-- Every state of a run. -/
theorem inv_run (memLimit : ℕ) {events : List Event} (h : TabledRun overhead memLimit events) :
    Inv overhead (run overhead memLimit events) := by
  induction events with
  | nil => exact inv_init memLimit
  | cons e es ih => exact (ih h.1).step h.2

theorem Inv.exact {s : State} (h : Inv overhead s) (hidle : ∀ thread, s.call thread = none) :
    Exact overhead s where
  sizeInMem_eq := h.size
  ready := by
    intro m hm
    by_contra hready
    obtain ⟨-, thread, c, hc, -⟩ := h.pending m hm (by simpa using hready)
    rw [hidle thread] at hc
    cases hc
  replace := by
    intro key
    obtain ⟨rest, -, heq⟩ := reduce_spec h.size
    unfold NodeCache.replace
    rw [heq]
    exact h.failed

end Model

/-- In every run whose successful loads are of nodes that are still in the table, and whose failed
loads leave no size in a node of the table, `assertex(tail)` does not fail, and the account is exact
in every state without a call in progress. -/
theorem exact_of_tabledRun (overhead memLimit : ℕ) (events : List Event)
    (h : TabledRun overhead memLimit events) :
    (run overhead memLimit events).failed = false ∧
      ((∀ thread, (run overhead memLimit events).call thread = none) →
        Exact overhead (run overhead memLimit events)) :=
  ⟨(inv_run memLimit h).failed, (inv_run memLimit h).exact⟩

/-- Two callers, of which one fails to load its node. -/
def twoCallers : List Event :=
  [.cleanUp 2, .load 2 (.threw 0), .leave 1, .load 1 (.loaded 100), .enter 2 (7, 16384),
    .enter 1 (7, 8192)]

theorem exact_twoCallers :
    TabledRun 64 1000 twoCallers ∧ (run 64 1000 twoCallers).mappings = [⟨(7, 8192), 0⟩] ∧
      (run 64 1000 twoCallers).sizeInMem = 164 ∧ Exact 64 (run 64 1000 twoCallers) := by
  have htabled : TabledRun 64 1000 twoCallers := by
    refine ⟨⟨⟨⟨⟨⟨trivial, trivial⟩, trivial⟩, ?_⟩, trivial⟩, ?_⟩, trivial⟩
    · intro c hc _ _
      obtain rfl := Option.some.inj hc
      exact ⟨⟨(7, 8192), 0⟩, by decide, rfl⟩
    · intro c _ _ _ _
      rfl
  refine ⟨htabled, by decide, by decide, ?_⟩
  apply (exact_of_tabledRun 64 1000 twoCallers htabled).2
  intro thread
  match thread with
  | 0 => rfl
  | 1 => rfl
  | 2 => rfl
  | _ + 3 => rfl

/-- The cache is cleared between the two parts of a call. -/
def clearedCall : List Event :=
  [.leave 1, .load 1 (.loaded 100), .clear, .enter 1 (7, 8192)]

theorem clearedCall_inexact :
    (∀ thread, (run 64 1000 clearedCall).call thread = none) ∧
      (run 64 1000 clearedCall).mappings = [] ∧ (run 64 1000 clearedCall).sizeInMem = 100 ∧
      ¬ Exact 64 (run 64 1000 clearedCall) := by
  refine ⟨?_, by decide, by decide, ?_⟩
  · intro thread
    match thread with
    | 0 => rfl
    | 1 => rfl
    | _ + 2 => rfl
  · intro hexact
    have hsize := hexact.sizeInMem_eq
    revert hsize
    decide

end NodeCache

end HpccPlatform
