import HpccPlatform.Index.Cursor
import HpccPlatform.Library.FixedBytes
import HpccPlatform.Library.SortedRank

/-!
# Seeking in an index

In an index with its rows in the order of their keys, `gtEqual` goes to the first row that is not less
than a key, and `next` reads the rows one after the other.
-/

namespace HpccPlatform

namespace KeyBuilder

open SortedRank BinaryChop

variable {key : KeyIndex} {rows : List Entry} {leaves nodes before after : List WriteNode}
  {levels : List (List WriteNode)} {root node leaf : WriteNode} {src : List UInt8} {cursor : KeyCursor}
  {c i lwm fuel nodeKey : ℕ}

/-! ## Keys in order -/

/-- The key of a row, as a number. -/
def keyOf (key : KeyIndex) (e : Entry) : ℕ := Bytes.number (e.value.take key.keyHdr.keyedSize)

/-- The key of the last entry. -/
def lastKey (key : KeyIndex) (node : WriteNode) : ℕ :=
  Bytes.number (node.getLastKeyValue.take key.keyHdr.keyedSize)

/-- Entries in the order of their keys. -/
structure InKeyOrder (key : KeyIndex) (entries : List Entry) : Prop where
  long : ∀ e ∈ entries, key.keyHdr.keyedSize ≤ e.value.length
  sorted : Sorted (keyOf key) entries

theorem InKeyOrder.of_mem (h : InKeyOrder key (nodes.flatMap WriteNode.entries)) (hmem : node ∈ nodes) :
    InKeyOrder key node.entries :=
  ⟨fun e he => h.long e (List.mem_flatMap.mpr ⟨node, hmem, he⟩),
    (List.pairwise_flatMap.mp h.sorted).1 node hmem⟩

theorem getLastKeyValue_eq (hne : node.entries ≠ []) :
    node.getLastKeyValue = (node.entries.getLast hne).value := by
  rw [WriteNode.getLastKeyValue, List.getLast?_eq_some_getLast hne]
  rfl

theorem lastKey_eq (hne : node.entries ≠ []) : lastKey key node = keyOf key (node.entries.getLast hne) := by
  rw [lastKey, getLastKeyValue_eq hne, keyOf]

theorem keyOf_nodeInfo : keyOf key (nodeInfo key.keyHdr node) = lastKey key node := by
  rw [keyOf, nodeInfo, List.take_take, min_self, lastKey]

theorem rank_lt_iff (hne : node.entries ≠ []) (h : InKeyOrder key node.entries) :
    rank (keyOf key) c node.entries < node.entries.length ↔ c ≤ lastKey key node := by
  have hpos := List.length_pos_of_ne_nil hne
  rw [lastKey_eq hne, List.getLast_eq_getElem, ← rank_le_iff h.sorted, Nat.le_sub_one_iff_lt hpos]

theorem le_lastKey (h : InKeyOrder key node.entries) {e : Entry} (he : e ∈ node.entries) :
    keyOf key e ≤ lastKey key node := by
  obtain ⟨i, hi, rfl⟩ := List.getElem_of_mem he
  rw [← rank_lt_iff (List.ne_nil_of_mem he) h]
  exact ((rank_le_iff h.sorted hi).mpr le_rfl).trans_lt hi

/-- The last key of a node is not greater than the keys of a node behind it. -/
theorem lastKey_le (h : InKeyOrder key ((before ++ after).flatMap WriteNode.entries)) (hleaf : leaf ∈ before)
    (hne : leaf.entries ≠ []) (hnode : node ∈ after) {e : Entry} (he : e ∈ node.entries) :
    lastKey key leaf ≤ keyOf key e := by
  rw [lastKey_eq hne]
  exact (List.pairwise_append.mp (List.pairwise_flatMap.mp h.sorted).2).2.2 leaf hleaf node hnode _
    (List.getLast_mem hne) e he

/-- The entries for nodes with their entries in order are in order. -/
theorem InKeyOrder.infos (h : InKeyOrder key (nodes.flatMap WriteNode.entries))
    (hne : ∀ node ∈ nodes, node.entries ≠ []) : InKeyOrder key (nodes.map (nodeInfo key.keyHdr)) := by
  refine ⟨fun e he => ?_, List.pairwise_map.mpr ?_⟩
  · obtain ⟨node, hnode, rfl⟩ := List.mem_map.mp he
    refine (List.length_take_of_le ?_).ge
    rw [getLastKeyValue_eq (hne node hnode)]
    exact h.long _ (List.mem_flatMap.mpr ⟨node, hnode, List.getLast_mem _⟩)
  · refine (List.pairwise_flatMap.mp h.sorted).2.imp_of_mem fun {a b} ha hb hab => ?_
    rw [keyOf_nodeInfo, keyOf_nodeInfo, lastKey_eq (hne a ha), lastKey_eq (hne b hb)]
    exact hab _ (List.getLast_mem _) _ (List.getLast_mem _)

/-! ## The levels of the tree -/

/-- The key that is sought, as a number. -/
def sought (key : KeyIndex) (src : List UInt8) : ℕ := Bytes.number (src.take key.keyHdr.keyedSize)

/-- The number of rows or entries that are less. -/
def numLess (key : KeyIndex) (src : List UInt8) (entries : List Entry) : ℕ :=
  rank (keyOf key) (sought key src) entries

theorem compareValueAt_nonpos_iff (h : InKeyOrder key node.entries) (hsrc : key.keyHdr.keyedSize ≤ src.length)
    (hi : i < node.entries.length) :
    compareValueAt key node src i ≤ 0 ↔ sought key src ≤ keyOf key node.entries[i] := by
  rw [compareValueAt, WriteNode.getValueAt, List.getElem?_eq_getElem hi, Option.map_some, Option.getD_some,
    ← not_lt, ← Bytes.memcmp_take le_rfl le_rfl, Bytes.memcmp_pos_iff (List.length_take_of_le hsrc)
      (List.length_take_of_le (h.long _ (List.getElem_mem hi))), keyOf, not_lt, sought]

theorem gtEqual_chop (h : InKeyOrder key node.entries) (hsrc : key.keyHdr.keyedSize ≤ src.length)
    (hlow : lwm ≤ numLess key src node.entries) :
    chop (fun i => decide (compareValueAt key node src i ≤ 0)) node.getNumKeys lwm node.getNumKeys =
      numLess key src node.entries :=
  chop_eq_rank h.sorted (fun _ hi => decide_eq_decide.mpr (compareValueAt_nonpos_iff h hsrc hi)) hlow
    (Nat.sub_le _ _)

/-- The number of entries of some nodes. -/
abbrev numEntries (nodes : List WriteNode) : ℕ := (nodes.flatMap WriteNode.entries).length

theorem flatMap_split (hsplit : nodes = before ++ node :: after) : nodes.flatMap WriteNode.entries =
    before.flatMap WriteNode.entries ++ (node.entries ++ after.flatMap WriteNode.entries) := by
  rw [hsplit, List.flatMap_append, List.flatMap_cons]

theorem getElem?_split (hsplit : nodes = before ++ node :: after) (hi : i < node.entries.length) :
    (nodes.flatMap WriteNode.entries)[numEntries before + i]? = node.entries[i]? := by
  rw [flatMap_split hsplit, List.getElem?_append_right (Nat.le_add_right _ _), Nat.add_sub_cancel_left,
    List.getElem?_append_left hi]

/-- The rows that are less, in the first node with one that is not, or the last node. -/
theorem numLess_split (h : InKeyOrder key (nodes.flatMap WriteNode.entries))
    (hne : ∀ node ∈ nodes, node.entries ≠ []) (hsplit : nodes = before ++ node :: after)
    (hbefore : ∀ m ∈ before, lastKey key m < sought key src)
    (hlast : sought key src ≤ lastKey key node ∨ after = []) :
    numLess key src (nodes.flatMap WriteNode.entries) = numEntries before + numLess key src node.entries := by
  subst hsplit
  have hfront : ∀ e ∈ before.flatMap WriteNode.entries, keyOf key e < sought key src := by
    intro e he
    obtain ⟨m, hm, he⟩ := List.mem_flatMap.mp he
    exact (le_lastKey (h.of_mem (List.mem_append_left _ hm)) he).trans_lt (hbefore m hm)
  have hback : ∀ e ∈ after.flatMap WriteNode.entries, sought key src ≤ keyOf key e := by
    intro e he
    obtain ⟨m, hm, he⟩ := List.mem_flatMap.mp he
    rcases hlast with hle | rfl
    · rw [List.append_cons] at h
      exact hle.trans (lastKey_le h (List.mem_append_right _ (List.mem_singleton_self node))
        (hne node (List.mem_append_right _ List.mem_cons_self)) hm he)
    · cases hm
  rw [flatMap_split rfl, numLess, rank_append, rank_append, rank_eq_length hfront,
    rank_eq_zero hback, Nat.add_zero, numLess]

/-- From the root `gtEqual` comes to the first leaf with a row that is not less, if there is one.  If not,
the last leaf is given. -/
theorem Above.gtEqual_descends (habove : Above key.keyHdr nodes levels root)
    (hne : ∀ node ∈ nodes ++ levels.flatten, node.entries ≠ [])
    (hload : ∀ node ∈ nodes ++ levels.flatten, getNode key node.fpos = some node)
    (hordered : InKeyOrder key (nodes.flatMap WriteNode.entries)) (hsrc : key.keyHdr.keyedSize ≤ src.length) :
    ∃ before node after, nodes = before ++ node :: after ∧ (∀ m ∈ before, lastKey key m < sought key src) ∧
      (sought key src ≤ lastKey key node ∨ after = []) ∧
      (sought key src ≤ lastKey key node ↔ sought key src ≤ lastKey key root) ∧
      (nodes = [root] ∨ root.isLeaf = false ∧ root.entries ≠ [] ∧ InKeyOrder key root.entries) ∧
      (sought key src ≤ lastKey key root → ∀ fuel,
        gtEqual.loop key src nodeKey 0 (fuel + levels.length) root =
          gtEqual.loop key src nodeKey 0 fuel node) := by
  induction habove with
  | top root =>
    exact ⟨[], root, [], rfl, fun m hm => absurd hm List.not_mem_nil, Or.inr rfl, Iff.rfl, Or.inl rfl,
      fun _ _ => rfl⟩
  | @level nodes parents levels root hentries hbranch hlinked habove ih =>
    have hinfos := hordered.infos fun node hnode => hne node (List.mem_append_left _ hnode)
    have hkey : ∀ i (hi : i < nodes.length),
        i < numLess key src (nodes.map (nodeInfo key.keyHdr)) ↔ lastKey key nodes[i] < sought key src := by
      intro i hi
      rw [numLess, lt_rank_iff hinfos.sorted (hi.trans_eq (List.length_map _).symm), List.getElem_map,
        keyOf_nodeInfo]
    have hget : ∀ i (hi : i < nodes.length),
        (parents.flatMap WriteNode.entries)[i]? = some (nodeInfo key.keyHdr nodes[i]) := fun i hi => by
      rw [hentries, List.getElem?_map, List.getElem?_eq_getElem hi, Option.map_some]
    rw [← hentries] at hinfos hkey
    have hne' := fun n hn => hne n (List.mem_append_right nodes hn)
    obtain ⟨before, parent, after, hsplit, hbefore, hlast, hroot, htop, hsearch⟩ := ih hne'
      (fun n hn => hload n (List.mem_append_right _ hn)) hinfos
    have hmem : parent ∈ parents := hsplit ▸ List.mem_append_right _ List.mem_cons_self
    have hparent := hinfos.of_mem hmem
    have hparentNe := hne' parent (List.mem_append_left _ hmem)
    have hrank : numLess key src parent.entries < parent.entries.length ↔
        sought key src ≤ lastKey key parent := rank_lt_iff hparentNe hparent
    have hle : numLess key src parent.entries ≤ parent.entries.length := rank_le_length
    have hpos := List.length_pos_of_ne_nil hparentNe
    rw [numLess_split hinfos (fun n hn => hne' n (List.mem_append_left _ hn)) hsplit hbefore hlast] at hkey
    -- the child for the entry at place `j` of the parent
    obtain ⟨j, hj⟩ : ∃ j, j = min (numLess key src parent.entries) (parent.entries.length - 1) := ⟨_, rfl⟩
    have hjlt : j < parent.entries.length := by omega
    have hlength : numEntries before + (parent.entries.length + numEntries after) = nodes.length := by
      rw [← List.length_map (nodeInfo key.keyHdr), ← hentries, flatMap_split hsplit, List.length_append,
        List.length_append]
    have hi : numEntries before + j < nodes.length :=
      hlength ▸ Nat.add_lt_add_left (hjlt.trans_le (Nat.le_add_right _ _)) _
    have hchild : sought key src ≤ lastKey key nodes[numEntries before + j] ↔
        sought key src ≤ lastKey key parent := by
      rw [← not_lt, ← hkey _ hi, ← hrank]
      omega
    refine ⟨nodes.take (numEntries before + j), nodes[numEntries before + j],
      nodes.drop (numEntries before + j + 1), ?_, fun m hm => ?_, ?_, hchild.trans hroot,
      Or.inr (htop.elim (fun hone => ?_) id), fun hle fuel => ?_⟩
    · rw [List.cons_getElem_drop_succ, List.take_append_drop]
    · obtain ⟨i, hi', rfl⟩ := List.mem_take_iff_getElem.mp hm
      rw [← hkey]
      omega
    · rw [hchild]
      refine or_iff_not_imp_left.mpr fun hgt => ?_
      have hnil : numEntries after = 0 := by rw [hlast.resolve_left hgt]; rfl
      rw [← hrank] at hgt
      rw [List.drop_eq_nil_iff]
      omega
    · rw [hone, List.mem_singleton] at hmem
      exact hmem ▸ ⟨hbranch parent (hone ▸ List.mem_singleton.mpr hmem), hparentNe, hparent⟩
    · have hlt := hrank.mpr (hroot.mpr hle)
      have hentry := getElem?_split hsplit hjlt
      rw [hget _ hi] at hentry
      rw [List.length_cons, Nat.add_comm levels.length, ← Nat.add_assoc, hsearch hle, gtEqual.loop]
      dsimp only
      rw [gtEqual_chop hparent hsrc (Nat.zero_le _), hbranch parent hmem, if_neg Bool.false_ne_true,
        WriteNode.getNumKeys, if_pos hlt, WriteNode.getFPosAt,
        ← hj.trans (min_eq_left (Nat.le_sub_one_of_lt hlt)), ← hentry, Option.map_some, Option.getD_some, nodeInfo,
        hload _ (List.mem_append_left _ (List.getElem_mem hi)), Option.bind_some]

theorem Linked.rightSib_eq {left : ℕ} (h : Linked left (before ++ node :: after)) :
    node.rightSib = (after.head?.map WriteNode.fpos).getD 0 := by
  induction before generalizing left with
  | nil =>
    cases after with
    | nil => exact h.2
    | cons next after => exact h.2.1
  | cons a before ih =>
    cases before with
    | nil => exact ih h.2.2
    | cons b before => exact ih h.2.2

/-! ## `next` -/

/-- The leaves of an index, with its rows. -/
structure LeafChain (key : KeyIndex) (rows : List Entry) (leaves : List WriteNode) : Prop where
  rows_eq : leaves.flatMap WriteNode.entries = rows
  leaf_ne : ∀ node ∈ leaves, node.entries ≠ []
  linked : Linked 0 leaves
  loadLeaf : ∀ node ∈ leaves, getNode key node.fpos = some node
  firstLeaf_eq : key.getFirstLeafPos = (leaves.head?.map WriteNode.fpos).getD 0

/-- The cursor is at row `i`. -/
def At (leaves : List WriteNode) (cursor : KeyCursor) (i : ℕ) : Prop :=
  ∃ before leaf after, leaves = before ++ leaf :: after ∧ cursor.node = some leaf ∧
    cursor.nodeKey < leaf.entries.length ∧ i = numEntries before + cursor.nodeKey

namespace LeafChain

variable (h : LeafChain key rows leaves)
include h

/-- The first row of the leaves behind others. -/
theorem enter (hsplit : leaves = before ++ after) :
    getNode key ((after.head?.map WriteNode.fpos).getD 0) = after.head? ∧
      (after.head?.bind (·.getValueAt 0)) = rows[numEntries before]?.map Entry.value ∧
      (numEntries before < rows.length → At leaves ⟨after.head?, 0⟩ (numEntries before)) := by
  cases after with
  | nil =>
    rw [List.append_nil] at hsplit
    rw [← hsplit, ← h.rows_eq, List.getElem?_eq_none le_rfl]
    exact ⟨if_pos rfl, rfl, fun hlt => absurd hlt (lt_irrefl _)⟩
  | cons leaf after =>
    have hmem : leaf ∈ leaves := hsplit ▸ List.mem_append_right _ List.mem_cons_self
    have hpos := List.length_pos_of_ne_nil (h.leaf_ne leaf hmem)
    rw [← h.rows_eq]
    exact ⟨h.loadLeaf leaf hmem, congrArg (Option.map Entry.value) (getElem?_split hsplit hpos).symm,
      fun _ => ⟨before, leaf, after, hsplit, rfl, hpos, rfl⟩⟩

/-- `next` reads the row behind the one at the cursor, or the first row. -/
theorem next_reads (hcursor : cursor.node = none ∧ i = 0 ∨ ∃ j, At leaves cursor j ∧ i = j + 1) :
    (next key cursor).1 = rows[i]?.map Entry.value ∧ (i < rows.length → At leaves (next key cursor).2 i) := by
  rw [next]
  rcases hcursor with ⟨hnone, rfl⟩ | ⟨j, ⟨before, leaf, after, hsplit, hnode, hkey, rfl⟩, rfl⟩
  · have henter := h.enter (List.nil_append leaves).symm
    have hlocate : locateFirstNode key = leaves.head? := by
      rw [locateFirstNode, ← henter.1, ← h.firstLeaf_eq, getNode]
      split_ifs <;> rfl
    rw [hnone]
    dsimp only
    rw [hlocate]
    exact henter.2
  rw [hnode, Nat.add_assoc]
  dsimp only
  rcases (Nat.succ_le_of_lt hkey).lt_or_eq with hlt | heq
  · rw [← h.rows_eq, getElem?_split hsplit hlt, WriteNode.getValueAt, List.getElem?_eq_getElem hlt]
    exact ⟨rfl, fun _ => ⟨before, leaf, after, hsplit, rfl, hlt, rfl⟩⟩
  · -- the first row of the next leaf
    have hlinked := h.linked
    rw [hsplit] at hlinked
    obtain ⟨hget, hvalue, hat⟩ := h.enter (hsplit.trans (List.append_cons before leaf after))
    have hcount : numEntries (before ++ [leaf]) = numEntries before + (cursor.nodeKey + 1) := by
      rw [numEntries, List.flatMap_append, List.flatMap_singleton, List.length_append, ← heq]
    rw [hcount] at hvalue hat
    rw [WriteNode.getValueAt, List.getElem?_eq_none heq.ge, ← hvalue]
    dsimp only [Option.map_none]
    rw [hlinked.rightSib_eq, hget]
    cases hhead : after.head? with
    | none =>
      rw [hhead] at hvalue
      refine ⟨by split <;> rfl, fun hlt => ?_⟩
      rw [List.getElem?_eq_getElem hlt] at hvalue
      cases hvalue
    | some sibling =>
      rw [hhead] at hget hat
      have hne : ((some sibling).map WriteNode.fpos).getD 0 ≠ 0 := fun hzero => by
        rw [hzero, getNode, if_pos rfl] at hget
        cases hget
      rw [if_pos hne]
      exact ⟨rfl, hat⟩

/-- The rows that `next` reads from a cursor on. -/
theorem scan_eq (hcursor : cursor.node = none ∧ i = 0 ∨ ∃ j, At leaves cursor j ∧ i = j + 1) :
    scan key fuel cursor = ((rows.drop i).take fuel).map Entry.value := by
  induction fuel generalizing cursor i with
  | zero => rfl
  | succ fuel ih =>
    obtain ⟨hrow, hat⟩ := h.next_reads hcursor
    rw [scan]
    generalize next key cursor = result at hrow hat
    obtain ⟨row, cursor⟩ := result
    dsimp only at hrow hat
    rcases Nat.lt_or_ge i rows.length with hlt | hge
    · rw [List.getElem?_eq_getElem hlt] at hrow
      rw [hrow, List.drop_eq_getElem_cons hlt, List.take_succ_cons, List.map_cons]
      exact congrArg _ (ih (Or.inr ⟨i, hat hlt, rfl⟩))
    · rw [List.getElem?_eq_none hge] at hrow
      rw [hrow, List.drop_eq_nil_of_le hge]
      rfl

end LeafChain

/-! ## `gtEqual` -/

/-- An index with its rows in order. -/
structure IsIndex (key : KeyIndex) (rows : List Entry) (leaves : List WriteNode)
    (levels : List (List WriteNode)) (root : WriteNode) : Prop extends LeafChain key rows leaves where
  leaf : ∀ node ∈ leaves, node.isLeaf = true
  above : Above key.keyHdr leaves levels root
  branch_ne : ∀ node ∈ levels.flatten, node.entries ≠ []
  loadBranch : ∀ node ∈ levels.flatten, getNode key node.fpos = some node
  root_eq : key.rootNode = root
  ordered : InKeyOrder key rows

/-- The call goes to the first row that is not less than `src`, or fails if there is none. -/
def GoesToRow (key : KeyIndex) (src : List UInt8) (rows : List Entry) (leaves : List WriteNode)
    (result : Option (Bool × KeyCursor)) : Prop :=
  ∃ cursor, result = some (decide (numLess key src rows < rows.length), cursor) ∧
    (numLess key src rows < rows.length → At leaves cursor (numLess key src rows))

namespace IsIndex

variable (h : IsIndex key rows leaves levels root)
include h

theorem leaf_ordered (hleaf : leaf ∈ leaves) : InKeyOrder key leaf.entries :=
  (h.rows_eq.symm ▸ h.ordered).of_mem hleaf

theorem rank_rows (hsplit : leaves = before ++ leaf :: after)
    (hbefore : ∀ m ∈ before, lastKey key m < sought key src)
    (hlast : sought key src ≤ lastKey key leaf ∨ after = []) :
    numLess key src rows = numEntries before + numLess key src leaf.entries := by
  rw [← h.rows_eq]
  exact numLess_split (h.rows_eq.symm ▸ h.ordered) h.leaf_ne hsplit hbefore hlast

theorem goesTo_some (hsplit : leaves = before ++ leaf :: after) (hi : i < leaf.entries.length)
    (heq : numLess key src rows = numEntries before + i) :
    GoesToRow key src rows leaves (some (true, ⟨some leaf, i⟩)) := by
  have hlt : numLess key src rows < rows.length := by
    rw [heq, ← h.rows_eq, flatMap_split hsplit, List.length_append, List.length_append]
    exact Nat.add_lt_add_left (hi.trans_le (Nat.le_add_right _ _)) _
  exact ⟨_, by rw [decide_eq_true hlt], fun _ => ⟨before, leaf, after, hsplit, rfl, hi, heq⟩⟩

theorem goesTo_none (hsplit : leaves = before ++ [leaf]) (heq : numLess key src rows =
    numEntries before + numLess key src leaf.entries)
    (hge : ¬ numLess key src leaf.entries < leaf.entries.length) :
    GoesToRow key src rows leaves (some (false, cursor)) := by
  have hlt : ¬ numLess key src rows < rows.length := by
    rw [heq, ← h.rows_eq, flatMap_split hsplit, List.length_append, List.flatMap_nil, List.append_nil]
    exact not_lt.mpr (Nat.add_le_add_left (not_lt.mp hge) _)
  exact ⟨cursor, by rw [decide_eq_false hlt], fun hlt' => absurd hlt' hlt⟩

/-- A cursor at a row that is less. -/
theorem forward (hat : At leaves cursor i) (hless : i < numLess key src rows) :
    ∃ before leaf after, leaves = before ++ leaf :: after ∧ cursor.node = some leaf ∧
      cursor.nodeKey < numLess key src leaf.entries ∧ ∀ m ∈ before, lastKey key m < sought key src := by
  obtain ⟨before, leaf, after, hsplit, hnode, hkey, rfl⟩ := hat
  have hordered : InKeyOrder key (leaves.flatMap WriteNode.entries) := h.rows_eq.symm ▸ h.ordered
  have hrow := getElem?_split hsplit hkey
  rw [List.getElem?_eq_getElem hkey, h.rows_eq] at hrow
  obtain ⟨hi, hget⟩ := List.getElem?_eq_some_iff.mp hrow
  rw [numLess, lt_rank_iff h.ordered.sorted hi, hget] at hless
  refine ⟨before, leaf, after, hsplit, hnode, ?_, fun m hm => ?_⟩
  · rw [numLess,
      lt_rank_iff (h.leaf_ordered (hsplit ▸ List.mem_append_right _ List.mem_cons_self)).sorted hkey]
    exact hless
  · rw [hsplit] at hordered
    exact (lastKey_le hordered hm (h.leaf_ne m (hsplit ▸ List.mem_append_left _ hm)) List.mem_cons_self
      (List.getElem_mem hkey)).trans_lt hless

variable (hsrc : key.keyHdr.keyedSize ≤ src.length)
include hsrc

theorem gtEqual_leaf (hsplit : leaves = before ++ leaf :: after)
    (hbefore : ∀ m ∈ before, lastKey key m < sought key src)
    (hlast : sought key src ≤ lastKey key leaf ∨ after = []) (hlow : lwm ≤ numLess key src leaf.entries) :
    GoesToRow key src rows leaves (gtEqual.loop key src nodeKey lwm (fuel + 1) leaf) := by
  have hmem : leaf ∈ leaves := hsplit ▸ List.mem_append_right _ List.mem_cons_self
  have hrank := h.rank_rows hsplit hbefore hlast
  rw [gtEqual.loop]
  dsimp only
  rw [gtEqual_chop (h.leaf_ordered hmem) hsrc hlow, h.leaf leaf hmem, if_pos rfl, WriteNode.getNumKeys]
  by_cases hlt : numLess key src leaf.entries < leaf.entries.length
  · rw [if_pos hlt]
    exact h.goesTo_some hsplit hlt hrank
  · obtain rfl := hlast.resolve_left fun hle =>
      hlt ((rank_lt_iff (h.leaf_ne leaf hmem) (h.leaf_ordered hmem)).mpr hle)
    have hlinked := h.linked
    rw [hsplit] at hlinked
    rw [if_neg hlt, WriteNode.nextNodeFpos, if_pos (h.leaf leaf hmem), hlinked.rightSib_eq]
    exact h.goesTo_none hsplit hrank hlt

theorem gtEqual_root (hfuel : levels.length < fuel) :
    GoesToRow key src rows leaves (gtEqual.loop key src nodeKey 0 fuel key.rootNode) := by
  obtain ⟨k, rfl⟩ := Nat.exists_eq_add_of_lt hfuel
  obtain ⟨before, leaf, after, hsplit, hbefore, hlast, hiff, htop, hsearch⟩ := h.above.gtEqual_descends
    (fun node hnode => (List.mem_append.mp hnode).elim (h.leaf_ne node) (h.branch_ne node))
    (fun node hnode => (List.mem_append.mp hnode).elim (h.loadLeaf node) (h.loadBranch node))
    (h.rows_eq.symm ▸ h.ordered) hsrc
  rw [h.root_eq]
  by_cases hroot : sought key src ≤ lastKey key root
  · rw [Nat.add_assoc, Nat.add_comm, hsearch hroot]
    exact h.gtEqual_leaf hsrc hsplit hbefore hlast (Nat.zero_le _)
  · rcases htop with hone | ⟨hbranch, hne, hnode⟩
    · exact h.gtEqual_leaf hsrc (hone.trans (List.nil_append [root]).symm)
        (fun m hm => absurd hm List.not_mem_nil) (Or.inr rfl) (Nat.zero_le _)
    · -- all rows are less
      have hmem : leaf ∈ leaves := hsplit ▸ List.mem_append_right _ List.mem_cons_self
      have hrank := h.rank_rows hsplit hbefore hlast
      obtain rfl := hlast.resolve_left fun hle => hroot (hiff.mp hle)
      have hall : ¬ numLess key src root.entries < root.entries.length := fun hlt =>
        hroot ((rank_lt_iff hne hnode).mp hlt)
      rw [gtEqual.loop]
      dsimp only
      rw [gtEqual_chop hnode hsrc (Nat.zero_le _), hbranch, if_neg Bool.false_ne_true, WriteNode.getNumKeys,
        if_neg hall]
      exact h.goesTo_none hsplit hrank fun hlt =>
        hroot (hiff.mp ((rank_lt_iff (h.leaf_ne leaf hmem) (h.leaf_ordered hmem)).mp hlt))

end IsIndex

/-- `gtEqual` goes to the first row that is not less than `src`, from the start or from a row that is
less than `src`. -/
theorem gtEqual_goesTo (h : IsIndex key rows leaves levels root) (hsrc : key.keyHdr.keyedSize ≤ src.length)
    (hcursor : cursor.node = none ∨ ∃ i, At leaves cursor i ∧ i < numLess key src rows)
    (hfuel : levels.length < fuel) : GoesToRow key src rows leaves (gtEqual key fuel src cursor) := by
  rcases hcursor with hnone | ⟨i, hat, hless⟩
  · rw [gtEqual, hnone]
    exact h.gtEqual_root hsrc hfuel
  obtain ⟨before, leaf, after, hsplit, hnode, hkey, hbefore⟩ := h.forward hat hless
  have hordered := h.leaf_ordered (hsplit ▸ List.mem_append_right _ List.mem_cons_self)
  rw [gtEqual, hnode]
  dsimp only
  rw [WriteNode.getNumKeys]
  by_cases hnext : cursor.nodeKey < leaf.entries.length - 1
  · have hnext' : cursor.nodeKey + 1 < leaf.entries.length := Nat.add_lt_of_lt_sub hnext
    have hiff := (compareValueAt_nonpos_iff hordered hsrc hnext').trans
      (rank_le_iff hordered.sorted hnext').symm
    rw [if_pos hnext]
    by_cases hrow : numLess key src leaf.entries ≤ cursor.nodeKey + 1
    · -- the next row
      have hrank := le_antisymm hrow hkey
      have hle := (rank_lt_iff (List.ne_nil_of_length_pos (Nat.zero_lt_of_lt hnext')) hordered).mp
        (hrank.trans_lt hnext')
      rw [if_pos (hiff.mpr hrow)]
      exact h.goesTo_some hsplit hnext' (by rw [h.rank_rows hsplit hbefore (Or.inl hle), hrank])
    · rw [if_neg fun hle => hrow (hiff.mp hle)]
      by_cases hlwm : cursor.nodeKey + 1 < leaf.entries.length - 1 ∧
          compareValueAt key leaf src (leaf.entries.length - 1) ≤ 0
      · -- a row of this leaf
        have hend : leaf.entries.length - 1 < leaf.entries.length := Nat.sub_one_lt_of_lt hnext'
        have hlast := (compareValueAt_nonpos_iff hordered hsrc hend).mp hlwm.2
        obtain ⟨k, rfl⟩ := Nat.exists_eq_add_of_lt hfuel
        rw [if_pos hlwm]
        exact h.gtEqual_leaf hsrc hsplit hbefore
          (Or.inl (hlast.trans (le_lastKey hordered (List.getElem_mem hend)))) (not_le.mp hrow)
      · rw [if_neg hlwm]
        exact h.gtEqual_root hsrc hfuel
  · rw [if_neg hnext]
    exact h.gtEqual_root hsrc hfuel

/-- Two leaves with a row each, and a root above them. -/
def twoRows : List WriteNode :=
  [⟨280, 0, 560, true, [⟨0, [0, 0, 0, 1], 0⟩]⟩, ⟨560, 280, 0, true, [⟨0, [0, 0, 0, 3], 1⟩]⟩,
    ⟨840, 0, 0, false, [⟨280, [0, 0, 0, 1], 0⟩, ⟨560, [0, 0, 0, 3], 1⟩]⟩]

def twoRowsIndex : KeyIndex := ⟨smallHdr, fun pos => twoRows.find? (·.fpos == pos), twoRows[2], 280⟩

theorem gtEqual_twoRows : GoesToRow twoRowsIndex [0, 0, 0, 2] ((twoRows.take 2).flatMap WriteNode.entries)
    (twoRows.take 2) (gtEqual twoRowsIndex 2 [0, 0, 0, 2] KeyCursor.new) :=
  gtEqual_goesTo (show IsIndex _ _ _ [[twoRows[2]]] _ from
    { rows_eq := rfl, leaf_ne := by decide, linked := ⟨rfl, rfl, rfl, rfl⟩, loadLeaf := by decide
      firstLeaf_eq := rfl, leaf := by decide, branch_ne := by decide, loadBranch := by decide, root_eq := rfl
      above := .level rfl (by decide) ⟨rfl, rfl⟩ (.top _)
      ordered := ⟨by decide, by unfold Sorted; decide⟩ }) (by decide) (Or.inl rfl) (by decide)

end KeyBuilder

end HpccPlatform
