import HpccPlatform.Index.Crc32

/-!
# The CRC of an index file

`CKeyBuilder::writeNode` writes the nodes of an index in any order, and keeps the CRC of every
contiguous run of written nodes in an entry of two hash tables, one by the start of the run and
one by its end.  A node starts a run, extends one at either end, or joins two.  `finish` merges
the CRC of the header with the entry that is left.

The tables are used through the meaning of `SuperHashTable` as a map: a table is the list of the
entries in it, an entry is found by the position it has now, and `replace` takes the place of an
entry with the same position.  The entries are objects shared by the two tables, so they live in
a heap.
-/

namespace FileCrc

open List Crc32

/-- The bytes of a file. -/
abbrev File : Type := ℕ → UInt8

def writeAt (file : File) (pos : ℕ) (bytes : List UInt8) : File :=
  fun q => if pos ≤ q ∧ q < pos + bytes.length then bytes.getD (q - pos) 0 else file q

def bytesAt (file : File) (pos n : ℕ) : List UInt8 := (List.range n).map (fun i => file (pos + i))

/-- `CRC32HTE`; the CRC is the running one, not complemented. -/
structure Entry where
  crc : BitVec 32
  startBlockPos : ℕ
  endBlockPos : ℕ
  size : ℕ

/-- `CRC32::get` -/
def Entry.get (e : Entry) : BitVec 32 := ~~~e.crc

structure State where
  file : File
  heap : ℕ → Entry
  fresh : ℕ
  crcStartPosTable : List ℕ
  crcEndPosTable : List ℕ

def State.init (file : File) : State :=
  { file := file, heap := fun _ => ⟨0xffffffff#32, 0, 0, 0⟩, fresh := 0, crcStartPosTable := [],
    crcEndPosTable := [] }

/-- `find` in a table with the position `key` of its entries. -/
def find (table : List ℕ) (key : ℕ → ℕ) (pos : ℕ) : Option ℕ :=
  table.find? (fun id => decide (key id = pos))

/-- `replace` in a table with the position `key` of its entries. -/
def replace (table : List ℕ) (key : ℕ → ℕ) (id : ℕ) : List ℕ :=
  table.filter (fun other => decide (key other ≠ key id)) ++ [id]

namespace State

def startOf (s : State) (id : ℕ) : ℕ := (s.heap id).startBlockPos

def endOf (s : State) (id : ℕ) : ℕ := (s.heap id).endBlockPos

end State

/-- Two blocks one behind the other: the running CRC that `~merger.get()` gives. -/
def mergeTwo (size1 : ℕ) (crc1 : BitVec 32) (size2 : ℕ) (crc2 : BitVec 32) :
    Option (BitVec 32) := do
  let crc ← addChildCRC 0xffffffff#32 size1 crc1
  addChildCRC crc size2 crc2

/-- The node went behind the run of `id1` and before that of `id2`, which is removed completely;
`crc` is the CRC of both with the node between them. -/
def State.joined (s : State) (node : List UInt8) (nodePos id1 id2 : ℕ) (crc : BitVec 32) :
    State :=
  let e1 := s.heap id1
  let e2 := s.heap id2
  let heap := Function.update s.heap id1
    { e1 with crc := crc, size := e1.size + node.length + e2.size, endBlockPos := e2.endBlockPos }
  { s with
    file := writeAt s.file nodePos node, heap := heap,
    crcStartPosTable := s.crcStartPosTable.erase id2,
    crcEndPosTable := replace ((s.crcEndPosTable.erase id1).erase id2)
      (fun id => (heap id).endBlockPos) id1 }

/-- The node went behind the run of `id1`, whose end position changes. -/
def State.extended (s : State) (node : List UInt8) (nodePos id1 : ℕ) : State :=
  let e1 := s.heap id1
  let heap := Function.update s.heap id1
    { e1 with
      crc := crc32 node e1.crc, size := e1.size + node.length,
      endBlockPos := nodePos + node.length }
  { s with
    file := writeAt s.file nodePos node, heap := heap,
    crcEndPosTable := replace (s.crcEndPosTable.erase id1) (fun id => (heap id).endBlockPos) id1 }

/-- The node went before the run of `id1`, whose start position changes. -/
def State.preceded (s : State) (node : List UInt8) (nodePos id1 : ℕ) (crc : BitVec 32) : State :=
  let e1 := s.heap id1
  let heap := Function.update s.heap id1
    { e1 with crc := crc, startBlockPos := nodePos, size := e1.size + node.length }
  { s with
    file := writeAt s.file nodePos node, heap := heap,
    crcStartPosTable := replace (s.crcStartPosTable.erase id1)
      (fun id => (heap id).startBlockPos) id1 }

/-- The node started a run of its own. -/
def State.started (s : State) (node : List UInt8) (nodePos : ℕ) : State :=
  let id := s.fresh
  let heap := Function.update s.heap id
    ⟨crc32 node 0xffffffff#32, nodePos, nodePos + node.length, node.length⟩
  { s with
    file := writeAt s.file nodePos node, heap := heap, fresh := id + 1,
    crcStartPosTable := replace s.crcStartPosTable (fun id => (heap id).startBlockPos) id,
    crcEndPosTable := replace s.crcEndPosTable (fun id => (heap id).endBlockPos) id }

def writeNode (s : State) (node : List UInt8) (nodePos : ℕ) : Option State :=
  let nodeSize := node.length
  let endPos := nodePos + nodeSize
  match find s.crcEndPosTable s.endOf nodePos with
  | some id1 =>
    match find s.crcStartPosTable s.startOf endPos with
    | some id2 => do
      let e1 := s.heap id1
      let e2 := s.heap id2
      -- the node is tallied into the first CRC before the two are merged
      let crc ← mergeTwo (e1.size + nodeSize) (~~~(crc32 node e1.crc)) e2.size e2.get
      return s.joined node nodePos id1 id2 crc
    | none => some (s.extended node nodePos id1)
  | none =>
    match find s.crcStartPosTable s.startOf endPos with
    | some id1 => do
      let e1 := s.heap id1
      let crc ← mergeTwo nodeSize (fullCrc node) e1.size e1.get
      return s.preceded node nodePos id1 crc
    | none => some (s.started node nodePos)

/-- A row of calls of `writeNode`. -/
def writeNodes (s : State) : List (ℕ × List UInt8) → Option State
  | [] => some s
  | (pos, node) :: writes => do writeNodes (← writeNode s node pos) writes

/-- The end of `finish`, behind the header that it writes: the value of `fileCrc`. -/
def finish (s : State) (header : List UInt8) : Option (BitVec 32) := do
  if s.crcEndPosTable.length ≤ 1 then
    let crc ← addChildCRC 0xffffffff#32 header.length (fullCrc header)
    match s.crcEndPosTable.head? with
    | some id => return ~~~(← addChildCRC crc (s.heap id).size (s.heap id).get)
    | none => return ~~~crc
  else none

/-- The file as `finish` leaves it: the header is written over its place at the start. -/
def finished (s : State) (header : List UInt8) : File := writeAt s.file 0 header

section Bytes

variable {file : File} {pos n m : ℕ} {bytes : List UInt8}

theorem length_bytesAt : (bytesAt file pos n).length = n := by
  unfold bytesAt
  rw [List.length_map, List.length_range]

theorem bytesAt_append : bytesAt file pos (n + m) = bytesAt file pos n ++ bytesAt file (pos + n) m := by
  unfold bytesAt
  rw [List.range_add, List.map_append, List.map_map]
  congr 1
  apply List.map_congr_left
  intro i _
  simp only [Function.comp_apply]
  rw [Nat.add_assoc]

theorem bytesAt_writeAt_self : bytesAt (writeAt file pos bytes) pos bytes.length = bytes := by
  unfold bytesAt writeAt
  apply List.ext_getElem
  · rw [List.length_map, List.length_range]
  · intro i _ hi
    rw [List.getElem_map, List.getElem_range, if_pos ⟨by omega, by omega⟩,
      Nat.add_sub_cancel_left, List.getD_eq_getElem?_getD, List.getElem?_eq_getElem hi,
      Option.getD_some]

theorem bytesAt_writeAt_other {at_ : ℕ} (hapart : at_ + n ≤ pos ∨ pos + bytes.length ≤ at_) :
    bytesAt (writeAt file pos bytes) at_ n = bytesAt file at_ n := by
  unfold bytesAt
  apply List.map_congr_left
  intro i hi
  have hlt := List.mem_range.mp hi
  unfold writeAt
  rw [if_neg]
  rintro ⟨hge, hlt'⟩
  omega

end Bytes

section Runs

variable {w : List ℕ} {ns a b c d p : ℕ}

/-- The blocks of size `ns` at the positions `w` have been written, and `a` to `b` is a maximal
contiguous run of them. -/
structure IsRun (w : List ℕ) (ns a b : ℕ) : Prop where
  lt : a < b
  left : ns ∣ a
  right : ns ∣ b
  written : ∀ q, ns ∣ q → a ≤ q → q < b → q ∈ w
  ends : b ∉ w
  starts : ∀ q ∈ w, q + ns ≠ a

/-- Two aligned positions are equal or a block apart. -/
theorem le_of_lt_aligned {x y : ℕ} (hx : ns ∣ x) (hy : ns ∣ y) (hlt : x < y) : x + ns ≤ y := by
  obtain ⟨i, rfl⟩ := hx
  obtain ⟨j, rfl⟩ := hy
  have hij : i < j := Nat.lt_of_mul_lt_mul_left hlt
  calc ns * i + ns = ns * (i + 1) := by rw [Nat.mul_succ]
    _ ≤ ns * j := Nat.mul_le_mul_left ns hij

/-- Two runs with a block in common are the same. -/
theorem IsRun.unique (hpos : 0 < ns) (h1 : IsRun w ns a b) (h2 : IsRun w ns c d)
    (ha : a ≤ p) (hb : p < b) (hc : c ≤ p) (hd : p < d) : a = c ∧ b = d := by
  have hstart : ∀ {a b c d : ℕ}, IsRun w ns a b → IsRun w ns c d → a ≤ p → p < b → c ≤ p → p < d →
      ¬ c < a := by
    intro a b c d h1 h2 ha hb hc hd hlt
    have hle := le_of_lt_aligned h2.left h1.left hlt
    have hmem : a - ns ∈ w := by
      apply h2.written
      · exact Nat.dvd_sub h1.left dvd_rfl
      · omega
      · omega
    exact h1.starts _ hmem (by omega)
  have hend : ∀ {a b c d : ℕ}, IsRun w ns a b → IsRun w ns c d → a ≤ p → p < b → c ≤ p → p < d →
      ¬ b < d := by
    intro a b c d h1 h2 ha hb hc hd hlt
    exact h1.ends (h2.written b h1.right (by omega) hlt)
  have hca := hstart h1 h2 ha hb hc hd
  have hac := hstart h2 h1 hc hd ha hb
  have hbd := hend h1 h2 ha hb hc hd
  have hdb := hend h2 h1 hc hd ha hb
  omega

/-- A run is not touched by a block written elsewhere. -/
theorem IsRun.other (h : IsRun w ns a b) (hb : p ≠ b) (ha : p + ns ≠ a) :
    IsRun (p :: w) ns a b := by
  refine ⟨h.lt, h.left, h.right, ?_, ?_, ?_⟩
  · intro q hq hge hlt
    exact List.mem_cons_of_mem p (h.written q hq hge hlt)
  · intro hmem
    rcases List.mem_cons.mp hmem with heq | hmem
    · exact hb heq.symm
    · exact h.ends hmem
  · intro q hmem
    rcases List.mem_cons.mp hmem with rfl | hmem
    · exact ha
    · exact h.starts q hmem

/-- The run that a new block at `p` makes with what is on its left and on its right. -/
theorem isRun_join (hpos : 0 < ns) (hp : ns ∣ p)
    (hleft : (a = p ∧ ∀ q ∈ w, q + ns ≠ p) ∨ IsRun w ns a p)
    (hright : (b = p + ns ∧ p + ns ∉ w) ∨ IsRun w ns (p + ns) b) :
    IsRun (p :: w) ns a b := by
  have hap : a ≤ p := by
    rcases hleft with ⟨rfl, -⟩ | hl
    · exact le_rfl
    · exact hl.lt.le
  have hpb : p + ns ≤ b := by
    rcases hright with ⟨rfl, -⟩ | hr
    · exact le_rfl
    · exact hr.lt.le
  refine ⟨by omega, ?_, ?_, ?_, ?_, ?_⟩
  · rcases hleft with ⟨rfl, -⟩ | hl
    · exact hp
    · exact hl.left
  · rcases hright with ⟨rfl, -⟩ | hr
    · exact Nat.dvd_add hp dvd_rfl
    · exact hr.right
  · intro q hq hge hlt
    rcases Nat.lt_trichotomy q p with hqp | rfl | hpq
    · rcases hleft with ⟨rfl, -⟩ | hl
      · omega
      · exact List.mem_cons_of_mem p (hl.written q hq hge hqp)
    · exact List.mem_cons_self
    · have hle := le_of_lt_aligned hp hq hpq
      rcases hright with ⟨rfl, -⟩ | hr
      · omega
      · exact List.mem_cons_of_mem p (hr.written q hq hle hlt)
  · intro hmem
    rcases List.mem_cons.mp hmem with heq | hmem
    · omega
    · rcases hright with ⟨rfl, hnot⟩ | hr
      · exact hnot hmem
      · exact hr.ends hmem
  · intro q hmem
    rcases List.mem_cons.mp hmem with rfl | hold
    · omega
    · rcases hleft with ⟨rfl, hno⟩ | hl
      · exact hno q hold
      · exact hl.starts q hold

end Runs

/-- The tables after the blocks at `w` have been written: their entries are exactly the maximal
runs, each with its size and the CRC of its bytes. -/
structure TablesHold (ns : ℕ) (w : List ℕ) (s : State) : Prop where
  same : s.crcStartPosTable ~ s.crcEndPosTable
  nodup : s.crcStartPosTable.Nodup
  isRun : ∀ id ∈ s.crcStartPosTable, IsRun w ns (s.startOf id) (s.endOf id)
  size : ∀ id ∈ s.crcStartPosTable, (s.heap id).size = s.endOf id - s.startOf id
  crc : ∀ id ∈ s.crcStartPosTable, (s.heap id).crc =
    crc32 (bytesAt s.file (s.startOf id) (s.endOf id - s.startOf id)) 0xffffffff#32
  complete : ∀ a b, IsRun w ns a b → ∃ id ∈ s.crcStartPosTable, s.startOf id = a ∧ s.endOf id = b
  unique : ∀ id ∈ s.crcStartPosTable, ∀ id' ∈ s.crcStartPosTable,
    s.startOf id = s.startOf id' ∨ s.endOf id = s.endOf id' → id = id'

/-- The invariant of `writeNode`: every written block is in the run of an entry. -/
structure Tracked (ns : ℕ) (w : List ℕ) (s : State) : Prop where
  same : s.crcStartPosTable ~ s.crcEndPosTable
  nodup : s.crcStartPosTable.Nodup
  isRun : ∀ id ∈ s.crcStartPosTable, IsRun w ns (s.startOf id) (s.endOf id)
  size : ∀ id ∈ s.crcStartPosTable, (s.heap id).size = s.endOf id - s.startOf id
  crc : ∀ id ∈ s.crcStartPosTable, (s.heap id).crc =
    crc32 (bytesAt s.file (s.startOf id) (s.endOf id - s.startOf id)) 0xffffffff#32
  covers : ∀ q ∈ w, ∃ id ∈ s.crcStartPosTable, s.startOf id ≤ q ∧ q < s.endOf id
  unique : ∀ id ∈ s.crcStartPosTable, ∀ id' ∈ s.crcStartPosTable,
    s.startOf id = s.startOf id' ∨ s.endOf id = s.endOf id' → id = id'
  fresh : ∀ id ∈ s.crcStartPosTable, id < s.fresh

section Step

variable {ns p a b : ℕ} {w : List ℕ} {s s' : State} {node : List UInt8}

theorem Tracked.holds (ht : Tracked ns w s) (hpos : 0 < ns) : TablesHold ns w s := by
  refine ⟨ht.same, ht.nodup, ht.isRun, ht.size, ht.crc, ?_, ht.unique⟩
  intro a b hrun
  have hmem := hrun.written a hrun.left le_rfl hrun.lt
  obtain ⟨id, hid, hle, hlt⟩ := ht.covers a hmem
  obtain ⟨ha, hb⟩ := (ht.isRun id hid).unique hpos hrun hle hlt le_rfl hrun.lt
  exact ⟨id, hid, ha, hb⟩

/-- A block that has not been written is outside of every run. -/
theorem IsRun.apart (hrun : IsRun w ns a b) (hp : ns ∣ p) (hnew : p ∉ w) :
    b ≤ p ∨ p + ns ≤ a := by
  by_cases hlt : p < a
  · exact .inr (le_of_lt_aligned hp hrun.left hlt)
  · left
    by_contra hb
    exact hnew (hrun.written p hp (by omega) (by omega))

/-- A state in which the new block at `p` is in the run `a` to `b` of the entry `id0`, and the
other entries are as before. -/
theorem tracked_update (ht : Tracked ns w s) (hpos : 0 < ns) (hp : ns ∣ p) (hnew : p ∉ w)
    (hlen : node.length = ns) (hfile : s'.file = writeAt s.file p node) (id0 : ℕ)
    (hsame : s'.crcStartPosTable ~ s'.crcEndPosTable) (hnodup : s'.crcStartPosTable.Nodup)
    (hid0 : id0 ∈ s'.crcStartPosTable)
    (hother : ∀ id ∈ s'.crcStartPosTable, id ≠ id0 → id ∈ s.crcStartPosTable ∧
      s'.heap id = s.heap id ∧ s.endOf id ≠ p ∧ s.startOf id ≠ p + ns)
    (hrun : IsRun (p :: w) ns a b) (hap : a ≤ p) (hpb : p < b)
    (hstart : s'.startOf id0 = a) (hend : s'.endOf id0 = b) (hsize : (s'.heap id0).size = b - a)
    (hcrc : (s'.heap id0).crc = crc32 (bytesAt s'.file a (b - a)) 0xffffffff#32)
    (hkept : ∀ id ∈ s.crcStartPosTable,
      (id ∈ s'.crcStartPosTable ∧ id ≠ id0) ∨ (a ≤ s.startOf id ∧ s.endOf id ≤ b))
    (hfresh : ∀ id ∈ s'.crcStartPosTable, id < s'.fresh) : Tracked ns (p :: w) s' := by
  have hpositions : ∀ id ∈ s'.crcStartPosTable, id ≠ id0 →
      s'.startOf id = s.startOf id ∧ s'.endOf id = s.endOf id := by
    intro id hid hne
    obtain ⟨-, hheap, -, -⟩ := hother id hid hne
    unfold State.startOf State.endOf
    rw [hheap]
    exact ⟨rfl, rfl⟩
  have hruns : ∀ id ∈ s'.crcStartPosTable, id ≠ id0 →
      IsRun (p :: w) ns (s'.startOf id) (s'.endOf id) := by
    intro id hid hne
    obtain ⟨hold, -, hep, hsp⟩ := hother id hid hne
    obtain ⟨hs, he⟩ := hpositions id hid hne
    rw [hs, he]
    exact (ht.isRun id hold).other (Ne.symm hep) (Ne.symm hsp)
  -- no other entry shares an end with the new run, or it would have the new block in it
  have hdistinct : ∀ id ∈ s'.crcStartPosTable, id ≠ id0 →
      s'.startOf id ≠ a ∧ s'.endOf id ≠ b := by
    intro id hid hne
    have hr := hruns id hid hne
    obtain ⟨hold, -, -, -⟩ := hother id hid hne
    obtain ⟨hs, he⟩ := hpositions id hid hne
    have hout := (ht.isRun id hold).apart hp hnew
    rw [← hs, ← he] at hout
    refine ⟨?_, ?_⟩
    · intro heq
      have hlt := hr.lt
      obtain ⟨-, hb⟩ := hr.unique hpos hrun le_rfl hr.lt (by omega) (by omega : _ < b)
      omega
    · intro heq
      have hlast : s'.startOf id ≤ s'.endOf id - ns ∧ a ≤ s'.endOf id - ns := by
        have h1 := le_of_lt_aligned hr.left hr.right hr.lt
        have h2 := le_of_lt_aligned hrun.left hrun.right hrun.lt
        omega
      have hlt := hr.lt
      obtain ⟨ha, -⟩ := hr.unique hpos hrun hlast.1 (by omega) hlast.2 (by omega)
      omega
  refine ⟨hsame, hnodup, ?_, ?_, ?_, ?_, ?_, hfresh⟩
  · intro id hid
    by_cases hne : id = id0
    · rw [hne, hstart, hend]
      exact hrun
    · exact hruns id hid hne
  · intro id hid
    by_cases hne : id = id0
    · rw [hne, hstart, hend]
      exact hsize
    · obtain ⟨hold, hheap, -, -⟩ := hother id hid hne
      obtain ⟨hs, he⟩ := hpositions id hid hne
      rw [hheap, hs, he]
      exact ht.size id hold
  · intro id hid
    by_cases hne : id = id0
    · rw [hne, hstart, hend]
      exact hcrc
    · obtain ⟨hold, hheap, -, -⟩ := hother id hid hne
      obtain ⟨hs, he⟩ := hpositions id hid hne
      have hlt := (ht.isRun id hold).lt
      have hout := (ht.isRun id hold).apart hp hnew
      rw [hheap, hs, he, hfile, bytesAt_writeAt_other (by rw [hlen]; omega)]
      exact ht.crc id hold
  · intro q hq
    rcases List.mem_cons.mp hq with rfl | hq
    · exact ⟨id0, hid0, by omega, by omega⟩
    · obtain ⟨id, hid, hle, hlt⟩ := ht.covers q hq
      rcases hkept id hid with ⟨hid', hne⟩ | ⟨hs, he⟩
      · obtain ⟨hs, he⟩ := hpositions id hid' hne
        exact ⟨id, hid', by omega, by omega⟩
      · exact ⟨id0, hid0, by omega, by omega⟩
  · intro id hid id' hid' heq
    by_cases hne : id = id0
    · by_cases hne' : id' = id0
      · rw [hne, hne']
      · have hd := hdistinct id' hid' hne'
        rw [hne, hstart, hend] at heq
        rcases heq with heq | heq
        · exact absurd heq.symm hd.1
        · exact absurd heq.symm hd.2
    · have hd := hdistinct id hid hne
      by_cases hne' : id' = id0
      · rw [hne', hstart, hend] at heq
        rcases heq with heq | heq
        · exact absurd heq hd.1
        · exact absurd heq hd.2
      · obtain ⟨hs, he⟩ := hpositions id hid hne
        obtain ⟨hs', he'⟩ := hpositions id' hid' hne'
        rw [hs, he, hs', he'] at heq
        exact ht.unique id (hother id hid hne).1 id' (hother id' hid' hne').1 heq

/-- `replace` where no other entry has the position. -/
theorem replace_eq {table : List ℕ} {key : ℕ → ℕ} {id : ℕ}
    (h : ∀ other ∈ table, key other ≠ key id) : replace table key id = table ++ [id] := by
  unfold replace
  rw [List.filter_eq_self.mpr]
  intro other hmem
  exact decide_eq_true (h other hmem)

theorem find_eq_some {table : List ℕ} {key : ℕ → ℕ} {pos id : ℕ}
    (h : find table key pos = some id) : id ∈ table ∧ key id = pos := by
  unfold find at h
  refine ⟨List.mem_of_find?_eq_some h, ?_⟩
  have hkey := List.find?_some h
  exact of_decide_eq_true hkey

theorem find_eq_none {table : List ℕ} {key : ℕ → ℕ} {pos : ℕ} (h : find table key pos = none) :
    ∀ id ∈ table, key id ≠ pos := by
  intro id hid heq
  exact List.find?_eq_none.mp h id hid (decide_eq_true heq)

/-- Two blocks one behind the other. -/
theorem mergeTwo_spec {xs ys : List UInt8} (hx : xs.length < 2 ^ 48) (hy : ys.length < 2 ^ 48) :
    mergeTwo xs.length (fullCrc xs) ys.length (fullCrc ys) =
      some (crc32 (xs ++ ys) 0xffffffff#32) := by
  unfold mergeTwo
  rw [addChildCRC_spec _ hx]
  simp only [Option.bind_eq_bind, Option.bind_some]
  rw [addChildCRC_spec _ hy, crc32_append]

/-- Nothing is written right before `p` when no run ends there. -/
theorem Tracked.no_left (ht : Tracked ns w s) (hpos : 0 < ns) (halign : ∀ q ∈ w, ns ∣ q) (hp : ns ∣ p)
    (hnew : p ∉ w) (hnone : ∀ id ∈ s.crcStartPosTable, s.endOf id ≠ p) :
    ∀ q ∈ w, q + ns ≠ p := by
  intro q hq heq
  obtain ⟨id, hid, hle, hlt⟩ := ht.covers q hq
  have hrun := ht.isRun id hid
  have hge := le_of_lt_aligned (halign q hq) hrun.right hlt
  have hout := hrun.apart hp hnew
  have hne := hnone id hid
  omega

/-- Nothing is written right behind the block at `p` when no run starts there. -/
theorem Tracked.no_right (ht : Tracked ns w s) (hp : ns ∣ p) (hnew : p ∉ w)
    (hnone : ∀ id ∈ s.crcStartPosTable, s.startOf id ≠ p + ns) : p + ns ∉ w := by
  intro hq
  obtain ⟨id, hid, hle, hlt⟩ := ht.covers _ hq
  have hout := (ht.isRun id hid).apart hp hnew
  have hne := hnone id hid
  omega

/-- The running CRC of an entry, complemented, is the full CRC of its run. -/
theorem Tracked.get_eq (ht : Tracked ns w s) {id : ℕ} (hid : id ∈ s.crcStartPosTable) :
    (s.heap id).get = fullCrc (bytesAt s.file (s.startOf id) (s.endOf id - s.startOf id)) := by
  unfold Entry.get fullCrc
  rw [ht.crc id hid]

/-- The bytes of a run that a new block leaves alone. -/
theorem bytes_apart (hrun : IsRun w ns a b) (hp : ns ∣ p) (hnew : p ∉ w)
    (hlen : node.length = ns) (file : File) :
    bytesAt (writeAt file p node) a (b - a) = bytesAt file a (b - a) := by
  have hlt := hrun.lt
  have hout := hrun.apart hp hnew
  apply bytesAt_writeAt_other
  rw [hlen]
  omega

/-- The bytes of the run that a new block makes: what is on its left, the block, and what is on
its right. -/
theorem bytes_joined (hlen : node.length = ns) (hap : a ≤ p) (hpb : p + ns ≤ b) (file : File) :
    bytesAt (writeAt file p node) a (b - a) =
      bytesAt (writeAt file p node) a (p - a) ++ (node ++
        bytesAt (writeAt file p node) (p + ns) (b - (p + ns))) := by
  have hsum : b - a = (p - a) + (node.length + (b - (p + ns))) := by omega
  have hstart : a + (p - a) = p := by omega
  rw [hsum, bytesAt_append, bytesAt_append, hstart, bytesAt_writeAt_self, hlen]

/-- No run starts at a block that has not been written, and none ends behind it. -/
theorem Tracked.ends_elsewhere (ht : Tracked ns w s) (hpos : 0 < ns) (hp : ns ∣ p)
    (hnew : p ∉ w) {id : ℕ} (hid : id ∈ s.crcStartPosTable) :
    s.startOf id ≠ p ∧ s.endOf id ≠ p + ns := by
  have hrun := ht.isRun id hid
  have hout := hrun.apart hp hnew
  have hlt := hrun.lt
  omega

section Branches

variable (ht : Tracked ns w s) (hpos : 0 < ns) (hp : ns ∣ p) (hnew : p ∉ w)
  (hlen : node.length = ns)
include ht hpos hp hnew hlen

theorem extended_tracked {id1 : ℕ} (hid1 : id1 ∈ s.crcStartPosTable) (hend1 : s.endOf id1 = p)
    (hright : ∀ id ∈ s.crcStartPosTable, s.startOf id ≠ p + ns) :
    Tracked ns (p :: w) (s.extended node p id1) := by
  have hrun1 := ht.isRun id1 hid1
  rw [hend1] at hrun1
  have hlt1 := hrun1.lt
  have hmem1 : id1 ∈ s.crcEndPosTable := ht.same.mem_iff.mp hid1
  have hnodupEnd : s.crcEndPosTable.Nodup := ht.same.nodup_iff.mp ht.nodup
  have hheap : ∀ id, id ≠ id1 → (s.extended node p id1).heap id = s.heap id := by
    intro id hne
    exact Function.update_of_ne hne _ _
  have hheap1 : (s.extended node p id1).heap id1 = ⟨crc32 node (s.heap id1).crc,
      (s.heap id1).startBlockPos, p + node.length, (s.heap id1).size + node.length⟩ :=
    Function.update_self _ _ _
  have htable : (s.extended node p id1).crcEndPosTable = s.crcEndPosTable.erase id1 ++ [id1] := by
    apply replace_eq
    intro other hother
    obtain ⟨hne, hmem⟩ := (hnodupEnd.mem_erase_iff).mp hother
    have hold := (ht.ends_elsewhere hpos hp hnew (ht.same.mem_iff.mpr hmem)).2
    rw [Function.update_of_ne hne, Function.update_self, hlen]
    exact hold
  refine tracked_update ht hpos hp hnew hlen rfl id1 (a := s.startOf id1) (b := p + ns) ?_ ht.nodup
    hid1 ?_ (isRun_join hpos hp (.inr hrun1) (.inl ⟨rfl, ht.no_right hp hnew hright⟩)) hlt1.le
    (by omega) ?_ ?_ ?_ ?_ ?_ ht.fresh
  · rw [htable]
    exact ht.same.trans ((List.perm_cons_erase hmem1).trans (List.perm_append_singleton _ _).symm)
  · intro id hid hne
    refine ⟨hid, hheap id hne, ?_, hright id hid⟩
    intro heq
    exact hne (ht.unique id hid id1 hid1 (.inr (heq.trans hend1.symm)))
  · unfold State.startOf
    rw [hheap1]
  · unfold State.endOf
    rw [hheap1, hlen]
  · have hsize := ht.size id1 hid1
    rw [hheap1, hsize, hend1, hlen]
    simp only
    omega
  · have hcrc := ht.crc id1 hid1
    rw [hend1] at hcrc
    have hbytes := @bytes_joined ns p (s.startOf id1) (p + ns) node hlen hlt1.le le_rfl s.file
    rw [Nat.sub_self] at hbytes
    have hfile : (s.extended node p id1).file = writeAt s.file p node := rfl
    rw [hheap1, hfile, hbytes, bytes_apart hrun1 hp hnew hlen, crc32_append, ← hcrc]
    simp only [bytesAt, List.range_zero, List.map_nil, List.append_nil]
  · intro id hid
    by_cases hne : id = id1
    · right
      rw [hne, hend1]
      omega
    · exact .inl ⟨hid, hne⟩

theorem started_tracked (hleft : ∀ q ∈ w, q + ns ≠ p)
    (hends : ∀ id ∈ s.crcStartPosTable, s.endOf id ≠ p)
    (hright : ∀ id ∈ s.crcStartPosTable, s.startOf id ≠ p + ns) :
    Tracked ns (p :: w) (s.started node p) := by
  have hfresh : ∀ id ∈ s.crcStartPosTable, id ≠ s.fresh := by
    intro id hid heq
    have hlt := ht.fresh id hid
    omega
  have hheap : ∀ id, id ≠ s.fresh → (s.started node p).heap id = s.heap id := by
    intro id hne
    exact Function.update_of_ne hne _ _
  have hheap1 : (s.started node p).heap s.fresh =
      ⟨crc32 node 0xffffffff#32, p, p + node.length, node.length⟩ := Function.update_self _ _ _
  have hstartTable : (s.started node p).crcStartPosTable = s.crcStartPosTable ++ [s.fresh] := by
    apply replace_eq
    intro other hother
    rw [Function.update_of_ne (hfresh other hother), Function.update_self]
    exact (ht.ends_elsewhere hpos hp hnew hother).1
  have hendTable : (s.started node p).crcEndPosTable = s.crcEndPosTable ++ [s.fresh] := by
    apply replace_eq
    intro other hother
    have hold := ht.same.mem_iff.mpr hother
    rw [Function.update_of_ne (hfresh other hold), Function.update_self, hlen]
    exact (ht.ends_elsewhere hpos hp hnew hold).2
  have hmem : ∀ id ∈ (s.started node p).crcStartPosTable, id ≠ s.fresh →
      id ∈ s.crcStartPosTable := by
    intro id hid hne
    rw [hstartTable, List.mem_append, List.mem_singleton] at hid
    exact hid.resolve_right hne
  refine tracked_update ht hpos hp hnew hlen rfl s.fresh (a := p) (b := p + ns) ?_ ?_ ?_ ?_
    (isRun_join hpos hp (.inl ⟨rfl, hleft⟩) (.inl ⟨rfl, ht.no_right hp hnew hright⟩)) le_rfl
    (by omega) ?_ ?_ ?_ ?_ ?_ ?_
  · rw [hstartTable, hendTable]
    exact ht.same.append_right _
  · rw [hstartTable, List.nodup_append]
    refine ⟨ht.nodup, List.nodup_singleton _, ?_⟩
    intro id hid id' hid'
    rw [List.mem_singleton.mp hid']
    exact hfresh id hid
  · rw [hstartTable]
    exact List.mem_append_right _ (List.mem_singleton.mpr rfl)
  · intro id hid hne
    have hold := hmem id hid hne
    exact ⟨hold, hheap id hne, hends id hold, hright id hold⟩
  · unfold State.startOf
    rw [hheap1]
  · unfold State.endOf
    rw [hheap1, hlen]
  · rw [hheap1, hlen]
    simp only
    omega
  · have hfile : (s.started node p).file = writeAt s.file p node := rfl
    rw [hheap1, hfile, Nat.add_sub_cancel_left, ← hlen, bytesAt_writeAt_self]
  · intro id hid
    rw [hstartTable]
    exact .inl ⟨List.mem_append_left _ hid, hfresh id hid⟩
  · intro id hid
    rw [hstartTable, List.mem_append, List.mem_singleton] at hid
    have hnext : (s.started node p).fresh = s.fresh + 1 := rfl
    rw [hnext]
    rcases hid with hid | rfl
    · have hlt := ht.fresh id hid
      omega
    · omega

theorem preceded_tracked {id1 : ℕ} (hid1 : id1 ∈ s.crcStartPosTable)
    (hstart1 : s.startOf id1 = p + ns) (hleft : ∀ q ∈ w, q + ns ≠ p)
    (hends : ∀ id ∈ s.crcStartPosTable, s.endOf id ≠ p) {crc : BitVec 32}
    (hcrc : crc = crc32 (node ++ bytesAt s.file (p + ns) (s.endOf id1 - (p + ns)))
      0xffffffff#32) :
    Tracked ns (p :: w) (s.preceded node p id1 crc) := by
  have hrun1 := ht.isRun id1 hid1
  rw [hstart1] at hrun1
  have hlt1 := hrun1.lt
  have hheap : ∀ id, id ≠ id1 → (s.preceded node p id1 crc).heap id = s.heap id := by
    intro id hne
    exact Function.update_of_ne hne _ _
  have hheap1 : (s.preceded node p id1 crc).heap id1 =
      ⟨crc, p, (s.heap id1).endBlockPos, (s.heap id1).size + node.length⟩ :=
    Function.update_self _ _ _
  have htable : (s.preceded node p id1 crc).crcStartPosTable =
      s.crcStartPosTable.erase id1 ++ [id1] := by
    apply replace_eq
    intro other hother
    obtain ⟨hne, hmem⟩ := (ht.nodup.mem_erase_iff).mp hother
    rw [Function.update_of_ne hne, Function.update_self]
    exact (ht.ends_elsewhere hpos hp hnew hmem).1
  have hperm : (s.preceded node p id1 crc).crcStartPosTable ~ s.crcStartPosTable := by
    rw [htable]
    exact (List.perm_append_singleton _ _).trans (List.perm_cons_erase hid1).symm
  refine tracked_update ht hpos hp hnew hlen rfl id1 (a := p) (b := s.endOf id1) (hperm.trans ht.same)
    (hperm.nodup_iff.mpr ht.nodup) (hperm.mem_iff.mpr hid1) ?_
    (isRun_join hpos hp (.inl ⟨rfl, hleft⟩) (.inr hrun1)) le_rfl
    (by omega) ?_ ?_ ?_ ?_ ?_ ?_
  · intro id hid hne
    have hold := hperm.mem_iff.mp hid
    refine ⟨hold, hheap id hne, hends id hold, ?_⟩
    intro heq
    exact hne (ht.unique id hold id1 hid1 (.inl (heq.trans hstart1.symm)))
  · unfold State.startOf
    rw [hheap1]
  · unfold State.endOf
    rw [hheap1]
  · have hsize := ht.size id1 hid1
    rw [hheap1, hsize, hstart1, hlen]
    simp only
    omega
  · have hbytes := @bytes_joined ns p p (s.endOf id1) node hlen le_rfl hlt1.le s.file
    rw [Nat.sub_self] at hbytes
    have hfile : (s.preceded node p id1 crc).file = writeAt s.file p node := rfl
    rw [hheap1, hfile, hbytes, bytes_apart hrun1 hp hnew hlen, hcrc]
    simp only [bytesAt, List.range_zero, List.map_nil, List.nil_append]
  · intro id hid
    by_cases hne : id = id1
    · right
      rw [hne, hstart1]
      omega
    · exact .inl ⟨hperm.mem_iff.mpr hid, hne⟩
  · intro id hid
    exact ht.fresh id (hperm.mem_iff.mp hid)

theorem joined_tracked {id1 id2 : ℕ} (hid1 : id1 ∈ s.crcStartPosTable) (hend1 : s.endOf id1 = p)
    (hid2 : id2 ∈ s.crcStartPosTable) (hstart2 : s.startOf id2 = p + ns) {crc : BitVec 32}
    (hcrc : crc = crc32 (bytesAt s.file (s.startOf id1) (p - s.startOf id1) ++
      (node ++ bytesAt s.file (p + ns) (s.endOf id2 - (p + ns)))) 0xffffffff#32) :
    Tracked ns (p :: w) (s.joined node p id1 id2 crc) := by
  have hrun1 := ht.isRun id1 hid1
  rw [hend1] at hrun1
  have hlt1 := hrun1.lt
  have hrun2 := ht.isRun id2 hid2
  rw [hstart2] at hrun2
  have hlt2 := hrun2.lt
  have hne12 : id1 ≠ id2 := by
    intro heq
    rw [heq] at hend1
    omega
  have hmem1 : id1 ∈ s.crcEndPosTable := ht.same.mem_iff.mp hid1
  have hnodupEnd : s.crcEndPosTable.Nodup := ht.same.nodup_iff.mp ht.nodup
  have hheap : ∀ id, id ≠ id1 → (s.joined node p id1 id2 crc).heap id = s.heap id := by
    intro id hne
    exact Function.update_of_ne hne _ _
  have hheap1 : (s.joined node p id1 id2 crc).heap id1 =
      ⟨crc, (s.heap id1).startBlockPos, (s.heap id2).endBlockPos,
        (s.heap id1).size + node.length + (s.heap id2).size⟩ := Function.update_self _ _ _
  have htable : (s.joined node p id1 id2 crc).crcEndPosTable =
      (s.crcEndPosTable.erase id1).erase id2 ++ [id1] := by
    apply replace_eq
    intro other hother
    obtain ⟨hne2, hmem⟩ := ((hnodupEnd.erase id1).mem_erase_iff).mp hother
    obtain ⟨hne1, hmem⟩ := (hnodupEnd.mem_erase_iff).mp hmem
    rw [Function.update_of_ne hne1, Function.update_self]
    intro heq
    exact hne2 (ht.unique other (ht.same.mem_iff.mpr hmem) id2 hid2 (.inr heq))
  have hmem : ∀ id, id ∈ (s.joined node p id1 id2 crc).crcStartPosTable ↔
      id ≠ id2 ∧ id ∈ s.crcStartPosTable := fun id => ht.nodup.mem_erase_iff
  refine tracked_update ht hpos hp hnew hlen rfl id1 (a := s.startOf id1) (b := s.endOf id2) ?_
    (ht.nodup.erase id2) ((hmem id1).mpr ⟨hne12, hid1⟩) ?_
    (isRun_join hpos hp (.inr hrun1) (.inr hrun2)) hlt1.le
    (by omega) ?_ ?_ ?_ ?_ ?_ ?_
  · rw [htable]
    have hin : id1 ∈ s.crcEndPosTable.erase id2 := hnodupEnd.mem_erase_iff.mpr ⟨hne12, hmem1⟩
    refine (ht.same.erase id2).trans ((List.perm_cons_erase hin).trans ?_)
    rw [List.erase_comm]
    exact (List.perm_append_singleton _ _).symm
  · intro id hid hne
    obtain ⟨hne2, hold⟩ := (hmem id).mp hid
    refine ⟨hold, hheap id hne, ?_, ?_⟩
    · intro heq
      exact hne (ht.unique id hold id1 hid1 (.inr (heq.trans hend1.symm)))
    · intro heq
      exact hne2 (ht.unique id hold id2 hid2 (.inl (heq.trans hstart2.symm)))
  · unfold State.startOf
    rw [hheap1]
  · unfold State.endOf
    rw [hheap1]
  · have hsize1 := ht.size id1 hid1
    have hsize2 := ht.size id2 hid2
    rw [hheap1, hsize1, hsize2, hend1, hstart2, hlen]
    simp only
    omega
  · have hbytes := @bytes_joined ns p (s.startOf id1) (s.endOf id2) node hlen hlt1.le hlt2.le s.file
    have hfile : (s.joined node p id1 id2 crc).file = writeAt s.file p node := rfl
    rw [hheap1, hfile, hbytes, bytes_apart hrun1 hp hnew hlen, bytes_apart hrun2 hp hnew hlen,
      hcrc]
  · intro id hid
    by_cases hne : id = id1
    · right
      rw [hne, hend1]
      omega
    · by_cases hne2 : id = id2
      · right
        rw [hne2, hstart2]
        omega
      · exact .inl ⟨(hmem id).mpr ⟨hne2, hid⟩, hne⟩
  · intro id hid
    exact ht.fresh id ((hmem id).mp hid).2

end Branches

/-- One call of `writeNode` at a new aligned position. -/
theorem writeNode_spec (ht : Tracked ns w s) (hpos : 0 < ns) (hlen : node.length = ns)
    (halign : ∀ q ∈ w, ns ∣ q) (hp : ns ∣ p) (hnew : p ∉ w)
    (hbound : ∀ a b, IsRun (p :: w) ns a b → b - a < 2 ^ 48) :
    ∃ s', writeNode s node p = some s' ∧ Tracked ns (p :: w) s' ∧
      s'.file = writeAt s.file p node := by
  unfold writeNode
  simp only [hlen]
  cases hfind1 : find s.crcEndPosTable s.endOf p with
  | some id1 =>
    obtain ⟨hmem1, hend1⟩ := find_eq_some hfind1
    have hid1 := ht.same.mem_iff.mpr hmem1
    cases hfind2 : find s.crcStartPosTable s.startOf (p + ns) with
    | some id2 =>
      obtain ⟨hid2, hstart2⟩ := find_eq_some hfind2
      have hrun1 := ht.isRun id1 hid1
      rw [hend1] at hrun1
      have hrun2 := ht.isRun id2 hid2
      rw [hstart2] at hrun2
      have hlt1 := hrun1.lt
      have hlt2 := hrun2.lt
      have hlim := hbound _ _ (isRun_join hpos hp (.inr hrun1) (.inr hrun2))
      have hcrc1 := ht.crc id1 hid1
      rw [hend1] at hcrc1
      have hmerge := @mergeTwo_spec (bytesAt s.file (s.startOf id1) (p - s.startOf id1) ++ node)
        (bytesAt s.file (p + ns) (s.endOf id2 - (p + ns)))
        (by rw [List.length_append, length_bytesAt, hlen]; omega) (by rw [length_bytesAt]; omega)
      rw [List.append_assoc, List.length_append, length_bytesAt, length_bytesAt, hlen] at hmerge
      have hsum : mergeTwo ((s.heap id1).size + ns) (~~~(crc32 node (s.heap id1).crc))
          (s.heap id2).size (s.heap id2).get = some (crc32
            (bytesAt s.file (s.startOf id1) (p - s.startOf id1) ++
              (node ++ bytesAt s.file (p + ns) (s.endOf id2 - (p + ns)))) 0xffffffff#32) := by
        rw [ht.size id1 hid1, ht.size id2 hid2, ht.get_eq hid2, hend1, hstart2, hcrc1,
          ← crc32_append]
        exact hmerge
      simp only [hsum, Option.bind_eq_bind, Option.bind_some]
      exact ⟨_, rfl, joined_tracked ht hpos hp hnew hlen hid1 hend1 hid2 hstart2 rfl, rfl⟩
    | none =>
      exact ⟨_, rfl, extended_tracked ht hpos hp hnew hlen hid1 hend1 (find_eq_none hfind2), rfl⟩
  | none =>
    have hends : ∀ id ∈ s.crcStartPosTable, s.endOf id ≠ p := by
      intro id hid
      exact find_eq_none hfind1 id (ht.same.mem_iff.mp hid)
    have hleft := ht.no_left hpos halign hp hnew hends
    cases hfind2 : find s.crcStartPosTable s.startOf (p + ns) with
    | some id1 =>
      obtain ⟨hid1, hstart1⟩ := find_eq_some hfind2
      have hrun1 := ht.isRun id1 hid1
      rw [hstart1] at hrun1
      have hlt1 := hrun1.lt
      have hlim := hbound _ _ (isRun_join hpos hp (.inl ⟨rfl, hleft⟩) (.inr hrun1))
      have hmerge := @mergeTwo_spec node (bytesAt s.file (p + ns) (s.endOf id1 - (p + ns)))
        (by omega) (by rw [length_bytesAt]; omega)
      rw [length_bytesAt, hlen] at hmerge
      have hsum : mergeTwo ns (fullCrc node) (s.heap id1).size (s.heap id1).get =
          some (crc32 (node ++ bytesAt s.file (p + ns) (s.endOf id1 - (p + ns)))
            0xffffffff#32) := by
        rw [ht.size id1 hid1, ht.get_eq hid1, hstart1]
        exact hmerge
      simp only [hsum, Option.bind_eq_bind, Option.bind_some]
      exact ⟨_, rfl, preceded_tracked ht hpos hp hnew hlen hid1 hstart1 hleft hends rfl, rfl⟩
    | none =>
      exact ⟨_, rfl, started_tracked ht hpos hp hnew hlen hleft hends (find_eq_none hfind2), rfl⟩

theorem IsRun.congr {w w' : List ℕ} (hrun : IsRun w ns a b) (hw : ∀ q, q ∈ w ↔ q ∈ w') :
    IsRun w' ns a b :=
  ⟨hrun.lt, hrun.left, hrun.right, fun q hq hge hlt => (hw q).mp (hrun.written q hq hge hlt),
    fun hmem => hrun.ends ((hw b).mpr hmem), fun q hmem => hrun.starts q ((hw q).mpr hmem)⟩

/-- Only which blocks have been written matters, not their order. -/
theorem TablesHold.congr {w w' : List ℕ} (hh : TablesHold ns w s) (hw : ∀ q, q ∈ w ↔ q ∈ w') :
    TablesHold ns w' s :=
  ⟨hh.same, hh.nodup, fun id hid => (hh.isRun id hid).congr hw, hh.size, hh.crc,
    fun a b hrun => hh.complete a b (hrun.congr (fun q => (hw q).symm)), hh.unique⟩

/-- A run lies between the first and the last written block. -/
theorem IsRun.within {base limit : ℕ} (hpos : 0 < ns) (hrun : IsRun w ns a b)
    (hw : ∀ q ∈ w, base ≤ q ∧ q + ns ≤ limit) : base ≤ a ∧ b ≤ limit := by
  have hfirst := hw a (hrun.written a hrun.left le_rfl hrun.lt)
  have hle := le_of_lt_aligned hrun.left hrun.right hrun.lt
  have hlast := hw (b - ns)
    (hrun.written _ (Nat.dvd_sub hrun.right dvd_rfl) (by omega) (by omega))
  omega

/-- A row of calls of `writeNode` at distinct aligned positions within `2 ^ 48` bytes. -/
theorem writeNodes_spec (hpos : 0 < ns) {base limit : ℕ} (hlimit : limit - base < 2 ^ 48) :
    ∀ (writes : List (ℕ × List UInt8)) (w : List ℕ) (s : State), Tracked ns w s →
      (∀ x ∈ writes, x.2.length = ns) →
      (∀ q ∈ writes.map Prod.fst ++ w, ns ∣ q ∧ base ≤ q ∧ q + ns ≤ limit) →
      (writes.map Prod.fst ++ w).Nodup →
      ∃ s', writeNodes s writes = some s' ∧ Tracked ns ((writes.map Prod.fst).reverse ++ w) s' ∧
        s'.file = writes.foldl (fun f x => writeAt f x.1 x.2) s.file := by
  intro writes
  induction writes with
  | nil =>
    intro w s ht _ _ _
    exact ⟨s, rfl, ht, rfl⟩
  | cons x writes ih =>
    intro w s ht hlens hall hnodup
    rw [List.map_cons, List.cons_append] at hall hnodup
    obtain ⟨hx, hrest⟩ := List.forall_mem_cons.mp hall
    obtain ⟨hfresh, hnodup'⟩ := List.nodup_cons.mp hnodup
    have hw : ∀ q ∈ w, ns ∣ q ∧ base ≤ q ∧ q + ns ≤ limit :=
      fun q hq => hrest q (List.mem_append_right _ hq)
    have hbound : ∀ a b, IsRun (x.1 :: w) ns a b → b - a < 2 ^ 48 := by
      intro a b hrun
      have hwithin := @IsRun.within ns a b (x.1 :: w) base limit hpos hrun (by
        intro q hq
        rcases List.mem_cons.mp hq with rfl | hq
        · exact hx.2
        · exact (hw q hq).2)
      omega
    obtain ⟨s1, hwrite, ht1, hfile1⟩ := writeNode_spec ht hpos (hlens x List.mem_cons_self)
      (fun q hq => (hw q hq).1) hx.1 (fun hmem => hfresh (List.mem_append_right _ hmem)) hbound
    have hmem : ∀ q, q ∈ writes.map Prod.fst ++ x.1 :: w ↔
        q ∈ x.1 :: (writes.map Prod.fst ++ w) := fun q => (List.perm_middle).mem_iff
    obtain ⟨s2, hrun, ht2, hfile2⟩ := ih (x.1 :: w) s1 ht1
      (fun y hy => hlens y (List.mem_cons_of_mem x hy))
      (fun q hq => hall q ((hmem q).mp hq))
      (List.perm_middle.nodup_iff.mpr (List.nodup_cons.mpr ⟨hfresh, hnodup'⟩))
    refine ⟨s2, ?_, ?_, ?_⟩
    · unfold writeNodes
      simp only [hwrite, Option.bind_eq_bind, Option.bind_some]
      exact hrun
    · rw [List.map_cons, List.reverse_cons, List.append_assoc]
      exact ht2
    · rw [hfile2, hfile1]
      rfl

end Step

/-- An index file and the order in which its nodes are written: the header and the nodes have
the node size, and the positions of the nodes are the blocks behind the header. -/
structure KeyFile where
  nodeSize : ℕ
  size_pos : 0 < nodeSize
  size_le : nodeSize ≤ 0xffff
  header : List UInt8
  header_length : header.length = nodeSize
  writes : List (ℕ × List UInt8)
  writes_ne : writes ≠ []
  node_length : ∀ x ∈ writes, x.2.length = nodeSize
  positions : writes.map Prod.fst ~
    (List.range writes.length).map (fun i => nodeSize * (i + 1))
  fits : nodeSize * (writes.length + 1) < 2 ^ 64

namespace KeyFile

variable (k : KeyFile)

/-- The bytes of all nodes together. -/
def nodeBytes : ℕ := k.nodeSize * k.writes.length

/-- The state after the first `i` nodes, from an empty file. -/
def stateAfter (i : ℕ) : Option State := writeNodes (State.init (fun _ => 0)) (k.writes.take i)

/-- At every point the tables hold the runs written so far, one entry is left at the end, and
`finish` reports the CRC of the file. -/
def Reported : Prop :=
  (∀ i ≤ k.writes.length, ∃ s, k.stateAfter i = some s ∧
    TablesHold k.nodeSize ((k.writes.take i).map Prod.fst) s) ∧
  ∃ s, k.stateAfter k.writes.length = some s ∧ s.crcEndPosTable.length = 1 ∧
    finish s k.header =
      some (fullCrc (bytesAt (finished s k.header) 0 (k.nodeSize * (k.writes.length + 1))))

theorem mem_positions {q : ℕ} : q ∈ k.writes.map Prod.fst ↔
    ∃ i < k.writes.length, q = k.nodeSize * (i + 1) := by
  rw [k.positions.mem_iff, List.mem_map]
  constructor
  · rintro ⟨i, hi, rfl⟩
    exact ⟨i, List.mem_range.mp hi, rfl⟩
  · rintro ⟨i, hi, rfl⟩
    exact ⟨i, List.mem_range.mpr hi, rfl⟩

theorem positions_nodup : (k.writes.map Prod.fst).Nodup := by
  rw [k.positions.nodup_iff]
  apply List.Nodup.map _ List.nodup_range
  intro i j hij
  have hmul := Nat.eq_of_mul_eq_mul_left k.size_pos hij
  omega

theorem position_spec {q : ℕ} (hq : q ∈ k.writes.map Prod.fst) :
    k.nodeSize ∣ q ∧ k.nodeSize ≤ q ∧ q + k.nodeSize ≤ k.nodeSize * (k.writes.length + 1) := by
  obtain ⟨i, hi, rfl⟩ := k.mem_positions.mp hq
  refine ⟨Nat.dvd_mul_right _ _, Nat.le_mul_of_pos_right _ (by omega), ?_⟩
  rw [← Nat.mul_succ]
  exact Nat.mul_le_mul_left _ (by omega)

/-- All the nodes together are one run. -/
theorem isRun_all : IsRun (k.writes.map Prod.fst) k.nodeSize k.nodeSize
    (k.nodeSize * (k.writes.length + 1)) := by
  have hne : 0 < k.writes.length := List.length_pos_iff.mpr k.writes_ne
  have hpos := k.size_pos
  refine ⟨?_, dvd_rfl, Nat.dvd_mul_right _ _, ?_, ?_, ?_⟩
  · calc k.nodeSize < k.nodeSize * 2 := by omega
      _ ≤ k.nodeSize * (k.writes.length + 1) := Nat.mul_le_mul_left _ (by omega)
  · rintro q ⟨j, rfl⟩ hge hlt
    have hj : j < k.writes.length + 1 := Nat.lt_of_mul_lt_mul_left hlt
    have hj0 : j ≠ 0 := by
      rintro rfl
      omega
    refine k.mem_positions.mpr ⟨j - 1, by omega, ?_⟩
    rw [Nat.sub_add_cancel (by omega)]
  · intro hmem
    have hspec := k.position_spec hmem
    omega
  · intro q hq heq
    have hspec := k.position_spec hq
    omega

/-- Tables that hold the runs of all nodes have one entry, for the whole. -/
theorem single_entry {s : State} (hh : TablesHold k.nodeSize (k.writes.map Prod.fst) s) :
    ∃ id, s.crcEndPosTable = [id] ∧ (s.heap id).size = k.nodeBytes ∧ (s.heap id).crc =
      crc32 (bytesAt s.file k.nodeSize k.nodeBytes) 0xffffffff#32 := by
  obtain ⟨id, hid, hstart, hend⟩ := hh.complete _ _ k.isRun_all
  have hbytes : s.endOf id - s.startOf id = k.nodeBytes := by
    unfold nodeBytes
    rw [hstart, hend, Nat.mul_succ]
    omega
  have honly : ∀ id' ∈ s.crcEndPosTable, id' = id := by
    intro id' hid'
    have hold := hh.same.mem_iff.mpr hid'
    have hrun := hh.isRun id' hold
    have hfirst := k.position_spec (hrun.written _ hrun.left le_rfl hrun.lt)
    obtain ⟨ha, -⟩ := hrun.unique k.size_pos k.isRun_all le_rfl hrun.lt hfirst.2.1
      (by have := k.size_pos; omega)
    exact hh.unique id' hold id hid (.inl (ha.trans hstart.symm))
  have htable : s.crcEndPosTable = [id] := by
    have hnodup : s.crcEndPosTable.Nodup := hh.same.nodup_iff.mp hh.nodup
    have hmem : id ∈ s.crcEndPosTable := hh.same.mem_iff.mp hid
    cases htab : s.crcEndPosTable with
    | nil =>
      rw [htab] at hmem
      exact absurd hmem List.not_mem_nil
    | cons x rest =>
      rw [htab] at honly hnodup
      obtain ⟨hx, hrest⟩ := List.forall_mem_cons.mp honly
      cases rest with
      | nil => rw [hx]
      | cons y rest =>
        have hy := hrest y List.mem_cons_self
        rw [hx, hy] at hnodup
        exact absurd List.mem_cons_self (List.nodup_cons.mp hnodup).1
  refine ⟨id, htable, ?_, ?_⟩
  · rw [hh.size id hid, hbytes]
  · rw [hh.crc id hid, hbytes, hstart]

/-- The tables hold the runs as long as all the nodes take less than `2 ^ 48` bytes. -/
theorem stateAfter_holds (hsmall : k.nodeBytes < 2 ^ 48) (i : ℕ) :
    ∃ s, k.stateAfter i = some s ∧
      TablesHold k.nodeSize ((k.writes.take i).map Prod.fst) s := by
  have hfront : (k.writes.take i).map Prod.fst <+ k.writes.map Prod.fst :=
    (List.take_sublist i k.writes).map Prod.fst
  have hinit : Tracked k.nodeSize [] (State.init (fun _ => 0)) := by
    refine ⟨Perm.refl _, List.nodup_nil, ?_, ?_, ?_, ?_, ?_, ?_⟩ <;>
      exact fun x hx => absurd hx List.not_mem_nil
  have hlimit : k.nodeSize * (k.writes.length + 1) - k.nodeSize < 2 ^ 48 := by
    have heq : k.nodeSize * (k.writes.length + 1) - k.nodeSize = k.nodeBytes := by
      unfold nodeBytes
      rw [Nat.mul_succ]
      omega
    rw [heq]
    exact hsmall
  obtain ⟨s, hrun, ht, -⟩ := writeNodes_spec k.size_pos hlimit (k.writes.take i) []
    (State.init (fun _ => 0)) hinit (fun x hx => k.node_length x (List.mem_of_mem_take hx))
    (by
      intro q hq
      rw [List.append_nil] at hq
      exact k.position_spec (hfront.subset hq))
    (by
      rw [List.append_nil]
      exact k.positions_nodup.sublist hfront)
  refine ⟨s, hrun, (ht.holds k.size_pos).congr ?_⟩
  intro q
  rw [List.append_nil, List.mem_reverse]

theorem reported_of_small (hsmall : k.nodeBytes < 2 ^ 48) : k.Reported := by
  refine ⟨fun i _ => k.stateAfter_holds hsmall i, ?_⟩
  obtain ⟨s, hrun, hh⟩ := k.stateAfter_holds hsmall k.writes.length
  rw [List.take_length] at hh
  obtain ⟨id, htable, hsize, hcrc⟩ := k.single_entry hh
  refine ⟨s, hrun, by rw [htable]; rfl, ?_⟩
  have hheader : k.header.length < 2 ^ 48 := by
    have := k.size_le
    rw [k.header_length]
    omega
  have hget : (s.heap id).get = fullCrc (bytesAt s.file k.nodeSize k.nodeBytes) := by
    unfold Entry.get fullCrc
    rw [hcrc]
  have hbytes : bytesAt (finished s k.header) 0 (k.nodeSize * (k.writes.length + 1)) =
      k.header ++ bytesAt s.file k.nodeSize k.nodeBytes := by
    have hsum : k.nodeSize * (k.writes.length + 1) = k.header.length + k.nodeBytes := by
      unfold nodeBytes
      rw [k.header_length, Nat.mul_succ]
      omega
    unfold finished
    rw [hsum, bytesAt_append, bytesAt_writeAt_self, Nat.zero_add, k.header_length,
      bytesAt_writeAt_other (.inr (by rw [k.header_length]; omega))]
  have hchild := addChildCRC_spec (crc32 k.header 0xffffffff#32)
    (show (bytesAt s.file k.nodeSize k.nodeBytes).length < 2 ^ 48 by
      rw [length_bytesAt]; exact hsmall)
  rw [length_bytesAt] at hchild
  unfold finish
  rw [htable, if_pos (show [id].length ≤ 1 from le_rfl), addChildCRC_spec _ hheader]
  simp only [Option.bind_eq_bind, Option.bind_some, List.head?_cons, hsize, hget, hchild]
  unfold fullCrc
  rw [hbytes, crc32_append]
  rfl

/-- From `2 ^ 48` bytes of nodes on, merging the last entry reads past the table of powers. -/
theorem not_reported_of_large (hlarge : 2 ^ 48 ≤ k.nodeBytes) : ¬ k.Reported := by
  rintro ⟨hall, s, hrun, -, hfinish⟩
  obtain ⟨s', hrun', hh⟩ := hall _ le_rfl
  rw [hrun] at hrun'
  cases hrun'
  rw [List.take_length] at hh
  obtain ⟨id, htable, hsize, -⟩ := k.single_entry hh
  have hheader : k.header.length < 2 ^ 48 := by
    have := k.size_le
    rw [k.header_length]
    omega
  have hlt : k.nodeBytes < 2 ^ 64 := by
    have := k.fits
    unfold nodeBytes
    rw [Nat.mul_succ] at this
    omega
  unfold finish at hfinish
  rw [htable, if_pos (show [id].length ≤ 1 from le_rfl), addChildCRC_spec _ hheader] at hfinish
  simp only [Option.bind_eq_bind, Option.bind_some, List.head?_cons, hsize,
    addChildCRC_eq_none _ _ hlarge hlt] at hfinish
  exact absurd hfinish (by simp)

/-- The builder reports the CRC of the file exactly when all the nodes together take less than
`2 ^ 48` bytes. -/
theorem reported_iff (k : KeyFile) : k.Reported ↔ k.nodeBytes < 2 ^ 48 := by
  constructor
  · intro hrep
    by_contra hge
    exact k.not_reported_of_large (Nat.le_of_not_lt hge) hrep
  · exact k.reported_of_small

end KeyFile

/-- A file of `n` nodes of 8192 zero bytes, written in order. -/
def zeroFile (n : ℕ) (hn : n ≠ 0) (hfits : 8192 * (n + 1) < 2 ^ 64) : KeyFile where
  nodeSize := 8192
  size_pos := by decide
  size_le := by decide
  header := List.replicate 8192 0
  header_length := List.length_replicate
  writes := (List.range n).map (fun i => (8192 * (i + 1), List.replicate 8192 0))
  writes_ne := by
    intro hnil
    have hlen := congrArg List.length hnil
    rw [List.length_map, List.length_range] at hlen
    exact hn hlen
  node_length := by
    intro x hx
    obtain ⟨i, -, rfl⟩ := List.mem_map.mp hx
    exact List.length_replicate
  positions := by
    rw [List.map_map, List.length_map, List.length_range]
    exact Perm.refl _
  fits := by
    rw [List.length_map, List.length_range]
    exact hfits

theorem zeroFile_nodeBytes (n : ℕ) (hn : n ≠ 0) (hfits : 8192 * (n + 1) < 2 ^ 64) :
    (zeroFile n hn hfits).nodeBytes = 8192 * n := by
  unfold KeyFile.nodeBytes zeroFile
  rw [List.length_map, List.length_range]

/-- The CRC of a file of `2 ^ 35` such nodes is not reported. -/
theorem zeroFile_unreported :
    ¬ (zeroFile 34359738368 (by decide) (by decide)).Reported := by
  apply KeyFile.not_reported_of_large
  rw [zeroFile_nodeBytes]
  decide

end FileCrc
