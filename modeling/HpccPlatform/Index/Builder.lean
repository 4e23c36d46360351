import HpccPlatform.Library.Bytes
import HpccPlatform.Index.BlobNode

/-!
# The index builder

`CKeyBuilder` of `system/jhtree/keybuild.cpp`.  Rows go into leaf nodes and blobs into blob nodes;
`finish` writes the nodes that are left, the branch nodes level by level, the metadata and the Bloom
filters.  All nodes take their positions from one counter.  A leaf is written when the next one is
full, so that its right sibling is known, and for an output that cannot seek nodes wait in a list
until the nodes before them are written.

How many rows fit a leaf, and which bytes the coder of a blob node refuses, are arbitrary functions
of what is in the node.
-/

namespace HpccPlatform

namespace KeyBuilder

/-! ## Nodes -/

/-- A row of a leaf, or a `CNodeInfo`: an entry of a branch. -/
structure Entry where
  pos : ℕ
  value : List UInt8
  sequence : ℕ
  deriving DecidableEq

/-- `class CWriteNode`: a leaf or a branch. -/
structure WriteNode where
  fpos : ℕ
  leftSib : ℕ
  rightSib : ℕ
  isLeaf : Bool
  entries : List Entry
  deriving DecidableEq

/-- A node with bytes of the metadata or of a Bloom filter. -/
structure DataWriteNode where
  fpos : ℕ
  leftSib : ℕ
  rightSib : ℕ
  data : List UInt8

/-- What `writeNode` writes. -/
inductive Node where
  | key (node : WriteNode)
  | blob (node : BlobWriteNode)
  | metadata (node : DataWriteNode)
  | bloom (node : DataWriteNode)
  | header

/-- The header of the index, the arguments of the builder, and the room in its nodes. -/
structure KeyHdr where
  nodeSize : ℕ
  keyedSize : ℕ
  /-- `TRAILING_HEADER_ONLY` -/
  trailingHeaderOnly : Bool
  /-- `USE_TRAILING_HEADER` -/
  useTrailingHeader : Bool
  /-- `COL_PREFIX` -/
  colPrefix : Bool
  /-- `HTREE_COMPRESSED_KEY` -/
  compressed : Bool
  /-- `HTREE_VARSIZE` -/
  isVariable : Bool
  enforceOrder : Bool
  /-- a leaf with the given rows takes one more row -/
  leafRoom : List Entry → Entry → Bool
  /-- the coder of the blob node at a position has accepted some bytes and refuses others -/
  refuses : ℕ → List UInt8 → List UInt8 → Bool
  /-- a node has room for the header of the index -/
  nodeSize_ge : 280 ≤ nodeSize
  /-- the header has two bytes for the size -/
  nodeSize_le : nodeSize ≤ 0xffff

/-- The state of a `CKeyBuilder`, with the fields of its header that it sets. -/
structure State where
  nextPos : ℕ
  levels : ℕ
  sequence : ℕ
  prevLeafNode : Option WriteNode
  activeNode : Option WriteNode
  activeBlobNode : Option BlobWriteNode
  leafInfo : List Entry
  pendingNodes : List Node
  /-- the positions and nodes passed to `writeNode`, in order -/
  written : List (ℕ × Node)
  firstLeaf : ℕ
  blobHead : ℕ
  root : ℕ
  hdrseq : ℕ
  metadataHead : ℕ
  bloomHead : ℕ

/-- `getFpos()`; a header has none. -/
def Node.getFpos : Node → ℕ
  | .key node => node.fpos
  | .blob node => node.fpos
  | .metadata node => node.fpos
  | .bloom node => node.fpos
  | .header => 0

section Operations

variable (keyHdr : KeyHdr)

/-- `maxkbl`: the size of a node without its `NodeHdr`. -/
def maxBytes : ℕ := keyHdr.nodeSize - 26

/-! ## Key nodes -/

/-- The number of bytes, at most 255, that `compressValue` takes from the last value. -/
def packed (lastKeyValue value : List UInt8) : ℕ :=
  min 255 (((lastKeyValue.zip value).takeWhile fun p => p.1 = p.2).length)

/-- The bytes that an entry takes in a branch. -/
def entryBytes (lastKeyValue value : List UInt8) : ℕ :=
  8 + (if keyHdr.colPrefix then value.length - packed lastKeyValue value + 1 else value.length) +
    (if keyHdr.isVariable then 2 else 0)

/-- `hdr.keyBytes` of a branch. -/
def keyBytes : List UInt8 → List Entry → ℕ
  | _, [] => 0
  | lastKeyValue, e :: entries => entryBytes keyHdr lastKeyValue e.value + keyBytes e.value entries

/-- `getLastKeyValue()` -/
def WriteNode.getLastKeyValue (node : WriteNode) : List UInt8 :=
  (node.entries.getLast?.map Entry.value).getD []

/-- `getLastSequence()` -/
def WriteNode.getLastSequence (node : WriteNode) : ℕ :=
  (node.entries.getLast?.map Entry.sequence).getD 0

/-- A branch with the given entries takes one more entry. -/
def branchRoom (entries : List Entry) (e : Entry) : Bool :=
  entries.length != 0xffff &&
    decide (keyBytes keyHdr [] entries +
      entryBytes keyHdr ((entries.getLast?.map Entry.value).getD []) e.value < maxBytes keyHdr)

/-- The node takes one more row or entry. -/
def WriteNode.hasRoom (e : Entry) (node : WriteNode) : Bool :=
  if node.isLeaf then keyHdr.leafRoom node.entries e else branchRoom keyHdr node.entries e

/-- `add(pos, data, size, sequence)`; `none` when there is no room. -/
def WriteNode.add (e : Entry) (node : WriteNode) : Option WriteNode :=
  if node.hasRoom keyHdr e then some { node with entries := node.entries ++ [e] } else none

/-- `CNodeInfo(getFpos(), getLastKeyValue(), keyedSize, lastSequence)` -/
def nodeInfo (node : WriteNode) : Entry :=
  ⟨node.fpos, node.getLastKeyValue.take keyHdr.keyedSize, node.getLastSequence⟩

/-! ## Writing nodes -/

/-- `writeNode(node, node->getFpos())` -/
def writeNode (node : Node) (s : State) : State :=
  { s with written := s.written ++ [(node.getFpos, node)] }

/-- The start of `flushNode`: the pending nodes that are not after the previous leaf are written. -/
def flushPending (s : State) : State :=
  match keyHdr.trailingHeaderOnly, s.prevLeafNode with
  | true, some prev =>
    { s with
      written := s.written ++ (s.pendingNodes.takeWhile (·.getFpos ≤ prev.fpos)).map
        fun node => (node.getFpos, node)
      pendingNodes := s.pendingNodes.dropWhile (·.getFpos ≤ prev.fpos) }
  | _, _ => s

/-- The previous leaf waits for the blob node in progress. -/
def parks (s : State) (prev : WriteNode) : Bool :=
  keyHdr.trailingHeaderOnly &&
    match s.activeBlobNode with
    | some blob => decide (blob.fpos < prev.fpos)
    | none => false

/-- `prevLeafNode->setRightSib(node->getFpos())`, for a node that is not null. -/
def setRightSib (node : Option WriteNode) (prev : WriteNode) : WriteNode :=
  match node with
  | some n => { prev with rightSib := n.fpos }
  | none => prev

/-- `flushNode(node, nodeInfo)` -/
def flushNode (node : Option WriteNode) (infos : List Entry) (s : State) : List Entry × State :=
  let s := flushPending keyHdr s
  match s.prevLeafNode with
  | none => (infos, { s with prevLeafNode := node })
  | some prev =>
    let prev := setRightSib node prev
    let s := if parks keyHdr s prev then { s with pendingNodes := s.pendingNodes ++ [.key prev] }
      else writeNode (.key prev) s
    (infos ++ [nodeInfo keyHdr prev],
      { s with prevLeafNode := node.map fun n => { n with leftSib := prev.fpos } })

/-! ## Rows -/

/-- `new CWriteNode(nextPos, keyHdr, isLeaf)` -/
def newNode (isLeaf : Bool) (s : State) : WriteNode := ⟨s.nextPos, 0, 0, isLeaf, []⟩

/-- `nextPos += keyHdr->getNodeSize()` -/
def allocate (s : State) : State := { s with nextPos := s.nextPos + keyHdr.nodeSize }

/-- `dataset not sorted in key order` -/
def notSorted (keyData : List UInt8) (node : WriteNode) : Bool :=
  keyHdr.enforceOrder &&
    decide (Bytes.memcmp keyHdr.keyedSize keyData node.getLastKeyValue < 0)

/-- The start of `processKeyData`: the active leaf, which is a new one for the first row. -/
def activeLeaf (keyData : List UInt8) (s : State) : Option (WriteNode × State) :=
  match s.activeNode with
  | none => some (newNode true s, allocate keyHdr { s with firstLeaf := s.nextPos })
  | some node => if notSorted keyHdr keyData node then none else some (node, s)

/-- `processKeyData(keyData, pos, recsize)`; `none` when an exception is thrown. -/
def processKeyData (keyData : List UInt8) (pos : ℕ) (s : State) : Option State := do
  let (node, s) ← activeLeaf keyHdr keyData s
  let row : Entry := ⟨pos, keyData, s.sequence⟩
  match node.add keyHdr row with
  | some node => return { s with activeNode := some node, sequence := s.sequence + 1 }
  | none =>
    let (infos, s) := flushNode keyHdr (some node) s.leafInfo s
    let node ← (newNode true s).add keyHdr row
    let s := allocate keyHdr s
    return { s with activeNode := some node, leafInfo := infos, sequence := s.sequence + 1 }

/-! ## Blobs -/

/-- `newBlobNode()` -/
def newBlobNode (s : State) : State :=
  let blobHead := if s.blobHead = 0 then s.nextPos else s.blobHead
  match s.activeBlobNode with
  | none =>
    allocate keyHdr { s with
      blobHead := blobHead
      activeBlobNode := some ⟨s.nextPos, 0, 0, .openBlob⟩ }
  | some prev =>
    let prevBlobNode : BlobWriteNode := { prev with rightSib := s.nextPos }
    let s := allocate keyHdr { s with
      blobHead := blobHead
      activeBlobNode := some ⟨s.nextPos, prev.fpos, 0, .openBlob⟩ }
    if keyHdr.trailingHeaderOnly then
      { s with pendingNodes := s.pendingNodes ++ [.blob prevBlobNode] }
    else writeNode (.blob prevBlobNode) s

/-- `activeBlobNode->add(ptr, size)`: the id and the data that are left. -/
def addBlob (data : List UInt8) (s : State) : Option (State × ℕ × List UInt8) := do
  let node ← s.activeBlobNode
  let (node, head, written) ← node.add keyHdr.refuses data
  return ({ s with activeBlobNode := some node }, if written = 0 then 0 else head, data.drop written)

/-- The loop of `createBlob`, with a bound on its passes: each pass writes at least one byte. -/
def createBlob.loop : ℕ → List UInt8 → State → Option State
  | 0, data, s => if data = [] then some s else none
  | fuel + 1, data, s =>
    if data = [] then some s
    else do
      let (s, chunkhead, data) ← addBlob keyHdr data (newBlobNode keyHdr s)
      if chunkhead = 0 then none else createBlob.loop fuel data s

/-- `if (NULL == activeBlobNode) newBlobNode();` -/
def openBlobNode (s : State) : State :=
  match s.activeBlobNode with
  | none => newBlobNode keyHdr s
  | some _ => s

/-- `if (!head) { newBlobNode(); head = activeBlobNode->add(ptr, size); }` -/
def retryBlob (data : List UInt8) (s : State) (head : ℕ) (rest : List UInt8) :
    Option (State × ℕ × List UInt8) :=
  if head = 0 then addBlob keyHdr data (newBlobNode keyHdr s) else some (s, head, rest)

/-- `createBlob(size, ptr)`: the id; `none` when an assertion fails. -/
def createBlob (data : List UInt8) (s : State) : Option (State × ℕ) :=
  if data = [] then some (s, 0)
  else do
    let (s, head, rest) ← addBlob keyHdr data (openBlobNode keyHdr s)
    let (s, head, rest) ← retryBlob keyHdr data s head rest
    if head = 0 then none
    else
      let s ← createBlob.loop keyHdr rest.length rest s
      return (s, head)

/-! ## Levels of branches -/

/-- The loop of `buildLevel`. -/
def buildLevel.loop : List Entry → WriteNode → List Entry → State →
    Option (WriteNode × List Entry × State)
  | [], node, parents, s => some (node, parents, s)
  | info :: thisLevel, node, parents, s =>
    match node.add keyHdr info with
    | some node => buildLevel.loop thisLevel node parents s
    | none => do
      let (parents, s) := flushNode keyHdr (some node) parents s
      let node ← (newNode (s.levels == 0) s).add keyHdr info
      buildLevel.loop thisLevel node parents (allocate keyHdr s)

/-- `buildLevel(thisLevel, parents)` -/
def buildLevel (thisLevel : List Entry) (s : State) : Option (List Entry × State) := do
  let (node, parents, s) ←
    buildLevel.loop keyHdr thisLevel (newNode (s.levels == 0) s) [] (allocate keyHdr s)
  let (parents, s) := flushNode keyHdr (some node) parents s
  return flushNode keyHdr none parents s

/-- `buildTree(children)`; `none` when an assertion fails or after `fuel` levels. -/
def buildTree : ℕ → List Entry → State → Option State
  | 0, _, _ => none
  | fuel + 1, children, s =>
    if children.length ≠ 1 then do
      let (parents, s) ← buildLevel keyHdr children { s with levels := s.levels + 1 }
      buildTree fuel parents s
    else some { s with root := s.nextPos - keyHdr.nodeSize, hdrseq := s.levels }

/-! ## Metadata and Bloom filters -/

/-- The loop that writes data over nodes, of which the first has room for `room` bytes; a node is
written when the next one is known.  The bound on the passes is the size of the data. -/
def writeDataNodes (node : DataWriteNode → Node) : ℕ → ℕ → List UInt8 → Option DataWriteNode →
    State → Option State
  | _, _, [], prev, s =>
    match prev with
    | some prev => some (writeNode (node prev) s)
    | none => none
  | 0, _, _ :: _, _, _ => none
  | fuel + 1, room, data, prev, s =>
    if room = 0 then none
    else
      let next : DataWriteNode := ⟨s.nextPos, (prev.map (·.fpos)).getD 0, 0, data.take room⟩
      let s := match prev with
        | some prev => writeNode (node { prev with rightSib := s.nextPos }) s
        | none => s
      writeDataNodes node fuel (maxBytes keyHdr - 2) (data.drop room) (some next)
        (allocate keyHdr s)

/-- `writeMetadata(data, size)` -/
def writeMetadata (data : List UInt8) (s : State) : Option State :=
  if s.metadataHead = 0 ∧ data ≠ [] then
    writeDataNodes keyHdr .metadata data.length (maxBytes keyHdr - 2) data none
      { s with metadataHead := s.nextPos }
  else none

/-- `writeBloomFilter(filter, fields)`, for the table of the filter; its first node begins with 24
bytes of table info. -/
def writeBloomFilter (table : List UInt8) (s : State) : Option State :=
  if table = [] then some s
  else if maxBytes keyHdr < 26 then none
  else
    writeDataNodes keyHdr .bloom table.length (maxBytes keyHdr - 26) table none
      { s with bloomHead := s.nextPos }

/-- All filters. -/
def writeBloomFilters : List (List UInt8) → State → Option State
  | [], s => some s
  | table :: tables, s => do
    let s ← writeBloomFilter keyHdr table s
    writeBloomFilters tables s

/-! ## The end of an index -/

/-- `out->tell()`: a node is written at its own position, and the header behind the last node. -/
def tell (s : State) : ℕ := (s.written.getLast?.map fun w => w.1 + keyHdr.nodeSize).getD
  keyHdr.nodeSize

/-- `writeFileHeader`; the header at the start of the file is not passed to `writeNode`. -/
def writeFileHeader (s : State) : State :=
  if keyHdr.trailingHeaderOnly || keyHdr.useTrailingHeader then
    { s with written := s.written ++ [(tell keyHdr s, .header)] }
  else s

/-- `pendingNodes.append(*activeBlobNode)`, for an output that cannot seek. -/
def appendBlobNode (s : State) : State :=
  match keyHdr.trailingHeaderOnly, s.activeBlobNode with
  | true, some blob =>
    { s with pendingNodes := s.pendingNodes ++ [Node.blob blob], activeBlobNode := none }
  | _, _ => s

/-- `flushNode(activeNode, leafInfo)` -/
def flushActiveNode (s : State) : State :=
  match s.activeNode with
  | some node =>
    let (infos, s) := flushNode keyHdr (some node) s.leafInfo s
    { s with activeNode := none, leafInfo := infos }
  | none => s

/-- `writeNode(activeBlobNode, activeBlobNode->getFpos())` -/
def writeBlobNode (s : State) : State :=
  match s.activeBlobNode with
  | some blob => { writeNode (.blob blob) s with activeBlobNode := none }
  | none => s

/-- `flushNode(NULL, leafInfo)` -/
def flushLastNode (s : State) : State :=
  let (infos, s) := flushNode keyHdr none s.leafInfo s
  { s with leafInfo := infos }

/-- The pending nodes that are left. -/
def writePendingNodes (s : State) : State :=
  if keyHdr.trailingHeaderOnly then
    { s with
      written := s.written ++ s.pendingNodes.map fun node => (node.getFpos, node)
      pendingNodes := [] }
  else s

/-- The first part of `finish`: the leaves and blob nodes that are left. -/
def finishLeaves (s : State) : State :=
  writePendingNodes keyHdr (flushLastNode keyHdr (writeBlobNode
    (flushActiveNode keyHdr (appendBlobNode keyHdr s))))

/-- `if (metadata) writeMetadata(..)` -/
def finishMetadata (metadata : Option (List UInt8)) (s : State) : Option State :=
  match metadata with
  | some data => writeMetadata keyHdr data s
  | none => some s

/-- Bloom filters are written if there is more than one leaf. -/
def finishBloomFilters (tables : List (List UInt8)) (s : State) : Option State :=
  if 0 < s.levels then writeBloomFilters keyHdr tables s else some s

/-- `finish(metadata, fileCrc)`, with the tables of the valid Bloom filters. -/
def finish (fuel : ℕ) (metadata : Option (List UInt8)) (tables : List (List UInt8)) (s : State) :
    Option State := do
  let s := finishLeaves keyHdr s
  let s ← buildTree keyHdr fuel s.leafInfo s
  let s ← finishMetadata keyHdr metadata s
  let s ← finishBloomFilters keyHdr tables s
  return writeFileHeader keyHdr s

/-! ## Runs -/

/-- The constructor. -/
def init (startSequence : ℕ) : State where
  nextPos := keyHdr.nodeSize
  levels := 0
  sequence := startSequence
  prevLeafNode := none
  activeNode := none
  activeBlobNode := none
  leafInfo := []
  pendingNodes := []
  written := []
  firstLeaf := 0
  blobHead := 0
  root := 0
  hdrseq := 0
  metadataHead := 0
  bloomHead := 0

/-- A call before `finish`. -/
inductive Call where
  | processKeyData (keyData : List UInt8) (pos : ℕ)
  | createBlob (data : { data : List UInt8 // data.length < 2 ^ 32 })

/-- The state after a call, and the blob with its id if it creates one. -/
def step (s : State) : Call → Option (State × List (List UInt8 × ℕ))
  | .processKeyData keyData pos => do
    let s ← processKeyData keyHdr keyData pos s
    return (s, [])
  | .createBlob data => do
    let (s, id) ← createBlob keyHdr data.1 s
    return (s, [(data.1, id)])

/-- The state after a list of calls none of which throws an exception, and the blobs with their
ids. -/
def run : List Call → State → Option (State × List (List UInt8 × ℕ))
  | [], s => some (s, [])
  | c :: calls, s => do
    let (s, ids) ← step keyHdr s c
    let (s, ids') ← run calls s
    return (s, ids ++ ids')

end Operations

end KeyBuilder

end HpccPlatform
