import HpccPlatform.Index.BuilderTree
import HpccPlatform.Library.BinaryChop

/-!
# The cursor of an index

`CKeyCursor` of `system/jhtree/jhtree.cpp`, without its filter: it goes through the leaves from left to
right, and seeks a key from the root, or from where it is if it can.
-/

namespace HpccPlatform

namespace KeyBuilder

open BinaryChop

/-- What `CKeyIndex` reads of an index. -/
structure KeyIndex where
  keyHdr : KeyHdr
  /-- the leaf or branch at a position of the file -/
  loadNode : ℕ → Option WriteNode
  rootNode : WriteNode
  getFirstLeafPos : ℕ

/-- `CKeyCursor` -/
structure KeyCursor where
  node : Option WriteNode
  nodeKey : ℕ

/-- A new cursor. -/
def KeyCursor.new : KeyCursor := ⟨none, 0⟩

namespace WriteNode

def getNumKeys (node : WriteNode) : ℕ := node.entries.length

/-- `getValueAt`; `none` when it returns `false`. -/
def getValueAt (node : WriteNode) (index : ℕ) : Option (List UInt8) := node.entries[index]?.map Entry.value

def getFPosAt (node : WriteNode) (index : ℕ) : ℕ := (node.entries[index]?.map Entry.pos).getD 0

def nextNodeFpos (node : WriteNode) : ℕ :=
  if node.isLeaf then node.rightSib else node.getFPosAt (node.getNumKeys - 1)

end WriteNode

section Operations

variable (key : KeyIndex)

/-- `getNode(offset, type)`; there is no node at 0. -/
def getNode (offset : ℕ) : Option WriteNode := if offset = 0 then none else key.loadNode offset

def compareValueAt (node : WriteNode) (src : List UInt8) (index : ℕ) : ℤ :=
  Bytes.memcmp key.keyHdr.keyedSize src ((node.getValueAt index).getD [])

/-- `locateFirstNode`, for an index whose header has the position of the first leaf. -/
def locateFirstNode : Option WriteNode :=
  if key.getFirstLeafPos = 0 then none else getNode key key.getFirstLeafPos

/-- `next(dst)`: the row, if any, and the cursor after the call. -/
def next (cursor : KeyCursor) : Option (List UInt8) × KeyCursor :=
  match cursor.node with
  | none =>
    let node := locateFirstNode key
    (node.bind (·.getValueAt 0), ⟨node, 0⟩)
  | some node =>
    match node.getValueAt (cursor.nodeKey + 1) with
    | some row => (some row, ⟨some node, cursor.nodeKey + 1⟩)
    | none =>
      if node.rightSib ≠ 0 then
        match getNode key node.rightSib with
        | some sibling => (sibling.getValueAt 0, ⟨some sibling, 0⟩)
        | none => (none, ⟨none, cursor.nodeKey + 1⟩)
      else (none, ⟨none, cursor.nodeKey + 1⟩)

/-- The rows that up to `n` calls of `next` read. -/
def scan : ℕ → KeyCursor → List (List UInt8)
  | 0, _ => []
  | n + 1, cursor =>
    match next key cursor with
    | (some row, cursor) => row :: scan n cursor
    | (none, _) => []

/-- The loop of `gtEqual`; `none` if a node is missing or after `fuel` levels. -/
def gtEqual.loop (src : List UInt8) (nodeKey lwm : ℕ) : ℕ → WriteNode → Option (Bool × KeyCursor)
  | 0, _ => none
  | fuel + 1, node =>
    let a := chop (fun i => decide (compareValueAt key node src i ≤ 0)) node.getNumKeys lwm node.getNumKeys
    if node.isLeaf then
      if a < node.getNumKeys then some (true, ⟨some node, a⟩)
      else
        let node := getNode key node.nextNodeFpos
        some (node.isSome, ⟨node, 0⟩)
    else if a < node.getNumKeys then
      (getNode key (node.getFPosAt a)).bind (loop src nodeKey lwm fuel)
    else some (false, ⟨some node, nodeKey⟩)

/-- `gtEqual(src)`: whether a row is found, and the cursor after the call. -/
def gtEqual (fuel : ℕ) (src : List UInt8) (cursor : KeyCursor) : Option (Bool × KeyCursor) :=
  match cursor.node with
  | none => gtEqual.loop key src cursor.nodeKey 0 fuel key.rootNode
  | some node =>
    let numKeys := node.getNumKeys
    if cursor.nodeKey < numKeys - 1 then
      let nodeKey := cursor.nodeKey + 1
      if compareValueAt key node src nodeKey ≤ 0 then some (true, ⟨some node, nodeKey⟩)
      else if nodeKey < numKeys - 1 ∧ compareValueAt key node src (numKeys - 1) ≤ 0 then
        gtEqual.loop key src nodeKey (nodeKey + 1) fuel node
      else gtEqual.loop key src nodeKey 0 fuel key.rootNode
    else gtEqual.loop key src cursor.nodeKey 0 fuel key.rootNode

end Operations

end KeyBuilder

end HpccPlatform
