import Mathlib

/-!
# Blob nodes

A blob is written into a blob node behind its length, at an offset that is a multiple of sixteen,
and is cut where the coder of the node refuses a byte or the node has a megabyte; the rest goes into
the next blob node (`system/jhtree/hlzw.cpp`, `system/jhtree/ctfile.cpp`).

The coder is known by what it does for its callers: it accepts bytes until it refuses a write, and
then closes and keeps the bytes up to the start of the block.
-/

namespace HpccPlatform

namespace KeyBuilder

/-! ## The coder -/

/-- An `ICompressor`: the bytes that it has accepted, and `inlenblk`, which is `none` when the block
is committed. -/
structure Coder where
  isOpen : Bool
  bytes : List UInt8
  block : Option ℕ

namespace Coder

/-- `open(blk, blksize)` -/
def new : Coder := ⟨true, [], none⟩

/-- `startblock()` -/
def startblock (c : Coder) : Coder := { c with block := some c.bytes.length }

/-- `commitblock()` -/
def commitblock (c : Coder) : Coder := { c with block := none }

/-- `close()`: what is not committed is dropped. -/
def close (c : Coder) : Coder :=
  if c.isOpen then
    match c.block with
    | none => ⟨false, c.bytes, none⟩
    | some n => ⟨false, c.bytes.take n, none⟩
  else c

/-- `write(data)` in a block; `refuses` says where the buffer of the coder is full. -/
def write (refuses : List UInt8 → List UInt8 → Bool) (data : List UInt8) (c : Coder) :
    Coder × Bool :=
  if c.isOpen && !refuses c.bytes data then ({ c with bytes := c.bytes ++ data }, true)
  else (c.close, false)

end Coder

/-! ## Writing a blob -/

/-- An unsigned integer, the most significant byte first. -/
def be32 (n : ℕ) : List UInt8 :=
  [UInt8.ofNat (n / 2 ^ 24), UInt8.ofNat (n / 2 ^ 16), UInt8.ofNat (n / 2 ^ 8), UInt8.ofNat n]

/-- `class KeyCompressor`, for blobs. -/
structure KeyCompressor where
  comp : Coder
  curOffset : ℕ

namespace KeyCompressor

/-- `openBlob` -/
def openBlob : KeyCompressor := ⟨Coder.new, 0⟩

/-- `getCurrentOffset()` -/
def getCurrentOffset (c : KeyCompressor) : ℕ := (c.curOffset + 15) / 16 * 16

variable (refuses : List UInt8 → List UInt8 → Bool)

/-- The number of zeros that are written while `curOffset & 0xf`. -/
def padding (curOffset : ℕ) : ℕ := (16 - curOffset % 16) % 16

/-- The loop that writes the zeros: `false` when one is refused. -/
def pad : ℕ → KeyCompressor → KeyCompressor × Bool
  | 0, c => (c, true)
  | n + 1, c =>
    match c.comp.write refuses [0] with
    | (comp, true) => pad n ⟨comp, c.curOffset + 1⟩
    | (comp, false) => (⟨comp, c.curOffset⟩, false)

/-- The loop that writes the data, byte for byte: the number of bytes written, and whether a byte
has been refused. -/
def writeData : List UInt8 → KeyCompressor → KeyCompressor × ℕ × Bool
  | [], c => (c, 0, false)
  | b :: data, c =>
    if c.curOffset < 0x100000 then
      match c.comp.write refuses [b] with
      | (comp, true) =>
        match writeData data ⟨comp.startblock, c.curOffset + 1⟩ with
        | (c', written, refused) => (c', written + 1, refused)
      | (comp, false) => (⟨comp, c.curOffset⟩, 0, true)
    else (c, 0, false)

/-- `writeBlob(data, datalength)`: the number of bytes written. -/
def writeBlob (data : List UInt8) (c : KeyCompressor) : KeyCompressor × ℕ :=
  if c.comp.isOpen then
    match pad refuses (padding c.curOffset) ⟨c.comp.startblock, c.curOffset⟩ with
    | (c₁, false) => (⟨c₁.comp.close, c.curOffset⟩, 0)
    | (c₁, true) =>
      match c₁.comp.write refuses (be32 data.length) with
      | (comp, false) => (⟨comp.close, c.curOffset⟩, 0)
      | (comp, true) =>
        match writeData refuses data ⟨comp, c₁.curOffset + 4⟩ with
        -- only room to put the length
        | (c₂, 0, true) => (⟨c₂.comp.close, c.curOffset⟩, 0)
        | (c₂, written, _) =>
          let comp := c₂.comp.commitblock
          (⟨if written = data.length then comp else comp.close, c₂.curOffset⟩, written)
  else (c, 0)

end KeyCompressor

/-! ## Blob nodes and blob ids -/

/-- `class CBlobWriteNode` -/
structure BlobWriteNode where
  fpos : ℕ
  leftSib : ℕ
  rightSib : ℕ
  lzwcomp : KeyCompressor

/-- `makeBlobId(nodepos, offset)`; `none` when an assertion fails. -/
def makeBlobId (nodepos offset : ℕ) : Option ℕ :=
  if nodepos ≠ 0 ∧ nodepos < 2 ^ 48 ∧ offset % 16 = 0 then
    some ((offset <<< 44) % 2 ^ 64 ||| nodepos)
  else none

/-- `add(data, size)`: the node, the id, and the number of bytes written, where no byte written
stands for an id of 0. -/
def BlobWriteNode.add (refuses : ℕ → List UInt8 → List UInt8 → Bool) (data : List UInt8)
    (node : BlobWriteNode) : Option (BlobWriteNode × ℕ × ℕ) := do
  let ret ← makeBlobId node.fpos node.lzwcomp.getCurrentOffset
  let (lzwcomp, written) := node.lzwcomp.writeBlob (refuses node.fpos) data
  return ({ node with lzwcomp := lzwcomp }, ret, written)

/-! ## Reading a blob -/

/-- The number that the bytes are, the most significant byte first. -/
def ofBe (l : List UInt8) : ℕ := l.foldl (fun n b => n * 256 + b.toNat) 0

/-- `getTotalBlobSize(offset)`, for the expanded contents of the node. -/
def getTotalBlobSize (keyBuf : List UInt8) (offset : ℕ) : Option ℕ :=
  if offset + 4 ≤ keyBuf.length then some (ofBe ((keyBuf.drop offset).take 4)) else none

/-- `getBlobData(offset, dst)` -/
def getBlobData (keyBuf : List UInt8) (offset : ℕ) : Option (List UInt8) := do
  let sizeHere ← getTotalBlobSize keyBuf offset
  return (keyBuf.drop (offset + 4)).take sizeHere

/-- The loop of `loadBlob`, from a node with the given contents and right sibling. -/
def loadBlob.loop (getBlobNode : ℕ → Option (List UInt8 × ℕ)) :
    ℕ → List UInt8 × ℕ → ℕ → ℕ → Option (List UInt8)
  | 0, _, _, _ => none
  | fuel + 1, (keyBuf, rightSib), offset, sizeRemaining => do
    let here ← getBlobData keyBuf offset
    if sizeRemaining < here.length then none
    else if sizeRemaining = here.length then return here
    else
      let node ← getBlobNode rightSib
      let rest ← loadBlob.loop getBlobNode fuel node 0 (sizeRemaining - here.length)
      return here ++ rest

/-- `loadBlob(blobid, blobSize)`: the size and the bytes. -/
def loadBlob (getBlobNode : ℕ → Option (List UInt8 × ℕ)) (fuel blobid : ℕ) :
    Option (ℕ × List UInt8) := do
  let nodepos := blobid &&& 0xffffffffffff
  let offset := (blobid &&& 0xffff000000000000) >>> 44
  let node ← getBlobNode nodepos
  let blobSize ← getTotalBlobSize node.1 offset
  let data ← loadBlob.loop getBlobNode fuel node offset blobSize
  return (blobSize, data)

end KeyBuilder

end HpccPlatform
