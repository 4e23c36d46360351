import Mathlib.Tactic

/-!
# Bit sets

The bit sets of `jlib/jset.cpp`: a row of 32-bit items that grows as bits are set, and two
classes around the same operations.  `CBitSetThreadSafe` keeps its items in an array,
`CBitSet` in memory that it owns or that the caller gave it; given memory cannot grow, and an
operation that would have to add an item throws.

The two classes write and read themselves with code of their own.
-/

namespace BitSets

/-- `bits_t`, of which an item holds `BitsPerItem` bits. -/
abbrev Item : Type := BitVec 32

inductive Kind where
  | threadSafe
  | bitSet
  deriving DecidableEq

structure BitSet where
  bits : List Item
  fixedMemory : Bool

def getWidth (s : BitSet) : ℕ := s.bits.length

/-- A row of calls of `addBitSet`; the first of them throws where the memory is fixed. -/
def addBitSets (s : BitSet) (items : List Item) : BitSet :=
  if s.fixedMemory then s else { s with bits := s.bits ++ items }

/-- The item with bit `j`. -/
def bit (j : ℕ) : Item := 1#32 <<< j

/-- `i - getWidth()` empty items and then `t`. -/
def padTo (s : BitSet) (i : ℕ) (t : Item) : List Item :=
  List.replicate (i - getWidth s) 0#32 ++ [t]

def set (s : BitSet) (n : ℕ) (val : Bool) : BitSet :=
  let t := bit (n % 32)
  let i := n / 32
  match s.bits[i]? with
  | none => if val then addBitSets s (padTo s i t) else s
  | some m => { s with bits := s.bits.set i (if val then m ||| t else m &&& ~~~t) }

def invert (s : BitSet) (n : ℕ) : BitSet :=
  let t := bit (n % 32)
  let i := n / 32
  match s.bits[i]? with
  | none => addBitSets s (padTo s i t)
  | some m => { s with bits := s.bits.set i (if m &&& t = 0#32 then m ||| t else m &&& ~~~t) }

def test (s : BitSet) (n : ℕ) : Bool :=
  match s.bits[n / 32]? with
  | none => false
  | some m => decide (m &&& bit (n % 32) ≠ 0#32)

def testSet (s : BitSet) (n : ℕ) (val : Bool) : BitSet :=
  let t := bit (n % 32)
  let i := n / 32
  match s.bits[i]? with
  | none => if val then addBitSets s (padTo s i t) else s
  | some m =>
    if m &&& t ≠ 0#32 then
      if val then s else { s with bits := s.bits.set i (m &&& ~~~t) }
    else
      if val then { s with bits := s.bits.set i (m ||| t) } else s

/-- The loop over the bits of one item, from bit `j` on; `nb` bits are left to do. -/
def fillItem (val : Bool) : ℕ → ℕ → Item → ℕ → Item × ℕ
  | 0, _, m, nb => (m, nb)
  | fuel + 1, j, m, nb =>
    let m := if val then m ||| bit j else m &&& ~~~(bit j)
    let nb := (nb + (2 ^ 32 - 1)) % 2 ^ 32
    if nb = 0 then (m, nb) else fillItem val fuel (j + 1) m nb

/-- An item that exists: it is written whole, or bit by bit from bit `j` on. -/
def inclItem (val : Bool) (j : ℕ) (m : Item) (nb : ℕ) : Item × ℕ :=
  if 32 ≤ nb ∧ j = 0 then (if val then BitVec.allOnes 32 else 0#32, nb - 32)
  else fillItem val (32 - j) j m nb

/-- The loop over the items that exist; it leaves with `nb = 0` where the source returns. -/
def inclItems (val : Bool) : List Item → ℕ → ℕ → List Item × ℕ
  | [], _, nb => ([], nb)
  | m :: items, j, nb =>
    let (m, nb) := inclItem val j m nb
    if nb = 0 then (m :: items, nb)
    else
      let (items, nb) := inclItems val items 0 nb
      (m :: items, nb)

/-- The items added behind the last one for `nb` more bits. -/
def tailItems (nb : ℕ) : List Item :=
  List.replicate (nb / 32) (BitVec.allOnes 32) ++
    if nb % 32 = 0 then [] else [(fillItem true 32 0 0#32 (nb % 32)).1]

def inclRange (s : BitSet) (lo hi : ℕ) (val : Bool) : BitSet :=
  if hi < lo then s
  else
    let j := lo % 32
    let nb := (hi - lo + 1) % 2 ^ 32
    let i := lo / 32
    if getWidth s ≤ i then
      if val then
        let pad := List.replicate (i - getWidth s) 0#32
        if 0 < j then
          let (m, nb) := fillItem true (32 - j) j 0#32 nb
          addBitSets s (pad ++ [m] ++ tailItems nb)
        else addBitSets s (pad ++ tailItems nb)
      else s
    else
      let (items, nb) := inclItems val (s.bits.drop i) j nb
      let s := { s with bits := s.bits.take i ++ items }
      if val then addBitSets s (tailItems nb) else s

def incl (s : BitSet) (lo hi : ℕ) : BitSet := inclRange s lo hi true

def excl (s : BitSet) (lo hi : ℕ) : BitSet := inclRange s lo hi false

/-- The index of the lowest bit that is set; the source calls it for a non-zero item only. -/
def countTrailingUnsetBits (m : Item) : ℕ :=
  ((List.range 32).find? (fun i => m.getLsbD i)).getD 32

/-- The main loop of `_scan` from item `i` on: the item and the bit of the first match. -/
def scanItems (noMatchMask : Item) : List Item → ℕ → Option (ℕ × ℕ)
  | [], _ => none
  | m :: items, i =>
    if m ≠ noMatchMask then some (i, countTrailingUnsetBits (m ^^^ noMatchMask))
    else scanItems noMatchMask items (i + 1)

/-- The first match at or after `start`: the partial item first, then the main loop. -/
def scanMatch (s : BitSet) (start : ℕ) (tst : Bool) : Option (ℕ × ℕ) :=
  let noMatchMask : Item := if tst then 0#32 else BitVec.allOnes 32
  let j := start % 32
  let i := start / 32
  if j = 0 then scanItems noMatchMask (s.bits.drop i) i
  else
    match s.bits[i]? with
    | none => scanItems noMatchMask (s.bits.drop i) i
    | some m =>
      let testMask := (m ^^^ noMatchMask) &&& ~~~(bit j - 1#32)
      if m ≠ noMatchMask ∧ testMask ≠ 0#32 then some (i, countTrailingUnsetBits testMask)
      else scanItems noMatchMask (s.bits.drop (i + 1)) (i + 1)

def scanInvert (s : BitSet) (start : ℕ) (tst : Bool) : BitSet :=
  match scanMatch s start tst with
  | some (i, pos) => { s with bits := s.bits.modify i (· ^^^ bit pos) }
  | none =>
    if tst then s
    else
      let ret := getWidth s * 32 % 2 ^ 32
      set s (if ret < start then start else ret) true

inductive Operation where
  | set (n : Fin (2 ^ 32)) (val : Bool)
  | incl (lo hi : Fin (2 ^ 32))
  | excl (lo hi : Fin (2 ^ 32))
  | invert (n : Fin (2 ^ 32))
  | testSet (n : Fin (2 ^ 32)) (val : Bool)
  | scanInvert (start : Fin (2 ^ 32)) (tst : Bool)

def step (s : BitSet) : Operation → BitSet
  | .set n val => set s n.val val
  | .incl lo hi => incl s lo.val hi.val
  | .excl lo hi => excl s lo.val hi.val
  | .invert n => invert s n.val
  | .testSet n val => testSet s n.val val
  | .scanInvert start tst => scanInvert s start.val tst

def run (s : BitSet) (ops : List Operation) : BitSet := ops.foldl step s

/-- `getBitSetMemoryRequirement`, in items. -/
def bitSetUnits (numBits : ℕ) : ℕ := (numBits + 31) % 2 ^ 32 / 32

/-- How a bit set is made: thread safe, with room for some bits, or in memory of the caller's,
whose size in bytes is a 32-bit number. -/
inductive Created where
  | createThreadSafeBitSet
  | createBitSet (initialBits : Fin (2 ^ 32))
  | createFixedBitSet (mem : List Item) (hmem : 4 * mem.length < 2 ^ 32)

namespace Created

def kind : Created → Kind
  | createThreadSafeBitSet => .threadSafe
  | createBitSet _ => .bitSet
  | createFixedBitSet _ _ => .bitSet

def bitSet : Created → BitSet
  | createThreadSafeBitSet => { bits := [], fixedMemory := false }
  | createBitSet initialBits =>
    { bits := List.replicate (bitSetUnits initialBits.val) 0#32, fixedMemory := false }
  | createFixedBitSet mem _ => { bits := mem, fixedMemory := true }

end Created

/-- The four bytes of an unsigned number. -/
def appendUnsigned (n : ℕ) : List UInt8 :=
  [UInt8.ofNat n, UInt8.ofNat (n / 256), UInt8.ofNat (n / 65536), UInt8.ofNat (n / 16777216)]

/-- `MemoryBuffer::read` of an unsigned number, which fails at the end of the buffer. -/
def readUnsigned : List UInt8 → Option (ℕ × List UInt8)
  | a :: b :: c :: d :: rest =>
    some (a.toNat + b.toNat * 256 + c.toNat * 65536 + d.toNat * 16777216, rest)
  | _ => none

/-- The items of a bit set, one after the other. -/
def appendItems (items : List Item) : List UInt8 := items.flatMap (fun m => appendUnsigned m.toNat)

def serialize (kind : Kind) (s : BitSet) : List UInt8 :=
  match kind with
  | .threadSafe => appendUnsigned s.bits.length ++ appendItems s.bits
  | .bitSet => appendUnsigned (32 * getWidth s % 2 ^ 32) ++ appendItems s.bits

def readItems : ℕ → List UInt8 → Option (List Item × List UInt8)
  | 0, buffer => some ([], buffer)
  | count + 1, buffer => do
    let (b, buffer) ← readUnsigned buffer
    let (items, buffer) ← readItems count buffer
    return (BitVec.ofNat 32 b :: items, buffer)

/-- `CBitSetThreadSafe::deserialize` -/
def deserializeThreadSafeBitSet (buffer : List UInt8) : Option (BitSet × List UInt8) := do
  let (count, buffer) ← readUnsigned buffer
  let (items, buffer) ← readItems count buffer
  return ({ bits := items, fixedMemory := false }, buffer)

/-- `CBitSet::deserialize`: it reserves memory for the items and reads none of them, so that
they are whatever `reserved` holds. -/
def deserializeBitSet (reserved : ℕ → Item) (buffer : List UInt8) :
    Option (BitSet × List UInt8) := do
  let (count, buffer) ← readUnsigned buffer
  return ({ bits := (List.range (count / 32)).map reserved, fixedMemory := false }, buffer)

def deserialize (reserved : ℕ → Item) (kind : Kind) (buffer : List UInt8) :
    Option (BitSet × List UInt8) :=
  match kind with
  | .threadSafe => deserializeThreadSafeBitSet buffer
  | .bitSet => deserializeBitSet reserved buffer

end BitSets
