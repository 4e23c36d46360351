import HpccPlatform.Library.ArrayHeap

/-!
# Merging row streams

`class CRowStreamMerger` of `system/jlib/jsort.cpp`: the next row of each stream is pulled into
`pending`, and the numbers of the streams that are not exhausted are kept in a heap.  With `partdedup`
the rows that equal the one at the top are released while the heap is put in order.
-/

namespace HpccPlatform

namespace Merge

open ArrayHeap (exchange)

/-- `class CRowStreamMerger` with its provider: `rows i` are the rows that `nextRow(i)` has still to
return, and `released` and `stopped` the calls of `releaseRow`, with the stream of the row, and of
`stop`.  `failed` tells that an assertion has failed. -/
structure CRowStreamMerger (R : Type*) where
  numstreams : ℕ
  partdedup : Bool
  pending : ℕ → Option R
  mergeheap : ℕ → ℕ
  activeInputs : ℕ
  recno : ℕ
  rows : ℕ → List R
  released : List (ℕ × R)
  stopped : List ℕ
  failed : Bool

/-- `icmp->docompare(l, r)`; a null pointer is never passed. -/
def docompare {R : Type*} (icmp : R → R → ℤ) : Option R → Option R → ℤ
  | some l, some r => icmp l r
  | some _, none => -1
  | none, some _ => 1
  | none, none => 0

namespace CRowStreamMerger

variable {R : Type*} (icmp : R → R → ℤ)

/-- `buffCompare(a, b)` -/
def buffCompare (s : CRowStreamMerger R) (a b : ℕ) : ℤ :=
  docompare icmp (s.pending (s.mergeheap a)) (s.pending (s.mergeheap b))

/-- `promote(p)` -/
def promote (s : CRowStreamMerger R) (p : ℕ) : CRowStreamMerger R × Bool :=
  let activeInputs := s.activeInputs - 1
  if activeInputs = p then ({ s with activeInputs }, false)
  else
    ({ s with
      activeInputs
      mergeheap := Function.update s.mergeheap p (s.mergeheap activeInputs) }, true)

/-- The test of `siftDown` for the second child. -/
def secondIsLess (s : CRowStreamMerger R) (d c : ℕ) : Bool :=
  let childcmp := docompare icmp (s.pending d) (s.pending c)
  decide (childcmp < 0 ∨ childcmp = 0 ∧ d < c)

/-- The test with which the loop of `siftDown` returns. -/
def mayRest (s : CRowStreamMerger R) (c p : ℕ) : Bool :=
  let cmp := docompare icmp (s.pending c) (s.pending p)
  decide (0 < cmp ∨ cmp = 0 ∧ p < c)

/-- `siftDown(p)` -/
def siftDown (s : CRowStreamMerger R) (p : ℕ) : CRowStreamMerger R × Bool :=
  let (mergeheap, nochange) := ArrayHeap.siftDown (s.secondIsLess icmp) (s.mayRest icmp)
    s.activeInputs s.activeInputs s.mergeheap p
  ({ s with mergeheap }, nochange)

/-- The start of `pullInput`: a row that is pending is released. -/
def releasePending (s : CRowStreamMerger R) (i : ℕ) : CRowStreamMerger R :=
  match s.pending i with
  | some row => { s with
      failed := s.failed || !s.partdedup
      released := s.released ++ [(i, row)] }
  | none => s

/-- `pullInput(i)` -/
def pullInput (s : CRowStreamMerger R) (i : ℕ) : CRowStreamMerger R × Bool :=
  let s := s.releasePending i
  match s.rows i with
  | row :: rest => ({ s with
      pending := Function.update s.pending i (some row)
      rows := Function.update s.rows i rest }, true)
  | [] => ({ s with
      pending := Function.update s.pending i none
      stopped := s.stopped ++ [i] }, false)

/-- Exchanges the top of the heap with another place. -/
def exchangeTop (s : CRowStreamMerger R) (c : ℕ) : CRowStreamMerger R :=
  { s with mergeheap := exchange s.mergeheap 0 c }

/-- `if (!pullInput(mergeheap[p])) if (!promote(p))`: whether a stream is left for the place. -/
def refill (s : CRowStreamMerger R) (p : ℕ) : CRowStreamMerger R × Bool :=
  match s.pullInput (s.mergeheap p) with
  | (s, true) => (s, true)
  | (s, false) => s.promote p

/-- Refills a place and lets its new stream sink. -/
def resift (s : CRowStreamMerger R) (p : ℕ) : CRowStreamMerger R × Bool :=
  match s.refill p with
  | (s, true) => ((s.siftDown icmp p).1, true)
  | (s, false) => (s, false)

/-- What the two loops of `siftDownDedupTop` do with a row at `c` that equals the one at the top: of
the two streams the one with the higher number goes on to its next row.  The result is false when the
loop is left. -/
def dropEqual (s : CRowStreamMerger R) (c : ℕ) : CRowStreamMerger R × Bool :=
  (if s.mergeheap c < s.mergeheap 0 then s.exchangeTop c else s).resift icmp c

/-- The first loop of `siftDownDedupTop`, in at most `fuel` passes. -/
def siftDownDedupTop.first : ℕ → CRowStreamMerger R → ℕ → ℤ → CRowStreamMerger R
  | 0, s, _, _ => s
  | fuel + 1, s, c, cmp =>
    if cmp ≤ 0 then
      if cmp = 0 then
        match s.dropEqual icmp c with
        | (s, true) => siftDownDedupTop.first fuel s c (s.buffCompare icmp c 0)
        | (s, false) => s
      else
        match (s.exchangeTop c).siftDown icmp c with
        | (s, true) => s
        | (s, false) => siftDownDedupTop.first fuel s c (s.buffCompare icmp c 0)
    else s

/-- The second loop of `siftDownDedupTop`, in at most `fuel` passes. -/
def siftDownDedupTop.second : ℕ → CRowStreamMerger R → ℕ → ℤ → CRowStreamMerger R
  | 0, s, _, _ => s
  | fuel + 1, s, c, childcmp =>
    if childcmp = 0 then
      match s.dropEqual icmp c with
      | (s, true) => siftDownDedupTop.second fuel s c (s.buffCompare icmp c 0)
      | (s, false) => s
    else s

/-- The rows and the streams that are left: a pass of the loops that drops a row takes one away. -/
def load (s : CRowStreamMerger R) : ℕ :=
  ∑ i ∈ Finset.range s.numstreams, (s.rows i).length + s.activeInputs

/-- `siftDownDedupTop()` -/
def siftDownDedupTop (s : CRowStreamMerger R) : CRowStreamMerger R :=
  if s.activeInputs < 2 then s
  else
    let childcmp := if 3 ≤ s.activeInputs then s.buffCompare icmp 2 1 else 1
    let c := if childcmp < 0 then 2 else 1
    let cmp := s.buffCompare icmp c 0
    if 0 < cmp then s
    else
      let s := siftDownDedupTop.first icmp (2 * s.load + 2) s c cmp
      let c := 3 - c
      if s.activeInputs ≤ c then s
      else siftDownDedupTop.second icmp (s.load + 1) s c childcmp

/-- The end of `init` and of `_next`: the item at the top sinks to its place. -/
def siftTop (s : CRowStreamMerger R) : CRowStreamMerger R :=
  if s.partdedup then s.siftDownDedupTop icmp else (s.siftDown icmp 0).1

/-- The loop of `init`, from `p` down to 1. -/
def init.loop : ℕ → CRowStreamMerger R → CRowStreamMerger R
  | 0, s => s
  | p + 1, s => init.loop p (s.siftDown icmp (p + 1)).1

/-- `init()` -/
def init (s : CRowStreamMerger R) : CRowStreamMerger R :=
  let s := if 0 < s.activeInputs then
      let s := if 2 ≤ s.activeInputs then init.loop icmp ((s.activeInputs - 2) / 2) s else s
      s.siftTop icmp
    else s
  { s with recno := 0 }

/-- `_next()` -/
def advance (s : CRowStreamMerger R) : CRowStreamMerger R × Bool :=
  if s.activeInputs = 0 then (s, false)
  else if s.recno ≠ 0 then
    match s.refill 0 with
    | (s, true) =>
      let s := s.siftTop icmp
      ({ s with recno := s.recno + 1 }, true)
    | (s, false) => (s, false)
  else ({ s with recno := s.recno + 1 }, true)

/-- `next()`: the row and its stream `strm`, or `none` for a null pointer. -/
def next (s : CRowStreamMerger R) : CRowStreamMerger R × Option (ℕ × R) :=
  match s.advance icmp with
  | (s, true) =>
    let strm := s.mergeheap 0
    ({ s with pending := Function.update s.pending strm none }, (s.pending strm).map (strm, ·))
  | (s, false) => (s, none)

/-- One pass of the loop of the constructor. -/
def addStream (s : CRowStreamMerger R) (i : ℕ) : CRowStreamMerger R :=
  match { s with pending := Function.update s.pending i none }.pullInput i with
  | (s, true) => { s with
      mergeheap := Function.update s.mergeheap s.activeInputs i
      activeInputs := s.activeInputs + 1 }
  | (s, false) => s

/-- `CRowStreamMerger(provider, numstreams, icmp, partdedup)` -/
def construct (numstreams : ℕ) (partdedup : Bool) (rows : ℕ → List R) : CRowStreamMerger R :=
  init icmp ((List.range numstreams).foldl addStream
    { numstreams, partdedup, pending := fun _ => none, mergeheap := fun _ => 0, activeInputs := 0,
      recno := 0, rows, released := [], stopped := [], failed := false })

/-- The first calls of `next`. -/
def calls : ℕ → CRowStreamMerger R → CRowStreamMerger R × List (Option (ℕ × R))
  | 0, s => (s, [])
  | n + 1, s =>
    let (s, row) := s.next icmp
    let (s, rest) := calls n s
    (s, row :: rest)

end CRowStreamMerger

end Merge

end HpccPlatform
