import HpccPlatform.StringSet.Kinds
import HpccPlatform.ValueSet.Lookup

/-!
# Fields of an index

Types of a fixed size whose values are ordered as byte strings, and the values that the bounds of a
value set of `rtl/eclrtl/rtlnewkey.cpp` write to a field of such a type.
-/

namespace HpccPlatform

open Bytes

/-- A type of fixed size that is compared in the order of `memcmp`. -/
structure ByteOrdered (size : ℕ) extends RtlTypeInfo (FixedBytes size) where
  neg_iff : ∀ a b, compare a b < 0 ↔ a.rank < b.rank
  pos_iff : ∀ a b, 0 < compare a b ↔ b.rank < a.rank
  isFixedSize_eq : isFixedSize = true
  getMinSize_eq : getMinSize = size

/-! ## The bounds of a value set -/

/-- `setBound` of a type of fixed size. -/
def setBound {size : ℕ} (value : Option (FixedBytes size)) (subLength : ℕ) (fill : UInt8)
    (inclusive : Bool) : FixedBytes size :=
  match value with
  | some value =>
    let copySize := if subLength ≠ MatchFullString then min size subLength else size
    let copied := value.bytes.take copySize
    let copied :=
      if inclusive then copied
      else if fill = 0 then (incrementBuffer copied).2 else (decrementBuffer copied).2
    .read (copied ++ List.replicate (size - copySize) fill) 0 size
  | none => .fill size fill

namespace ValueTransition

variable {size : ℕ}

def setLow (t : ValueTransition (FixedBytes size)) : FixedBytes size :=
  setBound t.value t.subLength 0 t.isInclusiveBound

def setHigh (t : ValueTransition (FixedBytes size)) : FixedBytes size :=
  setBound t.value t.subLength 0xff t.isInclusiveBound

end ValueTransition

end HpccPlatform
