import HpccPlatform.Library.FixedBytes
import HpccPlatform.StringSet.Ranges

/-!
# The kinds of string sets

The values of a string set are byte strings of one size.  A kind is numbered by the order in which
its `memcmp` compares them.
-/

namespace HpccPlatform

namespace StringSet

/-- `class CBigUnsignedStringSet` -/
def bigUnsigned (n : ℕ) : ValueKind (FixedBytes n) where
  memcmp a b := Bytes.memcmp n a.bytes b.bytes
  increment v := v.increment.2
  decrement v := v.decrement.2
  low := .low
  high := .high

theorem bigUnsigned_neg_iff {n : ℕ} (a b : FixedBytes n) :
    (bigUnsigned n).memcmp a b < 0 ↔ a.rank < b.rank :=
  Bytes.memcmp_neg_iff a.length_bytes b.length_bytes

theorem bigUnsigned_pos_iff {n : ℕ} (a b : FixedBytes n) :
    0 < (bigUnsigned n).memcmp a b ↔ b.rank < a.rank :=
  Bytes.memcmp_pos_iff a.length_bytes b.length_bytes

theorem ranked_bigUnsigned {n : ℕ} (hn : 0 < n) :
    Ranked (bigUnsigned n) FixedBytes.rank (256 ^ n) where
  lt := FixedBytes.rank_lt
  neg_iff := bigUnsigned_neg_iff
  pos_iff := bigUnsigned_pos_iff
  increment := by
    intro v hv
    have h := v.increment_spec
    rw [if_pos (v.increment_fst_iff.mpr hv)] at h
    exact h
  decrement := by
    intro v hv
    have h := v.decrement_spec
    by_cases hok : v.decrement.1 = true
    · rw [if_pos hok] at h
      exact h
    · rw [if_neg hok] at h
      omega
  decrement_zero := by
    intro v hv
    have h := v.decrement_spec
    have hone : 1 < 256 ^ n := Nat.one_lt_pow hn.ne' (by decide)
    by_cases hok : v.decrement.1 = true
    · rw [if_pos hok] at h
      omega
    · rw [if_neg hok] at h
      change 0 < v.decrement.2.rank
      omega
  low := FixedBytes.rank_low
  high := FixedBytes.rank_high

end StringSet

end HpccPlatform
