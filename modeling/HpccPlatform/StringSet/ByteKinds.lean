import HpccPlatform.Library.ByteOrders
import HpccPlatform.StringSet.Kinds

/-!
# The four kinds of string sets

Besides the big-endian unsigned values there are signed ones, and little-endian ones of both sorts.
Each kind compares its values as `bigUnsigned` compares other values of the same size: those with the
bytes in reverse order, or with the sign bit turned over.
-/

namespace HpccPlatform

namespace StringSet

open Bytes (signed)

variable {V W : Type*} {n M : ℕ}

/-- `memcmpbigsigned(l, r, size)`, of two values of one size. -/
def memcmpbigsigned : List UInt8 → List UInt8 → ℤ
  | l :: ls, r :: rs =>
    let diff := signed l - signed r
    if diff ≠ 0 then diff else Bytes.memcmp ls.length ls rs
  | _, _ => 0

/-- `memcmplittleunsigned(l, r, size)` -/
def memcmplittleunsigned : List UInt8 → List UInt8 → ℤ
  | l :: ls, r :: rs =>
    let diff := memcmplittleunsigned ls rs
    if diff ≠ 0 then diff else (l.toNat : ℤ) - r.toNat
  | _, _ => 0

/-- `memcmplittlesigned(l, r, size)` -/
def memcmplittlesigned : List UInt8 → List UInt8 → ℤ
  | [l], [r] => signed l - signed r
  | l :: ls, r :: rs =>
    let diff := memcmplittlesigned ls rs
    if diff ≠ 0 then diff else (l.toNat : ℤ) - r.toNat
  | _, _ => 0

/-- `memset` with one byte, and another byte put at a place. -/
def memset (n : ℕ) (val : UInt8) (i : ℕ) (b : UInt8) : FixedBytes n :=
  ⟨(List.replicate n val).set i b, by rw [List.length_set, List.length_replicate]⟩

/-- `class CBigSignedStringSet` -/
def bigSigned (n : ℕ) : ValueKind (FixedBytes n) where
  memcmp a b := memcmpbigsigned a.bytes b.bytes
  increment v := v.increment.2
  decrement v := v.decrement.2
  low := memset n 0 0 0x80
  high := memset n 0xff 0 0x7f

/-- `class CLittleUnsignedStringSet` -/
def littleUnsigned (n : ℕ) : ValueKind (FixedBytes n) where
  memcmp a b := memcmplittleunsigned a.bytes b.bytes
  increment v := ⟨(Bytes.incrementLittle v.bytes).2,
    (Bytes.length_incrementLittle v.bytes).trans v.length_bytes⟩
  decrement v := ⟨(Bytes.decrementLittle v.bytes).2,
    (Bytes.length_decrementLittle v.bytes).trans v.length_bytes⟩
  low := .low
  high := .high

/-- `class CLittleSignedStringSet` -/
def littleSigned (n : ℕ) : ValueKind (FixedBytes n) where
  memcmp a b := memcmplittlesigned a.bytes b.bytes
  increment := (littleUnsigned n).increment
  decrement := (littleUnsigned n).decrement
  low := memset n 0 (n - 1) 0x80
  high := memset n 0xff (n - 1) 0x7f

/-- `createStringSet(size, bigEndian, isSigned)` -/
def createStringSet (n : ℕ) (bigEndian isSigned : Bool) : ValueKind (FixedBytes n) :=
  if bigEndian then
    if isSigned then bigSigned n else bigUnsigned n
  else
    if isSigned then littleSigned n else littleUnsigned n

/-! ### One kind read as another -/

/-- Values that are compared and stepped as other ones are numbered as those. -/
theorem Ranked.comap {kind : ValueKind V} {kind' : ValueKind W} {rank : W → ℕ}
    (h : Ranked kind' rank M) (f : V → W)
    (hmemcmp : ∀ a b, kind.memcmp a b = kind'.memcmp (f a) (f b))
    (hincrement : ∀ v, f (kind.increment v) = kind'.increment (f v))
    (hdecrement : ∀ v, f (kind.decrement v) = kind'.decrement (f v))
    (hlow : f kind.low = kind'.low) (hhigh : f kind.high = kind'.high) :
    Ranked kind (fun v => rank (f v)) M where
  lt v := h.lt (f v)
  neg_iff a b := by
    rw [hmemcmp]
    exact h.neg_iff _ _
  pos_iff a b := by
    rw [hmemcmp]
    exact h.pos_iff _ _
  increment v hv := by
    rw [hincrement]
    exact h.increment _ hv
  decrement v hv := by
    rw [hdecrement]
    exact h.decrement _ hv
  decrement_zero v hv := by
    rw [hdecrement]
    exact h.decrement_zero _ hv
  low := by
    rw [hlow]
    exact h.low
  high := by
    rw [hhigh]
    exact h.high

theorem memcmpbigsigned_eq {as bs : List UInt8} (hlen : as.length = bs.length) :
    memcmpbigsigned as bs = Bytes.memcmp as.length (Bytes.flip as) (Bytes.flip bs) := by
  cases as with
  | nil => cases bs <;> rfl
  | cons a as =>
    cases bs with
    | nil => cases hlen
    | cons b bs =>
      rw [Bytes.flip, Bytes.flip, List.length_cons, Bytes.memcmp_cons_flip]
      rfl

theorem memcmplittleunsigned_eq {as bs : List UInt8} (hlen : as.length = bs.length) :
    memcmplittleunsigned as bs = Bytes.memcmp as.length as.reverse bs.reverse := by
  induction as generalizing bs with
  | nil => cases bs <;> rfl
  | cons a as ih =>
    cases bs with
    | nil => cases hlen
    | cons b bs =>
      have hlen' : as.length = bs.length := by simpa using hlen
      rw [memcmplittleunsigned, ih hlen', List.reverse_cons, List.reverse_cons, List.length_cons,
        Bytes.memcmp_append_singleton List.length_reverse (by rw [List.length_reverse, hlen'])]

theorem memcmplittlesigned_eq {as bs : List UInt8} (hlen : as.length = bs.length) :
    memcmplittlesigned as bs = memcmpbigsigned as.reverse bs.reverse := by
  rw [memcmpbigsigned_eq (by rw [List.length_reverse, List.length_reverse, hlen]),
    List.length_reverse]
  induction as generalizing bs with
  | nil => cases bs <;> rfl
  | cons a as ih =>
    cases bs with
    | nil => cases hlen
    | cons b bs =>
      have hlen' : as.length = bs.length := by simpa using hlen
      cases as with
      | nil =>
        rw [List.length_eq_zero_iff.mp hlen'.symm]
        have hone := @Bytes.memcmp_cons_flip 0 [] [] a b
        rw [Bytes.memcmp_zero, ite_not] at hone
        rw [memcmplittlesigned]
        refine Eq.trans ?_ hone.symm
        split_ifs with hzero
        · exact hzero
        · rfl
      | cons a' as =>
        obtain ⟨b', bs, rfl⟩ : ∃ b' bs', bs = b' :: bs' := List.exists_cons_of_ne_nil (by
          rintro rfl
          cases hlen')
        have hne : ∀ (c : UInt8) (cs : List UInt8), (c :: cs).reverse ≠ [] := by simp
        have hflip : ∀ (c d : UInt8) (cs : List UInt8), Bytes.flip (c :: d :: cs).reverse =
            Bytes.flip (d :: cs).reverse ++ [c] := by
          intro c d cs
          rw [@List.reverse_cons _ c, Bytes.flip_append_singleton (hne d cs)]
        have hconcat := @Bytes.memcmp_append_singleton (Bytes.flip (a' :: as).reverse)
          (Bytes.flip (b' :: bs).reverse) (a' :: as).length
          (by rw [Bytes.length_flip, List.length_reverse])
          (by rw [Bytes.length_flip, List.length_reverse, hlen']) a b
        rw [← hflip, ← hflip] at hconcat
        rw [memcmplittlesigned, ih hlen']
        · exact hconcat.symm
        · rintro _ hnil
          cases hnil

/-! ### The numbering of a kind -/

/-- A value of a kind as a big-endian number of the same order. -/
def unsignedValue (bigEndian isSigned : Bool) (v : FixedBytes n) : FixedBytes n :=
  let v := if bigEndian then v else v.reverse
  if isSigned then v.flip else v

/-- The place of a value in the order of its kind. -/
def valueRank (bigEndian isSigned : Bool) (v : FixedBytes n) : ℕ :=
  (unsignedValue bigEndian isSigned v).rank

theorem unsignedValue_injective (bigEndian isSigned : Bool) :
    Function.Injective (unsignedValue bigEndian isSigned : FixedBytes n → FixedBytes n) := by
  cases bigEndian with
  | true =>
    cases isSigned with
    | true => exact FixedBytes.flip_injective
    | false => exact fun v w h => h
  | false =>
    cases isSigned with
    | true => exact FixedBytes.flip_injective.comp FixedBytes.reverse_injective
    | false => exact FixedBytes.reverse_injective

theorem valueRank_injective (bigEndian isSigned : Bool) :
    Function.Injective (valueRank bigEndian isSigned : FixedBytes n → ℕ) :=
  fun _ _ h => unsignedValue_injective bigEndian isSigned (FixedBytes.rank_injective h)

theorem ranked_bigSigned (hn : 0 < n) :
    Ranked (bigSigned n) (fun v => v.flip.rank) (256 ^ n) := by
  obtain ⟨m, rfl⟩ := Nat.exists_eq_succ_of_ne_zero hn.ne'
  refine (ranked_bigUnsigned hn).comap FixedBytes.flip ?_ ?_ ?_ ?_ ?_
  · intro a b
    have h := memcmpbigsigned_eq (a.length_bytes.trans b.length_bytes.symm)
    rw [a.length_bytes] at h
    exact h
  · exact fun v => FixedBytes.ext (Bytes.flip_incrementBuffer v.bytes)
  · exact fun v => FixedBytes.ext (Bytes.flip_decrementBuffer v.bytes)
  · exact FixedBytes.ext rfl
  · exact FixedBytes.ext rfl

theorem reverse_memset (m : ℕ) (val b : UInt8) :
    (memset (m + 1) val m b).reverse = memset (m + 1) val 0 b := by
  apply FixedBytes.ext
  show ((List.replicate (m + 1) val).set m b).reverse = b :: List.replicate m val
  rw [List.replicate_succ', List.set_append_right _ _ (by simp), List.length_replicate, Nat.sub_self,
    List.set_cons_zero, List.reverse_append, List.reverse_singleton, List.reverse_replicate,
    List.singleton_append]

/-- The numbers of the values follow the order of their kind. -/
theorem ranked_createStringSet (hn : 0 < n) (bigEndian isSigned : Bool) :
    Ranked (createStringSet n bigEndian isSigned) (valueRank bigEndian isSigned) (256 ^ n) := by
  obtain ⟨m, rfl⟩ := Nat.exists_eq_succ_of_ne_zero hn.ne'
  cases bigEndian with
  | true =>
    cases isSigned with
    | true => exact ranked_bigSigned hn
    | false => exact ranked_bigUnsigned hn
  | false =>
    have hincrement : ∀ v, FixedBytes.reverse ((littleUnsigned (m + 1)).increment v) =
        v.reverse.increment.2 := fun v => FixedBytes.ext (Bytes.reverse_incrementLittle v.bytes)
    have hdecrement : ∀ v, FixedBytes.reverse ((littleUnsigned (m + 1)).decrement v) =
        v.reverse.decrement.2 := fun v => FixedBytes.ext (Bytes.reverse_decrementLittle v.bytes)
    cases isSigned with
    | true =>
      refine (ranked_bigSigned hn).comap FixedBytes.reverse ?_ hincrement hdecrement
        (reverse_memset m 0 0x80) (reverse_memset m 0xff 0x7f)
      exact fun a b => memcmplittlesigned_eq (a.length_bytes.trans b.length_bytes.symm)
    | false =>
      refine (ranked_bigUnsigned hn).comap FixedBytes.reverse ?_ hincrement hdecrement
        (FixedBytes.reverse_fill 0) (FixedBytes.reverse_fill 0xff)
      intro a b
      have h := memcmplittleunsigned_eq (a.length_bytes.trans b.length_bytes.symm)
      rw [a.length_bytes] at h
      exact h

end StringSet

end HpccPlatform
