import Mathlib

/-!
# Bloom filters of an index

`system/jhtree/bloom.cpp`.  When an index is written, a hash of some of the fields of each row is
added to a builder, and the filter that it builds is stored with the index.  When the index is read,
a search whose filters fix these fields computes the same hash from the filters, and is given up if
the Bloom filter does not know it.

Rows are written with one of three hashers, chosen by the shape of the field mask; filters are
always hashed field by field.  The hash is a fold of an unknown function over the bytes, and the
size of a Bloom filter an unknown function of the number of hashes.
-/

namespace HpccPlatform

namespace Bloom

/-! ## Hashes -/

/-- `HASH64_INIT` -/
def HASH64_INIT : UInt64 := 0xcbf29ce484222325

/-- `rtlHash64Data(length, data, hash)`, for the function that hashes one more byte. -/
def rtlHash64Data (step : UInt64 → UInt8 → UInt64) (data : List UInt8) (hash : UInt64) : UInt64 :=
  data.foldl step hash

lemma rtlHash64Data_append (step : UInt64 → UInt8 → UInt64) (a b : List UInt8) (hash : UInt64) :
    rtlHash64Data step (a ++ b) hash = rtlHash64Data step b (rtlHash64Data step a hash) :=
  List.foldl_append

/-! ## Bloom filters -/

/-- `class BloomFilter`: the number of hashes, and the bytes of the table. -/
structure BloomFilter where
  numHashes : ℕ
  table : List ℕ

namespace BloomFilter

def numBits (b : BloomFilter) : ℕ := b.table.length * 8

/-- The bit of the table for hash number `i`: `(hash1 + (i * hash2)) % numBits`, where the sum is
one of unsigned integers of 32 bits. -/
def bit (numBits : ℕ) (hash : UInt64) (i : ℕ) : ℕ :=
  let hash1 := hash.toNat / 2 ^ 32
  let hash2 := hash.toNat % 2 ^ 32
  ((hash1 + i * hash2) % 2 ^ 32) % numBits

/-- `table[slot] |= mask` -/
def setBit (table : List ℕ) (bit : ℕ) : List ℕ :=
  table.modify (bit / 8) fun byte => byte ||| 2 ^ (bit % 8)

/-- `table[slot] & mask` -/
def getBit (table : List ℕ) (bit : ℕ) : Bool :=
  (table.getD (bit / 8) 0) &&& 2 ^ (bit % 8) != 0

/-- `add(hash)` -/
def add (b : BloomFilter) (hash : UInt64) : BloomFilter :=
  { b with
    table := (List.range b.numHashes).foldl (fun table i => setBit table (bit b.numBits hash i))
      b.table }

/-- `test(hash)` -/
def test (b : BloomFilter) (hash : UInt64) : Bool :=
  (List.range b.numHashes).all fun i => getBit b.table (bit b.numBits hash i)

@[simp] lemma length_setBit (table : List ℕ) (bit : ℕ) :
    (setBit table bit).length = table.length := List.length_modify _ _ _

lemma getBit_iff (table : List ℕ) (bit : ℕ) :
    getBit table bit = true ↔ (table.getD (bit / 8) 0).testBit (bit % 8) = true := by
  unfold getBit
  rw [Nat.and_two_pow, bne_iff_ne]
  cases (table.getD (bit / 8) 0).testBit (bit % 8) <;> simp

/-- A bit that is set stays set. -/
lemma getBit_setBit_of_getBit {table : List ℕ} {bit : ℕ} (bit' : ℕ)
    (h : getBit table bit = true) : getBit (setBit table bit') bit = true := by
  rw [getBit_iff] at h ⊢
  unfold setBit
  rw [List.getD_eq_getElem?_getD, List.getElem?_modify]
  rw [List.getD_eq_getElem?_getD] at h
  split
  · cases hget : table[bit / 8]? with
    | none => simp [hget] at h
    | some byte =>
      simp only [hget, Option.getD_some] at h
      simp [Nat.testBit_or, h]
  · simpa using h

lemma getBit_setBit_self {table : List ℕ} {bit : ℕ} (h : bit < table.length * 8) :
    getBit (setBit table bit) bit = true := by
  rw [getBit_iff]
  unfold setBit
  have hslot : bit / 8 < table.length := by omega
  rw [List.getD_eq_getElem?_getD, List.getElem?_modify, List.getElem?_eq_getElem hslot]
  simp [Nat.testBit_or, Nat.testBit_two_pow_self]

/-- The bits of a hash are set one after the other. -/
lemma foldl_setBit (bits : List ℕ) (table : List ℕ) :
    (bits.foldl setBit table).length = table.length ∧
      (∀ bit, getBit table bit = true → getBit (bits.foldl setBit table) bit = true) ∧
      ∀ bit ∈ bits, bit < table.length * 8 → getBit (bits.foldl setBit table) bit = true := by
  induction bits generalizing table with
  | nil => exact ⟨rfl, fun _ h => h, fun _ h => by cases h⟩
  | cons b bits ih =>
    obtain ⟨hlen, hkeep, hset⟩ := ih (setBit table b)
    rw [List.foldl_cons]
    refine ⟨hlen.trans (length_setBit _ _), fun bit h => ?_, fun bit hbit hlt => ?_⟩
    · exact hkeep bit (getBit_setBit_of_getBit b h)
    · rcases List.mem_cons.1 hbit with rfl | hbit
      · exact hkeep bit (getBit_setBit_self hlt)
      · exact hset bit hbit (by rwa [length_setBit])

lemma add_table (b : BloomFilter) (hash : UInt64) :
    (b.add hash).table =
      ((List.range b.numHashes).map (bit b.numBits hash)).foldl setBit b.table := by
  rw [List.foldl_map]
  rfl

lemma numBits_add (b : BloomFilter) (hash : UInt64) : (b.add hash).numBits = b.numBits := by
  unfold numBits
  rw [add_table, (foldl_setBit _ _).1]

/-- A hash that has been added is known. -/
lemma test_add_self {b : BloomFilter} (hpos : 0 < b.table.length) (hash : UInt64) :
    (b.add hash).test hash = true := by
  unfold test
  rw [List.all_eq_true, numBits_add]
  intro i hi
  rw [add_table]
  refine (foldl_setBit _ _).2.2 _ (List.mem_map_of_mem hi) ?_
  exact Nat.mod_lt _ (by unfold numBits; omega)

/-- A hash that is known stays known. -/
lemma test_add_of_test {b : BloomFilter} {hash : UInt64} (other : UInt64)
    (h : b.test hash = true) : (b.add other).test hash = true := by
  unfold test at h ⊢
  rw [List.all_eq_true] at h ⊢
  rw [numBits_add]
  intro i hi
  rw [add_table]
  exact (foldl_setBit _ _).2.1 _ (h i hi)

/-- Every hash of a list is known after they have all been added. -/
lemma test_foldl_add {b : BloomFilter} (hpos : 0 < b.table.length) {hashes : List UInt64}
    {hash : UInt64} (h : hash ∈ hashes ∨ b.test hash = true) :
    (hashes.foldl add b).test hash = true := by
  induction hashes generalizing b with
  | nil => simpa using h
  | cons x xs ih =>
    rw [List.foldl_cons]
    have hlen : (b.add x).table.length = b.table.length := by
      rw [add_table, (foldl_setBit _ _).1]
    refine ih (by omega) ?_
    rcases h with h | h
    · rcases List.mem_cons.1 h with rfl | h
      · exact Or.inr (test_add_self hpos _)
      · exact Or.inl h
    · exact Or.inr (test_add_of_test x h)

end BloomFilter

/-! ## Builders -/

/-- `BloomFilter(cardinality, probability)`, for the number of hashes and the size of the table that
the constructor computes from them. -/
def createBloomFilter (sizing : ℕ → ℕ × ℕ) (cardinality : ℕ) : BloomFilter where
  numHashes := (sizing cardinality).1
  table := List.replicate (sizing cardinality).2 0

/-- `class SortedBloomBuilder` -/
structure SortedBloomBuilder where
  hashes : List UInt64
  maxHashes : ℕ
  lastHash : UInt64
  isValid : Bool

namespace SortedBloomBuilder

/-- `add(hash)` -/
def add (b : SortedBloomBuilder) (hash : UInt64) : SortedBloomBuilder :=
  if b.isValid = true ∧ (hash ≠ b.lastHash ∨ b.hashes = []) then
    if b.hashes.length = b.maxHashes then
      { b with isValid := false, hashes := [], lastHash := hash }
    else { b with hashes := b.hashes ++ [hash], lastHash := hash }
  else b

def valid (b : SortedBloomBuilder) : Bool := b.isValid && b.hashes.length != 0

/-- The builder has all the hashes that were added, as long as it is valid. -/
structure Holds (b : SortedBloomBuilder) (added : List UInt64) : Prop where
  mem : b.isValid = true → ∀ h ∈ added, h ∈ b.hashes
  last : b.isValid = true → b.hashes ≠ [] → b.lastHash ∈ b.hashes

lemma Holds.add {b : SortedBloomBuilder} {added : List UInt64} (h : b.Holds added)
    (hash : UInt64) : (b.add hash).Holds (added ++ [hash]) := by
  unfold SortedBloomBuilder.add
  by_cases hnew : b.isValid = true ∧ (hash ≠ b.lastHash ∨ b.hashes = [])
  · rw [if_pos hnew]
    by_cases hfull : b.hashes.length = b.maxHashes
    · rw [if_pos hfull]
      exact ⟨fun hv => (by cases hv), fun hv => (by cases hv)⟩
    · rw [if_neg hfull]
      refine ⟨fun hv x hx => ?_, fun _ _ => by simp⟩
      rcases List.mem_append.1 hx with hx | hx
      · exact List.mem_append_left _ (h.mem hv x hx)
      · exact List.mem_append_right _ hx
  · rw [if_neg hnew]
    refine ⟨fun hv x hx => ?_, h.last⟩
    rcases List.mem_append.1 hx with hx | hx
    · exact h.mem hv x hx
    · -- the hash is the one that was added last
      rw [List.mem_singleton.1 hx]
      simp only [hv, true_and, not_or, not_not] at hnew
      rw [hnew.1]
      exact h.last hv hnew.2

end SortedBloomBuilder

/-- `class UnsortedBloomBuilder`: the hashes are in a hash table, which is given up (`none`) when a
hash cannot be stored. -/
structure UnsortedBloomBuilder where
  hashes : Option (List UInt64)
  maxHashes : ℕ
  tableCount : ℕ

namespace UnsortedBloomBuilder

/-- The loop of `add` that looks for the hash or for an empty place, over at most `fuel` places:
the place, and whether the hash is there.  When every place has been seen the loop does not end. -/
def probe (table : List UInt64) (hash : UInt64) : ℕ → ℕ → Option (ℕ × Bool)
  | 0, _ => none
  | fuel + 1, pos =>
    let val := table.getD pos 0
    if val = 0 then some (pos, false)
    else if val = hash then some (pos, true)
    else probe table hash fuel (if pos + 1 = table.length then 0 else pos + 1)

/-- `add(hash)` -/
def add (b : UnsortedBloomBuilder) (hash : UInt64) : Option UnsortedBloomBuilder :=
  match b.hashes with
  | none => some b
  | some table =>
    if hash = 0 then some { b with hashes := none, tableCount := 0 }
    else
      (probe table hash table.length (hash.toNat % table.length)).map fun r =>
        if r.2 then b
        else if b.tableCount = b.maxHashes then { b with hashes := none, tableCount := 0 }
        else { b with hashes := some (table.set r.1 hash), tableCount := b.tableCount + 1 }

def valid (b : UnsortedBloomBuilder) : Bool := b.tableCount != 0

/-- The table has all the hashes that were added, and it is there as long as the builder is
valid. -/
structure Holds (b : UnsortedBloomBuilder) (added : List UInt64) : Prop where
  mem : ∀ table ∈ b.hashes, table ≠ [] ∧ ∀ h ∈ added, h ≠ 0 ∧ h ∈ table
  none : b.hashes = none → b.tableCount = 0

lemma probe_spec {table : List UInt64} {hash : UInt64} {fuel pos : ℕ} {r : ℕ × Bool}
    (hpos : pos < table.length) (h : probe table hash fuel pos = some r) :
    ∃ hr : r.1 < table.length, if r.2 then table[r.1] = hash else table[r.1] = 0 := by
  induction fuel generalizing pos with
  | zero => cases h
  | succ fuel ih =>
    rw [probe] at h
    have hget : table.getD pos 0 = table[pos] := by
      rw [List.getD_eq_getElem?_getD, List.getElem?_eq_getElem hpos, Option.getD_some]
    simp only [hget] at h
    split_ifs at h with h₁ h₂ h₃
    · cases h
      exact ⟨hpos, by simpa using h₁⟩
    · cases h
      exact ⟨hpos, by simpa using h₂⟩
    · exact ih (by omega) h
    · exact ih (by omega) h

lemma Holds.add {b b' : UnsortedBloomBuilder} {added : List UInt64} (h : b.Holds added)
    {hash : UInt64} (hadd : b.add hash = some b') : b'.Holds (added ++ [hash]) := by
  unfold UnsortedBloomBuilder.add at hadd
  cases htable : b.hashes with
  | none =>
    rw [htable] at hadd
    cases hadd
    exact ⟨fun t ht => (by rw [htable] at ht; cases ht), h.none⟩
  | some table =>
    rw [htable] at hadd
    obtain ⟨hne, hmem⟩ := h.mem table htable
    dsimp only at hadd
    by_cases hzero : hash = 0
    · rw [if_pos hzero] at hadd
      cases hadd
      exact ⟨fun t ht => (by cases ht), fun _ => rfl⟩
    rw [if_neg hzero] at hadd
    obtain ⟨r, hr, rfl⟩ := Option.map_eq_some_iff.1 hadd
    have hlen : 0 < table.length := List.length_pos_iff.2 hne
    obtain ⟨hlt, hget⟩ := probe_spec (Nat.mod_lt _ hlen) hr
    by_cases hfound : r.2 = true
    · rw [if_pos hfound] at hget ⊢
      refine ⟨fun t ht => ?_, h.none⟩
      obtain rfl : table = t := by rw [htable] at ht; exact Option.some.inj ht
      refine ⟨hne, fun x hx => ?_⟩
      rcases List.mem_append.1 hx with hx | hx
      · exact hmem x hx
      · rw [List.mem_singleton.1 hx]
        exact ⟨hzero, hget ▸ List.getElem_mem hlt⟩
    · rw [if_neg hfound] at hget ⊢
      by_cases hfull : b.tableCount = b.maxHashes
      · rw [if_pos hfull]
        exact ⟨fun t ht => (by cases ht), fun _ => rfl⟩
      · rw [if_neg hfull]
        refine ⟨fun t ht => ?_, fun hnone => by cases hnone⟩
        cases ht
        refine ⟨by simpa using hne, fun x hx => ?_⟩
        rcases List.mem_append.1 hx with hx | hx
        · -- the place that is overwritten was empty
          obtain ⟨hx0, hxt⟩ := hmem x hx
          obtain ⟨i, hi, rfl⟩ := List.mem_iff_getElem.1 hxt
          refine ⟨hx0, List.mem_iff_getElem.2 ⟨i, by simpa using hi, ?_⟩⟩
          rw [List.getElem_set_ne]
          rintro rfl
          exact hx0 hget
        · rw [List.mem_singleton.1 hx]
          exact ⟨hzero, List.mem_set hlt hash⟩

end UnsortedBloomBuilder

/-- `IBloomBuilderInfo`, apart from the probability, which only the size of the filter depends on. -/
structure BloomBuilderInfo where
  getBloomFields : UInt64
  getBloomLimit : ℕ
  getBloomEnabled : Bool

/-- An `IBloomBuilder`. -/
inductive BloomBuilder where
  | sorted (b : SortedBloomBuilder)
  | unsorted (b : UnsortedBloomBuilder)

/-- `createBloomBuilder(helper)`: the hashes of a leading block of fields come in sorted order. -/
def createBloomBuilder (info : BloomBuilderInfo) : BloomBuilder :=
  if info.getBloomFields &&& (info.getBloomFields + 1) = 0 then
    .sorted {
      hashes := []
      maxHashes := info.getBloomLimit
      lastHash := 0
      isValid := info.getBloomLimit != 0 && info.getBloomEnabled }
  else
    let tableSize := (info.getBloomLimit * 4 % 2 ^ 32) / 3 + 1
    .unsorted {
      hashes := if info.getBloomEnabled then some (List.replicate tableSize 0) else none
      maxHashes := info.getBloomLimit
      tableCount := 0 }

namespace BloomBuilder

def add : BloomBuilder → UInt64 → Option BloomBuilder
  | sorted b, hash => some (sorted (b.add hash))
  | unsorted b, hash => (b.add hash).map unsorted

def valid : BloomBuilder → Bool
  | sorted b => b.valid
  | unsorted b => b.valid

/-- The hashes that `build` adds to the filter, and their number. -/
def stored : BloomBuilder → List UInt64 × ℕ
  | sorted b => (b.hashes, b.hashes.length)
  | unsorted b => ((b.hashes.getD []).filter (· != 0), b.tableCount)

/-- `build()` -/
def build (sizing : ℕ → ℕ × ℕ) (b : BloomBuilder) : Option BloomFilter :=
  if b.valid then some (b.stored.1.foldl BloomFilter.add (createBloomFilter sizing b.stored.2))
  else none

/-- The builder has all the hashes that were added, as long as it is valid. -/
def Holds : BloomBuilder → List UInt64 → Prop
  | sorted b, added => b.Holds added
  | unsorted b, added => b.Holds added

lemma holds_create (info : BloomBuilderInfo) : (createBloomBuilder info).Holds [] := by
  unfold createBloomBuilder
  split
  · exact ⟨fun _ h hh => (by cases hh), fun _ h => absurd rfl h⟩
  · refine ⟨fun t ht => ?_, fun _ => rfl⟩
    refine ⟨?_, fun h hh => by cases hh⟩
    split at ht
    · cases ht
      simp
    · cases ht

lemma Holds.add {b b' : BloomBuilder} {added : List UInt64} (h : b.Holds added) {hash : UInt64}
    (hadd : b.add hash = some b') : b'.Holds (added ++ [hash]) := by
  cases b with
  | sorted b =>
    cases hadd
    exact SortedBloomBuilder.Holds.add h hash
  | unsorted b =>
    obtain ⟨c, hc, rfl⟩ := Option.map_eq_some_iff.1 hadd
    exact UnsortedBloomBuilder.Holds.add h hc

lemma Holds.foldlM {b b' : BloomBuilder} {added hashes : List UInt64} (h : b.Holds added)
    (hadd : hashes.foldlM BloomBuilder.add b = some b') : b'.Holds (added ++ hashes) := by
  induction hashes generalizing b added with
  | nil =>
    cases hadd
    simpa using h
  | cons x xs ih =>
    rw [List.foldlM_cons] at hadd
    obtain ⟨c, hc, hadd⟩ := Option.bind_eq_some_iff.1 hadd
    have := ih (h.add hc) hadd
    rwa [List.append_assoc, List.singleton_append] at this

/-- A valid builder gives a filter that knows every hash that was added. -/
lemma Holds.test_build {b : BloomBuilder} {added : List UInt64} (h : b.Holds added)
    (hvalid : b.valid = true) {sizing : ℕ → ℕ × ℕ} (hsize : ∀ n, 0 < (sizing n).2) :
    ∃ filter, b.build sizing = some filter ∧ ∀ x ∈ added, filter.test x = true := by
  refine ⟨_, if_pos hvalid, fun x hx => ?_⟩
  refine BloomFilter.test_foldl_add ?_ (Or.inl ?_)
  · unfold createBloomFilter
    rw [List.length_replicate]
    exact hsize _
  · cases b with
    | sorted b =>
      have hv : b.isValid = true := (Bool.and_eq_true_iff.1 hvalid).1
      exact SortedBloomBuilder.Holds.mem h hv x hx
    | unsorted b =>
      cases htable : b.hashes with
      | none =>
        have hcount : b.tableCount ≠ 0 := by simpa [valid, UnsortedBloomBuilder.valid] using hvalid
        exact absurd (UnsortedBloomBuilder.Holds.none h htable) hcount
      | some table =>
        obtain ⟨-, hmem⟩ := UnsortedBloomBuilder.Holds.mem h table htable
        simp [stored, htable, hmem x hx]

end BloomBuilder

/-! ## The hash of a row -/

/-- The numbers of the fields of a mask, in the order in which the loops extract them: each takes
the lowest bit that is set and clears it. -/
def maskFields (fields : UInt64) : List ℕ :=
  (List.range 64).filter fun f => fields.toNat.testBit f

/-- `ffsll(i)`: the number of the lowest bit that is set, counting from one. -/
def ffsll (i : UInt64) : ℕ :=
  match (List.range 64).find? fun f => i.toNat.testBit f with
  | some f => f + 1
  | none => 0

/-- `getFixedOffset(field)`, for a record of fields of the given sizes. -/
def getFixedOffset (sizes : List ℕ) (field : ℕ) : ℕ := (sizes.take field).sum

/-- The bytes of a field of a row. -/
def fieldBytes (sizes : List ℕ) (row : List UInt8) (field : ℕ) : List UInt8 :=
  (row.drop (getFixedOffset sizes field)).take (sizes.getD field 0)

/-- An `IRowHasher`: `RowHasher`, or `SimpleRowHasher` with the part of the row that it hashes. -/
inductive RowHasher where
  | general
  | simple (offset length : ℕ)

/-- `hash(row)` -/
def RowHasher.hash (step : UInt64 → UInt8 → UInt64) (sizes : List ℕ) (fields : UInt64)
    (row : List UInt8) : RowHasher → UInt64
  | general => (maskFields fields).foldl
      (fun hashval f => rtlHash64Data step (fieldBytes sizes row f) hashval) HASH64_INIT
  | simple offset length => rtlHash64Data step ((row.drop offset).take length) HASH64_INIT

/-- `createRowHasher(recInfo, fields)`; all fields have a fixed size and so a fixed offset.  The
result is `none` when a field number is out of range. -/
def createRowHasher (sizes : List ℕ) (fields : UInt64) : Option RowHasher :=
  if fields &&& (fields - 1) = 0 then
    if ffsll fields < 1 then none
    else
      (sizes[ffsll fields - 1]?).map fun size =>
        .simple (getFixedOffset sizes (ffsll fields - 1)) size
  else if fields &&& (fields + 1) = 0 then
    if ffsll (fields + 1) < 2 then none
    else (sizes[ffsll (fields + 1) - 2]?).map fun size => .simple 0 size
  else some .general

/-! ## The hash of a filter -/

/-- A filter of an index read: `SingleFieldFilter`, or one without a hash. -/
inductive IndexFilter where
  | single (value : List UInt8)
  | other

/-- `getBloomHash(fields, filters, hashval)`, for the filters by field number; `none` when one of
them cannot be hashed. -/
def getBloomHash (step : UInt64 → UInt8 → UInt64) (filters : ℕ → Option IndexFilter) :
    List ℕ → UInt64 → Option UInt64
  | [], hashval => some hashval
  | f :: fields, hashval =>
    match filters f with
    | some (.single value) => getBloomHash step filters fields (rtlHash64Data step value hashval)
    | some .other => none
    | none => getBloomHash step filters fields hashval

/-- `IndexBloomFilter::reject(filters)` -/
def reject (step : UInt64 → UInt8 → UInt64) (fields : UInt64) (filter : BloomFilter)
    (filters : ℕ → Option IndexFilter) : Bool :=
  match getBloomHash step filters (maskFields fields) HASH64_INIT with
  | some hashval => !filter.test hashval
  | none => false

end Bloom

end HpccPlatform
