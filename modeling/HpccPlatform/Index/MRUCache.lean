import HpccPlatform.HashTable.FiniteMap
import HpccPlatform.Queue.DList

/-!
# The most recently used cache

`CMRUCacheOf` and `CMRUCacheMaxCountOf` of `system/jhtree/jhutil.hpp`: a hash table of mappings, and a
list of the same mappings with the one that was added or queried last at the head.  They are updated
by separate calls, and stay in step in every run.  A limit on the number of mappings clears the right
ones only when nothing has to go, or everything: the number to clear is computed as `limit - count`,
and is negative.
-/

namespace HpccPlatform

namespace MRUCache

open DoublyLinked LinkedListOf SuperHash

/-- A cached entry and its key.  `id` is the identity of the object: the number of mappings that were
constructed before it. -/
structure Mapping (KEY ENTRY : Type) where
  id : ℕ
  key : KEY
  entry : ENTRY
  deriving DecidableEq

/-- `TABLE`: a `SuperHashTable` of mappings, which it finds by their keys. -/
structure TableType (KEY ENTRY : Type) extends Hashing (Mapping KEY ENTRY) KEY where
  findParam_eq : ∀ mapping, getFindParam mapping = mapping.key

/-- The fields of `CMRUCacheMaxCountOf`. -/
structure MaxCount where
  cacheMax : BitVec 32
  /-- the number to clear if full -/
  cacheOverflow : BitVec 32

/-- A cache; `maxCount` is `none` for a plain `CMRUCacheOf`. -/
structure Cache (KEY ENTRY : Type) where
  table : Table (Mapping KEY ENTRY)
  mruList : LinkedListOf (Mapping KEY ENTRY)
  constructed : ℕ
  maxCount : Option MaxCount

/-! ## The operations -/

section Operations

variable {KEY ENTRY : Type}

/-- `CMRUCacheOf()`, or `CMRUCacheMaxCountOf(cacheMax)`. -/
def create (cacheMax : Option (BitVec 32)) : Cache KEY ENTRY where
  table := SuperHash.init 0
  mruList := LinkedListOf.empty
  constructed := 0
  maxCount := cacheMax.map fun cacheMax => ⟨cacheMax, 1⟩

/-- `full` of the two classes. -/
def full (c : Cache KEY ENTRY) : Bool :=
  match c.maxCount with
  | none => false
  | some m =>
    m.cacheMax != -1 && decide ((m.cacheMax + m.cacheOverflow).toNat < SuperHash.count c.table)

variable [DecidableEq KEY] [DecidableEq ENTRY] (type : TableType KEY ENTRY)

/-- The loop of `clear`; the fuel is more than the length of the list. -/
def clearLoop : ℕ → Cache KEY ENTRY → BitVec 32 → Option (Cache KEY ENTRY)
  | 0, _, _ => none
  | fuel + 1, c, count =>
    match DListOf.dequeueTail c.mruList with
    | none => some c
    | some (tail, mruList) =>
      match removeExact type.toHashing c.table tail with
      | none => none
      | some (_, table) =>
        let c := { c with table := table, mruList := mruList }
        -- `if ((-1 != count) && (0 == --count)) break;`
        if count = -1 then clearLoop fuel c count
        else if count - 1 = 0 then some c
        else clearLoop fuel c (count - 1)

/-- `clear(int count)` -/
def clear (c : Cache KEY ENTRY) (count : BitVec 32) : Option (Cache KEY ENTRY) :=
  clearLoop type (c.mruList.numEntries + 1) c count

def kill (c : Cache KEY ENTRY) : Option (Cache KEY ENTRY) := clear type c (-1)

/-- `makeSpace` of the two classes. -/
def makeSpace (c : Cache KEY ENTRY) : Option (Cache KEY ENTRY) :=
  match c.maxCount with
  | none => some c
  | some m => clear type c m.cacheOverflow

/-- `if (full()) makeSpace();` -/
def spaceIfFull (c : Cache KEY ENTRY) : Option (Cache KEY ENTRY) :=
  if full c then makeSpace type c else some c

/-- `replace`; an exception of the table leaves it before the list is changed. -/
def replace (c : Cache KEY ENTRY) (key : KEY) (entry : ENTRY) : Option (Cache KEY ENTRY) := do
  let c ← spaceIfFull type c
  let mapping := ⟨c.constructed, key, entry⟩
  let c := { c with constructed := c.constructed + 1 }
  match ← doAdd type.toHashing c.table mapping true with
  | (.thrown, table) => return { c with table := table }
  | (_, table) =>
    let mruList ← DListOf.enqueueHead c.mruList mapping
    return { c with table := table, mruList := mruList }

def promote (c : Cache KEY ENTRY) (mapping : Mapping KEY ENTRY) : Option (Cache KEY ENTRY) :=
  if c.mruList.head ≠ some mapping then do
    let mruList ← DListOf.dequeue c.mruList mapping
    let mruList ← DListOf.enqueueHead mruList mapping
    return { c with mruList := mruList }
  else some c

def query (c : Cache KEY ENTRY) (key : KEY) (doPromote : Bool) :
    Option (Option ENTRY × Cache KEY ENTRY) := do
  match ← SuperHash.find type.toHashing c.table key with
  | (.element (some mapping), table) =>
    let c := { c with table := table }
    (if doPromote then promote c mapping else some c).map fun c => (some mapping.entry, c)
  | (_, table) => return (none, { c with table := table })

/-- `get`: the entry of `query`, with one more link. -/
def get (c : Cache KEY ENTRY) (key : KEY) (doPromote : Bool) :
    Option (Option ENTRY × Cache KEY ENTRY) :=
  query type c key doPromote

/-- `remove(MAPPING *)` -/
def removeMapping (c : Cache KEY ENTRY) (mapping : Mapping KEY ENTRY) :
    Option (Bool × Cache KEY ENTRY) := do
  match ← removeExact type.toHashing c.table mapping with
  | (.flag true, table) =>
    let mruList ← DListOf.dequeue c.mruList mapping
    return (true, { c with table := table, mruList := mruList })
  | (_, table) => return (false, { c with table := table })

/-- `remove(KEY)` -/
def remove (c : Cache KEY ENTRY) (key : KEY) : Option (Bool × Cache KEY ENTRY) := do
  match ← SuperHash.find type.toHashing c.table key with
  | (.element (some mapping), table) =>
    let (_, table) ← removeExact type.toHashing table mapping
    let mruList ← DListOf.dequeue c.mruList mapping
    return (true, { c with table := table, mruList := mruList })
  | (_, table) => return (false, { c with table := table })

/-- `setCacheLimit`, of a `CMRUCacheMaxCountOf` only. -/
def setCacheLimit (c : Cache KEY ENTRY) (cacheMax : BitVec 32) :
    Option (BitVec 32 × Cache KEY ENTRY) := do
  let m ← c.maxCount
  let count := SuperHash.count c.table
  (if cacheMax.toNat < count then clear type c (cacheMax - BitVec.ofNat 32 count) else some c).map
    fun c => (m.cacheMax, { c with maxCount := some { m with cacheMax := cacheMax } })

inductive Operation (KEY ENTRY : Type) where
  | replace (key : KEY) (entry : ENTRY)
  | query (key : KEY) (doPromote : Bool)
  | get (key : KEY) (doPromote : Bool)
  | removeMapping (mapping : Mapping KEY ENTRY)
  | remove (key : KEY)
  | kill
  | setCacheLimit (cacheMax : BitVec 32)

def step (c : Cache KEY ENTRY) : Operation KEY ENTRY → Option (Cache KEY ENTRY)
  | .replace key entry => replace type c key entry
  | .query key doPromote => (query type c key doPromote).map Prod.snd
  | .get key doPromote => (get type c key doPromote).map Prod.snd
  | .removeMapping mapping => (removeMapping type c mapping).map Prod.snd
  | .remove key => (remove type c key).map Prod.snd
  | .kill => kill type c
  | .setCacheLimit cacheMax => (setCacheLimit type c cacheMax).map Prod.snd

end Operations

/-! ## What the table does -/

section Tables

variable {KEY ENTRY : Type} {type : TableType KEY ENTRY}
  {table : Table (Mapping KEY ENTRY)} {xs : List (Mapping KEY ENTRY)} {x y : Mapping KEY ENTRY}

/-- The mappings of the table are `xs`. -/
structure Holds (type : TableType KEY ENTRY) (table : Table (Mapping KEY ENTRY))
    (xs : List (Mapping KEY ENTRY)) : Prop where
  good : Good type.toHashing table
  nodup : xs.Nodup
  mem_iff : ∀ x, x ∈ xs ↔ x ∈ contents table.table

theorem Holds.distinct (h : Holds type table xs) (hx : x ∈ xs) (hy : y ∈ xs)
    (hsame : type.sameParam x.key y.key = true) : x = y := by
  by_contra hne
  have hsymm : Std.Symm (Differ type.toHashing) := ⟨fun _ _ hd => Differ.symm hd⟩
  have hdiffer := h.good.sound.distinct.forall ((h.mem_iff x).mp hx) ((h.mem_iff y).mp hy) hne
  rw [Differ, type.findParam_eq, type.findParam_eq, hsame] at hdiffer
  exact absurd hdiffer (by decide)

/-- The map of the table. -/
theorem Holds.exists_map (h : Holds type table xs) :
    ∃ m, Represents type.toHashing (contents table.table) m ∧
      ∀ k x, m k = some x ↔ x ∈ xs ∧ type.sameParam x.key k = true := by
  have hfind : ∀ k x, (xs.find? fun y => type.sameParam y.key k) = some x ↔
      x ∈ xs ∧ type.sameParam x.key k = true := by
    intro k x
    constructor
    · intro hfound
      have hp := List.find?_some hfound
      exact ⟨List.mem_of_find?_eq_some hfound, hp⟩
    · rintro ⟨hmem, hsame⟩
      have hsome : (xs.find? fun y => type.sameParam y.key k).isSome :=
        List.find?_isSome.mpr ⟨x, hmem, hsame⟩
      obtain ⟨y, hy⟩ := Option.isSome_iff_exists.mp hsome
      have hyk : type.sameParam y.key k = true := by
        have hp := List.find?_some hy
        exact hp
      rw [hy, h.distinct (List.mem_of_find?_eq_some hy) hmem
        (type.same_trans _ _ _ hyk (type.same_symm _ _ hsame))]
  refine ⟨fun k => xs.find? fun y => type.sameParam y.key k, ?_, hfind⟩
  intro k x
  rw [hfind, h.mem_iff, type.findParam_eq]

theorem Holds.count_eq (h : Holds type table xs) : SuperHash.count table = xs.length := by
  have hnodup : (contents table.table).Nodup := by
    refine h.good.sound.distinct.imp ?_
    intro e f hdiffer heq
    rw [Differ, heq, type.same_refl] at hdiffer
    exact absurd hdiffer (by decide)
  have hperm : (contents table.table).Perm xs :=
    (List.perm_ext_iff_of_nodup hnodup h.nodup).mpr fun x => (h.mem_iff x).symm
  rw [SuperHash.count, h.good.counted, hperm.length_eq]

theorem Holds.length_lt (h : Holds type table xs) : xs.length < 2 ^ 31 := by
  obtain ⟨k, hk, hsize⟩ := h.good.size
  have hroom := h.good.room
  rw [hsize] at hroom
  rw [← h.count_eq]
  exact hroom.trans_le (Nat.pow_le_pow_right (by decide) hk)

theorem holds_init : Holds type (SuperHash.init 0) [] := by
  have hgood : Good type.toHashing (SuperHash.init (0 : Fin (2 ^ 32)).val) :=
    good_init (k := 4) (by decide) rfl
  refine ⟨hgood, List.nodup_nil, ?_⟩
  intro x
  have hempty : contents (SuperHash.init 0 : Table (Mapping KEY ENTRY)).table = [] :=
    contents_replicate _
  rw [hempty]

variable [DecidableEq KEY] [DecidableEq ENTRY]

/-- A search finds the mapping of the key, and leaves the mappings as they are. -/
theorem Holds.find (h : Holds type table xs) (key : KEY) :
    ∃ found table', SuperHash.find type.toHashing table key = some (.element found, table') ∧
      Holds type table' xs ∧
      ∀ x, found = some x ↔ x ∈ xs ∧ type.sameParam x.key key = true := by
  obtain ⟨m, hrep, hm⟩ := h.exists_map
  obtain ⟨reply, table', hfind, hanswer⟩ := find_spec h.good hrep key
  obtain ⟨hreply, hrep'⟩ | ⟨-, hlarge, -⟩ := hanswer.outcome
  · refine ⟨m key, table', by rw [hfind, hreply]; rfl, ⟨hanswer.good, h.nodup, ?_⟩, hm key⟩
    intro x
    rw [h.mem_iff, hrep.mem_iff, hrep'.mem_iff]
    rfl
  · exact hlarge.elim

theorem Holds.removeExact (h : Holds type table xs) (x : Mapping KEY ENTRY) :
    ∃ table', SuperHash.removeExact type.toHashing table x = some (.flag (decide (x ∈ xs)), table') ∧
      Holds type table' (xs.filter fun y => y ≠ x) := by
  obtain ⟨m, hrep, hm⟩ := h.exists_map
  obtain ⟨reply, table', hremove, hanswer⟩ := removeExact_spec h.good hrep x
  obtain ⟨hreply, hrep'⟩ | ⟨-, hlarge, -⟩ := hanswer.outcome
  · have hmem : m (type.getFindParam x) = some x ↔ x ∈ xs := by
      rw [← hrep.mem_iff, h.mem_iff]
    by_cases hx : x ∈ xs
    · simp only [expected, if_pos (hmem.mpr hx)] at hreply hrep'
      refine ⟨table', by rw [hremove, hreply, decide_eq_true hx], hanswer.good,
        h.nodup.filter _, ?_⟩
      intro y
      rw [List.mem_filter, decide_eq_true_iff, hrep'.mem_iff, eraseKey, type.findParam_eq,
        type.findParam_eq]
      by_cases hsame : type.sameParam x.key y.key = true
      · rw [if_pos hsame]
        constructor
        · rintro ⟨hy, hne⟩
          exact absurd (h.distinct hx hy hsame).symm hne
        · intro hnone
          exact absurd hnone (Option.some_ne_none y).symm
      · rw [if_neg hsame, hm]
        constructor
        · rintro ⟨hy, -⟩
          exact ⟨hy, type.same_refl _⟩
        · rintro ⟨hy, -⟩
          refine ⟨hy, ?_⟩
          intro heq
          rw [heq, type.same_refl] at hsame
          exact hsame rfl
    · simp only [expected, if_neg (fun hx' => hx (hmem.mp hx'))] at hreply hrep'
      refine ⟨table', by rw [hremove, hreply, decide_eq_false hx], hanswer.good,
        h.nodup.filter _, ?_⟩
      intro y
      rw [List.mem_filter, decide_eq_true_iff, hrep'.mem_iff, ← hrep.mem_iff, ← h.mem_iff]
      constructor
      · exact fun hy => hy.1
      · intro hy
        exact ⟨hy, fun heq => hx (heq ▸ hy)⟩
  · exact hlarge.elim

/-- A mapping with a new key is added, unless the table has no room for it. -/
theorem Holds.doAdd (h : Holds type table xs)
    (hnew : ∀ y ∈ xs, type.sameParam y.key x.key ≠ true) :
    ∃ reply table', SuperHash.doAdd type.toHashing table x true = some (reply, table') ∧
      (reply = .flag true ∧ Holds type table' (x :: xs) ∨
        reply = .thrown ∧ Holds type table' xs) := by
  obtain ⟨m, hrep, hm⟩ := h.exists_map
  obtain ⟨reply, table', hadd, hanswer⟩ := doAdd_spec h.good hrep x true
  refine ⟨reply, table', hadd, ?_⟩
  have hx : x ∉ xs := fun hmem => hnew x hmem (type.same_refl _)
  obtain ⟨hreply, hrep'⟩ | ⟨hreply, -, hrep'⟩ := hanswer.outcome
  · simp only [expected, Bool.not_true, Bool.and_false, Bool.false_eq_true, if_false] at hreply hrep'
    refine Or.inl ⟨hreply, hanswer.good, List.nodup_cons.mpr ⟨hx, h.nodup⟩, ?_⟩
    intro y
    rw [List.mem_cons, hrep'.mem_iff, putKey, type.findParam_eq, type.findParam_eq]
    by_cases hsame : type.sameParam x.key y.key = true
    · rw [if_pos hsame]
      constructor
      · rintro (rfl | hy)
        · rfl
        · exact absurd (type.same_symm _ _ hsame) (hnew y hy)
      · intro heq
        exact Or.inl (Option.some.inj heq).symm
    · rw [if_neg hsame, hm]
      constructor
      · rintro (rfl | hy)
        · exact absurd (type.same_refl _) hsame
        · exact ⟨hy, type.same_refl _⟩
      · exact fun hy => Or.inr hy.1
  · refine Or.inr ⟨hreply, hanswer.good, h.nodup, ?_⟩
    intro y
    rw [h.mem_iff, hrep.mem_iff, hrep'.mem_iff]

end Tables

/-! ## The cache with its list -/

section Caches

variable {KEY ENTRY : Type} {type : TableType KEY ENTRY} {c : Cache KEY ENTRY}
  {xs : List (Mapping KEY ENTRY)}

/-- The cache has the mappings `xs`, the most recently used first. -/
structure Held (type : TableType KEY ENTRY) (c : Cache KEY ENTRY) (xs : List (Mapping KEY ENTRY)) :
    Prop where
  table : Holds type c.table xs
  list : c.mruList.Represents xs

theorem Held.numEntries_eq (h : Held type c xs) : c.mruList.numEntries = xs.length :=
  h.list.numEntries

/-- How many of `n` mappings stay when `count` is cleared. -/
def kept (count : BitVec 32) (n : ℕ) : ℕ :=
  if count = 0 ∨ count = -1 then 0 else n - count.toNat

theorem kept_le (count : BitVec 32) (n : ℕ) : kept count n ≤ n := by
  unfold kept
  split
  · exact Nat.zero_le n
  · exact Nat.sub_le n _

theorem kept_all (n : ℕ) : kept (-1) n = 0 := if_pos (Or.inr rfl)

theorem kept_one {count : BitVec 32} (h : count - 1 = 0) (n : ℕ) : kept count (n + 1) = n := by
  have hone : count = 1 := by bv_omega
  rw [hone]
  rfl

/-- The count goes down by one, from zero to -1. -/
theorem kept_succ {count : BitVec 32} (hall : count ≠ -1) (hmore : count - 1 ≠ 0) (n : ℕ) :
    kept count (n + 1) = kept (count - 1) n := by
  by_cases hzero : count = 0
  · rw [hzero]
    exact (if_pos (Or.inl rfl)).trans (kept_all n).symm
  · have hpred : count - 1 ≠ -1 := by bv_omega
    have htoNat : (count - 1).toNat + 1 = count.toNat := by bv_omega
    rw [kept, kept, if_neg (not_or.mpr ⟨hzero, hall⟩), if_neg (not_or.mpr ⟨hmore, hpred⟩), ← htoNat,
      Nat.add_sub_add_right]

/-- The mappings that `makeSpace` leaves. -/
def spaced (c : Cache KEY ENTRY) (xs : List (Mapping KEY ENTRY)) : List (Mapping KEY ENTRY) :=
  match c.maxCount with
  | none => xs
  | some _ => xs.dropLast

theorem spaced_isPrefix (c : Cache KEY ENTRY) (xs : List (Mapping KEY ENTRY)) : spaced c xs <+: xs := by
  unfold spaced
  split
  · exact List.prefix_refl xs
  · exact List.dropLast_prefix xs

variable [DecidableEq KEY] [DecidableEq ENTRY]

/-! ### Clearing -/

theorem clearLoop_spec (h : Held type c xs) {fuel : ℕ} (hfuel : xs.length < fuel)
    (count : BitVec 32) :
    ∃ c', clearLoop type fuel c count = some c' ∧ Held type c' (xs.take (kept count xs.length)) ∧
      c'.constructed = c.constructed ∧ c'.maxCount = c.maxCount := by
  induction xs using List.reverseRecOn generalizing c count fuel with
  | nil =>
    obtain ⟨fuel, rfl⟩ := Nat.exists_eq_succ_of_ne_zero hfuel.ne'
    refine ⟨c, ?_, ?_, rfl, rfl⟩
    · rw [clearLoop, DListOf.dequeueTail_empty h.list]
    · rw [List.take_nil]
      exact h
  | append_singleton xs x ih =>
    rw [List.length_append, List.length_singleton] at hfuel ⊢
    obtain ⟨fuel, rfl⟩ := Nat.exists_eq_succ_of_ne_zero (Nat.ne_of_gt (Nat.zero_lt_of_lt hfuel))
    obtain ⟨mruList, hdequeue, hlist⟩ := DListOf.dequeueTail_spec h.list
    obtain ⟨table, hremove, htable⟩ := h.table.removeExact x
    have hnotin : x ∉ xs := by
      have hdup := List.nodup_append.mp h.table.nodup
      intro hx
      exact hdup.2.2 x hx x (List.mem_singleton_self x) rfl
    have hrest : (xs ++ [x]).filter (fun y => y ≠ x) = xs := by
      rw [List.filter_append, List.filter_singleton, decide_eq_false (not_not.mpr rfl),
        List.filter_eq_self.mpr]
      · exact List.append_nil xs
      · intro y hy
        exact decide_eq_true fun heq => hnotin (heq ▸ hy)
    rw [hrest] at htable
    have hheld : Held type { c with table := table, mruList := mruList } xs := ⟨htable, hlist⟩
    have htake : ∀ n ≤ xs.length, (xs ++ [x]).take n = xs.take n :=
      fun n hn => List.take_append_of_le_length hn
    simp only [clearLoop, hdequeue, hremove]
    by_cases hall : count = -1
    · rw [if_pos hall]
      obtain ⟨c', hrun, hc', hframe⟩ := ih hheld (Nat.lt_of_succ_lt_succ hfuel) count
      refine ⟨c', hrun, ?_, hframe⟩
      rw [hall, kept_all, htake 0 (Nat.zero_le _)]
      rw [hall, kept_all] at hc'
      exact hc'
    · rw [if_neg hall]
      by_cases hone : count - 1 = 0
      · rw [if_pos hone]
        refine ⟨_, rfl, ?_, rfl, rfl⟩
        rw [kept_one hone, htake _ le_rfl, List.take_length]
        exact hheld
      · rw [if_neg hone]
        obtain ⟨c', hrun, hc', hframe⟩ := ih hheld (Nat.lt_of_succ_lt_succ hfuel) (count - 1)
        refine ⟨c', hrun, ?_, hframe⟩
        rw [kept_succ hall hone, htake _ (kept_le _ _)]
        exact hc'

theorem clear_spec (h : Held type c xs) (count : BitVec 32) :
    ∃ c', clear type c count = some c' ∧ Held type c' (xs.take (kept count xs.length)) ∧
      c'.constructed = c.constructed ∧ c'.maxCount = c.maxCount := by
  refine clearLoop_spec h ?_ count
  rw [h.numEntries_eq]
  exact Nat.lt_succ_self _

/-- With `limit - count` as the number to clear everything goes. -/
theorem kept_limit {cacheMax : BitVec 32} {n : ℕ} (hn : n < 2 ^ 31) (hlt : cacheMax.toNat < n) :
    kept (cacheMax - BitVec.ofNat 32 n) n = 0 := by
  unfold kept
  split
  · rfl
  · rw [Nat.sub_eq_zero_iff_le, BitVec.toNat_sub, BitVec.toNat_ofNat, Nat.mod_eq_of_lt (by omega),
      Nat.mod_eq_of_lt (by omega)]
    omega

end Caches

end MRUCache

end HpccPlatform
