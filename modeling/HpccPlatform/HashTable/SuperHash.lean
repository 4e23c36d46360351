import Mathlib.Data.Nat.Bitwise
import HpccPlatform.Library.LinearProbe

/-!
# The hash table of the platform library

`SuperHashTable` of `jlib/jsuperhash.cpp`: open addressing with linear probing in a table whose
size is a power of two (`HASHSIZE_POWER2`), which doubles when it is three quarters full, and
deletion that moves later elements back.  Elements are pointers; a subclass says how an element
gives its find parameter, how a find parameter is hashed and when two of them are the same.

The operations return `none` where the source would read outside the table or stay in a loop for
ever.  An exception is the reply `thrown`, and leaves the table it was thrown from.
-/

namespace SuperHash

/-- What a subclass provides: an equality on find parameters, and a hash function that does not
tell equal ones apart. -/
structure Hashing (E K : Type) where
  getFindParam : E → K
  getHashFromFindParam : K → Fin (2 ^ 32)
  sameParam : K → K → Bool
  same_refl : ∀ a, sameParam a a = true
  same_symm : ∀ a b, sameParam a b = true → sameParam b a = true
  same_trans : ∀ a b c, sameParam a b = true → sameParam b c = true → sameParam a c = true
  hash_eq : ∀ a b, sameParam a b = true → getHashFromFindParam a = getHashFromFindParam b

namespace Hashing

variable {E K : Type} (h : Hashing E K)

def getHashFromElement (et : E) : Fin (2 ^ 32) := h.getHashFromFindParam (h.getFindParam et)

def matchesFindParam (et : E) (fp : K) : Bool := h.sameParam (h.getFindParam et) fp

end Hashing

structure Table (E : Type) where
  cache : ℕ
  table : List (Option E)
  tablesize : ℕ
  tablecount : ℕ

/-- The next power of two of a 32-bit number, by smearing its highest bit downwards. -/
def nextPowerOf2 (v : ℕ) : ℕ :=
  let v := (v + (2 ^ 32 - 1)) % 2 ^ 32
  let v := v ||| (v >>> 1)
  let v := v ||| (v >>> 2)
  let v := v ||| (v >>> 4)
  let v := v ||| (v >>> 8)
  let v := v ||| (v >>> 16)
  (v + 1) % 2 ^ 32

variable {E K : Type}

def init (initsize : ℕ) : Table E :=
  let initsize := if initsize = 0 then 16 else initsize
  let initsize := nextPowerOf2 initsize
  { cache := 0, table := List.replicate initsize none, tablesize := initsize, tablecount := 0 }

def getTableLimit (max : ℕ) : ℕ := (max * 3) % 2 ^ 32 / 4

/-- `tablesize - 1` as the source computes it. -/
def mask (tablesize : ℕ) : ℕ := (tablesize + (2 ^ 32 - 1)) % 2 ^ 32

/-- The search loop of `doFind`, `doFindNew` and `doFindExact`: forward from `vs` to the first
slot that is empty or that `stop` accepts, or to `vs` again. -/
def probe (table : List (Option E)) (tablesize : ℕ) (stop : E → Bool) (vs : ℕ) :
    ℕ → ℕ → Option ℕ
  | 0, _ => none
  | fuel + 1, v =>
    match table[v]? with
    | none => none
    | some none => some v
    | some (some et) =>
      if stop et then some v
      else
        let v := Probe.succ tablesize v
        if v = vs then some v else probe table tablesize stop vs fuel v

def doFind (h : Hashing E K) (t : Table E) (findHash : ℕ) (findParam : K) :
    Option (ℕ × Table E) := do
  let vs := findHash &&& mask t.tablesize
  let v ← probe t.table t.tablesize (fun et => h.matchesFindParam et findParam) vs
    (t.tablesize + 1) vs
  return (v, { t with cache := v })

def doFindNew (t : Table E) (hash : ℕ) : Option (ℕ × Table E) := do
  let vs := hash &&& mask t.tablesize
  let v ← probe t.table t.tablesize (fun _ => false) vs (t.tablesize + 1) vs
  return (v, { t with cache := v })

def doFindExact [DecidableEq E] (h : Hashing E K) (t : Table E) (et : E) :
    Option (ℕ × Table E) :=
  -- the cache is the slot that was found last
  if t.cache < t.tablesize ∧ t.table[t.cache]? = some (some et) then some (t.cache, t)
  else do
    let is := (h.getHashFromElement et).val &&& mask t.tablesize
    let i ← probe t.table t.tablesize (fun cur => decide (cur = et)) is (t.tablesize + 1) is
    return (i, { t with cache := i })

/-- The loop `while (newtable[v])` of `expand`. -/
def firstFree (newtable : List (Option E)) (newsize : ℕ) : ℕ → ℕ → Option ℕ
  | 0, _ => none
  | fuel + 1, v =>
    match newtable[v]? with
    | none => none
    | some none => some v
    | some (some _) => firstFree newtable newsize fuel (Probe.succ newsize v)

/-- The loop of `expand` over the old table. -/
def rehash (h : Hashing E K) (newsize : ℕ) :
    List (Option E) → List (Option E) → Option (List (Option E))
  | [], newtable => some newtable
  | none :: old, newtable => rehash h newsize old newtable
  | some et :: old, newtable => do
    let v ← firstFree newtable newsize newsize ((h.getHashFromElement et).val &&& mask newsize)
    rehash h newsize old (newtable.set v (some et))

/-- `expand(newsize)`; the flag says that it threw. -/
def expandTo (h : Hashing E K) (t : Table E) (newsize : ℕ) : Option (Bool × Table E) :=
  if newsize < t.tablesize then some (true, t)
  else do
    let newtable ← rehash h newsize t.table (List.replicate newsize none)
    return (false, { t with table := newtable, tablesize := newsize })

def expand (h : Hashing E K) (t : Table E) : Option (Bool × Table E) :=
  expandTo h t ((t.tablesize + t.tablesize) % 2 ^ 32)

/-- The loop of `ensure`: the new size, or `none` where it throws. -/
def growTo (tablesize mincount : ℕ) : ℕ → ℕ → Option (Option ℕ)
  | 0, _ => none
  | fuel + 1, newsize =>
    let newsize := (newsize + newsize) % 2 ^ 32
    if newsize < tablesize then some none
    else if mincount ≤ getTableLimit newsize then some (some newsize)
    else growTo tablesize mincount fuel newsize

inductive Reply (E : Type) where
  | done
  | flag (b : Bool)
  | element (et : Option E)
  | thrown

/-- A 32-bit size is doubled at most 32 times before it wraps. -/
def ensure (h : Hashing E K) (t : Table E) (mincount : ℕ) : Option (Reply E × Table E) :=
  if mincount ≤ getTableLimit t.tablesize then some (.done, t)
  else do
    match ← growTo t.tablesize mincount 32 t.tablesize with
    | none => return (.thrown, t)
    | some newsize =>
      let (threw, t) ← expandTo h t newsize
      return (if threw then .thrown else .done, t)

/-- `table[v] = donor` -/
def Table.put (t : Table E) (v : ℕ) (et : Option E) : Table E :=
  { t with table := t.table.set v et }

/-- `table[v]` -/
def Table.at (t : Table E) (v : ℕ) : Option E := t.table[v]?.join

def doAdd (h : Hashing E K) (t : Table E) (donor : E) (replace : Bool) :
    Option (Reply E × Table E) := do
  let vs := (h.getHashFromElement donor).val
  let (vm, t) ← doFind h t vs (h.getFindParam donor)
  match t.at vm with
  | some _ =>
    if replace then return (.flag true, t.put vm (some donor))
    else return (.flag false, t)
  | none =>
    if getTableLimit t.tablesize ≤ t.tablecount then
      match ← expand h t with
      | (true, t) => return (.thrown, t)
      | (false, t) =>
        let (vm, t) ← doFind h t vs (h.getFindParam donor)
        return (.flag true, { t with tablecount := t.tablecount + 1 }.put vm (some donor))
    else return (.flag true, { t with tablecount := t.tablecount + 1 }.put vm (some donor))

def addNew (h : Hashing E K) (t : Table E) (donor : E) : Option (Reply E × Table E) := do
  let hash := (h.getHashFromElement donor).val
  let (threw, t) ←
    if getTableLimit t.tablesize ≤ t.tablecount then expand h t else some (false, t)
  if threw then return (.thrown, t)
  else
    let (vm, t) ← doFindNew t hash
    return (.done, { t with tablecount := t.tablecount + 1 }.put vm (some donor))

/-- The circular distance of `doDeleteElement`: `(a + hs - b) & hm`. -/
def diff (hs a b : ℕ) : ℕ := (a + hs + 2 ^ 32 - b) % 2 ^ 32 &&& mask hs

/-- The loop of `doDeleteElement`: the slots behind the hole `v` up to the next empty one. -/
def closeGap (h : Hashing E K) (hs : ℕ) :
    ℕ → List (Option E) → ℕ → ℕ → Option (List (Option E))
  | 0, _, _, _ => none
  | fuel + 1, table, v, vn =>
    let vn := Probe.succ hs vn
    match table[vn]? with
    | none => none
    | some none => some table
    | some (some et2) =>
      let vm := (h.getHashFromElement et2).val &&& mask hs
      if diff hs vn v ≤ diff hs vn vm then
        closeGap h hs fuel ((table.set v (some et2)).set vn none) vn vn
      else closeGap h hs fuel table v vn

def doDeleteElement (h : Hashing E K) (t : Table E) (v : ℕ) : Option (Table E) := do
  let table ← closeGap h t.tablesize t.tablesize (t.table.set v none) v v
  return { t with table := table, tablecount := t.tablecount - 1 }

def remove (h : Hashing E K) (t : Table E) (fp : K) : Option (Reply E × Table E) := do
  let (v, t) ← doFind h t (h.getHashFromFindParam fp).val fp
  match t.at v with
  | none => return (.flag false, t)
  | some _ => return (.flag true, ← doDeleteElement h t v)

def removeExact [DecidableEq E] (h : Hashing E K) (t : Table E) (et : E) :
    Option (Reply E × Table E) := do
  let (v, t) ← doFindExact h t et
  if t.at v = some et then return (.flag true, ← doDeleteElement h t v)
  else return (.flag false, t)

def releaseAll (t : Table E) : Table E :=
  if t.tablecount = 0 then t
  else { t with table := t.table.map (fun _ => none), tablecount := 0, cache := 0 }

def find (h : Hashing E K) (t : Table E) (fp : K) : Option (Reply E × Table E) := do
  let (v, t) ← doFind h t (h.getHashFromFindParam fp).val fp
  return (.element (t.at v), t)

def findExact [DecidableEq E] (h : Hashing E K) (t : Table E) (et : E) :
    Option (Reply E × Table E) := do
  let (v, t) ← doFindExact h t et
  return (.element (t.at v), t)

def count (t : Table E) : ℕ := t.tablecount

/-- The loop `while (i < tablesize && !table[i])`; the fuel is the number of slots left. -/
def validIdxFrom (t : Table E) : ℕ → ℕ → ℕ
  | 0, i => i
  | fuel + 1, i => if (t.at i).isNone then validIdxFrom t fuel (i + 1) else i

def validIdx (t : Table E) (i : ℕ) : ℕ := validIdxFrom t (t.tablesize - i) i

def firstIdx (t : Table E) : ℕ := if t.tablecount = 0 then t.tablesize else validIdx t 0

/-- The elements from slot `idx` to the end, as the range loop over `begin()` and `end()` visits
them. -/
def slotsFrom (t : Table E) : ℕ → ℕ → Option (List E)
  | 0, _ => none
  | fuel + 1, idx =>
    if idx = t.tablesize then some []
    else do
      let et ← t.at idx
      return et :: (← slotsFrom t fuel (validIdx t (idx + 1)))

def iterateSlots (t : Table E) : Option (List E) := slotsFrom t (t.tablesize + 1) (firstIdx t)

/-- `next`; the assertion that the start item is in the table fails with `none`. -/
def next [DecidableEq E] (h : Hashing E K) (t : Table E) (et : Option E) :
    Option (Option E × Table E) := do
  match et with
  | none =>
    if t.tablecount = 0 then return (none, t)
    else
      let i := validIdx t 0
      if t.tablesize ≤ i then return (none, t)
      else return (t.at i, { t with cache := i })
  | some et =>
    let (i, t) ← doFindExact h t et
    if t.at i = some et then
      let i := validIdx t (i + 1)
      if t.tablesize ≤ i then return (none, t)
      else return (t.at i, { t with cache := i })
    else none

/-- The elements that a `SuperHashIterator` yields after the element `cur`. -/
def iterateFrom [DecidableEq E] (h : Hashing E K) : ℕ → Table E → Option E → Option (List E)
  | 0, _, _ => none
  | fuel + 1, t, cur => do
    match ← next h t cur with
    | (none, _) => return []
    | (some et, t) => return et :: (← iterateFrom h fuel t (some et))

def iterate [DecidableEq E] (h : Hashing E K) (t : Table E) : Option (List E) :=
  iterateFrom h (t.tablesize + 1) t none

inductive Operation (E K : Type) where
  | doAdd (donor : E) (replace : Bool)
  | addNew (donor : E)
  | remove (fp : K)
  | removeExact (et : E)
  | ensure (mincount : ℕ)
  | releaseAll
  | find (fp : K)
  | findExact (et : E)

def step [DecidableEq E] (h : Hashing E K) (t : Table E) :
    Operation E K → Option (Reply E × Table E)
  | .doAdd donor replace => doAdd h t donor replace
  | .addNew donor => addNew h t donor
  | .remove fp => remove h t fp
  | .removeExact et => removeExact h t et
  | .ensure mincount => ensure h t mincount
  | .releaseAll => some (.done, releaseAll t)
  | .find fp => find h t fp
  | .findExact et => findExact h t et

end SuperHash
