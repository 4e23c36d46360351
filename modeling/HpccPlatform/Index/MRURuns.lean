import HpccPlatform.Index.MRUCache

/-!
# Runs of the most recently used cache

Any sequence of operations on a new cache.  The table and the list have the same mappings, in the
order in which they were added or promoted, and each operation returns.  A limit leaves the mappings
that were used last exactly when it is zero or not below their number.
-/

namespace HpccPlatform

namespace MRUCache

open DoublyLinked LinkedListOf SuperHash

section Runs

variable {KEY ENTRY : Type} {type : TableType KEY ENTRY} {c : Cache KEY ENTRY}
  {xs log : List (Mapping KEY ENTRY)} {x : Mapping KEY ENTRY}

/-! ## The log of the uses -/

/-- `log` has the uses of the mappings `xs`, the last one first, and `xs` are in the order of their
last uses. -/
structure Recent [DecidableEq KEY] [DecidableEq ENTRY] (log xs : List (Mapping KEY ENTRY)) :
    Prop where
  used : ∀ x ∈ xs, x ∈ log
  order : xs.Pairwise fun x y => log.idxOf x < log.idxOf y

variable [DecidableEq KEY] [DecidableEq ENTRY]

theorem Recent.sublist {ys : List (Mapping KEY ENTRY)} (h : Recent log xs) (hys : ys.Sublist xs) :
    Recent log ys :=
  ⟨fun x hx => h.used x (hys.subset hx), h.order.sublist hys⟩

/-- A mapping that is used now comes to the head. -/
theorem Recent.cons (h : Recent log xs) (hx : x ∉ xs) : Recent (x :: log) (x :: xs) := by
  have hne : ∀ y ∈ xs, x ≠ y := fun y hy heq => hx (heq ▸ hy)
  refine ⟨?_, List.pairwise_cons.mpr ⟨?_, ?_⟩⟩
  · intro y hy
    rcases List.mem_cons.mp hy with rfl | hy
    · exact List.mem_cons_self
    · exact List.mem_cons_of_mem x (h.used y hy)
  · intro y hy
    rw [List.idxOf_cons_self, List.idxOf_cons_ne log (hne y hy)]
    exact Nat.succ_pos _
  · refine h.order.imp_of_mem ?_
    intro y z hy hz hlt
    rw [List.idxOf_cons_ne log (hne y hy), List.idxOf_cons_ne log (hne z hz)]
    exact Nat.succ_lt_succ hlt

theorem Recent.promote (h : Recent log xs) :
    Recent (x :: log) (x :: xs.filter fun y => y ≠ x) := by
  refine (h.sublist List.filter_sublist).cons ?_
  intro hx
  exact of_decide_eq_true (List.mem_filter.mp hx).2 rfl

/-! ## Runs -/

/-- The mapping that a query of the key finds. -/
def found (type : TableType KEY ENTRY) (c : Cache KEY ENTRY) (key : KEY) :
    Option (Mapping KEY ENTRY) :=
  match SuperHash.find type.toHashing c.table key with
  | some (.element mapping, _) => mapping
  | _ => none

/-- The mapping that an operation constructs, or finds and promotes. -/
def used (type : TableType KEY ENTRY) (c : Cache KEY ENTRY) :
    Operation KEY ENTRY → Option (Mapping KEY ENTRY)
  | .replace key entry => some ⟨c.constructed, key, entry⟩
  | .query key true => found type c key
  | .get key true => found type c key
  | _ => none

/-- A key that is replaced is not in the cache, and only a `CMRUCacheMaxCountOf` has a limit. -/
def Permitted (type : TableType KEY ENTRY) (c : Cache KEY ENTRY) : Operation KEY ENTRY → Prop
  | .replace key _ => found type c key = none
  | .setCacheLimit _ => c.maxCount.isSome = true
  | _ => True

/-- One operation of a run. -/
structure Event (KEY ENTRY : Type) where
  before : Cache KEY ENTRY
  op : Operation KEY ENTRY
  after : Cache KEY ENTRY

/-- A run from a new cache, the last operation first. -/
inductive Run (type : TableType KEY ENTRY) (cacheMax : Option (BitVec 32)) :
    List (Event KEY ENTRY) → Cache KEY ENTRY → Prop where
  | start : Run type cacheMax [] (create cacheMax)
  | step {events : List (Event KEY ENTRY)} {c c' : Cache KEY ENTRY} (op : Operation KEY ENTRY)
      (hrun : Run type cacheMax events c) (hop : Permitted type c op)
      (hstep : MRUCache.step type c op = some c') :
      Run type cacheMax (⟨c, op, c'⟩ :: events) c'

/-- The mappings that were added or promoted, the last one first. -/
def uses (type : TableType KEY ENTRY) (events : List (Event KEY ENTRY)) :
    List (Mapping KEY ENTRY) :=
  events.flatMap fun e => (used type e.before e.op).toList

/-- The list has the mappings of the table, each once, in the order of their last uses. -/
structure InStep (log : List (Mapping KEY ENTRY)) (c : Cache KEY ENTRY) : Prop where
  linked : c.mruList.Represents c.mruList.members
  mem_iff : ∀ x, x ∈ c.mruList.members ↔ x ∈ contents c.table.table
  recent : Recent log c.mruList.members

/-- A limit `n` below the number of mappings leaves the `n` that were used last. -/
def LimitLeavesRecent (e : Event KEY ENTRY) : Prop :=
  ∀ n, e.op = .setCacheLimit n → n.toNat < SuperHash.count e.before.table →
    e.after.mruList.members = e.before.mruList.members.take n.toNat

/-- A limit is not below the number of mappings, or is zero. -/
def LimitFits (e : Event KEY ENTRY) : Prop :=
  ∀ n, e.op = .setCacheLimit n → SuperHash.count e.before.table ≤ n.toNat ∨ n = 0

/-- What a cache promises after a run. -/
structure Keeps (type : TableType KEY ENTRY) (events : List (Event KEY ENTRY))
    (c : Cache KEY ENTRY) : Prop where
  inStep : InStep (uses type events) c
  /-- the least recently used mappings are removed, and only these -/
  makeSpace : ∃ c', makeSpace type c = some c' ∧ InStep (uses type events) c' ∧
    c'.mruList.members <+: c.mruList.members
  limit : ∀ e ∈ events, LimitLeavesRecent e
  returns : ∀ op, Permitted type c op → (step type c op).isSome = true

/-- The invariant of a run. -/
structure Invariant (type : TableType KEY ENTRY) (log : List (Mapping KEY ENTRY))
    (c : Cache KEY ENTRY) (xs : List (Mapping KEY ENTRY)) : Prop where
  held : Held type c xs
  recent : Recent log xs
  older : ∀ x ∈ xs, x.id < c.constructed
  overflow : ∀ m ∈ c.maxCount, m.cacheOverflow = 1

theorem Invariant.inStep (h : Invariant type log c xs) : InStep log c := by
  have hmembers := h.held.list.members_eq
  refine ⟨?_, ?_, ?_⟩
  · rw [hmembers]
    exact h.held.list
  · rw [hmembers]
    exact h.held.table.mem_iff
  · rw [hmembers]
    exact h.recent

theorem invariant_create (cacheMax : Option (BitVec 32)) :
    Invariant type [] (create cacheMax) [] where
  held := ⟨holds_init, represents_empty⟩
  recent := ⟨fun _ hx => absurd hx List.not_mem_nil, List.Pairwise.nil⟩
  older _ hx := absurd hx List.not_mem_nil
  overflow m hm := by
    obtain ⟨n, -, rfl⟩ := Option.map_eq_some_iff.mp hm
    rfl

/-- The invariant after an operation that keeps a part of the mappings. -/
theorem Invariant.shrink {c' : Cache KEY ENTRY} {ys : List (Mapping KEY ENTRY)}
    (h : Invariant type log c xs) (hc' : Held type c' ys) (hys : ys.Sublist xs)
    (hconstructed : c'.constructed = c.constructed)
    (hoverflow : ∀ m ∈ c'.maxCount, m.cacheOverflow = 1) : Invariant type log c' ys where
  held := hc'
  recent := h.recent.sublist hys
  older x hx := by
    rw [hconstructed]
    exact h.older x (hys.subset hx)
  overflow := hoverflow

theorem Invariant.clear (h : Invariant type log c xs) (count : BitVec 32) :
    ∃ c', MRUCache.clear type c count = some c' ∧
      Invariant type log c' (xs.take (kept count xs.length)) ∧
      c'.constructed = c.constructed ∧ c'.maxCount = c.maxCount := by
  obtain ⟨c', hrun, hc', hconstructed, hmax⟩ := clear_spec h.held count
  refine ⟨c', hrun, ?_, hconstructed, hmax⟩
  refine h.shrink hc' (List.take_sublist _ _) hconstructed ?_
  rw [hmax]
  exact h.overflow

/-- One mapping is removed, the one that was used least recently. -/
theorem Invariant.makeSpace (h : Invariant type log c xs) :
    ∃ c', MRUCache.makeSpace type c = some c' ∧ Invariant type log c' (spaced c xs) ∧
      c'.constructed = c.constructed := by
  unfold MRUCache.makeSpace spaced
  cases hmax : c.maxCount with
  | none => exact ⟨c, rfl, h, rfl⟩
  | some m =>
    obtain ⟨c', hrun, hc', hconstructed, -⟩ := h.clear m.cacheOverflow
    refine ⟨c', hrun, ?_, hconstructed⟩
    have hkept : kept m.cacheOverflow xs.length = xs.length - 1 := by
      rw [h.overflow m hmax]
      rfl
    rw [hkept, ← List.dropLast_eq_take] at hc'
    exact hc'

theorem found_eq (h : Held type c xs) (key : KEY) :
    ∃ table, SuperHash.find type.toHashing c.table key =
        some (.element (found type c key), table) ∧ Holds type table xs ∧
      ∀ x, found type c key = some x ↔ x ∈ xs ∧ type.sameParam x.key key = true := by
  obtain ⟨mapping, table, hfind, htable, hmapping⟩ := h.table.find key
  have hfound : found type c key = mapping := by
    rw [found, hfind]
  rw [hfound]
  exact ⟨table, hfind, htable, hmapping⟩

theorem found_eq_none (h : Held type c xs) {key : KEY} (hkey : found type c key = none) :
    ∀ x ∈ xs, type.sameParam x.key key ≠ true := by
  intro x hx hsame
  obtain ⟨-, -, -, hmapping⟩ := found_eq h key
  rw [(hmapping x).mpr ⟨hx, hsame⟩] at hkey
  exact Option.some_ne_none x hkey

/-- The rest of `replace`, behind `makeSpace`. -/
theorem Invariant.enter (h : Invariant type log c xs) {key : KEY} (entry : ENTRY)
    (hkey : ∀ x ∈ xs, type.sameParam x.key key ≠ true) :
    let mapping : Mapping KEY ENTRY := ⟨c.constructed, key, entry⟩
    ∃ reply table, SuperHash.doAdd type.toHashing c.table mapping true = some (reply, table) ∧
      ((reply = .flag true ∧ ∃ mruList, DListOf.enqueueHead c.mruList mapping = some mruList ∧
          Invariant type (mapping :: log)
            { c with constructed := c.constructed + 1, table := table, mruList := mruList }
            (mapping :: xs)) ∨
        reply = .thrown ∧ Invariant type (mapping :: log)
          { c with constructed := c.constructed + 1, table := table } xs) := by
  intro mapping
  have hnotin : mapping ∉ xs := fun hx => Nat.lt_irrefl _ (h.older mapping hx)
  have holder : ∀ x ∈ xs, x.id < c.constructed + 1 :=
    fun x hx => (h.older x hx).trans (Nat.lt_succ_self _)
  obtain ⟨reply, table, hadd, ⟨hreply, htable⟩ | ⟨hreply, htable⟩⟩ :=
    h.held.table.doAdd (x := mapping) hkey
  · obtain ⟨mruList, henqueue, hlist⟩ := DListOf.enqueueHead_spec h.held.list hnotin
    refine ⟨reply, table, hadd, Or.inl ⟨hreply, mruList, henqueue, ⟨htable, hlist⟩,
      h.recent.cons hnotin, ?_, h.overflow⟩⟩
    intro x hx
    rcases List.mem_cons.mp hx with rfl | hx
    · exact Nat.lt_succ_self _
    · exact holder x hx
  · refine ⟨reply, table, hadd, Or.inr ⟨hreply, ⟨htable, h.held.list⟩, ?_, holder, h.overflow⟩⟩
    exact (h.recent.cons hnotin).sublist (List.sublist_cons_self _ _)

theorem Invariant.spaceIfFull (h : Invariant type log c xs) :
    ∃ c' ys, MRUCache.spaceIfFull type c = some c' ∧ Invariant type log c' ys ∧
      (∀ x ∈ ys, x ∈ xs) ∧ c'.constructed = c.constructed := by
  unfold MRUCache.spaceIfFull
  by_cases hfull : full c = true
  · obtain ⟨c', hrun, hc', hconstructed⟩ := h.makeSpace
    rw [if_pos hfull]
    exact ⟨c', _, hrun, hc', fun x hx => (spaced_isPrefix c xs).subset hx, hconstructed⟩
  · rw [if_neg hfull]
    exact ⟨c, xs, rfl, h, fun _ hx => hx, rfl⟩

theorem Invariant.replace (h : Invariant type log c xs) {key : KEY} (entry : ENTRY)
    (hkey : found type c key = none) :
    ∃ c' xs', MRUCache.replace type c key entry = some c' ∧
      Invariant type (⟨c.constructed, key, entry⟩ :: log) c' xs' := by
  have habsent := found_eq_none h.held hkey
  obtain ⟨c₁, ys, hspace, h₁, hys, hconstructed⟩ := h.spaceIfFull
  rw [← hconstructed]
  unfold MRUCache.replace
  rw [hspace, Option.bind_eq_bind, Option.bind_some]
  obtain ⟨reply, table, hadd, ⟨rfl, mruList, henqueue, hinv⟩ | ⟨rfl, hinv⟩⟩ :=
    h₁.enter entry (fun x hx => habsent x (hys x hx))
  · refine ⟨_, _, ?_, hinv⟩
    simp only [hadd, Option.bind_eq_bind, Option.bind_some, henqueue]
    rfl
  · refine ⟨_, _, ?_, hinv⟩
    simp only [hadd, Option.bind_eq_bind, Option.bind_some]
    rfl

theorem promote_spec (h : Held type c xs) (hx : x ∈ xs) :
    ∃ mruList, promote c x = some { c with mruList := mruList } ∧
      mruList.Represents (x :: xs.filter fun y => y ≠ x) := by
  unfold promote
  by_cases hhead : c.mruList.head = some x
  · rw [if_neg (not_not.mpr hhead)]
    refine ⟨c.mruList, rfl, ?_⟩
    have hlist := h.list
    rw [h.list.head] at hhead
    obtain ⟨ys, rfl⟩ := List.head?_eq_some_iff.mp hhead
    have hnotin := (List.nodup_cons.mp h.table.nodup).1
    have hrest : ys.filter (fun y => y ≠ x) = ys := by
      rw [List.filter_eq_self]
      intro y hy
      exact decide_eq_true fun heq => hnotin (heq ▸ hy)
    rw [List.filter_cons_of_neg (by rw [decide_eq_true_iff]; exact not_not.mpr rfl), hrest]
    exact hlist
  · rw [if_pos hhead]
    obtain ⟨l₁, hdequeue, hl₁⟩ := DListOf.dequeue_spec h.list hx
    have hnotin : x ∉ xs.filter fun y => y ≠ x := by
      intro hmem
      exact of_decide_eq_true (List.mem_filter.mp hmem).2 rfl
    obtain ⟨l₂, henqueue, hl₂⟩ := DListOf.enqueueHead_spec hl₁ hnotin
    refine ⟨l₂, ?_, hl₂⟩
    simp only [hdequeue, henqueue, Option.bind_eq_bind, Option.bind_some]
    rfl

/-- A query returns the entry of the key, and with promotion moves its mapping to the head. -/
theorem Invariant.query (h : Invariant type log c xs) (key : KEY) (doPromote : Bool) :
    ∃ c' xs', MRUCache.query type c key doPromote = some ((found type c key).map Mapping.entry, c') ∧
      Invariant type ((if doPromote then found type c key else none).toList ++ log) c' xs' := by
  obtain ⟨table, hfind, htable, hmapping⟩ := found_eq h.held key
  have hheld : Held type { c with table := table } xs := ⟨htable, h.held.list⟩
  unfold MRUCache.query
  rw [hfind, Option.bind_eq_bind, Option.bind_some]
  cases hfound : found type c key with
  | none =>
    refine ⟨_, xs, rfl, hheld, ?_, h.older, h.overflow⟩
    rw [ite_self]
    exact h.recent
  | some x =>
    obtain ⟨hx, -⟩ := (hmapping x).mp hfound
    cases doPromote with
    | false => exact ⟨_, xs, rfl, hheld, h.recent, h.older, h.overflow⟩
    | true =>
      obtain ⟨mruList, hpromote, hlist⟩ := promote_spec hheld hx
      refine ⟨{ c with table := table, mruList := mruList }, x :: xs.filter fun y => y ≠ x, ?_,
        ⟨⟨htable.good, hlist.nodup, ?_⟩, hlist⟩, h.recent.promote, ?_, h.overflow⟩
      · simp only [if_true, hpromote]
        rfl
      · intro y
        rw [← htable.mem_iff, List.mem_cons, List.mem_filter, decide_eq_true_iff]
        constructor
        · rintro (rfl | ⟨hy, -⟩)
          · exact hx
          · exact hy
        · intro hy
          by_cases hyx : y = x
          · exact Or.inl hyx
          · exact Or.inr ⟨hy, hyx⟩
      · intro y hy
        rcases List.mem_cons.mp hy with rfl | hy
        · exact h.older y hx
        · exact h.older y (List.mem_of_mem_filter hy)

/-- A mapping leaves the table and the list. -/
theorem Invariant.removed {table : Table (Mapping KEY ENTRY)} (h : Invariant type log c xs)
    (hx : x ∈ xs) (htable : Holds type table (xs.filter fun y => y ≠ x)) :
    ∃ mruList, DListOf.dequeue c.mruList x = some mruList ∧
      Invariant type log { c with table := table, mruList := mruList }
        (xs.filter fun y => y ≠ x) := by
  obtain ⟨mruList, hdequeue, hlist⟩ := DListOf.dequeue_spec h.held.list hx
  exact ⟨mruList, hdequeue, h.shrink ⟨htable, hlist⟩ List.filter_sublist rfl h.overflow⟩

theorem Invariant.removeMapping (h : Invariant type log c xs) (mapping : Mapping KEY ENTRY) :
    ∃ c', MRUCache.removeMapping type c mapping = some (decide (mapping ∈ xs), c') ∧
      Invariant type log c' (xs.filter fun y => y ≠ mapping) := by
  obtain ⟨table, hremove, htable⟩ := h.held.table.removeExact mapping
  unfold MRUCache.removeMapping
  rw [hremove, Option.bind_eq_bind, Option.bind_some]
  by_cases hx : mapping ∈ xs
  · obtain ⟨mruList, hdequeue, hinv⟩ := h.removed hx htable
    refine ⟨_, ?_, hinv⟩
    simp only [decide_eq_true hx, hdequeue, Option.bind_eq_bind, Option.bind_some]
    rfl
  · have hsame : xs.filter (fun y => y ≠ mapping) = xs := by
      rw [List.filter_eq_self]
      intro y hy
      exact decide_eq_true fun heq => hx (heq ▸ hy)
    rw [hsame] at htable ⊢
    refine ⟨{ c with table := table }, ?_, h.shrink ⟨htable, h.held.list⟩ (List.Sublist.refl xs) rfl
      h.overflow⟩
    simp only [decide_eq_false hx]
    rfl

theorem Invariant.remove (h : Invariant type log c xs) (key : KEY) :
    ∃ c' xs', MRUCache.remove type c key = some ((found type c key).isSome, c') ∧
      Invariant type log c' xs' := by
  obtain ⟨table, hfind, htable, hmapping⟩ := found_eq h.held key
  have hinv : Invariant type log { c with table := table } xs :=
    h.shrink ⟨htable, h.held.list⟩ (List.Sublist.refl xs) rfl h.overflow
  unfold MRUCache.remove
  rw [hfind, Option.bind_eq_bind, Option.bind_some]
  cases hfound : found type c key with
  | none => exact ⟨_, xs, rfl, hinv⟩
  | some x =>
    obtain ⟨hx, -⟩ := (hmapping x).mp hfound
    obtain ⟨table', hremove, htable'⟩ := htable.removeExact x
    obtain ⟨mruList, hdequeue, hinv'⟩ := hinv.removed hx htable'
    have hdequeue' : DListOf.dequeue c.mruList x = some mruList := hdequeue
    refine ⟨_, _, ?_, hinv'⟩
    simp only [hremove, hdequeue', Option.bind_eq_bind, Option.bind_some]
    rfl

/-- Every mapping is removed when the limit is below the number of mappings. -/
theorem Invariant.setCacheLimit (h : Invariant type log c xs) (hmax : c.maxCount.isSome = true)
    (cacheMax : BitVec 32) :
    ∃ old c', MRUCache.setCacheLimit type c cacheMax = some (old, c') ∧
      Invariant type log c' (if cacheMax.toNat < xs.length then [] else xs) := by
  obtain ⟨m, hm⟩ := Option.isSome_iff_exists.mp hmax
  have hoverflow : ∀ m' ∈ some { m with cacheMax := cacheMax }, m'.cacheOverflow = 1 := by
    intro m' hm'
    obtain rfl := Option.some.inj hm'
    exact h.overflow m hm
  unfold MRUCache.setCacheLimit
  rw [hm, Option.bind_eq_bind, Option.bind_some]
  simp only [h.held.table.count_eq]
  by_cases hlt : cacheMax.toNat < xs.length
  · obtain ⟨c', hclear, hc', hconstructed, -⟩ := h.clear (cacheMax - BitVec.ofNat 32 xs.length)
    rw [kept_limit h.held.table.length_lt hlt, List.take_zero] at hc'
    rw [if_pos hlt, if_pos hlt, hclear]
    exact ⟨m.cacheMax, _, rfl, hc'.shrink ⟨hc'.held.table, hc'.held.list⟩ (List.Sublist.refl _) rfl
      hoverflow⟩
  · rw [if_neg hlt, if_neg hlt]
    exact ⟨m.cacheMax, _, rfl, h.shrink ⟨h.held.table, h.held.list⟩ (List.Sublist.refl _) rfl
      hoverflow⟩

/-- What one step does. -/
theorem Invariant.step (h : Invariant type log c xs) (op : Operation KEY ENTRY)
    (hop : Permitted type c op) :
    ∃ c' xs', MRUCache.step type c op = some c' ∧
      Invariant type ((used type c op).toList ++ log) c' xs' := by
  cases op with
  | replace key entry =>
    obtain ⟨c', xs', hrun, hc'⟩ := h.replace entry hop
    exact ⟨c', xs', hrun, hc'⟩
  | query key doPromote =>
    obtain ⟨c', xs', hrun, hc'⟩ := h.query key doPromote
    refine ⟨c', xs', by rw [MRUCache.step, hrun]; rfl, ?_⟩
    cases doPromote <;> exact hc'
  | get key doPromote =>
    obtain ⟨c', xs', hrun, hc'⟩ := h.query key doPromote
    refine ⟨c', xs', by rw [MRUCache.step, get, hrun]; rfl, ?_⟩
    cases doPromote <;> exact hc'
  | removeMapping mapping =>
    obtain ⟨c', hrun, hc'⟩ := h.removeMapping mapping
    exact ⟨c', _, by rw [MRUCache.step, hrun]; rfl, hc'⟩
  | remove key =>
    obtain ⟨c', xs', hrun, hc'⟩ := h.remove key
    exact ⟨c', xs', by rw [MRUCache.step, hrun]; rfl, hc'⟩
  | kill =>
    obtain ⟨c', hrun, hc', -⟩ := h.clear (-1)
    exact ⟨c', _, hrun, hc'⟩
  | setCacheLimit cacheMax =>
    obtain ⟨old, c', hrun, hc'⟩ := h.setCacheLimit hop cacheMax
    exact ⟨c', _, by rw [MRUCache.step, hrun]; rfl, hc'⟩

/-- The invariant goes along with every run. -/
theorem invariant_run {cacheMax : Option (BitVec 32)} {events : List (Event KEY ENTRY)}
    (hrun : Run type cacheMax events c) : ∃ xs, Invariant type (uses type events) c xs := by
  induction hrun with
  | start => exact ⟨[], invariant_create cacheMax⟩
  | step op hrun hop hstep ih =>
    obtain ⟨xs, h⟩ := ih
    obtain ⟨c', xs', hstep', hc'⟩ := h.step op hop
    rw [hstep] at hstep'
    obtain rfl := Option.some.inj hstep'
    exact ⟨xs', hc'⟩

/-- Each operation of a run is one on a cache that a run has reached. -/
theorem Run.event {cacheMax : Option (BitVec 32)} {events : List (Event KEY ENTRY)}
    (hrun : Run type cacheMax events c) :
    ∀ e ∈ events, ∃ earlier, Run type cacheMax earlier e.before ∧ Permitted type e.before e.op ∧
      MRUCache.step type e.before e.op = some e.after := by
  induction hrun with
  | start => exact fun e he => absurd he List.not_mem_nil
  | step op hrun hop hstep ih =>
    intro e he
    rcases List.mem_cons.mp he with rfl | he
    · exact ⟨_, hrun, hop, hstep⟩
    · exact ih e he

/-- A limit leaves the right mappings exactly when it fits. -/
theorem limitLeavesRecent_iff {e : Event KEY ENTRY} (h : Invariant type log e.before xs)
    (hop : Permitted type e.before e.op) (hstep : step type e.before e.op = some e.after) :
    LimitLeavesRecent e ↔ LimitFits e := by
  have hcount := h.held.table.count_eq
  have hafter : ∀ n, e.op = .setCacheLimit n → n.toNat < xs.length → e.after.mruList.members = [] := by
    intro n hn hlt
    rw [hn] at hop hstep
    obtain ⟨old, c', hrun, hc'⟩ := h.setCacheLimit hop n
    rw [step, hrun] at hstep
    obtain rfl : c' = e.after := Option.some.inj hstep
    rw [if_pos hlt] at hc'
    exact hc'.held.list.members_eq
  constructor
  · intro hleaves n hn
    by_cases hlt : n.toNat < xs.length
    · right
      have heq := hleaves n hn (hcount ▸ hlt)
      rw [hafter n hn hlt, h.held.list.members_eq, eq_comm, List.take_eq_nil_iff] at heq
      rcases heq with hzero | rfl
      · exact BitVec.eq_of_toNat_eq hzero
      · exact absurd hlt (Nat.not_lt_zero _)
    · exact Or.inl (hcount ▸ Nat.le_of_not_lt hlt)
  · intro hfits n hn hlt
    rcases hfits n hn with hle | rfl
    · exact absurd hle (Nat.not_le_of_lt hlt)
    · rw [hafter 0 hn (hcount ▸ hlt)]
      rfl

/-- A run keeps the table and the list in step and evicts what was used least recently, and it keeps
the promise about limits exactly when each of them fits. -/
theorem run_keeps_iff {cacheMax : Option (BitVec 32)} {events : List (Event KEY ENTRY)}
    (hrun : Run type cacheMax events c) :
    Keeps type events c ↔ ∀ e ∈ events, LimitFits e := by
  have hlimit : ∀ e ∈ events, (LimitLeavesRecent e ↔ LimitFits e) := by
    intro e he
    obtain ⟨earlier, hearlier, hop, hstep⟩ := hrun.event e he
    obtain ⟨xs, h⟩ := invariant_run hearlier
    exact limitLeavesRecent_iff h hop hstep
  constructor
  · exact fun h e he => (hlimit e he).mp (h.limit e he)
  · intro hfits
    obtain ⟨xs, h⟩ := invariant_run hrun
    obtain ⟨c', hspace, hc', -⟩ := h.makeSpace
    refine ⟨h.inStep, ⟨c', hspace, hc'.inStep, ?_⟩, fun e he => (hlimit e he).mpr (hfits e he), ?_⟩
    · rw [hc'.held.list.members_eq, h.held.list.members_eq]
      exact spaced_isPrefix c xs
    · intro op hop
      obtain ⟨c', -, hstep, -⟩ := h.step op hop
      exact Option.isSome_iff_exists.mpr ⟨c', hstep⟩

end Runs

/-! ## A limit below the number of mappings -/

/-- Numbers as keys. -/
def numberTable : TableType ℕ ℕ where
  getFindParam mapping := mapping.key
  getHashFromFindParam := SuperHash.numberHashing.getHashFromFindParam
  sameParam := SuperHash.numberHashing.sameParam
  same_refl := SuperHash.numberHashing.same_refl
  same_symm := SuperHash.numberHashing.same_symm
  same_trans := SuperHash.numberHashing.same_trans
  hash_eq := SuperHash.numberHashing.hash_eq
  findParam_eq _ := rfl

/-- The cache after some operations. -/
def after (ops : List (Operation ℕ ℕ)) : Option (Cache ℕ ℕ) :=
  ops.foldlM (step numberTable) (create (some 10))

theorem after_append (ops : List (Operation ℕ ℕ)) (op : Operation ℕ ℕ) :
    after (ops ++ [op]) = (after ops).bind fun c => step numberTable c op := by
  rw [after, List.foldlM_append]
  exact bind_congr fun c => bind_pure _

theorem run_after_append {ops : List (Operation ℕ ℕ)} (op : Operation ℕ ℕ) {c : Cache ℕ ℕ}
    {events : List (Event ℕ ℕ)} (hc : after ops = some c)
    (hrun : Run numberTable (some 10) events c) (hop : Permitted numberTable c op)
    (hsome : (after (ops ++ [op])).isSome = true) :
    ∃ c', after (ops ++ [op]) = some c' ∧
      Run numberTable (some 10) (⟨c, op, c'⟩ :: events) c' := by
  obtain ⟨c', hc'⟩ := Option.isSome_iff_exists.mp hsome
  refine ⟨c', hc', .step op hrun hop ?_⟩
  rw [← hc', after_append, hc]
  rfl

theorem after_map {β : Type} {ops : List (Operation ℕ ℕ)} {c : Cache ℕ ℕ} {b : β}
    (f : Cache ℕ ℕ → β) (hc : after ops = some c) (h : (after ops).map f = some b) : f c = b := by
  rw [hc] at h
  exact Option.some.inj h

/-- One mapping fits a limit of five. -/
theorem run_keeps_five : ∃ c c' : Cache ℕ ℕ,
    Run numberTable (some 10)
      [⟨c, .setCacheLimit 5, c'⟩, ⟨create (some 10), .replace 1 10, c⟩] c' ∧
    Keeps numberTable [⟨c, .setCacheLimit 5, c'⟩, ⟨create (some 10), .replace 1 10, c⟩] c' := by
  have h₀ : after [] = some (create (some 10)) := rfl
  obtain ⟨c, hc, hrun⟩ := run_after_append (.replace 1 10) h₀ .start rfl rfl
  have hsome : c.maxCount.isSome = true := after_map (fun c => c.maxCount.isSome) hc rfl
  have hcount : SuperHash.count c.table = 1 := after_map (fun c => SuperHash.count c.table) hc rfl
  obtain ⟨c', -, hrun'⟩ := run_after_append (.setCacheLimit 5) hc hrun hsome rfl
  refine ⟨c, c', hrun', (run_keeps_iff hrun').mpr ?_⟩
  intro e he n hn
  rcases List.mem_cons.mp he with rfl | he
  · cases hn
    rw [hcount]
    exact Or.inl (by decide)
  · rw [List.mem_singleton.mp he] at hn
    cases hn

/-- Of three mappings a limit of two leaves none. -/
theorem limit_two_of_three :
    (after [.replace 1 10, .replace 2 20, .replace 3 30]).map
        (fun c => c.mruList.members.map Mapping.key) = some [3, 2, 1] ∧
      (after [.replace 1 10, .replace 2 20, .replace 3 30, .setCacheLimit 2]).map
        (fun c => c.mruList.members.map Mapping.key) = some [] ∧
      ¬ ∀ (events : List (Event ℕ ℕ)) (c : Cache ℕ ℕ),
        Run numberTable (some 10) events c → Keeps numberTable events c := by
  refine ⟨rfl, rfl, ?_⟩
  intro hall
  have h₀ : after [] = some (create (some 10)) := rfl
  obtain ⟨c₁, h₁, hrun₁⟩ := run_after_append (.replace 1 10) h₀ .start rfl rfl
  have hfound₁ : found numberTable c₁ 2 = none := after_map (fun c => found numberTable c 2) h₁ rfl
  obtain ⟨c₂, h₂, hrun₂⟩ := run_after_append (.replace 2 20) h₁ hrun₁ hfound₁ rfl
  have hfound₂ : found numberTable c₂ 3 = none := after_map (fun c => found numberTable c 3) h₂ rfl
  obtain ⟨c₃, h₃, hrun₃⟩ := run_after_append (.replace 3 30) h₂ hrun₂ hfound₂ rfl
  have hsome : c₃.maxCount.isSome = true := after_map (fun c => c.maxCount.isSome) h₃ rfl
  have hcount : SuperHash.count c₃.table = 3 := after_map (fun c => SuperHash.count c.table) h₃ rfl
  obtain ⟨c₄, h₄, hrun₄⟩ := run_after_append (.setCacheLimit 2) h₃ hrun₃ hsome rfl
  have hkeys₃ : c₃.mruList.members.map Mapping.key = [3, 2, 1] :=
    after_map (fun c => c.mruList.members.map Mapping.key) h₃ rfl
  have hkeys₄ : c₄.mruList.members.map Mapping.key = [] :=
    after_map (fun c => c.mruList.members.map Mapping.key) h₄ rfl
  -- the two that were used last have the keys 3 and 2
  have hrecent := (hall _ _ hrun₄).limit _ List.mem_cons_self 2 rfl (by rw [hcount]; decide)
  rw [hrecent, List.map_take, hkeys₃] at hkeys₄
  exact absurd hkeys₄ (by decide)

end MRUCache

end HpccPlatform
