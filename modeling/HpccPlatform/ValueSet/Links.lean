import HpccPlatform.ValueSet.Algebra

/-!
# Shared transitions

The arrays of a value set hold links to transitions, and one transition can be held by several
sets.  `modifyTransition` relies on the link count: a transition with a single link is changed in
place, any other is cloned.  Here `killRange` and `excludeSet` are modelled on a heap of linked
transitions and compared with the operations by value.

`excludeSet` hands the transitions of its argument to `killRange`, and each of them has the single
link of its own set.  Where `killRange` turns such a bound into one of its own array, the argument
is changed.
-/

namespace HpccPlatform

open ValueTransition

/-- The transitions that exist, by address, with their link counts; addresses from `size` on are
unused. -/
structure Heap (α : Type*) where
  object : ℕ → ValueTransition α
  links : ℕ → ℕ
  size : ℕ

namespace Heap

variable {α : Type*}

/-- The transitions of an array of links. -/
def deref (h : Heap α) (items : List ℕ) : List (ValueTransition α) := items.map h.object

/-- `Release()` -/
def release (h : Heap α) (r : ℕ) : Heap α :=
  { h with links := Function.update h.links r (h.links r - 1) }

/-- `modifyTransition(type, newMask)`: a shared transition is cloned, any other is changed in
place.  Returns a linked transition. -/
def modifyTransition (type : RtlTypeInfo α) (h : Heap α) (r : ℕ) (newMask : TransitionMask) :
    Except SetError (Heap α × ℕ) :=
  match (h.object r).value with
  | none => .error .assertion
  | some value =>
    if 1 < h.links r then
      .ok (⟨Function.update h.object h.size (.create newMask type value (h.object r).subLength),
        Function.update h.links h.size 1, h.size + 1⟩, h.size)
    else
      .ok (⟨Function.update h.object r ⟨newMask, (h.object r).subLength, some value, ValueTransition.hasValue_some newMask value⟩,
        Function.update h.links r (h.links r + 1), h.size⟩, r)

/-- First half of `killRange`, on links. -/
def killLower (type : RtlTypeInfo α) (h : Heap α) (items : List ℕ) (lower next low : ℕ) :
    Except SetError (Heap α × List ℕ × ℕ) :=
  if (h.object lower).compareRaw type (h.object next) = 0 then
    if (h.object next).isLowerBound then
      if !(h.object lower).isInclusiveBound && (h.object next).isInclusiveBound then
        (h.modifyTransition type lower CMPle).map fun p =>
          (p.1, items.insertIdx (low + 1) p.2, low + 2)
      else .ok (h.release next, items.eraseIdx low, low)
    else if (h.object lower).isInclusiveBound && (h.object next).isInclusiveBound then
      (h.modifyTransition type next CMPlt).map fun p =>
        (p.1.release next, items.set low p.2, low + 1)
    else .ok (h, items, low + 1)
  else if (h.object next).isUpperBound then
    (h.modifyTransition type lower
      (if (h.object lower).isInclusiveBound then CMPlt else CMPle)).map fun p =>
        (p.1, items.insertIdx low p.2, low + 1)
  else .ok (h, items, low)

/-- The loop of `killRange`, on links. -/
def killWalk (type : RtlTypeInfo α) (upper : ℕ) :
    Heap α → List ℕ → Except SetError (Heap α × List ℕ)
  | h, [] => .ok (h, [])
  | h, cur :: rest =>
    let rc := (h.object cur).compareRaw type (h.object upper)
    if 0 < rc then
      if (h.object cur).isUpperBound then
        (h.modifyTransition type upper
          (if (h.object upper).isInclusiveBound then CMPgt else CMPge)).map fun p =>
            (p.1, p.2 :: cur :: rest)
      else .ok (h, cur :: rest)
    else if rc = 0 then
      if (h.object cur).isUpperBound then
        if (h.object cur).isInclusiveBound && !(h.object upper).isInclusiveBound then
          (h.modifyTransition type upper CMPge).map fun p => (p.1, p.2 :: cur :: rest)
        else .ok (h.release cur, rest)
      else if !(h.object upper).isInclusiveBound then .ok (h, cur :: rest)
      else killWalk type upper (h.release cur) rest
    else killWalk type upper (h.release cur) rest

/-- `killRange(lower, upper)` for two bounds that are not null, on links. -/
def killRange (type : RtlTypeInfo α) (h : Heap α) (items : List ℕ) (lower upper : ℕ) :
    Except SetError (Heap α × List ℕ) :=
  if !(h.object lower).isLowerBound || !(h.object upper).isUpperBound then
    .error .invalidRangeBounds
  else if ValueSet.isEmptyRange type (h.object lower) (h.object upper) then .ok (h, items)
  else
    let low := ValueSet.findLower type (h.deref items) (h.object lower)
    match items[low]? with
    | none => .ok (h, items)
    | some next =>
      (h.killLower type items lower next low).bind fun r =>
        (killWalk type upper r.1 (r.2.1.drop r.2.2)).map fun p =>
          (p.1, r.2.1.take r.2.2 ++ p.2)

/-- `excludeSet(other)`, on links. -/
def excludeSet (type : RtlTypeInfo α) :
    Heap α → List ℕ → List ℕ → Except SetError (Heap α × List ℕ)
  | h, items, lower :: upper :: other =>
    (h.killRange type items lower upper).bind fun p => excludeSet type p.1 p.2 other
  | _, _, [_] => .error .assertion
  | h, items, [] => .ok (h, items)

/-! ## Link counts -/

/-- The transitions are held by this set and the other one only: their link counts are the numbers
of links, and no array holds the same transition twice. -/
structure Held (h : Heap α) (items other : List ℕ) : Prop where
  links_eq : ∀ r ∈ items ++ other, h.links r = items.count r + other.count r
  lt_size : ∀ r ∈ items ++ other, r < h.size
  nodup : items.Nodup
  nodup_other : other.Nodup

section Held

variable {h : Heap α} {items other : List ℕ} {r : ℕ}

lemma Held.notMem_size (hh : h.Held items other) : h.size ∉ items ∧ h.size ∉ other :=
  ⟨fun hr => lt_irrefl _ (hh.lt_size h.size (by simp [hr])),
    fun hr => lt_irrefl _ (hh.lt_size h.size (by simp [hr]))⟩

/-- A transition of the other set that this set does not hold is not shared. -/
lemma Held.links_le_one (hh : h.Held items other) (hr : r ∈ other) (hr' : r ∉ items) :
    h.links r ≤ 1 := by
  rw [hh.links_eq r (by simp [hr]), List.count_eq_zero.2 hr', zero_add]
  exact List.nodup_iff_count_le_one.1 hh.nodup_other r

/-- A transition that both sets hold is shared. -/
lemma Held.one_lt_links (hh : h.Held items other) (hr : r ∈ items) (hr' : r ∈ other) :
    1 < h.links r := by
  have h₁ := List.count_pos_iff.2 hr
  have h₂ := List.count_pos_iff.2 hr'
  rw [hh.links_eq r (by simp [hr])]
  omega

@[simp] lemma deref_append (h : Heap α) (xs ys : List ℕ) :
    h.deref (xs ++ ys) = h.deref xs ++ h.deref ys := List.map_append

@[simp] lemma deref_cons (h : Heap α) (x : ℕ) (xs : List ℕ) :
    h.deref (x :: xs) = h.object x :: h.deref xs := rfl

@[simp] lemma deref_nil (h : Heap α) : h.deref [] = [] := rfl

@[simp] lemma length_deref (h : Heap α) (xs : List ℕ) : (h.deref xs).length = xs.length :=
  List.length_map _

@[simp] lemma deref_release (h : Heap α) (r : ℕ) (xs : List ℕ) :
    (h.release r).deref xs = h.deref xs := rfl

@[simp] lemma object_release (h : Heap α) (r s : ℕ) : (h.release r).object s = h.object s := rfl

lemma deref_congr {h h' : Heap α} {xs : List ℕ} (heq : ∀ r ∈ xs, h'.object r = h.object r) :
    h'.deref xs = h.deref xs := List.map_congr_left heq

end Held

/-- The modified bound, by value. -/
lemma eq_of_modifyTransition_ok {t u : ValueTransition α} {mask : TransitionMask}
    (hok : t.modifyTransition mask = .ok u) :
    ∃ v, t.value = some v ∧ u = ⟨mask, t.subLength, some v, by simp⟩ := by
  unfold ValueTransition.modifyTransition at hok
  split at hok
  · simp at hok
  · rename_i v hv
    refine ⟨v, hv, ?_⟩
    rw [← Except.ok.inj hok]
    simp [hv]

/-- A bound of the other set that this set does not hold is modified in place, and the modified
bound is then held by both. -/
lemma modifyTransition_of_notMem (type : RtlTypeInfo α) {h : Heap α} {items other : List ℕ}
    (hh : h.Held items other) {r : ℕ} (hr : r ∈ other) (hr' : r ∉ items) {mask : TransitionMask}
    {t : ValueTransition α} (hok : (h.object r).modifyTransition mask = .ok t) :
    ∃ h', h.modifyTransition type r mask = .ok (h', r) ∧ h'.object r = t ∧
      (∀ s, s ≠ r → h'.object s = h.object s) ∧ h'.Held (r :: items) other := by
  obtain ⟨v, hv, rfl⟩ := eq_of_modifyTransition_ok hok
  have hl : ¬ 1 < h.links r := not_lt.2 (hh.links_le_one hr hr')
  refine ⟨_, by simp only [modifyTransition, hv, if_neg hl]; rfl, by simp,
    fun s hs => Function.update_of_ne hs _ _, ⟨fun s hs => ?_, fun s hs => ?_,
      List.nodup_cons.2 ⟨hr', hh.nodup⟩, hh.nodup_other⟩⟩
  · by_cases hsr : s = r
    · subst hsr
      simp [hh.links_eq s (by simp [hr])]
      omega
    · rw [List.count_cons_of_ne (Ne.symm hsr)]
      simpa [Function.update_of_ne hsr] using hh.links_eq s (by simpa [hsr] using hs)
  · rcases List.mem_cons.1 hs with rfl | hs
    · exact hh.lt_size s (by simp [hr])
    · exact hh.lt_size s hs

/-- A bound that this set holds is modified without any effect on the other set: a bound that
both hold is cloned. -/
lemma modifyTransition_of_mem (type : RtlTypeInfo α) {h : Heap α} {As Bs other : List ℕ} {r : ℕ}
    (hh : h.Held (As ++ r :: Bs) other) (hfull : (h.object r).subLength = MatchFullString)
    {mask : TransitionMask} {t : ValueTransition α}
    (hok : (h.object r).modifyTransition mask = .ok t) :
    ∃ h' r', h.modifyTransition type r mask = .ok (h', r') ∧ h'.object r' = t ∧ r' ∉ other ∧
      (∀ s ∈ As ++ Bs ++ other, h'.object s = h.object s) ∧
      (h'.release r).Held (As ++ r' :: Bs) other := by
  obtain ⟨v, hv, rfl⟩ := eq_of_modifyTransition_ok hok
  have hnodup := hh.nodup
  obtain ⟨hsize, hsize'⟩ := hh.notMem_size
  have hrAB : r ∉ As ++ Bs := by
    have := List.nodup_middle.1 hnodup
    exact (List.nodup_cons.1 this).1
  by_cases hl : 1 < h.links r
  · -- shared: the clone is at a new address
    have hne : ∀ s ∈ As ++ Bs ++ other, s ≠ h.size := by
      rintro s hs rfl
      simp only [List.mem_append, List.mem_cons] at hs hsize
      tauto
    have hrsize : r ≠ h.size := by
      rintro hr
      simp [hr] at hsize
    have hnew : h.size ∉ As ++ Bs := fun hm => hne h.size (List.mem_append_left _ hm) rfl
    refine ⟨_, _, by simp only [modifyTransition, hv, if_pos hl]; rfl, ?_, hsize',
      fun s hs => Function.update_of_ne (hne s hs) _ _, ⟨fun s hs => ?_, fun s hs => ?_, ?_,
        hh.nodup_other⟩⟩
    · simp [create, storedSubLength, clampSubLength, hfull, MatchFullString]
    · simp only [release]
      by_cases h₂ : s = h.size
      · subst h₂
        simp only [List.mem_append, not_or] at hnew
        simp [Function.update_of_ne hrsize.symm, List.count_eq_zero.2 hsize',
          List.count_eq_zero.2 hnew.1, List.count_eq_zero.2 hnew.2]
      · have hmem : s ∈ As ++ r :: Bs ++ other := by
          simp only [List.mem_append, List.mem_cons] at hs ⊢
          tauto
        have hlinks := hh.links_eq s hmem
        by_cases h₁ : s = r
        · subst h₁
          simp [Function.update_of_ne hrsize, List.count_cons_of_ne, hrsize.symm, hlinks]
          omega
        · simpa [Function.update_of_ne h₁, Function.update_of_ne h₂, List.count_cons_of_ne,
            Ne.symm h₁, Ne.symm h₂] using hlinks
    · change s < h.size + 1
      by_cases h₂ : s = h.size
      · omega
      · refine (hh.lt_size s ?_).trans (Nat.lt_succ_self _)
        simp only [List.mem_append, List.mem_cons] at hs ⊢
        tauto
    · exact List.nodup_middle.2 (List.nodup_cons.2
        ⟨hnew, (List.nodup_cons.1 (List.nodup_middle.1 hnodup)).2⟩)
  · -- held by this set only
    have hro : r ∉ other := fun hm => hl (hh.one_lt_links (by simp) hm)
    refine ⟨_, _, by simp only [modifyTransition, hv, if_neg hl]; rfl, by simp, hro,
      fun s hs => Function.update_of_ne ?_ _ _, ⟨fun s hs => ?_, fun s hs => ?_, hnodup,
        hh.nodup_other⟩⟩
    · rintro rfl
      simp only [List.mem_append] at hs hrAB
      tauto
    · simp only [release]
      by_cases h₁ : s = r
      · subst h₁
        simp [hh.links_eq s hs]
      · simpa [Function.update_of_ne h₁] using hh.links_eq s hs
    · exact hh.lt_size s hs

/-- Removing a transition releases it. -/
lemma Held.release {h : Heap α} {As Bs other : List ℕ} {r : ℕ}
    (hh : h.Held (As ++ r :: Bs) other) : (h.release r).Held (As ++ Bs) other := by
  have hmem : ∀ s ∈ As ++ Bs ++ other, s ∈ As ++ r :: Bs ++ other := fun s hs => by
    simp only [List.mem_append, List.mem_cons] at hs ⊢
    tauto
  refine ⟨fun s hs => ?_, fun s hs => hh.lt_size s (hmem s hs),
    (List.nodup_cons.1 (List.nodup_middle.1 hh.nodup)).2, hh.nodup_other⟩
  have hlinks := hh.links_eq s (hmem s hs)
  simp only [Heap.release]
  by_cases h₁ : s = r
  · subst h₁
    simp at hlinks ⊢
    omega
  · simpa [Function.update_of_ne h₁, List.count_cons_of_ne, Ne.symm h₁] using hlinks

lemma Held.perm {h : Heap α} {items items' other : List ℕ} (hh : h.Held items other)
    (hp : items.Perm items') : h.Held items' other :=
  ⟨fun r hr => by rw [hh.links_eq r (by simpa [hp.mem_iff] using hr), hp.count_eq],
    fun r hr => hh.lt_size r (by simpa [hp.mem_iff] using hr), hp.nodup_iff.1 hh.nodup,
    hh.nodup_other⟩

/-! ## The operations on links simulate those on values -/

/-- `killRange` turns its lower bound, as given, into an upper bound of this set. -/
def modifiesLower (type : RtlTypeInfo α) (lower next : ValueTransition α) : Bool :=
  if lower.compareRaw type next = 0 then
    next.isLowerBound && (!lower.isInclusiveBound && next.isInclusiveBound)
  else next.isUpperBound

/-- `killRange` turns its upper bound, as given, into a lower bound of this set. -/
def modifiesUpper (type : RtlTypeInfo α) (upper : ValueTransition α) :
    List (ValueTransition α) → Bool
  | [] => false
  | cur :: rest =>
    if 0 < cur.compareRaw type upper then cur.isUpperBound
    else if cur.compareRaw type upper = 0 then
      if cur.isUpperBound then cur.isInclusiveBound && !upper.isInclusiveBound
      else if !upper.isInclusiveBound then false
      else modifiesUpper type upper rest
    else modifiesUpper type upper rest

lemma mask_of_modifyTransition_ok {t u : ValueTransition α} {mask : TransitionMask}
    (hok : t.modifyTransition mask = .ok u) : u.mask = mask := by
  obtain ⟨v, -, rfl⟩ := eq_of_modifyTransition_ok hok
  rfl

section Simulation

variable {type : RtlTypeInfo α} {h : Heap α} {other : List ℕ}

/-- The first half of `killRange` on links: it computes the values, and of the other set it
changes at most the lower bound. -/
lemma killLower_sim {As Bs : List ℕ} {lower next idx : ℕ} {vs : List (ValueTransition α)}
    (hh : h.Held (As ++ next :: Bs) other) (hlower : lower ∈ other)
    (hlower' : lower ∉ As ++ next :: Bs) (hl : (h.object lower).isLowerBound = true)
    (hfull : (h.object next).subLength = MatchFullString)
    (hok : ValueSet.killLower type (h.deref (As ++ next :: Bs)) (h.object lower)
      (h.object next) As.length = .ok (vs, idx)) :
    ∃ h' items', h.killLower type (As ++ next :: Bs) lower next As.length =
        .ok (h', items', idx) ∧
      h'.deref items' = vs ∧ h'.Held items' other ∧
      (∀ r ∈ other, r ≠ lower → h'.object r = h.object r) ∧
      (∀ r ∈ items', r ∈ As ++ next :: Bs ∨ r = lower ∨ r ∉ other) ∧
      (h'.object lower = h.object lower ↔
        modifiesLower type (h.object lower) (h.object next) = false) := by
  have hinsert : ∀ (mask : TransitionMask) (t : ValueTransition α) (X Y : List ℕ), mask.gt = false →
      X ++ Y = As ++ next :: Bs → (h.object lower).modifyTransition mask = .ok t →
      ∃ h', h.modifyTransition type lower mask = .ok (h', lower) ∧
        h'.deref (X ++ lower :: Y) = h.deref X ++ t :: h.deref Y ∧
        h'.Held (X ++ lower :: Y) other ∧ (∀ r ∈ other, r ≠ lower → h'.object r = h.object r) ∧
        h'.object lower ≠ h.object lower := by
    intro mask t X Y hmask hXY ht
    obtain ⟨h', hm, hobj, hframe, hheld⟩ := modifyTransition_of_notMem type hh hlower hlower' ht
    have hne : ∀ r ∈ X ++ Y, h'.object r = h.object r := fun r hr =>
      hframe r (by rintro rfl; exact hlower' (hXY ▸ hr))
    refine ⟨h', hm, ?_, hheld.perm (hXY ▸ List.perm_middle.symm), fun r _ => hframe r, fun heq => ?_⟩
    · rw [deref_append, deref_cons, hobj, deref_congr fun r hr => hne r (by simp [hr]),
        deref_congr fun r hr => hne r (by simp [hr])]
    · have hm := mask_of_modifyTransition_ok ht
      rw [← hobj, heq] at hm
      simp [isLowerBound, hm, hmask] at hl
  unfold ValueSet.killLower at hok
  unfold killLower modifiesLower
  by_cases hzero : (h.object lower).compareRaw type (h.object next) = 0
  · simp only [if_pos hzero] at hok ⊢
    by_cases hnl : (h.object next).isLowerBound = true
    · simp only [if_pos hnl] at hok ⊢
      by_cases hinc : (!(h.object lower).isInclusiveBound && (h.object next).isInclusiveBound) = true
      · simp only [if_pos hinc] at hok ⊢
        cases ht : (h.object lower).modifyTransition CMPle with
        | error e => simp [ht, Except.map] at hok
        | ok t =>
          obtain ⟨h', hm, hderef, hheld, hframe, hne⟩ :=
            hinsert CMPle t (As ++ [next]) Bs rfl (by simp) ht
          have hvs := ValueSet.insertIdx_append_length (h.deref (As ++ [next])) (h.deref Bs) t
          have hitems := ValueSet.insertIdx_append_length (As ++ [next]) Bs lower
          simp only [length_deref, List.length_append, List.length_singleton, List.append_assoc,
            List.singleton_append, deref_append, deref_cons, deref_nil] at hvs hitems
          simp only [ht, Except.map, Except.ok.injEq, Prod.mk.injEq, deref_append, deref_cons,
            hvs] at hok
          refine ⟨h', As ++ next :: lower :: Bs, by simp [hm, Except.map, hitems, hok.2], ?_,
            by simpa using hheld, hframe, fun r hr => ?_, by simp [hne, hnl, hinc]⟩
          · rw [← hok.1]
            simpa using hderef
          · simp only [List.mem_append, List.mem_cons] at hr ⊢
            tauto
      · rw [if_neg hinc] at hok ⊢
        simp only [Except.ok.injEq, Prod.mk.injEq] at hok
        have hitems : (As ++ next :: Bs).eraseIdx As.length = As ++ Bs := by
          rw [List.eraseIdx_append_of_length_le le_rfl]
          simp
        refine ⟨h.release next, As ++ Bs, by rw [hitems, hok.2], ?_, hh.release,
          fun _ _ _ => rfl, fun r hr => ?_, by simpa [hnl] using hinc⟩
        · rw [← hok.1, deref_release, deref, deref, List.eraseIdx_map, hitems]
        · simp only [List.mem_append, List.mem_cons] at hr ⊢
          tauto
    · simp only [if_neg hnl] at hok ⊢
      by_cases hinc : ((h.object lower).isInclusiveBound && (h.object next).isInclusiveBound) = true
      · rw [if_pos hinc] at hok ⊢
        cases ht : (h.object next).modifyTransition CMPlt with
        | error e => simp [ht, Except.map] at hok
        | ok t =>
          obtain ⟨h', r', hm, hobj, hr', hframe, hheld⟩ :=
            modifyTransition_of_mem type hh hfull ht
          simp only [ht, Except.map, Except.ok.injEq, Prod.mk.injEq] at hok
          refine ⟨h'.release next, As ++ r' :: Bs, by simp [hm, Except.map, hok.2], ?_, hheld,
            fun r hr _ => hframe r (by simp [hr]), fun r hr => ?_, ?_⟩
          · rw [← hok.1, deref_release, deref_append, deref_cons, hobj,
              deref_congr fun r hr => hframe r (by simp [hr]),
              deref_congr fun r hr => hframe r (by simp [hr])]
            simp
          · simp only [List.mem_append, List.mem_cons] at hr ⊢
            rcases hr with hr | rfl | hr
            · tauto
            · exact Or.inr (Or.inr hr')
            · tauto
          · simpa [hnl] using hframe lower (by simp [hlower])
      · rw [if_neg hinc] at hok ⊢
        simp only [Except.ok.injEq, Prod.mk.injEq] at hok
        exact ⟨h, _, by rw [hok.2], hok.1, hh, fun _ _ _ => rfl, fun r hr => Or.inl hr, by simp [hnl]⟩
  · simp only [if_neg hzero] at hok ⊢
    by_cases hnu : (h.object next).isUpperBound = true
    · simp only [if_pos hnu] at hok ⊢
      cases ht : (h.object lower).modifyTransition
          (if (h.object lower).isInclusiveBound then CMPlt else CMPle) with
      | error e => simp [ht, Except.map] at hok
      | ok t =>
        obtain ⟨h', hm, hderef, hheld, hframe, hne⟩ := hinsert _ t As (next :: Bs)
          (by cases (h.object lower).isInclusiveBound <;> rfl) rfl ht
        have hvs := ValueSet.insertIdx_append_length (h.deref As) (h.deref (next :: Bs)) t
        rw [length_deref, ← deref_append] at hvs
        simp only [ht, Except.map, Except.ok.injEq, Prod.mk.injEq, hvs] at hok
        refine ⟨h', As ++ lower :: next :: Bs,
          by simp [hm, Except.map, hok.2, ValueSet.insertIdx_append_length], ?_, hheld, hframe,
          fun r hr => ?_, by simp [hne, hnu]⟩
        · rw [← hok.1]
          exact hderef
        · simp only [List.mem_append, List.mem_cons] at hr ⊢
          tauto
    · rw [if_neg hnu] at hok ⊢
      simp only [Except.ok.injEq, Prod.mk.injEq] at hok
      exact ⟨h, _, by rw [hok.2], hok.1, hh, fun _ _ _ => rfl, fun r hr => Or.inl hr, by simpa using hnu⟩

/-- A modified upper bound is inserted. -/
lemma modifyTransition_upper (type : RtlTypeInfo α) {Ps rest : List ℕ} {upper : ℕ}
    (hh : h.Held (Ps ++ rest) other) (hupper : upper ∈ other) (hupper' : upper ∉ Ps ++ rest)
    (hu : (h.object upper).isLowerBound = false) {mask : TransitionMask} {t : ValueTransition α}
    (hmask : mask.gt = true) (ht : (h.object upper).modifyTransition mask = .ok t) :
    ∃ h', h.modifyTransition type upper mask = .ok (h', upper) ∧
      h'.deref (upper :: rest) = t :: h.deref rest ∧
      h'.Held (Ps ++ upper :: rest) other ∧ (∀ r, r ≠ upper → h'.object r = h.object r) ∧
      h'.object upper ≠ h.object upper := by
  obtain ⟨h', hm, hobj, hframe, hheld⟩ := modifyTransition_of_notMem type hh hupper hupper' ht
  refine ⟨h', hm, ?_, hheld.perm List.perm_middle.symm, hframe, fun heq => ?_⟩
  · rw [deref_cons, hobj, deref_congr fun r hr => hframe r ?_]
    rintro rfl
    exact hupper' (by simp [hr])
  · have hm := mask_of_modifyTransition_ok ht
    rw [← hobj, heq] at hm
    simp [isLowerBound, hm, hmask] at hu

/-- The loop of `killRange` on links: it computes the values, and it changes at most the upper
bound. -/
lemma killWalk_sim (Ps rest : List ℕ) {upper : ℕ} {vs : List (ValueTransition α)}
    (hh : h.Held (Ps ++ rest) other) (hupper : upper ∈ other) (hupper' : upper ∉ Ps ++ rest)
    (hu : (h.object upper).isLowerBound = false)
    (hok : ValueSet.killWalk type (h.object upper) (h.deref rest) = .ok vs) :
    ∃ h' rest', killWalk type upper h rest = .ok (h', rest') ∧ h'.deref rest' = vs ∧
      h'.Held (Ps ++ rest') other ∧ (∀ r, r ≠ upper → h'.object r = h.object r) ∧
      (∀ r ∈ rest', r ∈ rest ∨ r = upper) ∧
      (h'.object upper = h.object upper ↔
        modifiesUpper type (h.object upper) (h.deref rest) = false) := by
  induction rest generalizing h with
  | nil =>
    simp only [deref_nil, ValueSet.killWalk, Except.ok.injEq] at hok
    exact ⟨h, [], rfl, hok, hh, fun _ _ => rfl, by simp, by simp [modifiesUpper]⟩
  | cons cur rest ih =>
    -- the bound `cur` is released and the loop goes on
    have hskip : ValueSet.killWalk type (h.object upper) (h.deref rest) = .ok vs →
        ∃ h' rest', killWalk type upper (h.release cur) rest = .ok (h', rest') ∧
          h'.deref rest' = vs ∧ h'.Held (Ps ++ rest') other ∧
          (∀ r, r ≠ upper → h'.object r = h.object r) ∧
          (∀ r ∈ rest', r ∈ cur :: rest ∨ r = upper) ∧
          (h'.object upper = h.object upper ↔
            modifiesUpper type (h.object upper) (h.deref rest) = false) := by
      intro hok
      obtain ⟨h', rest', h₁, h₂, h₃, h₄, h₅, h₆⟩ :=
        ih hh.release (fun hm => hupper' (by simp at hm ⊢; tauto)) hu hok
      exact ⟨h', rest', h₁, h₂, h₃, h₄,
        fun r hr => (h₅ r hr).imp_left (List.mem_cons_of_mem cur), h₆⟩
    simp only [deref_cons, ValueSet.killWalk] at hok
    simp only [killWalk, modifiesUpper, deref_cons]
    rcases lt_trichotomy ((h.object cur).compareRaw type (h.object upper)) 0 with hrc | hrc | hrc
    · simp only [not_lt.2 hrc.le, hrc.ne, if_false] at hok ⊢
      exact hskip hok
    · simp only [hrc, lt_irrefl, if_false, if_true] at hok ⊢
      by_cases hcu : (h.object cur).isUpperBound = true
      · simp only [if_pos hcu] at hok ⊢
        by_cases hinc : ((h.object cur).isInclusiveBound && !(h.object upper).isInclusiveBound) = true
        · simp only [if_pos hinc] at hok ⊢
          cases ht : (h.object upper).modifyTransition CMPge with
          | error e => simp [ht, Except.map] at hok
          | ok t =>
            obtain ⟨h', hm, hderef, hheld, hframe, hne⟩ :=
              modifyTransition_upper type hh hupper hupper' hu rfl ht
            simp only [ht, Except.map, Except.ok.injEq] at hok
            refine ⟨h', upper :: cur :: rest, by simp [hm, Except.map], ?_, hheld, hframe,
              fun r hr => (List.mem_cons.1 hr).symm, by simp [hne, hinc]⟩
            rw [hderef, ← hok]
            rfl
        · rw [if_neg hinc] at hok ⊢
          exact ⟨h.release cur, rest, rfl, by simpa using hok, hh.release, fun _ _ => rfl,
            fun r hr => by simp [hr], by simpa using hinc⟩
      · simp only [if_neg hcu] at hok ⊢
        by_cases hinc : (!(h.object upper).isInclusiveBound) = true
        · simp only [if_pos hinc] at hok ⊢
          exact ⟨h, cur :: rest, rfl, by simpa using hok, hh, fun _ _ => rfl,
            fun r hr => Or.inl hr, by simp⟩
        · simp only [if_neg hinc] at hok ⊢
          exact hskip hok
    · simp only [if_pos hrc] at hok ⊢
      by_cases hcu : (h.object cur).isUpperBound = true
      · simp only [if_pos hcu] at hok ⊢
        cases ht : (h.object upper).modifyTransition
            (if (h.object upper).isInclusiveBound then CMPgt else CMPge) with
        | error e => simp [ht, Except.map] at hok
        | ok t =>
          obtain ⟨h', hm, hderef, hheld, hframe, hne⟩ :=
            modifyTransition_upper type hh hupper hupper' hu
              (by cases (h.object upper).isInclusiveBound <;> rfl) ht
          simp only [ht, Except.map, Except.ok.injEq] at hok
          refine ⟨h', upper :: cur :: rest, by simp [hm, Except.map], ?_, hheld, hframe,
            fun r hr => (List.mem_cons.1 hr).symm, by simp [hne, hcu]⟩
          rw [hderef, ← hok]
          rfl
      · simp only [if_neg hcu] at hok ⊢
        exact ⟨h, cur :: rest, rfl, by simpa using hok, hh, fun _ _ => rfl,
          fun r hr => Or.inl hr, by simpa using hcu⟩

/-- Which of its bounds `killRange` modifies. -/
def rangeModifies (type : RtlTypeInfo α) (ts : List (ValueTransition α))
    (lower upper : ValueTransition α) : Bool × Bool :=
  if ValueSet.isEmptyRange type lower upper then (false, false)
  else
    let low := ValueSet.findLower type ts lower
    match ts[low]? with
    | none => (false, false)
    | some next =>
      (modifiesLower type lower next,
        match ValueSet.killLower type ts lower next low with
        | .error _ => false
        | .ok r => modifiesUpper type upper (r.1.drop r.2))

/-- `killRange` on links computes the values; of the other set it changes only the two bounds that
it was given, and these exactly where it modifies them. -/
lemma killRange_sim {items : List ℕ} {lower upper : ℕ} {vs : List (ValueTransition α)}
    (hh : h.Held items other) (hlower : lower ∈ other) (hupper : upper ∈ other)
    (hlower' : lower ∉ items) (hupper' : upper ∉ items) (hne : lower ≠ upper)
    (hl : (h.object lower).isLowerBound = true) (hu : (h.object upper).isUpperBound = true)
    (hu' : (h.object upper).isLowerBound = false)
    (hfull : ∀ r ∈ items, (h.object r).subLength = MatchFullString)
    (hok : ValueSet.killRange type (h.deref items) (some (h.object lower))
      (some (h.object upper)) = .ok vs) :
    ∃ h' items', h.killRange type items lower upper = .ok (h', items') ∧
      h'.deref items' = vs ∧ h'.Held items' other ∧
      (∀ r ∈ other, r ≠ lower → r ≠ upper → h'.object r = h.object r) ∧
      (∀ r ∈ items', r ∈ items ∨ r = lower ∨ r = upper ∨ r ∉ other) ∧
      (h'.object lower = h.object lower ∧ h'.object upper = h.object upper ↔
        rangeModifies type (h.deref items) (h.object lower) (h.object upper) = (false, false)) := by
  unfold ValueSet.killRange at hok
  unfold killRange rangeModifies
  simp only [Option.getD_some, hl, hu, Bool.not_true, Bool.or_false, Bool.false_eq_true,
    if_false] at hok ⊢
  by_cases hempty : ValueSet.isEmptyRange type (h.object lower) (h.object upper) = true
  · rw [if_pos hempty] at hok
    rw [if_pos hempty, if_pos hempty]
    exact ⟨h, items, rfl, by simpa using hok, hh, fun _ _ _ _ => rfl, fun r hr => Or.inl hr, by simp⟩
  rw [if_neg hempty] at hok
  rw [if_neg hempty, if_neg hempty]
  generalize ValueSet.findLower type (h.deref items) (h.object lower) = low at hok ⊢
  have hget : (h.deref items)[low]? = items[low]?.map h.object := List.getElem?_map
  cases hn : items[low]? with
  | none =>
    rw [hn] at hget
    simp only [hget, Option.map_none] at hok ⊢
    exact ⟨h, items, rfl, by simpa using hok, hh, fun _ _ _ _ => rfl, fun r hr => Or.inl hr, by simp⟩
  | some next =>
    rw [hn] at hget
    simp only [hget, Option.map_some] at hok ⊢
    -- the array as seen from the transition that was found
    obtain ⟨As, Bs, rfl, rfl⟩ : ∃ As Bs, items = As ++ next :: Bs ∧ low = As.length := by
      obtain ⟨hlow, rfl⟩ := List.getElem?_eq_some_iff.1 hn
      refine ⟨items.take low, items.drop (low + 1), ?_, by simp; omega⟩
      rw [← List.drop_eq_getElem_cons, List.take_append_drop]
    cases hkill : ValueSet.killLower type (h.deref (As ++ next :: Bs)) (h.object lower)
        (h.object next) As.length with
    | error e => simp only [hkill, Except.bind, reduceCtorEq] at hok
    | ok r =>
      obtain ⟨us, idx⟩ := r
      simp only [hkill, Except.bind] at hok
      obtain ⟨h₁, items₁, hk₁, rfl, hh₁, hframe₁, hmem₁, hmod₁⟩ :=
        killLower_sim hh hlower hlower' hl (hfull next (by simp)) hkill
      have hsplit : items₁.take idx ++ items₁.drop idx = items₁ := List.take_append_drop _ _
      have hup₁ : h₁.object upper = h.object upper := hframe₁ upper hupper hne.symm
      have hupper₁ : upper ∉ items₁ := fun hm => by
        rcases hmem₁ upper hm with hm | hm | hm
        · exact hupper' hm
        · exact hne hm.symm
        · exact hm hupper
      have hdrop : (h₁.deref items₁).drop idx = h₁.deref (items₁.drop idx) := List.map_drop.symm
      have htake : (h₁.deref items₁).take idx = h₁.deref (items₁.take idx) := List.map_take.symm
      rw [hdrop, htake] at hok
      cases hwalk : ValueSet.killWalk type (h.object upper) (h₁.deref (items₁.drop idx)) with
      | error e => simp [hwalk, Except.map] at hok
      | ok ws =>
        simp only [hwalk, Except.map, Except.ok.injEq] at hok
        obtain ⟨h₂, rest, hk₂, rfl, hh₂, hframe₂, hmem₂, hmod₂⟩ :=
          killWalk_sim (items₁.take idx) (items₁.drop idx) (by rwa [hsplit]) hupper
            (by rwa [hsplit]) (by rwa [hup₁]) (by rwa [hup₁])
        rw [hup₁] at hmod₂
        refine ⟨h₂, items₁.take idx ++ rest, by simp [hk₁, hk₂, Except.bind, Except.map], ?_, hh₂,
          fun r hr h₃ h₄ => (hframe₂ r h₄).trans (hframe₁ r hr h₃), fun r hr => ?_, ?_⟩
        · rw [← hok, deref_append, deref_congr fun r hr => hframe₂ r ?_]
          rintro rfl
          exact hupper₁ (List.mem_of_mem_take hr)
        · rcases List.mem_append.1 hr with hr | hr
          · have := hmem₁ r (List.mem_of_mem_take hr)
            tauto
          · rcases hmem₂ r hr with hr | hr
            · have := hmem₁ r (List.mem_of_mem_drop hr)
              tauto
            · tauto
        · rw [hframe₂ lower hne, hmod₁, hmod₂]
          simp [hdrop]

end Simulation

end Heap

end HpccPlatform
