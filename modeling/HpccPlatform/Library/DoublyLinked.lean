import Mathlib.Tactic

/-!
# Doubly linked lists whose links are in the members

A list has a head, a tail and a count, and every object that may be a member has a link to the one
before it and a link to the one behind it.  `Represents l xs` says that the list consists of the
objects `xs`, in this order, and that no other object has a link.  An object can be appended when it
is not a member, and removed when it is.
-/

namespace DoublyLinked

/-- The list and the links of all objects. -/
structure LinkedListOf (ι : Type*) where
  head : Option ι
  tail : Option ι
  numEntries : ℕ
  prev : ι → Option ι
  next : ι → Option ι

namespace LinkedListOf

variable {ι : Type*}

def empty : LinkedListOf ι := ⟨none, none, 0, fun _ => none, fun _ => none⟩

/-- An object with a link forwards, or that is the tail, cannot be appended. -/
def append [DecidableEq ι] (l : LinkedListOf ι) (x : ι) : Option (LinkedListOf ι) :=
  if l.next x = none ∧ some x ≠ l.tail then
    match l.tail with
    | some tail => some { l with
        next := Function.update l.next tail (some x)
        prev := Function.update l.prev x (some tail)
        tail := some x
        numEntries := l.numEntries + 1 }
    | none => some { l with
        head := some x
        tail := some x
        numEntries := l.numEntries + 1 }
  else none

def remove [DecidableEq ι] (l : LinkedListOf ι) (x : ι) : LinkedListOf ι where
  head := if l.prev x = none then l.next x else l.head
  tail := if l.next x = none then l.prev x else l.tail
  numEntries := l.numEntries - 1
  next := Function.update
    (match l.prev x with
      | some before => Function.update l.next before (l.next x)
      | none => l.next) x none
  prev := Function.update
    (match l.next x with
      | some behind => Function.update l.prev behind (l.prev x)
      | none => l.prev) x none

/-- The list has the members `xs`. -/
structure Represents (l : LinkedListOf ι) (xs : List ι) : Prop where
  nodup : xs.Nodup
  head : l.head = xs.head?
  tail : l.tail = xs.getLast?
  numEntries : l.numEntries = xs.length
  links : ∀ before x behind, xs = before ++ x :: behind →
    l.prev x = before.getLast? ∧ l.next x = behind.head?
  outside : ∀ x ∉ xs, l.prev x = none ∧ l.next x = none

variable {l : LinkedListOf ι} {xs before behind : List ι} {x y : ι}

theorem represents_empty : Represents (empty : LinkedListOf ι) [] where
  nodup := List.nodup_nil
  head := rfl
  tail := rfl
  numEntries := rfl
  links before x behind h := by
    cases before with
    | nil => cases h
    | cons _ _ => cases h
  outside _ _ := ⟨rfl, rfl⟩

/-- An object can be appended exactly when it is not a member. -/
theorem Represents.next_eq_none_iff (h : Represents l xs) :
    (l.next x = none ∧ some x ≠ l.tail) ↔ x ∉ xs := by
  rw [h.tail]
  constructor
  · rintro ⟨hnext, hlast⟩ hmem
    obtain ⟨before, behind, rfl⟩ := List.append_of_mem hmem
    rw [(h.links _ _ _ rfl).2, List.head?_eq_none_iff] at hnext
    rw [hnext, List.getLast?_concat] at hlast
    exact hlast rfl
  · intro hmem
    refine ⟨(h.outside x hmem).2, ?_⟩
    intro hlast
    exact hmem (List.mem_of_getLast? hlast.symm)

/-- Where an object stands in a list that ends with another one. -/
theorem append_singleton_eq_append_cons {z : ι} (h : xs ++ [z] = before ++ x :: behind) :
    (behind = [] ∧ x = z ∧ before = xs) ∨
      ∃ rest, behind = rest ++ [z] ∧ xs = before ++ x :: rest := by
  rcases List.eq_nil_or_concat behind with rfl | ⟨rest, w, rfl⟩
  · obtain ⟨hfront, hlast⟩ := List.append_inj' h rfl
    exact Or.inl ⟨rfl, (List.cons.inj hlast).1.symm, hfront.symm⟩
  · rw [List.concat_eq_append] at h ⊢
    rw [← List.cons_append, ← List.append_assoc] at h
    obtain ⟨hfront, hlast⟩ := List.append_inj' h rfl
    rw [(List.cons.inj hlast).1]
    exact Or.inr ⟨rest, rfl, hfront⟩

theorem getLast?_append_cons (xs ys : List ι) (x : ι) :
    (xs ++ x :: ys).getLast? = (x :: ys).getLast? := by
  rw [List.getLast?_append, List.getLast?_cons]
  rfl

/-- The head of a list with members. -/
theorem Represents.head_cons (h : Represents l (x :: xs)) : l.head = some x ∧ l.next x = xs.head? :=
  ⟨h.head, (h.links [] x xs rfl).2⟩

/-! ### The list in the other direction -/

/-- The same list, read from its tail. -/
def reverse (l : LinkedListOf ι) : LinkedListOf ι where
  head := l.tail
  tail := l.head
  numEntries := l.numEntries
  prev := l.next
  next := l.prev

theorem Represents.reverse (h : Represents l xs) : Represents l.reverse xs.reverse where
  nodup := List.nodup_reverse.mpr h.nodup
  head := by
    rw [List.head?_reverse]
    exact h.tail
  tail := by
    rw [List.getLast?_reverse]
    exact h.head
  numEntries := by
    rw [List.length_reverse]
    exact h.numEntries
  links before x behind heq := by
    have hxs : xs = behind.reverse ++ x :: before.reverse := by
      rw [← List.reverse_reverse xs, heq, List.reverse_append, List.reverse_cons, List.append_assoc]
      rfl
    obtain ⟨hprev, hnext⟩ := h.links _ _ _ hxs
    rw [List.head?_reverse] at hnext
    rw [List.getLast?_reverse] at hprev
    exact ⟨hnext, hprev⟩
  outside x hx := by
    rw [List.mem_reverse] at hx
    exact (h.outside x hx).symm

/-! ### Walking along the links -/

/-- The objects from `x` on, at most `fuel` of them. -/
def walk (next : ι → Option ι) : ℕ → Option ι → List ι
  | 0, _ => []
  | _ + 1, none => []
  | fuel + 1, some x => x :: walk next fuel (next x)

/-- The members that a walk from the head finds. -/
def members (l : LinkedListOf ι) : List ι := walk l.next l.numEntries l.head

theorem walk_eq (before : List ι) (h : Represents l (before ++ behind)) :
    walk l.next behind.length behind.head? = behind := by
  induction behind generalizing before with
  | nil => rfl
  | cons x behind ih =>
    have hnext : Represents l ((before ++ [x]) ++ behind) := by
      rw [List.append_assoc]
      exact h
    rw [List.length_cons, List.head?_cons, walk, (h.links before x behind rfl).2, ih _ hnext]

theorem Represents.members_eq (h : Represents l xs) : l.members = xs := by
  rw [members, h.numEntries, h.head]
  exact walk_eq [] h

variable [DecidableEq ι]

theorem Represents.append_eq (h : Represents l xs) (hmem : x ∉ xs) :
    ∃ l', l.append x = some l' ∧ Represents l' (xs ++ [x]) := by
  have hnodup : (xs ++ [x]).Nodup := by
    rw [List.nodup_append]
    refine ⟨h.nodup, List.nodup_singleton x, ?_⟩
    intro y hy z hz
    rw [List.mem_singleton.mp hz]
    intro heq
    exact hmem (heq ▸ hy)
  unfold append
  rw [if_pos (h.next_eq_none_iff.mpr hmem), h.tail]
  rcases List.eq_nil_or_concat xs with rfl | ⟨ys, tail, rfl⟩
  · -- the list was empty
    refine ⟨_, rfl, hnodup, rfl, rfl, ?_, ?_, ?_⟩
    · dsimp only
      rw [h.numEntries]
      rfl
    · intro before y behind heq
      obtain ⟨rfl, rfl, rfl⟩ | ⟨rest, -, hnil⟩ := append_singleton_eq_append_cons heq
      · exact h.outside y hmem
      · exact absurd hnil.symm (List.append_ne_nil_of_right_ne_nil _ (List.cons_ne_nil _ _))
    · intro y _
      exact h.outside y List.not_mem_nil
  · rw [List.concat_eq_append] at h hmem hnodup ⊢
    rw [List.getLast?_concat]
    have htail : x ≠ tail := by
      intro heq
      exact hmem (heq ▸ List.mem_append_right _ (List.mem_singleton_self _))
    refine ⟨_, rfl, hnodup, ?_, ?_, ?_, ?_, ?_⟩
    · dsimp only
      rw [h.head, List.append_assoc]
      cases ys <;> rfl
    · exact List.getLast?_concat.symm
    · dsimp only
      rw [h.numEntries, List.length_append, List.length_append, List.length_append]
      rfl
    · intro before y behind heq
      dsimp only
      obtain ⟨rfl, rfl, rfl⟩ | ⟨rest, rfl, hys⟩ := append_singleton_eq_append_cons heq
      · rw [Function.update_self, Function.update_of_ne htail, (h.outside y hmem).2,
          List.getLast?_concat]
        exact ⟨rfl, rfl⟩
      · have hyx : y ≠ x := by
          intro heq
          rw [hys, heq] at hmem
          exact hmem (List.mem_append_right _ List.mem_cons_self)
        obtain ⟨hprev, hnext⟩ := h.links before y rest hys
        rw [Function.update_of_ne hyx]
        refine ⟨hprev, ?_⟩
        obtain ⟨rfl, rfl, rfl⟩ | ⟨rest', rfl, -⟩ := append_singleton_eq_append_cons hys
        · rw [Function.update_self]
          rfl
        · have hyt : y ≠ tail := by
            intro heq
            have hdup := h.nodup
            rw [hys, heq, List.nodup_append] at hdup
            exact (List.nodup_cons.mp hdup.2.1).1 (List.mem_append_right _ (List.mem_singleton_self _))
          rw [Function.update_of_ne hyt, hnext]
          cases rest' <;> rfl
    · intro y hy
      rw [List.mem_append, not_or, List.mem_singleton] at hy
      obtain ⟨hprev, hnext⟩ := h.outside y hy.1
      have hyt : y ≠ tail := by
        intro heq
        exact hy.1 (heq ▸ List.mem_append_right _ (List.mem_singleton_self _))
      dsimp only
      rw [Function.update_of_ne hy.2, Function.update_of_ne hyt]
      exact ⟨hprev, hnext⟩

/-! ### Removing a member -/

theorem exists_represents (hnodup : xs.Nodup) :
    ∃ l : LinkedListOf ι, Represents l xs := by
  induction xs using List.reverseRecOn with
  | nil => exact ⟨empty, represents_empty⟩
  | append_singleton xs x ih =>
    rw [List.nodup_append] at hnodup
    obtain ⟨hnodup, -, hdisjoint⟩ := hnodup
    obtain ⟨l, hl⟩ := ih hnodup
    obtain ⟨l', -, hl'⟩ := hl.append_eq
      (fun hmem => hdisjoint x hmem x (List.mem_singleton_self x) rfl)
    exact ⟨l', hl'⟩

theorem prev_remove (l : LinkedListOf ι) (x y : ι) :
    (l.remove x).prev y =
      if y = x then none else if l.next x = some y then l.prev x else l.prev y := by
  unfold remove
  dsimp only
  by_cases hyx : y = x
  · rw [if_pos hyx, hyx, Function.update_self]
  · rw [if_neg hyx, Function.update_of_ne hyx]
    cases hnext : l.next x with
    | none => rw [if_neg (Option.some_ne_none y).symm]
    | some z =>
      dsimp only
      by_cases hyz : y = z
      · rw [hyz, Function.update_self, if_pos rfl]
      · rw [Function.update_of_ne hyz, if_neg (fun heq => hyz (Option.some.inj heq).symm)]

theorem next_remove (l : LinkedListOf ι) (x y : ι) :
    (l.remove x).next y =
      if y = x then none else if l.prev x = some y then l.next x else l.next y := by
  unfold remove
  dsimp only
  by_cases hyx : y = x
  · rw [if_pos hyx, hyx, Function.update_self]
  · rw [if_neg hyx, Function.update_of_ne hyx]
    cases hprev : l.prev x with
    | none => rw [if_neg (Option.some_ne_none y).symm]
    | some z =>
      dsimp only
      by_cases hyz : y = z
      · rw [hyz, Function.update_self, if_pos rfl]
      · rw [Function.update_of_ne hyz, if_neg (fun heq => hyz (Option.some.inj heq).symm)]

/-- The other members stay, in their order. -/
theorem Represents.remove (h : Represents l (before ++ x :: behind)) :
    Represents (l.remove x) (before ++ behind) := by
  obtain ⟨hprev, hnext⟩ := h.links before x behind rfl
  have hnodup := h.nodup
  rw [List.nodup_append, List.nodup_cons] at hnodup
  obtain ⟨hbefore, ⟨hx, hbehind⟩, hdisj⟩ := hnodup
  have hxbefore : x ∉ before := fun hmem => hdisj x hmem x List.mem_cons_self rfl
  refine ⟨?_, ?_, ?_, ?_, ?_, ?_⟩
  · rw [List.nodup_append]
    exact ⟨hbefore, hbehind, fun y hy z hz => hdisj y hy z (List.mem_cons_of_mem x hz)⟩
  · unfold LinkedListOf.remove
    dsimp only
    rw [hprev, hnext, h.head]
    cases before with
    | nil => rfl
    | cons w ws =>
      rw [if_neg]
      · rfl
      · intro hnone
        exact List.cons_ne_nil w ws (List.getLast?_eq_none_iff.mp hnone)
  · unfold LinkedListOf.remove
    dsimp only
    rw [hprev, hnext, h.tail]
    cases behind with
    | nil =>
      rw [List.head?_nil, if_pos rfl, List.append_nil]
    | cons z zs =>
      rw [List.head?_cons, if_neg (Option.some_ne_none z), getLast?_append_cons,
        getLast?_append_cons]
      rfl
  · unfold LinkedListOf.remove
    dsimp only
    rw [h.numEntries, List.length_append, List.length_append, List.length_cons]
    omega
  · intro p y q heq
    rw [prev_remove, next_remove, hprev, hnext]
    rcases List.append_eq_append_iff.mp heq with ⟨c, rfl, hq⟩ | ⟨c, rfl, hq⟩
    · -- a member behind the one that is removed
      have hy : y ∈ behind := hq ▸ List.mem_append_right c List.mem_cons_self
      have hyx : y ≠ x := fun heq => hx (heq ▸ hy)
      have hlast : before.getLast? ≠ some y := by
        intro heq
        exact hdisj y (List.mem_of_getLast? heq) y (List.mem_cons_of_mem x hy) rfl
      have hlinks := h.links (before ++ x :: c) y q (by rw [hq]; simp)
      rw [if_neg hyx, if_neg hyx, if_neg hlast, hlinks.1, hlinks.2]
      refine ⟨?_, rfl⟩
      cases c with
      | nil =>
        rw [hq, List.append_nil]
        exact if_pos rfl
      | cons z zs =>
        rw [if_neg, getLast?_append_cons, getLast?_append_cons]
        · rfl
        · intro heq
          rw [hq] at heq hbehind
          have hzy : z = y := Option.some.inj heq
          rw [hzy] at hbehind
          exact (List.nodup_cons.mp hbehind).1 (List.mem_append_right zs List.mem_cons_self)
    · cases c with
      | nil =>
        -- the first member behind the one that is removed
        rw [List.nil_append] at hq
        rw [List.append_nil] at hxbefore hdisj ⊢
        have hy : y ∈ behind := hq ▸ List.mem_cons_self
        have hyx : y ≠ x := fun heq => hx (heq ▸ hy)
        have hlast : p.getLast? ≠ some y := by
          intro heq
          exact hdisj y (List.mem_of_getLast? heq) y (List.mem_cons_of_mem x hy) rfl
        rw [if_neg hyx, if_neg hyx, if_neg hlast, ← hq, List.head?_cons, if_pos rfl]
        refine ⟨rfl, ?_⟩
        exact (h.links (p ++ [] ++ [x]) y q (by rw [← hq]; simp)).2
      | cons z zs =>
        obtain ⟨rfl, rfl⟩ := List.cons.inj hq
        have hy : y ∈ p ++ y :: zs := List.mem_append_right p List.mem_cons_self
        have hyx : y ≠ x := fun heq => hxbefore (heq ▸ hy)
        have hhead : behind.head? ≠ some y := by
          intro heq
          exact hdisj y hy y (List.mem_cons_of_mem x (List.mem_of_head? heq)) rfl
        have hlinks := h.links p y (zs ++ x :: behind) (by simp)
        rw [if_neg hyx, if_neg hyx, if_neg hhead, hlinks.1, hlinks.2, getLast?_append_cons]
        refine ⟨rfl, ?_⟩
        cases zs with
        | nil => exact if_pos rfl
        | cons w ws =>
          rw [if_neg]
          · rfl
          · intro heq
            rw [List.getLast?_cons_cons] at heq
            rw [List.nodup_append] at hbefore
            exact (List.nodup_cons.mp hbefore.2.1).1 (List.mem_of_getLast? heq)
  · intro y hy
    rw [prev_remove, next_remove, hprev, hnext]
    rw [List.mem_append, not_or] at hy
    by_cases hyx : y = x
    · exact ⟨if_pos hyx, if_pos hyx⟩
    · have houtside := h.outside y (by
        rw [List.mem_append, List.mem_cons, not_or, not_or]
        exact ⟨hy.1, hyx, hy.2⟩)
      rw [if_neg hyx, if_neg hyx, if_neg, if_neg]
      · exact houtside
      · intro heq
        exact hy.1 (List.mem_of_getLast? heq)
      · intro heq
        exact hy.2 (List.mem_of_head? heq)

/-- What is left when a member is removed. -/
theorem Represents.remove_filter (h : Represents l xs) (hx : x ∈ xs) :
    Represents (l.remove x) (xs.filter fun y => y ≠ x) := by
  obtain ⟨before, behind, rfl⟩ := List.append_of_mem hx
  have hnodup := List.nodup_append.mp h.nodup
  have hbefore : before.filter (fun y => y ≠ x) = before := by
    rw [List.filter_eq_self]
    intro y hy
    exact decide_eq_true (hnodup.2.2 y hy x List.mem_cons_self)
  have hbehind : behind.filter (fun y => y ≠ x) = behind := by
    rw [List.filter_eq_self]
    intro y hy
    apply decide_eq_true
    intro heq
    exact (List.nodup_cons.mp hnodup.2.1).1 (heq ▸ hy)
  rw [List.filter_append, List.filter_cons_of_neg (by rw [decide_eq_true_iff]; exact not_not.mpr rfl),
    hbefore, hbehind]
  exact h.remove

end LinkedListOf

end DoublyLinked
