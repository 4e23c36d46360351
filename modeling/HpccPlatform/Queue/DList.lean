import HpccPlatform.Library.DoublyLinked

/-!
# The doubly linked queue

`DListOf` of `system/jlib/jqueue.hpp`, whose links are the `next` and `prev` fields of its elements.
The head is the newest element.
-/

namespace DListOf

open DoublyLinked LinkedListOf

variable {ι : Type*} [DecidableEq ι]

/-- `enqueueHead`; the assertion that the element has no links fails with `none`. -/
def enqueueHead (l : LinkedListOf ι) (element : ι) : Option (LinkedListOf ι) :=
  if l.next element = none ∧ l.prev element = none then
    match l.head with
    | some head => some { l with
        prev := Function.update l.prev head (some element)
        next := Function.update l.next element (some head)
        head := some element
        numEntries := l.numEntries + 1 }
    | none => some { l with
        head := some element
        tail := some element
        numEntries := l.numEntries + 1 }
  else none

/-- `remove`; the assertion is that the element has a link or is the head. -/
def dequeue (l : LinkedListOf ι) (element : ι) : Option (LinkedListOf ι) :=
  let next := l.next element
  let prev := l.prev element
  if prev ≠ none ∨ next ≠ none ∨ some element = l.head then
    some {
      head := if some element = l.head then next else l.head
      tail := if some element = l.tail then prev else l.tail
      numEntries := l.numEntries - 1
      prev := Function.update
        (match next with
          | some behind => Function.update l.prev behind prev
          | none => l.prev) element none
      next := Function.update
        (match prev with
          | some before => Function.update l.next before next
          | none => l.next) element none }
  else none

def dequeueTail (l : LinkedListOf ι) : Option (ι × LinkedListOf ι) :=
  match l.tail with
  | none => none
  | some element =>
    let prev := l.prev element
    some (element, {
      head := if some element = l.head then none else l.head
      tail := prev
      numEntries := l.numEntries - 1
      next :=
        match prev with
        | some before => Function.update l.next before none
        | none => l.next
      prev := Function.update l.prev element none })

variable {l : LinkedListOf ι} {xs before behind : List ι} {x : ι}

/-- Putting an element at the head is appending it to the list read from its tail. -/
theorem enqueueHead_eq (h : Represents l xs) (hx : x ∉ xs) :
    enqueueHead l x = (l.reverse.append x).map LinkedListOf.reverse := by
  obtain ⟨hprev, hnext⟩ := h.outside x hx
  have hfree := (h.reverse.next_eq_none_iff (x := x)).mpr (by rwa [List.mem_reverse])
  unfold enqueueHead append
  rw [if_pos ⟨hnext, hprev⟩, if_pos hfree]
  cases hhead : l.head with
  | none =>
    rw [show l.reverse.tail = none from hhead]
    rfl
  | some head =>
    rw [show l.reverse.tail = some head from hhead]
    rfl

theorem enqueueHead_spec (h : Represents l xs) (hx : x ∉ xs) :
    ∃ l', enqueueHead l x = some l' ∧ Represents l' (x :: xs) := by
  obtain ⟨l', happend, hl'⟩ := h.reverse.append_eq (x := x) (by rwa [List.mem_reverse])
  refine ⟨l'.reverse, ?_, ?_⟩
  · rw [enqueueHead_eq h hx, happend]
    rfl
  · have hback := hl'.reverse
    rwa [List.reverse_append, List.reverse_reverse] at hback

omit [DecidableEq ι] in
/-- A member is the head when nothing is before it. -/
theorem head_iff (h : Represents l (before ++ x :: behind)) :
    some x = l.head ↔ l.prev x = none := by
  rw [(h.links before x behind rfl).1, h.head]
  cases before with
  | nil => exact ⟨fun _ => rfl, fun _ => rfl⟩
  | cons w ws =>
    have hne : w ≠ x := by
      intro heq
      have hdup := h.nodup
      rw [heq, List.cons_append] at hdup
      exact (List.nodup_cons.mp hdup).1 (List.mem_append_right ws List.mem_cons_self)
    constructor
    · intro heq
      exact absurd (Option.some.inj heq).symm hne
    · intro hnone
      exact absurd (List.getLast?_eq_none_iff.mp hnone) (List.cons_ne_nil w ws)

omit [DecidableEq ι] in
/-- A member is the tail when nothing is behind it. -/
theorem tail_iff (h : Represents l (before ++ x :: behind)) :
    some x = l.tail ↔ l.next x = none := by
  have hback := h.reverse
  rw [List.reverse_append, List.reverse_cons, List.append_assoc] at hback
  exact head_iff hback

theorem dequeue_eq (h : Represents l (before ++ x :: behind)) :
    dequeue l x = some (l.remove x) := by
  have hhead := head_iff h
  have htail := tail_iff h
  have hlinked : l.prev x ≠ none ∨ l.next x ≠ none ∨ some x = l.head := by
    by_cases hprev : l.prev x = none
    · exact Or.inr (Or.inr (hhead.mpr hprev))
    · exact Or.inl hprev
  unfold dequeue
  dsimp only
  rw [if_pos hlinked]
  simp only [hhead, htail]
  rfl

theorem dequeue_spec (h : Represents l xs) (hx : x ∈ xs) :
    ∃ l', dequeue l x = some l' ∧ Represents l' (xs.filter fun y => y ≠ x) := by
  refine ⟨l.remove x, ?_, h.remove_filter hx⟩
  obtain ⟨before, behind, rfl⟩ := List.append_of_mem hx
  exact dequeue_eq h

theorem dequeueTail_empty (h : Represents l []) : dequeueTail l = none := by
  unfold dequeueTail
  rw [h.tail]
  rfl

/-- The tail is removed as any member is. -/
theorem dequeueTail_spec (h : Represents l (xs ++ [x])) :
    ∃ l', dequeueTail l = some (x, l') ∧ Represents l' xs := by
  have hlast : l.tail = some x := by
    rw [h.tail]
    exact List.getLast?_concat
  have hnext : l.next x = none := (tail_iff h).mp hlast.symm
  refine ⟨l.remove x, ?_, ?_⟩
  · have hhead := head_iff h
    unfold dequeueTail LinkedListOf.remove
    rw [hlast]
    simp only [hhead, hnext, if_true]
    have hkeep : ∀ f : ι → Option ι, f x = none → Function.update f x none = f :=
      fun f hf => Function.update_eq_self_iff.mpr hf.symm
    cases hprev : l.prev x with
    | none =>
      dsimp only
      rw [hkeep l.next hnext]
    | some w =>
      dsimp only
      rw [hkeep (Function.update l.next w none)]
      by_cases hxw : x = w
      · rw [hxw, Function.update_self]
      · rw [Function.update_of_ne hxw, hnext]
  · have hrest := h.remove
    rwa [List.append_nil] at hrest

end DListOf
