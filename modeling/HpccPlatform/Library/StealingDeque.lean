import Mathlib.Tactic

/-!
# What a work-stealing stack is for

One thread, the owner, pushes items and pops the last one; other threads, the thieves, steal the
first one.  `Step` says what may be seen of a call: an item that is popped is the last one at that
moment, an item that is stolen the first one, and a call comes back without an item only if the
stack was empty at some moment of the call.  Whatever is seen of the calls, no item is lost and
none is handed out twice.
-/

namespace StealingDeque

/-- What is seen of a step.  A call of the owner is one of the thread `none`. -/
inductive Label (ι τ : Type*) where
  | internal
  | call (thread : Option ι)
  | pushed (t : τ)
  | popped (t : Option τ)
  | stolen (i : ι) (t : Option τ)

/-- What has happened since a call began: the number of operations that took effect, and whether
the stack was empty. -/
structure Call where
  operations : ℕ
  sawEmpty : Prop

/-- The items in their order, what has been pushed and handed out, and the calls that are not
finished. -/
structure Observed (ι τ : Type*) where
  deque : List τ
  pushed : List τ
  returned : List τ
  calls : Option ι → Option Call

namespace Observed

variable {ι τ : Type*}

def new : Observed ι τ := ⟨[], [], [], fun _ => none⟩

/-- What was pushed has been handed out once or is still there. -/
def Conserved (o : Observed ι τ) : Prop := o.pushed.Perm (o.returned ++ o.deque)

/-- A call that is not finished while the stack is empty has seen that. -/
def Noticed (o : Observed ι τ) : Prop :=
  ∀ thread c, o.calls thread = some c → o.deque = [] → c.sawEmpty

/-- Fewer operations than `bound` took effect in any steal so far. -/
def FewerThan (bound : ℕ) (o : Observed ι τ) : Prop :=
  ∀ i c, o.calls (some i) = some c → c.operations < bound

theorem conserved_new : Conserved (new : Observed ι τ) := List.Perm.refl []

theorem noticed_new : Noticed (new : Observed ι τ) := by
  intro thread c hcall
  cases hcall

theorem fewerThan_new (bound : ℕ) : FewerThan bound (new : Observed ι τ) := by
  intro i c hcall
  cases hcall

variable [DecidableEq ι]

/-- A call begins. -/
def begin (o : Observed ι τ) (thread : Option ι) : Observed ι τ :=
  { o with calls := Function.update o.calls thread (some ⟨0, o.deque = []⟩) }

/-- A call comes to its end. -/
def finish (o : Observed ι τ) (thread : Option ι) : Observed ι τ :=
  { o with calls := Function.update o.calls thread none }

/-- An operation of a thread takes effect, which the other calls notice. -/
def effect (o : Observed ι τ) (thread : Option ι) (deque pushed returned : List τ) :
    Observed ι τ where
  deque := deque
  pushed := pushed
  returned := returned
  calls := Function.update
    (fun i => (o.calls i).map fun c => ⟨c.operations + 1, c.sawEmpty ∨ deque = []⟩) thread none

theorem calls_effect_of_ne (o : Observed ι τ) {thread thread' : Option ι} (h : thread' ≠ thread)
    (deque pushed returned : List τ) :
    (o.effect thread deque pushed returned).calls thread' =
      (o.calls thread').map fun c => ⟨c.operations + 1, c.sawEmpty ∨ deque = []⟩ := by
  unfold effect
  dsimp only
  rw [Function.update_of_ne h]

/-- What may be seen. -/
inductive Step : Observed ι τ → Label ι τ → Observed ι τ → Prop
  | internal (o : Observed ι τ) : Step o .internal o
  | call (o : Observed ι τ) (thread : Option ι) : Step o (.call thread) (o.begin thread)
  | pushed (o : Observed ι τ) (t : τ) :
    Step o (.pushed t) (o.effect none (o.deque ++ [t]) (t :: o.pushed) o.returned)
  | popped (o : Observed ι τ) (xs : List τ) (t : τ) : o.deque = xs ++ [t] →
    Step o (.popped (some t)) (o.effect none xs o.pushed (t :: o.returned))
  | popped_none (o : Observed ι τ) (c : Call) : o.calls none = some c → c.sawEmpty →
    Step o (.popped none) (o.finish none)
  | stolen (o : Observed ι τ) (i : ι) (xs : List τ) (t : τ) : o.deque = t :: xs →
    Step o (.stolen i (some t)) (o.effect (some i) xs o.pushed (t :: o.returned))
  | stolen_none (o : Observed ι τ) (i : ι) (c : Call) : o.calls (some i) = some c → c.sawEmpty →
    Step o (.stolen i none) (o.finish (some i))

theorem Step.conserved {o o' : Observed ι τ} {label : Label ι τ} (hstep : Step o label o')
    (h : o.Conserved) : o'.Conserved := by
  cases hstep with
  | internal => exact h
  | call thread => exact h
  | pushed t =>
    unfold Conserved effect
    dsimp only
    rw [← List.append_assoc]
    exact (h.cons t).trans (List.perm_append_singleton t _).symm
  | popped xs t hdeque =>
    unfold Conserved effect at *
    dsimp only
    rw [hdeque, ← List.append_assoc] at h
    exact h.trans (List.perm_append_singleton t _)
  | popped_none c => exact h
  | stolen i xs t hdeque =>
    unfold Conserved effect at *
    dsimp only
    rw [hdeque] at h
    exact h.trans List.perm_middle
  | stolen_none i c => exact h

theorem noticed_finish {o : Observed ι τ} (h : o.Noticed) (thread : Option ι) :
    (o.finish thread).Noticed := by
  intro thread' c hcall
  unfold finish at hcall
  dsimp only at hcall
  by_cases heq : thread' = thread
  · rw [heq, Function.update_self] at hcall
    cases hcall
  · rw [Function.update_of_ne heq] at hcall
    exact h thread' c hcall

theorem noticed_effect (o : Observed ι τ) (thread : Option ι) (deque pushed returned : List τ) :
    (o.effect thread deque pushed returned).Noticed := by
  intro thread' c hcall hempty
  unfold effect at hcall
  dsimp only at hcall
  by_cases heq : thread' = thread
  · rw [heq, Function.update_self] at hcall
    cases hcall
  · rw [Function.update_of_ne heq, Option.map_eq_some_iff] at hcall
    obtain ⟨c, -, rfl⟩ := hcall
    exact Or.inr hempty

theorem Step.noticed {o o' : Observed ι τ} {label : Label ι τ} (hstep : Step o label o')
    (h : o.Noticed) : o'.Noticed := by
  cases hstep with
  | internal => exact h
  | call thread =>
    intro thread' c hcall hempty
    unfold begin at hcall
    dsimp only at hcall
    by_cases heq : thread' = thread
    · rw [heq, Function.update_self] at hcall
      rw [← Option.some.inj hcall]
      exact hempty
    · rw [Function.update_of_ne heq] at hcall
      exact h thread' c hcall hempty
  | pushed t => exact noticed_effect o none _ _ _
  | popped xs t hdeque => exact noticed_effect o none _ _ _
  | popped_none c => exact noticed_finish h none
  | stolen i xs t hdeque => exact noticed_effect o (some i) _ _ _
  | stolen_none i c => exact noticed_finish h (some i)

end Observed

end StealingDeque
