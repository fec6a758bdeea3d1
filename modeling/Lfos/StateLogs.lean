import Mathlib.Logic.Relation
import Mathlib.Data.List.Basic

/-!
# Logged states

Slots have states that change along the arrows of a graph, and every change is put in
front of a log. A state without an arrow out of it is kept forever; a state without an
arrow into it was there from the start; and the whole log follows the arrows.
-/

namespace Lfos.StateLogs

open Function

universe u v
variable {Slot : Type u} {State : Type v} [DecidableEq Slot]

/-- The states of the slots, and the changes so far, the latest one first. -/
@[ext]
structure Log (Slot : Type u) (State : Type v) where
  states : Slot → State
  changes : List (Slot × State × State)

/-- Change the state of a slot. -/
def Log.write (log : Log Slot State) (slot : Slot) (state : State) : Log Slot State where
  states := update log.states slot state
  changes := (slot, log.states slot, state) :: log.changes

theorem Log.write_here (log : Log Slot State) (slot : Slot) (state : State) :
    (log.write slot state).states slot = state := update_self ..

variable {slot : Slot}

theorem Log.write_elsewhere (log : Log Slot State) {other : Slot} (state : State) (different : other ≠ slot) :
    (log.write slot state).states other = log.states other := update_of_ne different ..

variable {arrow : State → State → Prop} {inside : Slot → Prop}

/-- A change along an arrow, of a slot inside the table. -/
inductive Write (arrow : State → State → Prop) (inside : Slot → Prop) : Log Slot State → Log Slot State → Prop where
  | write (log : Log Slot State) {slot : Slot} {state : State} (here : inside slot)
      (along : arrow (log.states slot) state) : Write arrow inside log (log.write slot state)

/-- Changes one after the other. -/
def Writes (arrow : State → State → Prop) (inside : Slot → Prop) : Log Slot State → Log Slot State → Prop :=
  Relation.ReflTransGen (Write arrow inside)

theorem Writes.refl (log : Log Slot State) : Writes arrow inside log log := Relation.ReflTransGen.refl

theorem Writes.trans {log middle after : Log Slot State} (first : Writes arrow inside log middle)
    (second : Writes arrow inside middle after) : Writes arrow inside log after :=
  Relation.ReflTransGen.trans first second

theorem Write.writes {log after : Log Slot State} (write : Write arrow inside log after) :
    Writes arrow inside log after := Relation.ReflTransGen.single write

variable {log after : Log Slot State} (writes : Writes arrow inside log after)
include writes

/-- A state that no arrow leaves is kept. -/
theorem Writes.sink (final : ∀ next, ¬ arrow (log.states slot) next) : after.states slot = log.states slot := by
  induction writes with
  | refl => rfl
  | tail _ write ih =>
    cases write with
    | write here along =>
      rw [← ih]
      apply Log.write_elsewhere
      rintro rfl
      rw [ih] at along
      exact final _ along

/-- A state that no arrow enters was there before. -/
theorem Writes.source
    (fresh : ∀ previous, ¬ arrow previous (after.states slot)) : log.states slot = after.states slot := by
  induction writes with
  | refl => rfl
  | @tail middle last _ write ih =>
    have untouched : last.states slot = middle.states slot := by
      cases write with
      | @write changed state here along =>
        apply Log.write_elsewhere
        rintro rfl
        apply fresh (middle.states slot)
        rw [Log.write_here]
        exact along
    rw [untouched] at fresh ⊢
    exact ih fresh

/-- All changes follow the arrows if the earlier ones did. -/
theorem Writes.along (before : ∀ change ∈ log.changes, arrow change.2.1 change.2.2) :
    ∀ change ∈ after.changes, arrow change.2.1 change.2.2 := by
  induction writes with
  | refl => exact before
  | tail _ write ih =>
    cases write with
    | write here along =>
      exact List.forall_mem_cons.mpr ⟨along, ih⟩

end Lfos.StateLogs
