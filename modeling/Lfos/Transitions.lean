import Mathlib.Data.List.Basic

/-!
# Transition systems and their runs

A system has initial states and labelled steps. A run is a finite sequence of
steps, grown at its end; a state is reachable if a run from an initial state ends
in it. A property that holds initially and is kept by every step holds of every
reachable state. Restricting the steps by a condition on the state before the step
and its label gives the runs all of whose steps meet the condition.
-/

namespace Lfos.Transitions

universe u v
variable {State : Type u} {Event : Type v}

structure System (State : Type u) (Event : Type v) where
  initial : State → Prop
  step : State → Event → State → Prop

/-- The runs from a state, with their events in order. -/
inductive System.Run (system : System State Event) (start : State) : List Event → State → Prop where
  | done : System.Run system start [] start
  | next {events : List Event} {event : Event} {state after : State}
      (run : System.Run system start events state) (taken : system.step state event after) :
      System.Run system start (events ++ [event]) after

/-- The states that runs from initial states end in. -/
def System.Reachable (system : System State Event) (state : State) : Prop :=
  ∃ start events, system.initial start ∧ system.Run start events state

/-- The same system with the steps that meet a condition only. -/
def System.under (system : System State Event) (condition : State → Event → Prop) : System State Event where
  initial := system.initial
  step state event after := condition state event ∧ system.step state event after

variable {system : System State Event} {state : State} {property : State → Prop}

/-- What every step keeps is kept by a run. -/
theorem System.Run.keeps {start : State} {events : List Event}
    (run : system.Run start events state) (holds : property start)
    (kept : ∀ state event after, property state → system.step state event after → property after) : property state := by
  induction run with
  | done => exact holds
  | next _ taken ih => exact kept _ _ _ ih taken

theorem reachable_initial (initial : system.initial state) : system.Reachable state := ⟨state, [], initial, .done⟩

theorem reachable_step {after : State} {event : Event} (reachable : system.Reachable state)
    (taken : system.step state event after) : system.Reachable after := by
  obtain ⟨start, events, initial, run⟩ := reachable
  exact ⟨start, events ++ [event], initial, .next run taken⟩

/-- The invariant rule. -/
theorem System.Reachable.invariant
    (reachable : system.Reachable state) (initially : ∀ start, system.initial start → property start)
    (kept : ∀ state event after, property state → system.step state event after → property after) : property state := by
  obtain ⟨start, events, initial, run⟩ := reachable
  exact run.keeps (initially start initial) kept

/-- A step may use that its state is reachable. -/
theorem System.Reachable.induct
    (reachable : system.Reachable state) (initially : ∀ start, system.initial start → property start)
    (kept : ∀ state event after, system.Reachable state → property state →
    system.step state event after → property after) : property state := by
  have both : system.Reachable state ∧ property state := by
    apply reachable.invariant (fun start initial => ⟨reachable_initial initial, initially start initial⟩)
    rintro state event after ⟨reached, holds⟩ taken
    exact ⟨reachable_step reached taken, kept state event after reached holds taken⟩
  exact both.2

theorem reachable_under_step {condition : State → Event → Prop} {after : State} {event : Event}
    (reachable : (system.under condition).Reachable state) (taken : system.step state event after)
    (met : condition state event) : (system.under condition).Reachable after :=
  reachable_step reachable (⟨met, taken⟩)

/-- Fewer steps reach fewer states. -/
theorem reachable_of_under {condition : State → Event → Prop}
    (reachable : (system.under condition).Reachable state) : system.Reachable state :=
  reachable.invariant (fun _ initial => reachable_initial initial)
    (fun _ _ _ reached taken => reachable_step reached taken.2)

end Lfos.Transitions
