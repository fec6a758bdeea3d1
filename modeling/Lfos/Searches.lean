import Mathlib.Logic.Function.Iterate

/-!
# Loops that go on until there is an answer

A loop goes from state to state and stops at the first one that gives an answer. It is run for
a number of steps; it ends if some number is enough. What it answers is decided by the first of
the states that gives an answer, and it does not end if none of them does.
-/

namespace Lfos.Searches

universe u v
variable {State : Type u} {Answer : Type v}

/-- Go on until a state gives an answer, for a number of steps. -/
def search (answer : State → Option Answer) (next : State → State) : Nat → State → Option Answer
  | 0, _ => none
  | steps + 1, state =>
    match answer state with
    | some found => some found
    | none => search answer next steps (next state)

/-- The loop ends with an answer. -/
def Ends (answer : State → Option Answer) (next : State → State) (state : State) (found : Answer) : Prop :=
  ∃ steps, search answer next steps state = some found

variable {answer : State → Option Answer} {next : State → State} {state : State} {found other : Answer} {steps : Nat}

theorem search_found (here : answer state = some found) : search answer next (steps + 1) state = some found := by
  rw [search, here]

theorem search_on (absent : answer state = none) :
    search answer next (steps + 1) state = search answer next steps (next state) := by
  rw [search, absent]

theorem ends_here (here : answer state = some found) : Ends answer next state found := ⟨1, search_found here⟩

theorem ends_later (absent : answer state = none) (later : Ends answer next (next state) found) :
    Ends answer next state found := by
  obtain ⟨steps, searched⟩ := later
  exact ⟨steps + 1, (search_on absent).trans searched⟩

/-- The answer is that of the first state that gives one. -/
theorem ends_iff_first : Ends answer next state found ↔
    ∃ count, answer (next^[count] state) = some found ∧ ∀ earlier < count, answer (next^[earlier] state) = none := by
  constructor
  · rintro ⟨steps, searched⟩
    induction steps generalizing state with
    | zero => exact nomatch searched
    | succ steps ih =>
      cases here : answer state with
      | some first =>
        rw [search_found here] at searched
        exact ⟨0, here.trans searched, fun earlier before => absurd before (Nat.not_lt_zero _)⟩
      | none =>
        rw [search_on here] at searched
        obtain ⟨count, last, before⟩ := ih searched
        refine ⟨count + 1, last, ?_⟩
        intro earlier less
        cases earlier with
        | zero => exact here
        | succ earlier => exact before earlier (Nat.lt_of_succ_lt_succ less)
  · rintro ⟨count, last, before⟩
    induction count generalizing state with
    | zero => exact ends_here last
    | succ count ih =>
      apply ends_later (before 0 (Nat.succ_pos count))
      apply ih last
      intro earlier less
      exact before (earlier + 1) (Nat.succ_lt_succ less)

/-- When a state gives an answer the loop ends with it or with that of an earlier state. -/
theorem ends_by {count : Nat} (last : answer (next^[count] state) = some found) :
    ∃ earlier ≤ count, ∃ first, answer (next^[earlier] state) = some first ∧ Ends answer next state first := by
  induction count generalizing state with
  | zero => exact ⟨0, Nat.le_refl 0, found, last, ends_here last⟩
  | succ count ih =>
    cases here : answer state with
    | some first => exact ⟨0, Nat.zero_le _, first, here, ends_here here⟩
    | none =>
      obtain ⟨earlier, before, first, answers, ends⟩ := ih last
      exact ⟨earlier + 1, Nat.succ_le_succ before, first, answers, ends_later here ends⟩

theorem ends_unique (first : Ends answer next state found) (second : Ends answer next state other) : found = other := by
  obtain ⟨count, last, before⟩ := ends_iff_first.mp first
  obtain ⟨otherCount, otherLast, otherBefore⟩ := ends_iff_first.mp second
  rcases Nat.lt_trichotomy count otherCount with less | rfl | more
  · rw [otherBefore count less] at last
    exact nomatch last
  · exact Option.some.inj (last.symm.trans otherLast)
  · rw [before otherCount more] at otherLast
    exact nomatch otherLast

/-- A loop ends in as many steps as a measure that gets smaller from state to state. -/
theorem search_ends (measure : State → Nat) (shrinks : ∀ state, answer state = none → measure (next state) < measure state)
    (enough : measure state < steps) : ∃ found, search answer next steps state = some found := by
  induction steps generalizing state with
  | zero => exact absurd enough (Nat.not_lt_zero _)
  | succ steps ih =>
    cases here : answer state with
    | some found => exact ⟨found, search_found here⟩
    | none =>
      have less := shrinks state here
      obtain ⟨found, later⟩ := ih (Nat.lt_of_lt_of_le less (Nat.le_of_lt_succ enough))
      exact ⟨found, (search_on here).trans later⟩

/-- What every state without an answer hands on holds of the state that gives the answer. -/
theorem ends_invariant {property : State → Prop} (ends : Ends answer next state found) (holds : property state)
    (kept : ∀ state, property state → answer state = none → property (next state)) :
    ∃ last, property last ∧ answer last = some found := by
  obtain ⟨steps, searched⟩ := ends
  induction steps generalizing state with
  | zero => exact nomatch searched
  | succ steps ih =>
    cases here : answer state with
    | some first =>
      rw [search_found here] at searched
      exact ⟨state, holds, here.trans searched⟩
    | none =>
      rw [search_on here] at searched
      exact ih (kept state holds here) searched

end Lfos.Searches
