import Mathlib.Data.List.Forall2

/-!
# Computations that may fail

Inversion for computations with errors: a sequence that succeeds consists of steps
that succeed. What each step of a loop keeps is kept by the loop.
-/

namespace Lfos.Results

universe u v w
variable {Error : Type u} {α : Type v} {β : Type v}

theorem bind_ok {computation : Except Error α} {next : α → Except Error β} {result : β}
    (done : (computation >>= next) = .ok result) : ∃ value, computation = .ok value ∧ next value = .ok result := by
  cases computation with
  | error problem => exact absurd done (by simp [bind, Except.bind])
  | ok value => exact ⟨value, rfl, done⟩

theorem map_ok {computation : Except Error α} {change : α → β} {result : β}
    (done : computation.map change = .ok result) : ∃ value, computation = .ok value ∧ change value = result := by
  cases computation with
  | error problem => exact absurd done (by simp [Except.map])
  | ok value => exact ⟨value, rfl, Except.ok.inj done⟩

/-- The second of two results. -/
theorem ok_snd {x first : α} {y second : β} (done : (Except.ok (x, y) : Except Error (α × β)) = .ok (first, second)) :
    second = y := (Prod.mk.inj (Except.ok.inj done)).2.symm

/-- A loop that ends has a result for every item. -/
theorem mapM_ok {body : α → Except Error β} {items : List α} {results : List β}
    (done : items.mapM body = .ok results) : List.Forall₂ (fun item result => body item = .ok result) items results := by
  induction items generalizing results with
  | nil => exact Except.ok.inj done ▸ .nil
  | cons item rest ih =>
    rw [List.mapM_cons] at done
    obtain ⟨first, made, further⟩ := bind_ok done
    obtain ⟨others, remaining, same⟩ := bind_ok further
    exact Except.ok.inj same ▸ .cons made (ih remaining)

end Lfos.Results
