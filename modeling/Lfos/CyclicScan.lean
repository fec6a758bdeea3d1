import Mathlib.Data.Finset.Card
import Mathlib.Data.List.Range
import Mathlib.Data.Nat.ModEq

/-!
# Scans around a cycle

A table with `modulus` slots is scanned by counting up from a start and taking
residues. One round meets every slot exactly once. The first slot with a property
is the one the fewest steps ahead, and a scan that starts behind the slot found
last has fewer steps to go to any slot that was passed over.
-/

namespace Lfos.CyclicScan

open List

/-- The slots in the order of a scan. -/
def rotation (modulus start : Nat) : List Nat := (List.range modulus).map (fun i => (start + i) % modulus)

variable {modulus start : Nat}

@[simp] theorem rotation_length : (rotation modulus start).length = modulus := by
  simp [rotation]

theorem rotation_nodup : (rotation modulus start).Nodup := by
  apply List.Nodup.map_on _ nodup_range
  intro left inLeft right inRight same
  have congruent : left ≡ right [MOD modulus] := Nat.ModEq.add_left_cancel' start same
  exact congruent.eq_of_lt_of_lt (mem_range.mp inLeft) (mem_range.mp inRight)

/-- One round meets every slot: it meets `modulus` different ones. -/
theorem mem_rotation {slot : Nat} : slot ∈ rotation modulus start ↔ slot < modulus := by
  have inside : (rotation modulus start).toFinset ⊆ Finset.range modulus := by
    intro found member
    obtain ⟨i, inRange, rfl⟩ := mem_map.mp (mem_toFinset.mp member)
    exact Finset.mem_range.mpr (Nat.mod_lt _ (Nat.lt_of_le_of_lt (Nat.zero_le i) (mem_range.mp inRange)))
  have card : (rotation modulus start).toFinset.card = modulus := by
    rw [toFinset_card_of_nodup rotation_nodup, rotation_length]
  have all : (rotation modulus start).toFinset = Finset.range modulus := by
    apply Finset.eq_of_subset_of_card_le inside
    rw [Finset.card_range, card]
  rw [← mem_toFinset, all, Finset.mem_range]

/-- Every slot is at most one round ahead. -/
theorem exists_ahead {slot : Nat} (inside : slot < modulus) :
    ∃ steps, 1 ≤ steps ∧ steps ≤ modulus ∧ slot = (start + steps) % modulus := by
  have member : slot ∈ rotation modulus (start + 1) := mem_rotation.mpr inside
  obtain ⟨i, inRange, same⟩ := mem_map.mp member
  have bound := mem_range.mp inRange
  refine ⟨i + 1, Nat.succ_pos i, bound, ?_⟩
  rw [← same, add_assoc, add_comm 1 i]

/-- The first slot with a property. -/
theorem find_rotation {found : Nat} {property : Nat → Bool} : (rotation modulus start).find? property = some found ↔
    ∃ i < modulus, found = (start + i) % modulus ∧ property found = true ∧
    ∀ j < i, property ((start + j) % modulus) = false := by
  rw [rotation, find?_map, Option.map_eq_some_iff]
  constructor
  · rintro ⟨i, first, rfl⟩
    obtain ⟨holds, inRange, before⟩ := find?_range_eq_some.mp first
    refine ⟨i, mem_range.mp inRange, rfl, holds, ?_⟩
    intro j earlier
    simpa using before j earlier
  · rintro ⟨i, bound, rfl, holds, before⟩
    refine ⟨i, find?_range_eq_some.mpr ⟨holds, mem_range.mpr bound, ?_⟩, rfl⟩
    intro j earlier
    simp [before j earlier]

theorem find_rotation_none {property : Nat → Bool} :
    (rotation modulus start).find? property = none ↔ ∀ slot < modulus, property slot = false := by
  simp [find?_eq_none, mem_rotation]

/-- A slot passed over is closer to the slot that was found. -/
theorem ahead_of_found {last steps found slot : Nat} (slotAhead : slot = (last + steps) % modulus)
    {taken : Nat} (foundAhead : found = (last + taken) % modulus) (passed : taken ≤ steps) :
    slot = (found + (steps - taken)) % modulus := by
  rw [slotAhead, foundAhead, Nat.mod_add_mod]
  congr 1
  omega

end Lfos.CyclicScan
