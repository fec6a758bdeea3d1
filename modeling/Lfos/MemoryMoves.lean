import Lfos.FlexArrays

/-!
# Moves of bytes

A move upwards copies as if through a copy of the source, since each byte is read before it is
overwritten. A move downwards does not end, whatever its size.
-/

namespace Lfos.FlexArrays

open ByteLists Results Words List

variable {block : List UInt8} {dest source : Nat}

/-- The downward loop has no end. -/
theorem moveDown_fails (dest source : Nat) (block : List UInt8) (i rounds : Nat) (after : List UInt8) :
    moveDown dest source block i rounds ≠ .ok after := by
  induction rounds generalizing block i with
  | zero => exact nofun
  | succ rounds ih =>
    intro returned
    obtain ⟨moved, _, further⟩ := bind_ok returned
    exact ih moved _ further

theorem memmove_fails (below : source ≤ dest) (rounds : Nat) (block : List UInt8) (size : Nat)
    (after : List UInt8) : memmove rounds block dest source size ≠ .ok after := by
  rw [memmove, if_neg (not_lt.mpr below)]
  exact moveDown_fails dest source block _ rounds after

/-- A byte is copied, and the others stay. -/
theorem moveByte_inside (small : block.length ≤ 2 ^ 64) {i : Nat} (target : dest + i < block.length)
    (inside : source + i < block.length) : moveByte block dest source i = .ok (block.set (dest + i) block[source + i]) := by
  have read : slice block (source + i) 1 = some [block[source + i]] := by
    rw [slice, if_pos (by omega), drop_eq_getElem_cons inside]
    rfl
  have written : overwrite block (dest + i) [block[source + i]] = some (block.set (dest + i) block[source + i]) := by
    have ends : dest + i + 1 ≤ block.length := target
    simp [overwrite, set_eq_take_append_cons_drop, target, ends]
  rw [moveByte, u64_of_lt (by omega), u64_of_lt (by omega), read]
  exact congrArg copied written

/-- What is left to copy lies above all that has been written. -/
theorem moveUp_moves (small : block.length ≤ 2 ^ 64) (below : dest < source) {i rest : Nat}
    (inside : source + i + rest ≤ block.length) :
    ∃ moved, moveUp dest source block i rest = .ok moved ∧ moved.length = block.length ∧ ∀ position, moved[position]? =
    if dest + i ≤ position ∧ position < dest + i + rest then block[position + (source - dest)]? else block[position]? := by
  induction rest generalizing block i with
  | zero =>
    refine ⟨block, rfl, rfl, fun position => (if_neg ?_).symm⟩
    omega
  | succ rest ih =>
    have read : source + i < block.length := by omega
    have step := moveByte_inside small (lt_trans (Nat.add_lt_add_right below i) read) read
    obtain ⟨moved, further, same, bytes⟩ := @ih (block.set (dest + i) block[source + i]) (by simpa using small) (i + 1)
      (by rw [length_set]; omega)
    refine ⟨moved, by rw [moveUp, step]; exact further, by simpa using same, ?_⟩
    intro position
    have shifted : dest + i + (source - dest) = source + i := by omega
    have ahead : dest + i ≤ position → dest + i ≠ position + (source - dest) := by omega
    rw [bytes position, getElem?_set, getElem?_set]
    grind

/-- The move ends with the bytes of the source at its destination, and with all other bytes as they were. -/
def Moves (block : List UInt8) (dest source size : Nat) : Prop :=
  ∃ rounds moved, memmove rounds block dest source size = .ok moved ∧ moved.length = block.length ∧
    (∀ i < size, moved[dest + i]? = block[source + i]?) ∧
    ∀ position, position < dest ∨ dest + size ≤ position → moved[position]? = block[position]?

/-- The bytes end up as they should exactly if they are moved to lower addresses. -/
theorem memmove_moves_iff (small : block.length ≤ 2 ^ 64) {size : Nat} (inside : source + size ≤ block.length) :
    Moves block dest source size ↔ dest < source := by
  constructor
  · rintro ⟨rounds, moved, done, _⟩
    by_contra above
    exact memmove_fails (not_lt.mp above) rounds block size moved done
  · intro below
    obtain ⟨moved, done, same, bytes⟩ := @moveUp_moves _ _ _ small below 0 size inside
    refine ⟨0, moved, by rw [memmove, if_pos below, done], same, ?_, ?_⟩
    · intro i within
      have shifted : dest + i + (source - dest) = source + i := by omega
      rw [bytes, if_pos (by omega), shifted]
    · intro position outside
      rw [bytes, if_neg (by omega)]

theorem memmove_moves_overlapping : Moves [1, 2, 3] 0 1 2 := (memmove_moves_iff (by decide) (by decide)).mpr (by decide)

/-- Room in front of a byte is not made. -/
theorem memmove_endless : ¬ Moves [1, 2] 1 0 1 := by
  rintro ⟨rounds, moved, done, _⟩
  exact memmove_fails (by decide) rounds _ _ moved done

end Lfos.FlexArrays
