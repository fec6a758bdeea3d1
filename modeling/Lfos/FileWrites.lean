import Mathlib.Data.List.Range

/-!
# Files as what is written to them

A file is the list of the writes to it, the last one first, each with its position. A byte of the
file is that of the last write that covers it.
-/

namespace Lfos.FileWrites

open List

universe u
variable {β : Type u}

abbrev Writes (β : Type u) := List (Nat × List β)

/-- A byte of a file, which is blank where nothing is written. -/
def byteAt (blank : β) : Writes β → Nat → β
  | [], _ => blank
  | (start, bytes) :: earlier, position =>
    if start ≤ position ∧ position < start + bytes.length then bytes.getD (position - start) blank
    else byteAt blank earlier position

/-- Some bytes of a file from a position on. -/
def extract (blank : β) (writes : Writes β) (start count : Nat) : List β := (List.range' start count).map (byteAt blank writes)

variable {blank : β} {writes : Writes β} {start other count : Nat} {bytes : List β}

theorem extract_length : (extract blank writes start count).length = count := by
  rw [extract, length_map, length_range']

/-- What is written is there. -/
theorem extract_written : extract blank ((start, bytes) :: writes) start bytes.length = bytes := by
  apply ext_getElem extract_length
  intro i _ inside
  have covered : start ≤ start + i ∧ start + i < start + bytes.length := by omega
  simp only [extract, getElem_map, getElem_range', Nat.one_mul, byteAt, if_pos covered, Nat.add_sub_cancel_left]
  rw [getD_eq_getElem?_getD, getElem?_eq_getElem inside, Option.getD_some]

/-- A write elsewhere is not seen. -/
theorem extract_apart (apart : start + count ≤ other ∨ other + bytes.length ≤ start) :
    extract blank ((other, bytes) :: writes) start count = extract blank writes start count := by
  apply map_congr_left
  intro position member
  obtain ⟨low, high⟩ := mem_range'_1.mp member
  have outside : ¬ (other ≤ position ∧ position < other + bytes.length) := by omega
  exact if_neg outside

end Lfos.FileWrites
