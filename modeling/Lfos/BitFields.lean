import Mathlib.Algebra.Ring.Nat
import Mathlib.Tactic.Common

/-!
# Bit fields

A field is a range of bits of a word. Reading a field cuts its bits out of the word, and
writing it replaces them and no others. So a field reads back what was written to it, and
is not touched by what is written to a field that lies beside it.
-/

namespace Lfos.BitFields

open BitVec

/-- A range of the bits of a word. -/
structure BitField (size : Nat) where
  low : Nat
  width : Nat
  fits : low + width ≤ size

variable {size : Nat}

/-- The bits of the field. -/
def BitField.read (field : BitField size) (word : BitVec size) : BitVec field.width :=
  word.extractLsb' field.low field.width

/-- The word with a one where the field is. -/
def BitField.mask (field : BitField size) : BitVec size :=
  (allOnes field.width).setWidth size <<< field.low

/-- The word with other bits in the field. -/
def BitField.write (field : BitField size) (value : BitVec field.width) (word : BitVec size) : BitVec size :=
  (word &&& ~~~field.mask) ||| (value.setWidth size <<< field.low)

/-- One field ends before the other one begins. -/
def BitField.Beside (field other : BitField size) : Prop :=
  field.low + field.width ≤ other.low ∨ other.low + other.width ≤ field.low

instance (field other : BitField size) : Decidable (field.Beside other) :=
  inferInstanceAs (Decidable (_ ∨ _))

section

variable (field : BitField size)
include field

theorem getLsbD_mask (bit : Nat) :
    field.mask.getLsbD bit = decide (field.low ≤ bit ∧ bit < field.low + field.width) := by
  have fits := field.fits
  rw [BitField.mask, getLsbD_shiftLeft]
  by_cases inside : field.low ≤ bit ∧ bit < field.low + field.width
  · have parts : bit < size ∧ ¬ bit < field.low ∧ bit - field.low < size ∧ bit - field.low < field.width := by omega
    simp [inside, parts]
  · by_cases before : bit < field.low
    · simp [before, inside]
    · have after : ¬ bit - field.low < field.width := by omega
      simp [inside, after]

/-- Writing replaces the bits of the field. -/
theorem getLsbD_write (value : BitVec field.width) (word : BitVec size) (bit : Nat) :
    (field.write value word).getLsbD bit =
    if field.low ≤ bit ∧ bit < field.low + field.width then value.getLsbD (bit - field.low) else word.getLsbD bit := by
  have fits := field.fits
  rw [BitField.write, getLsbD_or, getLsbD_and, getLsbD_not, getLsbD_mask]
  split
  · next inside =>
    have parts : bit < size ∧ ¬ bit < field.low ∧ bit - field.low < size := by omega
    simp [inside, parts]
  · next outside =>
    by_cases before : bit < field.low
    · have small : bit < size := by omega
      simp [outside, before, small]
    · have beyond : value.getLsbD (bit - field.low) = false := getLsbD_of_ge _ _ (by omega)
      by_cases small : bit < size
      · simp [outside, beyond, small]
      · simp [beyond, small, getLsbD_of_ge word bit (by omega)]

theorem getLsbD_read (word : BitVec size) (bit : Nat) :
    (field.read word).getLsbD bit = (decide (bit < field.width) && word.getLsbD (field.low + bit)) :=
  getLsbD_extractLsb' ..

/-- What was written is read. -/
theorem read_write_self (value : BitVec field.width) (word : BitVec size) :
    field.read (field.write value word) = value := by
  apply eq_of_getLsbD_eq
  intro bit inside
  rw [getLsbD_read, getLsbD_write]
  simp [inside]

end

variable {field other : BitField size}

/-- What is written beside a field does not change it. -/
theorem read_write_beside (beside : field.Beside other)
    (value : BitVec other.width) (word : BitVec size) : field.read (other.write value word) = field.read word := by
  apply eq_of_getLsbD_eq
  intro bit inside
  have elsewhere : ¬ (other.low ≤ field.low + bit ∧ field.low + bit < other.low + other.width) := by
    rcases beside with before | after <;> omega
  rw [getLsbD_read, getLsbD_write, if_neg elsewhere, getLsbD_read]

/-- A value where the field is, in a word that is zero elsewhere. -/
def BitField.place (field : BitField size) (value : BitVec field.width) : BitVec size :=
  value.setWidth size <<< field.low

theorem getLsbD_place (field : BitField size) (value : BitVec field.width) (bit : Nat) :
    (field.place value).getLsbD bit = (decide (field.low ≤ bit) && value.getLsbD (bit - field.low)) := by
  have fits := field.fits
  rw [BitField.place]
  by_cases before : bit < field.low
  · have short : ¬ field.low ≤ bit := by omega
    simp [before, short]
  · by_cases small : bit < size
    · have behind : field.low ≤ bit := by omega
      simp [small, before, behind]
    · have beyond : value.getLsbD (bit - field.low) = false := getLsbD_of_ge _ _ (by omega)
      simp [small, beyond]

theorem read_or (field : BitField size) (left right : BitVec size) :
    field.read (left ||| right) = field.read left ||| field.read right := by
  apply eq_of_getLsbD_eq
  intro bit _
  rw [getLsbD_or, getLsbD_read, getLsbD_read, getLsbD_read, getLsbD_or, Bool.and_or_distrib_left]

@[simp] theorem read_zero (field : BitField size) : field.read (BitVec.ofNat size 0) = BitVec.ofNat field.width 0 := by
  apply eq_of_getLsbD_eq
  intro bit _
  rw [getLsbD_read]
  simp

theorem read_place_self (field : BitField size) (value : BitVec field.width) : field.read (field.place value) = value := by
  apply eq_of_getLsbD_eq
  intro bit inside
  rw [getLsbD_read, getLsbD_place]
  simp [inside]

theorem read_place_beside (beside : field.Beside other) (value : BitVec other.width) :
    field.read (other.place value) = BitVec.ofNat field.width 0 := by
  apply eq_of_getLsbD_eq
  intro bit inside
  rw [getLsbD_read, getLsbD_place]
  rcases beside with before | after
  · have short : ¬ other.low ≤ field.low + bit := by omega
    simp [short]
  · have beyond : value.getLsbD (field.low + bit - other.low) = false := getLsbD_of_ge _ _ (by omega)
    simp [beyond]

/-- The number in the field. -/
def BitField.get (field : BitField size) (word : BitVec size) : Nat := (field.read word).toNat

/-- The word with a number in the field, of which the field keeps the low bits. -/
def BitField.set (field : BitField size) (value : Nat) (word : BitVec size) : BitVec size :=
  field.write (BitVec.ofNat field.width value) word

theorem get_set_self (field : BitField size) (value : Nat) (word : BitVec size) :
    field.get (field.set value word) = value % 2 ^ field.width := by
  rw [BitField.get, BitField.set, read_write_self, toNat_ofNat]

theorem get_set_beside (beside : field.Beside other) (value : Nat) (word : BitVec size) :
    field.get (other.set value word) = field.get word :=
  congrArg BitVec.toNat (read_write_beside beside _ word)

theorem get_lt (field : BitField size) (word : BitVec size) : field.get word < 2 ^ field.width := (field.read word).isLt

@[simp] theorem get_zero (field : BitField size) : field.get (BitVec.ofNat size 0) = 0 := by
  rw [BitField.get, read_zero, toNat_ofNat, Nat.zero_mod]

end Lfos.BitFields
