import Mathlib.Algebra.Ring.Nat
import Mathlib.Data.List.Basic

/-!
# Blocks of bytes

A block is the list of its bytes. Copies out of a block and into it take a
position and fail if they would leave the block. Numbers are stored with the
least significant byte first.
-/

namespace Lfos.ByteLists

open List

/-- The number stored in a list of bytes. -/
def littleEndian : List UInt8 → Nat
  | [] => 0
  | byte :: rest => byte.toNat + 256 * littleEndian rest

/-- The bytes that store a number in a given width. -/
def toBytes : Nat → Nat → List UInt8
  | 0, _ => []
  | width + 1, value => UInt8.ofNat value :: toBytes width (value / 256)

/-- The bytes from a position on, if the block has that many. -/
def slice (bytes : List UInt8) (position count : Nat) : Option (List UInt8) :=
  if position + count ≤ bytes.length then some ((bytes.drop position).take count) else none

/-- The block with a part of it replaced, if the part fits. -/
def overwrite (bytes : List UInt8) (position : Nat) (part : List UInt8) : Option (List UInt8) :=
  if position + part.length ≤ bytes.length then
    some (bytes.take position ++ part ++ bytes.drop (position + part.length))
  else none

/-- The 64-bit number at a position. -/
def readU64 (bytes : List UInt8) (position : Nat) : Option Nat :=
  (slice bytes position 8).map littleEndian

@[simp] theorem toBytes_length (width value : Nat) : (toBytes width value).length = width := by
  induction width generalizing value with
  | zero => rfl
  | succ width ih => rw [toBytes, length_cons, ih]

/-- A number that fits its width is read back. -/
theorem littleEndian_toBytes {width value : Nat} (small : value < 256 ^ width) :
    littleEndian (toBytes width value) = value := by
  induction width generalizing value with
  | zero =>
    rw [toBytes, littleEndian]
    omega
  | succ width ih =>
    have rest : value / 256 < 256 ^ width := by
      omega
    have low : (UInt8.ofNat value).toNat = value % 256 := rfl
    rw [toBytes, littleEndian, ih rest]
    omega

theorem littleEndian_lt (bytes : List UInt8) : littleEndian bytes < 256 ^ bytes.length := by
  induction bytes with
  | nil => exact Nat.one_pos
  | cons byte rest ih =>
    have small := byte.toNat_lt
    rw [littleEndian, length_cons]
    omega

/-- A copy out of the second of two parts. -/
theorem slice_append (front rest : List UInt8) {count : Nat} (inside : count ≤ rest.length) :
    slice (front ++ rest) front.length count = some (rest.take count) := by
  have fits : front.length + count ≤ (front ++ rest).length := by
    rw [length_append]
    omega
  rw [slice, if_pos fits, drop_left]

/-- A copy into the second of two parts. -/
theorem overwrite_append (front rest part : List UInt8) (inside : part.length ≤ rest.length) :
    overwrite (front ++ rest) front.length part = some (front ++ part ++ rest.drop part.length) := by
  have fits : front.length + part.length ≤ (front ++ rest).length := by
    rw [length_append]
    omega
  rw [overwrite, if_pos fits, take_left, drop_append, drop_eq_nil_of_le (by omega), nil_append, Nat.add_sub_cancel_left]

/-- A number read from the front of a part is read from the part. -/
theorem readU64_append (front part rest : List UInt8) (header : 8 ≤ part.length) :
    readU64 (front ++ (part ++ rest)) front.length = readU64 part 0 := by
  have inside : 8 ≤ (part ++ rest).length := by
    rw [length_append]
    omega
  rw [readU64, slice_append front _ inside, take_append_of_le_length header]
  have whole := slice_append [] part header
  rw [nil_append, length_nil] at whole
  rw [readU64, whole]

/-- A number that was read is read back where it is stored. -/
theorem readU64_stored {bytes : List UInt8} {position value : Nat} (read : readU64 bytes position = some value)
    (rest : List UInt8) : readU64 (toBytes 8 value ++ rest) 0 = some value := by
  obtain ⟨part, sliced, rfl⟩ := Option.map_eq_some_iff.mp read
  obtain ⟨fits, same⟩ := Option.ite_none_right_eq_some.mp sliced
  cases same
  have small := littleEndian_lt ((bytes.drop position).take 8)
  have whole : ((bytes.drop position).take 8).length = 8 := by
    rw [length_take, length_drop]
    omega
  rw [whole] at small
  simp [readU64, slice, littleEndian_toBytes small]

end Lfos.ByteLists
