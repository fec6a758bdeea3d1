import Mathlib.Algebra.Ring.Nat
import Mathlib.Tactic.Common

/-!
# A memory of bytes

A memory has a byte at every address. Numbers are kept with their least significant byte first.
What a number is read from are the bytes of its own, so it is not changed by what is written beside
it, and it is read as it was written.
-/

namespace Lfos.ByteMemory

open Function

abbrev Bytes := Nat → BitVec 8

/-- The number that is stored from an address on. -/
def loadNumber (memory : Bytes) : Nat → Nat → Nat
  | _, 0 => 0
  | address, width + 1 => (memory address).toNat + 256 * loadNumber memory (address + 1) width

def storeNumber (memory : Bytes) : Nat → Nat → Nat → Bytes
  | _, 0, _ => memory
  | address, width + 1, value =>
    Function.update (storeNumber memory (address + 1) width (value / 256)) address (BitVec.ofNat 8 value)

/-- A number of equal bytes from an address on. -/
def fill (memory : Bytes) (first count : Nat) (value : BitVec 8) : Bytes :=
  fun address => if first ≤ address ∧ address < first + count then value else memory address

variable {memory after : Bytes} {address width value : Nat}

theorem storeNumber_elsewhere {other : Nat} (outside : other < address ∨ address + width ≤ other) :
    storeNumber memory address width value other = memory other := by
  induction width generalizing address value with
  | zero => rfl
  | succ width ih =>
    rw [storeNumber, update_of_ne (by omega)]
    exact ih (by omega)

/-- A number is read from its own bytes. -/
theorem loadNumber_congr (same : ∀ other, address ≤ other → other < address + width → after other = memory other) :
    loadNumber after address width = loadNumber memory address width := by
  induction width generalizing address with
  | zero => rfl
  | succ width ih =>
    rw [loadNumber, same address (le_refl _) (by omega),
      ih (fun other low high => same other (by omega) (by omega)), loadNumber]

/-- A number is not changed by what is written beside it. -/
theorem load_elsewhere {other size : Nat} (apart : other + size ≤ address ∨ address + width ≤ other) :
    loadNumber (storeNumber memory address width value) other size = loadNumber memory other size :=
  loadNumber_congr (fun _ _ _ => storeNumber_elsewhere (by omega))

/-- What is read are the bytes there was room for. -/
theorem load_store_number (memory : Bytes) (address width value : Nat) :
    loadNumber (storeNumber memory address width value) address width = value % 256 ^ width := by
  induction width generalizing address value with
  | zero => rw [loadNumber, Nat.pow_zero, Nat.mod_one]
  | succ width ih =>
    have rest : loadNumber (storeNumber memory address (width + 1) value) (address + 1) width = value / 256 % 256 ^ width := by
      rw [← ih (address + 1) (value / 256)]
      apply loadNumber_congr
      intro other low _
      rw [storeNumber, update_of_ne (by omega)]
    have split : value % 256 ^ (width + 1) = value % 256 + 256 * (value / 256 % 256 ^ width) := by
      rw [Nat.pow_succ', Nat.mod_mul]
    rw [loadNumber, rest, storeNumber, update_self, BitVec.toNat_ofNat, split]

theorem fill_inside {first count : Nat} {byte : BitVec 8} (low : first ≤ address) (high : address < first + count) :
    fill memory first count byte address = byte := if_pos ⟨low, high⟩

theorem fill_outside {first count : Nat} {byte : BitVec 8} (outside : address < first ∨ first + count ≤ address) :
    fill memory first count byte address = memory address := if_neg (by omega)

end Lfos.ByteMemory
