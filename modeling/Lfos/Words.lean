import Mathlib.Algebra.Ring.Int.Defs
import Mathlib.Algebra.Ring.Nat

/-!
# Machine words as numbers

An unsigned 64-bit word is the natural number it denotes. Sums and products are reduced
modulo `2 ^ 64` where a computation can leave that range; subtraction wraps a
negative difference. A signed 32-bit word is an integer. The laws state when the
reduction is invisible.
-/

namespace Lfos.Words

/-- Reduction of an unsigned 64-bit result. -/
def u64 (value : Nat) : Nat := value % 2 ^ 64

/-- Unsigned 64-bit subtraction; a negative difference wraps around. -/
def u64Sub (left right : Nat) : Nat := (left + (2 ^ 64 - right % 2 ^ 64)) % 2 ^ 64

/-- Reduction of an unsigned 32-bit result. -/
def u32 (value : Nat) : Nat := value % 2 ^ 32

/-- Unsigned 32-bit subtraction; a negative difference wraps around. -/
def u32Sub (left right : Nat) : Nat := (left + (2 ^ 32 - right % 2 ^ 32)) % 2 ^ 32

/-- Reduction of a signed 32-bit result. -/
def i32 (value : Int) : Int := (value + 2 ^ 31) % 2 ^ 32 - 2 ^ 31

theorem u64_lt (value : Nat) : u64 value < 2 ^ 64 := Nat.mod_lt _ (by decide)

theorem u64_of_lt {value : Nat} (small : value < 2 ^ 64) : u64 value = value := Nat.mod_eq_of_lt small

theorem u64Sub_lt (left right : Nat) : u64Sub left right < 2 ^ 64 := Nat.mod_lt _ (by decide)

variable {left right : Nat}

/-- A difference that is not negative is exact. -/
theorem u64Sub_of_le (ordered : right ≤ left) (small : left < 2 ^ 64) : u64Sub left right = left - right := by
  simp only [u64Sub]
  omega

/-- A negative difference is its two's complement. -/
theorem u64Sub_of_lt (ordered : left < right) (small : right < 2 ^ 64) :
    u64Sub left right = 2 ^ 64 - (right - left) := by
  simp only [u64Sub]
  omega

theorem u32_lt (value : Nat) : u32 value < 2 ^ 32 := Nat.mod_lt _ (by decide)

theorem u32_of_lt {value : Nat} (small : value < 2 ^ 32) : u32 value = value := Nat.mod_eq_of_lt small

theorem u32Sub_of_le (ordered : right ≤ left) (small : left < 2 ^ 32) : u32Sub left right = left - right := by
  simp only [u32Sub]
  omega

/-- A signed result in range is exact. -/
theorem i32_of_range {value : Int} (low : -2 ^ 31 ≤ value) (high : value < 2 ^ 31) : i32 value = value := by
  simp only [i32]
  omega

end Lfos.Words
