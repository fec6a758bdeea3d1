import Mathlib.Data.List.Pairwise
import Mathlib.Algebra.Ring.Nat

/-!
# The system clock

The period of the counter is a number of femtoseconds. It is cut off to whole nanoseconds before it is multiplied
by the ticks of the counter, so each tick loses the rest of this division. The clock never goes back, and it is
accurate as long as the ticks lost less than one period in all.
-/

namespace Lfos.SystemClock

open List

structure Clock where
  ticksToNsMultiplier : UInt16
  initializationTicks : UInt64
deriving DecidableEq, Repr

/-- `period` is a field of 32 bits, `counter` what the counter shows when it was started. -/
def initHpet (period : UInt32) (counter : UInt64) : Option Clock :=
  if period < 1000000 then none else some ⟨(period / 1000000).toUInt16, counter⟩

def scHandleClockRead (clock : Clock) (counter : UInt64) : UInt64 :=
  (counter - clock.initializationTicks) * clock.ticksToNsMultiplier.toUInt64

/-- The ticks since the clock was initialised. -/
def elapsed (clock : Clock) (counter : UInt64) : Nat := counter.toNat - clock.initializationTicks.toNat

/-- The clock is less than one period away from the time that has passed, both in femtoseconds. -/
def Accurate (period : UInt32) (clock : Clock) (counter : UInt64) : Prop :=
  elapsed clock counter * period.toNat < (scHandleClockRead clock counter).toNat * 1000000 + period.toNat ∧
    (scHandleClockRead clock counter).toNat * 1000000 < elapsed clock counter * period.toNat + period.toNat

/-- The counter does not go back, and the nanoseconds that have passed are a word. -/
structure Runs (period : UInt32) (clock : Clock) (counters : List UInt64) : Prop where
  onward : (clock.initializationTicks :: counters).Pairwise (· ≤ ·)
  fits : ∀ counter ∈ counters, elapsed clock counter * period.toNat / 1000000 < 2 ^ 64

variable {period : UInt32} {start counter : UInt64} {clock : Clock} {counters : List UInt64}

section

variable (accepted : initHpet period start = some clock)
include accepted

theorem multiplier_eq : clock.ticksToNsMultiplier.toNat = period.toNat / 1000000 := by
  obtain ⟨_, ⟨⟩⟩ := Option.ite_none_left_eq_some.mp accepted
  have word := period.toNat_lt
  simp only [UInt32.toNat_toUInt16, UInt32.toNat_div, UInt32.reduceToNat, Nat.reducePow]
  omega

/-- The multiplication does not overflow. -/
theorem read_toNat (started : clock.initializationTicks ≤ counter)
    (fits : elapsed clock counter * period.toNat / 1000000 < 2 ^ 64) :
    (scHandleClockRead clock counter).toNat = elapsed clock counter * (period.toNat / 1000000) := by
  have short : elapsed clock counter * (period.toNat / 1000000) < 2 ^ 64 :=
    lt_of_le_of_lt (Nat.mul_div_le_mul_div_assoc ..) fits
  rw [scHandleClockRead, UInt64.toNat_mul, UInt64.toNat_sub_of_le _ _ started, UInt16.toNat_toUInt64, multiplier_eq accepted]
  exact Nat.mod_eq_of_lt short

/-- What the clock lacks are the rests of all ticks. -/
theorem accurate_iff (started : clock.initializationTicks ≤ counter)
    (fits : elapsed clock counter * period.toNat / 1000000 < 2 ^ 64) :
    Accurate period clock counter ↔ elapsed clock counter * (period.toNat % 1000000) < period.toNat := by
  have parts : elapsed clock counter * period.toNat = elapsed clock counter * (period.toNat / 1000000) * 1000000 +
      elapsed clock counter * (period.toNat % 1000000) := by
    rw [mul_assoc, ← mul_add, mul_comm (period.toNat / 1000000), Nat.div_add_mod]
  have positive : 0 < period.toNat := by
    have large := UInt32.not_lt.mp (Option.ite_none_left_eq_some.mp accepted).1
    exact lt_of_lt_of_le (by decide) (UInt32.le_iff_toNat_le.mp large)
  rw [Accurate, read_toNat accepted started fits, parts]
  omega

end

/-- The clock never goes back. It is accurate whenever it is read exactly if each time the rests of all ticks are less
than one period. -/
theorem clock_accurate_iff (accepted : initHpet period start = some clock) (runs : Runs period clock counters) :
    (counters.map (scHandleClockRead clock)).Pairwise (· ≤ ·) ∧ ((∀ counter ∈ counters, Accurate period clock counter) ↔
      ∀ counter ∈ counters, elapsed clock counter * (period.toNat % 1000000) < period.toNat) := by
  obtain ⟨started, onward⟩ := pairwise_cons.mp runs.onward
  constructor
  · rw [pairwise_map]
    refine onward.imp_of_mem (fun {earlier later} here there ordered => ?_)
    rw [UInt64.le_iff_toNat_le, read_toNat accepted (started _ here) (runs.fits _ here),
      read_toNat accepted (started _ there) (runs.fits _ there)]
    exact Nat.mul_le_mul_right _ (Nat.sub_le_sub_right (UInt64.le_iff_toNat_le.mp ordered) _)
  · exact forall₂_congr (fun counter member => accurate_iff accepted (started counter member) (runs.fits counter member))

/-- A period of ten nanoseconds leaves no rest. -/
theorem clock_accurate_iff_emulated : initHpet 10000000 7 = some ⟨10, 7⟩ ∧
    ∀ counter ∈ [7, 12, 12, 100007], Accurate 10000000 ⟨10, 7⟩ counter := by
  have fits : ∀ counter ∈ [7, 12, 12, 100007], elapsed ⟨10, 7⟩ counter * 10000000 / 1000000 < 2 ^ 64 := by
    simp only [forall_mem_cons, not_mem_nil, false_imp_iff, implies_true]
    decide
  refine ⟨rfl, (clock_accurate_iff rfl ⟨by decide, fits⟩).2.mpr ?_⟩
  simp only [forall_mem_cons, not_mem_nil, false_imp_iff, implies_true]
  decide

/-- A common period of about 69.8 nanoseconds loses more than one period within a hundred ticks. -/
theorem clock_falls_behind : ∃ clock, initHpet 69841279 0 = some clock ∧ Runs 69841279 clock [100] ∧
    ¬Accurate 69841279 clock 100 := by
  refine ⟨⟨69, 0⟩, rfl, ⟨by decide, ?_⟩, fun accurate => ?_⟩
  · exact forall_mem_singleton.mpr (by decide)
  · exact absurd accurate.1 (by decide)

end Lfos.SystemClock
