import Lfos.Footprints

/-!
# The set of waiters

The processes that wait for something, as a set: what waking takes out of it, what
falling asleep adds to it, and what leaves it alone.
-/

namespace Lfos.Processes

open Finset

/-- The processes that wait for something. -/
def Kernel.waiting (kernel : Kernel) (reason : WaitReason) (data : Nat) : Finset Nat :=
  (Finset.range maxProcs).filter (fun pid => kernel.waits reason data pid = true)

theorem mem_waiting {kernel : Kernel} {reason : WaitReason} {data pid : Nat} :
    pid ∈ kernel.waiting reason data ↔ pid < maxProcs ∧ kernel.waits reason data pid = true := by
  rw [Kernel.waiting, mem_filter, mem_range]

theorem waiters_toFinset (kernel : Kernel) (reason : WaitReason) (data : Nat) :
    (kernel.waiters reason data).toFinset = kernel.waiting reason data := by
  ext pid
  rw [List.mem_toFinset, mem_waiters, mem_waiting]

theorem waiters_length (kernel : Kernel) (reason : WaitReason) (data : Nat) :
    (kernel.waiters reason data).length = (kernel.waiting reason data).card := by
  rw [← waiters_toFinset, List.toFinset_card_of_nodup (waiters_nodup kernel reason data)]

section

variable {kernel after : Kernel} {reason : WaitReason} {data : Nat}

theorem waiting_congr (same : ∀ pid, after.waits reason data pid = kernel.waits reason data pid) :
    after.waiting reason data = kernel.waiting reason data := by
  ext pid
  rw [mem_waiting, mem_waiting, same]

theorem Keeps.waiting (kept : Keeps reason kernel after) (data : Nat) :
    after.waiting reason data = kernel.waiting reason data := waiting_congr (kept.waits data)

theorem waiting_card_le (kernel : Kernel) (reason : WaitReason) (data : Nat) :
    (kernel.waiting reason data).card ≤ maxProcs := by
  have bound := card_filter_le (range maxProcs) (fun pid => kernel.waits reason data pid = true)
  rwa [card_range] at bound

theorem waits_wake {pids : List Nat} (pid : Nat) :
    (kernel.wake pids).waits reason data pid = true ↔ pid ∉ pids ∧ kernel.waits reason data pid = true := by
  rw [Kernel.waits, wake_processes]
  split
  · next member => simp [Process.waits, member]
  · next absent => simp [Kernel.waits, absent]

/-- Waking some waiters takes them out. -/
theorem waiting_wake (pids : List Nat) :
    (kernel.wake pids).waiting reason data = kernel.waiting reason data \ pids.toFinset := by
  ext pid
  rw [mem_waiting, waits_wake, mem_sdiff, mem_waiting, List.mem_toFinset]
  tauto

/-- Falling asleep adds the current process to the waiters. -/
theorem waiting_sleep (inside : kernel.current < maxProcs) :
    (kernel.sleep reason data).waiting reason data = insert kernel.current (kernel.waiting reason data) := by
  ext pid
  rw [mem_waiting, mem_insert, mem_waiting, Kernel.waits, sleep_processes]
  by_cases here : pid = kernel.current
  · subst here
    simp [Process.waits, inside]
  · simp [Kernel.waits, here]

/-- Falling asleep for one thing is not waiting for another one. -/
theorem waiting_sleep_elsewhere {other : Nat} (running : kernel.Running)
    (different : other ≠ data) : (kernel.sleep reason data).waiting reason other = kernel.waiting reason other := by
  apply waiting_congr
  intro pid
  rw [Kernel.waits, sleep_processes]
  split
  · next here =>
    subst here
    simp [Kernel.waits, Process.waits, running, Ne.symm different]
  · rfl

end

end Lfos.Processes
