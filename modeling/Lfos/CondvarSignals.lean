import Lfos.Waiters

/-!
# How many processes a signal wakes

A signal asks for an amount of waiters to be woken. The scan decrements the amount for
every waiter it meets and goes on after zero with the largest word, so it leaves out
one waiter at most: the one at the position of the amount. The request is met exactly if
there is no waiter behind that one.
-/

namespace Lfos.Processes

open List Function

/-- As many waiters as asked for, or all of them, became runnable, and nobody else
changed its state. -/
def WokeRequested (kernel after : Kernel) (condvar amount : Nat) : Prop :=
  ∃ woken ⊆ kernel.waiting .condvar condvar, woken.card = min amount (kernel.waiting .condvar condvar).card ∧
    (∀ pid ∈ woken, (after.processes pid).state = .runnable) ∧
    ∀ pid ∉ woken, (after.processes pid).state = (kernel.processes pid).state

variable {kernel : Kernel} {condvar : Nat}

/-- Waking some of the waiters meets the request exactly if their number is right. -/
theorem wokeRequested_wake {amount : Nat} {pids : List Nat}
    (distinct : pids.Nodup) (waiters : pids ⊆ kernel.waiters .condvar condvar) :
    WokeRequested kernel (kernel.wake pids) condvar amount ↔
    pids.length = min amount (kernel.waiting .condvar condvar).card := by
  have changed : ∀ pid, ((kernel.wake pids).processes pid).state ≠ (kernel.processes pid).state ↔ pid ∈ pids := by
    intro pid
    rw [wake_processes]
    by_cases member : pid ∈ pids
    · have waits := (mem_waiters.mp (waiters member)).2
      have asleep : (kernel.processes pid).state = .waiting := (waits_iff.mp waits).1
      simp [member, asleep]
    · simp [member]
  constructor
  · rintro ⟨woken, inside, card, awake, same⟩
    have all : woken = pids.toFinset := by
      ext pid
      rw [mem_toFinset, ← changed pid]
      constructor
      · intro member
        have asleep := (waits_iff.mp (mem_waiting.mp (inside member)).2).1
        rw [awake pid member, asleep]
        decide
      · intro different
        by_contra absent
        exact different (same pid absent)
    rw [← card, all, toFinset_card_of_nodup distinct]
  · intro length
    refine ⟨pids.toFinset, ?_, ?_, ?_, ?_⟩
    · intro pid member
      rw [← waiters_toFinset, mem_toFinset]
      exact waiters (mem_toFinset.mp member)
    · rw [toFinset_card_of_nodup distinct, length]
    · intro pid member
      rw [wake_processes, if_pos (mem_toFinset.mp member)]
    · intro pid absent
      rw [wake_processes, if_neg (fun member => absent (mem_toFinset.mpr member))]

/-- A signal that reaches the scan meets the request if at most one waiter more than the
amount is there. -/
theorem signalled_iff {waitCount : Nat} (amount : Fin (2 ^ 64))
    (stored : kernel.condvars condvar = some waitCount) (counted : waitCount ≠ 0) :
    ∃ outcome after, scHandleLockingSignalCondvar kernel condvar amount = .ok (outcome, after) ∧
    (WokeRequested kernel after condvar amount.val ↔ (kernel.waiting .condvar condvar).card ≤ amount.val + 1) := by
  refine ⟨⟨some 0, none⟩, kernel.wake ((kernel.waiters .condvar condvar).eraseIdx amount.val), ?_, ?_⟩
  · simp [scHandleLockingSignalCondvar, stored, counted, waitableDone_condvar kernel condvar amount.isLt, bind,
      Except.bind]
  · have distinct : ((kernel.waiters .condvar condvar).eraseIdx amount.val).Nodup :=
      (waiters_nodup kernel .condvar condvar).sublist (eraseIdx_sublist _ _)
    rw [wokeRequested_wake distinct (eraseIdx_subset), length_eraseIdx, waiters_length]
    split <;> omega

/-- A signal that does not reach the scan wakes nobody. -/
theorem dropped_iff (amount : Fin (2 ^ 64))
    (dropped : kernel.condvars condvar = none ∨ kernel.condvars condvar = some 0) :
    ∃ outcome after, scHandleLockingSignalCondvar kernel condvar amount = .ok (outcome, after) ∧
    (WokeRequested kernel after condvar amount.val ↔ amount.val = 0 ∨ (kernel.waiting .condvar condvar).card = 0) := by
  have nobody : WokeRequested kernel kernel condvar amount.val ↔
      amount.val = 0 ∨ (kernel.waiting .condvar condvar).card = 0 := by
    have unwoken : WokeRequested kernel (kernel.wake []) condvar amount.val ↔
        [].length = min amount.val (kernel.waiting .condvar condvar).card :=
      wokeRequested_wake nodup_nil (nil_subset _)
    rw [wake_nil, length_nil] at unwoken
    rw [unwoken]
    omega
  rcases dropped with missing | unawaited
  · exact ⟨⟨some einval, none⟩, kernel, by simp [scHandleLockingSignalCondvar, missing], nobody⟩
  · exact ⟨⟨none, none⟩, kernel, by simp [scHandleLockingSignalCondvar, unawaited], nobody⟩

/-- The condition under which a signal does what it is asked for: no more than one waiter
too many where the condition variable counts waiters, and nothing to do elsewhere. -/
def Signallable (kernel : Kernel) (condvar amount : Nat) : Prop :=
  match kernel.condvars condvar with
  | some (_ + 1) => (kernel.waiting .condvar condvar).card ≤ amount + 1
  | _ => amount = 0 ∨ (kernel.waiting .condvar condvar).card = 0

/-- A signal returns, and wakes the requested number exactly under the condition. -/
theorem signal_wakes_requested_iff (kernel : Kernel) (condvar : Nat) (amount : Fin (2 ^ 64)) :
    ∃ outcome after, scHandleLockingSignalCondvar kernel condvar amount = .ok (outcome, after) ∧
      (WokeRequested kernel after condvar amount.val ↔ Signallable kernel condvar amount.val) := by
  rw [Signallable]
  cases stored : kernel.condvars condvar with
  | none => exact dropped_iff amount (.inl stored)
  | some waitCount =>
    cases waitCount with
    | zero => exact dropped_iff amount (.inr stored)
    | succ waitCount => exact signalled_iff amount stored (Nat.succ_ne_zero waitCount)

/-- Two processes wait for a condition variable, and a third one runs. -/
def twoWaiters : Kernel where
  processes
    | 0 => ⟨invalidPid, 0, .waiting, .condvar, 1, 1⟩
    | 1 => ⟨invalidPid, 0, .waiting, .condvar, 1, 2⟩
    | 2 => ⟨invalidPid, 0, .running, .time, 0, 3⟩
    | _ => .unused
  current := 2
  lastScheduled := 2
  mutexes := .empty
  nextMutex := 1
  condvars := update (fun _ => none) 1 (some 2)
  nextCondvar := 2
  mqs := update (update (update (fun _ => none) 1 (some [])) 2 (some [])) 3 (some [])
  nextMq := 4
  history := []

theorem twoWaiters_waiting : twoWaiters.waiting .condvar 1 = {0, 1} := by
  ext pid
  rw [mem_waiting, Kernel.waits, waits_iff]
  rcases pid with _ | _ | _ | pid
  · simp [twoWaiters, maxProcs]
  · simp [twoWaiters, maxProcs]
  · simp [twoWaiters]
  · simp [twoWaiters, Process.unused]

/-- A signal for nobody wakes one of two waiters. -/
theorem signal_for_nobody_wakes_one :
    ∃ outcome after, scHandleLockingSignalCondvar twoWaiters 1 0 = .ok (outcome, after) ∧
      ¬ WokeRequested twoWaiters after 1 0 := by
  have stored : twoWaiters.condvars 1 = some 2 := rfl
  obtain ⟨outcome, after, returned, requested⟩ := signalled_iff 0 stored (by decide)
  refine ⟨outcome, after, returned, ?_⟩
  have two : (twoWaiters.waiting .condvar 1).card = 2 := by
    rw [twoWaiters_waiting]
    rfl
  intro woke
  have few := requested.mp woke
  rw [two] at few
  exact absurd few (by decide)

end Lfos.Processes
