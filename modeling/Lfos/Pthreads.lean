import Lfos.CondvarCounts
import Lfos.Dialogues

/-!
# POSIX threads on top of the system calls

The library functions make one or more system calls each, between which other processes
run. A mutex or condition variable that is zero is created on first use. What a variable
holds behind a call that failed to create it is unspecified, and so is the error of a call
that leaves it unset.

A broadcast asks to wake nobody. The kernel reads the amount as a budget that wraps around,
and so wakes all waiters but the first.
-/

namespace Lfos.Processes

open Dialogues

/-- What a library function returns, and what its variable holds afterwards. -/
structure Returned where
  error : Option Nat
  handle : Option Nat

abbrev Library := Dialogue SystemCall Outcome Returned

def pthreadCondInit : Library := do
  let outcome ← request .createCondvar
  return ⟨outcome.error, outcome.value⟩

def pthreadMutexInit : Library := do
  let outcome ← request .createMutex
  return ⟨outcome.error, outcome.value⟩

def pthreadEnsureCondvar (condvar : Nat) : Library :=
  if condvar = 0 then pthreadCondInit else return ⟨some 0, some condvar⟩

def pthreadEnsureMutex (mutex : Nat) : Library :=
  if mutex = 0 then pthreadMutexInit else return ⟨some 0, some mutex⟩

/-- Go on with the variable, or return the error. -/
def unlessFailed (ensured : Returned) (rest : Nat → Library) : Library :=
  if ensured.error = some 0 then rest (ensured.handle.getD 0) else return ensured

/-- Signalling and broadcasting differ in the amount. -/
def pthreadCondNotify (amount : Fin (2 ^ 64)) (condvar : Nat) : Library := do
  let ensured ← pthreadEnsureCondvar condvar
  unlessFailed ensured fun condvar => do
    let outcome ← request (.signalCondvar condvar amount)
    return ⟨outcome.error, some condvar⟩

def pthreadCondSignal (condvar : Nat) : Library := pthreadCondNotify 1 condvar

def pthreadCondBroadcast (condvar : Nat) : Library := pthreadCondNotify 0 condvar

def pthreadMutexLock (mutex : Nat) : Library := do
  let ensured ← pthreadEnsureMutex mutex
  unlessFailed ensured fun mutex => do
    let outcome ← request (.lockMutex mutex false)
    return ⟨outcome.error, some mutex⟩

def pthreadMutexUnlock (mutex : Nat) : Library := do
  let outcome ← request (.unlockMutex mutex)
  return ⟨outcome.error, some mutex⟩

/-- Unlock, wait, lock: three system calls. -/
def pthreadCondWait (cond mutex : Nat) : Library := do
  let unlocked ← pthreadMutexUnlock mutex
  unlessFailed unlocked fun mutex => do
    let ensured ← pthreadEnsureCondvar cond
    unlessFailed ensured fun cond => do
      let outcome ← request (.waitCondvar cond)
      unlessFailed ⟨outcome.error, some cond⟩ fun cond => do
        let locked ← pthreadMutexLock mutex
        return ⟨locked.error, some cond⟩

section

variable {condvar mutex : Nat}

theorem unlessFailed_ok (handle : Nat) (rest : Nat → Library) :
    unlessFailed ⟨some 0, some handle⟩ rest = rest handle := if_pos rfl

/-- One system call is left of a notification where the condition variable exists. -/
theorem notify_created (amount : Fin (2 ^ 64)) (created : condvar ≠ 0) : pthreadCondNotify amount condvar =
    .ask (.signalCondvar condvar amount) (fun outcome => .done ⟨outcome.error, some condvar⟩) := by
  simp only [pthreadCondNotify, pthreadEnsureCondvar, if_neg created, pure_eq, done_bind, unlessFailed_ok, request_bind]

theorem lock_created (created : mutex ≠ 0) : pthreadMutexLock mutex =
    .ask (.lockMutex mutex false) (fun outcome => .done ⟨outcome.error, some mutex⟩) := by
  simp only [pthreadMutexLock, pthreadEnsureMutex, if_neg created, pure_eq, done_bind, unlessFailed_ok, request_bind]

end

/-- Serve a system call of the process that runs. -/
def serve (now : Nat) (kernel : Kernel) (call : SystemCall) : Except Panic (Outcome × Kernel) :=
  step kernel (.syscall call now)

/-- Nobody waits for a condition variable any more, and nobody who waits for anything else
has changed its state. -/
structure WokeEverybody (kernel after : Kernel) (condvar : Nat) : Prop where
  empty : after.waiting .condvar condvar = ∅
  others : ∀ pid, (kernel.processes pid).state = .waiting → pid ∉ kernel.waiting .condvar condvar →
    (after.processes pid).state = .waiting

section

variable {kernel : Kernel} {condvar waitCount : Nat}

/-- A notification without interruption is its system call. -/
theorem notify_run (amount : Fin (2 ^ 64)) (now : Nat) (created : condvar ≠ 0)
    {outcome : Outcome} {after : Kernel}
    (answered : scHandleLockingSignalCondvar kernel condvar amount = .ok (outcome, after))
    (still : after.Running) :
    (pthreadCondNotify amount condvar).run (serve now) kernel = .ok (⟨outcome.error, some condvar⟩, after) := by
  have served : serve now kernel (.signalCondvar condvar amount) = .ok (outcome, after) := by
    simp only [serve, step, scHandle, answered, bind, Except.bind, goes_on still]
  rw [notify_created amount created]
  simp only [Dialogue.run, served, bind, Except.bind]

/-- Waking waiters does not stop the process that runs. -/
theorem wake_running {pids : List Nat} (running : kernel.Running)
    (waiters : pids ⊆ kernel.waiters .condvar condvar) :
    ((kernel.wake pids).processes (kernel.wake pids).current).state = .running := by
  have absent : kernel.current ∉ pids := by
    intro member
    have asleep := (waits_iff.mp (mem_waiters.mp (waiters member)).2).1
    rw [running] at asleep
    exact absurd asleep (by decide)
  rw [wake_current, wake_processes, if_neg absent]
  exact running

/-- A signal for nobody leaves one waiter, if there was one. -/
theorem signal_zero_leaves (kernel : Kernel) (condvar : Nat) :
    (kernel.wake ((kernel.waiters .condvar condvar).eraseIdx 0)).waiting .condvar condvar = ∅ ↔
    kernel.waiting .condvar condvar = ∅ := by
  rw [← Finset.card_eq_zero, ← Finset.card_eq_zero, card_signalled, woken_length]
  split <;> omega

/-- Waking only waiters leaves everybody else asleep. -/
theorem wokeEverybody_wake_iff {pids : List Nat} (waiters : pids ⊆ kernel.waiters .condvar condvar) :
    WokeEverybody kernel (kernel.wake pids) condvar ↔ (kernel.wake pids).waiting .condvar condvar = ∅ := by
  constructor
  · intro woke
    exact woke.empty
  · intro empty
    refine ⟨empty, ?_⟩
    intro pid asleep other
    have absent : pid ∉ pids := fun member => other (mem_waiting.mpr (mem_waiters.mp (waiters member)))
    rw [wake_processes, if_neg absent]
    exact asleep

/-- A broadcast wakes some waiters, and all of them only if there are none. -/
theorem broadcast_wakes (now : Nat) (created : condvar ≠ 0)
    (running : kernel.Running) (stored : kernel.condvars condvar = some waitCount) :
    ∃ returned pids, pids ⊆ kernel.waiters .condvar condvar ∧
    (pthreadCondBroadcast condvar).run (serve now) kernel = .ok (returned, kernel.wake pids) ∧
    ((kernel.wake pids).waiting .condvar condvar = ∅ ↔ kernel.waiting .condvar condvar = ∅) := by
  by_cases counted : waitCount = 0
  · have dropped : scHandleLockingSignalCondvar kernel condvar 0 = .ok (⟨none, none⟩, kernel.wake []) := by
      simp [scHandleLockingSignalCondvar, stored, counted]
    refine ⟨_, [], List.nil_subset _, notify_run 0 now created dropped ?_, Iff.rfl⟩
    exact wake_running running (List.nil_subset (kernel.waiters .condvar condvar))
  · have subset : (kernel.waiters .condvar condvar).eraseIdx 0 ⊆ kernel.waiters .condvar condvar := List.eraseIdx_subset
    have woken : scHandleLockingSignalCondvar kernel condvar 0 =
        .ok (⟨some 0, none⟩, kernel.wake ((kernel.waiters .condvar condvar).eraseIdx 0)) := by
      simp [scHandleLockingSignalCondvar, stored, counted, waitableDone_condvar kernel condvar (Nat.two_pow_pos 64),
        bind, Except.bind]
    exact ⟨_, _, subset, notify_run 0 now created woken (wake_running running subset),
      signal_zero_leaves kernel condvar⟩

end

/-- A broadcast returns, and it wakes everybody only if nobody waits. -/
theorem broadcast_wakes_everybody_iff {kernel : Kernel} {condvar waitCount : Nat} (now : Nat)
    (created : condvar ≠ 0) (running : kernel.Running)
    (stored : kernel.condvars condvar = some waitCount) :
    ∃ returned after, (pthreadCondBroadcast condvar).run (serve now) kernel = .ok (returned, after) ∧
      (WokeEverybody kernel after condvar ↔ kernel.waiting .condvar condvar = ∅) := by
  obtain ⟨returned, pids, waiters, ran, left⟩ := broadcast_wakes now created running stored
  refine ⟨returned, kernel.wake pids, ran, ?_⟩
  rw [wokeEverybody_wake_iff waiters, left]

/-- Where nobody waits, a broadcast has nothing to do. -/
theorem broadcast_wakes_everybody_unawaited : ∃ returned after,
    (pthreadCondBroadcast 1).run (serve 0) condvarMade = .ok (returned, after) ∧ WokeEverybody condvarMade after 1 := by
  have stored : condvarMade.condvars 1 = some 0 := rfl
  obtain ⟨returned, after, ran, woke⟩ := broadcast_wakes_everybody_iff 0 one_ne_zero rfl stored
  exact ⟨returned, after, ran, woke.mpr condvarMade_unawaited⟩

/-- A broadcast to a single waiter leaves it waiting. -/
theorem broadcast_skips_single_waiter : 0 ∈ oneWaits.waiting .condvar 1 ∧ ∃ returned after,
    (pthreadCondBroadcast 1).run (serve 0) oneWaits = .ok (returned, after) ∧ ¬ WokeEverybody oneWaits after 1 := by
  have stored : oneWaits.condvars 1 = some 1 := rfl
  obtain ⟨returned, pids, _, ran, left⟩ := broadcast_wakes 0 one_ne_zero rfl stored
  refine ⟨oneWaits_waiting, returned, _, ran, ?_⟩
  intro woke
  have waits := oneWaits_waiting
  rw [left.mp woke.empty] at waits
  exact absurd waits (Finset.notMem_empty 0)

end Lfos.Processes
