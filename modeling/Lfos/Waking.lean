import Lfos.Processes

/-!
# What the waking scan does

The scan meets every slot once, starting with the current process, so nothing it does
to one slot is seen again. For messages it wakes all waiters. For a condition variable
it wakes all of them but the one at the position of the amount, because the amount
wraps around there. A mutex without a holder goes to the first waiter, who wakes up,
and the others go on waiting.
-/

namespace Lfos.Processes

open Words CyclicScan List Function

section

variable (kernel : Kernel) (pid : Nat) (state : ProcessState)

@[simp] theorem setState_mutexes : (kernel.setState pid state).mutexes = kernel.mutexes := rfl
@[simp] theorem setState_mqs : (kernel.setState pid state).mqs = kernel.mqs := rfl
@[simp] theorem setState_nextMq : (kernel.setState pid state).nextMq = kernel.nextMq := rfl

@[simp] theorem setState_here :
    (kernel.setState pid state).processes pid = { kernel.processes pid with state := state } :=
  update_self ..

theorem setState_elsewhere {other : Nat} (different : other ≠ pid) :
    (kernel.setState pid state).processes other = kernel.processes other :=
  update_of_ne different ..

theorem setState_waits_elsewhere (reason : WaitReason) (data : Nat) {other : Nat} (different : other ≠ pid) :
    (kernel.setState pid state).waits reason data other = kernel.waits reason data other := by
  rw [Kernel.waits, setState_elsewhere kernel pid state different, Kernel.waits]

end

variable {pid amount mutex : Nat} {entry : MutexData} {reason : WaitReason}

theorem waits_iff {process : Process} {data : Nat} : process.waits reason data = true ↔
    process.state = .waiting ∧ process.waitingFor = reason ∧ process.waitingData = data :=
  decide_eq_true_iff

section

/-- Make processes runnable, in order. -/
def Kernel.wake (kernel : Kernel) (pids : List Nat) : Kernel :=
  pids.foldl (fun kernel pid => kernel.setState pid .runnable) kernel

variable (kernel : Kernel) (pids : List Nat)

@[simp] theorem wake_nil : kernel.wake [] = kernel := rfl

theorem wake_cons (pid : Nat) : kernel.wake (pid :: pids) = (kernel.setState pid .runnable).wake pids := rfl

theorem wake_current : (kernel.wake pids).current = kernel.current := by
  induction pids generalizing kernel with
  | nil => rfl
  | cons pid rest ih => exact ih (kernel.setState pid .runnable)

/-- The tables of what processes wait for are the same. -/
structure SameTables (kernel after : Kernel) : Prop where
  mutexes : after.mutexes = kernel.mutexes
  nextMutex : after.nextMutex = kernel.nextMutex
  condvars : after.condvars = kernel.condvars
  nextCondvar : after.nextCondvar = kernel.nextCondvar
  mqs : after.mqs = kernel.mqs
  nextMq : after.nextMq = kernel.nextMq

theorem wake_tables : SameTables kernel (kernel.wake pids) := by
  induction pids generalizing kernel with
  | nil => exact ⟨rfl, rfl, rfl, rfl, rfl, rfl⟩
  | cons pid rest ih => exact { ih (kernel.setState pid .runnable) with }

theorem wake_processes (pid : Nat) : (kernel.wake pids).processes pid =
    if pid ∈ pids then { kernel.processes pid with state := .runnable } else kernel.processes pid := by
  induction pids generalizing kernel with
  | nil => rfl
  | cons first rest ih =>
    rw [wake_cons, ih]
    by_cases same : pid = first
    · subst same
      simp
    · simp [setState_elsewhere kernel first .runnable same, same]

end

section

/-- The current process falls asleep. -/
def Kernel.sleep (kernel : Kernel) (reason : WaitReason) (data : Nat) : Kernel :=
  schedulerWaitFor kernel kernel.current reason data

variable (kernel : Kernel) (reason : WaitReason) (data : Nat)

theorem waitFor_invalid : schedulerWaitFor kernel invalidPid reason data = kernel.sleep reason data := by
  simp [schedulerWaitFor, Kernel.sleep]

theorem sleep_processes (pid : Nat) : (kernel.sleep reason data).processes pid = if pid = kernel.current then
    { kernel.processes pid with state := .waiting, waitingFor := reason, waitingData := data }
      else kernel.processes pid := by
  by_cases here : pid = kernel.current
  · subst here
    simp [Kernel.sleep, schedulerWaitFor]
  · simp [Kernel.sleep, schedulerWaitFor, here, setState_elsewhere kernel kernel.current .waiting here]

end

theorem scan_eq_rotation (start : Nat) : scan start = rotation maxProcs start := by
  have divides : maxProcs ∣ 2 ^ 64 := by decide
  rw [CyclicScan.rotation]
  apply map_congr_left
  intro i _
  rw [u64, Nat.mod_mod_of_dvd _ divides]

theorem scan_nodup (start : Nat) : (scan start).Nodup := by
  rw [scan_eq_rotation]
  exact rotation_nodup

theorem mem_scan {start : Nat} : pid ∈ scan start ↔ pid < maxProcs := by
  rw [scan_eq_rotation]
  exact mem_rotation

@[simp] theorem scan_length (start : Nat) : (scan start).length = maxProcs := by
  rw [scan_eq_rotation, rotation_length]

/-- The processes that wait for something, in the order of the scan. -/
def Kernel.waiters (kernel : Kernel) (reason : WaitReason) (data : Nat) : List Nat :=
  (scan kernel.current).filter (kernel.waits reason data)

theorem mem_waiters {kernel : Kernel} {data : Nat} :
    pid ∈ kernel.waiters reason data ↔ pid < maxProcs ∧ kernel.waits reason data pid = true := by
  rw [Kernel.waiters, mem_filter, mem_scan]

theorem waiters_nodup (kernel : Kernel) (reason : WaitReason) (data : Nat) :
    (kernel.waiters reason data).Nodup := (scan_nodup _).filter _

section

variable {kernel : Kernel} {data : Nat}

/-- Later slots do not notice that an earlier one was written. -/
theorem filter_waits_setState {order : List Nat} (absent : pid ∉ order) (state : ProcessState) (reason : WaitReason) :
    order.filter ((kernel.setState pid state).waits reason data) = order.filter (kernel.waits reason data) := by
  apply filter_congr
  intro other member
  apply setState_waits_elsewhere
  rintro rfl
  exact absent member

theorem wakeVisit_skip (amount : Nat) (awake : kernel.waits reason data pid = false) :
    wakeVisit reason data (kernel, amount) pid = .ok (kernel, amount) := by
  simp [wakeVisit, awake]

theorem wakeVisit_message (amount : Nat) (waits : kernel.waits .message data pid = true) :
    wakeVisit .message data (kernel, amount) pid = .ok (kernel.setState pid .runnable, amount) := by
  simp [wakeVisit, waits]

theorem wakeVisit_condvar (waits : kernel.waits .condvar data pid = true) (left : amount ≠ 0) :
    wakeVisit .condvar data (kernel, amount) pid = .ok (kernel.setState pid .runnable, u64Sub amount 1) := by
  rw [wakeVisit, if_pos waits]
  exact if_pos left

theorem wakeVisit_condvar_spent (waits : kernel.waits .condvar data pid = true) :
    wakeVisit .condvar data (kernel, 0) pid = .ok (kernel, 2 ^ 64 - 1) := by
  have wraps : u64Sub 0 1 = 2 ^ 64 - 1 := by decide
  rw [wakeVisit, if_pos waits]
  simp only [ne_eq, not_true_eq_false, if_false, wraps]

/-- Every visited waiter for a message is woken. -/
theorem visits_message (order : List Nat) (distinct : order.Nodup) (amount : Nat) :
    order.foldlM (wakeVisit .message data) (kernel, amount) =
    .ok (kernel.wake (order.filter (kernel.waits .message data)), amount) := by
  induction order generalizing kernel with
  | nil => rfl
  | cons pid rest ih =>
    obtain ⟨absent, restDistinct⟩ := nodup_cons.mp distinct
    rw [foldlM_cons]
    cases waits : kernel.waits .message data pid with
    | false =>
      rw [wakeVisit_skip amount waits, filter_cons_of_neg (by simp [waits])]
      exact ih restDistinct
    | true =>
      rw [wakeVisit_message amount waits, filter_cons_of_pos waits, ← filter_waits_setState absent .runnable .message]
      exact ih restDistinct

/-- All visited waiters are woken except the one the amount has run out for. -/
theorem visits_condvar (kernel : Kernel) (data : Nat) (order : List Nat) (distinct : order.Nodup) (word : amount < 2 ^ 64)
    (short : order.length < 2 ^ 64) : ∃ left, order.foldlM (wakeVisit .condvar data) (kernel, amount) =
    .ok (kernel.wake ((order.filter (kernel.waits .condvar data)).eraseIdx amount), left) := by
  induction order generalizing kernel amount with
  | nil => exact ⟨amount, rfl⟩
  | cons pid rest ih =>
    obtain ⟨absent, restDistinct⟩ := nodup_cons.mp distinct
    have restShort : rest.length < 2 ^ 64 := Nat.lt_of_succ_lt short
    rw [foldlM_cons]
    cases waits : kernel.waits .condvar data pid with
    | false =>
      rw [wakeVisit_skip amount waits, filter_cons_of_neg (by simp [waits])]
      exact ih kernel restDistinct word restShort
    | true =>
      rw [filter_cons_of_pos waits]
      cases amount with
      | zero =>
        -- The amount wraps around and lasts for everybody behind.
        rw [wakeVisit_condvar_spent waits]
        obtain ⟨left, rested⟩ := ih kernel restDistinct (show 2 ^ 64 - 1 < 2 ^ 64 by decide) restShort
        have beyond : (rest.filter (kernel.waits .condvar data)).length ≤ 2 ^ 64 - 1 := by
          have bound := length_filter_le (kernel.waits .condvar data) rest
          omega
        rw [eraseIdx_of_length_le beyond] at rested
        exact ⟨left, rested⟩
      | succ amount =>
        have less : u64Sub (amount + 1) 1 = amount := u64Sub_of_le (Nat.succ_pos amount) word
        rw [wakeVisit_condvar waits (Nat.succ_ne_zero amount), less, ← filter_waits_setState absent .runnable .condvar]
        exact ih _ restDistinct (Nat.lt_of_succ_lt word) restShort

/-- A free mutex goes to a process, which wakes up. -/
def Kernel.grant (kernel : Kernel) (mutex pid : Nat) : Kernel :=
  { kernel with mutexes := kernel.mutexes.set mutex ⟨1, pid⟩ }.setState pid .runnable

variable (stored : kernel.mutexes.get mutex = some entry)
include stored

theorem wakeVisit_mutex_held (locked : entry.state ≠ 0) (other : entry.holder ≠ pid) :
    wakeVisit .mutex mutex (kernel, amount) pid = .ok (kernel, amount) := by
  cases waits : kernel.waits .mutex mutex pid with
  | false => exact wakeVisit_skip amount waits
  | true => simp [wakeVisit, waits, mutexLock, stored, locked, other, bind, Except.bind]

theorem wakeVisit_mutex_free (free : entry.state = 0) (waits : kernel.waits .mutex mutex pid = true) :
    wakeVisit .mutex mutex (kernel, amount) pid = .ok (kernel.grant mutex pid, amount) := by
  have one : i32 1 = 1 := by decide
  simp [wakeVisit, waits, mutexLock, stored, free, Kernel.grant, one, bind, Except.bind]

/-- Nobody gets a mutex that somebody else holds. -/
theorem visits_mutex_held (order : List Nat) (locked : entry.state ≠ 0) (others : ∀ pid ∈ order, entry.holder ≠ pid) :
    order.foldlM (wakeVisit .mutex mutex) (kernel, amount) = .ok (kernel, amount) := by
  induction order with
  | nil => rfl
  | cons pid rest ih =>
    rw [foldlM_cons, wakeVisit_mutex_held stored locked (others pid mem_cons_self)]
    exact ih (forall_mem_cons.mp others).2

/-- The first visited waiter gets a free mutex, the others keep waiting. -/
theorem visits_mutex_free (order : List Nat) (distinct : order.Nodup) (free : entry.state = 0) :
    order.foldlM (wakeVisit .mutex mutex) (kernel, amount) =
    .ok ((order.find? (kernel.waits .mutex mutex)).elim kernel (kernel.grant mutex), amount) := by
  induction order with
  | nil => rfl
  | cons pid rest ih =>
    obtain ⟨absent, restDistinct⟩ := nodup_cons.mp distinct
    rw [foldlM_cons]
    cases waits : kernel.waits .mutex mutex pid with
    | false =>
      rw [wakeVisit_skip amount waits, find?_cons_of_neg (by simp [waits])]
      exact ih restDistinct
    | true =>
      rw [wakeVisit_mutex_free stored free waits, find?_cons_of_pos waits]
      have granted : (kernel.grant mutex pid).mutexes.get mutex = some ⟨1, pid⟩ := by
        rw [Kernel.grant, setState_mutexes, MutexTable.get_set, update_self]
      apply visits_mutex_held granted rest Int.one_ne_zero
      rintro other member rfl
      exact absent member

end

section

variable (kernel : Kernel) (data : Nat)

/-- A message wakes everybody who waits for its queue. -/
theorem waitableDone_message (amount : Nat) : schedulerWaitableDone kernel .message data amount =
    .ok (kernel.wake (kernel.waiters .message data)) := by
  rw [schedulerWaitableDone, visits_message _ (scan_nodup _), Except.map, Kernel.waiters]

/-- A signal wakes all waiters but the one at the position of the amount. -/
theorem waitableDone_condvar (word : amount < 2 ^ 64) : schedulerWaitableDone kernel .condvar data amount =
    .ok (kernel.wake ((kernel.waiters .condvar data).eraseIdx amount)) := by
  have short : (scan kernel.current).length < 2 ^ 64 := by
    rw [scan_length]
    decide
  obtain ⟨left, visited⟩ := visits_condvar kernel data _ (scan_nodup kernel.current) word short
  rw [schedulerWaitableDone, visited, Except.map, Kernel.waiters]

/-- The first waiter of a free mutex gets it. -/
theorem waitableDone_mutex (amount : Nat) (stored : kernel.mutexes.get data = some entry) (free : entry.state = 0) :
    schedulerWaitableDone kernel .mutex data amount =
    .ok (((scan kernel.current).find? (kernel.waits .mutex data)).elim kernel (kernel.grant data)) := by
  rw [schedulerWaitableDone, visits_mutex_free stored _ (scan_nodup _) free, Except.map]

end

end Lfos.Processes
