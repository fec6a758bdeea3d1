import Lfos.Actions

/-!
# What a kernel entry leaves alone

A kernel entry that is not about a reason to wait keeps the processes that wait with
that reason, what they wait for, and the table behind it.
-/

namespace Lfos.Processes

/-- The things processes wait for with a reason are the same. -/
def SameTable : WaitReason → Kernel → Kernel → Prop
  | .mutex, kernel, after => after.mutexes = kernel.mutexes ∧ after.nextMutex = kernel.nextMutex
  | .condvar, kernel, after => after.condvars = kernel.condvars ∧ after.nextCondvar = kernel.nextCondvar
  | .message, kernel, after => after.mqs = kernel.mqs ∧ after.nextMq = kernel.nextMq
  | .time, _, _ => True

/-- The processes that wait with a reason are the same, and so is what they wait for. -/
structure Keeps (reason : WaitReason) (kernel after : Kernel) : Prop where
  waits : ∀ data pid, after.waits reason data pid = kernel.waits reason data pid
  table : SameTable reason kernel after

/-- A process does not wait with a reason. -/
def Kernel.Awake (kernel : Kernel) (reason : WaitReason) (pid : Nat) : Prop :=
  ∀ data, kernel.waits reason data pid = false

section

variable {reason : WaitReason} {kernel middle after : Kernel} {pid : Nat}

theorem waits_eq_false_iff {process : Process} {data : Nat} : process.waits reason data = false ↔
    ¬ (process.state = .waiting ∧ process.waitingFor = reason ∧ process.waitingData = data) :=
  decide_eq_false_iff_not

theorem awake_of_state (awake : (kernel.processes pid).state ≠ .waiting) : kernel.Awake reason pid :=
  fun _ => waits_eq_false_iff.mpr (fun waits => awake waits.1)

theorem awake_of_waits {other : WaitReason} {data : Nat} (waits : kernel.waits other data pid = true)
    (different : reason ≠ other) : kernel.Awake reason pid := by
  intro target
  rw [Kernel.waits, waits_eq_false_iff]
  intro claimed
  exact different (claimed.2.1.symm.trans (waits_iff.mp waits).2.1)

theorem sameTable_of (same : SameTables kernel after) : SameTable reason kernel after := by
  cases reason with
  | mutex => exact ⟨same.mutexes, same.nextMutex⟩
  | condvar => exact ⟨same.condvars, same.nextCondvar⟩
  | message => exact ⟨same.mqs, same.nextMq⟩
  | time => trivial

theorem keeps_refl (reason : WaitReason) (kernel : Kernel) : Keeps reason kernel kernel :=
  ⟨fun _ _ => rfl, sameTable_of ⟨rfl, rfl, rfl, rfl, rfl, rfl⟩⟩

theorem Keeps.trans (first : Keeps reason kernel middle) (second : Keeps reason middle after) :
    Keeps reason kernel after := by
  refine ⟨fun data pid => (second.waits data pid).trans (first.waits data pid), ?_⟩
  have before := first.table
  have behind := second.table
  cases reason with
  | time => trivial
  | _ => exact ⟨behind.1.trans before.1, behind.2.trans before.2⟩

/-- Changing no process. -/
theorem keeps_tables (processes : after.processes = kernel.processes) (table : SameTable reason kernel after) :
    Keeps reason kernel after := by
  refine ⟨?_, table⟩
  intro data pid
  rw [Kernel.waits, processes, Kernel.waits]

theorem keeps_setState (awake : kernel.Awake reason pid) {state : ProcessState} (stays : state ≠ .waiting) :
    Keeps reason kernel (kernel.setState pid state) := by
  refine ⟨?_, sameTable_of ⟨rfl, rfl, rfl, rfl, rfl, rfl⟩⟩
  intro data other
  by_cases here : other = pid
  · subst here
    rw [awake data, Kernel.waits, setState_here, waits_eq_false_iff]
    exact fun waits => stays waits.1
  · exact setState_waits_elsewhere kernel pid state reason data here

/-- Changing data of a process that the waking scan does not read. -/
theorem keeps_amend {change : Process → Process} (same : ∀ process, (change process).state = process.state ∧
    (change process).waitingFor = process.waitingFor ∧ (change process).waitingData = process.waitingData) :
    Keeps reason kernel (kernel.amend pid change) := by
  refine ⟨?_, sameTable_of ⟨rfl, rfl, rfl, rfl, rfl, rfl⟩⟩
  intro data other
  by_cases here : other = pid
  · subst here
    obtain ⟨state, waitingFor, waitingData⟩ := same (kernel.processes other)
    simp [Kernel.waits, Kernel.amend, Process.waits, state, waitingFor, waitingData]
  · simp [Kernel.waits, Kernel.amend, here]

/-- Falling asleep for another reason. -/
theorem keeps_sleep {other : WaitReason} (different : reason ≠ other)
    (awake : kernel.Awake reason kernel.current) (data : Nat) : Keeps reason kernel (kernel.sleep other data) := by
  refine ⟨?_, sameTable_of ⟨rfl, rfl, rfl, rfl, rfl, rfl⟩⟩
  intro target pid
  rw [Kernel.waits, sleep_processes]
  split
  · next here =>
    rw [here, awake target, waits_eq_false_iff]
    exact fun waits => different waits.2.1.symm
  · rfl

end

section

variable {reason : WaitReason} (kernel : Kernel)
include kernel

theorem keeps_preempt : Keeps reason kernel (preempt kernel) := by
  rw [preempt]
  split
  · next running => exact keeps_setState (awake_of_state (by simp [running])) (by decide)
  · exact keeps_refl reason kernel

theorem keeps_wakeSleeper (other : reason ≠ .time) (now : Nat) (timestamp pid : Nat) :
    Keeps reason kernel (wakeSleeper now kernel timestamp pid).1 := by
  simp only [wakeSleeper]
  split
  · next asleep =>
    have awake : kernel.Awake reason pid := fun data =>
      waits_eq_false_iff.mpr (fun waits => other (waits.2.1.symm.trans asleep.2))
    generalize (if (kernel.processes pid).waitingData ≠ 0 ∧ timestamp = 0 then now else timestamp) = clock
    split
    · exact keeps_setState awake (by decide)
    · exact keeps_refl reason kernel
  · exact keeps_refl reason kernel

theorem keeps_selectFrom (other : reason ≠ .time) (now : Nat) (order : List Nat)
    (timestamp : Nat) : Keeps reason kernel (selectFrom now order kernel timestamp) := by
  induction order generalizing kernel timestamp with
  | nil => exact keeps_refl reason kernel
  | cons pid rest ih =>
    rw [selectFrom]
    apply (keeps_wakeSleeper kernel other now timestamp pid).trans
    split
    · exact keeps_tables rfl (sameTable_of ⟨rfl, rfl, rfl, rfl, rfl, rfl⟩)
    · exact ih _ _

theorem keeps_dispatch : Keeps reason kernel (dispatch kernel) := by
  have moved : ∀ current last, Keeps reason kernel { kernel with current := current, lastScheduled := last } :=
    fun _ _ => keeps_tables rfl (sameTable_of ⟨rfl, rfl, rfl, rfl, rfl, rfl⟩)
  rw [dispatch]
  split
  · exact moved invalidPid kernel.lastScheduled
  · next able =>
    apply (moved kernel.current kernel.current).trans
    apply keeps_setState _ (by decide)
    apply awake_of_state
    intro waiting
    have waiting : (kernel.processes kernel.current).state = .waiting := waiting
    exact able (by simp [stuck, waiting])

theorem keeps_scheduleNext (other : reason ≠ .time) (now : Nat) : Keeps reason kernel (scheduleNext now kernel) := by
  apply (keeps_preempt kernel).trans
  apply (keeps_selectFrom _ other now _ 0).trans
  exact keeps_dispatch _

theorem keeps_scheduleNextIfNeeded (other : reason ≠ .time) (now : Nat) :
    Keeps reason kernel (scheduleNextIfNeeded now kernel) := by
  rw [scheduleNextIfNeeded]
  split
  · exact keeps_scheduleNext kernel other now
  · exact keeps_refl reason kernel

end

variable {kernel after : Kernel} {reason : WaitReason} {event : Event}

/-- An action keeps a reason it is not about. -/
theorem keeps_action {allowed : WaitReason → Prop}
    (action : Action allowed kernel after) (other : ¬ allowed reason) : Keeps reason kernel after := by
  have different : ∀ about, allowed about → reason ≠ about := by
    rintro about concerned rfl
    exact other concerned
  cases action with
  | mutexes table next about | condvars table next about | mqs table next about =>
    refine keeps_tables rfl ?_
    cases reason <;> trivial
  | wake about inside waits => exact keeps_setState (awake_of_waits waits (different _ about)) (by decide)
  | sleep data about running =>
    exact keeps_sleep (different _ about) (awake_of_state (by simp [running])) data
  | finish final running =>
    apply keeps_setState (awake_of_state (by simp [running]))
    rcases final with rfl | rfl <;> decide
  | spawn inside unused => exact keeps_setState (awake_of_state (by simp [unused])) (by decide)
  | amend pid change same parents => exact keeps_amend same

/-- Actions keep a reason they are not about. -/
theorem keeps_acts {allowed : WaitReason → Prop}
    (acts : Acts allowed kernel after) (other : ¬ allowed reason) : Keeps reason kernel after :=
  acts.keeps (keeps_refl reason kernel) (fun _ _ kept action => kept.trans (keeps_action action other))

/-- Every kernel entry that may call the scheduler is about time. -/
theorem concerns_time {call : Nat × Kernel} (calls : called kernel event = some call) : event.Concerns .time := by
  cases event with
  | startTask entry => exact absurd calls (by simp [called])
  | interrupt queues now => exact .inr rfl
  | exception code handled now => exact .inr (.inr rfl)
  | syscall call now => exact .inr rfl

theorem handles_concerns (handled : event.Handles reason) : event.Concerns reason := by
  cases event with
  | startTask entry => exact handled
  | interrupt queues now => exact .inl handled
  | exception code resolved now => exact handled.imp_right .inl
  | syscall call now => exact .inl handled

/-- What happens at the end of a kernel entry keeps a reason the entry does not concern. -/
theorem keeps_leaves {middle : Kernel}
    (leaves : Leaves kernel event middle after) (other : ¬ event.Concerns reason) : Keeps reason middle after := by
  rcases leaves with ⟨now, calls, same⟩ | ⟨_, same⟩
  · rw [same]
    apply keeps_scheduleNext
    rintro rfl
    exact other (concerns_time calls)
  · rw [same]
    exact keeps_refl reason middle

/-- A kernel entry keeps a reason it does not concern. -/
theorem keeps_step
    (taken : machine.step kernel event after) (other : ¬ event.Concerns reason) : Keeps reason kernel after := by
  obtain ⟨middle, acts, leaves⟩ := acts_step taken (fun _ handled => handled)
  exact (keeps_acts acts (fun handled => other (handles_concerns handled))).trans (keeps_leaves leaves other)

/-- Behind a system call the scheduler keeps what is not about the time. -/
theorem syscall_keeps (reason : WaitReason) {call : SystemCall} {now : Nat}
    (taken : machine.step kernel (.syscall call now) after) (other : reason ≠ .time) :
    kernel.Running ∧
    ∃ outcome handled, scHandle kernel call = .ok (outcome, handled) ∧ Keeps reason handled after := by
  obtain ⟨running, outcome, handled, answered, same⟩ := syscall_inv taken
  rw [same]
  exact ⟨running, outcome, handled, answered, keeps_scheduleNextIfNeeded handled other now⟩

/-- Nothing but a system call concerns condition variables. -/
theorem condvar_concerns (concerned : event.Concerns .condvar) :
    ∃ call now, event = .syscall call now ∧ call.Concerns .condvar := by
  cases event with
  | syscall call now => exact ⟨call, now, rfl, concerned.resolve_right (by decide)⟩
  | _ => exact absurd concerned (by simp [Event.Concerns])

/-- What a process has that neither the scheduler nor the waking scan writes. -/
def Process.identity (process : Process) : Nat × Nat := (process.parent, process.mq)

theorem setState_identity (kernel : Kernel) (pid : Nat) (state : ProcessState) (other : Nat) :
    ((kernel.setState pid state).processes other).identity = (kernel.processes other).identity := by
  by_cases here : other = pid
  · subst here
    rw [setState_here]
    rfl
  · rw [setState_elsewhere kernel pid state here]

theorem wake_identity (kernel : Kernel) (pids : List Nat) (other : Nat) :
    ((kernel.wake pids).processes other).identity = (kernel.processes other).identity := by
  rw [wake_processes]
  split <;> rfl

theorem unlocked_identity (kernel : Kernel) (mutex : Nat) (entry : MutexData) (other : Nat) :
    ((kernel.unlocked mutex entry).processes other).identity = (kernel.processes other).identity := by
  simp only [Kernel.unlocked]
  split
  · cases (scan kernel.current).find? (kernel.waits .mutex mutex) with
    | none => rfl
    | some waiter => rw [Option.elim_some, Kernel.grant, setState_identity]
  · rfl

theorem unlockHolder_identity {pid : Nat} (done : mutexUnlockHolder kernel pid = .ok after)
    (other : Nat) : (after.processes other).identity = (kernel.processes other).identity := by
  have kept : ∀ (middle : Kernel) (mutex : Nat) (entry : MutexData),
      (middle.processes other).identity = (kernel.processes other).identity →
      middle.mutexes.get mutex = some entry → entry.state ≠ 0 → entry.holder = pid →
      ((middle.unlocked mutex entry).processes other).identity = (kernel.processes other).identity :=
    fun middle mutex entry same _ _ _ => (unlocked_identity middle mutex entry other).trans same
  exact unlockHolder_induct kept done rfl

theorem pushed_identity (kernel : Kernel) (mq size other : Nat) :
    ((kernel.pushed mq size).processes other).identity = (kernel.processes other).identity := by
  rw [Kernel.pushed]
  cases kernel.mqs mq with
  | none => rfl
  | some queue =>
    rw [wake_identity]

theorem ended_identity (kernel : Kernel) (state : ProcessState) (code other : Nat) :
    ((kernel.ended state code).processes other).identity = (kernel.processes other).identity := by
  rw [Kernel.ended]
  by_cases here : other = kernel.current
  · subst here
    simp [Kernel.amend, Process.identity]
  · simp [Kernel.amend, here, setState_elsewhere kernel kernel.current state here]

theorem notified_identity (kernel : Kernel) (pid other : Nat) :
    ((kernel.notified pid).processes other).identity = (kernel.processes other).identity := by
  simp only [Kernel.notified]
  split
  · exact pushed_identity kernel _ _ other
  · rfl

/-- A process that ends still has its queue when the queue is destroyed. -/
theorem finish_own {unlocked : Kernel} {state : ProcessState} {code : Nat}
    (released : mutexUnlockHolder (kernel.ended state code) kernel.current = .ok unlocked) :
    ((unlocked.notified kernel.current).processes kernel.current).mq = (kernel.processes kernel.current).mq := by
  have unchanged := (notified_identity unlocked kernel.current kernel.current).trans
    ((unlockHolder_identity released kernel.current).trans (ended_identity kernel state code kernel.current))
  exact congrArg Prod.snd unchanged

end Lfos.Processes
