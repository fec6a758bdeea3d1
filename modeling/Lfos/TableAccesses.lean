import Lfos.RoundRobin

/-!
# Indexing the process table

`INVALID_PID` is the largest unsigned word, and it is stored as the current process while
the processor idles and as the parent of boot tasks. The guards against it are written as
`>= 0`, which holds of every unsigned word, so they guard nothing. The indices used are
listed here as the functions use them, and they are all in range exactly if there is a
current process when an interrupt arrives, and a parent when a process dies.
-/

namespace Lfos.Processes

open Results Transitions List Function

/-- The guard `scheduler_current_process >= 0` always holds. -/
def schedulerProcessSaveAccesses (kernel : Kernel) : List Nat := [kernel.current]

def schedulerIdleIfNeededAccesses (kernel : Kernel) : List Nat := [kernel.current]

/-- The slots the scan of the scheduler looks at. -/
def selectAccesses (now : Nat) : List Nat → Kernel → Nat → List Nat
  | [], _, _ => []
  | pid :: rest, kernel, timestamp =>
    let visited := wakeSleeper now kernel timestamp pid
    if (visited.1.processes pid).state = .runnable then [pid]
    else pid :: selectAccesses now rest visited.1 visited.2

/-- The current process, the slots of the scan, and the process that is current then, which
is looked at once more if it is going to run. -/
def scheduleNextAccesses (now : Nat) (kernel : Kernel) : List Nat :=
  let order := scan (kernel.lastScheduled + 1)
  let selected := selectFrom now order (preempt kernel) 0
  kernel.current :: (selectAccesses now order (preempt kernel) 0 ++ schedulerIdleIfNeededAccesses selected ++
    if stuck selected then [] else [selected.current])

def scheduleNextIfNeededAccesses (now : Nat) (kernel : Kernel) : List Nat :=
  kernel.current :: if stuck kernel then scheduleNextAccesses now kernel else []

/-- The dead process and its parent; the guard `parent >= 0` always holds. -/
def schedulerProcessCleanupAccesses (kernel : Kernel) (pid : Nat) : List Nat :=
  match mutexUnlockHolder kernel pid with
  | .error _ => []
  | .ok unlocked => [pid, (unlocked.processes pid).parent]

/-- The accesses behind a handler that did not panic. -/
def accessesBehind (handled : Except Panic Kernel) (accesses : Kernel → List Nat) : List Nat :=
  match handled with
  | .error _ => []
  | .ok after => accesses after

/-- The indices used during a kernel entry. -/
def accesses (kernel : Kernel) : Event → List Nat
  | .startTask _ => []
  | .interrupt queues now =>
    schedulerProcessSaveAccesses kernel ++
      accessesBehind (pushAll kernel queues interruptMessageSize) (scheduleNextAccesses now)
  | .exception reason handled now =>
    schedulerProcessSaveAccesses kernel ++
      (if handled then [] else schedulerProcessCleanupAccesses (kernel.ended .killed reason) kernel.current) ++
      accessesBehind (handleUserspaceException kernel reason handled) (scheduleNextIfNeededAccesses now)
  | .syscall call now =>
    schedulerProcessSaveAccesses kernel ++ (match call with
        | .exit exitCode => schedulerProcessCleanupAccesses (kernel.ended .exited exitCode) kernel.current
        | _ => []) ++
      accessesBehind ((scHandle kernel call).map Prod.snd) (fun after =>
        schedulerProcessSaveAccesses after ++ scheduleNextIfNeededAccesses now after)

/-- There is a current process where an interrupt arrives, and a parent where a process
dies. -/
def Guarded (kernel : Kernel) : Event → Prop
  | .startTask _ => True
  | .interrupt _ _ => kernel.current ≠ invalidPid
  | .exception _ handled _ => handled = true ∨ (kernel.processes kernel.current).parent ≠ invalidPid
  | .syscall (.exit _) _ => (kernel.processes kernel.current).parent ≠ invalidPid
  | .syscall _ _ => True

/-- A pid of the table, or none. -/
def ValidPid (pid : Nat) : Prop := pid < maxProcs ∨ pid = invalidPid

/-- The current process and all parents are in the table, or there are none. -/
structure Charted (kernel : Kernel) : Prop where
  current : ValidPid kernel.current
  parents : ∀ pid, ValidPid (kernel.processes pid).parent

theorem invalidPid_outside : ¬ invalidPid < maxProcs := by decide

theorem ValidPid.inside_iff {pid : Nat} (valid : ValidPid pid) : pid < maxProcs ↔ pid ≠ invalidPid := by
  have outside := invalidPid_outside
  rcases valid with inside | rfl
  · grind
  · simp [outside]

variable {kernel after : Kernel}

section

variable (charted : Charted kernel) (settled : Settled kernel)
include charted settled

variable {allowed : WaitReason → Prop}

theorem charted_action (action : Action allowed kernel after) : Charted after := by
  have written : ∀ pid state, Charted (kernel.setState pid state) := by
    intro pid state
    refine ⟨charted.current, fun other => ?_⟩
    have parent : ((kernel.setState pid state).processes other).parent = (kernel.processes other).parent :=
      congrArg Prod.fst (setState_identity kernel pid state other)
    rw [parent]
    exact charted.parents other
  cases action with
  | mutexes | condvars | mqs => exact ⟨charted.current, charted.parents⟩
  | wake about inside waits => exact written _ _
  | sleep data about running =>
    refine ⟨charted.current, fun other => ?_⟩
    rw [sleep_processes]
    split <;> exact charted.parents other
  | finish final running | spawn inside unused => exact written _ _
  | amend pid change same parents =>
    refine ⟨charted.current, fun other => ?_⟩
    by_cases here : other = pid
    · subst here
      rw [show (kernel.amend other change).processes other = change (kernel.processes other) from
        update_self ..]
      rcases parents (kernel.processes other) with kept | orphan | ⟨child, running⟩
      · rw [kept]
        exact charted.parents other
      · exact .inr orphan
      · rw [child]
        exact .inl (settled.inside (by simp [running]))
    · rw [show (kernel.amend pid change).processes other = kernel.processes other from update_of_ne here ..]
      exact charted.parents other

theorem charted_acts (acts : Acts allowed kernel after) : Charted after := by
  have both : Charted after ∧ Settled after := by
    apply acts.keeps ⟨charted, settled⟩
    rintro middle last ⟨good, ready⟩ action
    exact ⟨charted_action good ready action, (action_lives ready action).1⟩
  exact both.1

theorem charted_scheduleNext (now : Nat) : Charted (scheduleNext now kernel) := by
  have schedules := schedules settled.currentUsable now
  cases found : kernel.firstReady now with
  | none =>
    rw [schedules.idles (firstReady_none.mp found)]
    exact ⟨.inr rfl, charted.parents⟩
  | some pid =>
    have chosen := firstReady_some.mp found
    have dispatched := schedules.chooses pid chosen
    refine ⟨.inl (dispatched.current ▸ chosen.inside), fun other => ?_⟩
    by_cases here : other = pid
    · rw [here, dispatched.runs]
      exact charted.parents pid
    · by_cases preempted : other = kernel.current ∧ (kernel.processes other).state = .running
      · rw [dispatched.preempts other here preempted.1 preempted.2]
        exact charted.parents other
      · rw [dispatched.others other here preempted]
        exact charted.parents other

theorem charted_step {event : Event} (taken : machine.step kernel event after) : Charted after := by
  obtain ⟨middle, acts, leaves⟩ := acts_step taken (fun _ handled => handled)
  have good := charted_acts charted settled acts
  rcases leaves with ⟨now, _, same⟩ | ⟨_, same⟩
  · rw [same]
    exact charted_scheduleNext good (acts_live settled acts).1 now
  · rw [same]
    exact good

end

theorem charted_reachable (reachable : machine.Reachable kernel) : Charted kernel := by
  apply reachable.induct
  · rintro start rfl
    have parent : ∀ pid, (initKernel.processes pid).parent = 0 := fun _ => rfl
    refine ⟨.inr rfl, fun pid => .inl ?_⟩
    rw [parent pid]
    decide
  · intro state event later reached charted taken
    exact charted_step charted (reachable_lives reached).1 taken

/-- All indices are in range. -/
def InRange (indices : List Nat) : Prop := ∀ index ∈ indices, index < maxProcs

@[simp] theorem inRange_nil : InRange [] := nofun

@[simp] theorem inRange_cons {index : Nat} {rest : List Nat} :
    InRange (index :: rest) ↔ index < maxProcs ∧ InRange rest := forall_mem_cons

@[simp] theorem inRange_append {first second : List Nat} :
    InRange (first ++ second) ↔ InRange first ∧ InRange second := forall_mem_append

/-- The scan stays inside the table. -/
theorem inRange_select (now : Nat) (order : List Nat) (inside : ∀ pid ∈ order, pid < maxProcs) (kernel : Kernel)
    (timestamp : Nat) : InRange (selectAccesses now order kernel timestamp) := by
  induction order generalizing kernel timestamp with
  | nil => exact inRange_nil
  | cons pid rest ih =>
    have here := inside pid mem_cons_self
    rw [selectAccesses]
    split
    · simp [here]
    · rw [inRange_cons]
      exact ⟨here, ih (forall_mem_cons.mp inside).2 _ _⟩

/-- The scan ends with a process of the table, or leaves the current one. -/
theorem selected_current (now start : Nat) (kernel : Kernel) :
    (selectFrom now (scan start) kernel 0).current < maxProcs ∨
    (selectFrom now (scan start) kernel 0).current = kernel.current := by
  rw [selectFrom_eq _ (.inl rfl)]
  cases found : (scan start).find? (kernel.able now) with
  | none => exact .inr rfl
  | some pid => exact .inl (mem_scan.mp (mem_of_find?_eq_some found))

/-- Choosing the next process is in range exactly if the current process is. -/
theorem inRange_scheduleNext (now : Nat) (kernel : Kernel) :
    InRange (scheduleNextAccesses now kernel) ↔ kernel.current < maxProcs := by
  obtain ⟨selected, same⟩ := @exists_eq _ (selectFrom now (scan (kernel.lastScheduled + 1)) (preempt kernel) 0)
  have scanned := inRange_select now (scan (kernel.lastScheduled + 1)) (fun _ member => mem_scan.mp member)
    (preempt kernel) 0
  have ends : kernel.current < maxProcs → selected.current < maxProcs := by
    intro inside
    have kept := selected_current now (kernel.lastScheduled + 1) (preempt kernel)
    have current : (preempt kernel).current = kernel.current := by
      rw [preempt]
      split <;> rfl
    rw [← same, current] at kept
    exact kept.elim id (fun unmoved => unmoved ▸ inside)
  simp only [scheduleNextAccesses, ← same, inRange_cons, inRange_append, schedulerIdleIfNeededAccesses]
  constructor
  · exact fun all => all.1
  · intro inside
    refine ⟨inside, ⟨scanned, ends inside, inRange_nil⟩, ?_⟩
    split
    · exact inRange_nil
    · simp [ends inside]

theorem inRange_scheduleNextIfNeeded (now : Nat) (kernel : Kernel) :
    InRange (scheduleNextIfNeededAccesses now kernel) ↔ kernel.current < maxProcs := by
  rw [scheduleNextIfNeededAccesses, inRange_cons]
  split
  · rw [inRange_scheduleNext, and_self]
  · simp

/-- Cleaning up is in range exactly if the dead process has a parent. -/
theorem inRange_cleanup (charted : Charted kernel) (inside : kernel.current < maxProcs) {state : ProcessState}
    {code : Nat} (done : finish kernel state code = .ok after) :
    InRange (schedulerProcessCleanupAccesses (kernel.ended state code) kernel.current) ↔
    (kernel.processes kernel.current).parent ≠ invalidPid := by
  obtain ⟨unlocked, released, _⟩ := cleanup_inv done
  have parent : (unlocked.processes kernel.current).parent = (kernel.processes kernel.current).parent :=
    congrArg Prod.fst
      ((unlockHolder_identity released kernel.current).trans (ended_identity kernel state code kernel.current))
  have released : mutexUnlockHolder (kernel.ended state code) kernel.current = .ok unlocked := released
  simp only [schedulerProcessCleanupAccesses, released, inRange_cons, inRange_nil, parent,
    (charted.parents kernel.current).inside_iff, inside, true_and, and_true]

theorem acts_current (acts : Acts allowed kernel after) : after.current = kernel.current := by
  induction acts with
  | refl => rfl
  | tail _ action ih =>
    rw [← ih]
    cases action <;> rfl

/-- In every reachable state, the indices used by a kernel entry are in range exactly if
there is a current process for an interrupt and a parent for a process that dies. -/
theorem accesses_in_range_iff {kernel after : Kernel} {event : Event} (reachable : machine.Reachable kernel)
    (taken : machine.step kernel event after) : InRange (accesses kernel event) ↔ Guarded kernel event := by
  have charted := charted_reachable reachable
  have settled := (reachable_lives reachable).1
  obtain ⟨enabled, outcome, done⟩ := taken
  cases event with
  | startTask entry => simp [accesses, Guarded]
  | interrupt queues now =>
    obtain ⟨pushed, delivered, _⟩ := bind_ok done
    have current : pushed.current = kernel.current := by
      rw [pushAll_eq] at delivered
      rw [← Except.ok.inj delivered]
      have acts : Acts (fun _ => True) kernel _ := acts_pushAll trivial kernel queues interruptMessageSize
      exact acts_current acts
    simp only [accesses, delivered, accessesBehind, schedulerProcessSaveAccesses, inRange_append, inRange_cons,
      inRange_nil, inRange_scheduleNext, current, Guarded, charted.current.inside_iff, and_true, and_self]
  | exception code handled now =>
    have inside : kernel.current < maxProcs := settled.inside (by simp [show _ = _ from enabled])
    obtain ⟨killed, ended, _⟩ := bind_ok done
    cases handled with
    | true =>
      have same : killed = kernel := (Except.ok.inj ended).symm
      simp [accesses, ended, accessesBehind, schedulerProcessSaveAccesses, inRange_scheduleNextIfNeeded, same, inside,
        Guarded]
    | false =>
      have acts : Acts (fun _ => True) kernel killed := acts_finish trivial trivial (.inr rfl) enabled ended
      have current := acts_current acts
      have cleaned := inRange_cleanup charted inside ended
      simp [accesses, ended, accessesBehind, schedulerProcessSaveAccesses, inRange_scheduleNextIfNeeded, current,
        inside, Guarded, cleaned]
  | syscall call now =>
    have inside : kernel.current < maxProcs := settled.inside (by simp [show _ = _ from enabled])
    obtain ⟨⟨result, handled⟩, answered, _⟩ := bind_ok done
    have acts : Acts (fun _ => True) kernel handled := acts_scHandle enabled answered (fun _ _ => trivial)
    have current := acts_current acts
    cases call with
    | exit code =>
      obtain ⟨ended, finished, _⟩ := bind_ok answered
      have cleaned := inRange_cleanup charted inside finished
      simp [accesses, answered, accessesBehind, Except.map, schedulerProcessSaveAccesses,
        inRange_scheduleNextIfNeeded, current, inside, Guarded, cleaned]
    | _ =>
      simp [accesses, answered, accessesBehind, Except.map, schedulerProcessSaveAccesses,
        inRange_scheduleNextIfNeeded, current, inside, Guarded]

/-- While a task runs, an interrupt uses indices in range. -/
theorem accesses_in_range_first_runs : InRange (accesses firstRuns (.interrupt [] 0)) := by
  have reachable := reachable_step twoTasks_reachable firstRuns_step
  have guarded : firstRuns.current ≠ invalidPid := by decide
  exact (accesses_in_range_iff reachable (step_interrupt firstRuns 0)).mpr guarded

/-- The first interrupt reads the process table at `INVALID_PID`. -/
theorem first_interrupt_out_of_range :
    machine.Reachable initKernel ∧ (∃ after, machine.step initKernel (.interrupt [] 0) after) ∧
      invalidPid ∈ accesses initKernel (.interrupt [] 0) ∧ ¬ InRange (accesses initKernel (.interrupt [] 0)) := by
  have used : invalidPid ∈ accesses initKernel (.interrupt [] 0) := mem_cons_self
  exact ⟨reachable_initial rfl, ⟨_, step_interrupt initKernel 0⟩, used, fun all => invalidPid_outside (all _ used)⟩

end Lfos.Processes
