import Lfos.Actions
import Lfos.StateLogs

/-!
# The life of processes

States are written by the handlers, by the waking scan and by the scheduler, several of
which only assume the state they start from. All of them follow the same arrows, because
at most one process runs and it is the current one, and because no slot outside the table
is ever used. Exited and killed are states no arrow leaves, and a slot that is given to a
new process is in a state no arrow enters.
-/

namespace Lfos.Processes

open StateLogs Transitions Words List

/-- The ways a process changes its state. -/
inductive Arrow : ProcessState → ProcessState → Prop where
  | start : Arrow .empty .runnable
  | choose : Arrow .runnable .running
  | preempt : Arrow .running .runnable
  | sleep : Arrow .running .waiting
  | wake : Arrow .waiting .runnable
  | exit : Arrow .running .exited
  | kill : Arrow .running .killed

/-- A state that is not left again. -/
def ProcessState.Final (state : ProcessState) : Prop := state = .exited ∨ state = .killed

theorem ProcessState.Final.stays {state : ProcessState} (final : state.Final) (next : ProcessState) :
    ¬ Arrow state next := by
  rcases final with rfl | rfl <;> exact nofun

theorem arrow_to_final {state : ProcessState} (final : state.Final) : Arrow .running state := by
  rcases final with rfl | rfl
  · exact .exit
  · exact .kill

/-- The states of all processes, with the record of their changes. -/
def Kernel.life (kernel : Kernel) : Log Nat ProcessState where
  states pid := (kernel.processes pid).state
  changes := kernel.history.map (fun change => (change.pid, change.before, change.after))

/-- The processes of the table changed along the arrows, and all changes were recorded. -/
def Lives (kernel after : Kernel) : Prop := Writes Arrow (· < maxProcs) kernel.life after.life

/-- Only some processes may run, and no slot outside the table is used. -/
structure Confined (mayRun : Nat → Prop) (kernel : Kernel) : Prop where
  single : ∀ pid, (kernel.processes pid).state = .running → mayRun pid
  outside : ∀ pid, maxProcs ≤ pid → (kernel.processes pid).state = .empty

/-- At most the current process runs. -/
abbrev Settled (kernel : Kernel) : Prop := Confined (· = kernel.current) kernel

/-- Nobody runs, as it is while the next process is chosen. -/
abbrev Resting : Kernel → Prop := Confined fun _ => False

variable {kernel after : Kernel} {pid : Nat}

section

variable {state : ProcessState} {mayRun mayAfter : Nat → Prop}

theorem Confined.inside (confined : Confined mayRun kernel) (used : (kernel.processes pid).state ≠ .empty) :
    pid < maxProcs := by
  by_contra away
  exact used (confined.outside pid (Nat.le_of_not_lt away))

theorem setState_life (kernel : Kernel) (pid : Nat) (state : ProcessState) :
    (kernel.setState pid state).life = kernel.life.write pid state := by
  have states : (kernel.setState pid state).life.states = (kernel.life.write pid state).states := by
    funext other
    by_cases here : other = pid
    · subst here
      rw [Log.write_here]
      simp [Kernel.life]
    · rw [Log.write_elsewhere _ _ here]
      simp [Kernel.life, setState_elsewhere kernel pid state here]
  exact Log.ext states rfl

theorem amend_life {change : Process → Process} (same : ∀ process, (change process).state = process.state) :
    (kernel.amend pid change).life = kernel.life := by
  have states : (kernel.amend pid change).life.states = kernel.life.states := by
    funext other
    by_cases here : other = pid
    · subst here
      simp [Kernel.life, Kernel.amend, same]
    · simp [Kernel.life, Kernel.amend, here]
  exact Log.ext states rfl

/-- Falling asleep is a change of the state and then of the reason. -/
theorem sleep_life (kernel : Kernel) (reason : WaitReason) (data : Nat) :
    (kernel.sleep reason data).life = kernel.life.write kernel.current .waiting := by
  have same : kernel.sleep reason data = (kernel.setState kernel.current .waiting).amend kernel.current
      (fun process => { process with waitingFor := reason, waitingData := data }) := by
    simp [Kernel.sleep, schedulerWaitFor, Kernel.amend]
  rw [same, amend_life, setState_life]
  exact fun _ => rfl

theorem Lives.refl (kernel : Kernel) : Lives kernel kernel := Writes.refl _

theorem Lives.trans {middle : Kernel} (first : Lives kernel middle) (second : Lives middle after) :
    Lives kernel after := Writes.trans first second

theorem lives_same (life : after.life = kernel.life) : Lives kernel after := by
  rw [Lives, life]
  exact Writes.refl _

section

variable (life : after.life = kernel.life.write pid state)
include life

theorem lives_write (inside : pid < maxProcs)
    (arrow : Arrow (kernel.processes pid).state state) : Lives kernel after := by
  have write : Write Arrow (· < maxProcs) kernel.life (kernel.life.write pid state) := .write _ inside arrow
  rw [Lives, life]
  exact write.writes

theorem state_of_write (other : Nat) :
    (after.processes other).state = if other = pid then state else (kernel.processes other).state := by
  have states : (after.processes other).state = (kernel.life.write pid state).states other := by
    rw [← life]
    rfl
  rw [states]
  split
  · next here => rw [here, Log.write_here]
  · next here => exact Log.write_elsewhere _ _ here

/-- Who may run after a write: those who might before and, if it lets it run, the written one. -/
theorem confined_write (confined : Confined mayRun kernel) (inside : pid < maxProcs)
    (here : state = .running → mayAfter pid) (others : ∀ other, other ≠ pid → mayRun other → mayAfter other) :
    Confined mayAfter after := by
  constructor
  · intro other running
    rw [state_of_write life] at running
    split at running
    · next same => exact same ▸ here running
    · next differs => exact others other differs (confined.single other running)
  · intro other away
    rw [state_of_write life, if_neg (ne_of_gt (lt_of_lt_of_le inside away))]
    exact confined.outside other away

theorem settled_write (settled : Settled kernel) (current : after.current = kernel.current) (inside : pid < maxProcs)
    (calm : state ≠ .running) : Settled after :=
  confined_write life settled inside (fun running => absurd running calm) (fun _ _ same => same.trans current.symm)

end

theorem state_of_life (life : after.life = kernel.life) (other : Nat) :
    (after.processes other).state = (kernel.processes other).state :=
  congrFun (congrArg Log.states life) other

theorem settled_same (settled : Settled kernel) (life : after.life = kernel.life)
    (current : after.current = kernel.current) : Settled after := by
  constructor
  · intro other running
    rw [state_of_life life] at running
    rw [current]
    exact settled.single other running
  · intro other away
    rw [state_of_life life]
    exact settled.outside other away

end

/-- Once the current process is preempted, nobody runs. -/
theorem preempt_rests (settled : Settled kernel) : Resting (preempt kernel) ∧ Lives kernel (preempt kernel) := by
  rw [preempt]
  split
  · next running =>
    have inside : kernel.current < maxProcs := settled.inside (by simp [running])
    have life := setState_life kernel kernel.current .runnable
    exact ⟨confined_write life settled inside nofun (fun _ other same => other same),
      lives_write life inside (running ▸ .preempt)⟩
  · next stopped =>
    refine ⟨⟨?_, settled.outside⟩, .refl kernel⟩
    intro pid runs
    exact stopped (settled.single pid runs ▸ runs)

theorem wakeSleeper_rests (resting : Resting kernel) (now timestamp : Nat) (inside : pid < maxProcs) :
    Resting (wakeSleeper now kernel timestamp pid).1 ∧ Lives kernel (wakeSleeper now kernel timestamp pid).1 := by
  simp only [wakeSleeper]
  split
  · next asleep =>
    generalize (if (kernel.processes pid).waitingData ≠ 0 ∧ timestamp = 0 then now else timestamp) = clock
    have life := setState_life kernel pid .runnable
    split
    · exact ⟨confined_write life resting inside nofun (fun _ _ => id), lives_write life inside (asleep.1 ▸ .wake)⟩
    · exact ⟨resting, .refl kernel⟩
  · exact ⟨resting, .refl kernel⟩

theorem selectFrom_rests (now : Nat) (order : List Nat) (inside : ∀ pid ∈ order, pid < maxProcs)
    (resting : Resting kernel) (timestamp : Nat) :
    Resting (selectFrom now order kernel timestamp) ∧ Lives kernel (selectFrom now order kernel timestamp) := by
  induction order generalizing kernel timestamp with
  | nil => exact ⟨resting, .refl kernel⟩
  | cons pid rest ih =>
    obtain ⟨rested, lived⟩ := wakeSleeper_rests resting now timestamp (inside pid mem_cons_self)
    rw [selectFrom]
    split
    · exact ⟨⟨rested.single, rested.outside⟩, lived.trans (lives_same rfl)⟩
    · obtain ⟨settled, continued⟩ := ih (forall_mem_cons.mp inside).2 rested (wakeSleeper now kernel timestamp pid).2
      exact ⟨settled, lived.trans continued⟩

/-- Only the current process is let run. -/
theorem dispatch_settles (resting : Resting kernel) : Settled (dispatch kernel) ∧ Lives kernel (dispatch kernel) := by
  rw [dispatch]
  split
  · exact ⟨⟨fun pid runs => (resting.single pid runs).elim, resting.outside⟩, lives_same rfl⟩
  · next able =>
    have runnable : (kernel.processes kernel.current).state = .runnable := by
      have calm : (kernel.processes kernel.current).state ≠ .running := resting.single kernel.current
      by_contra waiting
      exact able (by simp [stuck, waiting, calm])
    have inside : kernel.current < maxProcs := resting.inside (by simp [runnable])
    have life : ({ kernel with lastScheduled := kernel.current }.setState kernel.current .running).life =
        kernel.life.write kernel.current .running :=
      setState_life { kernel with lastScheduled := kernel.current } kernel.current .running
    exact ⟨confined_write life resting inside (fun _ => rfl) (fun _ _ => False.elim),
      lives_write life inside (runnable ▸ .choose)⟩

theorem scheduleNext_settles (settled : Settled kernel) (now : Nat) :
    Settled (scheduleNext now kernel) ∧ Lives kernel (scheduleNext now kernel) := by
  obtain ⟨rested, preempted⟩ := preempt_rests settled
  obtain ⟨selected, chosen⟩ := selectFrom_rests now (scan (kernel.lastScheduled + 1))
    (fun _ member => mem_scan.mp member) rested 0
  obtain ⟨dispatched, ran⟩ := dispatch_settles selected
  exact ⟨dispatched, (preempted.trans chosen).trans ran⟩

/-- One action follows the arrows. -/
theorem action_lives {allowed : WaitReason → Prop} (settled : Settled kernel)
    (action : Action allowed kernel after) : Settled after ∧ Lives kernel after := by
  cases action with
  | mutexes | condvars | mqs => exact ⟨settled_same settled rfl rfl, lives_same rfl⟩
  | @wake reason data pid about inside waits =>
    have asleep : (kernel.processes pid).state = .waiting := (waits_iff.mp waits).1
    have life := setState_life kernel pid .runnable
    exact ⟨settled_write life settled rfl inside (by decide), lives_write life inside (asleep ▸ .wake)⟩
  | @sleep reason data about running =>
    have inside : kernel.current < maxProcs := settled.inside (by simp [running])
    have life := sleep_life kernel reason data
    exact ⟨settled_write life settled rfl inside (by decide), lives_write life inside (running ▸ .sleep)⟩
  | @finish state final running =>
    have inside : kernel.current < maxProcs := settled.inside (by simp [running])
    have life := setState_life kernel kernel.current state
    have calm : state ≠ .running := by
      rintro rfl
      rcases final with exited | killed
      · exact absurd exited (by decide)
      · exact absurd killed (by decide)
    exact ⟨settled_write life settled rfl inside calm, lives_write life inside (running ▸ arrow_to_final final)⟩
  | @spawn pid inside unused =>
    have life := setState_life kernel pid .runnable
    exact ⟨settled_write life settled rfl inside (by decide), lives_write life inside (unused ▸ .start)⟩
  | amend pid change same parents =>
    have life : (kernel.amend pid change).life = kernel.life := amend_life (fun process => (same process).1)
    exact ⟨settled_same settled life rfl, lives_same life⟩

theorem acts_live {allowed : WaitReason → Prop} (settled : Settled kernel) (acts : Acts allowed kernel after) :
    Settled after ∧ Lives kernel after := by
  apply acts.keeps ⟨settled, .refl kernel⟩
  rintro middle last ⟨ready, lived⟩ action
  obtain ⟨done, continued⟩ := action_lives ready action
  exact ⟨done, lived.trans continued⟩

theorem step_lives {event : Event} (settled : Settled kernel) (taken : machine.step kernel event after) :
    Settled after ∧ Lives kernel after := by
  obtain ⟨middle, acts, leaves⟩ := acts_step taken (fun _ handled => handled)
  obtain ⟨ready, lived⟩ := acts_live settled acts
  rcases leaves with ⟨now, _, same⟩ | ⟨_, same⟩
  · obtain ⟨done, continued⟩ := scheduleNext_settles ready now
    rw [same]
    exact ⟨done, lived.trans continued⟩
  · rw [same]
    exact ⟨ready, lived⟩

theorem settled_init : Settled initKernel := by
  have unused : ∀ pid, (initKernel.processes pid).state = .empty := fun _ => rfl
  constructor
  · intro pid running
    rw [unused pid] at running
    exact absurd running (by decide)
  · exact fun pid _ => unused pid

theorem run_lives {events : List Event} (settled : Settled kernel) (run : machine.Run kernel events after) :
    Settled after ∧ Lives kernel after := by
  apply run.keeps ⟨settled, Lives.refl kernel⟩
  rintro middle event last ⟨ready, lived⟩ taken
  obtain ⟨done, continued⟩ := step_lives ready taken
  exact ⟨done, lived.trans continued⟩

theorem reachable_lives (reachable : machine.Reachable kernel) : Settled kernel ∧ Lives initKernel kernel := by
  obtain ⟨start, events, rfl, run⟩ := reachable
  exact run_lives settled_init run

/-- The pid a kernel entry gives to a new process. -/
def Event.created : Event → Outcome → Option Nat
  | .startTask _, outcome => outcome.value
  | .syscall .clone _, outcome => outcome.value
  | _, _ => none

/-- A new process gets a slot that was never used. -/
theorem created_unused {after : Kernel} {event : Event} {outcome : Outcome}
    (done : step kernel event = .ok (outcome, after)) (created : event.created outcome = some pid) :
    (kernel.processes pid).state = .empty := by
  cases event with
  | startTask entry =>
    obtain ⟨⟨slot, started⟩, launched, returned⟩ := Results.bind_ok done
    obtain ⟨⟨_, found⟩, _⟩ := startTask_inv launched
    cases returned
    rw [← Option.some.inj created]
    exact (freePid_some found).2
  | interrupt queues now | exception reason handled now => exact absurd created (by simp [Event.created])
  | syscall call now =>
    cases call with
    | clone =>
      obtain ⟨⟨result, handled⟩, called, returned⟩ := Results.bind_ok done
      obtain ⟨⟨slot, started⟩, cloned, answered⟩ := Results.bind_ok called
      obtain ⟨⟨_, found⟩, _⟩ := clone_inv cloned
      cases answered
      cases returned
      rw [← Option.some.inj created]
      exact (freePid_some found).2
    | _ => exact absurd created (by simp [Event.created])

/-- What a state says about the lives of its processes. -/
structure LifeCycle (kernel : Kernel) : Prop where
  /-- At most one process runs: the current one. -/
  single : ∀ pid, (kernel.processes pid).state = .running → pid = kernel.current
  /-- All changes recorded since boot follow the arrows. -/
  arrows : ∀ change ∈ kernel.history, Arrow change.before change.after
  /-- The record is complete: it leads from unused slots to the states now. -/
  recorded : Lives initKernel kernel

/-- In every reachable state the life cycle is kept. In every run from there on, whoever
has ended stays so, and a pid given to a new process was unused before. -/
theorem processes_keep_life_cycle {kernel : Kernel} (reachable : machine.Reachable kernel) :
    LifeCycle kernel ∧ ∀ events later, machine.Run kernel events later → (∀ pid, (kernel.processes pid).state.Final →
        (later.processes pid).state = (kernel.processes pid).state) ∧
      ∀ event outcome after pid, Enabled later event → step later event = .ok (outcome, after) →
        event.created outcome = some pid → (kernel.processes pid).state = .empty := by
  obtain ⟨settled, lived⟩ := reachable_lives reachable
  refine ⟨⟨settled.single, ?_, lived⟩, ?_⟩
  · intro change member
    have along := lived.along (by simp [Kernel.life, initKernel])
    exact along _ (mem_map_of_mem member)
  · intro events later run
    obtain ⟨_, continued⟩ := run_lives settled run
    constructor
    · intro pid final
      exact continued.sink final.stays
    · intro event outcome after pid _ done created
      have unused := created_unused done created
      have fresh : ∀ previous, ¬ Arrow previous (later.life.states pid) := by
        rw [show later.life.states pid = .empty from unused]
        exact nofun
      exact (continued.source fresh).trans unused

/-- The first slot that was never used, by what stands before it. -/
theorem freePid_eq (inside : pid < maxProcs) (unused : (kernel.processes pid).state = .empty)
    (used : ∀ other < pid, (kernel.processes other).state ≠ .empty) : freePid kernel = some pid := by
  apply find?_range_eq_some.mpr
  refine ⟨decide_eq_true unused, mem_range.mpr inside, ?_⟩
  intro other before
  simp [used other before]

theorem setupProcess_eq (free : freePid kernel = some pid)
    (numbered : kernel.nextMq ≠ 0) : setupProcess kernel = .ok (pid, kernel.spawned pid) := by
  have created : mqCreate (kernel.setState pid .runnable) = .ok (kernel.nextMq, { kernel.setState pid .runnable with
      mqs := Function.update kernel.mqs kernel.nextMq (some [])
      nextMq := u64 (kernel.nextMq + 1) }) := by
    unfold mqCreate
    simp only [setState_nextMq, setState_mqs, numbered, if_false]
  unfold setupProcess
  simp only [free, created, bind, Except.bind, Kernel.spawned]

/-- Starting a task where there is a free slot. -/
theorem step_startTask {entry : Nat} (valid : entry ≠ 0) (free : freePid kernel = some pid)
    (numbered : kernel.nextMq ≠ 0) : machine.step kernel (.startTask entry)
    ((kernel.spawned pid).amend pid (fun process => { process with parent := invalidPid })) := by
  have started : startTask kernel entry = .ok (pid,
      (kernel.spawned pid).amend pid (fun process => { process with parent := invalidPid })) := by
    unfold startTask
    simp only [if_neg valid, setupProcess_eq free numbered, bind, Except.bind]
  refine ⟨trivial, ⟨none, some pid⟩, ?_⟩
  simp only [step, started, bind, Except.bind]

/-- The state with one task. -/
def oneTask : Kernel :=
  (initKernel.spawned 0).amend 0 (fun process => { process with parent := invalidPid })

theorem oneTask_step : machine.step initKernel (.startTask 1) oneTask := by
  apply step_startTask one_ne_zero
  · exact freePid_eq (by decide) rfl (by simp)
  · decide

theorem oneTask_reachable : machine.Reachable oneTask := reachable_step (reachable_initial rfl) oneTask_step

/-- The first task keeps the life cycle, and no later process gets its pid. -/
theorem processes_keep_life_cycle_one_task : (oneTask.processes 0).state = .runnable ∧ LifeCycle oneTask ∧
      ¬ ∃ events later event outcome after, machine.Run oneTask events later ∧ Enabled later event ∧
        step later event = .ok (outcome, after) ∧ event.created outcome = some 0 := by
  obtain ⟨cycle, later⟩ := processes_keep_life_cycle oneTask_reachable
  refine ⟨rfl, cycle, ?_⟩
  rintro ⟨events, kernel, event, outcome, after, run, enabled, done, created⟩
  have unused := (later events kernel run).2 event outcome after 0 enabled done created
  exact absurd unused (by decide)

end Lfos.Processes
