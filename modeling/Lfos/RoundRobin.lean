import Lfos.Footprints
import Lfos.LifeCycle

/-!
# Round robin

The scheduler scans all slots, starting behind the process it chose last, and stops at
the first one that can run: a runnable process, the one it just preempted, or a sleeper
whose deadline has passed. The distance from the process chosen last to one that is kept
waiting shrinks with every choice, so nobody is passed over longer than one round.
-/

namespace Lfos.Processes

open CyclicScan Transitions Option

/-- Whether a process can be chosen when the clock reads `now`. -/
def Kernel.ready (kernel : Kernel) (now pid : Nat) : Bool :=
  decide ((kernel.processes pid).state = .runnable ∨ ((kernel.processes pid).state = .running ∧ pid = kernel.current) ∨
    ((kernel.processes pid).state = .waiting ∧ (kernel.processes pid).waitingFor = .time ∧
      (kernel.processes pid).waitingData ≤ now))

/-- What the scan stops at: `ready` without the process that was preempted before. -/
def Kernel.able (kernel : Kernel) (now pid : Nat) : Bool :=
  decide ((kernel.processes pid).state = .runnable ∨
    ((kernel.processes pid).state = .waiting ∧ (kernel.processes pid).waitingFor = .time ∧
      (kernel.processes pid).waitingData ≤ now))

/-- Make a process runnable if it is not. -/
def Kernel.rouse (kernel : Kernel) (pid : Nat) : Kernel :=
  if (kernel.processes pid).state = .runnable then kernel else kernel.setState pid .runnable

/-- Let a process run. -/
def Kernel.run (kernel : Kernel) (pid : Nat) : Kernel :=
  { kernel.rouse pid with current := pid, lastScheduled := pid }.setState pid .running

/-- The first process that can be chosen, behind the one chosen last. -/
def Kernel.firstReady (kernel : Kernel) (now : Nat) : Option Nat :=
  (scan (kernel.lastScheduled + 1)).find? (kernel.ready now)

section

variable (kernel : Kernel) (pid : Nat)

theorem preempt_processes (other : Nat) : (preempt kernel).processes other =
    if other = kernel.current ∧ (kernel.processes other).state = .running then
    { kernel.processes other with state := .runnable }
      else kernel.processes other := by
  rw [preempt]
  split
  · next running =>
    by_cases here : other = kernel.current
    · subst here
      simp [running]
    · simp [here, setState_elsewhere kernel kernel.current .runnable here]
  · next stopped =>
    rw [if_neg]
    rintro ⟨rfl, running⟩
    exact stopped running

theorem rouse_elsewhere {other : Nat} (different : other ≠ pid) :
    (kernel.rouse pid).processes other = kernel.processes other := by
  rw [Kernel.rouse]
  split
  · rfl
  · exact setState_elsewhere kernel pid .runnable different

theorem rouse_here : (kernel.rouse pid).processes pid = { kernel.processes pid with state := .runnable } := by
  rw [Kernel.rouse]
  split
  · next runnable => rw [← runnable]
  · exact setState_here kernel pid .runnable

theorem run_tables : SameTables kernel (kernel.run pid) := by
  rw [Kernel.run, Kernel.rouse]
  split <;> exact ⟨rfl, rfl, rfl, rfl, rfl, rfl⟩

@[simp] theorem run_current : (kernel.run pid).current = pid := rfl

theorem run_here : (kernel.run pid).processes pid = { kernel.processes pid with state := .running } := by
  rw [Kernel.run, setState_here, rouse_here]

theorem run_elsewhere {other : Nat} (different : other ≠ pid) :
    (kernel.run pid).processes other = kernel.processes other := by
  rw [Kernel.run, setState_elsewhere _ pid .running different]
  exact rouse_elsewhere kernel pid different

end

section

variable {kernel : Kernel} {now timestamp pid : Nat}

/-- A process the scan stops at is runnable then. The clock was not read yet, or gave `now`. -/
theorem wakeSleeper_able (read : timestamp = 0 ∨ timestamp = now) (able : kernel.able now pid = true) :
    (wakeSleeper now kernel timestamp pid).1 = kernel.rouse pid := by
  rcases of_decide_eq_true able with runnable | ⟨waiting, reason, passed⟩
  · simp [wakeSleeper, Kernel.rouse, runnable]
  · have due : (kernel.processes pid).waitingData ≤
        if (kernel.processes pid).waitingData ≠ 0 ∧ timestamp = 0 then now else timestamp := by
      split
      · exact passed
      · next unread =>
        rcases read with rfl | rfl
        · exact le_of_eq (not_not.mp (fun nonzero => unread ⟨nonzero, rfl⟩))
        · exact passed
    simp only [wakeSleeper, waiting, reason, and_self, if_true, if_pos due, Kernel.rouse]
    rw [if_neg (by decide)]

/-- A process the scan passes is left alone. -/
theorem wakeSleeper_unable (read : timestamp = 0 ∨ timestamp = now) (unable : kernel.able now pid = false) :
    (wakeSleeper now kernel timestamp pid).1 = kernel ∧
    ((wakeSleeper now kernel timestamp pid).2 = 0 ∨ (wakeSleeper now kernel timestamp pid).2 = now) := by
  have neither := of_decide_eq_false unable
  simp only [wakeSleeper]
  split
  · next asleep =>
    have early : ¬ (kernel.processes pid).waitingData ≤ now :=
      fun passed => neither (.inr ⟨asleep.1, asleep.2, passed⟩)
    have clock : ∀ flag : Prop, [Decidable flag] → (if flag then now else timestamp) = 0 ∨
        (if flag then now else timestamp) = now := by
      intro flag _
      split
      · exact .inr rfl
      · exact read
    have unread := clock ((kernel.processes pid).waitingData ≠ 0 ∧ timestamp = 0)
    refine ⟨if_neg ?_, unread⟩
    rcases unread with zero | same
    · omega
    · rw [same]
      exact early
  · exact ⟨rfl, read⟩

theorem rouse_state (kernel : Kernel) (pid : Nat) : ((kernel.rouse pid).processes pid).state = .runnable := by
  rw [rouse_here]

/-- The scan stops at the first process that is able to run. -/
theorem selectFrom_eq (order : List Nat) (read : timestamp = 0 ∨ timestamp = now) :
    selectFrom now order kernel timestamp =
    (order.find? (kernel.able now)).elim kernel (fun pid => { kernel.rouse pid with current := pid }) := by
  induction order generalizing timestamp with
  | nil => rfl
  | cons pid rest ih =>
    rw [selectFrom]
    cases able : kernel.able now pid with
    | true =>
      rw [wakeSleeper_able read able, List.find?_cons_of_pos able, if_pos (rouse_state kernel pid)]
      rfl
    | false =>
      obtain ⟨same, clock⟩ := wakeSleeper_unable read able
      have waits : (kernel.processes pid).state ≠ .runnable :=
        fun runnable => of_decide_eq_false able (.inl runnable)
      rw [same, if_neg waits, List.find?_cons_of_neg (by simp [able])]
      exact ih clock

/-- Preempting the current process is what makes it one the scan may stop at. -/
theorem able_preempt (kernel : Kernel) (now pid : Nat) : (preempt kernel).able now pid = kernel.ready now pid := by
  rw [Kernel.able, Kernel.ready, preempt_processes]
  split
  · next running => simp [running.2, ← running.1]
  · next stopped => simp [and_comm, stopped]

/-- The slot of the current process, if it is no slot of the table, is unused. -/
def Kernel.CurrentUsable (kernel : Kernel) : Prop :=
  maxProcs ≤ kernel.current → (kernel.processes kernel.current).state = .empty

theorem Settled.currentUsable (settled : Settled kernel) : kernel.CurrentUsable :=
  fun away => settled.outside kernel.current away

theorem firstReady_none : kernel.firstReady now = none ↔ ∀ pid < maxProcs, kernel.ready now pid = false := by
  rw [Kernel.firstReady, scan_eq_rotation, find_rotation_none]

/-- Where nobody is ready, neither is the current process. -/
theorem stuck_of_none (usable : kernel.CurrentUsable) (nobody : kernel.firstReady now = none) :
    (kernel.processes kernel.current).state ≠ .runnable ∧ (kernel.processes kernel.current).state ≠ .running := by
  by_cases away : maxProcs ≤ kernel.current
  · rw [usable away]
    decide
  · have unready := firstReady_none.mp nobody kernel.current (Nat.lt_of_not_le away)
    have neither := of_decide_eq_false unready
    exact ⟨fun runnable => neither (.inl runnable), fun running => neither (.inr (.inl ⟨running, rfl⟩))⟩

/-- The whole effect of choosing the next process. -/
theorem scheduleNext_eq (usable : kernel.CurrentUsable) (now : Nat) : scheduleNext now kernel =
    (kernel.firstReady now).elim { kernel with current := invalidPid } (preempt kernel).run := by
  have same : (preempt kernel).able now = kernel.ready now := funext (able_preempt kernel now)
  rw [scheduleNext, selectFrom_eq _ (.inl rfl), same]
  cases found : kernel.firstReady now with
  | none =>
    obtain ⟨waits, stops⟩ := stuck_of_none usable found
    rw [Kernel.firstReady] at found
    rw [found, preempt, if_neg stops]
    exact if_pos (by simp [stuck, waits, stops])
  | some pid =>
    rw [Kernel.firstReady] at found
    rw [found, elim_some, elim_some]
    have runnable := rouse_state (preempt kernel) pid
    exact if_neg (by simp [stuck, runnable])

end

/-- A process that is chosen: the first that is ready in cyclic order behind the one
chosen last, which itself comes last. -/
structure Chosen (kernel : Kernel) (now pid : Nat) : Prop where
  ready : kernel.ready now pid = true
  first : ∃ distance, 1 ≤ distance ∧ distance ≤ maxProcs ∧ pid = (kernel.lastScheduled + distance) % maxProcs ∧
    ∀ closer, 1 ≤ closer → closer < distance → kernel.ready now ((kernel.lastScheduled + closer) % maxProcs) = false

variable {kernel : Kernel} {now pid : Nat}

theorem firstReady_some : kernel.firstReady now = some pid ↔ Chosen kernel now pid := by
  rw [Kernel.firstReady, scan_eq_rotation, find_rotation]
  constructor
  · rintro ⟨i, bound, rfl, ready, before⟩
    refine ⟨ready, i + 1, Nat.succ_pos i, bound, by rw [add_assoc, add_comm 1 i], ?_⟩
    intro closer positive less
    have earlier := before (closer - 1) (by omega)
    rwa [add_assoc, Nat.add_sub_cancel' positive] at earlier
  · rintro ⟨ready, distance, positive, bound, rfl, before⟩
    have position : kernel.lastScheduled + 1 + (distance - 1) = kernel.lastScheduled + distance := by omega
    refine ⟨distance - 1, by omega, by rw [position], ready, ?_⟩
    intro j earlier
    have closer := before (j + 1) (Nat.succ_pos j) (by omega)
    rwa [add_comm j 1, ← add_assoc] at closer

/-- A process was made running and current; the process that ran before was preempted, and
that is all. -/
structure Dispatched (kernel after : Kernel) (pid : Nat) : Prop where
  current : after.current = pid
  lastScheduled : after.lastScheduled = pid
  runs : after.processes pid = { kernel.processes pid with state := .running }
  preempts : ∀ other ≠ pid, other = kernel.current → (kernel.processes other).state = .running →
    after.processes other = { kernel.processes other with state := .runnable }
  others : ∀ other ≠ pid, ¬ (other = kernel.current ∧ (kernel.processes other).state = .running) →
    after.processes other = kernel.processes other
  tables : ∀ reason, SameTable reason kernel after

theorem dispatched_run (kernel : Kernel) (pid : Nat) : Dispatched kernel ((preempt kernel).run pid) pid where
  current := rfl
  lastScheduled := rfl
  runs := by
    rw [run_here, preempt_processes]
    split <;> rfl
  preempts other different current running := by
    rw [run_elsewhere _ pid different, preempt_processes, if_pos ⟨current, running⟩]
  others other different stopped := by
    rw [run_elsewhere _ pid different, preempt_processes, if_neg stopped]
  tables reason := by
    apply sameTable_of
    rw [preempt]
    split <;> exact { run_tables _ pid with }

/-- What one call does, with or without somebody to choose. -/
structure Schedules (kernel : Kernel) (now : Nat) : Prop where
  chooses : ∀ pid, Chosen kernel now pid → Dispatched kernel (scheduleNext now kernel) pid
  idles : (∀ pid < maxProcs, kernel.ready now pid = false) →
    scheduleNext now kernel = { kernel with current := invalidPid }
  idle_iff : (scheduleNext now kernel).current = invalidPid ↔ ∀ pid < maxProcs, kernel.ready now pid = false

theorem Chosen.inside (chosen : Chosen kernel now pid) : pid < maxProcs := by
  obtain ⟨distance, _, _, same, _⟩ := chosen.first
  rw [same]
  exact Nat.mod_lt _ (by decide)

theorem schedules (usable : kernel.CurrentUsable) (now : Nat) : Schedules kernel now where
  chooses pid chosen := by
    rw [scheduleNext_eq usable, firstReady_some.mpr chosen]
    exact dispatched_run kernel pid
  idles nobody := by
    rw [scheduleNext_eq usable, firstReady_none.mpr nobody]
    rfl
  idle_iff := by
    rw [scheduleNext_eq usable, ← firstReady_none]
    cases found : kernel.firstReady now with
    | none => simp
    | some pid =>
      have inside := (firstReady_some.mp found).inside
      have valid : pid ≠ invalidPid := by
        rintro rfl
        exact absurd inside (by decide)
      simp [valid]

section

variable {after : Kernel} {event : Event}

/-- Nothing but the scheduler moves a runnable process, or the place the scan starts at. -/
theorem action_runnable {allowed : WaitReason → Prop} (action : Action allowed kernel after)
    (runnable : (kernel.processes pid).state = .runnable) :
    (after.processes pid).state = .runnable ∧ after.lastScheduled = kernel.lastScheduled := by
  have elsewhere : ∀ other state, (kernel.processes other).state ≠ .runnable →
      ((kernel.setState other state).processes pid).state = .runnable := by
    intro other state moved
    rw [setState_elsewhere kernel other state (by rintro rfl; exact moved runnable)]
    exact runnable
  cases action with
  | mutexes | condvars | mqs => exact ⟨runnable, rfl⟩
  | wake about inside waits => exact ⟨elsewhere _ _ (by simp [(waits_iff.mp waits).1]), rfl⟩
  | sleep data about running =>
    have different : pid ≠ kernel.current := by
      rintro rfl
      rw [running] at runnable
      exact absurd runnable (by decide)
    rw [sleep_processes, if_neg different]
    exact ⟨runnable, rfl⟩
  | finish final running => exact ⟨elsewhere _ _ (by simp [running]), rfl⟩
  | spawn inside unused => exact ⟨elsewhere _ _ (by simp [unused]), rfl⟩
  | amend other change same parents =>
    refine ⟨?_, rfl⟩
    rw [show ((kernel.amend other change).processes pid).state = (kernel.processes pid).state from
      state_of_life (amend_life (fun process => (same process).1)) pid]
    exact runnable

theorem acts_runnable {allowed : WaitReason → Prop} (acts : Acts allowed kernel after)
    (runnable : (kernel.processes pid).state = .runnable) :
    (after.processes pid).state = .runnable ∧ after.lastScheduled = kernel.lastScheduled := by
  apply acts.keeps ⟨runnable, rfl⟩
  rintro middle last ⟨still, same⟩ action
  obtain ⟨state, unmoved⟩ := action_runnable action still
  exact ⟨state, unmoved.trans same⟩

/-- Whether a kernel entry calls the scheduler and somebody is chosen. -/
def choosing (kernel : Kernel) (event : Event) : Bool :=
  (called kernel event).any (fun call => decide ((scheduleNext call.1 call.2).current ≠ invalidPid))

/-- A run during which a process stays runnable, with the number of calls of the scheduler
that chose somebody. -/
inductive Overlooks (pid : Nat) (start : Kernel) : Nat → Kernel → Prop where
  | start (runnable : (start.processes pid).state = .runnable) : Overlooks pid start 0 start
  | step {count : Nat} {kernel after : Kernel} {event : Event} (overlooks : Overlooks pid start count kernel)
      (taken : machine.step kernel event after) (runnable : (after.processes pid).state = .runnable) :
      Overlooks pid start (if choosing kernel event then count + 1 else count) after

/-- A process that is passed over is closer to the one that was chosen. -/
theorem Chosen.passed {found steps : Nat} (chosen : Chosen kernel now found)
    (ready : kernel.ready now pid = true) (positive : 1 ≤ steps)
    (ahead : pid = (kernel.lastScheduled + steps) % maxProcs) (different : found ≠ pid) :
    ∃ fewer, 1 ≤ fewer ∧ fewer < steps ∧ pid = (found + fewer) % maxProcs := by
  obtain ⟨distance, nonzero, _, foundAhead, before⟩ := chosen.first
  have farther : distance ≤ steps := by
    by_contra less
    have unready := before steps positive (Nat.lt_of_not_le less)
    rw [← ahead, ready] at unready
    exact absurd unready (by decide)
  have apart : distance ≠ steps := by
    rintro rfl
    exact different (foundAhead.trans ahead.symm)
  exact ⟨steps - distance, by omega, by omega, ahead_of_found ahead foundAhead farther⟩

/-- Somebody is chosen where a process is runnable. -/
theorem exists_chosen (now : Nat) (inside : pid < maxProcs) (runnable : (kernel.processes pid).state = .runnable) :
    kernel.ready now pid = true ∧ ∃ found, Chosen kernel now found := by
  have ready : kernel.ready now pid = true := decide_eq_true (.inl runnable)
  refine ⟨ready, ?_⟩
  cases found : kernel.firstReady now with
  | none =>
    have unready := firstReady_none.mp found pid inside
    rw [ready] at unready
    exact absurd unready (by decide)
  | some chosen => exact ⟨chosen, firstReady_some.mp found⟩

/-- A runnable process stays so until it is chosen. -/
theorem runnable_until_chosen (settled : Settled kernel) (taken : machine.step kernel event after)
    (runnable : (kernel.processes pid).state = .runnable) : (after.processes pid).state = .runnable ∨
    ∃ now middle, called kernel event = some (now, middle) ∧ Chosen middle now pid ∧
    after = scheduleNext now middle := by
  obtain ⟨middle, acts, leaves⟩ := acts_step taken (fun _ handled => handled)
  obtain ⟨ready, _⟩ := acts_live settled acts
  obtain ⟨still, _⟩ := acts_runnable acts runnable
  rcases leaves with ⟨now, calls, same⟩ | ⟨_, same⟩
  · obtain ⟨_, found, chosen⟩ := exists_chosen now (ready.inside (by simp [still])) still
    have dispatched := (schedules ready.currentUsable now).chooses found chosen
    by_cases here : found = pid
    · subst here
      exact .inr ⟨now, middle, calls, chosen, same⟩
    · left
      rw [same, dispatched.others pid (Ne.symm here) (by simp [still])]
      exact still
  · left
    rw [same]
    exact still

/-- Each choice of somebody else brings the scan closer. -/
theorem overlooks_closer {start : Kernel} {count : Nat} (settled : Settled start)
    (overlooks : Overlooks pid start count kernel) : Settled kernel ∧ (kernel.processes pid).state = .runnable ∧
    ∃ steps, 1 ≤ steps ∧ count + steps ≤ maxProcs ∧ pid = (kernel.lastScheduled + steps) % maxProcs := by
  induction overlooks with
  | start runnable =>
    have inside : pid < maxProcs := settled.inside (by simp [runnable])
    obtain ⟨steps, positive, bound, ahead⟩ :
        ∃ steps, 1 ≤ steps ∧ steps ≤ maxProcs ∧ pid = (start.lastScheduled + steps) % maxProcs :=
      exists_ahead inside
    exact ⟨settled, runnable, steps, positive, by omega, ahead⟩
  | @step count kernel after event _ taken runnable ih =>
    obtain ⟨before, waiting, steps, positive, bound, ahead⟩ := ih
    obtain ⟨settledAfter, _⟩ := step_lives before taken
    refine ⟨settledAfter, runnable, ?_⟩
    obtain ⟨middle, acts, leaves⟩ := acts_step taken (fun _ handled => handled)
    obtain ⟨ready, _⟩ := acts_live before acts
    obtain ⟨still, unmoved⟩ := acts_runnable acts waiting
    rw [← unmoved] at ahead
    rcases leaves with ⟨now, calls, same⟩ | ⟨calls, same⟩
    · obtain ⟨able, found, chosen⟩ := exists_chosen now (ready.inside (by simp [still])) still
      have dispatched := (schedules ready.currentUsable now).chooses found chosen
      rw [← same] at dispatched
      have different : found ≠ pid := by
        rintro rfl
        rw [dispatched.runs] at runnable
        exact absurd runnable (by simp)
      have busy : choosing kernel event = true := by
        have valid : found ≠ invalidPid := by
          rintro rfl
          exact absurd chosen.inside (by decide)
        simp [choosing, calls, ← same, dispatched.current, valid]
      obtain ⟨fewer, enough, less, closer⟩ := chosen.passed able positive ahead different
      rw [if_pos busy, dispatched.lastScheduled]
      exact ⟨fewer, enough, by omega, closer⟩
    · have quiet : choosing kernel event = false := by simp [choosing, calls]
      rw [if_neg (by simp [quiet]), same]
      exact ⟨steps, positive, bound, ahead⟩

end

/-- The scheduler goes around the table. For every table, a call chooses the first process
that is ready, or idles if there is none. In every run, a process that is runnable all the
time sees fewer choices than there are slots, and it stays runnable until it is chosen. -/
theorem scheduler_is_round_robin : (∀ (kernel : Kernel) (now : Nat), kernel.CurrentUsable → Schedules kernel now) ∧
    ∀ (start : Kernel) (pid count : Nat) (kernel : Kernel), machine.Reachable start →
      Overlooks pid start count kernel → count < maxProcs ∧
      ∀ event after, machine.step kernel event after → (after.processes pid).state = .runnable ∨
        ∃ now middle, called kernel event = some (now, middle) ∧ Chosen middle now pid ∧
          after = scheduleNext now middle := by
  constructor
  · intro kernel now usable
    exact schedules usable now
  · intro start pid count kernel reachable overlooks
    obtain ⟨settled, runnable, steps, positive, bound, _⟩ := overlooks_closer (reachable_lives reachable).1 overlooks
    refine ⟨by omega, ?_⟩
    intro event after taken
    exact runnable_until_chosen settled taken runnable

theorem scheduleNext_chosen (usable : kernel.CurrentUsable)
    (chosen : Chosen kernel now pid) : scheduleNext now kernel = (preempt kernel).run pid := by
  rw [scheduleNext_eq usable, firstReady_some.mpr chosen, elim_some]

theorem chosen_next (next : pid = (kernel.lastScheduled + 1) % maxProcs)
    (ready : kernel.ready now pid = true) : Chosen kernel now pid :=
  ⟨ready, 1, le_refl 1, by decide, next, fun _ positive less => absurd positive (Nat.not_le_of_lt less)⟩

/-- A process that falls asleep lets the next one run. -/
theorem sleep_gives_way {reason : WaitReason} {data : Nat}
    (running : kernel.Running) (inside : kernel.current < maxProcs)
    (next : pid = (kernel.lastScheduled + 1) % maxProcs) (runnable : (kernel.processes pid).state = .runnable)
    (now : Nat) :
    scheduleNextIfNeeded now (kernel.sleep reason data) = (preempt (kernel.sleep reason data)).run pid := by
  have current : (kernel.sleep reason data).current = kernel.current := rfl
  have last : (kernel.sleep reason data).lastScheduled = kernel.lastScheduled := rfl
  have usable : (kernel.sleep reason data).CurrentUsable := by
    intro away
    exact absurd inside (not_lt.mpr away)
  have different : pid ≠ kernel.current := by
    rintro rfl
    rw [running] at runnable
    exact absurd runnable (by decide)
  have halted : ((kernel.sleep reason data).processes (kernel.sleep reason data).current).state = .waiting := by
    rw [current, sleep_processes, if_pos rfl]
  have ready : (kernel.sleep reason data).ready now pid = true := by
    apply decide_eq_true
    left
    rw [sleep_processes, if_neg different]
    exact runnable
  rw [gives_way (by simp [halted]) (by simp [halted])]
  exact scheduleNext_chosen usable (chosen_next (last ▸ next) ready)

/-- An interrupt without queues is a call of the scheduler only. -/
theorem step_interrupt (kernel : Kernel) (now : Nat) :
    machine.step kernel (.interrupt [] now) (scheduleNext now kernel) := ⟨trivial, ⟨none, none⟩, rfl⟩

/-- The state with two tasks, none of which ran yet. -/
def twoTasks : Kernel :=
  (oneTask.spawned 1).amend 1 (fun process => { process with parent := invalidPid })

theorem twoTasks_step : machine.step oneTask (.startTask 1) twoTasks := by
  apply step_startTask one_ne_zero
  · apply freePid_eq (by decide) rfl
    intro other before
    rw [Nat.lt_one_iff.mp before]
    decide
  · decide

theorem twoTasks_reachable : machine.Reachable twoTasks := reachable_step oneTask_reachable twoTasks_step

theorem twoTasks_chosen : Chosen twoTasks 0 0 := chosen_next (by decide) (by decide)

/-- The first task runs. -/
def firstRuns : Kernel := (preempt twoTasks).run 0

theorem firstRuns_eq : scheduleNext 0 twoTasks = firstRuns :=
  scheduleNext_chosen (reachable_lives twoTasks_reachable).1.currentUsable twoTasks_chosen

theorem firstRuns_step : machine.step twoTasks (.interrupt [] 0) firstRuns := by
  rw [← firstRuns_eq]
  exact step_interrupt twoTasks 0

/-- While the first task is chosen, the second one is overlooked once. -/
theorem twoTasks_overlooks : Overlooks 1 twoTasks 1 firstRuns := by
  have busy : choosing twoTasks (.interrupt [] 0) = true := by
    have calls : called twoTasks (.interrupt [] 0) = some (0, twoTasks) := rfl
    rw [choosing, calls, any_some, firstRuns_eq]
    decide
  have runnable : (twoTasks.processes 1).state = .runnable := rfl
  have still : (firstRuns.processes 1).state = .runnable := rfl
  have overlooked := Overlooks.step (.start runnable) firstRuns_step still
  rwa [if_pos busy] at overlooked

/-- Of two tasks the first one is chosen, and the second one has at most a round to wait. -/
theorem scheduler_is_round_robin_two_tasks :
    Dispatched twoTasks (scheduleNext 0 twoTasks) 0 ∧ Overlooks 1 twoTasks 1 firstRuns ∧ 1 < maxProcs := by
  obtain ⟨calls, runs⟩ := scheduler_is_round_robin
  have usable := (reachable_lives twoTasks_reachable).1.currentUsable
  refine ⟨(calls twoTasks 0 usable).chooses 0 twoTasks_chosen, twoTasks_overlooks, ?_⟩
  exact (runs twoTasks 1 1 _ twoTasks_reachable twoTasks_overlooks).1

end Lfos.Processes
