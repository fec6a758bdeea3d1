import Lfos.RoundRobin

/-!
# Sleeping processes

A process that sleeps keeps the time it asked for as a word of 64 bits. A run is watched together with the time that
each process asked for, as a number without a bound. As long as these times are words, the scheduler is the only one
who wakes a sleeping process, and it has read a clock that shows at least the time the process asked for.
-/

namespace Lfos.Processes

open Words Transitions List Function

/-- The kernel, and for each process when it wants to be woken: the clock at its last call and the nanoseconds of it
together, or zero if it only gave way. -/
structure Watched where
  kernel : Kernel
  due : Nat → Nat

def wanted (nanoseconds clock : Nat) : Nat := if nanoseconds ≠ 0 then clock + nanoseconds else 0

/-- The process that calls is the current one. -/
def Watched.asked (watched : Watched) : Event → Nat → Nat
  | .syscall (.sleep nanoseconds clock) _ => update watched.due watched.kernel.current (wanted nanoseconds clock)
  | _ => watched.due

def watching : System Watched Event where
  initial watched := watched.kernel = initKernel
  step watched event after := machine.step watched.kernel event after.kernel ∧ after.due = watched.asked event

/-- A process sleeps when the scheduler may be called: it slept before, or it has just called. -/
def Sleeper (kernel : Kernel) (event : Event) (pid : Nat) : Prop :=
  (∃ data, kernel.waits .time data pid = true) ∨
    pid = kernel.current ∧ ∃ nanoseconds clock now, event = .syscall (.sleep nanoseconds clock) now

/-- A sleeping process is woken by a call of the scheduler only, which reads a clock value that is not early. -/
def InTime (watched : Watched) (event : Event) (after : Watched) : Prop :=
  ∀ pid, Sleeper watched.kernel event pid → (after.kernel.processes pid).state ≠ .waiting →
    ∃ now middle, called watched.kernel event = some (now, middle) ∧ after.kernel = scheduleNext now middle ∧
      (middle.processes pid).state = .waiting ∧ after.due pid ≤ now

/-- The time a process asks for is a word. -/
def Representable (_ : Watched) : Event → Prop
  | .syscall (.sleep nanoseconds clock) _ => wanted nanoseconds clock < 2 ^ 64
  | _ => True

/-- What sleeping processes wait for is what they asked for. -/
def Agreed (due : Nat → Nat) (kernel : Kernel) : Prop :=
  ∀ pid data, kernel.waits .time data pid = true → data = due pid

variable {kernel middle after : Kernel} {event : Event} {due : Nat → Nat} {pid data now : Nat}

/-- The scheduler puts nobody to sleep, and whom it wakes is ready. -/
theorem scheduleNext_sleeper (usable : kernel.CurrentUsable) :
    ((scheduleNext now kernel).waits .time data pid = true → kernel.waits .time data pid = true) ∧
    (kernel.waits .time data pid = true → ((scheduleNext now kernel).processes pid).state ≠ .waiting → data ≤ now) := by
  cases found : kernel.firstReady now with
  | none =>
    have idles := (schedules usable now).idles (firstReady_none.mp found)
    rw [idles]
    exact ⟨id, fun waits awake => absurd (waits_iff.mp waits).1 awake⟩
  | some next =>
    have chosen := firstReady_some.mp found
    have dispatched := (schedules usable now).chooses next chosen
    by_cases here : pid = next
    · subst here
      constructor
      · intro waits
        simp [Kernel.waits, dispatched.runs, Process.waits] at waits
      · intro waits _
        obtain ⟨waiting, _, same⟩ := waits_iff.mp waits
        rcases of_decide_eq_true chosen.ready with runnable | ⟨running, _⟩ | ⟨_, _, passed⟩
        · exact absurd (waiting.symm.trans runnable) (by decide)
        · exact absurd (waiting.symm.trans running) (by decide)
        · exact same ▸ passed
    · by_cases preempted : pid = kernel.current ∧ (kernel.processes pid).state = .running
      · have runnable := dispatched.preempts pid here preempted.1 preempted.2
        simp [Kernel.waits, Process.waits, runnable, preempted.2]
      · have same := dispatched.others pid here preempted
        rw [Kernel.waits, same]
        exact ⟨id, fun waits awake => absurd (waits_iff.mp waits).1 awake⟩

/-- Only a call to sleep is about time before the scheduler is called. -/
theorem handles_time : event.Handles .time ↔ ∃ nanoseconds clock now, event = .syscall (.sleep nanoseconds clock) now := by
  cases event with
  | syscall call now => cases call <;> simp [Event.Handles, SystemCall.Concerns]
  | _ => simp [Event.Handles]

/-- The process that sleeps is the current one. -/
theorem sleep_waits {reason : WaitReason} {asked : Nat} : (kernel.sleep reason asked).waits reason data pid = true ↔
    if pid = kernel.current then asked = data else kernel.waits reason data pid = true := by
  rw [Kernel.waits, sleep_processes]
  split
  · simp [Process.waits]
  · rfl

/-- A time that is a word is what the process sleeps with. -/
theorem sleep_wanted {nanoseconds clock : Nat} (word : wanted nanoseconds clock < 2 ^ 64) :
    scHandleSchedulerSleep kernel nanoseconds clock = kernel.sleep .time (wanted nanoseconds clock) := by
  rw [wanted] at word
  rw [scHandleSchedulerSleep, Kernel.sleep, wanted]
  split
  · next asks =>
    rw [if_pos asks] at word
    rw [u64_of_lt word]
  · rfl

/-- When the scheduler may be called, the sleeping processes sleep with the times they asked for. -/
theorem agreed_middle {watched : Watched} (agreed : Agreed watched.due watched.kernel)
    (representable : Representable watched event) (taken : machine.step watched.kernel event after) :
    ∃ middle, Acts event.Handles watched.kernel middle ∧ Leaves watched.kernel event middle after ∧
    Agreed (watched.asked event) middle ∧
    ∀ pid, Sleeper watched.kernel event pid → ∃ data, middle.waits .time data pid = true := by
  by_cases calls : event.Handles .time
  · obtain ⟨nanoseconds, clock, now, rfl⟩ := handles_time.mp calls
    obtain ⟨running, outcome, handled, answered, rfl⟩ := syscall_inv taken
    refine ⟨handled, acts_scHandle running answered (fun _ concerned => concerned),
      leaves_if_needed (by simp only [called, answered, Except.toOption, Option.map_some]), ?_⟩
    cases answered
    rw [sleep_wanted representable]
    constructor
    · intro pid data waits
      rw [sleep_waits] at waits
      by_cases here : pid = watched.kernel.current
      · simpa [Watched.asked, here, eq_comm] using waits
      · simpa [Watched.asked, here] using agreed pid data (by simpa [here] using waits)
    · intro pid sleeper
      by_cases here : pid = watched.kernel.current
      · exact ⟨_, sleep_waits.mpr (by rw [if_pos here])⟩
      · obtain ⟨data, waits⟩ := sleeper.resolve_right (fun calling => here calling.1)
        exact ⟨data, sleep_waits.mpr (by rwa [if_neg here])⟩
  · obtain ⟨middle, acts, leaves⟩ := acts_step taken (fun _ handled => handled)
    have kept := keeps_acts acts calls
    have same : watched.asked event = watched.due := by
      unfold Watched.asked
      split
      · exact absurd rfl calls
      · rfl
    refine ⟨middle, acts, leaves, ?_, ?_⟩
    · intro pid data waits
      rw [kept.waits] at waits
      rw [same]
      exact agreed pid data waits
    · rintro pid (⟨data, waits⟩ | ⟨_, sleeps⟩)
      · exact ⟨data, (kept.waits data pid).trans waits⟩
      · exact absurd (handles_time.mpr sleeps) calls

/-- A step wakes in time, and the times stay the ones that were asked for. -/
theorem agreed_step {watched after : Watched} (settled : Settled watched.kernel)
    (agreed : Agreed watched.due watched.kernel) (representable : Representable watched event)
    (taken : watching.step watched event after) : Agreed after.due after.kernel ∧ InTime watched event after := by
  obtain ⟨stepped, asked⟩ := taken
  obtain ⟨middle, acts, leaves, times, asleep⟩ := agreed_middle agreed representable stepped
  rw [← asked] at times
  rcases leaves with ⟨now, calls, same⟩ | ⟨_, same⟩
  · have usable := (acts_live settled acts).1.currentUsable
    refine ⟨?_, ?_⟩
    · intro pid data waits
      rw [same] at waits
      exact times pid data ((scheduleNext_sleeper usable).1 waits)
    · intro pid sleeper awake
      obtain ⟨data, waits⟩ := asleep pid sleeper
      rw [same] at awake
      refine ⟨now, middle, calls, same, (waits_iff.mp waits).1, ?_⟩
      rw [← times pid data waits]
      exact (scheduleNext_sleeper usable).2 waits awake
  · rw [← same] at times asleep
    refine ⟨times, ?_⟩
    intro pid sleeper awake
    obtain ⟨data, waits⟩ := asleep pid sleeper
    exact absurd (waits_iff.mp waits).1 awake

/-- No process is woken early in a run in which the times asked for are words. -/
theorem sleepers_woken_in_time {watched after : Watched} {event : Event}
    (reachable : (watching.under Representable).Reachable watched)
    (taken : (watching.under Representable).step watched event after) : InTime watched event after := by
  obtain ⟨settled, agreed⟩ : Settled watched.kernel ∧ Agreed watched.due watched.kernel := by
    apply reachable.invariant
    · intro start initial
      have initially : start.kernel = initKernel := initial
      rw [initially]
      exact ⟨settled_init, fun pid data waits => nomatch (waits_iff.mp waits).1⟩
    · rintro state event after ⟨settled, agreed⟩ ⟨representable, taken⟩
      exact ⟨(step_lives settled taken.1).1, (agreed_step settled agreed representable taken).1⟩
  exact (agreed_step settled agreed taken.1 taken.2).2

/-- The first task sleeps from ten nanoseconds on, and the second one runs. -/
def firstSleeps (nanoseconds : Nat) : Watched where
  kernel := (preempt (firstRuns.sleep .time (u64 (10 + nanoseconds)))).run 1
  due := update (fun _ => 0) 0 (10 + nanoseconds)

theorem firstSleeps_step {nanoseconds : Nat} (asks : nanoseconds ≠ 0) :
    watching.step ⟨firstRuns, fun _ => 0⟩ (.syscall (.sleep nanoseconds 10) 10) (firstSleeps nanoseconds) := by
  have answered : scHandle firstRuns (.sleep nanoseconds 10) =
      .ok (⟨none, none⟩, firstRuns.sleep .time (u64 (10 + nanoseconds))) := by
    simp only [scHandle, scHandleSchedulerSleep, if_pos asks, Kernel.sleep]
  have taken := step_syscall rfl answered 10
  rw [sleep_gives_way rfl (by decide) (show 1 = (firstRuns.lastScheduled + 1) % maxProcs by decide) rfl] at taken
  refine ⟨taken, ?_⟩
  simp only [Watched.asked, wanted, if_pos asks]
  rfl

theorem watched_interrupt (watched : Watched) (now : Nat) :
    watching.step watched (.interrupt [] now) ⟨scheduleNext now watched.kernel, watched.due⟩ := by
  constructor
  · dsimp only
    exact step_interrupt watched.kernel now
  · rfl

theorem firstRuns_watched : (watching.under Representable).Reachable ⟨firstRuns, fun _ => 0⟩ := by
  have booted : (watching.under Representable).Reachable ⟨initKernel, fun _ => 0⟩ := reachable_initial rfl
  have one := reachable_under_step booted (show watching.step _ (.startTask 1) ⟨oneTask, _⟩ from ⟨oneTask_step, rfl⟩) trivial
  have two := reachable_under_step one (show watching.step _ (.startTask 1) ⟨twoTasks, _⟩ from ⟨twoTasks_step, rfl⟩) trivial
  exact reachable_under_step two ⟨firstRuns_step, rfl⟩ trivial

/-- Five nanoseconds have passed at twenty. -/
theorem sleepers_woken_in_time_five : InTime (firstSleeps 5) (.interrupt [] 20)
    ⟨scheduleNext 20 (firstSleeps 5).kernel, (firstSleeps 5).due⟩ := by
  have sleeps := reachable_under_step firstRuns_watched (firstSleeps_step (by decide))
    (show wanted 5 10 < 2 ^ 64 by decide)
  exact sleepers_woken_in_time sleeps ⟨trivial, watched_interrupt (firstSleeps 5) 20⟩

/-- A process that wants to sleep for ever is woken at once. -/
theorem endless_sleep_ends : ∃ watched after, watching.Reachable watched ∧
    watching.step watched (.interrupt [] 10) after ∧ ¬InTime watched (.interrupt [] 10) after := by
  have runs := reachable_of_under firstRuns_watched
  have asleep : (firstSleeps (2 ^ 64 - 1)).kernel.waits .time 9 0 = true := by decide
  refine ⟨firstSleeps (2 ^ 64 - 1), _, reachable_step runs (firstSleeps_step (by decide)), watched_interrupt _ 10, ?_⟩
  intro inTime
  obtain ⟨now, middle, calls, _, _, late⟩ := inTime 0 (.inl ⟨9, asleep⟩) (by decide +kernel)
  cases calls
  exact absurd late (by decide)

end Lfos.Processes
