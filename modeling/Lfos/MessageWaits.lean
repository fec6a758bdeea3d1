import Lfos.KernelTables
import Lfos.RoundRobin
import Lfos.Waiters

/-!
# Waiting for messages

A process falls asleep on a queue that is empty, and a message pushed to it wakes everybody
who sleeps on it. But a queue is destroyed with its process without a word to those who
sleep on it. So everybody who waits for a message waits on an empty queue as long as no
process dies on whose queue somebody waits. The queues are those of the array they are kept in as
long as no process dies whose queue is the last one of a page with pages behind it.
-/

namespace Lfos.Processes

open Results Transitions Function

open Lfos.MessageQueues (enomsg)

/-- Whoever waits for a message waits on a queue that exists and is empty. -/
def Heard (kernel : Kernel) : Prop :=
  ∀ mq pid, pid ∈ kernel.waiting .message mq → kernel.mqs mq = some []

/-- A process dies only while nobody waits on its queue. -/
def Unawaited (kernel : Kernel) : Event → Prop
  | .exception _ handled _ =>
    handled = true ∨ kernel.waiting .message (kernel.processes kernel.current).mq = ∅
  | .syscall (.exit _) _ => kernel.waiting .message (kernel.processes kernel.current).mq = ∅
  | _ => True

section

variable {kernel after : Kernel}

theorem Heard.of_keeps (heard : Heard kernel) (kept : Keeps .message kernel after) : Heard after := by
  intro mq pid waits
  rw [kept.waiting] at waits
  rw [kept.table.1]
  exact heard mq pid waits

/-- Fewer waiters on queues that are the same. -/
theorem Heard.of_subset (heard : Heard kernel) (fewer : ∀ mq, after.waiting .message mq ⊆ kernel.waiting .message mq)
    (same : ∀ mq, (after.waiting .message mq).Nonempty → kernel.mqs mq = some [] → after.mqs mq = some []) :
    Heard after := by
  intro mq pid waits
  exact same mq ⟨pid, waits⟩ (heard mq pid (fewer mq waits))

/-- The queues that are waited on stay empty. -/
theorem Heard.with_mqs (heard : Heard kernel) {mqs : Nat → Option (List Nat)} (nextMq : Nat)
    (same : ∀ mq, (kernel.waiting .message mq).Nonempty → kernel.mqs mq = some [] → mqs mq = some []) :
    Heard { kernel with mqs := mqs, nextMq := nextMq } :=
  heard.of_subset (fun _ => Finset.Subset.refl _) same

/-- A message wakes everybody who waits on its queue. -/
theorem pushed_waiting {mq size : Nat} {queue : List Nat} (stored : kernel.mqs mq = some queue) :
    (kernel.pushed mq size).waiting .message mq = ∅ := by
  rw [Kernel.pushed, stored]
  rw [waiting_wake, waiters_toFinset]
  exact Finset.sdiff_self _

theorem pushed_subset (kernel : Kernel) (mq size other : Nat) :
    (kernel.pushed mq size).waiting .message other ⊆ kernel.waiting .message other := by
  rw [Kernel.pushed]
  cases kernel.mqs mq with
  | none => exact Finset.Subset.refl _
  | some queue =>
    rw [waiting_wake]
    exact Finset.sdiff_subset

theorem pushed_mqs_elsewhere (kernel : Kernel) {mq size other : Nat} (different : other ≠ mq) :
    (kernel.pushed mq size).mqs other = kernel.mqs other := by
  rw [Kernel.pushed]
  cases kernel.mqs mq with
  | none => rfl
  | some queue =>
    rw [(wake_tables _ _).mqs]
    exact update_of_ne different ..

theorem heard_pushed (heard : Heard kernel) (mq size : Nat) : Heard (kernel.pushed mq size) := by
  apply heard.of_subset (pushed_subset kernel mq size)
  intro other waited empty
  by_cases here : other = mq
  · subst here
    rw [pushed_waiting empty] at waited
    exact absurd waited Finset.not_nonempty_empty
  · rw [pushed_mqs_elsewhere kernel here]
    exact empty

theorem heard_pushAll (heard : Heard kernel) (queues : List Nat) (size : Nat) :
    Heard (queues.foldl (fun kernel mq => kernel.pushed mq size) kernel) := by
  induction queues generalizing kernel with
  | nil => exact heard
  | cons mq rest ih => exact ih (heard_pushed heard mq size)

/-- A new queue is empty. -/
theorem heard_child (heard : Heard kernel) {pid parent : Nat} (found : freePid kernel = some pid) :
    Heard ((kernel.spawned pid).amend pid (fun process => { process with parent := parent })) := by
  obtain ⟨_, unused⟩ := freePid_some found
  have started : Heard (kernel.setState pid .runnable) :=
    heard.of_keeps (keeps_setState (awake_of_state (by simp [unused])) (by decide))
  have queued : Heard { kernel.setState pid .runnable with
      mqs := update kernel.mqs kernel.nextMq (some [])
      nextMq := Words.u64 (kernel.nextMq + 1) } := by
    apply started.with_mqs
    intro mq _ empty
    by_cases here : mq = kernel.nextMq
    · subst here
      exact update_self ..
    · exact (update_of_ne here ..).trans empty
  have spawned : Heard (kernel.spawned pid) := queued.of_keeps (keeps_amend (fun _ => ⟨rfl, rfl, rfl⟩))
  exact spawned.of_keeps (keeps_amend (fun _ => ⟨rfl, rfl, rfl⟩))

/-- Only an empty queue has no message. -/
theorem pollError_empty {mq room : Nat} (empty : pollError kernel mq room = enomsg) : kernel.mqs mq = some [] := by
  rw [pollError, mqPeek] at empty
  cases stored : kernel.mqs mq with
  | none => simp [stored, MessageQueues.enoent, MessageQueues.emsgsize, enomsg] at empty
  | some queue =>
    cases queue with
    | nil => rfl
    | cons size rest =>
      have errors : ∀ error, error = 0 ∨ error = MessageQueues.emsgsize → error ≠ enomsg := by
        rintro error (rfl | rfl) <;> decide
      refine absurd empty (errors _ ?_)
      simp only [stored]
      have either : (if room < size then MessageQueues.emsgsize else 0) = 0 ∨
          (if room < size then MessageQueues.emsgsize else 0) = MessageQueues.emsgsize := by
        split <;> simp
      split <;> split <;> first | exact either | simp

theorem heard_poll (running : kernel.Running) (heard : Heard kernel) (mq : Nat) (wait : Bool) (room : Nat) :
    Heard (scHandleIpcMqPoll kernel mq wait room).2 := by
  rcases mqPoll_cases kernel mq wait room with same | ⟨empty, slept⟩ | taken
  · rw [same]
    exact heard
  · rw [slept]
    intro other pid waits
    by_cases here : other = kernel.queueOr mq
    · rw [here]
      exact pollError_empty empty
    · rw [waiting_sleep_elsewhere running here] at waits
      exact heard other pid waits
  · rw [taken]
    apply heard.with_mqs kernel.nextMq
    intro other _ empty
    by_cases here : other = kernel.queueOr mq
    · subst here
      refine (update_self ..).trans ?_
      rw [empty]
      rfl
    · exact (update_of_ne here ..).trans empty

/-- A process on whose queue nobody waits may die. -/
theorem heard_finish {unlocked : Kernel} (heard : Heard unlocked)
    (unawaited : unlocked.waiting .message mq = ∅) (pid : Nat) : Heard (mqDestroy (unlocked.notified pid) mq) := by
  obtain ⟨quiet, notified⟩ : (∀ mq, (unlocked.notified pid).waiting .message mq ⊆ unlocked.waiting .message mq) ∧
      Heard (unlocked.notified pid) := by
    simp only [Kernel.notified]
    split
    · exact ⟨pushed_subset unlocked _ _, heard_pushed heard _ _⟩
    · exact ⟨fun _ => Finset.Subset.refl _, heard⟩
  apply notified.with_mqs
  intro other waited empty
  have different : other ≠ mq := by
    rintro rfl
    have nobody := quiet other
    rw [unawaited] at nobody
    exact absurd (waited.mono nobody) Finset.not_nonempty_empty
  exact (update_of_ne different ..).trans empty

/-- Kernel entries keep the waiters heard as long as nobody dies whose queue is waited on. -/
theorem heard_step {event : Event} (heard : Heard kernel) (taken : machine.step kernel event after)
    (unawaited : Unawaited kernel event) : Heard after := by
  obtain ⟨middle, messages, scheduled⟩ := messages_step taken
  apply Heard.of_keeps _ scheduled
  cases messages with
  | same kept _ => exact heard.of_keeps kept
  | spawn _ found _ => exact heard_child heard found
  | push queues size _ => exact heard_pushAll heard queues size
  | poll polled =>
    subst polled
    exact heard_poll taken.1 heard _ _ _
  | finish kept dies =>
    apply heard_finish (heard.of_keeps kept)
    rw [kept.waiting]
    rcases dies with rfl | rfl
    · exact unawaited
    · exact unawaited.resolve_left (by decide)

end

theorem heard_init : Heard initKernel := by
  intro mq pid waits
  exact absurd (waits_iff.mp (mem_waiting.mp waits).2).1 nofun

/-- The tables stay what the arrays hold, and a process dies only while nobody waits on its queue. -/
def Heeded (kernel : Kernel) (event : Event) : Prop := TablesKept kernel event ∧ Unawaited kernel event

/-- In every run in which no table is broken and processes die only while nobody waits on their
queue, the tables are what their arrays hold, and everybody who waits for a message waits on a queue
that exists and is empty. -/
theorem message_waiters_heard {kernel : Kernel} (reachable : (machine.under Heeded).Reachable kernel) :
    TablesBacked kernel ∧ Heard kernel := by
  refine ⟨tables_backed (fun _ _ => And.left) reachable, ?_⟩
  apply reachable.invariant
  · rintro start rfl
    exact heard_init
  · rintro state event after heard ⟨⟨_, unawaited⟩, taken⟩
    exact heard_step heard taken unawaited

/-- The first task waits for a message on the queue of the second one, which runs. -/
def firstPolls : Kernel := (preempt (firstRuns.sleep .message 2)).run 1

theorem firstPolls_step : machine.step firstRuns (.syscall (.mqPoll 2 true 100) 0) firstPolls := by
  have answered : scHandle firstRuns (.mqPoll 2 true 100) = .ok (⟨some eagain, none⟩, firstRuns.sleep .message 2) := rfl
  have taken := step_syscall rfl answered 0
  rwa [sleep_gives_way rfl (by decide) (show 1 = (firstRuns.lastScheduled + 1) % maxProcs by decide) rfl] at taken

theorem firstPolls_reachable : (machine.under Heeded).Reachable firstPolls := by
  have booted : (machine.under Heeded).Reachable initKernel := reachable_initial rfl
  have one := reachable_under_step booted oneTask_step ⟨tablesKept_start (by decide) _, trivial⟩
  have two := reachable_under_step one twoTasks_step ⟨tablesKept_start (by decide) _, trivial⟩
  have runs := reachable_under_step two firstRuns_step ⟨tablesKept_silent rfl rfl rfl, trivial⟩
  exact reachable_under_step runs firstPolls_step ⟨tablesKept_silent rfl rfl rfl, trivial⟩

theorem firstPolls_waiting : 0 ∈ firstPolls.waiting .message 2 := mem_waiting.mpr ⟨by decide, by decide⟩

/-- The queue that is waited on is empty. -/
theorem message_waiters_heard_first_polls : 0 ∈ firstPolls.waiting .message 2 ∧ firstPolls.mqs 2 = some [] :=
  ⟨firstPolls_waiting, (message_waiters_heard firstPolls_reachable).2 2 0 firstPolls_waiting⟩

/-- The second task exits and takes its queue with it, and the first one goes on waiting. -/
theorem exited_queue_unheard : ∃ after, machine.Reachable firstPolls ∧
    machine.step firstPolls (.syscall (.exit 0) 0) after ∧ ¬ Heard after := by
  obtain ⟨ended, same⟩ := @exists_eq _ (mqDestroy (firstPolls.ended .exited 0) 2)
  have finished : finish firstPolls .exited 0 = .ok (mqDestroy (firstPolls.ended .exited 0) 2) := rfl
  have answered : scHandle firstPolls (.exit 0) = .ok (⟨none, none⟩, ended) := by
    simp only [scHandle, scHandleSchedulerExit, finished, bind, Except.bind, same]
  have kept := keeps_scheduleNextIfNeeded ended (show WaitReason.message ≠ .time by decide) 0
  refine ⟨_, reachable_of_under firstPolls_reachable, step_syscall rfl answered 0, ?_⟩
  intro heard
  have asleep : (ended.processes 0).state = .waiting ∧ (ended.processes 0).waitingFor = .message ∧
      (ended.processes 0).waitingData = 2 := by
    subst same
    decide
  have waits : 0 ∈ ended.waiting .message 2 := mem_waiting.mpr ⟨by decide, waits_iff.mpr asleep⟩
  rw [← kept.waiting] at waits
  have empty := heard 2 0 waits
  rw [kept.table.1, same] at empty
  exact absurd empty (by decide)

end Lfos.Processes
