import Lfos.CondvarSignals
import Lfos.KernelTables
import Lfos.RoundRobin

/-!
# What a condition variable counts

Waiting for a condition variable increments its `wait_count`, and nothing ever decrements
it: a signal wakes waiters without telling the count. So the count is the number of
waiters exactly as long as no signal wakes anybody. Until then destroying reports a busy
condition variable exactly if somebody waits for it, and nobody waits for one that is gone. This is
said of runs in which the arrays behind the tables stay intact.
-/

namespace Lfos.Processes

open Transitions Words List Function Finset

/-- The counts are true, they are what destroying goes by, and whatever is waited for
exists. -/
structure CountsTrue (kernel : Kernel) : Prop where
  counts : ∀ condvar waitCount, kernel.condvars condvar = some waitCount →
    waitCount = (kernel.waiting .condvar condvar).card
  busy : ∀ condvar, kernel.condvars condvar ≠ none →
    ((scHandleLockingDestroyCondvar kernel condvar).1.error = some ebusy ↔ (kernel.waiting .condvar condvar).Nonempty)
  alive : ∀ condvar pid, pid ∈ kernel.waiting .condvar condvar → kernel.condvars condvar ≠ none

/-- A signal that wakes nobody: there is no waiter, or a single one and none is asked for. -/
def WakesNobody (kernel : Kernel) : Event → Prop
  | .syscall (.signalCondvar condvar amount) _ =>
    kernel.waiting .condvar condvar = ∅ ∨ ((kernel.waiting .condvar condvar).card = 1 ∧ amount = 0)
  | _ => True

/-- The invariant behind true counts: nobody waits for what does not exist. -/
def Counted (kernel : Kernel) : Prop :=
  ∀ condvar, (kernel.waiting .condvar condvar).card = (kernel.condvars condvar).getD 0

section

variable {kernel after : Kernel} {condvar : Nat}

theorem Counted.of_keeps (counted : Counted kernel) (kept : Keeps .condvar kernel after) : Counted after := by
  intro condvar
  rw [kept.waiting, kept.table.1]
  exact counted condvar

theorem Counted.countsTrue (counted : Counted kernel) : CountsTrue kernel where
  counts condvar waitCount stored := by simpa [stored] using (counted condvar).symm
  busy condvar present := by
    obtain ⟨waitCount, stored⟩ := Option.ne_none_iff_exists'.mp present
    rw [← card_pos, counted condvar, stored, Option.getD_some, Nat.pos_iff_ne_zero]
    by_cases counts : waitCount = 0
    · simp [scHandleLockingDestroyCondvar, stored, counts, ebusy]
    · simp [scHandleLockingDestroyCondvar, stored, counts]
  alive condvar pid waits missing := by
    have counts := counted condvar
    rw [missing, Option.getD_none, card_eq_zero] at counts
    exact absurd waits (counts ▸ notMem_empty pid)

theorem counted_init : Counted initKernel := by
  refine fun condvar => card_eq_zero.mpr ?_
  ext pid
  simp [mem_waiting, Kernel.waits, Process.waits, initKernel, Process.unused]

/-- An entry nobody waits for is made or ended. -/
theorem counted_entry (counted : Counted kernel) (condvar next : Nat) {entry : Option Nat}
    (same : (kernel.condvars condvar).getD 0 = entry.getD 0) :
    Counted { kernel with condvars := update kernel.condvars condvar entry, nextCondvar := next } := by
  refine fun other => (counted other).trans ?_
  by_cases here : other = condvar
  · simp [here, same]
  · simp [here]

/-- One more waiter is counted. -/
theorem counted_wait (counted : Counted kernel) {waitCount : Nat} (stored : kernel.condvars condvar = some waitCount)
    (inside : kernel.current < maxProcs) (running : kernel.Running) :
    Counted ((kernel.counting condvar waitCount).sleep .condvar condvar) := by
  intro other
  have entries : ((kernel.counting condvar waitCount).sleep .condvar condvar).condvars =
      update kernel.condvars condvar (some (u64 (waitCount + 1))) := rfl
  have count := counted other
  rw [entries]
  by_cases here : other = condvar
  · subst here
    have waiting : ((kernel.counting other waitCount).sleep .condvar other).waiting .condvar other =
        insert kernel.current (kernel.waiting .condvar other) := waiting_sleep inside
    have awake : kernel.current ∉ kernel.waiting .condvar other := by
      intro waits
      have asleep := (waits_iff.mp (mem_waiting.mp waits).2).1
      rw [running] at asleep
      exact absurd asleep (by decide)
    have bound := waiting_card_le kernel .condvar other
    rw [stored, Option.getD_some] at count
    rw [count, maxProcs] at bound
    rw [waiting, card_insert_of_notMem awake, count, update_self, Option.getD_some, u64_of_lt (by omega)]
  · have waiting : ((kernel.counting condvar waitCount).sleep .condvar condvar).waiting .condvar other =
        kernel.waiting .condvar other := waiting_sleep_elsewhere running here
    rw [waiting, count, update_of_ne here]

/-- The number of processes a signal wakes. -/
theorem woken_length (kernel : Kernel) (condvar amount : Nat) :
    ((kernel.waiters .condvar condvar).eraseIdx amount).length =
    if amount < (kernel.waiting .condvar condvar).card then (kernel.waiting .condvar condvar).card - 1
    else (kernel.waiting .condvar condvar).card := by
  rw [length_eraseIdx, waiters_length]

/-- The waiters behind a signal are fewer by the ones it woke. -/
theorem card_signalled (kernel : Kernel) (condvar amount : Nat) :
    ((kernel.wake ((kernel.waiters .condvar condvar).eraseIdx amount)).waiting .condvar condvar).card =
    (kernel.waiting .condvar condvar).card - ((kernel.waiters .condvar condvar).eraseIdx amount).length := by
  have distinct : ((kernel.waiters .condvar condvar).eraseIdx amount).Nodup :=
    (waiters_nodup kernel .condvar condvar).sublist (eraseIdx_sublist _ _)
  have subset : ((kernel.waiters .condvar condvar).eraseIdx amount).toFinset ⊆ kernel.waiting .condvar condvar := by
    intro pid member
    rw [← waiters_toFinset, mem_toFinset]
    exact eraseIdx_subset (mem_toFinset.mp member)
  rw [waiting_wake, card_sdiff_of_subset subset, toFinset_card_of_nodup distinct]

end

section

variable {kernel after : Kernel} {event : Event}

/-- A signal that wakes nobody changes nothing. -/
theorem signal_wakesNobody {condvar : Nat} {amount : Fin (2 ^ 64)} {now : Nat} {outcome : Outcome}
    (quiet : WakesNobody kernel (.syscall (.signalCondvar condvar amount) now))
    (done : scHandleLockingSignalCondvar kernel condvar amount = .ok (outcome, after)) : after = kernel := by
  rcases signalCondvar_cases done with ⟨_, same⟩ | ⟨waitCount, _, _, woken⟩
  · exact same
  · have none : (kernel.waiters .condvar condvar).eraseIdx amount.val = [] := by
      apply eq_nil_of_length_eq_zero
      rw [woken_length]
      rcases quiet with empty | ⟨single, zero⟩
      · simp [empty]
      · simp [single, zero]
    rw [woken, none, wake_nil]

/-- Kernel entries keep the counts as long as signals wake nobody. -/
theorem counted_step (counted : Counted kernel) (reachable : machine.Reachable kernel)
    (taken : machine.step kernel event after) (quiet : WakesNobody kernel event) : Counted after := by
  by_cases concerned : event.Concerns .condvar
  · obtain ⟨call, now, rfl, about⟩ := condvar_concerns concerned
    obtain ⟨running, outcome, handled, answered, kept⟩ := syscall_keeps .condvar taken (by decide)
    apply Counted.of_keeps _ kept
    cases call with
    | createCondvar =>
      rcases createCondvar_cases answered with ⟨_, rfl⟩ | ⟨numbered, rfl⟩
      · exact counted
      · have unused : kernel.condvars kernel.nextCondvar = none :=
          Option.map_eq_none_iff.mp ((condvarTable.numbered reachable).2 numbered _ le_rfl)
        exact counted_entry counted _ _ (by simp [unused])
    | destroyCondvar condvar =>
      rcases destroyCondvar_cases answered with ⟨_, rfl⟩ | ⟨stored, rfl⟩
      · exact counted
      · exact counted_entry counted condvar kernel.nextCondvar (by simp [stored])
    | signalCondvar condvar amount =>
      rw [signal_wakesNobody quiet answered]
      exact counted
    | waitCondvar condvar =>
      rcases waitCondvar_cases answered with rfl | ⟨waitCount, stored, rfl⟩
      · exact counted
      · exact counted_wait counted stored ((reachable_lives reachable).1.inside (by simp [running])) running
    | _ => exact absurd about (by simp [SystemCall.Concerns])
  · exact counted.of_keeps (keeps_step taken concerned)

/-- A signal that wakes somebody leaves a count that is too large. -/
theorem signal_miscounts (counted : Counted kernel) (taken : machine.step kernel event after)
    (loud : ¬ WakesNobody kernel event) : ¬ CountsTrue after := by
  cases event with
  | syscall call now =>
    cases call with
    | signalCondvar condvar amount =>
      obtain ⟨_, outcome, handled, answered, kept⟩ := syscall_keeps .condvar taken (by decide)
      have card : (kernel.waiting .condvar condvar).card ≠ 0 := fun zero => loud (.inl (card_eq_zero.mp zero))
      have count := counted condvar
      rcases signalCondvar_cases answered with ⟨missing | unawaited, _⟩ | ⟨waitCount, stored, _, woken⟩
      · exact absurd (by simpa [missing] using count) card
      · exact absurd (by simpa [unawaited] using count) card
      · intro counts
        rw [stored, Option.getD_some] at count
        have storedAfter : after.condvars condvar = some waitCount := by
          rw [kept.table.1, woken, (wake_tables kernel _).condvars, stored]
        have countAfter := counts.counts condvar waitCount storedAfter
        rw [kept.waiting, woken, card_signalled, woken_length] at countAfter
        have single : ¬ ((kernel.waiting .condvar condvar).card = 1 ∧ amount.val = 0) := by
          rintro ⟨one, zero⟩
          exact loud (.inr ⟨one, Fin.ext zero⟩)
        split at countAfter <;> omega
    | _ => exact absurd trivial loud
  | _ => exact absurd trivial loud

/-- The tables stay what the arrays hold, and signals wake nobody. -/
def Quiet (kernel : Kernel) (event : Event) : Prop := TablesKept kernel event ∧ WakesNobody kernel event

theorem counted_reachable (reachable : (machine.under Quiet).Reachable kernel) : Counted kernel := by
  apply reachable.induct
  · rintro start rfl
    exact counted_init
  · rintro state event later reached counted ⟨⟨_, quiet⟩, taken⟩
    exact counted_step counted (reachable_of_under reached) taken quiet

end

/-- In every run in which no table is broken and signals wake nobody, the tables are what their
arrays hold and the counts are true in every state reached; of the steps that break no table, those
with a signal that wakes somebody make a count false. -/
theorem condvar_counts_true_iff {kernel : Kernel} (reachable : (machine.under Quiet).Reachable kernel) :
    TablesBacked kernel ∧ CountsTrue kernel ∧ ∀ event after, machine.step kernel event after →
      TablesKept kernel event → (CountsTrue after ↔ WakesNobody kernel event) := by
  have counted := counted_reachable reachable
  refine ⟨tables_backed (fun _ _ => And.left) reachable, counted.countsTrue, ?_⟩
  intro event after taken _
  constructor
  · intro counts
    by_contra loud
    exact signal_miscounts counted taken loud counts
  · intro quiet
    exact (counted_step counted (reachable_of_under reachable) taken quiet).countsTrue

/-- A process that waits lets the next one run. -/
theorem wait_gives_way {kernel : Kernel} {condvar waitCount pid : Nat}
    (stored : kernel.condvars condvar = some waitCount)
    (running : kernel.Running) (inside : kernel.current < maxProcs)
    (next : pid = (kernel.lastScheduled + 1) % maxProcs) (runnable : (kernel.processes pid).state = .runnable)
    (now : Nat) : step kernel (.syscall (.waitCondvar condvar) now) = .ok (⟨some 0, none⟩,
      (preempt ((kernel.counting condvar waitCount).sleep .condvar condvar)).run pid) := by
  have gives : scheduleNextIfNeeded now ((kernel.counting condvar waitCount).sleep .condvar condvar) =
      (preempt ((kernel.counting condvar waitCount).sleep .condvar condvar)).run pid := by
    apply sleep_gives_way
    · exact running
    · exact inside
    · exact next
    · exact runnable
  rw [← gives]
  simp only [step, scHandle, scHandleLockingWaitCondvar, stored, waitFor_invalid, bind, Except.bind, Kernel.counting]

/-- The first task has made a condition variable. -/
def condvarMade : Kernel :=
  { firstRuns with condvars := update firstRuns.condvars 1 (some 0), nextCondvar := 2 }

theorem condvarMade_step : machine.step firstRuns (.syscall .createCondvar 0) condvarMade := by
  have made : scHandle firstRuns .createCondvar = .ok (⟨some 0, some 1⟩, condvarMade) := rfl
  have taken := step_syscall rfl made 0
  rwa [goes_on rfl] at taken

/-- The first task waits for it, and the second one runs. -/
def oneWaits : Kernel :=
  (preempt ({ condvarMade with condvars := update condvarMade.condvars 1 (some 1) }.sleep .condvar 1)).run 1

theorem oneWaits_step : machine.step condvarMade (.syscall (.waitCondvar 1) 0) oneWaits :=
  ⟨rfl, _, wait_gives_way (show condvarMade.condvars 1 = some 0 from rfl) rfl (by decide) (by decide) rfl 0⟩

theorem condvarMade_reachable : (machine.under Quiet).Reachable condvarMade := by
  have booted : (machine.under Quiet).Reachable initKernel := reachable_initial rfl
  have one := reachable_under_step booted oneTask_step ⟨tablesKept_start (by decide) _, trivial⟩
  have two := reachable_under_step one twoTasks_step ⟨tablesKept_start (by decide) _, trivial⟩
  have runs := reachable_under_step two firstRuns_step ⟨tablesKept_silent rfl rfl rfl, trivial⟩
  exact reachable_under_step runs condvarMade_step ⟨tablesKept_createCondvar (by decide) _, trivial⟩

theorem condvarMade_unawaited : condvarMade.waiting .condvar 1 = ∅ := by
  exact card_eq_zero.mp (counted_reachable condvarMade_reachable 1)

theorem oneWaits_reachable : (machine.under Quiet).Reachable oneWaits :=
  reachable_under_step condvarMade_reachable oneWaits_step ⟨tablesKept_silent rfl rfl rfl, trivial⟩

theorem oneWaits_waiting : 0 ∈ oneWaits.waiting .condvar 1 := mem_waiting.mpr ⟨by decide, by decide⟩

/-- The count is one while one process waits. -/
theorem condvar_counts_true_one_waits :
    oneWaits.condvars 1 = some 1 ∧ 0 ∈ oneWaits.waiting .condvar 1 ∧ CountsTrue oneWaits :=
  ⟨rfl, oneWaits_waiting, (condvar_counts_true_iff oneWaits_reachable).2.1⟩

/-- A signal wakes the waiter and leaves the count at one. -/
theorem signalled_count_stays : ∃ after, machine.Reachable oneWaits ∧
    machine.step oneWaits (.syscall (.signalCondvar 1 1) 0) after ∧ ¬ CountsTrue after := by
  have stored : oneWaits.condvars 1 = some 1 := rfl
  obtain ⟨outcome, handled, answered, _⟩ := signalled_iff 1 stored one_ne_zero
  have taken := step_syscall rfl (show scHandle oneWaits (.signalCondvar 1 1) = .ok (outcome, handled) from answered) 0
  refine ⟨_, reachable_of_under oneWaits_reachable, taken, ?_⟩
  apply signal_miscounts (counted_reachable oneWaits_reachable) taken
  rintro (empty | ⟨_, zero⟩)
  · have waits := oneWaits_waiting
    rw [empty] at waits
    exact absurd waits (Finset.notMem_empty 0)
  · exact absurd zero (by decide)

end Lfos.Processes
