import Lfos.BackedTables
import Lfos.Footprints

/-!
# The tables of the kernel

Message queues, condition variables and mutexes are numbered one after another, and each kind is
kept in an array of its own. Which calls a kernel entry makes on these arrays is said here, and that
the tables of the model are what the arrays hold, as long as no call empties a page that has pages
behind it or stores to one at the end of the address space.
-/

namespace Lfos.Processes

open Results Transitions ThinArray Words Function

theorem MutexTable.get_set_eq (table : MutexTable) (mutex : Nat) (data : MutexData) :
    (table.set mutex data).get = update table.get mutex (some data) := funext (table.get_set mutex data)

theorem MutexTable.get_clear (table : MutexTable) (mutex : Nat) :
    (table.clear mutex).get = update table.get mutex none :=
  funext (SparsePages.lookup_assign (by decide) table.paged.sorted none)

/-- The queue of the current process is destroyed with it. -/
def endedQueue (kernel : Kernel) : Option (Op Unit) :=
  let mq := (kernel.processes kernel.current).mq
  if kernel.mqs mq = none then none else some (.clear (word mq))

def queueCall (kernel : Kernel) : Event → Option (Op Unit)
  | .startTask _ | .syscall .clone _ => some (.store (word kernel.nextMq) ())
  | .exception _ false _ | .syscall (.exit _) _ => endedQueue kernel
  | _ => none

def condvarCall (kernel : Kernel) : Event → Option (Op Unit)
  | .syscall .createCondvar _ =>
    if kernel.nextCondvar = 0 then none else some (.store (word kernel.nextCondvar) ())
  | .syscall (.destroyCondvar condvar) _ =>
    if kernel.condvars condvar = some 0 then some (.clear (word condvar)) else none
  | _ => none

def mutexCall (kernel : Kernel) : Event → Option (Op Unit)
  | .syscall .createMutex _ =>
    if kernel.nextMutex = 0 then none else some (.store (word kernel.nextMutex) ())
  | .syscall (.destroyMutex mutex) _ =>
    if (kernel.mutexes.get mutex).map MutexData.state = some 0 then some (.clear (word mutex)) else none
  | _ => none

section

variable {kernel after : Kernel} {event : Event}

def queueView (kernel : Kernel) : View := ⟨kernel.nextMq, occupied kernel.mqs⟩

def condvarView (kernel : Kernel) : View := ⟨kernel.nextCondvar, occupied kernel.condvars⟩

def mutexView (kernel : Kernel) : View := ⟨kernel.nextMutex, occupied kernel.mutexes.get⟩

theorem Keeps.queues (kept : Keeps .message kernel after) : queueView after = queueView kernel := by
  rw [queueView, kept.table.1, kept.table.2, queueView]

theorem Keeps.condvars (kept : Keeps .condvar kernel after) : condvarView after = condvarView kernel := by
  rw [condvarView, kept.table.1, kept.table.2, condvarView]

theorem Keeps.mutexes (kept : Keeps .mutex kernel after) : mutexView after = mutexView kernel := by
  rw [mutexView, kept.table.1, kept.table.2, mutexView]

/-- Pushing a message leaves the queues as they are. -/
theorem pushed_queues (kernel : Kernel) (mq size : Nat) : queueView (kernel.pushed mq size) = queueView kernel := by
  rw [Kernel.pushed]
  cases stored : kernel.mqs mq with
  | none => rfl
  | some queue =>
    have woken := wake_tables { kernel with mqs := update kernel.mqs mq (some (queue ++ [size])) }
      (kernel.waiters .message mq)
    rw [queueView, woken.nextMq, woken.mqs, occupied_in_place stored, queueView]

theorem pushAll_queues (kernel : Kernel) (queues : List Nat) (size : Nat) :
    queueView (queues.foldl (fun kernel mq => kernel.pushed mq size) kernel) = queueView kernel := by
  induction queues generalizing kernel with
  | nil => rfl
  | cons mq rest ih => exact (ih (kernel.pushed mq size)).trans (pushed_queues kernel mq size)

theorem notified_queues (kernel : Kernel) (pid : Nat) : queueView (kernel.notified pid) = queueView kernel := by
  simp only [Kernel.notified]
  split
  · exact pushed_queues kernel _ _
  · rfl

/-- What a kernel entry does to the queues and to those who wait on them. -/
inductive Messages (kernel : Kernel) (event : Event) : Kernel → Prop where
  | same {middle : Kernel} (kept : Keeps .message kernel middle) (silent : queueCall kernel event = none) :
    Messages kernel event middle
  | spawn {pid parent : Nat} (left : kernel.nextMq ≠ 0) (found : freePid kernel = some pid)
      (called : queueCall kernel event = some (.store (word kernel.nextMq) ())) :
    Messages kernel event ((kernel.spawned pid).amend pid (fun process => { process with parent := parent }))
  | push (queues : List Nat) (size : Nat) (silent : queueCall kernel event = none) :
    Messages kernel event (queues.foldl (fun kernel mq => kernel.pushed mq size) kernel)
  | poll {mq room now : Nat} {wait : Bool} (polled : event = .syscall (.mqPoll mq wait room) now) :
    Messages kernel event (scHandleIpcMqPoll kernel mq wait room).2
  | finish {unlocked : Kernel} {code now : Nat} (kept : Keeps .message kernel unlocked)
      (dies : event = .syscall (.exit code) now ∨ event = .exception code false now) :
    Messages kernel event (mqDestroy (unlocked.notified kernel.current) (kernel.processes kernel.current).mq)

/-- A process that ends takes its queue with it. -/
theorem messages_finish (running : kernel.Running) {state : ProcessState} (final : state = .exited ∨ state = .killed)
    {code now : Nat} (dies : event = .syscall (.exit code) now ∨ event = .exception code false now) {signal : Nat}
    (done : finish kernel state signal = .ok after) : Messages kernel event after := by
  obtain ⟨unlocked, released, rfl⟩ := cleanup_inv done
  have died : Acts (· = .mutex) kernel (kernel.ended state signal) := acts_ended final running signal
  rw [finish_own released]
  exact .finish (keeps_acts (died.trans (acts_unlockHolder rfl released)) (by simp)) dies

/-- Behind what it does to the queues, a kernel entry may still call the scheduler. -/
theorem messages_step (taken : machine.step kernel event after) :
    ∃ middle, Messages kernel event middle ∧ Keeps .message middle after := by
  obtain ⟨enabled, outcome, done⟩ := taken
  cases event with
  | startTask entry =>
    obtain ⟨⟨pid, started⟩, launched, returned⟩ := bind_ok done
    obtain ⟨⟨left, found⟩, rfl⟩ := startTask_inv launched
    rw [ok_snd returned]
    exact ⟨_, .spawn left found rfl, keeps_refl _ _⟩
  | interrupt queues now =>
    obtain ⟨pushed, delivered, returned⟩ := bind_ok done
    rw [pushAll_eq] at delivered
    rw [ok_snd returned, ← Except.ok.inj delivered]
    exact ⟨_, .push queues _ rfl, keeps_scheduleNext _ (by decide) now⟩
  | exception code handled now =>
    obtain ⟨killed, ended, returned⟩ := bind_ok done
    rw [ok_snd returned]
    refine ⟨killed, ?_, keeps_scheduleNextIfNeeded killed (by decide) now⟩
    cases handled with
    | true => exact Except.ok.inj ended ▸ .same (keeps_refl _ _) rfl
    | false => exact messages_finish enabled (.inr rfl) (.inr rfl) ended
  | syscall call now =>
    obtain ⟨⟨result, handled⟩, answered, returned⟩ := bind_ok done
    rw [ok_snd returned]
    refine ⟨handled, ?_, keeps_scheduleNextIfNeeded handled (by decide) now⟩
    cases call with
    | exit code =>
      obtain ⟨ended, finished, returned⟩ := bind_ok answered
      rw [ok_snd returned]
      exact messages_finish enabled (.inl rfl) (.inl rfl) finished
    | clone =>
      obtain ⟨⟨pid, started⟩, cloned, returned⟩ := bind_ok answered
      obtain ⟨⟨left, found⟩, rfl⟩ := clone_inv cloned
      rw [ok_snd returned]
      exact .spawn left found rfl
    | mqPoll mq wait room => exact ok_snd answered ▸ .poll rfl
    | mqSend mq pid size =>
      rcases mqSend_cases answered with rfl | rfl
      · exact .push [] size rfl
      · exact .push [_] size rfl
    | serviceDiscover typed service size =>
      rcases serviceDiscover_cases answered with rfl | ⟨queues, rfl⟩
      · exact .push [] size rfl
      · exact .push queues size rfl
    | _ =>
      have acts := acts_scHandle enabled answered (fun _ about => about)
      exact .same (keeps_acts acts (by simp [SystemCall.Concerns])) rfl

theorem queues_changed (taken : machine.step kernel event after) :
    Changed (queueView kernel) (queueCall kernel event) (queueView after) := by
  obtain ⟨middle, messages, scheduled⟩ := messages_step taken
  rw [scheduled.queues]
  cases messages with
  | same kept silent => exact silent ▸ .of_eq kept.queues
  | spawn left found called => exact called ▸ .make left []
  | push queues size silent => exact silent ▸ .of_eq (pushAll_queues kernel queues size)
  | @poll mq room now wait polled =>
    rw [polled]
    apply Changed.of_eq
    rcases mqPoll_cases kernel mq wait room with same | ⟨_, slept⟩ | taken
    · rw [same]
    · rw [slept]
      rfl
    · rw [taken, queueView, occupied_update, Option.map_map]
      exact congrArg (View.mk _) (update_eq_self ..)
  | @finish unlocked code now kept dies =>
    have called : queueCall kernel event = endedQueue kernel := by
      rcases dies with rfl | rfl <;> rfl
    obtain ⟨next, entries⟩ := View.mk.inj ((notified_queues unlocked kernel.current).trans kept.queues)
    rw [called, mqDestroy, queueView, queueView, occupied_update, next, entries, ← occupied_update, endedQueue]
    split
    · next missing =>
      rw [← missing, update_eq_self]
      exact .same
    · next present =>
      obtain ⟨queue, stored⟩ := Option.ne_none_iff_exists'.mp present
      exact .clear stored

theorem condvars_changed (taken : machine.step kernel event after) :
    Changed (condvarView kernel) (condvarCall kernel event) (condvarView after) := by
  by_cases concerned : event.Concerns .condvar
  · obtain ⟨call, now, rfl, about⟩ := condvar_concerns concerned
    obtain ⟨running, outcome, handled, answered, kept⟩ := syscall_keeps .condvar taken (by decide)
    rw [kept.condvars]
    cases call with
    | createCondvar =>
      rcases createCondvar_cases answered with ⟨none, rfl⟩ | ⟨numbered, rfl⟩
      · rw [condvarCall, if_pos none]
        exact .same
      · rw [condvarCall, if_neg numbered]
        exact .make numbered 0
    | destroyCondvar condvar =>
      rcases destroyCondvar_cases answered with ⟨busy, rfl⟩ | ⟨stored, rfl⟩
      · rw [condvarCall, if_neg busy]
        exact .same
      · rw [condvarCall, if_pos stored]
        exact .clear stored
    | signalCondvar condvar amount =>
      rcases signalCondvar_cases answered with ⟨_, rfl⟩ | ⟨waitCount, _, _, woken⟩
      · exact .same
      · rw [woken, condvarView, condvarView, (wake_tables kernel _).condvars, (wake_tables kernel _).nextCondvar]
        exact .same
    | waitCondvar condvar =>
      rcases waitCondvar_cases answered with rfl | ⟨waitCount, stored, rfl⟩
      · exact .same
      · exact .of_eq (congrArg (View.mk _) (occupied_in_place stored _))
    | _ => exact absurd about (by simp [SystemCall.Concerns])
  · have kept := keeps_step taken concerned
    have silent : condvarCall kernel event = none := by
      cases event with
      | syscall call now =>
        cases call with
        | createCondvar | destroyCondvar _ => simp [Event.Concerns, SystemCall.Concerns] at concerned
        | _ => rfl
      | _ => rfl
    rw [silent]
    exact .of_eq kept.condvars

/-- A mutex that is locked, unlocked or handed over is still there. -/
theorem set_mutexes {mutex : Nat} {entry : MutexData} (stored : kernel.mutexes.get mutex = some entry)
    (data : MutexData) : mutexView { kernel with mutexes := kernel.mutexes.set mutex data } = mutexView kernel := by
  rw [mutexView, MutexTable.get_set_eq, occupied_in_place stored, mutexView]

theorem grant_mutexes {mutex : Nat} {entry : MutexData} (stored : kernel.mutexes.get mutex = some entry) (pid : Nat) :
    mutexView (kernel.grant mutex pid) = mutexView kernel := set_mutexes stored ⟨1, pid⟩

theorem unlocked_mutexes {mutex : Nat} {entry : MutexData} (stored : kernel.mutexes.get mutex = some entry) :
    mutexView (kernel.unlocked mutex entry) = mutexView kernel := by
  have freed := set_mutexes stored ⟨i32 (entry.state - 1), entry.holder⟩
  simp only [Kernel.unlocked]
  split
  · cases (scan kernel.current).find? (kernel.waits .mutex mutex) with
    | none => exact freed
    | some pid =>
      have still : (kernel.mutexes.set mutex ⟨i32 (entry.state - 1), entry.holder⟩).get mutex =
          some ⟨i32 (entry.state - 1), entry.holder⟩ := by
        rw [MutexTable.get_set_eq, update_self]
      exact (grant_mutexes still pid).trans freed
  · exact freed

theorem finish_mutexes (running : kernel.Running) {state : ProcessState}
    (final : state = .exited ∨ state = .killed) {code : Nat} (done : finish kernel state code = .ok after) :
    mutexView after = mutexView kernel := by
  obtain ⟨unlocked, released, rfl⟩ := cleanup_inv done
  have died : Acts (· = .message) kernel (kernel.ended state code) := acts_ended final running code
  have freed : mutexView unlocked = mutexView (kernel.ended state code) := by
    refine @unlockHolder_induct _ _ _ (fun after => mutexView after = _) ?_ released rfl
    exact fun middle mutex entry same stored _ _ => (unlocked_mutexes stored).trans same
  have told : Acts (· = .message) unlocked (unlocked.notified kernel.current) := by
    apply acts_notified
    rfl
  have notified := (keeps_acts told (by simp)).mutexes.trans freed
  exact notified.trans (keeps_acts died (by simp)).mutexes

theorem mutexes_changed (taken : machine.step kernel event after) :
    Changed (mutexView kernel) (mutexCall kernel event) (mutexView after) := by
  cases event with
  | exception code handled now =>
    obtain ⟨enabled, outcome, done⟩ := taken
    obtain ⟨killed, ended, returned⟩ := bind_ok done
    rw [ok_snd returned, (keeps_scheduleNextIfNeeded killed (by decide) now).mutexes]
    cases handled with
    | true =>
      rw [← Except.ok.inj ended]
      exact .same
    | false => exact .of_eq (finish_mutexes enabled (.inr rfl) ended)
  | syscall call now =>
    obtain ⟨running, outcome, handled, answered, kept⟩ := syscall_keeps .mutex taken (by decide)
    rw [kept.mutexes]
    cases call with
    | exit code =>
      obtain ⟨ended, finished, returned⟩ := bind_ok answered
      rw [ok_snd returned]
      exact .of_eq (finish_mutexes running (.inl rfl) finished)
    | createMutex =>
      rcases createMutex_cases answered with ⟨none, rfl⟩ | ⟨numbered, rfl⟩
      · rw [mutexCall, if_pos none]
        exact .same
      · rw [mutexCall, if_neg numbered, mutexView, mutexView, MutexTable.get_set_eq]
        exact .make numbered _
    | destroyMutex mutex =>
      rcases destroyMutex_cases answered with ⟨busy, rfl⟩ | ⟨entry, stored, free, rfl⟩
      · rw [mutexCall, if_neg busy]
        exact .same
      · rw [mutexCall, if_pos (by simp [stored, free]), mutexView, mutexView, MutexTable.get_clear]
        exact .clear stored
    | lockMutex mutex trylock =>
      apply Changed.of_eq
      rcases lockMutex_cases answered with ⟨_, _, rfl⟩ | ⟨entry, stored, ⟨_, _, waited⟩ | ⟨_, _, rfl⟩⟩
      · rfl
      · rw [(Prod.mk.inj waited).2]
        cases trylock <;> rfl
      · exact set_mutexes stored _
    | unlockMutex mutex =>
      rcases unlockMutex_cases answered with rfl | ⟨entry, stored, _, _, _, rfl⟩
      · exact .same
      · exact .of_eq (unlocked_mutexes stored)
    | _ => exact .of_eq (keeps_acts (acts_scHandle running answered (fun _ about => about))
        (by simp [SystemCall.Concerns])).mutexes
  | _ => exact .of_eq (keeps_step taken (by simp [Event.Concerns])).mutexes

end

def queueTable : Table machine where
  layout := queueLayout
  view := queueView
  call := queueCall
  initially := by
    rintro _ rfl
    exact ⟨rfl, by decide⟩
  changed _ _ _ := queues_changed

def condvarTable : Table machine where
  layout := ⟨8, 4080, by decide, queueLayout.bounded⟩
  view := condvarView
  call := condvarCall
  initially := by
    rintro _ rfl
    exact ⟨rfl, by decide⟩
  changed _ _ _ := condvars_changed

def mutexTable : Table machine where
  layout := ⟨16, 4080, by decide, queueLayout.bounded⟩
  view := mutexView
  call := mutexCall
  initially := by
    rintro _ rfl
    exact ⟨rfl, by decide⟩
  changed _ _ _ := mutexes_changed

/-- No call of a kernel entry breaks one of the arrays. -/
structure TablesKept (kernel : Kernel) (event : Event) : Prop where
  queues : queueTable.Kept kernel event
  condvars : condvarTable.Kept kernel event
  mutexes : mutexTable.Kept kernel event

/-- The arrays hold what the tables of the kernel say. -/
structure TablesBacked (kernel : Kernel) : Prop where
  queues : queueTable.Backed kernel
  condvars : condvarTable.Backed kernel
  mutexes : mutexTable.Backed kernel

section

variable {kernel : Kernel}

/-- A kernel entry without calls. -/
theorem tablesKept_silent {event : Event} (queues : queueCall kernel event = none)
    (condvars : condvarCall kernel event = none) (mutexes : mutexCall kernel event = none) :
    TablesKept kernel event := by
  refine ⟨fun op called => ?_, fun op called => ?_, fun op called => ?_⟩
  · exact nomatch queues.symm.trans called
  · exact nomatch condvars.symm.trans called
  · exact nomatch mutexes.symm.trans called

/-- Numbers far from the last one can be stored. -/
theorem store_allowed {layout : Layout} {entries : Nat → Option Unit} {number : Nat}
    (far : number + layout.entriesPerPage < 2 ^ 64) : Allowed layout entries (.store (word number) ()) := by
  have start : layout.start number ≤ number := Nat.div_mul_le_self ..
  rw [Allowed, word_val (by omega)]
  omega

theorem tablesKept_start (far : kernel.nextMq + 50 < 2 ^ 64) (entry : Nat) : TablesKept kernel (.startTask entry) := by
  refine ⟨fun op called => ?_, nofun, nofun⟩
  cases called
  exact store_allowed far

theorem tablesKept_createCondvar (far : kernel.nextCondvar + 253 < 2 ^ 64) (now : Nat) :
    TablesKept kernel (.syscall .createCondvar now) := by
  refine ⟨nofun, fun op called => ?_, nofun⟩
  obtain ⟨_, stored⟩ := Option.ite_none_left_eq_some.mp called
  cases stored
  exact store_allowed far

end

/-- In every run whose kernel entries break no array, the tables of the kernel are what the arrays
hold. -/
theorem tables_backed {condition : Kernel → Event → Prop} {kernel : Kernel}
    (kept : ∀ kernel event, condition kernel event → TablesKept kernel event)
    (reachable : (machine.under condition).Reachable kernel) : TablesBacked kernel where
  queues := queueTable.backed (fun kernel event met => (kept kernel event met).queues) reachable
  condvars := condvarTable.backed (fun kernel event met => (kept kernel event met).condvars) reachable
  mutexes := mutexTable.backed (fun kernel event met => (kept kernel event met).mutexes) reachable

end Lfos.Processes
