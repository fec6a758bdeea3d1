import Lfos.Results
import Lfos.SystemCalls
import Lfos.Waking

/-!
# What a kernel entry is made of

A kernel entry is a sequence of actions on the shared state, behind which the scheduler
may be called once. An action changes a table, wakes a process, puts the current one to
sleep or ends it, starts one, or changes data that nobody waits for. It is labelled with
the reason to wait that it is about, if any. Every handler is shown to consist of such
actions once; what all actions and the scheduler keep is then kept by every step.
-/

namespace Lfos.Processes

open Words Results List Option Function

/-- One action, about an allowed reason. -/
inductive Action (allowed : WaitReason → Prop) : Kernel → Kernel → Prop where
  | mutexes (kernel : Kernel) (mutexes : MutexTable) (next : Nat) (about : allowed .mutex) :
      Action allowed kernel { kernel with mutexes := mutexes, nextMutex := next }
  | condvars (kernel : Kernel) (condvars : Nat → Option Nat) (next : Nat) (about : allowed .condvar) :
      Action allowed kernel { kernel with condvars := condvars, nextCondvar := next }
  | mqs (kernel : Kernel) (mqs : Nat → Option (List Nat)) (next : Nat) (about : allowed .message) :
      Action allowed kernel { kernel with mqs := mqs, nextMq := next }
  | wake {kernel : Kernel} {reason : WaitReason} {data pid : Nat} (about : allowed reason)
      (inside : pid < maxProcs) (waits : kernel.waits reason data pid = true) :
      Action allowed kernel (kernel.setState pid .runnable)
  | sleep {kernel : Kernel} {reason : WaitReason} (data : Nat) (about : allowed reason)
      (running : kernel.Running) :
      Action allowed kernel (kernel.sleep reason data)
  | finish {kernel : Kernel} {state : ProcessState} (final : state = .exited ∨ state = .killed)
      (running : kernel.Running) :
      Action allowed kernel (kernel.setState kernel.current state)
  | spawn {kernel : Kernel} {pid : Nat} (inside : pid < maxProcs)
      (unused : (kernel.processes pid).state = .empty) :
      Action allowed kernel (kernel.setState pid .runnable)
  | amend (kernel : Kernel) (pid : Nat) (change : Process → Process)
      (same : ∀ process, (change process).state = process.state ∧
        (change process).waitingFor = process.waitingFor ∧ (change process).waitingData = process.waitingData)
      (parents : ∀ process, (change process).parent = process.parent ∨ (change process).parent = invalidPid ∨
        ((change process).parent = kernel.current ∧ kernel.Running)) :
      Action allowed kernel (kernel.amend pid change)

/-- A sequence of actions. -/
def Acts (allowed : WaitReason → Prop) : Kernel → Kernel → Prop := Relation.ReflTransGen (Action allowed)

variable {pid mutex condvar : Nat} {allowed : WaitReason → Prop} {kernel after : Kernel} {call : SystemCall}

theorem Acts.refl (kernel : Kernel) : Acts allowed kernel kernel := Relation.ReflTransGen.refl

theorem Acts.trans {middle : Kernel}
    (first : Acts allowed kernel middle) (second : Acts allowed middle after) : Acts allowed kernel after :=
  Relation.ReflTransGen.trans first second

theorem Action.acts (action : Action allowed kernel after) :
    Acts allowed kernel after := Relation.ReflTransGen.single action

/-- What every action keeps. -/
theorem Acts.keeps {property : Kernel → Prop} (acts : Acts allowed kernel after) (holds : property kernel)
    (kept : ∀ kernel after, property kernel → Action allowed kernel after → property after) : property after := by
  induction acts with
  | refl => exact holds
  | tail _ action ih => exact kept _ _ ih action

/-- Waking different processes that wait with an allowed reason. -/
theorem acts_wake {reason : WaitReason} {data : Nat} (about : allowed reason) {pids : List Nat}
    (distinct : pids.Nodup) (waiters : pids ⊆ kernel.waiters reason data) : Acts allowed kernel (kernel.wake pids) := by
  have waits : ∀ pid ∈ pids, pid < maxProcs ∧ kernel.waits reason data pid = true :=
    fun pid member => mem_waiters.mp (waiters member)
  clear waiters
  induction pids generalizing kernel with
  | nil => exact .refl kernel
  | cons pid rest ih =>
    obtain ⟨absent, restDistinct⟩ := nodup_cons.mp distinct
    obtain ⟨inside, asleep⟩ := waits pid mem_cons_self
    apply (Action.wake about inside asleep).acts.trans
    apply ih restDistinct
    intro other member
    have different : other ≠ pid := by
      rintro rfl
      exact absent member
    rw [setState_waits_elsewhere kernel pid .runnable reason data different]
    exact waits other (mem_cons_of_mem _ member)

/-- The state behind a push, which always succeeds. -/
def Kernel.pushed (kernel : Kernel) (mq size : Nat) : Kernel :=
  match kernel.mqs mq with
  | none => kernel
  | some queue =>
    { kernel with mqs := update kernel.mqs mq (some (queue ++ [size])) }.wake
      (kernel.waiters .message mq)

theorem mqPush_eq (kernel : Kernel) (mq size : Nat) :
    ∃ error, mqPush kernel mq size = .ok (error, kernel.pushed mq size) := by
  cases stored : kernel.mqs mq with
  | none =>
    refine ⟨MessageQueues.enoent, ?_⟩
    simp only [mqPush, Kernel.pushed, stored]
  | some queue =>
    refine ⟨0, ?_⟩
    simp only [mqPush, Kernel.pushed, stored, waitableDone_message]
    rfl

theorem acts_pushed (about : allowed .message) (kernel : Kernel) (mq size : Nat) :
    Acts allowed kernel (kernel.pushed mq size) := by
  rw [Kernel.pushed]
  cases kernel.mqs mq with
  | none => exact .refl kernel
  | some queue =>
    apply (Action.mqs kernel (update kernel.mqs mq (some (queue ++ [size]))) kernel.nextMq about).acts.trans
    exact acts_wake about (waiters_nodup kernel .message mq) (fun _ member => member)

theorem pushAll_eq (kernel : Kernel) (queues : List Nat) (size : Nat) :
    pushAll kernel queues size = .ok (queues.foldl (fun kernel mq => kernel.pushed mq size) kernel) := by
  induction queues generalizing kernel with
  | nil => rfl
  | cons mq rest ih =>
    obtain ⟨error, pushed⟩ := mqPush_eq kernel mq size
    rw [pushAll, foldlM_cons, pushed]
    exact ih (kernel.pushed mq size)

theorem acts_pushAll (about : allowed .message) (kernel : Kernel) (queues : List Nat) (size : Nat) :
    Acts allowed kernel (queues.foldl (fun kernel mq => kernel.pushed mq size) kernel) := by
  induction queues generalizing kernel with
  | nil => exact .refl kernel
  | cons mq rest ih =>
    exact (acts_pushed about kernel mq size).trans (ih (kernel.pushed mq size))

theorem acts_grant (about : allowed .mutex) (inside : pid < maxProcs)
    (waits : kernel.waits .mutex mutex pid = true) : Acts allowed kernel (kernel.grant mutex pid) := by
  have granted := Action.mutexes kernel (kernel.mutexes.set mutex ⟨1, pid⟩) kernel.nextMutex about
  have woken : Action allowed { kernel with mutexes := kernel.mutexes.set mutex ⟨1, pid⟩ }
      (kernel.grant mutex pid) := .wake about inside waits
  exact granted.acts.trans woken.acts

/-- The state behind the unlock of a mutex that is held: the last unlock hands it over. -/
def Kernel.unlocked (kernel : Kernel) (mutex : Nat) (entry : MutexData) : Kernel :=
  let freed := { kernel with mutexes := kernel.mutexes.set mutex ⟨i32 (entry.state - 1), entry.holder⟩ }
  if i32 (entry.state - 1) = 0 then
    ((scan kernel.current).find? (kernel.waits .mutex mutex)).elim freed (freed.grant mutex)
  else freed

theorem mutexUnlock_eq {entry : MutexData} (stored : kernel.mutexes.get mutex = some entry)
    (locked : entry.state ≠ 0) (held : entry.holder = pid) :
    mutexUnlock kernel mutex pid = .ok (true, kernel.unlocked mutex entry) := by
  have written : ({ kernel with mutexes := kernel.mutexes.set mutex ⟨i32 (entry.state - 1), entry.holder⟩ } :
      Kernel).mutexes.get mutex = some ⟨i32 (entry.state - 1), entry.holder⟩ := by
    rw [MutexTable.get_set, update_self]
  by_cases last : i32 (entry.state - 1) = 0
  · simp only [mutexUnlock, stored, locked, held, if_false, if_true, Kernel.unlocked, last, ne_eq, not_true_eq_false,
      bind, Except.bind]
    rw [last, held] at written
    rw [waitableDone_mutex _ mutex 1 written rfl]
    rfl
  · simp only [mutexUnlock, stored, locked, held, if_false, Kernel.unlocked, last, ne_eq, not_true_eq_false]

/-- The process a mutex is handed over to. -/
theorem handover_some (found : (scan kernel.current).find? (kernel.waits .mutex mutex) = some pid) :
    pid < maxProcs ∧ kernel.waits .mutex mutex pid = true :=
  ⟨mem_scan.mp (mem_of_find?_eq_some found), find?_some found⟩

theorem acts_unlocked (about : allowed .mutex) (kernel : Kernel) (mutex : Nat) (entry : MutexData) :
    Acts allowed kernel (kernel.unlocked mutex entry) := by
  have freed := (Action.mutexes kernel
    (kernel.mutexes.set mutex ⟨i32 (entry.state - 1), entry.holder⟩) kernel.nextMutex about).acts
  rw [Kernel.unlocked]
  split
  · cases found : (scan kernel.current).find? (kernel.waits .mutex mutex) with
    | none => exact freed
    | some pid =>
      obtain ⟨inside, waits⟩ := handover_some found
      exact freed.trans (acts_grant about inside waits)
  · exact freed

/-- What unlocking a held mutex keeps, the loop over a dead process's mutexes keeps. -/
theorem unlockHolder_induct {property : Kernel → Prop}
    (kept : ∀ kernel mutex entry, property kernel → kernel.mutexes.get mutex = some entry → entry.state ≠ 0 →
    entry.holder = pid → property (kernel.unlocked mutex entry))
    (done : mutexUnlockHolder kernel pid = .ok after) (holds : property kernel) : property after := by
  have loop : ∀ fuel kernel mutex, property kernel → unlockHolderFrom pid fuel kernel mutex = .ok after →
      property after := by
    intro fuel
    induction fuel with
    | zero =>
      intro kernel mutex _ returned
      exact absurd returned (by simp [unlockHolderFrom])
    | succ fuel ih =>
      intro kernel mutex holds returned
      obtain ⟨visited, unlocked, continued⟩ := bind_ok returned
      have holdsNow : property visited := by
        rw [unlockIfHeld] at unlocked
        split at unlocked
        · exact Except.ok.inj unlocked ▸ holds
        · next entry stored =>
          split at unlocked
          · next held =>
            rw [mutexUnlock_eq stored held.1 held.2] at unlocked
            exact Except.ok.inj unlocked ▸ kept kernel mutex entry holds stored held.1 held.2
          · exact Except.ok.inj unlocked ▸ holds
      dsimp only at continued
      split at continued
      · exact ih visited _ holdsNow continued
      · exact Except.ok.inj continued ▸ holdsNow
  exact loop _ kernel 1 holds done

theorem acts_unlockHolder (about : allowed .mutex)
    (done : mutexUnlockHolder kernel pid = .ok after) : Acts allowed kernel after :=
  unlockHolder_induct (fun middle mutex entry acts _ _ _ => acts.trans (acts_unlocked about middle mutex entry))
    done (.refl kernel)

/-- The state after the parent was told. -/
def Kernel.notified (kernel : Kernel) (pid : Nat) : Kernel :=
  let parent := kernel.processes (kernel.processes pid).parent
  if parent.state ≠ .empty ∧ parent.state ≠ .exited ∧ parent.state ≠ .killed then
    kernel.pushed parent.mq signalMessageSize
  else kernel

theorem notifyParent_eq (kernel : Kernel) (pid : Nat) : notifyParent kernel pid = .ok (kernel.notified pid) := by
  simp only [notifyParent, Kernel.notified]
  split
  · obtain ⟨error, pushed⟩ := mqPush_eq kernel (kernel.processes (kernel.processes pid).parent).mq signalMessageSize
    rw [pushed, Except.map]
  · rfl

theorem acts_notified (about : allowed .message) (kernel : Kernel) (pid : Nat) :
    Acts allowed kernel (kernel.notified pid) := by
  simp only [Kernel.notified]
  split
  · exact acts_pushed about kernel _ _
  · exact .refl kernel

/-- The three steps of the cleanup. -/
theorem cleanup_inv (done : schedulerProcessCleanup kernel pid = .ok after) :
    ∃ unlocked, mutexUnlockHolder kernel pid = .ok unlocked ∧
    after = mqDestroy (unlocked.notified pid) ((unlocked.notified pid).processes pid).mq := by
  obtain ⟨unlocked, released, notified⟩ := bind_ok done
  rw [notifyParent_eq] at notified
  exact ⟨unlocked, released, (Except.ok.inj notified).symm⟩

theorem acts_cleanup (mutex : allowed .mutex) (message : allowed .message)
    (done : schedulerProcessCleanup kernel pid = .ok after) : Acts allowed kernel after := by
  obtain ⟨unlocked, released, rfl⟩ := cleanup_inv done
  apply (acts_unlockHolder mutex released).trans
  apply (acts_notified message unlocked pid).trans
  exact (Action.mqs _ _ _ message).acts

/-- The current process has ended, nothing is cleaned up yet. -/
def Kernel.ended (kernel : Kernel) (state : ProcessState) (code : Nat) : Kernel :=
  (kernel.setState kernel.current state).amend kernel.current (fun process => { process with exitCode := code })

theorem acts_ended {state : ProcessState} (final : state = .exited ∨ state = .killed)
    (running : kernel.Running) (code : Nat) :
    Acts allowed kernel (kernel.ended state code) := by
  apply (Action.finish final running).acts.trans
  exact (Action.amend _ kernel.current (fun process => { process with exitCode := code })
    (fun _ => ⟨rfl, rfl, rfl⟩) (fun _ => .inl rfl)).acts

theorem acts_finish (mutex : allowed .mutex) (message : allowed .message) {state : ProcessState}
    (final : state = .exited ∨ state = .killed)
    (running : kernel.Running) {code : Nat}
    (done : finish kernel state code = .ok after) : Acts allowed kernel after :=
  (acts_ended final running code).trans (acts_cleanup mutex message done)

/-- A free slot was never used. -/
theorem freePid_some (found : freePid kernel = some pid) : pid < maxProcs ∧ (kernel.processes pid).state = .empty := by
  have inRange := mem_of_find?_eq_some found
  have empty := find?_some found
  exact ⟨mem_range.mp inRange, of_decide_eq_true empty⟩

/-- The state with a new process. -/
def Kernel.spawned (kernel : Kernel) (pid : Nat) : Kernel :=
  { kernel.setState pid .runnable with
    mqs := update kernel.mqs kernel.nextMq (some [])
    nextMq := u64 (kernel.nextMq + 1) }.amend pid (fun process => { process with mq := kernel.nextMq })

theorem setupProcess_inv (done : setupProcess kernel = .ok (pid, after)) :
    (kernel.nextMq ≠ 0 ∧ freePid kernel = some pid) ∧ after = kernel.spawned pid := by
  unfold setupProcess at done
  split at done
  · exact absurd done (by simp)
  · next slot found =>
    obtain ⟨⟨mq, created⟩, numbered, returned⟩ := bind_ok done
    rw [mqCreate] at numbered
    split at numbered
    · exact absurd numbered (by simp)
    · next left =>
      simp only [setState_nextMq, setState_mqs] at numbered left returned
      obtain ⟨rfl, rfl⟩ := numbered
      obtain ⟨rfl, rfl⟩ := returned
      exact ⟨⟨left, found⟩, by rw [Kernel.spawned]⟩

theorem acts_spawned (about : allowed .message) (inside : pid < maxProcs)
    (unused : (kernel.processes pid).state = .empty) : Acts allowed kernel (kernel.spawned pid) := by
  apply (Action.spawn inside unused).acts.trans
  apply (Action.mqs (kernel.setState pid .runnable) _ _ about).acts.trans
  exact (Action.amend _ pid (fun process => { process with mq := kernel.nextMq })
    (fun _ => ⟨rfl, rfl, rfl⟩) (fun _ => .inl rfl)).acts

/-- The reasons to wait that a system call is about. -/
def SystemCall.Concerns : SystemCall → WaitReason → Prop
  | .exit _, reason => reason = .mutex ∨ reason = .message
  | .sleep _ _, reason => reason = .time
  | .createMutex, reason | .destroyMutex _, reason | .lockMutex _ _, reason | .unlockMutex _, reason =>
    reason = .mutex
  | .createCondvar, reason | .destroyCondvar _, reason | .signalCondvar _ _, reason | .waitCondvar _, reason =>
    reason = .condvar
  | .clone, reason | .mqPoll _ _ _, reason | .mqSend _ _ _, reason | .serviceDiscover _ _ _, reason =>
    reason = .message
  | .other, _ => False

/-- The reasons to wait that the actions of a kernel entry are about. -/
def Event.Handles : Event → WaitReason → Prop
  | .startTask _, reason => reason = .message
  | .interrupt _ _, reason => reason = .message
  | .exception _ _ _, reason => reason = .mutex ∨ reason = .message
  | .syscall call _, reason => call.Concerns reason

/-- The reasons to wait that a kernel entry is about, the scheduler included. -/
def Event.Concerns : Event → WaitReason → Prop
  | .startTask _, reason => reason = .message
  | .interrupt _ _, reason => reason = .message ∨ reason = .time
  | .exception _ _ _, reason => reason = .mutex ∨ reason = .message ∨ reason = .time
  | .syscall call _, reason => call.Concerns reason ∨ reason = .time

section

variable {outcome : Outcome}

/-- Starting a task makes a slot a process without a parent. -/
theorem startTask_inv {entry : Nat} (done : startTask kernel entry = .ok (pid, after)) :
    (kernel.nextMq ≠ 0 ∧ freePid kernel = some pid) ∧
    after = (kernel.spawned pid).amend pid (fun process => { process with parent := invalidPid }) := by
  unfold startTask at done
  split at done
  · exact absurd done (by simp)
  · obtain ⟨⟨slot, started⟩, setup, returned⟩ := bind_ok done
    obtain ⟨found, rfl⟩ := setupProcess_inv setup
    cases returned
    exact ⟨found, rfl⟩

/-- Cloning makes a slot a child of the current process. -/
theorem clone_inv (done : scHandleSchedulerClone kernel = .ok (pid, after)) :
    (kernel.nextMq ≠ 0 ∧ freePid kernel = some pid) ∧
    after = (kernel.spawned pid).amend pid (fun process => { process with parent := kernel.current }) := by
  obtain ⟨⟨slot, started⟩, setup, returned⟩ := bind_ok done
  obtain ⟨found, rfl⟩ := setupProcess_inv setup
  cases returned
  exact ⟨found, rfl⟩

theorem spawned_elsewhere {other : Nat} (different : other ≠ pid) :
    (kernel.spawned pid).processes other = kernel.processes other := by
  simp [Kernel.spawned, Kernel.amend, different, setState_elsewhere kernel pid .runnable different]

/-- A new process has no parent, or the current process as its parent. -/
theorem acts_child (about : allowed .message) {parent : Nat} (found : freePid kernel = some pid)
    (born : parent = invalidPid ∨ parent = kernel.current ∧ kernel.Running) :
    Acts allowed kernel ((kernel.spawned pid).amend pid (fun process => { process with parent := parent })) := by
  obtain ⟨inside, unused⟩ := freePid_some found
  apply (acts_spawned about inside unused).trans
  apply Action.acts
  apply Action.amend _ pid (fun process => { process with parent := parent }) (fun _ => ⟨rfl, rfl, rfl⟩)
  intro process
  rcases born with orphan | ⟨same, running⟩
  · exact .inr (.inl orphan)
  · have different : kernel.current ≠ pid := by
      rintro rfl
      rw [running] at unused
      exact absurd unused (by decide)
    refine .inr (.inr ⟨same, ?_⟩)
    change ((kernel.spawned pid).processes kernel.current).state = .running
    rwa [spawned_elsewhere different]

/-- What creating a mutex does. -/
theorem createMutex_cases (done : scHandleLockingCreateMutex kernel = .ok (outcome, after)) :
    kernel.nextMutex = 0 ∧ after = kernel ∨ kernel.nextMutex ≠ 0 ∧ after = { kernel with
        mutexes := kernel.mutexes.set kernel.nextMutex ⟨0, 0⟩
        nextMutex := u64 (kernel.nextMutex + 1) } := by
  unfold scHandleLockingCreateMutex at done
  split at done
  · next none => exact .inl ⟨none, ok_snd done⟩
  · next left =>
    rw [mutexCreate, if_neg left] at done
    exact .inr ⟨left, ok_snd done⟩

/-- What destroying a mutex does. -/
theorem destroyMutex_cases (done : scHandleLockingDestroyMutex kernel mutex = .ok (outcome, after)) :
    (kernel.mutexes.get mutex).map MutexData.state ≠ some 0 ∧ after = kernel ∨
    ∃ entry, kernel.mutexes.get mutex = some entry ∧ entry.state = 0 ∧
    after = { kernel with mutexes := kernel.mutexes.clear mutex } := by
  unfold scHandleLockingDestroyMutex at done
  split at done
  · next missing => exact .inl ⟨by simp [missing], ok_snd done⟩
  · next entry stored =>
    split at done
    · next locked => exact .inl ⟨by simpa [stored] using locked, ok_snd done⟩
    · next free =>
      simp only [mutexDestroy, stored, free] at done
      exact .inr ⟨entry, stored, not_not.mp free, ok_snd done⟩

theorem acts_awaitMutex (about : allowed .mutex)
    (running : kernel.Running) (mutex : Nat) (trylock : Bool) :
    Acts allowed kernel (awaitMutex kernel mutex trylock).2 := by
  unfold awaitMutex
  split
  · exact .refl kernel
  · rw [waitFor_invalid]
    exact (Action.sleep mutex about running).acts

/-- What locking does: it fails, waits, or locks. -/
theorem lockMutex_cases {trylock : Bool} (done : scHandleLockingLockMutex kernel mutex trylock = .ok (outcome, after)) :
    (kernel.mutexes.get mutex = none ∧ outcome = ⟨some einval, none⟩ ∧ after = kernel) ∨
    ∃ entry, kernel.mutexes.get mutex = some entry ∧ ((entry.state ≠ 0 ∧ entry.holder ≠ kernel.current ∧
    (outcome, after) = awaitMutex kernel mutex trylock) ∨
     (¬ (entry.state ≠ 0 ∧ entry.holder ≠ kernel.current) ∧ outcome = ⟨some 0, none⟩ ∧
    after = { kernel with mutexes := kernel.mutexes.set mutex ⟨i32 (entry.state + 1), kernel.current⟩ })) := by
  unfold scHandleLockingLockMutex at done
  split at done
  · next missing =>
    cases done
    exact .inl ⟨missing, rfl, rfl⟩
  · next entry stored =>
    refine .inr ⟨entry, stored, ?_⟩
    split at done
    · next busy => exact .inl ⟨busy.1, busy.2, (Except.ok.inj done).symm⟩
    · next able =>
      simp only [mutexLock, stored, if_neg able] at done
      cases done
      exact .inr ⟨able, rfl, rfl⟩

/-- What unlocking does: it reports an error, finds nothing to do, or unlocks. -/
theorem unlockMutex_cases (done : scHandleLockingUnlockMutex kernel mutex = .ok (outcome, after)) :
    after = kernel ∨ ∃ entry, kernel.mutexes.get mutex = some entry ∧ entry.state ≠ 0 ∧
    entry.holder = kernel.current ∧ outcome = ⟨some 0, none⟩ ∧ after = kernel.unlocked mutex entry := by
  unfold scHandleLockingUnlockMutex at done
  split at done
  · exact .inl (ok_snd done)
  · next entry stored =>
    split at done
    · exact .inl (ok_snd done)
    · next locked =>
      split at done
      · exact .inl (ok_snd done)
      · next held =>
        have holder : entry.holder = kernel.current := not_not.mp held
        rw [mutexUnlock_eq stored locked holder] at done
        cases done
        exact .inr ⟨entry, stored, locked, holder, rfl, rfl⟩

/-- What a signal does: nothing, or the waking scan. -/
theorem signalCondvar_cases {amount : Fin (2 ^ 64)}
    (done : scHandleLockingSignalCondvar kernel condvar amount = .ok (outcome, after)) :
    ((kernel.condvars condvar = none ∨ kernel.condvars condvar = some 0) ∧ after = kernel) ∨
    ∃ waitCount, kernel.condvars condvar = some waitCount ∧ waitCount ≠ 0 ∧
    after = kernel.wake ((kernel.waiters .condvar condvar).eraseIdx amount.val) := by
  unfold scHandleLockingSignalCondvar at done
  split at done
  · next missing => exact .inl ⟨.inl missing, ok_snd done⟩
  · next waitCount stored =>
    split at done
    · next counted =>
      rw [waitableDone_condvar kernel condvar amount.isLt] at done
      exact .inr ⟨waitCount, stored, counted, ok_snd done⟩
    · next uncounted =>
      rw [not_not.mp uncounted] at stored
      exact .inl ⟨.inr stored, ok_snd done⟩

/-- What creating a condition variable does. -/
theorem createCondvar_cases (done : scHandle kernel .createCondvar = .ok (outcome, after)) :
    kernel.nextCondvar = 0 ∧ after = kernel ∨ kernel.nextCondvar ≠ 0 ∧ after = { kernel with
        condvars := update kernel.condvars kernel.nextCondvar (some 0)
        nextCondvar := u64 (kernel.nextCondvar + 1) } := by
  obtain rfl : after = (scHandleLockingCreateCondvar kernel).2 := ok_snd done
  unfold scHandleLockingCreateCondvar
  split
  · next none => exact .inl ⟨none, rfl⟩
  · next left => exact .inr ⟨left, rfl⟩

/-- What destroying a condition variable does. -/
theorem destroyCondvar_cases (done : scHandle kernel (.destroyCondvar condvar) = .ok (outcome, after)) :
    kernel.condvars condvar ≠ some 0 ∧ after = kernel ∨ kernel.condvars condvar = some 0 ∧
    after = { kernel with condvars := update kernel.condvars condvar none } := by
  obtain rfl : after = (scHandleLockingDestroyCondvar kernel condvar).2 := ok_snd done
  unfold scHandleLockingDestroyCondvar
  split
  · next missing => exact .inl ⟨by simp [missing], rfl⟩
  · next waitCount stored =>
    split
    · next counted => exact .inl ⟨by simpa [stored] using counted, rfl⟩
    · next zero => exact .inr ⟨by rw [stored, not_not.mp zero], rfl⟩

/-- One more process that waits for a condition variable is counted. -/
def Kernel.counting (kernel : Kernel) (condvar waitCount : Nat) : Kernel :=
  { kernel with condvars := update kernel.condvars condvar (some (u64 (waitCount + 1))) }

/-- What waiting does: it fails, or is counted and the caller falls asleep. -/
theorem waitCondvar_cases (done : scHandle kernel (.waitCondvar condvar) = .ok (outcome, after)) :
    after = kernel ∨ ∃ waitCount, kernel.condvars condvar = some waitCount ∧
    after = (kernel.counting condvar waitCount).sleep .condvar condvar := by
  obtain rfl : after = (scHandleLockingWaitCondvar kernel condvar).2 := ok_snd done
  unfold scHandleLockingWaitCondvar
  split
  · exact .inl rfl
  · next waitCount stored =>
    rw [waitFor_invalid]
    exact .inr ⟨waitCount, stored, rfl⟩

/-- What polling does: it fails, waits, or takes a message. -/
theorem mqPoll_cases (kernel : Kernel) (mq : Nat) (wait : Bool) (room : Nat) :
    (scHandleIpcMqPoll kernel mq wait room).2 = kernel ∨
    (pollError kernel (kernel.queueOr mq) room = MessageQueues.enomsg ∧
      (scHandleIpcMqPoll kernel mq wait room).2 = kernel.sleep .message (kernel.queueOr mq)) ∨
    (scHandleIpcMqPoll kernel mq wait room).2 = { kernel with
      mqs := update kernel.mqs (kernel.queueOr mq) ((kernel.mqs (kernel.queueOr mq)).map List.tail) } := by
  unfold scHandleIpcMqPoll
  dsimp only
  split
  · next empty => exact .inr (.inl ⟨empty.1, rfl⟩)
  · split
    · exact .inl rfl
    · unfold mqPop
      split
      · exact .inl rfl
      · exact .inr (.inr rfl)

theorem mqSend_cases {mq size : Nat} (done : scHandleIpcMqSend kernel mq pid size = .ok (outcome, after)) :
    after = kernel ∨ after = kernel.pushed (kernel.recipient mq pid) size := by
  unfold scHandleIpcMqSend at done
  split at done
  · obtain ⟨error, pushed⟩ := mqPush_eq kernel (kernel.recipient mq pid) size
    rw [pushed] at done
    exact .inr (ok_snd done)
  · exact .inl (ok_snd done)

theorem serviceDiscover_cases {typed : Bool} {service : Option (List Nat)} {size : Nat}
    (done : scHandleIpcServiceDiscover kernel typed service size = .ok (outcome, after)) :
    after = kernel ∨ ∃ queues : List Nat, after = queues.foldl (fun kernel mq => kernel.pushed mq size) kernel := by
  unfold scHandleIpcServiceDiscover at done
  split at done
  · exact .inl (ok_snd done)
  · cases service with
    | none => exact .inl (ok_snd done)
    | some queues =>
      simp only [pushAll_eq] at done
      exact .inr ⟨queues, ok_snd done⟩

/-- A system call consists of actions it concerns. -/
theorem acts_scHandle (running : kernel.Running)
    (done : scHandle kernel call = .ok (outcome, after)) (about : ∀ reason, call.Concerns reason → allowed reason) :
    Acts allowed kernel after := by
  cases call with
  | exit code =>
    obtain ⟨ended, finished, returned⟩ := bind_ok done
    rw [ok_snd returned]
    exact acts_finish (about .mutex (.inl rfl)) (about .message (.inr rfl)) (.inl rfl) running finished
  | clone =>
    obtain ⟨⟨pid, started⟩, cloned, returned⟩ := bind_ok done
    obtain ⟨⟨_, found⟩, rfl⟩ := clone_inv cloned
    rw [ok_snd returned]
    exact acts_child (about .message rfl) found (.inr ⟨rfl, running⟩)
  | sleep nanoseconds clock =>
    rw [ok_snd done]
    exact (Action.sleep _ (about .time rfl) running).acts
  | createMutex =>
    rcases createMutex_cases done with ⟨_, rfl⟩ | ⟨_, rfl⟩
    · exact .refl _
    · exact (Action.mutexes kernel _ _ (about .mutex rfl)).acts
  | destroyMutex mutex =>
    rcases destroyMutex_cases done with ⟨_, rfl⟩ | ⟨_, _, _, rfl⟩
    · exact .refl _
    · exact (Action.mutexes kernel _ _ (about .mutex rfl)).acts
  | lockMutex mutex trylock =>
    rcases lockMutex_cases done with ⟨_, _, rfl⟩ | ⟨entry, _, ⟨_, _, waited⟩ | ⟨_, _, rfl⟩⟩
    · exact .refl _
    · rw [(Prod.mk.inj waited).2]
      exact acts_awaitMutex (about .mutex rfl) running mutex trylock
    · exact (Action.mutexes kernel _ _ (about .mutex rfl)).acts
  | unlockMutex mutex =>
    rcases unlockMutex_cases done with rfl | ⟨entry, _, _, _, _, rfl⟩
    · exact .refl _
    · exact acts_unlocked (about .mutex rfl) kernel mutex entry
  | createCondvar =>
    rcases createCondvar_cases done with ⟨_, rfl⟩ | ⟨_, rfl⟩
    · exact .refl _
    · exact (Action.condvars kernel _ _ (about .condvar rfl)).acts
  | destroyCondvar condvar =>
    rcases destroyCondvar_cases done with ⟨_, rfl⟩ | ⟨_, rfl⟩
    · exact .refl _
    · exact (Action.condvars kernel _ _ (about .condvar rfl)).acts
  | signalCondvar condvar amount =>
    rcases signalCondvar_cases done with ⟨_, rfl⟩ | ⟨waitCount, _, _, woken⟩
    · exact .refl _
    · rw [woken]
      exact acts_wake (about .condvar rfl)
        ((waiters_nodup kernel .condvar condvar).sublist (eraseIdx_sublist _ _)) eraseIdx_subset
  | waitCondvar condvar =>
    rcases waitCondvar_cases done with rfl | ⟨waitCount, _, rfl⟩
    · exact .refl _
    · apply (Action.condvars kernel _ kernel.nextCondvar (about .condvar rfl)).acts.trans
      apply Action.acts
      exact .sleep condvar (about .condvar rfl) running
  | mqPoll mq wait room =>
    obtain rfl : after = (scHandleIpcMqPoll kernel mq wait room).2 := ok_snd done
    rcases mqPoll_cases kernel mq wait room with same | ⟨_, slept⟩ | taken
    · rw [same]
      exact .refl kernel
    · rw [slept]
      exact (Action.sleep _ (about .message rfl) running).acts
    · rw [taken]
      exact (Action.mqs kernel _ _ (about .message rfl)).acts
  | mqSend mq pid size =>
    rcases mqSend_cases done with rfl | rfl
    · exact .refl _
    · exact acts_pushed (about .message rfl) kernel _ _
  | serviceDiscover typed service size =>
    rcases serviceDiscover_cases done with rfl | ⟨queues, rfl⟩
    · exact .refl _
    · exact acts_pushAll (about .message rfl) kernel queues size
  | other =>
    rw [ok_snd done]
    exact .refl kernel

/-- A system call is handled for the running process, and then the scheduler is called if
it can not go on. -/
theorem syscall_inv {now : Nat} (taken : machine.step kernel (.syscall call now) after) :
    kernel.Running ∧
    ∃ outcome handled, scHandle kernel call = .ok (outcome, handled) ∧ after = scheduleNextIfNeeded now handled := by
  obtain ⟨running, outcome, done⟩ := taken
  obtain ⟨⟨result, handled⟩, answered, returned⟩ := bind_ok done
  exact ⟨running, result, handled, answered, ok_snd returned⟩

/-- A handled system call of a process that can go on. -/
theorem step_syscall {handled : Kernel} (running : kernel.Running)
    (answered : scHandle kernel call = .ok (outcome, handled)) (now : Nat) :
    machine.step kernel (.syscall call now) (scheduleNextIfNeeded now handled) := by
  refine ⟨running, outcome, ?_⟩
  simp only [step, answered, bind, Except.bind]

/-- The scheduler is not called for a process that goes on. -/
theorem goes_on (running : kernel.Running) (now : Nat) :
    scheduleNextIfNeeded now kernel = kernel := by
  have able : stuck kernel = false := by simp [stuck, running]
  rw [scheduleNextIfNeeded, able]
  exact if_neg (by decide)

/-- The scheduler is called for a process that can not go on. -/
theorem gives_way (asleep : (kernel.processes kernel.current).state ≠ .running)
    (slept : (kernel.processes kernel.current).state ≠ .runnable) (now : Nat) :
    scheduleNextIfNeeded now kernel = scheduleNext now kernel := by
  have halted : stuck kernel = true := by simp [stuck, asleep, slept]
  rw [scheduleNextIfNeeded, halted]
  exact if_pos rfl

/-- The clock value and the state the scheduler is called with during a kernel entry, if
it is. -/
def called (kernel : Kernel) : Event → Option (Nat × Kernel)
  | .startTask _ => none
  | .interrupt queues now => (pushAll kernel queues interruptMessageSize).toOption.map (fun after => (now, after))
  | .exception reason handled now =>
    ((handleUserspaceException kernel reason handled).toOption.filter stuck).map (fun after => (now, after))
  | .syscall call now =>
    (((scHandle kernel call).toOption.map Prod.snd).filter stuck).map (fun after => (now, after))

/-- The end of a kernel entry: the scheduler is called, or nothing more happens. -/
def Leaves (kernel : Kernel) (event : Event) (middle after : Kernel) : Prop :=
  (∃ now, called kernel event = some (now, middle) ∧ after = scheduleNext now middle) ∨
  (called kernel event = none ∧ after = middle)

/-- The scheduler is called if the current process can not go on. -/
theorem leaves_if_needed {event : Event} {now : Nat} {middle : Kernel}
    (call : called kernel event = ((some middle).filter stuck).map (fun after => (now, after))) :
    Leaves kernel event middle (scheduleNextIfNeeded now middle) := by
  rw [scheduleNextIfNeeded]
  cases halted : stuck middle with
  | true =>
    rw [filter_some_pos halted] at call
    exact .inl ⟨now, call, if_pos rfl⟩
  | false =>
    rw [filter_some_neg (by simp [halted])] at call
    exact .inr ⟨call, if_neg (by decide)⟩

/-- A kernel entry consists of actions it handles, and of a call of the scheduler at
most. -/
theorem acts_step {event : Event} (taken : machine.step kernel event after)
    (about : ∀ reason, event.Handles reason → allowed reason) :
    ∃ middle, Acts allowed kernel middle ∧ Leaves kernel event middle after := by
  obtain ⟨enabled, outcome, done⟩ := taken
  cases event with
  | startTask entry =>
    obtain ⟨⟨pid, started⟩, launched, returned⟩ := bind_ok done
    obtain ⟨⟨_, found⟩, rfl⟩ := startTask_inv launched
    rw [ok_snd returned]
    exact ⟨_, acts_child (about .message rfl) found (.inl rfl), .inr ⟨rfl, rfl⟩⟩
  | interrupt queues now =>
    obtain ⟨pushed, delivered, returned⟩ := bind_ok done
    rw [ok_snd returned]
    refine ⟨pushed, ?_, .inl ⟨now, by simp [called, delivered, Except.toOption], rfl⟩⟩
    rw [pushAll_eq] at delivered
    rw [← Except.ok.inj delivered]
    exact acts_pushAll (about .message rfl) kernel queues _
  | exception code handled now =>
    obtain ⟨killed, ended, returned⟩ := bind_ok done
    rw [ok_snd returned]
    refine ⟨killed, ?_, leaves_if_needed (by simp only [called, ended, Except.toOption])⟩
    cases handled with
    | true =>
      rw [← Except.ok.inj ended]
      exact .refl kernel
    | false =>
      exact acts_finish (about .mutex (.inl rfl)) (about .message (.inr rfl)) (.inr rfl) enabled ended
  | syscall call now =>
    obtain ⟨⟨result, handled⟩, answered, returned⟩ := bind_ok done
    rw [ok_snd returned]
    refine ⟨handled, ?_, leaves_if_needed (by simp only [called, answered, Except.toOption, map_some])⟩
    exact acts_scHandle enabled answered about

end

end Lfos.Processes
