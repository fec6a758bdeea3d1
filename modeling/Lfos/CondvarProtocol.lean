import Lfos.Pthreads

/-!
# The usual protocol around a condition variable

A waiter locks the mutex, tests a predicate and calls `pthread_cond_wait` as long as it is
false. A signaller makes the predicate true while it holds the mutex, and signals or
broadcasts before or after it unlocks. Everything else may happen in between, at the
granularity of system calls.

A wake-up is lost if the predicate is true, nobody is left who is going to signal, and
somebody waits. This happens when a signal falls between the two system calls with which
a waiter unlocks and starts to wait, or when a signal does not wake all waiters. Where
neither is the case with the last signal, no wake-up is lost.
-/

namespace Lfos.Processes

open Transitions Function Finset

/-- How a signaller tells: to one or to all, before or after it unlocks. -/
structure Notification where
  broadcast : Bool
  early : Bool

/-- Where a process is in the protocol. Inside a library function, `back` says where it
goes with what the function returns. -/
inductive Place where
  | away
  | tests
  | sets (notification : Notification)
  | within (function : Library) (back : Returned → Place)

/-- Some answers of the kernel lead to a system call before the function returns, or in a
function that is called directly behind it. -/
inductive Place.MayCall (wanted : SystemCall → Prop) : Place → Prop where
  | inside {function : Library} {back : Returned → Place} (asks : function.MayAsk wanted) :
      Place.MayCall wanted (.within function back)
  | behind {function : Library} {back : Returned → Place} (returned : Returned)
      (calls : Place.MayCall wanted (back returned)) : Place.MayCall wanted (.within function back)

/-- Whatever the kernel answers, a system call will be made. -/
inductive Place.WillCall (wanted : SystemCall → Prop) : Place → Prop where
  | now {call : SystemCall} {next : Outcome → Library} {back : Returned → Place} (here : wanted call) :
      Place.WillCall wanted (.within (.ask call next) back)
  | later {call : SystemCall} {next : Outcome → Library} {back : Returned → Place}
      (there : ∀ outcome, Place.WillCall wanted (.within (next outcome) back)) :
      Place.WillCall wanted (.within (.ask call next) back)
  | behind {returned : Returned} {back : Returned → Place} (there : Place.WillCall wanted (back returned)) :
      Place.WillCall wanted (.within (.done returned) back)

/-- A call that waits for a condition variable. -/
def WaitsFor (condvar : Nat) : SystemCall → Prop
  | .waitCondvar waited => waited = condvar
  | _ => False

/-- A call that signals a condition variable. -/
def Signals (condvar : Nat) : SystemCall → Prop
  | .signalCondvar signalled _ => signalled = condvar
  | _ => False

section

variable (mutex condvar : Nat)

/-- Test where the function succeeded. -/
def thenTests (returned : Returned) : Place := if returned.error = some 0 then .tests else .away

def waiterStarts : Place := .within (pthreadMutexLock mutex) thenTests

/-- A waiter that found the predicate false calls `pthread_cond_wait` and tests again. -/
def waiterWaits : Place := .within (pthreadCondWait condvar mutex) thenTests

/-- A waiter that found the predicate true unlocks and leaves. -/
def waiterLeaves : Place := .within (pthreadMutexUnlock mutex) (fun _ => .away)

def signallerStarts (notification : Notification) : Place :=
  .within (pthreadMutexLock mutex) (fun returned =>
    if returned.error = some 0 then .sets notification else .away)

def Notification.function (notification : Notification) : Library :=
  if notification.broadcast then pthreadCondBroadcast condvar else pthreadCondSignal condvar

/-- A signaller that has made the predicate true. -/
def signallerTells (notification : Notification) : Place :=
  if notification.early then
    .within (notification.function condvar) (fun _ => .within (pthreadMutexUnlock mutex) (fun _ => .away))
  else .within (pthreadMutexUnlock mutex) (fun _ => .within (notification.function condvar) (fun _ => .away))

end

structure Parties where
  kernel : Kernel
  predicate : Bool
  places : Nat → Place

/-- The place of the process that runs. -/
def Parties.here (parties : Parties) : Place := parties.places parties.kernel.current

/-- The process that runs goes to another place. -/
def Parties.go (parties : Parties) (place : Place) : Parties :=
  { parties with places := update parties.places parties.kernel.current place }

/-- A system call that changes the shared mutex or condition variable. -/
def SystemCall.Touches (mutex condvar : Nat) : SystemCall → Prop
  | .destroyMutex touched => touched = mutex
  | .lockMutex touched _ => touched = mutex
  | .unlockMutex touched => touched = mutex
  | .destroyCondvar touched => touched = condvar
  | .signalCondvar touched _ => touched = condvar
  | .waitCondvar touched => touched = condvar
  | _ => False

/-- What happens besides the protocol: anything that does not touch what is shared, and
that does not end a process which is in the middle of it. -/
def Foreign (mutex condvar : Nat) (parties : Parties) : Event → Prop
  | .startTask _ => True
  | .interrupt _ _ => True
  | .exception _ handled _ => handled = true ∨ parties.here = .away
  | .syscall (.exit _) _ => parties.here = .away
  | .syscall call _ => ¬ call.Touches mutex condvar

inductive Move where
  | join
  | test
  | set
  | back
  | call (now : Nat)
  | foreign (event : Event)

/-- The moves of the process that runs, and everything else. -/
inductive Moves (mutex condvar : Nat) (parties : Parties) : Move → Parties → Prop where
  | join {place : Place} (running : parties.kernel.Running)
      (here : parties.here = .away)
      (role : place = waiterStarts mutex ∨ ∃ notification, place = signallerStarts mutex notification) :
      Moves mutex condvar parties .join (parties.go place)
  | test (running : parties.kernel.Running)
      (here : parties.here = .tests) :
      Moves mutex condvar parties .test
        (parties.go (if parties.predicate then waiterLeaves mutex else waiterWaits mutex condvar))
  | set {notification : Notification}
      (running : parties.kernel.Running)
      (here : parties.here = .sets notification) :
      Moves mutex condvar parties .set { parties.go (signallerTells mutex condvar notification) with predicate := true }
  | back {returned : Returned} {back : Returned → Place}
      (running : parties.kernel.Running)
      (here : parties.here = .within (.done returned) back) :
      Moves mutex condvar parties .back (parties.go (back returned))
  | call {call : SystemCall} {next : Outcome → Library} {back : Returned → Place} {outcome : Outcome}
      {after : Kernel} {now : Nat}
      (running : parties.kernel.Running)
      (here : parties.here = .within (.ask call next) back)
      (served : serve now parties.kernel call = .ok (outcome, after)) :
      Moves mutex condvar parties (.call now) { parties.go (.within (next outcome) back) with kernel := after }
  | foreign {event : Event} {after : Kernel} (taken : machine.step parties.kernel event after)
      (besides : Foreign mutex condvar parties event) :
      Moves mutex condvar parties (.foreign event) { parties with kernel := after }

/-- The protocol starts in any reachable state in which the mutex and the condition
variable were created and nobody waits yet. -/
def protocol (mutex condvar : Nat) : System Parties Move where
  initial parties := machine.Reachable parties.kernel ∧ parties.kernel.mutexes.get mutex ≠ none ∧
    parties.kernel.condvars condvar ≠ none ∧ parties.kernel.waiting .condvar condvar = ∅ ∧
    parties.predicate = false ∧ ∀ pid, parties.places pid = .away
  step := Moves mutex condvar

/-- The predicate is true, all signals have been given, and somebody waits. -/
structure LostWakeup (condvar : Nat) (parties : Parties) : Prop where
  isTrue : parties.predicate = true
  signalled : ∀ pid, ¬ (parties.places pid).WillCall (Signals condvar)
  blocked : (parties.kernel.waiting .condvar condvar).Nonempty

/-- A signal with which the wake-up is delivered: another one is going to follow; or nobody
is on the way to waiting, and all waiters are counted and fit the amount. -/
def Delivers (condvar : Nat) (parties : Parties) : Move → Prop
  | .call _ => ∀ amount next back, parties.here = .within (.ask (.signalCondvar condvar amount) next) back →
    (∃ pid, pid ≠ parties.kernel.current ∧ (parties.places pid).WillCall (Signals condvar)) ∨
    ((∀ pid, ¬ (parties.places pid).MayCall (WaitsFor condvar)) ∧ (parties.kernel.waiting .condvar condvar = ∅ ∨
        ((parties.kernel.waiting .condvar condvar).card ≤ amount.val ∧
          ∃ waitCount, parties.kernel.condvars condvar = some waitCount ∧ waitCount ≠ 0)))
  | _ => True

variable {kernel : Kernel} {condvar mutex : Nat}

section

variable {after : Kernel}

/-- Nothing but a wait adds a waiter. -/
theorem waiting_subset {event : Event} (taken : machine.step kernel event after)
    (other : ∀ call now, event = .syscall call now → ¬ WaitsFor condvar call) :
    after.waiting .condvar condvar ⊆ kernel.waiting .condvar condvar := by
  by_cases concerned : event.Concerns .condvar
  · obtain ⟨call, now, rfl, about⟩ := condvar_concerns concerned
    obtain ⟨running, outcome, handled, answered, kept⟩ := syscall_keeps .condvar taken (by decide)
    rw [kept.waiting]
    cases call with
    | createCondvar =>
      rcases createCondvar_cases answered with ⟨_, rfl⟩ | ⟨_, rfl⟩ <;> exact Finset.Subset.refl _
    | destroyCondvar destroyed =>
      rcases destroyCondvar_cases answered with ⟨_, rfl⟩ | ⟨_, rfl⟩ <;> exact Finset.Subset.refl _
    | signalCondvar signalled amount =>
      rcases signalCondvar_cases answered with ⟨_, same⟩ | ⟨waitCount, _, _, woken⟩
      · rw [same]
      · rw [woken, waiting_wake]
        exact sdiff_subset
    | waitCondvar waited =>
      have different : condvar ≠ waited := fun same => other _ _ rfl same.symm
      rcases waitCondvar_cases answered with rfl | ⟨waitCount, _, rfl⟩
      · exact Finset.Subset.refl _
      · apply Eq.subset
        exact waiting_sleep_elsewhere running different
    | _ => exact absurd about (by simp [SystemCall.Concerns])
  · rw [(keeps_step taken concerned).waiting]

variable {now : Nat}
  {outcome : Outcome}

/-- A signal that fits the amount leaves no waiter. -/
theorem signal_empties {amount : Fin (2 ^ 64)}
    (taken : machine.step kernel (.syscall (.signalCondvar condvar amount) now) after)
    (fits : (kernel.waiting .condvar condvar).card ≤ amount.val) {waitCount : Nat}
    (stored : kernel.condvars condvar = some waitCount) (counted : waitCount ≠ 0) :
    after.waiting .condvar condvar = ∅ := by
  obtain ⟨_, outcome, handled, answered, kept⟩ := syscall_keeps .condvar taken (by decide)
  rw [kept.waiting, ← card_eq_zero]
  rcases signalCondvar_cases answered with ⟨missing | unawaited, _⟩ | ⟨found, _, _, woken⟩
  · exact absurd (stored.symm.trans missing) (by simp)
  · exact absurd (Option.some.inj (stored.symm.trans unawaited)) counted
  · rw [woken, card_signalled, woken_length]
    split <;> omega

end

section

variable {wanted : SystemCall → Prop}

/-- What may come after an answer may have come before it. -/
theorem Place.MayCall.before (later : Place.MayCall wanted (.within (next outcome) back)) :
    Place.MayCall wanted (.within (.ask call next) back) := by
  cases later with
  | inside asks => exact .inside (.later outcome asks)
  | behind returned calls => exact .behind returned calls

/-- A function that makes one other call and returns. -/
theorem ask_mayCall {answer : Outcome → Returned} (other : ¬ wanted call)
    (quiet : ∀ returned, ¬ (back returned).MayCall wanted) :
    ¬ Place.MayCall wanted (.within (.ask call (fun outcome => .done (answer outcome))) back) := by
  rintro (asks | ⟨returned, calls⟩)
  · rcases asks with here | ⟨_, there⟩
    · exact other here
    · exact nomatch there
  · exact quiet returned calls

/-- Nobody who joins is on the way to waiting. -/
theorem join_mayCall (created : mutex ≠ 0)
    (role : place = waiterStarts mutex ∨ ∃ notification, place = signallerStarts mutex notification) :
    ¬ place.MayCall (WaitsFor condvar) := by
  rcases role with rfl | ⟨notification, rfl⟩
  · rw [waiterStarts, lock_created created]
    refine ask_mayCall not_false (fun returned => ?_)
    rw [thenTests]
    split <;> exact nofun
  · rw [signallerStarts, lock_created created]
    refine ask_mayCall not_false (fun returned => ?_)
    split <;> exact nofun

/-- Whoever has made the predicate true is going to signal. -/
theorem tells_willCall (created : condvar ≠ 0) (notification : Notification) :
    (signallerTells mutex condvar notification).WillCall (Signals condvar) := by
  have told : ∀ back, Place.WillCall (Signals condvar) (.within (notification.function condvar) back) := by
    intro back
    rw [Notification.function]
    split
    · rw [pthreadCondBroadcast, notify_created 0 created]
      exact .now rfl
    · rw [pthreadCondSignal, notify_created 1 created]
      exact .now rfl
  rw [signallerTells]
  split
  · exact told _
  · exact .later (fun _ => .behind (told _))

end

/-- Nobody is on the way to waiting. -/
abbrev Parties.Still (condvar : Nat) (parties : Parties) : Prop :=
  ∀ pid, ¬ (parties.places pid).MayCall (WaitsFor condvar)

/-- Once the predicate is true, somebody is going to signal, or nobody waits or is on the
way to waiting. -/
structure Kept (condvar : Nat) (parties : Parties) : Prop where
  settled : Settled parties.kernel
  told : parties.predicate = true → (∃ pid, (parties.places pid).WillCall (Signals condvar)) ∨
    (parties.kernel.waiting .condvar condvar = ∅ ∧ parties.Still condvar)

section

variable {parties : Parties}

theorem exists_go (place : Place) : (∃ pid, ((parties.go place).places pid).WillCall (Signals condvar)) ↔
    place.WillCall (Signals condvar) ∨ ∃ pid ≠ parties.kernel.current, (parties.places pid).WillCall (Signals condvar) :=
  exists_update_iff parties.places (fun _ place => place.WillCall (Signals condvar))

/-- Nobody is on the way to waiting when whoever moves is not. -/
theorem mayCall_go (moved : ¬ place.MayCall (WaitsFor condvar)) (quiet : parties.Still condvar) :
    (parties.go place).Still condvar :=
  (forall_update_iff parties.places (fun _ place => ¬ place.MayCall (WaitsFor condvar))).mpr
    ⟨moved, fun pid _ => quiet pid⟩

/-- A move inside a process that changes nothing of the kernel. -/
theorem kept_go (kept : Kept condvar parties)
    (will : parties.here.WillCall (Signals condvar) → place.WillCall (Signals condvar))
    (may : parties.predicate = true → parties.Still condvar → ¬ place.MayCall (WaitsFor condvar)) : Kept condvar (parties.go place) := by
  refine ⟨kept.settled, ?_⟩
  intro isTrue
  rcases kept.told isTrue with ⟨pid, told⟩ | ⟨empty, quiet⟩
  · refine .inl ((exists_go place).mpr ?_)
    by_cases here : pid = parties.kernel.current
    · subst here
      exact .inl (will told)
    · exact .inr ⟨pid, here, told⟩
  · exact .inr ⟨empty, mayCall_go (may isTrue quiet) quiet⟩

/-- A system call of the protocol. The one that signals delivers the wake-up. -/
theorem kept_call (kept : Kept condvar parties) {after : Kernel} (here : parties.here = .within (.ask call next) back)
    (taken : machine.step parties.kernel (.syscall call now) after) (delivers : Delivers condvar parties (.call now)) :
    Kept condvar { parties.go (.within (next outcome) back) with kernel := after } := by
  refine ⟨(step_lives kept.settled taken).1, ?_⟩
  intro isTrue
  have own (quiet : parties.Still condvar) : ¬ parties.here.MayCall (WaitsFor condvar) := quiet _
  rw [here] at own
  -- With nobody on the way to waiting, this call is no wait either.
  have calm (empty : parties.kernel.waiting .condvar condvar = ∅) (quiet : parties.Still condvar) :
      after.waiting .condvar condvar = ∅ := by
    apply subset_empty.mp
    rw [← empty]
    apply waiting_subset taken
    rintro asked later same waits
    have asked : asked = call := by simp_all
    exact own quiet (.inside (.now (asked ▸ waits)))
  have still (quiet : parties.Still condvar) : (parties.go (.within (next outcome) back)).Still condvar :=
    mayCall_go (fun later => own quiet later.before) quiet
  rcases kept.told isTrue with ⟨pid, will⟩ | ⟨empty, quiet⟩
  · by_cases moves : pid = parties.kernel.current
    · subst moves
      change parties.here.WillCall _ at will
      rw [here] at will
      cases will with
      | now signals =>
        cases call with
        | signalCondvar signalled amount =>
          have same : signalled = condvar := signals
          subst same
          rcases delivers amount next back here with follows | ⟨quiet, none | ⟨fits, counted⟩⟩
          · exact .inl ((exists_go _).mpr (.inr follows))
          · exact .inr ⟨calm none quiet, still quiet⟩
          · obtain ⟨waitCount, stored, nonzero⟩ := counted
            exact .inr ⟨signal_empties taken fits stored nonzero, still quiet⟩
        | _ => exact signals.elim
      | later there => exact .inl ((exists_go _).mpr (.inl (there outcome)))
    · exact .inl ((exists_go _).mpr (.inr ⟨pid, moves, will⟩))
  · exact .inr ⟨calm empty quiet, still quiet⟩

/-- Every move keeps the invariant if signals deliver. -/
theorem kept_move (mutexCreated : mutex ≠ 0) (condvarCreated : condvar ≠ 0) {move : Move} {after : Parties}
    (kept : Kept condvar parties) (moved : Moves mutex condvar parties move after)
    (delivers : Delivers condvar parties move) : Kept condvar after := by
  cases moved with
  | join running here role =>
    apply kept_go kept
    · intro will
      rw [here] at will
      exact nomatch will
    · exact fun _ _ => join_mayCall mutexCreated role
  | test running here =>
    apply kept_go kept
    · intro will
      rw [here] at will
      exact nomatch will
    · intro isTrue _
      rw [if_pos isTrue]
      exact ask_mayCall not_false (fun _ => nofun)
  | set running here =>
    exact ⟨kept.settled, fun _ => .inl ((exists_go _).mpr (.inl (tells_willCall condvarCreated _)))⟩
  | @back returned back running here =>
    apply kept_go kept
    · intro will
      rw [here] at will
      cases will with
      | behind there => exact there
    · intro _ quiet may
      apply quiet parties.kernel.current
      rw [show parties.places parties.kernel.current = .within (.done returned) back from here]
      exact .behind returned may
  | @call call next back outcome after now running here served =>
    exact kept_call kept here ⟨running, outcome, served⟩ delivers
  | @foreign event after taken besides =>
    refine ⟨(step_lives kept.settled taken).1, ?_⟩
    intro isTrue
    rcases kept.told isTrue with told | ⟨empty, quiet⟩
    · exact .inl told
    · refine .inr ⟨?_, quiet⟩
      apply subset_empty.mp
      rw [← empty]
      apply waiting_subset taken
      rintro call now rfl waits
      cases call with
      | waitCondvar waited => exact besides waits
      | _ => exact waits

theorem kept_reachable (mutexCreated : mutex ≠ 0) (condvarCreated : condvar ≠ 0)
    (reachable : ((protocol mutex condvar).under (Delivers condvar)).Reachable parties) : Kept condvar parties := by
  apply reachable.invariant
  · rintro start ⟨reached, _, _, _, unset, _⟩
    refine ⟨(reachable_lives reached).1, ?_⟩
    intro isTrue
    rw [unset] at isTrue
    exact absurd isTrue (by decide)
  · rintro state move after kept ⟨delivers, moved⟩
    exact kept_move mutexCreated condvarCreated kept moved delivers

end

/-- In every run of the protocol whose signals deliver, no wake-up is lost. -/
theorem no_wakeup_lost {mutex condvar : Nat} {parties : Parties} (mutexCreated : mutex ≠ 0)
    (condvarCreated : condvar ≠ 0) (reachable : ((protocol mutex condvar).under (Delivers condvar)).Reachable parties) :
    ¬ LostWakeup condvar parties := by
  intro lost
  have kept := kept_reachable mutexCreated condvarCreated reachable
  rcases kept.told lost.isTrue with ⟨pid, will⟩ | ⟨empty, _⟩
  · exact lost.signalled pid will
  · have blocked := lost.blocked
    rw [empty] at blocked
    exact absurd blocked Finset.not_nonempty_empty

section

variable {handled : Kernel}

theorem serve_goes_on (answered : scHandle kernel call = .ok (outcome, handled))
    (running : handled.Running) (now : Nat) :
    serve now kernel call = .ok (outcome, handled) := by
  simp only [serve, step, answered, bind, Except.bind, goes_on running]

/-- Locking a free mutex. -/
theorem lock_free {holder : Nat} (stored : kernel.mutexes.get mutex = some ⟨0, holder⟩) (trylock : Bool) :
    scHandle kernel (.lockMutex mutex trylock) = .ok (⟨some 0, none⟩,
    { kernel with mutexes := kernel.mutexes.set mutex ⟨1, kernel.current⟩ }) := by
  have one : Words.i32 1 = 1 := by decide
  simp [scHandle, scHandleLockingLockMutex, stored, mutexLock, one, bind, Except.bind]

/-- Unlocking a mutex nobody waits for. -/
theorem unlock_unawaited (stored : kernel.mutexes.get mutex = some ⟨1, kernel.current⟩)
    (awake : ∀ pid, (kernel.processes pid).state ≠ .waiting) :
    scHandle kernel (.unlockMutex mutex) = .ok (⟨some 0, none⟩,
    { kernel with mutexes := kernel.mutexes.set mutex ⟨0, kernel.current⟩ }) := by
  have nobody : (scan kernel.current).find? (kernel.waits .mutex mutex) = none := by
    rw [List.find?_eq_none]
    intro pid _ waits
    exact awake pid (waits_iff.mp waits).1
  have zero : Words.i32 (1 - 1) = 0 := by decide
  have unlocked : kernel.unlocked mutex ⟨1, kernel.current⟩ =
      { kernel with mutexes := kernel.mutexes.set mutex ⟨0, kernel.current⟩ } := by
    simp only [Kernel.unlocked, zero, if_true, nobody, Option.elim_none]
  simp only [scHandle, scHandleLockingUnlockMutex, stored, one_ne_zero, if_false, ne_eq, not_true_eq_false,
    mutexUnlock_eq stored one_ne_zero rfl, bind, Except.bind, unlocked]

end

/-- The first task has made a mutex as well. -/
def bothMade : Kernel :=
  { condvarMade with mutexes := condvarMade.mutexes.set 1 ⟨0, 0⟩, nextMutex := 2 }

theorem bothMade_reachable : machine.Reachable bothMade := by
  have made : scHandle condvarMade .createMutex = .ok (⟨some 0, some 1⟩, bothMade) := rfl
  have taken := step_syscall rfl made 0
  exact reachable_step (reachable_of_under condvarMade_reachable) taken

/-- The first task tests under the mutex and unlocks it. -/
def firstLocked : Kernel := { bothMade with mutexes := bothMade.mutexes.set 1 ⟨1, 0⟩ }
def firstUnlocked : Kernel := { firstLocked with mutexes := firstLocked.mutexes.set 1 ⟨0, 0⟩ }

/-- The second task runs before the first one waits, and locks and unlocks as well. -/
def secondRuns : Kernel := (preempt firstUnlocked).run 1
def secondLocked : Kernel := { secondRuns with mutexes := secondRuns.mutexes.set 1 ⟨1, 1⟩ }
def secondUnlocked : Kernel := { secondLocked with mutexes := secondLocked.mutexes.set 1 ⟨0, 1⟩ }

/-- The first task goes on and waits. -/
def firstResumes : Kernel := (preempt secondUnlocked).run 0
def firstBlocked : Kernel :=
  (preempt ({ firstResumes with condvars := update firstResumes.condvars 1 (some 1) }.sleep .condvar 1)).run 1

theorem firstLocked_awake (pid : Nat) : (firstLocked.processes pid).state ≠ .waiting := by
  match pid with
  | 0 => decide
  | 1 => decide
  | pid + 2 => exact nofun

theorem secondLocked_awake (pid : Nat) : (secondLocked.processes pid).state ≠ .waiting := by
  match pid with
  | 0 => decide
  | 1 => decide
  | pid + 2 => exact nofun

theorem secondRuns_step : machine.step firstUnlocked (.interrupt [] 0) secondRuns := by
  have usable : firstUnlocked.CurrentUsable := fun away => absurd away (by decide)
  have chosen : scheduleNext 0 firstUnlocked = secondRuns :=
    scheduleNext_chosen usable (chosen_next (by decide) (by decide))
  rw [← chosen]
  exact step_interrupt firstUnlocked 0

theorem firstResumes_step : machine.step secondUnlocked (.interrupt [] 0) firstResumes := by
  have usable : secondUnlocked.CurrentUsable := fun away => absurd away (by decide)
  have first : Chosen secondUnlocked 0 0 := by
    refine ⟨by decide, 4095, by decide, by decide, by decide, ?_⟩
    intro closer positive less
    obtain ⟨slot, rfl⟩ : ∃ slot, closer = slot + 1 := ⟨closer - 1, by omega⟩
    have position : (secondUnlocked.lastScheduled + (slot + 1)) % maxProcs = slot + 2 := by
      rw [show secondUnlocked.lastScheduled = 1 from rfl, maxProcs]
      omega
    rw [position]
    apply decide_eq_false
    rintro (⟨⟨⟩⟩ | ⟨⟨⟩, _⟩ | ⟨⟨⟩, _⟩)
  have chosen : scheduleNext 0 secondUnlocked = firstResumes := scheduleNext_chosen usable first
  rw [← chosen]
  exact step_interrupt secondUnlocked 0

theorem firstBlocked_served : serve 0 firstResumes (.waitCondvar 1) = .ok (⟨some 0, none⟩, firstBlocked) :=
  wait_gives_way (show firstResumes.condvars 1 = some 0 from rfl) rfl (by decide) (by decide) rfl 0

/-- The parties before anybody has joined. -/
def quietParties : Parties := ⟨bothMade, false, fun _ => .away⟩

theorem quietParties_initial : (protocol 1 1).initial quietParties :=
  ⟨bothMade_reachable, by decide, by decide, condvarMade_unawaited, rfl, fun _ => rfl⟩

/-- The waiter is blocked, the predicate is true, and the signaller is done. -/
def racedParties : Parties where
  kernel := firstBlocked
  predicate := true
  places
    | 0 => .within (.ask (.lockMutex 1 false) (fun outcome => .done ⟨outcome.error, some 1⟩)) thenTests
    | _ => .away

theorem racedParties_lost : LostWakeup 1 racedParties where
  isTrue := rfl
  signalled pid := by
    match pid with
    | 0 =>
      intro will
      cases will with
      | now signals => exact signals
      | later there =>
        -- Whatever locking returns, the waiter tests again or gives up.
        have returns := there ⟨none, none⟩
        cases returns with
        | behind tests => exact nomatch tests
    | pid + 1 => exact nofun
  blocked := ⟨0, mem_waiting.mpr ⟨by decide, by decide⟩⟩

/-- The first task waits before the second one runs, and the second one locks. -/
def firstWaits : Kernel :=
  (preempt ({ firstUnlocked with condvars := update firstUnlocked.condvars 1 (some 1) }.sleep .condvar 1)).run 1
def secondHolds : Kernel := { firstWaits with mutexes := firstWaits.mutexes.set 1 ⟨1, 1⟩ }

theorem firstWaits_served : serve 0 firstUnlocked (.waitCondvar 1) = .ok (⟨some 0, none⟩, firstWaits) :=
  wait_gives_way (show firstUnlocked.condvars 1 = some 0 from rfl) rfl (by decide) (by decide) rfl 0

theorem secondHolds_waiting : secondHolds.waiting .condvar 1 = {0} := by
  ext pid
  rw [mem_waiting, mem_singleton]
  match pid with
  | 0 => exact ⟨fun _ => rfl, fun _ => ⟨by decide, by decide⟩⟩
  | 1 => exact ⟨fun waits => absurd waits.2 (by decide), nofun⟩
  | pid + 2 => exact ⟨fun waits => absurd (waits_iff.mp waits.2).1 nofun, nofun⟩

/-- A signal that fits all waiters, with nobody on the way to waiting. -/
theorem delivers_fitting {parties : Parties} {condvar waitCount : Nat} {amount : Fin (2 ^ 64)}
    (here : parties.here = .within (.ask (.signalCondvar condvar amount) next) back)
    (quiet : parties.Still condvar)
    (fits : (parties.kernel.waiting .condvar condvar).card ≤ amount.val)
    (stored : parties.kernel.condvars condvar = some waitCount) (counted : waitCount ≠ 0) :
    Delivers condvar parties (.call now) := by
  intro signalled _ _ same
  rw [here] at same
  injection same with asks
  injection asks with call
  injection call with _ amounts
  subst amounts
  exact .inr ⟨quiet, .inr ⟨fits, waitCount, stored, counted⟩⟩

/-- The waiter has called `wait_condvar`, and the signaller is about to signal. -/
def toldPlaces : Nat → Place
  | 0 => .within (.ask (.lockMutex 1 false) (fun outcome => .done ⟨outcome.error, some 1⟩)) thenTests
  | 1 => signallerTells 1 1 ⟨false, true⟩
  | _ => .away

theorem toldPlaces_quiet (pid : Nat) : ¬ (toldPlaces pid).MayCall (WaitsFor 1) := by
  match pid with
  | 0 => exact join_mayCall one_ne_zero (.inl rfl)
  | 1 => exact ask_mayCall not_false (fun _ => ask_mayCall not_false (fun _ => nofun))
  | pid + 2 => exact nofun

/-- A single waiter that waits already gets a signal. -/
theorem no_wakeup_lost_single_waiter : ∃ parties, parties.predicate = true ∧
    ((protocol 1 1).under (Delivers 1)).Reachable parties ∧ ¬ LostWakeup 1 parties := by
  have start : ((protocol 1 1).under (Delivers 1)).Reachable quietParties := reachable_initial quietParties_initial
  have joined := reachable_under_step start (.join rfl rfl (.inl rfl)) trivial
  have locked := reachable_under_step joined
    (.call rfl rfl (serve_goes_on (lock_free rfl false) rfl 0)) (fun _ _ _ other => nomatch other)
  have returned := reachable_under_step locked (.back rfl rfl) trivial
  have tested := reachable_under_step returned (.test rfl rfl) trivial
  have unlocked := reachable_under_step tested
    (.call rfl rfl (serve_goes_on (unlock_unawaited rfl firstLocked_awake) rfl 0)) (fun _ _ _ other => nomatch other)
  have waited := reachable_under_step unlocked (.call rfl rfl firstWaits_served) (fun _ _ _ other => nomatch other)
  have signalling := reachable_under_step waited (.join rfl rfl (.inr ⟨⟨false, true⟩, rfl⟩)) trivial
  have holding := reachable_under_step signalling
    (.call rfl rfl (serve_goes_on (lock_free rfl false) rfl 0)) (fun _ _ _ other => nomatch other)
  have held := reachable_under_step holding (.back rfl rfl) trivial
  have set := reachable_under_step held (.set rfl rfl) trivial
  have stored : secondHolds.condvars 1 = some 1 := rfl
  obtain ⟨outcome, woken, answered, _⟩ := signalled_iff 1 stored one_ne_zero
  have served : serve 0 secondHolds (.signalCondvar 1 1) = .ok (outcome, scheduleNextIfNeeded 0 woken) := by
    simp only [serve, step, scHandle, answered, bind, Except.bind]
  have fits : (secondHolds.waiting .condvar 1).card ≤ (1 : Fin (2 ^ 64)).val := by
    rw [secondHolds_waiting]
    decide
  have signalled := reachable_under_step set (.call rfl rfl served) (by
    refine delivers_fitting rfl ?_ ?_ ?_ one_ne_zero
    · intro pid
      rcases pid with _ | _ | pid
      · exact toldPlaces_quiet 0
      · exact toldPlaces_quiet 1
      · exact toldPlaces_quiet (pid + 2)
    · exact fits
    · exact stored)
  exact ⟨_, rfl, signalled, no_wakeup_lost one_ne_zero one_ne_zero signalled⟩

/-- A signal that falls between the two system calls of the waiter is lost. -/
theorem signal_before_wait_is_lost : ∃ parties, (protocol 1 1).Reachable parties ∧ LostWakeup 1 parties := by
  -- The waiter locks, finds the predicate false and unlocks inside `pthread_cond_wait`.
  have joined := reachable_step (reachable_initial quietParties_initial) (.join rfl rfl (.inl rfl))
  have locked := reachable_step joined (.call rfl rfl (serve_goes_on (lock_free rfl false) rfl 0))
  have returned := reachable_step locked (.back rfl rfl)
  have tested := reachable_step returned (.test rfl rfl)
  have unlocked := reachable_step tested (.call rfl rfl (serve_goes_on (unlock_unawaited rfl firstLocked_awake) rfl 0))
  -- The signaller sets the predicate and signals while nobody waits.
  have switched := reachable_step unlocked (.foreign secondRuns_step trivial)
  have signalling := reachable_step switched (.join rfl rfl (.inr ⟨⟨false, true⟩, rfl⟩))
  have holding := reachable_step signalling (.call rfl rfl (serve_goes_on (lock_free rfl false) rfl 0))
  have held := reachable_step holding (.back rfl rfl)
  have set := reachable_step held (.set rfl rfl)
  have dropped : scHandle secondLocked (.signalCondvar 1 1) = .ok (⟨none, none⟩, secondLocked) := rfl
  have signalled := reachable_step set (.call rfl rfl (serve_goes_on dropped rfl 0))
  have told := reachable_step signalled (.back rfl rfl)
  have releasing := reachable_step told (.call rfl rfl (serve_goes_on (unlock_unawaited rfl secondLocked_awake) rfl 0))
  have released := reachable_step releasing (.back rfl rfl)
  -- The waiter goes on and starts to wait.
  have resumed := reachable_step released (.foreign firstResumes_step trivial)
  have waited := reachable_step resumed (.call rfl rfl firstBlocked_served)
  refine ⟨_, waited, rfl, ?_, racedParties_lost.blocked⟩
  intro pid
  match pid with
  | 0 => exact racedParties_lost.signalled 0
  | 1 => exact racedParties_lost.signalled 1
  | pid + 2 => exact racedParties_lost.signalled (pid + 2)

end Lfos.Processes
