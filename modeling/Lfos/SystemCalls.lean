import Lfos.Processes
import Lfos.Transitions

/-!
# System calls, interrupts and scheduling

The kernel is entered by an interrupt, by an exception of the running process or by
a system call it makes. A handler works on the shared state, and then the next
process is chosen: always after an interrupt, and otherwise if the current one can
not go on. Whoever is to run is put in state `running` and made the current process;
when nobody can run, the processor idles without a current process.

What the caller reads from the clock is an argument of the event, as are the queues
registered for an interrupt or under a service. A return value that a handler leaves
unset is `none`. Memory, ports, the saved registers and the system calls that
concern only them are left out.
-/

namespace Lfos.Processes

open Words Transitions Function

open Lfos.MessageQueues (enoent enomem enomsg emsgsize messageHeaderSize)

/-- The first slot that was never used. -/
def freePid (kernel : Kernel) : Option Nat :=
  (List.range maxProcs).find? (fun pid => decide ((kernel.processes pid).state = .empty))

/-- Change the data of a process, except its state. -/
def Kernel.amend (kernel : Kernel) (pid : Nat) (change : Process → Process) : Kernel :=
  { kernel with processes := update kernel.processes pid (change (kernel.processes pid)) }

/-- Make a slot a runnable process with a queue of its own. -/
def setupProcess (kernel : Kernel) : Except Panic (Nat × Kernel) :=
  match freePid kernel with
  | none => .error .outOfPids
  | some pid => do
    let (mq, created) ← mqCreate (kernel.setState pid .runnable)
    .ok (pid, created.amend pid (fun process => { process with mq := mq }))

/-- Start a process without a parent. -/
def startTask (kernel : Kernel) (entry : Nat) : Except Panic (Nat × Kernel) :=
  if entry = 0 then .error .noEntry
  else do
    let (pid, started) ← setupProcess kernel
    .ok (pid, started.amend pid (fun process => { process with parent := invalidPid }))

/-- The sizes of the messages that tell of a dead child and of an interrupt. -/
def signalMessageSize : Nat := messageHeaderSize + 2
def interruptMessageSize : Nat := messageHeaderSize + 2

/-- Tell the parent, if it is alive. -/
def notifyParent (kernel : Kernel) (pid : Nat) : Except Panic Kernel :=
  let parent := kernel.processes (kernel.processes pid).parent
  if parent.state ≠ .empty ∧ parent.state ≠ .exited ∧ parent.state ≠ .killed then
    (mqPush kernel parent.mq signalMessageSize).map Prod.snd
  else .ok kernel

def schedulerProcessCleanup (kernel : Kernel) (pid : Nat) : Except Panic Kernel := do
  let unlocked ← mutexUnlockHolder kernel pid
  let notified ← notifyParent unlocked pid
  .ok (mqDestroy notified (notified.processes pid).mq)

/-- The current process ends in a final state. -/
def finish (kernel : Kernel) (state : ProcessState) (code : Nat) : Except Panic Kernel :=
  schedulerProcessCleanup ((kernel.setState kernel.current state).amend kernel.current
      (fun process => { process with exitCode := code })) kernel.current

def schedulerKillCurrent (kernel : Kernel) (reason : Nat) : Except Panic Kernel :=
  finish kernel .killed reason

def scHandleSchedulerExit (kernel : Kernel) (exitCode : Nat) : Except Panic Kernel :=
  finish kernel .exited exitCode

/-- Start a copy of the current process. -/
def scHandleSchedulerClone (kernel : Kernel) : Except Panic (Nat × Kernel) := do
  let (pid, started) ← setupProcess kernel
  .ok (pid, started.amend pid (fun process => { process with parent := kernel.current }))

/-- Sleep until a time; no nanoseconds are a deadline that has passed already. -/
def scHandleSchedulerSleep (kernel : Kernel) (nanoseconds clock : Nat) : Kernel :=
  schedulerWaitFor kernel kernel.current .time (if nanoseconds ≠ 0 then u64 (clock + nanoseconds) else 0)

/-- A preempted process can be chosen again. -/
def preempt (kernel : Kernel) : Kernel :=
  if (kernel.processes kernel.current).state = .running then kernel.setState kernel.current .runnable
  else kernel

/-- Wake a process whose deadline has passed. The clock is read for the first
deadline that is not zero. -/
def wakeSleeper (now : Nat) (kernel : Kernel) (timestamp pid : Nat) : Kernel × Nat :=
  let process := kernel.processes pid
  if process.state = .waiting ∧ process.waitingFor = .time then
    let timestamp := if process.waitingData ≠ 0 ∧ timestamp = 0 then now else timestamp
    (if process.waitingData ≤ timestamp then kernel.setState pid .runnable else kernel, timestamp)
  else (kernel, timestamp)

/-- The first process of a scan that can run becomes the current one. -/
def selectFrom (now : Nat) : List Nat → Kernel → Nat → Kernel
  | [], kernel, _ => kernel
  | pid :: rest, kernel, timestamp =>
    let visited := wakeSleeper now kernel timestamp pid
    if (visited.1.processes pid).state = .runnable then { visited.1 with current := pid }
    else selectFrom now rest visited.1 visited.2

/-- Whether the current process can not go on. -/
def stuck (kernel : Kernel) : Bool :=
  decide ((kernel.processes kernel.current).state ≠ .runnable ∧ (kernel.processes kernel.current).state ≠ .running)

/-- Idle if nobody was found, otherwise let the current process run. -/
def dispatch (kernel : Kernel) : Kernel :=
  if stuck kernel then { kernel with current := invalidPid }
  else { kernel with lastScheduled := kernel.current }.setState kernel.current .running

def scheduleNext (now : Nat) (kernel : Kernel) : Kernel :=
  dispatch (selectFrom now (scan (kernel.lastScheduled + 1)) (preempt kernel) 0)

def scheduleNextIfNeeded (now : Nat) (kernel : Kernel) : Kernel :=
  if stuck kernel then scheduleNext now kernel else kernel

/-- What a handler stores into its return parameters. -/
structure Outcome where
  error : Option Nat
  value : Option Nat

def scHandleLockingCreateMutex (kernel : Kernel) : Except Panic (Outcome × Kernel) :=
  if kernel.nextMutex = 0 then .ok (⟨some enomem, none⟩, kernel)
  else do
    let (mutex, created) ← mutexCreate kernel
    .ok (⟨some 0, some mutex⟩, created)

def scHandleLockingDestroyMutex (kernel : Kernel) (mutex : Nat) : Except Panic (Outcome × Kernel) :=
  match kernel.mutexes.get mutex with
  | none => .ok (⟨some einval, none⟩, kernel)
  | some data =>
    if data.state ≠ 0 then .ok (⟨some ebusy, none⟩, kernel)
    else do
      let destroyed ← mutexDestroy kernel mutex
      .ok (⟨some 0, none⟩, destroyed)

/-- Report a busy mutex, or wait for it. -/
def awaitMutex (kernel : Kernel) (mutex : Nat) (trylock : Bool) : Outcome × Kernel :=
  if trylock then (⟨some ebusy, none⟩, kernel)
  else (⟨some 0, none⟩, schedulerWaitFor kernel invalidPid .mutex mutex)

def scHandleLockingLockMutex (kernel : Kernel) (mutex : Nat) (trylock : Bool) : Except Panic (Outcome × Kernel) :=
  match kernel.mutexes.get mutex with
  | none => .ok (⟨some einval, none⟩, kernel)
  | some data =>
    if data.state ≠ 0 ∧ data.holder ≠ kernel.current then .ok (awaitMutex kernel mutex trylock)
    else do
      let (locked, after) ← mutexLock kernel mutex kernel.current
      if locked then .ok (⟨some 0, none⟩, after) else .ok (awaitMutex after mutex trylock)

def scHandleLockingUnlockMutex (kernel : Kernel) (mutex : Nat) : Except Panic (Outcome × Kernel) :=
  match kernel.mutexes.get mutex with
  | none => .ok (⟨some einval, none⟩, kernel)
  | some data =>
    if data.state = 0 then .ok (⟨some 0, none⟩, kernel)
    else if data.holder ≠ kernel.current then .ok (⟨some eperm, none⟩, kernel)
    else do
      let (_, unlocked) ← mutexUnlock kernel mutex kernel.current
      .ok (⟨some 0, none⟩, unlocked)

def scHandleLockingCreateCondvar (kernel : Kernel) : Outcome × Kernel :=
  if kernel.nextCondvar = 0 then (⟨some enomem, none⟩, kernel)
  else (⟨some 0, some kernel.nextCondvar⟩, { kernel with
      condvars := update kernel.condvars kernel.nextCondvar (some 0)
      nextCondvar := u64 (kernel.nextCondvar + 1) })

def scHandleLockingDestroyCondvar (kernel : Kernel) (condvar : Nat) : Outcome × Kernel :=
  match kernel.condvars condvar with
  | none => (⟨some einval, none⟩, kernel)
  | some waitCount =>
    if waitCount ≠ 0 then (⟨some ebusy, none⟩, kernel)
    else (⟨some 0, none⟩, { kernel with condvars := update kernel.condvars condvar none })

scoped instance words : NeZero (2 ^ 64) := ⟨by decide⟩

/-- The count is not updated, and without a waiter the error is left unset. -/
def scHandleLockingSignalCondvar (kernel : Kernel) (condvar : Nat) (amount : Fin (2 ^ 64)) :
    Except Panic (Outcome × Kernel) :=
  match kernel.condvars condvar with
  | none => .ok (⟨some einval, none⟩, kernel)
  | some waitCount =>
    if waitCount ≠ 0 then do
      let woken ← schedulerWaitableDone kernel .condvar condvar amount.val
      .ok (⟨some 0, none⟩, woken)
    else .ok (⟨none, none⟩, kernel)

def scHandleLockingWaitCondvar (kernel : Kernel) (condvar : Nat) : Outcome × Kernel :=
  match kernel.condvars condvar with
  | none => (⟨some einval, none⟩, kernel)
  | some waitCount =>
    (⟨some 0, none⟩, schedulerWaitFor
      { kernel with condvars := update kernel.condvars condvar (some (u64 (waitCount + 1))) }
      invalidPid .condvar condvar)

/-- The given queue, or the one of the current process. -/
def Kernel.queueOr (kernel : Kernel) (mq : Nat) : Nat :=
  if mq = 0 then (kernel.processes kernel.current).mq else mq

/-- The error that decides whether the poll goes on to pop: a message that did not fit
a bare header is no error if it fits the caller's buffer. -/
def pollError (kernel : Kernel) (mq room : Nat) : Nat :=
  let peeked := mqPeek kernel mq messageHeaderSize
  if peeked.1 = emsgsize then if room < peeked.2 then emsgsize else 0 else peeked.1

/-- Take a message, or sleep until there is one. -/
def scHandleIpcMqPoll (kernel : Kernel) (mq : Nat) (wait : Bool) (room : Nat) : Outcome × Kernel :=
  let mq := kernel.queueOr mq
  let error := pollError kernel mq room
  if error = enomsg ∧ wait then
    (⟨some eagain, none⟩, schedulerWaitFor kernel kernel.current .message mq)
  else if error ≠ 0 then (⟨some error, none⟩, kernel)
  else
    let popped := mqPop kernel mq room
    (⟨some popped.1, none⟩, popped.2)

/-- The queue a message goes to; zero if there is none. -/
def Kernel.recipient (kernel : Kernel) (mq pid : Nat) : Nat :=
  if mq = 0 then
    if pid ≠ invalidPid then
      if pid < maxProcs ∧ (kernel.processes pid).state ≠ .empty then (kernel.processes pid).mq else 0
    else (kernel.processes kernel.current).mq
  else mq

def scHandleIpcMqSend (kernel : Kernel) (mq pid size : Nat) : Except Panic (Outcome × Kernel) :=
  if kernel.recipient mq pid ≠ 0 then do
    let (error, pushed) ← mqPush kernel (kernel.recipient mq pid) size
    .ok (⟨some error, none⟩, pushed)
  else .ok (⟨none, none⟩, kernel)

/-- Push a message to several queues. -/
def pushAll (kernel : Kernel) (queues : List Nat) (size : Nat) : Except Panic Kernel :=
  queues.foldlM (fun kernel mq => (mqPush kernel mq size).map Prod.snd) kernel

/-- Send to the queues registered under a service, if it is known. -/
def scHandleIpcServiceDiscover (kernel : Kernel) (typed : Bool) (service : Option (List Nat)) (size : Nat) :
    Except Panic (Outcome × Kernel) :=
  if !typed then .ok (⟨some einval, none⟩, kernel)
  else
    match service with
    | none => .ok (⟨some enoent, none⟩, kernel)
    | some queues => do
      let pushed ← pushAll kernel queues size
      .ok (⟨some 0, none⟩, pushed)

inductive SystemCall where
  | exit (exitCode : Nat)
  | clone
  | sleep (nanoseconds clock : Nat)
  | createMutex
  | destroyMutex (mutex : Nat)
  | lockMutex (mutex : Nat) (trylock : Bool)
  | unlockMutex (mutex : Nat)
  | createCondvar
  | destroyCondvar (condvar : Nat)
  | signalCondvar (condvar : Nat) (amount : Fin (2 ^ 64))
  | waitCondvar (condvar : Nat)
  | mqPoll (mq : Nat) (wait : Bool) (room : Nat)
  | mqSend (mq pid size : Nat)
  | serviceDiscover (typed : Bool) (service : Option (List Nat)) (size : Nat)
  /-- A call that does not concern the state here. -/
  | other

def scHandle (kernel : Kernel) : SystemCall → Except Panic (Outcome × Kernel)
  | .exit exitCode => do
    let ended ← scHandleSchedulerExit kernel exitCode
    .ok (⟨none, none⟩, ended)
  | .clone => do
    let (pid, started) ← scHandleSchedulerClone kernel
    .ok (⟨none, some pid⟩, started)
  | .sleep nanoseconds clock => .ok (⟨none, none⟩, scHandleSchedulerSleep kernel nanoseconds clock)
  | .createMutex => scHandleLockingCreateMutex kernel
  | .destroyMutex mutex => scHandleLockingDestroyMutex kernel mutex
  | .lockMutex mutex trylock => scHandleLockingLockMutex kernel mutex trylock
  | .unlockMutex mutex => scHandleLockingUnlockMutex kernel mutex
  | .createCondvar => .ok (scHandleLockingCreateCondvar kernel)
  | .destroyCondvar condvar => .ok (scHandleLockingDestroyCondvar kernel condvar)
  | .signalCondvar condvar amount => scHandleLockingSignalCondvar kernel condvar amount
  | .waitCondvar condvar => .ok (scHandleLockingWaitCondvar kernel condvar)
  | .mqPoll mq wait room => .ok (scHandleIpcMqPoll kernel mq wait room)
  | .mqSend mq pid size => scHandleIpcMqSend kernel mq pid size
  | .serviceDiscover typed service size => scHandleIpcServiceDiscover kernel typed service size
  | .other => .ok (⟨none, none⟩, kernel)

/-- What enters the kernel, with the clock value read while choosing the next process. -/
inductive Event where
  | startTask (entry : Nat)
  | interrupt (queues : List Nat) (now : Nat)
  /-- An exception of the running process. A page fault may be handled by growing the
  stack; otherwise the process is killed. -/
  | exception (reason : Nat) (handled : Bool) (now : Nat)
  | syscall (call : SystemCall) (now : Nat)

/-- Exceptions and system calls come from the process that runs. -/
def Enabled (kernel : Kernel) : Event → Prop
  | .startTask _ => True
  | .interrupt _ _ => True
  | .exception _ _ _ => kernel.Running
  | .syscall _ _ => kernel.Running

/-- A page fault in the stack is handled; anything else kills the process. -/
def handleUserspaceException (kernel : Kernel) (reason : Nat) (handled : Bool) : Except Panic Kernel :=
  if handled then .ok kernel else schedulerKillCurrent kernel reason

def step (kernel : Kernel) : Event → Except Panic (Outcome × Kernel)
  | .startTask entry => do
    let (pid, started) ← startTask kernel entry
    .ok (⟨none, some pid⟩, started)
  | .interrupt queues now => do
    let pushed ← pushAll kernel queues interruptMessageSize
    .ok (⟨none, none⟩, scheduleNext now pushed)
  | .exception reason handled now => do
    let after ← handleUserspaceException kernel reason handled
    .ok (⟨none, none⟩, scheduleNextIfNeeded now after)
  | .syscall call now => do
    let (outcome, after) ← scHandle kernel call
    .ok (outcome, scheduleNextIfNeeded now after)

/-- The kernel as a transition system. A panic is no step. -/
def machine : System Kernel Event where
  initial kernel := kernel = initKernel
  step kernel event after := Enabled kernel event ∧ ∃ outcome, step kernel event = .ok (outcome, after)

end Lfos.Processes
