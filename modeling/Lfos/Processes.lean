import Lfos.CyclicScan
import Lfos.MessageQueues
import Lfos.SparsePages

/-!
# Processes and what they wait for

Processes sleep with a reason and a word of data, and are woken by the module that
owns what they wait for. Waking scans all slots from the current process on; a
mutex is handed over inside that scan. This module holds the state and the
operations on it that system calls and interrupts are made of.

The table of processes is a function, so the slot at `INVALID_PID` is one that is
never used. The tables of condition variables and message queues are partial maps.
The mutex table is kept with its pages, because the order in which the mutexes of a
dead process are visited depends on them. A queue is the list of the sizes of its
messages. Every write to a process's state is recorded in `history`, a variable the
program does not have. A panic ends everything and is an error here.
-/

namespace Lfos.Processes

open Words SparsePages Function

open Lfos.MessageQueues (enoent enomem enomsg emsgsize messageHeaderSize)

def eperm : Nat := 1
def eagain : Nat := 11
def ebusy : Nat := 16
def einval : Nat := 22

def maxProcs : Nat := 4096

def invalidPid : Nat := 2 ^ 64 - 1

inductive ProcessState where
  | empty
  | waiting
  | runnable
  | running
  | exited
  | killed
  deriving DecidableEq

inductive WaitReason where
  | mutex
  | condvar
  | message
  | time
  deriving DecidableEq

/-- A slot of the process table. All members of `union wait_data` are one word. -/
structure Process where
  parent : Nat
  exitCode : Nat
  state : ProcessState
  waitingFor : WaitReason
  waitingData : Nat
  mq : Nat

/-- A slot that was never used. -/
def Process.unused : Process := ⟨0, 0, .empty, .mutex, 0, 0⟩

structure MutexData where
  state : Int
  holder : Nat

/-- Entries of a page of the mutex table: `(4080 - 24) / (16 + 8)`. -/
def mutexesPerPage : Nat := 169

/-- The mutex table, a list of pages without an empty one. -/
structure MutexTable where
  pages : List (Page MutexData)
  paged : Paged mutexesPerPage pages

def MutexTable.empty : MutexTable := ⟨[], ⟨List.Pairwise.nil, by simp, by simp⟩⟩

def MutexTable.get (table : MutexTable) (mutex : Nat) : Option MutexData :=
  lookup mutexesPerPage mutex table.pages

def MutexTable.set (table : MutexTable) (mutex : Nat) (data : MutexData) : MutexTable :=
  ⟨assign mutexesPerPage mutex (some data) table.pages, paged_assign table.paged (some data)⟩

def MutexTable.clear (table : MutexTable) (mutex : Nat) : MutexTable :=
  ⟨assign mutexesPerPage mutex none table.pages, paged_assign table.paged none⟩

theorem MutexTable.get_set (table : MutexTable) (mutex : Nat) (data : MutexData) (other : Nat) :
    (table.set mutex data).get other = update table.get mutex (some data) other :=
  lookup_assign (by decide) table.paged.sorted (some data) other

/-- A write to the state of a process. -/
structure StateChange where
  pid : Nat
  before : ProcessState
  after : ProcessState

structure Kernel where
  processes : Nat → Process
  current : Nat
  lastScheduled : Nat
  mutexes : MutexTable
  nextMutex : Nat
  /-- The `wait_count` of each condition variable. -/
  condvars : Nat → Option Nat
  nextCondvar : Nat
  /-- The sizes of the messages of each queue. -/
  mqs : Nat → Option (List Nat)
  nextMq : Nat
  history : List StateChange

/-- The current process runs. -/
abbrev Kernel.Running (kernel : Kernel) : Prop := (kernel.processes kernel.current).state = .running

/-- The state at boot. -/
def initKernel : Kernel where
  processes _ := .unused
  current := invalidPid
  lastScheduled := invalidPid
  mutexes := .empty
  nextMutex := 1
  condvars _ := none
  nextCondvar := 1
  mqs _ := none
  nextMq := 1
  history := []

inductive Panic where
  /-- Tried to lock non-existing mutex! -/
  | lockMissing
  /-- Tried to unlock stolen mutex -/
  | unlockStolen
  /-- Tried to destroy locked mutex! -/
  | destroyLocked
  /-- Mutex namespace overflow! -/
  | mutexOverflow
  /-- Mutex namespace overflow! (said of message queues) -/
  | queueOverflow
  /-- Out of PIDs! -/
  | outOfPids
  /-- Tried to start process without entry -/
  | noEntry
  /-- The loop over a dead process's mutexes does not end. -/
  | unlockDiverges

/-- Write the state of a process. -/
def Kernel.setState (kernel : Kernel) (pid : Nat) (state : ProcessState) : Kernel :=
  { kernel with
    processes := update kernel.processes pid { kernel.processes pid with state := state }
    history := ⟨pid, (kernel.processes pid).state, state⟩ :: kernel.history }

/-- Put a process to sleep; `INVALID_PID` means the current one. -/
def schedulerWaitFor (kernel : Kernel) (pid : Nat) (reason : WaitReason) (data : Nat) : Kernel :=
  let pid := if pid = invalidPid then kernel.current else pid
  let asleep := kernel.setState pid .waiting
  { asleep with
    processes := update asleep.processes pid
      { asleep.processes pid with waitingFor := reason, waitingData := data } }

/-- Whether a process sleeps for a reason with some data. -/
def Process.waits (process : Process) (reason : WaitReason) (data : Nat) : Bool :=
  decide (process.state = .waiting ∧ process.waitingFor = reason ∧ process.waitingData = data)

def Kernel.waits (kernel : Kernel) (reason : WaitReason) (data pid : Nat) : Bool :=
  (kernel.processes pid).waits reason data

/-- Lock a mutex for a holder, unless another one holds it. -/
def mutexLock (kernel : Kernel) (mutex holder : Nat) : Except Panic (Bool × Kernel) :=
  match kernel.mutexes.get mutex with
  | none => .error .lockMissing
  | some data =>
    if data.state ≠ 0 ∧ data.holder ≠ holder then .ok (false, kernel)
    else .ok (true, { kernel with mutexes := kernel.mutexes.set mutex ⟨i32 (data.state + 1), holder⟩ })

/-- The pids of a scan over all slots, `(start + i) % MAX_PROCS` in 64-bit arithmetic. -/
def scan (start : Nat) : List Nat := (List.range maxProcs).map (fun i => u64 (start + i) % maxProcs)

/-- One slot of the waking scan. The amount counts condition variable waiters only,
and it is decremented also where it is zero. -/
def wakeVisit (reason : WaitReason) (data : Nat) (visited : Kernel × Nat) (pid : Nat) : Except Panic (Kernel × Nat) :=
  if visited.1.waits reason data pid then
    match reason with
    | .mutex => do
      let (locked, kernel) ← mutexLock visited.1 data pid
      if locked then .ok (kernel.setState pid .runnable, visited.2) else .ok (kernel, visited.2)
    | .condvar =>
      if visited.2 ≠ 0 then .ok (visited.1.setState pid .runnable, u64Sub visited.2 1)
      else .ok (visited.1, u64Sub visited.2 1)
    | .message => .ok (visited.1.setState pid .runnable, visited.2)
    | .time => .ok visited
  else .ok visited

/-- Wake processes that wait for a reason with some data. -/
def schedulerWaitableDone (kernel : Kernel) (reason : WaitReason) (data maxAmount : Nat) :
    Except Panic Kernel :=
  ((scan kernel.current).foldlM (wakeVisit reason data) (kernel, maxAmount)).map Prod.fst

def mutexCreate (kernel : Kernel) : Except Panic (Nat × Kernel) :=
  if kernel.nextMutex = 0 then .error .mutexOverflow
  else .ok (kernel.nextMutex, { kernel with
      mutexes := kernel.mutexes.set kernel.nextMutex ⟨0, 0⟩
      nextMutex := u64 (kernel.nextMutex + 1) })

def mutexDestroy (kernel : Kernel) (mutex : Nat) : Except Panic Kernel :=
  match kernel.mutexes.get mutex with
  | none => .ok kernel
  | some data =>
    if data.state ≠ 0 then .error .destroyLocked
    else .ok { kernel with mutexes := kernel.mutexes.clear mutex }

/-- Undo one lock; the last one wakes the waiters. -/
def mutexUnlock (kernel : Kernel) (mutex holder : Nat) : Except Panic (Bool × Kernel) :=
  match kernel.mutexes.get mutex with
  | none => .ok (false, kernel)
  | some data =>
    if data.state = 0 then .ok (false, kernel)
    else if data.holder ≠ holder then .error .unlockStolen
    else
      let unlocked := { kernel with mutexes := kernel.mutexes.set mutex ⟨i32 (data.state - 1), data.holder⟩ }
      if i32 (data.state - 1) = 0 then do
        let woken ← schedulerWaitableDone unlocked .mutex mutex 1
        .ok (true, woken)
      else .ok (true, unlocked)

/-- The first present slot of a page from a slot on. -/
def firstPresent (page : Page MutexData) (slot : Nat) : Option Nat :=
  (List.range' slot (mutexesPerPage - slot)).find? (fun slot => (page.slots slot).isSome)

/-- The first present index from a position in the first page on. -/
def nextIn : List (Page MutexData) → Nat → Nat
  | [], _ => 0
  | page :: rest, cur =>
    match firstPresent page (u64Sub cur page.startIdx) with
    | some slot => u64 (page.startIdx + slot)
    | none =>
      match rest with
      | [] => 0
      | following :: _ => nextIn rest following.startIdx

/-- The index the table calls the next one. -/
def MutexTable.next (table : MutexTable) (cur : Nat) : Nat :=
  nextIn (table.pages.dropWhile (fun page => decide (u64 (page.startIdx + mutexesPerPage) < cur))) cur

/-- Unlock a mutex once if a process holds it. -/
def unlockIfHeld (kernel : Kernel) (mutex pid : Nat) : Except Panic Kernel :=
  match kernel.mutexes.get mutex with
  | none => .ok kernel
  | some data =>
    if data.state ≠ 0 ∧ data.holder = pid then (mutexUnlock kernel mutex pid).map Prod.snd else .ok kernel

/-- Visit mutexes while the index grows. -/
def unlockHolderFrom (pid : Nat) : Nat → Kernel → Nat → Except Panic Kernel
  | 0, _, _ => .error .unlockDiverges
  | fuel + 1, kernel, mutex => do
    let unlocked ← unlockIfHeld kernel mutex pid
    let following := unlocked.mutexes.next mutex
    if mutex < following then unlockHolderFrom pid fuel unlocked following else .ok unlocked

/-- Unlock the mutexes of a dead process, starting at the first number. -/
def mutexUnlockHolder (kernel : Kernel) (pid : Nat) : Except Panic Kernel :=
  unlockHolderFrom pid (kernel.mutexes.pages.length * mutexesPerPage + 2) kernel 1

def mqCreate (kernel : Kernel) : Except Panic (Nat × Kernel) :=
  if kernel.nextMq = 0 then .error .queueOverflow
  else .ok (kernel.nextMq, { kernel with
      mqs := update kernel.mqs kernel.nextMq (some [])
      nextMq := u64 (kernel.nextMq + 1) })

def mqDestroy (kernel : Kernel) (mq : Nat) : Kernel :=
  { kernel with mqs := update kernel.mqs mq none }

/-- Append a message and wake every process that waits for the queue. -/
def mqPush (kernel : Kernel) (mq size : Nat) : Except Panic (Nat × Kernel) :=
  match kernel.mqs mq with
  | none => .ok (enoent, kernel)
  | some queue => do
    let pushed := { kernel with mqs := update kernel.mqs mq (some (queue ++ [size])) }
    let woken ← schedulerWaitableDone pushed .message mq 1
    .ok (0, woken)

/-- Peek with room for a message: the error, and the size field afterwards. -/
def mqPeek (kernel : Kernel) (mq room : Nat) : Nat × Nat :=
  match kernel.mqs mq with
  | none => (enoent, room)
  | some [] => (enomsg, room)
  | some (size :: _) => if size ≤ room then (0, size) else (emsgsize, size)

/-- Peek, and remove the message on success. -/
def mqPop (kernel : Kernel) (mq room : Nat) : Nat × Kernel :=
  if (mqPeek kernel mq room).1 ≠ 0 then ((mqPeek kernel mq room).1, kernel)
  else (0, { kernel with mqs := update kernel.mqs mq ((kernel.mqs mq).map List.tail) })

end Lfos.Processes
