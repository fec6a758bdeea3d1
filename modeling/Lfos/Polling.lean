import Lfos.MessageFifo
import Lfos.Actions

/-!
# Polling a message queue

A poll first peeks with a header of its own, which has no room for user data, to learn the
size of the first message. Only a message that fits the caller's buffer is popped, and an
empty queue can be waited for.

Of the kernel only the processes are used here. The queues are those with the bytes of
their messages. The kernel's own queues, which are lists of sizes, stand for them: creating, pushing,
popping and polling give the same results and leave queues with the same sizes.
-/

namespace Lfos.Polling

open ByteLists MessageQueues Option

open Lfos.Processes (Kernel schedulerWaitFor eagain)

/-- The handler's own message. Behind its size is what the stack held. -/
def peekedMessage (stale : Fin 52 → UInt8) : Buffer where
  bytes := toBytes 8 messageHeaderSize ++ List.ofFn stale
  room := messageHeaderSize
  sized := (readU64_append [] (toBytes 8 messageHeaderSize) _ (by decide)).trans (by decide)
  header := by simp [messageHeaderSize]
  honest := by simp [messageHeaderSize]

/-- The error of the peek: that the message did not fit the handler's own one is no error
if it fits the caller's, who is told the needed size otherwise. -/
def reconsider (error : Nat) (peeked msg : List UInt8) : Option (Nat × List UInt8) :=
  if error = emsgsize then do
    let size ← readU64 peeked 0
    let room ← readU64 msg 0
    if room < size then
      let sized ← overwrite msg 0 (toBytes 8 size)
      let invalid ← overwrite sized typeOffset mtInvalid
      some (emsgsize, invalid)
    else some (0, msg)
  else some (error, msg)

/-- The results of the system call and the kernel behind it. -/
def scHandleIpcMqPoll (kernel : Kernel) (queues : State) (mq : Nat) (wait : Bool) (msg : List UInt8)
    (stale : Fin 52 → UInt8) : Option ((Nat × List UInt8 × State) × Kernel) := do
  let mq := kernel.queueOr mq
  let (error, peeked) ← mqPeek queues mq (peekedMessage stale).bytes
  if error = enomsg ∧ wait then
    some ((eagain, msg, queues), schedulerWaitFor kernel kernel.current .message mq)
  else
    let (error, msg) ← reconsider error peeked msg
    if error ≠ 0 then some ((error, msg, queues), kernel)
    else
      let popped ← mqPop queues mq msg
      some (popped, kernel)

variable {queues : State} {data : MessageQueue} {id error : Nat} {peeked msg : List UInt8}

theorem tooSmall_size {bytes : List UInt8} {position size : Nat} (read : readU64 bytes position = some size)
    (buffer : List UInt8) : readU64 (tooSmall size buffer) 0 = some size := by
  simpa [tooSmall] using readU64_stored read _

/-- What a peek into a header finds: an empty queue, a message that fits, or its size. -/
theorem peek_cases (known : queues.mqs id = some data) (buffer : Buffer)
    (done : mqPeek queues id buffer.bytes = some (error, peeked)) :
    (data.items = 0 ∧ error = enomsg) ∨ (data.items ≠ 0 ∧ error = 0) ∨
    ∃ first size, data.items ≠ 0 ∧ error = emsgsize ∧ queues.heap data.firstPage = some first ∧
    readU64 first.data first.popPosition = some size ∧ readU64 peeked 0 = some size := by
  rw [mqPeek, known] at done
  dsimp only at done
  split at done
  next empty =>
    cases done
    exact .inl ⟨empty, rfl⟩
  next filled =>
    obtain ⟨first, stored, further⟩ := bind_eq_some_iff.mp done
    obtain ⟨size, read, further⟩ := bind_eq_some_iff.mp further
    obtain ⟨room, sized, further⟩ := bind_eq_some_iff.mp further
    split at further
    · obtain ⟨message, _, further⟩ := bind_eq_some_iff.mp further
      obtain ⟨copied, _, returned⟩ := bind_eq_some_iff.mp further
      cases returned
      exact .inr (.inl ⟨filled, rfl⟩)
    · obtain ⟨_, first, second⟩ := store_too_small size buffer
      simp only [first, second, bind_eq_bind, bind_some] at further
      obtain ⟨rfl, rfl⟩ := further
      exact .inr (.inr ⟨_, size, filled, rfl, stored, read, tooSmall_size read _⟩)

/-- Popping with too small a buffer tells the needed size. -/
theorem pop_too_small {first : MessageQueuePage} {size room : Nat} {sized invalid : List UInt8}
    (known : queues.mqs id = some data) (filled : data.items ≠ 0) (stored : queues.heap data.firstPage = some first)
    (read : readU64 first.data first.popPosition = some size) (limit : readU64 msg 0 = some room) (small : room < size)
    (named : overwrite msg 0 (toBytes 8 size) = some sized) (marked : overwrite sized typeOffset mtInvalid = some invalid) :
    mqPop queues id msg = some (emsgsize, invalid, queues) := by
  simp [mqPop, mqPeek, known, filled, stored, read, limit, not_le.mpr small, named, marked, emsgsize]

/-- Popping changes the queues only if it returns no error. -/
theorem pop_failed {result : Nat × List UInt8 × State} (popped : mqPop queues id msg = some result)
    (failed : result.1 ≠ 0) : result.2.2 = queues := by
  obtain ⟨⟨found, copy⟩, _, further⟩ := bind_eq_some_iff.mp popped
  dsimp only at further
  split at further
  · cases further
    rfl
  · simp only [bind_eq_bind, bind_eq_some_iff, Option.some.injEq] at further
    obtain ⟨_, _, _, _, _, _, rfl⟩ := further
    exact absurd rfl failed

/-- A poll that returns has put its process to sleep or popped. -/
theorem poll_cases {kernel after : Kernel} {mq : Nat} {wait : Bool} {stale : Fin 52 → UInt8}
    {result : Nat × List UInt8 × State} (known : queues.mqs (kernel.queueOr mq) = some data)
    (done : scHandleIpcMqPoll kernel queues mq wait msg stale = some (result, after)) :
    (data.items = 0 ∧ wait) ∧ result = (eagain, msg, queues) ∧
    after = schedulerWaitFor kernel kernel.current .message (kernel.queueOr mq) ∨
    ¬ (data.items = 0 ∧ wait) ∧ mqPop queues (kernel.queueOr mq) msg = some result ∧ after = kernel := by
  obtain ⟨⟨found, peeked⟩, looked, further⟩ := bind_eq_some_iff.mp done
  have popping : ((mqPop queues (kernel.queueOr mq) msg).bind fun popped => some (popped, kernel)) =
      some (result, after) → mqPop queues (kernel.queueOr mq) msg = some result ∧ after = kernel := by
    intro bound
    obtain ⟨popped, same, returned⟩ := bind_eq_some_iff.mp bound
    cases returned
    exact ⟨same, rfl⟩
  rcases peek_cases known (peekedMessage stale) looked with ⟨empty, rfl⟩ | ⟨filled, rfl⟩ |
    ⟨first, size, filled, rfl, stored, read, again⟩
  · cases wait with
    | true => simpa [empty, eq_comm] using further
    | false =>
      have stays : mqPop queues (kernel.queueOr mq) msg = some (enomsg, msg, queues) := by
        simp [mqPop, mqPeek, known, empty, enomsg]
      simpa [reconsider, enomsg, emsgsize, stays, eq_comm] using further
  · exact .inr ⟨fun both => filled both.1, popping (by simpa [reconsider, enomsg, emsgsize] using further)⟩
  · refine .inr ⟨fun both => filled both.1, ?_⟩
    obtain ⟨⟨error, copy⟩, reconsidered, further⟩ := bind_eq_some_iff.mp further
    rw [reconsider, again] at reconsidered
    obtain ⟨room, limit, reconsidered⟩ := bind_eq_some_iff.mp reconsidered
    split at reconsidered
    next small =>
      obtain ⟨sized, named, reconsidered⟩ := bind_eq_some_iff.mp reconsidered
      obtain ⟨invalid, marked, returned⟩ := bind_eq_some_iff.mp reconsidered
      cases returned
      rw [pop_too_small known filled stored read limit small named marked]
      simpa [emsgsize, eq_comm] using further
    next fits =>
      cases reconsidered
      exact popping further

section

variable {fifo : Fifo} {pages : Nat → List (Nat × List Message)}

/-- A poll of queues that stand for lists of messages waits for the empty one, and pops otherwise. -/
theorem poll_pops {kernel : Kernel} {mq : Nat} {messages : List Message} (represents : Represents queues fifo pages)
    (known : fifo.queues (kernel.queueOr mq) = some messages) (wait : Bool) (buffer : Buffer) (stale : Fin 52 → UInt8) :
    scHandleIpcMqPoll kernel queues mq wait buffer.bytes stale = if messages = [] ∧ wait then
      some ((eagain, buffer.bytes, queues), schedulerWaitFor kernel kernel.current .message (kernel.queueOr mq))
    else (mqPop queues (kernel.queueOr mq) buffer.bytes).map (fun popped => (popped, kernel)) := by
  obtain ⟨_, stored, held⟩ := represents.present _ _ known
  have looked := peek_answers stored held (peekedMessage stale)
  obtain ⟨_, _, popped, _⟩ := pop_step represents known buffer
  cases messages with
  | nil =>
    have stays : mqPop queues (kernel.queueOr mq) buffer.bytes = some (enomsg, buffer.bytes, queues) := by
      simp [mqPop, peek_answers stored held buffer, answer, enomsg]
    cases wait <;> simp [scHandleIpcMqPoll, looked, answer, reconsider, enomsg, emsgsize, stays]
  | cons message rest =>
    by_cases fits : message.size ≤ (peekedMessage stale).room
    · simp [scHandleIpcMqPoll, looked, answer, fits, reconsider, enomsg, emsgsize, popped]
    · have again : readU64 (tooSmall message.size (peekedMessage stale).bytes) 0 = some message.size :=
        tooSmall_size message.sized _
      by_cases small : buffer.room < message.size
      · obtain ⟨_, named, marked⟩ := store_too_small message.size buffer
        have failed : mqPop queues (kernel.queueOr mq) buffer.bytes =
            some (emsgsize, tooSmall message.size buffer.bytes, queues) := by
          simp [mqPop, peek_answers stored held buffer, answer, not_le.mpr small, emsgsize]
        simp [scHandleIpcMqPoll, looked, answer, fits, reconsider, again, buffer.sized, small, named, marked, enomsg,
          emsgsize, failed]
      · simp [scHandleIpcMqPoll, looked, answer, fits, reconsider, again, buffer.sized, small, enomsg, emsgsize, popped]

end

/-- Whenever a poll of a queue returns, it did what popping does, or its process waits for
the empty queue; and it always returns if the queues were used as they should be. -/
theorem poll_agrees_with_pop (kernel : Kernel) (mq : Nat) (wait : Bool) (stale : Fin 52 → UInt8)
    (known : queues.mqs (kernel.queueOr mq) = some data) :
    (∀ msg result after, scHandleIpcMqPoll kernel queues mq wait msg stale = some (result, after) →
      (result.1 ≠ 0 → result.2.2 = queues) ∧
      if data.items = 0 ∧ wait then
        result = (eagain, msg, queues) ∧ after.processes = Function.update kernel.processes kernel.current
          { kernel.processes kernel.current with
            state := .waiting, waitingFor := .message, waitingData := kernel.queueOr mq }
      else mqPop queues (kernel.queueOr mq) msg = some result ∧ after = kernel) ∧
    ∀ ops outputs (buffer : Buffer), Run ops outputs queues →
      (scHandleIpcMqPoll kernel queues mq wait buffer.bytes stale).isSome := by
  constructor
  · intro msg result after done
    rcases poll_cases known done with ⟨waits, rfl, rfl⟩ | ⟨goes, popped, same⟩
    · rw [if_pos waits]
      simp [schedulerWaitFor, Kernel.setState]
    · rw [if_neg goes]
      exact ⟨pop_failed popped, popped, same⟩
  · intro ops outputs buffer run
    obtain ⟨_, pages, represents⟩ := run_represents run
    cases queue : (Fifo.run ops).2.queues (kernel.queueOr mq) with
    | none => exact absurd ((represents.absent _ queue).1.symm.trans known) (by simp)
    | some messages =>
      obtain ⟨_, _, popped, _⟩ := pop_step represents queue buffer
      rw [poll_pops represents queue]
      split
      · rfl
      · simp [popped]

/-- A process that runs, with the first queue as its own. -/
def someRuns : Kernel :=
  { Processes.initKernel with
    processes := Function.update Processes.initKernel.processes 0 ⟨0, 0, .running, .time, 0, 1⟩
    current := 0 }

/-- A running process takes the message from its own queue, although it is prepared to wait. -/
theorem poll_agrees_with_pop_message : ∃ queues left, Run [.create, .push 1 plainMessage] [.created 1, .pushed 0] queues ∧
    scHandleIpcMqPoll someRuns queues 0 true plainBuffer.bytes (fun _ => 7) =
      some ((0, plainMessage.bytes, left), someRuns) := by
  obtain ⟨_, _, created⟩ := run_represents oneQueue_run
  obtain ⟨queues, _, pushed, _⟩ := perform_step created oneQueue_supplied
  have run : Run [.create, .push 1 plainMessage] [.created 1, .pushed 0] queues :=
    Run.step oneQueue_run oneQueue_supplied pushed
  obtain ⟨_, _, represents⟩ := run_represents run
  obtain ⟨data, known, held⟩ := represents.present 1 [plainMessage] rfl
  have queued : (Fifo.run [.create, .push 1 plainMessage]).2.queues 1 = some [plainMessage] := rfl
  obtain ⟨left, _, popped, _⟩ := pop_step represents queued plainBuffer
  obtain ⟨agrees, returns⟩ := poll_agrees_with_pop someRuns 0 true (fun _ => 7) known
  obtain ⟨⟨result, after⟩, done⟩ := isSome_iff_exists.mp (returns _ _ plainBuffer run)
  have filled : ¬ (data.items = 0 ∧ true = true) := by simp [held.items]
  obtain ⟨taken, rfl⟩ := (if_neg filled) ▸ (agrees _ _ _ done).2
  cases popped.symm.trans taken
  exact ⟨queues, left, run, done⟩

section

variable {kernel : Kernel} {fifo : Fifo} {mq : Nat}

/-- The sizes that the kernel has for its queues are those of the messages. -/
structure Sized (kernel : Kernel) (fifo : Fifo) : Prop where
  queues : ∀ mq, kernel.mqs mq = (fifo.queues mq).map (List.map Message.size)
  next : kernel.nextMq = fifo.nextMq

/-- The kernel's queues and those with the messages stand for the same lists. -/
def Agree (kernel : Kernel) (queues : State) : Prop :=
  ∃ fifo pages, Represents queues fifo pages ∧ Sized kernel fifo

theorem agree_init : Agree Processes.initKernel initMq := by
  obtain ⟨_, pages, represents⟩ := run_represents Run.started
  exact ⟨_, pages, represents, fun _ => rfl, rfl⟩

/-- A call on the queues with sizes only. -/
def sizedCall (kernel : Kernel) : Op → Except Processes.Panic (Nat × Kernel)
  | .create => Processes.mqCreate kernel
  | .push mq message => Processes.mqPush kernel mq message.size
  | .peek mq buffer => .ok ((Processes.mqPeek kernel mq buffer.room).1, kernel)
  | .pop mq buffer => .ok (Processes.mqPop kernel mq buffer.room)

/-- The number or the error that a call returns. -/
def code : Output → Nat
  | .created mq => mq
  | .pushed error => error
  | .read error _ => error

/-- One queue is changed in both. -/
theorem Sized.update (sized : Sized kernel fifo) {queue : Option (List Message)} {after : Kernel} {nextMq : Nat}
    (queues : after.mqs = Function.update kernel.mqs mq (queue.map (List.map Message.size)))
    (next : after.nextMq = nextMq) : Sized after ⟨Function.update fifo.queues mq queue, nextMq⟩ := by
  refine ⟨fun other => ?_, next⟩
  rw [queues]
  by_cases here : other = mq
  · simp [here]
  · simp [here, sized.queues]

theorem peek_sized (sized : Sized kernel fifo) (buffer : Buffer) :
    (Processes.mqPeek kernel mq buffer.room).1 = (answer (fifo.queues mq) buffer).1 := by
  rw [Processes.mqPeek, sized.queues]
  rcases fifo.queues mq with _ | _ | ⟨message, rest⟩
  · rfl
  · rfl
  · simp only [Option.map_some, List.map_cons, answer]
    split <;> rfl

theorem pop_sized (mq : Nat) (sized : Sized kernel fifo) (buffer : Buffer) :
    (Processes.mqPop kernel mq buffer.room).1 = (answer (fifo.queues mq) buffer).1 ∧
    Sized (Processes.mqPop kernel mq buffer.room).2 (fifo.step (.pop mq buffer)).2 := by
  have peeked : (Processes.mqPeek kernel mq buffer.room).1 = _ := peek_sized sized buffer
  have stored := sized.queues mq
  rw [Processes.mqPop, peeked]
  rcases answer_cases (fifo.queues mq) buffer with ⟨failed, same⟩ | ⟨worked, message, rest, queued, fits⟩
  · rw [if_pos failed]
    refine ⟨rfl, sized.update ?_ sized.next⟩
    rw [same, ← stored, Function.update_eq_self]
  · rw [if_neg (not_not.mpr worked)]
    refine ⟨worked.symm, sized.update ?_ sized.next⟩
    simp [stored, queued, remaining, fits]

/-- The queues with sizes only answer a call as the queues with the messages do, and stay theirs. -/
theorem calls_agree {page : Nat} {op : Op} (agree : Agree kernel queues) (supplied : Supplied queues page op) :
    ∃ output after left, perform queues page op = some (output, after) ∧
    sizedCall kernel op = .ok (code output, left) ∧ Agree left after := by
  obtain ⟨fifo, pages, represents, sized⟩ := agree
  obtain ⟨after, pages', performed, stands⟩ := perform_step represents supplied
  suffices ∃ left, sizedCall kernel op = .ok (code (fifo.step op).1, left) ∧ Sized left (fifo.step op).2 by
    obtain ⟨left, called, sizes⟩ := this
    exact ⟨_, after, left, performed, called, _, pages', stands, sizes⟩
  cases op with
  | create =>
    have left : kernel.nextMq ≠ 0 := by
      rw [sized.next, ← represents.next]
      exact supplied
    rw [sizedCall, Processes.mqCreate, if_neg left]
    rw [sized.next]
    exact ⟨_, rfl, sized.update rfl rfl⟩
  | push mq message =>
    have stored := sized.queues mq
    cases queued : fifo.queues mq with
    | none =>
      rw [queued] at stored
      exact ⟨kernel, by simp [sizedCall, Processes.mqPush, stored, Fifo.step, queued, code],
        by simpa only [Fifo.step, queued] using sized⟩
    | some queue =>
      rw [queued] at stored
      simp only [sizedCall, Processes.mqPush, stored, Option.map_some, Processes.waitableDone_message, Fifo.step, queued]
      refine ⟨_, rfl, sized.update ?_ ?_⟩
      · rw [(Processes.wake_tables _ _).mqs]
        simp
      · rw [(Processes.wake_tables _ _).nextMq]
        exact sized.next
  | peek mq buffer => exact ⟨kernel, by rw [sizedCall, peek_sized sized]; rfl, sized⟩
  | pop mq buffer =>
    obtain ⟨same, sizes⟩ := pop_sized mq sized buffer
    exact ⟨_, congrArg Except.ok (Prod.ext same rfl), sizes⟩

/-- With sizes only, a poll waits for the empty queue and pops otherwise, as well. -/
theorem sized_poll_pops (wait : Bool) (room : Nat) : Processes.scHandleIpcMqPoll kernel mq wait room =
    if kernel.mqs (kernel.queueOr mq) = some [] ∧ wait then (⟨some eagain, none⟩,
      schedulerWaitFor kernel kernel.current .message (kernel.queueOr mq))
    else (⟨some (Processes.mqPop kernel (kernel.queueOr mq) room).1, none⟩,
      (Processes.mqPop kernel (kernel.queueOr mq) room).2) := by
  rw [Processes.scHandleIpcMqPoll, Processes.pollError, Processes.mqPop, Processes.mqPeek, Processes.mqPeek]
  rcases kernel.mqs (kernel.queueOr mq) with _ | _ | ⟨size, rest⟩
  · simp [enoent, enomsg, emsgsize]
  · cases wait <;> simp [enomsg, emsgsize]
  · by_cases bare : size ≤ messageHeaderSize
    · simp [bare, enomsg, emsgsize]
    · by_cases small : room < size
      · simp [bare, small, not_le.mpr small, enomsg, emsgsize]
      · simp [bare, small, not_lt.mp small, enomsg]

/-- The poll with sizes only returns what the poll with the messages returns, does the same to the processes and
leaves the sizes of its queues. -/
theorem polls_agree (agree : Agree kernel queues) (mq : Nat) (wait : Bool) (buffer : Buffer)
    (stale : Fin 52 → UInt8) : ∃ result after left,
    scHandleIpcMqPoll kernel queues mq wait buffer.bytes stale = some (result, after) ∧
    Processes.scHandleIpcMqPoll kernel mq wait buffer.room = (⟨some result.1, none⟩, left) ∧
    left.processes = after.processes ∧ Agree left result.2.2 := by
  obtain ⟨fifo, pages, represents, sized⟩ := agree
  have stored := sized.queues (kernel.queueOr mq)
  obtain ⟨same, sizes⟩ := pop_sized (kernel.queueOr mq) sized buffer
  rw [sized_poll_pops]
  cases queued : fifo.queues (kernel.queueOr mq) with
  | none =>
    have missing := (represents.absent _ queued).1
    rw [queued] at stored
    exact ⟨(enoent, buffer.bytes, queues), kernel, kernel,
      by simp [scHandleIpcMqPoll, mqPeek, missing, reconsider, enoent, enomsg, emsgsize],
      by simp [Processes.mqPop, Processes.mqPeek, stored, enoent], rfl, fifo, pages, represents, sized⟩
  | some messages =>
    obtain ⟨after, pages', popped, stands⟩ := pop_step represents queued buffer
    rw [queued] at stored same
    rw [Fifo.step, queued] at sizes
    rw [poll_pops represents queued]
    by_cases sleeps : messages = [] ∧ wait
    · rw [if_pos sleeps, if_pos (by simp [stored, sleeps])]
      exact ⟨_, _, _, rfl, rfl, rfl, fifo, pages, represents, sized.queues, sized.next⟩
    · have kept : (Processes.mqPop kernel (kernel.queueOr mq) buffer.room).2.processes = kernel.processes := by
        rw [Processes.mqPop]
        split <;> rfl
      rw [if_neg sleeps, if_neg (by simpa [stored] using sleeps), popped]
      exact ⟨_, kernel, _, rfl, by rw [same], kept, _, pages', stands, sizes⟩

end

end Lfos.Polling
