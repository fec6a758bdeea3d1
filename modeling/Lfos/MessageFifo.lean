import Lfos.MessageStorage

/-!
# A message queue is a FIFO of byte-exact messages

The abstract queues are lists of messages: pushing appends, peeking reports the
head, popping removes the head it reports. The real queues stand for them, and
every call returns what the abstract queues return and leaves related states.
-/

namespace Lfos.MessageQueues

open Words ByteLists LinkedHeap List Option Function
open Prod (fst)

/-- A caller's buffer: room for a header at least, and for as many bytes as its size
field says. -/
structure Buffer where
  bytes : List UInt8
  room : Nat
  sized : readU64 bytes 0 = some room
  header : messageHeaderSize ≤ bytes.length
  honest : room ≤ bytes.length

/-- Queues as lists of messages. -/
structure Fifo where
  queues : Nat → Option (List Message)
  nextMq : Nat

def Fifo.initial : Fifo := ⟨fun _ => none, 1⟩

inductive Op where
  | create
  | push (mq : Nat) (message : Message)
  | peek (mq : Nat) (buffer : Buffer)
  | pop (mq : Nat) (buffer : Buffer)

inductive Output where
  | created (mq : Nat)
  | pushed (error : Nat)
  | read (error : Nat) (msg : List UInt8)

/-- A buffer that was too small: the needed size and the type `MT_Invalid` are
stored, everything else is kept. -/
def tooSmall (size : Nat) (bytes : List UInt8) : List UInt8 :=
  toBytes 8 size ++ (bytes.drop 8).take 16 ++ mtInvalid ++ bytes.drop 28

/-- What peeking and popping report. -/
def answer (queue : Option (List Message)) (buffer : Buffer) : Nat × List UInt8 :=
  match queue with
  | none => (enoent, buffer.bytes)
  | some [] => (enomsg, buffer.bytes)
  | some (message :: _) =>
    if message.size ≤ buffer.room then (0, message.bytes ++ buffer.bytes.drop message.size)
    else (emsgsize, tooSmall message.size buffer.bytes)

/-- What popping leaves. -/
def remaining (queue : List Message) (buffer : Buffer) : List Message :=
  match queue with
  | [] => []
  | message :: rest => if message.size ≤ buffer.room then rest else message :: rest

/-- The abstract queues: pushing appends, popping removes the head it reports. -/
def Fifo.step (fifo : Fifo) : Op → Output × Fifo
  | .create => (.created fifo.nextMq,
      ⟨update fifo.queues fifo.nextMq (some []), u64 (fifo.nextMq + 1)⟩)
  | .push mq message =>
    match fifo.queues mq with
    | none => (.pushed enoent, fifo)
    | some queue =>
      (.pushed 0, { fifo with queues := update fifo.queues mq (some (queue ++ [message])) })
  | .peek mq buffer =>
    let reported := answer (fifo.queues mq) buffer
    (.read reported.1 reported.2, fifo)
  | .pop mq buffer =>
    let reported := answer (fifo.queues mq) buffer
    (.read reported.1 reported.2, { fifo with
        queues := update fifo.queues mq ((fifo.queues mq).map (fun queue => remaining queue buffer)) })

/-- One call on the real queues. -/
def perform (state : State) (page : Nat) : Op → Option (Output × State)
  | .create => (mqCreate state).map (fun (mq, after) => (.created mq, after))
  | .push mq message =>
    (mqPush state mq message.bytes page).map (fun (error, after) => (.pushed error, after))
  | .peek mq buffer => (mqPeek state mq buffer.bytes).map (fun (error, msg) => (.read error msg, state))
  | .pop mq buffer =>
    (mqPop state mq buffer.bytes).map (fun (error, msg, after) => (.read error msg, after))

/-- What a call needs from its surroundings: a queue number that is left, and a
fresh block of the size a push asks for. -/
def Supplied (state : State) (page : Nat) : Op → Prop
  | .create => state.nextMq ≠ 0
  | .push mq message => ∀ data, state.mqs mq = some data →
      Fresh state.heap page (pageSizeFor (nextAverage data.averageMessageSize message.size) message.size)
  | _ => True

/-- The calls made so far, their outputs and the state they reached. -/
inductive Run : List Op → List Output → State → Prop where
  | started : Run [] [] initMq
  | step {ops : List Op} {outputs : List Output} {state after : State} {op : Op} {output : Output}
      {page : Nat} (run : Run ops outputs state) (supplied : Supplied state page op)
      (done : perform state page op = some (output, after)) :
      Run (ops ++ [op]) (outputs ++ [output]) after

/-- The outputs and the queues after a sequence of calls. -/
def Fifo.run (ops : List Op) : List Output × Fifo :=
  ops.foldl (fun (outputs, fifo) op => (outputs ++ [(fifo.step op).1], (fifo.step op).2)) ([], Fifo.initial)

variable {state : State} {queue : List Message} {id : Nat}

section

variable {mq : MessageQueue} {pages : List (Nat × List Message)}
/-- A message that fits replaces the front of the buffer. -/
theorem copy_out (message : Message) (buffer : Buffer) (fits : message.size ≤ buffer.room) :
    overwrite buffer.bytes 0 message.bytes = some (message.bytes ++ buffer.bytes.drop message.size) := by
  have inside : message.bytes.length ≤ buffer.bytes.length := le_trans fits buffer.honest
  exact overwrite_append [] buffer.bytes message.bytes inside

/-- The two fields that are stored when the buffer is too small. -/
theorem store_too_small (size : Nat) (buffer : Buffer) :
    ∃ sized, overwrite buffer.bytes 0 (toBytes 8 size) = some sized ∧
    overwrite sized typeOffset mtInvalid = some (tooSmall size buffer.bytes) := by
  have header := buffer.header
  rw [messageHeaderSize] at header
  refine ⟨toBytes 8 size ++ buffer.bytes.drop 8, ?_, ?_⟩
  · have inside : (toBytes 8 size).length ≤ buffer.bytes.length := by
      rw [toBytes_length]
      omega
    have stored := overwrite_append [] buffer.bytes (toBytes 8 size) inside
    rwa [toBytes_length] at stored
  · have shape : toBytes 8 size ++ buffer.bytes.drop 8 =
        (toBytes 8 size ++ (buffer.bytes.drop 8).take 16) ++ buffer.bytes.drop 24 := by
      rw [append_assoc, ← drop_drop (l := buffer.bytes) (i := 16) (j := 8), take_append_drop]
    have position : (toBytes 8 size ++ (buffer.bytes.drop 8).take 16).length = typeOffset := by
      rw [length_append, toBytes_length, length_take, length_drop, typeOffset]
      omega
    have room : mtInvalid.length ≤ (buffer.bytes.drop 24).length := by
      rw [mtInvalid, toBytes_length, length_drop]
      omega
    rw [shape, ← position, overwrite_append _ _ _ room, drop_drop]
    rfl

/-- Peeking reports what the list of messages asks for. -/
theorem peek_answers (known : state.mqs id = some mq) (holds : QueueHolds state.heap mq pages queue)
    (buffer : Buffer) : mqPeek state id buffer.bytes = some (answer (some queue) buffer) := by
  cases queue with
  | nil =>
    have empty : mq.items = 0 := holds.items
    simp [mqPeek, known, empty, answer]
  | cons message rest =>
    have some : mq.items ≠ 0 := by simp [holds.items]
    obtain ⟨chunk, others, first, _, _, stored, held, _⟩ := first_page holds
    obtain ⟨sized, sliced⟩ := pageHolds_read held
    by_cases fits : message.size ≤ buffer.room
    · simp [mqPeek, known, some, stored, sized, buffer.sized, fits, sliced, copy_out message buffer fits, answer]
    · obtain ⟨resized, first, second⟩ := store_too_small message.size buffer
      simp [mqPeek, known, some, stored, sized, buffer.sized, fits, first, second, answer]

end

/-- The real queues stand for the abstract ones. Pages of different queues are
different. -/
structure Represents (state : State) (fifo : Fifo) (pages : Nat → List (Nat × List Message)) : Prop where
  absent : ∀ id, fifo.queues id = none → state.mqs id = none ∧ pages id = []
  present : ∀ id queue, fifo.queues id = some queue →
    ∃ mq, state.mqs id = some mq ∧ QueueHolds state.heap mq (pages id) queue
  next : state.nextMq = fifo.nextMq
  apart : ∀ left right, left ≠ right → ∀ address ∈ (pages left).map fst, address ∉ (pages right).map fst
  blocks : Blocks state.heap

section

variable {fifo : Fifo} {pages : Nat → List (Nat × List Message)}

theorem represents_initial : Represents initMq Fifo.initial (fun _ => []) where
  absent _ _ := ⟨rfl, rfl⟩
  present _ queue known := absurd known (some_ne_none queue).symm
  next := rfl
  apart _ _ _ _ member := absurd member not_mem_nil
  blocks := ⟨fun _ page stored => absurd stored (some_ne_none page).symm,
    fun _ _ page _ stored => absurd stored (some_ne_none page).symm⟩

variable {page : Nat}

/-- A queue does not notice changes of memory outside its pages. -/
theorem queueHolds_elsewhere {heap after : Heap MessageQueuePage} {mq : MessageQueue}
    {listed : List (Nat × List Message)} (holds : QueueHolds heap mq listed queue)
    (same : ∀ address ∈ listed.map fst, after address = heap address) : QueueHolds after mq listed queue :=
  { holds with
    strung := strung_congr holds.strung (fun item member => same item.1 (mem_map_of_mem member)) }

/-- Changing one queue, its pages and at most one new page leaves the others. -/
theorem represents_update (id : Nat) {after : Heap MessageQueuePage} {mq : MessageQueue}
    {listed : List (Nat × List Message)} (represents : Represents state fifo pages)
    (holds : QueueHolds after mq listed queue) (blocks : Blocks after)
    (elsewhere : Elsewhere state.heap after (pages id) page) (unused : ∀ other, page ∉ (pages other).map fst)
    (known : ∀ address ∈ listed.map fst, address = page ∨ address ∈ (pages id).map fst) :
    Represents { state with mqs := update state.mqs id (some mq), heap := after }
      { fifo with queues := update fifo.queues id (some queue) }
      (update pages id listed) := by
  have others : ∀ other, other ≠ id → ∀ address ∈ (pages other).map fst, address ∉ listed.map fst := by
    intro other different address member inListed
    rcases known address inListed with rfl | inPages
    · exact unused other member
    · exact represents.apart other id different address member inPages
  refine ⟨?_, ?_, represents.next, ?_, blocks⟩
  · intro other none
    have different : other ≠ id := by
      rintro rfl
      simp at none
    simp only [update_of_ne different] at none ⊢
    exact represents.absent other none
  · intro other content some
    by_cases here : other = id
    · subst here
      simp only [update_self, Option.some.injEq] at some ⊢
      exact ⟨mq, rfl, some ▸ holds⟩
    · simp only [update_of_ne here] at some ⊢
      obtain ⟨found, stored, held⟩ := represents.present other content some
      refine ⟨found, stored, queueHolds_elsewhere held ?_⟩
      intro address member
      refine elsewhere address ?_ (represents.apart other id here address member)
      rintro rfl
      exact unused other member
  · intro left right different address inLeft inRight
    by_cases atLeft : left = id
    · subst atLeft
      rw [update_self] at inLeft
      rw [update_of_ne (Ne.symm different)] at inRight
      exact others right (Ne.symm different) address inRight inLeft
    · rw [update_of_ne atLeft] at inLeft
      by_cases atRight : right = id
      · subst atRight
        rw [update_self] at inRight
        exact others left different address inLeft inRight
      · rw [update_of_ne atRight] at inRight
        exact represents.apart left right different address inLeft inRight

section

variable (represents : Represents state fifo pages)
include represents

/-- Listed pages are stored at an address. -/
theorem listed_stored {address : Nat}
    (member : address ∈ (pages id).map fst) : address ≠ 0 ∧ ∃ cell, state.heap address = some cell := by
  cases known : fifo.queues id with
  | none =>
    rw [(represents.absent id known).2] at member
    exact nomatch member
  | some queue =>
    obtain ⟨mq, _, held⟩ := represents.present id queue known
    obtain ⟨item, inPages, rfl⟩ := mem_map.mp member
    obtain ⟨live, cell, stored, _⟩ := strung_holds held.strung inPages
    exact ⟨live, cell, stored⟩

/-- Creating a queue adds an empty list. -/
theorem create_step (left : state.nextMq ≠ 0) : ∃ after pages', mqCreate state = some (fifo.nextMq, after) ∧
    Represents after (fifo.step .create).2 pages' := by
  have empty : QueueHolds state.heap ⟨0, 0, 0, 0, 0, 0, 0⟩ [] [] := ⟨⟨rfl, rfl⟩, nofun, rfl, rfl, rfl, ⟨rfl, rfl⟩⟩
  have unused : ∀ other, 0 ∉ (pages other).map fst := fun other member =>
    (listed_stored represents member).1 rfl
  have grown := represents_update fifo.nextMq represents empty represents.blocks (fun _ _ _ => rfl) unused (nofun)
  refine ⟨⟨update state.mqs fifo.nextMq (some ⟨0, 0, 0, 0, 0, 0, 0⟩), u64 (fifo.nextMq + 1),
    state.heap⟩, _, ?_, ⟨grown.absent, grown.present, rfl, grown.apart, grown.blocks⟩⟩
  rw [mqCreate, if_neg left, represents.next]

/-- Pushing appends the message to its queue. -/
theorem push_step (known : fifo.queues id = some queue) (message : Message)
    (supplied : Supplied state page (.push id message)) :
    ∃ after pages', mqPush state id message.bytes page = some (0, after) ∧ Represents after
    { fifo with queues := update fifo.queues id (some (queue ++ [message])) } pages' := by
  obtain ⟨mq, stored, held⟩ := represents.present id queue known
  have fresh := supplied mq stored
  obtain ⟨heap, changed, listed, pushed, blocks, holds, elsewhere, kept⟩ :=
    pushMessage_holds represents.blocks held message fresh
  have unused : ∀ other, page ∉ (pages other).map fst := by
    intro other member
    obtain ⟨_, cell, storedCell⟩ := listed_stored represents member
    exact nomatch fresh.unused.symm.trans storedCell
  refine ⟨_, _, ?_, represents_update id represents holds blocks elsewhere unused kept⟩
  obtain ⟨noItemLimit, noByteLimit⟩ := held.unlimited
  have sized : readU64 message.bytes 0 = some message.size := message.sized
  simp [mqPush, stored, sized, noItemLimit, noByteLimit, pushed]

end

/-- A copied message still begins with its size. -/
theorem size_of_copy (message : Message) (rest : List UInt8) :
    readU64 (message.bytes ++ rest) 0 = some message.size := by
  have header : 8 ≤ message.bytes.length := le_trans (by decide) message.header
  have front := readU64_append [] message.bytes rest header
  exact front.trans message.sized

/-- Without a message that fits, a pop fails and leaves the queue. -/
theorem answer_cases (queue : Option (List Message)) (buffer : Buffer) :
    ((answer queue buffer).1 ≠ 0 ∧ queue.map (fun queue => remaining queue buffer) = queue) ∨
    ((answer queue buffer).1 = 0 ∧ ∃ message rest, queue = some (message :: rest) ∧ message.size ≤ buffer.room) := by
  rcases queue with _ | _ | ⟨message, rest⟩
  · simp [answer, enoent]
  · simp [answer, enomsg, remaining]
  · by_cases fits : message.size ≤ buffer.room <;> simp [answer, remaining, fits, emsgsize]

/-- Popping reports the head of the queue and removes it if it fits. -/
theorem pop_step (represents : Represents state fifo pages) (known : fifo.queues id = some queue) (buffer : Buffer) :
    ∃ after pages', mqPop state id buffer.bytes =
    some ((answer (some queue) buffer).1, (answer (some queue) buffer).2, after) ∧ Represents after
    { fifo with queues := update fifo.queues id (some (remaining queue buffer)) } pages' := by
  obtain ⟨mq, stored, held⟩ := represents.present id queue known
  have peeked := peek_answers stored held buffer
  rcases answer_cases (some queue) buffer with ⟨failed, same⟩ | ⟨_, message, rest, isQueue, fits⟩
  · refine ⟨state, pages, by simp [mqPop, peeked, failed], ?_⟩
    rw [show some (remaining queue buffer) = some queue from same, ← known, update_eq_self]
    exact represents
  · obtain rfl := some.inj isQueue
    obtain ⟨heap, changed, listed, popped, blocks, holds, elsewhere, listedBefore⟩ :=
      popMessage_holds represents.blocks held
    have unused : ∀ other, 0 ∉ (pages other).map fst := fun other member =>
      (listed_stored represents member).1 rfl
    have left : remaining (message :: rest) buffer = rest := if_pos fits
    rw [left]
    refine ⟨_, _, ?_, represents_update id represents holds blocks elsewhere unused
      (fun address member => .inr (listedBefore address member))⟩
    simp [mqPop, peeked, answer, fits, stored, size_of_copy, popped]

/-- Every call returns what the abstract queues return, and leaves related states. -/
theorem perform_step (represents : Represents state fifo pages) {op : Op} (supplied : Supplied state page op) :
    ∃ after pages', perform state page op = some ((fifo.step op).1, after) ∧
    Represents after (fifo.step op).2 pages' := by
  cases op with
  | create =>
    obtain ⟨after, pages', created, holds⟩ := create_step represents supplied
    exact ⟨after, pages', by rw [perform, created]; rfl, holds⟩
  | push id message =>
    cases known : fifo.queues id with
    | none =>
      have missing := (represents.absent id known).1
      refine ⟨state, pages, ?_, ?_⟩
      · simp [perform, mqPush, missing, Fifo.step, known]
      · simpa [Fifo.step, known] using represents
    | some queue =>
      obtain ⟨after, pages', pushed, holds⟩ := push_step represents known message supplied
      refine ⟨after, pages', ?_, ?_⟩
      · simp [perform, pushed, Fifo.step, known]
      · simpa [Fifo.step, known] using holds
  | peek id buffer =>
    refine ⟨state, pages, ?_, represents⟩
    cases known : fifo.queues id with
    | none =>
      have missing := (represents.absent id known).1
      simp [perform, mqPeek, missing, Fifo.step, known, answer]
    | some queue =>
      obtain ⟨mq, stored, held⟩ := represents.present id queue known
      simp [perform, peek_answers stored held buffer, Fifo.step, known]
  | pop id buffer =>
    cases known : fifo.queues id with
    | none =>
      have missing := (represents.absent id known).1
      refine ⟨state, pages, ?_, ?_⟩
      · simp [perform, mqPop, mqPeek, missing, Fifo.step, known, answer, enoent]
      · have same : update fifo.queues id none = fifo.queues := known ▸ update_eq_self id _
        simpa [Fifo.step, known, same] using represents
    | some queue =>
      obtain ⟨after, pages', popped, holds⟩ := pop_step represents known buffer
      refine ⟨after, pages', ?_, ?_⟩
      · simp [perform, popped, Fifo.step, known]
      · simpa [Fifo.step, known] using holds

theorem Fifo.run_snoc (ops : List Op) (op : Op) : Fifo.run (ops ++ [op]) =
    ((Fifo.run ops).1 ++ [((Fifo.run ops).2.step op).1], ((Fifo.run ops).2.step op).2) := by
  simp [Fifo.run, foldl_append]

/-- Along a run the outputs are those of the abstract queues, and the states stay
related. -/
theorem run_represents {ops : List Op} {outputs : List Output} (run : Run ops outputs state) :
    outputs = (Fifo.run ops).1 ∧ ∃ pages, Represents state (Fifo.run ops).2 pages := by
  induction run with
  | started => exact ⟨rfl, _, represents_initial⟩
  | step run supplied done ih =>
    obtain ⟨same, pages, represents⟩ := ih
    obtain ⟨after, pages', performed, holds⟩ := perform_step represents supplied
    rw [done] at performed
    cases performed
    rw [Fifo.run_snoc]
    exact ⟨by rw [same], pages', holds⟩

end

/-- Every call of a run returned what the abstract queues return, and every further
call that finds the memory it needs returns as well, with their answer. -/
theorem queues_are_fifos {ops : List Op} {outputs : List Output} {state : State} (run : Run ops outputs state) :
    outputs = (Fifo.run ops).1 ∧ ∀ op page, Supplied state page op →
      ∃ after, perform state page op = some (((Fifo.run ops).2.step op).1, after) ∧
        Run (ops ++ [op]) (outputs ++ [((Fifo.run ops).2.step op).1]) after := by
  obtain ⟨same, pages, represents⟩ := run_represents run
  refine ⟨same, ?_⟩
  intro op page supplied
  obtain ⟨after, _, performed, _⟩ := perform_step represents supplied
  exact ⟨after, performed, Run.step run supplied performed⟩

/-- A message without user data. -/
def plainMessage : Message where
  bytes := toBytes 8 60 ++ List.replicate 52 0
  sized := by decide
  header := by decide

/-- A buffer for a header. -/
def plainBuffer : Buffer where
  bytes := toBytes 8 60 ++ List.replicate 52 7
  room := 60
  sized := by decide
  header := by decide
  honest := by decide

/-- The queues after the first one was created. -/
def oneQueue : State := ⟨update (fun _ => none) 1 (some ⟨0, 0, 0, 0, 0, 0, 0⟩), 2, fun _ => none⟩

theorem oneQueue_run : Run [.create] [.created 1] oneQueue :=
  Run.step .started (show Supplied initMq 0 .create from show 1 ≠ 0 by decide) rfl

theorem oneQueue_supplied : Supplied oneQueue 4096 (.push 1 plainMessage) := by
  intro data known
  have found : (⟨0, 0, 0, 0, 0, 0, 0⟩ : MessageQueue) = data := by simpa [oneQueue] using known
  subst found
  refine ⟨by decide, rfl, by decide, ?_⟩
  intro other cell stored
  exact nomatch stored

/-- A pushed message is popped again, and then the queue is empty. -/
theorem queues_are_fifos_round_trip : ∃ state,
    Run [.create, .push 1 plainMessage, .pop 1 plainBuffer, .pop 1 plainBuffer]
      [.created 1, .pushed 0, .read 0 plainMessage.bytes, .read enomsg plainBuffer.bytes] state := by
  obtain ⟨afterPush, _, pushed⟩ := (queues_are_fifos oneQueue_run).2 _ _ oneQueue_supplied
  obtain ⟨afterPop, _, popped⟩ := (queues_are_fifos pushed).2 (.pop 1 plainBuffer) 0 trivial
  obtain ⟨afterEmpty, _, empty⟩ := (queues_are_fifos popped).2 (.pop 1 plainBuffer) 0 trivial
  exact ⟨afterEmpty, empty⟩

end Lfos.MessageQueues
