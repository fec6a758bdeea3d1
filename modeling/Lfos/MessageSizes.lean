import Lfos.MessageFifo
import Lfos.Transitions

/-!
# Message sizes chosen by user programs

A process passes a message in its own memory, whose size field can be any number of bytes
that can be read there. The sizes of the messages that were pushed and not yet popped are
traced beside the queues. As long as every message is as long as a message header, each
page accounts for its messages, the queue for its pages, and the header that is read next
was written. A shorter message is written as far as it goes, and the header of the next
message to be read is not inside of what was written then.
-/

namespace Lfos.MessageSizes

open ByteLists LinkedHeap MessageQueues Transitions Words List Function Option Prod

inductive Event where
  | create
  | push (mq : Nat) (message : List UInt8)
  | pop (mq : Nat) (buffer : Buffer)

/-- The queues and the sizes of the messages that are not yet popped. -/
structure Traced where
  state : State
  unpopped : Nat → List Nat

/-- One call, with its error. -/
def Event.perform (state : State) (page : Nat) : Event → Option (Nat × State)
  | .create => (mqCreate state).map (fun (_, after) => (0, after))
  | .push mq message => mqPush state mq message page
  | .pop mq buffer => (mqPop state mq buffer.bytes).map (fun (error, _, after) => (error, after))

/-- A new queue has no messages, a message is not yet popped once it was pushed, and the
oldest one is popped. -/
def Event.trace (traced : Traced) (error : Nat) : Event → (Nat → List Nat)
  | .create => update traced.unpopped traced.state.nextMq []
  | .push mq message =>
    if error = 0 then update traced.unpopped mq (traced.unpopped mq ++ [(readU64 message 0).getD 0])
    else traced.unpopped
  | .pop mq _ =>
    if error = 0 then update traced.unpopped mq (traced.unpopped mq).tail else traced.unpopped

/-- A message of a size that can be read. -/
structure Readable (message : List UInt8) (size : Nat) : Prop where
  field : readU64 message 0 = some size
  inside : size ≤ message.length

/-- What a call needs: a queue number that is left, a message that can be read, and a fresh
block of the size a push asks for. -/
def Event.Supplied (state : State) (page : Nat) : Event → Prop
  | .create => state.nextMq ≠ 0
  | .push mq message => ∃ size, Readable message size ∧ ∀ data, state.mqs mq = some data →
      Fresh state.heap page (pageSizeFor (nextAverage data.averageMessageSize size) size)
  | .pop _ _ => True

/-- All queues, from the start on. -/
def queues : System Traced Event where
  initial traced := traced = ⟨initMq, fun _ => []⟩
  step traced event after := ∃ page error, event.Supplied traced.state page ∧
    event.perform traced.state page = some (error, after.state) ∧
    after.unpopped = event.trace traced error

/-- A page accounts for its messages. -/
structure PageAccounted (page : MessageQueuePage) : Prop where
  bytes : page.popPosition + page.bytes = page.pushPosition
  inside : page.pushPosition ≤ page.allocated
  items : 1 ≤ page.items

/-- A queue accounts for its pages, and the header read by `mq_peek` was written. -/
structure Accounted (heap : Heap MessageQueuePage) (mq : MessageQueue) (unpopped : List Nat) : Prop where
  pages : ∃ pages : List (Nat × MessageQueuePage), Strung MessageQueuePage.next (· = ·) heap mq.firstPage pages 0 ∧
    (∀ page ∈ pages, PageAccounted page.2) ∧
    mq.items = (pages.map (fun page => page.2.items)).sum ∧
    mq.bytes = (pages.map (fun page => page.2.bytes)).sum
  header : mq.items ≠ 0 → ∃ first, heap mq.firstPage = some first ∧
    first.popPosition + messageHeaderSize ≤ first.pushPosition
  bytes : mq.bytes = unpopped.sum

/-- Every pushed message is as long as a message header. -/
def Headed (_ : Traced) : Event → Prop
  | .push _ message => ∀ size, readU64 message 0 = some size → messageHeaderSize ≤ size
  | _ => True

variable {message : List UInt8} {size : Nat} {heap : Heap MessageQueuePage} {mq : MessageQueue}

section

variable (readable : Readable message size) (headed : messageHeaderSize ≤ size)
include readable headed

/-- The bytes of a readable message are its front. -/
theorem Readable.front : readU64 (message.take size) 0 = some size := by
  have eight : 8 ≤ size := le_trans (by decide) headed
  have length : (message.take size).length = size := length_take_of_le readable.inside
  have whole := readU64_append [] (message.take size) (message.drop size) (eight.trans_eq length.symm)
  rw [take_append_drop] at whole
  exact whole.symm.trans readable.field

/-- The message that is copied from the caller. -/
def Readable.copy (readable : Readable message size) (headed : messageHeaderSize ≤ size) : Message where
  bytes := message.take size
  sized := by
    rw [length_take_of_le readable.inside]
    exact readable.front headed
  header := by
    rw [length_take_of_le readable.inside]
    exact headed

theorem Readable.copy_size : (readable.copy headed).size = size := length_take_of_le readable.inside

/-- Nothing behind the size of a message is looked at. -/
theorem mqPush_front (state : State)
    (mq page : Nat) : mqPush state mq message page = mqPush state mq (readable.copy headed).bytes page := by
  have field : readU64 (readable.copy headed).bytes 0 = some size := readable.front headed
  have copied : slice (readable.copy headed).bytes 0 size = slice message 0 size := by
    have outer : slice message 0 size = some (message.take size) := slice_append [] message readable.inside
    have inner : slice (message.take size) 0 size = some ((message.take size).take size) :=
      slice_append [] (message.take size) (le_of_eq (length_take_of_le readable.inside).symm)
    rw [outer]
    refine inner.trans ?_
    rw [take_take, Nat.min_self]
  have pushed : ∀ data, pushMessage state.heap data message size page =
      pushMessage state.heap data (readable.copy headed).bytes size page := by
    intro data
    simp only [pushMessage, copied]
  simp only [mqPush, field, readable.field, bind_eq_bind, bind_some, pushed]

end

section

variable {traced after : Traced} {fifo : Fifo} {pages : Nat → List (Nat × List Message)} {event : Event}

/-- The sizes of the messages in a queue. -/
abbrev sizesOf (queue : Option (List Message)) : List Nat := (queue.getD []).map Message.size

/-- The traced sizes are those of the messages in the queues. -/
def Mirrors (traced : Traced) (fifo : Fifo) : Prop := traced.unpopped = fun mq => sizesOf (fifo.queues mq)

theorem sizes_update (queues : Nat → Option (List Message)) (mq : Nat) (queue : Option (List Message)) :
    (fun other => sizesOf (update queues mq queue other)) = update (fun other => sizesOf (queues other)) mq (sizesOf queue) :=
  funext (fun _ => apply_update (fun _ => sizesOf) ..)

section

variable (represents : Represents traced.state fifo pages) (mirrors : Mirrors traced fifo)
include represents mirrors

theorem push_mirrors {mq : Nat} {message : List UInt8} (headed : Headed traced (.push mq message))
    (taken : queues.step traced (.push mq message) after) :
    ∃ fifo pages, Represents after.state fifo pages ∧ Mirrors after fifo := by
  obtain ⟨page, error, ⟨size, readable, fresh⟩, performed, unpopped⟩ := taken
  have long := headed size readable.field
  have supplied : Supplied traced.state page (.push mq (readable.copy long)) := by
    intro data known
    rw [readable.copy_size long]
    exact fresh data known
  obtain ⟨state, pages', done, holds⟩ := perform_step represents supplied
  rw [Event.perform, mqPush_front readable long] at performed
  rw [perform, performed] at done
  obtain ⟨output, rfl⟩ := mk.inj (some.inj done)
  refine ⟨_, pages', holds, ?_⟩
  rw [Mirrors, unpopped, Event.trace, Fifo.step, readable.field]
  cases known : fifo.queues mq with
  | none =>
    have failed : error = enoent := by simpa [Fifo.step, known] using output
    rw [if_neg (by rw [failed]; decide)]
    exact mirrors
  | some queue =>
    have worked : error = 0 := by simpa [Fifo.step, known] using output
    rw [if_pos worked, sizes_update, mirrors]
    simp [known, sizesOf, readable.copy_size]

theorem pop_mirrors {mq : Nat} {buffer : Buffer} (taken : queues.step traced (.pop mq buffer) after) :
    ∃ fifo pages, Represents after.state fifo pages ∧ Mirrors after fifo := by
  obtain ⟨page, error, _, performed, unpopped⟩ := taken
  obtain ⟨⟨failure, bytes, state⟩, popped, same⟩ := map_eq_some_iff.mp performed
  obtain ⟨rfl, rfl⟩ := mk.inj same
  have supplied : Supplied traced.state page (.pop mq buffer) := trivial
  obtain ⟨state, pages', done, holds⟩ := perform_step represents supplied
  rw [perform, popped] at done
  obtain ⟨output, rfl⟩ := mk.inj (some.inj done)
  have reported : failure = (answer (fifo.queues mq) buffer).1 := (Output.read.inj output).1
  refine ⟨_, pages', holds, ?_⟩
  rw [Mirrors, unpopped, Event.trace, Fifo.step, sizes_update, mirrors, reported]
  rcases answer_cases (fifo.queues mq) buffer with ⟨failed, same⟩ | ⟨worked, message, rest, queued, fits⟩
  · rw [if_neg failed, same, update_eq_self]
  · rw [if_pos worked]
    simp [queued, sizesOf, remaining, fits]

theorem create_mirrors (taken : queues.step traced .create after) :
    ∃ fifo pages, Represents after.state fifo pages ∧ Mirrors after fifo := by
  obtain ⟨page, error, left, performed, unpopped⟩ := taken
  obtain ⟨⟨mq, state⟩, created, same⟩ := map_eq_some_iff.mp performed
  obtain ⟨rfl, rfl⟩ := mk.inj same
  have supplied : Supplied traced.state page .create := left
  obtain ⟨state, pages', done, holds⟩ := perform_step represents supplied
  rw [perform, created] at done
  obtain ⟨output, rfl⟩ := mk.inj (some.inj done)
  refine ⟨_, pages', holds, ?_⟩
  rw [Mirrors, unpopped, Event.trace, Fifo.step, sizes_update, mirrors, represents.next]
  rfl

end

/-- Along a run of messages with headers the queues are lists of messages. -/
theorem reachable_mirrors (reachable : (queues.under Headed).Reachable traced) :
    ∃ fifo pages, Represents traced.state fifo pages ∧ Mirrors traced fifo := by
  apply reachable.invariant
  · rintro start rfl
    exact ⟨Fifo.initial, fun _ => [], represents_initial, rfl⟩
  · rintro before event after ⟨fifo, pages, represents, mirrors⟩ ⟨headed, taken⟩
    cases event with
    | create => exact create_mirrors represents mirrors taken
    | push mq message => exact push_mirrors represents mirrors headed taken
    | pop mq buffer => exact pop_mirrors represents mirrors taken

end

section

variable {pages : List (Nat × List Message)} {queue : List Message}

/-- The pages count what the queue counts. -/
theorem cells_sums {cells : List (Nat × MessageQueuePage)}
    (holds : List.Forall₂ (fun cell page => cell.1 = page.1 ∧ PageHolds cell.2 page.2) cells pages) :
    (cells.map (fun cell => cell.2.items)).sum = (pages.flatMap snd).length ∧
    (cells.map (fun cell => cell.2.bytes)).sum = total (pages.flatMap snd) := by
  induction holds with
  | nil => exact ⟨rfl, rfl⟩
  | cons held _ ih =>
    obtain ⟨items, bytes⟩ := ih
    simp only [map_cons, sum_cons, flatMap_cons, length_append, total_append, items, bytes,
      held.2.items, held.2.bytes, and_self]

theorem total_sizes (chunk : List Message) : total chunk = (chunk.map Message.size).sum := by
  induction chunk with
  | nil => rfl
  | cons message rest ih =>
    rw [total_cons, ih, map_cons, sum_cons]

theorem page_accounted {page : MessageQueuePage} {chunk : List Message} (held : PageHolds page chunk)
    (filled : chunk ≠ []) : PageAccounted page := by
  constructor
  · rw [held.bytes, held.pushed]
  · exact pageHolds_fits held
  · rw [held.items]
    exact length_pos_iff.mpr filled

theorem cells_accounted {cells : List (Nat × MessageQueuePage)}
    (holds : List.Forall₂ (fun cell page => cell.1 = page.1 ∧ PageHolds cell.2 page.2) cells pages)
    (filled : ∀ page ∈ pages, page.2 ≠ []) : ∀ cell ∈ cells, PageAccounted cell.2 := by
  induction holds with
  | nil => exact nofun
  | cons held _ ih =>
    obtain ⟨some, others⟩ := forall_mem_cons.mp filled
    exact forall_mem_cons.mpr ⟨page_accounted held.2 some, ih others⟩

/-- A queue that holds messages in its pages accounts for them. -/
theorem queue_accounted (holds : QueueHolds heap mq pages queue) : Accounted heap mq (queue.map Message.size) := by
  constructor
  · obtain ⟨cells, strung, held⟩ := strung_cells holds.strung
    obtain ⟨items, bytes⟩ := cells_sums held
    refine ⟨cells, strung, ?_, ?_, ?_⟩
    · exact cells_accounted held holds.filled
    · rw [items, holds.items, holds.listed]
    · rw [bytes, holds.bytes, holds.listed]
  · intro nonempty
    cases queue with
    | nil => exact absurd holds.items nonempty
    | cons message rest =>
      obtain ⟨chunk, others, first, _, _, stored, held, _⟩ := first_page holds
      refine ⟨first, stored, ?_⟩
      have long : messageHeaderSize ≤ message.size := message.header
      rw [held.pushed, total_cons]
      omega
  · rw [holds.bytes, total_sizes]

theorem mirrors_accounted {traced : Traced} {fifo : Fifo} {pages : Nat → List (Nat × List Message)} {id : Nat}
    (represents : Represents traced.state fifo pages) (mirrors : Mirrors traced fifo)
    (known : traced.state.mqs id = some mq) : Accounted traced.state.heap mq (traced.unpopped id) ∧
    ∃ queue, QueueHolds traced.state.heap mq (pages id) queue := by
  have sizes := congrFun mirrors id
  cases present : fifo.queues id with
  | none =>
    rw [(represents.absent id present).1] at known
    exact nomatch known
  | some queue =>
    obtain ⟨other, stored, holds⟩ := represents.present id queue present
    cases known.symm.trans stored
    rw [present] at sizes
    rw [sizes]
    exact ⟨queue_accounted holds, queue, holds⟩

end

section

variable {page : Nat}

/-- A message pushed to a queue without pages begins a page and fills it up to its size. -/
theorem pushMessage_first (readable : Readable message size) (none : mq.firstPage = 0 ∧ mq.lastPage = 0)
    {after : Heap MessageQueuePage} {next : MessageQueue}
    (pushed : pushMessage heap mq message size page = some (after, next)) :
    ∃ first, after next.firstPage = some first ∧ first.popPosition = 0 ∧ first.pushPosition = u64 size ∧
    next.items = u64 (mq.items + 1) := by
  obtain ⟨noFirst, noLast⟩ := none
  have copied : slice message 0 size = some (message.take size) := slice_append [] message readable.inside
  have length : (message.take size).length = size := length_take_of_le readable.inside
  simp only [pushMessage, needsPage, noLast, if_true, mqAllocPage, noFirst, copied, writeMessage,
    bind_eq_bind, bind_some, ne_eq, not_true_eq_false, if_false, write_here] at pushed
  obtain ⟨data, _, returned⟩ := bind_eq_some_iff.mp pushed
  cases returned
  refine ⟨_, write_here .., rfl, ?_, rfl⟩
  rw [length]
  exact congrArg u64 (zero_add size)

/-- A queue without messages has no pages. -/
theorem no_pages {pages : List (Nat × List Message)} {queue : List Message}
    (holds : QueueHolds heap mq pages queue) (empty : mq.items = 0) : mq.firstPage = 0 ∧ mq.lastPage = 0 := by
  have none : queue = [] := length_eq_zero_iff.mp (holds.items.symm.trans empty)
  cases pages with
  | nil => exact ⟨holds.strung, holds.last⟩
  | cons page rest =>
    have listed := holds.listed
    rw [none] at listed
    exact absurd (append_eq_nil_iff.mp listed.symm).1 (holds.filled page mem_cons_self)

/-- If the first message of a queue is accounted for, it is as long as a header. -/
theorem accounted_long {traced after : Traced} {pages : List (Nat × List Message)} {queue : List Message} {id : Nat}
    {changed : MessageQueue} (readable : Readable message size)
    (holds : QueueHolds traced.state.heap mq pages queue) (known : traced.state.mqs id = some mq)
    (empty : mq.items = 0) (taken : queues.step traced (.push id message) after)
    (stored : after.state.mqs id = some changed)
    (accounted : Accounted after.state.heap changed (after.unpopped id)) : messageHeaderSize ≤ size := by
  obtain ⟨page, error, _, performed, _⟩ := taken
  obtain ⟨noItemLimit, noByteLimit⟩ := holds.unlimited
  rw [Event.perform, mqPush, known] at performed
  simp only [readable.field, noItemLimit, noByteLimit, bind_eq_bind, bind_some] at performed
  obtain ⟨⟨heap, next⟩, pushed, returned⟩ := bind_eq_some_iff.mp performed
  obtain ⟨_, same⟩ := mk.inj (some.inj returned)
  rw [← same] at stored accounted
  have updated : update traced.state.mqs id (some next) id = some next := update_self ..
  obtain rfl := some.inj (updated.symm.trans stored)
  obtain ⟨first, atFirst, popped, filled, items⟩ := pushMessage_first readable (no_pages holds empty) pushed
  have nonempty : next.items ≠ 0 := by
    rw [items, empty]
    decide
  obtain ⟨other, found, header⟩ := accounted.header nonempty
  obtain rfl := some.inj (atFirst.symm.trans found)
  rw [popped, filled] at header
  exact header.trans (Nat.mod_le ..)

end

/-- After pushes of messages that are as long as a header, and any pops, every queue
accounts for its pages and messages. The next message pushed to a queue that is empty then
leaves it accounted for if and only if it is as long as a header. -/
theorem message_sizes_accounted {traced : Traced} (reachable : (queues.under Headed).Reachable traced) {mq : Nat}
    {data : MessageQueue} (known : traced.state.mqs mq = some data) :
    Accounted traced.state.heap data (traced.unpopped mq) ∧
      ∀ message size after changed, Readable message size → data.items = 0 →
        queues.step traced (.push mq message) after → after.state.mqs mq = some changed →
        (Accounted after.state.heap changed (after.unpopped mq) ↔ messageHeaderSize ≤ size) := by
  obtain ⟨fifo, pages, represents, mirrors⟩ := reachable_mirrors reachable
  obtain ⟨accounted, queue, holds⟩ := mirrors_accounted represents mirrors known
  refine ⟨accounted, ?_⟩
  intro message size after changed readable empty taken stored
  constructor
  · intro accountedAfter
    exact accounted_long readable holds known empty taken stored accountedAfter
  · intro long
    have headed : Headed traced (.push mq message) := by
      intro field read
      exact some.inj (readable.field.symm.trans read) ▸ long
    obtain ⟨fifo, pages, represents, mirrors⟩ := push_mirrors represents mirrors headed taken
    exact (mirrors_accounted represents mirrors stored).1

/-- The first queue, as it is created. -/
def oneQueue : Traced :=
  ⟨⟨update initMq.mqs 1 (some ⟨0, 0, 0, 0, 0, 0, 0⟩), 2, initMq.heap⟩, update (fun _ => []) 1 []⟩

theorem oneQueue_step : queues.step ⟨initMq, fun _ => []⟩ .create oneQueue := ⟨0, 0, show 1 ≠ 0 by decide, rfl, rfl⟩

theorem page_fresh {allocated : Nat} (small : allocated ≤ 4096) : Fresh oneQueue.state.heap 4096 allocated := by
  constructor
  · decide
  · rfl
  · rw [pageHeaderSize]
    omega
  · intro address cell stored
    cases stored

/-- A message without user data is accounted for. -/
theorem message_sizes_plain : ∃ traced data, (queues.under Headed).Reachable traced ∧
    traced.state.mqs 1 = some data ∧ Accounted traced.state.heap data [60] := by
  obtain ⟨state, pages, numbered, holds⟩ := create_step represents_initial (by decide)
  obtain rfl : oneQueue.state = state := (Prod.mk.inj (some.inj numbered)).2
  have known : (Fifo.initial.step .create).2.queues 1 = some [] := rfl
  have fresh : ∀ data, oneQueue.state.mqs 1 = some data →
      Fresh oneQueue.state.heap 4096 (pageSizeFor (nextAverage data.averageMessageSize 60) 60) := by
    intro data stored
    obtain rfl : (⟨0, 0, 0, 0, 0, 0, 0⟩ : MessageQueue) = data := some.inj stored
    exact page_fresh (by decide)
  obtain ⟨after, _, pushed, represents⟩ := push_step holds known plainMessage fresh
  have taken : queues.step oneQueue (.push 1 plainMessage.bytes)
      ⟨after, Event.trace oneQueue 0 (.push 1 plainMessage.bytes)⟩ :=
    ⟨4096, 0, ⟨60, ⟨by decide, by decide⟩, fresh⟩, pushed, rfl⟩
  have headed : Headed oneQueue (.push 1 plainMessage.bytes) := by
    intro size read
    exact le_of_eq (some.inj (plainMessage.sized.symm.trans read))
  have created : (queues.under Headed).Reachable oneQueue :=
    reachable_under_step (reachable_initial rfl) oneQueue_step trivial
  have reachable := reachable_under_step created taken headed
  obtain ⟨data, stored, _⟩ := represents.present 1 [plainMessage] rfl
  exact ⟨_, data, reachable, stored, (message_sizes_accounted reachable stored).1⟩

/-- The queue after a message that says it has no bytes. -/
def shortQueue : Traced :=
  ⟨⟨update oneQueue.state.mqs 1 (some ⟨0, 0, 0, 1, 0, 4096, 4096⟩), 2,
    (initMq.heap.write 4096 (blankPage 0)).write 4096 ⟨0, 0, 1, 0, 0, 0, []⟩⟩,
    update oneQueue.unpopped 1 [0]⟩

/-- A message that says it has no bytes is pushed into a page without bytes, and the next
header is read behind its end. -/
theorem empty_message_unaccounted : queues.Reachable shortQueue ∧
    shortQueue.state.mqs 1 = some ⟨0, 0, 0, 1, 0, 4096, 4096⟩ ∧
    ¬ Accounted shortQueue.state.heap ⟨0, 0, 0, 1, 0, 4096, 4096⟩ (shortQueue.unpopped 1) ∧
    ∀ buffer : Buffer, mqPeek shortQueue.state 1 buffer.bytes = none := by
  have taken : queues.step oneQueue (.push 1 (toBytes 8 0)) shortQueue := by
    refine ⟨4096, 0, ⟨0, ⟨by decide, by decide⟩, ?_⟩, rfl, rfl⟩
    intro data stored
    obtain rfl : (⟨0, 0, 0, 0, 0, 0, 0⟩ : MessageQueue) = data := some.inj stored
    exact page_fresh (by decide)
  refine ⟨reachable_step (reachable_step (reachable_initial rfl) oneQueue_step) taken, rfl, ?_, ?_⟩
  · intro accounted
    obtain ⟨first, stored, header⟩ := accounted.header (by decide)
    obtain rfl : (⟨0, 0, 1, 0, 0, 0, []⟩ : MessageQueuePage) = first := some.inj stored
    exact absurd header (by decide)
  · intro buffer
    rfl

end Lfos.MessageSizes
