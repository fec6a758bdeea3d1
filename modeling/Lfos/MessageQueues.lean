import Lfos.ByteLists
import Lfos.LinkedHeap
import Lfos.Spans
import Lfos.Words

/-!
# Message queues

Messages of any size are packed behind each other into pages. A page is a header
and a block of bytes from the queue's allocator; its size follows the average
message size. Pushing writes behind the last message of the last page, in a new
page if the message does not fit; popping reads at the front of the first page and
gives the page back with its last message. A message begins with its own size, and
the size field of the caller's message is the room of the caller's buffer.

All counters are unsigned 64-bit words. Following a null or freed page pointer and
copying beyond the end of a block yield no result. The address of a new page is
the allocator's choice and an argument of `mqPush`. Waking a process that waits for
the message is not part of this module, and neither are the teardown notifiers.
-/

namespace Lfos.MessageQueues

open Words ByteLists LinkedHeap Spans Function

def enoent : Nat := 2
def enomem : Nat := 12
def enomsg : Nat := 42
def emsgsize : Nat := 90

/-- The size of `struct Message` without user data behind it. -/
def messageHeaderSize : Nat := 8 + 8 + 8 + 4 + 32

/-- Target number of messages in a page. -/
def messageQueuePageItemsTarget : Nat := 16

/-- A page: its header and the bytes behind it. -/
structure MessageQueuePage where
  allocated : Nat
  bytes : Nat
  items : Nat
  popPosition : Nat
  pushPosition : Nat
  next : Nat
  data : List UInt8

/-- Size of the page header. -/
def pageHeaderSize : Nat := 48

structure MessageQueue where
  maxItems : Nat
  maxBytes : Nat
  bytes : Nat
  items : Nat
  averageMessageSize : Nat
  firstPage : Nat
  lastPage : Nat

/-- All queues, the next queue number and the pages. -/
structure State where
  mqs : Nat → Option MessageQueue
  nextMq : Nat
  heap : Heap MessageQueuePage

/-- Offset and bytes of the type field of a message; `MT_Invalid` is zero. -/
def typeOffset : Nat := 24
def mtInvalid : List UInt8 := toBytes 4 0

def initMq : State := ⟨fun _ => none, 1, fun _ => none⟩

/-- Create an empty queue without limits; no result once the numbers ran out. -/
def mqCreate (state : State) : Option (Nat × State) :=
  if state.nextMq = 0 then none
  else some (state.nextMq, { state with
      mqs := update state.mqs state.nextMq (some ⟨0, 0, 0, 0, 0, 0, 0⟩)
      nextMq := u64 (state.nextMq + 1) })

/-- The bytes asked for in a page that has to hold a message. -/
def pageSizeFor (averageMessageSize minSize : Nat) : Nat :=
  if u64 (averageMessageSize * messageQueuePageItemsTarget) < minSize then minSize
  else u64 (averageMessageSize * messageQueuePageItemsTarget)

/-- A page as it comes from the allocator. -/
def blankPage (allocated : Nat) : MessageQueuePage :=
  ⟨allocated, 0, 0, 0, 0, 0, List.replicate allocated 0⟩

/-- Append an empty page at the allocated address. -/
def mqAllocPage (heap : Heap MessageQueuePage) (mq : MessageQueue) (minSize page : Nat) :
    Option (Heap MessageQueuePage × MessageQueue) := do
  let allocSize := pageSizeFor mq.averageMessageSize minSize
  let added := heap.write page (blankPage allocSize)
  let firstPage := if mq.firstPage = 0 then page else mq.firstPage
  let linked ←
    if mq.lastPage ≠ 0 then do
      let last ← added mq.lastPage
      some (added.write mq.lastPage { last with next := page })
    else some added
  some (linked, { mq with firstPage := firstPage, lastPage := page })

/-- The moving average after one more message. -/
def nextAverage (averageMessageSize size : Nat) : Nat :=
  if u64 (averageMessageSize + size) ≠ size then u64 (averageMessageSize + size) / 2
  else u64 (averageMessageSize + size)

/-- Whether the last page, if any, lacks room for a message. -/
def needsPage (heap : Heap MessageQueuePage) (mq : MessageQueue) (size : Nat) : Option Bool :=
  if mq.lastPage = 0 then some true
  else do
    let last ← heap mq.lastPage
    some (decide (u64Sub last.allocated last.pushPosition < size))

/-- Count a message in whose bytes have been copied behind the others. -/
def MessageQueuePage.countIn (page : MessageQueuePage) (size : Nat) (data : List UInt8) :
    MessageQueuePage :=
  { page with
    pushPosition := u64 (page.pushPosition + size)
    bytes := u64 (page.bytes + size)
    items := u64 (page.items + 1)
    data := data }

/-- Count the first message out. -/
def MessageQueuePage.countOut (page : MessageQueuePage) (size : Nat) : MessageQueuePage :=
  { page with
    popPosition := u64 (page.popPosition + size)
    bytes := u64Sub page.bytes size
    items := u64Sub page.items 1 }

/-- Copy a message behind the last one of the last page and count it. -/
def writeMessage (heap : Heap MessageQueuePage) (mq : MessageQueue) (message : List UInt8) :
    Option (Heap MessageQueuePage × MessageQueue) := do
  let last ← heap mq.lastPage
  let data ← overwrite last.data last.pushPosition message
  some (heap.write mq.lastPage (last.countIn message.length data),
    { mq with bytes := u64 (mq.bytes + message.length), items := u64 (mq.items + 1) })

/-- Update the average, make room and copy the message. -/
def pushMessage (heap : Heap MessageQueuePage) (mq : MessageQueue) (message : List UInt8)
    (size page : Nat) : Option (Heap MessageQueuePage × MessageQueue) := do
  let averaged := { mq with averageMessageSize := nextAverage mq.averageMessageSize size }
  let lacking ← needsPage heap averaged size
  let (roomy, data) ← if lacking then mqAllocPage heap averaged size page else some (heap, averaged)
  let copied ← slice message 0 size
  writeMessage roomy data copied

/-- Push a message. `page` is the page the allocator would return. -/
def mqPush (state : State) (mq : Nat) (message : List UInt8) (page : Nat) : Option (Nat × State) := do
  match state.mqs mq with
  | none => some (enoent, state)
  | some data =>
    let size ← readU64 message 0
    if (data.maxBytes ≠ 0 ∧ data.maxBytes ≤ u64 (data.bytes + size)) ∨
        (data.maxItems ≠ 0 ∧ data.maxItems ≤ data.items) then some (enomem, state)
    else
      let (heap, data) ← pushMessage state.heap data message size page
      some (0, { state with mqs := update state.mqs mq (some data), heap := heap })

/-- Copy the first message into the caller's buffer if it fits; otherwise tell the
needed size and mark the message invalid. -/
def mqPeek (state : State) (mq : Nat) (msg : List UInt8) : Option (Nat × List UInt8) := do
  match state.mqs mq with
  | none => some (enoent, msg)
  | some data =>
    if data.items = 0 then some (enomsg, msg)
    else
      let first ← state.heap data.firstPage
      let size ← readU64 first.data first.popPosition
      let room ← readU64 msg 0
      if size ≤ room then
        let message ← slice first.data first.popPosition size
        let copied ← overwrite msg 0 message
        some (0, copied)
      else
        let sized ← overwrite msg 0 (toBytes 8 size)
        let invalid ← overwrite sized typeOffset mtInvalid
        some (emsgsize, invalid)

/-- Take a page without messages out of a queue. -/
def dropPage (heap : Heap MessageQueuePage) (mq : MessageQueue) : Option (Heap MessageQueuePage × MessageQueue) := do
  let first ← heap mq.firstPage
  if first.items = 0 then
    let lastPage := if mq.firstPage = mq.lastPage then 0 else mq.lastPage
    some (heap.release mq.firstPage, { mq with firstPage := first.next, lastPage := lastPage })
  else some (heap, mq)

/-- Count a message of a size out of the first page. -/
def popMessage (heap : Heap MessageQueuePage) (mq : MessageQueue) (size : Nat) :
    Option (Heap MessageQueuePage × MessageQueue) := do
  let first ← heap mq.firstPage
  dropPage (heap.write mq.firstPage (first.countOut size))
    { mq with bytes := u64Sub mq.bytes size, items := u64Sub mq.items 1 }

/-- Peek, and remove the message on success. -/
def mqPop (state : State) (mq : Nat) (msg : List UInt8) : Option (Nat × List UInt8 × State) := do
  let (error, msg) ← mqPeek state mq msg
  if error ≠ 0 then some (error, msg, state)
  else
    let data ← state.mqs mq
    let size ← readU64 msg 0
    let (heap, data) ← popMessage state.heap data size
    some (0, msg, { state with mqs := update state.mqs mq (some data), heap := heap })

/-- The bytes a page occupies. -/
def block (page : Nat) (allocated : Nat) : Span := ⟨page, allocated + pageHeaderSize⟩

/-- The allocator returns a block inside the address space that overlaps no page in
use. -/
structure Fresh (heap : Heap MessageQueuePage) (page allocated : Nat) : Prop where
  nonzero : page ≠ 0
  unused : heap page = none
  inside : page + (allocated + pageHeaderSize) ≤ 2 ^ 64
  apart : ∀ other cell, heap other = some cell → (block page allocated).Apart (block other cell.allocated)

end Lfos.MessageQueues
