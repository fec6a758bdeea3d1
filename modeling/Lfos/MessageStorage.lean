import Lfos.MessageQueues

/-!
# The pages of a message queue

Each page of a queue stands for the messages written into it and not yet popped,
and the queue for the pages' messages in order. The pages of all queues occupy
disjoint blocks of the 64-bit address space, so the bytes of a queue fit in one
word and no counter wraps. Writing a message appends it to the list a queue stands
for, counting one out removes the head.
-/

namespace Lfos.MessageQueues

open Words ByteLists LinkedHeap Spans List Option
open Prod (fst snd)

/-- A message in memory: its size field is the number of its bytes, a header at least. -/
structure Message where
  bytes : List UInt8
  sized : readU64 bytes 0 = some bytes.length
  header : messageHeaderSize ≤ bytes.length

def Message.size (message : Message) : Nat := message.bytes.length

theorem Message.size_pos (message : Message) : 0 < message.size := lt_of_lt_of_le (by decide) message.header

/-- The bytes of messages behind each other. -/
def flat (chunk : List Message) : List UInt8 := chunk.flatMap Message.bytes

def total (chunk : List Message) : Nat := (flat chunk).length

theorem total_append (left right : List Message) : total (left ++ right) = total left + total right := by
  simp [total, flat]

theorem total_cons (message : Message) (rest : List Message) : total (message :: rest) = message.size + total rest := by
  simp [total, flat, Message.size]

theorem length_le_total (chunk : List Message) : chunk.length ≤ total chunk := by
  induction chunk with
  | nil => exact Nat.zero_le _
  | cons message rest ih =>
    have positive := message.size_pos
    rw [total_cons, length_cons]
    omega

/-- A page holds messages: they are the bytes between the two positions, and the
counters count them. -/
structure PageHolds (page : MessageQueuePage) (chunk : List Message) : Prop where
  data : ∃ popped rest, page.data = popped ++ (flat chunk ++ rest) ∧ popped.length = page.popPosition
  length : page.data.length = page.allocated
  pushed : page.pushPosition = page.popPosition + total chunk
  bytes : page.bytes = total chunk
  items : page.items = chunk.length

variable {page : MessageQueuePage} {message : Message} {heap : Heap MessageQueuePage} {mq : MessageQueue}
  {pages : List (Nat × List Message)}

section

variable {chunk : List Message}

theorem pageHolds_fits (held : PageHolds page chunk) : page.pushPosition ≤ page.allocated := by
  obtain ⟨popped, rest, data, position⟩ := held.data
  have length := held.length
  rw [data, length_append, length_append] at length
  rw [held.pushed, total]
  omega

theorem pageHolds_blank (allocated : Nat) : PageHolds (blankPage allocated) [] :=
  ⟨⟨[], replicate allocated 0, rfl, rfl⟩, length_replicate, rfl, rfl, rfl⟩

/-- A message that fits is written behind the others. -/
theorem pageHolds_write (held : PageHolds page chunk) (small : page.allocated < 2 ^ 64)
    (fits : page.pushPosition + message.size ≤ page.allocated) :
    ∃ data, overwrite page.data page.pushPosition message.bytes = some data ∧
    PageHolds (page.countIn message.size data) (chunk ++ [message]) := by
  obtain ⟨popped, rest, data, position⟩ := held.data
  have length := held.length
  have pushed := held.pushed
  have counted := length_le_total chunk
  have positive := message.size_pos
  have front : (popped ++ flat chunk).length = page.pushPosition := by
    rw [length_append, position, pushed, total]
  rw [data, ← append_assoc, length_append, front] at length
  have room : message.bytes.length ≤ rest.length := by
    rw [Message.size] at fits
    omega
  refine ⟨popped ++ flat chunk ++ message.bytes ++ rest.drop message.bytes.length, ?_, ?_, ?_, ?_, ?_, ?_⟩
  · rw [data, ← append_assoc, ← front]
    exact overwrite_append _ rest message.bytes room
  · exact ⟨popped, rest.drop message.bytes.length, by simp [flat, MessageQueuePage.countIn], position⟩
  · show (popped ++ flat chunk ++ message.bytes ++ rest.drop message.bytes.length).length = page.allocated
    rw [length_append, length_append, length_drop]
    omega
  · have single : total [message] = message.size := by simp [total, flat, Message.size]
    rw [total_append, single]
    show u64 (page.pushPosition + message.size) = page.popPosition + (total chunk + message.size)
    rw [u64_of_lt (by omega)]
    omega
  · have single : total [message] = message.size := by simp [total, flat, Message.size]
    rw [total_append, single]
    show u64 (page.bytes + message.size) = total chunk + message.size
    rw [held.bytes, u64_of_lt (by omega)]
  · rw [length_append]
    show u64 (page.items + 1) = chunk.length + 1
    rw [held.items, u64_of_lt (by omega)]

/-- The first message of a page can be read at its front. -/
theorem pageHolds_read (held : PageHolds page (message :: chunk)) :
    readU64 page.data page.popPosition = some message.size ∧
    slice page.data page.popPosition message.size = some message.bytes := by
  obtain ⟨popped, rest, data, position⟩ := held.data
  have shape : page.data = popped ++ (message.bytes ++ (flat chunk ++ rest)) := by
    rw [data]
    simp [flat]
  have header : 8 ≤ message.bytes.length := le_trans (by decide) message.header
  constructor
  · rw [shape, ← position, readU64_append _ _ _ header]
    exact message.sized
  · have inside : message.size ≤ (message.bytes ++ (flat chunk ++ rest)).length := by
      rw [length_append, Message.size]
      omega
    rw [shape, ← position, slice_append _ _ inside, Message.size, take_left]

/-- Counting the first message out leaves the others. -/
theorem pageHolds_pop (held : PageHolds page (message :: chunk)) (small : page.allocated < 2 ^ 64) :
    PageHolds (page.countOut message.size) chunk := by
  have fits := pageHolds_fits held
  have counted := length_le_total chunk
  have positive := message.size_pos
  obtain ⟨⟨popped, rest, data, position⟩, length, pushed, bytes, items⟩ := held
  rw [total_cons] at pushed bytes
  have moved : u64 (page.popPosition + message.size) = page.popPosition + message.size := u64_of_lt (by omega)
  refine ⟨⟨popped ++ message.bytes, rest, ?_, ?_⟩, length, ?_, ?_, ?_⟩
  · show page.data = _
    rw [data]
    simp [flat]
  · show _ = u64 (page.popPosition + message.size)
    rw [moved, length_append, position, Message.size]
  · show page.pushPosition = u64 (page.popPosition + message.size) + total chunk
    rw [moved, pushed, add_assoc]
  · show u64Sub page.bytes message.size = total chunk
    rw [u64Sub_of_le (by omega) (by omega)]
    omega
  · show u64Sub page.items 1 = chunk.length
    rw [items, length_cons, u64Sub_of_le (by omega) (by omega)]
    omega

end

/-- The pages occupy disjoint blocks of the address space. -/
structure Blocks (heap : Heap MessageQueuePage) : Prop where
  inside : ∀ address page, heap address = some page → address + (page.allocated + pageHeaderSize) ≤ 2 ^ 64
  apart : ∀ left right page other, heap left = some page → heap right = some other → left ≠ right →
    (block left page.allocated).Apart (block right other.allocated)

section

variable {address : Nat}

section

variable (blocks : Blocks heap)
include blocks

theorem blocks_small (stored : heap address = some page) : page.allocated < 2 ^ 64 := by
  have inside := blocks.inside address page stored
  rw [pageHeaderSize] at inside
  omega

/-- Pages keep their blocks, and only one block is new. -/
theorem blocks_change {after : Heap MessageQueuePage} (address : Nat) (cells : ∀ target cell, after target = some cell →
    (∃ earlier, heap target = some earlier ∧ earlier.allocated = cell.allocated) ∨
    target = address ∧ Fresh heap address cell.allocated) : Blocks after := by
  constructor
  · intro target cell now
    rcases cells target cell now with ⟨earlier, before, size⟩ | ⟨rfl, fresh⟩
    · exact size ▸ blocks.inside target earlier before
    · exact fresh.inside
  · intro left right first second storedFirst storedSecond different
    rcases cells left first storedFirst with ⟨earlier, before, size⟩ | ⟨rfl, fresh⟩ <;>
      rcases cells right second storedSecond with ⟨other, otherBefore, otherSize⟩ | ⟨rfl, otherFresh⟩
    · exact size ▸ otherSize ▸ blocks.apart left right earlier other before otherBefore different
    · exact size ▸ Span.apart_symm (otherFresh.apart left earlier before)
    · exact otherSize ▸ fresh.apart right other otherBefore
    · exact absurd rfl different

/-- Rewriting a page within its block. -/
theorem blocks_write (stored : heap address = some page)
    {changed : MessageQueuePage} (same : changed.allocated = page.allocated) : Blocks (heap.write address changed) := by
  refine blocks_change blocks address (fun target cell now => .inl ?_)
  by_cases here : target = address
  · subst here
    cases (write_here ..).symm.trans now
    exact ⟨page, stored, same.symm⟩
  · exact ⟨cell, (write_elsewhere heap changed here).symm.trans now, rfl⟩

/-- A fresh block joins the others. -/
theorem blocks_fresh (fresh : Fresh heap address page.allocated) : Blocks (heap.write address page) := by
  refine blocks_change blocks address (fun target cell now => ?_)
  by_cases here : target = address
  · subst here
    cases (write_here ..).symm.trans now
    exact .inr ⟨rfl, fresh⟩
  · exact .inl ⟨cell, (write_elsewhere heap page here).symm.trans now, rfl⟩

theorem blocks_release : Blocks (heap.release address) := by
  refine blocks_change blocks address (fun target cell now => ?_)
  by_cases here : target = address
  · rw [here, release_here] at now
    exact nomatch now
  · exact .inl ⟨cell, (release_elsewhere heap here).symm.trans now, rfl⟩

end

/-- The block of a listed page. -/
def blockOf (heap : Heap MessageQueuePage) (item : Nat × List Message) : Span :=
  ((heap item.1).map (fun page => block item.1 page.allocated)).getD ⟨0, 0⟩

theorem blockOf_eq {item : Nat × List Message} (stored : heap item.1 = some page) :
    blockOf heap item = block item.1 page.allocated := by
  rw [blockOf, stored]
  rfl

/-- The messages of a queue and the headers of its pages fit in its blocks. -/
theorem total_le_blocks {start stop : Nat} {items : List (Nat × List Message)}
    (strung : Strung MessageQueuePage.next PageHolds heap start items stop) :
    total (items.flatMap snd) + pageHeaderSize * items.length ≤
    (items.map (fun item => (blockOf heap item).count)).sum := by
  induction items generalizing start with
  | nil => exact Nat.zero_le _
  | cons item rest ih =>
    obtain ⟨address, chunk⟩ := item
    obtain ⟨_, _, page, stored, held, tail⟩ := strung
    have behind := ih tail
    have fits := pageHolds_fits held
    rw [held.pushed] at fits
    have count : (blockOf heap (address, chunk)).count = page.allocated + pageHeaderSize := by
      rw [blockOf_eq stored]
      rfl
    have whole : total (((address, chunk) :: rest).flatMap snd) =
        total chunk + total (rest.flatMap snd) := total_append ..
    rw [map_cons, sum_cons, length_cons, Nat.mul_succ]
    omega

/-- The bytes of a queue fit in one word. -/
theorem total_lt {start : Nat} {items : List (Nat × List Message)} (blocks : Blocks heap)
    (strung : Strung MessageQueuePage.next PageHolds heap start items 0) : total (items.flatMap snd) < 2 ^ 64 := by
  have distinct : (items.map fst).Nodup := chain_nodup (strung_segment strung)
  have live : ∀ item ∈ items, ∃ page, heap item.1 = some page := by
    intro item member
    obtain ⟨_, page, stored, _⟩ := strung_holds strung member
    exact ⟨page, stored⟩
  have apart : items.Pairwise (fun left right => (blockOf heap left).Apart (blockOf heap right)) := by
    refine (List.Pairwise.and_mem.mp (pairwise_map.mp distinct)).imp ?_
    rintro left right ⟨inLeft, inRight, different⟩
    obtain ⟨page, stored⟩ := live left inLeft
    obtain ⟨other, storedOther⟩ := live right inRight
    rw [blockOf_eq stored, blockOf_eq storedOther]
    exact blocks.apart _ _ page other stored storedOther different
  have inside : ∀ item ∈ items, (blockOf heap item).first + (blockOf heap item).count ≤ 2 ^ 64 := by
    intro item member
    obtain ⟨page, stored⟩ := live item member
    rw [blockOf_eq stored]
    exact blocks.inside item.1 page stored
  have fits := le_trans (total_le_blocks strung) (sum_count_le (blockOf heap) apart inside)
  cases items with
  | nil => exact Nat.two_pow_pos 64
  | cons item rest =>
    rw [length_cons, pageHeaderSize] at fits
    omega

end

/-- The pages between two, in order, with what they stand for. -/
structure Linked {β : Type} (holds : MessageQueuePage → β → Prop) (heap : Heap MessageQueuePage)
    (firstPage lastPage : Nat) (pages : List (Nat × β)) : Prop where
  strung : Strung MessageQueuePage.next holds heap firstPage pages 0
  last : lastPage = ((pages.map fst).getLast?).getD 0

/-- A queue holds a list of messages in its pages, none of which is empty. -/
structure QueueHolds (heap : Heap MessageQueuePage) (mq : MessageQueue)
    (pages : List (Nat × List Message)) (queue : List Message) : Prop extends
    Linked PageHolds heap mq.firstPage mq.lastPage pages where
  filled : ∀ page ∈ pages, page.2 ≠ []
  listed : queue = pages.flatMap snd
  items : mq.items = queue.length
  bytes : mq.bytes = total queue
  unlimited : mq.maxItems = 0 ∧ mq.maxBytes = 0

/-- A change of memory that concerns the listed pages and one new page only. -/
def Elsewhere {β : Type} (heap after : Heap MessageQueuePage) (pages : List (Nat × β)) (page : Nat) : Prop :=
  ∀ address, address ≠ page → address ∉ pages.map fst → after address = heap address

section

variable {β : Type} {holds : MessageQueuePage → β → Prop} {listed : List (Nat × β)} {size page : Nat}

/-- A new page is the last one. -/
theorem allocPage_linked (added : β) (linked : Linked holds heap mq.firstPage mq.lastPage listed) (nonzero : page ≠ 0)
    (unused : heap page = none)
    (relinked : ∀ cell value, holds cell value → holds { cell with next := page } value)
    (held : holds (blankPage (pageSizeFor mq.averageMessageSize size)) added) :
    ∃ after first, mqAllocPage heap mq size page = some (after, { mq with firstPage := first, lastPage := page }) ∧
      Linked holds after first page (listed ++ [(page, added)]) ∧
      after page = some (blankPage (pageSizeFor mq.averageMessageSize size)) ∧
      (Blocks heap → Fresh heap page (pageSizeFor mq.averageMessageSize size) → Blocks after) ∧
      Elsewhere heap after listed page := by
  obtain ⟨strung, last⟩ := linked
  obtain ⟨blank, isBlank⟩ := @exists_eq _ (blankPage (pageSizeFor mq.averageMessageSize size))
  have ends : blank.next = 0 := isBlank ▸ rfl
  have allocated : blank.allocated = pageSizeFor mq.averageMessageSize size := isBlank ▸ rfl
  rw [← isBlank] at held ⊢
  cases listed using reverseRecOn with
  | nil =>
    have first : mq.firstPage = 0 := strung
    have none : mq.lastPage = 0 := last
    refine ⟨heap.write page blank, page, by simp [mqAllocPage, first, none, isBlank], ⟨?_, rfl⟩, write_here ..,
      fun blocks fresh => blocks_fresh blocks (allocated ▸ fresh), fun _ different _ => write_elsewhere heap _ different⟩
    exact ⟨rfl, nonzero, blank, write_here .., held, ends⟩
  | append_singleton before item =>
    obtain ⟨address, value⟩ := item
    obtain rfl : mq.lastPage = address := by simpa using last
    obtain ⟨live, cell, stored, heldLast⟩ := strung_holds strung (mem_append_right before mem_cons_self)
    obtain ⟨different, newPage, extended⟩ := strung_extend strung nonzero unused
      (show MessageQueuePage.next { cell with next := page } = page from rfl) ends (relinked cell value heldLast) held
    have still : heap.write page blank mq.lastPage = some cell := (write_elsewhere heap _ different).trans stored
    refine ⟨_, mq.firstPage, ?_, ⟨extended, by simp⟩, newPage,
      fun blocks fresh => blocks_write (blocks_fresh blocks (allocated ▸ fresh)) still rfl, ?_⟩
    · simp [mqAllocPage, (strung_chain_last strung).1, live, ← isBlank, still]
    · intro target notPage unlisted
      rw [write_elsewhere _ _ (fun same => unlisted (by simp [same])), write_elsewhere _ _ notPage]

/-- The last page after the first one was taken away. -/
theorem last_behind {address : Nat} {others : List Nat} (absent : address ∉ others) :
    (if address = ((address :: others).getLast?).getD 0 then 0
    else ((address :: others).getLast?).getD 0) = (others.getLast?).getD 0 := by
  cases others using reverseRecOn with
  | nil => simp
  | append_singleton before last =>
    have atEnd : ((address :: (before ++ [last])).getLast?).getD 0 = last := by
      rw [← cons_append, getLast?_concat, getD_some]
    have different : address ≠ last := by
      rintro rfl
      exact absent (mem_append_right before mem_cons_self)
    rw [atEnd, if_neg different, getLast?_concat, getD_some]

section

variable {first : MessageQueuePage} (stored : heap mq.firstPage = some first)
include stored

/-- A first page without messages is given back. -/
theorem dropPage_emptied (emptied : first.items = 0) : dropPage heap mq = some (heap.release mq.firstPage,
    { mq with firstPage := first.next, lastPage := if mq.firstPage = mq.lastPage then 0 else mq.lastPage }) := by
  simp [dropPage, stored, emptied]

/-- A first page with messages stays. -/
theorem dropPage_remains (remains : first.items ≠ 0) : dropPage heap mq = some (heap, mq) := by
  simp [dropPage, stored, remains]

/-- The first page is counted down before it is looked at again. -/
theorem popMessage_eq (size : Nat) : popMessage heap mq size = dropPage (heap.write mq.firstPage (first.countOut size))
    { mq with bytes := u64Sub mq.bytes size, items := u64Sub mq.items 1 } := by
  rw [popMessage, stored]
  rfl

end

/-- Counting a message out of the first page takes the page away with its last message. -/
theorem popMessage_linked {first : MessageQueuePage} {address : Nat} {value : β} (changed : β)
    (linked : Linked holds heap mq.firstPage mq.lastPage ((address, value) :: listed)) (stored : heap mq.firstPage = some first)
    (held : holds (first.countOut size) changed) : ∃ after start stop, popMessage heap mq size = some (after,
        ⟨mq.maxItems, mq.maxBytes, u64Sub mq.bytes size, u64Sub mq.items 1, mq.averageMessageSize, start, stop⟩) ∧
      Linked holds after start stop (if u64Sub first.items 1 = 0 then listed else (address, changed) :: listed) ∧
      (Blocks heap → Blocks after) ∧ ∀ target, target ≠ address → after target = heap target := by
  obtain ⟨strung, last⟩ := linked
  have absent : address ∉ listed.map fst := (nodup_cons.mp (chain_nodup (strung_segment strung))).1
  obtain ⟨rfl, live, cell, found, _, tail⟩ := strung
  cases stored.symm.trans found
  -- The counted page is named, its counters are wrapped differences nobody should unfold.
  obtain ⟨counts, isCounts⟩ := @exists_eq _ (first.countOut size)
  have next : counts.next = first.next := isCounts ▸ rfl
  have items : counts.items = u64Sub first.items 1 := by rw [isCounts]; rfl
  have blocksNow : Blocks heap → Blocks (heap.write mq.firstPage counts) := fun blocks =>
    blocks_write blocks stored (isCounts ▸ rfl)
  have behind : Strung MessageQueuePage.next holds (heap.write mq.firstPage counts) counts.next listed 0 :=
    next ▸ strung_update tail absent
  rw [← isCounts] at held
  by_cases emptied : counts.items = 0
  · have lastBehind := last_behind absent
    rw [show ((mq.firstPage :: listed.map fst).getLast?).getD 0 = mq.lastPage from last.symm] at lastBehind
    rw [if_pos (items.symm.trans emptied)]
    refine ⟨(heap.write mq.firstPage counts).release mq.firstPage, counts.next,
      if mq.firstPage = mq.lastPage then 0 else mq.lastPage, ?_, ⟨strung_update behind absent, lastBehind⟩, fun blocks => blocks_release (blocksNow blocks), ?_⟩
    · rw [popMessage_eq stored, ← isCounts]
      exact dropPage_emptied (write_here ..) emptied
    · intro target different
      rw [release_elsewhere _ different, write_elsewhere _ _ different]
  · rw [if_neg (fun none => emptied (items.trans none))]
    refine ⟨heap.write mq.firstPage counts, mq.firstPage, mq.lastPage, ?_,
      ⟨⟨rfl, live, counts, write_here .., held, behind⟩, last⟩, blocksNow, ?_⟩
    · rw [popMessage_eq stored, ← isCounts]
      exact dropPage_remains (write_here ..) emptied
    · intro target different
      exact write_elsewhere heap _ different

end

section

variable {queue : List Message} {page : Nat}

theorem pageSizeFor_ge (average minSize : Nat) : minSize ≤ pageSizeFor average minSize := by
  rw [pageSizeFor]
  split <;> omega

/-- The state of a queue when a message is about to be written: the last page has
room, and all other pages are filled. -/
structure Roomy (heap : Heap MessageQueuePage) (mq : MessageQueue) (before : List (Nat × List Message))
    (chunk : List Message) (message : Message) : Prop where
  strung : Strung MessageQueuePage.next PageHolds heap mq.firstPage (before ++ [(mq.lastPage, chunk)]) 0
  filled : ∀ page ∈ before, page.2 ≠ []
  room : ∀ last, heap mq.lastPage = some last → last.pushPosition + message.size ≤ last.allocated

/-- Writing a message into the last page appends it to the queue. -/
theorem writeMessage_holds {before : List (Nat × List Message)} {chunk : List Message}
    (blocks : Blocks heap) (roomy : Roomy heap mq before chunk message)
    (items : mq.items = (before.flatMap snd ++ chunk).length)
    (bytes : mq.bytes = total (before.flatMap snd ++ chunk)) (unlimited : mq.maxItems = 0 ∧ mq.maxBytes = 0) :
    ∃ after mq', writeMessage heap mq message.bytes = some (after, mq') ∧ Blocks after ∧
    QueueHolds after mq' (before ++ [(mq.lastPage, chunk ++ [message])]) (before.flatMap snd ++ chunk ++ [message]) ∧
    ∀ address, address ≠ mq.lastPage → after address = heap address := by
  obtain ⟨_, last, stored, held⟩ := strung_holds roomy.strung (mem_append_right before mem_cons_self)
  have small := blocks_small blocks stored
  obtain ⟨data, written, heldNow⟩ := pageHolds_write held small (roomy.room last stored)
  have ended : last.next = 0 := by
    obtain ⟨_, _, _, _, cell, storedCell, _, stop⟩ := (strung_append before _).mp roomy.strung
    cases stored.symm.trans storedCell
    exact stop
  have strungNow : Strung MessageQueuePage.next PageHolds
      (heap.write mq.lastPage (last.countIn message.size data)) mq.firstPage
      (before ++ [(mq.lastPage, chunk ++ [message])]) 0 :=
    ended ▸ strung_last roomy.strung (strung_chain_last roomy.strung).2 heldNow
  have blocksNow : Blocks (heap.write mq.lastPage (last.countIn message.size data)) := blocks_write blocks stored rfl
  have bound := total_lt blocksNow strungNow
  have contents : (before ++ [(mq.lastPage, chunk ++ [message])]).flatMap snd =
      before.flatMap snd ++ chunk ++ [message] := by simp
  rw [contents] at bound
  have counted := length_le_total (before.flatMap snd ++ chunk ++ [message])
  have sizes := total_append (before.flatMap snd ++ chunk) [message]
  have lengths : (before.flatMap snd ++ chunk ++ [message]).length =
      (before.flatMap snd ++ chunk).length + 1 := length_append
  rw [total_cons message [], show total [] = 0 from rfl, add_zero] at sizes
  refine ⟨_, { mq with bytes := u64 (mq.bytes + message.size), items := u64 (mq.items + 1) }, ?_,
    blocksNow, ?_, ?_⟩
  · simp [writeMessage, stored, written, Message.size]
  · refine ⟨⟨strungNow, by simp⟩, ?_, contents.symm, ?_, ?_, unlimited⟩
    · intro item member
      rw [mem_append, mem_singleton] at member
      rcases member with inBefore | rfl
      · exact roomy.filled item inBefore
      · simp
    · show u64 (mq.items + 1) = _
      rw [items, u64_of_lt (by omega), lengths]
    · rw [bytes, u64_of_lt (by omega), sizes]
  · intro address different
    exact write_elsewhere heap _ different

/-- A new page is appended when the last one has no room. -/
theorem allocPage_roomy (blocks : Blocks heap) (holds : QueueHolds heap mq pages queue)
    (fresh : Fresh heap page (pageSizeFor mq.averageMessageSize message.size)) :
    ∃ after first, mqAllocPage heap mq message.size page =
    some (after, { mq with firstPage := first, lastPage := page }) ∧ Blocks after ∧
      Roomy after { mq with firstPage := first, lastPage := page } pages [] message ∧
      Elsewhere heap after pages page := by
  obtain ⟨after, first, allocated, linked, here, blocksNow, elsewhere⟩ := allocPage_linked [] holds.toLinked fresh.nonzero
    fresh.unused (fun _ _ held => { held with }) (pageHolds_blank _)
  refine ⟨after, first, allocated, blocksNow blocks fresh, ⟨linked.strung, holds.filled, ?_⟩, elsewhere⟩
  intro last stored
  cases here.symm.trans stored
  simpa [blankPage] using pageSizeFor_ge mq.averageMessageSize message.size

/-- Pushing a message appends it to the queue. -/
theorem pushMessage_holds (blocks : Blocks heap) (holds : QueueHolds heap mq pages queue) (message : Message)
    (fresh : Fresh heap page (pageSizeFor (nextAverage mq.averageMessageSize message.size) message.size)) :
    ∃ after mq' pages', pushMessage heap mq message.bytes message.size page = some (after, mq') ∧
    Blocks after ∧ QueueHolds after mq' pages' (queue ++ [message]) ∧ Elsewhere heap after pages page ∧
    ∀ address ∈ pages'.map fst, address = page ∨ address ∈ pages.map fst := by
  have copied : slice message.bytes 0 message.size = some message.bytes := by
    have whole := slice_append [] message.bytes (le_refl message.bytes.length)
    rwa [take_length] at whole
  obtain ⟨averaged, averagedEq⟩ := @exists_eq _
    { mq with averageMessageSize := nextAverage mq.averageMessageSize message.size }
  have holdsAveraged : QueueHolds heap averaged pages queue := by
    rw [averagedEq]
    exact { holds with }
  have freshAveraged : Fresh heap page (pageSizeFor averaged.averageMessageSize message.size) := averagedEq ▸ fresh
  by_cases lacking : needsPage heap averaged message.size = some true
  · -- A new page: it is empty and behind all others.
    obtain ⟨roomyHeap, first, allocated, roomyBlocks, roomy, elsewhere⟩ :=
      allocPage_roomy blocks holdsAveraged freshAveraged
    have listed : queue = pages.flatMap snd ++ [] := by
      rw [append_nil]
      exact holds.listed
    obtain ⟨after, mq', written, blocksNow, holdsNow, same⟩ := writeMessage_holds roomyBlocks roomy
      (listed ▸ holdsAveraged.items) (listed ▸ holdsAveraged.bytes) holdsAveraged.unlimited
    rw [← listed] at holdsNow
    refine ⟨after, mq', _, ?_, blocksNow, holdsNow, ?_, ?_⟩
    · simp [pushMessage, ← averagedEq, lacking, allocated, copied, written]
    · intro address notPage unlisted
      exact (same address notPage).trans (elsewhere address notPage unlisted)
    · intro address member
      rw [map_append, mem_append, map_singleton, mem_singleton] at member
      exact member.symm
  · cases pages using reverseRecOn with
    | nil =>
      have lastNull : averaged.lastPage = 0 := holdsAveraged.last
      exact absurd (by simp [needsPage, lastNull]) lacking
    | append_singleton before item =>
      obtain ⟨address, chunk⟩ := item
      obtain rfl : averaged.lastPage = address := by simpa using holdsAveraged.last
      obtain ⟨live, last, stored, held⟩ := strung_holds holdsAveraged.strung (mem_append_right before mem_cons_self)
      have fits := pageHolds_fits held
      have left := u64Sub_of_le fits (blocks_small blocks stored)
      have needs : needsPage heap averaged message.size = some (decide (last.allocated - last.pushPosition < message.size)) := by
        simp only [needsPage, if_neg live, stored, left, bind_eq_bind, bind_some]
      -- The last page has room.
      have enough : ¬ last.allocated - last.pushPosition < message.size := by
        intro lacks
        exact lacking (needs.trans (congrArg some (decide_eq_true lacks)))
      have roomy : Roomy heap averaged before chunk message := by
        refine ⟨holdsAveraged.strung, fun item member => holds.filled item (by simp [member]), ?_⟩
        intro found storedFound
        cases stored.symm.trans storedFound
        omega
      have listed : queue = before.flatMap snd ++ chunk := by
        rw [holds.listed]
        simp
      obtain ⟨after, mq', written, blocksNow, holdsNow, same⟩ := writeMessage_holds blocks roomy
        (listed ▸ holdsAveraged.items) (listed ▸ holdsAveraged.bytes) holdsAveraged.unlimited
      rw [← listed] at holdsNow
      refine ⟨after, mq', _, ?_, blocksNow, holdsNow, ?_, ?_⟩
      · simp [pushMessage, ← averagedEq, needs, enough, copied, written]
      · intro target _ unlisted
        refine same target ?_
        rintro rfl
        exact unlisted (by simp)
      · intro target member
        rw [map_append] at member ⊢
        exact .inr member

end

/-- The first page of a queue that is not empty begins with its first message. -/
theorem first_page {rest : List Message} (holds : QueueHolds heap mq pages (message :: rest)) :
    ∃ chunk others first, pages = (mq.firstPage, message :: chunk) :: others ∧
    rest = chunk ++ others.flatMap snd ∧ heap mq.firstPage = some first ∧
    PageHolds first (message :: chunk) ∧ mq.firstPage ≠ 0 ∧
    Strung MessageQueuePage.next PageHolds heap first.next others 0 := by
  have listed := holds.listed
  have filled := holds.filled
  have strung := holds.strung
  cases pages with
  | nil => exact absurd listed (by simp)
  | cons item others =>
    obtain ⟨address, chunk⟩ := item
    cases chunk with
    | nil => exact absurd rfl (filled (address, []) mem_cons_self)
    | cons head chunk =>
      obtain ⟨rfl, live, first, stored, held, tail⟩ := strung
      obtain ⟨rfl, same⟩ := cons.inj listed
      exact ⟨chunk, others, first, rfl, same, stored, held, live, tail⟩

/-- Counting the first message out leaves the rest of the queue. -/
theorem popMessage_holds {rest : List Message} (blocks : Blocks heap)
    (holds : QueueHolds heap mq pages (message :: rest)) :
    ∃ after mq' pages', popMessage heap mq message.size = some (after, mq') ∧ Blocks after ∧
    QueueHolds after mq' pages' rest ∧ Elsewhere heap after pages 0 ∧
    ∀ address ∈ pages'.map fst, address ∈ pages.map fst := by
  obtain ⟨chunk, others, first, rfl, rfl, stored, held, live, tail⟩ := first_page holds
  have small := blocks_small blocks stored
  have popped := pageHolds_pop held small
  have bound : total (message :: (chunk ++ others.flatMap snd)) < 2 ^ 64 := by
    have fits := total_lt blocks holds.strung
    rwa [← holds.listed] at fits
  have counted := length_le_total (message :: (chunk ++ others.flatMap snd))
  rw [total_cons] at bound counted
  rw [length_cons] at counted
  have items : u64Sub mq.items 1 = (chunk ++ others.flatMap snd).length := by
    rw [holds.items, length_cons, u64Sub_of_le (by omega) (by omega)]
    omega
  have bytes : u64Sub mq.bytes message.size = total (chunk ++ others.flatMap snd) := by
    rw [holds.bytes, total_cons, u64Sub_of_le (Nat.le_add_right ..) bound, Nat.add_sub_cancel_left]
  obtain ⟨after, start, stop, done, linked, blocksNow, same⟩ := popMessage_linked chunk holds.toLinked stored popped
  have left : u64Sub first.items 1 = chunk.length := popped.items
  rw [left] at linked
  have filled : ∀ item ∈ others, item.2 ≠ [] := fun item member => holds.filled item (mem_cons_of_mem _ member)
  have elsewhere : Elsewhere heap after ((mq.firstPage, message :: chunk) :: others) 0 := by
    intro address _ unlisted
    refine same address ?_
    rintro rfl
    exact unlisted mem_cons_self
  rw [done, items, bytes]
  cases chunk with
  | nil =>
    rw [if_pos length_nil] at linked
    exact ⟨after, _, others, rfl, blocksNow blocks, ⟨linked, filled, rfl, rfl, rfl, holds.unlimited⟩,
      elsewhere, fun _ member => mem_cons_of_mem _ member⟩
  | cons next chunk =>
    rw [if_neg (by simp)] at linked
    exact ⟨after, _, (mq.firstPage, next :: chunk) :: others, rfl, blocksNow blocks, ⟨linked,
      forall_mem_cons.mpr ⟨cons_ne_nil _ _, filled⟩, rfl, rfl, rfl, holds.unlimited⟩, elsewhere, fun _ member => member⟩

end Lfos.MessageQueues
