import Lfos.FlexArrayRefinement
import Lfos.MessageStorage

/-!
# The memory of a message queue

A queue holds blocks of its allocator: its pages, and the array of the functions that are
called when the queue is destroyed, which is a block for the array itself and one for its
buffer. The calls to the allocator are recorded, from the creation of the queue to its
end. Pages are taken by pushing and given back by popping; destroying a queue gives back
the remaining pages and the array itself. The buffer of the array is not given back.

A block comes from the allocator at an address that is not held by the queue; page
addresses are arguments as in `mqPush`.
-/

namespace Lfos.QueueMemory

open ByteLists FlexArrays Ledgers LinkedHeap MessageQueues Results Transitions Words List Option Function Prod

def eexist : Nat := 17

/-- The queues and their arrays of functions to call. -/
structure Queues where
  state : State
  notifyTeardown : Nat → Option FlexArray

/-- Size of a `mq_notifier`. -/
def notifierSize : Nat := 8

/-- Create a queue. `self` and `block` are what the allocator returns for the array. -/
def mqCreate (queues : Queues) (self : Nat) (block : Block) : Option (Nat × Queues × List Call) := do
  let (mq, state) ← MessageQueues.mqCreate queues.state
  let (array, calls) := newFlexarray notifierSize 0 self block
  some (mq, ⟨state, update queues.notifyTeardown mq (some array)⟩, calls)

/-- A function of the array; zero is the null pointer. -/
def notifierAt (array : FlexArray) (idx : Nat) : Except Fault Nat :=
  (flexarrayGet array (toBytes notifierSize 0) idx).map littleEndian

/-- The functions called for a queue, from one of the array on. -/
def notifiersFrom (array : FlexArray) (i : Nat) : Nat → Except Fault (List Nat)
  | 0 => .ok []
  | rest + 1 => do
    let notif ← notifierAt array i
    let later ← notifiersFrom array (i + 1) rest
    .ok (if notif = 0 then later else notif :: later)

/-- Give back the pages from one on. The successor is read before. -/
def releasePages (heap : Heap MessageQueuePage) (current : Nat) : Nat → Except Fault (Heap MessageQueuePage × List Call)
  | 0 => .error .endless
  | rounds + 1 =>
    if current = 0 then .ok (heap, [])
    else do
      let page ← copied (heap current)
      let (after, calls) ← releasePages (heap.release current) page.next rounds
      .ok (after, .dealloc current :: calls)

/-- Destroy a queue; the functions that were called, in order, are returned too. -/
def mqDestroy (rounds : Nat) (queues : Queues) (mq : Nat) : Except Fault (List Nat × Queues × List Call) :=
  match queues.state.mqs mq, queues.notifyTeardown mq with
  | some data, some array => do
    let called ← notifiersFrom array 0 array.count
    let (heap, calls) ← releasePages queues.state.heap data.firstPage rounds
    .ok (called, ⟨{ queues.state with mqs := update queues.state.mqs mq none, heap := heap },
        update queues.notifyTeardown mq none⟩,
      calls ++ deleteFlexarray array)
  | _, _ => .ok ([], queues, [])

/-- Whether a function is in the array, from one on. -/
def registeredFrom (array : FlexArray) (notifier i : Nat) : Nat → Except Fault Bool
  | 0 => .ok false
  | rest + 1 => do
    let existing ← notifierAt array i
    if existing = notifier then .ok true else registeredFrom array notifier (i + 1) rest

def mqNotifyTeardown (queues : Queues) (mq notifier : Nat) (block : Block) : Except Fault (Nat × Queues × List Call) :=
  match queues.state.mqs mq, queues.notifyTeardown mq with
  | some _, some array => do
    let registered ← registeredFrom array notifier 0 array.count
    if registered then .ok (eexist, queues, [])
    else
      let (_, appended, calls) ← flexarrayAppend array (toBytes notifierSize notifier) block
      .ok (0, { queues with notifyTeardown := update queues.notifyTeardown mq (some appended) }, calls)
  | _, _ => .ok (enoent, queues, [])

/-- The bytes behind its header a new page for a message has to have, if there has to be one. -/
def pageRequest (state : State) (mq : Nat) (message : List UInt8) : Option Nat := do
  let data ← state.mqs mq
  let size ← readU64 message 0
  if (data.maxBytes ≠ 0 ∧ data.maxBytes ≤ u64 (data.bytes + size)) ∨
      (data.maxItems ≠ 0 ∧ data.maxItems ≤ data.items) then none
  else
    let averaged := { data with averageMessageSize := nextAverage data.averageMessageSize size }
    let lacking ← needsPage state.heap averaged size
    if lacking then some (pageSizeFor averaged.averageMessageSize size) else none

/-- The calls of `mq_push`. -/
def pushCalls (state : State) (mq : Nat) (message : List UInt8) (page : Nat) : List Call :=
  match pageRequest state mq message with
  | some allocated => [.alloc page (u64 (allocated + pageHeaderSize))]
  | none => []

/-- The calls of `mq_pop`: the first page is given back with its last message. -/
def popCalls (state : State) (mq : Nat) (msg : List UInt8) : List Call :=
  match mqPeek state mq msg, state.mqs mq with
  | some (0, _), some data =>
    match state.heap data.firstPage with
    | some first => if u64Sub first.items 1 = 0 then [.dealloc data.firstPage] else []
    | none => []
  | _, _ => []

inductive Op where
  | push (message : List UInt8)
  | pop (msg : List UInt8)
  | peek (msg : List UInt8)
  | notifyTeardown (notifier : Nat)

/-- The queues and the calls to the allocator of one of them since its creation. -/
structure Account where
  queues : Queues
  ledger : List Call

/-- An operation on a queue with its calls. `page` and `block` are what the allocator
returns for a page and for a buffer. -/
def Op.perform (queues : Queues) (mq page : Nat) (block : Block) : Op → Except Fault (Queues × List Call)
  | .push message => do
    let (_, state) ← copied (mqPush queues.state mq message page)
    .ok ({ queues with state := state }, pushCalls queues.state mq message page)
  | .pop msg => do
    let (_, _, state) ← copied (mqPop queues.state mq msg)
    .ok ({ queues with state := state }, popCalls queues.state mq msg)
  | .peek msg => do
    let _ ← copied (mqPeek queues.state mq msg)
    .ok (queues, [])
  | .notifyTeardown notifier => do
    let (_, after, calls) ← mqNotifyTeardown queues mq notifier block
    .ok (after, calls)

/-- The allocator returns blocks that are not held, and a page as large as it is asked for. -/
structure Supplies (account : Account) (mq page : Nat) (block : Block) (op : Op) : Prop where
  newBuffer : GivenBack account.ledger block.address
  newPage : GivenBack account.ledger page
  fresh : ∀ message allocated, op = .push message → pageRequest account.queues.state mq message = some allocated →
    Fresh account.queues.state.heap page allocated

/-- A queue from its creation on. -/
def accounts (mq : Nat) : System Account Op where
  initial account := ∃ before self block, before.state.heap 0 = none ∧ self ≠ block.address ∧
    mqCreate before self block = some (mq, account.queues, account.ledger)
  step account op after := ∃ page block calls, Supplies account mq page block op ∧
    op.perform account.queues mq page block = .ok (after.queues, calls) ∧ after.ledger = account.ledger ++ calls

section

variable {heap after : Heap MessageQueuePage} {mq next : MessageQueue} {page size : Nat}

/-- The pages of a queue with the sizes of their blocks, in order. -/
structure Chained (heap : Heap MessageQueuePage) (mq : MessageQueue) (pages : Held) : Prop
    extends Linked (fun _ _ => True) heap mq.firstPage mq.lastPage pages where
  null : heap 0 = none

section

variable {pages : Held} (chained : Chained heap mq pages)
include chained

variable {message : List UInt8}

/-- Counting a message in leaves the pages as they are. -/
theorem writeMessage_chained
    (written : writeMessage heap mq message = some (after, next)) : Chained after next pages := by
  obtain ⟨last, stored, further⟩ := bind_eq_some_iff.mp written
  obtain ⟨data, _, returned⟩ := bind_eq_some_iff.mp further
  cases returned
  refine ⟨⟨strung_write chained.strung ?_, chained.last⟩, (write_elsewhere heap _ ?_).trans chained.null⟩
  · intro old same
    cases stored.symm.trans same
    exact ⟨rfl, fun _ _ => trivial⟩
  · intro null
    rw [← null, chained.null] at stored
    exact nomatch stored

/-- A new page is the last one. -/
theorem allocPage_chained (nonzero : page ≠ 0) (unused : heap page = none) (bytes : Nat)
    (allocated : mqAllocPage heap mq size page = some (after, next)) : Chained after next (pages ++ [(page, bytes)]) := by
  obtain ⟨_, _, again, linked, _, _, elsewhere⟩ := allocPage_linked bytes chained.toLinked nonzero unused
    (fun _ _ _ => trivial) trivial
  obtain ⟨rfl, rfl⟩ := mk.inj (some.inj (again.symm.trans allocated))
  refine ⟨linked, (elsewhere 0 nonzero.symm ?_).trans chained.null⟩
  intro member
  exact (segment_live (strung_segment chained.strung) member).1 rfl

/-- Pushing a message appends the page the allocator was asked for. -/
theorem pushMessage_chained {lacking : Bool} (fresh : lacking = true → page ≠ 0 ∧ heap page = none) (bytes : Nat)
    (needs : needsPage heap { mq with averageMessageSize := nextAverage mq.averageMessageSize size } size = some lacking)
    (pushed : pushMessage heap mq message size page = some (after, next)) :
    Chained after next (if lacking then pages ++ [(page, bytes)] else pages) := by
  have averaged : Chained heap { mq with averageMessageSize := nextAverage mq.averageMessageSize size } pages :=
    { chained with }
  rw [pushMessage, needs, bind_eq_bind, bind_some] at pushed
  cases lacking with
  | false =>
    obtain ⟨copied, _, written⟩ := bind_eq_some_iff.mp pushed
    exact writeMessage_chained averaged written
  | true =>
    obtain ⟨nonzero, unused⟩ := fresh rfl
    obtain ⟨⟨roomy, data⟩, made, further⟩ := bind_eq_some_iff.mp pushed
    obtain ⟨copied, _, written⟩ := bind_eq_some_iff.mp further
    exact writeMessage_chained (allocPage_chained averaged nonzero unused bytes made) written

/-- Counting a message out leaves the pages, or all but the first. -/
theorem popMessage_chained {first : MessageQueuePage}
    (stored : heap mq.firstPage = some first) (popped : popMessage heap mq size = some (after, next)) :
    ∃ bytes rest, pages = (mq.firstPage, bytes) :: rest ∧
    Chained after next (if u64Sub first.items 1 = 0 then rest else pages) := by
  have null := chained.null
  cases pages with
  | nil =>
    have none : mq.firstPage = 0 := chained.strung
    rw [none, null] at stored
    exact nomatch stored
  | cons page rest =>
    obtain ⟨address, bytes⟩ := page
    obtain ⟨_, _, _, again, linked, _, same⟩ := popMessage_linked bytes chained.toLinked stored trivial
    obtain ⟨rfl, rfl⟩ := mk.inj (some.inj (again.symm.trans popped))
    obtain ⟨rfl, live, _⟩ := chained.strung
    exact ⟨bytes, rest, rfl, linked, (same 0 live.symm).trans null⟩

end

/-- The pages of a chain are given back one after the other. -/
theorem releasePages_chain {addresses : List Nat} {start rounds : Nat} (chain : Chain MessageQueuePage.next heap start addresses)
    (enough : addresses.length < rounds) :
    ∃ after, releasePages heap start rounds = .ok (after, addresses.map Call.dealloc) := by
  induction addresses generalizing heap start rounds with
  | nil =>
    obtain rfl : start = 0 := chain
    obtain ⟨rounds, rfl⟩ := Nat.exists_eq_succ_of_ne_zero (Nat.ne_of_gt enough)
    exact ⟨heap, if_pos rfl⟩
  | cons address rest ih =>
    have absent : address ∉ rest := (nodup_cons.mp (chain_nodup chain)).1
    obtain ⟨rfl, live, page, stored, behind⟩ := chain
    obtain ⟨rounds, rfl⟩ := Nat.exists_eq_add_one.mpr (Nat.zero_lt_of_lt enough)
    obtain ⟨after, released⟩ := ih (segment_release behind absent) (Nat.lt_of_succ_lt_succ enough)
    refine ⟨after, ?_⟩
    rw [releasePages, if_neg live, stored]
    simp only [copied, bind, Except.bind, released]
    rfl

end

variable {account : Account} {mq : Nat} {data : MessageQueue} {array : FlexArray} {pages : Held}

section

variable {after : Account}

/-- The blocks of an array. -/
def arrayBlocks (array : FlexArray) : Held := [(array.self, arraySize), (array.data, array.bytes.length)]

/-- What is held is what the queue uses: its array and its pages. -/
structure Owns (mq : Nat) (account : Account) (data : MessageQueue) (array : FlexArray) (pages : Held) : Prop where
  queue : account.queues.state.mqs mq = some data
  notifiers : account.queues.notifyTeardown mq = some array
  chained : Chained account.queues.state.heap data pages
  represents : ∃ elements, Represents array elements
  memberSize : array.memberSize = notifierSize
  settles : Settles account.ledger (arrayBlocks array ++ pages)

variable {error : Nat} {block : Block} {next : State}

/-- A queue that is changed with its pages. -/
theorem Owns.changed (owns : Owns mq account data array pages) {heap : Heap MessageQueuePage} {changed : MessageQueue}
    {now : Held} {calls : List Call} (chained : Chained heap changed now)
    (settles : Settles (account.ledger ++ calls) (arrayBlocks array ++ now)) :
    Owns mq ⟨⟨{ account.queues.state with mqs := update account.queues.state.mqs mq (some changed), heap := heap },
      account.queues.notifyTeardown⟩, account.ledger ++ calls⟩ changed array now :=
  ⟨update_self .., owns.notifiers, chained, owns.represents, owns.memberSize, settles⟩

/-- A queue that is left as it is. -/
theorem Owns.idle (owns : Owns mq account data array pages) {calls : List Call} (none : calls = []) :
    Owns mq ⟨account.queues, account.ledger ++ calls⟩ data array pages := by
  rw [none, append_nil]
  exact owns

theorem create_owns {before : Queues} {self : Nat} (null : before.state.heap 0 = none) (apart : self ≠ block.address)
    (created : mqCreate before self block = some (mq, account.queues, account.ledger)) :
    ∃ data array, Owns mq account data array [] := by
  obtain ⟨⟨id, state⟩, numbered, returned⟩ := bind_eq_some_iff.mp created
  obtain ⟨_, same⟩ := ite_none_left_eq_some.mp numbered
  cases same
  simp only [some.injEq, mk.injEq] at returned
  obtain ⟨rfl, queues, ledger⟩ := returned
  refine ⟨⟨0, 0, 0, 0, 0, 0, 0⟩, (newFlexarray notifierSize 0 self block).1, ?_, ?_, ?_, ?_, ?_, ?_⟩
  · rw [← queues]
    exact update_self ..
  · rw [← queues]
    exact update_self ..
  · rw [← queues]
    exact ⟨⟨rfl, rfl⟩, null⟩
  · exact ⟨[], new_represents (by decide) (by decide) self block⟩
  · rfl
  · rw [← ledger]
    have first : Settles [.alloc self arraySize] [(self, arraySize)] := settles_nil.alloc not_mem_nil arraySize
    have absent : block.address ∉ [(self, arraySize)].map fst := by simpa using apart.symm
    exact (first.alloc absent 64).perm (.swap _ _ _)

/-- What a push does to the queue and to the ledger. -/
theorem push_cases {state : State} {page : Nat} (queue : state.mqs mq = some data)
    (pushed : mqPush state mq message page = some (error, next)) :
    (next = state ∧ pageRequest state mq message = none) ∨ ∃ size lacking heap changed,
    needsPage state.heap { data with averageMessageSize := nextAverage data.averageMessageSize size } size =
        some lacking ∧
      pushMessage state.heap data message size page = some (heap, changed) ∧
      next = { state with mqs := update state.mqs mq (some changed), heap := heap } ∧
      pageRequest state mq message =
        if lacking then some (pageSizeFor (nextAverage data.averageMessageSize size) size) else none := by
  rw [mqPush, queue] at pushed
  obtain ⟨size, read, further⟩ := bind_eq_some_iff.mp pushed
  split at further
  next limited =>
    left
    cases further
    refine ⟨rfl, ?_⟩
    simp only [pageRequest, queue, read, bind, Option.bind, if_pos limited]
  next unlimited =>
    right
    obtain ⟨⟨heap, changed⟩, stored, returned⟩ := bind_eq_some_iff.mp further
    cases returned
    obtain ⟨lacking, needs, _⟩ := bind_eq_some_iff.mp stored
    refine ⟨size, lacking, heap, changed, needs, stored, rfl, ?_⟩
    simp only [pageRequest, queue, read, bind, Option.bind, if_neg unlimited, needs]

theorem push_owns (owns : Owns mq account data array pages) {page : Nat} (supplies : Supplies account mq page block (.push message))
    (pushed : mqPush account.queues.state mq message page = some (error, next)) :
    ∃ data pages, Owns mq ⟨{ account.queues with state := next },
      account.ledger ++ pushCalls account.queues.state mq message page⟩ data array pages := by
  rcases push_cases owns.queue pushed with ⟨rfl, request⟩ | ⟨size, lacking, heap, changed, needs, stored, rfl, request⟩
  · exact ⟨data, pages, owns.idle (by rw [pushCalls, request])⟩
  · have fresh : lacking = true → Fresh account.queues.state.heap page
        (pageSizeFor (nextAverage data.averageMessageSize size) size) := by
      rintro rfl
      exact supplies.fresh message _ rfl request
    obtain ⟨bytes, isBytes⟩ := @exists_eq _ (u64 (pageSizeFor (nextAverage data.averageMessageSize size) size +
      pageHeaderSize))
    have chained := pushMessage_chained owns.chained (fun yes => ⟨(fresh yes).nonzero, (fresh yes).unused⟩) bytes needs
      stored
    refine ⟨changed, _, owns.changed chained ?_⟩
    rw [pushCalls, request]
    cases lacking with
    | false => simpa using owns.settles
    | true =>
      have absent := (owns.settles.givenBack_iff page).mp supplies.newPage
      have taken := owns.settles.alloc absent bytes
      rw [isBytes] at taken ⊢
      exact taken.perm (perm_append_singleton _ _).symm

/-- What a pop does to the queue and to the ledger. -/
theorem pop_cases {state : State} {msg buffer : List UInt8} (queue : state.mqs mq = some data)
    (popped : mqPop state mq msg = some (error, buffer, next)) : (next = state ∧ popCalls state mq msg = []) ∨
    ∃ size first heap changed, state.heap data.firstPage = some first ∧
    popMessage state.heap data size = some (heap, changed) ∧
    next = { state with mqs := update state.mqs mq (some changed), heap := heap } ∧
      popCalls state mq msg = if u64Sub first.items 1 = 0 then [.dealloc data.firstPage] else [] := by
  obtain ⟨⟨answer, peeked⟩, peek, further⟩ := bind_eq_some_iff.mp popped
  dsimp only at further
  split at further
  next failed =>
    left
    cases further
    refine ⟨rfl, ?_⟩
    cases error with
    | zero => exact absurd rfl failed
    | succ error => simp only [popCalls, peek]
  next done =>
    right
    obtain rfl : answer = 0 := Decidable.of_not_not done
    obtain ⟨other, again, further⟩ := bind_eq_some_iff.mp further
    cases queue.symm.trans again
    obtain ⟨size, _, further⟩ := bind_eq_some_iff.mp further
    obtain ⟨⟨heap, changed⟩, removed, returned⟩ := bind_eq_some_iff.mp further
    obtain ⟨_, _, rfl⟩ := returned
    obtain ⟨first, stored, _⟩ := bind_eq_some_iff.mp removed
    refine ⟨size, first, heap, changed, stored, removed, rfl, ?_⟩
    simp only [popCalls, peek, queue, stored]

section

variable (owns : Owns mq account data array pages)
include owns

theorem pop_owns {msg buffer : List UInt8} (popped : mqPop account.queues.state mq msg = some (error, buffer, next)) :
    ∃ data pages, Owns mq ⟨{ account.queues with state := next },
      account.ledger ++ popCalls account.queues.state mq msg⟩ data array pages := by
  rcases pop_cases owns.queue popped with ⟨rfl, calls⟩ | ⟨size, first, heap, changed, stored, removed, rfl, calls⟩
  · exact ⟨data, pages, owns.idle calls⟩
  · obtain ⟨bytes, rest, rfl, chained⟩ := popMessage_chained owns.chained stored removed
    refine ⟨changed, _, owns.changed chained ?_⟩
    rw [calls]
    split
    · exact (owns.settles.perm perm_middle).dealloc
    · rw [append_nil]
      exact owns.settles

/-- A function is appended to the array, in the same buffer or in a new one. -/
theorem append_owns {notifier idx : Nat}
    {appended : FlexArray} {calls : List Call} (new : GivenBack account.ledger block.address)
    (done : flexarrayAppend array (toBytes notifierSize notifier) block = .ok (idx, appended, calls)) :
    Owns mq ⟨{ account.queues with notifyTeardown := update account.queues.notifyTeardown mq (some appended) },
      account.ledger ++ calls⟩ data appended pages := by
  have settles := owns.settles
  obtain ⟨elements, represents⟩ := owns.represents
  have size : (toBytes notifierSize notifier).length = array.memberSize := by
    rw [toBytes_length, owns.memberSize]
  have sound : array.count < array.alloc ∨ array.grownAlloc * array.memberSize < 2 ^ 64 := by
    by_contra unsound
    obtain ⟨full, exceeds⟩ := not_or.mp unsound
    exact represents.append_fails (Nat.le_of_not_lt full) (Nat.le_of_not_lt exceeds) _ block _ done
  obtain ⟨_, _, again, held, member⟩ := represents.append size sound block
  cases again.symm.trans done
  have replaces := append_replaces done
  refine ⟨owns.queue, update_self .., owns.chained, ⟨_, held⟩, member.trans owns.memberSize, ?_⟩
  rcases replaces.blocks with ⟨rfl, buffer, length⟩ | ⟨rfl, buffer⟩
  · rw [append_nil, arrayBlocks, replaces.self, buffer, length]
    exact settles
  · have absent := (settles.givenBack_iff block.address).mp new
    have taken := settles.alloc absent appended.bytes.length
    have ordered : ((block.address, appended.bytes.length) :: (arrayBlocks array ++ pages)).Perm
        ((array.data, array.bytes.length) :: (arrayBlocks appended ++ pages)) := by
      rw [arrayBlocks, arrayBlocks, replaces.self, buffer]
      exact (reverse_perm [(block.address, appended.bytes.length), (array.self, arraySize),
        (array.data, array.bytes.length)]).symm.append_right pages
    have given := (taken.perm ordered).dealloc
    rwa [append_assoc] at given

theorem notify_owns {notifier : Nat} {next : Queues} {calls : List Call} (new : GivenBack account.ledger block.address)
    (done : mqNotifyTeardown account.queues mq notifier block = .ok (error, next, calls)) :
    ∃ array, Owns mq ⟨next, account.ledger ++ calls⟩ data array pages := by
  rw [mqNotifyTeardown, owns.queue, owns.notifiers] at done
  obtain ⟨registered, _, further⟩ := bind_ok done
  split at further
  · obtain ⟨_, rfl, rfl⟩ := further
    exact ⟨array, owns.idle rfl⟩
  · obtain ⟨⟨idx, appended, made⟩, stored, returned⟩ := bind_ok further
    obtain ⟨_, rfl, rfl⟩ := returned
    exact ⟨appended, append_owns owns new stored⟩

/-- Every operation leaves held what the queue uses. -/
theorem step_owns {op : Op} (taken : (accounts mq).step account op after) :
    ∃ data array pages, Owns mq after data array pages := by
  obtain ⟨page, block, calls, supplies, performed, ledger⟩ := taken
  obtain ⟨queues, calls'⟩ := after
  obtain rfl : calls' = account.ledger ++ calls := ledger
  cases op with
  | push message =>
    obtain ⟨⟨error, next⟩, pushed, returned⟩ := bind_ok performed
    cases returned
    obtain ⟨data, pages, owned⟩ := push_owns owns supplies (copied_ok pushed)
    exact ⟨data, array, pages, owned⟩
  | pop msg =>
    obtain ⟨⟨error, buffer, next⟩, popped, returned⟩ := bind_ok performed
    cases returned
    obtain ⟨data, pages, owned⟩ := pop_owns owns (copied_ok popped)
    exact ⟨data, array, pages, owned⟩
  | peek msg =>
    obtain ⟨_, _, returned⟩ := bind_ok performed
    cases returned
    exact ⟨data, array, pages, owns.idle rfl⟩
  | notifyTeardown notifier =>
    obtain ⟨⟨error, next, made⟩, notified, returned⟩ := bind_ok performed
    cases returned
    obtain ⟨array, owned⟩ := notify_owns owns supplies.newBuffer notified
    exact ⟨data, array, pages, owned⟩

end

theorem reachable_owns (reachable : (accounts mq).Reachable account) :
    ∃ data array pages, Owns mq account data array pages := by
  apply reachable.invariant
  · rintro start ⟨before, self, block, null, apart, created⟩
    obtain ⟨data, array, owns⟩ := create_owns null apart created
    exact ⟨data, array, [], owns⟩
  · rintro account op after ⟨data, array, pages, owns⟩ taken
    exact step_owns owns taken

end

/-- The functions of an array can be read. -/
theorem notifiersFrom_returns {elements : List (List UInt8)} (represents : Represents array elements)
    (memberSize : array.memberSize = notifierSize) (i rest : Nat) :
    ∃ called, notifiersFrom array i rest = .ok called := by
  induction rest generalizing i with
  | zero => exact ⟨[], rfl⟩
  | succ rest ih =>
    have size : (toBytes notifierSize 0).length = array.memberSize := by rw [toBytes_length, memberSize]
    obtain ⟨later, read⟩ := ih (i + 1)
    have found := represents.get size i
    obtain ⟨notif, isNotif⟩ := @exists_eq _ (littleEndian ((elements[i]?).getD (toBytes notifierSize 0)))
    refine ⟨if notif = 0 then later else notif :: later, ?_⟩
    rw [notifiersFrom, notifierAt, found]
    simp only [Except.map, bind, Except.bind, read, ← isNotif]

/-- Destroying a queue gives back its pages and its array. -/
theorem destroy_settles (owns : Owns mq account data array pages) :
    ∃ rounds called after calls, mqDestroy rounds account.queues mq = .ok (called, after, calls) ∧
    Settles (account.ledger ++ calls) [(array.data, array.bytes.length)] := by
  obtain ⟨elements, represents⟩ := owns.represents
  obtain ⟨called, read⟩ := notifiersFrom_returns represents owns.memberSize 0 array.count
  obtain ⟨heap, released⟩ := releasePages_chain (strung_segment owns.chained.strung) (Nat.lt_succ_self _)
  refine ⟨(pages.map fst).length + 1, called,
    ⟨{ account.queues.state with mqs := update account.queues.state.mqs mq none, heap := heap },
      update account.queues.notifyTeardown mq none⟩, (pages.map fst).map Call.dealloc ++ deleteFlexarray array,
    ?_, ?_⟩
  · rw [mqDestroy, owns.queue, owns.notifiers]
    simp only [bind, Except.bind, read, released]
  · have settles := owns.settles.perm perm_append_comm
    have returned := settles.dealloc_all.dealloc
    rw [List.map_map, ← append_assoc]
    exact returned

/-- After any operations on a queue it can be destroyed, and then every block the queue
took was given back as often as it was handed out if and only if it is not the buffer of
the array of functions, whose size the owner is still charged for. -/
theorem queue_gives_back_iff {mq : Nat} {account : Account} (reachable : (accounts mq).Reachable account) :
    ∃ array rounds called after calls, account.queues.notifyTeardown mq = some array ∧
      mqDestroy rounds account.queues mq = .ok (called, after, calls) ∧
      (∀ block, GivenBack (account.ledger ++ calls) block ↔ block ≠ array.data) ∧
      ∀ allocatedMemory < 2 ^ 64, (chargeAll allocatedMemory (account.ledger ++ calls)).map Prod.fst =
        some (u64 (allocatedMemory + array.bytes.length)) := by
  obtain ⟨data, array, pages, owns⟩ := reachable_owns reachable
  obtain ⟨rounds, called, after, calls, destroyed, settles⟩ := destroy_settles owns
  refine ⟨array, rounds, called, after, calls, owns.notifiers, destroyed, ?_, ?_⟩
  · intro block
    rw [settles.givenBack_iff block]
    simp
  · intro allocatedMemory small
    exact settles.charged small

/-- The first queue, as it is created. -/
def firstQueue : Account :=
  ⟨⟨⟨update initMq.mqs 1 (some ⟨0, 0, 0, 0, 0, 0, 0⟩), 2, initMq.heap⟩,
    update (fun _ => none) 1 (some noMember)⟩, [.alloc 100 40, .alloc 200 64]⟩

theorem firstQueue_initial : (accounts 1).initial firstQueue :=
  ⟨⟨initMq, fun _ => none⟩, 100, zeros, rfl, by decide, rfl⟩

/-- The first queue with a function to call. -/
def notifiedQueue : Account :=
  ⟨⟨firstQueue.queues.state, update firstQueue.queues.notifyTeardown 1 (some oneMember)⟩,
    [.alloc 100 40, .alloc 200 64]⟩

theorem notifiedQueue_step : (accounts 1).step firstQueue (.notifyTeardown 1) notifiedQueue := by
  refine ⟨400, ⟨300, fun _ => 0⟩, [], ?_, rfl, rfl⟩
  constructor
  · exact ⟨[(200, 64), (100, 40)], rfl, by decide⟩
  · exact ⟨[(200, 64), (100, 40)], rfl, by decide⟩
  · exact nofun

/-- The array of functions is given back, its buffer is not. -/
theorem queue_gives_back_notified : ∃ rounds called after calls,
    mqDestroy rounds notifiedQueue.queues 1 = .ok (called, after, calls) ∧
      GivenBack (notifiedQueue.ledger ++ calls) 100 := by
  obtain ⟨array, rounds, called, after, calls, notifiers, destroyed, returned, _⟩ :=
    queue_gives_back_iff (reachable_step (reachable_initial firstQueue_initial) notifiedQueue_step)
  obtain rfl : oneMember = array := some.inj notifiers
  exact ⟨rounds, called, after, calls, destroyed, (returned 100).mpr (by decide)⟩

/-- A queue that is destroyed at once leaves the buffer of its array. -/
theorem buffer_not_given_back : (accounts 1).initial firstQueue ∧ ∃ after,
    mqDestroy 1 firstQueue.queues 1 = .ok ([], after, [.dealloc 100]) ∧
    settleAll [] (firstQueue.ledger ++ [.dealloc 100]) = some [(200, 64)] ∧
    ¬ GivenBack (firstQueue.ledger ++ [.dealloc 100]) 200 := by
  refine ⟨firstQueue_initial, _, rfl, rfl, ?_⟩
  rintro ⟨held, settled, absent⟩
  obtain rfl : [(200, 64)] = held := some.inj settled
  exact absent mem_cons_self

end Lfos.QueueMemory
