import Lfos.BackedTables
import Lfos.QueueMemory
import Lfos.WordArrays

/-!
# Queues for hardware interrupts

For each of the 16 hardware interrupts there is an array of the queues that get a message
when it occurs. A process adds a queue to an array and takes it out again; when a queue is
destroyed, a function that was registered for it then takes it out of all arrays. Which
queues are enabled for an interrupt is traced beside the arrays.

Interrupt number 16 passes the range check but has no array, a queue can be added twice or
before it exists, and a queue that is not the last one of an array cannot be taken out.
Otherwise the arrays hold the enabled queues, each of them once. The queues are those of the array
they are kept in as long as no page of it is emptied that has pages behind it.
-/

namespace Lfos.InterruptQueues

open ByteLists FlexArrays Ledgers MessageQueues QueueMemory Results Transitions Words List Option Function

open Lfos.ThinArray (Changed Table View occupied occupied_in_place queueLayout word)

/-- The length of `interrupt_queues`. -/
def interruptCount : Nat := 16

abbrev Arrays := Nat → Option FlexArray

/-- The arrays and the queues. -/
structure Interrupts where
  interruptQueues : Arrays
  queues : Queues

/-- The array of an interrupt; there is none behind the last one. -/
def entry (arrays : Arrays) (interrupt : Nat) : Except Fault (Option FlexArray) :=
  if interrupt < interruptCount then .ok (arrays interrupt) else .error .outside

def interruptDelQueue (rounds : Nat) (arrays : Arrays) (interrupt mq : Nat) : Except Fault Arrays := do
  match ← entry arrays interrupt with
  | none => .ok arrays
  | some array =>
    let idx ← flexarrayFind array (toBytes wordSize mq)
    if idx = notFound then .ok arrays
    else
      let shorter ← flexarrayRemove rounds array idx
      .ok (update arrays interrupt (some shorter))

/-- Take a queue out of all arrays. -/
def interruptDelallQueue (rounds : Nat) (arrays : Arrays) (mq : Nat) : Except Fault Arrays :=
  (List.range interruptCount).foldlM (fun arrays i => interruptDelQueue rounds arrays i mq) arrays

/-- Where `interrupt_delall_queue` lies. -/
def interruptDelallQueueAddress : Nat := 1

/-- What the allocators return: for an array, for its first buffer, for its next buffer and
for the functions of a queue. -/
structure Supply where
  self : Nat
  first : Block
  larger : Block
  functions : Block

/-- Add a queue to an array. That there is no such queue is logged only. -/
def interruptAddQueue (interrupts : Interrupts) (interrupt mq : Nat) (supply : Supply) :
    Except Fault Interrupts := do
  let existing ← entry interrupts.interruptQueues interrupt
  let array := existing.getD (newFlexarray wordSize 0 supply.self supply.first).1
  let (_, queues, _) ← mqNotifyTeardown interrupts.queues mq interruptDelallQueueAddress supply.functions
  let (_, appended, _) ← flexarrayAppend array (toBytes wordSize mq) supply.larger
  .ok ⟨update interrupts.interruptQueues interrupt (some appended), queues⟩

/-- The queue a system call is about; `own` is the queue of the calling process. -/
def target (mq own : Nat) : Nat := if mq = 0 then own else mq

def scHandleHardwareInterruptNotify (rounds : Nat) (interrupts : Interrupts) (interrupt : UInt8) (enable : Bool)
    (mq own : Nat) (supply : Supply) : Except Fault (Nat × Interrupts) :=
  if 16 < interrupt.toNat then .ok (enoent, interrupts)
  else if enable then do
    let after ← interruptAddQueue interrupts interrupt.toNat (target mq own) supply
    .ok (0, after)
  else do
    let arrays ← interruptDelQueue rounds interrupts.interruptQueues interrupt.toNat (target mq own)
    .ok (0, { interrupts with interruptQueues := arrays })

/-- Destroy a queue and call the functions that were registered for it. -/
def destroyQueue (rounds : Nat) (interrupts : Interrupts) (mq : Nat) : Except Fault Interrupts := do
  let (called, queues, _) ← mqDestroy rounds interrupts.queues mq
  let arrays ← called.foldlM (fun arrays notif =>
    if notif = interruptDelallQueueAddress then interruptDelallQueue rounds arrays mq else .ok arrays)
    interrupts.interruptQueues
  .ok ⟨arrays, queues⟩

/-- The members of an array, from one on. -/
def queuesFrom (array : FlexArray) (i : Nat) : Nat → Except Fault (List Nat)
  | 0 => .ok []
  | rest + 1 => do
    let mq ← copied (readU64 array.bytes (u64 (i * wordSize)))
    let later ← queuesFrom array (i + 1) rest
    .ok (mq :: later)

/-- The queues that `interrupt_handler` pushes a message to, in order. -/
def interruptHandler (interrupts : Interrupts) (irq : Nat) : Except Fault (List Nat) := do
  match ← entry interrupts.interruptQueues irq with
  | none => .ok []
  | some array => queuesFrom array 0 array.count

inductive Event where
  | create
  | destroy (mq : Nat)
  | notify (interrupt : UInt8) (enable : Bool) (mq own : Nat)
  | push (mq : Nat) (message : List UInt8)
  | pop (mq : Nat) (msg : List UInt8)

/-- Queue numbers are words. -/
def Event.Words : Event → Prop
  | .destroy mq => mq < 2 ^ 64
  | .notify _ _ mq own => mq < 2 ^ 64 ∧ own < 2 ^ 64
  | _ => True

/-- One event. `page` is what the allocator of a queue returns for a page. -/
def Event.perform (rounds : Nat) (supply : Supply) (page : Nat) (interrupts : Interrupts) :
    Event → Except Fault Interrupts
  | .create => do
    let (_, queues, _) ← copied (mqCreate interrupts.queues supply.self supply.first)
    .ok { interrupts with queues := queues }
  | .destroy mq => destroyQueue rounds interrupts mq
  | .notify interrupt enable mq own => do
    let (_, after) ← scHandleHardwareInterruptNotify rounds interrupts interrupt enable mq own supply
    .ok after
  | .push mq message => do
    let (_, state) ← copied (mqPush interrupts.queues.state mq message page)
    .ok { interrupts with queues := { interrupts.queues with state := state } }
  | .pop mq msg => do
    let (_, _, state) ← copied (mqPop interrupts.queues.state mq msg)
    .ok { interrupts with queues := { interrupts.queues with state := state } }

/-- The arrays with the queues that are enabled for an interrupt. -/
structure Traced where
  interrupts : Interrupts
  enabled : Nat → Nat → Prop

/-- A queue is enabled until it is disabled or destroyed. -/
def Event.enables (enabled : Nat → Nat → Prop) : Event → Nat → Nat → Prop
  | .destroy mq => fun interrupt queue => enabled interrupt queue ∧ queue ≠ mq
  | .notify interrupt enable mq own => fun other queue =>
    if other = interrupt.toNat ∧ queue = target mq own then enable = true else enabled other queue
  | _ => enabled

def subscriptions : System Traced Event where
  initial traced := traced = ⟨⟨fun _ => none, ⟨initMq, fun _ => none⟩⟩, fun _ _ => False⟩
  step traced event after := event.Words ∧
    (∃ rounds supply page, event.perform rounds supply page traced.interrupts = .ok after.interrupts) ∧
    after.enabled = event.enables traced.enabled

/-- A queue is not in the array of an interrupt. -/
def Absent (arrays : Arrays) (interrupt mq : Nat) : Prop :=
  ∀ array, arrays interrupt = some array → flexarrayFind array (toBytes wordSize mq) = .ok notFound

/-- A queue is not in the array of an interrupt, or at its end. -/
def Removable (arrays : Arrays) (interrupt mq : Nat) : Prop :=
  ∀ array idx, arrays interrupt = some array → flexarrayFind array (toBytes wordSize mq) = .ok idx →
    idx = notFound ∨ array.count ≤ idx + 1

/-- An array has room for one more queue, or grows to a buffer whose size is a word. -/
def Growable (arrays : Arrays) (interrupt : Nat) : Prop :=
  ∀ array, arrays interrupt = some array → array.count < array.alloc ∨ array.grownAlloc * array.memberSize < 2 ^ 64

/-- The interrupt has an array if it passes the range check. A queue that is enabled exists
and is not in the array yet, one that is disabled or destroyed is not in it or at its end. -/
def Orderly (traced : Traced) : Event → Prop
  | .destroy mq => ∀ interrupt < interruptCount, Removable traced.interrupts.interruptQueues interrupt mq
  | .notify interrupt true mq own => interrupt.toNat ≠ 16 ∧ (interrupt.toNat < interruptCount →
      traced.interrupts.queues.state.mqs (target mq own) ≠ none ∧
      Absent traced.interrupts.interruptQueues interrupt.toNat (target mq own) ∧
      Growable traced.interrupts.interruptQueues interrupt.toNat)
  | .notify interrupt false mq own => interrupt.toNat ≠ 16 ∧ (interrupt.toNat < interruptCount →
      Removable traced.interrupts.interruptQueues interrupt.toNat (target mq own))
  | _ => True

/-- What an event calls on the array of queues. -/
def queueCall (traced : Traced) : Event → Option (ThinArray.Op Unit)
  | .create => some (.store (word traced.interrupts.queues.state.nextMq) ())
  | .destroy mq =>
    if (traced.interrupts.queues.state.mqs mq).isSome ∧ (traced.interrupts.queues.notifyTeardown mq).isSome then
      some (.clear (word mq))
    else none
  | _ => none

section

variable {array : FlexArray} {words : List Nat} (holds : HoldsWords array words)
include holds

theorem notifierAt_words {idx : Nat} (within : idx < words.length) : notifierAt array idx = .ok words[idx] := by
  have small := holds.small words[idx] (getElem_mem within)
  have read := holds.get idx
  rw [getElem?_eq_getElem within] at read
  exact (congrArg (Except.map littleEndian) read).trans (congrArg Except.ok (littleEndian_word small))

/-- The functions that are called are those of the array. -/
theorem notifiersFrom_words (i rest : Nat) (counted : i + rest = words.length) :
    notifiersFrom array i rest = .ok ((words.drop i).filter (fun word => word ≠ 0)) := by
  induction rest generalizing i with
  | zero =>
    rw [drop_eq_nil_of_le (by omega)]
    rfl
  | succ rest ih =>
    have within : i < words.length := by omega
    rw [notifiersFrom, notifierAt_words holds within, drop_eq_getElem_cons within, filter_cons]
    simp only [bind, Except.bind, ih (i + 1) (by omega)]
    by_cases null : words[i] = 0
    · simp [null]
    · simp [null]

theorem registeredFrom_words (notifier i rest : Nat) (counted : i + rest = words.length) :
    registeredFrom array notifier i rest = .ok (decide (notifier ∈ words.drop i)) := by
  induction rest generalizing i with
  | zero =>
    rw [drop_eq_nil_of_le (by omega)]
    rfl
  | succ rest ih =>
    have within : i < words.length := by omega
    rw [registeredFrom, notifierAt_words holds within, drop_eq_getElem_cons within]
    simp only [bind, Except.bind, ih (i + 1) (by omega)]
    by_cases same : words[i] = notifier
    · rw [if_pos same, decide_eq_true (same ▸ mem_cons_self)]
    · simp only [if_neg same, mem_cons, Ne.symm same, false_or]

theorem queuesFrom_words (i rest : Nat) (counted : i + rest = words.length) :
    queuesFrom array i rest = .ok (words.drop i) := by
  induction rest generalizing i with
  | zero =>
    rw [drop_eq_nil_of_le (by omega)]
    rfl
  | succ rest ih =>
    have within : i < words.length := by omega
    have read := holds.read (getElem?_eq_getElem within)
    rw [queuesFrom, read, drop_eq_getElem_cons within]
    simp only [copied, bind, Except.bind, ih (i + 1) (by omega)]

theorem HoldsWords.count : array.count = words.length := by
  rw [holds.represents.count, length_map]

end

section

variable {arrays : Arrays} {interrupt mq : Nat} {enabled : Nat → Prop}

/-- The array of an interrupt has some members; one that was never needed has none. -/
def Subscribers (members : List Nat) : Option FlexArray → Prop
  | none => members = []
  | some array => HoldsWords array members

/-- The array of an interrupt has the enabled queues, each of them once. -/
def Serves (array : Option FlexArray) (enabled : Nat → Prop) : Prop :=
  ∃ members : List Nat, members.Nodup ∧ (∀ mq, mq ∈ members ↔ enabled mq) ∧ Subscribers members array

theorem Serves.congr {array : Option FlexArray} {others : Nat → Prop} (serves : Serves array enabled)
    (same : ∀ mq, enabled mq ↔ others mq) : Serves array others := by
  obtain ⟨members, distinct, listed, subscribers⟩ := serves
  exact ⟨members, distinct, fun mq => (listed mq).trans (same mq), subscribers⟩

theorem idxOf?_split {front : List Nat} (absent : mq ∉ front) (rest : List Nat) :
    (front ++ mq :: rest).idxOf? mq = some front.length := by
  induction front with
  | nil => simp [idxOf?_cons]
  | cons head tail ih =>
    have different : (head == mq) = false := beq_false_of_ne (fun same => absent (same ▸ mem_cons_self))
    have later := ih (fun member => absent (mem_cons_of_mem _ member))
    simp [idxOf?_cons, different, later]

theorem entry_within (arrays : Arrays) (within : interrupt < interruptCount) :
    entry arrays interrupt = .ok (arrays interrupt) := if_pos within

section

variable (small : mq < 2 ^ 64)
include small

/-- A queue at the end of an array, or not in it, is taken out. -/
theorem del_returns (within : interrupt < interruptCount) (serves : Serves (arrays interrupt) enabled)
    (removable : Removable arrays interrupt mq) (rounds : Nat) :
    ∃ array, interruptDelQueue rounds arrays interrupt mq = .ok (update arrays interrupt array) ∧
      Serves array (fun queue => enabled queue ∧ queue ≠ mq) := by
  obtain ⟨members, distinct, listed, subscribers⟩ := serves
  have left : ∀ queue, queue ∈ members.erase mq ↔ enabled queue ∧ queue ≠ mq := by
    simp [distinct.mem_erase_iff, listed, and_comm]
  suffices erased : ∃ array, interruptDelQueue rounds arrays interrupt mq = .ok (update arrays interrupt array) ∧
      Subscribers (members.erase mq) array by
    obtain ⟨array, deleted, subscribers⟩ := erased
    exact ⟨array, deleted, _, distinct.erase mq, left, subscribers⟩
  have kept : update arrays interrupt (arrays interrupt) = arrays := update_eq_self ..
  rw [interruptDelQueue, entry_within arrays within]
  cases stored : arrays interrupt with
  | none =>
    rw [stored] at subscribers kept
    obtain rfl : members = [] := subscribers
    exact ⟨none, congrArg Except.ok kept.symm, rfl⟩
  | some array =>
    rw [stored] at subscribers kept
    have find := subscribers.find small
    by_cases member : mq ∈ members
    · obtain ⟨front, rest, rfl, absent⟩ := eq_append_cons_of_mem member
      rw [idxOf?_split absent, getD_some] at find
      have index := subscribers.index_lt (show front.length < (front ++ mq :: rest).length by simp)
      have atEnd := (removable array front.length stored find).resolve_left index
      rw [HoldsWords.count subscribers, length_append, length_cons] at atEnd
      obtain rfl : rest = [] := length_eq_zero_iff.mp (by omega)
      obtain ⟨shorter, removed, holds⟩ := subscribers.remove rounds
      refine ⟨some shorter, ?_, ?_⟩
      · simp only [bind, Except.bind, find, if_neg index, removed]
      · simpa [erase_append_right _ absent, Subscribers] using holds
    · rw [idxOf?_eq_none_iff.mpr member, getD_none] at find
      refine ⟨some array, ?_, ?_⟩
      · simp only [bind, Except.bind, find, if_true, kept]
      · simpa [erase_of_not_mem member] using subscribers

/-- The queue is taken out of all arrays. -/
theorem delall_returns {enabled : Nat → Nat → Prop}
    (serves : ∀ interrupt < interruptCount, Serves (arrays interrupt) (enabled interrupt))
    (removable : ∀ interrupt < interruptCount, Removable arrays interrupt mq) (rounds : Nat) :
    ∃ after, interruptDelallQueue rounds arrays mq = .ok after ∧
      ∀ interrupt < interruptCount, Serves (after interrupt) (fun queue => enabled interrupt queue ∧ queue ≠ mq) := by
  -- the arrays before the `n`-th are done, the others are as they were
  have done : ∀ n ≤ interruptCount, ∃ after,
      (range n).foldlM (fun arrays i => interruptDelQueue rounds arrays i mq) arrays = .ok after ∧
      (∀ interrupt < n, Serves (after interrupt) (fun queue => enabled interrupt queue ∧ queue ≠ mq)) ∧
      ∀ interrupt ≥ n, after interrupt = arrays interrupt := by
    intro n
    induction n with
    | zero => exact fun _ => ⟨arrays, rfl, nofun, fun _ _ => rfl⟩
    | succ n ih =>
      intro within
      obtain ⟨after, folded, taken, others⟩ := ih (by omega)
      have same := others n le_rfl
      have last := removable n within
      rw [Removable, ← same] at last
      obtain ⟨array, deleted, left⟩ := del_returns small within (same ▸ serves n within) last rounds
      refine ⟨update after n array, ?_, fun interrupt below => ?_, fun interrupt above => ?_⟩
      · rw [range_succ, foldlM_append, folded]
        exact (bind_pure _).trans deleted
      · rcases Nat.lt_succ_iff_lt_or_eq.mp below with earlier | rfl
        · simpa [Nat.ne_of_lt earlier] using taken interrupt earlier
        · simpa using left
      · rw [update_of_ne (by omega), others interrupt (by omega)]
  obtain ⟨after, folded, taken, _⟩ := done interruptCount le_rfl
  exact ⟨after, folded, taken⟩

theorem Serves.absent (serves : Serves (arrays interrupt) enabled) : Absent arrays interrupt mq ↔ ¬ enabled mq := by
  obtain ⟨members, _, listed, subscribers⟩ := serves
  rw [← listed, Absent]
  cases stored : arrays interrupt with
  | none =>
    rw [stored] at subscribers
    obtain rfl : members = [] := subscribers
    simp
  | some array =>
    rw [stored] at subscribers
    have find := subscribers.find small
    simp only [Option.some.injEq, forall_eq', find, Except.ok.injEq]
    cases found : members.idxOf? mq with
    | none => simpa using idxOf?_eq_none_iff.mp found
    | some idx =>
      have within := (idxOf?_eq_some_iff.mp found).1
      have member : mq ∈ members := not_imp_comm.mp idxOf?_eq_none_iff.mpr (by simp [found])
      simpa [member] using subscribers.index_lt within

/-- A queue that is not in an array is appended to it. -/
theorem append_returns (serves : Serves (arrays interrupt) enabled) (absent : Absent arrays interrupt mq)
    (growable : Growable arrays interrupt) (supply : Supply) :
    ∃ appended idx calls, flexarrayAppend ((arrays interrupt).getD (newFlexarray wordSize 0 supply.self supply.first).1)
      (toBytes wordSize mq) supply.larger = .ok (idx, appended, calls) ∧
      Serves (some appended) (fun queue => enabled queue ∨ queue = mq) := by
  have fresh := (serves.absent small).mp absent
  obtain ⟨members, distinct, listed, subscribers⟩ := serves
  suffices appends : ∃ appended calls, flexarrayAppend _ (toBytes wordSize mq) supply.larger =
      .ok (members.length, appended, calls) ∧ HoldsWords appended (members ++ [mq]) by
    obtain ⟨appended, calls, stored, holds⟩ := appends
    refine ⟨appended, members.length, calls, stored, members ++ [mq], ?_, by simp [listed], holds⟩
    rw [← concat_eq_append]
    exact distinct.concat (mt (listed mq).mp fresh)
  cases stored : arrays interrupt with
  | none =>
    rw [stored] at subscribers
    obtain rfl : members = [] := subscribers
    exact (new_words supply.self supply.first).append small (.inl (show 0 < 8 by decide)) supply.larger
  | some array =>
    rw [stored] at subscribers
    exact subscribers.append small (growable array stored) supply.larger

end

/-- The handler of an interrupt finds the queues of its array. -/
theorem handler_members {queues : Queues} (within : interrupt < interruptCount)
    (serves : Serves (arrays interrupt) enabled) : ∃ members, interruptHandler ⟨arrays, queues⟩ interrupt = .ok members ∧
      members.Nodup ∧ ∀ mq, mq ∈ members ↔ enabled mq := by
  obtain ⟨members, distinct, listed, subscribers⟩ := serves
  refine ⟨members, ?_, distinct, listed⟩
  simp only [interruptHandler, entry_within _ within, bind, Except.bind]
  cases stored : arrays interrupt with
  | none =>
    rw [stored] at subscribers
    exact congrArg Except.ok subscribers.symm
  | some array =>
    rw [stored] at subscribers
    exact queuesFrom_words subscribers 0 array.count ((zero_add _).trans (HoldsWords.count subscribers))

end

section

variable {queues after : Queues} {mq : Nat} {wanted : Prop}

/-- A queue that is wanted exists. For an existing queue the function that takes it out of the
arrays is registered, or none at all if it is not wanted. -/
def Ready (queues : Queues) (mq : Nat) (wanted : Prop) : Prop :=
  (wanted → queues.state.mqs mq ≠ none) ∧ (queues.state.mqs mq ≠ none →
    ∃ array words, queues.notifyTeardown mq = some array ∧ HoldsWords array words ∧
      (words = [interruptDelallQueueAddress] ∨ words = [] ∧ ¬ wanted))

theorem Ready.mono {still : Prop} (ready : Ready queues mq wanted)
    (known : after.state.mqs mq = none ↔ queues.state.mqs mq = none)
    (same : after.notifyTeardown mq = queues.notifyTeardown mq) (fewer : still → wanted) : Ready after mq still := by
  refine ⟨fun also => mt known.mp (ready.1 (fewer also)), fun present => ?_⟩
  obtain ⟨array, words, notifiers, holds, either⟩ := ready.2 (mt known.mpr present)
  exact ⟨array, words, same.trans notifiers, holds, either.imp_right (And.imp_right (mt fewer))⟩

/-- The function is registered for an existing queue, at most once. -/
theorem notify_registers (known : queues.state.mqs mq ≠ none) (ready : Ready queues mq wanted) (block : Block) :
    ∃ error after calls array,
    mqNotifyTeardown queues mq interruptDelallQueueAddress block = .ok (error, after, calls) ∧
    after.state = queues.state ∧ after.notifyTeardown = update queues.notifyTeardown mq (some array) ∧
    HoldsWords array [interruptDelallQueueAddress] := by
  obtain ⟨data, queue⟩ := ne_none_iff_exists'.mp known
  obtain ⟨array, words, notifiers, holds, either⟩ := ready.2 known
  have registered := registeredFrom_words holds interruptDelallQueueAddress 0 array.count
    ((zero_add _).trans (HoldsWords.count holds))
  rcases either with rfl | ⟨rfl, _⟩
  · refine ⟨eexist, queues, [], array, ?_, rfl, ?_, holds⟩
    · simp [mqNotifyTeardown, queue, notifiers, registered, bind, Except.bind]
    · rw [← notifiers, update_eq_self]
  · have room : array.count < array.alloc := by
      rw [HoldsWords.count holds]
      exact holds.represents.roomy
    obtain ⟨appended, calls, stored, held⟩ :=
      holds.append (show interruptDelallQueueAddress < 2 ^ 64 by decide) (.inl room) block
    refine ⟨0, { queues with notifyTeardown := update queues.notifyTeardown mq (some appended) }, calls,
      appended, ?_, rfl, rfl, held⟩
    have bytes : notifierSize = wordSize := rfl
    simp [mqNotifyTeardown, queue, notifiers, registered, bytes, stored, bind, Except.bind]

end

section

variable {interrupts after : Interrupts} {rounds page mq : Nat} {supply : Supply}

def queueView (state : State) : View := ⟨state.nextMq, occupied state.mqs⟩

/-- The same queues, whatever they hold. -/
def Alike (state next : State) : Prop := queueView next = queueView state

theorem Alike.none_iff {state next : State} (alike : Alike state next) (mq : Nat) :
    next.mqs mq = none ↔ state.mqs mq = none := by
  have same := congrFun (congrArg View.entries alike) mq
  simp only [queueView, occupied, comp_apply] at same
  rw [← map_eq_none_iff, same, map_eq_none_iff]

/-- Pushing neither makes nor ends a queue. -/
theorem push_alike {message : List UInt8}
    (performed : (Event.push mq message).perform rounds supply page interrupts = .ok after) :
    ∃ state, after = { interrupts with queues := { interrupts.queues with state := state } } ∧
      Alike interrupts.queues.state state := by
  obtain ⟨⟨error, state⟩, done, returned⟩ := bind_ok performed
  cases returned
  have pushed := copied_ok done
  refine ⟨state, rfl, ?_⟩
  cases queue : interrupts.queues.state.mqs mq with
  | none =>
    rw [mqPush, queue] at pushed
    cases pushed
    rfl
  | some data =>
    rcases push_cases queue pushed with ⟨rfl, _⟩ | ⟨_, _, heap, changed, _, _, rfl, _⟩
    · rfl
    · exact congrArg (View.mk _) (occupied_in_place queue changed)

theorem pop_alike {msg : List UInt8}
    (performed : (Event.pop mq msg).perform rounds supply page interrupts = .ok after) :
    ∃ state, after = { interrupts with queues := { interrupts.queues with state := state } } ∧
      Alike interrupts.queues.state state := by
  obtain ⟨⟨error, buffer, state⟩, done, returned⟩ := bind_ok performed
  cases returned
  have popped := copied_ok done
  refine ⟨state, rfl, ?_⟩
  cases queue : interrupts.queues.state.mqs mq with
  | none =>
    simp only [mqPop, mqPeek, queue] at popped
    obtain ⟨_, _, rfl⟩ : enoent = error ∧ msg = buffer ∧ interrupts.queues.state = state := by
      simpa [enoent] using popped
    rfl
  | some data =>
    rcases pop_cases queue popped with ⟨rfl, _⟩ | ⟨_, _, heap, changed, _, _, rfl, _⟩
    · rfl
    · exact congrArg (View.mk _) (occupied_in_place queue changed)

theorem notifyTeardown_state {queues after : Queues} {notifier error : Nat} {block : Block} {calls : List Call}
    (notified : mqNotifyTeardown queues mq notifier block = .ok (error, after, calls)) : after.state = queues.state := by
  rw [mqNotifyTeardown] at notified
  split at notified
  · obtain ⟨registered, _, further⟩ := bind_ok notified
    cases registered with
    | true =>
      cases further
      rfl
    | false =>
      obtain ⟨⟨_, appended, _⟩, _, returned⟩ := bind_ok further
      cases returned
      rfl
  · cases notified
    rfl

theorem notify_state {error own : Nat} {interrupt : UInt8} {enable : Bool}
    (notified : scHandleHardwareInterruptNotify rounds interrupts interrupt enable mq own supply = .ok (error, after)) :
    after.queues.state = interrupts.queues.state := by
  unfold scHandleHardwareInterruptNotify at notified
  split at notified
  · cases notified
    rfl
  · split at notified
    · obtain ⟨added, done, returned⟩ := bind_ok notified
      cases returned
      obtain ⟨existing, _, further⟩ := bind_ok done
      obtain ⟨⟨_, queues, _⟩, registered, further⟩ := bind_ok further
      obtain ⟨_, _, returned⟩ := bind_ok further
      cases returned
      exact notifyTeardown_state registered
    · obtain ⟨arrays, _, returned⟩ := bind_ok notified
      cases returned
      rfl

/-- What an event does to the table of queues. -/
theorem queues_changed {traced after : Traced} {event : Event} (taken : subscriptions.step traced event after) :
    Changed (queueView traced.interrupts.queues.state) (queueCall traced event)
      (queueView after.interrupts.queues.state) := by
  obtain ⟨interrupts, enabled⟩ := after
  obtain ⟨_, ⟨rounds, supply, page, performed⟩, rfl⟩ := taken
  cases event with
  | create =>
    obtain ⟨⟨mq, queues, calls⟩, created, returned⟩ := bind_ok performed
    cases returned
    obtain ⟨⟨id, state⟩, numbered, made⟩ := bind_eq_some_iff.mp (copied_ok created)
    obtain ⟨left, same⟩ := ite_none_left_eq_some.mp numbered
    cases same
    cases made
    exact .make left _
  | destroy mq =>
    obtain ⟨⟨called, queues, calls⟩, destroyed, further⟩ := bind_ok performed
    obtain ⟨arrays, _, returned⟩ := bind_ok further
    cases returned
    rw [mqDestroy] at destroyed
    split at destroyed
    · next data array stored notifiers =>
      obtain ⟨_, _, further⟩ := bind_ok destroyed
      obtain ⟨⟨heap, _⟩, _, returned⟩ := bind_ok further
      cases returned
      rw [queueCall, if_pos (by simp [stored, notifiers])]
      exact .clear stored
    · next missing =>
      cases destroyed
      rw [queueCall, if_neg]
      · exact .same
      · rintro ⟨stored, notifiers⟩
        obtain ⟨data, stored⟩ := isSome_iff_exists.mp stored
        obtain ⟨array, notifiers⟩ := isSome_iff_exists.mp notifiers
        exact missing data array stored notifiers
  | notify interrupt enable mq own =>
    obtain ⟨⟨error, changed⟩, notified, returned⟩ := bind_ok performed
    cases returned
    rw [notify_state notified]
    exact .same
  | push mq message =>
    obtain ⟨state, rfl, alike⟩ := push_alike performed
    exact .of_eq alike
  | pop mq msg =>
    obtain ⟨state, rfl, alike⟩ := pop_alike performed
    exact .of_eq alike

end

def queueTable : Table subscriptions where
  layout := queueLayout
  view traced := queueView traced.interrupts.queues.state
  call := queueCall
  initially := by
    rintro _ rfl
    exact ⟨rfl, by decide⟩
  changed _ _ _ := queues_changed

/-- Orderly events that keep the array of queues what the table says. -/
def Followed (traced : Traced) (event : Event) : Prop := queueTable.Kept traced event ∧ Orderly traced event

/-- A queue is enabled for an interrupt that has an array. -/
def Wanted (enabled : Nat → Nat → Prop) (mq : Nat) : Prop := ∃ interrupt < interruptCount, enabled interrupt mq

/-- The arrays hold the enabled queues, each of them once. They exist, and the function
that takes them out again is registered for them. -/
structure Follows (arrays : Arrays) (queues : Queues) (enabled : Nat → Nat → Prop) : Prop where
  served : ∀ interrupt < interruptCount, Serves (arrays interrupt) (enabled interrupt)
  ready : ∀ mq, Ready queues mq (Wanted enabled mq)

theorem target_lt {mq own : Nat} (words : mq < 2 ^ 64 ∧ own < 2 ^ 64) : target mq own < 2 ^ 64 := by
  rw [target]
  split
  · exact words.2
  · exact words.1

section

variable {arrays : Arrays} {queues : Queues} {enabled : Nat → Nat → Prop} (follows : Follows arrays queues enabled)
include follows

variable {mq own rounds : Nat} {after : Queues} {calls : List Call} {interrupt : UInt8} {enable : Bool}

/-- What neither makes nor ends a queue changes nothing. -/
theorem alike_follows {state : State} (alike : Alike queues.state state) :
    Follows arrays { queues with state := state } enabled where
  served := follows.served
  ready mq := (follows.ready mq).mono (alike.none_iff mq) rfl id

theorem create_follows {self : Nat} {block : Block} (numbered : (queueView queues.state).Numbered)
    (created : mqCreate queues self block = some (mq, after, calls)) : Follows arrays after enabled := by
  obtain ⟨⟨id, state⟩, numbers, returned⟩ := bind_eq_some_iff.mp created
  obtain ⟨left, same⟩ := ite_none_left_eq_some.mp numbers
  cases same
  obtain ⟨rfl, rfl, _⟩ := returned
  refine ⟨follows.served, fun mq => ?_⟩
  by_cases new : mq = queues.state.nextMq
  · subst new
    have unused : queues.state.mqs queues.state.nextMq = none := map_eq_none_iff.mp (numbered.2 left _ le_rfl)
    have unwanted := fun wanted => (follows.ready _).1 wanted unused
    exact ⟨fun _ => by simp, fun _ => ⟨_, [], update_self .., new_words self block, .inr ⟨rfl, unwanted⟩⟩⟩
  · exact (follows.ready mq).mono (by simp [new]) (update_of_ne new ..) (fun wanted => wanted)

/-- What is left when a queue is gone and taken out of the arrays. -/
theorem gone_follows {left : Arrays}
    (served : ∀ interrupt < interruptCount, Serves (left interrupt) (Event.enables enabled (.destroy mq) interrupt))
    (gone : after.state.mqs mq = none)
    (others : ∀ other ≠ mq, after.state.mqs other = queues.state.mqs other ∧
      after.notifyTeardown other = queues.notifyTeardown other) :
    Follows left after (Event.enables enabled (.destroy mq)) := by
  refine ⟨served, fun other => ?_⟩
  by_cases here : other = mq
  · subst here
    exact ⟨fun ⟨_, _, _, different⟩ => absurd rfl different, fun present => absurd gone present⟩
  · obtain ⟨sameQueue, sameFunctions⟩ := others other here
    refine (follows.ready other).mono (by rw [sameQueue]) sameFunctions ?_
    exact fun ⟨interrupt, within, now⟩ => ⟨interrupt, within, now.1⟩

/-- Destroying a queue takes it out of the arrays. -/
theorem destroy_follows (small : mq < 2 ^ 64) (removable : ∀ interrupt < interruptCount, Removable arrays interrupt mq)
    {called : List Nat} (destroyed : mqDestroy rounds queues mq = .ok (called, after, calls)) :
    ∃ left, destroyQueue rounds ⟨arrays, queues⟩ mq = .ok ⟨left, after⟩ ∧
      Follows left after (Event.enables enabled (.destroy mq)) := by
  have unserved (unwanted : ¬ Wanted enabled mq) : ∀ interrupt < interruptCount,
      Serves (arrays interrupt) (Event.enables enabled (.destroy mq) interrupt) := by
    refine fun interrupt within => (follows.served interrupt within).congr (fun queue => ⟨fun now => ⟨now, ?_⟩, And.left⟩)
    rintro rfl
    exact unwanted ⟨interrupt, within, now⟩
  have unfolded : destroyQueue rounds ⟨arrays, queues⟩ mq = (do
      let arrays ← called.foldlM (fun arrays notif =>
        if notif = interruptDelallQueueAddress then interruptDelallQueue rounds arrays mq else .ok arrays) arrays
      .ok ⟨arrays, after⟩) := by
    rw [destroyQueue, destroyed]
    rfl
  cases queue : queues.state.mqs mq with
  | none =>
    rw [mqDestroy, queue] at destroyed
    obtain ⟨rfl, rfl, _⟩ := destroyed
    have unwanted := fun wanted => (follows.ready mq).1 wanted queue
    exact ⟨arrays, unfolded, gone_follows follows (unserved unwanted) queue (fun _ _ => ⟨rfl, rfl⟩)⟩
  | some data =>
    obtain ⟨array, words, notifiers, holds, either⟩ := (follows.ready mq).2 (by simp [queue])
    have functions := notifiersFrom_words holds 0 array.count ((zero_add _).trans (HoldsWords.count holds))
    rw [mqDestroy, queue, notifiers] at destroyed
    obtain ⟨read, readFunctions, further⟩ := bind_ok destroyed
    obtain ⟨⟨heap, made⟩, _, returned⟩ := bind_ok further
    obtain ⟨rfl, rfl, _⟩ := returned
    cases functions.symm.trans readFunctions
    have others : ∀ other ≠ mq, update queues.state.mqs mq none other = queues.state.mqs other ∧
        update queues.notifyTeardown mq none other = queues.notifyTeardown other :=
      fun other different => ⟨update_of_ne different .., update_of_ne different ..⟩
    rcases either with rfl | ⟨rfl, unwanted⟩
    · obtain ⟨left, deleted, served⟩ := delall_returns small follows.served removable rounds
      refine ⟨left, unfolded.trans ?_, gone_follows follows served (update_self ..) others⟩
      simp [interruptDelallQueueAddress, deleted, bind, Except.bind, pure, Except.pure]
    · exact ⟨arrays, unfolded, gone_follows follows (unserved unwanted) (update_self ..) others⟩

/-- A system call for an interrupt that fails the range check. -/
theorem far_follows (far : 16 < interrupt.toNat) :
    Follows arrays queues (Event.enables enabled (.notify interrupt enable mq own)) := by
  have same : ∀ other < interruptCount, ∀ queue, enabled other queue ↔
      Event.enables enabled (.notify interrupt enable mq own) other queue := by
    intro other within queue
    have different : other ≠ interrupt.toNat := (within.trans far).ne
    simp [Event.enables, different]
  refine ⟨fun other within => (follows.served other within).congr (same other within), fun mq => ?_⟩
  refine (follows.ready mq).mono Iff.rfl rfl ?_
  exact fun ⟨other, within, now⟩ => ⟨other, within, (same other within mq).mpr now⟩

/-- The array of one interrupt gets or loses a queue. -/
theorem changed_follows {array : Option FlexArray}
    (served : Serves array (fun queue => if queue = target mq own then enable = true else enabled interrupt.toNat queue))
    (sameState : after.state = queues.state)
    (sameFunctions : ∀ queue ≠ target mq own, after.notifyTeardown queue = queues.notifyTeardown queue)
    (ready : Ready after (target mq own) (enable = true ∨ Wanted enabled (target mq own))) :
    Follows (update arrays interrupt.toNat array) after (Event.enables enabled (.notify interrupt enable mq own)) := by
  refine ⟨fun other within => ?_, fun queue => ?_⟩
  · by_cases here : other = interrupt.toNat
    · subst here
      simpa [Event.enables] using served
    · simpa [Event.enables, here] using follows.served other within
  · by_cases here : queue = target mq own
    · subst here
      refine ready.mono Iff.rfl rfl ?_
      rintro ⟨other, within, now⟩
      by_cases same : other = interrupt.toNat
      · exact .inl (by simpa [Event.enables, same] using now)
      · exact .inr ⟨other, within, by simpa [Event.enables, same] using now⟩
    · refine (follows.ready queue).mono (by rw [sameState]) (sameFunctions queue here) ?_
      exact fun ⟨other, within, now⟩ => ⟨other, within, by simpa [Event.enables, here] using now⟩

/-- The system call returns and keeps the arrays with the enabled queues. -/
theorem notify_follows {traced : Traced} (same : traced.interrupts = ⟨arrays, queues⟩)
    (words : (Event.notify interrupt enable mq own).Words) (orderly : Orderly traced (.notify interrupt enable mq own))
    (rounds : Nat) (supply : Supply) :
    ∃ error left after, scHandleHardwareInterruptNotify rounds ⟨arrays, queues⟩ interrupt enable mq own supply =
      .ok (error, ⟨left, after⟩) ∧ Follows left after (Event.enables enabled (.notify interrupt enable mq own)) := by
  by_cases far : 16 < interrupt.toNat
  · exact ⟨enoent, arrays, queues, if_pos far, far_follows follows far⟩
  · have inRange : interrupt.toNat ≠ 16 := by cases enable <;> exact orderly.1
    have within : interrupt.toNat < interruptCount := lt_of_le_of_ne (Nat.le_of_not_lt far) inRange
    have small := target_lt words
    have serves := follows.served interrupt.toNat within
    have ready := follows.ready (target mq own)
    cases enable with
    | true =>
      rw [Orderly, same] at orderly
      obtain ⟨known, absent, growable⟩ := orderly.2 within
      obtain ⟨appended, idx, calls, stored, served⟩ := append_returns small serves absent growable supply
      obtain ⟨error, after, made, array, notified, sameState, functions, holds⟩ :=
        notify_registers known ready supply.functions
      refine ⟨0, update arrays interrupt.toNat (some appended), after, ?_, ?_⟩
      · rw [scHandleHardwareInterruptNotify, if_neg far, if_pos rfl, interruptAddQueue, entry_within _ within]
        simp only [bind, Except.bind, notified, stored]
      · apply changed_follows follows (served.congr _) sameState
        · exact fun queue different => functions ▸ update_of_ne different ..
        · exact ⟨fun _ => sameState ▸ known, fun _ => ⟨array, _, functions ▸ update_self .., holds, .inl rfl⟩⟩
        · exact fun queue => by by_cases here : queue = target mq own <;> simp [here]
    | false =>
      rw [Orderly, same] at orderly
      obtain ⟨array, deleted, served⟩ := del_returns small within serves (orderly.2 within) rounds
      refine ⟨0, update arrays interrupt.toNat array, queues, ?_, ?_⟩
      · rw [scHandleHardwareInterruptNotify, if_neg far, deleted]
        rfl
      · apply changed_follows follows (served.congr _) rfl (fun _ _ => rfl)
        · simpa using ready
        · exact fun queue => by by_cases here : queue = target mq own <;> simp [here]

end

/-- Every orderly event keeps the arrays with the enabled queues. -/
theorem reachable_follows {traced : Traced} (reachable : (subscriptions.under Followed).Reachable traced) :
    Follows traced.interrupts.interruptQueues traced.interrupts.queues traced.enabled := by
  apply reachable.induct
  · rintro start rfl
    refine ⟨fun _ _ => ⟨[], nodup_nil, by simp, rfl⟩, fun _ => ⟨?_, fun present => absurd rfl present⟩⟩
    exact fun ⟨_, _, now⟩ => now.elim
  · rintro before event ⟨interrupts, enabled⟩ reached follows
      ⟨⟨_, orderly⟩, words, ⟨rounds, supply, page, performed⟩, rfl⟩
    cases event with
    | create =>
      obtain ⟨⟨mq, queues, calls⟩, created, returned⟩ := bind_ok performed
      cases returned
      exact create_follows follows (queueTable.numbered (reachable_of_under reached)) (copied_ok created)
    | destroy mq =>
      obtain ⟨⟨called, queues, calls⟩, destroyed, _⟩ := bind_ok performed
      obtain ⟨left, returned, followsAfter⟩ := destroy_follows follows words orderly destroyed
      cases returned.symm.trans performed
      exact followsAfter
    | notify interrupt enable mq own =>
      obtain ⟨⟨error, after⟩, notified, returned⟩ := bind_ok performed
      cases returned
      obtain ⟨_, _, _, done, followsAfter⟩ := notify_follows follows rfl words orderly rounds supply
      cases done.symm.trans notified
      exact followsAfter
    | push mq message =>
      obtain ⟨state, rfl, alike⟩ := push_alike performed
      exact alike_follows follows alike
    | pop mq msg =>
      obtain ⟨state, rfl, alike⟩ := pop_alike performed
      exact alike_follows follows alike

/-- After orderly events that keep the array of queues, the array has the queues of the table, and
the handler of an interrupt pushes one message to each queue that is enabled for it, all of which
exist, and to no other. Orderly system calls return, and so does the destruction of a queue, after
which the queue is in no array. -/
theorem subscriptions_follow_queues {traced : Traced} (reachable : (subscriptions.under Followed).Reachable traced) :
    queueTable.Backed traced ∧ (∀ irq < interruptCount, ∃ queues, interruptHandler traced.interrupts irq = .ok queues ∧ queues.Nodup ∧
      (∀ mq, mq ∈ queues ↔ traced.enabled irq mq) ∧
      ∀ mq ∈ queues, traced.interrupts.queues.state.mqs mq ≠ none) ∧
    (∀ interrupt enable mq own rounds supply, (Event.notify interrupt enable mq own).Words →
      Orderly traced (.notify interrupt enable mq own) → ∃ result,
        scHandleHardwareInterruptNotify rounds traced.interrupts interrupt enable mq own supply = .ok result) ∧
    ∀ mq rounds result, mq < 2 ^ 64 → Orderly traced (.destroy mq) →
      mqDestroy rounds traced.interrupts.queues mq = .ok result →
      ∃ after, destroyQueue rounds traced.interrupts mq = .ok after ∧
        ∀ interrupt < interruptCount, Absent after.interruptQueues interrupt mq := by
  have follows := reachable_follows reachable
  refine ⟨queueTable.backed (fun _ _ => And.left) reachable, ?_, ?_, ?_⟩
  · intro irq within
    obtain ⟨members, handled, distinct, listed⟩ := handler_members within (follows.served irq within)
    refine ⟨members, handled, distinct, listed, ?_⟩
    exact fun mq member => (follows.ready mq).1 ⟨irq, within, (listed mq).mp member⟩
  · intro interrupt enable mq own rounds supply words orderly
    obtain ⟨_, _, _, done, _⟩ := notify_follows follows rfl words orderly rounds supply
    exact ⟨_, done⟩
  · rintro mq rounds ⟨called, queues, calls⟩ small orderly destroyed
    obtain ⟨left, returned, followsAfter⟩ := destroy_follows follows small orderly destroyed
    refine ⟨_, returned, fun interrupt within => ((followsAfter.served interrupt within).absent small).mpr ?_⟩
    exact fun now => now.2 rfl

def someSupply : Supply := ⟨100, zeros, zeros, zeros⟩

/-- One queue, not enabled for any interrupt. -/
def disabledQueue : Traced := ⟨⟨fun _ => none, firstQueue.queues⟩, fun _ _ => False⟩

theorem disabledQueue_step :
    subscriptions.step ⟨⟨fun _ => none, ⟨initMq, fun _ => none⟩⟩, fun _ _ => False⟩ .create disabledQueue :=
  ⟨trivial, ⟨0, someSupply, 0, rfl⟩, rfl⟩

/-- The queue is enabled for the first interrupt. -/
def enabledQueue : Traced :=
  ⟨⟨update (fun _ => none) 0 (some oneMember), notifiedQueue.queues⟩,
    Event.enables disabledQueue.enabled (.notify 0 true 1 1)⟩

theorem enabledQueue_step : subscriptions.step disabledQueue (.notify 0 true 1 1) enabledQueue :=
  ⟨⟨by decide, by decide⟩, ⟨0, someSupply, 0, rfl⟩, rfl⟩

/-- The queue is enabled for the first interrupt once more. -/
def twiceEnabledQueue : Traced :=
  ⟨⟨update enabledQueue.interrupts.interruptQueues 0
      (some ⟨100, 8, 2, 8, 200, toBytes 8 1 ++ toBytes 8 1 ++ List.replicate 48 0⟩), notifiedQueue.queues⟩,
    Event.enables enabledQueue.enabled (.notify 0 true 1 1)⟩

theorem twiceEnabledQueue_step : subscriptions.step enabledQueue (.notify 0 true 1 1) twiceEnabledQueue :=
  ⟨⟨by decide, by decide⟩, ⟨0, someSupply, 0, rfl⟩, rfl⟩

/-- A queue that is enabled gets the message. -/
theorem subscriptions_follow_one_queue : interruptHandler enabledQueue.interrupts 0 = .ok [1] ∧
    ∃ queues, interruptHandler enabledQueue.interrupts 0 = .ok queues ∧ queues.Nodup := by
  have orderly : Orderly disabledQueue (.notify 0 true 1 1) :=
    ⟨by decide, fun _ => ⟨nofun, fun _ stored => absurd stored nofun, fun _ stored => absurd stored nofun⟩⟩
  have kept : queueTable.Kept ⟨⟨fun _ => none, ⟨initMq, fun _ => none⟩⟩, fun _ _ => False⟩ .create := by
    intro op called
    cases called
    exact show 50 < 2 ^ 64 by decide
  have created : (subscriptions.under Followed).Reachable disabledQueue :=
    reachable_under_step (reachable_initial rfl) disabledQueue_step ⟨kept, trivial⟩
  have reachable := reachable_under_step created enabledQueue_step ⟨nofun, orderly⟩
  obtain ⟨queues, handled, distinct, _⟩ := (subscriptions_follow_queues reachable).2.1 0 (by decide)
  exact ⟨rfl, queues, handled, distinct⟩

/-- A queue that is enabled twice gets every message twice, and interrupt 16 leaves the
array of arrays. -/
theorem subscriptions_fail : subscriptions.Reachable twiceEnabledQueue ∧
    interruptHandler twiceEnabledQueue.interrupts 0 = .ok [1, 1] ∧
    ∀ rounds enable mq own supply,
      scHandleHardwareInterruptNotify rounds twiceEnabledQueue.interrupts 16 enable mq own supply =
        .error .outside := by
  have created := reachable_step (reachable_initial rfl) disabledQueue_step
  refine ⟨reachable_step (reachable_step created enabledQueue_step) twiceEnabledQueue_step, rfl, ?_⟩
  intro rounds enable mq own supply
  cases enable with
  | true | false => rfl

end Lfos.InterruptQueues
