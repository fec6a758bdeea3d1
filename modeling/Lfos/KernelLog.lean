import Lfos.Formatting
import Lfos.LinkedHeap

/-!
# The kernel log

Log messages are kept in pages that are linked from the oldest to the newest, each of them
behind its own terminator. A message that does not fit the last page begins a new one; when
the pages are too many, the oldest one is dropped and its terminators are taken off the
count of messages. The first page is part of the kernel and never given back.

The end of a page is moved by the length of the message, whatever was written of it. A
message that is longer than a page is cut off when it is written, but the end lies behind
the page then, and the room that is left wraps to a large number.

The frame buffer console and the serial port, which get the message too, are not part of
this module.
-/

namespace Lfos.KernelLog

open ByteLists FlexArrays Formatting LinkedHeap Results Transitions Words List
open Prod (fst snd)

def loggingPageSize : Nat := 4080

/-- Size of the messages of a page; two links and the end are in front of them. -/
def messagesSize : Nat := loggingPageSize - 18

/-- Size of all pages, as it is configured by default. -/
def logMaxBuffer : Nat := 4 * 1024 * 1024

structure LoggingPage where
  prev : Nat
  next : Nat
  currentEnd : Nat
  messages : List UInt8

structure Log where
  heap : Heap LoggingPage
  logFirst : Nat
  logLast : Nat
  logPageCount : Nat
  logCount : Nat

/-- A page without messages. -/
def blankPage (prev : Nat) : LoggingPage := ⟨prev, 0, 0, List.replicate messagesSize 0⟩

/-- Where the page lies that is used before there is memory. -/
def logInitialPage : Nat := 1

def initialLog : Log :=
  ⟨Heap.write (fun _ => none) logInitialPage (blankPage 0), logInitialPage, logInitialPage, 1, 0⟩

/-- Reduction of an unsigned 16-bit result. -/
def u16 (value : Nat) : Nat := value % 2 ^ 16

/-- The number of terminators in a page. -/
def terminators (page : LoggingPage) : Except Fault Nat := do
  let text ← copied (slice page.messages 0 page.currentEnd)
  .ok (text.count 0)

/-- Drop the oldest page. -/
def dropFirst (log : Log) : Except Fault Log := do
  let page ← copied (log.heap log.logFirst)
  let next ← copied (log.heap page.next)
  let count ← terminators page
  let cleared := log.heap.write page.next { next with prev := 0 }
  .ok { log with
    heap := if log.logFirst = logInitialPage then cleared else cleared.release log.logFirst
    logFirst := page.next
    logPageCount := u64Sub log.logPageCount 1
    logCount := u64Sub log.logCount count }

/-- Drop pages as long as they are too many. -/
def dropPages : Nat → Log → Except Fault Log
  | 0, _ => .error .endless
  | rounds + 1, log =>
    if logMaxBuffer < u64 (log.logPageCount * loggingPageSize) then do
      let dropped ← dropFirst log
      dropPages rounds dropped
    else .ok log

/-- Begin a new page, which the allocator returned. -/
def logAppendPage (rounds : Nat) (log : Log) (page : Nat) : Except Fault Log := do
  let added := log.heap.write page (blankPage log.logLast)
  let last ← copied (added log.logLast)
  dropPages rounds { log with
    heap := added.write log.logLast { last with next := page }
    logLast := page
    logPageCount := u64 (log.logPageCount + 1) }

/-- The characters of a string in memory, without its terminator. -/
structure CString where
  chars : List UInt8
  terminated : 0 ∉ chars

/-- The length of a message with level, two tabs and terminator. -/
def entryLength (component message : CString) : Nat := u64 (component.chars.length + message.chars.length + 4)

/-- Begin a new page for a message that does not fit the last one. -/
def roomFor (rounds : Nat) (log : Log) (page len : Nat) : Except Fault Log := do
  let last ← copied (log.heap log.logLast)
  if u64Sub messagesSize last.currentEnd < len then logAppendPage rounds log page else .ok log

/-- The format of a message. -/
def entryFormat (level : UInt8) (component message : CString) : List Directive :=
  [.char level, .plain 9, .string component.chars, .plain 9, .string message.chars]

def logAppend (rounds : Nat) (log : Log) (page : Nat) (level : UInt8) (component message : CString) :
    Except Fault Log := do
  let len := entryLength component message
  let roomy ← roomFor rounds log page len
  let last ← copied (roomy.heap roomy.logLast)
  let messages ← kvsnprintf last.messages last.currentEnd (u64Sub messagesSize last.currentEnd)
    (entryFormat level component message)
  .ok { roomy with
    heap := roomy.heap.write roomy.logLast { last with messages := messages, currentEnd := u16 (last.currentEnd + len) }
    logCount := u64 (roomy.logCount + 1) }

/-- A message as it is kept, without its terminator. -/
abbrev Line := List UInt8

/-- Messages behind each other with their terminators. -/
def flat (lines : List Line) : List UInt8 := lines.flatMap (fun line => line ++ [0])

/-- The log and all messages that were appended. -/
structure Traced where
  log : Log
  appended : List Line

structure Entry where
  level : UInt8
  component : CString
  message : CString

def Entry.line (entry : Entry) : Line := text (entryFormat entry.level entry.component entry.message)

def logs : System Traced Entry where
  initial traced := traced = ⟨initialLog, []⟩
  step traced entry after := ∃ rounds page, page ≠ 0 ∧ traced.log.heap page = none ∧
    logAppend rounds traced.log page entry.level entry.component entry.message = .ok after.log ∧
    after.appended = traced.appended ++ [entry.line]

/-- The pages from the first to the last are counted, none of them ends behind its
messages, and they hold the newest of the appended messages, which are counted too. -/
structure Consistent (log : Log) (appended : List Line) : Prop where
  pages : ∃ cells : List (Nat × LoggingPage), Strung LoggingPage.next (· = ·) log.heap log.logFirst cells 0 ∧
    (cells.map fst).getLast? = some log.logLast ∧
    (∀ cell ∈ cells, cell.2.currentEnd ≤ messagesSize ∧ cell.2.messages.length = messagesSize) ∧
    log.logPageCount = cells.length ∧
    ∃ kept, kept <:+ appended ∧ log.logCount = kept.length ∧
      cells.flatMap (fun cell => cell.2.messages.take cell.2.currentEnd) = flat kept

/-- A message fits a page, and its level is a character. -/
def Fits (_ : Traced) (entry : Entry) : Prop :=
  entry.level ≠ 0 ∧ entry.component.chars.length + entry.message.chars.length + 4 ≤ messagesSize

variable {entry : Entry}

section

/-- A page holds messages up to its end. -/
structure PageHolds (page : LoggingPage) (lines : List Line) : Prop where
  stored : ∃ rest, page.messages = flat lines ++ rest
  ends : page.currentEnd = (flat lines).length
  length : page.messages.length = messagesSize

variable {page : LoggingPage} {lines : List Line}

/-- The level, two tabs, the two texts and the terminator. -/
def Entry.size (entry : Entry) : Nat := entry.component.chars.length + entry.message.chars.length + 4

theorem line_length (entry : Entry) : (entry.line ++ [0]).length = entry.size := by
  simp only [Entry.line, Entry.size, text, entryFormat, flatMap_cons, flatMap_nil, Directive.text, length_append,
    length_singleton, length_nil]
  omega

theorem entryLength_eq (short : entry.size < 2 ^ 16) :
    entryLength entry.component entry.message = entry.size := u64_of_lt (short.trans (by decide))

theorem flat_append (left right : List Line) : flat (left ++ right) = flat left ++ flat right := flatMap_append

theorem flat_singleton (line : Line) : flat [line] = line ++ [0] := by simp [flat]

theorem pageHolds_blank (prev : Nat) : PageHolds (blankPage prev) [] :=
  ⟨⟨_, (nil_append _).symm⟩, rfl, length_replicate⟩

theorem pageHolds_end (holds : PageHolds page lines) : page.currentEnd ≤ messagesSize := by
  obtain ⟨rest, stored⟩ := holds.stored
  have length := holds.length
  rw [stored, length_append, ← holds.ends] at length
  omega

theorem length_le_flat (lines : List Line) : lines.length ≤ (flat lines).length := by
  induction lines with
  | nil => exact Nat.zero_le _
  | cons line rest ih =>
    have whole : flat (line :: rest) = (line ++ [0]) ++ flat rest := flatMap_cons
    rw [whole, length_append, length_append, length_singleton, length_cons]
    omega

/-- Lines without terminators have one each in a page. -/
theorem count_flat (clean : ∀ line ∈ lines, 0 ∉ line) : (flat lines).count 0 = lines.length := by
  induction lines with
  | nil => rfl
  | cons line rest ih =>
    have whole : flat (line :: rest) = (line ++ [0]) ++ flat rest := flatMap_cons
    have later := ih (forall_mem_cons.mp clean).2
    have none : line.count 0 = 0 := count_eq_zero_of_not_mem (clean line mem_cons_self)
    rw [whole, count_append, count_append, count_singleton_self, length_cons]
    omega

variable (holds : PageHolds page lines)
include holds

/-- The text of a page. -/
theorem pageHolds_text : page.messages.take page.currentEnd = flat lines := by
  obtain ⟨rest, stored⟩ := holds.stored
  rw [stored, holds.ends, take_left]

theorem pageHolds_terminators (clean : ∀ line ∈ lines, 0 ∉ line) : terminators page = .ok lines.length := by
  have inside : 0 + page.currentEnd ≤ page.messages.length := by
    rw [holds.length, zero_add]
    exact pageHolds_end holds
  have text : slice page.messages 0 page.currentEnd = some (flat lines) := by
    rw [slice, if_pos inside, drop_zero, pageHolds_text holds]
  rw [terminators, text]
  simp only [copied, bind, Except.bind, count_flat clean]

/-- The room a page has left. -/
theorem pageHolds_room : u64Sub messagesSize page.currentEnd = messagesSize - page.currentEnd :=
  u64Sub_of_le (pageHolds_end holds) (by decide)

/-- A message that fits is written behind the others. -/
theorem pageHolds_write (fits : page.currentEnd + entry.size ≤ messagesSize) :
    ∃ messages, kvsnprintf page.messages page.currentEnd (u64Sub messagesSize page.currentEnd)
      (entryFormat entry.level entry.component entry.message) = .ok messages ∧
    PageHolds { page with
      messages := messages
      currentEnd := u16 (page.currentEnd + entryLength entry.component entry.message) } (lines ++ [entry.line]) := by
  obtain ⟨rest, stored⟩ := holds.stored
  have length := holds.length
  rw [stored, length_append, ← holds.ends] at length
  have size : messagesSize < 2 ^ 16 := by decide
  have line := line_length entry
  have ends : (flat (lines ++ [entry.line])).length = page.currentEnd + entry.size := by
    rw [flat_append, flat_singleton, length_append, ← holds.ends, line]
  rw [length_append, length_singleton] at line
  have written := kvsnprintf_fits holds.ends.symm (show rest.length = messagesSize - page.currentEnd by omega)
    (by omega) (show entry.line.length + 1 ≤ rest.length by omega)
  rw [← stored, ← Entry.line] at written
  refine ⟨_, (pageHolds_room holds).symm ▸ written, ⟨rest.drop (entry.line.length + 1), ?_⟩, ?_, ?_⟩
  · rw [flat_append, flat_singleton]
  · rw [ends, entryLength_eq (by omega)]
    exact Nat.mod_eq_of_lt (by omega)
  · simp only [length_append, length_drop, length_singleton, ← holds.ends]
    omega

end

/-- The log holds messages in its pages. -/
structure Holds (log : Log) (pages : List (Nat × List Line)) : Prop where
  strung : Strung LoggingPage.next PageHolds log.heap log.logFirst pages 0
  last : (pages.map fst).getLast? = some log.logLast
  pageCount : log.logPageCount = pages.length
  count : log.logCount = (pages.flatMap snd).length
  clean : ∀ page ∈ pages, ∀ line ∈ page.2, 0 ∉ line

section

variable {log : Log} {pages : List (Nat × List Line)} {page : Nat}

/-- The messages of a log are no more than the characters of its pages. -/
theorem lines_bound {heap : Heap LoggingPage} {start : Nat}
    (strung : Strung LoggingPage.next PageHolds heap start pages 0) :
    (pages.flatMap snd).length ≤ pages.length * loggingPageSize := by
  have smaller : messagesSize ≤ loggingPageSize := by decide
  induction pages generalizing start with
  | nil => exact Nat.zero_le _
  | cons item rest ih =>
    obtain ⟨address, lines⟩ := item
    obtain ⟨_, _, cell, _, holds, behind⟩ := strung
    have few := length_le_flat lines
    have ends := pageHolds_end holds
    rw [holds.ends] at ends
    have later := ih behind
    rw [flatMap_cons, length_append, length_cons, Nat.add_mul]
    dsimp only
    omega

/-- The oldest page is dropped with its messages. -/
theorem dropFirst_holds {address : Nat} {lines : List Line} {rest : List (Nat × List Line)}
    (holds : Holds log ((address, lines) :: rest)) (more : rest ≠ [])
    (few : (rest.length + 1) * loggingPageSize < 2 ^ 64) : ∃ after, dropFirst log = .ok after ∧ Holds after rest := by
  have strung := holds.strung
  have count := holds.count
  have bound := lines_bound strung
  have absent : address ∉ rest.map fst := (nodup_cons.mp (chain_nodup (strung_segment strung))).1
  obtain ⟨start, live, cell, stored, pageHolds, behind⟩ := strung
  have terminated := pageHolds_terminators pageHolds (holds.clean (address, lines) mem_cons_self)
  rw [← start] at stored absent
  obtain ⟨next, storedNext⟩ : ∃ next, log.heap cell.next = some next := by
    obtain ⟨second, others, rfl⟩ := exists_cons_of_ne_nil more
    obtain ⟨startNext, _, next, storedNext, _⟩ := behind
    exact ⟨next, startNext ▸ storedNext⟩
  have cleared : Strung LoggingPage.next PageHolds (log.heap.write cell.next { next with prev := 0 }) cell.next rest 0 := by
    apply strung_write behind
    intro old storedOld
    cases storedNext.symm.trans storedOld
    exact ⟨rfl, fun value held => { held with }⟩
  have left : u64Sub log.logPageCount 1 = rest.length := by
    have word := lt_of_le_of_lt (Nat.le_mul_of_pos_right _ (by decide)) few
    rw [holds.pageCount, length_cons, u64Sub_of_le (Nat.le_add_left 1 _) word, Nat.add_sub_cancel]
  have leftLines : u64Sub log.logCount lines.length = (rest.flatMap snd).length := by
    have total : log.logCount < 2 ^ 64 := count ▸ bound.trans_lt few
    rw [flatMap_cons, length_append] at count
    rw [u64Sub_of_le (by rw [count]; exact Nat.le_add_right ..) total, count, Nat.add_sub_cancel_left]
  refine ⟨⟨if log.logFirst = logInitialPage then log.heap.write cell.next { next with prev := 0 }
    else (log.heap.write cell.next { next with prev := 0 }).release log.logFirst, cell.next, log.logLast,
    u64Sub log.logPageCount 1, u64Sub log.logCount lines.length⟩, ?_, ?_⟩
  · simp only [dropFirst, stored, storedNext, terminated, copied, bind, Except.bind]
  · constructor
    · split
      · exact cleared
      · exact strung_update cleared absent
    · rw [← holds.last, map_cons, getLast?_cons_of_ne_nil (mt map_eq_nil_iff.mp more)]
    · exact left
    · exact leftLines
    · exact (forall_mem_cons.mp holds.clean).2

/-- The last page of a log. -/
theorem Holds.split (holds : Holds log pages) : ∃ before lines last, pages = before ++ [(log.logLast, lines)] ∧
    log.heap log.logLast = some last ∧ PageHolds last lines ∧ last.next = 0 ∧ log.logLast ∉ before.map fst := by
  have strung := holds.strung
  have last := holds.last
  cases pages using List.reverseRecOn with
  | nil => exact nomatch last
  | append_singleton before item =>
    obtain ⟨address, lines⟩ := item
    obtain rfl : log.logLast = address := by simpa using last.symm
    obtain ⟨middle, _, rfl, _, cell, stored, held, null⟩ := (strung_append before _).mp strung
    exact ⟨before, lines, cell, rfl, stored, held, null, (strung_chain_last strung).2⟩

/-- A page is appended. -/
theorem link_holds (holds : Holds log pages) (nonzero : page ≠ 0) (unused : log.heap page = none)
    (few : pages.length + 1 < 2 ^ 64) (rounds : Nat) :
    ∃ linked, logAppendPage rounds log page = dropPages rounds linked ∧ Holds linked (pages ++ [(page, [])]) := by
  have more : (pages ++ [(page, ([] : List Line))]).length = pages.length + 1 := length_append
  obtain ⟨before, lines, cell, rfl, stored, held, _⟩ := holds.split
  obtain ⟨blank, isBlank⟩ := @exists_eq _ (blankPage log.logLast)
  have blankEnds : blank.next = 0 := by
    rw [isBlank]
    rfl
  have relinked : PageHolds { cell with next := page } lines := { held with }
  obtain ⟨different, _, linked⟩ := strung_extend holds.strung nonzero unused rfl blankEnds relinked
    (isBlank ▸ pageHolds_blank _)
  have still : log.heap.write page blank log.logLast = some cell := (write_elsewhere _ _ different).trans stored
  refine ⟨⟨(log.heap.write page blank).write log.logLast { cell with next := page }, log.logFirst, page,
    u64 (log.logPageCount + 1), log.logCount⟩, ?_, ?_⟩
  · simp only [logAppendPage, ← isBlank, still, copied, bind, Except.bind]
  · constructor
    · exact linked
    · simp
    · rw [holds.pageCount, u64_of_lt few, more]
    · simpa using holds.count
    · exact forall_mem_append.mpr ⟨holds.clean, forall_mem_singleton.mpr (forall_mem_nil _)⟩

/-- Pages that are too many by one at most. -/
theorem dropPages_holds (holds : Holds log pages) (two : 2 ≤ pages.length)
    (limited : pages.length * loggingPageSize ≤ logMaxBuffer + loggingPageSize) (rounds : Nat) :
    ∃ after kept, dropPages (rounds + 2) log = .ok after ∧ Holds after kept ∧ kept <:+ pages ∧ kept ≠ [] ∧
    kept.length * loggingPageSize ≤ logMaxBuffer := by
  have small : logMaxBuffer + loggingPageSize < 2 ^ 64 := by decide
  have size : u64 (log.logPageCount * loggingPageSize) = pages.length * loggingPageSize := by
    rw [holds.pageCount]
    exact u64_of_lt (by omega)
  have nonempty : pages ≠ [] := ne_nil_of_length_pos (lt_of_lt_of_le Nat.zero_lt_two two)
  by_cases tooMany : logMaxBuffer < pages.length * loggingPageSize
  · obtain ⟨⟨address, lines⟩, rest, rfl⟩ := exists_cons_of_ne_nil nonempty
    rw [length_cons] at two limited
    have more : rest ≠ [] := ne_nil_of_length_pos (by omega)
    obtain ⟨after, dropped, left⟩ := dropFirst_holds holds more (by omega)
    have fewer : rest.length * loggingPageSize ≤ logMaxBuffer := by
      rw [add_mul] at limited
      omega
    have stop : ¬ logMaxBuffer < u64 (after.logPageCount * loggingPageSize) := by
      rw [left.pageCount, u64_of_lt (by omega)]
      omega
    refine ⟨after, rest, ?_, left, suffix_cons .., more, fewer⟩
    rw [dropPages, size, if_pos tooMany, dropped]
    exact if_neg stop
  · refine ⟨log, pages, ?_, holds, suffix_rfl, nonempty, by omega⟩
    rw [dropPages, size, if_neg tooMany]

theorem entry_clean (character : entry.level ≠ 0) : 0 ∉ entry.line := by
  have tab : (0 : UInt8) ≠ 9 := by decide
  simp [Entry.line, text, entryFormat, Directive.text, character.symm, tab, entry.component.terminated,
    entry.message.terminated]

/-- Characters that are written into the last page are a message. -/
theorem logAppend_ok {before : Log} {rounds : Nat} {last : LoggingPage} {messages : List UInt8}
    (made : roomFor rounds before page (entryLength entry.component entry.message) = .ok log)
    (stored : log.heap log.logLast = some last)
    (written : kvsnprintf last.messages last.currentEnd (u64Sub messagesSize last.currentEnd)
      (entryFormat entry.level entry.component entry.message) = .ok messages) :
    logAppend rounds before page entry.level entry.component entry.message = .ok { log with
      heap := log.heap.write log.logLast { last with
        messages := messages
        currentEnd := u16 (last.currentEnd + entryLength entry.component entry.message) }
      logCount := u64 (log.logCount + 1) } := by
  rw [logAppend, made]
  simp only [copied, bind, Except.bind, stored, written]

section

variable (holds : Holds log pages) (few : pages.length * loggingPageSize ≤ logMaxBuffer)
include holds few

/-- A message is appended to the log that has room for it in the last page. -/
theorem append_roomy {before : Log} {rounds : Nat} {last : LoggingPage}
    (made : roomFor rounds before page (entryLength entry.component entry.message) = .ok log)
    (character : entry.level ≠ 0) (stored : log.heap log.logLast = some last)
    (fits : last.currentEnd + entry.size ≤ messagesSize) :
    ∃ after kept, logAppend rounds before page entry.level entry.component entry.message = .ok after ∧
    Holds after kept ∧ kept.length = pages.length ∧ kept.flatMap snd = pages.flatMap snd ++ [entry.line] ∧
    ∀ other ≠ log.logLast, after.heap other = log.heap other := by
  have strung := holds.strung
  have bound := lines_bound strung
  have small : logMaxBuffer + 1 < 2 ^ 64 := by decide
  obtain ⟨before, lines, cell, rfl, found, held, isNull, absent⟩ := holds.split
  cases stored.symm.trans found
  obtain ⟨messages, written, heldNow⟩ := pageHolds_write held fits
  have listed : (before ++ [(log.logLast, lines ++ [entry.line])]).flatMap snd =
      (before ++ [(log.logLast, lines)]).flatMap snd ++ [entry.line] := by simp [flatMap_append]
  have lengths : (before ++ [(log.logLast, lines ++ [entry.line])]).length =
      (before ++ [(log.logLast, lines)]).length := by simp
  refine ⟨_, before ++ [(log.logLast, lines ++ [entry.line])], logAppend_ok made stored written, ?_, lengths, listed,
    fun other different => write_elsewhere _ _ different⟩
  constructor
  · exact Eq.subst (motive := fun stop => Strung LoggingPage.next PageHolds _ _ _ stop) isNull
      (strung_last strung absent heldNow)
  · simp
  · rw [holds.pageCount, lengths]
  · rw [listed, length_append, holds.count]
    exact u64_of_lt (by omega)
  · obtain ⟨earlier, newest⟩ := forall_mem_append.mp holds.clean
    refine forall_mem_append.mpr ⟨earlier, forall_mem_singleton.mpr (forall_mem_append.mpr ⟨?_, ?_⟩)⟩
    · exact forall_mem_singleton.mp newest
    · exact forall_mem_singleton.mpr (entry_clean character)

variable (nonzero : page ≠ 0) (unused : log.heap page = none)
include nonzero unused
variable (nonzero : page ≠ 0) (unused : log.heap page = none)
include nonzero unused

/-- There is room for a message in the last page, or a new one is begun. -/
theorem roomFor_holds (len rounds : Nat) :
    ∃ roomy kept last, roomFor (rounds + 2) log page len = .ok roomy ∧ Holds roomy kept ∧
    kept.length * loggingPageSize ≤ logMaxBuffer ∧ kept.flatMap snd <:+ pages.flatMap snd ∧
    roomy.heap roomy.logLast = some last ∧ (last.currentEnd + len ≤ messagesSize ∨ last.currentEnd = 0) := by
  obtain ⟨before, lines, last, split, stored, held, _⟩ := holds.split
  have room := pageHolds_room held
  have ends := pageHolds_end held
  by_cases full : messagesSize - last.currentEnd < len
  · have small : logMaxBuffer < 2 ^ 63 := by decide
    have pagesSmall : pages.length ≤ pages.length * loggingPageSize := Nat.le_mul_of_pos_right _ (by decide)
    obtain ⟨linked, appended, linkedHolds⟩ := link_holds holds nonzero unused (by omega) (rounds + 2)
    have more : (pages ++ [(page, ([] : List Line))]).length = pages.length + 1 := length_append
    have one : 1 ≤ pages.length := by
      rw [split, length_append, length_singleton]
      omega
    obtain ⟨after, kept, dropped, keptHolds, suffix, nonempty, fewer⟩ := dropPages_holds linkedHolds
      (by omega) (by rw [more, add_mul]; omega) rounds
    obtain ⟨front, newLines, newLast, rfl, storedNew, heldNew, _⟩ := keptHolds.split
    obtain ⟨gone, whole⟩ := suffix
    rw [← append_assoc] at whole
    obtain ⟨rfl, newest⟩ := append_inj' whole rfl
    obtain ⟨_, rfl⟩ := Prod.mk.inj (singleton_inj.mp newest)
    refine ⟨after, _, newLast, ?_, keptHolds, fewer, ?_, storedNew, .inr heldNew.ends⟩
    · rw [roomFor, stored]
      simp only [copied, bind, Except.bind, room, if_pos full, appended, dropped]
    · simp [flatMap_append]
  · refine ⟨log, pages, last, ?_, holds, few, suffix_rfl, stored, .inl (by omega)⟩
    rw [roomFor, stored]
    simp only [copied, bind, Except.bind, room, if_neg full]

/-- A message that fits a page is appended, and older ones may be dropped for it. -/
theorem append_holds (character : entry.level ≠ 0) (fits : entry.size ≤ messagesSize) (rounds : Nat) :
    ∃ after kept, logAppend (rounds + 2) log page entry.level entry.component entry.message = .ok after ∧
    Holds after kept ∧ kept.length * loggingPageSize ≤ logMaxBuffer ∧
    kept.flatMap snd <:+ pages.flatMap snd ++ [entry.line] := by
  have len := entryLength_eq (fits.trans_lt (by decide))
  obtain ⟨roomy, kept, last, made, keptHolds, fewer, suffix, stored, room⟩ :=
    roomFor_holds holds few nonzero unused (entryLength entry.component entry.message) rounds
  obtain ⟨after, pages, appended, afterHolds, lengths, listed, _⟩ :=
    append_roomy keptHolds fewer made character stored (by omega)
  refine ⟨after, pages, appended, afterHolds, lengths ▸ fewer, ?_⟩
  rw [listed]
  exact suffix_append_self_iff.mpr suffix

/-- A message that is longer than a page ends behind it. -/
theorem append_long (long : messagesSize < entry.size) (short : entry.size < 2 ^ 16) (rounds : Nat) :
    ∃ after, logAppend (rounds + 2) log page entry.level entry.component entry.message = .ok after ∧
    ∀ appended, ¬ Consistent after appended := by
  have len := entryLength_eq short
  obtain ⟨roomy, kept, last, made, keptHolds, _, _, stored, room⟩ :=
    roomFor_holds holds few nonzero unused (entryLength entry.component entry.message) rounds
  have start : last.currentEnd = 0 := by omega
  obtain ⟨_, _, cell, _, found, held, _⟩ := keptHolds.split
  cases stored.symm.trans found
  obtain ⟨rest, isRest⟩ := @exists_eq _
    [Directive.plain 9, .string entry.component.chars, .plain 9, .string entry.message.chars]
  have checked : ∀ directive ∈ rest, ∀ c, directive ≠ .char c := by simp [isRest]
  have size : u64Sub messagesSize last.currentEnd = messagesSize := by rw [pageHolds_room held, start, Nat.sub_zero]
  have format : 1 + (text rest).length < 2 ^ 31 := by
    rw [Entry.size] at short
    simp only [isRest, text, flatMap_cons, flatMap_nil, Directive.text, length_append, length_singleton, length_nil]
    omega
  obtain ⟨messages, written, _⟩ := kvsnprintf_bounded (c := entry.level)
    (show last.currentEnd + messagesSize ≤ last.messages.length by rw [held.length, start, zero_add])
    checked (by decide) (by decide) format
  rw [← size, isRest] at written
  refine ⟨_, logAppend_ok made stored written, ?_⟩
  rintro appended ⟨cells, strung, newest, ends, _⟩
  obtain ⟨⟨_, end_⟩, member, rfl⟩ := mem_map.mp (mem_of_getLast? newest)
  obtain ⟨_, _, there, rfl⟩ := strung_holds strung member
  obtain rfl := Option.some.inj ((write_here ..).symm.trans there)
  have bounded : u16 (last.currentEnd + entryLength entry.component entry.message) ≤ messagesSize := (ends _ member).1
  rw [u16] at bounded
  omega

end

/-- The cells of the pages and their text. -/
theorem cells_text {cells : List (Nat × LoggingPage)}
    (all : List.Forall₂ (fun cell page => cell.1 = page.1 ∧ PageHolds cell.2 page.2) cells pages) :
    cells.map fst = pages.map fst ∧
    (∀ cell ∈ cells, cell.2.currentEnd ≤ messagesSize ∧ cell.2.messages.length = messagesSize) ∧
    cells.flatMap (fun cell => cell.2.messages.take cell.2.currentEnd) = flat (pages.flatMap snd) := by
  induction all with
  | nil => exact ⟨rfl, nofun, rfl⟩
  | cons held _ ih =>
    obtain ⟨address, pageHolds⟩ := held
    obtain ⟨addresses, ends, text⟩ := ih
    refine ⟨?_, ?_, ?_⟩
    · rw [map_cons, map_cons, address, addresses]
    · exact forall_mem_cons.mpr ⟨⟨pageHolds_end pageHolds, pageHolds.length⟩, ends⟩
    · rw [flatMap_cons, flatMap_cons, flat_append, text, pageHolds_text pageHolds]

theorem holds_consistent {appended : List Line} (holds : Holds log pages)
    (suffix : pages.flatMap snd <:+ appended) : Consistent log appended := by
  obtain ⟨cells, strung, all⟩ := strung_cells holds.strung
  obtain ⟨addresses, ends, text⟩ := cells_text all
  refine ⟨cells, strung, ?_, ends, ?_, pages.flatMap snd, suffix, holds.count, text⟩
  · rw [addresses]
    exact holds.last
  · rw [holds.pageCount, all.length_eq]

theorem initial_holds : Holds initialLog [(logInitialPage, [])] := by
  constructor
  · exact ⟨rfl, by decide, blankPage 0, write_here (fun _ => none) logInitialPage (blankPage 0), pageHolds_blank 0, rfl⟩
  · rfl
  · rfl
  · rfl
  · exact forall_mem_singleton.mpr (forall_mem_nil _)

end

section

variable {log after : Log} {rounds : Nat}

/-- More rounds do not matter once the loop has ended. -/
theorem dropPages_more (ended : dropPages rounds log = .ok after) (more : Nat) :
    dropPages (rounds + more) log = .ok after := by
  induction rounds generalizing log with
  | zero => exact nomatch ended
  | succ rounds ih =>
    rw [add_right_comm, dropPages]
    rw [dropPages] at ended
    split at ended
    next tooMany =>
      obtain ⟨dropped, first, later⟩ := bind_ok ended
      rw [if_pos tooMany, first]
      exact ih later
    next few =>
      rw [if_neg few]
      exact ended

theorem roomFor_more {page len : Nat} (made : roomFor rounds log page len = .ok after) (more : Nat) :
    roomFor (rounds + more) log page len = .ok after := by
  obtain ⟨last, found, further⟩ := bind_ok made
  rw [roomFor, found]
  simp only [bind, Except.bind]
  split at further
  next full =>
    obtain ⟨cell, stored, dropped⟩ := bind_ok further
    rw [if_pos full, logAppendPage, stored]
    exact dropPages_more dropped more
  next roomy =>
    rw [if_neg roomy]
    exact further

theorem logAppend_more {page : Nat}
    (done : logAppend rounds log page entry.level entry.component entry.message = .ok after) (more : Nat) :
    logAppend (rounds + more) log page entry.level entry.component entry.message = .ok after := by
  obtain ⟨roomy, made, further⟩ := bind_ok done
  rw [logAppend, roomFor_more made more]
  exact further

end

/-- Along a run of messages that fit, the log holds the newest of them. -/
theorem reachable_holds {traced : Traced} (reachable : (logs.under Fits).Reachable traced) :
    ∃ pages, Holds traced.log pages ∧ pages.length * loggingPageSize ≤ logMaxBuffer ∧
    pages.flatMap snd <:+ traced.appended := by
  apply reachable.invariant
  · rintro start rfl
    exact ⟨_, initial_holds, by decide, suffix_rfl⟩
  · rintro before entry after ⟨pages, holds, few, suffix⟩ ⟨⟨character, fits⟩, rounds, page, nonzero, unused, done, same⟩
    obtain ⟨log, kept, appended, keptHolds, fewer, newest⟩ :=
      append_holds holds few nonzero unused character fits rounds
    obtain rfl := Except.ok.inj (appended.symm.trans (logAppend_more done 2))
    refine ⟨kept, keptHolds, fewer, ?_⟩
    rw [same]
    exact newest.trans (suffix_append_self_iff.mpr suffix)

/-- Messages that fit a page leave the log consistent. The next message is written into the last
page, and the log is consistent after it exactly if it fits. -/
theorem log_consistent {traced : Traced} (reachable : (logs.under Fits).Reachable traced) :
    Consistent traced.log traced.appended ∧
      ∀ entry : Entry, entry.level ≠ 0 → entry.component.chars.length + entry.message.chars.length + 4 < 2 ^ 16 →
        ∀ page, page ≠ 0 → traced.log.heap page = none → ∃ rounds after,
          logAppend rounds traced.log page entry.level entry.component entry.message = .ok after ∧
          (Consistent after (traced.appended ++ [entry.line]) ↔ Fits traced entry) := by
  obtain ⟨pages, holds, few, suffix⟩ := reachable_holds reachable
  refine ⟨holds_consistent holds suffix, ?_⟩
  intro entry character short page nonzero unused
  refine ⟨2, ?_⟩
  by_cases fits : entry.size ≤ messagesSize
  · obtain ⟨after, kept, appended, keptHolds, _, newest⟩ := append_holds holds few nonzero unused character fits 0
    have retained : kept.flatMap snd <:+ traced.appended ++ [entry.line] :=
      newest.trans (suffix_append_self_iff.mpr suffix)
    exact ⟨after, appended, fun _ => ⟨character, fits⟩, fun _ => holds_consistent keptHolds retained⟩
  · obtain ⟨after, appended, inconsistent⟩ := append_long holds few nonzero unused (Nat.lt_of_not_le fits) short 0
    exact ⟨after, appended, fun consistent => absurd consistent (inconsistent _), fun both => absurd both.2 fits⟩

/-- A text of one letter, as often as said. -/
def repeated (count : Nat) : CString := ⟨List.replicate count 97, by simp [List.mem_replicate]⟩

theorem repeated_length (count : Nat) : (repeated count).chars.length = count := length_replicate

theorem initial_unused : initialLog.heap 4096 = none := rfl

theorem reachable_start {condition : Traced → Entry → Prop} {entry : Entry} {log : Log}
    (met : condition ⟨initialLog, []⟩ entry)
    (appended : logAppend 2 initialLog 4096 entry.level entry.component entry.message = .ok log) :
    (logs.under condition).Reachable ⟨log, [entry.line]⟩ := by
  have start : (logs.under condition).Reachable ⟨initialLog, []⟩ := reachable_initial rfl
  exact reachable_under_step start ⟨2, 4096, by decide, initial_unused, appended, rfl⟩ met

/-- A message that fills most of a page. -/
def large : Entry := ⟨73, repeated 1, repeated 3000⟩

theorem large_size : large.size = 3005 := by
  rw [Entry.size, large, repeated_length, repeated_length]

/-- Two large messages: the second one begins a page. -/
theorem log_consistent_pages : ∃ traced, (logs.under Fits).Reachable traced ∧ traced.log.logPageCount = 2 ∧
    Consistent traced.log [large.line, large.line] := by
  have fits : ∀ traced, Fits traced large := fun _ => ⟨by decide, large_size.le.trans (by decide)⟩
  have len : entryLength large.component large.message = 3005 :=
    (entryLength_eq (large_size.trans_lt (by decide))).trans large_size
  have roomy : roomFor 2 initialLog 4096 (entryLength large.component large.message) = .ok initialLog := by
    rw [len]
    rfl
  have blank : initialLog.heap initialLog.logLast = some (blankPage 0) := rfl
  obtain ⟨log, pages, appended, holds, lengths, listed, elsewhere⟩ := append_roomy initial_holds (by decide) roomy
    (fits ⟨initialLog, []⟩).1 blank (by rw [large_size]; decide)
  have first : (logs.under Fits).Reachable ⟨log, [large.line]⟩ := reachable_start (fits _) appended
  have unused : log.heap 4096 = none := elsewhere 4096 (by decide)
  -- The first page has a thousand characters left.
  obtain ⟨before, lines, last, rfl, stored, held, _⟩ := holds.split
  obtain rfl : before = [] := by simpa using lengths
  obtain rfl : lines = [large.line] := by simpa [Entry.line] using listed
  have ends : last.currentEnd = 3005 := by
    rw [held.ends, flat_singleton, line_length, large_size]
  obtain ⟨linked, begun, linkedHolds⟩ := link_holds holds (by decide) unused (by simp) 2
  have made : roomFor 2 log 4096 (entryLength large.component large.message) = .ok linked := by
    have two : linked.logPageCount = 2 := linkedHolds.pageCount
    have full : u64Sub messagesSize last.currentEnd < 3005 := by
      rw [ends]
      decide
    rw [roomFor, stored, len]
    simp only [copied, bind, Except.bind, if_pos full]
    rw [begun, dropPages, two]
    rfl
  obtain ⟨front, none, next, split, there, empty, _⟩ := linkedHolds.split
  obtain ⟨_, rfl⟩ := Prod.mk.inj (singleton_inj.mp (append_inj' split rfl).2)
  have start : next.currentEnd = 0 := empty.ends
  obtain ⟨after, kept, again, keptHolds, two, _⟩ := append_roomy linkedHolds (show 2 * loggingPageSize ≤ logMaxBuffer by decide) made
    (fits ⟨log, [large.line]⟩).1 there (by rw [start, large_size]; decide)
  have second : (logs.under Fits).Reachable ⟨after, [large.line, large.line]⟩ :=
    reachable_under_step first ⟨2, 4096, by decide, unused, again, rfl⟩ (fits _)
  exact ⟨_, second, keptHolds.pageCount.trans two, (log_consistent second).1⟩

/-- The longest message that `log` makes. -/
def longest : Entry := ⟨73, repeated 1, repeated 4079⟩

theorem longest_size : longest.size = 4084 := by
  rw [Entry.size, longest, repeated_length, repeated_length]

theorem log_end_exceeded : ∃ traced, logs.Reachable traced ∧ traced.appended = [longest.line] ∧
    ¬ Consistent traced.log traced.appended := by
  obtain ⟨log, appended, inconsistent⟩ := append_long initial_holds (by decide) (by decide) initial_unused
    (lt_of_lt_of_eq (by decide) longest_size.symm) (longest_size.trans_lt (by decide)) 0
  have reachable : (logs.under (fun _ _ => True)).Reachable ⟨log, [longest.line]⟩ := reachable_start trivial appended
  exact ⟨_, reachable_of_under reachable, rfl, inconsistent _⟩

end Lfos.KernelLog
