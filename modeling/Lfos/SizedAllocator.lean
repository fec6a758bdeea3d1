import Lfos.BitSets
import Lfos.ForwardLists
import Lfos.Spans

/-!
# The allocator for slots of one size

Blocks of equal slots are cut out of pages, which are the elements of a singly linked list. A page
keeps a bit set of the slots in use and the length of its longest free run. `allocate` goes through
the pages and adds one if none has room, and `deallocate` looks for the page of a block and drops
the page with its last block.

Both go through the list from `begin()` while the iterator is different from `end()`, which it never
is. So every allocation adds a page, and no page is found again.

The address of a new page is what the page allocator answers with. The contents of the slots are
left out.
-/

namespace Lfos.SizedAllocator

open BitSets ForwardLists LinkedHeap Spans Transitions Words List Option

variable {slot pageSize : Nat}

/-- The slot sizes of the allocators behind `operator new`. -/
def slotSizes : List Nat := [8, 16, 24, 64, 512, 1024, 4096, 16384, 65536]

/-- The default of `PageSize`. -/
def pageSizeOf (slot : Nat) : Nat :=
  if slot > 2 ^ 20 then 2 ^ 30 else if slot > 2 ^ 10 then 2 ^ 21 else 2 ^ 12

/-- `sizeof(bitmap_t)` -/
def bitmapSize (slot pageSize : Nat) : Nat := 8 * dataSize (pageSize / slot)

def maxEntries (slot pageSize : Nat) : Nat := (pageSize - 8 - bitmapSize slot pageSize - 8) / slot

/-- `page_t` without its slots. -/
structure Page (slot pageSize : Nat) where
  maxContinuousFree : Nat
  bitmap : BitSet (pageSize / slot)

def newPage (slot pageSize : Nat) : Page slot pageSize := ⟨maxEntries slot pageSize, empty (pageSize / slot)⟩

/-- One round of `update_header`: the longest run so far and the current one. -/
def countFree (bitmap : BitSet (pageSize / slot)) (counts : Nat × Nat) (i : Nat) : Option (Nat × Nat) :=
  (bitmap.test i).map (fun used => if used then (max counts.1 counts.2, 0) else (counts.1, counts.2 + 1))

def updateHeader (bitmap : BitSet (pageSize / slot)) : Option (Page slot pageSize) :=
  ((List.range (maxEntries slot pageSize)).foldlM (countFree bitmap) (0, 0)).map
    (fun counts => ⟨max counts.1 counts.2, bitmap⟩)

/-- The index of the first slot of the block. -/
def Page.allocate (page : Page slot pageSize) (n : Nat) : Option (Option Nat × Page slot pageSize) :=
  if page.maxContinuousFree < n then some (none, page)
  else (findContinuousUnset page.bitmap n).bind (fun start =>
    if start ≥ maxEntries slot pageSize then some (none, page)
    else (setRange page.bitmap start true n).bind (fun bitmap =>
      (updateHeader bitmap).map (fun page => (some start, page))))

/-- The slots from the one at `p` on are marked as free. -/
def freeAt (bitmap : BitSet (pageSize / slot)) (base p n : Nat) : Option (BitSet (pageSize / slot)) :=
  (List.range (maxEntries slot pageSize)).foldlM
    (fun bitmap index => if base + index * slot = p then setRange bitmap index false n else some bitmap) bitmap

def Page.deallocate (page : Page slot pageSize) (base p n : Nat) : Option (Bool × Page slot pageSize) :=
  if p < base ∨ p ≥ u64 (base + maxEntries slot pageSize * slot) then some (false, page)
  else if (p - base) % slot ≠ 0 then some (false, page)
  else (freeAt page.bitmap base p n).bind (fun bitmap => (updateHeader bitmap).map (fun page => (true, page)))

abbrev Pages (slot pageSize : Nat) := ForwardList (Page slot pageSize)

/-- The address of `_data` in a node: behind the pointer to the next node, the header and the bitmap. -/
def dataOf (slot pageSize node : Nat) : Nat := node + 8 + 8 + bitmapSize slot pageSize

def slotAddress (slot pageSize node index : Nat) : Nat := dataOf slot pageSize node + index * slot

/-- `operator->` -/
def pointee (pages : Pages slot pageSize) (it : Iterator) : Option (Page slot pageSize) :=
  if it.special ≠ .normal then none else dereference pages it

/-- Change the page that an iterator points to. -/
def store (pages : Pages slot pageSize) (it : Iterator) (page : Page slot pageSize) : Pages slot pageSize :=
  match pages.nodes it.node with
  | none => pages
  | some node => { pages with nodes := pages.nodes.write it.node { node with data := page } }

/-- A call of `allocate` of the page at an iterator, with the address of the block. -/
def allocateIn (pages : Pages slot pageSize) (it : Iterator) (n : Nat) : Option (Pages slot pageSize × Nat) :=
  (pointee pages it).bind (fun page => (page.allocate n).map (fun result =>
    (store pages it result.2, result.1.elim 0 (slotAddress slot pageSize it.node))))

/-- The loop of `allocate`, for a number of rounds: the block or zero, and the last page. -/
def searchPages (n : Nat) : Nat → Pages slot pageSize → Iterator → Iterator → Option (Pages slot pageSize × Nat × Iterator)
  | 0, _, _, _ => none
  | rounds + 1, pages, it, lastPage =>
    if it.differs endOf then
      (allocateIn pages it n).bind (fun result =>
        if result.2 ≠ 0 then some (result.1, result.2, lastPage)
        else (advance result.1 it).bind (fun next => searchPages n rounds result.1 next it))
    else some (pages, 0, lastPage)

def allocate (rounds : Nat) (pages : Pages slot pageSize) (n elem : Nat) : Option (Pages slot pageSize × Nat) :=
  if n > maxEntries slot pageSize then some (pages, 0)
  else (searchPages n rounds pages (beginOf pages) (beforeBeginOf pages)).bind (fun (pages, found, lastPage) =>
    if found ≠ 0 then some (pages, found)
    else (emplaceAfter pages lastPage elem (newPage slot pageSize)).bind (fun (it, pages) => allocateIn pages it n))

/-- What is left to do when the page of a block is found. -/
def dropEmpty (pages : Pages slot pageSize) (previous : Iterator) (page : Page slot pageSize) : Option (Pages slot pageSize) :=
  page.bitmap.none.bind (fun unused => if unused then (eraseAfter pages previous).map Prod.snd else some pages)

/-- The loop of `deallocate`, for a number of rounds: whether the page is found. -/
def deallocateFrom (p n : Nat) : Nat → Pages slot pageSize → Iterator → Iterator → Option (Pages slot pageSize × Bool)
  | 0, _, _, _ => none
  | rounds + 1, pages, it, previous =>
    if it.differs endOf then
      (pointee pages it).bind (fun page => (page.deallocate (dataOf slot pageSize it.node) p n).bind (fun (found, page) =>
        if found then (dropEmpty (store pages it page) previous page).map (fun pages => (pages, true))
        else (advance pages it).bind (fun next => deallocateFrom p n rounds pages next it)))
    else some (pages, false)

def deallocate (rounds : Nat) (pages : Pages slot pageSize) (p n : Nat) : Option (Pages slot pageSize × Bool) :=
  deallocateFrom p n rounds pages (beginOf pages) (beforeBeginOf pages)

/-- The pages, and the blocks that are in use with their numbers of slots. -/
structure State (slot pageSize : Nat) where
  pages : Pages slot pageSize
  blocks : List (Nat × Nat)

inductive Event where
  | allocate (n elem : Nat)
  | deallocate (p n : Nat)

inductive Answer where
  | address (p : Nat)
  | found (page : Bool)

def perform (rounds : Nat) (state : State slot pageSize) : Event → Option (State slot pageSize × Answer)
  | .allocate n elem => (allocate rounds state.pages n elem).map (fun (pages, p) =>
      (⟨pages, if p = 0 then state.blocks else (p, n) :: state.blocks⟩, .address p))
  | .deallocate p n => (deallocate rounds state.pages p n).map (fun (pages, found) =>
      (⟨pages, state.blocks.erase (p, n)⟩, .found found))

/-- A page of memory that no node lies in. -/
def Fresh (pages : Pages slot pageSize) (elem : Nat) : Prop :=
  elem ≠ 0 ∧ elem + pageSize ≤ 2 ^ 64 ∧ ∀ node, (pages.nodes node).isSome → (Span.mk elem pageSize).Apart ⟨node, pageSize⟩

/-- The page allocator answers with unused memory, and blocks that are given back are in use. -/
def Allowed (state : State slot pageSize) : Event → Prop
  | .allocate n elem => 1 ≤ n ∧ n ≤ maxEntries slot pageSize ∧ Fresh state.pages elem
  | .deallocate p n => (p, n) ∈ state.blocks

def allocator (slot pageSize : Nat) : System (State slot pageSize) Event where
  initial state := state = ⟨⟨0, fun _ => none⟩, []⟩
  step state event after := Allowed state event ∧ ∃ rounds answer, perform rounds state event = some (after, answer)

/-- A page of the list. -/
def LivePage (pages : Pages slot pageSize) (node : Nat) : Prop := ∃ items, Represents pages items ∧ node ∈ items.map Prod.fst

def blockSpan (slot : Nat) (block : Nat × Nat) : Span := ⟨block.1, block.2 * slot⟩

/-- The slots of a page. -/
def dataSpan (slot pageSize node : Nat) : Span := ⟨dataOf slot pageSize node, maxEntries slot pageSize * slot⟩

structure Safe (state : State slot pageSize) : Prop where
  apart : state.blocks.Pairwise (fun block other => (blockSpan slot block).Apart (blockSpan slot other))
  inside : ∀ block ∈ state.blocks, ∃ node, LivePage state.pages node ∧ (blockSpan slot block).Within (dataSpan slot pageSize node)

/-- Some page has as many free slots in a row. -/
def HasRoom (state : State slot pageSize) (n : Nat) : Prop :=
  ∃ node start, LivePage state.pages node ∧ start + n ≤ maxEntries slot pageSize ∧
    ∀ block ∈ state.blocks, (blockSpan slot (slotAddress slot pageSize node start, n)).Apart (blockSpan slot block)

/-- No page is left. -/
def Drained (state : State slot pageSize) : Prop := ∀ node, ¬ LivePage state.pages node

/-- A block is handed out, and blocks are still apart and inside of pages. -/
def Serves (state : State slot pageSize) (n elem : Nat) : Prop :=
  ∃ rounds after p, perform rounds state (.allocate n elem) = some (after, .address p) ∧ p ≠ 0 ∧ Safe after

/-- An allocation does not add a page if there is room. A page is found, and is dropped with the last block. -/
def Correct (state : State slot pageSize) : Event → Prop
  | .allocate n elem => ∃ rounds after p, perform rounds state (.allocate n elem) = some (after, .address p) ∧ p ≠ 0 ∧
      Safe after ∧ (HasRoom state n → ∀ node, LivePage after.pages node → LivePage state.pages node)
  | .deallocate p n => ∃ rounds after, perform rounds state (.deallocate p n) = some (after, .found true) ∧
      Safe after ∧ (after.blocks = [] → Drained after)

/-- No page has room for what is allocated, and nothing is given back. -/
def Meets (state : State slot pageSize) : Event → Prop
  | .allocate n _ => ¬ HasRoom state n
  | .deallocate _ _ => False

section

/-- Bits for more slots than there are, and room for all parts of a node. -/
structure Geometry (slot pageSize : Nat) : Prop where
  positive : 0 < slot
  fewer : maxEntries slot pageSize < pageSize / slot
  fits : 16 + bitmapSize slot pageSize + maxEntries slot pageSize * slot ≤ pageSize
  small : pageSize / slot < 2 ^ 64

theorem slotSizes_geometry (member : slot ∈ slotSizes) : Geometry slot (pageSizeOf slot) := by
  have all : ∀ slot ∈ slotSizes, 0 < slot ∧ maxEntries slot (pageSizeOf slot) < pageSizeOf slot / slot ∧
      16 + bitmapSize slot (pageSizeOf slot) + maxEntries slot (pageSizeOf slot) * slot ≤ pageSizeOf slot ∧
      pageSizeOf slot / slot < 2 ^ 64 := by decide
  obtain ⟨positive, fewer, fits, small⟩ := all slot member
  exact ⟨positive, fewer, fits, small⟩

/-- There is a free run of a length below a limit. -/
def FreeRun (bitmap : BitSet (pageSize / slot)) (limit n : Nat) : Prop := ∃ start, start + n ≤ limit ∧ Free bitmap n start

/-- There is a free run of a length up to a slot. -/
def Ending (bitmap : BitSet (pageSize / slot)) (limit n : Nat) : Prop := ∃ start, start + n = limit ∧ Free bitmap n start

/-- What `update_header` has counted in front of a slot. -/
structure Counted (bitmap : BitSet (pageSize / slot)) (limit : Nat) (counts : Nat × Nat) : Prop where
  longest : ∀ n, n ≤ max counts.1 counts.2 ↔ FreeRun bitmap limit n
  current : ∀ n, n ≤ counts.2 ↔ Ending bitmap limit n

variable {bitmap : BitSet (pageSize / slot)} {limit n : Nat} {counts : Nat × Nat}

theorem freeRun_succ : FreeRun bitmap (limit + 1) n ↔ FreeRun bitmap limit n ∨ Ending bitmap (limit + 1) n := by
  simp only [FreeRun, Ending, Nat.le_add_one_iff, or_and_right, exists_or]

theorem ending_succ {used : Bool} (tested : bitmap.test limit = some used) :
    Ending bitmap (limit + 1) (n + 1) ↔ used = false ∧ Ending bitmap limit n := by
  constructor
  · rintro ⟨start, ends, free⟩
    obtain rfl : start + n = limit := Nat.succ.inj ends
    have unused := tested.symm.trans (free n (Nat.lt_succ_self n))
    exact ⟨some.inj unused, start, rfl, fun i less => free i (Nat.lt_succ_of_lt less)⟩
  · rintro ⟨rfl, start, rfl, free⟩
    refine ⟨start, rfl, fun i less => ?_⟩
    obtain earlier | rfl := Nat.lt_succ_iff_lt_or_eq.mp less
    · exact free i earlier
    · exact tested

theorem counted_none (bitmap : BitSet (pageSize / slot)) : Counted bitmap 0 (0, 0) := by
  constructor
  all_goals
    intro n
    cases n with
    | zero => exact iff_of_true (Nat.zero_le _) ⟨0, by decide, nofun⟩
    | succ n =>
      refine iff_of_false (Nat.not_succ_le_zero n) ?_
      rintro ⟨start, ends, _⟩
      omega

theorem Counted.next (counted : Counted bitmap limit counts) (inside : limit < pageSize / slot) :
    ∃ after, countFree bitmap counts limit = some after ∧ Counted bitmap (limit + 1) after := by
  obtain ⟨used, tested⟩ := test_inside bitmap inside
  have current : ∀ n, n ≤ (if used then 0 else counts.2 + 1) ↔ Ending bitmap (limit + 1) n := by
    intro n
    cases n with
    | zero => exact iff_of_true (Nat.zero_le _) ⟨limit + 1, rfl, nofun⟩
    | succ n =>
      rw [ending_succ tested, ← counted.current]
      cases used <;> simp
  refine ⟨_, by rw [countFree, tested, map_some], ?_⟩
  cases used <;>
  · refine ⟨fun n => ?_, current⟩
    rw [freeRun_succ, ← counted.longest, ← current]
    simp only [if_true, Bool.false_eq_true, if_false]
    omega

/-- The header is the length of the longest free run, and the slots behind the last one are not in use. -/
structure Tracked (page : Page slot pageSize) : Prop where
  longest : ∀ n, n ≤ page.maxContinuousFree ↔ FreeRun page.bitmap (maxEntries slot pageSize) n
  unused : ∀ i, maxEntries slot pageSize ≤ i → i < pageSize / slot → page.bitmap.test i = some false

/-- The bits of a run of slots have a value, and all others are as before. -/
def Marked (page after : Page slot pageSize) (start n : Nat) (value : Bool) : Prop :=
  ∀ i, after.bitmap.test i = if start ≤ i ∧ i < start + n then some value else page.bitmap.test i

/-- A block lies in slots that were free, and has them now. -/
structure Given (page after : Page slot pageSize) (start n : Nat) : Prop where
  inside : start + n ≤ maxEntries slot pageSize
  free : Free page.bitmap n start
  marked : Marked page after start n true

/-- A block is freed at the slot that it begins with. -/
theorem freeAt_eq (positive : 0 < slot) (bitmap : BitSet (pageSize / slot)) {start : Nat} (inside : start < maxEntries slot pageSize)
    (base n : Nat) : freeAt bitmap base (base + start * slot) n = setRange bitmap start false n := by
  have here (index : Nat) : base + index * slot = base + start * slot ↔ index = start := by simp [positive.ne']
  have loop (count : Nat) : (range count).foldlM (fun bitmap index =>
      if base + index * slot = base + start * slot then setRange bitmap index false n else some bitmap) bitmap =
        if start < count then setRange bitmap start false n else some bitmap := by
    simp only [here]
    induction count with
    | zero => rfl
    | succ count ih =>
      rw [range_succ, foldlM_append, ih]
      rcases lt_trichotomy start count with before | rfl | behind
      · simp [before, before.ne', Nat.lt_succ_of_lt before]
      · simp
      · simp [not_lt.mpr behind.le, behind.ne, not_lt.mpr (Nat.succ_le_of_lt behind)]
  rw [freeAt, loop, if_pos inside]

section

variable (fewer : maxEntries slot pageSize < pageSize / slot)
include fewer

theorem updateHeader_inside (bitmap : BitSet (pageSize / slot)) :
    ∃ length, updateHeader bitmap = some ⟨length, bitmap⟩ ∧ ∀ n, n ≤ length ↔ FreeRun bitmap (maxEntries slot pageSize) n := by
  have counting : ∀ limit ≤ maxEntries slot pageSize,
      ∃ counts, (range limit).foldlM (countFree bitmap) (0, 0) = some counts ∧ Counted bitmap limit counts := by
    intro limit within
    induction limit with
    | zero => exact ⟨_, rfl, counted_none bitmap⟩
    | succ limit ih =>
      obtain ⟨counts, done, counted⟩ := ih (Nat.le_of_succ_le within)
      obtain ⟨after, next, nextCounted⟩ := counted.next (by omega)
      refine ⟨after, ?_, nextCounted⟩
      rw [range_succ, foldlM_append, done]
      simpa using next
  obtain ⟨counts, done, counted⟩ := counting _ le_rfl
  refine ⟨_, ?_, counted.longest⟩
  rw [updateHeader, done, map_some]

theorem newPage_tracked : Tracked (newPage slot pageSize) := by
  refine ⟨fun n => ⟨?_, ?_⟩, fun i _ inside => test_empty inside⟩
  · intro fits
    change n ≤ maxEntries slot pageSize at fits
    exact ⟨0, by omega, fun i less => test_empty (by omega)⟩
  · rintro ⟨start, within, _⟩
    exact (Nat.le_add_left n start).trans within

variable {page : Page slot pageSize} (tracked : Tracked page)
include tracked

/-- A block is given if there is a free run that is long enough, and is the first one. Its bits are
set, and no others. -/
theorem Tracked.allocate (small : pageSize / slot < 2 ^ 64) (positive : 1 ≤ n) :
    ∃ found after, page.allocate n = some (found, after) ∧ Tracked after ∧
    (found.isSome ↔ n ≤ page.maxContinuousFree) ∧ (found = none → after = page) ∧
    ∀ start, found = some start → Given page after start n ∧ ∀ earlier < start, ¬ Free page.bitmap n earlier := by
  by_cases enough : n ≤ page.maxContinuousFree
  · obtain ⟨run, within, free⟩ := (tracked.longest n).mp enough
    obtain ⟨start, before, found, startFree, first⟩ := findContinuousUnset_fits small (by omega) free
    obtain ⟨bitmap, ranged, tests⟩ := setRange_inside page.bitmap start true (show start + n ≤ pageSize / slot by omega)
    obtain ⟨length, updated, longest⟩ := updateHeader_inside fewer bitmap
    refine ⟨some start, ⟨length, bitmap⟩, ?_, ⟨longest, fun i above inside => ?_⟩, iff_of_true rfl enough, by simp, ?_⟩
    · rw [Page.allocate, if_neg (not_lt.mpr enough), found, bind_some, if_neg (by omega), ranged, bind_some, updated]
      rfl
    · rw [tests, if_neg (by omega)]
      exact tracked.unused i above inside
    · rintro _ ⟨⟩
      exact ⟨⟨by omega, startFree, tests⟩, first⟩
  · exact ⟨none, page, if_pos (not_le.mp enough), tracked, iff_of_false (by simp) enough, fun _ => rfl, by simp⟩

/-- The slots of a block are free again, and no others. -/
theorem Tracked.deallocate {base start : Nat} (room : base + maxEntries slot pageSize * slot < 2 ^ 64) (positive : 1 ≤ n)
    (inside : start + n ≤ maxEntries slot pageSize) :
    ∃ after, page.deallocate base (base + start * slot) n = some (true, after) ∧ Tracked after ∧
    Marked page after start n false := by
  have slotted : 0 < slot := Nat.pos_of_ne_zero (by rintro rfl; simp at fewer)
  obtain ⟨bitmap, ranged, tests⟩ := setRange_inside page.bitmap start false (show start + n ≤ pageSize / slot by omega)
  obtain ⟨length, updated, longest⟩ := updateHeader_inside fewer bitmap
  have below : start * slot < maxEntries slot pageSize * slot := Nat.mul_lt_mul_of_pos_right (by omega) slotted
  refine ⟨⟨length, bitmap⟩, ?_, ⟨longest, fun i above inside => ?_⟩, tests⟩
  · rw [Page.deallocate, u64_of_lt room, if_neg (by omega), Nat.add_sub_cancel_left, Nat.mul_mod_left, if_neg (not_not.mpr rfl),
      freeAt_eq slotted page.bitmap (by omega), ranged, bind_some, updated]
    rfl
  · rw [tests, if_neg (by omega)]
    exact tracked.unused i above inside

end

/-- The first block of a new page is at its first slot. -/
theorem newPage_allocate (geometry : Geometry slot pageSize) {n : Nat} (positive : 1 ≤ n) (fits : n ≤ maxEntries slot pageSize) :
    ∃ page, (newPage slot pageSize).allocate n = some (some 0, page) := by
  obtain ⟨_, page, allocated, _, given, _, placed⟩ :=
    (newPage_tracked geometry.fewer).allocate geometry.fewer geometry.small positive
  obtain ⟨start, rfl⟩ := isSome_iff_exists.mp (given.mpr fits)
  have free : Free (newPage slot pageSize).bitmap n 0 := fun i less => test_empty (by have := geometry.fewer; omega)
  obtain rfl : start = 0 := Nat.eq_zero_of_not_pos (fun later => (placed start rfl).2 0 later free)
  exact ⟨page, allocated⟩

end

section

/-- A page, and the blocks in it with their first slots and lengths. -/
structure PageState (slot pageSize : Nat) where
  page : Page slot pageSize
  blocks : List (Nat × Nat)

inductive PageEvent where
  | allocate (n : Nat)
  | deallocate (start n : Nat)

/-- A page with its slots from `base` on. Blocks that are given back are in use. -/
def pageCalls (slot pageSize base : Nat) : System (PageState slot pageSize) PageEvent where
  initial state := state = ⟨newPage slot pageSize, []⟩
  step state event after := match event with
    | .allocate n => 1 ≤ n ∧ ∃ found, state.page.allocate n = some (found, after.page) ∧
        after.blocks = (found.map (fun start => (start, n))).toList ++ state.blocks
    | .deallocate start n => (start, n) ∈ state.blocks ∧
        (∃ answer, state.page.deallocate base (base + start * slot) n = some (answer, after.page)) ∧
        after.blocks = state.blocks.erase (start, n)

def slotsOf (block : Nat × Nat) : Span := ⟨block.1, block.2⟩

/-- Blocks lie in the slots of a page, no two of them share a slot, and the bits that are set are
those of their slots. -/
structure Occupied (page : Page slot pageSize) (blocks : List (Nat × Nat)) : Prop where
  inside : ∀ block ∈ blocks, 1 ≤ block.2 ∧ block.1 + block.2 ≤ maxEntries slot pageSize
  apart : blocks.Pairwise (fun left right => (slotsOf left).Apart (slotsOf right))
  used : ∀ i < pageSize / slot, page.bitmap.test i = some (decide (∃ block ∈ blocks, (slotsOf block).Holds i))

variable {page after : Page slot pageSize} {blocks : List (Nat × Nat)} {start n : Nat}

theorem newPage_occupied : Occupied (newPage slot pageSize) [] := by
  refine ⟨nofun, Pairwise.nil, fun i inside => ?_⟩
  simp [newPage, test_empty inside]

/-- A new block shares no slot with the others, as the bits of their slots are set. -/
theorem Occupied.allocate (fewer : maxEntries slot pageSize < pageSize / slot) (occupied : Occupied page blocks)
    (positive : 1 ≤ n) (given : Given page after start n) : Occupied after ((start, n) :: blocks) := by
  refine ⟨forall_mem_cons.mpr ⟨⟨positive, given.inside⟩, occupied.inside⟩, ?_, fun i inside => ?_⟩
  · refine pairwise_cons.mpr ⟨fun other member cell both => ?_, occupied.apart⟩
    obtain ⟨⟨above, below⟩, held⟩ := both
    simp only [slotsOf] at above below
    have within := given.inside
    have unset := given.free (cell - start) (by omega)
    have isSet := occupied.used cell (by omega)
    rw [Nat.add_sub_cancel' above, isSet] at unset
    simp only [some.injEq, decide_eq_false_iff_not] at unset
    exact unset ⟨other, member, held⟩
  · rw [given.marked i, occupied.used i inside]
    by_cases held : start ≤ i ∧ i < start + n
    · simp [slotsOf, Span.Holds, held]
    · rw [if_neg held, some.injEq, decide_eq_decide]
      simp only [exists_mem_cons_iff, slotsOf, Span.Holds, held, false_or]

/-- The slots of a block belong to no other block, so their bits are those to clear. -/
theorem Occupied.deallocate (occupied : Occupied page blocks) (member : (start, n) ∈ blocks)
    (freed : Marked page after start n false) : Occupied after (blocks.erase (start, n)) := by
  have order := perm_cons_erase member
  obtain ⟨alone, apart⟩ := pairwise_cons.mp ((order.pairwise_iff Span.apart_symm).mp occupied.apart)
  refine ⟨fun block left => occupied.inside block (mem_of_mem_erase left), apart, fun i inside => ?_⟩
  rw [freed i, occupied.used i inside]
  by_cases held : start ≤ i ∧ i < start + n
  · have gone : ¬ ∃ block ∈ blocks.erase (start, n), (slotsOf block).Holds i := by
      rintro ⟨other, left, also⟩
      exact alone other left i ⟨held, also⟩
    rw [if_pos held, decide_eq_false gone]
  · rw [if_neg held, some.injEq, decide_eq_decide]
    simp only [order.mem_iff, exists_mem_cons_iff, slotsOf, Span.Holds, held, false_or]

variable {base : Nat} {state : PageState slot pageSize}

/-- In every run of a page that has bits for more slots than there are: its header is the length of
the longest free run, and the bits that are set are those of the blocks in use, no two of which
share a slot. A block is given exactly if there is a run of its length. It lies in slots that were
free, and its bits are set. A block that is given back leaves exactly its slots free. -/
theorem page_exact (fewer : maxEntries slot pageSize < pageSize / slot) (small : pageSize < 2 ^ 64)
    (room : base + maxEntries slot pageSize * slot < 2 ^ 64)
    (reachable : (pageCalls slot pageSize base).Reachable state) :
    Tracked state.page ∧ Occupied state.page state.blocks ∧
    (∀ n, 1 ≤ n → ∃ found after, state.page.allocate n = some (found, after) ∧
      (found.isSome ↔ n ≤ state.page.maxContinuousFree) ∧ (found = none → after = state.page) ∧
      ∀ start, found = some start → Given state.page after start n) ∧
    ∀ block ∈ state.blocks, ∃ after,
      state.page.deallocate base (base + block.1 * slot) block.2 = some (true, after) ∧
      Marked state.page after block.1 block.2 false := by
  have bounded : pageSize / slot < 2 ^ 64 := (Nat.div_le_self pageSize slot).trans_lt small
  have kept : Tracked state.page ∧ Occupied state.page state.blocks := by
    apply reachable.invariant
    · rintro start rfl
      exact ⟨newPage_tracked fewer, newPage_occupied⟩
    · rintro state event after ⟨tracked, occupied⟩ taken
      cases event with
      | allocate n =>
        obtain ⟨positive, found, allocated, blocks⟩ := taken
        obtain ⟨_, page, served, pageTracked, _, same, placed⟩ := tracked.allocate fewer bounded positive
        cases served.symm.trans allocated
        rw [blocks]
        refine ⟨pageTracked, ?_⟩
        cases found with
        | none => exact (same rfl).symm ▸ occupied
        | some start => exact occupied.allocate fewer positive (placed start rfl).1
      | deallocate start n =>
        obtain ⟨member, ⟨answer, freed⟩, blocks⟩ := taken
        obtain ⟨positive, within⟩ := occupied.inside _ member
        obtain ⟨page, done, pageTracked, marked⟩ := tracked.deallocate fewer room positive within
        cases done.symm.trans freed
        rw [blocks]
        exact ⟨pageTracked, occupied.deallocate member marked⟩
  obtain ⟨tracked, occupied⟩ := kept
  refine ⟨tracked, occupied, fun n positive => ?_, fun block member => ?_⟩
  · obtain ⟨found, after, allocated, _, given, same, placed⟩ := tracked.allocate fewer bounded positive
    exact ⟨found, after, allocated, given, same, fun start is => (placed start is).1⟩
  · obtain ⟨positive, within⟩ := occupied.inside block member
    obtain ⟨after, freed, _, marked⟩ := tracked.deallocate fewer room positive within
    exact ⟨after, freed, marked⟩

/-- A page with seven slots, of which the ones in a mask are in use. -/
def halfUsed (longest : Nat) (mask : BitVec 64) : Page 512 4096 := ⟨longest, ⟨Vector.replicate 8 0#64 |>.set 0 mask⟩⟩

/-- Two blocks are allocated and the first one is given back. Its slots are free, and the next block
can have two slots in front of the other one or behind it. -/
theorem page_exact_reused : (pageCalls 512 4096 4096).Reachable ⟨halfUsed 2 0b11100, [(2, 3)]⟩ ∧
    Tracked (halfUsed 2 0b11100) ∧ Occupied (halfUsed 2 0b11100) [(2, 3)] ∧
    ∃ start after, (halfUsed 2 0b11100).allocate 2 = some (some start, after) ∧
      Given (halfUsed 2 0b11100) after start 2 := by
  have first : (pageCalls 512 4096 4096).Reachable ⟨halfUsed 5 0b11, [(0, 2)]⟩ :=
    @reachable_step _ _ _ _ _ (.allocate 2) (reachable_initial rfl) ⟨by decide, some 0, rfl, rfl⟩
  have second : (pageCalls 512 4096 4096).Reachable ⟨halfUsed 2 0b11111, [(2, 3), (0, 2)]⟩ :=
    @reachable_step _ _ _ _ _ (.allocate 3) first ⟨by decide, some 2, rfl, rfl⟩
  have reachable : (pageCalls 512 4096 4096).Reachable ⟨halfUsed 2 0b11100, [(2, 3)]⟩ :=
    @reachable_step _ _ _ _ _ (.deallocate 0 2) second ⟨by decide, ⟨true, rfl⟩, rfl⟩
  obtain ⟨tracked, occupied, serves, _⟩ := page_exact (by decide) (by decide) (by decide) reachable
  obtain ⟨found, after, allocated, given, _, placed⟩ := serves 2 (by decide)
  obtain ⟨start, rfl⟩ := isSome_iff_exists.mp (given.mpr le_rfl)
  exact ⟨reachable, tracked, occupied, start, after, allocated, placed start rfl⟩

end

section

variable {pages : Pages slot pageSize} {n elem : Nat}

theorem searchPages_stops (n rounds : Nat) (pages : Pages slot pageSize) (lastPage : Iterator) :
    searchPages n (rounds + 1) pages (beginOf pages) lastPage = some (pages, 0, lastPage) := by
  rw [searchPages, beginOf, endOf, differs_normal]
  exact if_neg Bool.false_ne_true

/-- No page is found for a block. -/
theorem deallocate_stops (rounds : Nat) (pages : Pages slot pageSize) (p n : Nat) :
    deallocate (rounds + 1) pages p n = some (pages, false) := by
  rw [deallocate, deallocateFrom, beginOf, endOf, differs_normal]
  exact if_neg Bool.false_ne_true

/-- Every block is the first one of a page that is added for it. -/
theorem allocate_adds (geometry : Geometry slot pageSize) (positive : 1 ≤ n) (fits : n ≤ maxEntries slot pageSize) :
    ∃ page, ∀ rounds (pages : Pages slot pageSize) elem, allocate (rounds + 1) pages n elem =
    some ((emplaceFront pages elem page).2, slotAddress slot pageSize elem 0) := by
  obtain ⟨page, allocated⟩ := newPage_allocate geometry positive fits
  refine ⟨page, ?_⟩
  intro rounds pages elem
  let added := emplaceFront pages elem (newPage slot pageSize)
  have stored : added.2.nodes elem = some ⟨pages.front, newPage slot pageSize⟩ := write_here ..
  have pointed : pointee added.2 ⟨elem, .normal⟩ = some (newPage slot pageSize) := by
    rw [pointee, dereference, stored]
    rfl
  have changed : store added.2 ⟨elem, .normal⟩ page = (emplaceFront pages elem page).2 := by
    rw [store, stored]
    exact congrArg (ForwardList.mk elem) (Function.update_idem ..)
  rw [allocate, if_neg (not_lt.mpr fits), searchPages_stops]
  change allocateIn added.2 ⟨elem, .normal⟩ n = _
  rw [allocateIn, pointed, bind_some, allocated, map_some, changed]
  rfl

end

section

variable {state : State slot pageSize} {n elem p : Nat} {node : Nat} {event : Event}

theorem LivePage.stored {pages : Pages slot pageSize} (live : LivePage pages node) : (pages.nodes node).isSome := by
  obtain ⟨items, represents, member⟩ := live
  obtain ⟨_, cell, stored⟩ := segment_live (strung_segment represents) member
  exact isSome_iff_exists.mpr ⟨cell, stored⟩

section

variable (geometry : Geometry slot pageSize)
include geometry

/-- What lies in the slots of a page lies in its memory. -/
theorem Geometry.within {span : Span}
    (inside : span.Within (dataSpan slot pageSize node)) : span.Within ⟨node, pageSize⟩ := by
  have fits := geometry.fits
  simp only [Span.Within, dataSpan, dataOf] at *
  omega

/-- A page that is fresh is none of the list. -/
theorem Fresh.absent {pages : Pages slot pageSize} (fresh : Fresh pages elem) : pages.nodes elem = none := by
  by_contra present
  have positive : 0 < pageSize := lt_of_lt_of_le (by omega) geometry.fits
  refine fresh.2.2 elem (isSome_iff_ne_none.mpr present) elem ⟨?_, ?_⟩
  · exact ⟨le_refl elem, Nat.lt_add_of_pos_right positive⟩
  · exact ⟨le_refl elem, Nat.lt_add_of_pos_right positive⟩

/-- The pages are a list, and its blocks are safe. -/
structure Kept (state : State slot pageSize) : Prop where
  listed : ∃ items, Represents state.pages items
  safe : Safe state

/-- A state with one more page and a block at its start. -/
def grown (state : State slot pageSize) (n elem : Nat) (page : Page slot pageSize) : State slot pageSize :=
  ⟨(emplaceFront state.pages elem page).2, (slotAddress slot pageSize elem 0, n) :: state.blocks⟩

theorem livePage_grown (kept : Kept state) (fresh : Fresh state.pages elem)
    (page : Page slot pageSize) : LivePage (grown state n elem page).pages elem := by
  obtain ⟨items, represents⟩ := kept.listed
  exact ⟨_, emplaceFront_represents represents fresh.1 (fresh.absent geometry), mem_cons_self⟩

theorem livePage_kept (fresh : Fresh state.pages elem) (page : Page slot pageSize) (live : LivePage state.pages node) :
    LivePage (grown state n elem page).pages node := by
  obtain ⟨items, represents, member⟩ := live
  exact ⟨_, emplaceFront_represents represents fresh.1 (fresh.absent geometry), mem_cons_of_mem _ member⟩

theorem Kept.grow (kept : Kept state) (fits : n ≤ maxEntries slot pageSize)
    (fresh : Fresh state.pages elem) (page : Page slot pageSize) : Kept (grown state n elem page) := by
  have inside : (blockSpan slot (slotAddress slot pageSize elem 0, n)).Within (dataSpan slot pageSize elem) := by
    have bounded : n * slot ≤ maxEntries slot pageSize * slot := Nat.mul_le_mul_right slot fits
    simp only [Span.Within, blockSpan, dataSpan, slotAddress]
    omega
  refine ⟨?_, ?_, ?_⟩
  · obtain ⟨items, represents⟩ := kept.listed
    exact ⟨_, emplaceFront_represents represents fresh.1 (fresh.absent geometry)⟩
  · refine pairwise_cons.mpr ⟨?_, kept.safe.apart⟩
    intro block member cell both
    obtain ⟨node, live, within⟩ := kept.safe.inside block member
    refine fresh.2.2 node live.stored cell ⟨?_, ?_⟩
    · exact Span.holds_of_within (geometry.within inside) both.1
    · exact Span.holds_of_within (geometry.within within) both.2
  · refine forall_mem_cons.mpr ⟨⟨elem, livePage_grown geometry kept fresh page, inside⟩, ?_⟩
    intro block earlier
    obtain ⟨node, live, within⟩ := kept.safe.inside block earlier
    exact ⟨node, livePage_kept geometry fresh page live, within⟩

end

/-- A block that is given back leaves the pages as they are. -/
theorem Kept.shrink (kept : Kept state) (block : Nat × Nat) :
    Kept (⟨state.pages, state.blocks.erase block⟩ : State slot pageSize) := by
  refine ⟨kept.listed, ?_, ?_⟩
  · exact kept.safe.apart.sublist erase_sublist
  · intro other member
    exact kept.safe.inside other (mem_of_mem_erase member)

theorem perform_allocate (geometry : Geometry slot pageSize) (allowed : Allowed state (.allocate n elem)) :
    ∃ page, ∀ rounds, perform (rounds + 1) state (.allocate n elem) =
    some (grown state n elem page, .address (slotAddress slot pageSize elem 0)) := by
  obtain ⟨positive, fits, fresh⟩ := allowed
  obtain ⟨page, adds⟩ := allocate_adds geometry positive fits
  refine ⟨page, ?_⟩
  intro rounds
  have somewhere : slotAddress slot pageSize elem 0 ≠ 0 := by
    rw [slotAddress, dataOf]
    omega
  rw [perform, adds, map_some, grown]
  simp only [if_neg somewhere]

theorem perform_deallocate (rounds : Nat) (state : State slot pageSize) (p n : Nat) :
    perform (rounds + 1) state (.deallocate p n) = some (⟨state.pages, state.blocks.erase (p, n)⟩, .found false) := by
  rw [perform, deallocate_stops]
  rfl

/-- Nothing is performed in no rounds. -/
theorem perform_rounds (allowed : Allowed state event) {rounds : Nat} {result : State slot pageSize × Answer}
    (performed : perform rounds state event = some result) : ∃ fewer, rounds = fewer + 1 := by
  cases rounds with
  | succ fewer => exact ⟨fewer, rfl⟩
  | zero =>
    cases event with
    | allocate n elem =>
      rw [perform, allocate, if_neg (not_lt.mpr allowed.2.1)] at performed
      exact nomatch performed
    | deallocate p n => exact nomatch performed

section

variable (geometry : Geometry slot pageSize)
include geometry

theorem Kept.step (kept : Kept state) {after : State slot pageSize}
    (taken : (allocator slot pageSize).step state event after) : Kept after := by
  obtain ⟨allowed, rounds, answer, performed⟩ := taken
  obtain ⟨fewer, rfl⟩ := perform_rounds allowed performed
  cases event with
  | allocate n elem =>
    obtain ⟨page, grows⟩ := perform_allocate geometry allowed
    cases performed.symm.trans (grows fewer)
    exact kept.grow geometry allowed.2.1 allowed.2.2 page
  | deallocate p n =>
    cases performed.symm.trans (perform_deallocate fewer state p n)
    exact kept.shrink (p, n)

theorem reachable_kept (reachable : (allocator slot pageSize).Reachable state) : Kept state := by
  apply reachable.invariant
  · rintro start rfl
    exact ⟨⟨[], rfl⟩, .nil, nofun⟩
  · intro state event after kept taken
    exact kept.step geometry taken

theorem Kept.serves (kept : Kept state) (allowed : Allowed state (.allocate n elem)) : Serves state n elem := by
  obtain ⟨page, grows⟩ := perform_allocate geometry allowed
  refine ⟨1, _, _, grows 0, ?_, (kept.grow geometry allowed.2.1 allowed.2.2 page).safe⟩
  rw [slotAddress, dataOf]
  omega

/-- An allocation always adds a page, and a page is never found. -/
theorem Kept.correct_iff (kept : Kept state) (allowed : Allowed state event) :
    Correct state event ↔ Meets state event := by
  cases event with
  | deallocate p n =>
    refine iff_of_false ?_ id
    rintro ⟨rounds, after, performed, _⟩
    obtain ⟨fewer, rfl⟩ := perform_rounds allowed performed
    have answered := (Prod.mk.inj (some.inj (performed.symm.trans (perform_deallocate fewer state p n)))).2
    exact Bool.false_ne_true (Answer.found.inj answered).symm
  | allocate n elem =>
    have fresh := allowed.2.2
    constructor
    · rintro ⟨rounds, after, p, performed, _, _, reuses⟩ room
      obtain ⟨fewer, rfl⟩ := perform_rounds allowed performed
      obtain ⟨page, grows⟩ := perform_allocate geometry allowed
      cases performed.symm.trans (grows fewer)
      have stored := (reuses room elem (livePage_grown geometry kept fresh page)).stored
      rw [fresh.absent geometry] at stored
      exact nomatch stored
    · intro full
      obtain ⟨rounds, after, p, performed, real, safe⟩ := kept.serves geometry allowed
      exact ⟨rounds, after, p, performed, real, safe, fun room => absurd room full⟩

end

/-- For every slot size in use and every run: blocks are always apart and inside of pages and an allocation always gives one. It
is wrong exactly if it adds a page although there is room, and giving back is always wrong. -/
theorem allocator_correct_iff (member : slot ∈ slotSizes) {state : State slot (pageSizeOf slot)}
    (reachable : (allocator slot (pageSizeOf slot)).Reachable state) :
    Safe state ∧ (∀ n elem, Allowed state (.allocate n elem) → Serves state n elem) ∧
      ∀ event, Allowed state event → (Correct state event ↔ Meets state event) := by
  have geometry := slotSizes_geometry member
  have kept := reachable_kept geometry reachable
  refine ⟨kept.safe, ?_, ?_⟩
  · intro n elem allowed
    exact kept.serves geometry allowed
  · intro event allowed
    exact kept.correct_iff geometry allowed

/-- Before the first allocation. -/
def unused : State 8 (pageSizeOf 8) := ⟨⟨0, fun _ => none⟩, []⟩

theorem unused_reachable : (allocator 8 (pageSizeOf 8)).Reachable unused := reachable_initial rfl

theorem unused_allowed {n : Nat} (positive : 1 ≤ n) (fits : n ≤ 439) : Allowed unused (.allocate n 4096) :=
  ⟨positive, fits, by decide, by decide, nofun⟩

/-- One block takes all slots of a page. It is right that the next one is in a new page, and wrong
how the block is given back. -/
theorem allocator_correct_iff_full : ∃ state, (allocator 8 (pageSizeOf 8)).Reachable state ∧
    state.blocks = [(4680, 439)] ∧ Correct state (.allocate 1 8192) ∧ ¬ Correct state (.deallocate 4680 439) := by
  have geometry : Geometry 8 (pageSizeOf 8) := slotSizes_geometry (by decide)
  have allowed := unused_allowed (show 1 ≤ 439 by decide) le_rfl
  obtain ⟨page, grows⟩ := perform_allocate geometry allowed
  have reachable := reachable_step unused_reachable ⟨allowed, 1, _, grows 0⟩
  have only (node : Nat) (stored : ((grown unused 439 4096 page).pages.nodes node).isSome) : node = 4096 := by
    by_contra other
    simp [grown, unused, emplaceFront, Heap.write, other] at stored
  have next : Allowed (grown unused 439 4096 page) (.allocate 1 8192) := by
    refine ⟨le_rfl, by decide, by decide, by decide, fun node stored => ?_⟩
    rw [only node stored]
    exact Span.apart_symm (Span.apart_of_le (by decide))
  obtain ⟨_, _, right⟩ := allocator_correct_iff (by decide) reachable
  refine ⟨_, reachable, rfl, (right _ next).mpr ?_, (right (.deallocate 4680 439) mem_cons_self).mp⟩
  rintro ⟨node, start, live, inside, apart⟩
  obtain rfl := only node live.stored
  refine apart _ mem_cons_self (slotAddress 8 (pageSizeOf 8) 4096 start) ?_
  change start + 1 ≤ 439 at inside
  simp only [Span.Holds, blockSpan, slotAddress]
  omega

/-- A block is allocated and given back: its page is not found, and is still there when no block is left. -/
theorem page_not_found : ∃ state, (allocator 8 (pageSizeOf 8)).Reachable state ∧ state.blocks = [(4680, 1)] ∧
    ∃ after, (∀ rounds, perform (rounds + 1) state (.deallocate 4680 1) = some (after, .found false)) ∧
      after.blocks = [] ∧ LivePage after.pages 4096 := by
  have geometry : Geometry 8 (pageSizeOf 8) := slotSizes_geometry (by decide)
  obtain ⟨page, grows⟩ := perform_allocate geometry (unused_allowed le_rfl (by decide))
  refine ⟨grown unused 1 4096 page, reachable_step unused_reachable ⟨unused_allowed le_rfl (by decide), 1, _, grows 0⟩, ?_, ?_⟩
  · rfl
  · refine ⟨_, fun rounds => perform_deallocate rounds _ 4680 1, ?_, ?_⟩
    · rfl
    · exact livePage_grown (n := 1) geometry (reachable_kept geometry unused_reachable) (unused_allowed le_rfl (by decide)).2.2 page

end

end Lfos.SizedAllocator
