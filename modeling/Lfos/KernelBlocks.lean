import Lfos.KernelHeap

/-!
# The blocks of the kernel's heap

The kernel allocates blocks, frees each of them once and writes to the bytes between. As long as
sizes do not wrap, there is room in the heap and the page list has unused entries for the pages
that are freed, blocks are in pages of their own, hold what was written to them last and are
recognized when they are freed.

The number of pages is computed with the size of the bookkeeping when a block is allocated and
without it when the block is freed. So the last page of some blocks stays, namely if the size
leaves no remainder or more than 4080.
-/

namespace Lfos.KernelHeap

open PageTables PhysicalPages Results Spans TableTrees Transitions VirtualBytes Words List

variable {kernel after filled : Kernel} {block other : Block} {size ptr steps : Nat} {tables data : List Nat}

section

/-- A block of a size; its bookkeeping starts at the first address of a page. -/
structure Block where
  start : Nat
  size : Nat
deriving DecidableEq

structure State where
  kernel : Kernel
  live : List Block

inductive Event where
  | alloc (size : Nat)
  | free (block : Block)
  /-- A byte of a block is written. -/
  | store (virt value : Nat)

def heap : System State Event where
  initial state := Sound state.kernel ∧ state.live = []
  step state event after :=
    match event with
    | .alloc size => size < 2 ^ 64 ∧ ∃ steps ptr,
      vmAlloc steps state.kernel size = .ok (ptr, after.kernel) ∧ after.live = ⟨u64Sub ptr 8, size⟩ :: state.live
    | .free block => block ∈ state.live ∧
      (∃ steps, vmFree steps state.kernel (block.start + 8) = .ok after.kernel) ∧ after.live = state.live.erase block
    | .store virt value =>
      (∃ block ∈ state.live, block.start + 8 ≤ virt ∧ virt < block.start + 8 + block.size) ∧
      ∃ memory, writeByte state.kernel.memory state.kernel.context virt value = some memory ∧
        after = { state with kernel := { state.kernel with memory := memory } }

/-- The pages that a block is given, and those that are taken from it. -/
def pagesOf (size : Nat) : Nat := (size + 4111) / 4096

def pagesFreed (size : Nat) : Nat := (size + 4095) / 4096

/-- The size does not wrap and the heap has room for it; the page list has unused entries for
the pages that are freed. -/
def Meets (state : State) : Event → Prop
  | .alloc size => size + 4111 < 2 ^ 64 ∧ Room state.kernel (pagesOf size)
  | .free block => pagesFreed block.size ≤ slots state.kernel
  | .store _ _ => True

/-- An address in the pages of a block. -/
def Block.Holds (block : Block) (virt : Nat) : Prop :=
  block.start ≤ virt ∧ virt < block.start + pagesOf block.size * 4096

/-- The pages of a block are its own, and its bookkeeping is intact. -/
structure Guarded (kernel : Kernel) (block : Block) : Prop where
  aligned : block.start % 4096 = 0
  low : heapStart ≤ block.start
  high : block.start + pagesOf block.size * 4096 ≤ 2 ^ 64
  fits : block.size + 4111 < 2 ^ 64
  owned : ∀ virt, block.Holds virt → ∃ frame, frame < 2 ^ 40 ∧ Exclusive kernel.memory kernel.context InHeap virt frame
  header : ∀ virt, block.start ≤ virt → virt < block.start + 8 →
    readByte kernel.memory kernel.context virt = some (digit block.size (virt - block.start))
  trailer : ∀ virt, block.start + block.size + 8 ≤ virt → virt < block.start + block.size + 8 + 8 →
    readByte kernel.memory kernel.context virt =
      some (digit (complement block.size) (virt - (block.start + block.size + 8)))

/-- No page belongs to both blocks. -/
def Block.Apart (block other : Block) : Prop :=
  block.start + pagesOf block.size * 4096 ≤ other.start ∨ other.start + pagesOf other.size * 4096 ≤ block.start

structure Held (state : State) : Prop where
  sound : Sound state.kernel
  guarded : ∀ block ∈ state.live, Guarded state.kernel block
  apart : state.live.Pairwise Block.Apart

theorem pagesOf_room (size : Nat) : size + 16 ≤ pagesOf size * 4096 := by
  unfold pagesOf
  omega

theorem pagesFreed_le (size : Nat) : pagesFreed size ≤ pagesOf size := by
  unfold pagesFreed pagesOf
  omega

/-- The counts agree exactly for most remainders. -/
theorem pagesFreed_eq_iff (size : Nat) : pagesFreed size = pagesOf size ↔ 1 ≤ size % 4096 ∧ size % 4096 ≤ 4080 := by
  unfold pagesFreed pagesOf
  omega

theorem complement_complement (small : size < 2 ^ 64) : complement (complement size) = size := by
  unfold complement
  omega

variable {virt : Nat}

/-- The bytes of a block and its bookkeeping are in its pages. -/
theorem Block.holds (above : block.start ≤ virt) (below : virt < block.start + block.size + 16) : block.Holds virt := by
  have room := pagesOf_room block.size
  exact ⟨above, by omega⟩

theorem Guarded.inHeap (guarded : Guarded kernel block) (inside : block.Holds virt) : InHeap virt :=
  ⟨le_trans guarded.low inside.1, lt_of_lt_of_le inside.2 guarded.high⟩

theorem Guarded.pointer (guarded : Guarded kernel block) : u64Sub (block.start + 8) 8 = block.start := by
  have room := pagesOf_room block.size
  have high := guarded.high
  rw [u64Sub_of_le (by omega) (by omega), Nat.add_sub_cancel]

/-- Two blocks that have no page in common are apart. -/
theorem apart_of_pages (none : ∀ virt, block.Holds virt → ¬ other.Holds virt) : block.Apart other := by
  have some := pagesOf_room block.size
  have otherSome := pagesOf_room other.size
  have first := none block.start
  have second := none other.start
  unfold Block.Holds at first second
  unfold Block.Apart
  omega

end

section

/-- What the allocation of a block means. -/
structure Allocated (kernel filled after : Kernel) (block : Block) (tables data : List Nat) : Prop where
  absent : ∀ virt, block.Holds virt → mapped kernel.memory kernel.context virt = none
  allotted : Allotted kernel filled (block.start / 4096) tables data
  length : data.length = pagesOf block.size
  pages : after.pages = filled.pages
  context : after.context = kernel.context
  untouched : Untouched filled.memory after.memory kernel.context
  elsewhere : ∀ frame, frame ∉ data → after.memory frame = filled.memory frame
  guarded : Guarded after block

theorem storeU64_written {value : Nat} {memory : Memory}
    (written : writeNumber kernel.context kernel.memory virt 8 value = some memory) :
    storeU64 kernel virt value = .ok { kernel with memory := memory } := by
  rw [storeU64, written]

theorem pagesOf_word (fits : size + 4111 < 2 ^ 64) : u64 (size + 4095 + 16) / 4096 = pagesOf size := by
  rw [u64_of_lt (by omega)]
  rfl

/-- With pages of its own a block is allocated, and its bookkeeping is written. -/
theorem vmAlloc_of_pages {start : Nat} {filled : Kernel} (sound : Sound kernel) (fits : size + 4111 < 2 ^ 64)
    (room : Room kernel (pagesOf size))
    (allocated : vmContextAllocPages steps kernel (pagesOf size) = .ok (start, filled)) :
    ∃ after tables data, vmAlloc steps kernel size = .ok (start + 8, after) ∧
    Allocated kernel filled after ⟨start, size⟩ tables data := by
  have positive : 1 ≤ pagesOf size := by
    unfold pagesOf
    omega
  have inside := pagesOf_room size
  obtain ⟨low, aligned, high, gone, tables, data, pages, length⟩ := allocPages_spec sound positive room allocated
  -- every address of the block is in a page of its own
  have owned (virt : Nat) (above : start ≤ virt) (below : virt < start + pagesOf size * 4096) :
      ∃ frame ∈ data, Exclusive filled.memory kernel.context InHeap virt frame := by
    have index : virt / 4096 - start / 4096 < data.length := by omega
    exact ⟨_, getElem_mem index, pages.exclusive sound ⟨le_trans low above, lt_of_lt_of_le below high⟩
      (Nat.div_le_div_right above) (getElem?_eq_getElem index)⟩
  obtain ⟨one, oneWritten, oneUntouched, oneElsewhere, oneBytes⟩ := writeNumber_exclusive 8 size
    (by omega : start + 8 ≤ 2 ^ 64) (fun virt above below => owned virt above (by omega))
  obtain ⟨two, twoWritten, twoUntouched, twoElsewhere, twoBytes⟩ := writeNumber_exclusive 8 (complement size)
    (by omega : start + size + 8 + 8 ≤ 2 ^ 64) (fun virt above below =>
      (owned virt (by omega) (by omega)).imp (fun _ there => ⟨there.1, there.2.untouched oneUntouched⟩))
  refine ⟨{ filled with memory := two }, tables, data, ?_, ?_⟩
  · have header : storeU64 filled start size = .ok { filled with memory := one } := by
      apply storeU64_written
      rw [pages.context]
      exact oneWritten
    have trailer : storeU64 { filled with memory := one } (u64 (start + size + 8)) (complement size) =
        .ok { filled with memory := two } := by
      rw [u64_of_lt (by omega)]
      apply storeU64_written
      rw [pages.context]
      exact twoWritten
    have answer : u64 (start + 8) = start + 8 := u64_of_lt (by omega)
    rw [vmAlloc, pagesOf_word fits, allocated, ← answer]
    change (storeU64 filled start size).bind _ = _
    rw [header]
    change (storeU64 { filled with memory := one } (u64 (start + size + 8)) (complement size)).bind _ = _
    rw [trailer]
    rfl
  constructor
  · rintro virt ⟨above, below⟩
    dsimp only at above below
    have inHeap : InHeap virt := ⟨le_trans low above, lt_of_lt_of_le below high⟩
    have pageInHeap : InHeap (start + (virt / 4096 - start / 4096) * 4096) :=
      ⟨le_trans low (Nat.le_add_right ..), by omega⟩
    rw [← mapped_same_page kernel.memory kernel.context (inHeap_lawful inHeap).1 (inHeap_lawful pageInHeap).1 (by omega)]
    exact gone _ (by omega)
  · exact pages
  · exact length
  · rfl
  · exact pages.context
  · exact oneUntouched.trans twoUntouched
  · exact fun frame absent => (twoElsewhere frame absent).trans (oneElsewhere frame absent)
  · refine ⟨aligned, low, high, fits, ?_, ?_, ?_⟩
    · intro virt inside
      obtain ⟨frame, member, exclusive⟩ := owned virt inside.1 inside.2
      refine ⟨frame, sound.small frame (pages.was_free (mem_append_right tables member)), ?_⟩
      rw [pages.context]
      exact (exclusive.untouched oneUntouched).untouched twoUntouched
    · intro virt above below
      dsimp only at above below ⊢
      have inHeap : InHeap virt := ⟨le_trans low above, by omega⟩
      rw [pages.context, twoBytes virt inHeap, if_neg (by omega), oneBytes virt inHeap, if_pos ⟨above, below⟩]
    · intro virt above below
      dsimp only at above below ⊢
      have inHeap : InHeap virt := ⟨le_trans low (by omega), by omega⟩
      rw [pages.context, twoBytes virt inHeap, if_pos ⟨above, below⟩]

/-- A block is allocated in pages of its own, and its bookkeeping is written. -/
theorem vmAlloc_spec (sound : Sound kernel) (fits : size + 4111 < 2 ^ 64) (room : Room kernel (pagesOf size))
    (done : vmAlloc steps kernel size = .ok (ptr, after)) :
    ∃ filled block tables data, ptr = block.start + 8 ∧ block.size = size ∧
    Allocated kernel filled after block tables data := by
  have unfolded := done
  rw [vmAlloc, pagesOf_word fits] at unfolded
  obtain ⟨⟨start, filled⟩, pages, _⟩ := bind_ok unfolded
  obtain ⟨same, tables, data, returned, allocated⟩ := vmAlloc_of_pages sound fits room pages
  cases done.symm.trans returned
  exact ⟨filled, ⟨start, size⟩, tables, data, rfl, rfl, allocated⟩

variable (allocated : Allocated kernel filled after block tables data)
include allocated

theorem Allocated.sound : Sound after := by
  have contexts : after.context = filled.context := allocated.context.trans allocated.allotted.context.symm
  have same : after = { filled with memory := after.memory } := by
    rw [← contexts, ← allocated.pages]
  rw [same]
  apply allocated.allotted.sound.untouched
  rw [allocated.allotted.context]
  exact allocated.untouched

/-- A page that was there is not among those of the block. -/
theorem Allocated.outside {frame : Nat} (shown : mapped kernel.memory kernel.context virt = some frame) :
    ¬ (block.start / 4096 ≤ virt / 4096 ∧ virt / 4096 < block.start / 4096 + data.length) := by
  rintro ⟨above, below⟩
  have aligned := allocated.guarded.aligned
  rw [allocated.length] at below
  have absent := allocated.absent virt ⟨by omega, by omega⟩
  rw [shown] at absent
  exact nomatch absent

theorem Allocated.apart (guarded : Guarded kernel other) : other.Apart block := by
  apply apart_of_pages
  intro virt inside within
  obtain ⟨frame, _, exclusive⟩ := guarded.owned virt inside
  exact nomatch (allocated.absent virt within).symm.trans exclusive.shown

end

/-- The frames of the first pages of a range. -/
def framesAt (kernel : Kernel) (start num : Nat) : List Nat :=
  (range num).map (fun i => (mapped kernel.memory kernel.context (start + i * 4096)).getD 0)

theorem framesAt_get {start i frame : Nat} (found : (framesAt kernel start num)[i]? = some frame) :
    i < num ∧ (mapped kernel.memory kernel.context (start + i * 4096)).getD 0 = frame := by
  obtain ⟨inside, same⟩ := List.getElem?_eq_some_iff.mp found
  simp only [framesAt, length_map, length_range, getElem_map, getElem_range] at inside same
  exact ⟨inside, same⟩

/-- The bookkeeping of a block is found, so the block is freed. -/
theorem vmFree_spec (steps : Nat) (sound : Sound kernel) (guarded : Guarded kernel block)
    (enough : pagesFreed block.size ≤ slots kernel) : ∃ after, vmFree steps kernel (block.start + 8) = .ok after ∧
    Released kernel after (block.start / 4096) (framesAt kernel block.start (pagesFreed block.size)) := by
  have inside := pagesOf_room block.size
  have fewer := pagesFreed_le block.size
  have high := guarded.high
  have fits := guarded.fits
  have header : readNumber kernel.memory kernel.context block.start 8 = some block.size :=
    readNumber_digits (by omega) (by omega) guarded.header
  have place : u64 (block.start + 8 + block.size) = block.start + block.size + 8 := by
    rw [u64_of_lt (by omega)]
    omega
  have trailer : readNumber kernel.memory kernel.context (block.start + block.size + 8) 8 =
      some (complement block.size) :=
    readNumber_digits (by unfold complement; omega) (by omega) guarded.trailer
  have pages : u64 (block.size + 4095) / 4096 = pagesFreed block.size := by
    rw [u64_of_lt (by omega)]
    rfl
  have page (i : Nat) (small : i < pagesFreed block.size) : ∃ frame, frame < 2 ^ 40 ∧
      Exclusive kernel.memory kernel.context InHeap (block.start + i * 4096) frame := by
    have before : i * 4096 < pagesOf block.size * 4096 :=
      Nat.mul_lt_mul_of_pos_right (lt_of_lt_of_le small fewer) (by decide)
    exact guarded.owned _ ⟨Nat.le_add_right .., Nat.add_lt_add_left before _⟩
  have bound : block.start + pagesFreed block.size * 4096 ≤ 2 ^ 64 :=
    le_trans (Nat.add_le_add_left (Nat.mul_le_mul_right _ fewer) _) high
  obtain ⟨after, done, released⟩ := freePages_spec steps sound guarded.aligned bound
    (show (framesAt kernel block.start (pagesFreed block.size)).length = pagesFreed block.size from by simp [framesAt])
    (by
      intro frame member
      obtain ⟨i, found⟩ := mem_iff_getElem?.mp member
      obtain ⟨inside, rfl⟩ := framesAt_get found
      obtain ⟨frame, small, exclusive⟩ := page i inside
      rw [exclusive.shown]
      exact small)
    (by
      intro i frame found
      obtain ⟨inside, rfl⟩ := framesAt_get found
      obtain ⟨frame, _, exclusive⟩ := page i inside
      rw [exclusive.shown]
      exact exclusive) enough
  refine ⟨after, ?_, released⟩
  have loadedSize : loadU64 kernel block.start = .ok block.size := by rw [loadU64, header]
  have loadedTrailer : loadU64 kernel (block.start + block.size + 8) = .ok (complement block.size) := by
    rw [loadU64, trailer]
  simp only [vmFree, guarded.pointer, loadedSize, place, loadedTrailer, bind, Except.bind,
    complement_complement (show block.size < 2 ^ 64 by omega),
    ne_eq, not_true_eq_false, if_false, pages]
  exact done

section

/-- The pages of the heap and the free frames are what they were, apart from frames that became
tables. -/
structure Restored (kernel freed : Kernel) : Prop where
  pages : ∀ virt, InHeap virt →
    (mapped freed.memory freed.context virt = none ↔ mapped kernel.memory kernel.context virt = none)
  frames : ∀ frame, 0 < free kernel frame ↔ 0 < free freed frame ∨
    (∃ path, locate subtable freed.memory 0 freed.context path = some frame) ∧
      ∀ path, locate subtable kernel.memory 0 kernel.context path ≠ some frame

variable {freed : Kernel}

section

variable (allocated : Allocated kernel filled after block tables data)
include allocated

theorem Allocated.mapped (inside : InHeap virt) : mapped after.memory kernel.context virt =
    if block.start / 4096 ≤ virt / 4096 ∧ virt / 4096 < block.start / 4096 + data.length then
    data[virt / 4096 - block.start / 4096]? else mapped kernel.memory kernel.context virt :=
  (allocated.untouched.mapped virt).trans (allocated.allotted.mapped virt inside)

/-- The frames of the first pages of a new block are those it was given. -/
theorem Allocated.framesAt (few : num ≤ pagesOf block.size) : framesAt after block.start num = data.take num := by
  have length := allocated.length
  apply ext_getElem
  · simp only [KernelHeap.framesAt, length_map, length_range, length_take]
    omega
  · intro i before _
    simp only [KernelHeap.framesAt, length_map, length_range] at before
    simp only [KernelHeap.framesAt, getElem_map, getElem_range, getElem_take]
    have bound : i * 4096 < pagesOf block.size * 4096 :=
      Nat.mul_lt_mul_of_pos_right (lt_of_lt_of_le before few) (by decide)
    have inside := allocated.guarded.inHeap ⟨Nat.le_add_right block.start (i * 4096), Nat.add_lt_add_left bound _⟩
    have page : (block.start + i * 4096) / 4096 = block.start / 4096 + i := by omega
    rw [allocated.context, allocated.mapped inside, page, if_pos (by omega), Nat.add_sub_cancel_left,
      getElem?_eq_getElem (by omega), Option.getD_some]

/-- A page that is not taken from its block stays. -/
theorem Allocated.leaks (released : Released after freed (block.start / 4096) (data.take (pagesFreed block.size)))
    (fewer : pagesFreed block.size < pagesOf block.size) : ¬ Restored kernel freed := by
  intro restored
  have length := allocated.length
  have bound : pagesFreed block.size * 4096 < pagesOf block.size * 4096 := Nat.mul_lt_mul_of_pos_right fewer (by decide)
  have within : block.Holds (block.start + pagesFreed block.size * 4096) :=
    ⟨Nat.le_add_right .., Nat.add_lt_add_left bound _⟩
  have inside := allocated.guarded.inHeap within
  have page : (block.start + pagesFreed block.size * 4096) / 4096 = block.start / 4096 + pagesFreed block.size := by omega
  have gone := (restored.pages _ inside).mpr (allocated.absent _ within)
  have kept := released.mapped _ inside
  rw [allocated.context, length_take, if_neg (by omega), allocated.mapped inside, page, if_pos (by omega),
    Nat.add_sub_cancel_left, getElem?_eq_getElem (by omega)] at kept
  rw [released.context, allocated.context, kept] at gone
  exact nomatch gone

/-- If all pages of a block are taken from it, nothing but tables is left. -/
theorem Allocated.restores (sound : Sound kernel)
    (released : Released after freed (block.start / 4096) data) : Restored kernel freed := by
  have length := allocated.length
  have aligned := allocated.guarded.aligned
  have contexts := released.context.trans allocated.context
  have extended := released.extended
  rw [allocated.context] at extended
  have ledger (frame : Nat) : free freed frame + tables.count frame = free kernel frame := by
    have paid := allocated.allotted.ledger frame
    have back := released.ledger frame
    have same : free after frame = free filled frame := by rw [free, free, allocated.pages]
    rw [count_append] at paid
    omega
  constructor
  · intro virt inside
    have now := released.mapped virt inside
    rw [allocated.context] at now
    rw [contexts, now, allocated.mapped inside]
    by_cases here : block.start / 4096 ≤ virt / 4096 ∧ virt / 4096 < block.start / 4096 + data.length
    · rw [if_pos here]
      have absent := allocated.absent virt ⟨by omega, by omega⟩
      exact ⟨fun _ => absent, fun _ => rfl⟩
    · rw [if_neg here, if_neg here]
  · intro frame
    rw [contexts]
    constructor
    · intro wasFree
      by_cases table : frame ∈ tables
      · obtain ⟨path, found⟩ := allocated.allotted.new frame table
        rw [← allocated.untouched.located] at found
        exact .inr ⟨⟨path, extended.keeps path frame found⟩, sound.unused frame wasFree⟩
      · have balance := ledger frame
        rw [count_eq_zero_of_not_mem table] at balance
        exact .inl (by omega)
    · rintro (isFree | ⟨⟨path, found⟩, fresh⟩)
      · have balance := ledger frame
        omega
      · rcases extended.finds path frame found with located | new
        · rw [allocated.untouched.located] at located
          rcases allocated.allotted.extended.finds path frame located with earlier | table
          · exact absurd earlier (fresh path)
          · exact allocated.allotted.was_free (mem_append_left data table)
        · exact absurd new not_mem_nil

end

/-- A block that is freed right after its allocation is gone exactly if the counts agree. -/
theorem free_restores_iff (sound : Sound kernel) (fits : size + 4111 < 2 ^ 64) (room : Room kernel (pagesOf size))
    (done : vmAlloc steps kernel size = .ok (ptr, after)) (enough : pagesFreed size ≤ slots after) (stepsFree : Nat) :
    ∃ freed, vmFree stepsFree after ptr = .ok freed ∧
    (Restored kernel freed ↔ 1 ≤ size % 4096 ∧ size % 4096 ≤ 4080) := by
  obtain ⟨filled, block, tables, data, rfl, rfl, allocated⟩ := vmAlloc_spec sound fits room done
  obtain ⟨freed, returned, released⟩ := vmFree_spec stepsFree allocated.sound allocated.guarded enough
  have fewer := pagesFreed_le block.size
  rw [allocated.framesAt fewer] at released
  refine ⟨freed, returned, ?_⟩
  rw [← pagesFreed_eq_iff]
  constructor
  · intro restored
    by_contra different
    exact allocated.leaks released (lt_of_le_of_ne fewer different) restored
  · intro same
    rw [same, ← allocated.length, take_length] at released
    exact allocated.restores sound released

end

section

variable {state after : State}

def State.byte (state : State) (virt : Nat) : Option Nat := readByte state.kernel.memory state.kernel.context virt

/-- What a call makes of the byte at an address of a block. -/
def Event.byte (virt : Nat) (byte : Option Nat) : Event → Option Nat
  | .store other value => if virt = other then some (value % 256) else byte
  | _ => byte

instance : Std.Symm Block.Apart := ⟨fun _ _ apart => Or.symm apart⟩

section

variable (held : Held state)
include held

theorem Held.distinct : state.live.Nodup := by
  apply held.apart.imp
  rintro block _ apart rfl
  have room := pagesOf_room block.size
  unfold Block.Apart at apart
  omega

theorem Held.separate (member : block ∈ state.live) (otherMember : other ∈ state.live)
    (different : other ≠ block) : other.Apart block :=
  held.apart.forall otherMember member different

/-- A call that does not free a block keeps its pages and their bytes but the one that is stored. -/
theorem Held.keeps {event : Event} (meets : Meets state event) (step : heap.step state event after)
    (member : block ∈ state.live) (stays : event ≠ .free block) (inside : block.Holds virt) :
    (∃ frame, frame < 2 ^ 40 ∧ Exclusive after.kernel.memory after.kernel.context InHeap virt frame) ∧
    after.byte virt = event.byte virt (state.byte virt) := by
  obtain ⟨frame, small, exclusive⟩ := (held.guarded block member).owned virt inside
  have same {memory : Memory} (kept : Exclusive memory state.kernel.context InHeap virt frame)
      (contents : memory frame = state.kernel.memory frame) :
      readByte memory state.kernel.context virt = state.byte virt := by
    apply readByte_congr (kept.shown.trans exclusive.shown.symm)
    intro found shown
    cases exclusive.shown.symm.trans shown
    exact contents
  cases event with
  | alloc size =>
    obtain ⟨_, steps, ptr, done, live⟩ := step
    obtain ⟨filled, new, tables, data, rfl, rfl, allocated⟩ := vmAlloc_spec held.sound meets.1 meets.2 done
    obtain ⟨unmoved, absent, contents⟩ := allocated.allotted.keeps held.sound exclusive (allocated.outside exclusive.shown)
    have kept := unmoved.untouched allocated.untouched
    rw [State.byte, allocated.context]
    refine ⟨⟨frame, small, kept⟩, same kept ?_⟩
    rw [allocated.elsewhere frame (fun given => absent (mem_append_right tables given)), contents]
  | free other =>
    obtain ⟨there, ⟨steps, done⟩, live⟩ := step
    have guarded := held.guarded other there
    obtain ⟨freed, returned, released⟩ := vmFree_spec steps held.sound guarded meets
    cases done.symm.trans returned
    have apart := held.separate there member (fun equal => stays (equal ▸ rfl))
    have aligned := guarded.aligned
    have fewer := pagesFreed_le other.size
    have kept := released.exclusive exclusive (by
      simp only [framesAt, length_map, length_range]
      unfold Block.Apart at apart
      unfold Block.Holds at inside
      omega)
    rw [State.byte, released.context]
    exact ⟨⟨frame, small, kept⟩, same kept (released.extended.elsewhere frame exclusive.table not_mem_nil)⟩
  | store target value =>
    obtain ⟨⟨owner, there, low, high⟩, memory, written, rfl⟩ := step
    obtain ⟨place, _, exclusiveThere⟩ := (held.guarded owner there).owned target (owner.holds (by omega) (by omega))
    obtain ⟨changed, returned, untouched, _, bytes⟩ := writeByte_exclusive exclusiveThere value
    cases written.symm.trans returned
    exact ⟨⟨frame, small, exclusive.untouched untouched⟩, bytes virt exclusive.inside⟩

/-- No bookkeeping is written to. -/
theorem Held.unstored {event : Event} (step : heap.step state event after) (member : block ∈ state.live)
    (inside : block.Holds virt) (guard : virt < block.start + 8 ∨ block.start + block.size + 8 ≤ virt) (byte : Option Nat) :
    event.byte virt byte = byte := by
  cases event with
  | store target value =>
    obtain ⟨⟨owner, there, low, high⟩, _⟩ := step
    apply if_neg
    rintro rfl
    by_cases own : block = owner
    · subst own
      omega
    · have apart := held.separate there member own
      have room := pagesOf_room owner.size
      unfold Block.Apart at apart
      unfold Block.Holds at inside
      omega
  | _ => rfl

theorem Held.stays {event : Event} (meets : Meets state event) (step : heap.step state event after)
    (member : block ∈ state.live) (stays : event ≠ .free block) : Guarded after.kernel block := by
  have guarded := held.guarded block member
  have bytes (virt : Nat) (above : block.start ≤ virt) (below : virt < block.start + block.size + 16)
      (guard : virt < block.start + 8 ∨ block.start + block.size + 8 ≤ virt) : after.byte virt = state.byte virt := by
    have inside := block.holds above below
    rw [(held.keeps meets step member stays inside).2, held.unstored step member inside guard]
  refine { guarded with owned := ?_, header := ?_, trailer := ?_ }
  · exact fun virt inside => (held.keeps meets step member stays inside).1
  · exact fun virt above below => (bytes virt above (by omega) (.inl below)).trans (guarded.header virt above below)
  · exact fun virt above below =>
      (bytes virt (by omega) (by omega) (.inr above)).trans (guarded.trailer virt above below)

theorem held_step {event : Event} (meets : Meets state event) (step : heap.step state event after) : Held after := by
  have stays (block : Block) (member : block ∈ state.live) : event ≠ .free block → Guarded after.kernel block :=
    held.stays meets step member
  cases event with
  | alloc size =>
    obtain ⟨_, steps, ptr, done, live⟩ := step
    obtain ⟨filled, block, tables, data, rfl, rfl, allocated⟩ := vmAlloc_spec held.sound meets.1 meets.2 done
    rw [allocated.guarded.pointer] at live
    refine ⟨allocated.sound, ?_, ?_⟩ <;> rw [live]
    · exact forall_mem_cons.mpr ⟨allocated.guarded, fun other earlier => stays other earlier nofun⟩
    · exact pairwise_cons.mpr ⟨fun other earlier => Or.symm (allocated.apart (held.guarded other earlier)), held.apart⟩
  | free block =>
    obtain ⟨member, ⟨steps, done⟩, live⟩ := step
    obtain ⟨freed, returned, released⟩ := vmFree_spec steps held.sound (held.guarded block member) meets
    cases done.symm.trans returned
    refine ⟨released.sound, ?_, ?_⟩ <;> rw [live]
    · intro other left
      rw [held.distinct.mem_erase_iff] at left
      exact stays other left.2 (fun same => left.1 (Event.free.inj same).symm)
    · exact held.apart.sublist erase_sublist
  | store target value =>
    obtain ⟨⟨block, member, above, below⟩, memory, written, rfl⟩ := step
    obtain ⟨frame, _, exclusive⟩ := (held.guarded block member).owned target (block.holds (by omega) (by omega))
    obtain ⟨changed, same, untouched, _, _⟩ := writeByte_exclusive exclusive value
    cases written.symm.trans same
    exact ⟨held.sound.untouched untouched, fun other there => stays other there nofun, held.apart⟩

end

theorem held_of_reachable (reachable : (heap.under Meets).Reachable state) : Held state := by
  apply reachable.invariant
  · rintro ⟨kernel, live⟩ ⟨sound, rfl⟩
    exact ⟨sound, nofun, .nil⟩
  · exact fun state event after held ⟨meets, step⟩ => held_step held meets step

/-- Blocks are in pages of their own with their bookkeeping, every block can be freed, and freeing
a block right after its allocation undoes the allocation exactly if the size leaves a remainder
between 1 and 4080. -/
theorem heap_calls_undone (reachable : (heap.under Meets).Reachable state) : state.live.Pairwise Block.Apart ∧
    (∀ block ∈ state.live, ∀ virt, block.start ≤ virt → virt < block.start + block.size + 16 →
      virt < block.start + pagesOf block.size * 4096 ∧
        ∃ frame, Exclusive state.kernel.memory state.kernel.context InHeap virt frame) ∧
    (∀ block ∈ state.live, pagesFreed block.size ≤ slots state.kernel →
      ∀ steps, ∃ freed, vmFree steps state.kernel (block.start + 8) = .ok freed) ∧
    ∀ steps size ptr kernel, size + 4111 < 2 ^ 64 → Room state.kernel (pagesOf size) →
      vmAlloc steps state.kernel size = .ok (ptr, kernel) → pagesFreed size ≤ slots kernel →
      ∀ stepsFree, ∃ freed, vmFree stepsFree kernel ptr = .ok freed ∧
        (Restored state.kernel freed ↔ 1 ≤ size % 4096 ∧ size % 4096 ≤ 4080) := by
  have held := held_of_reachable reachable
  refine ⟨held.apart, ?_, ?_, ?_⟩
  · intro block member virt above below
    have inside := block.holds above below
    obtain ⟨frame, _, exclusive⟩ := (held.guarded block member).owned virt inside
    exact ⟨inside.2, frame, exclusive⟩
  · intro block member enough steps
    obtain ⟨freed, returned, _⟩ := vmFree_spec steps held.sound (held.guarded block member) enough
    exact ⟨freed, returned⟩
  · intro steps size ptr kernel fits room done enough stepsFree
    exact free_restores_iff held.sound fits room done enough stepsFree

theorem live_step {event : Event} (member : block ∈ state.live) (stays : event ≠ .free block)
    (step : heap.step state event after) : block ∈ after.live := by
  cases event with
  | alloc size =>
    obtain ⟨_, _, _, _, live⟩ := step
    exact live ▸ mem_cons_of_mem _ member
  | free other =>
    obtain ⟨_, _, live⟩ := step
    have different : block ≠ other := fun equal => stays (equal ▸ rfl)
    rwa [live, mem_erase_of_ne different]
  | store target value =>
    obtain ⟨_, _, _, rfl⟩ := step
    exact member

/-- Whatever is allocated, freed and written in between, a block that is not freed holds what was
written to it last. -/
theorem blocks_hold_last_written {events : List Event} (reachable : (heap.under Meets).Reachable state)
    (member : block ∈ state.live) (above : block.start + 8 ≤ virt) (below : virt < block.start + 8 + block.size)
    (run : (heap.under (fun state event => event ≠ .free block ∧ Meets state event)).Run state events after) :
    (heap.under Meets).Reachable after ∧ block ∈ after.live ∧
      after.byte virt = events.foldl (Event.byte virt) (state.byte virt) := by
  induction run with
  | done => exact ⟨reachable, member, rfl⟩
  | next _ taken ih =>
    obtain ⟨⟨stays, meets⟩, step⟩ := taken
    obtain ⟨reached, live, bytes⟩ := ih
    rw [foldl_append, ← bytes]
    have held := held_of_reachable reached
    exact ⟨reachable_under_step reached step meets, live_step live stays step,
      (held.keeps meets step live stays (block.holds (by omega) (by omega))).2⟩

end

/-- An empty heap, and 64 free frames. -/
def emptyHeap : Kernel := ⟨blank, 0, [⟨0x10000, 64, .free⟩, mmDelPageListEntry, mmDelPageListEntry]⟩

theorem emptyHeap_free (frame : Nat) : free emptyHeap frame = if 16 ≤ frame ∧ frame < 80 then 1 else 0 := by
  simp only [free, emptyHeap, cover_cons, cover_nil, del_weight, zero_add]
  rfl

theorem emptyHeap_mapped (virt : Nat) : mapped emptyHeap.memory emptyHeap.context virt = none := by
  have stopped : leaf blank 0 virt = some (0, 0#64) := by
    rw [leaf, indices, stop, show blank 0 (pml4Index virt) = 0#64 from rfl, subtable_absent (BitFields.get_zero present)]
  exact mapped_absent stopped (BitFields.get_zero present)

theorem emptyHeap_sound : Sound emptyHeap where
  nonempty := nofun
  onlyFree := by
    intro entry member
    simp only [emptyHeap, mem_cons, not_mem_nil, or_false, or_self] at member
    rcases member with rfl | rfl
    · exact .inr ⟨rfl, by decide, by decide⟩
    · exact .inl rfl
  once frame := by
    rw [emptyHeap_free]
    split <;> decide
  small frame some := by
    rw [emptyHeap_free] at some
    split at some
    · omega
    · exact absurd some (lt_irrefl 0)
  wellFormed := blank_wellFormed 0
  plain virt _ := blank_plain 0 virt
  unused frame some path found := by
    change locate subtable blank 0 0 path = Option.some frame at found
    rw [blank_locate] at found
    split at found
    · cases found
      exact absurd some (by decide)
    · exact nomatch found
  shown virt frame _ found := absurd ((emptyHeap_mapped virt).symm.trans found) nofun

theorem emptyHeap_room (few : num ≤ 2) : Room emptyHeap num := by
  refine ⟨heapStart, le_refl _, by decide, ?_, fun _ _ => emptyHeap_mapped _⟩
  unfold heapStart
  omega

/-- What a call answers with, and the unused entries it leaves. -/
def summary (result : Except Fault (Nat × Kernel)) : Option (Nat × Nat) :=
  result.toOption.map (fun answer => (answer.1, slots answer.2))

theorem summary_some {result : Except Fault (Nat × Kernel)} {ptr : Nat} (found : summary result = some (ptr, num)) :
    ∃ kernel, result = .ok (ptr, kernel) ∧ slots kernel = num := by
  cases result with
  | error fault => exact nomatch found
  | ok answer =>
    cases found
    exact ⟨answer.2, rfl, rfl⟩

/-- A block of 100 bytes is allocated and freed, and nothing is left of it. -/
theorem heap_calls_undone_small : ∃ ptr kernel freed, vmAlloc 1 emptyHeap 100 = .ok (ptr, kernel) ∧
    vmFree 0 kernel ptr = .ok freed ∧ Restored emptyHeap freed := by
  have computed : summary (vmAlloc 1 emptyHeap 100) = some (heapStart + 8, 2) := by decide +kernel
  obtain ⟨kernel, allocated, unused⟩ := summary_some computed
  have reachable : (heap.under Meets).Reachable ⟨emptyHeap, []⟩ := reachable_initial ⟨emptyHeap_sound, rfl⟩
  obtain ⟨freed, returned, restored⟩ := (heap_calls_undone reachable).2.2.2 1 100 _ kernel (by decide)
    (emptyHeap_room (by decide)) allocated (by rw [unused]; decide) 0
  exact ⟨_, kernel, freed, allocated, returned, restored.mpr (by decide)⟩

/-- A block of 100 bytes at the start of the heap. -/
def firstBlock : Block := ⟨heapStart, 100⟩

/-- The first byte of a block is written. -/
theorem blocks_hold_last_written_once : ∃ kernel memory, vmAlloc 1 emptyHeap 100 = .ok (heapStart + 8, kernel) ∧
    writeByte kernel.memory kernel.context (heapStart + 8) 300 = some memory ∧
    readByte memory kernel.context (heapStart + 8) = some 44 := by
  have computed : summary (vmAlloc 1 emptyHeap 100) = some (heapStart + 8, 2) := by decide +kernel
  obtain ⟨kernel, allocated, _⟩ := summary_some computed
  have live : [firstBlock] = [⟨u64Sub (heapStart + 8) 8, 100⟩] := by decide
  have initial : (heap.under Meets).Reachable ⟨emptyHeap, []⟩ := reachable_initial ⟨emptyHeap_sound, rfl⟩
  have taken : heap.step ⟨emptyHeap, []⟩ (.alloc 100) ⟨kernel, [firstBlock]⟩ := ⟨by decide, 1, _, allocated, live⟩
  have reachable := reachable_under_step initial taken ⟨by decide, emptyHeap_room (by decide)⟩
  have member : firstBlock ∈ [firstBlock] := mem_singleton_self _
  obtain ⟨frame, _, exclusive⟩ :=
    ((held_of_reachable reachable).guarded firstBlock member).owned (heapStart + 8) ⟨by decide, by decide⟩
  obtain ⟨memory, written, _⟩ := writeByte_exclusive exclusive 300
  have run : (heap.under (fun state event => event ≠ .free firstBlock ∧ Meets state event)).Run ⟨kernel, [firstBlock]⟩
      [.store (heapStart + 8) 300] ⟨{ kernel with memory := memory }, [firstBlock]⟩ :=
    .next .done ⟨⟨by simp, trivial⟩, ⟨firstBlock, member, by decide, by decide⟩, memory, written, rfl⟩
  exact ⟨kernel, memory, allocated, written, (blocks_hold_last_written reachable member (by decide) (by decide) run).2.2⟩

/-- Of a block of 4096 bytes a page is left. -/
theorem whole_page_leaks : ∃ ptr kernel freed, vmAlloc 1 emptyHeap 4096 = .ok (ptr, kernel) ∧
    vmFree 0 kernel ptr = .ok freed ∧ ¬ Restored emptyHeap freed := by
  have computed : summary (vmContextAllocPages 1 emptyHeap (pagesOf 4096)) = some (heapStart, 2) := by decide +kernel
  obtain ⟨filled, pages, unused⟩ := summary_some computed
  obtain ⟨kernel, tables, data, returned, allocated⟩ :=
    vmAlloc_of_pages emptyHeap_sound (by decide) (emptyHeap_room (by decide)) pages
  have enough : pagesFreed 4096 ≤ slots kernel := by
    rw [slots, allocated.pages, ← slots, unused]
    decide
  obtain ⟨freed, undone, restored⟩ := free_restores_iff emptyHeap_sound (by decide) (emptyHeap_room (by decide))
    returned enough 0
  refine ⟨_, kernel, freed, returned, undone, ?_⟩
  rw [restored]
  decide

end Lfos.KernelHeap
