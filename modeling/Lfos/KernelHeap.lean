import Lfos.FrameConservation
import Lfos.Results
import Lfos.VirtualBytes

/-!
# The heap of the kernel

The kernel takes whole pages of its own context for every block it allocates. In front of a block
it keeps the size and behind it the complement of the size, by which it detects that a block was
overrun. The frames of the pages and of new tables come from the list of physical pages, which is
itself kept in pages of the heap when it has to grow.

The content of the pages that hold the list is left out, as the list is represented by its
entries. A walk through the heap that is not finished by a number of steps is a fault.
-/

namespace Lfos.KernelHeap

open PageTables PhysicalPages Results Spans TableTrees VirtualBytes Words List

/-- Why a call does not return. -/
inductive Fault where
  | panic (message : String)
  | pageFault
  | unfinished
deriving DecidableEq

structure Kernel where
  memory : Memory
  /-- `VM_KERNEL_CONTEXT` -/
  context : Nat
  /-- `mm_physical_page_list` -/
  pages : List PageListEntry

/-- The bounds of `ALLOCATOR_REGION_KERNEL_HEAP`. -/
def heapStart : Nat := 0xFFFFFFFF90000000

def heapEnd : Nat := 0xFFFFFFFFFFFFFFFF

/-- Take one page of physical memory. -/
def takePage (kernel : Kernel) : Except Fault (Nat × Kernel) :=
  match mmAllocPages 1 kernel.pages with
  | .error message => .error (.panic message)
  | .ok (physical, pages) => .ok (physical, { kernel with pages := pages })

/-- `vm_ensure_table` with a frame from the page list. -/
def ensureTable (kernel : Kernel) (table : Nat) (index : Fin 512) : Except Fault Kernel :=
  if present.get (kernel.memory table index) = 0 then
    (takePage kernel).map (fun taken =>
      { taken.2 with memory := vmEnsureTable taken.2.memory table index (taken.1 / 4096) })
  else .ok kernel

/-- `vm_context_map` with tables from the page list. -/
def mapPage (kernel : Kernel) (virt physical : Nat) : Except Fault Kernel := do
  let withPdp ← ensureTable kernel kernel.context (pml4Index virt)
  let pdp := nextBase.get (withPdp.memory kernel.context (pml4Index virt))
  let withPd ← ensureTable withPdp pdp (pdpIndex virt)
  let pd := nextBase.get (withPd.memory pdp (pdpIndex virt))
  let withPt ← ensureTable withPd pd (pdIndex virt)
  let pt := nextBase.get (withPt.memory pd (pdIndex virt))
  .ok { withPt with
    memory := write withPt.memory pt (ptIndex virt) (pageEntry physical 0 (withPt.memory pt (ptIndex virt))) }

/-- The first address from which on a number of pages is absent, for a number of steps. -/
def vmContextFindFree (memory : Memory) (context finish num : Nat) : Nat → Nat → Option Nat
  | 0, _ => none
  | steps + 1, current =>
    if current ≤ finish then
      if vmContextPagePresent memory context current then
        vmContextFindFree memory context finish num steps (u64 (current + 4096))
      else if (range num).any (fun i => vmContextPagePresent memory context (u64 (current + i * 4096))) then
        vmContextFindFree memory context finish num steps (u64 (current + 4096))
      else some current
    else some 0

/-- Map a page of physical memory of its own to each of a number of pages. -/
def mapPages (kernel : Kernel) (vdest : Nat) : Nat → Except Fault Kernel
  | 0 => .ok kernel
  | num + 1 => do
    let earlier ← mapPages kernel vdest num
    let (physical, taken) ← takePage earlier
    mapPage taken (u64 (vdest + num * 4096)) physical

/-- `vm_context_alloc_pages` for the heap of the kernel. -/
def vmContextAllocPages (steps : Nat) (kernel : Kernel) (num : Nat) : Except Fault (Nat × Kernel) :=
  match vmContextFindFree kernel.memory kernel.context heapEnd num steps heapStart with
  | none => .error .unfinished
  | some vdest =>
    if vdest = 0 then .ok (0, kernel)
    else (mapPages kernel vdest num).map (fun mapped => (vdest, mapped))

/-- `mm_get_page_list_entry` and the assignment to the entry. The list grows by a page of the
heap if it has no unused entry. -/
def putEntry (steps : Nat) (kernel : Kernel) (entry : PageListEntry) : Except Fault Kernel :=
  if kernel.pages.any PageListEntry.unused then .ok { kernel with pages := fillEntry kernel.pages entry }
  else
    match vmContextAllocPages steps kernel 1 with
    | .error fault => .error fault
    | .ok (newEntry, grown) =>
      if newEntry = 0 then .error .pageFault
      else .ok { grown with
        pages := grown.pages ++ entry :: replicate (entriesPerPage - 1) mmDelPageListEntry }

/-- The page list of the kernel. -/
def keeper (steps : Nat) : Keeper Kernel Fault where
  pages := Kernel.pages
  store kernel pages := { kernel with pages }
  put := putEntry steps
  panic := .panic

/-- With an unused entry the list does not grow. -/
theorem putEntry_reuses (steps : Nat) {kernel : Kernel} (entry : PageListEntry)
    (slot : 0 < kernel.pages.countP PageListEntry.unused) :
    putEntry steps kernel entry = .ok { kernel with pages := fillEntry kernel.pages entry } := by
  rw [putEntry, if_pos (any_eq_true.mpr (countP_pos_iff.mp slot))]

theorem keeper_reuses (steps : Nat) : (keeper steps).Reuses :=
  ⟨fun _ _ => rfl, fun _ entry slot => ⟨_, putEntry_reuses steps entry slot, rfl⟩⟩

/-- `mm_mark_physical_pages` with a list that grows. -/
def markPhysicalPages (steps : Nat) : Kernel → Nat → Nat → PageStatus → Except Fault Kernel :=
  mmMarkPhysicalPages (keeper steps)

/-- A range that can be marked is marked exactly, by a list that grows as the kernel's does.
If the list has two unused entries, so that it need not grow, no other range is. -/
theorem mark_exact_iff (steps : Nat) (kernel : Kernel) {start count : Nat} (status : PageStatus)
    (regions : DisjointRegions kernel.pages) (positive : 1 ≤ count) (aligned : start % 4096 = 0)
    (bounded : start + count * 4096 < 2 ^ 64) :
    (Markable kernel.pages start count status → Exact (keeper steps) kernel start count status) ∧
    (2 ≤ kernel.pages.countP PageListEntry.unused →
      (Exact (keeper steps) kernel start count status ↔ Markable kernel.pages start count status)) := by
  have exact := Markable.exact (keeper_reuses steps) status regions positive aligned bounded
  exact ⟨exact, fun slots =>
    ⟨Exact.markable (keeper_reuses steps) status regions positive aligned bounded slots, exact⟩⟩

/-- The pages between a free and a reserved region are marked, with the one unused entry. -/
theorem mark_exact_between_regions : Exact (keeper 0)
    ⟨blank, 0, [⟨0, 16, .free⟩, ⟨0x20000, 8, .reserved⟩, mmDelPageListEntry]⟩ 0x10000 4 .free := by
  refine (mark_exact_iff 0 _ .free ⟨?_, ?_⟩ (by decide) (by decide) (by decide)).1 (.inr ⟨?_, by decide⟩)
  · simp [PageListEntry.Placed, mmDelPageListEntry]
  · simp [Span.Apart, Span.Holds, PageListEntry.frames, mmDelPageListEntry]
    intros
    omega
  · simp [Span.Apart, Span.Holds, markedFrames, PageListEntry.frames, mmDelPageListEntry]
    constructor <;> intros <;> omega

/-- One page inside a free region cannot be reserved: the page behind the whole
region, which had no status, becomes free. -/
theorem reserved_page_splits_badly : ¬ Exact (keeper 0)
    ⟨blank, 0, [⟨0, 16, .free⟩, mmDelPageListEntry, mmDelPageListEntry]⟩ 0x4000 1 .reserved := by
  rintro ⟨after, result, _, kept, _⟩
  have split : mmMarkPhysicalPages (keeper 0)
      ⟨blank, 0, [⟨0, 16, .free⟩, mmDelPageListEntry, mmDelPageListEntry]⟩ 0x4000 1 .reserved =
      .ok ⟨blank, 0, [⟨0, 4, .free⟩, ⟨0x5000, 2 ^ 64 - 4096, .free⟩, ⟨0x4000, 1, .reserved⟩]⟩ := by
    simp [mmMarkPhysicalPages, keeper, putEntry, PageListEntry.encloses, PageListEntry.unused, fill_cons,
      mmDelPageListEntry, u64, u64Sub, findIdx?_cons, Except.bind]
  cases split.symm.trans result
  have changed := kept 16 (by decide)
  revert changed
  decide

/-- A store of eight bytes. -/
def storeU64 (kernel : Kernel) (virt value : Nat) : Except Fault Kernel :=
  match writeNumber kernel.context kernel.memory virt 8 value with
  | none => .error .pageFault
  | some memory => .ok { kernel with memory := memory }

def loadU64 (kernel : Kernel) (virt : Nat) : Except Fault Nat :=
  match readNumber kernel.memory kernel.context virt 8 with
  | none => .error .pageFault
  | some value => .ok value

/-- The bitwise complement of a word. -/
def complement (size : Nat) : Nat := 2 ^ 64 - 1 - size

def vmAlloc (steps : Nat) (kernel : Kernel) (size : Nat) : Except Fault (Nat × Kernel) := do
  let pages := u64 (size + 4095 + 16) / 4096
  let (ptr, kernel) ← vmContextAllocPages steps kernel pages
  let kernel ← storeU64 kernel ptr size
  let kernel ← storeU64 kernel (u64 (ptr + size + 8)) (complement size)
  .ok (u64 (ptr + 8), kernel)

/-- Unmap a page of the heap and give its frame back. -/
def freePage (steps : Nat) (kernel : Kernel) (vir : Nat) : Except Fault Kernel :=
  let phy := vmContextGetPhysicalForVirtual kernel.memory kernel.context vir
  markPhysicalPages steps { kernel with memory := vmContextUnmap kernel.memory kernel.context vir } phy 1 .free

def freePages (steps : Nat) (kernel : Kernel) (start : Nat) : Nat → Except Fault Kernel
  | 0 => .ok kernel
  | num + 1 => do
    let earlier ← freePages steps kernel start num
    freePage steps earlier (u64 (start + num * 4096))

def vmFree (steps : Nat) (kernel : Kernel) (ptr : Nat) : Except Fault Kernel := do
  let size ← loadU64 kernel (u64Sub ptr 8)
  let validation ← loadU64 kernel (u64 (ptr + size))
  if size ≠ complement validation then .error (.panic "VM corruption detected!")
  else freePages steps kernel (u64Sub ptr 8) (u64 (size + 4095) / 4096)

variable {kernel middle after : Kernel} {first : Nat} {data rest : List Nat}

section

/-- The number of free regions that hold a frame. -/
def free (kernel : Kernel) (frame : Nat) : Nat := cover PageListEntry.frames kernel.pages frame

/-- An address of the heap. -/
def InHeap (virt : Nat) : Prop := heapStart ≤ virt ∧ virt < 2 ^ 64

/-- The free frames are in one region each and neither tables nor pages of the heap. -/
structure Sound (kernel : Kernel) : Prop where
  nonempty : kernel.pages ≠ []
  onlyFree : OnlyFree kernel.pages
  once : ∀ frame, free kernel frame ≤ 1
  small : ∀ frame, 0 < free kernel frame → frame < 2 ^ 40
  wellFormed : WellFormed kernel.memory kernel.context
  plain : ∀ virt, InHeap virt → Plain kernel.memory kernel.context virt
  unused : ∀ frame, 0 < free kernel frame → Unused kernel.memory kernel.context frame
  shown : ∀ virt frame, InHeap virt → mapped kernel.memory kernel.context virt = some frame → free kernel frame = 0

/-- What it means that pages of the heap are mapped to frames and frames become tables. -/
structure Allotted (kernel after : Kernel) (first : Nat) (tables data : List Nat) : Prop where
  sound : Sound after
  context : after.context = kernel.context
  extended : Extends kernel.memory after.memory kernel.context tables
  new : ∀ table ∈ tables, ∃ path, locate subtable after.memory 0 kernel.context path = some table
  ledger : ∀ frame, free after frame + (tables ++ data).count frame = free kernel frame
  mapped : ∀ virt, InHeap virt → mapped after.memory kernel.context virt =
    if first ≤ virt / 4096 ∧ virt / 4096 < first + data.length then data[virt / 4096 - first]?
    else mapped kernel.memory kernel.context virt

variable {taken : Kernel} {physical table virt : Nat} {tables more : List Nat} {position : List (Fin 512)}
  {index : Fin 512}

theorem inHeap_lawful (inside : InHeap virt) : Canonical virt ∧ ¬ DirectlyMapped virt := by
  unfold InHeap heapStart at inside
  unfold Canonical DirectlyMapped directMappingStart directMappingEnd
  omega

/-- A frame is the only one of a region of one page. -/
theorem weight_frame (frame other : Nat) : (Span.mk frame 1).weight other = [frame].count other := by
  by_cases here : frame = other
  · rw [Span.weight_of_holds (by simp only [Span.Holds]; omega), here, count_singleton_self]
  · rw [Span.weight_of_not (by simp only [Span.Holds]; omega), count_singleton, if_neg (by simpa using here)]

/-- A page that is taken was free. -/
theorem takePage_spec (sound : Sound kernel) (done : takePage kernel = .ok (physical, taken)) :
    ∃ pages, taken = { kernel with pages := pages } ∧ Sound taken ∧
      ∀ frame, free taken frame + [physical / 4096].count frame = free kernel frame := by
  rw [takePage] at done
  split at done
  · exact absurd done nofun
  next address pages served =>
  obtain ⟨rfl, rfl⟩ := Prod.mk.inj (Except.ok.inj done)
  obtain ⟨length, onlyFree, _, balance⟩ := alloc_spec 1 kernel.pages pages address sound.onlyFree served
  have ledger (frame : Nat) : free { kernel with pages := pages } frame + [address / 4096].count frame =
      free kernel frame := by
    rw [← weight_frame]
    exact balance frame
  have less (frame : Nat) : free { kernel with pages := pages } frame ≤ free kernel frame := by
    rw [← ledger frame]
    exact Nat.le_add_right ..
  refine ⟨pages, rfl, ⟨?_, onlyFree, ?_, ?_, sound.wellFormed, sound.plain, ?_, ?_⟩, ledger⟩
  · intro none
    apply sound.nonempty
    rw [← length_eq_zero_iff, ← length]
    exact length_eq_zero_iff.mpr none
  · exact fun frame => le_trans (less frame) (sound.once frame)
  · exact fun frame some => sound.small frame (lt_of_lt_of_le some (less frame))
  · exact fun frame some => sound.unused frame (lt_of_lt_of_le some (less frame))
  · exact fun virt frame inside found => Nat.le_zero.mp (le_trans (less frame) (le_of_eq (sound.shown virt frame inside found)))

/-- Frames that are taken were free, and none is taken twice. -/
theorem Allotted.nodup (allotted : Allotted kernel after first tables data) (sound : Sound kernel) :
    (tables ++ data).Nodup := by
  rw [nodup_iff_count_le_one]
  intro frame
  have balance := allotted.ledger frame
  have once := sound.once frame
  omega

theorem Allotted.was_free (allotted : Allotted kernel after first tables data) {frame : Nat}
    (member : frame ∈ tables ++ data) : 0 < free kernel frame := by
  have balance := allotted.ledger frame
  have positive := count_pos_iff.mpr member
  omega

theorem Allotted.refl (sound : Sound kernel) (first : Nat) : Allotted kernel kernel first [] [] where
  sound := sound
  context := rfl
  extended := .refl ..
  new _ member := nomatch member
  ledger _ := rfl
  mapped virt _ := by
    simp

/-- Pages that follow each other are mapped one after the other. -/
theorem Allotted.trans (start : Allotted kernel middle first tables data)
    (further : Allotted middle after (first + data.length) more rest) :
    Allotted kernel after first (tables ++ more) (data ++ rest) where
  sound := further.sound
  context := further.context.trans start.context
  extended := start.extended.trans (start.context ▸ further.extended)
  new table member := by
    have second := further.extended
    have new := further.new
    rw [start.context] at second new
    rcases mem_append.mp member with early | late
    · obtain ⟨path, found⟩ := start.new table early
      exact ⟨path, second.keeps path table found⟩
    · exact new table late
  ledger frame := by
    rw [← start.ledger frame, ← further.ledger frame]
    simp only [count_append]
    omega
  mapped virt inside := by
    have second := further.mapped virt inside
    rw [start.context] at second
    rw [second, start.mapped virt inside]
    grind

/-- The pages that are mapped show frames of their own. -/
theorem Allotted.exclusive (allotted : Allotted kernel after first tables data) (sound : Sound kernel) {frame : Nat}
    (inside : InHeap virt) (within : first ≤ virt / 4096) (found : data[virt / 4096 - first]? = some frame) :
    Exclusive after.memory kernel.context InHeap virt frame := by
  have member : frame ∈ data := mem_of_getElem? found
  have wasFree := allotted.was_free (mem_append_right tables member)
  obtain ⟨small, atIndex⟩ := List.getElem?_eq_some_iff.mp found
  obtain ⟨_, dataNodup, apart⟩ := nodup_append.mp (allotted.nodup sound)
  constructor
  · exact inside
  · rw [allotted.mapped virt inside, if_pos (by omega)]
    exact found
  · intro path located
    rcases allotted.extended.finds path frame located with earlier | new
    · exact sound.unused frame wasFree path earlier
    · exact apart frame new frame member rfl
  · intro other otherInside shows
    rw [allotted.mapped other otherInside] at shows
    split at shows
    · obtain ⟨_, atOther⟩ := List.getElem?_eq_some_iff.mp shows
      have same := dataNodup.getElem_inj_iff.mp (atIndex.trans atOther.symm)
      omega
    · have gone := sound.shown other frame otherInside shows
      omega

/-- Other pages keep the frames that are theirs. -/
theorem Allotted.keeps (allotted : Allotted kernel after first tables data) (sound : Sound kernel) {frame : Nat}
    (exclusive : Exclusive kernel.memory kernel.context InHeap virt frame)
    (outside : ¬ (first ≤ virt / 4096 ∧ virt / 4096 < first + data.length)) :
    Exclusive after.memory kernel.context InHeap virt frame ∧ frame ∉ tables ++ data ∧
    after.memory frame = kernel.memory frame := by
  have gone := sound.shown virt frame exclusive.inside exclusive.shown
  have absent : frame ∉ tables ++ data := by
    intro member
    have wasFree := allotted.was_free member
    omega
  refine ⟨⟨exclusive.inside, ?_, ?_, ?_⟩, absent, ?_⟩
  · rw [allotted.mapped virt exclusive.inside, if_neg outside]
    exact exclusive.shown
  · intro path located
    rcases allotted.extended.finds path frame located with earlier | new
    · exact exclusive.table path earlier
    · exact absent (mem_append_left data new)
  · intro other inside shows
    rw [allotted.mapped other inside] at shows
    split at shows
    · exact absurd (mem_append_right tables (mem_of_getElem? shows)) absent
    · exact exclusive.alone other inside shows
  · exact allotted.extended.elsewhere frame exclusive.table (fun new => absent (mem_append_left data new))

variable (sound : Sound kernel)
include sound

/-- The memory may change as long as new tables and pages that are shown are not free. -/
theorem Sound.change {memory : Memory} (wellFormed : WellFormed memory kernel.context)
    (plain : ∀ virt, InHeap virt → Plain memory kernel.context virt)
    (finds : ∀ path frame, locate subtable memory 0 kernel.context path = some frame →
    locate subtable kernel.memory 0 kernel.context path = some frame ∨ free kernel frame = 0)
    (shown : ∀ virt frame, InHeap virt → mapped memory kernel.context virt = some frame → free kernel frame = 0) :
    Sound { kernel with memory := memory } where
  nonempty := sound.nonempty
  onlyFree := sound.onlyFree
  once := sound.once
  small := sound.small
  wellFormed := wellFormed
  plain := plain
  unused frame some path found := by
    rcases finds path frame found with earlier | spent
    · exact sound.unused frame some path earlier
    · exact ne_of_gt some spent
  shown := shown

theorem Sound.untouched {memory : Memory}
    (untouched : Untouched kernel.memory memory kernel.context) : Sound { kernel with memory := memory } := by
  refine sound.change (untouched.wellFormed sound.wellFormed) ?_ ?_ ?_
  · exact fun virt inside => untouched.plain (sound.plain virt inside)
  · exact fun path _ found => .inl ((untouched.located path).symm.trans found)
  · exact fun virt frame inside found => sound.shown virt frame inside ((untouched.mapped virt).symm.trans found)

/-- A missing table is put into a frame that was free. -/
theorem ensureTable_spec (first : Nat)
    (located : locate subtable kernel.memory 0 kernel.context position = some table) (above : position.length ≤ 2)
    (plain : NotHuge position.length (kernel.memory table index)) (done : ensureTable kernel table index = .ok after) :
    (∃ tables, Allotted kernel after first tables []) ∧
    locate subtable after.memory 0 kernel.context (position ++ [index]) =
    some (nextBase.get (after.memory table index)) := by
  rw [ensureTable] at done
  split at done
  · next absent =>
    obtain ⟨⟨physical, taken⟩, served, rfl⟩ := map_ok done
    obtain ⟨pages, rfl, takenSound, ledger⟩ := takePage_spec sound served
    generalize physical / 4096 = frame at ledger ⊢
    have paid := ledger frame
    rw [count_singleton_self] at paid
    have wasFree : 0 < free kernel frame := by omega
    have fresh : Fresh kernel.memory kernel.context frame := ⟨sound.small frame wasFree, sound.unused frame wasFree⟩
    have ensurable : Ensurable kernel.memory kernel.context position table index frame :=
      ⟨sound.wellFormed, located, above, plain, fun _ => fresh⟩
    have ensured := ensurable.ensured
    have extended := ensurable.extension
    refine ⟨⟨[frame], takenSound.change ensured.wellFormed ?_ ?_ ?_, rfl, extended, ?_, ledger, ?_⟩, ensured.located⟩
    · exact fun virt inside => ensured.plain virt (sound.plain virt inside)
    · intro path other found
      refine (extended.finds path other found).imp_right ?_
      intro new
      have once := sound.once frame
      rw [mem_singleton.mp new]
      omega
    · intro virt shownFrame inside found
      rw [ensured.mapped] at found
      exact takenSound.shown virt shownFrame inside found
    · intro table member
      refine ⟨position ++ [index], ?_⟩
      rw [mem_singleton.mp member, ensured.located, vmEnsureTable, if_pos absent, write_here, tableEntry_nextBase, Nat.mod_eq_of_lt fresh.1]
    · intro virt _
      rw [if_neg (by simp)]
      exact ensured.mapped virt
  · next there =>
    cases done
    exact ⟨⟨[], Allotted.refl sound first⟩, located_further position index located above there plain⟩

/-- The tables for an address are found or made. -/
theorem tables_spec {withPdp withPd withPt : Kernel} {pdp pd : Nat} (inside : InHeap virt)
    (madePdp : ensureTable kernel kernel.context (pml4Index virt) = .ok withPdp)
    (pdpIs : pdp = nextBase.get (withPdp.memory kernel.context (pml4Index virt)))
    (madePd : ensureTable withPdp pdp (pdpIndex virt) = .ok withPd)
    (pdIs : pd = nextBase.get (withPd.memory pdp (pdpIndex virt)))
    (madePt : ensureTable withPd pd (pdIndex virt) = .ok withPt) (first : Nat) :
    (∃ tables, Allotted kernel withPt first tables []) ∧
    locate subtable withPt.memory 0 kernel.context (way virt) = some (nextBase.get (withPt.memory pd (pdIndex virt))) := by
  have plain := sound.plain virt inside
  obtain ⟨⟨tables, one⟩, pdpLocated⟩ := ensureTable_spec sound first rfl (by decide) (plain [] _ _ ⟨⟨_, rfl⟩, rfl⟩) madePdp
  rw [← pdpIs, ← one.context] at pdpLocated
  have plainOne := one.sound.plain virt inside
  obtain ⟨⟨more, two⟩, pdLocated⟩ := ensureTable_spec one.sound first pdpLocated (Nat.le_succ 1)
    (plainOne _ _ _ ⟨⟨_, rfl⟩, pdpLocated⟩) madePd
  rw [← pdIs, ← two.context] at pdLocated
  have plainTwo := two.sound.plain virt inside
  obtain ⟨⟨rest, three⟩, ptLocated⟩ := ensureTable_spec two.sound first pdLocated (le_refl 2)
    (plainTwo _ _ _ ⟨⟨_, rfl⟩, pdLocated⟩) madePt
  rw [two.context, one.context] at ptLocated
  exact ⟨⟨_, (one.trans two).trans three⟩, ptLocated⟩

/-- One page of the heap is mapped to a frame that was free. -/
theorem mapPage_spec (inside : InHeap virt) (served : takePage kernel = .ok (physical, taken))
    (done : mapPage taken virt physical = .ok after) :
    ∃ tables, Allotted kernel after (virt / 4096) tables [physical / 4096] := by
  obtain ⟨pages, rfl, takenSound, paid⟩ := takePage_spec sound served
  obtain ⟨withPdp, madePdp, done⟩ := bind_ok done
  obtain ⟨withPd, madePd, done⟩ := bind_ok done
  obtain ⟨⟨memory, context, left⟩, madePt, done⟩ := bind_ok done
  cases done
  obtain ⟨⟨tables, allotted⟩, located⟩ := tables_spec takenSound inside madePdp rfl madePd rfl madePt (virt / 4096)
  obtain rfl : context = kernel.context := allotted.context
  dsimp only at located ⊢
  generalize nextBase.get (memory (nextBase.get (withPd.memory (nextBase.get (withPdp.memory kernel.context
    (pml4Index virt))) (pdpIndex virt))) (pdIndex virt)) = pt at located ⊢
  generalize frameIs : physical / 4096 = frame at paid ⊢
  have once := sound.once frame
  have before := paid frame
  rw [count_singleton_self] at before
  have whole : physical / 4096 % 2 ^ 40 = frame := by
    rw [frameIs]
    exact Nat.mod_eq_of_lt (sound.small frame (by omega))
  have wellFormed := allotted.sound.wellFormed
  have updated : Updated memory (write memory pt (ptIndex virt) (pageEntry physical 0 (memory pt (ptIndex virt))))
      kernel.context virt (some frame) := by
    obtain ⟨canonical, outside⟩ := inHeap_lawful inside
    apply updated_write canonical wellFormed located (fun _ along => along) (fun _ => rfl)
    intro other here
    rw [shown_pageEntry outside here, whole]
  have written := write_extends wellFormed located (pageEntry physical 0 (memory pt (ptIndex virt)))
  have extended := allotted.extended.trans written
  rw [append_nil] at extended
  refine ⟨tables, allotted.sound.change updated.wellFormed ?_ ?_ ?_, rfl, extended, ?_, ?_, ?_⟩
  · exact fun other otherInside => updated.plain other (allotted.sound.plain other otherInside)
  · exact fun path other found => (written.finds path other found).imp_right (fun new => absurd new not_mem_nil)
  · intro other shownFrame otherInside found
    rw [updated.mapped other (inHeap_lawful otherInside).1] at found
    split at found
    · have balance := allotted.ledger frame
      rw [← Option.some.inj found]
      omega
    · exact allotted.sound.shown other shownFrame otherInside found
  · intro table member
    obtain ⟨path, found⟩ := allotted.new table member
    exact ⟨path, written.keeps path table found⟩
  · intro other
    have balance := allotted.ledger other
    rw [append_nil] at balance
    rw [← paid other, ← balance, count_append, ← add_assoc]
    rfl
  · intro other otherInside
    have earlier := allotted.mapped other otherInside
    rw [if_neg (by simp)] at earlier
    rw [updated.mapped other (inHeap_lawful otherInside).1, earlier, length_singleton]
    by_cases here : other / 4096 = virt / 4096
    · rw [if_pos here, if_pos (by omega), here, Nat.sub_self]
      rfl
    · rw [if_neg here, if_neg (by omega)]

/-- A number of pages of the heap is mapped to frames that were free. -/
theorem mapPages_spec {vdest num : Nat} (aligned : vdest % 4096 = 0) (low : heapStart ≤ vdest)
    (high : vdest + num * 4096 ≤ 2 ^ 64) (done : mapPages kernel vdest num = .ok after) :
    ∃ tables data, Allotted kernel after (vdest / 4096) tables data ∧ data.length = num := by
  induction num generalizing after with
  | zero =>
    cases done
    exact ⟨[], [], Allotted.refl sound _, rfl⟩
  | succ num ih =>
    rw [Nat.add_one_mul, ← add_assoc] at high
    obtain ⟨earlier, before, done⟩ := bind_ok done
    obtain ⟨⟨physical, taken⟩, served, last⟩ := bind_ok done
    obtain ⟨tables, data, allotted, length⟩ := ih (by omega) before
    have address : u64 (vdest + num * 4096) = vdest + num * 4096 := u64_of_lt (by omega)
    rw [address] at last
    have inside : InHeap (vdest + num * 4096) := ⟨le_trans low (Nat.le_add_right ..), by omega⟩
    obtain ⟨more, next⟩ := mapPage_spec allotted.sound inside served last
    have page : (vdest + num * 4096) / 4096 = vdest / 4096 + data.length := by omega
    rw [page] at next
    refine ⟨tables ++ more, data ++ [physical / 4096], allotted.trans next, ?_⟩
    rw [length_append, length, length_singleton]

end

section

/-- The heap has a number of absent pages one after the other. -/
def Room (kernel : Kernel) (num : Nat) : Prop :=
  ∃ candidate, heapStart ≤ candidate ∧ candidate % 4096 = 0 ∧ candidate + num * 4096 ≤ 2 ^ 64 ∧
    ∀ i < num, mapped kernel.memory kernel.context (candidate + i * 4096) = none

variable {memory : Memory} {context num candidate steps current found : Nat}

/-- The search does not go past a place that is large enough. -/
theorem findFree_spec (positive : 1 ≤ num) (fits : candidate + num * 4096 ≤ 2 ^ 64)
    (absent : ∀ i < num, mapped memory context (candidate + i * 4096) = none) (before : current ≤ candidate)
    (aligned : current % 4096 = 0) (candidateAligned : candidate % 4096 = 0)
    (returned : vmContextFindFree memory context heapEnd num steps current = some found) :
    current ≤ found ∧ found ≤ candidate ∧ found % 4096 = 0 ∧
    ∀ i < num, mapped memory context (found + i * 4096) = none := by
  have inside : current ≤ heapEnd := by
    unfold heapEnd
    omega
  induction steps generalizing current with
  | zero => exact absurd returned nofun
  | succ steps ih =>
    have further (away : current ≠ candidate)
        (rest : vmContextFindFree memory context heapEnd num steps (u64 (current + 4096)) = some found) :
        current ≤ found ∧ found ≤ candidate ∧ found % 4096 = 0 ∧
          ∀ i < num, mapped memory context (found + i * 4096) = none := by
      have next : u64 (current + 4096) = current + 4096 := u64_of_lt (by omega)
      obtain ⟨low, results⟩ := ih (by omega) (by omega) rest (by unfold heapEnd; omega)
      exact ⟨by omega, results⟩
    rw [vmContextFindFree, if_pos inside] at returned
    split at returned
    · next there =>
      apply further _ returned
      rintro rfl
      have gone := (mapped_none_iff memory context current).mp (by simpa using absent 0 positive)
      rw [gone] at there
      exact absurd there nofun
    · split at returned
      · next some =>
        apply further _ returned
        rintro rfl
        obtain ⟨i, member, there⟩ := any_eq_true.mp some
        have small : i < num := mem_range.mp member
        have address : u64 (current + i * 4096) = current + i * 4096 := u64_of_lt (by omega)
        have gone := (mapped_none_iff memory context _).mp (absent i small)
        rw [address, gone] at there
        exact absurd there nofun
      · next none =>
        obtain rfl := Option.some.inj returned
        refine ⟨le_refl _, before, aligned, ?_⟩
        intro i small
        have address : u64 (current + i * 4096) = current + i * 4096 := u64_of_lt (by omega)
        rw [mapped_none_iff, ← address]
        have nowhere := any_eq_false.mp (Bool.eq_false_iff.mpr none) i (mem_range.mpr small)
        exact Bool.eq_false_iff.mpr nowhere

/-- The pages that are allocated were absent, and are mapped to frames that were free. -/
theorem allocPages_spec {kernel after : Kernel} {vdest : Nat} (sound : Sound kernel) (positive : 1 ≤ num) (room : Room kernel num)
    (done : vmContextAllocPages steps kernel num = .ok (vdest, after)) :
    heapStart ≤ vdest ∧ vdest % 4096 = 0 ∧ vdest + num * 4096 ≤ 2 ^ 64 ∧
    (∀ i < num, mapped kernel.memory kernel.context (vdest + i * 4096) = none) ∧
    ∃ tables data, Allotted kernel after (vdest / 4096) tables data ∧ data.length = num := by
  obtain ⟨candidate, low, candidateAligned, fits, absent⟩ := room
  rw [vmContextAllocPages] at done
  split at done
  · exact nomatch done
  next place returned =>
  obtain ⟨above, below, aligned, gone⟩ := findFree_spec positive fits absent low (by decide) candidateAligned returned
  have nonzero : place ≠ 0 := by
    have start : 0 < heapStart := by decide
    exact ne_of_gt (lt_of_lt_of_le start above)
  rw [if_neg nonzero] at done
  obtain ⟨mapped, made, same⟩ := map_ok done
  obtain ⟨rfl, rfl⟩ := Prod.mk.inj same
  have high : place + num * 4096 ≤ 2 ^ 64 := by omega
  exact ⟨above, aligned, high, gone, mapPages_spec sound aligned above high made⟩

end

section

/-- The number of unused entries of the page list. -/
def slots (kernel : Kernel) : Nat := kernel.pages.countP PageListEntry.unused

/-- What it means that pages of the heap are unmapped and their frames are free again. -/
structure Released (kernel after : Kernel) (first : Nat) (data : List Nat) : Prop where
  sound : Sound after
  context : after.context = kernel.context
  extended : Extends kernel.memory after.memory kernel.context []
  ledger : ∀ frame, free after frame = free kernel frame + data.count frame
  mapped : ∀ virt, InHeap virt → mapped after.memory kernel.context virt =
    if first ≤ virt / 4096 ∧ virt / 4096 < first + data.length then none else mapped kernel.memory kernel.context virt
  slots : slots after + data.length = slots kernel

variable {frame vir : Nat}

theorem Released.trans (start : Released kernel middle first data)
    (further : Released middle after (first + data.length) rest) : Released kernel after first (data ++ rest) where
  sound := further.sound
  context := further.context.trans start.context
  extended := start.extended.trans (start.context ▸ further.extended)
  ledger frame := by
    rw [further.ledger, start.ledger, count_append, add_assoc]
  mapped virt inside := by
    have second := further.mapped virt inside
    rw [start.context] at second
    rw [second, start.mapped virt inside]
    grind
  slots := by
    rw [← start.slots, ← further.slots, length_append]
    omega

/-- The pages that stay are exclusive as they were. -/
theorem Released.exclusive (released : Released kernel after first data) {virt : Nat}
    (exclusive : Exclusive kernel.memory kernel.context InHeap virt frame)
    (stays : ¬ (first ≤ virt / 4096 ∧ virt / 4096 < first + data.length)) :
    Exclusive after.memory kernel.context InHeap virt frame where
  inside := exclusive.inside
  shown := by
    rw [released.mapped virt exclusive.inside, if_neg stays]
    exact exclusive.shown
  table path found := by
    rcases released.extended.finds path frame found with earlier | new
    · exact exclusive.table path earlier
    · exact absurd new not_mem_nil
  alone other inside found := by
    rw [released.mapped other inside] at found
    split at found
    · exact nomatch found
    · exact exclusive.alone other inside found

/-- A frame that is not free is put into an unused entry. -/
theorem mark_frame (steps : Nat) (nonempty : kernel.pages ≠ []) (onlyFree : OnlyFree kernel.pages)
    (gone : free kernel frame = 0) (small : frame < 2 ^ 40) (slot : 0 < slots kernel) :
    markPhysicalPages steps kernel (frame * 4096) 1 .free =
    .ok { kernel with pages := fillEntry kernel.pages ⟨frame * 4096, 1, .free⟩ } := by
  have first : frame * 4096 / 4096 = frame := Nat.mul_div_cancel _ (by decide)
  have missed : kernel.pages.findIdx? (fun entry => entry.encloses (frame * 4096) 1) = none := by
    apply unheld_search onlyFree (Nat.mul_mod_left ..) (le_refl 1) (by omega)
    rw [first]
    exact gone
  simp [markPhysicalPages, mmMarkPhysicalPages, keeper, nonempty, missed, putEntry_reuses steps _ slot]

theorem free_fill (kernel : Kernel) (frame other : Nat) :
    free { kernel with pages := fillEntry kernel.pages ⟨frame * 4096, 1, .free⟩ } other =
      free kernel other + [frame].count other := by
  have first : frame * 4096 / 4096 = frame := Nat.mul_div_cancel _ (by decide)
  rw [free, cover_fill, free, PageListEntry.frames, first, weight_frame]

/-- A page of the heap is given back. -/
theorem freePage_spec (steps : Nat) (sound : Sound kernel) (aligned : vir % 4096 = 0) (small : frame < 2 ^ 40)
    (exclusive : Exclusive kernel.memory kernel.context InHeap vir frame) (slot : 0 < slots kernel) :
    ∃ after, freePage steps kernel vir = .ok after ∧ Released kernel after (vir / 4096) [frame] := by
  obtain ⟨canonical, outside⟩ := inHeap_lawful exclusive.inside
  have plain := sound.plain vir exclusive.inside
  have updated := unmap_updated sound.wellFormed canonical plain
  have extended := unmap_extends sound.wellFormed plain
  have gone : free kernel frame = 0 := sound.shown vir frame exclusive.inside exclusive.shown
  have physical : vmContextGetPhysicalForVirtual kernel.memory kernel.context vir = frame * 4096 := by
    have page := physical_of_mapped exclusive.shown
    have offset := physical_aligned kernel.memory kernel.context outside aligned
    omega
  let released : Kernel :=
    ⟨vmContextUnmap kernel.memory kernel.context vir, kernel.context, fillEntry kernel.pages ⟨frame * 4096, 1, .free⟩⟩
  have marked : freePage steps kernel vir = .ok released := by
    rw [freePage, physical]
    exact mark_frame steps sound.nonempty sound.onlyFree gone small slot
  have ledger (other : Nat) : free released other = free kernel other + [frame].count other := free_fill kernel frame other
  have elsewhere (other : Nat) (different : other ≠ frame) : free released other = free kernel other := by
    rw [ledger other, count_singleton, if_neg (by simpa using Ne.symm different), add_zero]
  refine ⟨_, marked, ⟨?_, ?_, ?_, ?_, ?_, ?_, ?_, ?_⟩, rfl, extended, ledger, ?_, ?_⟩
  · exact fill_ne_nil _ _
  · exact fill_onlyFree sound.onlyFree rfl ⟨Nat.mul_mod_left .., by change frame * 4096 + 1 * 4096 < 2 ^ 64; omega⟩
  · intro other
    by_cases here : other = frame
    · rw [ledger other, here, gone, count_singleton_self]
    · rw [elsewhere other here]
      exact sound.once other
  · intro other some
    by_cases here : other = frame
    · rw [here]
      exact small
    · rw [elsewhere other here] at some
      exact sound.small other some
  · exact updated.wellFormed
  · exact fun other inside => updated.plain other (sound.plain other inside)
  · intro other some path found
    rcases extended.finds path other found with earlier | new
    · by_cases here : other = frame
      · rw [here] at earlier
        exact exclusive.table path earlier
      · rw [elsewhere other here] at some
        exact sound.unused other some path earlier
    · exact absurd new not_mem_nil
  · intro other shownFrame inside found
    rw [updated.mapped other (inHeap_lawful inside).1] at found
    split at found
    · exact nomatch found
    · next away =>
      have different : shownFrame ≠ frame := by
        rintro rfl
        exact away (exclusive.alone other inside found)
      rw [elsewhere shownFrame different]
      exact sound.shown other shownFrame inside found
  · intro other inside
    rw [updated.mapped other (inHeap_lawful inside).1, length_singleton]
    by_cases here : other / 4096 = vir / 4096
    · rw [if_pos here, if_pos (by omega)]
    · rw [if_neg here, if_neg (by omega)]
  · exact fill_unused rfl slot

/-- The first pages of a range are given back. -/
theorem freePages_spec (steps : Nat) {start num : Nat} (sound : Sound kernel) (aligned : start % 4096 = 0)
    (high : start + num * 4096 ≤ 2 ^ 64) (length : data.length = num) (small : ∀ frame ∈ data, frame < 2 ^ 40)
    (exclusive : ∀ i frame, data[i]? = some frame →
    Exclusive kernel.memory kernel.context InHeap (start + i * 4096) frame) (enough : num ≤ slots kernel) :
    ∃ after, freePages steps kernel start num = .ok after ∧ Released kernel after (start / 4096) data := by
  induction num generalizing data with
  | zero =>
    obtain rfl := length_eq_zero_iff.mp length
    exact ⟨kernel, rfl, sound, rfl, .refl .., fun _ => rfl, fun virt _ => by simp, rfl⟩
  | succ num ih =>
    rw [Nat.add_one_mul, ← add_assoc] at high
    obtain ⟨front, last, rfl⟩ : ∃ front last, data = front ++ [last] :=
      ⟨_, _, (dropLast_append_getLast (ne_nil_of_length_eq_add_one length)).symm⟩
    have short : front.length = num := by simpa using length
    have early (i frame : Nat) (found : front[i]? = some frame) : (front ++ [last])[i]? = some frame := by
      obtain ⟨inside, _⟩ := List.getElem?_eq_some_iff.mp found
      rw [List.getElem?_append_left inside]
      exact found
    obtain ⟨middle, before, released⟩ := ih (by omega) short
      (forall_mem_append.mp small).1
      (fun i frame found => exclusive i frame (early i frame found)) (by omega)
    have page : (start + num * 4096) / 4096 = start / 4096 + front.length := by omega
    have lastExclusive := exclusive num last (by rw [← short, List.getElem?_append_right (le_refl _), Nat.sub_self]; rfl)
    have still := released.exclusive lastExclusive (by omega)
    rw [← released.context] at still
    have room : 0 < slots middle := by
      have count := released.slots
      omega
    obtain ⟨after, done, next⟩ := freePage_spec steps released.sound (by omega)
      (small last (mem_append_right _ (mem_singleton_self last))) still room
    rw [page] at next
    refine ⟨after, ?_, released.trans next⟩
    rw [freePages, before]
    rw [u64_of_lt (by omega)]
    exact done

end

end Lfos.KernelHeap
