import Lfos.HandoverStructures

/-!
# When the kernel finds what the loader has left

The parts follow each other from the kernel on, so they share no page and are found if they do not leave
the addresses of the processor. The exception is the framebuffer: its bytes are counted as a signed number
of 32 bits. From half of that range on, the structures are put where the framebuffer is or behind the
kernel.
-/

namespace Lfos.LoaderHandover

open ByteLists ByteViews LoaderPaging PageTables Words List Option

open Lfos.LoaderMemoryMap (MemoryRegion LoaderScratchpad)

section

variable (state : LoaderState)

/-- The bytes of the structures. -/
abbrev areaSize : Nat := loaderStructsAreaSize state.loaderStruct

theorem areaSize_eq : areaSize state =
    50 + 24 * state.memoryMap.length + 272 * state.fileDescriptors.length := by
  have regions := state.regionsInMemory
  have files := state.filesInMemory
  have size : state.loaderStruct.size.toNat = 50 := by
    rw [state.sized]
    rfl
  have regionBytes : u64 (state.memoryMap.length * 24) = state.memoryMap.length * 24 := u64_of_lt (by omega)
  have fileBytes : u64 (state.fileDescriptors.length * 272) = state.fileDescriptors.length * 272 := u64_of_lt (by omega)
  rw [areaSize, loaderStructsAreaSize, state.regionsCounted, state.filesCounted, fileBytes, u64_of_lt (by omega)]
  omega

/-- A product of signed numbers is that of all factors. -/
theorem i32_mul (left right : Int) : i32 (i32 left * right) = i32 (left * right) := by
  have split : i32 left = left - 2 ^ 32 * ((left + 2 ^ 31) / 2 ^ 32) := by
    simp only [i32]
    omega
  have product : i32 left * right = left * right - 2 ^ 32 * ((left + 2 ^ 31) / 2 ^ 32 * right) := by
    rw [split, Int.sub_mul, Int.mul_assoc]
  rw [product]
  simp only [i32]
  omega

/-- The bytes of the framebuffer are counted in 32 bits with a sign. -/
theorem fbSize_eq (struct : LoaderStruct) : fbSize struct =
    if fbBytes struct % 2 ^ 32 < 2 ^ 31 then fbBytes struct % 2 ^ 32 else 2 ^ 64 - 2 ^ 32 + fbBytes struct % 2 ^ 32 := by
  rw [fbSize, i32_mul, ← Int.natCast_mul, ← Int.natCast_mul, ← fbBytes]
  simp only [i32]
  split <;> omega

theorem fbBytes_lt (struct : LoaderStruct) : fbBytes struct < 2 ^ 40 := by
  have stride := struct.fbStride.toNat_lt
  have height := struct.fbHeight.toNat_lt
  have bpp := struct.fbBpp.toNat_lt
  calc fbBytes struct < 2 ^ 16 * 2 ^ 16 * 2 ^ 8 := by
        have area : struct.fbStride.toNat * struct.fbHeight.toNat < 2 ^ 16 * 2 ^ 16 := Nat.mul_lt_mul'' stride height
        exact Nat.mul_lt_mul'' area bpp

end

variable {state : LoaderState} {machine : Machine} {handover : Handover}

section

/-- The pages the loader maps for the framebuffer. -/
def fbPages (state : LoaderState) : Nat :=
  if state.loaderStruct.fbLocation = 0 then 0 else pagesIn (fbSize state.loaderStruct)

def kernelEnd (state : LoaderState) : Nat := u64 (kernelStart + 4096 * pagesIn state.kernelSize)

variable {pml4 : Nat} {struct : LoaderStruct}

/-- The sizes the loader computes with are those of the arrays. -/
structure Measured (state : LoaderState) (struct : LoaderStruct) : Prop where
  size : struct.size.toNat = 50
  regions : u64 (struct.numMemDesc.toNat * 24) = 24 * state.memoryMap.length
  numMemDesc : struct.numMemDesc.toNat = state.memoryMap.length
  numFiles : struct.numFiles.toNat = state.fileDescriptors.length
  area : loaderStructsAreaSize struct = areaSize state

theorem measured_of_same (size : struct.size = state.loaderStruct.size)
    (numMemDesc : struct.numMemDesc = state.loaderStruct.numMemDesc) (numFiles : struct.numFiles = state.loaderStruct.numFiles) :
    Measured state struct := by
  have inMemory := state.regionsInMemory
  have regions : struct.numMemDesc.toNat = state.memoryMap.length := by rw [numMemDesc, state.regionsCounted]
  constructor
  · rw [size, state.sized]
    rfl
  · rw [regions, u64_of_lt (by omega), mul_comm]
  · exact regions
  · rw [numFiles, state.filesCounted]
  · simp only [loaderStructsAreaSize, size, numMemDesc, numFiles]

/-- What is known when the structures are mapped. -/
structure Prepared (state : LoaderState) (handover : Handover) (machine : Machine) : Prop where
  built : Built handover.pml4 machine
  start : handover.loaderStructFinal = u64 (kernelEnd state + 4096 * fbPages state)
  framebuffer : state.loaderStruct.fbLocation ≠ 0 →
    handover.loaderStruct.fbLocation.toNat = kernelEnd state ∧ fbSize state.loaderStruct ≤ 2 ^ 64 - 4096
  measured : Measured state handover.loaderStruct
  mapped : mapStructures state handover.loaderStruct machine handover.pml4 handover.loaderStructFinal = some handover

theorem mapKernel_built {after : Machine} (built : Built pml4 machine)
    (result : mapKernel state machine pml4 = some after) : Built pml4 after := by
  obtain ⟨loader, first, result⟩ := bind_eq_some_iff.mp result
  obtain ⟨pad, second, result⟩ := bind_eq_some_iff.mp result
  obtain ⟨scratchpad, third, fourth⟩ := bind_eq_some_iff.mp result
  have afterLoader := (mapPages_built built first).1
  have afterPad := (mapPages_built afterLoader second).1
  have afterScratchpad := (mapPages_built afterPad third).1
  exact (mapPages_built afterScratchpad fourth).1

/-- The handover has the structure and the address it was made with. -/
theorem mapStructures_fields {filesStart : Nat}
    (result : mapStructures state struct machine pml4 filesStart = some handover) :
    handover.pml4 = pml4 ∧ handover.loaderStruct = struct ∧ handover.loaderStructFinal = filesStart := by
  obtain ⟨taken, _, result⟩ := bind_eq_some_iff.mp result
  obtain ⟨middle, _, result⟩ := bind_eq_some_iff.mp result
  obtain ⟨mapped, _, rfl⟩ := map_eq_some_iff.mp result
  exact ⟨rfl, rfl, rfl⟩

theorem initialize_prepared (ready : Ready machine.pad) (result : initializeVirtualMemory state machine = some handover) :
    ∃ base, Prepared state handover base := by
  obtain ⟨⟨page, rooted⟩, allocated, result⟩ := bind_eq_some_iff.mp result
  obtain ⟨kernel, kernelMapped, result⟩ := bind_eq_some_iff.mp result
  obtain ⟨⟨base, struct, filesStart⟩, framebufferMapped, result⟩ := bind_eq_some_iff.mp result
  obtain ⟨left, rfl, rfl⟩ := (allocate_iff ready (by decide)).mp allocated
  have built := mapKernel_built (take_root ready left) kernelMapped
  obtain ⟨samePml4, sameStruct, sameStart⟩ := mapStructures_fields result
  rw [← samePml4] at built framebufferMapped
  rw [← samePml4, ← sameStruct, ← sameStart] at result
  unfold mapFramebuffer at framebufferMapped
  split at framebufferMapped
  · next none =>
    simp only [some.injEq, Prod.mk.injEq] at framebufferMapped
    obtain ⟨rfl, rfl, rfl⟩ := framebufferMapped
    refine ⟨kernel, built, ?_, fun there => absurd none there, sameStruct ▸ measured_of_same rfl rfl rfl, result⟩
    rw [sameStart, fbPages, if_pos none, Nat.add_zero, kernelEnd, u64_of_lt (u64_lt _)]
  · next there =>
    obtain ⟨framebuffer, mapped, equal⟩ := map_eq_some_iff.mp framebufferMapped
    simp only [Prod.mk.injEq] at equal
    obtain ⟨rfl, rfl, rfl⟩ := equal
    refine ⟨framebuffer, (mapPages_built built mapped).1, ?_, fun _ => ⟨?_, (mapPages_range mapped).2⟩,
      sameStruct ▸ measured_of_same rfl rfl rfl, result⟩
    · rw [sameStart, fbPages, if_neg there, kernelEnd]
    · rw [sameStruct]
      exact UInt64.toNat_ofNat_of_lt (u64_lt _)

end

section

/-- All pages from the structures on. -/
def structurePages (state : LoaderState) : Nat :=
  pagesIn (areaSize state) + filePages state.fileDescriptors

/-- The bytes of the area. -/
def contents (state : LoaderState) (handover : Handover) : List UInt8 :=
  handover.loaderStruct.bytes ++ (state.memoryMap.flatMap regionBytes ++ handover.fileDescriptors.flatMap FileDescriptor.bytes)

theorem regionBytes_length (region : MemoryRegion) : (regionBytes region).length = 24 := by
  simp only [regionBytes, length_append, toBytes_length]

theorem flatMap_length {Record : Type} {encode : Record → List UInt8} {records : List Record} {size : Nat}
    (sizes : ∀ record ∈ records, (encode record).length = size) : (records.flatMap encode).length = size * records.length := by
  induction records with
  | nil => rfl
  | cons record rest ih =>
    rw [flatMap_cons, length_append, sizes record mem_cons_self, length_cons,
      ih (forall_mem_cons.mp sizes).2, Nat.mul_succ, add_comm]

/-- What the loader has put into the area, and what the tables show of it. -/
structure Placed (state : LoaderState) (handover : Handover) (area : Nat) : Prop where
  built : Built handover.pml4 handover.machine
  stored : Stored handover.pml4 handover.machine area (contents state handover)
  aligned : area % 4096 = 0
  descriptors : handover.fileDescriptors = descriptorsFrom handover.loaderStructFinal
    (u64 (handover.loaderStructFinal + 4096 * pagesIn (areaSize state))) state.fileDescriptors
  shown : Reachable handover.loaderStructFinal (structurePages state) →
    ShowsFrames handover.pml4 handover.machine handover.loaderStructFinal area (areaSize state) ∧
      List.Forall₂ (fun file descriptor => descriptor.name = file.name ∧ descriptor.size = file.size ∧
        ShowsFrames handover.pml4 handover.machine (handover.loaderStructFinal + descriptor.offset) file.data file.size)
          state.fileDescriptors handover.fileDescriptors

/-- The structure and the regions are written into the zeros of the area, from the front on. -/
theorem area_written {start : Nat} (built : Built pml4 machine)
    (zeros : Stored pml4 machine start (replicate (areaSize state) 0)) (struct : LoaderStruct) :
    Built pml4 (poke (poke machine start struct.bytes) (start + 50) (state.memoryMap.flatMap regionBytes)) ∧
    Stored pml4 (poke (poke machine start struct.bytes) (start + 50) (state.memoryMap.flatMap regionBytes)) start
    (struct.bytes ++ state.memoryMap.flatMap regionBytes ++ replicate (272 * state.fileDescriptors.length) 0) := by
  have cut : replicate (areaSize state) (0 : UInt8) = [] ++ (replicate 50 0 ++
      (replicate (24 * state.memoryMap.length) 0 ++ replicate (272 * state.fileDescriptors.length) 0)) := by
    rw [replicate_append_replicate, replicate_append_replicate, nil_append, areaSize_eq, add_assoc]
  rw [cut] at zeros
  have header := struct.bytes_length
  have regions : (state.memoryMap.flatMap regionBytes).length = 24 * state.memoryMap.length :=
    flatMap_length (fun region _ => regionBytes_length region)
  have first := header.trans (length_replicate (n := 50) (a := (0 : UInt8))).symm
  have second := regions.trans (length_replicate (n := 24 * state.memoryMap.length) (a := (0 : UInt8))).symm
  have structWritten := zeros.poke first
  have structBuilt := zeros.built first built
  rw [nil_append] at structWritten
  have regionsWritten := structWritten.poke second
  have regionsBuilt := structWritten.built second structBuilt
  rw [header] at regionsWritten regionsBuilt
  rw [append_assoc]
  exact ⟨regionsBuilt, regionsWritten⟩

/-- Where the regions and the descriptors are put. -/
theorem Measured.slots (measured : Measured state struct) (ready : Ready machine.pad)
    (left : Left machine.pad (areaSize state)) : u64 (machine.next + struct.size.toNat) = machine.next + 50 ∧
    u64 (machine.next + 50 + u64 (struct.numMemDesc.toNat * 24)) =
    machine.next + (struct.bytes ++ state.memoryMap.flatMap regionBytes).length := by
  have physical : machine.next + areaSize state ≤ 2 ^ 52 := (take_ready ready left).free_le
  have area := areaSize_eq state
  constructor
  · rw [measured.size, u64_of_lt (by omega)]
  · rw [measured.regions, length_append, struct.bytes_length, flatMap_length (fun region _ => regionBytes_length region),
      u64_of_lt (by omega), add_assoc]

theorem areaSize_le (state : LoaderState) : areaSize state ≤ 2 ^ 60 := by
  have regions := state.regionsInMemory
  have files := state.filesInMemory
  rw [areaSize_eq]
  omega

theorem Prepared.placed (prepared : Prepared state handover machine) : ∃ area, Placed state handover area := by
  have measured := prepared.measured
  obtain ⟨⟨start, taken⟩, allocated, result⟩ := bind_eq_some_iff.mp prepared.mapped
  obtain ⟨mapped, areaMapped, result⟩ := bind_eq_some_iff.mp result
  obtain ⟨⟨last, descriptors⟩, filesMapped, equal⟩ := map_eq_some_iff.mp result
  rw [measured.area] at allocated
  obtain ⟨left, rfl, rfl⟩ := (allocate_iff prepared.built.ready (areaSize_le state)).mp allocated
  obtain ⟨regionsSlot, filesSlot⟩ := measured.slots prepared.built.ready left
  rw [measured.area, regionsSlot] at areaMapped filesMapped
  obtain ⟨written, contents⟩ := area_written (prepared.built.take left) (take_stored prepared.built _) handover.loaderStruct
  obtain ⟨areaBuilt, areaGrown⟩ := mapPages_built written areaMapped
  have front := contents.grown areaGrown
  obtain ⟨built, stored, listed⟩ := mapFiles_stored areaBuilt filesSlot front filesMapped
  have lastEqual : last = handover.machine := congrArg Handover.machine equal
  have descriptorsEqual : descriptors = handover.fileDescriptors := congrArg Handover.fileDescriptors equal
  rw [append_assoc, lastEqual, descriptorsEqual] at stored
  rw [lastEqual] at built filesMapped
  rw [descriptorsEqual] at listed filesMapped
  have aligned := next_aligned machine
  refine ⟨_, built, stored, aligned, listed, fun reachable => ?_⟩
  obtain ⟨kept, shown⟩ := mapFiles_mapped areaBuilt filesSlot front filesMapped reachable.later
  have areaShown := mapPages_shows written areaMapped aligned (left.trans prepared.built.ready.physical)
    (reachable.fewer (Nat.le_add_right _ _))
  exact ⟨areaShown.kept reachable kept, shown⟩

variable {area : Nat}

theorem descriptorsFrom_mem {final filesStart : Nat} {files : List LoaderFileDescriptor} {descriptor : FileDescriptor}
    (member : descriptor ∈ descriptorsFrom final filesStart files) :
    descriptor.name.length = 256 ∧ descriptor.size ≤ 2 ^ 52 ∧ descriptor.offset < 2 ^ 64 := by
  induction files generalizing filesStart with
  | nil => exact nomatch member
  | cons file rest ih =>
    rcases mem_cons.mp member with rfl | later
    · exact ⟨file.named, (Nat.le_add_left _ _).trans file.inMemory, u64Sub_lt _ _⟩
    · exact ih later

theorem Placed.lengths (placed : Placed state handover area) {descriptor : FileDescriptor}
    (member : descriptor ∈ handover.fileDescriptors) : descriptor.bytes.length = 272 := by
  rw [placed.descriptors] at member
  simp only [FileDescriptor.bytes, length_append, toBytes_length, (descriptorsFrom_mem member).1]

theorem descriptorsFrom_length (final filesStart : Nat) (files : List LoaderFileDescriptor) :
    (descriptorsFrom final filesStart files).length = files.length := by
  induction files generalizing filesStart with
  | nil => rfl
  | cons file rest ih => rw [descriptorsFrom, length_cons, length_cons, ih]

theorem Placed.contents_length (placed : Placed state handover area) :
    (contents state handover).length = areaSize state := by
  have count : handover.fileDescriptors.length = state.fileDescriptors.length := by
    rw [placed.descriptors, descriptorsFrom_length]
  rw [contents, length_append, length_append, handover.loaderStruct.bytes_length, flatMap_length (fun region _ =>
    regionBytes_length region), flatMap_length (fun descriptor => placed.lengths), areaSize_eq]
  omega

/-- The processor finds the bytes of frames that are shown. -/
theorem translate_shown {virt physical size offset : Nat} (built : Built pml4 machine)
    (shows : ShowsFrames pml4 machine virt physical size) (usable : Usable (u64 (virt + offset))) (aligned : virt % 4096 = 0)
    (physicalAligned : physical % 4096 = 0) (inside : offset < size) :
    hardwareTranslate machine.memory pml4 (u64 (virt + offset)) = some (physical + offset) := by
  have address : (physical / 4096 + offset / 4096) * 4096 + u64 (virt + offset) % 4096 = physical + offset := by
    simp only [u64]
    omega
  rw [built.translate usable.1 usable.2, shows offset inside, map_some, address]

variable (reachable : Reachable handover.loaderStructFinal (structurePages state))
include reachable

/-- The kernel sees the bytes of the area. -/
theorem Placed.shows (placed : Placed state handover area) :
    Shows handover.view handover.loaderStructFinal (contents state handover) := by
  intro offset byte found
  obtain ⟨inside, _⟩ := List.getElem?_eq_some_iff.mp found
  rw [placed.contents_length] at inside
  have pages := pagesIn_spec (areaSize state)
  have usable := reachable.usable_byte (show offset < 4096 * structurePages state by
    unfold structurePages
    omega)
  rw [Handover.view, translate_shown placed.built (placed.shown reachable).1 usable reachable.aligned placed.aligned inside,
    map_some, placed.stored.bytes offset byte found]

/-- The kernel reads the structures it sees. -/
theorem Placed.reads (placed : Placed state handover area) (prepared : Prepared state handover machine) :
    readBytes handover.view handover.loaderStructFinal 50 = some handover.loaderStruct.bytes ∧
    initMm handover.view handover.loaderStructFinal = some state.memoryMap ∧
    initInit handover.view handover.loaderStructFinal = some handover.fileDescriptors := by
  obtain ⟨header, others⟩ := shows_append.mp (placed.shows reachable)
  obtain ⟨regions, descriptors⟩ := shows_append.mp others
  have length := handover.loaderStruct.bytes_length
  have measured := prepared.measured
  have files : handover.loaderStruct.numFiles.toNat = handover.fileDescriptors.length := by
    rw [measured.numFiles, placed.descriptors, descriptorsFrom_length]
  obtain ⟨sizeRead, regionsCount, filesCount⟩ := readHeader_shows header
  rw [length] at regions descriptors
  rw [flatMap_length (fun region _ => regionBytes_length region), u64_add_word] at descriptors
  refine ⟨?_, ?_, ?_⟩
  · have whole := (readBytes_iff reachable.word).mpr header
    rwa [length] at whole
  · rw [initMm, sizeRead, regionsCount, measured.size, measured.numMemDesc]
    exact readRecords_shows (u64_lt _) (fun region _ => regionBytes_length region)
      (fun region member _ word shown => readRegion_shows (state.regionsWords region member) word shown) regions
  · rw [initInit, sizeRead, bind_some, regionsCount, bind_some, filesCount, bind_some, measured.size,
      measured.regions, files]
    apply readRecords_shows (u64_lt _) (fun descriptor => placed.lengths) _ descriptors
    intro descriptor member address word shown
    rw [placed.descriptors] at member
    obtain ⟨named, small, offset⟩ := descriptorsFrom_mem member
    exact readDescriptor_shows named (by omega) offset word shown

end

section

variable {base first second size other : Nat}

/-- The pages of a part that starts some pages after an address. -/
theorem Part.mem_pages {page : Nat} (aligned : base % 4096 = 0) (inside : page ∈ (Part.mk (u64 (base + 4096 * first)) size).pages) :
    ∃ index < pagesIn size, page = (base / 4096 + first + index) % 2 ^ 52 := by
  obtain ⟨offset, short, rfl⟩ := inside
  dsimp only at short
  have pages := pagesIn_spec size
  refine ⟨offset / 4096, by omega, ?_⟩
  simp only [u64]
  omega

/-- Parts that follow each other share no page. -/
theorem Part.apart (aligned : base % 4096 = 0) (ordered : first + pagesIn size ≤ second) (short : second + pagesIn other ≤ 2 ^ 52) :
    Disjoint (Part.mk (u64 (base + 4096 * first)) size).pages (Part.mk (u64 (base + 4096 * second)) other).pages := by
  rw [Set.disjoint_left]
  intro page left right
  obtain ⟨index, inside, rfl⟩ := Part.mem_pages aligned left
  obtain ⟨slot, within, same⟩ := Part.mem_pages aligned right
  omega

/-- Parts in either order share no page. -/
theorem Part.apart_either (aligned : base % 4096 = 0)
    (apart : first + pagesIn size ≤ second ∨ second + pagesIn other ≤ first)
    (short : first + pagesIn size ≤ 2 ^ 52) (otherShort : second + pagesIn other ≤ 2 ^ 52) :
    Disjoint (Part.mk (u64 (base + 4096 * first)) size).pages (Part.mk (u64 (base + 4096 * second)) other).pages := by
  rcases apart with before | after
  · exact Part.apart aligned before otherShort
  · exact (Part.apart aligned after short).symm

variable {final : Nat} {files : List LoaderFileDescriptor} {descriptor : FileDescriptor}

/-- The distance of a file in pages. -/
theorem descriptorsFrom_within (short : first + filePages files < 2 ^ 52)
    (member : descriptor ∈ descriptorsFrom final (u64 (final + 4096 * first)) files) :
    ∃ index, descriptor.offset = 4096 * index ∧ first ≤ index ∧ index + pagesIn descriptor.size ≤ first + filePages files := by
  induction files generalizing first with
  | nil => exact nomatch member
  | cons file rest ih =>
    rw [filePages_cons] at short ⊢
    rcases mem_cons.mp member with rfl | later
    · refine ⟨first, distance_word (by omega), le_refl _, ?_⟩
      dsimp only
      omega
    · rw [u64_add_word, add_assoc, ← mul_add] at later
      obtain ⟨index, offset, low, high⟩ := ih (by omega) later
      exact ⟨index, offset, by omega, by omega⟩

/-- The files follow each other. -/
theorem descriptorsFrom_ordered (short : first + filePages files < 2 ^ 52) :
    (descriptorsFrom final (u64 (final + 4096 * first)) files).Pairwise
    (fun left right => left.offset + 4096 * pagesIn left.size ≤ right.offset) := by
  induction files generalizing first with
  | nil => exact .nil
  | cons file rest ih =>
    rw [filePages_cons] at short
    rw [descriptorsFrom, u64_add_word, add_assoc, ← mul_add]
    refine .cons ?_ (ih (by omega))
    intro descriptor member
    obtain ⟨index, offset, low, _⟩ := descriptorsFrom_within (by omega) member
    rw [distance_word (by omega)]
    dsimp only
    omega

/-- Each page behind the structures is one of a file. -/
theorem descriptorsFrom_covers {page : Nat} (low : first ≤ page) (high : page < first + filePages files) :
    ∃ descriptor ∈ descriptorsFrom final (u64 (final + 4096 * first)) files, ∃ offset < descriptor.size,
    u64 (final + descriptor.offset + offset) / 4096 = u64 (final + 4096 * page) / 4096 := by
  induction files generalizing first with
  | nil =>
    have none : filePages [] = 0 := rfl
    omega
  | cons file rest ih =>
    rw [filePages_cons] at high
    by_cases here : page < first + pagesIn file.size
    · have pages := pagesIn_spec file.size
      refine ⟨_, mem_cons_self, 4096 * (page - first), ?_, ?_⟩
      · dsimp only
        omega
      · simp only [u64Sub, u64]
        omega
    · obtain ⟨descriptor, member, offset, inside, same⟩ :=
        ih (show first + pagesIn file.size ≤ page by omega) (by omega)
      refine ⟨descriptor, mem_cons_of_mem _ ?_, offset, inside, same⟩
      rw [u64_add_word, add_assoc, ← mul_add]
      exact member

end

end Lfos.LoaderHandover
