import Lfos.HandoverLayout

/-!
# The handover as a question of sizes

The kernel finds what the loader has left if and only if the sizes fit. Where they do, the parts are laid
out one after the other. Where they do not, some page of the structures or the files is no address of the
processor, or is one of the framebuffer or the kernel.
-/

namespace Lfos.LoaderHandover

open ByteViews LoaderPaging PageTables Words Option

open Lfos.LoaderMemoryMap (MemoryRegion LoaderScratchpad)

variable {state : LoaderState} {machine : Machine} {handover : Handover} {area : Nat}

section

/-- The structures and the files. -/
abbrev rearParts (state : LoaderState) (handover : Handover) : List Part :=
  ⟨handover.loaderStructFinal, areaSize state⟩ :: fileParts handover

/-- A part that shares no page with them. -/
abbrev Beside (state : LoaderState) (handover : Handover) (part : Part) : Prop :=
  ∀ other ∈ rearParts state handover, Disjoint part.pages other.pages

section

variable (placed : Placed state handover area)
include placed

theorem Placed.file_start {descriptor : FileDescriptor}
    (member : descriptor ∈ handover.fileDescriptors) (short : structurePages state < 2 ^ 52) :
    ∃ index, descriptor.offset = 4096 * index ∧
    pagesIn (areaSize state) ≤ index ∧ index + pagesIn descriptor.size ≤ structurePages state := by
  rw [placed.descriptors] at member
  exact descriptorsFrom_within short member

/-- The structures and the files share no page. -/
theorem Placed.structures_apart (short : structurePages state < 2 ^ 52)
    (aligned : handover.loaderStructFinal % 4096 = 0) (word : handover.loaderStructFinal < 2 ^ 64) :
    (rearParts state handover).Pairwise (fun left right => Disjoint left.pages right.pages) := by
  have start : handover.loaderStructFinal = u64 (handover.loaderStructFinal + 4096 * 0) := (u64_of_lt word).symm
  constructor
  · intro part member
    obtain ⟨descriptor, inside, rfl⟩ := List.mem_map.mp member
    obtain ⟨index, offset, low, high⟩ := placed.file_start inside short
    rw [offset]
    nth_rewrite 1 [start]
    exact Part.apart aligned (by omega) (by omega)
  · rw [fileParts, List.pairwise_map]
    have ordered := placed.descriptors ▸ descriptorsFrom_ordered short
    refine ordered.imp_of_mem ?_
    intro left right leftMember rightMember follows
    obtain ⟨leftIndex, leftOffset, _, _⟩ := placed.file_start leftMember short
    obtain ⟨rightIndex, rightOffset, _, rightHigh⟩ := placed.file_start rightMember short
    rw [leftOffset, rightOffset] at follows ⊢
    exact Part.apart aligned (by omega) (by omega)

/-- A part beside the structures and the files shares no page with them. The distances are counted from an
address before all of them. -/
theorem Placed.beside (part : Part) {base structures start : Nat}
    (aligned : base % 4096 = 0) (here : handover.loaderStructFinal = u64 (base + 4096 * structures))
    (there : part.start = u64 (base + 4096 * start))
    (apart : start + pagesIn part.size ≤ structures ∨ structures + structurePages state ≤ start)
    (short : structures + structurePages state < 2 ^ 52) (partShort : start + pagesIn part.size ≤ 2 ^ 52) :
    Beside state handover part := by
  obtain ⟨partStart, partSize⟩ := part
  dsimp only at there apart partShort
  have whole : pagesIn (areaSize state) ≤ structurePages state := Nat.le_add_right _ _
  refine List.forall_mem_cons.mpr ⟨?_, List.forall_mem_map.mpr ?_⟩
  · rw [here, there]
    exact Part.apart_either aligned (by omega) partShort (by omega)
  · intro descriptor inside
    obtain ⟨index, offset, low, high⟩ := placed.file_start inside (by omega)
    rw [here, there, offset, u64_add_word, add_assoc, ← mul_add]
    exact Part.apart_either aligned (by omega) partShort (by omega)

/-- The parts share no page if the framebuffer follows the kernel and the rest is in front of or behind
both. -/
theorem Placed.apart (prepared : Prepared state handover machine)
    {base kernel structures : Nat} (aligned : base % 4096 = 0) (here : handover.loaderStructFinal = u64 (base + 4096 * structures))
    (there : kernelStart = u64 (base + 4096 * kernel)) (short : structures + structurePages state < 2 ^ 52)
    (kernelApart : kernel + pagesIn state.kernelSize ≤ structures ∨ structures + structurePages state ≤ kernel)
    (kernelShort : kernel + pagesIn state.kernelSize ≤ 2 ^ 52) (framebufferApart : state.loaderStruct.fbLocation ≠ 0 →
    kernel + pagesIn state.kernelSize + pagesIn (fbBytes state.loaderStruct) ≤ structures ∨
    structures + structurePages state ≤ kernel + pagesIn state.kernelSize)
    (framebufferShort : state.loaderStruct.fbLocation ≠ 0 →
    kernel + pagesIn state.kernelSize + pagesIn (fbBytes state.loaderStruct) ≤ 2 ^ 52) :
    (parts state handover).Pairwise (fun left right => Disjoint left.pages right.pages) := by
  have word : handover.loaderStructFinal < 2 ^ 64 := by
    rw [here]
    exact u64_lt _
  have finalAligned : handover.loaderStructFinal % 4096 = 0 := by
    rw [here, u64]
    omega
  have rest := placed.structures_apart (by omega) finalAligned word
  have besideKernel := placed.beside ⟨kernelStart, state.kernelSize⟩ aligned here there kernelApart short kernelShort
  have framebufferStart : kernelEnd state = u64 (base + 4096 * (kernel + pagesIn state.kernelSize)) := by
    rw [kernelEnd, there, u64_add_word, add_assoc, ← mul_add]
  unfold parts framebufferParts
  split
  · exact .cons besideKernel rest
  · next framed =>
    obtain ⟨location, _⟩ := prepared.framebuffer framed
    rw [location]
    have besideFramebuffer := placed.beside ⟨kernelEnd state, fbBytes state.loaderStruct⟩ aligned here
      framebufferStart (framebufferApart framed) short (framebufferShort framed)
    refine .cons (List.forall_mem_cons.mpr ⟨?_, besideKernel⟩) (.cons besideFramebuffer rest)
    rw [there, framebufferStart]
    exact Part.apart aligned (le_refl _) (framebufferShort framed)

/-- The kernel finds all files if the pages from the structures on are addresses of the processor. -/
theorem Placed.files_found
    (reachable : Reachable handover.loaderStructFinal (structurePages state)) (short : structurePages state < 2 ^ 52) :
    List.Forall₂ (FileFound handover) state.fileDescriptors handover.fileDescriptors := by
  obtain ⟨lengths, shown⟩ := List.forall₂_iff_zip.mp (placed.shown reachable).2
  refine List.forall₂_iff_zip.mpr ⟨lengths, ?_⟩
  intro file descriptor member
  obtain ⟨name, size, frames⟩ := shown member
  obtain ⟨index, offset, _, high⟩ := placed.file_start (List.of_mem_zip member).2 short
  refine ⟨name, size, fun distance inside => ?_⟩
  have aligned : (handover.loaderStructFinal + descriptor.offset) % 4096 = 0 := by
    have start := reachable.aligned
    omega
  have usable : Usable (u64 (handover.loaderStructFinal + descriptor.offset + distance)) := by
    have pages := pagesIn_spec descriptor.size
    rw [add_assoc]
    apply reachable.usable_byte
    omega
  exact translate_shown placed.built frames usable aligned file.aligned inside

/-- The kernel finds everything if the pages are addresses of the processor and apart. -/
theorem Placed.handedOver (prepared : Prepared state handover machine)
    (reachable : Reachable handover.loaderStructFinal (structurePages state)) (short : structurePages state < 2 ^ 52)
    (apart : (parts state handover).Pairwise (fun left right => Disjoint left.pages right.pages)) : HandedOver state handover := by
  obtain ⟨header, regions, descriptors⟩ := placed.reads reachable prepared
  exact ⟨header, regions, descriptors, placed.files_found reachable short, apart⟩

end

/-- The kernel is mapped in front of the end of the address space. -/
theorem kernelStart_place : kernelStart + 4096 * 0x7F000 = 2 ^ 64 := by decide

variable {page virt : Nat}

/-- The pages from somewhat below the kernel on are addresses of the processor, up to the end of the lower
half. -/
theorem reachable_from {start count : Nat} (here : virt = u64 (kernelStart + 4096 * start))
    (near : 2 ^ 52 - 2 ^ 20 ≤ start ∧ start + count ≤ 2 ^ 52 ∨ start + count ≤ 0x7F000 + 2 ^ 35) : Reachable virt count := by
  have place := kernelStart_place
  have word : virt < 2 ^ 64 := by
    rw [here]
    exact u64_lt _
  have short : count ≤ 2 ^ 52 := by omega
  refine ⟨?_, word, short, ?_⟩
  · rw [here, u64]
    omega
  · intro page inside
    rw [here, u64_add_word]
    unfold Usable Canonical DirectlyMapped directMappingStart directMappingEnd
    rw [u64]
    omega

theorem pagesIn_wrapped (bytes : Nat) : pagesIn (2 ^ 64 - 2 ^ 32 + bytes) = 2 ^ 52 - 2 ^ 20 + pagesIn bytes := by
  simp only [pagesIn]
  omega

theorem pagesIn_le {size bound : Nat} (small : size ≤ 4096 * bound) : pagesIn size ≤ bound := by
  rw [pagesIn]
  omega

theorem kernelPages_le (state : LoaderState) : pagesIn state.kernelSize ≤ 2 ^ 40 := by
  have inMemory := state.kernelInMemory
  exact pagesIn_le (by omega)

/-- The structures start after as many pages. -/
theorem Prepared.final (prepared : Prepared state handover machine) :
    handover.loaderStructFinal = u64 (kernelStart + 4096 * (pagesIn state.kernelSize + fbPages state)) := by
  rw [prepared.start, kernelEnd, u64_add_word, add_assoc, ← mul_add]

theorem kernelStart_aligned : kernelStart % 4096 = 0 := by decide

theorem kernelStart_here : kernelStart = u64 (kernelStart + 4096 * 0) := by decide

/-- The pages the loader counts for the framebuffer. -/
theorem fbPages_eq (framed : state.loaderStruct.fbLocation ≠ 0) : fbPages state =
    if fbBytes state.loaderStruct % 2 ^ 32 < 2 ^ 31 then pagesIn (fbBytes state.loaderStruct % 2 ^ 32)
    else 2 ^ 52 - 2 ^ 20 + pagesIn (fbBytes state.loaderStruct % 2 ^ 32) := by
  rw [fbPages, if_neg framed, fbSize_eq]
  split
  · rfl
  · exact pagesIn_wrapped _

/-- A framebuffer that goes back by almost all pages brings the kernel behind the structures. -/
theorem back_to_kernel {kernel frames final : Nat} (placed : final = u64 (kernelStart + 4096 * (kernel + (2 ^ 52 - 2 ^ 20 + frames))))
    (short : frames + kernel ≤ 2 ^ 20) : u64 (final + 4096 * (2 ^ 20 - frames - kernel)) = kernelStart := by
  have turn : kernel + (2 ^ 52 - 2 ^ 20 + frames) + (2 ^ 20 - frames - kernel) = 2 ^ 52 := by omega
  rw [placed, u64_add_word, add_assoc, ← mul_add, turn]
  decide

variable (placed : Placed state handover area) (prepared : Prepared state handover machine)
include placed prepared

/-- The parts follow each other. -/
theorem handedOver_of_following
    (framebuffer : state.loaderStruct.fbLocation ≠ 0 → fbPages state = pagesIn (fbBytes state.loaderStruct))
    (fits : pagesIn state.kernelSize + fbPages state + structurePages state ≤ 0x7F000 + 2 ^ 35) :
    HandedOver state handover := by
  apply placed.handedOver prepared (reachable_from prepared.final (.inr fits)) (by omega)
  refine placed.apart prepared kernelStart_aligned prepared.final kernelStart_here (by omega) (.inl (by omega)) (by omega) ?_ ?_
  all_goals
    intro framed
    have same := framebuffer framed
    omega

/-- The structures and the files are in front of the kernel. -/
theorem handedOver_of_before
    (framed : state.loaderStruct.fbLocation ≠ 0) (negative : 2 ^ 31 ≤ fbBytes state.loaderStruct % 2 ^ 32)
    (fits : pagesIn state.kernelSize + structurePages state + pagesIn (fbBytes state.loaderStruct % 2 ^ 32) ≤ 2 ^ 20) :
    HandedOver state handover := by
  have pages := fbPages_eq framed
  rw [if_neg (not_lt.mpr negative)] at pages
  have bytes := fbBytes_lt state.loaderStruct
  have framebuffer : pagesIn (fbBytes state.loaderStruct) ≤ 2 ^ 28 := pagesIn_le (by omega)
  have final := prepared.final
  rw [pages] at final
  have reachable : Reachable handover.loaderStructFinal (structurePages state) :=
    reachable_from final (.inl ⟨by omega, by omega⟩)
  apply placed.handedOver prepared reachable (by omega)
  -- The distances are counted from the structures, with the kernel where the loader has gone back from.
  have here : handover.loaderStructFinal = u64 (handover.loaderStructFinal + 4096 * 0) := (u64_of_lt reachable.word).symm
  have there : kernelStart = u64 (handover.loaderStructFinal +
      4096 * (2 ^ 20 - pagesIn (fbBytes state.loaderStruct % 2 ^ 32) - pagesIn state.kernelSize)) :=
    (back_to_kernel final (by omega)).symm
  exact placed.apart prepared reachable.aligned here there (by omega) (.inr (by omega)) (by omega) (by omega) (by omega)

theorem handedOver_of_fits (fits : Fits state) : HandedOver state handover := by
  unfold Fits at fits
  dsimp only at fits
  split at fits
  · next unframed =>
    have none : fbPages state = 0 := if_pos unframed
    apply handedOver_of_following placed prepared (fun framed => absurd unframed framed)
    unfold structurePages areaSize
    omega
  · next framed =>
    split at fits
    · next small =>
      have same : fbPages state = pagesIn (fbBytes state.loaderStruct) := by
        rw [fbPages_eq framed, Nat.mod_eq_of_lt (by omega), if_pos small]
      apply handedOver_of_following placed prepared (fun _ => same)
      unfold structurePages areaSize
      omega
    · apply handedOver_of_before placed prepared framed fits.1
      unfold structurePages areaSize
      omega

end

section

/-- All bytes of the area are read. -/
theorem HandedOver.seen (handedOver : HandedOver state handover) (prepared : Prepared state handover machine) :
    Seen handover.view handover.loaderStructFinal (areaSize state) := by
  have word : handover.loaderStructFinal < 2 ^ 64 := by
    rw [prepared.start]
    exact u64_lt _
  have header := handedOver.header
  have length := handover.loaderStruct.bytes_length
  have shows := (readBytes_iff word).mp (length.symm ▸ header)
  obtain ⟨sizeRead, regionsCount, filesCount⟩ := readHeader_shows shows
  have measured := prepared.measured
  have regions := handedOver.regions
  have descriptors := handedOver.descriptors
  rw [initMm, sizeRead, regionsCount, measured.size, measured.numMemDesc] at regions
  rw [initInit, sizeRead, regionsCount, bind_some, filesCount, bind_some, measured.size, measured.regions,
    measured.numFiles] at descriptors
  have front := (readBytes_seen word header).append
    (readRecords_seen (u64_lt _) (fun _ word _ read => readRegion_seen word read) regions)
  rw [add_assoc] at descriptors
  rw [areaSize_eq]
  exact front.append (readRecords_seen (u64_lt _) (fun _ word _ read => readDescriptor_seen word read) descriptors)

theorem canonical_of_translate {memory : Memory} {pml4 physical : Nat}
    (found : hardwareTranslate memory pml4 virt = some physical) : Canonical virt :=
  (ite_none_right_eq_some.mp found).1

theorem canonical_page {other : Nat} (canonical : Canonical virt) (same : other / 4096 = virt / 4096) : Canonical other := by
  unfold Canonical at canonical ⊢
  omega

/-- The parts from the structures on have all pages that follow. -/
theorem Placed.covers (placed : Placed state handover area) (inside : page < structurePages state) :
    page < pagesIn (areaSize state) ∨
    ∃ descriptor ∈ handover.fileDescriptors, ∃ offset < descriptor.size,
    u64 (handover.loaderStructFinal + descriptor.offset + offset) / 4096 =
      u64 (handover.loaderStructFinal + 4096 * page) / 4096 := by
  by_cases early : page < pagesIn (areaSize state)
  · exact .inl early
  · right
    rw [placed.descriptors]
    exact descriptorsFrom_covers (not_lt.mp early) inside

theorem forall₂_right {Left Right : Type} {related : Left → Right → Prop} {lefts : List Left} {rights : List Right}
    (all : List.Forall₂ related lefts rights) {right : Right} (member : right ∈ rights) : ∃ left, related left right := by
  induction all with
  | nil => exact nomatch member
  | cons here _ ih =>
    rcases List.mem_cons.mp member with rfl | later
    · exact ⟨_, here⟩
    · exact ih later

/-- All pages from the structures on are addresses of the processor. -/
theorem HandedOver.canonical (handedOver : HandedOver state handover) (prepared : Prepared state handover machine)
    (placed : Placed state handover area) (inside : page < structurePages state) :
    Canonical (u64 (handover.loaderStructFinal + 4096 * page)) := by
  rcases placed.covers inside with early | ⟨descriptor, member, offset, within, same⟩
  · have pages := pagesIn_spec (areaSize state)
    have there := handedOver.seen prepared (4096 * page) (by omega)
    obtain ⟨byte, found⟩ := ne_none_iff_exists'.mp there
    obtain ⟨physical, translated, _⟩ := map_eq_some_iff.mp found
    exact canonical_of_translate translated
  · obtain ⟨file, found⟩ := forall₂_right handedOver.files member
    rw [found.size] at within
    exact canonical_page (canonical_of_translate (found.data offset within)) same.symm

/-- A page of the structures or the files is no page of a part in front of them in the list. -/
theorem Placed.not_shared (placed : Placed state handover area) {part : Part} (inside : page < structurePages state)
    (apart : Beside state handover part) :
    u64 (handover.loaderStructFinal + 4096 * page) / 4096 ∉ part.pages := by
  intro shared
  rcases placed.covers inside with early | ⟨descriptor, member, offset, within, same⟩
  · have pages := pagesIn_spec (areaSize state)
    have short : 4096 * page < areaSize state := by omega
    exact Set.disjoint_left.mp (apart _ List.mem_cons_self) shared ⟨4096 * page, short, rfl⟩
  · refine Set.disjoint_left.mp (apart _ (List.mem_cons_of_mem _ (List.mem_map_of_mem member))) shared ⟨offset, within, ?_⟩
    rw [u64_add_word, same]

theorem structurePages_pos (state : LoaderState) : 0 < structurePages state := by
  have size := areaSize_eq state
  have pages := pagesIn_spec (areaSize state)
  unfold structurePages
  omega

/-- Beyond the lower half there are no addresses of the processor. -/
theorem not_canonical_beyond (beyond : 0x7F000 + 2 ^ 35 ≤ page) (near : page ≤ 2 ^ 50) :
    ¬ Canonical (u64 (kernelStart + 4096 * page)) := by
  have place := kernelStart_place
  unfold Canonical
  rw [u64]
  omega

variable (handedOver : HandedOver state handover) (prepared : Prepared state handover machine)
include handedOver prepared

/-- What follows each other does not go beyond the addresses of the processor. -/
theorem HandedOver.following (placed : Placed state handover area) (near : fbPages state ≤ 2 ^ 28) :
    pagesIn state.kernelSize + fbPages state + structurePages state ≤ 0x7F000 + 2 ^ 35 := by
  have kernel := kernelPages_le state
  have some := structurePages_pos state
  by_contra beyond
  -- The first page that is no address, or the first of the structures if that is later.
  have reached : ∃ page < structurePages state,
      0x7F000 + 2 ^ 35 ≤ pagesIn state.kernelSize + fbPages state + page ∧
        pagesIn state.kernelSize + fbPages state + page ≤ 2 ^ 50 :=
    ⟨0x7F000 + 2 ^ 35 - (pagesIn state.kernelSize + fbPages state), by omega, by omega, by omega⟩
  obtain ⟨page, inside, low, high⟩ := reached
  have canonical := handedOver.canonical prepared placed inside
  rw [prepared.final, u64_add_word, add_assoc, ← mul_add] at canonical
  exact not_canonical_beyond low high canonical

/-- The kernel and the framebuffer share no page with what follows in the list. -/
theorem HandedOver.fronts (framed : state.loaderStruct.fbLocation ≠ 0) :
    Beside state handover ⟨kernelStart, state.kernelSize⟩ ∧
    Beside state handover ⟨kernelEnd state, fbBytes state.loaderStruct⟩ := by
  have apart := handedOver.apart
  rw [parts, framebufferParts, if_neg framed, (prepared.framebuffer framed).1] at apart
  obtain ⟨kernel, rest⟩ := List.pairwise_cons.mp apart
  exact ⟨(List.forall_mem_cons.mp kernel).2, (List.pairwise_cons.mp rest).1⟩

variable (placed : Placed state handover area)
include placed

/-- A framebuffer that is counted too small is overlaid by the structures. -/
theorem HandedOver.not_small (framed : state.loaderStruct.fbLocation ≠ 0)
    (large : 2 ^ 31 ≤ fbBytes state.loaderStruct) : 2 ^ 31 ≤ fbBytes state.loaderStruct % 2 ^ 32 := by
  by_contra small
  have pages := fbPages_eq framed
  rw [if_pos (Nat.not_le.mp small)] at pages
  have few : fbPages state ≤ 2 ^ 19 := by
    rw [pages]
    exact pagesIn_le (by omega)
  apply placed.not_shared (structurePages_pos state) (handedOver.fronts prepared framed).2
  have within : 4096 * fbPages state < fbBytes state.loaderStruct := by omega
  refine ⟨4096 * fbPages state, within, ?_⟩
  rw [prepared.start, u64_add_word, Nat.add_zero]

/-- If the loader goes back, it has to stay in front of the kernel. -/
theorem HandedOver.before (framed : state.loaderStruct.fbLocation ≠ 0)
    (negative : 2 ^ 31 ≤ fbBytes state.loaderStruct % 2 ^ 32) :
    pagesIn state.kernelSize + structurePages state + pagesIn (fbBytes state.loaderStruct % 2 ^ 32) ≤ 2 ^ 20 := by
  have pages := fbPages_eq framed
  rw [if_neg (Nat.not_lt.mpr negative)] at pages
  -- The loop over the pages of the framebuffer ends.
  have back : pagesIn (fbBytes state.loaderStruct % 2 ^ 32) < 2 ^ 20 := by
    have ends := (prepared.framebuffer framed).2
    rw [fbSize_eq, if_neg (Nat.not_lt.mpr negative)] at ends
    rw [pagesIn]
    omega
  have final := prepared.final
  rw [pages] at final
  obtain ⟨besideKernel, besideFramebuffer⟩ := handedOver.fronts prepared framed
  by_contra beyond
  by_cases inner : 2 ^ 20 - pagesIn (fbBytes state.loaderStruct % 2 ^ 32) ≤ pagesIn state.kernelSize
  · -- The structures start inside the kernel.
    apply placed.not_shared (structurePages_pos state) besideKernel
    have kernel := pagesIn_spec state.kernelSize
    have within : 4096 * (pagesIn state.kernelSize - (2 ^ 20 - pagesIn (fbBytes state.loaderStruct % 2 ^ 32))) <
      state.kernelSize := by omega
    refine ⟨_, within, ?_⟩
    rw [final, Nat.add_zero, u64_of_lt (u64_lt _), u64, u64]
    dsimp only
    omega
  · -- They reach the first page of the kernel, which is one of the framebuffer if there is no kernel.
    have inside : 2 ^ 20 - pagesIn (fbBytes state.loaderStruct % 2 ^ 32) - pagesIn state.kernelSize < structurePages state := by
      omega
    have there := back_to_kernel final (by omega)
    by_cases empty : state.kernelSize = 0
    · apply placed.not_shared inside besideFramebuffer
      have within : 0 < fbBytes state.loaderStruct := by
        by_contra none
        rw [Nat.eq_zero_of_not_pos none] at negative
        exact absurd negative (by decide)
      refine ⟨0, within, ?_⟩
      rw [there, kernelEnd, empty]
      dsimp only
      decide
    · apply placed.not_shared inside besideKernel
      refine ⟨0, Nat.pos_of_ne_zero empty, ?_⟩
      rw [there]
      dsimp only
      decide

theorem fits_of_handedOver : Fits state := by
  unfold Fits
  dsimp only
  split
  · next unframed =>
    have none : fbPages state = 0 := if_pos unframed
    have fits := handedOver.following prepared placed (by omega)
    unfold structurePages areaSize at fits
    omega
  · next framed =>
    split
    · next small =>
      have same : fbPages state = pagesIn (fbBytes state.loaderStruct) := by
        rw [fbPages_eq framed, Nat.mod_eq_of_lt (by omega), if_pos small]
      have few : pagesIn (fbBytes state.loaderStruct) ≤ 2 ^ 28 := pagesIn_le (by omega)
      have fits := handedOver.following prepared placed (by omega)
      unfold structurePages areaSize at fits
      omega
    · next large =>
      have negative := handedOver.not_small prepared placed framed (not_lt.mp large)
      have fits := handedOver.before prepared placed framed negative
      unfold structurePages areaSize at fits
      omega

end

section

variable {pml4 tables : Nat}

/-- The tables the files may need. -/
def fileTables (files : List LoaderFileDescriptor) : Nat := (files.map (fun file => tablesFor (pagesIn file.size))).sum

theorem mapFiles_returns (final : Nat) {slot : Nat} {front : List UInt8} {files : List LoaderFileDescriptor}
    (built : Built pml4 machine) (stored : Stored pml4 machine area (front ++ List.replicate (272 * files.length) 0))
    (here : slot = area + front.length) (aligned : filesStart % 4096 = 0) (inside : filesStart + 4096 * filePages files < 2 ^ 64)
    (room : Room machine.pad (fileTables files)) : ∃ result, mapFiles pml4 final machine slot filesStart files = some result := by
  induction files generalizing machine slot filesStart front with
  | nil => exact ⟨_, rfl⟩
  | cons file rest ih =>
    have small := file.inMemory
    have needed : fileTables (file :: rest) = fileTables rest + tablesFor (pagesIn file.size) := by
      rw [add_comm]
      rfl
    rw [needed] at room
    rw [filePages_cons] at inside
    obtain ⟨slotNext, prepared, _, written⟩ := descriptor_written built here stored (u64Sub filesStart final)
    obtain ⟨middle, mapped, left⟩ := mapPages_returns prepared aligned (by omega) (by omega) file.data room
    obtain ⟨between, grown⟩ := mapPages_built prepared mapped
    have next : u64 (filesStart + 4096 * pagesIn file.size) = filesStart + 4096 * pagesIn file.size := u64_of_lt (by omega)
    obtain ⟨result, remaining⟩ := ih between (written.grown grown) slotNext
      (show (filesStart + 4096 * pagesIn file.size) % 4096 = 0 by omega) (by omega) left
    rw [mapFiles, mapped, bind_some, next, remaining]
    exact ⟨_, rfl⟩

/-- The tables that are made up to the kernel. -/
def kernelTables (state : LoaderState) (pad : LoaderScratchpad) : Nat :=
  tablesFor (pagesIn state.kernelSize) + tablesFor (pagesIn (16 * 2 ^ 20)) + tablesFor (pagesIn pad.loaderScratchpadSize) +
    tablesFor (pagesIn (state.loaderSize + 1))

/-- The loader and its scratchpad start with a page and end in the address space. -/
structure Located (state : LoaderState) (pad : LoaderScratchpad) : Prop where
  ready : Ready pad
  loader : state.loaderStart % 4096 = 0
  loaderInside : state.loaderStart + state.loaderSize ≤ 2 ^ 52
  pad : pad.loaderScratchpad % 4096 = 0

theorem mapKernel_returns (built : Built pml4 machine) (located : Located state machine.pad)
    (kernel : kernelStart + 4096 * pagesIn state.kernelSize < 2 ^ 64)
    (room : Room machine.pad (tables + kernelTables state machine.pad)) :
    ∃ after, mapKernel state machine pml4 = some after ∧ Room after.pad tables := by
  have physical := located.ready.physical
  have loaderInside := located.loaderInside
  have kernelInMemory := state.kernelInMemory
  have loaderPages := pagesIn_spec (state.loaderSize + 1)
  have padPages := pagesIn_spec machine.pad.loaderScratchpadSize
  rw [kernelTables, ← add_assoc, ← add_assoc, ← add_assoc] at room
  obtain ⟨first, loaderMapped, room⟩ := mapPages_returns built located.loader (by omega) (by omega) state.loaderStart room
  obtain ⟨built, grown⟩ := mapPages_built built loaderMapped
  obtain ⟨second, padMapped, room⟩ := mapPages_returns built located.pad (by omega) (by omega)
    machine.pad.loaderScratchpad room
  obtain ⟨built, _⟩ := mapPages_built built padMapped
  obtain ⟨third, scratchpadMapped, room⟩ := mapPages_returns built (show higherHalf % 4096 = 0 by decide) (by decide)
    (by decide) state.scratchpad room
  obtain ⟨built, _⟩ := mapPages_built built scratchpadMapped
  obtain ⟨fourth, kernelMapped, room⟩ := mapPages_returns built kernelStart_aligned (by omega) (by omega)
    state.physicalKernelLocation room
  refine ⟨fourth, ?_, room⟩
  rw [mapKernel, loaderMapped, bind_some, grown.start, grown.size, padMapped, bind_some,
    scratchpadMapped, bind_some, kernelMapped]

/-- The tables that are made for the structures and the files, with the area itself. -/
def structureTables (state : LoaderState) : Nat :=
  fileTables state.fileDescriptors + tablesFor (pagesIn (areaSize state)) +
    pagesIn (areaSize state)

theorem mapStructures_returns {struct : LoaderStruct} (built : Built pml4 machine)
    (measured : Measured state struct) (aligned : filesStart % 4096 = 0)
    (inside : filesStart + 4096 * structurePages state < 2 ^ 64) (room : Room machine.pad (structureTables state)) :
    ∃ handover, mapStructures state struct machine pml4 filesStart = some handover := by
  have small := areaSize_le state
  unfold structurePages at inside
  obtain ⟨enough, left⟩ := Room.take room
  have allocated := (allocate_iff built.ready small).mpr ⟨enough, rfl, rfl⟩
  obtain ⟨regionsSlot, filesSlot⟩ := measured.slots built.ready enough
  obtain ⟨written, contents⟩ := area_written (built.take enough) (take_stored built _) struct
  obtain ⟨middle, areaMapped, left⟩ := mapPages_returns written aligned (by omega) (by omega)
    (machine.next) left
  obtain ⟨areaBuilt, areaGrown⟩ := mapPages_built written areaMapped
  have next : u64 (filesStart + 4096 * pagesIn (areaSize state)) =
      filesStart + 4096 * pagesIn (areaSize state) := u64_of_lt (by omega)
  obtain ⟨result, filesMapped⟩ := mapFiles_returns filesStart areaBuilt (contents.grown areaGrown) filesSlot
    (show (filesStart + 4096 * pagesIn (areaSize state)) % 4096 = 0 by omega) (by omega) left
  rw [mapStructures, measured.area, allocated, bind_some]
  dsimp only
  rw [regionsSlot, areaMapped, bind_some, next, filesMapped]
  exact ⟨_, rfl⟩

/-- The framebuffer is mapped, and the structures start after its pages. -/
theorem mapFramebuffer_returns (built : Built pml4 machine) (aligned : filesStart % 4096 = 0)
    (ends : fbSize state.loaderStruct ≤ 2 ^ 64 - 4096)
    (inside : filesStart + 4096 * fbPages state < 2 ^ 64)
    (room : Room machine.pad (tables + tablesFor (fbPages state))) :
    ∃ after struct, mapFramebuffer state.loaderStruct machine pml4 filesStart =
    some (after, struct, filesStart + 4096 * fbPages state) ∧
    Built pml4 after ∧ Measured state struct ∧ Room after.pad tables := by
  by_cases unframed : state.loaderStruct.fbLocation = 0
  · have none : fbPages state = 0 := if_pos unframed
    refine ⟨machine, state.loaderStruct, ?_, built, measured_of_same rfl rfl rfl, room.fewer (Nat.le_add_right _ _)⟩
    rw [mapFramebuffer, if_pos unframed, none, Nat.add_zero]
  · have pages : fbPages state = pagesIn (fbSize state.loaderStruct) := if_neg unframed
    rw [pages] at inside room ⊢
    obtain ⟨after, mapped, left⟩ := mapPages_returns built aligned (by omega) ends state.loaderStruct.fbLocation.toNat room
    refine ⟨after, { state.loaderStruct with fbLocation := UInt64.ofNat filesStart }, ?_, (mapPages_built built mapped).1,
      measured_of_same rfl rfl rfl, left⟩
    rw [mapFramebuffer, if_neg unframed, mapped, map_some, u64_of_lt inside]

/-- With room for its tables and its structures, and addresses for all pages, the loader gets to the
kernel. -/
theorem initialize_returns (located : Located state machine.pad) (ends : fbSize state.loaderStruct ≤ 2 ^ 64 - 4096)
    (inside : kernelStart + 4096 * (pagesIn state.kernelSize + fbPages state + structurePages state) < 2 ^ 64)
    (room : Room machine.pad
    (structureTables state + tablesFor (fbPages state) + kernelTables state machine.pad + 1)) :
    ∃ handover, initializeVirtualMemory state machine = some handover := by
  have start := kernelStart_aligned
  have onePage : pagesIn 4096 = 1 := by decide
  rw [← onePage] at room
  obtain ⟨enough, left⟩ := Room.take room
  have allocated := (allocate_iff located.ready (by decide)).mpr ⟨enough, rfl, rfl⟩
  have root := take_root located.ready enough
  obtain ⟨kernel, kernelMapped, left⟩ := mapKernel_returns root { located with ready := root.ready } (by omega) left
  have built := mapKernel_built root kernelMapped
  obtain ⟨framed, struct, framebufferMapped, framedBuilt, measured, left⟩ :=
    mapFramebuffer_returns built (show (kernelStart + 4096 * pagesIn state.kernelSize) % 4096 = 0 by omega) ends (by omega) left
  obtain ⟨handover, mapped⟩ := mapStructures_returns framedBuilt measured
    (show (kernelStart + 4096 * pagesIn state.kernelSize + 4096 * fbPages state) % 4096 = 0 by omega)
    (by omega) left
  refine ⟨handover, ?_⟩
  rw [initializeVirtualMemory, allocated, bind_some]
  dsimp only
  rw [kernelMapped, bind_some, u64_of_lt (by omega), framebufferMapped]
  exact mapped

end

instance (state : LoaderState) : Decidable (Fits state) := by
  unfold Fits
  infer_instance

/-- A file of two pages. -/
def shell : LoaderFileDescriptor where
  name := List.replicate 256 0
  size := 5000
  data := 0x300000
  named := List.length_replicate
  aligned := by decide
  inMemory := by decide

/-- One region, one file and a framebuffer of the given geometry. -/
def framebufferState (height stride : UInt16) : LoaderState where
  loaderStruct := ⟨0x17a15174545c8b4f, 50, 0x80000000, stride, height, 4, 0, stride, 1, 1, 0⟩
  loaderStart := 0x100000
  loaderSize := 0x1000
  scratchpad := 0x2000000
  physicalKernelLocation := 0x200000
  kernelSize := 0x2000
  memoryMap := [⟨0, 256, 1⟩]
  fileDescriptors := [shell]
  sized := rfl
  regionsCounted := rfl
  filesCounted := rfl
  regionsWords region member := by
    rw [List.mem_singleton.mp member]
    exact ⟨by decide, by decide, by decide⟩
  kernelAligned := by decide
  kernelInMemory := by decide
  regionsInMemory := by decide
  filesInMemory := by decide

/-- A machine with the scratchpad of 4 MiB. -/
def freshMachine : Machine := ⟨fun _ _ => 0#64, ⟨0x1000000, 0x1000000, 4 * 2 ^ 20⟩⟩

theorem freshMachine_located (height stride : UInt16) : Located (framebufferState height stride) freshMachine.pad :=
  ⟨⟨by decide, by decide⟩, show 0x100000 % 4096 = 0 by decide, show 0x100000 + 0x1000 ≤ 2 ^ 52 by decide, by decide⟩

end Lfos.LoaderHandover
