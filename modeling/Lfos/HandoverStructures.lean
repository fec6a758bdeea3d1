import Lfos.LoaderHandover

/-!
# The structures the kernel finds

The structures are put into an area of the scratchpad. No table is made in its pages, so the bytes stay
while the area and the files are mapped. If the pages from the area on are addresses of the processor, then
the kernel sees all bytes of the area, and reads the regions and the descriptors from them.
-/

namespace Lfos.LoaderHandover

open ByteLists ByteViews LoaderPaging PageTables PhysicalBytes TableTrees Words List Option

open Lfos.LoaderMemoryMap (MemoryRegion LoaderScratchpad)

section

/-- The scratchpad has some bytes from an address on, in pages without tables. -/
structure Stored (pml4 : Nat) (machine : Machine) (area : Nat) (contents : List UInt8) : Prop where
  below : area + contents.length ≤ machine.pad.loaderScratchpadFree
  unused : ∀ offset < contents.length, Unused machine.memory pml4 ((area + offset) / 4096)
  bytes : ∀ offset byte, contents[offset]? = some byte → byteAt machine.memory (area + offset) = byte

variable {pml4 area len : Nat} {machine after : Machine} {contents front middle rest part : List UInt8}

theorem Stored.grown (stored : Stored pml4 machine area contents) (grown : Grown pml4 machine after) :
    Stored pml4 after area contents := by
  have below := stored.below
  have kept (offset : Nat) (inside : offset < contents.length) :=
    grown.kept (area + offset) (by omega) (stored.unused offset inside)
  constructor
  · exact below.trans grown.free
  · exact fun offset inside => (kept offset inside).1
  · intro offset byte found
    obtain ⟨inside, _⟩ := List.getElem?_eq_some_iff.mp found
    rw [(kept offset inside).2, stored.bytes offset byte found]

/-- What is taken from the scratchpad is zero and not used for tables. -/
theorem take_stored (built : Built pml4 machine) (len : Nat) :
    Stored pml4 (machine.take len) (machine.next) (replicate len 0) := by
  have low := le_next machine
  constructor
  · rw [length_replicate]
    exact le_refl _
  · intro offset _ path found
    rw [(built.take_untouched len).located] at found
    have old := built.below path _ found
    omega
  · intro offset byte found
    obtain ⟨inside, same⟩ := List.getElem?_eq_some_iff.mp found
    rw [length_replicate] at inside
    rw [Machine.take, byteAt_zeroBytes, if_pos (by omega), ← same, getElem_replicate]

variable (stored : Stored pml4 machine area (front ++ (middle ++ rest))) (length : part.length = middle.length)
include stored length

/-- Writing into the area touches no tables. -/
theorem Stored.untouched : Untouched machine.memory (poke machine (area + front.length) part).memory pml4 := by
  apply untouched_of_same
  intro path table found
  apply pokeBytes_frame
  intro address here
  by_contra inside
  have unused := stored.unused (address - area) (by
    rw [length_append, length_append]
    omega) path
  have same : area + (address - area) = address := by omega
  rw [same, here] at unused
  exact unused found

/-- A part of the area is overwritten. -/
theorem Stored.poke : Stored pml4 (poke machine (area + front.length) part) area (front ++ (part ++ rest)) := by
  have lengths : (front ++ (part ++ rest)).length = (front ++ (middle ++ rest)).length := by
    simp only [length_append, length]
  constructor
  · rw [lengths]
    exact stored.below
  · intro offset short path
    rw [(stored.untouched length).located]
    rw [lengths] at short
    exact stored.unused offset short path
  · intro offset byte found
    have written : byteAt (LoaderHandover.poke machine (area + front.length) part).memory (area + offset) =
        if area + front.length ≤ area + offset ∧ area + offset < area + front.length + part.length
        then part.getD (area + offset - (area + front.length)) 0 else byteAt machine.memory (area + offset) := byteAt_pokeBytes
    rw [written]
    split
    · have position : area + offset - (area + front.length) = offset - front.length := by omega
      rw [getElem?_append_right (by omega), getElem?_append_left (by omega)] at found
      rw [position, getD_eq_getElem?_getD, found, getD_some]
    · apply stored.bytes
      by_cases before : offset < front.length
      · rwa [getElem?_append_left before] at found ⊢
      · rw [getElem?_append_right (by omega), getElem?_append_right (by omega)] at found ⊢
        rwa [length] at found

theorem Stored.built
    (built : Built pml4 machine) : Built pml4 (LoaderHandover.poke machine (area + front.length) part) :=
  built.untouched (stored.untouched length) built.ready (le_refl _)

end

section

variable {pml4 virt physical size : Nat} {machine after : Machine}

/-- The pages from an address on are addresses of the processor. -/
structure Reachable (virt count : Nat) : Prop where
  aligned : virt % 4096 = 0
  word : virt < 2 ^ 64
  short : count ≤ 2 ^ 52
  usable : ∀ page < count, Usable (u64 (virt + 4096 * page))

theorem Reachable.fewer {count fewer : Nat} (reachable : Reachable virt count) (less : fewer ≤ count) :
    Reachable virt fewer :=
  ⟨reachable.aligned, reachable.word, less.trans reachable.short, fun page inside =>
    reachable.usable page (inside.trans_le less)⟩

theorem Reachable.later {first count : Nat} (reachable : Reachable virt (first + count)) :
    Reachable (u64 (virt + 4096 * first)) count where
  aligned := by
    have aligned := reachable.aligned
    simp only [u64]
    omega
  word := u64_lt _
  short := (Nat.le_add_left _ _).trans reachable.short
  usable page inside := by
    have there := reachable.usable (first + page) (by omega)
    rwa [u64_add_word, add_assoc, ← mul_add]

/-- Addresses of a page are alike. -/
theorem Usable.page {other : Nat} (usable : Usable virt) (same : other / 4096 = virt / 4096) : Usable other := by
  refine ⟨?_, fun inside => usable.2 ((directlyMapped_congr same).mp inside)⟩
  have canonical := usable.1
  unfold Canonical at canonical ⊢
  omega

theorem Reachable.usable_byte {count offset : Nat} (reachable : Reachable virt count) (inside : offset < 4096 * count) :
    Usable (u64 (virt + offset)) := by
  have aligned := reachable.aligned
  apply Usable.page (reachable.usable (offset / 4096) (by omega))
  simp only [u64]
  omega

/-- The distance of a byte. -/
theorem distance_word {offset : Nat} (short : offset < 2 ^ 64) : u64Sub (u64 (virt + offset)) virt = offset := by
  simp only [u64Sub, u64]
  omega

/-- The frames from a physical address on are shown from a virtual one on. -/
def ShowsFrames (pml4 : Nat) (machine : Machine) (virt physical size : Nat) : Prop :=
  ∀ offset < size, mapped machine.memory pml4 (u64 (virt + offset)) = some (physical / 4096 + offset / 4096)

/-- The pages outside a range are what they were. -/
def KeepsOutside (pml4 : Nat) (machine after : Machine) (virt count : Nat) : Prop :=
  ∀ other, Canonical other → count ≤ u64Sub other virt / 4096 → mapped after.memory pml4 other = mapped machine.memory pml4 other

/-- A range is kept while the pages behind it are mapped. -/
theorem ShowsFrames.kept {count : Nat} (shows : ShowsFrames pml4 machine virt physical size)
    (reachable : Reachable virt (pagesIn size + count))
    (kept : KeepsOutside pml4 machine after (u64 (virt + 4096 * pagesIn size)) count) :
    ShowsFrames pml4 after virt physical size := by
  intro offset inside
  have pages := pagesIn_spec size
  have usable := reachable.usable_byte (show offset < 4096 * (pagesIn size + count) by omega)
  rw [kept _ usable.1, shows offset inside]
  have short := reachable.short
  simp only [u64Sub, u64]
  omega

variable (built : Built pml4 machine) (result : mapPages machine pml4 virt physical size = some after)
  (aligned : physical % 4096 = 0)
  (inMemory : physical + size ≤ 2 ^ 52)
include built result aligned inMemory

theorem mapPages_mapped (reachable : Reachable virt (pagesIn size)) {other : Nat} (canonical : Canonical other) :
    mapped after.memory pml4 other =
    if u64Sub other virt / 4096 < pagesIn size then some (physical / 4096 + u64Sub other virt / 4096)
    else mapped machine.memory pml4 other := by
  have pages := pagesIn_spec size
  exact mapRange_mapped built (mapPages_range result).1 reachable.aligned reachable.word reachable.short (by omega)
    reachable.usable canonical

theorem mapPages_shows (reachable : Reachable virt (pagesIn size)) : ShowsFrames pml4 after virt physical size := by
  intro offset inside
  have pages := pagesIn_spec size
  have usable := reachable.usable_byte (show offset < 4096 * pagesIn size by omega)
  rw [mapPages_mapped built result aligned inMemory reachable usable.1, distance_word (by omega), if_pos (by omega)]

theorem mapPages_keeps {count : Nat} (reachable : Reachable virt (pagesIn size + count))
    {final : Machine} (kept : KeepsOutside pml4 after final (u64 (virt + 4096 * pagesIn size)) count) :
    KeepsOutside pml4 machine final virt (pagesIn size + count) := by
  intro other canonical outside
  have further : count ≤ u64Sub other (u64 (virt + 4096 * pagesIn size)) / 4096 := by
    simp only [u64Sub, u64] at outside ⊢
    omega
  rw [kept other canonical further,
    mapPages_mapped built result aligned inMemory (reachable.fewer (Nat.le_add_right _ _)) canonical, if_neg (by omega)]

end

section

variable {pml4 final area : Nat} {machine after : Machine} {files : List LoaderFileDescriptor}
  {descriptors : List FileDescriptor}

/-- The descriptors of some files that are mapped from an address on. -/
def descriptorsFrom (loaderStructFinal : Nat) : Nat → List LoaderFileDescriptor → List FileDescriptor
  | _, [] => []
  | filesStart, file :: rest =>
    ⟨file.name, file.size, u64Sub filesStart loaderStructFinal⟩ ::
      descriptorsFrom loaderStructFinal (u64 (filesStart + 4096 * pagesIn file.size)) rest

theorem descriptor_length (file : LoaderFileDescriptor) (offset : Nat) :
    (FileDescriptor.bytes ⟨file.name, file.size, offset⟩).length = 272 := by
  simp only [FileDescriptor.bytes, length_append, toBytes_length, file.named]

theorem filePages_cons (file : LoaderFileDescriptor) (rest : List LoaderFileDescriptor) :
    filePages (file :: rest) = pagesIn file.size + filePages rest := sum_cons

variable {slot filesStart : Nat} {front : List UInt8} {file : LoaderFileDescriptor} {rest : List LoaderFileDescriptor}

/-- The steps for one file. -/
theorem mapFiles_cons
    (result : mapFiles pml4 final machine slot filesStart (file :: rest) = some (after, descriptors)) :
    ∃ middle others, mapPages (poke machine slot (FileDescriptor.bytes ⟨file.name, file.size, u64Sub filesStart final⟩)) pml4
    filesStart file.data file.size = some middle ∧
    mapFiles pml4 final middle (u64 (slot + 272)) (u64 (filesStart + 4096 * pagesIn file.size)) rest = some (after, others) ∧
    descriptors = ⟨file.name, file.size, u64Sub filesStart final⟩ :: others := by
  obtain ⟨middle, first, result⟩ := bind_eq_some_iff.mp result
  obtain ⟨⟨last, others⟩, second, result⟩ := map_eq_some_iff.mp result
  obtain ⟨rfl, rfl⟩ := Prod.mk.inj result
  exact ⟨middle, others, first, second, rfl⟩

/-- The zeros for the descriptors of the files. -/
theorem zeros_cons (file : LoaderFileDescriptor) (rest : List LoaderFileDescriptor) :
    replicate (272 * (file :: rest).length) (0 : UInt8) = replicate 272 0 ++ replicate (272 * rest.length) 0 := by
  rw [replicate_append_replicate, length_cons]
  congr 1
  omega

variable (built : Built pml4 machine) (here : slot = area + front.length)
include built here

/-- The descriptor of a file is written into its zeros, and the next one follows. -/
theorem descriptor_written (stored : Stored pml4 machine area (front ++ replicate (272 * (file :: rest).length) 0))
    (offset : Nat) : u64 (slot + 272) = area + (front ++ FileDescriptor.bytes ⟨file.name, file.size, offset⟩).length ∧
    Built pml4 (poke machine slot (FileDescriptor.bytes ⟨file.name, file.size, offset⟩)) ∧
    Untouched machine.memory (poke machine slot (FileDescriptor.bytes ⟨file.name, file.size, offset⟩)).memory pml4 ∧
    Stored pml4 (poke machine slot (FileDescriptor.bytes ⟨file.name, file.size, offset⟩)) area
    (front ++ FileDescriptor.bytes ⟨file.name, file.size, offset⟩ ++ replicate (272 * rest.length) 0) := by
  have same := (descriptor_length file offset).trans (length_replicate (n := 272) (a := (0 : UInt8))).symm
  constructor
  · have below := stored.below
    have physical := built.ready.free_le
    rw [length_append] at below
    rw [length_append, descriptor_length, u64_of_lt (by omega)]
    omega
  · rw [zeros_cons] at stored
    rw [here, append_assoc]
    exact ⟨stored.built same built, stored.untouched same, stored.poke same⟩

variable (stored : Stored pml4 machine area (front ++ replicate (272 * files.length) 0))
include stored

/-- The descriptors are written one after the other. -/
theorem mapFiles_stored (result : mapFiles pml4 final machine slot filesStart files = some (after, descriptors)) :
    Built pml4 after ∧ Stored pml4 after area (front ++ descriptors.flatMap FileDescriptor.bytes) ∧
    descriptors = descriptorsFrom final filesStart files := by
  induction files generalizing machine slot filesStart front descriptors with
  | nil =>
    cases result
    exact ⟨built, stored, rfl⟩
  | cons file rest ih =>
    obtain ⟨middle, others, mapped, remaining, rfl⟩ := mapFiles_cons result
    obtain ⟨next, prepared, _, written⟩ := descriptor_written built here stored (u64Sub filesStart final)
    obtain ⟨between, grown⟩ := mapPages_built prepared mapped
    obtain ⟨last, all, same⟩ := ih between next (written.grown grown) remaining
    refine ⟨last, ?_, ?_⟩
    · rw [flatMap_cons, ← append_assoc]
      exact all
    · rw [descriptorsFrom, ← same]

/-- The files are shown at their distances, and no other pages are changed. -/
theorem mapFiles_mapped (result : mapFiles pml4 final machine slot filesStart files = some (after, descriptors))
    (reachable : Reachable filesStart (filePages files)) :
    KeepsOutside pml4 machine after filesStart (filePages files) ∧
    List.Forall₂ (fun file descriptor => descriptor.name = file.name ∧ descriptor.size = file.size ∧
    ShowsFrames pml4 after (final + descriptor.offset) file.data file.size) files descriptors := by
  induction files generalizing machine slot filesStart front descriptors with
  | nil =>
    cases result
    exact ⟨fun _ _ _ => rfl, .nil⟩
  | cons file rest ih =>
    obtain ⟨middle, others, mapped, remaining, rfl⟩ := mapFiles_cons result
    obtain ⟨next, prepared, untouched, written⟩ := descriptor_written built here stored (u64Sub filesStart final)
    obtain ⟨between, grown⟩ := mapPages_built prepared mapped
    obtain ⟨outside, shown⟩ := ih between next (written.grown grown) remaining reachable.later
    have first := mapPages_shows prepared mapped file.aligned file.inMemory (reachable.fewer (Nat.le_add_right _ _))
    constructor
    · intro other canonical far
      rw [mapPages_keeps prepared mapped file.aligned file.inMemory reachable outside other canonical far]
      exact untouched.mapped other
    · refine .cons ⟨rfl, rfl, ?_⟩ shown
      intro offset inside
      have address : u64 (final + u64Sub filesStart final + offset) = u64 (filesStart + offset) := by
        simp only [u64Sub, u64]
        omega
      rw [address]
      exact first.kept reachable outside offset inside

end

section

variable {view : View} {address : Nat}

theorem LoaderStruct.bytes_length (struct : LoaderStruct) : struct.bytes.length = 50 := by
  simp only [LoaderStruct.bytes, length_append, toBytes_length]

/-- The fields in front of the counts. -/
def LoaderStruct.front (struct : LoaderStruct) : List UInt8 :=
  toBytes 8 struct.signature.toNat ++ toBytes 2 struct.size.toNat ++ toBytes 8 struct.fbLocation.toNat ++
    toBytes 2 struct.fbWidth.toNat ++ toBytes 2 struct.fbHeight.toNat ++ toBytes 1 struct.fbBpp.toNat ++
      toBytes 1 struct.fbReserved1.toNat ++ toBytes 2 struct.fbStride.toNat

theorem LoaderStruct.front_length (struct : LoaderStruct) : struct.front.length = 26 := by
  simp only [LoaderStruct.front, length_append, toBytes_length]

theorem LoaderStruct.bytes_front (struct : LoaderStruct) : struct.bytes = struct.front ++
    (toBytes 8 struct.numMemDesc.toNat ++ (toBytes 8 struct.numFiles.toNat ++ toBytes 8 struct.firmwareInfo.toNat)) := by
  simp only [LoaderStruct.bytes, LoaderStruct.front, append_assoc]

/-- The kernel reads the fields it uses. -/
theorem readHeader_shows {struct : LoaderStruct} (shows : Shows view address struct.bytes) :
    readSize view address = some struct.size.toNat ∧ readNumMemDesc view address = some struct.numMemDesc.toNat ∧
    readNumFiles view address = some struct.numFiles.toNat := by
  have size := (shows_append.mp (shows_append.mp shows).2).1
  rw [struct.bytes_front] at shows
  have counts := (shows_append.mp shows).2
  rw [struct.front_length] at counts
  obtain ⟨regions, others⟩ := shows_append.mp counts
  have files := (shows_append.mp others).1
  rw [u64_add_word] at files
  refine ⟨?_, ?_, ?_⟩
  · exact readNumber_shows (u64_lt _) struct.size.toNat_lt size
  · exact readNumber_shows (u64_lt _) struct.numMemDesc.toNat_lt regions
  · exact readNumber_shows (u64_lt _) struct.numFiles.toNat_lt files

theorem readRegion_shows {region : MemoryRegion} (words : RegionWords region) (word : address < 2 ^ 64)
    (shows : Shows view address (regionBytes region)) : readRegion view address = some region := by
  obtain ⟨first, others⟩ := shows_append.mp shows
  obtain ⟨second, third⟩ := shows_append.mp others
  rw [toBytes_length] at second third
  rw [toBytes_length, u64_add_word] at third
  rw [readRegion, readNumber_shows word words.1 first, bind_some,
    readNumber_shows (u64_lt _) words.2.1 second, bind_some, readNumber_shows (u64_lt _) words.2.2 third, map_some]

theorem readRegion_seen {region : MemoryRegion} (word : address < 2 ^ 64) (read : readRegion view address = some region) :
    Seen view address 24 := by
  obtain ⟨start, first, read⟩ := bind_eq_some_iff.mp read
  obtain ⟨pages, second, read⟩ := bind_eq_some_iff.mp read
  obtain ⟨flags, third, _⟩ := map_eq_some_iff.mp read
  have front := (readNumber_seen word first).append (readNumber_seen (u64_lt _) second)
  exact front.append (readNumber_seen (u64_lt _) third)

theorem readDescriptor_shows {descriptor : FileDescriptor} (named : descriptor.name.length = 256)
    (size : descriptor.size < 2 ^ 64) (offset : descriptor.offset < 2 ^ 64) (word : address < 2 ^ 64)
    (shows : Shows view address descriptor.bytes) : readDescriptor view address = some descriptor := by
  obtain ⟨first, others⟩ := shows_append.mp shows
  obtain ⟨second, third⟩ := shows_append.mp others
  rw [named] at second third
  rw [toBytes_length, u64_add_word] at third
  have name := (readBytes_iff word).mpr first
  rw [named] at name
  rw [readDescriptor, name, bind_some, readNumber_shows (u64_lt _) size second, bind_some,
    readNumber_shows (u64_lt _) offset third, map_some]

theorem readDescriptor_seen {descriptor : FileDescriptor} (word : address < 2 ^ 64)
    (read : readDescriptor view address = some descriptor) : Seen view address 272 := by
  obtain ⟨name, first, read⟩ := bind_eq_some_iff.mp read
  obtain ⟨size, second, read⟩ := bind_eq_some_iff.mp read
  obtain ⟨offset, third, _⟩ := map_eq_some_iff.mp read
  have front := (readBytes_seen word first).append (readNumber_seen (u64_lt _) second)
  exact front.append (readNumber_seen (u64_lt _) third)

end

end Lfos.LoaderHandover
