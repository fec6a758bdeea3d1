import Lfos.Spans
import Lfos.Words
import Mathlib.Data.Nat.Bitwise

/-!
# The loader's conversion of the firmware memory map

The loader turns the firmware's memory descriptors into memory regions for the
kernel. A descriptor without interesting flags is dropped, a descriptor that
directly follows the region written last is merged into it, and every other one
is written as a new region. The merging branch continues the loop without
advancing to the next descriptor, and a full region buffer restarts the whole
retrieval.

`GetMemoryMap` returns the same descriptors on every call, so its size
negotiation is left out. Loops are bounded by fuel; a result is never produced
by running out of it. The constants are those of the UEFI specification.
-/

namespace Lfos.LoaderMemoryMap

open Spans Words List

/-- One entry of the firmware's memory map. -/
structure EfiMemoryDescriptor where
  type : Nat
  physicalStart : Nat
  numberOfPages : Nat
  attributes : Nat
deriving DecidableEq, Repr

/-- One region handed to the kernel. -/
structure MemoryRegion where
  startAddress : Nat
  numPages : Nat
  flags : Nat
deriving DecidableEq, Repr

def pageSize : Nat := 4096

def efiConventionalMemory : Nat := 7
def efiMemoryRuntime : Nat := 2 ^ 63

def memoryRegionUsable : Nat := 2 ^ 0
def memoryRegionFirmware : Nat := 2 ^ 1

/-- Firmware attributes in the order they are applied, each with the region flag
it sets: UC, WC, WT, WB, UCE, WP, RP, XP, NV, MORE_RELIABLE and RO. -/
def attributeFlags : List (Nat × Nat) :=
  [(2 ^ 0, 2 ^ 16), (2 ^ 1, 2 ^ 17), (2 ^ 2, 2 ^ 18), (2 ^ 3, 2 ^ 19), (2 ^ 4, 2 ^ 20),
    (2 ^ 12, 2 ^ 21), (2 ^ 13, 2 ^ 22), (2 ^ 14, 2 ^ 23), (2 ^ 15, 2 ^ 4), (2 ^ 16, 2 ^ 5),
    (2 ^ 17, 2 ^ 3)]

/-- The flags of a descriptor; zero drops it. -/
def regionFlags (desc : EfiMemoryDescriptor) : Nat :=
  if desc.type = efiConventionalMemory then memoryRegionUsable
  else if desc.attributes &&& efiMemoryRuntime ≠ 0 then
    attributeFlags.foldl (fun flags pair => if desc.attributes &&& pair.1 ≠ 0 then flags ||| pair.2 else flags)
      memoryRegionFirmware
  else 0

/-- Merge a descriptor into the region written last, if it starts at that
region's end and has the same flags. Regions are listed newest first. -/
def merged (desc : EfiMemoryDescriptor) : List MemoryRegion → Option (List MemoryRegion)
  | [] => none
  | last :: earlier =>
    if u64 (last.startAddress + last.numPages * pageSize) = desc.physicalStart ∧ last.flags = regionFlags desc then
      some ({ last with numPages := u64 (last.numPages + desc.numberOfPages) } :: earlier)
    else none

/-- The region written for a descriptor. -/
def regionOf (desc : EfiMemoryDescriptor) : MemoryRegion :=
  ⟨desc.physicalStart, desc.numberOfPages, regionFlags desc⟩

/-- The conversion loop over the remaining descriptors. The result tells whether
the buffer of `total` regions was not filled. -/
def convert (total : Nat) : Nat → List EfiMemoryDescriptor → List MemoryRegion → Option (Bool × List MemoryRegion)
  | _, [], written => some (true, written)
  | 0, _ :: _, _ => none
  | fuel + 1, desc :: rest, written =>
    if regionFlags desc = 0 then convert total fuel rest written
    else
      match merged desc written with
      | some grown =>
        -- `continue` bypasses the advance at the end of the loop body.
        convert total fuel (desc :: rest) grown
      | none =>
        if total ≤ written.length + 1 then some (false, regionOf desc :: written)
        else convert total fuel rest (regionOf desc :: written)

/-- The loader's bump allocator. -/
structure LoaderScratchpad where
  loaderScratchpad : Nat
  loaderScratchpadFree : Nat
  loaderScratchpadSize : Nat
deriving DecidableEq, Repr

/-- Take `len` bytes at an aligned address. Exhaustion hangs the loader. -/
def allocateFromLoaderScratchpad (pad : LoaderScratchpad) (len alignment : Nat) : Option (Nat × LoaderScratchpad) :=
  let misaligned := alignment - pad.loaderScratchpadFree % alignment
  let alignmentOffset := if misaligned = alignment then 0 else misaligned
  let length := u64 (len + alignmentOffset)
  if u64 (pad.loaderScratchpad + pad.loaderScratchpadSize) < u64 (pad.loaderScratchpadFree + length) then none
  else
    some (u64 (pad.loaderScratchpadFree + alignmentOffset),
      { pad with loaderScratchpadFree := u64 (pad.loaderScratchpadFree + length) })

/-- Bytes of one packed memory region. -/
def memoryRegionSize : Nat := 24

/-- Allocate a region buffer, convert, and start over while the buffer fills up. -/
def retrieveMemoryMap (map : List EfiMemoryDescriptor) : Nat → LoaderScratchpad → Option (List MemoryRegion)
  | 0, _ => none
  | fuel + 1, pad =>
    match allocateFromLoaderScratchpad pad (map.length * memoryRegionSize) pageSize with
    | none => none
    | some (_, remaining) =>
      match convert map.length fuel map [] with
      | none => none
      | some (true, written) => some written.reverse
      | some (false, _) => retrieveMemoryMap map fuel remaining

/-- The bytes of a descriptor. -/
def EfiMemoryDescriptor.bytes (desc : EfiMemoryDescriptor) : Span :=
  ⟨desc.physicalStart, desc.numberOfPages * pageSize⟩

/-- The bytes of a region. -/
def MemoryRegion.bytes (region : MemoryRegion) : Span :=
  ⟨region.startAddress, region.numPages * pageSize⟩

/-- Disjoint descriptors that do not wrap around the address space. -/
def WellFormed (map : List EfiMemoryDescriptor) : Prop :=
  (∀ desc ∈ map, desc.physicalStart + desc.numberOfPages * pageSize < 2 ^ 64) ∧
    map.Pairwise (fun left right => left.bytes.Apart right.bytes)

/-- The regions partition the described memory: they are disjoint, the usable
ones are exactly the conventional memory, and the firmware regions with given
flags are exactly the runtime descriptors with those flags. -/
def Partition (map : List EfiMemoryDescriptor) (regions : List MemoryRegion) : Prop :=
  regions.Pairwise (fun left right => left.bytes.Apart right.bytes) ∧
  (∀ address, (∃ region ∈ regions, region.flags &&& memoryRegionUsable ≠ 0 ∧ region.bytes.Holds address) ↔
    ∃ desc ∈ map, desc.type = efiConventionalMemory ∧ desc.bytes.Holds address) ∧
  (∀ flags address, flags &&& memoryRegionFirmware ≠ 0 →
    ((∃ region ∈ regions, region.flags = flags ∧ region.bytes.Holds address) ↔
      ∃ desc ∈ map, desc.type ≠ efiConventionalMemory ∧
        desc.attributes &&& efiMemoryRuntime ≠ 0 ∧ regionFlags desc = flags ∧
        desc.bytes.Holds address))

/-- The descriptors that are written at all. -/
def kept (map : List EfiMemoryDescriptor) : List EfiMemoryDescriptor :=
  map.filter (fun desc => decide (regionFlags desc ≠ 0))

/-- The right descriptor starts at the left one's end and has its flags. -/
def Continues (left right : EfiMemoryDescriptor) : Prop :=
  u64 (left.physicalStart + left.numberOfPages * pageSize) = right.physicalStart ∧ regionFlags left = regionFlags right

instance (left right : EfiMemoryDescriptor) : Decidable (Continues left right) :=
  inferInstanceAs (Decidable (_ ∧ _))

/-- The scratchpad has room for one region buffer, no written descriptor
continues the one written before it, and some descriptor is dropped. -/
def Convertible (map : List EfiMemoryDescriptor) (pad : LoaderScratchpad) : Prop :=
  (allocateFromLoaderScratchpad pad (map.length * memoryRegionSize) pageSize).isSome = true ∧
  (kept map).IsChain (fun left right => ¬ Continues left right) ∧
  (map = [] ∨ (kept map).length < map.length)

/-- Setting further region flags leaves the two kind bits alone. -/
theorem applied_kind_bits (attributes flags : Nat) (pairs : List (Nat × Nat))
    (higher : ∀ pair ∈ pairs, pair.2.testBit 0 = false ∧ pair.2.testBit 1 = false) (bit : Nat)
    (kind : bit = 0 ∨ bit = 1) :
    (pairs.foldl (fun flags pair => if attributes &&& pair.1 ≠ 0 then flags ||| pair.2 else flags)
    flags).testBit bit = flags.testBit bit := by
  induction pairs generalizing flags with
  | nil => rfl
  | cons pair rest ih =>
    rw [foldl_cons, ih _ (fun other member =>
      higher other (mem_cons_of_mem _ member))]
    obtain ⟨zero, one⟩ := higher pair mem_cons_self
    split
    · rw [Nat.testBit_or]
      rcases kind with rfl | rfl
      · rw [zero, Bool.or_false]
      · rw [one, Bool.or_false]
    · rfl

theorem attributeFlags_higher : ∀ pair ∈ attributeFlags, pair.2.testBit 0 = false ∧ pair.2.testBit 1 = false := by
  decide

/-- A single flag is set exactly when its bit is. -/
theorem and_two_pow_ne_zero (flags bit : Nat) : flags &&& 2 ^ bit ≠ 0 ↔ flags.testBit bit = true := by
  rw [Nat.and_two_pow]
  cases flags.testBit bit <;> simp

variable {desc : EfiMemoryDescriptor}

/-- Conventional memory is usable. -/
theorem flags_conventional (conventional : desc.type = efiConventionalMemory) :
    regionFlags desc = memoryRegionUsable := if_pos conventional

/-- Runtime memory that is not conventional has the firmware bit and not the
usable bit. -/
theorem flags_runtime (other : desc.type ≠ efiConventionalMemory) (runtime : desc.attributes &&& efiMemoryRuntime ≠ 0) :
    (regionFlags desc).testBit 0 = false ∧ (regionFlags desc).testBit 1 = true := by
  rw [regionFlags, if_neg other, if_pos runtime]
  constructor
  · rw [applied_kind_bits _ _ _ attributeFlags_higher 0 (Or.inl rfl)]
    rfl
  · rw [applied_kind_bits _ _ _ attributeFlags_higher 1 (Or.inr rfl)]
    rfl

/-- Everything else is dropped. -/
theorem flags_other (other : desc.type ≠ efiConventionalMemory)
    (quiet : ¬ desc.attributes &&& efiMemoryRuntime ≠ 0) : regionFlags desc = 0 := by
  rw [regionFlags, if_neg other, if_neg quiet]

/-- The usable bit identifies conventional memory. -/
theorem usable_iff (desc : EfiMemoryDescriptor) :
    regionFlags desc &&& memoryRegionUsable ≠ 0 ↔ desc.type = efiConventionalMemory := by
  rw [memoryRegionUsable, and_two_pow_ne_zero]
  by_cases conventional : desc.type = efiConventionalMemory
  · simp [flags_conventional conventional, memoryRegionUsable, conventional]
  · by_cases runtime : desc.attributes &&& efiMemoryRuntime ≠ 0
    · simp [(flags_runtime conventional runtime).1, conventional]
    · simp [flags_other conventional runtime, conventional]

/-- The firmware bit identifies runtime memory that is not conventional. -/
theorem firmware_iff (desc : EfiMemoryDescriptor) : regionFlags desc &&& memoryRegionFirmware ≠ 0 ↔
    desc.type ≠ efiConventionalMemory ∧ desc.attributes &&& efiMemoryRuntime ≠ 0 := by
  rw [memoryRegionFirmware, and_two_pow_ne_zero]
  by_cases conventional : desc.type = efiConventionalMemory
  · have unset : memoryRegionUsable.testBit 1 = false := by decide
    simp [flags_conventional conventional, unset, conventional]
  · by_cases runtime : desc.attributes &&& efiMemoryRuntime ≠ 0
    · simp [(flags_runtime conventional runtime).2, conventional, runtime]
    · simp only [flags_other conventional runtime, Nat.zero_testBit, Bool.false_eq_true, runtime, and_false]

@[simp] theorem kept_nil : kept [] = [] := rfl

/-- No descriptor continues the one before it. -/
abbrev Separate (map : List EfiMemoryDescriptor) : Prop := map.IsChain (fun left right => ¬ Continues left right)

theorem kept_cons_dropped (rest : List EfiMemoryDescriptor)
    (dropped : regionFlags desc = 0) : kept (desc :: rest) = kept rest := by
  simp [kept, dropped]

theorem kept_cons_written (rest : List EfiMemoryDescriptor)
    (written : regionFlags desc ≠ 0) : kept (desc :: rest) = desc :: kept rest := by
  simp [kept, written]

/-- A region written for a descriptor accepts exactly its continuations. -/
theorem merged_none_iff (desc last : EfiMemoryDescriptor) (earlier : List MemoryRegion) :
    merged desc (regionOf last :: earlier) = none ↔ ¬ Continues last desc := by
  rw [merged]
  split
  · next follows =>
    simp only [reduceCtorEq, false_iff, not_not]
    exact follows
  · next apart =>
    simp only [true_iff]
    exact apart

/-- A region that does not continue the last one is not merged into it. -/
theorem merged_separate {done more : List EfiMemoryDescriptor}
    (separate : Separate (done.take 1 ++ desc :: more)) :
    merged desc (done.map regionOf) = none := by
  cases done with
  | nil => rfl
  | cons last earlier =>
    rw [map_cons, merged_none_iff]
    simp only [take_succ_cons, take_zero, cons_append, nil_append, isChain_cons_cons] at separate
    exact separate.1

/-- The descriptors kept from `rest` are written behind those in `done`, newest first, when nothing
merges. With room for all of them the loop completes, otherwise the buffer is filled before. -/
theorem convert_separate (total fuel : Nat) (rest done : List EfiMemoryDescriptor) (space : done.length < total)
    (separate : Separate (done.take 1 ++ kept rest)) :
    (convert total fuel rest (done.map regionOf) = none ∧ fuel < rest.length) ∨
    if done.length + (kept rest).length < total then
      convert total fuel rest (done.map regionOf) = some (true, ((kept rest).reverse ++ done).map regionOf)
    else ∃ written, convert total fuel rest (done.map regionOf) = some (false, written) := by
  induction rest generalizing fuel done with
  | nil => exact .inr (by simp [convert, space])
  | cons desc rest ih =>
    cases fuel with
    | zero => exact .inl ⟨rfl, Nat.succ_pos _⟩
    | succ fuel =>
      rw [length_cons, Nat.add_lt_add_iff_right, convert]
      by_cases dropped : regionFlags desc = 0
      · rw [kept_cons_dropped rest dropped] at separate ⊢
        rw [if_pos dropped]
        exact ih fuel done space separate
      · rw [kept_cons_written rest dropped] at separate ⊢
        have sum : done.length + (desc :: kept rest).length = (desc :: done).length + (kept rest).length := by
          simp only [length_cons]
          omega
        rw [if_neg dropped, merged_separate separate, sum, length_map, reverse_cons, append_assoc]
        dsimp only
        by_cases filled : total ≤ done.length + 1
        · rw [if_pos filled, if_neg (by simp only [length_cons]; omega)]
          exact .inr ⟨_, rfl⟩
        · rw [if_neg filled]
          exact ih fuel (desc :: done) (Nat.lt_of_not_le filled) (List.IsChain.right_of_append separate)

/-- Written regions that do not wrap. -/
def Placed (written : List MemoryRegion) : Prop :=
  ∀ region ∈ written, region.startAddress + region.numPages * pageSize < 2 ^ 64

section

variable {written grown : List MemoryRegion} (placed : Placed written)
  (bounded : desc.physicalStart + desc.numberOfPages * pageSize < 2 ^ 64)
  (merging : merged desc written = some grown)
include placed bounded merging

/-- The two ends are exact, so the merged length is an exact sum. -/
theorem merged_cases : ∃ last earlier, written = last :: earlier ∧
    grown = { last with numPages := last.numPages + desc.numberOfPages } :: earlier ∧
    last.startAddress + last.numPages * pageSize = desc.physicalStart := by
  cases written with
  | nil => exact nomatch merging
  | cons last earlier =>
    have lastPlaced := placed last mem_cons_self
    obtain ⟨⟨follows, _⟩, same⟩ := Option.ite_none_right_eq_some.mp merging
    rw [u64_of_lt lastPlaced] at follows
    have sum : u64 (last.numPages + desc.numberOfPages) = last.numPages + desc.numberOfPages := by
      rw [pageSize] at *
      exact u64_of_lt (by omega)
    exact ⟨last, earlier, rfl, by rw [← Option.some.inj same, sum], follows⟩

/-- Merging keeps the regions from wrapping and loses no byte. -/
theorem merged_grows :
    Placed grown ∧ ∀ address, cover MemoryRegion.bytes written address ≤ cover MemoryRegion.bytes grown address := by
  obtain ⟨last, earlier, rfl, rfl, ending⟩ := merged_cases placed bounded merging
  constructor
  · refine forall_mem_cons.mpr ⟨?_, (forall_mem_cons.mp placed).2⟩
    rw [Nat.add_mul, ← Nat.add_assoc, ending]
    exact bounded
  · intro address
    rw [cover_cons, cover_cons]
    apply Nat.add_le_add_left
    by_cases held : last.bytes.Holds address
    · rw [Span.weight_of_holds held, Span.weight_of_holds]
      simp only [MemoryRegion.bytes, Nat.add_mul] at held ⊢
      exact ⟨held.1, lt_of_lt_of_le held.2 (Nat.add_le_add_left (Nat.le_add_right _ _) _)⟩
    · rw [Span.weight_of_not held]
      exact Nat.zero_le _

end

/-- The loop never loses coverage of a byte. -/
theorem convert_covers (total fuel : Nat) (rest : List EfiMemoryDescriptor)
    (written : List MemoryRegion) (placed : Placed written) (bounded : Placed (rest.map regionOf))
    (unfilled : Bool) (result : List MemoryRegion)
    (done : convert total fuel rest written = some (unfilled, result)) (address : Nat) :
    cover MemoryRegion.bytes written address ≤ cover MemoryRegion.bytes result address := by
  revert done
  fun_induction convert total fuel rest written with
  | case1 =>
    rintro ⟨⟩
    exact le_rfl
  | case2 => nofun
  | case3 _ _ _ _ _ ih => exact ih placed (forall_mem_cons.mp bounded).2
  | case4 _ _ _ _ _ grown merging ih =>
    intro done
    obtain ⟨grownPlaced, more⟩ := merged_grows placed (forall_mem_cons.mp bounded).1 merging
    exact le_trans (more address) (ih grownPlaced bounded done)
  | case5 =>
    rintro ⟨⟩
    rw [cover_cons]
    exact Nat.le_add_right _ _
  | case6 _ _ _ _ _ _ _ ih =>
    intro done
    obtain ⟨here, restBounded⟩ := forall_mem_cons.mp bounded
    have tail := ih (forall_mem_cons.mpr ⟨here, placed⟩) restBounded done
    rw [cover_cons] at tail
    exact le_trans (Nat.le_add_right _ _) tail

/-- An empty descriptor that merges leaves the loop where it was. -/
theorem convert_stuck (total fuel : Nat) (desc : EfiMemoryDescriptor)
    (rest : List EfiMemoryDescriptor) (written : List MemoryRegion)
    (some_flags : regionFlags desc ≠ 0) (unchanged : merged desc written = some written) :
    convert total fuel (desc :: rest) written = none := by
  induction fuel with
  | zero => rfl
  | succ fuel ih =>
    rw [convert, if_neg some_flags, unchanged]
    exact ih

/-- No usable outcome: the loop does not end, fills the buffer, or leaves a byte
in two regions. -/
def Spoiled (outcome : Option (Bool × List MemoryRegion)) : Prop :=
  outcome = none ∨ (∃ written, outcome = some (false, written)) ∨ ∃ written address, outcome = some (true, written) ∧
      2 ≤ cover MemoryRegion.bytes written address

/-- A merge spoils the conversion. An empty descriptor is merged forever. Any
other one is merged, visited again at the new end of the region and then written
a second time; its first byte stays in two regions. -/
theorem convert_merge_spoils (total fuel : Nat) (desc : EfiMemoryDescriptor)
    (rest : List EfiMemoryDescriptor) (written grown : List MemoryRegion) (placed : Placed written)
    (bounded : Placed ((desc :: rest).map regionOf)) (flagged : regionFlags desc ≠ 0) (merging : merged desc written = some grown) :
    Spoiled (convert total fuel (desc :: rest) written) := by
  obtain ⟨here, restBounded⟩ := forall_mem_cons.mp bounded
  obtain ⟨last, earlier, rfl, rfl, ending⟩ := merged_cases placed here merging
  by_cases empty : desc.numberOfPages = 0
  · left
    rw [empty] at merging
    exact convert_stuck total fuel desc rest _ flagged merging
  obtain ⟨grownPlaced, _⟩ := merged_grows placed here merging
  obtain ⟨grown, grownIs⟩ := @exists_eq MemoryRegion { last with numPages := last.numPages + desc.numberOfPages }
  rw [← grownIs] at grownPlaced merging
  simp only [pageSize, regionOf] at here ending
  -- The merged region now ends behind the descriptor, so it cannot merge again.
  have notAgain : merged desc (grown :: earlier) = none := by
    have past : last.startAddress + (last.numPages + desc.numberOfPages) * 4096 =
        desc.physicalStart + desc.numberOfPages * 4096 := by
      rw [add_mul, ← add_assoc, ending]
    simp only [merged, grownIs, pageSize, past, u64_of_lt here]
    rw [if_neg]
    omega
  have doubled : 2 ≤ cover MemoryRegion.bytes (regionOf desc :: grown :: earlier) desc.physicalStart := by
    have written : (regionOf desc).bytes.Holds desc.physicalStart := by
      simp only [Span.Holds, MemoryRegion.bytes, regionOf, pageSize]
      omega
    have absorbed : grown.bytes.Holds desc.physicalStart := by
      simp only [Span.Holds, MemoryRegion.bytes, grownIs, pageSize]
      omega
    rw [cover_cons, cover_cons, Span.weight_of_holds written, Span.weight_of_holds absorbed]
    omega
  have appendedPlaced : Placed (regionOf desc :: grown :: earlier) := forall_mem_cons.mpr ⟨here, grownPlaced⟩
  rcases fuel with _ | _ | fuel
  · exact Or.inl rfl
  · rw [convert, if_neg flagged, merging]
    exact Or.inl rfl
  rw [convert, if_neg flagged, merging]
  dsimp only
  rw [convert, if_neg flagged, notAgain]
  dsimp only
  split
  · exact Or.inr (Or.inl ⟨_, rfl⟩)
  · cases outcome : convert total fuel rest (regionOf desc :: grown :: earlier) with
    | none => exact Or.inl rfl
    | some ended =>
      obtain ⟨unfilled, result⟩ := ended
      have covered := convert_covers total fuel rest _ appendedPlaced restBounded unfilled result outcome
        desc.physicalStart
      cases unfilled with
      | false => exact Or.inr (Or.inl ⟨result, rfl⟩)
      | true => exact Or.inr (Or.inr ⟨result, desc.physicalStart, rfl, le_trans doubled covered⟩)

/-- A descriptor that continues the one written before it spoils the conversion,
wherever it comes.

Proof: induction over the descriptors. Before the first continuation each step
drops or writes one; at the continuation the merge branch is taken. -/
theorem convert_spoiled (total fuel : Nat) (rest done : List EfiMemoryDescriptor)
    (placed : Placed (done.map regionOf)) (bounded : Placed (rest.map regionOf))
    (continued : ¬ Separate (done.take 1 ++ kept rest)) :
    Spoiled (convert total fuel rest (done.map regionOf)) := by
  induction rest generalizing fuel done with
  | nil =>
    exfalso
    apply continued
    cases done <;> simp
  | cons desc rest ih =>
    cases fuel with
    | zero => exact Or.inl rfl
    | succ fuel =>
      obtain ⟨here, restBounded⟩ := forall_mem_cons.mp bounded
      by_cases dropped : regionFlags desc = 0
      · rw [kept_cons_dropped rest dropped] at continued
        rw [convert, if_pos dropped]
        exact ih fuel done placed restBounded continued
      · rw [kept_cons_written rest dropped] at continued
        cases merging : merged desc (done.map regionOf) with
        | some grown => exact convert_merge_spoils total (fuel + 1) desc rest _ grown placed bounded dropped merging
        | none =>
          have later : ¬ Separate (desc :: kept rest) := by
            intro chain
            apply continued
            cases done with
            | nil => simpa using chain
            | cons last earlier =>
              simp only [take_succ_cons, take_zero, cons_append, nil_append, isChain_cons_cons]
              rw [map_cons, merged_none_iff] at merging
              exact ⟨merging, chain⟩
          rw [convert, if_neg dropped, merging]
          dsimp only
          split
          · exact Or.inr (Or.inl ⟨_, rfl⟩)
          · exact ih fuel (desc :: done) (forall_mem_cons.mpr ⟨here, placed⟩) restBounded (by simpa using later)

section

variable (map : List EfiMemoryDescriptor)
include map

/-- A conversion that never completes makes the retrieval run forever. -/
theorem retrieve_never (incomplete : ∀ fuel, convert map.length fuel map [] = none ∨
    ∃ written, convert map.length fuel map [] = some (false, written))
    (fuel : Nat) (pad : LoaderScratchpad) : retrieveMemoryMap map fuel pad = none := by
  induction fuel generalizing pad with
  | zero => rfl
  | succ fuel ih =>
    rw [retrieveMemoryMap]
    split
    · rfl
    · rcases incomplete fuel with stuck | ⟨written, filled⟩
      · rw [stuck]
      · rw [filled]
        exact ih _

/-- A returned memory map comes from a completed conversion. -/
theorem retrieve_inv (fuel : Nat) (pad : LoaderScratchpad)
    (regions : List MemoryRegion) (returned : retrieveMemoryMap map fuel pad = some regions) :
    ∃ smaller written, convert map.length smaller map [] = some (true, written) ∧ regions = written.reverse := by
  revert returned
  fun_induction retrieveMemoryMap map fuel pad with
  | case1 | case2 | case3 => nofun
  | case4 fuel _ _ _ _ written completed =>
    intro returned
    exact ⟨fuel, written, completed, (Option.some.inj returned).symm⟩
  | case5 _ _ _ _ _ _ _ ih => exact ih

/-- The written descriptors partition the described memory. -/
theorem kept_partition (wellFormed : WellFormed map) : Partition map ((kept map).map regionOf) := by
  refine ⟨?_, ?_, ?_⟩
  · rw [pairwise_map]
    exact wellFormed.2.filter _
  · intro address
    constructor
    · rintro ⟨region, member, usable, held⟩
      obtain ⟨desc, inKept, rfl⟩ := mem_map.mp member
      exact ⟨desc, (mem_filter.mp inKept).1, (usable_iff desc).mp usable, held⟩
    · rintro ⟨desc, member, conventional, held⟩
      have flagged : regionFlags desc ≠ 0 := by
        rw [flags_conventional conventional]
        decide
      exact ⟨regionOf desc, mem_map_of_mem (mem_filter.mpr ⟨member, by simp [flagged]⟩),
        (usable_iff desc).mpr conventional, held⟩
  · intro flags address firmware
    constructor
    · rintro ⟨region, member, same, held⟩
      obtain ⟨desc, inKept, rfl⟩ := mem_map.mp member
      have kind := (firmware_iff desc).mp (by rw [show regionFlags desc = flags from same]; exact firmware)
      exact ⟨desc, (mem_filter.mp inKept).1, kind.1, kind.2, same, held⟩
    · rintro ⟨desc, member, _, _, same, held⟩
      have flagged : regionFlags desc ≠ 0 := by
        rintro zero
        rw [← same, zero] at firmware
        simp at firmware
      exact ⟨regionOf desc, mem_map_of_mem (mem_filter.mpr ⟨member, by simp [flagged]⟩), same, held⟩

end

/-- Regions that are apart come from descriptors none of which continues the one before it. -/
theorem separate_of_disjoint {map : List EfiMemoryDescriptor} {fuel : Nat} {pad : LoaderScratchpad}
    {regions : List MemoryRegion} (wellFormed : WellFormed map) (returned : retrieveMemoryMap map fuel pad = some regions)
    (disjoint : regions.Pairwise (fun left right => left.bytes.Apart right.bytes)) :
    Separate (kept map) := by
  obtain ⟨smaller, written, completed, rfl⟩ := retrieve_inv map fuel pad regions returned
  by_contra continued
  have spoiled := convert_spoiled map.length smaller map [] nofun (forall_mem_map.mpr wellFormed.1)
    (by simpa using continued)
  rw [map_nil, completed] at spoiled
  rcases spoiled with impossible | ⟨_, impossible⟩ | ⟨result, address, same, twice⟩
  · simp at impossible
  · simp at impossible
  · cases same
    have once := (pairwise_apart_iff MemoryRegion.bytes _).mp disjoint address
    simp only [cover, countP_reverse] at once twice
    omega

/-- The retrieval ends with a partition of the described memory exactly when the
scratchpad has room for a buffer, no written descriptor continues the one
written before it, and at least one descriptor is dropped.

Proof: under the condition the loop writes the kept descriptors one by one. If a
descriptor continues its predecessor the conversion is spoiled; if none is
dropped the buffer fills and the retrieval restarts forever. -/
theorem retrieve_partitions_iff (map : List EfiMemoryDescriptor) (pad : LoaderScratchpad)
    (wellFormed : WellFormed map) :
    (∃ fuel regions, retrieveMemoryMap map fuel pad = some regions ∧ Partition map regions) ↔
      Convertible map pad := by
  constructor
  · rintro ⟨fuel, regions, returned, disjoint, _⟩
    have separate := separate_of_disjoint wellFormed returned disjoint
    have room : (allocateFromLoaderScratchpad pad (map.length * memoryRegionSize) pageSize).isSome = true := by
      cases fuel with
      | zero => simp [retrieveMemoryMap] at returned
      | succ fuel =>
        rw [retrieveMemoryMap] at returned
        split at returned
        · simp at returned
        · next allocated => simp [allocated]
    refine ⟨room, separate, ?_⟩
    by_cases empty : map = []
    · exact Or.inl empty
    · right
      by_contra notDropped
      have never := retrieve_never map (fun fuel => (convert_separate map.length fuel map []
        (length_pos_of_ne_nil empty) separate).imp And.left (by simp [notDropped])) fuel pad
      exact nomatch never.symm.trans returned
  · rintro ⟨room, separate, dropped⟩
    obtain ⟨⟨address, remaining⟩, allocated⟩ := Option.isSome_iff_exists.mp room
    have written : convert map.length map.length map [] = some (true, (kept map).reverse.map regionOf) := by
      rcases dropped with rfl | fewer
      · simp [convert]
      · have converted := convert_separate map.length map.length map [] (Nat.zero_lt_of_lt fewer) separate
        simpa [fewer] using converted
    refine ⟨map.length + 1, (kept map).map regionOf, ?_, kept_partition map wellFormed⟩
    rw [retrieveMemoryMap, allocated, written]
    simp [← map_reverse]

/-- Two adjacent pages of conventional memory before two reserved ones. -/
def adjacentMap : List EfiMemoryDescriptor :=
  [⟨7, 0x1000, 1, 0⟩, ⟨7, 0x2000, 1, 0⟩, ⟨0, 0x3000, 1, 0⟩, ⟨0, 0x4000, 1, 0⟩]

/-- The loader's scratchpad of four mebibytes. -/
def emptyScratchpad : LoaderScratchpad := ⟨0x100000, 0x100000, 4 * 1024 * 1024⟩

/-- Descriptors that each end before the next begins are disjoint. -/
theorem wellFormed_of_ascending {map : List EfiMemoryDescriptor}
    (bounded : ∀ desc ∈ map, desc.physicalStart + desc.numberOfPages * pageSize < 2 ^ 64)
    (ascending : map.Pairwise fun left right =>
      left.physicalStart + left.numberOfPages * pageSize ≤ right.physicalStart) : WellFormed map := by
  refine ⟨bounded, ascending.imp ?_⟩
  rintro left right before address ⟨⟨_, low⟩, ⟨high, _⟩⟩
  exact absurd (lt_of_lt_of_le low before) (not_lt.mpr high)

theorem adjacentMap_wellFormed : WellFormed adjacentMap := wellFormed_of_ascending (by decide) (by decide)

/-- Adjacent conventional memory is not partitioned: its second page ends up in
two usable regions. -/
theorem adjacent_memory_not_partitioned : WellFormed adjacentMap ∧ ¬ ∃ fuel regions,
      retrieveMemoryMap adjacentMap fuel emptyScratchpad = some regions ∧
        Partition adjacentMap regions := by
  refine ⟨adjacentMap_wellFormed, ?_⟩
  rintro ⟨fuel, regions, returned, disjoint, _⟩
  have continued : ¬ Separate (kept adjacentMap) := by
    decide
  exact continued (separate_of_disjoint adjacentMap_wellFormed returned disjoint)

/-- Two ranges of conventional memory with a reserved page between them, and one that the firmware uses. -/
def spacedMap : List EfiMemoryDescriptor :=
  [⟨7, 0x1000, 1, 0⟩, ⟨0, 0x2000, 1, 0⟩, ⟨7, 0x3000, 2, 0⟩, ⟨5, 0x5000, 1, efiMemoryRuntime⟩]

/-- The three written ranges partition the memory of the spaced map. -/
theorem retrieve_partitions_spaced : Convertible spacedMap emptyScratchpad ∧
    ∃ fuel regions, retrieveMemoryMap spacedMap fuel emptyScratchpad = some regions ∧ Partition spacedMap regions := by
  have convertible : Convertible spacedMap emptyScratchpad := ⟨by decide, by decide, .inr (by decide)⟩
  have wellFormed : WellFormed spacedMap := wellFormed_of_ascending (by decide) (by decide)
  exact ⟨convertible, (retrieve_partitions_iff spacedMap emptyScratchpad wellFormed).mpr convertible⟩

end Lfos.LoaderMemoryMap
