import Lfos.LoaderMemoryMap
import Lfos.PageWalks
import Lfos.PhysicalBytes

/-!
# The page tables of the loader

The loader makes the tables the kernel starts with. It takes them from its scratchpad, which gives out
memory from the lower to the higher addresses and takes none back, and clears what it gives out. So a
table is never made in a frame that is in use, and what the loader has put into the scratchpad beside
the tables is kept. The processor then finds the pages the loader has mapped.
-/

namespace Lfos.LoaderPaging

open BitFields PageTables PhysicalBytes TableTrees Words Option Function

open Lfos.LoaderMemoryMap (LoaderScratchpad allocateFromLoaderScratchpad)

/-- The physical memory and what is left of the scratchpad. -/
structure Machine where
  memory : Memory
  pad : LoaderScratchpad

/-- Take some bytes from the scratchpad, which are cleared with those that are skipped for the
alignment. -/
def allocate (machine : Machine) (len alignment : Nat) : Option (Nat × Machine) :=
  (allocateFromLoaderScratchpad machine.pad len alignment).map (fun taken =>
    (taken.1, ⟨zeroBytes machine.memory machine.pad.loaderScratchpadFree
      (u64Sub taken.2.loaderScratchpadFree machine.pad.loaderScratchpadFree), taken.2⟩))

/-- The entry with the default settings of the loader. -/
def defaultEntry (base : Nat) : VmTableEntry := tableEntry base 0#64

/-- Make the table an entry leads to, if there is none. -/
def ensureTable (machine : Machine) (table : Nat) (index : Fin 512) : Option Machine :=
  if present.get (machine.memory table index) = 0 then
    (allocate machine 4096 4096).map (fun taken =>
      { taken.2 with memory := write taken.2.memory table index (defaultEntry (taken.1 >>> 12)) })
  else some machine

/-- The last table on the way to an address is written. -/
def setPage (machine : Machine) (pt virt physical : Nat) : Machine :=
  { machine with memory := write machine.memory pt (ptIndex virt) (defaultEntry (physical >>> 12)) }

def mapPage (machine : Machine) (pml4 virt physical : Nat) : Option Machine :=
  (ensureTable machine pml4 (pml4Index virt)).bind (fun machine =>
    let pdp := nextBase.get (machine.memory pml4 (pml4Index virt))
    (ensureTable machine pdp (pdpIndex virt)).bind (fun machine =>
      let pd := nextBase.get (machine.memory pdp (pdpIndex virt))
      (ensureTable machine pd (pdIndex virt)).map (fun machine =>
        setPage machine (nextBase.get (machine.memory pd (pdIndex virt))) virt physical)))

/-- Map as many pages one after the other. -/
def mapRange (machine : Machine) (pml4 virt physical : Nat) : Nat → Option Machine
  | 0 => some machine
  | count + 1 => (mapPage machine pml4 virt physical).bind (fun machine =>
      mapRange machine pml4 (u64 (virt + 4096)) (u64 (physical + 4096)) count)

/-- The pages some bytes need. -/
def pagesIn (size : Nat) : Nat := (size + 4095) / 4096

/-- The loop that maps the pages of some bytes. Its counter is a word that is raised by the size of a
page, and never passes a size in the last page of the words. -/
def mapPages (machine : Machine) (pml4 virt physical size : Nat) : Option Machine :=
  if 2 ^ 64 - 4096 < size then none else mapRange machine pml4 virt physical (pagesIn size)

section

/-- An entry the loader has cleared or written. -/
def Made (entry : VmTableEntry) : Prop := entry = 0#64 ∨ ∃ base, entry = defaultEntry base

variable {entry : VmTableEntry}

theorem Made.plain (made : Made entry) : huge.get entry = 0 := by
  rcases made with rfl | ⟨base, rfl⟩
  · exact get_zero huge
  · exact (tableEntry_huge base 0#64).trans (get_zero huge)

theorem Made.absent (made : Made entry) (absent : present.get entry = 0) : entry = 0#64 := by
  rcases made with rfl | ⟨base, rfl⟩
  · rfl
  · exact absurd ((tableEntry_present base 0#64).symm.trans absent) one_ne_zero

/-- An entry of the loader shows the frame it was made for. -/
theorem shown_defaultEntry {virt other : Nat} (outside : ¬ DirectlyMapped virt) (here : other / 4096 = virt / 4096)
    (physical : Nat) : answer none (shown other) (3, defaultEntry (physical >>> 12)) = some (physical / 4096 % 2 ^ 40) := by
  have elsewhere : ¬ DirectlyMapped other := fun inside => outside ((directlyMapped_congr here).mp inside)
  have there : present.get (defaultEntry (physical >>> 12)) = 1 := tableEntry_present ..
  have base : nextBase.get (defaultEntry (physical >>> 12)) = (physical >>> 12) % 2 ^ 40 := tableEntry_nextBase ..
  rw [answer, if_neg (by rw [there]; decide), shown, if_neg elsewhere, physicalIn_page, base, Nat.shiftRight_eq_div_pow]

end

variable {machine after : Machine} {pml4 : Nat}

section

/-- The scratchpad is a part of the physical memory. -/
structure Ready (pad : LoaderScratchpad) : Prop where
  inside : pad.loaderScratchpadFree ≤ pad.loaderScratchpad + pad.loaderScratchpadSize
  physical : pad.loaderScratchpad + pad.loaderScratchpadSize ≤ 2 ^ 52

/-- The first address of a page from an address on. -/
def alignUp (address : Nat) : Nat := (address + 4095) / 4096 * 4096

/-- Some bytes from the next page on are left. -/
def Left (pad : LoaderScratchpad) (len : Nat) : Prop :=
  alignUp pad.loaderScratchpadFree + len ≤ pad.loaderScratchpad + pad.loaderScratchpadSize

/-- The next page that is given out. -/
abbrev Machine.next (machine : Machine) : Nat := alignUp machine.pad.loaderScratchpadFree

/-- Some bytes are taken from the next page on, and cleared. -/
def Machine.take (machine : Machine) (len : Nat) : Machine where
  memory := zeroBytes machine.memory machine.pad.loaderScratchpadFree
    (machine.next + len - machine.pad.loaderScratchpadFree)
  pad := { machine.pad with loaderScratchpadFree := machine.next + len }

/-- There is room for some more tables. -/
def Room (pad : LoaderScratchpad) (tables : Nat) : Prop := Left pad (4096 * tables)

variable {pad : LoaderScratchpad} {len address : Nat}

theorem Ready.free_le (ready : Ready pad) : pad.loaderScratchpadFree ≤ 2 ^ 52 := ready.inside.trans ready.physical

/-- The bytes that are skipped for an alignment. -/
def alignmentOffset (pad : LoaderScratchpad) (alignment : Nat) : Nat :=
  let misaligned := alignment - pad.loaderScratchpadFree % alignment
  if misaligned = alignment then 0 else misaligned

/-- The allocator as long as no sum wraps around. -/
theorem allocateFromLoaderScratchpad_unwrapped {alignment : Nat}
    (limit : pad.loaderScratchpad + pad.loaderScratchpadSize < 2 ^ 64)
    (unwrapped : pad.loaderScratchpadFree + (len + alignmentOffset pad alignment) < 2 ^ 64) :
    allocateFromLoaderScratchpad pad len alignment =
    if pad.loaderScratchpad + pad.loaderScratchpadSize < pad.loaderScratchpadFree + alignmentOffset pad alignment + len
    then none else some (pad.loaderScratchpadFree + alignmentOffset pad alignment,
    { pad with loaderScratchpadFree := pad.loaderScratchpadFree + alignmentOffset pad alignment + len }) := by
  have finish : pad.loaderScratchpadFree + (len + alignmentOffset pad alignment) =
      pad.loaderScratchpadFree + alignmentOffset pad alignment + len := by omega
  change (if u64 _ < u64 (_ + u64 (len + alignmentOffset pad alignment)) then none
    else some (u64 (_ + alignmentOffset pad alignment),
      { pad with loaderScratchpadFree := u64 (_ + u64 (len + alignmentOffset pad alignment)) })) = _
  rw [u64_of_lt limit, u64_of_lt (show len + alignmentOffset pad alignment < 2 ^ 64 by omega), u64_of_lt unwrapped,
    u64_of_lt (show pad.loaderScratchpadFree + alignmentOffset pad alignment < 2 ^ 64 by omega), finish]

/-- The allocator skips to the next page. -/
theorem allocateFromLoaderScratchpad_eq (ready : Ready pad) (short : len ≤ 2 ^ 60) :
    allocateFromLoaderScratchpad pad len 4096 =
    if pad.loaderScratchpad + pad.loaderScratchpadSize < alignUp pad.loaderScratchpadFree + len then none
    else some (alignUp pad.loaderScratchpadFree, { pad with loaderScratchpadFree := alignUp pad.loaderScratchpadFree + len }) := by
  have low := ready.free_le
  have physical := ready.physical
  have skipped : pad.loaderScratchpadFree + alignmentOffset pad 4096 = alignUp pad.loaderScratchpadFree := by
    rw [alignUp, alignmentOffset]
    split <;> omega
  have near : alignUp pad.loaderScratchpadFree ≤ pad.loaderScratchpadFree + 4095 := by
    rw [alignUp]
    omega
  rw [allocateFromLoaderScratchpad_unwrapped (by omega) (by omega), skipped]

theorem le_next (machine : Machine) : machine.pad.loaderScratchpadFree ≤ machine.next := by
  rw [Machine.next, alignUp]
  omega

theorem next_aligned (machine : Machine) : machine.next % 4096 = 0 := Nat.mul_mod_left _ _

theorem allocate_iff (ready : Ready machine.pad) (short : len ≤ 2 ^ 60) : allocate machine len 4096 = some (address, after) ↔
    Left machine.pad len ∧ address = machine.next ∧ after = machine.take len := by
  have physical := ready.physical
  have above := le_next machine
  rw [allocate, allocateFromLoaderScratchpad_eq ready short, Left]
  split
  · next full => exact ⟨nofun, fun taken => absurd taken.1 (Nat.not_le.mpr full)⟩
  · next fits =>
    change ¬ _ < machine.next + len at fits
    have skipped : u64Sub (machine.next + len) machine.pad.loaderScratchpadFree =
        machine.next + len - machine.pad.loaderScratchpadFree := u64Sub_of_le (by omega) (by omega)
    rw [map_some, skipped, some.injEq, Prod.mk.injEq, and_iff_right (not_lt.mp fits)]
    exact and_congr eq_comm eq_comm

theorem take_ready (ready : Ready machine.pad) (left : Left machine.pad len) : Ready (machine.take len).pad :=
  ⟨left, ready.physical⟩

theorem free_le_take (machine : Machine) (len : Nat) :
    machine.pad.loaderScratchpadFree ≤ (machine.take len).pad.loaderScratchpadFree :=
  (le_next machine).trans (Nat.le_add_right _ _)

/-- What was given out before is kept. -/
theorem take_kept {other : Nat} (below : other < machine.pad.loaderScratchpadFree) :
    byteAt (machine.take len).memory other = byteAt machine.memory other := by
  rw [Machine.take, byteAt_zeroBytes, if_neg (by omega)]

theorem take_frame {frame : Nat} (below : frame * 4096 + 4096 ≤ machine.pad.loaderScratchpadFree) :
    (machine.take len).memory frame = machine.memory frame := by
  apply zeroBytes_frame
  omega

/-- A page that is taken is clear. -/
theorem take_blank (machine : Machine) :
    (machine.take 4096).memory (machine.next / 4096) = fun _ => 0#64 := by
  have above := le_next machine
  have aligned := next_aligned machine
  apply zeroBytes_whole <;> omega

end

section

/-- The tables are made by the loader, below what is left of the scratchpad. -/
structure Built (pml4 : Nat) (machine : Machine) : Prop where
  ready : Ready machine.pad
  wellFormed : WellFormed machine.memory pml4
  made : ∀ path table, locate subtable machine.memory 0 pml4 path = some table → ∀ index, Made (machine.memory table index)
  below : ∀ path table, locate subtable machine.memory 0 pml4 path = some table →
    table * 4096 + 4096 ≤ machine.pad.loaderScratchpadFree

/-- Memory was taken, and what was given out besides the tables is kept and used for none. -/
structure Grown (pml4 : Nat) (machine after : Machine) : Prop where
  start : after.pad.loaderScratchpad = machine.pad.loaderScratchpad
  size : after.pad.loaderScratchpadSize = machine.pad.loaderScratchpadSize
  free : machine.pad.loaderScratchpadFree ≤ after.pad.loaderScratchpadFree
  kept : ∀ address < machine.pad.loaderScratchpadFree, Unused machine.memory pml4 (address / 4096) →
    Unused after.memory pml4 (address / 4096) ∧ byteAt after.memory address = byteAt machine.memory address

variable {middle : Machine}

theorem Grown.refl (pml4 : Nat) (machine : Machine) : Grown pml4 machine machine :=
  ⟨rfl, rfl, le_refl _, fun _ _ unused => ⟨unused, rfl⟩⟩

theorem Grown.trans (first : Grown pml4 machine middle) (second : Grown pml4 middle after) : Grown pml4 machine after where
  start := second.start.trans first.start
  size := second.size.trans first.size
  free := first.free.trans second.free
  kept address below unused := by
    obtain ⟨still, same⟩ := first.kept address below unused
    obtain ⟨unused, equal⟩ := second.kept address (below.trans_le first.free) still
    exact ⟨unused, equal.trans same⟩

theorem Built.plain (built : Built pml4 machine) (virt : Nat) : Plain machine.memory pml4 virt :=
  fun before index table reads _ => (built.made before table reads.2 index).plain

/-- Nothing that is taken from the scratchpad concerns the tables. -/
theorem Built.take_untouched (built : Built pml4 machine) (len : Nat) :
    Untouched machine.memory (machine.take len).memory pml4 :=
  untouched_of_same (fun path table found => take_frame (built.below path table found))

/-- Tables that are not touched are those the loader has made. -/
theorem Built.untouched (built : Built pml4 machine) (untouched : Untouched machine.memory after.memory pml4)
    (ready : Ready after.pad) (free : machine.pad.loaderScratchpadFree ≤ after.pad.loaderScratchpadFree) : Built pml4 after := by
  constructor
  · exact ready
  · exact untouched.wellFormed built.wellFormed
  · intro path table found index
    rw [untouched.located] at found
    rw [untouched.same path table found]
    exact built.made path table found index
  · intro path table found
    rw [untouched.located] at found
    exact (built.below path table found).trans free

theorem Built.take {len : Nat} (built : Built pml4 machine) (left : Left machine.pad len) : Built pml4 (machine.take len) :=
  built.untouched (built.take_untouched len) (take_ready built.ready left) (free_le_take machine len)

theorem Built.take_grown (built : Built pml4 machine) (len : Nat) : Grown pml4 machine (machine.take len) := by
  refine ⟨rfl, rfl, free_le_take machine len, fun address below unused => ⟨fun path => ?_, take_kept below⟩⟩
  rw [(built.take_untouched len).located]
  exact unused path

/-- An entry of a table is replaced. -/
theorem byteAt_write {memory : Memory} {table address : Nat} (index : Fin 512) (entry : VmTableEntry)
    (elsewhere : address / 4096 ≠ table) : byteAt (write memory table index entry) address = byteAt memory address := by
  have same : write memory table index entry (address / 4096) = memory (address / 4096) := update_of_ne elsewhere ..
  rw [byteAt, byteAt, VirtualBytes.loadByte, VirtualBytes.loadByte, same]

/-- What is known after the tables of a path were ensured. -/
structure Stepped (pml4 : Nat) (machine after : Machine) (path : List (Fin 512)) (table : Nat) : Prop where
  built : Built pml4 after
  grown : Grown pml4 machine after
  located : locate subtable after.memory 0 pml4 path = some table
  mapped : ∀ virt, mapped after.memory pml4 virt = mapped machine.memory pml4 virt

variable {position : List (Fin 512)} {table : Nat} {index : Fin 512}

/-- A cleared page of the scratchpad is hung into an entry. -/
def hang (machine : Machine) (table : Nat) (index : Fin 512) : Machine :=
  ⟨write (machine.take 4096).memory table index (defaultEntry (machine.next >>> 12)),
    (machine.take 4096).pad⟩

theorem hang_stepped (built : Built pml4 machine) (left : Left machine.pad 4096)
    (located : locate subtable machine.memory 0 pml4 position = some table) (above : position.length ≤ 2)
    (absent : present.get (machine.memory table index) = 0) :
    Stepped pml4 machine (hang machine table index) (position ++ [index])
      (nextBase.get ((hang machine table index).memory table index)) := by
  have untouched := built.take_untouched 4096
  have between := built.take left
  have grown := built.take_grown 4096
  have blank := take_blank machine
  have low := le_next machine
  have aligned := next_aligned machine
  have free : (machine.take 4096).pad.loaderScratchpadFree = machine.next + 4096 := rfl
  have limit := take_ready built.ready left
  unfold hang
  generalize machine.next = address at *
  generalize machine.take 4096 = after at *
  have frame : address >>> 12 = address / 4096 := Nat.shiftRight_eq_div_pow address 12
  have within : after.memory table = machine.memory table := untouched.same position table located
  have empty : after.memory table index = 0#64 := by
    rw [within]
    exact (built.made position table located index).absent absent
  have fresh : Fresh after.memory pml4 (address / 4096) := by
    constructor
    · have inside := limit.free_le
      omega
    · intro path found
      rw [untouched.located] at found
      have old := built.below path _ found
      omega
  have still : locate subtable after.memory 0 pml4 position = some table := (untouched.located position).trans located
  have missing : present.get (after.memory table index) = 0 := by rwa [within]
  have plain : NotHuge position.length (after.memory table index) := by
    rw [empty]
    exact fun _ => get_zero huge
  -- The page is clear and so is the entry, so this is what the kernel does with a frame.
  have same : write after.memory table index (defaultEntry (address >>> 12)) =
      vmEnsureTable after.memory table index (address / 4096) := by
    have clear : update after.memory (address / 4096) (fun _ => 0#64) = after.memory := by
      rw [← blank]
      exact update_eq_self _ _
    rw [vmEnsureTable]
    dsimp only
    rw [clear, empty, frame]
    rfl
  have ensurable : Ensurable after.memory pml4 position table index (address / 4096) :=
    ⟨between.wellFormed, still, above, plain, fun _ => fresh⟩
  have grafts := ensurable.grafts missing
  have ensured := ensurable.ensured
  have grafted := ensureTable_eq grafts.different missing
  rw [← same] at ensured grafted
  have paths := grafts.locate
  rw [← grafted] at paths
  refine ⟨⟨limit, ensured.wellFormed, ?_, ?_⟩, ⟨grown.start, grown.size, grown.free, ?_⟩, ensured.located, ?_⟩
  · intro path found reached slot
    dsimp only at reached ⊢
    by_cases here : found = table ∧ slot = index
    · obtain ⟨rfl, rfl⟩ := here
      rw [write_here]
      exact .inr ⟨_, rfl⟩
    · rw [write_elsewhere _ _ here]
      rw [paths] at reached
      split at reached
      · rw [← some.inj reached, blank]
        exact .inl rfl
      · exact between.made path found reached slot
  · intro path found reached
    dsimp only at reached ⊢
    rw [paths] at reached
    split at reached
    · rw [← some.inj reached]
      omega
    · exact between.below path found reached
  · intro other lower unused
    obtain ⟨still, same⟩ := grown.kept other lower unused
    refine ⟨fun path => ?_, ?_⟩
    · rw [paths]
      split
      · intro equal
        have here := some.inj equal
        omega
      · exact still path
    · rw [byteAt_write _ _ (fun here => unused position (by rw [here]; exact located)), same]
  · intro virt
    exact (ensured.mapped virt).trans (untouched.mapped virt)

theorem ensureTable_stepped (built : Built pml4 machine)
    (located : locate subtable machine.memory 0 pml4 position = some table) (above : position.length ≤ 2)
    (ensured : ensureTable machine table index = some after) :
    Stepped pml4 machine after (position ++ [index]) (nextBase.get (after.memory table index)) := by
  rw [ensureTable] at ensured
  split at ensured
  · next absent =>
    obtain ⟨⟨address, taken⟩, allocated, rfl⟩ := map_eq_some_iff.mp ensured
    obtain ⟨left, rfl, rfl⟩ := (allocate_iff built.ready (by decide)).mp allocated
    exact hang_stepped built left located above absent
  · next there =>
    cases ensured
    have plain : NotHuge position.length (machine.memory table index) :=
      fun _ => (built.made position table located index).plain
    exact ⟨built, .refl pml4 machine, located_further position index located above there plain, fun _ => rfl⟩

/-- The tables of a path from a table on are ensured one after the other. -/
def ensurePath (machine : Machine) (table : Nat) : List (Fin 512) → Option (Machine × Nat)
  | [] => some (machine, table)
  | index :: path => (ensureTable machine table index).bind (fun machine =>
      ensurePath machine (nextBase.get (machine.memory table index)) path)

theorem mapPage_eq (machine : Machine) (pml4 virt physical : Nat) : mapPage machine pml4 virt physical =
    (ensurePath machine pml4 (way virt)).map (fun made => setPage made.1 made.2 virt physical) := by
  simp only [mapPage, way, ensurePath, map_bind, Function.comp_def, map_eq_bind, bind_some]

variable {path : List (Fin 512)} {last : Nat}

theorem ensurePath_stepped (built : Built pml4 machine)
    (located : locate subtable machine.memory 0 pml4 position = some table) (short : position.length + path.length ≤ 3)
    (ensured : ensurePath machine table path = some (after, last)) : Stepped pml4 machine after (position ++ path) last := by
  induction path generalizing machine table position with
  | nil =>
    cases ensured
    rw [List.append_nil]
    exact ⟨built, .refl pml4 _, located, fun _ => rfl⟩
  | cons index path ih =>
    rw [List.length_cons] at short
    obtain ⟨middle, made, rest⟩ := bind_eq_some_iff.mp ensured
    have first := ensureTable_stepped built located (by omega) made
    have later := ih first.built first.located (by rw [List.length_append, List.length_singleton]; omega) rest
    rw [List.append_assoc] at later
    exact ⟨later.built, first.grown.trans later.grown, later.located,
      fun virt => (later.mapped virt).trans (first.mapped virt)⟩

/-- The entry of a page is written. -/
theorem setPage_built {virt pt : Nat} (built : Built pml4 machine)
    (located : locate subtable machine.memory 0 pml4 (way virt) = some pt) (physical : Nat) :
    Built pml4 (setPage machine pt virt physical) ∧ Grown pml4 machine (setPage machine pt virt physical) := by
  have paths : ∀ path, locate subtable (setPage machine pt virt physical).memory 0 pml4 path =
      locate subtable machine.memory 0 pml4 path := locate_write_same built.wellFormed located (subtable_same _ _)
  refine ⟨⟨built.ready, ?_, ?_, ?_⟩, ⟨rfl, rfl, le_refl _, fun address _ unused => ⟨fun path => ?_, ?_⟩⟩⟩
  · exact separated_write_same built.wellFormed located (subtable_same _ _)
  · intro path table found index
    rw [paths] at found
    dsimp only [setPage]
    by_cases here : table = pt ∧ index = ptIndex virt
    · obtain ⟨rfl, rfl⟩ := here
      rw [write_here]
      exact .inr ⟨_, rfl⟩
    · rw [write_elsewhere _ _ here]
      exact built.made path table found index
  · intro path table found
    rw [paths] at found
    exact built.below path table found
  · rw [paths]
    exact unused path
  · exact byteAt_write _ _ (fun here => unused (way virt) (by rw [here]; exact located))

end

section

/-- What mapping an address does. The page concerns an address of the processor only. -/
structure MapsTo (pml4 : Nat) (machine after : Machine) (virt physical : Nat) : Prop where
  built : Built pml4 after
  grown : Grown pml4 machine after
  reached : ∃ pt, locate subtable after.memory 0 pml4 (way virt) = some pt
  mapped : Canonical virt → ¬ DirectlyMapped virt → ∀ other, Canonical other → mapped after.memory pml4 other =
      if other / 4096 = virt / 4096 then some (physical / 4096 % 2 ^ 40) else mapped machine.memory pml4 other

variable {virt physical : Nat}

theorem mapPage_mapsTo (built : Built pml4 machine) (result : mapPage machine pml4 virt physical = some after) :
    MapsTo pml4 machine after virt physical := by
  rw [mapPage_eq] at result
  obtain ⟨⟨middle, pt⟩, ensured, rfl⟩ := map_eq_some_iff.mp result
  have stepped := ensurePath_stepped built locate_nil (le_refl 3) ensured
  obtain ⟨set, kept⟩ := setPage_built stepped.built stepped.located physical
  refine ⟨set, stepped.grown.trans kept, ?_, ?_⟩
  · exact ⟨_, (locate_write_same stepped.built.wellFormed stepped.located (subtable_same _ _) _).trans stepped.located⟩
  · intro canonical outside
    have updated : Updated machine.memory _ pml4 virt (some (physical / 4096 % 2 ^ 40)) :=
      updated_write canonical stepped.built.wellFormed stepped.located (fun other _ => stepped.built.plain other)
        stepped.mapped (fun other here => shown_defaultEntry outside here physical)
    exact updated.mapped

end

end Lfos.LoaderPaging
