import Lfos.LoaderPaging

/-!
# The mappings of the loader

The loader maps memory page by page, from a virtual and a physical address on. The processor then finds
each byte of the memory at its distance from the virtual address. The tables for this are a few, as only
every 512th page can be the first one of a new table; with room for them the loader gets its mapping.
-/

namespace Lfos.LoaderPaging

open PageTables PhysicalBytes TableTrees Words Option

variable {machine after : Machine} {pml4 virt physical count : Nat}

section

variable {table : Nat}

/-- There is nothing below an empty table. -/
theorem locate_blank {memory : Memory} {pml4 : Nat} (blank : memory pml4 = fun _ => 0#64) {path : List (Fin 512)}
    (found : locate subtable memory 0 pml4 path = some table) : path = [] ∧ table = pml4 := by
  cases path with
  | nil => exact ⟨rfl, (some.inj found).symm⟩
  | cons index path =>
    rw [locate, blank] at found
    cases found

/-- A cleared page of the scratchpad is a PML4 without tables. -/
theorem take_root (ready : Ready machine.pad) (left : Left machine.pad 4096) :
    Built (machine.next / 4096) (machine.take 4096) := by
  have blank := take_blank machine
  constructor
  · exact take_ready ready left
  · intro left right table atLeft atRight
    rw [(locate_blank blank atLeft).1, (locate_blank blank atRight).1]
  · intro path table found index
    rw [(locate_blank blank found).2, blank]
    exact .inl rfl
  · intro path table found
    rw [(locate_blank blank found).2]
    change _ ≤ machine.next + 4096
    omega

end

/-- The loader makes no huge pages. -/
theorem Built.leaf (built : Built pml4 machine) {level : Nat} {entry : VmTableEntry}
    (stopped : leaf machine.memory pml4 virt = some (level, entry)) (there : present.get entry ≠ 0) :
    level = 3 ∧ huge.get entry = 0 := by
  obtain ⟨before, index, table, reads, same, rfl, childless⟩ := stop_reads stopped
  have plain := (built.made before table reads.2 index).plain
  have short : before.length + 1 ≤ 4 := by
    have shorter := reads.1.length_le
    rwa [List.length_append] at shorter
  by_contra higher
  rw [subtable_plain (by omega) there (fun _ => plain)] at childless
  exact nomatch childless

/-- The processor finds the frame of the page. -/
theorem Built.translate (built : Built pml4 machine) (canonical : Canonical virt) (outside : ¬ DirectlyMapped virt) :
    hardwareTranslate machine.memory pml4 virt =
    (mapped machine.memory pml4 virt).map (fun frame => frame * 4096 + virt % 4096) := by
  rw [hardwareTranslate, if_pos canonical,
    hardwareWalk_eq (fun _ => (built.made [] pml4 locate_nil _).plain), descend_eq, mapped_eq]
  cases stopped : PageTables.leaf machine.memory pml4 virt with
  | none => rfl
  | some found =>
    obtain ⟨level, entry⟩ := found
    rw [elim_some, elim_some, answer, answer]
    by_cases absent : present.get entry = 0
    · rw [if_pos absent, if_pos absent]
      rfl
    · obtain ⟨rfl, _⟩ := built.leaf stopped absent
      rw [if_neg absent, if_neg absent, shown, if_neg outside, physicalIn_page, pageAddress]
      have whole : nextBase.get entry * 4096 / 2 ^ (39 - 9 * 3) * 2 ^ (39 - 9 * 3) = nextBase.get entry * 4096 := by omega
      rw [whole]
      rfl

/-- An address of the processor that the kernel does not map to the physical memory. -/
def Usable (virt : Nat) : Prop := Canonical virt ∧ ¬ DirectlyMapped virt

theorem mapRange_built (built : Built pml4 machine) (result : mapRange machine pml4 virt physical count = some after) :
    Built pml4 after ∧ Grown pml4 machine after := by
  induction count generalizing machine virt physical with
  | zero =>
    obtain rfl := some.inj result
    exact ⟨built, .refl pml4 machine⟩
  | succ count ih =>
    obtain ⟨middle, first, rest⟩ := bind_eq_some_iff.mp result
    have page := mapPage_mapsTo built first
    obtain ⟨final, grown⟩ := ih page.built rest
    exact ⟨final, page.grown.trans grown⟩

/-- The pages from an address on are mapped, and no others. -/
theorem mapRange_mapped (built : Built pml4 machine) (result : mapRange machine pml4 virt physical count = some after)
    (aligned : virt % 4096 = 0) (word : virt < 2 ^ 64) (short : count ≤ 2 ^ 52) (inMemory : physical + 4096 * count ≤ 2 ^ 52)
    (usable : ∀ page < count, Usable (u64 (virt + 4096 * page))) {other : Nat} (canonical : Canonical other) :
    mapped after.memory pml4 other =
    if u64Sub other virt / 4096 < count then some (physical / 4096 + u64Sub other virt / 4096)
    else mapped machine.memory pml4 other := by
  have small : other < 2 ^ 64 := by
    unfold Canonical at canonical
    omega
  induction count generalizing machine virt physical with
  | zero =>
    cases result
    rfl
  | succ count ih =>
    rw [mapRange] at result
    obtain ⟨middle, first, rest⟩ := bind_eq_some_iff.mp result
    have page := mapPage_mapsTo built first
    have start : Usable virt := by
      have here := usable 0 (Nat.succ_pos count)
      rwa [mul_zero, add_zero, u64_of_lt word] at here
    have later : ∀ page < count, Usable (u64 (u64 (virt + 4096) + 4096 * page)) := by
      intro page inside
      have there := usable (page + 1) (by omega)
      have same : u64 (u64 (virt + 4096) + 4096 * page) = u64 (virt + 4096 * (page + 1)) := by
        simp only [u64]
        omega
      rwa [same]
    have next : u64 (physical + 4096) = physical + 4096 := u64_of_lt (by omega)
    have aligned' : u64 (virt + 4096) % 4096 = 0 := by
      simp only [u64]
      omega
    rw [next] at rest
    rw [ih page.built rest aligned' (u64_lt _) (by omega) (by omega) later, page.mapped start.1 start.2 other canonical]
    -- The first page is the one at distance zero, and all others are nearer to the second one by a page.
    have offset : u64Sub other virt / 4096 = if other / 4096 = virt / 4096 then 0
        else u64Sub other (u64 (virt + 4096)) / 4096 + 1 := by
      simp only [u64Sub, u64]
      split <;> omega
    have far : other / 4096 = virt / 4096 → ¬ u64Sub other (u64 (virt + 4096)) / 4096 < count := by
      simp only [u64Sub, u64]
      omega
    by_cases here : other / 4096 = virt / 4096
    · have frame : physical / 4096 % 2 ^ 40 = physical / 4096 := Nat.mod_eq_of_lt (by omega)
      rw [if_pos here] at offset
      rw [if_neg (far here), if_pos here, offset, if_pos (Nat.succ_pos count), frame, add_zero]
    · rw [if_neg here] at offset
      rw [if_neg here, offset]
      by_cases inside : u64Sub other (u64 (virt + 4096)) / 4096 < count
      · have frame : (physical + 4096) / 4096 + u64Sub other (u64 (virt + 4096)) / 4096 =
            physical / 4096 + (u64Sub other (u64 (virt + 4096)) / 4096 + 1) := by omega
        rw [if_pos inside, if_pos (Nat.succ_lt_succ inside), frame]
      · rw [if_neg inside, if_neg (by omega)]

theorem pagesIn_spec (size : Nat) : size ≤ 4096 * pagesIn size ∧ 4096 * pagesIn size < size + 4096 := by
  rw [pagesIn]
  omega

theorem mapPages_range (result : mapPages machine pml4 virt physical size = some after) :
    mapRange machine pml4 virt physical (pagesIn size) = some after ∧ size ≤ 2 ^ 64 - 4096 := by
  obtain ⟨small, range⟩ := ite_none_left_eq_some.mp result
  exact ⟨range, not_lt.mp small⟩

theorem mapPages_built (built : Built pml4 machine)
    (result : mapPages machine pml4 virt physical size = some after) : Built pml4 after ∧ Grown pml4 machine after :=
  mapRange_built built (mapPages_range result).1

section

variable {tables : Nat}

/-- The tables on the way to an address are there. -/
def Reached (machine : Machine) (pml4 virt : Nat) : Prop :=
  ∃ pt, locate subtable machine.memory 0 pml4 (way virt) = some pt

theorem Room.fewer {more : Nat} (room : Room machine.pad more) (fewer : tables ≤ more) : Room machine.pad tables := by
  unfold Room Left at room ⊢
  omega

/-- Some bytes are taken from the room of their pages. -/
theorem Room.take (room : Room machine.pad (tables + pagesIn size)) :
    Left machine.pad size ∧ Room (machine.take size).pad tables := by
  have pages := pagesIn_spec size
  simp only [Room, Left, Machine.take, alignUp] at room ⊢
  omega

theorem ensureTable_returns (built : Built pml4 machine) (table : Nat) (index : Fin 512) (room : Room machine.pad (tables + 1)) :
    ∃ after, ensureTable machine table index = some after ∧ Room after.pad tables := by
  rw [ensureTable]
  split
  · obtain ⟨left, still⟩ := Room.take (show Room machine.pad (tables + pagesIn 4096) from room)
    rw [(allocate_iff built.ready (by decide)).mpr ⟨left, rfl, rfl⟩]
    exact ⟨_, rfl, still⟩
  · exact ⟨machine, rfl, room.fewer (Nat.le_succ tables)⟩

variable {position path : List (Fin 512)}

theorem ensurePath_returns (built : Built pml4 machine) (located : locate subtable machine.memory 0 pml4 position = some table)
    (short : position.length + path.length ≤ 3) (room : Room machine.pad (tables + path.length)) :
    ∃ made, ensurePath machine table path = some made ∧ Room made.1.pad tables := by
  induction path generalizing machine table position with
  | nil => exact ⟨_, rfl, room⟩
  | cons index path ih =>
    rw [List.length_cons] at short
    obtain ⟨after, ensured, left⟩ := ensureTable_returns built table index room
    have stepped := ensureTable_stepped built located (by omega) ensured
    rw [ensurePath, ensured]
    exact ih stepped.built stepped.located (by rw [List.length_append, List.length_singleton]; omega) left

/-- Three new tables are enough for an address. -/
theorem mapPage_returns (built : Built pml4 machine) (virt physical : Nat) (room : Room machine.pad (tables + 3)) :
    ∃ after, mapPage machine pml4 virt physical = some after ∧ Room after.pad tables := by
  obtain ⟨made, ensured, left⟩ := ensurePath_returns (show Built pml4 machine from built) locate_nil
    (show 0 + (way virt).length ≤ 3 from le_refl 3) room
  rw [mapPage_eq, ensured]
  exact ⟨_, rfl, left⟩

theorem ensureTable_there {position : List (Fin 512)} {next : Nat} {index : Fin 512}
    (located : locate subtable machine.memory 0 pml4 position = some table)
    (further : locate subtable machine.memory 0 pml4 (position ++ [index]) = some next) :
    ensureTable machine table index = some machine ∧ nextBase.get (machine.memory table index) = next := by
  rw [locate_snoc index located] at further
  obtain ⟨there, base⟩ := ite_none_left_eq_some.mp further
  constructor
  · exact if_neg (fun absent => there (.inr (.inl absent)))
  · exact some.inj base

/-- No table is made on a path that leads to a table. -/
theorem ensurePath_there {last : Nat} (located : locate subtable machine.memory 0 pml4 position = some table)
    (found : locate subtable machine.memory 0 pml4 (position ++ path) = some last) :
    ensurePath machine table path = some (machine, last) := by
  induction path generalizing table position with
  | nil =>
    rw [List.append_nil, located] at found
    rw [ensurePath, some.inj found]
  | cons index path ih =>
    rw [List.append_cons] at found
    obtain ⟨next, further, _⟩ := bind_eq_some_iff.mp ((locate_append ..).symm.trans found)
    obtain ⟨there, base⟩ := ensureTable_there located further
    rw [ensurePath, there, bind_some, base]
    exact ih further found

/-- No table is made for an address whose tables are there. -/
theorem mapPage_reached (reached : Reached machine pml4 virt) (physical : Nat) :
    ∃ after, mapPage machine pml4 virt physical = some after ∧ after.pad = machine.pad := by
  obtain ⟨pt, found⟩ := reached
  have there : ensurePath machine pml4 (way virt) = some (machine, pt) := ensurePath_there locate_nil found
  rw [mapPage_eq, there]
  exact ⟨_, rfl, rfl⟩

/-- The tables for a page are those for the one before, if it is not the first of a table. -/
theorem way_next (aligned : virt % 4096 = 0) (inner : (virt + 4096) / 4096 % 512 ≠ 0) : way (virt + 4096) = way virt := by
  simp only [way, pml4Index, pdpIndex, pdIndex, List.cons.injEq, and_true, Fin.ext_iff, Fin.val_ofNat]
  omega

/-- The tables some pages may need. -/
def tablesFor (pages : Nat) : Nat := 3 * (pages / 512 + 2)

/-- A page needs new tables if it is the first one of a table, or the first of all. -/
theorem mapRange_returns (new : Nat) (built : Built pml4 machine) (aligned : virt % 4096 = 0)
    (inside : virt + 4096 * count ≤ 2 ^ 64) (physical : Nat) (start : Reached machine pml4 virt ∨ 1 ≤ new)
    (room : Room machine.pad (tables + 3 * ((virt / 4096 % 512 + count) / 512 + new))) :
    ∃ after, mapRange machine pml4 virt physical count = some after ∧ Room after.pad tables := by
  induction count generalizing machine virt physical new with
  | zero => exact ⟨machine, rfl, room.fewer (Nat.le_add_right _ _)⟩
  | succ count ih =>
    obtain ⟨middle, mapped, left⟩ : ∃ middle, mapPage machine pml4 virt physical = some middle ∧
        Room middle.pad (tables + 3 * ((virt / 4096 % 512 + (count + 1)) / 512)) := by
      rcases start with reached | positive
      · obtain ⟨middle, mapped, pad⟩ := mapPage_reached reached physical
        rw [← pad] at room
        exact ⟨middle, mapped, room.fewer (by omega)⟩
      · exact mapPage_returns built virt physical (room.fewer (by omega))
    have step := mapPage_mapsTo built mapped
    rw [mapRange, mapped, bind_some]
    rcases Nat.eq_zero_or_pos count with rfl | more
    · exact ⟨middle, rfl, left.fewer (Nat.le_add_right _ _)⟩
    · rw [u64_of_lt (by omega)]
      by_cases inner : (virt + 4096) / 4096 % 512 = 0
      · exact ih 1 step.built (by omega) (by omega) (u64 (physical + 4096)) (.inr (le_refl 1)) (left.fewer (by omega))
      · have reached : Reached middle pml4 (virt + 4096) := by
          rw [Reached, way_next aligned inner]
          exact step.reached
        exact ih 0 step.built (by omega) (by omega) (u64 (physical + 4096)) (.inl reached) (left.fewer (by omega))

theorem mapPages_returns (built : Built pml4 machine) (aligned : virt % 4096 = 0)
    (inside : virt + 4096 * pagesIn size ≤ 2 ^ 64) (small : size ≤ 2 ^ 64 - 4096) (physical : Nat)
    (room : Room machine.pad (tables + tablesFor (pagesIn size))) :
    ∃ after, mapPages machine pml4 virt physical size = some after ∧ Room after.pad tables := by
  rw [mapPages, if_neg (not_lt.mpr small)]
  refine mapRange_returns 1 built aligned inside physical (.inr (le_refl 1)) (room.fewer ?_)
  rw [tablesFor]
  omega

end

end Lfos.LoaderPaging
