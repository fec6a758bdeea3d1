import Lfos.BitFields
import Lfos.TableTrees
import Lfos.Words

/-!
# Page tables

The memory management unit translates virtual addresses with a tree of tables of four
levels: the PML4, the PDPs, the PDs and the PTs. A table fills a page frame with 512
entries of 64 bits, and the bits of an entry are those the processor defines. The kernel
reads and writes the tables through the direct mapping of the physical memory, where the
table of a frame is found under the number of the frame. A context is given by the frame
of its PML4.
-/

namespace Lfos.PageTables

open BitFields TableTrees Words Option

/-- The bits of a single entry in a paging table. -/
abbrev VmTableEntry := BitVec 64

def present : BitField 64 := ⟨0, 1, by decide⟩
def writeable : BitField 64 := ⟨1, 1, by decide⟩
def userspace : BitField 64 := ⟨2, 1, by decide⟩
def pat0 : BitField 64 := ⟨3, 1, by decide⟩
def pat1 : BitField 64 := ⟨4, 1, by decide⟩
def huge : BitField 64 := ⟨7, 1, by decide⟩
def nextBase : BitField 64 := ⟨12, 40, by decide⟩

/-- The physical memory as entries of tables, by page frame. -/
abbrev Memory := Nat → Fin 512 → VmTableEntry

instance slots : NeZero 512 := ⟨by decide⟩

def pml4Index (virt : Nat) : Fin 512 := Fin.ofNat 512 (virt >>> 39)
def pdpIndex (virt : Nat) : Fin 512 := Fin.ofNat 512 (virt >>> 30)
def pdIndex (virt : Nat) : Fin 512 := Fin.ofNat 512 (virt >>> 21)
def ptIndex (virt : Nat) : Fin 512 := Fin.ofNat 512 (virt >>> 12)

/-- The addresses the physical memory is mapped to. -/
def directMappingStart : Nat := 0xFFFF800000000000

def directMappingEnd : Nat := 0xFFFF83FFFFFFFFFF

def DirectlyMapped (virt : Nat) : Prop := directMappingStart ≤ virt ∧ virt ≤ directMappingEnd

instance (virt : Nat) : Decidable (DirectlyMapped virt) := inferInstanceAs (Decidable (_ ∧ _))

/-- The entry of a table. -/
def tableEntry (frame : Nat) (entry : VmTableEntry) : VmTableEntry :=
  userspace.set 1 (writeable.set 1 (present.set 1 (nextBase.set frame entry)))

/-- Make sure that an entry leads to a table. A table that is missing is put into the frame
the allocator answers with, which is not asked for one otherwise. -/
def vmEnsureTable (memory : Memory) (table : Nat) (index : Fin 512) (frame : Nat) : Memory :=
  if present.get (memory table index) = 0 then
    let zeroed := Function.update memory frame (fun _ => 0#64)
    write zeroed table index (tableEntry frame (zeroed table index))
  else memory

/-- What the allocator answers with when it is asked for a frame for a PDP, a PD or a PT. -/
structure Supply where
  pdp : Nat
  pd : Nat
  pt : Nat

/-- The entry of a page of 4 KiB; its huge bit is the third bit of the memory type. -/
def pageEntry (physical pat : Nat) (entry : VmTableEntry) : VmTableEntry :=
  huge.set (if pat.testBit 2 then 1 else 0) (pat1.set (if pat.testBit 1 then 1 else 0)
      (pat0.set (if pat.testBit 0 then 1 else 0)
        (userspace.set 1 (writeable.set 1 (present.set 1 (nextBase.set (physical >>> 12) entry))))))

/-- The entry of a page that is not there any more. -/
def absentEntry (entry : VmTableEntry) : VmTableEntry :=
  userspace.set 0 (writeable.set 0 (present.set 0 (nextBase.set 0 entry)))

def vmContextMap (memory : Memory) (pml4 virt physical pat : Nat) (supply : Supply) : Memory :=
  let memory := vmEnsureTable memory pml4 (pml4Index virt) supply.pdp
  let pdp := nextBase.get (memory pml4 (pml4Index virt))
  let memory := vmEnsureTable memory pdp (pdpIndex virt) supply.pd
  let pd := nextBase.get (memory pdp (pdpIndex virt))
  let memory := vmEnsureTable memory pd (pdIndex virt) supply.pt
  let pt := nextBase.get (memory pd (pdIndex virt))
  write memory pt (ptIndex virt) (pageEntry physical pat (memory pt (ptIndex virt)))

def vmContextUnmap (memory : Memory) (context virt : Nat) : Memory :=
  let pml4Entry := memory context (pml4Index virt)
  if present.get pml4Entry = 0 then memory
  else
    let pdpEntry := memory (nextBase.get pml4Entry) (pdpIndex virt)
    if present.get pdpEntry = 0 then memory
    else
      let pdEntry := memory (nextBase.get pdpEntry) (pdIndex virt)
      if present.get pdEntry = 0 then memory
      else
        let pt := nextBase.get pdEntry
        let ptEntry := memory pt (ptIndex virt)
        if present.get ptEntry = 0 then memory
        else write memory pt (ptIndex virt) (absentEntry ptEntry)

section

variable (frame physical pat : Nat) (entry : VmTableEntry)

theorem tableEntry_present : present.get (tableEntry frame entry) = 1 := by
  simp (disch := decide) only [tableEntry, get_set_beside, get_set_self]
  rfl

theorem tableEntry_huge : huge.get (tableEntry frame entry) = huge.get entry := by
  simp (disch := decide) only [tableEntry, get_set_beside]

theorem tableEntry_nextBase : nextBase.get (tableEntry frame entry) = frame % 2 ^ 40 := by
  simp (disch := decide) only [tableEntry, get_set_beside, get_set_self]
  rfl

theorem pageEntry_present : present.get (pageEntry physical pat entry) = 1 := by
  simp (disch := decide) only [pageEntry, get_set_beside, get_set_self]
  rfl

theorem pageEntry_nextBase : nextBase.get (pageEntry physical pat entry) = (physical >>> 12) % 2 ^ 40 := by
  simp (disch := decide) only [pageEntry, get_set_beside, get_set_self]
  rfl

theorem absentEntry_present : present.get (absentEntry entry) = 0 := by
  simp (disch := decide) only [absentEntry, get_set_beside, get_set_self]
  rfl

end

/-- The physical address of a virtual one, zero if there is none. -/
def vmContextGetPhysicalForVirtual (memory : Memory) (context virt : Nat) : Nat :=
  if DirectlyMapped virt then virt - directMappingStart
  else
    let pml4Entry := memory context (pml4Index virt)
    if present.get pml4Entry = 0 then 0
    else
      let pdpEntry := memory (nextBase.get pml4Entry) (pdpIndex virt)
      if present.get pdpEntry = 0 then 0
      else if huge.get pdpEntry ≠ 0 then u64 (nextBase.get pdpEntry <<< 30) ||| (virt &&& 0x3FFFFFFF)
      else
        let pdEntry := memory (nextBase.get pdpEntry) (pdIndex virt)
        if present.get pdEntry = 0 then 0
        else if huge.get pdEntry ≠ 0 then u64 (nextBase.get pdEntry <<< 21) ||| (virt &&& 0x1FFFFF)
        else
          let ptEntry := memory (nextBase.get pdEntry) (ptIndex virt)
          if present.get ptEntry = 0 then 0
          else u64 (nextBase.get ptEntry <<< 12) ||| (virt &&& 0xFFF)

def vmContextPagePresent (memory : Memory) (context virt : Nat) : Bool :=
  let pml4Entry := memory context (pml4Index virt)
  if present.get pml4Entry = 0 then false
  else
    let pdpEntry := memory (nextBase.get pml4Entry) (pdpIndex virt)
    if present.get pdpEntry = 0 then false
    else if huge.get pdpEntry ≠ 0 then true
    else
      let pdEntry := memory (nextBase.get pdpEntry) (pdIndex virt)
      if present.get pdEntry = 0 then false
      else if huge.get pdEntry ≠ 0 then true
      else
        let ptEntry := memory (nextBase.get pdEntry) (ptIndex virt)
        if present.get ptEntry = 0 then false
        else true

section

/-- The table an entry of a level leads to. -/
def subtable (level : Nat) (entry : VmTableEntry) : Option Nat :=
  if 2 < level ∨ present.get entry = 0 ∨ (level ≠ 0 ∧ huge.get entry ≠ 0) then none
  else some (nextBase.get entry)

variable {level : Nat} {entry : VmTableEntry}

theorem subtable_absent (absent : present.get entry = 0) : subtable level entry = none := if_pos (.inr (.inl absent))

theorem subtable_huge (below : level ≠ 0) (isHuge : huge.get entry ≠ 0) :
    subtable level entry = none := if_pos (.inr (.inr ⟨below, isHuge⟩))

theorem subtable_last (last : 2 < level) (entry : VmTableEntry) : subtable level entry = none := if_pos (.inl last)

theorem subtable_plain (above : level ≤ 2) (there : present.get entry ≠ 0)
    (plain : level ≠ 0 → huge.get entry = 0) : subtable level entry = some (nextBase.get entry) := by
  apply if_neg
  rintro (last | absent | ⟨below, isHuge⟩)
  · exact absurd last (not_lt.mpr above)
  · exact there absent
  · exact isHuge (plain below)

/-- The indices of an address, from the PML4 on. -/
def indices (virt : Nat) : List (Fin 512) := [pml4Index virt, pdpIndex virt, pdIndex virt, ptIndex virt]

/-- The entry the walk to an address stops at and its level. -/
def leaf (memory : Memory) (context virt : Nat) : Option (Nat × VmTableEntry) :=
  stop subtable memory 0 context (indices virt)

/-- The walk that both queries make, with what they answer if there is no page and if the
entry of one is found on a level. -/
def descend {Answer : Type} (memory : Memory) (context virt : Nat) (absent : Answer)
    (found : Nat → VmTableEntry → Answer) : Answer :=
  let pml4Entry := memory context (pml4Index virt)
  if present.get pml4Entry = 0 then absent
  else
    let pdpEntry := memory (nextBase.get pml4Entry) (pdpIndex virt)
    if present.get pdpEntry = 0 then absent
    else if huge.get pdpEntry ≠ 0 then found 1 pdpEntry
    else
      let pdEntry := memory (nextBase.get pdpEntry) (pdIndex virt)
      if present.get pdEntry = 0 then absent
      else if huge.get pdEntry ≠ 0 then found 2 pdEntry
      else
        let ptEntry := memory (nextBase.get pdEntry) (ptIndex virt)
        if present.get ptEntry = 0 then absent
        else found 3 ptEntry

/-- The physical address that the kernel computes from the entry of a page. -/
def physicalIn (virt level : Nat) (entry : VmTableEntry) : Nat :=
  match level with
  | 1 => u64 (nextBase.get entry <<< 30) ||| (virt &&& 0x3FFFFFFF)
  | 2 => u64 (nextBase.get entry <<< 21) ||| (virt &&& 0x1FFFFF)
  | _ => u64 (nextBase.get entry <<< 12) ||| (virt &&& 0xFFF)

theorem pagePresent_descend (memory : Memory) (context virt : Nat) :
    vmContextPagePresent memory context virt = descend memory context virt false (fun _ _ => true) := rfl

theorem getPhysical_descend (memory : Memory) (context : Nat) {virt : Nat} (outside : ¬ DirectlyMapped virt) :
    vmContextGetPhysicalForVirtual memory context virt = descend memory context virt 0 (physicalIn virt) :=
  if_neg outside

/-- What a query answers when the walk stops at an entry. -/
def answer {Answer : Type} (absent : Answer) (found : Nat → VmTableEntry → Answer) (stopped : Nat × VmTableEntry) :
    Answer :=
  if present.get stopped.2 = 0 then absent else found stopped.1 stopped.2

/-- Each level of the walk stops at an absent entry and at a page. -/
theorem descend_eq {Answer : Type} (memory : Memory) (context virt : Nat) (absent : Answer)
    (found : Nat → VmTableEntry → Answer) :
    descend memory context virt absent found = (leaf memory context virt).elim absent (answer absent found) := by
  unfold descend leaf indices
  dsimp only
  split
  · next missing => rw [stop, subtable_absent missing, elim_some, answer, if_pos missing]
  next there =>
  rw [stop, subtable_plain (by decide) there (fun below => absurd rfl below)]
  dsimp only
  split
  · next missing => rw [stop, subtable_absent missing, elim_some, answer, if_pos missing]
  next pdpThere =>
  split
  · next isHuge => rw [stop, subtable_huge (by decide) isHuge, elim_some, answer, if_neg pdpThere]
  next pdpPlain =>
  rw [stop, subtable_plain (by decide) pdpThere (fun _ => not_not.mp pdpPlain)]
  dsimp only
  split
  · next missing => rw [stop, subtable_absent missing, elim_some, answer, if_pos missing]
  next pdThere =>
  split
  · next isHuge => rw [stop, subtable_huge (by decide) isHuge, elim_some, answer, if_neg pdThere]
  next pdPlain =>
  rw [stop, subtable_plain (by decide) pdThere (fun _ => not_not.mp pdPlain)]
  dsimp only
  rw [stop, subtable_last (by decide), elim_some, answer]

end

end Lfos.PageTables
