import Lfos.PageTables
import Lfos.Transitions

/-!
# Contexts as maps from pages to frames

What the kernel asks a context for is a partial map from virtual pages to page frames. As
long as no table of the context is reached twice, mapping and unmapping an address insert
and delete its page, whatever tables are made on the way. Addresses are those the processor
translates: the bits from 47 on are equal.
-/

namespace Lfos.PageTables

open BitFields TableTrees Transitions Words List Option Function

section

/-- The bits from 47 on are equal. -/
def Canonical (virt : Nat) : Prop := virt < 2 ^ 47 ∨ 2 ^ 64 - 2 ^ 47 ≤ virt ∧ virt < 2 ^ 64

instance (virt : Nat) : Decidable (Canonical virt) := inferInstanceAs (Decidable (_ ∨ _))

/-- The frame the page of an address is mapped to, if it is present. -/
def mapped (memory : Memory) (context virt : Nat) : Option Nat :=
  if vmContextPagePresent memory context virt then some (vmContextGetPhysicalForVirtual memory context virt / 4096)
  else none

/-- The tables that are reached from the PML4 are in different frames. -/
def WellFormed (memory : Memory) (context : Nat) : Prop := Separated subtable memory context

/-- An entry of a PDP or a PD is not marked as a huge page. -/
def NotHuge (level : Nat) (entry : VmTableEntry) : Prop := level = 1 ∨ level = 2 → huge.get entry = 0

/-- No entry on the way to an address is huge. -/
def Plain (memory : Memory) (context virt : Nat) : Prop :=
  Along subtable memory NotHuge context (indices virt)

/-- The frame is not in use as a table. -/
abbrev Unused (memory : Memory) (context frame : Nat) : Prop :=
  ∀ path, locate subtable memory 0 context path ≠ some frame

/-- The frame may become a table. -/
def Fresh (memory : Memory) (context frame : Nat) : Prop := frame < 2 ^ 40 ∧ Unused memory context frame

/-- The frame that the entry of a page shows. -/
def shown (virt level : Nat) (entry : VmTableEntry) : Option Nat :=
  some ((if DirectlyMapped virt then virt - directMappingStart else physicalIn virt level entry) / 4096)

variable {memory after : Memory} {context virt level : Nat} {entry : VmTableEntry}

/-- The frame of a page is that of the entry the walk stops at. -/
theorem mapped_eq (memory : Memory) (context virt : Nat) :
    mapped memory context virt = (leaf memory context virt).elim none (answer none (shown virt)) := by
  have translated : vmContextGetPhysicalForVirtual memory context virt = if DirectlyMapped virt
      then virt - directMappingStart else (leaf memory context virt).elim 0 (answer 0 (physicalIn virt)) := by
    by_cases inside : DirectlyMapped virt
    · rw [if_pos inside, vmContextGetPhysicalForVirtual, if_pos inside]
    · rw [if_neg inside, getPhysical_descend memory context inside, descend_eq]
  rw [mapped, pagePresent_descend, descend_eq, translated]
  cases leaf memory context virt with
  | none => rfl
  | some stopped =>
    simp only [elim_some, answer, shown]
    by_cases absent : present.get stopped.2 = 0
    · simp [absent]
    · simp [absent]

theorem physical_of_mapped {frame : Nat} (found : mapped memory context virt = some frame) :
    vmContextGetPhysicalForVirtual memory context virt / 4096 = frame := by
  rw [mapped] at found
  split at found
  · exact some.inj found
  · exact nomatch found

/-- The first address of a page is that of a frame. -/
theorem physical_aligned (memory : Memory) (context : Nat) (outside : ¬ DirectlyMapped virt) (aligned : virt % 4096 = 0) :
    vmContextGetPhysicalForVirtual memory context virt % 4096 = 0 := by
  have cut (base mask shift : Nat) (large : 12 ≤ shift) : (u64 (base <<< shift) ||| (virt &&& mask)) % 2 ^ 12 = 0 := by
    have offset : (virt &&& mask) % 2 ^ 12 = 0 := by
      rw [Nat.and_mod_two_pow, show virt % 2 ^ 12 = 0 from aligned, Nat.zero_and]
    have whole : u64 (base <<< shift) % 2 ^ 12 = 0 := by
      rw [u64, Nat.mod_mod_of_dvd _ (Nat.pow_dvd_pow 2 (by decide)), Nat.shiftLeft_eq]
      exact Nat.mod_eq_zero_of_dvd (Nat.dvd_mul_left_of_dvd (Nat.pow_dvd_pow 2 large) base)
    rw [Nat.or_mod_two_pow, whole, offset, Nat.or_self]
  rw [getPhysical_descend memory context outside, descend_eq]
  cases leaf memory context virt with
  | none => rfl
  | some stopped =>
    rw [elim_some, answer]
    split
    · rfl
    · unfold physicalIn
      split <;> exact cut _ _ _ (by decide)

theorem mapped_none_iff (memory : Memory) (context virt : Nat) :
    mapped memory context virt = none ↔ vmContextPagePresent memory context virt = false := by
  rw [mapped]
  split
  · next there => exact ⟨nofun, fun absent => nomatch there.symm.trans absent⟩
  · next absent => exact ⟨fun _ => Bool.eq_false_iff.mpr absent, fun _ => rfl⟩

theorem mapped_congr (same : leaf after context virt = leaf memory context virt) :
    mapped after context virt = mapped memory context virt := by
  rw [mapped_eq, mapped_eq, same]

theorem mapped_absent (stopped : leaf memory context virt = some (level, entry)) (absent : present.get entry = 0) :
    mapped memory context virt = none := by
  rw [mapped_eq, stopped, elim_some, answer, if_pos absent]

end

section

variable {memory : Memory} {context table frame : Nat} {position : List (Fin 512)} {index : Fin 512}

/-- What holds after the table of an entry was ensured. -/
structure Ensured (memory after : Memory) (context : Nat) (position : List (Fin 512)) (table : Nat)
    (index : Fin 512) (frame : Nat) : Prop where
  wellFormed : WellFormed after context
  located : locate subtable after 0 context (position ++ [index]) = some (nextBase.get (after table index))
  mapped : ∀ virt, mapped after context virt = mapped memory context virt
  plain : ∀ virt, Plain memory context virt → Plain after context virt
  fresh : ∀ other, other ≠ frame → Fresh memory context other → Fresh after context other

/-- The table of an entry that is not huge is found. -/
theorem located_further (position : List (Fin 512)) (index : Fin 512)
    (located : locate subtable memory 0 context position = some table) (above : position.length ≤ 2)
    (there : present.get (memory table index) ≠ 0) (plain : NotHuge position.length (memory table index)) :
    locate subtable memory 0 context (position ++ [index]) = some (nextBase.get (memory table index)) := by
  rw [locate_snoc index located]
  exact subtable_plain above there (fun below => plain (by omega))

theorem ensureTable_eq (different : table ≠ frame) (absent : present.get (memory table index) = 0) :
    vmEnsureTable memory table index frame =
    graft memory table index (tableEntry frame (memory table index)) frame (fun _ => 0#64) := by
  rw [vmEnsureTable, if_pos absent, graft]
  dsimp only
  rw [update_of_ne different]

/-- The allocator answers with a fresh frame if it is asked for one. -/
def Asked (memory : Memory) (context table : Nat) (index : Fin 512) (frame : Nat) : Prop :=
  present.get (memory table index) = 0 → Fresh memory context frame

/-- The table of an entry is found or can be made. -/
structure Ensurable (memory : Memory) (context : Nat) (position : List (Fin 512)) (table : Nat) (index : Fin 512)
    (frame : Nat) : Prop where
  wellFormed : WellFormed memory context
  located : locate subtable memory 0 context position = some table
  above : position.length ≤ 2
  plain : NotHuge position.length (memory table index)
  asked : Asked memory context table index frame

variable (ensurable : Ensurable memory context position table index frame)
include ensurable

/-- A missing table is hung into its entry. -/
theorem Ensurable.grafts (absent : present.get (memory table index) = 0) :
    Grafts subtable memory context position table index (tableEntry frame (memory table index)) frame
    (fun _ => 0#64) where
  separated := ensurable.wellFormed
  located := ensurable.located
  childless := subtable_absent absent
  leads := by
    obtain ⟨_, _, above, plain, asked⟩ := ensurable
    have base : nextBase.get (tableEntry frame (memory table index)) = frame := by
      rw [tableEntry_nextBase]
      exact Nat.mod_eq_of_lt (asked absent).1
    rw [subtable_plain above, base]
    · rw [tableEntry_present]
      exact Nat.one_ne_zero
    · intro below
      rw [tableEntry_huge]
      exact plain (by omega)
  fresh := (ensurable.asked absent).2
  blank _ _ := subtable_absent (get_zero present)

/-- The pages are what they were, as there is none in a new table. -/
theorem Ensurable.ensured : Ensured memory (vmEnsureTable memory table index frame) context position table index frame := by
  by_cases absent : present.get (memory table index) = 0
  · have grafts := ensurable.grafts absent
    rw [ensureTable_eq grafts.different absent]
    constructor
    · exact grafts.separated_graft
    · rw [grafts.locate_new, graft, write_here, tableEntry_nextBase, Nat.mod_eq_of_lt (ensurable.asked absent).1]
    · intro virt
      by_cases apart : position ++ [index] <+: indices virt
      · obtain ⟨rest, whole⟩ := apart
        cases rest with
        | nil =>
          have above := ensurable.above
          have lengths := congrArg length whole
          simp only [length_append, length_cons, length_nil, indices] at lengths
          omega
        | cons slot rest =>
          have before := stop_childless (slot :: rest) ensurable.located (subtable_absent absent)
          have now := grafts.stop_new slot rest
          have through : position ++ index :: slot :: rest = indices virt := by
            rw [← whole, append_assoc, singleton_append]
          rw [through] at before now
          rw [mapped_absent now (get_zero present), mapped_absent before absent]
      · exact mapped_congr (grafts.stop_apart apart)
    · intro virt along
      apply grafts.along _ _ along
      · intro below
        rw [tableEntry_huge]
        exact ensurable.plain below
      · intro _ _ _
        exact get_zero huge
    · rintro other different ⟨small, unused⟩
      constructor
      · exact small
      · intro path
        rw [grafts.locate]
        split
        · exact fun same => different (some.inj same).symm
        · exact unused path
  · rw [vmEnsureTable, if_neg absent]
    constructor
    · exact ensurable.wellFormed
    · exact located_further position index ensurable.located ensurable.above absent ensurable.plain
    · exact fun _ => rfl
    · exact fun _ along => along
    · exact fun _ _ unused => unused

end

section

variable {memory : Memory} {context virt pt : Nat} {entry : VmTableEntry} {other : Nat} {supply : Supply}

/-- Addresses have the same indices if they are in the same page. -/
theorem indices_eq_iff (canonical : Canonical virt) (otherCanonical : Canonical other) :
    indices other = indices virt ↔ other / 4096 = virt / 4096 := by
  unfold Canonical at canonical otherCanonical
  simp only [indices, pml4Index, pdpIndex, pdIndex, ptIndex, cons.injEq, and_true, Fin.ext_iff, Fin.val_ofNat]
  omega

/-- A page of 4 KiB shows the frame of its entry. -/
theorem physicalIn_page (virt : Nat) (entry : VmTableEntry) : physicalIn virt 3 entry / 4096 = nextBase.get entry := by
  have small : nextBase.get entry < 2 ^ 40 := get_lt nextBase entry
  have offset : virt &&& 0xFFF < 2 ^ 12 := Nat.and_lt_two_pow virt (by decide)
  have whole : u64 (nextBase.get entry <<< 12) = nextBase.get entry <<< 12 := by
    apply u64_of_lt
    rw [Nat.shiftLeft_eq]
    omega
  simp only [physicalIn]
  rw [whole, ← Nat.shiftLeft_add_eq_or_of_lt offset]
  omega

/-- The indices of the tables on the way to an address. -/
def way (virt : Nat) : List (Fin 512) := [pml4Index virt, pdpIndex virt, pdIndex virt]

/-- An entry of a PT leads to no table. -/
theorem subtable_same (before after : VmTableEntry) :
    subtable (way virt).length before = subtable (way virt).length after := by
  have last : 2 < (way virt).length := Nat.lt_succ_self 2
  rw [subtable_last last, subtable_last last]

/-- Writing an entry of a PT concerns its page only. -/
theorem mapped_write (wellFormed : WellFormed memory context)
    (located : locate subtable memory 0 context (way virt) = some pt)
    (entry : VmTableEntry) (other : Nat) : mapped (write memory pt (ptIndex virt) entry) context other =
    if indices other = indices virt then answer none (shown other) (3, entry) else mapped memory context other := by
  split
  · next same =>
    have still : locate subtable (write memory pt (ptIndex virt) entry) 0 context (way virt) = some pt := by
      rw [locate_write_same wellFormed located (subtable_same _ _)]
      exact located
    have last := subtable_last (Nat.lt_succ_self 2) (write memory pt (ptIndex virt) entry pt (ptIndex virt))
    have stopped : leaf (write memory pt (ptIndex virt) entry) context other =
        some (3, write memory pt (ptIndex virt) entry pt (ptIndex virt)) := by
      unfold leaf
      rw [same]
      exact stop_childless [] still last
    rw [mapped_eq, stopped, write_here, elim_some]
  · next different =>
    apply mapped_congr
    apply stop_write wellFormed located
    intro through
    exact different (through.eq_of_length (by rfl)).symm

/-- What an update of the page of an address does. -/
structure Updated (memory after : Memory) (context virt : Nat) (frame : Option Nat) : Prop where
  wellFormed : WellFormed after context
  plain : ∀ other, Plain memory context other → Plain after context other
  mapped : ∀ other, Canonical other →
    mapped after context other = if other / 4096 = virt / 4096 then frame else mapped memory context other

/-- The pages are those of another memory but one. -/
theorem updated_write {ensured : Memory} {frame : Option Nat} (canonical : Canonical virt)
    (wellFormed : WellFormed ensured context)
    (located : locate subtable ensured 0 context (way virt) = some pt)
    (plain : ∀ other, Plain memory context other → Plain ensured context other)
    (same : ∀ other, mapped ensured context other = mapped memory context other)
    (shows : ∀ other, other / 4096 = virt / 4096 → answer none (shown other) (3, entry) = frame) :
    Updated memory (write ensured pt (ptIndex virt) entry) context virt frame where
  wellFormed := separated_write_same wellFormed located (subtable_same _ _)
  plain other along := by
    apply along_write_same wellFormed located (subtable_same _ _) _ (plain other along)
    simp [NotHuge, way]
  mapped other otherCanonical := by
    rw [mapped_write wellFormed located, same]
    by_cases here : other / 4096 = virt / 4096
    · rw [if_pos ((indices_eq_iff canonical otherCanonical).mpr here), if_pos here]
      exact shows other here
    · rw [if_neg (fun equal => here ((indices_eq_iff canonical otherCanonical).mp equal)), if_neg here]

/-- The frames of a supply. -/
def Supply.frames (supply : Supply) : List Nat := [supply.pdp, supply.pd, supply.pt]

theorem Supply.fresh_iff (supply : Supply) : (∀ frame ∈ supply.frames, Fresh memory context frame) ↔
    Fresh memory context supply.pdp ∧ Fresh memory context supply.pd ∧ Fresh memory context supply.pt := by
  simp [Supply.frames]

/-- The allocator answers with fresh frames while an address is mapped. -/
def Supplied (memory : Memory) (context virt : Nat) (supply : Supply) : Prop :=
  let withPdp := vmEnsureTable memory context (pml4Index virt) supply.pdp
  let pdp := nextBase.get (withPdp context (pml4Index virt))
  let withPd := vmEnsureTable withPdp pdp (pdpIndex virt) supply.pd
  let pd := nextBase.get (withPd pdp (pdpIndex virt))
  Asked memory context context (pml4Index virt) supply.pdp ∧ Asked withPdp context pdp (pdpIndex virt) supply.pd ∧
    Asked withPd context pd (pdIndex virt) supply.pt

theorem directlyMapped_congr (same : other / 4096 = virt / 4096) : DirectlyMapped other ↔ DirectlyMapped virt := by
  unfold DirectlyMapped directMappingStart directMappingEnd
  omega

/-- The entry of a page shows the frame it was made for. -/
theorem shown_pageEntry (outside : ¬ DirectlyMapped virt) (here : other / 4096 = virt / 4096)
    (physical pat : Nat) (entry : VmTableEntry) :
    answer none (shown other) (3, pageEntry physical pat entry) = some (physical / 4096 % 2 ^ 40) := by
  have elsewhere : ¬ DirectlyMapped other := fun inside => outside ((directlyMapped_congr here).mp inside)
  rw [answer, if_neg (by rw [pageEntry_present]; decide), shown, if_neg elsewhere, physicalIn_page,
    pageEntry_nextBase, Nat.shiftRight_eq_div_pow]

/-- The entries on the way to an address are not huge, so the next table is found or can be made. -/
theorem Ensured.next {after : Memory} {position : List (Fin 512)} {table frame fresh : Nat} {index slot : Fin 512}
    (ensured : Ensured memory after context position table index frame) (plain : Plain memory context virt)
    (through : position ++ [index] ++ [slot] <+: indices virt) (above : position.length ≤ 1)
    (asked : Asked after context (nextBase.get (after table index)) slot fresh) :
    Ensurable after context (position ++ [index]) (nextBase.get (after table index)) slot fresh :=
  ⟨ensured.wellFormed, ensured.located, by simpa using above,
    ensured.plain virt plain _ _ _ ⟨through, ensured.located⟩, asked⟩

/-- Unmapping an address does nothing if its page is not there, and writes the entry of the page otherwise. -/
theorem unmap_cases (plain : Plain memory context virt) :
    vmContextUnmap memory context virt = memory ∧ (∃ level entry, leaf memory context virt = some (level, entry) ∧
      present.get entry = 0) ∨
    ∃ pt entry, locate subtable memory 0 context (way virt) = some pt ∧ present.get entry = 0 ∧
      vmContextUnmap memory context virt = write memory pt (ptIndex virt) entry := by
  have childless {position rest : List (Fin 512)} {table : Nat} {index : Fin 512}
      (through : indices virt = position ++ index :: rest)
      (located : locate subtable memory 0 context position = some table)
      (absent : present.get (memory table index) = 0) :
      ∃ level entry, leaf memory context virt = some (level, entry) ∧ present.get entry = 0 := by
    unfold leaf
    rw [through]
    exact ⟨_, _, stop_childless rest located (subtable_absent absent), absent⟩
  unfold vmContextUnmap
  dsimp only
  split
  · next absent => exact .inl ⟨rfl, childless (nil_append _).symm rfl absent⟩
  next pdpThere =>
  have pdpLocated := located_further [] (pml4Index virt) rfl (Nat.zero_le 2) pdpThere (plain [] _ _ ⟨⟨_, rfl⟩, rfl⟩)
  split
  · next absent => exact .inl ⟨rfl, childless (singleton_append).symm pdpLocated absent⟩
  next pdThere =>
  have pdLocated := located_further _ (pdpIndex virt) pdpLocated (Nat.le_succ 1) pdThere
    (plain _ _ _ ⟨⟨[pdIndex virt, ptIndex virt], rfl⟩, pdpLocated⟩)
  split
  · next absent => exact .inl ⟨rfl, childless rfl pdLocated absent⟩
  next ptThere =>
  have ptLocated := located_further _ (pdIndex virt) pdLocated (Nat.le_refl 2) ptThere
    (plain _ _ _ ⟨⟨[ptIndex virt], rfl⟩, pdLocated⟩)
  split
  · next absent => exact .inl ⟨rfl, childless rfl ptLocated absent⟩
  · exact .inr ⟨_, _, ptLocated, absentEntry_present _, rfl⟩

variable (wellFormed : WellFormed memory context)
include wellFormed

section

variable (plain : Plain memory context virt)
include plain

theorem ensurable_pdp {frame : Nat} (asked : Asked memory context context (pml4Index virt) frame) :
    Ensurable memory context [] context (pml4Index virt) frame :=
  ⟨wellFormed, rfl, Nat.zero_le 2, plain [] _ _ ⟨⟨_, rfl⟩, rfl⟩, asked⟩

/-- Three fresh frames are enough for an address. -/
theorem supplied_of_distinct (fresh : ∀ frame ∈ supply.frames, Fresh memory context frame)
    (distinct : supply.frames.Nodup) : Supplied memory context virt supply := by
  simp only [Supply.frames, nodup_cons, mem_cons, not_mem_nil, or_false, not_or] at distinct
  obtain ⟨pdpFresh, pdFresh, ptFresh⟩ := supply.fresh_iff.mp fresh
  obtain ⟨⟨pdpPd, pdpPt⟩, pdPt, _⟩ := distinct
  have first := (ensurable_pdp wellFormed plain (fun _ => pdpFresh)).ensured
  have pdStill := first.fresh supply.pd (Ne.symm pdpPd) pdFresh
  have second := (first.next plain ⟨_, rfl⟩ (Nat.zero_le 1) (fun _ => pdStill)).ensured
  have ptStill := second.fresh supply.pt (Ne.symm pdPt) (first.fresh supply.pt (Ne.symm pdpPt) ptFresh)
  exact ⟨fun _ => pdpFresh, fun _ => pdStill, fun _ => ptStill⟩

/-- The tables on the way to an address are found or made, one after the other. -/
theorem map_levels (supplied : Supplied memory context virt supply) :
    let withPdp := vmEnsureTable memory context (pml4Index virt) supply.pdp
    let pdp := nextBase.get (withPdp context (pml4Index virt))
    let withPd := vmEnsureTable withPdp pdp (pdpIndex virt) supply.pd
    Ensurable memory context [] context (pml4Index virt) supply.pdp ∧
      Ensurable withPdp context [pml4Index virt] pdp (pdpIndex virt) supply.pd ∧
      Ensurable withPd context [pml4Index virt, pdpIndex virt] (nextBase.get (withPd pdp (pdpIndex virt)))
        (pdIndex virt) supply.pt := by
  obtain ⟨askedPdp, askedPd, askedPt⟩ := supplied
  have pdp := ensurable_pdp wellFormed plain askedPdp
  have pd := pdp.ensured.next plain ⟨_, rfl⟩ (Nat.zero_le 1) askedPd
  exact ⟨pdp, pd, pd.ensured.next (pdp.ensured.plain virt plain) ⟨_, rfl⟩ (Nat.le_refl 1) askedPt⟩

end

variable (canonical : Canonical virt)
include canonical

/-- Mapping an address inserts its page, of whose frame the entry keeps 40 bits. -/
theorem map_updated_low {physical pat : Nat} (outside : ¬ DirectlyMapped virt)
    (plain : Plain memory context virt) (supplied : Supplied memory context virt supply) :
    Updated memory (vmContextMap memory context virt physical pat supply) context virt
    (some (physical / 4096 % 2 ^ 40)) := by
  obtain ⟨pdp, pd, pt⟩ := map_levels wellFormed plain supplied
  apply updated_write canonical pt.ensured.wellFormed pt.ensured.located
  · intro other along
    exact pt.ensured.plain other (pd.ensured.plain other (pdp.ensured.plain other along))
  · intro other
    rw [pt.ensured.mapped, pd.ensured.mapped, pdp.ensured.mapped]
  · intro other here
    exact shown_pageEntry outside here physical pat _

/-- Mapping an address inserts its page. -/
theorem map_updated {physical pat : Nat} (outside : ¬ DirectlyMapped virt) (small : physical < 2 ^ 52)
    (plain : Plain memory context virt) (supplied : Supplied memory context virt supply) :
    Updated memory (vmContextMap memory context virt physical pat supply) context virt (some (physical / 4096)) := by
  have whole : physical / 4096 % 2 ^ 40 = physical / 4096 := Nat.mod_eq_of_lt (by omega)
  rw [← whole]
  exact map_updated_low wellFormed canonical outside plain supplied

/-- Unmapping an address deletes its page. -/
theorem unmap_updated
    (plain : Plain memory context virt) : Updated memory (vmContextUnmap memory context virt) context virt none := by
  rcases unmap_cases plain with ⟨same, level, entry, stopped, absent⟩ | ⟨pt, entry, located, absent, same⟩ <;> rw [same]
  · refine ⟨wellFormed, fun _ along => along, fun other otherCanonical => ?_⟩
    split
    · next here =>
      rw [leaf, ← (indices_eq_iff canonical otherCanonical).mpr here] at stopped
      exact mapped_absent stopped absent
    · rfl
  · exact updated_write canonical wellFormed located (fun _ along => along) (fun _ => rfl) (fun _ _ => if_pos absent)

end

section

/-- The calls that change a context; a call that maps brings the answers of the allocator. -/
inductive Update where
  | map (virt physical pat : Nat) (supply : Supply)
  | unmap (virt : Nat)

def Update.virt : Update → Nat
  | .map virt _ _ _ => virt
  | .unmap virt => virt

/-- The frame of the page after the call. -/
def Update.frame : Update → Option Nat
  | .map _ physical _ _ => some (physical / 4096)
  | .unmap _ => none

/-- The call is made with a physical address and an address outside the direct mapping. -/
def Update.Lawful : Update → Prop
  | .map virt physical _ _ => ¬ DirectlyMapped virt ∧ physical < 2 ^ 52
  | .unmap virt => ¬ DirectlyMapped virt

/-- The allocator answers with fresh frames during the call. -/
def Update.Supplied (memory : Memory) (context : Nat) : Update → Prop
  | .map virt _ _ supply => PageTables.Supplied memory context virt supply
  | .unmap _ => True

def Update.run (memory : Memory) (context : Nat) : Update → Memory
  | .map virt physical pat supply => vmContextMap memory context virt physical pat supply
  | .unmap virt => vmContextUnmap memory context virt

/-- What the call means for a map from pages to frames. -/
def Update.apply (pages : Nat → Option Nat) (update : Update) : Nat → Option Nat :=
  Function.update pages (update.virt / 4096) update.frame

/-- The calls that change a context, with an allocator that answers with fresh frames. -/
def updating (context : Nat) : System Memory Update where
  initial memory := WellFormed memory context
  step memory update after := update.Supplied memory context ∧ after = update.run memory context

/-- The context as a map from pages to frames. -/
def pages (memory : Memory) (context page : Nat) : Option Nat := mapped memory context (page * 4096)

variable {memory after : Memory} {context : Nat}

/-- The physical addresses of a page are in one frame. -/
theorem physicalIn_congr (same : other / 4096 = virt / 4096) (level : Nat) (entry : VmTableEntry) :
    physicalIn other level entry / 4096 = physicalIn virt level entry / 4096 := by
  have shifted : other >>> 12 = virt >>> 12 := by
    rw [Nat.shiftRight_eq_div_pow, Nat.shiftRight_eq_div_pow]
    exact same
  have cut : ∀ base mask, (base ||| (other &&& mask)) / 4096 = (base ||| (virt &&& mask)) / 4096 := by
    intro base mask
    have div : ∀ value, value / 4096 = value >>> 12 := fun value => (Nat.shiftRight_eq_div_pow value 12).symm
    rw [div, div, Nat.shiftRight_or_distrib, Nat.shiftRight_or_distrib, Nat.shiftRight_and_distrib,
      Nat.shiftRight_and_distrib, shifted]
  unfold physicalIn
  split <;> exact cut _ _

/-- The frame of a page is that of its first address. -/
theorem mapped_page (memory : Memory) (context : Nat) (canonical : Canonical virt) :
    mapped memory context virt = pages memory context (virt / 4096) := by
  have same : virt / 4096 * 4096 / 4096 = virt / 4096 := Nat.mul_div_cancel _ (by decide)
  have aligned : Canonical (virt / 4096 * 4096) := by
    unfold Canonical at *
    omega
  have direct : (virt / 4096 * 4096 - directMappingStart) / 4096 = (virt - directMappingStart) / 4096 := by
    unfold directMappingStart
    omega
  have shows : shown (virt / 4096 * 4096) = shown virt := by
    funext level entry
    simp only [shown, directlyMapped_congr same]
    split
    · rw [direct]
    · rw [physicalIn_congr same]
  rw [pages, mapped_eq, mapped_eq, shows, leaf, leaf, (indices_eq_iff canonical aligned).mpr same]

theorem mapped_same_page (memory : Memory) (context : Nat) (canonical : Canonical virt)
    (otherCanonical : Canonical other) (same : other / 4096 = virt / 4096) :
    mapped memory context other = mapped memory context virt := by
  rw [mapped_page memory context canonical, mapped_page memory context otherCanonical, same]

theorem update_updated {update : Update} (wellFormed : WellFormed memory context) (canonical : Canonical update.virt)
    (lawful : update.Lawful) (plain : Plain memory context update.virt)
    (taken : (updating context).step memory update after) : Updated memory after context update.virt update.frame := by
  obtain ⟨supplied, rfl⟩ := taken
  cases update with
  | map virt physical pat supply => exact map_updated wellFormed canonical lawful.1 lawful.2 plain supplied
  | unmap virt => exact unmap_updated wellFormed canonical plain

/-- A sequence of calls keeps the tables apart and the ways plain, and does to the pages what
it means for a map. -/
theorem run_updates {calls : List Update} (run : (updating context).Run memory calls after)
    (wellFormed : WellFormed memory context)
    (lawful : ∀ update ∈ calls, Canonical update.virt ∧ update.Lawful ∧ Plain memory context update.virt) :
    WellFormed after context ∧ (∀ virt, Plain memory context virt → Plain after context virt) ∧ ∀ virt, Canonical virt →
    mapped after context virt = calls.foldl Update.apply (pages memory context) (virt / 4096) := by
  induction run with
  | done =>
    refine ⟨wellFormed, fun _ along => along, ?_⟩
    intro virt canonical
    exact mapped_page memory context canonical
  | @next earlier update state last run taken ih =>
    obtain ⟨separated, plain, same⟩ := ih (forall_mem_append.mp lawful).1
    obtain ⟨canonical, allowed, way⟩ := lawful update (mem_append_right _ (mem_singleton_self update))
    have updated := update_updated separated canonical allowed (plain _ way) taken
    refine ⟨updated.wellFormed, fun virt along => updated.plain virt (plain virt along), ?_⟩
    intro virt otherCanonical
    rw [updated.mapped virt otherCanonical, foldl_append, foldl_cons, foldl_nil, Update.apply,
      update_apply, same virt otherCanonical]

/-- Mapping and unmapping addresses of the processor insert and delete their pages. -/
theorem context_updates_refine {calls : List Update} (wellFormed : WellFormed memory context)
    (lawful : ∀ update ∈ calls, Canonical update.virt ∧ update.Lawful ∧ Plain memory context update.virt)
    (run : (updating context).Run memory calls after) :
    WellFormed after context ∧ (∀ update ∈ calls, Plain after context update.virt) ∧ ∀ virt, Canonical virt →
        mapped after context virt = calls.foldl Update.apply (pages memory context) (virt / 4096) := by
  obtain ⟨separated, plain, same⟩ := run_updates run wellFormed lawful
  exact ⟨separated, fun update member => plain _ (lawful update member).2.2, same⟩

end

/-- A memory without a table but the PML4. -/
def blank : Memory := fun _ _ => 0#64

theorem blank_locate (context : Nat) (path : List (Fin 512)) :
    locate subtable blank 0 context path = if path = [] then some context else none := by
  cases path with
  | nil => rfl
  | cons index path =>
    rfl

theorem blank_wellFormed (context : Nat) : WellFormed blank context := by
  intro left right table atLeft atRight
  rw [blank_locate] at atLeft atRight
  split at atLeft <;> split at atRight <;> simp_all

theorem blank_plain (context virt : Nat) : Plain blank context virt := fun _ _ _ _ _ => get_zero huge

theorem blank_fresh {context frame : Nat} (different : frame ≠ context) (small : frame < 2 ^ 40) :
    Fresh blank context frame := by
  constructor
  · exact small
  · intro path
    rw [blank_locate]
    split
    · exact fun same => different (some.inj same).symm
    · exact nofun

/-- Frames for the first tables. -/
def firstSupply : Supply := ⟨1, 2, 3⟩

theorem blank_supplied (virt : Nat) : Supplied blank 0 virt firstSupply :=
  supplied_of_distinct (blank_wellFormed 0) (blank_plain 0 virt)
    (by simp [Supply.frames, firstSupply, blank_fresh]) (by decide)

theorem blank_run (virt physical : Nat) :
    (updating 0).Run blank [.map virt physical 0 firstSupply] (vmContextMap blank 0 virt physical 0 firstSupply) :=
  .next .done ⟨blank_supplied virt, rfl⟩

/-- A page that was mapped is the only one. -/
theorem context_updates_refine_first_page :
    (∀ virt, Canonical virt → mapped (vmContextMap blank 0 0x400000 0x5000 0 firstSupply) 0 virt =
      [Update.map 0x400000 0x5000 0 firstSupply].foldl Update.apply (pages blank 0) (virt / 4096)) ∧
    mapped (vmContextMap blank 0 0x400000 0x5000 0 firstSupply) 0 0x400123 = some 5 := by
  have lawful : ∀ update ∈ [Update.map 0x400000 0x5000 0 firstSupply],
      Canonical update.virt ∧ update.Lawful ∧ Plain blank 0 update.virt := by
    intro update member
    rw [mem_singleton.mp member]
    exact ⟨by decide, ⟨by decide, by decide⟩, blank_plain 0 _⟩
  obtain ⟨_, _, same⟩ := context_updates_refine (blank_wellFormed 0) lawful (blank_run 0x400000 0x5000)
  exact ⟨same, (same 0x400123 (by decide)).trans rfl⟩

/-- An address that is not canonical is mapped where a canonical one is: with `2 ^ 48` the
first page is there, too. -/
theorem noncanonical_update_aliases :
    WellFormed blank 0 ∧ Plain blank 0 (2 ^ 48) ∧ (Update.map (2 ^ 48) 0x5000 0 firstSupply).Lawful ∧
    (updating 0).Run blank [.map (2 ^ 48) 0x5000 0 firstSupply] (vmContextMap blank 0 (2 ^ 48) 0x5000 0 firstSupply) ∧
    mapped (vmContextMap blank 0 (2 ^ 48) 0x5000 0 firstSupply) 0 0 = some 5 ∧
    [Update.map (2 ^ 48) 0x5000 0 firstSupply].foldl Update.apply (pages blank 0) 0 = none := by
  refine ⟨blank_wellFormed 0, blank_plain 0 _, ⟨by decide, by decide⟩, blank_run _ _, ?_, ?_⟩
  · decide +kernel
  · decide +kernel

end Lfos.PageTables
