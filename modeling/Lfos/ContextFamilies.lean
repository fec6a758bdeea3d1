import Lfos.PageMaps

/-!
# Contexts that share a memory

All contexts are kept in one memory. They share the tables of the kernel's half, and each
has tables of its own for the user's half. What is written to a frame that is not in use as a
table concerns no context. Mapping or unmapping addresses whose tables belong to one context
concerns this one only, and mapping an address whose tables are shared concerns its page in
every context.
-/

namespace Lfos.PageTables

open TableTrees Transitions List Option Function

variable {memory middle after : Memory} {context virt frame table other : Nat} {position : List (Fin 512)}
  {index : Fin 512} {supply : Supply}

/-- A context finds the tables it found, with the entries they had. -/
structure Untouched (memory after : Memory) (context : Nat) : Prop where
  located : ∀ path, locate subtable after 0 context path = locate subtable memory 0 context path
  same : ∀ path table, locate subtable memory 0 context path = some table → after table = memory table

theorem untouched_of_same
    (same : ∀ path table, locate subtable memory 0 context path = some table → after table = memory table) :
    Untouched memory after context :=
  ⟨fun _ => locate_congr (fun before _ table reads => by rw [same before table reads.2]), same⟩

theorem Untouched.refl (memory : Memory) (context : Nat) : Untouched memory memory context :=
  ⟨fun _ => rfl, fun _ _ _ => rfl⟩

theorem Untouched.trans (first : Untouched memory middle context) (second : Untouched middle after context) :
    Untouched memory after context where
  located path := (second.located path).trans (first.located path)
  same path table found :=
    (second.same path table ((first.located path).trans found)).trans (first.same path table found)

section

variable (untouched : Untouched memory after context)
include untouched

theorem Untouched.mapped (virt : Nat) : mapped after context virt = mapped memory context virt :=
  mapped_congr (stop_congr (fun before index table reads => by rw [untouched.same before table reads.2]))

theorem Untouched.wellFormed (wellFormed : WellFormed memory context) : WellFormed after context := by
  intro left right table atLeft atRight
  rw [untouched.located] at atLeft atRight
  exact wellFormed left right table atLeft atRight

theorem Untouched.plain (plain : Plain memory context virt) : Plain after context virt := by
  rintro before index table ⟨through, located⟩
  rw [untouched.located] at located
  rw [untouched.same before table located]
  exact plain before index table ⟨through, located⟩

theorem Untouched.fresh (fresh : Fresh memory context frame) : Fresh after context frame :=
  ⟨fresh.1, fun path => by rw [untouched.located]; exact fresh.2 path⟩

end

/-- A frame that is not in use as a table may be filled. -/
theorem update_untouched (fresh : Unused memory context frame)
    (contents : Fin 512 → VmTableEntry) : Untouched memory (update memory frame contents) context := by
  apply untouched_of_same
  intro path table found
  apply update_of_ne
  rintro rfl
  exact fresh path found

theorem write_untouched (unused : Unused memory context table) (index : Fin 512)
    (entry : VmTableEntry) : Untouched memory (write memory table index entry) context :=
  update_untouched unused _

/-- The tables on the way to an address are not found from another context. -/
def Apart (memory : Memory) (context virt other : Nat) : Prop :=
  ∀ before table, before <+: way virt → locate subtable memory 0 context before = some table →
    Unused memory other table

/-- Another context does not notice that a table is made. -/
theorem Ensurable.untouched (ensurable : Ensurable memory context position table index frame)
    (fresh : Fresh memory other frame) (apart : Apart memory context virt other) (through : position <+: way virt) :
    Untouched memory (vmEnsureTable memory table index frame) other := by
  by_cases absent : present.get (memory table index) = 0
  · rw [ensureTable_eq (ensurable.grafts absent).different absent]
    have filled := update_untouched fresh.2 (fun _ => 0#64)
    refine filled.trans (write_untouched ?_ index _)
    intro path
    rw [filled.located]
    exact apart position table through ensurable.located path
  · rw [vmEnsureTable, if_neg absent]
    exact .refl memory other

/-- The tables on the way to an address stay apart when the others change nothing of them. -/
theorem Apart.congr {after : Memory} (apart : Apart memory context virt other)
    (own : ∀ path, locate subtable after 0 context path = locate subtable memory 0 context path)
    (others : ∀ path, locate subtable after 0 other path = locate subtable memory 0 other path) :
    Apart after context virt other := by
  intro before table inside found path
  rw [own] at found
  rw [others]
  exact apart before table inside found path

section

/-- A context keeps its tables, finds some frames as new ones, and nothing else is written. -/
structure Extends (memory after : Memory) (context : Nat) (frames : List Nat) : Prop where
  keeps : ∀ path table, locate subtable memory 0 context path = some table →
    locate subtable after 0 context path = some table
  finds : ∀ path table, locate subtable after 0 context path = some table →
    locate subtable memory 0 context path = some table ∨ table ∈ frames
  elsewhere : ∀ frame, Unused memory context frame → frame ∉ frames → after frame = memory frame

variable {frames more : List Nat}

theorem Extends.refl (memory : Memory) (context : Nat) (frames : List Nat) : Extends memory memory context frames :=
  ⟨fun _ _ found => found, fun _ _ found => .inl found, fun _ _ _ => rfl⟩

theorem Extends.trans (first : Extends memory middle context frames) (second : Extends middle after context more) :
    Extends memory after context (frames ++ more) where
  keeps path table found := second.keeps path table (first.keeps path table found)
  finds path table found := by
    rcases second.finds path table found with earlier | late
    · exact (first.finds path table earlier).imp_right (mem_append_left more)
    · exact .inr (mem_append_right frames late)
  elsewhere frame unused absent := by
    rw [mem_append, not_or] at absent
    refine (second.elsewhere frame ?_ absent.2).trans (first.elsewhere frame unused absent.1)
    intro path found
    rcases first.finds path frame found with earlier | new
    · exact unused path earlier
    · exact absent.1 new

theorem Ensurable.extension (ensurable : Ensurable memory context position table index frame) :
    Extends memory (vmEnsureTable memory table index frame) context [frame] := by
  by_cases absent : present.get (memory table index) = 0
  · have grafts := ensurable.grafts absent
    rw [ensureTable_eq grafts.different absent]
    constructor
    · intro path found was
      rw [grafts.locate, if_neg]
      · exact was
      · rintro rfl
        rw [locate_snoc index ensurable.located, grafts.childless] at was
        exact nomatch was
    · intro path found now
      rw [grafts.locate] at now
      split at now
      · exact .inr (mem_singleton.mpr (some.inj now).symm)
      · exact .inl now
    · intro other unused different
      have here : other ≠ table := by
        rintro rfl
        exact unused position ensurable.located
      rw [graft, write, update_of_ne here, update_of_ne (fun same => different (mem_singleton.mpr same))]
  · rw [vmEnsureTable, if_neg absent]
    exact .refl ..

section

variable (wellFormed : WellFormed memory context)
include wellFormed

theorem write_extends {pt : Nat}
    (located : locate subtable memory 0 context (way virt) = some pt) (entry : VmTableEntry) :
    Extends memory (write memory pt (ptIndex virt) entry) context [] := by
  have same : ∀ path, locate subtable (write memory pt (ptIndex virt) entry) 0 context path =
      locate subtable memory 0 context path := locate_write_same wellFormed located (subtable_same _ _)
  constructor
  · intro path table found
    exact (same path).trans found
  · intro path table found
    exact .inl ((same path).symm.trans found)
  · intro frame unused _
    apply update_of_ne
    rintro rfl
    exact unused _ located

/-- Mapping an address extends its context by tables in the frames the allocator answers with. -/
theorem map_extends {physical pat : Nat}
    (plain : Plain memory context virt) (supplied : Supplied memory context virt supply) :
    Extends memory (vmContextMap memory context virt physical pat supply) context supply.frames := by
  obtain ⟨pdp, pd, pt⟩ := map_levels wellFormed plain supplied
  have tables := (pdp.extension.trans pd.extension).trans pt.extension
  exact tables.trans (write_extends pt.ensured.wellFormed pt.ensured.located _)

/-- Unmapping an address leaves the tables where they are. -/
theorem unmap_extends (plain : Plain memory context virt) :
    Extends memory (vmContextUnmap memory context virt) context [] := by
  rcases unmap_cases plain with ⟨same, _⟩ | ⟨pt, entry, located, _, same⟩ <;> rw [same]
  · exact .refl ..
  · exact write_extends wellFormed located entry

end

/-- New tables do not come into the way of another context. -/
theorem Apart.extends (apart : Apart memory other virt context) (extends_ : Extends memory after context frames)
    (untouched : Untouched memory after other) (fresh : ∀ frame ∈ frames, Fresh memory other frame) :
    Apart after other virt context := by
  intro before table inside found path reached
  rw [untouched.located] at found
  rcases extends_.finds path table reached with earlier | new
  · exact apart before table inside found path earlier
  · exact (fresh table new).2 before found

/-- New tables of one's own stay apart from another context. -/
theorem Apart.grown (apart : Apart memory context virt other) (grown : Extends memory after context frames)
    (untouched : Untouched memory after other) (fresh : ∀ frame ∈ frames, Fresh memory other frame) :
    Apart after context virt other := by
  intro before table inside found path
  rw [untouched.located]
  rcases grown.finds before table found with earlier | new
  · exact apart before table inside earlier path
  · exact (fresh table new).2 path

/-- Another context does not notice that an address is mapped by tables of one's own. -/
theorem map_untouched (physical pat : Nat) (wellFormed : WellFormed memory context)
    (plain : Plain memory context virt) (supplied : Supplied memory context virt supply)
    (apart : Apart memory context virt other) (fresh : ∀ frame ∈ supply.frames, Fresh memory other frame) :
    Untouched memory (vmContextMap memory context virt physical pat supply) other := by
  obtain ⟨pdpFresh, pdFresh, ptFresh⟩ := supply.fresh_iff.mp fresh
  obtain ⟨pdp, pd, pt⟩ := map_levels wellFormed plain supplied
  -- each table is made in a frame that is still fresh for the other context
  have withPdp := pdp.untouched pdpFresh apart nil_prefix
  have apartPdp := apart.grown pdp.extension withPdp (forall_mem_singleton.mpr pdpFresh)
  have withPd := pd.untouched (withPdp.fresh pdFresh) apartPdp ⟨_, rfl⟩
  have apartPd := apartPdp.grown pd.extension withPd (forall_mem_singleton.mpr (withPdp.fresh pdFresh))
  have both := withPdp.trans withPd
  have withPt := pt.untouched (both.fresh ptFresh) apartPd ⟨_, rfl⟩
  have apartPt := apartPd.grown pt.extension withPt (forall_mem_singleton.mpr (both.fresh ptFresh))
  exact (both.trans withPt).trans (write_untouched (apartPt _ _ (prefix_refl _) pt.ensured.located) ..)

end

section

variable {pt physical pat : Nat}

theorem subtable_some {level table : Nat} {entry : VmTableEntry} (leads : subtable level entry = some table) :
    present.get entry ≠ 0 ∧ table = nextBase.get entry := by
  rw [subtable, ite_none_left_eq_some, not_or, not_or] at leads
  exact ⟨leads.1.2.1, (some.inj leads.2).symm⟩

/-- If the tables are there, only the entry of the page is written. -/
theorem map_located (located : locate subtable memory 0 context (way virt) = some pt) :
    vmContextMap memory context virt physical pat supply =
    write memory pt (ptIndex virt) (pageEntry physical pat (memory pt (ptIndex virt))) := by
  obtain ⟨pdp, first, further⟩ := bind_eq_some_iff.mp located
  obtain ⟨pd, second, rest⟩ := bind_eq_some_iff.mp further
  obtain ⟨_, third, same⟩ := bind_eq_some_iff.mp rest
  cases same
  obtain ⟨pdpThere, rfl⟩ := subtable_some first
  obtain ⟨pdThere, rfl⟩ := subtable_some second
  obtain ⟨ptThere, rfl⟩ := subtable_some third
  have ensured {table : Nat} {index : Fin 512} {frame : Nat} (there : present.get (memory table index) ≠ 0) :
      vmEnsureTable memory table index frame = memory := if_neg there
  simp only [vmContextMap, ensured pdpThere, ensured pdThere, ensured ptThere]

/-- An address whose tables are shared is mapped in every context that has them. -/
theorem map_shared (canonical : Canonical virt) (outside : ¬ DirectlyMapped virt)
    (located : locate subtable memory 0 context (way virt) = some pt) (wellFormed : WellFormed memory other)
    (locatedOther : locate subtable memory 0 other (way virt) = some pt) :
    Updated memory (vmContextMap memory context virt physical pat supply) other virt (some (physical / 4096 % 2 ^ 40)) ∧
    ∀ path, locate subtable (vmContextMap memory context virt physical pat supply) 0 other path =
    locate subtable memory 0 other path := by
  rw [map_located located]
  constructor
  · apply updated_write canonical wellFormed locatedOther (fun _ along => along) (fun _ => rfl)
    intro address here
    exact shown_pageEntry outside here physical pat _
  · exact locate_write_same wellFormed locatedOther (subtable_same _ _)

end

/-- The allocator answers with frames that another context does not use. -/
def Update.Separate (other : Nat) (memory : Memory) : Update → Prop
  | .map _ _ _ supply => ∀ frame ∈ supply.frames, Fresh memory other frame
  | .unmap _ => True

/-- A call in one context is not noticed in another one, and what is apart stays so. -/
theorem update_apart {update : Update} (wellFormed : WellFormed memory context)
    (plain : Plain memory context update.virt) (apart : Apart memory context update.virt other)
    (separate : update.Separate other memory) (taken : (updating context).step memory update after) :
    Untouched memory after other ∧ ∀ virt, Apart memory context virt other → Apart after context virt other := by
  obtain ⟨supplied, rfl⟩ := taken
  cases update with
  | map virt physical pat supply =>
    have untouched := map_untouched physical pat wellFormed plain supplied apart separate
    exact ⟨untouched, fun _ away => away.grown (map_extends wellFormed plain supplied) untouched separate⟩
  | unmap virt =>
    have untouched : Untouched memory (vmContextUnmap memory context virt) other := by
      rcases @unmap_cases memory context virt plain with ⟨same, _⟩ | ⟨pt, entry, located, _, same⟩ <;> rw [same]
      · exact .refl memory other
      · exact write_untouched (apart _ pt (prefix_refl _) located) _ entry
    exact ⟨untouched, fun _ away => away.grown (unmap_extends wellFormed plain) untouched (by simp)⟩

/-- Whatever is mapped and unmapped by tables of one's own, another context finds its tables
and its pages as they were. -/
theorem contexts_isolated {calls : List Update} (wellFormed : WellFormed memory context)
    (lawful : ∀ update ∈ calls, Canonical update.virt ∧ update.Lawful ∧ Plain memory context update.virt ∧
      Apart memory context update.virt other)
    (run : ((updating context).under (fun memory update => update.Separate other memory)).Run memory calls after) :
    Untouched memory after other ∧ ∀ virt, mapped after other virt = mapped memory other virt := by
  suffices all : Untouched memory after other ∧ WellFormed after context ∧
      ∀ virt, (Plain memory context virt → Plain after context virt) ∧
        (Apart memory context virt other → Apart after context virt other) from ⟨all.1, all.1.mapped⟩
  induction run with
  | done => exact ⟨.refl memory other, wellFormed, fun _ => ⟨id, id⟩⟩
  | @next earlier update state last run taken ih =>
    obtain ⟨untouched, separated, kept⟩ := ih (forall_mem_append.mp lawful).1
    obtain ⟨canonical, allowed, plain, apart⟩ := lawful update (mem_append_right _ (mem_singleton_self update))
    have plainNow := (kept _).1 plain
    have updated := update_updated separated canonical allowed plainNow taken.2
    obtain ⟨unnoticed, still⟩ := update_apart separated plainNow ((kept _).2 apart) taken.1 taken.2
    exact ⟨untouched.trans unnoticed, updated.wellFormed, fun virt =>
      ⟨updated.plain virt ∘ (kept virt).1, still virt ∘ (kept virt).2⟩⟩

/-- A page is mapped in one of two empty contexts. -/
theorem contexts_isolated_first_page : mapped (vmContextMap blank 0 0x400000 0x5000 0 firstSupply) 0 0x400123 = some 5 ∧
    mapped (vmContextMap blank 0 0x400000 0x5000 0 firstSupply) 4 0x400123 = none := by
  have apart : Apart blank 0 0x400000 4 := by simp +contextual [Apart, Unused, blank_locate]
  have separate : (Update.map 0x400000 0x5000 0 firstSupply).Separate 4 blank := by
    simp [Update.Separate, Supply.frames, firstSupply, blank_fresh]
  have isolated := contexts_isolated (blank_wellFormed 0) (by
    simpa using ⟨by decide, ⟨by decide, by decide⟩, blank_plain 0 _, apart⟩) (.next .done ⟨separate, blank_supplied _, rfl⟩)
  exact ⟨by decide +kernel, (isolated.2 _).trans (by decide +kernel)⟩

end Lfos.PageTables
