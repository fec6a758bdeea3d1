import Mathlib.Data.List.Infix

/-!
# Trees of tables

Tables are kept in frames, and an entry of a table may lead to the frame of a table of the
next level. A walk follows a list of indices from the root: it ends at a table, or stops at
the first entry that leads to no table. If different paths end at different tables, then
what is written to an entry concerns the walks through this entry only, and a blank table
that is hung into an entry without a table adds one path and takes none away.
-/

namespace Lfos.TableTrees

open List Option Function

universe u v w
variable {Frame : Type u} {Index : Type v} {Entry : Type w}

section

variable (child : Nat → Entry → Option Frame) (store : Frame → Index → Entry)

/-- The table a path ends at; the levels count from the table the walk starts in. -/
def locate : Nat → Frame → List Index → Option Frame
  | _, table, [] => some table
  | level, table, index :: path =>
    (child level (store table index)).bind (fun next => locate (level + 1) next path)

/-- The entry a walk stops at and its level. -/
def stop : Nat → Frame → List Index → Option (Nat × Entry)
  | _, _, [] => none
  | level, table, index :: path =>
    match child level (store table index) with
    | none => some (level, store table index)
    | some next => stop (level + 1) next path

/-- The walk along a path reads an entry of a table after some indices. -/
def Reads (level : Nat) (root : Frame) (path before : List Index) (index : Index) (table : Frame) : Prop :=
  before ++ [index] <+: path ∧ locate child store level root before = some table

/-- Different paths end at different tables. -/
def Separated (root : Frame) : Prop :=
  ∀ left right table, locate child store 0 root left = some table → locate child store 0 root right = some table →
    left = right

/-- The entries a walk reads meet a condition. -/
def Along (meets : Nat → Entry → Prop) (root : Frame) (path : List Index) : Prop :=
  ∀ before index table, Reads child store 0 root path before index table → meets before.length (store table index)

end

variable {child : Nat → Entry → Option Frame} {store : Frame → Index → Entry} {root table frame : Frame}
  {index : Index} {position : List Index} {entry : Entry} {blank : Index → Entry}

section

variable {other : Frame → Index → Entry} {level : Nat} {before path : List Index}

theorem locate_nil : locate child store level root [] = some root := rfl

theorem reads_cons {next : Frame} {slot : Index} (link : child level (store root index) = some next)
    (reads : Reads child store (level + 1) next path before slot table) :
    Reads child store level root (index :: path) (index :: before) slot table := by
  constructor
  · exact cons_prefix_cons.mpr ⟨rfl, reads.1⟩
  · rw [locate, link]
    exact reads.2

theorem reads_head (level : Nat) (root : Frame) (index : Index) (path : List Index) :
    Reads child store level root (index :: path) [] index root :=
  ⟨cons_prefix_cons.mpr ⟨rfl, nil_prefix⟩, rfl⟩

/-- A walk depends on where the entries it reads lead. -/
theorem locate_congr (same : ∀ before index table, Reads child store level root path before index table →
    child (level + before.length) (other table index) = child (level + before.length) (store table index)) :
    locate child other level root path = locate child store level root path := by
  induction path generalizing level root with
  | nil => rfl
  | cons index path ih =>
    have here : child level (other root index) = child level (store root index) :=
      same [] index root (reads_head level root index path)
    rw [locate, locate, here]
    cases link : child level (store root index) with
    | none => rfl
    | some next =>
      apply ih
      intro before slot table reads
      have later := same (index :: before) slot table (reads_cons link reads)
      rwa [length_cons, Nat.add_comm before.length, ← Nat.add_assoc] at later

theorem stop_congr (same : ∀ before index table, Reads child store level root path before index table →
    other table index = store table index) : stop child other level root path = stop child store level root path := by
  induction path generalizing level root with
  | nil => rfl
  | cons index path ih =>
    have here : other root index = store root index := same [] index root (reads_head level root index path)
    rw [stop, stop, here]
    cases link : child level (store root index) with
    | none => rfl
    | some next =>
      apply ih
      intro before slot table reads
      exact same (index :: before) slot table (reads_cons link reads)

theorem locate_append (level : Nat) (root : Frame) (before after : List Index) :
    locate child store level root (before ++ after) = (locate child store level root before).bind
    (fun table => locate child store (level + before.length) table after) := by
  induction before generalizing level root with
  | nil => rfl
  | cons index before ih =>
    rw [cons_append, locate, locate]
    cases child level (store root index) with
    | none => rfl
    | some next =>
      rw [bind_some, bind_some, ih, length_cons, Nat.add_comm before.length, ← Nat.add_assoc]

theorem stop_append (located : locate child store level root before = some table) (after : List Index) :
    stop child store level root (before ++ after) = stop child store (level + before.length) table after := by
  induction before generalizing level root with
  | nil =>
    cases located
    rfl
  | cons index before ih =>
    obtain ⟨next, link, further⟩ := bind_eq_some_iff.mp located
    rw [cons_append, stop, link]
    dsimp only
    rw [ih further, length_cons, Nat.add_comm before.length, ← Nat.add_assoc]

/-- A walk stops at an entry without a table. -/
theorem stop_childless (after : List Index) (located : locate child store 0 root before = some table)
    (childless : child before.length (store table index) = none) :
    stop child store 0 root (before ++ index :: after) = some (before.length, store table index) := by
  rw [stop_append located, Nat.zero_add, stop, childless]

/-- A walk stops at an entry that it reads and that leads to no table. -/
theorem stop_reads {depth : Nat} {entry : Entry} (stopped : stop child store level root path = some (depth, entry)) :
    ∃ before index table, Reads child store level root path before index table ∧ depth = level + before.length ∧
    entry = store table index ∧ child depth entry = none := by
  induction path generalizing level root with
  | nil => exact absurd stopped nofun
  | cons index path ih =>
    rw [stop] at stopped
    cases link : child level (store root index) with
    | none =>
      rw [link] at stopped
      obtain ⟨rfl, rfl⟩ := Prod.mk.inj (some.inj stopped)
      exact ⟨[], index, root, reads_head level root index path, rfl, rfl, link⟩
    | some next =>
      rw [link] at stopped
      obtain ⟨before, slot, table, reads, rfl, same, childless⟩ := ih stopped
      refine ⟨index :: before, slot, table, reads_cons link reads, ?_, same, childless⟩
      rw [length_cons]
      omega

theorem locate_childless (after : List Index) (located : locate child store 0 root before = some table)
    (childless : child before.length (store table index) = none) :
    locate child store 0 root (before ++ index :: after) = none := by
  rw [locate_append, located, bind_some, Nat.zero_add, locate, childless, bind_none]

theorem locate_snoc (index : Index) (located : locate child store 0 root before = some table) :
    locate child store 0 root (before ++ [index]) = child before.length (store table index) := by
  rw [locate_append, located, Nat.zero_add]
  exact bind_fun_some _

/-- An entry gets a blank table in a frame that no path ends at. -/
structure Grafts (child : Nat → Entry → Option Frame) (store : Frame → Index → Entry) (root : Frame)
    (position : List Index) (table : Frame) (index : Index) (entry : Entry) (frame : Frame)
    (blank : Index → Entry) : Prop where
  separated : Separated child store root
  located : locate child store 0 root position = some table
  childless : child position.length (store table index) = none
  leads : child position.length entry = some frame
  fresh : ∀ path, locate child store 0 root path ≠ some frame
  blank : ∀ level index, child level (blank index) = none

theorem Grafts.different {frame : Frame} {position : List Index} {entry : Entry}
    {blank : Index → Entry} (grafts : Grafts child store root position table index entry frame blank) :
    table ≠ frame := by
  rintro rfl
  exact grafts.fresh position grafts.located

end

section

variable [DecidableEq Frame] (grafts : Grafts child store root position table index entry frame blank)
include grafts

theorem Grafts.read {path : List Index} {read : Frame} (found : locate child store 0 root path = some read) :
    update store frame blank read = store read := by
  apply update_of_ne
  rintro rfl
  exact grafts.fresh path found

/-- A frame that no path ends at may be filled. -/
theorem Grafts.locate_filled (path : List Index) :
    locate child (update store frame blank) 0 root path = locate child store 0 root path :=
  locate_congr (fun _ _ _ reads => by rw [grafts.read reads.2])

theorem Grafts.separated_filled : Separated child (update store frame blank) root := by
  intro left right found atLeft atRight
  rw [grafts.locate_filled] at atLeft atRight
  exact grafts.separated left right found atLeft atRight

theorem Grafts.located_filled : locate child (update store frame blank) 0 root position = some table := by
  rw [grafts.locate_filled]
  exact grafts.located

end

section

variable [DecidableEq Frame] [DecidableEq Index]

/-- Replace an entry. -/
def write (store : Frame → Index → Entry) (table : Frame) (index : Index) (entry : Entry) : Frame → Index → Entry :=
  update store table (update (store table) index entry)

@[simp] theorem write_here (store : Frame → Index → Entry) (table : Frame) (index : Index) (entry : Entry) :
    write store table index entry table index = entry := by
  rw [write, update_self, update_self]

theorem write_elsewhere (store : Frame → Index → Entry) {table read : Frame} {index slot : Index} (entry : Entry)
    (different : ¬ (read = table ∧ slot = index)) : write store table index entry read slot = store read slot := by
  rw [write]
  by_cases same : read = table
  · subst same
    rw [update_self, update_of_ne (fun equal => different ⟨rfl, equal⟩)]
  · rw [update_of_ne same]

section

variable (separated : Separated child store root) (located : locate child store 0 root position = some table)
include separated located

section

variable {path : List Index} (apart : ¬ position ++ [index] <+: path)
include apart

/-- Only walks through the entry read it. -/
theorem reads_write {before : List Index} {slot : Index} {read : Frame}
    (reads : Reads child store 0 root path before slot read) :
    write store table index entry read slot = store read slot := by
  apply write_elsewhere
  rintro ⟨rfl, rfl⟩
  have same := separated before position read reads.2 located
  exact apart (same ▸ reads.1)

theorem locate_write : locate child (write store table index entry) 0 root path = locate child store 0 root path :=
  locate_congr (fun _ _ _ reads => by rw [reads_write separated located apart reads])

theorem stop_write : stop child (write store table index entry) 0 root path = stop child store 0 root path :=
  stop_congr (fun _ _ _ reads => reads_write separated located apart reads)

end

variable (same : child position.length entry = child position.length (store table index))
include same

/-- Nothing is found elsewhere if the entry leads where it led. -/
theorem locate_write_same (path : List Index) :
    locate child (write store table index entry) 0 root path = locate child store 0 root path := by
  apply locate_congr
  intro before slot read reads
  rw [Nat.zero_add]
  by_cases here : read = table ∧ slot = index
  · obtain ⟨rfl, rfl⟩ := here
    rw [write_here, separated before position read reads.2 located, same]
  · rw [write_elsewhere store entry here]

theorem separated_write_same : Separated child (write store table index entry) root := by
  intro left right found atLeft atRight
  rw [locate_write_same separated located same] at atLeft atRight
  exact separated left right found atLeft atRight

variable {path : List Index}

theorem along_write_same {meets : Nat → Entry → Prop}
    (met : meets position.length entry) (along : Along child store meets root path) :
    Along child (write store table index entry) meets root path := by
  rintro before slot read ⟨leads, found⟩
  rw [locate_write_same separated located same] at found
  by_cases here : read = table ∧ slot = index
  · obtain ⟨rfl, rfl⟩ := here
    rw [write_here, separated before position read found located]
    exact met
  · rw [write_elsewhere store entry here]
    exact along before slot read ⟨leads, found⟩

end

/-- Hang a blank table into an entry. -/
def graft (store : Frame → Index → Entry) (table : Frame) (index : Index) (entry : Entry) (frame : Frame)
    (blank : Index → Entry) : Frame → Index → Entry :=
  write (update store frame blank) table index entry

variable (grafts : Grafts child store root position table index entry frame blank)
include grafts

theorem Grafts.locate_apart (apart : ¬ position ++ [index] <+: path) :
    locate child (graft store table index entry frame blank) 0 root path = locate child store 0 root path := by
  rw [graft, locate_write grafts.separated_filled grafts.located_filled apart, grafts.locate_filled]

theorem Grafts.stop_apart (apart : ¬ position ++ [index] <+: path) :
    stop child (graft store table index entry frame blank) 0 root path = stop child store 0 root path := by
  rw [graft, stop_write grafts.separated_filled grafts.located_filled apart]
  exact stop_congr (fun _ _ _ reads => by rw [grafts.read reads.2])

theorem Grafts.locate_position :
    locate child (graft store table index entry frame blank) 0 root position = some table := by
  rw [grafts.locate_apart, grafts.located]
  intro longer
  have shorter := longer.length_le
  rw [length_append] at shorter
  exact absurd shorter (Nat.not_succ_le_self _)

/-- The new table is found in the entry. -/
theorem Grafts.locate_new :
    locate child (graft store table index entry frame blank) 0 root (position ++ [index]) = some frame := by
  rw [locate_snoc index grafts.locate_position, graft, write_here, grafts.leads]

theorem Grafts.new_blank (slot : Index) : graft store table index entry frame blank frame slot = blank slot := by
  rw [graft, write_elsewhere _ entry (fun same => grafts.different same.1.symm), update_self]

theorem Grafts.new_childless
    (level : Nat) (slot : Index) : child level (graft store table index entry frame blank frame slot) = none := by
  rw [grafts.new_blank]
  exact grafts.blank level slot

/-- Walks through the entry stopped at it, and stop in the new table now. -/
theorem Grafts.stop_new (slot : Index) (after : List Index) :
    stop child (graft store table index entry frame blank) 0 root (position ++ index :: slot :: after) =
    some (position.length + 1, blank slot) := by
  have stopped := stop_childless after grafts.locate_new (grafts.new_childless _ slot)
  rw [append_assoc, length_append, grafts.new_blank] at stopped
  exact stopped

/-- The new table is the only one that is found besides those that were. -/
theorem Grafts.locate (path : List Index) : locate child (graft store table index entry frame blank) 0 root path =
    if path = position ++ [index] then some frame else locate child store 0 root path := by
  split
  · next here =>
    rw [here]
    exact grafts.locate_new
  · next elsewhere =>
    by_cases apart : position ++ [index] <+: path
    · obtain ⟨after, rfl⟩ := apart
      cases after with
      | nil => exact absurd (append_nil _) elsewhere
      | cons slot after =>
        rw [locate_childless after grafts.locate_new (grafts.new_childless _ slot), append_assoc]
        exact (locate_childless _ grafts.located grafts.childless).symm
    · exact grafts.locate_apart apart

theorem Grafts.separated_graft : Separated child (graft store table index entry frame blank) root := by
  intro left right found atLeft atRight
  rw [grafts.locate] at atLeft atRight
  split at atLeft <;> split at atRight
  · next first second => rw [first, second]
  · exact absurd (atRight.trans atLeft.symm) (grafts.fresh right)
  · exact absurd (atLeft.trans atRight.symm) (grafts.fresh left)
  · exact grafts.separated left right found atLeft atRight

theorem Grafts.along {meets : Nat → Entry → Prop} (met : meets position.length entry)
    (blankMet : ∀ level slot, meets level (blank slot)) (along : Along child store meets root path) :
    Along child (graft store table index entry frame blank) meets root path := by
  rintro before slot read ⟨leads, found⟩
  rw [grafts.locate] at found
  split at found
  · rw [← some.inj found, grafts.new_blank]
    exact blankMet _ slot
  · by_cases here : read = table ∧ slot = index
    · obtain ⟨rfl, rfl⟩ := here
      rw [graft, write_here, grafts.separated before position read found grafts.located]
      exact met
    · rw [graft, write_elsewhere _ entry here, grafts.read found]
      exact along before slot read ⟨leads, found⟩

end

end Lfos.TableTrees
