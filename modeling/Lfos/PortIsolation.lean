import Lfos.PortPermissions

/-!
# Isolation of I/O ports

A call keeps what holds of the bitmaps of the processes as long as it does not take the last
port from one. So a process that is entered has the ports it turned on, if the frame that the
kernel maps in place of the second page of its bitmap holds what this page holds, and only then.
-/

namespace Lfos.PortPermissions

open BitFields PageTables TableTrees Words List Option
open Function (update update_apply update_of_ne update_self)

variable {machine : Machine} {on : Nat → Nat → Bool} {pid half : Nat} {memory : Memory}

section

/-- What it means for the contexts that an address of the user's half is mapped in one of them. -/
structure UserMap (machine : Machine) (memory : Memory) (pid virt frame : Nat) (frames : List Nat) : Prop where
  shared : Shared { machine with memory := memory }
  updated : Updated machine.memory memory (machine.contexts pid) virt (some frame)
  extended : Extends machine.memory memory (machine.contexts pid) frames
  others : ∀ who, who ≠ some pid → Untouched machine.memory memory (machine.context who)

theorem way_next (below : half < 2) : way (userIoperm + 4096 * half) = way userIoperm := by
  obtain rfl | rfl : half = 0 ∨ half = 1 := by omega
  · decide
  · decide

variable {answers : Answers} {frame other virt : Nat}

theorem map_user (shared : Shared machine) (half : Nat) (below : half < 2) {supply : Supply}
    (fresh : ∀ frame ∈ supply.frames, frame < 2 ^ 40 ∧ NoTable machine frame)
    (distinct : supply.frames.Nodup) (pid physical : Nat)
    (memoryIs : memory = vmContextMap machine.memory (machine.contexts pid) (userIoperm + 4096 * half) physical 0 supply) :
    UserMap machine memory pid (userIoperm + 4096 * half) (physical / 4096 % 2 ^ 40) supply.frames := by
  have wellFormed := shared.wellFormed (some pid)
  have plain := shared.plain pid half below
  obtain ⟨canonical, outside⟩ := userIoperm_lawful below
  have freshIn (who : Option Nat) (frame : Nat) (member : frame ∈ supply.frames) :
      Fresh machine.memory (machine.context who) frame := ⟨(fresh frame member).1, (fresh frame member).2 who⟩
  have supplied := supplied_of_distinct wellFormed plain (freshIn (some pid)) distinct
  have updated : Updated machine.memory memory (machine.contexts pid) (userIoperm + 4096 * half)
      (some (physical / 4096 % 2 ^ 40)) := by
    rw [memoryIs]
    exact map_updated_low wellFormed canonical outside plain supplied
  have extended : Extends machine.memory memory (machine.contexts pid) supply.frames := by
    rw [memoryIs]
    exact map_extends wellFormed plain supplied
  have others (who : Option Nat) (different : who ≠ some pid) :
      Untouched machine.memory memory (machine.context who) := by
    have apart := shared.apart pid who different
    rw [Apart, ← way_next below] at apart
    rw [memoryIs]
    exact map_untouched physical 0 wellFormed plain supplied apart (freshIn who)
  refine ⟨⟨?_, ?_, ?_, ?_, shared.kernel⟩, updated, extended, others⟩
  · intro who
    by_cases own : who = some pid
    · exact own ▸ updated.wellFormed
    · exact (others who own).wellFormed (shared.wellFormed who)
  · intro other half below
    by_cases own : some other = some pid
    · obtain rfl := some.inj own
      exact updated.plain _ (shared.plain other half below)
    · exact (others (some other) own).plain (shared.plain other half below)
  · intro other who different
    have apart := shared.apart other who different
    by_cases own : some other = some pid
    · obtain rfl := some.inj own
      exact apart.grown extended (others who different) (freshIn who)
    · have untouched := others (some other) own
      by_cases theirs : who = some pid
      · subst theirs
        exact apart.extends extended untouched (freshIn (some other))
      · exact apart.congr untouched.located (others who theirs).located
  · intro half below
    obtain ⟨table, all⟩ := shared.tables half below
    refine ⟨table, fun who => ?_⟩
    by_cases own : who = some pid
    · exact own ▸ extended.keeps _ _ (all (some pid))
    · exact ((others who own).located _).trans (all who)

/-- A frame that is not handed out stays unused, and is not written. -/
theorem NoTable.map {frames : List Nat} (noTable : NoTable machine other)
    (mapped : UserMap machine memory pid virt frame frames) (absent : other ∉ frames) :
    memory other = machine.memory other ∧ NoTable { machine with memory := memory } other := by
  refine ⟨mapped.extended.elsewhere other (noTable (some pid)) absent, ?_⟩
  intro who path
  by_cases own : who = some pid
  · subst own
    intro found
    rcases mapped.extended.finds path other found with earlier | new
    · exact noTable (some pid) path earlier
    · exact absent new
  · exact ((mapped.others who own).located path).trans_ne (noTable who path)

theorem Shared.iopb (shared : Shared machine) (iopb : Nat → Nat) (originalPages : Nat × Nat) :
    Shared { machine with iopb := iopb, originalPages := originalPages } :=
  { shared with }

/-- The memory after the two addresses were mapped in the context of a process. -/
structure Remapped (machine : Machine) (memory : Memory) (pid : Nat) (pages : Nat × Nat) (frames : List Nat) : Prop where
  shared : Shared { machine with memory := memory }
  user : ∀ half < 2, mapped memory (machine.contexts pid) (userIoperm + 4096 * half) =
    some ((if half = 0 then pages.1 else pages.2) / 4096 % 2 ^ 40)
  others : ∀ who, who ≠ some pid → Untouched machine.memory memory (machine.context who)
  elsewhere : ∀ frame, NoTable machine frame → frame ∉ frames →
    memory frame = machine.memory frame ∧ NoTable { machine with memory := memory } frame

/-- The pages that `set_iopb` maps. -/
def iopbPages (machine : Machine) (newIopb : Nat) : Nat × Nat :=
  if newIopb = 0 then capturePages machine else (newIopb, u64 (newIopb * 4096))

theorem setIopb_memory (shared : Shared machine) {supplies : Supply × Supply}
    (fresh : ∀ frame ∈ supplies.1.frames ++ supplies.2.frames, Unused machine frame)
    (distinct : (supplies.1.frames ++ supplies.2.frames).Nodup) (pid newIopb : Nat) :
    Remapped machine (setIopb machine (machine.contexts pid) newIopb supplies).memory pid (iopbPages machine newIopb)
    (supplies.1.frames ++ supplies.2.frames) := by
  obtain ⟨first, second, between⟩ := nodup_append.mp distinct
  obtain ⟨freshFirst, freshSecond⟩ := forall_mem_append.mp fresh
  obtain ⟨pages, pagesAre⟩ := @exists_eq _ (iopbPages machine newIopb)
  -- the two pages are mapped, one after the other
  obtain ⟨one, oneIs⟩ := @exists_eq _ (vmContextMap machine.memory (machine.contexts pid) userIoperm pages.1 0
    supplies.1)
  have mapFirst := map_user shared 0 (by decide)
    (fun frame member => ⟨(freshFirst frame member).small, (freshFirst frame member).table⟩) first pid pages.1 oneIs
  obtain ⟨two, twoIs⟩ := @exists_eq _ (vmContextMap one (machine.contexts pid) (userIoperm + 4096) pages.2 0 supplies.2)
  have mapSecond := map_user mapFirst.shared 1 (by decide)
    (fun frame member => ⟨(freshSecond frame member).small, ((freshSecond frame member).table.map mapFirst
      (fun inFirst => between frame inFirst frame member rfl)).2⟩) second pid pages.2 twoIs
  have result : (setIopb machine (machine.contexts pid) newIopb supplies).memory = two := by
    rw [twoIs, oneIs, pagesAre]
    rfl
  rw [result, ← pagesAre]
  refine ⟨mapSecond.shared, ?_, ?_, ?_⟩
  · intro half below
    have canonical := (userIoperm_lawful below).1
    have later := mapSecond.updated.mapped _ canonical
    obtain rfl | rfl : half = 0 ∨ half = 1 := by omega
    · exact later.trans (mapFirst.updated.mapped _ canonical)
    · exact later
  · exact fun who different => (mapFirst.others who different).trans (mapSecond.others who different)
  · intro frame unused absent
    rw [mem_append, not_or] at absent
    obtain ⟨same, still⟩ := unused.map mapFirst absent.1
    exact (still.map mapSecond absent.2).imp_left (fun later => later.trans same)

/-- The memory after a process was given a bitmap. -/
structure Granted (machine : Machine) (memory : Memory) (pid : Nat) (answers : Answers) : Prop where
  shared : Shared { machine with memory := memory }
  user : ∀ half < 2, mapped memory (machine.contexts pid) (userIoperm + 4096 * half) =
    some (if half = 0 then answers.physical / 4096 else answers.physical % 2 ^ 40)
  others : ∀ who, who ≠ some pid → Untouched machine.memory memory (machine.context who)
  contents : ∀ frame ∈ pagesOf answers.physical, memory frame = ones ∧ NoTable { machine with memory := memory } frame
  elsewhere : ∀ frame, NoTable machine frame → frame ∉ answers.frames →
    memory frame = machine.memory frame ∧ NoTable { machine with memory := memory } frame

theorem grant_memory (shared : Shared machine) (answered : Answered machine answers) (pid : Nat) :
    Granted machine (grant machine pid answers).memory pid answers := by
  obtain ⟨pages, supplies, apart⟩ := nodup_append.mp answered.distinct
  obtain ⟨unused, unusedTables⟩ := forall_mem_append.mp answered.unused
  obtain ⟨two, twoIs⟩ := @exists_eq _ ((setIopb machine (machine.contexts pid) answers.physical
    answers.supplies).memory)
  have remapped := setIopb_memory shared unusedTables supplies pid answers.physical
  rw [← twoIs, iopbPages, if_neg answered.nonzero] at remapped
  -- the pages are filled after they were mapped
  obtain ⟨three, threeIs⟩ := @exists_eq _ (grant machine pid answers).memory
  have fill (frame : Nat) : three frame = if frame ∈ pagesOf answers.physical then ones else two frame := by
    rw [threeIs, twoIs]
    simp only [grant, update_apply, pagesOf, mem_cons, not_mem_nil]
    grind [setIopb, capturePages]
  have noTable (frame : Nat) (member : frame ∈ pagesOf answers.physical) : NoTable { machine with memory := two } frame :=
    (remapped.elsewhere frame (unused frame member).table (fun inTables => apart frame member frame inTables rfl)).2
  have filled (who : Option Nat) : Untouched two three (machine.context who) :=
    untouched_of_same (fun path table found =>
      (fill table).trans (if_neg (fun member => noTable table member who path found)))
  have steady : Steady { machine with memory := two } three := steady_of_untouched filled
  rw [← threeIs]
  refine ⟨remapped.shared.steady steady, ?_, ?_, ?_, ?_⟩
  · intro half below
    refine ((filled (some pid)).mapped _).trans ((remapped.user half below).trans (congrArg some ?_))
    have small := (unused (answers.physical / 4096 + 1) (by simp [pagesOf])).small
    split
    · exact Nat.mod_eq_of_lt (by omega)
    · rw [u64_of_lt (by omega), Nat.mul_div_cancel _ (by decide)]
  · exact fun who different => (remapped.others who different).trans (filled who)
  · exact fun frame member => ⟨(fill frame).trans (if_pos member), (noTable frame member).steady steady⟩
  · intro frame unused absent
    rw [Answers.frames, mem_append, not_or] at absent
    obtain ⟨same, still⟩ := remapped.elsewhere frame unused absent.2
    exact ⟨((fill frame).trans (if_neg absent.1)).trans same, still.steady steady⟩

theorem grant_iopb_nonzero (answered : Answered machine answers) (pid : Nat) :
    (grant machine pid answers).iopb pid ≠ 0 := by
  rw [grant_iopb_self]
  exact answered.nonzero

/-- The bitmap of one process is exchanged, those of the others stay as they are. -/
theorem Lodged.exchange {after : Machine} {frames : List Nat} (lodged : Lodged machine on) (shared : Shared after)
    (fresh : ∀ frame ∈ frames, Unused machine frame)
    (elsewhere : ∀ frame, NoTable machine frame → frame ∉ frames →
      after.memory frame = machine.memory frame ∧ NoTable after frame)
    (same : ∀ other, other ≠ pid → after.iopb other = machine.iopb other)
    (new : ∀ frame ∈ after.pages pid, Unused machine frame ∧ NoTable after frame)
    (bits : after.iopb pid ≠ 0 → ∀ port < 65536, bitmapGet after.memory (after.iopb pid) port = !on pid port)
    (off : after.iopb pid = 0 → ∀ port, on pid port = false) : Lodged after on := by
  have theirs {other : Nat} (different : other ≠ pid) : after.pages other = machine.pages other := by
    rw [Machine.pages, Machine.pages, same other different]
  -- the frames of the other bitmaps are not handed out
  have stays {other frame : Nat} (member : frame ∈ machine.pages other) :=
    elsewhere frame (lodged.placed other frame member).2 (fun handed => (fresh frame handed).bitmap other member)
  refine ⟨shared, ?_, ?_, ?_, ?_⟩
  · intro other frame member
    by_cases own : other = pid
    · subst own
      exact ⟨(new frame member).1.small, (new frame member).2⟩
    · rw [theirs own] at member
      exact ⟨(lodged.placed other frame member).1, (stays member).2⟩
  · intro one other different frame inOne inOther
    by_cases own : one = pid
    · subst own
      rw [theirs (Ne.symm different)] at inOther
      exact (new frame inOne).1.bitmap other inOther
    · rw [theirs own] at inOne
      by_cases last : other = pid
      · subst last
        exact (new frame inOther).1.bitmap one inOne
      · rw [theirs last] at inOther
        exact lodged.distinct one other different inOne inOther
  · intro other port granted small
    by_cases own : other = pid
    · subst own
      exact bits granted port small
    · rw [same other own] at granted ⊢
      rw [← lodged.bits other port granted small]
      exact bitmapGet_congr (fun frame member => (stays (pages_granted granted ▸ member)).1) small
  · intro other port none
    by_cases own : other = pid
    · subst own
      exact off none port
    · exact lodged.off other port ((same other own).symm.trans none)

/-- A new bitmap allows nothing and is the only thing that is new. -/
theorem grant_lodged (lodged : Lodged machine on) (none : machine.iopb pid = 0)
    (answered : Answered machine answers) : Lodged (grant machine pid answers) on := by
  have granted := grant_memory lodged.shared answered pid
  have nonzero := grant_iopb_nonzero answered pid
  refine lodged.exchange (granted.shared.iopb _ _) answered.unused granted.elsewhere
    (fun _ different => grant_iopb_other machine answers different) ?_ ?_ (fun gone => absurd gone nonzero)
  · intro frame member
    rw [pages_granted nonzero, grant_iopb_self] at member
    exact ⟨answered.unused frame (mem_append_left _ member), (granted.contents frame member).2⟩
  · intro _ port small
    rw [grant_iopb_self, bitmapGet, (granted.contents _ (bitmapFrame_mem small)).1, ones_bit, lodged.off pid port none]
    rfl

theorem grant_kept (kept : Kept machine on) (none : machine.iopb pid = 0)
    (answered : Answered machine answers) : Kept (grant machine pid answers) on := by
  have granted := grant_memory kept.shared answered pid
  refine ⟨grant_lodged kept.lodged none answered, fun other half below => ?_⟩
  by_cases own : other = pid
  · rw [own, frameFor, grant_iopb_self, if_neg answered.nonzero, if_neg answered.nonzero]
    exact granted.user half below
  · have untouched := granted.others (some other) (fun same => own (some.inj same))
    rw [frameFor, grant_iopb_other _ _ own]
    exact (untouched.mapped _).trans (kept.user other half below)

end

section

variable {first num : Nat}

theorem turned_own (on : Nat → Nat → Bool) (pid first num port : Nat) (turnOn : Bool) :
    turned on pid first num turnOn pid port = if first ≤ port ∧ port < first + num then turnOn else on pid port := by
  rw [turned, update_self]

theorem turned_other (different : other ≠ pid) (turnOn : Bool) :
    turned on pid first num turnOn other = on other := update_of_ne different ..

section

variable (lodged : Lodged machine on) (granted : machine.iopb pid ≠ 0) (inside : first + num ≤ 65536)
include lodged granted inside

theorem switched_untouched (turnOn : Bool) (who : Option Nat) :
    Untouched machine.memory (switched machine pid first num turnOn).memory (machine.context who) := by
  apply untouched_of_same
  intro path table found
  apply changePorts_elsewhere turnOn inside
  rw [← pages_granted granted]
  exact fun member => (lodged.placed pid table member).2 who path found

theorem switched_steady (turnOn : Bool) : Steady machine (switched machine pid first num turnOn).memory :=
  steady_of_untouched (switched_untouched lodged granted inside turnOn)

/-- Changing the bitmap of a process changes its ports and nothing else. -/
theorem switched_lodged (turnOn : Bool) :
    Lodged (switched machine pid first num turnOn) (turned on pid first num turnOn) := by
  apply lodged.change (switched_steady lodged granted inside turnOn)
  · intro other port theirs small
    by_cases own : other = pid
    · rw [own, switched, bitmapGet_changePorts turnOn inside small, turned_own, lodged.bits pid port granted small]
      split <;> rfl
    · rw [turned_other own, ← lodged.bits other port theirs small]
      apply bitmapGet_congr _ small
      intro frame member
      apply changePorts_elsewhere turnOn inside
      rw [← pages_granted theirs] at member
      rw [← pages_granted granted]
      exact lodged.distinct other pid own member
  · intro other port none
    have own : other ≠ pid := by
      rintro rfl
      exact granted none
    rw [turned_other own]
    exact lodged.off other port none

end

theorem switched_kept (kept : Kept machine on) (granted : machine.iopb pid ≠ 0) (inside : first + num ≤ 65536)
    (turnOn : Bool) : Kept (switched machine pid first num turnOn) (turned on pid first num turnOn) :=
  kept.steadily (switched_steady kept.lodged granted inside turnOn) (switched_lodged kept.lodged granted inside turnOn)

/-- A process that has no ports has none to turn off. -/
theorem turned_none (lodged : Lodged machine on) (none : machine.iopb pid = 0) (first num : Nat) :
    turned on pid first num false = on := by
  funext other port
  by_cases own : other = pid
  · rw [own, turned_own, lodged.off pid port none]
    split <;> rfl
  · rw [turned_other own]

/-- A call that does not turn the last port off. -/
theorem ioperm_kept (kept : Kept machine on) (answered : Answered machine answers)
    {turnOn : Bool} (inside : first + num ≤ 65536) (remains : turnOn = false → machine.iopb pid ≠ 0 →
    ∃ port < 65536, on pid port = true ∧ ¬ (first ≤ port ∧ port < first + num)) :
    Kept (scHandleHardwareIoperm machine pid first num turnOn answers) (turned on pid first num turnOn) := by
  rw [scHandleHardwareIoperm]
  rcases ioperm_cases machine pid first num turnOn answers with
    ⟨absent, rfl, result⟩ | ⟨absent, rfl, result⟩ | ⟨there, _, result⟩ | ⟨there, rfl, unseen, result⟩ <;>
    rw [result]
  · rw [turned_none kept.lodged absent]
    exact kept
  · exact switched_kept (grant_kept kept absent answered) (grant_iopb_nonzero answered pid) inside true
  · exact switched_kept kept there inside turnOn
  · -- one of the ports that are on is not among those of the call
    obtain ⟨port, small, isOn, outside⟩ := remains rfl there
    have bit := (switched_kept kept there inside false).bits pid port there small
    rw [turned_own, if_neg outside, isOn] at bit
    exact absurd (unseen.symm.trans (someEnabled_iff.mpr ⟨port, small, bit⟩)) (by decide)

theorem ioperm_first (none : machine.iopb pid = 0) (answers : Answers) :
    scHandleHardwareIoperm machine pid first num true answers =
      switched (grant machine pid answers) pid first num true := by
  rw [scHandleHardwareIoperm, ioperm, if_neg (by simp), if_pos none, if_neg (by simp)]

/-- The first call of a process leaves the frames alone that it was not answered with. -/
theorem ioperm_elsewhere (kept : Kept machine on) (none : machine.iopb pid = 0)
    (answered : Answered machine answers) (inside : first + num ≤ 65536) (noTable : NoTable machine frame)
    (absent : frame ∉ answers.frames) : NoTable (scHandleHardwareIoperm machine pid first num true answers) frame ∧
    (scHandleHardwareIoperm machine pid first num true answers).memory frame = machine.memory frame := by
  obtain ⟨same, still⟩ := (grant_memory kept.shared answered pid).elsewhere frame noTable absent
  have steady := switched_steady (grant_lodged kept.lodged none answered) (grant_iopb_nonzero answered pid) inside true
  rw [Answers.frames, mem_append, not_or] at absent
  rw [ioperm_first none]
  refine ⟨(show NoTable (grant machine pid answers) frame from still).steady steady, ?_⟩
  refine (changePorts_elsewhere true inside ?_).trans same
  rw [grant_iopb_self]
  exact absent.1

end

/-- Being backed is about two frames. -/
theorem backed_congr (stands : memory (standIn machine pid) = machine.memory (standIn machine pid))
    (second : ∀ frame ∈ machine.pages pid, memory frame = machine.memory frame) :
    Backed { machine with memory := memory } pid ↔ Backed machine pid := by
  unfold standIn at stands
  unfold Backed
  by_cases none : machine.iopb pid = 0
  · rw [if_pos none] at stands
    simp only [if_pos none, stands]
  · rw [if_neg none] at stands
    simp only [if_neg none, stands, second (machine.iopb pid / 4096 + 1) (by simp [pages_granted none, pagesOf])]

/-- Entering a context writes no bitmap. -/
theorem enter_lodged (lodged : Lodged machine on) (who : Option Nat) (supplies : Supply × Supply) :
    Lodged (enableIopb machine (machine.context who) supplies) on := by
  obtain ⟨steady, elsewhere, _⟩ := enable_effect lodged.shared who supplies rfl
  exact lodged.steady steady (fun pid frame member => elsewhere frame (lodged.placed pid frame member).2)

theorem enter_kept (kept : Kept machine on) (who : Option Nat) (supplies : Supply × Supply) :
    Kept (enableIopb machine (machine.context who) supplies) on :=
  kept.steadily (enable_effect kept.shared who supplies rfl).1 (enter_lodged kept.lodged who supplies)

/-- The processor finds the frames of a process. -/
def Found (machine : Machine) (pid : Nat) : Prop :=
  ∀ half < 2, mapped machine.memory (machine.contexts pid) (machine.tssIopb + 4096 * half) =
    some (frameFor machine pid half)

theorem enter_found (kept : Kept machine on) (pid : Nat) (supplies : Supply × Supply) :
    Found (enableIopb machine (machine.contexts pid) supplies) pid := by
  obtain ⟨_, _, found⟩ := enable_effect kept.shared (some pid) supplies rfl
  exact fun half below => (found half below).trans (congrArg some (physical_frame kept pid below))

section

variable (noTable : NoTable machine (standIn machine pid))
include noTable

theorem enter_backed (kept : Kept machine on) (supplies : Supply × Supply) :
    Backed (enableIopb machine (machine.contexts pid) supplies) pid ↔ Backed machine pid := by
  obtain ⟨_, elsewhere, _⟩ := enable_effect kept.shared (some pid) supplies rfl
  exact backed_congr (elsewhere _ noTable) (fun frame member => elsewhere _ (kept.placed pid frame member).2)

/-- A process that is entered has its ports exactly if it is backed. -/
theorem enter_allowed (kept : Kept machine on) (supplies : Supply × Supply) :
    (∀ port < 65536, (Allowed (enableIopb machine (machine.contexts pid) supplies) pid port ↔ on pid port = true)) ↔
    Backed machine pid := by
  rw [← enter_backed noTable kept supplies]
  exact allowed_iff (enter_kept kept (some pid) supplies) (enter_found kept pid supplies)

end

/-- The bitmaps are kept, and the processor finds that of the process that runs. -/
structure Settled (traced : Traced) : Prop where
  kept : Kept traced.machine traced.on
  runs : ∀ pid, traced.entered = some pid → Found traced.machine pid ∧ Backed traced.machine pid

theorem Settled.isolated (settled : Settled traced) : Isolated traced :=
  fun pid entered => (allowed_iff settled.kept (settled.runs pid entered).1).mpr (settled.runs pid entered).2

theorem initial_settled (initial : ports.initial traced) : Settled traced := by
  obtain ⟨shared, off, idle, none⟩ := initial
  have nothing (pid : Nat) : traced.machine.pages pid = [] := if_pos (none pid).1
  refine ⟨⟨⟨shared, ?_, ?_, ?_, ?_⟩, ?_⟩, ?_⟩
  · simp [nothing]
  · simp [nothing]
  · exact fun pid _ granted => absurd (none pid).1 granted
  · simp [off]
  · intro pid half below
    rw [if_pos (none pid).1]
    exact (none pid).2 half below
  · exact fun pid entered => nomatch idle.symm.trans entered

section

variable (unused : Unused machine frame) (contents : Fin 512 → VmTableEntry)
include unused

theorem store_untouched (who : Option Nat) :
    Untouched machine.memory (update machine.memory frame contents) (machine.context who) :=
  update_untouched (unused.table who) contents

theorem store_pages (pid read : Nat) (member : read ∈ machine.pages pid) :
    update machine.memory frame contents read = machine.memory read := by
  apply update_of_ne
  rintro rfl
  exact unused.bitmap pid member

/-- The memory may be written where there is no table and nothing of a bitmap. -/
theorem store_lodged (lodged : Lodged machine on) :
    Lodged { machine with memory := update machine.memory frame contents } on :=
  lodged.steady (steady_of_untouched (store_untouched unused contents)) (store_pages unused contents)

end

theorem store_settled (settled : Settled traced) (unused : Unused traced.machine frame)
    (different : ∀ pid, traced.entered = some pid → frame ≠ standIn traced.machine pid)
    (contents : Fin 512 → VmTableEntry) :
    Settled { traced with machine := { traced.machine with
      memory := update traced.machine.memory frame contents } } := by
  have untouched := store_untouched unused contents
  refine ⟨settled.kept.steadily (steady_of_untouched untouched) (store_lodged unused contents settled.kept.lodged), ?_⟩
  intro pid entered
  obtain ⟨found, backed⟩ := settled.runs pid entered
  constructor
  · exact fun half below => ((untouched (some pid)).mapped _).trans (found half below)
  · exact (backed_congr (update_of_ne (different pid entered).symm ..) (store_pages unused contents pid)).mpr backed

theorem step_settled {after : Traced} {event : Event} (settled : Settled traced)
    (step : ports.step traced event after) (meets : Meets traced event) : Settled after := by
  cases event with
  | ioperm pid first num turnOn answers =>
    obtain ⟨_, _, answered, rfl⟩ := step
    exact ⟨ioperm_kept settled.kept answered meets.1 meets.2, nofun⟩
  | enter who supplies =>
    obtain rfl : after = _ := step
    have kept := enter_kept settled.kept who supplies
    cases who with
    | none => exact ⟨kept, nofun⟩
    | some pid =>
      refine ⟨kept, ?_⟩
      rintro _ ⟨⟩
      exact ⟨enter_found settled.kept pid supplies, (enter_backed meets.2 settled.kept supplies).mpr meets.1⟩
  | store frame contents =>
    obtain ⟨unused, rfl⟩ := step
    exact store_settled settled unused meets contents

theorem settled_of_reachable (reachable : (ports.under Meets).Reachable traced) : Settled traced :=
  reachable.invariant (fun _ initial => initial_settled initial)
    (fun _ _ _ settled step => step_settled settled step.2 step.1)

/-- As long as the ports of the calls exist, the last port is not taken back, and the frame in place
of the second page holds what this one holds, a process that runs can use the ports it has on and no
others; whether it can is up to this frame. -/
theorem ports_isolated {traced : Traced} (reachable : (ports.under Meets).Reachable traced) :
    Isolated traced ∧ ∀ pid supplies after, ports.step traced (.enter (some pid) supplies) after →
      NoTable traced.machine (standIn traced.machine pid) → (Isolated after ↔ Backed traced.machine pid) := by
  have settled := settled_of_reachable reachable
  refine ⟨settled.isolated, ?_⟩
  rintro pid supplies after step noTable
  obtain rfl : after = _ := step
  rw [← enter_allowed noTable settled.kept supplies]
  constructor
  · exact fun isolated => isolated pid rfl
  · rintro all _ ⟨⟩
    exact all

section

/-- The tables for the addresses the processor looks at, in the frames 1 to 3; the frames from
`0xFFFFF` on are the contexts, and all others hold the same words. -/
def commonTables (filler : VmTableEntry) : Memory := fun frame index =>
  if 0xFFFFF ≤ frame then if index = 511 then tableEntry 1 0#64 else 0#64
  else if frame = 1 then if index = 510 then tableEntry 2 0#64 else 0#64
  else if frame = 2 then if index = 128 then tableEntry 3 0#64 else 0#64
  else if frame = 3 then 0#64 else filler

def commonMachine (filler : VmTableEntry) : Machine where
  memory := commonTables filler
  kernelContext := 0xFFFFF
  contexts pid := 0x100000 + pid
  tssIopb := 0xFFFFFFFF90001000
  iopb _ := 0
  originalPages := (0, 0)

def commonStart (filler : VmTableEntry) : Traced := ⟨commonMachine filler, fun _ _ => false, none⟩

variable {context table : Nat}

theorem commonMachine_context (filler : VmTableEntry) (who : Option Nat) :
    0xFFFFF ≤ (commonMachine filler).context who := by
  cases who with
  | none => exact le_refl _
  | some pid => exact Nat.le_add_right_of_le (by decide)

theorem commonMachine_context_ne (filler : VmTableEntry) {who other : Option Nat} (different : who ≠ other) :
    (commonMachine filler).context who ≠ (commonMachine filler).context other := by
  intro same
  apply different
  cases who <;> cases other <;> simp [commonMachine, Machine.context] at same ⊢ <;> omega

theorem subtable_pointer {level : Nat} (above : level ≤ 2) (small : table < 2 ^ 40) (here : Prop) [Decidable here] :
    subtable level (if here then tableEntry table 0#64 else 0#64) = if here then some table else none := by
  split
  · have there : present.get (tableEntry table 0#64) ≠ 0 := by
      rw [tableEntry_present]
      decide
    rw [subtable_plain above there (fun _ => by rw [tableEntry_huge, get_zero]), tableEntry_nextBase, Nat.mod_eq_of_lt small]
  · exact subtable_absent (get_zero present)

variable (filler : VmTableEntry)

theorem commonTables_pml4 (isContext : 0xFFFFF ≤ context) (index : Fin 512) :
    subtable 0 (commonTables filler context index) = if index = 511 then some 1 else none := by
  rw [commonTables, if_pos isContext]
  exact subtable_pointer (by decide) (by decide) _

theorem commonTables_pdp (index : Fin 512) :
    subtable 1 (commonTables filler 1 index) = if index = 510 then some 2 else none :=
  subtable_pointer (by decide) (by decide) (index = 510)

theorem commonTables_pd (index : Fin 512) :
    subtable 2 (commonTables filler 2 index) = if index = 128 then some 3 else none :=
  subtable_pointer (by decide) (by decide) (index = 128)

/-- The tables that are found from a context. -/
theorem commonTables_locate (isContext : 0xFFFFF ≤ context) {path : List (Fin 512)}
    (found : locate subtable (commonTables filler) 0 context path = some table) :
    path = [] ∧ table = context ∨ path = [511] ∧ table = 1 ∨ path = [511, 510] ∧ table = 2 ∨
    path = [511, 510, 128] ∧ table = 3 := by
  cases path with
  | nil => exact .inl ⟨rfl, (some.inj found).symm⟩
  | cons first path =>
    rw [locate, commonTables_pml4 filler isContext, bind_eq_some_iff] at found
    obtain ⟨pdp, leads, found⟩ := found
    obtain ⟨rfl, ⟨⟩⟩ := ite_none_right_eq_some.mp leads
    cases path with
    | nil => exact .inr (.inl ⟨rfl, (some.inj found).symm⟩)
    | cons second path =>
      rw [locate, commonTables_pdp, bind_eq_some_iff] at found
      obtain ⟨pd, leads, found⟩ := found
      obtain ⟨rfl, ⟨⟩⟩ := ite_none_right_eq_some.mp leads
      cases path with
      | nil => exact .inr (.inr (.inl ⟨rfl, (some.inj found).symm⟩))
      | cons third path =>
        rw [locate, commonTables_pd, bind_eq_some_iff] at found
        obtain ⟨pt, leads, found⟩ := found
        obtain ⟨rfl, ⟨⟩⟩ := ite_none_right_eq_some.mp leads
        cases path with
        | nil => exact .inr (.inr (.inr ⟨rfl, (some.inj found).symm⟩))
        | cons fourth path =>
          cases found

theorem commonTables_located (isContext : 0xFFFFF ≤ context) :
    locate subtable (commonTables filler) 0 context [511, 510, 128] = some 3 := by
  rw [locate, commonTables_pml4 filler isContext, if_pos rfl, bind_some, locate, commonTables_pdp, if_pos rfl,
    bind_some, locate, commonTables_pd, if_pos rfl, bind_some, locate]

theorem commonTables_plain (isContext : 0xFFFFF ≤ context) (virt : Nat) : Plain (commonTables filler) context virt := by
  have pointer (target : Nat) (here : Prop) [Decidable here] :
      huge.get (if here then tableEntry target 0#64 else 0#64) = 0 := by
    split
    · rw [tableEntry_huge, get_zero]
    · exact get_zero huge
  intro _ index _ reads _
  rcases commonTables_locate filler isContext reads.2 with ⟨_, rfl⟩ | ⟨_, rfl⟩ | ⟨_, rfl⟩ | ⟨_, rfl⟩
  · rw [commonTables, if_pos isContext]
    exact pointer 1 _
  · exact pointer 2 (index = 510)
  · exact pointer 3 (index = 128)
  · exact get_zero huge

theorem commonMachine_shared : Shared (commonMachine filler) where
  wellFormed who := by
    intro left right table atLeft atRight
    have isContext := commonMachine_context filler who
    rcases commonTables_locate filler isContext atLeft with ⟨rfl, here⟩ | ⟨rfl, here⟩ | ⟨rfl, here⟩ | ⟨rfl, here⟩ <;>
      rcases commonTables_locate filler isContext atRight with ⟨rfl, there⟩ | ⟨rfl, there⟩ | ⟨rfl, there⟩ | ⟨rfl, there⟩ <;>
      first
      | rfl
      | omega
  plain pid _ _ := commonTables_plain filler (commonMachine_context filler (some pid)) _
  apart pid who different := by
    intro before table inside found path again
    have isContext := commonMachine_context filler (some pid)
    have distinct := commonMachine_context_ne filler different
    rcases commonTables_locate filler isContext found with ⟨_, here⟩ | ⟨rfl, _⟩ | ⟨rfl, _⟩ | ⟨rfl, _⟩
    · have there := commonTables_locate filler (commonMachine_context filler who) again
      omega
    · exact absurd inside (by decide)
    · exact absurd inside (by decide)
    · exact absurd inside (by decide)
  tables half below := by
    have same : way (0xFFFFFFFF90001000 + 4096 * half) = [511, 510, 128] := by
      obtain rfl | rfl : half = 0 ∨ half = 1 := by omega
      · decide
      · decide
    refine ⟨3, fun who => ?_⟩
    change locate subtable (commonTables filler) 0 _ (way (0xFFFFFFFF90001000 + 4096 * half)) = _
    rw [same]
    exact commonTables_located filler (commonMachine_context filler who)
  kernel := by
    change 0xFFFFFFFF90001000 % 4096 = 0 ∧ _ ≤ 0xFFFFFFFF90001000 ∧ 0xFFFFFFFF90001000 + 8192 ≤ 2 ^ 64
    decide

theorem commonTables_absent (isContext : 0xFFFFF ≤ context) (user : pml4Index virt ≠ 511) :
    mapped (commonTables filler) context virt = none := by
  have entry : commonTables filler context (pml4Index virt) = 0#64 := by
    rw [commonTables, if_pos isContext, if_neg user]
  have stopped : leaf (commonTables filler) context virt = some (0, 0#64) := by
    rw [leaf, indices, stop, entry, subtable_absent (get_zero present)]
  exact mapped_absent stopped (get_zero present)

theorem commonStart_initial : ports.initial (commonStart filler) := by
  refine ⟨commonMachine_shared filler, rfl, rfl, ?_⟩
  refine fun pid => ⟨rfl, fun half below => ?_⟩
  apply commonTables_absent filler (commonMachine_context filler (some pid))
  obtain rfl | rfl : half = 0 ∨ half = 1 := by omega
  · decide
  · decide

theorem commonMachine_unused (small : frame < 0xFFFFF) (noTable : frame ≠ 1 ∧ frame ≠ 2 ∧ frame ≠ 3) :
    Unused (commonMachine filler) frame where
  small := lt_trans small (by decide)
  table who path found := by
    have isContext := commonMachine_context filler who
    have tables := commonTables_locate filler isContext found
    omega
  bitmap _ := not_mem_nil

def portAnswers : Answers := ⟨0x4000, ⟨6, 7, 8⟩, ⟨9, 10, 11⟩⟩

theorem portAnswers_answered : Answered (commonMachine filler) portAnswers where
  aligned := by decide
  nonzero := by decide
  distinct := by decide
  unused := by
    have inside : ∀ frame ∈ portAnswers.frames, frame < 0xFFFFF ∧ frame ≠ 1 ∧ frame ≠ 2 ∧ frame ≠ 3 := by decide
    exact fun frame member => commonMachine_unused filler (inside frame member).1 (inside frame member).2

/-- A process has asked for the first port of the keyboard. -/
def keyboardMachine : Machine := scHandleHardwareIoperm (commonMachine filler) 5 0x60 1 true portAnswers

def keyboardAnswered : Traced := ⟨keyboardMachine filler, turned (fun _ _ => false) 5 0x60 1 true, none⟩

theorem keyboard_step : ports.step (commonStart filler) (.ioperm 5 0x60 1 true portAnswers) (keyboardAnswered filler) :=
  ⟨by decide, by decide, portAnswers_answered filler, rfl⟩

theorem keyboardMachine_kept : Kept (keyboardMachine filler) (turned (fun _ _ => false) 5 0x60 1 true) :=
  ioperm_kept (initial_settled (commonStart_initial filler)).kept (portAnswers_answered filler) (by decide) nofun

/-- The frame `0x4000` takes the place of the second page of its bitmap, which is frame 5. -/
theorem keyboardMachine_standIn : standIn (keyboardMachine filler) 5 = 0x4000 ∧
    NoTable (keyboardMachine filler) 0x4000 ∧ (Backed (keyboardMachine filler) 5 ↔ filler = BitVec.allOnes 64) := by
  have kept := (initial_settled (commonStart_initial filler)).kept
  have answered := portAnswers_answered filler
  have unused : Unused (commonMachine filler) 0x4000 := commonMachine_unused filler (by decide) (by decide)
  have elsewhere : NoTable (keyboardMachine filler) 0x4000 ∧
      (keyboardMachine filler).memory 0x4000 = (commonMachine filler).memory 0x4000 :=
    ioperm_elsewhere kept rfl answered (by decide) unused.table (by decide)
  have own : (keyboardMachine filler).iopb 5 = 0x4000 := by
    rfl
  have second : (keyboardMachine filler).memory 5 = ones := by
    rw [keyboardMachine, ioperm_first rfl, switched, grant_iopb_self]
    exact ((grant_memory (commonMachine_shared filler) answered 5).contents 5 (by decide)).1
  have stands : (keyboardMachine filler).memory 0x4000 = fun _ => filler := elsewhere.2
  refine ⟨?_, elsewhere.1, ?_⟩
  · rfl
  · have backed : Backed (keyboardMachine filler) 5 ↔
        (keyboardMachine filler).memory 0x4000 = (keyboardMachine filler).memory 5 := by
      rw [Backed, own]
      exact Iff.rfl
    rw [backed, stands, second]
    constructor
    · exact fun same => congrFun same 0
    · rintro rfl
      rfl

def entering (traced : Traced) : Traced :=
  ⟨enableIopb traced.machine (traced.machine.contexts 5) portAnswers.supplies, traced.on, some 5⟩

/-- A process that asked for a port has this port if the frame in place of the second page is full
of ones. -/
theorem ports_isolated_keyboard : ∃ traced, (ports.under Meets).Run (commonStart (BitVec.allOnes 64))
      [.ioperm 5 0x60 1 true portAnswers, .enter (some 5) portAnswers.supplies] traced ∧
    traced.entered = some 5 ∧ ∀ port < 65536, (Allowed traced.machine 5 port ↔ port = 0x60) := by
  obtain ⟨stands, noTable, backed⟩ := keyboardMachine_standIn (BitVec.allOnes 64)
  have asked : (ports.under Meets).Run (commonStart (BitVec.allOnes 64)) [.ioperm 5 0x60 1 true portAnswers]
      (keyboardAnswered (BitVec.allOnes 64)) :=
    .next .done ⟨⟨by decide, nofun⟩, keyboard_step _⟩
  have meets : Meets (keyboardAnswered (BitVec.allOnes 64)) (.enter (some 5) portAnswers.supplies) := by
    refine ⟨backed.mpr rfl, ?_⟩
    exact noTable
  have run : (ports.under Meets).Run (commonStart (BitVec.allOnes 64))
      [.ioperm 5 0x60 1 true portAnswers, .enter (some 5) portAnswers.supplies]
      (entering (keyboardAnswered (BitVec.allOnes 64))) := .next asked ⟨meets, rfl⟩
  refine ⟨_, run, rfl, ?_⟩
  intro port small
  refine ((ports_isolated ⟨_, _, commonStart_initial _, run⟩).1 5 rfl port small).trans ?_
  have ports : (entering (keyboardAnswered (BitVec.allOnes 64))).on 5 port =
      if 0x60 ≤ port ∧ port < 0x60 + 1 then true else false :=
    turned_own (fun _ _ => false) 5 0x60 1 port true
  rw [ports]
  split
  · next here => exact ⟨fun _ => by omega, fun _ => rfl⟩
  · next other => exact ⟨nofun, fun same => absurd same (by omega)⟩

/-- A process that never asked for a port has all of them if the first frame is full of zeros, and
one that asked for a single port has more than this one. -/
theorem ports_leak : (∃ traced, ports.Run (commonStart 0#64) [.enter (some 5) portAnswers.supplies] traced ∧
      ∀ port < 65536, Allowed traced.machine 5 port ∧ traced.on 5 port = false) ∧
    ∃ traced, ports.Run (commonStart 0#64)
      [.ioperm 5 0x60 1 true portAnswers, .enter (some 5) portAnswers.supplies] traced ∧ ¬ Isolated traced := by
  have kept := (initial_settled (commonStart_initial 0#64)).kept
  constructor
  · refine ⟨entering (commonStart 0#64), .next .done rfl, ?_⟩
    intro port small
    refine ⟨(allowed_at (enter_found kept 5 portAnswers.supplies _ (by omega))).mpr ?_, rfl⟩
    exact BitVec.getLsbD_zero
  · refine ⟨entering (keyboardAnswered 0#64), .next (.next .done (keyboard_step 0#64)) rfl, ?_⟩
    intro isolated
    obtain ⟨stands, noTable, backed⟩ := keyboardMachine_standIn 0#64
    rw [← stands] at noTable
    have all := (enter_allowed noTable (keyboardMachine_kept 0#64) portAnswers.supplies).mp (isolated 5 rfl)
    exact absurd (backed.mp all) (by decide)

end

end Lfos.PortPermissions
