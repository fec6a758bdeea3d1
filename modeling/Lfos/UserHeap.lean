import Lfos.ContextFamilies

/-!
# The heap of a process

A program moves the end of its heap by `sbrk`. When the end goes up, the pages up to it are
mapped to fresh frames where there is none, and when it goes down the pages stay. The new
end is the old one plus the increment as a word of 64 bits: it is not compared with
anything, so the program decides where its heap ends.

The free frames are left out: a call brings the answers of the allocator.
-/

namespace Lfos.UserHeap

open PageTables Transitions Words Function

/-- The frame for a page, as its address, and those for the tables on the way to it. -/
structure Answer where
  physical : Nat
  supply : Supply

/-- `~0xFFF` -/
def pageMask : Nat := 0xFFFFFFFFFFFFF000

def zeroFrame (memory : Memory) (frame : Nat) : Memory := Function.update memory frame (fun _ => 0#64)

/-- Map a page where there is none. -/
def growPage (memory : Memory) (context virt : Nat) (answer : Answer) : Memory :=
  if vmContextGetPhysicalForVirtual memory context virt = 0 then
    vmContextMap (zeroFrame memory (answer.physical / 4096)) context virt answer.physical 0 answer.supply
  else memory

def growPages (context newEnd : Nat) (answers : Nat → Answer) : Nat → Nat → Memory → Option Memory
  | 0, _, _ => none
  | rounds + 1, virt, memory =>
    if virt < newEnd then
      growPages context newEnd answers rounds (u64 (virt + 4096)) (growPage memory context virt (answers virt))
    else some memory

/-- Only an address in the first page passes the test. -/
def shrinkPage (memory : Memory) (context virt : Nat) : Memory :=
  if virt &&& pageMask = 0 then vmContextUnmap memory context virt else memory

def shrinkPages (context newEnd : Nat) : Nat → Nat → Memory → Option Memory
  | 0, _, _ => none
  | rounds + 1, virt, memory =>
    if newEnd < virt then shrinkPages context newEnd rounds (u64Sub virt 4096) (shrinkPage memory context virt)
    else some memory

structure Process where
  memory : Memory
  context : Nat
  heapStart : Nat
  heapEnd : Nat

/-- The sum of a word and a signed one. -/
def advance (word : Nat) (inc : Int) : Nat := ((word + inc) % 2 ^ 64).toNat

def Process.grow (rounds : Nat) (answers : Nat → Answer) (process : Process) (inc : Int) : Option Memory :=
  if 0 < inc then
    growPages process.context (advance process.heapEnd inc) answers rounds (process.heapEnd &&& pageMask) process.memory
  else some process.memory

def Process.shrink (rounds : Nat) (process : Process) (inc : Int) (memory : Memory) : Option Memory :=
  if inc < 0 then shrinkPages process.context (advance process.heapEnd inc) rounds process.heapEnd memory
  else some memory

def scHandleMemorySbrk (rounds : Nat) (answers : Nat → Answer) (process : Process) (inc : Int) :
    Option (Nat × Process) := do
  let grown ← process.grow rounds answers inc
  let memory ← process.shrink rounds inc grown
  some (process.heapEnd, { process with memory := memory, heapEnd := advance process.heapEnd inc })

/-- The frames for a page and for the tables on the way to it are not in use as tables. -/
def Answered (memory : Memory) (context virt : Nat) (answer : Answer) : Prop :=
  vmContextGetPhysicalForVirtual memory context virt = 0 →
    answer.physical < 2 ^ 52 ∧ Fresh memory context (answer.physical / 4096) ∧
      Supplied (zeroFrame memory (answer.physical / 4096)) context virt answer.supply

/-- The allocator answers so in every round. -/
def AnsweredAll (context newEnd : Nat) (answers : Nat → Answer) : Nat → Nat → Memory → Prop
  | 0, _, _ => True
  | rounds + 1, virt, memory =>
    virt < newEnd → Answered memory context virt (answers virt) ∧
      AnsweredAll context newEnd answers rounds (u64 (virt + 4096)) (growPage memory context virt (answers virt))

/-- Where the user's half of the addresses ends. -/
def userEnd : Nat := 0x0000800000000000

def userStackStart : Nat := 0x00003F0000001000

/-- A process that was just started: its heap ends below the stacks, and its pages are small. -/
structure Started (process : Process) : Prop where
  ordered : process.heapStart ≤ process.heapEnd
  below : process.heapEnd ≤ userStackStart
  wellFormed : WellFormed process.memory process.context
  plain : ∀ virt < userEnd, Plain process.memory process.context virt

def sbrks : System Process Int where
  initial := Started
  step process inc after := -2 ^ 63 ≤ inc ∧ inc < 2 ^ 63 ∧ ∃ rounds answers oldEnd,
    (0 < inc → AnsweredAll process.context (advance process.heapEnd inc) answers rounds (process.heapEnd &&& pageMask)
      process.memory) ∧
    scHandleMemorySbrk rounds answers process inc = some (oldEnd, after)

/-- The heap is in the user's half. -/
def Inside (process : Process) : Prop := process.heapStart ≤ process.heapEnd ∧ process.heapEnd < userEnd

instance (process : Process) : Decidable (Inside process) := inferInstanceAs (Decidable (_ ∧ _))

/-- The new end is not before the heap and in the user's half. -/
def Fits (process : Process) (inc : Int) : Prop :=
  process.heapStart ≤ process.heapEnd + inc ∧ process.heapEnd + inc < userEnd

theorem and_pageMask {word : Nat} (small : word < 2 ^ 64) : word &&& pageMask = word / 4096 * 4096 := by
  have mask : pageMask = (2 ^ 52 - 1) <<< 12 := by decide
  have cut : word / 4096 * 4096 = word >>> 12 <<< 12 := by
    rw [Nat.shiftLeft_eq, Nat.shiftRight_eq_div_pow]
  rw [mask, cut]
  apply Nat.eq_of_testBit_eq
  intro bit
  rw [Nat.testBit_and, Nat.testBit_shiftLeft, Nat.testBit_shiftLeft, Nat.testBit_shiftRight,
    Nat.testBit_two_pow_sub_one]
  by_cases low : bit < 12
  · have short : ¬ bit ≥ 12 := by omega
    simp [short]
  · have same : 12 + (bit - 12) = bit := by omega
    rw [same]
    by_cases inside : bit - 12 < 52
    · simp [inside, Bool.and_comm]
    · have absent : word.testBit bit = false := by
        apply Nat.testBit_lt_two_pow
        calc word < 2 ^ 64 := small
          _ ≤ 2 ^ bit := Nat.pow_le_pow_right (by decide) (by omega)
      simp [absent]

variable {rounds : Nat} {answers : Nat → Answer}

section

/-- The small pages of the user's half may have changed, and no other page. -/
structure Below (context : Nat) (memory after : Memory) : Prop where
  wellFormed : WellFormed after context
  plain : ∀ virt < userEnd, Plain after context virt
  upper : ∀ virt, Canonical virt → userEnd ≤ virt → mapped after context virt = mapped memory context virt

variable {memory after : Memory} {context newEnd virt : Nat}

theorem Below.refl (wellFormed : WellFormed memory context) (plain : ∀ virt < userEnd, Plain memory context virt) :
    Below context memory memory :=
  ⟨wellFormed, plain, fun _ _ _ => rfl⟩

theorem Below.trans {middle : Memory} (first : Below context memory middle) (second : Below context middle after) :
    Below context memory after where
  wellFormed := second.wellFormed
  plain := second.plain
  upper virt canonical above := (second.upper virt canonical above).trans (first.upper virt canonical above)

/-- An update of a page of the user's half. -/
theorem updated_below {frame : Option Nat} (plain : ∀ virt < userEnd, Plain memory context virt) (low : virt < userEnd)
    (updated : Updated memory after context virt frame) : Below context memory after where
  wellFormed := updated.wellFormed
  plain other below := updated.plain other (plain other below)
  upper other canonical above := by
    rw [updated.mapped other canonical, if_neg]
    unfold userEnd at *
    omega

section

variable (wellFormed : WellFormed memory context) (plain : ∀ virt < userEnd, Plain memory context virt)
include wellFormed plain

theorem growPage_below (low : virt < userEnd) {answer : Answer} (answered : Answered memory context virt answer) :
    Below context memory (growPage memory context virt answer) := by
  unfold growPage
  split
  next absent =>
    obtain ⟨small, fresh, supplied⟩ := answered absent
    have untouched : Untouched memory (zeroFrame memory (answer.physical / 4096)) context := update_untouched fresh.2 _
    have zeroed : Below context memory (zeroFrame memory (answer.physical / 4096)) :=
      ⟨untouched.wellFormed wellFormed, fun other below => untouched.plain (plain other below),
        fun other _ _ => untouched.mapped other⟩
    apply zeroed.trans
    apply updated_below zeroed.plain low
    apply map_updated zeroed.wellFormed (.inl low) _ small (zeroed.plain virt low) supplied
    unfold DirectlyMapped directMappingStart userEnd at *
    omega
  next there => exact .refl wellFormed plain

theorem growPages_below (inside : newEnd ≤ userEnd) (answered : AnsweredAll context newEnd answers rounds virt memory)
    (done : growPages context newEnd answers rounds virt memory = some after) : Below context memory after := by
  induction rounds generalizing virt memory with
  | zero => exact nomatch done
  | succ rounds ih =>
    rw [growPages] at done
    split at done
    next more =>
      obtain ⟨here, later⟩ := answered more
      have first := growPage_below wellFormed plain (by omega) here
      exact first.trans (ih first.wellFormed first.plain later done)
    next ended =>
      cases done
      exact .refl wellFormed plain

theorem shrinkPages_below (word : virt < 2 ^ 64) (done : shrinkPages context newEnd rounds virt memory = some after) :
    Below context memory after := by
  induction rounds generalizing virt memory with
  | zero => exact nomatch done
  | succ rounds ih =>
    rw [shrinkPages] at done
    split at done
    next more =>
      have first : Below context memory (shrinkPage memory context virt) := by
        unfold shrinkPage
        split
        next masked =>
          rw [and_pageMask word] at masked
          have low : virt < userEnd := by
            unfold userEnd
            omega
          exact updated_below plain low (unmap_updated wellFormed (.inl low) (plain virt low))
        next => exact .refl wellFormed plain
      exact first.trans (ih first.wellFormed first.plain (u64Sub_lt ..) done)
    next ended =>
      cases done
      exact .refl wellFormed plain

end

/-- The pages up to an end in the user's half are gone through. -/
theorem growPages_returns (inside : newEnd ≤ userEnd) (enough : newEnd ≤ virt + 4096 * rounds) (memory : Memory) :
    ∃ after, growPages context newEnd answers (rounds + 1) virt memory = some after := by
  induction rounds generalizing virt memory with
  | zero => exact ⟨memory, by rw [growPages, if_neg (by omega)]⟩
  | succ rounds ih =>
    rw [growPages]
    split
    next more =>
      have next : u64 (virt + 4096) = virt + 4096 := u64_of_lt (by unfold userEnd at inside; omega)
      exact ih (by omega) _
    next ended => exact ⟨memory, rfl⟩

/-- So are those down to an end behind the first page. -/
theorem shrinkPages_returns (word : virt < 2 ^ 64) (behind : 4096 ≤ newEnd) (enough : virt ≤ newEnd + 4096 * rounds)
    (memory : Memory) : ∃ after, shrinkPages context newEnd (rounds + 1) virt memory = some after := by
  induction rounds generalizing virt memory with
  | zero => exact ⟨memory, by rw [shrinkPages, if_neg (by omega)]⟩
  | succ rounds ih =>
    rw [shrinkPages]
    split
    next more =>
      rw [u64Sub_of_le (by omega) word]
      exact ih (by omega) (by omega) _
    next ended => exact ⟨memory, rfl⟩

end

section

variable {process after : Process} {inc : Int} {oldEnd : Nat}

/-- What a call does that returns. -/
theorem sbrk_cases (done : scHandleMemorySbrk rounds answers process inc = some (oldEnd, after)) :
    ∃ grown memory, process.grow rounds answers inc = some grown ∧ process.shrink rounds inc grown = some memory ∧
    after = { process with memory := memory, heapEnd := advance process.heapEnd inc } := by
  obtain ⟨grown, first, further⟩ := Option.bind_eq_some_iff.mp done
  obtain ⟨memory, second, same⟩ := Option.bind_eq_some_iff.mp further
  cases same
  exact ⟨grown, memory, first, second, rfl⟩

/-- The end is in bounds exactly if the sum is. -/
theorem advance_inside {word start : Nat} (low : word < userEnd) (small : -2 ^ 63 ≤ inc) (large : inc < 2 ^ 63) :
    start ≤ advance word inc ∧ advance word inc < userEnd ↔ start ≤ word + inc ∧ word + inc < userEnd := by
  unfold advance userEnd at *
  omega

/-- The heap of a process as it was started, moved within the user's half. -/
structure Held (start process : Process) : Prop where
  context : process.context = start.context
  heapStart : process.heapStart = start.heapStart
  inside : Inside process
  pages : Below start.context start.memory process.memory

theorem step_held {start : Process} (held : Held start process) (fits : Fits process inc)
    (taken : sbrks.step process inc after) : Held start after := by
  obtain ⟨small, large, rounds, answers, oldEnd, answered, done⟩ := taken
  obtain ⟨grown, memory, growth, shrinking, rfl⟩ := sbrk_cases done
  have bounds : process.heapStart ≤ advance process.heapEnd inc ∧ advance process.heapEnd inc < userEnd :=
    (advance_inside held.inside.2 small large).mpr fits
  have pages := held.pages
  rw [← held.context] at pages
  have grew : Below process.context process.memory grown := by
    unfold Process.grow at growth
    split at growth
    next more => exact growPages_below pages.wellFormed pages.plain (le_of_lt bounds.2) (answered more) growth
    · cases growth
      exact .refl pages.wellFormed pages.plain
  have shrank : Below process.context grown memory := by
    unfold Process.shrink at shrinking
    split at shrinking
    · refine shrinkPages_below grew.wellFormed grew.plain ?_ shrinking
      have end_ := held.inside.2
      unfold userEnd at end_
      omega
    · cases shrinking
      exact .refl grew.wellFormed grew.plain
  refine ⟨held.context, held.heapStart, bounds, ?_⟩
  rw [← held.context]
  exact pages.trans (grew.trans shrank)

theorem run_held {start : Process} {events : List Int} (started : Started start)
    (run : (sbrks.under Fits).Run start events process) : Held start process := by
  apply run.keeps
  · refine ⟨rfl, rfl, ⟨started.ordered, ?_⟩, .refl started.wellFormed started.plain⟩
    exact lt_of_le_of_lt started.below (by decide)
  · intro state event next held taken
    exact step_held held taken.1 taken.2

/-- A call returns if the new end is behind the first page. -/
theorem sbrk_returns (inside : Inside process) (fits : Fits process inc) (behind : inc < 0 → 4096 ≤ process.heapEnd + inc)
    (small : -2 ^ 63 ≤ inc) (large : inc < 2 ^ 63) (answers : Nat → Answer) :
    ∃ rounds result, scHandleMemorySbrk rounds answers process inc = some result := by
  have bounds : process.heapStart ≤ advance process.heapEnd inc ∧ advance process.heapEnd inc < userEnd :=
    (advance_inside inside.2 small large).mpr fits
  have word : process.heapEnd < 2 ^ 64 := by
    have low := inside.2
    unfold userEnd at low
    omega
  -- one bound on the rounds serves both directions
  have rounds : ∃ count, process.heapEnd ≤ 4096 * count ∧ advance process.heapEnd inc ≤ 4096 * count :=
    ⟨process.heapEnd + advance process.heapEnd inc, by omega, by omega⟩
  obtain ⟨count, first, second⟩ := rounds
  obtain ⟨grown, grew⟩ : ∃ grown, process.grow (count + 1) answers inc = some grown := by
    unfold Process.grow
    split
    · exact growPages_returns (le_of_lt bounds.2) (by omega) process.memory
    · exact ⟨_, rfl⟩
  obtain ⟨memory, shrank⟩ : ∃ memory, process.shrink (count + 1) inc grown = some memory := by
    unfold Process.shrink
    split
    · refine shrinkPages_returns word ?_ (by omega) grown
      unfold advance
      omega
    · exact ⟨_, rfl⟩
  refine ⟨count + 1, (process.heapEnd, { process with memory := memory, heapEnd := advance process.heapEnd inc }), ?_⟩
  simp only [scHandleMemorySbrk, grew, shrank, bind, Option.bind]

/-- Calls whose sum stays between the start of the heap and the end of the user's half: the heap
stays there, and no page of the upper half is mapped. The next call keeps the heap there
exactly if its sum is there, too. -/
theorem sbrk_stays_inside {start : Process} {events : List Int} (started : Started start)
    (run : (sbrks.under Fits).Run start events process) :
    Inside process ∧ (∀ virt, Canonical virt → userEnd ≤ virt →
        mapped process.memory process.context virt = mapped start.memory start.context virt) ∧
      (∀ inc after, sbrks.step process inc after → (Inside after ↔ Fits process inc)) ∧
      ∀ inc answers, -2 ^ 63 ≤ inc → inc < 2 ^ 63 → Fits process inc → (inc < 0 → 4096 ≤ process.heapEnd + inc) →
        ∃ rounds result, scHandleMemorySbrk rounds answers process inc = some result := by
  have held := run_held started run
  refine ⟨held.inside, ?_, ?_, ?_⟩
  · intro virt canonical above
    rw [held.context]
    exact held.pages.upper virt canonical above
  · rintro inc after ⟨small, large, rounds, answers, oldEnd, _, done⟩
    obtain ⟨_, memory, _, _, rfl⟩ := sbrk_cases done
    exact advance_inside held.inside.2 small large
  · intro inc answers small large fits behind
    exact sbrk_returns held.inside fits behind small large answers

end

/-- A process without a page, whose heap is empty. -/
def blankProcess : Process := ⟨blank, 0, 0x400000, 0x400000⟩

theorem blank_started : Started blankProcess :=
  ⟨le_refl _, by decide, blank_wellFormed 0, fun virt _ => blank_plain 0 virt⟩

def firstAnswer : Answer := ⟨0x5000, firstSupply⟩

theorem zeroFrame_blank (frame : Nat) : zeroFrame blank frame = blank := by
  funext table index
  rw [zeroFrame]
  by_cases here : table = frame
  · rw [here, update_self]
    rfl
  · rw [update_of_ne here]

theorem blank_answered (virt : Nat) : Answered blank 0 virt firstAnswer := by
  intro _
  refine ⟨by decide, blank_fresh (by decide) (by decide), ?_⟩
  rw [zeroFrame_blank]
  exact blank_supplied virt

/-- A page is mapped at the end of an empty heap. -/
theorem first_page {heapStart heapEnd : Nat} (aligned : heapEnd % 4096 = 0) (small : heapEnd + 4096 < 2 ^ 64) :
    sbrks.step ⟨blank, 0, heapStart, heapEnd⟩ 4096
    ⟨growPage blank 0 heapEnd firstAnswer, 0, heapStart, heapEnd + 4096⟩ := by
  have ends : advance heapEnd 4096 = heapEnd + 4096 := by
    unfold advance
    omega
  have first : heapEnd &&& pageMask = heapEnd := by
    rw [and_pageMask (by omega)]
    omega
  have next : u64 (heapEnd + 4096) = heapEnd + 4096 := u64_of_lt small
  refine ⟨by decide, by decide, 2, fun _ => firstAnswer, heapEnd, ?_, ?_⟩
  · intro _
    rw [ends, first, AnsweredAll]
    intro _
    refine ⟨blank_answered heapEnd, ?_⟩
    rw [AnsweredAll, next]
    exact fun more => absurd more (lt_irrefl _)
  · rw [scHandleMemorySbrk, Process.grow, if_pos (by decide), ends, first, growPages, if_pos (by omega), growPages, next,
      if_neg (lt_irrefl _)]
    rfl

/-- The first page of a heap. -/
theorem sbrk_stays_inside_first_page : ∃ process, (sbrks.under Fits).Run blankProcess [4096] process ∧
    Inside process ∧ ∀ virt, Canonical virt → userEnd ≤ virt →
      mapped process.memory process.context virt = mapped blank 0 virt := by
  have run : (sbrks.under Fits).Run blankProcess [4096]
      ⟨growPage blank 0 0x400000 firstAnswer, 0, 0x400000, 0x401000⟩ :=
    .next .done ⟨⟨by decide, by decide⟩, first_page (by decide) (by decide)⟩
  obtain ⟨inside, upper, _⟩ := sbrk_stays_inside blank_started run
  exact ⟨_, run, inside, upper⟩

/-- Where the kernel's own heap starts. -/
def kernelHeap : Nat := 0xFFFFFFFF90000000

/-- A program moves the end of its heap below zero and then up by a page. -/
theorem sbrk_maps_kernel_page : ∃ moved process, sbrks.Run blankProcess [-0x70400000] moved ∧ ¬ Inside moved ∧
    sbrks.Run blankProcess [-0x70400000, 4096] process ∧ ¬ Inside process ∧
    mapped blankProcess.memory 0 kernelHeap = none ∧ mapped process.memory 0 kernelHeap = some 5 := by
  have below : sbrks.step blankProcess (-0x70400000) ⟨blank, 0, 0x400000, kernelHeap⟩ := by
    exact ⟨by decide, by decide, 1, fun _ => firstAnswer, 0x400000, fun more => absurd more (by decide), rfl⟩
  have first : sbrks.Run blankProcess [-0x70400000] ⟨blank, 0, 0x400000, kernelHeap⟩ := .next .done below
  refine ⟨_, _, first, by decide, .next first (first_page (by decide) (by decide)), by decide, ?_, ?_⟩
  · decide +kernel
  · decide +kernel

end Lfos.UserHeap
