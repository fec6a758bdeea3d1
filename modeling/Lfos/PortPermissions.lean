import Lfos.ContextFamilies

/-!
# Permissions for I/O ports

A process asks for I/O ports and gives them back. Its permissions are kept as a bitmap of two
page frames, in which a cleared bit allows a port, and these frames are mapped into its
context. Whenever the process is entered, the frames found there are mapped to the addresses
of the bitmap that belongs to the task state segment, which the processor looks at. The tables
of these addresses are shared by all contexts.

The frame of the second page is computed by a product instead of a sum, and for a process
that never asked for a port the first page frame of the memory takes the place of both.

The free frames are left out: a call brings the answers of the allocator. The bytes of a
bitmap are kept as words, so that bit `entry` is bit `entry % 64` of word `entry / 64`.
-/

namespace Lfos.PortPermissions

open PageTables TableTrees Transitions Words BitVec
open Function (update update_of_ne update_self)

/-- `ALLOCATOR_REGION_USER_IOPERM.start` -/
def userIoperm : Nat := 0x00007FFFFFFFE000

structure Machine where
  memory : Memory
  kernelContext : Nat
  /-- The contexts of the processes. -/
  contexts : Nat → Nat
  /-- The address of the bitmap of the task state segment. -/
  tssIopb : Nat
  /-- The physical addresses of the bitmaps of the processes, zero if there is none. -/
  iopb : Nat → Nat
  originalPages : Nat × Nat

def capturePages (machine : Machine) : Nat × Nat :=
  if machine.originalPages.1 = 0 ∧ machine.originalPages.2 = 0 then
    (vmContextGetPhysicalForVirtual machine.memory machine.kernelContext machine.tssIopb,
      vmContextGetPhysicalForVirtual machine.memory machine.kernelContext (machine.tssIopb + 4096))
  else machine.originalPages

/-- The second page is mapped to the product of the address and the size of a page. -/
def setIopb (machine : Machine) (context newIopb : Nat) (supplies : Supply × Supply) : Machine :=
  let originalPages := capturePages machine
  let pages := if newIopb = 0 then originalPages else (newIopb, u64 (newIopb * 4096))
  let first := vmContextMap machine.memory context userIoperm pages.1 0 supplies.1
  { machine with
    memory := vmContextMap first context (userIoperm + 4096) pages.2 0 supplies.2
    originalPages := originalPages }

/-- A page with all bits set. -/
def ones : Fin 512 → VmTableEntry := fun _ => BitVec.allOnes 64

def bitmapFrame (physical entry : Nat) : Nat := physical / 4096 + entry / 32768

def bitmapWord (entry : Nat) : Fin 512 := Fin.ofNat 512 (entry / 64)

def bitmapGet (memory : Memory) (physical entry : Nat) : Bool :=
  (memory (bitmapFrame physical entry) (bitmapWord entry)).getLsbD (entry % 64)

def bitmapSet (memory : Memory) (physical entry : Nat) : Memory :=
  write memory (bitmapFrame physical entry) (bitmapWord entry)
    (memory (bitmapFrame physical entry) (bitmapWord entry) ||| (1#64 <<< (entry % 64)))

def bitmapClear (memory : Memory) (physical entry : Nat) : Memory :=
  write memory (bitmapFrame physical entry) (bitmapWord entry)
    (memory (bitmapFrame physical entry) (bitmapWord entry) &&& ~~~(1#64 <<< (entry % 64)))

/-- Turn ports on or off, one after the other. -/
def changePorts (memory : Memory) (physical first num : Nat) (turnOn : Bool) : Memory :=
  (List.range num).foldl
    (fun memory i => if turnOn then bitmapClear memory physical (first + i) else bitmapSet memory physical (first + i))
    memory

/-- The frames of the two pages at a physical address. -/
def pagesOf (physical : Nat) : List Nat := [physical / 4096, physical / 4096 + 1]

/-- A byte of the two pages is not `0xFF`. -/
def someEnabled (memory : Memory) (physical : Nat) : Bool :=
  (pagesOf physical).any (fun frame => (List.finRange 512).any (fun index => memory frame index ≠ allOnes 64))

/-- What the allocator answers with when a process is given a bitmap. -/
structure Answers where
  physical : Nat
  supplies : Supply × Supply

/-- Give a process a bitmap that allows nothing. -/
def grant (machine : Machine) (pid : Nat) (answers : Answers) : Machine :=
  let set := setIopb { machine with iopb := update machine.iopb pid answers.physical } (machine.contexts pid)
    answers.physical answers.supplies
  { set with memory := update (update set.memory (answers.physical / 4096) ones) (answers.physical / 4096 + 1) ones }

@[simp] theorem grant_iopb_self (machine : Machine) (pid : Nat) (answers : Answers) :
    (grant machine pid answers).iopb pid = answers.physical := update_self ..

theorem grant_iopb_other (machine : Machine) {pid other : Nat} (answers : Answers)
    (different : other ≠ pid) : (grant machine pid answers).iopb other = machine.iopb other :=
  update_of_ne different ..

/-- Take its bitmap from a process. -/
def revoke (machine : Machine) (pid : Nat) (supplies : Supply × Supply) : Machine :=
  setIopb { machine with iopb := update machine.iopb pid 0 } (machine.contexts pid) 0 supplies

/-- Turn ports of a process on or off in its bitmap. -/
def switched (machine : Machine) (pid first num : Nat) (turnOn : Bool) : Machine :=
  { machine with memory := changePorts machine.memory (machine.iopb pid) first num turnOn }

/-- The system call together with the frames that it marks as free. -/
def ioperm (machine : Machine) (pid first num : Nat) (turnOn : Bool) (answers : Answers) : Machine × List Nat :=
  if machine.iopb pid = 0 ∧ turnOn = false then (machine, [])
  else
    let granted := if machine.iopb pid = 0 then grant machine pid answers else machine
    let changed := switched granted pid first num turnOn
    if turnOn = false ∧ someEnabled changed.memory (changed.iopb pid) = false then
      (revoke changed pid answers.supplies, pagesOf (changed.iopb pid))
    else (changed, [])

def scHandleHardwareIoperm (machine : Machine) (pid first num : Nat) (turnOn : Bool) (answers : Answers) : Machine :=
  (ioperm machine pid first num turnOn answers).1

/-- Map the pages of a context to where the processor looks at them. -/
def enableIopb (machine : Machine) (context : Nat) (supplies : Supply × Supply) : Machine :=
  let first := vmContextGetPhysicalForVirtual machine.memory context userIoperm
  let second := vmContextGetPhysicalForVirtual machine.memory context (userIoperm + 4096)
  let memory := vmContextMap machine.memory context machine.tssIopb first 0 supplies.1
  { machine with memory := vmContextMap memory context (machine.tssIopb + 4096) second 0 supplies.2 }

/-- The context of a process, or that of the kernel for the idle task. -/
abbrev Machine.context (machine : Machine) (who : Option Nat) : Nat := who.elim machine.kernelContext machine.contexts

/-- The frames of the bitmap of a process. -/
def Machine.pages (machine : Machine) (pid : Nat) : List Nat :=
  if machine.iopb pid = 0 then [] else pagesOf (machine.iopb pid)

/-- A frame is not a table of any context. -/
def NoTable (machine : Machine) (frame : Nat) : Prop :=
  ∀ who path, locate subtable machine.memory 0 (machine.context who) path ≠ some frame

/-- A frame is not a table of any context, nor in use for a bitmap. -/
structure Unused (machine : Machine) (frame : Nat) : Prop where
  small : frame < 2 ^ 40
  table : NoTable machine frame
  bitmap : ∀ pid, frame ∉ machine.pages pid

/-- The frames for the tables of an answer. -/
def Answers.tables (answers : Answers) : List Nat := answers.supplies.1.frames ++ answers.supplies.2.frames

/-- The frames of an answer. -/
def Answers.frames (answers : Answers) : List Nat := pagesOf answers.physical ++ answers.tables

/-- The allocator hands out pages that are not in use, each once. -/
structure Answered (machine : Machine) (answers : Answers) : Prop where
  aligned : answers.physical % 4096 = 0
  nonzero : answers.physical ≠ 0
  distinct : answers.frames.Nodup
  unused : ∀ frame ∈ answers.frames, Unused machine frame

/-- A machine, the ports each process has turned on and not off, and the process that was entered. -/
structure Traced where
  machine : Machine
  on : Nat → Nat → Bool
  entered : Option Nat

inductive Event where
  | ioperm (pid first num : Nat) (turnOn : Bool) (answers : Answers)
  | enter (who : Option Nat) (supplies : Supply × Supply)
  /-- Something else is written to a frame. -/
  | store (frame : Nat) (contents : Fin 512 → VmTableEntry)

/-- The ports of a process after a call. -/
def turned (on : Nat → Nat → Bool) (pid first num : Nat) (turnOn : Bool) : Nat → Nat → Bool :=
  update on pid (fun port => if first ≤ port ∧ port < first + num then turnOn else on pid port)

/-- The contexts are well formed. Each of them has tables of its own for the addresses of its
bitmap, and all of them share those for the addresses the processor looks at, which lie in the
kernel's part. -/
structure Shared (machine : Machine) : Prop where
  wellFormed : ∀ who, WellFormed machine.memory (machine.context who)
  plain : ∀ pid, ∀ half < 2, Plain machine.memory (machine.contexts pid) (userIoperm + 4096 * half)
  apart : ∀ pid who, who ≠ some pid → Apart machine.memory (machine.contexts pid) userIoperm (machine.context who)
  tables : ∀ half < 2, ∃ table, ∀ who,
    locate subtable machine.memory 0 (machine.context who) (way (machine.tssIopb + 4096 * half)) = some table
  kernel : machine.tssIopb % 4096 = 0 ∧ 0xFFFFFFFF90000000 ≤ machine.tssIopb ∧ machine.tssIopb + 8192 ≤ 2 ^ 64

/-- At first no process has a bitmap, and nothing is mapped where its own would be. -/
def ports : System Traced Event where
  initial traced := Shared traced.machine ∧ traced.on = (fun _ _ => false) ∧ traced.entered = none ∧
    ∀ pid, traced.machine.iopb pid = 0 ∧
      ∀ half < 2, mapped traced.machine.memory (traced.machine.contexts pid) (userIoperm + 4096 * half) = none
  step traced event after :=
    match event with
    | .ioperm pid first num turnOn answers =>
      first < 2 ^ 16 ∧ num < 2 ^ 16 ∧ Answered traced.machine answers ∧
      after = ⟨scHandleHardwareIoperm traced.machine pid first num turnOn answers,
        turned traced.on pid first num turnOn, none⟩
    | .enter who supplies =>
      after = ⟨enableIopb traced.machine (traced.machine.context who) supplies, traced.on, who⟩
    | .store frame contents =>
      Unused traced.machine frame ∧
      after = { traced with machine := { traced.machine with
        memory := update traced.machine.memory frame contents } }

/-- The bitmap that the processor finds allows a port. -/
def Allowed (machine : Machine) (pid port : Nat) : Prop :=
  ∃ frame, mapped machine.memory (machine.contexts pid) (machine.tssIopb + 4096 * (port / 32768)) = some frame ∧
    (machine.memory frame (bitmapWord port)).getLsbD (port % 64) = false

/-- A process that runs can use the ports it has on. -/
def Isolated (traced : Traced) : Prop :=
  ∀ pid, traced.entered = some pid → ∀ port < 65536, (Allowed traced.machine pid port ↔ traced.on pid port = true)

/-- The frame that takes the place of the second page. -/
def standIn (machine : Machine) (pid : Nat) : Nat :=
  if machine.iopb pid = 0 then 0 else machine.iopb pid % 2 ^ 40

/-- The frame that takes the place of the second page holds what the second page holds. -/
def Backed (machine : Machine) (pid : Nat) : Prop :=
  if machine.iopb pid = 0 then machine.memory 0 = ones
  else machine.memory (machine.iopb pid % 2 ^ 40) = machine.memory (machine.iopb pid / 4096 + 1)

/-- The ports of a call exist, and the last port is not turned off; the frame that takes the
place of the second page of a process is no table and holds what this one holds as long as the
process runs. -/
def Meets (traced : Traced) : Event → Prop
  | .ioperm pid first num turnOn _ =>
    first + num ≤ 65536 ∧ (turnOn = false → traced.machine.iopb pid ≠ 0 →
      ∃ port < 65536, traced.on pid port = true ∧ ¬ (first ≤ port ∧ port < first + num))
  | .enter (some pid) _ => Backed traced.machine pid ∧ NoTable traced.machine (standIn traced.machine pid)
  | .enter none _ => True
  | .store frame _ => ∀ pid, traced.entered = some pid → frame ≠ standIn traced.machine pid

variable {memory : Memory} {machine : Machine} {on : Nat → Nat → Bool} {pid frame half : Nat}

section

variable {physical entry port : Nat}

theorem bitmapWord_eq_iff {other : Nat} (small : entry < 65536) (otherSmall : other < 65536) :
    bitmapFrame physical other = bitmapFrame physical entry ∧ bitmapWord other = bitmapWord entry ∧
    other % 64 = entry % 64 ↔ other = entry := by
  simp only [bitmapFrame, bitmapWord, Fin.ext_iff, Fin.val_ofNat]
  omega

/-- Writing a word of a bitmap changes one bit. -/
theorem bitmapGet_write {word : VmTableEntry} (small : entry < 65536) (portSmall : port < 65536) {bit : Bool}
    (same : ∀ slot, slot < 64 → word.getLsbD slot = if slot = entry % 64 then bit
    else (memory (bitmapFrame physical entry) (bitmapWord entry)).getLsbD slot) :
    bitmapGet (write memory (bitmapFrame physical entry) (bitmapWord entry) word) physical port =
    if port = entry then bit else bitmapGet memory physical port := by
  rw [bitmapGet]
  by_cases here : bitmapFrame physical port = bitmapFrame physical entry ∧ bitmapWord port = bitmapWord entry
  · rw [here.1, here.2, write_here, same _ (Nat.mod_lt _ (by decide))]
    by_cases bitHere : port % 64 = entry % 64
    · rw [if_pos bitHere, if_pos ((bitmapWord_eq_iff small portSmall).mp ⟨here.1, here.2, bitHere⟩)]
    · have different : port ≠ entry := by
        rintro rfl
        exact bitHere rfl
      rw [if_neg bitHere, if_neg different, bitmapGet, here.1, here.2]
  · have different : port ≠ entry := by
      rintro rfl
      exact here ⟨rfl, rfl⟩
    rw [write_elsewhere _ _ here, if_neg different, bitmapGet]

theorem getLsbD_one (entry slot : Nat) : (1#64 <<< (entry % 64)).getLsbD slot = decide (slot = entry % 64) := by
  have inside : entry % 64 < 64 := Nat.mod_lt _ (by decide)
  change (twoPow 64 (entry % 64)).getLsbD slot = _
  simp [getLsbD_twoPow, inside, eq_comm]

theorem bitmapGet_set (small : entry < 65536) (portSmall : port < 65536) :
    bitmapGet (bitmapSet memory physical entry) physical port =
    if port = entry then true else bitmapGet memory physical port := by
  apply bitmapGet_write small portSmall
  intro slot inside
  rw [getLsbD_or, getLsbD_one]
  by_cases here : slot = entry % 64 <;> simp [here]

theorem bitmapGet_clear (small : entry < 65536) (portSmall : port < 65536) :
    bitmapGet (bitmapClear memory physical entry) physical port =
    if port = entry then false else bitmapGet memory physical port := by
  apply bitmapGet_write small portSmall
  intro slot inside
  rw [getLsbD_and, getLsbD_not, getLsbD_one]
  by_cases here : slot = entry % 64 <;> simp [here, inside]

/-- The bits of a bitmap are in its two pages. -/
theorem bitmapFrame_mem (small : port < 65536) : bitmapFrame physical port ∈ pagesOf physical := by
  simp only [bitmapFrame, pagesOf, List.mem_cons, List.not_mem_nil, or_false]
  omega

theorem bitmapGet_congr {after : Memory} (same : ∀ frame ∈ pagesOf physical, after frame = memory frame)
    (small : port < 65536) : bitmapGet after physical port = bitmapGet memory physical port := by
  rw [bitmapGet, bitmapGet, same _ (bitmapFrame_mem small)]

theorem changePorts_succ (memory : Memory) (physical first num : Nat) (turnOn : Bool) :
    changePorts memory physical first (num + 1) turnOn =
    if turnOn then bitmapClear (changePorts memory physical first num turnOn) physical (first + num)
    else bitmapSet (changePorts memory physical first num turnOn) physical (first + num) := by
  rw [changePorts, List.range_succ, List.foldl_append]
  rfl

/-- The bits of the ports of a call are changed. -/
theorem bitmapGet_changePorts {first num : Nat} (turnOn : Bool) (inside : first + num ≤ 65536)
    (portSmall : port < 65536) : bitmapGet (changePorts memory physical first num turnOn) physical port =
    if first ≤ port ∧ port < first + num then !turnOn else bitmapGet memory physical port := by
  induction num with
  | zero =>
    have none : ¬ (first ≤ port ∧ port < first + 0) := by omega
    rw [if_neg none]
    rfl
  | succ num ih =>
    have small : first + num < 65536 := by omega
    have last : bitmapGet (changePorts memory physical first (num + 1) turnOn) physical port =
        if port = first + num then !turnOn else bitmapGet (changePorts memory physical first num turnOn) physical port := by
      rw [changePorts_succ]
      cases turnOn with
      | true => exact bitmapGet_clear small portSmall
      | false => exact bitmapGet_set small portSmall
    rw [last, ih (by omega)]
    by_cases here : port = first + num
    · rw [if_pos here, if_pos (by omega)]
    · rw [if_neg here]
      have same : (first ≤ port ∧ port < first + (num + 1)) ↔ (first ≤ port ∧ port < first + num) := by omega
      simp only [same]

/-- Nothing else is changed. -/
theorem changePorts_elsewhere {first num : Nat} (turnOn : Bool) (inside : first + num ≤ 65536)
    (different : frame ∉ pagesOf physical) : changePorts memory physical first num turnOn frame = memory frame := by
  induction num with
  | zero => rfl
  | succ num ih =>
    have other : frame ≠ bitmapFrame physical (first + num) :=
      fun same => different (same ▸ bitmapFrame_mem (by omega))
    rw [← ih (by omega), changePorts_succ]
    cases turnOn with
    | true | false => exact update_of_ne other ..

/-- Two pages are equal if they have the same bits. -/
theorem page_eq_iff (half : Nat) (left right : Fin 512 → VmTableEntry) : left = right ↔ ∀ port, port / 32768 = half →
    (left (bitmapWord port)).getLsbD (port % 64) = (right (bitmapWord port)).getLsbD (port % 64) := by
  constructor
  · rintro rfl port _
    rfl
  · intro same
    funext index
    apply eq_of_getLsbD_eq
    intro bit inside
    have word : bitmapWord (32768 * half + 64 * index + bit) = index := by
      apply Fin.ext
      simp only [bitmapWord, Fin.val_ofNat]
      omega
    have slot : (32768 * half + 64 * index.val + bit) % 64 = bit := by omega
    have bits := same (32768 * half + 64 * index + bit) (by omega)
    rwa [word, slot] at bits

theorem ones_bit (port : Nat) : (ones (bitmapWord port)).getLsbD (port % 64) = true := by
  rw [ones, getLsbD_allOnes]
  exact decide_eq_true (Nat.mod_lt _ (by decide))

/-- Whatever is seen is a port that is on. -/
theorem someEnabled_iff : someEnabled memory physical = true ↔ ∃ port < 65536, bitmapGet memory physical port = false := by
  have page (half : Nat) : memory (physical / 4096 + half) = ones ↔
      ∀ port, port / 32768 = half → bitmapGet memory physical port = true := by
    rw [page_eq_iff half]
    simp only [ones_bit, bitmapGet, bitmapFrame]
    grind
  have seen : someEnabled memory physical = true ↔
      ¬ (memory (physical / 4096 + 0) = ones ∧ memory (physical / 4096 + 1) = ones) := by
    rw [not_and_or]
    simp [someEnabled, pagesOf, ones, funext_iff]
  rw [seen, page, page]
  constructor
  · intro some
    by_contra none
    exact some ⟨by grind, by grind⟩
  · rintro ⟨port, small, clear⟩ ⟨low, high⟩
    rcases lt_or_ge port 32768 with below | above
    · grind [low port (by omega)]
    · grind [high port (by omega)]

end

/-- What a call does. -/
theorem ioperm_cases (machine : Machine) (pid first num : Nat) (turnOn : Bool) (answers : Answers) :
    (machine.iopb pid = 0 ∧ turnOn = false ∧ ioperm machine pid first num turnOn answers = (machine, [])) ∨
    (machine.iopb pid = 0 ∧ turnOn = true ∧ ioperm machine pid first num turnOn answers =
      (switched (grant machine pid answers) pid first num true, [])) ∨
    (machine.iopb pid ≠ 0 ∧ (turnOn = true ∨
        someEnabled (switched machine pid first num turnOn).memory (machine.iopb pid) = true) ∧
      ioperm machine pid first num turnOn answers = (switched machine pid first num turnOn, [])) ∨
    (machine.iopb pid ≠ 0 ∧ turnOn = false ∧
      someEnabled (switched machine pid first num false).memory (machine.iopb pid) = false ∧
      ioperm machine pid first num turnOn answers =
        (revoke (switched machine pid first num false) pid answers.supplies, pagesOf (machine.iopb pid))) := by
  by_cases absent : machine.iopb pid = 0
  · cases turnOn with
    | false => exact .inl ⟨absent, rfl, if_pos ⟨absent, rfl⟩⟩
    | true =>
      refine .inr (.inl ⟨absent, rfl, ?_⟩)
      rw [ioperm, if_neg (by simp), if_pos absent, if_neg (by simp)]
  · refine .inr (.inr ?_)
    rw [ioperm, if_neg (fun both => absent both.1), if_neg absent]
    by_cases last : turnOn = false ∧
        someEnabled (switched machine pid first num turnOn).memory (machine.iopb pid) = false
    · obtain ⟨rfl, unseen⟩ := last
      exact .inr ⟨absent, rfl, unseen, if_pos ⟨rfl, unseen⟩⟩
    · refine .inl ⟨absent, ?_, if_neg last⟩
      cases turnOn with
      | true => exact .inl rfl
      | false => exact .inr (by simpa using last)

/-- The contexts find the tables they found, and have the same pages for the bitmaps. -/
structure Steady (machine : Machine) (memory : Memory) : Prop where
  located : ∀ who path, locate subtable memory 0 (machine.context who) path =
    locate subtable machine.memory 0 (machine.context who) path
  plain : ∀ pid virt, Plain machine.memory (machine.contexts pid) virt → Plain memory (machine.contexts pid) virt
  mapped : ∀ pid, ∀ half < 2, mapped memory (machine.contexts pid) (userIoperm + 4096 * half) =
    mapped machine.memory (machine.contexts pid) (userIoperm + 4096 * half)

theorem steady_of_untouched (untouched : ∀ who, Untouched machine.memory memory (machine.context who)) :
    Steady machine memory where
  located who := (untouched who).located
  plain pid _ plain := (untouched (some pid)).plain plain
  mapped pid _ _ := (untouched (some pid)).mapped _

theorem NoTable.steady (noTable : NoTable machine frame) (steady : Steady machine memory) :
    NoTable { machine with memory := memory } frame :=
  fun who path => (steady.located who path).trans_ne (noTable who path)

theorem Shared.steady (shared : Shared machine) (steady : Steady machine memory) :
    Shared { machine with memory := memory } where
  wellFormed who left right table atLeft atRight := by
    rw [steady.located] at atLeft atRight
    exact shared.wellFormed who left right table atLeft atRight
  plain pid half below := steady.plain pid _ (shared.plain pid half below)
  apart pid who different := (shared.apart pid who different).congr (steady.located (some pid)) (steady.located who)
  tables half below := (shared.tables half below).imp (fun _ all who => (steady.located who _).trans (all who))
  kernel := shared.kernel

/-- What holds of the frames of the bitmaps, wherever they are mapped. -/
structure Lodged (machine : Machine) (on : Nat → Nat → Bool) : Prop where
  shared : Shared machine
  placed : ∀ pid, ∀ frame ∈ machine.pages pid, frame < 2 ^ 40 ∧ NoTable machine frame
  distinct : ∀ pid other, pid ≠ other → (machine.pages pid).Disjoint (machine.pages other)
  bits : ∀ pid port, machine.iopb pid ≠ 0 → port < 65536 →
    bitmapGet machine.memory (machine.iopb pid) port = !on pid port
  off : ∀ pid port, machine.iopb pid = 0 → on pid port = false

theorem pages_granted (granted : machine.iopb pid ≠ 0) : machine.pages pid = pagesOf (machine.iopb pid) :=
  if_neg granted

/-- The frame that is mapped for a page of the bitmap of a process. -/
def frameFor (machine : Machine) (pid half : Nat) : Nat :=
  if machine.iopb pid = 0 then 0 else if half = 0 then machine.iopb pid / 4096 else machine.iopb pid % 2 ^ 40

/-- The bitmaps are mapped at their addresses as well. -/
structure Kept (machine : Machine) (on : Nat → Nat → Bool) : Prop extends lodged : Lodged machine on where
  user : ∀ pid, ∀ half < 2, mapped machine.memory (machine.contexts pid) (userIoperm + 4096 * half) =
    if machine.iopb pid = 0 then none else some (frameFor machine pid half)

/-- The bitmaps may change as long as the contexts find what they found. -/
theorem Lodged.change (lodged : Lodged machine on) (steady : Steady machine memory) {turned : Nat → Nat → Bool}
    (bits : ∀ pid port, machine.iopb pid ≠ 0 → port < 65536 →
    bitmapGet memory (machine.iopb pid) port = !turned pid port)
    (off : ∀ pid port, machine.iopb pid = 0 → turned pid port = false) :
    Lodged { machine with memory := memory } turned where
  shared := lodged.shared.steady steady
  placed pid frame member := (lodged.placed pid frame member).imp_right (fun noTable => noTable.steady steady)
  distinct := lodged.distinct
  bits := bits
  off := off

theorem Lodged.steady (lodged : Lodged machine on) (steady : Steady machine memory)
    (contents : ∀ pid, ∀ frame ∈ machine.pages pid, memory frame = machine.memory frame) :
    Lodged { machine with memory := memory } on := by
  refine lodged.change steady ?_ lodged.off
  intro pid port granted small
  rw [← lodged.bits pid port granted small]
  exact bitmapGet_congr (pages_granted granted ▸ contents pid) small

/-- Where the bitmaps are mapped does not change either. -/
theorem Kept.steadily {turned : Nat → Nat → Bool} (kept : Kept machine on) (steady : Steady machine memory)
    (lodged : Lodged { machine with memory := memory } turned) : Kept { machine with memory := memory } turned :=
  ⟨lodged, fun pid half below => (steady.mapped pid half below).trans (kept.user pid half below)⟩

section

theorem allowed_at {port : Nat}
    (found : mapped machine.memory (machine.contexts pid) (machine.tssIopb + 4096 * (port / 32768)) = some frame) :
    Allowed machine pid port ↔ (machine.memory frame (bitmapWord port)).getLsbD (port % 64) = false := by
  rw [Allowed, found]
  simp

/-- What a page of the bitmap of a process should hold. -/
def wanted (machine : Machine) (pid half : Nat) : Fin 512 → VmTableEntry :=
  if machine.iopb pid = 0 then ones else machine.memory (machine.iopb pid / 4096 + half)

theorem backed_iff : Backed machine pid ↔ ∀ half < 2, machine.memory (frameFor machine pid half) = wanted machine pid half := by
  unfold Backed frameFor wanted
  constructor
  · intro backed half below
    obtain rfl | rfl : half = 0 ∨ half = 1 := by omega
    · split at backed <;> simp_all
    · split at backed <;> simp_all
  · intro all
    have second := all 1 (by decide)
    split at second <;> simp_all

/-- A process is allowed its ports exactly if it is backed. -/
theorem allowed_iff (kept : Kept machine on) (found : ∀ half < 2,
    mapped machine.memory (machine.contexts pid) (machine.tssIopb + 4096 * half) = some (frameFor machine pid half)) :
    (∀ port < 65536, (Allowed machine pid port ↔ on pid port = true)) ↔ Backed machine pid := by
  have bit {port : Nat} (small : port < 65536) :
      (wanted machine pid (port / 32768) (bitmapWord port)).getLsbD (port % 64) = !on pid port := by
    unfold wanted
    split
    · next none => rw [ones_bit, kept.off pid port none, Bool.not_false]
    · next granted => exact kept.bits pid port granted small
  rw [backed_iff]
  constructor
  · intro all half below
    rw [page_eq_iff half]
    rintro port rfl
    have allowed := all port (by omega)
    rw [allowed_at (found _ below)] at allowed
    rw [bit (by omega)]
    cases isOn : on pid port <;> simpa [isOn] using allowed
  · intro same port small
    rw [allowed_at (found _ (by omega)), same _ (by omega), bit small]
    simp

theorem physical_of_absent {context virt : Nat} (outside : ¬ DirectlyMapped virt)
    (absent : mapped memory context virt = none) : vmContextGetPhysicalForVirtual memory context virt = 0 := by
  have missing := (mapped_none_iff memory context virt).mp absent
  rw [pagePresent_descend, descend_eq] at missing
  rw [getPhysical_descend memory context outside, descend_eq]
  cases stopped : leaf memory context virt with
  | none => rfl
  | some reached =>
    rw [stopped, Option.elim_some, answer] at missing
    split at missing
    next gone => rw [Option.elim_some, answer, if_pos gone]
    next => cases missing

/-- The addresses the bitmap of a process is mapped to are in the user's half. -/
theorem userIoperm_lawful (below : half < 2) :
    Canonical (userIoperm + 4096 * half) ∧ ¬ DirectlyMapped (userIoperm + 4096 * half) := by
  unfold Canonical DirectlyMapped directMappingStart directMappingEnd userIoperm
  omega

theorem tssIopb_lawful (shared : Shared machine) (below : half < 2) :
    Canonical (machine.tssIopb + 4096 * half) ∧ ¬ DirectlyMapped (machine.tssIopb + 4096 * half) ∧
    ∀ other < 2, (userIoperm + 4096 * other) / 4096 ≠ (machine.tssIopb + 4096 * half) / 4096 := by
  obtain ⟨aligned, low, high⟩ := shared.kernel
  unfold Canonical DirectlyMapped directMappingStart directMappingEnd userIoperm
  exact ⟨by omega, by omega, fun other small => by omega⟩

/-- What the kernel reads from the context of a process when it enters it. -/
theorem physical_frame (kept : Kept machine on) (pid : Nat) (below : half < 2) :
    vmContextGetPhysicalForVirtual machine.memory (machine.contexts pid) (userIoperm + 4096 * half) / 4096 % 2 ^ 40 =
    frameFor machine pid half := by
  have user := kept.user pid half below
  by_cases none : machine.iopb pid = 0
  · rw [if_pos none] at user
    simp [physical_of_absent (userIoperm_lawful below).2 user, frameFor, none]
  · rw [if_neg none] at user
    rw [physical_of_mapped user, frameFor, if_neg none]
    split
    · have first := kept.placed pid (machine.iopb pid / 4096) (by simp [pages_granted none, pagesOf])
      exact Nat.mod_eq_of_lt first.1
    · exact Nat.mod_mod ..

/-- Mapping an address the processor looks at writes the tables of these addresses only. -/
theorem map_common (shared : Shared machine) (half : Nat) (below : half < 2) (who : Option Nat) (physical : Nat)
    (supply : Supply) (memoryIs : memory = vmContextMap machine.memory (machine.context who)
    (machine.tssIopb + 4096 * half) physical 0 supply) :
    Steady machine memory ∧ (∀ frame, NoTable machine frame → memory frame = machine.memory frame) ∧
    Updated machine.memory memory (machine.context who) (machine.tssIopb + 4096 * half)
      (some (physical / 4096 % 2 ^ 40)) := by
  obtain ⟨table, located⟩ := shared.tables half below
  obtain ⟨canonical, outside, apart⟩ := tssIopb_lawful shared below
  have effect (other : Option Nat) : Updated machine.memory memory (machine.context other)
        (machine.tssIopb + 4096 * half) (some (physical / 4096 % 2 ^ 40)) ∧
      ∀ path, locate subtable memory 0 (machine.context other) path =
        locate subtable machine.memory 0 (machine.context other) path := by
    rw [memoryIs]
    exact map_shared canonical outside (located who) (shared.wellFormed other) (located other)
  refine ⟨⟨fun other => (effect other).2, fun pid => (effect (some pid)).1.plain, ?_⟩, ?_, (effect who).1⟩
  · intro pid other small
    exact ((effect (some pid)).1.mapped _ (userIoperm_lawful small).1).trans (if_neg (apart other small))
  · intro frame unused
    rw [memoryIs, map_located (located who)]
    apply update_of_ne
    rintro rfl
    exact unused who _ (located who)

/-- Only the tables of the addresses the processor looks at are written when a context is
entered, and the context has its pages there. -/
theorem enable_effect (shared : Shared machine) (who : Option Nat) (supplies : Supply × Supply) {after : Memory}
    (enabled : (enableIopb machine (machine.context who) supplies).memory = after) :
    Steady machine after ∧ (∀ frame, NoTable machine frame → after frame = machine.memory frame) ∧
    ∀ half < 2, mapped after (machine.context who) (machine.tssIopb + 4096 * half) = some
      (vmContextGetPhysicalForVirtual machine.memory (machine.context who) (userIoperm + 4096 * half) / 4096 % 2 ^ 40) := by
  obtain ⟨middle, middleIs⟩ := @exists_eq _ (vmContextMap machine.memory (machine.context who) machine.tssIopb
    (vmContextGetPhysicalForVirtual machine.memory (machine.context who) userIoperm) 0 supplies.1)
  obtain ⟨steady, elsewhere, first⟩ := map_common shared 0 (by decide) who _ _ middleIs
  obtain ⟨later, elsewhereLater, second⟩ := map_common (shared.steady steady) 1 (by decide) who
    (vmContextGetPhysicalForVirtual machine.memory (machine.context who) (userIoperm + 4096)) supplies.2
    (show after = _ from by rw [← enabled, middleIs]; rfl)
  refine ⟨⟨fun who path => (later.located who path).trans (steady.located who path),
    fun pid virt plain => later.plain pid virt (steady.plain pid virt plain),
    fun pid half below => (later.mapped pid half below).trans (steady.mapped pid half below)⟩, ?_, ?_⟩
  · intro frame unused
    exact (elsewhereLater frame (unused.steady steady)).trans (elsewhere frame unused)
  · intro half below
    have canonical := (tssIopb_lawful shared below).1
    obtain rfl | rfl : half = 0 ∨ half = 1 := by omega
    · exact ((second.mapped _ canonical).trans (if_neg (by dsimp only; omega))).trans
        ((first.mapped _ canonical).trans (if_pos rfl))
    · exact (second.mapped _ canonical).trans (if_pos rfl)

end

end Lfos.PortPermissions
