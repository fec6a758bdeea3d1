import Lfos.LoaderPaging

/-!
# What the scratchpad gives out

The loader calls the allocator of the scratchpad again and again, and uses the memory it was given in
between. As long as no sum wraps around, what is given out lies in the scratchpad above all that was
given out before, from a multiple of the alignment on.
-/

namespace Lfos.ScratchpadRuns

open LoaderPaging PageTables PhysicalBytes Spans Transitions List Option

open Lfos.LoaderMemoryMap (LoaderScratchpad)

/-- A call that has returned. -/
structure Grant where
  address : Nat
  len : Nat
  alignment : Nat

def Grant.bytes (grant : Grant) : Span := ⟨grant.address, grant.len⟩

/-- The machine with the calls that have returned, the last one first. -/
structure Traced where
  machine : Machine
  grants : List Grant

inductive Use where
  | allocate (len alignment : Nat)
  | write (memory : Memory)

/-- The sums of a call do not wrap around. -/
def Unwrapped (pad : LoaderScratchpad) (len alignment : Nat) : Prop :=
  pad.loaderScratchpadFree + (len + alignmentOffset pad alignment) < 2 ^ 64

/-- The uses of a scratchpad. A call that finds it exhausted does not return. -/
def scratchpads (base size : Nat) : System Traced Use where
  initial traced := traced.machine.pad = ⟨base, base, size⟩ ∧ traced.grants = []
  step traced use after := match use with
    | .allocate len alignment => 1 ≤ alignment ∧ Unwrapped traced.machine.pad len alignment ∧
        ∃ address, allocate traced.machine len alignment = some (address, after.machine) ∧
          after.grants = ⟨address, len, alignment⟩ :: traced.grants
    | .write memory => after = { traced with machine := { traced.machine with memory := memory } }

section

variable {machine after : Machine} {len alignment address : Nat}

theorem dvd_aligned (pad : LoaderScratchpad) (positive : 1 ≤ alignment) :
    alignment ∣ pad.loaderScratchpadFree + alignmentOffset pad alignment := by
  have small := Nat.mod_lt pad.loaderScratchpadFree positive
  have parts := Nat.div_add_mod pad.loaderScratchpadFree alignment
  rw [alignmentOffset]
  split
  · have whole : pad.loaderScratchpadFree % alignment = 0 := by omega
    exact Nat.dvd_of_mod_eq_zero whole
  · refine ⟨pad.loaderScratchpadFree / alignment + 1, ?_⟩
    rw [Nat.mul_add_one]
    omega

/-- What a call takes begins with the bytes it skips. -/
structure Given (machine : Machine) (len alignment address : Nat) (after : Machine) : Prop where
  aligned : alignment ∣ address
  above : machine.pad.loaderScratchpadFree ≤ address
  fits : address + len ≤ machine.pad.loaderScratchpad + machine.pad.loaderScratchpadSize
  pad : after.pad = { machine.pad with loaderScratchpadFree := address + len }
  memory : after.memory = zeroBytes machine.memory machine.pad.loaderScratchpadFree
    (address + len - machine.pad.loaderScratchpadFree)

theorem allocate_given (limit : machine.pad.loaderScratchpad + machine.pad.loaderScratchpadSize < 2 ^ 64)
    (positive : 1 ≤ alignment) (unwrapped : Unwrapped machine.pad len alignment)
    (allocated : allocate machine len alignment = some (address, after)) : Given machine len alignment address after := by
  rw [allocate, allocateFromLoaderScratchpad_unwrapped limit unwrapped] at allocated
  obtain ⟨taken, found, result⟩ := map_eq_some_iff.mp allocated
  obtain ⟨fits, whole⟩ := ite_none_left_eq_some.mp found
  cases whole
  obtain ⟨rfl, rfl⟩ := Prod.mk.inj result
  constructor
  · exact dvd_aligned machine.pad positive
  · exact Nat.le_add_right _ _
  · exact not_lt.mp fits
  · rfl
  · dsimp only
    rw [Words.u64Sub_of_le (by omega) (by omega)]

end

section

variable {base size : Nat} {traced after : Traced}

/-- The ranges lie one above the other below what is free. -/
structure Parted (base size : Nat) (traced : Traced) : Prop where
  start : traced.machine.pad.loaderScratchpad = base
  whole : traced.machine.pad.loaderScratchpadSize = size
  low : base ≤ traced.machine.pad.loaderScratchpadFree
  high : traced.machine.pad.loaderScratchpadFree ≤ base + size
  placed : ∀ grant ∈ traced.grants, grant.alignment ∣ grant.address ∧ base ≤ grant.address ∧
    grant.address + grant.len ≤ traced.machine.pad.loaderScratchpadFree
  ordered : traced.grants.Pairwise (fun later earlier => earlier.address + earlier.len ≤ later.address)

variable (small : base + size < 2 ^ 64)
include small

theorem Parted.given (parted : Parted base size traced) {len alignment : Nat}
    (taken : (scratchpads base size).step traced (.allocate len alignment) after) :
    ∃ address, Given traced.machine len alignment address after.machine ∧
    after.grants = ⟨address, len, alignment⟩ :: traced.grants := by
  obtain ⟨positive, unwrapped, address, allocated, recorded⟩ := taken
  have limit : traced.machine.pad.loaderScratchpad + traced.machine.pad.loaderScratchpadSize < 2 ^ 64 := by
    rw [parted.start, parted.whole]
    exact small
  exact ⟨address, allocate_given limit positive unwrapped allocated, recorded⟩

theorem Parted.step (parted : Parted base size traced) {use : Use}
    (taken : (scratchpads base size).step traced use after) : Parted base size after := by
  cases use with
  | write memory =>
    cases taken
    exact { parted with }
  | allocate len alignment =>
    obtain ⟨address, given, recorded⟩ := parted.given small taken
    obtain ⟨start, whole, low, high, placed, ordered⟩ := parted
    obtain ⟨aligned, above, fits, pad, _⟩ := given
    have taller := above.trans (Nat.le_add_right address len)
    rw [start, whole] at fits
    constructor
    · rw [pad, start]
    · rw [pad, whole]
    · rw [pad]
      exact low.trans taller
    · rw [pad]
      exact fits
    · rw [recorded, pad, forall_mem_cons]
      refine ⟨⟨aligned, low.trans above, le_refl _⟩, ?_⟩
      intro grant member
      obtain ⟨earlier, inside, below⟩ := placed grant member
      exact ⟨earlier, inside, below.trans taller⟩
    · rw [recorded, pairwise_cons]
      exact ⟨fun grant member => (placed grant member).2.2.trans above, ordered⟩

theorem parted_reachable (reachable : (scratchpads base size).Reachable traced) : Parted base size traced := by
  apply reachable.invariant
  · rintro ⟨machine, grants⟩ ⟨pad, none⟩
    dsimp only at pad none
    subst none
    constructor <;> simp [pad]
  · intro state use after parted taken
    exact parted.step small taken

end

/-- The allocator of the scratchpad never gives out memory that overlaps or is not aligned. What it gives out is
zero, and no call changes what was given out before. -/
theorem scratchpad_never_overlaps (base size : Nat) (small : base + size < 2 ^ 64) {traced : Traced}
    (reachable : (scratchpads base size).Reachable traced) :
    (∀ grant ∈ traced.grants, grant.alignment ∣ grant.address ∧ grant.bytes.Within ⟨base, size⟩) ∧
    traced.grants.Pairwise (fun later earlier => later.bytes.Apart earlier.bytes) ∧
    ∀ len alignment after, (scratchpads base size).step traced (.allocate len alignment) after →
      ∃ address, after.grants = ⟨address, len, alignment⟩ :: traced.grants ∧
        (∀ byte, (Span.mk address len).Holds byte → byteAt after.machine.memory byte = 0) ∧
        ∀ grant ∈ traced.grants, ∀ byte, grant.bytes.Holds byte →
          byteAt after.machine.memory byte = byteAt traced.machine.memory byte := by
  have parted := parted_reachable small reachable
  refine ⟨?_, ?_, ?_⟩
  · intro grant member
    obtain ⟨aligned, above, below⟩ := parted.placed grant member
    exact ⟨aligned, above, below.trans parted.high⟩
  · exact parted.ordered.imp (fun order => Span.apart_symm (Span.apart_of_le order))
  · intro len alignment after taken
    obtain ⟨address, given, recorded⟩ := parted.given small taken
    have above := given.above
    refine ⟨address, recorded, ?_, ?_⟩
    · rintro byte ⟨low, high⟩
      rw [given.memory, byteAt_zeroBytes, if_pos]
      dsimp only at low high
      omega
    · rintro grant member byte ⟨low, high⟩
      have below := (parted.placed grant member).2.2
      rw [given.memory, byteAt_zeroBytes, if_neg]
      dsimp only [Grant.bytes] at low high
      omega

/-- Ten bytes for an alignment of 16 and five for one of 8, from a scratchpad that is not aligned. -/
theorem scratchpad_never_overlaps_twice : ∃ traced, (scratchpads 0x1001 0x1000).Reachable traced ∧
    traced.grants = [⟨0x1020, 5, 8⟩, ⟨0x1010, 10, 16⟩] ∧
    traced.grants.Pairwise (fun later earlier => later.bytes.Apart earlier.bytes) := by
  have start : (scratchpads 0x1001 0x1000).initial ⟨⟨blank, ⟨0x1001, 0x1001, 0x1000⟩⟩, []⟩ := ⟨rfl, rfl⟩
  have first : (scratchpads 0x1001 0x1000).step ⟨⟨blank, ⟨0x1001, 0x1001, 0x1000⟩⟩, []⟩ (.allocate 10 16)
      ⟨⟨zeroBytes blank 0x1001 25, ⟨0x1001, 0x101A, 0x1000⟩⟩, [⟨0x1010, 10, 16⟩]⟩ :=
    ⟨by decide, show 0x101A < 2 ^ 64 by decide, 0x1010, rfl, rfl⟩
  have second : (scratchpads 0x1001 0x1000).step
      ⟨⟨zeroBytes blank 0x1001 25, ⟨0x1001, 0x101A, 0x1000⟩⟩, [⟨0x1010, 10, 16⟩]⟩ (.allocate 5 8)
      ⟨⟨zeroBytes (zeroBytes blank 0x1001 25) 0x101A 11, ⟨0x1001, 0x1025, 0x1000⟩⟩,
        [⟨0x1020, 5, 8⟩, ⟨0x1010, 10, 16⟩]⟩ :=
    ⟨by decide, show 0x1025 < 2 ^ 64 by decide, 0x1020, rfl, rfl⟩
  have reachable := reachable_step (reachable_step (reachable_initial start) first) second
  exact ⟨_, reachable, rfl, (scratchpad_never_overlaps 0x1001 0x1000 (by decide) reachable).2.1⟩

end Lfos.ScratchpadRuns
