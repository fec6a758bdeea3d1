import Lfos.KernelHeap
import Lfos.Searches

/-!
# The search for absent pages

A context is searched from the start of a region for a number of absent pages in a row. That the first of them
is in the region is checked at each step, that the last of them is in it is not, so that a row which begins in
the region and leaves it is returned as well. Addresses are words: behind the last page of a region that
ends at the top of the address space the search goes on at address 0, which is also what it returns
when there is nothing to be found.
-/

namespace Lfos.PageSearch

open KernelHeap PageTables Searches Words List

/-- `region_t`; the last byte of the region is part of it. -/
structure Region where
  start : Nat
  finish : Nat
deriving DecidableEq

/-- The regions of `vm.h`. -/
def allocatorRegionNull : Region := ⟨0, 0⟩
def allocatorRegionUserStack : Region := ⟨0x00003F0000001000, 0x00003FFFFFFFEFF8⟩
def allocatorRegionUserHardware : Region := ⟨0x00007F0000000000, 0x00007FFFFFFFDFFF⟩
def allocatorRegionUserIoperm : Region := ⟨0x00007FFFFFFFE000, 0x00007FFFFFFFFFFF⟩
def allocatorRegionScratchpad : Region := ⟨0xFFFFFFFF80000000, 0xFFFFFFFF80FFFFFF⟩
def allocatorRegionKernelBinary : Region := ⟨0xFFFFFFFF81000000, 0xFFFFFFFF88FFFFFF⟩
def allocatorRegionSlab4k : Region := ⟨0xFFFFFFFF89000000, 0xFFFFFFFF8FFFFFFF⟩
def allocatorRegionKernelHeap : Region := ⟨heapStart, heapEnd⟩
def allocatorRegionDirectMapping : Region := ⟨0xFFFF800000000000, 0xFFFF83FFFFFFFFFF⟩

def regions : List Region :=
  [allocatorRegionNull, allocatorRegionUserStack, allocatorRegionUserHardware, allocatorRegionUserIoperm,
    allocatorRegionScratchpad, allocatorRegionKernelBinary, allocatorRegionSlab4k, allocatorRegionKernelHeap,
    allocatorRegionDirectMapping]

/-- What the proofs need to know about a region: it begins with a page, it is empty if it begins at 0, and it ends at
the top of the address space or at least a page in front of it. -/
structure Region.Proper (region : Region) : Prop where
  aligned : region.start % 4096 = 0
  ordered : region.start ≤ region.finish
  zero : region.start = 0 → region.finish = 0
  top : region.finish + 1 = 2 ^ 64 ∨ region.finish + 4096 < 2 ^ 64

theorem regions_proper (region : Region) (member : region ∈ regions) : region.Proper := by
  have facts : ∀ region ∈ regions, region.start % 4096 = 0 ∧ region.start ≤ region.finish ∧
      (region.start = 0 → region.finish = 0) ∧
      (region.finish + 1 = 2 ^ 64 ∨ region.finish + 4096 < 2 ^ 64) := by decide
  obtain ⟨aligned, ordered, zero, top⟩ := facts region member
  exact ⟨aligned, ordered, zero, top⟩

section

variable (memory : Memory) (context : Nat)

/-- A number of pages in a row are absent. -/
def Absent (num address : Nat) : Prop :=
  ∀ i < num, vmContextPagePresent memory context (u64 (address + i * 4096)) = false

/-- A number of pages in a row are in a region. -/
structure Fits (region : Region) (num address : Nat) : Prop where
  aligned : address % 4096 = 0
  low : region.start ≤ address
  high : address + num * 4096 ≤ region.finish + 1

/-- What the search is for: it comes to an end, what it finds is in the region and absent, and it returns 0 only
if there is nothing to be found. -/
def FindsFree (region : Region) (num : Nat) : Prop :=
  ∃ found, (∃ steps, vmContextFindFree memory context region.finish num steps region.start = some found) ∧
    (found ≠ 0 → Fits region num found ∧ Absent memory context num found) ∧
    (found = 0 → ∀ address, Fits region num address → ¬Absent memory context num address)

/-- When it is what it is for: the pages are in the region, or no row of absent pages begins in the region at all. At the top
of the address space the search moreover has to stop at address 0. -/
def Searchable (region : Region) (num : Nat) : Prop :=
  (∃ address, Fits region num address ∧ Absent memory context num address) ∨
    ((∀ address, address % 4096 = 0 → region.start ≤ address → address ≤ region.finish → address ≠ 0 →
      ¬Absent memory context num address) ∧
      (region.finish + 1 = 2 ^ 64 → Absent memory context num 0))

end

section

variable {memory : Memory} {context finish num current found : Nat} {region : Region}

/-- Some of the pages at an address are present. -/
def occupied (memory : Memory) (context num current : Nat) : Bool :=
  vmContextPagePresent memory context current ||
    (List.range num).any (fun i => vmContextPagePresent memory context (u64 (current + i * 4096)))

/-- What is returned at an address. -/
def answer (memory : Memory) (context finish num current : Nat) : Option Nat :=
  if current ≤ finish then if occupied memory context num current then none else some current else some 0

def following (current : Nat) : Nat := u64 (current + 4096)

theorem vmContextFindFree_search (memory : Memory) (context finish num steps current : Nat) :
    vmContextFindFree memory context finish num steps current =
    search (answer memory context finish num) following steps current := by
  induction steps generalizing current with
  | zero => rfl
  | succ steps ih =>
    rw [vmContextFindFree, search, answer, occupied, ih (u64 (current + 4096))]
    by_cases inside : current ≤ finish <;> cases here : vmContextPagePresent memory context current <;>
      cases later : (range num).any (fun i => vmContextPagePresent memory context (u64 (current + i * 4096))) <;>
      simp [inside, following]

theorem occupied_iff (positive : 1 ≤ num) (word : current < 2 ^ 64) :
    occupied memory context num current = false ↔ Absent memory context num current := by
  rw [occupied, Bool.or_eq_false_iff, any_eq_false]
  constructor
  · rintro ⟨_, absent⟩ i small
    simpa using absent i (mem_range.mpr small)
  · intro absent
    constructor
    · have first := absent 0 positive
      rwa [zero_mul, add_zero, u64_of_lt word] at first
    · intro i member
      simpa using absent i (mem_range.mp member)

theorem answer_inside (positive : 1 ≤ num) (word : current < 2 ^ 64) (inside : current ≤ finish) :
    answer memory context finish num current = some found ↔ found = current ∧ Absent memory context num current := by
  rw [answer, if_pos inside, Option.ite_none_left_eq_some, Bool.not_eq_true, occupied_iff positive word, Option.some.injEq,
    and_comm, eq_comm]

theorem answer_outside (outside : finish < current) : answer memory context finish num current = some 0 := by
  rw [answer, if_neg (not_le.mpr outside)]

theorem following_iterate (start count : Nat) (word : start < 2 ^ 64) :
    following^[count] start = u64 (start + count * 4096) := by
  induction count with
  | zero => rw [Function.iterate_zero_apply, Nat.add_zero, u64_of_lt word]
  | succ count ih =>
    rw [Function.iterate_succ_apply', ih, following, u64, u64, u64, Nat.mod_add_mod, Nat.add_assoc, ← Nat.add_one_mul]

/-- The states of the search that are in front of the end of the region. -/
theorem following_inside {start count : Nat} (below : start + count * 4096 < 2 ^ 64) :
    following^[count] start = start + count * 4096 := by
  rw [following_iterate start count (by omega), u64_of_lt below]

/-- The pages of a region are those that the search comes to. -/
theorem exists_count {start address : Nat} (startAligned : start % 4096 = 0) (aligned : address % 4096 = 0)
    (low : start ≤ address) : ∃ count, address = start + count * 4096 :=
  ⟨(address - start) / 4096, by omega⟩

variable (proper : region.Proper) (positive : 1 ≤ num)
include proper positive

/-- Where there is room for pages the address is not 0. -/
theorem Fits.nonzero {address : Nat} (fits : Fits region num address) : address ≠ 0 := by
  intro zero
  have low := fits.low
  have high := fits.high
  have empty := proper.zero (by omega)
  omega

/-- The search stops no later than at a row that is in the region, and the row it stops at ends no later. -/
theorem findsFree_of_fits {address : Nat} (fits : Fits region num address)
    (absent : Absent memory context num address) : FindsFree memory context region num := by
  have top := proper.top
  have high := fits.high
  obtain ⟨count, addressIs⟩ := exists_count proper.aligned fits.aligned fits.low
  have reached : following^[count] region.start = address := by
    rw [following_inside (by omega), addressIs]
  have answers : answer memory context region.finish num (following^[count] region.start) = some address := by
    rw [reached, answer_inside positive (by omega) (by omega)]
    exact ⟨rfl, absent⟩
  obtain ⟨earlier, before, found, last, steps, ends⟩ := ends_by answers
  have aligned := proper.aligned
  rw [following_inside (by omega), answer_inside positive (by omega) (by omega)] at last
  obtain ⟨foundIs, free⟩ := last
  rw [← foundIs] at free
  have placed : Fits region num found := ⟨by omega, by omega, by omega⟩
  refine ⟨found, ⟨steps, (vmContextFindFree_search ..).trans ends⟩, fun _ => ⟨placed, free⟩, ?_⟩
  exact fun zero => absurd zero (placed.nonzero proper positive)

/-- The search passes all pages of the region and stops behind it. -/
theorem findsFree_of_none
    (nowhere : ∀ address, address % 4096 = 0 → region.start ≤ address → address ≤ region.finish → address ≠ 0 →
    ¬Absent memory context num address)
    (stops : region.finish + 1 = 2 ^ 64 → Absent memory context num 0) : FindsFree memory context region num := by
  have top := proper.top
  have ordered := proper.ordered
  have aligned := proper.aligned
  obtain ⟨count, countIs⟩ := @exists_eq _ ((region.finish - region.start) / 4096 + 1)
  have behind : answer memory context region.finish num (following^[count] region.start) = some 0 := by
    rw [following_iterate region.start count (by omega)]
    rcases top with last | room
    · have wrapped : u64 (region.start + count * 4096) = 0 := by
        rw [u64]
        omega
      rw [wrapped, answer_inside positive (by decide) (Nat.zero_le _)]
      exact ⟨rfl, stops last⟩
    · rw [u64_of_lt (by omega), answer_outside (by omega)]
  obtain ⟨earlier, before, found, answers, steps, ends⟩ := ends_by behind
  have zero : found = 0 := by
    by_cases last : earlier = count
    · rw [last, behind] at answers
      exact (Option.some.inj answers).symm
    · rw [following_inside (by omega), answer_inside positive (by omega) (by omega)] at answers
      obtain ⟨foundIs, absent⟩ := answers
      by_contra different
      exact nowhere _ (by omega) (by omega) (by omega) (by omega) absent
  refine ⟨found, ⟨steps, (vmContextFindFree_search ..).trans ends⟩, fun different => absurd zero different, ?_⟩
  intro _ address fits absent
  have high := fits.high
  exact nowhere address fits.aligned fits.low (by omega) (fits.nonzero proper positive) absent

/-- When nothing is in the region, what the search returns tells that it passed every page of the region. -/
theorem searchable_of_zero
    (ends : Ends (answer memory context region.finish num) following region.start 0) : Searchable memory context region num := by
  have top := proper.top
  have ordered := proper.ordered
  obtain ⟨count, last, before⟩ := ends_iff_first.mp ends
  refine .inr ⟨?_, ?_⟩
  · intro address aligned low high different absent
    obtain ⟨index, addressIs⟩ := exists_count proper.aligned aligned low
    have answers : answer memory context region.finish num (following^[index] region.start) = some address := by
      rw [following_inside (by omega), ← addressIs, answer_inside positive (by omega) high]
      exact ⟨rfl, absent⟩
    rcases lt_trichotomy index count with less | same | more
    · rw [before index less] at answers
      exact nomatch answers
    · rw [same, last] at answers
      exact different (Option.some.inj answers).symm
    · -- the search stopped in the region, which it does at address 0 only
      rw [following_inside (by omega), answer_inside positive (by omega) (by omega)] at last
      have empty := proper.zero (by omega)
      omega
  · intro atTop
    rw [following_iterate region.start count (by omega)] at last
    have word : u64 (region.start + count * 4096) < 2 ^ 64 := Nat.mod_lt _ (by decide)
    rw [answer_inside positive word (by omega)] at last
    exact last.1 ▸ last.2

end

/-- The search for absent pages of a region is sound and complete and comes to an end exactly if a row of them is in the region,
or none begins in it and the search stops where the address space begins anew. -/
theorem findsFree_iff (memory : Memory) (context num : Nat) (region : Region) (member : region ∈ regions) (positive : 1 ≤ num) :
    FindsFree memory context region num ↔ Searchable memory context region num := by
  have proper := regions_proper region member
  constructor
  · rintro ⟨found, ⟨steps, returned⟩, sound, _⟩
    by_cases zero : found = 0
    · subst zero
      exact searchable_of_zero proper positive ⟨steps, (vmContextFindFree_search ..).symm.trans returned⟩
    · exact .inl ⟨found, sound zero⟩
  · rintro (⟨address, fits, absent⟩ | ⟨nowhere, stops⟩)
    · exact findsFree_of_fits proper positive fits absent
    · exact findsFree_of_none proper positive nowhere stops

/-- A context without any page. -/
theorem absent_empty (num address : Nat) : Absent (fun _ _ => 0) 0 num address := by
  intro i _
  have zero : present.get 0#64 = 0 := by decide
  simp [vmContextPagePresent, zero]

/-- Two pages fit into the region of the bitmap of ports, and of an empty context it gets them. -/
theorem findsFree_iff_ioperm : FindsFree (fun _ _ => 0) 0 allocatorRegionUserIoperm 2 := by
  apply (findsFree_iff _ _ _ _ (by decide) (by decide)).mpr
  exact .inl ⟨0x00007FFFFFFFE000, ⟨by decide, by decide, by decide⟩, absent_empty _ _⟩

/-- Three pages do not fit, and are found nevertheless: the last of them is behind the region. -/
theorem finds_behind_region : ¬FindsFree (fun _ _ => 0) 0 allocatorRegionUserIoperm 3 := by
  rintro ⟨found, ⟨steps, returned⟩, sound, complete⟩
  have absent := absent_empty 3 0x00007FFFFFFFE000
  have answers : answer (fun _ _ => 0) 0 allocatorRegionUserIoperm.finish 3 0x00007FFFFFFFE000 =
      some 0x00007FFFFFFFE000 := (answer_inside (by decide) (by decide) (by decide)).mpr ⟨rfl, absent⟩
  rw [vmContextFindFree_search] at returned
  have here : Ends (answer (fun _ _ => 0) 0 allocatorRegionUserIoperm.finish 3) following
      allocatorRegionUserIoperm.start 0x00007FFFFFFFE000 := ends_here answers
  have same := ends_unique here ⟨steps, returned⟩
  have high := (sound (by omega)).1.high
  have finish : allocatorRegionUserIoperm.finish = 0x00007FFFFFFFFFFF := rfl
  omega

end Lfos.PageSearch
