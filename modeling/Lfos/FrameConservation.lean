import Lfos.PhysicalMarking
import Mathlib.Data.Finset.Interval
import Mathlib.Order.Interval.Finset.Nat

/-!
# Conservation of physical frames

A run bootstraps the page list, marks disjoint regions free and then allocates
and frees in any order. Frames that were handed out and not given back are
recorded beside the list. One balance carries every result: the number of
regions holding a frame plus its recorded ownership is the number of initially
marked regions holding it. Disjoint initial regions make that number at most
one, so no frame is ever in two regions or both free and owned.
-/

namespace Lfos.PhysicalPages

open Spans Words List Finset
open PageListEntry (frames)

/-- A page-aligned region of the initial memory map that does not wrap. -/
structure FreeRegion where
  start : Nat
  count : Nat
  aligned : start % 4096 = 0
  bounded : start + count * 4096 < 2 ^ 64

/-- The frames of an initial region. -/
def FreeRegion.frames (region : FreeRegion) : Span := ⟨region.start / 4096, region.count⟩

/-- Mark the regions free in the order of the memory map. -/
def markFree (list : List PageListEntry) : List FreeRegion → Except String (List PageListEntry)
  | [] => .ok list
  | region :: rest =>
    match mmMarkPhysicalPages granted list region.start region.count .free with
    | .error message => .error message
    | .ok marked => markFree marked rest

/-- `count` consecutive frame numbers. -/
def block (frame count : Nat) : Finset Nat := Finset.Ico frame (frame + count)

/-- The page list and the frames handed out, after some history. A range may be
freed when all its frames are handed out, or when it lies in one free region. -/
inductive Run (regions : List FreeRegion) : List PageListEntry → Finset Nat → Prop where
  | marked {list : List PageListEntry} (initial : markFree mmBootstrap regions = .ok list) :
      Run regions list ∅
  | allocated {list changed : List PageListEntry} {owned : Finset Nat} {count address : Nat}
      (earlier : Run regions list owned) (positive : 1 ≤ count)
      (served : mmAllocPages count list = .ok (address, changed)) :
      Run regions changed (owned ∪ block (address / 4096) count)
  | freed {list changed : List PageListEntry} {owned : Finset Nat} {frame count : Nat}
      (earlier : Run regions list owned) (positive : 1 ≤ count)
      (returned : block frame count ⊆ owned ∨
        ∃ entry ∈ list, entry.status = .free ∧ Span.Within ⟨frame, count⟩ entry.frames)
      (done : mmMarkPhysicalPages granted list (frame * 4096) count .free = .ok changed) :
      Run regions changed (owned \ block frame count)

/-- Some region with status free holds the frame. -/
def FreeAt (list : List PageListEntry) (frame : Nat) : Prop :=
  ∃ entry ∈ list, entry.status = .free ∧ entry.frames.Holds frame

/-- Only unused slots and free regions are listed. -/
def OnlyFree (list : List PageListEntry) : Prop :=
  ∀ entry ∈ list, entry = mmDelPageListEntry ∨ (entry.status = .free ∧ entry.Placed)

/-- One for an owned frame and zero elsewhere. -/
def ownedWeight (owned : Finset Nat) (frame : Nat) : Nat := if frame ∈ owned then 1 else 0

/-- The invariant of a run: the list exists, records only free regions, and
accounts with the owned frames for every initially marked frame. -/
structure Balanced (regions : List FreeRegion) (list : List PageListEntry)
    (owned : Finset Nat) : Prop where
  nonempty : list ≠ []
  onlyFree : OnlyFree list
  balance : ∀ frame, cover frames list frame + ownedWeight owned frame =
    cover FreeRegion.frames regions frame

theorem mem_block (frame count candidate : Nat) :
    candidate ∈ block frame count ↔ (Span.mk frame count).Holds candidate := by
  simp [block, Span.Holds]

variable {count frame start : Nat} {list : List PageListEntry}

theorem onlyFree_placed (onlyFree : OnlyFree list) : ∀ entry ∈ list, entry.Placed := by
  intro entry member
  rcases onlyFree entry member with rfl | ⟨_, placed⟩
  · exact del_placed
  · exact placed

/-- On a list of free regions a frame is free exactly when it is held. -/
theorem freeAt_iff (onlyFree : OnlyFree list) (frame : Nat) : FreeAt list frame ↔ 0 < cover frames list frame := by
  rw [cover_pos_iff]
  constructor
  · rintro ⟨entry, member, _, held⟩
    exact ⟨entry, member, held⟩
  · rintro ⟨entry, member, held⟩
    rcases onlyFree entry member with rfl | ⟨free, _⟩
    · simp [Span.Holds, frames, mmDelPageListEntry] at held
    · exact ⟨entry, member, free, held⟩

/-- Allocation takes the front of one free region: it lowers the number of
holders by one exactly on the returned block. The list keeps its length and
remains a list of free regions. -/
theorem alloc_spec (count : Nat) (list changed : List PageListEntry) (address : Nat) (onlyFree : OnlyFree list)
    (served : mmAllocPages count list = .ok (address, changed)) :
    changed.length = list.length ∧ OnlyFree changed ∧ address % 4096 = 0 ∧ ∀ frame, cover frames changed frame +
    (Span.mk (address / 4096) count).weight frame = cover frames list frame := by
  induction list generalizing changed with
  | nil => simp [mmAllocPages] at served
  | cons current rest ih =>
    obtain ⟨currentFree, restFree⟩ := forall_mem_cons.mp onlyFree
    rw [mmAllocPages] at served
    split at served
    · next chosen =>
      obtain ⟨free, enough⟩ := chosen
      have placed : current.Placed := onlyFree_placed onlyFree current mem_cons_self
      obtain ⟨aligned, bounded⟩ := placed
      dsimp only at served
      split at served
      · cases served
        have advanced : u64 (current.start + 4096 * count) = current.start + 4096 * count := u64_of_lt (by omega)
        refine ⟨rfl, ?_, aligned, ?_⟩
        · refine forall_mem_cons.mpr ⟨.inr ⟨free, ?_, ?_⟩, restFree⟩
          · change u64 (current.start + 4096 * count) % 4096 = 0
            omega
          · change u64 (current.start + 4096 * count) + (current.count - count) * 4096 < 2 ^ 64
            omega
        · intro frame
          have behind : (current.start + 4096 * count) / 4096 = current.start / 4096 + count := by
            omega
          have parts : current.count = count + (current.count - count) := by omega
          have divided := Span.weight_split (current.start / 4096) count (current.count - count) frame
          rw [cover_cons, cover_cons]
          simp only [frames, advanced, behind]
          rw [← parts] at divided
          omega
      · cases served
        refine ⟨rfl, forall_mem_cons.mpr ⟨.inl rfl, restFree⟩, aligned, ?_⟩
        intro frame
        have same : count = current.count := by omega
        rw [cover_cons, cover_cons, same]
        rfl
    · split at served
      · simp at served
      · next ret tail inner =>
        cases served
        obtain ⟨length, tailFree, aligned, counted⟩ := ih tail restFree inner
        refine ⟨by simp [length], forall_mem_cons.mpr ⟨currentFree, tailFree⟩, aligned, ?_⟩
        intro frame
        have step := counted frame
        rw [cover_cons, cover_cons]
        omega

theorem fill_onlyFree {entry : PageListEntry}
    (onlyFree : OnlyFree list) (free : entry.status = .free) (placed : entry.Placed) :
    OnlyFree (fillEntry list entry) := by
  intro member listed
  rcases mem_fill listed with rfl | old | slot
  · exact Or.inr ⟨free, placed⟩
  · exact onlyFree member old
  · exact Or.inl slot

theorem unheld_search (onlyFree : OnlyFree list) (aligned : start % 4096 = 0) (positive : 1 ≤ count)
    (bounded : start + count * 4096 < 2 ^ 64) (unheld : cover frames list (start / 4096) = 0) :
    list.findIdx? (fun entry => entry.encloses start count) = none := by
  rw [findIdx?_eq_none_iff]
  intro entry member
  rw [Bool.eq_false_iff]
  intro enclosing
  have within := (encloses_iff entry start count (onlyFree_placed onlyFree entry member) aligned bounded).mp enclosing
  have present := (cover_pos_iff frames list _).mpr ⟨entry, member, within_holds_first positive within⟩
  omega

/-- Marking a region free that no region meets adds exactly its frames. -/
theorem mark_unmet (nonempty : list ≠ []) (onlyFree : OnlyFree list) (region : FreeRegion)
    (fresh : ∀ frame, cover frames list frame + region.frames.weight frame ≤ 1) :
    ∃ marked, mmMarkPhysicalPages granted list region.start region.count .free = .ok marked ∧ marked ≠ [] ∧
    OnlyFree marked ∧ ∀ frame, cover frames marked frame = cover frames list frame + region.frames.weight frame := by
  by_cases empty : region.count = 0
  · refine ⟨list, by simp [mmMarkPhysicalPages, empty], nonempty, onlyFree, ?_⟩
    intro frame
    rw [Span.weight_of_not, add_zero]
    simp only [Span.Holds, FreeRegion.frames]
    omega
  · have firstHeld : region.frames.weight (region.start / 4096) = 1 := by
      apply Span.weight_of_holds
      simp only [Span.Holds, FreeRegion.frames]
      omega
    have once := fresh (region.start / 4096)
    have missed := unheld_search onlyFree region.aligned (by omega) region.bounded (by omega)
    refine ⟨fillEntry list ⟨region.start, region.count, .free⟩, ?_, fill_ne_nil list _,
      fill_onlyFree onlyFree rfl ⟨region.aligned, region.bounded⟩, cover_fill _ list⟩
    simp [mmMarkPhysicalPages, granted, empty, nonempty, missed]

/-- Marking a range free inside a free region changes nothing. -/
theorem mark_within_free (onlyFree : OnlyFree list) (aligned : start % 4096 = 0) (positive : 1 ≤ count)
    (nonempty : list ≠ [])
    (inside : ∃ entry ∈ list, entry.status = .free ∧ Span.Within ⟨start / 4096, count⟩ entry.frames) :
    mmMarkPhysicalPages granted list start count .free = .ok list := by
  obtain ⟨entry, member, free, within⟩ := inside
  have placed := onlyFree_placed onlyFree
  obtain ⟨entryAligned, entryBounded⟩ := placed entry member
  have bounded : start + count * 4096 < 2 ^ 64 := by
    simp only [Span.Within, frames] at within
    omega
  rcases mark_cases .free (rfl : granted.pages list = list) placed nonempty positive aligned bounded with
    ⟨outside, _⟩ | ⟨_, _, _, _, marked⟩ | ⟨position, listed, _, _, held, other, _⟩
  · exact absurd within (outside entry member)
  · exact marked
  · rcases onlyFree _ (getElem_mem listed) with slot | ⟨status, _⟩
    · rw [slot] at held
      simp only [Span.Within, markedFrames, frames, mmDelPageListEntry] at held
      omega
    · exact absurd status other

/-- Marking the remaining regions of the memory map succeeds and adds exactly
their frames, as long as no frame would be held twice. -/
theorem markFree_spec (regions : List FreeRegion) (list : List PageListEntry)
    (nonempty : list ≠ []) (onlyFree : OnlyFree list)
    (fresh : ∀ frame, cover frames list frame + cover FreeRegion.frames regions frame ≤ 1) :
    ∃ marked, markFree list regions = .ok marked ∧ marked ≠ [] ∧ OnlyFree marked ∧
    ∀ frame, cover frames marked frame = cover frames list frame + cover FreeRegion.frames regions frame := by
  induction regions generalizing list with
  | nil => exact ⟨list, rfl, nonempty, onlyFree, by simp⟩
  | cons region rest ih =>
    simp only [cover_cons] at fresh ⊢
    obtain ⟨first, marking, notNull, onlyFree, added⟩ := mark_unmet nonempty onlyFree region (by
      intro frame
      have step := fresh frame
      omega)
    obtain ⟨marked, done, notNull, stillFree, counted⟩ := ih first notNull onlyFree (by
      intro frame
      have step := fresh frame
      rw [added]
      omega)
    refine ⟨marked, by rw [markFree, marking]; exact done, notNull, stillFree, ?_⟩
    intro frame
    rw [counted, added]
    omega

/-- Initial regions no two of which share a frame. -/
def DisjointFree (regions : List FreeRegion) : Prop :=
  regions.Pairwise (fun left right => left.frames.Apart right.frames)

section

variable {regions : List FreeRegion} {owned : Finset Nat}

theorem ownedWeight_of_mem (member : frame ∈ owned) : ownedWeight owned frame = 1 := if_pos member

theorem ownedWeight_of_not_mem (absent : frame ∉ owned) : ownedWeight owned frame = 0 := if_neg absent

/-- Frames that are owned are not free, and neither is counted twice. -/
theorem balance_le_one (disjoint : DisjointFree regions) (balanced : Balanced regions list owned) (frame : Nat) :
    cover frames list frame + ownedWeight owned frame ≤ 1 := by
  rw [balanced.balance]
  exact (pairwise_apart_iff FreeRegion.frames regions).mp disjoint frame

/-- Taking a block of held frames moves their count to the owner. -/
theorem ownedWeight_union (frame count candidate : Nat)
    (unowned : (Span.mk frame count).Holds candidate → candidate ∉ owned) :
    ownedWeight (owned ∪ block frame count) candidate =
    ownedWeight owned candidate + (Span.mk frame count).weight candidate := by
  by_cases held : (Span.mk frame count).Holds candidate
  · rw [ownedWeight_of_mem (mem_union_right _ ((mem_block _ _ _).mpr held)),
      ownedWeight_of_not_mem (unowned held), Span.weight_of_holds held]
  · have same : candidate ∈ owned ∪ block frame count ↔ candidate ∈ owned := by
      rw [mem_union, mem_block]
      exact or_iff_left held
    simp only [ownedWeight, same, Span.weight_of_not held, add_zero]

/-- Giving back an owned block moves the count away from the owner. -/
theorem ownedWeight_sdiff (frame count candidate : Nat) (returned : block frame count ⊆ owned) :
    ownedWeight (owned \ block frame count) candidate + (Span.mk frame count).weight candidate =
    ownedWeight owned candidate := by
  by_cases held : (Span.mk frame count).Holds candidate
  · have inBlock := (mem_block frame count candidate).mpr held
    rw [ownedWeight_of_mem (returned inBlock), Span.weight_of_holds held,
      ownedWeight_of_not_mem (fun member => (mem_sdiff.mp member).2 inBlock)]
  · have same : candidate ∈ owned \ block frame count ↔ candidate ∈ owned := by
      rw [mem_sdiff, mem_block]
      exact and_iff_left held
    simp only [ownedWeight, same, Span.weight_of_not held, add_zero]

/-- The range of owned frames lies in one address range that does not wrap: its
last frame belongs to an initial region. -/
theorem owned_bounded (balanced : Balanced regions list owned)
    (positive : 1 ≤ count) (returned : block frame count ⊆ owned) : frame * 4096 + count * 4096 < 2 ^ 64 := by
  have last : frame + count - 1 ∈ owned := returned ((mem_block _ _ _).mpr (by
    simp only [Span.Holds]
    omega))
  have counted := balanced.balance (frame + count - 1)
  rw [ownedWeight_of_mem last] at counted
  obtain ⟨region, _, held⟩ := (cover_pos_iff FreeRegion.frames regions (frame + count - 1)).mp (by omega)
  have regionBounded := region.bounded
  simp only [Span.Holds, FreeRegion.frames] at held
  omega

section

variable (disjoint : DisjointFree regions)
include disjoint

/-- Bootstrapping and marking the memory map never panics and reaches a balanced
list. -/
theorem marked_balanced : ∃ marked, markFree mmBootstrap regions = .ok marked ∧ Balanced regions marked ∅ := by
  have nothing : ∀ frame, cover frames mmBootstrap frame = 0 := cover_replicate_empty frames _ _ rfl
  have slots : OnlyFree mmBootstrap := by
    intro entry member
    exact Or.inl (eq_of_mem_replicate member)
  obtain ⟨marked, done, notNull, onlyFree, counted⟩ := markFree_spec regions mmBootstrap (by decide) slots (by
      intro frame
      rw [nothing, zero_add]
      exact (pairwise_apart_iff FreeRegion.frames regions).mp disjoint frame)
  refine ⟨marked, done, notNull, onlyFree, ?_⟩
  intro frame
  rw [counted, nothing, ownedWeight_of_not_mem (notMem_empty frame)]
  omega

section

variable (balanced : Balanced regions list owned)
include balanced

/-- Frames inside a free region are not owned. -/
theorem within_free_unowned (inside : ∃ entry ∈ list, entry.status = .free ∧ Span.Within ⟨frame, count⟩ entry.frames) :
    owned \ block frame count = owned := by
  obtain ⟨entry, member, _, within⟩ := inside
  apply sdiff_eq_self_of_disjoint
  rw [Finset.disjoint_left]
  intro candidate isOwned inBlock
  have held := Span.holds_of_within within ((mem_block _ _ _).mp inBlock)
  have present := (cover_pos_iff frames list candidate).mpr ⟨entry, member, held⟩
  have bound := balance_le_one disjoint balanced candidate
  rw [ownedWeight_of_mem isOwned] at bound
  omega

/-- The outcome of a permitted free. Owned frames are unheld, so their range is
inserted; a range inside a free region leaves the list alone. -/
theorem free_outcome (positive : 1 ≤ count) (returned : block frame count ⊆ owned ∨
    ∃ entry ∈ list, entry.status = .free ∧ Span.Within ⟨frame, count⟩ entry.frames) :
    ∃ changed, mmMarkPhysicalPages granted list (frame * 4096) count .free = .ok changed ∧
    Balanced regions changed (owned \ block frame count) := by
  have aligned : frame * 4096 % 4096 = 0 := Nat.mul_mod_left frame 4096
  have number : frame * 4096 / 4096 = frame := Nat.mul_div_cancel frame (by decide)
  rcases returned with isOwned | inside
  · have sameSpan : FreeRegion.frames ⟨frame * 4096, count, aligned, owned_bounded balanced positive isOwned⟩ =
        ⟨frame, count⟩ := by
      rw [FreeRegion.frames, number]
    obtain ⟨changed, done, notNull, onlyFree, added⟩ := mark_unmet balanced.nonempty balanced.onlyFree _ (by
      intro candidate
      have moved := ownedWeight_sdiff frame count candidate isOwned
      have bound := balance_le_one disjoint balanced candidate
      rw [sameSpan]
      omega)
    refine ⟨changed, done, notNull, onlyFree, ?_⟩
    intro candidate
    have moved := ownedWeight_sdiff frame count candidate isOwned
    have counted := balanced.balance candidate
    rw [added, sameSpan]
    omega
  · have unchanged := mark_within_free balanced.onlyFree aligned positive balanced.nonempty (by
      rw [number]
      exact inside)
    refine ⟨list, unchanged, balanced.nonempty, balanced.onlyFree, ?_⟩
    rw [within_free_unowned disjoint balanced inside]
    exact balanced.balance

/-- A served allocation keeps the balance: the block moves from the list to the
owner. The block was unowned because its frames were held. -/
theorem alloc_balanced {address : Nat} {changed : List PageListEntry}
    (served : mmAllocPages count list = .ok (address, changed)) :
    Balanced regions changed (owned ∪ block (address / 4096) count) := by
  obtain ⟨length, onlyFree, _, counted⟩ := alloc_spec count list changed address balanced.onlyFree served
  have stillSome : changed ≠ [] := by
    intro empty
    rw [empty] at length
    exact balanced.nonempty (length_eq_zero_iff.mp length.symm)
  refine ⟨stillSome, onlyFree, ?_⟩
  intro candidate
  have step := counted candidate
  have moved : ownedWeight (owned ∪ block (address / 4096) count) candidate =
      ownedWeight owned candidate + (Span.mk (address / 4096) count).weight candidate := by
    apply ownedWeight_union
    intro held isOwned
    have bound := balance_le_one disjoint balanced candidate
    rw [Span.weight_of_holds held] at step
    rw [ownedWeight_of_mem isOwned] at bound
    omega
  have before := balanced.balance candidate
  omega

end

/-- Every run is balanced.

Proof: induction over the history. The memory map establishes the balance; an
allocation and a free each move the same frames on both sides of the account. -/
theorem run_balanced (run : Run regions list owned) : Balanced regions list owned := by
  induction run with
  | marked initial =>
    obtain ⟨marked, done, balanced⟩ := marked_balanced disjoint
    rw [initial] at done
    cases done
    exact balanced
  | allocated earlier positive served balanced => exact alloc_balanced disjoint balanced served
  | freed earlier positive returned done balanced =>
    obtain ⟨changed, result, after⟩ := free_outcome disjoint balanced positive returned
    rw [done] at result
    cases result
    exact after

end

/-- No physical frame is handed out twice. After every history the free regions
are pairwise disjoint; a served allocation returns consecutive frames that were
free and are free in no region afterwards; free and owned frames together are
exactly the initially marked ones and no frame is both; and a permitted free,
like the initial marking, never panics. -/
theorem frames_never_handed_out_twice (disjoint : DisjointFree regions) (run : Run regions list owned) :
    (list.filter (fun entry => entry.status = .free)).Pairwise (fun left right => left.frames.Apart right.frames) ∧
    (∀ count address changed, 1 ≤ count → mmAllocPages count list = .ok (address, changed) →
      address % 4096 = 0 ∧ ∀ frame ∈ block (address / 4096) count,
        FreeAt list frame ∧ frame ∉ owned ∧ ¬ FreeAt changed frame) ∧
    (∀ frame, (FreeAt list frame ∨ frame ∈ owned ↔ ∃ region ∈ regions, region.frames.Holds frame) ∧
      ¬ (FreeAt list frame ∧ frame ∈ owned)) ∧ (∀ frame count, 1 ≤ count → (block frame count ⊆ owned ∨
        ∃ entry ∈ list, entry.status = .free ∧ Span.Within ⟨frame, count⟩ entry.frames) →
      ∃ changed, mmMarkPhysicalPages granted list (frame * 4096) count .free = .ok changed) ∧
    (∃ initial, markFree mmBootstrap regions = .ok initial) := by
  have balanced := run_balanced disjoint run
  have bound := balance_le_one disjoint balanced
  refine ⟨?_, ?_, ?_, ?_, ?_⟩
  · apply List.Pairwise.filter
    rw [pairwise_apart_iff]
    intro frame
    exact le_trans (Nat.le_add_right _ _) (bound frame)
  · intro count address changed _ served
    obtain ⟨_, onlyFree, aligned, counted⟩ := alloc_spec count list changed address balanced.onlyFree served
    refine ⟨aligned, ?_⟩
    intro frame inBlock
    have step := counted frame
    have total := bound frame
    rw [Span.weight_of_holds ((mem_block _ _ _).mp inBlock)] at step
    rw [freeAt_iff balanced.onlyFree, freeAt_iff onlyFree]
    refine ⟨by omega, ?_, by omega⟩
    intro isOwned
    rw [ownedWeight_of_mem isOwned] at total
    omega
  · intro frame
    have account := balanced.balance frame
    have total := bound frame
    rw [freeAt_iff balanced.onlyFree, ← cover_pos_iff]
    by_cases isOwned : frame ∈ owned
    · rw [ownedWeight_of_mem isOwned] at account total
      refine ⟨⟨fun _ => by omega, fun _ => Or.inr isOwned⟩, ?_⟩
      omega
    · rw [ownedWeight_of_not_mem isOwned] at account
      refine ⟨⟨?_, fun marked => Or.inl (by omega)⟩, fun both => isOwned both.2⟩
      rintro (held | impossible)
      · omega
      · exact absurd impossible isOwned
  · intro frame count positive returned
    obtain ⟨changed, result, _⟩ := free_outcome disjoint balanced positive returned
    exact ⟨changed, result⟩
  · obtain ⟨marked, done, _⟩ := marked_balanced disjoint
    exact ⟨marked, done⟩

end

/-- A region of eight pages after its first page was handed out. -/
theorem frames_never_handed_out_twice_after_one :
    ∃ (region : FreeRegion) (list : List PageListEntry) (owned : Finset Nat),
      Run [region] list owned ∧ 8 ∈ owned ∧ ¬ (FreeAt list 8 ∧ 8 ∈ owned) := by
  let region : FreeRegion := ⟨0x8000, 8, by decide, by decide⟩
  let slots := List.replicate (entriesPerPage - 1) mmDelPageListEntry
  have disjoint : DisjointFree [region] := by simp [DisjointFree]
  have initial : markFree mmBootstrap [region] = .ok (⟨0x8000, 8, .free⟩ :: slots) := by
    decide +kernel
  have served : mmAllocPages 1 (⟨0x8000, 8, .free⟩ :: slots) = .ok (0x8000, ⟨0x9000, 7, .free⟩ :: slots) := by rfl
  have run := (Run.marked initial).allocated (by decide) served
  exact ⟨region, _, _, run, by decide, ((frames_never_handed_out_twice disjoint run).2.2.1 8).2⟩

end Lfos.PhysicalPages
