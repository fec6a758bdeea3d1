import Lfos.PhysicalPages

/-!
# Marking a range of physical pages

Marking is examined on a list of disjoint regions below `2 ^ 64`, read
as a partial map from frames to statuses. The map is updated exactly at the
marked range when a region of the same status already contains the range, or
when no region meets it and there is an unused entry for it. Without one the
list has to grow, and the page for its new entries is taken from a free region.
In every other position the result is wrong: splitting a region of another
status installs a remainder whose page count is a wrapped byte difference, and a
range across a region border is inserted without shortening the regions it
overlaps.
-/

namespace Lfos.PhysicalPages

open Spans Words List
open PageListEntry (frames)

/-- The marked frames, as a span of page numbers. -/
def markedFrames (start count : Nat) : Span := ⟨start / 4096, count⟩

/-- Disjoint, page-aligned regions below `2 ^ 64`. Unused slots qualify. -/
def DisjointRegions (list : List PageListEntry) : Prop :=
  (∀ entry ∈ list, entry.Placed) ∧ list.Pairwise (fun left right => left.frames.Apart right.frames)

/-- The page list was updated exactly at the marked range: each marked frame has
the new status in exactly one region, every other frame keeps its status and
the regions are still pairwise disjoint. -/
def UpdatedExactly (before after : List PageListEntry) (start count : Nat) (status : PageStatus) : Prop :=
  (∀ frame, (markedFrames start count).Holds frame → statusesAt after frame = [status]) ∧
  (∀ frame, ¬ (markedFrames start count).Holds frame → statusesAt after frame = statusesAt before frame) ∧
  after.Pairwise (fun left right => left.frames.Apart right.frames)

/-- A region of the requested status contains the range, or no region shares a frame
with it and there is an unused entry. -/
def Markable (list : List PageListEntry) (start count : Nat) (status : PageStatus) : Prop :=
  (∃ entry ∈ list, entry.status = status ∧ (markedFrames start count).Within entry.frames) ∨
    (∀ entry ∈ list, (markedFrames start count).Apart entry.frames) ∧ 0 < list.countP PageListEntry.unused

/-- An entry goes into the first unused entry if there is one. -/
structure Keeper.Reuses {σ ε : Type} (keeper : Keeper σ ε) : Prop where
  stored : ∀ state list, keeper.pages (keeper.store state list) = list
  reused : ∀ state entry, 0 < (keeper.pages state).countP PageListEntry.unused →
    ∃ after, keeper.put state entry = .ok after ∧ keeper.pages after = fillEntry (keeper.pages state) entry

/-- The call returns, and the list is updated exactly at the range. -/
def Exact {σ ε : Type} (keeper : Keeper σ ε) (state : σ) (start count : Nat) (status : PageStatus) : Prop :=
  ∃ after, mmMarkPhysicalPages keeper state start count status = .ok after ∧
    UpdatedExactly (keeper.pages state) (keeper.pages after) start count status

/-- Below `2 ^ 64` the two 64-bit end addresses are exact, so the loop's
test is containment of the frames. -/
theorem encloses_iff (entry : PageListEntry) (start count : Nat) (placed : entry.Placed)
    (aligned : start % 4096 = 0) (bounded : start + count * 4096 < 2 ^ 64) :
    entry.encloses start count = true ↔ (markedFrames start count).Within entry.frames := by
  obtain ⟨entryAligned, entryBounded⟩ := placed
  rw [PageListEntry.encloses, u64_of_lt (by omega), u64_of_lt (by omega)]
  simp only [Bool.and_eq_true, decide_eq_true_eq, Span.Within, markedFrames, frames]
  omega

/-- A nonempty range inside a region meets it. -/
theorem within_holds_first {start count : Nat} {span : Span} (positive : 1 ≤ count)
    (within : (markedFrames start count).Within span) : span.Holds (start / 4096) := by
  simp only [Span.Within, Span.Holds, markedFrames] at *
  omega

section

variable {σ ε : Type} {keeper : Keeper σ ε} {state : σ} {list : List PageListEntry} {start count : Nat}

/-- The three outcomes of the search. Either no entry encloses the range and the
range is inserted, or the first enclosing entry has the requested status and
nothing changes, or that entry is split. The remainder installed by a split
starts behind the range and extends beyond every region. -/
theorem mark_cases (status : PageStatus) (kept : keeper.pages state = list) (placed : ∀ entry ∈ list, entry.Placed)
    (nonempty : list ≠ []) (positive : 1 ≤ count) (aligned : start % 4096 = 0)
    (bounded : start + count * 4096 < 2 ^ 64) :
    ((∀ entry ∈ list, ¬ (markedFrames start count).Within entry.frames) ∧
    mmMarkPhysicalPages keeper state start count status = keeper.put state ⟨start, count, status⟩) ∨
    (∃ entry ∈ list, (markedFrames start count).Within entry.frames ∧ entry.status = status ∧
    mmMarkPhysicalPages keeper state start count status = .ok state) ∨
    (∃ (position : Nat) (inside : position < list.length) (first : PageListEntry) (excess : Nat),
    (markedFrames start count).Within list[position].frames ∧ list[position].status ≠ status ∧
    2 ^ 64 ≤ start + count * 4096 + excess * 4096 ∧ mmMarkPhysicalPages keeper state start count status =
    (keeper.put (keeper.store state (list.set position first))
      ⟨start + count * 4096, excess, list[position].status⟩).bind
      (fun state => keeper.put state ⟨start, count, status⟩)) := by
  have someCount : count ≠ 0 := by omega
  cases search : list.findIdx? (fun entry => entry.encloses start count) with
  | none =>
    refine Or.inl ⟨?_, by simp [mmMarkPhysicalPages, kept, someCount, nonempty, search]⟩
    intro entry member within
    have enclosing := (encloses_iff entry start count (placed entry member) aligned bounded).mpr within
    simp [findIdx?_eq_none_iff.mp search entry member] at enclosing
  | some position =>
    obtain ⟨inside, enclosing, _⟩ := findIdx?_eq_some_iff_getElem.mp search
    have within := (encloses_iff list[position] start count (placed _ (getElem_mem inside)) aligned bounded).mp enclosing
    have found : list.getD position mmDelPageListEntry = list[position] := by simp [inside]
    by_cases same : list[position].status = status
    · refine Or.inr (Or.inl ⟨list[position], getElem_mem inside, within, same, ?_⟩)
      simp only [mmMarkPhysicalPages, kept, someCount, nonempty, search, found, same, ↓reduceIte]
    · obtain ⟨entryAligned, entryBounded⟩ := placed _ (getElem_mem inside)
      have bounds := within
      simp only [Span.Within, markedFrames, frames] at bounds
      have startSecond : u64 (start + count * 4096) = start + count * 4096 := u64_of_lt (by omega)
      obtain ⟨first, firstIs⟩ := @exists_eq _ (if (start - list[position].start) / 4096 = 0 then mmDelPageListEntry
        else { list[position] with count := (start - list[position].start) / 4096 })
      -- What is left of the region ends where the range begins, or is deleted.
      have ends : first.start + first.count * 4096 ≤ start := by
        rw [firstIs]
        split
        · exact Nat.zero_le _
        · dsimp only
          omega
      obtain ⟨excess, excessIs⟩ := @exists_eq _ (u64Sub (first.start + first.count * 4096) (start + count * 4096))
      have wrapped := excessIs.trans (u64Sub_of_lt (by omega) bounded)
      have large : excess ≠ 0 := by omega
      refine Or.inr (Or.inr ⟨position, inside, first, excess, within, same, by omega, ?_⟩)
      simp only [mmMarkPhysicalPages, kept, someCount, nonempty, search, found, same, ← firstIs, startSecond, ← excessIs,
        large, ↓reduceIte, ne_eq, not_false_eq_true]

/-- Inserting a range that meets no region updates the map exactly there. -/
theorem fill_updates (status : PageStatus) (regions : DisjointRegions list) (apart : ∀ entry ∈ list,
    (markedFrames start count).Apart entry.frames) :
    UpdatedExactly list (fillEntry list ⟨start, count, status⟩) start count status := by
  have atMostOne := (pairwise_apart_iff frames list).mp regions.2
  have bound : ∀ frame, cover frames (fillEntry list ⟨start, count, status⟩) frame ≤ 1 := by
    intro frame
    rw [cover_fill, Span.weight]
    split
    · next held =>
      have alone : ¬ 0 < cover frames list frame := by
        rw [cover_pos_iff]
        rintro ⟨entry, member, also⟩
        exact apart entry member frame ⟨held, also⟩
      omega
    · exact atMostOne frame
  refine ⟨?_, ?_, (pairwise_apart_iff frames _).mpr bound⟩
  · intro frame held
    rw [statusesAt, filter_eq_singleton frames _ frame ⟨start, count, status⟩
      (fill_mem list _) held (bound frame)]
    rfl
  · intro frame outside
    exact statuses_fill list _ frame outside

/-- A range inside a region of the same status already has that status. -/
theorem same_updates (regions : DisjointRegions list) {entry : PageListEntry} {status : PageStatus}
    (member : entry ∈ list) (within : (markedFrames start count).Within entry.frames)
    (same : entry.status = status) : UpdatedExactly list list start count status := by
  have atMostOne := (pairwise_apart_iff frames list).mp regions.2
  refine ⟨?_, fun _ _ => rfl, regions.2⟩
  intro frame held
  rw [statusesAt, filter_eq_singleton frames list frame entry member
    (Span.holds_of_within within held) (atMostOne frame)]
  simp [same]

/-- After a split the first frame behind the old region is held once more than
before: the region's own entry never held it and the remainder reaches past it. -/
theorem split_overcounts (status oldStatus : PageStatus) (first : PageListEntry) (placed : ∀ entry ∈ list, entry.Placed)
    (aligned : start % 4096 = 0) {position : Nat} (inside : position < list.length)
    (within : (markedFrames start count).Within list[position].frames) {excess : Nat}
    (reach : 2 ^ 64 ≤ start + count * 4096 + excess * 4096) :
    ∃ frame, ¬ (markedFrames start count).Holds frame ∧ cover frames list frame <
    cover frames (fillEntry (fillEntry (list.set position first)
      ⟨start + count * 4096, excess, oldStatus⟩) ⟨start, count, status⟩) frame := by
  obtain ⟨entryAligned, entryBounded⟩ := placed _ (getElem_mem inside)
  refine ⟨list[position].start / 4096 + list[position].count, ?_, ?_⟩
  · simp only [Span.Within, Span.Holds, frames] at *
    omega
  · have exchanged := cover_set frames list position inside first
      (list[position].start / 4096 + list[position].count)
    have behind : list[position].frames.weight (list[position].start / 4096 + list[position].count) = 0 :=
      Span.weight_of_not (by simp [Span.Holds, frames])
    have reached : (PageListEntry.mk (start + count * 4096) excess oldStatus).frames.weight
        (list[position].start / 4096 + list[position].count) = 1 := by
      apply Span.weight_of_holds
      simp only [Span.Within, markedFrames, frames, Span.Holds] at within ⊢
      omega
    rw [cover_fill, cover_fill]
    omega

section

variable (reuses : keeper.Reuses) (status : PageStatus) (regions : DisjointRegions (keeper.pages state))
  (positive : 1 ≤ count) (aligned : start % 4096 = 0) (bounded : start + count * 4096 < 2 ^ 64)
include reuses regions positive aligned bounded

/-- A range that can be marked is marked exactly. -/
theorem Markable.exact (markable : Markable (keeper.pages state) start count status) :
    Exact keeper state start count status := by
  have firstHeld : (markedFrames start count).Holds (start / 4096) := by
    simp only [Span.Holds, markedFrames]
    omega
  have nonempty : keeper.pages state ≠ [] := by
    rcases markable with ⟨_, member, _⟩ | ⟨_, slot⟩
    · exact ne_nil_of_mem member
    · exact ne_nil_of_mem (countP_pos_iff.mp slot).choose_spec.1
  rcases mark_cases status rfl regions.1 nonempty positive aligned bounded with
    ⟨uncontained, inserted⟩ | ⟨entry, member, within, same, unchanged⟩ | ⟨position, inside, _, _, within, other, _⟩
  · rcases markable with ⟨entry, member, _, within⟩ | ⟨apart, slot⟩
    · exact absurd within (uncontained entry member)
    · obtain ⟨after, put, filled⟩ := reuses.reused state ⟨start, count, status⟩ slot
      exact ⟨after, inserted.trans put, filled ▸ fill_updates status regions apart⟩
  · exact ⟨state, unchanged, same_updates regions member within same⟩
  · exfalso
    have present := within_holds_first positive within
    rcases markable with ⟨entry, member, same, also⟩ | ⟨apart, _⟩
    · -- Two regions would hold the first marked frame, so they are the same region.
      have shared := within_holds_first positive also
      have once := (pairwise_apart_iff frames _).mp regions.2 (start / 4096)
      have left := filter_eq_singleton frames _ _ entry member shared once
      have right := filter_eq_singleton frames _ _ _ (getElem_mem inside) present once
      have equal : entry = (keeper.pages state)[position] := by simpa using left.symm.trans right
      exact other (equal ▸ same)
    · exact apart _ (getElem_mem inside) _ ⟨firstHeld, present⟩

/-- With two unused entries no call makes the list grow. A split then overcounts the frame
behind the old region, and an insertion that meets a region holds the shared frame twice. -/
theorem Exact.markable (slots : 2 ≤ (keeper.pages state).countP PageListEntry.unused)
    (exact : Exact keeper state start count status) : Markable (keeper.pages state) start count status := by
  obtain ⟨after, result, marked, kept, _⟩ := exact
  have slot : 0 < (keeper.pages state).countP PageListEntry.unused := by omega
  have nonempty : keeper.pages state ≠ [] := ne_nil_of_mem (countP_pos_iff.mp slot).choose_spec.1
  rcases mark_cases status rfl regions.1 nonempty positive aligned bounded with
    ⟨_, inserted⟩ | ⟨entry, member, within, same, _⟩ | ⟨position, inside, first, excess, within, _, reach, split⟩
  · refine .inr ⟨?_, slot⟩
    rintro entry member frame ⟨held, also⟩
    obtain ⟨put, done, filled⟩ := reuses.reused state ⟨start, count, status⟩ slot
    cases (result.symm.trans inserted).trans done
    have one := congrArg List.length (marked frame held)
    have present := (cover_pos_iff frames _ frame).mpr ⟨entry, member, also⟩
    have added : (PageListEntry.mk start count status).frames.weight frame = 1 := Span.weight_of_holds held
    rw [statuses_length, filled, cover_fill, length_singleton] at one
    omega
  · exact .inl ⟨entry, member, same, within⟩
  · exfalso
    obtain ⟨frame, outside, overcount⟩ := split_overcounts status
      (keeper.pages state)[position].status first regions.1 aligned inside within reach
    have old : ¬ (keeper.pages state)[position].unused = true := by
      rw [unused_iff]
      intro deleted
      have present := within_holds_first positive within
      simp [deleted, Span.Holds, frames, mmDelPageListEntry] at present
    have still : 2 ≤ ((keeper.pages state).set position first).countP PageListEntry.unused := by
      rw [countP_set inside, if_neg old]
      omega
    obtain ⟨halfway, done, filled⟩ := reuses.reused (keeper.store state ((keeper.pages state).set position first))
      ⟨start + count * 4096, excess, (keeper.pages state)[position].status⟩ (by rw [reuses.stored]; omega)
    rw [reuses.stored] at filled
    have used : (PageListEntry.mk (start + count * 4096) excess (keeper.pages state)[position].status).unused = false := by
      rw [Bool.eq_false_iff, ne_eq, unused_iff, mmDelPageListEntry, PageListEntry.mk.injEq]
      omega
    obtain ⟨last, again, filledAgain⟩ := reuses.reused halfway ⟨start, count, status⟩ (by
      rw [filled]
      have fewer := fill_unused used (lt_of_lt_of_le Nat.two_pos still)
      omega)
    rw [done] at split
    cases (result.symm.trans split).trans again
    have unchanged := congrArg List.length (kept frame outside)
    rw [statuses_length, statuses_length, filledAgain, filled] at unchanged
    omega

end

end

end Lfos.PhysicalPages
