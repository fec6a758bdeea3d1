import Mathlib.Data.List.Nodup
import Mathlib.Data.List.Perm.Subperm
import Mathlib.Data.List.Range

/-!
# Linked cells in a heap

A heap maps addresses to live cells. A segment is the list of addresses visited
by following one link field from a start address to a stop address; a chain is a
segment that stops at the null address zero. Only the addresses are recorded, so
writing a cell without changing its link leaves every segment as it is. The
remaining laws are the usual ones: a segment is determined by its ends, does not
see writes elsewhere, and splits wherever its address list does.
-/

namespace Lfos.LinkedHeap

open List Function

universe u
variable {α : Type u}

/-- Live cells by address. -/
abbrev Heap (α : Type u) := Nat → Option α

/-- Store a cell; an unused address becomes live. -/
def Heap.write (heap : Heap α) (address : Nat) (cell : α) : Heap α :=
  update heap address (some cell)

/-- End the life of a cell. -/
def Heap.release (heap : Heap α) (address : Nat) : Heap α := update heap address none

@[simp] theorem write_here (heap : Heap α) (address : Nat) (cell : α) :
    heap.write address cell address = some cell := update_self ..

variable {start address stop : Nat} {cell : α} {addresses : List Nat}

theorem write_elsewhere (heap : Heap α) {other : Nat} (cell : α) (different : other ≠ address) :
    heap.write address cell other = heap other := update_of_ne different ..

theorem write_write (heap : Heap α) (address : Nat) (first second : α) :
    (heap.write address first).write address second = heap.write address second := update_idem ..

@[simp] theorem release_here (heap : Heap α) (address : Nat) : heap.release address address = none := update_self ..

theorem release_elsewhere (heap : Heap α) {other : Nat} (different : other ≠ address) :
    heap.release address other = heap other := update_of_ne different ..

section

variable {heap : Heap α} {place : Nat → Prop} (all : ∀ target old, heap target = some old → place target)
include all

/-- Writing at such a place, live cells stay within some places. -/
theorem live_write (here : place address) (target : Nat) (found : α)
    (stored : heap.write address cell target = some found) : place target := by
  by_cases same : target = address
  · exact same ▸ here
  · rw [write_elsewhere heap cell same] at stored
    exact all target found stored

theorem live_release (target : Nat) (found : α) (stored : heap.release address target = some found) : place target := by
  by_cases same : target = address
  · rw [same, release_here] at stored
    cases stored
  · rw [release_elsewhere heap same] at stored
    exact all target found stored

end

/-- The addresses from `start` along the link, up to but excluding `stop`. -/
def Segment (link : α → Nat) (heap : Heap α) : Nat → List Nat → Nat → Prop
  | start, [], stop => start = stop
  | start, address :: rest, stop =>
    start = address ∧ address ≠ 0 ∧ ∃ cell, heap address = some cell ∧ Segment link heap (link cell) rest stop

/-- A segment that ends at the null address. -/
def Chain (link : α → Nat) (heap : Heap α) (start : Nat) (addresses : List Nat) : Prop :=
  Segment link heap start addresses 0

variable {link : α → Nat} {heap : Heap α}

/-- Cutting the address list cuts the segment, and conversely. -/
theorem segment_append (left right : List Nat) : Segment link heap start (left ++ right) stop ↔
    ∃ middle, Segment link heap start left middle ∧ Segment link heap middle right stop := by
  induction left generalizing start with
  | nil => simp [Segment]
  | cons address rest ih =>
    simp only [cons_append, Segment, ih]
    constructor
    · rintro ⟨same, live, cell, stored, middle, first, second⟩
      exact ⟨middle, ⟨same, live, cell, stored, first⟩, second⟩
    · rintro ⟨middle, ⟨same, live, cell, stored, first⟩, second⟩
      exact ⟨same, live, cell, stored, middle, first, second⟩

section

variable (segment : Segment link heap start addresses stop)
include segment

/-- Every listed address is live and not null. -/
theorem segment_live (member : address ∈ addresses) : address ≠ 0 ∧ ∃ cell, heap address = some cell := by
  induction addresses generalizing start with
  | nil => simp at member
  | cons head rest ih =>
    obtain ⟨_, live, cell, stored, tail⟩ := segment
    rcases mem_cons.mp member with rfl | later
    · exact ⟨live, cell, stored⟩
    · exact ih tail later

/-- A segment only depends on the links of its own cells. -/
theorem segment_congr {other : Heap α} (same : ∀ address ∈ addresses, ∀ cell, heap address = some cell →
    ∃ now, other address = some now ∧ link now = link cell) : Segment link other start addresses stop := by
  induction addresses generalizing start with
  | nil => exact segment
  | cons head rest ih =>
    obtain ⟨atHead, live, cell, stored, tail⟩ := segment
    obtain ⟨now, storedNow, sameLink⟩ := same head mem_cons_self cell stored
    refine ⟨atHead, live, now, storedNow, ?_⟩
    rw [sameLink]
    exact ih tail (forall_mem_cons.mp same).2

/-- A write that keeps the link of its cell, or happens off the segment, does
not disturb the segment. -/
theorem segment_write (kept : address ∈ addresses → ∀ old, heap address = some old → link cell = link old) :
    Segment link (heap.write address cell) start addresses stop := by
  refine segment_congr segment ?_
  intro target member old stored
  by_cases here : target = address
  · subst here
    exact ⟨cell, write_here .., kept member old stored⟩
  · exact ⟨old, (write_elsewhere heap cell here).trans stored, rfl⟩

/-- Releasing an address off the segment does not disturb it. -/
theorem segment_release (absent : address ∉ addresses) : Segment link (heap.release address) start addresses stop := by
  refine segment_congr segment ?_
  intro target member old stored
  have different : target ≠ address := by
    rintro rfl
    exact absent member
  exact ⟨old, (release_elsewhere heap different).trans stored, rfl⟩

end

/-- Rewriting the last cell of a segment redirects where the segment stops. -/
theorem segment_redirect {last : Nat}
    (segment : Segment link heap start (addresses ++ [last]) stop) (fresh : last ∉ addresses) :
    Segment link (heap.write last cell) start (addresses ++ [last]) (link cell) := by
  obtain ⟨middle, before, rfl, live, _⟩ := (segment_append addresses [last]).mp segment
  refine (segment_append addresses [middle]).mpr ⟨middle, ?_, rfl, live, cell, write_here .., rfl⟩
  exact segment_write before (fun member => absurd member fresh)

/-- The addresses of a chain are determined by its start. -/
theorem chain_unique {left right : List Nat} (first : Chain link heap start left)
    (second : Chain link heap start right) : left = right := by
  induction left generalizing start right with
  | nil =>
    obtain rfl : start = 0 := first
    cases right with
    | nil => rfl
    | cons address rest => exact absurd second.1.symm second.2.1
  | cons address rest ih =>
    obtain ⟨rfl, live, cell, stored, tail⟩ := first
    cases right with
    | nil => exact absurd second live
    | cons other more =>
      obtain ⟨rfl, _, again, storedAgain, otherTail⟩ := second
      rw [stored] at storedAgain
      cases storedAgain
      rw [ih tail otherTail]

/-- What follows an address inside a chain is the chain from that address. -/
theorem chain_suffix {before after : List Nat} (chain : Chain link heap start (before ++ address :: after)) :
    Chain link heap address (address :: after) := by
  obtain ⟨middle, _, rest⟩ := (segment_append before (address :: after)).mp chain
  obtain ⟨rfl, rest⟩ := rest
  exact ⟨rfl, rest⟩

/-- No address repeats in a chain: the chain from a repeated address would be
its own proper part. -/
theorem chain_nodup (chain : Chain link heap start addresses) : addresses.Nodup := by
  induction addresses generalizing start with
  | nil => exact nodup_nil
  | cons head rest ih =>
    have whole := chain
    obtain ⟨rfl, _, cell, _, tail⟩ := chain
    refine nodup_cons.mpr ⟨?_, ih tail⟩
    intro repeated
    obtain ⟨before, after, rfl⟩ := append_of_mem repeated
    have again := chain_suffix tail
    have same := congrArg length (chain_unique whole again)
    simp only [length_cons, length_append] at same
    omega

/-- A chain with a last address has it once and begins somewhere. -/
theorem chain_last {last : Nat} (chain : Chain link heap start (addresses ++ [last])) :
    start ≠ 0 ∧ last ∉ addresses := by
  constructor
  · rintro rfl
    have none : Chain link heap 0 [] := rfl
    exact absurd (chain_unique chain none) (by simp)
  · intro member
    have distinct := chain_nodup chain
    rw [nodup_append] at distinct
    exact distinct.2.2 _ member _ mem_cons_self rfl

/-- A chain is no longer than the number of addresses that can be live. -/
theorem chain_length_le {bound : Nat} (chain : Chain link heap start addresses)
    (bounded : ∀ address cell, heap address = some cell → address ≤ bound) : addresses.length ≤ bound := by
  have distinct := chain_nodup chain
  have inside : addresses ⊆ range' 1 bound := by
    intro address member
    obtain ⟨live, cell, stored⟩ := segment_live chain member
    have small := bounded address cell stored
    rw [mem_range'_1]
    omega
  simpa using (subperm_of_subset distinct inside).length_le

section

variable {β : Type u} {holds : α → β → Prop}

/-- A segment together with what its cells stand for. -/
def Strung (link : α → Nat) (holds : α → β → Prop) (heap : Heap α) : Nat → List (Nat × β) → Nat → Prop
  | start, [], stop => start = stop
  | start, (address, value) :: rest, stop =>
    start = address ∧ address ≠ 0 ∧ ∃ cell, heap address = some cell ∧ holds cell value ∧
      Strung link holds heap (link cell) rest stop

/-- Cutting the list cuts the segment, and conversely. -/
theorem strung_append (left right : List (Nat × β)) : Strung link holds heap start (left ++ right) stop ↔
    ∃ middle, Strung link holds heap start left middle ∧ Strung link holds heap middle right stop := by
  induction left generalizing start with
  | nil => simp [Strung]
  | cons item rest ih =>
    simp only [cons_append, Strung, ih]
    constructor
    · rintro ⟨same, live, cell, stored, held, middle, first, second⟩
      exact ⟨middle, ⟨same, live, cell, stored, held, first⟩, second⟩
    · rintro ⟨middle, ⟨same, live, cell, stored, held, first⟩, second⟩
      exact ⟨same, live, cell, stored, held, middle, first, second⟩

section

variable {items : List (Nat × β)} (strung : Strung link holds heap start items stop)
include strung

/-- Only the cells of the segment matter. -/
theorem strung_congr {other : Heap α} (same : ∀ item ∈ items, other item.1 = heap item.1) :
    Strung link holds other start items stop := by
  induction items generalizing start with
  | nil => exact strung
  | cons item rest ih =>
    obtain ⟨address, value⟩ := item
    obtain ⟨atStart, live, cell, stored, held, tail⟩ := strung
    have here := same (address, value) mem_cons_self
    refine ⟨atStart, live, cell, here.trans stored, held, ?_⟩
    exact ih tail (forall_mem_cons.mp same).2

/-- What happens off the segment does not disturb it. -/
theorem strung_update {now : Option α} (absent : address ∉ items.map Prod.fst) :
    Strung link holds (update heap address now) start items stop := by
  apply strung_congr strung
  intro item member
  apply update_of_ne
  rintro rfl
  exact absent (mem_map_of_mem member)

/-- Forgetting the values leaves a segment. -/
theorem strung_segment : Segment link heap start (items.map Prod.fst) stop := by
  induction items generalizing start with
  | nil => exact strung
  | cons item rest ih =>
    obtain ⟨atStart, live, cell, stored, _, tail⟩ := strung
    exact ⟨atStart, live, cell, stored, ih tail⟩

/-- Every listed cell stands for its value. -/
theorem strung_holds {value : β} (member : (address, value) ∈ items) :
    address ≠ 0 ∧ ∃ cell, heap address = some cell ∧ holds cell value := by
  obtain ⟨before, after, rfl⟩ := append_of_mem member
  obtain ⟨_, _, _, live, cell, stored, held, _⟩ := (strung_append before _).mp strung
  exact ⟨live, cell, stored, held⟩

/-- An address without a cell is not in a segment. -/
theorem strung_unused (unused : heap address = none) : ∀ item ∈ items, item.1 ≠ address := by
  rintro item member rfl
  obtain ⟨_, cell, stored, _⟩ := strung_holds strung member
  exact nomatch unused.symm.trans stored

end

section

variable {before : List (Nat × β)}

/-- Rewriting the last cell changes its value and where the segment stops. -/
theorem strung_last {value changed : β} (strung : Strung link holds heap start (before ++ [(address, value)]) stop)
    (absent : address ∉ before.map Prod.fst) (held : holds cell changed) :
    Strung link holds (heap.write address cell) start (before ++ [(address, changed)]) (link cell) := by
  obtain ⟨middle, front, rfl, live, _⟩ := (strung_append before _).mp strung
  exact (strung_append before _).mpr ⟨middle, strung_update front absent, rfl, live, cell, write_here .., held, rfl⟩

theorem strung_chain_last {value : β} (strung : Strung link holds heap start (before ++ [(address, value)]) 0) :
    start ≠ 0 ∧ address ∉ before.map Prod.fst := by
  have chain := strung_segment strung
  rw [map_append] at chain
  exact chain_last chain

/-- A new cell is linked behind the last one. -/
theorem strung_extend {value added : β} {page : Nat} {changed blank : α}
    (strung : Strung link holds heap start (before ++ [(address, value)]) 0) (nonzero : page ≠ 0)
    (unused : heap page = none) (linked : link changed = page) (ended : link blank = 0) (held : holds changed value)
    (blankHeld : holds blank added) : address ≠ page ∧ (heap.write page blank).write address changed page = some blank ∧
    Strung link holds ((heap.write page blank).write address changed) start
    (before ++ [(address, value)] ++ [(page, added)]) 0 := by
  have unlisted := strung_unused strung unused
  have different : address ≠ page := unlisted (address, value) (by simp)
  have newCell : (heap.write page blank).write address changed page = some blank := by
    rw [write_elsewhere _ _ (Ne.symm different), write_here]
  have grown := strung_congr strung (fun item member => write_elsewhere heap blank (unlisted item member))
  have redirected := strung_last grown (strung_chain_last strung).2 held
  rw [linked] at redirected
  refine ⟨different, newCell, (strung_append _ _).mpr ⟨page, redirected, rfl, nonzero, blank, newCell, blankHeld, ended⟩⟩

end

/-- A write that keeps the link of its cell and what the cell stands for. -/
theorem strung_write {items : List (Nat × β)} (strung : Strung link holds heap start items stop)
    (kept : ∀ old, heap address = some old → link cell = link old ∧ ∀ value, holds old value → holds cell value) :
    Strung link holds (heap.write address cell) start items stop := by
  induction items generalizing start with
  | nil => exact strung
  | cons item rest ih =>
    obtain ⟨target, value⟩ := item
    obtain ⟨same, live, old, stored, held, tail⟩ := strung
    by_cases here : target = address
    · subst here
      obtain ⟨sameLink, holdsStill⟩ := kept old stored
      refine ⟨same, live, cell, write_here .., holdsStill value held, ?_⟩
      rw [sameLink]
      exact ih tail
    · exact ⟨same, live, old, (write_elsewhere heap cell here).trans stored, held, ih tail⟩

/-- The cells of a segment. -/
theorem strung_cells {items : List (Nat × β)} (strung : Strung link holds heap start items stop) :
    ∃ cells, Strung link (· = ·) heap start cells stop ∧
    List.Forall₂ (fun cell item => cell.1 = item.1 ∧ holds cell.2 item.2) cells items := by
  induction items generalizing start with
  | nil => exact ⟨[], strung, .nil⟩
  | cons item rest ih =>
    obtain ⟨address, value⟩ := item
    obtain ⟨same, live, cell, stored, held, behind⟩ := strung
    obtain ⟨cells, strungCells, all⟩ := ih behind
    exact ⟨(address, cell) :: cells, ⟨same, live, cell, stored, rfl, strungCells⟩, .cons ⟨rfl, held⟩ all⟩

end

end Lfos.LinkedHeap
