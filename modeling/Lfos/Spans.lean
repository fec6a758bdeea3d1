import Mathlib.Algebra.Ring.Nat
import Mathlib.Data.List.Nodup
import Mathlib.Data.List.Perm.Subperm
import Mathlib.Data.List.Range

/-!
# Labelled spans of consecutive cells

A span is a first cell and a number of cells. A list of labelled items, each
occupying one span, is examined only through the number of items that hold each
cell. Pairwise disjointness is exactly the statement that this number never
exceeds one, so an update of the list is understood once its effect on the
number is known. Empty spans hold no cell and are harmless.
-/

namespace Lfos.Spans

open List

universe u
variable {α : Type u}

/-- The cells `first, first + 1, …` up to, but excluding, `first + count`. -/
structure Span where
  first : Nat
  count : Nat
deriving DecidableEq, Repr

/-- Membership of one cell. -/
def Span.Holds (span : Span) (cell : Nat) : Prop :=
  span.first ≤ cell ∧ cell < span.first + span.count

instance (span : Span) (cell : Nat) : Decidable (span.Holds cell) :=
  inferInstanceAs (Decidable (_ ∧ _))

/-- One for a cell of the span and zero elsewhere. -/
def Span.weight (span : Span) (cell : Nat) : Nat := if span.Holds cell then 1 else 0

theorem Span.weight_of_holds {span : Span} {cell : Nat} (held : span.Holds cell) : span.weight cell = 1 := if_pos held

theorem Span.weight_of_not {span : Span} {cell : Nat} (absent : ¬ span.Holds cell) :
    span.weight cell = 0 := if_neg absent

/-- A span is the disjoint union of its front and what remains behind it. -/
theorem Span.weight_split (first front rest cell : Nat) : (Span.mk first (front + rest)).weight cell =
    (Span.mk first front).weight cell + (Span.mk (first + front) rest).weight cell := by
  by_cases inFront : (Span.mk first front).Holds cell
  · have whole : (Span.mk first (front + rest)).Holds cell := by
      simp only [Span.Holds] at *
      omega
    have notRest : ¬ (Span.mk (first + front) rest).Holds cell := by
      simp only [Span.Holds] at *
      omega
    rw [weight_of_holds inFront, weight_of_holds whole, weight_of_not notRest]
  · rw [weight_of_not inFront, zero_add]
    have same : (Span.mk first (front + rest)).Holds cell ↔ (Span.mk (first + front) rest).Holds cell := by
      simp only [Span.Holds] at *
      omega
    simp only [Span.weight, same]

/-- Every cell of the left span is a cell of the right one. -/
def Span.Within (inner outer : Span) : Prop :=
  outer.first ≤ inner.first ∧ inner.first + inner.count ≤ outer.first + outer.count

/-- No cell belongs to both spans. -/
def Span.Apart (left right : Span) : Prop := ∀ cell, ¬ (left.Holds cell ∧ right.Holds cell)

theorem Span.apart_symm {left right : Span} (apart : left.Apart right) : right.Apart left :=
  fun cell both => apart cell ⟨both.2, both.1⟩

theorem Span.apart_of_le {left right : Span} (ordered : left.first + left.count ≤ right.first) : left.Apart right := by
  rintro cell ⟨⟨_, below⟩, ⟨above, _⟩⟩
  omega

theorem Span.holds_of_within {inner outer : Span} {cell : Nat} (within : inner.Within outer)
    (held : inner.Holds cell) : outer.Holds cell := by
  simp only [Span.Within, Span.Holds] at *
  omega

/-- The number of listed items whose span holds the cell. -/
def cover (span : α → Span) (items : List α) (cell : Nat) : Nat :=
  items.countP (fun item => decide ((span item).Holds cell))

variable (span : α → Span)

@[simp] theorem cover_nil (cell : Nat) : cover span [] cell = 0 := rfl

@[simp] theorem cover_cons (item : α) (items : List α) (cell : Nat) :
    cover span (item :: items) cell = cover span items cell + (span item).weight cell := by
  simp [cover, countP_cons, Span.weight]

/-- Replacing one item exchanges its contribution for the new item's. -/
theorem cover_set (items : List α) (position : Nat) (bounded : position < items.length) (item : α) (cell : Nat) :
    cover span (items.set position item) cell + (span items[position]).weight cell =
    cover span items cell + (span item).weight cell := by
  induction items generalizing position with
  | nil => simp at bounded
  | cons head rest ih =>
    cases position with
    | zero => simp only [set_cons_zero, getElem_cons_zero, cover_cons]; omega
    | succ position =>
      have tail := ih position (by simpa using bounded)
      simp only [set_cons_succ, getElem_cons_succ, cover_cons]
      omega

/-- Items without cells do not contribute. -/
theorem cover_replicate_empty (number : Nat) (item : α) (empty : (span item).count = 0)
    (cell : Nat) : cover span (replicate number item) cell = 0 := by
  have absent : ¬ (span item).Holds cell := by
    simp only [Span.Holds]
    omega
  simp [cover, countP_replicate, absent]

/-- A listed item with the cell makes the number positive, and conversely. -/
theorem cover_pos_iff (items : List α) (cell : Nat) :
    0 < cover span items cell ↔ ∃ item ∈ items, (span item).Holds cell := by
  simp [cover, countP_pos_iff]

/-- Pairwise disjointness is exactly multiplicity at most one. In the forward
direction the head excludes every later holder of its cells; conversely two
holders of one cell would count twice. -/
theorem pairwise_apart_iff (items : List α) : items.Pairwise (fun left right => (span left).Apart (span right)) ↔
    ∀ cell, cover span items cell ≤ 1 := by
  induction items with
  | nil => simp
  | cons item rest ih =>
    rw [pairwise_cons, ih]
    constructor
    · rintro ⟨apart, bound⟩ cell
      rw [cover_cons, Span.weight]
      split
      · next held =>
        have alone : ¬ 0 < cover span rest cell := by
          rw [cover_pos_iff]
          rintro ⟨other, member, also⟩
          exact apart other member cell ⟨held, also⟩
        omega
      · exact bound cell
    · intro bound
      constructor
      · rintro other member cell ⟨held, also⟩
        have positive : 0 < cover span rest cell := (cover_pos_iff span rest cell).mpr ⟨other, member, also⟩
        have total : cover span rest cell + (span item).weight cell ≤ 1 := by
          rw [← cover_cons]
          exact bound cell
        simp only [Span.weight, held, ↓reduceIte] at total
        omega
      · intro cell
        have total : cover span rest cell + (span item).weight cell ≤ 1 := by
          rw [← cover_cons]
          exact bound cell
        omega

/-- At multiplicity one, every holder of the cell carries the label found by
filtering, so the filtered list is a singleton. -/
theorem filter_eq_singleton (items : List α) (cell : Nat) (item : α) (member : item ∈ items)
    (held : (span item).Holds cell) (bound : cover span items cell ≤ 1) :
    items.filter (fun candidate => decide ((span candidate).Holds cell)) = [item] := by
  have belongs : item ∈ items.filter (fun candidate => decide ((span candidate).Holds cell)) := by
    simp [member, held]
  have length : (items.filter (fun candidate => decide ((span candidate).Holds cell))).length ≤ 1 := by
    rw [← countP_eq_length_filter]
    exact bound
  match found : items.filter (fun candidate => decide ((span candidate).Holds cell)) with
  | [] => simp [found] at belongs
  | [only] =>
    rw [found, mem_singleton] at belongs
    rw [belongs]
  | _ :: _ :: _ =>
    rw [found] at length
    simp at length

/-- The cells of a span, in order. -/
def Span.cells (span : Span) : List Nat := List.range' span.first span.count

theorem Span.mem_cells {span : Span} {cell : Nat} : cell ∈ span.cells ↔ span.Holds cell := mem_range'_1

/-- Disjoint spans below a bound have no more cells than the bound. -/
theorem sum_count_le {items : List α} {bound : Nat}
    (apart : items.Pairwise (fun left right => (span left).Apart (span right)))
    (inside : ∀ item ∈ items, (span item).first + (span item).count ≤ bound) :
    (items.map (fun item => (span item).count)).sum ≤ bound := by
  have distinct : (items.flatMap (fun item => (span item).cells)).Nodup := by
    refine nodup_flatMap.mpr ⟨fun item _ => nodup_range', apart.imp ?_⟩
    intro left right separate cell first second
    exact separate cell ⟨Span.mem_cells.mp first, Span.mem_cells.mp second⟩
  have below : items.flatMap (fun item => (span item).cells) ⊆ range bound := by
    intro cell member
    obtain ⟨item, listed, here⟩ := mem_flatMap.mp member
    have held := Span.mem_cells.mp here
    have fits := inside item listed
    rw [Span.Holds] at held
    exact mem_range.mpr (by omega)
  have fits := (subperm_of_subset distinct below).length_le
  simpa [length_flatMap, Span.cells] using fits

end Lfos.Spans
