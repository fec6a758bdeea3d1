import Lfos.LinkedHeap
import Lfos.Transitions

/-!
# The singly linked lists of tiny-stl

An iterator is a pointer to a node together with a mode, which tells the position before the first
node from the first node. Two iterators are different for `!=` only if both parts are different.
So no two iterators to elements or to the end differ, a loop from `begin()` to `end()` visits
nothing, and `clear` removes nothing. `erase_after` makes the iterator it should return and then
returns `end()`.

Insertions and removals themselves change the list as they should. A node that is read must live;
the address of a new one is what the allocator answers with. A loop is given a number of steps and
has no result if it needs more.
-/

namespace Lfos.ForwardLists

open LinkedHeap Transitions List Option
open Prod (fst snd)

universe u
variable {α : Type u}

structure Node (α : Type u) where
  next : Nat
  data : α

structure ForwardList (α : Type u) where
  front : Nat
  nodes : Heap (Node α)

/-- `special_iterator` -/
inductive Special where
  | normal
  | beforeBegin
  deriving DecidableEq, Repr

structure Iterator where
  node : Nat
  special : Special
  deriving DecidableEq, Repr

/-- `operator!=` -/
def Iterator.differs (it other : Iterator) : Bool := it.node != other.node && it.special != other.special

/-- `operator==` -/
def Iterator.equals (it other : Iterator) : Bool := !it.differs other

def beginOf (list : ForwardList α) : Iterator := ⟨list.front, .normal⟩

def beforeBeginOf (list : ForwardList α) : Iterator := ⟨list.front, .beforeBegin⟩

def endOf : Iterator := ⟨0, .normal⟩

/-- `operator*` -/
def dereference (list : ForwardList α) (it : Iterator) : Option α := (list.nodes it.node).map Node.data

/-- `operator++` -/
def advance (list : ForwardList α) (it : Iterator) : Option Iterator :=
  if it.special = .beforeBegin then some { it with special := .normal }
  else if it.node ≠ 0 then (list.nodes it.node).map (fun node => { it with node := node.next })
  else some it

def emplaceFront (list : ForwardList α) (elem : Nat) (data : α) : Iterator × ForwardList α :=
  (⟨elem, .normal⟩, ⟨elem, list.nodes.write elem ⟨list.front, data⟩⟩)

def emplaceAfter (list : ForwardList α) (pos : Iterator) (elem : Nat) (data : α) : Option (Iterator × ForwardList α) :=
  if pos.special = .beforeBegin then some (emplaceFront list elem data)
  else if pos.node ≠ 0 then
    (list.nodes pos.node).map (fun node =>
      (⟨elem, .normal⟩, { list with
        nodes := (list.nodes.write pos.node { node with next := elem }).write elem ⟨node.next, data⟩ }))
  else some (endOf, list)

def popFront (list : ForwardList α) : Option (ForwardList α) :=
  if list.front ≠ 0 then
    (list.nodes list.front).map (fun node => ⟨node.next, list.nodes.release list.front⟩)
  else some list

/-- The iterator that is made from the next node is not returned. -/
def eraseAfter (list : ForwardList α) (pos : Iterator) : Option (Iterator × ForwardList α) :=
  if pos.special = .beforeBegin then (popFront list).map (fun list => (beginOf list, list))
  else if pos.node ≠ 0 then
    (list.nodes pos.node).bind (fun node =>
      if node.next ≠ 0 then
        (list.nodes node.next).map (fun erased =>
          (endOf, { list with nodes := (list.nodes.release node.next).write pos.node { node with next := erased.next } }))
      else some (endOf, list))
  else some (endOf, list)

def clear : Nat → ForwardList α → Option (ForwardList α)
  | 0, _ => none
  | steps + 1, list => if (beginOf list).differs endOf then (popFront list).bind (clear steps) else some list

/-- The values that a loop up to `end()` visits. -/
def visit (list : ForwardList α) : Nat → Iterator → Option (List α)
  | 0, _ => none
  | steps + 1, it =>
    if it.differs endOf then
      (dereference list it).bind (fun value =>
        (advance list it).bind (fun next => (visit list steps next).map (fun rest => value :: rest)))
    else some []

inductive Operation (α : Type u) where
  | emplaceFront (elem : Nat) (data : α)
  | emplaceAfter (pos : Iterator) (elem : Nat) (data : α)
  | eraseAfter (pos : Iterator)
  | popFront
  | clear
  | iterate

inductive Outcome (α : Type u) where
  | iterator (it : Iterator)
  | done
  | visited (values : List α)

def perform (steps : Nat) (list : ForwardList α) : Operation α → Option (ForwardList α × Outcome α)
  | .emplaceFront elem data => some ((emplaceFront list elem data).2, .iterator (emplaceFront list elem data).1)
  | .emplaceAfter pos elem data => (emplaceAfter list pos elem data).map (fun result => (result.2, .iterator result.1))
  | .eraseAfter pos => (eraseAfter list pos).map (fun result => (result.2, .iterator result.1))
  | .popFront => (popFront list).map (fun list => (list, .done))
  | .clear => (clear steps list).map (fun list => (list, .done))
  | .iterate => (visit list steps (beginOf list)).map (fun values => (list, .visited values))

/-- An element has an identity, which is the address of its node. -/
abbrev Items (α : Type u) := List (Nat × α)

/-- Change what is behind an element. -/
def splice (change : Items α → Items α) (id : Nat) : Items α → Items α
  | [] => []
  | item :: rest => if item.1 = id then item :: change rest else item :: splice change id rest

/-- What is behind an element. -/
def behind (id : Nat) : Items α → Items α
  | [] => []
  | item :: rest => if item.1 = id then rest else behind id rest

/-- The iterator to the first of some elements. -/
def iteratorTo : Items α → Iterator
  | [] => endOf
  | item :: _ => ⟨item.1, .normal⟩

/-- What an operation does to a list, and what it answers. -/
def specify (items : Items α) : Operation α → Items α × Outcome α
  | .emplaceFront elem data => ((elem, data) :: items, .iterator ⟨elem, .normal⟩)
  | .emplaceAfter pos elem data =>
    (if pos.special = .beforeBegin then (elem, data) :: items else splice ((elem, data) :: ·) pos.node items,
      .iterator ⟨elem, .normal⟩)
  | .eraseAfter pos =>
    if pos.special = .beforeBegin then (items.tail, .iterator (iteratorTo items.tail))
    else (splice List.tail pos.node items, .iterator (iteratorTo (behind pos.node items).tail))
  | .popFront => (items.tail, .done)
  | .clear => ([], .done)
  | .iterate => (items, .visited (items.map snd))

/-- An iterator to the position before the first element, or to an element. -/
def Valid (items : Items α) (pos : Iterator) : Prop := pos.special = .beforeBegin ∨ pos.node ∈ items.map fst

/-- The nodes of a list are its elements in order. -/
def Represents (list : ForwardList α) (items : Items α) : Prop :=
  Strung Node.next (fun node value => node.data = value) list.nodes list.front items 0

/-- New nodes are at free addresses, and positions are valid. -/
def Allowed (list : ForwardList α) (items : Items α) : Operation α → Prop
  | .emplaceFront elem _ => elem ≠ 0 ∧ list.nodes elem = none
  | .emplaceAfter pos elem _ => Valid items pos ∧ elem ≠ 0 ∧ list.nodes elem = none
  | .eraseAfter pos => Valid items pos
  | _ => True

/-- The code does what is specified. -/
def Correct (list : ForwardList α) (items : Items α) (operation : Operation α) : Prop :=
  ∃ steps after, perform steps list operation = some (after, (specify items operation).2) ∧
    Represents after (specify items operation).1

/-- What is erased behind an element is the last element, and lists that are cleared or gone through are empty. -/
def Meets (items : Items α) : Operation α → Prop
  | .eraseAfter pos => pos.special = .beforeBegin ∨ (behind pos.node items).length ≤ 1
  | .clear => items = []
  | .iterate => items = []
  | _ => True

/-- A list that is cleared is empty. -/
def Clears (items : Items α) : Operation α → Prop
  | .clear => items = []
  | _ => True

/-- A list beside the list that it should stand for. -/
structure State (α : Type u) where
  list : ForwardList α
  items : Items α

def lists : System (State α) (Operation α) where
  initial state := state = ⟨⟨0, fun _ => none⟩, []⟩
  step state operation after := Allowed state.list state.items operation ∧
    (∃ steps outcome, perform steps state.list operation = some (after.list, outcome)) ∧
    after.items = (specify state.items operation).1

section

/-- Iterators to elements and to the end never differ. -/
theorem differs_normal (node other : Nat) : (Iterator.mk node .normal).differs ⟨other, .normal⟩ = false := by
  simp [Iterator.differs]

theorem clear_stops (steps : Nat) (list : ForwardList α) : clear (steps + 1) list = some list := by
  rw [clear, beginOf, endOf, differs_normal]
  rfl

theorem visit_stops (steps : Nat) (list : ForwardList α) : visit list (steps + 1) (beginOf list) = some [] := by
  rw [visit, beginOf, endOf, differs_normal]
  rfl

variable {steps : Nat} {list : ForwardList α} {operation : Operation α} {result : ForwardList α × Outcome α}

/-- The number of steps does not matter. -/
theorem perform_once (performed : perform steps list operation = some result) : perform 1 list operation = some result := by
  cases operation with
  | clear =>
    cases steps with
    | zero => exact nomatch performed
    | succ steps => rwa [perform, clear_stops] at performed ⊢
  | iterate =>
    cases steps with
    | zero => exact nomatch performed
    | succ steps => rwa [perform, visit_stops] at performed ⊢
  | emplaceFront _ _ | emplaceAfter _ _ _ | eraseAfter _ | popFront => exact performed

end

variable {list : ForwardList α} {items : Items α}

section

variable {before rest : Items α} {id elem : Nat} {value data : α}

theorem splice_at (change : Items α → Items α) (absent : id ∉ before.map fst) :
    splice change id (before ++ (id, value) :: rest) = before ++ (id, value) :: change rest := by
  induction before with
  | nil => exact if_pos rfl
  | cons item front ih =>
    rw [map_cons, mem_cons, not_or] at absent
    rw [cons_append, splice, if_neg (Ne.symm absent.1), ih absent.2]
    rfl

theorem behind_at (absent : id ∉ before.map fst) : behind id (before ++ (id, value) :: rest) = rest := by
  induction before with
  | nil => exact if_pos rfl
  | cons item front ih =>
    rw [map_cons, mem_cons, not_or] at absent
    rw [cons_append, behind, if_neg (Ne.symm absent.1), ih absent.2]

section

variable (represents : Represents list items)
include represents

theorem Represents.nodup : (items.map fst).Nodup := chain_nodup (strung_segment represents)

theorem Represents.fresh (free : list.nodes elem = none) : elem ∉ items.map fst := by
  intro member
  obtain ⟨_, node, stored⟩ := segment_live (strung_segment represents) member
  rw [free] at stored
  exact nomatch stored

/-- A list around one of its elements. -/
theorem Represents.around (member : id ∈ items.map fst) :
    ∃ before value rest, items = before ++ (id, value) :: rest ∧ id ∉ before.map fst ∧ id ∉ rest.map fst := by
  obtain ⟨⟨_, value⟩, there, rfl⟩ := mem_map.mp member
  obtain ⟨before, rest, rfl⟩ := append_of_mem there
  have distinct := represents.nodup
  rw [map_append, map_cons, nodup_middle, nodup_cons, mem_append, not_or] at distinct
  exact ⟨before, value, rest, rfl, distinct.1⟩

/-- The first element is at the front. -/
theorem Represents.front : beginOf list = iteratorTo items := by
  cases items with
  | nil =>
    have empty : list.front = 0 := represents
    rw [beginOf, empty]
    rfl
  | cons item rest =>
    obtain ⟨atFront, _⟩ := represents
    rw [beginOf, atFront]
    rfl

/-- No element is at the address of the end. -/
theorem Represents.positive : 0 ∉ items.map fst :=
  fun member => (segment_live (strung_segment represents) member).1 rfl

end

theorem iteratorTo_end (positive : 0 ∉ items.map fst) : iteratorTo items = endOf ↔ items = [] := by
  cases items with
  | nil => exact iff_of_true rfl rfl
  | cons item rest =>
    refine iff_of_false ?_ (cons_ne_nil item rest)
    intro same
    have zero : item.1 = 0 := congrArg Iterator.node same
    exact positive (zero ▸ mem_cons_self)

variable (represents : Represents list items)
include represents

theorem emplaceFront_represents (live : elem ≠ 0) (free : list.nodes elem = none) :
    Represents (emplaceFront list elem data).2 ((elem, data) :: items) := by
  exact ⟨rfl, live, ⟨list.front, data⟩, write_here .., rfl, strung_update represents (represents.fresh free)⟩

variable {pos : Iterator}

/-- The new node takes the place between an element and what is behind it. -/
theorem emplaceAfter_represents (normal : pos.special ≠ .beforeBegin)
    (member : pos.node ∈ items.map fst) (live : elem ≠ 0) (free : list.nodes elem = none) :
    ∃ after, emplaceAfter list pos elem data = some (⟨elem, .normal⟩, after) ∧
    Represents after (splice ((elem, data) :: ·) pos.node items) := by
  have fresh := represents.fresh free
  obtain ⟨before, value, rest, rfl, notBefore, notBehind⟩ := represents.around member
  rw [splice_at _ notBefore]
  rw [map_append, map_cons, mem_append, mem_cons, not_or, not_or] at fresh
  obtain ⟨middle, front, rfl, positive, node, stored, held, tail⟩ := (strung_append before _).mp represents
  refine ⟨{ list with nodes := (list.nodes.write pos.node { node with next := elem }).write elem ⟨node.next, data⟩ }, ?_, ?_⟩
  · rw [emplaceAfter, if_neg normal, if_pos positive, stored]
    rfl
  · refine (strung_append before _).mpr ⟨_, ?_, rfl, positive, { node with next := elem }, ?_, held, rfl, live,
      ⟨node.next, data⟩, write_here .., rfl, ?_⟩
    · exact strung_update (strung_update front notBefore) fresh.1
    · exact (write_elsewhere _ _ (Ne.symm fresh.2.1)).trans (write_here ..)
    · exact strung_update (strung_update tail notBehind) fresh.2.2

theorem popFront_represents : ∃ after, popFront list = some after ∧ Represents after items.tail := by
  cases items with
  | nil =>
    have empty : list.front = 0 := represents
    refine ⟨list, ?_, represents⟩
    rw [popFront, if_neg (not_not.mpr empty)]
  | cons item rest =>
    have distinct := represents.nodup
    rw [map_cons, nodup_cons] at distinct
    obtain ⟨atFront, live, node, stored, _, tail⟩ := represents
    refine ⟨⟨node.next, list.nodes.release list.front⟩, ?_, ?_⟩
    · rw [popFront, if_pos (atFront ▸ live), atFront, stored]
      rfl
    · rw [atFront]
      exact strung_update tail distinct.1

/-- The element behind the position is taken out, but what is returned is the end. -/
theorem eraseAfter_represents (normal : pos.special ≠ .beforeBegin) (member : pos.node ∈ items.map fst) :
    ∃ after, eraseAfter list pos = some (endOf, after) ∧ Represents after (splice List.tail pos.node items) := by
  have distinct := represents.nodup
  have whole := represents
  obtain ⟨before, value, rest, rfl, notBefore, notBehind⟩ := represents.around member
  rw [splice_at _ notBefore]
  obtain ⟨middle, front, rfl, positive, node, stored, held, tail⟩ := (strung_append before _).mp represents
  cases rest with
  | nil =>
    have last : node.next = 0 := tail
    refine ⟨list, ?_, whole⟩
    rw [eraseAfter, if_neg normal, if_pos positive, stored, bind_some, if_neg (not_not.mpr last)]
  | cons erased rest =>
    obtain ⟨atErased, live, cell, alsoStored, _, onwards⟩ := tail
    rw [map_append, map_cons, map_cons, nodup_append, nodup_cons, nodup_cons] at distinct
    obtain ⟨_, ⟨_, notAgain, _⟩, apart⟩ := distinct
    rw [map_cons, mem_cons, not_or] at notBehind
    refine ⟨{ list with nodes := (list.nodes.release node.next).write pos.node { node with next := cell.next } }, ?_, ?_⟩
    · rw [eraseAfter, if_neg normal, if_pos positive, stored, bind_some, if_pos (atErased ▸ live), atErased, alsoStored]
      rfl
    · have notErased : erased.1 ∉ before.map fst := fun inFront =>
        apart _ inFront erased.1 (mem_cons_of_mem _ mem_cons_self) rfl
      rw [atErased]
      exact (strung_append before _).mpr ⟨_, strung_update (strung_update front notErased) notBefore, rfl, positive,
        { node with next := cell.next }, write_here .., held, strung_update (strung_update onwards notAgain) notBehind.2⟩

end

section

variable {operation : Operation α} (represents : Represents list items)
include represents

/-- The end is the right answer if nothing is left behind the element. -/
theorem end_answers (normal : pos.special ≠ .beforeBegin) (member : pos.node ∈ items.map fst) :
    .iterator endOf = (specify items (.eraseAfter pos)).2 ↔ Meets items (.eraseAfter pos) := by
  obtain ⟨before, value, rest, rfl, notBefore, _⟩ := represents.around member
  have positive : 0 ∉ rest.tail.map fst := by
    intro inTail
    apply represents.positive
    rw [map_append]
    rw [map_tail] at inTail
    exact mem_append_right _ (mem_cons_of_mem _ (mem_of_mem_tail inTail))
  rw [Meets, specify, if_neg normal, behind_at notBefore, or_iff_right normal, Outcome.iterator.injEq, eq_comm,
    iteratorTo_end positive, ← length_eq_zero_iff, length_tail]
  omega

/-- What an operation makes of the list and what it answers: the list stands for what it should unless one with elements is
cleared, and the answer is right under the condition. -/
theorem perform_spec (allowed : Allowed list items operation) :
    ∃ after outcome, perform 1 list operation = some (after, outcome) ∧
    (Represents after (specify items operation).1 ↔ Clears items operation) ∧
    (Clears items operation → (outcome = (specify items operation).2 ↔ Meets items operation)) := by
  cases operation with
  | emplaceFront elem data =>
    refine ⟨_, _, rfl, iff_of_true ?_ trivial, fun _ => iff_of_true rfl trivial⟩
    exact emplaceFront_represents represents allowed.1 allowed.2
  | emplaceAfter pos elem data =>
    obtain ⟨valid, live, free⟩ := allowed
    rw [specify, perform]
    by_cases first : pos.special = .beforeBegin
    · rw [emplaceAfter, if_pos first, if_pos first]
      refine ⟨_, _, rfl, iff_of_true ?_ trivial, fun _ => iff_of_true rfl trivial⟩
      exact emplaceFront_represents represents live free
    · obtain ⟨after, emplaced, kept⟩ := emplaceAfter_represents represents first (valid.resolve_left first) live free
      rw [emplaced, if_neg first]
      exact ⟨after, _, rfl, iff_of_true kept trivial, fun _ => iff_of_true rfl trivial⟩
  | eraseAfter pos =>
    by_cases first : pos.special = .beforeBegin
    · obtain ⟨after, popped, kept⟩ := popFront_represents represents
      rw [specify, if_pos first, perform, eraseAfter, if_pos first, popped, ← kept.front]
      exact ⟨after, _, rfl, iff_of_true kept trivial, fun _ => iff_of_true rfl (.inl first)⟩
    · have member := allowed.resolve_left first
      obtain ⟨after, erased, kept⟩ := eraseAfter_represents represents first member
      refine ⟨after, .iterator endOf, congrArg (Option.map _) erased, iff_of_true ?_ trivial, fun _ => ?_⟩
      · rw [specify, if_neg first]
        exact kept
      · exact end_answers represents first member
  | popFront =>
    obtain ⟨after, popped, kept⟩ := popFront_represents represents
    exact ⟨after, .done, congrArg (Option.map _) popped, iff_of_true kept trivial, fun _ => iff_of_true rfl trivial⟩
  | clear =>
    refine ⟨list, .done, congrArg (Option.map _) (clear_stops 0 list), ⟨?_, ?_⟩, fun empty => iff_of_true rfl empty⟩
    · intro empty
      have atEnd : iteratorTo items = endOf := represents.front.symm.trans empty.front
      exact (iteratorTo_end represents.positive).mp atEnd
    · rintro rfl
      exact represents
  | iterate =>
    refine ⟨list, .visited [], congrArg (Option.map _) (visit_stops 0 list), iff_of_true represents trivial, fun _ => ?_⟩
    rw [specify, Outcome.visited.injEq, eq_comm, map_eq_nil_iff, Meets]

/-- What an operation does is right exactly under the condition. -/
theorem correct_iff (allowed : Allowed list items operation) :
    Correct list items operation ↔ Meets items operation := by
  obtain ⟨after, outcome, performed, stands, answers⟩ := perform_spec represents allowed
  constructor
  · rintro ⟨steps, other, alsoPerformed, kept⟩
    obtain ⟨rfl, right⟩ := Prod.mk.inj (some.inj (performed.symm.trans (perform_once alsoPerformed)))
    exact (answers (stands.mp kept)).mp right
  · intro meets
    have clears : Clears items operation := by cases operation <;> trivial
    rw [(answers clears).mpr meets] at performed
    exact ⟨1, after, performed, stands.mpr clears⟩

/-- Only a list that is cleared no longer stands for what it should. -/
theorem perform_represents {steps : Nat} {after : ForwardList α} {outcome : Outcome α}
    (allowed : Allowed list items operation) (clears : Clears items operation)
    (performed : perform steps list operation = some (after, outcome)) :
    Represents after (specify items operation).1 := by
  obtain ⟨other, _, alsoPerformed, stands, _⟩ := perform_spec represents allowed
  obtain ⟨rfl, _⟩ := Prod.mk.inj (some.inj ((perform_once performed).symm.trans alsoPerformed))
  exact stands.mpr clears

end

section

variable {state : State α}

theorem reachable_represents (reachable : (lists.under (fun state => Clears state.items)).Reachable state) :
    Represents state.list state.items := by
  apply reachable.invariant
  · rintro start rfl
    exact rfl
  · rintro state operation after represents ⟨clears, allowed, ⟨steps, outcome, performed⟩, items⟩
    rw [items]
    exact perform_represents represents allowed clears performed

/-- In every run in which only empty lists are cleared, a list stands for what it should. Insertions and `pop_front` are then
always right, `erase_after` unless an element follows the one that it erases at another, and loops for empty lists. -/
theorem operations_correct_iff (reachable : (lists.under (fun state => Clears state.items)).Reachable state) :
    Represents state.list state.items ∧ ∀ operation, Allowed state.list state.items operation →
        (Correct state.list state.items operation ↔ Meets state.items operation) := by
  have represents := reachable_represents reachable
  exact ⟨represents, fun operation allowed => correct_iff represents allowed⟩

/-- A list of one element, which is put in at the front. -/
def single (value : α) : State α := ⟨(emplaceFront ⟨0, fun _ => none⟩ 1 value).2, [(1, value)]⟩

theorem single_reachable (value : α) (condition : State α → Operation α → Prop)
    (met : condition ⟨⟨0, fun _ => none⟩, []⟩ (.emplaceFront 1 value)) : (lists.under condition).Reachable (single value) := by
  refine reachable_under_step (reachable_initial rfl) ?_ met
  exact ⟨⟨Nat.one_ne_zero, rfl⟩, ⟨0, _, rfl⟩, rfl⟩

/-- The element is there, but a loop does not visit it. -/
theorem operations_correct_iff_single : Represents (single 7).list [(1, 7)] ∧ ¬ Correct (single 7).list [(1, 7)] .iterate := by
  obtain ⟨represents, correct⟩ := operations_correct_iff (single_reachable 7 (fun state => Clears state.items) trivial)
  exact ⟨represents, fun right => cons_ne_nil _ _ ((correct .iterate trivial).mp right)⟩

/-- Three elements. -/
def triple : ForwardList Nat := (emplaceFront (emplaceFront (single 7).list 2 8).2 3 9).2

/-- A loop visits nothing and `clear` removes nothing, however long they may run; and the end is returned when the second of
three elements is erased. -/
theorem loops_stop_at_once : lists.Reachable (single 7) ∧
    (∀ steps, visit (single 7).list (steps + 1) (beginOf (single 7).list) = some []) ∧
    (∀ steps, clear (steps + 1) (single 7).list = some (single 7).list) ∧
    Represents triple [(3, 9), (2, 8), (1, 7)] ∧ (eraseAfter triple ⟨3, .normal⟩).map fst = some endOf := by
  have reachable := single_reachable 7 (fun _ _ => True) trivial
  refine ⟨reachable_of_under reachable, fun steps => visit_stops steps _, fun steps => clear_stops steps _, ?_, rfl⟩
  apply emplaceFront_represents
  · exact emplaceFront_represents (reachable_represents (single_reachable 7 _ trivial)) (by decide) rfl
  · decide
  · rfl

end

end Lfos.ForwardLists
