import Lfos.LinkedHeap

/-!
# Doubly linked cells in a heap

A node carries a forward link, a back link and a value. `Linked` relates a heap
to the list of addresses and values between two ends: `prev` is the back link of
the first node and `start` its address, `last` is the address of the last node
and `stop` its forward link. An empty part passes both ends through, so parts
join where their ends meet. The laws below say what the usual pointer updates do
to a part: storing a value, redirecting the forward link of the last node and the
back link of the first, and any change elsewhere.
-/

namespace Lfos.DoublyLinked

open LinkedHeap List

universe u
variable {β : Type u}

/-- A cell of a doubly linked list. -/
structure Node (β : Type u) where
  next : Nat
  prev : Nat
  value : β

/-- The nodes from `start` up to `stop`, with back links from `prev` on. -/
def Linked (heap : Heap (Node β)) : Nat → Nat → List (Nat × β) → Nat → Nat → Prop
  | prev, start, [], last, stop => prev = last ∧ start = stop
  | prev, start, (address, value) :: rest, last, stop =>
    start = address ∧ address ≠ 0 ∧ ∃ next, heap address = some ⟨next, prev, value⟩ ∧
      Linked heap address next rest last stop

/-- A whole list: no node before the first, none behind the last. -/
def Listed (heap : Heap (Node β)) (first : Nat) (items : List (Nat × β)) : Prop :=
  ∃ last, Linked heap 0 first items last 0

/-- The addresses of the listed nodes. -/
def addresses (items : List (Nat × β)) : List Nat := items.map Prod.fst

@[simp] theorem addresses_cons (item : Nat × β) (items : List (Nat × β)) :
    addresses (item :: items) = item.1 :: addresses items := rfl

@[simp] theorem addresses_append (left right : List (Nat × β)) :
    addresses (left ++ right) = addresses left ++ addresses right := map_append

variable {heap other : Heap (Node β)} {prev start last stop : Nat} {items : List (Nat × β)}

/-- Parts join where the ends meet. -/
theorem linked_append (left right : List (Nat × β)) : Linked heap prev start (left ++ right) last stop ↔
    ∃ before middle, Linked heap prev start left before middle ∧ Linked heap before middle right last stop := by
  induction left generalizing prev start with
  | nil => simp [Linked]
  | cons item rest ih =>
    simp only [cons_append, Linked, ih]
    constructor
    · rintro ⟨same, live, next, stored, before, middle, first, second⟩
      exact ⟨before, middle, ⟨same, live, next, stored, first⟩, second⟩
    · rintro ⟨before, middle, ⟨same, live, next, stored, first⟩, second⟩
      exact ⟨same, live, next, stored, before, middle, first, second⟩

/-- A part only depends on its own nodes. -/
theorem linked_congr (linked : Linked heap prev start items last stop)
    (same : ∀ address ∈ addresses items, other address = heap address) : Linked other prev start items last stop := by
  induction items generalizing prev start with
  | nil => exact linked
  | cons item rest ih =>
    obtain ⟨address, value⟩ := item
    obtain ⟨atStart, live, next, stored, tail⟩ := linked
    have here := same address mem_cons_self
    refine ⟨atStart, live, next, here.trans stored, ?_⟩
    exact ih tail (forall_mem_cons.mp same).2

/-- Forgetting the back links leaves a segment. -/
theorem linked_segment (linked : Linked heap prev start items last stop) :
    Segment Node.next heap start (addresses items) stop := by
  induction items generalizing prev start with
  | nil => exact linked.2
  | cons item rest ih =>
    obtain ⟨atStart, live, next, stored, tail⟩ := linked
    exact ⟨atStart, live, _, stored, ih tail⟩

variable {address first next back : Nat} {value : β} {before : List (Nat × β)}

section

variable (listed : Listed heap first items)
include listed

theorem listed_chain : Chain Node.next heap first (addresses items) := by
  obtain ⟨last, linked⟩ := listed
  exact linked_segment linked

theorem listed_nodup : (addresses items).Nodup := chain_nodup (listed_chain listed)

/-- Nothing stands before the first node. -/
theorem listed_first : first = 0 ∨ (heap first).map Node.prev = some 0 := by
  obtain ⟨last, linked⟩ := listed
  cases items with
  | nil => exact .inl linked.2
  | cons item rest =>
    obtain ⟨rfl, _, next, stored, _⟩ := linked
    exact .inr (by rw [stored]; rfl)

end

section

variable (linked : Linked heap prev start items last stop)
include linked

/-- Every listed item is a live node that holds its value. -/
theorem linked_live (member : (address, value) ∈ items) :
    address ≠ 0 ∧ ∃ next before, heap address = some ⟨next, before, value⟩ := by
  obtain ⟨left, right, rfl⟩ := append_of_mem member
  obtain ⟨before, middle, _, rfl, live, next, stored, _⟩ := (linked_append left _).mp linked
  exact ⟨live, next, before, stored⟩

/-- A write off the part does not disturb it. -/
theorem linked_write {node : Node β} (absent : address ∉ addresses items) :
    Linked (heap.write address node) prev start items last stop := by
  refine linked_congr linked ?_
  intro target member
  refine write_elsewhere heap node ?_
  rintro rfl
  exact absent member

/-- A release off the part does not disturb it. -/
theorem linked_release (absent : address ∉ addresses items) :
    Linked (heap.release address) prev start items last stop := by
  refine linked_congr linked ?_
  intro target member
  refine release_elsewhere heap ?_
  rintro rfl
  exact absent member

end

/-- Storing a value changes that item only. -/
theorem linked_store {after : List (Nat × β)} {stored : β}
    (linked : Linked heap prev start (before ++ (address, stored) :: after) last stop)
    (distinct : (addresses (before ++ (address, stored) :: after)).Nodup)
    (found : heap address = some ⟨next, back, stored⟩) :
    Linked (heap.write address ⟨next, back, value⟩) prev start (before ++ (address, value) :: after) last stop := by
  rw [addresses_append, nodup_append] at distinct
  obtain ⟨_, tailDistinct, apart⟩ := distinct
  obtain ⟨left, middle, first, rfl, live, follow, here, rest⟩ := (linked_append before _).mp linked
  obtain ⟨rfl, rfl, _⟩ := Node.mk.inj (Option.some.inj (found.symm.trans here))
  refine (linked_append before _).mpr ⟨_, middle, ?_, rfl, live, next, write_here .., ?_⟩
  · exact linked_write first (fun member => apart middle member middle mem_cons_self rfl)
  · exact linked_write rest (nodup_cons.mp tailDistinct).1

/-- The last node's forward link says where the part stops. -/
theorem linked_redirect (target : Nat) (linked : Linked heap prev start (before ++ [(address, value)]) last stop)
    (absent : address ∉ addresses before) (found : heap address = some ⟨next, back, value⟩) :
    Linked (heap.write address ⟨target, back, value⟩) prev start (before ++ [(address, value)]) address target := by
  obtain ⟨left, middle, first, rfl, live, follow, here, _⟩ := (linked_append before _).mp linked
  obtain ⟨rfl, rfl, _⟩ := Node.mk.inj (Option.some.inj (found.symm.trans here))
  refine (linked_append before _).mpr ⟨_, middle, ?_, rfl, live, target, write_here .., rfl, rfl⟩
  exact linked_write first absent

/-- The first node's back link says what stands before the part. -/
theorem linked_rebase {after : List (Nat × β)} (target : Nat)
    (linked : Linked heap prev start ((address, value) :: after) last stop)
    (absent : address ∉ addresses after) (found : heap address = some ⟨next, back, value⟩) :
    Linked (heap.write address ⟨next, target, value⟩) target start ((address, value) :: after) last stop := by
  obtain ⟨atStart, live, follow, here, rest⟩ := linked
  obtain ⟨rfl, _⟩ := Node.mk.inj (Option.some.inj (found.symm.trans here))
  exact ⟨atStart, live, next, write_here .., linked_write rest absent⟩

theorem linked_start_ne_zero (linked : Linked heap prev start items last stop) (nonempty : items ≠ []) : start ≠ 0 := by
  cases items with
  | nil => exact absurd rfl nonempty
  | cons item rest =>
    obtain ⟨rfl, live, _⟩ := linked
    exact live

/-- The end of a part is one of its nodes, or what stood before it. -/
theorem linked_end (linked : Linked heap prev start items last stop) : last = prev ∨ last ∈ addresses items := by
  induction items generalizing prev start with
  | nil => exact .inl linked.1.symm
  | cons item rest ih =>
    obtain ⟨_, _, _, _, tail⟩ := linked
    cases ih tail with
    | inl here => exact .inr (here ▸ mem_cons_self)
    | inr later => exact .inr (mem_cons_of_mem _ later)

/-- The last node of a part holds its end. -/
theorem linked_last (linked : Linked heap prev start (before ++ [(address, value)]) last stop) :
    last = address ∧ ∃ back, heap address = some ⟨stop, back, value⟩ := by
  obtain ⟨left, middle, _, rfl, _, next, stored, rfl, rfl⟩ := (linked_append before _).mp linked
  exact ⟨rfl, left, stored⟩

end Lfos.DoublyLinked
