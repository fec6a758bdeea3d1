import Lfos.DoublyLinked
import Lfos.SparsePages
import Lfos.Words

/-!
# The thin provisioned array

Entries live in pages taken from an allocator when an index in them is set for
the first time and given back when their last entry is cleared. The pages form a
doubly linked list sorted by their first index. An entry is a marker word and
the data, so a slot is an optional value here.

The heap holds the live pages; reading or writing a freed page or the null page
yields no result. A walk along `next` that visits more pages than are live does
not end, and yields no result either. The address of a new page is the
allocator's choice and an argument of `set`.
-/

namespace Lfos.ThinArray

open Words LinkedHeap DoublyLinked SparsePages

variable {α : Type}

/-- Sizes of an array; a page has room for its header and one entry. -/
structure Layout where
  entrySize : Nat
  pageSize : Nat
  room : 24 + (entrySize + 8) ≤ pageSize
  bounded : pageSize < 2 ^ 64

def Layout.entriesPerPage (layout : Layout) : Nat := (layout.pageSize - 24) / (layout.entrySize + 8)

theorem Layout.entriesPerPage_pos (layout : Layout) : 0 < layout.entriesPerPage :=
  Nat.div_pos (Nat.le_sub_of_add_le' layout.room) (Nat.succ_pos _)

/-- Where the page of an index starts. -/
abbrev Layout.start (layout : Layout) (idx : Nat) : Nat := pageStart layout.entriesPerPage idx

/-- The first page, the live pages and their number. -/
structure Tpa (α : Type) where
  first : Nat
  heap : Heap (Node (Page α))
  live : Nat

def create : Tpa α := ⟨0, fun _ => none, 0⟩

variable (layout : Layout)

/-- Whether the walk stops at a page; the end of the page is a 64-bit sum. -/
def covers (idx : Nat) (page : Page α) : Bool :=
  decide (page.startIdx ≤ idx) && decide (idx < u64 (page.startIdx + layout.entriesPerPage))

def getPageForIdx (heap : Heap (Node (Page α))) (idx : Nat) : Nat → Nat → Option Nat
  | 0, _ => none
  | fuel + 1, current =>
    if current = 0 then some 0
    else do
      let node ← heap current
      if covers layout idx node.value then some current
      else if idx < node.value.startIdx then some 0
      else getPageForIdx heap idx fuel node.next

/-- The entry at an index, if the marker is set. -/
def get (tpa : Tpa α) (idx : Nat) : Option (Option α) := do
  let page ← getPageForIdx layout tpa.heap idx (tpa.live + 1) tpa.first
  if page = 0 then some none
  else
    let node ← tpa.heap page
    some (node.value.slots (idx - node.value.startIdx))

/-- Give a page without entries back. Only the page before it, or the array,
learns about the removal. -/
def cleanPage (tpa : Tpa α) (page : Nat) : Option (Tpa α) := do
  let node ← tpa.heap page
  if node.value.vacant layout.entriesPerPage then
    let unlinked ←
      if node.prev ≠ 0 then do
        let before ← tpa.heap node.prev
        some { tpa with heap := tpa.heap.write node.prev { before with next := node.next } }
      else some { tpa with first := node.next }
    some { unlinked with heap := unlinked.heap.release page, live := unlinked.live - 1 }
  else some tpa

/-- The page behind which, or before which, a page with a start belongs. -/
def seekPage (heap : Heap (Node (Page α))) (startIdx : Nat) : Nat → Nat → Option Nat
  | 0, _ => none
  | fuel + 1, current => do
    let node ← heap current
    if node.next = 0 then some current
    else
      let following ← heap node.next
      if following.value.startIdx < startIdx then seekPage heap startIdx fuel node.next
      else some current

/-- Take a page for an index and link it into the list. -/
def insertPage (tpa : Tpa α) (idx page : Nat) : Option (Tpa α) := do
  let startIdx := layout.start idx
  let heap := tpa.heap.write page ⟨0, 0, blank startIdx⟩
  let current ← if tpa.first = 0 then some 0 else seekPage heap startIdx (tpa.live + 1) tpa.first
  if current = 0 then some ⟨page, heap, tpa.live + 1⟩
  else
    let node ← heap current
    if node.value.startIdx < startIdx then
      let linked := (heap.write page ⟨node.next, current, blank startIdx⟩).write current { node with next := page }
      if node.next ≠ 0 then
        let following ← linked node.next
        some ⟨tpa.first, linked.write node.next { following with prev := page }, tpa.live + 1⟩
      else some ⟨tpa.first, linked, tpa.live + 1⟩
    else if startIdx < node.value.startIdx then
      some ⟨page, (heap.write page ⟨current, node.prev, blank startIdx⟩).write current
        { node with prev := page }, tpa.live + 1⟩
    else some ⟨page, heap, tpa.live + 1⟩

/-- Write one slot of a page. -/
def putEntry (tpa : Tpa α) (page idx : Nat) (entry : Option α) : Option (Tpa α) := do
  let node ← tpa.heap page
  some { tpa with
    heap := tpa.heap.write page { node with value := node.value.put (idx - node.value.startIdx) entry } }

/-- Store or clear an entry; `fresh` is the page the allocator would return. -/
def set (tpa : Tpa α) (idx : Nat) (data : Option α) (fresh : Nat) : Option (Tpa α) := do
  let page ← getPageForIdx layout tpa.heap idx (tpa.live + 1) tpa.first
  match data with
  | none =>
    if page = 0 then some tpa
    else
      let cleared ← putEntry tpa page idx none
      cleanPage layout cleared page
  | some entry =>
    if page = 0 then
      let inserted ← insertPage layout tpa idx fresh
      putEntry inserted fresh idx (some entry)
    else putEntry tpa page idx (some entry)

/-- Fold over the pages along `next`. -/
def foldPages {β : Type} (heap : Heap (Node (Page α))) (step : β → Page α → β) :
    Nat → Nat → β → Option β
  | 0, _, _ => none
  | fuel + 1, current, res =>
    if current = 0 then some res
    else do
      let node ← heap current
      foldPages heap step fuel node.next (step res node.value)

/-- The bytes of all pages and of the header. -/
def size (tpa : Tpa α) : Option Nat :=
  foldPages tpa.heap (fun res _ => u64 (res + layout.pageSize)) (tpa.live + 1) tpa.first layout.pageSize

/-- The number of set markers. -/
def entries (tpa : Tpa α) : Option Nat :=
  foldPages tpa.heap (fun res page => (List.range layout.entriesPerPage).foldl
      (fun res slot => if (page.slots slot).isSome then u64 (res + 1) else res) res)
    (tpa.live + 1) tpa.first 0

/-- A call that changes the array, at a 64-bit index. -/
inductive Op (α : Type) where
  | store (idx : Fin (2 ^ 64)) (entry : α)
  | clear (idx : Fin (2 ^ 64))

def Op.idx : Op α → Nat
  | .store idx _ => idx.val
  | .clear idx => idx.val

def Op.data : Op α → Option α
  | .store _ entry => some entry
  | .clear _ => none

/-- The allocator returns a page that is not live. -/
def Fresh (tpa : Tpa α) (page : Nat) : Prop := page ≠ 0 ∧ tpa.heap page = none

/-- The states a sequence of calls can reach, for any behaviour of the allocator. -/
inductive Run : List (Op α) → Tpa α → Prop where
  | created : Run [] create
  | step {ops : List (Op α)} {tpa after : Tpa α} {op : Op α} {page : Nat} (run : Run ops tpa)
      (fresh : Fresh tpa page) (done : set layout tpa op.idx op.data page = some after) :
      Run (ops ++ [op]) after

/-- The partial map that a sequence of calls describes. -/
def contents (ops : List (Op α)) : Nat → Option α :=
  ops.foldl (fun map op => Function.update map op.idx op.data) (fun _ => none)

/-- What an array has to be for a partial map: reading returns the map, the page
list is linked both ways, sorted and without empty pages, and the two counts are
those of the map. -/
structure Refines (tpa : Tpa α) (map : Nat → Option α) : Prop where
  reads : ∀ idx < 2 ^ 64, get layout tpa idx = some (map idx)
  listed : ∃ items, Listed tpa.heap tpa.first items ∧ Sorted (items.map Prod.snd) ∧
    ∀ item ∈ items, item.2.vacant layout.entriesPerPage = false
  counted : entries layout tpa = some {idx | map idx ≠ none}.ncard
  sized : size layout tpa = some (u64 (layout.pageSize *
    (1 + ((fun idx => idx / layout.entriesPerPage) '' {idx | map idx ≠ none}).ncard)))

/-- The index is the only present one of its page, and a later page has a
present index. -/
def Emptying (map : Nat → Option α) (idx : Nat) : Prop :=
  (map idx ≠ none ∧ ∀ other, other ≠ idx →
    other / layout.entriesPerPage = idx / layout.entriesPerPage → map other = none) ∧
  ∃ other, idx / layout.entriesPerPage < other / layout.entriesPerPage ∧ map other ≠ none

/-- A stored index has a page that ends below `2 ^ 64`, and a clear does not
empty a page that has pages behind it. -/
def Allowed (map : Nat → Option α) : Op α → Prop
  | .store idx _ => layout.start idx.val + layout.entriesPerPage < 2 ^ 64
  | .clear idx => ¬ Emptying layout map idx.val

end Lfos.ThinArray
