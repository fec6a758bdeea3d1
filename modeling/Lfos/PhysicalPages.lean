import Lfos.Spans
import Lfos.Words

/-!
# The physical page list

The kernel records physical memory as a list of regions. A region is a byte
address, a number of 4096-byte pages and a status; the all-zero entry with
status unknown is a slot waiting for reuse. The list is followed through its
`next` pointers only, so it is represented by the sequence of its entries.

A list that has no unused entry grows by a page of them, which the kernel takes
from its heap. Marking is therefore defined for any way of keeping the list.
Machine words are natural numbers reduced modulo `2 ^ 64` where the source
arithmetic can wrap. Regions are assumed not to wrap: their end is below
`2 ^ 64`, far above the 52 bits of a physical address.
-/

namespace Lfos.PhysicalPages

open Spans Words List

/-- The page statuses of the kernel's memory map. -/
inductive PageStatus where
  | unknown
  | free
  | reserved
  | uefiMappingRequired
deriving DecidableEq, Repr

/-- One element of the page list: first byte, number of pages and status. -/
structure PageListEntry where
  start : Nat
  count : Nat
  status : PageStatus
deriving DecidableEq, Repr

/-- The entry that `mm_del_page_list_entry` leaves behind. -/
def mmDelPageListEntry : PageListEntry := ⟨0, 0, .unknown⟩

/-- The test by which a slot is recognized as unused. -/
def PageListEntry.unused (entry : PageListEntry) : Bool :=
  entry.status == .unknown && entry.start == 0 && entry.count == 0

/-- Entries of 32 bytes that fit into one page. -/
def entriesPerPage : Nat := 4096 / 32

/-- Serve `count` pages from the front of the first free region that is large
enough. An emptied region becomes an unused slot. -/
def mmAllocPages (count : Nat) : List PageListEntry → Except String (Nat × List PageListEntry)
  | [] => .error "Out of memory in mm_alloc_pages"
  | current :: rest =>
    if current.status = .free ∧ count ≤ current.count then
      let remaining := current.count - count
      if remaining ≠ 0 then
        .ok (current.start, { current with count := remaining, start := u64 (current.start + 4096 * count) } :: rest)
      else
        .ok (current.start, mmDelPageListEntry :: rest)
    else
      match mmAllocPages count rest with
      | .error message => .error message
      | .ok (ret, changed) => .ok (ret, current :: changed)

/-- The position of the first unused slot, together with the list that has it.
Running off the end appends one page of unused entries and selects its first. -/
def mmGetPageListEntry : List PageListEntry → List PageListEntry × Nat
  | [] => (List.replicate entriesPerPage mmDelPageListEntry, 0)
  | entry :: rest =>
    if entry.unused then (entry :: rest, 0)
    else
      let found := mmGetPageListEntry rest
      (entry :: found.1, found.2 + 1)

/-- Obtain a slot and fill its three data fields. -/
def fillEntry (list : List PageListEntry) (entry : PageListEntry) : List PageListEntry :=
  let found := mmGetPageListEntry list
  found.1.set found.2 entry

/-- The list built inside the first page given to the memory manager. -/
def mmBootstrap : List PageListEntry := List.replicate entriesPerPage mmDelPageListEntry

/-- The test of the marking loop: the marked bytes lie inside the entry. Both
end addresses are 64-bit sums. -/
def PageListEntry.encloses (entry : PageListEntry) (start count : Nat) : Bool :=
  decide (entry.start ≤ start) && decide (u64 (start + count * 4096) ≤ u64 (entry.start + entry.count * 4096))

/-- Where the page list is kept, and how an entry is put into it. The kernel keeps it beside
its page tables, which a growing list changes too. -/
structure Keeper (σ ε : Type) where
  pages : σ → List PageListEntry
  store : σ → List PageListEntry → σ
  put : σ → PageListEntry → Except ε σ
  panic : String → ε

/-- A list by itself. The page for new entries is not taken from the list. -/
def granted : Keeper (List PageListEntry) String where
  pages list := list
  store _ list := list
  put list entry := .ok (fillEntry list entry)
  panic message := message

/-- Mark `count` pages from `start`. The empty list stands for the null pointer
before bootstrapping.

The second part of a split region is computed from the entry after its start
and count have been overwritten, and its length is a difference of byte
addresses. -/
def mmMarkPhysicalPages {σ ε : Type} (keeper : Keeper σ ε) (state : σ) (start count : Nat)
    (status : PageStatus) : Except ε σ :=
  if count = 0 then .ok state
  else if keeper.pages state = [] then
    if status = .free then .ok (keeper.store state mmBootstrap)
    else .error (keeper.panic "mm not bootstrapped with free page first!")
  else
    match (keeper.pages state).findIdx? (fun entry => entry.encloses start count) with
    | none => keeper.put state ⟨start, count, status⟩
    | some position =>
      let current := (keeper.pages state).getD position mmDelPageListEntry
      if current.status = status then .ok state
      else
        let countFirst := (start - current.start) / 4096
        let first :=
          if countFirst = 0 then mmDelPageListEntry else { current with count := countFirst }
        let startSecond := u64 (start + count * 4096)
        let countSecond := u64Sub (first.start + first.count * 4096) (start + count * 4096)
        let split := keeper.store state ((keeper.pages state).set position first)
        let remainder :=
          if countSecond ≠ 0 then keeper.put split ⟨startSecond, countSecond, current.status⟩
          else .ok split
        remainder.bind (fun state => keeper.put state ⟨start, count, status⟩)

/-- The frames an entry describes, numbered by page. -/
def PageListEntry.frames (entry : PageListEntry) : Span := ⟨entry.start / 4096, entry.count⟩

open PageListEntry (frames)

/-- A page-aligned entry whose end is a machine word. -/
def PageListEntry.Placed (entry : PageListEntry) : Prop :=
  entry.start % 4096 = 0 ∧ entry.start + entry.count * 4096 < 2 ^ 64

/-- The statuses of all regions that hold a frame. On a list of disjoint regions
this is the page list read as a partial map from frames to statuses. -/
def statusesAt (list : List PageListEntry) (frame : Nat) : List PageStatus :=
  (list.filter (fun entry => decide (entry.frames.Holds frame))).map PageListEntry.status

@[simp] theorem del_weight (frame : Nat) : mmDelPageListEntry.frames.weight frame = 0 := by
  simp [Span.weight, Span.Holds, frames, mmDelPageListEntry]

theorem del_placed : mmDelPageListEntry.Placed := by
  simp [PageListEntry.Placed, mmDelPageListEntry]

section

variable (entry : PageListEntry)
include entry

/-- The three tests recognize exactly the deleted entry. -/
theorem unused_iff : entry.unused = true ↔ entry = mmDelPageListEntry := by
  obtain ⟨start, count, status⟩ := entry
  simp only [PageListEntry.unused, mmDelPageListEntry, Bool.and_eq_true, beq_iff_eq, PageListEntry.mk.injEq]
  tauto

/-- Filling follows the list until the first unused slot or its end. -/
theorem fill_nil : fillEntry [] entry = entry :: List.replicate (entriesPerPage - 1) mmDelPageListEntry := rfl

theorem fill_cons (head : PageListEntry) (rest : List PageListEntry) : fillEntry (head :: rest) entry =
    if head = mmDelPageListEntry then entry :: rest else head :: fillEntry rest entry := by
  by_cases slot : head = mmDelPageListEntry
  · have reusable : mmDelPageListEntry.unused = true := rfl
    simp [fillEntry, mmGetPageListEntry, slot, reusable]
  · have used : head.unused = false := by
      rw [Bool.eq_false_iff, ne_eq, unused_iff]
      exact slot
    simp [fillEntry, mmGetPageListEntry, used, slot]

/-- A filled slot adds exactly the frames of the new entry, whether it was
recycled or appended. -/
theorem cover_fill (list : List PageListEntry) (frame : Nat) :
    cover frames (fillEntry list entry) frame = cover frames list frame + entry.frames.weight frame := by
  induction list with
  | nil => simp [fill_nil, cover_replicate_empty, frames, mmDelPageListEntry]
  | cons head rest ih =>
    rw [fill_cons]
    split
    · next slot => simp [slot]
    · rw [cover_cons, cover_cons]
      omega

end

/-- Nothing is listed after filling but the new entry, old entries and slots. -/
theorem mem_fill {list : List PageListEntry} {entry member : PageListEntry} (listed : member ∈ fillEntry list entry) :
    member = entry ∨ member ∈ list ∨ member = mmDelPageListEntry := by
  induction list with
  | nil =>
    rw [fill_nil, mem_cons, mem_replicate] at listed
    tauto
  | cons head rest ih =>
    rw [fill_cons] at listed
    split at listed
    · rw [mem_cons] at listed ⊢
      tauto
    · rw [mem_cons] at listed ⊢
      tauto

/-- An entry that is filled is not unused any more. -/
theorem fill_unused {list : List PageListEntry} {entry : PageListEntry} (used : entry.unused = false)
    (some : 0 < list.countP PageListEntry.unused) :
    (fillEntry list entry).countP PageListEntry.unused + 1 = list.countP PageListEntry.unused := by
  induction list with
  | nil => exact absurd some (lt_irrefl 0)
  | cons head rest ih =>
    have reusable : mmDelPageListEntry.unused = true := rfl
    rw [fill_cons]
    split
    · next slot => rw [slot, countP_cons_of_pos reusable, countP_cons_of_neg (by rw [used]; decide)]
    · next other =>
      have taken : ¬ head.unused = true := fun unused => other ((unused_iff head).mp unused)
      rw [countP_cons_of_neg taken] at some ⊢
      rw [countP_cons_of_neg taken]
      exact ih some

section

variable (list : List PageListEntry) (entry : PageListEntry)
include list entry

/-- The new entry itself is listed. -/
theorem fill_mem : entry ∈ fillEntry list entry := by
  induction list with
  | nil => simp [fill_nil]
  | cons head rest ih =>
    rw [fill_cons]
    split <;> simp [ih]

theorem fill_ne_nil : fillEntry list entry ≠ [] := ne_nil_of_mem (fill_mem list entry)

/-- Frames outside the new entry keep their statuses, in order. -/
theorem statuses_fill (frame : Nat) (outside : ¬ entry.frames.Holds frame) :
    statusesAt (fillEntry list entry) frame = statusesAt list frame := by
  have slot : ¬ mmDelPageListEntry.frames.Holds frame := by
    simp [Span.Holds, frames, mmDelPageListEntry]
  induction list with
  | nil => simp [fill_nil, statusesAt, outside, slot]
  | cons head rest ih =>
    rw [fill_cons]
    simp only [statusesAt] at ih ⊢
    split
    · next same => simp [same, outside, slot]
    · by_cases held : head.frames.Holds frame <;> simp [held, ih]

end

theorem statuses_length (list : List PageListEntry) (frame : Nat) :
    (statusesAt list frame).length = cover frames list frame := by
  simp [statusesAt, cover, countP_eq_length_filter]

section

/-- The end of the region that ends last. The test adds the number of pages to the address. -/
def mmHighestAddress (list : List PageListEntry) : Nat :=
  list.foldl (fun res current =>
    if res < u64 (current.start + current.count) then u64 (current.start + u64 (current.count * 4096)) else res) 0

/-- The first byte behind a region. -/
def PageListEntry.finish (entry : PageListEntry) : Nat := entry.start + entry.count * 4096

/-- A list of regions that end in front of `2 ^ 64`, with unused entries in between. -/
def Regions (list : List PageListEntry) : Prop :=
  ∀ entry ∈ list, entry = mmDelPageListEntry ∨ 0 < entry.count ∧ entry.Placed

/-- No region ends later, and one of them ends here unless there is none. -/
structure Highest (list : List PageListEntry) (res : Nat) : Prop where
  above : ∀ entry ∈ list, entry.finish ≤ res
  reached : res = 0 ∧ (∀ entry ∈ list, entry = mmDelPageListEntry) ∨ ∃ entry ∈ list, 0 < entry.count ∧ entry.finish = res

variable {seen : List PageListEntry} {current : PageListEntry} {res : Nat}

/-- A region that is not past the result ends in front of it: else it would share the last page of the region that
ends there. -/
theorem Highest.finish_le (highest : Highest seen res) (aligned : ∀ entry ∈ seen, entry.start % 4096 = 0)
    (nonempty : 0 < current.count) (apart : ∀ entry ∈ seen, entry.frames.Apart current.frames)
    (within : current.start + current.count ≤ res) : current.finish ≤ res := by
  rcases highest.reached with ⟨rfl, _⟩ | ⟨entry, member, some, rfl⟩
  · omega
  · by_contra beyond
    have start := aligned entry member
    have disjoint := apart entry member (entry.finish / 4096 - 1)
    simp only [frames, Span.Holds, PageListEntry.finish] at disjoint beyond within
    omega

theorem Highest.next (highest : Highest seen res) (aligned : ∀ entry ∈ seen, entry.start % 4096 = 0)
    (region : current = mmDelPageListEntry ∨ 0 < current.count ∧ current.Placed)
    (apart : ∀ entry ∈ seen, entry.frames.Apart current.frames) : Highest (seen ++ [current])
    (if res < u64 (current.start + current.count) then u64 (current.start + u64 (current.count * 4096)) else res) := by
  rcases region with rfl | ⟨nonempty, placed⟩
  · -- An unused entry is never past the result.
    rw [if_neg (show ¬ res < u64 (mmDelPageListEntry.start + mmDelPageListEntry.count) from Nat.not_lt_zero res)]
    constructor
    · simpa [or_imp, forall_and, PageListEntry.finish, mmDelPageListEntry] using highest.above
    · simpa [or_imp, forall_and, or_and_right, exists_or] using highest.reached.imp_right .inl
  · have bounds := placed.2
    rw [u64_of_lt (show current.count * 4096 < _ by omega), u64_of_lt bounds, u64_of_lt (by omega)]
    have last : current ∈ seen ++ [current] := mem_append_right _ mem_cons_self
    split
    case isTrue past =>
      refine ⟨forall_mem_append.mpr ⟨?_, forall_mem_singleton.mpr le_rfl⟩, .inr ⟨current, last, nonempty, rfl⟩⟩
      intro entry earlier
      have below := highest.above entry earlier
      omega
    case isFalse notPast =>
      have within := highest.finish_le aligned nonempty apart (Nat.le_of_not_lt notPast)
      refine ⟨forall_mem_append.mpr ⟨highest.above, forall_mem_singleton.mpr within⟩, .inr ?_⟩
      · rcases highest.reached with ⟨rfl, _⟩ | ⟨entry, member, some, ends⟩
        · exact absurd within (by simp only [PageListEntry.finish]; omega)
        · exact ⟨entry, mem_append_left _ member, some, ends⟩

/-- The largest end of a region, for disjoint regions in any order. -/
theorem highest_address_is_maximum (list : List PageListEntry) (regions : Regions list)
    (disjoint : list.Pairwise (fun left right => left.frames.Apart right.frames)) : Highest list (mmHighestAddress list) := by
  induction list using List.reverseRecOn with
  | nil => exact ⟨nofun, .inl ⟨rfl, nofun⟩⟩
  | append_singleton seen current ih =>
    obtain ⟨earlier, _, apart⟩ := pairwise_append.mp disjoint
    have regionsSeen : Regions seen := (forall_mem_append.mp regions).1
    have aligned : ∀ entry ∈ seen, entry.start % 4096 = 0 := by
      intro entry member
      rcases regionsSeen entry member with rfl | ⟨_, placed⟩
      · rfl
      · exact placed.1
    rw [mmHighestAddress, foldl_append]
    exact (ih regionsSeen earlier).next aligned (regions current (mem_append_right _ mem_cons_self))
      (fun entry member => apart entry member current mem_cons_self)

/-- The later region is listed first. -/
theorem highest_address_is_maximum_unordered :
    Highest [⟨0x9000, 2, .free⟩, mmDelPageListEntry, ⟨0x1000, 3, .reserved⟩] 0xB000 :=
  highest_address_is_maximum [⟨0x9000, 2, .free⟩, mmDelPageListEntry, ⟨0x1000, 3, .reserved⟩]
    (by simp [Regions, PageListEntry.Placed])
    (by simp [Span.Apart, Span.Holds, frames, mmDelPageListEntry]; omega)

end

end Lfos.PhysicalPages
