import Lfos.ThinArray

/-!
# The thin provisioned array refines a partial map

`Faithful` ties an array to the list of its pages and to the map they stand for.
Every call that is allowed keeps it: a page is found exactly if one starts where
the page of the index does, a new page is linked in at the place the sorted order
asks for, and only the last page of the list is ever given back. The first call
that is not allowed leaves a state that is no such array any more: either the
stored index cannot be read back, since the end of its page wraps to zero, or the
page behind a page that was given back still refers to it.
-/

namespace Lfos.ThinArray

open Words LinkedHeap DoublyLinked SparsePages List Option Function

variable {α : Type} (layout : Layout)

/-- The pages of listed nodes. -/
def pagesOf (items : List (Nat × Page α)) : List (Page α) := items.map Prod.snd

@[simp] theorem pagesOf_cons (item : Nat × Page α) (items : List (Nat × Page α)) :
    pagesOf (item :: items) = item.2 :: pagesOf items := rfl

@[simp] theorem pagesOf_append (left right : List (Nat × Page α)) :
    pagesOf (left ++ right) = pagesOf left ++ pagesOf right := map_append

/-- The nodes of an array, all of them listed. -/
structure Holds (tpa : Tpa α) (items : List (Nat × Page α)) : Prop where
  listed : Listed tpa.heap tpa.first items
  only : ∀ address node, tpa.heap address = some node → address ∈ addresses items
  live : tpa.live = items.length

/-- The state of an array that behaves like a map: the pages of its nodes are sorted and look up as
the map, whose indices have pages that end below `2 ^ 64`. -/
structure Faithful (tpa : Tpa α) (items : List (Nat × Page α)) (map : Nat → Option α) : Prop
    extends Holds tpa items where
  paged : Paged layout.entriesPerPage (pagesOf items)
  reads : ∀ idx, lookup layout.entriesPerPage idx (pagesOf items) = map idx
  short : ∀ idx, map idx ≠ none → layout.start idx + layout.entriesPerPage < 2 ^ 64

theorem faithful_create : Faithful layout (create : Tpa α) [] (fun _ => none) where
  listed := ⟨0, rfl, rfl⟩
  only _ _ stored := nomatch stored
  live := rfl
  paged := ⟨List.Pairwise.nil, by simp [pagesOf], by simp [pagesOf]⟩
  reads _ := rfl
  short := by simp

variable {items before after : List (Nat × Page α)} {idx address : Nat} {tpa : Tpa α} {map : Nat → Option α}
  {page : Page α}

section

variable {layout} {heap : Heap (Node (Page α))} {prev current last fuel : Nat}

/-- The walk returns the first page that covers the index. In a sorted list it
may stop at a page behind the index. -/
theorem getPageForIdx_eq (linked : Linked heap prev current items last 0)
    (sorted : Sorted (pagesOf items)) (enough : items.length < fuel) : getPageForIdx layout heap idx fuel current =
    some (((items.find? (fun item => covers layout idx item.2)).map Prod.fst).getD 0) := by
  induction items generalizing prev current fuel with
  | nil =>
    obtain ⟨_, rfl⟩ := linked
    obtain ⟨fuel, rfl⟩ := Nat.exists_eq_add_one.mpr enough.pos
    simp [getPageForIdx]
  | cons item rest ih =>
    obtain ⟨address, page⟩ := item
    obtain ⟨rfl, live, next, stored, tail⟩ := linked
    obtain ⟨greater, restSorted⟩ := pairwise_cons.mp sorted
    obtain ⟨fuel, rfl⟩ := Nat.exists_eq_add_one.mpr enough.pos
    have onward := ih tail restSorted (Nat.lt_of_succ_lt_succ enough)
    by_cases here : covers layout idx page = true
    · simp [getPageForIdx, live, stored, here]
    · by_cases behind : idx < page.startIdx
      · have missing : rest.find? (fun item => covers layout idx item.2) = none := by
          refine find?_eq_none.mpr ?_
          intro other member covered
          have larger : page.startIdx < other.2.startIdx := greater other.2 (mem_map_of_mem member)
          simp only [covers, Bool.and_eq_true, decide_eq_true_eq] at covered
          omega
        simp [getPageForIdx, live, stored, here, behind, missing]
      · simp [getPageForIdx, live, stored, here, behind, onward]

/-- Seeking stays where the following page does not start earlier. -/
theorem seekPage_stay {address next back startIdx : Nat} {page : Page α}
    (stored : heap address = some ⟨next, back, page⟩) (linked : Linked heap address next after last 0)
    (greater : Above (pagesOf after) startIdx) :
    seekPage heap startIdx (fuel + 1) address = some address := by
  cases after with
  | nil =>
    obtain ⟨_, rfl⟩ := linked
    simp [seekPage, stored]
  | cons item rest =>
    obtain ⟨other, following⟩ := item
    obtain ⟨rfl, live, onward, storedNext, _⟩ := linked
    have larger := greater following mem_cons_self
    simp [seekPage, stored, live, storedNext, not_lt_of_gt larger]

/-- Seeking ends at the last page with a smaller start. -/
theorem seekPage_eq {address startIdx : Nat} {page : Page α}
    (linked : Linked heap prev current (before ++ (address, page) :: after) last 0)
    (smaller : Below (pagesOf (before ++ [(address, page)])) startIdx) (greater : Above (pagesOf after) startIdx)
    (enough : before.length < fuel) :
    seekPage heap startIdx fuel current = some address := by
  induction before generalizing prev current fuel with
  | nil =>
    obtain ⟨rfl, _, next, stored, rest⟩ := linked
    obtain ⟨fuel, rfl⟩ := Nat.exists_eq_add_one.mpr enough.pos
    exact seekPage_stay stored rest greater
  | cons item others ih =>
    rw [cons_append] at linked
    obtain ⟨rfl, _, next, stored, rest⟩ := linked
    obtain ⟨fuel, rfl⟩ := Nat.exists_eq_add_one.mpr enough.pos
    have onward := ih rest (forall_mem_cons.mp smaller).2 (Nat.lt_of_succ_lt_succ enough)
    obtain ⟨second, secondPage, remaining, shape⟩ : ∃ second secondPage remaining, others ++ (address, page) :: after =
          (second, secondPage) :: remaining ∧ (second, secondPage) ∈ others ++ [(address, page)] := by
      cases others with
      | nil => exact ⟨address, page, after, rfl, by simp⟩
      | cons head tail => exact ⟨head.1, head.2, tail ++ (address, page) :: after, rfl, by simp⟩
    rw [shape.1] at rest
    obtain ⟨rfl, live, _, storedNext, _⟩ := rest
    have early : secondPage.startIdx < startIdx := smaller _ (mem_cons_of_mem _ (mem_map_of_mem shape.2))
    simp [seekPage, stored, live, storedNext, early, onward]

/-- A fold over the linked pages is a fold over their list. -/
theorem foldPages_eq {β : Type} (step : β → Page α → β) (res : β)
    (linked : Linked heap prev current items last 0) (enough : items.length < fuel) :
    foldPages heap step fuel current res = some ((pagesOf items).foldl step res) := by
  induction items generalizing prev current fuel res with
  | nil =>
    obtain ⟨_, rfl⟩ := linked
    obtain ⟨fuel, rfl⟩ := Nat.exists_eq_add_one.mpr enough.pos
    simp [foldPages, pagesOf]
  | cons item rest ih =>
    obtain ⟨address, page⟩ := item
    obtain ⟨rfl, live, next, stored, tail⟩ := linked
    obtain ⟨fuel, rfl⟩ := Nat.exists_eq_add_one.mpr enough.pos
    simp [foldPages, live, stored, ih (step res page) tail (Nat.lt_of_succ_lt_succ enough)]

end

section

variable {layout}

/-- Counting the set markers of a page on top of a 64-bit number. -/
theorem count_slots (page : Page α) (slots : List Nat) (res : Nat) :
    slots.foldl (fun res slot => if (page.slots slot).isSome then u64 (res + 1) else res) (u64 res) =
    u64 (res + (slots.filter (fun slot => (page.slots slot).isSome)).length) := by
  induction slots generalizing res with
  | nil => rfl
  | cons slot rest ih =>
    rw [foldl_cons, filter_cons]
    split
    · have step : u64 (u64 res + 1) = u64 (res + 1) := Nat.mod_add_mod ..
      rw [step, ih, length_cons]
      congr 1
      omega
    · exact ih res

/-- Counting the entries of all pages. -/
theorem count_pages (size : Nat) (pages : List (Page α)) (res : Nat) : pages.foldl (fun res page => (range size).foldl
    (fun res slot => if (page.slots slot).isSome then u64 (res + 1) else res) res) (u64 res) =
    u64 (res + (indices size pages).length) := by
  induction pages generalizing res with
  | nil => rfl
  | cons page rest ih =>
    rw [foldl_cons, count_slots, ih]
    simp only [indices, flatMap_cons, length_append, Page.indices, length_map]
    congr 1
    omega

theorem sum_pages (pages : List (Page α)) (pageSize res : Nat) :
    pages.foldl (fun res _ => u64 (res + pageSize)) (u64 res) = u64 (res + pageSize * pages.length) := by
  induction pages generalizing res with
  | nil => rfl
  | cons page rest ih =>
    have step : u64 (u64 res + pageSize) = u64 (res + pageSize) := Nat.mod_add_mod ..
    rw [foldl_cons, step, ih, length_cons, Nat.mul_succ]
    congr 1
    omega

/-- Pages start where the page of a present index does. -/
theorem Faithful.page_iff (faithful : Faithful layout tpa items map) (start : Nat) :
    (∃ page ∈ pagesOf items, page.startIdx = start) ↔ ∃ idx, map idx ≠ none ∧ layout.start idx = start := by
  simp only [SparsePages.page_iff layout.entriesPerPage_pos faithful.paged, faithful.reads]

theorem Faithful.below (faithful : Faithful layout tpa items map) :
    ∀ page ∈ pagesOf items, page.startIdx + layout.entriesPerPage < 2 ^ 64 := by
  intro page member
  obtain ⟨idx, present, start⟩ := (faithful.page_iff _).mp ⟨page, member, rfl⟩
  exact start ▸ faithful.short idx present

/-- All present indices are below `2 ^ 64`, so their number is, too. -/
theorem indices_length_lt (faithful : Faithful layout tpa items map) :
    (indices layout.entriesPerPage (pagesOf items)).length < 2 ^ 64 := by
  have positive := layout.entriesPerPage_pos
  have inside : indices layout.entriesPerPage (pagesOf items) ⊆ range (2 ^ 64 - 1) := by
    intro idx member
    rw [mem_indices positive faithful.paged, faithful.reads, isSome_iff_ne_none] at member
    have short := faithful.short idx member
    have bound : idx < layout.start idx + _ := lt_pageStart_add positive idx
    exact mem_range.mpr (by omega)
  have fits := (subperm_of_subset (indices_nodup positive faithful.paged) inside).length_le
  rw [length_range] at fits
  omega

end

section

variable {layout}
/-- A page that ends below `2 ^ 64` covers the indices of its page number. -/
theorem covers_iff (aligned : layout.entriesPerPage ∣ page.startIdx)
    (below : page.startIdx + layout.entriesPerPage < 2 ^ 64) :
    covers layout idx page = true ↔ page.startIdx = layout.start idx := by
  rw [covers, u64_of_lt below, ← within_iff layout.entriesPerPage_pos aligned]
  simp only [Bool.and_eq_true, decide_eq_true_eq]

/-- The nodes split like their pages. -/
theorem items_split (start : Nat) (sorted : Sorted (pagesOf items)) :
    ∃ before after, Below (pagesOf before) start ∧ Above (pagesOf after) start ∧
    (items = before ++ after ∨ ∃ address page, page.startIdx = start ∧ items = before ++ (address, page) :: after) := by
  obtain ⟨left, right, smaller, greater, shape⟩ := sorted_split start sorted
  rcases shape with gap | ⟨page, atStart, found⟩
  · obtain ⟨before, after, rfl, rfl, rfl⟩ := map_eq_append_iff.mp gap
    exact ⟨before, after, smaller, greater, .inl rfl⟩
  · obtain ⟨before, others, rfl, rfl, rest⟩ := map_eq_append_iff.mp found
    obtain ⟨item, after, rfl, rfl, rfl⟩ := map_eq_cons_iff.mp rest
    exact ⟨before, after, smaller, greater, .inr ⟨item.1, item.2, atStart, rfl⟩⟩

/-- In an array that behaves like a map, a page covers exactly the indices of its
page number. -/
theorem faithful_covers (faithful : Faithful layout tpa items map) {item : Nat × Page α}
    (member : item ∈ items) : covers layout idx item.2 = true ↔
    item.2.startIdx = layout.start idx := by
  have inPages : item.2 ∈ pagesOf items := mem_map_of_mem member
  exact covers_iff (faithful.paged.aligned _ inPages) (faithful.below _ inPages)

section

variable (smaller : Below (pagesOf before) (layout.start idx))
include smaller

/-- Without a page for the index the walk ends at null. -/
theorem walk_gap (faithful : Faithful layout tpa (before ++ after) map)
    (greater : Above (pagesOf after) (layout.start idx)) :
    getPageForIdx layout tpa.heap idx (tpa.live + 1) tpa.first = some 0 := by
  obtain ⟨last, linked⟩ := faithful.listed
  rw [getPageForIdx_eq linked faithful.paged.sorted (Nat.lt_succ_of_le faithful.live.ge)]
  have missing : (before ++ after).find? (fun item => covers layout idx item.2) = none := by
    refine find?_eq_none.mpr ?_
    intro item member covered
    have start := (faithful_covers faithful member).mp covered
    cases mem_append.mp member with
    | inl inBefore => exact ne_of_lt (smaller item.2 (mem_map_of_mem inBefore)) start
    | inr inAfter => exact ne_of_gt (greater item.2 (mem_map_of_mem inAfter)) start
  rw [missing]
  rfl

/-- The walk ends at the page of the index. -/
theorem walk_here {address : Nat} (faithful : Faithful layout tpa (before ++ (address, page) :: after) map)
    (start : page.startIdx = layout.start idx) :
    getPageForIdx layout tpa.heap idx (tpa.live + 1) tpa.first = some address := by
  obtain ⟨last, linked⟩ := faithful.listed
  rw [getPageForIdx_eq linked faithful.paged.sorted (Nat.lt_succ_of_le faithful.live.ge)]
  have here : covers layout idx page = true :=
    (faithful_covers faithful (mem_append_right before mem_cons_self)).mpr start
  have missing : before.find? (fun item => covers layout idx item.2) = none := by
    refine find?_eq_none.mpr ?_
    intro item member covered
    have same := (faithful_covers faithful (mem_append_left _ member)).mp covered
    exact ne_of_lt (smaller item.2 (mem_map_of_mem member)) same
  rw [find?_append, missing]
  simp [here]

end

theorem slot_of_start (start : page.startIdx = layout.start idx) :
    idx - page.startIdx = idx % layout.entriesPerPage := by
  have split : layout.start idx + _ = idx := pageStart_add_mod layout.entriesPerPage idx
  omega

/-- Reading returns the map. -/
theorem get_eq (faithful : Faithful layout tpa items map) (idx : Nat) : get layout tpa idx = some (map idx) := by
  rw [← faithful.reads idx]
  obtain ⟨before, after, smaller, greater, shape⟩ := items_split (layout.start idx) faithful.paged.sorted
  rcases shape with rfl | ⟨address, page, start, rfl⟩
  · rw [pagesOf_append, lookup_gap smaller greater]
    simp [get, walk_gap smaller faithful greater]
  · obtain ⟨last, linked⟩ := faithful.listed
    obtain ⟨live, next, back, stored⟩ := linked_live linked (mem_append_right before mem_cons_self)
    rw [pagesOf_append, pagesOf_cons, lookup_here smaller start]
    simp [get, walk_here smaller faithful start, live, stored, slot_of_start start]

/-- An array that behaves like a map is what the map asks for. -/
theorem faithful_refines (faithful : Faithful layout tpa items map) : Refines layout tpa map := by
  have positive := layout.entriesPerPage_pos
  have mapEq : map = fun idx => lookup layout.entriesPerPage idx (pagesOf items) :=
    funext (fun idx => (faithful.reads idx).symm)
  obtain ⟨last, linked⟩ := faithful.listed
  have enough : items.length < tpa.live + 1 := Nat.lt_succ_of_le faithful.live.ge
  refine ⟨fun idx _ => get_eq faithful idx, ⟨items, faithful.listed, faithful.paged.sorted, ?_⟩, ?_, ?_⟩
  · intro item member
    exact faithful.paged.occupied item.2 (mem_map_of_mem member)
  · rw [entries, foldPages_eq _ _ linked enough, mapEq, ncard_present positive faithful.paged]
    have counted := count_pages layout.entriesPerPage (pagesOf items) 0
    rw [zero_add, u64_of_lt (indices_length_lt faithful)] at counted
    exact congrArg some counted
  · rw [size, foldPages_eq _ _ linked enough, mapEq, ncard_pages positive faithful.paged]
    have summed := sum_pages (pagesOf items) layout.pageSize layout.pageSize
    rw [u64_of_lt layout.bounded] at summed
    rw [summed, mul_add, mul_one]

end

section

variable {layout}
theorem mem_addresses_around {target : Nat} : target ∈ addresses (before ++ (address, page) :: after) ↔
    target = address ∨ target ∈ addresses (before ++ after) := by
  simp only [addresses_append, addresses_cons, mem_append, mem_cons]
  tauto

/-- Writing a slot changes one listed page. -/
theorem putEntry_eq (held : Holds tpa (before ++ (address, page) :: after))
    (start : page.startIdx = layout.start idx) (entry : Option α) :
    ∃ result, putEntry tpa address idx entry = some result ∧
    Holds result (before ++ (address, page.put (idx % layout.entriesPerPage) entry) :: after) := by
  obtain ⟨last, linked⟩ := held.listed
  obtain ⟨_, next, back, stored⟩ := linked_live linked (mem_append_right before mem_cons_self)
  refine ⟨⟨tpa.first, tpa.heap.write address ⟨next, back, page.put (idx % layout.entriesPerPage) entry⟩, tpa.live⟩,
    ?_, ⟨last, ?_⟩, ?_, ?_⟩
  · simp [putEntry, stored, slot_of_start start]
  · exact linked_store linked (listed_nodup held.listed) stored
  · have only := held.only
    rw [addresses_append] at only ⊢
    exact live_write only (mem_append_right _ mem_cons_self)
  · rw [held.live, length_append, length_append]
    rfl

/-- The result of linking a new page into a list of pages: the new list, and no
other cell comes alive. -/
def LinkedIn (tpa : Tpa α) (items : List (Nat × Page α)) (fresh : Nat) (result : Option (Tpa α)) : Prop :=
  ∃ first heap, result = some ⟨first, heap, tpa.live + 1⟩ ∧ Listed heap first items ∧
    ∀ target node, heap target = some node → target = fresh ∨ ∃ old, tpa.heap target = some old

section

variable {fresh : Nat}

theorem known_fresh (node : Node (Page α)) : ∀ other found,
    tpa.heap.write fresh node other = some found → other = fresh ∨ ∃ old, tpa.heap other = some old :=
  live_write (fun _ node stored => .inr ⟨node, stored⟩) (.inl rfl)

variable (unused : Fresh tpa fresh)
include unused

theorem fresh_absent (listed : Listed tpa.heap tpa.first items) : fresh ∉ addresses items := by
  intro member
  obtain ⟨_, node, stored⟩ := segment_live (listed_chain listed) member
  exact nomatch unused.2.symm.trans stored

/-- The first page of an array. -/
theorem insertPage_empty (listed : Listed tpa.heap tpa.first []) :
    LinkedIn tpa [(fresh, blank (layout.start idx))] fresh (insertPage layout tpa idx fresh) := by
  obtain ⟨_, _, null⟩ := listed
  refine ⟨fresh, tpa.heap.write fresh ⟨0, 0, blank (layout.start idx)⟩, ?_, ?_, known_fresh _⟩
  · simp [insertPage, null]
  · exact ⟨fresh, rfl, unused.1, 0, write_here .., rfl, rfl⟩

/-- A page before all others becomes the first, and the old first page gets its
back link. -/
theorem insertPage_front {head : Nat} {headPage : Page α} {rest : List (Nat × Page α)}
    (listed : Listed tpa.heap tpa.first ((head, headPage) :: rest))
    (greater : Above (headPage :: pagesOf rest) (layout.start idx)) :
    LinkedIn tpa ((fresh, blank (layout.start idx)) :: (head, headPage) :: rest) fresh
    (insertPage layout tpa idx fresh) := by
  have absent := fresh_absent unused listed
  obtain ⟨headAbsent, _⟩ := nodup_cons.mp (listed_nodup listed)
  obtain ⟨last, linked⟩ := listed
  have different : head ≠ fresh := fun same => absent (same ▸ mem_cons_self)
  have larger := greater headPage mem_cons_self
  generalize startEq : layout.start idx = startIdx at *
  have grown : Linked (tpa.heap.write fresh ⟨0, 0, blank startIdx⟩) 0 tpa.first
      ((head, headPage) :: rest) last 0 := linked_write linked absent
  obtain ⟨atHead, headLive, next, stored, tail⟩ := grown
  have sought : seekPage (tpa.heap.write fresh ⟨0, 0, blank startIdx⟩) startIdx (tpa.live + 1) head = some head :=
    seekPage_stay stored tail (forall_mem_cons.mp greater).2
  rw [write_elsewhere _ _ different] at stored
  refine ⟨fresh, (tpa.heap.write fresh ⟨head, 0, blank startIdx⟩).write head ⟨next, fresh, headPage⟩, ?_, ?_, ?_⟩
  · simp [insertPage, startEq, atHead, headLive, sought, stored, write_elsewhere _ _ different, write_write,
      not_lt_of_gt larger, larger]
  · refine ⟨last, rfl, unused.1, head, ?_, ?_⟩
    · rw [write_elsewhere _ _ (Ne.symm different), write_here]
    · exact linked_rebase fresh (linked_write (atHead ▸ linked) absent) headAbsent
        ((write_elsewhere _ _ different).trans stored)
  · exact live_write (known_fresh _) (.inr ⟨_, stored⟩)

/-- A page behind another is linked between it and the page after it. -/
theorem insertPage_behind {init : List (Nat × Page α)}
    (listed : Listed tpa.heap tpa.first (init ++ (address, page) :: after)) (live : init.length ≤ tpa.live)
    (smaller : Below (pagesOf (init ++ [(address, page)])) (layout.start idx))
    (greater : Above (pagesOf after) (layout.start idx)) :
    LinkedIn tpa (init ++ (address, page) :: (fresh, blank (layout.start idx)) :: after)
    fresh (insertPage layout tpa idx fresh) := by
  have absent := fresh_absent unused listed
  have distinct := listed_nodup listed
  obtain ⟨last, linked⟩ := listed
  have early := smaller page (by simp [pagesOf])
  generalize startEq : layout.start idx = startIdx at *
  have sought : seekPage (tpa.heap.write fresh ⟨0, 0, blank startIdx⟩) startIdx (tpa.live + 1) tpa.first = some address :=
    seekPage_eq (linked_write linked absent) smaller greater (Nat.lt_succ_of_le live)
  have started : tpa.first ≠ 0 := linked_start_ne_zero linked (by simp)
  -- The list is cut behind the page.
  rw [append_cons] at linked absent distinct ⊢
  obtain ⟨middle, next, upTo, rest⟩ := (linked_append _ after).mp linked
  obtain ⟨rfl, back, stored⟩ := linked_last upTo
  obtain ⟨addressLive, _⟩ := linked_live upTo (mem_append_right init mem_cons_self)
  rw [addresses_append] at absent distinct
  obtain ⟨absentUpTo, absentAfter⟩ := not_or.mp (mt mem_append.mpr absent)
  obtain ⟨initDistinct, afterDistinct, apart⟩ := nodup_append.mp distinct
  have here : middle ∈ addresses (init ++ [(middle, page)]) := by simp
  have different : middle ≠ fresh := fun same => absentUpTo (same ▸ here)
  have absentInit : middle ∉ addresses init := by
    rw [addresses_append] at initDistinct
    exact fun member => (nodup_append.mp initDistinct).2.2 middle member middle mem_cons_self rfl
  -- The links of the new page and of the page before it, which every case sets.
  obtain ⟨joined, joinedEq⟩ := @exists_eq _ ((tpa.heap.write fresh ⟨next, middle, blank startIdx⟩).write middle ⟨fresh,
    back, page⟩)
  have redirected : Linked joined 0 tpa.first (init ++ [(middle, page)]) middle fresh := by
    rw [joinedEq]
    exact linked_redirect fresh (linked_write upTo absentUpTo) absentInit ((write_elsewhere _ _ different).trans stored)
  have newPage : joined fresh = some ⟨next, middle, blank startIdx⟩ := by
    rw [joinedEq, write_elsewhere _ _ (Ne.symm different), write_here]
  have behind : Linked joined middle next after last 0 := by
    rw [joinedEq]
    exact linked_write (linked_write rest absentAfter) (fun member => apart middle here middle member rfl)
  have knownPages : ∀ other node, joined other = some node → other = fresh ∨ ∃ old, tpa.heap other = some old := by
    rw [joinedEq]
    exact live_write (known_fresh _) (.inr ⟨_, stored⟩)
  have inserted : insertPage layout tpa idx fresh = if next ≠ 0 then do
        let following ← joined next
        some ⟨tpa.first, joined.write next { following with prev := fresh }, tpa.live + 1⟩
      else some ⟨tpa.first, joined, tpa.live + 1⟩ := by
    simp [insertPage, startEq, started, sought, addressLive, write_elsewhere _ _ different, stored, early, joinedEq, write_write]
  rw [inserted]
  cases after with
  | nil =>
    obtain ⟨_, rfl⟩ := rest
    refine ⟨tpa.first, joined, by simp, ⟨fresh, ?_⟩, knownPages⟩
    exact (linked_append _ _).mpr ⟨middle, fresh, redirected, rfl, unused.1, 0, newPage, rfl, rfl⟩
  | cons item others =>
    obtain ⟨follower, followerPage⟩ := item
    have followed := behind
    obtain ⟨rfl, followerLive, onward, storedNext, _⟩ := behind
    refine ⟨tpa.first, joined.write next ⟨onward, fresh, followerPage⟩, ?_, ⟨last, ?_⟩, ?_⟩
    · simp [followerLive, storedNext]
    · have apartFresh : fresh ≠ next := fun same => absentAfter (same ▸ mem_cons_self)
      have moved := linked_rebase fresh followed (nodup_cons.mp afterDistinct).1 storedNext
      refine (linked_append _ _).mpr ⟨middle, fresh, ?_, rfl, unused.1, next, ?_, moved⟩
      · exact linked_write redirected (fun member => apart next member next mem_cons_self rfl)
      · exact (write_elsewhere _ _ apartFresh).trans newPage
    · exact live_write knownPages (knownPages next _ storedNext)

/-- Inserting a page links it in where its start belongs. -/
theorem insertPage_eq (listed : Listed tpa.heap tpa.first (before ++ after))
    (live : (before ++ after).length ≤ tpa.live)
    (smaller : Below (pagesOf before) (layout.start idx)) (greater : Above (pagesOf after) (layout.start idx)) :
    LinkedIn tpa (before ++ (fresh, blank (layout.start idx)) :: after) fresh
    (insertPage layout tpa idx fresh) := by
  cases before using reverseRecOn with
  | nil =>
    cases after with
    | nil => exact insertPage_empty unused listed
    | cons item rest => exact insertPage_front unused listed greater
  | append_singleton init item =>
    rw [append_assoc] at listed live ⊢
    have short : init.length ≤ tpa.live := by
      rw [length_append] at live
      omega
    exact insertPage_behind unused listed short smaller greater

end

section

/-- A page that still has entries stays. -/
theorem cleanPage_occupied {node : Node (Page α)} (stored : tpa.heap address = some node)
    (occupied : node.value.vacant layout.entriesPerPage = false) : cleanPage layout tpa address = some tpa := by
  simp [cleanPage, stored, occupied]

variable (vacant : page.vacant layout.entriesPerPage = true)
include vacant

/-- Removing a page passes its forward link to the page before it, or to the
array. -/
theorem cleanPage_eq (listed : Listed tpa.heap tpa.first (before ++ (address, page) :: after)) :
    ∃ first heap next last, cleanPage layout tpa address = some ⟨first, heap, tpa.live - 1⟩ ∧
    Linked heap 0 first before last next ∧ (∀ target ∈ addresses after, heap target = tpa.heap target) ∧
    heap address = none ∧ (∀ target node, heap target = some node → ∃ old, tpa.heap target = some old) ∧
    ∃ finish, Linked tpa.heap address next after finish 0 := by
  have distinct := listed_nodup listed
  obtain ⟨finish, linked⟩ := listed
  rw [addresses_append] at distinct
  obtain ⟨beforeDistinct, tailDistinct, apart⟩ := nodup_append.mp distinct
  obtain ⟨absentAfter, _⟩ := nodup_cons.mp tailDistinct
  have absentBefore (member : address ∈ addresses before) := apart address member address mem_cons_self rfl
  obtain ⟨back, middle, first, rfl, live, next, stored, rest⟩ := (linked_append before _).mp linked
  have apartAfter : ∀ target ∈ addresses after, target ≠ middle := by
    rintro target member rfl
    exact absentAfter member
  cases before using reverseRecOn with
  | nil =>
    obtain ⟨rfl, started⟩ := first
    refine ⟨next, tpa.heap.release middle, next, 0, ?_, ⟨rfl, rfl⟩, ?_, release_here .., ?_, finish, rest⟩
    · simp [cleanPage, stored, vacant]
    · intro target member
      exact release_elsewhere _ (apartAfter target member)
    · exact live_release (fun _ node held => ⟨node, held⟩)
  | append_singleton init item =>
    obtain ⟨previous, previousPage⟩ := item
    obtain ⟨same, origin, storedBefore⟩ := linked_last first
    subst same
    have previousLive : back ≠ 0 := (linked_live first (mem_append_right init mem_cons_self)).1
    have absentInit : back ∉ addresses init := by
      rw [addresses_append, nodup_append] at beforeDistinct
      exact fun member => beforeDistinct.2.2 back member back mem_cons_self rfl
    refine ⟨tpa.first, (tpa.heap.write back ⟨next, origin, previousPage⟩).release middle, next, back,
      ?_, ?_, ?_, release_here .., ?_, finish, rest⟩
    · simp [cleanPage, stored, vacant, previousLive, storedBefore]
    · exact linked_release (linked_redirect next first absentInit storedBefore) absentBefore
    · intro target member
      have apartPrevious : target ≠ back := by
        rintro rfl
        exact apart target (by simp) target (mem_cons_of_mem _ member) rfl
      rw [release_elsewhere _ (apartAfter target member), write_elsewhere _ _ apartPrevious]
    · exact live_release (live_write (fun _ node held => ⟨node, held⟩) ⟨_, storedBefore⟩)

/-- Removing the last page leaves the pages before it. -/
theorem cleanPage_last (held : Holds tpa (before ++ [(address, page)])) :
    ∃ result, cleanPage layout tpa address = some result ∧ Holds result before := by
  obtain ⟨first, heap, next, last, cleaned, linked, _, released, known, _, ended⟩ := cleanPage_eq vacant held.listed
  obtain ⟨_, rfl⟩ := ended
  refine ⟨_, cleaned, ⟨last, linked⟩, ?_, ?_⟩
  · intro target found stored
    obtain ⟨old, storedBefore⟩ := known target found stored
    have member := mem_addresses_around.mp (held.only target old storedBefore)
    rw [append_nil] at member
    refine member.resolve_left ?_
    rintro rfl
    exact nomatch released.symm.trans stored
  · rw [held.live, length_append]
    rfl

/-- Removing another page breaks the list: the page behind it keeps a back link
to the page that is gone. -/
theorem cleanPage_inner {item : Nat × Page α}
    (listed : Listed tpa.heap tpa.first (before ++ (address, page) :: item :: after)) :
    ∃ result, cleanPage layout tpa address = some result ∧ ¬ ∃ items, Listed result.heap result.first items := by
  obtain ⟨follower, followerPage⟩ := item
  have distinct := listed_nodup listed
  have member : address ∈ addresses (before ++ (address, page) :: (follower, followerPage) :: after) := by simp
  have live := (segment_live (listed_chain listed) member).1
  obtain ⟨first, heap, next, last, cleaned, linked, same, released, known, finish, behind⟩ := cleanPage_eq vacant listed
  refine ⟨_, cleaned, ?_⟩
  rintro ⟨items, relisted⟩
  -- The chain of the new list is that of the pages before and behind.
  have kept : Linked heap address next ((follower, followerPage) :: after) finish 0 := linked_congr behind same
  have chain : Chain Node.next heap first (addresses before ++ addresses ((follower, followerPage) :: after)) :=
    (segment_append _ _).mpr ⟨next, linked_segment linked, linked_segment kept⟩
  have order := chain_unique (listed_chain relisted) chain
  obtain ⟨rfl, _, onward, stored, _⟩ := kept
  -- So the follower's back link should be before it, not to the removed page.
  obtain ⟨left, right, rfl, leftEq, rightEq⟩ := map_eq_append_iff.mp order
  obtain ⟨⟨entry, entryPage⟩, others, rfl, entryEq, _⟩ := map_eq_cons_iff.mp rightEq
  obtain rfl : entry = next := entryEq
  obtain ⟨finish', relinked⟩ := relisted
  obtain ⟨back, middle, front, _, _, onward', storedAgain, _⟩ := (linked_append left _).mp relinked
  obtain ⟨_, rfl, _⟩ := Node.mk.inj (some.inj (stored.symm.trans storedAgain))
  cases linked_end front with
  | inl null => exact live null
  | inr inLeft =>
    rw [show addresses left = addresses before from leftEq] at inLeft
    rw [addresses_append] at distinct
    exact (nodup_append.mp distinct).2.2 address inLeft address mem_cons_self rfl

end

end

section

variable {layout} {fresh : Nat}

/-- Storing returns a list whose pages are those of the abstract array, whether
or not the index is within bounds. -/
theorem set_store_eq (faithful : Faithful layout tpa items map) (unused : Fresh tpa fresh) (idx : Nat) (entry : α) :
    ∃ result items', set layout tpa idx (some entry) fresh = some result ∧ Holds result items' ∧
    pagesOf items' = assign layout.entriesPerPage idx (some entry) (pagesOf items) := by
  have stays := @kept_some α _ idx layout.entriesPerPage_pos
  obtain ⟨before, after, smaller, greater, shape⟩ := items_split (layout.start idx) faithful.paged.sorted
  rcases shape with rfl | ⟨address, page, start, rfl⟩
  · obtain ⟨first, heap, inserted, listed, known⟩ :=
      insertPage_eq unused faithful.listed faithful.live.ge smaller greater
    have held : Holds ⟨first, heap, tpa.live + 1⟩
        (before ++ (fresh, blank (layout.start idx)) :: after) := by
      refine ⟨listed, ?_, ?_⟩
      · intro target node stored
        refine mem_addresses_around.mpr ((known target node stored).imp_right ?_)
        rintro ⟨old, storedBefore⟩
        exact faithful.only target old storedBefore
      · simp only [faithful.live, length_append, length_cons, add_assoc]
    obtain ⟨result, put, heldNow⟩ := putEntry_eq held rfl (some entry)
    refine ⟨result, _, ?_, heldNow, ?_⟩
    · simp only [set, walk_gap smaller faithful greater, inserted]
      exact put
    · rw [pagesOf_append, pagesOf_append, pagesOf_cons, assign_gap smaller greater, stays, singleton_append]
  · obtain ⟨result, put, held⟩ := putEntry_eq faithful.toHolds start (some entry)
    obtain ⟨last, linked⟩ := faithful.listed
    have live := (linked_live linked (mem_append_right before mem_cons_self)).1
    refine ⟨result, _, ?_, held, ?_⟩
    · simp only [set, walk_here smaller faithful start, bind_eq_bind, bind_some, if_neg live]
      exact put
    · rw [pagesOf_append, pagesOf_cons, pagesOf_append, pagesOf_cons, assign_here smaller start, stays, singleton_append]

/-- An array whose pages are those of the abstract array after an index was filled or cleared. -/
theorem Faithful.assigned (faithful : Faithful layout tpa items map) {result : Tpa α} {left : List (Nat × Page α)}
    {entry : Option α} (below : entry ≠ none → layout.start idx + layout.entriesPerPage < 2 ^ 64)
    (held : Holds result left) (pages : pagesOf left = assign layout.entriesPerPage idx entry (pagesOf items)) :
    Faithful layout result left (update map idx entry) := by
  refine ⟨held, ?_, fun other => ?_, fun other present => ?_⟩
  · rw [pages]
    exact paged_assign faithful.paged entry
  · rw [pages, lookup_assign layout.entriesPerPage_pos faithful.paged.sorted, funext faithful.reads]
  · by_cases here : other = idx
    · exact here ▸ below (by simpa [here] using present)
    · exact faithful.short other (by simpa [here] using present)

/-- Storing an index whose page reaches `2 ^ 64` cannot be read back: the end of
the page wraps below its start. -/
theorem set_store_lost (faithful : Faithful layout tpa items map) (unused : Fresh tpa fresh) (entry : α)
    (word : idx < 2 ^ 64) (beyond : 2 ^ 64 ≤ layout.start idx + layout.entriesPerPage) :
    ∃ result, set layout tpa idx (some entry) fresh = some result ∧ get layout result idx = some none := by
  obtain ⟨result, items', done, held, pages⟩ := set_store_eq faithful unused idx entry
  obtain ⟨last, linked⟩ := held.listed
  refine ⟨result, done, ?_⟩
  have sorted : Sorted (pagesOf items') := pages ▸ (paged_assign faithful.paged (some entry)).sorted
  have wraps : u64 (layout.start idx + layout.entriesPerPage) ≤ idx := by
    have start : layout.start idx ≤ idx := pageStart_le layout.entriesPerPage idx
    have small : layout.entriesPerPage < 2 ^ 64 :=
      lt_of_le_of_lt (Nat.div_le_self _ _) (lt_of_le_of_lt (Nat.sub_le _ _) layout.bounded)
    simp only [u64]
    omega
  have missing : items'.find? (fun item => covers layout idx item.2) = none := by
    refine find?_eq_none.mpr ?_
    intro item member covered
    have assigned : item.2 ∈ assign layout.entriesPerPage idx (some entry) (pagesOf items) := pages ▸ mem_map_of_mem member
    cases assign_starts assigned with
    | inl start =>
      simp only [covers, start, Bool.and_eq_true, decide_eq_true_eq] at covered
      exact absurd wraps covered.2.not_ge
    | inr old =>
      have start := (covers_iff (faithful.paged.aligned _ old) (faithful.below _ old)).mp covered
      have short := faithful.below _ old
      omega
  simp [get, getPageForIdx_eq linked sorted (Nat.lt_succ_of_le held.live.ge), missing]

section

variable (faithful : Faithful layout tpa (before ++ (address, page) :: after) map)
include faithful

/-- Clearing empties the page of the index exactly if no other index of the page
is present. -/
theorem emptied_iff (smaller : Below (pagesOf before) (layout.start idx))
    (start : page.startIdx = layout.start idx) :
    (page.put (idx % layout.entriesPerPage) none).vacant layout.entriesPerPage = true ↔
    map idx ≠ none ∧ ∀ other, other ≠ idx →
    other / layout.entriesPerPage = idx / layout.entriesPerPage → map other = none := by
  have positive := layout.entriesPerPage_pos
  have inPage : ∀ other, other / layout.entriesPerPage = idx / layout.entriesPerPage →
      map other = page.slots (other % layout.entriesPerPage) := by
    intro other samePage
    have sameStart : layout.start idx = layout.start other := congrArg (· * layout.entriesPerPage) samePage.symm
    rw [sameStart] at smaller start
    rw [← faithful.reads other, pagesOf_append]
    exact lookup_here smaller start
  rw [vacant_iff]
  constructor
  · intro empty
    constructor
    · -- The page had an entry, and it can only have been this one.
      have occupied := faithful.paged.occupied page (by simp)
      obtain ⟨slot, inside, filled⟩ := not_vacant_iff.mp occupied
      have slotEq : slot = idx % layout.entriesPerPage := by
        by_contra different
        have cleared := empty slot inside
        rw [put_elsewhere page none different] at cleared
        rw [cleared] at filled
        exact absurd filled (by simp)
      rw [inPage idx rfl, ← slotEq]
      exact isSome_iff_ne_none.mp filled
    · intro other different samePage
      have slots : other % layout.entriesPerPage ≠ idx % layout.entriesPerPage := by
        intro sameSlot
        exact different (slot_injective (congrArg (· * layout.entriesPerPage) samePage) sameSlot)
      rw [inPage other samePage, ← put_elsewhere page none slots]
      exact empty _ (Nat.mod_lt _ positive)
  · rintro ⟨_, others⟩ slot inside
    by_cases here : slot = idx % layout.entriesPerPage
    · rw [here, put_here]
    · obtain ⟨sameStart, sameSlot⟩ := pageStart_add (faithful.paged.aligned page (by simp)) inside
      have samePage : (page.startIdx + slot) / layout.entriesPerPage = idx / layout.entriesPerPage := by
        rw [start] at sameStart ⊢
        exact Nat.eq_of_mul_eq_mul_right positive sameStart
      have different : page.startIdx + slot ≠ idx := by
        intro same
        rw [same] at sameSlot
        exact here sameSlot.symm
      have none := others _ different samePage
      rw [inPage _ samePage, sameSlot] at none
      rw [put_elsewhere page _ here]
      exact none

/-- There are pages behind the page of an index exactly if a later page has a
present index. -/
theorem behind_iff (start : page.startIdx = layout.start idx) :
    after ≠ [] ↔ ∃ other, idx / layout.entriesPerPage < other / layout.entriesPerPage ∧ map other ≠ none := by
  obtain ⟨_, smaller, greater⟩ := paged_around (pagesOf_append before _ ▸ faithful.paged)
  have later : ∀ other, idx / layout.entriesPerPage < other / layout.entriesPerPage ↔
      page.startIdx < layout.start other := by
    intro other
    rw [start, Layout.start, Layout.start, pageStart, pageStart, Nat.mul_lt_mul_right layout.entriesPerPage_pos]
  simp only [later]
  constructor
  · intro nonempty
    obtain ⟨item, rest, rfl⟩ := exists_cons_of_ne_nil nonempty
    obtain ⟨other, present, same⟩ := (faithful.page_iff item.2.startIdx).mp ⟨item.2, by simp, rfl⟩
    exact ⟨other, same ▸ greater item.2 mem_cons_self, present⟩
  · rintro ⟨other, above, present⟩ rfl
    obtain ⟨found, member, same⟩ := (faithful.page_iff _).mpr ⟨other, present, rfl⟩
    rw [← same] at above
    rw [pagesOf_append, mem_append] at member
    cases member with
    | inl inBefore => exact lt_asymm above (smaller found inBefore)
    | inr isPage =>
      obtain rfl : found = page := by simpa [pagesOf] using isPage
      exact lt_irrefl _ above

end

/-- Clearing updates the map, unless it empties a page with pages behind it; then
it leaves a broken list. -/
theorem set_clear_cases (faithful : Faithful layout tpa items map) (idx fresh : Nat) :
    (¬ Emptying layout map idx ∧ ∃ result items', set layout tpa idx none fresh = some result ∧
    Faithful layout result items' (update map idx none)) ∨
    (Emptying layout map idx ∧ ∃ result, set layout tpa idx none fresh = some result ∧
    ¬ ∃ items, Listed result.heap result.first items) := by
  obtain ⟨before, after, smaller, greater, shape⟩ := items_split (layout.start idx) faithful.paged.sorted
  rcases shape with rfl | ⟨address, page, start, rfl⟩
  · -- No page: nothing happens, and the map has nothing there.
    have absent : map idx = none := by
      rw [← faithful.reads, pagesOf_append, lookup_gap smaller greater]
    refine .inl ⟨fun emptying => emptying.1.1 absent, tpa, before ++ after, ?_, faithful.assigned nofun faithful.toHolds ?_⟩
    · simp [set, walk_gap smaller faithful greater]
    · rw [pagesOf_append, assign_gap smaller greater]
      simp [kept, Page.put, blank, Page.vacant]
  obtain ⟨cleared, put, held⟩ := putEntry_eq faithful.toHolds start none
  obtain ⟨last, linked⟩ := faithful.listed
  have live := (linked_live linked (mem_append_right before mem_cons_self)).1
  have step : set layout tpa idx none fresh = cleanPage layout cleared address := by
    simp only [set, walk_here smaller faithful start, bind_eq_bind, bind_some, if_neg live, put]
  have pages := @assign_here _ _ _ _ (pagesOf after) _ smaller start none
  cases emptied : (page.put (idx % layout.entriesPerPage) none).vacant layout.entriesPerPage with
  | false =>
    -- The page keeps another entry and stays.
    have notEmptying : ¬ Emptying layout map idx := by
      intro emptying
      rw [(emptied_iff faithful smaller start).mpr emptying.1] at emptied
      exact absurd emptied (by decide)
    obtain ⟨last', linked'⟩ := held.listed
    obtain ⟨_, next, back, stored⟩ := linked_live linked' (mem_append_right before mem_cons_self)
    refine .inl ⟨notEmptying, cleared, _, step.trans (cleanPage_occupied stored emptied), faithful.assigned nofun held ?_⟩
    rw [pagesOf_append, pagesOf_cons, pagesOf_append, pagesOf_cons, pages, kept, emptied]
    rfl
  | true =>
    have alone := (emptied_iff faithful smaller start).mp emptied
    cases after with
    | nil =>
      -- The last page of the list goes.
      have notEmptying : ¬ Emptying layout map idx := by
        intro emptying
        exact (behind_iff faithful start).mpr emptying.2 rfl
      obtain ⟨result, cleaned, heldNow⟩ := cleanPage_last emptied held
      refine .inl ⟨notEmptying, result, before, step.trans cleaned, faithful.assigned nofun heldNow ?_⟩
      rw [pagesOf_append, pagesOf_cons, pages, kept, emptied]
      exact (append_nil _).symm
    | cons item rest =>
      obtain ⟨result, cleaned, broken⟩ := cleanPage_inner emptied held.listed
      exact .inr ⟨⟨alone, (behind_iff faithful start).mp (by simp)⟩, result, step.trans cleaned, broken⟩

/-- One call from a faithful state: an allowed one returns a faithful state of the
updated map, any other returns a state that does not refine it. -/
theorem set_cases (faithful : Faithful layout tpa items map) (unused : Fresh tpa fresh) (op : Op α) :
    (Allowed layout map op ∧ ∃ result items', set layout tpa op.idx op.data fresh = some result ∧
    Faithful layout result items' (update map op.idx op.data)) ∨
    (¬ Allowed layout map op ∧ ∃ result, set layout tpa op.idx op.data fresh = some result ∧
    ¬ Refines layout result (update map op.idx op.data)) := by
  cases op with
  | store idx entry =>
    by_cases below : layout.start idx.val + layout.entriesPerPage < 2 ^ 64
    · obtain ⟨result, items', done, held, pages⟩ := set_store_eq faithful unused idx.val entry
      exact .inl ⟨below, result, items', done, faithful.assigned (fun _ => below) held pages⟩
    · obtain ⟨result, done, lost⟩ := set_store_lost faithful unused entry idx.isLt (Nat.le_of_not_lt below)
      refine .inr ⟨below, result, done, ?_⟩
      intro refines
      have read := refines.reads idx.val idx.isLt
      rw [lost, Op.idx, Op.data] at read
      exact absurd read (by simp)
  | clear idx =>
    cases set_clear_cases faithful idx.val fresh with
    | inl kept => exact .inl kept
    | inr broken =>
      obtain ⟨emptying, result, done, unlisted⟩ := broken
      refine .inr ⟨not_not.mpr emptying, result, done, ?_⟩
      intro refines
      obtain ⟨items', listed, _⟩ := refines.listed
      exact unlisted ⟨items', listed⟩

/-- An allowed call keeps the state faithful. -/
theorem set_allowed (faithful : Faithful layout tpa items map) (unused : Fresh tpa fresh) {op : Op α}
    (allowed : Allowed layout map op) : ∃ result items', set layout tpa op.idx op.data fresh = some result ∧
    Faithful layout result items' (update map op.idx op.data) :=
  (set_cases faithful unused op).elim And.right (fun broken => absurd allowed broken.1)

end

section

variable {layout}

theorem contents_append (ops : List (Op α)) (op : Op α) :
    contents (ops ++ [op]) = update (contents ops) op.idx op.data := by
  rw [contents, foldl_append]
  rfl

/-- A page is always left for the allocator. -/
theorem exists_fresh {tpa : Tpa α} {items : List (Nat × Page α)} {map : Nat → Option α}
    (faithful : Faithful layout tpa items map) : ∃ page, Fresh tpa page := by
  obtain ⟨page, unlisted⟩ := Infinite.exists_notMem_finset ((0 :: addresses items).toFinset)
  rw [List.mem_toFinset, mem_cons, not_or] at unlisted
  refine ⟨page, unlisted.1, ?_⟩
  cases stored : tpa.heap page with
  | none => rfl
  | some node => exact absurd (faithful.only page node stored) unlisted.2

/-- Every call of a sequence is allowed by the map that the calls before it
describe. -/
def AllAllowed (layout : Layout) (ops : List (Op α)) : Prop :=
  ∀ earlier op, earlier ++ [op] <+: ops → Allowed layout (contents earlier) op

theorem AllAllowed.earlier {ops earlier : List (Op α)} (allowed : AllAllowed layout ops) (isPrefix : earlier <+: ops) :
    AllAllowed layout earlier := fun first op shorter => allowed first op (shorter.trans isPrefix)

/-- The run lemma: as long as all calls are allowed, every state is faithful. -/
theorem run_faithful {ops : List (Op α)} {tpa : Tpa α} (run : Run layout ops tpa)
    (allowed : AllAllowed layout ops) : ∃ items, Faithful layout tpa items (contents ops) := by
  induction run with
  | created => exact ⟨[], faithful_create layout⟩
  | @step ops tpa after op page run fresh done ih =>
    obtain ⟨items, faithful⟩ := ih (allowed.earlier (prefix_append ..))
    obtain ⟨result, items', returned, faithful'⟩ := set_allowed faithful fresh (allowed ops op prefix_rfl)
    cases done.symm.trans returned
    exact ⟨items', contents_append ops op ▸ faithful'⟩

/-- Allowed calls can be made. -/
theorem exists_run (ops : List (Op α)) (allowed : AllAllowed layout ops) : ∃ tpa, Run layout ops tpa := by
  induction ops using reverseRecOn with
  | nil => exact ⟨create, .created⟩
  | append_singleton ops op ih =>
    have earlier : AllAllowed layout ops := allowed.earlier (prefix_append ..)
    obtain ⟨tpa, run⟩ := ih earlier
    obtain ⟨items, faithful⟩ := run_faithful run earlier
    obtain ⟨page, fresh⟩ := exists_fresh faithful
    obtain ⟨result, _, returned, _⟩ := set_allowed faithful fresh (allowed ops op prefix_rfl)
    exact ⟨result, .step run fresh returned⟩

/-- Every call of every run returns, and leaves an array that refines the map of
the calls so far, if and only if every call is allowed: it stores only indices
whose page ends below `2 ^ 64`, and clears the last entry of a page only while no
later page has one.

Proof: allowed calls keep the state faithful. Conversely, before the first call
that is not allowed the state is faithful, and that call breaks it. -/
theorem tpa_refines_map_iff (layout : Layout) (ops : List (Op α)) :
    (∀ earlier op, earlier ++ [op] <+: ops → ∀ tpa page, Run layout earlier tpa → Fresh tpa page →
      ∃ result, set layout tpa op.idx op.data page = some result ∧ Refines layout result (contents (earlier ++ [op]))) ↔
    AllAllowed layout ops := by
  constructor
  · intro sound
    induction ops using reverseRecOn with
    | nil =>
      intro earlier op isPrefix
      simp at isPrefix
    | append_singleton ops op ih =>
      have before := ih (fun earlier op isPrefix =>
        sound earlier op (isPrefix.trans (prefix_append ..)))
      intro earlier other isPrefix
      rcases prefix_concat_iff.mp isPrefix with whole | shorter
      · obtain ⟨rfl, sameOp⟩ := append_inj' whole rfl
        obtain rfl : other = op := by simpa using sameOp
        obtain ⟨tpa, run⟩ := exists_run earlier before
        obtain ⟨items, faithful⟩ := run_faithful run before
        obtain ⟨page, fresh⟩ := exists_fresh faithful
        obtain ⟨result, returned, refines⟩ := sound earlier other prefix_rfl tpa page run fresh
        cases set_cases faithful fresh other with
        | inl kept => exact kept.1
        | inr broken =>
          obtain ⟨_, result', returned', notRefines⟩ := broken
          cases returned.symm.trans returned'
          rw [contents_append] at refines
          exact absurd refines notRefines
      · exact before earlier other shorter
  · intro allowed earlier op isPrefix tpa page run fresh
    obtain ⟨items, faithful⟩ := run_faithful run (allowed.earlier ((prefix_append ..).trans isPrefix))
    obtain ⟨result, items', returned, faithful'⟩ := set_allowed faithful fresh (allowed earlier op isPrefix)
    refine ⟨result, returned, ?_⟩
    rw [contents_append]
    exact faithful_refines faithful'

/-- Pages with room for two words. -/
def twoWords : Layout := ⟨8, 56, by decide, by decide⟩

/-- Clearing the first of two pages leaves a back link to it, so that clearing the
second one writes to a freed page; and the last index is stored in vain. -/
theorem cleared_page_still_linked : (∃ one two three : Tpa Nat, set twoWords create 0 (some 7) 1 = some one ∧
      set twoWords one 2 (some 8) 2 = some two ∧ set twoWords two 0 none 3 = some three ∧
      ¬ Refines twoWords three (contents [.store 0 7, .store 2 8, .clear 0]) ∧
      set twoWords three 2 none 3 = none) ∧
    ∃ one : Tpa Nat, set twoWords create (2 ^ 64 - 1) (some 7) 1 = some one ∧
      get twoWords one (2 ^ 64 - 1) = some none := by
  refine ⟨⟨_, _, _, rfl, rfl, rfl, ?_, rfl⟩, _, rfl, by decide +kernel⟩
  intro refines
  obtain ⟨items, listed, _⟩ := refines.listed
  exact absurd (listed_first listed) (by decide)

end

end Lfos.ThinArray
