import Mathlib.Data.Set.Card

/-!
# Sparse arrays as sorted pages

An array with few present indices is kept as a list of pages of `size` slots
each. A page starts at a multiple of the page size, the list is sorted by start,
and a page without an entry is not kept. Such a list is a finite partial map:
filling and clearing one index update the map at that index only, and both the
entries and the pages can be counted from the map alone.
-/

namespace Lfos.SparsePages

open List Option Function

universe u
variable {α : Type u}

/-- The slots from `startIdx` on. -/
structure Page (α : Type u) where
  startIdx : Nat
  slots : Nat → Option α

/-- A page without an entry. -/
def blank (startIdx : Nat) : Page α := ⟨startIdx, fun _ => none⟩

/-- Fill or clear one slot. -/
def Page.put (page : Page α) (slot : Nat) (entry : Option α) : Page α :=
  { page with slots := update page.slots slot entry }

@[simp] theorem put_startIdx (page : Page α) (slot : Nat) (entry : Option α) :
    (page.put slot entry).startIdx = page.startIdx := rfl

@[simp] theorem put_here (page : Page α) (slot : Nat) (entry : Option α) :
    (page.put slot entry).slots slot = entry := update_self ..

variable {other : Nat}

theorem put_elsewhere (page : Page α) {slot : Nat} (entry : Option α) (different : other ≠ slot) :
    (page.put slot entry).slots other = page.slots other := update_of_ne different ..

/-- Where the page of an index starts. -/
def pageStart (size idx : Nat) : Nat := idx / size * size

/-- No slot of the page has an entry. -/
def Page.vacant (size : Nat) (page : Page α) : Bool :=
  (range size).all (fun slot => (page.slots slot).isNone)

/-- The entry at an index. -/
def lookup (size idx : Nat) : List (Page α) → Option α
  | [] => none
  | page :: rest =>
    if page.startIdx = pageStart size idx then page.slots (idx % size) else lookup size idx rest

/-- A page is kept if it has an entry. -/
def kept (size : Nat) (page : Page α) : List (Page α) := if page.vacant size then [] else [page]

/-- Fill or clear an index: its page comes with the first entry and goes with the last one. -/
def assign (size idx : Nat) (entry : Option α) : List (Page α) → List (Page α)
  | [] => kept size ((blank (pageStart size idx)).put (idx % size) entry)
  | page :: rest =>
    if page.startIdx = pageStart size idx then kept size (page.put (idx % size) entry) ++ rest
    else if pageStart size idx < page.startIdx then
      kept size ((blank (pageStart size idx)).put (idx % size) entry) ++ page :: rest
    else page :: assign size idx entry rest

/-- All pages start in front of an index. -/
abbrev Below (pages : List (Page α)) (start : Nat) : Prop := ∀ page ∈ pages, page.startIdx < start

/-- All pages start behind an index. -/
abbrev Above (pages : List (Page α)) (start : Nat) : Prop := ∀ page ∈ pages, start < page.startIdx

/-- The pages start one after the other. -/
def Sorted (pages : List (Page α)) : Prop :=
  pages.Pairwise (fun left right => left.startIdx < right.startIdx)

/-- The pages are sorted and aligned, and each has an entry. -/
structure Paged (size : Nat) (pages : List (Page α)) : Prop where
  sorted : Sorted pages
  aligned : ∀ page ∈ pages, size ∣ page.startIdx
  occupied : ∀ page ∈ pages, page.vacant size = false

variable {size idx : Nat} {pages before after : List (Page α)} {page : Page α}

theorem vacant_iff : page.vacant size = true ↔ ∀ slot < size, page.slots slot = none := by
  simp [Page.vacant]

theorem not_vacant_iff : page.vacant size = false ↔ ∃ slot < size, (page.slots slot).isSome = true := by
  simp [Page.vacant, isSome_iff_ne_none]

theorem pageStart_le (size idx : Nat) : pageStart size idx ≤ idx := Nat.div_mul_le_self idx size

theorem pageStart_add_mod (size idx : Nat) : pageStart size idx + idx % size = idx := Nat.div_add_mod' idx size

theorem lt_pageStart_add (positive : 0 < size) (idx : Nat) : idx < pageStart size idx + size := by
  have split := pageStart_add_mod size idx
  have small := Nat.mod_lt idx positive
  omega

theorem pageStart_dvd (size idx : Nat) : size ∣ pageStart size idx := Nat.dvd_mul_left ..

/-- An aligned page contains an index exactly if it starts where the index's
page does. -/
theorem within_iff (positive : 0 < size) (aligned : size ∣ page.startIdx) :
    page.startIdx ≤ idx ∧ idx < page.startIdx + size ↔ page.startIdx = pageStart size idx := by
  obtain ⟨number, start⟩ := aligned
  constructor
  · rintro ⟨lower, upper⟩
    have quotient : idx / size = number := by
      rw [Nat.div_eq_iff positive]
      rw [start, mul_comm] at lower upper
      omega
    rw [pageStart, quotient, start, mul_comm]
  · intro same
    rw [same]
    exact ⟨pageStart_le size idx, lt_pageStart_add positive idx⟩

theorem pageStart_add {start slot : Nat} (aligned : size ∣ start) (inside : slot < size) :
    pageStart size (start + slot) = start ∧ (start + slot) % size = slot := by
  obtain ⟨number, rfl⟩ := aligned
  have positive : 0 < size := Nat.lt_of_le_of_lt (Nat.zero_le slot) inside
  constructor
  · rw [pageStart, Nat.mul_add_div positive, Nat.div_eq_of_lt inside, Nat.add_zero, Nat.mul_comm]
  · rw [Nat.mul_add_mod, Nat.mod_eq_of_lt inside]

/-- Two indices are in one slot only if they are equal. -/
theorem slot_injective {left right : Nat} (samePage : pageStart size left = pageStart size right)
    (sameSlot : left % size = right % size) : left = right := by
  rw [← pageStart_add_mod size left, ← pageStart_add_mod size right, samePage, sameSlot]

/-- A sorted list splits at a start: either a page starts there, or one could be
inserted. -/
theorem sorted_split (start : Nat) (sorted : Sorted pages) : ∃ before after, Below before start ∧ Above after start ∧
    (pages = before ++ after ∨ ∃ page, page.startIdx = start ∧ pages = before ++ page :: after) := by
  induction pages with
  | nil => exact ⟨[], [], nofun, nofun, .inl rfl⟩
  | cons head rest ih =>
    obtain ⟨larger, restSorted⟩ := pairwise_cons.mp sorted
    rcases lt_trichotomy head.startIdx start with below | here | above
    · obtain ⟨before, after, smaller, greater, shape⟩ := ih restSorted
      refine ⟨head :: before, after, forall_mem_cons.mpr ⟨below, smaller⟩, greater, ?_⟩
      rcases shape with rfl | ⟨page, atStart, rfl⟩
      · exact .inl rfl
      · exact .inr ⟨page, atStart, rfl⟩
    · exact ⟨[], rest, nofun, here ▸ larger, .inr ⟨head, here, rfl⟩⟩
    · have past : Above rest start := fun page later => above.trans (larger page later)
      exact ⟨[], head :: rest, nofun, forall_mem_cons.mpr ⟨above, past⟩, .inl rfl⟩

theorem sorted_append (left right : List (Page α)) : Sorted (left ++ right) ↔ Sorted left ∧ Sorted right ∧
    ∀ earlier ∈ left, ∀ later ∈ right, earlier.startIdx < later.startIdx := pairwise_append

/-- Around a page of a sorted list the starts are smaller and larger. -/
theorem sorted_around (sorted : Sorted (before ++ page :: after)) :
    Sorted (before ++ after) ∧ Below before page.startIdx ∧ Above after page.startIdx := by
  obtain ⟨_, tail, across⟩ := (sorted_append _ _).mp sorted
  refine ⟨sorted.sublist ((sublist_cons_self page after).append_left before), ?_, (pairwise_cons.mp tail).1⟩
  intro earlier inBefore
  exact across earlier inBefore page mem_cons_self

/-- A page fits between the pages around its start. -/
theorem sorted_between (sorted : Sorted (before ++ after)) (smaller : Below before page.startIdx)
    (greater : Above after page.startIdx) : Sorted (before ++ page :: after) := by
  obtain ⟨first, second, across⟩ := (sorted_append _ _).mp sorted
  refine (sorted_append _ _).mpr ⟨first, pairwise_cons.mpr ⟨greater, second⟩, ?_⟩
  intro earlier inBefore
  exact forall_mem_cons.mpr ⟨smaller earlier inBefore, across earlier inBefore⟩

/-- Pages behind the page of an index have no entry for it. -/
theorem lookup_greater (greater : Above after (pageStart size idx)) : lookup size idx after = none := by
  induction after with
  | nil => rfl
  | cons head rest ih =>
    have apart := ne_of_gt (greater head mem_cons_self)
    rw [lookup, if_neg apart]
    exact ih (forall_mem_cons.mp greater).2

section

variable (smaller : Below before (pageStart size idx)) (greater : Above after (pageStart size idx))
include smaller

theorem lookup_skip : lookup size idx (before ++ pages) = lookup size idx pages := by
  induction before with
  | nil => rfl
  | cons head rest ih =>
    have apart := ne_of_lt (smaller head mem_cons_self)
    rw [cons_append, lookup, if_neg apart]
    exact ih (forall_mem_cons.mp smaller).2

theorem assign_skip (entry : Option α) : assign size idx entry (before ++ pages) = before ++ assign size idx entry pages := by
  induction before with
  | nil => rfl
  | cons head rest ih =>
    have below := smaller head mem_cons_self
    rw [cons_append, assign, if_neg (ne_of_lt below), if_neg (lt_asymm below),
      ih (forall_mem_cons.mp smaller).2, cons_append]

section

variable (start : page.startIdx = pageStart size idx)
include start

theorem lookup_here : lookup size idx (before ++ page :: after) = page.slots (idx % size) := by
  rw [lookup_skip smaller, lookup, if_pos start]

theorem assign_here (entry : Option α) : assign size idx entry (before ++ page :: after) =
    before ++ (kept size (page.put (idx % size) entry) ++ after) := by
  rw [assign_skip smaller, assign, if_pos start]

end

include greater

theorem lookup_gap : lookup size idx (before ++ after) = none := by
  rw [lookup_skip smaller, lookup_greater greater]

theorem assign_gap (entry : Option α) : assign size idx entry (before ++ after) =
    before ++ (kept size ((blank (pageStart size idx)).put (idx % size) entry) ++ after) := by
  rw [assign_skip smaller]
  cases after with
  | nil => rw [assign, append_nil]
  | cons head rest =>
    have above := greater head mem_cons_self
    rw [assign, if_neg (ne_of_gt above), if_pos above]

end

/-- Looking up an index in two lists that differ in one page. -/
theorem lookup_replace {replaced : Page α} (start : replaced.startIdx = page.startIdx)
    (same : page.startIdx = pageStart size other → replaced.slots (other % size) = page.slots (other % size)) :
    lookup size other (before ++ replaced :: after) = lookup size other (before ++ page :: after) := by
  induction before with
  | nil =>
    simp only [nil_append, lookup, start]
    split
    · next here => exact same here
    · rfl
  | cons head rest ih =>
    simp only [cons_append, lookup, ih]

/-- A page that does not answer for an index can be dropped. -/
theorem lookup_drop (sorted : Sorted (before ++ page :: after))
    (silent : page.startIdx = pageStart size other → page.slots (other % size) = none) :
    lookup size other (before ++ page :: after) = lookup size other (before ++ after) := by
  by_cases here : page.startIdx = pageStart size other
  · obtain ⟨_, smaller, greater⟩ := sorted_around sorted
    rw [here] at smaller greater
    rw [lookup_here smaller here, lookup_gap smaller greater, silent here]
  · clear sorted
    induction before with
    | nil => rw [nil_append, lookup, if_neg here, nil_append]
    | cons head rest ih =>
      simp only [cons_append, lookup, ih]

/-- Changing a slot of its page updates the map at one index. -/
theorem lookup_put (smaller : Below before (pageStart size idx)) (here : page.startIdx = pageStart size idx) (value : Option α) (other : Nat) :
    lookup size other (before ++ page.put (idx % size) value :: after) =
    update (fun index => lookup size index (before ++ page :: after)) idx value other := by
  by_cases same : other = idx
  · subst same
    rw [update_self, lookup_here smaller ((put_startIdx ..).trans here), put_here]
  · rw [update_of_ne same]
    refine lookup_replace rfl ?_
    intro start
    refine put_elsewhere page value ?_
    intro sameSlot
    exact same (slot_injective (start.symm.trans here) sameSlot)

/-- A page that is not kept answers for no index. -/
theorem lookup_kept (positive : 0 < size) (sorted : Sorted (before ++ page :: after)) (other : Nat) :
    lookup size other (before ++ (kept size page ++ after)) = lookup size other (before ++ page :: after) := by
  rw [kept]
  split
  · next vacant =>
    refine (lookup_drop sorted ?_).symm
    intro _
    exact vacant_iff.mp vacant _ (Nat.mod_lt _ positive)
  · rfl

/-- Filling or clearing an index updates the map there. -/
theorem lookup_assign (positive : 0 < size) (sorted : Sorted pages) (entry : Option α) (other : Nat) :
    lookup size other (assign size idx entry pages) =
    update (fun index => lookup size index pages) idx entry other := by
  obtain ⟨before, after, smaller, greater, shape⟩ := sorted_split (pageStart size idx) sorted
  rcases shape with rfl | ⟨page, here, rfl⟩
  · -- a blank page answers for no index
    have silent (index : Nat) : lookup size index (before ++ blank (pageStart size idx) :: after) =
        lookup size index (before ++ after) :=
      lookup_drop (sorted_between sorted smaller greater) (fun _ => rfl)
    rw [assign_gap smaller greater, lookup_kept positive (sorted_between sorted smaller greater), lookup_put smaller rfl]
    simp only [silent]
  · obtain ⟨rest, earlier, later⟩ := sorted_around sorted
    have between : Sorted (before ++ page.put (idx % size) entry :: after) := sorted_between rest earlier later
    rw [assign_here smaller here, lookup_kept positive between, lookup_put smaller here]

/-- Taking a page out keeps the others paged. -/
theorem paged_around (paged : Paged size (before ++ page :: after)) :
    Paged size (before ++ after) ∧ Below before page.startIdx ∧ Above after page.startIdx := by
  obtain ⟨sorted, smaller, greater⟩ := sorted_around paged.sorted
  have kept := ((sublist_cons_self page after).append_left before).subset
  exact ⟨⟨sorted, fun other member => paged.aligned other (kept member),
    fun other member => paged.occupied other (kept member)⟩, smaller, greater⟩

theorem paged_cons (paged : Paged size (page :: after)) : Paged size after ∧ Above after page.startIdx := by
  have split : Paged size ([] ++ page :: after) := paged
  obtain ⟨rest, _, greater⟩ := paged_around split
  exact ⟨rest, greater⟩

/-- Putting an aligned page between the others, if it has an entry, keeps them paged. -/
theorem paged_kept (paged : Paged size (before ++ after)) (aligned : size ∣ page.startIdx)
    (smaller : Below before page.startIdx) (greater : Above after page.startIdx) :
    Paged size (before ++ (kept size page ++ after)) := by
  rw [kept]
  split
  · exact paged
  · next occupied =>
    have known {property : Page α → Prop} (here : property page) (old : ∀ other ∈ before ++ after, property other) :
        ∀ other ∈ before ++ page :: after, property other := by
      obtain ⟨early, late⟩ := forall_mem_append.mp old
      exact forall_mem_append.mpr ⟨early, forall_mem_cons.mpr ⟨here, late⟩⟩
    exact ⟨sorted_between paged.sorted smaller greater, known aligned paged.aligned,
      known (Bool.not_eq_true _ ▸ occupied) paged.occupied⟩

theorem paged_assign (paged : Paged size pages) (entry : Option α) : Paged size (assign size idx entry pages) := by
  obtain ⟨before, after, smaller, greater, shape⟩ := sorted_split (pageStart size idx) paged.sorted
  rcases shape with rfl | ⟨page, here, rfl⟩
  · rw [assign_gap smaller greater]
    exact paged_kept paged (pageStart_dvd size idx) smaller greater
  · obtain ⟨rest, earlier, later⟩ := paged_around paged
    rw [assign_here smaller here]
    exact paged_kept rest (paged.aligned page (mem_append_right before mem_cons_self)) earlier later

theorem kept_some (positive : 0 < size) (page : Page α) (entry : α) :
    kept size (page.put (idx % size) (some entry)) = [page.put (idx % size) (some entry)] := by
  rw [kept, not_vacant_iff.mpr ⟨idx % size, Nat.mod_lt idx positive, by simp⟩]
  rfl

theorem mem_kept {made : Page α} (member : page ∈ kept size made) : page = made := by
  rw [kept] at member
  split at member
  · exact nomatch member
  · exact mem_singleton.mp member

/-- A page starts like the page of the index, or was there before. -/
theorem assign_starts {entry : Option α} (member : page ∈ assign size idx entry pages) :
    page.startIdx = pageStart size idx ∨ page ∈ pages := by
  have new : (blank (pageStart size idx) : Page α).startIdx = pageStart size idx := rfl
  induction pages with
  | nil => exact .inl (mem_kept member ▸ rfl)
  | cons head rest ih =>
    rw [assign] at member
    grind [mem_kept, put_startIdx]

/-- The present indices of a page, in order. -/
def Page.indices (size : Nat) (page : Page α) : List Nat :=
  ((range size).filter (fun slot => (page.slots slot).isSome)).map (page.startIdx + ·)

/-- The present indices, in order. -/
def indices (size : Nat) (pages : List (Page α)) : List Nat := pages.flatMap (Page.indices size)

section

variable (positive : 0 < size)
include positive

theorem mem_page_indices (aligned : size ∣ page.startIdx) : idx ∈ page.indices size ↔
    page.startIdx = pageStart size idx ∧ (page.slots (idx % size)).isSome = true := by
  simp only [Page.indices, List.mem_map, mem_filter, mem_range]
  constructor
  · rintro ⟨slot, ⟨inside, some⟩, rfl⟩
    obtain ⟨start, same⟩ := pageStart_add aligned inside
    exact ⟨start.symm, same.symm ▸ some⟩
  · rintro ⟨start, some⟩
    exact ⟨idx % size, ⟨Nat.mod_lt idx positive, some⟩, start ▸ pageStart_add_mod size idx⟩

variable (paged : Paged size pages)
include paged

/-- An index is listed if and only if the map has an entry there. -/
theorem mem_indices : idx ∈ indices size pages ↔ (lookup size idx pages).isSome = true := by
  induction pages with
  | nil => simp [indices, lookup]
  | cons head rest ih =>
    obtain ⟨restPaged, greater⟩ := paged_cons paged
    have aligned := paged.aligned head mem_cons_self
    rw [indices, flatMap_cons, mem_append, mem_page_indices positive aligned, lookup]
    rw [← indices, ih restPaged]
    split
    · next here =>
      have silent : lookup size idx rest = none := lookup_greater (fun later member => here ▸ greater later member)
      simp [here, silent]
    · next elsewhere => simp [elsewhere]

theorem indices_nodup : (indices size pages).Nodup := by
  refine nodup_flatMap.mpr ⟨?_, ?_⟩
  · intro page _
    exact (nodup_range.filter _).map (add_right_injective page.startIdx)
  · refine (List.Pairwise.and_mem.mp paged.sorted).imp ?_
    rintro left right ⟨inLeft, inRight, apart⟩ idx first second
    have atLeft := ((mem_page_indices positive (paged.aligned left inLeft)).mp first).1
    have atRight := ((mem_page_indices positive (paged.aligned right inRight)).mp second).1
    exact absurd (atLeft.trans atRight.symm) (ne_of_lt apart)

/-- The list counts the present indices of the map. -/
theorem ncard_present : {idx | lookup size idx pages ≠ none}.ncard = (indices size pages).length := by
  have same : {idx | lookup size idx pages ≠ none} = ((indices size pages).toFinset : Set Nat) := by
    simp [mem_indices positive paged, isSome_iff_ne_none]
  rw [same, Set.ncard_coe_finset, toFinset_card_of_nodup (indices_nodup positive paged)]

/-- Pages start where the page of a present index does. -/
theorem page_iff (start : Nat) : (∃ page ∈ pages, page.startIdx = start) ↔
    ∃ idx, lookup size idx pages ≠ none ∧ pageStart size idx = start := by
  simp only [← isSome_iff_ne_none, ← mem_indices positive paged, indices, mem_flatMap]
  constructor
  · rintro ⟨page, inPages, rfl⟩
    obtain ⟨slot, inside, some⟩ := not_vacant_iff.mp (paged.occupied page inPages)
    obtain ⟨start, same⟩ := pageStart_add (paged.aligned page inPages) inside
    refine ⟨page.startIdx + slot, ⟨page, inPages, ?_⟩, start⟩
    exact (mem_page_indices positive (paged.aligned page inPages)).mpr ⟨start.symm, same.symm ▸ some⟩
  · rintro ⟨idx, ⟨page, inPages, here⟩, rfl⟩
    exact ⟨page, inPages, ((mem_page_indices positive (paged.aligned page inPages)).mp here).1⟩

theorem mem_page_numbers (number : Nat) : number ∈ pages.map (fun page => page.startIdx / size) ↔
    ∃ idx, lookup size idx pages ≠ none ∧ idx / size = number := by
  have numbered (idx : Nat) : pageStart size idx / size = idx / size := Nat.mul_div_cancel _ positive
  rw [List.mem_map]
  constructor
  · rintro ⟨page, inPages, rfl⟩
    obtain ⟨idx, present, start⟩ := (page_iff positive paged _).mp ⟨page, inPages, rfl⟩
    exact ⟨idx, present, by rw [← start, numbered]⟩
  · rintro ⟨idx, present, rfl⟩
    obtain ⟨page, inPages, start⟩ := (page_iff positive paged _).mpr ⟨idx, present, rfl⟩
    exact ⟨page, inPages, by rw [start, numbered]⟩

end

theorem page_numbers_nodup (paged : Paged size pages) : (pages.map (fun page => page.startIdx / size)).Nodup := by
  refine pairwise_map.mpr ((List.Pairwise.and_mem.mp paged.sorted).imp ?_)
  rintro left right ⟨inLeft, inRight, apart⟩ same
  refine ne_of_lt apart ?_
  rw [← Nat.div_mul_cancel (paged.aligned left inLeft), ← Nat.div_mul_cancel (paged.aligned right inRight), same]

/-- The length of the list counts the pages of the present indices. -/
theorem ncard_pages (positive : 0 < size) (paged : Paged size pages) :
    ((fun idx => idx / size) '' {idx | lookup size idx pages ≠ none}).ncard = pages.length := by
  have same : (fun idx => idx / size) '' {idx | lookup size idx pages ≠ none} =
      ((pages.map (fun page => page.startIdx / size)).toFinset : Set Nat) := by
    ext number
    rw [coe_toFinset, Set.mem_ofPred_eq, mem_page_numbers positive paged]
    rfl
  rw [same, Set.ncard_coe_finset, toFinset_card_of_nodup (page_numbers_nodup paged), length_map]

end Lfos.SparsePages
