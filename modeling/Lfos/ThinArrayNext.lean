import Lfos.ThinArrayRefinement

/-!
# Enumerating the thin provisioned array

`next` looks for the first set marker from an index on, so it returns a present index again, and an enumeration
ends at the first index that it visits. An index that lies before the page at which the search starts has no slot
there: the difference wraps around, and the whole page is skipped.
-/

namespace Lfos.ThinArray

open Words LinkedHeap DoublyLinked SparsePages List

variable {α : Type} (layout : Layout)

/-- The first page that does not end before an index, a 64-bit sum. -/
def seekEnd (heap : Heap (Node (Page α))) (cur : Nat) : Nat → Nat → Option Nat
  | 0, _ => none
  | fuel + 1, page =>
    if page = 0 then some 0
    else do
      let node ← heap page
      if u64 (node.value.startIdx + layout.entriesPerPage) < cur then seekEnd heap cur fuel node.next else some page

/-- The first set marker of a page from a slot on. -/
def firstMarker (entriesPerPage : Nat) (page : Page α) (pageIdx : Nat) : Option Nat :=
  (range' pageIdx (entriesPerPage - pageIdx)).find? (fun pageIdx => (page.slots pageIdx).isSome)

/-- A page that there is is searched from its start. -/
def restart (heap : Heap (Node (Page α))) (page cur : Nat) : Option Nat :=
  if page = 0 then some cur else (heap page).map (fun node => node.value.startIdx)

/-- Search the pages, the first one from an index on and the others from their start. -/
def searchPages (heap : Heap (Node (Page α))) : Nat → Nat → Nat → Option Nat
  | 0, _, _ => none
  | fuel + 1, page, cur =>
    if page = 0 then some 0
    else do
      let node ← heap page
      match firstMarker layout.entriesPerPage node.value (u64Sub cur node.value.startIdx) with
      | some pageIdx => some (u64 (node.value.startIdx + pageIdx))
      | none => do
        let cur ← restart heap node.next cur
        searchPages heap fuel node.next cur

def next (tpa : Tpa α) (cur : Nat) : Option Nat := do
  let page ← seekEnd layout tpa.heap cur (tpa.live + 1) tpa.first
  searchPages layout tpa.heap (tpa.live + 1) page cur

/-- What repeating `next` while the result grows visits. -/
inductive Visits (tpa : Tpa α) : Nat → List Nat → Prop where
  | stop {cur found : Nat} (returned : next layout tpa cur = some found) (ends : found ≤ cur) : Visits tpa cur []
  | visit {cur found : Nat} {rest : List Nat} (returned : next layout tpa cur = some found) (grows : cur < found)
      (later : Visits tpa found rest) : Visits tpa cur (found :: rest)

/-- The smallest present index behind an index, or no larger number if there is none. -/
def Following (map : Nat → Option α) (cur found : Nat) : Prop :=
  (cur < found ∧ map found ≠ none ∧ ∀ other, cur < other → map other ≠ none → found ≤ other) ∨
    found ≤ cur ∧ ∀ other, cur < other → map other = none

/-- Every present index behind an index is visited once. -/
def Enumerates (tpa : Tpa α) (map : Nat → Option α) (cur : Nat) : Prop :=
  ∃ visited, Visits layout tpa cur visited ∧ visited.Nodup ∧ ∀ idx, idx ∈ visited ↔ cur < idx ∧ map idx ≠ none

/-- A page with a present index contains an index, or ends at it. -/
def Near (map : Nat → Option α) (cur : Nat) : Prop :=
  ∃ idx, map idx ≠ none ∧ layout.start idx ≤ cur ∧ cur ≤ layout.start idx + layout.entriesPerPage

section

variable {size cur found : Nat} {page : Page α} {rest pages : List (Page α)}

/-- Where the search of some pages begins, if it did not begin before. -/
def firstStart (pages : List (Page α)) (cur : Nat) : Nat := (pages.head?.map Page.startIdx).getD cur

/-- The search, of a list of pages. -/
def search (size : Nat) : List (Page α) → Nat → Nat
  | [], _ => 0
  | page :: rest, cur =>
    match firstMarker size page (u64Sub cur page.startIdx) with
    | some pageIdx => u64 (page.startIdx + pageIdx)
    | none => search size rest (firstStart rest cur)

/-- The first present index from an index on, or zero. -/
def FirstFrom (present : Nat → Prop) (cur found : Nat) : Prop :=
  (present found ∧ cur ≤ found ∧ ∀ other, present other → cur ≤ other → found ≤ other) ∨
    found = 0 ∧ ∀ other, present other → other < cur

theorem mem_page : found ∈ page.indices size ↔
    ∃ slot < size, (page.slots slot).isSome = true ∧ found = page.startIdx + slot := by
  simp only [Page.indices, mem_map, mem_filter, mem_range, and_assoc, eq_comm]

theorem mem_indices_cons : found ∈ indices size (page :: rest) ↔ found ∈ page.indices size ∨ found ∈ indices size rest := by
  rw [indices, flatMap_cons, mem_append, ← indices]

/-- The later pages start behind the end of the first one. -/
theorem page_end_le (paged : Paged size (page :: rest)) (member : found ∈ indices size rest) :
    page.startIdx + size ≤ found := by
  obtain ⟨later, inRest, inLater⟩ := mem_flatMap.mp member
  obtain ⟨slot, _, _, rfl⟩ := mem_page.mp inLater
  have behind := (paged_cons paged).2 later inRest
  obtain ⟨low, first⟩ := paged.aligned page mem_cons_self
  obtain ⟨high, second⟩ := paged.aligned later (mem_cons_of_mem _ inRest)
  rw [first, second] at behind
  have ordered := Nat.mul_le_mul_left size (Nat.succ_le_of_lt (Nat.lt_of_mul_lt_mul_left behind))
  rw [Nat.mul_succ] at ordered
  omega

/-- No present index is before the start of the first page. -/
theorem firstStart_le (paged : Paged size pages) (cur : Nat) (member : found ∈ indices size pages) :
    firstStart pages cur ≤ found := by
  cases pages with
  | nil => exact nomatch member
  | cons page rest =>
    rcases mem_indices_cons.mp member with here | later
    · obtain ⟨slot, _, _, rfl⟩ := mem_page.mp here
      exact Nat.le_add_right ..
    · exact (Nat.le_add_right ..).trans (page_end_le paged later)

/-- From an index in the first page, or at its end, the search finds the first present index. -/
theorem search_first (cur : Nat) (paged : Paged size pages) (below : ∀ page ∈ pages, page.startIdx + size < 2 ^ 64)
    (inside : ∀ page ∈ pages.head?, page.startIdx ≤ cur ∧ cur ≤ page.startIdx + size) :
    FirstFrom (· ∈ indices size pages) cur (search size pages cur) := by
  induction pages generalizing cur with
  | nil => exact .inr ⟨rfl, fun _ member => nomatch member⟩
  | cons page rest ih =>
    obtain ⟨started, within⟩ := inside page rfl
    have small := below page mem_cons_self
    rw [search, u64Sub_of_le started (by omega)]
    split
    · next slot marked =>
      obtain ⟨present, range, earlier⟩ := find?_range'_eq_some.mp marked
      rw [mem_range'_1] at range
      rw [u64_of_lt (by omega)]
      refine .inl ⟨mem_indices_cons.mpr (.inl (mem_page.mpr ⟨slot, by omega, present, rfl⟩)), by omega, ?_⟩
      intro other member reached
      rcases mem_indices_cons.mp member with here | later
      · obtain ⟨other, _, set, rfl⟩ := mem_page.mp here
        by_contra before
        simpa [set] using earlier other (by omega) (by omega)
      · have beyond := page_end_le paged later
        omega
    · next unmarked =>
      have behind := (paged_cons paged).1
      have passed : ∀ other ∈ indices size (page :: rest), cur ≤ other → other ∈ indices size rest := by
        intro other member reached
        refine (mem_indices_cons.mp member).resolve_left (fun here => ?_)
        obtain ⟨slot, _, set, rfl⟩ := mem_page.mp here
        simpa [set] using find?_range'_eq_none.mp unmarked slot (by omega) (by omega)
      rcases ih (firstStart rest cur) behind (forall_mem_cons.mp below).2
        (by cases rest <;> simp [firstStart]) with ⟨member, _, least⟩ | ⟨zero, before⟩
      · refine .inl ⟨mem_indices_cons.mpr (.inr member), within.trans (page_end_le paged member), ?_⟩
        intro other listed reached
        have there := passed other listed reached
        exact least other there (firstStart_le behind cur there)
      · refine .inr ⟨zero, fun other listed => Nat.lt_of_not_le (fun reached => ?_)⟩
        have there := passed other listed reached
        exact not_lt.mpr (firstStart_le behind cur there) (before other there)

/-- From an index before the first page the search skips this page. -/
theorem search_gap (paged : Paged size (page :: rest))
    (below : ∀ other ∈ page :: rest, other.startIdx + size < 2 ^ 64) (before : cur < page.startIdx) :
    search size (page :: rest) cur = 0 ∨ page.startIdx + size ≤ search size (page :: rest) cur := by
  have small := below page mem_cons_self
  have outside : size - (2 ^ 64 - (page.startIdx - cur)) = 0 := by omega
  rw [search, u64Sub_of_lt before (by omega), firstMarker, outside]
  rcases search_first (firstStart rest cur) (paged_cons paged).1
    (forall_mem_cons.mp below).2 (by cases rest <;> simp [firstStart]) with ⟨member, _⟩ | ⟨zero, _⟩
  · exact .inr (page_end_le paged member)
  · exact .inl zero

end

section

variable {layout} {heap : Heap (Node (Page α))} {items : List (Nat × Page α)} {prev address last fuel : Nat}

theorem searchPages_eq (linked : Linked heap prev address items last 0) (enough : items.length < fuel) (cur : Nat) :
    searchPages layout heap fuel address cur = some (search layout.entriesPerPage (pagesOf items) cur) := by
  induction items generalizing prev address cur fuel with
  | nil =>
    obtain ⟨_, rfl⟩ := linked
    cases fuel <;> simp_all [searchPages, search, pagesOf]
  | cons item rest ih =>
    obtain ⟨fuel, rfl⟩ := Nat.exists_eq_add_one.mpr enough.pos
    obtain ⟨here, page⟩ := item
    obtain ⟨rfl, live, next, stored, tail⟩ := linked
    have onward : restart heap next cur = some (firstStart (pagesOf rest) cur) := by
      cases rest with
      | nil => simp [restart, tail.2, firstStart, pagesOf]
      | cons item later =>
        obtain ⟨rfl, nextLive, _, nextStored, _⟩ := tail
        simp [restart, nextLive, nextStored, firstStart]
    have later := ih tail (Nat.lt_of_succ_lt_succ enough) (firstStart (pagesOf rest) cur)
    cases marked : firstMarker layout.entriesPerPage page (u64Sub cur page.startIdx) <;>
      simp [searchPages, search, live, stored, marked, onward, later]

/-- Seeking skips the pages that end before the index. -/
theorem seekEnd_eq (linked : Linked heap prev address items last 0)
    (below : ∀ page ∈ pagesOf items, page.startIdx + layout.entriesPerPage < 2 ^ 64) (enough : items.length < fuel)
    (cur : Nat) : ∃ skipped rest middle before, items = skipped ++ rest ∧
    seekEnd layout heap cur fuel address = some middle ∧ Linked heap before middle rest last 0 ∧
    (∀ page ∈ pagesOf skipped, page.startIdx + layout.entriesPerPage < cur) ∧
    ∀ page ∈ (pagesOf rest).head?, cur ≤ page.startIdx + layout.entriesPerPage := by
  induction items generalizing prev address fuel with
  | nil =>
    obtain ⟨fuel, rfl⟩ := Nat.exists_eq_add_one.mpr enough.pos
    obtain ⟨rfl, rfl⟩ := linked
    exact ⟨[], [], 0, prev, rfl, by simp [seekEnd], ⟨rfl, rfl⟩, by simp [pagesOf], by simp [pagesOf]⟩
  | cons item rest ih =>
    obtain ⟨fuel, rfl⟩ := Nat.exists_eq_add_one.mpr enough.pos
    obtain ⟨here, page⟩ := item
    obtain ⟨rfl, live, next, stored, tail⟩ := id linked
    have small := u64_of_lt (below page mem_cons_self)
    by_cases ended : page.startIdx + layout.entriesPerPage < cur
    · obtain ⟨skipped, behind, middle, before, rfl, sought, linked, early, head⟩ := ih tail
        (forall_mem_cons.mp below).2 (Nat.lt_of_succ_lt_succ enough)
      refine ⟨(address, page) :: skipped, behind, middle, before, rfl, ?_, linked, ?_, head⟩
      · simp [seekEnd, live, stored, small, ended, sought]
      · simpa using ⟨ended, early⟩
    · refine ⟨[], (address, page) :: rest, address, prev, rfl, ?_, linked, by simp [pagesOf], ?_⟩
      · simp [seekEnd, live, stored, small, ended]
      · simpa using ended

end

variable {layout} {tpa : Tpa α} {items : List (Nat × Page α)} {map : Nat → Option α} {cur found : Nat}

section

variable (faithful : Faithful layout tpa items map)
include faithful

theorem present_iff (idx : Nat) : map idx ≠ none ↔ idx ∈ indices layout.entriesPerPage (pagesOf items) := by
  rw [mem_indices layout.entriesPerPage_pos faithful.paged, faithful.reads, Option.isSome_iff_ne_none]

/-- An index is near if one of the pages, which are occupied, contains it or ends at it. -/
theorem near_iff (cur : Nat) : Near layout map cur ↔
    ∃ page ∈ pagesOf items, page.startIdx ≤ cur ∧ cur ≤ page.startIdx + layout.entriesPerPage := by
  constructor
  · rintro ⟨idx, present, inside⟩
    obtain ⟨page, member, start⟩ := (faithful.page_iff _).mpr ⟨idx, present, rfl⟩
    exact ⟨page, member, by rwa [start]⟩
  · rintro ⟨page, member, inside⟩
    obtain ⟨idx, present, start⟩ := (faithful.page_iff _).mp ⟨page, member, rfl⟩
    exact ⟨idx, present, by rwa [start]⟩

/-- What `next` returns for a map: the first present index from the index on, or an index behind a present one. -/
theorem next_cases (cur : Nat) : ∃ found, next layout tpa cur = some found ∧
    ((Near layout map cur ∨ ∀ other, map other ≠ none → other < cur) ∧ FirstFrom (map · ≠ none) cur found ∨
    ¬Near layout map cur ∧ ∃ other, map other ≠ none ∧ cur < other ∧ (found = 0 ∨ other < found)) := by
  have present := present_iff faithful
  have near := near_iff faithful cur
  obtain ⟨last, linked⟩ := faithful.listed
  have enough : items.length < tpa.live + 1 := Nat.lt_succ_of_le faithful.live.ge
  obtain ⟨skipped, rest, middle, before, rfl, sought, behind, early, head⟩ :=
    seekEnd_eq linked faithful.below enough cur
  rw [length_append] at enough
  rw [pagesOf_append] at near present
  obtain ⟨sorted, aligned, occupied⟩ := pagesOf_append skipped rest ▸ faithful.paged
  have below := pagesOf_append skipped rest ▸ faithful.below
  have paged : Paged layout.entriesPerPage (pagesOf rest) := ⟨((sorted_append _ _).mp sorted).2.1,
    (forall_mem_append.mp aligned).2,
    (forall_mem_append.mp occupied).2⟩
  refine ⟨_, by rw [next, sought]; exact searchPages_eq behind (by omega) cur, ?_⟩
  -- The skipped pages end before the index.
  have later : ∀ other, map other ≠ none → cur ≤ other → other ∈ indices layout.entriesPerPage (pagesOf rest) := by
    intro other held reached
    rw [present, indices, flatMap_append, mem_append] at held
    refine held.resolve_left (fun passed => ?_)
    obtain ⟨page, inSkipped, listed⟩ := mem_flatMap.mp passed
    obtain ⟨slot, within, _, rfl⟩ := mem_page.mp listed
    have ended := early page inSkipped
    omega
  have held : ∀ other ∈ indices layout.entriesPerPage (pagesOf rest), map other ≠ none := by
    intro other member
    rw [present, indices, flatMap_append]
    exact mem_append_right _ member
  by_cases inside : ∀ page ∈ (pagesOf rest).head?, page.startIdx ≤ cur
  · left
    have first := search_first cur paged (forall_mem_append.mp below).2
      (fun page isHead => ⟨inside page isHead, head page isHead⟩)
    constructor
    · rw [near]
      cases shape : pagesOf rest with
      | nil =>
        exact .inr (fun other present => Nat.lt_of_not_le (fun reached => not_mem_nil (shape ▸ later other present reached)))
      | cons page more =>
        rw [shape] at inside head
        exact .inl ⟨page, by simp, inside page rfl, head page rfl⟩
    · rcases first with ⟨member, reached, least⟩ | ⟨zero, before⟩
      · exact .inl ⟨held _ member, reached, fun other present reached => least other (later other present reached) reached⟩
      · exact .inr ⟨zero, fun other present => Nat.lt_of_not_le (fun reached =>
          not_lt.mpr reached (before other (later other present reached)))⟩
  · right
    cases shape : pagesOf rest with
    | nil => simp [shape] at inside
    | cons page more =>
      rw [shape] at inside paged below held near
      have ahead : cur < page.startIdx := by simpa using inside
      have far := search_gap paged (forall_mem_append.mp below).2 ahead
      obtain ⟨slot, within, set⟩ := not_vacant_iff.mp (paged.occupied page mem_cons_self)
      have listed := mem_page.mpr ⟨slot, within, set, rfl⟩
      refine ⟨?_, page.startIdx + slot, held _ (mem_indices_cons.mpr (.inl listed)), by omega, by omega⟩
      rw [near]
      rintro ⟨other, member, started, reached⟩
      rcases mem_append.mp member with inSkipped | inRest
      · exact not_lt.mpr reached (early other inSkipped)
      · rcases mem_cons.mp inRest with rfl | inMore
        · omega
        · exact lt_asymm ((paged_cons paged).2 other inMore) (by omega)

/-- A present index is its own next one. -/
theorem next_present (held : map cur ≠ none) : next layout tpa cur = some cur := by
  obtain ⟨found, returned, ⟨_, first⟩ | ⟨far, _⟩⟩ := next_cases faithful cur
  · rcases first with ⟨_, reached, least⟩ | ⟨_, before⟩
    · rw [returned, le_antisymm (least cur held (le_refl cur)) reached]
    · exact absurd (before cur held) (lt_irrefl cur)
  · exact absurd ⟨cur, held, pageStart_le .., (lt_pageStart_add layout.entriesPerPage_pos cur).le⟩ far

/-- The next index is right if there is none, or for an absent index that is near to a page. -/
theorem following_iff (returned : next layout tpa cur = some found) : Following map cur found ↔
    (∀ other, cur < other → map other = none) ∨ map cur = none ∧ Near layout map cur := by
  obtain ⟨same, again, answer⟩ := next_cases faithful cur
  cases returned.symm.trans again
  constructor
  · rintro (⟨grows, held, least⟩ | ⟨_, none⟩)
    · right
      rcases answer with ⟨near, _⟩ | ⟨_, other, present, later, missed⟩
      · refine ⟨by_contra (fun here => ?_), near.resolve_right (fun before => ?_)⟩
        · cases returned.symm.trans (next_present faithful here)
          exact Nat.lt_irrefl _ grows
        · exact Nat.lt_asymm grows (before found held)
      · have reached := least other later present
        omega
    · exact .inl none
  · intro condition
    rcases answer with ⟨_, first⟩ | ⟨far, other, present, later, _⟩
    · rcases first with ⟨held, reached, least⟩ | ⟨rfl, before⟩
      · by_cases here : found = cur
        · rcases condition with none | ⟨absent, _⟩
          · exact .inr ⟨here.le, none⟩
          · exact absurd (here ▸ absent) held
        · exact .inl ⟨by omega, held, fun other later present => least other present later.le⟩
      · exact .inr ⟨Nat.zero_le cur, fun other later => not_not.mp (fun held => Nat.lt_asymm later (before other held))⟩
    · rcases condition with none | ⟨_, near⟩
      · exact absurd (none other later) present
      · exact absurd near far

end

/-- `next` returns the following index exactly if there is none, or if the index is absent and a page with present
indices contains it or ends at it. Repeating it visits all later indices exactly if moreover there is at most one. -/
theorem next_enumerates_iff {ops : List (Op α)} (allowed : AllAllowed layout ops) (run : Run layout ops tpa) (cur : Nat) :
    ((∃ found, next layout tpa cur = some found ∧ Following (contents ops) cur found) ↔
      (∀ other, cur < other → contents ops other = none) ∨ contents ops cur = none ∧ Near layout (contents ops) cur) ∧
    (Enumerates layout tpa (contents ops) cur ↔
      (∀ other, cur < other → contents ops other = none) ∨ (contents ops cur = none ∧ Near layout (contents ops) cur) ∧
        ∃ only, ∀ other, cur < other → contents ops other ≠ none → other = only) := by
  obtain ⟨items, faithful⟩ := run_faithful run allowed
  obtain ⟨found, returned, _⟩ := next_cases faithful cur
  have right := following_iff faithful returned
  refine ⟨?_, ?_, ?_⟩
  · rw [← right]
    exact ⟨fun ⟨_, again, following⟩ => Option.some.inj (again.symm.trans returned) ▸ following,
      fun following => ⟨found, returned, following⟩⟩
  · rintro ⟨visited, visits, _, members⟩
    cases visits with
    | stop _ _ => exact .inl (fun other later => not_not.mp (fun held => nomatch (members other).mpr ⟨later, held⟩))
    | @visit _ _ rest again grows more =>
      cases returned.symm.trans again
      have held := ((members found).mp mem_cons_self).2
      obtain rfl : rest = [] := by
        cases more with
        | stop _ _ => rfl
        | visit stays further _ =>
          cases stays.symm.trans (next_present faithful held)
          exact absurd further (lt_irrefl _)
      have only : ∀ other, cur < other → contents ops other ≠ none → other = found := fun other later held =>
        mem_singleton.mp ((members other).mpr ⟨later, held⟩)
      have condition := right.mp (.inl ⟨grows, held, fun other later held => (only other later held).ge⟩)
      exact condition.imp_right (fun absent => ⟨absent, found, only⟩)
  · intro condition
    rcases right.mpr (condition.imp_right And.left) with ⟨grows, held, _⟩ | ⟨ends, none⟩
    · obtain ⟨only, unique⟩ := (condition.resolve_left (fun none => held (none found grows))).2
      refine ⟨[found], .visit returned grows (.stop (next_present faithful held) (le_refl _)), nodup_singleton _, ?_⟩
      intro idx
      rw [mem_singleton]
      constructor
      · rintro rfl
        exact ⟨grows, held⟩
      · rintro ⟨later, present⟩
        rw [unique idx later present, unique found grows held]
    · refine ⟨[], .stop returned ends, nodup_nil, fun idx => ?_⟩
      simpa using none idx

/-- Behind an absent index of a page the only present one is found. -/
theorem next_enumerates_iff_single : ∃ tpa : Tpa Nat, Run twoWords [.store 1 7] tpa ∧
    Enumerates twoWords tpa (contents [.store 1 7]) 0 := by
  have allowed : AllAllowed twoWords [Op.store 1 7] := by
    intro earlier op isPrefix
    obtain ⟨rfl, rfl⟩ : earlier = [] ∧ op = .store 1 7 := by
      rcases prefix_cons_iff.mp isPrefix with empty | ⟨rest, shape, short⟩
      · simp at empty
      · simpa [prefix_nil.mp short, append_eq_singleton_iff] using shape
    show 0 + 2 < 2 ^ 64
    decide
  have run : Run twoWords [.store (1 : Fin (2 ^ 64)) 7] _ :=
    .step .created (show Fresh (create : Tpa Nat) 1 from ⟨by decide, rfl⟩) rfl
  refine ⟨_, run, (next_enumerates_iff allowed run 0).2.mpr (.inr ⟨⟨rfl, 1, by decide, by decide, by decide⟩, 1, ?_⟩)⟩
  intro other _ held
  by_contra different
  exact held (by simpa [contents, Op.idx] using Function.update_of_ne different ..)

/-- A present index is returned again, and the page behind a gap is skipped. -/
theorem next_skips : ∃ tpa : Tpa Nat, Run twoWords [.store 2 7, .store 4 8] tpa ∧
    next twoWords tpa 2 = some 2 ∧ next twoWords tpa 0 = some 4 := by
  have first : Run twoWords [.store (2 : Fin (2 ^ 64)) 7] _ :=
    .step .created (show Fresh (create : Tpa Nat) 1 from ⟨by decide, rfl⟩) rfl
  refine ⟨_, .step first (show Fresh _ 2 from ⟨by decide, rfl⟩) rfl, ?_⟩
  decide +kernel

end Lfos.ThinArray
