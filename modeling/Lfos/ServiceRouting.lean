import Lfos.ServiceDiscovery

/-!
# Routing through the service list

The entries that were appended form the chain from `head`; each is the first
entry of its key. A second UUID of a key stands in front of that entry, outside
the chain, and only its shortcut reaches it. Registrations keep this picture
exactly as long as no key sees a UUID larger than its current shortcut and no
third UUID. The first registration outside the condition either follows the
missing back link or detaches the entry that was in front, so the condition is
also necessary.
-/

namespace Lfos.ServiceDiscovery

open LinkedHeap List Function

section

variable (history : List (Uuid × Nat))
include history

theorem queuesFor_append_same (uuid : Uuid) (queue : Nat) :
    queuesFor (history ++ [(uuid, queue)]) uuid = queuesFor history uuid ++ [queue] := by
  simp [queuesFor]

variable {uuid other : Uuid}

theorem queuesFor_append_other (queue : Nat) (different : other ≠ uuid) :
    queuesFor (history ++ [(uuid, queue)]) other = queuesFor history other := by
  simp [queuesFor, Ne.symm different]

theorem queuesFor_eq_nil_iff (uuid : Uuid) : queuesFor history uuid = [] ↔ uuid ∉ registered history := by
  simp only [queuesFor, registered, map_eq_nil_iff, filter_eq_nil_iff, decide_eq_true_eq, mem_map, not_exists, not_and]

theorem registered_append (uuid : Uuid) (queue : Nat) :
    registered (history ++ [(uuid, queue)]) = registered history ++ [uuid] := by
  simp [registered]

end

theorem mem_registered_append {history : List (Uuid × Nat)} {queue : Nat} :
    other ∈ registered (history ++ [(uuid, queue)]) ↔ other ∈ registered history ∨ other = uuid := by
  simp [registered_append]

section

variable {heap : Heap SdEntry} {uuid : Uuid} {start : Nat} {addresses : List Nat} {fuel : Nat}

section

variable (chain : Chain SdEntry.next heap start addresses) (enough : addresses.length < fuel)
include chain enough

/-- The search along a chain ends at the first entry of the UUID, or at null. -/
theorem findEntry_eq : findEntry heap uuid fuel start =
    some ((addresses.find? (fun address => (heap address).any (fun cell => cell.uuid = uuid))).getD 0) := by
  induction addresses generalizing start fuel with
  | nil =>
    obtain rfl : start = 0 := chain
    obtain ⟨fuel, rfl⟩ := Nat.exists_eq_add_one.mpr (Nat.zero_lt_of_lt enough)
    simp [findEntry]
  | cons address rest ih =>
    obtain ⟨rfl, live, cell, stored, tail⟩ := chain
    obtain ⟨fuel, rfl⟩ := Nat.exists_eq_add_one.mpr (Nat.zero_lt_of_lt enough)
    have onward := ih tail (Nat.lt_of_succ_lt_succ enough)
    by_cases here : cell.uuid = uuid <;> simp [findEntry, live, stored, uuidCmp_eq_zero_iff, here, onward]

theorem findEntry_missing (absent : ∀ address ∈ addresses, ∀ cell, heap address = some cell → cell.uuid ≠ uuid) :
    findEntry heap uuid fuel start = some 0 := by
  rw [findEntry_eq chain enough, find?_eq_none.mpr]
  · rfl
  · intro address member
    cases stored : heap address with
    | none => simp
    | some cell => simpa using absent address member cell stored

theorem findEntry_found (present : ∃ address ∈ addresses, ∃ cell, heap address = some cell ∧ cell.uuid = uuid) :
    ∃ address cell, findEntry heap uuid fuel start = some address ∧ address ≠ 0 ∧
    heap address = some cell ∧ cell.uuid = uuid := by
  obtain ⟨address, member, cell, stored, same⟩ := present
  rw [findEntry_eq chain enough]
  cases found : addresses.find? (fun address => (heap address).any (fun cell => cell.uuid = uuid)) with
  | none => exact absurd (find?_eq_none.mp found address member) (by simp [stored, same])
  | some target =>
    obtain ⟨live, entry, held⟩ := segment_live chain (mem_of_find?_eq_some found)
    exact ⟨target, entry, rfl, live, held, by simpa [held] using find?_some found⟩

end

end

/-- What the entries are for: the UUID of each and its queues. -/
def entries (heap : Heap SdEntry) (address : Nat) : Option (Uuid × List Nat) :=
  (heap address).map (fun cell => (cell.uuid, cell.queues))

theorem entries_of (stored : heap address = some cell) : entries heap address = some (cell.uuid, cell.queues) := by
  rw [entries, stored, Option.map_some]

theorem entries_some (found : entries heap address = some (uuid, queues)) :
    ∃ cell, heap address = some cell ∧ cell.uuid = uuid ∧ cell.queues = queues := by
  simpa [entries] using found

theorem entries_write (heap : Heap SdEntry) (address : Nat) (cell : SdEntry) :
    entries (heap.write address cell) = update (entries heap) address (some (cell.uuid, cell.queues)) := by
  funext target
  by_cases here : target = address
  · subst here
    rw [update_self, entries_of (write_here ..)]
  · rw [update_of_ne here, entries, write_elsewhere heap cell here, entries]

/-- Changing the links of an entry does not concern what it is for. -/
theorem entries_relink {prev next : Nat} (stored : heap address = some ⟨prev, next, uuid, queues⟩) (newPrev newNext : Nat) :
    entries (heap.write address ⟨newPrev, newNext, uuid, queues⟩) = entries heap := by
  rw [entries_write, ← entries_of stored, update_eq_self]

/-- The entries are those of the registered UUIDs, with their queues. -/
structure Recorded (entries : Nat → Option (Uuid × List Nat)) (allocations : Nat) (history : List (Uuid × Nat)) :
    Prop where
  bounded : ∀ address entry, entries address = some entry → 0 < address ∧ address ≤ allocations
  content : ∀ address uuid queues, entries address = some (uuid, queues) →
    queues = queuesFor history uuid ∧ uuid ∈ registered history
  covers : ∀ uuid ∈ registered history, ∃ address queues, entries address = some (uuid, queues)

/-- A registration adds a queue to the only entry of its UUID, or an entry with this queue. -/
theorem Recorded.register {entries : Nat → Option (Uuid × List Nat)} {allocations more : Nat}
    {history : List (Uuid × Nat)} (recorded : Recorded entries allocations history) (uuid : Uuid) (place : Nat)
    (inside : 0 < place ∧ place ≤ more) (grows : allocations ≤ more)
    (own : ∀ address queues, entries address = some (uuid, queues) → address = place)
    (free : ∀ other queues, entries place = some (other, queues) → other = uuid) (queue : Nat) :
    Recorded (update entries place (some (uuid, queuesFor history uuid ++ [queue]))) more
      (history ++ [(uuid, queue)]) where
  bounded address entry found := by
    by_cases here : address = place
    · exact here ▸ inside
    · rw [update_of_ne here] at found
      exact (recorded.bounded address entry found).imp_right (fun bound => le_trans bound grows)
  content address other queues found := by
    by_cases here : address = place
    · rw [here, update_self] at found
      cases found
      exact ⟨(queuesFor_append_same ..).symm, mem_registered_append.mpr (.inr rfl)⟩
    · rw [update_of_ne here] at found
      obtain ⟨rfl, known⟩ := recorded.content address other queues found
      have different : other ≠ uuid := by
        rintro rfl
        exact here (own address _ found)
      exact ⟨(queuesFor_append_other history queue different).symm, mem_registered_append.mpr (.inl known)⟩
  covers other member := by
    by_cases same : other = uuid
    · exact ⟨place, _, by rw [same, update_self]⟩
    · obtain ⟨address, queues, found⟩ := recorded.covers other ((mem_registered_append.mp member).resolve_right same)
      refine ⟨address, queues, (update_of_ne ?_ ..).trans found⟩
      rintro rfl
      exact same (free other queues found)

/-- The entries of a key from its shortcut on: none, one that was appended, or a
smaller one in front of it. -/
inductive Line (heap : Heap SdEntry) (mains : List Nat) : List Nat → Prop where
  | vacant : Line heap mains []
  | single {main next : Nat} {first : Uuid} {queues : List Nat} (inChain : main ∈ mains)
      (stored : heap main = some ⟨0, next, first, queues⟩) : Line heap mains [main]
  | double {main front next : Nat} {first second : Uuid} {queues others : List Nat} (inChain : main ∈ mains)
      (offChain : front ∉ mains) (stored : heap main = some ⟨front, next, first, queues⟩)
      (inFront : heap front = some ⟨0, main, second, others⟩) (ordered : 0 < uuidCmp first second) :
      Line heap mains [front, main]

/-- An entry keeps its UUID and its links, but for the forward link if it is chained. -/
def Kept (mains : List Nat) (heap after : Heap SdEntry) (address : Nat) : Prop :=
  ∀ cell, heap address = some cell → ∃ next queues, after address = some ⟨cell.prev, next, cell.uuid, queues⟩ ∧
    (address ∉ mains → next = cell.next)

section

variable {mains : List Nat} {heap after : Heap SdEntry}

theorem kept_refl (target : Nat) : Kept mains heap heap target := fun cell stored => ⟨cell.next, cell.queues, stored, fun _ => rfl⟩

theorem Kept.write {target : Nat} (kept : Kept mains heap after target) (same : target = address → ∀ old,
    heap target = some old → cell.prev = old.prev ∧ cell.uuid = old.uuid ∧ (target ∉ mains → cell.next = old.next)) :
    Kept mains heap (after.write address cell) target := by
  intro old stored
  by_cases here : target = address
  · subst here
    obtain ⟨prev, uuid, next⟩ := same rfl old stored
    exact ⟨cell.next, cell.queues, by rw [write_here, ← prev, ← uuid], next⟩
  · rw [write_elsewhere after cell here]
    exact kept old stored

theorem Line.frame {mains' addresses : List Nat} (line : Line heap mains addresses)
    (kept : ∀ address ∈ addresses, Kept mains heap after address)
    (chained : ∀ address ∈ addresses, (address ∈ mains' ↔ address ∈ mains)) : Line after mains' addresses := by
  cases line with
  | vacant => exact .vacant
  | single inChain stored =>
    obtain ⟨next, queues, now, _⟩ := kept _ mem_cons_self _ stored
    exact .single ((chained _ mem_cons_self).mpr inChain) now
  | double inChain offChain stored inFront ordered =>
    obtain ⟨next, queues, now, _⟩ := kept _ (by simp) _ stored
    obtain ⟨onward, others, frontNow, same⟩ := kept _ mem_cons_self _ inFront
    rw [same offChain] at frontNow
    exact .double ((chained _ (by simp)).mpr inChain) (mt (chained _ mem_cons_self).mp offChain) now frontNow ordered

end

/-- The invariant of the service list after a history of registrations. -/
structure Tidy (sd : Sd) (mains : List Nat) (lines : UInt8 → List Nat) (history : List (Uuid × Nat)) : Prop where
  chain : Chain SdEntry.next sd.heap sd.head mains
  tail : sd.tail = mains.getLastD 0
  recorded : Recorded (entries sd.heap) sd.allocations history
  shortcut : ∀ key, sd.entryShortcut key = (lines key).headD 0
  keyed : ∀ key address, address ∈ lines key ↔
    ∃ uuid queues, entries sd.heap address = some (uuid, queues) ∧ uuidKey uuid = key
  lined : ∀ key, Line sd.heap mains (lines key)

theorem tidy_initial : Tidy initSd [] (fun _ => []) [] where
  chain := rfl
  tail := rfl
  recorded := ⟨nofun, nofun, nofun⟩
  shortcut _ := rfl
  keyed := by simp [entries, initSd]
  lined _ := .vacant

section

variable {sd : Sd} {mains : List Nat} {lines : UInt8 → List Nat} {history : List (Uuid × Nat)}
  (tidy : Tidy sd mains lines history)
include tidy

theorem Tidy.live (stored : sd.heap address = some cell) : address ≠ 0 :=
  Nat.pos_iff_ne_zero.mp (tidy.recorded.bounded address _ (entries_of stored)).1

/-- The registered UUIDs of a key are those of its entries. -/
theorem Tidy.known_iff (uuid : Uuid) (key : UInt8) : uuid ∈ registered history ∧ uuidKey uuid = key ↔
    ∃ address ∈ lines key, ∃ cell, sd.heap address = some cell ∧ cell.uuid = uuid := by
  constructor
  · rintro ⟨known, keyed⟩
    obtain ⟨address, queues, found⟩ := tidy.recorded.covers uuid known
    obtain ⟨cell, stored, same, _⟩ := entries_some found
    exact ⟨address, (tidy.keyed key address).mpr ⟨uuid, queues, found, keyed⟩, cell, stored, same⟩
  · rintro ⟨address, member, cell, stored, rfl⟩
    obtain ⟨uuid, queues, found, keyed⟩ := (tidy.keyed key address).mp member
    cases (entries_of stored).symm.trans found
    exact ⟨(tidy.recorded.content address _ _ found).2, keyed⟩

/-- From every shortcut a chain leads past the entries of the key. -/
theorem shortcut_reaches (key : UInt8) : ∃ addresses, Chain SdEntry.next sd.heap (sd.entryShortcut key) addresses ∧
    ∀ address ∈ lines key, address ∈ addresses := by
  have lined := tidy.lined key
  rw [tidy.shortcut]
  generalize lines key = line at lined ⊢
  cases lined with
  | vacant => exact ⟨[], rfl, nofun⟩
  | single inChain _ =>
    obtain ⟨before, after, rfl⟩ := append_of_mem inChain
    exact ⟨_, chain_suffix tidy.chain, by simp⟩
  | @double main front _ _ _ _ _ inChain _ _ inFront _ =>
    obtain ⟨before, after, rfl⟩ := append_of_mem inChain
    exact ⟨front :: main :: after, ⟨rfl, tidy.live inFront, _, inFront, chain_suffix tidy.chain⟩, by simp⟩

theorem chain_short {start : Nat} {addresses : List Nat} (chain : Chain SdEntry.next sd.heap start addresses) :
    addresses.length < sd.allocations + 1 :=
  Nat.lt_succ_of_le (chain_length_le chain (fun address _ stored =>
    (tidy.recorded.bounded address _ (entries_of stored)).2))

/-- The invariant determines every delivery. -/
theorem tidy_routes : Routes sd history := by
  intro World mqPush uuid world
  obtain ⟨addresses, chain, reaches⟩ := shortcut_reaches tidy (uuidKey uuid)
  by_cases known : uuid ∈ registered history
  · have nonempty : queuesFor history uuid ≠ [] :=
      fun empty => (queuesFor_eq_nil_iff history uuid).mp empty known
    obtain ⟨address, member, there⟩ := (tidy.known_iff uuid (uuidKey uuid)).mp ⟨known, rfl⟩
    obtain ⟨address, cell, found, live, stored, rfl⟩ :=
      findEntry_found chain (chain_short tidy chain) ⟨address, reaches address member, there⟩
    simp [sdSend, found, live, stored, delivered, nonempty, (tidy.recorded.content _ _ _ (entries_of stored)).1]
  · have empty : queuesFor history uuid = [] := (queuesFor_eq_nil_iff history uuid).mpr known
    have absent : ∀ address ∈ addresses, ∀ cell, sd.heap address = some cell → cell.uuid ≠ uuid := by
      rintro address _ cell stored rfl
      exact known (tidy.recorded.content address _ _ (entries_of stored)).2
    have missing := findEntry_missing chain (chain_short tidy chain) absent
    simp [sdSend, missing, delivered, empty]

theorem live_ne_fresh (stored : sd.heap address = some cell) : address ≠ sd.fresh := by
  rintro rfl
  exact absurd (tidy.recorded.bounded _ _ (entries_of stored)).2 (Nat.not_succ_le_self _)

theorem fresh_unused : sd.heap sd.fresh = none := by
  cases stored : sd.heap sd.fresh with
  | none => rfl
  | some cell => exact absurd rfl (live_ne_fresh tidy stored)

theorem fresh_not_main : sd.fresh ∉ mains := by
  intro member
  obtain ⟨_, cell, stored⟩ := segment_live tidy.chain member
  exact live_ne_fresh tidy stored rfl

theorem fresh_not_listed (key : UInt8) : sd.fresh ∉ lines key := by
  simp [tidy.keyed, entries, fresh_unused tidy]

/-- The entry that follows the appended entry of a key has another key. -/
theorem next_of_main {key : UInt8} (inChain : main ∈ mains) (stored : sd.heap main = some cell)
    (only : ∀ address ∈ mains, address ∈ lines key → address = main) :
    cell.next = 0 ∨ ∃ following, sd.heap cell.next = some following ∧ uuidKey following.uuid ≠ key := by
  obtain ⟨before, after, rfl⟩ := append_of_mem inChain
  have suffix := chain_suffix tidy.chain
  have distinct := chain_nodup suffix
  obtain ⟨_, _, same, storedSame, rest⟩ := suffix
  cases stored.symm.trans storedSame
  cases after with
  | nil => exact .inl rest
  | cons follower others =>
    obtain ⟨next, _, following, storedNext, _⟩ := rest
    refine .inr ⟨following, next ▸ storedNext, ?_⟩
    intro keyed
    have again := only follower (by simp) ((tidy.keyed key follower).mpr ⟨_, _, entries_of storedNext, keyed⟩)
    simp [again] at distinct

end

/-- A registration that is accepted and leaves the list tidy. -/
abbrev Advances (sd : Sd) (history : List (Uuid × Nat)) (uuid : Uuid) (queue : Nat) : Prop :=
  ∃ result mains lines, sdRegister sd uuid queue = some (0, result) ∧
    Tidy result mains lines (history ++ [(uuid, queue)])

section

variable {sd : Sd} {mains : List Nat} {lines : UInt8 → List Nat} {history : List (Uuid × Nat)} {next : Nat}
  (uuid : Uuid) (queue : Nat)

/-- A new entry in front of those of its key keeps the list tidy if it is linked
without disturbing the others. -/
theorem Tidy.insert {result : Sd} {mains' : List Nat} (tidy : Tidy sd mains lines history)
    (unknown : uuid ∉ registered history) (allocations : result.allocations = sd.fresh)
    (shortcut : result.entryShortcut = update sd.entryShortcut (uuidKey uuid) sd.fresh)
    (added : entries result.heap = update (entries sd.heap) sd.fresh (some (uuid, [queue])))
    (chain : Chain SdEntry.next result.heap result.head mains') (tail : result.tail = mains'.getLastD 0)
    (line : Line result.heap mains' (sd.fresh :: lines (uuidKey uuid)))
    (kept : ∀ key, key ≠ uuidKey uuid → ∀ address ∈ lines key, Kept mains sd.heap result.heap address)
    (chained : ∀ address, address ≠ sd.fresh → (address ∈ mains' ↔ address ∈ mains)) :
    Tidy result mains' (update lines (uuidKey uuid) (sd.fresh :: lines (uuidKey uuid))) (history ++ [(uuid, queue)]) := by
  have unused : entries sd.heap sd.fresh = none := by rw [entries, fresh_unused tidy, Option.map_none]
  refine ⟨chain, tail, ?_, ?_, ?_, ?_⟩
  · have empty := (queuesFor_eq_nil_iff history uuid).mpr unknown
    have recorded := tidy.recorded.register uuid sd.fresh ⟨Nat.succ_pos _, le_refl _⟩ (Nat.le_succ _)
      (fun address queues found => absurd (tidy.recorded.content address uuid queues found).2 unknown)
      (fun other queues found => nomatch unused.symm.trans found) queue
    rwa [empty, nil_append, ← added, ← allocations] at recorded
  · intro key
    rw [shortcut]
    by_cases here : key = uuidKey uuid
    · rw [here, update_self, update_self, headD_cons]
    · rw [update_of_ne here, update_of_ne here, tidy.shortcut]
  · intro key address
    have before := tidy.keyed key address
    have absent := fresh_not_listed tidy key
    rw [added]
    by_cases place : address = sd.fresh <;> by_cases here : key = uuidKey uuid <;> simp_all [eq_comm]
  · intro key
    by_cases here : key = uuidKey uuid
    · rw [here, update_self]
      exact line
    · rw [update_of_ne here]
      refine (tidy.lined key).frame (kept key here) (fun address member => chained address ?_)
      rintro rfl
      exact fresh_not_listed tidy key member

/-- Appending for a key seen for the first time extends the chain. -/
theorem appendEntry_eq (tidy : Tidy sd mains lines history) : ∃ heap head, appendEntry sd uuid queue =
    some ⟨update sd.entryShortcut (uuidKey uuid) sd.fresh, sd.fresh, head, heap, sd.fresh⟩ ∧
    Chain SdEntry.next heap head (mains ++ [sd.fresh]) ∧ heap sd.fresh = some ⟨0, 0, uuid, [queue]⟩ ∧
    entries heap = update (entries sd.heap) sd.fresh (some (uuid, [queue])) ∧ ∀ address, Kept mains sd.heap heap address := by
  obtain ⟨grown, grownIs⟩ := @exists_eq _ (sd.heap.write sd.fresh ⟨0, 0, uuid, [queue]⟩)
  have here : grown sd.fresh = some ⟨0, 0, uuid, [queue]⟩ := grownIs ▸ write_here ..
  have added (address : Nat) : Kept mains sd.heap grown address :=
    grownIs ▸ (kept_refl address).write (fun here _ stored => absurd here (live_ne_fresh tidy stored))
  have recorded : entries grown = update (entries sd.heap) sd.fresh (some (uuid, [queue])) := grownIs ▸ entries_write ..
  cases mains using reverseRecOn with
  | nil =>
    refine ⟨grown, sd.fresh, ?_, ?_, here, recorded, added⟩
    · simp [appendEntry, newSdEntry, tidy.tail, grownIs]
    · exact ⟨rfl, Nat.succ_ne_zero _, _, here, rfl⟩
  | append_singleton before last =>
    have atTail : sd.tail = last := by simpa using tidy.tail
    have member : last ∈ before ++ [last] := mem_append_right before mem_cons_self
    obtain ⟨live, cell, stored⟩ := segment_live tidy.chain member
    have different := live_ne_fresh tidy stored
    have storedNow : grown last = some cell := by rw [grownIs, write_elsewhere _ _ different, stored]
    have hereNow := (write_elsewhere grown { cell with next := sd.fresh } (Ne.symm different)).trans here
    refine ⟨grown.write last { cell with next := sd.fresh }, sd.head, ?_, ?_, hereNow, ?_, ?_⟩
    · simp only [appendEntry, newSdEntry, atTail, live, ne_eq, ← grownIs, storedNow]
      rfl
    · -- The old chain now stops at the new entry, which is a chain by itself.
      have chain : Segment SdEntry.next grown sd.head (before ++ [last]) 0 :=
        grownIs ▸ segment_write tidy.chain (fun member => absurd member (fresh_not_main tidy))
      exact (segment_append (before ++ [last]) [sd.fresh]).mpr
        ⟨sd.fresh, segment_redirect chain (chain_last tidy.chain).2, rfl, Nat.succ_ne_zero _, _, hereNow, rfl⟩
    · exact (entries_relink storedNow cell.prev sd.fresh).trans recorded
    · refine fun address => (added address).write ?_
      rintro rfl old before
      cases stored.symm.trans before
      exact ⟨rfl, rfl, fun offChain => absurd member offChain⟩

/-- The first registration of a key. -/
theorem register_vacant (tidy : Tidy sd mains lines history) (vacant : lines (uuidKey uuid) = []) :
    Advances sd history uuid queue := by
  obtain ⟨heap, head, appended, chain, created, added, kept⟩ := appendEntry_eq uuid queue tidy
  have unknown : uuid ∉ registered history := by
    intro known
    have there := (tidy.known_iff uuid (uuidKey uuid)).mp ⟨known, rfl⟩
    simp [vacant] at there
  have line : Line heap (mains ++ [sd.fresh]) (sd.fresh :: lines (uuidKey uuid)) := by
    rw [vacant]
    exact .single (mem_append_right mains mem_cons_self) created
  refine ⟨⟨update sd.entryShortcut (uuidKey uuid) sd.fresh, sd.fresh, head, heap, sd.fresh⟩, mains ++ [sd.fresh], _,
    ?_, tidy.insert uuid queue unknown rfl rfl added chain (by simp) line (fun _ _ address _ => kept address) ?_⟩
  · simp [sdRegister, tidy.shortcut, vacant, appended]
  · simp +contextual

/-- A UUID has one entry. -/
theorem Tidy.unique {one other : Nat} {some_ others : List Nat} (tidy : Tidy sd mains lines history)
    (first : entries sd.heap one = some (uuid, some_)) (second : entries sd.heap other = some (uuid, others)) :
    one = other := by
  have inOne := (tidy.keyed (uuidKey uuid) one).mpr ⟨_, _, first, rfl⟩
  have inOther := (tidy.keyed (uuidKey uuid) other).mpr ⟨_, _, second, rfl⟩
  have lined := tidy.lined (uuidKey uuid)
  generalize lines (uuidKey uuid) = line at lined inOne inOther
  cases lined with
  | vacant => cases inOne
  | single => exact (mem_singleton.mp inOne).trans (mem_singleton.mp inOther).symm
  | double _ _ stored inFront ordered =>
    rw [mem_pair] at inOne inOther
    grind [entries_of stored, entries_of inFront, ne_of_uuidCmp_pos ordered]

/-- Registering the UUID of the shortcut again adds a queue to its entry. -/
theorem register_repeat (tidy : Tidy sd mains lines history) {prev : Nat} {queues : List Nat}
    (stored : sd.heap (sd.entryShortcut (uuidKey uuid)) = some ⟨prev, next, uuid, queues⟩) :
    sdRegister sd uuid queue = some (enomem, sd) ∨ Advances sd history uuid queue := by
  have live := tidy.live stored
  have there := entries_of stored
  by_cases full : queueSlots ≤ queues.length
  · exact .inl (by simp [sdRegister, live, stored, uuidCmp_self, full])
  refine .inr ⟨⟨sd.entryShortcut, sd.tail, sd.head, sd.heap.write (sd.entryShortcut (uuidKey uuid))
    ⟨prev, next, uuid, queues ++ [queue]⟩, sd.allocations⟩, mains, lines,
    by simp [sdRegister, live, stored, uuidCmp_self, full], ?_, tidy.tail, ?_, tidy.shortcut, ?_, ?_⟩
  · refine segment_write tidy.chain ?_
    intro _ old before
    cases stored.symm.trans before
    rfl
  · obtain rfl : queues = queuesFor history uuid := (tidy.recorded.content _ _ _ there).1
    rw [entries_write]
    refine tidy.recorded.register uuid _ (tidy.recorded.bounded _ _ there) (le_refl _)
      (fun address queues found => tidy.unique uuid found there) ?_ queue
    intro other queues found
    cases there.symm.trans found
    rfl
  · intro key address
    have before := tidy.keyed key address
    rw [entries_write]
    by_cases here : address = sd.entryShortcut (uuidKey uuid) <;> simp_all
  · refine fun key => (tidy.lined key).frame (fun address _ => (kept_refl address).write ?_) (fun _ _ => Iff.rfl)
    rintro rfl old before
    cases stored.symm.trans before
    exact ⟨rfl, rfl, fun _ => rfl⟩

/-- Without an entry before it, `cur` only gets its back link changed. -/
theorem insertBefore_first (stored : sd.heap cur = some ⟨0, next, first, queues⟩) (different : cur ≠ sd.fresh) :
    insertBefore sd cur uuid queue = some ⟨update sd.entryShortcut (uuidKey uuid) sd.fresh, sd.tail, sd.head,
    (sd.heap.write sd.fresh ⟨0, cur, uuid, [queue]⟩).write cur ⟨sd.fresh, next, first, queues⟩, sd.fresh⟩ := by
  simp [insertBefore, newSdEntry, write_elsewhere _ _ different, stored, write_write]

/-- With an entry before it, that entry is linked to the new one. -/
theorem insertBefore_between {before : Nat} {second : Uuid} {others : List Nat}
    {beforePrev beforeNext : Nat} (live : before ≠ 0) (stored : sd.heap cur = some ⟨before, next, first, queues⟩)
    (storedBefore : sd.heap before = some ⟨beforePrev, beforeNext, second, others⟩)
    (apart : cur ≠ before) (different : cur ≠ sd.fresh) (differentBefore : before ≠ sd.fresh) :
    ∃ heap, insertBefore sd cur uuid queue = some
    ⟨update sd.entryShortcut (uuidKey uuid) sd.fresh, sd.tail, sd.head, heap, sd.fresh⟩ ∧
    heap = (((sd.heap.write sd.fresh ⟨0, 0, uuid, [queue]⟩).write before
    ⟨beforePrev, sd.fresh, second, others⟩).write sd.fresh ⟨before, cur, uuid, [queue]⟩).write cur
    ⟨sd.fresh, next, first, queues⟩ := by
  simp [insertBefore, newSdEntry, stored, storedBefore, live, write_elsewhere _ _ apart, write_elsewhere _ _ different,
    write_elsewhere _ _ differentBefore, write_elsewhere _ _ (Ne.symm differentBefore)]

/-- A UUID larger than the one in front follows the null back link. -/
theorem register_larger_faults (tidy : Tidy sd mains lines history)
    (stored : sd.heap (sd.entryShortcut (uuidKey uuid)) = some ⟨0, next, other, queues⟩)
    (larger : uuidCmp other uuid < 0) : sdRegister sd uuid queue = none := by
  have live := tidy.live stored
  have nullUnused : sd.heap.write sd.fresh ⟨0, 0, uuid, [queue]⟩ 0 = none := by
    have null : 0 ≠ sd.fresh := (Nat.succ_ne_zero _).symm
    rw [write_elsewhere _ _ null]
    cases nothing : sd.heap 0 with
    | none => rfl
    | some cell => exact absurd rfl (tidy.live nothing)
  simp [sdRegister, live, stored, larger, ne_of_lt larger, insertBefore, newSdEntry, nullUnused]

/-- The walk ends at once where the next entry is null or of another key. -/
theorem lastLarger_stops {heap : Heap SdEntry} {key : UInt8} {fuel : Nat} (stored : heap cur = some cell)
    (ends : cell.next = 0 ∨ ∃ following, heap cell.next = some following ∧ uuidKey following.uuid ≠ key) :
    lastLarger heap key uuid (fuel + 1) cur = some cur := by
  cases ends with
  | inl null => simp [lastLarger, stored, null]
  | inr other =>
    obtain ⟨following, storedNext, differs⟩ := other
    simp [lastLarger, stored, storedNext, differs]

/-- A smaller UUID after a single one is put in front of it. -/
theorem register_second (tidy : Tidy sd mains lines history) (single : lines (uuidKey uuid) = [main])
    (inChain : main ∈ mains) (stored : sd.heap main = some ⟨0, next, first, queues⟩)
    (smaller : 0 < uuidCmp first uuid) : Advances sd history uuid queue := by
  have live := tidy.live stored
  have different := live_ne_fresh tidy stored
  have walked : lastLarger sd.heap (uuidKey uuid) uuid (sd.allocations + 1) main = some main :=
    lastLarger_stops uuid stored (next_of_main tidy inChain stored (by simp [single]))
  have unknown : uuid ∉ registered history := by
    intro known
    have there := (tidy.known_iff uuid (uuidKey uuid)).mp ⟨known, rfl⟩
    simp [single, stored, ne_of_uuidCmp_pos smaller] at there
  obtain ⟨grown, grownIs⟩ := @exists_eq _ (sd.heap.write sd.fresh ⟨0, main, uuid, [queue]⟩)
  have storedNow : grown main = some ⟨0, next, first, queues⟩ := by rw [grownIs, write_elsewhere _ _ different, stored]
  have fresh := (write_elsewhere grown ⟨sd.fresh, next, first, queues⟩ (Ne.symm different)).trans
    (grownIs ▸ write_here ..)
  have line : Line (grown.write main ⟨sd.fresh, next, first, queues⟩) mains (sd.fresh :: lines (uuidKey uuid)) :=
    single ▸ .double inChain (fresh_not_main tidy) (write_here ..) fresh smaller
  refine ⟨⟨update sd.entryShortcut (uuidKey uuid) sd.fresh, sd.tail, sd.head,
    grown.write main ⟨sd.fresh, next, first, queues⟩, sd.fresh⟩, mains, _, ?_,
    tidy.insert uuid queue unknown rfl rfl ?_ ?_ tidy.tail line ?_ (fun _ _ => Iff.rfl)⟩
  · simp [sdRegister, tidy.shortcut, single, live, stored, ne_of_gt smaller, not_lt_of_gt smaller, walked,
      insertBefore_first uuid queue stored different, grownIs]
  · rw [entries_relink storedNow, grownIs, entries_write]
  · have chain : Chain SdEntry.next grown sd.head mains :=
      grownIs ▸ segment_write tidy.chain (fun member => absurd member (fresh_not_main tidy))
    refine segment_write chain ?_
    intro _ old before
    cases storedNow.symm.trans before
    rfl
  · intro key other address member
    have added : Kept mains sd.heap grown address :=
      grownIs ▸ (kept_refl address).write (fun here _ stored => absurd here (live_ne_fresh tidy stored))
    refine added.write ?_
    rintro rfl
    -- the entry is one of the other key
    obtain ⟨_, _, found, keyed⟩ := (tidy.keyed key address).mp member
    obtain ⟨_, _, again, same⟩ := (tidy.keyed (uuidKey uuid) address).mp (by simp [single])
    cases found.symm.trans again
    exact absurd (keyed.symm.trans same) other

/-- A third, smaller UUID is inserted behind the entry in front, which its
shortcut no longer reaches. -/
theorem register_third_loses (tidy : Tidy sd mains lines history) {front : Nat} {second : Uuid} {others : List Nat}
    (double : lines (uuidKey uuid) = [front, main]) (inChain : main ∈ mains) (offChain : front ∉ mains)
    (stored : sd.heap main = some ⟨front, next, first, queues⟩) (inFront : sd.heap front = some ⟨0, main, second, others⟩)
    (ordered : 0 < uuidCmp first second) (smaller : 0 < uuidCmp second uuid) :
    ∃ result, sdRegister sd uuid queue = some (0, result) ∧ ¬ Routes result (history ++ [(uuid, queue)]) := by
  have live := tidy.live stored
  have frontLive := tidy.live inFront
  have different := live_ne_fresh tidy stored
  have frontDifferent := live_ne_fresh tidy inFront
  have apart : main ≠ front := by
    rintro rfl
    exact offChain inChain
  have onlyMain : ∀ address ∈ mains, address ∈ lines (uuidKey uuid) → address = main := by
    rintro address member listed
    rw [double, mem_pair] at listed
    exact listed.resolve_left (fun here => offChain (here ▸ member))
  obtain ⟨_, keyed⟩ := (tidy.known_iff first (uuidKey uuid)).mpr ⟨main, by simp [double], _, stored, rfl⟩
  obtain ⟨knownToo, keyedToo⟩ := (tidy.known_iff second (uuidKey uuid)).mpr ⟨front, by simp [double], _, inFront, rfl⟩
  -- The walk moves from the front to the appended entry and no further.
  have walked : lastLarger sd.heap (uuidKey uuid) uuid (sd.allocations + 1) front = some main := by
    have bounds := tidy.recorded.bounded _ _ (entries_of inFront)
    obtain ⟨fuel, fuelEq⟩ : ∃ fuel, sd.allocations = fuel + 1 := Nat.exists_eq_add_one.mpr (by omega)
    have stops : lastLarger sd.heap (uuidKey uuid) uuid (fuel + 1) main = some main :=
      lastLarger_stops uuid stored (next_of_main tidy inChain stored onlyMain)
    have larger : 0 < uuidCmp first uuid := uuidCmp_trans ordered smaller
    rw [fuelEq, lastLarger]
    simp [inFront, live, stored, keyed, larger, stops]
  obtain ⟨heap, inserted, heapEq⟩ := insertBefore_between uuid queue frontLive stored inFront apart
    different frontDifferent
  have freshNow : heap sd.fresh = some ⟨front, main, uuid, [queue]⟩ := by
    rw [heapEq, write_elsewhere _ _ (Ne.symm different), write_here]
  have mainNow : heap main = some ⟨sd.fresh, next, first, queues⟩ := heapEq ▸ write_here ..
  refine ⟨⟨update sd.entryShortcut (uuidKey uuid) sd.fresh, sd.tail, sd.head, heap, sd.fresh⟩, ?_, ?_⟩
  · simp [sdRegister, tidy.shortcut, double, frontLive, inFront, ne_of_gt smaller, not_lt_of_gt smaller, walked, inserted]
  · intro routes
    obtain ⟨before, after, rfl⟩ := append_of_mem inChain
    have suffix := chain_suffix tidy.chain
    have elsewhere {address : Nat} (member : address ∈ before ++ main :: after) (notMain : address ≠ main) :
        heap address = sd.heap address := by
      have notFresh : address ≠ sd.fresh := fun here => fresh_not_main tidy (here ▸ member)
      have notFront : address ≠ front := fun here => offChain (here ▸ member)
      rw [heapEq, write_elsewhere _ _ notMain, write_elsewhere _ _ notFresh, write_elsewhere _ _ notFront,
        write_elsewhere _ _ notFresh]
    -- No link of the chain behind the new entry is changed.
    have rest : Chain SdEntry.next heap main (main :: after) := by
      refine segment_congr suffix (fun address member cell held => ?_)
      by_cases here : address = main
      · subst here
        cases stored.symm.trans held
        exact ⟨_, mainNow, rfl⟩
      · exact ⟨cell, (elsewhere (mem_append_right before member) here).trans held, rfl⟩
    have chain : Chain SdEntry.next heap sd.fresh (sd.fresh :: main :: after) :=
      ⟨rfl, Nat.succ_ne_zero _, _, freshNow, rest⟩
    have absent : ∀ address ∈ sd.fresh :: main :: after, ∀ cell, heap address = some cell → cell.uuid ≠ second := by
      rintro address member cell now rfl
      rcases mem_cons.mp member with rfl | chained
      · cases freshNow.symm.trans now
        exact ne_of_uuidCmp_pos smaller rfl
      · by_cases here : address = main
        · subst here
          cases mainNow.symm.trans now
          exact ne_of_uuidCmp_pos ordered rfl
        · have member := mem_append_right before chained
          rw [elsewhere member here] at now
          exact here (onlyMain address member ((tidy.keyed _ _).mpr ⟨_, _, entries_of now, keyedToo⟩))
    have short : (sd.fresh :: main :: after).length < sd.fresh + 1 := Nat.succ_lt_succ (chain_short tidy suffix)
    have missing := findEntry_missing chain short absent
    have nonempty : queuesFor (history ++ [(uuid, queue)]) second ≠ [] := by
      rw [ne_eq, queuesFor_eq_nil_iff, not_not]
      exact mem_registered_append.mpr (.inl knownToo)
    have sent := routes Unit (fun _ _ => (0, ())) second ()
    simp [sdSend, keyedToo, missing, delivered, nonempty, enoent] at sent

end

section

/-- What one more UUID has to satisfy. -/
structure Joins (uuids : List Uuid) (uuid : Uuid) : Prop where
  last : ∀ earlier, earlier ∈ uuids ∧ uuidKey earlier = uuidKey uuid → earlier = uuid ∨ 0 < uuidCmp earlier uuid
  few : ∀ first, first ∈ uuids ∧ uuidKey first = uuidKey uuid → ∀ second, second ∈ uuids ∧ uuidKey second = uuidKey uuid →
    first = second ∨ first = uuid ∨ second = uuid

theorem tame_snoc (uuids : List Uuid) (uuid : Uuid) : Tame (uuids ++ [uuid]) ↔ Tame uuids ∧ Joins uuids uuid := by
  simp only [Tame, pairwise_append, pairwise_singleton, mem_append, mem_singleton]
  constructor
  · rintro ⟨⟨sorted, _, last⟩, few⟩
    refine ⟨⟨sorted, ?_⟩, ?_, ?_⟩
    · intro a inA b inB c inC
      exact few a (.inl inA) b (.inl inB) c (.inl inC)
    · intro earlier member
      exact last earlier member.1 uuid rfl member.2
    · rintro a ⟨inA, keyA⟩ b ⟨inB, keyB⟩
      have := few a (.inl inA) b (.inl inB) uuid (.inr rfl) (keyA.trans keyB.symm) keyB
      tauto
  · rintro ⟨⟨sorted, few⟩, last, fewer⟩
    refine ⟨⟨sorted, trivial, ?_⟩, ?_⟩
    · rintro earlier member _ rfl keyed
      exact last earlier ⟨member, keyed⟩
    · -- with two of them before, the third is the new one
      rintro a (inA | rfl) b (inB | rfl) c (inC | rfl) sameKey sameKey' <;> grind

variable {sd : Sd} {mains : List Nat} {lines : UInt8 → List Nat} {history : List (Uuid × Nat)}

/-- One registration from a tidy state: within the condition it is refused or
leads to a tidy state, outside the condition it faults or breaks the routing. -/
theorem register_cases (tidy : Tidy sd mains lines history) (tame : Tame (registered history)) (uuid : Uuid) (queue : Nat) :
    (Tame (registered (history ++ [(uuid, queue)])) ∧ (sdRegister sd uuid queue = some (enomem, sd) ∨
      Advances sd history uuid queue)) ∨
    (¬ Tame (registered (history ++ [(uuid, queue)])) ∧ (sdRegister sd uuid queue = none ∨ ∃ result,
    sdRegister sd uuid queue = some (0, result) ∧ ¬ Routes result (history ++ [(uuid, queue)]))) := by
  have known (other : Uuid) := tidy.known_iff other (uuidKey uuid)
  have shortcut := tidy.shortcut (uuidKey uuid)
  have lined := tidy.lined (uuidKey uuid)
  rw [registered_append, tame_snoc]
  generalize lineIs : lines (uuidKey uuid) = line at known lined shortcut
  cases lined with
  | vacant =>
    have joins : Joins (registered history) uuid := ⟨by simp [known], by simp [known]⟩
    exact .inl ⟨⟨tame, joins⟩, .inr (register_vacant uuid queue tidy lineIs)⟩
  | @single main next first queues inChain stored =>
    have few : ∀ a, a ∈ registered history ∧ uuidKey a = uuidKey uuid → ∀ b, b ∈ registered history ∧
        uuidKey b = uuidKey uuid → a = b ∨ a = uuid ∨ b = uuid := by simp [known, stored]
    have atShortcut : sd.heap (sd.entryShortcut (uuidKey uuid)) = some ⟨0, next, first, queues⟩ := by rwa [shortcut]
    rcases lt_trichotomy (uuidCmp first uuid) 0 with larger | same | smaller
    · refine .inr ⟨?_, .inl (register_larger_faults uuid queue tidy atShortcut larger)⟩
      rintro ⟨_, last, _⟩
      rcases last first (by simp [known, stored]) with rfl | positive
      · exact ne_of_lt larger (uuidCmp_self first)
      · exact lt_asymm larger positive
    · obtain rfl := (uuidCmp_eq_zero_iff first uuid).mp same
      exact .inl ⟨⟨tame, by simp [known, stored], few⟩, register_repeat first queue tidy atShortcut⟩
    · exact .inl ⟨⟨tame, by simp [known, stored, smaller], few⟩,
        .inr (register_second uuid queue tidy lineIs inChain stored smaller)⟩
  | @double main front next first second queues others inChain offChain stored inFront ordered =>
    have both (other : Uuid) : other ∈ registered history ∧ uuidKey other = uuidKey uuid ↔
        other = first ∨ other = second := by
      rw [known]
      simp [stored, inFront, eq_comm, or_comm]
    have atShortcut : sd.heap (sd.entryShortcut (uuidKey uuid)) = some ⟨0, main, second, others⟩ := by rwa [shortcut]
    have outside (apart : uuidCmp second uuid ≠ 0) : ¬ (Tame (registered history) ∧ Joins (registered history) uuid) := by
      rintro ⟨_, last, few⟩
      have notSecond : second ≠ uuid := mt (uuidCmp_eq_zero_iff _ _).mpr apart
      rcases few first ((both _).mpr (.inl rfl)) second ((both _).mpr (.inr rfl)) with equal | rfl | isSecond
      · exact ne_of_uuidCmp_pos ordered equal
      · have below := (last second ((both _).mpr (.inr rfl))).resolve_left notSecond
        exact ne_of_uuidCmp_pos (uuidCmp_trans ordered below) rfl
      · exact notSecond isSecond
    rcases lt_trichotomy (uuidCmp second uuid) 0 with larger | same | smaller
    · exact .inr ⟨outside (ne_of_lt larger), .inl (register_larger_faults uuid queue tidy atShortcut larger)⟩
    · obtain rfl := (uuidCmp_eq_zero_iff second uuid).mp same
      exact .inl ⟨⟨tame, by simp [both, ordered], by simp [both]⟩, register_repeat second queue tidy atShortcut⟩
    · exact .inr ⟨outside (ne_of_gt smaller), .inr (register_third_loses uuid queue tidy lineIs inChain offChain
        stored inFront ordered smaller)⟩

end

theorem registerAll_append (first second : List (Uuid × Nat)) (sd : Sd) :
    registerAll (first ++ second) sd = match registerAll first sd with
      | .faulted => .faulted
      | .refused => .refused
      | .done result => registerAll second result := by
  induction first generalizing sd with
  | nil => rfl
  | cons registration rest ih =>
    obtain ⟨uuid, queue⟩ := registration
    simp only [cons_append, registerAll]
    cases sdRegister sd uuid queue with
    | none => rfl
    | some returned =>
      obtain ⟨error, after⟩ := returned
      by_cases accepted : error = 0
      · simp only [accepted]
        exact ih after
      · simp [accepted]

/-- The run lemma: accepted registrations within the condition keep the list tidy, and one outside the condition
has been the first after which the list does not route. -/
theorem registerAll_cases (history : List (Uuid × Nat)) (accepted : registerAll history initSd ≠ .refused) :
    (Tame (registered history) ∧ ∀ earlier, earlier <+: history →
      ∃ sd mains lines, registerAll earlier initSd = .done sd ∧ Tidy sd mains lines earlier) ∨
    (¬ Tame (registered history) ∧ ∃ earlier, earlier <+: history ∧
      ∀ sd, registerAll earlier initSd = .done sd → ¬ Routes sd earlier) := by
  induction history using reverseRecOn with
  | nil =>
    refine .inl ⟨by simp [Tame, registered], fun earlier isPrefix => ?_⟩
    obtain rfl := prefix_nil.mp isPrefix
    exact ⟨initSd, [], _, rfl, tidy_initial⟩
  | append_singleton before registration ih =>
    obtain ⟨uuid, queue⟩ := registration
    have whole := registerAll_append before [(uuid, queue)] initSd
    rcases ih (by intro refused; simp [whole, refused] at accepted) with ⟨tame, kept⟩ | ⟨wild, earlier, shorter, loses⟩
    · obtain ⟨sd, mains, lines, ran, tidy⟩ := kept before prefix_rfl
      rw [ran] at whole
      rcases register_cases tidy tame uuid queue with ⟨tameNow, refused | advanced⟩ | ⟨wild, faults | loses⟩
      · simp [whole, registerAll, refused, enomem] at accepted
      · obtain ⟨result, mains', lines', returned, tidyNow⟩ := advanced
        refine .inl ⟨tameNow, fun earlier isPrefix => ?_⟩
        rcases prefix_concat_iff.mp isPrefix with rfl | shorter
        · exact ⟨result, mains', lines', by simp [whole, registerAll, returned], tidyNow⟩
        · exact kept earlier shorter
      · exact .inr ⟨wild, _, prefix_rfl, by simp [whole, registerAll, faults]⟩
      · obtain ⟨broken, returned, loses⟩ := loses
        refine .inr ⟨wild, _, prefix_rfl, fun sd done => ?_⟩
        simp only [whole, registerAll, returned, if_true, Outcome.done.injEq] at done
        exact done ▸ loses
    · refine .inr ⟨fun tame => wild ?_, earlier, shorter.trans (prefix_append ..), loses⟩
      rw [registered_append] at tame
      exact ((tame_snoc _ _).mp tame).1

/-- As long as registrations are not refused, no prefix of them faults and every
prefix routes each UUID to exactly its queues if and only if each key sees at
most two UUIDs, the second one smaller, and the first never again after it. -/
theorem routes_iff_tame (history : List (Uuid × Nat)) (accepted : registerAll history initSd ≠ .refused) :
    (∀ earlier, earlier <+: history →
      ∃ sd, registerAll earlier initSd = .done sd ∧ Routes sd earlier) ↔ Tame (registered history) := by
  rcases registerAll_cases history accepted with ⟨tame, kept⟩ | ⟨wild, earlier, shorter, loses⟩
  · refine iff_of_true (fun earlier isPrefix => ?_) tame
    obtain ⟨sd, mains, lines, ran, tidy⟩ := kept earlier isPrefix
    exact ⟨sd, ran, tidy_routes tidy⟩
  · refine iff_of_false (fun every => ?_) wild
    obtain ⟨sd, ran, routes⟩ := every earlier shorter
    exact loses sd ran routes

/-- UUIDs that share the key zero: two equal bytes cancel. -/
def twin (byte : UInt8) : Uuid := Vector.ofFn (fun index => if index.val < 2 then byte else 0)

/-- A smaller UUID may follow, as often as it likes. -/
theorem routes_smaller_second : Tame (registered [(twin 5, 1), (twin 3, 2), (twin 3, 4)]) ∧
    ∀ earlier, earlier <+: [(twin 5, 1), (twin 3, 2), (twin 3, 4)] →
      ∃ sd, registerAll earlier initSd = .done sd ∧ Routes sd earlier := by
  have accepted : registerAll [(twin 5, 1), (twin 3, 2), (twin 3, 4)] initSd ≠ .refused := by
    intro refused
    cases refused
  have tame : Tame (registered [(twin 5, 1), (twin 3, 2), (twin 3, 4)]) := by decide +kernel
  exact ⟨tame, (routes_iff_tame _ accepted).mpr tame⟩

/-- A larger second UUID dereferences null; a third, smaller one makes the
second unknown to senders. -/
theorem larger_faults_third_loses : uuidKey (twin 3) = uuidKey (twin 5) ∧
    registerAll [(twin 3, 1), (twin 5, 2)] initSd = .faulted ∧
    ∃ sd, registerAll [(twin 5, 1), (twin 3, 2), (twin 2, 3)] initSd = .done sd ∧
      sdSend (fun queue pushed => (0, pushed ++ [queue])) sd (twin 3) [] = some (-2, []) :=
  ⟨by decide, rfl, _, rfl, by decide +kernel⟩

end Lfos.ServiceDiscovery
