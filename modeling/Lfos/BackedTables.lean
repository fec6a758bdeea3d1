import Lfos.ThinArrayRefinement
import Lfos.Transitions

/-!
# Tables in thin provisioned arrays

Message queues, condition variables and mutexes are the entries of thin provisioned arrays. The
models of the code that uses them have partial maps instead. This module says when that is the same:
the calls that store or clear an entry are recorded beside the states of a system, and as long as
all of them are allowed, every array that they lead to has the entries of the map.

An entry is changed in place, through the address that `get` returns. So what is compared is which
entries there are.
-/

namespace Lfos.ThinArray

open Transitions Words Function List

/-- The entries of a map, without what they hold. -/
def occupied {β : Type} (map : Nat → Option β) : Nat → Option Unit := Option.map (fun _ => ()) ∘ map

section

variable {β : Type} {map : Nat → Option β} {idx : Nat} {old : β}

theorem occupied_update (entry : Option β) :
    occupied (update map idx entry) = update (occupied map) idx (entry.map (fun _ => ())) :=
  comp_update ..

/-- An entry that is changed in place is still there. -/
theorem occupied_in_place (stored : map idx = some old) (changed : β) :
    occupied (update map idx (some changed)) = occupied map := by
  rw [occupied_update]
  exact update_eq_iff.mpr ⟨by simp [occupied, stored], fun _ _ => rfl⟩

end

/-- The index that a number is in a call. -/
def word (number : Nat) : Fin (2 ^ 64) := ⟨u64 number, u64_lt number⟩

theorem word_val {number : Nat} (small : number < 2 ^ 64) : (word number).val = number := u64_of_lt small

/-- The sizes of the array of message queues: a `MessageQueue` has nine words. -/
def queueLayout : Layout := ⟨72, 4080, by decide, by decide⟩

/-- The next number of a table and its entries. -/
structure View where
  next : Nat
  entries : Nat → Option Unit

/-- What becomes of a table with a call: the next number gets an entry, or an entry is ended. -/
inductive Changed (view : View) : Option (Op Unit) → View → Prop where
  | same : Changed view none view
  | made (left : view.next ≠ 0) : Changed view (some (.store (word view.next) ()))
      ⟨u64 (view.next + 1), update view.entries view.next (some ())⟩
  | ended {idx : Nat} (present : view.entries idx ≠ none) :
      Changed view (some (.clear (word idx))) ⟨view.next, update view.entries idx none⟩

/-- A table needs no call as long as it is the same. -/
theorem Changed.of_eq {view after : View} (same : after = view) : Changed view none after := same ▸ .same

section

variable {β : Type} {map : Nat → Option β} {next idx : Nat} {old : β}

theorem Changed.make (left : next ≠ 0) (entry : β) : Changed ⟨next, occupied map⟩ (some (.store (word next) ()))
    ⟨u64 (next + 1), occupied (update map next (some entry))⟩ := by
  rw [occupied_update]
  exact .made left

theorem Changed.clear (stored : map idx = some old) : Changed ⟨next, occupied map⟩ (some (.clear (word idx)))
    ⟨next, occupied (update map idx none)⟩ := by
  rw [occupied_update]
  exact .ended (by simp [occupied, stored])

end

/-- The entries have smaller numbers than the next one, until there is none left. -/
def View.Numbered (view : View) : Prop :=
  view.next < 2 ^ 64 ∧ (view.next ≠ 0 → ∀ idx ≥ view.next, view.entries idx = none)

theorem Changed.numbered {view after : View} {call : Option (Op Unit)} (change : Changed view call after)
    (numbered : view.Numbered) : after.Numbered := by
  obtain ⟨small, unused⟩ := numbered
  cases change with
  | same => exact ⟨small, unused⟩
  | made left =>
    refine ⟨u64_lt _, fun nonzero idx beyond => ?_⟩
    dsimp only at nonzero beyond
    have last : view.next + 1 ≠ 2 ^ 64 := fun last => nonzero (last ▸ rfl)
    rw [u64_of_lt (by omega)] at beyond
    exact (update_of_ne (by omega) ..).trans (unused left idx (by omega))
  | ended present =>
    refine ⟨small, fun nonzero idx beyond => ?_⟩
    dsimp only
    rw [update_apply]
    split
    · rfl
    · exact unused nonzero idx beyond

variable {State Event : Type}

/-- A table of a system that is kept in an array, and the call that an event makes. Entries are
made and ended by calls only. -/
structure Table (system : System State Event) where
  layout : Layout
  view : State → View
  call : State → Event → Option (Op Unit)
  initially : ∀ state, system.initial state → (view state).entries = (fun _ => none) ∧ (view state).next < 2 ^ 64
  changed : ∀ state event after, system.step state event after →
    Changed (view state) (call state event) (view after)

variable {system : System State Event} (table : Table system)

/-- The call that an event makes, if any, is allowed. -/
def Table.Kept (state : State) (event : Event) : Prop :=
  ∀ op, table.call state event = some op → Allowed table.layout (table.view state).entries op

/-- The system with the calls that were made so far. -/
def Table.recorded : System (State × List (Op Unit)) Event where
  initial recorded := system.initial recorded.1 ∧ recorded.2 = []
  step recorded event after := system.step recorded.1 event after.1 ∧
    after.2 = recorded.2 ++ (table.call recorded.1 event).toList

/-- The calls that led to a state return, and every array they lead to has the entries of the
table. -/
def Table.Backed (state : State) : Prop :=
  ∃ calls, table.recorded.Reachable (state, calls) ∧ (∃ tpa, Run table.layout calls tpa) ∧
    ∀ tpa, Run table.layout calls tpa → Refines table.layout tpa (table.view state).entries

/-- The next number of a table is unused. -/
theorem Table.numbered {state : State} (reachable : system.Reachable state) : (table.view state).Numbered := by
  apply reachable.invariant
  · intro start initial
    obtain ⟨none, small⟩ := table.initially start initial
    exact ⟨small, fun _ _ _ => by rw [none]⟩
  · exact fun before event after numbered taken => (table.changed before event after taken).numbered numbered

theorem Op.idx_lt {α : Type} (op : Op α) : op.idx < 2 ^ 64 := by
  cases op with
  | store idx entry => exact idx.isLt
  | clear idx => exact idx.isLt

/-- Calls reach indices that are words only. -/
theorem contents_bound {α : Type} (ops : List (Op α)) {idx : Nat} (present : contents ops idx ≠ none) :
    idx < 2 ^ 64 := by
  induction ops using reverseRecOn with
  | nil => exact absurd rfl present
  | append_singleton ops op ih =>
    rw [contents_append] at present
    by_cases here : idx = op.idx
    · exact here ▸ op.idx_lt
    · rw [update_of_ne here] at present
      exact ih present

/-- One more call. -/
theorem AllAllowed.append {α : Type} {layout : Layout} {ops : List (Op α)} {op : Op α}
    (allowed : AllAllowed layout ops) (last : Allowed layout (contents ops) op) : AllAllowed layout (ops ++ [op]) := by
  intro earlier other isPrefix
  rcases prefix_concat_iff.mp isPrefix with whole | shorter
  · obtain ⟨rfl, same⟩ := append_inj' whole rfl
    obtain rfl : other = op := by simpa using same
    exact last
  · exact allowed earlier other shorter

/-- An allowed call of a run is one more call on the array, with the same entries. -/
theorem Changed.append {layout : Layout} {calls : List (Op Unit)} {view after : View} {call : Option (Op Unit)}
    (change : Changed view call after) (word : view.next < 2 ^ 64) (allowed : AllAllowed layout calls)
    (same : contents calls = view.entries) (kept : ∀ op, call = some op → Allowed layout view.entries op) :
    after.next < 2 ^ 64 ∧ AllAllowed layout (calls ++ call.toList) ∧
      contents (calls ++ call.toList) = after.entries := by
  rw [← same] at kept
  cases change with
  | same => simpa using ⟨word, allowed, same⟩
  | made left =>
    refine ⟨u64_lt _, allowed.append (kept _ rfl), (contents_append ..).trans ?_⟩
    rw [Op.idx, word_val word, same]
    rfl
  | ended present =>
    rw [← same] at present
    refine ⟨word, allowed.append (kept _ rfl), (contents_append ..).trans ?_⟩
    rw [Op.idx, word_val (contents_bound calls present), same]
    rfl

/-- As long as all calls are allowed, the array of a table has the entries of the table. -/
theorem Table.backed {condition : State → Event → Prop} {state : State}
    (kept : ∀ state event, condition state event → table.Kept state event)
    (reachable : (system.under condition).Reachable state) : table.Backed state := by
  have recorded : ∃ calls, table.recorded.Reachable (state, calls) ∧ (table.view state).next < 2 ^ 64 ∧
      AllAllowed table.layout calls ∧ contents calls = (table.view state).entries := by
    apply reachable.invariant
    · intro start initial
      obtain ⟨none, word⟩ := table.initially start initial
      refine ⟨[], reachable_initial ⟨initial, rfl⟩, word, ?_, none.symm⟩
      intro earlier op isPrefix
      simp at isPrefix
    · rintro before event after ⟨calls, recorded, word, allowed, same⟩ ⟨met, taken⟩
      have next := (table.changed before event after taken).append word allowed same (kept before event met)
      exact ⟨calls ++ (table.call before event).toList, reachable_step recorded ⟨taken, rfl⟩, next⟩
  obtain ⟨calls, reached, _, allowed, same⟩ := recorded
  refine ⟨calls, reached, exists_run calls allowed, fun tpa run => ?_⟩
  obtain ⟨items, faithful⟩ := run_faithful run allowed
  exact same ▸ faithful_refines faithful

end Lfos.ThinArray
