import Lfos.TinyMap

/-!
# The map of tiny-stl is a finite map

A tree stands for the entries of a map if it is ordered and a search leads to the value of every
key. References stand for keys. Every call keeps this and answers as the finite map does, if the
comparison does not depend on the object.
-/

namespace Lfos.TinyMap

open Associations List Option

universe u v w
variable {κ : Type u} {α : Type v} {ω : Type w}

section

variable [BEq κ] {compare : κ → κ → Bool} {initial : α} {key other : κ} {value : α} {tree : Tree κ α}
  {entries : List (κ × α)}

/-- The value that a search leads to. -/
def valueOf (compare : κ → κ → Bool) (tree : Tree κ α) (key : κ) : Option α :=
  ((findEntry compare key tree).bind (node tree)).map Prod.snd

/-- A tree stands for the entries of a map. -/
structure Stands (compare : κ → κ → Bool) (tree : Tree κ α) (entries : List (κ × α)) : Prop where
  ordered : Ordered compare tree
  values : ∀ key, entries.lookup key = valueOf compare tree key
  number : entries.length = size tree

/-- The node a reference leads to has its key. -/
def Leads (tree : Tree κ α) (path : Path) (key : κ) : Prop := ∃ entry, node tree path = some entry ∧ entry.1 == key

structure Represents (compare : κ → κ → Bool) (state : State κ α) (abstract : Abstract κ α) : Prop where
  stands : Stands compare state.tree abstract.entries
  references : List.Forall₂ (Leads state.tree) state.references abstract.references

theorem forall₂_at {ι : Type u} {τ : Type v} {relation : ι → τ → Prop} {left : List ι} {right : List τ}
    (related : List.Forall₂ relation left right) (i : Nat) : (left[i]? = none ∧ right[i]? = none) ∨
    ∃ one other, left[i]? = some one ∧ right[i]? = some other ∧ relation one other := by
  induction related generalizing i with
  | nil => exact .inl ⟨rfl, rfl⟩
  | cons first _ ih =>
    cases i with
    | zero => exact .inr ⟨_, _, rfl, rfl, first⟩
    | succ i => exact ih i

theorem stands_null : Stands compare (.null : Tree κ α) [] := ⟨trivial, fun _ => rfl, rfl⟩

theorem Stands.contains (stands : Stands compare tree entries) (key : κ) :
    (entries.lookup key).isSome = contains compare tree key := by
  rw [stands.values, TinyMap.contains, valueOf]
  cases found : findEntry compare key tree with
  | none => rfl
  | some path =>
    obtain ⟨entry, there, _⟩ := findEntry_node found
    rw [bind_some, there]
    rfl

theorem Stands.missing (stands : Stands compare tree entries) (absent : findEntry compare key tree = none) :
    entries.lookup key = none := by
  rw [stands.values, valueOf, absent]
  rfl

theorem put_length : (put key value entries).length = if (entries.lookup key).isSome then entries.length else entries.length + 1 := by
  cases found : entries.lookup key with
  | none =>
    rw [put_absent found, length_append]
    rfl
  | some old =>
    obtain ⟨before, same, after, _, parts, replaced⟩ := put_present value found
    rw [replaced, parts, length_append, length_append]
    rfl

variable {path : Path}

theorem Leads.place {new : κ} (leads : Leads tree path key) : Leads (place compare new value tree).1 path key := by
  obtain ⟨entry, there, same⟩ := leads
  exact ⟨entry, node_place there, same⟩

theorem Leads.write {place : Path} (leads : Leads tree path key) : Leads (write value tree place) path key := by
  obtain ⟨entry, there, same⟩ := leads
  by_cases here : path = place
  · obtain rfl := here
    exact ⟨_, node_write_self there, same⟩
  · exact ⟨entry, (node_write_other here).trans there, same⟩

/-- A new key is put at its place, or the tree stays. -/
theorem insert_cases (compare : κ → κ → Bool) (tree : Tree κ α) (key : κ) (value : α) :
    (findEntry compare key tree = none ∧ insert compare tree key value = (place compare key value tree, true)) ∨
    ∃ path, findEntry compare key tree = some path ∧ insert compare tree key value = ((tree, path), false) := by
  unfold insert
  cases findEntry compare key tree with
  | none => exact .inl ⟨rfl, rfl⟩
  | some path => exact .inr ⟨path, rfl, rfl⟩

/-- `operator[]` looks for the key once more than `insert` does. -/
theorem index_eq (initial : α) (tree : Tree κ α) (key : κ) :
    index compare initial tree key = (insert compare tree key initial).1 := by
  unfold index insert
  cases findEntry compare key tree <;> rfl

variable [EquivBEq κ]

section

variable (total : Total compare)
include total

theorem Stands.place (stands : Stands compare tree entries) (absent : findEntry compare key tree = none) :
    Stands compare (place compare key value tree).1 (put key value entries) := by
  refine ⟨ordered_place total stands.ordered absent, ?_, ?_⟩
  · intro other
    rw [valueOf, findEntry_place total absent]
    split
    · next same =>
      rw [lookup_put_of_beq same, bind_some, node_place_self]
      rfl
    · next different =>
      rw [lookup_put_other (Bool.eq_false_iff.mpr different), stands.values, valueOf]
      cases found : findEntry compare other tree with
      | none => rfl
      | some path =>
        obtain ⟨entry, there, _⟩ := findEntry_node found
        rw [bind_some, bind_some, there, node_place there]
  · rw [put_length, stands.missing absent, size_place, stands.number]
    rfl

theorem Leads.found (leads : Leads tree path key) (ordered : Ordered compare tree)
    (other : κ) (same : key == other) : findEntry compare other tree = some path := by
  obtain ⟨entry, there, equal⟩ := leads
  exact findEntry_of_node total ordered there (BEq.trans equal same)

section

variable (stands : Stands compare tree entries)
include stands

/-- A reference reads the value of its key. -/
theorem Leads.reads (leads : Leads tree path key) : (node tree path).map Prod.snd = entries.lookup key := by
  rw [stands.values, valueOf, leads.found total stands.ordered key BEq.rfl]
  rfl

theorem Stands.write
    (leads : Leads tree path key) : Stands compare (write value tree path) (put key value entries) := by
  have located := leads.found total stands.ordered
  have old := leads.reads total stands
  obtain ⟨entry, there, equal⟩ := leads
  refine ⟨ordered_write stands.ordered, ?_, ?_⟩
  · intro other
    rw [valueOf, findEntry_write]
    cases same : other == key with
    | true =>
      rw [lookup_put_of_beq same, located other (BEq.symm same), bind_some, node_write_self there]
      rfl
    | false =>
      rw [lookup_put_other same, stands.values, valueOf]
      cases found : findEntry compare other tree with
      | none => rfl
      | some place =>
        have elsewhere : place ≠ path := by
          rintro rfl
          obtain ⟨again, atPlace, isOther⟩ := findEntry_node found
          cases there.symm.trans atPlace
          rw [BEq.trans (BEq.symm isOther) equal] at same
          exact nomatch same
        rw [bind_some, bind_some, node_write_other elsewhere]
  · have present : (entries.lookup key).isSome := by
      rw [← old, there]
      rfl
    rw [put_length, if_pos present, size_write, stands.number]

theorem Stands.insert (key : κ) (value : α) :
    Stands compare (insert compare tree key value).1.1 (insertAbsent entries key value).1 ∧
    (insert compare tree key value).2 = (insertAbsent entries key value).2 ∧
    Leads (insert compare tree key value).1.1 (insert compare tree key value).1.2 key ∧
    ∀ path other, Leads tree path other → Leads (insert compare tree key value).1.1 path other := by
  rcases insert_cases compare tree key value with ⟨absent, inserted⟩ | ⟨path, found, kept⟩
  · rw [inserted, insertAbsent, stands.missing absent]
    exact ⟨stands.place total absent, rfl, ⟨_, node_place_self, BEq.rfl⟩, fun _ _ leads => leads.place⟩
  · obtain ⟨old, present⟩ : ∃ old, entries.lookup key = some old := by
      rw [← isSome_iff_exists, stands.contains, TinyMap.contains, found]
      rfl
    rw [kept, insertAbsent, present]
    exact ⟨stands, rfl, findEntry_node found, fun _ _ leads => leads⟩

end

/-- One call. -/
theorem Represents.step {state : State κ α} {abstract : Abstract κ α} (represents : Represents compare state abstract)
    (operation : Operation κ α) :
    Represents compare (step compare initial state operation).1 (abstractStep initial abstract operation).1 ∧
    (step compare initial state operation).2 = (abstractStep initial abstract operation).2 := by
  obtain ⟨stands, references⟩ := represents
  cases operation with
  | insert key value =>
    obtain ⟨inserted, answer, _, kept⟩ := stands.insert total key value
    exact ⟨⟨inserted, references.imp kept⟩, congrArg Answer.inserted answer⟩
  | contains key => exact ⟨⟨stands, references⟩, congrArg Answer.contained (stands.contains key).symm⟩
  | index key =>
    obtain ⟨inserted, _, leads, kept⟩ := stands.insert total key initial
    rw [TinyMap.step, index_eq]
    refine ⟨⟨inserted, rel_append (references.imp kept) (.cons leads .nil)⟩, ?_⟩
    exact congrArg Answer.value (leads.reads total inserted)
  | read reference =>
    refine ⟨⟨stands, references⟩, congrArg Answer.value ?_⟩
    rcases forall₂_at references reference with ⟨noPath, noKey⟩ | ⟨path, key, hasPath, hasKey, leads⟩
    · rw [noPath, noKey]
      rfl
    · rw [hasPath, hasKey]
      exact leads.reads total stands
  | write reference value =>
    rw [TinyMap.step, abstractStep]
    rcases forall₂_at references reference with ⟨noPath, noKey⟩ | ⟨path, key, hasPath, hasKey, leads⟩
    · rw [noPath, noKey]
      exact ⟨⟨stands, references⟩, rfl⟩
    · rw [hasPath, hasKey]
      exact ⟨⟨stands.write total leads, references.imp (fun _ _ other => other.write)⟩, rfl⟩
  | size => exact ⟨⟨stands, references⟩, congrArg Answer.number stands.number.symm⟩

theorem Represents.run {state : State κ α} {abstract : Abstract κ α} (represents : Represents compare state abstract)
    {objects : ω → κ → κ → Bool} (stateless : ∀ object, objects object = compare) (calls : List (ω × Operation κ α)) :
    Represents compare (run initial objects state calls).1 (abstractRun initial abstract (calls.map Prod.snd)).1 ∧
    (run initial objects state calls).2 = (abstractRun initial abstract (calls.map Prod.snd)).2 := by
  induction calls generalizing state abstract with
  | nil => exact ⟨represents, rfl⟩
  | cons call rest ih =>
    obtain ⟨kept, answer⟩ := represents.step total call.2
    obtain ⟨represented, answers⟩ := ih kept
    simp only [TinyMap.run, stateless]
    exact ⟨represented, cons_eq_cons.mpr ⟨answer, answers⟩⟩

theorem Stands.constructed (stands : Stands compare tree entries) (init : List (κ × α)) :
    Stands compare (init.foldl (fun tree value => (TinyMap.insert compare tree value.1 value.2).1.1) tree)
    (init.foldl (fun entries value => (insertAbsent entries value.1 value.2).1) entries) := by
  induction init generalizing tree entries with
  | nil => exact stands
  | cons first rest ih => exact ih (stands.insert total first.1 first.2).1

end

theorem insertAbsent_distinct (distinct : Distinct entries) (key : κ) (value : α) :
    Distinct (insertAbsent entries key value).1 := by
  unfold insertAbsent
  split
  · exact distinct
  · exact distinct.put

theorem abstractStep_distinct {state : Abstract κ α} (distinct : Distinct state.entries) (operation : Operation κ α) :
    Distinct (abstractStep initial state operation).1.entries := by
  cases operation with
  | insert key value => exact insertAbsent_distinct distinct key value
  | index key => exact insertAbsent_distinct distinct key initial
  | write reference value =>
    rw [abstractStep]
    split
    · exact distinct.put
    · exact distinct
  | contains _ | read _ | size => exact distinct

theorem abstractRun_distinct {state : Abstract κ α} (distinct : Distinct state.entries) (operations : List (Operation κ α)) :
    Distinct (abstractRun initial state operations).1.entries := by
  induction operations generalizing state with
  | nil => exact distinct
  | cons operation rest ih => exact ih (abstractStep_distinct distinct operation)

theorem abstractConstruct_distinct (init : List (κ × α)) : Distinct (abstractConstruct init) := by
  apply List.foldlRecOn init _ (List.Pairwise.nil : Distinct ([] : List (κ × α)))
  intro entries distinct value _
  exact insertAbsent_distinct distinct value.1 value.2

/-- A map whose comparison has no state answers every sequence of calls as a finite map does. -/
theorem map_is_finite_map {objects : ω → κ → κ → Bool} (stateless : ∀ object, objects object = compare)
    (total : Total compare) (initial : α) (init : List (κ × α)) (calls : List (ω × Operation κ α)) :
    (run initial objects ⟨construct compare init, []⟩ calls).2 =
      (abstractRun initial ⟨abstractConstruct init, []⟩ (calls.map Prod.snd)).2 ∧
    Distinct (abstractRun initial ⟨abstractConstruct init, []⟩ (calls.map Prod.snd)).1.entries ∧
    Ordered compare (run initial objects ⟨construct compare init, []⟩ calls).1.tree ∧
    (keys (run initial objects ⟨construct compare init, []⟩ calls).1.tree).Pairwise
      (fun one other => (one == other) = false) := by
  have constructed : Represents compare ⟨construct compare init, []⟩ ⟨abstractConstruct init, []⟩ :=
    ⟨stands_null.constructed total init, .nil⟩
  obtain ⟨represented, answers⟩ := constructed.run total stateless calls
  refine ⟨answers, abstractRun_distinct (abstractConstruct_distinct init) _, represented.stands.ordered, ?_⟩
  exact (ordered_keys total represented.stands.ordered).imp total.different

def natLess (one other : Nat) : Bool := decide (one < other)

theorem natLess_total : Total natLess where
  irreflexive := by
    intro key other same
    rw [eq_of_beq same]
    exact decide_eq_false (Nat.lt_irrefl other)
  transitive := by
    intro one two three first second
    exact decide_eq_true (Nat.lt_trans (of_decide_eq_true first) (of_decide_eq_true second))
  total := by
    intro key other different
    rcases Nat.lt_or_gt_of_ne (ne_of_beq_false different) with smaller | larger
    · exact .inl (decide_eq_true smaller)
    · exact .inr (decide_eq_true larger)

/-- Calls that find the comparing object with one value or another. -/
def someCalls : List (Bool × Operation Nat Bool) :=
  [(true, .insert 69 false), (false, .index 21), (true, .insert 23 true), (false, .write 0 true), (true, .index 21),
    (false, .size)]

/-- A value that is present stays, and a reference writes to the value of its key. -/
theorem map_is_finite_map_numbers :
    (run false (fun _ => natLess) ⟨construct natLess [(69, true), (21, false)], []⟩ someCalls).2 =
      [.inserted false, .value (some false), .inserted true, .written, .value (some true), .number 3] ∧
    (run false (fun _ => natLess) ⟨construct natLess [(69, true), (21, false)], []⟩ someCalls).2 =
      (abstractRun false ⟨abstractConstruct [(69, true), (21, false)], []⟩ (someCalls.map Prod.snd)).2 :=
  ⟨by decide, (map_is_finite_map (fun _ => rfl) natLess_total false [(69, true), (21, false)] someCalls).1⟩

end

end Lfos.TinyMap
