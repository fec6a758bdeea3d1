import Mathlib.Data.Option.Basic
import Lfos.Associations

/-!
# The map of tiny-stl

A map is a binary tree that is not balanced. Keys are compared in two ways: a search stops where
`==` holds, and goes to the right where `Compare` says that the key of a node is smaller. The place
for a new key is found by the second comparison alone, after a search has shown that there is no
such key.

A node never moves, so that the way from the root to it serves as its address. References that
`operator[]` has returned stay valid and may be written at any later time. The map has only a reference
to the object that compares, which for the default one is a temporary: what the object is may differ from call to call.
-/

namespace Lfos.TinyMap

open Associations List Option Bool

universe u v w
variable {κ : Type u} {α : Type v} {ω : Type w}

section

inductive Tree (κ : Type u) (α : Type v) where
  | null
  | node (key : κ) (data : α) (leftChild rightChild : Tree κ α)

inductive Side where
  | left
  | right
  deriving DecidableEq, Repr

/-- The address of a node. -/
abbrev Path := List Side

variable [BEq κ] (compare : κ → κ → Bool)

def findEntry (key : κ) : Tree κ α → Option Path
  | .null => none
  | .node nodeKey _ leftChild rightChild =>
    if nodeKey == key then some []
    else if compare nodeKey key then (findEntry key rightChild).map (Side.right :: ·)
    else (findEntry key leftChild).map (Side.left :: ·)

/-- The loop of `insert`: descend to a child that is null, and put a node there. -/
def place (key : κ) (value : α) : Tree κ α → Tree κ α × Path
  | .null => (.node key value .null .null, [])
  | .node nodeKey data leftChild rightChild =>
    if compare nodeKey key then
      (.node nodeKey data leftChild (place key value rightChild).1, .right :: (place key value rightChild).2)
    else (.node nodeKey data (place key value leftChild).1 rightChild, .left :: (place key value leftChild).2)

def insert (tree : Tree κ α) (key : κ) (value : α) : (Tree κ α × Path) × Bool :=
  match findEntry compare key tree with
  | some existing => ((tree, existing), false)
  | none => (place compare key value tree, true)

def contains (tree : Tree κ α) (key : κ) : Bool := (findEntry compare key tree).isSome

/-- `operator[]`, which returns a reference. `T()` is the value for a key that is absent. -/
def index (initial : α) (tree : Tree κ α) (key : κ) : Tree κ α × Path :=
  match findEntry compare key tree with
  | some path => (tree, path)
  | none => (insert compare tree key initial).1

def size : Tree κ α → Nat
  | .null => 0
  | .node _ _ leftChild rightChild => size leftChild + size rightChild + 1

/-- The constructor. -/
def construct (init : List (κ × α)) : Tree κ α :=
  init.foldl (fun tree value => (insert compare tree value.1 value.2).1.1) .null

/-- The node at an address. -/
def node : Tree κ α → Path → Option (κ × α)
  | .null, _ => none
  | .node key data _ _, [] => some (key, data)
  | .node _ _ leftChild _, .left :: rest => node leftChild rest
  | .node _ _ _ rightChild, .right :: rest => node rightChild rest

/-- A write through a reference. -/
def write (value : α) : Tree κ α → Path → Tree κ α
  | .null, _ => .null
  | .node key _ leftChild rightChild, [] => .node key value leftChild rightChild
  | .node key data leftChild rightChild, .left :: rest => .node key data (write value leftChild rest) rightChild
  | .node key data leftChild rightChild, .right :: rest => .node key data leftChild (write value rightChild rest)

end

section

/-- What is done with a map. References are counted in the order in which they were returned. -/
inductive Operation (κ : Type u) (α : Type v) where
  | insert (key : κ) (value : α)
  | contains (key : κ)
  | index (key : κ)
  | read (reference : Nat)
  | write (reference : Nat) (value : α)
  | size

inductive Answer (α : Type v) where
  | inserted (new : Bool)
  | contained (there : Bool)
  | value (found : Option α)
  | written
  | number (size : Nat)
  deriving DecidableEq

/-- A map and the references into it. -/
structure State (κ : Type u) (α : Type v) where
  tree : Tree κ α
  references : List Path

variable [BEq κ] (compare : κ → κ → Bool) (initial : α)

def step (state : State κ α) : Operation κ α → State κ α × Answer α
  | .insert key value =>
    ({ state with tree := (insert compare state.tree key value).1.1 }, .inserted (insert compare state.tree key value).2)
  | .contains key => (state, .contained (contains compare state.tree key))
  | .index key =>
    (⟨(index compare initial state.tree key).1, state.references ++ [(index compare initial state.tree key).2]⟩,
      .value ((node (index compare initial state.tree key).1 (index compare initial state.tree key).2).map Prod.snd))
  | .read reference => (state, .value ((state.references[reference]?.bind (node state.tree)).map Prod.snd))
  | .write reference value =>
    (match state.references[reference]? with
      | some path => { state with tree := write value state.tree path }
      | none => state, .written)
  | .size => (state, .number (size state.tree))

/-- The state after a sequence of calls, and their answers. At each call `_compare` refers to some object. -/
def run (compare : ω → κ → κ → Bool) (state : State κ α) : List (ω × Operation κ α) → State κ α × List (Answer α)
  | [] => (state, [])
  | (object, operation) :: rest =>
    ((run compare (step (compare object) initial state operation).1 rest).1,
      (step (compare object) initial state operation).2 ::
        (run compare (step (compare object) initial state operation).1 rest).2)

/-- A finite map, by its entries, and the keys that references are to. -/
structure Abstract (κ : Type u) (α : Type v) where
  entries : List (κ × α)
  references : List κ

/-- A key that is present keeps its value. -/
def insertAbsent (entries : List (κ × α)) (key : κ) (value : α) : List (κ × α) × Bool :=
  match entries.lookup key with
  | some _ => (entries, false)
  | none => (put key value entries, true)

def abstractStep (state : Abstract κ α) : Operation κ α → Abstract κ α × Answer α
  | .insert key value =>
    ({ state with entries := (insertAbsent state.entries key value).1 }, .inserted (insertAbsent state.entries key value).2)
  | .contains key => (state, .contained (state.entries.lookup key).isSome)
  | .index key =>
    (⟨(insertAbsent state.entries key initial).1, state.references ++ [key]⟩,
      .value ((insertAbsent state.entries key initial).1.lookup key))
  | .read reference => (state, .value (state.references[reference]?.bind (fun key => state.entries.lookup key)))
  | .write reference value =>
    (match state.references[reference]? with
      | some key => { state with entries := put key value state.entries }
      | none => state, .written)
  | .size => (state, .number state.entries.length)

def abstractRun (state : Abstract κ α) : List (Operation κ α) → Abstract κ α × List (Answer α)
  | [] => (state, [])
  | operation :: rest =>
    ((abstractRun (abstractStep initial state operation).1 rest).1,
      (abstractStep initial state operation).2 :: (abstractRun (abstractStep initial state operation).1 rest).2)

def abstractConstruct (init : List (κ × α)) : List (κ × α) :=
  init.foldl (fun entries value => (insertAbsent entries value.1 value.2).1) []

end

variable {compare : κ → κ → Bool} {key other : κ} {value : α} {tree : Tree κ α} {path : Path}

section

def keys : Tree κ α → List κ
  | .null => []
  | .node key _ leftChild rightChild => keys leftChild ++ key :: keys rightChild

/-- The keys on the left are smaller, those on the right larger. -/
def Ordered (compare : κ → κ → Bool) : Tree κ α → Prop
  | .null => True
  | .node key _ leftChild rightChild =>
    Ordered compare leftChild ∧ Ordered compare rightChild ∧
      (∀ smaller ∈ keys leftChild, compare smaller key) ∧ ∀ larger ∈ keys rightChild, compare key larger

variable {inner : Path} {entry : κ × α}

theorem node_key_mem (there : node tree path = some entry) : entry.1 ∈ keys tree := by
  fun_induction node tree path with
  | case1 => exact nomatch there
  | case2 =>
    cases there
    exact mem_append_right _ mem_cons_self
  | case3 _ _ _ _ _ ih => exact mem_append_left _ (ih there)
  | case4 _ _ _ _ _ ih => exact mem_append_right _ (mem_cons_of_mem _ (ih there))

theorem keys_place : other ∈ keys (place compare key value tree).1 ↔ other = key ∨ other ∈ keys tree := by
  fun_induction place compare key value tree with
  | case1 => simp [keys]
  | case2 | case3 =>
    simp only [keys, mem_append, mem_cons]
    tauto

theorem size_place : size (place compare key value tree).1 = size tree + 1 := by
  fun_induction place compare key value tree with
  | case1 => rfl
  | case2 | case3 =>
    simp only [size]
    omega

theorem node_place_self : node (place compare key value tree).1 (place compare key value tree).2 = some (key, value) := by
  fun_induction place compare key value tree with
  | case1 => rfl
  | case2 _ _ _ _ _ ih | case3 _ _ _ _ _ ih => exact ih

/-- Nodes stay where they are. -/
theorem node_place (there : node tree path = some entry) : node (place compare key value tree).1 path = some entry := by
  fun_induction place compare key value tree generalizing path with
  | case1 => exact nomatch there
  | case2 _ _ _ _ _ ih =>
    match path with
    | [] | .left :: rest => exact there
    | .right :: rest => exact ih there
  | case3 _ _ _ _ _ ih =>
    match path with
    | [] | .right :: rest => exact there
    | .left :: rest => exact ih there

theorem keys_write : keys (write value tree path) = keys tree := by
  fun_induction write value tree path with
  | case1 | case2 => rfl
  | case3 _ _ _ _ _ ih | case4 _ _ _ _ _ ih => rw [keys, keys, ih]

theorem size_write : size (write value tree path) = size tree := by
  fun_induction write value tree path with
  | case1 | case2 => rfl
  | case3 _ _ _ _ _ ih | case4 _ _ _ _ _ ih => rw [size, size, ih]

theorem ordered_write (ordered : Ordered compare tree) : Ordered compare (write value tree path) := by
  fun_induction write value tree path with
  | case1 => trivial
  | case2 => exact ordered
  | case3 _ _ _ _ _ ih =>
    rw [Ordered, keys_write]
    exact ⟨ih ordered.1, ordered.2⟩
  | case4 _ _ _ _ _ ih =>
    rw [Ordered, keys_write]
    exact ⟨ordered.1, ih ordered.2.1, ordered.2.2⟩

theorem node_write_self {old : κ × α} (there : node tree path = some old) :
    node (write value tree path) path = some (old.1, value) := by
  fun_induction write value tree path with
  | case1 => exact nomatch there
  | case2 =>
    cases there
    rfl
  | case3 _ _ _ _ _ ih | case4 _ _ _ _ _ ih => exact ih there

theorem node_write_other (different : inner ≠ path) : node (write value tree path) inner = node tree inner := by
  fun_induction write value tree path generalizing inner with
  | case1 => rfl
  | case2 =>
    match inner with
    | [] => exact absurd rfl different
    | .left :: _ | .right :: _ => rfl
  | case3 _ _ _ _ _ ih =>
    match inner with
    | [] | .right :: _ => rfl
    | .left :: further => exact ih (fun same => different (congrArg _ same))
  | case4 _ _ _ _ _ ih =>
    match inner with
    | [] | .left :: _ => rfl
    | .right :: further => exact ih (fun same => different (congrArg _ same))

end

section

/-- `Compare` is a strict total order that agrees with `==`. -/
structure Total [BEq κ] (compare : κ → κ → Bool) : Prop where
  irreflexive : ∀ {key other}, key == other → compare key other = false
  transitive : ∀ {one two three}, compare one two → compare two three → compare one three
  total : ∀ {key other}, (key == other) = false → compare key other ∨ compare other key

variable [BEq κ] {bound : κ}

theorem Total.not_smaller (total : Total compare) (same : key == other) : ¬compare key other := by
  rw [total.irreflexive same]
  exact false_ne_true

theorem Total.different (total : Total compare) (smaller : compare key other) : (key == other) = false := by
  apply eq_false_iff.mpr
  intro same
  exact total.not_smaller same smaller

/-- A key is that of a node, or belongs to one side of it. -/
theorem Total.trichotomy (total : Total compare) (key other : κ) :
    (key == other) = true ∨ compare key other = true ∨ compare other key = true := by
  cases same : key == other with
  | true => exact .inl rfl
  | false => exact .inr (total.total same)

variable [EquivBEq κ]

theorem Total.asymmetric (total : Total compare) (smaller : compare key other) : compare other key = false := by
  apply eq_false_iff.mpr
  intro larger
  exact total.not_smaller BEq.rfl (total.transitive smaller larger)

theorem Total.congr_left (total : Total compare) (same : key == other) (smaller : compare other bound) :
    compare key bound := by
  rcases total.trichotomy key bound with equal | right | wrong
  · exact absurd smaller (total.not_smaller (BEq.trans (BEq.symm same) equal))
  · exact right
  · exact absurd (total.transitive smaller wrong) (total.not_smaller (BEq.symm same))

theorem Total.congr_right (total : Total compare) (same : key == other) (larger : compare bound other) :
    compare bound key := by
  rcases total.trichotomy bound key with equal | right | wrong
  · exact absurd larger (total.not_smaller (BEq.trans equal same))
  · exact right
  · exact absurd (total.transitive wrong larger) (total.not_smaller same)

end

section

/-! Both walks take the same way where the order decides. -/

variable {nodeKey : κ} {data : α} {leftChild rightChild : Tree κ α}

theorem place_right (larger : compare nodeKey key) : place compare key value (.node nodeKey data leftChild rightChild) =
    (.node nodeKey data leftChild (place compare key value rightChild).1,
    .right :: (place compare key value rightChild).2) := by
  rw [place, if_pos larger]

variable [BEq κ]

theorem findEntry_same (same : nodeKey == key) : findEntry compare key (.node nodeKey data leftChild rightChild) = some [] := by
  rw [findEntry, if_pos same]

/-- What a search finds is a node with the key. -/
theorem findEntry_node (found : findEntry compare key tree = some path) :
    ∃ entry, node tree path = some entry ∧ entry.1 == key := by
  fun_induction findEntry compare key tree generalizing path with
  | case1 => exact nomatch found
  | case2 _ _ _ _ same =>
    cases found
    exact ⟨_, rfl, same⟩
  | case3 _ _ _ _ _ _ ih | case4 _ _ _ _ _ _ ih =>
    obtain ⟨rest, inside, rfl⟩ := map_eq_some_iff.mp found
    exact ih inside

theorem findEntry_right (total : Total compare) (larger : compare nodeKey key) :
    findEntry compare key (.node nodeKey data leftChild rightChild) =
    (findEntry compare key rightChild).map (Side.right :: ·) := by
  rw [findEntry, if_neg (eq_false_iff.mp (total.different larger)), if_pos larger]

/-- From the left to the right the keys increase. -/
theorem ordered_keys (total : Total compare) (ordered : Ordered compare tree) :
    (keys tree).Pairwise (fun one other => compare one other) := by
  induction tree with
  | null => exact .nil
  | node key data leftChild rightChild left right =>
    obtain ⟨leftOrdered, rightOrdered, smaller, larger⟩ := ordered
    rw [keys, pairwise_append, pairwise_cons]
    refine ⟨left leftOrdered, ⟨larger, right rightOrdered⟩, ?_⟩
    intro one inLeft other member
    rcases mem_cons.mp member with rfl | inRight
    · exact smaller one inLeft
    · exact total.transitive (smaller one inLeft) (larger other inRight)

/-- A write changes no key. -/
theorem findEntry_write : findEntry compare key (write value tree path) = findEntry compare key tree := by
  fun_induction write value tree path with
  | case1 | case2 => rfl
  | case3 _ _ _ _ _ ih | case4 _ _ _ _ _ ih => rw [findEntry, findEntry, ih]

variable [EquivBEq κ] (total : Total compare)
include total

theorem findEntry_left (smaller : compare key nodeKey) :
    findEntry compare key (.node nodeKey data leftChild rightChild) =
    (findEntry compare key leftChild).map (Side.left :: ·) := by
  have apart : (nodeKey == key) = false := BEq.comm.trans (total.different smaller)
  rw [findEntry, if_neg (eq_false_iff.mp apart), if_neg (eq_false_iff.mp (total.asymmetric smaller))]

theorem place_left (smaller : compare key nodeKey) : place compare key value (.node nodeKey data leftChild rightChild) =
    (.node nodeKey data (place compare key value leftChild).1 rightChild,
    .left :: (place compare key value leftChild).2) := by
  rw [place, if_neg (eq_false_iff.mp (total.asymmetric smaller))]

/-- A search that fails at a node fails on one side of it. -/
theorem findEntry_none (absent : findEntry compare key (.node nodeKey data leftChild rightChild) = none) :
    (compare nodeKey key ∧ findEntry compare key rightChild = none) ∨
    (compare key nodeKey ∧ findEntry compare key leftChild = none) := by
  rcases total.trichotomy nodeKey key with same | larger | smaller
  · rw [findEntry_same same] at absent
    exact nomatch absent
  · rw [findEntry_right total larger, map_eq_none_iff] at absent
    exact .inl ⟨larger, absent⟩
  · rw [findEntry_left total smaller, map_eq_none_iff] at absent
    exact .inr ⟨smaller, absent⟩

/-- In an ordered tree every node is found. -/
theorem findEntry_of_node (ordered : Ordered compare tree)
    (there : node tree path = some entry) (same : entry.1 == key) : findEntry compare key tree = some path := by
  induction tree generalizing path with
  | null => exact nomatch there
  | node nodeKey data leftChild rightChild left right =>
    obtain ⟨leftOrdered, rightOrdered, smaller, larger⟩ := ordered
    match path with
    | [] =>
      cases there
      exact findEntry_same same
    | .left :: rest =>
      rw [findEntry_left total (total.congr_left (BEq.symm same) (smaller entry.1 (node_key_mem there))), left leftOrdered there]
      rfl
    | .right :: rest =>
      rw [findEntry_right total (total.congr_right (BEq.symm same) (larger entry.1 (node_key_mem there))),
        right rightOrdered there]
      rfl

/-- The search before it is what makes one direction of the comparison enough. -/
theorem ordered_place (ordered : Ordered compare tree) (absent : findEntry compare key tree = none) :
    Ordered compare (place compare key value tree).1 := by
  induction tree with
  | null => exact ⟨trivial, trivial, nofun, nofun⟩
  | node nodeKey data leftChild rightChild left right =>
    obtain ⟨leftOrdered, rightOrdered, smaller, larger⟩ := ordered
    rcases findEntry_none total absent with ⟨above, none⟩ | ⟨below, none⟩
    · rw [place_right above]
      refine ⟨leftOrdered, right rightOrdered none, smaller, ?_⟩
      simp only [keys_place, forall_eq_or_imp]
      exact ⟨above, larger⟩
    · rw [place_left total below]
      refine ⟨left leftOrdered none, rightOrdered, ?_, larger⟩
      simp only [keys_place, forall_eq_or_imp]
      exact ⟨below, smaller⟩

/-- A new key is found at its place, and the others where they were. -/
theorem findEntry_place (absent : findEntry compare key tree = none) :
    findEntry compare other (place compare key value tree).1 =
    if other == key then some (place compare key value tree).2 else findEntry compare other tree := by
  induction tree with
  | null =>
    change findEntry compare other (.node key value .null .null) = if other == key then some [] else none
    rw [findEntry, BEq.comm]
    split
    · rfl
    · split <;> rfl
  | node nodeKey data leftChild rightChild left right =>
    rcases findEntry_none total absent with ⟨above, none⟩ | ⟨below, none⟩
    · rw [place_right above]
      rcases total.trichotomy nodeKey other with same | larger | smaller
      · have apart := total.different (total.congr_left (BEq.symm same) above)
        rw [findEntry_same same, findEntry_same same, apart]
        rfl
      · rw [findEntry_right total larger, findEntry_right total larger, right none]
        split <;> rfl
      · have apart := total.different (total.transitive smaller above)
        rw [findEntry_left total smaller, findEntry_left total smaller, apart]
        rfl
    · rw [place_left total below]
      rcases total.trichotomy nodeKey other with same | larger | smaller
      · have apart := BEq.comm.trans (total.different (total.congr_right (BEq.symm same) below))
        rw [findEntry_same same, findEntry_same same, apart]
        rfl
      · have apart := BEq.comm.trans (total.different (total.transitive below larger))
        rw [findEntry_right total larger, findEntry_right total larger, apart]
        rfl
      · rw [findEntry_left total smaller, findEntry_left total smaller, left none]
        split <;> rfl

end

end Lfos.TinyMap
