import Mathlib.Algebra.Order.Ring.Int
import Lfos.Associations

/-!
# The numbers of the interfaces

The code generator keeps a tree of keys. Every key has a number that is not used by its siblings,
and the numbers along a path of keys identify a part of the interface between the kernel and
programs. Numbers that are missing are made when a path is asked for, as one more than the largest
number of the siblings. They are never changed.

Perl keeps whole numbers in 64 bits and turns a sum that does not fit into a double, and `max`
compares doubles. So numbers have to stay below `2 ^ 53`, above which doubles are not exact. The
file that the tree is kept in is left out.
-/

namespace Lfos.InterfaceNumbers

open Associations List Option

/-- A key of the tree. A node that was loaded from a file may have neither a number nor children. -/
inductive Node where
  | node (id : Option Int) (children : Option (List (String × Node)))

def Node.id : Node → Option Int
  | .node id _ => id

def Node.children : Node → Option (List (String × Node))
  | .node _ children => children

/-- The keys below one parent. -/
abbrev Hash := List (String × Node)

/-- The loop of `retrieve`, which stops where there are no children; what is missing is undefined. -/
def retrieveFrom : Option Hash → List String → List (Option Int)
  | none, keys => List.replicate keys.length none
  | some _, [] => []
  | some current, key :: rest =>
    match current.lookup key with
    | some node => node.id :: retrieveFrom node.children rest
    | none => none :: retrieveFrom none rest

def retrieve (root : Hash) (keys : List String) : List (Option Int) := retrieveFrom (some root) keys

/-- The double that is closest to a whole number: 53 bits of it, rounded to even. -/
def double (number : Int) : Int :=
  let unit := 2 ^ (number.natAbs.log2 - 52)
  let bits := number.natAbs / unit
  let rest := number.natAbs % unit
  number.sign * ((if unit < 2 * rest ∨ unit = 2 * rest ∧ bits % 2 = 1 then bits + 1 else bits) * unit : Nat)

/-- The loop of `max`, which keeps the first of the largest numbers. -/
def maxFrom (most : Int) : List Int → Int
  | [] => most
  | id :: rest => maxFrom (if double most < double id then id else most) rest

/-- The largest number below a parent. What is undefined counts as 0. -/
def maxId (parent : Hash) : Int :=
  match parent.map (fun entry => entry.2.id.getD 0) with
  | [] => 0
  | id :: rest => maxFrom id rest

/-- `1 + $max_id`, a double if it is no word. -/
def increment (id : Int) : Int :=
  if -2 ^ 63 ≤ 1 + id ∧ 1 + id < 2 ^ 64 then 1 + id else double (1 + double id)

/-- The node of a key, made or completed. -/
def completed (parent : Hash) (key : String) : Node :=
  let newId := increment (maxId parent)
  let node := (parent.lookup key).getD (.node (some newId) (some []))
  .node (some (node.id.getD newId)) (some (node.children.getD []))

def ensureSingle (parent : Hash) (key : String) : Hash := put key (completed parent key) parent

/-- The loop of `ensure`. The children of each key are changed in place. -/
def ensureKeys : Hash → List String → Hash
  | current, [] => current
  | current, key :: rest =>
    let node := completed current key
    put key (.node node.id (some (ensureKeys (node.children.getD []) rest))) (ensureSingle current key)

def ensure (root : Hash) (keys : List String) : Hash :=
  if (retrieve root keys).all Option.isSome then root else ensureKeys root keys

def ensureAll (root : Hash) (paths : List (List String)) : Hash := paths.foldl ensure root

/-- Siblings have numbers, and different ones, up to a bound. -/
structure Siblings (bound : Nat) (parent : Hash) : Prop where
  defined : ∀ key node, parent.lookup key = some node → node.id ≠ none
  small : ∀ entry ∈ parent, ∀ id, entry.2.id = some id → id.natAbs ≤ bound
  apart : ∀ key other node sibling, parent.lookup key = some node → parent.lookup other = some sibling →
    key ≠ other → node.id ≠ sibling.id

/-- So it is at every level of a tree. -/
inductive Sound (bound : Nat) : Hash → Prop where
  | intro {parent : Hash} (siblings : Siblings bound parent)
      (inner : ∀ key node children, parent.lookup key = some node → node.children = some children →
        Sound bound children) : Sound bound parent

variable {bound : Nat}

theorem Sound.siblings {parent : Hash} (sound : Sound bound parent) : Siblings bound parent := by
  cases sound
  assumption

theorem Sound.inner {parent children : Hash} {key : String} {node : Node} (sound : Sound bound parent)
    (there : parent.lookup key = some node) (inside : node.children = some children) : Sound bound children := by
  cases sound with
  | intro _ inner => exact inner key node children there inside

theorem sound_nil : Sound bound [] := .intro ⟨nofun, nofun, nofun⟩ nofun

/-- A larger bound holds as well. -/
theorem Sound.succ {parent : Hash} (sound : Sound bound parent) : Sound (bound + 1) parent := by
  induction sound with
  | intro siblings _ ih =>
    exact .intro ⟨siblings.defined,
      fun entry member id has => Nat.le_succ_of_le (siblings.small entry member id has), siblings.apart⟩ ih

/-- The entry of a key where there may be no hash. -/
def entry (current : Option Hash) (key : String) : Option Node := current.bind (fun hash => hash.lookup key)

theorem retrieveFrom_cons (current : Option Hash) (key : String) (rest : List String) :
    retrieveFrom current (key :: rest) =
    (entry current key).bind Node.id :: retrieveFrom ((entry current key).bind Node.children) rest := by
  cases current with
  | none =>
    rw [retrieveFrom, length_cons, replicate_succ, entry, bind_none, bind_none, bind_none, retrieveFrom]
  | some hash =>
    change (match hash.lookup key with
      | some node => node.id :: retrieveFrom node.children rest
      | none => none :: retrieveFrom none rest) =
        (hash.lookup key).bind Node.id :: retrieveFrom ((hash.lookup key).bind Node.children) rest
    cases hash.lookup key <;> rfl

theorem retrieveFrom_length (current : Option Hash) (keys : List String) :
    (retrieveFrom current keys).length = keys.length := by
  induction keys generalizing current with
  | nil => cases current <;> rfl
  | cons key rest ih =>
    rw [retrieveFrom_cons, length_cons, length_cons, ih]

/-- The keys below a path. -/
def level : Option Hash → List String → Option Hash
  | current, [] => current
  | current, key :: rest => level ((entry current key).bind Node.children) rest

theorem Sound.level {root : Option Hash} {parent : Hash} {path : List String} (sound : ∀ hash, root = some hash → Sound bound hash)
    (found : level root path = some parent) : Sound bound parent := by
  induction path generalizing root with
  | nil => exact sound parent found
  | cons key rest ih =>
    apply ih _ found
    intro children inside
    obtain ⟨node, there, has⟩ := bind_eq_some_iff.mp inside
    obtain ⟨hash, isRoot, listed⟩ := bind_eq_some_iff.mp there
    exact (sound hash isRoot).inner listed has

/-- What is retrieved last is the number of the last key below the path before it. -/
theorem retrieveFrom_last (current : Option Hash) (path : List String) (key : String) :
    (retrieveFrom current (path ++ [key])).getLast? = some ((entry (level current path) key).bind Node.id) := by
  induction path generalizing current with
  | nil =>
    have ends : retrieveFrom ((entry current key).bind Node.children) [] = [] :=
      eq_nil_of_length_eq_zero (retrieveFrom_length _ [])
    rw [nil_append, retrieveFrom_cons, ends]
    rfl
  | cons first rest ih =>
    have nonempty (below : Option Hash) : retrieveFrom below (rest ++ [key]) ≠ [] := by
      apply ne_nil_of_length_pos
      rw [retrieveFrom_length, length_append]
      exact Nat.succ_pos _
    rw [cons_append, retrieveFrom_cons, getLast?_cons_of_ne_nil (nonempty _), ih]
    rfl

section

variable {parent : Hash} {key other : String} {node : Node}

/-- Numbers up to `2 ^ 53` are doubles. -/
theorem double_exact {number : Int} (small : number.natAbs ≤ 2 ^ 53) : double number = number := by
  by_cases largest : number.natAbs = 2 ^ 53
  · rcases Int.natAbs_eq number with same | same <;> rw [same, largest] <;> decide +kernel
  · have bits : number.natAbs.log2 - 52 = 0 := by
      by_cases zero : number.natAbs = 0
      · simp [zero]
      · have short := (Nat.log2_lt zero).mpr (Nat.lt_of_le_of_ne small largest)
        omega
    have whole : double number = number.sign * number.natAbs := by simp only [double, bits]; simp [Nat.mod_one]
    rw [whole, Int.sign_mul_natAbs]

/-- Among numbers that are doubles the loop finds the largest. -/
theorem maxFrom_spec {most : Int} {rest : List Int} (small : ∀ id ∈ most :: rest, id.natAbs ≤ 2 ^ 53) :
    maxFrom most rest ∈ most :: rest ∧ ∀ id ∈ most :: rest, id ≤ maxFrom most rest := by
  induction rest generalizing most with
  | nil => simp [maxFrom]
  | cons next rest ih =>
    simp only [forall_mem_cons] at small
    obtain ⟨smallMost, smallNext, others⟩ := small
    rw [maxFrom, double_exact smallMost, double_exact smallNext]
    split
    · obtain ⟨member, above⟩ := ih (forall_mem_cons.mpr ⟨smallNext, others⟩)
      simp only [forall_mem_cons] at above ⊢
      exact ⟨mem_cons_of_mem _ member, by omega, above⟩
    · obtain ⟨member, above⟩ := ih (forall_mem_cons.mpr ⟨smallMost, others⟩)
      simp only [forall_mem_cons] at above ⊢
      refine ⟨?_, above.1, by omega, above.2⟩
      rcases mem_cons.mp member with first | later
      · exact mem_cons.mpr (.inl first)
      · exact mem_cons_of_mem most (mem_cons_of_mem next later)

section

variable (siblings : Siblings bound parent) (exact : bound ≤ 2 ^ 53)
include siblings exact

/-- The largest number of the siblings is one of them, or 0 if there are none. -/
theorem maxId_spec : (maxId parent).natAbs ≤ bound ∧
    ∀ entry ∈ parent, ∀ id, entry.2.id = some id → id ≤ maxId parent := by
  have small : ∀ id ∈ parent.map (fun entry => entry.2.id.getD 0), id.natAbs ≤ bound := by
    simp only [List.mem_map, forall_exists_index, and_imp, forall_apply_eq_imp_iff₂]
    intro entry member
    cases has : entry.2.id with
    | none => exact Nat.zero_le _
    | some id => exact siblings.small entry member id has
  have listed (entry : String × Node) (member : entry ∈ parent) (id : Int) (has : entry.2.id = some id) :
      id ∈ parent.map (fun entry => entry.2.id.getD 0) :=
    mem_map.mpr ⟨entry, member, by rw [has]; rfl⟩
  unfold maxId
  split
  · next none =>
    refine ⟨Nat.zero_le _, fun entry member id has => ?_⟩
    exact absurd (none ▸ listed entry member id has) not_mem_nil
  · next most rest ids =>
    rw [ids] at small listed
    obtain ⟨member, above⟩ := maxFrom_spec (fun id member => Nat.le_trans (small id member) exact)
    exact ⟨small _ member, fun entry there id has => above id (listed entry there id has)⟩

/-- A new number is one more than the largest one. -/
theorem increment_maxId : increment (maxId parent) = 1 + maxId parent := by
  have small := (maxId_spec siblings exact).1
  rw [increment, if_pos (by omega)]

end

theorem completed_present (there : parent.lookup key = some node) (defined : node.id ≠ none) :
    (completed parent key).id = node.id := by
  obtain ⟨id, has⟩ := ne_none_iff_exists'.mp defined
  have kept : (completed parent key).id = some (node.id.getD (increment (maxId parent))) := by
    rw [completed, there]
    rfl
  rw [kept, has]
  rfl

theorem completed_absent (absent : parent.lookup key = none) :
    (completed parent key).id = some (increment (maxId parent)) := by
  rw [completed, absent]
  rfl

theorem completed_children (parent : Hash) (key : String) :
    (completed parent key).children = some (((parent.lookup key).bind Node.children).getD []) := by
  unfold completed
  cases parent.lookup key <;> rfl

theorem ensureKeys_self (current : Hash) (key : String) (rest : List String) :
    (ensureKeys current (key :: rest)).lookup key = some (.node (completed current key).id
    (some (ensureKeys (((current.lookup key).bind Node.children).getD []) rest))) := by
  rw [ensureKeys, lookup_put_self, completed_children]
  rfl

theorem ensureKeys_other (current : Hash) (rest : List String) (different : other ≠ key) :
    (ensureKeys current (key :: rest)).lookup other = current.lookup other := by
  have test : (other == key) = false := beq_eq_false_iff_ne.mpr different
  rw [ensureKeys, lookup_put_other test, ensureSingle, lookup_put_other test]

/-- A key that is made gets a number its siblings do not have. -/
theorem ensureKeys_siblings (siblings : Siblings bound parent) (exact : bound ≤ 2 ^ 53) (rest : List String) :
    Siblings (bound + 1) (ensureKeys parent (key :: rest)) := by
  -- the number of the key is its old one, or one that no sibling has
  have unlike (other : String) (sibling : Node) (different : other ≠ key) (there : parent.lookup other = some sibling) :
      (completed parent key).id ≠ sibling.id := by
    cases present : parent.lookup key with
    | none =>
      obtain ⟨_, _, member⟩ := lookup_mem there
      rw [completed_absent present, increment_maxId siblings exact]
      intro same
      have small := (maxId_spec siblings exact).2 _ member _ same.symm
      omega
    | some node =>
      rw [completed_present present (siblings.defined key node present)]
      exact siblings.apart key other node sibling present there (Ne.symm different)
  have bounded (id : Int) (has : (completed parent key).id = some id) : id.natAbs ≤ bound + 1 := by
    cases present : parent.lookup key with
    | none =>
      have largest := (maxId_spec siblings exact).1
      rw [completed_absent present, increment_maxId siblings exact] at has
      cases has
      omega
    | some node =>
      obtain ⟨_, _, member⟩ := lookup_mem present
      rw [completed_present present (siblings.defined key node present)] at has
      exact Nat.le_succ_of_le (siblings.small _ member id has)
  constructor
  · intro other found there
    by_cases same : other = key
    · obtain rfl := same
      rw [ensureKeys_self] at there
      cases there
      exact some_ne_none _
    · rw [ensureKeys_other parent rest same] at there
      exact siblings.defined other found there
  · intro entry member id has
    rcases mem_put member with there | ⟨isNew, _⟩
    · rcases mem_put there with old | ⟨made, _⟩
      · exact Nat.le_succ_of_le (siblings.small entry old id has)
      · exact bounded id (made ▸ has)
    · exact bounded id (by rw [isNew] at has; exact has)
  · intro one other found sibling there beside different
    by_cases first : one = key
    · obtain rfl := first
      rw [ensureKeys_self] at there
      rw [ensureKeys_other parent rest (Ne.symm different)] at beside
      cases there
      exact unlike other sibling (Ne.symm different) beside
    · rw [ensureKeys_other parent rest first] at there
      by_cases second : other = key
      · obtain rfl := second
        rw [ensureKeys_self] at beside
        cases beside
        exact (unlike one found different there).symm
      · rw [ensureKeys_other parent rest second] at beside
        exact siblings.apart one other found sibling there beside different

theorem ensureKeys_sound (sound : Sound bound parent) (exact : bound ≤ 2 ^ 53) (keys : List String) :
    Sound (bound + 1) (ensureKeys parent keys) := by
  induction keys generalizing parent with
  | nil => exact sound.succ
  | cons key rest ih =>
    refine .intro (ensureKeys_siblings sound.siblings exact rest) ?_
    intro other node children there inside
    by_cases same : other = key
    · obtain rfl := same
      rw [ensureKeys_self] at there
      cases there
      cases inside
      apply ih
      cases old : (parent.lookup other).bind Node.children with
      | none => exact sound_nil
      | some children =>
        obtain ⟨node, listed, has⟩ := bind_eq_some_iff.mp old
        exact sound.inner listed has
    · rw [ensureKeys_other parent rest same] at there
      exact (sound.inner there inside).succ

theorem ensure_sound (sound : Sound bound parent) (exact : bound ≤ 2 ^ 53) (keys : List String) :
    Sound (bound + 1) (ensure parent keys) := by
  unfold ensure
  split
  · exact sound.succ
  · exact ensureKeys_sound sound exact keys

/-- Each call raises the bound by one at most. -/
theorem ensureAll_sound (sound : Sound bound parent) (paths : List (List String))
    (exact : bound + paths.length ≤ 2 ^ 53) : Sound (bound + paths.length) (ensureAll parent paths) := by
  induction paths generalizing parent bound with
  | nil => exact sound
  | cons path rest ih =>
    rw [length_cons] at exact ⊢
    have made := ih (ensure_sound sound (by omega) path) (by omega)
    rwa [Nat.add_right_comm, Nat.add_assoc] at made

/-- Every key of the path has a number afterwards. -/
theorem ensureKeys_full (parent : Hash) (keys : List String) :
    ∀ id ∈ retrieve (ensureKeys parent keys) keys, id ≠ none := by
  induction keys generalizing parent with
  | nil => exact nofun
  | cons key rest ih =>
    rw [retrieve, retrieveFrom_cons, entry, bind_some, ensureKeys_self]
    exact forall_mem_cons.mpr ⟨some_ne_none _, ih _⟩

theorem ensure_full (parent : Hash) (keys : List String) : ∀ id ∈ retrieve (ensure parent keys) keys, id ≠ none := by
  unfold ensure
  split
  · next all =>
    intro id member
    exact isSome_iff_ne_none.mp (all_eq_true.mp all id member)
  · exact ensureKeys_full parent keys

/-- Numbers that are defined stay, whatever the path is. -/
def Stable (old new : Option Hash) : Prop :=
  ∀ path (i : Nat) id, (retrieveFrom old path)[i]? = some (some id) → (retrieveFrom new path)[i]? = some (some id)

theorem Stable.refl (hash : Option Hash) : Stable hash hash := fun _ _ _ there => there

theorem Stable.trans {old middle new : Option Hash} (first : Stable old middle) (second : Stable middle new) :
    Stable old new := fun path i id there => second path i id (first path i id there)

theorem Stable.none (new : Option Hash) : Stable none new := by
  intro path i id there
  rw [retrieveFrom, getElem?_replicate] at there
  split at there
  · exact nomatch some.inj there
  · exact nomatch there

theorem Stable.cons {old new : Option Hash}
    (ids : ∀ key id, (entry old key).bind Node.id = some id → (entry new key).bind Node.id = some id)
    (children : ∀ key, Stable ((entry old key).bind Node.children) ((entry new key).bind Node.children)) : Stable old new := by
  intro path i id there
  cases path with
  | nil =>
    rw [eq_nil_of_length_eq_zero (retrieveFrom_length old [])] at there
    exact nomatch there
  | cons key rest =>
    rw [retrieveFrom_cons] at there ⊢
    cases i with
    | zero => exact congrArg some (ids key id (some.inj there))
    | succ i => exact children key rest i id there

/-- Only the nodes along the path are changed, and their numbers only if there are none. -/
theorem ensureKeys_stable (parent : Hash) (keys : List String) : Stable (some parent) (some (ensureKeys parent keys)) := by
  induction keys generalizing parent with
  | nil => exact Stable.refl _
  | cons key rest ih =>
    apply Stable.cons
    · intro other id has
      by_cases same : other = key
      · obtain rfl := same
        obtain ⟨node, there, number⟩ := bind_eq_some_iff.mp has
        rw [entry, bind_some, ensureKeys_self, bind_some, Node.id,
          completed_present there (by rw [number]; exact some_ne_none id), number]
      · rw [entry, bind_some, ensureKeys_other parent rest same]
        exact has
    · intro other
      by_cases same : other = key
      · obtain rfl := same
        rw [entry, entry, bind_some, bind_some, ensureKeys_self]
        cases (parent.lookup other).bind Node.children with
        | none => exact Stable.none _
        | some children => exact ih children
      · rw [entry, entry, bind_some, bind_some, ensureKeys_other parent rest same]
        exact Stable.refl _

theorem ensure_stable (parent : Hash) (keys : List String) : Stable (some parent) (some (ensure parent keys)) := by
  unfold ensure
  split
  · exact Stable.refl _
  · exact ensureKeys_stable parent keys

theorem ensureAll_stable (parent : Hash) (paths : List (List String)) :
    Stable (some parent) (some (ensureAll parent paths)) := by
  induction paths generalizing parent with
  | nil => exact Stable.refl _
  | cons path rest ih => exact (ensure_stable parent path).trans (ih _)

/-- After any calls of `ensure`, a path that is ensured has all its numbers, numbers that were
returned are returned for ever, and two keys below one parent have different numbers, as long as
the numbers can not have reached `2 ^ 53`. -/
theorem numbers_stable_unique {root : Hash} (sound : Sound bound root) (earlier later : List (List String))
    (path : List String) (exact : bound + earlier.length ≤ 2 ^ 53) :
    (retrieve (ensure (ensureAll root earlier) path) path).length = path.length ∧
    (∀ id ∈ retrieve (ensure (ensureAll root earlier) path) path, id ≠ none) ∧
    (∀ (i : Nat) id, (retrieve (ensureAll root earlier) path)[i]? = some (some id) →
      (retrieve (ensureAll (ensureAll root earlier) later) path)[i]? = some (some id)) ∧
    ∀ key other id, key ≠ other → (retrieve (ensureAll root earlier) (path ++ [key])).getLast? = some (some id) →
      (retrieve (ensureAll root earlier) (path ++ [other])).getLast? ≠ some (some id) := by
  refine ⟨retrieveFrom_length _ path, ensure_full _ path, ?_, ?_⟩
  · intro i id there
    exact ensureAll_stable (ensureAll root earlier) later path i id there
  · intro key other id different there
    rw [retrieve, retrieveFrom_last] at there ⊢
    intro beside
    obtain ⟨node, found, number⟩ := bind_eq_some_iff.mp (some.inj there)
    obtain ⟨sibling, alsoFound, sameNumber⟩ := bind_eq_some_iff.mp (some.inj beside)
    obtain ⟨parent, isParent, listed⟩ := bind_eq_some_iff.mp found
    rw [isParent] at alsoFound
    have siblings := (Sound.level (fun hash same => some.inj same ▸ ensureAll_sound sound earlier exact) isParent).siblings
    exact siblings.apart key other node sibling listed alsoFound different (number.trans sameNumber.symm)

/-- The tree of a file with one key that has no children yet. -/
theorem numbers_stable_unique_lazy :
    retrieve (ensureAll [("syscalls", .node (some 1) none)] [["syscalls", "group"], ["mq"], ["syscalls", "other"]])
      ["syscalls", "other"] = [some 1, some 2] ∧
    ∀ id ∈ retrieve (ensure [("syscalls", .node (some 1) none)] ["syscalls", "group"]) ["syscalls", "group"], id ≠ none := by
  have sound : Sound 1 [("syscalls", .node (some 1) none)] := by
    have only (key : String) (node : Node) (there : List.lookup key [("syscalls", Node.node (some 1) none)] = some node) :
        key = "syscalls" ∧ node = .node (some 1) none := by
      rw [lookup_cons] at there
      split at there
      · next same => exact ⟨eq_of_beq same, (some.inj there).symm⟩
      · exact nomatch there
    refine .intro ⟨?_, by simp [Node.id], ?_⟩ ?_
    · intro key node there
      rw [(only key node there).2]
      exact some_ne_none _
    · intro key other node sibling there beside different
      exact absurd ((only key node there).1.trans (only other sibling beside).1.symm) different
    · intro key node children there inside
      rw [(only key node there).2] at inside
      exact nomatch inside
  refine ⟨by decide +kernel, ?_⟩
  exact (numbers_stable_unique sound [] [] ["syscalls", "group"] (by decide)).2.1

/-- Doubles can not tell `2 ^ 53` from its successor, so the successor is given away twice. -/
theorem large_numbers_collide :
    let root : Hash := [("syscalls", .node (some (2 ^ 53)) none), ("mq", .node (some (2 ^ 53 + 1)) none)]
    retrieve (ensure root ["sd"]) ["sd"] = [some (2 ^ 53 + 1)] ∧
      retrieve (ensure root ["sd"]) ["mq"] = [some (2 ^ 53 + 1)] := by
  decide +kernel

end

end Lfos.InterfaceNumbers
