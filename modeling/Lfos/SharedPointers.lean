import Mathlib.Data.List.Count
import Mathlib.Data.List.Pairwise
import Mathlib.Data.List.Perm.Subperm
import Lfos.Associations
import Lfos.Transitions
import Lfos.Words

/-!
# The shared pointers of tiny-stl

Handles that share an object share a control block, which counts them. Constructors and the
destructor of a handle change the count. An assignment is the one that the compiler generates and
changes the handle only. So counts are right as long as handles are assigned among handles of the
same block.

Objects and control blocks are named by numbers that are used once; a handle is named by its
address. To delete what is deleted already, and to use a control block that is deleted, has no
result.
-/

namespace Lfos.SharedPointers

open Associations Transitions Words List Option Function
open Prod (fst snd)

/-- `ref_count_control_block` -/
structure Block where
  shared : Nat
  weak : Nat
  data : Option Nat
  deriving DecidableEq, Repr

/-- `shared_ptr` -/
structure Handle where
  ptr : Option Nat
  block : Nat
  deriving DecidableEq, Repr

inductive Deletion where
  | object (name : Nat)
  | block (name : Nat)
  deriving DecidableEq, Repr

/-- The objects and control blocks made so far, what there is, and what was deleted. -/
structure State where
  created : List Nat
  made : List (Nat × Option Nat)
  blocks : Nat → Option Block
  handles : List (Nat × Handle)
  deleted : List Deletion

def Block.incShared (block : Block) : Block :=
  { block with shared := u64 (block.shared + 1), weak := if block.weak = 0 then 1 else block.weak }

def incShared (state : State) (name : Nat) : Option State :=
  (state.blocks name).map (fun block => { state with blocks := update state.blocks name (some block.incShared) })

/-- `delete _data`, which does nothing for a null pointer. -/
def deleteObject (state : State) : Option Nat → Option State
  | none => some state
  | some object =>
    if .object object ∈ state.deleted then none
    else some { state with deleted := state.deleted ++ [.object object] }

/-- The end of `dec_shared`: a block without references deletes itself. -/
def settle (state : State) (name : Nat) (block : Block) : State :=
  if block.weak = 0 then
    { state with blocks := update state.blocks name none, deleted := state.deleted ++ [.block name] }
  else { state with blocks := update state.blocks name (some block) }

def decShared (state : State) (name : Nat) : Option State :=
  (state.blocks name).bind (fun block =>
    if u64Sub block.shared 1 = 0 then
      (deleteObject state block.data).map (fun cleaned =>
        settle cleaned name ⟨u64Sub block.shared 1, if block.weak = 1 then 0 else block.weak, none⟩)
    else some (settle state name { block with shared := u64Sub block.shared 1 }))

/-- `use_count`, which converts the count to `long`. -/
def useCount (state : State) (handle : Handle) : Option Int :=
  (state.blocks handle.block).map (fun block => if block.shared < 2 ^ 63 then (block.shared : Int) else block.shared - 2 ^ 64)

/-- What is done with objects and handles. -/
inductive Event where
  | create (object : Nat)
  /-- `shared_ptr(Y* ptr)` -/
  | construct (handle : Nat) (ptr : Option Nat) (block : Nat)
  /-- `shared_ptr(const shared_ptr& r)` -/
  | copy (handle source : Nat)
  /-- `static_pointer_cast`, with what `static_cast` makes of the pointer -/
  | cast (handle source : Nat) (ptr : Option Nat)
  /-- The generated `operator=` -/
  | assign (handle source : Nat)
  /-- `~shared_ptr()` -/
  | destroy (handle : Nat)

/-- A new handle. -/
def addHandle (state : State) (address : Nat) (handle : Handle) : Option State :=
  incShared { state with handles := (address, handle) :: state.handles } handle.block

def perform (state : State) : Event → Option State
  | .create object => some { state with created := object :: state.created }
  | .construct address ptr block =>
    addHandle { state with
      made := (block, ptr) :: state.made
      blocks := update state.blocks block (some ⟨0, 0, ptr⟩) } address ⟨ptr, block⟩
  | .copy address source => (state.handles.lookup source).bind (fun handle => addHandle state address handle)
  | .cast address source ptr =>
    (state.handles.lookup source).bind (fun handle => addHandle state address ⟨ptr, handle.block⟩)
  | .assign address source =>
    (state.handles.lookup source).map (fun handle => { state with handles := put address handle state.handles })
  | .destroy address =>
    (state.handles.lookup address).bind (fun handle =>
      decShared { state with handles := state.handles.filter (fun entry => entry.1 ≠ address) } handle.block)

/-- Where a handle can be: at an address that is aligned, and where there is none yet. -/
def Vacant (state : State) (address : Nat) : Prop :=
  0 < address ∧ address < 2 ^ 64 ∧ address % 8 = 0 ∧ address ∉ state.handles.map fst

/-- New things have new names, and calls are made on handles that live. -/
def Allowed (state : State) : Event → Prop
  | .create object => object ∉ state.created
  | .construct address ptr block =>
    Vacant state address ∧ block ∉ state.made.map fst ∧ ∀ object, ptr = some object → object ∈ state.created
  | .copy address source => Vacant state address ∧ source ∈ state.handles.map fst
  | .cast address source _ => Vacant state address ∧ source ∈ state.handles.map fst
  | .assign address source => address ∈ state.handles.map fst ∧ source ∈ state.handles.map fst
  | .destroy address => address ∈ state.handles.map fst

def nothing : State := ⟨[], [], fun _ => none, [], []⟩

def pointers : System State Event where
  initial state := state = nothing
  step state event after := Allowed state event ∧ perform state event = some after

variable {state after : State} {address : Nat} {handle : Handle}

section

/-- The live handles of a control block. -/
def sharing (state : State) (block : Nat) : Nat := state.handles.countP (fun entry => entry.2.block = block)

/-- Objects and control blocks live as long as a handle does, and are deleted once. -/
structure DeletedOnce (state : State) : Prop where
  counted : ∀ entry ∈ state.handles, useCount state entry.2 = some (sharing state entry.2.block : Int)
  alive : ∀ entry ∈ state.handles, state.blocks entry.2.block ≠ none ∧
    ∃ ptr, (entry.2.block, ptr) ∈ state.made ∧ ∀ object, ptr = some object → .object object ∉ state.deleted
  blocks : ∀ made ∈ state.made, state.deleted.count (.block made.1) = if sharing state made.1 = 0 then 1 else 0
  objects : ∀ made ∈ state.made, ∀ object, made.2 = some object →
    state.deleted.count (.object object) = if sharing state made.1 = 0 then 1 else 0

/-- Objects are given to one control block only, and handles are assigned among those that share one. -/
def Meets (state : State) : Event → Prop
  | .construct _ ptr _ => ∀ object, ptr = some object → some object ∉ state.made.map snd
  | .assign address source =>
    (state.handles.lookup address).map Handle.block = (state.handles.lookup source).map Handle.block
  | _ => True

/-- What is deleted with a control block. -/
def belongings (made : Nat × Option Nat) : List Deletion := made.2.toList.map .object ++ [.block made.1]

/-- A control block counts its handles, and is gone with its object if there are none. -/
structure Right (state : State) (made : Nat × Option Nat) : Prop where
  block : state.blocks made.1 = if sharing state made.1 = 0 then none else some ⟨sharing state made.1, 1, made.2⟩
  deleted : ∀ deletion ∈ belongings made, state.deleted.count deletion = if sharing state made.1 = 0 then 1 else 0

/-- Handles are at different addresses and have control blocks. -/
structure Placed (state : State) : Prop where
  distinct : (state.handles.map fst).Nodup
  aligned : ∀ entry ∈ state.handles, 0 < entry.1 ∧ entry.1 < 2 ^ 64 ∧ entry.1 % 8 = 0
  known : ∀ entry ∈ state.handles, entry.2.block ∈ state.made.map fst

/-- No object has two control blocks, and nothing else is deleted. -/
structure Counted (state : State) : Prop extends Placed state where
  names : (state.made.flatMap belongings).Nodup
  right : ∀ made ∈ state.made, Right state made
  used : state.deleted ⊆ state.made.flatMap belongings

theorem block_mem (made : Nat × Option Nat) : .block made.1 ∈ belongings made := by simp [belongings]

theorem object_mem {made : Nat × Option Nat} {object : Nat} (owns : made.2 = some object) :
    .object object ∈ belongings made := by simp [belongings, owns]

/-- There are fewer handles than a count can hold, as they are at different addresses. -/
theorem handles_few {handles : List (Nat × Handle)} (distinct : (handles.map fst).Nodup)
    (aligned : ∀ entry ∈ handles, 0 < entry.1 ∧ entry.1 < 2 ^ 64 ∧ entry.1 % 8 = 0) : handles.length < 2 ^ 61 := by
  have words : ((handles.map fst).map (· / 8)).Nodup := by
    apply List.Nodup.map_on _ distinct
    intro one inHandles other alsoInHandles same
    obtain ⟨first, member, rfl⟩ := mem_map.mp inHandles
    obtain ⟨second, alsoMember, rfl⟩ := mem_map.mp alsoInHandles
    have firstAligned := aligned first member
    have secondAligned := aligned second alsoMember
    omega
  have inside : (handles.map fst).map (· / 8) ⊆ List.range' 1 (2 ^ 61 - 1) := by
    intro word member
    obtain ⟨address, inHandles, rfl⟩ := mem_map.mp member
    obtain ⟨entry, there, rfl⟩ := mem_map.mp inHandles
    have located := aligned entry there
    rw [mem_range'_1]
    omega
  have short := (subperm_of_subset words inside).length_le
  rw [length_map, length_map, length_range'] at short
  omega

theorem Counted.sharing_few (counted : Counted state) (block : Nat) : sharing state block < 2 ^ 61 :=
  lt_of_le_of_lt countP_le_length (handles_few counted.distinct counted.aligned)

theorem sharing_pos {entry : Nat × Handle} (member : entry ∈ state.handles) : sharing state entry.2.block ≠ 0 := by
  have some : 0 < sharing state entry.2.block := countP_pos_iff.mpr ⟨entry, member, decide_eq_true rfl⟩
  omega

/-- What is deleted belongs to one control block. -/
theorem Counted.owner (counted : Counted state) {one other : Nat × Option Nat} (first : one ∈ state.made)
    (second : other ∈ state.made) {deletion : Deletion} (mine : deletion ∈ belongings one)
    (theirs : deletion ∈ belongings other) : one = other := by
  by_contra different
  have : Std.Symm (Disjoint on belongings) := ⟨fun _ _ apart _ left right => apart right left⟩
  exact (nodup_flatMap.mp counted.names).2.forall first second different mine theirs

theorem Counted.made_unique (counted : Counted state) {one other : Nat × Option Nat} (first : one ∈ state.made)
    (second : other ∈ state.made) (same : one.1 = other.1) : one = other :=
  counted.owner first second (block_mem one) (same ▸ block_mem other)

/-- The counts say when something is deleted. -/
theorem Counted.deletedOnce (counted : Counted state) : DeletedOnce state where
  counted := by
    intro entry member
    obtain ⟨made, isMade, same⟩ := mem_map.mp (counted.known entry member)
    have few := counted.sharing_few entry.2.block
    rw [useCount, ← same, (counted.right made isMade).block, same, if_neg (sharing_pos member), map_some, if_pos]
    dsimp only
    omega
  alive := by
    intro entry member
    obtain ⟨made, isMade, same⟩ := mem_map.mp (counted.known entry member)
    have right := counted.right made isMade
    have living : sharing state made.1 ≠ 0 := same ▸ sharing_pos member
    constructor
    · rw [← same, right.block, if_neg living]
      exact some_ne_none _
    · refine ⟨made.2, same ▸ isMade, ?_⟩
      intro object isObject
      apply count_eq_zero.mp
      rw [right.deleted _ (object_mem isObject), if_neg living]
  blocks made isMade := (counted.right made isMade).deleted _ (block_mem made)
  objects made isMade _ owns := (counted.right made isMade).deleted _ (object_mem owns)

/-- Handles of one control block come and go, and the block may be deleted with them. -/
theorem Counted.change (counted : Counted state) {target : Nat × Option Nat} (isTarget : target ∈ state.made)
    (made : after.made = state.made) (placed : Placed after) {more : List Deletion}
    (deleted : after.deleted = state.deleted ++ more) (few : more ⊆ belongings target)
    (others : ∀ name ≠ target.1, after.blocks name = state.blocks name ∧ sharing after name = sharing state name)
    (right : Right after target) : Counted after := by
  refine ⟨placed, made ▸ counted.names, fun other isMade => ?_, ?_⟩
  · rw [made] at isMade
    by_cases same : other.1 = target.1
    · exact counted.made_unique isMade isTarget same ▸ right
    · have old := counted.right other isMade
      obtain ⟨block, shares⟩ := others other.1 same
      refine ⟨by rw [block, shares, old.block], fun deletion belongs => ?_⟩
      have foreign : deletion ∉ more := fun isMore =>
        same (congrArg fst (counted.owner isMade isTarget belongs (few isMore)))
      rw [deleted, count_append, count_eq_zero.mpr foreign, add_zero, shares, old.deleted deletion belongs]
  · rw [deleted, made]
    exact append_subset.mpr ⟨counted.used, fun _ isMore => mem_flatMap.mpr ⟨target, isTarget, few isMore⟩⟩

end

section

/-- The state with one handle more, and what its control block is then. -/
def joined (state : State) (address : Nat) (handle : Handle) (block : Block) : State :=
  { state with
    handles := (address, handle) :: state.handles
    blocks := update state.blocks handle.block (some block) }

theorem addHandle_eq {block : Block} (stored : state.blocks handle.block = some block) (address : Nat) :
    addHandle state address handle = some (joined state address handle block.incShared) := by
  rw [addHandle, incShared]
  rw [stored]
  rfl

theorem sharing_joined (state : State) (address : Nat) (handle : Handle) (block : Block) (name : Nat) :
    sharing (joined state address handle block) name = sharing state name + if handle.block = name then 1 else 0 := by
  rw [sharing, sharing, joined, countP_cons]
  simp only [decide_eq_true_eq]

theorem Placed.add (placed : Placed state) (vacant : Vacant state address)
    (known : handle.block ∈ state.made.map fst) (block : Block) : Placed (joined state address handle block) := by
  obtain ⟨positive, small, aligned, absent⟩ := vacant
  exact ⟨nodup_cons.mpr ⟨absent, placed.distinct⟩,
    forall_mem_cons.mpr ⟨⟨positive, small, aligned⟩, placed.aligned⟩, forall_mem_cons.mpr ⟨known, placed.known⟩⟩

variable {ptr : Option Nat}

/-- One handle more shares a control block that lives. -/
theorem Counted.add (counted : Counted state) (vacant : Vacant state address)
    (isMade : (handle.block, ptr) ∈ state.made) (living : sharing state handle.block ≠ 0) :
    ∃ after, addHandle state address handle = some after ∧ Counted after := by
  have few := counted.sharing_few handle.block
  obtain ⟨block, deleted⟩ := counted.right _ isMade
  rw [if_neg living] at block
  refine ⟨_, addHandle_eq block address, counted.change isMade rfl
    (counted.toPlaced.add vacant (mem_map.mpr ⟨_, isMade, rfl⟩) _) (append_nil _).symm (nil_subset _) ?_ ?_⟩
  · intro name different
    exact ⟨update_of_ne different .., by rw [sharing_joined, if_neg (Ne.symm different), add_zero]⟩
  · refine ⟨?_, fun deletion belongs => ?_⟩ <;> rw [sharing_joined, if_pos rfl, if_neg (Nat.succ_ne_zero _)]
    · refine (update_self ..).trans (congrArg some ?_)
      simp [Block.incShared, u64_of_lt (show sharing state handle.block + 1 < 2 ^ 64 by omega)]
    · exact (deleted deletion belongs).trans (if_neg living)

theorem Counted.sharing_unknown (counted : Counted state) {block : Nat} (unknown : block ∉ state.made.map fst) :
    sharing state block = 0 := by
  apply countP_eq_zero.mpr
  intro entry member same
  exact unknown (of_decide_eq_true same ▸ counted.known entry member)

/-- The first handle of a new control block. -/
theorem Counted.construct (counted : Counted state) (vacant : Vacant state address) {block : Nat}
    (new : block ∉ state.made.map fst) (unowned : ∀ object, ptr = some object → some object ∉ state.made.map snd) :
    ∃ after, perform state (.construct address ptr block) = some after ∧ Counted after := by
  have none := counted.sharing_unknown new
  have foreign : ∀ deletion ∈ belongings (block, ptr), deletion ∉ state.made.flatMap belongings := by
    intro deletion belongs owned
    obtain ⟨made, isMade, also⟩ := mem_flatMap.mp owned
    cases deletion with
    | object name =>
      have mine : ptr = some name := by simpa [belongings] using belongs
      have theirs : made.2 = some name := by simpa [belongings] using also
      exact unowned name mine (mem_map.mpr ⟨made, isMade, theirs⟩)
    | block name =>
      have mine : name = block := by simpa [belongings] using belongs
      have theirs : name = made.1 := by simpa [belongings] using also
      exact new (mem_map.mpr ⟨made, isMade, theirs.symm.trans mine⟩)
  have placed : Placed { state with
      made := (block, ptr) :: state.made
      blocks := update state.blocks block (some ⟨0, 0, ptr⟩) } :=
    { counted.toPlaced with known := fun entry old => mem_cons_of_mem _ (counted.known entry old) }
  refine ⟨_, addHandle_eq (update_self ..) address, placed.add vacant mem_cons_self _, ?_, ?_, ?_⟩
  · refine Nodup.append ?_ counted.names foreign
    cases ptr <;> simp [belongings]
  · intro made member
    rcases mem_cons.mp member with rfl | old
    · have unused : sharing { state with
          made := (block, ptr) :: state.made
          blocks := update state.blocks block (some ⟨0, 0, ptr⟩) } block = 0 := none
      refine ⟨?_, fun deletion belongs => ?_⟩ <;> rw [sharing_joined, if_pos rfl, unused]
      · exact update_self ..
      · exact count_eq_zero.mpr (fun deleted => foreign deletion belongs (counted.used deleted))
    · have different : made.1 ≠ block := fun same => new (mem_map.mpr ⟨made, old, same⟩)
      have right := counted.right made old
      refine ⟨?_, fun deletion belongs => ?_⟩ <;> rw [sharing_joined, if_neg (Ne.symm different), add_zero]
      · exact (update_of_ne different ..).trans ((update_of_ne different ..).trans right.block)
      · exact right.deleted deletion belongs
  · exact fun _ deleted => mem_append_right _ (counted.used deleted)

end

section

variable {old : Handle}

/-- A handle that is overwritten leaves one control block and joins another one. -/
theorem sharing_put (handle : Handle) (there : state.handles.lookup address = some old) (block : Nat) :
    sharing { state with handles := put address handle state.handles } block + (if old.block = block then 1 else 0) =
      sharing state block + if handle.block = block then 1 else 0 := by
  obtain ⟨before, same, after, _, parts, replaced⟩ := put_present handle there
  unfold sharing
  rw [replaced, parts]
  simp only [countP_append, countP_cons, decide_eq_true_eq]
  omega

theorem Counted.assign (counted : Counted state) (there : state.handles.lookup address = some old)
    (same : old.block = handle.block) : Counted { state with handles := put address handle state.handles } := by
  have shares (block : Nat) : sharing { state with handles := put address handle state.handles } block =
      sharing state block := by
    have balance := sharing_put handle there block
    rw [same] at balance
    exact Nat.add_right_cancel balance
  obtain ⟨before, place, after, _, parts, replaced⟩ := put_present handle there
  have keys : (put address handle state.handles).map fst = state.handles.map fst := by
    rw [replaced, parts, map_append, map_append]
    rfl
  have placed : Placed { state with handles := put address handle state.handles } := by
    refine ⟨?_, ?_, ?_⟩
    · rw [keys]
      exact counted.distinct
    · intro entry member
      have isKey : entry.1 ∈ state.handles.map fst := keys ▸ mem_map_of_mem member
      obtain ⟨found, inHandles, sameKey⟩ := mem_map.mp isKey
      exact sameKey ▸ counted.aligned found inHandles
    · have known := counted.known
      rw [parts, forall_mem_append, forall_mem_cons] at known
      dsimp only
      rw [replaced, forall_mem_append, forall_mem_cons]
      exact ⟨known.1, same ▸ known.2.1, known.2.2⟩
  refine ⟨placed, counted.names, fun made member => ?_, counted.used⟩
  obtain ⟨block, deleted⟩ := counted.right made member
  constructor <;> rw [shares]
  · exact block
  · exact deleted

end

/-- The handles without the one at an address. -/
def remaining (state : State) (address : Nat) : State :=
  { state with handles := state.handles.filter (fun entry => entry.1 ≠ address) }

theorem lookup_split (distinct : (state.handles.map fst).Nodup) (there : state.handles.lookup address = some handle) :
    ∃ before after, state.handles = before ++ (address, handle) :: after ∧
    (remaining state address).handles = before ++ after := by
  obtain ⟨same, equal, member⟩ := lookup_mem there
  obtain rfl := eq_of_beq equal
  obtain ⟨before, after, parts⟩ := append_of_mem member
  refine ⟨before, after, parts, ?_⟩
  rw [parts, map_append, map_cons, nodup_middle, nodup_cons, ← map_append] at distinct
  have kept : (before ++ after).filter (fun entry => entry.1 ≠ address) = before ++ after := by
    apply filter_eq_self.mpr
    intro entry inRest
    exact decide_eq_true (fun isAddress => distinct.1 (mem_map.mpr ⟨entry, inRest, isAddress⟩))
  rw [remaining, parts]
  rw [filter_append, filter_cons, if_neg (by simp), ← filter_append, kept]

theorem sharing_remaining (distinct : (state.handles.map fst).Nodup)
    (there : state.handles.lookup address = some handle) (block : Nat) :
    sharing (remaining state address) block + (if handle.block = block then 1 else 0) = sharing state block := by
  obtain ⟨before, after, parts, rest⟩ := lookup_split distinct there
  simp only [sharing, rest, parts, countP_append, countP_cons, decide_eq_true_eq]
  omega

section

variable (fresh : ∀ object, ptr = some object → .object object ∉ state.deleted)
include fresh

theorem deleteObject_fresh :
    deleteObject state ptr = some { state with deleted := state.deleted ++ ptr.toList.map .object } := by
  cases ptr with
  | none =>
    rw [deleteObject, toList_none, map_nil, append_nil]
  | some object => rw [deleteObject, if_neg (fresh object rfl)]; rfl

/-- The last handle takes the object and the control block with it. -/
theorem decShared_last {name : Nat} (block : state.blocks name = some ⟨1, 1, ptr⟩) :
    decShared state name = some { state with
      blocks := update state.blocks name none
      deleted := state.deleted ++ belongings (name, ptr) } := by
  have ends : u64Sub 1 1 = 0 := by decide
  rw [decShared, block, bind_some]
  rw [if_pos ends, deleteObject_fresh fresh, belongings, ← append_assoc]
  rfl

end

/-- Another handle only lowers the count. -/
theorem decShared_more {name number : Nat} (block : state.blocks name = some ⟨number, 1, ptr⟩)
    (more : 1 < number) (few : number < 2 ^ 64) :
    decShared state name = some { state with blocks := update state.blocks name (some ⟨number - 1, 1, ptr⟩) } := by
  have less : u64Sub number 1 = number - 1 := u64Sub_of_le (by omega) few
  rw [decShared, block, bind_some]
  rw [less, if_neg (by omega)]
  rfl

/-- Without one handle the others are where they were. -/
theorem Placed.remaining (placed : Placed state) (address : Nat) : Placed (remaining state address) :=
  ⟨(filter_sublist.map fst).nodup placed.distinct, fun entry left => placed.aligned entry (mem_of_mem_filter left),
    fun entry left => placed.known entry (mem_of_mem_filter left)⟩

theorem Counted.destroy (counted : Counted state) (there : state.handles.lookup address = some handle) :
    ∃ after, perform state (.destroy address) = some after ∧ Counted after := by
  obtain ⟨_, behind, parts, _⟩ := lookup_split counted.distinct there
  have member : (address, handle) ∈ state.handles := parts ▸ mem_append_right _ mem_cons_self
  obtain ⟨⟨name, ptr⟩, isMade, same⟩ := mem_map.mp (counted.known _ member)
  subst same
  have shares := sharing_remaining counted.distinct there
  have here := shares handle.block
  rw [if_pos rfl] at here
  have others : ∀ name ≠ handle.block, sharing (remaining state address) name = sharing state name := by
    intro name different
    have other := shares name
    rwa [if_neg (Ne.symm different)] at other
  obtain ⟨block, notYet⟩ := counted.right _ isMade
  dsimp only at block
  simp only [if_neg (sharing_pos member)] at block notYet
  have destroyed : perform state (.destroy address) = decShared (remaining state address) handle.block := by
    rw [perform, there]
    rfl
  rw [destroyed]
  have placed := counted.toPlaced.remaining address
  by_cases last : sharing (remaining state address) handle.block = 0
  · have one : sharing state handle.block = 1 := by omega
    rw [one] at block
    have fresh (object : Nat) (isObject : ptr = some object) : Deletion.object object ∉ (remaining state address).deleted :=
      count_eq_zero.mp (notYet _ (object_mem isObject))
    refine ⟨_, decShared_last fresh block, counted.change isMade rfl { placed with } rfl (Subset.refl _) ?_ ?_⟩
    · exact fun name different => ⟨update_of_ne different .., others name different⟩
    · refine ⟨(update_self ..).trans (if_pos last).symm, fun deletion belongs => Eq.trans ?_ (if_pos last).symm⟩
      have once := count_eq_one_of_mem ((nodup_flatMap.mp counted.names).1 _ isMade) belongs
      exact count_append.trans (by rw [once]; exact congrArg (· + 1) (notYet deletion belongs))
  · have few := counted.sharing_few handle.block
    have rest : sharing state handle.block - 1 = sharing (remaining state address) handle.block := by omega
    refine ⟨_, decShared_more block (by omega) (by omega),
      counted.change isMade rfl { placed with } (append_nil _).symm (nil_subset _) ?_ ?_⟩
    · exact fun name different => ⟨update_of_ne different .., others name different⟩
    · refine ⟨(update_self ..).trans ?_, fun deletion belongs => (notYet deletion belongs).trans (if_neg last).symm⟩
      rw [rest]
      exact (if_neg last).symm

theorem lookup_key {handles : List (Nat × Handle)} {address : Nat} (member : address ∈ handles.map fst) :
    ∃ handle, handles.lookup address = some handle := by
  obtain ⟨entry, there, rfl⟩ := mem_map.mp member
  cases found : handles.lookup entry.1 with
  | some handle => exact ⟨handle, rfl⟩
  | none =>
    have absent := lookup_eq_none_iff.mp found entry there
    rw [bne_self_eq_false] at absent
    exact nomatch absent

/-- The handle that a source is copied from keeps its control block alive. -/
theorem Counted.source (counted : Counted state) {source : Nat} {handle : Handle}
    (there : state.handles.lookup source = some handle) :
    ∃ ptr, (handle.block, ptr) ∈ state.made ∧ sharing state handle.block ≠ 0 := by
  obtain ⟨_, _, member⟩ := lookup_mem there
  obtain ⟨⟨name, ptr⟩, isMade, same⟩ := mem_map.mp (counted.known _ member)
  exact ⟨ptr, same ▸ isMade, sharing_pos member⟩

/-- Every call that meets the condition has a result and keeps the counts right. -/
theorem Counted.perform (counted : Counted state) {event : Event} (allowed : Allowed state event) (meets : Meets state event) :
    ∃ after, perform state event = some after ∧ Counted after := by
  cases event with
  | create object => exact ⟨_, rfl, { counted.toPlaced with }, counted.names,
      fun made isMade => { counted.right made isMade with }, counted.used⟩
  | construct address ptr block =>
    obtain ⟨vacant, new, _⟩ := allowed
    exact counted.construct vacant new meets
  | copy address source =>
    obtain ⟨handle, there⟩ := lookup_key allowed.2
    obtain ⟨ptr, isMade, living⟩ := counted.source there
    rw [SharedPointers.perform, there]
    exact counted.add allowed.1 isMade living
  | cast address source ptr =>
    obtain ⟨handle, there⟩ := lookup_key allowed.2
    obtain ⟨_, isMade, living⟩ := counted.source there
    have shared : ((Handle.mk ptr handle.block).block, _) ∈ state.made := isMade
    rw [SharedPointers.perform, there]
    exact counted.add allowed.1 shared living
  | assign address source =>
    obtain ⟨old, there⟩ := lookup_key allowed.1
    obtain ⟨handle, alsoThere⟩ := lookup_key allowed.2
    rw [SharedPointers.perform, alsoThere]
    rw [Meets, there, alsoThere] at meets
    exact ⟨_, rfl, counted.assign there (some.inj meets)⟩
  | destroy address =>
    obtain ⟨handle, there⟩ := lookup_key allowed
    exact counted.destroy there

theorem nothing_counted : Counted nothing where
  distinct := nodup_nil
  aligned := nofun
  known := nofun
  names := nodup_nil
  right := nofun
  used := nofun

theorem counted_of_reachable (reachable : (pointers.under Meets).Reachable state) : Counted state := by
  apply reachable.invariant
  · rintro start rfl
    exact nothing_counted
  · rintro state event after counted ⟨meets, allowed, performed⟩
    obtain ⟨same, done, kept⟩ := counted.perform allowed meets
    cases performed.symm.trans done
    exact kept

/-- An assignment among different control blocks leaves a wrong count. -/
theorem assign_miscounts (counted : Counted state) {address : Nat} {old handle : Handle}
    (there : state.handles.lookup address = some old) {source : Nat} (alsoThere : state.handles.lookup source = some handle)
    (different : old.block ≠ handle.block) :
    ¬ DeletedOnce { state with handles := put address handle state.handles } := by
  intro deletedOnce
  obtain ⟨_, _, sourceMember⟩ := lookup_mem alsoThere
  have before := counted.deletedOnce.counted _ sourceMember
  have assigned : (put address handle state.handles).lookup address = some handle := lookup_put_self
  obtain ⟨_, _, member⟩ := lookup_mem assigned
  have now := deletedOnce.counted _ member
  have balance := sharing_put handle there handle.block
  rw [if_neg different, if_pos rfl] at balance
  have same : useCount { state with handles := put address handle state.handles } handle = useCount state handle := rfl
  rw [same, before] at now
  have equal := some.inj now
  dsimp only at equal balance
  omega

/-- While objects are given to one control block and handles are assigned among those that share
one, every call has a result, uses are counted and everything is deleted once, with its last
handle. An assignment of another kind breaks this at once. -/
theorem pointers_delete_once (reachable : (pointers.under Meets).Reachable state) : DeletedOnce state ∧
    (∀ event, Allowed state event → Meets state event → ∃ after, perform state event = some after ∧ DeletedOnce after) ∧
    ∀ address source after, Allowed state (.assign address source) → perform state (.assign address source) = some after →
      (DeletedOnce after ↔ Meets state (.assign address source)) := by
  have counted := counted_of_reachable reachable
  refine ⟨counted.deletedOnce, ?_, ?_⟩
  · intro event allowed meets
    obtain ⟨after, performed, kept⟩ := counted.perform allowed meets
    exact ⟨after, performed, kept.deletedOnce⟩
  · intro address source after allowed performed
    constructor
    · intro deletedOnce
      obtain ⟨old, there⟩ := lookup_key allowed.1
      obtain ⟨handle, alsoThere⟩ := lookup_key allowed.2
      rw [perform, alsoThere] at performed
      cases performed
      rw [Meets, there, alsoThere]
      by_contra different
      exact assign_miscounts counted there alsoThere (fun same => different (congrArg some same)) deletedOnce
    · intro meets
      obtain ⟨same, done, kept⟩ := counted.perform allowed meets
      cases performed.symm.trans done
      exact kept.deletedOnce

instance decidableForall (ptr : Option Nat) (property : Nat → Prop) [DecidablePred property] :
    Decidable (∀ object, ptr = some object → property object) :=
  match ptr with
  | none => isTrue nofun
  | some object => decidable_of_iff (property object)
    ⟨fun holds _ same => some.inj same ▸ holds, fun all => all object rfl⟩

instance (state : State) (address : Nat) : Decidable (Vacant state address) := inferInstanceAs (Decidable (_ ∧ _))

instance (state : State) (event : Event) : Decidable (Allowed state event) :=
  match event with
  | .create object => inferInstanceAs (Decidable (object ∉ state.created))
  | .construct address ptr block => inferInstanceAs (Decidable
      (Vacant state address ∧ block ∉ state.made.map fst ∧ ∀ object, ptr = some object → object ∈ state.created))
  | .copy address source => inferInstanceAs (Decidable (Vacant state address ∧ source ∈ state.handles.map fst))
  | .cast address source _ => inferInstanceAs (Decidable (Vacant state address ∧ source ∈ state.handles.map fst))
  | .assign address source => inferInstanceAs (Decidable
      (address ∈ state.handles.map fst ∧ source ∈ state.handles.map fst))
  | .destroy address => inferInstanceAs (Decidable (address ∈ state.handles.map fst))

instance (state : State) (event : Event) : Decidable (Meets state event) :=
  match event with
  | .construct _ ptr _ => inferInstanceAs (Decidable (∀ object, ptr = some object → some object ∉ state.made.map snd))
  | .assign address source => inferInstanceAs (Decidable
      ((state.handles.lookup address).map Handle.block = (state.handles.lookup source).map Handle.block))
  | .create _ | .copy _ _ | .cast _ _ _ | .destroy _ => inferInstanceAs (Decidable True)

/-- A sequence of calls that meet a condition. -/
def follow (condition : State → Event → Prop) [∀ state event, Decidable (condition state event)] :
    State → List Event → Option State
  | state, [] => some state
  | state, event :: rest =>
    if Allowed state event ∧ condition state event then (perform state event).bind (fun next => follow condition next rest)
    else none

theorem follow_reachable {condition : State → Event → Prop} [∀ state event, Decidable (condition state event)]
    {events : List Event} (reachable : (pointers.under condition).Reachable state)
    (followed : follow condition state events = some after) : (pointers.under condition).Reachable after := by
  induction events generalizing state with
  | nil => exact some.inj followed ▸ reachable
  | cons event rest ih =>
    rw [follow, ite_none_right_eq_some] at followed
    obtain ⟨⟨allowed, met⟩, further⟩ := followed
    obtain ⟨next, performed, onwards⟩ := bind_eq_some_iff.mp further
    exact ih (reachable_under_step reachable ⟨allowed, performed⟩ met) onwards

/-- Two handles of one object. -/
theorem pointers_delete_once_copied : ∃ state, DeletedOnce state ∧ state.handles = [(16, ⟨some 1, 1⟩), (8, ⟨some 1, 1⟩)] ∧
    useCount state ⟨some 1, 1⟩ = some 2 := by
  have computed : (follow Meets nothing [.create 1, .construct 8 (some 1) 1, .copy 16 8]).map
      (fun state => (state.handles, useCount state ⟨some 1, 1⟩)) =
        some ([(16, ⟨some 1, 1⟩), (8, ⟨some 1, 1⟩)], some 2) := by decide
  obtain ⟨state, followed, facts⟩ := map_eq_some_iff.mp computed
  obtain ⟨handles, number⟩ := Prod.mk.inj facts
  exact ⟨state, (pointers_delete_once (follow_reachable (reachable_initial rfl) followed)).1, handles, number⟩

/-- `a = b` for handles of two objects, and `b` is destroyed: the object that `a` points to is deleted. -/
theorem assigned_handle_dangles : ∃ state, pointers.Reachable state ∧ state.handles = [(8, ⟨some 2, 2⟩)] ∧
    (state.blocks 2).isNone ∧ state.deleted = [.object 2, .block 2] := by
  have computed : (follow (fun _ _ => True) nothing
      [.create 1, .create 2, .construct 8 (some 1) 1, .construct 16 (some 2) 2, .assign 8 16, .destroy 16]).map
      (fun state => (state.handles, (state.blocks 2).isNone, state.deleted)) =
        some ([(8, ⟨some 2, 2⟩)], true, [.object 2, .block 2]) := by decide
  obtain ⟨state, followed, facts⟩ := map_eq_some_iff.mp computed
  obtain ⟨handles, facts⟩ := Prod.mk.inj facts
  obtain ⟨gone, deleted⟩ := Prod.mk.inj facts
  exact ⟨state, reachable_of_under (follow_reachable (reachable_initial rfl) followed), handles, gone, deleted⟩

end Lfos.SharedPointers
