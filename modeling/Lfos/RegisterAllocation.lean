import Mathlib.Logic.Equiv.Basic
import Lfos.Results
import Lfos.Spans

/-!
# The registers of a system call

The code generator puts several parameters into one register if they fit. A variable goes behind
those that are in a register already, aligned to its own width, and into a register that is not in
use if it fits nowhere else.

The registers in use and those there are at all are the keys of hashes. Perl goes through the keys
of a hash in an order of its own, which is not the same in two runs.
-/

namespace Lfos.RegisterAllocation

open Results Spans List Function

/-- The keys of `%KNOWN_TYPES`. -/
inductive KnownType where
  | bool | char | pointer | int8 | uint8 | int16 | uint16 | int32 | uint32 | int64 | uint64 | size | ssize
  | pid | mqId | pthreadCond | pthreadMutex | void | uuid | structMessage
  deriving DecidableEq, Repr

/-- A number of bits, or another type. -/
inductive Entry where
  | bits (number : Nat)
  | same (type : KnownType)
  deriving DecidableEq, Repr

/-- `%KNOWN_TYPES` -/
def knownTypes : KnownType → Entry
  | .bool => .bits 1
  | .char => .bits 8
  | .pointer => .bits 64
  | .int8 => .bits 8
  | .uint8 => .bits 8
  | .int16 => .bits 16
  | .uint16 => .bits 16
  | .int32 => .bits 32
  | .uint32 => .bits 32
  | .int64 => .bits 64
  | .uint64 => .bits 64
  | .size => .bits 64
  | .ssize => .bits 64
  | .pid => .same .uint64
  | .mqId => .same .uint64
  | .pthreadCond => .same .uint64
  | .pthreadMutex => .same .uint64
  | .void => .bits 0
  | .uuid => .bits 0
  | .structMessage => .bits 0

/-- A type as it is written: with a star, or one name. -/
inductive CType where
  | starred
  | named (type : KnownType)
  | unknown (name : String)
  deriving DecidableEq, Repr

/-- The registers of `%PARAM_REGS`. -/
inductive Reg where
  | rdi | rsi | rax | rdx | r8 | r9 | r10
  deriving DecidableEq, Repr

/-- `%PARAM_REGS` -/
def paramRegs : Reg → Nat
  | .rdi => 64
  | .rsi => 64
  | .rax => 64
  | .rdx => 64
  | .r8 => 64
  | .r9 => 64
  | .r10 => 64

def allRegs : List Reg := [.rdi, .rsi, .rax, .rdx, .r8, .r9, .r10]

/-- Why there is no result. The search for an unknown type asks for itself without end. -/
inductive Die where
  | modulusZero
  | noRegister (name : String)
  | parameterBits
  | returnBits
  | endless
  deriving DecidableEq, Repr

/-- `type_bits` of a key of `%KNOWN_TYPES`, and of the key that is found there, and so on. -/
def knownBits : Nat → KnownType → Except Die Nat
  | 0, _ => .error .endless
  | depth + 1, type =>
    match knownTypes type with
    | .bits number => .ok number
    | .same other => knownBits depth other

def typeBits : CType → Except Die Nat
  | .starred => knownBits 2 .pointer
  | .named type => knownBits 2 type
  | .unknown _ => .error .endless

structure Variable where
  name : String
  type : CType
  deriving DecidableEq, Repr

/-- `%regs`: its keys in the order in which they got a value, and the bits in use. An absent key
counts as 0. -/
structure Regs where
  keys : List Reg
  bits : Reg → Nat

/-- Where a variable is. -/
structure Slot where
  register : Reg
  offset : Nat
  size : Nat
  deriving DecidableEq, Repr

/-- What `register_alloc_vars` returns. -/
structure Allocated where
  regs : Regs
  vars : String → Option Slot

/-- How `keys` goes through the hashes in one run. `%regs` changes, so that its order may be
another one each time. -/
structure Run where
  paramKeys : List Reg
  all : paramKeys.Perm allRegs
  regKeys : Nat → List Reg → List Reg
  same : ∀ time keys, (regKeys time keys).Perm keys

/-- The bits that are left out so that a variable is aligned. -/
def overhead (used bits : Nat) : Nat := if used % bits ≠ 0 then bits - used % bits else 0

/-- A register with the offset in it and the bits that are left out before. -/
structure Place where
  reg : Reg
  offset : Nat
  overhead : Nat
  deriving DecidableEq, Repr

/-- Behind the bits of a register that are in use. -/
def Regs.behind (regs : Regs) (reg : Reg) (bits : Nat) : Place :=
  ⟨reg, regs.bits reg + overhead (regs.bits reg) bits, overhead (regs.bits reg) bits⟩

/-- The loop over the registers in use. -/
def findUsed (regs : Regs) (bits : Nat) : List Reg → Except Die (Option Place)
  | [] => .ok none
  | maybereg :: rest =>
    if bits = 0 then .error .modulusZero
    else if (bits : Int) ≤ paramRegs maybereg - (regs.behind maybereg bits).offset then
      .ok (some (regs.behind maybereg bits))
    else findUsed regs bits rest

/-- The next register that is free and large enough. -/
def findFree (run : Run) (regs : Regs) (bits : Nat) : Option Reg :=
  ((run.paramKeys.filter (fun reg => regs.bits reg = 0)).filter (fun reg => bits ≤ paramRegs reg)).head?

def findRegister (run : Run) (time : Nat) (regs : Regs) (var : Variable) (bits : Nat) : Except Die Place :=
  match findUsed regs bits (run.regKeys time regs.keys) with
  | .error die => .error die
  | .ok (some found) => .ok found
  | .ok none =>
    match findFree run regs bits with
    | some reg => .ok ⟨reg, 0, 0⟩
    | none => .error (.noRegister var.name)

/-- `$regs{$reg} += …` -/
def Regs.extend (regs : Regs) (reg : Reg) (bits : Nat) : Regs where
  keys := if reg ∈ regs.keys then regs.keys else regs.keys ++ [reg]
  bits := update regs.bits reg (regs.bits reg + bits)

/-- The body of the loop over the variables. -/
def allocVar (run : Run) (time : Nat) (done : Allocated) (var : Variable) : Except Die Allocated := do
  let bits ← typeBits var.type
  let place ← findRegister run time done.regs var bits
  .ok {
    regs := done.regs.extend place.reg (bits + place.overhead)
    vars := update done.vars var.name (some ⟨place.reg, place.offset, bits⟩) }

def allocVars (run : Run) : Nat → Allocated → List Variable → Except Die Allocated
  | _, done, [] => .ok done
  | time, done, var :: rest => do
    let next ← allocVar run time done var
    allocVars run (time + 1) next rest

def nothing : Allocated := ⟨⟨[], fun _ => 0⟩, fun _ => none⟩

def registerAllocVars (run : Run) (time : Nat) (vars : List Variable) : Except Die Allocated :=
  allocVars run time nothing vars

structure Call where
  parameters : List Variable
  returns : List Variable
  deriving DecidableEq, Repr

structure CallAllocated where
  params : String → Option Slot
  returns : String → Option Slot
  regs : Reg → Option Nat

def sumBits (vars : List Variable) : Except Die Nat := (vars.mapM (fun var => typeBits var.type)).map List.sum

def registerAlloc (run : Run) (call : Call) : Except Die CallAllocated := do
  let bitsUsable := (run.paramKeys.map paramRegs).sum
  let paramBits ← sumBits call.parameters
  let returnBits ← sumBits call.returns
  if bitsUsable < paramBits then .error .parameterBits
  else if bitsUsable < returnBits then .error .returnBits
  else do
    let params ← registerAllocVars run 0 call.parameters
    let returns ← registerAllocVars run call.parameters.length call.returns
    .ok {
      params := params.vars
      returns := returns.vars
      regs := fun reg => if reg ∈ params.regs.keys ∨ reg ∈ returns.regs.keys then some (paramRegs reg) else none }

section

/-- The bits of a variable. -/
def Slot.span (slot : Slot) : Span := ⟨slot.offset, slot.size⟩

/-- What a variable is given: whole multiples of its width, behind the bits in use. -/
structure Fresh (regs : Regs) (slot : Slot) : Prop where
  aligned : slot.size ∣ slot.offset
  inside : slot.offset + slot.size ≤ 64
  behind : regs.bits slot.register ≤ slot.offset

/-- Variables are aligned, in the bits that are recorded as used, and apart from each other. -/
structure Packed (done : Allocated) : Prop where
  recorded : ∀ name slot, done.vars name = some slot →
    slot.size ∣ slot.offset ∧ slot.offset + slot.size ≤ done.regs.bits slot.register
  inside : ∀ reg, done.regs.bits reg ≤ 64
  apart : ∀ name other slot neighbour, done.vars name = some slot → done.vars other = some neighbour →
    name ≠ other → slot.register = neighbour.register → slot.span.Apart neighbour.span

variable {run : Run} {time : Nat} {regs : Regs} {bits : Nat} {var : Variable} {place : Place} {done after : Allocated}
  {vars : List Variable}

theorem paramRegs_width (reg : Reg) : paramRegs reg = 64 := by
  cases reg <;> rfl

/-- The bits that are left out lead to a multiple of the width. -/
theorem overhead_aligned (used : Nat) (positive : 0 < bits) : bits ∣ used + overhead used bits := by
  unfold overhead
  split
  · have short := Nat.mod_lt used positive
    refine ⟨used / bits + 1, ?_⟩
    have whole := Nat.div_add_mod used bits
    rw [Nat.mul_add_one]
    omega
  · next none =>
    exact Nat.dvd_of_mod_eq_zero (not_not.mp none)

theorem findUsed_spec {keys : List Reg} (found : findUsed regs bits keys = .ok (some place)) :
    place = regs.behind place.reg bits ∧ bits ∣ place.offset ∧ place.offset + bits ≤ 64 := by
  induction keys with
  | nil => exact nomatch found
  | cons maybereg rest ih =>
    rw [findUsed] at found
    split at found
    · exact nomatch found
    next positive =>
    split at found
    · next fits =>
      cases Except.ok.inj found
      rw [paramRegs_width] at fits
      refine ⟨rfl, overhead_aligned _ (Nat.pos_of_ne_zero positive), ?_⟩
      omega
    · exact ih found

theorem findFree_spec {reg : Reg} (found : findFree run regs bits = some reg) : regs.bits reg = 0 ∧ bits ≤ 64 := by
  have member := mem_of_mem_head? found
  rw [mem_filter, mem_filter, decide_eq_true_iff, decide_eq_true_iff, paramRegs_width] at member
  exact ⟨member.1.2, member.2⟩

/-- The bits a place adds to a register end behind the variable. -/
theorem findRegister_spec (found : findRegister run time regs var bits = .ok place) :
    Fresh regs ⟨place.reg, place.offset, bits⟩ ∧ regs.bits place.reg + place.overhead = place.offset := by
  rw [findRegister] at found
  split at found
  · exact nomatch found
  · next first used =>
    obtain rfl : first = place := Except.ok.inj found
    obtain ⟨same, aligned, inside⟩ := findUsed_spec used
    have offset : first.offset = regs.bits first.reg + first.overhead := by
      rw [same]
      rfl
    exact ⟨⟨aligned, inside, by rw [offset]; exact Nat.le_add_right ..⟩, offset.symm⟩
  · split at found
    · next reg free =>
      cases found
      obtain ⟨unused, small⟩ := findFree_spec free
      refine ⟨⟨Nat.dvd_zero _, ?_, ?_⟩, unused⟩
      · rw [zero_add]
        exact small
      · exact le_of_eq unused
    · exact nomatch found

/-- One variable more, and its register in use up to its end. -/
theorem allocVar_spec (allocated : allocVar run time done var = .ok after) :
    ∃ slot, typeBits var.type = .ok slot.size ∧ Fresh done.regs slot ∧
    after.vars = update done.vars var.name (some slot) ∧
    after.regs.bits = update done.regs.bits slot.register (slot.offset + slot.size) := by
  obtain ⟨bits, known, further⟩ := bind_ok allocated
  obtain ⟨place, found, same⟩ := bind_ok further
  cases same
  obtain ⟨fresh, offset⟩ := findRegister_spec found
  refine ⟨⟨place.reg, place.offset, bits⟩, known, fresh, rfl, ?_⟩
  have used : done.regs.bits place.reg + (bits + place.overhead) = place.offset + bits := by omega
  exact congrArg (update done.regs.bits place.reg) used

/-- A variable that is put behind the others is apart from them. -/
theorem Packed.allocVar (packed : Packed done) (allocated : allocVar run time done var = .ok after) : Packed after := by
  obtain ⟨slot, _, fresh, vars, bits⟩ := allocVar_spec allocated
  -- a variable in the new one's register ends before the new one begins
  have below (name : String) (other : Slot) (there : done.vars name = some other)
      (same : other.register = slot.register) : other.offset + other.size ≤ slot.offset := by
    have used := (packed.recorded name other there).2
    rw [same] at used
    exact le_trans used fresh.behind
  have grows (reg : Reg) : done.regs.bits reg ≤ after.regs.bits reg := by
    rw [bits, update_apply]
    split
    · next same => exact same ▸ le_trans fresh.behind (Nat.le_add_right ..)
    · exact le_refl _
  constructor
  · intro name found there
    rw [vars, update_apply] at there
    split at there
    · cases there
      exact ⟨fresh.aligned, by rw [bits, update_self]⟩
    · exact (packed.recorded name found there).imp_right (fun used => le_trans used (grows _))
  · intro reg
    rw [bits, update_apply]
    split
    · exact fresh.inside
    · exact packed.inside reg
  · intro name other found neighbour there beside different same
    rw [vars, update_apply] at there beside
    split at there <;> split at beside
    · next isNew otherNew => exact absurd (isNew.trans otherNew.symm) different
    · cases there
      exact Span.apart_symm (Span.apart_of_le (below other neighbour beside same.symm))
    · cases beside
      exact Span.apart_of_le (below name found there same)
    · exact packed.apart name other found neighbour there beside different same

theorem nothing_packed : Packed nothing where
  recorded := nofun
  inside _ := Nat.zero_le _
  apart := nofun

/-- The loop keeps what is packed, and gives every variable a place. A name that comes twice has
the place of the last one. -/
theorem allocVars_spec (packed : Packed done) (allocated : allocVars run time done vars = .ok after) :
    Packed after ∧ (∀ name, name ∉ vars.map Variable.name → after.vars name = done.vars name) ∧
    ∀ var ∈ vars, ∃ slot, after.vars var.name = some slot ∧
    ((vars.map Variable.name).Nodup → typeBits var.type = .ok slot.size) := by
  induction vars generalizing done time with
  | nil =>
    cases allocated
    exact ⟨packed, fun _ _ => rfl, nofun⟩
  | cons first rest ih =>
    obtain ⟨next, one, further⟩ := bind_ok allocated
    obtain ⟨kept, outside, given⟩ := ih (packed.allocVar one) further
    obtain ⟨slot, known, _, vars, _⟩ := allocVar_spec one
    refine ⟨kept, ?_, ?_⟩
    · intro name absent
      rw [map_cons, mem_cons, not_or] at absent
      rw [outside name absent.2, vars, update_of_ne absent.1]
    · intro var member
      by_cases again : var.name ∈ rest.map Variable.name
      · obtain ⟨later, inRest, sameName⟩ := mem_map.mp again
        obtain ⟨found, there, size⟩ := given later inRest
        refine ⟨found, sameName ▸ there, ?_⟩
        intro distinct
        rw [map_cons, nodup_cons] at distinct
        rcases mem_cons.mp member with rfl | isLater
        · exact absurd again distinct.1
        · obtain ⟨own, ownThere, ownSize⟩ := given var isLater
          rw [sameName] at there
          cases there.symm.trans ownThere
          exact ownSize distinct.2
      · rcases mem_cons.mp member with rfl | isLater
        · refine ⟨slot, ?_, fun _ => known⟩
          rw [outside var.name again, vars, update_self]
        · exact absurd (mem_map_of_mem isLater) again

/-- Whatever the order of the hashes is, variables with different names do not meet: each is
aligned to its width inside its register, apart from the others, and below the recorded bits. -/
theorem fields_never_collide (distinct : (vars.map Variable.name).Nodup)
    (allocated : registerAllocVars run time vars = .ok after) :
    (∀ var ∈ vars, ∃ slot, after.vars var.name = some slot ∧ typeBits var.type = .ok slot.size ∧
      slot.offset + slot.size ≤ paramRegs slot.register ∧ slot.size ∣ slot.offset ∧
      slot.offset + slot.size ≤ after.regs.bits slot.register ∧
      ∀ other ∈ vars, other ≠ var → ∀ neighbour, after.vars other.name = some neighbour →
        neighbour.register = slot.register → slot.span.Apart neighbour.span) ∧
    ∀ reg, after.regs.bits reg ≤ paramRegs reg := by
  obtain ⟨packed, _, given⟩ := allocVars_spec nothing_packed allocated
  constructor
  · intro var member
    obtain ⟨slot, there, size⟩ := given var member
    obtain ⟨aligned, recorded⟩ := packed.recorded var.name slot there
    refine ⟨slot, there, size distinct, ?_, aligned, recorded, ?_⟩
    · rw [paramRegs_width]
      exact le_trans recorded (packed.inside _)
    · intro other otherMember different neighbour beside same
      have names : var.name ≠ other.name := by
        intro equal
        exact different (inj_on_of_nodup_map distinct otherMember member equal.symm)
      exact packed.apart var.name other.name slot neighbour there beside names same.symm
  · intro reg
    rw [paramRegs_width]
    exact packed.inside reg

/-- The orders in which the source lists the registers, and in which they are used. -/
def listed : Run := ⟨allRegs, .refl _, fun _ keys => keys, fun _ _ => .refl _⟩

def mixed : List Variable := [⟨"a", .named .int8⟩, ⟨"b", .named .int16⟩, ⟨"c", .named .int8⟩, ⟨"d", .named .int32⟩]

theorem fields_never_collide_mixed : ∃ after, registerAllocVars listed 0 mixed = .ok after ∧
    after.vars "b" = some ⟨.rdi, 16, 16⟩ ∧ after.vars "c" = some ⟨.rdi, 32, 8⟩ ∧
    (∀ var ∈ mixed, ∃ slot, after.vars var.name = some slot ∧ slot.offset + slot.size ≤ paramRegs slot.register) := by
  have allocated : registerAllocVars listed 0 mixed = .ok _ := rfl
  refine ⟨_, allocated, rfl, rfl, ?_⟩
  intro var member
  obtain ⟨slot, there, _, inside, _⟩ := (fields_never_collide (by decide) allocated).1 var member
  exact ⟨slot, there, inside⟩

end

section

/-!
All registers are equally large. So a run with other names for the registers returns the same
places under the other names.
-/

variable (names : Equiv.Perm Reg)

theorem mem_allRegs (reg : Reg) : reg ∈ allRegs := by
  cases reg <;> decide

theorem mem_map_names (keys : List Reg) (reg : Reg) : reg ∈ keys.map names ↔ names.symm reg ∈ keys := by
  simp [← Equiv.eq_symm_apply]

theorem allRegs_renamed : (allRegs.map names).Perm allRegs := by
  have once : (allRegs.map names).Nodup := List.Nodup.map names.injective (by decide)
  apply (perm_ext_iff_of_nodup once (by decide)).mpr
  intro reg
  rw [mem_map_names]
  exact iff_of_true (mem_allRegs _) (mem_allRegs _)

def Run.rename (run : Run) : Run where
  paramKeys := run.paramKeys.map names
  all := (run.all.map names).trans (allRegs_renamed names)
  regKeys time keys := (run.regKeys time (keys.map names.symm)).map names
  same time keys := by
    have renamed := (run.same time (keys.map names.symm)).map names
    rw [List.map_map, names.self_comp_symm, List.map_id] at renamed
    exact renamed

def Regs.rename (regs : Regs) : Regs := ⟨regs.keys.map names, fun reg => regs.bits (names.symm reg)⟩

def Place.rename (place : Place) : Place := { place with reg := names place.reg }

def Slot.rename (slot : Slot) : Slot := { slot with register := names slot.register }

def Allocated.rename (done : Allocated) : Allocated :=
  ⟨done.regs.rename names, fun name => (done.vars name).map (Slot.rename names)⟩

def CallAllocated.rename (done : CallAllocated) : CallAllocated where
  params name := (done.params name).map (Slot.rename names)
  returns name := (done.returns name).map (Slot.rename names)
  regs reg := done.regs (names.symm reg)

variable (run : Run) (time : Nat) (regs : Regs) (bits : Nat) (var : Variable) (done : Allocated)

theorem behind_rename (reg : Reg) :
    (regs.rename names).behind (names reg) bits = (regs.behind reg bits).rename names := by
  simp only [Regs.behind, Regs.rename, Place.rename, Equiv.symm_apply_apply]

theorem findUsed_rename (keys : List Reg) : findUsed (regs.rename names) bits (keys.map names) =
    (findUsed regs bits keys).map (Option.map (Place.rename names)) := by
  induction keys with
  | nil => rfl
  | cons maybereg rest ih =>
    rw [map_cons, findUsed, findUsed, behind_rename, paramRegs_width, paramRegs_width, ih]
    change (if bits = 0 then _ else if (bits : Int) ≤ _ - (regs.behind maybereg bits).offset then _ else _) = _
    split
    · rfl
    · split <;> rfl

theorem findFree_rename : findFree (run.rename names) (regs.rename names) bits = (findFree run regs bits).map names := by
  simp only [findFree, Run.rename, Regs.rename, filter_map, paramRegs_width, head?_map, comp_def,
    Equiv.symm_apply_apply]

theorem findRegister_rename : findRegister (run.rename names) time (regs.rename names) var bits =
    (findRegister run time regs var bits).map (Place.rename names) := by
  have keys : (run.rename names).regKeys time (regs.rename names).keys = (run.regKeys time regs.keys).map names := by
    simp only [Run.rename, Regs.rename, map_map, Equiv.symm_comp_self, map_id]
  rw [findRegister, findRegister, keys, findUsed_rename, findFree_rename]
  cases findUsed regs bits (run.regKeys time regs.keys) with
  | error die => rfl
  | ok found =>
    cases found with
    | some place => rfl
    | none =>
      cases findFree run regs bits <;> rfl

theorem extend_rename (reg : Reg) : (regs.rename names).extend (names reg) bits = (regs.extend reg bits).rename names := by
  unfold Regs.extend Regs.rename
  congr 1
  · simp only [mem_map_of_injective names.injective]
    split
    · rfl
    · rw [map_append]
      rfl
  · funext other
    simp only [update_apply, Equiv.symm_apply_apply, Equiv.symm_apply_eq]

theorem allocVar_rename : allocVar (run.rename names) time (done.rename names) var =
    (allocVar run time done var).map (Allocated.rename names) := by
  unfold allocVar
  cases typeBits var.type with
  | error die => rfl
  | ok bits =>
    change (findRegister (run.rename names) time (done.regs.rename names) var bits).bind _ = _
    rw [findRegister_rename]
    change _ = Except.map _ ((findRegister run time done.regs var bits).bind _)
    cases findRegister run time done.regs var bits with
    | error die => rfl
    | ok place =>
      apply congrArg Except.ok
      congr 1
      · exact extend_rename names done.regs _ place.reg
      · funext name
        simp only [update_apply]
        split <;> rfl

theorem allocVars_rename (vars : List Variable) : allocVars (run.rename names) time (done.rename names) vars =
    (allocVars run time done vars).map (Allocated.rename names) := by
  induction vars generalizing time done with
  | nil => rfl
  | cons var rest ih =>
    change (allocVar (run.rename names) time (done.rename names) var).bind _ =
      Except.map _ ((allocVar run time done var).bind _)
    rw [allocVar_rename]
    cases allocVar run time done var with
    | error die => rfl
    | ok next => exact ih (time + 1) next

theorem registerAllocVars_rename (vars : List Variable) : registerAllocVars (run.rename names) time vars =
    (registerAllocVars run time vars).map (Allocated.rename names) :=
  allocVars_rename names run time nothing vars

theorem bitsUsable_rename : ((run.rename names).paramKeys.map paramRegs).sum = (run.paramKeys.map paramRegs).sum := by
  have flat : paramRegs ∘ names = paramRegs := by
    funext reg
    exact (paramRegs_width _).trans (paramRegs_width _).symm
  rw [Run.rename, map_map, flat]

theorem registerAlloc_rename (call : Call) :
    registerAlloc (run.rename names) call = (registerAlloc run call).map (CallAllocated.rename names) := by
  unfold registerAlloc
  rw [bitsUsable_rename, registerAllocVars_rename, registerAllocVars_rename]
  cases sumBits call.parameters with
  | error die => rfl
  | ok paramBits =>
  cases sumBits call.returns with
  | error die => rfl
  | ok returnBits =>
  simp only [bind, Except.bind]
  split
  · rfl
  split
  · rfl
  cases registerAllocVars run 0 call.parameters with
  | error die => rfl
  | ok params =>
  cases registerAllocVars run call.parameters.length call.returns with
  | error die => rfl
  | ok returns =>
    apply congrArg Except.ok
    congr 1
    simp only [Allocated.rename, Regs.rename, mem_map_names, paramRegs_width]

end

section

/-- Two runs give every parameter and every returned value the same place, or both have no result. -/
def SamePlaces : Except Die CallAllocated → Except Die CallAllocated → Prop
  | .ok one, .ok other => one.params = other.params ∧ one.returns = other.returns
  | .error _, .error _ => True
  | _, _ => False

variable {run : Run} {call : Call} {done : CallAllocated}

theorem registerAlloc_ok (returned : registerAlloc run call = .ok done) : ∃ params returns,
    registerAllocVars run 0 call.parameters = .ok params ∧
    registerAllocVars run call.parameters.length call.returns = .ok returns ∧
    done.params = params.vars ∧ done.returns = returns.vars := by
  obtain ⟨paramBits, _, further⟩ := bind_ok returned
  obtain ⟨returnBits, _, further⟩ := bind_ok further
  split at further
  · exact nomatch further
  split at further
  · exact nomatch further
  obtain ⟨params, first, further⟩ := bind_ok further
  obtain ⟨returns, second, same⟩ := bind_ok further
  cases same
  exact ⟨params, returns, first, second, rfl, rfl⟩

/-- A call with a variable has a place for it. -/
theorem registerAlloc_place (returned : registerAlloc run call = .ok done)
    (some : ¬ (call.parameters = [] ∧ call.returns = [])) :
    ∃ name slot, done.params name = Option.some slot ∨ done.returns name = Option.some slot := by
  obtain ⟨params, returns, first, second, sameParams, sameReturns⟩ := registerAlloc_ok returned
  rw [sameParams, sameReturns]
  by_cases empty : call.parameters = []
  · obtain ⟨var, member⟩ := exists_mem_of_ne_nil _ (fun none => some ⟨empty, none⟩)
    obtain ⟨slot, there, _⟩ := (allocVars_spec nothing_packed second).2.2 var member
    exact ⟨var.name, slot, .inr there⟩
  · obtain ⟨var, member⟩ := exists_mem_of_ne_nil _ empty
    obtain ⟨slot, there, _⟩ := (allocVars_spec nothing_packed first).2.2 var member
    exact ⟨var.name, slot, .inl there⟩

/-- A slot is not the same under another name. -/
theorem rename_swap_ne (slot : Slot) (other : Reg) (different : other ≠ slot.register) :
    slot.rename (Equiv.swap slot.register other) ≠ slot := by
  intro same
  have register := congrArg Slot.register same
  rw [Slot.rename, Equiv.swap_apply_left] at register
  exact different register

theorem exists_other (reg : Reg) : ∃ other : Reg, other ≠ reg := by
  cases reg
  case rdi => exact ⟨.rsi, nofun⟩
  all_goals exact ⟨.rdi, nofun⟩

/-- The two sides of a call that can be generated agree in every two runs only if there is nothing to agree on. -/
theorem registers_agree_iff {call : Call} {run : Run} {done : CallAllocated} (returned : registerAlloc run call = .ok done) :
    (∀ one other, SamePlaces (registerAlloc one call) (registerAlloc other call)) ↔
      call.parameters = [] ∧ call.returns = [] := by
  constructor
  · intro agree
    by_contra nonempty
    -- another run that has two registers exchanged gives one of the variables another place
    obtain ⟨name, slot, there⟩ := registerAlloc_place returned nonempty
    obtain ⟨other, different⟩ := exists_other slot.register
    have same := agree run (run.rename (Equiv.swap slot.register other))
    rw [registerAlloc_rename, returned] at same
    rcases there with there | there
    · have moved := congrFun same.1 name
      simp only [CallAllocated.rename, there, Option.map_some, Option.some.injEq] at moved
      exact absurd moved.symm (rename_swap_ne slot other different)
    · have moved := congrFun same.2 name
      simp only [CallAllocated.rename, there, Option.map_some, Option.some.injEq] at moved
      exact absurd moved.symm (rename_swap_ne slot other different)
  · rintro ⟨noParameters, noReturns⟩ one other
    obtain ⟨parameters, returns⟩ := call
    obtain rfl := noParameters
    obtain rfl := noReturns
    exact ⟨rfl, rfl⟩

/-- A call without variables agrees, and one with a parameter and a returned value does not. -/
theorem registers_agree_both :
    (∀ one other, SamePlaces (registerAlloc one ⟨[], []⟩) (registerAlloc other ⟨[], []⟩)) ∧
    ¬ ∀ one other, SamePlaces (registerAlloc one ⟨[⟨"fd", .named .uint64⟩], [⟨"error", .named .uint64⟩]⟩)
      (registerAlloc other ⟨[⟨"fd", .named .uint64⟩], [⟨"error", .named .uint64⟩]⟩) := by
  constructor
  · exact (@registers_agree_iff ⟨[], []⟩ listed _ rfl).mpr ⟨rfl, rfl⟩
  · intro agree
    exact nomatch ((@registers_agree_iff _ listed _ rfl).mp agree).1

/-- One run starts with `rdi` and another one with `rsi`. -/
theorem sides_disagree : ∃ caller handler one other, registerAlloc caller ⟨[⟨"fd", .named .uint64⟩], []⟩ = .ok one ∧
    registerAlloc handler ⟨[⟨"fd", .named .uint64⟩], []⟩ = .ok other ∧
    one.params "fd" = some ⟨.rdi, 0, 64⟩ ∧ other.params "fd" = some ⟨.rsi, 0, 64⟩ :=
  ⟨listed, listed.rename (Equiv.swap .rdi .rsi), _, _, rfl, rfl, rfl, rfl⟩

end

end Lfos.RegisterAllocation
