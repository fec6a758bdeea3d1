import Mathlib.Algebra.Ring.Int.Defs
import Mathlib.Algebra.Ring.Nat
import Mathlib.Data.List.Forall2

/-!
# The generated system calls

A description lists the parameters and the returned values of a system call, each with a
type and a register. From it the generator makes a wrapper for programs and a case of the
kernel's dispatcher. The wrapper packs the arguments of one register into a word, in the
order of the list and from the low bits up, and the case cuts them out again; the returned
values go back in the same way.

Generated C is kept as the data that decides what it does: the pieces of a word with their
shifts and masks. It is run on words of 64 bits. The masks are positive, so that the
narrower type in which C may compute `name & mask` gives the same word.
-/

namespace Lfos.SyscallGenerator

open Function

/-- The types of `%TYPES`, and any pointer type. -/
inductive CType where
  | uint8 | uint16 | uint32 | uint64 | int8 | int16 | int32 | int64 | pid | size | bool | pointer
  deriving DecidableEq, Repr

structure TypeData where
  length : Nat
  signed : Bool
  deriving DecidableEq, Repr

def typeData : CType → TypeData
  | .uint8 => ⟨8, false⟩
  | .uint16 => ⟨16, false⟩
  | .uint32 => ⟨32, false⟩
  | .uint64 => ⟨64, false⟩
  | .int8 => ⟨8, true⟩
  | .int16 => ⟨16, true⟩
  | .int32 => ⟨32, true⟩
  | .int64 => ⟨64, true⟩
  | .pid => ⟨64, true⟩
  | .size => ⟨64, false⟩
  | .bool => ⟨1, false⟩
  | .pointer => ⟨64, false⟩

/-- The general registers that `cpu_state` has. -/
inductive Reg where
  | rax | rbx | rcx | rdx | rsi | rdi | rbp | rsp | r8 | r9 | r10 | r11 | r12 | r13 | r14 | r15
  deriving DecidableEq, Repr

/-- The variables of the generated code: the wrapper names its own after the registers, and the dispatcher has `cpu`. -/
def ownNames : List String :=
  ["cpu", "rax", "rbx", "rcx", "rdx", "rsi", "rdi", "rbp", "rsp", "r8", "r9", "r10", "r11", "r12", "r13", "r14", "r15"]

def regToInlineAsm : Reg → Option Char
  | .rax => some 'a'
  | .rbx => some 'b'
  | .rcx => some 'c'
  | .rdx => some 'd'
  | .rsi => some 'S'
  | .rdi => some 'D'
  | _ => none

/-- A parameter or a returned value. -/
structure Field where
  name : String
  type : CType
  reg : Reg
  deriving DecidableEq, Repr

/-- C takes no two parameters of one name, and a field hides no variable of the generated code. -/
structure Syscall where
  number : Nat
  parameters : List Field
  returns : List Field
  names : ((parameters ++ returns).map Field.name).Nodup
  unused : ∀ name ∈ (parameters ++ returns).map Field.name, name ∉ ownNames

/-- C takes no two cases of one number. -/
structure Group where
  number : Nat
  syscalls : List Syscall
  numbers : (syscalls.map Syscall.number).Nodup

structure Interface where
  groups : List Group
  numbers : (groups.map Group.number).Nodup

/-- The values of a type. -/
def InRange (type : CType) (value : Int) : Prop :=
  if (typeData type).signed then -2 ^ ((typeData type).length - 1) ≤ value ∧ value < 2 ^ ((typeData type).length - 1)
  else 0 ≤ value ∧ value < 2 ^ (typeData type).length

instance (type : CType) (value : Int) : Decidable (InRange type value) :=
  if signed : (typeData type).signed then decidable_of_iff _ (iff_of_eq (if_pos signed)).symm
  else decidable_of_iff _ (iff_of_eq (if_neg signed)).symm

/-- One value for each field. -/
def Values (fields : List Field) (values : List Int) : Prop :=
  List.Forall₂ (fun field value => InRange field.type value) fields values

inductive Die where
  | bits (total : Nat)
  | groupOverflow
  | syscallOverflow
  deriving DecidableEq, Repr

/-- The order in which a hash from registers to fields is gone through. -/
structure Hash where
  keys : List Field → List Reg
  nodup : ∀ fields, (keys fields).Nodup
  covers : ∀ fields reg, reg ∈ keys fields ↔ ∃ field ∈ fields, field.reg = reg

/-- One field in a word: `(uint64_t)(name & mask) << shift`, or `(word >> shift) & mask`. -/
structure Piece where
  name : String
  type : CType
  shift : Nat
  mask : Option Nat
  deriving DecidableEq, Repr

def maskOf (type : CType) : Option Nat :=
  if (typeData type).length < 64 then some (2 ^ (typeData type).length - 1) else none

/-- The loop that counts the bits before a field. -/
def pieces (bitsBefore : Nat) : List Field → List Piece
  | [] => []
  | field :: rest =>
    ⟨field.name, field.type, bitsBefore, maskOf field.type⟩ :: pieces (bitsBefore + (typeData field.type).length) rest

def onRegister (fields : List Field) (reg : Reg) : List Field := fields.filter (fun field => field.reg = reg)

def totalBits (fields : List Field) : Nat := (fields.map (fun field => (typeData field.type).length)).sum

/-- The loop over the registers, which all four parts of the generated code go through. -/
def renderRegister (fields : List Field) (reg : Reg) : Except Die (Reg × List Piece) :=
  if 64 < totalBits (onRegister fields reg) then .error (.bits (totalBits (onRegister fields reg)))
  else .ok (reg, pieces 0 (onRegister fields reg))

/-- `sc_do_…` -/
structure Wrapper where
  packed : List (Reg × List Piece)
  rdx : BitVec 64
  outputs : List Reg
  inputs : List Reg
  unpacked : List (Reg × List Piece)

/-- A case of `sc_handle`. -/
structure Case where
  decoded : List (Reg × List Piece)
  arguments : List String
  results : List String
  encoded : List (Reg × List Piece)

/-- C computes the number as an `int` and extends it. -/
def callNumber (group syscall : Nat) : BitVec 64 :=
  (((BitVec.ofNat 32 group &&& 0xFF) <<< 24) ||| (BitVec.ofNat 32 syscall &&& 0xFFFFFF)).signExtend 64

def renderSyscallFunc (hash : Hash) (group : Group) (syscall : Syscall) : Except Die Wrapper := do
  let packed ← (hash.keys syscall.parameters).mapM (renderRegister syscall.parameters)
  if 0xFF < group.number then .error .groupOverflow
  else if 0xFFFFFF < syscall.number then .error .syscallOverflow
  else do
    let unpacked ← (hash.keys syscall.returns).mapM (renderRegister syscall.returns)
    .ok {
      packed
      rdx := callNumber group.number syscall.number
      outputs := hash.keys syscall.returns
      inputs := hash.keys syscall.parameters ++ [.rdx]
      unpacked }

def renderSyscallDecode (hash : Hash) (syscall : Syscall) : Except Die (Nat × Case) := do
  let decoded ← (hash.keys syscall.parameters).mapM (renderRegister syscall.parameters)
  let encoded ← (hash.keys syscall.returns).mapM (renderRegister syscall.returns)
  .ok (syscall.number, {
    decoded
    arguments := syscall.parameters.map Field.name
    results := syscall.returns.map Field.name
    encoded })

def renderGroup (hash : Hash) (group : Group) : Except Die (Nat × List (Nat × Case)) := do
  let cases ← group.syscalls.mapM (renderSyscallDecode hash)
  .ok (group.number, cases)

/-- The two `switch` statements of `sc_handle`. -/
def renderDispatcher (hash : Hash) (interface : Interface) : Except Die (List (Nat × List (Nat × Case))) :=
  interface.groups.mapM (renderGroup hash)

abbrev Registers := Reg → BitVec 64

abbrev Variables := String → Int

def masked (mask : Option Nat) (word : BitVec 64) : BitVec 64 :=
  match mask with
  | some mask => word &&& BitVec.ofNat 64 mask
  | none => word

def Piece.word (env : Variables) (piece : Piece) : BitVec 64 :=
  masked piece.mask (BitVec.ofInt 64 (env piece.name)) <<< piece.shift

/-- The pieces of a word, put together by `|`. -/
def packedWord (env : Variables) : List Piece → BitVec 64
  | [] => 0
  | piece :: rest => piece.word env ||| packedWord env rest

/-- The conversion of a word to the type of the variable it is assigned to. -/
def convert (type : CType) (word : BitVec 64) : Int :=
  match type with
  | .bool => if word = 0 then 0 else 1
  | _ =>
    if (typeData type).signed then (word.setWidth (typeData type).length).toInt
    else (word.setWidth (typeData type).length).toNat

def Piece.value (piece : Piece) (word : BitVec 64) : Int := convert piece.type (masked piece.mask (word >>> piece.shift))

/-- Pack the registers of the list, and leave the others. -/
def packAll (env : Variables) (packed : List (Reg × List Piece)) (registers : Registers) : Registers :=
  packed.foldl (fun registers item => update registers item.1 (packedWord env item.2)) registers

def unpackWord (word : BitVec 64) (env : Variables) (list : List Piece) : Variables :=
  list.foldl (fun env piece => update env piece.name (piece.value word)) env

def unpackAll (registers : Registers) (unpacked : List (Reg × List Piece)) (env : Variables) : Variables :=
  unpacked.foldl (fun env item => unpackWord (registers item.1) env item.2) env

def bindAll (names : List String) (values : List Int) (env : Variables) : Variables :=
  (names.zip values).foldl (fun env item => update env item.1 item.2) env

/-- What becomes of a call other than its results. -/
inductive Failure where
  | impossibleConstraint
  | invalidSyscallGroup
  | invalidSyscall
  deriving DecidableEq, Repr

def clobbers : List Reg := [.rbx, .rcx, .r11]

/-- The register a letter of an operand stands for. -/
def operandRegister : Char → Option Reg
  | 'a' => some .rax
  | 'b' => some .rbx
  | 'c' => some .rcx
  | 'd' => some .rdx
  | 'S' => some .rsi
  | 'D' => some .rdi
  | _ => none

/-- The compiler refuses an operand in a register that the statement says it destroys. -/
def operandsAllowed (operands : List Reg) : Bool :=
  operands.all (fun reg => (regToInlineAsm reg).bind operandRegister ∉ clobbers.map some)

/-- Only an operand with a letter is sure to be in its register. -/
def bound (operands : List Reg) (reg : Reg) : Bool :=
  reg ∈ operands ∧ (regToInlineAsm reg).bind operandRegister = some reg

/-- What a program's registers are when it calls. -/
structure Caller where
  registers : Registers
  rip : BitVec 64
  rflags : BitVec 64

/-- `syscall` overwrites two registers, and `_syscall_handler` a third one. -/
def enter (caller : Caller) (registers : Registers) : Registers
  | .rcx => caller.rip
  | .r11 => caller.rflags
  | .rbx => registers .rsp
  | reg => registers reg

/-- What reaches the handler, and what comes back. -/
structure Outcome where
  group : Nat
  syscall : Nat
  arguments : List Int
  returned : List Int
  deriving DecidableEq, Repr

/-- The handlers: the values that each stores for its arguments. -/
abbrev Handlers := Nat → Nat → List Int → List Int

/-- A variable that is not set yet. -/
def unset : Variables := fun _ => 0

def Case.run (case : Case) (handler : List Int → List Int) (cpu : Registers) : List Int × Registers :=
  let decoded := unpackAll cpu case.decoded unset
  let arguments := case.arguments.map decoded
  let stored := bindAll case.results (handler arguments) decoded
  (arguments, packAll stored case.encoded cpu)

def scHandle (dispatcher : List (Nat × List (Nat × Case))) (handlers : Handlers) (cpu : Registers) :
    Except Failure (Nat × Nat × List Int × Registers) :=
  let group := (((cpu .rdx >>> 24) &&& 0xFF).setWidth 8).toNat
  let syscall := ((cpu .rdx &&& 0xFFFFFF).setWidth 32).toNat
  match dispatcher.find? (fun entry => entry.1 = group) with
  | none => .error .invalidSyscallGroup
  | some (_, cases) =>
    match cases.find? (fun entry => entry.1 = syscall) with
    | none => .error .invalidSyscall
    | some (_, case) => .ok (group, syscall, case.run (handlers group syscall) cpu)

/-- The local variables of the wrapper, which are named after the registers. -/
def Wrapper.locals (wrapper : Wrapper) (parameters : Variables) : Registers :=
  update (packAll parameters wrapper.packed (fun _ => 0)) .rdx wrapper.rdx

/-- The registers when `syscall` is executed. -/
def Wrapper.loaded (wrapper : Wrapper) (caller : Caller) (parameters : Variables) : Registers := fun reg =>
  if bound wrapper.inputs reg then wrapper.locals parameters reg else caller.registers reg

/-- The local variables after it. -/
def Wrapper.stored (wrapper : Wrapper) (parameters : Variables) (cpu : Registers) : Registers := fun reg =>
  if bound wrapper.outputs reg then cpu reg else wrapper.locals parameters reg

/-- A program calls the wrapper. -/
def Wrapper.call (wrapper : Wrapper) (dispatcher : List (Nat × List (Nat × Case))) (handlers : Handlers)
    (caller : Caller) (syscall : Syscall) (arguments : List Int) : Except Failure Outcome :=
  if operandsAllowed (wrapper.inputs ++ wrapper.outputs) then do
    let parameters := bindAll (syscall.parameters.map Field.name) arguments unset
    let (group, number, received, cpu) ← scHandle dispatcher handlers (enter caller (wrapper.loaded caller parameters))
    let results := unpackAll (wrapper.stored parameters cpu) wrapper.unpacked parameters
    .ok ⟨group, number, received, (syscall.returns.map Field.name).map results⟩
  else .error .impossibleConstraint

end Lfos.SyscallGenerator
