import Lfos.PortPermissions
import Lfos.ServiceDiscovery
import Lfos.SyscallMarshalling
import Lfos.SystemCalls

/-!
# The values that system calls return

A case of the dispatcher declares a variable for each returned value without an initial value,
hands their addresses to the handler, and packs the variables into the registers of the caller. What a
handler does not store is therefore what the stack of the kernel held before.

A handler is represented by what it stores, with `none` for a parameter that it leaves alone. The
address that a framebuffer is mapped to and the answers of the allocator are arguments.
-/

namespace Lfos.ReturnValues

open Processes SyscallGenerator Function List

/-- The part of `fbconsole_data` that the call reads, with `fbconsole_active`. -/
structure Fbconsole where
  active : Bool
  width : Int
  height : Int
  stride : Int
  fb : Nat

def scHandleHardwareFramebuffer (console : Fbconsole) (hardware : Nat) : List (Option Int) × Fbconsole :=
  if console.active then
    let sizes := [some (console.width % 2 ^ 16), some (console.height % 2 ^ 16), some (console.stride % 2 ^ 16), some 0]
    if console.fb ≠ 0 then (some (hardware : Int) :: sizes, { console with active := false })
    else (some 0 :: sizes, console)
  else ([none, none, none, none, none], console)

structure State where
  kernel : Kernel
  ports : PortPermissions.Machine
  sd : ServiceDiscovery.Sd
  console : Fbconsole

/-- The calls, with their arguments. -/
inductive Call where
  | framebuffer (hardware : Nat)
  | ioperm (first num : Nat) (turnOn : Bool) (answers : PortPermissions.Answers)
  | createMutex
  | destroyMutex (mutex : Nat)
  | lockMutex (mutex : Nat) (trylock : Bool)
  | unlockMutex (mutex : Nat)
  | createCondvar
  | destroyCondvar (condvar : Nat)
  | signalCondvar (condvar : Nat) (amount : Fin (2 ^ 64))
  | waitCondvar (condvar : Nat)
  | mqSend (mq pid size : Nat)
  | serviceRegister (uuid : ServiceDiscovery.Uuid) (mq : Nat)
  | serviceDiscover (uuid : ServiceDiscovery.Uuid) (typed : Bool) (size : Nat)

/-- The queues registered under a service. -/
def queuesOf (sd : ServiceDiscovery.Sd) (uuid : ServiceDiscovery.Uuid) : Option (Option (List Nat)) := do
  let entry ← ServiceDiscovery.findEntry sd.heap uuid (sd.allocations + 1) (sd.entryShortcut (ServiceDiscovery.uuidKey uuid))
  if entry = 0 then some none
  else do
    let cell ← sd.heap entry
    some (some cell.queues)

/-- A handler that stores parts of its outcome. -/
def storing (parts : Processes.Outcome → List (Option Nat)) (state : State)
    (result : Except Panic (Processes.Outcome × Kernel)) : Option (List (Option Int) × State) :=
  result.toOption.map (fun (outcome, kernel) => ((parts outcome).map (Option.map Int.ofNat), { state with kernel }))

/-- A handler that stores an error only. -/
abbrev storingError := storing (fun outcome => [outcome.error])

/-- A handler that stores a value and an error. -/
abbrev storingBoth := storing (fun outcome => [outcome.value, outcome.error])

/-- What the handlers store into their return parameters, in the order of these; `none` if a handler panics or faults. -/
def handle (state : State) : Call → Option (List (Option Int) × State)
  | .framebuffer hardware =>
    let (stored, console) := scHandleHardwareFramebuffer state.console hardware
    some (stored, { state with console })
  | .ioperm first num turnOn answers =>
    some ([some 0],
      { state with ports := PortPermissions.scHandleHardwareIoperm state.ports state.kernel.current first num turnOn answers })
  | .createMutex => storingBoth state (scHandleLockingCreateMutex state.kernel)
  | .destroyMutex mutex => storingError state (scHandleLockingDestroyMutex state.kernel mutex)
  | .lockMutex mutex trylock => storingError state (scHandleLockingLockMutex state.kernel mutex trylock)
  | .unlockMutex mutex => storingError state (scHandleLockingUnlockMutex state.kernel mutex)
  | .createCondvar => storingBoth state (.ok (scHandleLockingCreateCondvar state.kernel))
  | .destroyCondvar condvar => storingError state (.ok (scHandleLockingDestroyCondvar state.kernel condvar))
  | .signalCondvar condvar amount => storingError state (scHandleLockingSignalCondvar state.kernel condvar amount)
  | .waitCondvar condvar => storingError state (.ok (scHandleLockingWaitCondvar state.kernel condvar))
  | .mqSend mq pid size => storingError state (scHandleIpcMqSend state.kernel mq pid size)
  | .serviceRegister uuid mq => do
    let (error, sd) ← ServiceDiscovery.sdRegister state.sd uuid (state.kernel.queueOr mq)
    some ([some (error : Int)], { state with sd })
  | .serviceDiscover uuid typed size =>
    (if typed then queuesOf state.sd uuid else some none).bind (fun service =>
      storingError state (scHandleIpcServiceDiscover state.kernel typed service size))

/-- The descriptions of the calls in `syscalls.yml`. -/
def Call.description : Call → Syscall
  | .framebuffer _ => SyscallGenerator.framebuffer
  | .ioperm .. => SyscallGenerator.ioperm
  | .createMutex => ⟨0, [], [⟨"mutex", .uint64, .rax⟩, ⟨"error", .uint64, .rdi⟩], by decide, by decide⟩
  | .destroyMutex _ => ⟨1, [⟨"mutex", .uint64, .rax⟩], [⟨"error", .uint64, .rdi⟩], by decide, by decide⟩
  | .lockMutex .. => ⟨2, [⟨"mutex", .uint64, .rax⟩, ⟨"trylock", .bool, .rdi⟩], [⟨"error", .uint64, .rax⟩], by decide, by decide⟩
  | .unlockMutex _ => ⟨3, [⟨"mutex", .uint64, .rax⟩], [⟨"error", .uint64, .rax⟩], by decide, by decide⟩
  | .createCondvar => ⟨4, [], [⟨"condvar", .uint64, .rax⟩, ⟨"error", .uint64, .rdi⟩], by decide, by decide⟩
  | .destroyCondvar _ => ⟨5, [⟨"condvar", .uint64, .rax⟩], [⟨"error", .uint64, .rdi⟩], by decide, by decide⟩
  | .signalCondvar .. => ⟨6, [⟨"condvar", .uint64, .rax⟩, ⟨"amount", .uint64, .rdi⟩], [⟨"error", .uint64, .rdi⟩], by decide, by decide⟩
  | .waitCondvar _ => ⟨7, [⟨"condvar", .uint64, .rax⟩, ⟨"timeout", .uint64, .rdi⟩], [⟨"error", .uint64, .rdi⟩], by decide, by decide⟩
  | .mqSend .. => ⟨3, [⟨"queue", .uint64, .rax⟩, ⟨"process", .uint64, .rdi⟩, ⟨"message", .pointer, .rsi⟩],
      [⟨"error", .uint64, .rax⟩], by decide, by decide⟩
  | .serviceRegister .. => ⟨4, [⟨"uuid", .pointer, .rax⟩, ⟨"queue", .uint64, .rdi⟩], [⟨"error", .uint64, .rax⟩], by decide, by decide⟩
  | .serviceDiscover .. => ⟨5, [⟨"uuid", .pointer, .rax⟩, ⟨"queue", .uint64, .rdi⟩, ⟨"message", .pointer, .rsi⟩],
      [⟨"error", .uint64, .rax⟩], by decide, by decide⟩

/-- Store the values of a handler; a variable that it leaves alone keeps its content. -/
def storeAll (names : List String) (stored : List (Option Int)) (env : Variables) : Variables :=
  (names.zip stored).foldl (fun env item => update env item.1 (item.2.getD (env item.1))) env

/-- The end of a case: the registers after the handler has stored its values into local variables. -/
def encode (case : Case) (stored : List (Option Int)) (locals : Variables) (cpu : Registers) : Registers :=
  packAll (storeAll case.results stored locals) case.encoded cpu

/-- The handler stored a value into every return parameter. -/
def Stored (stored : List (Option Int)) : Prop := ∀ value ∈ stored, value.isSome = true

/-- The registers do not depend on what the local variables held. -/
def Independent (case : Case) (stored : List (Option Int)) : Prop :=
  ∀ locals others cpu, encode case stored locals cpu = encode case stored others cpu

/-- When a call stores all that it returns. -/
def Defined (state : State) : Call → Prop
  | .framebuffer _ => state.console.active = true
  | .createMutex => state.kernel.nextMutex ≠ 0
  | .createCondvar => state.kernel.nextCondvar ≠ 0
  | .signalCondvar condvar _ => state.kernel.condvars condvar ≠ some 0
  | .mqSend mq pid _ => state.kernel.recipient mq pid ≠ 0
  | _ => True

variable {stored : List (Option Int)}

section

variable {names : List String} {env : Variables} {name : String}

/-- A handler that stores all its values is one of the dispatcher's handlers. -/
theorem storeAll_some (names : List String) (values : List Int) (env : Variables) :
    storeAll names (values.map some) env = bindAll names values env := by
  induction names generalizing values env with
  | nil => rfl
  | cons first rest ih =>
    cases values with
    | nil => rfl
    | cons value values => exact ih values _

theorem run_encode (case : Case) (handler : List Int → List Int) (cpu : Registers) :
    (case.run handler cpu).2 = encode case ((handler (case.run handler cpu).1).map some) (unpackAll cpu case.decoded unset)
    cpu := by
  rw [encode, storeAll_some]
  rfl

theorem storeAll_absent (absent : name ∉ names) : storeAll names stored env name = env name := by
  induction names generalizing stored env with
  | nil => rfl
  | cons first rest ih =>
    rw [mem_cons, not_or] at absent
    cases stored with
    | nil => rfl
    | cons value stored =>
      refine (ih absent.2).trans ?_
      exact update_of_ne absent.1 ..

/-- What a variable holds in the end. -/
theorem storeAll_at (distinct : names.Nodup) {value : Option Int} (member : (name, value) ∈ names.zip stored) :
    storeAll names stored env name = value.getD (env name) := by
  induction names generalizing stored env with
  | nil => exact nomatch member
  | cons first rest ih =>
    rw [nodup_cons] at distinct
    cases stored with
    | nil => exact nomatch member
    | cons head stored =>
      rw [zip_cons_cons, mem_cons] at member
      rcases member with here | later
      · obtain ⟨rfl, rfl⟩ := Prod.mk.inj here
        exact (storeAll_absent distinct.1).trans (update_self ..)
      · have different : name ≠ first := by
          rintro rfl
          exact distinct.1 (of_mem_zip later).1
        refine (ih distinct.2 later).trans ?_
        exact congrArg value.getD (update_of_ne different ..)

variable {fields : List Field} {other : Variables} {before : Nat}

/-- A packed word is about the variables of its fields. -/
theorem packedWord_congr (same : ∀ field ∈ fields, env field.name = other field.name) :
    packedWord env (pieces before fields) = packedWord other (pieces before fields) := by
  induction fields generalizing before with
  | nil => rfl
  | cons field rest ih =>
    have here : env field.name = other field.name := same field mem_cons_self
    rw [pieces, packedWord, packedWord, Piece.word, Piece.word, here,
      ih (forall_mem_cons.mp same).2]

variable {syscall : Syscall} {hash : Hash} {case : Case} {number : Nat}
  (made : renderSyscallDecode hash syscall = .ok (number, case))
include made

/-- The registers are about the returned variables. -/
theorem packAll_congr (same : ∀ field ∈ syscall.returns, env field.name = other field.name) (cpu : Registers) :
    packAll env case.encoded cpu = packAll other case.encoded cpu := by
  obtain ⟨_, _, encoded, _, _⟩ := renderSyscallDecode_ok made
  obtain ⟨list, _⟩ := rendered encoded
  have parts : ∀ item ∈ case.encoded, item.2 = pieces 0 (onRegister syscall.returns item.1) := by
    intro item member
    rw [list, mem_map] at member
    obtain ⟨reg, _, rfl⟩ := member
    rfl
  funext reg
  have words : packedWord env (pieces 0 (onRegister syscall.returns reg)) =
      packedWord other (pieces 0 (onRegister syscall.returns reg)) :=
    packedWord_congr (fun field member => same field (mem_of_mem_filter member))
  rw [packAll_at (fun reg => pieces 0 (onRegister syscall.returns reg)) parts,
    packAll_at (fun reg => pieces 0 (onRegister syscall.returns reg)) parts, words]

/-- The lowest bits of a variable are seen in the registers. -/
theorem seen {field : Field} (member : field ∈ syscall.returns)
    {cpu : Registers} (same : packAll env case.encoded cpu = packAll other case.encoded cpu) :
    ∃ width, 0 < width ∧ BitVec.ofInt width (env field.name) = BitVec.ofInt width (other field.name) := by
  obtain ⟨_, _, encoded, _, _⟩ := renderSyscallDecode_ok made
  have fits : totalBits (onRegister syscall.returns field.reg) ≤ 64 :=
    (rendered encoded).2 field.reg (hash.mem_keys member)
  have onIt : field ∈ onRegister syscall.returns field.reg := mem_filter.mpr ⟨member, decide_eq_true rfl⟩
  obtain ⟨piece, inPieces, named⟩ : ∃ piece ∈ pieces 0 (onRegister syscall.returns field.reg), piece.name = field.name :=
    pieces_covers onIt
  obtain ⟨owner, _, pieceIs, _, ends⟩ := pieces_mem inPieces
  have typed : piece.type = owner.type := congrArg Piece.type pieceIs
  rw [← typed] at ends
  have within : piece.shift + (typeData piece.type).length ≤ 64 := by omega
  have word := congrFun same field.reg
  rw [packed_at encoded member, packed_at encoded member] at word
  have read := congrArg (place piece.type piece.shift within).read word
  rw [packed_read inPieces (by omega) within, packed_read inPieces (by omega) within, named] at read
  exact ⟨_, length_pos piece.type, read⟩

variable (complete : stored.length = syscall.returns.length)
include complete

/-- The variables and what is stored into them. -/
theorem paired_of_field {field : Field} (member : field ∈ syscall.returns) :
    ∃ value, (field.name, value) ∈ case.results.zip stored := by
  have results : case.results = syscall.returns.map Field.name := (renderSyscallDecode_ok made).2.2.2.2
  have named : field.name ∈ case.results := results ▸ mem_map_of_mem member
  have aligned : case.results.length = stored.length := by rw [results, length_map, complete]
  obtain ⟨index, inside, here⟩ := getElem_of_mem named
  refine ⟨stored.get ⟨index, by omega⟩, ?_⟩
  rw [← here]
  exact mem_iff_getElem.mpr ⟨index, by rw [length_zip]; omega, by simp⟩

theorem paired_of_value {value : Option Int} (member : value ∈ stored) :
    ∃ field ∈ syscall.returns, (field.name, value) ∈ case.results.zip stored := by
  have results : case.results = syscall.returns.map Field.name := (renderSyscallDecode_ok made).2.2.2.2
  obtain ⟨index, inside, here⟩ := getElem_of_mem member
  refine ⟨syscall.returns.get ⟨index, by omega⟩, get_mem .., ?_⟩
  rw [results, ← here]
  exact mem_iff_getElem.mpr ⟨index, by rw [length_zip, length_map]; omega, by simp⟩

/-- The registers do not depend on the local variables exactly if the handler stores into each of them. -/
theorem independent_iff : Independent case stored ↔ Stored stored := by
  have distinct : case.results.Nodup := by
    rw [(renderSyscallDecode_ok made).2.2.2.2]
    exact returns_distinct syscall
  constructor
  · intro independent value member
    by_contra absent
    obtain rfl : value = none := by simpa using absent
    obtain ⟨field, inReturns, paired⟩ := paired_of_value made complete member
    have same := independent (fun _ => 0) (fun _ => 1) (fun _ => 0)
    obtain ⟨width, positive, bits⟩ := seen made inReturns same
    rw [storeAll_at distinct paired, storeAll_at distinct paired] at bits
    have lowest := congrArg (fun word => word.getLsbD 0) bits
    simp [positive] at lowest
  · intro all locals others cpu
    apply packAll_congr made
    intro field member
    obtain ⟨value, paired⟩ := paired_of_field made complete member
    obtain ⟨content, rfl⟩ := Option.isSome_iff_exists.mp (all value (of_mem_zip paired).2)
    rw [storeAll_at distinct paired, storeAll_at distinct paired]
    rfl

end

section

open Results

variable {state after : State} {kernel : Kernel} {value : Option Nat}

/-- If the handler returns it has stored an error. -/
def Reports (result : Except Panic (Processes.Outcome × Kernel)) : Prop :=
  ∀ outcome after, result = .ok (outcome, after) → outcome.error.isSome = true

theorem reports_ok {error : Nat} : Reports (.ok (⟨some error, value⟩, kernel)) := by
  rintro outcome after ⟨⟩
  rfl

theorem reports_bind {Result : Type} {first : Except Panic Result} {rest : Result → Except Panic (Processes.Outcome × Kernel)}
    (reports : ∀ result, Reports (rest result)) : Reports (first >>= rest) := by
  intro outcome after returned
  obtain ⟨result, _, further⟩ := bind_ok returned
  exact reports result outcome after further

theorem reports_ite {condition : Prop} [Decidable condition] {yes no : Except Panic (Processes.Outcome × Kernel)}
    (reportsYes : Reports yes) (reportsNo : Reports no) : Reports (if condition then yes else no) := by
  split
  · exact reportsYes
  · exact reportsNo

variable (kernel)

theorem destroyMutex_reports (mutex : Nat) : Reports (scHandleLockingDestroyMutex kernel mutex) := by
  rw [scHandleLockingDestroyMutex]
  split
  · exact reports_ok
  · exact reports_ite reports_ok (reports_bind (fun _ => reports_ok))

theorem awaitMutex_reports (mutex : Nat) (trylock : Bool) : Reports (.ok (awaitMutex kernel mutex trylock)) := by
  rw [awaitMutex, apply_ite Except.ok]
  exact reports_ite reports_ok reports_ok

theorem lockMutex_reports (mutex : Nat) (trylock : Bool) : Reports (scHandleLockingLockMutex kernel mutex trylock) := by
  rw [scHandleLockingLockMutex]
  split
  · exact reports_ok
  · apply reports_ite (awaitMutex_reports _ _ _)
    apply reports_bind
    rintro ⟨locked, after⟩
    exact reports_ite reports_ok (awaitMutex_reports _ _ _)

theorem unlockMutex_reports (mutex : Nat) : Reports (scHandleLockingUnlockMutex kernel mutex) := by
  rw [scHandleLockingUnlockMutex]
  split
  · exact reports_ok
  · exact reports_ite reports_ok (reports_ite reports_ok (reports_bind (fun _ => reports_ok)))

theorem destroyCondvar_reports (condvar : Nat) : Reports (.ok (scHandleLockingDestroyCondvar kernel condvar)) := by
  rw [scHandleLockingDestroyCondvar]
  split
  · exact reports_ok
  · split <;> exact reports_ok

theorem waitCondvar_reports (condvar : Nat) : Reports (.ok (scHandleLockingWaitCondvar kernel condvar)) := by
  rw [scHandleLockingWaitCondvar]
  split <;> exact reports_ok

theorem serviceDiscover_reports (typed : Bool) (service : Option (List Nat)) (size : Nat) :
    Reports (scHandleIpcServiceDiscover kernel typed service size) := by
  apply reports_ite reports_ok
  split
  · exact reports_ok
  · exact reports_bind (fun _ => reports_ok)

variable {result : Except Panic (Processes.Outcome × Kernel)}

theorem storing_some {parts : Processes.Outcome → List (Option Nat)} (returned : storing parts state result = some (stored, after)) :
    ∃ outcome kernel, result = .ok (outcome, kernel) ∧ stored = (parts outcome).map (Option.map Int.ofNat) := by
  cases result with
  | error panic => exact nomatch returned
  | ok pair =>
    obtain ⟨storedIs, _⟩ := Prod.mk.inj (Option.some.inj returned)
    exact ⟨pair.1, pair.2, rfl, storedIs.symm⟩

/-- What a handler that returns has stored, as far as it matters: as many values as it returns, all of them under the condition. -/
structure Answer (call : Call) (stored : List (Option Int)) (condition : Prop) : Prop where
  complete : stored.length = call.description.returns.length
  all : Stored stored ↔ condition

theorem answer_reports {call : Call} (single : call.description.returns.length = 1) (reports : Reports result)
    (returned : storingError state result = some (stored, after)) : Answer call stored True := by
  obtain ⟨outcome, kernel, resultIs, rfl⟩ := storing_some returned
  have error := reports outcome kernel resultIs
  refine ⟨single.symm, ?_⟩
  simp [Stored, error]

/-- Only a framebuffer that the kernel is in control of is described. -/
theorem framebuffer_answer (console : Fbconsole) (hardware : Nat) :
    Answer (.framebuffer hardware) (scHandleHardwareFramebuffer console hardware).1 (console.active = true) := by
  rw [scHandleHardwareFramebuffer]
  split
  · next active => split <;> exact ⟨rfl, by simp [Stored, active]⟩
  · next handed => exact ⟨rfl, by simp [Stored, handed]⟩

/-- Without an identifier left only the error is stored. -/
theorem createMutex_answer (returned : storingBoth state (scHandleLockingCreateMutex state.kernel) =
    some (stored, after)) : Answer .createMutex stored (state.kernel.nextMutex ≠ 0) := by
  obtain ⟨outcome, kernel, result, rfl⟩ := storing_some returned
  refine ⟨rfl, ?_⟩
  rw [scHandleLockingCreateMutex] at result
  split at result
  · next last =>
    cases result
    simp [Stored, last]
  · next left =>
    obtain ⟨⟨mutex, created⟩, _, result⟩ := bind_ok result
    cases result
    simp [Stored, left]

theorem createCondvar_answer (returned : storingBoth state (.ok (scHandleLockingCreateCondvar state.kernel)) =
    some (stored, after)) : Answer .createCondvar stored (state.kernel.nextCondvar ≠ 0) := by
  obtain ⟨outcome, kernel, result, rfl⟩ := storing_some returned
  refine ⟨rfl, ?_⟩
  rw [scHandleLockingCreateCondvar] at result
  split at result
  · next last =>
    cases result
    simp [Stored, last]
  · next left =>
    cases result
    simp [Stored, left]

/-- Nothing is stored when nobody waits. -/
theorem signalCondvar_answer {condvar : Nat} {amount : Fin (2 ^ 64)}
    (returned : storingError state (scHandleLockingSignalCondvar state.kernel condvar amount) = some (stored, after)) :
    Answer (.signalCondvar condvar amount) stored (state.kernel.condvars condvar ≠ some 0) := by
  obtain ⟨outcome, kernel, result, rfl⟩ := storing_some returned
  refine ⟨rfl, ?_⟩
  rw [scHandleLockingSignalCondvar] at result
  split at result
  · next missing =>
    cases result
    simp [Stored, missing]
  · next waitCount present =>
    split at result
    · next waited =>
      obtain ⟨woken, _, result⟩ := bind_ok result
      cases result
      simp [Stored, present, waited]
    · next nobody =>
      cases result
      simp [Stored, present, not_not.mp nobody]

/-- Nothing is stored when there is no queue to send to. -/
theorem mqSend_answer {mq pid size : Nat}
    (returned : storingError state (scHandleIpcMqSend state.kernel mq pid size) = some (stored, after)) :
    Answer (.mqSend mq pid size) stored (state.kernel.recipient mq pid ≠ 0) := by
  obtain ⟨outcome, kernel, result, rfl⟩ := storing_some returned
  refine ⟨rfl, ?_⟩
  rw [scHandleIpcMqSend] at result
  split at result
  · next somewhere =>
    obtain ⟨⟨error, pushed⟩, _, result⟩ := bind_ok result
    cases result
    simp [Stored, somewhere]
  · next nowhere =>
    cases result
    simp [Stored, not_not.mp nowhere]

theorem handle_answer {call : Call} (returned : handle state call = some (stored, after)) :
    Answer call stored (Defined state call) := by
  cases call with
  | framebuffer hardware =>
    cases returned
    exact framebuffer_answer state.console hardware
  | ioperm first num turnOn answers =>
    cases returned
    exact ⟨rfl, by simp [Stored, Defined]⟩
  | createMutex => exact createMutex_answer returned
  | destroyMutex mutex => exact answer_reports rfl (destroyMutex_reports _ _) returned
  | lockMutex mutex trylock => exact answer_reports rfl (lockMutex_reports _ _ _) returned
  | unlockMutex mutex => exact answer_reports rfl (unlockMutex_reports _ _) returned
  | createCondvar => exact createCondvar_answer returned
  | destroyCondvar condvar => exact answer_reports rfl (destroyCondvar_reports _ _) returned
  | signalCondvar condvar amount => exact signalCondvar_answer returned
  | waitCondvar condvar => exact answer_reports rfl (waitCondvar_reports _ _) returned
  | mqSend mq pid size => exact mqSend_answer returned
  | serviceRegister uuid mq =>
    obtain ⟨⟨error, sd⟩, _, same⟩ := Option.bind_eq_some_iff.mp returned
    cases same
    exact ⟨rfl, by simp [Stored, Defined]⟩
  | serviceDiscover uuid typed size =>
    obtain ⟨service, _, reported⟩ := Option.bind_eq_some_iff.mp returned
    exact answer_reports rfl (serviceDiscover_reports _ _ _ _) reported

end

/-- A call that returns has stored all it returns, and leaves the registers independent of what its local variables held,
exactly if there was something to report: an identifier left, a process that waits, a queue to send to, a
framebuffer of the kernel. -/
theorem returns_defined_iff (hash : Hash) (state after : State) (call : Call) (stored : List (Option Int)) (number : Nat)
    (case : Case) (made : renderSyscallDecode hash call.description = .ok (number, case))
    (returned : handle state call = some (stored, after)) :
    (Stored stored ↔ Defined state call) ∧ (Independent case stored ↔ Defined state call) := by
  have answer := handle_answer returned
  exact ⟨answer.all, (independent_iff made answer.complete).trans answer.all⟩

/-- A kernel after it was started, with a framebuffer. -/
def bootState : State where
  kernel := initKernel
  ports := ⟨fun _ _ => 0, 0, fun _ => 0, 0, fun _ => 0, (0, 0)⟩
  sd := ServiceDiscovery.initSd
  console := ⟨true, 640, 480, 640, 0xFFFFFFFF90000000⟩

theorem returns_defined_iff_framebuffer : ∃ number case stored after,
    renderSyscallDecode lastFirst (Call.framebuffer 0x7F0000000000).description = .ok (number, case) ∧
      handle bootState (.framebuffer 0x7F0000000000) = some (stored, after) ∧ Stored stored ∧ Independent case stored := by
  obtain ⟨number, case, made⟩ : ∃ number case,
      renderSyscallDecode lastFirst (Call.framebuffer 0x7F0000000000).description = .ok (number, case) := ⟨_, _, rfl⟩
  obtain ⟨stored, after, returned⟩ : ∃ stored after, handle bootState (.framebuffer 0x7F0000000000) = some (stored, after) :=
    ⟨_, _, rfl⟩
  have both := returns_defined_iff lastFirst bootState after (.framebuffer 0x7F0000000000) stored number case made returned
  exact ⟨number, case, stored, after, made, returned, both.1.mpr rfl, both.2.mpr rfl⟩

/-- The state after a condition variable was created, on which nobody waits. -/
def condvarState : State :=
  { bootState with kernel := (scHandleLockingCreateCondvar initKernel).2 }

/-- Signalling the condition variable returns as its error whatever the variable for it held. -/
theorem signal_leaks : ∃ number case stored after,
    renderSyscallDecode lastFirst (Call.signalCondvar 1 1).description = .ok (number, case) ∧
      handle condvarState (.signalCondvar 1 1) = some (stored, after) ∧
      encode case stored (fun _ => 0xDEAD) (fun _ => 0) .rdi = 0xDEAD#64 ∧
      encode case stored (fun _ => 0) (fun _ => 0) .rdi = 0#64 :=
  ⟨_, _, _, _, rfl, rfl, by decide, by decide⟩

end Lfos.ReturnValues
