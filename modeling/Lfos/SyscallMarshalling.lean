import Lfos.BitFields
import Lfos.Results
import Lfos.SyscallGenerator
import Mathlib.Data.List.Dedup

/-!
# Marshalling of system calls

What a wrapper packs into registers is what the dispatcher's case cuts out of them, and the
other way round for the returned values, provided that the registers survive the way into
the kernel and back. The fields of a word lie beside each other, so that each is read as it
was placed, and the conversion to its type gives the value back.
-/

namespace Lfos.SyscallGenerator

open BitFields Results List Function

variable {env : Variables} {name : String} {fields : List Field} {registers : Registers} {hash : Hash}

/-- The values of the fields are of their types. -/
abbrev Ranged (fields : List Field) (env : Variables) : Prop := ∀ field ∈ fields, InRange field.type (env field.name)

/-- The registers of the fields hold their values. -/
abbrev Carries (fields : List Field) (env : Variables) (registers : Registers) : Prop :=
  ∀ field ∈ fields, registers field.reg = packedWord env (pieces 0 (onRegister fields field.reg))

theorem Hash.mem_keys (hash : Hash) {field : Field} (member : field ∈ fields) : field.reg ∈ hash.keys fields :=
  (hash.covers fields field.reg).mpr ⟨field, member, rfl⟩

section

theorem length_pos (type : CType) : 0 < (typeData type).length := by cases type <;> decide

theorem length_le (type : CType) : (typeData type).length ≤ 64 := by cases type <;> decide

/-- The bits of a word in which a field of a type lies. -/
abbrev place (type : CType) (shift : Nat) (fits : shift + (typeData type).length ≤ 64) : BitField 64 :=
  ⟨shift, (typeData type).length, fits⟩

theorem getLsbD_ones (count bit : Nat) :
    (BitVec.ofNat 64 (2 ^ count - 1)).getLsbD bit = (decide (bit < 64) && decide (bit < count)) := by
  rw [BitVec.getLsbD_ofNat, Nat.testBit_two_pow_sub_one]

/-- A mask keeps the bits of the type. -/
theorem masked_maskOf (type : CType) (word : BitVec 64) :
    masked (maskOf type) word = (word.setWidth (typeData type).length).setWidth 64 := by
  apply BitVec.eq_of_getLsbD_eq
  intro bit inside
  rw [maskOf]
  split
  next short =>
    rw [masked, BitVec.getLsbD_and, getLsbD_ones]
    simp [inside, Bool.and_comm]
  next long =>
    have whole : bit < (typeData type).length := by omega
    simp [masked, inside, whole]

variable {type : CType} {shift : Nat}

theorem word_place (fits : shift + (typeData type).length ≤ 64) : Piece.word env ⟨name, type, shift, maskOf type⟩ =
    (place type shift fits).place (BitVec.ofInt (typeData type).length (env name)) := by
  have shorter : (BitVec.ofInt 64 (env name)).setWidth (typeData type).length =
      BitVec.ofInt (typeData type).length (env name) := by
    have bits := length_le type
    cases env name with
    | ofNat number => simp [bits]
    | negSucc number => simp [BitVec.setWidth_not bits, bits]
  rw [Piece.word, masked_maskOf, shorter]
  rfl

theorem value_read (fits : shift + (typeData type).length ≤ 64) (word : BitVec 64) :
    Piece.value ⟨name, type, shift, maskOf type⟩ word =
    convert type (((place type shift fits).read word).setWidth 64) := by
  have cut : (word >>> shift).setWidth (typeData type).length = (place type shift fits).read word := by
    apply BitVec.eq_of_getLsbD_eq
    intro bit inside
    rw [getLsbD_read, BitVec.getLsbD_setWidth, BitVec.getLsbD_ushiftRight]
  rw [Piece.value, masked_maskOf, cut]

/-- Conversion to its type gives a value back from its bits. -/
theorem convert_bits {value : Int} (range : InRange type value) :
    convert type ((BitVec.ofInt (typeData type).length value).setWidth 64) = value := by
  have back : ((BitVec.ofInt (typeData type).length value).setWidth 64).setWidth (typeData type).length =
      BitVec.ofInt (typeData type).length value := by
    rw [BitVec.setWidth_setWidth_of_le _ (length_le type), BitVec.setWidth_eq]
  have signed (is : (typeData type).signed = true) : (BitVec.ofInt (typeData type).length value).toInt = value := by
    rw [InRange, if_pos is] at range
    exact BitVec.toInt_ofInt_eq_self (length_pos type) range.1 range.2
  have unsigned (is : ¬ (typeData type).signed = true) :
      ((BitVec.ofInt (typeData type).length value).toNat : Int) = value := by
    rw [InRange, if_neg is] at range
    rw [BitVec.toNat_ofInt, Int.emod_eq_of_lt range.1 (by exact_mod_cast range.2), Int.toNat_of_nonneg range.1]
  by_cases truth : type = .bool
  · obtain rfl := truth
    obtain ⟨low, high⟩ : 0 ≤ value ∧ value < 2 := range
    obtain rfl | rfl : value = 0 ∨ value = 1 := by omega
    · decide
    · decide
  · have plain (word : BitVec 64) : convert type word =
        if (typeData type).signed then (word.setWidth (typeData type).length).toInt
        else (word.setWidth (typeData type).length).toNat := by
      cases type <;> first | rfl | exact absurd rfl truth
    rw [plain, back]
    split
    · exact signed ‹_›
    · exact unsigned ‹_›

end

section

variable {before : Nat} {piece : Piece}

theorem pieces_mem (member : piece ∈ pieces before fields) :
    ∃ field ∈ fields, piece = ⟨field.name, field.type, piece.shift, maskOf field.type⟩ ∧ before ≤ piece.shift ∧
    piece.shift + (typeData field.type).length ≤ before + totalBits fields := by
  induction fields generalizing before with
  | nil => exact nomatch member
  | cons field rest ih =>
    have total : totalBits (field :: rest) = (typeData field.type).length + totalBits rest := sum_cons
    rcases mem_cons.mp member with rfl | later
    · exact ⟨field, mem_cons_self, rfl, le_refl _, by dsimp only; omega⟩
    · obtain ⟨other, inRest, same, behind, ends⟩ := ih later
      exact ⟨other, mem_cons_of_mem _ inRest, same, by omega, by omega⟩

theorem pieces_covers {field : Field} (member : field ∈ fields) : ∃ piece ∈ pieces before fields, piece.name = field.name := by
  induction fields generalizing before with
  | nil => exact nomatch member
  | cons first rest ih =>
    rcases mem_cons.mp member with rfl | later
    · exact ⟨_, mem_cons_self, rfl⟩
    · obtain ⟨piece, inRest, same⟩ := ih later
      exact ⟨piece, mem_cons_of_mem _ inRest, same⟩

/-- The bits before the first field are zero. -/
theorem packed_before {field : BitField 64} (ends : field.low + field.width ≤ before)
    (fits : before + totalBits fields ≤ 64) : field.read (packedWord env (pieces before fields)) = 0 := by
  induction fields generalizing before with
  | nil => exact read_zero field
  | cons first rest ih =>
    have total : totalBits (first :: rest) = (typeData first.type).length + totalBits rest := sum_cons
    have room : before + (typeData first.type).length ≤ 64 := by omega
    have behind : field.low + field.width ≤ before + (typeData first.type).length := by omega
    rw [pieces, packedWord, read_or, word_place room, read_place_beside (.inl ends), ih behind (by omega)]
    simp

/-- A field of a packed word holds the bits of its value. -/
theorem packed_read (member : piece ∈ pieces before fields) (fits : before + totalBits fields ≤ 64)
    (ends : piece.shift + (typeData piece.type).length ≤ 64) :
    (place piece.type piece.shift ends).read (packedWord env (pieces before fields)) =
    BitVec.ofInt (typeData piece.type).length (env piece.name) := by
  induction fields generalizing before with
  | nil => exact nomatch member
  | cons first rest ih =>
    have total : totalBits (first :: rest) = (typeData first.type).length + totalBits rest := sum_cons
    have room : before + (typeData first.type).length ≤ 64 := by omega
    rw [pieces, packedWord, read_or, word_place room]
    rcases mem_cons.mp member with rfl | later
    · have restFits : before + (typeData first.type).length + totalBits rest ≤ 64 := by omega
      rw [read_place_self, packed_before (le_refl (before + (typeData first.type).length)) restFits]
      simp
    · obtain ⟨_, _, _, behind, _⟩ := pieces_mem later
      rw [read_place_beside (.inr behind), ih later (by omega)]
      simp

/-- What is cut out of a packed word is what was packed. -/
theorem value_packed (member : piece ∈ pieces 0 fields) (fits : totalBits fields ≤ 64)
    (ranges : Ranged fields env) : piece.value (packedWord env (pieces 0 fields)) = env piece.name := by
  obtain ⟨field, inFields, same, _, ends⟩ := pieces_mem member
  have named : piece.name = field.name := congrArg Piece.name same
  have typed : piece.type = field.type := congrArg Piece.type same
  have short : piece.shift + (typeData piece.type).length ≤ 64 := by
    rw [typed]
    omega
  have made : piece = ⟨piece.name, piece.type, piece.shift, maskOf piece.type⟩ := by
    rw [named, typed]
    exact same
  have range : InRange piece.type (env piece.name) := by
    rw [named, typed]
    exact ranges field inFields
  have whole : 0 + totalBits fields ≤ 64 := by omega
  rw [made, value_read short, packed_read member whole short, convert_bits range]

end

section

variable {target : Variables}

/-- A list of assignments packs every register it names. -/
theorem packAll_at {packed : List (Reg × List Piece)} (parts : Reg → List Piece)
    (named : ∀ item ∈ packed, item.2 = parts item.1) (reg : Reg) : packAll env packed registers reg =
    if reg ∈ packed.map Prod.fst then packedWord env (parts reg) else registers reg := by
  induction packed generalizing registers with
  | nil => rfl
  | cons item rest ih =>
    have later : ∀ other ∈ rest, other.2 = parts other.1 := (forall_mem_cons.mp named).2
    refine Eq.trans (b := if reg ∈ rest.map Prod.fst then packedWord env (parts reg)
      else update registers item.1 (packedWord env item.2) reg) (ih later) ?_
    rw [map_cons]
    by_cases again : reg ∈ rest.map Prod.fst
    · rw [if_pos again, if_pos (mem_cons_of_mem _ again)]
    · rw [if_neg again]
      by_cases here : reg = item.1
      · rw [here, if_pos mem_cons_self, update_self, named item mem_cons_self]
      · rw [if_neg (by simp [here, again]), update_of_ne here]

theorem unpackWord_at {word : BitVec 64} {list : List Piece}
    (values : ∀ piece ∈ list, piece.value word = target piece.name)
    (known : env name = target name ∨ ∃ piece ∈ list, piece.name = name) :
    unpackWord word env list name = target name := by
  induction list generalizing env with
  | nil => exact known.resolve_right (fun ⟨_, member, _⟩ => not_mem_nil member)
  | cons piece rest ih =>
    have later : ∀ other ∈ rest, other.value word = target other.name := (forall_mem_cons.mp values).2
    change unpackWord word (update env piece.name (piece.value word)) rest name = target name
    apply ih later
    by_cases here : name = piece.name
    · left
      rw [here, update_self]
      exact values piece mem_cons_self
    · rw [update_of_ne here]
      refine known.imp_right ?_
      rintro ⟨other, member, same⟩
      rcases mem_cons.mp member with rfl | later
      · exact absurd same.symm here
      · exact ⟨other, later, same⟩

/-- Variables that are all cut out of the words of their registers have the values of these. -/
theorem unpackAll_at {unpacked : List (Reg × List Piece)}
    (values : ∀ item ∈ unpacked, ∀ piece ∈ item.2, piece.value (registers item.1) = target piece.name)
    (known : env name = target name ∨ ∃ item ∈ unpacked, ∃ piece ∈ item.2, piece.name = name) :
    unpackAll registers unpacked env name = target name := by
  induction unpacked generalizing env with
  | nil => exact known.resolve_right (fun ⟨_, member, _⟩ => not_mem_nil member)
  | cons item rest ih =>
    apply ih (forall_mem_cons.mp values).2
    have first := values item mem_cons_self
    rcases known with already | ⟨other, member, holds⟩
    · exact .inl (unpackWord_at first (.inl already))
    · rcases mem_cons.mp member with rfl | later
      · exact .inl (unpackWord_at first (.inr holds))
      · exact .inr ⟨other, later, holds⟩

theorem bindAll_absent {names : List String} {values : List Int} (absent : name ∉ names) :
    bindAll names values env name = env name := by
  induction names generalizing values env with
  | nil => rfl
  | cons first rest ih =>
    rw [mem_cons, not_or] at absent
    obtain ⟨here, later⟩ := absent
    cases values with
    | nil => rfl
    | cons value values =>
      have unchanged : update env first value name = env name := update_of_ne here ..
      exact (ih later).trans unchanged

/-- Each name is bound to its value. -/
theorem bindAll_values {values : List Int} (range : Values fields values) (distinct : (fields.map Field.name).Nodup) :
    (fields.map Field.name).map (bindAll (fields.map Field.name) values env) = values ∧
    Ranged fields (bindAll (fields.map Field.name) values env) := by
  induction range generalizing env with
  | nil => exact ⟨rfl, nofun⟩
  | @cons field value fields values here _ ih =>
    rw [map_cons, nodup_cons] at distinct
    obtain ⟨rest, ranges⟩ := @ih (update env field.name value) distinct.2
    have first : bindAll ((field :: fields).map Field.name) (value :: values) env field.name = value :=
      (bindAll_absent distinct.1).trans (update_self ..)
    constructor
    · exact congrArg₂ _ first rest
    · intro other member
      rcases mem_cons.mp member with rfl | later
      · rw [first]
        exact here
      · exact ranges other later

end

section

/-- What the generator makes of the registers. -/
theorem rendered {keys : List Reg} {list : List (Reg × List Piece)} (done : keys.mapM (renderRegister fields) = .ok list) :
    list = keys.map (fun reg => (reg, pieces 0 (onRegister fields reg))) ∧
    ∀ reg ∈ keys, totalBits (onRegister fields reg) ≤ 64 := by
  have all := mapM_ok done
  clear done
  induction all with
  | nil => exact ⟨rfl, nofun⟩
  | @cons reg item keys list made _ ih =>
    obtain ⟨rest, bits⟩ := ih
    rw [renderRegister] at made
    split at made
    · exact nomatch made
    next fits =>
      refine ⟨?_, ?_⟩
      · rw [map_cons, ← rest, Except.ok.inj made]
      · intro other member
        rcases mem_cons.mp member with rfl | later
        · omega
        · exact bits other later

variable {list : List (Reg × List Piece)} (done : (hash.keys fields).mapM (renderRegister fields) = .ok list)
include done

theorem packed_at {field : Field} (member : field ∈ fields) :
    packAll env list registers field.reg = packedWord env (pieces 0 (onRegister fields field.reg)) := by
  obtain ⟨rfl, _⟩ := rendered done
  have named : field.reg ∈ hash.keys fields := hash.mem_keys member
  rw [packAll_at (fun reg => pieces 0 (onRegister fields reg))]
  · rw [if_pos]
    simpa using named
  · intro item inList
    obtain ⟨reg, _, rfl⟩ := mem_map.mp inList
    rfl

/-- The fields are cut out of the registers as they were packed. -/
theorem transferred {source : Variables} (ranges : Ranged fields source) (arrived : Carries fields source registers) :
    (fields.map Field.name).map (unpackAll registers list env) = (fields.map Field.name).map source := by
  obtain ⟨rfl, bits⟩ := rendered done
  apply map_congr_left
  intro name inNames
  obtain ⟨field, member, rfl⟩ := mem_map.mp inNames
  apply unpackAll_at
  · intro item inList piece inPieces
    obtain ⟨reg, inKeys, rfl⟩ := mem_map.mp inList
    obtain ⟨other, inFields, rfl⟩ := (hash.covers fields reg).mp inKeys
    rw [arrived other inFields]
    apply value_packed inPieces (bits _ inKeys)
    intro each onSame
    exact ranges each (mem_of_mem_filter onSame)
  · right
    have onSame : field ∈ onRegister fields field.reg := mem_filter.mpr ⟨member, by simp⟩
    obtain ⟨piece, inPieces, same⟩ : ∃ piece ∈ pieces 0 (onRegister fields field.reg), piece.name = field.name :=
      pieces_covers onSame
    exact ⟨_, mem_map.mpr ⟨field.reg, hash.mem_keys member, rfl⟩, piece, inPieces, same⟩

end

/-- A `switch` finds the case of a number. -/
theorem find_case {α β : Type} {number : α → Nat} {render : α → Except Die (Nat × β)} {items : List α}
    {cases : List (Nat × β)} (all : List.Forall₂ (fun item result => render item = .ok result) items cases)
    (numbered : ∀ item result, render item = .ok result → result.1 = number item)
    (distinct : (items.map number).Nodup) {item : α} (member : item ∈ items) :
    ∃ value, cases.find? (fun entry => entry.1 = number item) = some (number item, value) ∧
    render item = .ok (number item, value) := by
  induction all with
  | nil => exact nomatch member
  | @cons first result rest results made _ ih =>
    rw [map_cons, nodup_cons] at distinct
    have same := numbered first result made
    rcases mem_cons.mp member with rfl | later
    · refine ⟨result.2, ?_, ?_⟩
      · rw [find?_cons_of_pos (by simpa using same), ← same]
      · rw [made, ← same]
    · have other : result.1 ≠ number item := by
        rw [same]
        exact fun equal => distinct.1 (equal ▸ mem_map_of_mem later)
      rw [find?_cons_of_neg (by simpa using other)]
      exact ih distinct.2 later

/-- The bits of the number in `rdx`: those of the group lie behind those of the call. -/
theorem getLsbD_callNumber (group syscall : Nat) {bit : Nat} (inside : bit < 32) :
    (callNumber group syscall).getLsbD bit = if bit < 24 then syscall.testBit bit else group.testBit (bit - 24) := by
  have ones (count : Nat) {bit : Nat} (inside : bit < 32) :
      (BitVec.ofNat 32 (2 ^ count - 1)).getLsbD bit = decide (bit < count) := by
    rw [BitVec.getLsbD_ofNat]
    simp [inside]
  have call : (0xFFFFFF : BitVec 32).getLsbD bit = decide (bit < 24) := ones 24 inside
  have byte : (0xFF : BitVec 32).getLsbD (bit - 24) = decide (bit - 24 < 8) := ones 8 (by omega)
  have wide : bit < 64 := by omega
  rw [callNumber, BitVec.getLsbD_signExtend, BitVec.getLsbD_or, BitVec.getLsbD_shiftLeft, BitVec.getLsbD_and,
    BitVec.getLsbD_and, call, byte, BitVec.getLsbD_ofNat, BitVec.getLsbD_ofNat]
  by_cases low : bit < 24
  · simp only [low, inside, wide, decide_true, Bool.true_and, Bool.and_true, Bool.not_true, Bool.false_and,
      Bool.false_or, if_true]
  · have small : bit - 24 < 32 := by omega
    have last : bit - 24 < 8 := by omega
    simp only [low, inside, wide, small, last, decide_true, decide_false, Bool.true_and, Bool.and_true, Bool.not_false, Bool.and_false,
      Bool.or_false, if_true, if_false]

theorem group_decoded {group : Nat} (small : group ≤ 0xFF) (syscall : Nat) :
    (((callNumber group syscall >>> 24) &&& 0xFF).setWidth 8).toNat = group := by
  have same : ((callNumber group syscall >>> 24) &&& 0xFF).setWidth 8 = BitVec.ofNat 8 group := by
    apply BitVec.eq_of_getLsbD_eq
    intro bit inside
    have byte : (0xFF : BitVec 64).getLsbD bit = (decide (bit < 64) && decide (bit < 8)) := getLsbD_ones 8 bit
    have behind : ¬ 24 + bit < 24 := by omega
    rw [BitVec.getLsbD_setWidth, BitVec.getLsbD_and, BitVec.getLsbD_ushiftRight, byte, getLsbD_callNumber _ _ (by
      omega), if_neg behind, BitVec.getLsbD_ofNat]
    have wide : bit < 64 := by omega
    simp [inside, wide]
  rw [same, BitVec.toNat_ofNat]
  omega

theorem syscall_decoded {syscall : Nat} (small : syscall ≤ 0xFFFFFF) (group : Nat) :
    ((callNumber group syscall &&& 0xFFFFFF).setWidth 32).toNat = syscall := by
  have same : (callNumber group syscall &&& 0xFFFFFF).setWidth 32 = BitVec.ofNat 32 syscall := by
    apply BitVec.eq_of_getLsbD_eq
    intro bit inside
    have call : (0xFFFFFF : BitVec 64).getLsbD bit = (decide (bit < 64) && decide (bit < 24)) := getLsbD_ones 24 bit
    rw [BitVec.getLsbD_setWidth, BitVec.getLsbD_and, call, getLsbD_callNumber _ _ inside, BitVec.getLsbD_ofNat]
    have wide : bit < 64 := by omega
    by_cases low : bit < 24
    · simp [low, inside, wide]
    · have absent : syscall.testBit bit = false := by
        apply Nat.testBit_lt_two_pow
        calc syscall < 2 ^ 24 := by omega
          _ ≤ 2 ^ bit := Nat.pow_le_pow_right (by decide) (by omega)
      simp [low, absent]
  rw [same, BitVec.toNat_ofNat]
  omega

section

/-- The registers that have a letter and that keep their value on the way into the kernel. -/
def Usable (reg : Reg) : Prop := (regToInlineAsm reg).isSome ∧ reg ∉ clobbers ∧ reg ≠ .rdx

instance (reg : Reg) : Decidable (Usable reg) := inferInstanceAs (Decidable (_ ∧ _ ∧ _))

variable {reg : Reg}

theorem usable_cases (usable : Usable reg) : reg = .rax ∨ reg = .rsi ∨ reg = .rdi := by
  cases reg <;> first | exact absurd usable (by decide) | decide

theorem usable_bound (usable : Usable reg) : (regToInlineAsm reg).bind operandRegister = some reg := by
  rcases usable_cases usable with rfl | rfl | rfl <;> rfl

theorem usable_enter (usable : Usable reg) (caller : Caller) (registers : Registers) :
    enter caller registers reg = registers reg := by
  rcases usable_cases usable with rfl | rfl | rfl <;> rfl

theorem usable_allowed {operands : List Reg} (usable : ∀ reg ∈ operands, Usable reg ∨ reg = .rdx) :
    operandsAllowed operands = true := by
  rw [operandsAllowed, all_eq_true]
  intro reg member
  rcases usable reg member with good | rfl
  · rcases usable_cases good with rfl | rfl | rfl <;> decide
  · decide

theorem usable_bound_in {operands : List Reg} (usable : Usable reg) (member : reg ∈ operands) :
    bound operands reg = true :=
  decide_eq_true ⟨member, usable_bound usable⟩

variable {group : Group} {syscall : Syscall}

theorem renderSyscallFunc_ok {wrapper : Wrapper} (done : renderSyscallFunc hash group syscall = .ok wrapper) :
    (hash.keys syscall.parameters).mapM (renderRegister syscall.parameters) = .ok wrapper.packed ∧
    (hash.keys syscall.returns).mapM (renderRegister syscall.returns) = .ok wrapper.unpacked ∧
    group.number ≤ 0xFF ∧ syscall.number ≤ 0xFFFFFF ∧ wrapper.rdx = callNumber group.number syscall.number ∧
    wrapper.outputs = hash.keys syscall.returns ∧ wrapper.inputs = hash.keys syscall.parameters ++ [.rdx] := by
  obtain ⟨packed, first, further⟩ := bind_ok done
  split at further
  · exact nomatch further
  next smallGroup =>
    split at further
    · exact nomatch further
    next smallCall =>
      obtain ⟨unpacked, second, same⟩ := bind_ok further
      cases same
      exact ⟨first, second, by omega, by omega, rfl, rfl, rfl⟩

theorem renderSyscallDecode_ok {result : Nat × Case} (done : renderSyscallDecode hash syscall = .ok result) :
    result.1 = syscall.number ∧
    (hash.keys syscall.parameters).mapM (renderRegister syscall.parameters) = .ok result.2.decoded ∧
    (hash.keys syscall.returns).mapM (renderRegister syscall.returns) = .ok result.2.encoded ∧
    result.2.arguments = syscall.parameters.map Field.name ∧ result.2.results = syscall.returns.map Field.name := by
  obtain ⟨decoded, first, further⟩ := bind_ok done
  obtain ⟨encoded, second, same⟩ := bind_ok further
  cases same
  exact ⟨rfl, first, second, rfl, rfl⟩

theorem renderGroup_ok {result : Nat × List (Nat × Case)} (done : renderGroup hash group = .ok result) :
    result.1 = group.number ∧ group.syscalls.mapM (renderSyscallDecode hash) = .ok result.2 := by
  obtain ⟨cases, made, same⟩ := bind_ok done
  cases same
  exact ⟨rfl, made⟩

/-- The dispatcher selects the case of the number in `rdx`. -/
theorem scHandle_selects {interface : Interface} {dispatcher : List (Nat × List (Nat × Case))}
    (dispatched : renderDispatcher hash interface = .ok dispatcher) (inGroups : group ∈ interface.groups)
    (inGroup : syscall ∈ group.syscalls) (groupSmall : group.number ≤ 0xFF) (callSmall : syscall.number ≤ 0xFFFFFF)
    {cpu : Registers} (number : cpu .rdx = callNumber group.number syscall.number) (handlers : Handlers) :
    ∃ case, renderSyscallDecode hash syscall = .ok (syscall.number, case) ∧ scHandle dispatcher handlers cpu =
    .ok (group.number, syscall.number, case.run (handlers group.number syscall.number) cpu) := by
  obtain ⟨cases, foundGroup, madeGroup⟩ := find_case (mapM_ok dispatched)
    (fun _ _ made => (renderGroup_ok made).1) interface.numbers inGroups
  obtain ⟨case, foundCall, madeCall⟩ := find_case (mapM_ok (renderGroup_ok madeGroup).2)
    (fun _ _ made => (renderSyscallDecode_ok made).1) group.numbers inGroup
  refine ⟨case, madeCall, ?_⟩
  rw [scHandle, number, group_decoded groupSmall, syscall_decoded callSmall]
  simp only [foundGroup, foundCall]

theorem parameters_distinct (syscall : Syscall) : (syscall.parameters.map Field.name).Nodup := by
  have all := syscall.names
  rw [map_append] at all
  exact (nodup_append.mp all).1

theorem returns_distinct (syscall : Syscall) : (syscall.returns.map Field.name).Nodup := by
  have all := syscall.names
  rw [map_append] at all
  exact (nodup_append.mp all).2.1

/-- A case hands the arguments to its handler and puts what this one stores into the registers. -/
theorem case_runs {case : Case} (made : renderSyscallDecode hash syscall = .ok (syscall.number, case))
    {source : Variables} {cpu : Registers} (ranges : Ranged syscall.parameters source)
    (arrived : Carries syscall.parameters source cpu) (handler : List Int → List Int)
    (stores : Values syscall.returns (handler ((syscall.parameters.map Field.name).map source))) :
    ∃ results after, case.run handler cpu = ((syscall.parameters.map Field.name).map source, after) ∧
    (syscall.returns.map Field.name).map results = handler ((syscall.parameters.map Field.name).map source) ∧
    Ranged syscall.returns results ∧ Carries syscall.returns results after := by
  obtain ⟨_, decoded, encoded, arguments, names⟩ := renderSyscallDecode_ok made
  have received : case.arguments.map (unpackAll cpu case.decoded unset) =
      (syscall.parameters.map Field.name).map source := by
    rw [arguments]
    exact transferred decoded ranges arrived
  obtain ⟨values, inRange⟩ := @bindAll_values (unpackAll cpu case.decoded unset) _ _ stores (returns_distinct syscall)
  refine ⟨_, packAll _ case.encoded cpu, ?_, values, inRange, fun field member => packed_at encoded member⟩
  rw [← names, ← received]
  rfl

/-- A system call whose fields are in usable registers: the handler that the dispatcher selects is
the one of the call and gets the arguments, and its results are returned. -/
theorem syscall_round_trips {interface : Interface} {userHash kernelHash : Hash} {wrapper : Wrapper}
    {dispatcher : List (Nat × List (Nat × Case))}
    (inGroups : group ∈ interface.groups) (inGroup : syscall ∈ group.syscalls)
    (wrapped : renderSyscallFunc userHash group syscall = .ok wrapper)
    (dispatched : renderDispatcher kernelHash interface = .ok dispatcher)
    (usable : ∀ field ∈ syscall.parameters ++ syscall.returns, Usable field.reg)
    (handlers : Handlers) (caller : Caller) {arguments : List Int} (range : Values syscall.parameters arguments)
    (stores : Values syscall.returns (handlers group.number syscall.number arguments)) :
    wrapper.call dispatcher handlers caller syscall arguments =
      .ok ⟨group.number, syscall.number, arguments, handlers group.number syscall.number arguments⟩ := by
  obtain ⟨packed, unpacked, groupSmall, callSmall, number, outputs, inputs⟩ := renderSyscallFunc_ok wrapped
  have usableIn : ∀ field ∈ syscall.parameters, Usable field.reg := (forall_mem_append.mp usable).1
  have usableOut : ∀ field ∈ syscall.returns, Usable field.reg := (forall_mem_append.mp usable).2
  have allowed : operandsAllowed (wrapper.inputs ++ wrapper.outputs) = true := by
    apply usable_allowed
    intro reg member
    rw [inputs, outputs] at member
    rcases mem_append.mp member with inside | outside
    · rcases mem_append.mp inside with key | last
      · obtain ⟨field, inFields, rfl⟩ := (userHash.covers _ reg).mp key
        exact .inl (usableIn field inFields)
      · exact .inr (mem_singleton.mp last)
    · obtain ⟨field, inFields, rfl⟩ := (userHash.covers _ reg).mp outside
      exact .inl (usableOut field inFields)
  obtain ⟨values, ranges⟩ := @bindAll_values unset _ _ range (parameters_distinct syscall)
  obtain ⟨parameters, same⟩ := @exists_eq _ (bindAll (syscall.parameters.map Field.name) arguments unset)
  rw [← same] at values ranges
  -- the registers of the parameters come to the kernel as the wrapper packed them
  have arrived : Carries syscall.parameters parameters (enter caller (wrapper.loaded caller parameters)) := by
    intro field member
    have good := usableIn field member
    have operand : field.reg ∈ wrapper.inputs := by
      rw [inputs]
      exact mem_append_left _ (userHash.mem_keys member)
    rw [usable_enter good, Wrapper.loaded, if_pos (usable_bound_in good operand), Wrapper.locals, update_of_ne good.2.2]
    exact packed_at packed member
  have selected : enter caller (wrapper.loaded caller parameters) .rdx = callNumber group.number syscall.number := by
    have operand : bound wrapper.inputs .rdx = true := by
      rw [inputs]
      exact decide_eq_true ⟨mem_append_right _ mem_cons_self, rfl⟩
    rw [enter, Wrapper.loaded, if_pos operand, Wrapper.locals, update_self, number]
    all_goals nofun
  obtain ⟨case, made, handled⟩ := scHandle_selects dispatched inGroups inGroup groupSmall callSmall selected handlers
  obtain ⟨results, after, ran, returned, resultRanges, left⟩ :=
    case_runs made ranges arrived (handlers group.number syscall.number) (values.symm ▸ stores)
  -- and those of the results come back as the case packed them
  have backed : Carries syscall.returns results (wrapper.stored parameters after) := by
    intro field member
    have operand : field.reg ∈ wrapper.outputs := by
      rw [outputs]
      exact userHash.mem_keys member
    rw [Wrapper.stored, if_pos (usable_bound_in (usableOut field member) operand)]
    exact left field member
  rw [Wrapper.call, if_pos allowed, ← same]
  dsimp only
  rw [handled, ran]
  simp only [bind, Except.bind]
  rw [transferred unpacked resultRanges backed, returned, values]

end

/-- Each register where it occurs last. -/
def lastFirst : Hash where
  keys fields := (fields.map Field.reg).dedup
  nodup _ := nodup_dedup _
  covers _ _ := by rw [mem_dedup, mem_map]

def framebuffer : Syscall where
  number := 0
  parameters := []
  returns := [⟨"framebuffer", .pointer, .rax⟩, ⟨"width", .uint16, .rdi⟩, ⟨"height", .uint16, .rdi⟩,
    ⟨"stride", .uint16, .rdi⟩, ⟨"colorFormat", .uint16, .rdi⟩]
  names := by decide
  unused := by decide

def ioperm : Syscall where
  number := 1
  parameters := [⟨"from", .uint16, .rax⟩, ⟨"num", .uint16, .rax⟩, ⟨"turn_on", .bool, .rax⟩]
  returns := [⟨"error", .uint64, .rax⟩]
  names := by decide
  unused := by decide

def hardwareGroup : Group := ⟨2, [framebuffer, ioperm], by decide⟩

def hardware : Interface := ⟨[hardwareGroup], by decide⟩

/-- A program whose registers are all zero. -/
def blankCaller : Caller := ⟨fun _ => 0, 0, 0⟩

/-- Three parameters share a register, and four returned values. -/
theorem hardware_round_trips : ∃ fetch permit dispatcher, renderSyscallFunc lastFirst hardwareGroup framebuffer = .ok fetch ∧
    renderSyscallFunc lastFirst hardwareGroup ioperm = .ok permit ∧ renderDispatcher lastFirst hardware = .ok dispatcher ∧
    fetch.call dispatcher (fun _ _ _ => [4096, 1024, 768, 1040, 1]) blankCaller framebuffer [] =
      .ok ⟨2, 0, [], [4096, 1024, 768, 1040, 1]⟩ ∧
    permit.call dispatcher (fun _ _ _ => [1]) blankCaller ioperm [96, 5, 1] = .ok ⟨2, 1, [96, 5, 1], [1]⟩ := by
  obtain ⟨fetch, fetching⟩ : ∃ fetch, renderSyscallFunc lastFirst hardwareGroup framebuffer = .ok fetch := ⟨_, rfl⟩
  obtain ⟨permit, permitting⟩ : ∃ permit, renderSyscallFunc lastFirst hardwareGroup ioperm = .ok permit := ⟨_, rfl⟩
  obtain ⟨dispatcher, dispatched⟩ : ∃ dispatcher, renderDispatcher lastFirst hardware = .ok dispatcher := ⟨_, rfl⟩
  refine ⟨fetch, permit, dispatcher, fetching, permitting, dispatched, ?_, ?_⟩
  · apply syscall_round_trips mem_cons_self mem_cons_self fetching dispatched
    · decide
    · exact .nil
    · exact .cons (by decide) (.cons (by decide) (.cons (by decide) (.cons (by decide) (.cons (by decide) .nil))))
  · apply syscall_round_trips mem_cons_self (mem_cons_of_mem _ mem_cons_self) permitting dispatched
    · decide
    · exact .cons (by decide) (.cons (by decide) (.cons (by decide) .nil))
    · exact .cons (by decide) .nil

/-- A call with one parameter. -/
def taking (reg : Reg) : Syscall where
  number := 0
  parameters := [⟨"value", .uint64, reg⟩]
  returns := []
  names := nodup_singleton _
  unused := show ∀ name ∈ ["value"], name ∉ ownNames by decide

def takingGroup (reg : Reg) : Group := ⟨0, [taking reg], nodup_singleton _⟩

theorem registers_not_carried :
    (∃ wrapper dispatcher, renderSyscallFunc lastFirst (takingGroup .rbx) (taking .rbx) = .ok wrapper ∧
      renderDispatcher lastFirst ⟨[takingGroup .rbx], by decide⟩ = .ok dispatcher ∧
      wrapper.call dispatcher (fun _ _ _ => []) blankCaller (taking .rbx) [1] = .error .impossibleConstraint) ∧
    ∃ wrapper dispatcher, renderSyscallFunc lastFirst (takingGroup .r8) (taking .r8) = .ok wrapper ∧
      renderDispatcher lastFirst ⟨[takingGroup .r8], by decide⟩ = .ok dispatcher ∧
      wrapper.call dispatcher (fun _ _ _ => []) blankCaller (taking .r8) [1] = .ok ⟨0, 0, [0], []⟩ := by
  constructor
  · exact ⟨_, _, rfl, rfl, rfl⟩
  · exact ⟨_, _, rfl, rfl, rfl⟩

end Lfos.SyscallGenerator
