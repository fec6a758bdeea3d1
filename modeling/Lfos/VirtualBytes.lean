import Lfos.ContextFamilies

/-!
# The bytes at virtual addresses

A byte is read and written through the tables of a context. A page is exclusive if its frame is no
table and is shown by no other page of a region. What is written to an exclusive page changes
neither the tables nor any other byte of the region.
-/

namespace Lfos.VirtualBytes

open BitFields PageTables TableTrees Words Option

section

/-- The byte of a word at an offset. -/
def byteField (offset : Nat) : BitField 64 := ⟨8 * (offset % 8), 8, by omega⟩

/-- The word of a frame an offset is in. -/
def wordOf (offset : Nat) : Fin 512 := Fin.ofNat 512 (offset / 8)

def loadByte (memory : Memory) (frame offset : Nat) : Nat := (byteField offset).get (memory frame (wordOf offset))

def storeByte (memory : Memory) (frame offset value : Nat) : Memory :=
  write memory frame (wordOf offset) ((byteField offset).set value (memory frame (wordOf offset)))

variable {memory : Memory} {frame other offset slot value : Nat}

theorem load_store_same : loadByte (storeByte memory frame offset value) frame offset = value % 256 := by
  rw [loadByte, storeByte, write_here, get_set_self]
  rfl

/-- The other bytes are what they were. -/
theorem load_store_other (inside : offset < 4096) (slotInside : slot < 4096)
    (different : ¬ (other = frame ∧ slot = offset)) :
    loadByte (storeByte memory frame offset value) other slot = loadByte memory other slot := by
  rw [loadByte, storeByte]
  by_cases here : other = frame ∧ wordOf slot = wordOf offset
  · have sameWord : slot / 8 = offset / 8 := by
      have equal := congrArg Fin.val here.2
      simp only [wordOf, Fin.val_ofNat] at equal
      omega
    have beside : (byteField slot).Beside (byteField offset) := by
      unfold BitField.Beside byteField
      dsimp only
      omega
    rw [here.1, here.2, write_here, get_set_beside beside, loadByte, here.2]
  · rw [write_elsewhere _ _ here, loadByte]

theorem store_elsewhere (different : other ≠ frame) : storeByte memory frame offset value other = memory other :=
  Function.update_of_ne different ..

end

section

/-- The byte at an address, if its page is there. -/
def readByte (memory : Memory) (context virt : Nat) : Option Nat :=
  (mapped memory context virt).map (fun frame => loadByte memory frame (virt % 4096))

def writeByte (memory : Memory) (context virt value : Nat) : Option Memory :=
  (mapped memory context virt).map (fun frame => storeByte memory frame (virt % 4096) value)

/-- The number that is stored from an address on, least significant byte first. -/
def readNumber (memory : Memory) (context : Nat) : Nat → Nat → Option Nat
  | _, 0 => some 0
  | virt, width + 1 => do
    let byte ← readByte memory context virt
    let rest ← readNumber memory context (u64 (virt + 1)) width
    some (byte + 256 * rest)

def writeNumber (context : Nat) : Memory → Nat → Nat → Nat → Option Memory
  | memory, _, 0, _ => some memory
  | memory, virt, width + 1, value => do
    let changed ← writeByte memory context virt value
    writeNumber context changed (u64 (virt + 1)) width (value / 256)

/-- The frame of an address is no table, and no other page of the region shows it. -/
structure Exclusive (memory : Memory) (context : Nat) (region : Nat → Prop) (virt frame : Nat) : Prop where
  inside : region virt
  shown : mapped memory context virt = some frame
  table : ∀ path, locate subtable memory 0 context path ≠ some frame
  alone : ∀ other, region other → mapped memory context other = some frame → other / 4096 = virt / 4096

variable {memory after : Memory} {context virt other frame value width : Nat} {region : Nat → Prop}

theorem Exclusive.untouched (exclusive : Exclusive memory context region virt frame)
    (untouched : Untouched memory after context) : Exclusive after context region virt frame where
  inside := exclusive.inside
  shown := (untouched.mapped virt).trans exclusive.shown
  table path := by
    rw [untouched.located]
    exact exclusive.table path
  alone other inside found := exclusive.alone other inside ((untouched.mapped other).symm.trans found)

theorem readByte_congr (same : mapped after context virt = mapped memory context virt)
    (contents : ∀ frame, mapped memory context virt = some frame → after frame = memory frame) :
    readByte after context virt = readByte memory context virt := by
  rw [readByte, same]
  apply Option.map_congr
  intro frame found
  rw [loadByte, loadByte, contents frame found]

/-- A byte of an exclusive page is the only one that is changed. -/
theorem writeByte_exclusive (exclusive : Exclusive memory context region virt frame) (value : Nat) :
    ∃ after, writeByte memory context virt value = some after ∧ Untouched memory after context ∧
    (∀ other, other ≠ frame → after other = memory other) ∧ ∀ other, region other →
    readByte after context other = if other = virt then some (value % 256) else readByte memory context other := by
  have untouched : Untouched memory (storeByte memory frame (virt % 4096) value) context :=
    update_untouched exclusive.table _
  refine ⟨storeByte memory frame (virt % 4096) value, ?_, untouched, fun _ different => store_elsewhere different, ?_⟩
  · rw [writeByte, exclusive.shown, map_some]
  · intro other inside
    split
    · next here => rw [here, readByte, untouched.mapped, exclusive.shown, map_some, load_store_same]
    · rw [readByte, untouched.mapped]
      apply Option.map_congr
      intro found shows
      apply load_store_other (Nat.mod_lt _ (by decide)) (Nat.mod_lt _ (by decide))
      rintro ⟨rfl, sameOffset⟩
      have samePage := exclusive.alone other inside shows
      omega

/-- The byte of a number at a distance from its start. -/
def digit (value distance : Nat) : Nat := value / 256 ^ distance % 256

theorem digit_succ (value distance : Nat) : digit value (distance + 1) = digit (value / 256) distance := by
  rw [digit, digit, Nat.pow_succ', Nat.div_div_eq_div_mul]

theorem digit_zero (value : Nat) : digit value 0 = value % 256 := by
  rw [digit, Nat.pow_zero, Nat.div_one]

/-- A number that does not reach the end of the addresses is continued at the next one. -/
theorem writeNumber_next (fits : virt + 1 + width ≤ 2 ^ 64) (memory : Memory) (value : Nat) :
    writeNumber context memory (u64 (virt + 1)) width value = writeNumber context memory (virt + 1) width value := by
  cases width with
  | zero => rfl
  | succ width => rw [u64_of_lt (by omega)]

theorem readNumber_next (fits : virt + 1 + width ≤ 2 ^ 64) :
    readNumber memory context (u64 (virt + 1)) width = readNumber memory context (virt + 1) width := by
  cases width with
  | zero => rfl
  | succ width => rw [u64_of_lt (by omega)]

/-- Writing a number into exclusive pages changes its bytes only. -/
theorem writeNumber_exclusive {frames : List Nat} (width value : Nat) (fits : virt + width ≤ 2 ^ 64)
    (exclusive : ∀ address, virt ≤ address → address < virt + width →
    ∃ frame ∈ frames, Exclusive memory context region address frame) :
    ∃ after, writeNumber context memory virt width value = some after ∧ Untouched memory after context ∧
    (∀ frame ∉ frames, after frame = memory frame) ∧ ∀ other, region other → readByte after context other =
    if virt ≤ other ∧ other < virt + width then some (digit value (other - virt)) else readByte memory context other := by
  induction width generalizing memory virt value with
  | zero =>
    refine ⟨memory, rfl, Untouched.refl memory context, fun _ _ => rfl, ?_⟩
    intro other _
    rw [if_neg (by omega)]
  | succ width ih =>
    obtain ⟨frame, member, here⟩ := exclusive virt (le_refl _) (by omega)
    obtain ⟨changed, written, untouched, elsewhere, bytes⟩ := writeByte_exclusive here value
    obtain ⟨after, rest, untouchedRest, elsewhereRest, bytesRest⟩ := @ih changed (virt + 1) (value / 256) (by omega) (by
      intro address above below
      obtain ⟨frame, member, there⟩ := exclusive address (by omega) (by omega)
      exact ⟨frame, member, there.untouched untouched⟩)
    refine ⟨after, ?_, untouched.trans untouchedRest, ?_, ?_⟩
    · rw [writeNumber, written]
      exact (writeNumber_next (by omega) changed _).trans rest
    · intro other absent
      rw [elsewhereRest other absent, elsewhere other (fun same => absent (same ▸ member))]
    · intro other inside
      rw [bytesRest other inside, bytes other inside]
      by_cases later : virt + 1 ≤ other ∧ other < virt + 1 + width
      · have distance : other - virt = other - (virt + 1) + 1 := by omega
        rw [if_pos later, if_pos (by omega), distance, digit_succ]
      · rw [if_neg later]
        split
        · next here => rw [if_pos (by omega), here, Nat.sub_self, digit_zero]
        · rw [if_neg (by omega)]

/-- A number is read from its bytes. -/
theorem readNumber_digits {value : Nat} (small : value < 256 ^ width) (fits : virt + width ≤ 2 ^ 64)
    (bytes : ∀ address, virt ≤ address → address < virt + width →
    readByte memory context address = some (digit value (address - virt))) :
    readNumber memory context virt width = some value := by
  induction width generalizing virt value with
  | zero =>
    rw [readNumber]
    congr 1
    omega
  | succ width ih =>
    have first := bytes virt (le_refl _) (by omega)
    rw [Nat.sub_self, digit_zero] at first
    have rest := @ih (virt + 1) (value / 256) (by omega) (by omega) (by
      intro address above below
      have distance : address - virt = address - (virt + 1) + 1 := by omega
      rw [bytes address (by omega) (by omega), distance, digit_succ])
    rw [readNumber, first, readNumber_next (by omega), rest]
    simp only [bind_eq_bind, bind_some]
    congr 1
    omega

end

end Lfos.VirtualBytes
