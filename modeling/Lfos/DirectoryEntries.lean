import Lfos.BitFields

/-!
# Entries of a directory of the file system image

An entry has 32 bytes. Those of a file begin with the eleven characters of its short name. A long name
is spread over entries of another kind, with a number and a flag in the bits of the first byte, 13
characters of 16 bits in three places, and a checksum of the short name they belong to. Both kinds are
views of the same bytes.
-/

namespace Lfos.DirectoryEntries

open BitFields List Function

abbrev Byte := BitVec 8

/-- `struct directory_entry`: its bytes by their offsets. -/
abbrev DirectoryEntry := Nat → Byte

/-- What `memset` leaves. -/
def zeroEntry : DirectoryEntry := fun _ => 0#8

/-- `filename` -/
def filename (entry : DirectoryEntry) : List Byte := (range 11).map entry

/-- `memcpy(entry->filename, name, 11)` -/
def setFilename (name : List Byte) (entry : DirectoryEntry) : DirectoryEntry :=
  fun offset => if offset < 11 then name.getD offset 0#8 else entry offset

/-- `lfn.sequence` and `lfn.last_logical`, in the first byte. -/
def sequence : BitField 8 := ⟨0, 5, by decide⟩
def lastLogical : BitField 8 := ⟨6, 1, by decide⟩

def attributesOffset : Nat := 11
def typeOffset : Nat := 12
def checksumOffset : Nat := 13
def firstClusterOffset : Nat := 26

def setByte (offset : Nat) (value : Byte) (entry : DirectoryEntry) : DirectoryEntry :=
  update entry offset value

def setBits (field : BitField 8) (value : Nat) (entry : DirectoryEntry) : DirectoryEntry :=
  setByte 0 (field.set value (entry 0)) entry

/-- Where a character of an entry is: in `name1`, `name2` or `name3`. -/
def nameOffset (ei : Nat) : Nat :=
  if ei < 5 then 1 + 2 * ei else if ei < 11 then 14 + 2 * (ei - 5) else 28 + 2 * (ei - 11)

def setCharacter (ei : Nat) (c : Nat) (entry : DirectoryEntry) : DirectoryEntry :=
  setByte (nameOffset ei + 1) (BitVec.ofNat 8 (c / 256)) (setByte (nameOffset ei) (BitVec.ofNat 8 c) entry)

/-- The character of 16 bits at an index. -/
def character (entry : DirectoryEntry) (ei : Nat) : Nat :=
  (entry (nameOffset ei)).toNat + 256 * (entry (nameOffset ei + 1)).toNat

section

variable {entry : DirectoryEntry} {ei other c : Nat}

/-- A byte in none of the three places is no part of a character. -/
def Outside (offset : Nat) : Prop := offset = 0 ∨ (11 ≤ offset ∧ offset < 14) ∨ (26 ≤ offset ∧ offset < 28)

theorem nameOffset_cases (inside : ei < 13) :
    (1 ≤ nameOffset ei ∧ nameOffset ei + 2 ≤ 11) ∨ (14 ≤ nameOffset ei ∧ nameOffset ei + 2 ≤ 26) ∨
    (28 ≤ nameOffset ei ∧ nameOffset ei + 2 ≤ 32) := by
  unfold nameOffset
  split
  · omega
  · split <;> omega

/-- The places of different characters do not meet. -/
theorem nameOffset_apart (inside : ei < 13) (otherInside : other < 13) (different : other ≠ ei) :
    nameOffset other + 1 < nameOffset ei ∨ nameOffset ei + 1 < nameOffset other := by
  unfold nameOffset
  split
  · split
    · omega
    · split <;> omega
  · split
    · split
      · omega
      · split <;> omega
    · split
      · omega
      · split <;> omega

theorem setCharacter_outside {offset : Nat} (inside : ei < 13) (outside : Outside offset) :
    setCharacter ei c entry offset = entry offset := by
  have place := nameOffset_cases inside
  unfold Outside at outside
  rw [setCharacter, setByte, update_of_ne (by omega), setByte, update_of_ne (by omega)]

theorem character_setCharacter_self (small : c < 2 ^ 16) : character (setCharacter ei c entry) ei = c := by
  rw [character, setCharacter, setByte, setByte, update_of_ne (by omega), update_self,
    update_self, BitVec.toNat_ofNat, BitVec.toNat_ofNat]
  omega

theorem character_setCharacter_other (inside : ei < 13) (otherInside : other < 13) (different : other ≠ ei) :
    character (setCharacter ei c entry) other = character entry other := by
  have apart := nameOffset_apart inside otherInside different
  rw [character, setCharacter, setByte, setByte, update_of_ne (by omega), update_of_ne (by omega),
    update_of_ne (by omega), update_of_ne (by omega), character]

/-- A byte outside of the characters changes none of them. -/
theorem character_setByte {offset : Nat} {value : Byte} (inside : ei < 13) (outside : Outside offset) :
    character (setByte offset value entry) ei = character entry ei := by
  have place := nameOffset_cases inside
  unfold Outside at outside
  rw [character, setByte, update_of_ne (by omega), update_of_ne (by omega), character]

theorem filename_length (entry : DirectoryEntry) : (filename entry).length = 11 := by
  rw [filename, length_map, length_range]

theorem filename_setFilename {name : List Byte} (length : name.length = 11) (entry : DirectoryEntry) :
    filename (setFilename name entry) = name := by
  apply ext_getElem
  · rw [filename_length, length]
  · intro offset _ inName
    have inside : offset < 11 := length ▸ inName
    simp only [filename, getElem_map, getElem_range, setFilename, if_pos inside]
    rw [getD_eq_getElem?_getD, getElem?_eq_getElem inName, Option.getD_some]

end

end Lfos.DirectoryEntries
