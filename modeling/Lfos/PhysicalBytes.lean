import Lfos.ByteLists
import Lfos.VirtualBytes

/-!
# The bytes of the physical memory

A byte of the physical memory is a byte of a word of a page frame. Some bytes that are written from an
address on are read there afterwards, and nothing else is changed.
-/

namespace Lfos.PhysicalBytes

open BitFields PageTables VirtualBytes List UInt8

def byteAt (memory : Memory) (address : Nat) : UInt8 := UInt8.ofNat (loadByte memory (address / 4096) (address % 4096))

def pokeByte (memory : Memory) (address : Nat) (byte : UInt8) : Memory :=
  storeByte memory (address / 4096) (address % 4096) byte.toNat

/-- Write some bytes from an address on. -/
def pokeBytes : Memory → Nat → List UInt8 → Memory
  | memory, _, [] => memory
  | memory, address, byte :: rest => pokeBytes (pokeByte memory address byte) (address + 1) rest

/-- `memset` to zero -/
def zeroBytes (memory : Memory) (address count : Nat) : Memory := pokeBytes memory address (List.replicate count 0)

section

/-- A word is its bytes. -/
theorem word_ext {left right : VmTableEntry} (same : ∀ offset < 8, (byteField offset).get left = (byteField offset).get right) :
    left = right := by
  apply BitVec.eq_of_getLsbD_eq
  intro bit inside
  have equal : (byteField (bit / 8)).read left = (byteField (bit / 8)).read right :=
    BitVec.eq_of_toNat_eq (same (bit / 8) (by omega))
  have low : (byteField (bit / 8)).low = 8 * (bit / 8) := by
    change 8 * (bit / 8 % 8) = 8 * (bit / 8)
    omega
  have width : (byteField (bit / 8)).width = 8 := rfl
  have bits := congrArg (fun word => BitVec.getLsbD word (bit % 8)) equal
  rw [getLsbD_read, getLsbD_read, low, width, Nat.div_add_mod] at bits
  have within : bit % 8 < 8 := Nat.mod_lt _ (by decide)
  simpa [within] using bits

variable {frame : Nat}

/-- A frame is its bytes. -/
theorem frame_ext {memory other : Memory}
    (same : ∀ offset < 4096, loadByte memory frame offset = loadByte other frame offset) : memory frame = other frame := by
  funext index
  apply word_ext
  intro offset inside
  have equal := same (8 * index.val + offset) (by omega)
  have word : wordOf (8 * index.val + offset) = index := by
    apply Fin.ext
    rw [wordOf, Fin.val_ofNat]
    omega
  have field : byteField (8 * index.val + offset) = byteField offset := by
    have position : (8 * index.val + offset) % 8 = offset % 8 := by omega
    simp only [byteField, position]
  rwa [loadByte, loadByte, word, field] at equal

end

section

variable {memory : Memory} {address other count : Nat} {bytes : List UInt8}

theorem byteAt_pokeByte (byte : UInt8) :
    byteAt (pokeByte memory address byte) other = if other = address then byte else byteAt memory other := by
  rw [byteAt, pokeByte]
  split
  · next here =>
    rw [here, load_store_same, Nat.mod_eq_of_lt byte.toNat_lt, UInt8.ofNat_toNat]
  · rw [load_store_other (Nat.mod_lt _ (by decide)) (Nat.mod_lt _ (by decide)) (by omega), byteAt]

/-- What is written is read, and all other bytes are what they were. -/
theorem byteAt_pokeBytes : byteAt (pokeBytes memory address bytes) other =
    if address ≤ other ∧ other < address + bytes.length then bytes.getD (other - address) 0 else byteAt memory other := by
  induction bytes generalizing memory address with
  | nil =>
    have outside : ¬ (address ≤ other ∧ other < address + ([] : List UInt8).length) := by
      rw [length_nil]
      omega
    rw [if_neg outside]
    rfl
  | cons byte rest ih =>
    rw [pokeBytes, ih, byteAt_pokeByte, length_cons]
    by_cases here : other = address
    · subst here
      rw [if_neg (by omega), if_pos rfl, if_pos (by omega), Nat.sub_self]
      rfl
    · by_cases later : address + 1 ≤ other ∧ other < address + 1 + rest.length
      · have index : other - address = (other - (address + 1)) + 1 := by omega
        rw [if_pos later, if_pos (by omega), index, getD_cons_succ]
      · rw [if_neg later, if_neg here, if_neg (by omega)]

theorem byteAt_elsewhere (outside : other < address ∨ address + bytes.length ≤ other) :
    byteAt (pokeBytes memory address bytes) other = byteAt memory other := by
  rw [byteAt_pokeBytes, if_neg (by omega)]

theorem byteAt_frame {offset : Nat} (inside : offset < 4096) :
    byteAt memory (frame * 4096 + offset) = ofNat (loadByte memory frame offset) := by
  have quotient : (frame * 4096 + offset) / 4096 = frame := by omega
  have remainder : (frame * 4096 + offset) % 4096 = offset := by omega
  rw [byteAt, quotient, remainder]

theorem loadByte_lt (memory : Memory) (frame offset : Nat) : loadByte memory frame offset < 2 ^ 8 := get_lt _ _

/-- Frames are equal if their bytes are. -/
theorem frame_ext_bytes {after : Memory}
    (same : ∀ address, address / 4096 = frame → byteAt after address = byteAt memory address) : after frame = memory frame := by
  apply frame_ext
  intro offset inside
  have equal := same (frame * 4096 + offset) (by omega)
  rw [byteAt_frame inside, byteAt_frame inside] at equal
  have numbers := congrArg toNat equal
  rwa [toNat_ofNat', toNat_ofNat', Nat.mod_eq_of_lt (loadByte_lt _ _ _), Nat.mod_eq_of_lt (loadByte_lt _ _ _)] at numbers

/-- A frame that no byte is written to is what it was. -/
theorem pokeBytes_frame (outside : ∀ other, other / 4096 = frame → other < address ∨ address + bytes.length ≤ other) :
    pokeBytes memory address bytes frame = memory frame :=
  frame_ext_bytes (fun other inside => byteAt_elsewhere (outside other inside))

theorem zeroBytes_frame (outside : ∀ other, other / 4096 = frame → other < address ∨ address + count ≤ other) :
    zeroBytes memory address count frame = memory frame := by
  apply pokeBytes_frame
  rwa [length_replicate]

theorem byteAt_zeroBytes : byteAt (zeroBytes memory address count) other =
    if address ≤ other ∧ other < address + count then 0 else byteAt memory other := by
  rw [zeroBytes, byteAt_pokeBytes, length_replicate]
  split
  · rw [getD_eq_getElem?_getD, getElem?_replicate]
    split <;> rfl
  · rfl

/-- A frame of zeros. -/
theorem zeroBytes_whole (inside : address ≤ frame * 4096) (fits : frame * 4096 + 4096 ≤ address + count) :
    zeroBytes memory address count frame = fun _ => 0#64 := by
  change zeroBytes memory address count frame = (fun _ _ => 0#64 : Memory) frame
  apply frame_ext_bytes
  intro other here
  have nothing : byteAt (fun _ _ => 0#64) other = 0 := by
    rw [byteAt, loadByte, get_zero]
    rfl
  rw [byteAt_zeroBytes, if_pos (by omega), nothing]

end

end Lfos.PhysicalBytes
