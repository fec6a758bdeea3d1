import Lfos.ByteMemory
import Lfos.Words

/-!
# Bitmaps

A bitmap is a number of bytes from an address on, with one bit for each entry. A bit is set and cleared
without a change of any other bit or of a byte beside the bitmap.
-/

namespace Lfos.Bitmaps

open ByteMemory Words Function

/-- The bytes for a number of entries. -/
def bitmapSize (numEntries : Nat) : Nat := u64 (numEntries + 7) / 8

def bitmapIdx (entry : Nat) : Nat := entry / 8

def bitmapBit (entry : Nat) : BitVec 8 := 1#8 <<< (entry % 8)

def bitmapGet (memory : Bytes) (bitmap entry : Nat) : Bool :=
  decide (memory (bitmap + bitmapIdx entry) &&& bitmapBit entry ≠ 0#8)

def bitmapSet (memory : Bytes) (bitmap entry : Nat) : Bytes :=
  update memory (bitmap + bitmapIdx entry) (memory (bitmap + bitmapIdx entry) ||| bitmapBit entry)

def bitmapClear (memory : Bytes) (bitmap entry : Nat) : Bytes :=
  update memory (bitmap + bitmapIdx entry) (memory (bitmap + bitmapIdx entry) &&& ~~~bitmapBit entry)

variable {memory after : Bytes} {bitmap entry other : Nat}

theorem getLsbD_bitmapBit (entry : Nat) {bit : Nat} (inside : bit < 8) :
    (bitmapBit entry).getLsbD bit = decide (bit = entry % 8) := by
  have shifts : ∀ shift < 8, ∀ bit < 8, (1#8 <<< shift).getLsbD bit = decide (bit = shift) := by decide
  exact shifts (entry % 8) (Nat.mod_lt _ (by decide)) bit inside

/-- The bit of an entry. -/
theorem bitmapGet_eq (memory : Bytes) (bitmap entry : Nat) :
    bitmapGet memory bitmap entry = (memory (bitmap + bitmapIdx entry)).getLsbD (entry % 8) := by
  have inside : entry % 8 < 8 := Nat.mod_lt _ (by decide)
  have here := getLsbD_bitmapBit entry inside
  cases found : (memory (bitmap + bitmapIdx entry)).getLsbD (entry % 8) with
  | true =>
    apply decide_eq_true
    intro zero
    have bit := congrArg (fun word => word.getLsbD (entry % 8)) zero
    simp [BitVec.getLsbD_and, found, here] at bit
  | false =>
    apply decide_eq_false
    rw [not_not]
    apply BitVec.eq_of_getLsbD_eq
    intro bit small
    rw [BitVec.getLsbD_and, getLsbD_bitmapBit entry small]
    by_cases same : bit = entry % 8
    · simp [same, found]
    · simp [same]

/-- Writing the byte of an entry with another bit. -/
theorem bitmapGet_update {byte : BitVec 8} {value : Bool}
    (bits : ∀ bit < 8, byte.getLsbD bit = if bit = entry % 8 then value
    else (memory (bitmap + bitmapIdx entry)).getLsbD bit) :
    bitmapGet (update memory (bitmap + bitmapIdx entry) byte) bitmap other =
    if other = entry then value else bitmapGet memory bitmap other := by
  rw [bitmapGet_eq, bitmapGet_eq]
  by_cases sameByte : bitmapIdx other = bitmapIdx entry
  · rw [sameByte, update_self, bits _ (Nat.mod_lt _ (by decide))]
    unfold bitmapIdx at sameByte
    by_cases same : other = entry
    · rw [if_pos (by rw [same]), if_pos same]
    · rw [if_neg (by omega), if_neg same]
  · have different : other ≠ entry := by
      rintro rfl
      exact sameByte rfl
    rw [update_of_ne (by omega), if_neg different]

theorem bitmapGet_set : bitmapGet (bitmapSet memory bitmap entry) bitmap other =
    if other = entry then true else bitmapGet memory bitmap other := by
  apply bitmapGet_update
  intro bit inside
  rw [BitVec.getLsbD_or, getLsbD_bitmapBit entry inside]
  by_cases same : bit = entry % 8 <;> simp [same]

theorem bitmapGet_clear : bitmapGet (bitmapClear memory bitmap entry) bitmap other =
    if other = entry then false else bitmapGet memory bitmap other := by
  apply bitmapGet_update
  intro bit inside
  rw [BitVec.getLsbD_and, BitVec.getLsbD_not, getLsbD_bitmapBit entry inside]
  by_cases same : bit = entry % 8 <;> simp [same, inside]

/-- An entry is read from its byte. -/
theorem bitmapGet_congr (same : after (bitmap + bitmapIdx entry) = memory (bitmap + bitmapIdx entry)) :
    bitmapGet after bitmap entry = bitmapGet memory bitmap entry := by
  rw [bitmapGet, same, bitmapGet]

theorem bitmapSet_elsewhere {address : Nat} (different : address ≠ bitmap + bitmapIdx entry) :
    bitmapSet memory bitmap entry address = memory address := update_of_ne different ..

theorem bitmapClear_elsewhere {address : Nat} (different : address ≠ bitmap + bitmapIdx entry) :
    bitmapClear memory bitmap entry address = memory address := update_of_ne different ..

/-- The byte of an entry is in the bitmap. -/
theorem bitmapIdx_lt {numEntries : Nat} (inside : entry < numEntries) (small : numEntries + 7 < 2 ^ 64) :
    bitmapIdx entry < bitmapSize numEntries := by
  rw [bitmapIdx, bitmapSize, u64_of_lt small]
  omega

end Lfos.Bitmaps
