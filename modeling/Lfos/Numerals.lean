import Lfos.Formatting
import Mathlib.Data.Nat.Digits.Lemmas

/-!
# Numbers in positional notation

`sputui` makes the digits of a number from the last one on, at the end of a scratch buffer of
64 characters, and copies them to the front of the buffer it is given.
-/

namespace Lfos.Formatting

open ByteLists FlexArrays List

def chars : List UInt8 := (List.range 10).map (fun i => 48 + UInt8.ofNat i) ++ (List.range 26).map (fun i => 65 + UInt8.ofNat i)

/-- The loop from an index of the scratch buffer on, with the number of digits so far. -/
def digitLoop (base : Nat) (bufferSize : Int) : Nat → List UInt8 → Nat → Nat → Except Fault (Nat × List UInt8)
  | 0, scratch, number, count => do
    let scratch ← copied (overwrite scratch 0 [chars.getD (number % base) 0])
    .ok (count + 1, scratch)
  | i + 1, scratch, number, count => do
    let scratch ← copied (overwrite scratch (i + 1) [chars.getD (number % base) 0])
    if number / base ≠ 0 ∧ ((count + 1 : Nat) : Int) < bufferSize then digitLoop base bufferSize i scratch (number / base) (count + 1)
    else .ok (count + 1, scratch)

/-- The scratch buffer has any contents at first. -/
def sputui (scratch block : List UInt8) (position : Nat) (bufferSize : Int) (number base : Nat) :
    Except Fault (Nat × List UInt8) := do
  let (count, scratch) ← digitLoop base bufferSize 63 scratch number 0
  let (_, written) ← sputs block position bufferSize (scratch.drop (64 - count)) count
  .ok (count, written)

/-- The digits of a number, the last one first. -/
def digits (base number : Nat) : List Nat := if number = 0 then [0] else Nat.digits base number

/-- The characters of a number, as they are written. -/
def numeral (base number : Nat) : List UInt8 := (digits base number).reverse.map (chars.getD · 0)

/-- The number that a text stands for. -/
def decode (base : Nat) (text : List UInt8) : Nat := Nat.ofDigits base (text.map (chars.idxOf ·)).reverse

variable {base number : Nat}

theorem digits_eq (positional : 2 ≤ base) (number : Nat) :
    digits base number = number % base :: if number / base = 0 then [] else digits base (number / base) := by
  by_cases zero : number = 0
  · simp [digits, zero]
  · rw [digits, if_neg zero, Nat.digits_def' positional (Nat.pos_of_ne_zero zero)]
    by_cases last : number / base = 0
    · simp [last]
    · simp [digits, last]

@[simp] theorem numeral_length (base number : Nat) : (numeral base number).length = (digits base number).length := by
  simp [numeral]

theorem digits_length_le (positional : 2 ≤ base) (word : number < 2 ^ 64) : (digits base number).length ≤ 64 := by
  rw [digits]
  split
  · decide
  · rw [Nat.digits_length_le_iff positional]
    exact lt_of_lt_of_le word (Nat.pow_le_pow_left positional 64)

theorem overwrite_last {front done : List UInt8} {i : Nat} (length : front.length = i + 1) (c : UInt8) :
    overwrite (front ++ done) i [c] = some (front.take i ++ c :: done) := by
  simp [overwrite, length, take_append]

/-- The digits are written in front of those that are there. -/
theorem digitLoop_writes (positional : 2 ≤ base) {size : Int} {i count : Nat} {front done : List UInt8}
    (length : front.length = i + 1) (room : (digits base number).length ≤ i + 1)
    (fits : (count + (digits base number).length : Nat) ≤ size) :
    digitLoop base size i (front ++ done) number count = .ok (count + (digits base number).length,
      front.take (i + 1 - (digits base number).length) ++ (numeral base number ++ done)) := by
  rw [numeral]
  induction i generalizing front done number count with
  | zero =>
    have last : number / base = 0 := by
      by_contra more
      rw [digits_eq positional, if_neg more, digits_eq positional] at room
      simp at room
    rw [digitLoop, overwrite_last length, digits_eq positional, if_pos last]
    simp [copied, bind, Except.bind]
  | succ i ih =>
    rw [digitLoop, overwrite_last length]
    rw [digits_eq positional] at room fits ⊢
    by_cases last : number / base = 0
    · simp [copied, bind, Except.bind, last]
    · rw [if_neg last] at room fits ⊢
      rw [length_cons] at room fits
      have nonempty : 0 < (digits base (number / base)).length := by
        rw [digits_eq positional]
        exact Nat.succ_pos _
      have more : number / base ≠ 0 ∧ ((count + 1 : Nat) : Int) < size := ⟨last, by omega⟩
      have further := @ih (number / base) (count + 1) (front.take (i + 1)) (chars.getD (number % base) 0 :: done)
        (by simp [length]) (by omega) (by omega)
      simp only [copied, bind, Except.bind, if_pos more, further]
      simp [take_take, Nat.add_assoc, Nat.add_comm 1]

theorem idxOf_chars : ∀ digit < 36, chars.idxOf (chars.getD digit 0) = digit := by
  decide

/-- The text of the digits stands for the number. -/
theorem decode_digits (positional : 2 ≤ base) (known : base ≤ 36) (number : Nat) :
    decode base (numeral base number) = number := by
  have small : ∀ digit ∈ digits base number, digit < 36 := by
    rw [digits]
    split
    · simp
    · exact fun digit member => lt_of_lt_of_le (Nat.digits_lt_base positional member) known
  have read : ((digits base number).map (chars.getD · 0)).map (chars.idxOf ·) = digits base number := by
    rw [map_map]
    exact (map_congr_left (fun digit member => idxOf_chars digit (small digit member))).trans (map_id _)
  rw [decode, numeral, map_reverse, map_reverse, reverse_reverse, read, digits]
  split
  · next zero => simp [zero]
  · exact Nat.ofDigits_digits base number

/-- The digits are written to the front of a buffer that has room for them, and stand for the number. -/
theorem sputui_writes {scratch before rest : List UInt8} {position bufferSize : Nat} (positional : 2 ≤ base)
    (known : base ≤ 36) (word : number < 2 ^ 64) (length : scratch.length = 64) (here : before.length = position)
    (size : rest.length = bufferSize) (room : (digits base number).length ≤ bufferSize) :
    decode base (numeral base number) = number ∧
      sputui scratch (before ++ rest) position bufferSize number base = .ok ((numeral base number).length,
        before ++ numeral base number ++ rest.drop (numeral base number).length) := by
  have short := digits_length_le positional word
  have looped := @digitLoop_writes base number positional bufferSize 63 0 scratch [] length short (by omega)
  refine ⟨decode_digits positional known number, ?_⟩
  rw [← numeral_length] at looped short room
  generalize numeral base number = text at looped short room ⊢
  have written := @sputsFrom_fits position before rest text bufferSize 0 here (by omega) (by omega)
  have dropped : (scratch.take (63 + 1 - text.length) ++ text).drop (64 - text.length) = text := drop_left' (by simp [length])
  rw [append_nil, append_nil, zero_add] at looped
  simp only [sputui, looped, bind, Except.bind, sputs, dropped, Int.toNat_natCast, take_length, written]

theorem sputui_writes_hexadecimal : sputui (replicate 64 0) [0, 0, 0] 0 3 255 16 = .ok (2, [70, 70, 0]) := by
  obtain ⟨_, written⟩ := @sputui_writes 16 255 (replicate 64 0) [] [0, 0, 0] 0 3 (by decide) (by decide)
    (by decide) (by decide) rfl rfl (by simp [digits])
  have text : numeral 16 255 = [70, 70] := by
    simp [numeral, digits]
    decide
  rw [text] at written
  exact written

end Lfos.Formatting
