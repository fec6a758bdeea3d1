import Lfos.FlexArrayRefinement

/-!
# Formatting into a part of a block

A text is formatted into a block from a position on, for the plain characters of a format
and its directives for characters and strings without a width. Characters beyond the size
of the buffer are counted but not written, with one exception: the directive for a character
writes without looking at the size. Sizes are passed on as signed 32-bit words, so a
difference that wrapped is negative and nothing is written.
-/

namespace Lfos.Formatting

open ByteLists FlexArrays Words List

/-- What a format consists of: its own characters, `%c` and `%s`, with the arguments. -/
inductive Directive where
  | plain (c : UInt8)
  | char (c : UInt8)
  | string (s : List UInt8)

/-- Write a character if its index is inside the buffer. -/
def putWithin (block : List UInt8) (position : Nat) (bufferSize : Int) (i : Nat) (c : UInt8) :
    Except Fault (List UInt8) :=
  if (i : Int) < bufferSize then copied (overwrite block (position + i) [c]) else .ok block

/-- Write characters from an index on. -/
def sputsFrom (position : Nat) (bufferSize : Int) (block : List UInt8) (i : Nat) :
    List UInt8 → Except Fault (List UInt8)
  | [] => .ok block
  | c :: rest => do
    let written ← putWithin block position bufferSize i c
    sputsFrom position bufferSize written (i + 1) rest

/-- The number of characters is returned, whether they were written or not. -/
def sputs (block : List UInt8) (position : Nat) (bufferSize : Int) (string : List UInt8) (length : Int) :
    Except Fault (Nat × List UInt8) := do
  let written ← sputsFrom position bufferSize block 0 (string.take length.toNat)
  .ok (length.toNat, written)

/-- One part of a format, at an index of the buffer at a position of the block. -/
def Directive.put (position bufferSize : Nat) (i : Nat) (block : List UInt8) :
    Directive → Except Fault (Nat × List UInt8)
  | .plain c => do
    let written ← putWithin block position bufferSize i c
    .ok (u64 (i + 1), written)
  | .char c => do
    let written ← copied (overwrite block (position + i) [c])
    .ok (u64 (i + 1), written)
  | .string s => do
    let (length, written) ← sputs block (position + i) (i32 (u64Sub bufferSize i)) s (i32 s.length)
    .ok (u64 (i + length), written)

/-- The parts of a format, one after the other. -/
def putAll (position bufferSize : Nat) : Nat → List UInt8 → List Directive → Except Fault (Nat × List UInt8)
  | i, block, [] => .ok (i, block)
  | i, block, directive :: rest => do
    let (next, written) ← directive.put position bufferSize i block
    putAll position bufferSize next written rest

/-- The terminator, behind the text or at the end of the buffer. -/
def terminate (position bufferSize i : Nat) (block : List UInt8) : Except Fault (List UInt8) :=
  if i < bufferSize then copied (overwrite block (position + i) [0])
  else if bufferSize ≠ 0 then copied (overwrite block (position + (bufferSize - 1)) [0])
  else .ok block

def kvsnprintf (block : List UInt8) (position bufferSize : Nat) (format : List Directive) :
    Except Fault (List UInt8) := do
  let (i, written) ← putAll position bufferSize 0 block format
  terminate position bufferSize i written

/-- The characters a part of a format stands for. -/
def Directive.text : Directive → List UInt8
  | .plain c => [c]
  | .char c => [c]
  | .string s => s

def text (format : List Directive) : List UInt8 := format.flatMap Directive.text

variable {position bufferSize i : Nat}

section

variable {before rest : List UInt8}

theorem sputsFrom_fits {string : List UInt8} {limit : Int} {k : Nat} (here : before.length = position + k)
    (inside : (k + string.length : Int) ≤ limit) (room : string.length ≤ rest.length) :
    sputsFrom position limit (before ++ rest) k string = .ok (before ++ string ++ rest.drop string.length) := by
  induction string generalizing before rest k with
  | nil => simp [sputsFrom]
  | cons c others ih =>
    rw [length_cons] at inside room
    have within : (k : Int) < limit := by omega
    have written := overwrite_append before rest [c] (by rw [length_singleton]; omega)
    have put : putWithin (before ++ rest) position limit k c = .ok (before ++ [c] ++ rest.drop 1) := by
      rw [putWithin, if_pos within, ← here, written]
      rfl
    have length : (before ++ [c]).length = position + (k + 1) := by
      rw [length_append, here]
      rfl
    have roomBehind : others.length ≤ (rest.drop 1).length := by
      rw [length_drop]
      omega
    have later := ih length (by push_cast; omega) roomBehind
    rw [sputsFrom, put]
    refine later.trans ?_
    rw [drop_drop, add_comm 1, length_cons, append_assoc before, singleton_append]

theorem i32_of_lt {value : Nat} (small : value < 2 ^ 31) : i32 value = value := i32_of_range (by omega) (by omega)

/-- A text that fits is written behind what is there. -/
theorem put_fits (directive : Directive) (here : before.length = position + i) (size : i + rest.length = bufferSize)
    (small : bufferSize < 2 ^ 31) (room : directive.text.length ≤ rest.length) :
    directive.put position bufferSize i (before ++ rest) =
    .ok (i + directive.text.length, before ++ directive.text ++ rest.drop directive.text.length) := by
  have word : ∀ length, length ≤ rest.length → u64 (i + length) = i + length :=
    fun length le => u64_of_lt (by omega)
  cases directive with
  | plain c =>
    have nonempty : 1 ≤ rest.length := room
    have written := overwrite_append before rest [c] nonempty
    have within : (i : Int) < (bufferSize : Int) := by omega
    rw [Directive.put, putWithin, if_pos within, ← here, written]
    simp only [word 1 nonempty]
    rfl
  | char c =>
    have nonempty : 1 ≤ rest.length := room
    have written := overwrite_append before rest [c] nonempty
    rw [Directive.put, ← here, written]
    simp only [word 1 nonempty]
    rfl
  | string s =>
    have fits : s.length ≤ rest.length := room
    have limit : i32 (u64Sub bufferSize i) = (rest.length : Int) := by
      rw [u64Sub_of_le (by omega) (by omega), i32_of_lt (by omega)]
      omega
    have length : i32 s.length = (s.length : Int) := i32_of_lt (by omega)
    have written := sputsFrom_fits (show before.length = position + i + 0 from here)
      (show ((0 : Nat) + s.length : Int) ≤ (rest.length : Int) by omega) fits
    rw [Directive.put, limit, length, sputs, Int.toNat_natCast, take_of_length_le (le_refl _), written]
    simp only [bind, Except.bind, word s.length fits]
    rfl

theorem putAll_fits {format : List Directive} (here : before.length = position + i)
    (size : i + rest.length = bufferSize) (small : bufferSize < 2 ^ 31) (room : (text format).length ≤ rest.length) :
    putAll position bufferSize i (before ++ rest) format =
    .ok (i + (text format).length, before ++ text format ++ rest.drop (text format).length) := by
  induction format generalizing before rest i with
  | nil => simp [putAll, text]
  | cons directive others ih =>
    rw [text, flatMap_cons, length_append] at room
    have put := put_fits directive here size small (by omega)
    have length : (before ++ directive.text).length = position + (i + directive.text.length) := by
      rw [length_append, here, add_assoc]
    have left : i + directive.text.length + (rest.drop directive.text.length).length = bufferSize := by
      rw [length_drop]
      omega
    have roomBehind : (text others).length ≤ (rest.drop directive.text.length).length := by
      rw [text]
      omega
    have later := ih length left roomBehind
    have whole : text (directive :: others) = directive.text ++ text others := flatMap_cons
    rw [putAll, put]
    refine later.trans ?_
    rw [whole, length_append, drop_drop, add_assoc, append_assoc before]

/-- A text that fits with its terminator is written with it. -/
theorem kvsnprintf_fits {format : List Directive} (here : before.length = position)
    (size : rest.length = bufferSize) (small : bufferSize < 2 ^ 31) (room : (text format).length + 1 ≤ rest.length) :
    kvsnprintf (before ++ rest) position bufferSize format =
    .ok (before ++ (text format ++ [0]) ++ rest.drop ((text format).length + 1)) := by
  have put := putAll_fits (i := 0) here ((zero_add _).trans size) small (Nat.le_of_succ_le room)
  have inside : 0 + (text format).length < bufferSize := by omega
  have length : (before ++ text format).length = position + (0 + (text format).length) := by
    rw [length_append, here, zero_add]
  have written := overwrite_append (before ++ text format) (rest.drop (text format).length) [0]
    (by rw [length_singleton, length_drop]; omega)
  rw [kvsnprintf, put]
  simp only [bind, Except.bind, terminate, if_pos inside]
  rw [← length, written, drop_drop, append_assoc before]
  rfl

end

section

variable {block : List UInt8}

/-- The buffer lies inside the block. -/
theorem putWithin_bounded {limit : Int} (inside : position + limit ≤ block.length) (i : Nat) (c : UInt8) :
    ∃ after, putWithin block position limit i c = .ok after ∧ after.length = block.length := by
  by_cases within : (i : Int) < limit
  · have room : position + i + [c].length ≤ block.length := by
      rw [length_singleton]
      omega
    have written : overwrite block (position + i) [c] = some _ := if_pos room
    exact ⟨_, (if_pos within).trans (congrArg copied written), overwrite_length written⟩
  · exact ⟨block, if_neg within, rfl⟩

theorem sputsFrom_bounded {limit : Int} (inside : position + limit ≤ block.length) (i : Nat) (string : List UInt8) :
    ∃ after, sputsFrom position limit block i string = .ok after ∧ after.length = block.length := by
  induction string generalizing block i with
  | nil => exact ⟨block, rfl, rfl⟩
  | cons c rest ih =>
    obtain ⟨written, put, same⟩ := putWithin_bounded inside i c
    have insideWritten : position + limit ≤ written.length := by
      rw [same]
      exact inside
    obtain ⟨after, later, length⟩ := ih insideWritten (i + 1)
    refine ⟨after, ?_, length.trans same⟩
    rw [sputsFrom, put]
    exact later

/-- What is left of a buffer as a signed word; it is not positive behind the end. -/
theorem remaining_le (small : bufferSize < 2 ^ 31) (index : i < 2 ^ 31) : i + i32 (u64Sub bufferSize i) ≤ bufferSize := by
  by_cases within : i ≤ bufferSize
  · rw [u64Sub_of_le within (by omega), i32_of_lt (by omega)]
    omega
  · rw [u64Sub_of_lt (by omega) (by omega), i32]
    omega

variable (inside : position + bufferSize ≤ block.length)
include inside

/-- Without the directive for a character everything is written inside the buffer. -/
theorem put_bounded {directive : Directive} (checked : ∀ c, directive ≠ .char c) (small : bufferSize < 2 ^ 31)
    (short : i + directive.text.length < 2 ^ 31) :
    ∃ after, directive.put position bufferSize i block = .ok (i + directive.text.length, after) ∧
    after.length = block.length := by
  cases directive with
  | plain c =>
    obtain ⟨after, put, same⟩ :=
      putWithin_bounded (show (position : Int) + (bufferSize : Int) ≤ block.length by omega) i c
    refine ⟨after, ?_, same⟩
    have next : u64 (i + 1) = i + 1 := u64_of_lt (by simp only [Directive.text] at short; omega)
    rw [Directive.put, put]
    simp only [next]
    rfl
  | char c => exact absurd rfl (checked c)
  | string s =>
    have length : s.length < 2 ^ 31 := by
      simp only [Directive.text] at short
      omega
    have remains := remaining_le small (lt_of_le_of_lt (Nat.le_add_right ..) short)
    have room : ((position + i : Nat) : Int) + i32 (u64Sub bufferSize i) ≤ block.length := by
      omega
    obtain ⟨after, put, same⟩ := sputsFrom_bounded room 0 s
    refine ⟨after, ?_, same⟩
    have next : u64 (i + s.length) = i + s.length := u64_of_lt (by simp only [Directive.text] at short; omega)
    rw [Directive.put, i32_of_lt length, sputs, Int.toNat_natCast, take_of_length_le (le_refl _), put]
    simp only [bind, Except.bind, next]
    rfl

theorem putAll_bounded {format : List Directive} (checked : ∀ directive ∈ format, ∀ c, directive ≠ .char c)
    (small : bufferSize < 2 ^ 31) (short : i + (text format).length < 2 ^ 31) :
    ∃ next after, putAll position bufferSize i block format = .ok (next, after) ∧ after.length = block.length := by
  induction format generalizing block i with
  | nil => exact ⟨i, block, rfl, rfl⟩
  | cons directive others ih =>
    have whole : text (directive :: others) = directive.text ++ text others := flatMap_cons
    rw [whole, length_append] at short
    have shortHere : i + directive.text.length < 2 ^ 31 := by omega
    have shortLater : i + directive.text.length + (text others).length < 2 ^ 31 := by omega
    obtain ⟨written, put, same⟩ := put_bounded inside (checked directive mem_cons_self) small shortHere
    have insideWritten : position + bufferSize ≤ written.length := same ▸ inside
    obtain ⟨next, after, later, length⟩ := ih insideWritten (forall_mem_cons.mp checked).2 shortLater
    refine ⟨next, after, ?_, length.trans same⟩
    rw [putAll, put]
    exact later

theorem terminate_bounded :
    ∃ after, terminate position bufferSize i block = .ok after ∧ after.length = block.length := by
  have write : ∀ index < bufferSize, ∃ after,
      copied (overwrite block (position + index) [0]) = .ok after ∧ after.length = block.length := by
    intro index within
    have room : position + index + [(0 : UInt8)].length ≤ block.length := by
      rw [length_singleton]
      omega
    have written : overwrite block (position + index) [0] = some _ := if_pos room
    exact ⟨_, congrArg copied written, overwrite_length written⟩
  rw [terminate]
  split
  next within => exact write i within
  next =>
    split
    next nonempty => exact write (bufferSize - 1) (Nat.sub_one_lt nonempty)
    next => exact ⟨block, rfl, rfl⟩

/-- A format that begins with a character stays inside a buffer that is not empty. -/
theorem kvsnprintf_bounded {c : UInt8} {format : List Directive}
    (checked : ∀ directive ∈ format, ∀ c, directive ≠ .char c) (nonempty : 0 < bufferSize) (small : bufferSize < 2 ^ 31)
    (short : 1 + (text format).length < 2 ^ 31) :
    ∃ after, kvsnprintf block position bufferSize (.char c :: format) = .ok after ∧ after.length = block.length := by
  have room : position + 0 + [c].length ≤ block.length := by
    rw [length_singleton]
    omega
  have written : overwrite block (position + 0) [c] = some _ := if_pos room
  have same := overwrite_length written
  obtain ⟨next, formatted, put, length⟩ := putAll_bounded (same ▸ inside) checked small short
  obtain ⟨after, terminated, final⟩ := terminate_bounded (i := next) (length.trans same ▸ inside)
  refine ⟨after, ?_, final.trans (length.trans same)⟩
  have whole : putAll position bufferSize 0 block (.char c :: format) = .ok (next, formatted) := by
    rw [putAll, Directive.put, written]
    exact put
  rw [kvsnprintf, whole]
  exact terminated

end

end Lfos.Formatting
