import Lfos.FlexArrayRefinement

/-!
# Arrays of words

Arrays whose members are 64-bit words: numbers of queues and addresses of functions. The
members are a list of numbers, and a word is found at its first place in the list.
-/

namespace Lfos.FlexArrays

open ByteLists Words List

/-- Size of a word in bytes. -/
def wordSize : Nat := 8

/-- The array holds a list of words. -/
structure HoldsWords (array : FlexArray) (words : List Nat) : Prop where
  represents : Represents array (words.map (toBytes wordSize))
  memberSize : array.memberSize = wordSize
  small : ∀ word ∈ words, word < 2 ^ 64

section

variable {array : FlexArray} {words : List Nat} {word : Nat}

theorem littleEndian_word (small : word < 2 ^ 64) : littleEndian (toBytes wordSize word) = word :=
  littleEndian_toBytes small

theorem toBytes_inj {left right : Nat} (small : left < 2 ^ 64) (small' : right < 2 ^ 64)
    (same : toBytes wordSize left = toBytes wordSize right) : left = right := by
  have values := congrArg littleEndian same
  rwa [littleEndian_word small, littleEndian_word small'] at values

theorem new_words (self : Nat) (block : Block) : HoldsWords (newFlexarray wordSize 0 self block).1 [] := by
  constructor
  · exact new_represents (by decide) (by decide) self block
  · rfl
  · exact nofun

/-- A word is appended to an array that does not outgrow the words. -/
theorem HoldsWords.append (holds : HoldsWords array words) (small : word < 2 ^ 64)
    (sound : array.count < array.alloc ∨ array.grownAlloc * array.memberSize < 2 ^ 64) (block : Block) :
    ∃ after calls, flexarrayAppend array (toBytes wordSize word) block = .ok (words.length, after, calls) ∧
    HoldsWords after (words ++ [word]) := by
  have size : (toBytes wordSize word).length = array.memberSize := by
    rw [toBytes_length, holds.memberSize]
  obtain ⟨after, calls, appended, represents, same⟩ := holds.represents.append size sound block
  rw [length_map] at appended
  refine ⟨after, calls, appended, ?_⟩
  constructor
  · rw [map_append]
    exact represents
  · exact same.trans holds.memberSize
  · exact forall_mem_append.mpr ⟨holds.small, forall_mem_singleton.mpr small⟩

theorem idxOf?_words (small : word < 2 ^ 64) (words : List Nat) (all : ∀ word ∈ words, word < 2 ^ 64) :
    (words.map (toBytes wordSize)).idxOf? (toBytes wordSize word) = words.idxOf? word := by
  induction words with
  | nil => rfl
  | cons first rest ih =>
    have later := ih (forall_mem_cons.mp all).2
    have injective : toBytes wordSize first = toBytes wordSize word ↔ first = word := by
      constructor
      · exact toBytes_inj (all first mem_cons_self) small
      · exact congrArg _
    rw [map_cons, idxOf?_cons, idxOf?_cons, later]
    simp only [beq_iff_eq, injective]

theorem HoldsWords.find (holds : HoldsWords array words) (small : word < 2 ^ 64) :
    flexarrayFind array (toBytes wordSize word) = .ok ((words.idxOf? word).getD notFound) := by
  have size : (toBytes wordSize word).length = array.memberSize := by
    rw [toBytes_length, holds.memberSize]
  rw [holds.represents.find size, idxOf?_words small words holds.small]

/-- No array is so long that an index is taken for a failure. -/
theorem HoldsWords.index_lt (holds : HoldsWords array words) {idx : Nat} (within : idx < words.length) :
    idx ≠ notFound := by
  have count := holds.represents.count_lt
  rw [holds.represents.count, length_map] at count
  rw [notFound]
  omega

/-- The last word is removed. -/
theorem HoldsWords.remove (holds : HoldsWords array (words ++ [word])) (rounds : Nat) :
    ∃ after, flexarrayRemove rounds array words.length = .ok after ∧ HoldsWords after words := by
  have count : array.count ≤ words.length + 1 := by
    rw [holds.represents.count, length_map, length_append, length_singleton]
  obtain ⟨after, removed, represents, same⟩ := holds.represents.remove count rounds
  refine ⟨after, removed, ?_⟩
  constructor
  · rw [map_append, eraseIdx_append_of_length_le (by rw [length_map])] at represents
    simpa using represents
  · exact same.trans holds.memberSize
  · exact (forall_mem_append.mp holds.small).1

theorem HoldsWords.get (holds : HoldsWords array words) (idx : Nat) :
    flexarrayGet array (toBytes wordSize 0) idx = .ok (toBytes wordSize ((words[idx]?).getD 0)) := by
  have size : (toBytes wordSize 0).length = array.memberSize := by
    rw [toBytes_length, holds.memberSize]
  rw [holds.represents.get size idx, getElem?_map]
  cases words[idx]? with
  | none => rfl
  | some word => rfl

/-- A word is read at its place. -/
theorem HoldsWords.read (holds : HoldsWords array words) {idx : Nat} (found : words[idx]? = some word) :
    readU64 array.bytes (u64 (idx * wordSize)) = some word := by
  have element : (words.map (toBytes wordSize))[idx]? = some (toBytes wordSize word) := by
    rw [getElem?_map, found, Option.map_some]
  have slice := holds.represents.read element
  rw [FlexArray.position, holds.memberSize] at slice
  have small := holds.small word (mem_of_getElem? found)
  exact (congrArg (Option.map littleEndian) slice).trans (congrArg some (littleEndian_word small))

end

end Lfos.FlexArrays
