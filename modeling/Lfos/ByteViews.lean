import Lfos.ByteLists
import Lfos.Words

/-!
# Records in a view of the memory

A view has a byte or none for each word that is an address. Numbers and records are read from it byte by
byte, and an array record by record. What a view shows from an address on is a list of bytes; then the
records in this list are read, and nothing is read where the view has no byte.
-/

namespace Lfos.ByteViews

open ByteLists Words List Option

abbrev View := Nat → Option UInt8

def readBytes (view : View) : Nat → Nat → Option (List UInt8)
  | _, 0 => some []
  | address, count + 1 => (view address).bind (fun byte => (readBytes view (u64 (address + 1)) count).map (byte :: ·))

def readNumber (view : View) (address width : Nat) : Option Nat := (readBytes view address width).map littleEndian

/-- Some records that follow each other. -/
def readRecords {Record : Type} (read : Nat → Option Record) (size : Nat) : Nat → Nat → Option (List Record)
  | _, 0 => some []
  | address, count + 1 =>
    (read address).bind (fun record => (readRecords read size (u64 (address + size)) count).map (record :: ·))

/-- The view has some bytes from an address on. -/
def Shows (view : View) (address : Nat) (bytes : List UInt8) : Prop :=
  ∀ offset byte, bytes[offset]? = some byte → view (u64 (address + offset)) = some byte

/-- There are bytes from an address on. -/
def Seen (view : View) (address count : Nat) : Prop := ∀ offset < count, view (u64 (address + offset)) ≠ none

theorem u64_add_word (address offset : Nat) : u64 (u64 address + offset) = u64 (address + offset) := by
  simp only [u64]
  omega

section

variable {view : View} {address count : Nat} {bytes front rest : List UInt8}

theorem shows_append : Shows view address (front ++ rest) ↔
    Shows view address front ∧ Shows view (u64 (address + front.length)) rest := by
  constructor
  · intro shows
    constructor
    · intro offset byte found
      apply shows
      obtain ⟨inside, _⟩ := List.getElem?_eq_some_iff.mp found
      rwa [getElem?_append_left inside]
    · intro offset byte found
      have here := shows (front.length + offset) byte (by
        rwa [getElem?_append_right (Nat.le_add_right _ _), Nat.add_sub_cancel_left])
      rwa [u64_add_word, add_assoc]
  · rintro ⟨before, after⟩ offset byte found
    by_cases inside : offset < front.length
    · rw [getElem?_append_left inside] at found
      exact before offset byte found
    · rw [getElem?_append_right (not_lt.mp inside)] at found
      have here := after _ byte found
      have same : address + front.length + (offset - front.length) = address + offset := by omega
      rwa [u64_add_word, same] at here

section

variable (word : address < 2 ^ 64)
include word

theorem shows_cons {byte : UInt8} :
    Shows view address (byte :: rest) ↔ view address = some byte ∧ Shows view (u64 (address + 1)) rest := by
  have single : Shows view address [byte] ↔ view address = some byte := by
    constructor
    · intro shows
      have here := shows 0 byte rfl
      rwa [add_zero, u64_of_lt word] at here
    · rintro here (_ | offset) found same
      · rwa [add_zero, u64_of_lt word, ← some.inj same]
      · exact nomatch same
  rw [← singleton_append, shows_append, single]
  rfl

/-- What is read is what the view shows. -/
theorem readBytes_iff : readBytes view address bytes.length = some bytes ↔ Shows view address bytes := by
  induction bytes generalizing address with
  | nil => exact ⟨fun _ offset byte found => absurd found nofun, fun _ => rfl⟩
  | cons byte rest ih =>
    rw [shows_cons word, length_cons, readBytes, ← ih (u64_lt _)]
    simp only [bind_eq_some_iff, map_eq_some_iff, cons.injEq]
    constructor
    · rintro ⟨first, here, others, there, rfl, rfl⟩
      exact ⟨here, there⟩
    · rintro ⟨here, there⟩
      exact ⟨byte, here, rest, there, rfl, rfl⟩

theorem readBytes_seen (read : readBytes view address count = some bytes) : Seen view address count := by
  have length : bytes.length = count := by
    induction count generalizing address bytes with
    | zero => rw [← some.inj read, length_nil]
    | succ count ih =>
      obtain ⟨byte, _, rest⟩ := bind_eq_some_iff.mp read
      obtain ⟨others, there, rfl⟩ := map_eq_some_iff.mp rest
      rw [length_cons, ih (u64_lt _) there]
  rw [← length] at read
  have shows := (readBytes_iff word).mp read
  intro offset inside
  rw [shows offset (bytes[offset]) (getElem?_eq_getElem (by omega))]
  exact some_ne_none _

theorem readNumber_shows {width value : Nat} (small : value < 256 ^ width)
    (shows : Shows view address (toBytes width value)) : readNumber view address width = some value := by
  have read := (readBytes_iff word).mpr shows
  rw [toBytes_length] at read
  rw [readNumber, read, map_some, littleEndian_toBytes small]

theorem readNumber_seen {width value : Nat} (read : readNumber view address width = some value) :
    Seen view address width := by
  obtain ⟨bytes, found, _⟩ := map_eq_some_iff.mp read
  exact readBytes_seen word found

end

theorem Seen.append {more : Nat} (first : Seen view address count) (second : Seen view (u64 (address + count)) more) :
    Seen view address (count + more) := by
  intro offset inside
  by_cases before : offset < count
  · exact first offset before
  · have there := second (offset - count) (by omega)
    have same : address + count + (offset - count) = address + offset := by omega
    rwa [u64_add_word, same] at there

end

section

variable {Record : Type} {view : View} {read : Nat → Option Record} {size address : Nat}

/-- An array is read if each of its records is. -/
theorem readRecords_shows {encode : Record → List UInt8} {records : List Record} (word : address < 2 ^ 64)
    (sizes : ∀ record ∈ records, (encode record).length = size)
    (reads : ∀ record ∈ records, ∀ address < 2 ^ 64, Shows view address (encode record) → read address = some record)
    (shows : Shows view address (records.flatMap encode)) : readRecords read size address records.length = some records := by
  induction records generalizing address with
  | nil => rfl
  | cons record rest ih =>
    rw [flatMap_cons, shows_append, sizes record mem_cons_self] at shows
    have here := reads record mem_cons_self address word shows.1
    have there := ih (u64_lt _) (forall_mem_cons.mp sizes).2
      (forall_mem_cons.mp reads).2 shows.2
    rw [length_cons, readRecords, here, bind_some, there, map_some]

/-- No byte of an array that is read is missing. -/
theorem readRecords_seen {records : List Record} {count : Nat} (word : address < 2 ^ 64)
    (reads : ∀ address < 2 ^ 64, ∀ record, read address = some record → Seen view address size)
    (found : readRecords read size address count = some records) : Seen view address (size * count) := by
  induction count generalizing address records with
  | zero =>
    intro offset inside
    omega
  | succ count ih =>
    obtain ⟨record, here, rest⟩ := bind_eq_some_iff.mp found
    obtain ⟨others, there, _⟩ := map_eq_some_iff.mp rest
    rw [Nat.mul_succ, add_comm]
    exact (reads address word record here).append (ih (u64_lt _) there)

end

end Lfos.ByteViews
