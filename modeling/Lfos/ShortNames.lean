import Lfos.DirectoryEntries
import Lfos.Searches
import Mathlib.Data.Nat.Digits.Lemmas

/-!
# Short names of files

A file has a name of eleven characters in its entry, made of its long name: eight in front of the
first dot, three behind it, all in capital letters. When there are more than eight in front of
the dot a number is put into the name, and it is counted up until no entry of the directory has the same name.
A short name that comes out of this loop is printed into a buffer of twelve bytes, and is followed by a zero. The
part in front of the number gets shorter with each round after the ninth, so that from the eleventh on the zero
may be one of the eleven characters.
-/

namespace Lfos.ShortNames

open DirectoryEntries Searches List

def dot : Byte := 0x2E#8
def space : Byte := 0x20#8
def tilde : Byte := 0x7E#8

/-- The characters of the name in front of the first dot. -/
def baseOf (fullname : List Byte) : List Byte := fullname.takeWhile (fun c => decide (c ≠ dot))

/-- `ext`: those behind it, or three spaces if there is no dot. -/
def extensionOf (fullname : List Byte) : List Byte :=
  if dot ∈ fullname then (fullname.dropWhile (fun c => decide (c ≠ dot))).drop 1 else replicate 3 space

/-- `memcpy(ret + offset, bytes, length)` -/
def put (offset : Nat) (bytes ret : List Byte) : List Byte := ret.take offset ++ bytes ++ ret.drop (offset + bytes.length)

def toupper (c : Byte) : Byte := if 0x61 ≤ c.toNat ∧ c.toNat ≤ 0x7A then c - 0x20#8 else c

/-- Capital letters up to the zero behind a string. -/
def strupr (s : List Byte) : List Byte :=
  (s.takeWhile (fun c => decide (c ≠ 0#8))).map toupper ++ s.dropWhile (fun c => decide (c ≠ 0#8))

/-- Eleven spaces and a zero. -/
def blank : List Byte := replicate 11 space ++ [0#8]

/-- `ret` with an extension of up to three characters. -/
def extended (fullname : List Byte) : List Byte :=
  if dot ∈ fullname ∧ (extensionOf fullname).length ≤ 3 then put 8 (extensionOf fullname) blank else blank

/-- `%d` -/
def decimal (cnt : Nat) : List Byte := (Nat.digits 10 cnt).reverse.map (fun digit => BitVec.ofNat 8 (48 + digit))

/-- `"%.*s~%d%3s"` -/
def printed (fullname : List Byte) (prefixlen cnt : Nat) : List Byte :=
  fullname.take prefixlen ++ [tilde] ++ decimal cnt ++ (extensionOf fullname).leftpad 3 space

/-- `snprintf(ret, 12, …)` -/
def snprintf (text ret : List Byte) : List Byte := put 0 (text.take 11 ++ [0#8]) ret

/-- `for(int i = 10; i <= cnt && prefixlen > 0; i *= 10) prefixlen--` -/
def shrink (cnt : Nat) : Nat → Nat → Nat
  | _, 0 => 0
  | i, prefixlen + 1 => if i ≤ cnt then shrink cnt (i * 10) prefixlen else prefixlen + 1

/-- What the loop keeps from round to round. `cnt` is an `int` there and has no bound here. A directory of less than
a billion entries does not take it beyond an `int`, since the names with ten digits are different. -/
structure Attempt where
  ret : List Byte
  prefixlen : Nat
  cnt : Nat
deriving DecidableEq

/-- A round of the loop up to the search for a collision. -/
def Attempt.print (fullname : List Byte) (attempt : Attempt) : Attempt where
  ret := strupr (snprintf (printed fullname (shrink attempt.cnt 10 attempt.prefixlen) attempt.cnt) attempt.ret)
  prefixlen := shrink attempt.cnt 10 attempt.prefixlen
  cnt := attempt.cnt

/-- The round after a collision. -/
def Attempt.again (fullname : List Byte) (attempt : Attempt) : Attempt :=
  { attempt.print fullname with cnt := attempt.cnt + 1 }

/-- An entry of the directory has the name. -/
def Taken (dir : Nat → DirectoryEntry) (dirlen : Nat) (ret : List Byte) : Prop :=
  ∃ index < dirlen, filename (dir index) = ret.take 11

instance (dir : Nat → DirectoryEntry) (dirlen : Nat) (ret : List Byte) : Decidable (Taken dir dirlen ret) :=
  inferInstanceAs (Decidable (∃ index < dirlen, filename (dir index) = ret.take 11))

/-- The name of a round if there is no collision. -/
def uncollided (fullname : List Byte) (dir : Nat → DirectoryEntry) (dirlen : Nat) (attempt : Attempt) : Option (List Byte) :=
  if Taken dir dirlen (attempt.print fullname).ret then none else some (attempt.print fullname).ret

def firstAttempt (fullname : List Byte) : Attempt := ⟨extended fullname, 6, 1⟩

/-- `fatify_name`, with a number of rounds for its loop. -/
def fatifyName (steps : Nat) (fullname : List Byte) (dir : Nat → DirectoryEntry) (dirlen : Nat) : Option (List Byte) :=
  if (baseOf fullname).length ≤ 8 then some (strupr (put 0 (baseOf fullname) (extended fullname)))
  else (search (uncollided fullname dir dirlen) (Attempt.again fullname) steps (firstAttempt fullname)).map strupr

/-- A call returns a name. -/
def Fatified (fullname : List Byte) (dir : Nat → DirectoryEntry) (dirlen : Nat) (fatname : List Byte) : Prop :=
  ∃ steps, fatifyName steps fullname dir dirlen = some fatname

section

variable {text bytes ret : List Byte} {offset : Nat}

theorem toupper_nonzero {c : Byte} (nonzero : c ≠ 0#8) : toupper c ≠ 0#8 := by
  have all : ∀ c : Byte, c ≠ 0#8 → toupper c ≠ 0#8 := by decide
  exact all c nonzero

theorem toupper_toupper (c : Byte) : toupper (toupper c) = toupper c := by
  have all : ∀ c : Byte, toupper (toupper c) = toupper c := by decide
  exact all c

/-- A string is changed up to its zero. -/
theorem strupr_append (plain : 0#8 ∉ text) (rest : List Byte) :
    strupr (text ++ 0#8 :: rest) = text.map toupper ++ 0#8 :: rest := by
  have nonzero : ∀ c ∈ text, decide (c ≠ 0#8) = true := by
    intro c member
    exact decide_eq_true (fun zero => plain (zero ▸ member))
  rw [strupr, takeWhile_append_of_pos nonzero, dropWhile_append_of_pos nonzero]
  simp

theorem map_toupper_plain (plain : 0#8 ∉ text) : 0#8 ∉ text.map toupper := by
  intro member
  obtain ⟨c, inText, zero⟩ := mem_map.mp member
  exact toupper_nonzero (fun same => plain (same ▸ inText)) zero

/-- Capital letters stay as they are. -/
theorem strupr_capital (plain : 0#8 ∉ text) (rest : List Byte) :
    strupr (text.map toupper ++ 0#8 :: rest) = text.map toupper ++ 0#8 :: rest := by
  rw [strupr_append (map_toupper_plain plain), map_map]
  congr 2
  funext c
  exact toupper_toupper c

/-- Eleven characters and a zero. -/
structure Proper (ret : List Byte) : Prop where
  length : (ret.take 11).length = 11
  plain : 0#8 ∉ ret.take 11
  zero : ret.drop 11 = [0#8]

theorem Proper.eq (proper : Proper ret) : ret = ret.take 11 ++ [0#8] := by
  rw [← proper.zero, take_append_drop]

theorem proper_append (length : text.length = 11) (plain : 0#8 ∉ text) : Proper (text ++ [0#8]) := by
  have taken : (text ++ [0#8]).take 11 = text := by
    rw [← length, take_left]
  refine ⟨?_, ?_, ?_⟩
  · rw [taken, length]
  · rwa [taken]
  · rw [← length, drop_left]

theorem blank_proper : Proper blank := proper_append (by decide) (by decide)

/-- Characters are copied in front of the zero. -/
theorem Proper.put (proper : Proper ret) (inside : offset + bytes.length ≤ 11) (plain : 0#8 ∉ bytes) :
    Proper (put offset bytes ret) := by
  have split := proper.eq
  have length := proper.length
  have nonzero := proper.plain
  generalize ret.take 11 = text at split length nonzero
  have same : ShortNames.put offset bytes ret = (text.take offset ++ bytes ++ text.drop (offset + bytes.length)) ++ [0#8] := by
    rw [split, ShortNames.put, take_append_of_le_length (by omega), drop_append_of_le_length (by omega),
      append_assoc _ _ [0#8]]
  rw [same]
  apply proper_append
  · simp only [length_append, length_take, length_drop]
    omega
  · simp only [mem_append, not_or]
    exact ⟨⟨fun member => nonzero (mem_of_mem_take member), plain⟩, fun member => nonzero (mem_of_mem_drop member)⟩

theorem Proper.strupr (proper : Proper ret) : Proper (strupr ret) := by
  rw [proper.eq, strupr_append proper.plain]
  apply proper_append
  · rw [length_map, proper.length]
  · exact map_toupper_plain proper.plain

end

variable {fullname : List Byte} {dir : Nat → DirectoryEntry} {dirlen : Nat}

section

variable (plain : 0#8 ∉ fullname)
include plain

theorem baseOf_plain : 0#8 ∉ baseOf fullname :=
  fun member => plain (( takeWhile_prefix _).subset member)

theorem extensionOf_plain : 0#8 ∉ extensionOf fullname := by
  rw [extensionOf]
  split
  · exact fun member => plain ((dropWhile_suffix _).subset (mem_of_mem_drop member))
  · decide

theorem extended_proper : Proper (extended fullname) := by
  rw [extended]
  split
  case isTrue small => exact blank_proper.put (by omega) (extensionOf_plain plain)
  case isFalse => exact blank_proper

/-- A name without a number has eleven characters. -/
theorem short_proper (short : (baseOf fullname).length ≤ 8) :
    Proper (strupr (put 0 (baseOf fullname) (extended fullname))) := by
  apply Proper.strupr
  exact (extended_proper plain).put (by omega) (baseOf_plain plain)

end

/-- `prefixlen` when a number is printed: each one from ten on takes a character away. -/
def prefixFor (cnt : Nat) : Nat := min 6 (15 - cnt)

/-- The short name with a number and the zeros behind it, of which there is one or more. -/
def numbered (fullname : List Byte) (cnt : Nat) : List Byte :=
  (((printed fullname (prefixFor cnt) cnt).take 11).map toupper).rightpad 12 0#8

theorem shrink_prefixFor (cnt : Nat) : shrink (cnt + 1) 10 (prefixFor cnt) = prefixFor (cnt + 1) := by
  by_cases early : cnt < 15
  · have all : ∀ cnt < 15, shrink (cnt + 1) 10 (prefixFor cnt) = prefixFor (cnt + 1) := by decide
    exact all cnt early
  · have used (later : Nat) (late : 15 ≤ later) : prefixFor later = 0 := by
      rw [prefixFor]
      omega
    rw [used cnt (by omega), used (cnt + 1) (by omega), shrink]

theorem decimal_length (cnt : Nat) : (decimal cnt).length = (Nat.digits 10 cnt).length := by
  rw [decimal, length_map, length_reverse]

theorem printed_length (long : 8 < (baseOf fullname).length) (cnt : Nat) :
    (printed fullname (prefixFor cnt) cnt).length =
      prefixFor cnt + 1 + (Nat.digits 10 cnt).length + max 3 (extensionOf fullname).length := by
  have base : (baseOf fullname).length ≤ fullname.length := ( takeWhile_prefix _).length_le
  have few : prefixFor cnt ≤ 6 := Nat.min_le_left ..
  simp only [printed, length_append, length_take, length_singleton, decimal_length, length_leftpad]
  omega

/-- A name with a number is what the loop ends with. -/
theorem fatified_loop (long : 8 < (baseOf fullname).length) : Fatified fullname dir dirlen fatname ↔ ∃ found,
    Ends (uncollided fullname dir dirlen) (Attempt.again fullname) (firstAttempt fullname) found ∧ strupr found = fatname := by
  simp only [Fatified, fatifyName, if_neg (not_le.mpr long), Option.map_eq_some_iff, Ends, ← exists_and_right]
  exact exists_comm

section

variable (plain : 0#8 ∉ fullname)
include plain

theorem printed_plain (prefixlen cnt : Nat) : 0#8 ∉ printed fullname prefixlen cnt := by
  have digits : 0#8 ∉ decimal cnt := by
    intro member
    obtain ⟨digit, inDigits, zero⟩ := mem_map.mp member
    have small := Nat.digits_lt_base (by decide) (mem_reverse.mp inDigits)
    have all : ∀ digit < 10, BitVec.ofNat 8 (48 + digit) ≠ 0#8 := by decide
    exact all digit small zero
  have padded : 0#8 ∉ (extensionOf fullname).leftpad 3 space := by
    rw [leftpad, mem_append, not_or]
    refine ⟨fun member => ?_, extensionOf_plain plain⟩
    exact absurd (eq_of_mem_replicate member) (by decide)
  simp only [printed, mem_append, mem_singleton, not_or]
  exact ⟨⟨⟨fun member => plain (mem_of_mem_take member), by decide⟩, digits⟩, padded⟩

/-- A round leaves a numbered name when there are zeros behind what it prints. -/
theorem print_over (ret : List Byte) (cnt : Nat)
    (behind : ret.drop (min 11 (printed fullname (prefixFor cnt) cnt).length + 1) =
      replicate (11 - min 11 (printed fullname (prefixFor cnt) cnt).length) 0#8) :
    strupr (snprintf (printed fullname (prefixFor cnt) cnt) ret) = numbered fullname cnt := by
  have text : 0#8 ∉ (printed fullname (prefixFor cnt) cnt).take 11 :=
    fun member => printed_plain plain _ _ (mem_of_mem_take member)
  rw [snprintf, put, take_zero, nil_append, zero_add, length_append, length_take, length_singleton, behind,
    append_assoc, singleton_append, strupr_append text, numbered, rightpad, length_map, length_take,
    Nat.succ_sub (Nat.min_le_left ..), replicate_succ]

/-- The names of the rounds are numbered. What is printed gets shorter by at most one character in a round, so that
the zero behind it is next to the zeros of the rounds before. -/
theorem print_numbered (long : 8 < (baseOf fullname).length) (count : Nat) :
    ((Attempt.again fullname)^[count] (firstAttempt fullname)).print fullname =
      ⟨numbered fullname (count + 1), prefixFor (count + 1), count + 1⟩ := by
  induction count with
  | zero =>
    have whole : 11 ≤ (printed fullname (prefixFor 1) 1).length := by
      have digits : (Nat.digits 10 1).length = 1 := by simp
      rw [printed_length long, digits, show prefixFor 1 = 6 from rfl]
      omega
    have behind : (extended fullname).drop 12 = [] := by
      rw [← drop_drop (i := 1) (j := 11), (extended_proper plain).zero]
      rfl
    have first := print_over plain (extended fullname) 1 (by rw [Nat.min_eq_left whole]; exact behind)
    exact congrArg (Attempt.mk · 6 1) first
  | succ count ih =>
    have shorter : (printed fullname (prefixFor (count + 1)) (count + 1)).length ≤
        (printed fullname (prefixFor (count + 1 + 1)) (count + 1 + 1)).length + 1 := by
      have digits := Nat.le_length_digits_le 10 (count + 1) (count + 1 + 1) (Nat.le_succ _)
      rw [printed_length long, printed_length long, prefixFor, prefixFor]
      omega
    have number : ((Attempt.again fullname)^[count] (firstAttempt fullname)).cnt = count + 1 := congrArg Attempt.cnt ih
    rw [Function.iterate_succ_apply', Attempt.again, ih, number, Attempt.print]
    dsimp only
    rw [shrink_prefixFor, print_over plain]
    rw [numbered, rightpad, drop_append, drop_eq_nil_of_le, nil_append, drop_replicate]
    · congr 1
      simp only [length_map, length_take]
      omega
    · simp only [length_map, length_take]
      omega

theorem numbered_capital (cnt : Nat) : strupr (numbered fullname cnt) = numbered fullname cnt := by
  have least : 0 < 12 - (((printed fullname (prefixFor cnt) cnt).take 11).map toupper).length := by simp
  rw [numbered, rightpad, ← Nat.succ_pred_eq_of_pos least, replicate_succ]
  exact strupr_capital (fun member => printed_plain plain _ _ (mem_of_mem_take member)) _

/-- The loop returns the first name that no entry has. -/
theorem fatified_long_iff (long : 8 < (baseOf fullname).length) :
    Fatified fullname dir dirlen fatname ↔ ∃ count, numbered fullname (count + 1) = fatname ∧
    ¬Taken dir dirlen (numbered fullname (count + 1)) ∧ ∀ earlier < count, Taken dir dirlen (numbered fullname (earlier + 1)) := by
  have round (count : Nat) : uncollided fullname dir dirlen ((Attempt.again fullname)^[count] (firstAttempt fullname)) =
      if Taken dir dirlen (numbered fullname (count + 1)) then none else some (numbered fullname (count + 1)) := by
    rw [uncollided, print_numbered plain long]
  simp only [fatified_loop long, ends_iff_first, round, Option.ite_none_left_eq_some, Option.some_inj, ite_eq_left_iff,
    reduceCtorEq, imp_false, not_not]
  constructor
  · rintro ⟨_, ⟨count, ⟨untaken, rfl⟩, before⟩, rfl⟩
    exact ⟨count, (numbered_capital plain (count + 1)).symm, untaken, before⟩
  · rintro ⟨count, rfl, untaken, before⟩
    exact ⟨_, ⟨count, ⟨untaken, rfl⟩, before⟩, numbered_capital plain (count + 1)⟩

end

theorem fatified_short_iff (short : (baseOf fullname).length ≤ 8) :
    Fatified fullname dir dirlen fatname ↔ strupr (put 0 (baseOf fullname) (extended fullname)) = fatname := by
  simp only [Fatified, fatifyName, if_pos short, Option.some_inj, exists_const]

section

variable {count : Nat}

/-- The digits can be read. -/
theorem decimal_digits (cnt : Nat) : ((decimal cnt).map toupper).map (fun c => c.toNat - 48) = (Nat.digits 10 cnt).reverse := by
  have digits : ∀ digit < 10, (toupper (BitVec.ofNat 8 (48 + digit))).toNat - 48 = digit := by decide
  rw [decimal, map_map, map_map]
  refine (map_congr_left ?_).trans (map_id _)
  intro digit member
  exact digits digit (Nat.digits_lt_base (by decide) (mem_reverse.mp member))

theorem decimal_injective {cnt other : Nat} (same : (decimal cnt).map toupper = (decimal other).map toupper) : cnt = other := by
  have read := decimal_digits cnt
  rw [same, decimal_digits other] at read
  exact Nat.digits_inj_iff.mp (reverse_injective read.symm)

/-- A number of ten digits fills the name. -/
theorem numbered_ten {cnt : Nat} (large : 10 ^ 9 ≤ cnt) (small : cnt < 10 ^ 10) :
    (numbered fullname cnt).take 11 = toupper tilde :: (decimal cnt).map toupper := by
  have ten : (decimal cnt).length = 10 := by
    rw [decimal_length]
    have most := (Nat.digits_length_le_iff (by decide : 1 < 10) (k := 10) cnt).mpr small
    have least := (Nat.lt_digits_length_iff (by decide : 1 < 10) (k := 9) cnt).mpr large
    omega
  have used : prefixFor cnt = 0 := by
    rw [prefixFor]
    omega
  have whole : (printed fullname (prefixFor cnt) cnt).take 11 = tilde :: decimal cnt := by
    rw [printed, used, take_zero, nil_append, singleton_append, cons_append, take_succ_cons, take_left' ten]
  rw [numbered, whole, rightpad, map_cons]
  exact take_left' (by rw [length_cons, length_map, ten])

/-- The loop ends in every directory that has less than a billion entries. -/
theorem fatified_ends (plain : 0#8 ∉ fullname) (fewer : dirlen < 10 ^ 9) : ∃ fatname, Fatified fullname dir dirlen fatname := by
  rcases lt_or_ge 8 (baseOf fullname).length with long | short
  · have untaken : ∃ count, ¬Taken dir dirlen (numbered fullname (count + 1)) := by
      by_contra all
      simp only [not_exists, not_not] at all
      -- the names with ten digits are all different, and there are not as many entries
      choose place inside named using all
      obtain ⟨count, inFirst, other, inSecond, different, same⟩ :=
        Finset.exists_ne_map_eq_of_card_lt_of_maps_to (s := Finset.Ico (10 ^ 9) (2 * 10 ^ 9)) (t := Finset.range dirlen)
          (f := place) (by rw [Finset.card_range, Nat.card_Ico]; omega)
          (fun count _ => Finset.mem_coe.mpr (Finset.mem_range.mpr (inside count)))
      rw [Finset.mem_Ico] at inFirst inSecond
      have names : (numbered fullname (count + 1)).take 11 = (numbered fullname (other + 1)).take 11 := by
        rw [← named count, ← named other, same]
      rw [numbered_ten (by omega) (by omega), numbered_ten (by omega) (by omega), cons_inj_right] at names
      exact different (Nat.succ_injective (decimal_injective names))
    refine ⟨_, (fatified_long_iff plain long).mpr ⟨Nat.find untaken, rfl, Nat.find_spec untaken, ?_⟩⟩
    exact fun earlier less => not_not.mp (Nat.find_min untaken less)
  · exact ⟨_, (fatified_short_iff short).mpr rfl⟩

end

section

variable {shorts : List (List Byte)}

/-- A name of up to eight characters in front of the dot becomes none of the short names that are there. Of the numbered
names of a longer one the first that no entry has is without a zero. -/
def Clear (shorts : List (List Byte)) (dir : Nat → DirectoryEntry) (dirlen : Nat) (fullname : List Byte) : Prop :=
  ((baseOf fullname).length ≤ 8 → (strupr (put 0 (baseOf fullname) (extended fullname))).take 11 ∉ shorts) ∧
    (8 < (baseOf fullname).length → ∃ count, 0#8 ∉ (numbered fullname (count + 1)).take 11 ∧
      ¬Taken dir dirlen (numbered fullname (count + 1)) ∧
      ∀ earlier < count, Taken dir dirlen (numbered fullname (earlier + 1)))

/-- A call gives a name that is new and whole exactly if the condition is met. -/
theorem clear_iff (plain : 0#8 ∉ fullname) (stand : ∀ short ∈ shorts, ∃ index < dirlen, filename (dir index) = short) :
    Clear shorts dir dirlen fullname ↔
    ∃ fatname, Fatified fullname dir dirlen fatname ∧ 0#8 ∉ fatname.take 11 ∧ fatname.take 11 ∉ shorts := by
  rcases lt_or_ge 8 (baseOf fullname).length with long | short
  · constructor
    · rintro ⟨_, first⟩
      obtain ⟨count, whole, untaken, before⟩ := first long
      refine ⟨_, (fatified_long_iff plain long).mpr ⟨count, rfl, untaken, before⟩, whole, ?_⟩
      exact fun member => untaken (stand _ member)
    · rintro ⟨fatname, fatified, whole, _⟩
      obtain ⟨count, rfl, untaken, before⟩ := (fatified_long_iff plain long).mp fatified
      exact ⟨fun short => absurd long (not_lt.mpr short), fun _ => ⟨count, whole, untaken, before⟩⟩
  · constructor
    · rintro ⟨absent, _⟩
      exact ⟨_, (fatified_short_iff short).mpr rfl, (short_proper plain short).plain, absent short⟩
    · rintro ⟨fatname, fatified, _, absent⟩
      obtain rfl := (fatified_short_iff short).mp fatified
      exact ⟨fun _ => absent, fun long => absurd long (not_lt.mpr short)⟩

/-- A short name has eleven characters. -/
theorem fatified_length (plain : 0#8 ∉ fullname) (fatified : Fatified fullname dir dirlen fatname) :
    (fatname.take 11).length = 11 := by
  rcases lt_or_ge 8 (baseOf fullname).length with long | short
  · obtain ⟨count, rfl, _, _⟩ := (fatified_long_iff plain long).mp fatified
    simp [numbered, rightpad]
  · obtain rfl := (fatified_short_iff short).mp fatified
    exact (short_proper plain short).length

theorem fatified_unique {other : List Byte} (first : Fatified fullname dir dirlen fatname)
    (second : Fatified fullname dir dirlen other) : fatname = other := by
  rcases lt_or_ge 8 (baseOf fullname).length with long | short
  · obtain ⟨found, ends, rfl⟩ := (fatified_loop long).mp first
    obtain ⟨last, otherEnds, rfl⟩ := (fatified_loop long).mp second
    rw [ends_unique ends otherEnds]
  · exact ((fatified_short_iff short).mp first).symm.trans ((fatified_short_iff short).mp second)

end

end Lfos.ShortNames
