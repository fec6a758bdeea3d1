import Lfos.DirectoryEntries
import Mathlib.Data.List.GetD

/-!
# Long names in a directory

A long name is written into the entries in front of that of its short name, from the last one of them
to the first, with 13 characters in each. The entry that is written is marked as the last one of the
name, and the mark is taken back when the next one is begun. A reader goes through the entries in the
same order: their numbers are counted up from one, only that with the highest number has the mark, and all
have the checksum of the short name.
-/

namespace Lfos.LongNames

open DirectoryEntries List Option Function

/-- The number of entries for a name. -/
def lfnEntries (name : List Byte) : Nat := (name.length + 12) / 13

def lfnChecksum (entry : DirectoryEntry) : Byte :=
  (filename entry).foldl (fun ret c => ((ret &&& 1#8) <<< 7) + (ret >>> 1) + c) 0#8

/-- `wchar_t c = name[i]`, of which an entry keeps 16 bits. -/
def wide (c : Byte) : Nat := (c.signExtend 16).toNat

/-- The entries in front of the short name and behind it, the index of the one that is written, and the
number of its characters. -/
structure Cursor where
  dest : Nat → DirectoryEntry
  entry : Nat
  ei : Nat

def Cursor.modify (cursor : Cursor) (change : DirectoryEntry → DirectoryEntry) : Cursor :=
  { cursor with dest := update cursor.dest cursor.entry (change (cursor.dest cursor.entry)) }

/-- Go on with the entry in front when one is full. The program exits if there is none. -/
def goOn (cursor : Cursor) : Option Cursor :=
  if 13 ≤ cursor.ei then
    if cursor.entry = 0 then none
    else some { cursor.modify (setBits lastLogical 0) with entry := cursor.entry - 1, ei := 0 }
  else some cursor

/-- Fill in an entry that has no number yet. -/
def fillIn (maxEntries : Nat) (cursor : Cursor) : Cursor :=
  if sequence.get (cursor.dest cursor.entry 0) = 0 then
    cursor.modify (fun entry => setBits lastLogical 1 (setBits sequence (maxEntries - cursor.entry)
      (setByte attributesOffset 0x0F#8 (setByte checksumOffset (lfnChecksum (cursor.dest maxEntries)) entry))))
  else cursor

def putCharacter (c : Byte) (cursor : Cursor) : Cursor :=
  { cursor.modify (setCharacter cursor.ei (wide c)) with ei := cursor.ei + 1 }

def makeLfnLoop (maxEntries : Nat) : List Byte → Cursor → Option Cursor
  | [], cursor => some cursor
  | c :: rest, cursor => (goOn cursor).bind (fun cursor => makeLfnLoop maxEntries rest (putCharacter c (fillIn maxEntries cursor)))

def makeLfn (name : List Byte) (dest : Nat → DirectoryEntry) (maxEntries : Nat) : Option (Nat → DirectoryEntry) :=
  if lfnEntries name ≠ maxEntries then none
  else (makeLfnLoop maxEntries name ⟨dest, maxEntries - 1, 0⟩).map Cursor.dest

/-- The checksum of a short name: rotate and add. -/
def vfatChecksum (shortName : List Byte) : Byte := shortName.foldl (fun sum c => sum.rotateRight 1 + c) 0#8

/-- The characters of an entry with a number, up to the first zero. -/
def decodeEntry (count number : Nat) (checksum : Byte) (entry : DirectoryEntry) : Option (List Nat) :=
  if entry 0 = BitVec.ofNat 8 (number + if number = count then 64 else 0) ∧ entry attributesOffset = 0x0F#8 ∧
      entry typeOffset = 0#8 ∧ entry checksumOffset = checksum ∧ entry firstClusterOffset = 0#8 ∧
      entry (firstClusterOffset + 1) = 0#8 then
    some (((range 13).map (character entry)).takeWhile (fun c => decide (c ≠ 0)))
  else none

/-- The characters of the first numbers, counted backwards from the entry of the short name. -/
def decodeFirst (dest : Nat → DirectoryEntry) (count : Nat) : Nat → Option (List Nat)
  | 0 => some []
  | number + 1 => do
    let before ← decodeFirst dest count number
    let here ← decodeEntry count (number + 1) (vfatChecksum (filename (dest count))) (dest (count - 1 - number))
    some (before ++ here)

/-- The long name in front of an entry, by the rules of the file system. -/
def decode (dest : Nat → DirectoryEntry) (count : Nat) : Option (List Nat) := decodeFirst dest count count

variable {entry : DirectoryEntry} {number count : Nat} {chars : List Nat}

section

/-- What an entry of a long name holds. -/
structure Stored (entry : DirectoryEntry) (number : Nat) (last : Bool) (checksum : Byte) (chars : List Nat) : Prop where
  first : entry 0 = BitVec.ofNat 8 (number + if last then 64 else 0)
  attributes : entry attributesOffset = 0x0F#8
  type : entry typeOffset = 0#8
  checksum : entry checksumOffset = checksum
  cluster : entry firstClusterOffset = 0#8 ∧ entry (firstClusterOffset + 1) = 0#8
  chars : ∀ ei < 13, character entry ei = chars.getD ei 0

variable {last : Bool} {checksum : Byte}

/-- The five bits of the number are not zero. -/
theorem Stored.numbered (stored : Stored entry number last checksum chars) (positive : 1 ≤ number) (small : number < 32) :
    sequence.get (entry 0) ≠ 0 := by
  have bits : ∀ number < 32, 1 ≤ number → ∀ last : Bool,
      sequence.get (BitVec.ofNat 8 (number + if last then 64 else 0)) ≠ 0 := by decide
  rw [stored.first]
  exact bits number small positive last

/-- An entry of zeros that is filled in. -/
theorem stored_fillIn (small : number < 32) (checksum : Byte) : Stored (setBits lastLogical 1 (setBits sequence number
    (setByte attributesOffset 0x0F#8 (setByte checksumOffset checksum zeroEntry)))) number true checksum [] := by
  have bits : ∀ number < 32, lastLogical.set 1 (sequence.set number 0#8) = BitVec.ofNat 8 (number + 64) := by decide
  refine ⟨bits number small, rfl, rfl, rfl, ⟨rfl, rfl⟩, ?_⟩
  intro ei inside
  rw [setBits, character_setByte inside (.inl rfl), setBits, character_setByte inside (.inl rfl),
    character_setByte inside (.inr (.inl (by decide))), character_setByte inside (.inr (.inl (by decide)))]
  rfl

/-- The mark is taken back. -/
theorem Stored.unmark (stored : Stored entry number true checksum chars) (small : number < 32) :
    Stored (setBits lastLogical 0 entry) number false checksum chars := by
  have bits : ∀ number < 32, lastLogical.set 0 (BitVec.ofNat 8 (number + 64)) = BitVec.ofNat 8 number := by decide
  have elsewhere (offset : Nat) (behind : offset ≠ 0) : setBits lastLogical 0 entry offset = entry offset :=
    update_of_ne behind ..
  refine ⟨?_, ?_, ?_, ?_, ?_, ?_⟩
  · have marked : entry 0 = BitVec.ofNat 8 (number + 64) := stored.first
    rw [setBits, marked]
    exact bits number small
  · exact (elsewhere _ (by decide)).trans stored.attributes
  · exact (elsewhere _ (by decide)).trans stored.type
  · exact (elsewhere _ (by decide)).trans stored.checksum
  · exact ⟨(elsewhere _ (by decide)).trans stored.cluster.1, (elsewhere _ (by decide)).trans stored.cluster.2⟩
  · intro ei inside
    rw [setBits, character_setByte inside (.inl rfl)]
    exact stored.chars ei inside

/-- A character behind those that are there. -/
theorem Stored.put (stored : Stored entry number last checksum chars) (room : chars.length < 13) {c : Nat} (small : c < 2 ^ 16) :
    Stored (setCharacter chars.length c entry) number last checksum (chars ++ [c]) := by
  have elsewhere (offset : Nat) (outside : Outside offset) : setCharacter chars.length c entry offset = entry offset :=
    setCharacter_outside room outside
  refine ⟨?_, ?_, ?_, ?_, ⟨?_, ?_⟩, ?_⟩
  · exact (elsewhere 0 (.inl rfl)).trans stored.first
  · exact (elsewhere _ (.inr (.inl (by decide)))).trans stored.attributes
  · exact (elsewhere _ (.inr (.inl (by decide)))).trans stored.type
  · exact (elsewhere _ (.inr (.inl (by decide)))).trans stored.checksum
  · exact (elsewhere _ (.inr (.inr (by decide)))).trans stored.cluster.1
  · exact (elsewhere _ (.inr (.inr (by decide)))).trans stored.cluster.2
  · intro ei inside
    by_cases here : ei = chars.length
    · rw [here, character_setCharacter_self small]
      simp
    · rw [character_setCharacter_other room inside here, stored.chars ei inside]
      rcases lt_or_ge ei chars.length with before | behind
      · rw [getD_append _ _ _ _ before]
      · rw [getD_eq_default _ _ behind, getD_eq_default _ _ (by rw [length_append, length_singleton]; omega)]

end

section

variable {done : List Nat} {cursor after : Cursor} {full : Nat} {start : Nat → DirectoryEntry}

/-- The characters with a number, of those that are written. -/
def chunk (done : List Nat) (number : Nat) : List Nat := (done.drop (13 * number)).take 13

/-- Where the loop is behind some characters: a number of entries are full, and those in front of the one that is
written are still zero. -/
structure Written (start : Nat → DirectoryEntry) (count : Nat) (done : List Nat) (full : Nat) (cursor : Cursor) : Prop where
  position : cursor.entry + full + 1 = count
  length : done.length = 13 * full + cursor.ei
  room : cursor.ei ≤ 13
  filled : ∀ number < full, Stored (cursor.dest (count - 1 - number)) (number + 1) false (lfnChecksum (start count))
    (chunk done number)
  fresh : cursor.ei = 0 → cursor.dest cursor.entry = zeroEntry
  here : cursor.ei ≠ 0 → Stored (cursor.dest cursor.entry) (full + 1) true (lfnChecksum (start count)) (done.drop (13 * full))
  front : ∀ index < cursor.entry, cursor.dest index = zeroEntry
  behind : ∀ index, count ≤ index → cursor.dest index = start index

theorem modify_here (cursor : Cursor) (change : DirectoryEntry → DirectoryEntry) :
    (cursor.modify change).dest cursor.entry = change (cursor.dest cursor.entry) := update_self ..

theorem modify_elsewhere (cursor : Cursor) (change : DirectoryEntry → DirectoryEntry) {index : Nat}
    (different : index ≠ cursor.entry) : (cursor.modify change).dest index = cursor.dest index :=
  update_of_ne different ..

/-- A full entry does not change with what is written behind it. -/
theorem chunk_append {number : Nat} (inside : 13 * (number + 1) ≤ done.length) (rest : List Nat) :
    chunk (done ++ rest) number = chunk done number := by
  have before : 13 * number ≤ done.length := by omega
  have enough : 13 ≤ (done.drop (13 * number)).length := by
    rw [length_drop]
    omega
  rw [chunk, chunk, drop_append_of_le_length before, take_append_of_le_length enough]

/-- The entry in front of a full one is begun. -/
theorem Written.goOn (written : Written start count done full cursor) (small : count < 32)
    (more : done.length < 13 * count) :
    ∃ cursor', goOn cursor = some cursor' ∧ cursor'.ei < 13 ∧ ∃ full, Written start count done full cursor' := by
  have position := written.position
  have length := written.length
  have room := written.room
  by_cases fullHere : 13 ≤ cursor.ei
  · have notFirst : cursor.entry ≠ 0 := by
      omega
    have stored := written.here (by omega)
    refine ⟨{ cursor.modify (setBits lastLogical 0) with entry := cursor.entry - 1, ei := 0 }, ?_,
      Nat.zero_lt_succ _, full + 1, ?_⟩
    · rw [LongNames.goOn, if_pos fullHere, if_neg notFirst]
    · have elsewhere (index : Nat) (different : index ≠ cursor.entry) :
          (cursor.modify (setBits lastLogical 0)).dest index = cursor.dest index := modify_elsewhere cursor _ different
      refine ⟨?_, ?_, Nat.zero_le _, ?_, ?_, ?_, ?_, ?_⟩
      · dsimp only
        omega
      · dsimp only
        omega
      · intro number before
        rcases Nat.lt_or_eq_of_le (Nat.le_of_lt_succ before) with less | rfl
        · rw [elsewhere _ (by omega)]
          exact written.filled number less
        · have here : count - 1 - number = cursor.entry := by omega
          have whole : chunk done number = done.drop (13 * number) := by
            rw [chunk, take_of_length_le]
            rw [length_drop]
            omega
          rw [here, whole]
          rw [modify_here]
          exact stored.unmark (by omega)
      · intro _
        dsimp only
        rw [elsewhere _ (by omega)]
        exact written.front _ (by omega)
      · exact fun started => absurd rfl started
      · intro index before
        dsimp only at before ⊢
        rw [elsewhere _ (by omega)]
        exact written.front index (by omega)
      · intro index behind
        rw [elsewhere _ (by omega)]
        exact written.behind index behind
  · exact ⟨cursor, if_neg fullHere, by omega, full, written⟩

/-- The entry that is written has its number. -/
theorem Written.fillIn (written : Written start count done full cursor) (small : count < 32) :
    ∃ filled, fillIn count cursor = filled ∧ filled.entry = cursor.entry ∧ filled.ei = cursor.ei ∧
    Stored (filled.dest filled.entry) (full + 1) true (lfnChecksum (start count)) (done.drop (13 * full)) ∧
    ∀ index, index ≠ cursor.entry → filled.dest index = cursor.dest index := by
  have position := written.position
  have length := written.length
  by_cases begun : cursor.ei = 0
  · have zero := written.fresh begun
    have unnumbered : sequence.get (cursor.dest cursor.entry 0) = 0 := by
      rw [zero]
      decide
    have number : count - cursor.entry = full + 1 := by omega
    have none : done.drop (13 * full) = [] := drop_eq_nil_of_le (by omega)
    have same := written.behind count (le_refl _)
    refine ⟨_, if_pos unnumbered, rfl, rfl, ?_, fun _ different => modify_elsewhere cursor _ different⟩
    change Stored ((cursor.modify _).dest cursor.entry) _ _ _ _
    rw [modify_here, zero, number, none, same]
    exact stored_fillIn (by omega) _
  · have stored := written.here begun
    have numbered := stored.numbered (by omega) (by omega)
    exact ⟨cursor, if_neg numbered, rfl, rfl, stored, fun _ _ => rfl⟩

theorem wide_lt (c : Byte) : wide c < 2 ^ 16 := (c.signExtend 16).isLt

/-- One character more. -/
theorem Written.put (written : Written start count done full cursor) (small : count < 32) (room : cursor.ei < 13) (c : Byte) :
    Written start count (done ++ [wide c]) full (putCharacter c (LongNames.fillIn count cursor)) := by
  have position := written.position
  have length := written.length
  obtain ⟨filled, same, entry, ei, stored, elsewhere⟩ := written.fillIn small
  have chars : (done.drop (13 * full)).length = filled.ei := by
    rw [length_drop]
    omega
  have other (index : Nat) (different : index ≠ cursor.entry) :
      (putCharacter c filled).dest index = cursor.dest index := by
    rw [← elsewhere index different]
    exact modify_elsewhere filled _ (entry ▸ different)
  rw [same]
  refine ⟨?_, ?_, ?_, ?_, ?_, ?_, ?_, ?_⟩
  · change filled.entry + full + 1 = count
    omega
  · change (done ++ [wide c]).length = 13 * full + (filled.ei + 1)
    rw [length_append, length_singleton]
    omega
  · change filled.ei + 1 ≤ 13
    omega
  · intro number before
    rw [other _ (by omega), chunk_append (by omega)]
    exact written.filled number before
  · exact fun zero => absurd zero (Nat.succ_ne_zero _)
  · intro _
    have put := stored.put (by omega) (wide_lt c)
    rw [chars] at put
    rw [drop_append_of_le_length (by omega)]
    change Stored ((filled.modify (setCharacter filled.ei (wide c))).dest filled.entry) _ _ _ _
    rw [modify_here]
    exact put
  · intro index before
    change index < filled.entry at before
    rw [other _ (by omega)]
    exact written.front index (by omega)
  · intro index behind
    rw [other _ (by omega)]
    exact written.behind index behind

/-- All characters of a rest that fits. -/
theorem written_loop (small : count < 32) (rest : List Byte) (written : Written start count done full cursor)
    (fits : done.length + rest.length ≤ 13 * count) :
    ∃ after full, makeLfnLoop count rest cursor = some after ∧ Written start count (done ++ rest.map wide) full after := by
  induction rest generalizing done full cursor with
  | nil =>
    refine ⟨cursor, full, rfl, ?_⟩
    rw [map_nil, append_nil]
    exact written
  | cons c others ih =>
    rw [length_cons] at fits
    obtain ⟨next, went, room, full, there⟩ := written.goOn small (by omega)
    obtain ⟨after, last, looped, written⟩ := ih (there.put small room c) (by
      rw [length_append, length_singleton]
      omega)
    refine ⟨after, last, ?_, ?_⟩
    · rw [makeLfnLoop, went]
      exact looped
    · rw [map_cons, append_cons]
      exact written

end

theorem fillIn_position (maxEntries : Nat) (cursor : Cursor) :
    (fillIn maxEntries cursor).entry = cursor.entry ∧ (fillIn maxEntries cursor).ei = cursor.ei := by
  rw [fillIn]
  split <;> exact ⟨rfl, rfl⟩

theorem fillIn_elsewhere (maxEntries : Nat) (cursor : Cursor) {index : Nat} (different : index ≠ cursor.entry) :
    (fillIn maxEntries cursor).dest index = cursor.dest index := by
  rw [fillIn]
  split
  · exact modify_elsewhere cursor _ different
  · rfl

/-- A rest that fits is written, whatever is in the entries, and the entry of the short name and what is behind it are
unchanged. -/
theorem makeLfnLoop_behind (rest : List Byte) (cursor : Cursor) (inside : cursor.entry < count) (room : cursor.ei ≤ 13)
    (fits : cursor.ei + rest.length ≤ 13 * (cursor.entry + 1)) :
    ∃ after, makeLfnLoop count rest cursor = some after ∧ ∀ index, count ≤ index → after.dest index = cursor.dest index := by
  induction rest generalizing cursor with
  | nil => exact ⟨cursor, rfl, fun _ _ => rfl⟩
  | cons c others ih =>
    rw [length_cons] at fits
    have went : ∃ next, goOn cursor = some next ∧ next.entry < count ∧ next.ei < 13 ∧
        next.ei + (others.length + 1) ≤ 13 * (next.entry + 1) ∧ ∀ index, count ≤ index → next.dest index = cursor.dest index := by
      by_cases full : 13 ≤ cursor.ei
      · have notFirst : cursor.entry ≠ 0 := by
          omega
        refine ⟨_, (if_pos full).trans (if_neg notFirst), ?_, Nat.zero_lt_succ _, ?_, ?_⟩
        · dsimp only
          omega
        · dsimp only
          omega
        · exact fun index behind => modify_elsewhere cursor _ (by omega)
      · exact ⟨cursor, if_neg full, inside, by omega, fits, fun _ _ => rfl⟩
    obtain ⟨next, went, inside, room, fits, same⟩ := went
    obtain ⟨entry, ei⟩ := fillIn_position count next
    obtain ⟨after, looped, behind⟩ := ih (putCharacter c (fillIn count next))
      (by change (fillIn count next).entry < count; omega)
      (by change (fillIn count next).ei + 1 ≤ 13; omega)
      (by change (fillIn count next).ei + 1 + others.length ≤ 13 * ((fillIn count next).entry + 1); omega)
    refine ⟨after, ?_, ?_⟩
    · rw [makeLfnLoop, went]
      exact looped
    · intro index there
      rw [behind index there]
      refine (modify_elsewhere _ _ (by omega)).trans ?_
      rw [fillIn_elsewhere count next (by omega), same index there]

/-- A long name is always written, and nothing behind its entries changes. -/
theorem makeLfn_behind (name : List Byte) (dest : Nat → DirectoryEntry) : ∃ after,
    makeLfn name dest (lfnEntries name) = some after ∧ ∀ index, lfnEntries name ≤ index → after index = dest index := by
  rw [makeLfn, if_neg (not_not.mpr rfl)]
  cases name with
  | nil => exact ⟨dest, rfl, fun _ _ => rfl⟩
  | cons c rest =>
    have positive : 0 < lfnEntries (c :: rest) := by
      rw [lfnEntries, length_cons]
      omega
    have enough : (c :: rest).length ≤ 13 * lfnEntries (c :: rest) := by
      rw [lfnEntries]
      omega
    obtain ⟨after, looped, behind⟩ := makeLfnLoop_behind (c :: rest)
      ⟨dest, lfnEntries (c :: rest) - 1, 0⟩ (Nat.sub_lt positive Nat.one_pos) (Nat.zero_le _) (by dsimp only; omega)
    exact ⟨after.dest, by rw [looped, map_some], behind⟩

section

variable {dest : Nat → DirectoryEntry}

/-- The characters in front of the first zero are those that were written. -/
theorem takeWhile_chars (short : chars.length ≤ 13) (nonzero : ∀ c ∈ chars, c ≠ 0)
    (stored : ∀ ei < 13, character entry ei = chars.getD ei 0) :
    ((range 13).map (character entry)).takeWhile (fun c => decide (c ≠ 0)) = chars := by
  have same : (range 13).map (character entry) = chars ++ replicate (13 - chars.length) 0 := by
    apply ext_getElem
    · simp only [length_map, length_range, length_append, length_replicate]
      omega
    · intro ei inside _
      rw [getElem_map, getElem_range, stored ei inside]
      rcases lt_or_ge ei chars.length with before | behind
      · rw [getElem_append_left before, getD_eq_getElem _ _ before]
      · rw [getElem_append_right behind, getElem_replicate, getD_eq_default _ _ behind]
  rw [same, takeWhile_append_of_pos]
  · cases 13 - chars.length with
    | zero => simp
    | succ rest => simp [replicate_succ]
  · exact fun c member => decide_eq_true (nonzero c member)

/-- The code and the rules compute the same checksum. -/
theorem lfnChecksum_eq (entry : DirectoryEntry) : lfnChecksum entry = vfatChecksum (filename entry) := by
  have rotate : ∀ ret : Byte, ((ret &&& 1#8) <<< 7) + (ret >>> 1) = ret.rotateRight 1 := by decide
  rw [lfnChecksum]
  congr 1
  funext ret c
  rw [rotate]

theorem decodeEntry_stored {last : Bool} {checksum : Byte} (stored : Stored entry number last checksum chars)
    (marked : last = decide (number = count)) (short : chars.length ≤ 13) (nonzero : ∀ c ∈ chars, c ≠ 0) :
    decodeEntry count number checksum entry = some chars := by
  have first : entry 0 = BitVec.ofNat 8 (number + if number = count then 64 else 0) := by
    rw [stored.first, marked]
    simp only [decide_eq_true_eq]
  rw [decodeEntry, if_pos ⟨first, stored.attributes, stored.type, stored.checksum, stored.cluster⟩,
    takeWhile_chars short nonzero stored.chars]

/-- The entries from the short name on hold the name, 13 characters at a time. -/
theorem decodeFirst_chunks (name : List Nat) (nonzero : ∀ c ∈ name, c ≠ 0)
    (stored : ∀ number < count, Stored (dest (count - 1 - number)) (number + 1) (decide (number + 1 = count))
    (vfatChecksum (filename (dest count))) (chunk name number)) (inside : number ≤ count) :
    decodeFirst dest count number = some (name.take (13 * number)) := by
  induction number with
  | zero => rfl
  | succ number ih =>
    have here : decodeEntry count (number + 1) (vfatChecksum (filename (dest count))) (dest (count - 1 - number)) =
        some (chunk name number) := by
      apply decodeEntry_stored (stored number inside) rfl
      · exact length_take_le ..
      · exact fun c member => nonzero c (mem_of_mem_drop (mem_of_mem_take member))
    rw [decodeFirst, ih (Nat.le_of_succ_le inside), here]
    simp only [bind_eq_bind, bind_some]
    rw [chunk, ← take_add]
    congr 2

/-- The characters of the usual alphabet are not extended. -/
theorem wide_ascii {c : Byte} (ascii : c.toNat < 128) : wide c = c.toNat := by
  have all : ∀ c : Byte, c.toNat < 128 → (c.signExtend 16).toNat = c.toNat := by decide
  exact all c ascii

/-- For every name of 1 to 255 characters and every entry of a short name behind entries of zeros: the long name is
written, the entry of the short name and what is behind it are unchanged, and the name is what is read. -/
theorem names_round_trip {name : List Byte} (ascii : ∀ c ∈ name, 0 < c.toNat ∧ c.toNat < 128) (nonempty : 1 ≤ name.length)
    (short : name.length ≤ 255) (start : Nat → DirectoryEntry) (zeroed : ∀ index < lfnEntries name, start index = zeroEntry) :
    ∃ dest, makeLfn name start (lfnEntries name) = some dest ∧ (∀ index, lfnEntries name ≤ index → dest index = start index) ∧
      decode dest (lfnEntries name) = some (name.map BitVec.toNat) := by
  obtain ⟨count, counted⟩ := @exists_eq _ (lfnEntries name)
  have number := counted
  rw [lfnEntries] at number
  rw [← counted] at zeroed ⊢
  have first : Written start count [] 0 ⟨start, count - 1, 0⟩ := by
    refine ⟨by dsimp only; omega, rfl, Nat.zero_le _, ?_, ?_, ?_, ?_, ?_⟩
    · exact fun _ before => absurd before (Nat.not_lt_zero _)
    · exact fun _ => zeroed _ (by dsimp only; omega)
    · exact fun begun => absurd rfl begun
    · exact fun index before => zeroed index (by dsimp only at before; omega)
    · exact fun _ _ => rfl
  obtain ⟨after, full, looped, written⟩ := written_loop (by omega) name first (by rw [length_nil]; omega)
  rw [nil_append] at written
  have position := written.position
  have length := written.length
  have room := written.room
  rw [length_map] at length
  have plain : name.map wide = name.map BitVec.toNat := map_congr_left (fun c member => wide_ascii (ascii c member).2)
  have last : full + 1 = count := by omega
  have same : after.dest count = start count := written.behind count (Nat.le_refl _)
  refine ⟨after.dest, ?_, written.behind, ?_⟩
  · rw [makeLfn, if_neg (not_not.mpr counted.symm), looped, map_some]
  · rw [decode, decodeFirst_chunks (name.map wide) _ _ (Nat.le_refl _)]
    · rw [plain, take_of_length_le]
      rw [length_map]
      omega
    · intro c member
      rw [plain] at member
      obtain ⟨byte, inName, rfl⟩ := mem_map.mp member
      exact Nat.ne_of_gt (ascii byte inName).1
    · intro number before
      rw [same, ← lfnChecksum_eq]
      rcases Nat.lt_or_eq_of_le (Nat.le_of_lt_succ (last ▸ before)) with less | rfl
      · rw [decide_eq_false (by omega)]
        exact written.filled number less
      · have here : count - 1 - number = after.entry := by omega
        have whole : chunk (name.map wide) number = (name.map wide).drop (13 * number) := by
          rw [chunk, take_of_length_le]
          rw [length_drop, length_map]
          omega
        rw [decide_eq_true last, here, whole]
        exact written.here (by omega)

/-- A name of 14 characters takes two entries. -/
theorem names_round_trip_two_entries : ∃ dest, makeLfn (replicate 14 0x61#8) (fun _ => zeroEntry) 2 = some dest ∧
    decode dest 2 = some (replicate 14 0x61) := by
  obtain ⟨dest, written, _, read⟩ := names_round_trip (show ∀ c ∈ replicate 14 0x61#8, 0 < c.toNat ∧ c.toNat < 128 by decide)
    (by decide) (by decide) (fun _ => zeroEntry) (fun _ _ => rfl)
  exact ⟨dest, written, read⟩

end

end Lfos.LongNames
