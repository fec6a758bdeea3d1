import Lfos.MemoryMoves

/-!
# A growable array as a list

The members of an array are a list of byte strings of one length. Appending, replacing,
reading and searching do to the list what their names say, as long as the sizes of the
buffers are words. Removing does so for the last member only: any other removal moves bytes
downwards, which never ends, and prepending moves bytes downwards or copies beyond the end
of the full buffer.
-/

namespace Lfos.FlexArrays

open ByteLists Ledgers Results Transitions Words List Option

section

variable {size : Nat}

/-- Members of one size fill as many bytes as they are. -/
theorem flatten_length {elements : List (List UInt8)} (sized : ∀ element ∈ elements, element.length = size) :
    elements.flatten.length = elements.length * size := by
  induction elements with
  | nil => simp
  | cons element rest ih =>
    have first : element.length = size := sized element mem_cons_self
    have others := ih (forall_mem_cons.mp sized).2
    rw [flatten_cons, length_append, first, others, length_cons, add_mul, one_mul, add_comm]

theorem blockBytes_length (block : Block) (size : Nat) : (block.bytes size).length = size := by
  simp [Block.bytes]

theorem slice_whole (bytes : List UInt8) {size : Nat} (same : bytes.length = size) :
    slice bytes 0 size = some bytes := by
  have whole := slice_append [] bytes (le_of_eq same.symm)
  rw [take_of_length_le (le_of_eq same)] at whole
  exact whole

end

variable {array after : FlexArray} {data : List UInt8} {idx : Nat}

/-- The bytes of one member are replaced. -/
theorem put_ok {front old behind : List UInt8} (bytes : array.bytes = front ++ (old ++ behind))
    (position : array.position idx = front.length) (oldSize : old.length = array.memberSize)
    (size : data.length = array.memberSize) :
    array.put idx data = .ok { array with bytes := front ++ (data ++ behind) } := by
  have written := overwrite_append front (old ++ behind) data (by rw [length_append]; omega)
  rw [← bytes, ← position, size, ← oldSize, drop_left, append_assoc] at written
  rw [FlexArray.put, slice_whole data size]
  simp only [copied, bind, Except.bind, written]

/-- The array holds a list of members. -/
structure Represents (array : FlexArray) (elements : List (List UInt8)) : Prop where
  positive : 0 < array.memberSize
  roomy : 0 < array.alloc
  small : array.alloc * array.memberSize < 2 ^ 64
  length : array.bytes.length = array.alloc * array.memberSize
  count : array.count = elements.length
  fits : elements.length ≤ array.alloc
  sized : ∀ element ∈ elements, element.length = array.memberSize
  stored : ∃ rest, array.bytes = elements.flatten ++ rest

variable {elements : List (List UInt8)}

section

variable (represents : Represents array elements)
include represents

/-- Members lie inside the buffer, at positions that are words. -/
theorem Represents.inside (within : idx < array.alloc) :
    array.position idx = idx * array.memberSize ∧ idx * array.memberSize + array.memberSize ≤ array.bytes.length := by
  have small := represents.small
  have next : (idx + 1) * array.memberSize ≤ array.alloc * array.memberSize := Nat.mul_le_mul_right _ within
  rw [add_mul, one_mul] at next
  constructor
  · exact u64_of_lt (by omega)
  · rw [represents.length]
    exact next

theorem Represents.size : u64 (array.alloc * array.memberSize) = array.alloc * array.memberSize := u64_of_lt represents.small

theorem Represents.alloc_lt : array.alloc < 2 ^ 64 :=
  lt_of_le_of_lt (Nat.le_mul_of_pos_right _ represents.positive) represents.small

/-- The buffer around a member. -/
theorem Represents.around (within : idx < elements.length) : array.position idx = (elements.take idx).flatten.length ∧
    ∃ rest, array.bytes = (elements.take idx).flatten ++ (elements[idx] ++ ((elements.drop (idx + 1)).flatten ++ rest)) := by
  obtain ⟨rest, bytes⟩ := represents.stored
  have sized : ∀ member ∈ elements.take idx, member.length = array.memberSize :=
    fun member isMember => represents.sized member (mem_of_mem_take isMember)
  have whole : elements.flatten = (elements.take idx).flatten ++ (elements[idx] ++ (elements.drop (idx + 1)).flatten) := by
    rw [← flatten_cons, getElem_cons_drop, ← flatten_append, take_append_drop]
  constructor
  · rw [(represents.inside (lt_of_lt_of_le within represents.fits)).1, flatten_length sized, length_take_of_le (le_of_lt within)]
  · exact ⟨rest, by rw [bytes, whole, append_assoc, append_assoc]⟩

/-- A member is read from its position. -/
theorem Represents.read {element : List UInt8} (found : elements[idx]? = some element) :
    slice array.bytes (array.position idx) array.memberSize = some element := by
  obtain ⟨within, rfl⟩ := List.getElem?_eq_some_iff.mp found
  obtain ⟨position, rest, bytes⟩ := represents.around within
  have size : elements[idx].length = array.memberSize := represents.sized _ (getElem_mem within)
  rw [position, bytes, slice_append _ _ (by rw [length_append]; omega), ← size, take_left]

/-- A member that is replaced. -/
theorem Represents.put (within : idx < elements.length) (size : data.length = array.memberSize) :
    ∃ after, array.put idx data = .ok after ∧ Represents after (elements.set idx data) ∧ after.memberSize = array.memberSize := by
  have old : elements[idx].length = array.memberSize := represents.sized _ (getElem_mem within)
  obtain ⟨position, rest, bytes⟩ := represents.around within
  refine ⟨_, put_ok bytes position old size, ?_, rfl⟩
  refine { represents with length := ?_, count := ?_, fits := ?_, sized := ?_, stored := ⟨rest, ?_⟩ }
  · rw [← represents.length, bytes]
    simp only [length_append]
    omega
  · rw [length_set]
    exact represents.count
  · rw [length_set]
    exact represents.fits
  · intro element member
    rcases mem_or_eq_of_mem_set member with earlier | rfl
    · exact represents.sized element earlier
    · exact size
  · rw [set_eq_take_append_cons_drop, if_pos within, flatten_append, flatten_cons, append_assoc, append_assoc]

/-- A member behind the others. -/
theorem Represents.put_last (room : elements.length < array.alloc) (size : data.length = array.memberSize) :
    ∃ bytes, array.put array.count data = .ok { array with bytes := bytes } ∧
    Represents { array with bytes := bytes, count := u64 (array.count + 1) } (elements ++ [data]) := by
  obtain ⟨rest, bytes⟩ := represents.stored
  obtain ⟨position, inside⟩ := represents.inside room
  have front : elements.flatten.length = elements.length * array.memberSize := flatten_length represents.sized
  have length := represents.length
  have words := represents.alloc_lt
  have enough : array.memberSize ≤ rest.length := by
    rw [bytes, length_append] at inside
    omega
  have split : array.bytes = elements.flatten ++ (rest.take array.memberSize ++ rest.drop array.memberSize) := by
    rw [take_append_drop, bytes]
  refine ⟨_, put_ok split (by rw [represents.count, position, front]) (length_take_of_le enough) size, ?_⟩
  refine { represents with length := ?_, count := ?_, fits := ?_, sized := ?_, stored := ?_ }
  · rw [← length, bytes]
    simp only [length_append, length_drop]
    omega
  · dsimp only
    rw [represents.count, length_append, length_singleton]
    exact u64_of_lt (by omega)
  · rw [length_append]
    exact room
  · exact forall_mem_append.mpr ⟨represents.sized, forall_mem_singleton.mpr size⟩
  · refine ⟨rest.drop array.memberSize, ?_⟩
    rw [flatten_append, flatten_singleton, append_assoc]

end

/-- The members a full array gets room for. -/
def FlexArray.grownAlloc (array : FlexArray) : Nat :=
  array.alloc + if array.alloc >>> 4 = 0 then 1 else array.alloc >>> 4

theorem grownAlloc_bounds (roomy : 0 < array.alloc) :
    array.alloc < array.grownAlloc ∧ array.grownAlloc ≤ array.alloc + array.alloc := by
  rw [FlexArray.grownAlloc]
  split <;> omega

/-- A full array moves to a larger buffer if there is one. -/
theorem Represents.grow (represents : Represents array elements)
    (enough : array.grownAlloc * array.memberSize < 2 ^ 64) (block : Block) : ∃ after, flexarrayGrow array 0 block =
    .ok (after, [.alloc block.address (array.grownAlloc * array.memberSize), .dealloc array.data]) ∧
    Represents after elements ∧ elements.length < after.alloc ∧ after.memberSize = array.memberSize := by
  obtain ⟨rest, bytes⟩ := represents.stored
  obtain ⟨more, _⟩ := grownAlloc_bounds represents.roomy
  have larger : array.alloc * array.memberSize ≤ array.grownAlloc * array.memberSize :=
    Nat.mul_le_mul_right _ (le_of_lt more)
  have word : array.grownAlloc < 2 ^ 64 := lt_of_le_of_lt (Nat.le_mul_of_pos_right _ represents.positive) enough
  have fits := represents.fits
  have room : array.bytes.length ≤ (block.bytes (array.grownAlloc * array.memberSize)).length := by
    rw [blockBytes_length, represents.length]
    exact larger
  have written := overwrite_append [] (block.bytes (array.grownAlloc * array.memberSize)) array.bytes room
  rw [nil_append, nil_append, length_nil] at written
  have old := slice_whole array.bytes represents.length
  refine ⟨{ array with alloc := array.grownAlloc, data := block.address, bytes := array.bytes ++
    (block.bytes (array.grownAlloc * array.memberSize)).drop array.bytes.length }, ?_, ?_, ?_, rfl⟩
  · have newAlloc : u64 (array.alloc + if array.alloc >>> 4 = 0 then 1 else array.alloc >>> 4) = array.grownAlloc :=
      u64_of_lt word
    have newSize : u64 (array.grownAlloc * array.memberSize) = array.grownAlloc * array.memberSize := u64_of_lt enough
    have start : u64 (0 * array.memberSize) = 0 := by rw [zero_mul, u64_of_lt (by decide)]
    simp only [flexarrayGrow, represents.size, newAlloc, newSize, start, old, copied, bind, Except.bind, written]
  · refine { represents with
      roomy := lt_of_lt_of_le represents.roomy (le_of_lt more), small := enough, length := ?_,
      fits := le_trans fits (le_of_lt more), stored := ?_ }
    · dsimp only
      rw [length_append, length_drop, blockBytes_length]
      rw [blockBytes_length] at room
      omega
    · refine ⟨rest ++ (block.bytes (array.grownAlloc * array.memberSize)).drop array.bytes.length, ?_⟩
      rw [← append_assoc, ← bytes]
  · exact lt_of_le_of_lt fits more

/-- If the size of the larger buffer is no word, the old contents do not fit. -/
theorem Represents.grow_fails (represents : Represents array elements)
    (exceeds : 2 ^ 64 ≤ array.grownAlloc * array.memberSize) (block : Block) :
    flexarrayGrow array 0 block = .error .outside := by
  obtain ⟨_, most⟩ := grownAlloc_bounds represents.roomy
  have small := represents.small
  have double : array.grownAlloc * array.memberSize ≤ array.alloc * array.memberSize + array.alloc * array.memberSize := by
    rw [← add_mul]
    exact Nat.mul_le_mul_right _ most
  have newSize : u64 (u64 (array.alloc + if array.alloc >>> 4 = 0 then 1 else array.alloc >>> 4) * array.memberSize) =
      array.grownAlloc * array.memberSize - 2 ^ 64 := by
    rw [u64, u64, Nat.mod_mul_mod]
    change array.grownAlloc * array.memberSize % 2 ^ 64 = _
    rw [Nat.mod_eq_sub_mod exceeds, Nat.mod_eq_of_lt (by omega)]
  have start : u64 (0 * array.memberSize) = 0 := by rw [zero_mul, u64_of_lt (by decide)]
  have none : overwrite (block.bytes (array.grownAlloc * array.memberSize - 2 ^ 64)) 0 array.bytes = none := by
    apply if_neg
    rw [blockBytes_length, represents.length]
    omega
  simp only [flexarrayGrow, represents.size, newSize, start, slice_whole array.bytes represents.length, copied, bind,
    Except.bind, none]

section

inductive Op where
  | append (data : List UInt8)
  | prepend (data : List UInt8)
  | remove (idx : Nat)
  | set (buffer : List UInt8) (idx : Nat)
  | get (buffer : List UInt8) (idx : Nat)
  | find (data : List UInt8)

inductive Output where
  | done
  | index (idx : Nat)
  | buffer (bytes : List UInt8)
deriving DecidableEq

/-- The caller passes members of the array's size and an index that is a word. -/
def Op.Sized (memberSize : Nat) : Op → Prop
  | .append data | .prepend data | .find data => data.length = memberSize
  | .remove idx => idx < 2 ^ 64
  | .set buffer idx | .get buffer idx => buffer.length = memberSize ∧ idx < 2 ^ 64

/-- The operations on a list of members. -/
def Op.onList (elements : List (List UInt8)) : Op → Output × List (List UInt8)
  | .append data => (.index elements.length, elements ++ [data])
  | .prepend data => (.done, data :: elements)
  | .remove idx => (.done, elements.eraseIdx idx)
  | .set buffer idx => (.done, elements.set idx buffer)
  | .get buffer idx => (.buffer ((elements[idx]?).getD buffer), elements)
  | .find data => (.index ((elements.idxOf? data).getD notFound), elements)

/-- An operation on an array. `block` is what the allocator returns. -/
def Op.perform (rounds : Nat) (block : Block) (array : FlexArray) : Op → Except Fault (Output × FlexArray)
  | .append data => (flexarrayAppend array data block).map (fun (idx, after, _) => (.index idx, after))
  | .prepend data => (flexarrayPrepend rounds array data block).map (fun (after, _) => (.done, after))
  | .remove idx => (flexarrayRemove rounds array idx).map (fun after => (.done, after))
  | .set buffer idx => (flexarraySet array buffer idx).map (fun after => (.done, after))
  | .get buffer idx => (flexarrayGet array buffer idx).map (fun bytes => (.buffer bytes, array))
  | .find data => (flexarrayFind array data).map (fun idx => (.index idx, array))

/-- Nothing is prepended, only the last member is removed, and a full array grows to a
buffer whose size is a word. -/
def Sound (array : FlexArray) : Op → Prop
  | .append _ => array.count < array.alloc ∨ array.grownAlloc * array.memberSize < 2 ^ 64
  | .prepend _ => False
  | .remove idx => array.count ≤ idx + 1
  | _ => True

/-- The operation returns what it returns on the list, and the list is held afterwards. -/
def Refines (block : Block) (array : FlexArray) (elements : List (List UInt8)) (op : Op) : Prop :=
  ∃ rounds after, op.perform rounds block array = .ok ((op.onList elements).1, after) ∧
    Represents after (op.onList elements).2 ∧ after.memberSize = array.memberSize

theorem Represents.count_lt (represents : Represents array elements) : array.count < 2 ^ 64 := by
  rw [represents.count]
  exact lt_of_le_of_lt represents.fits represents.alloc_lt

/-- What is appended to an array with room is behind the others. -/
theorem append_roomy {roomy : FlexArray} {calls : List Call} {block : Block} (represents : Represents roomy elements)
    (room : elements.length < roomy.alloc) (size : data.length = roomy.memberSize)
    (made : array.roomBehind block = .ok (roomy, calls)) :
    ∃ after, flexarrayAppend array data block = .ok (elements.length, after, calls) ∧
    Represents after (elements ++ [data]) ∧ after.memberSize = roomy.memberSize := by
  obtain ⟨bytes, put, holds⟩ := represents.put_last room size
  have word : elements.length + 1 < 2 ^ 64 := lt_of_le_of_lt room represents.alloc_lt
  have next : u64 (roomy.count + 1) = elements.length + 1 := by
    rw [represents.count, u64_of_lt word]
  have idx : u64Sub (elements.length + 1) 1 = elements.length := u64Sub_of_le (Nat.le_add_left 1 _) word
  refine ⟨_, ?_, holds, rfl⟩
  rw [flexarrayAppend, made]
  simp only [bind, Except.bind, put, next, idx]

variable (represents : Represents array elements)
include represents

theorem Represents.append (size : data.length = array.memberSize)
    (sound : array.count < array.alloc ∨ array.grownAlloc * array.memberSize < 2 ^ 64) (block : Block) :
    ∃ after calls, flexarrayAppend array data block = .ok (elements.length, after, calls) ∧
    Represents after (elements ++ [data]) ∧ after.memberSize = array.memberSize := by
  by_cases full : array.alloc ≤ array.count
  · have enough := sound.resolve_left (not_lt.mpr full)
    obtain ⟨grown, grew, holds, room, same⟩ := represents.grow enough block
    obtain ⟨after, appended, held, kept⟩ := append_roomy holds room (size.trans same.symm) ((if_pos full).trans grew)
    exact ⟨after, _, appended, held, kept.trans same⟩
  · have room : elements.length < array.alloc := represents.count ▸ Nat.lt_of_not_le full
    obtain ⟨after, appended, held, kept⟩ := append_roomy represents room size (if_neg full)
    exact ⟨after, _, appended, held, kept⟩

/-- Removing the last member shortens the list, and beyond it nothing is removed. -/
theorem Represents.remove (sound : array.count ≤ idx + 1)
    (rounds : Nat) : ∃ after, flexarrayRemove rounds array idx = .ok after ∧
    Represents after (elements.eraseIdx idx) ∧ after.memberSize = array.memberSize := by
  by_cases beyond : array.count ≤ idx
  · refine ⟨array, if_pos beyond, ?_, rfl⟩
    rw [eraseIdx_of_length_le (represents.count ▸ beyond)]
    exact represents
  · have last : array.count = idx + 1 := by omega
    have word := represents.count_lt
    have shorter : u64Sub array.count 1 = idx := by
      rw [u64Sub_of_le (by omega) word, last, Nat.add_sub_cancel]
    refine ⟨{ array with count := idx }, ?_, ?_, rfl⟩
    · rw [flexarrayRemove, if_neg beyond]
      rw [shorter]
      exact if_pos (le_refl idx)
    · have length : elements.length = idx + 1 := represents.count.symm.trans last
      have front : elements.eraseIdx idx = elements.take idx := by
        rw [eraseIdx_eq_take_drop_succ, drop_eq_nil_of_le (le_of_eq length), append_nil]
      have fits := represents.fits
      obtain ⟨rest, bytes⟩ := represents.stored
      rw [front]
      refine { represents with count := ?_, fits := ?_, sized := ?_, stored := ?_ }
      · rw [length_take]
        dsimp only
        omega
      · rw [length_take]
        dsimp only
        omega
      · intro element member
        exact represents.sized element (mem_of_mem_take member)
      · refine ⟨(elements.drop idx).flatten ++ rest, ?_⟩
        rw [← append_assoc, ← flatten_append, take_append_drop]
        exact bytes

/-- The search finds the first member from a position on that is the same. -/
theorem findFrom_eq (size : data.length = array.memberSize) (i rest : Nat) (counted : i + rest = elements.length) :
    findFrom array data i rest = .ok ((((elements.drop i).idxOf? data).map (i + ·)).getD notFound) := by
  induction rest generalizing i with
  | zero =>
    rw [drop_eq_nil_of_le (by omega)]
    rfl
  | succ rest ih =>
    have within : i < elements.length := by omega
    have read := represents.read (getElem?_eq_getElem within)
    have later := ih (i + 1) (by omega)
    rw [findFrom, read, slice_whole data size, drop_eq_getElem_cons within, idxOf?_cons]
    simp only [copied, bind, Except.bind, later, beq_iff_eq]
    split
    · rfl
    · cases (elements.drop (i + 1)).idxOf? data with
      | none => rfl
      | some found => exact congrArg Except.ok (by simp only [map_some, getD_some]; omega)

theorem Represents.find (size : data.length = array.memberSize) :
    flexarrayFind array data = .ok ((elements.idxOf? data).getD notFound) := by
  rw [flexarrayFind, findFrom_eq represents size 0 array.count (by rw [zero_add]; exact represents.count),
    drop_zero]
  cases elements.idxOf? data with
  | none => rfl
  | some found => simp

theorem Represents.get {buffer : List UInt8} (size : buffer.length = array.memberSize) (idx : Nat) :
    flexarrayGet array buffer idx = .ok ((elements[idx]?).getD buffer) := by
  by_cases beyond : array.count ≤ idx
  · rw [flexarrayGet, if_pos beyond, getElem?_eq_none (represents.count ▸ beyond)]
    rfl
  · have within : idx < elements.length := represents.count ▸ Nat.lt_of_not_le beyond
    have member : elements[idx].length = array.memberSize := represents.sized _ (getElem_mem within)
    have written := overwrite_append [] buffer elements[idx] (le_of_eq (member.trans size.symm))
    rw [nil_append, nil_append, length_nil, drop_eq_nil_of_le (by omega), append_nil] at written
    rw [flexarrayGet, if_neg beyond, represents.read (getElem?_eq_getElem within), getElem?_eq_getElem within]
    simp only [copied, bind, Except.bind, written, getD_some]

theorem Represents.set {buffer : List UInt8} (size : buffer.length = array.memberSize) (idx : Nat) :
    ∃ after, flexarraySet array buffer idx = .ok after ∧ Represents after (elements.set idx buffer) ∧
    after.memberSize = array.memberSize := by
  by_cases beyond : array.count ≤ idx
  · refine ⟨array, if_pos beyond, ?_, rfl⟩
    rw [set_eq_of_length_le (represents.count ▸ beyond)]
    exact represents
  · have within : idx < elements.length := represents.count ▸ Nat.lt_of_not_le beyond
    obtain ⟨after, put, holds, same⟩ := represents.put within size
    exact ⟨after, (if_neg beyond).trans put, holds, same⟩

end

section

variable (represents : Represents array elements)
include represents

/-- No member is removed but the last one. -/
theorem Represents.remove_fails (inner : idx + 1 < array.count)
    (rounds : Nat) (after : FlexArray) : flexarrayRemove rounds array idx ≠ .ok after := by
  have word := represents.count_lt
  have fits : array.count ≤ array.alloc := represents.count ▸ represents.fits
  have shorter : u64Sub array.count 1 = array.count - 1 := u64Sub_of_le (by omega) word
  have next : u64 (idx + 1) = idx + 1 := u64_of_lt (by omega)
  have below : array.position idx ≤ array.position (idx + 1) := by
    rw [(represents.inside (by omega)).1, (represents.inside (by omega)).1]
    exact Nat.mul_le_mul_right _ (Nat.le_succ idx)
  have first : ¬ array.count ≤ idx := by omega
  have second : ¬ array.count - 1 ≤ idx := by omega
  rw [flexarrayRemove, if_neg first]
  rw [shorter, if_neg second, next]
  intro returned
  obtain ⟨bytes, moved, _⟩ := bind_ok returned
  exact memmove_fails below rounds _ _ bytes moved

/-- Nothing is prepended: the contents of a full buffer are read from its second member on,
and those of another one are moved downwards. -/
theorem Represents.prepend_fails (data : List UInt8) (rounds : Nat)
    (block : Block) (result : FlexArray × List Call) : flexarrayPrepend rounds array data block ≠ .ok result := by
  intro returned
  obtain ⟨roomy, made, _⟩ := bind_ok returned
  rw [FlexArray.roomInFront] at made
  split at made
  · have inside := represents.inside represents.roomy
    have one : u64 (1 * array.memberSize) = array.memberSize := by
      rw [Nat.one_mul]
      exact u64_of_lt (by have small := represents.small; rw [represents.length] at inside; omega)
    have beyond : slice array.bytes array.memberSize (array.alloc * array.memberSize) = none := by
      apply if_neg
      have positive := represents.positive
      rw [represents.length]
      omega
    simp only [flexarrayGrow, one, represents.size, beyond] at made
    exact nomatch made
  · obtain ⟨bytes, moved, _⟩ := bind_ok made
    exact memmove_fails (Nat.zero_le _) rounds _ _ bytes moved

/-- Nothing is appended to a full array whose larger buffer has a size that is no word. -/
theorem Represents.append_fails (full : array.alloc ≤ array.count)
    (exceeds : 2 ^ 64 ≤ array.grownAlloc * array.memberSize) (data : List UInt8) (block : Block)
    (result : Nat × FlexArray × List Call) : flexarrayAppend array data block ≠ .ok result := by
  intro returned
  obtain ⟨roomy, made, _⟩ := bind_ok returned
  rw [FlexArray.roomBehind, if_pos full, represents.grow_fails exceeds block] at made
  exact nomatch made

end

section

variable {calls : List Call} {block : Block}

theorem overwrite_length {bytes written part : List UInt8} {position : Nat}
    (done : overwrite bytes position part = some written) : written.length = bytes.length := by
  obtain ⟨inside, same⟩ := ite_none_right_eq_some.mp done
  rw [← some.inj same]
  simp only [length_append, length_take, length_drop]
  omega

theorem copied_ok {α : Type} {result : Option α} {value : α} (done : copied result = .ok value) :
    result = some value := by
  cases result with
  | none => exact nomatch done
  | some other => exact congrArg some (Except.ok.inj done)

/-- A member is copied into the buffer the array has. -/
theorem put_blocks (put : array.put idx data = .ok after) :
    after.self = array.self ∧ after.data = array.data ∧ after.bytes.length = array.bytes.length := by
  obtain ⟨member, _, written⟩ := bind_ok put
  obtain ⟨bytes, overwritten, returned⟩ := bind_ok written
  cases returned
  exact ⟨rfl, rfl, overwrite_length (copied_ok overwritten)⟩

/-- The blocks of an array before and after its calls: the buffer stays, or it is given
back for a new one. -/
structure Replaces (array after : FlexArray) (block : Block) (calls : List Call) : Prop where
  self : after.self = array.self
  blocks : (calls = [] ∧ after.data = array.data ∧ after.bytes.length = array.bytes.length) ∨
    (calls = [.alloc block.address after.bytes.length, .dealloc array.data] ∧ after.data = block.address)

theorem grow_replaces {copyOffset : Nat} (grew : flexarrayGrow array copyOffset block = .ok (after, calls)) :
    Replaces array after block calls := by
  obtain ⟨old, _, further⟩ := bind_ok grew
  obtain ⟨bytes, written, returned⟩ := bind_ok further
  cases returned
  have length := overwrite_length (copied_ok written)
  rw [blockBytes_length] at length
  constructor
  · rfl
  · right
    rw [length]
    exact ⟨rfl, rfl⟩

theorem append_replaces
    (appended : flexarrayAppend array data block = .ok (idx, after, calls)) : Replaces array after block calls := by
  obtain ⟨⟨roomy, made⟩, room, further⟩ := bind_ok appended
  obtain ⟨stored, put, returned⟩ := bind_ok further
  obtain ⟨self, kept, length⟩ := put_blocks put
  simp only [Except.ok.injEq, Prod.mk.injEq] at returned
  obtain ⟨_, rfl, rfl⟩ := returned
  have replaces : Replaces array roomy block made := by
    rw [FlexArray.roomBehind] at room
    split at room
    · exact grow_replaces room
    · cases room
      exact ⟨rfl, .inl ⟨rfl, rfl, rfl⟩⟩
  constructor
  · exact self.trans replaces.self
  · rw [kept, length]
    exact replaces.blocks

end

section

variable {op : Op}

/-- A sound operation returns what it returns on the list. -/
theorem Represents.perform (represents : Represents array elements) (sized : op.Sized array.memberSize)
    (sound : Sound array op) (rounds : Nat) (block : Block) :
    ∃ after, op.perform rounds block array = .ok ((op.onList elements).1, after) ∧
    Represents after (op.onList elements).2 ∧ after.memberSize = array.memberSize := by
  cases op with
  | append data =>
    obtain ⟨after, calls, appended, holds⟩ := represents.append sized sound block
    exact ⟨after, congrArg (Except.map _) appended, holds⟩
  | prepend data => exact absurd sound not_false
  | remove idx =>
    obtain ⟨after, removed, holds⟩ := represents.remove sound rounds
    exact ⟨after, congrArg (Except.map _) removed, holds⟩
  | set buffer idx =>
    obtain ⟨after, replaced, holds⟩ := represents.set sized.1 idx
    exact ⟨after, congrArg (Except.map _) replaced, holds⟩
  | get buffer idx => exact ⟨array, congrArg (Except.map _) (represents.get sized.1 idx), represents, rfl⟩
  | find data => exact ⟨array, congrArg (Except.map _) (represents.find sized), represents, rfl⟩

theorem map_ne_ok {α β : Type} {computed : Except Fault α} {f : α → β} (fails : ∀ value, computed ≠ .ok value)
    (result : β) : computed.map f ≠ .ok result := by
  cases computed with
  | error _ => exact nofun
  | ok value => exact absurd rfl (fails value)

/-- Any other operation does not return. -/
theorem Represents.perform_fails (represents : Represents array elements) (unsound : ¬ Sound array op)
    (rounds : Nat) (block : Block) (result : Output × FlexArray) : op.perform rounds block array ≠ .ok result := by
  cases op with
  | append data =>
    obtain ⟨full, exceeds⟩ := not_or.mp unsound
    exact map_ne_ok (represents.append_fails (Nat.le_of_not_lt full) (Nat.le_of_not_lt exceeds) data block) result
  | prepend data => exact map_ne_ok (represents.prepend_fails data rounds block) result
  | remove idx => exact map_ne_ok (represents.remove_fails (Nat.lt_of_not_le unsound) rounds) result
  | set buffer idx | get buffer idx | find data => exact absurd trivial unsound

theorem Represents.refines_iff (represents : Represents array elements) (sized : op.Sized array.memberSize)
    (block : Block) : Refines block array elements op ↔ Sound array op := by
  constructor
  · rintro ⟨rounds, after, performed, _⟩
    by_contra unsound
    exact represents.perform_fails unsound rounds block _ performed
  · intro sound
    exact ⟨0, represents.perform sized sound 0 block⟩

variable {memberSize initialAlloc : Nat} (positive : 1 ≤ memberSize) (fits : initialAllocOr initialAlloc * memberSize < 2 ^ 64)
include positive fits

theorem new_represents (self : Nat) (block : Block) :
    Represents (newFlexarray memberSize initialAlloc self block).1 [] := by
  have roomy : 0 < initialAllocOr initialAlloc := by
    rw [initialAllocOr]
    split <;> omega
  have size : u64 (initialAllocOr initialAlloc * memberSize) = initialAllocOr initialAlloc * memberSize :=
    u64_of_lt fits
  constructor
  · exact positive
  · exact roomy
  · exact fits
  · dsimp only [newFlexarray]
    rw [blockBytes_length, size]
  · exact rfl
  · exact Nat.zero_le _
  · exact nofun
  · exact ⟨_, (nil_append _).symm⟩

/-- An array from its creation on. -/
def arrays (memberSize initialAlloc : Nat) : System FlexArray Op where
  initial array := ∃ self block, array = (newFlexarray memberSize initialAlloc self block).1
  step array op after := op.Sized memberSize ∧
    ∃ rounds block output, op.perform rounds block array = .ok (output, after)

/-- The members after a sequence of operations. -/
def membersAfter (ops : List Op) : List (List UInt8) := ops.foldl (fun elements op => (op.onList elements).2) []

/-- Sound operations keep the list held. -/
theorem run_represents {start : FlexArray} (initial : (arrays memberSize initialAlloc).initial start) {ops : List Op}
    (run : ((arrays memberSize initialAlloc).under Sound).Run start ops array) :
    Represents array (membersAfter ops) ∧ array.memberSize = memberSize := by
  induction run with
  | done =>
    obtain ⟨self, block, rfl⟩ := initial
    exact ⟨new_represents positive fits self block, rfl⟩
  | next _ taken ih =>
    obtain ⟨represents, same⟩ := ih
    obtain ⟨sound, sized, rounds, block, output, performed⟩ := taken
    obtain ⟨after, returned, holds, kept⟩ := represents.perform (same.symm ▸ sized) sound rounds block
    rw [returned] at performed
    obtain ⟨_, rfl⟩ := Prod.mk.inj (Except.ok.inj performed)
    rw [membersAfter, foldl_append]
    exact ⟨holds, kept.trans same⟩

end

/-- After sound operations on an array whose first buffer has a size that is a word, the
array holds the members the operations leave in a list, and the next operation does what it
does to the list if and only if it is sound. -/
theorem flexarray_refines_list_iff {memberSize initialAlloc : Nat} (positive : 1 ≤ memberSize)
    (fits : initialAllocOr initialAlloc * memberSize < 2 ^ 64) {start array : FlexArray}
    (initial : (arrays memberSize initialAlloc).initial start) {ops : List Op}
    (run : ((arrays memberSize initialAlloc).under Sound).Run start ops array) :
    Represents array (membersAfter ops) ∧ ∀ op block, op.Sized memberSize →
      (Refines block array (membersAfter ops) op ↔ Sound array op) := by
  obtain ⟨represents, same⟩ := run_represents positive fits initial run
  refine ⟨represents, ?_⟩
  intro op block sized
  exact represents.refines_iff (same.symm ▸ sized) block

def zeros : Block := ⟨200, fun _ => 0⟩

/-- An array of 64-bit members, as an interrupt has one for its queues. -/
def noMember : FlexArray := (newFlexarray 8 0 100 zeros).1

def oneMember : FlexArray := ⟨100, 8, 1, 8, 200, toBytes 8 1 ++ List.replicate 56 0⟩

def twoMembers : FlexArray := ⟨100, 8, 2, 8, 200, toBytes 8 1 ++ toBytes 8 2 ++ List.replicate 48 0⟩

theorem noMember_initial : (arrays 8 0).initial noMember := ⟨100, zeros, rfl⟩

theorem oneMember_step : ((arrays 8 0).under Sound).step noMember (.append (toBytes 8 1)) oneMember :=
  ⟨.inl (by decide), rfl, 0, zeros, .index 0, rfl⟩

theorem twoMembers_step : ((arrays 8 0).under Sound).step oneMember (.append (toBytes 8 2)) twoMembers :=
  ⟨.inl (by decide), rfl, 0, zeros, .index 1, rfl⟩

theorem twoMembers_run :
    ((arrays 8 0).under Sound).Run noMember [.append (toBytes 8 1), .append (toBytes 8 2)] twoMembers :=
  .next (.next .done oneMember_step) twoMembers_step

/-- Two members are held, and the last one can be removed. -/
theorem flexarray_refines_list_two_members : Represents twoMembers [toBytes 8 1, toBytes 8 2] ∧
    Refines zeros twoMembers [toBytes 8 1, toBytes 8 2] (.remove 1) := by
  obtain ⟨represents, refines⟩ := flexarray_refines_list_iff (by decide) (by decide) noMember_initial twoMembers_run
  have sized : (Op.remove 1).Sized 8 := show 1 < 2 ^ 64 by decide
  exact ⟨represents, (refines (.remove 1) zeros sized).mpr (show 2 ≤ 1 + 1 by decide)⟩

/-- Removing the first of two members does not return, whatever number of rounds it is given. -/
theorem first_of_two_not_removed : (arrays 8 0).initial noMember ∧
    (arrays 8 0).Run noMember [.append (toBytes 8 1), .append (toBytes 8 2)] twoMembers ∧
    ∀ rounds after, flexarrayRemove rounds twoMembers 0 ≠ .ok after := by
  obtain ⟨represents, _⟩ := run_represents (by decide) (by decide) noMember_initial twoMembers_run
  refine ⟨noMember_initial, .next (.next .done oneMember_step.2) twoMembers_step.2, ?_⟩
  exact represents.remove_fails (by decide)

end Lfos.FlexArrays
