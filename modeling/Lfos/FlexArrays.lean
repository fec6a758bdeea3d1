import Lfos.ByteLists
import Lfos.Ledgers
import Lfos.Results
import Lfos.Transitions

/-!
# Growable arrays

An array keeps members of one size behind each other in a block of its allocator, which is
replaced by a larger one when it is full. Sizes and positions are unsigned 64-bit words.
A copy that would leave its block fails. A block comes from the allocator with an address
and with any contents, and both are arguments here.

`memmove` copies upwards if the source lies above the destination, and downwards
otherwise. The index of the downward loop is unsigned and the loop ends when it is
negative, so the loop has no end. It is given a number of rounds to make.
-/

namespace Lfos.FlexArrays

open ByteLists Ledgers Words

/-- A copy leaves its block, or a loop is not at its end after all its rounds. -/
inductive Fault where
  | outside
  | endless
deriving DecidableEq, Repr

/-- The result of a copy. -/
def copied {α : Type} : Option α → Except Fault α
  | none => .error .outside
  | some result => .ok result

/-- Copy a byte of a block; positions wrap as addresses do. -/
def moveByte (block : List UInt8) (dest source i : Nat) : Except Fault (List UInt8) := do
  let byte ← copied (slice block (u64 (source + i)) 1)
  copied (overwrite block (u64 (dest + i)) byte)

def moveUp (dest source : Nat) (block : List UInt8) (i : Nat) : Nat → Except Fault (List UInt8)
  | 0 => .ok block
  | rest + 1 => do
    let moved ← moveByte block dest source i
    moveUp dest source moved (i + 1) rest

def moveDown (dest source : Nat) (block : List UInt8) (i : Nat) : Nat → Except Fault (List UInt8)
  | 0 => .error .endless
  | rounds + 1 => do
    let moved ← moveByte block dest source i
    moveDown dest source moved (u64Sub i 1) rounds

/-- Copy bytes within a block. -/
def memmove (rounds : Nat) (block : List UInt8) (dest source size : Nat) : Except Fault (List UInt8) :=
  if dest < source then moveUp dest source block 0 size
  else moveDown dest source block (u64Sub size 1) rounds

/-- A block as the allocator returns it. -/
structure Block where
  address : Nat
  contents : Nat → UInt8

def Block.bytes (block : Block) (size : Nat) : List UInt8 := (List.range size).map block.contents

/-- An array with its own address, and its buffer. -/
structure FlexArray where
  self : Nat
  memberSize : Nat
  count : Nat
  alloc : Nat
  data : Nat
  bytes : List UInt8

/-- Size of `struct flexarray`. -/
def arraySize : Nat := 40

/-- The number of members there is room for at the beginning. -/
def initialAllocOr (initialAlloc : Nat) : Nat := if initialAlloc = 0 then 8 else initialAlloc

def newFlexarray (memberSize initialAlloc self : Nat) (block : Block) : FlexArray × List Call :=
  let size := u64 (initialAllocOr initialAlloc * memberSize)
  (⟨self, memberSize, 0, initialAllocOr initialAlloc, block.address, block.bytes size⟩,
    [.alloc self arraySize, .alloc block.address size])

/-- The array itself is given back. -/
def deleteFlexarray (array : FlexArray) : List Call := [.dealloc array.self]

def flexarrayGrow (array : FlexArray) (copyOffset : Nat) (block : Block) : Except Fault (FlexArray × List Call) := do
  let grow := if array.alloc >>> 4 = 0 then 1 else array.alloc >>> 4
  let oldSize := u64 (array.alloc * array.memberSize)
  let newAlloc := u64 (array.alloc + grow)
  let newSize := u64 (newAlloc * array.memberSize)
  let old ← copied (slice array.bytes (u64 (copyOffset * array.memberSize)) oldSize)
  let bytes ← copied (overwrite (block.bytes newSize) 0 old)
  .ok ({ array with alloc := newAlloc, data := block.address, bytes := bytes },
    [.alloc block.address newSize, .dealloc array.data])

/-- The position of a member in the buffer. -/
def FlexArray.position (array : FlexArray) (idx : Nat) : Nat := u64 (idx * array.memberSize)

/-- Copy a member into the buffer. -/
def FlexArray.put (array : FlexArray) (idx : Nat) (data : List UInt8) : Except Fault FlexArray := do
  let member ← copied (slice data 0 array.memberSize)
  let bytes ← copied (overwrite array.bytes (array.position idx) member)
  .ok { array with bytes := bytes }

/-- A full array grows before a member is appended. -/
def FlexArray.roomBehind (array : FlexArray) (block : Block) : Except Fault (FlexArray × List Call) :=
  if array.alloc ≤ array.count then flexarrayGrow array 0 block else .ok (array, [])

/-- A full array grows before a member is prepended, any other one moves its members. -/
def FlexArray.roomInFront (rounds : Nat) (array : FlexArray) (block : Block) : Except Fault (FlexArray × List Call) :=
  if array.alloc ≤ array.count then flexarrayGrow array 1 block
  else do
    let bytes ← memmove rounds array.bytes (array.position 1) 0 (u64 (array.count * array.memberSize))
    .ok ({ array with bytes := bytes }, [])

def flexarrayAppend (array : FlexArray) (data : List UInt8) (block : Block) :
    Except Fault (Nat × FlexArray × List Call) := do
  let (roomy, calls) ← array.roomBehind block
  let stored ← roomy.put roomy.count data
  let counted := { stored with count := u64 (stored.count + 1) }
  .ok (u64Sub counted.count 1, counted, calls)

def flexarrayPrepend (rounds : Nat) (array : FlexArray) (data : List UInt8) (block : Block) :
    Except Fault (FlexArray × List Call) := do
  let (roomy, calls) ← array.roomInFront rounds block
  let stored ← roomy.put 0 data
  .ok (stored, calls)

def flexarrayRemove (rounds : Nat) (array : FlexArray) (idx : Nat) : Except Fault FlexArray :=
  if array.count ≤ idx then .ok array
  else
    let shorter := { array with count := u64Sub array.count 1 }
    if shorter.count ≤ idx then .ok shorter
    else do
      let bytes ← memmove rounds shorter.bytes (shorter.position (u64 (idx + 1))) (shorter.position idx)
        (u64 (u64Sub shorter.count idx * shorter.memberSize))
      .ok { shorter with bytes := bytes }

/-- What `flexarray_find` returns if there is no such member. -/
def notFound : Nat := 2 ^ 64 - 1

/-- The search from a member on; `memcmp` is zero for equal bytes only. -/
def findFrom (array : FlexArray) (data : List UInt8) (i : Nat) : Nat → Except Fault Nat
  | 0 => .ok notFound
  | rest + 1 => do
    let member ← copied (slice array.bytes (array.position i) array.memberSize)
    let wanted ← copied (slice data 0 array.memberSize)
    if member = wanted then .ok i else findFrom array data (i + 1) rest

def flexarrayFind (array : FlexArray) (data : List UInt8) : Except Fault Nat := findFrom array data 0 array.count

/-- The caller's buffer after a member was copied into it. -/
def flexarrayGet (array : FlexArray) (buffer : List UInt8) (idx : Nat) : Except Fault (List UInt8) :=
  if array.count ≤ idx then .ok buffer
  else do
    let member ← copied (slice array.bytes (array.position idx) array.memberSize)
    copied (overwrite buffer 0 member)

def flexarraySet (array : FlexArray) (buffer : List UInt8) (idx : Nat) : Except Fault FlexArray :=
  if array.count ≤ idx then .ok array else array.put idx buffer

end Lfos.FlexArrays
