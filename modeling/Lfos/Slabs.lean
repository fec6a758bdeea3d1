import Lfos.Bitmaps
import Lfos.Transitions
import Mathlib.Data.Finset.Card

/-!
# The slab allocator

A region of memory is divided into objects of one size. It begins with a header and a bitmap of the
objects in use, and the first object is at the next multiple of the size. The number of objects is computed
with a bitmap for more objects than there are, and kept in 16 bits, while the size of the bitmap is
kept for all of them.

The region is part of a memory of bytes, so that whatever is written to an object could reach the
header and the bitmap. The product of an index and a size is one of 32-bit integers.
-/

namespace Lfos.Slabs

open Bitmaps ByteMemory Transitions Words List Option Function

/-- `sizeof(SlabHeader)` -/
def headerSize : Nat := 8

/-- The fields of `SlabHeader`. -/
def allocationSize (memory : Bytes) (slab : Nat) : Nat := loadNumber memory slab 2
def numEntries (memory : Bytes) (slab : Nat) : Nat := loadNumber memory (slab + 2) 2
def bitmapBytes (memory : Bytes) (slab : Nat) : Nat := loadNumber memory (slab + 4) 4

def bitmapOf (slab : Nat) : Nat := u64 (slab + headerSize)

def initSlab (memory : Bytes) (memStart memEnd allocationSize : Nat) : Bytes :=
  let memTotal := u64Sub memEnd memStart
  let entries := memTotal / allocationSize
  let overhead := u64 (bitmapSize entries + headerSize)
  let numEntries := u64Sub entries (u64 (overhead + allocationSize) / allocationSize)
  let headed := storeNumber (storeNumber (storeNumber memory memStart 2 allocationSize) (memStart + 2) 2 numEntries)
    (memStart + 4) 4 (bitmapSize numEntries)
  fill headed (bitmapOf memStart) (bitmapBytes headed memStart) 0#8

def slabOverhead (memory : Bytes) (slab : Nat) : Nat :=
  let overhead := u64 (headerSize + bitmapBytes memory slab)
  u64 (overhead + u64Sub (allocationSize memory slab) (overhead % allocationSize memory slab))

def slabMem (memory : Bytes) (slab idx : Nat) : Nat :=
  ((i32 (idx * allocationSize memory slab : Nat) + slabOverhead memory slab + slab) % 2 ^ 64).toNat

def slabIndex (memory : Bytes) (slab mem : Nat) : Nat :=
  u64Sub (u64Sub mem (slabOverhead memory slab)) slab / allocationSize memory slab % 2 ^ 16

/-- The first object that is not in use; without one the kernel panics. -/
def slabAlloc (memory : Bytes) (slab : Nat) : Option (Nat × Bytes) :=
  ((List.range (numEntries memory slab)).find? (fun idx => !bitmapGet memory (bitmapOf slab) idx)).map (fun idx =>
    (slabMem (bitmapSet memory (bitmapOf slab) idx) slab idx, bitmapSet memory (bitmapOf slab) idx))

def slabFree (memory : Bytes) (slab mem : Nat) : Bytes :=
  bitmapClear memory (bitmapOf slab) (slabIndex memory slab mem)

/-- What `init_slab` is called with: at most 2 GiB, and more objects than it reserves for its overhead. -/
structure Region where
  memStart : Nat
  memEnd : Nat
  size : Nat
  ordered : memStart ≤ memEnd
  word : memEnd < 2 ^ 64
  small : memEnd - memStart ≤ 2 ^ 31
  positive : 1 ≤ size
  short : size ≤ 65535
  roomy : (bitmapSize ((memEnd - memStart) / size) + headerSize + size) / size < (memEnd - memStart) / size

/-- A memory and the objects that were handed out and not given back. -/
structure State where
  memory : Bytes
  live : Finset Nat

inductive Event where
  | alloc
  | free (mem : Nat)
  /-- Somebody writes to an object of theirs. -/
  | write (address : Nat) (value : BitVec 8)

def slabs (region : Region) : System State Event where
  initial state := ∃ memory, state = ⟨initSlab memory region.memStart region.memEnd region.size, ∅⟩
  step state event after :=
    match event with
    | .alloc => ∃ mem taken, slabAlloc state.memory region.memStart = some (mem, taken) ∧
        after = ⟨taken, insert mem state.live⟩
    | .free mem => mem ∈ state.live ∧
        after = ⟨slabFree state.memory region.memStart mem, state.live.erase mem⟩
    | .write address value => (∃ mem ∈ state.live, mem ≤ address ∧ address < mem + region.size) ∧
        after = { state with memory := Function.update state.memory address value }

/-- What a slab allocator is for. -/
structure Sound (region : Region) (state : State) : Prop where
  inside : ∀ mem ∈ state.live, region.memStart + headerSize + bitmapBytes state.memory region.memStart ≤ mem ∧
    mem + region.size ≤ region.memEnd
  disjoint : ∀ mem ∈ state.live, ∀ other ∈ state.live, mem ≠ other →
    mem + region.size ≤ other ∨ other + region.size ≤ mem
  new : ∀ mem taken, slabAlloc state.memory region.memStart = some (mem, taken) → mem ∉ state.live
  index : ∀ idx < numEntries state.memory region.memStart,
    slabIndex state.memory region.memStart (slabMem state.memory region.memStart idx) = idx
  panics : slabAlloc state.memory region.memStart = none → state.live.card = numEntries state.memory region.memStart

variable {idx : Nat} {region : Region} {memory : Bytes}

section

variable (region : Region)

/-- The objects that would fit without a header. -/
def Region.entries : Nat := (region.memEnd - region.memStart) / region.size

/-- The objects that there are. -/
def Region.count : Nat := region.entries - (bitmapSize region.entries + headerSize + region.size) / region.size

/-- The objects that the header has room to count. -/
def Region.counted : Nat := region.count % 2 ^ 16

/-- The bytes in front of the first object. -/
def Region.overhead : Nat := ((headerSize + bitmapSize region.count) / region.size + 1) * region.size

def Region.object (idx : Nat) : Nat := region.memStart + region.overhead + idx * region.size

variable {region}

theorem Region.entries_le (region : Region) : region.entries ≤ 2 ^ 31 := le_trans (Nat.div_le_self _ _) region.small

theorem Region.count_le (region : Region) : region.count ≤ 2 ^ 31 := le_trans (Nat.sub_le _ _) region.entries_le

theorem bitmapSize_eq {entries : Nat} (small : entries ≤ 2 ^ 31) : bitmapSize entries = (entries + 7) / 8 := by
  rw [bitmapSize, u64_of_lt (by omega)]

/-- The objects and the overhead fit into the region. -/
theorem Region.fits (region : Region) : region.overhead + region.count * region.size ≤ region.memEnd - region.memStart := by
  have positive := region.positive
  have fewer : bitmapSize region.count ≤ bitmapSize region.entries := by
    have less : region.count ≤ region.entries := Nat.sub_le _ _
    rw [bitmapSize_eq region.count_le, bitmapSize_eq region.entries_le]
    omega
  have reserved : (headerSize + bitmapSize region.count) / region.size + 1 ≤
      (bitmapSize region.entries + headerSize + region.size) / region.size := by
    rw [Nat.add_div_right _ positive]
    exact Nat.succ_le_succ (Nat.div_le_div_right (by omega))
  have roomy : (bitmapSize region.entries + headerSize + region.size) / region.size < region.entries := region.roomy
  have together : (headerSize + bitmapSize region.count) / region.size + 1 + region.count ≤ region.entries := by
    rw [Region.count] at *
    omega
  calc region.overhead + region.count * region.size
      = ((headerSize + bitmapSize region.count) / region.size + 1 + region.count) * region.size := by
        rw [Region.overhead, ← add_mul]
    _ ≤ region.entries * region.size := Nat.mul_le_mul_right _ together
    _ ≤ region.memEnd - region.memStart := Nat.div_mul_le_self _ _

/-- The header and the bitmap are in front of the first object. -/
theorem Region.overhead_gt (region : Region) : headerSize + bitmapSize region.count < region.overhead := by
  have positive := region.positive
  rw [Region.overhead, mul_comm]
  exact Nat.lt_mul_div_succ _ positive

theorem Region.counted_le (region : Region) : region.counted ≤ region.count := Nat.mod_le _ _

theorem Region.object_inside (counted : idx < region.counted) :
    region.memStart + headerSize + bitmapSize region.count ≤ region.object idx ∧
    region.object idx + region.size ≤ region.memEnd := by
  have fits := region.fits
  have front := region.overhead_gt
  have inside := lt_of_lt_of_le counted region.counted_le
  have next : (idx + 1) * region.size ≤ region.count * region.size := Nat.mul_le_mul_right _ inside
  rw [add_mul, one_mul] at next
  unfold Region.object
  omega

theorem Region.object_apart {other : Nat} (less : idx < other) : region.object idx + region.size ≤ region.object other := by
  have next : (idx + 1) * region.size ≤ other * region.size := Nat.mul_le_mul_right _ less
  rw [add_mul, one_mul] at next
  unfold Region.object
  omega

theorem Region.object_injective {other : Nat} (same : region.object idx = region.object other) : idx = other := by
  have positive := region.positive
  rcases lt_trichotomy idx other with less | equal | greater
  · have apart := region.object_apart less
    omega
  · exact equal
  · have apart := region.object_apart greater
    omega

end

section

variable {after : Bytes}

/-- The header says what was computed. -/
structure Headed (region : Region) (memory : Bytes) : Prop where
  size : allocationSize memory region.memStart = region.size
  entries : numEntries memory region.memStart = region.counted
  bitmap : bitmapBytes memory region.memStart = bitmapSize region.count

theorem bitmapOf_region (region : Region) : bitmapOf region.memStart = region.memStart + headerSize := by
  have fits := region.fits
  have front := region.overhead_gt
  have word := region.word
  exact u64_of_lt (by omega)

theorem Headed.congr (headed : Headed region memory)
    (same : ∀ address, address < region.memStart + headerSize → after address = memory address) : Headed region after := by
  unfold headerSize at same
  refine ⟨?_, ?_, ?_⟩
  · rw [← headed.size]
    exact loadNumber_congr (fun address _ below => same address (by omega))
  · rw [← headed.entries]
    exact loadNumber_congr (fun address _ below => same address (by omega))
  · rw [← headed.bitmap]
    exact loadNumber_congr (fun address _ below => same address (by omega))

theorem Headed.overhead (headed : Headed region memory) : slabOverhead memory region.memStart = region.overhead := by
  have fits := region.fits
  have word := region.word
  have below : (headerSize + bitmapSize region.count) % region.size < region.size := Nat.mod_lt _ region.positive
  have whole := Nat.div_add_mod (headerSize + bitmapSize region.count) region.size
  have rounded : headerSize + bitmapSize region.count +
      (region.size - (headerSize + bitmapSize region.count) % region.size) = region.overhead := by
    rw [Region.overhead, add_mul, one_mul, mul_comm (_ / _)]
    omega
  have exact64 : u64 (headerSize + bitmapSize region.count) = headerSize + bitmapSize region.count := u64_of_lt (by omega)
  have rest : u64Sub region.size ((headerSize + bitmapSize region.count) % region.size) =
      region.size - (headerSize + bitmapSize region.count) % region.size := u64Sub_of_le (le_of_lt below) (by omega)
  rw [slabOverhead, headed.bitmap, headed.size]
  rw [exact64, rest, rounded, u64_of_lt (by omega)]

/-- An integer that is a word. -/
theorem toNat_word {value : Nat} (small : value < 2 ^ 64) : ((value : Int) % 2 ^ 64).toNat = value := by omega

theorem Headed.mem (headed : Headed region memory) (inside : idx < region.counted) :
    slabMem memory region.memStart idx = region.object idx := by
  have small := region.small
  have word := region.word
  have ordered := region.ordered
  have placed := region.object_inside inside
  have product : idx * region.size < 2 ^ 31 := by
    have front := region.overhead_gt
    unfold Region.object at placed
    omega
  have exact32 : i32 (idx * region.size : Nat) = (idx * region.size : Nat) := i32_of_range (by omega) (by omega)
  have sum : (((idx * region.size : Nat) : Int) + (region.overhead : Nat) + (region.memStart : Nat)) =
      ((region.object idx : Nat) : Int) := by
    rw [Region.object]
    omega
  rw [slabMem, headed.size, headed.overhead, exact32, sum]
  exact toNat_word (by omega)

theorem Headed.index (headed : Headed region memory) (inside : idx < region.counted) :
    slabIndex memory region.memStart (region.object idx) = idx := by
  have word := region.word
  have placed := region.object_inside inside
  have below : region.counted < 2 ^ 16 := Nat.mod_lt _ (by decide)
  have positive := region.positive
  have behind : region.object idx = region.memStart + region.overhead + idx * region.size := rfl
  have first : u64Sub (region.object idx) region.overhead = region.object idx - region.overhead :=
    u64Sub_of_le (by omega) (by omega)
  have second : u64Sub (region.object idx - region.overhead) region.memStart = idx * region.size := by
    rw [u64Sub_of_le (by omega) (by omega)]
    omega
  rw [slabIndex, headed.size, headed.overhead, first, second, Nat.mul_div_cancel _ positive, Nat.mod_eq_of_lt (by omega)]

end

section

variable {state after : State}

/-- What every step keeps: the header, and the bitmap as the set of the objects that are live. -/
structure Kept (region : Region) (state : State) : Prop where
  headed : Headed region state.memory
  bits : ∀ idx < region.counted,
    bitmapGet state.memory (region.memStart + headerSize) idx = decide (region.object idx ∈ state.live)
  objects : ∀ mem ∈ state.live, ∃ idx < region.counted, mem = region.object idx

/-- The bytes of the bitmap are behind the header and in front of the objects. -/
theorem bitmap_inside (inside : idx < region.counted) : bitmapIdx idx < bitmapSize region.count := by
  have large := region.count_le
  exact bitmapIdx_lt (lt_of_lt_of_le inside region.counted_le) (by omega)

theorem kept_init (memory : Bytes) : Kept region ⟨initSlab memory region.memStart region.memEnd region.size, ∅⟩ := by
  have ordered := region.ordered
  have word := region.word
  have short := region.short
  have large := region.entries_le
  have sizeWithin : bitmapSize region.entries ≤ 2 ^ 29 := by
    rw [bitmapSize_eq large]
    omega
  have total : u64Sub region.memEnd region.memStart = region.memEnd - region.memStart := u64Sub_of_le ordered word
  have overhead : u64 (bitmapSize region.entries + headerSize) = bitmapSize region.entries + headerSize :=
    u64_of_lt (by unfold headerSize; omega)
  have sum : u64 (bitmapSize region.entries + headerSize + region.size) = bitmapSize region.entries + headerSize + region.size :=
    u64_of_lt (by unfold headerSize; omega)
  have count : u64Sub region.entries ((bitmapSize region.entries + headerSize + region.size) / region.size) = region.count :=
    u64Sub_of_le (le_of_lt region.roomy) (by omega)
  obtain ⟨headed, headedIs⟩ := @exists_eq _ (storeNumber (storeNumber (storeNumber memory region.memStart 2
    region.size) (region.memStart + 2) 2 region.count) (region.memStart + 4) 4 (bitmapSize region.count))
  have bitmap : bitmapBytes headed region.memStart = bitmapSize region.count := by
    have fits : bitmapSize region.count < 256 ^ 4 := by
      have counted := region.count_le
      rw [bitmapSize_eq counted]
      omega
    rw [headedIs, bitmapBytes, load_store_number, Nat.mod_eq_of_lt fits]
  have header : Headed region headed := by
    refine ⟨?_, ?_, bitmap⟩
    · rw [headedIs, allocationSize, load_elsewhere (by omega), load_elsewhere (by omega), load_store_number]
      exact Nat.mod_eq_of_lt (by omega)
    · rw [headedIs, numEntries, load_elsewhere (by omega)]
      exact load_store_number ..
  have result : initSlab memory region.memStart region.memEnd region.size =
      fill headed (region.memStart + headerSize) (bitmapSize region.count) 0#8 := by
    rw [← bitmap, ← bitmapOf_region, headedIs, ← count, ← sum, ← overhead, Region.entries, ← total]
    rfl
  rw [result]
  refine ⟨header.congr (fun address below => fill_outside (.inl below)), ?_, ?_⟩
  · intro idx inside
    have byte := bitmap_inside inside
    have zero : fill headed (region.memStart + headerSize) (bitmapSize region.count) 0#8
        (region.memStart + headerSize + bitmapIdx idx) = 0#8 := fill_inside (by omega) (by omega)
    simp [bitmapGet, zero]
  · exact fun mem member => absurd member (Finset.notMem_empty mem)

variable (kept : Kept region state)
include kept

/-- What a change of one entry of the bitmap keeps, when the same object comes to be live or stops being it. -/
theorem Kept.change {memory : Bytes} {live : Finset Nat} {value : Bool} (inside : idx < region.counted)
    (elsewhere : ∀ address, address ≠ region.memStart + headerSize + bitmapIdx idx → memory address = state.memory address)
    (get : ∀ other, bitmapGet memory (region.memStart + headerSize) other =
    if other = idx then value else bitmapGet state.memory (region.memStart + headerSize) other)
    (members : ∀ mem, mem ∈ live ↔ if mem = region.object idx then value = true else mem ∈ state.live) :
    Kept region ⟨memory, live⟩ := by
  refine ⟨kept.headed.congr (fun address below => elsewhere address (by omega)), ?_, ?_⟩
  · intro other within
    rw [get other, Bool.eq_iff_iff, decide_eq_true_iff, members]
    by_cases same : other = idx
    · rw [if_pos same, if_pos (congrArg region.object same)]
    · rw [if_neg same, if_neg (fun equal => same (Region.object_injective equal)), kept.bits other within, decide_eq_true_iff]
  · intro mem member
    by_cases same : mem = region.object idx
    · exact ⟨idx, inside, same⟩
    · have before := (members mem).mp member
      rw [if_neg same] at before
      exact kept.objects mem before

variable {mem : Nat}

/-- The object that is handed out is the first one that is not live. -/
theorem slabAlloc_cases {taken : Bytes} (alloc : slabAlloc state.memory region.memStart = some (mem, taken)) :
    ∃ idx < region.counted, region.object idx ∉ state.live ∧ mem = region.object idx ∧
    taken = bitmapSet state.memory (region.memStart + headerSize) idx := by
  rw [slabAlloc, kept.headed.entries, bitmapOf_region, map_eq_some_iff] at alloc
  obtain ⟨idx, found, pair⟩ := alloc
  obtain ⟨memIs, takenIs⟩ := Prod.mk.inj pair
  have inside : idx < region.counted := mem_range.mp (mem_of_find?_eq_some found)
  have unused := find?_some found
  rw [kept.bits idx inside] at unused
  have headed : Headed region (bitmapSet state.memory (region.memStart + headerSize) idx) :=
    kept.headed.congr (fun address below => bitmapSet_elsewhere (by omega))
  refine ⟨idx, inside, by simpa using unused, ?_, takenIs.symm⟩
  rw [← memIs, headed.mem inside]

theorem kept_alloc {taken : Bytes}
    (alloc : slabAlloc state.memory region.memStart = some (mem, taken)) : Kept region ⟨taken, insert mem state.live⟩ := by
  obtain ⟨idx, inside, _, memIs, takenIs⟩ := slabAlloc_cases kept alloc
  subst memIs takenIs
  apply kept.change inside (fun address different => bitmapSet_elsewhere different) (fun other => bitmapGet_set)
  intro mem
  by_cases same : mem = region.object idx <;> simp [same]

theorem kept_free (member : mem ∈ state.live) :
    Kept region ⟨slabFree state.memory region.memStart mem, state.live.erase mem⟩ := by
  obtain ⟨idx, inside, memIs⟩ := kept.objects mem member
  subst memIs
  rw [slabFree, kept.headed.index inside, bitmapOf_region]
  apply kept.change inside (fun address different => bitmapClear_elsewhere different) (fun other => bitmapGet_clear)
  intro mem
  by_cases same : mem = region.object idx <;> simp [same]

/-- A byte of an object is behind the header and the bitmap. -/
theorem kept_write {address : Nat} {value : BitVec 8} (member : mem ∈ state.live)
    (behind : mem ≤ address) : Kept region { state with memory := update state.memory address value } := by
  obtain ⟨idx, inside, memIs⟩ := kept.objects mem member
  have placed := Region.object_inside inside
  refine ⟨kept.headed.congr (fun other below => update_of_ne (by omega) ..), ?_, kept.objects⟩
  intro other within
  have byte := bitmap_inside within
  rw [← kept.bits other within]
  exact bitmapGet_congr (update_of_ne (by omega) ..)

theorem kept_step {event : Event} (taken : (slabs region).step state event after) : Kept region after := by
  cases event with
  | alloc =>
    obtain ⟨mem, memory, alloc, afterIs⟩ := taken
    exact afterIs ▸ kept_alloc kept alloc
  | free mem =>
    obtain ⟨member, afterIs⟩ := taken
    exact afterIs ▸ kept_free kept member
  | write address value =>
    obtain ⟨⟨mem, member, behind, _⟩, afterIs⟩ := taken
    exact afterIs ▸ kept_write kept member behind

/-- Without an object to hand out the live ones are all that there are. -/
theorem live_of_panic (panics : slabAlloc state.memory region.memStart = none) :
    state.live = (Finset.range region.counted).image region.object := by
  rw [slabAlloc, kept.headed.entries, bitmapOf_region, map_eq_none_iff, find?_eq_none] at panics
  ext mem
  rw [Finset.mem_image]
  constructor
  · intro member
    obtain ⟨idx, inside, memIs⟩ := kept.objects mem member
    exact ⟨idx, Finset.mem_range.mpr inside, memIs.symm⟩
  · rintro ⟨idx, inside, memIs⟩
    have used := panics idx (mem_range.mpr (Finset.mem_range.mp inside))
    rw [kept.bits idx (Finset.mem_range.mp inside)] at used
    subst memIs
    simpa using used

theorem sound_of_kept : Sound region state where
  inside := by
    intro mem member
    obtain ⟨idx, inside, memIs⟩ := kept.objects mem member
    rw [kept.headed.bitmap, memIs]
    exact Region.object_inside inside
  disjoint := by
    intro mem member other also different
    obtain ⟨idx, _, rfl⟩ := kept.objects mem member
    obtain ⟨second, _, rfl⟩ := kept.objects other also
    rcases lt_trichotomy idx second with less | equal | greater
    · exact .inl (region.object_apart less)
    · exact absurd (congrArg region.object equal) different
    · exact .inr (region.object_apart greater)
  new := by
    intro mem taken alloc
    obtain ⟨idx, _, unused, memIs, _⟩ := slabAlloc_cases kept alloc
    exact memIs ▸ unused
  index := by
    intro idx inside
    rw [kept.headed.entries] at inside
    rw [kept.headed.mem inside, kept.headed.index inside]
  panics := by
    intro panics
    rw [live_of_panic kept panics, kept.headed.entries,
      Finset.card_image_of_injective _ (fun _ _ same => Region.object_injective same), Finset.card_range]

end

/-- Whatever is allocated, freed and written, the objects that are live are disjoint parts of the region
behind the header and the bitmap, and the allocator panics only when all of them are live. -/
theorem objects_sound (region : Region) (state : State) (reachable : (slabs region).Reachable state) : Sound region state := by
  apply sound_of_kept
  apply reachable.invariant
  · rintro start ⟨memory, rfl⟩
    exact kept_init memory
  · exact fun state event after kept taken => kept_step kept taken

/-- Eight objects of eight bytes, two of which are the overhead. -/
def smallRegion : Region where
  memStart := 0x1000
  memEnd := 0x1040
  size := 8
  ordered := by decide
  word := by decide
  small := by decide
  positive := by decide
  short := by decide
  roomy := by decide

/-- What it starts with. -/
def smallStart : State := ⟨initSlab (fun _ => 0xAA#8) 0x1000 0x1040 8, ∅⟩

/-- Two objects are given out, next to each other. -/
theorem objects_sound_two : ∃ once twice, slabAlloc smallStart.memory 0x1000 = some (0x1010, once) ∧
    slabAlloc once 0x1000 = some (0x1018, twice) ∧ Sound smallRegion ⟨twice, insert 0x1018 (insert 0x1010 ∅)⟩ := by
  have address : (slabAlloc smallStart.memory 0x1000).map Prod.fst = some 0x1010 := by decide
  have behind : ((slabAlloc smallStart.memory 0x1000).bind (fun result => slabAlloc result.2 0x1000)).map Prod.fst =
      some 0x1018 := by decide
  obtain ⟨⟨_, once⟩, alloc, rfl⟩ := map_eq_some_iff.mp address
  rw [alloc, bind_some] at behind
  obtain ⟨⟨_, twice⟩, again, rfl⟩ := map_eq_some_iff.mp behind
  have first : (slabs smallRegion).step smallStart .alloc ⟨once, insert 0x1010 ∅⟩ := ⟨_, once, alloc, rfl⟩
  have second : (slabs smallRegion).step ⟨once, insert 0x1010 ∅⟩ .alloc ⟨twice, insert 0x1018 (insert 0x1010 ∅)⟩ :=
    ⟨_, twice, again, rfl⟩
  have start : (slabs smallRegion).Reachable smallStart := reachable_initial ⟨_, rfl⟩
  have reachable := reachable_step start first
  exact ⟨once, twice, alloc, again, objects_sound smallRegion _ (reachable_step reachable second)⟩

end Lfos.Slabs
