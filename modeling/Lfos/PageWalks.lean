import Lfos.PageMaps

/-!
# The walk of the processor

The processor translates an address by the tables, too, and a page may end the walk on
three levels: a PDP has pages of 1 GiB, a PD pages of 2 MiB and a PT pages of 4 KiB. In all
of them the base is kept in the same bits of the entry, as the bits from 12 on of the
physical address. The kernel finds the same pages as the processor, but takes the base of a
huge page for a number of huge pages. So it computes another physical address for a huge
page, unless that is the first one of the physical memory.
-/

namespace Lfos.PageTables

open BitFields TableTrees Words

variable {memory : Memory} {context virt : Nat}

/-- An address in a page with as many bits for the offset. -/
def pageAddress (virt shift : Nat) (entry : VmTableEntry) : Nat :=
  nextBase.get entry * 4096 / 2 ^ shift * 2 ^ shift + virt % 2 ^ shift

/-- The walk through a table with some levels below. -/
def hardwareWalk (memory : Memory) (virt levels table : Nat) : Option Nat :=
  let shift := 12 + 9 * levels
  let entry := memory table (Fin.ofNat 512 (virt >>> shift))
  if present.get entry = 0 then none
  else
    match levels with
    | 0 => some (pageAddress virt shift entry)
    | below + 1 =>
      if huge.get entry = 0 then hardwareWalk memory virt below (nextBase.get entry)
      -- The bit is reserved in a PML4.
      else if below = 2 then none
      else some (pageAddress virt shift entry)

/-- The physical address the processor finds, if there is a page. -/
def hardwareTranslate (memory : Memory) (context virt : Nat) : Option Nat :=
  if Canonical virt then hardwareWalk memory virt 3 context else none

/-- A huge entry is that of a page of its level: there are none in a PML4, and the base is
aligned in a PDP and a PD. -/
def Formed (level : Nat) (entry : VmTableEntry) : Prop :=
  present.get entry ≠ 0 → huge.get entry ≠ 0 →
    level ≠ 0 ∧ (level = 1 → 2 ^ 18 ∣ nextBase.get entry) ∧ (level = 2 → 2 ^ 9 ∣ nextBase.get entry)

/-- The entries of the tables are absent, tables and pages of the sizes there are. -/
def Formatted (memory : Memory) (context : Nat) : Prop :=
  ∀ virt, Along subtable memory Formed context (indices virt)

/-- The processor makes the walk the kernel makes, and answers with the address in the page. -/
theorem hardwareWalk_eq (plain : present.get (memory context (pml4Index virt)) ≠ 0 →
    huge.get (memory context (pml4Index virt)) = 0) : hardwareWalk memory virt 3 context =
    descend memory context virt none (fun level entry => some (pageAddress virt (39 - 9 * level) entry)) := by
  -- Both walks read the same four entries, and only an entry of the PML4 is treated in another way.
  rw [hardwareWalk, hardwareWalk, hardwareWalk, hardwareWalk]
  simp only [Nat.reduceMul, Nat.reduceAdd]
  rw [← pml4Index, ← pdpIndex, ← pdIndex, ← ptIndex]
  unfold descend
  by_cases there : present.get (memory context (pml4Index virt)) = 0
  · simp [there]
  · simp [there, plain there]

section

variable {level : Nat} {entry : VmTableEntry}

/-- What the kernel computes from a base, which is cut to 64 bits. -/
theorem shifted_address {shift mask : Nat} (short : shift ≤ 64) (full : mask = 2 ^ shift - 1) (base virt : Nat) :
    u64 (base <<< shift) ||| (virt &&& mask) = base * 2 ^ shift % 2 ^ 64 + virt % 2 ^ shift := by
  have offset : virt % 2 ^ shift < 2 ^ shift := Nat.mod_lt _ (Nat.two_pow_pos shift)
  have split : 2 ^ 64 = 2 ^ (64 - shift) * 2 ^ shift := by rw [← Nat.pow_add, Nat.sub_add_cancel short]
  rw [u64, full, Nat.and_two_pow_sub_one_eq_mod, Nat.shiftLeft_eq, split, Nat.mul_mod_mul_right, ← Nat.shiftLeft_eq,
    ← Nat.shiftLeft_add_eq_or_of_lt offset]

/-- A base that is shifted by 18 bits too many is the same only if it is zero. -/
theorem gigabyte_base_iff {base : Nat} (small : base < 2 ^ 40) (aligned : 2 ^ 18 ∣ base) :
    base * 2 ^ 30 % 2 ^ 64 = base * 4096 / 2 ^ 30 * 2 ^ 30 ↔ base = 0 := by
  obtain ⟨pages, rfl⟩ := aligned
  have above : 2 ^ 18 * pages * 2 ^ 30 % 2 ^ 64 = pages % 2 ^ 16 * 2 ^ 18 * 2 ^ 30 := by
    omega
  omega

/-- A base that is shifted by 9 bits too many is the same only if it is zero. -/
theorem megabyte_base_iff {base : Nat} (small : base < 2 ^ 40) (aligned : 2 ^ 9 ∣ base) :
    base * 2 ^ 21 % 2 ^ 64 = base * 4096 / 2 ^ 21 * 2 ^ 21 ↔ base = 0 := by
  obtain ⟨pages, rfl⟩ := aligned
  have above : 2 ^ 9 * pages * 2 ^ 21 % 2 ^ 64 = 2 ^ 9 * pages * 2 ^ 21 := by
    omega
  omega

/-- The kernel computes the address of the processor for a page of 4 KiB, and for a huge page
if its base is zero. -/
theorem physicalIn_iff (found : level = 1 ∨ level = 2 ∨ level = 3)
    (aligned : (level = 1 → 2 ^ 18 ∣ nextBase.get entry) ∧ (level = 2 → 2 ^ 9 ∣ nextBase.get entry)) :
    physicalIn virt level entry = pageAddress virt (39 - 9 * level) entry ↔ level = 3 ∨ nextBase.get entry = 0 := by
  have small : nextBase.get entry < 2 ^ 40 := get_lt nextBase entry
  rcases found with rfl | rfl | rfl
  · have address : physicalIn virt 1 entry = nextBase.get entry * 2 ^ 30 % 2 ^ 64 + virt % 2 ^ 30 :=
      shifted_address (by decide) (by omega) _ _
    rw [address, pageAddress, Nat.add_right_cancel_iff, gigabyte_base_iff small (aligned.1 rfl)]
    simp
  · have address : physicalIn virt 2 entry = nextBase.get entry * 2 ^ 21 % 2 ^ 64 + virt % 2 ^ 21 :=
      shifted_address (by decide) (by omega) _ _
    rw [address, pageAddress, Nat.add_right_cancel_iff, megabyte_base_iff small (aligned.2 rfl)]
    simp
  · have address : physicalIn virt 3 entry = nextBase.get entry * 2 ^ 12 % 2 ^ 64 + virt % 2 ^ 12 :=
      shifted_address (by decide) (by omega) _ _
    rw [pageAddress]
    omega

/-- The entry of a page is one of its level. -/
theorem leaf_formed (formatted : Formatted memory context) (stopped : leaf memory context virt = some (level, entry))
    (there : present.get entry ≠ 0) : (level = 1 ∨ level = 2 ∨ level = 3) ∧
    (level = 1 → 2 ^ 18 ∣ nextBase.get entry) ∧ (level = 2 → 2 ^ 9 ∣ nextBase.get entry) := by
  obtain ⟨before, index, table, reads, same, rfl, childless⟩ := stop_reads stopped
  rw [zero_add] at same
  subst same
  have formed := formatted virt before index table reads there
  have short : before.length + 1 ≤ 4 := by
    have shorter := reads.1.length_le
    rwa [List.length_append] at shorter
  by_cases isHuge : huge.get (memory table index) = 0
  · have last : ¬ before.length ≤ 2 := by
      intro above
      rw [subtable_plain above there (fun _ => isHuge)] at childless
      exact nomatch childless
    omega
  · obtain ⟨below, aligned⟩ := formed isHuge
    exact ⟨by omega, aligned⟩

end

/-- If there is a page, it is one of 4 KiB or a huge one at the beginning of the physical
memory. -/
def SmallOrFirst (memory : Memory) (context virt : Nat) : Prop :=
  ∀ level entry, leaf memory context virt = some (level, entry) → level = 3 ∨ nextBase.get entry = 0

/-- The kernel finds the pages the processor finds, and the same addresses in those of 4 KiB
and in huge ones at the beginning of the physical memory. -/
theorem page_walks_agree_iff (formatted : Formatted memory context) (canonical : Canonical virt)
    (outside : ¬ DirectlyMapped virt) :
    (vmContextPagePresent memory context virt = true ↔ (hardwareTranslate memory context virt).isSome = true) ∧
      ∀ physical, hardwareTranslate memory context virt = some physical →
        (vmContextGetPhysicalForVirtual memory context virt = physical ↔ SmallOrFirst memory context virt) := by
  have plain : present.get (memory context (pml4Index virt)) ≠ 0 → huge.get (memory context (pml4Index virt)) = 0 := by
    intro there
    by_contra isHuge
    exact (formatted virt [] _ _ ⟨⟨_, rfl⟩, rfl⟩ there isHuge).1 rfl
  rw [hardwareTranslate, if_pos canonical, hardwareWalk_eq plain, descend_eq, pagePresent_descend, descend_eq,
    getPhysical_descend memory context outside, descend_eq]
  cases stopped : leaf memory context virt with
  | none => exact ⟨by simp, fun _ found => nomatch found⟩
  | some reached =>
    obtain ⟨level, entry⟩ := reached
    simp only [Option.elim_some, answer]
    by_cases absent : present.get entry = 0
    · simp [absent]
    · obtain ⟨found, aligned⟩ := leaf_formed formatted stopped absent
      have same : physicalIn virt level entry = pageAddress virt (39 - 9 * level) entry ↔
          level = 3 ∨ nextBase.get entry = 0 := physicalIn_iff found aligned
      simp [absent, SmallOrFirst, stopped, same]

/-- The first entry of the PML4 leads to a PDP with a page of 1 GiB. -/
def gigabyteAt (base : Nat) : Memory :=
  write (write blank 0 0 (tableEntry 1 0#64)) 1 0 (huge.set 1 (tableEntry base 0#64))

theorem gigabyteAt_entry (base table : Nat) (index : Fin 512) : gigabyteAt base table index =
    if table = 1 ∧ index = 0 then huge.set 1 (tableEntry base 0#64)
    else if table = 0 ∧ index = 0 then tableEntry 1 0#64 else 0#64 := by
  unfold gigabyteAt
  split
  · next here =>
    rw [here.1, here.2]
    exact write_here ..
  · next elsewhere =>
    rw [write_elsewhere _ _ elsewhere]
    split
    · next first =>
      rw [first.1, first.2]
      exact write_here ..
    · next neither => exact write_elsewhere _ _ neither

theorem gigabyteAt_formatted {base : Nat} (small : base < 2 ^ 40) (aligned : 2 ^ 18 ∣ base) :
    Formatted (gigabyteAt base) 0 := by
  rintro virt before index table ⟨_, located⟩ _ isHuge
  rw [gigabyteAt_entry] at isHuge ⊢
  split at isHuge
  · next here =>
    -- The table is the PDP, so the walk has read an index before.
    have below : before.length ≠ 0 := by
      intro none
      rw [List.length_eq_zero_iff.mp none] at located
      exact absurd ((Option.some.inj located).trans here.1) (by decide)
    have base_eq : nextBase.get (huge.set 1 (tableEntry base 0#64)) = base := by
      rw [get_set_beside (by decide), tableEntry_nextBase, Nat.mod_eq_of_lt small]
    rw [if_pos here, base_eq]
    exact ⟨below, fun _ => aligned, fun _ => Nat.dvd_trans (by decide) aligned⟩
  · split at isHuge
    · exact absurd rfl isHuge
    · exact absurd rfl isHuge

/-- The walks agree in a huge page at the beginning of the physical memory. -/
theorem page_walks_agree_first_gigabyte : hardwareTranslate (gigabyteAt 0) 0 0x1234 = some 0x1234 ∧
    vmContextGetPhysicalForVirtual (gigabyteAt 0) 0 0x1234 = 0x1234 := by
  have found : hardwareTranslate (gigabyteAt 0) 0 0x1234 = some 0x1234 := by decide +kernel
  have formatted := gigabyteAt_formatted (by decide) (Nat.dvd_zero (2 ^ 18))
  constructor
  · exact found
  · apply ((page_walks_agree_iff formatted (by decide) (by decide)).2 0x1234 found).mpr
    intro level entry reached
    cases reached
    exact .inr (by decide +kernel)

/-- In the second GiB the kernel is wrong by the base times `2 ^ 18`. -/
theorem second_gigabyte_differs : Formatted (gigabyteAt (2 ^ 18)) 0 ∧ Canonical 0x1234 ∧ ¬ DirectlyMapped 0x1234 ∧
    hardwareTranslate (gigabyteAt (2 ^ 18)) 0 0x1234 = some (2 ^ 30 + 0x1234) ∧
    vmContextGetPhysicalForVirtual (gigabyteAt (2 ^ 18)) 0 0x1234 = 2 ^ 48 + 0x1234 := by
  refine ⟨gigabyteAt_formatted (by decide) (Nat.dvd_refl _), by decide, by decide, ?_, ?_⟩
  · decide +kernel
  · decide +kernel

end Lfos.PageTables
