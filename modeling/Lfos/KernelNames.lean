import Lfos.Words

/-!
# The file that is booted

The loader takes the file whose name is `kernel` in any casing for the kernel. The comparison moves on
to the next characters before it finds that two are different, and its result is taken from those.

A pointer into a string is the list of the characters from there on, without the terminator.
-/

namespace Lfos.KernelNames

open List Words

/-- Letters become capitals. -/
def towlower (c : UInt16) : UInt16 := if 97 ≤ c ∧ c ≤ 122 then c - 32 else c

/-- The character at a pointer, which is the terminator at the end. -/
def current (s : List UInt16) : Int := (s.headD 0).toNat

def wcscasecmp : List UInt16 → List UInt16 → Int
  | a :: s1, b :: s2 => if a ≠ b ∧ towlower a ≠ towlower b then current s2 - current s1 else wcscasecmp s1 s2
  | s1, s2 => current s2 - current s1

/-- The loop for the last slash of a path, which is not looked for at the front. -/
def nameFrom (path : List UInt16) : Nat → Option (List UInt16)
  | 0 => some path
  | i + 1 => (path[i + 1]?).bind (fun c => if c = 47 then some (path.drop (i + 2)) else nameFrom path i)

/-- The name `KeRnEl` -/
def kernelFilename : List UInt16 := [75, 101, 82, 110, 69, 108]

/-- The test for the kernel in `handle_loaded_file`. -/
def isKernel (path : List UInt16) : Option Bool :=
  (nameFrom path (u64Sub path.length 1)).map (fun name =>
    decide (path.length ≥ kernelFilename.length ∧ wcscasecmp name kernelFilename = 0))

/-- Capitals become small letters. -/
def foldCase (c : UInt16) : UInt16 := if 65 ≤ c ∧ c ≤ 90 then c + 32 else c

/-- Equal lengths and equal characters, but for casing. -/
def SameFold (s1 s2 : List UInt16) : Prop := s1.map foldCase = s2.map foldCase

/-- The paths of files: names of directory entries, or names behind a directory and a slash. Paths that begin with the
slash, as they do if `loader_lfos_path` is empty, are left out: the slash in front of the name is not found there. -/
inductive Names : List UInt16 → List UInt16 → Prop where
  | entry {file : List UInt16} (nonempty : file ≠ []) (plain : 47 ∉ file) : Names file file
  | joined {dir file : List UInt16} (nonempty : dir ≠ []) (plain : 47 ∉ file) : Names (dir ++ 47 :: file) file

/-- Behind the first characters that are different, the next ones are different too. -/
def Parts : List UInt16 → List UInt16 → Prop
  | a :: s1, b :: s2 => if foldCase a = foldCase b then Parts s1 s2 else s1.head? ≠ s2.head?
  | _, _ => True

variable {s1 s2 path file : List UInt16}

theorem towlower_eq_iff (a b : UInt16) : towlower a = towlower b ↔ foldCase a = foldCase b := by
  simp only [towlower, foldCase, UInt16.le_iff_toNat_le, ← UInt16.toNat_inj]
  split_ifs <;> simp_all [UInt16.toNat_sub, UInt16.toNat_add] <;> omega

theorem current_eq_iff (clean1 : 0 ∉ s1) (clean2 : 0 ∉ s2) : current s2 - current s1 = 0 ↔ s1.head? = s2.head? := by
  rw [sub_eq_zero, current, current, Nat.cast_inj, UInt16.toNat_inj]
  cases s1 with
  | nil =>
    cases s2 with
    | nil => simp
    | cons b s2 => simpa using Ne.symm (ne_of_not_mem_cons clean2)
  | cons a s1 =>
    cases s2 with
    | nil => simpa using ne_of_not_mem_cons clean1
    | cons b s2 => simp [eq_comm]

/-- The comparison decides equality unless the characters behind the first different ones are equal. -/
theorem wcscasecmp_decides (clean1 : 0 ∉ s1) (clean2 : 0 ∉ s2) : (wcscasecmp s1 s2 = 0 ↔ SameFold s1 s2) ↔ Parts s1 s2 := by
  induction s1 generalizing s2 with
  | nil => cases s2 <;> simp [wcscasecmp, current_eq_iff clean1 clean2, SameFold, Parts]
  | cons a s1 ih =>
    have rest1 := not_mem_of_not_mem_cons clean1
    cases s2 with
    | nil => simp [wcscasecmp, current_eq_iff clean1 clean2, SameFold, Parts]
    | cons b s2 =>
      have rest2 := not_mem_of_not_mem_cons clean2
      by_cases same : foldCase a = foldCase b
      · have equal : ¬ (a ≠ b ∧ towlower a ≠ towlower b) := fun apart => apart.2 ((towlower_eq_iff a b).mpr same)
        rw [wcscasecmp, if_neg equal, Parts, if_pos same, ← ih rest1 rest2]
        simp [SameFold, same]
      · have apart : a ≠ b ∧ towlower a ≠ towlower b :=
          ⟨fun equal => same (congrArg foldCase equal), mt (towlower_eq_iff a b).mp same⟩
        rw [wcscasecmp, if_pos apart, Parts, if_neg same, current_eq_iff rest1 rest2]
        simp [SameFold, same]

/-- A name has no slash to be found. -/
theorem nameFrom_entry (plain : 47 ∉ file) {i : Nat} (inside : i < file.length) : nameFrom file i = some file := by
  induction i with
  | zero => rfl
  | succ i ih =>
    have other : file[i + 1] ≠ 47 := fun slash => plain (slash ▸ getElem_mem inside)
    rw [nameFrom, getElem?_eq_getElem inside, Option.bind_some, if_neg other, ih (Nat.lt_of_succ_lt inside)]

/-- The slash is found behind the name. -/
theorem nameFrom_joined {dir : List UInt16} (nonempty : dir ≠ []) (plain : 47 ∉ file) {i : Nat} (inside : i ≤ file.length) :
    nameFrom (dir ++ 47 :: file) (dir.length + i) = some file := by
  obtain ⟨before, length⟩ := Nat.exists_eq_add_one_of_ne_zero (mt length_eq_zero_iff.mp nonempty)
  induction i with
  | zero => simp [length, nameFrom, drop_append]
  | succ i ih =>
    have other : file[i] ≠ 47 := fun slash => plain (slash ▸ getElem_mem inside)
    have read : (dir ++ 47 :: file)[dir.length + i + 1]? = some file[i] := by
      simp [getElem?_append_right, Nat.add_assoc]
    rw [← Nat.add_assoc, nameFrom, read, Option.bind_some, if_neg other, ih (Nat.le_of_succ_le inside)]

theorem nameFrom_file (names : Names path file) (small : path.length < 2 ^ 64) :
    nameFrom path (u64Sub path.length 1) = some file ∧ file.length ≤ path.length := by
  cases names with
  | entry nonempty plain =>
    have positive := length_pos_iff.mpr nonempty
    rw [u64Sub_of_le positive small]
    exact ⟨nameFrom_entry plain (by omega), le_refl _⟩
  | @joined dir _ nonempty plain =>
    have length : (dir ++ 47 :: file).length = dir.length + file.length + 1 := length_append
    rw [length] at small ⊢
    rw [u64Sub_of_le (Nat.le_add_left ..) small]
    exact ⟨nameFrom_joined nonempty plain (le_refl _), by omega⟩

/-- The kernel is told by its name unless what is behind the first different characters of a name is equal. -/
theorem kernel_decided_iff (clean1 : 0 ∉ s1) (clean2 : 0 ∉ s2) (names : Names path file) (clean : 0 ∉ file)
    (small : path.length < 2 ^ 64) :
    ((wcscasecmp s1 s2 = 0 ↔ SameFold s1 s2) ↔ Parts s1 s2) ∧
    ((isKernel path = some true ↔ SameFold file kernelFilename) ↔ path.length < 6 ∨ Parts file kernelFilename) := by
  obtain ⟨named, shorter⟩ := nameFrom_file names small
  refine ⟨wcscasecmp_decides clean1 clean2, ?_⟩
  rw [isKernel, named, Option.map_some, ← wcscasecmp_decides clean (by decide)]
  by_cases short : path.length < 6
  · have other : ¬ SameFold file kernelFilename := fun same => by
      have length : file.length = kernelFilename.length := by simpa using congrArg List.length same
      rw [length] at shorter
      exact absurd shorter (not_le.mpr short)
    have less : ¬ path.length ≥ kernelFilename.length := not_le.mpr short
    simp [less, short, other]
  · have long : path.length ≥ kernelFilename.length := not_lt.mp short
    simp [long, short]

theorem kernel_decided_joined : isKernel [97, 47, 107, 69, 82, 78, 69, 76] = some true := by
  have names : Names ([97] ++ 47 :: [107, 69, 82, 78, 69, 76]) [107, 69, 82, 78, 69, 76] := .joined (by decide) (by decide)
  have decided := (@kernel_decided_iff [] [] _ _ (by decide) (by decide) names (by decide) (by decide)).2
  exact (decided.mpr (.inr (by simp [Parts, foldCase, kernelFilename]))).mpr (by unfold SameFold; decide)

/-- A name that differs in its first character is taken for the kernel. -/
theorem other_file_booted : wcscasecmp [120, 101, 82, 110, 69, 108] kernelFilename = 0 ∧
    isKernel [120, 101, 82, 110, 69, 108] = some true ∧ ¬ SameFold [120, 101, 82, 110, 69, 108] kernelFilename := by
  unfold SameFold
  decide

end Lfos.KernelNames
