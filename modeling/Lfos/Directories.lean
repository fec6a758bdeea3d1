import Lfos.LongNames
import Lfos.ShortNames
import Lfos.Transitions

/-!
# Directories of the file system image

A directory is an array of entries. One that is stored with its contents has two entries for itself and the one above and as
many more as the names in it need; each file that is stored takes the next ones, and one that could not be stored leaves
what was written to the next file. The root directory has the label, and grows with each input of the program. A new
file gets a short name and a long one: the short name is compared with all entries that are there, those of long names, of the
label and of zeros included.
-/

namespace Lfos.Directories

open DirectoryEntries LongNames ShortNames Transitions List Option Function

/-- The entries of a directory and how many are there and used, with the long and the short names of the files in it. -/
structure Directory where
  entries : Nat → DirectoryEntry
  numEntries : Nat
  freeDirentry : Nat
  files : List (List Byte × List Byte)

def Directory.shorts (directory : Directory) : List (List Byte) := directory.files.map Prod.snd

/-- Write the names of a file: the long one from an entry on and the short one behind it. -/
def place (steps : Nat) (name : List Byte) (first : Nat) (directory : Directory) :
    Option ((Nat → DirectoryEntry) × List Byte) :=
  (fatifyName steps name directory.entries directory.numEntries).bind (fun fatname =>
    let entry := first + lfnEntries name
    let entries := update directory.entries entry (setFilename (fatname.take 11) (directory.entries entry))
    (makeLfn name (fun index => entries (first + index)) (lfnEntries name)).map (fun written =>
      (fun index => if index < first then entries index else written (index - first), fatname.take 11)))

/-- A file of a directory that is stored. -/
def storeName (steps : Nat) (name : List Byte) (directory : Directory) : Option Directory :=
  (place steps name directory.freeDirentry directory).map (fun (entries, short) =>
    { directory with
      entries
      freeDirentry := directory.freeDirentry + 1 + lfnEntries name
      files := directory.files ++ [(name, short)] })

/-- One that is not: its entries are used again. -/
def abandonName (steps : Nat) (name : List Byte) (directory : Directory) : Option Directory :=
  (place steps name directory.freeDirentry directory).map (fun (entries, _) => { directory with entries })

/-- The root directory with new entries at its end. -/
def grown (name : List Byte) (directory : Directory) : Directory where
  entries index := if index < directory.numEntries then directory.entries index else zeroEntry
  numEntries := directory.numEntries + 1 + lfnEntries name
  freeDirentry := directory.numEntries + 1 + lfnEntries name
  files := directory.files

def processInput (steps : Nat) (name : List Byte) (directory : Directory) : Option Directory :=
  (place steps name directory.numEntries (grown name directory)).map (fun (entries, short) =>
    { grown name directory with entries, files := directory.files ++ [(name, short)] })

/-- A directory in front of its files, with room for their names. -/
def opened (room : Nat) : Directory where
  entries index :=
    if index = 0 then setFilename (dot :: replicate 10 space) zeroEntry
    else if index = 1 then setFilename (dot :: dot :: replicate 9 space) zeroEntry
    else zeroEntry
  numEntries := 2 + room
  freeDirentry := 2
  files := []

def root (fslabel : List Byte) : Directory where
  entries index := if index = 0 then setFilename fslabel zeroEntry else zeroEntry
  numEntries := 1
  freeDirentry := 1
  files := []

inductive Event where
  | store (name : List Byte)
  | abandon (name : List Byte)
  | input (name : List Byte)

def Event.name : Event → List Byte
  | .store name => name
  | .abandon name => name
  | .input name => name

def Event.take (steps : Nat) (directory : Directory) : Event → Option Directory
  | .store name => storeName steps name directory
  | .abandon name => abandonName steps name directory
  | .input name => processInput steps name directory

/-- The entries of a directory were counted for all of its names; those of the root directory are all used. -/
def Room (directory : Directory) : Event → Prop
  | .store name => directory.freeDirentry + 1 + lfnEntries name ≤ directory.numEntries
  | .abandon name => directory.freeDirentry + 1 + lfnEntries name ≤ directory.numEntries
  | .input _ => directory.freeDirentry = directory.numEntries

/-- Files are added to a directory one after the other. -/
def directories : System Directory Event where
  initial directory := (∃ room, directory = opened room) ∨ ∃ fslabel, directory = root fslabel
  step directory event after :=
    0#8 ∉ event.name ∧ Room directory event ∧ ∃ steps, event.take steps directory = some after

/-- The short names are different, have eleven characters that are not zero, and are those of entries. -/
structure Sound (directory : Directory) : Prop where
  different : directory.shorts.Nodup
  whole : ∀ short ∈ directory.shorts, short.length = 11 ∧ 0#8 ∉ short
  stand : ∀ short ∈ directory.shorts, ∃ index < directory.freeDirentry, filename (directory.entries index) = short

/-- The name of a file that is added is clear in the directory it is compared with. -/
def Tame (directory : Directory) : Event → Prop
  | .store name => Clear directory.shorts directory.entries directory.numEntries name
  | .abandon _ => True
  | .input name => Clear directory.shorts (grown name directory).entries (grown name directory).numEntries name

variable {directory after : Directory} {name fatname : List Byte} {first : Nat}

section

variable {steps : Nat}

/-- What is written for a file whose short name is found, and that nothing in front of it is changed. -/
theorem place_found (found : fatifyName steps name directory.entries directory.numEntries = some fatname)
    (first : Nat) : ∃ entries, place steps name first directory = some (entries, fatname.take 11) ∧
    (∀ index < first, entries index = directory.entries index) ∧
    ((fatname.take 11).length = 11 → filename (entries (first + lfnEntries name)) = fatname.take 11) := by
  obtain ⟨dest, made, behind⟩ := makeLfn_behind name
    (fun index => update directory.entries (first + lfnEntries name)
      (setFilename (fatname.take 11) (directory.entries (first + lfnEntries name))) (first + index))
  refine ⟨_, bind_eq_some_iff.mpr ⟨fatname, found, map_eq_some_iff.mpr ⟨dest, made, rfl⟩⟩, ?_, ?_⟩
  · intro index before
    rw [if_pos before, update_of_ne (by omega)]
  · intro length
    rw [if_neg (not_lt.mpr (Nat.le_add_right ..)), Nat.add_sub_cancel_left, behind _ (le_refl _),
      update_self, filename_setFilename length]

theorem place_some {entries : Nat → DirectoryEntry} {short : List Byte}
    (placed : place steps name first directory = some (entries, short)) :
    (∃ fatname, Fatified name directory.entries directory.numEntries fatname ∧ fatname.take 11 = short) ∧
    (∀ index < first, entries index = directory.entries index) ∧
    (short.length = 11 → filename (entries (first + lfnEntries name)) = short) := by
  obtain ⟨fatname, found, _⟩ := bind_eq_some_iff.mp placed
  obtain ⟨written, again, kept, stands⟩ := place_found found first
  cases placed.symm.trans again
  exact ⟨⟨fatname, ⟨steps, found⟩, rfl⟩, kept, stands⟩

theorem place_exists (fatified : Fatified name directory.entries directory.numEntries fatname) (first : Nat) :
    ∃ steps entries, place steps name first directory = some (entries, fatname.take 11) := by
  obtain ⟨steps, found⟩ := fatified
  obtain ⟨entries, placed, _⟩ := place_found found first
  exact ⟨steps, entries, placed⟩

end

section

/-- A file is added: the directory it is compared with has the entries of the old one, which are not changed in
front of the new ones. -/
structure Added (directory compared after : Directory) (name : List Byte) (first : Nat) (fatname : List Byte) : Prop where
  fatified : Fatified name compared.entries compared.numEntries fatname
  files : after.files = directory.files ++ [(name, fatname.take 11)]
  kept : ∀ index < first, after.entries index = directory.entries index
  stands : (fatname.take 11).length = 11 → filename (after.entries (first + lfnEntries name)) = fatname.take 11
  free : after.freeDirentry = first + 1 + lfnEntries name
  used : directory.freeDirentry ≤ first
  inside : after.freeDirentry ≤ after.numEntries
  stand : ∀ short ∈ directory.shorts, ∃ index < compared.numEntries, filename (compared.entries index) = short

variable {compared : Directory} (added : Added directory compared after name first fatname)
include added

theorem Added.shorts : after.shorts = directory.shorts ++ [fatname.take 11] := by
  rw [Directory.shorts, added.files, map_append]
  rfl

/-- A new whole name keeps the directory sound. -/
theorem Added.sound (sound : Sound directory) (plain : 0#8 ∉ name) (nonzero : 0#8 ∉ fatname.take 11)
    (new : fatname.take 11 ∉ directory.shorts) : Sound after := by
  have length := fatified_length plain added.fatified
  have free := added.free
  have used := added.used
  refine ⟨?_, ?_, ?_⟩
  · rw [added.shorts, nodup_append]
    refine ⟨sound.different, nodup_singleton _, ?_⟩
    intro short member other there same
    exact new (mem_singleton.mp there ▸ same ▸ member)
  · intro short member
    rw [added.shorts, mem_append, mem_singleton] at member
    rcases member with old | rfl
    · exact sound.whole short old
    · exact ⟨length, nonzero⟩
  · intro short member
    rw [added.shorts, mem_append, mem_singleton] at member
    rcases member with old | rfl
    · obtain ⟨index, before, stands⟩ := sound.stand short old
      exact ⟨index, by omega, by rw [added.kept index (by omega), stands]⟩
    · exact ⟨first + lfnEntries name, by omega, added.stands length⟩

/-- In a sound directory the new name is new and whole. -/
theorem Added.new (sound : Sound after) : 0#8 ∉ fatname.take 11 ∧ fatname.take 11 ∉ directory.shorts := by
  have member : fatname.take 11 ∈ after.shorts := by
    rw [added.shorts]
    exact mem_append_right _ (mem_singleton_self _)
  refine ⟨(sound.whole _ member).2, ?_⟩
  intro old
  have different := sound.different
  rw [added.shorts, nodup_append] at different
  exact different.2.2 _ old _ (mem_singleton_self _) rfl

/-- A file is added soundly exactly if its name is clear in the directory it is compared with. -/
theorem Added.clear_iff (sound : Sound directory) (plain : 0#8 ∉ name) :
    Clear directory.shorts compared.entries compared.numEntries name ↔ Sound after := by
  rw [ShortNames.clear_iff plain added.stand]
  constructor
  · rintro ⟨other, fatified, nonzero, new⟩
    obtain rfl := fatified_unique fatified added.fatified
    exact added.sound sound plain nonzero new
  · intro after
    obtain ⟨nonzero, new⟩ := added.new after
    exact ⟨fatname, added.fatified, nonzero, new⟩

end

section

variable {event : Event}

/-- The names are those of entries that are used, and the entries that are used are there. -/
structure Kept (directory : Directory) : Prop where
  sound : Sound directory
  inside : directory.freeDirentry ≤ directory.numEntries

theorem Kept.stand (kept : Kept directory) :
    ∀ short ∈ directory.shorts, ∃ index < directory.numEntries, filename (directory.entries index) = short := by
  intro short member
  obtain ⟨index, before, same⟩ := kept.sound.stand short member
  exact ⟨index, lt_of_lt_of_le before kept.inside, same⟩

/-- New entries do not hide the old ones. -/
theorem Kept.stand_grown (kept : Kept directory) (name : List Byte) : ∀ short ∈ directory.shorts,
    ∃ index < (grown name directory).numEntries, filename ((grown name directory).entries index) = short := by
  intro short member
  obtain ⟨index, before, same⟩ := kept.stand short member
  refine ⟨index, ?_, ?_⟩
  · dsimp only [grown]
    omega
  · dsimp only [grown]
    rwa [if_pos before]

theorem initial_kept (initial : directories.initial directory) : Kept directory := by
  rcases initial with ⟨room, rfl⟩ | ⟨fslabel, rfl⟩
  · exact ⟨⟨nodup_nil, nofun, nofun⟩, Nat.le_add_right ..⟩
  · exact ⟨⟨nodup_nil, nofun, nofun⟩, le_refl _⟩

/-- A file that could not be stored changes no entry that is used. -/
theorem abandonName_kept (kept : Kept directory) (abandoned : abandonName steps name directory = some after) :
    Kept after := by
  obtain ⟨⟨entries, short⟩, placed, rfl⟩ := map_eq_some_iff.mp abandoned
  obtain ⟨_, unchanged, _⟩ := place_some placed
  refine ⟨⟨kept.sound.different, kept.sound.whole, ?_⟩, kept.inside⟩
  intro short member
  obtain ⟨index, before, same⟩ := kept.sound.stand short member
  exact ⟨index, before, (congrArg filename (unchanged index before)).trans same⟩

/-- A step that adds a file, with the directory whose entries the new name is compared with. -/
theorem step_adds (kept : Kept directory) (step : directories.step directory event after)
    (adds : ∀ name, event ≠ .abandon name) :
    ∃ compared first fatname, Added directory compared after event.name first fatname ∧
    Tame directory event = Clear directory.shorts compared.entries compared.numEntries event.name := by
  obtain ⟨_, room, steps, taken⟩ := step
  cases event with
  | store name =>
    obtain ⟨⟨entries, short⟩, placed, rfl⟩ := map_eq_some_iff.mp taken
    obtain ⟨⟨fatname, fatified, rfl⟩, unchanged, stands⟩ := place_some placed
    exact ⟨directory, _, fatname, ⟨fatified, rfl, unchanged, stands, rfl, le_refl _, room, kept.stand⟩, rfl⟩
  | abandon name => exact absurd rfl (adds name)
  | input name =>
    obtain ⟨⟨entries, short⟩, placed, rfl⟩ := map_eq_some_iff.mp taken
    obtain ⟨⟨fatname, fatified, rfl⟩, unchanged, stands⟩ := place_some placed
    refine ⟨grown name directory, directory.numEntries, fatname,
      ⟨fatified, rfl, ?_, stands, rfl, kept.inside, le_refl _, kept.stand_grown name⟩, rfl⟩
    exact fun index before => (unchanged index before).trans (if_pos before)

/-- A step that adds a file is sound exactly if it meets the condition. -/
theorem step_tame_iff (kept : Kept directory) (step : directories.step directory event after)
    (adds : ∀ name, event ≠ .abandon name) : Tame directory event ↔ Sound after := by
  obtain ⟨compared, first, fatname, added, tame⟩ := step_adds kept step adds
  rw [tame]
  exact added.clear_iff kept.sound step.1

theorem step_kept (kept : Kept directory) (step : directories.step directory event after) (tame : Tame directory event) :
    Kept after := by
  cases event with
  | abandon name =>
    obtain ⟨_, _, steps, taken⟩ := step
    exact abandonName_kept kept taken
  | store name | input name =>
    obtain ⟨_, _, _, added, _⟩ := step_adds kept step nofun
    exact ⟨(step_tame_iff kept step nofun).mp tame, added.inside⟩

theorem kept_of_reachable (reachable : (directories.under Tame).Reachable directory) : Kept directory :=
  reachable.invariant (fun _ initial => initial_kept initial) (fun _ _ _ kept step => step_kept kept step.2 step.1)

/-- A file whose short name is found can be stored. -/
theorem store_step (plain : 0#8 ∉ name) (room : Room directory (.store name))
    (fatified : Fatified name directory.entries directory.numEntries fatname) :
    ∃ after, directories.step directory (.store name) after := by
  obtain ⟨steps, entries, placed⟩ := place_exists fatified directory.freeDirentry
  exact ⟨_, plain, room, steps, map_eq_some_iff.mpr ⟨_, placed, rfl⟩⟩

theorem input_step (plain : 0#8 ∉ name) (room : Room directory (.input name))
    (fatified : Fatified name (grown name directory).entries (grown name directory).numEntries fatname) :
    ∃ after, directories.step directory (.input name) after ∧ after.files = directory.files ++ [(name, fatname.take 11)] ∧
    after.freeDirentry = after.numEntries := by
  obtain ⟨steps, entries, placed⟩ := place_exists fatified directory.numEntries
  exact ⟨_, ⟨plain, room, steps, map_eq_some_iff.mpr ⟨_, placed, rfl⟩⟩, rfl, rfl⟩

/-- A clear name can be added. -/
theorem tame_steps (kept : Kept directory) (plain : 0#8 ∉ event.name) (room : Room directory event)
    (adds : ∀ name, event ≠ .abandon name) (tame : Tame directory event) : ∃ after, directories.step directory event after := by
  cases event with
  | store name =>
    obtain ⟨fatname, fatified, _, _⟩ := (clear_iff plain kept.stand).mp tame
    exact store_step plain room fatified
  | abandon name => exact absurd rfl (adds name)
  | input name =>
    obtain ⟨fatname, fatified, _, _⟩ := (clear_iff plain (kept.stand_grown name)).mp tame
    obtain ⟨after, step, _, _⟩ := input_step plain room fatified
    exact ⟨after, step⟩

end

/-- The label of an image. -/
def fslabel : List Byte := replicate 11 space

/-- A name of some characters, of which the first six are kept if there are more than eight. -/
def alphabet (length : Nat) : List Byte := (range length).map (fun index => BitVec.ofNat 8 (0x61 + index))

/-- The root directory after its first file. -/
def oneFile : Directory := (processInput 1 (alphabet 9) (root fslabel)).get (by decide +kernel)

theorem oneFile_step : (directories.under Tame).step (root fslabel) (.input (alphabet 9)) oneFile := by
  refine ⟨⟨fun short => absurd short (by decide), fun _ => ⟨0, by decide +kernel, by decide +kernel, ?_⟩⟩, ?_⟩
  · exact fun earlier before => absurd before (Nat.not_lt_zero _)
  · exact ⟨by decide, rfl, 1, (some_get _).symm⟩

/-- A directory whose entries have the first ten short names of the long one. -/
def tenTaken : Nat → DirectoryEntry := fun index => setFilename (numbered (alphabet 9) (index + 1)) zeroEntry

end Lfos.Directories
