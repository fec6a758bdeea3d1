import Lfos.FatLayout
import Lfos.Searches

/-!
# The fixpoint for the size of the allocation table

A larger table leaves fewer clusters, and fewer clusters need a smaller table. The program computes one
from the other until the number of clusters is the one it had before. That number is a fixpoint, at which
tables and clusters fit the image. But the numbers come to alternate between two values that are two
clusters apart if there is no fixpoint, and this is so for two of the remainders that the number of
sectors can have.
-/

namespace Lfos.FatGeometry

open FatLayout FatStorage Searches Words

/-- The numbers of a round: the clusters of the round before and the sectors of a table. -/
abbrev Round := Nat × Nat

/-- The result of a round that is the last one. -/
def fitted (superblock : Superblock) (round : Round) : Option (Nat × Nat) :=
  if clustersLeft superblock round.2 = round.1 then
    some (clustersLeft superblock round.2, fatSectors superblock (clustersLeft superblock round.2))
  else none

def refit (superblock : Superblock) (round : Round) : Round :=
  (clustersLeft superblock round.2, fatSectors superblock (clustersLeft superblock round.2))

theorem fitFat_search (superblock : Superblock) (rounds lastClusters sectorsPerFat : Nat) :
    fitFat superblock rounds lastClusters sectorsPerFat =
    search (fitted superblock) (refit superblock) rounds (lastClusters, sectorsPerFat) := by
  induction rounds generalizing lastClusters sectorsPerFat with
  | zero => rfl
  | succ rounds ih =>
    by_cases settled : clustersLeft superblock sectorsPerFat = lastClusters
    · have here : fitted superblock (lastClusters, sectorsPerFat) =
          some (clustersLeft superblock sectorsPerFat, fatSectors superblock (clustersLeft superblock sectorsPerFat)) :=
        if_pos settled
      rw [search_found here]
      exact if_neg (not_not.mpr settled)
    · have absent : fitted superblock (lastClusters, sectorsPerFat) = none := if_neg settled
      rw [search_on absent]
      exact (if_pos settled).trans (ih _ _)

/-- What is given to `initialize_fat`: a size of sectors and a number of them that are accepted, of which at
least 16 are left. -/
structure Given (superblock : Superblock) : Prop where
  bytes : superblock.bytesPerSector = 512 ∨ superblock.bytesPerSector = 4096
  one : superblock.sectorsPerCluster = 1
  size : 32 ≤ superblock.sectors ∧ superblock.sectors < 2 ^ 31
  left : superblock.reservedSectors + 16 ≤ superblock.sectors

/-- Two tables and the clusters fit into the image, and a table has an entry for each cluster. -/
structure Consistent (superblock : Superblock) (clusters sectorsPerFat : Nat) : Prop where
  fits : 2 * sectorsPerFat + superblock.reservedSectors + clusters * superblock.sectorsPerCluster ≤ superblock.sectors
  entries : 4 * (clusters + 2) ≤ sectorsPerFat * superblock.bytesPerSector

/-- The entries of a sector of the table. -/
def entriesPerSector (superblock : Superblock) : Nat := superblock.bytesPerSector / 4

/-- The sectors that are not reserved are neither a multiple of the entries of a sector and two more, nor one less
than such a multiple. -/
def Meets (superblock : Superblock) : Prop :=
  (superblock.sectors - superblock.reservedSectors) % (entriesPerSector superblock + 2) ≠ 0 ∧
    (superblock.sectors - superblock.reservedSectors) % (entriesPerSector superblock + 2) ≠ entriesPerSector superblock + 1

instance (superblock : Superblock) : Decidable (Meets superblock) := inferInstanceAs (Decidable (_ ∧ _))

variable {superblock : Superblock} {sectorsPerFat fat : Nat}

section

variable {clusters : Nat}

/-- The sectors that are not reserved. -/
def sectorsLeft (superblock : Superblock) : Nat := superblock.sectors - superblock.reservedSectors

/-- The tables of an image leave room. -/
def Room (superblock : Superblock) (sectorsPerFat : Nat) : Prop := 2 * sectorsPerFat ≤ sectorsLeft superblock

/-- The table of the next round, from that of this one. -/
def tableAfter (superblock : Superblock) (sectorsPerFat : Nat) : Nat :=
  fatSectors superblock (clustersLeft superblock sectorsPerFat)

/-- The table is just large enough for the clusters that it leaves. -/
def Fixed (superblock : Superblock) (sectorsPerFat : Nat) : Prop :=
  sectorsLeft superblock + 2 ≤ (entriesPerSector superblock + 2) * sectorsPerFat ∧
    (entriesPerSector superblock + 2) * sectorsPerFat < sectorsLeft superblock + 2 + entriesPerSector superblock

section

variable (given : Given superblock)
include given

theorem entries_cases : entriesPerSector superblock = 128 ∨ entriesPerSector superblock = 1024 := by
  rw [entriesPerSector]
  rcases given.bytes with bytes | bytes
  · exact .inl (by rw [bytes])
  · exact .inr (by rw [bytes])

/-- The clusters without wrapping around. -/
theorem clustersLeft_eq (room : Room superblock sectorsPerFat) :
    clustersLeft superblock sectorsPerFat = sectorsLeft superblock - 2 * sectorsPerFat := by
  have size := given.size
  have left := given.left
  unfold Room sectorsLeft at room
  have whole : u32Sub superblock.sectors superblock.reservedSectors = sectorsLeft superblock :=
    u32Sub_of_le (by omega) (by omega)
  rw [clustersLeft, given.one, Nat.div_one, whole, sectorsLeft, u32_of_lt (by omega), u32Sub_of_le (by omega) (by omega),
    mul_comm]

/-- A table has just enough sectors. -/
theorem fatSectors_bounds (small : clusters < 2 ^ 31) :
    clusters + 2 ≤ entriesPerSector superblock * fatSectors superblock clusters ∧
    entriesPerSector superblock * fatSectors superblock clusters < clusters + 2 + entriesPerSector superblock := by
  rw [fatSectors, entriesPerSector]
  rcases given.bytes with bytes | bytes <;>
  · rw [bytes, u32_of_lt (by omega)]
    omega

/-- One round: the table of the next round fits the clusters that this one leaves. -/
theorem tableAfter_bounds (room : Room superblock sectorsPerFat) :
    sectorsLeft superblock + 2 ≤ entriesPerSector superblock * tableAfter superblock sectorsPerFat + 2 * sectorsPerFat ∧
    entriesPerSector superblock * tableAfter superblock sectorsPerFat + 2 * sectorsPerFat <
    sectorsLeft superblock + 2 + entriesPerSector superblock := by
  have size := given.size
  have small : clustersLeft superblock sectorsPerFat < 2 ^ 31 := by
    rw [clustersLeft_eq given room, sectorsLeft]
    omega
  have computed := fatSectors_bounds given small
  unfold Room at room
  rw [tableAfter]
  rw [clustersLeft_eq given room] at computed ⊢
  omega

theorem tableAfter_room (room : Room superblock sectorsPerFat) :
    Room superblock (tableAfter superblock sectorsPerFat) := by
  have left := given.left
  have after := tableAfter_bounds given room
  unfold Room sectorsLeft at *
  rcases entries_cases given with entries | entries <;>
  · rw [entries] at after
    omega

/-- The multiples of a number hit every window that is two shorter, but for two. -/
theorem fixed_iff : (∃ sectorsPerFat, Fixed superblock sectorsPerFat) ↔ Meets superblock := by
  unfold Fixed Meets
  rw [← sectorsLeft]
  generalize sectorsLeft superblock = left
  constructor
  · rintro ⟨sectorsPerFat, fixed⟩
    rcases entries_cases given with entries | entries <;>
    · rw [entries] at fixed ⊢
      omega
  · intro meets
    refine ⟨(left + 2 + (entriesPerSector superblock + 1)) / (entriesPerSector superblock + 2), ?_⟩
    rcases entries_cases given with entries | entries <;>
    · rw [entries] at meets ⊢
      omega

theorem room_of_fixed (fixed : Fixed superblock fat) : Room superblock fat := by
  have left := given.left
  unfold Fixed Room sectorsLeft at *
  rcases entries_cases given with entries | entries <;>
  · rw [entries] at fixed
    omega

/-- A table that fits what it leaves is the table of the next round. -/
theorem tableAfter_fixed (fixed : Fixed superblock fat) : tableAfter superblock fat = fat := by
  have after := tableAfter_bounds given (room_of_fixed given fixed)
  unfold Fixed at fixed
  rcases entries_cases given with entries | entries <;>
  · rw [entries] at after fixed
    omega

/-- The other way round, a table that stays is one that fits. -/
theorem fixed_of_tableAfter (room : Room superblock fat) (stays : tableAfter superblock fat = fat) :
    Fixed superblock fat := by
  have after := tableAfter_bounds given room
  rw [stays] at after
  rw [Fixed, add_mul]
  omega

end

/-- How far two numbers are apart. -/
def distance (left right : Nat) : Nat := (left - right) + (right - left)

/-- The next table is on the other side. If this one is two sectors or more away it is nearer, and otherwise one
sector away at most. -/
theorem tableAfter_nearer (given : Given superblock) (fixed : Fixed superblock fat) (room : Room superblock sectorsPerFat) :
    (fat ≤ sectorsPerFat → tableAfter superblock sectorsPerFat ≤ fat) ∧
    (sectorsPerFat ≤ fat → fat ≤ tableAfter superblock sectorsPerFat) ∧
    (distance sectorsPerFat fat ≤ 1 → distance (tableAfter superblock sectorsPerFat) fat ≤ 1) ∧
    (1 < distance sectorsPerFat fat → distance (tableAfter superblock sectorsPerFat) fat < distance sectorsPerFat fat) := by
  have after := tableAfter_bounds given room
  unfold Fixed at fixed
  unfold distance
  rcases entries_cases given with entries | entries <;>
  · rw [entries] at after fixed
    omega

/-- From one of the two neighbours of the table that fits it is reached at once. -/
theorem tableAfter_neighbours (given : Given superblock) (fixed : Fixed superblock (fat + 1)) (above : Room superblock (fat + 2))
    (below : Room superblock fat) : tableAfter superblock (fat + 2) = fat + 1 ∨ tableAfter superblock fat = fat + 1 := by
  have after := tableAfter_bounds given above
  have afterBelow := tableAfter_bounds given below
  unfold Fixed at fixed
  rcases entries_cases given with entries | entries <;>
  · rw [entries] at after afterBelow fixed
    omega

end

section

variable {lastClusters : Nat}

/-- The loop ends from a round on. -/
def Settles (superblock : Superblock) (round : Round) : Prop := ∃ found, Ends (fitted superblock) (refit superblock) round found

/-- The loop ends if it does so from the next round on. -/
theorem settles_later (later : Settles superblock (clustersLeft superblock sectorsPerFat, tableAfter superblock sectorsPerFat)) :
    Settles superblock (lastClusters, sectorsPerFat) := by
  cases here : fitted superblock (lastClusters, sectorsPerFat) with
  | some found => exact ⟨found, ends_here here⟩
  | none =>
    obtain ⟨found, ends⟩ := later
    exact ⟨found, ends_later here ends⟩

section

variable (given : Given superblock) (fixed : Fixed superblock fat)
include given fixed

theorem settles_fixed : Settles superblock (lastClusters, fat) := by
  apply settles_later
  rw [tableAfter_fixed given fixed]
  exact ⟨_, ends_here (if_pos rfl)⟩

/-- Next to the table that fits there are three rounds left. -/
theorem settles_near (room : Room superblock sectorsPerFat)
    (near : distance sectorsPerFat fat ≤ 1) : Settles superblock (lastClusters, sectorsPerFat) := by
  -- If the next table is the one that fits, the loop ends with it.
  have reached (table clusters : Nat) (hit : tableAfter superblock table = fat) : Settles superblock (clusters, table) := by
    apply settles_later
    rw [hit]
    exact settles_fixed given fixed
  by_cases hit : tableAfter superblock sectorsPerFat = fat
  · exact reached _ _ hit
  -- Otherwise it is the neighbour on the other side, from which the one that fits is reached.
  apply settles_later
  apply reached
  have roomAfter := tableAfter_room given room
  obtain ⟨falls, rises, close, _⟩ := tableAfter_nearer given fixed room
  have closeAfter := close near
  unfold distance at near closeAfter
  rcases lt_or_ge sectorsPerFat fat with below | above
  · obtain rfl : fat = sectorsPerFat + 1 := by omega
    have other : tableAfter superblock sectorsPerFat = sectorsPerFat + 2 := by omega
    rw [other] at roomAfter ⊢
    exact (tableAfter_neighbours given fixed roomAfter room).resolve_right hit
  · obtain ⟨least, rfl⟩ : ∃ least, fat = least + 1 := ⟨fat - 1, by omega⟩
    obtain rfl : sectorsPerFat = least + 2 := by omega
    have other : tableAfter superblock (least + 2) = least := by omega
    rw [other] at roomAfter ⊢
    exact (tableAfter_neighbours given fixed room roomAfter).resolve_left hit

/-- The distance to the table that fits gets smaller until it is one at most. -/
theorem settles (room : Room superblock sectorsPerFat) : Settles superblock (lastClusters, sectorsPerFat) := by
  induction far : distance sectorsPerFat fat using Nat.strongRecOn generalizing lastClusters sectorsPerFat with
  | ind far_ ih =>
    rcases lt_or_ge 1 (distance sectorsPerFat fat) with more | near
    · obtain ⟨_, _, _, nearer⟩ := tableAfter_nearer given fixed room
      apply settles_later
      exact ih _ (far ▸ nearer more) (tableAfter_room given room) rfl
    · exact settles_near given fixed room near

end

/-- What is known of every round: the table is that of the clusters, except in the first one. -/
def Tabled (superblock : Superblock) (round : Round) : Prop :=
  Room superblock round.2 ∧ (round.2 = fatSectors superblock round.1 ∨ round = (0, 0))

section

variable (given : Given superblock)
include given

theorem tabled_refit (round : Round) (tabled : Tabled superblock round) :
    Tabled superblock (refit superblock round) := ⟨tableAfter_room given tabled.1, .inl rfl⟩

/-- What the loop ends with is a fixpoint. -/
theorem settled_spec {clusters : Nat} (ends : Ends (fitted superblock) (refit superblock) (0, 0) (clusters, fat)) :
    fat = fatSectors superblock clusters ∧ Room superblock fat ∧ clusters = clustersLeft superblock fat := by
  have left := given.left
  have empty : Room superblock 0 := Nat.zero_le _
  have first : clustersLeft superblock 0 ≠ 0 := by
    rw [clustersLeft_eq given empty, sectorsLeft]
    omega
  have start : Tabled superblock (0, 0) := ⟨empty, .inr rfl⟩
  obtain ⟨⟨lastClusters, table⟩, kept, last⟩ := ends_invariant ends start (fun round kept _ => tabled_refit given round kept)
  obtain ⟨settled, found⟩ := Option.ite_none_right_eq_some.mp last
  cases found
  obtain ⟨room, computed | start⟩ := kept
  · rw [settled, ← computed]
    exact ⟨rfl, room, settled.symm⟩
  · obtain ⟨rfl, rfl⟩ := Prod.mk.inj start
    exact absurd settled first

theorem settled_consistent {clusters : Nat}
    (ends : Ends (fitted superblock) (refit superblock) (0, 0) (clusters, fat)) : Consistent superblock clusters fat := by
  obtain ⟨computed, room, left⟩ := settled_spec given ends
  have size := given.size
  have reserved := given.left
  rw [clustersLeft_eq given room, sectorsLeft] at left
  unfold Room sectorsLeft at room
  constructor
  · rw [given.one]
    omega
  · have enough := (fatSectors_bounds given (show clusters < 2 ^ 31 by omega)).1
    rw [entriesPerSector] at enough
    rcases given.bytes with bytes | bytes <;>
    · rw [bytes] at enough ⊢
      omega

/-- The loop ends exactly if there is a fixpoint. -/
theorem settles_iff : Settles superblock (0, 0) ↔ Meets superblock := by
  rw [← fixed_iff given]
  constructor
  · rintro ⟨⟨clusters, fat⟩, ends⟩
    obtain ⟨computed, room, left⟩ := settled_spec given ends
    refine ⟨fat, fixed_of_tableAfter given room ?_⟩
    rw [tableAfter, ← left, ← computed]
  · rintro ⟨fat, fixed⟩
    exact settles given fixed (Nat.zero_le _)

end

/-- For every size of sectors and number of them that are accepted and all reserved sectors that leave 16: the loop of
`initialize_fat` ends with tables and clusters that fit exactly if the number of sectors has none of the two remainders. -/
theorem geometry_consistent_iff (given : Given superblock) :
    (∃ rounds clusters sectorsPerFat, fitFat superblock rounds 0 0 = some (clusters, sectorsPerFat) ∧
      Consistent superblock clusters sectorsPerFat) ↔ Meets superblock := by
  rw [← settles_iff given]
  constructor
  · rintro ⟨rounds, clusters, fat, done, _⟩
    exact ⟨(clusters, fat), rounds, (fitFat_search superblock rounds 0 0).symm.trans done⟩
  · rintro ⟨⟨clusters, fat⟩, ends⟩
    have consistent := settled_consistent given ends
    obtain ⟨rounds, done⟩ := ends
    exact ⟨rounds, clusters, fat, (fitFat_search superblock rounds 0 0).trans done, consistent⟩

/-- The default size. -/
theorem geometry_consistent_iff_default : ∃ rounds clusters sectorsPerFat,
    fitFat ⟨512, 1, 2, 131072, 0, 1⟩ rounds 0 0 = some (clusters, sectorsPerFat) ∧
      Consistent ⟨512, 1, 2, 131072, 0, 1⟩ clusters sectorsPerFat :=
  (geometry_consistent_iff ⟨.inl rfl, rfl, by decide, by decide⟩).mpr (by decide)

/-- An image of 132 sectors: the loop alternates between 126 and 128 clusters. -/
theorem alternates_forever : Given ⟨512, 1, 2, 132, 0, 1⟩ ∧ ∀ rounds, fitFat ⟨512, 1, 2, 132, 0, 1⟩ rounds 0 0 = none := by
  have given : Given ⟨512, 1, 2, 132, 0, 1⟩ := ⟨.inl rfl, rfl, by decide, by decide⟩
  refine ⟨given, fun rounds => ?_⟩
  rw [fitFat_search]
  by_contra ended
  obtain ⟨found, done⟩ := Option.ne_none_iff_exists'.mp ended
  have meets := (settles_iff given).mp ⟨found, rounds, done⟩
  exact absurd meets (by decide)

end

end Lfos.FatGeometry
