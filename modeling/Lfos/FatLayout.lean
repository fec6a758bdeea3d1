import Lfos.ByteLists
import Lfos.FatFiles
import Lfos.Spans

/-!
# The layout of the file system image

The image begins with the superblock and further boot sectors, then come the info block, two copies of
the allocation table, and the clusters. The boot sectors are written one after another from byte 512 on,
and the tables directly behind the 512 bytes of the info block, while all other positions are computed
from the size of a sector. So both only fit sectors of 512 bytes. Numbers of sectors have 16 bits in the
superblock, and positions are products of 32 bits.

What is stored in between is left out: it goes through the same context. So are the bytes of the
superblock. The loop for the size of the table is given a number of rounds.
-/

namespace Lfos.FatLayout

open ByteLists FatChains FatFiles FatStorage FileWrites Spans Words Option

/-- What is given to the program: the file for the boot sectors, if there is one, is its bytes. -/
structure Options where
  sectorSize : Nat
  size : Nat
  boot : Option (List UInt8)

/-- `validate_sector_size` and `validate_size` -/
def Accepted (options : Options) : Prop :=
  (options.sectorSize = 512 ∨ options.sectorSize = 4096) ∧ 32 ≤ options.size ∧ options.size < 2 ^ 31

/-- The number of sectors that `write_bootsect` goes through. -/
def bootSectors (sectorSize : Nat) (file : List UInt8) : Nat := u32 (u64 (file.length + sectorSize - 1) / sectorSize)

/-- The first sector goes into the superblock, and the others to the image. -/
def writeBootsect (superblock : Superblock) (file : List UInt8) : Superblock × Writes UInt8 :=
  let bytes := superblock.bytesPerSector
  let sectors := bootSectors bytes file
  ({ superblock with
      reservedSectors := (superblock.reservedSectors + u32Sub sectors 1) % 2 ^ 16
      fsinfoSector := (superblock.fsinfoSector + u32Sub sectors 1) % 2 ^ 16 },
    ((List.range' 1 (sectors - 1)).map (fun i => (512 + (i - 1) * bytes, pieceOf bytes file i))).reverse)

/-- The clusters that are left by the tables. -/
def clustersLeft (superblock : Superblock) (sectorsPerFat : Nat) : Nat :=
  u32Sub (u32Sub superblock.sectors superblock.reservedSectors) (u32 (sectorsPerFat * 2)) / superblock.sectorsPerCluster

/-- The sectors of a table for some clusters. -/
def fatSectors (superblock : Superblock) (clusters : Nat) : Nat :=
  u32 ((4 * (clusters + 2) + superblock.bytesPerSector - 1) / superblock.bytesPerSector)

/-- The loop of `initialize_fat`: the number of clusters and the sectors of a table. -/
def fitFat (superblock : Superblock) : Nat → Nat → Nat → Option (Nat × Nat)
  | 0, _, _ => none
  | rounds + 1, lastClusters, sectorsPerFat =>
    let clusters := clustersLeft superblock sectorsPerFat
    if clusters ≠ lastClusters then fitFat superblock rounds clusters (fatSectors superblock clusters)
    else some (clusters, fatSectors superblock clusters)

def initialFat (cluster : Nat) : Nat := if cluster = 0 then 0xFFFFFFF8 else if cluster = 1 then 0x0FFFFFFF else 0

/-- `main` up to the first input. -/
def create (rounds : Nat) (options : Options) : Option Context :=
  let plain : Superblock := ⟨options.sectorSize, 1, 2, options.size, 0, 1⟩
  let (superblock, outfile) := options.boot.elim (plain, []) (writeBootsect plain)
  (fitFat superblock rounds 0 0).map (fun (clusters, sectorsPerFat) => {
    outfile := outfile
    superblock := { superblock with sectorsPerFat := sectorsPerFat }
    lastKnownFreeClusters := clusters
    lastAllocatedCluster := 1
    fat := initialFat
    clusters := clusters
    dataStart := u32 (superblock.bytesPerSector * u32 (superblock.reservedSectors + u32 (sectorsPerFat * 2))) })

/-- `struct fsinfoblock` -/
def infoblock (ctx : Context) : List UInt8 :=
  toBytes 4 0x41615252 ++ List.replicate 480 0 ++ toBytes 4 0x61417272 ++ toBytes 4 ctx.lastKnownFreeClusters ++
    toBytes 4 ctx.lastAllocatedCluster ++ List.replicate 12 0 ++ toBytes 4 0xaa550000

/-- A copy of the table, as many sectors as it takes. -/
def fatCopy (ctx : Context) : List UInt8 :=
  (List.range (ctx.superblock.sectorsPerFat * ctx.superblock.bytesPerSector / 4)).flatMap (fun cluster => toBytes 4 (ctx.fat cluster))

def infoSeek (ctx : Context) : Nat := u32 (ctx.superblock.bytesPerSector * ctx.superblock.fsinfoSector)

/-- The end of the info block. -/
def fatSeek (ctx : Context) : Nat := infoSeek ctx + 512

def secondFatSeek (ctx : Context) : Nat := fatSeek ctx + ctx.superblock.sectorsPerFat * ctx.superblock.bytesPerSector

/-- The byte that is written at last, so that the file has its size. -/
def lastSeek (ctx : Context) : Nat := u32Sub (u32 (ctx.superblock.bytesPerSector * ctx.superblock.sectors)) 1

/-- What `main` writes after the last input. -/
def finish (ctx : Context) (superblock : List UInt8) : Writes UInt8 :=
  (lastSeek ctx, [0]) :: (secondFatSeek ctx, fatCopy ctx) :: (fatSeek ctx, fatCopy ctx) ::
    (infoSeek ctx, infoblock ctx) :: (0, superblock) :: ctx.outfile

/-- A cluster of the image. -/
def IsCluster (ctx : Context) (cluster : Nat) : Prop := 2 ≤ cluster ∧ cluster ≤ ctx.clusters + 1

/-- The sector at which a cluster should begin. -/
def clusterSector (ctx : Context) (cluster : Nat) : Nat :=
  ctx.superblock.reservedSectors + 2 * ctx.superblock.sectorsPerFat + (cluster - 2)

/-- The bytes that a cluster is written to. -/
def clusterSpan (ctx : Context) (cluster : Nat) : Span := ⟨seekCluster ctx cluster, clusterSize ctx⟩

/-- The image is what its superblock says, whatever is stored in it. -/
structure LaidOut (ctx : Context) (boot : Nat) : Prop where
  /-- Info block and tables are written where the superblock says, and so is the last byte. -/
  written : ∀ stored superblock, Same ctx stored → finish stored superblock =
    (ctx.superblock.sectors * ctx.superblock.bytesPerSector - 1, [0]) ::
    ((ctx.superblock.reservedSectors + ctx.superblock.sectorsPerFat) * ctx.superblock.bytesPerSector, fatCopy stored) ::
    (ctx.superblock.reservedSectors * ctx.superblock.bytesPerSector, fatCopy stored) ::
    (ctx.superblock.fsinfoSector * ctx.superblock.bytesPerSector, infoblock stored) :: (0, superblock) :: stored.outfile
  /-- The info block does not replace the superblock. -/
  front : (Span.mk (infoSeek ctx) 512).Apart ⟨0, 512⟩
  clusters : ∀ cluster, IsCluster ctx cluster →
    seekCluster ctx cluster = clusterSector ctx cluster * ctx.superblock.bytesPerSector
  inside : ∀ cluster, IsCluster ctx cluster →
    (clusterSpan ctx cluster).Within ⟨0, ctx.superblock.sectors * ctx.superblock.bytesPerSector⟩
  apart : ∀ cluster other, IsCluster ctx cluster → IsCluster ctx other → cluster ≠ other →
    (clusterSpan ctx cluster).Apart (clusterSpan ctx other)
  apartFats : ∀ cluster, IsCluster ctx cluster → (clusterSpan ctx cluster).Apart
    ⟨fatSeek ctx, 2 * (ctx.superblock.sectorsPerFat * ctx.superblock.bytesPerSector)⟩
  apartInfo : ∀ cluster, IsCluster ctx cluster → (clusterSpan ctx cluster).Apart ⟨infoSeek ctx, 512⟩
  apartBoot : ∀ cluster, IsCluster ctx cluster → (clusterSpan ctx cluster).Apart ⟨0, 512⟩ ∧
    ∀ i, 1 ≤ i → i < boot → (clusterSpan ctx cluster).Apart
      ⟨512 + (i - 1) * ctx.superblock.bytesPerSector, ctx.superblock.bytesPerSector⟩

/-- The sectors in front of the info block; one without a file. -/
def frontSectors (options : Options) : Nat := options.boot.elim 1 (bootSectors options.sectorSize)

/-- Sectors have 512 bytes, the image is at most 4 GiB, and the boot sectors end in front of the
clusters. Neither the info block nor the first table gets the number zero as its sector. -/
structure Meets (options : Options) (ctx : Context) : Prop where
  sector : options.sectorSize = 512
  small : options.size ≤ 2 ^ 23
  few : ctx.clusters ≤ 2 ^ 23
  front : frontSectors options % 2 ^ 16 ≠ 0
  fits : frontSectors options % 2 ^ 16 ≠ 65535
  boot : frontSectors options ≤ ctx.superblock.reservedSectors + 2 * ctx.superblock.sectorsPerFat

variable {options : Options} {ctx : Context}

section

variable {superblock : Superblock}

/-- The loop ends with a table that fits the clusters that it leaves. -/
theorem fitFat_fits {rounds lastClusters sectorsPerFat clusters fat : Nat}
    (before : lastClusters = 0 ∨ sectorsPerFat = fatSectors superblock lastClusters)
    (fitted : fitFat superblock rounds lastClusters sectorsPerFat = some (clusters, fat)) (some : 0 < clusters) :
    fat = fatSectors superblock clusters ∧ clusters = clustersLeft superblock fat := by
  induction rounds generalizing lastClusters sectorsPerFat with
  | zero => exact nomatch fitted
  | succ rounds ih =>
    rw [fitFat] at fitted
    by_cases changed : clustersLeft superblock sectorsPerFat ≠ lastClusters
    · rw [if_pos changed] at fitted
      exact ih (.inr rfl) fitted
    · rw [if_neg changed] at fitted
      cases fitted
      rw [not_not] at changed
      rw [changed] at some ⊢
      refine ⟨rfl, ?_⟩
      rw [← before.resolve_left (by omega), changed]

/-- What is known of an image when the first input is stored. -/
structure Geometry (options : Options) (ctx : Context) : Prop where
  bytes : ctx.superblock.bytesPerSector = options.sectorSize
  one : ctx.superblock.sectorsPerCluster = 1
  sectors : ctx.superblock.sectors = options.size
  reserved : ctx.superblock.reservedSectors = (frontSectors options + 1) % 2 ^ 16
  info : ctx.superblock.fsinfoSector = frontSectors options % 2 ^ 16
  fat : ctx.superblock.sectorsPerFat = u32 ((4 * (ctx.clusters + 2) + options.sectorSize - 1) / options.sectorSize)
  left : ctx.clusters = u32Sub (u32Sub options.size ctx.superblock.reservedSectors) (u32 (ctx.superblock.sectorsPerFat * 2))
  start : ctx.dataStart = u32 (options.sectorSize *
    u32 (ctx.superblock.reservedSectors + u32 (ctx.superblock.sectorsPerFat * 2)))
  hint : ctx.lastAllocatedCluster = 1
  free : ctx.lastKnownFreeClusters = ctx.clusters
  table : ctx.fat = initialFat

/-- A number of sectors less one, added to a number of 16 bits. -/
theorem add_sectors (sectors number : Nat) : (number + 1 + u32Sub sectors 1) % 2 ^ 16 = (sectors + number) % 2 ^ 16 := by
  rw [u32Sub]
  omega

theorem create_geometry {rounds : Nat} (created : create rounds options = some ctx) (some : 0 < ctx.clusters) :
    Geometry options ctx := by
  cases options with
  | mk sectorSize size boot =>
    cases boot with
    | none =>
      obtain ⟨⟨clusters, fat⟩, fitted, rfl⟩ := map_eq_some_iff.mp created
      obtain ⟨tables, left⟩ := fitFat_fits (.inl rfl) fitted some
      exact ⟨rfl, rfl, rfl, rfl, rfl, tables, left.trans (Nat.div_one _), rfl, rfl, rfl, rfl⟩
    | some file =>
      obtain ⟨⟨clusters, fat⟩, fitted, rfl⟩ := map_eq_some_iff.mp created
      obtain ⟨tables, left⟩ := fitFat_fits (.inl rfl) fitted some
      exact ⟨rfl, rfl, rfl, add_sectors _ 1, add_sectors _ 0, tables, left.trans (Nat.div_one _), rfl, rfl, rfl, rfl⟩

/-- What is created is where storing begins. -/
theorem Geometry.initialized (geometry : Geometry options ctx) (accepted : Accepted options) : Initialized ctx := by
  refine ⟨?_, geometry.one, geometry.hint, geometry.free, ?_, ?_, geometry.table⟩
  · rw [geometry.bytes]
    exact accepted.1
  · rw [geometry.left]
    exact Nat.mod_lt _ (by decide)
  · rw [geometry.start]
    exact u32_lt _

theorem Geometry.clusterSize (geometry : Geometry options ctx) : clusterSize ctx = options.sectorSize := by
  rw [FatStorage.clusterSize, geometry.bytes, geometry.one, mul_one]

end

section

variable (geometry : Geometry options ctx) (accepted : Accepted options)
include geometry accepted

/-- The tables begin at a sector only if sectors have 512 bytes and the number of sectors in front fits. -/
theorem Geometry.fatSeek_iff : fatSeek ctx = ctx.superblock.reservedSectors * ctx.superblock.bytesPerSector ↔
    options.sectorSize = 512 ∧ frontSectors options % 2 ^ 16 ≠ 65535 := by
  have info := geometry.info
  have reserved := geometry.reserved
  rw [fatSeek, infoSeek, geometry.bytes, u32]
  rcases accepted.1 with small | large
  · rw [small]
    omega
  · rw [large]
    omega

/-- The last byte is that of the image only up to 4 GiB. -/
theorem Geometry.lastSeek_iff (sector : options.sectorSize = 512) :
    lastSeek ctx = ctx.superblock.sectors * ctx.superblock.bytesPerSector - 1 ↔ options.size ≤ 2 ^ 23 := by
  have size := accepted.2
  rw [lastSeek, geometry.bytes, geometry.sectors, sector, u32Sub, u32]
  omega

omit accepted in
/-- The info block is behind the superblock unless its sector is the first one. -/
theorem Geometry.front_iff (sector : options.sectorSize = 512) :
    (Span.mk (infoSeek ctx) 512).Apart ⟨0, 512⟩ ↔ frontSectors options % 2 ^ 16 ≠ 0 := by
  rw [infoSeek, geometry.bytes, geometry.info, sector, u32_of_lt (by omega)]
  constructor
  · intro apart none
    exact apart 0 (by simpa [Span.Holds] using none)
  · intro behind
    apply Span.apart_symm
    apply Span.apart_of_le
    dsimp only
    omega

/-- Few clusters leave room for the tables. -/
structure Roomy (options : Options) (ctx : Context) : Prop where
  sector : options.sectorSize = 512
  fat : 1 ≤ ctx.superblock.sectorsPerFat ∧ ctx.superblock.sectorsPerFat ≤ 65537
  whole : ctx.superblock.reservedSectors + 2 * ctx.superblock.sectorsPerFat + ctx.clusters = options.size
  start : ctx.dataStart = (ctx.superblock.reservedSectors + 2 * ctx.superblock.sectorsPerFat) * 512

theorem Geometry.roomy (sector : options.sectorSize = 512) (few : ctx.clusters ≤ 2 ^ 23) : Roomy options ctx := by
  have left := geometry.left
  have start := geometry.start
  have size := accepted.2
  have fat : 1 ≤ ctx.superblock.sectorsPerFat ∧ ctx.superblock.sectorsPerFat ≤ 65537 := by
    have computed := geometry.fat
    rw [sector, u32] at computed
    omega
  have reserved : ctx.superblock.reservedSectors < 65536 := by
    rw [geometry.reserved]
    exact Nat.mod_lt _ (by decide)
  rw [u32_of_lt (show ctx.superblock.sectorsPerFat * 2 < 2 ^ 32 by omega)] at left start
  rw [sector, u32_of_lt (show ctx.superblock.reservedSectors + ctx.superblock.sectorsPerFat * 2 < 2 ^ 32 by omega),
    u32_of_lt (by omega)] at start
  refine ⟨sector, fat, ?_, by omega⟩
  rw [u32Sub, u32Sub] at left
  omega

/-- The seek for a cluster is right exactly for the first 4 GiB. -/
theorem Geometry.seek_iff (sector : options.sectorSize = 512) (some : 0 < ctx.clusters) :
    (∀ cluster, IsCluster ctx cluster → seekCluster ctx cluster = clusterSector ctx cluster * 512) ↔ ctx.clusters ≤ 2 ^ 23 := by
  constructor
  · intro right
    -- The start is right, so the product for the last cluster is, and it has 32 bits.
    have startSmall := (geometry.initialized accepted).startSmall
    have first := right 2 ⟨le_refl 2, by omega⟩
    have last := right (ctx.clusters + 1) ⟨by omega, le_refl _⟩
    have product := u32_lt (FatStorage.clusterSize ctx * u32Sub (ctx.clusters + 1) 2)
    have nothing : u32 (FatStorage.clusterSize ctx * u32Sub 2 2) = 0 := by
      rw [show u32Sub 2 2 = 0 from rfl]
      rfl
    rw [seekCluster, nothing, u64_of_lt (by omega), clusterSector] at first
    rw [seekCluster, u64_of_lt (by omega), clusterSector] at last
    omega
  · intro few cluster isCluster
    obtain ⟨_, fat, whole, start⟩ := geometry.roomy accepted sector few
    have reserved := geometry.reserved
    have bounds := isCluster
    rw [IsCluster] at bounds
    rw [seekCluster, geometry.clusterSize, sector, u32Sub_of_le isCluster.1 (by omega), u32_of_lt (by omega), u64_of_lt
      (by omega), clusterSector]
    omega

end

/-- The seeks of `main` do not depend on what is stored. -/
theorem finish_same {stored : Context} (same : Same ctx stored) (superblock : List UInt8) :
    finish stored superblock = (lastSeek ctx, [0]) :: (secondFatSeek ctx, fatCopy stored) ::
    (fatSeek ctx, fatCopy stored) :: (infoSeek ctx, infoblock stored) :: (0, superblock) :: stored.outfile := by
  have info : infoSeek stored = infoSeek ctx := by
    rw [infoSeek, infoSeek, same.superblock]
  rw [finish, lastSeek, secondFatSeek, fatSeek, info, same.superblock]
  rfl

/-- Where the image is written to is right exactly under the condition. -/
theorem Geometry.laidOut_iff (geometry : Geometry options ctx) (accepted : Accepted options) (some : 0 < ctx.clusters) :
    LaidOut ctx (frontSectors options) ↔ Meets options ctx := by
  constructor
  · intro laidOut
    obtain ⟨last, listed⟩ := List.cons.inj (laidOut.written ctx [] (.refl ctx))
    have atSector : fatSeek ctx = ctx.superblock.reservedSectors * ctx.superblock.bytesPerSector := by
      have second := (List.cons.inj (List.cons.inj listed).2).1
      exact congrArg Prod.fst second
    obtain ⟨sector, fits⟩ := (geometry.fatSeek_iff accepted).mp atSector
    have bytes : ctx.superblock.bytesPerSector = 512 := geometry.bytes.trans sector
    have few : ctx.clusters ≤ 2 ^ 23 := by
      apply (geometry.seek_iff accepted sector some).mp
      intro cluster isCluster
      rw [laidOut.clusters cluster isCluster, bytes]
    have small := (geometry.lastSeek_iff accepted sector).mp (Prod.mk.inj last).1
    refine ⟨sector, small, few, (geometry.front_iff sector).mp laidOut.front, fits, ?_⟩
    by_contra long
    -- A boot sector is where the first cluster begins.
    have isCluster : IsCluster ctx 2 := ⟨Nat.le_refl 2, by omega⟩
    have begins := laidOut.clusters 2 isCluster
    have size : FatStorage.clusterSize ctx = 512 := geometry.clusterSize.trans sector
    have positive : 1 ≤ clusterSector ctx 2 := by
      have fat := (geometry.roomy accepted sector few).fat
      rw [clusterSector]
      omega
    have apart := (laidOut.apartBoot 2 isCluster).2 (clusterSector ctx 2) positive (by rw [clusterSector]; omega)
    rw [clusterSpan, begins, bytes] at apart
    refine apart (clusterSector ctx 2 * 512) ⟨⟨?_, ?_⟩, ⟨?_, ?_⟩⟩ <;> dsimp only <;> omega
  · rintro ⟨sector, small, few, front, fits, boot⟩
    have bytes : ctx.superblock.bytesPerSector = 512 := geometry.bytes.trans sector
    have size : FatStorage.clusterSize ctx = 512 := geometry.clusterSize.trans sector
    have tables := (geometry.fatSeek_iff accepted).mpr ⟨sector, fits⟩
    have seeks := (geometry.seek_iff accepted sector some).mpr few
    obtain ⟨_, fat, whole, start⟩ := geometry.roomy accepted sector few
    have info : infoSeek ctx = ctx.superblock.fsinfoSector * ctx.superblock.bytesPerSector := by
      have number := geometry.info
      rw [infoSeek, bytes, u32_of_lt (by omega), Nat.mul_comm]
    have span (cluster : Nat) (isCluster : IsCluster ctx cluster) :
        clusterSpan ctx cluster = ⟨clusterSector ctx cluster * 512, 512⟩ := by
      rw [clusterSpan, seeks cluster isCluster, size]
    -- What ends with the tables is in front of every cluster.
    have behind {cluster : Nat} {other : Span} (ends : other.first + other.count ≤
        (ctx.superblock.reservedSectors + 2 * ctx.superblock.sectorsPerFat) * 512) :
        (Span.mk (clusterSector ctx cluster * 512) 512).Apart other := by
      apply Span.apart_symm
      apply Span.apart_of_le
      exact Nat.le_trans ends (Nat.mul_le_mul_right 512 (Nat.le_add_right _ _))
    refine ⟨?_, (geometry.front_iff sector).mpr front, ?_, ?_, ?_, ?_, ?_, ?_⟩
    · intro stored superblock same
      have second : secondFatSeek ctx =
          (ctx.superblock.reservedSectors + ctx.superblock.sectorsPerFat) * ctx.superblock.bytesPerSector := by
        rw [secondFatSeek, tables, Nat.add_mul]
      rw [finish_same same, (geometry.lastSeek_iff accepted sector).mpr small, second, tables, info]
    · intro cluster isCluster
      rw [bytes]
      exact seeks cluster isCluster
    · intro cluster isCluster
      have sectors := geometry.sectors
      rw [IsCluster] at isCluster
      rw [span cluster isCluster, bytes, clusterSector]
      constructor
      · exact Nat.zero_le _
      · dsimp only
        omega
    · intro cluster other isCluster otherCluster different
      rw [span cluster isCluster, span other otherCluster]
      have ordered {left right : Nat} (real : 2 ≤ left) (less : left < right) :
          clusterSector ctx left * 512 + 512 ≤ clusterSector ctx right * 512 := by
        rw [clusterSector, clusterSector]
        omega
      rcases Nat.lt_or_gt_of_ne different with less | greater
      · exact Span.apart_of_le (ordered isCluster.1 less)
      · exact Span.apart_symm (Span.apart_of_le (ordered otherCluster.1 greater))
    · intro cluster isCluster
      rw [span cluster isCluster, tables, bytes]
      apply behind
      dsimp only
      omega
    · intro cluster isCluster
      have number := geometry.info
      have reserved := geometry.reserved
      rw [span cluster isCluster, info, bytes]
      apply behind
      dsimp only
      omega
    · intro cluster isCluster
      rw [span cluster isCluster, bytes]
      constructor
      · apply behind
        dsimp only
        omega
      · intro i positive inFront
        apply behind
        dsimp only
        omega

/-- For all options that are accepted and leave a cluster: the image is laid out as its superblock
says exactly if sectors have 512 bytes, the image is at most 4 GiB, the boot sectors end in front of
the clusters, and neither the info block nor the first table gets the number zero as its sector. -/
theorem laid_out_iff {rounds : Nat} (accepted : Accepted options) (created : create rounds options = some ctx)
    (some : 0 < ctx.clusters) : LaidOut ctx (frontSectors options) ↔ Meets options ctx :=
  (create_geometry created some).laidOut_iff accepted some

/-- The default size, without boot sectors. -/
theorem laid_out_iff_default : ∃ ctx, create 8 ⟨512, 131072, none⟩ = some ctx ∧ LaidOut ctx 1 := by
  have computed : (create 8 ⟨512, 131072, none⟩).map (fun ctx => (ctx.clusters, ctx.superblock)) =
      some (129052, ⟨512, 1, 2, 131072, 1009, 1⟩) := by decide
  obtain ⟨ctx, created, facts⟩ := map_eq_some_iff.mp computed
  obtain ⟨clusters, superblock⟩ := Prod.mk.inj facts
  refine ⟨ctx, created, (laid_out_iff ⟨.inl rfl, by decide⟩ created (by omega)).mpr ⟨rfl, by decide, by omega, by decide, by decide, ?_⟩⟩
  rw [superblock]
  decide

/-- Sectors of 4096 bytes: the first table is written to byte 4608, and should begin at byte 8192. -/
theorem large_sectors_misplaced : ∃ ctx, create 8 ⟨4096, 32, none⟩ = some ctx ∧ 0 < ctx.clusters ∧
    fatSeek ctx = 4608 ∧ ctx.superblock.reservedSectors * ctx.superblock.bytesPerSector = 8192 := by
  have computed : (create 8 ⟨4096, 32, none⟩).map (fun ctx => (ctx.clusters, fatSeek ctx,
      ctx.superblock.reservedSectors * ctx.superblock.bytesPerSector)) = some (28, 4608, 8192) := by decide
  obtain ⟨ctx, created, facts⟩ := map_eq_some_iff.mp computed
  obtain ⟨clusters, facts⟩ := Prod.mk.inj facts
  obtain ⟨seek, sector⟩ := Prod.mk.inj facts
  exact ⟨ctx, created, by omega, seek, sector⟩

end Lfos.FatLayout
