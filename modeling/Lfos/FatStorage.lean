import Lfos.FileWrites
import Lfos.Words

/-!
# The file system image writer: clusters and chains

Data are stored in clusters, and the allocation table links the clusters of one chain. A cluster is
free while its entry is zero; the search for one begins at the last cluster that was allocated. A
chain that exists is rewritten in place. A file is stored in pieces of one cluster each, which are
linked afterwards.

The table has an entry for every cluster and two more, and is a function of the index here. When
there is no free cluster the program exits, which is no result. Opening and reading files is left out:
a file is its bytes.
-/

namespace Lfos.FatStorage

open FileWrites Words

/-- The fields of `struct superblock` that tell where things are. -/
structure Superblock where
  bytesPerSector : Nat
  sectorsPerCluster : Nat
  reservedSectors : Nat
  sectors : Nat
  sectorsPerFat : Nat
  fsinfoSector : Nat
  deriving DecidableEq, Repr

/-- `context`, with the counters of the info block in place. -/
structure Context where
  outfile : Writes UInt8
  superblock : Superblock
  lastKnownFreeClusters : Nat
  lastAllocatedCluster : Nat
  fat : Nat → Nat
  clusters : Nat
  dataStart : Nat

/-- The entry of the last cluster of a chain. -/
def endMarker : Nat := 0x0FFFFFF8

def findFreeCluster (ctx : Context) : Option Nat :=
  let limit := u32 (ctx.clusters + 2)
  ((List.range' ctx.lastAllocatedCluster (limit - ctx.lastAllocatedCluster)).find? (fun cluster => ctx.fat cluster = 0)).or
    ((List.range limit).find? (fun cluster => ctx.fat cluster = 0))

def clusterSize (ctx : Context) : Nat := ctx.superblock.bytesPerSector * ctx.superblock.sectorsPerCluster

/-- A buffer of zeros with some bytes copied to its start. -/
def padded (size : Nat) (bytes : List UInt8) : List UInt8 := bytes ++ List.replicate (size - bytes.length) 0

/-- What is in `cluster_data` in round `i`. -/
def clusterData (size : Nat) (data : List UInt8) (i : Nat) : List UInt8 :=
  let offset := u32 (i * size)
  let amount := u64Sub data.length offset
  padded size ((data.drop offset).take (if amount > size then size else amount))

/-- The entry of a free cluster becomes an end marker. -/
def claim (ctx : Context) (cluster : Nat) : Context :=
  if ctx.fat cluster = 0 then
    { ctx with
      lastAllocatedCluster := cluster
      lastKnownFreeClusters := u32Sub ctx.lastKnownFreeClusters 1
      fat := Function.update ctx.fat cluster endMarker }
  else ctx

def link (ctx : Context) (previous cluster : Nat) : Context :=
  if previous ≠ 0 then { ctx with fat := Function.update ctx.fat previous cluster } else ctx

/-- The seek before a cluster is written; the product has 32 bits. -/
def seekCluster (ctx : Context) (cluster : Nat) : Nat :=
  u64 (ctx.dataStart + u32 (clusterSize ctx * u32Sub cluster 2))

def writeCluster (ctx : Context) (cluster : Nat) (bytes : List UInt8) : Context :=
  { ctx with outfile := (seekCluster ctx cluster, bytes) :: ctx.outfile }

/-- One round of the loop of `store_data` up to the choice of the next cluster. -/
def place (ctx : Context) (previous current : Nat) (bytes : List UInt8) : Context :=
  writeCluster (link (claim ctx current) previous current) current bytes

def nextCluster (ctx : Context) (start current : Nat) : Option Nat :=
  let next := if start ≠ 0 then ctx.fat current else 0
  if next = 0 ∨ next = endMarker then findFreeCluster ctx else some next

/-- The loop of `store_data`, with the number of rounds that are left. -/
def storeFrom (data : List UInt8) (start : Nat) : Nat → Context → Nat → Nat → Nat → Option Context
  | 0, ctx, _, _, _ => some ctx
  | remaining + 1, ctx, previous, current, i =>
    let placed := place ctx previous current (clusterData (clusterSize ctx) data i)
    if remaining = 0 then some placed
    else (nextCluster placed start current).bind (fun next => storeFrom data start remaining placed current next (i + 1))

/-- The first cluster and the context afterwards. -/
def storeData (ctx : Context) (data : List UInt8) (start : Nat) : Option (Context × Nat) :=
  let clusters := u32 (u64 (data.length + clusterSize ctx - 1) / clusterSize ctx)
  (if start ≠ 0 then some start else findFreeCluster ctx).bind (fun first =>
    (storeFrom data start clusters ctx 0 first 0).map (fun ctx => (ctx, first)))

/-- The number of clusters that some bytes take. -/
def clustersOf (size bytes : Nat) : Nat := (bytes + size - 1) / size

/-- A part of some data of the size of a cluster, filled up with zeros. -/
def pieceOf (size : Nat) (data : List UInt8) (i : Nat) : List UInt8 := padded size ((data.drop (i * size)).take size)

/-- One round of `store_file`, with the first and the last cluster so far. -/
def storePiece (file : List UInt8) (state : Context × Nat × Nat) (i : Nat) : Option (Context × Nat × Nat) :=
  (storeData state.1 (pieceOf (clusterSize state.1) file i) 0).map (fun result =>
    (link result.1 state.2.2 result.2, if state.2.1 = 0 then result.2 else state.2.1, result.2))

/-- The pieces are what is read one after another until nothing is left. -/
def storeFile (ctx : Context) (file : List UInt8) : Option (Context × Nat) :=
  ((List.range (clustersOf (clusterSize ctx) file.length)).foldlM (storePiece file) (ctx, 0, 0)).map
    (fun result => (result.1, result.2.1))

end Lfos.FatStorage
