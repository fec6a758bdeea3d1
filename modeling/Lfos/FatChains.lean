import Lfos.FatStorage

/-!
# Chains of clusters

No cluster is ever freed. So the clusters that are in use are the first ones, the hint is the last of
them, and what is stored takes the clusters behind it one after another. This gives the links of the
table, the counter, and the contents of the clusters.

The position of a cluster in the image and the offset in the data are products of 32 bits. They are
right as long as the clusters in use are no more than 4 GiB.
-/

namespace Lfos.FatChains

open FileWrites FatStorage Words List Option Function

/-- The clusters from one on up to the end marker. -/
def follow (fat : Nat → Nat) : Nat → Nat → Option (List Nat)
  | 0, cluster => if cluster = endMarker then some [] else none
  | steps + 1, cluster =>
    if cluster = endMarker then some [] else (follow fat steps (fat cluster)).map (cluster :: ·)

/-- Where a cluster is in the image. -/
def clusterStart (ctx : Context) (cluster : Nat) : Nat := ctx.dataStart + clusterSize ctx * (cluster - 2)

def clusterBytes (ctx : Context) (cluster : Nat) : List UInt8 := extract 0 ctx.outfile (clusterStart ctx cluster) (clusterSize ctx)

def freeEntries (ctx : Context) : Nat := (range' 2 ctx.clusters).countP (fun cluster => ctx.fat cluster = 0)

variable {first used count : Nat} {ctx after between : Context} {data : List UInt8}

section

variable {size : Nat}

theorem padded_length (bytes : List UInt8) (fits : bytes.length ≤ size) : (padded size bytes).length = size := by
  rw [padded, length_append, length_replicate]
  omega

theorem pieceOf_length (data : List UInt8) (i : Nat) : (pieceOf size data i).length = size :=
  padded_length _ (length_take_le _ _)

theorem pieceOf_succ (data : List UInt8) (i : Nat) : pieceOf size data (i + 1) = pieceOf size (data.drop size) i := by
  rw [pieceOf, pieceOf, drop_drop, Nat.succ_mul, add_comm]

/-- The pieces one after another are the data and zeros behind them. -/
theorem flatMap_pieces (count : Nat) (data : List UInt8) (enough : data.length ≤ count * size) :
    (range count).flatMap (pieceOf size data) = data ++ replicate (count * size - data.length) 0 := by
  induction count generalizing data with
  | zero =>
    have none : data.length = 0 := by omega
    rw [length_eq_zero_iff] at none
    simp [none]
  | succ count ih =>
    have product : (count + 1) * size = count * size + size := Nat.succ_mul count size
    have rest := ih (data.drop size) (by rw [length_drop]; omega)
    have shifted : (range (count + 1)).flatMap (pieceOf size data) =
        pieceOf size data 0 ++ (range count).flatMap (pieceOf size (data.drop size)) := by
      rw [range_succ_eq_map, flatMap_cons, flatMap_map]
      simp only [Nat.succ_eq_add_one, pieceOf_succ]
    rw [shifted, rest, pieceOf, zero_mul, drop_zero, padded, length_drop, length_take]
    by_cases short : data.length ≤ size
    · rw [take_of_length_le short, drop_of_length_le short, nil_append, append_assoc, replicate_append_replicate]
      congr 2
      omega
    · have full : size - min size data.length = 0 := by omega
      rw [full, replicate_zero, append_nil, ← append_assoc, take_append_drop]
      congr 2
      omega

/-- The clusters are enough for the bytes. -/
theorem clustersOf_enough (positive : 0 < size) (bytes : Nat) : bytes ≤ clustersOf size bytes * size := by
  have division := Nat.div_add_mod (bytes + size - 1) size
  have remainder := Nat.mod_lt (bytes + size - 1) positive
  rw [clustersOf, mul_comm]
  omega

variable {i : Nat}

/-- No cluster is without a byte. -/
theorem clustersOf_tight {bytes : Nat} (positive : 0 < size) (inside : i < clustersOf size bytes) : i * size < bytes := by
  have product : (i + 1) * size ≤ bytes + size - 1 := (Nat.le_div_iff_mul_le positive).mp inside
  rw [Nat.succ_mul] at product
  omega

theorem clustersOf_pos {data : List UInt8} (positive : 0 < size) (some : data ≠ []) : 0 < clustersOf size data.length := by
  have bytes := length_pos_iff.mpr some
  exact Nat.div_pos (by omega) positive

theorem clustersOf_whole (positive : 0 < size) : clustersOf size size = 1 := by
  rw [clustersOf, Nat.div_eq_of_lt_le]
  · omega
  · omega

/-- What is copied in a round is a piece of the data. -/
theorem clusterData_eq {data : List UInt8} (small : i * size < 2 ^ 32) (inside : i * size ≤ data.length)
    (bounded : data.length < 2 ^ 64) : clusterData size data i = pieceOf size data i := by
  have amount : u64Sub data.length (i * size) = (data.drop (i * size)).length := by
    rw [u64Sub_of_le inside bounded, length_drop]
  rw [clusterData, u32_of_lt small, amount, pieceOf]
  split
  · rfl
  · next few => rw [take_length, take_of_length_le (not_lt.mp few)]

end

section

/-- The clusters that are in use are the first ones, and the hint is the last of them. -/
structure Occupied (ctx : Context) (used : Nat) : Prop where
  hint : ctx.lastAllocatedCluster = used + 1
  taken : ∀ cluster < used + 2, ctx.fat cluster ≠ 0
  unused : ∀ cluster ≥ used + 2, ctx.fat cluster = 0
  free : ctx.lastKnownFreeClusters = ctx.clusters - used
  fits : used ≤ ctx.clusters
  small : ctx.clusters < 2 ^ 32

variable (occupied : Occupied ctx used)
include occupied

/-- The first cluster behind those in use is found. -/
theorem Occupied.findFreeCluster :
    findFreeCluster ctx = if used + 2 < u32 (ctx.clusters + 2) then some (used + 2) else none := by
  have hintTaken := occupied.taken (used + 1) (by omega)
  rw [FatStorage.findFreeCluster, occupied.hint]
  generalize u32 (ctx.clusters + 2) = limit
  by_cases room : used + 2 < limit
  · obtain ⟨rest, rfl⟩ : ∃ rest, limit = used + 1 + (rest + 2) := ⟨limit - (used + 3), by omega⟩
    rw [if_pos room, Nat.add_sub_cancel_left, range'_succ, range'_succ]
    simp [hintTaken, occupied.unused (used + 2) (le_refl _)]
  · have hintOnly : (range' (used + 1) (limit - (used + 1))).find? (fun cluster => ctx.fat cluster = 0) = none := by
      rw [find?_eq_none]
      intro cluster member
      have bounds := mem_range'_1.mp member
      simpa using occupied.taken cluster (by omega)
    have noneAtAll : (range limit).find? (fun cluster => ctx.fat cluster = 0) = none := by
      rw [find?_eq_none]
      intro cluster member
      have bound := mem_range.mp member
      simpa using occupied.taken cluster (by omega)
    rw [if_neg room, hintOnly, noneAtAll]
    rfl

theorem Occupied.found (found : FatStorage.findFreeCluster ctx = some cluster) :
    cluster = used + 2 ∧ used < ctx.clusters := by
  rw [occupied.findFreeCluster, ite_none_right_eq_some] at found
  have limit : u32 (ctx.clusters + 2) ≤ ctx.clusters + 2 := Nat.mod_le _ _
  exact ⟨(some.inj found.2).symm, by omega⟩

theorem Occupied.finds (room : used < ctx.clusters) (small : ctx.clusters + 2 < 2 ^ 32) :
    FatStorage.findFreeCluster ctx = some (used + 2) := by
  rw [occupied.findFreeCluster, u32_of_lt small, if_pos (by omega)]

/-- All entries behind those in use are free. -/
theorem Occupied.freeEntries : freeEntries ctx = ctx.clusters - used := by
  have split : range' 2 ctx.clusters = range' 2 used ++ range' (2 + used) (ctx.clusters - used) := by
    rw [range'_append_1, Nat.add_sub_cancel' occupied.fits]
  have front : (range' 2 used).countP (fun cluster => ctx.fat cluster = 0) = 0 := by
    rw [countP_eq_zero]
    intro cluster member
    have bounds := mem_range'_1.mp member
    simpa using occupied.taken cluster (by omega)
  have back : (range' (2 + used) (ctx.clusters - used)).countP (fun cluster => ctx.fat cluster = 0) =
      ctx.clusters - used := by
    rw [countP_eq_length.mpr, length_range']
    intro cluster member
    have bounds := mem_range'_1.mp member
    simpa using occupied.unused cluster (by omega)
  rw [FatChains.freeEntries, split, countP_append, front, back, zero_add]

end

section

variable {previous : Nat} {bytes : List UInt8}

/-- Nothing but the table, the counters and the image changes. -/
structure Same (ctx after : Context) : Prop where
  superblock : after.superblock = ctx.superblock
  clusters : after.clusters = ctx.clusters
  dataStart : after.dataStart = ctx.dataStart

theorem Same.refl (ctx : Context) : Same ctx ctx := ⟨rfl, rfl, rfl⟩

theorem Same.trans (first : Same ctx between) (second : Same between after) : Same ctx after :=
  ⟨second.superblock.trans first.superblock, second.clusters.trans first.clusters, second.dataStart.trans first.dataStart⟩

theorem Same.clusterSize (same : Same ctx after) : clusterSize after = clusterSize ctx := by
  rw [FatStorage.clusterSize, FatStorage.clusterSize, same.superblock]

theorem Same.clusterStart (same : Same ctx after) (cluster : Nat) : clusterStart after cluster = clusterStart ctx cluster := by
  rw [FatChains.clusterStart, FatChains.clusterStart, same.clusterSize, same.dataStart]

theorem claim_same (ctx : Context) (cluster : Nat) : Same ctx (claim ctx cluster) := by
  rw [claim]
  split
  · exact ⟨rfl, rfl, rfl⟩
  · exact .refl ctx

theorem link_same (ctx : Context) (previous cluster : Nat) : Same ctx (link ctx previous cluster) := by
  rw [link]
  split
  · exact ⟨rfl, rfl, rfl⟩
  · exact .refl ctx

theorem place_same (ctx : Context) (previous current : Nat) (bytes : List UInt8) : Same ctx (place ctx previous current bytes) := by
  have linked := (claim_same ctx current).trans (link_same (claim ctx current) previous current)
  exact linked.trans ⟨rfl, rfl, rfl⟩

/-- Two clusters do not overlap. -/
theorem clusterStart_apart (ctx : Context) {other : Nat} (real : 2 ≤ cluster) (otherReal : 2 ≤ other)
    (different : cluster ≠ other) : clusterStart ctx cluster + clusterSize ctx ≤ clusterStart ctx other ∨
    clusterStart ctx other + clusterSize ctx ≤ clusterStart ctx cluster := by
  have ordered {low high : Nat} (less : low + 1 ≤ high) :
      clusterSize ctx * low + clusterSize ctx ≤ clusterSize ctx * high := by
    exact Nat.mul_le_mul_left _ less
  rw [FatChains.clusterStart, FatChains.clusterStart]
  rcases Nat.lt_or_gt_of_ne different with less | greater
  · have step := ordered (show (cluster - 2) + 1 ≤ other - 2 by omega)
    omega
  · have step := ordered (show (other - 2) + 1 ≤ cluster - 2 by omega)
    omega

/-- The products of 32 bits are right for some clusters in use. -/
structure Small (ctx : Context) (used : Nat) : Prop where
  start : ctx.dataStart < 2 ^ 32
  sector : 512 ≤ clusterSize ctx
  page : clusterSize ctx ≤ 4096
  product : used * clusterSize ctx ≤ 2 ^ 32

section

variable (small : Small ctx used)
include small

theorem Small.few : used ≤ 2 ^ 23 := by
  have product := small.product
  have scaled : used * 512 ≤ used * clusterSize ctx := Nat.mul_le_mul_left used small.sector
  omega

theorem Small.below {fewer : Nat} (less : fewer < used) : clusterSize ctx * fewer < 2 ^ 32 := by
  have scaled : clusterSize ctx * (fewer + 1) ≤ clusterSize ctx * used := Nat.mul_le_mul_left _ less
  have product := small.product
  have sector := small.sector
  rw [Nat.mul_succ] at scaled
  rw [mul_comm] at product
  omega

theorem Small.le {fewer : Nat} (less : fewer ≤ used) : Small ctx fewer :=
  ⟨small.start, small.sector, small.page, le_trans (Nat.mul_le_mul_right _ less) small.product⟩

theorem Small.of_same (same : Same ctx after) : Small after used :=
  ⟨same.dataStart ▸ small.start, same.clusterSize ▸ small.sector, same.clusterSize ▸ small.page,
    same.clusterSize ▸ small.product⟩

/-- The seek is right for the clusters in use. -/
theorem Small.seekCluster (real : 2 ≤ cluster) (inside : cluster < used + 2) :
    seekCluster ctx cluster = clusterStart ctx cluster := by
  have few := small.few
  have start := small.start
  have product : clusterSize ctx * (cluster - 2) < 2 ^ 32 := small.below (by omega)
  rw [FatStorage.seekCluster, u32Sub_of_le real (by omega), u32_of_lt product, u64_of_lt (by omega), clusterStart]

/-- A cluster that is written holds what is written, and all others what they did. -/
theorem Small.written (same : Same ctx after) (written : after.outfile = (FatStorage.seekCluster ctx current, bytes) :: ctx.outfile)
    (real : 2 ≤ current) (inside : current < used + 2) (whole : bytes.length = clusterSize ctx) (otherReal : 2 ≤ cluster) :
    clusterBytes after cluster = if cluster = current then bytes else clusterBytes ctx cluster := by
  rw [clusterBytes, same.clusterSize, same.clusterStart, written, small.seekCluster real inside]
  split
  · next here =>
    rw [here, ← whole]
    exact extract_written
  · next elsewhere =>
    apply extract_apart
    rw [whole]
    exact clusterStart_apart ctx otherReal real elsewhere

end

theorem place_outfile (ctx : Context) (previous current : Nat) (bytes : List UInt8) :
    (place ctx previous current bytes).outfile = (seekCluster ctx current, bytes) :: ctx.outfile := by
  have same := (claim_same ctx current).trans (link_same (claim ctx current) previous current)
  have kept : (link (claim ctx current) previous current).outfile = ctx.outfile := by
    rw [link, claim]
    split <;> split <;> rfl
  rw [place, writeCluster, seekCluster, seekCluster, same.clusterSize, same.dataStart, kept]

/-- A new cluster is the last one of a chain. -/
theorem Occupied.place_fat (occupied : Occupied ctx used) (before : previous < used + 2) (cluster : Nat) :
    (place ctx previous (used + 2) bytes).fat cluster =
    if cluster = used + 2 then endMarker else if previous ≠ 0 ∧ cluster = previous then used + 2 else ctx.fat cluster := by
  have free := occupied.unused (used + 2) (le_refl _)
  rw [place, writeCluster, claim, if_pos free, link]
  by_cases first : previous = 0
  · simp [first, update_apply]
  · by_cases new : cluster = used + 2
    · simp [first, new, show used + 2 ≠ previous by omega]
    · simp [first, new, update_apply]

theorem Occupied.place (occupied : Occupied ctx used) (before : previous < used + 2) (room : used < ctx.clusters) :
    Occupied (place ctx previous (used + 2) bytes) (used + 1) := by
  have free := occupied.unused (used + 2) (le_refl _)
  have same := place_same ctx previous (used + 2) bytes
  have hint : (FatStorage.place ctx previous (used + 2) bytes).lastAllocatedCluster = used + 2 := by
    rw [FatStorage.place, claim, link]
    split <;> rfl
  have counter : (FatStorage.place ctx previous (used + 2) bytes).lastKnownFreeClusters = u32Sub ctx.lastKnownFreeClusters 1 := by
    rw [FatStorage.place, claim, link]
    split <;> rfl
  have small := occupied.small
  refine ⟨hint, ?_, ?_, ?_, ?_, ?_⟩
  · intro cluster below
    rw [occupied.place_fat before]
    by_cases new : cluster = used + 2
    · rw [if_pos new]
      decide
    · rw [if_neg new]
      split
      · omega
      · exact occupied.taken cluster (by omega)
  · intro cluster above
    rw [occupied.place_fat before, if_neg (by omega), if_neg (by omega)]
    exact occupied.unused cluster (by omega)
  · rw [counter, occupied.free, u32Sub_of_le (by omega) (by omega), same.clusters]
    omega
  · rw [same.clusters]
    exact room
  · rw [same.clusters]
    exact small

end

section

variable {piece : Nat → List UInt8}

/-- Some clusters in a row are filled. -/
structure Filled (ctx : Context) (first count : Nat) (piece : Nat → List UInt8) (after : Context) : Prop where
  same : Same ctx after
  bytes : ∀ cluster, 2 ≤ cluster → clusterBytes after cluster =
    if first ≤ cluster ∧ cluster < first + count then piece (cluster - first) else clusterBytes ctx cluster

theorem Filled.none (ctx : Context) (first : Nat) (piece : Nat → List UInt8) : Filled ctx first 0 piece ctx :=
  ⟨.refl ctx, fun cluster _ => (if_neg (by omega)).symm⟩

/-- The next cluster is written. -/
theorem Filled.next (filled : Filled ctx first count piece between) (same : Same between after)
    (written : after.outfile = (seekCluster between (first + count), piece count) :: between.outfile)
    (small : Small ctx used) (real : 2 ≤ first) (inside : first + count < used + 2)
    (whole : (piece count).length = clusterSize ctx) : Filled ctx first (count + 1) piece after := by
  refine ⟨filled.same.trans same, fun cluster otherReal => ?_⟩
  rw [(small.of_same filled.same).written same written (by omega) inside (whole.trans filled.same.clusterSize.symm) otherReal,
    filled.bytes cluster otherReal]
  by_cases here : cluster = first + count
  · rw [if_pos here, if_pos (by omega), here, Nat.add_sub_cancel_left]
  · rw [if_neg here]
    exact if_congr (by omega) rfl rfl

/-- A chain of the clusters behind those in use. -/
structure Extended (ctx : Context) (used count : Nat) (piece : Nat → List UInt8) (after : Context) : Prop
    extends Filled ctx (used + 2) count piece after where
  occupied : Occupied after (used + count)
  fat : ∀ cluster, after.fat cluster =
    if used + 2 ≤ cluster ∧ cluster < used + 2 + count then
      if cluster + 1 = used + 2 + count then endMarker else cluster + 1
    else ctx.fat cluster

theorem Extended.refl (occupied : Occupied ctx used) (piece : Nat → List UInt8) : Extended ctx used 0 piece ctx :=
  ⟨.none ctx _ piece, occupied, fun cluster => (if_neg (by omega)).symm⟩

/-- The cluster before the next one of the chain. -/
def lastOf (used count : Nat) : Nat := if count = 0 then 0 else used + 1 + count

theorem lastOf_succ (used count : Nat) : lastOf used (count + 1) = used + count + 2 := by
  rw [lastOf, if_neg (Nat.succ_ne_zero count)]
  omega

/-- One more cluster at the end of the chain. -/
theorem Extended.place (extended : Extended ctx used count piece between) (small : Small ctx (used + count + 1))
    (room : used + count < ctx.clusters) (whole : (piece count).length = clusterSize ctx) :
    Extended ctx used (count + 1) piece (place between (lastOf used count) (used + count + 2) (piece count)) := by
  have before : lastOf used count < used + count + 2 := by
    rw [lastOf]
    split <;> omega
  refine ⟨extended.next (place_same ..) ?_ small (by omega) (by omega) whole,
    extended.occupied.place before (extended.same.clusters ▸ room), ?_⟩
  · rw [place_outfile, Nat.add_right_comm]
  · intro cluster
    rw [extended.occupied.place_fat before, extended.fat, lastOf]
    grind

section

variable {total : Nat} (small : Small ctx (used + total)) (extended : Extended ctx used count piece between)
  (rounds : count + remaining = total) (copied : ∀ i < total, clusterData (clusterSize ctx) data i = piece i)
  (whole : ∀ i, (piece i).length = clusterSize ctx)
include small extended rounds copied whole

/-- The loop of `store_data` adds cluster after cluster, as long as there is room. -/
theorem storeFrom_cases (room : used + count < ctx.clusters) :
    (∃ after, storeFrom data 0 remaining between (lastOf used count) (used + count + 2) count = some after ∧
    Extended ctx used total piece after) ∨
    storeFrom data 0 remaining between (lastOf used count) (used + count + 2) count = none ∧
    ¬ (used + total ≤ ctx.clusters ∧ ctx.clusters + 2 < 2 ^ 32) := by
  induction remaining generalizing between count with
  | zero => exact .inl ⟨between, rfl, rounds ▸ extended⟩
  | succ remaining ih =>
    have placed := extended.place (small.le (by omega)) room (whole count)
    rw [storeFrom, extended.same.clusterSize, copied count (by omega)]
    by_cases last : remaining = 0
    · subst last
      exact .inl ⟨_, rfl, rounds ▸ placed⟩
    · have next : nextCluster (place between (lastOf used count) (used + count + 2) (piece count)) 0 (used + count + 2) =
          findFreeCluster _ := rfl
      simp only [if_neg last, next]
      cases found : findFreeCluster (place between (lastOf used count) (used + count + 2) (piece count)) with
      | some cluster =>
        obtain ⟨rfl, more⟩ := placed.occupied.found found
        have onwards := ih placed (by omega) (placed.same.clusters ▸ more)
        rwa [lastOf_succ] at onwards
      | none =>
        refine .inr ⟨rfl, ?_⟩
        rintro ⟨enough, bounded⟩
        rw [placed.occupied.finds (placed.same.clusters ▸ (by omega)) (placed.same.clusters ▸ bounded)] at found
        exact nomatch found

end

/-- The number of rounds for data that fit. -/
theorem Small.rounds (small : Small ctx (clustersOf (clusterSize ctx) data.length)) :
    u32 (u64 (data.length + clusterSize ctx - 1) / clusterSize ctx) = clustersOf (clusterSize ctx) data.length := by
  have sector := small.sector
  have page := small.page
  have product := small.product
  have few := small.few
  have enough : data.length ≤ clustersOf (clusterSize ctx) data.length * clusterSize ctx := clustersOf_enough (by omega) _
  rw [u64_of_lt (by omega), ← clustersOf, u32_of_lt (by omega)]

theorem Small.copied (small : Small ctx (clustersOf (clusterSize ctx) data.length)) (i : Nat)
    (inside : i < clustersOf (clusterSize ctx) data.length) :
    clusterData (clusterSize ctx) data i = pieceOf (clusterSize ctx) data i := by
  have sector := small.sector
  have product := small.product
  have offset := small.below inside
  have tight := clustersOf_tight (by omega) inside
  have enough : data.length ≤ clustersOf (clusterSize ctx) data.length * clusterSize ctx := clustersOf_enough (by omega) _
  rw [mul_comm] at offset
  exact clusterData_eq offset (le_of_lt tight) (by omega)

/-- New data become a chain behind the clusters in use, if there is room for them. -/
theorem storeData_cases (occupied : Occupied ctx used)
    (small : Small ctx (used + clustersOf (clusterSize ctx) data.length)) :
    (∃ after, storeData ctx data 0 = some (after, used + 2) ∧
    Extended ctx used (clustersOf (clusterSize ctx) data.length) (pieceOf (clusterSize ctx) data) after) ∨
    storeData ctx data 0 = none ∧ ¬ (used < ctx.clusters ∧
    used + clustersOf (clusterSize ctx) data.length ≤ ctx.clusters ∧ ctx.clusters + 2 < 2 ^ 32) := by
  have own := small.le (Nat.le_add_left _ used)
  have start : storeData ctx data 0 = (findFreeCluster ctx).bind (fun first =>
      (storeFrom data 0 (clustersOf (clusterSize ctx) data.length) ctx 0 first 0).map (fun ctx => (ctx, first))) := by
    rw [storeData, own.rounds]
    rfl
  rw [start]
  cases found : findFreeCluster ctx with
  | none =>
    refine .inr ⟨rfl, ?_⟩
    rintro ⟨room, _, bounded⟩
    rw [occupied.finds room bounded] at found
    exact nomatch found
  | some first =>
    obtain ⟨rfl, room⟩ := occupied.found found
    rcases storeFrom_cases small (Extended.refl occupied _) (zero_add _) own.copied (pieceOf_length data) room with
      ⟨after, looped, extended⟩ | ⟨full, narrow⟩
    · refine .inl ⟨after, ?_, extended⟩
      rw [bind_some, show storeFrom data 0 _ ctx 0 (used + 2) 0 = some after from looped]
      rfl
    · refine .inr ⟨?_, fun enough => narrow enough.2⟩
      rw [bind_some, show storeFrom data 0 _ ctx 0 (used + 2) 0 = none from full]
      rfl

/-- A chain that is linked afterwards is the same. -/
theorem link_place (ctx : Context) (previous current : Nat) (bytes : List UInt8) :
    link (place ctx 0 current bytes) previous current = place ctx previous current bytes := by
  simp only [place, link, writeCluster]
  by_cases first : previous = 0 <;> simp [first, seekCluster, clusterSize]

/-- One cluster for a whole piece. -/
theorem storeData_whole {bytes : List UInt8} (small : Small ctx 1) (whole : bytes.length = clusterSize ctx) :
    storeData ctx bytes 0 = (findFreeCluster ctx).map (fun cluster => (place ctx 0 cluster bytes, cluster)) := by
  have sector := small.sector
  have one : clustersOf (clusterSize ctx) bytes.length = 1 := by
    rw [whole]
    exact clustersOf_whole (by omega)
  have own : Small ctx (clustersOf (clusterSize ctx) bytes.length) := one ▸ small
  have copied : clusterData (clusterSize ctx) bytes 0 = bytes := by
    rw [own.copied 0 (by omega), pieceOf, zero_mul, drop_zero, take_of_length_le (by omega), padded, whole,
      Nat.sub_self, replicate_zero, append_nil]
  rw [storeData, own.rounds, one]
  simp only [storeFrom, copied]
  rw [map_eq_bind]
  rfl

/-- The loop of `store_file` adds cluster after cluster. -/
theorem storePieces_extend {file : List UInt8} {result : Context × Nat × Nat}
    (small : Small ctx (used + (count + remaining)))
    (extended : Extended ctx used count (pieceOf (clusterSize ctx) file) between)
    (begins : first = if count = 0 then 0 else used + 2)
    (stored : (range' count remaining).foldlM (storePiece file) (between, first, lastOf used count) = some result) :
    Extended ctx used (count + remaining) (pieceOf (clusterSize ctx) file) result.1 ∧
    result.2.1 = if count + remaining = 0 then 0 else used + 2 := by
  induction remaining generalizing between count first with
  | zero =>
    cases stored
    exact ⟨extended, begins⟩
  | succ remaining ih =>
    have whole : (pieceOf (clusterSize ctx) file count).length = clusterSize ctx := pieceOf_length file count
    have betweenSmall : Small between 1 := (small.le (by omega)).of_same extended.same
    rw [range'_succ, foldlM_cons, storePiece, extended.same.clusterSize,
      storeData_whole betweenSmall (whole.trans extended.same.clusterSize.symm)] at stored
    obtain ⟨next, performed, onwards⟩ := bind_eq_some_iff.mp stored
    obtain ⟨placed, found, rfl⟩ := map_eq_some_iff.mp performed
    obtain ⟨cluster, searched, rfl⟩ := map_eq_some_iff.mp found
    obtain ⟨rfl, room⟩ := extended.occupied.found searched
    rw [extended.same.clusters] at room
    have longer := extended.place (small.le (by omega)) room whole
    have order : count + (remaining + 1) = count + 1 + remaining := by omega
    rw [order] at small ⊢
    refine ih small longer rfl ?_
    rw [lastOf_succ]
    rw [link_place] at onwards
    by_cases start : count = 0
    · subst start
      rw [begins] at onwards
      exact onwards
    · rw [begins, if_neg start] at onwards
      exact onwards

theorem storeFile_extends {file : List UInt8} (occupied : Occupied ctx used) (some : file ≠ [])
    (small : Small ctx (used + clustersOf (clusterSize ctx) file.length)) (stored : storeFile ctx file = Option.some (after, first)) :
    first = used + 2 ∧ Extended ctx used (clustersOf (clusterSize ctx) file.length) (pieceOf (clusterSize ctx) file) after := by
  have sector := small.sector
  have pieces : 0 < clustersOf (clusterSize ctx) file.length := clustersOf_pos (by omega) some
  rw [storeFile, range_eq_range'] at stored
  obtain ⟨result, looped, same⟩ := map_eq_some_iff.mp stored
  obtain ⟨rfl, rfl⟩ := Prod.mk.inj same
  obtain ⟨extended, begins⟩ := storePieces_extend (by rwa [zero_add]) (Extended.refl occupied _) rfl looped
  rw [zero_add] at extended begins
  rw [if_neg (by omega)] at begins
  exact ⟨begins, extended⟩

end

/-- The entries of a chain of clusters in a row. -/
def Linked (ctx : Context) (first count : Nat) : Prop :=
  ∀ i < count, ctx.fat (first + i) = if i + 1 = count then endMarker else first + i + 1

/-- A context in which only the image changes, and only in some clusters in a row. -/
structure Rewritten (ctx : Context) (first count : Nat) (piece : Nat → List UInt8) (after : Context) : Prop
    extends Filled ctx first count piece after where
  hint : after.lastAllocatedCluster = ctx.lastAllocatedCluster
  counter : after.lastKnownFreeClusters = ctx.lastKnownFreeClusters
  fat : after.fat = ctx.fat

/-- The table stays as it is where a cluster is in use and linked to already. -/
theorem place_linked {previous : Nat} (bytes : List UInt8) (taken : ctx.fat current ≠ 0)
    (linked : previous ≠ 0 → ctx.fat previous = current) : place ctx previous current bytes = writeCluster ctx current bytes := by
  rw [place, claim, link]
  split
  · next some => rw [← linked some, update_eq_self]
  · rfl

/-- The loop of `store_data` goes along a chain that exists. -/
theorem storeFrom_rewrites {piece : Nat → List UInt8} {total : Nat} (small : Small ctx used) (real : 2 ≤ first)
    (inside : first + total ≤ used + 2) (linked : Linked ctx first total)
    (taken : ∀ cluster < used + 2, ctx.fat cluster ≠ 0) (rewritten : Rewritten ctx first count piece between)
    (rounds : count + remaining = total) (copied : ∀ i < total, clusterData (clusterSize ctx) data i = piece i)
    (whole : ∀ i, (piece i).length = clusterSize ctx) :
    ∃ after, storeFrom data first remaining between (if count = 0 then 0 else first + count - 1) (first + count) count = some after ∧
    Rewritten ctx first total piece after := by
  induction remaining generalizing between count with
  | zero => exact ⟨between, rfl, rounds ▸ rewritten⟩
  | succ remaining ih =>
    have few := small.few
    have placed : FatStorage.place between (if count = 0 then 0 else first + count - 1) (first + count) (piece count) =
        writeCluster between (first + count) (piece count) := by
      apply place_linked
      · rw [rewritten.fat]
        exact taken _ (by omega)
      · intro some
        have later : count ≠ 0 := fun zero => some (if_pos zero)
        have previous := linked (count - 1) (by omega)
        have before : first + (count - 1) = first + count - 1 := by omega
        rw [if_neg later, rewritten.fat, ← before, previous, if_neg (by omega)]
        omega
    have longer : Rewritten ctx first (count + 1) piece (writeCluster between (first + count) (piece count)) :=
      ⟨rewritten.next ⟨rfl, rfl, rfl⟩ rfl small real (by omega) (whole count), rewritten.hint, rewritten.counter, rewritten.fat⟩
    rw [storeFrom, rewritten.same.clusterSize, copied count (by omega), placed]
    by_cases last : remaining = 0
    · subst last
      exact ⟨_, rfl, rounds ▸ longer⟩
    · have entry : (writeCluster between (first + count) (piece count)).fat (first + count) = first + count + 1 := by
        rw [longer.fat, linked count (by omega), if_neg (by omega)]
      have next : nextCluster (writeCluster between (first + count) (piece count)) first (first + count) =
          some (first + (count + 1)) := by
        have different : ¬ (first + count + 1 = 0 ∨ first + count + 1 = endMarker) := by
          rw [endMarker]
          omega
        simp only [nextCluster, entry, if_pos (show first ≠ 0 by omega), if_neg different]
        rfl
      simp only [if_neg last, next]
      exact ih longer (by omega)

/-- A chain is rewritten by data for the same number of clusters. -/
theorem storeData_rewrites (occupied : Occupied ctx used) (small : Small ctx used) (real : 2 ≤ first)
    (inside : first + clustersOf (clusterSize ctx) data.length ≤ used + 2)
    (linked : Linked ctx first (clustersOf (clusterSize ctx) data.length)) :
    ∃ after, storeData ctx data first = some (after, first) ∧
    Rewritten ctx first (clustersOf (clusterSize ctx) data.length) (pieceOf (clusterSize ctx) data) after := by
  have own : Small ctx (clustersOf (clusterSize ctx) data.length) := small.le (by omega)
  have start : Rewritten ctx first 0 (pieceOf (clusterSize ctx) data) ctx := ⟨.none .., rfl, rfl, rfl⟩
  obtain ⟨after, looped, rewritten⟩ := storeFrom_rewrites small real inside linked occupied.taken start (zero_add _)
    own.copied (pieceOf_length data)
  refine ⟨after, ?_, rewritten⟩
  rw [storeData, own.rounds, if_pos (by omega), bind_some]
  rw [if_pos rfl, add_zero] at looped
  rw [looped]
  rfl

/-- Following a chain gives its clusters. -/
theorem follow_linked (linked : Linked ctx first count) (positive : 0 < count) (below : first + count ≤ endMarker) :
    follow ctx.fat count first = some (List.range' first count) := by
  induction count generalizing first with
  | zero => exact absurd positive (lt_irrefl 0)
  | succ count ih =>
    have entry := linked 0 positive
    rw [add_zero] at entry
    rw [follow, if_neg (by omega), entry]
    by_cases last : count = 0
    · subst last
      rfl
    · have tail : Linked ctx (first + 1) count := by
        intro i inside
        have further := linked (i + 1) (by omega)
        have order : first + (i + 1) = first + 1 + i := by omega
        rw [order] at further
        simpa using further
      rw [if_neg (by omega), ih tail (by omega) (by omega)]
      rfl

/-- The number of steps does not matter. -/
theorem follow_unique {fat : Nat → Nat} {steps more : Nat} {chain other : List Nat}
    (one : follow fat steps cluster = some chain) (two : follow fat more cluster = some other) : chain = other := by
  induction steps generalizing more cluster chain other with
  | zero =>
    obtain ⟨ends, empty⟩ := ite_none_right_eq_some.mp one
    cases more <;> rw [follow, if_pos ends] at two <;> exact some.inj (empty.symm.trans two)
  | succ steps ih =>
    by_cases ends : cluster = endMarker
    · rw [follow, if_pos ends] at one
      cases more <;> rw [follow, if_pos ends] at two <;> exact some.inj (one.symm.trans two)
    · cases more with
      | zero =>
        rw [follow, if_neg ends] at two
        exact nomatch two
      | succ more =>
        rw [follow, if_neg ends] at one two
        obtain ⟨rest, followed, rfl⟩ := map_eq_some_iff.mp one
        obtain ⟨otherRest, otherFollowed, rfl⟩ := map_eq_some_iff.mp two
        rw [ih followed otherFollowed]

end Lfos.FatChains
