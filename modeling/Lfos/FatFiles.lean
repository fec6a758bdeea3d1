import Lfos.FatChains
import Lfos.Transitions

/-!
# Files in the image are what was stored

Data and files are stored one after another, and chains that exist are rewritten by as many clusters,
as is done for directories. In every run that uses at most 4 GiB of clusters each chain holds its data,
chains are apart, and the counter of the info block is the number of free entries. The first cluster
behind these 4 GiB is written over the first cluster of all.
-/

namespace Lfos.FatFiles

open FileWrites FatStorage FatChains Transitions List Option

/-- The clusters of a chain, and in them the data and zeros behind them. -/
structure Stored (ctx : Context) (data : List UInt8) (chain : List Nat) : Prop where
  number : chain.length = clustersOf (clusterSize ctx) data.length
  distinct : chain.Nodup
  inside : ∀ cluster ∈ chain, 2 ≤ cluster ∧ cluster ≤ ctx.clusters + 1
  contents : chain.flatMap (clusterBytes ctx) = data ++ replicate (chain.length * clusterSize ctx - data.length) 0

/-- The context, and the first cluster of each chain with its data. -/
structure State where
  ctx : Context
  files : List (Nat × List UInt8)

inductive Event where
  | storeData (data : List UInt8)
  | storeFile (file : List UInt8)
  | rewrite (first : Nat) (data : List UInt8)

/-- What is stored is not empty, and what is rewritten is a chain for the same number of clusters. -/
def Allowed (state : State) : Event → Prop
  | .storeData data => data ≠ []
  | .storeFile file => file ≠ []
  | .rewrite first data => data ≠ [] ∧ ∃ old, (first, old) ∈ state.files ∧
      clustersOf (clusterSize state.ctx) data.length = clustersOf (clusterSize state.ctx) old.length

def perform (state : State) : Event → Option State
  | .storeData data => (storeData state.ctx data 0).map (fun result => ⟨result.1, (result.2, data) :: state.files⟩)
  | .storeFile file => (storeFile state.ctx file).map (fun result => ⟨result.1, (result.2, file) :: state.files⟩)
  | .rewrite first data => (storeData state.ctx data first).map (fun result =>
      ⟨result.1, state.files.map (fun file => if file.1 = first then (first, data) else file)⟩)

/-- What `main` and `initialize_fat` leave behind. -/
structure Initialized (ctx : Context) : Prop where
  sectorSize : ctx.superblock.bytesPerSector = 512 ∨ ctx.superblock.bytesPerSector = 4096
  oneSector : ctx.superblock.sectorsPerCluster = 1
  hint : ctx.lastAllocatedCluster = 1
  free : ctx.lastKnownFreeClusters = ctx.clusters
  clustersSmall : ctx.clusters < 2 ^ 32
  startSmall : ctx.dataStart < 2 ^ 32
  fat : ctx.fat = fun cluster => if cluster = 0 then 0xFFFFFFF8 else if cluster = 1 then 0x0FFFFFFF else 0

def images : System State Event where
  initial state := Initialized state.ctx ∧ state.files = []
  step state event after := Allowed state event ∧ perform state event = some after

structure Faithful (state : State) : Prop where
  stored : ∀ file ∈ state.files, ∃ steps chain, follow state.ctx.fat steps file.1 = some chain ∧ Stored state.ctx file.2 chain
  apart : state.files.Pairwise (fun file other => ∀ steps chain otherSteps otherChain,
    follow state.ctx.fat steps file.1 = some chain → follow state.ctx.fat otherSteps other.1 = some otherChain →
      chain.Disjoint otherChain)
  untouched : state.ctx.fat 0 = 0xFFFFFFF8 ∧ state.ctx.fat 1 = 0x0FFFFFFF
  counted : state.ctx.lastKnownFreeClusters = freeEntries state.ctx

/-- The clusters in use after what is stored are at most 4 GiB. -/
def Meets (state : State) : Event → Prop
  | .storeData data | .storeFile data => (state.ctx.clusters - freeEntries state.ctx +
      clustersOf (clusterSize state.ctx) data.length) * clusterSize state.ctx ≤ 2 ^ 32
  | .rewrite _ _ => True

section

variable {state after : State} {used : Nat}

def countOf (ctx : Context) (file : Nat × List UInt8) : Nat := clustersOf (clusterSize ctx) file.2.length

/-- The clusters of a chain are in a row, and hold its data. -/
structure Chained (ctx : Context) (used : Nat) (file : Nat × List UInt8) : Prop where
  real : 2 ≤ file.1
  positive : 0 < countOf ctx file
  inside : file.1 + countOf ctx file ≤ used + 2
  linked : Linked ctx file.1 (countOf ctx file)
  contents : ∀ i < countOf ctx file, clusterBytes ctx (file.1 + i) = pieceOf (clusterSize ctx) file.2 i

/-- Two chains do not overlap. -/
def Beside (ctx : Context) (file other : Nat × List UInt8) : Prop :=
  file.1 + countOf ctx file ≤ other.1 ∨ other.1 + countOf ctx other ≤ file.1

instance (ctx : Context) : Std.Symm (Beside ctx) := ⟨fun _ _ => Or.symm⟩

structure Laid (state : State) (used : Nat) : Prop where
  occupied : Occupied state.ctx used
  small : Small state.ctx used
  untouched : state.ctx.fat 0 = 0xFFFFFFF8 ∧ state.ctx.fat 1 = 0x0FFFFFFF
  chains : ∀ file ∈ state.files, Chained state.ctx used file
  apart : state.files.Pairwise (Beside state.ctx)

variable {data : List UInt8} {ctx : Context}

theorem countOf_same {after : Context} (same : Same ctx after) (file : Nat × List UInt8) :
    countOf after file = countOf ctx file := by
  rw [countOf, countOf, same.clusterSize]

theorem beside_same {after : Context} (same : Same ctx after) : Beside after = Beside ctx := by
  funext file other
  rw [Beside, Beside, countOf_same same, countOf_same same]

/-- A chain behind the clusters in use is added. -/
theorem Laid.extend (laid : Laid state used) (some : data ≠ []) {clusters : Nat}
    (whole : clustersOf (clusterSize state.ctx) data.length = clusters) (small : Small state.ctx (used + clusters))
    (extended : Extended state.ctx used clusters (pieceOf (clusterSize state.ctx) data) ctx) :
    Laid ⟨ctx, (used + 2, data) :: state.files⟩ (used + clusters) := by
  have sector := small.sector
  have same := extended.same
  have positive : 0 < clusters := whole ▸ clustersOf_pos (by omega) some
  refine ⟨extended.occupied, small.of_same same, ?_, ?_, ?_⟩
  · have below (cluster : Nat) (reserved : cluster < 2) : ctx.fat cluster = state.ctx.fat cluster := by
      rw [extended.fat, if_neg (by omega)]
    exact ⟨(below 0 (by omega)).trans laid.untouched.1, (below 1 (by omega)).trans laid.untouched.2⟩
  · intro file member
    rcases mem_cons.mp member with rfl | earlier
    · have count : countOf ctx (used + 2, data) = clusters := (countOf_same same _).trans whole
      refine ⟨Nat.le_add_left 2 used, count ▸ positive, ?_, ?_, ?_⟩
      · rw [count]
        exact le_of_eq (by omega)
      · intro i inside
        rw [count] at inside ⊢
        rw [extended.fat, if_pos (by omega)]
        by_cases last : i + 1 = clusters
        · rw [if_pos last, if_pos (by omega)]
        · rw [if_neg last, if_neg (by omega)]
      · intro i inside
        rw [count] at inside
        rw [extended.bytes _ (by omega), if_pos (by omega), Nat.add_sub_cancel_left, same.clusterSize]
    · have chained := laid.chains file earlier
      have bound := chained.inside
      have count : countOf ctx file = countOf state.ctx file := countOf_same same file
      refine ⟨chained.real, count ▸ chained.positive, ?_, ?_, ?_⟩
      · rw [count]
        omega
      · intro i inside
        rw [count] at inside ⊢
        rw [extended.fat, if_neg (by omega)]
        exact chained.linked i inside
      · intro i inside
        have real := chained.real
        rw [count] at inside
        rw [extended.bytes _ (by omega), if_neg (by omega), same.clusterSize]
        exact chained.contents i inside
  · rw [beside_same same]
    refine pairwise_cons.mpr ⟨?_, laid.apart⟩
    intro file member
    exact .inr (laid.chains file member).inside

/-- A chain gets other data for as many clusters. -/
theorem Laid.rewrite (laid : Laid state used) {first : Nat} {old : List UInt8} (there : (first, old) ∈ state.files)
    (fits : clustersOf (clusterSize state.ctx) data.length = clustersOf (clusterSize state.ctx) old.length)
    (rewritten : Rewritten state.ctx first (clustersOf (clusterSize state.ctx) data.length)
    (pieceOf (clusterSize state.ctx) data) ctx) :
    Laid ⟨ctx, state.files.map (fun file => if file.1 = first then (first, data) else file)⟩ used := by
  have same := rewritten.same
  have whole := laid.chains _ there
  have wholeCount : countOf state.ctx (first, old) = clustersOf (clusterSize state.ctx) data.length := fits.symm
  have positive := whole.positive
  -- The chain is the only one that begins at its first cluster.
  have only : ∀ file ∈ state.files, file = (first, old) ∨ Beside state.ctx file (first, old) := by
    intro file member
    by_cases equal : file = (first, old)
    · exact .inl equal
    · exact .inr (laid.apart.forall member there equal)
  have change : ∀ file ∈ state.files, (if file.1 = first then (first, data) else file).1 = file.1 ∧
      countOf ctx (if file.1 = first then (first, data) else file) = countOf state.ctx file := by
    intro file member
    rw [countOf_same same]
    split
    · next here =>
      refine ⟨here.symm, ?_⟩
      rcases only file member with rfl | beside
      · exact fits
      · have otherPositive := (laid.chains file member).positive
        rw [Beside] at beside
        omega
    · exact ⟨rfl, rfl⟩
  refine ⟨⟨?_, ?_, ?_, ?_, ?_, ?_⟩, laid.small.of_same same, ?_, ?_, ?_⟩
  · exact rewritten.hint.trans laid.occupied.hint
  · exact rewritten.fat ▸ laid.occupied.taken
  · exact rewritten.fat ▸ laid.occupied.unused
  · exact rewritten.counter.trans (same.clusters ▸ laid.occupied.free)
  · exact same.clusters ▸ laid.occupied.fits
  · exact same.clusters ▸ laid.occupied.small
  · exact rewritten.fat ▸ laid.untouched
  · intro changed member
    obtain ⟨file, earlier, rfl⟩ := mem_map.mp member
    obtain ⟨begins, count⟩ := change file earlier
    have chained := laid.chains file earlier
    have real := chained.real
    refine ⟨le_trans real (le_of_eq begins.symm), count ▸ chained.positive, ?_, ?_, ?_⟩
    · rw [begins, count]
      exact chained.inside
    · rw [begins, count, Linked, rewritten.fat]
      exact chained.linked
    · intro i inside
      rw [count] at inside
      rw [begins, rewritten.bytes _ (by omega), same.clusterSize]
      rcases only file earlier with rfl | beside
      · rw [wholeCount] at inside
        rw [if_pos ⟨Nat.le_add_right _ _, Nat.add_lt_add_left inside _⟩, if_pos rfl, Nat.add_sub_cancel_left]
      · have elsewhere : ¬ (first ≤ file.1 + i ∧ file.1 + i < first + clustersOf (clusterSize state.ctx) data.length) := by
          rw [Beside] at beside
          omega
        have different : file.1 ≠ first := by
          rw [Beside] at beside
          omega
        rw [if_neg elsewhere, if_neg different]
        exact chained.contents i inside
  · rw [pairwise_map]
    refine laid.apart.imp_of_mem ?_
    intro file other member otherMember beside
    rw [Beside, (change file member).1, (change file member).2, (change other otherMember).1, (change other otherMember).2]
    exact beside

theorem Initialized.laid (initialized : Initialized state.ctx) (empty : state.files = []) : Laid state 0 := by
  have size : clusterSize state.ctx = state.ctx.superblock.bytesPerSector := by
    rw [clusterSize, initialized.oneSector, Nat.mul_one]
  have sectorSize := initialized.sectorSize
  have fat := initialized.fat
  refine ⟨⟨initialized.hint, ?_, ?_, initialized.free, Nat.zero_le _, initialized.clustersSmall⟩,
    ⟨initialized.startSmall, by omega, by omega, by omega⟩, ?_, ?_, ?_⟩
  · intro cluster reserved
    rw [fat]
    dsimp only
    split
    · decide
    · rw [if_pos (by omega)]
      decide
  · intro cluster above
    rw [fat]
    dsimp only
    rw [if_neg (by omega), if_neg (by omega)]
  · rw [fat]
    exact ⟨rfl, rfl⟩
  · rw [empty]
    intro file member
    cases member
  · rw [empty]
    exact .nil

theorem Laid.faithful (laid : Laid state used) : Faithful state := by
  have few := laid.small.few
  have sector := laid.small.sector
  have followed (file : Nat × List UInt8) (member : file ∈ state.files) :
      follow state.ctx.fat (countOf state.ctx file) file.1 = some (range' file.1 (countOf state.ctx file)) := by
    have chained := laid.chains file member
    have inside := chained.inside
    refine follow_linked chained.linked chained.positive ?_
    rw [endMarker]
    omega
  refine ⟨?_, ?_, laid.untouched, ?_⟩
  · intro file member
    have chained := laid.chains file member
    refine ⟨_, _, followed file member, ?_, nodup_range' 1 , ?_, ?_⟩
    · rw [length_range', countOf]
    · intro cluster inChain
      have bounds := mem_range'_1.mp inChain
      have real := chained.real
      have inside := chained.inside
      have fits := laid.occupied.fits
      omega
    · have pieces : (range' file.1 (countOf state.ctx file)).flatMap (clusterBytes state.ctx) =
          (range (countOf state.ctx file)).flatMap (pieceOf (clusterSize state.ctx) file.2) := by
        rw [range'_eq_map_range, flatMap_map]
        apply flatMap_congr
        intro i inChain
        exact chained.contents i (mem_range.mp inChain)
      rw [pieces, length_range']
      exact flatMap_pieces _ _ (clustersOf_enough (by omega) _)
  · refine laid.apart.imp_of_mem ?_
    intro file other member otherMember beside steps chain otherSteps otherChain one two
    rw [follow_unique one (followed file member), follow_unique two (followed other otherMember)]
    intro cluster inOne inTwo
    have bounds := mem_range'_1.mp inOne
    have otherBounds := mem_range'_1.mp inTwo
    rw [Beside] at beside
    omega
  · rw [laid.occupied.freeEntries, laid.occupied.free]

theorem Laid.meets (laid : Laid state used)
    (meets : (state.ctx.clusters - freeEntries state.ctx + clustersOf (clusterSize state.ctx) data.length) *
    clusterSize state.ctx ≤ 2 ^ 32) : Small state.ctx (used + clustersOf (clusterSize state.ctx) data.length) := by
  have fits := laid.occupied.fits
  have inUse : state.ctx.clusters - freeEntries state.ctx = used := by
    rw [laid.occupied.freeEntries]
    omega
  rw [inUse] at meets
  exact ⟨laid.small.start, laid.small.sector, laid.small.page, meets⟩

theorem Laid.step (laid : Laid state used) {event : Event} (meets : Meets state event) (allowed : Allowed state event)
    (performed : perform state event = some after) : ∃ used, Laid after used := by
  cases event with
  | storeData data =>
    obtain ⟨_, stored, rfl⟩ := map_eq_some_iff.mp performed
    rcases storeData_cases laid.occupied (laid.meets meets) with ⟨ctx, done, extended⟩ | ⟨full, _⟩
    · cases stored.symm.trans done
      exact ⟨_, laid.extend allowed rfl (laid.meets meets) extended⟩
    · exact nomatch stored.symm.trans full
  | storeFile file =>
    obtain ⟨⟨ctx, first⟩, stored, rfl⟩ := map_eq_some_iff.mp performed
    obtain ⟨rfl, extended⟩ := storeFile_extends laid.occupied allowed (laid.meets meets) stored
    exact ⟨_, laid.extend allowed rfl (laid.meets meets) extended⟩
  | rewrite first data =>
    obtain ⟨some, old, there, fits⟩ := allowed
    have chained := laid.chains _ there
    have inside := chained.inside
    have linked := chained.linked
    rw [countOf, ← fits] at inside linked
    obtain ⟨ctx, stored, rewritten⟩ := storeData_rewrites laid.occupied laid.small chained.real inside linked
    rw [perform, stored] at performed
    cases performed
    exact ⟨used, laid.rewrite there fits rewritten⟩

theorem reachable_laid (reachable : (images.under Meets).Reachable state) : ∃ used, Laid state used := by
  apply reachable.invariant
  · rintro start ⟨initialized, empty⟩
    exact ⟨0, initialized.laid empty⟩
  · rintro state event after ⟨used, laid⟩ ⟨meets, allowed, performed⟩
    exact laid.step meets allowed performed

/-- In every run that uses at most 4 GiB of clusters, chains store what was written to them. -/
theorem chains_faithful (reachable : (images.under Meets).Reachable state) : Faithful state := by
  obtain ⟨used, laid⟩ := reachable_laid reachable
  exact laid.faithful

/-- An image of 8 GiB, as it is initialized. -/
def large : State where
  ctx := {
    outfile := []
    superblock := ⟨512, 1, 2, 2 ^ 24, 129056, 1⟩
    lastKnownFreeClusters := 16519102
    lastAllocatedCluster := 1
    fat := fun cluster => if cluster = 0 then 0xFFFFFFF8 else if cluster = 1 then 0x0FFFFFFF else 0
    clusters := 16519102
    dataStart := 512 * (2 + 2 * 129056) }
  files := []

theorem large_initialized : Initialized large.ctx := ⟨.inl rfl, rfl, rfl, rfl, by decide, by decide, rfl⟩

theorem large_laid : Laid large 0 := large_initialized.laid rfl

/-- Data for which there is room are stored behind the clusters in use. -/
theorem Laid.stores (laid : Laid state used) (same : Same large.ctx state.ctx) (some : data ≠ []) {clusters : Nat}
    (whole : clustersOf 512 data.length = clusters) (few : used + clusters ≤ 2 ^ 23) :
    ∃ ctx, (images.under Meets).step state (.storeData data) ⟨ctx, (used + 2, data) :: state.files⟩ ∧
    Laid ⟨ctx, (used + 2, data) :: state.files⟩ (used + clusters) ∧ Same large.ctx ctx := by
  have size : clusterSize state.ctx = 512 := same.clusterSize
  have room : state.ctx.clusters = 16519102 := same.clusters
  have number : clustersOf (clusterSize state.ctx) data.length = clusters := by rw [size, whole]
  have meets : Meets state (.storeData data) := by
    rw [Meets, laid.occupied.freeEntries, number, size]
    omega
  have small := laid.meets meets
  obtain ⟨ctx, stored, extended⟩ := (storeData_cases laid.occupied small).resolve_right (fun full => full.2 (by omega))
  rw [number] at small extended
  refine ⟨ctx, ⟨meets, some, ?_⟩, laid.extend some number small extended, same.trans extended.same⟩
  rw [perform, stored]
  rfl

/-- Other data for as many clusters are stored in a chain. -/
theorem Laid.rewrites (laid : Laid state used) {first : Nat} {old : List UInt8} (there : (first, old) ∈ state.files)
    (some : data ≠ [])
    (fits : clustersOf (clusterSize state.ctx) data.length = clustersOf (clusterSize state.ctx) old.length) :
    ∃ ctx, (images.under Meets).step state (.rewrite first data)
      ⟨ctx, state.files.map (fun file => if file.1 = first then (first, data) else file)⟩ := by
  have chained := laid.chains _ there
  have inside := chained.inside
  have linked := chained.linked
  rw [countOf, ← fits] at inside linked
  obtain ⟨ctx, stored, _⟩ := storeData_rewrites laid.occupied laid.small chained.real inside linked
  refine ⟨ctx, trivial, ⟨some, old, there, fits⟩, ?_⟩
  rw [perform, stored]
  rfl

/-- Two files of two clusters each, and the first of them is rewritten. -/
theorem chains_faithful_rewritten : ∃ ctx, Faithful ⟨ctx, [(4, replicate 600 8), (2, replicate 700 9)]⟩ := by
  have some (count : Nat) (byte : UInt8) (positive : count ≠ 0) : replicate count byte ≠ [] :=
    fun empty => positive ((replicate_eq_nil_iff byte).mp empty)
  have clusters (count : Nat) (byte : UInt8) (two : clustersOf 512 count = 2) :
      clustersOf 512 (replicate count byte).length = 2 := by
    rw [length_replicate, two]
  have started : (images.under Meets).Reachable large := reachable_initial ⟨large_initialized, rfl⟩
  obtain ⟨_, first, laid, same⟩ :=
    large_laid.stores (.refl _) (some 1000 7 (by decide)) (clusters 1000 7 (by decide)) (by decide)
  obtain ⟨ctx, second, both, same⟩ :=
    laid.stores same (some 600 8 (by decide)) (clusters 600 8 (by decide)) (by decide)
  have size : clusterSize ctx = 512 := same.clusterSize
  have fits : clustersOf (clusterSize ctx) (replicate 700 (9 : UInt8)).length =
      clustersOf (clusterSize ctx) (replicate 1000 (7 : UInt8)).length := by
    rw [size, clusters 700 9 (by decide), clusters 1000 7 (by decide)]
  obtain ⟨after, third⟩ := both.rewrites (mem_cons_of_mem _ mem_cons_self) (some 700 9 (by decide)) fits
  exact ⟨after, chains_faithful (reachable_step (reachable_step (reachable_step started first) second) third)⟩

/-- The first cluster of a chain holds the start of its data. -/
theorem Faithful.begins (faithful : Faithful state) {first : Nat} (member : (first, data) ∈ state.files)
    (real : first ≠ endMarker) : ∃ rest zeros, clusterBytes state.ctx first ++ rest = data ++ zeros := by
  obtain ⟨steps, chain, followed, stored⟩ := faithful.stored (first, data) member
  cases steps with
  | zero =>
    rw [follow, if_neg real] at followed
    cases followed
  | succ steps =>
    rw [follow, if_neg real] at followed
    obtain ⟨rest, _, rfl⟩ := map_eq_some_iff.mp followed
    exact ⟨_, _, stored.contents⟩

/-- The cluster behind the first 4 GiB is written over the first one. -/
theorem wraps (full : data.length = 2 ^ 32) (head : data.head? = some 1) :
    ∃ state, images.Reachable state ∧ (2, data) ∈ state.files ∧ ¬ Faithful state := by
  have some : data ≠ [] := by
    rintro rfl
    exact nomatch head
  have number : clustersOf 512 data.length = 2 ^ 23 := by
    rw [full]
    decide
  obtain ⟨ctx, taken, laid, same⟩ := large_laid.stores (.refl _) some number (by decide)
  have started : (images.under Meets).Reachable large := reachable_initial ⟨large_initialized, rfl⟩
  have reachable := reachable_of_under (reachable_step started taken)
  rw [zero_add] at laid
  have size : clusterSize ctx = 512 := same.clusterSize
  have whole : (pieceOf 512 [7] 0).length = clusterSize ctx := (pieceOf_length [7] 0).trans size.symm
  have found : findFreeCluster ctx = Option.some (2 ^ 23 + 2) := by
    have enough : 2 ^ 23 < ctx.clusters ∧ ctx.clusters + 2 < 2 ^ 32 := by
      rw [same.clusters]
      decide
    exact laid.occupied.finds enough.1 enough.2
  have stored : storeData ctx (pieceOf 512 [7] 0) 0 =
      Option.some (place ctx 0 (2 ^ 23 + 2) (pieceOf 512 [7] 0), 2 ^ 23 + 2) := by
    rw [storeData_whole (laid.small.le (by decide)) whole, found]
    rfl
  have seek : seekCluster ctx (2 ^ 23 + 2) = clusterStart ctx 2 := by
    rw [seekCluster, clusterStart, size, same.dataStart]
    decide
  have lost : clusterBytes (place ctx 0 (2 ^ 23 + 2) (pieceOf 512 [7] 0)) 2 = pieceOf 512 [7] 0 := by
    have placed := place_same ctx 0 (2 ^ 23 + 2) (pieceOf 512 [7] 0)
    rw [clusterBytes, placed.clusterStart, placed.clusterSize, place_outfile, seek, ← whole]
    exact extract_written
  have again : images.step ⟨ctx, [(2, data)]⟩ (.storeData (pieceOf 512 [7] 0))
      ⟨place ctx 0 (2 ^ 23 + 2) (pieceOf 512 [7] 0), [(2 ^ 23 + 2, pieceOf 512 [7] 0), (2, data)]⟩ := by
    constructor
    · exact length_pos_iff.mp (by rw [whole, size]; decide)
    · rw [perform, stored]
      rfl
  refine ⟨_, reachable_step reachable again, mem_cons_of_mem _ mem_cons_self, ?_⟩
  intro faithful
  obtain ⟨rest, zeros, same⟩ := faithful.begins (mem_cons_of_mem _ mem_cons_self) (by decide)
  have seven : (pieceOf 512 [7] 0).head? = Option.some 7 := rfl
  have heads := congrArg head? same
  rw [lost, head?_append, head?_append, head, seven, some_or, some_or] at heads
  exact absurd heads (by decide)

/-- 4 GiB of ones are stored, and then one byte: the first cluster of the ones is lost. -/
theorem first_cluster_lost : ∃ state, images.Reachable state ∧ (2, replicate (2 ^ 32) 1) ∈ state.files ∧ ¬ Faithful state :=
  wraps (length_replicate ..) rfl

end

end Lfos.FatFiles
