import Lfos.Words

/-!
# The bit sets of tiny-stl

A set of `bits` positions is an array of words, with position `pos` in bit `pos % 64` of word
`pos / 64`. The array has eight times the words that are needed, since its length is computed in
bytes. An access outside of the array has no result.

A search for a streak of unset bits goes on behind the first set bit that it finds, and does not
try the last start that would fit.
-/

namespace Lfos.BitSets

open Words BitVec Function Option

section

/-- `_size` -/
def dataSize (entries : Nat) : Nat := (entries + 63) / 8

/-- `_idx` -/
def idx (entry : Nat) : Nat := entry / 64

/-- `_bit` -/
def bit (entry : Nat) : BitVec 64 := 1#64 <<< (entry % 64)

structure BitSet (bits : Nat) where
  data : Vector (BitVec 64) (dataSize bits)

variable {bits : Nat}

def empty (bits : Nat) : BitSet bits := ⟨Vector.replicate (dataSize bits) 0#64⟩

def BitSet.test (bitset : BitSet bits) (pos : Nat) : Option Bool :=
  (bitset.data[idx pos]?).map (fun word => word &&& bit pos != 0#64)

/-- `operator[]` -/
def BitSet.subscript (bitset : BitSet bits) (pos : Nat) : Option Bool := bitset.test pos

def BitSet.set (bitset : BitSet bits) (pos : Nat) (value : Bool) : Option (BitSet bits) :=
  if inside : idx pos < dataSize bits then
    let word := bitset.data[idx pos]
    some ⟨bitset.data.set (idx pos) (if value then word ||| bit pos else word &&& ~~~bit pos)⟩
  else none

def BitSet.reset (bitset : BitSet bits) (pos : Nat) : Option (BitSet bits) := bitset.set pos false

def BitSet.flip (bitset : BitSet bits) (pos : Nat) : Option (BitSet bits) :=
  (bitset.test pos).bind (fun found => bitset.set pos (!found))

/-- `set` without a position. -/
def setAll (bits : Nat) : BitSet bits := ⟨Vector.replicate (dataSize bits) (-1#64)⟩

/-- The loop of `flip` without a position. -/
def flipBelow (bitset : BitSet bits) : Nat → Option (BitSet bits)
  | 0 => some bitset
  | pos + 1 => (flipBelow bitset pos).bind (fun bitset => bitset.flip pos)

/-- The loop of `all` from a position. -/
def allFrom (bitset : BitSet bits) (pos : Nat) : Nat → Option Bool
  | 0 => some true
  | remaining + 1 => (bitset.test pos).bind (fun found => if found then allFrom bitset (pos + 1) remaining else some false)

def BitSet.all (bitset : BitSet bits) : Option Bool := allFrom bitset 0 bits

/-- The loop of `any` from a position. -/
def anyFrom (bitset : BitSet bits) (pos : Nat) : Nat → Option Bool
  | 0 => some false
  | remaining + 1 => (bitset.test pos).bind (fun found => if found then some true else anyFrom bitset (pos + 1) remaining)

def BitSet.any (bitset : BitSet bits) : Option Bool := anyFrom bitset 0 bits

def BitSet.none (bitset : BitSet bits) : Option Bool := bitset.any.map not

/-- The offset of the first set bit from `i` on, out of `remaining` bits. -/
def firstSet (bitset : BitSet bits) (candidate i : Nat) : Nat → Option (Option Nat)
  | 0 => some none
  | remaining + 1 => (bitset.test (candidate + i)).bind (fun found =>
      if found then some (some i) else firstSet bitset candidate (i + 1) remaining)

/-- The loop over the candidates, for a number of rounds. -/
def searchFrom (bitset : BitSet bits) (n : Nat) : Nat → Nat → Option Nat
  | 0, _ => none
  | rounds + 1, candidate =>
    if candidate < u64Sub bits n then
      (firstSet bitset candidate 0 n).bind (fun found =>
        match found with
        | none => some candidate
        | some i => searchFrom bitset n rounds (u64 (candidate + i + 1)))
    else some (bits + 1)

/-- One round more than there are candidates. -/
def findContinuousUnset (bitset : BitSet bits) (n : Nat) : Option Nat := searchFrom bitset n (u64Sub bits n + 1) 0

def setRange (bitset : BitSet bits) (start : Nat) (value : Bool) : Nat → Option (BitSet bits)
  | 0 => some bitset
  | n + 1 => (setRange bitset start value n).bind (fun bitset => bitset.set (start + n) value)

end

section

variable {bits : Nat} {bitset : BitSet bits} {pos : Nat}

theorem idx_lt (inside : pos < bits) : idx pos < dataSize bits := by
  rw [idx, dataSize]
  omega

/-- A position of the set can be tested. -/
theorem test_inside (bitset : BitSet bits) (inside : pos < bits) : ∃ found, bitset.test pos = some found := by
  rw [BitSet.test, Vector.getElem?_eq_getElem (idx_lt inside)]
  exact ⟨_, rfl⟩

theorem test_empty (inside : pos < bits) : (empty bits).test pos = some false := by
  rw [BitSet.test, empty, Vector.getElem?_eq_getElem (idx_lt inside)]
  simp

theorem set_inside (bitset : BitSet bits) (value : Bool) (inside : pos < bits) : ∃ after, bitset.set pos value = some after := by
  rw [BitSet.set, dif_pos (idx_lt inside)]
  exact ⟨_, rfl⟩

theorem bit_eq_twoPow (pos : Nat) : bit pos = twoPow 64 (pos % 64) := by
  simp [bit, twoPow]

theorem bit_test (word : BitVec 64) (pos : Nat) : (word &&& bit pos != 0#64) = word.getLsbD (pos % 64) := by
  have nonzero : twoPow 64 (pos % 64) ≠ 0#64 := fun zero => by
    simpa [Nat.mod_lt] using congrArg (fun word => word.getLsbD (pos % 64)) zero
  rw [bit_eq_twoPow, and_twoPow]
  cases word.getLsbD (pos % 64) <;> simp [nonzero]

/-- A changed bit is tested with its value, and every other one as before. -/
theorem test_set {after : BitSet bits} {value : Bool} (done : bitset.set pos value = some after) (tested : Nat) :
    after.test tested = if tested = pos then some value else bitset.test tested := by
  obtain ⟨inside, rfl⟩ : ∃ inside : idx pos < dataSize bits,
      ⟨bitset.data.set (idx pos) (if value then bitset.data[idx pos] ||| bit pos else bitset.data[idx pos] &&& ~~~bit pos)⟩ =
        after := by
    simpa [BitSet.set] using done
  by_cases word : idx pos = idx tested
  · -- the bits of one word
    have shifted : tested % 64 = pos % 64 ↔ tested = pos := by
      simp only [idx] at word
      omega
    simp only [BitSet.test, ← word, Vector.getElem?_eq_getElem inside, map_some, bit_test]
    by_cases same : tested = pos
    · cases value <;> simp [bit_eq_twoPow, same, Nat.mod_lt]
    · have apart : ¬ tested % 64 = pos % 64 := fun equal => same (shifted.mp equal)
      cases value <;> simp [bit_eq_twoPow, same, apart, Nat.mod_lt]
  · have other : tested ≠ pos := fun same => word (same ▸ rfl)
    simp only [BitSet.test, Vector.getElem?_set_ne inside word, if_neg other]

/-- The bits of a range are changed, and no others. -/
theorem setRange_inside (bitset : BitSet bits) (start : Nat) (value : Bool) {n : Nat} (inside : start + n ≤ bits) :
    ∃ after, setRange bitset start value n = some after ∧
    ∀ tested, after.test tested = if start ≤ tested ∧ tested < start + n then some value else bitset.test tested := by
  induction n with
  | zero => exact ⟨bitset, rfl, fun tested => (if_neg (by omega)).symm⟩
  | succ n ih =>
    obtain ⟨between, ranged, tests⟩ := ih (by omega)
    have last : start + n < bits := by omega
    obtain ⟨after, done⟩ := set_inside between value last
    refine ⟨after, by rw [setRange, ranged, bind_some, done], fun tested => ?_⟩
    rw [test_set done, tests]
    grind

end

section

variable {bits n : Nat} {bitset : BitSet bits}

/-- The search tests positions of the set only: in a round those up to the first set bit, or all of a candidate. -/
def Confined (bitset : BitSet bits) (n : Nat) : Nat → Nat → Prop
  | 0, _ => True
  | rounds + 1, candidate => candidate < u64Sub bits n →
      match firstSet bitset candidate 0 n with
      | some (some i) => candidate + i < bits ∧ Confined bitset n rounds (u64 (candidate + i + 1))
      | _ => candidate + n ≤ bits

def Free (bitset : BitSet bits) (n start : Nat) : Prop := ∀ i < n, bitset.test (start + i) = some false

/-- The first start with as many free positions, or a number that is none if there is no such start. -/
def FirstFit (bitset : BitSet bits) (n result : Nat) : Prop :=
  (result + n ≤ bits ∧ Free bitset n result ∧ ∀ start < result, ¬ Free bitset n start) ∨
  (bits ≤ result ∧ ∀ start, start + n ≤ bits → ¬ Free bitset n start)

def Exact (bitset : BitSet bits) (n : Nat) : Prop :=
  Confined bitset n (u64Sub bits n + 1) 0 ∧ ∃ result, findContinuousUnset bitset n = some result ∧ FirstFit bitset n result

theorem firstSet_cases {candidate i remaining : Nat} (inside : candidate + i + remaining ≤ bits) :
    (firstSet bitset candidate i remaining = some none ∧
    ∀ k, i ≤ k → k < i + remaining → bitset.test (candidate + k) = some false) ∨
    ∃ k < i + remaining, firstSet bitset candidate i remaining = some (some k) ∧ bitset.test (candidate + k) = some true := by
  induction remaining generalizing i with
  | zero => exact .inl ⟨rfl, by omega⟩
  | succ remaining ih =>
    obtain ⟨found, test⟩ := test_inside bitset (show candidate + i < bits by omega)
    rw [firstSet, test]
    cases found with
    | true => exact .inr ⟨i, by omega, rfl, test⟩
    | false =>
      obtain ⟨none, clear⟩ | ⟨k, below, result⟩ := @ih (i + 1) (by omega)
      · refine .inl ⟨none, fun k low high => ?_⟩
        obtain rfl | later := Nat.eq_or_lt_of_le low
        · exact test
        · exact clear k later (by omega)
      · exact .inr ⟨k, by omega, result⟩

/-- A start that is skipped has a set bit behind it. -/
theorem searchFrom_first (small : bits < 2 ^ 64) (fits : n ≤ bits) {rounds candidate : Nat} (enough : bits - n ≤ candidate + rounds) :
    Confined bitset n (rounds + 1) candidate ∧ ∃ result, searchFrom bitset n (rounds + 1) candidate = some result ∧
    (result = bits + 1 ∨ (result + n < bits ∧ Free bitset n result)) ∧
    ∀ start, candidate ≤ start → start < result → start + n < bits → ¬ Free bitset n start := by
  induction rounds generalizing candidate with
  | zero =>
    rw [Confined, searchFrom, u64Sub_of_le fits small, if_neg (by omega)]
    exact ⟨by omega, _, rfl, .inl rfl, by omega⟩
  | succ rounds ih =>
    rw [Confined, searchFrom, u64Sub_of_le fits small]
    by_cases more : candidate < bits - n
    · obtain ⟨none, clear⟩ | ⟨k, below, found, used⟩ := @firstSet_cases bits bitset candidate 0 n (by omega)
      · have free : Free bitset n candidate := fun i within => clear i (Nat.zero_le i) (by omega)
        rw [if_pos more, none]
        exact ⟨fun _ => by omega, candidate, rfl, .inr ⟨by omega, free⟩, by omega⟩
      · obtain ⟨confined, result, further, fit, first⟩ := @ih (candidate + k + 1) (by omega)
        have next : u64 (candidate + k + 1) = candidate + k + 1 := u64_of_lt (by omega)
        simp only [if_pos more, found, next, bind_some]
        refine ⟨fun _ => ⟨by omega, confined⟩, result, further, fit, fun start low before within free => ?_⟩
        by_cases early : start ≤ candidate + k
        · have clear := free (candidate + k - start) (by omega)
          simp [Nat.add_sub_cancel' early, used] at clear
        · exact first start (by omega) before within free
    · rw [if_neg more]
      exact ⟨fun less => absurd less more, _, rfl, .inl rfl, by omega⟩

/-- If there is a start before the last one that fits, the first one is found. -/
theorem findContinuousUnset_fits (small : bits < 2 ^ 64) {start : Nat} (fits : start + n < bits) (free : Free bitset n start) :
    ∃ found ≤ start, findContinuousUnset bitset n = some found ∧ Free bitset n found ∧
    ∀ earlier < found, ¬ Free bitset n earlier := by
  obtain ⟨_, found, searched, fit, first⟩ :=
    @searchFrom_first bits n bitset small (by omega) (u64Sub bits n) 0 (by rw [u64Sub_of_le (by omega) small]; omega)
  have reached : found ≤ start := not_lt.mp (fun early => first start (Nat.zero_le _) early fits free)
  obtain rfl | ⟨_, foundFree⟩ := fit
  · omega
  · exact ⟨found, reached, searched, foundFree, fun earlier early => first earlier (Nat.zero_le _) early (by omega)⟩

/-- A search for more than there is tests a position behind the last one. -/
theorem not_confined (word : n < 2 ^ 64) (exceeds : bits < n) {rounds candidate : Nat} (low : candidate ≤ bits)
    (enough : bits < candidate + rounds) : ¬ Confined bitset n rounds candidate := by
  induction rounds generalizing candidate with
  | zero => omega
  | succ rounds ih =>
    intro confined
    have round := confined (by rw [u64Sub_of_lt exceeds word]; omega)
    split at round
    · next k found =>
      rw [u64_of_lt (by omega)] at round
      exact ih (by omega) (by omega) round.2
    · omega

/-- The search is exact unless more is asked for than there is, or only the last positions are free. -/
theorem findContinuousUnset_exact_iff (bitset : BitSet bits) (small : 8 * dataSize bits < 2 ^ 64) (word : n < 2 ^ 64)
    (positive : 1 ≤ n) :
    Exact bitset n ↔ n ≤ bits ∧ (Free bitset n (bits - n) → ∃ start, start + n < bits ∧ Free bitset n start) := by
  rw [dataSize] at small
  by_cases fits : n ≤ bits
  · obtain ⟨confined, result, found, fit, first⟩ :=
      @searchFrom_first bits n bitset (by omega) fits (u64Sub bits n) 0 (by rw [u64Sub_of_le fits (by omega)]; omega)
    constructor
    · rintro ⟨_, same, again, exact⟩
      rw [findContinuousUnset, found] at again
      cases again
      refine ⟨fits, fun free => ⟨result, fit.resolve_left (fun missed => ?_)⟩⟩
      obtain ⟨within, _⟩ | ⟨_, nowhere⟩ := exact
      · omega
      · exact nowhere _ (by omega) free
    · rintro ⟨_, last⟩
      refine ⟨confined, result, found, ?_⟩
      obtain rfl | ⟨within, free⟩ := fit
      · have nowhere : ∀ start, start + n < bits → ¬ Free bitset n start := fun start within =>
          first start (Nat.zero_le _) (by omega) within
        refine .inr ⟨by omega, fun start within free => ?_⟩
        by_cases final : start = bits - n
        · obtain ⟨other, within, free⟩ := last (final ▸ free)
          exact nowhere other within free
        · exact nowhere start (by omega) free
      · exact .inl ⟨by omega, free, fun start before => first start (Nat.zero_le _) before (by omega)⟩
  · have beyond : bits < 0 + (u64Sub bits n + 1) := by
      rw [u64Sub_of_lt (by omega) word]
      omega
    exact iff_of_false (fun exact => not_confined word (by omega) (Nat.zero_le _) beyond exact.1) (fun within => fits within.1)

theorem findContinuousUnset_exact_half : Exact (empty 2) 1 :=
  (findContinuousUnset_exact_iff (empty 2) (by decide) (by decide) (by decide)).mpr
    ⟨by decide, fun _ => ⟨0, by decide, by unfold Free; decide⟩⟩

/-- The only position is free, and is not found. -/
theorem findContinuousUnset_misses_all : ¬ Exact (empty 1) 1 := by
  rintro ⟨_, result, found, first⟩
  cases found
  obtain ⟨within, _⟩ | ⟨_, nowhere⟩ := first
  · omega
  · exact nowhere 0 (by decide) (by unfold Free; decide)

end

section

/-- The changes of a set, at positions below `bits`. -/
inductive Change (bits : Nat) where
  | set (pos : Fin bits) (value : Bool)
  | reset (pos : Fin bits)
  | flip (pos : Fin bits)
  | setAll
  | resetAll
  | flipAll

variable {bits : Nat} {bitset : BitSet bits} {vector : Nat → Bool}

def Change.perform (bitset : BitSet bits) : Change bits → Option (BitSet bits)
  | .set pos value => bitset.set pos value
  | .reset pos => bitset.reset pos
  | .flip pos => bitset.flip pos
  | .setAll => some (BitSets.setAll bits)
  | .resetAll => some (empty bits)
  | .flipAll => flipBelow bitset bits

/-- What a change does to a vector of booleans. -/
def Change.onVector (vector : Nat → Bool) : Change bits → Nat → Bool
  | .set pos value => Function.update vector pos value
  | .reset pos => Function.update vector pos false
  | .flip pos => Function.update vector pos (!vector pos)
  | .setAll => fun _ => true
  | .resetAll => fun _ => false
  | .flipAll => fun pos => !vector pos

/-- The vector after some changes, which is false everywhere at first. -/
def vectorOf (changes : List (Change bits)) : Nat → Bool := changes.foldl Change.onVector (fun _ => false)

/-- Every position below `bits` is tested with its boolean. -/
def Represents (bitset : BitSet bits) (vector : Nat → Bool) : Prop := ∀ pos < bits, bitset.test pos = some (vector pos)

theorem represents_setAll : Represents (setAll bits) (fun _ => true) := by
  intro pos inside
  rw [BitSet.test, setAll, Vector.getElem?_eq_getElem (idx_lt inside), neg_one_eq_allOnes]
  simp only [Vector.getElem_replicate, map_some, bit_test, getLsbD_allOnes]
  simp [Nat.mod_lt]

section

variable (represents : Represents bitset vector)
include represents

theorem set_represents {pos : Nat} (inside : pos < bits) (value : Bool) :
    ∃ after, bitset.set pos value = some after ∧ Represents after (update vector pos value) := by
  obtain ⟨after, done⟩ := set_inside bitset value inside
  refine ⟨after, done, fun tested within => ?_⟩
  rw [test_set done, represents tested within, update_apply, apply_ite some]

theorem flip_represents {pos : Nat} (inside : pos < bits) :
    ∃ after, bitset.flip pos = some after ∧ Represents after (update vector pos (!vector pos)) := by
  rw [BitSet.flip, represents pos inside]
  exact set_represents represents inside (!vector pos)

/-- The positions that the loop has reached are flipped. -/
theorem flipBelow_represents {count : Nat} (inside : count ≤ bits) :
    ∃ after, flipBelow bitset count = some after ∧ Represents after (fun pos => if pos < count then !vector pos else vector pos) := by
  induction count with
  | zero => exact ⟨bitset, rfl, by simpa using represents⟩
  | succ count ih =>
    obtain ⟨between, looped, represented⟩ := ih (Nat.le_of_succ_le inside)
    obtain ⟨after, done, flipped⟩ := flip_represents represented inside
    refine ⟨after, by rw [flipBelow, looped, bind_some, done], fun pos within => ?_⟩
    rw [flipped pos within, update_apply]
    grind

/-- One change of the set is that of the vector. -/
theorem perform_represents (change : Change bits) :
    ∃ after, change.perform bitset = some after ∧ Represents after (change.onVector vector) := by
  cases change with
  | set pos value => exact set_represents represents pos.isLt value
  | reset pos => exact set_represents represents pos.isLt false
  | flip pos => exact flip_represents represents pos.isLt
  | setAll => exact ⟨_, rfl, represents_setAll⟩
  | resetAll => exact ⟨_, rfl, fun _ => test_empty⟩
  | flipAll =>
    obtain ⟨after, done, flipped⟩ := flipBelow_represents represents (Nat.le_refl bits)
    exact ⟨after, done, fun pos inside => (flipped pos inside).trans (by simp [Change.onVector, inside])⟩

/-- A history of changes of the set is that of the vector. -/
theorem changes_represent (changes : List (Change bits)) :
    ∃ after, changes.foldlM Change.perform bitset = some after ∧ Represents after (changes.foldl Change.onVector vector) := by
  induction changes generalizing bitset vector with
  | nil => exact ⟨bitset, rfl, represents⟩
  | cons change changes ih =>
    obtain ⟨between, done, represented⟩ := perform_represents represents change
    rw [List.foldlM_cons, done]
    exact ih represented

end

section

variable (represents : Represents bitset vector) {pos remaining : Nat} (inside : pos + remaining ≤ bits)
include represents inside

theorem anyFrom_represents : anyFrom bitset pos remaining = some ((List.range' pos remaining).any vector) := by
  induction remaining generalizing pos with
  | zero => rfl
  | succ remaining ih =>
    rw [anyFrom, represents pos (by omega), bind_some, ih (by omega), List.range'_succ, List.any_cons]
    cases vector pos <;> rfl

theorem allFrom_represents : allFrom bitset pos remaining = some ((List.range' pos remaining).all vector) := by
  induction remaining generalizing pos with
  | zero => rfl
  | succ remaining ih =>
    rw [allFrom, represents pos (by omega), bind_some, ih (by omega), List.range'_succ, List.all_cons]
    cases vector pos <;> rfl

end

/-- Every access is inside of the words, and the tests and queries after any history are those of the vector. -/
theorem bitset_is_vector (bits : Nat) (changes : List (Change bits)) :
    ∃ bitset, changes.foldlM Change.perform (empty bits) = some bitset ∧
      (∀ pos < bits, bitset.test pos = some (vectorOf changes pos) ∧ bitset.subscript pos = some (vectorOf changes pos)) ∧
      bitset.any = some ((List.range bits).any (vectorOf changes)) ∧
      bitset.none = some (!(List.range bits).any (vectorOf changes)) ∧
      bitset.all = some ((List.range bits).all (vectorOf changes)) := by
  obtain ⟨bitset, done, represents⟩ := changes_represent (fun _ => test_empty) changes
  have any := anyFrom_represents represents (le_of_eq (Nat.zero_add bits))
  have all := allFrom_represents represents (le_of_eq (Nat.zero_add bits))
  rw [← List.range_eq_range'] at any all
  refine ⟨bitset, done, fun pos inside => ⟨represents pos inside, represents pos inside⟩, any, ?_, all⟩
  rw [BitSet.none, BitSet.any, any, Option.map_some]
  rfl

end

end Lfos.BitSets
