import Lfos.Words
import Mathlib.Data.List.Nodup
import Mathlib.Data.List.Induction
import Mathlib.Data.List.Perm.Basic

/-!
# Ledgers of allocators

A ledger is the sequence of calls that were made to an allocator. It is settled from the
first call on: the blocks that are held are those that were allocated and not given back
since. A ledger is in order if every block that is given back was held, and no block is
handed out while it is held. An allocator may charge its owner for the sizes of the blocks;
the owner is charged for what is held.
-/

namespace Lfos.Ledgers

open Words List Option
open Prod (fst snd)

/-- A call of an allocator with its answer. -/
inductive Call where
  | alloc (address size : Nat)
  | dealloc (address : Nat)
deriving DecidableEq, Repr

/-- Blocks with their sizes. -/
abbrev Held := List (Nat × Nat)

/-- The held blocks after a call; no result for a call that is out of order. -/
def settle (held : Held) : Call → Option Held
  | .alloc address size => if address ∈ held.map fst then none else some ((address, size) :: held)
  | .dealloc address =>
    if address ∈ held.map fst then some (held.filter (fun block => block.1 ≠ address)) else none

/-- The held blocks after a ledger. -/
def settleAll (held : Held) (ledger : List Call) : Option Held := ledger.foldlM settle held

/-- A block has been given back as often as it was handed out. -/
def GivenBack (ledger : List Call) (address : Nat) : Prop :=
  ∃ held, settleAll [] ledger = some held ∧ address ∉ held.map fst

/-- What the owner of the held blocks is charged after a call. -/
def charge (memory : Nat) (held : Held) : Call → Nat
  | .alloc _ size => u64 (memory + size)
  | .dealloc address => u64Sub memory ((held.lookup address).getD 0)

/-- The held blocks after a ledger and what the owner is charged then. -/
def chargeAll (memory : Nat) (ledger : List Call) : Option (Nat × Held) :=
  ledger.foldlM (fun (memory, held) call => (settle held call).map (charge memory held call, ·)) (memory, [])

/-- A ledger that is in order, and the blocks it leaves held, in any order. -/
structure Settles (ledger : List Call) (blocks : Held) : Prop where
  settled : ∃ held, settleAll [] ledger = some held ∧ held.Perm blocks
  distinct : (blocks.map fst).Nodup

/-- The bytes of the held blocks. -/
def total (held : Held) : Nat := (held.map snd).sum

section

variable {ledger : List Call} {blocks : Held} {address size : Nat}

theorem settles_nil : Settles [] [] := ⟨⟨[], rfl, .refl _⟩, nodup_nil⟩

theorem Settles.perm {others : Held} (settles : Settles ledger blocks) (same : blocks.Perm others) :
    Settles ledger others := by
  obtain ⟨held, settled, listed⟩ := settles.settled
  constructor
  · exact ⟨held, settled, listed.trans same⟩
  · exact (same.map fst).nodup_iff.mp settles.distinct

theorem filter_absent (absent : address ∉ blocks.map fst) :
    blocks.filter (fun block => block.1 ≠ address) = blocks := by
  apply filter_eq_self.mpr
  rintro ⟨other, size⟩ member
  apply decide_eq_true
  rintro rfl
  exact absent (mem_map.mpr ⟨(other, size), member, rfl⟩)

theorem settleAll_snoc (held : Held) (ledger : List Call) (call : Call) :
    settleAll held (ledger ++ [call]) = (settleAll held ledger).bind (settle · call) := by
  rw [settleAll, settleAll]
  simp

/-- A block that is not held can be handed out. -/
theorem Settles.alloc (settles : Settles ledger blocks) (fresh : address ∉ blocks.map fst) (size : Nat) :
    Settles (ledger ++ [.alloc address size]) ((address, size) :: blocks) := by
  obtain ⟨held, settled, listed⟩ := settles.settled
  constructor
  · refine ⟨(address, size) :: held, ?_, listed.cons _⟩
    have absent : address ∉ held.map fst := fun member => fresh ((listed.map fst).mem_iff.mp member)
    rw [settleAll_snoc, settled]
    exact if_neg absent
  · exact nodup_cons.mpr ⟨fresh, settles.distinct⟩

/-- A block that is held can be given back. -/
theorem Settles.dealloc (settles : Settles ledger ((address, size) :: blocks)) :
    Settles (ledger ++ [.dealloc address]) blocks := by
  obtain ⟨held, settled, listed⟩ := settles.settled
  obtain ⟨absent, distinct⟩ := nodup_cons.mp settles.distinct
  constructor
  · refine ⟨held.filter (fun block => block.1 ≠ address), ?_, ?_⟩
    · have member : address ∈ held.map fst := (listed.map fst).mem_iff.mpr mem_cons_self
      rw [settleAll_snoc, settled]
      exact if_pos member
    · have others := filter_absent absent
      have filtered := listed.filter (fun block => block.1 ≠ address)
      rwa [filter_cons_of_neg (by simp), others] at filtered
  · exact distinct

/-- Blocks that are given back one after the other. -/
theorem Settles.dealloc_all {returned : Held} (settles : Settles ledger (returned ++ blocks)) :
    Settles (ledger ++ returned.map (fun block => Call.dealloc block.1)) blocks := by
  induction returned generalizing ledger with
  | nil => simpa using settles
  | cons block rest ih =>
    have next := ih settles.dealloc
    rwa [append_assoc] at next

theorem Settles.givenBack_iff (settles : Settles ledger blocks) (address : Nat) :
    GivenBack ledger address ↔ address ∉ blocks.map fst := by
  obtain ⟨held, settled, listed⟩ := settles.settled
  have same : address ∈ held.map fst ↔ address ∈ blocks.map fst := (listed.map fst).mem_iff
  constructor
  · rintro ⟨other, again, absent⟩ member
    cases settled.symm.trans again
    exact absent (same.mpr member)
  · intro absent
    exact ⟨held, settled, fun member => absent (same.mp member)⟩

end

section

variable {held after : Held} {call : Call} {memory address : Nat}

section

variable (distinct : (held.map fst).Nodup)
include distinct

theorem settle_distinct (settled : settle held call = some after) : (after.map fst).Nodup := by
  cases call with
  | alloc address size =>
    obtain ⟨fresh, same⟩ := ite_none_left_eq_some.mp settled
    rw [← some.inj same]
    exact nodup_cons.mpr ⟨fresh, distinct⟩
  | dealloc address =>
    obtain ⟨_, same⟩ := ite_none_right_eq_some.mp settled
    rw [← some.inj same]
    exact distinct.sublist (filter_sublist.map fst)

/-- A block that is given back takes its size out of the total. -/
theorem total_filter (member : address ∈ held.map fst) :
    (held.lookup address).getD 0 + total (held.filter (fun block => block.1 ≠ address)) = total held := by
  induction held with
  | nil => exact nomatch member
  | cons block rest ih =>
    obtain ⟨other, size⟩ := block
    obtain ⟨absent, others⟩ := nodup_cons.mp distinct
    by_cases here : address = other
    · subst here
      have kept := filter_absent absent
      rw [filter_cons_of_neg (by simp), kept, lookup_cons_self, getD_some, total, total, map_cons, sum_cons]
    · have later : address ∈ rest.map fst := (mem_cons.mp member).resolve_left here
      have inner := ih others later
      have kept : decide ((other, size).1 ≠ address) = true := decide_eq_true (Ne.symm here)
      have differs : (address == other) = false := beq_false_of_ne here
      have head : ((other, size) :: rest).filter (fun block => block.1 ≠ address) =
          (other, size) :: rest.filter (fun block => block.1 ≠ address) := filter_cons_of_pos kept
      rw [head, lookup_cons, differs]
      simp only [total, map_cons, sum_cons] at inner ⊢
      omega

theorem charge_settle (settled : settle held call = some after) :
    charge (u64 (memory + total held)) held call = u64 (memory + total after) := by
  cases call with
  | alloc address size =>
    obtain ⟨_, same⟩ := ite_none_left_eq_some.mp settled
    rw [← some.inj same, charge, total, total, map_cons, sum_cons, u64, u64, u64, Nat.mod_add_mod]
    apply congrArg (· % 2 ^ 64)
    omega
  | dealloc address =>
    obtain ⟨member, same⟩ := ite_none_right_eq_some.mp settled
    have sizes := total_filter distinct member
    rw [← some.inj same, charge, ← sizes, u64, u64, u64Sub]
    omega

end

/-- The owner is charged for the blocks that are held. -/
theorem chargeAll_eq (memory : Nat) (small : memory < 2 ^ 64) (ledger : List Call) :
    chargeAll memory ledger = (settleAll [] ledger).map (fun held => (u64 (memory + total held), held)) ∧
    ∀ held, settleAll [] ledger = some held → (held.map fst).Nodup := by
  induction ledger using List.reverseRec with
  | nil =>
    constructor
    · exact congrArg (fun charged => some (charged, [])) (u64_of_lt small).symm
    · rintro held settled
      rw [← some.inj settled]
      exact nodup_nil
  | append_singleton before call ih =>
    obtain ⟨charged, distinct⟩ := ih
    rw [chargeAll] at charged
    rw [chargeAll, foldlM_append, charged, settleAll_snoc]
    cases settled : settleAll [] before with
    | none => exact ⟨rfl, nofun⟩
    | some held =>
      cases next : settle held call with
      | none => simp [next]
      | some after =>
        have same : charge (u64 (memory + total held)) held call = u64 (memory + total after) :=
          charge_settle (distinct held settled) next
        constructor
        · simp [next, same]
        · rintro other again
          rw [← some.inj (next.symm.trans again)]
          exact settle_distinct (distinct held settled) next

theorem Settles.charged {ledger : List Call} {blocks : Held} (settles : Settles ledger blocks)
    (small : memory < 2 ^ 64) : (chargeAll memory ledger).map fst = some (u64 (memory + total blocks)) := by
  obtain ⟨held, settled, listed⟩ := settles.settled
  have same : total held = total blocks := (listed.map snd).sum_nat
  rw [(chargeAll_eq memory small ledger).1, settled, ← same]
  simp only [map_some]

end

end Lfos.Ledgers
