import Mathlib.Data.List.Nodup

/-!
# Association lists

A finite map as the list of its entries. Keys are compared by an equality test that need not be
equality itself. A value that is put under a key replaces the one that is there, or becomes the
last entry.
-/

namespace Lfos.Associations

open List

universe u v
variable {κ : Type u} {β : Type v} [BEq κ]

def put (key : κ) (value : β) : List (κ × β) → List (κ × β)
  | [] => [(key, value)]
  | entry :: rest => if key == entry.1 then (entry.1, value) :: rest else entry :: put key value rest

/-- No key is there twice. -/
def Distinct (entries : List (κ × β)) : Prop := entries.Pairwise (fun one other => (one.1 == other.1) = false)

variable {key other : κ} {value : β} {entries : List (κ × β)}

/-- The entries of a list are what is found in it. -/
theorem lookup_mem (found : entries.lookup key = some value) : ∃ same, (key == same) = true ∧ (same, value) ∈ entries := by
  induction entries with
  | nil => exact nomatch found
  | cons entry rest ih =>
    rw [lookup_cons] at found
    split at found
    · next equal =>
      cases found
      exact ⟨entry.1, equal, mem_cons_self⟩
    · obtain ⟨same, equal, member⟩ := ih found
      exact ⟨same, equal, mem_cons_of_mem entry member⟩

theorem put_absent (absent : entries.lookup key = none) : put key value entries = entries ++ [(key, value)] := by
  induction entries with
  | nil => rfl
  | cons entry rest ih =>
    rw [lookup_cons] at absent
    split at absent
    · exact nomatch absent
    · next different =>
      rw [put, different, ih absent]
      rfl

/-- A value is replaced at its place, under its key. -/
theorem put_present (value : β) {old : β} (present : entries.lookup key = some old) :
    ∃ before same after, (key == same) = true ∧ entries = before ++ (same, old) :: after ∧
    put key value entries = before ++ (same, value) :: after := by
  induction entries with
  | nil => exact nomatch present
  | cons entry rest ih =>
    rw [lookup_cons] at present
    split at present
    · next equal =>
      cases present
      refine ⟨[], entry.1, rest, equal, rfl, ?_⟩
      rw [put, equal]
      rfl
    · next different =>
      obtain ⟨before, same, after, equal, parts, replaced⟩ := ih present
      refine ⟨entry :: before, same, after, equal, by rw [parts]; rfl, ?_⟩
      rw [put, different, replaced]
      rfl

/-- The entries after a value was put under a key: old ones, and the value at a place of the key. -/
theorem mem_put {one : κ × β} (member : one ∈ put key value entries) :
    one ∈ entries ∨ one.2 = value ∧ (one.1 = key ∨ ∃ old, (one.1, old) ∈ entries) := by
  induction entries with
  | nil =>
    obtain rfl := mem_singleton.mp member
    exact .inr ⟨rfl, .inl rfl⟩
  | cons entry rest ih =>
    rw [put] at member
    split at member
    · rcases mem_cons.mp member with rfl | later
      · exact .inr ⟨rfl, .inr ⟨entry.2, mem_cons_self⟩⟩
      · exact .inl (mem_cons_of_mem entry later)
    · rcases mem_cons.mp member with rfl | later
      · exact .inl mem_cons_self
      · rcases ih later with there | ⟨isValue, isNew | ⟨old, there⟩⟩
        · exact .inl (mem_cons_of_mem entry there)
        · exact .inr ⟨isValue, .inl isNew⟩
        · exact .inr ⟨isValue, .inr ⟨old, mem_cons_of_mem entry there⟩⟩

variable [EquivBEq κ]

theorem lookup_put_of_beq (same : other == key) : (put key value entries).lookup other = some value := by
  induction entries with
  | nil => rw [put, lookup_cons, same]
  | cons entry rest ih =>
    rw [put]
    split
    · next here => rw [lookup_cons, BEq.trans same here]
    · next elsewhere =>
      have apart : (other == entry.1) = false := by
        apply Bool.eq_false_iff.mpr
        intro equal
        exact elsewhere (BEq.trans (BEq.symm same) equal)
      rw [lookup_cons, apart]
      exact ih

theorem lookup_put_self : (put key value entries).lookup key = some value := lookup_put_of_beq BEq.rfl

theorem lookup_put_other (different : (other == key) = false) : (put key value entries).lookup other = entries.lookup other := by
  induction entries with
  | nil =>
    rw [put, lookup_cons, different]
  | cons entry rest ih =>
    rw [put]
    split
    · next same =>
      have apart : (other == entry.1) = false := by
        apply Bool.eq_false_iff.mpr
        intro equal
        rw [BEq.trans equal (BEq.symm same)] at different
        exact nomatch different
      rw [lookup_cons, lookup_cons, apart]
    · rw [lookup_cons, lookup_cons, ih]

theorem Distinct.put (distinct : Distinct entries) : Distinct (put key value entries) := by
  induction entries with
  | nil => exact pairwise_singleton _ _
  | cons entry rest ih =>
    obtain ⟨first, others⟩ := pairwise_cons.mp distinct
    rw [Associations.put]
    split
    · exact pairwise_cons.mpr ⟨first, others⟩
    · next elsewhere =>
      refine pairwise_cons.mpr ⟨?_, ih others⟩
      intro one member
      rcases mem_put member with there | ⟨_, isNew | ⟨old, there⟩⟩
      · exact first one there
      · rw [isNew, BEq.comm]
        exact Bool.eq_false_iff.mpr elsewhere
      · exact first (one.1, old) there

end Lfos.Associations
