import Lfos.LinkedHeap
import Mathlib.Data.Int.Order.Basic

/-!
# Service discovery

Services are identified by UUIDs. A one-byte key, the exclusive or of the sixteen
bytes, selects a shortcut into one global linked list of entries; an entry holds
the queues registered under its UUID. An entry for a new key is appended at the
tail without a back link. An entry for a further UUID with a known key is
inserted before a neighbour found from the shortcut, and the shortcut then
points to the new entry.

Entries are never freed, so addresses are numbered in allocation order from one;
reading address zero is the null dereference and yields no result. Loops along
`next` are bounded by the number of entries. The delivery loop is stated for an
arbitrary queue world and push operation.
-/

namespace Lfos.ServiceDiscovery

open LinkedHeap

/-- A UUID as its sixteen bytes. -/
abbrev Uuid := Vector UInt8 16

/-- The shortcut index: the exclusive or of all bytes. -/
def uuidKey (uuid : Uuid) : UInt8 := uuid.toList.foldl (fun key byte => key ^^^ byte) 0

/-- The difference of the first two bytes that differ, and zero if none do. -/
def memcmp : List UInt8 → List UInt8 → Int
  | left :: lefts, right :: rights =>
    if left = right then memcmp lefts rights else (left.toNat : Int) - right.toNat
  | _, _ => 0

def uuidCmp (left right : Uuid) : Int := memcmp left.toList right.toList

/-- One entry: links, identity and the queues pushed so far in order. -/
structure SdEntry where
  prev : Nat
  next : Nat
  uuid : Uuid
  queues : List Nat
deriving DecidableEq

/-- Queue slots in an entry of 4080 bytes. -/
def queueSlots : Nat := (4080 - 16 - 8 - 8 * 2) / 8

/-- The global service data, together with the entries allocated so far. -/
structure Sd where
  entryShortcut : UInt8 → Nat
  tail : Nat
  head : Nat
  heap : Heap SdEntry
  allocations : Nat

def enoent : Nat := 2
def enomem : Nat := 12

/-- No entry and no shortcut. -/
def initSd : Sd := ⟨fun _ => 0, 0, 0, fun _ => none, 0⟩

/-- The address the next entry will have. -/
def Sd.fresh (sd : Sd) : Nat := sd.allocations + 1

/-- A new entry with null links and one queue. -/
def newSdEntry (sd : Sd) (uuid : Uuid) (queue : Nat) : Sd :=
  { sd with
    heap := sd.heap.write sd.fresh ⟨0, 0, uuid, [queue]⟩
    allocations := sd.fresh }

/-- Move forward while the following entry has the key and a larger UUID. -/
def lastLarger (heap : Heap SdEntry) (key : UInt8) (uuid : Uuid) : Nat → Nat → Option Nat
  | 0, _ => none
  | fuel + 1, cur => do
    let cell ← heap cur
    if cell.next = 0 then some cur
    else
      let following ← heap cell.next
      if uuidKey following.uuid = key ∧ 0 < uuidCmp following.uuid uuid then
        lastLarger heap key uuid fuel cell.next
      else some cur

/-- Append an entry for a key seen for the first time. -/
def appendEntry (sd : Sd) (uuid : Uuid) (queue : Nat) : Option Sd := do
  let entry := sd.fresh
  let added := newSdEntry sd uuid queue
  let linked ←
    if sd.tail ≠ 0 then do
      let last ← added.heap sd.tail
      some { added with heap := added.heap.write sd.tail { last with next := entry }, tail := entry }
    else some { added with head := entry, tail := entry }
  some { linked with entryShortcut := Function.update linked.entryShortcut (uuidKey uuid) entry }

/-- Insert an entry before `cur` and make it the shortcut of its key. -/
def insertBefore (sd : Sd) (cur : Nat) (uuid : Uuid) (queue : Nat) : Option Sd := do
  let entry := sd.fresh
  let added := newSdEntry sd uuid queue
  let place ← added.heap cur
  let behind ←
    if place.prev ≠ 0 then do
      let before ← added.heap place.prev
      some (added.heap.write place.prev { before with next := entry })
    else some added.heap
  let place ← behind cur
  let created ← behind entry
  let inserted := behind.write entry { created with next := cur, prev := place.prev }
  let place ← inserted cur
  some { added with
    heap := inserted.write cur { place with prev := entry }
    entryShortcut := Function.update added.entryShortcut (uuidKey uuid) entry }

/-- Register a queue for a service. No result is a null dereference; otherwise
the returned error number accompanies the new state. -/
def sdRegister (sd : Sd) (uuid : Uuid) (queue : Nat) : Option (Nat × Sd) := do
  let key := uuidKey uuid
  let entry := sd.entryShortcut key
  if entry = 0 then
    let appended ← appendEntry sd uuid queue
    some (0, appended)
  else
    let cell ← sd.heap entry
    if uuidCmp cell.uuid uuid ≠ 0 then
      let cur ←
        if uuidCmp cell.uuid uuid < 0 then some cell.prev
        else lastLarger sd.heap key uuid (sd.allocations + 1) entry
      let inserted ← insertBefore sd cur uuid queue
      some (0, inserted)
    else if queueSlots ≤ cell.queues.length then some (enomem, sd)
    else some (0, { sd with heap := sd.heap.write entry { cell with queues := cell.queues ++ [queue] } })

/-- Follow `next` to the entry of a UUID; zero if there is none. -/
def findEntry (heap : Heap SdEntry) (uuid : Uuid) : Nat → Nat → Option Nat
  | 0, _ => none
  | fuel + 1, entry =>
    if entry = 0 then some 0
    else do
      let cell ← heap entry
      if uuidCmp cell.uuid uuid ≠ 0 then findEntry heap uuid fuel cell.next
      else some entry

section

variable {World : Type}

/-- Push to every queue in order and count the pushes that returned zero. -/
def pushAll (mqPush : Nat → World → Nat × World) : List Nat → Nat → World → Nat × World
  | [], success, world => (success, world)
  | queue :: rest, success, world =>
    let pushed := mqPush queue world
    pushAll mqPush rest (if pushed.1 = 0 then success + 1 else success) pushed.2

/-- Send a message to every queue of a service. -/
def sdSend (mqPush : Nat → World → Nat × World) (sd : Sd) (uuid : Uuid) (world : World) : Option (Int × World) := do
  let entry ← findEntry sd.heap uuid (sd.allocations + 1) (sd.entryShortcut (uuidKey uuid))
  if entry = 0 then some (-(enoent : Int), world)
  else
    let cell ← sd.heap entry
    let sent := pushAll mqPush cell.queues 0 world
    some (sent.1, sent.2)

end

/-- The end of a sequence of registrations. -/
inductive Outcome where
  | faulted
  | refused
  | done (sd : Sd)

/-- Register in order. The sequence ends at a null dereference or at the first
registration that does not return zero. -/
def registerAll : List (Uuid × Nat) → Sd → Outcome
  | [], sd => .done sd
  | (uuid, queue) :: rest, sd =>
    match sdRegister sd uuid queue with
    | none => .faulted
    | some (error, after) => if error = 0 then registerAll rest after else .refused

/-- The queues registered under a UUID, in order. -/
def queuesFor (history : List (Uuid × Nat)) (uuid : Uuid) : List Nat :=
  (history.filter (fun registration => decide (registration.1 = uuid))).map Prod.snd

/-- What a send has to do: report an unknown service, or push to every queue. -/
def delivered {World : Type} (mqPush : Nat → World → Nat × World) (queues : List Nat)
    (world : World) : Int × World :=
  if queues = [] then (-(enoent : Int), world)
  else
    let sent := pushAll mqPush queues 0 world
    (sent.1, sent.2)

/-- Every send is delivered to exactly the queues registered under its UUID. -/
def Routes (sd : Sd) (history : List (Uuid × Nat)) : Prop :=
  ∀ (World : Type) (mqPush : Nat → World → Nat × World) (uuid : Uuid) (world : World),
    sdSend mqPush sd uuid world = some (delivered mqPush (queuesFor history uuid) world)

/-- The UUIDs of the registrations, in order. -/
def registered (history : List (Uuid × Nat)) : List Uuid := history.map Prod.fst

/-- Among the UUIDs of one key, an earlier one is never smaller than a later
one, and at most two are different. -/
def Tame (uuids : List Uuid) : Prop :=
  uuids.Pairwise (fun earlier later =>
    uuidKey earlier = uuidKey later → earlier = later ∨ 0 < uuidCmp earlier later) ∧
  ∀ first ∈ uuids, ∀ second ∈ uuids, ∀ third ∈ uuids, uuidKey first = uuidKey second → uuidKey second = uuidKey third →
      first = second ∨ second = third ∨ first = third

-- The bounded quantifiers run over the list, never over all UUIDs.
instance (uuids : List Uuid) : Decidable (Tame uuids) :=
  @instDecidableAnd _ _ inferInstance (@List.decidableBAll _ _ (fun _ => @List.decidableBAll _ _ (fun _ =>
      @List.decidableBAll _ _ (fun _ => inferInstance) uuids) uuids) uuids)

theorem memcmp_self (bytes : List UInt8) : memcmp bytes bytes = 0 := by
  induction bytes with
  | nil => rfl
  | cons byte rest ih => simp [memcmp, ih]

/-- Equal lengths compare equal only when they are equal. -/
theorem memcmp_eq_zero {left right : List UInt8} (length : left.length = right.length)
    (same : memcmp left right = 0) : left = right := by
  induction left generalizing right with
  | nil => exact (List.length_eq_zero_iff.mp length.symm).symm
  | cons byte rest ih =>
    cases right with
    | nil => simp at length
    | cons other more =>
      rw [memcmp] at same
      split at same
      · next equal => rw [equal, ih (Nat.succ.inj length) same]
      · next different =>
        exfalso
        apply different
        rw [← UInt8.toNat_inj]
        omega

/-- The comparison is transitive on lists of one length. -/
theorem memcmp_trans {left middle right : List UInt8} (lengths : left.length = middle.length)
    (more : middle.length = right.length) (first : 0 < memcmp left middle)
    (second : 0 < memcmp middle right) : 0 < memcmp left right := by
  induction left generalizing middle right with
  | nil =>
    cases middle with
    | nil => simp [memcmp] at first
    | cons byte rest => simp at lengths
  | cons a as ih =>
    cases middle with
    | nil => simp at lengths
    | cons b bs =>
      cases right with
      | nil => simp at more
      | cons c cs =>
        rw [memcmp] at first second ⊢
        split at first
        · next sameFirst =>
          subst sameFirst
          split at second
          · next sameSecond =>
            subst sameSecond
            rw [if_pos rfl]
            exact ih (Nat.succ.inj lengths) (Nat.succ.inj more) first second
          · next different =>
            rw [if_neg different]
            exact second
        · next different =>
          split at second
          · next sameSecond =>
            subst sameSecond
            rw [if_neg different]
            exact first
          · have apart : a ≠ c := by
              rintro rfl
              omega
            rw [if_neg apart]
            omega

theorem uuidCmp_self (uuid : Uuid) : uuidCmp uuid uuid = 0 := memcmp_self _

theorem uuidCmp_eq_zero_iff (left right : Uuid) : uuidCmp left right = 0 ↔ left = right := by
  constructor
  · intro same
    have lists := memcmp_eq_zero (by simp) same
    exact Vector.toList_inj.mp lists
  · rintro rfl
    exact uuidCmp_self left

theorem ne_of_uuidCmp_pos {left right : Uuid} (larger : 0 < uuidCmp left right) : left ≠ right := by
  rintro rfl
  rw [uuidCmp_self] at larger
  exact absurd larger (lt_irrefl 0)

theorem uuidCmp_trans {left middle right : Uuid} (first : 0 < uuidCmp left middle)
    (second : 0 < uuidCmp middle right) : 0 < uuidCmp left right :=
  memcmp_trans (by simp) (by simp) first second

end Lfos.ServiceDiscovery
