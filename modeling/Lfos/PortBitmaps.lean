import Lfos.PortIsolation

/-!
# The bitmaps of ports as sets

A process without ports has no bitmap. The first port it turns on gives it one, and the last one it turns off
takes it away, with its two page frames being returned to the allocator. In between a cleared bit is a
port that is on.

The number of ports of a call is not compared with the number of ports there are: with ports behind the last one
the frames behind the bitmap are written. A call that turns on no port at all gives the process a bitmap nevertheless.
-/

namespace Lfos.PortPermissions

open PageTables TableTrees BitVec
open Function (update update_of_ne update_self)

/-- A memory differs from another one in the two frames of a bitmap only. -/
def Within (physical : Nat) (before after : Memory) : Prop :=
  ∀ frame, frame ∉ pagesOf physical → after frame = before frame

/-- Only the two frames of the bitmap are written, apart from the tables that `set_iopb` writes when the
bitmap is new and when it is not needed anymore. -/
inductive Confined (machine : Machine) (pid : Nat) (supplies : Supply × Supply) : Machine → Prop where
  | nothing : Confined machine pid supplies machine
  | first {after : Machine} (absent : machine.iopb pid = 0)
      (within : Within (after.iopb pid) (setIopb machine (machine.contexts pid) (after.iopb pid) supplies).memory
        after.memory) : Confined machine pid supplies after
  | further {after : Machine} (there : machine.iopb pid ≠ 0) (within : Within (machine.iopb pid) machine.memory after.memory) :
      Confined machine pid supplies after
  | last {after : Machine} {middle : Memory} (there : machine.iopb pid ≠ 0)
      (within : Within (machine.iopb pid) machine.memory middle)
      (rest : after.memory = (setIopb { machine with memory := middle } (machine.contexts pid) 0 supplies).memory) :
      Confined machine pid supplies after

/-- The bitmap of a process is the set of its ports, and there is one if the set is not empty. -/
structure Exact (traced : Traced) (pid : Nat) : Prop where
  bits : traced.machine.iopb pid ≠ 0 → ∀ port < 65536,
    bitmapGet traced.machine.memory (traced.machine.iopb pid) port = !traced.on pid port
  empty : traced.machine.iopb pid = 0 ↔ ∀ port < 65536, traced.on pid port = false

/-- A call returns the frames of the bitmap exactly if the set becomes empty, and writes nothing else than the bitmap. -/
structure Careful (traced : Traced) (pid first num : Nat) (turnOn : Bool) (answers : Answers) : Prop where
  returned : (ioperm traced.machine pid first num turnOn answers).2 =
    if (∃ port : Nat, port < 65536 ∧ traced.on pid port = true) ∧
        ∀ port : Nat, port < 65536 → turned traced.on pid first num turnOn pid port = false then
      pagesOf (traced.machine.iopb pid)
    else []
  confined : Confined traced.machine pid answers.supplies (scHandleHardwareIoperm traced.machine pid first num turnOn answers)

/-- The ports of a call exist, and the first call of a process does turn on a port. -/
def Tame (traced : Traced) : Event → Prop
  | .ioperm pid first num turnOn _ => traced.machine.iopb pid = 0 ∧ turnOn = false ∨
      first + num ≤ 65536 ∧ (turnOn = true → traced.machine.iopb pid = 0 → num ≠ 0)
  | .enter _ _ => True
  | .store _ _ => True

variable {machine : Machine} {on : Nat → Nat → Bool} {pid first num : Nat} {answers : Answers}

section

/-- Taking the bitmap from a process that has no port on. -/
theorem revoke_lodged (lodged : Lodged machine on) (allOff : ∀ port, on pid port = false) {supplies : Supply × Supply}
    (fresh : ∀ frame ∈ supplies.1.frames ++ supplies.2.frames, Unused machine frame)
    (distinct : (supplies.1.frames ++ supplies.2.frames).Nodup) : Lodged (revoke machine pid supplies) on := by
  have remapped := setIopb_memory lodged.shared fresh distinct pid 0
  have none : (revoke machine pid supplies).iopb pid = 0 := update_self ..
  have nothing : (revoke machine pid supplies).pages pid = [] := if_pos none
  exact lodged.exchange (remapped.shared.iopb _ _) fresh remapped.elsewhere (fun _ different => update_of_ne different ..)
    (by simp [nothing]) (fun there => absurd none there) (fun _ => allOff)

end

/-- What every call keeps: the bitmaps are in place, each of them has a port on, and there is no port behind the last one. -/
structure Encoded (machine : Machine) (on : Nat → Nat → Bool) : Prop where
  lodged : Lodged machine on
  nonempty : ∀ pid, machine.iopb pid ≠ 0 → ∃ port < 65536, on pid port = true
  beyond : ∀ pid port, 65536 ≤ port → on pid port = false

/-- There are no ports behind the last one if the ports of the call exist. -/
theorem turned_beyond (beyond : ∀ pid port, 65536 ≤ port → on pid port = false) (inside : first + num ≤ 65536)
    (turnOn : Bool) (other port : Nat) (behind : 65536 ≤ port) : turned on pid first num turnOn other port = false := by
  by_cases own : other = pid
  · rw [own, turned_own, if_neg (by omega)]
    exact beyond pid port behind
  · rw [turned_other own]
    exact beyond other port behind

/-- The set of a process that has a bitmap is not empty, that of another one is. -/
theorem Encoded.empty_iff (encoded : Encoded machine on) (pid : Nat) :
    machine.iopb pid = 0 ↔ ∀ port < 65536, on pid port = false := by
  constructor
  · exact fun absent port _ => encoded.lodged.off pid port absent
  · intro none
    by_contra there
    obtain ⟨port, small, isOn⟩ := encoded.nonempty pid there
    rw [none port small] at isOn
    exact absurd isOn (by decide)

theorem Answered.supplies (answered : Answered machine answers) :
    (∀ frame ∈ answers.tables, Unused machine frame) ∧ answers.tables.Nodup :=
  ⟨(List.forall_mem_append.mp answered.unused).2, (List.nodup_append.mp answered.distinct).2.1⟩

section

variable (encoded : Encoded machine on)
include encoded

/-- A process turns on ports and gets a bitmap for them. -/
theorem encoded_first (absent : machine.iopb pid = 0) (answered : Answered machine answers)
    (inside : first + num ≤ 65536) (positive : num ≠ 0) :
    Encoded (switched (grant machine pid answers) pid first num true) (turned on pid first num true) := by
  have lodged := switched_lodged (grant_lodged encoded.lodged absent answered)
    (grant_iopb_nonzero answered pid) inside true
  refine ⟨lodged, ?_, turned_beyond encoded.beyond inside true⟩
  intro other there
  by_cases own : other = pid
  · refine ⟨first, by omega, ?_⟩
    rw [own, turned_own, if_pos (by omega)]
  · have theirs : machine.iopb other ≠ 0 := grant_iopb_other machine answers own ▸ there
    rw [turned_other own]
    exact encoded.nonempty other theirs

/-- A process that has a bitmap turns on ports, or turns off ports and has others on. -/
theorem encoded_further (there : machine.iopb pid ≠ 0) (inside : first + num ≤ 65536)
    {turnOn : Bool} (remains : turnOn = true ∨
    someEnabled (switched machine pid first num turnOn).memory (machine.iopb pid) = true) :
    Encoded (switched machine pid first num turnOn) (turned on pid first num turnOn) ∧
      ∃ port < 65536, turned on pid first num turnOn pid port = true := by
  have lodged := switched_lodged encoded.lodged there inside turnOn
  have left : ∃ port < 65536, turned on pid first num turnOn pid port = true := by
    rcases remains with on | seen
    · obtain ⟨port, small, isOn⟩ := encoded.nonempty pid there
      refine ⟨port, small, ?_⟩
      rw [turned_own, on, isOn, ite_self]
    · obtain ⟨port, small, clear⟩ := someEnabled_iff.mp seen
      have bit := lodged.bits pid port there small
      exact ⟨port, small, by simpa using clear.symm.trans bit⟩
  refine ⟨⟨lodged, ?_, turned_beyond encoded.beyond inside turnOn⟩, left⟩
  intro other theirs
  by_cases own : other = pid
  · rw [own]
    exact left
  · rw [turned_other own]
    exact encoded.nonempty other theirs

/-- A process turns off all the ports it has left. -/
theorem encoded_last (there : machine.iopb pid ≠ 0) (answered : Answered machine answers) (inside : first + num ≤ 65536)
    (unseen : someEnabled (switched machine pid first num false).memory (machine.iopb pid) = false) :
    Encoded (revoke (switched machine pid first num false) pid answers.supplies) (turned on pid first num false) ∧
      ∀ port, turned on pid first num false pid port = false := by
  have lodged := switched_lodged encoded.lodged there inside false
  have beyond : ∀ other port, 65536 ≤ port → turned on pid first num false other port = false :=
    turned_beyond encoded.beyond inside false
  have allOff (port : Nat) : turned on pid first num false pid port = false := by
    rcases lt_or_ge port 65536 with small | behind
    · by_contra isOn
      have bit := lodged.bits pid port there small
      rw [Bool.not_eq_false] at isOn
      rw [isOn] at bit
      exact absurd (unseen.symm.trans (someEnabled_iff.mpr ⟨port, small, bit⟩)) (by decide)
    · exact beyond pid port behind
  have steady := switched_steady encoded.lodged there inside false
  obtain ⟨fresh, distinct⟩ := answered.supplies
  have revoked := revoke_lodged lodged allOff (fun frame member => ⟨(fresh frame member).small,
    (fresh frame member).table.steady steady, (fresh frame member).bitmap⟩) distinct
  refine ⟨⟨revoked, ?_, beyond⟩, allOff⟩
  intro other theirs
  have own : other ≠ pid := by
    rintro rfl
    exact theirs (update_self ..)
  have same : update machine.iopb pid 0 other = machine.iopb other := update_of_ne own ..
  rw [turned_other own]
  exact encoded.nonempty other (fun gone => theirs (same.trans gone))

/-- The call of a process that has neither ports nor wants any. -/
theorem encoded_nothing (absent : machine.iopb pid = 0) : Encoded machine (turned on pid first num false) := by
  rw [turned_none encoded.lodged absent]
  exact encoded

end

theorem switched_within (machine : Machine) (pid : Nat) (inside : first + num ≤ 65536) (turnOn : Bool) :
    Within (machine.iopb pid) machine.memory (switched machine pid first num turnOn).memory :=
  fun _ absent => changePorts_elsewhere turnOn inside absent

/-- Filling a new bitmap and turning on ports writes nothing but the bitmap. -/
theorem first_within (machine : Machine) (pid : Nat) (answers : Answers) (inside : first + num ≤ 65536) :
    Within answers.physical (setIopb machine (machine.contexts pid) answers.physical answers.supplies).memory
    (switched (grant machine pid answers) pid first num true).memory := by
  intro frame absent
  have later := switched_within (grant machine pid answers) pid inside true frame (grant_iopb_self .. ▸ absent)
  simp only [pagesOf, List.mem_cons, List.not_mem_nil, or_false] at absent
  exact later.trans ((update_of_ne (by tauto) ..).trans (update_of_ne (by tauto) ..))

/-- A call that meets the condition keeps the set exact, and returns and writes what it should. -/
theorem ioperm_encoded (encoded : Encoded traced.machine traced.on) {turnOn : Bool}
    (answered : Answered traced.machine answers) (tame : Tame traced (.ioperm pid first num turnOn answers)) :
    Encoded (scHandleHardwareIoperm traced.machine pid first num turnOn answers) (turned traced.on pid first num turnOn) ∧
    Careful traced pid first num turnOn answers := by
  have after : (ioperm traced.machine pid first num turnOn answers).1 =
    scHandleHardwareIoperm traced.machine pid first num turnOn answers := rfl
  rcases ioperm_cases traced.machine pid first num turnOn answers with
    ⟨absent, rfl, result⟩ | ⟨absent, rfl, result⟩ | ⟨there, remains, result⟩ | ⟨there, rfl, unseen, result⟩ <;>
    rw [result] at after
  · refine ⟨after ▸ encoded_nothing encoded absent, ?_, after ▸ .nothing⟩
    rw [result, if_neg]
    rintro ⟨⟨port, small, isOn⟩, _⟩
    rw [encoded.lodged.off pid port absent] at isOn
    exact absurd isOn (by decide)
  · obtain ⟨inside, positive⟩ := tame.resolve_left (by simp)
    refine ⟨after ▸ encoded_first encoded absent answered inside (positive rfl absent), ?_, after ▸ .first absent ?_⟩
    · rw [result, if_neg]
      rintro ⟨⟨port, small, isOn⟩, _⟩
      rw [encoded.lodged.off pid port absent] at isOn
      exact absurd isOn (by decide)
    · have given : (switched (grant traced.machine pid answers) pid first num true).iopb pid = answers.physical :=
        update_self ..
      rw [given]
      exact first_within traced.machine pid answers inside
  · obtain ⟨inside, _⟩ := tame.resolve_left (fun both => there both.1)
    obtain ⟨kept, port, small, isOn⟩ := encoded_further encoded there inside remains
    refine ⟨after ▸ kept, ?_, after ▸ .further there (switched_within _ pid inside turnOn)⟩
    rw [result, if_neg]
    rintro ⟨_, none⟩
    rw [none port small] at isOn
    exact absurd isOn (by decide)
  · obtain ⟨inside, _⟩ := tame.resolve_left (fun both => there both.1)
    obtain ⟨kept, allOff⟩ := encoded_last encoded there answered inside unseen
    refine ⟨after ▸ kept, ?_, after ▸ .last there (switched_within _ pid inside false) rfl⟩
    rw [result, if_pos]
    exact ⟨encoded.nonempty pid there, fun port _ => allOff port⟩

theorem initial_encoded (initial : ports.initial traced) : Encoded traced.machine traced.on := by
  have lodged := (initial_settled initial).kept.lodged
  obtain ⟨_, off, _, none⟩ := initial
  refine ⟨lodged, fun pid there => absurd (none pid).1 there, ?_⟩
  intro pid port _
  rw [off]

theorem step_encoded {after : Traced} {event : Event} (encoded : Encoded traced.machine traced.on)
    (step : ports.step traced event after) (tame : Tame traced event) : Encoded after.machine after.on := by
  cases event with
  | ioperm pid first num turnOn answers =>
    obtain ⟨_, _, answered, rfl⟩ := step
    exact (ioperm_encoded encoded answered tame).1
  | enter who supplies =>
    obtain rfl : after = _ := step
    exact ⟨enter_lodged encoded.lodged who supplies, encoded.nonempty, encoded.beyond⟩
  | store frame contents =>
    obtain ⟨unused, rfl⟩ := step
    exact ⟨store_lodged unused contents encoded.lodged, encoded.nonempty, encoded.beyond⟩

theorem encoded_of_reachable (reachable : (ports.under Tame).Reachable traced) : Encoded traced.machine traced.on :=
  reachable.invariant (fun _ initial => initial_encoded initial)
    (fun _ _ _ encoded step => step_encoded encoded step.2 step.1)

/-- As long as the ports of the calls exist and no first call is one for no port, the bitmap of a process is exactly the set
of the ports it turned on and not off since, there is one as long as the set is not empty, its frames are returned
when the set becomes empty, and no other frame is written. -/
theorem ports_exact (traced : Traced) (reachable : (ports.under Tame).Reachable traced) :
    (∀ pid, Exact traced pid) ∧ ∀ pid first num turnOn answers after,
      ports.step traced (.ioperm pid first num turnOn answers) after → Tame traced (.ioperm pid first num turnOn answers) →
      Careful traced pid first num turnOn answers := by
  have encoded := encoded_of_reachable reachable
  constructor
  · exact fun pid => ⟨fun there port small => encoded.lodged.bits pid port there small, encoded.empty_iff pid⟩
  · rintro pid first num turnOn answers after ⟨_, _, answered, _⟩ tame
    exact (ioperm_encoded encoded answered tame).2

/-- A process that asked for the first port of the keyboard. -/
theorem ports_exact_keyboard : Exact (keyboardAnswered 0#64) 5 ∧ (keyboardAnswered 0#64).on 5 0x60 = true := by
  have run : (ports.under Tame).Run (commonStart 0#64) [.ioperm 5 0x60 1 true portAnswers] (keyboardAnswered 0#64) :=
    .next .done ⟨.inr ⟨by decide, fun _ _ => by decide⟩, keyboard_step _⟩
  exact ⟨(ports_exact _ ⟨_, _, commonStart_initial _, run⟩).1 5, rfl⟩

/-- What is written when a process is given a bitmap. -/
theorem Confined.new {machine after : Machine} {pid : Nat} {supplies : Supply × Supply} (confined : Confined machine pid supplies after)
    (absent : machine.iopb pid = 0) (given : after.iopb pid ≠ 0) :
    Within (after.iopb pid) (setIopb machine (machine.contexts pid) (after.iopb pid) supplies).memory after.memory := by
  cases confined with
  | nothing => exact absurd absent given
  | first _ within => exact within
  | further there _ | last there _ _ => exact absurd absent there

/-- The two pages of a bitmap far away from the tables. -/
def farAnswers : Answers := ⟨0x400000, ⟨6, 7, 8⟩, ⟨9, 10, 11⟩⟩

theorem farAnswers_answered (filler : VmTableEntry) : Answered (commonMachine filler) farAnswers where
  aligned := by decide
  nonzero := by decide
  distinct := by decide
  unused := by
    have inside : ∀ frame ∈ farAnswers.frames, frame < 0xFFFFF ∧ frame ≠ 1 ∧ frame ≠ 2 ∧ frame ≠ 3 := by decide
    exact fun frame member => commonMachine_unused filler (inside frame member).1 (inside frame member).2

/-- A first call for no port gives a process a bitmap, and one for two ports from the last one on clears a bit of the frame
behind the bitmap, which may be anybody's. -/
theorem ports_beyond : (∃ after, ports.step (commonStart 0#64) (.ioperm 5 0 0 true farAnswers) after ∧ ¬Exact after 5) ∧
      ∃ after, ports.step (commonStart (BitVec.allOnes 64)) (.ioperm 5 65535 2 true farAnswers) after ∧
        ¬Careful (commonStart (BitVec.allOnes 64)) 5 65535 2 true farAnswers := by
  constructor
  · refine ⟨_, ⟨by decide, by decide, farAnswers_answered _, rfl⟩, ?_⟩
    intro exact
    have none : ∀ port < 65536, turned (fun _ _ => false) 5 0 0 true 5 port = false := by
      intro port _
      rw [turned_own, if_neg (by omega)]
    have gone := exact.empty.mpr none
    exact absurd gone (by decide)
  · refine ⟨_, ⟨by decide, by decide, farAnswers_answered _, rfl⟩, ?_⟩
    intro careful
    obtain ⟨fresh, distinct⟩ := (farAnswers_answered (BitVec.allOnes 64)).supplies
    have remapped := setIopb_memory (commonMachine_shared (BitVec.allOnes 64)) fresh distinct 5 0x400000
    have unused : Unused (commonMachine (BitVec.allOnes 64)) 0x402 := commonMachine_unused _ (by decide) (by decide)
    have filled := (remapped.elsewhere 0x402 unused.table (by decide)).1
    have same := careful.confined.new rfl (by decide) 0x402 (by decide)
    have kept : changePorts (grant (commonMachine (BitVec.allOnes 64)) 5 farAnswers).memory 0x400000 65535 2
        true 0x402 = fun _ => BitVec.allOnes 64 := same.trans filled
    have cleared := congrFun kept 0
    rw [changePorts_succ, if_pos rfl] at cleared
    have bit := congrArg (fun word => word.getLsbD 0) ((write_here ..).symm.trans cleared)
    simp at bit

end Lfos.PortPermissions
