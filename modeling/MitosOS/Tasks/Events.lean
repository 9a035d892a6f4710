import MitosOS.Lib.EventSystem
import MitosOS.Tasks.Scheduler

/-! The calls that drive the task table, as events, with the slots they act on. -/
namespace MitosOS.Tasks
open MitosOS.Lib Scheduler

/-- The calls that fill a slot; `spawn_from_elf` ends in `spawn_isolated_at`. -/
inductive SpawnCall where
  | spawn (mode : ExecutionMode) (fresh : Option ℕ) (userStackTop : ℕ)
  | spawnIsolatedAt (memoryRoot : ℕ) (owns : Bool) (userStackTop : ℕ)

def SpawnCall.run (K : Stacks) (s : Scheduler) : SpawnCall → Bool × Scheduler
  | .spawn mode fresh userStackTop => s.spawn K mode fresh userStackTop
  | .spawnIsolatedAt memoryRoot owns userStackTop =>
    s.spawnIsolatedAt K memoryRoot owns userStackTop

inductive TaskEvent where
  | spawn (c : SpawnCall)
  /-- A timer tick or a yield. -/
  | schedule (sp : ℕ)
  | send (destId : ℕ) (data : Vector (BitVec 8) 32)
  | receive
  | exit

def TaskEvent.next (K : Stacks) (s : Scheduler) : TaskEvent → Scheduler
  | .spawn c => (c.run K s).2
  | .schedule sp => (s.runSchedule sp).sched
  | .send destId data => (s.sendMessage destId data).2
  | .receive => s.receiveMessage.2
  | .exit => s.exit

/-- The task table under its calls; `run_schedule` is given a stack pointer that is not null. -/
def taskSystem (K : Stacks) : EventSystem Scheduler TaskEvent where
  Enabled
    | _, .schedule sp => sp ≠ 0
    | _, _ => True
  next := TaskEvent.next K

namespace Scheduler

def freeSlot (s : Scheduler) : Option Slot :=
  (List.finRange 4).find? fun i => (s.tasks i).state = .terminated

/-- A slot in use carries its own number, a slot never used carries 0. -/
def Numbered (s : Scheduler) : Prop :=
  ∀ i : Slot, (s.tasks i).id = i ∨ (s.tasks i).id = 0 ∧ (s.tasks i).state = .terminated

end Scheduler

/-- A task as `Task::init` leaves it in the slot `i`. -/
structure Task.Started (K : Stacks) (i : Slot) (old t : Task) : Prop where
  id_eq : t.id = i
  sp_eq : t.sp = K.framePtr i
  state_eq : t.state = .ready
  mailbox_eq : t.mailbox = old.mailbox

section Calls
variable {K : Stacks} {s : Scheduler} {i : Slot}

theorem freeSlot_terminated (h : s.freeSlot = some i) : (s.tasks i).state = .terminated := by
  simpa using List.find?_some h

theorem install_of_freeSlot (h : s.freeSlot = some i) (mode : ExecutionMode) (root : ℕ)
    (owns : Bool) (top : ℕ) :
    ∃ t, Task.Started K i (s.tasks i) t ∧ s.install K mode root owns top = (true,
      if s.initialized then s.setTask i t
      else { (s.setTask i t).setState 0 .running with initialized := true }) := by
  refine ⟨(s.tasks i).init (K.framePtr i) i mode root owns top, ⟨rfl, rfl, rfl, rfl⟩, ?_⟩
  unfold freeSlot at h
  unfold install
  rw [h]
  dsimp only
  rw [setTask_initialized]
  cases s.initialized <;> rfl

theorem install_of_full (h : s.freeSlot = none) (mode : ExecutionMode) (root : ℕ) (owns : Bool)
    (top : ℕ) : s.install K mode root owns top = (false, s) := by
  unfold freeSlot at h
  unfold install
  rw [h]

theorem SpawnCall.run_eq_install (K : Stacks) (s : Scheduler) (c : SpawnCall) :
    ∃ mode root owns top, c.run K s = s.install K mode root owns top := by
  cases c with
  | spawn mode fresh top =>
    rcases spawn_eq K s mode fresh top with heq | ⟨root, -, -, heq⟩
    · exact ⟨mode, s.activeRoot, false, top, heq⟩
    · exact ⟨mode, root, true, top, heq⟩
  | spawnIsolatedAt root owns top => exact ⟨.isolatedProcess, root, owns, top, rfl⟩

theorem SpawnCall.run_fills (h : s.freeSlot = some i) (c : SpawnCall) :
    ∃ t, Task.Started K i (s.tasks i) t ∧ c.run K s = (true,
      if s.initialized then s.setTask i t
      else { (s.setTask i t).setState 0 .running with initialized := true }) := by
  obtain ⟨mode, root, owns, top, heq⟩ := c.run_eq_install K s
  rw [heq]
  exact install_of_freeSlot h mode root owns top

theorem SpawnCall.run_full (h : s.freeSlot = none) (c : SpawnCall) : c.run K s = (false, s) := by
  obtain ⟨mode, root, owns, top, heq⟩ := c.run_eq_install K s
  rw [heq]
  exact install_of_full h mode root owns top

end Calls

section Numbers
variable {K : Stacks} {s : Scheduler} {i : Slot}

theorem Scheduler.Numbered.id_of_live (h : s.Numbered) (hi : (s.tasks i).state ≠ .terminated) :
    (s.tasks i).id = i := (h i).resolve_right fun hdead => hi hdead.2

/-- `receive_message` looks into the mailbox of the current slot. -/
theorem Scheduler.Numbered.ownSlot_eq (h : s.Numbered) (hi : s.ownSlot = some i) :
    i = s.current ∧ (s.tasks i).id = s.current := by
  have hid : (s.tasks i).id = s.current := by simpa using List.find?_some hi
  have hlow : ∀ j < i, (s.tasks j).id ≠ s.current := fun j hj => by
    simpa using finRange_find?_lt hi hj
  refine ⟨?_, hid⟩
  rcases h i with hown | ⟨hzero, -⟩
  · exact Fin.ext (hown.symm.trans hid)
  · -- a slot never used carries 0, but slot 0 comes before it
    have hcurrent : s.current = 0 := Fin.ext (hid.symm.trans hzero)
    have hslot : (s.tasks 0).id = s.current := by
      rw [hcurrent]
      exact (h 0).elim (fun h0 => h0) And.left
    by_contra hne
    rw [hcurrent] at hne
    exact hlow 0 (Fin.pos_of_ne_zero hne) hslot

theorem Scheduler.Numbered.setTask (h : s.Numbered) {t : Task}
    (ht : t.id = i ∨ t.id = 0 ∧ t.state = .terminated) : (s.setTask i t).Numbered := by
  intro j
  by_cases hj : j = i
  · rw [hj, setTask_same]
    exact ht
  · rw [setTask_of_ne s t hj]
    exact h j

theorem Scheduler.Numbered.save (h : s.Numbered) (sp : ℕ) : (s.save sp).Numbered := by
  unfold Scheduler.save
  split_ifs with hsave
  · apply h.setTask
    left
    apply h.id_of_live
    rw [hsave.2]
    exact fun hcon => TaskState.noConfusion hcon
  · exact h

theorem Scheduler.Numbered.switchTo (h : s.Numbered) (hi : (s.tasks i).state = .ready) :
    (s.switchTo i).sched.Numbered := by
  have hid : (s.tasks i).id = i := by
    apply h.id_of_live
    rw [hi]
    exact fun hcon => TaskState.noConfusion hcon
  have hact : (s.activate i).Numbered := h.setTask (Or.inl hid)
  unfold Scheduler.switchTo
  dsimp only
  split_ifs
  · exact hact.setTask (hact s.current)
  · exact hact

theorem Scheduler.Numbered.spawn (h : s.Numbered) (c : SpawnCall) : (c.run K s).2.Numbered := by
  cases hfree : s.freeSlot with
  | none =>
    rw [c.run_full hfree]
    exact h
  | some i =>
    obtain ⟨t, ht, heq⟩ := c.run_fills (K := K) hfree
    have hset : (s.setTask i t).Numbered := h.setTask (Or.inl ht.id_eq)
    rw [heq]
    dsimp only
    split_ifs
    · exact hset
    · -- slot 0 carries 0 whether it was used before or not
      have hzero : ((s.setTask i t).tasks 0).id = (0 : Slot) :=
        (hset 0).elim (fun hid => hid) fun hdead => hdead.1
      exact Scheduler.Numbered.setTask hset (Or.inl hzero)

theorem Scheduler.Numbered.runSchedule (h : s.Numbered) (sp : ℕ) :
    (s.runSchedule sp).sched.Numbered := by
  rcases runSchedule_cases s sp with ⟨next, -, hnext, heq⟩ | heq
  · rw [heq]
    exact (h.save sp).switchTo (nextReady_ready hnext)
  · rw [heq]
    exact h

theorem Scheduler.Numbered.sendMessage (h : s.Numbered) (destId : ℕ) (data : Vector (BitVec 8) 32) :
    (s.sendMessage destId data).2.Numbered := by
  rcases sendMessage_spec s destId data with ⟨i, hdest, -, heq⟩ | ⟨e, heq⟩
  · rw [heq]
    exact h.setTask (Or.inl (h.id_of_live (destSlot_spec hdest).2))
  · rw [heq]
    exact h

theorem Scheduler.Numbered.receiveMessage (h : s.Numbered) : s.receiveMessage.2.Numbered := by
  rcases receiveMessage_spec s with ⟨i, msg, -, -, heq⟩ | ⟨i, hown, -, heq⟩ | heq
  · rw [heq]
    exact h.setTask (h i)
  · obtain ⟨hcur, hid⟩ := h.ownSlot_eq hown
    rw [heq]
    exact h.setTask (Or.inl (hid.trans (congrArg Fin.val hcur).symm))
  · rw [heq]
    exact h

theorem Scheduler.Numbered.exit (h : s.Numbered) : s.exit.Numbered :=
  h.setTask ((h s.current).imp_right fun hdead => ⟨hdead.1, rfl⟩)

theorem Scheduler.Numbered.next (h : s.Numbered) (e : TaskEvent) : (e.next K s).Numbered := by
  cases e with
  | spawn c => exact h.spawn c
  | schedule sp => exact h.runSchedule sp
  | send destId data => exact h.sendMessage destId data
  | receive => exact h.receiveMessage
  | exit => exact h.exit

theorem Scheduler.Numbered.boot (root : ℕ) : (Scheduler.boot root).Numbered :=
  fun _ => Or.inr ⟨rfl, rfl⟩

theorem Scheduler.Numbered.of_run {root : ℕ} (hrun : (taskSystem K).Run (.boot root) s) :
    s.Numbered := hrun.invariant (fun _ e h _ _ => h.next e) (Numbered.boot root)

end Numbers

end MitosOS.Tasks
