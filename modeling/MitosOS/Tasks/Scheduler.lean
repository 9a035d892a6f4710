import MitosOS.Lib.Bits
import MitosOS.Lib.Lists
import MitosOS.Paging.Entry
import Mathlib.Data.List.FinRange
import Mathlib.Logic.Function.Basic

/-! The task table of `task.rs` and the operations on it. `create_process_page_table` is not
called here: its result is an argument, so that the table can be studied apart from memory. -/
namespace MitosOS.Tasks
open MitosOS.Lib MitosOS.Paging

inductive ExecutionMode where
  | isolatedProcess
  | sharedThread
  deriving DecidableEq, Repr

inductive TaskState where
  | ready
  | running
  | blocked
  | terminated
  deriving DecidableEq, Repr

structure Message where
  senderId : ℕ
  data : Vector (BitVec 8) 32
  deriving DecidableEq

/-- A slot of the `MAX_TASKS` entries of the table. -/
abbrev Slot := Fin 4

structure Task where
  id : ℕ
  parentId : ℕ
  sp : ℕ
  memoryRoot : ℕ
  ownsMemoryRoot : Bool
  isRing3 : Bool
  state : TaskState
  mailbox : Option Message
  deriving DecidableEq

def Task.empty : Task where
  id := 0
  parentId := 0
  sp := 0
  memoryRoot := 0
  ownsMemoryRoot := false
  isRing3 := false
  state := .terminated
  mailbox := none

/-- The task table, `CURRENT_TASK`, `TASK_INITIALIZED`, and the root in CR3 or TTBR0_EL1. -/
structure Scheduler where
  tasks : Slot → Task
  current : Slot
  initialized : Bool
  activeRoot : ℕ

def Scheduler.boot (root : ℕ) : Scheduler where
  tasks _ := .empty
  current := 0
  initialized := false
  activeRoot := root

/-- Where the statically allocated task stacks are, and for which architecture. -/
structure Stacks where
  arch : Arch
  base : Slot → ℕ

def contextSize : Arch → ℕ
  | .x86_64 => 160
  | .aarch64 => 272

/-- The address of the first frame on a task's own stack. -/
def Stacks.framePtr (K : Stacks) (i : Slot) : ℕ :=
  alignDown (K.base i + 8192) 16 - contextSize K.arch

/-- Stacks at fixed addresses, for concrete runs. -/
def exampleStacks : Stacks where
  arch := .x86_64
  base i := 0x100000 + 0x4000 * i

/-- `Task::init`. The mailbox is left as it was. -/
def Task.init (t : Task) (framePtr id : ℕ) (mode : ExecutionMode) (memoryRoot : ℕ)
    (ownsMemoryRoot : Bool) (userStackTop : ℕ) : Task :=
  { t with
    id := id
    parentId := id
    state := .ready
    memoryRoot := memoryRoot
    ownsMemoryRoot := ownsMemoryRoot
    isRing3 := decide (mode = .isolatedProcess ∧ userStackTop ≠ 0)
    sp := framePtr }

/-- A later state of a task with the same address space, exited only if the earlier one was. -/
structure Task.SameSpace (t t' : Task) : Prop where
  memoryRoot : t'.memoryRoot = t.memoryRoot
  ownsMemoryRoot : t'.ownsMemoryRoot = t.ownsMemoryRoot
  isRing3 : t'.isRing3 = t.isRing3
  state : t'.state = .terminated ↔ t.state = .terminated

theorem Task.SameSpace.refl (t : Task) : t.SameSpace t := ⟨rfl, rfl, rfl, Iff.rfl⟩

theorem Task.SameSpace.trans {t t' t'' : Task} (h : t.SameSpace t') (h' : t'.SameSpace t'') :
    t.SameSpace t'' where
  memoryRoot := h'.memoryRoot.trans h.memoryRoot
  ownsMemoryRoot := h'.ownsMemoryRoot.trans h.ownsMemoryRoot
  isRing3 := h'.isRing3.trans h.isRing3
  state := h'.state.trans h.state

namespace Scheduler

def setTask (s : Scheduler) (i : Slot) (t : Task) : Scheduler :=
  { s with tasks := Function.update s.tasks i t }

def setState (s : Scheduler) (i : Slot) (state : TaskState) : Scheduler :=
  s.setTask i { s.tasks i with state := state }

/-- The loop of `spawn` and `spawn_isolated_at`: fill the first terminated slot. The very first
spawn also marks slot 0, the context that is already executing, as running. -/
def install (K : Stacks) (s : Scheduler) (mode : ExecutionMode) (memoryRoot : ℕ)
    (ownsMemoryRoot : Bool) (userStackTop : ℕ) : Bool × Scheduler :=
  match (List.finRange 4).find? fun i => (s.tasks i).state = .terminated with
  | none => (false, s)
  | some i =>
    let s := s.setTask i
      ((s.tasks i).init (K.framePtr i) i mode memoryRoot ownsMemoryRoot userStackTop)
    if !s.initialized then (true, { s.setState 0 .running with initialized := true })
    else (true, s)

/-- The root a new process gets, and whether it owns it: `fresh` is what
`create_process_page_table` returned. -/
def allocateIsolatedPageTable (fresh : Option ℕ) (parentRoot : ℕ) : ℕ × Bool :=
  match fresh with
  | some root => (root, true)
  | none => (parentRoot, false)

def spawn (K : Stacks) (s : Scheduler) (mode : ExecutionMode) (fresh : Option ℕ)
    (userStackTop : ℕ) : Bool × Scheduler :=
  let (memoryRoot, ownsMemoryRoot) :=
    match mode with
    | .sharedThread => (s.activeRoot, false)
    | .isolatedProcess => allocateIsolatedPageTable fresh s.activeRoot
  s.install K mode memoryRoot ownsMemoryRoot userStackTop

def spawnIsolatedAt (K : Stacks) (s : Scheduler) (memoryRoot : ℕ) (ownsMemoryRoot : Bool)
    (userStackTop : ℕ) : Bool × Scheduler :=
  s.install K .isolatedProcess memoryRoot ownsMemoryRoot userStackTop

def sendMessage (s : Scheduler) (destId : ℕ) (data : Vector (BitVec 8) 32) :
    Except String Unit × Scheduler :=
  match (List.finRange 4).find? fun i =>
      (s.tasks i).id = destId ∧ (s.tasks i).state ≠ .terminated with
  | none => (.error "Destination task not found", s)
  | some i =>
    if (s.tasks i).mailbox.isSome then (.error "Destination mailbox is full", s)
    else
      let s := s.setTask i { s.tasks i with mailbox := some ⟨s.current, data⟩ }
      if (s.tasks i).state = .blocked then (.ok (), s.setState i .ready) else (.ok (), s)

/-- `receive_message` up to the point where it yields; an empty mailbox blocks the task. -/
def receiveMessage (s : Scheduler) : Option Message × Scheduler :=
  match (List.finRange 4).find? fun i => (s.tasks i).id = s.current with
  | none => (none, s)
  | some i =>
    match (s.tasks i).mailbox with
    | some msg => (some msg, s.setTask i { s.tasks i with mailbox := none })
    | none => (none, s.setState i .blocked)

/-- `exit` up to the point where it yields. -/
def exit (s : Scheduler) : Scheduler := s.setState s.current .terminated

def save (s : Scheduler) (currentSp : ℕ) : Scheduler :=
  if currentSp ≠ 0 ∧ (s.tasks s.current).state = .running then
    s.setTask s.current { s.tasks s.current with sp := currentSp, state := .ready }
  else s

/-- The next ready slot in round-robin order; the current slot comes last. -/
def nextReady (s : Scheduler) : Option Slot :=
  ((List.finRange 4).map fun k => s.current + k + 1).find? fun i => (s.tasks i).state = .ready

/-- What `run_schedule` gives back: the stack pointer to resume on, the root it passed to
`free_process_page_table`, and the new table. -/
structure Switch where
  sp : ℕ
  freed : Option ℕ
  sched : Scheduler

/-- The root in CR3 or TTBR0_EL1 after a switch; it is only reloaded when the next task has a
different one. -/
def rootAfter (s : Scheduler) (next : Slot) : ℕ :=
  let nextRoot := (s.tasks next).memoryRoot
  if nextRoot ≠ (s.tasks s.current).memoryRoot ∧ nextRoot ≠ 0 then nextRoot else s.activeRoot

def activate (s : Scheduler) (next : Slot) : Scheduler :=
  { s.setState next .running with current := next, activeRoot := s.rootAfter next }

/-- Hand the CPU to a ready slot, and reclaim the address space of the task just left if it has
exited and owns one. -/
def switchTo (s : Scheduler) (next : Slot) : Switch :=
  let dead := (s.activate next).tasks s.current
  if dead.state = .terminated ∧ dead.ownsMemoryRoot = true then
    ⟨(s.tasks next).sp, some dead.memoryRoot,
      (s.activate next).setTask s.current { dead with ownsMemoryRoot := false, memoryRoot := 0 }⟩
  else ⟨(s.tasks next).sp, none, s.activate next⟩

def runSchedule (s : Scheduler) (currentSp : ℕ) : Switch :=
  if !s.initialized then ⟨currentSp, none, s⟩
  else
    let s := s.save currentSp
    match s.nextReady with
    | some next => s.switchTo next
    | none =>
      if (s.tasks s.current).state = .ready then ⟨currentSp, none, s.setState s.current .running⟩
      else ⟨currentSp, none, s⟩

section Frame
variable (s : Scheduler) {i j : Slot}

@[simp] theorem setTask_same (t : Task) : (s.setTask i t).tasks i = t := Function.update_self _ _ _

theorem setTask_of_ne (t : Task) (h : j ≠ i) : (s.setTask i t).tasks j = s.tasks j :=
  Function.update_of_ne h _ _

@[simp] theorem setTask_initialized (t : Task) : (s.setTask i t).initialized = s.initialized := rfl

@[simp] theorem setState_same (state : TaskState) :
    (s.setState i state).tasks i = { s.tasks i with state := state } := setTask_same s _

theorem setState_of_ne (state : TaskState) (h : j ≠ i) : (s.setState i state).tasks j = s.tasks j :=
  setTask_of_ne s _ h

@[simp] theorem save_current (sp : ℕ) : (s.save sp).current = s.current := by
  unfold save
  split_ifs <;> rfl

@[simp] theorem save_initialized (sp : ℕ) : (s.save sp).initialized = s.initialized := by
  unfold save
  split_ifs <;> rfl

@[simp] theorem save_activeRoot (sp : ℕ) : (s.save sp).activeRoot = s.activeRoot := by
  unfold save
  split_ifs <;> rfl

theorem save_of_ne (sp : ℕ) (h : i ≠ s.current) : (s.save sp).tasks i = s.tasks i := by
  unfold save
  split_ifs
  · exact setTask_of_ne s _ h
  · rfl

theorem save_of_running {sp : ℕ} (hsp : sp ≠ 0) (h : (s.tasks s.current).state = .running) :
    (s.save sp).tasks s.current = { s.tasks s.current with sp := sp, state := .ready } := by
  unfold save
  rw [if_pos ⟨hsp, h⟩]
  exact setTask_same s _

end Frame

/-- Filling a slot changes only the first terminated one, and slot 0 at the very first spawn. -/
theorem install_cases (K : Stacks) (s : Scheduler) (mode : ExecutionMode) (root : ℕ) (owns : Bool)
    (top : ℕ) :
    s.install K mode root owns top = (false, s) ∨
    ∃ i, (s.tasks i).state = .terminated ∧ (∀ j < i, (s.tasks j).state ≠ .terminated) ∧
      let s₁ := s.setTask i ((s.tasks i).init (K.framePtr i) i mode root owns top)
      s.install K mode root owns top =
        (true, if s.initialized then s₁ else { s₁.setState 0 .running with initialized := true }) := by
  unfold install
  cases hfind : (List.finRange 4).find? fun i => (s.tasks i).state = .terminated with
  | none => exact Or.inl rfl
  | some i =>
    refine Or.inr ⟨i, by simpa using List.find?_some hfind, ?_, ?_⟩
    · intro j hj
      simpa using finRange_find?_lt hfind hj
    · dsimp only
      rw [setTask_initialized]
      cases s.initialized <;> rfl

/-- While no slot has ever been used, filling the first one and marking slot 0 are one update. -/
theorem install_fills (K : Stacks) (s : Scheduler) (mode : ExecutionMode) (root : ℕ) (owns : Bool)
    (top : ℕ) (hunused : s.initialized = false → ∀ i, (s.tasks i).state = .terminated) :
    (s.install K mode root owns top).2 = s ∨
    ∃ i t, (s.tasks i).state = .terminated ∧ t.state ≠ .terminated ∧ t.memoryRoot = root ∧
      t.ownsMemoryRoot = owns ∧ t.isRing3 = decide (mode = .isolatedProcess ∧ top ≠ 0) ∧
      (s.install K mode root owns top).2 =
        { s with tasks := Function.update s.tasks i t, initialized := true } := by
  rcases install_cases K s mode root owns top with heq | ⟨i, hi, hfirst, heq⟩
  · left
    rw [heq]
  right
  cases hinit : s.initialized with
  | true =>
    refine ⟨i, (s.tasks i).init (K.framePtr i) i mode root owns top, hi, ?_, rfl, rfl, rfl, ?_⟩
    · exact fun hcon => TaskState.noConfusion hcon
    · rw [heq, if_pos hinit, setTask, hinit]
  | false =>
    have hzero : i = 0 := by
      by_contra hne
      exact hfirst 0 (Fin.pos_of_ne_zero hne) (hunused hinit 0)
    subst hzero
    refine ⟨0, { (s.tasks 0).init (K.framePtr 0) (0 : Slot) mode root owns top with
      state := .running }, hi, ?_, rfl, rfl, rfl, ?_⟩
    · exact fun hcon => TaskState.noConfusion hcon
    · rw [heq, hinit]
      simp only [Bool.false_eq_true, if_false, setState, setTask, Function.update_self,
        Function.update_idem]

theorem spawn_eq (K : Stacks) (s : Scheduler) (mode : ExecutionMode) (fresh : Option ℕ) (top : ℕ) :
    s.spawn K mode fresh top = s.install K mode s.activeRoot false top ∨
      ∃ root, mode = .isolatedProcess ∧ fresh = some root ∧
        s.spawn K mode fresh top = s.install K mode root true top := by
  cases mode with
  | sharedThread => exact Or.inl rfl
  | isolatedProcess =>
    cases fresh with
    | none => exact Or.inl rfl
    | some root => exact Or.inr ⟨root, rfl, rfl, rfl⟩

/-- The slot that `send_message` delivers to. -/
def destSlot (s : Scheduler) (destId : ℕ) : Option Slot :=
  (List.finRange 4).find? fun i => (s.tasks i).id = destId ∧ (s.tasks i).state ≠ .terminated

/-- The slot whose mailbox `receive_message` looks into. -/
def ownSlot (s : Scheduler) : Option Slot :=
  (List.finRange 4).find? fun i => (s.tasks i).id = s.current

/-- A send is accepted by the empty mailbox of a live task with that number, or refused. -/
theorem sendMessage_spec (s : Scheduler) (destId : ℕ) (data : Vector (BitVec 8) 32) :
    (∃ i, s.destSlot destId = some i ∧ (s.tasks i).mailbox = none ∧
      s.sendMessage destId data = (.ok (), s.setTask i { s.tasks i with
        mailbox := some ⟨s.current, data⟩
        state := if (s.tasks i).state = .blocked then .ready else (s.tasks i).state })) ∨
    ∃ e, s.sendMessage destId data = (.error e, s) := by
  unfold sendMessage destSlot
  cases (List.finRange 4).find? fun i =>
      (s.tasks i).id = destId ∧ (s.tasks i).state ≠ .terminated with
  | none => exact Or.inr ⟨_, rfl⟩
  | some i =>
    cases hmail : (s.tasks i).mailbox with
    | some msg =>
      right
      simp only [hmail, Option.isSome_some, if_true]
      exact ⟨_, rfl⟩
    | none =>
      refine Or.inl ⟨i, rfl, hmail, ?_⟩
      by_cases hblocked : (s.tasks i).state = .blocked
      · simp [hmail, hblocked, setState, setTask]
      · simp [hmail, hblocked]

theorem destSlot_spec {s : Scheduler} {i : Slot} {destId : ℕ} (h : s.destSlot destId = some i) :
    (s.tasks i).id = destId ∧ (s.tasks i).state ≠ .terminated := by
  simpa using List.find?_some h

theorem receiveMessage_spec (s : Scheduler) :
    (∃ i msg, s.ownSlot = some i ∧ (s.tasks i).mailbox = some msg ∧
      s.receiveMessage = (some msg, s.setTask i { s.tasks i with mailbox := none })) ∨
    (∃ i, s.ownSlot = some i ∧ (s.tasks i).mailbox = none ∧
      s.receiveMessage = (none, s.setState i .blocked)) ∨
    s.receiveMessage = (none, s) := by
  unfold receiveMessage ownSlot
  cases (List.finRange 4).find? fun i => (s.tasks i).id = s.current with
  | none => exact Or.inr (Or.inr rfl)
  | some i =>
    cases hmail : (s.tasks i).mailbox with
    | some msg => exact Or.inl ⟨i, msg, rfl, hmail, by simp only [hmail]⟩
    | none => exact Or.inr (Or.inl ⟨i, rfl, hmail, by simp only [hmail]⟩)

theorem sendMessage_cases (s : Scheduler) (destId : ℕ) (data : Vector (BitVec 8) 32) :
    (s.sendMessage destId data).2 = s ∨
    ∃ i, (s.tasks i).id = destId ∧ (s.tasks i).state ≠ .terminated ∧
      (s.sendMessage destId data).2 = s.setTask i { s.tasks i with
        mailbox := some ⟨s.current, data⟩
        state := if (s.tasks i).state = .blocked then .ready else (s.tasks i).state } := by
  rcases sendMessage_spec s destId data with ⟨i, hdest, -, heq⟩ | ⟨e, heq⟩
  · obtain ⟨hid, hlive⟩ := destSlot_spec hdest
    exact Or.inr ⟨i, hid, hlive, congrArg Prod.snd heq⟩
  · exact Or.inl (congrArg Prod.snd heq)

theorem receiveMessage_cases (s : Scheduler) :
    s.receiveMessage.2 = s ∨
    ∃ i, s.receiveMessage.2 = s.setTask i { s.tasks i with mailbox := none } ∨
      s.receiveMessage.2 = s.setState i .blocked := by
  rcases receiveMessage_spec s with ⟨i, msg, -, -, heq⟩ | ⟨i, -, -, heq⟩ | heq
  · exact Or.inr ⟨i, Or.inl (congrArg Prod.snd heq)⟩
  · exact Or.inr ⟨i, Or.inr (congrArg Prod.snd heq)⟩
  · exact Or.inl (congrArg Prod.snd heq)

theorem nextReady_ready {s : Scheduler} {next : Slot} (h : s.nextReady = some next) :
    (s.tasks next).state = .ready := by
  have hfound := List.find?_some h
  simpa using hfound

theorem activate_of_ne (s : Scheduler) {next i : Slot} (h : i ≠ next) :
    (s.activate next).tasks i = s.tasks i := setState_of_ne s _ h

@[simp] theorem activate_same (s : Scheduler) (next : Slot) :
    (s.activate next).tasks next = { s.tasks next with state := .running } := setState_same s _

@[simp] theorem switchTo_current (s : Scheduler) (next : Slot) :
    (s.switchTo next).sched.current = next := by
  unfold switchTo
  dsimp only
  split_ifs <;> rfl

@[simp] theorem switchTo_sp (s : Scheduler) (next : Slot) :
    (s.switchTo next).sp = (s.tasks next).sp := by
  unfold switchTo
  dsimp only
  split_ifs <;> rfl

@[simp] theorem switchTo_activeRoot (s : Scheduler) (next : Slot) :
    (s.switchTo next).sched.activeRoot = s.rootAfter next := by
  unfold switchTo
  dsimp only
  split_ifs <;> rfl

@[simp] theorem switchTo_initialized (s : Scheduler) (next : Slot) :
    (s.switchTo next).sched.initialized = s.initialized := by
  unfold switchTo
  dsimp only
  split_ifs <;> rfl

theorem switchTo_of_dead (s : Scheduler) {next : Slot} (hn : s.current ≠ next)
    (hdead : (s.tasks s.current).state = .terminated)
    (howns : (s.tasks s.current).ownsMemoryRoot = true) :
    (s.switchTo next).freed = some (s.tasks s.current).memoryRoot ∧
      (s.switchTo next).sched = (s.activate next).setTask s.current
        { s.tasks s.current with ownsMemoryRoot := false, memoryRoot := 0 } := by
  unfold switchTo
  dsimp only
  rw [activate_of_ne s hn, if_pos ⟨hdead, howns⟩]
  exact ⟨rfl, rfl⟩

theorem switchTo_of_not_dead (s : Scheduler) (next : Slot)
    (h : ¬ ((s.tasks s.current).state = .terminated ∧
      (s.tasks s.current).ownsMemoryRoot = true)) :
    (s.switchTo next).freed = none ∧ (s.switchTo next).sched = s.activate next := by
  unfold switchTo
  dsimp only
  rw [if_neg]
  · exact ⟨rfl, rfl⟩
  · intro hdead
    by_cases hn : s.current = next
    · rw [hn, activate_same] at hdead
      exact absurd hdead.1 (by simp)
    · rw [activate_of_ne s hn] at hdead
      exact h hdead

theorem switchTo_of_ne (s : Scheduler) {next i : Slot} (hn : i ≠ next) (hc : i ≠ s.current) :
    (s.switchTo next).sched.tasks i = s.tasks i := by
  unfold switchTo
  dsimp only
  split_ifs
  · exact (setTask_of_ne _ _ hc).trans (activate_of_ne s hn)
  · exact activate_of_ne s hn

theorem switchTo_left (s : Scheduler) {next : Slot} (hn : s.current ≠ next)
    (hstate : (s.tasks s.current).state ≠ .terminated) :
    (s.switchTo next).sched.tasks s.current = s.tasks s.current := by
  unfold switchTo
  dsimp only
  rw [activate_of_ne s hn, if_neg]
  · exact activate_of_ne s hn
  · intro hdead
    exact hstate hdead.1

/-- The search ends at the current slot, so it fails only when that one is not ready either. -/
theorem nextReady_none {s : Scheduler} (h : s.nextReady = none) (i : Slot) :
    (s.tasks i).state ≠ .ready := by
  have hall : ∀ c i : Slot, i ∈ (List.finRange 4).map fun k => c + k + 1 := by decide
  simpa using List.find?_eq_none.mp h i (hall s.current i)

/-- `run_schedule`: once tasks exist a ready slot is switched to, or nothing changes. -/
theorem runSchedule_cases (s : Scheduler) (sp : ℕ) :
    (∃ next, s.initialized = true ∧ (s.save sp).nextReady = some next ∧
      s.runSchedule sp = (s.save sp).switchTo next) ∨
    s.runSchedule sp = ⟨sp, none, s⟩ := by
  unfold runSchedule
  cases hinit : s.initialized with
  | false => exact Or.inr rfl
  | true =>
    simp only [Bool.not_true, Bool.false_eq_true, if_false]
    cases hnext : (s.save sp).nextReady with
    | some next => exact Or.inl ⟨next, trivial, rfl, rfl⟩
    | none =>
      right
      have hready := nextReady_none hnext (s.save sp).current
      have hsame : s.save sp = s := by
        unfold save
        rw [if_neg]
        intro hsave
        rw [save_current, save_of_running s hsave.1 hsave.2] at hready
        exact hready rfl
      dsimp only
      rw [if_neg hready, hsame]

theorem save_sameSpace (s : Scheduler) (sp : ℕ) (i : Slot) :
    (s.tasks i).SameSpace ((s.save sp).tasks i) := by
  unfold save
  split_ifs with hsave
  · by_cases hi : i = s.current
    · rw [hi, setTask_same]
      refine ⟨rfl, rfl, rfl, ?_⟩
      rw [hsave.2]
      simp
    · rw [setTask_of_ne s _ hi]
      exact .refl _
  · exact .refl _

theorem activate_sameSpace (s : Scheduler) {next : Slot} (hready : (s.tasks next).state = .ready)
    (i : Slot) : (s.tasks i).SameSpace ((s.activate next).tasks i) := by
  by_cases hi : i = next
  · rw [hi, activate_same]
    refine ⟨rfl, rfl, rfl, ?_⟩
    rw [hready]
    simp
  · rw [activate_of_ne s hi]
    exact .refl _

end Scheduler

end MitosOS.Tasks
