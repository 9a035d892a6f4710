import MitosOS.Lib.EventSystem
import MitosOS.Tasks.Scheduler

/-! `memory::Mutex` on one core. The lock spins and leaves interrupts as they are, so a task can be
preempted inside a critical section; system calls, page faults and `run_schedule` take the same
locks with interrupts off. -/
namespace MitosOS.Kernel
open MitosOS.Lib MitosOS.Tasks

inductive Lock where
  | physicalPmm
  | heapAllocator
  deriving DecidableEq, Repr

/-- Where a piece of code is with respect to `Mutex::lock` and the drop of the guard. No critical
section takes a second lock. -/
inductive LockPc where
  | outside
  | spinning (l : Lock)
  | inside (l : Lock)
  deriving DecidableEq, Repr

structure Context where
  pc : LockPc
  irqOff : Bool
  exited : Bool
  deriving DecidableEq

def Context.new : Context where
  pc := .outside
  irqOff := false
  exited := false

/-- What the core executes: the current task, or `run_schedule` with some frames of a dead task
still to be freed. -/
inductive Executing where
  | task
  | scheduler (pc : LockPc) (frees : ℕ)
  deriving DecidableEq

inductive Holder where
  | task (i : Slot)
  | scheduler
  deriving DecidableEq

/-- The flag of a mutex is set when it has a holder. -/
structure Core where
  sched : Scheduler
  contexts : Slot → Context
  mutex : Lock → Option Holder
  executing : Executing

namespace Core

def boot (root : ℕ) : Core where
  sched := .boot root
  contexts _ := .new
  mutex _ := none
  executing := .task

def context (c : Core) : Context := c.contexts c.sched.current

def pc (c : Core) : LockPc :=
  match c.executing with
  | .task => c.context.pc
  | .scheduler pc _ => pc

def irqOff (c : Core) : Bool :=
  match c.executing with
  | .task => c.context.irqOff
  | .scheduler _ _ => true

def holder (c : Core) : Holder :=
  match c.executing with
  | .task => .task c.sched.current
  | .scheduler _ _ => .scheduler

def setContext (c : Core) (x : Context) : Core :=
  { c with contexts := Function.update c.contexts c.sched.current x }

def setPc (c : Core) (pc : LockPc) : Core :=
  match c.executing with
  | .task => c.setContext { c.context with pc := pc }
  | .scheduler _ frees => { c with executing := .scheduler pc frees }

def acquire (c : Core) : Core :=
  match c.pc with
  | .spinning l =>
    { c.setPc (.inside l) with mutex := Function.update c.mutex l (some c.holder) }
  | _ => c

/-- The drop of a guard; in `run_schedule` this ends one `vmm_free_frame`. -/
def unlock (c : Core) : Core :=
  match c.pc with
  | .inside l =>
    let c := { c.setPc .outside with mutex := Function.update c.mutex l none }
    match c.executing with
    | .task => c
    | .scheduler pc frees => { c with executing := .scheduler pc (frees - 1) }
  | _ => c

def spawn (K : Stacks) (c : Core) (mode : ExecutionMode) (fresh : Option ℕ) (userStackTop : ℕ) :
    Core :=
  let sched := (c.sched.spawn K mode fresh userStackTop).2
  { c with
    sched := sched
    contexts := fun i =>
      if (c.sched.tasks i).state = .terminated ∧ (sched.tasks i).state ≠ .terminated then .new
      else c.contexts i }

/-- `run_schedule` up to the first frame it frees. -/
def schedule (c : Core) (sp frees : ℕ) : Core :=
  let r := c.sched.runSchedule sp
  { c with
    sched := r.sched
    executing := match r.freed with
      | none => .task
      | some _ => .scheduler .outside frees }

end Core

inductive CoreEvent where
  /-- A call of `Mutex::lock`. -/
  | lock (l : Lock)
  | acquire
  | unlock
  /-- A system call or a page fault. -/
  | trap
  | returnFromTrap
  | spawn (mode : ExecutionMode) (fresh : Option ℕ) (userStackTop : ℕ)
  | exit
  /-- The timer interrupt; `frees` is the number of frames a dead task leaves behind. -/
  | tick (sp frees : ℕ)
  | yieldNow (sp frees : ℕ)
  /-- `run_schedule` returns into the task it chose. -/
  | resume

/-- Code of the current task is running, outside the locks. -/
def Core.TaskRuns (c : Core) : Prop :=
  c.executing = .task ∧ c.context.exited = false ∧ c.context.pc = .outside

instance (c : Core) : Decidable c.TaskRuns := inferInstanceAs (Decidable (_ ∧ _))

/-- Whether the running code may call `Mutex::lock`: a task does so in kernel mode, and
`run_schedule` for every frame it frees. -/
def Core.MayLock (c : Core) (l : Lock) : Prop :=
  match c.executing with
  | .task =>
    c.TaskRuns ∧ (c.context.irqOff = true ∨ (c.sched.tasks c.sched.current).isRing3 = false)
  | .scheduler pc frees => pc = .outside ∧ frees ≠ 0 ∧ l = .physicalPmm

instance (c : Core) (l : Lock) : Decidable (c.MayLock l) := by
  unfold Core.MayLock
  cases c.executing <;> infer_instance

def Core.wanted (c : Core) : Option Lock :=
  match c.pc with
  | .spinning l => some l
  | _ => none

/-- The lock of the critical section that the running code is in. -/
def Core.critical (c : Core) : Option Lock :=
  match c.pc with
  | .inside l => some l
  | _ => none

def CoreEvent.Enabled (c : Core) : CoreEvent → Prop
  | .lock l => c.MayLock l
  | .acquire => ∃ l ∈ c.wanted, c.mutex l = none
  | .unlock => c.critical ≠ none
  | .trap => c.TaskRuns ∧ c.context.irqOff = false
  | .returnFromTrap => c.TaskRuns ∧ c.context.irqOff = true
  | .spawn _ _ _ => c.TaskRuns
  | .exit => c.TaskRuns
  | .tick _ frees => c.executing = .task ∧ c.context.irqOff = false ∧ frees ≠ 0
  | .yieldNow _ frees => c.executing = .task ∧ c.context.pc = .outside ∧ frees ≠ 0
  | .resume => c.executing = .scheduler .outside 0

def CoreEvent.next (K : Stacks) (c : Core) : CoreEvent → Core
  | .lock l => c.setPc (.spinning l)
  | .acquire => c.acquire
  | .unlock => c.unlock
  | .trap => c.setContext { c.context with irqOff := true }
  | .returnFromTrap => c.setContext { c.context with irqOff := false }
  | .spawn mode fresh userStackTop => c.spawn K mode fresh userStackTop
  | .exit => { c.setContext { c.context with exited := true } with sched := c.sched.exit }
  | .tick sp frees => c.schedule sp frees
  | .yieldNow sp frees => c.schedule sp frees
  | .resume => { c with executing := .task }

def coreSystem (K : Stacks) : EventSystem Core CoreEvent where
  Enabled := CoreEvent.Enabled
  next := CoreEvent.next K

/-- The running code spins with interrupts off on a mutex that a preempted task holds. -/
def Core.Deadlocked (c : Core) : Prop :=
  c.irqOff = true ∧ ∃ l ∈ c.wanted, ∃ h ∈ c.mutex l, h ≠ .scheduler ∧ h ≠ c.holder

def TickOutsideLocks (c : Core) : CoreEvent → Prop
  | .tick _ _ => c.critical = none
  | _ => True

instance (c : Core) : ∀ e : CoreEvent, Decidable (e.Enabled c)
  | .lock l => inferInstanceAs (Decidable (c.MayLock l))
  | .acquire => inferInstanceAs (Decidable (∃ l ∈ c.wanted, c.mutex l = none))
  | .unlock => inferInstanceAs (Decidable (c.critical ≠ none))
  | .trap => inferInstanceAs (Decidable (_ ∧ _))
  | .returnFromTrap => inferInstanceAs (Decidable (_ ∧ _))
  | .spawn _ _ _ => inferInstanceAs (Decidable c.TaskRuns)
  | .exit => inferInstanceAs (Decidable c.TaskRuns)
  | .tick _ _ => inferInstanceAs (Decidable (_ ∧ _))
  | .yieldNow _ _ => inferInstanceAs (Decidable (_ ∧ _))
  | .resume => inferInstanceAs (Decidable (_ = _))

instance (K : Stacks) (c : Core) (e : CoreEvent) : Decidable ((coreSystem K).Enabled c e) :=
  inferInstanceAs (Decidable (e.Enabled c))

instance (c : Core) : Decidable c.Deadlocked := inferInstanceAs (Decidable (_ ∧ _))

instance (c : Core) : ∀ e : CoreEvent, Decidable (TickOutsideLocks c e)
  | .tick _ _ => inferInstanceAs (Decidable (c.critical = none))
  | .lock _ => isTrue trivial
  | .acquire => isTrue trivial
  | .unlock => isTrue trivial
  | .trap => isTrue trivial
  | .returnFromTrap => isTrue trivial
  | .spawn _ _ _ => isTrue trivial
  | .exit => isTrue trivial
  | .yieldNow _ _ => isTrue trivial
  | .resume => isTrue trivial

/-- A mutex that is held is held by the code that is running. -/
def Core.HeldByRunning (c : Core) : Prop :=
  ∀ l h, c.mutex l = some h → h = c.holder ∧ c.pc = .inside l

section Steps
variable {K : Stacks} {c : Core}

theorem Core.pc_setPc (c : Core) (pc : LockPc) : (c.setPc pc).pc = pc := by
  unfold Core.setPc Core.pc
  cases h : c.executing with
  | task => simp [Core.setContext, Core.context, h]
  | scheduler _ _ => rfl

theorem Core.holder_setPc (c : Core) (pc : LockPc) : (c.setPc pc).holder = c.holder := by
  unfold Core.setPc Core.holder
  cases h : c.executing with
  | task => simp [Core.setContext, h]
  | scheduler _ _ => rfl

theorem Core.mutex_setPc (c : Core) (pc : LockPc) : (c.setPc pc).mutex = c.mutex := by
  unfold Core.setPc
  cases c.executing <;> rfl

theorem Core.pc_of_task (h : c.executing = .task) : c.pc = c.context.pc := by
  unfold Core.pc
  rw [h]

theorem Core.critical_eq_none_iff : c.critical = none ↔ ∀ l, c.pc ≠ .inside l := by
  unfold Core.critical
  cases c.pc <;> simp

theorem Core.TaskRuns.critical_eq_none (h : c.TaskRuns) : c.critical = none := by
  rw [Core.critical_eq_none_iff, Core.pc_of_task h.1, h.2.2]
  exact fun l => by simp

theorem Core.MayLock.critical_eq_none {l : Lock} (h : c.MayLock l) : c.critical = none := by
  unfold Core.MayLock at h
  split at h
  · exact h.1.critical_eq_none
  · next pc frees hexec =>
    rw [Core.critical_eq_none_iff, Core.pc, hexec]
    exact fun l => by simp [h.1]

theorem Core.HeldByRunning.mutex_eq_none (h : c.HeldByRunning) (hcrit : c.critical = none)
    (l : Lock) : c.mutex l = none := by
  cases hl : c.mutex l with
  | none => rfl
  | some o => exact absurd (h l o hl).2 (Core.critical_eq_none_iff.mp hcrit l)

theorem Core.HeldByRunning.of_free (h : ∀ l, c.mutex l = none) : c.HeldByRunning := by
  intro l o hl
  rw [h l] at hl
  exact absurd hl (by simp)

theorem Core.HeldByRunning.acquire (h : c.HeldByRunning) : c.acquire.HeldByRunning := by
  unfold Core.acquire
  split
  · next l hpc =>
    have hcrit : c.critical = none := by
      rw [Core.critical_eq_none_iff, hpc]
      exact fun l => by simp
    intro l' o hl'
    by_cases hl : l' = l
    · subst hl
      have ho : some c.holder = some o :=
        (Function.update_self l' (some c.holder) c.mutex).symm.trans hl'
      exact ⟨(Option.some.inj ho).symm.trans (c.holder_setPc _).symm, c.pc_setPc _⟩
    · have hold : c.mutex l' = some o := (Function.update_of_ne hl ..).symm.trans hl'
      rw [h.mutex_eq_none hcrit l'] at hold
      exact absurd hold (by simp)
  · exact h

theorem Core.HeldByRunning.unlock (h : c.HeldByRunning) : c.unlock.HeldByRunning := by
  unfold Core.unlock
  split
  · next l hpc =>
    have hfree : ∀ l', Function.update c.mutex l none l' = none := by
      intro l'
      by_cases hl : l' = l
      · rw [hl, Function.update_self]
      · rw [Function.update_of_ne hl]
        cases hl' : c.mutex l' with
        | none => rfl
        | some o =>
          have hpc' := (h l' o hl').2
          rw [hpc] at hpc'
          exact absurd (LockPc.inside.inj hpc').symm hl
    dsimp only
    split
    · exact .of_free hfree
    · exact .of_free hfree
  · exact h

/-- Every step keeps the invariant, unless it is a tick inside a critical section. -/
theorem Core.HeldByRunning.step (h : c.HeldByRunning) {e : CoreEvent} (he : e.Enabled c)
    (hguard : TickOutsideLocks c e) : (e.next K c).HeldByRunning := by
  cases e with
  | lock l =>
    have hfree := h.mutex_eq_none (Core.MayLock.critical_eq_none he)
    apply Core.HeldByRunning.of_free
    change ∀ l', (c.setPc _).mutex l' = none
    rw [Core.mutex_setPc]
    exact hfree
  | acquire => exact h.acquire
  | unlock => exact h.unlock
  | trap => exact .of_free (h.mutex_eq_none he.1.critical_eq_none)
  | returnFromTrap => exact .of_free (h.mutex_eq_none he.1.critical_eq_none)
  | spawn => exact .of_free (h.mutex_eq_none (Core.TaskRuns.critical_eq_none he))
  | exit => exact .of_free (h.mutex_eq_none (Core.TaskRuns.critical_eq_none he))
  | tick sp frees => exact .of_free (h.mutex_eq_none hguard)
  | yieldNow sp frees =>
    have hcrit : c.critical = none := by
      rw [Core.critical_eq_none_iff, Core.pc_of_task he.1, he.2.1]
      exact fun l => by simp
    exact .of_free (h.mutex_eq_none hcrit)
  | resume =>
    have hcrit : c.critical = none := by
      have hexec : c.executing = .scheduler .outside 0 := he
      rw [Core.critical_eq_none_iff, Core.pc, hexec]
      exact fun l => by simp
    exact .of_free (h.mutex_eq_none hcrit)

theorem Core.HeldByRunning.not_deadlocked (h : c.HeldByRunning) : ¬ c.Deadlocked := by
  rintro ⟨-, l, hl, o, ho, -, hne⟩
  exact hne (h l o ho).1

end Steps

/-- As long as the timer interrupts no critical section, the core never spins with interrupts off
on a mutex of a preempted task. -/
theorem no_deadlock_of_ticks_outside (K : Stacks) (root : ℕ) (c : Core)
    (hrun : (coreSystem K).RunWhen TickOutsideLocks (.boot root) c) : ¬ c.Deadlocked := by
  have hboot : (Core.boot root).HeldByRunning := .of_free fun _ => rfl
  have hinv : c.HeldByRunning :=
    hrun.invariant (fun _ _ h he hg => h.step he hg) hboot
  exact hinv.not_deadlocked

def holdingTrace : List CoreEvent :=
  [.spawn .sharedThread none 0, .spawn .isolatedProcess (some 0x200000) 0x7000000000,
    .lock .physicalPmm, .acquire]

/-- A tick inside `vmm_alloc_frame`, then a system call of the process that frees a frame. -/
theorem deadlock_reachable :
    ∃ c, (coreSystem exampleStacks).Run (.boot 0x1000) c ∧ c.Deadlocked := by
  apply EventSystem.exists_runWhen (holdingTrace ++ [.tick 0x5000 1, .trap, .lock .physicalPmm])
  decide

/-- The same calls with the tick after the critical section. -/
theorem no_deadlock_after_unlock :
    ∃ c, (coreSystem exampleStacks).RunWhen TickOutsideLocks (.boot 0x1000) c ∧
      c.irqOff = true ∧ c.wanted = some .physicalPmm ∧ ¬ c.Deadlocked := by
  have hreach : ∃ c, (coreSystem exampleStacks).RunWhen TickOutsideLocks (.boot 0x1000) c ∧
      c.irqOff = true ∧ c.wanted = some .physicalPmm := by
    apply EventSystem.exists_runWhen
      (holdingTrace ++ [.unlock, .tick 0x5000 1, .trap, .lock .physicalPmm])
    decide
  obtain ⟨c, hrun, hoff, hwanted⟩ := hreach
  exact ⟨c, hrun, hoff, hwanted, no_deadlock_of_ticks_outside exampleStacks 0x1000 c hrun⟩

end MitosOS.Kernel
