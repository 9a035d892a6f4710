import MitosOS.Kernel.Platform
import MitosOS.Tasks.WellFormed

/-! One CPU shared by the tasks of `task.rs`, at the level of registers and stack frames: the tasks that
`run_schedule` puts away and resumes. -/
namespace MitosOS.Tasks

def SpawnCall.userStackTop : SpawnCall → ℕ
  | .spawn _ _ userStackTop => userStackTop
  | .spawnIsolatedAt _ _ userStackTop => userStackTop

def SpawnCall.isUser : SpawnCall → Bool
  | .spawn mode _ userStackTop => decide (mode = .isolatedProcess ∧ userStackTop ≠ 0)
  | .spawnIsolatedAt _ _ userStackTop => decide (userStackTop ≠ 0)

end MitosOS.Tasks

namespace MitosOS.Kernel
open MitosOS.Lib MitosOS.Tasks Scheduler

/-- Where the stacks of the tasks are. `area i` holds both stacks of the slot `i`, and for slot 0 the
boot stack as well. -/
structure Layout where
  taskStacks : Stacks
  kernelBase : Slot → ℕ
  area : Slot → Set ℕ
  stack_area : ∀ {i x}, taskStacks.base i ≤ x → x < taskStacks.base i + 8192 → x ∈ area i
  kernelStack_area : ∀ {i x}, kernelBase i ≤ x → x < kernelBase i + 8192 → x ∈ area i
  disjoint : ∀ {i j x}, x ∈ area i → x ∈ area j → i = j
  bounds : ∀ {i x}, x ∈ area i → 0 < x ∧ x + 1 < 2 ^ 64

namespace Layout
variable (L : Layout)

def stackTop (i : Slot) : ℕ := alignDown (L.taskStacks.base i + 8192) 16

def kernelStackTop (i : Slot) : ℕ := alignDown (L.kernelBase i + 8192) 16

def Inside (a size : ℕ) (i : Slot) : Prop := ∀ x, a ≤ x → x < a + size → x ∈ L.area i

variable {L}

theorem Inside.pos {a size : ℕ} {i : Slot} (h : L.Inside a size i) (hsize : 0 < size) : 0 < a :=
  (L.bounds (h a le_rfl (by omega))).1

theorem Inside.bound {a size : ℕ} {i : Slot} (h : L.Inside a size i) (hsize : 0 < size) :
    a + size < 2 ^ 64 := by
  have hlast := (L.bounds (h (a + size - 1) (by omega) (by omega))).2
  omega

theorem Inside.disjoint {a size : ℕ} {i j : Slot} (h : L.Inside a size i) (hij : j ≠ i) {x : ℕ}
    (hx : x ∈ L.area j) : x < a ∨ a + size ≤ x := by
  by_contra hcon
  rw [not_or, not_lt, not_le] at hcon
  exact hij (L.disjoint hx (h x hcon.1 hcon.2))

end Layout

structure TaskMachine (ρ : Type) where
  cpu : Cpu ρ
  sched : Scheduler
  kernelTop : ℕ

/-- What the CPU can do next. `handled` in a trap is the CPU when `run_schedule` comes back. -/
inductive CpuEvent (ρ : Type) where
  | execute (cpu : Cpu ρ)
  | trap (handled : Cpu ρ)
  | spawn (c : SpawnCall) (entry : ℕ)
  | send (destId : ℕ) (data : Vector (BitVec 8) 32)
  | receive
  | exit

section Machine
variable {ρ : Type} (P : Platform ρ) (L : Layout)

namespace TaskMachine

def trapSp (t : TaskMachine ρ) : ℕ := ((P.enter t.kernelTop t.cpu).regs P.sp).toNat

/-- The end of `run_schedule` sets `rsp0` when it has found a task. -/
def kernelTopAfter (t : TaskMachine ρ) : ℕ :=
  if t.sched.initialized then
    (t.sched.save (t.trapSp P)).nextReady.elim t.kernelTop L.kernelStackTop
  else t.kernelTop

def writeFirstFrame (t : TaskMachine ρ) (c : SpawnCall) (entry : ℕ) : Memory :=
  match t.sched.freeSlot with
  | none => t.cpu.mem
  | some i => writeWords t.cpu.mem
      (P.initContext entry c.userStackTop (L.stackTop i) c.isUser)
      (L.taskStacks.framePtr i) P.contextRegs

/-- A trap of the slot `i` in these registers has its frame in the slot's own memory. -/
structure Fits (kernelTop : ℕ) (c : ρ → BitVec 64) (i : Slot) : Prop where
  room : P.Room kernelTop c
  inside : L.Inside (P.frame kernelTop c) P.size i

def OthersKept (t : TaskMachine ρ) (m : Memory) : Prop :=
  ∀ j, j ≠ t.sched.current → ∀ x ∈ L.area j, m x = t.cpu.mem x

def Enabled (t : TaskMachine ρ) : CpuEvent ρ → Prop
  | .execute cpu => OthersKept L t cpu.mem ∧ Fits P L t.kernelTop cpu.regs t.sched.current ∧
      Fits P L (L.kernelStackTop t.sched.current) cpu.regs t.sched.current
  | .trap handled => OthersKept L t handled.mem ∧
      ∀ x, t.trapSp P ≤ x → x < t.trapSp P + P.size →
        handled.mem x = (P.enter t.kernelTop t.cpu).mem x
  | .spawn _ _ => t.sched.initialized = true → (t.sched.tasks t.sched.current).state = .running
  -- A task that blocks is not saved, see `resumes_on_stale_sp`.
  | .receive => t.sched.receiveMessage.1.isSome = true
  | _ => True

def next [DecidableEq ρ] (t : TaskMachine ρ) : CpuEvent ρ → TaskMachine ρ
  | .execute cpu => { t with cpu := cpu }
  | .trap handled =>
    { cpu := P.resume handled (t.sched.runSchedule (t.trapSp P)).sp
      sched := (t.sched.runSchedule (t.trapSp P)).sched
      kernelTop := kernelTopAfter P L t }
  | .spawn c entry =>
    { t with
      cpu := { t.cpu with mem := writeFirstFrame P L t c entry }
      sched := (c.run L.taskStacks t.sched).2 }
  | .send destId data => { t with sched := (t.sched.sendMessage destId data).2 }
  | .receive => { t with sched := t.sched.receiveMessage.2 }
  | .exit => { t with sched := t.sched.exit }

/-- The registers of a task: those of the CPU while it is the current one, else those in its frame. -/
def view (t : TaskMachine ρ) (i : Slot) : ρ → BitVec 64 :=
  if i = t.sched.current then t.cpu.regs else P.decode t.cpu.mem (t.sched.tasks i).sp

/-- There is a task in the slot; before the first spawn, the boot context in the current one. -/
def Live (t : TaskMachine ρ) (i : Slot) : Prop :=
  (t.sched.tasks i).state ≠ .terminated ∨ t.sched.initialized = false ∧ i = t.sched.current

/-- The event is a step of the task itself, or its end. -/
def OwnStep (i : Slot) (t : TaskMachine ρ) : CpuEvent ρ → Prop
  | .execute _ => i = t.sched.current
  | .exit => i = t.sched.current
  | _ => False

structure Inv (t : TaskMachine ρ) : Prop where
  wellFormed : t.sched.WellFormed
  unblocked : ∀ i, (t.sched.tasks i).state ≠ .blocked
  booting : t.sched.initialized = false → (t.sched.tasks 0).state = .terminated
  current : (t.sched.tasks t.sched.current).state ≠ .ready
  fits : Fits P L t.kernelTop t.cpu.regs t.sched.current
  fitsOwn : Fits P L (L.kernelStackTop t.sched.current) t.cpu.regs t.sched.current
  waitingInside : ∀ i, (t.sched.tasks i).state = .ready →
    L.Inside (t.sched.tasks i).sp P.size i
  waitingFits : ∀ i, (t.sched.tasks i).state = .ready →
    Fits P L (L.kernelStackTop i) (P.decode t.cpu.mem (t.sched.tasks i).sp) i

/-- `run_schedule` finds no task, and the interrupted one goes on. -/
structure Continued (t : TaskMachine ρ) (handled : Cpu ρ) (t' : TaskMachine ρ) : Prop where
  sched : t'.sched = t.sched
  kernelTop : t'.kernelTop = t.kernelTop
  mem : t'.cpu.mem = handled.mem
  regs : ∀ r, P.Saved r → t'.cpu.regs r = t.cpu.regs r

structure Switched (t : TaskMachine ρ) (handled : Cpu ρ) (next : Slot) (t' : TaskMachine ρ) : Prop where
  initialized : t.sched.initialized = true ∧ t'.sched.initialized = true
  ready : ((t.sched.save (t.trapSp P)).tasks next).state = .ready
  current : t'.sched.current = next
  running : (t'.sched.tasks next).state = .running
  others : ∀ i, i ≠ next →
    (t'.sched.tasks i).sp = ((t.sched.save (t.trapSp P)).tasks i).sp ∧
    (t'.sched.tasks i).state = ((t.sched.save (t.trapSp P)).tasks i).state
  kernelTop : t'.kernelTop = L.kernelStackTop next
  mem : t'.cpu.mem = handled.mem
  regs : ∀ r, P.Saved r → t'.cpu.regs r = t.view P next r

variable {P L}

theorem Fits.congr {kernelTop : ℕ} {c c' : ρ → BitVec 64} {i : Slot} (h : Fits P L kernelTop c i)
    (hsame : ∀ r, P.Saved r → c' r = c r) : Fits P L kernelTop c' i := by
  have hcongr : P.frame kernelTop c' = P.frame kernelTop c ∧ _ := P.frame_congr hsame
  obtain ⟨hframe, hroom⟩ := hcongr
  refine ⟨hroom h.room, ?_⟩
  rw [hframe]
  exact h.inside

theorem decode_of_area {m m' : Memory} {a : ℕ} {i : Slot} (hinside : L.Inside a P.size i)
    (hsame : ∀ x ∈ L.area i, m' x = m x) {r : ρ} (hr : P.Saved r) :
    P.decode m' a r = P.decode m a r :=
  P.decode_congr hr fun x hlow hhigh => hsame x (hinside x hlow hhigh)

section Trap
variable {t : TaskMachine ρ} {handled : Cpu ρ}

theorem Inv.trapSp_eq (h : t.Inv P L) : t.trapSp P = P.frame t.kernelTop t.cpu.regs :=
  P.enter_sp h.fits.room

theorem Inv.trapSp_ne_zero (h : t.Inv P L) : t.trapSp P ≠ 0 := by
  rw [h.trapSp_eq]
  exact Nat.ne_of_gt (h.fits.inside.pos P.size_pos)

theorem Inv.running_of_live (h : t.Inv P L) (hlive : t.Live t.sched.current)
    (hinit : t.sched.initialized = true) :
    (t.sched.tasks t.sched.current).state = .running := by
  have hblocked := h.unblocked t.sched.current
  have hready := h.current
  rcases hlive with hterminated | hboot
  · cases hstate : (t.sched.tasks t.sched.current).state with
    | ready => exact absurd hstate hready
    | running => rfl
    | blocked => exact absurd hstate hblocked
    | terminated => exact absurd hstate hterminated
  · exact absurd (hinit.symm.trans hboot.1) (by decide)

theorem Inv.ready_of_live (h : t.Inv P L) {i : Slot} (hlive : t.Live i)
    (hi : i ≠ t.sched.current) : (t.sched.tasks i).state = .ready := by
  rcases hlive with hterminated | hboot
  · cases hstate : (t.sched.tasks i).state with
    | ready => rfl
    | running => exact absurd (h.wellFormed.running i hstate) hi
    | blocked => exact absurd hstate (h.unblocked i)
    | terminated => exact absurd hstate hterminated
  · exact absurd hboot.2 hi

/-- The frame of the interrupted task is still there when its handler comes back. -/
theorem Inv.decode_trapSp (h : t.Inv P L) (he : t.Enabled P L (.trap handled)) {r : ρ}
    (hr : P.Saved r) : P.decode handled.mem (t.trapSp P) r = t.cpu.regs r := by
  have hkept := P.decode_congr (m := (P.enter t.kernelTop t.cpu).mem) hr he.2
  rw [hkept, h.trapSp_eq]
  exact P.enter_decode h.fits.room hr

/-- After `run_schedule` has put the interrupted task away, each ready task has a frame in its own
memory that holds its registers. -/
theorem Inv.saved (h : t.Inv P L) (he : t.Enabled P L (.trap handled)) {i : Slot}
    (hready : ((t.sched.save (t.trapSp P)).tasks i).state = .ready) :
    L.Inside ((t.sched.save (t.trapSp P)).tasks i).sp P.size i ∧
    (∀ r, P.Saved r →
      P.decode handled.mem ((t.sched.save (t.trapSp P)).tasks i).sp r = t.view P i r) ∧
    Fits P L (L.kernelStackTop i)
      (P.decode handled.mem ((t.sched.save (t.trapSp P)).tasks i).sp) i := by
  by_cases hi : i = t.sched.current
  · subst hi
    have hrunning : (t.sched.tasks t.sched.current).state = .running := by
      by_contra hcon
      rw [save_of_not_running _ hcon] at hready
      exact h.current hready
    have hview : ∀ r, P.Saved r → P.decode handled.mem (t.trapSp P) r = t.cpu.regs r :=
      fun r hr => h.decode_trapSp he hr
    rw [save_of_running _ h.trapSp_ne_zero hrunning]
    refine ⟨?_, fun r hr => ?_, h.fitsOwn.congr hview⟩
    · change L.Inside (t.trapSp P) P.size t.sched.current
      rw [h.trapSp_eq]
      exact h.fits.inside
    · rw [view, if_pos rfl]
      exact hview r hr
  · rw [save_of_ne _ _ hi] at hready ⊢
    have hinside := h.waitingInside i hready
    have hview : ∀ r, P.Saved r →
        P.decode handled.mem (t.sched.tasks i).sp r = P.decode t.cpu.mem (t.sched.tasks i).sp r :=
      fun r hr => decode_of_area hinside (he.1 i hi) hr
    refine ⟨hinside, fun r hr => ?_, (h.waitingFits i hready).congr hview⟩
    rw [view, if_neg hi]
    exact hview r hr

theorem Inv.saved_ready (h : t.Inv P L) (hinit : t.sched.initialized = true) {i : Slot}
    (hlive : t.Live i) : ((t.sched.save (t.trapSp P)).tasks i).state = .ready := by
  by_cases hi : i = t.sched.current
  · subst hi
    rw [save_of_running _ h.trapSp_ne_zero (h.running_of_live hlive hinit)]
  · rw [save_of_ne _ _ hi]
    exact h.ready_of_live hlive hi

theorem Inv.saved_unblocked (h : t.Inv P L) (i : Slot) :
    ((t.sched.save (t.trapSp P)).tasks i).state ≠ .blocked := by
  by_cases hrunning : (t.sched.tasks i).state = .running
  · have hi := h.wellFormed.running i hrunning
    subst hi
    rw [save_of_running _ h.trapSp_ne_zero hrunning]
    exact fun hcon => TaskState.noConfusion hcon
  · rw [save_of_not_running _ hrunning]
    exact h.unblocked i

end Trap

section Switching
variable [DecidableEq ρ] {t : TaskMachine ρ} {handled : Cpu ρ}

theorem Inv.trap_cases (h : t.Inv P L) (he : t.Enabled P L (.trap handled)) :
    t.Continued P handled (t.next P L (.trap handled)) ∨
    ∃ next, t.Switched P L handled next (t.next P L (.trap handled)) := by
  by_cases hsel : ∃ i, t.sched.Selects (t.trapSp P) i
  · obtain ⟨next, hsel⟩ := hsel
    have hrun := runSchedule_of_selects hsel
    have hready := nextReady_ready hsel.2
    obtain ⟨hinside, hview, -⟩ := h.saved he hready
    refine Or.inr ⟨next, ⟨hsel.1, ?_⟩, hready, ?_, ?_, fun i hi => ?_, ?_, P.resume_mem _ _,
      fun r hr => ?_⟩
    · change (t.sched.runSchedule (t.trapSp P)).sched.initialized = true
      rw [hrun, switchTo_initialized, save_initialized, hsel.1]
    · change (t.sched.runSchedule (t.trapSp P)).sched.current = next
      rw [hrun, switchTo_current]
    · change ((t.sched.runSchedule (t.trapSp P)).sched.tasks next).state = .running
      rw [hrun, switchTo_selected _ hready]
    · change ((t.sched.runSchedule (t.trapSp P)).sched.tasks i).sp = _ ∧
        ((t.sched.runSchedule (t.trapSp P)).sched.tasks i).state = _
      rw [hrun]
      exact switchTo_keeps _ hi
    · change kernelTopAfter P L t = _
      rw [kernelTopAfter, if_pos hsel.1, hsel.2]
      rfl
    · change (P.resume handled (t.sched.runSchedule (t.trapSp P)).sp).regs r = _
      rw [hrun, switchTo_sp, P.resume_saved (hinside.bound P.size_pos) hr, hview r hr]
  · have hrun := runSchedule_of_not_selects (not_exists.mp hsel)
    refine Or.inl ⟨?_, ?_, P.resume_mem _ _, fun r hr => ?_⟩
    · change (t.sched.runSchedule (t.trapSp P)).sched = t.sched
      rw [hrun]
    · change kernelTopAfter P L t = _
      unfold kernelTopAfter
      split_ifs with hinit
      · cases hnext : (t.sched.save (t.trapSp P)).nextReady with
        | none => rfl
        | some i => exact absurd ⟨i, hinit, hnext⟩ hsel
      · rfl
    · change (P.resume handled (t.sched.runSchedule (t.trapSp P)).sp).regs r = _
      have hbound : t.trapSp P + P.size < 2 ^ 64 := by
        rw [h.trapSp_eq]
        exact h.fits.inside.bound P.size_pos
      rw [hrun, P.resume_saved hbound hr, h.decode_trapSp he hr]

theorem Inv.trap_view (h : t.Inv P L) (he : t.Enabled P L (.trap handled)) {i : Slot}
    (hlive : t.Live i) :
    (t.next P L (.trap handled)).Live i ∧
      ∀ r, P.Saved r → (t.next P L (.trap handled)).view P i r = t.view P i r := by
  rcases h.trap_cases he with hcont | ⟨next, hswitch⟩
  · refine ⟨?_, fun r hr => ?_⟩
    · rw [Live, hcont.sched]
      exact hlive
    · rw [view, view, hcont.sched, hcont.mem]
      split_ifs with hi
      · exact hcont.regs r hr
      · have hready := h.ready_of_live hlive hi
        exact decode_of_area (h.waitingInside i hready) (he.1 i hi) hr
  · have hready := h.saved_ready hswitch.initialized.1 hlive
    by_cases hi : i = next
    · subst hi
      refine ⟨Or.inl ?_, fun r hr => ?_⟩
      · rw [hswitch.running]
        decide
      · have hcurrent := hswitch.current.symm
        rw [view, if_pos hcurrent]
        exact hswitch.regs r hr
    · obtain ⟨hsp, hstate⟩ := hswitch.others i hi
      refine ⟨Or.inl ?_, fun r hr => ?_⟩
      · rw [hstate, hready]
        decide
      · have hother : i ≠ (t.next P L (.trap handled)).sched.current := by
          rw [hswitch.current]
          exact hi
        rw [view, if_neg hother, hsp, hswitch.mem]
        exact (h.saved he hready).2.1 r hr

theorem Inv.trap (h : t.Inv P L) (he : t.Enabled P L (.trap handled)) :
    (t.next P L (.trap handled)).Inv P L := by
  have hwf : (t.next P L (.trap handled)).sched.WellFormed :=
    h.wellFormed.step (K := L.taskStacks) (e := .schedule (t.trapSp P)) h.trapSp_ne_zero
  rcases h.trap_cases he with hcont | ⟨next, hswitch⟩
  · have hsched := hcont.sched
    have hwaiting : ∀ i, (t.sched.tasks i).state = .ready → ∀ r, P.Saved r →
        P.decode handled.mem (t.sched.tasks i).sp r = P.decode t.cpu.mem (t.sched.tasks i).sp r := by
      intro i hready r hr
      have hi : i ≠ t.sched.current := fun hcon => h.current (hcon ▸ hready)
      exact decode_of_area (h.waitingInside i hready) (he.1 i hi) hr
    constructor
    · exact hwf
    · rw [hsched]
      exact h.unblocked
    · rw [hsched]
      exact h.booting
    · rw [hsched]
      exact h.current
    · rw [hsched, hcont.kernelTop]
      exact h.fits.congr hcont.regs
    · rw [hsched]
      exact h.fitsOwn.congr hcont.regs
    · rw [hsched]
      exact h.waitingInside
    · rw [hsched, hcont.mem]
      exact fun i hready => (h.waitingFits i hready).congr (hwaiting i hready)
  · obtain ⟨-, hview, hfits⟩ := h.saved he hswitch.ready
    have hresumed : Fits P L (L.kernelStackTop next) (t.next P L (.trap handled)).cpu.regs next := by
      refine hfits.congr fun r hr => ?_
      rw [hswitch.regs r hr, hview r hr]
    have hready : ∀ i, ((t.next P L (.trap handled)).sched.tasks i).state = .ready → i ≠ next := by
      rintro i hi rfl
      exact TaskState.noConfusion (hi.symm.trans hswitch.running)
    constructor
    · exact hwf
    · intro i
      by_cases hi : i = next
      · rw [hi, hswitch.running]
        decide
      · rw [(hswitch.others i hi).2]
        exact h.saved_unblocked i
    · intro hinit
      exact absurd (hswitch.initialized.2.symm.trans hinit) (by decide)
    · rw [hswitch.current, hswitch.running]
      decide
    · rw [hswitch.current, hswitch.kernelTop]
      exact hresumed
    · rw [hswitch.current]
      exact hresumed
    · intro i hi
      obtain ⟨hsp, hstate⟩ := hswitch.others i (hready i hi)
      rw [hsp]
      exact (h.saved he (hstate.symm.trans hi)).1
    · intro i hi
      obtain ⟨hsp, hstate⟩ := hswitch.others i (hready i hi)
      rw [hsp, hswitch.mem]
      exact (h.saved he (hstate.symm.trans hi)).2.2

end Switching

end TaskMachine

end Machine

end MitosOS.Kernel
