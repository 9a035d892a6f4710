import MitosOS.Kernel.TaskMachine

/-! What a task finds in its registers when it runs again, whatever happened in between. -/
namespace MitosOS.Kernel
open MitosOS.Lib MitosOS.Paging MitosOS.Tasks Scheduler

section Machine
variable {ρ : Type} {P : Platform ρ} {L : Layout}

namespace TaskMachine

section Calls
variable {t : TaskMachine ρ}

/-- Two tables that differ in mailboxes and address spaces alone. -/
structure SameTasks (s s' : Scheduler) : Prop where
  current : s'.current = s.current
  initialized : s'.initialized = s.initialized
  sp : ∀ i, (s'.tasks i).sp = (s.tasks i).sp
  state : ∀ i, (s'.tasks i).state = (s.tasks i).state

theorem SameTasks.refl (s : Scheduler) : SameTasks s s := ⟨rfl, rfl, fun _ => rfl, fun _ => rfl⟩

theorem SameTasks.setTask {s : Scheduler} {i : Slot} {u : Task} (hsp : u.sp = (s.tasks i).sp)
    (hstate : u.state = (s.tasks i).state) : SameTasks s (s.setTask i u) := by
  refine ⟨rfl, rfl, fun j => ?_, fun j => ?_⟩
  · by_cases hj : j = i
    · rw [hj, setTask_same, hsp]
    · rw [setTask_of_ne _ _ hj]
  · by_cases hj : j = i
    · rw [hj, setTask_same, hstate]
    · rw [setTask_of_ne _ _ hj]

theorem Inv.sameTasks (h : t.Inv P L) {s' : Scheduler} (hwf : s'.WellFormed)
    (hsame : SameTasks t.sched s') : ({ t with sched := s' } : TaskMachine ρ).Inv P L := by
  constructor
  · exact hwf
  · intro i
    rw [hsame.state]
    exact h.unblocked i
  · rw [hsame.initialized, hsame.state]
    exact h.booting
  · rw [hsame.current, hsame.state]
    exact h.current
  · rw [hsame.current]
    exact h.fits
  · rw [hsame.current]
    exact h.fitsOwn
  · intro i
    rw [hsame.state, hsame.sp]
    exact h.waitingInside i
  · intro i
    rw [hsame.state, hsame.sp]
    exact h.waitingFits i

theorem SameTasks.view {s' : Scheduler} (hsame : SameTasks t.sched s') (i : Slot) :
    ({ t with sched := s' } : TaskMachine ρ).view P i = t.view P i := by
  rw [TaskMachine.view, TaskMachine.view, hsame.current, hsame.sp]

theorem SameTasks.live {s' : Scheduler} (hsame : SameTasks t.sched s') {i : Slot}
    (hlive : t.Live i) : ({ t with sched := s' } : TaskMachine ρ).Live i := by
  rw [Live, hsame.state, hsame.initialized, hsame.current]
  exact hlive

theorem Inv.send_sameTasks (h : t.Inv P L) (destId : ℕ) (data : Vector (BitVec 8) 32) :
    SameTasks t.sched (t.sched.sendMessage destId data).2 := by
  rcases sendMessage_spec t.sched destId data with ⟨i, -, -, heq⟩ | ⟨e, heq⟩
  · rw [heq]
    exact SameTasks.setTask rfl (if_neg (h.unblocked i))
  · rw [heq]
    exact .refl _

theorem receive_sameTasks (s : Scheduler) (hsome : s.receiveMessage.1.isSome = true) :
    SameTasks s s.receiveMessage.2 := by
  rcases receiveMessage_spec s with ⟨i, msg, -, -, heq⟩ | ⟨i, -, -, heq⟩ | heq
  · rw [heq]
    exact SameTasks.setTask rfl rfl
  · rw [heq] at hsome
    contradiction
  · rw [heq] at hsome
    contradiction

theorem Inv.exit (h : t.Inv P L) : ({ t with sched := t.sched.exit } : TaskMachine ρ).Inv P L := by
  have hother : ∀ i, (t.sched.exit.tasks i).state = .ready →
      t.sched.exit.tasks i = t.sched.tasks i := by
    intro i hready
    apply setState_of_ne
    rintro rfl
    rw [Scheduler.exit, setState_same] at hready
    exact TaskState.noConfusion hready
  constructor
  · exact h.wellFormed.step (K := L.taskStacks) (e := .exit) trivial
  · intro i
    by_cases hi : i = t.sched.current
    · rw [hi, Scheduler.exit, setState_same]
      exact fun hcon => TaskState.noConfusion hcon
    · rw [Scheduler.exit, setState_of_ne _ _ hi]
      exact h.unblocked i
  · intro hinit
    by_cases hi : (0 : Slot) = t.sched.current
    · rw [hi, Scheduler.exit, setState_same]
    · rw [Scheduler.exit, setState_of_ne _ _ hi]
      exact h.booting hinit
  · change ((t.sched.setState t.sched.current .terminated).tasks t.sched.current).state ≠ .ready
    rw [setState_same]
    exact fun hcon => TaskState.noConfusion hcon
  · exact h.fits
  · exact h.fitsOwn
  · intro i hready
    have hsame := hother i hready
    rw [hsame] at hready ⊢
    exact h.waitingInside i hready
  · intro i hready
    have hsame := hother i hready
    rw [hsame] at hready ⊢
    exact h.waitingFits i hready

theorem Inv.execute (h : t.Inv P L) {cpu : Cpu ρ} (he : t.Enabled P L (.execute cpu)) :
    ({ t with cpu := cpu } : TaskMachine ρ).Inv P L where
  wellFormed := h.wellFormed
  unblocked := h.unblocked
  booting := h.booting
  current := h.current
  fits := he.2.1
  fitsOwn := he.2.2
  waitingInside := h.waitingInside
  waitingFits i hready := by
    have hi : i ≠ t.sched.current := fun hcon => h.current (hcon ▸ hready)
    exact (h.waitingFits i hready).congr fun r hr =>
      decode_of_area (h.waitingInside i hready) (he.1 i hi) hr

end Calls

section Spawning
variable {t : TaskMachine ρ} {i : Slot}

theorem Layout.stackTop_bounds (L : Layout) (i : Slot) :
    L.stackTop i % 16 = 0 ∧ L.taskStacks.base i + 8177 ≤ L.stackTop i ∧
    L.stackTop i ≤ L.taskStacks.base i + 8192 ∧ L.taskStacks.base i + 8192 < 2 ^ 64 := by
  have hlast := (L.bounds (L.stack_area (i := i) (x := L.taskStacks.base i + 8191) (by omega)
    (by omega))).2
  have hlt := lt_alignDown_add (a := L.taskStacks.base i + 8192) (n := 16) (by decide)
  have hle := alignDown_le (L.taskStacks.base i + 8192) 16
  exact ⟨alignDown_mod _ _, by unfold Layout.stackTop; omega, hle, by omega⟩

theorem Layout.kernelStackTop_bounds (L : Layout) (i : Slot) :
    L.kernelStackTop i % 16 = 0 ∧ L.kernelBase i + 8177 ≤ L.kernelStackTop i ∧
    L.kernelStackTop i ≤ L.kernelBase i + 8192 ∧ L.kernelBase i + 8192 < 2 ^ 64 := by
  have hlast := (L.bounds (L.kernelStack_area (i := i) (x := L.kernelBase i + 8191) (by omega)
    (by omega))).2
  have hlt := lt_alignDown_add (a := L.kernelBase i + 8192) (n := 16) (by decide)
  have hle := alignDown_le (L.kernelBase i + 8192) 16
  exact ⟨alignDown_mod _ _, by unfold Layout.kernelStackTop; omega, hle, by omega⟩

theorem fits_startRegs (P : Platform ρ) (L : Layout) (i : Slot) (entry userStackTop : ℕ)
    (isUser : Bool) :
    Fits P L (L.kernelStackTop i) (P.startRegs entry userStackTop (L.stackTop i) isUser) i := by
  obtain ⟨hmod, hlow, hhigh, hlt⟩ := Layout.stackTop_bounds L i
  obtain ⟨hmod', hlow', hhigh', hlt'⟩ := Layout.kernelStackTop_bounds L i
  have hstart : P.Room (L.kernelStackTop i) (P.startRegs entry userStackTop (L.stackTop i) isUser) ∧ _ :=
    P.start_room hmod hmod' (by omega) (by omega) (by omega) (by omega)
  obtain ⟨hroom, top, htop, hbelow, habove⟩ := hstart
  refine ⟨hroom, fun x hx hx' => ?_⟩
  rcases htop with rfl | rfl
  · exact L.stack_area (by omega) (by omega)
  · exact L.kernelStack_area (by omega) (by omega)

theorem inside_framePtr (hsize : P.size = contextSize L.taskStacks.arch) (i : Slot) :
    L.Inside (L.taskStacks.framePtr i) P.size i ∧
      L.taskStacks.framePtr i + P.size = L.stackTop i := by
  obtain ⟨-, hlow, hhigh, -⟩ := Layout.stackTop_bounds L i
  have hcontext : contextSize L.taskStacks.arch ≤ 272 := by
    cases L.taskStacks.arch <;> decide
  have hframe : L.taskStacks.framePtr i = L.stackTop i - contextSize L.taskStacks.arch := rfl
  rw [hframe, hsize]
  exact ⟨fun x hx hx' => L.stack_area (by omega) (by omega), by omega⟩

theorem writeFirstFrame_other (hsize : P.size = contextSize L.taskStacks.arch) (c : SpawnCall)
    (entry : ℕ) (hi : t.sched.freeSlot ≠ some i) :
    ∀ x ∈ L.area i, t.writeFirstFrame P L c entry x = t.cpu.mem x := by
  intro x hx
  unfold writeFirstFrame
  cases hfree : t.sched.freeSlot with
  | none => rfl
  | some j =>
    have hij : i ≠ j := fun hcon => hi (hcon ▸ hfree)
    refine writeWords_apply _ _ _ ?_
    rw [P.contextRegs_size]
    exact (inside_framePtr hsize j).1.disjoint hij hx

theorem decode_writeFirstFrame (hsize : P.size = contextSize L.taskStacks.arch) (c : SpawnCall)
    (entry : ℕ) (hfree : t.sched.freeSlot = some i) {r : ρ} (hr : P.Saved r) :
    P.decode (t.writeFirstFrame P L c entry) (L.taskStacks.framePtr i) r =
      P.startRegs entry c.userStackTop (L.stackTop i) c.isUser r := by
  have hwrite : t.writeFirstFrame P L c entry = writeWords t.cpu.mem
      (P.initContext entry c.userStackTop (L.stackTop i) c.isUser) (L.taskStacks.framePtr i)
      P.contextRegs := by
    unfold writeFirstFrame
    rw [hfree]
  rw [hwrite, ← (inside_framePtr hsize i).2]
  exact P.decode_init hr

theorem spawn_sched (c : SpawnCall) (hinit : t.sched.initialized = true) :
    ((c.run L.taskStacks t.sched).2.current = t.sched.current ∧
      (c.run L.taskStacks t.sched).2.initialized = true) ∧
    (∀ j, t.sched.freeSlot ≠ some j →
      (c.run L.taskStacks t.sched).2.tasks j = t.sched.tasks j) ∧
    ∀ j, t.sched.freeSlot = some j →
      ((c.run L.taskStacks t.sched).2.tasks j).state = .ready ∧
      ((c.run L.taskStacks t.sched).2.tasks j).sp = L.taskStacks.framePtr j := by
  cases hfree : t.sched.freeSlot with
  | none =>
    rw [c.run_full hfree]
    exact ⟨⟨rfl, hinit⟩, fun _ _ => rfl, fun j hj => absurd hj.symm (Option.some_ne_none j)⟩
  | some i =>
    obtain ⟨u, hu, heq⟩ := c.run_fills (K := L.taskStacks) hfree
    rw [heq, if_pos hinit]
    refine ⟨⟨rfl, hinit⟩, fun j hj => ?_, fun j hj => ?_⟩
    · exact setTask_of_ne _ _ fun hcon => hj (congrArg some hcon.symm)
    · rw [← Option.some.inj hj]
      change ((t.sched.setTask i u).tasks i).state = .ready ∧ ((t.sched.setTask i u).tasks i).sp = _
      rw [setTask_same]
      exact ⟨hu.state_eq, hu.sp_eq⟩

/-- The first spawn of all turns the boot context into the task of slot 0. -/
theorem Inv.first_spawn (h : t.Inv P L) (c : SpawnCall) (hinit : t.sched.initialized = false) :
    (c.run L.taskStacks t.sched).2.current = 0 ∧
    (c.run L.taskStacks t.sched).2.initialized = true ∧
    ((c.run L.taskStacks t.sched).2.tasks 0).state = .running ∧
    ∀ j, j ≠ 0 → ((c.run L.taskStacks t.sched).2.tasks j).state = .terminated := by
  obtain ⟨u, -, heq⟩ := c.run_fills (K := L.taskStacks) (freeSlot_zero (h.booting hinit))
  have hset : (c.run L.taskStacks t.sched).2 =
      { (t.sched.setTask 0 u).setState 0 .running with initialized := true } := by
    rw [heq, hinit]
    rfl
  rw [hset]
  refine ⟨h.wellFormed.boot.current hinit, rfl, ?_, fun j hj => ?_⟩
  · change (((t.sched.setTask 0 u).setState 0 .running).tasks 0).state = .running
    rw [setState_same]
  · change (((t.sched.setTask 0 u).setState 0 .running).tasks j).state = .terminated
    rw [setState_of_ne _ _ hj, setTask_of_ne _ _ hj]
    exact h.wellFormed.boot.unused hinit j hj

theorem Inv.spawn [DecidableEq ρ] (h : t.Inv P L)
    (hsize : P.size = contextSize L.taskStacks.arch) {c : SpawnCall} {entry : ℕ}
    (he : t.Enabled P L (.spawn c entry)) : (t.next P L (.spawn c entry)).Inv P L := by
  have hwf : (c.run L.taskStacks t.sched).2.WellFormed :=
    h.wellFormed.step (K := L.taskStacks) (e := .spawn c) trivial
  cases hinit : t.sched.initialized with
  | false =>
    obtain ⟨hcurrent, hinit', hzero, hrest⟩ := h.first_spawn c hinit
    have hzero' := h.wellFormed.boot.current hinit
    have hready : ∀ j, ((c.run L.taskStacks t.sched).2.tasks j).state ≠ .ready := by
      intro j hj
      by_cases hj0 : j = 0
      · rw [hj0, hzero] at hj
        exact TaskState.noConfusion hj
      · rw [hrest j hj0] at hj
        exact TaskState.noConfusion hj
    have hsame : (c.run L.taskStacks t.sched).2.current = t.sched.current := by
      rw [hcurrent, hzero']
    refine ⟨hwf, fun j => ?_, fun hcon => ?_, hready _, ?_, ?_, fun j hj => absurd hj (hready j),
      fun j hj => absurd hj (hready j)⟩
    · change ((c.run L.taskStacks t.sched).2.tasks j).state ≠ .blocked
      by_cases hj0 : j = 0
      · rw [hj0, hzero]
        decide
      · rw [hrest j hj0]
        decide
    · exact absurd (hinit'.symm.trans hcon) (by decide)
    · change Fits P L t.kernelTop t.cpu.regs (c.run L.taskStacks t.sched).2.current
      rw [hsame]
      exact h.fits
    · change Fits P L (L.kernelStackTop (c.run L.taskStacks t.sched).2.current) t.cpu.regs
        (c.run L.taskStacks t.sched).2.current
      rw [hsame]
      exact h.fitsOwn
  | true =>
    obtain ⟨⟨hcurrent, hinit'⟩, hother, hnew⟩ := spawn_sched (L := L) c hinit
    have hlive : t.sched.freeSlot ≠ some t.sched.current := by
      intro hcon
      exact TaskState.noConfusion ((he hinit).symm.trans (freeSlot_terminated hcon))
    refine ⟨hwf, fun j => ?_, fun hcon => ?_, ?_, ?_, ?_, fun j hj => ?_, fun j hj => ?_⟩
    · change ((c.run L.taskStacks t.sched).2.tasks j).state ≠ .blocked
      by_cases hj : t.sched.freeSlot = some j
      · rw [(hnew j hj).1]
        decide
      · rw [hother j hj]
        exact h.unblocked j
    · exact absurd (hinit'.symm.trans hcon) (by decide)
    · change ((c.run L.taskStacks t.sched).2.tasks (c.run L.taskStacks t.sched).2.current).state ≠ _
      rw [hcurrent, hother _ hlive]
      exact h.current
    · change Fits P L t.kernelTop t.cpu.regs (c.run L.taskStacks t.sched).2.current
      rw [hcurrent]
      exact h.fits
    · change Fits P L (L.kernelStackTop (c.run L.taskStacks t.sched).2.current) t.cpu.regs
        (c.run L.taskStacks t.sched).2.current
      rw [hcurrent]
      exact h.fitsOwn
    · change L.Inside ((c.run L.taskStacks t.sched).2.tasks j).sp P.size j
      change ((c.run L.taskStacks t.sched).2.tasks j).state = .ready at hj
      by_cases hfree : t.sched.freeSlot = some j
      · rw [(hnew j hfree).2]
        exact (inside_framePtr hsize j).1
      · rw [hother j hfree] at hj ⊢
        exact h.waitingInside j hj
    · change Fits P L (L.kernelStackTop j) (P.decode (t.writeFirstFrame P L c entry)
        ((c.run L.taskStacks t.sched).2.tasks j).sp) j
      change ((c.run L.taskStacks t.sched).2.tasks j).state = .ready at hj
      by_cases hfree : t.sched.freeSlot = some j
      · rw [(hnew j hfree).2]
        exact (fits_startRegs P L j entry c.userStackTop c.isUser).congr fun r hr =>
          decode_writeFirstFrame hsize c entry hfree hr
      · rw [hother j hfree] at hj ⊢
        exact (h.waitingFits j hj).congr fun r hr =>
          decode_of_area (h.waitingInside j hj) (writeFirstFrame_other hsize c entry hfree) hr

theorem Inv.spawn_view [DecidableEq ρ] (h : t.Inv P L)
    (hsize : P.size = contextSize L.taskStacks.arch) (c : SpawnCall) (entry : ℕ)
    (hlive : t.Live i) :
    (t.next P L (.spawn c entry)).Live i ∧
      ∀ r, P.Saved r → (t.next P L (.spawn c entry)).view P i r = t.view P i r := by
  have hview : (t.next P L (.spawn c entry)).view P i =
      if i = (c.run L.taskStacks t.sched).2.current then t.cpu.regs
      else P.decode (t.writeFirstFrame P L c entry) ((c.run L.taskStacks t.sched).2.tasks i).sp := rfl
  rw [hview]
  cases hinit : t.sched.initialized with
  | false =>
    obtain ⟨hcurrent, -, hzero, -⟩ := h.first_spawn c hinit
    have hzero' := h.wellFormed.boot.current hinit
    have hi : i = 0 := by
      rcases hlive with hterminated | hboot
      · by_contra hne
        exact hterminated (h.wellFormed.boot.unused hinit i hne)
      · exact hboot.2.trans hzero'
    rw [hi, hcurrent, if_pos rfl, view, hzero', if_pos rfl]
    refine ⟨Or.inl ?_, fun _ _ => rfl⟩
    change ((c.run L.taskStacks t.sched).2.tasks 0).state ≠ .terminated
    rw [hzero]
    decide
  | true =>
    obtain ⟨⟨hcurrent, -⟩, hother, -⟩ := spawn_sched (L := L) c hinit
    have hterminated : (t.sched.tasks i).state ≠ .terminated := by
      rcases hlive with hterminated | hboot
      · exact hterminated
      · exact absurd (hinit.symm.trans hboot.1) (by decide)
    have hfree : t.sched.freeSlot ≠ some i := fun hcon => hterminated (freeSlot_terminated hcon)
    rw [hcurrent, hother i hfree, view]
    refine ⟨Or.inl ?_, fun r hr => ?_⟩
    · change ((c.run L.taskStacks t.sched).2.tasks i).state ≠ .terminated
      rw [hother i hfree]
      exact hterminated
    · split_ifs with hi
      · rfl
      · exact decode_of_area (h.waitingInside i (h.ready_of_live hlive hi))
          (writeFirstFrame_other hsize c entry hfree) hr

end Spawning

section Steps
variable [DecidableEq ρ] {t : TaskMachine ρ} {e : CpuEvent ρ}

theorem Inv.step (h : t.Inv P L) (hsize : P.size = contextSize L.taskStacks.arch)
    (he : t.Enabled P L e) : (t.next P L e).Inv P L := by
  cases e with
  | execute cpu => exact h.execute he
  | trap handled => exact h.trap he
  | spawn c entry => exact h.spawn hsize he
  | send destId data =>
    exact h.sameTasks (h.wellFormed.step (K := L.taskStacks) (e := .send destId data) trivial)
      (h.send_sameTasks destId data)
  | receive =>
    exact h.sameTasks (h.wellFormed.step (K := L.taskStacks) (e := .receive) trivial)
      (receive_sameTasks t.sched he)
  | exit => exact h.exit

/-- Nothing that happens changes the registers of a task, but its own steps. -/
theorem Inv.step_view (h : t.Inv P L) (hsize : P.size = contextSize L.taskStacks.arch)
    (he : t.Enabled P L e) {i : Slot} (hlive : t.Live i) (hown : ¬ OwnStep i t e) :
    (t.next P L e).Live i ∧ ∀ r, P.Saved r → (t.next P L e).view P i r = t.view P i r := by
  cases e with
  | execute cpu =>
    have hi : i ≠ t.sched.current := hown
    refine ⟨hlive, fun r hr => ?_⟩
    have hready := h.ready_of_live hlive hi
    rw [view, view, if_neg hi]
    change (if i = t.sched.current then _ else P.decode cpu.mem (t.sched.tasks i).sp) r = _
    rw [if_neg hi]
    exact decode_of_area (h.waitingInside i hready) (he.1 i hi) hr
  | trap handled => exact h.trap_view he hlive
  | spawn c entry => exact h.spawn_view hsize c entry hlive
  | send destId data =>
    have hsame := h.send_sameTasks destId data
    exact ⟨hsame.live hlive, fun r _ => congrFun (hsame.view i) r⟩
  | receive =>
    have hsame := receive_sameTasks t.sched he
    exact ⟨hsame.live hlive, fun r _ => congrFun (hsame.view i) r⟩
  | exit =>
    have hi : i ≠ t.sched.current := hown
    have htask : t.sched.exit.tasks i = t.sched.tasks i := setState_of_ne _ _ hi
    refine ⟨?_, fun r _ => ?_⟩
    · change (t.sched.exit.tasks i).state ≠ .terminated ∨ _
      rw [htask]
      exact hlive
    · change (if i = t.sched.current then t.cpu.regs
        else P.decode t.cpu.mem (t.sched.exit.tasks i).sp) r = _
      rw [htask, view]

end Steps

end TaskMachine

variable (P L)

def switchSystem [DecidableEq ρ] : EventSystem (TaskMachine ρ) (CpuEvent ρ) where
  Enabled := TaskMachine.Enabled P L
  next := TaskMachine.next P L

structure TaskMachine.Boot (t : TaskMachine ρ) (root : ℕ) : Prop where
  sched : t.sched = .boot root
  fits : Fits P L t.kernelTop t.cpu.regs 0
  fitsOwn : Fits P L (L.kernelStackTop 0) t.cpu.regs 0

variable {P L}

theorem TaskMachine.Boot.inv {t : TaskMachine ρ} {root : ℕ} (h : t.Boot P L root) : t.Inv P L := by
  obtain ⟨hsched, hfits, hfitsOwn⟩ := h
  have hstate : ∀ i, (t.sched.tasks i).state = .terminated := by
    rw [hsched]
    exact fun _ => rfl
  have hcurrent : t.sched.current = 0 := by rw [hsched]; rfl
  have hwaiting : ∀ i, (t.sched.tasks i).state ≠ .ready := by
    intro i hready
    exact TaskState.noConfusion (hready.symm.trans (hstate i))
  refine ⟨?_, fun i => ?_, fun _ => hstate 0, hwaiting _, ?_, ?_, fun i hi => absurd hi (hwaiting i),
    fun i hi => absurd hi (hwaiting i)⟩
  · rw [hsched]
    exact .of_run (K := L.taskStacks) .refl
  · rw [hstate i]
    decide
  · rw [hcurrent]
    exact hfits
  · rw [hcurrent]
    exact hfitsOwn

theorem TaskMachine.Inv.of_run [DecidableEq ρ] {t₀ t : TaskMachine ρ}
    (hsize : P.size = contextSize L.taskStacks.arch) (hinv : t₀.Inv P L)
    (hrun : (switchSystem P L).Run t₀ t) : t.Inv P L :=
  hrun.invariant (fun _ _ h he _ => h.step hsize he) hinv

theorem TaskMachine.Inv.view_of_run [DecidableEq ρ] {t t' : TaskMachine ρ} {i : Slot}
    (hsize : P.size = contextSize L.taskStacks.arch) (hinv : t.Inv P L) (hlive : t.Live i)
    (hrun : (switchSystem P L).RunWhen (fun t e => ¬ OwnStep i t e) t t') :
    t'.Live i ∧ ∀ r, P.Saved r → t'.view P i r = t.view P i r := by
  have hall : t'.Inv P L ∧ t'.Live i ∧ ∀ r, P.Saved r → t'.view P i r = t.view P i r := by
    induction hrun with
    | refl => exact ⟨hinv, hlive, fun _ _ => rfl⟩
    | tail _ hlast ih =>
      obtain ⟨e, he, hown, rfl⟩ := hlast
      obtain ⟨hu, hlive', hview⟩ := ih
      obtain ⟨hlive'', hview'⟩ := hu.step_view hsize he hlive' hown
      exact ⟨hu.step hsize he, hlive'', fun r hr => (hview' r hr).trans (hview r hr)⟩
  exact hall.2

end Machine

def exampleLayout : Layout where
  taskStacks := ⟨.x86_64, fun i => 0x100000 + 0x10000 * i⟩
  kernelBase i := 0x102000 + 0x10000 * i
  area i := {x | 0x100000 + 0x10000 * i.val ≤ x ∧ x < 0x110000 + 0x10000 * i.val}
  stack_area hlow hhigh := by
    dsimp only at hlow hhigh
    rw [Set.mem_ofPred_eq]
    omega
  kernelStack_area hlow hhigh := by
    rw [Set.mem_ofPred_eq]
    omega
  disjoint hi hj := by
    rw [Set.mem_ofPred_eq] at hi hj
    apply Fin.ext
    omega
  bounds {i x} hx := by
    rw [Set.mem_ofPred_eq] at hx
    omega

def bootMachine : TaskMachine X64.Reg where
  cpu := ⟨Function.update (Function.update (fun _ => 0) .cs 8) .rsp 0x108000, fun _ => 0⟩
  sched := .boot 0x1000
  kernelTop := 0x104000

theorem bootMachine_interruptTop (kernelTop : ℕ) :
    X64.interruptTop kernelTop bootMachine.cpu.regs = 0x108000 := by
  have hcs : bootMachine.cpu.regs .cs = 8 := rfl
  have hrsp : bootMachine.cpu.regs .rsp = 0x108000 := rfl
  rw [X64.interruptTop, hcs, hrsp, if_neg (by decide)]
  rfl

theorem bootMachine_fits (kernelTop : ℕ) :
    TaskMachine.Fits X64.platform exampleLayout kernelTop bootMachine.cpu.regs 0 := by
  have htop := bootMachine_interruptTop kernelTop
  constructor
  · change X64.Room kernelTop bootMachine.cpu.regs
    rw [X64.Room, htop]
    omega
  · change exampleLayout.Inside (X64.interruptTop kernelTop bootMachine.cpu.regs - 160) 160 0
    rw [htop]
    intro x hlow hhigh
    change 0x100000 + 0x10000 * 0 ≤ x ∧ x < 0x110000 + 0x10000 * 0
    omega

theorem bootMachine_boot : bootMachine.Boot X64.platform exampleLayout 0x1000 :=
  ⟨rfl, bootMachine_fits _, bootMachine_fits _⟩

theorem TaskMachine.Inv.enabled_trap {ρ : Type} {P : Platform ρ} {L : Layout} {t : TaskMachine ρ}
    (h : t.Inv P L) : t.Enabled P L (.trap (P.enter t.kernelTop t.cpu)) := by
  refine ⟨fun j hj x hx => ?_, fun _ _ _ => rfl⟩
  exact P.enter_mem h.fits.room (h.fits.inside.disjoint hj hx)

end MitosOS.Kernel
