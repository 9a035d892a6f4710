import MitosOS.Kernel.UserBuffers
import MitosOS.Lib.EventSystem
import MitosOS.Tasks.ActiveRoot

/-! Processes, their system calls, the timer and the serial line, in any order: what one step can
change in memory, and that no process loses a page to another one. -/
namespace MitosOS.Kernel
open MitosOS.Lib MitosOS.Memory MitosOS.Paging MitosOS.Elf MitosOS.Tasks MitosOS.Drivers

structure SystemRun where
  kernel : KernelRun
  ring : InputRing
  uart : List (BitVec 8)
  /-- The kernel itself has panicked, or faulted on an address that a call was given. -/
  stopped : Bool

def SystemRun.boot (kernel : ℕ) (s : Machine) : SystemRun where
  kernel := .boot kernel s
  ring := .new
  uart := []
  stopped := false

/-- A process that will run again: once the kernel has stopped, none does. -/
def SystemRun.LiveProcess (t : SystemRun) (i : Slot) : Prop :=
  t.stopped = false ∧ t.kernel.LiveProcess i

inductive SystemEvent where
  | kernel (c : KernelCall)
  | send (destId : ℕ) (data : Vector (BitVec 8) 32)
  | receive
  | syscall (sysNum arg1 arg2 arg3 : ℕ)
  /-- `handle_irq`, once per byte that it reads. -/
  | uartByte (byte : BitVec 8)

/-- `kmain_common` starts its worker threads before a process is loaded. -/
def KernelCall.AfterWorkers (k : KernelRun) : KernelCall → Prop
  | .spawnFromElf _ => k.sched.initialized = true
  | _ => True

def SystemEvent.Enabled (K : Stacks) (t : SystemRun) : SystemEvent → Prop
  | .kernel c => c.Valid K.arch.format K.arch t.kernel ∧ c.AfterWorkers t.kernel
  | .send _ _ => t.kernel.exited = false
  | .receive => t.kernel.exited = false ∧ t.kernel.sched.initialized = true
  | .syscall _ _ _ _ => t.kernel.exited = false ∧ t.kernel.sched.initialized = true ∧
      t.kernel.caller.isRing3 = true
  | .uartByte _ => True

def SystemRun.finishCall (K : Stacks) (kernelRoot : ℕ) (t : SystemRun) :
    CallResult × CallState → SystemRun
  | (.returned _, s) =>
    { t with kernel := { t.kernel with machine := s.machine }, ring := s.ring, uart := s.uart }
  | (.exited, s) =>
    { t with
      kernel := KernelCall.exit.run K kernelRoot { t.kernel with machine := s.machine }
      ring := s.ring
      uart := s.uart }
  | (_, s) =>
    { kernel := { t.kernel with machine := s.machine }
      ring := s.ring
      uart := s.uart
      stopped := true }

/-- The UART interrupt puts a byte into the input ring. -/
def SystemRun.uartByte (t : SystemRun) (byte : BitVec 8) : SystemRun :=
  match t.ring.enqueueByte byte with
  | some ring => { t with ring := ring }
  | none => { t with stopped := true }

def SystemEvent.next (K : Stacks) (kernelRoot : ℕ) (t : SystemRun) : SystemEvent → SystemRun
  | .kernel c => { t with kernel := c.run K kernelRoot t.kernel }
  | .send destId data =>
    { t with kernel := { t.kernel with sched := (t.kernel.sched.sendMessage destId data).2 } }
  | .receive => { t with kernel := { t.kernel with sched := t.kernel.sched.receiveMessage.2 } }
  | .syscall sysNum arg1 arg2 arg3 =>
    t.finishCall K kernelRoot ((t.kernel.asCaller K.arch).syscallHandler sysNum arg1 arg2 arg3
      ⟨t.kernel.machine, t.ring, t.uart⟩)
  | .uartByte byte => t.uartByte byte

theorem SystemEvent.next_syscall (K : Stacks) (kernelRoot : ℕ) (t : SystemRun)
    (sysNum arg1 arg2 arg3 : ℕ) : (SystemEvent.syscall sysNum arg1 arg2 arg3).next K kernelRoot t =
      t.finishCall K kernelRoot ((t.kernel.asCaller K.arch).syscallHandler sysNum arg1 arg2 arg3
        ⟨t.kernel.machine, t.ring, t.uart⟩) := rfl

def processSystem (K : Stacks) (kernelRoot : ℕ) : EventSystem SystemRun SystemEvent where
  Enabled t e := t.stopped = false ∧ e.Enabled K t
  next t e := e.next K kernelRoot t

/-- A call with an address in its buffer that the MMU does not translate, although the check may let
it pass. -/
def SystemEvent.Unmapped (arch : Arch) (t : SystemRun) : SystemEvent → Prop
  | .syscall sysNum arg1 arg2 arg3 =>
    ∃ ptr len addr, callBuffer sysNum arg1 arg2 arg3 = some (ptr, len) ∧
      ptr ≤ addr ∧ addr < ptr + len ∧
      (t.kernel.asCaller arch).translate t.kernel.machine.mem addr = none
  | _ => False

def KernelCall.ByCaller : KernelCall → Prop
  | .munmap _ _ => True
  | .store _ => True
  | .exit => True
  | .spawnThread => False
  | .spawnFromElf _ => False
  | .schedule _ => False

def SystemEvent.ByCaller : SystemEvent → Prop
  | .kernel c => c.ByCaller
  | .syscall _ _ _ _ => True
  | .send _ _ => False
  | .receive => False
  | .uartByte _ => False

/-- What holds of the task table and of memory at any time. -/
structure KernelRun.SystemInv (kernel : ℕ) (k : KernelRun) : Prop where
  run : k.Inv kernel
  onRoot : k.sched.OnRoot k.exited
  zero : ¬ k.machine.pmm.IsFree 0

/-- What one step may do to the rest of the system: bytes change in free frames, or in frames of
the running process, and every other live process keeps its slot and its root. -/
structure KernelRun.Spares (k k' : KernelRun) (byCaller : Prop) : Prop where
  changes : ∀ x, k'.machine.mem x ≠ k.machine.mem x → k.machine.pmm.IsFree (x / 4096) ∨
    byCaller ∧ k.LiveProcess k.sched.current ∧ x / 4096 ∈ k.frames k.sched.current
  spaces : ∀ i, k.LiveProcess i → i ≠ k.sched.current ∨ ¬ byCaller →
    (k.sched.tasks i).SameSpace (k'.sched.tasks i)

structure SystemRun.Inv (kernel : ℕ) (t : SystemRun) : Prop where
  kernel : t.kernel.SystemInv kernel
  ring : t.ring.InBounds

section Frame
variable {F : Format} {s s' : Machine}

theorem munmapPage_isFree_zero (F : Format) (root addr : ℕ) (s : Machine) :
    (munmapPage F root addr s).pmm.IsFree 0 ↔ s.pmm.IsFree 0 := by
  have hunmap : (unmapPage F s root addr).2.pmm = s.pmm := by
    unfold unmapPage
    split_ifs
    · rfl
    · cases walkTables F s.mem root (tablePath addr) with
      | none => rfl
      | some pt =>
        dsimp only
        split_ifs <;> rfl
  unfold munmapPage munmapPageLogged
  cases translateAddr F s.mem root addr with
  | none => rfl
  | some phys =>
    dsimp only
    cases hrun : unmapPage F s root addr with
    | mk r s' =>
      rw [hrun] at hunmap
      cases r with
      | error e => rw [hunmap]
      | ok =>
        dsimp only at hunmap ⊢
        rw [vmmFreeFrame, BitmapAllocator.isFree_freeFrame, hunmap]
        constructor
        · rintro (hfree | ⟨hzero, hne, -⟩)
          · exact hfree
          · exact absurd hzero.symm hne
        · exact Or.inl

theorem munmapPages_isFree_zero (F : Format) (root n : ℕ) : ∀ (addr : ℕ) (s : Machine),
    (munmapPages F root n addr s).pmm.IsFree 0 ↔ s.pmm.IsFree 0 := by
  induction n with
  | zero => exact fun _ _ => Iff.rfl
  | succ n ih =>
    intro addr s
    rw [munmapPages_succ, ih, munmapPage_isFree_zero]

theorem sysMunmap_isFree_zero (F : Format) (caller : Task) (ptr len : ℕ) (s : Machine) :
    (sysMunmap F caller ptr len s).2.pmm.IsFree 0 ↔ s.pmm.IsFree 0 := by
  unfold sysMunmap sysMunmapLogged
  split_ifs
  · rfl
  · rfl
  · exact munmapPages_isFree_zero F _ _ ptr s

theorem freeProcessPageTable_isFree_zero (F : Format) (s : Machine) (root : ℕ) :
    (freeProcessPageTable F s root).pmm.IsFree 0 ↔ s.pmm.IsFree 0 := by
  rw [freeProcessPageTable_eq, isFree_foldl_vmmFreeFrame]
  simp

end Frame

section Kernel
variable {K : Stacks} {kernel : ℕ} {k : KernelRun}

/-- What `spawn_from_elf` writes was free before. -/
theorem spawn_changes {s s₁ s' : Machine} {R : ℕ} (hnew : Created s s₁ kernel R)
    (hroot : owned aarch64Format {0} s₁.mem R = {R}) (hconf : Confined aarch64Format {0} R s₁ s') :
    ∀ x, s'.mem x ≠ s.mem x → s.pmm.IsFree (x / 4096) := by
  intro x hx
  by_cases hpool : x / 4096 ∈ pool aarch64Format {0} R s₁
  · rcases hpool with hown | hfree
    · rw [hroot] at hown
      exact hown ▸ hnew.wasFree
    · exact ((hnew.pmm _).mp hfree).1
  · rw [hconf.outside x hpool] at hx
    by_contra hfree
    refine hx (hnew.mem x ?_)
    rintro rfl
    exact hfree hnew.wasFree

theorem KernelRun.SystemInv.install_spaces (h : k.SystemInv kernel) (mode : ExecutionMode)
    (root : ℕ) (owns : Bool) (top : ℕ) (i : Slot) (hi : k.LiveProcess i) :
    (k.sched.tasks i).SameSpace ((k.sched.install K mode root owns top).2.tasks i) := by
  rcases Scheduler.install_fills K k.sched mode root owns top h.run.unused with
    heq | ⟨j, t, hj, -, -, -, -, heq⟩
  · rw [heq]
    exact .refl _
  · rw [heq]
    have hne : i ≠ j := by
      rintro rfl
      exact hi.1 hj
    dsimp only
    rw [Function.update_of_ne hne]
    exact .refl _

theorem KernelRun.SystemInv.spawnThread (h : k.SystemInv kernel) (hexited : k.exited = false) :
    ({ k with sched := (k.sched.spawn K .sharedThread none 0).2 } : KernelRun).SystemInv kernel ∧
      k.Spares { k with sched := (k.sched.spawn K .sharedThread none 0).2 } False := by
  have hroot := h.onRoot
  rw [hexited] at hroot
  have hspawned : (k.sched.spawn K .sharedThread none 0).2.OnRoot false :=
    hroot.install .sharedThread h.onRoot.active_ne (fun _ => rfl) false 0
      (h.onRoot.numbered.spawn (.spawn .sharedThread none 0))
  refine ⟨⟨h.run.spawnThread hexited, ?_, h.zero⟩, ⟨fun x hx => absurd rfl hx, ?_⟩⟩
  · dsimp only
    rw [hexited]
    exact hspawned
  · intro i hi _
    exact h.install_spaces .sharedThread k.sched.activeRoot false 0 i hi

theorem KernelRun.SystemInv.spawnFromElf (h : k.SystemInv kernel) (harch : K.arch = .aarch64)
    (hne : kernel ≠ 0) {elf : Bytes} (hexited : k.exited = false) (helf : UserImage .aarch64 elf)
    (hinit : k.sched.initialized = true) :
    ((KernelCall.spawnFromElf elf).run K (kernel * 4096) k).SystemInv kernel ∧
      k.Spares ((KernelCall.spawnFromElf elf).run K (kernel * 4096) k) False := by
  have hinv := h.run.spawnFromElf harch hne hexited helf
  have hroot := h.onRoot
  rw [KernelCall.run_spawnFromElf] at hinv ⊢
  rcases spawnFromElf_cases harch (c := k.sched) hne h.run.memory.kernel helf with
    ⟨-, heq⟩ | ⟨R, s₁, s', c', heq, hnew, hneR, howned, hconf, hsched, -⟩
  · rw [heq]
    exact ⟨h, ⟨fun x hx => absurd rfl hx, fun i _ _ => .refl _⟩⟩
  · have hzero : R ≠ 0 := by
      rintro rfl
      exact h.zero hnew.wasFree
    obtain ⟨-, -, -, hpool⟩ := h.run.memory.spawn hnew hneR howned hconf
    have hfree : ¬ s'.pmm.IsFree 0 := fun hcon => h.zero (hpool (Or.inr hcon))
    have hchanges := spawn_changes hnew howned hconf
    rw [heq] at hinv ⊢
    rcases hsched with rfl | rfl
    · exact ⟨⟨hinv, hroot, hfree⟩, ⟨fun x hx => Or.inl (hchanges x hx), fun i _ _ => .refl _⟩⟩
    · refine ⟨⟨hinv, ?_, hfree⟩, ⟨fun x hx => Or.inl (hchanges x hx), fun i hi _ => ?_⟩⟩
      · rw [hexited] at hroot
        dsimp only
        rw [hexited]
        apply hroot.install .isolatedProcess (by omega) _ true userStackTop
          (h.onRoot.numbered.spawn (.spawnIsolatedAt (R * 4096) true userStackTop))
        intro hcon
        exact absurd (hinit.symm.trans hcon) (by decide)
      · exact h.install_spaces .isolatedProcess (R * 4096) true userStackTop i hi

theorem KernelRun.SystemInv.act (h : k.SystemInv kernel) (hexited : k.exited = false)
    (hring : k.caller.isRing3 = true) {s : Machine}
    (hinv : ({ k with machine := s } : KernelRun).Inv kernel)
    (hconf : Confined aarch64Format {0} (rootFrame k.caller) k.machine s)
    (hzero : ¬ s.pmm.IsFree 0) :
    ({ k with machine := s } : KernelRun).SystemInv kernel ∧
      k.Spares { k with machine := s } True := by
  refine ⟨⟨hinv, h.onRoot, hzero⟩, ⟨fun x hx => ?_, fun i _ _ => .refl _⟩⟩
  have hpool : x / 4096 ∈ pool aarch64Format {0} (rootFrame k.caller) k.machine := by
    by_contra hout
    exact hx (hconf.outside x hout)
  rcases hpool with hown | hfree
  · exact Or.inr ⟨trivial, ⟨h.run.caller_live hexited hring, hring⟩, hown⟩
  · exact Or.inl hfree

theorem KernelRun.SystemInv.store (h : k.SystemInv kernel) (hexited : k.exited = false)
    (hring : k.caller.isRing3 = true) {m : Memory}
    (hm : ∀ x, m x ≠ k.machine.mem x →
      x / 4096 ∈ dataFrames aarch64Format k.machine.mem (rootFrame k.caller)) :
    ({ k with machine := { k.machine with mem := m } } : KernelRun).SystemInv kernel ∧
      k.Spares { k with machine := { k.machine with mem := m } } True := by
  obtain ⟨howns, -⟩ := h.run.caller_owns hexited hring
  have hconf := ((h.run.memory.isPrivate _ _ howns).confined.writeData hm).1
  exact h.act hexited hring (h.run.store hexited hring hm) hconf h.zero

theorem KernelRun.SystemInv.munmap (h : k.SystemInv kernel) (hexited : k.exited = false)
    (ptr len : ℕ) :
    ({ k with machine := (sysMunmap aarch64Format k.caller ptr len k.machine).2 } :
        KernelRun).SystemInv kernel ∧
      k.Spares { k with machine := (sysMunmap aarch64Format k.caller ptr len k.machine).2 } True := by
  cases hring : k.caller.isRing3 with
  | false =>
    rw [sysMunmap_of_kernel hring]
    exact ⟨h, ⟨fun x hx => absurd rfl hx, fun i _ _ => .refl _⟩⟩
  | true =>
    have hinv := h.run.munmap hexited ptr len
    have hzero := mt (sysMunmap_isFree_zero aarch64Format k.caller ptr len k.machine).mp h.zero
    rcases h.run.munmap_cases hexited ptr len with heq | ⟨-, hconf⟩
    · rw [heq]
      exact ⟨h, ⟨fun x hx => absurd rfl hx, fun i _ _ => .refl _⟩⟩
    · exact h.act hexited hring hinv hconf hzero

theorem KernelRun.SystemInv.exit {s : Machine}
    (h : ({ k with machine := s } : KernelRun).SystemInv kernel ∧
      k.Spares { k with machine := s } True) :
    (({ k with sched := k.sched.exit, exited := true, machine := s } : KernelRun).SystemInv kernel) ∧
      k.Spares { k with sched := k.sched.exit, exited := true, machine := s } True := by
  obtain ⟨hinv, hspares⟩ := h
  refine ⟨⟨hinv.run.exit, hinv.onRoot.exit, hinv.zero⟩, ⟨hspares.changes, fun i hi hother => ?_⟩⟩
  have hne : i ≠ k.sched.current := hother.resolve_right (not_not_intro trivial)
  dsimp only
  rw [show k.sched.exit.tasks i = k.sched.tasks i from k.sched.setState_of_ne _ hne]
  exact .refl _

theorem KernelCall.schedule_mem (K : Stacks) (root sp : ℕ) (k : KernelRun) :
    ((KernelCall.schedule sp).run K root k).machine.mem = k.machine.mem := by
  unfold KernelCall.run
  dsimp only
  cases (k.sched.runSchedule sp).freed with
  | none => rfl
  | some r => exact freeProcessPageTable_mem _ _ _

theorem KernelRun.SystemInv.schedule (h : k.SystemInv kernel) (harch : K.arch = .aarch64)
    (root sp : ℕ) :
    ((KernelCall.schedule sp).run K root k).SystemInv kernel ∧
      k.Spares ((KernelCall.schedule sp).run K root k) False := by
  have hinv := h.run.schedule harch root sp
  have hroot := h.onRoot.runSchedule sp
  have hmem := KernelCall.schedule_mem K root sp k
  have hzero : ¬ ((KernelCall.schedule sp).run K root k).machine.pmm.IsFree 0 := by
    unfold KernelCall.run
    dsimp only
    cases (k.sched.runSchedule sp).freed with
    | none => exact h.zero
    | some r => exact mt (freeProcessPageTable_isFree_zero _ _ _).mp h.zero
  refine ⟨⟨hinv, hroot, hzero⟩, ⟨fun x hx => absurd (congrFun hmem x) hx, fun i hi _ => ?_⟩⟩
  exact runSchedule_sameSpace sp hi.1

theorem KernelRun.SystemInv.call (h : k.SystemInv kernel) (harch : K.arch = .aarch64)
    (hne : kernel ≠ 0) {c : KernelCall} (hvalid : c.Valid K.arch.format K.arch k)
    (hworkers : c.AfterWorkers k) :
    (c.run K (kernel * 4096) k).SystemInv kernel ∧
      k.Spares (c.run K (kernel * 4096) k) c.ByCaller := by
  rw [harch] at hvalid
  cases c with
  | spawnThread => exact h.spawnThread hvalid
  | spawnFromElf elf => exact h.spawnFromElf harch hne hvalid.1 hvalid.2 hworkers
  | munmap ptr len =>
    unfold KernelCall.run
    rw [harch]
    exact h.munmap hvalid ptr len
  | store m => exact h.store hvalid.1 hvalid.2.1 hvalid.2.2
  | exit => exact KernelRun.SystemInv.exit ⟨h, fun x hx => absurd rfl hx, fun i _ _ => .refl _⟩
  | schedule sp => exact h.schedule harch _ sp

theorem KernelRun.Inv.sameSpace (h : k.Inv kernel) {c : Scheduler} (hmail : k.sched.OnlyMail c) :
    ({ k with sched := c } : KernelRun).Inv kernel := by
  have hsame := hmail.sameSpace
  have hcaller : (c.tasks c.current).state = .terminated ↔ k.caller.state = .terminated := by
    rw [hmail.current]
    exact (hsame _).state
  constructor
  · intro i
    dsimp only
    rw [hmail.current]
    exact (h.sound i).congr (hsame i)
  · intro hexited hring
    change (c.tasks c.current).isRing3 = true at hring
    rw [hmail.current, (hsame _).isRing3] at hring
    exact mt hcaller.mp (h.caller_live hexited hring)
  · exact fun hexited => hcaller.mpr (h.exited_dead hexited)
  · intro hinit i
    rw [show c.initialized = k.sched.initialized from hmail.initialized] at hinit
    exact (hsame i).state.mpr (h.unused hinit i)
  · have hroots : (fun i => ownedRoot (c.tasks i)) = fun i => ownedRoot (k.sched.tasks i) :=
      funext fun i => ownedRoot_congr (hsame i)
    dsimp only
    rw [hroots]
    exact h.memory

theorem KernelRun.SystemInv.mail (h : k.SystemInv kernel) {c : Scheduler}
    (hmail : k.sched.OnlyMail c) (hnum : c.Numbered) :
    ({ k with sched := c } : KernelRun).SystemInv kernel ∧ k.Spares { k with sched := c } False := by
  refine ⟨⟨h.run.sameSpace hmail, ?_, h.zero⟩, ⟨fun x hx => absurd rfl hx, ?_⟩⟩
  · exact h.onRoot.sameSpace hmail.sameSpace hnum hmail.current hmail.initialized hmail.activeRoot
  · exact fun i _ _ => hmail.sameSpace i

/-- A system call of the running process, up to the point where it returns or exits. -/
theorem KernelRun.SystemInv.syscall (h : k.SystemInv kernel) (hexited : k.exited = false)
    (hinit : k.sched.initialized = true) (hring : k.caller.isRing3 = true) {ring : InputRing}
    (hin : ring.InBounds) (uart : List (BitVec 8)) (sysNum arg1 arg2 arg3 : ℕ) :
    let r := (k.asCaller .aarch64).syscallHandler sysNum arg1 arg2 arg3 ⟨k.machine, ring, uart⟩
    r.1 ≠ .panicked ∧ r.2.ring.InBounds ∧
      ({ k with machine := r.2.machine } : KernelRun).SystemInv kernel ∧
      k.Spares { k with machine := r.2.machine } True := by
  intro r
  have hown := h.run.onOwnRoot hexited hring (h.onRoot.root_eq hinit)
  obtain ⟨hresult, hbounds, heffect⟩ := Caller.OnOwnRoot.syscallHandler
    (s := ⟨k.machine, ring, uart⟩) hown hring hin sysNum arg1 arg2 arg3
  refine ⟨hresult, hbounds, ?_⟩
  rcases heffect with hmunmap | ⟨hpmm, hwrites⟩
  · have hmachine : r.2.machine = (sysMunmap aarch64Format k.caller arg1 arg2 k.machine).2 := hmunmap
    rw [hmachine]
    exact h.munmap hexited arg1 arg2
  · have hmachine : r.2.machine = { k.machine with mem := r.2.machine.mem } :=
      congrArg (fun pmm => ({ pmm := pmm, mem := r.2.machine.mem } : Machine)) hpmm
    rw [hmachine]
    exact h.store hexited hring hwrites

theorem KernelRun.SystemInv.syscall_fault (h : k.SystemInv kernel) (hexited : k.exited = false)
    (hinit : k.sched.initialized = true) (hring : k.caller.isRing3 = true) {ring : InputRing}
    (hin : ring.InBounds) {uart : List (BitVec 8)} {sysNum arg1 arg2 arg3 fault : ℕ}
    (hfault : ((k.asCaller .aarch64).syscallHandler sysNum arg1 arg2 arg3
      ⟨k.machine, ring, uart⟩).1 = .faulted fault) :
    ∃ ptr len addr, callBuffer sysNum arg1 arg2 arg3 = some (ptr, len) ∧
      ptr ≤ addr ∧ addr < ptr + len ∧
      (k.asCaller .aarch64).translate k.machine.mem addr = none := by
  have hown := h.run.onOwnRoot hexited hring (h.onRoot.root_eq hinit)
  obtain ⟨ptr, len, hbuffer, hlow, hhigh, hnone⟩ := Caller.OnOwnRoot.syscallHandler_fault
    (s := ⟨k.machine, ring, uart⟩) hown hring hin hfault
  exact ⟨ptr, len, fault, hbuffer, hlow, hhigh, hnone⟩

end Kernel

section System
variable {K : Stacks} {kernel : ℕ} {t : SystemRun}

theorem InputRing.InBounds.enqueueByte {r : InputRing} (h : r.InBounds) (byte : BitVec 8) :
    ∃ r', r.enqueueByte byte = some r' ∧ r'.InBounds := by
  rcases InputRing.enqueueByte_cases h.tail byte with ⟨-, r', heq, henq⟩ | ⟨-, heq⟩
  · refine ⟨r', heq, ?_, ?_⟩
    · rw [henq.head]
      exact h.head
    · rw [henq.tail]
      exact Nat.mod_lt _ (by decide)
  · exact ⟨r, heq, h⟩

theorem InputRing.new_inBounds : InputRing.new.InBounds := ⟨by decide, by decide⟩

theorem SystemRun.Inv.boot {s : Machine} (hne : kernel ≠ 0)
    (hroot : KernelRoot aarch64Format kernel s) (hzero : ¬ s.pmm.IsFree 0) :
    (SystemRun.boot kernel s).Inv kernel where
  kernel := ⟨.boot hroot, .boot (by omega), hzero⟩
  ring := InputRing.new_inBounds

theorem SystemRun.Inv.next (h : t.Inv kernel) (harch : K.arch = .aarch64) (hne : kernel ≠ 0)
    {e : SystemEvent} (he : e.Enabled K t) :
    (e.next K (kernel * 4096) t).Inv kernel ∧
      t.kernel.Spares (e.next K (kernel * 4096) t).kernel e.ByCaller := by
  cases e with
  | kernel c =>
    obtain ⟨hinv, hspares⟩ := h.kernel.call harch hne he.1 he.2
    exact ⟨⟨hinv, h.ring⟩, hspares⟩
  | send destId data =>
    obtain ⟨hinv, hspares⟩ := h.kernel.mail (sendMessage_onlyMail t.kernel.sched destId data)
      (h.kernel.onRoot.numbered.sendMessage destId data)
    exact ⟨⟨hinv, h.ring⟩, hspares⟩
  | receive =>
    have hlive := h.kernel.onRoot.live he.2 he.1
    obtain ⟨hinv, hspares⟩ := h.kernel.mail
      (receiveMessage_onlyMail h.kernel.onRoot.numbered hlive) h.kernel.onRoot.numbered.receiveMessage
    exact ⟨⟨hinv, h.ring⟩, hspares⟩
  | syscall sysNum arg1 arg2 arg3 =>
    obtain ⟨hexited, hinit, hring⟩ := he
    obtain ⟨-, hbounds, hinv, hspares⟩ :=
      h.kernel.syscall hexited hinit hring h.ring t.uart sysNum arg1 arg2 arg3
    rw [SystemEvent.next_syscall, harch]
    generalize (t.kernel.asCaller .aarch64).syscallHandler sysNum arg1 arg2 arg3
      ⟨t.kernel.machine, t.ring, t.uart⟩ = r at hbounds hinv hspares ⊢
    obtain ⟨result, s⟩ := r
    cases result with
    | returned value => exact ⟨⟨hinv, hbounds⟩, hspares⟩
    | exited =>
      obtain ⟨hinv', hspares'⟩ := KernelRun.SystemInv.exit ⟨hinv, hspares⟩
      exact ⟨⟨hinv', hbounds⟩, hspares'⟩
    | faulted addr => exact ⟨⟨hinv, hbounds⟩, hspares⟩
    | panicked => exact ⟨⟨hinv, hbounds⟩, hspares⟩
  | uartByte byte =>
    obtain ⟨r, heq, hbounds⟩ := h.ring.enqueueByte byte
    change (t.uartByte byte).Inv kernel ∧ t.kernel.Spares (t.uartByte byte).kernel False
    unfold SystemRun.uartByte
    rw [heq]
    exact ⟨⟨h.kernel, hbounds⟩, ⟨fun x hx => absurd rfl hx, fun i _ _ => .refl _⟩⟩

/-- Only a call with an unmapped buffer stops the kernel. -/
theorem SystemRun.Inv.next_stopped (h : t.Inv kernel) (harch : K.arch = .aarch64)
    (hrunning : t.stopped = false) {e : SystemEvent} (he : e.Enabled K t)
    (hstopped : (e.next K (kernel * 4096) t).stopped = true) : e.Unmapped .aarch64 t := by
  have hcontra : ¬ t.stopped = true := by simp [hrunning]
  cases e with
  | kernel c => exact absurd hstopped hcontra
  | send destId data => exact absurd hstopped hcontra
  | receive => exact absurd hstopped hcontra
  | uartByte byte =>
    obtain ⟨r, heq, -⟩ := h.ring.enqueueByte byte
    change (t.uartByte byte).stopped = true at hstopped
    unfold SystemRun.uartByte at hstopped
    rw [heq] at hstopped
    exact absurd hstopped hcontra
  | syscall sysNum arg1 arg2 arg3 =>
    obtain ⟨hexited, hinit, hring⟩ := he
    obtain ⟨hpanic, -⟩ := h.kernel.syscall hexited hinit hring h.ring t.uart sysNum arg1 arg2 arg3
    rw [SystemEvent.next_syscall, harch] at hstopped
    cases hrun : (t.kernel.asCaller .aarch64).syscallHandler sysNum arg1 arg2 arg3
      ⟨t.kernel.machine, t.ring, t.uart⟩ with
    | mk result s =>
      rw [hrun] at hstopped hpanic
      cases result with
      | returned value => exact absurd hstopped hcontra
      | exited => exact absurd hstopped hcontra
      | panicked => exact absurd rfl hpanic
      | faulted fault =>
        exact h.kernel.syscall_fault hexited hinit hring h.ring (congrArg Prod.fst hrun)

theorem SystemRun.Inv.of_run (harch : K.arch = .aarch64) (hne : kernel ≠ 0) {t' : SystemRun}
    (h : t.Inv kernel) (hrun : (processSystem K (kernel * 4096)).Run t t') : t'.Inv kernel := by
  apply EventSystem.RunWhen.invariant _ hrun h
  intro s e hs he _
  exact (hs.next harch hne he.2).1

/-- What is spared is still there: a process that keeps its root and its frames keeps its pages. -/
theorem KernelRun.Spares.keeps {k k' : KernelRun} (hinv : k.Inv kernel) {byCaller : Prop}
    (h : k.Spares k' byCaller) {i : Slot} (hi : k.LiveProcess i)
    (hother : i ≠ k.sched.current ∨ ¬ byCaller) :
    k'.LiveProcess i ∧ ∀ p, topIndex p ≠ 0 →
      pageContent aarch64Format k'.machine.mem (rootFrame (k'.sched.tasks i)) p =
        pageContent aarch64Format k.machine.mem (rootFrame (k.sched.tasks i)) p := by
  have hspace := h.spaces i hi hother
  have howns : ∀ {j}, k.LiveProcess j →
      ownedRoot (k.sched.tasks j) = some (rootFrame (k.sched.tasks j)) :=
    fun hj => ownedRoot_of_owns ((hinv.sound _).ring3_owns hj.1 hj.2)
  constructor
  · constructor
    · exact mt hspace.state.mp hi.1
    · exact hspace.isRing3.trans hi.2
  · intro p hp
    rw [rootFrame, hspace.memoryRoot, ← rootFrame]
    have hprivate : topIndex p ∉ ({0} : Set (Fin 512)) := hp
    apply pageContent_of_owned aarch64Format_lawful _ hprivate
    intro x hx
    by_contra hne
    rcases h.changes x hne with hfree | ⟨hby, hlive, hcur⟩
    · exact Set.disjoint_left.mp (hinv.memory.free_disjoint (howns hi)) hfree hx
    · have hij := hother.resolve_right (not_not_intro hby)
      exact Set.disjoint_left.mp (hinv.memory.disjoint i _ _ _ hij (howns hi) (howns hlive)) hx hcur

end System

section Traces

def worker : SystemRun :=
  (SystemEvent.kernel .spawnThread).next kernelStacks (1 * 4096) (.boot 1 kernelMachine)

theorem kernelMachine_zero : ¬ kernelMachine.pmm.IsFree 0 := by decide +kernel

def loadProcess (t : SystemRun) : SystemRun :=
  (SystemEvent.kernel (.spawnFromElf userElf)).next kernelStacks (1 * 4096) t

def tick (sp : ℕ) (t : SystemRun) : SystemRun :=
  (SystemEvent.kernel (.schedule sp)).next kernelStacks (1 * 4096) t

def twoRunning : SystemRun := tick 0x6000 (loadProcess (loadProcess worker))

theorem SystemEvent.next_kernel_stopped (K : Stacks) (kernelRoot : ℕ) (t : SystemRun)
    (c : KernelCall) : ((SystemEvent.kernel c).next K kernelRoot t).stopped = t.stopped := rfl

theorem SystemEvent.next_kernel (K : Stacks) (kernelRoot : ℕ) (t : SystemRun) (c : KernelCall) :
    ((SystemEvent.kernel c).next K kernelRoot t).kernel = c.run K kernelRoot t.kernel := rfl

def Reached (t : SystemRun) : Prop :=
  (processSystem kernelStacks (1 * 4096)).Run (.boot 1 kernelMachine) t ∧ t.stopped = false

theorem Reached.kernel {t : SystemRun} (h : Reached t) {c : KernelCall}
    (hvalid : c.Valid aarch64Format .aarch64 t.kernel) (hworkers : c.AfterWorkers t.kernel) :
    Reached ((SystemEvent.kernel c).next kernelStacks (1 * 4096) t) := by
  refine ⟨h.1.tail ⟨.kernel c, ⟨h.2, hvalid, hworkers⟩, trivial, rfl⟩, ?_⟩
  rw [SystemEvent.next_kernel_stopped]
  exact h.2

theorem Reached.tick {t : SystemRun} (h : Reached t) (sp : ℕ) : Reached (tick sp t) :=
  h.kernel (c := .schedule sp) trivial trivial

theorem Reached.loadProcess {t : SystemRun} (h : Reached t) (hexited : t.kernel.exited = false)
    (hinit : t.kernel.sched.initialized = true) : Reached (loadProcess t) :=
  h.kernel (c := .spawnFromElf userElf) ⟨hexited, userElf_userImage⟩ hinit

theorem loadProcess_exited (t : SystemRun) :
    (loadProcess t).kernel.exited = t.kernel.exited := by
  rw [loadProcess, SystemEvent.next_kernel, spawnFromElf_exited]

theorem bothLoaded_reached : Reached (loadProcess (loadProcess worker)) := by
  have hboot : Reached (.boot 1 kernelMachine) := ⟨Relation.ReflTransGen.refl, rfl⟩
  have hworker : Reached worker := hboot.kernel (c := .spawnThread) rfl trivial
  have hexited : worker.kernel.exited = false := rfl
  have hfirst := hworker.loadProcess hexited (by decide)
  exact hfirst.loadProcess ((loadProcess_exited worker).trans hexited) (by decide +kernel)

theorem munmap_stopped (K : Stacks) (kernelRoot : ℕ) (t : SystemRun) (ptr len : ℕ) :
    ((processSystem K kernelRoot).next t (.syscall 11 ptr len 0)).stopped = t.stopped := rfl

end Traces

end MitosOS.Kernel
