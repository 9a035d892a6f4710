import MitosOS.Lib.TrapMachine

/-! The x86_64 interrupt stubs of `interrupts.rs`: how an interrupt saves the registers of the
interrupted program, and how it gives them back. -/
namespace MitosOS.Kernel
open MitosOS.Lib

namespace X64

inductive Reg where
  | rax | rbx | rcx | rdx | rsi | rdi | rbp
  | r8 | r9 | r10 | r11 | r12 | r13 | r14 | r15
  | rsp
  | rip
  | cs
  | rflags
  | ss
  deriving DecidableEq

def interruptRegs : List Reg := [.rip, .cs, .rflags, .rsp, .ss]

/-- Where an interrupt starts to push: at `rsp0` of the TSS when it comes from ring 3, else on the
interrupted stack, and on a multiple of 16. -/
def interruptTop (kernelTop : ℕ) (c : Reg → BitVec 64) : ℕ :=
  (if c .cs &&& 3 = 3 then kernelTop else (c .rsp).toNat) / 16 * 16

/-- What the CPU does for an interrupt, up to the stub. -/
def takeInterrupt (kernelTop : ℕ) (s : Cpu Reg) : Cpu Reg :=
  let bottom := interruptTop kernelTop s.regs - 40
  { regs := Function.update s.regs .rsp (BitVec.ofNat 64 bottom)
    mem := writeWords s.mem s.regs bottom interruptRegs }

def iretq (s : Cpu Reg) : Cpu Reg :=
  let a := (s.regs .rsp).toNat
  ((((s.set .rip (s.mem.load64 a)).set .cs (s.mem.load64 (a + 8))).set .rflags
    (s.mem.load64 (a + 16))).set .rsp (s.mem.load64 (a + 24))).set .ss (s.mem.load64 (a + 32))

def enterStub (saved : List Reg) (kernelTop : ℕ) (s : Cpu Reg) : Cpu Reg :=
  runCode (saved.flatMap (push .rsp)) (takeInterrupt kernelTop s)

def leaveStub (saved : List Reg) (s : Cpu Reg) : Cpu Reg :=
  iretq (runCode (saved.reverse.flatMap (pop .rsp)) s)

theorem takeInterrupt_regs (kernelTop : ℕ) (s : Cpu Reg) {r : Reg} (hr : r ≠ .rsp) :
    (takeInterrupt kernelTop s).regs r = s.regs r := Function.update_of_ne hr _ _

theorem takeInterrupt_rsp (kernelTop : ℕ) (s : Cpu Reg)
    (hroom : interruptTop kernelTop s.regs < 2 ^ 64) :
    ((takeInterrupt kernelTop s).regs .rsp).toNat = interruptTop kernelTop s.regs - 40 := by
  have hset : (takeInterrupt kernelTop s).regs .rsp =
      BitVec.ofNat 64 (interruptTop kernelTop s.regs - 40) := Function.update_self Reg.rsp _ s.regs
  rw [hset, BitVec.toNat_ofNat, Nat.mod_eq_of_lt (by omega)]

section Stub
variable {saved : List Reg}

theorem run_enterStub (kernelTop : ℕ) (s : Cpu Reg) (hsaved : ∀ r ∈ saved, r ∉ interruptRegs)
    {a : ℕ} (ha : interruptTop kernelTop s.regs = a + 8 * saved.length + 40)
    (hroom : interruptTop kernelTop s.regs < 2 ^ 64) :
    ((enterStub saved kernelTop s).regs .rsp).toNat = a ∧
    (∀ r, r ≠ .rsp → (enterStub saved kernelTop s).regs r = s.regs r) ∧
    (∀ x, x < a ∨ a + 8 * saved.length + 40 ≤ x → (enterStub saved kernelTop s).mem x = s.mem x) ∧
    Framed (enterStub saved kernelTop s).mem s.regs a (saved.reverse ++ interruptRegs) := by
  have hrsp : Reg.rsp ∉ saved := fun hcon => hsaved .rsp hcon (by decide)
  have hsp := takeInterrupt_rsp kernelTop s hroom
  have hmem : (takeInterrupt kernelTop s).mem =
      writeWords s.mem s.regs (interruptTop kernelTop s.regs - 40) interruptRegs := rfl
  have hbottom : interruptTop kernelTop s.regs - 40 = a + 8 * saved.length := by omega
  rw [hbottom] at hsp hmem
  have hpushes := run_pushes .rsp saved (takeInterrupt kernelTop s) hrsp (by omega)
  rw [hsp, Nat.add_sub_cancel] at hpushes
  obtain ⟨hsp', hregs, hmem', hframe⟩ := hpushes
  have hlength : interruptRegs.length = 5 := rfl
  refine ⟨hsp', fun r hr => ?_, fun x hx => ?_, ?_⟩
  · exact (hregs r hr).trans (takeInterrupt_regs kernelTop s hr)
  · have hout := hmem' x (by omega)
    rw [hmem, writeWords_apply _ _ _ (by omega)] at hout
    exact hout
  · rw [framed_append, List.length_reverse]
    refine ⟨hframe.values fun r hr => ?_, ?_⟩
    · have hne : r ≠ .rsp := fun hcon => hrsp (hcon ▸ List.mem_reverse.mp hr)
      exact (takeInterrupt_regs kernelTop s hne).symm
    · have hwritten := framed_writeWords s.mem s.regs interruptRegs (a + 8 * saved.length)
      rw [← hmem] at hwritten
      exact hwritten.congr fun x hlow _ => hmem' x (by omega)

theorem iretq_regs (s : Cpu Reg) {c : Reg → BitVec 64}
    (h : Framed s.mem c (s.regs .rsp).toNat interruptRegs) :
    (∀ r ∈ interruptRegs, (iretq s).regs r = c r) ∧
    ∀ r, r ∉ interruptRegs → (iretq s).regs r = s.regs r := by
  obtain ⟨hrip, hcs, hrflags, hrsp, hss, -⟩ := h
  have heq : iretq s = ((((s.set .rip (c .rip)).set .cs (c .cs)).set .rflags (c .rflags)).set .rsp
      (c .rsp)).set .ss (c .ss) := by
    rw [iretq, hrip, hcs, hrflags, hrsp, hss]
  rw [heq]
  refine ⟨fun r hr => ?_, fun r hr => ?_⟩
  · simp only [interruptRegs, List.mem_cons, List.not_mem_nil, or_false] at hr
    rcases hr with rfl | rfl | rfl | rfl | rfl
    all_goals simp [Cpu.set_regs]
  · simp only [interruptRegs, List.mem_cons, List.not_mem_nil, or_false, not_or] at hr
    simp [Cpu.set_regs, hr]

theorem run_leaveStub (s : Cpu Reg) (hsaved : ∀ r ∈ saved, r ∉ interruptRegs) (hnodup : saved.Nodup)
    {c : Reg → BitVec 64} (hroom : (s.regs .rsp).toNat + 8 * saved.length < 2 ^ 64)
    (h : Framed s.mem c (s.regs .rsp).toNat (saved.reverse ++ interruptRegs)) :
    (leaveStub saved s).mem = s.mem ∧
    (∀ r ∈ saved.reverse ++ interruptRegs, (leaveStub saved s).regs r = c r) ∧
    ∀ r, r ∉ saved.reverse ++ interruptRegs → (leaveStub saved s).regs r = s.regs r := by
  have hrsp : Reg.rsp ∉ saved.reverse := by
    intro hcon
    exact hsaved .rsp (List.mem_reverse.mp hcon) (by decide)
  rw [framed_append, List.length_reverse] at h
  obtain ⟨hgeneral, hinterrupt⟩ := h
  obtain ⟨hsp, hmem, hloaded, hother⟩ := run_pops .rsp saved.reverse s hrsp
    (List.nodup_reverse.mpr hnodup) (by rw [List.length_reverse]; exact hroom) hgeneral
  rw [List.length_reverse] at hsp
  obtain ⟨hin, hout⟩ := iretq_regs (c := c) (runCode (saved.reverse.flatMap (pop .rsp)) s)
    (by rw [hmem, hsp]; exact hinterrupt)
  refine ⟨hmem, fun r hr => ?_, fun r hr => ?_⟩
  · rcases List.mem_append.mp hr with hr | hr
    · exact (hout r (hsaved r (List.mem_reverse.mp hr))).trans (hloaded r hr)
    · exact hin r hr
  · rw [List.mem_append, not_or] at hr
    have hne : r ≠ .rsp := fun hcon => hr.2 (hcon ▸ by decide)
    exact (hout r hr.2).trans (hother r hr.1 hne)

end Stub

/-- The registers of `timer_handler_stub`, in the order of its pushes. -/
def timerSaved : List Reg :=
  [.rax, .rbx, .rcx, .rdx, .rsi, .rdi, .rbp, .r8, .r9, .r10, .r11, .r12, .r13, .r14, .r15]

def contextRegs : List Reg :=
  [.r15, .r14, .r13, .r12, .r11, .r10, .r9, .r8, .rbp, .rdi, .rsi, .rdx, .rcx, .rbx, .rax, .rip, .cs,
    .rflags, .rsp, .ss]

theorem contextRegs_eq : contextRegs = timerSaved.reverse ++ interruptRegs := rfl

theorem mem_contextRegs (r : Reg) : r ∈ contextRegs := by
  cases r <;> decide

theorem contextRegs_nodup : contextRegs.Nodup := by decide

theorem timerSaved_notMem : ∀ r ∈ timerSaved, r ∉ interruptRegs := by decide

theorem timerSaved_nodup : timerSaved.Nodup := by decide

def Room (kernelTop : ℕ) (c : Reg → BitVec 64) : Prop :=
  160 ≤ interruptTop kernelTop c ∧ interruptTop kernelTop c < 2 ^ 64

def Holds (m : Memory) (a : ℕ) (c : Reg → BitVec 64) : Prop :=
  Framed m c a contextRegs ∧ a + 160 < 2 ^ 64

theorem run_timerEnter {kernelTop : ℕ} {s : Cpu Reg} (hroom : Room kernelTop s.regs) :
    ((enterStub timerSaved kernelTop s).regs .rsp).toNat = interruptTop kernelTop s.regs - 160 ∧
    (∀ x, x < interruptTop kernelTop s.regs - 160 ∨ interruptTop kernelTop s.regs - 160 + 160 ≤ x →
      (enterStub timerSaved kernelTop s).mem x = s.mem x) ∧
    Holds (enterStub timerSaved kernelTop s).mem (interruptTop kernelTop s.regs - 160) s.regs := by
  obtain ⟨hlow, hhigh⟩ := hroom
  have hlength : 8 * timerSaved.length = 120 := rfl
  obtain ⟨hsp, -, hmem, hframe⟩ := run_enterStub (a := interruptTop kernelTop s.regs - 160)
    kernelTop s timerSaved_notMem (by omega) hhigh
  refine ⟨hsp, fun x hx => hmem x (by omega), ?_, by omega⟩
  rw [contextRegs_eq]
  exact hframe

theorem run_timerLeave (s : Cpu Reg) {c : Reg → BitVec 64}
    (h : Holds s.mem (s.regs .rsp).toNat c) (r : Reg) : (leaveStub timerSaved s).regs r = c r := by
  obtain ⟨hframe, hhigh⟩ := h
  have hlength : 8 * timerSaved.length = 120 := rfl
  rw [contextRegs_eq] at hframe
  obtain ⟨-, hregs, -⟩ := run_leaveStub s timerSaved_notMem timerSaved_nodup (by omega) hframe
  exact hregs r (mem_contextRegs r)

theorem runCode_pops_mem (rs : List Reg) : ∀ s : Cpu Reg,
    (runCode (rs.flatMap (pop .rsp)) s).mem = s.mem := by
  induction rs with
  | nil => exact fun _ => rfl
  | cons r rs ih =>
    intro s
    rw [List.flatMap_cons, runCode_append, ih]
    rfl

/-- `timer_handler_stub`. The end of interrupt between the handler and the pops changes `al` alone,
which is popped. -/
def trapMachine : TrapMachine Reg where
  sp := .rsp
  size := 160
  Saved _ := True
  enter := enterStub timerSaved
  leave := leaveStub timerSaved
  frame kernelTop c := interruptTop kernelTop c - 160
  Room := Room
  decode m a := frameWord m a contextRegs
  enter_sp hroom := (run_timerEnter hroom).1
  enter_mem hroom hx := (run_timerEnter hroom).2.1 _ hx
  enter_decode hroom _ := (run_timerEnter hroom).2.2.1.word (mem_contextRegs _)
  decode_congr _ hsame := frameWord_congr (mem_contextRegs _) hsame
  leave_saved hroom _ := run_timerLeave _ ⟨framed_frameWord _ _ contextRegs_nodup, hroom⟩ _
  leave_mem s := runCode_pops_mem _ s
  frame_congr {kernelTop c c'} hsame := by
    have htop : interruptTop kernelTop c' = interruptTop kernelTop c := by
      rw [interruptTop, hsame .cs trivial, hsame .rsp trivial, interruptTop]
    rw [Room, Room, htop]
    exact ⟨rfl, id⟩

/-! The stubs around handlers that return: they save the registers that a call may change. -/

def callerSaved : List Reg := [.rax, .rcx, .rdx, .rsi, .rdi, .r8, .r9, .r10, .r11]

def syscallArgs : List (Instr Reg) :=
  [.move .rdi .rax, .move .rsi .rbx, .move .rdx .rcx, .move .rcx .r8]

def syscallCall (kernelTop : ℕ) (s : Cpu Reg) : Cpu Reg :=
  runCode syscallArgs (enterStub callerSaved kernelTop s)

def syscallHandlerStub (handler : Cpu Reg → Cpu Reg) (kernelTop : ℕ) (s : Cpu Reg) : Cpu Reg :=
  leaveStub callerSaved ((Instr.store .rax .rsp 64).exec (handler (syscallCall kernelTop s)))

theorem callerSaved_notMem : ∀ r ∈ callerSaved, r ∉ interruptRegs := by decide

theorem callerSaved_nodup : callerSaved.Nodup := by decide

def calleeSaved : List Reg := [.rbx, .rbp, .r12, .r13, .r14, .r15]

theorem mem_saved_or_kept (r : Reg) : r ∈ callerSaved.reverse ++ interruptRegs ∨ r ∈ calleeSaved := by
  cases r <;> decide

theorem runCode_syscallArgs (s : Cpu Reg) : runCode syscallArgs s =
    (((s.set .rdi (s.regs .rax)).set .rsi (s.regs .rbx)).set .rdx (s.regs .rcx)).set .rcx
      (s.regs .r8) := by
  rw [syscallArgs, runCode_cons, Instr.exec_move, runCode_cons, Instr.exec_move, runCode_cons,
    Instr.exec_move, runCode_cons, Instr.exec_move, runCode_nil]
  simp [Cpu.set_regs]

/-- A stub that has its frame at `a`, just after a handler came back. -/
structure Handled (c : Reg → BitVec 64) (a : ℕ) (s : Cpu Reg) : Prop where
  rsp : (s.regs .rsp).toNat = a
  kept : ∀ r ∈ calleeSaved, s.regs r = c r
  frame : Framed s.mem c a (callerSaved.reverse ++ interruptRegs)

theorem handled_enterStub (kernelTop : ℕ) (s : Cpu Reg) {a : ℕ}
    (ha : interruptTop kernelTop s.regs = a + 112)
    (hroom : interruptTop kernelTop s.regs < 2 ^ 64) :
    Handled s.regs a (enterStub callerSaved kernelTop s) := by
  obtain ⟨hsp, hregs, -, hframe⟩ := run_enterStub kernelTop s callerSaved_notMem ha hroom
  refine ⟨hsp, fun r hr => hregs r fun hcon => ?_, hframe⟩
  exact absurd (hcon ▸ hr) (by decide)

theorem Handled.returns {c : Reg → BitVec 64} {a : ℕ} {s s' : Cpu Reg} (h : Handled c a s)
    (hreturns : Returns calleeSaved .rsp 112 s s') : Handled c a s' := by
  refine ⟨?_, fun r hr => ?_, ?_⟩
  · rw [hreturns.stack, h.rsp]
  · rw [hreturns.regs r hr, h.kept r hr]
  · have hsize : 8 * (callerSaved.reverse ++ interruptRegs).length = 112 := rfl
    refine h.frame.congr fun x hlow hhigh => hreturns.frame x ?_ ?_
    all_goals rw [h.rsp]
    all_goals omega

theorem Handled.leaveStub {c : Reg → BitVec 64} {a : ℕ} {s : Cpu Reg} (h : Handled c a s)
    (hroom : a + 112 < 2 ^ 64) :
    (leaveStub callerSaved s).regs = c ∧ (X64.leaveStub callerSaved s).mem = s.mem := by
  have hlength : 8 * callerSaved.length = 72 := rfl
  obtain ⟨hsp, hkept, hframe⟩ := h
  obtain ⟨hmem, hin, hout⟩ := run_leaveStub (c := c) s callerSaved_notMem callerSaved_nodup
    (by omega) (by rw [hsp]; exact hframe)
  refine ⟨?_, hmem⟩
  funext r
  by_cases hr : r ∈ callerSaved.reverse ++ interruptRegs
  · exact hin r hr
  · rw [hout r hr, hkept r ((mem_saved_or_kept r).resolve_left hr)]

/-- Storing to the slot of `rax` replaces the value that is popped. -/
theorem Handled.store_rax {c : Reg → BitVec 64} {a : ℕ} {s : Cpu Reg} (h : Handled c a s)
    (hroom : a + 112 < 2 ^ 64) :
    Handled (Function.update c .rax (s.regs .rax)) a ((Instr.store .rax .rsp 64).exec s) := by
  obtain ⟨hsp, hkept, hframe⟩ := h
  have hsplit : callerSaved.reverse ++ interruptRegs =
      [.r11, .r10, .r9, .r8, .rdi, .rsi, .rdx, .rcx] ++ Reg.rax :: interruptRegs := rfl
  rw [Instr.exec_store _ _ _ _ (by omega), hsp]
  refine ⟨hsp, fun r hr => ?_, ?_⟩
  · have hne : r ≠ .rax := fun hcon => absurd (hcon ▸ hr) (by decide)
    rw [Function.update_of_ne hne]
    exact hkept r hr
  · rw [hsplit] at hframe ⊢
    exact hframe.store64 _ (by decide) (by decide)

theorem Handled.syscallArgs {c : Reg → BitVec 64} {a : ℕ} {s : Cpu Reg} (h : Handled c a s) :
    Handled c a (runCode syscallArgs s) := by
  rw [runCode_syscallArgs]
  refine ⟨?_, fun r hr => ?_, h.frame⟩
  · rw [← h.rsp]
    simp [Cpu.set_regs]
  · rw [← h.kept r hr]
    simp only [calleeSaved, List.mem_cons, List.not_mem_nil, or_false] at hr
    rcases hr with rfl | rfl | rfl | rfl | rfl | rfl
    all_goals simp [Cpu.set_regs]

theorem runCode_syscallArgs_regs (s : Cpu Reg) :
    (runCode syscallArgs s).regs .rdi = s.regs .rax ∧
    (runCode syscallArgs s).regs .rsi = s.regs .rbx ∧
    (runCode syscallArgs s).regs .rdx = s.regs .rcx ∧
    (runCode syscallArgs s).regs .rcx = s.regs .r8 := by
  rw [runCode_syscallArgs]
  simp [Cpu.set_regs]

theorem syscallCall_regs (kernelTop : ℕ) (s : Cpu Reg) {a : ℕ}
    (ha : interruptTop kernelTop s.regs = a + 112)
    (hroom : interruptTop kernelTop s.regs < 2 ^ 64) :
    (syscallCall kernelTop s).regs .rdi = s.regs .rax ∧
    (syscallCall kernelTop s).regs .rsi = s.regs .rbx ∧
    (syscallCall kernelTop s).regs .rdx = s.regs .rcx ∧
    (syscallCall kernelTop s).regs .rcx = s.regs .r8 := by
  obtain ⟨-, hregs, -, -⟩ := run_enterStub kernelTop s callerSaved_notMem ha hroom
  rw [← hregs .rax (by decide), ← hregs .rbx (by decide), ← hregs .rcx (by decide),
    ← hregs .r8 (by decide)]
  exact runCode_syscallArgs_regs (enterStub callerSaved kernelTop s)

/-- `int 0x80`: the handler gets the number from `rax` and the arguments from `rbx`, `rcx` and `r8`,
and the program goes on with the result in `rax` and every other register as it was. -/
theorem syscallHandlerStub_transparent (handler : Cpu Reg → Cpu Reg) (kernelTop : ℕ) (s : Cpu Reg)
    {a : ℕ} (ha : interruptTop kernelTop s.regs = a + 112)
    (hroom : interruptTop kernelTop s.regs < 2 ^ 64)
    (hreturns : Returns calleeSaved .rsp 112 (syscallCall kernelTop s)
      (handler (syscallCall kernelTop s))) :
    ((syscallCall kernelTop s).regs .rdi = s.regs .rax ∧
      (syscallCall kernelTop s).regs .rsi = s.regs .rbx ∧
      (syscallCall kernelTop s).regs .rdx = s.regs .rcx ∧
      (syscallCall kernelTop s).regs .rcx = s.regs .r8) ∧
    (syscallHandlerStub handler kernelTop s).regs =
      Function.update s.regs .rax ((handler (syscallCall kernelTop s)).regs .rax) ∧
    ∀ x, x < a ∨ a + 112 ≤ x →
      (syscallHandlerStub handler kernelTop s).mem x = (handler (syscallCall kernelTop s)).mem x := by
  have hargs := syscallCall_regs kernelTop s ha hroom
  have hhandled := (handled_enterStub kernelTop s ha hroom).syscallArgs.returns hreturns
  obtain ⟨hregs, hmem⟩ := (hhandled.store_rax (by omega)).leaveStub (by omega)
  refine ⟨hargs, hregs, fun x hx => ?_⟩
  rw [syscallHandlerStub, hmem, Instr.exec_store _ _ _ _ (by rw [hhandled.rsp]; omega), hhandled.rsp]
  exact Memory.store64_apply_of_disjoint _ _ (by omega)

/-- A caller in ring 0, as `cmd_uname` of the shell is: the frame goes below its own stack pointer. -/
theorem syscallHandlerStub_transparent_ring0 : ∃ s : Cpu Reg, s.regs .cs &&& 3 = 0 ∧
    (syscallHandlerStub (fun s => s.set .rax 7) 0 s).regs = Function.update s.regs .rax 7 := by
  generalize hs : (⟨fun r => if r = .rsp then 0x9008 else 8, fun _ => 0⟩ : Cpu Reg) = s
  have hcs : s.regs .cs &&& 3 = 0 := by
    rw [← hs]
    rfl
  have htop : interruptTop 0 s.regs = 0x9000 := by
    rw [← hs]
    rfl
  have hreturns : Returns calleeSaved .rsp 112 (syscallCall 0 s) ((syscallCall 0 s).set .rax 7) :=
    Returns.set 112 _ 7 (by decide) (by decide)
  obtain ⟨-, hregs, -⟩ := syscallHandlerStub_transparent (a := 0x8F90) (fun s => s.set .rax 7) 0 s
    htop (by omega) hreturns
  rw [Cpu.set_regs_same] at hregs
  exact ⟨s, hcs, hregs⟩

end X64

end MitosOS.Kernel
