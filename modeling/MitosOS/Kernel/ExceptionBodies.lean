import MitosOS.Lib.TrapMachine

/-! The handler bodies of the aarch64 vector table in `interrupts.rs`: how an exception saves the
registers of the interrupted program, and how it gives them back. -/
namespace MitosOS.Kernel
open MitosOS.Lib

namespace A64

/-- `x 0` to `x 30`, the halves of `v 0` to `v 31`, which EL0 may use as well, the stack pointers, and
the registers of an exception to EL1. -/
inductive Reg where
  | x (i : ℕ)
  | v (i : ℕ) (high : Bool)
  | fpcr
  | fpsr
  | sp
  | spEl0
  | pc
  | pstate
  | elr
  | spsr
  | esr
  | far
  deriving DecidableEq

def stp (r q : Reg) (offset : ℕ) : List (Instr Reg) :=
  [.store r .sp offset, .store q .sp (offset + 8)]

def ldp (r q : Reg) (offset : ℕ) : List (Instr Reg) :=
  [.load r .sp offset, .load q .sp (offset + 8)]

/-- What the CPU does when it takes an exception to EL1. -/
def takeException : List (Instr Reg) := [.move .elr .pc, .move .spsr .pstate]

def saveContext : List (Instr Reg) :=
  [.add .sp (-272)] ++
  (stp (.x 0) (.x 1) 0 ++ stp (.x 2) (.x 3) 16 ++ stp (.x 4) (.x 5) 32 ++ stp (.x 6) (.x 7) 48 ++
    stp (.x 8) (.x 9) 64 ++ stp (.x 10) (.x 11) 80 ++ stp (.x 12) (.x 13) 96 ++
    stp (.x 14) (.x 15) 112 ++ stp (.x 16) (.x 17) 128 ++ stp (.x 18) (.x 19) 144 ++
    stp (.x 20) (.x 21) 160 ++ stp (.x 22) (.x 23) 176 ++ stp (.x 24) (.x 25) 192 ++
    stp (.x 26) (.x 27) 208 ++ stp (.x 28) (.x 29) 224 ++ [.store (.x 30) .sp 240]) ++
  ([.move (.x 0) .spsr, .move (.x 1) .elr] ++ stp (.x 0) (.x 1) 248 ++
    [.move (.x 0) .spEl0, .store (.x 0) .sp 264])

def restoreContext : List (Instr Reg) :=
  (ldp (.x 0) (.x 1) 248 ++ [.move .spsr (.x 0), .move .elr (.x 1), .load (.x 0) .sp 264,
    .move .spEl0 (.x 0)]) ++
  (ldp (.x 0) (.x 1) 0 ++ ldp (.x 2) (.x 3) 16 ++ ldp (.x 4) (.x 5) 32 ++ ldp (.x 6) (.x 7) 48 ++
    ldp (.x 8) (.x 9) 64 ++ ldp (.x 10) (.x 11) 80 ++ ldp (.x 12) (.x 13) 96 ++
    ldp (.x 14) (.x 15) 112 ++ ldp (.x 16) (.x 17) 128 ++ ldp (.x 18) (.x 19) 144 ++
    ldp (.x 20) (.x 21) 160 ++ ldp (.x 22) (.x 23) 176 ++ ldp (.x 24) (.x 25) 192 ++
    ldp (.x 26) (.x 27) 208 ++ ldp (.x 28) (.x 29) 224 ++ [.load (.x 30) .sp 240]) ++
  [.add .sp 272]

def eret : List (Instr Reg) := [.move .pc .elr, .move .pstate .spsr]

def general : List Reg := (List.range 31).map Reg.x

def contextRegs : List Reg := general ++ [.spsr, .elr, .spEl0]

/-- What the handler bodies save and give back. -/
def Saved : Reg → Prop
  | .x i => i < 31
  | .sp | .spEl0 | .pc | .pstate => True
  | _ => False

/-- The SIMD and floating-point registers, which they leave alone. -/
def IsVector : Reg → Prop
  | .v _ _ | .fpcr | .fpsr => True
  | _ => False

/-- What an exception leaves in the registers of the interrupted program. -/
def excepted (c : Reg → BitVec 64) : Reg → BitVec 64
  | .elr => c .pc
  | .spsr => c .pstate
  | r => c r

/-- The three registers that are saved through `x0` and `x1`. -/
def saveSpecial : List (Instr Reg) :=
  [.move (.x 0) .spsr, .move (.x 1) .elr, .store (.x 0) .sp 248, .store (.x 1) .sp 256,
    .move (.x 0) .spEl0, .store (.x 0) .sp 264]

def restoreSpecial : List (Instr Reg) :=
  [.load (.x 0) .sp 248, .load (.x 1) .sp 256, .move .spsr (.x 0), .move .elr (.x 1),
    .load (.x 0) .sp 264, .move .spEl0 (.x 0)]

theorem saveContext_eq :
    saveContext = [.add .sp (-272)] ++ saveWords .sp 0 general ++ saveSpecial := rfl

theorem restoreContext_eq :
    restoreContext = restoreSpecial ++ loadWords .sp 0 general ++ [.add .sp 272] := rfl

theorem mem_general {r : Reg} : r ∈ general ↔ ∃ i < 31, r = .x i := by
  simp only [general, List.mem_map, List.mem_range]
  constructor
  · rintro ⟨i, hi, rfl⟩
    exact ⟨i, hi, rfl⟩
  · rintro ⟨i, hi, rfl⟩
    exact ⟨i, hi, rfl⟩

theorem general_nodup : general.Nodup := by
  apply List.Nodup.map _ List.nodup_range
  intro i j hij
  exact Reg.x.inj hij

theorem general_length : general.length = 31 := rfl

theorem sp_notMem_general : Reg.sp ∉ general := by
  intro hcon
  obtain ⟨i, -, hi⟩ := mem_general.mp hcon
  exact Reg.noConfusion hi

theorem run_saveSpecial (s : Cpu Reg) {a : ℕ} (ha : (s.regs .sp).toNat = a)
    (hroom : a + 272 ≤ 2 ^ 64) :
    (∀ r, r ≠ .x 0 → r ≠ .x 1 → (runCode saveSpecial s).regs r = s.regs r) ∧
      (runCode saveSpecial s).mem = ((s.mem.store64 (a + 248) (s.regs .spsr)).store64 (a + 256)
        (s.regs .elr)).store64 (a + 264) (s.regs .spEl0) := by
  -- The two moves first: the stores then read registers with names.
  generalize hs₁ : (s.set (.x 0) (s.regs .spsr)).set (.x 1) (s.regs .elr) = s₁
  have hother : ∀ r, r ≠ .x 0 → r ≠ .x 1 → s₁.regs r = s.regs r := by
    intro r h0 h1
    rw [← hs₁, Cpu.set_regs_of_ne _ _ h1, Cpu.set_regs_of_ne _ _ h0]
  have hsp₁ := hother .sp (by decide) (by decide)
  have hspEl0 := hother .spEl0 (by decide) (by decide)
  have hx0 : s₁.regs (.x 0) = s.regs .spsr := by
    rw [← hs₁, Cpu.set_regs_of_ne _ _ (by decide), Cpu.set_regs_same]
  have hx1 : s₁.regs (.x 1) = s.regs .elr := by rw [← hs₁, Cpu.set_regs_same]
  have hmem₁ : s₁.mem = s.mem := by rw [← hs₁, Cpu.set_mem, Cpu.set_mem]
  have hmoves : runCode saveSpecial s = runCode [.store (.x 0) .sp 248, .store (.x 1) .sp 256,
      .move (.x 0) .spEl0, .store (.x 0) .sp 264] s₁ := by
    rw [saveSpecial, runCode_cons, Instr.exec_move, runCode_cons, Instr.exec_move,
      Cpu.set_regs_of_ne _ _ (by decide), hs₁]
  have ha₁ : (s₁.regs .sp).toNat = a := by rw [hsp₁, ha]
  rw [hmoves, runCode_cons, Instr.exec_store _ _ _ _ (by omega), runCode_cons,
    Instr.exec_store _ _ _ _ (by change (s₁.regs .sp).toNat + 256 < 2 ^ 64; omega), runCode_cons,
    Instr.exec_move, runCode_cons, Instr.exec_store, runCode_nil, ha₁, hx0, hx1, hmem₁, hspEl0]
  · rw [Cpu.set_regs_of_ne _ _ (by decide), Cpu.set_regs_same, Cpu.set_mem, ha₁]
    refine ⟨fun r h0 h1 => ?_, rfl⟩
    rw [Cpu.set_regs_of_ne _ _ h0]
    exact hother r h0 h1
  · rw [Cpu.set_regs_of_ne _ _ (by decide)]
    change (s₁.regs .sp).toNat + 264 < 2 ^ 64
    omega

theorem run_saveContext (s : Cpu Reg) (hroom : 272 ≤ (s.regs .sp).toNat) :
    ((runCode saveContext s).regs .sp).toNat = (s.regs .sp).toNat - 272 ∧
    (∀ r, r ≠ .sp → r ≠ .x 0 → r ≠ .x 1 → (runCode saveContext s).regs r = s.regs r) ∧
    (∀ x, x < (s.regs .sp).toNat - 272 ∨ (s.regs .sp).toNat ≤ x →
      (runCode saveContext s).mem x = s.mem x) ∧
    Framed (runCode saveContext s).mem s.regs ((s.regs .sp).toNat - 272) contextRegs := by
  have hlt := (s.regs .sp).isLt
  have hsp : (s.regs .sp + -272).toNat = (s.regs .sp).toNat - 272 := by
    have hsub : s.regs .sp + -272 = s.regs .sp - 272 := by rw [BitVec.sub_eq_add_neg]
    rw [hsub]
    exact toNat_sub_ofNat (n := 272) hroom
  generalize ha : (s.regs .sp).toNat - 272 = a at hsp
  obtain ⟨hregs, hmem, hframe⟩ := run_saveWords .sp general 0 (s.set .sp (s.regs .sp + -272))
    (by rw [Cpu.set_regs_same, hsp, general_length]; omega)
  rw [Cpu.set_regs_same, hsp, Nat.add_zero, general_length] at hmem
  rw [Cpu.set_regs_same, hsp, Nat.add_zero] at hframe
  have hrun : runCode saveContext s = runCode saveSpecial
      (runCode (saveWords .sp 0 general) (s.set .sp (s.regs .sp + -272))) := by
    rw [saveContext_eq, runCode_append, runCode_append]
    rfl
  generalize runCode (saveWords .sp 0 general) (s.set .sp (s.regs .sp + -272)) = s₁
    at hregs hmem hframe hrun
  have hsp₁ : (s₁.regs .sp).toNat = a := by rw [hregs, Cpu.set_regs_same, hsp]
  have hother : ∀ r, r ≠ .sp → s₁.regs r = s.regs r := by
    intro r hr
    rw [hregs, Cpu.set_regs_of_ne _ _ hr]
  obtain ⟨hspecial, hwords⟩ := run_saveSpecial s₁ hsp₁ (by omega)
  rw [hother .spsr (by decide), hother .elr (by decide), hother .spEl0 (by decide)] at hwords
  rw [hrun, hspecial .sp (by decide) (by decide), hwords]
  refine ⟨hsp₁, fun r hsp h0 h1 => ?_, fun x hx => ?_, ?_⟩
  · rw [hspecial r h0 h1, hother r hsp]
  · rw [Memory.store64_apply_of_disjoint _ _ (by omega),
      Memory.store64_apply_of_disjoint _ _ (by omega),
      Memory.store64_apply_of_disjoint _ _ (by omega), hmem x (by omega), Cpu.set_mem]
  · rw [contextRegs, framed_append, general_length]
    refine ⟨?_, ?_, ?_, ?_, trivial⟩
    · apply Framed.congr _ (hframe.values fun r hr => ?_)
      · intro x _ hhigh
        rw [general_length] at hhigh
        rw [Memory.store64_apply_of_disjoint _ _ (by omega),
          Memory.store64_apply_of_disjoint _ _ (by omega),
          Memory.store64_apply_of_disjoint _ _ (by omega)]
      · have hne : r ≠ .sp := fun hcon => sp_notMem_general (hcon ▸ hr)
        rw [Cpu.set_regs_of_ne _ _ hne]
    · rw [Memory.load64_store64_of_disjoint _ _ (by omega),
        Memory.load64_store64_of_disjoint _ _ (by omega), Memory.load64_store64_same]
    · rw [Memory.load64_store64_of_disjoint _ _ (by omega), Memory.load64_store64_same]
    · rw [Memory.load64_store64_same]

theorem runCode_restoreSpecial (s : Cpu Reg) {a : ℕ} (ha : (s.regs .sp).toNat = a)
    (hroom : a + 272 ≤ 2 ^ 64) : runCode restoreSpecial s =
      (((((s.set (.x 0) (s.mem.load64 (a + 248))).set (.x 1) (s.mem.load64 (a + 256))).set .spsr
        (s.mem.load64 (a + 248))).set .elr (s.mem.load64 (a + 256))).set (.x 0)
        (s.mem.load64 (a + 264))).set .spEl0 (s.mem.load64 (a + 264)) := by
  rw [restoreSpecial, runCode_cons, Instr.exec_load _ _ _ _ (by omega), ha]
  generalize s.mem.load64 (a + 248) = v
  rw [runCode_cons, Instr.exec_load _ _ _ _ (by rw [Cpu.set_regs_of_ne _ _ (by decide)]; omega),
    Cpu.set_regs_of_ne _ _ (by decide), ha, Cpu.set_mem]
  generalize s.mem.load64 (a + 256) = w
  rw [runCode_cons, Instr.exec_move, Cpu.set_regs_of_ne _ _ (by decide), Cpu.set_regs_same]
  rw [runCode_cons, Instr.exec_move, Cpu.set_regs_of_ne _ _ (by decide), Cpu.set_regs_same]
  have hsp : ((((s.set (.x 0) v).set (.x 1) w).set .spsr v).set .elr w).regs .sp = s.regs .sp := by
    simp [Cpu.set_regs]
  rw [runCode_cons, Instr.exec_load _ _ _ _ (by rw [hsp]; omega), hsp, ha]
  simp only [Cpu.set_mem]
  rw [runCode_cons, Instr.exec_move, Cpu.set_regs_same, runCode_nil]

theorem run_restoreSpecial (s : Cpu Reg) {a : ℕ} (ha : (s.regs .sp).toNat = a)
    (hroom : a + 272 ≤ 2 ^ 64) :
    (runCode restoreSpecial s).mem = s.mem ∧ (runCode restoreSpecial s).regs .sp = s.regs .sp ∧
      (runCode restoreSpecial s).regs .spsr = s.mem.load64 (a + 248) ∧
      (runCode restoreSpecial s).regs .elr = s.mem.load64 (a + 256) ∧
      (runCode restoreSpecial s).regs .spEl0 = s.mem.load64 (a + 264) ∧
      ∀ r, IsVector r → (runCode restoreSpecial s).regs r = s.regs r := by
  rw [runCode_restoreSpecial s ha hroom]
  generalize s.mem.load64 (a + 248) = spsr
  generalize s.mem.load64 (a + 256) = elr
  generalize s.mem.load64 (a + 264) = spEl0
  refine ⟨by simp, by simp [Cpu.set_regs], by simp [Cpu.set_regs], by simp [Cpu.set_regs], by simp,
    fun r hr => ?_⟩
  cases r with
  | v i high => simp [Cpu.set_regs]
  | fpcr => simp [Cpu.set_regs]
  | fpsr => simp [Cpu.set_regs]
  | _ => exact absurd hr id

theorem run_restoreContext (s : Cpu Reg) {c : Reg → BitVec 64}
    (hroom : (s.regs .sp).toNat + 272 ≤ 2 ^ 64)
    (hframe : Framed s.mem c (s.regs .sp).toNat contextRegs) :
    (runCode restoreContext s).mem = s.mem ∧
    (runCode restoreContext s).regs .sp = s.regs .sp + 272 ∧
    (∀ r ∈ contextRegs, (runCode restoreContext s).regs r = c r) ∧
    ∀ r, IsVector r → (runCode restoreContext s).regs r = s.regs r := by
  generalize ha : (s.regs .sp).toNat = a at hroom hframe
  rw [contextRegs, framed_append, general_length] at hframe
  obtain ⟨hgeneral, hspsr, helr, hspEl0, -⟩ := hframe
  obtain ⟨hmem₁, hsp₁, hspsr₁, helr₁, hspEl0₁, hvector₁⟩ := run_restoreSpecial s ha hroom
  rw [hspsr] at hspsr₁
  rw [helr] at helr₁
  rw [hspEl0] at hspEl0₁
  generalize hs₁ : runCode restoreSpecial s = s₁ at hmem₁ hsp₁ hspsr₁ helr₁ hspEl0₁ hvector₁
  obtain ⟨hmem₂, hloaded, hother⟩ := run_loadWords .sp general (c := c) 0 s₁ sp_notMem_general
    general_nodup (by rw [hsp₁, ha, general_length]; omega)
    (by rw [hmem₁, hsp₁, ha, Nat.add_zero]; exact hgeneral)
  have hrun : runCode restoreContext s =
      (Instr.add Reg.sp 272).exec (runCode (loadWords .sp 0 general) s₁) := by
    rw [restoreContext_eq, runCode_append, runCode_append, hs₁]
    rfl
  have hspecial : ∀ r, r ∉ general → r ≠ .sp → (runCode restoreContext s).regs r = s₁.regs r := by
    intro r hr hne
    rw [hrun, Instr.exec, Cpu.set_regs_of_ne _ _ hne, hother r hr]
  have hout : ∀ q : Reg, (∀ i, q ≠ .x i) → q ∉ general := by
    intro q hq hcon
    obtain ⟨i, -, hi⟩ := mem_general.mp hcon
    exact hq i hi
  refine ⟨?_, ?_, fun r hr => ?_, fun r hr => ?_⟩
  · rw [hrun, Instr.exec, Cpu.set_mem, hmem₂, hmem₁]
  · rw [hrun, Instr.exec, Cpu.set_regs_same, hother .sp sp_notMem_general, hsp₁]
  · rw [contextRegs, List.mem_append] at hr
    rcases hr with hr | hr
    · have hne : r ≠ .sp := fun hcon => sp_notMem_general (hcon ▸ hr)
      rw [hrun, Instr.exec, Cpu.set_regs_of_ne _ _ hne, hloaded r hr]
    · simp only [List.mem_cons, List.not_mem_nil, or_false] at hr
      rcases hr with rfl | rfl | rfl
      · rw [hspecial _ (hout _ fun i => Reg.noConfusion) (by decide), hspsr₁]
      · rw [hspecial _ (hout _ fun i => Reg.noConfusion) (by decide), helr₁]
      · rw [hspecial _ (hout _ fun i => Reg.noConfusion) (by decide), hspEl0₁]
  · have hne : ∀ q, ¬ IsVector q → r ≠ q := fun q hq heq => hq (heq ▸ hr)
    rw [hspecial r (hout r fun i => hne _ id) (hne _ id), hvector₁ r hr]

def enter (s : Cpu Reg) : Cpu Reg := runCode saveContext (runCode takeException s)

def leave (s : Cpu Reg) : Cpu Reg := runCode eret (runCode restoreContext s)

/-- The frame at `a` is that of a context whose stack ended above it. -/
def Holds (m : Memory) (a : ℕ) (c : Reg → BitVec 64) : Prop :=
  Framed m (excepted c) a contextRegs ∧ (c .sp).toNat = a + 272

theorem run_takeException (s : Cpu Reg) :
    (runCode takeException s).regs = excepted s.regs ∧ (runCode takeException s).mem = s.mem := by
  refine ⟨?_, rfl⟩
  funext r
  cases r with
  | _ => rfl

theorem run_enter (s : Cpu Reg) (hroom : 272 ≤ (s.regs .sp).toNat) :
    ((enter s).regs .sp).toNat = (s.regs .sp).toNat - 272 ∧
    (∀ r, r ≠ .sp → r ≠ .x 0 → r ≠ .x 1 → (enter s).regs r = excepted s.regs r) ∧
    (∀ x, x < (s.regs .sp).toNat - 272 ∨ (s.regs .sp).toNat ≤ x → (enter s).mem x = s.mem x) ∧
    Holds (enter s).mem ((s.regs .sp).toNat - 272) s.regs := by
  obtain ⟨hregs, hmem⟩ := run_takeException s
  have hsp : (runCode takeException s).regs .sp = s.regs .sp := by
    rw [hregs]
    rfl
  obtain ⟨hsp', hother, hmem', hframe⟩ :=
    run_saveContext (runCode takeException s) (by rw [hsp]; exact hroom)
  rw [hsp] at hsp' hmem' hframe
  rw [hregs] at hframe hother
  rw [hmem] at hmem'
  exact ⟨hsp', hother, hmem', hframe, by omega⟩

theorem run_eret (s : Cpu Reg) : (runCode eret s).mem = s.mem ∧
    (runCode eret s).regs .pc = s.regs .elr ∧ (runCode eret s).regs .pstate = s.regs .spsr ∧
    ∀ r, r ≠ .pc → r ≠ .pstate → (runCode eret s).regs r = s.regs r := by
  refine ⟨rfl, rfl, rfl, fun r hpc hpstate => ?_⟩
  change ((s.set .pc _).set .pstate _).regs r = _
  rw [Cpu.set_regs_of_ne _ _ hpstate, Cpu.set_regs_of_ne _ _ hpc]

theorem run_leave (s : Cpu Reg) {c : Reg → BitVec 64}
    (h : Holds s.mem (s.regs .sp).toNat c) {r : Reg} (hr : Saved r) : (leave s).regs r = c r := by
  obtain ⟨hframe, hsp⟩ := h
  have hlt := (c .sp).isLt
  obtain ⟨-, hspAfter, hregs, -⟩ := run_restoreContext s (by omega) hframe
  obtain ⟨-, hpc, hpstate, hother⟩ := run_eret (runCode restoreContext s)
  have hgeneral : ∀ i < 31, Reg.x i ∈ contextRegs := by
    intro i hi
    exact List.mem_append_left _ (mem_general.mpr ⟨i, hi, rfl⟩)
  unfold leave
  cases r with
  | x i => exact (hother _ Reg.noConfusion Reg.noConfusion).trans (hregs _ (hgeneral i hr))
  | sp =>
    rw [hother _ Reg.noConfusion Reg.noConfusion, hspAfter]
    apply BitVec.eq_of_toNat_eq
    rw [hsp]
    exact toNat_add_ofNat (n := 272) (by omega)
  | spEl0 => exact (hother _ Reg.noConfusion Reg.noConfusion).trans (hregs _ (by decide))
  | pc => exact hpc.trans (hregs _ (by decide))
  | pstate => exact hpstate.trans (hregs _ (by decide))
  | _ => exact absurd hr id

theorem run_leave_vector (s : Cpu Reg) {c : Reg → BitVec 64}
    (h : Holds s.mem (s.regs .sp).toNat c) {r : Reg} (hr : IsVector r) :
    (leave s).regs r = s.regs r := by
  obtain ⟨hframe, hsp⟩ := h
  have hlt := (c .sp).isLt
  have hne : ∀ q, ¬ IsVector q → r ≠ q := fun q hq heq => hq (heq ▸ hr)
  obtain ⟨-, -, -, hvector⟩ := run_restoreContext s (by omega) hframe
  obtain ⟨-, -, -, hother⟩ := run_eret (runCode restoreContext s)
  exact (hother r (hne _ id) (hne _ id)).trans (hvector r hr)

theorem leave_mem (s : Cpu Reg) : (leave s).mem = s.mem := by
  have hspecial : (runCode restoreSpecial s).mem = s.mem := rfl
  rw [leave, (run_eret _).1, restoreContext_eq, runCode_append, runCode_append, runCode_cons,
    runCode_nil, Instr.exec, Cpu.set_mem, runCode_loadWords_mem, hspecial]

def decode (m : Memory) (a : ℕ) : Reg → BitVec 64
  | .pc => frameWord m a contextRegs .elr
  | .pstate => frameWord m a contextRegs .spsr
  | .sp => BitVec.ofNat 64 (a + 272)
  | r => frameWord m a contextRegs r

theorem contextRegs_nodup : contextRegs.Nodup := by decide

theorem holds_decode (m : Memory) {a : ℕ} (ha : a + 272 < 2 ^ 64) : Holds m a (decode m a) := by
  constructor
  · refine (framed_frameWord m a contextRegs_nodup).values fun r hr => ?_
    cases r with
    | sp => contradiction
    | pc => contradiction
    | pstate => contradiction
    | _ => rfl
  · change (BitVec.ofNat 64 (a + 272)).toNat = a + 272
    rw [BitVec.toNat_ofNat, Nat.mod_eq_of_lt ha]

theorem Holds.decode {m : Memory} {a : ℕ} {c : Reg → BitVec 64} (h : Holds m a c) {r : Reg}
    (hr : Saved r) : decode m a r = c r := by
  obtain ⟨hframe, hsp⟩ := h
  cases r with
  | x i => exact hframe.word (List.mem_append_left _ (mem_general.mpr ⟨i, hr, rfl⟩))
  | sp =>
    apply BitVec.eq_of_toNat_eq
    change (BitVec.ofNat 64 (a + 272)).toNat = (c .sp).toNat
    rw [← hsp, BitVec.ofNat_toNat, BitVec.setWidth_eq]
  | spEl0 => exact hframe.word (r := .spEl0) (by decide)
  | pc => exact hframe.word (r := .elr) (by decide)
  | pstate => exact hframe.word (r := .spsr) (by decide)
  | _ => exact absurd hr id

theorem decode_congr {m m' : Memory} {a : ℕ} {r : Reg} (hr : Saved r)
    (hsame : ∀ x, a ≤ x → x < a + 272 → m' x = m x) : A64.decode m' a r = A64.decode m a r := by
  have hword : ∀ q ∈ contextRegs, frameWord m' a contextRegs q = frameWord m a contextRegs q :=
    fun q hq => frameWord_congr hq hsame
  cases r with
  | x i => exact hword _ (List.mem_append_left _ (mem_general.mpr ⟨i, hr, rfl⟩))
  | sp => rfl
  | spEl0 => exact hword .spEl0 (by decide)
  | pc => exact hword .elr (by decide)
  | pstate => exact hword .spsr (by decide)
  | _ => exact absurd hr id

def trapMachine : TrapMachine Reg where
  sp := .sp
  size := 272
  Saved := Saved
  enter _ := enter
  leave := leave
  frame _ c := (c .sp).toNat - 272
  Room _ c := 272 ≤ (c .sp).toNat
  decode := decode
  enter_sp hroom := (run_enter _ hroom).1
  enter_mem hroom hx := (run_enter _ hroom).2.2.1 _ (by omega)
  enter_decode hroom hr := (run_enter _ hroom).2.2.2.decode hr
  decode_congr := decode_congr
  leave_saved hroom hr := run_leave _ (holds_decode _ hroom) hr
  leave_mem := leave_mem
  frame_congr hsame := by
    rw [hsame .sp trivial]
    exact ⟨rfl, id⟩

/-! Exceptions from EL0: the handler gets the number and the arguments of a system call, and its
result replaces the saved `x0`. -/

def el0SyncArgs : List (Instr Reg) :=
  [.move (.x 0) .esr, .move (.x 1) .far, .move (.x 2) .elr, .move (.x 3) (.x 8),
    .load (.x 4) .sp 0, .load (.x 5) .sp 8, .load (.x 6) .sp 16]

def el0SyncCall (s : Cpu Reg) : Cpu Reg := runCode el0SyncArgs (enter s)

def el0SyncBody (handler : Cpu Reg → Cpu Reg) (s : Cpu Reg) : Cpu Reg :=
  leave ((Instr.store (.x 0) .sp 0).exec (handler (el0SyncCall s)))

theorem runCode_el0SyncArgs (s : Cpu Reg) {a : ℕ} (ha : (s.regs .sp).toNat = a)
    (hroom : a + 272 ≤ 2 ^ 64) : runCode el0SyncArgs s =
      ((((((s.set (.x 0) (s.regs .esr)).set (.x 1) (s.regs .far)).set (.x 2) (s.regs .elr)).set
        (.x 3) (s.regs (.x 8))).set (.x 4) (s.mem.load64 a)).set (.x 5)
        (s.mem.load64 (a + 8))).set (.x 6) (s.mem.load64 (a + 16)) := by
  have hmoves : runCode el0SyncArgs s =
      runCode [.load (.x 4) .sp 0, .load (.x 5) .sp 8, .load (.x 6) .sp 16]
        ((((s.set (.x 0) (s.regs .esr)).set (.x 1) (s.regs .far)).set (.x 2) (s.regs .elr)).set
          (.x 3) (s.regs (.x 8))) := by
    rw [el0SyncArgs, runCode_cons, Instr.exec_move, runCode_cons, Instr.exec_move, runCode_cons,
      Instr.exec_move, runCode_cons, Instr.exec_move]
    simp [Cpu.set_regs]
  rw [hmoves]
  generalize hs₁ : (((s.set (.x 0) (s.regs .esr)).set (.x 1) (s.regs .far)).set (.x 2)
    (s.regs .elr)).set (.x 3) (s.regs (.x 8)) = s₁
  have hsp : (s₁.regs .sp).toNat = a := by
    rw [← hs₁, ← ha]
    simp [Cpu.set_regs]
  have hmem : s₁.mem = s.mem := by
    rw [← hs₁]
    simp only [Cpu.set_mem]
  rw [runCode_cons, Instr.exec_load _ _ _ _ (by omega), hsp, hmem, Nat.add_zero, runCode_cons,
    Instr.exec_load _ _ _ _ (by rw [Cpu.set_regs_of_ne _ _ (by decide)]; omega),
    Cpu.set_regs_of_ne _ _ (by decide), hsp, Cpu.set_mem, hmem, runCode_cons]
  have hsp' : (((s₁.set (.x 4) (s.mem.load64 a)).set (.x 5)
      (s.mem.load64 (a + 8))).regs .sp).toNat = a := by
    rw [Cpu.set_regs_of_ne _ _ (by decide), Cpu.set_regs_of_ne _ _ (by decide), hsp]
  rw [Instr.exec_load _ _ _ _ (by omega), hsp', Cpu.set_mem, Cpu.set_mem, hmem, runCode_nil]

theorem el0SyncCall_spec (s : Cpu Reg) (hroom : 272 ≤ (s.regs .sp).toNat) :
    (el0SyncCall s).regs .sp = (enter s).regs .sp ∧ (el0SyncCall s).mem = (enter s).mem ∧
    (el0SyncCall s).regs (.x 0) = s.regs .esr ∧ (el0SyncCall s).regs (.x 1) = s.regs .far ∧
    (el0SyncCall s).regs (.x 2) = s.regs .pc ∧ (el0SyncCall s).regs (.x 3) = s.regs (.x 8) ∧
    (el0SyncCall s).regs (.x 4) = s.regs (.x 0) ∧ (el0SyncCall s).regs (.x 5) = s.regs (.x 1) ∧
    (el0SyncCall s).regs (.x 6) = s.regs (.x 2) := by
  have hlt := (s.regs .sp).isLt
  obtain ⟨hsp, hregs, -, hframe, -⟩ := run_enter s hroom
  have hother : ∀ r, r ≠ .sp ∧ r ≠ .x 0 ∧ r ≠ .x 1 → (enter s).regs r = excepted s.regs r :=
    fun r hr => hregs r hr.1 hr.2.1 hr.2.2
  obtain ⟨h0, h1, h2, -⟩ := hframe
  rw [Nat.add_assoc] at h2
  rw [el0SyncCall, runCode_el0SyncArgs (enter s) hsp (by omega), h0, h1, h2,
    hother .esr (by decide), hother .far (by decide), hother .elr (by decide),
    hother (.x 8) (by decide)]
  simp [Cpu.set_regs, excepted]

theorem excepted_update (c : Reg → BitVec 64) (v : BitVec 64) :
    excepted (Function.update c (.x 0) v) = Function.update (excepted c) (.x 0) v := by
  funext r
  by_cases hr : r = .x 0
  · rw [hr, Function.update_self]
    exact Function.update_self (Reg.x 0) v c
  · rw [Function.update_of_ne hr]
    cases r with
    | x i => exact Function.update_of_ne hr _ _
    | _ => rfl

theorem Holds.store_x0 {m : Memory} {a : ℕ} {c : Reg → BitVec 64} (h : Holds m a c)
    (v : BitVec 64) : Holds (m.store64 a v) a (Function.update c (.x 0) v) := by
  have hfirst : contextRegs = [] ++ Reg.x 0 :: contextRegs.tail := rfl
  obtain ⟨hframe, hsp⟩ := h
  refine ⟨?_, hsp⟩
  rw [hfirst] at hframe ⊢
  rw [excepted_update]
  exact hframe.store64 v List.not_mem_nil (by decide)

/-- A program in EL0 makes its system call with the number in `x8` and the arguments in `x0` to `x2`.
It goes on with the result in `x0` and every other register that was saved as it was. The SIMD and
floating-point registers are those that the handler leaves. -/
theorem el0SyncBody_transparent (handler : Cpu Reg → Cpu Reg) (s : Cpu Reg)
    (hroom : 272 ≤ (s.regs .sp).toNat)
    (hreturns : Returns [] .sp 272 (el0SyncCall s) (handler (el0SyncCall s))) :
    ((el0SyncCall s).regs (.x 3) = s.regs (.x 8) ∧ (el0SyncCall s).regs (.x 4) = s.regs (.x 0) ∧
      (el0SyncCall s).regs (.x 5) = s.regs (.x 1) ∧ (el0SyncCall s).regs (.x 6) = s.regs (.x 2)) ∧
    (el0SyncBody handler s).regs (.x 0) = (handler (el0SyncCall s)).regs (.x 0) ∧
    (∀ r, Saved r → r ≠ .x 0 → (el0SyncBody handler s).regs r = s.regs r) ∧
    (∀ r, IsVector r → (el0SyncBody handler s).regs r = (handler (el0SyncCall s)).regs r) ∧
    ∀ x, x < (s.regs .sp).toNat - 272 ∨ (s.regs .sp).toNat ≤ x →
      (el0SyncBody handler s).mem x = (handler (el0SyncCall s)).mem x := by
  have hlt := (s.regs .sp).isLt
  obtain ⟨hsp, -, -, hholds⟩ := run_enter s hroom
  obtain ⟨hspCall, hmemCall, -, -, -, hnumber, hx0, hx1, hx2⟩ := el0SyncCall_spec s hroom
  have hspAfter : ((handler (el0SyncCall s)).regs .sp).toNat = (s.regs .sp).toNat - 272 := by
    rw [hreturns.stack, hspCall, hsp]
  have hkept : Holds (handler (el0SyncCall s)).mem ((s.regs .sp).toNat - 272) s.regs := by
    refine ⟨hholds.1.congr fun x hlow hhigh => ?_, hholds.2⟩
    have hsize : 8 * contextRegs.length = 272 := rfl
    rw [← hmemCall]
    apply hreturns.frame
    all_goals rw [hspCall, hsp]
    all_goals omega
  unfold el0SyncBody
  generalize handler (el0SyncCall s) = s₁ at hspAfter hkept ⊢
  rw [Instr.exec_store _ _ _ _ (by omega), Nat.add_zero]
  generalize hs₂ : ({ s₁ with mem := s₁.mem.store64 (s₁.regs .sp).toNat (s₁.regs (.x 0)) } : Cpu Reg)
    = s₂
  have hfinal : Holds s₂.mem (s₂.regs .sp).toNat (Function.update s.regs (.x 0) (s₁.regs (.x 0))) := by
    rw [← hs₂]
    change Holds (s₁.mem.store64 (s₁.regs .sp).toNat _) (s₁.regs .sp).toNat _
    rw [hspAfter]
    exact hkept.store_x0 _
  have hresume : ∀ r, Saved r → (leave s₂).regs r = _ := fun r hr => run_leave s₂ hfinal hr
  refine ⟨⟨hnumber, hx0, hx1, hx2⟩, ?_, fun r hr hne => ?_, fun r hr => ?_, fun x hx => ?_⟩
  · have hsaved : Saved (.x 0) := Nat.zero_lt_succ 30
    rw [hresume (.x 0) hsaved, Function.update_self]
  · rw [hresume r hr, Function.update_of_ne hne]
  · rw [run_leave_vector s₂ hfinal hr, ← hs₂]
  · rw [leave_mem, ← hs₂]
    exact Memory.store64_apply_of_disjoint _ _ (by omega)

/-- A program at EL0 with its kernel stack at 4096, and a handler that returns 7. -/
theorem el0SyncBody_transparent_el0 : ∃ s : Cpu Reg, (s.regs .sp).toNat = 4096 ∧
    (el0SyncBody (fun s => s.set (.x 0) 7) s).regs (.x 0) = 7 ∧
    ∀ r, Saved r → r ≠ .x 0 →
      (el0SyncBody (fun s => s.set (.x 0) 7) s).regs r = s.regs r := by
  generalize hs : (⟨fun _ => 4096, fun _ => 0⟩ : Cpu Reg) = s
  have hsp : (s.regs .sp).toNat = 4096 := by
    rw [← hs]
    rfl
  have hreturns : Returns [] .sp 272 (el0SyncCall s) ((el0SyncCall s).set (.x 0) 7) :=
    Returns.set 272 _ 7 (by decide) List.not_mem_nil
  obtain ⟨-, hresult, hother, -⟩ :=
    el0SyncBody_transparent (fun s => s.set (.x 0) 7) s (by omega) hreturns
  exact ⟨s, hsp, hresult.trans (Cpu.set_regs_same _ _ _), hother⟩

end A64

end MitosOS.Kernel
