import MitosOS.Kernel.ExceptionBodies
import MitosOS.Kernel.InterruptStubs
import MitosOS.Tasks.Scheduler

/-! The first frame of a task, as `Task::init` writes it, on both architectures. -/
namespace MitosOS.Kernel
open MitosOS.Lib MitosOS.Paging MitosOS.Tasks

namespace X64

def initContext (entry userStackTop stackTop : ℕ) (isUser : Bool) : Reg → BitVec 64
  | .rip => BitVec.ofNat 64 entry
  | .cs => if isUser then 0x1B else 0x08
  | .rflags => 0x202
  | .rsp => if isUser then BitVec.ofNat 64 userStackTop - 8 else BitVec.ofNat 64 (stackTop - 8)
  | .ss => if isUser then 0x23 else 0x10
  | _ => 0

/-- A process starts to push at `rsp0`, a kernel thread below its first frame. -/
theorem interruptTop_initContext (entry userStackTop : ℕ) {stackTop kernelTop : ℕ} (isUser : Bool)
    (hstack : stackTop % 16 = 0) (hkernel : kernelTop % 16 = 0) (hlow : 16 ≤ stackTop)
    (hhigh : stackTop < 2 ^ 64) :
    interruptTop kernelTop (initContext entry userStackTop stackTop isUser) =
      if isUser then kernelTop else stackTop - 16 := by
  unfold interruptTop initContext
  cases isUser with
  | true =>
    simp only [if_true]
    rw [if_pos (by decide)]
    omega
  | false =>
    simp only [Bool.false_eq_true, if_false]
    rw [if_neg (by decide), BitVec.toNat_ofNat, Nat.mod_eq_of_lt (by omega)]
    omega

end X64

namespace A64

def initContext (entry userStackTop : ℕ) (isUser : Bool) : Reg → BitVec 64
  | .spsr => if isUser then 0x0 else 0x5
  | .elr => BitVec.ofNat 64 entry
  | .spEl0 => if isUser then BitVec.ofNat 64 userStackTop else 0
  | _ => 0

def startRegs (entry userStackTop stackTop : ℕ) (isUser : Bool) : Reg → BitVec 64
  | .pc => BitVec.ofNat 64 entry
  | .pstate => if isUser then 0x0 else 0x5
  | .spEl0 => if isUser then BitVec.ofNat 64 userStackTop else 0
  | .sp => BitVec.ofNat 64 stackTop
  | _ => 0

theorem decode_initContext (m : Memory) (entry userStackTop : ℕ) {a : ℕ} (isUser : Bool) {r : Reg}
    (hr : Saved r) :
    decode (writeWords m (initContext entry userStackTop isUser) a contextRegs) a r =
      startRegs entry userStackTop (a + 272) isUser r := by
  have hword : ∀ q ∈ contextRegs,
      frameWord (writeWords m (initContext entry userStackTop isUser) a contextRegs) a contextRegs q =
        initContext entry userStackTop isUser q :=
    fun q hq => (framed_writeWords m _ contextRegs a).word hq
  cases r with
  | x i => exact hword _ (List.mem_append_left _ (mem_general.mpr ⟨i, hr, rfl⟩))
  | sp => rfl
  | spEl0 => exact hword .spEl0 (by decide)
  | pc => exact hword .elr (by decide)
  | pstate => exact hword .spsr (by decide)
  | _ => exact absurd hr id

end A64

/-- The trap code of an architecture, and how `Task::init` starts a task on it. -/
structure Platform (ρ : Type) extends TrapMachine ρ where
  contextRegs : List ρ
  contextRegs_size : 8 * contextRegs.length = size
  size_pos : 0 < size
  /-- The `TaskContext` of a new task. -/
  initContext : (entry userStackTop stackTop : ℕ) → (isUser : Bool) → ρ → BitVec 64
  /-- The registers that it starts with. -/
  startRegs : (entry userStackTop stackTop : ℕ) → (isUser : Bool) → ρ → BitVec 64
  decode_init : ∀ {m entry userStackTop a isUser r}, Saved r →
    decode (writeWords m (initContext entry userStackTop (a + size) isUser) a contextRegs) a r =
      startRegs entry userStackTop (a + size) isUser r
  /-- Its first trap has room on one of its two stacks. -/
  start_room : ∀ {entry userStackTop stackTop kernelTop isUser},
    stackTop % 16 = 0 → kernelTop % 16 = 0 → 512 ≤ stackTop → stackTop < 2 ^ 64 →
    512 ≤ kernelTop → kernelTop < 2 ^ 64 →
    Room kernelTop (startRegs entry userStackTop stackTop isUser) ∧
    ∃ top, (top = stackTop ∨ top = kernelTop) ∧
      top ≤ frame kernelTop (startRegs entry userStackTop stackTop isUser) + 512 ∧
      frame kernelTop (startRegs entry userStackTop stackTop isUser) + size ≤ top

def X64.platform : Platform X64.Reg where
  toTrapMachine := X64.trapMachine
  contextRegs := X64.contextRegs
  contextRegs_size := rfl
  size_pos := Nat.zero_lt_succ 159
  initContext := X64.initContext
  startRegs := X64.initContext
  decode_init _ := (framed_writeWords _ _ X64.contextRegs _).word (X64.mem_contextRegs _)
  start_room {entry userStackTop stackTop kernelTop isUser} hstack hkernel hlow hhigh hlow' hhigh' := by
    have htop := X64.interruptTop_initContext entry userStackTop isUser hstack hkernel (by omega) hhigh
    change X64.Room kernelTop (X64.initContext entry userStackTop stackTop isUser) ∧ ∃ top, _ ∧
      top ≤ X64.interruptTop kernelTop _ - 160 + 512 ∧ X64.interruptTop kernelTop _ - 160 + 160 ≤ top
    rw [X64.Room, htop]
    cases isUser with
    | true =>
      rw [if_pos rfl]
      exact ⟨by omega, kernelTop, Or.inr rfl, by omega, by omega⟩
    | false =>
      rw [if_neg Bool.false_ne_true]
      exact ⟨by omega, stackTop, Or.inl rfl, by omega, by omega⟩

def A64.platform : Platform A64.Reg where
  toTrapMachine := A64.trapMachine
  contextRegs := A64.contextRegs
  contextRegs_size := rfl
  size_pos := Nat.zero_lt_succ 271
  initContext entry userStackTop _ isUser := A64.initContext entry userStackTop isUser
  startRegs := A64.startRegs
  decode_init hr := A64.decode_initContext _ _ _ _ hr
  start_room {entry userStackTop stackTop kernelTop isUser} _ _ hlow hhigh _ _ := by
    have hsp : (A64.startRegs entry userStackTop stackTop isUser .sp).toNat = stackTop := by
      change (BitVec.ofNat 64 stackTop).toNat = stackTop
      rw [BitVec.toNat_ofNat, Nat.mod_eq_of_lt hhigh]
    change 272 ≤ (A64.startRegs entry userStackTop stackTop isUser .sp).toNat ∧ ∃ top, _ ∧
      top ≤ (A64.startRegs entry userStackTop stackTop isUser .sp).toNat - 272 + 512 ∧
      (A64.startRegs entry userStackTop stackTop isUser .sp).toNat - 272 + 272 ≤ top
    rw [hsp]
    exact ⟨by omega, stackTop, Or.inl rfl, by omega, by omega⟩

abbrev RegOf : Arch → Type
  | .x86_64 => X64.Reg
  | .aarch64 => A64.Reg

instance (arch : Arch) : DecidableEq (RegOf arch) :=
  match arch with
  | .x86_64 => inferInstanceAs (DecidableEq X64.Reg)
  | .aarch64 => inferInstanceAs (DecidableEq A64.Reg)

def platform : (arch : Arch) → Platform (RegOf arch)
  | .x86_64 => X64.platform
  | .aarch64 => A64.platform

theorem platform_size (arch : Arch) : (platform arch).size = contextSize arch := by
  cases arch <;> rfl

end MitosOS.Kernel
