import MitosOS.Lib.Assembly

/-! What a context switch needs from the code that enters and leaves a trap handler. -/
namespace MitosOS.Lib

/-- Code that saves the interrupted registers in a frame on a stack, and code that resumes from a
frame. `kernelTop` is the stack that a trap from user mode starts on. -/
structure TrapMachine (ρ : Type*) where
  sp : ρ
  size : ℕ
  /-- The registers of the interrupted program that a frame stands for. -/
  Saved : ρ → Prop
  enter : (kernelTop : ℕ) → Cpu ρ → Cpu ρ
  leave : Cpu ρ → Cpu ρ
  /-- Where a trap puts its frame, if it has room there. -/
  frame : (kernelTop : ℕ) → (ρ → BitVec 64) → ℕ
  Room : (kernelTop : ℕ) → (ρ → BitVec 64) → Prop
  /-- The registers that the frame at an address stands for. -/
  decode : Memory → ℕ → ρ → BitVec 64
  enter_sp : ∀ {kernelTop s}, Room kernelTop s.regs →
    ((enter kernelTop s).regs sp).toNat = frame kernelTop s.regs
  enter_mem : ∀ {kernelTop s x}, Room kernelTop s.regs →
    x < frame kernelTop s.regs ∨ frame kernelTop s.regs + size ≤ x →
    (enter kernelTop s).mem x = s.mem x
  enter_decode : ∀ {kernelTop s r}, Room kernelTop s.regs → Saved r →
    decode (enter kernelTop s).mem (frame kernelTop s.regs) r = s.regs r
  decode_congr : ∀ {m m' a r}, Saved r → (∀ x, a ≤ x → x < a + size → m' x = m x) →
    decode m' a r = decode m a r
  leave_saved : ∀ {s r}, (s.regs sp).toNat + size < 2 ^ 64 → Saved r →
    (leave s).regs r = decode s.mem (s.regs sp).toNat r
  leave_mem : ∀ s, (leave s).mem = s.mem
  /-- The stack that the next trap uses is a matter of saved registers. -/
  frame_congr : ∀ {kernelTop c c'}, (∀ r, Saved r → c' r = c r) →
    frame kernelTop c' = frame kernelTop c ∧ (Room kernelTop c → Room kernelTop c')

section Switch
variable {ρ : Type*} [DecidableEq ρ] (M : TrapMachine ρ)

def TrapMachine.resume (s : Cpu ρ) (a : ℕ) : Cpu ρ := M.leave (s.set M.sp (BitVec.ofNat 64 a))

theorem TrapMachine.resume_saved {s : Cpu ρ} {a : ℕ} (ha : a + M.size < 2 ^ 64) {r : ρ}
    (hr : M.Saved r) : (M.resume s a).regs r = M.decode s.mem a r := by
  have hsp : ((s.set M.sp (BitVec.ofNat 64 a)).regs M.sp).toNat = a := by
    rw [Cpu.set_regs_same, BitVec.toNat_ofNat, Nat.mod_eq_of_lt (by omega)]
  have hleave := M.leave_saved (s := s.set M.sp (BitVec.ofNat 64 a)) (by rw [hsp]; exact ha) hr
  rw [hsp, Cpu.set_mem] at hleave
  exact hleave

theorem TrapMachine.resume_mem (s : Cpu ρ) (a : ℕ) : (M.resume s a).mem = s.mem := M.leave_mem _

end Switch

end MitosOS.Lib
