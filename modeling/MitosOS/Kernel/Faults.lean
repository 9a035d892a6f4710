import MitosOS.Kernel.Processes
import MitosOS.Paging.PageFault

/-! `fault_common_handler` on x86_64: a fault is demand-paged, ends the current task or brings the
kernel down. The handler does not see the privilege level the fault was raised at. -/
namespace MitosOS.Kernel
open MitosOS.Lib MitosOS.Memory MitosOS.Paging MitosOS.Tasks

def exceptionName : ℕ → String
  | 0 => "Divide Error (#DE)"
  | 6 => "Invalid Opcode (#UD)"
  | 8 => "Double Fault (#DF)"
  | 13 => "General Protection Fault (#GP)"
  | 14 => "Page Fault (#PF)"
  | _ => "Unhandled Exception"

inductive FaultOutcome where
  /-- The handler returns and the instruction is retried. -/
  | resumed
  /-- `task::exit`, after the exception was reported. -/
  | exited (exception : String)
  | panicked (message : String)
  deriving DecidableEq, Repr

def canonicalLowHalfCeiling : ℕ := 0x0000800000000000

def ripInUserRange (rip : ℕ) : Bool :=
  decide (userSpaceBase ≤ rip) && decide (rip < canonicalLowHalfCeiling)

def isUserFault (vector errorCode rip : ℕ) : Bool :=
  if vector = 14 then decide (errorCode &&& 1 <<< 2 ≠ 0) || ripInUserRange rip
  else ripInUserRange rip

/-- The part after demand paging has declined. The message of the kernel panic goes on with the
RIP. -/
def endFault (vector errorCode rip : ℕ) (k : KernelRun) : FaultOutcome × KernelRun :=
  if isUserFault vector errorCode rip && vector != 8 then
    (.exited (exceptionName vector), { k with sched := k.sched.exit, exited := true })
  else (.panicked ("Unhandled CPU exception: " ++ exceptionName vector), k)

def faultCommonHandler (regs : RootRegisters) (cr2 vector errorCode rip : ℕ) (k : KernelRun) :
    FaultOutcome × KernelRun :=
  if vector = 14 then
    match handlePageFault .x86_64 regs cr2 (decide (errorCode &&& 1 ≠ 0))
      (decide (errorCode &&& 1 <<< 2 ≠ 0)) k.machine with
    | (none, s) => (.panicked "VMM: Physical Memory Manager returned frame 0x0 during page allocation!",
        { k with machine := s })
    | (some true, s) => (.resumed, { k with machine := s })
    | (some false, s) => endFault vector errorCode rip { k with machine := s }
  else endFault vector errorCode rip k

/-- What the stubs pass on for a fault raised at CPL 3, the double fault apart: the stubs of
vectors 0 and 6 push a zero, and the CPU sets bit 2 of a page fault's error code. -/
def RaisedInRing3 (vector errorCode : ℕ) : Prop :=
  vector = 0 ∧ errorCode = 0 ∨ vector = 6 ∧ errorCode = 0 ∨ vector = 13 ∨
    vector = 14 ∧ errorCode &&& 1 <<< 2 ≠ 0

instance (vector errorCode : ℕ) : Decidable (RaisedInRing3 vector errorCode) :=
  inferInstanceAs (Decidable (_ ∨ _))

def Ring3Executable (m : Memory) (root rip : ℕ) : Prop :=
  ∃ p ∈ cpuTranslation m root rip, p.user = true ∧ p.executeDisable = false

/-- The fault was resolved by demand paging, or the current task has been terminated. -/
def Contained (regs : RootRegisters) (cr2 vector errorCode rip : ℕ) (k : KernelRun) : Prop :=
  let r := faultCommonHandler regs cr2 vector errorCode rip k
  r.1 = .resumed ∧ vector = 14 ∧ (handlePageFault .x86_64 regs cr2
      (decide (errorCode &&& 1 ≠ 0)) (decide (errorCode &&& 1 <<< 2 ≠ 0)) k.machine).1 = some true ∨
    (∃ exception, r.1 = .exited exception) ∧
      (r.2.sched.tasks k.sched.current).state = .terminated

section Outcome
variable {regs : RootRegisters} {cr2 vector errorCode rip : ℕ} {k : KernelRun}

/-- Demand paging panics only on a frame 0 that it would have mapped. -/
theorem handlePageFault_eq_none_iff (regs : RootRegisters) (cr2 : ℕ) (isPresent isUser : Bool)
    (s : Machine) : (handlePageFault .x86_64 regs cr2 isPresent isUser s).1 = none ↔
      isPresent = false ∧ s.pmm.IsFree 0 := by
  unfold handlePageFault
  cases isPresent with
  | true => simp
  | false =>
    rcases vmmAllocFrame_cases s with ⟨halloc, hempty⟩ | ⟨d, s₁, halloc, htaken⟩
    · simp [halloc, hempty 0]
    · rw [halloc]
      by_cases hd : d * 4096 = 0
      · obtain rfl : d = 0 := by omega
        simp [htaken.wasFree]
      · have hzero : ¬ s.pmm.IsFree 0 := fun hfree => by
          have hle := vmmAllocFrame_lowest halloc hfree
          omega
        simp only [Bool.false_eq_true, if_false, if_neg hd, hzero, and_false, iff_false]
        split <;> simp

theorem endFault_exited_iff (hvector : vector ≠ 8) :
    ((∃ exception, (endFault vector errorCode rip k).1 = .exited exception) ∧
      ((endFault vector errorCode rip k).2.sched.tasks k.sched.current).state = .terminated) ↔
    isUserFault vector errorCode rip = true := by
  unfold endFault
  cases isUserFault vector errorCode rip with
  | true =>
    have hdead : (k.sched.exit.tasks k.sched.current).state = .terminated := by
      rw [Scheduler.exit, Scheduler.setState_same]
    simp [hvector, hdead]
  | false => simp

theorem ripInUserRange_iff : ripInUserRange rip = true ↔ userSpaceBase ≤ rip ∧ rip < 2 ^ 47 := by
  unfold ripInUserRange canonicalLowHalfCeiling
  rw [Bool.and_eq_true, decide_eq_true_eq, decide_eq_true_eq]
  exact Iff.rfl

theorem contained_iff_of_ne (h14 : vector ≠ 14) (h8 : vector ≠ 8) :
    Contained regs cr2 vector errorCode rip k ↔ userSpaceBase ≤ rip ∧ rip < 2 ^ 47 := by
  have heq : faultCommonHandler regs cr2 vector errorCode rip k =
      endFault vector errorCode rip k := if_neg h14
  have huser : isUserFault vector errorCode rip = ripInUserRange rip := if_neg h14
  rw [Contained, heq, endFault_exited_iff h8, huser, ripInUserRange_iff]
  exact or_iff_right fun h => h14 h.2.1

/-- A page fault with the U/S bit ends the task when it cannot be resolved. -/
theorem contained_pageFault_iff (huser : errorCode &&& 1 <<< 2 ≠ 0) :
    Contained regs cr2 14 errorCode rip k ↔
      errorCode &&& 1 ≠ 0 ∨ ¬ k.machine.pmm.IsFree 0 := by
  have hflag : isUserFault 14 errorCode rip = true := by
    unfold isUserFault
    rw [if_pos rfl, decide_eq_true huser, Bool.true_or]
  have hnone := handlePageFault_eq_none_iff regs cr2 (decide (errorCode &&& 1 ≠ 0))
    (decide (errorCode &&& 1 <<< 2 ≠ 0)) k.machine
  have hpanic : (errorCode &&& 1 ≠ 0 ∨ ¬ k.machine.pmm.IsFree 0) ↔
      (handlePageFault .x86_64 regs cr2 (decide (errorCode &&& 1 ≠ 0))
        (decide (errorCode &&& 1 <<< 2 ≠ 0)) k.machine).1 ≠ none := by
    refine Iff.trans ?_ (not_congr hnone).symm
    rw [not_and_or, Bool.not_eq_false, decide_eq_true_eq]
  rw [hpanic, Contained, faultCommonHandler, if_pos rfl]
  generalize handlePageFault .x86_64 regs cr2 _ _ k.machine = out
  rcases out with ⟨_ | _ | _, s⟩
  · simp
  · have hvector : (14 : ℕ) ≠ 8 := by decide
    have hexit := (endFault_exited_iff (k := { k with machine := s }) hvector).mpr hflag
    simp only [ne_eq, reduceCtorEq, not_false_eq_true, iff_true]
    exact Or.inr hexit
  · simp

/-- A fault raised in ring 3 is contained exactly when it is a page fault that does not run into
frame 0, or its RIP is in the range that the handler takes for user code. -/
theorem ring3_fault_contained_iff (regs : RootRegisters) (cr2 vector errorCode rip : ℕ)
    (k : KernelRun) (hraised : RaisedInRing3 vector errorCode) :
    Contained regs cr2 vector errorCode rip k ↔
      vector = 14 ∧ (errorCode &&& 1 ≠ 0 ∨ ¬ k.machine.pmm.IsFree 0) ∨
      vector ≠ 14 ∧ userSpaceBase ≤ rip ∧ rip < 2 ^ 47 := by
  by_cases h14 : vector = 14
  · subst h14
    have huser : errorCode &&& 1 <<< 2 ≠ 0 := by
      rcases hraised with ⟨hcon, -⟩ | ⟨hcon, -⟩ | hcon | ⟨-, huser⟩
      · exact absurd hcon (by decide)
      · exact absurd hcon (by decide)
      · exact absurd hcon (by decide)
      · exact huser
    rw [contained_pageFault_iff huser]
    simp
  · have h8 : vector ≠ 8 := by
      rintro rfl
      exact absurd hraised (by simp [RaisedInRing3])
    rw [contained_iff_of_ne h14 h8]
    simp [h14]

end Outcome

/-- The kernel after ring 3 had a page of the kernel half mapped by touching it. -/
def plantedRun : KernelRun where
  sched := Scheduler.boot 0x100000
  exited := false
  machine := (handlePageFault .x86_64 ⟨0x100000, 0, 0⟩ 0xFFFF800040000000 false true
    trampolineProcess).2

/-- Ring-3 code that runs on the demand-paged page and executes an invalid opcode there brings the
kernel down. -/
theorem ring3_fault_panics :
    Ring3Executable plantedRun.machine.mem 0x100000 0xFFFF800040000000 ∧ RaisedInRing3 6 0 ∧
      (faultCommonHandler ⟨0x100000, 0, 0⟩ 0 6 0 0xFFFF800040000000 plantedRun).1 =
        .panicked "Unhandled CPU exception: Invalid Opcode (#UD)" := by
  refine ⟨⟨⟨0x101000, true, true, false⟩, ?_, rfl, rfl⟩, by decide, by decide⟩
  change cpuTranslation plantedRun.machine.mem 0x100000 0xFFFF800040000000 = _
  decide +kernel

/-- The same opcode at a user address ends the task. -/
theorem ring3_fault_contained_user :
    RaisedInRing3 6 0 ∧ Contained ⟨0x100000, 0, 0⟩ 0 6 0 0x8000000000 plantedRun := by
  have hraised : RaisedInRing3 6 0 := by decide
  refine ⟨hraised, (ring3_fault_contained_iff _ _ _ _ _ _ hraised).mpr (Or.inr ?_)⟩
  decide

end MitosOS.Kernel
