import MitosOS.Kernel.Processes
import Mathlib.Data.Set.BooleanAlgebra
import Mathlib.Logic.Relation
import Mathlib.Order.CompletePartialOrder

/-! Who owns which frame. Every process that has not been reclaimed owns the frames under the
private half of its root, nobody else's, and this survives every run of the kernel on aarch64. -/
namespace MitosOS.Kernel
open MitosOS.Lib MitosOS.Memory MitosOS.Paging MitosOS.Elf MitosOS.Tasks

/-- `P` gives the frame of the root that each party owns, if it owns one. The kernel's tables and
the parties' frames are all apart, and all parties share the kernel's entry 0. -/
structure Ownership {ι : Type*} (F : Format) (K : ℕ) (P : ι → Option ℕ) (s : Machine) : Prop where
  kernel : KernelRoot F K s
  isPrivate : ∀ i R, P i = some R → Private F {0} R s
  sharedEntry : ∀ i R, P i = some R → entries s.mem R 0 = entries s.mem K 0
  apart : ∀ i R, P i = some R → Disjoint (owned F {0} s.mem R) (tableFrames F s.mem K)
  disjoint : ∀ i j R Q, i ≠ j → P i = some R → P j = some Q →
    Disjoint (owned F {0} s.mem R) (owned F {0} s.mem Q)

section Memory
variable {ι : Type*} {F : Format} {K R : ℕ} {P P' : ι → Option ℕ} {s s₁ s' : Machine} {i : ι}

theorem mem_tableFrames (F : Format) (m : Memory) (K : ℕ) : K ∈ tableFrames F m K :=
  ⟨[], Nat.zero_le 3, rfl⟩

theorem entries_of_kept {A : Set ℕ} {n : ℕ} (hmem : ∀ x, x / 4096 ∉ A → s'.mem x = s.mem x)
    (hn : n ∉ A) (i : Fin 512) : entries s'.mem n i = entries s.mem n i := by
  apply entries_congr
  intro x hx
  apply hmem
  rw [hx]
  exact hn

theorem Ownership.free_disjoint_tables (h : Ownership F K P s) :
    Disjoint {f | s.pmm.IsFree f} (tableFrames F s.mem K) := by
  rw [Set.disjoint_left]
  exact fun f hfree ht => h.kernel.wellFormed.reserved f ht hfree

theorem Ownership.free_disjoint (h : Ownership F K P s) (hi : P i = some R) :
    Disjoint {f | s.pmm.IsFree f} (owned F {0} s.mem R) := by
  rw [Set.disjoint_left]
  exact fun f hfree ht => (h.isPrivate i R hi).reserved f ht hfree

theorem Ownership.frame (h : Ownership F K P s) {A : Set ℕ}
    (hmem : ∀ x, x / 4096 ∉ A → s'.mem x = s.mem x)
    (hfree : ∀ f, s'.pmm.IsFree f → s.pmm.IsFree f ∨ f ∈ A)
    (hK : Disjoint A (tableFrames F s.mem K))
    (hP : ∀ i R, P' i = some R → P i = some R ∧ Disjoint A (owned F {0} s.mem R)) :
    Ownership F K P' s' ∧ tableFrames F s'.mem K = tableFrames F s.mem K ∧
      ∀ i R, P' i = some R → owned F {0} s'.mem R = owned F {0} s.mem R := by
  have hkeep : ∀ {B : Set ℕ}, Disjoint A B → ∀ x, x / 4096 ∈ B → s'.mem x = s.mem x :=
    fun hB x hx => hmem x (Set.disjoint_right.mp hB hx)
  have hstay : ∀ {B : Set ℕ}, Disjoint A B → (∀ t ∈ B, ¬ s.pmm.IsFree t) →
      ∀ t ∈ B, ¬ s'.pmm.IsFree t := by
    intro B hB hres t ht hft
    rcases hfree t hft with hold | hA
    · exact hres t ht hold
    · exact Set.disjoint_left.mp hB hA ht
  obtain ⟨hkernel, htables⟩ := h.kernel.frame (hkeep hK) (hstay hK h.kernel.wellFormed.reserved)
  have hparty : ∀ i R, P' i = some R →
      Private F {0} R s' ∧ owned F {0} s'.mem R = owned F {0} s.mem R := by
    intro i R hi
    obtain ⟨hold, hA⟩ := hP i R hi
    exact (h.isPrivate i R hold).frame (hkeep hA) (hstay hA (h.isPrivate i R hold).reserved)
  refine ⟨⟨hkernel, fun i R hi => (hparty i R hi).1, ?_, ?_, ?_⟩, htables,
    fun i R hi => (hparty i R hi).2⟩
  · intro i R hi
    obtain ⟨hold, hA⟩ := hP i R hi
    rw [entries_of_kept hmem (Set.disjoint_right.mp hA (root_mem_owned F {0} s.mem R)),
      entries_of_kept hmem (Set.disjoint_right.mp hK (mem_tableFrames F s.mem K))]
    exact h.sharedEntry i R hold
  · intro i R hi
    rw [(hparty i R hi).2, htables]
    exact h.apart i R (hP i R hi).1
  · intro i j R Q hij hi hj
    rw [(hparty i R hi).2, (hparty j Q hj).2]
    exact h.disjoint i j R Q hij (hP i R hi).1 (hP j Q hj).1

variable [DecidableEq ι]

theorem Ownership.insert (h : Ownership F K P s) (hR : Private F {0} R s)
    (hentry : entries s.mem R 0 = entries s.mem K 0)
    (hapart : Disjoint (owned F {0} s.mem R) (tableFrames F s.mem K))
    (hdisj : ∀ j Q, j ≠ i → P j = some Q →
      Disjoint (owned F {0} s.mem R) (owned F {0} s.mem Q)) :
    Ownership F K (Function.update P i (some R)) s := by
  have hcases : ∀ j Q, Function.update P i (some R) j = some Q →
      j = i ∧ R = Q ∨ j ≠ i ∧ P j = some Q := by
    intro j Q hj
    rw [Function.update_apply] at hj
    split_ifs at hj with hji
    · exact Or.inl ⟨hji, Option.some.inj hj⟩
    · exact Or.inr ⟨hji, hj⟩
  constructor
  · exact h.kernel
  · intro j Q hj
    rcases hcases j Q hj with ⟨-, rfl⟩ | ⟨-, hj⟩
    · exact hR
    · exact h.isPrivate j Q hj
  · intro j Q hj
    rcases hcases j Q hj with ⟨-, rfl⟩ | ⟨-, hj⟩
    · exact hentry
    · exact h.sharedEntry j Q hj
  · intro j Q hj
    rcases hcases j Q hj with ⟨-, rfl⟩ | ⟨-, hj⟩
    · exact hapart
    · exact h.apart j Q hj
  · intro j k Q T hjk hj hk
    rcases hcases j Q hj with ⟨rfl, rfl⟩ | ⟨hji, hj'⟩
    · rcases hcases k T hk with ⟨rfl, -⟩ | ⟨hki, hk'⟩
      · exact absurd rfl hjk
      · exact hdisj k T hki hk'
    · rcases hcases k T hk with ⟨rfl, rfl⟩ | ⟨-, hk'⟩
      · exact (hdisj j Q hji hj').symm
      · exact h.disjoint j k Q T hjk hj' hk'

theorem Ownership.act (h : Ownership F K P s) (hi : P i = some R)
    (hconf : Confined F {0} R s s') : Ownership F K P s' ∧
      ∀ j Q, j ≠ i → P j = some Q → owned F {0} s'.mem Q = owned F {0} s.mem Q := by
  have hK : Disjoint (pool F {0} R s) (tableFrames F s.mem K) :=
    Set.disjoint_union_left.mpr ⟨h.apart i R hi, h.free_disjoint_tables⟩
  have hothers : ∀ j Q, Function.update P i none j = some Q →
      P j = some Q ∧ Disjoint (pool F {0} R s) (owned F {0} s.mem Q) := by
    intro j Q hj
    rw [Function.update_apply] at hj
    split_ifs at hj with hji
    refine ⟨hj, Set.disjoint_union_left.mpr ⟨?_, h.free_disjoint hj⟩⟩
    exact h.disjoint i j R Q (Ne.symm hji) hi hj
  obtain ⟨hrest, htables, howned⟩ := h.frame hconf.outside
    (fun f hf => Or.inr (hconf.pool_subset (Or.inr hf))) hK hothers
  have hrootK := entries_of_kept hconf.outside
    (Set.disjoint_right.mp hK (mem_tableFrames F s.mem K)) 0
  have hback := hrest.insert (i := i) hconf.isPrivate ?_ ?_ ?_
  · rw [Function.update_idem, ← hi, Function.update_eq_self] at hback
    refine ⟨hback, fun j Q hj hQ => howned j Q ?_⟩
    rw [Function.update_of_ne hj]
    exact hQ
  · rw [hconf.sharedEntries 0 rfl, hrootK]
    exact h.sharedEntry i R hi
  · rw [htables]
    exact hK.mono_left hconf.owned_subset
  · intro j Q _ hj
    rw [howned j Q hj]
    exact (hothers j Q hj).2.mono_left hconf.owned_subset

/-- Work confined to a fresh root, which may or may not become somebody's. -/
theorem Ownership.spawn (h : Ownership F K P s) (hnew : Created s s₁ K R) (hne : K ≠ R)
    (hroot : owned F {0} s₁.mem R = {R}) (hconf : Confined F {0} R s₁ s') :
    Ownership F K P s' ∧ (∀ i, Ownership F K (Function.update P i (some R)) s') ∧
      (∀ i Q, P i = some Q → owned F {0} s'.mem Q = owned F {0} s.mem Q) ∧
      pool F {0} R s' ⊆ {f | s.pmm.IsFree f} := by
  have hpool : pool F {0} R s₁ ⊆ {f | s.pmm.IsFree f} := by
    rintro f (hf | hf)
    · rw [hroot] at hf
      exact hf ▸ hnew.wasFree
    · exact ((hnew.pmm f).mp hf).1
  have hmem : ∀ x, x / 4096 ∉ {f | s.pmm.IsFree f} → s'.mem x = s.mem x := by
    intro x hx
    rw [hconf.outside x (fun hp => hx (hpool hp)), hnew.mem x]
    rintro hxR
    exact hx (hxR ▸ hnew.wasFree)
  obtain ⟨hrest, htables, howned⟩ := h.frame hmem
    (fun f hf => Or.inl (hpool (hconf.pool_subset (Or.inr hf)))) h.free_disjoint_tables
    fun j Q hj => ⟨hj, h.free_disjoint hj⟩
  have hrootK := entries_of_kept hmem
    (Set.disjoint_right.mp h.free_disjoint_tables (mem_tableFrames F s.mem K)) 0
  have hsub : owned F {0} s'.mem R ⊆ {f | s.pmm.IsFree f} := hconf.owned_subset.trans hpool
  refine ⟨hrest, fun i => hrest.insert hconf.isPrivate ?_ ?_ ?_, howned,
    hconf.pool_subset.trans hpool⟩
  · rw [hconf.sharedEntries 0 rfl, hnew.entries_eq hne, hrootK]
  · rw [htables]
    exact h.free_disjoint_tables.mono_left hsub
  · intro j Q _ hj
    rw [howned j Q hj]
    exact (h.free_disjoint hj).mono_left hsub

theorem Ownership.teardown (hF : F.Lawful) (h : Ownership F K P s) (hi : P i = some R) :
    Ownership F K (Function.update P i none) (freeProcessPageTable F s (R * 4096)) := by
  refine (h.frame (A := owned F {0} s.mem R) ?_ ?_ (h.apart i R hi) ?_).1
  · intro x _
    rw [freeProcessPageTable_mem]
  · intro f hf
    exact ((isFree_freeProcessPageTable hF s R f).mp hf).imp id fun hown => hown.1
  · intro j Q hj
    rw [Function.update_apply] at hj
    split_ifs at hj with hji
    exact ⟨hj, h.disjoint i j R Q (Ne.symm hji) hi hj⟩

end Memory

def ownedRoot (t : Task) : Option ℕ := if t.ownsMemoryRoot then some (rootFrame t) else none

/-- What holds of every task: an owner has not exited unless it is about to be left, a live
process owns its root, and owned roots are frames. -/
structure SoundTask (t : Task) (leaving : Prop) : Prop where
  owner_live : t.ownsMemoryRoot = true → t.state ≠ .terminated ∨ leaving
  ring3_owns : t.state ≠ .terminated → t.isRing3 = true → t.ownsMemoryRoot = true
  aligned : t.ownsMemoryRoot = true → t.memoryRoot = rootFrame t * 4096

structure KernelRun.Inv (kernel : ℕ) (k : KernelRun) : Prop where
  sound : ∀ i, SoundTask (k.sched.tasks i) (i = k.sched.current ∧ k.exited = true)
  caller_live : k.exited = false → k.caller.isRing3 = true → k.caller.state ≠ .terminated
  exited_dead : k.exited = true → k.caller.state = .terminated
  unused : k.sched.initialized = false → ∀ i, (k.sched.tasks i).state = .terminated
  memory : Ownership aarch64Format kernel (fun i => ownedRoot (k.sched.tasks i)) k.machine

section Runs
variable {K : Stacks} {kernel : ℕ} {k k' : KernelRun}

theorem ownedRoot_of_owns {t : Task} (h : t.ownsMemoryRoot = true) :
    ownedRoot t = some (rootFrame t) := if_pos h

theorem ownedRoot_of_not_owns {t : Task} (h : t.ownsMemoryRoot = false) : ownedRoot t = none :=
  if_neg (by rw [h]; exact Bool.false_ne_true)

theorem ownedRoot_congr {t t' : Task} (h : t.SameSpace t') : ownedRoot t' = ownedRoot t := by
  rw [ownedRoot, rootFrame, h.ownsMemoryRoot, h.memoryRoot, ownedRoot, rootFrame]

theorem SoundTask.congr {t t' : Task} {leaving : Prop} (h : SoundTask t leaving)
    (hsame : t.SameSpace t') : SoundTask t' leaving := by
  have hlive : t'.state ≠ .terminated ↔ t.state ≠ .terminated := not_congr hsame.state
  constructor
  · rw [hsame.ownsMemoryRoot, hlive]
    exact h.owner_live
  · rw [hsame.ownsMemoryRoot, hsame.isRing3, hlive]
    exact h.ring3_owns
  · rw [rootFrame, hsame.ownsMemoryRoot, hsame.memoryRoot]
    exact h.aligned

/-- A task stays sound under another current task when it is not an exited owner being left. -/
theorem SoundTask.settle {t : Task} {leaving leaving' : Prop} (h : SoundTask t leaving)
    (hstay : leaving → t.ownsMemoryRoot = true → t.state ≠ .terminated) :
    SoundTask t leaving' where
  owner_live howns := Or.inl <| (h.owner_live howns).elim id fun hl => hstay hl howns
  ring3_owns := h.ring3_owns
  aligned := h.aligned

theorem KernelRun.Inv.withMachine (h : k.Inv kernel) {s : Machine}
    (hs : Ownership aarch64Format kernel (fun i => ownedRoot (k.sched.tasks i)) s) :
    KernelRun.Inv kernel { k with machine := s } :=
  ⟨h.sound, h.caller_live, h.exited_dead, h.unused, hs⟩

theorem KernelRun.Inv.caller_owns (h : k.Inv kernel) (hexited : k.exited = false)
    (hring : k.caller.isRing3 = true) :
    ownedRoot k.caller = some (rootFrame k.caller) ∧
      k.caller.memoryRoot = rootFrame k.caller * 4096 := by
  have howns := (h.sound k.sched.current).ring3_owns (h.caller_live hexited hring) hring
  exact ⟨ownedRoot_of_owns howns, (h.sound k.sched.current).aligned howns⟩

theorem KernelRun.Inv.install (h : k.Inv kernel) (hexited : k.exited = false)
    (mode : ExecutionMode) (root : ℕ) (owns : Bool) (top : ℕ) {s : Machine}
    (hring : decide (mode = .isolatedProcess ∧ top ≠ 0) = true → owns = true)
    (halign : owns = true → root = root / 4096 * 4096)
    (hfail : Ownership aarch64Format kernel (fun i => ownedRoot (k.sched.tasks i)) s)
    (hfill : ∀ i, ownedRoot (k.sched.tasks i) = none → Ownership aarch64Format kernel
      (Function.update (fun i => ownedRoot (k.sched.tasks i)) i
        (if owns then some (root / 4096) else none)) s) :
    KernelRun.Inv kernel
      { k with sched := (k.sched.install K mode root owns top).2, machine := s } := by
  rcases Scheduler.install_fills K k.sched mode root owns top h.unused with
    heq | ⟨i, t, hi, hlive, rfl, rfl, hr, heq⟩
  · rw [heq]
    exact h.withMachine hfail
  rw [heq]
  have hnone : ownedRoot (k.sched.tasks i) = none := by
    apply ownedRoot_of_not_owns
    by_contra howns
    rw [Bool.not_eq_false] at howns
    rcases (h.sound i).owner_live howns with hl | ⟨-, hex⟩
    · exact hl hi
    · rw [hexited] at hex
      exact absurd hex (by decide)
  constructor
  · intro j
    show SoundTask (Function.update k.sched.tasks i t j) _
    by_cases hj : j = i
    · rw [hj, Function.update_self]
      exact ⟨fun _ => Or.inl hlive, fun _ h3 => hring (hr.symm.trans h3), halign⟩
    · rw [Function.update_of_ne hj]
      exact h.sound j
  · intro _
    show (Function.update k.sched.tasks i t k.sched.current).isRing3 = true →
      (Function.update k.sched.tasks i t k.sched.current).state ≠ .terminated
    by_cases hc : k.sched.current = i
    · rw [hc, Function.update_self]
      exact fun _ => hlive
    · rw [Function.update_of_ne hc]
      exact h.caller_live hexited
  · intro hcon
    exact absurd (hexited.symm.trans hcon) (by decide)
  · intro hcon
    exact Bool.noConfusion hcon
  · have hroots : (fun j => ownedRoot (Function.update k.sched.tasks i t j)) =
        Function.update (fun j => ownedRoot (k.sched.tasks j)) i (ownedRoot t) := by
      funext j
      exact Function.apply_update (fun _ => ownedRoot) k.sched.tasks i t j
    show Ownership aarch64Format kernel
      (fun j => ownedRoot (Function.update k.sched.tasks i t j)) s
    rw [hroots]
    exact hfill i hnone

theorem KernelRun.Inv.exit (h : k.Inv kernel) :
    KernelRun.Inv kernel { k with sched := k.sched.exit, exited := true } := by
  have hself : k.sched.exit.tasks k.sched.current =
      { k.sched.tasks k.sched.current with state := .terminated } := k.sched.setState_same _
  have hother : ∀ i, i ≠ k.sched.current → k.sched.exit.tasks i = k.sched.tasks i :=
    fun i hi => k.sched.setState_of_ne _ hi
  constructor
  · intro i
    show SoundTask (k.sched.exit.tasks i) (i = k.sched.current ∧ true = true)
    by_cases hi : i = k.sched.current
    · rw [hi, hself]
      exact ⟨fun _ => Or.inr ⟨rfl, rfl⟩, fun hcon => absurd rfl hcon,
        (h.sound k.sched.current).aligned⟩
    · rw [hother i hi]
      exact (h.sound i).settle fun hleaving => absurd hleaving.1 hi
  · intro hcon
    exact Bool.noConfusion hcon
  · intro _
    exact congrArg Task.state hself
  · intro hinit i
    by_cases hi : i = k.sched.current
    · show (k.sched.exit.tasks i).state = .terminated
      rw [hi, hself]
    · show (k.sched.exit.tasks i).state = .terminated
      rw [hother i hi]
      exact h.unused hinit i
  · have hroots : (fun i => ownedRoot (k.sched.exit.tasks i)) =
        fun i => ownedRoot (k.sched.tasks i) := by
      funext i
      by_cases hi : i = k.sched.current
      · rw [hi, hself]
        rfl
      · rw [hother i hi]
    show Ownership aarch64Format kernel (fun i => ownedRoot (k.sched.exit.tasks i)) k.machine
    rw [hroots]
    exact h.memory

theorem KernelRun.Inv.reclaim (h : k.Inv kernel) {c : Scheduler} {next : Slot}
    (hsame : ∀ i, (k.sched.tasks i).SameSpace (c.tasks i)) (hcurrent : c.current = next)
    (hrunning : (c.tasks next).state = .running) (hinit : c.initialized = true)
    (hne : k.sched.current ≠ next) (howns : k.caller.ownsMemoryRoot = true) {t : Task}
    (htstate : t.state = .terminated) (htowns : t.ownsMemoryRoot = false) :
    KernelRun.Inv kernel
      { sched := c.setTask k.sched.current t
        exited := false
        machine := freeProcessPageTable aarch64Format k.machine k.caller.memoryRoot } := by
  have hnext : (c.setTask k.sched.current t).tasks next = c.tasks next :=
    c.setTask_of_ne t (Ne.symm hne)
  constructor
  · intro i
    show SoundTask ((c.setTask k.sched.current t).tasks i) _
    by_cases hi : i = k.sched.current
    · rw [hi, Scheduler.setTask_same]
      exact ⟨fun hcon => absurd (htowns.symm.trans hcon) (by decide),
        fun hcon => absurd htstate hcon, fun hcon => absurd (htowns.symm.trans hcon) (by decide)⟩
    · rw [c.setTask_of_ne t hi]
      exact ((h.sound i).congr (hsame i)).settle fun hleaving => absurd hleaving.1 hi
  · intro _ _
    show ((c.setTask k.sched.current t).tasks c.current).state ≠ .terminated
    rw [hcurrent, hnext, hrunning]
    decide
  · intro hcon
    exact Bool.noConfusion hcon
  · intro hcon
    exact absurd (hinit.symm.trans hcon) (by decide)
  · have hroots : (fun i => ownedRoot ((c.setTask k.sched.current t).tasks i)) =
        Function.update (fun i => ownedRoot (k.sched.tasks i)) k.sched.current none := by
      funext i
      rw [Function.update_apply]
      split_ifs with hi
      · rw [hi, Scheduler.setTask_same, ownedRoot_of_not_owns htowns]
      · rw [c.setTask_of_ne t hi, ownedRoot_congr (hsame i)]
    have halign : k.caller.memoryRoot = rootFrame k.caller * 4096 :=
      (h.sound k.sched.current).aligned howns
    show Ownership aarch64Format kernel (fun i => ownedRoot ((c.setTask k.sched.current t).tasks i))
      (freeProcessPageTable aarch64Format k.machine k.caller.memoryRoot)
    rw [hroots, halign]
    exact h.memory.teardown aarch64Format_lawful (ownedRoot_of_owns howns)

theorem KernelRun.Inv.switch (h : k.Inv kernel) {c : Scheduler}
    (hsame : ∀ i, (k.sched.tasks i).SameSpace (c.tasks i))
    (hrunning : (c.tasks c.current).state = .running) (hinit : c.initialized = true)
    (hkeep : ¬ (k.caller.state = .terminated ∧ k.caller.ownsMemoryRoot = true)) :
    KernelRun.Inv kernel { sched := c, exited := false, machine := k.machine } := by
  constructor
  · intro i
    show SoundTask (c.tasks i) _
    have hsound := (h.sound i).congr (hsame i)
    apply hsound.settle
    rintro ⟨rfl, -⟩ howns hterm
    apply hkeep
    constructor
    · exact (hsame _).state.mp hterm
    · exact (hsame _).ownsMemoryRoot.symm.trans howns
  · intro _ _
    show (c.tasks c.current).state ≠ .terminated
    rw [hrunning]
    decide
  · intro hcon
    exact Bool.noConfusion hcon
  · intro hcon
    exact absurd (hinit.symm.trans hcon) (by decide)
  · have hroots : (fun i => ownedRoot (c.tasks i)) = fun i => ownedRoot (k.sched.tasks i) :=
      funext fun i => ownedRoot_congr (hsame i)
    show Ownership aarch64Format kernel (fun i => ownedRoot (c.tasks i)) k.machine
    rw [hroots]
    exact h.memory

theorem KernelRun.Inv.schedule (h : k.Inv kernel) (harch : K.arch = .aarch64) (root sp : ℕ) :
    ((KernelCall.schedule sp).run K root k).Inv kernel := by
  have hidle : k.sched.runSchedule sp = ⟨sp, none, k.sched⟩ →
      ((KernelCall.schedule sp).run K root k).Inv kernel := by
    intro heq
    have hrun : (KernelCall.schedule sp).run K root k = k := by simp [KernelCall.run, heq]
    rw [hrun]
    exact h
  rcases Scheduler.runSchedule_cases k.sched sp with ⟨next, hinit, hnext, heq⟩ | heq
  swap
  · exact hidle heq
  have hready := Scheduler.nextReady_ready hnext
  have hsaved := k.sched.save_sameSpace sp
  have hsame := fun i => (hsaved i).trans ((k.sched.save sp).activate_sameSpace hready i)
  have hrunning : (((k.sched.save sp).activate next).tasks next).state = .running := by
    rw [Scheduler.activate_same]
  have hinit' : ((k.sched.save sp).activate next).initialized = true :=
    (k.sched.save_initialized sp).trans hinit
  have hdead : ∀ {i}, (k.sched.tasks i).state = .terminated → i ≠ next := by
    rintro i hterm rfl
    rw [(hsaved i).state.mpr hterm] at hready
    exact TaskState.noConfusion hready
  have hexited : (k.exited && decide (next = k.sched.current)) = false := by
    rw [Bool.and_eq_false_iff, decide_eq_false_iff_not, or_iff_not_imp_left, Bool.not_eq_false]
    intro hex
    exact (hdead (h.exited_dead hex)).symm
  unfold KernelCall.run
  simp only [heq, Scheduler.switchTo_current, hexited, harch]
  by_cases hreclaim : k.caller.state = .terminated ∧ k.caller.ownsMemoryRoot = true
  · obtain ⟨hterm, howns⟩ := hreclaim
    have hterm' := (hsaved k.sched.current).state.mpr hterm
    have howns' := (hsaved k.sched.current).ownsMemoryRoot.trans howns
    have hroot' := (hsaved k.sched.current).memoryRoot
    rw [← k.sched.save_current sp] at hterm' howns'
    obtain ⟨hfreed, hsched⟩ := (k.sched.save sp).switchTo_of_dead
      (by rw [Scheduler.save_current]; exact hdead hterm) hterm' howns'
    rw [hfreed, hsched, Scheduler.save_current, hroot']
    rw [Scheduler.save_current] at hterm'
    exact h.reclaim hsame rfl hrunning hinit' (hdead hterm) howns hterm' rfl
  · have hkeep : ¬ (((k.sched.save sp).tasks (k.sched.save sp).current).state = .terminated ∧
        ((k.sched.save sp).tasks (k.sched.save sp).current).ownsMemoryRoot = true) := by
      rw [Scheduler.save_current, (hsaved _).state, (hsaved _).ownsMemoryRoot]
      exact hreclaim
    obtain ⟨hfreed, hsched⟩ := (k.sched.save sp).switchTo_of_not_dead next hkeep
    rw [hfreed, hsched]
    exact h.switch hsame hrunning hinit' hreclaim

/-- `munmap` does nothing for a kernel task, and stays under the root of a user process. -/
theorem KernelRun.Inv.munmap_cases (h : k.Inv kernel) (hexited : k.exited = false) (ptr len : ℕ) :
    (sysMunmap aarch64Format k.caller ptr len k.machine).2 = k.machine ∨
    ownedRoot k.caller = some (rootFrame k.caller) ∧
      Confined aarch64Format {0} (rootFrame k.caller) k.machine
        (sysMunmap aarch64Format k.caller ptr len k.machine).2 := by
  cases hring : k.caller.isRing3 with
  | false =>
    left
    rw [sysMunmap_of_kernel hring]
  | true =>
    obtain ⟨howns, halign⟩ := h.caller_owns hexited hring
    exact Or.inr ⟨howns, sysMunmap_confined aarch64Format_lawful (h.memory.isPrivate _ _ howns)
      h.memory.kernel (h.memory.sharedEntry _ _ howns) halign ptr len⟩

theorem KernelRun.Inv.munmap (h : k.Inv kernel) (hexited : k.exited = false) (ptr len : ℕ) :
    KernelRun.Inv kernel
      { k with machine := (sysMunmap aarch64Format k.caller ptr len k.machine).2 } := by
  apply h.withMachine
  rcases h.munmap_cases hexited ptr len with heq | ⟨howns, hconf⟩
  · rw [heq]
    exact h.memory
  · exact (h.memory.act howns hconf).1

theorem KernelRun.Inv.store (h : k.Inv kernel) (hexited : k.exited = false)
    (hring : k.caller.isRing3 = true) {m : Memory}
    (hm : ∀ x, m x ≠ k.machine.mem x →
      x / 4096 ∈ dataFrames aarch64Format k.machine.mem (rootFrame k.caller)) :
    KernelRun.Inv kernel { k with machine := { k.machine with mem := m } } := by
  obtain ⟨howns, -⟩ := h.caller_owns hexited hring
  apply h.withMachine
  exact (h.memory.act howns ((h.memory.isPrivate _ _ howns).confined.writeData hm).1).1

theorem KernelRun.Inv.spawnFromElf (h : k.Inv kernel) (harch : K.arch = .aarch64)
    (hne : kernel ≠ 0) (hexited : k.exited = false) {elf : Bytes} (helf : UserImage .aarch64 elf) :
    ((KernelCall.spawnFromElf elf).run K (kernel * 4096) k).Inv kernel := by
  rw [KernelCall.run_spawnFromElf]
  rcases spawnFromElf_cases harch (c := k.sched) hne h.memory.kernel helf with
    ⟨-, heq⟩ | ⟨R, s₁, s', c', heq, hnew, hneR, hroot, hconf, hsched, -⟩
  · rw [heq]
    exact h
  · obtain ⟨hleak, hspawn, -, -⟩ := h.memory.spawn hnew hneR hroot hconf
    rw [heq]
    rcases hsched with rfl | rfl
    · exact h.withMachine hleak
    · apply h.install hexited _ _ _ _ (fun _ => rfl) (fun _ => ?_) hleak (fun i _ => ?_)
      · rw [Nat.mul_div_cancel R (by decide)]
      · rw [if_pos rfl, Nat.mul_div_cancel R (by decide)]
        exact hspawn i

theorem KernelRun.Inv.spawnThread (h : k.Inv kernel) (hexited : k.exited = false) :
    KernelRun.Inv kernel { k with sched := (k.sched.spawn K .sharedThread none 0).2 } := by
  apply h.install hexited .sharedThread k.sched.activeRoot false 0 _ _ h.memory
  · intro i hnone
    rw [if_neg Bool.false_ne_true, ← hnone, Function.update_eq_self]
    exact h.memory
  · exact fun hcon => absurd hcon (by decide)
  · exact fun hcon => Bool.noConfusion hcon

theorem KernelRun.Inv.step (h : k.Inv kernel) (harch : K.arch = .aarch64) (hne : kernel ≠ 0)
    (hstep : KernelStep K (kernel * 4096) k k') : k'.Inv kernel := by
  obtain ⟨c, hvalid, rfl⟩ := hstep
  rw [harch] at hvalid
  cases c with
  | spawnThread => exact h.spawnThread hvalid
  | spawnFromElf elf => exact h.spawnFromElf harch hne hvalid.1 hvalid.2
  | munmap ptr len =>
    have hafter := h.munmap hvalid ptr len
    unfold KernelCall.run
    rw [harch]
    exact hafter
  | store m => exact h.store hvalid.1 hvalid.2.1 hvalid.2.2
  | exit => exact h.exit
  | schedule sp => exact h.schedule harch _ sp

theorem KernelRun.Inv.of_run (h : k.Inv kernel) (harch : K.arch = .aarch64) (hne : kernel ≠ 0)
    (hrun : Relation.ReflTransGen (KernelStep K (kernel * 4096)) k k') : k'.Inv kernel := by
  induction hrun with
  | refl => exact h
  | tail _ hstep ih => exact ih.step harch hne hstep

end Runs

def KernelRun.boot (kernel : ℕ) (s : Machine) : KernelRun where
  sched := .boot (kernel * 4096)
  exited := false
  machine := s

theorem KernelRun.Inv.boot {kernel : ℕ} {s : Machine} (h : KernelRoot aarch64Format kernel s) :
    (KernelRun.boot kernel s).Inv kernel where
  sound _ := ⟨fun hcon => Bool.noConfusion hcon, fun hcon => absurd rfl hcon,
    fun hcon => Bool.noConfusion hcon⟩
  caller_live _ hcon := Bool.noConfusion hcon
  exited_dead hcon := Bool.noConfusion hcon
  unused _ _ := rfl
  memory := by
    have hnone : ∀ i R, ownedRoot ((KernelRun.boot kernel s).sched.tasks i) ≠ some R := by
      intro i R hcon
      rw [ownedRoot_of_not_owns rfl] at hcon
      exact absurd hcon (by simp)
    exact ⟨h, fun i R hi => absurd hi (hnone i R), fun i R hi => absurd hi (hnone i R),
      fun i R hi => absurd hi (hnone i R), fun i j R Q _ hi => absurd hi (hnone i R)⟩

/-- Slot `i` holds a user process that has not exited. -/
def KernelRun.LiveProcess (k : KernelRun) (i : Slot) : Prop :=
  (k.sched.tasks i).state ≠ .terminated ∧ (k.sched.tasks i).isRing3 = true

/-- The root, the tables and the data pages of slot `i` behind the top-level entries 1..511. -/
def KernelRun.frames (k : KernelRun) (i : Slot) : Set ℕ :=
  owned aarch64Format {0} k.machine.mem (rootFrame (k.sched.tasks i))

/-- In every run on aarch64 that starts on a kernel root as `mmu::init` builds it, the frames of
distinct live processes are disjoint, apart from the kernel's tables, and not in the pool. -/
theorem live_processes_disjoint (K : Stacks) (harch : K.arch = .aarch64) (kernel : ℕ)
    (hne : kernel ≠ 0) (s : Machine) (hroot : KernelRoot aarch64Format kernel s) (k : KernelRun)
    (hrun : Relation.ReflTransGen (KernelStep K (kernel * 4096)) (KernelRun.boot kernel s) k) :
    (∀ i j, i ≠ j → k.LiveProcess i → k.LiveProcess j → Disjoint (k.frames i) (k.frames j)) ∧
    ∀ i, k.LiveProcess i →
      Disjoint (k.frames i) (tableFrames aarch64Format k.machine.mem kernel) ∧
      Disjoint (k.frames i) {f | k.machine.pmm.IsFree f} := by
  have h := (KernelRun.Inv.boot hroot).of_run harch hne hrun
  have howns : ∀ i, k.LiveProcess i →
      ownedRoot (k.sched.tasks i) = some (rootFrame (k.sched.tasks i)) := by
    intro i hi
    exact ownedRoot_of_owns ((h.sound i).ring3_owns hi.1 hi.2)
  constructor
  · intro i j hij hi hj
    exact h.memory.disjoint i j _ _ hij (howns i hi) (howns j hj)
  · intro i hi
    constructor
    · exact h.memory.apart i _ (howns i hi)
    · exact (h.memory.free_disjoint (howns i hi)).symm

section Traces

/-- A kernel root at frame 1 that maps one page, with 29 frames left in the pool. -/
def kernelMachine : Machine :=
  (mapPage aarch64Format ⟨fun _ => 0, BitmapAllocator.new.freeRange 0x100 32⟩ (1 * 4096) 0 0
    normalFlags).2

def userElf : Bytes := oneSegmentElf .aarch64 0x8000000000

def kernelStacks : Stacks := { exampleStacks with arch := .aarch64 }

/-- Two processes from one file, of which the first then unmaps its only segment. -/
def twoProcesses : KernelRun :=
  (KernelCall.munmap 0x8000000000 0x1000).run kernelStacks (1 * 4096)
    ((KernelCall.spawnFromElf userElf).run kernelStacks (1 * 4096)
      ((KernelCall.spawnFromElf userElf).run kernelStacks (1 * 4096) (.boot 1 kernelMachine)))

theorem spawnFromElf_exited (K : Stacks) (root : ℕ) (elf : Bytes) (k : KernelRun) :
    ((KernelCall.spawnFromElf elf).run K root k).exited = k.exited := rfl

theorem kernelMachine_kernelRoot : KernelRoot aarch64Format 1 kernelMachine := by
  have hzero : ZeroedRoot 1 ⟨fun _ => 0, BitmapAllocator.new.freeRange 0x100 32⟩ := by
    constructor
    · exact fun _ _ => rfl
    · decide
  exact (hzero.kernelRoot aarch64Format_lawful).mapPage aarch64Format_lawful (by decide) (by decide)
    rfl

theorem userElf_userImage : UserImage .aarch64 userElf := by
  have hheader : readHeader .aarch64 userElf = .ok ⟨0x8000000000, 64, 56, 1⟩ := by decide +kernel
  have hsegments : attemptedSegments userElf ⟨0x8000000000, 64, 56, 1⟩ (List.range 1) =
      [⟨0x8000000000, [], 1, 6⟩] := by decide +kernel
  intro h hh seg hseg
  obtain rfl := Except.ok.inj (hheader.symm.trans hh)
  rw [hsegments, List.mem_singleton] at hseg
  subst hseg
  decide

/-- The two processes stay apart, and the unmapped page is back in the pool. -/
theorem live_processes_disjoint_munmap :
    twoProcesses.LiveProcess 0 ∧ twoProcesses.LiveProcess 1 ∧
      twoProcesses.machine.pmm.IsFree 0x104 ∧
      Disjoint (twoProcesses.frames 0) (twoProcesses.frames 1) := by
  have hfacts : twoProcesses.LiveProcess 0 ∧ twoProcesses.LiveProcess 1 ∧
      twoProcesses.machine.pmm.IsFree 0x104 := by
    unfold KernelRun.LiveProcess
    decide +kernel
  obtain ⟨hfirst, hsecond, hfree⟩ := hfacts
  have hrun : Relation.ReflTransGen (KernelStep kernelStacks (1 * 4096))
      (KernelRun.boot 1 kernelMachine) twoProcesses := by
    have hspawn : ∀ {k : KernelRun}, k.exited = false → KernelStep kernelStacks (1 * 4096) k
        ((KernelCall.spawnFromElf userElf).run kernelStacks (1 * 4096) k) :=
      fun hexited => ⟨.spawnFromElf userElf, ⟨hexited, userElf_userImage⟩, rfl⟩
    have hstay : ∀ k : KernelRun, k.exited = false →
        ((KernelCall.spawnFromElf userElf).run kernelStacks (1 * 4096) k).exited = false :=
      fun k hexited => (spawnFromElf_exited kernelStacks (1 * 4096) userElf k).trans hexited
    have hboot : (KernelRun.boot 1 kernelMachine).exited = false := rfl
    have htwo := (Relation.ReflTransGen.single (hspawn hboot)).tail (hspawn (hstay _ hboot))
    exact htwo.tail ⟨.munmap 0x8000000000 0x1000, hstay _ (hstay _ hboot), rfl⟩
  refine ⟨hfirst, hsecond, hfree, ?_⟩
  exact (live_processes_disjoint kernelStacks rfl 1 (by decide) kernelMachine
    kernelMachine_kernelRoot twoProcesses hrun).1 0 1 (by decide) hfirst hsecond

end Traces

end MitosOS.Kernel
