import MitosOS.Kernel.Ownership

/-! The frames of one process on aarch64, from `spawn_from_elf` to the `run_schedule` call that
reclaims its address space. -/
namespace MitosOS.Kernel
open MitosOS.Lib MitosOS.Memory MitosOS.Paging MitosOS.Elf MitosOS.Tasks

/-- What may happen from `k₁` on while slot `i` holds its process: the process unmaps pages, and
every other call leaves the allocator alone. The list has the frames unmapped so far. -/
inductive Life (K : Stacks) (kernelRoot : ℕ) (i : Slot) (k₁ : KernelRun) :
    List ℕ → KernelRun → Prop where
  | start : Life K kernelRoot i k₁ [] k₁
  | munmap {l : List ℕ} {k : KernelRun} (h : Life K kernelRoot i k₁ l k)
    (hcurrent : k.sched.current = i) (hexited : k.exited = false) (ptr len : ℕ) :
    Life K kernelRoot i k₁ (l ++ sysMunmapFrees K.arch.format k.caller ptr len k.machine)
      ((KernelCall.munmap ptr len).run K kernelRoot k)
  | other {l : List ℕ} {k : KernelRun} (h : Life K kernelRoot i k₁ l k) (c : KernelCall)
    (hvalid : c.Valid K.arch.format K.arch k)
    (hpmm : (c.run K kernelRoot k).machine.pmm = k.machine.pmm) :
    Life K kernelRoot i k₁ l (c.run K kernelRoot k)

/-- The current task has exited and still owns its root. -/
def KernelRun.LeavesRoot (k : KernelRun) : Prop :=
  k.caller.state = .terminated ∧ k.caller.ownsMemoryRoot = true

theorem ownedRoot_exit (c : Scheduler) (i : Slot) :
    ownedRoot (c.exit.tasks i) = ownedRoot (c.tasks i) := by
  by_cases hi : i = c.current
  · rw [hi, Scheduler.exit, Scheduler.setState_same]
    rfl
  · rw [Scheduler.exit, Scheduler.setState_of_ne _ _ hi]

theorem KernelCall.exit_machine (K : Stacks) (root : ℕ) (k : KernelRun) :
    (KernelCall.exit.run K root k).machine = k.machine := rfl

theorem KernelCall.schedule_machine (K : Stacks) (root : ℕ) {k : KernelRun} {sp : ℕ}
    (h : (k.sched.runSchedule sp).freed = none) :
    ((KernelCall.schedule sp).run K root k).machine = k.machine := by
  simp [KernelCall.run, h]

/-- What `run_schedule` can do to the address spaces: nothing, or a switch, which reclaims exactly
the root that the task it leaves has no more use for. -/
theorem KernelRun.schedule_cases (K : Stacks) (root : ℕ) (k : KernelRun) (sp : ℕ) :
    (KernelCall.schedule sp).run K root k = k ∨
    (¬ k.LeavesRoot ∧ ((KernelCall.schedule sp).run K root k).machine = k.machine ∧
      ∀ i, (k.sched.tasks i).SameSpace (((KernelCall.schedule sp).run K root k).sched.tasks i)) ∨
    (k.LeavesRoot ∧ ((KernelCall.schedule sp).run K root k).machine =
        freeProcessPageTable K.arch.format k.machine k.caller.memoryRoot ∧
      (∀ i, i ≠ k.sched.current →
        (k.sched.tasks i).SameSpace (((KernelCall.schedule sp).run K root k).sched.tasks i)) ∧
      ownedRoot (((KernelCall.schedule sp).run K root k).sched.tasks k.sched.current) = none) := by
  have hidle : k.sched.runSchedule sp = ⟨sp, none, k.sched⟩ →
      (KernelCall.schedule sp).run K root k = k := by
    intro heq
    simp [KernelCall.run, heq]
  rcases Scheduler.runSchedule_cases k.sched sp with ⟨next, -, hnext, heq⟩ | heq
  swap
  · exact Or.inl (hidle heq)
  right
  have hready := Scheduler.nextReady_ready hnext
  have hsaved := k.sched.save_sameSpace sp
  have hsame := fun i => (hsaved i).trans ((k.sched.save sp).activate_sameSpace hready i)
  have hcaller : k.caller.SameSpace ((k.sched.save sp).tasks (k.sched.save sp).current) := by
    rw [Scheduler.save_current]
    exact hsaved k.sched.current
  unfold KernelCall.run
  simp only [heq]
  by_cases hdead : k.LeavesRoot
  · right
    have hterm := hcaller.state.mpr hdead.1
    have howns := hcaller.ownsMemoryRoot.trans hdead.2
    have hne : (k.sched.save sp).current ≠ next := by
      intro hcon
      rw [hcon, hready] at hterm
      exact TaskState.noConfusion hterm
    obtain ⟨hfreed, hsched⟩ := (k.sched.save sp).switchTo_of_dead hne hterm howns
    rw [hfreed, hsched, hcaller.memoryRoot, Scheduler.save_current]
    refine ⟨hdead, rfl, fun i hi => ?_, ?_⟩
    · rw [Scheduler.setTask_of_ne _ _ hi]
      exact hsame i
    · rw [Scheduler.setTask_same, ownedRoot_of_not_owns rfl]
  · left
    have hkeep : ¬ (((k.sched.save sp).tasks (k.sched.save sp).current).state = .terminated ∧
        ((k.sched.save sp).tasks (k.sched.save sp).current).ownsMemoryRoot = true) := by
      rw [hcaller.state, hcaller.ownsMemoryRoot]
      exact hdead
    obtain ⟨hfreed, hsched⟩ := (k.sched.save sp).switchTo_of_not_dead next hkeep
    rw [hfreed, hsched]
    exact ⟨hdead, rfl, hsame⟩

/-- The frames that are in the pool or belong to a process. -/
def KernelRun.circulating (k : KernelRun) : Set ℕ :=
  {f | k.machine.pmm.IsFree f ∨
    ∃ i R, ownedRoot (k.sched.tasks i) = some R ∧ f ∈ owned aarch64Format {0} k.machine.mem R}

section Circulation
variable {K : Stacks} {kernel : ℕ} {k k' : KernelRun}

theorem KernelRun.Inv.circulating_act (h : k.Inv kernel)
    (howns : ownedRoot k.caller = some (rootFrame k.caller)) {s : Machine}
    (hconf : Confined aarch64Format {0} (rootFrame k.caller) k.machine s) :
    KernelRun.circulating { k with machine := s } ⊆ k.circulating := by
  have hpool : ∀ f ∈ pool aarch64Format {0} (rootFrame k.caller) k.machine, f ∈ k.circulating := by
    rintro f (hf | hf)
    · exact Or.inr ⟨k.sched.current, _, howns, hf⟩
    · exact Or.inl hf
  rintro f (hf | ⟨j, Q, hj, hf⟩)
  · exact hpool f (hconf.pool_subset (Or.inr hf))
  · by_cases hcurrent : j = k.sched.current
    · subst hcurrent
      obtain rfl : rootFrame k.caller = Q := Option.some.inj (howns.symm.trans hj)
      exact hpool f (hconf.owned_subset hf)
    · rw [(h.memory.act howns hconf).2 j Q hcurrent hj] at hf
      exact Or.inr ⟨j, Q, hj, hf⟩

theorem KernelRun.Inv.circulating_install (h : k.Inv kernel) (mode : ExecutionMode) (root : ℕ)
    (owns : Bool) (top : ℕ) {s : Machine} {A : Set ℕ}
    (hfree : ∀ f, s.pmm.IsFree f → f ∈ A)
    (hold : ∀ i R f, ownedRoot (k.sched.tasks i) = some R →
      f ∈ owned aarch64Format {0} s.mem R → f ∈ A)
    (hnew : owns = true → ∀ f ∈ owned aarch64Format {0} s.mem (root / 4096), f ∈ A) :
    KernelRun.circulating
      { k with sched := (k.sched.install K mode root owns top).2, machine := s } ⊆ A := by
  rintro f (hf | ⟨j, Q, hj, hf⟩)
  · exact hfree f hf
  · rcases Scheduler.install_fills K k.sched mode root owns top h.unused with
      heq | ⟨i, t, -, -, rfl, rfl, -, heq⟩
    · dsimp only at hj
      rw [heq] at hj
      exact hold j Q f hj hf
    · dsimp only at hj
      rw [heq] at hj
      change ownedRoot (Function.update k.sched.tasks i t j) = some Q at hj
      by_cases hij : j = i
      · rw [hij, Function.update_self] at hj
        unfold ownedRoot at hj
        split_ifs at hj with howns
        obtain rfl : rootFrame t = Q := Option.some.inj hj
        exact hnew howns f hf
      · rw [Function.update_of_ne hij] at hj
        exact hold j Q f hj hf

theorem KernelRun.Inv.circulating_spawnFromElf (h : k.Inv kernel) (harch : K.arch = .aarch64)
    (hne : kernel ≠ 0) {elf : Bytes} (helf : UserImage .aarch64 elf) :
    ((KernelCall.spawnFromElf elf).run K (kernel * 4096) k).circulating ⊆ k.circulating := by
  rw [KernelCall.run_spawnFromElf]
  rcases spawnFromElf_cases harch (c := k.sched) hne h.memory.kernel helf with
    ⟨-, heq⟩ | ⟨R, s₁, s', c', heq, hnew, hneR, hroot, hconf, hsched, -⟩
  · rw [heq]
  · obtain ⟨-, -, howned, hpool⟩ := h.memory.spawn hnew hneR hroot hconf
    rw [heq]
    have hfree : ∀ f, s'.pmm.IsFree f → f ∈ k.circulating := fun f hf => Or.inl (hpool (Or.inr hf))
    have hold : ∀ i Q f, ownedRoot (k.sched.tasks i) = some Q →
        f ∈ owned aarch64Format {0} s'.mem Q → f ∈ k.circulating := by
      intro i Q f hi hf
      rw [howned i Q hi] at hf
      exact Or.inr ⟨i, Q, hi, hf⟩
    rcases hsched with rfl | rfl
    · rintro f (hf | ⟨i, Q, hi, hf⟩)
      · exact hfree f hf
      · exact hold i Q f hi hf
    · apply h.circulating_install .isolatedProcess (R * 4096) true userStackTop hfree hold
      intro _ f hf
      rw [Nat.mul_div_cancel R (by decide)] at hf
      exact Or.inl (hpool (Or.inl hf))

theorem KernelRun.Inv.circulating_schedule (h : k.Inv kernel) (harch : K.arch = .aarch64)
    (root sp : ℕ) : ((KernelCall.schedule sp).run K root k).circulating ⊆ k.circulating := by
  rcases KernelRun.schedule_cases K root k sp with
    heq | ⟨-, hmachine, hsame⟩ | ⟨hleaves, hmachine, hsame, hgone⟩
  · rw [heq]
  · rintro f (hf | ⟨i, R, hi, hf⟩)
    · rw [hmachine] at hf
      exact Or.inl hf
    · rw [hmachine] at hf
      exact Or.inr ⟨i, R, (ownedRoot_congr (hsame i)).symm.trans hi, hf⟩
  · have halign : k.caller.memoryRoot = rootFrame k.caller * 4096 :=
      (h.sound k.sched.current).aligned hleaves.2
    rintro f (hf | ⟨i, R, hi, hf⟩)
    · rw [hmachine, halign, harch] at hf
      rcases (isFree_freeProcessPageTable aarch64Format_lawful _ _ f).mp hf with hf | ⟨hf, -, -⟩
      · exact Or.inl hf
      · exact Or.inr ⟨k.sched.current, _, ownedRoot_of_owns hleaves.2, hf⟩
    · rw [hmachine, freeProcessPageTable_mem] at hf
      by_cases hcurrent : i = k.sched.current
      · rw [hcurrent, hgone] at hi
        exact absurd hi (by simp)
      · exact Or.inr ⟨i, R, (ownedRoot_congr (hsame i hcurrent)).symm.trans hi, hf⟩

theorem KernelRun.Inv.circulating_step (h : k.Inv kernel) (harch : K.arch = .aarch64)
    (hne : kernel ≠ 0) (hstep : KernelStep K (kernel * 4096) k k') :
    k'.circulating ⊆ k.circulating := by
  obtain ⟨c, hvalid, rfl⟩ := hstep
  rw [harch] at hvalid
  cases c with
  | spawnThread =>
    apply h.circulating_install .sharedThread k.sched.activeRoot false 0
    · exact fun f hf => Or.inl hf
    · exact fun i R f hi hf => Or.inr ⟨i, R, hi, hf⟩
    · exact fun hcon => Bool.noConfusion hcon
  | spawnFromElf elf => exact h.circulating_spawnFromElf harch hne hvalid.2
  | munmap ptr len =>
    show KernelRun.circulating
      { k with machine := (sysMunmap K.arch.format k.caller ptr len k.machine).2 } ⊆ _
    rw [harch]
    rcases h.munmap_cases hvalid ptr len with heq | ⟨howns, hconf⟩
    · exact (congrArg (fun s => KernelRun.circulating { k with machine := s }) heq).subset
    · exact h.circulating_act howns hconf
  | store m =>
    obtain ⟨howns, -⟩ := h.caller_owns hvalid.1 hvalid.2.1
    exact h.circulating_act howns
      ((h.memory.isPrivate _ _ howns).confined.writeData hvalid.2.2).1
  | exit =>
    rintro f (hf | ⟨i, R, hi, hf⟩)
    · exact Or.inl hf
    · exact Or.inr ⟨i, R, (ownedRoot_exit k.sched i).symm.trans hi, hf⟩
  | schedule sp => exact h.circulating_schedule harch (kernel * 4096) sp

theorem KernelRun.Inv.circulating_run (h : k.Inv kernel) (harch : K.arch = .aarch64)
    (hne : kernel ≠ 0) (hrun : Relation.ReflTransGen (KernelStep K (kernel * 4096)) k k') :
    k'.circulating ⊆ k.circulating := by
  induction hrun with
  | refl => exact subset_rfl
  | tail hbefore hstep ih =>
    exact ((h.of_run harch hne hbefore).circulating_step harch hne hstep).trans ih

end Circulation

/-- Slot `i` owns root `R`, and the process and the pool share out `frames` between them. -/
structure KernelRun.Hosts (kernel : ℕ) (i : Slot) (R : ℕ) (frames : Set ℕ) (k : KernelRun) :
    Prop where
  inv : k.Inv kernel
  root : ownedRoot (k.sched.tasks i) = some R
  pool : pool aarch64Format {0} R k.machine = frames

section Life
variable {K : Stacks} {kernel R : ℕ} {i : Slot} {frames : Set ℕ} {k : KernelRun}

theorem eq_of_ownedRoot {t : Task} (h : ownedRoot t = some R) :
    t.ownsMemoryRoot = true ∧ rootFrame t = R := by
  unfold ownedRoot at h
  split_ifs at h with howns
  exact ⟨howns, Option.some.inj h⟩

theorem KernelRun.Hosts.not_isFree (h : k.Hosts kernel i R frames) : ¬ k.machine.pmm.IsFree R :=
  (h.inv.memory.isPrivate i R h.root).reserved R (root_mem_owned _ _ _ _)

theorem KernelRun.Hosts.quiet (h : k.Hosts kernel i R frames) {k' : KernelRun}
    (hinv : k'.Inv kernel) (hroot : ownedRoot (k'.sched.tasks i) = ownedRoot (k.sched.tasks i))
    (hpmm : k'.machine.pmm = k.machine.pmm)
    (howned : owned aarch64Format {0} k'.machine.mem R = owned aarch64Format {0} k.machine.mem R) :
    k'.Hosts kernel i R frames where
  inv := hinv
  root := hroot.trans h.root
  pool := by
    rw [← h.pool]
    unfold Paging.pool
    rw [hpmm, howned]

theorem KernelRun.Hosts.owned_of_confined (h : k.Hosts kernel i R frames) {s : Machine}
    (howns : ownedRoot k.caller = some (rootFrame k.caller)) (hne : k.sched.current ≠ i)
    (hconf : Confined aarch64Format {0} (rootFrame k.caller) k.machine s) :
    owned aarch64Format {0} s.mem R = owned aarch64Format {0} k.machine.mem R :=
  (h.inv.memory.act howns hconf).2 i R hne.symm h.root

theorem KernelRun.Hosts.caller_root (h : k.Hosts kernel i R frames) (hcurrent : k.sched.current = i) :
    rootFrame k.caller = R ∧ k.caller.memoryRoot = R * 4096 := by
  subst hcurrent
  obtain ⟨howns, hframe⟩ := eq_of_ownedRoot h.root
  have halign : k.caller.memoryRoot = rootFrame k.caller * 4096 :=
    (h.inv.sound k.sched.current).aligned howns
  exact ⟨hframe, halign.trans (congrArg (· * 4096) hframe)⟩

theorem KernelRun.Hosts.munmap (h : k.Hosts kernel i R frames) (harch : K.arch = .aarch64)
    (htracked : ∀ f ∈ frames, f ≠ 0 ∧ f < 65536) (hcurrent : k.sched.current = i)
    (hexited : k.exited = false) (root ptr len : ℕ) :
    ((KernelCall.munmap ptr len).run K root k).Hosts kernel i R frames ∧
      Returned k.machine ((KernelCall.munmap ptr len).run K root k).machine
        (sysMunmapFrees K.arch.format k.caller ptr len k.machine) := by
  have halign := (h.caller_root hcurrent).2
  subst hcurrent
  obtain ⟨hret, hpool⟩ := sysMunmap_returns aarch64Format_lawful
    (h.inv.memory.isPrivate _ R h.root) h.inv.memory.kernel (h.inv.memory.sharedEntry _ R h.root)
    (h.pool ▸ htracked) halign ptr len
  have hinv := h.inv.munmap hexited ptr len
  unfold KernelCall.run
  rw [harch]
  exact ⟨⟨hinv, h.root, hpool.trans h.pool⟩, hret⟩

theorem KernelRun.Hosts.ne_of_terminated (h : k.Hosts kernel i R frames) (hexited : k.exited = false)
    {j : Slot} (hj : (k.sched.tasks j).state = .terminated) : i ≠ j := by
  rintro rfl
  rcases (h.inv.sound i).owner_live (eq_of_ownedRoot h.root).1 with hlive | ⟨-, hex⟩
  · exact hlive hj
  · exact absurd (hexited.symm.trans hex) (by decide)

/-- A process that is started takes its root out of the pool, so here nothing was started. -/
theorem KernelRun.Hosts.spawnFromElf (h : k.Hosts kernel i R frames) (harch : K.arch = .aarch64)
    (hne : kernel ≠ 0) {elf : Bytes} (helf : UserImage .aarch64 elf)
    (hpmm : ((KernelCall.spawnFromElf elf).run K (kernel * 4096) k).machine.pmm = k.machine.pmm) :
    ((KernelCall.spawnFromElf elf).run K (kernel * 4096) k).Hosts kernel i R frames := by
  rw [KernelCall.run_spawnFromElf] at hpmm ⊢
  rcases spawnFromElf_cases harch (c := k.sched) hne h.inv.memory.kernel helf with
    ⟨-, heq⟩ | ⟨Q, s₁, s', c', heq, hnew, -, -, hconf, -, -⟩
  · rw [heq]
    exact h
  · rw [heq] at hpmm
    have hfree : s'.pmm.IsFree Q := by
      rw [show s'.pmm = k.machine.pmm from hpmm]
      exact hnew.wasFree
    exact absurd hfree (hconf.isPrivate.reserved Q (root_mem_owned _ _ _ _))

theorem KernelRun.Hosts.store (h : k.Hosts kernel i R frames) (hexited : k.exited = false)
    (hring : k.caller.isRing3 = true) {m : Memory}
    (hm : ∀ x, m x ≠ k.machine.mem x →
      x / 4096 ∈ dataFrames aarch64Format k.machine.mem (rootFrame k.caller)) :
    KernelRun.Hosts kernel i R frames { k with machine := { k.machine with mem := m } } := by
  obtain ⟨howns, -⟩ := h.inv.caller_owns hexited hring
  obtain ⟨hconf, hsame⟩ := (h.inv.memory.isPrivate _ _ howns).confined.writeData hm
  apply h.quiet (h.inv.store hexited hring hm) rfl rfl
  by_cases hcurrent : k.sched.current = i
  · rw [(h.caller_root hcurrent).1] at hsame
    exact hsame
  · exact h.owned_of_confined howns hcurrent hconf

theorem KernelRun.Hosts.schedule (h : k.Hosts kernel i R frames) (harch : K.arch = .aarch64)
    (htracked : ∀ f ∈ frames, f ≠ 0 ∧ f < 65536) {root sp : ℕ}
    (hpmm : ((KernelCall.schedule sp).run K root k).machine.pmm = k.machine.pmm) :
    ((KernelCall.schedule sp).run K root k).Hosts kernel i R frames := by
  have hinv := h.inv.schedule harch root sp
  rcases KernelRun.schedule_cases K root k sp with
    heq | ⟨-, hmachine, hsame⟩ | ⟨hleaves, hmachine, hsame, -⟩
  · rw [heq]
    exact h
  · apply h.quiet hinv (ownedRoot_congr (hsame i)) hpmm
    rw [hmachine]
  · have hi : i ≠ k.sched.current := by
      intro hcurrent
      have hroot := root_mem_owned aarch64Format {0} k.machine.mem R
      have hmem : R ∈ frames := h.pool ▸ Or.inl hroot
      apply h.not_isFree
      rw [← hpmm, hmachine, (h.caller_root hcurrent.symm).2, harch]
      exact (isFree_freeProcessPageTable aarch64Format_lawful _ R R).mpr
        (Or.inr ⟨hroot, htracked R hmem⟩)
    apply h.quiet hinv (ownedRoot_congr (hsame i hi)) hpmm
    rw [hmachine, freeProcessPageTable_mem]

theorem KernelRun.Hosts.other (h : k.Hosts kernel i R frames) (harch : K.arch = .aarch64)
    (hne : kernel ≠ 0) (htracked : ∀ f ∈ frames, f ≠ 0 ∧ f < 65536) {c : KernelCall}
    (hvalid : c.Valid K.arch.format K.arch k)
    (hpmm : (c.run K (kernel * 4096) k).machine.pmm = k.machine.pmm) :
    (c.run K (kernel * 4096) k).Hosts kernel i R frames := by
  have hinv : (c.run K (kernel * 4096) k).Inv kernel := h.inv.step harch hne ⟨c, hvalid, rfl⟩
  rw [harch] at hvalid
  cases c with
  | spawnThread =>
    apply h.quiet hinv _ hpmm rfl
    rcases Scheduler.install_fills K k.sched .sharedThread k.sched.activeRoot false 0 h.inv.unused
      with heq | ⟨j, t, hj, -, -, -, -, heq⟩
    · exact congrArg (fun c : Scheduler => ownedRoot (c.tasks i)) heq
    · have hij := h.ne_of_terminated hvalid hj
      have htask := congrArg (fun c : Scheduler => c.tasks i) heq
      exact congrArg ownedRoot (htask.trans (Function.update_of_ne hij t k.sched.tasks))
  | spawnFromElf elf => exact h.spawnFromElf harch hne hvalid.2 hpmm
  | munmap ptr len =>
    by_cases hcurrent : k.sched.current = i
    · exact (h.munmap harch htracked hcurrent hvalid (kernel * 4096) ptr len).1
    · apply h.quiet hinv rfl hpmm
      show owned aarch64Format {0} (sysMunmap K.arch.format k.caller ptr len k.machine).2.mem R = _
      rw [harch]
      rcases h.inv.munmap_cases hvalid ptr len with heq | ⟨howns, hconf⟩
      · exact congrArg (fun s : Machine => owned aarch64Format {0} s.mem R) heq
      · exact h.owned_of_confined howns hcurrent hconf
  | store m => exact h.store hvalid.1 hvalid.2.1 hvalid.2.2
  | exit => exact h.quiet hinv (ownedRoot_exit k.sched i) hpmm rfl
  | schedule sp => exact h.schedule harch htracked hpmm

/-- Along a life the process keeps its root, and what it unmapped is what came back. -/
theorem Life.hosts {k₁ : KernelRun} {l : List ℕ} (hlife : Life K (kernel * 4096) i k₁ l k)
    (harch : K.arch = .aarch64) (hne : kernel ≠ 0)
    (htracked : ∀ f ∈ frames, f ≠ 0 ∧ f < 65536) (h : k₁.Hosts kernel i R frames) :
    k.Hosts kernel i R frames ∧ Returned k₁.machine k.machine l := by
  induction hlife with
  | start => exact ⟨h, .of_pmm_eq rfl⟩
  | munmap _ hcurrent hexited ptr len ih =>
    obtain ⟨hhosts, hret⟩ := ih.1.munmap harch htracked hcurrent hexited (kernel * 4096) ptr len
    exact ⟨hhosts, ih.2.trans hret⟩
  | other _ c hvalid hpmm ih =>
    refine ⟨ih.1.other harch hne htracked hvalid hpmm, ?_⟩
    have hret := ih.2.trans (.of_pmm_eq hpmm)
    rwa [List.append_nil] at hret

/-- A successful spawn hands the frames of the pool to the process and leaves it the rest. -/
theorem KernelRun.Inv.hosts_spawned (h : k.Inv kernel) (harch : K.arch = .aarch64) (hne : kernel ≠ 0)
    (hexited : k.exited = false) {elf : Bytes} (helf : UserImage .aarch64 elf)
    (hspawn : (Kernel.spawnFromElf K (kernel * 4096) elf k.sched k.machine).1 = .ok true)
    (hbefore : (k.sched.tasks i).state = .terminated)
    (hafter : (((KernelCall.spawnFromElf elf).run K (kernel * 4096) k).sched.tasks i).state ≠
      .terminated) :
    ∃ R, ((KernelCall.spawnFromElf elf).run K (kernel * 4096) k).Hosts kernel i R
      {f | k.machine.pmm.IsFree f} := by
  have hinv := h.spawnFromElf harch hne hexited helf
  rw [KernelCall.run_spawnFromElf] at hinv hafter ⊢
  rcases spawnFromElf_cases harch (c := k.sched) hne h.memory.kernel helf with
    ⟨hfail, -⟩ | ⟨R, s₁, s', c', heq, hnew, -, howned, -, -, hok⟩
  · exact absurd hspawn hfail
  obtain ⟨hpool, hinstall⟩ := hok hspawn
  rw [heq] at hinv hafter ⊢
  refine ⟨R, hinv, ?_, ?_⟩
  · have hc : c' = (k.sched.install K .isolatedProcess (R * 4096) true userStackTop).2 :=
      (congrArg Prod.snd hinstall).symm
    subst hc
    rcases Scheduler.install_fills K k.sched .isolatedProcess (R * 4096) true userStackTop h.unused
      with hsame | ⟨j, t, -, -, hroot, howns, -, hfill⟩
    · rw [hsame] at hafter
      exact absurd hbefore hafter
    · rw [hfill] at hafter ⊢
      dsimp only at hafter ⊢
      by_cases hij : i = j
      · rw [hij, Function.update_self, ownedRoot_of_owns howns, rootFrame, hroot,
          Nat.mul_div_cancel R (by decide)]
      · rw [Function.update_of_ne hij] at hafter
        exact absurd hbefore hafter
  · show pool aarch64Format {0} R s' = _
    rw [hpool]
    ext f
    simp only [pool, howned, hnew.pmm, Set.mem_singleton_iff, Set.mem_ofPred_eq]
    constructor
    · rintro (rfl | hf)
      · exact hnew.wasFree
      · exact hf.1
    · intro hf
      exact (eq_or_ne f R).imp id fun hfR => ⟨hf, hfR⟩

end Life

theorem freeProcessPageTable_returns {F : Format} (hF : F.Lawful) {R : ℕ} {s : Machine}
    (h : Private F {0} R s) (htracked : ∀ f ∈ owned F {0} s.mem R, f ≠ 0 ∧ f < 65536) :
    Returned s (freeProcessPageTable F s (R * 4096))
      ((freeCalls F s.mem (R * 4096)).map (· / 4096)) := by
  have hmem : ∀ f, f ∈ (freeCalls F s.mem (R * 4096)).map (· / 4096) ↔ f ∈ owned F {0} s.mem R := by
    intro f
    rw [List.mem_map]
    constructor
    · rintro ⟨a, ha, rfl⟩
      obtain ⟨g, hg, rfl⟩ := (mem_freeCalls hF s.mem R a).mp ha
      rwa [Nat.mul_div_cancel g (by decide)]
    · intro hf
      exact ⟨f * 4096, (mem_freeCalls hF s.mem R _).mpr ⟨f, hf, rfl⟩,
        Nat.mul_div_cancel f (by decide)⟩
  constructor
  · intro f
    rw [isFree_freeProcessPageTable hF, hmem]
    exact or_congr_right (and_iff_left_of_imp (htracked f))
  · apply List.Nodup.map_on _ (freeCalls_nodup hF h)
    intro a ha b hb hab
    obtain ⟨f, -, rfl⟩ := (mem_freeCalls hF s.mem R a).mp ha
    obtain ⟨g, -, rfl⟩ := (mem_freeCalls hF s.mem R b).mp hb
    omega
  · intro f hf
    exact h.reserved f ((hmem f).mp hf)

/-- From the spawn of a process to the switch that reclaims it, with nothing else allocated or
freed, the pool ends up as it was, and every frame taken since was returned exactly once. -/
theorem process_life_frame_neutral (K : Stacks) (harch : K.arch = .aarch64) (kernel : ℕ)
    (hne : kernel ≠ 0) (s : Machine) (hpmm : s.pmm.Reachable)
    (hroot : KernelRoot aarch64Format kernel s) (k₀ : KernelRun)
    (hrun : Relation.ReflTransGen (KernelStep K (kernel * 4096)) (KernelRun.boot kernel s) k₀)
    (hexited : k₀.exited = false) (elf : Bytes) (helf : UserImage .aarch64 elf)
    (hspawn : (spawnFromElf K (kernel * 4096) elf k₀.sched k₀.machine).1 = .ok true)
    (i : Slot) (hbefore : (k₀.sched.tasks i).state = .terminated) (k₁ : KernelRun)
    (hk₁ : k₁ = (KernelCall.spawnFromElf elf).run K (kernel * 4096) k₀)
    (hafter : (k₁.sched.tasks i).state ≠ .terminated) (l : List ℕ) (k₂ : KernelRun)
    (hlife : Life K (kernel * 4096) i k₁ l k₂) (hcurrent : k₂.sched.current = i)
    (hexit : k₂.exited = true) (sp : ℕ) (k₃ : KernelRun)
    (hk₃ : k₃ = (KernelCall.schedule sp).run K (kernel * 4096) k₂)
    (hswitch : k₃.sched.current ≠ i) :
    (∀ f, k₃.machine.pmm.IsFree f ↔ k₀.machine.pmm.IsFree f) ∧
      Returned k₁.machine k₃.machine
        (l ++ (freeCalls aarch64Format k₂.machine.mem k₂.caller.memoryRoot).map (· / 4096)) := by
  have hboot : (KernelRun.boot kernel s).Inv kernel := .boot hroot
  have hinv₀ := hboot.of_run harch hne hrun
  have hzero : 0 ∉ k₀.circulating := by
    intro hcon
    rcases hboot.circulating_run harch hne hrun hcon with hfree | ⟨j, R, hj, -⟩
    · exact hpmm.not_isFree_zero hfree
    · exact absurd hj (by simp [KernelRun.boot, Scheduler.boot, ownedRoot, Task.empty])
  have htracked : ∀ f ∈ {f | k₀.machine.pmm.IsFree f}, f ≠ 0 ∧ f < 65536 := by
    intro f hf
    refine ⟨?_, hf.lt⟩
    rintro rfl
    exact hzero (Or.inl hf)
  subst hk₁ hk₃
  obtain ⟨R, hspawned⟩ := hinv₀.hosts_spawned harch hne hexited helf hspawn hbefore hafter
  obtain ⟨hhosts, hret⟩ := hlife.hosts harch hne htracked hspawned
  subst hcurrent
  obtain ⟨howns, hframe⟩ := eq_of_ownedRoot hhosts.root
  have halign : k₂.caller.memoryRoot = R * 4096 := by
    rw [← hframe]
    exact (hhosts.inv.sound k₂.sched.current).aligned howns
  rcases KernelRun.schedule_cases K (kernel * 4096) k₂ sp with
    heq | ⟨hkeeps, -, -⟩ | ⟨-, hmachine, -, -⟩
  · exact absurd (congrArg (fun k : KernelRun => k.sched.current) heq) hswitch
  · exact absurd ⟨hhosts.inv.exited_dead hexit, howns⟩ hkeeps
  · have hpriv := hhosts.inv.memory.isPrivate _ R hhosts.root
    have hlast := freeProcessPageTable_returns aarch64Format_lawful hpriv fun f hf =>
      htracked f (hhosts.pool ▸ Or.inl hf)
    rw [harch] at hmachine
    rw [hmachine, halign]
    refine ⟨fun f => ?_, hret.trans hlast⟩
    have hpool : f ∈ pool aarch64Format {0} R k₂.machine ↔ k₀.machine.pmm.IsFree f := by
      rw [hhosts.pool]
      exact Iff.rfl
    rw [← hpool]
    constructor
    · intro hfree
      rcases (isFree_freeProcessPageTable aarch64Format_lawful _ R f).mp hfree with hf | ⟨hf, -⟩
      · exact Or.inr hf
      · exact Or.inl hf
    · intro hmem
      apply (isFree_freeProcessPageTable aarch64Format_lawful _ R f).mpr
      rcases hmem with hf | hf
      · exact Or.inr ⟨hf, htracked f (hhosts.pool ▸ Or.inl hf)⟩
      · exact Or.inl hf

section Traces

def lifeMachine : Machine := ⟨kernelMachine.mem, BitmapAllocator.new.freeRange 0x103 29⟩

def beforeSpawn : KernelRun :=
  KernelCall.spawnThread.run kernelStacks (1 * 4096) (.boot 1 lifeMachine)

def afterSpawn : KernelRun :=
  (KernelCall.spawnFromElf userElf).run kernelStacks (1 * 4096) beforeSpawn

def afterSwitch : KernelRun :=
  (KernelCall.schedule 0x5000).run kernelStacks (1 * 4096) afterSpawn

def afterMunmap : KernelRun :=
  (KernelCall.munmap 0x8000000000 0x1000).run kernelStacks (1 * 4096) afterSwitch

def afterExit : KernelRun := KernelCall.exit.run kernelStacks (1 * 4096) afterMunmap

def afterReclaim : KernelRun :=
  (KernelCall.schedule 0x6000).run kernelStacks (1 * 4096) afterExit

theorem lifeMachine_kernelRoot : KernelRoot aarch64Format 1 lifeMachine := by
  have hfree : ∀ t < 0x120, 0x103 ≤ t → kernelMachine.pmm.IsFree t := by decide +kernel
  have hmem : ∀ x, x / 4096 ∈ tableFrames aarch64Format kernelMachine.mem 1 →
      lifeMachine.mem x = kernelMachine.mem x := fun _ _ => rfl
  apply And.left (kernelMachine_kernelRoot.frame hmem _)
  intro t ht hcon
  rcases (BitmapAllocator.isFree_freeRange _ 0x103 29 t).mp hcon with hnew | ⟨hlow, hhigh, -, -⟩
  · exact BitmapAllocator.not_isFree_new t hnew
  · exact kernelMachine_kernelRoot.wellFormed.reserved t ht (hfree t hhigh hlow)

theorem process_life_frame_neutral_munmap :
    (spawnFromElf kernelStacks (1 * 4096) userElf beforeSpawn.sched beforeSpawn.machine).1 =
        .ok true ∧
      ∀ f, afterReclaim.machine.pmm.IsFree f ↔ beforeSpawn.machine.pmm.IsFree f := by
  have hbefore : (beforeSpawn.sched.tasks 1).state = .terminated := by decide
  obtain ⟨hspawn, hafter, hquiet⟩ :
      (spawnFromElf kernelStacks (1 * 4096) userElf beforeSpawn.sched beforeSpawn.machine).1 =
          .ok true ∧ (afterSpawn.sched.tasks 1).state ≠ .terminated ∧
        (afterSpawn.sched.runSchedule 0x5000).freed = none := by decide +kernel
  obtain ⟨hswitch, hcalls, hrunning, hcurrent, hreclaim⟩ : afterSwitch.sched.current = 1 ∧
      afterSwitch.exited = false ∧ afterMunmap.exited = false ∧
        afterExit.sched.current = 1 ∧ afterReclaim.sched.current ≠ 1 := by decide +kernel
  have hrun : Relation.ReflTransGen (KernelStep kernelStacks (1 * 4096)) (.boot 1 lifeMachine)
      beforeSpawn := Relation.ReflTransGen.single ⟨.spawnThread, rfl, rfl⟩
  have hswitched : Life kernelStacks (1 * 4096) 1 afterSpawn [] afterSwitch :=
    .other .start (.schedule 0x5000) trivial
      (congrArg Machine.pmm (KernelCall.schedule_machine kernelStacks (1 * 4096) hquiet))
  have hunmapped : Life kernelStacks (1 * 4096) 1 afterSpawn _ afterMunmap :=
    hswitched.munmap hswitch hcalls 0x8000000000 0x1000
  have hexited : Life kernelStacks (1 * 4096) 1 afterSpawn _ afterExit :=
    hunmapped.other .exit hrunning
      (congrArg Machine.pmm (KernelCall.exit_machine kernelStacks (1 * 4096) afterMunmap))
  refine ⟨hspawn, ?_⟩
  exact (process_life_frame_neutral kernelStacks rfl 1 (by decide) lifeMachine
    (BitmapAllocator.Reachable.new.freeRange 0x103 29) lifeMachine_kernelRoot beforeSpawn hrun rfl
    userElf userElf_userImage hspawn 1 hbefore afterSpawn rfl hafter _ _ hexited hcurrent rfl 0x6000
    afterReclaim rfl hreclaim).1

end Traces

end MitosOS.Kernel
