import MitosOS.Tasks.Scheduler
import Mathlib.Data.Finset.Option
import Mathlib.Logic.Relation

/-! Ownership of address spaces across the task table: which roots are outstanding, who owns
them, and when reclaiming one is safe. -/
namespace MitosOS.Tasks
open Scheduler

/-- The task table together with whether the executing context has exited, and the roots that
`create_process_page_table` handed out and that were not freed since. -/
structure SpaceRun where
  sched : Scheduler
  exited : Bool
  outstanding : Finset ℕ

def SpaceRun.boot (root : ℕ) : SpaceRun where
  sched := .boot root
  exited := false
  outstanding := ∅

inductive SpaceCall where
  | spawn (mode : ExecutionMode) (fresh : Option ℕ) (userStackTop : ℕ)
  /-- `loaded` is whether the image and the stack could be mapped. -/
  | spawnFromElf (fresh : Option ℕ) (loaded : Bool) (userStackTop : ℕ)
  | exit
  | schedule (sp : ℕ)

/-- A new root is a frame that is not in use as one; frame 0 is never handed out. -/
def SpaceRun.FreshRoot (s : SpaceRun) (fresh : Option ℕ) : Prop :=
  ∀ r, fresh = some r → r ≠ 0 ∧ r ∉ s.outstanding

/-- An exited context only spins, so it makes no more calls. -/
def SpaceCall.Valid (s : SpaceRun) : SpaceCall → Prop
  | .spawn mode fresh _ => s.exited = false ∧ (mode = .isolatedProcess → s.FreshRoot fresh)
  | .spawnFromElf fresh _ _ => s.exited = false ∧ s.FreshRoot fresh
  | .exit => s.exited = false
  | .schedule _ => True

def SpaceCall.run (K : Stacks) (s : SpaceRun) : SpaceCall → SpaceRun
  | .spawn mode fresh top =>
    { s with
      sched := (s.sched.spawn K mode fresh top).2
      outstanding := if mode = .isolatedProcess then s.outstanding ∪ fresh.toFinset
        else s.outstanding }
  | .spawnFromElf fresh loaded top =>
    let (root, owns) := allocateIsolatedPageTable fresh s.sched.activeRoot
    { s with
      sched := if loaded then (s.sched.spawnIsolatedAt K root owns top).2 else s.sched
      outstanding := s.outstanding ∪ fresh.toFinset }
  | .exit => { s with sched := s.sched.exit, exited := true }
  | .schedule sp =>
    let r := s.sched.runSchedule sp
    { sched := r.sched
      exited := s.exited && decide (r.sched.current = s.sched.current)
      outstanding := s.outstanding \ r.freed.toFinset }

/-- A task that owns its root exits only after every other task on that root has. -/
def SpaceCall.LastUser (s : SpaceRun) : SpaceCall → Prop
  | .exit => (s.sched.tasks s.sched.current).ownsMemoryRoot = true →
      ∀ j, j ≠ s.sched.current → (s.sched.tasks j).state ≠ .terminated →
        (s.sched.tasks j).memoryRoot ≠ (s.sched.tasks s.sched.current).memoryRoot
  | _ => True

def SpaceStep (K : Stacks) (s s' : SpaceRun) : Prop := ∃ c : SpaceCall, c.Valid s ∧ s' = c.run K s

def LastUserStep (K : Stacks) (s s' : SpaceRun) : Prop :=
  ∃ c : SpaceCall, c.Valid s ∧ c.LastUser s ∧ s' = c.run K s

/-- A root reclaimed by `run_schedule` is outstanding, and afterwards neither active nor the root
of a task that has not exited. -/
def SpaceRun.ReclaimsUnused (s : SpaceRun) (sp : ℕ) : Prop :=
  ∀ r, (s.sched.runSchedule sp).freed = some r →
    r ∈ s.outstanding ∧
    (∀ i, ((s.sched.runSchedule sp).sched.tasks i).state ≠ .terminated →
      ((s.sched.runSchedule sp).sched.tasks i).memoryRoot ≠ r) ∧
    (s.sched.runSchedule sp).sched.activeRoot ≠ r

/-- Live tasks have a root, owned roots are outstanding and have one owner, and an exited owner
is alone on its root until the scheduler leaves it. -/
structure SpaceInv (tasks : Slot → Task) (current : Slot) (exited : Bool)
    (outstanding : Finset ℕ) : Prop where
  root_ne : ∀ i, (tasks i).state ≠ .terminated → (tasks i).memoryRoot ≠ 0
  owned : ∀ i, (tasks i).ownsMemoryRoot = true → (tasks i).memoryRoot ∈ outstanding
  owner_live : ∀ i, (tasks i).ownsMemoryRoot = true →
    (tasks i).state ≠ .terminated ∨ (i = current ∧ exited = true)
  owner_unique : ∀ i j, (tasks i).ownsMemoryRoot = true → (tasks j).ownsMemoryRoot = true →
    (tasks i).memoryRoot = (tasks j).memoryRoot → i = j
  last : exited = true → (tasks current).state = .terminated ∧
    ((tasks current).ownsMemoryRoot = true → ∀ j, (tasks j).state ≠ .terminated →
      (tasks j).memoryRoot ≠ (tasks current).memoryRoot)

structure SpaceRun.Inv (s : SpaceRun) : Prop where
  spaces : SpaceInv s.sched.tasks s.sched.current s.exited s.outstanding
  active_ne : s.sched.activeRoot ≠ 0
  unused : s.sched.initialized = false → ∀ i, (s.sched.tasks i).state = .terminated

section Spaces
variable {tasks tasks' : Slot → Task} {current next : Slot} {exited : Bool} {out : Finset ℕ}

/-- A task table that differs only in stack pointers, mailboxes and in who is ready. -/
theorem SpaceInv.congr (h : SpaceInv tasks current exited out)
    (hsame : ∀ i, (tasks i).SameSpace (tasks' i)) : SpaceInv tasks' current exited out := by
  have hroot := fun i => (hsame i).memoryRoot
  have howns := fun i => (hsame i).ownsMemoryRoot
  have hstate := fun i => (hsame i).state
  have hlive : ∀ i, (tasks' i).state ≠ .terminated ↔ (tasks i).state ≠ .terminated :=
    fun i => not_congr (hstate i)
  constructor
  · simpa only [hroot, hlive] using h.root_ne
  · simpa only [hroot, howns] using h.owned
  · simpa only [howns, hlive] using h.owner_live
  · simpa only [hroot, howns] using h.owner_unique
  · simpa only [hroot, howns, hstate, hlive] using h.last

theorem SpaceInv.replace (h : SpaceInv tasks current exited out) {i : Slot} {t : Task}
    {out' : Finset ℕ} (hroot : t.state ≠ .terminated → t.memoryRoot ≠ 0)
    (hothers : ∀ j, j ≠ i → (tasks j).ownsMemoryRoot = true →
      (tasks j).memoryRoot ∈ out' ∧ (tasks j).state ≠ .terminated)
    (hfresh : t.ownsMemoryRoot = true →
      t.memoryRoot ∉ out ∧ t.memoryRoot ∈ out' ∧ t.state ≠ .terminated) :
    SpaceInv (Function.update tasks i t) next false out' := by
  constructor
  · intro j hj
    rw [Function.update_apply] at hj ⊢
    split_ifs at hj ⊢
    · exact hroot hj
    · exact h.root_ne j hj
  · intro j hj
    rw [Function.update_apply] at hj ⊢
    split_ifs at hj ⊢ with hji
    · exact (hfresh hj).2.1
    · exact (hothers j hji hj).1
  · intro j hj
    rw [Function.update_apply] at hj ⊢
    split_ifs at hj ⊢ with hji
    · exact Or.inl (hfresh hj).2.2
    · exact Or.inl (hothers j hji hj).2
  · intro j k hj hk heq
    rw [Function.update_apply] at hj hk heq
    rw [Function.update_apply] at heq
    split_ifs at hj hk heq with hji hki hki
    · rw [hji, hki]
    · exact absurd (heq ▸ h.owned k hk) (hfresh hj).1
    · exact absurd (heq ▸ h.owned j hj) (hfresh hk).1
    · exact h.owner_unique j k hj hk heq
  · intro hcon
    exact absurd hcon (by decide)

/-- Filling a terminated slot with a root in use, or with a fresh one that it owns. -/
theorem SpaceInv.fill (h : SpaceInv tasks current false out) {i : Slot} {t : Task}
    (hroot : t.memoryRoot ≠ 0) (hlive : t.state ≠ .terminated) {out' : Finset ℕ}
    (hsub : out ⊆ out')
    (hfresh : t.ownsMemoryRoot = true → t.memoryRoot ∉ out ∧ t.memoryRoot ∈ out') :
    SpaceInv (Function.update tasks i t) current false out' := by
  apply h.replace (fun _ => hroot)
  · intro j _ hj
    rcases h.owner_live j hj with hl | ⟨-, hcon⟩
    · exact ⟨hsub (h.owned j hj), hl⟩
    · exact absurd hcon (by decide)
  · exact fun hown => ⟨(hfresh hown).1, (hfresh hown).2, hlive⟩

theorem SpaceInv.exit (h : SpaceInv tasks current exited out)
    (hlast : (tasks current).ownsMemoryRoot = true → ∀ j, j ≠ current →
      (tasks j).state ≠ .terminated → (tasks j).memoryRoot ≠ (tasks current).memoryRoot) :
    SpaceInv (Function.update tasks current { tasks current with state := .terminated }) current
      true out := by
  have hroot : ∀ i, (Function.update tasks current { tasks current with state := .terminated }
      i).memoryRoot = (tasks i).memoryRoot := by
    intro i
    rw [Function.update_apply]
    split_ifs with hi
    · rw [hi]
    · rfl
  have howns : ∀ i, (Function.update tasks current { tasks current with state := .terminated }
      i).ownsMemoryRoot = (tasks i).ownsMemoryRoot := by
    intro i
    rw [Function.update_apply]
    split_ifs with hi
    · rw [hi]
    · rfl
  have hstate : ∀ i, (Function.update tasks current { tasks current with state := .terminated }
      i).state ≠ .terminated → i ≠ current ∧ (tasks i).state ≠ .terminated := by
    intro i hi
    rw [Function.update_apply] at hi
    split_ifs at hi with hic
    · exact absurd rfl hi
    · exact ⟨hic, hi⟩
  constructor
  · intro i hi
    rw [hroot]
    exact h.root_ne i (hstate i hi).2
  · intro i hi
    rw [hroot]
    rw [howns] at hi
    exact h.owned i hi
  · intro i hi
    rw [howns] at hi
    by_cases hic : i = current
    · exact Or.inr ⟨hic, rfl⟩
    · rw [Function.update_of_ne hic]
      rcases h.owner_live i hi with hl | ⟨hcur, -⟩
      · exact Or.inl hl
      · exact absurd hcur hic
  · intro i j hi hj heq
    rw [howns] at hi hj
    rw [hroot, hroot] at heq
    exact h.owner_unique i j hi hj heq
  · intro _
    constructor
    · rw [Function.update_self]
    · intro hown j hj
      rw [howns] at hown
      rw [hroot, hroot]
      exact hlast hown j (hstate j hj).1 (hstate j hj).2

theorem SpaceInv.leave (h : SpaceInv tasks current exited out)
    (hkeep : ¬ ((tasks current).state = .terminated ∧ (tasks current).ownsMemoryRoot = true)) :
    SpaceInv tasks next false out where
  root_ne := h.root_ne
  owned := h.owned
  owner_live i hi := by
    rcases h.owner_live i hi with hl | ⟨rfl, -⟩
    · exact Or.inl hl
    · exact Or.inl fun hterm => hkeep ⟨hterm, hi⟩
  owner_unique := h.owner_unique
  last hcon := absurd hcon (by decide)

theorem SpaceInv.reclaim (h : SpaceInv tasks current exited out) {t : Task}
    (howns : (tasks current).ownsMemoryRoot = true) (ht : t.ownsMemoryRoot = false)
    (htstate : t.state = .terminated) :
    SpaceInv (Function.update tasks current t) next false (out \ {(tasks current).memoryRoot}) := by
  apply h.replace (fun hlive => absurd htstate hlive)
  · intro j hjc hj
    rw [Finset.mem_sdiff, Finset.mem_singleton]
    have hother : (tasks j).memoryRoot ≠ (tasks current).memoryRoot :=
      fun heq => hjc (h.owner_unique j current hj howns heq)
    rcases h.owner_live j hj with hl | ⟨hcur, -⟩
    · exact ⟨⟨h.owned j hj, hother⟩, hl⟩
    · exact absurd hcur hjc
  · intro hown
    exact absurd (ht.symm.trans hown) (by decide)

end Spaces

section Runs
variable {K : Stacks} {s s' : SpaceRun}

theorem SpaceRun.Inv.boot {root : ℕ} (hroot : root ≠ 0) : (SpaceRun.boot root).Inv where
  spaces := by
    constructor
    · exact fun i hi => absurd rfl hi
    · exact fun i hi => Bool.noConfusion hi
    · exact fun i hi => Bool.noConfusion hi
    · exact fun i j hi => Bool.noConfusion hi
    · exact fun hcon => Bool.noConfusion hcon
  active_ne := hroot
  unused _ _ := rfl

theorem SpaceRun.Inv.install (h : s.Inv) (hexited : s.exited = false) (mode : ExecutionMode)
    {root : ℕ} (hroot : root ≠ 0) (owns : Bool) (top : ℕ) {out : Finset ℕ}
    (hsub : s.outstanding ⊆ out) (hfresh : owns = true → root ∉ s.outstanding ∧ root ∈ out) :
    SpaceRun.Inv { s with
      sched := (s.sched.install K mode root owns top).2
      outstanding := out } := by
  have hspaces := h.spaces
  rw [hexited] at hspaces
  rcases install_fills K s.sched mode root owns top h.unused with
    heq | ⟨i, t, -, hlive, rfl, rfl, -, heq⟩
  · rw [heq]
    refine ⟨?_, h.active_ne, h.unused⟩
    exact { h.spaces with owned := fun j hj => hsub (h.spaces.owned j hj) }
  · rw [heq]
    refine ⟨?_, h.active_ne, fun hcon => Bool.noConfusion hcon⟩
    rw [hexited]
    exact hspaces.fill hroot hlive hsub hfresh

theorem SpaceInv.save {c : Scheduler} {exited : Bool} {out : Finset ℕ}
    (h : SpaceInv c.tasks c.current exited out) (sp : ℕ) :
    SpaceInv (c.save sp).tasks (c.save sp).current exited out := by
  rw [save_current]
  exact h.congr (save_sameSpace c sp)

theorem SpaceInv.activate {c : Scheduler} {exited : Bool} {out : Finset ℕ}
    (h : SpaceInv c.tasks c.current exited out) {next : Slot}
    (hready : (c.tasks next).state = .ready) :
    SpaceInv (c.activate next).tasks c.current exited out :=
  h.congr (activate_sameSpace c hready)

/-- A switch keeps ownership, and what it reclaims is outstanding and no longer used. -/
theorem SpaceInv.switchTo {c : Scheduler} {exited : Bool} {out : Finset ℕ}
    (h : SpaceInv c.tasks c.current exited out) (hactive : c.activeRoot ≠ 0) {next : Slot}
    (hready : (c.tasks next).state = .ready) :
    SpaceInv (c.switchTo next).sched.tasks next false (out \ (c.switchTo next).freed.toFinset) ∧
      (c.switchTo next).sched.activeRoot ≠ 0 ∧
      ∀ r, (c.switchTo next).freed = some r → r ∈ out ∧
        (∀ i, ((c.switchTo next).sched.tasks i).state ≠ .terminated →
          ((c.switchTo next).sched.tasks i).memoryRoot ≠ r) ∧
        (c.switchTo next).sched.activeRoot ≠ r := by
  have hlive : (c.tasks next).state ≠ .terminated := by
    rw [hready]
    decide
  have hact := h.activate hready
  rw [switchTo_activeRoot]
  by_cases hdead : (c.tasks c.current).state = .terminated ∧
      (c.tasks c.current).ownsMemoryRoot = true
  · obtain ⟨hterm, howns⟩ := hdead
    have hne : c.current ≠ next := by
      intro heq
      exact hlive (heq ▸ hterm)
    have hexited : exited = true := by
      rcases h.owner_live c.current howns with hl | ⟨-, hex⟩
      · exact absurd hterm hl
      · exact hex
    have hlast := (h.last hexited).2 howns
    have hroot : c.rootAfter next = (c.tasks next).memoryRoot := by
      unfold rootAfter
      exact if_pos ⟨hlast next hlive, h.root_ne next hlive⟩
    obtain ⟨hfreed, hsched⟩ := switchTo_of_dead c hne hterm howns
    have hcur : (c.activate next).tasks c.current = c.tasks c.current := activate_of_ne c hne
    rw [hfreed, hsched, hroot]
    refine ⟨?_, h.root_ne next hlive, ?_⟩
    · have hinv : SpaceInv (Function.update (c.activate next).tasks c.current
          { c.tasks c.current with ownsMemoryRoot := false, memoryRoot := 0 }) next false _ :=
        hact.reclaim (by rw [hcur]; exact howns) rfl hterm
      rw [hcur] at hinv
      exact hinv
    · intro r hr
      obtain rfl := Option.some.inj hr
      refine ⟨h.owned c.current howns, ?_, hlast next hlive⟩
      intro i hi
      by_cases hic : i = c.current
      · rw [hic, setTask_same] at hi
        exact absurd hterm hi
      · rw [setTask_of_ne _ _ hic] at hi ⊢
        have hlast' := (hact.last hexited).2 (by rw [hcur]; exact howns) i hi
        rwa [hcur] at hlast'
  · obtain ⟨hfreed, hsched⟩ := switchTo_of_not_dead c next hdead
    rw [hfreed, hsched]
    refine ⟨?_, ?_, fun r hr => absurd hr (by simp)⟩
    · rw [Option.toFinset_none, Finset.sdiff_empty]
      apply hact.leave
      by_cases hne : c.current = next
      · rw [hne, activate_same]
        simp
      · rw [activate_of_ne c hne]
        exact hdead
    · unfold rootAfter
      dsimp only
      split_ifs with hroot
      · exact hroot.2
      · exact hactive

theorem SpaceRun.Inv.schedule (h : s.Inv) (sp : ℕ) :
    s.ReclaimsUnused sp ∧ ((SpaceCall.schedule sp).run K s).Inv := by
  have hidle : s.sched.runSchedule sp = ⟨sp, none, s.sched⟩ →
      s.ReclaimsUnused sp ∧ ((SpaceCall.schedule sp).run K s).Inv := by
    intro heq
    constructor
    · intro r hr
      rw [heq] at hr
      exact absurd hr (by simp)
    · have hsame : (SpaceCall.schedule sp).run K s = s := by
        simp [SpaceCall.run, heq]
      rw [hsame]
      exact h
  rcases runSchedule_cases s.sched sp with ⟨next, hinit, hnext, heq⟩ | heq
  · have hready := nextReady_ready hnext
    have hsaved := h.spaces.save sp
    obtain ⟨hinv, hactive, hfreed⟩ := hsaved.switchTo (by rw [save_activeRoot]; exact h.active_ne)
      hready
    constructor
    · unfold SpaceRun.ReclaimsUnused
      rw [heq]
      exact hfreed
    · have hexited : (s.exited && decide (next = s.sched.current)) = false := by
        rw [Bool.and_eq_false_iff, decide_eq_false_iff_not]
        by_cases hex : s.exited = true
        · right
          intro hcur
          have hterm := (hsaved.last hex).1
          rw [save_current, ← hcur, hready] at hterm
          exact TaskState.noConfusion hterm
        · exact Or.inl (Bool.eq_false_iff.mpr hex)
      unfold SpaceCall.run
      simp only [heq, switchTo_current, hexited]
      refine ⟨?_, hactive, ?_⟩
      · simp only [switchTo_current]
        exact hinv
      · intro hcon
        rw [switchTo_initialized, save_initialized, hinit] at hcon
        exact absurd hcon (by decide)
  · exact hidle heq

theorem SpaceRun.Inv.step (h : s.Inv) {c : SpaceCall} (hvalid : c.Valid s) (hlast : c.LastUser s) :
    (c.run K s).Inv := by
  cases c with
  | spawn mode fresh top =>
    obtain ⟨hexited, hfresh⟩ := hvalid
    rcases spawn_eq K s.sched mode fresh top with heq | ⟨root, hmode, hroot, heq⟩
    · unfold SpaceCall.run
      simp only [heq]
      apply h.install hexited mode h.active_ne false top _ (fun hcon => Bool.noConfusion hcon)
      split_ifs
      · exact Finset.subset_union_left
      · exact Finset.Subset.refl _
    · obtain ⟨hne, hnew⟩ := hfresh hmode root hroot
      subst hmode hroot
      unfold SpaceCall.run
      simp only [heq, if_true]
      apply h.install hexited _ hne true top Finset.subset_union_left
      intro _
      exact ⟨hnew, Finset.mem_union_right _ (Option.mem_toFinset.mpr rfl)⟩
  | spawnFromElf fresh loaded top =>
    obtain ⟨hexited, hfresh⟩ := hvalid
    unfold SpaceCall.run
    cases loaded with
    | false =>
      simp only [Bool.false_eq_true, if_false]
      refine ⟨?_, h.active_ne, h.unused⟩
      exact { h.spaces with
        owned := fun i hi => Finset.mem_union_left _ (h.spaces.owned i hi) }
    | true =>
      simp only [if_true]
      cases fresh with
      | none =>
        exact h.install hexited .isolatedProcess h.active_ne false top Finset.subset_union_left
          (fun hcon => Bool.noConfusion hcon)
      | some root =>
        obtain ⟨hne, hnew⟩ := hfresh root rfl
        apply h.install hexited .isolatedProcess hne true top Finset.subset_union_left
        intro _
        exact ⟨hnew, Finset.mem_union_right _ (Option.mem_toFinset.mpr rfl)⟩
  | exit =>
    refine ⟨h.spaces.exit hlast, h.active_ne, ?_⟩
    intro hinit i
    by_cases hi : i = s.sched.current
    · rw [hi]
      exact congrArg Task.state (setState_same s.sched _)
    · exact (congrArg Task.state (setState_of_ne s.sched _ hi)).trans (h.unused hinit i)
  | schedule sp => exact (h.schedule sp).2

theorem SpaceRun.Inv.of_run (h : s.Inv) (hrun : Relation.ReflTransGen (LastUserStep K) s s') :
    s'.Inv := by
  induction hrun with
  | refl => exact h
  | tail _ hstep ih =>
    obtain ⟨c, hvalid, hlast, rfl⟩ := hstep
    exact ih.step hvalid hlast

end Runs

/-- In every run in which owners are the last to exit on their root, whatever `run_schedule`
reclaims is an outstanding root that no live task and no core uses any more. -/
theorem reclaimed_root_unused (K : Stacks) (kernelRoot : ℕ) (hroot : kernelRoot ≠ 0) (s : SpaceRun)
    (hrun : Relation.ReflTransGen (LastUserStep K) (SpaceRun.boot kernelRoot) s) (sp : ℕ) :
    s.ReclaimsUnused sp :=
  (((SpaceRun.Inv.boot hroot).of_run hrun).schedule (K := K) sp).1

section Traces

/-- A kernel thread in slot 0 starts a process in slot 1, which owns the root 0x5000 and runs. -/
def runningProcess : SpaceRun :=
  (SpaceCall.schedule 0x9000).run exampleStacks
    ((SpaceCall.spawn .isolatedProcess (some 0x5000) 0).run exampleStacks
      ((SpaceCall.spawn .sharedThread none 0).run exampleStacks (.boot 0x1000)))

def exitedParent : SpaceRun :=
  SpaceCall.exit.run exampleStacks
    ((SpaceCall.spawn .sharedThread none 0).run exampleStacks runningProcess)

theorem runningProcess_reachable :
    Relation.ReflTransGen (LastUserStep exampleStacks) (.boot 0x1000) runningProcess := by
  apply Relation.ReflTransGen.tail _ ⟨.schedule 0x9000, trivial, trivial, rfl⟩
  have hfresh : SpaceCall.Valid
      ((SpaceCall.spawn .sharedThread none 0).run exampleStacks (.boot 0x1000))
      (.spawn .isolatedProcess (some 0x5000) 0) := by
    refine ⟨rfl, fun _ r hr => ?_⟩
    rw [← Option.some.inj hr]
    decide
  apply Relation.ReflTransGen.tail _ ⟨_, hfresh, trivial, rfl⟩
  exact Relation.ReflTransGen.single
    ⟨.spawn .sharedThread none 0, ⟨rfl, fun hcon => ExecutionMode.noConfusion hcon⟩, trivial, rfl⟩

theorem reclaimed_root_in_use :
    Relation.ReflTransGen (SpaceStep exampleStacks) (.boot 0x1000) exitedParent ∧
      (exitedParent.sched.runSchedule 0x9000).freed = some 0x5000 ∧
      ((exitedParent.sched.runSchedule 0x9000).sched.tasks 2).state = .running ∧
      ((exitedParent.sched.runSchedule 0x9000).sched.tasks 2).memoryRoot = 0x5000 ∧
      (exitedParent.sched.runSchedule 0x9000).sched.activeRoot = 0x5000 := by
  refine ⟨?_, by decide, by decide, by decide, by decide⟩
  have hreach : Relation.ReflTransGen (SpaceStep exampleStacks) (.boot 0x1000) runningProcess :=
    Relation.ReflTransGen.mono (fun _ _ ⟨c, hvalid, _, hrun⟩ => ⟨c, hvalid, hrun⟩)
      _ _ runningProcess_reachable
  have hexited : runningProcess.exited = false := by decide
  have hspawned := hreach.tail
    ⟨.spawn .sharedThread none 0, ⟨hexited, fun hcon => ExecutionMode.noConfusion hcon⟩, rfl⟩
  have hstill : ((SpaceCall.spawn .sharedThread none 0).run exampleStacks
      runningProcess).exited = false := by decide
  exact hspawned.tail ⟨.exit, hstill, rfl⟩

/-- A process that exits alone is reclaimed. -/
theorem reclaimed_root_unused_process :
    ((SpaceCall.exit.run exampleStacks runningProcess).sched.runSchedule 0x9000).freed =
        some 0x5000 ∧
      (SpaceCall.exit.run exampleStacks runningProcess).ReclaimsUnused 0x9000 := by
  have hexited : runningProcess.exited = false := by decide
  have hlast : SpaceCall.exit.LastUser runningProcess := by
    unfold SpaceCall.LastUser
    decide
  refine ⟨by decide, ?_⟩
  apply reclaimed_root_unused exampleStacks 0x1000 (by decide)
  exact runningProcess_reachable.tail ⟨.exit, hexited, hlast, rfl⟩

end Traces

end MitosOS.Tasks
