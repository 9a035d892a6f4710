import MitosOS.Tasks.Events

/-! Where a spawned task is when `run_schedule` selects it for the first time. -/
namespace MitosOS.Tasks
open MitosOS.Lib Scheduler

/-- `run_schedule` called with `sp` hands the CPU to the slot `i`. -/
def Scheduler.Selects (s : Scheduler) (sp : ℕ) (i : Slot) : Prop :=
  s.initialized = true ∧ (s.save sp).nextReady = some i

/-- The event neither selects the slot nor puts another task into it. -/
def LeavesWaiting (i : Slot) (s : Scheduler) : TaskEvent → Prop
  | .schedule sp => ¬ s.Selects sp i
  | .spawn _ => s.freeSlot ≠ some i
  | _ => True

/-- Whatever happens next, the first `run_schedule` that selects the occupant of the slot returns
the initial frame written by `Task::init`. -/
def StartsAtEntry (K : Stacks) (s : Scheduler) (i : Slot) : Prop :=
  ∀ s' sp, (taskSystem K).RunWhen (LeavesWaiting i) s s' → sp ≠ 0 → s'.Selects sp i →
    (s'.runSchedule sp).sp = K.framePtr i

section Waiting
variable {K : Stacks} {s : Scheduler} {i : Slot}

/-- The occupant of the slot has not run, and its frame is where `Task::init` put it. -/
structure Unstarted (K : Stacks) (i : Slot) (s : Scheduler) : Prop where
  initialized : s.initialized = true
  sp_eq : (s.tasks i).sp = K.framePtr i
  not_running : (s.tasks i).state ≠ .running

theorem save_of_not_running (sp : ℕ) (h : (s.tasks i).state ≠ .running) :
    (s.save sp).tasks i = s.tasks i := by
  by_cases hi : i = s.current
  · unfold Scheduler.save
    rw [if_neg]
    intro hsave
    exact h (hi ▸ hsave.2)
  · exact save_of_ne s sp hi

theorem runSchedule_of_selects {sp : ℕ} (h : s.Selects sp i) :
    s.runSchedule sp = (s.save sp).switchTo i := by
  unfold runSchedule
  rw [h.1]
  simp only [Bool.not_true, Bool.false_eq_true, if_false, h.2]

/-- The frame of a task that has not run is what `run_schedule` resumes it on. -/
theorem Unstarted.sp_of_selects (h : Unstarted K i s) {sp : ℕ} (hsel : s.Selects sp i) :
    (s.runSchedule sp).sp = K.framePtr i := by
  rw [runSchedule_of_selects hsel, switchTo_sp, save_of_not_running sp h.not_running]
  exact h.sp_eq

theorem switchTo_keeps (s : Scheduler) {next : Slot} (hi : i ≠ next) :
    ((s.switchTo next).sched.tasks i).sp = (s.tasks i).sp ∧
      ((s.switchTo next).sched.tasks i).state = (s.tasks i).state := by
  by_cases hc : i = s.current
  · subst hc
    unfold switchTo
    dsimp only
    rw [activate_of_ne s hi]
    split_ifs
    · rw [setTask_same]
      exact ⟨rfl, rfl⟩
    · rw [activate_of_ne s hi]
      exact ⟨rfl, rfl⟩
  · rw [switchTo_of_ne s hi hc]
    exact ⟨rfl, rfl⟩

theorem Unstarted.schedule (h : Unstarted K i s) {sp : ℕ} (hsel : ¬ s.Selects sp i) :
    Unstarted K i (s.runSchedule sp).sched := by
  rcases runSchedule_cases s sp with ⟨next, -, hnext, heq⟩ | heq
  · have hi : i ≠ next := fun hcon => hsel ⟨h.initialized, hcon ▸ hnext⟩
    obtain ⟨hsp, hstate⟩ := switchTo_keeps (s.save sp) hi
    rw [save_of_not_running sp h.not_running] at hsp hstate
    rw [heq]
    constructor
    · rw [switchTo_initialized, save_initialized]
      exact h.initialized
    · rw [hsp]
      exact h.sp_eq
    · rw [hstate]
      exact h.not_running
  · rw [heq]
    exact h

theorem Unstarted.setTask_other (h : Unstarted K i s) {j : Slot} (hij : i ≠ j) (t : Task) :
    Unstarted K i (s.setTask j t) := by
  constructor
  · exact h.initialized
  · rw [setTask_of_ne s t hij]
    exact h.sp_eq
  · rw [setTask_of_ne s t hij]
    exact h.not_running

theorem Unstarted.setTask (h : Unstarted K i s) {j : Slot} {t : Task}
    (hsp : t.sp = (s.tasks j).sp) (hrun : t.state = .running → (s.tasks j).state = .running) :
    Unstarted K i (s.setTask j t) := by
  by_cases hij : i = j
  · subst hij
    constructor
    · exact h.initialized
    · rw [setTask_same, hsp]
      exact h.sp_eq
    · rw [setTask_same]
      exact fun hcon => h.not_running (hrun hcon)
  · exact h.setTask_other hij t

theorem Unstarted.step (h : Unstarted K i s) {e : TaskEvent} (hguard : LeavesWaiting i s e) :
    Unstarted K i (e.next K s) := by
  cases e with
  | spawn c =>
    change Unstarted K i (c.run K s).2
    cases hfree : s.freeSlot with
    | none =>
      rw [c.run_full hfree]
      exact h
    | some j =>
      obtain ⟨t, -, heq⟩ := c.run_fills (K := K) hfree
      have hij : i ≠ j := fun hcon => hguard (hcon ▸ hfree)
      rw [heq, if_pos h.initialized]
      exact h.setTask_other hij t
  | schedule sp => exact h.schedule hguard
  | send destId data =>
    change Unstarted K i (s.sendMessage destId data).2
    rcases sendMessage_cases s destId data with heq | ⟨j, -, -, heq⟩
    · rw [heq]
      exact h
    · rw [heq]
      apply h.setTask
      · rfl
      · intro hcon
        dsimp only at hcon
        split_ifs at hcon
        exact hcon
  | receive =>
    change Unstarted K i s.receiveMessage.2
    rcases receiveMessage_cases s with heq | ⟨j, heq | heq⟩
    · rw [heq]
      exact h
    · rw [heq]
      exact h.setTask rfl fun hcon => hcon
    · rw [heq]
      exact h.setTask rfl fun hcon => TaskState.noConfusion hcon
  | exit => exact h.setTask rfl fun hcon => TaskState.noConfusion hcon

theorem Unstarted.startsAtEntry (h : Unstarted K i s) : StartsAtEntry K s i := by
  intro s' sp hrun _ hsel
  have hlater : Unstarted K i s' := hrun.invariant (fun _ _ h _ hg => h.step hg) h
  exact hlater.sp_of_selects hsel

end Waiting

section Boot
variable {K : Stacks} {s : Scheduler} {i : Slot}

/-- Before the first spawn only slot 0, which stands for the boot context, can be in use. -/
structure BootOnly (s : Scheduler) : Prop where
  numbered : s.Numbered
  current : s.initialized = false → s.current = 0
  unused : s.initialized = false → ∀ j ≠ 0, (s.tasks j).state = .terminated

theorem BootOnly.setTask (h : BootOnly s) {j : Slot} {t : Task} (hnum : (s.setTask j t).Numbered)
    (hj : s.initialized = false → j = 0) : BootOnly (s.setTask j t) where
  numbered := hnum
  current := h.current
  unused hinit k hk := by
    have hkj : k ≠ j := fun hcon => hk (hcon.trans (hj hinit))
    rw [setTask_of_ne s t hkj]
    exact h.unused hinit k hk

theorem BootOnly.of_initialized (hnum : s.Numbered) (hinit : s.initialized = true) :
    BootOnly s where
  numbered := hnum
  current hcon := absurd (hinit.symm.trans hcon) Bool.noConfusion
  unused hcon := absurd (hinit.symm.trans hcon) Bool.noConfusion

theorem BootOnly.step (h : BootOnly s) (e : TaskEvent) : BootOnly (e.next K s) := by
  have hnum : (e.next K s).Numbered := h.numbered.next e
  cases e with
  | spawn c =>
    change (c.run K s).2.Numbered at hnum
    change BootOnly (c.run K s).2
    cases hfree : s.freeSlot with
    | none =>
      rw [c.run_full hfree]
      exact h
    | some j =>
      obtain ⟨t, -, heq⟩ := c.run_fills (K := K) hfree
      apply BootOnly.of_initialized hnum
      rw [heq]
      dsimp only
      split_ifs with hinit
      · exact hinit
      · rfl
  | schedule sp =>
    rcases runSchedule_cases s sp with ⟨next, hinit, -, heq⟩ | heq
    · apply BootOnly.of_initialized hnum
      change (s.runSchedule sp).sched.initialized = true
      rw [heq, switchTo_initialized, save_initialized]
      exact hinit
    · change BootOnly (s.runSchedule sp).sched
      rw [heq]
      exact h
  | send destId data =>
    change (s.sendMessage destId data).2.Numbered at hnum
    change BootOnly (s.sendMessage destId data).2
    rcases sendMessage_spec s destId data with ⟨j, hdest, -, heq⟩ | ⟨e, heq⟩
    · rw [heq] at hnum ⊢
      apply h.setTask hnum
      intro hinit
      by_contra hj
      exact (destSlot_spec hdest).2 (h.unused hinit j hj)
    · rw [heq]
      exact h
  | receive =>
    change s.receiveMessage.2.Numbered at hnum
    change BootOnly s.receiveMessage.2
    rcases receiveMessage_spec s with ⟨j, msg, hown, -, heq⟩ | ⟨j, hown, -, heq⟩ | heq
    · rw [heq] at hnum ⊢
      exact h.setTask hnum fun hinit => (h.numbered.ownSlot_eq hown).1.trans (h.current hinit)
    · rw [heq] at hnum ⊢
      exact h.setTask hnum fun hinit => (h.numbered.ownSlot_eq hown).1.trans (h.current hinit)
    · rw [heq]
      exact h
  | exit => exact h.setTask hnum h.current

theorem BootOnly.boot (root : ℕ) : BootOnly (Scheduler.boot root) where
  numbered := .boot root
  current _ := rfl
  unused _ _ _ := rfl

theorem nextReady_of_only (h : (s.tasks i).state = .ready)
    (honly : ∀ j ≠ i, (s.tasks j).state ≠ .ready) : s.nextReady = some i := by
  cases hnext : s.nextReady with
  | none => exact absurd h (nextReady_none hnext i)
  | some j =>
    by_contra hne
    exact honly j (fun hcon => hne (congrArg some hcon)) (nextReady_ready hnext)

/-- The first spawn of all marks the task it has just put into slot 0 as running; the next
`run_schedule` saves the boot context's stack pointer over the task's frame. -/
theorem BootOnly.first_spawn_lost (h : BootOnly s) (hinit : s.initialized = false) {t : Task} :
    ¬ StartsAtEntry K { (s.setTask 0 t).setState 0 .running with initialized := true } 0 := by
  let s₁ : Scheduler := { (s.setTask 0 t).setState 0 .running with initialized := true }
  let sp := K.framePtr 0 + 1
  have hcur : s₁.current = 0 := h.current hinit
  have hrunning : (s₁.tasks s₁.current).state = .running := by
    rw [hcur]
    exact congrArg Task.state (setState_same (s.setTask 0 t) .running)
  have hzero : ((s₁.save sp).tasks 0).sp = sp ∧ ((s₁.save sp).tasks 0).state = .ready := by
    have hsaved := save_of_running s₁ (Nat.succ_ne_zero _ : sp ≠ 0) hrunning
    rw [hcur] at hsaved
    rw [hsaved]
    exact ⟨rfl, rfl⟩
  have hother : ∀ j ≠ 0, ((s₁.save sp).tasks j).state ≠ .ready := by
    intro j hj
    have htask : s₁.tasks j = s.tasks j :=
      (setState_of_ne _ _ hj).trans (setTask_of_ne s t hj)
    rw [save_of_ne s₁ sp (hcur ▸ hj), htask, h.unused hinit j hj]
    exact fun hcon => TaskState.noConfusion hcon
  have hsel : s₁.Selects sp 0 := ⟨rfl, nextReady_of_only hzero.2 hother⟩
  intro hstarts
  have hsp := hstarts s₁ sp Relation.ReflTransGen.refl (Nat.succ_ne_zero _) hsel
  rw [runSchedule_of_selects hsel, switchTo_sp, hzero.1] at hsp
  exact absurd hsp (Nat.succ_ne_self _)

theorem freeSlot_zero (h : (s.tasks 0).state = .terminated) : s.freeSlot = some 0 := by
  unfold freeSlot
  rw [List.finRange_succ, List.find?_cons_of_pos (by simpa using h)]

end Boot

/-- In every reachable state a spawned task is resumed on its initial frame, unless it is the first
spawn of all and fills slot 0. -/
theorem spawn_starts_at_entry_iff (K : Stacks) (root : ℕ) (s : Scheduler)
    (hrun : (taskSystem K).Run (.boot root) s) (c : SpawnCall) (i : Slot) (s₁ : Scheduler)
    (hfree : s.freeSlot = some i) (hspawn : c.run K s = (true, s₁)) :
    StartsAtEntry K s₁ i ↔ s.initialized = true ∨ (s.tasks 0).state ≠ .terminated := by
  have hboot : BootOnly s := hrun.invariant (fun _ e h _ _ => h.step e) (.boot root)
  obtain ⟨t, ht, heq⟩ := c.run_fills (K := K) hfree
  have hs₁ := congrArg Prod.snd (hspawn.symm.trans heq)
  dsimp only at hs₁
  subst hs₁
  constructor
  · intro hstarts
    by_contra hcon
    obtain ⟨hinit, hdead⟩ := not_or.mp hcon
    have hi : i = 0 := Option.some.inj (hfree.symm.trans (freeSlot_zero (not_not.mp hdead)))
    subst hi
    rw [if_neg hinit] at hstarts
    exact hboot.first_spawn_lost (Bool.eq_false_of_not_eq_true hinit) hstarts
  · intro hcond
    apply Unstarted.startsAtEntry
    split_ifs with hinit
    · constructor
      · exact hinit
      · rw [setTask_same]
        exact ht.sp_eq
      · rw [setTask_same, ht.state_eq]
        exact fun hcon => TaskState.noConfusion hcon
    · -- slot 0 is in use, so the task went elsewhere and is not marked running
      have hi : i ≠ 0 := fun hcon =>
        (hcond.resolve_left hinit) (hcon ▸ freeSlot_terminated hfree)
      have htask : ((s.setTask i t).setState 0 .running).tasks i = t :=
        (setState_of_ne _ _ hi).trans (setTask_same s t)
      constructor
      · rfl
      · exact (congrArg Task.sp htask).trans ht.sp_eq
      · exact fun hcon =>
          TaskState.noConfusion (ht.state_eq.symm.trans ((congrArg Task.state htask).symm.trans hcon))

section Traces

instance (K : Stacks) (s : Scheduler) : ∀ e : TaskEvent, Decidable ((taskSystem K).Enabled s e)
  | .schedule sp => inferInstanceAs (Decidable (sp ≠ 0))
  | .spawn _ => isTrue trivial
  | .send _ _ => isTrue trivial
  | .receive => isTrue trivial
  | .exit => isTrue trivial

instance (s : Scheduler) (sp : ℕ) (i : Slot) : Decidable (s.Selects sp i) :=
  inferInstanceAs (Decidable (_ ∧ _))

instance (i : Slot) (s : Scheduler) : ∀ e : TaskEvent, Decidable (LeavesWaiting i s e)
  | .schedule _ => inferInstanceAs (Decidable (¬ _))
  | .spawn _ => inferInstanceAs (Decidable (s.freeSlot ≠ some i))
  | .send _ _ => isTrue trivial
  | .receive => isTrue trivial
  | .exit => isTrue trivial

def backgroundWorker : SpawnCall := .spawn .sharedThread none 0

def afterFirstSpawn : Scheduler := (backgroundWorker.run exampleStacks (.boot 0x1000)).2

/-- `kmain_common` spawns `background_worker` and `background_worker_2`. The first tick saves the
boot context in slot 0 and starts the second worker; the next tick resumes the boot context in
place of the first one. -/
theorem first_spawn_resumes_boot_context :
    (Scheduler.boot 0x1000).freeSlot = some 0 ∧
      ∃ s, (taskSystem exampleStacks).RunWhen (LeavesWaiting 0) afterFirstSpawn s ∧
        s.Selects 0x8000 0 ∧ (s.runSchedule 0x8000).sp = 0x7000 ∧
        exampleStacks.framePtr 0 ≠ 0x7000 := by
  constructor
  · decide
  · apply EventSystem.exists_runWhen [.spawn backgroundWorker, .schedule 0x7000]
    decide

/-- `background_worker_2` does start at its entry point. -/
theorem second_spawn_starts_at_entry :
    StartsAtEntry exampleStacks (backgroundWorker.run exampleStacks afterFirstSpawn).2 1 := by
  have hrun : (taskSystem exampleStacks).Run (.boot 0x1000) afterFirstSpawn :=
    Relation.ReflTransGen.single ⟨.spawn backgroundWorker, trivial, trivial, rfl⟩
  have hspawn : backgroundWorker.run exampleStacks afterFirstSpawn =
      (true, (backgroundWorker.run exampleStacks afterFirstSpawn).2) :=
    Prod.ext (by decide) rfl
  have hiff := spawn_starts_at_entry_iff exampleStacks 0x1000 afterFirstSpawn hrun backgroundWorker
    1 _ (by decide) hspawn
  exact hiff.mpr (Or.inl (by decide))

end Traces

end MitosOS.Tasks
