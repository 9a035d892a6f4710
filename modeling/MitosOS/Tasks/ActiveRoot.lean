import MitosOS.Tasks.Dispatch

/-! The root in CR3 or TTBR0_EL1 is the one of the current task, whatever the tasks do. -/
namespace MitosOS.Tasks
open Scheduler

/-- The CPU translates with the root of the current task, which is live unless it has just exited.
No live task is without a root. -/
structure Scheduler.OnRoot (c : Scheduler) (exited : Bool) : Prop where
  numbered : c.Numbered
  unused : c.initialized = false → c.current = 0 ∧ ∀ i, (c.tasks i).state = .terminated
  root_eq : c.initialized = true → (c.tasks c.current).memoryRoot = c.activeRoot
  live : c.initialized = true → exited = false → (c.tasks c.current).state ≠ .terminated
  dead : exited = true → (c.tasks c.current).state = .terminated
  root_ne : ∀ i, (c.tasks i).state ≠ .terminated → (c.tasks i).memoryRoot ≠ 0
  active_ne : c.activeRoot ≠ 0

section Steps
variable {K : Stacks} {c c' : Scheduler} {exited : Bool}

theorem Scheduler.OnRoot.boot {root : ℕ} (hroot : root ≠ 0) : (Scheduler.boot root).OnRoot false where
  numbered := Scheduler.Numbered.boot root
  unused _ := ⟨rfl, fun _ => rfl⟩
  root_eq hcon := Bool.noConfusion hcon
  live hcon := Bool.noConfusion hcon
  dead hcon := Bool.noConfusion hcon
  root_ne _ hlive := absurd rfl hlive
  active_ne := hroot

/-- Steps that leave the address spaces and the current task alone. -/
theorem Scheduler.OnRoot.sameSpace (h : c.OnRoot exited)
    (hsame : ∀ i, (c.tasks i).SameSpace (c'.tasks i)) (hnum : c'.Numbered)
    (hcurrent : c'.current = c.current) (hinit : c'.initialized = c.initialized)
    (hactive : c'.activeRoot = c.activeRoot) : c'.OnRoot exited := by
  have hlive : ∀ i, (c'.tasks i).state ≠ .terminated ↔ (c.tasks i).state ≠ .terminated :=
    fun i => not_congr (hsame i).state
  constructor
  · exact hnum
  · rw [hcurrent, hinit]
    intro hfalse
    exact ⟨(h.unused hfalse).1, fun i => (hsame i).state.mpr ((h.unused hfalse).2 i)⟩
  · rw [hcurrent, hinit, hactive, (hsame _).memoryRoot]
    exact h.root_eq
  · rw [hcurrent, hinit, hlive]
    exact h.live
  · rw [hcurrent, (hsame _).state]
    exact h.dead
  · intro i hi
    rw [(hsame i).memoryRoot]
    exact h.root_ne i ((hlive i).mp hi)
  · rw [hactive]
    exact h.active_ne

theorem install_first (hinit : c.initialized = false) (hfree : (c.tasks 0).state = .terminated)
    (mode : ExecutionMode) (root : ℕ) (owns : Bool) (top : ℕ) :
    ((c.install K mode root owns top).2.tasks 0).state = .running := by
  obtain ⟨t, -, heq⟩ := install_of_freeSlot (K := K) (freeSlot_zero hfree) mode root owns top
  rw [heq, hinit]
  simp

/-- A slot that is filled is not the current one, except by the very first spawn. -/
theorem Scheduler.OnRoot.install (h : c.OnRoot false) (mode : ExecutionMode) {root : ℕ}
    (hroot : root ≠ 0) (hfirst : c.initialized = false → root = c.activeRoot) (owns : Bool)
    (top : ℕ) (hnum : (c.install K mode root owns top).2.Numbered) :
    (c.install K mode root owns top).2.OnRoot false := by
  rcases install_fills K c mode root owns top (fun hinit => (h.unused hinit).2) with
    heq | ⟨i, t, hi, hlive, rfl, -, -, heq⟩
  · rw [heq]
    exact h
  have hzero : c.initialized = false → i = 0 := by
    intro hinit
    by_contra hne
    have hfree := (h.unused hinit).2 0
    have hrunning := install_first (K := K) hinit hfree mode t.memoryRoot owns top
    rw [heq] at hrunning
    dsimp only at hrunning
    rw [Function.update_of_ne (Ne.symm hne), hfree] at hrunning
    exact TaskState.noConfusion hrunning
  rw [heq] at hnum ⊢
  have hcurrent : c.current = i ∧ t.memoryRoot = c.activeRoot ∨
      c.current ≠ i ∧ c.initialized = true := by
    cases hinit : c.initialized with
    | false => exact Or.inl ⟨(h.unused hinit).1.trans (hzero hinit).symm, hfirst hinit⟩
    | true =>
      refine Or.inr ⟨fun hcon => ?_, rfl⟩
      exact h.live hinit rfl (hcon ▸ hi)
  have hslot : ∀ j, j = i ∧ Function.update c.tasks i t j = t ∨
      j ≠ i ∧ Function.update c.tasks i t j = c.tasks j := by
    intro j
    by_cases hj : j = i
    · exact Or.inl ⟨hj, by rw [hj, Function.update_self]⟩
    · exact Or.inr ⟨hj, Function.update_of_ne hj _ _⟩
  constructor
  · exact hnum
  · exact fun hcon => Bool.noConfusion hcon
  · intro _
    dsimp only
    rcases hcurrent with ⟨hcur, hactive⟩ | ⟨hcur, hinit⟩
    · rw [hcur, Function.update_self, hactive]
    · rw [Function.update_of_ne hcur]
      exact h.root_eq hinit
  · intro _ _
    dsimp only
    rcases hcurrent with ⟨hcur, -⟩ | ⟨hcur, hinit⟩
    · rw [hcur, Function.update_self]
      exact hlive
    · rw [Function.update_of_ne hcur]
      exact h.live hinit rfl
  · exact fun hcon => Bool.noConfusion hcon
  · intro j hj
    dsimp only at hj ⊢
    rcases hslot j with ⟨-, heqj⟩ | ⟨-, heqj⟩
    · rw [heqj]
      exact hroot
    · rw [heqj] at hj ⊢
      exact h.root_ne j hj
  · exact h.active_ne

theorem Scheduler.OnRoot.exit (h : c.OnRoot exited) : c.exit.OnRoot true := by
  have hself : c.exit.tasks c.current = { c.tasks c.current with state := .terminated } :=
    c.setState_same _
  constructor
  · exact h.numbered.exit
  · intro hinit
    obtain ⟨hcur, hdead⟩ := h.unused hinit
    refine ⟨hcur, fun i => ?_⟩
    by_cases hi : i = c.current
    · rw [hi, hself]
    · rw [show c.exit.tasks i = c.tasks i from c.setState_of_ne _ hi]
      exact hdead i
  · intro hinit
    change (c.exit.tasks c.current).memoryRoot = c.activeRoot
    rw [hself]
    exact h.root_eq hinit
  · exact fun _ hcon => Bool.noConfusion hcon
  · intro _
    change (c.exit.tasks c.current).state = .terminated
    rw [hself]
  · intro i hi
    by_cases hcur : i = c.current
    · rw [hcur, hself] at hi
      exact absurd rfl hi
    · rw [show c.exit.tasks i = c.tasks i from c.setState_of_ne _ hcur] at hi ⊢
      exact h.root_ne i hi
  · exact h.active_ne

theorem rootAfter_eq (h : (c.tasks c.current).memoryRoot = c.activeRoot) {next : Slot}
    (hroot : (c.tasks next).memoryRoot ≠ 0) : c.rootAfter next = (c.tasks next).memoryRoot := by
  unfold rootAfter
  dsimp only
  split_ifs with hchange
  · rfl
  · rw [← h]
    by_contra hne
    exact hchange ⟨Ne.symm hne, hroot⟩

theorem switchTo_next {next : Slot} (hready : (c.tasks next).state = .ready) :
    (c.switchTo next).sched.tasks next = { c.tasks next with state := .running } := by
  by_cases hdead : (c.tasks c.current).state = .terminated ∧
      (c.tasks c.current).ownsMemoryRoot = true
  · have hne : c.current ≠ next := by
      rintro rfl
      exact TaskState.noConfusion (hready.symm.trans hdead.1)
    rw [(c.switchTo_of_dead hne hdead.1 hdead.2).2, setTask_of_ne _ _ (Ne.symm hne), activate_same]
  · rw [(c.switchTo_of_not_dead next hdead).2, activate_same]

theorem switchTo_sameSpace {next i : Slot} (hready : (c.tasks next).state = .ready)
    (hi : (c.tasks i).state ≠ .terminated) :
    (c.tasks i).SameSpace ((c.switchTo next).sched.tasks i) := by
  by_cases hn : i = next
  · rw [hn, switchTo_next hready]
    refine ⟨rfl, rfl, rfl, ?_⟩
    rw [hready]
    simp
  · by_cases hcur : i = c.current
    · subst hcur
      rw [c.switchTo_left hn hi]
      exact .refl _
    · rw [c.switchTo_of_ne hn hcur]
      exact .refl _

theorem switchTo_dead {next i : Slot} (hready : (c.tasks next).state = .ready)
    (hi : (c.tasks i).state = .terminated) :
    ((c.switchTo next).sched.tasks i).state = .terminated := by
  have hn : i ≠ next := by
    rintro rfl
    exact TaskState.noConfusion (hready.symm.trans hi)
  by_cases hcur : i = c.current
  · subst hcur
    by_cases howns : (c.tasks c.current).ownsMemoryRoot = true
    · rw [(c.switchTo_of_dead hn hi howns).2, setTask_same]
      exact hi
    · rw [(c.switchTo_of_not_dead next (fun hcon => howns hcon.2)).2, activate_of_ne c hn]
      exact hi
  · rw [c.switchTo_of_ne hn hcur]
    exact hi

theorem Scheduler.OnRoot.runSchedule (h : c.OnRoot exited) (sp : ℕ) :
    (c.runSchedule sp).sched.OnRoot
      (exited && decide ((c.runSchedule sp).sched.current = c.current)) := by
  have hnum := h.numbered.runSchedule sp
  rcases runSchedule_cases c sp with ⟨next, hinit, hnext, heq⟩ | heq
  swap
  · rw [heq]
    simp only [decide_true, Bool.and_true]
    exact h
  have hsaved : (c.save sp).OnRoot exited :=
    h.sameSpace (c.save_sameSpace sp) (h.numbered.save sp) (c.save_current sp)
      (c.save_initialized sp) (c.save_activeRoot sp)
  have hready := nextReady_ready hnext
  have hlive : ((c.save sp).tasks next).state ≠ .terminated := by
    rw [hready]
    decide
  have hinit' : (c.save sp).initialized = true := (c.save_initialized sp).trans hinit
  have hexited : (exited && decide (next = c.current)) = false := by
    rw [Bool.and_eq_false_iff, decide_eq_false_iff_not, or_iff_not_imp_left, Bool.not_eq_false]
    rintro hex rfl
    have hdead := hsaved.dead hex
    rw [save_current] at hdead
    exact hlive hdead
  rw [heq] at hnum ⊢
  rw [switchTo_current, hexited]
  have hrunning : (((c.save sp).switchTo next).sched.tasks next).state ≠ .terminated := by
    rw [switchTo_next hready]
    exact fun hcon => TaskState.noConfusion hcon
  constructor
  · exact hnum
  · intro hcon
    rw [switchTo_initialized, hinit'] at hcon
    exact Bool.noConfusion hcon
  · intro _
    rw [switchTo_current, switchTo_activeRoot,
      rootAfter_eq (hsaved.root_eq hinit') (hsaved.root_ne next hlive)]
    exact (switchTo_sameSpace hready hlive).memoryRoot
  · intro _ _
    rw [switchTo_current]
    exact hrunning
  · exact fun hcon => Bool.noConfusion hcon
  · intro i hi
    have hold : ((c.save sp).tasks i).state ≠ .terminated := fun hcon => hi (switchTo_dead hready hcon)
    rw [(switchTo_sameSpace hready hold).memoryRoot]
    exact hsaved.root_ne i hold
  · rw [switchTo_activeRoot, rootAfter_eq (hsaved.root_eq hinit') (hsaved.root_ne next hlive)]
    exact hsaved.root_ne next hlive

theorem runSchedule_sameSpace (sp : ℕ) {i : Slot} (hi : (c.tasks i).state ≠ .terminated) :
    (c.tasks i).SameSpace ((c.runSchedule sp).sched.tasks i) := by
  rcases runSchedule_cases c sp with ⟨next, -, hnext, heq⟩ | heq
  · have hsaved := c.save_sameSpace sp i
    rw [heq]
    exact hsaved.trans (switchTo_sameSpace (nextReady_ready hnext) (mt hsaved.state.mp hi))
  · rw [heq]
    exact .refl _

theorem setTask_sameSpace {i : Slot} {t : Task} (h : (c.tasks i).SameSpace t) (j : Slot) :
    (c.tasks j).SameSpace ((c.setTask i t).tasks j) := by
  by_cases hj : j = i
  · rw [hj, setTask_same]
    exact h
  · rw [setTask_of_ne c t hj]
    exact .refl _

/-- What `send_message` and `receive_message` do to the table is not visible to the address spaces. -/
structure Scheduler.OnlyMail (c c' : Scheduler) : Prop where
  sameSpace : ∀ i, (c.tasks i).SameSpace (c'.tasks i)
  current : c'.current = c.current
  initialized : c'.initialized = c.initialized
  activeRoot : c'.activeRoot = c.activeRoot

theorem Scheduler.OnlyMail.refl (c : Scheduler) : c.OnlyMail c := ⟨fun _ => .refl _, rfl, rfl, rfl⟩

theorem Scheduler.OnlyMail.setTask {i : Slot} {t : Task} (h : (c.tasks i).SameSpace t) :
    c.OnlyMail (c.setTask i t) := ⟨setTask_sameSpace h, rfl, rfl, rfl⟩

theorem sendMessage_onlyMail (c : Scheduler) (destId : ℕ) (data : Vector (BitVec 8) 32) :
    c.OnlyMail (c.sendMessage destId data).2 := by
  rcases sendMessage_spec c destId data with ⟨i, -, -, heq⟩ | ⟨e, heq⟩
  · rw [heq]
    apply Scheduler.OnlyMail.setTask
    refine ⟨rfl, rfl, rfl, ?_⟩
    dsimp only
    split_ifs with hblocked
    · simp [hblocked]
    · rfl
  · rw [heq]
    exact .refl c

/-- A receive blocks the caller itself, so it revives nobody. -/
theorem receiveMessage_onlyMail (hnum : c.Numbered)
    (hlive : (c.tasks c.current).state ≠ .terminated) : c.OnlyMail c.receiveMessage.2 := by
  rcases receiveMessage_spec c with ⟨i, msg, -, -, heq⟩ | ⟨i, hown, -, heq⟩ | heq
  · rw [heq]
    exact .setTask ⟨rfl, rfl, rfl, Iff.rfl⟩
  · obtain ⟨rfl, -⟩ := hnum.ownSlot_eq hown
    rw [heq]
    apply Scheduler.OnlyMail.setTask
    exact ⟨rfl, rfl, rfl, fun hcon => TaskState.noConfusion hcon, fun hcon => absurd hcon hlive⟩
  · rw [heq]
    exact .refl c

end Steps

end MitosOS.Tasks
