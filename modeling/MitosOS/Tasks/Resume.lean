import MitosOS.Tasks.Events

/-! When a task that was switched out resumes where it stopped. -/
namespace MitosOS.Tasks
open MitosOS.Lib Scheduler

structure Scheduler.Waiting (s : Scheduler) (c : Slot) (sp : ℕ) : Prop where
  initialized : s.initialized = true
  state : (s.tasks c).state = .ready
  sp_eq : (s.tasks c).sp = sp

/-- The slot waits on `sp`, and it is not the one that is executing. -/
structure Scheduler.Queued (s : Scheduler) (i : Slot) (sp : ℕ) : Prop where
  numbered : s.Numbered
  other : i ≠ s.current
  waiting : s.Waiting i sp

section Install
variable {K : Stacks} {s : Scheduler} {mode : ExecutionMode} {root top : ℕ} {owns : Bool}

/-- Once the table is initialised, spawning leaves every live task alone. -/
theorem install_of_live (hinit : s.initialized = true) {c : Slot}
    (hc : (s.tasks c).state ≠ .terminated) :
    (s.install K mode root owns top).2.tasks c = s.tasks c := by
  rcases install_cases K s mode root owns top with h | ⟨i, hi, -, h⟩
  · rw [h]
  · rw [h, if_pos hinit]
    apply setTask_of_ne
    intro hci
    exact hc (hci ▸ hi)

theorem install_initialized (hinit : s.initialized = true) :
    (s.install K mode root owns top).2.initialized = true := by
  rcases install_cases K s mode root owns top with h | ⟨i, -, -, h⟩
  · rw [h]
    exact hinit
  · rw [h, if_pos hinit]
    exact hinit

end Install

section Waiting
variable {K : Stacks} {s s' : Scheduler} {c : Slot} {sp : ℕ}

theorem receiveMessage_of_ne (h : s.Numbered) (hc : c ≠ s.current) :
    s.receiveMessage.2.tasks c = s.tasks c := by
  rcases receiveMessage_spec s with ⟨i, msg, hown, -, heq⟩ | ⟨i, hown, -, heq⟩ | heq
  · rw [heq]
    exact setTask_of_ne s _ (fun hci => hc (hci.trans (h.ownSlot_eq hown).1))
  · rw [heq]
    exact setState_of_ne s _ (fun hci => hc (hci.trans (h.ownSlot_eq hown).1))
  · rw [heq]

theorem Scheduler.Waiting.schedule (h : s.Waiting c sp) (hc : c ≠ s.current) {sp' : ℕ}
    (hc' : c ≠ (s.runSchedule sp').sched.current) : (s.runSchedule sp').sched.Waiting c sp := by
  rcases runSchedule_cases s sp' with ⟨next, -, -, heq⟩ | heq
  · rw [heq, switchTo_current] at hc'
    have htask : (s.runSchedule sp').sched.tasks c = s.tasks c := by
      rw [heq, switchTo_of_ne _ hc' (by rwa [save_current]), save_of_ne s sp' hc]
    constructor
    · rw [heq, switchTo_initialized, save_initialized]
      exact h.initialized
    · rw [htask]
      exact h.state
    · rw [htask]
      exact h.sp_eq
  · rw [heq]
    exact h

theorem Scheduler.Queued.step (h : s.Queued c sp) (e : TaskEvent)
    (hc' : c ≠ (e.next K s).current) : (e.next K s).Queued c sp := by
  refine ⟨h.numbered.next e, hc', ?_⟩
  obtain ⟨hnum, hc, h⟩ := h
  have hlive : (s.tasks c).state ≠ .terminated := by
    rw [h.state]
    decide
  have hkeep : ∀ t : Scheduler, t.tasks c = s.tasks c → t.initialized = true → t.Waiting c sp :=
    fun t ht hinit => ⟨hinit, ht ▸ h.state, ht ▸ h.sp_eq⟩
  cases e with
  | spawn call =>
    obtain ⟨mode, root, owns, top, heq⟩ := call.run_eq_install K s
    rw [TaskEvent.next, heq]
    exact hkeep _ (install_of_live h.initialized hlive) (install_initialized h.initialized)
  | schedule sp' => exact h.schedule hc hc'
  | send destId data =>
    rcases sendMessage_cases s destId data with heq | ⟨i, -, -, heq⟩
    · rw [TaskEvent.next, heq]
      exact h
    · rw [TaskEvent.next, heq]
      by_cases hci : c = i
      · subst hci
        refine ⟨h.initialized, ?_, ?_⟩
        · rw [setTask_same]
          simp [h.state]
        · rw [setTask_same]
          exact h.sp_eq
      · exact hkeep _ (setTask_of_ne s _ hci) h.initialized
  | receive =>
    apply hkeep s.receiveMessage.2 (receiveMessage_of_ne hnum hc)
    rcases receiveMessage_cases s with heq | ⟨i, heq | heq⟩ <;> rw [heq] <;> exact h.initialized
  | exit => exact hkeep _ (setState_of_ne s _ hc) h.initialized

theorem Scheduler.Queued.of_run (h : s.Queued c sp)
    (hrun : (taskSystem K).RunWhen (fun t e => (e.next K t).current ≠ c) s s') : s'.Queued c sp := by
  refine @EventSystem.RunWhen.invariant _ _ _ _ _ _ (fun t => t.Queued c sp) ?_ hrun h
  intro t e hqueued _ hother
  exact hqueued.step e hother.symm

/-- A task that is switched out while running waits on the stack pointer it was entered with. -/
theorem waiting_of_switch (hsp : sp ≠ 0) (hrunning : (s.tasks s.current).state = .running)
    (hswitch : (s.runSchedule sp).sched.current ≠ s.current) :
    (s.runSchedule sp).sched.Waiting s.current sp := by
  have hsaved := save_of_running s hsp hrunning
  rcases runSchedule_cases s sp with ⟨next, hinit, -, heq⟩ | heq
  · rw [heq, switchTo_current] at hswitch
    have hready : ((s.save sp).tasks (s.save sp).current).state ≠ .terminated := by
      rw [save_current, hsaved]
      simp
    have hleft := switchTo_left (s.save sp) (by rw [save_current]; exact hswitch.symm) hready
    rw [save_current, hsaved] at hleft
    rw [heq]
    refine ⟨?_, ?_, ?_⟩
    · rw [switchTo_initialized, save_initialized]
      exact hinit
    · rw [hleft]
    · rw [hleft]
  · rw [heq] at hswitch
    exact absurd rfl hswitch

theorem Scheduler.Waiting.select (h : s.Waiting c sp) (hc : c ≠ s.current) {sp' : ℕ}
    (hsel : (s.runSchedule sp').sched.current = c) : (s.runSchedule sp').sp = sp := by
  rcases runSchedule_cases s sp' with ⟨next, -, -, heq⟩ | heq
  · rw [heq, switchTo_current] at hsel
    subst hsel
    rw [heq, switchTo_sp, save_of_ne s sp' hc]
    exact h.sp_eq
  · rw [heq] at hsel
    exact absurd hsel.symm hc

end Waiting

/-- In every run, a task that `run_schedule` switches out while its state is `Running` is resumed
on exactly the stack pointer it was entered with, whatever happens before it is selected again. -/
theorem resumes_where_switched_out (K : Stacks) (kernelRoot : ℕ) (s : Scheduler)
    (hrun : (taskSystem K).Run (.boot kernelRoot) s) (sp : ℕ) (hsp : sp ≠ 0)
    (hrunning : (s.tasks s.current).state = .running)
    (hswitch : (s.runSchedule sp).sched.current ≠ s.current) (t : Scheduler)
    (hpath : (taskSystem K).RunWhen (fun a e => (e.next K a).current ≠ s.current)
      (s.runSchedule sp).sched t) (sp' : ℕ)
    (hselect : (t.runSchedule sp').sched.current = s.current) : (t.runSchedule sp').sp = sp := by
  have hnum := (Scheduler.Numbered.of_run hrun).runSchedule sp
  have hstart : (s.runSchedule sp).sched.Queued s.current sp :=
    ⟨hnum, hswitch.symm, waiting_of_switch hsp hrunning hswitch⟩
  have hqueued := hstart.of_run hpath
  exact hqueued.waiting.select hqueued.other hselect

section Traces

/-- The table after two threads were spawned at boot: slot 0 runs, slot 1 is ready. -/
def twoThreads : Scheduler :=
  ((Scheduler.boot 0x1000).spawn exampleStacks .sharedThread none 0).2.spawn exampleStacks
    .sharedThread none 0 |>.2

/-- Slot 0 finds its mailbox empty, yields at 0x5000 to slot 1, and is woken by it. -/
def wokenReceiver : Scheduler :=
  ((twoThreads.receiveMessage.2.runSchedule 0x5000).sched.sendMessage 0 (Vector.replicate 32 0)).2

theorem twoThreads_reachable : (taskSystem exampleStacks).Run (.boot 0x1000) twoThreads := by
  have hfirst : (taskSystem exampleStacks).Run (.boot 0x1000)
      ((Scheduler.boot 0x1000).spawn exampleStacks .sharedThread none 0).2 :=
    Relation.ReflTransGen.single ⟨.spawn (.spawn .sharedThread none 0), trivial, trivial, rfl⟩
  exact hfirst.tail ⟨.spawn (.spawn .sharedThread none 0), trivial, trivial, rfl⟩

/-- The blocked task was not saved: it comes back on the frame of its creation. -/
theorem resumes_on_stale_sp :
    (taskSystem exampleStacks).Run (.boot 0x1000) twoThreads.receiveMessage.2 ∧
    twoThreads.receiveMessage.2.current = 0 ∧
    (twoThreads.receiveMessage.2.runSchedule 0x5000).sched.current = 1 ∧
    (taskSystem exampleStacks).RunWhen (fun a e => (e.next exampleStacks a).current ≠ 0)
      (twoThreads.receiveMessage.2.runSchedule 0x5000).sched wokenReceiver ∧
    (wokenReceiver.runSchedule 0x6000).sched.current = 0 ∧
    (wokenReceiver.runSchedule 0x6000).sp = 0x101F60 := by
  have hcurrent : wokenReceiver.current ≠ 0 := by decide
  refine ⟨twoThreads_reachable.tail ⟨.receive, trivial, trivial, rfl⟩, by decide,
    by decide, ?_, by decide, by decide⟩
  exact Relation.ReflTransGen.single ⟨.send 0 (Vector.replicate 32 0), trivial, hcurrent, rfl⟩

/-- Two threads that yield to each other. -/
theorem resumes_where_switched_out_threads :
    (twoThreads.tasks twoThreads.current).state = .running ∧
      ((twoThreads.runSchedule 0x5000).sched.runSchedule 0x6000).sp = 0x5000 := by
  have hrunning : (twoThreads.tasks twoThreads.current).state = .running := by decide
  refine ⟨hrunning, ?_⟩
  apply resumes_where_switched_out exampleStacks 0x1000 twoThreads twoThreads_reachable 0x5000
    (by decide) hrunning (by decide) _ Relation.ReflTransGen.refl
  decide

end Traces

end MitosOS.Tasks
