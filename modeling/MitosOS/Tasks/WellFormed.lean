import MitosOS.Tasks.Dispatch

/-! The task table in every reachable state: which slot runs, which numbers the tasks carry, and which
slot `run_schedule` takes next. -/
namespace MitosOS.Tasks
open MitosOS.Lib Scheduler

namespace Scheduler

/-- How many slots come between the current one and `i` in cyclic order; the current one is last. -/
def distance (s : Scheduler) (i : Slot) : ℕ := (i.val + 3 - s.current.val) % 4

/-- The slot is ready, and no ready slot comes before it in cyclic order. -/
structure FirstReady (s : Scheduler) (i : Slot) : Prop where
  ready : (s.tasks i).state = .ready
  first : ∀ j, (s.tasks j).state = .ready → s.distance i ≤ s.distance j

def OnlyCurrentRuns (s : Scheduler) : Prop := ∀ i, (s.tasks i).state = .running → i = s.current

end Scheduler

section Search
variable {s : Scheduler} {i j : Slot}

theorem distance_injective (h : s.distance i = s.distance j) : i = j := by
  have hall : ∀ c i j : Slot, (i.val + 3 - c.val) % 4 = (j.val + 3 - c.val) % 4 → i = j := by
    decide
  exact hall s.current i j h

/-- The round in which the search of `run_schedule` comes to a slot is its distance. -/
theorem eq_add_distance (s : Scheduler) (j : Slot) :
    ∃ k : Slot, k.val = s.distance j ∧ j = s.current + k + 1 := by
  have hall : ∀ c j : Slot, ∃ k : Slot, k.val = (j.val + 3 - c.val) % 4 ∧ j = c + k + 1 := by
    decide
  exact hall s.current j

theorem distance_round (s : Scheduler) (k : Slot) : s.distance (s.current + k + 1) = k.val := by
  have hall : ∀ c k : Slot, ((c + k + 1).val + 3 - c.val) % 4 = k.val := by decide
  exact hall s.current k

theorem firstReady_of_nextReady (h : s.nextReady = some i) : s.FirstReady i := by
  constructor
  · exact nextReady_ready h
  · intro j hj
    unfold nextReady at h
    rw [List.find?_map, Option.map_eq_some_iff] at h
    obtain ⟨k, hk, rfl⟩ := h
    obtain ⟨k', hk', rfl⟩ := eq_add_distance s j
    rw [distance_round, ← hk']
    by_contra hlt
    have hskipped := finRange_find?_lt hk (Fin.lt_def.mpr (Nat.not_le.mp hlt))
    exact absurd hj (of_decide_eq_false hskipped)

theorem nextReady_eq_some_iff : s.nextReady = some i ↔ s.FirstReady i := by
  constructor
  · exact firstReady_of_nextReady
  · intro hfirst
    cases hnext : s.nextReady with
    | none => exact absurd hfirst.ready (nextReady_none hnext i)
    | some j =>
      have hfound := firstReady_of_nextReady hnext
      have heq := Nat.le_antisymm (hfound.first i hfirst.ready) (hfirst.first j hfound.ready)
      rw [distance_injective heq]

end Search

section Running
variable {K : Stacks} {s : Scheduler} {i : Slot}

theorem Scheduler.OnlyCurrentRuns.setTask (h : s.OnlyCurrentRuns) {t : Task}
    (ht : t.state = .running → i = s.current) : (s.setTask i t).OnlyCurrentRuns := by
  intro j hj
  by_cases hji : j = i
  · rw [hji, setTask_same] at hj
    exact hji.trans (ht hj)
  · rw [setTask_of_ne s t hji] at hj
    exact h j hj

theorem Scheduler.OnlyCurrentRuns.save_not_running (h : s.OnlyCurrentRuns) {sp : ℕ} (hsp : sp ≠ 0)
    (i : Slot) : ((s.save sp).tasks i).state ≠ .running := by
  by_cases hrun : (s.tasks i).state = .running
  · have hi := h i hrun
    subst hi
    rw [save_of_running s hsp hrun]
    exact fun hcon => TaskState.noConfusion hcon
  · rw [save_of_not_running sp hrun]
    exact hrun

theorem switchTo_selected (s : Scheduler) (h : (s.tasks i).state = .ready) :
    ((s.switchTo i).sched.tasks i).state = .running := by
  by_cases hdead : (s.tasks s.current).state = .terminated ∧
      (s.tasks s.current).ownsMemoryRoot = true
  · have hne : s.current ≠ i := by
      intro hcon
      rw [hcon, h] at hdead
      exact TaskState.noConfusion hdead.1
    rw [(switchTo_of_dead s hne hdead.1 hdead.2).2, setTask_of_ne _ _ hne.symm, activate_same]
  · rw [(switchTo_of_not_dead s i hdead).2, activate_same]

/-- The slot that `run_schedule` selects is the only one that runs afterwards. -/
theorem Scheduler.OnlyCurrentRuns.running_iff_of_selects (h : s.OnlyCurrentRuns) {sp : ℕ}
    (hsp : sp ≠ 0) (hsel : s.Selects sp i) (j : Slot) :
    ((s.runSchedule sp).sched.tasks j).state = .running ↔ j = i := by
  rw [runSchedule_of_selects hsel]
  constructor
  · intro hj
    by_contra hne
    rw [(switchTo_keeps (s.save sp) hne).2] at hj
    exact h.save_not_running hsp j hj
  · rintro rfl
    exact switchTo_selected (s.save sp) (nextReady_ready hsel.2)

theorem runSchedule_current_of_selects {sp : ℕ} (hsel : s.Selects sp i) :
    (s.runSchedule sp).sched.current = i := by
  rw [runSchedule_of_selects hsel, switchTo_current]

theorem runSchedule_of_not_selects {sp : ℕ} (h : ∀ i, ¬ s.Selects sp i) :
    s.runSchedule sp = ⟨sp, none, s⟩ := by
  rcases runSchedule_cases s sp with ⟨next, hinit, hnext, -⟩ | heq
  · exact absurd ⟨hinit, hnext⟩ (h next)
  · exact heq

theorem Scheduler.OnlyCurrentRuns.schedule (h : s.OnlyCurrentRuns) {sp : ℕ} (hsp : sp ≠ 0) :
    (s.runSchedule sp).sched.OnlyCurrentRuns := by
  by_cases hsel : ∃ i, s.Selects sp i
  · obtain ⟨i, hsel⟩ := hsel
    intro j hj
    rw [runSchedule_current_of_selects hsel]
    exact (h.running_iff_of_selects hsp hsel j).mp hj
  · rw [runSchedule_of_not_selects (not_exists.mp hsel)]
    exact h

/-- Until the first spawn of all the boot context counts as slot 0, and this is the slot that the
first spawn marks as running. -/
theorem Scheduler.OnlyCurrentRuns.spawn (h : s.OnlyCurrentRuns) (hboot : BootOnly s) (c : SpawnCall) :
    (c.run K s).2.OnlyCurrentRuns := by
  cases hfree : s.freeSlot with
  | none =>
    rw [c.run_full hfree]
    exact h
  | some i =>
    obtain ⟨t, ht, heq⟩ := c.run_fills (K := K) hfree
    have hset : (s.setTask i t).OnlyCurrentRuns := by
      apply h.setTask
      rw [ht.state_eq]
      exact fun hcon => TaskState.noConfusion hcon
    rw [heq]
    dsimp only
    split_ifs with hinit
    · exact hset
    · have hcur := hboot.current (Bool.eq_false_of_not_eq_true hinit)
      exact OnlyCurrentRuns.setTask hset fun _ => hcur.symm

theorem Scheduler.OnlyCurrentRuns.send (h : s.OnlyCurrentRuns) (destId : ℕ)
    (data : Vector (BitVec 8) 32) : (s.sendMessage destId data).2.OnlyCurrentRuns := by
  rcases sendMessage_cases s destId data with heq | ⟨i, -, -, heq⟩
  · rw [heq]
    exact h
  · rw [heq]
    apply h.setTask
    intro hrunning
    dsimp only at hrunning
    split_ifs at hrunning
    exact h i hrunning

theorem Scheduler.OnlyCurrentRuns.receive (h : s.OnlyCurrentRuns) :
    s.receiveMessage.2.OnlyCurrentRuns := by
  rcases receiveMessage_cases s with heq | ⟨i, heq | heq⟩
  · rw [heq]
    exact h
  · rw [heq]
    exact h.setTask (h i)
  · rw [heq]
    exact h.setTask fun hcon => TaskState.noConfusion hcon

end Running

structure Scheduler.WellFormed (s : Scheduler) : Prop where
  boot : BootOnly s
  running : s.OnlyCurrentRuns

section Runs
variable {K : Stacks} {s : Scheduler}

theorem Scheduler.WellFormed.step (h : s.WellFormed) {e : TaskEvent}
    (he : (taskSystem K).Enabled s e) : (e.next K s).WellFormed := by
  refine ⟨h.boot.step e, ?_⟩
  cases e with
  | spawn c => exact h.running.spawn h.boot c
  | schedule sp => exact h.running.schedule he
  | send destId data => exact h.running.send destId data
  | receive => exact h.running.receive
  | exit => exact h.running.setTask fun hcon => TaskState.noConfusion hcon

theorem Scheduler.WellFormed.of_run {root : ℕ} (hrun : (taskSystem K).Run (.boot root) s) :
    s.WellFormed := by
  apply hrun.invariant (fun _ _ h he _ => h.step he)
  refine ⟨.boot root, ?_⟩
  intro i hi
  exact TaskState.noConfusion hi

/-- A message changes no slot but the one whose number it is addressed to. -/
theorem Scheduler.WellFormed.dest_of_changed (h : s.WellFormed) {destId : ℕ}
    {data : Vector (BitVec 8) 32} {i : Slot}
    (hi : (s.sendMessage destId data).2.tasks i ≠ s.tasks i) : destId = i := by
  rcases sendMessage_cases s destId data with heq | ⟨j, hid, hlive, heq⟩
  · rw [heq] at hi
    exact absurd rfl hi
  · have hij : i = j := by
      by_contra hne
      rw [heq, setTask_of_ne s _ hne] at hi
      exact hi rfl
    rw [hij, ← hid]
    exact h.boot.numbered.id_of_live hlive

end Runs

/-- In every reachable state only the current slot can be running, every live slot carries its own
number, and messages reach only the slot they are addressed to. `run_schedule` selects the first
ready slot in cyclic order, which then alone is running and is resumed on its saved stack pointer;
where none is ready, nothing changes. -/
theorem scheduler_wellFormed (K : Stacks) (root : ℕ) (s : Scheduler)
    (hrun : (taskSystem K).Run (.boot root) s) :
    (∀ i, (s.tasks i).state = .running → i = s.current) ∧
    (∀ i, (s.tasks i).state ≠ .terminated → (s.tasks i).id = i) ∧
    (∀ destId data i, (s.sendMessage destId data).2.tasks i ≠ s.tasks i → destId = i) ∧
    ∀ sp, sp ≠ 0 →
      (∀ i, s.Selects sp i ↔ s.initialized = true ∧ (s.save sp).FirstReady i) ∧
      (∀ i, s.Selects sp i →
        (s.runSchedule sp).sched.current = i ∧
        (∀ j, ((s.runSchedule sp).sched.tasks j).state = .running ↔ j = i) ∧
        (s.runSchedule sp).sp = ((s.save sp).tasks i).sp) ∧
      ((∀ i, ¬ s.Selects sp i) → s.runSchedule sp = ⟨sp, none, s⟩) := by
  have hwell := Scheduler.WellFormed.of_run hrun
  refine ⟨hwell.running, ?_, ?_, ?_⟩
  · intro i hi
    exact hwell.boot.numbered.id_of_live hi
  · intro destId data i hi
    exact hwell.dest_of_changed hi
  · intro sp hsp
    refine ⟨?_, ?_, runSchedule_of_not_selects⟩
    · intro i
      exact and_congr_right fun _ => nextReady_eq_some_iff
    · intro i hsel
      refine ⟨runSchedule_current_of_selects hsel, hwell.running.running_iff_of_selects hsp hsel, ?_⟩
      rw [runSchedule_of_selects hsel, switchTo_sp]

/-- After two spawns the first tick takes slot 1 and starts it on its initial frame. -/
theorem scheduler_wellFormed_first_tick :
    ∃ s, (taskSystem exampleStacks).Run (.boot 0x1000) s ∧ s.Selects 0x7000 1 ∧
      (s.runSchedule 0x7000).sched.current = 1 ∧
      (∀ j, ((s.runSchedule 0x7000).sched.tasks j).state = .running ↔ j = 1) ∧
      (s.runSchedule 0x7000).sp = exampleStacks.framePtr 1 := by
  have hrun : (taskSystem exampleStacks).Run (.boot 0x1000)
      (backgroundWorker.run exampleStacks afterFirstSpawn).2 :=
    (Relation.ReflTransGen.single ⟨.spawn backgroundWorker, trivial, trivial, rfl⟩).tail
      ⟨.spawn backgroundWorker, trivial, trivial, rfl⟩
  have hsel : (backgroundWorker.run exampleStacks afterFirstSpawn).2.Selects 0x7000 1 := by
    decide
  obtain ⟨-, -, -, hschedule⟩ := scheduler_wellFormed exampleStacks 0x1000 _ hrun
  obtain ⟨-, hswitch, -⟩ := hschedule 0x7000 (by decide)
  obtain ⟨hcurrent, hrunning, hsp⟩ := hswitch 1 hsel
  refine ⟨_, hrun, hsel, hcurrent, hrunning, ?_⟩
  rw [hsp]
  decide

end MitosOS.Tasks
