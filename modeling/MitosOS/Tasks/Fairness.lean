import MitosOS.Tasks.Resume
import MitosOS.Tasks.WellFormed

/-! How long a ready task waits for the CPU. -/
namespace MitosOS.Tasks
open MitosOS.Lib Scheduler

def TaskEvent.isSchedule : TaskEvent → Bool
  | .schedule _ => true
  | _ => false

section Steps
variable {K : Stacks} {s : Scheduler} {e : TaskEvent} {i next : Slot} {sp : ℕ}

theorem TaskEvent.next_current (he : e.isSchedule = false) :
    (e.next K s).current = s.current := by
  cases e with
  | spawn c =>
    change (c.run K s).2.current = s.current
    cases hfree : s.freeSlot with
    | none => rw [c.run_full hfree]
    | some i =>
      obtain ⟨t, -, heq⟩ := c.run_fills (K := K) hfree
      rw [heq]
      dsimp only
      split_ifs <;> rfl
  | schedule sp => contradiction
  | send destId data =>
    change (s.sendMessage destId data).2.current = s.current
    rcases sendMessage_cases s destId data with heq | ⟨i, -, -, heq⟩ <;> rw [heq]
    rfl
  | receive =>
    change s.receiveMessage.2.current = s.current
    rcases receiveMessage_cases s with heq | ⟨i, heq | heq⟩ <;> rw [heq] <;> rfl
  | exit => rfl

theorem distance_closer {s' : Scheduler} (hnext : s'.current = next)
    (hlt : s.distance next < s.distance i) : s'.distance i < s.distance i := by
  have hall : ∀ c n i : Slot, (n.val + 3 - c.val) % 4 < (i.val + 3 - c.val) % 4 →
      (i.val + 3 - n.val) % 4 < (i.val + 3 - c.val) % 4 := by decide
  unfold distance at hlt ⊢
  rw [hnext]
  exact hall s.current next i hlt

theorem distance_le_two (h : i ≠ s.current) : s.distance i ≤ 2 := by
  have hall : ∀ c i : Slot, i ≠ c → (i.val + 3 - c.val) % 4 ≤ 2 := by decide
  exact hall s.current i h

/-- `run_schedule` takes a queued slot, or one that brings it closer. -/
theorem Scheduler.Queued.schedule (h : s.Queued i sp) (sp' : ℕ) :
    s.Selects sp' i ∧ (s.runSchedule sp').sp = sp ∧ (s.runSchedule sp').sched.current = i ∨
    i ≠ (s.runSchedule sp').sched.current ∧ (s.runSchedule sp').sched.distance i < s.distance i := by
  have htask : (s.save sp').tasks i = s.tasks i := save_of_ne s sp' h.other
  have hready : ((s.save sp').tasks i).state = .ready := by rw [htask, h.waiting.state]
  have hfound : ∃ next, (s.save sp').nextReady = some next := by
    cases hnext : (s.save sp').nextReady with
    | none => exact absurd hready (nextReady_none hnext i)
    | some next => exact ⟨next, rfl⟩
  obtain ⟨next, hnext⟩ := hfound
  have hsel : s.Selects sp' next := ⟨h.waiting.initialized, hnext⟩
  have hcurrent := runSchedule_current_of_selects hsel
  by_cases hi : i = next
  · subst hi
    refine Or.inl ⟨hsel, ?_, hcurrent⟩
    rw [runSchedule_of_selects hsel, switchTo_sp, htask, h.waiting.sp_eq]
  · right
    have hle := (firstReady_of_nextReady hnext).first i hready
    have hsame : ∀ j, (s.save sp').distance j = s.distance j := by
      intro j
      rw [distance, save_current, distance]
    rw [hsame, hsame] at hle
    have hne : s.distance next ≠ s.distance i := fun hcon => hi (distance_injective hcon).symm
    refine ⟨?_, distance_closer hcurrent (Nat.lt_of_le_of_ne hle hne)⟩
    rw [hcurrent]
    exact hi

end Steps

section Runs
variable {K : Stacks} {i : Slot} {sp : ℕ}

/-- A queued slot is selected by the time `run_schedule` has been called once more than there are
slots before it. -/
theorem Scheduler.Queued.selected {es : List TaskEvent} : ∀ {s s' : Scheduler}, s.Queued i sp →
    (taskSystem K).Path s es s' → s.distance i < es.countP TaskEvent.isSchedule →
    ∃ es₁ sp' es₂ t, es = es₁ ++ .schedule sp' :: es₂ ∧ (taskSystem K).Path s es₁ t ∧
      es₁.countP TaskEvent.isSchedule ≤ s.distance i ∧ t.Selects sp' i ∧
      (t.runSchedule sp').sp = sp ∧ (t.runSchedule sp').sched.current = i := by
  induction es with
  | nil => exact fun _ _ hcount => absurd hcount (Nat.not_lt_zero _)
  | cons e es ih =>
    intro s s' h hpath hcount
    obtain ⟨he, hpath⟩ := hpath
    -- Every case below either ends the search here or goes on from the next state.
    have hlater : (e.next K s).Queued i sp → (e.next K s).distance i +
        (if e.isSchedule then 1 else 0) ≤ s.distance i → ∃ es₁ sp' es₂ t,
        e :: es = es₁ ++ .schedule sp' :: es₂ ∧ (taskSystem K).Path s es₁ t ∧
        es₁.countP TaskEvent.isSchedule ≤ s.distance i ∧ t.Selects sp' i ∧
        (t.runSchedule sp').sp = sp ∧ (t.runSchedule sp').sched.current = i := by
      intro hqueued hcloser
      rw [List.countP_cons] at hcount
      obtain ⟨es₁, sp', es₂, t, rfl, hpath₁, hcount₁, hsel⟩ := ih hqueued hpath (by omega)
      refine ⟨e :: es₁, sp', es₂, t, rfl, ⟨he, hpath₁⟩, ?_, hsel⟩
      rw [List.countP_cons]
      omega
    cases hkind : e.isSchedule with
    | false =>
      have hcurrent : (e.next K s).current = s.current := TaskEvent.next_current hkind
      apply hlater (h.step e (by rw [hcurrent]; exact h.other))
      rw [hkind, distance, hcurrent, distance]
      exact Nat.le_refl _
    | true =>
      cases e with
      | schedule sp' =>
        rcases h.schedule sp' with hsel | ⟨hother, hcloser⟩
        · exact ⟨[], sp', es, s, rfl, rfl, Nat.zero_le _, hsel⟩
        · exact hlater (h.step _ hother) hcloser
      | spawn c => contradiction
      | send destId data => contradiction
      | receive => contradiction
      | exit => contradiction

end Runs

/-- No task starves: in any run, a ready task that is not executing is resumed by the third call of
`run_schedule` at the latest, on the stack pointer it has been waiting with, whatever is spawned,
sent, received and ended in between. -/
theorem ready_task_resumed (K : Stacks) {root : ℕ} {s s' : Scheduler} {es : List TaskEvent} {i : Slot}
    (hrun : (taskSystem K).Run (.boot root) s) (hinit : s.initialized = true)
    (hready : (s.tasks i).state = .ready) (hother : i ≠ s.current)
    (hpath : (taskSystem K).Path s es s') (hticks : 3 ≤ es.countP TaskEvent.isSchedule) :
    ∃ es₁ sp es₂ t, es = es₁ ++ .schedule sp :: es₂ ∧ (taskSystem K).Path s es₁ t ∧
      es₁.countP TaskEvent.isSchedule ≤ 2 ∧ t.Selects sp i ∧
      (t.runSchedule sp).sp = (s.tasks i).sp ∧ (t.runSchedule sp).sched.current = i := by
  have hqueued : s.Queued i (s.tasks i).sp := ⟨.of_run hrun, hother, hinit, hready, rfl⟩
  have hdistance := distance_le_two hother
  obtain ⟨es₁, sp, es₂, t, hes, hpath₁, hcount, hsel⟩ := hqueued.selected hpath (by omega)
  exact ⟨es₁, sp, es₂, t, hes, hpath₁, by omega, hsel⟩

/-- Of two workers spawned at boot, the second waits for at most three ticks. -/
theorem ready_task_resumed_worker :
    ∃ s es₁ sp t, (taskSystem exampleStacks).Run (.boot 0x1000) s ∧
      (taskSystem exampleStacks).Path s es₁ t ∧ es₁.countP TaskEvent.isSchedule ≤ 2 ∧
      t.Selects sp 1 ∧ (t.runSchedule sp).sp = exampleStacks.framePtr 1 := by
  have hrun : (taskSystem exampleStacks).Run (.boot 0x1000)
      (backgroundWorker.run exampleStacks afterFirstSpawn).2 :=
    (Relation.ReflTransGen.single ⟨.spawn backgroundWorker, trivial, trivial, rfl⟩).tail
      ⟨.spawn backgroundWorker, trivial, trivial, rfl⟩
  have hinit : (backgroundWorker.run exampleStacks afterFirstSpawn).2.initialized = true := by
    decide
  have htask : ((backgroundWorker.run exampleStacks afterFirstSpawn).2.tasks 1).state = .ready ∧
      ((backgroundWorker.run exampleStacks afterFirstSpawn).2.tasks 1).sp = exampleStacks.framePtr 1 ∧
      1 ≠ (backgroundWorker.run exampleStacks afterFirstSpawn).2.current := by
    decide
  generalize (backgroundWorker.run exampleStacks afterFirstSpawn).2 = s at hrun hinit htask
  obtain ⟨hready, hsp, hother⟩ := htask
  have hsome : (0x7000 : ℕ) ≠ 0 := by decide
  have hpath : (taskSystem exampleStacks).Path s
      [.schedule 0x7000, .schedule 0x7000, .schedule 0x7000] _ := ⟨hsome, hsome, hsome, rfl⟩
  obtain ⟨es₁, sp, es₂, t, -, hpath₁, hcount, hsel, hresumed, -⟩ :=
    ready_task_resumed exampleStacks hrun hinit hready hother hpath (by decide)
  exact ⟨s, es₁, sp, t, hrun, hpath₁, hcount, hsel, hresumed.trans hsp⟩

end MitosOS.Tasks
