import MitosOS.Lib.EventSystem
import MitosOS.Tasks.Scheduler

/-! `receive_message` statement by statement: the timer can preempt a task between its look into
the mailbox and the change of its state. -/
namespace MitosOS.Tasks
open MitosOS.Lib Scheduler

/-- A later state of a task with the same mail, asleep only if the earlier one was. -/
structure Task.SameMail (t t' : Task) : Prop where
  mailbox : t'.mailbox = t.mailbox
  blocked : t'.state = .blocked → t.state = .blocked

theorem Task.SameMail.refl (t : Task) : t.SameMail t := ⟨rfl, fun hb => hb⟩

theorem Task.SameMail.trans {t t' t'' : Task} (h : t.SameMail t') (h' : t'.SameMail t'') :
    t.SameMail t'' where
  mailbox := h'.mailbox.trans h.mailbox
  blocked := h.blocked ∘ h'.blocked

section SameMail
variable (s : Scheduler)

theorem setTask_sameMail {i : Slot} {t : Task} (h : (s.tasks i).SameMail t) (j : Slot) :
    (s.tasks j).SameMail ((s.setTask i t).tasks j) := by
  by_cases hj : j = i
  · rw [hj, setTask_same]
    exact h
  · rw [setTask_of_ne s t hj]
    exact .refl _

theorem setState_sameMail (i : Slot) {state : TaskState} (h : state ≠ .blocked) (j : Slot) :
    (s.tasks j).SameMail ((s.setState i state).tasks j) := by
  apply setTask_sameMail
  constructor
  · rfl
  · exact fun hb => absurd hb h

theorem save_sameMail (sp : ℕ) (i : Slot) : (s.tasks i).SameMail ((s.save sp).tasks i) := by
  unfold save
  split_ifs
  · apply setTask_sameMail
    constructor
    · rfl
    · exact fun hb => TaskState.noConfusion hb
  · exact .refl _

theorem switchTo_sameMail (next i : Slot) :
    (s.tasks i).SameMail ((s.switchTo next).sched.tasks i) := by
  have hact : (s.tasks i).SameMail ((s.activate next).tasks i) :=
    setState_sameMail s next (by decide) i
  unfold switchTo
  dsimp only
  split_ifs
  · apply hact.trans
    apply setTask_sameMail
    constructor
    · rfl
    · exact fun hb => hb
  · exact hact

theorem runSchedule_sameMail (sp : ℕ) (i : Slot) :
    (s.tasks i).SameMail ((s.runSchedule sp).sched.tasks i) := by
  rcases runSchedule_cases s sp with ⟨next, -, -, heq⟩ | heq
  · rw [heq]
    exact (save_sameMail s sp i).trans (switchTo_sameMail _ next i)
  · rw [heq]
    exact .refl _

theorem install_sameMail (K : Stacks) (mode : ExecutionMode) (root : ℕ) (owns : Bool) (top : ℕ)
    (i : Slot) : (s.tasks i).SameMail ((s.install K mode root owns top).2.tasks i) := by
  rcases install_cases K s mode root owns top with heq | ⟨j, -, -, heq⟩
  · rw [heq]
    exact .refl _
  · have hfill : (s.tasks i).SameMail
        ((s.setTask j ((s.tasks j).init (K.framePtr j) j mode root owns top)).tasks i) := by
      apply setTask_sameMail
      constructor
      · rfl
      · exact fun hb => TaskState.noConfusion hb
    rw [heq]
    dsimp only
    split_ifs
    · exact hfill
    · exact hfill.trans (setState_sameMail _ 0 (by decide) i)

theorem spawn_sameMail (K : Stacks) (mode : ExecutionMode) (fresh : Option ℕ) (top : ℕ) (i : Slot) :
    (s.tasks i).SameMail ((s.spawn K mode fresh top).2.tasks i) := by
  rcases spawn_eq K s mode fresh top with heq | ⟨root, -, -, heq⟩
  · rw [heq]
    exact install_sameMail s K mode s.activeRoot false top i
  · rw [heq]
    exact install_sameMail s K mode root true top i

theorem exit_sameMail (i : Slot) : (s.tasks i).SameMail (s.exit.tasks i) :=
  setState_sameMail s s.current (by decide) i

end SameMail

/-- How far a context is in a call of `task.rs`. -/
inductive Activity where
  | free
  /-- `receive_message` has found the mailbox of this slot empty. -/
  | looked (i : Slot)
  /-- `receive_message` has set the state and is about to yield. -/
  | yielding
  | exited
  deriving DecidableEq

/-- The scheduler, the running context, and the contexts that the stack pointers of the table
lead back to. -/
structure Receiving where
  sched : Scheduler
  running : Activity
  saved : Slot → Activity

namespace Receiving

def boot (root : ℕ) : Receiving where
  sched := .boot root
  running := .free
  saved _ := .free

/-- The first half of `receive_message`: take the message, or find that there is none. -/
def look (r : Receiving) : Receiving :=
  match (List.finRange 4).find? fun i => (r.sched.tasks i).id = r.sched.current with
  | none => r
  | some i =>
    match (r.sched.tasks i).mailbox with
    | some _ => { r with sched := r.sched.setTask i { r.sched.tasks i with mailbox := none } }
    | none => { r with running := .looked i }

def block (r : Receiving) : Receiving :=
  match r.running with
  | .looked i => { r with sched := r.sched.setState i .blocked, running := .yielding }
  | _ => r

def spawned (r : Receiving) (sched : Scheduler) : Receiving :=
  { r with
    sched := sched
    saved := fun i =>
      if (r.sched.tasks i).state = .terminated ∧ (sched.tasks i).state ≠ .terminated then .free
      else r.saved i }

def save (r : Receiving) (sp : ℕ) : Slot → Activity :=
  if sp ≠ 0 ∧ (r.sched.tasks r.sched.current).state = .running then
    Function.update r.saved r.sched.current r.running
  else r.saved

def schedule (r : Receiving) (sp : ℕ) : Receiving :=
  if !r.sched.initialized then r
  else
    { sched := (r.sched.runSchedule sp).sched
      saved := r.save sp
      running :=
        match (r.sched.save sp).nextReady with
        | some next => r.save sp next
        | none => r.running }

end Receiving

inductive ReceivingEvent where
  | spawn (mode : ExecutionMode) (fresh : Option ℕ) (userStackTop : ℕ)
  | spawnIsolatedAt (memoryRoot : ℕ) (owns : Bool) (userStackTop : ℕ)
  | send (destId : ℕ) (data : Vector (BitVec 8) 32)
  | look
  | block
  | exit
  | yieldNow (sp : ℕ)
  | tick (sp : ℕ)

def ReceivingEvent.Enabled (r : Receiving) : ReceivingEvent → Prop
  | .block => ∃ i, r.running = .looked i
  | .yieldNow _ => ∀ i, r.running ≠ .looked i
  | .tick _ => True
  | _ => r.running = .free

def ReceivingEvent.next (K : Stacks) (r : Receiving) : ReceivingEvent → Receiving
  | .spawn mode fresh top => r.spawned (r.sched.spawn K mode fresh top).2
  | .spawnIsolatedAt root owns top => r.spawned (r.sched.spawnIsolatedAt K root owns top).2
  | .send destId data => { r with sched := (r.sched.sendMessage destId data).2 }
  | .look => r.look
  | .block => r.block
  | .exit => { r with sched := r.sched.exit, running := .exited }
  -- `receive_message` returns after its yield, `exit` spins
  | .yieldNow sp =>
    Receiving.schedule
      { r with running := if r.running = .exited then .exited else .free } sp
  | .tick sp => r.schedule sp

def receivingSystem (K : Stacks) : EventSystem Receiving ReceivingEvent where
  Enabled := ReceivingEvent.Enabled
  next := ReceivingEvent.next K

/-- A sleeping task has nothing to wake up for. -/
def Scheduler.NoLostWakeup (s : Scheduler) : Prop :=
  ∀ i, (s.tasks i).state = .blocked → (s.tasks i).mailbox = none

/-- The timer does not preempt a task that has seen its mailbox empty and is not yet blocked. -/
def TickOutsideReceive (r : Receiving) : ReceivingEvent → Prop
  | .tick _ => ∀ i, r.running ≠ .looked i
  | _ => True

section Steps
variable {K : Stacks} {r : Receiving}

structure Receiving.Inv (r : Receiving) : Prop where
  wakeup : r.sched.NoLostWakeup
  looked_empty : ∀ i, r.running = .looked i → (r.sched.tasks i).mailbox = none
  saved_ne : ∀ i j, r.saved i ≠ .looked j

theorem NoLostWakeup.of_sameMail {s s' : Scheduler} (h : s.NoLostWakeup)
    (hmail : ∀ i, (s.tasks i).SameMail (s'.tasks i)) : s'.NoLostWakeup := by
  intro i hi
  rw [(hmail i).mailbox]
  exact h i ((hmail i).blocked hi)

theorem NoLostWakeup.sendMessage {s : Scheduler} (h : s.NoLostWakeup) (destId : ℕ)
    (data : Vector (BitVec 8) 32) : (s.sendMessage destId data).2.NoLostWakeup := by
  rcases sendMessage_cases s destId data with heq | ⟨i, -, -, heq⟩
  · rw [heq]
    exact h
  · rw [heq]
    intro j hj
    by_cases hji : j = i
    · subst hji
      rw [setTask_same] at hj
      dsimp only at hj
      split_ifs at hj with hb
      exact absurd hj hb
    · rw [setTask_of_ne s _ hji] at hj ⊢
      exact h j hj

theorem Receiving.Inv.spawned (h : r.Inv) {sched : Scheduler} (hfree : r.running = .free)
    (hmail : ∀ i, (r.sched.tasks i).SameMail (sched.tasks i)) : (r.spawned sched).Inv where
  wakeup := NoLostWakeup.of_sameMail h.wakeup hmail
  looked_empty i hi := absurd (hfree.symm.trans hi) (by simp)
  saved_ne i j := by
    dsimp only [Receiving.spawned]
    split_ifs
    · simp
    · exact h.saved_ne i j

theorem Receiving.Inv.look (h : r.Inv) (hfree : r.running = .free) : r.look.Inv := by
  unfold Receiving.look
  split
  · exact h
  · next i _ =>
    split
    · constructor
      · intro j hj
        by_cases hji : j = i
        · rw [hji, setTask_same]
        · rw [setTask_of_ne _ _ hji] at hj ⊢
          exact h.wakeup j hj
      · exact fun j hj => absurd (hfree.symm.trans hj) (by simp)
      · exact h.saved_ne
    · next hempty =>
      constructor
      · exact h.wakeup
      · intro j hj
        obtain rfl := Activity.looked.inj hj
        exact hempty
      · exact h.saved_ne

theorem Receiving.Inv.block (h : r.Inv) : r.block.Inv := by
  unfold Receiving.block
  split
  · next i hi =>
    constructor
    · intro j hj
      by_cases hji : j = i
      · rw [hji, setState_same]
        exact h.looked_empty i hi
      · rw [setState_of_ne _ _ hji] at hj ⊢
        exact h.wakeup j hj
    · exact fun j hj => Activity.noConfusion hj
    · exact h.saved_ne
  · exact h

/-- A context that is not between the look and the change of state can be switched out. -/
theorem Receiving.Inv.schedule (h : r.Inv) (hrun : ∀ i, r.running ≠ .looked i) (sp : ℕ) :
    (r.schedule sp).Inv := by
  have hsaved : ∀ i j, r.save sp i ≠ .looked j := by
    intro i j
    unfold Receiving.save
    split_ifs
    · by_cases hi : i = r.sched.current
      · rw [hi, Function.update_self]
        exact hrun j
      · rw [Function.update_of_ne hi]
        exact h.saved_ne i j
    · exact h.saved_ne i j
  have hnext : ∀ j, (r.schedule sp).running ≠ .looked j := by
    intro j
    unfold Receiving.schedule
    split_ifs
    · exact hrun j
    · dsimp only
      split
      · exact hsaved _ j
      · exact hrun j
  constructor
  · unfold Receiving.schedule
    split_ifs
    · exact h.wakeup
    · exact NoLostWakeup.of_sameMail h.wakeup (runSchedule_sameMail r.sched sp)
  · exact fun j hj => absurd hj (hnext j)
  · unfold Receiving.schedule
    split_ifs
    · exact h.saved_ne
    · exact hsaved

theorem Receiving.Inv.step (h : r.Inv) {e : ReceivingEvent} (he : e.Enabled r)
    (hguard : TickOutsideReceive r e) : (e.next K r).Inv := by
  cases e with
  | spawn mode fresh top => exact h.spawned he (spawn_sameMail r.sched K mode fresh top)
  | spawnIsolatedAt root owns top =>
    exact h.spawned he (install_sameMail r.sched K .isolatedProcess root owns top)
  | send destId data =>
    constructor
    · exact NoLostWakeup.sendMessage h.wakeup destId data
    · exact fun j hj => absurd (Eq.symm he |>.trans hj) (by simp)
    · exact h.saved_ne
  | look => exact h.look he
  | block => exact h.block
  | exit =>
    constructor
    · exact NoLostWakeup.of_sameMail h.wakeup (exit_sameMail r.sched)
    · exact fun j hj => Activity.noConfusion hj
    · exact h.saved_ne
  | yieldNow sp =>
    have hne : ∀ j, (if r.running = .exited then Activity.exited else .free) ≠ .looked j := by
      intro j
      split_ifs <;> simp
    apply Receiving.Inv.schedule
    · exact ⟨h.wakeup, fun j hj => absurd hj (hne j), h.saved_ne⟩
    · exact hne
  | tick sp => exact h.schedule hguard sp

end Steps

/-- As long as the timer does not preempt a task between its look into the mailbox and the change
of its state, a blocked task has an empty mailbox. -/
theorem no_lost_wakeup (K : Stacks) (root : ℕ) (r : Receiving)
    (hrun : (receivingSystem K).RunWhen TickOutsideReceive (.boot root) r) :
    r.sched.NoLostWakeup := by
  have hboot : (Receiving.boot root).Inv := by
    constructor
    · exact fun i _ => rfl
    · exact fun i hi => Activity.noConfusion hi
    · exact fun i j hij => Activity.noConfusion hij
  exact (hrun.invariant (fun _ _ h he hg => h.step he hg) hboot).wakeup

section Traces

instance (r : Receiving) : ∀ e : ReceivingEvent, Decidable (e.Enabled r)
  | .block => inferInstanceAs (Decidable (∃ i, r.running = .looked i))
  | .yieldNow _ => inferInstanceAs (Decidable (∀ i, r.running ≠ .looked i))
  | .tick _ => isTrue trivial
  | .spawn _ _ _ => inferInstanceAs (Decidable (r.running = .free))
  | .spawnIsolatedAt _ _ _ => inferInstanceAs (Decidable (r.running = .free))
  | .send _ _ => inferInstanceAs (Decidable (r.running = .free))
  | .look => inferInstanceAs (Decidable (r.running = .free))
  | .exit => inferInstanceAs (Decidable (r.running = .free))

instance (K : Stacks) (r : Receiving) (e : ReceivingEvent) :
    Decidable ((receivingSystem K).Enabled r e) :=
  inferInstanceAs (Decidable (e.Enabled r))

instance (r : Receiving) : ∀ e : ReceivingEvent, Decidable (TickOutsideReceive r e)
  | .tick _ => inferInstanceAs (Decidable (∀ i, r.running ≠ .looked i))
  | .block => isTrue trivial
  | .yieldNow _ => isTrue trivial
  | .spawn _ _ _ => isTrue trivial
  | .spawnIsolatedAt _ _ _ => isTrue trivial
  | .send _ _ => isTrue trivial
  | .look => isTrue trivial
  | .exit => isTrue trivial

/-- Two threads. The first one looks into its empty mailbox and is preempted; the second one sends
it a message and yields; the first one goes to sleep. -/
theorem wakeup_lost :
    ∃ r, (receivingSystem exampleStacks).Run (.boot 0x1000) r ∧
      ∃ i, (r.sched.tasks i).state = .blocked ∧ (r.sched.tasks i).mailbox ≠ none := by
  apply EventSystem.exists_runWhen [.spawn .sharedThread none 0, .spawn .sharedThread none 0, .look,
    .tick 0x5000, .send 0 (Vector.replicate 32 7), .yieldNow 0x6000, .block]
  decide

/-- The same calls with the tick after the change of state: the message wakes the first thread. -/
theorem no_lost_wakeup_woken :
    ∃ r, (receivingSystem exampleStacks).RunWhen TickOutsideReceive (.boot 0x1000) r ∧
      (∃ i, (r.sched.tasks i).state = .ready ∧ (r.sched.tasks i).mailbox ≠ none) ∧
      r.sched.NoLostWakeup := by
  have hreach : ∃ r, (receivingSystem exampleStacks).RunWhen TickOutsideReceive (.boot 0x1000) r ∧
      ∃ i, (r.sched.tasks i).state = .ready ∧ (r.sched.tasks i).mailbox ≠ none := by
    apply EventSystem.exists_runWhen [.spawn .sharedThread none 0, .spawn .sharedThread none 0,
      .look, .block, .tick 0x5000, .send 0 (Vector.replicate 32 7)]
    decide
  obtain ⟨r, hrun, hwoken⟩ := hreach
  exact ⟨r, hrun, hwoken, no_lost_wakeup exampleStacks 0x1000 r hrun⟩

end Traces

end MitosOS.Tasks
