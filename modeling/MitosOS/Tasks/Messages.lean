import MitosOS.Tasks.Events
import MitosOS.Tasks.Mailbox
import Mathlib.Data.List.Nodup

/-! Which `send_message` call a received message comes from. A run is recorded with the accepted
sends, the spawn time of every slot's occupant and the messages handed to the tasks. -/
namespace MitosOS.Tasks
open MitosOS.Lib Scheduler

/-- An accepted call of `send_message`; its number is the time of the call. -/
structure Posting where
  number : ℕ
  sender : ℕ
  dest : ℕ
  data : Vector (BitVec 8) 32
  deriving DecidableEq

/-- A message returned by `receive_message`, with the number of the send it comes from, the slot
that called and the time its occupant was spawned. -/
structure Delivery where
  number : ℕ
  receiver : Slot
  spawnedAt : ℕ
  message : Message
  deriving DecidableEq

/-- The task table with the record of a run. `posted` numbers the messages in the mailboxes. -/
structure Traffic where
  sched : Scheduler
  now : ℕ
  spawnedAt : Slot → ℕ
  posted : Slot → ℕ
  sends : List Posting
  deliveries : List Delivery

namespace Traffic

/-- The boot context counts as spawned at time 0. -/
def boot (root : ℕ) : Traffic where
  sched := .boot root
  now := 1
  spawnedAt _ := 0
  posted _ := 0
  sends := []
  deliveries := []

/-- A call that neither fills a slot nor moves a message. -/
def pass (t : Traffic) (sched : Scheduler) : Traffic :=
  { t with sched := sched, now := t.now + 1 }

def spawn (K : Stacks) (t : Traffic) (c : SpawnCall) : Traffic :=
  let t' := t.pass (c.run K t.sched).2
  match t.sched.freeSlot with
  | none => t'
  | some i => { t' with spawnedAt := Function.update t.spawnedAt i t.now }

def send (t : Traffic) (destId : ℕ) (data : Vector (BitVec 8) 32) : Traffic :=
  let r := t.sched.sendMessage destId data
  match r.1, t.sched.destSlot destId with
  | .ok _, some i =>
    { t.pass r.2 with
      posted := Function.update t.posted i t.now
      sends := ⟨t.now, t.sched.current, destId, data⟩ :: t.sends }
  | _, _ => t.pass r.2

def receive (t : Traffic) : Traffic :=
  let r := t.sched.receiveMessage
  match r.1, t.sched.ownSlot with
  | some message, some i =>
    { t.pass r.2 with
      deliveries :=
        ⟨t.posted i, t.sched.current, t.spawnedAt t.sched.current, message⟩ :: t.deliveries }
  | _, _ => t.pass r.2

def next (K : Stacks) (t : Traffic) : TaskEvent → Traffic
  | .spawn c => t.spawn K c
  | .schedule sp => t.pass (t.sched.runSchedule sp).sched
  | .send destId data => t.send destId data
  | .receive => t.receive
  | .exit => t.pass t.sched.exit

end Traffic

/-- Every call is possible at any time. -/
def trafficSystem (K : Stacks) : EventSystem Traffic TaskEvent where
  Enabled _ _ := True
  next := Traffic.next K

/-- The send numbered `number` was made after time `since`, to the number `dest`, and was given
the sender and the data of `message`. -/
def SentAs (sends : List Posting) (number since dest : ℕ) (message : Message) : Prop :=
  ∃ p ∈ sends, p.number = number ∧ since < p.number ∧ p.dest = dest ∧
    message = ⟨p.sender, p.data⟩

/-- Every delivered message was sent to its receiver after that one was spawned, as it was
delivered, and no send is delivered twice. -/
structure Traffic.Faithful (t : Traffic) : Prop where
  numbered : (t.sends.map Posting.number).Nodup
  sent : ∀ d ∈ t.deliveries, SentAs t.sends d.number d.spawnedAt d.receiver d.message
  once : (t.deliveries.map Delivery.number).Nodup

/-- A spawn reuses only a slot whose mailbox is empty. -/
def FillsEmptyMailbox (t : Traffic) : TaskEvent → Prop
  | .spawn _ => ∀ i ∈ t.sched.freeSlot, (t.sched.tasks i).mailbox = none
  | _ => True

section Steps
variable {K : Stacks} {t : Traffic}

structure Traffic.Inv (t : Traffic) : Prop extends t.Faithful where
  ids : t.sched.Numbered
  number_lt : ∀ p ∈ t.sends, p.number < t.now
  spawned_lt : ∀ i, t.spawnedAt i < t.now
  mail : ∀ i message, (t.sched.tasks i).mailbox = some message →
    SentAs t.sends (t.posted i) (t.spawnedAt i) i message
  undelivered : ∀ i, (t.sched.tasks i).mailbox ≠ none →
    t.posted i ∉ t.deliveries.map Delivery.number

theorem SentAs.cons {sends : List Posting} {number since dest : ℕ} {message : Message}
    (h : SentAs sends number since dest message) (p : Posting) :
    SentAs (p :: sends) number since dest message := by
  obtain ⟨q, hq, hrest⟩ := h
  exact ⟨q, List.mem_cons_of_mem _ hq, hrest⟩

theorem Traffic.Inv.pass (h : t.Inv) {sched : Scheduler} (hids : sched.Numbered)
    (hmail : ∀ i, (sched.tasks i).mailbox = (t.sched.tasks i).mailbox) : (t.pass sched).Inv where
  numbered := h.numbered
  sent := h.sent
  once := h.once
  ids := hids
  number_lt p hp := (h.number_lt p hp).trans (Nat.lt_succ_self _)
  spawned_lt i := (h.spawned_lt i).trans (Nat.lt_succ_self _)
  mail i message hi := h.mail i message ((hmail i).symm.trans hi)
  undelivered i hi := h.undelivered i (hmail i ▸ hi)

theorem SpawnCall.run_sameMail (K : Stacks) (s : Scheduler) (c : SpawnCall) (i : Slot) :
    (s.tasks i).SameMail ((c.run K s).2.tasks i) := by
  obtain ⟨mode, root, owns, top, heq⟩ := c.run_eq_install K s
  rw [heq]
  exact install_sameMail s K mode root owns top i

theorem Traffic.Inv.spawn (h : t.Inv) {c : SpawnCall} (hguard : FillsEmptyMailbox t (.spawn c)) :
    (t.spawn K c).Inv := by
  have hmail := fun i => (c.run_sameMail K t.sched i).mailbox
  have hpass : (t.pass (c.run K t.sched).2).Inv := h.pass (h.ids.spawn c) hmail
  unfold Traffic.spawn
  dsimp only
  split
  · exact hpass
  · next i hfree =>
    have hne : ∀ j message, ((c.run K t.sched).2.tasks j).mailbox = some message → j ≠ i := by
      intro j message hj heq
      rw [heq, hmail i, hguard i hfree] at hj
      exact absurd hj (by simp)
    constructor
    · exact ⟨hpass.numbered, hpass.sent, hpass.once⟩
    · exact hpass.ids
    · exact hpass.number_lt
    · intro j
      dsimp only
      by_cases hj : j = i
      · rw [hj, Function.update_self]
        exact Nat.lt_succ_self _
      · rw [Function.update_of_ne hj]
        exact hpass.spawned_lt j
    · intro j message hj
      dsimp only
      rw [Function.update_of_ne (hne j message hj)]
      exact hpass.mail j message hj
    · exact hpass.undelivered

theorem Traffic.Inv.now_fresh (h : t.Inv) :
    t.now ∉ t.sends.map Posting.number ∧ t.now ∉ t.deliveries.map Delivery.number := by
  constructor
  · intro hmem
    obtain ⟨p, hp, hnow⟩ := List.mem_map.mp hmem
    exact absurd hnow (h.number_lt p hp).ne
  · intro hmem
    obtain ⟨d, hd, hnow⟩ := List.mem_map.mp hmem
    obtain ⟨p, hp, hnumber, -⟩ := h.sent d hd
    exact absurd (hnumber.trans hnow) (h.number_lt p hp).ne

theorem Traffic.Inv.send (h : t.Inv) (destId : ℕ) (data : Vector (BitVec 8) 32) :
    (t.send destId data).Inv := by
  have hids := h.ids.sendMessage destId data
  unfold Traffic.send
  rcases sendMessage_spec t.sched destId data with ⟨i, hdest, -, heq⟩ | ⟨e, heq⟩
  · rw [heq] at hids ⊢
    dsimp only
    rw [hdest]
    dsimp only [Traffic.pass]
    have hdestId : destId = i := by
      obtain ⟨hid, hlive⟩ := destSlot_spec hdest
      exact hid.symm.trans (h.ids.id_of_live hlive)
    constructor
    · constructor
      · exact List.nodup_cons.mpr ⟨h.now_fresh.1, h.numbered⟩
      · exact fun d hd => (h.sent d hd).cons _
      · exact h.once
    · exact hids
    · intro p hp
      rcases List.mem_cons.mp hp with rfl | hp
      · exact Nat.lt_succ_self _
      · exact (h.number_lt p hp).trans (Nat.lt_succ_self _)
    · exact fun j => (h.spawned_lt j).trans (Nat.lt_succ_self _)
    · intro j message hj
      dsimp only at hj ⊢
      by_cases hji : j = i
      · subst hji
        rw [setTask_same] at hj
        rw [Function.update_self]
        exact ⟨_, List.mem_cons_self, rfl, h.spawned_lt j, hdestId, (Option.some.inj hj).symm⟩
      · rw [setTask_of_ne _ _ hji] at hj
        rw [Function.update_of_ne hji]
        exact (h.mail j message hj).cons _
    · intro j hj
      dsimp only at hj ⊢
      by_cases hji : j = i
      · rw [hji, Function.update_self]
        exact h.now_fresh.2
      · rw [setTask_of_ne _ _ hji] at hj
        rw [Function.update_of_ne hji]
        exact h.undelivered j hj
  · rw [heq]
    exact h.pass h.ids fun _ => rfl

/-- Messages in different mailboxes come from different sends: a send has one destination. -/
theorem Traffic.Inv.posted_inj (h : t.Inv) {i j : Slot} (hi : (t.sched.tasks i).mailbox ≠ none)
    (hj : (t.sched.tasks j).mailbox ≠ none) (heq : t.posted i = t.posted j) : i = j := by
  obtain ⟨mi, hmi⟩ := Option.ne_none_iff_exists'.mp hi
  obtain ⟨mj, hmj⟩ := Option.ne_none_iff_exists'.mp hj
  obtain ⟨p, hp, hpn, -, hpd, -⟩ := h.mail i mi hmi
  obtain ⟨q, hq, hqn, -, hqd, -⟩ := h.mail j mj hmj
  have hpq : p = q :=
    List.inj_on_of_nodup_map h.numbered hp hq (hpn.trans (heq.trans hqn.symm))
  exact Fin.ext (hpd.symm.trans ((congrArg Posting.dest hpq).trans hqd))

theorem Traffic.Inv.receive (h : t.Inv) : t.receive.Inv := by
  have hids := h.ids.receiveMessage
  unfold Traffic.receive
  rcases receiveMessage_spec t.sched with ⟨i, msg, hown, hmsg, heq⟩ | ⟨i, hown, hempty, heq⟩ | heq
  · rw [heq] at hids ⊢
    dsimp only
    rw [hown]
    dsimp only [Traffic.pass]
    have hfull : (t.sched.tasks i).mailbox ≠ none := by simp [hmsg]
    have hcur := (h.ids.ownSlot_eq hown).1
    have hother : ∀ j, ((t.sched.setTask i { t.sched.tasks i with mailbox := none }).tasks
        j).mailbox ≠ none → j ≠ i ∧ (t.sched.tasks j).mailbox ≠ none := by
      intro j hj
      by_cases hji : j = i
      · rw [hji, setTask_same] at hj
        exact absurd rfl hj
      · rw [setTask_of_ne _ _ hji] at hj
        exact ⟨hji, hj⟩
    constructor
    · constructor
      · exact h.numbered
      · intro d hd
        rcases List.mem_cons.mp hd with rfl | hd
        · rw [← hcur]
          exact h.mail i msg hmsg
        · exact h.sent d hd
      · exact List.nodup_cons.mpr ⟨h.undelivered i hfull, h.once⟩
    · exact hids
    · exact fun p hp => (h.number_lt p hp).trans (Nat.lt_succ_self _)
    · exact fun j => (h.spawned_lt j).trans (Nat.lt_succ_self _)
    · intro j message hj
      have hji := (hother j (by rw [hj]; simp)).1
      rw [setTask_of_ne _ _ hji] at hj
      exact h.mail j message hj
    · intro j hj
      obtain ⟨hji, hmail⟩ := hother j hj
      intro hmem
      rcases List.mem_cons.mp hmem with hsame | hold
      · exact hji (h.posted_inj hmail hfull hsame)
      · exact h.undelivered j hmail hold
  · rw [heq] at hids ⊢
    refine h.pass hids fun j => ?_
    by_cases hji : j = i
    · rw [hji, setState_same]
    · rw [setState_of_ne _ _ hji]
  · rw [heq]
    exact h.pass h.ids fun _ => rfl

theorem Traffic.Inv.step (h : t.Inv) {e : TaskEvent} (hguard : FillsEmptyMailbox t e) :
    (t.next K e).Inv := by
  cases e with
  | spawn c => exact h.spawn hguard
  | schedule sp =>
    exact h.pass (h.ids.runSchedule sp) fun i => (runSchedule_sameMail t.sched sp i).mailbox
  | send destId data => exact h.send destId data
  | receive => exact h.receive
  | exit => exact h.pass h.ids.exit fun i => (exit_sameMail t.sched i).mailbox

end Steps

/-- As long as no slot is reused with a message in its mailbox, messages reach only the task they
were sent to, unchanged and once. -/
theorem messages_faithful (K : Stacks) (root : ℕ) (t : Traffic)
    (hrun : (trafficSystem K).RunWhen FillsEmptyMailbox (.boot root) t) : t.Faithful := by
  have hboot : (Traffic.boot root).Inv := by
    constructor
    · exact ⟨List.nodup_nil, fun d hd => absurd hd List.not_mem_nil, List.nodup_nil⟩
    · exact Scheduler.Numbered.boot root
    · exact fun p hp => absurd hp List.not_mem_nil
    · exact fun i => Nat.zero_lt_one
    · exact fun i message hi => absurd hi (by simp [Traffic.boot, Scheduler.boot, Task.empty])
    · exact fun i hi => List.not_mem_nil
  exact (hrun.invariant (fun _ _ h _ hg => h.step hg) hboot).toFaithful

section Traces

instance (K : Stacks) (t : Traffic) (e : TaskEvent) : Decidable ((trafficSystem K).Enabled t e) :=
  isTrue trivial

instance (t : Traffic) : ∀ e : TaskEvent, Decidable (FillsEmptyMailbox t e)
  | .spawn _ => inferInstanceAs (Decidable (∀ i ∈ t.sched.freeSlot, _ = none))
  | .schedule _ => isTrue trivial
  | .send _ _ => isTrue trivial
  | .receive => isTrue trivial
  | .exit => isTrue trivial

def exampleThread : TaskEvent := .spawn (.spawn .sharedThread none 0)

def mailTrace : List TaskEvent :=
  [exampleThread, exampleThread, .send 1 (Vector.replicate 32 7), .schedule 0x5000]

/-- The receiver exits without reading its mail; the task that gets its slot reads it. -/
theorem message_to_previous_occupant :
    ∃ t, (trafficSystem exampleStacks).Run (.boot 0x1000) t ∧
      ∃ d ∈ t.deliveries, ∀ p ∈ t.sends, p.number ≤ d.spawnedAt := by
  apply EventSystem.exists_runWhen
    (mailTrace ++ [.exit, .schedule 0x6000, exampleThread, .schedule 0x7000, .receive])
  decide

/-- The receiver reads its mail before it exits. -/
theorem messages_faithful_read :
    ∃ t, (trafficSystem exampleStacks).RunWhen FillsEmptyMailbox (.boot 0x1000) t ∧
      t.deliveries.length = 1 ∧ t.Faithful := by
  have hreach : ∃ t, (trafficSystem exampleStacks).RunWhen FillsEmptyMailbox (.boot 0x1000) t ∧
      t.deliveries.length = 1 := by
    apply EventSystem.exists_runWhen (mailTrace ++
      [.receive, .exit, .schedule 0x6000, exampleThread, .schedule 0x7000, .receive])
    decide
  obtain ⟨t, hrun, hlength⟩ := hreach
  exact ⟨t, hrun, hlength, messages_faithful exampleStacks 0x1000 t hrun⟩

end Traces

end MitosOS.Tasks
