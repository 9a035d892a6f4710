import MitosOS.Lib.EventSystem
import Mathlib.Data.List.Basic

/-! `sync::Spinlock` on one core. Every guard saves whether interrupts were on when its lock was
taken, and its drop turns them on again if they were. -/
namespace MitosOS.Kernel
open MitosOS.Lib

section Model
variable (L : Type) [DecidableEq L]

structure SpinlockGuard where
  lock : L
  savedInterruptState : Bool
  deriving DecidableEq

/-- The interrupt flag, the `locked` flags, and the live guards with the latest first. A lock that is
already taken is spun on for ever. `before` records the interrupt flag at the last lock that was taken
while no guard was live. -/
structure SpinCore where
  interruptsEnabled : Bool
  locked : L → Bool
  guards : List (SpinlockGuard L)
  spinning : Bool
  before : Bool

inductive SpinEvent where
  | lock (l : L)
  | drop (g : SpinlockGuard L)

end Model

namespace SpinCore
variable {L : Type} [DecidableEq L]

def new (interruptsEnabled : Bool) : SpinCore L where
  interruptsEnabled := interruptsEnabled
  locked _ := false
  guards := []
  spinning := false
  before := interruptsEnabled

/-- `Spinlock::lock`: interrupts go off first, then the flag is swapped until it was clear. -/
def lock (s : SpinCore L) (l : L) : SpinCore L :=
  let before := if s.guards = [] then s.interruptsEnabled else s.before
  if s.locked l then { s with interruptsEnabled := false, spinning := true, before := before }
  else
    { s with
      interruptsEnabled := false
      locked := Function.update s.locked l true
      guards := ⟨l, s.interruptsEnabled⟩ :: s.guards
      before := before }

def drop (s : SpinCore L) (g : SpinlockGuard L) : SpinCore L :=
  { s with
    interruptsEnabled := g.savedInterruptState || s.interruptsEnabled
    locked := Function.update s.locked g.lock false
    guards := s.guards.erase g }

/-- Interrupts are off while a guard is live, and otherwise as they were before the first of the
overlapping locks was taken. -/
def Protected (s : SpinCore L) : Prop :=
  (s.guards ≠ [] → s.interruptsEnabled = false) ∧ (s.guards = [] → s.interruptsEnabled = s.before)

end SpinCore

def spinSystem (L : Type) [DecidableEq L] : EventSystem (SpinCore L) (SpinEvent L) where
  Enabled s
    | .lock _ => s.spinning = false
    | .drop g => s.spinning = false ∧ g ∈ s.guards
  next s
    | .lock l => s.lock l
    | .drop g => s.drop g

instance {L : Type} [DecidableEq L] (s : SpinCore L) :
    ∀ e, Decidable ((spinSystem L).Enabled s e)
  | .lock _ => inferInstanceAs (Decidable (s.spinning = false))
  | .drop g => inferInstanceAs (Decidable (s.spinning = false ∧ g ∈ s.guards))

/-- A guard that turns interrupts on again is dropped when no other guard is live. -/
def LastToEnable {L : Type} (s : SpinCore L) : SpinEvent L → Prop
  | .lock _ => True
  | .drop g => g.savedInterruptState = true → s.guards = [g]

/-- Guards are dropped in the reverse of the order in which their locks were taken. -/
def LastInFirstOut {L : Type} (s : SpinCore L) : SpinEvent L → Prop
  | .lock _ => True
  | .drop g => s.guards.head? = some g

section Runs
variable {L : Type} {s : SpinCore L} {b : Bool}

/-- What every run keeps. If interrupts were on at the start, they are on or a live guard will turn
them on; if not, they stay off. -/
structure SpinCore.Inv (b : Bool) (s : SpinCore L) : Prop where
  held : ∀ l, s.locked l = true → ∃ g ∈ s.guards, g.lock = l
  spin : s.spinning = true → s.guards ≠ []
  restores : b = true → s.spinning = true ∨ s.interruptsEnabled = true ∨
    ∃ g ∈ s.guards, g.savedInterruptState = true
  stays : b = false → s.interruptsEnabled = false ∧
    ∀ g ∈ s.guards, g.savedInterruptState = false
  before : s.before = b

theorem SpinCore.inv_new (b : Bool) : (SpinCore.new b : SpinCore L).Inv b where
  held l h := by simp [SpinCore.new] at h
  spin h := by simp [SpinCore.new] at h
  restores hb := Or.inr (Or.inl hb)
  stays hb := ⟨hb, by simp [SpinCore.new]⟩
  before := rfl

theorem SpinCore.Inv.enabled_of_nil (h : s.Inv b) (hnil : s.guards = []) :
    s.interruptsEnabled = b := by
  cases b with
  | true =>
    rcases h.restores rfl with hspin | hon | ⟨g, hg, -⟩
    · exact absurd hnil (h.spin hspin)
    · exact hon
    · simp [hnil] at hg
  | false => exact (h.stays rfl).1

variable [DecidableEq L]

theorem SpinCore.Inv.lock (h : s.Inv b) (hspin : s.spinning = false) (l : L) :
    (s.lock l).Inv b := by
  have hbefore : (if s.guards = [] then s.interruptsEnabled else s.before) = b := by
    split_ifs with hnil
    · exact h.enabled_of_nil hnil
    · exact h.before
  unfold SpinCore.lock
  rw [hbefore]
  by_cases hlocked : s.locked l = true
  · rw [if_pos hlocked]
    obtain ⟨g, hg, -⟩ := h.held l hlocked
    refine ⟨h.held, fun _ => List.ne_nil_of_mem hg, fun _ => Or.inl rfl, fun hb => ?_, rfl⟩
    exact ⟨rfl, (h.stays hb).2⟩
  · rw [if_neg hlocked]
    refine ⟨fun l' hl' => ?_, fun _ => List.cons_ne_nil _ _, fun hb => ?_, fun hb => ?_, rfl⟩
    · by_cases heq : l' = l
      · exact ⟨_, List.mem_cons_self, heq.symm⟩
      · have hold : s.locked l' = true := by simpa [Function.update_of_ne heq] using hl'
        obtain ⟨g, hg, hlock⟩ := h.held l' hold
        exact ⟨g, List.mem_cons_of_mem _ hg, hlock⟩
    · -- the new guard saves the flag if it was on
      rcases h.restores hb with hcon | hon | ⟨g, hg, hsaved⟩
      · simp [hspin] at hcon
      · exact Or.inr (Or.inr ⟨_, List.mem_cons_self, hon⟩)
      · exact Or.inr (Or.inr ⟨g, List.mem_cons_of_mem _ hg, hsaved⟩)
    · obtain ⟨hoff, hall⟩ := h.stays hb
      simpa [hoff] using hall

theorem SpinCore.Inv.drop (h : s.Inv b) (hspin : s.spinning = false) {g : SpinlockGuard L}
    (hg : g ∈ s.guards) : (s.drop g).Inv b where
  held l hl := by
    have hne : l ≠ g.lock := by
      intro heq
      simp [SpinCore.drop, heq] at hl
    have hold : s.locked l = true := by simpa [SpinCore.drop, Function.update_of_ne hne] using hl
    obtain ⟨g', hg', hlock⟩ := h.held l hold
    have hother : g' ≠ g := fun heq => hne (heq ▸ hlock.symm)
    exact ⟨g', (List.mem_erase_of_ne hother).mpr hg', hlock⟩
  spin hcon := by
    have hspinning : s.spinning = true := hcon
    simp [hspin] at hspinning
  restores hb := by
    right
    rcases h.restores hb with hcon | hon | ⟨g', hg', hsaved⟩
    · simp [hspin] at hcon
    · simp [SpinCore.drop, hon]
    · by_cases heq : g' = g
      · simp [SpinCore.drop, ← heq, hsaved]
      · exact Or.inr ⟨g', (List.mem_erase_of_ne heq).mpr hg', hsaved⟩
  stays hb := by
    obtain ⟨hoff, hall⟩ := h.stays hb
    have hsaved := hall g hg
    refine ⟨?_, fun g' hg' => hall g' (List.mem_of_mem_erase hg')⟩
    simp [SpinCore.drop, hoff, hsaved]
  before := h.before

theorem SpinCore.Inv.step (h : s.Inv b) {e : SpinEvent L} (he : (spinSystem L).Enabled s e) :
    ((spinSystem L).next s e).Inv b := by
  cases e with
  | lock l => exact h.lock he l
  | drop g => exact h.drop he.1 he.2

/-- Taking a lock turns interrupts off, also when the lock is never got. -/
theorem SpinCore.Inv.protected_lock (h : s.Inv b) (l : L) : (s.lock l).Protected := by
  unfold SpinCore.lock SpinCore.Protected
  dsimp only
  by_cases hlocked : s.locked l = true
  · obtain ⟨g, hg, -⟩ := h.held l hlocked
    have hne : s.guards ≠ [] := List.ne_nil_of_mem hg
    simp [hlocked, hne]
  · simp [hlocked]

/-- A drop keeps the protection unless it turns interrupts on under another guard. -/
theorem SpinCore.Inv.protected_drop_iff (h : s.Inv b) (hspin : s.spinning = false)
    (hprot : s.Protected) {g : SpinlockGuard L} (hg : g ∈ s.guards) :
    (s.drop g).Protected ↔ (g.savedInterruptState = true → s.guards = [g]) := by
  have hne : s.guards ≠ [] := List.ne_nil_of_mem hg
  have hoff : s.interruptsEnabled = false := hprot.1 hne
  have hnext := h.drop hspin hg
  have hflag : (s.drop g).interruptsEnabled = g.savedInterruptState := by
    simp [SpinCore.drop, hoff]
  have hrestored : (s.drop g).guards = [] → (s.drop g).interruptsEnabled = (s.drop g).before := by
    intro hnil
    rw [hnext.enabled_of_nil hnil, hnext.before]
  unfold SpinCore.Protected
  rw [hflag, and_iff_left (hflag ▸ hrestored)]
  change (s.guards.erase g ≠ [] → _) ↔ _
  cases g.savedInterruptState <;> simp [hne]

omit [DecidableEq L] in
theorem SpinCore.protected_new (b : Bool) : (SpinCore.new b : SpinCore L).Protected := by
  simp [SpinCore.Protected, SpinCore.new]

theorem SpinCore.Inv.protected_next_iff (h : s.Inv b) (hprot : s.Protected) {e : SpinEvent L}
    (he : (spinSystem L).Enabled s e) :
    ((spinSystem L).next s e).Protected ↔ LastToEnable s e := by
  cases e with
  | lock l => exact iff_of_true (h.protected_lock l) trivial
  | drop g => exact h.protected_drop_iff he.1 hprot he.2

/-- When no guard is live, every run has interrupts as they were before the overlapping locks. The
runs that keep them off under every guard are those in which a guard that turns them on goes last. -/
theorem spinlock_protected_iff (b : Bool) (s : SpinCore L) :
    ((spinSystem L).Run (.new b) s → s.guards = [] → s.interruptsEnabled = s.before) ∧
    ((spinSystem L).RunWhen (fun s e => ((spinSystem L).next s e).Protected) (.new b) s ↔
      (spinSystem L).RunWhen LastToEnable (.new b) s) := by
  have hstart : (SpinCore.new b : SpinCore L).Inv b := SpinCore.inv_new b
  constructor
  · intro hrun hnil
    have hinv : s.Inv b := hrun.invariant (fun s e h he _ => h.step he) hstart
    rw [hinv.enabled_of_nil hnil, hinv.before]
  · have hiff : ∀ (s : SpinCore L) e, s.Inv b ∧ s.Protected → (spinSystem L).Enabled s e →
        (((spinSystem L).next s e).Protected ↔ LastToEnable s e) :=
      fun s e h he => h.1.protected_next_iff h.2 he
    have hstep : ∀ (s : SpinCore L) e, s.Inv b ∧ s.Protected → (spinSystem L).Enabled s e →
        ((spinSystem L).next s e).Protected →
        ((spinSystem L).next s e).Inv b ∧ ((spinSystem L).next s e).Protected :=
      fun s e h he hprot => ⟨h.1.step he, hprot⟩
    exact EventSystem.runWhen_congr hiff hstep ⟨hstart, SpinCore.protected_new b⟩

/-- At most the outermost guard saves that interrupts were on. -/
def SpinCore.OutermostSaves (s : SpinCore L) : Prop :=
  ∀ g ∈ s.guards.dropLast, g.savedInterruptState = false

omit [DecidableEq L] in
theorem SpinCore.OutermostSaves.eq_singleton (h : s.OutermostSaves) {g : SpinlockGuard L}
    (hhead : s.guards.head? = some g) (hsaved : g.savedInterruptState = true) :
    s.guards = [g] := by
  obtain ⟨rest, hrest⟩ := List.head?_eq_some_iff.mp hhead
  cases rest with
  | nil => exact hrest
  | cons g' rest =>
    have hmem : g ∈ s.guards.dropLast := by simp [hrest]
    have hoff := h g hmem
    simp [hsaved] at hoff

theorem SpinCore.OutermostSaves.step (h : s.OutermostSaves) (hprot : s.Protected)
    {e : SpinEvent L} (hlifo : LastInFirstOut s e) :
    ((spinSystem L).next s e).OutermostSaves := by
  cases e with
  | lock l =>
    have hoff : s.guards ≠ [] → s.interruptsEnabled = false := hprot.1
    change (s.lock l).OutermostSaves
    unfold SpinCore.lock
    by_cases hlocked : s.locked l = true
    · rw [if_pos hlocked]
      exact h
    · rw [if_neg hlocked]
      intro g hg
      have hne : s.guards ≠ [] := by
        intro hnil
        simp [hnil] at hg
      rw [List.dropLast_cons_of_ne_nil hne, List.mem_cons] at hg
      rcases hg with rfl | hg
      · exact hoff hne
      · exact h g hg
  | drop g =>
    obtain ⟨rest, hrest⟩ := List.head?_eq_some_iff.mp hlifo
    have hguards : (s.drop g).guards = rest := by simp [SpinCore.drop, hrest]
    intro g' hg'
    have hmem : g' ∈ rest.dropLast := hguards ▸ hg'
    have hne : rest ≠ [] := by
      intro hnil
      simp [hnil] at hmem
    have hold : g' ∈ s.guards.dropLast := by
      rw [hrest, List.dropLast_cons_of_ne_nil hne]
      exact List.mem_cons_of_mem _ hmem
    exact h g' hold

/-- Scoped guards, which are dropped in reverse order, keep interrupts off. -/
theorem SpinCore.protected_of_lastInFirstOut (b : Bool)
    (h : (spinSystem L).RunWhen LastInFirstOut (.new b) s) : s.Protected := by
  have hstep : ∀ (s : SpinCore L) e, s.Inv b ∧ s.Protected ∧ s.OutermostSaves →
      (spinSystem L).Enabled s e → LastInFirstOut s e →
      ((spinSystem L).next s e).Inv b ∧ ((spinSystem L).next s e).Protected ∧
        ((spinSystem L).next s e).OutermostSaves := by
    rintro s e ⟨hinv, hprot, houter⟩ he hlifo
    have hlast : LastToEnable s e := by
      cases e with
      | lock l => trivial
      | drop g => exact fun hsaved => houter.eq_singleton hlifo hsaved
    have hnext := (hinv.protected_next_iff hprot he).mpr hlast
    exact ⟨hinv.step he, hnext, houter.step hprot hlifo⟩
  have houter : (SpinCore.new b : SpinCore L).OutermostSaves := by
    simp [SpinCore.OutermostSaves, SpinCore.new]
  exact (h.invariant hstep ⟨SpinCore.inv_new b, SpinCore.protected_new b, houter⟩).2.1

end Runs

/-- The first of two locks is released first: interrupts are on while the second is held. -/
theorem interrupts_on_under_guard :
    ∃ s, (spinSystem Bool).Run (.new true) s ∧ s.guards = [⟨true, false⟩] ∧
      s.interruptsEnabled = true := by
  apply EventSystem.exists_runWhen [.lock false, .lock true, .drop ⟨false, true⟩]
  decide

end MitosOS.Kernel
