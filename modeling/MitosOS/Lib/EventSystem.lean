import Mathlib.Logic.Relation
import Mathlib.Tactic.SplitIfs

/-! State machines driven by events: runs, runs whose steps meet a condition, replayed traces. -/
namespace MitosOS.Lib

/-- A state machine; an event happens only in a state that enables it. -/
structure EventSystem (σ ε : Type*) where
  Enabled : σ → ε → Prop
  next : σ → ε → σ

namespace EventSystem
variable {σ ε : Type*} (S : EventSystem σ ε) {guard : σ → ε → Prop} {s s' : σ}

/-- A step by an enabled event that meets `guard` in the state it happens in. -/
def StepWhen (guard : σ → ε → Prop) (s s' : σ) : Prop :=
  ∃ e, S.Enabled s e ∧ guard s e ∧ S.next s e = s'

/-- A run every step of which meets `guard`. -/
def RunWhen (guard : σ → ε → Prop) : σ → σ → Prop := Relation.ReflTransGen (S.StepWhen guard)

def Path : σ → List ε → σ → Prop
  | s, [], s' => s = s'
  | s, e :: es, s' => S.Enabled s e ∧ Path (S.next s e) es s'

def Run : σ → σ → Prop := S.RunWhen fun _ _ => True

variable {S}

/-- What holds at the start and is kept by every step that meets the condition holds throughout. -/
theorem RunWhen.invariant {Inv : σ → Prop}
    (hstep : ∀ s e, Inv s → S.Enabled s e → guard s e → Inv (S.next s e))
    (h : S.RunWhen guard s s') (hs : Inv s) : Inv s' := by
  induction h with
  | refl => exact hs
  | tail _ hlast ih =>
    obtain ⟨e, he, hg, rfl⟩ := hlast
    exact hstep _ e ih he hg

/-- Two conditions that agree wherever an invariant holds allow the same runs. -/
theorem runWhen_congr {guard' : σ → ε → Prop} {Inv : σ → Prop}
    (hiff : ∀ s e, Inv s → S.Enabled s e → (guard s e ↔ guard' s e))
    (hstep : ∀ s e, Inv s → S.Enabled s e → guard s e → Inv (S.next s e)) (hs : Inv s) :
    S.RunWhen guard s s' ↔ S.RunWhen guard' s s' := by
  constructor
  · intro h
    induction h with
    | refl => exact Relation.ReflTransGen.refl
    | tail hrun hlast ih =>
      obtain ⟨e, he, hg, hnext⟩ := hlast
      have hinv := RunWhen.invariant hstep hrun hs
      exact ih.tail ⟨e, he, (hiff _ e hinv he).mp hg, hnext⟩
  · intro h
    induction h with
    | refl => exact Relation.ReflTransGen.refl
    | tail hrun hlast ih =>
      obtain ⟨e, he, hg, hnext⟩ := hlast
      have hinv := RunWhen.invariant hstep ih hs
      exact ih.tail ⟨e, he, (hiff _ e hinv he).mpr hg, hnext⟩

variable (S) (guard)

/-- Performs the events in turn, as long as each is enabled and meets the condition. -/
def replay [∀ s e, Decidable (S.Enabled s e)] [∀ s e, Decidable (guard s e)] :
    List ε → σ → Option σ
  | [], s => some s
  | e :: es, s => if S.Enabled s e ∧ guard s e then replay es (S.next s e) else none

variable {S guard}

theorem runWhen_of_replay [∀ s e, Decidable (S.Enabled s e)] [∀ s e, Decidable (guard s e)]
    {es : List ε} (h : S.replay guard es s = some s') : S.RunWhen guard s s' := by
  induction es generalizing s with
  | nil =>
    have hs : s = s' := Option.some.inj h
    subst hs
    exact Relation.ReflTransGen.refl
  | cons e es ih =>
    rw [replay] at h
    split_ifs at h with he
    exact Relation.ReflTransGen.head ⟨e, he.1, he.2, rfl⟩ (ih h)

/-- A property checked at the end of a replayed trace holds somewhere along a run. -/
theorem exists_runWhen [∀ s e, Decidable (S.Enabled s e)] [∀ s e, Decidable (guard s e)]
    (es : List ε) (P : σ → Prop) [DecidablePred P]
    (h : (S.replay guard es s).any (fun s' => decide (P s')) = true) :
    ∃ s', S.RunWhen guard s s' ∧ P s' := by
  cases hs : S.replay guard es s with
  | none =>
    rw [hs] at h
    contradiction
  | some s' =>
    rw [hs] at h
    exact ⟨s', runWhen_of_replay hs, of_decide_eq_true h⟩

end EventSystem

end MitosOS.Lib
