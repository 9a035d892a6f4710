import Mathlib.Data.List.Basic

/-! Objects that answer calls, and simulations between two of them. -/
namespace MitosOS.Lib

/-- A call on an object returns a result and changes the object's state. -/
structure CallObject (σ ι ο : Type*) where
  call : σ → ι → ο × σ

namespace CallObject
variable {σ τ ι ο : Type*} {A : CallObject σ ι ο} {B : CallObject τ ι ο}

def run (A : CallObject σ ι ο) : σ → List ι → List ο × σ
  | s, [] => ([], s)
  | s, c :: cs => ((A.call s c).1 :: (run A (A.call s c).2 cs).1, (run A (A.call s c).2 cs).2)

def after (A : CallObject σ ι ο) (s : σ) (cs : List ι) : σ := (A.run s cs).2

theorem after_append (s : σ) (cs ds : List ι) :
    A.after s (cs ++ ds) = A.after (A.after s cs) ds := by
  induction cs generalizing s with
  | nil => rfl
  | cons c cs ih => exact ih (A.call s c).2

/-- What every one of the calls keeps holds after all of them. -/
theorem after_invariant {I : σ → Prop} {cs : List ι}
    (hcall : ∀ c ∈ cs, ∀ s, I s → I (A.call s c).2) {s : σ} (hs : I s) :
    I (A.after s cs) := by
  induction cs generalizing s with
  | nil => exact hs
  | cons c cs ih =>
    have hnext : I (A.call s c).2 := hcall c List.mem_cons_self s hs
    exact ih (fun d hd => hcall d (List.mem_cons_of_mem c hd)) hnext

/-- Related states give the same result to every call and stay related. -/
structure Simulation (A : CallObject σ ι ο) (B : CallObject τ ι ο) (R : σ → τ → Prop) : Prop where
  result : ∀ {s t}, R s t → ∀ c, (A.call s c).1 = (B.call t c).1
  next : ∀ {s t}, R s t → ∀ c, R (A.call s c).2 (B.call t c).2

theorem Simulation.run {R : σ → τ → Prop} (h : Simulation A B R) {s : σ} {t : τ} (hst : R s t)
    (cs : List ι) : (A.run s cs).1 = (B.run t cs).1 ∧ R (A.after s cs) (B.after t cs) := by
  induction cs generalizing s t with
  | nil => exact ⟨rfl, hst⟩
  | cons c cs ih =>
    obtain ⟨hresults, hstates⟩ := ih (h.next hst c)
    have hresult := h.result hst c
    refine ⟨?_, hstates⟩
    simp [CallObject.run, hresult, hresults]

end CallObject

end MitosOS.Lib
