import Mathlib.Data.Set.Finite.Basic
import Mathlib.Logic.Relation
import Mathlib.Order.WellFounded

/-! Programs over a state that end in a value, an error or a panic, or because there is no memory left.
Their loops are cut off after a given number of rounds, so a program that does not end is one that is
cut off at every number. -/
namespace MitosOS.Lib

universe u v

inductive Result (α : Type*) where
  | ok (a : α)
  | err (msg : String)
  | panic
  /-- An allocation failed, and its handler does not return. -/
  | exhausted
  | running
  deriving DecidableEq, Repr

namespace Result
variable {α β : Type u}

def bind (r : Result α) (f : α → Result β) : Result β :=
  match r with
  | .ok a => f a
  | .err msg => .err msg
  | .panic => .panic
  | .exhausted => .exhausted
  | .running => .running

instance : Monad Result where
  pure := .ok
  bind := bind

@[simp] theorem ok_bind (a : α) (f : α → Result β) : (Result.ok a).bind f = f a := rfl

@[simp] theorem err_bind (msg : String) (f : α → Result β) :
    (Result.err msg).bind f = .err msg := rfl

@[simp] theorem panic_bind (f : α → Result β) : (Result.panic : Result α).bind f = .panic := rfl

@[simp] theorem exhausted_bind (f : α → Result β) :
    (Result.exhausted : Result α).bind f = .exhausted := rfl

@[simp] theorem running_bind (f : α → Result β) :
    (Result.running : Result α).bind f = .running := rfl

@[simp] theorem bind_eq_bind (r : Result α) (f : α → Result β) : r >>= f = r.bind f := rfl

theorem bind_assoc {γ : Type u} (r : Result α) (f : α → Result β) (g : β → Result γ) :
    (r.bind f).bind g = r.bind fun a => (f a).bind g := by
  cases r <;> rfl

/-- The program comes back to its caller, with a value or an error. -/
def returned : Result α → Bool
  | .ok _ => true
  | .err _ => true
  | .panic => false
  | .exhausted => false
  | .running => false

@[simp] theorem returned_ok (a : α) : (Result.ok a).returned = true := rfl

/-- What is returned under a condition, and the panic otherwise. -/
structure ReturnsIff (r : Result PUnit.{u + 1}) (p : Prop) : Prop where
  returns : p → r = .ok ⟨⟩
  panics : ¬ p → r = .panic

/-- A Rust `Result` whose error is a text. -/
def ofExcept : Except String α → Result α
  | .ok a => .ok a
  | .error msg => .err msg

theorem ofExcept_ne_panic (r : Except String α) : ofExcept r ≠ .panic := by
  cases r <;> simp [ofExcept]

theorem ofExcept_ne_running (r : Except String α) : ofExcept r ≠ .running := by
  cases r <;> simp [ofExcept]

theorem ok_or_stop (r : Result α) : (∃ a, r = .ok a) ∨ ∀ a, r ≠ .ok a := by
  cases r <;> simp

/-- What comes after a program without a value does not matter. -/
theorem bind_of_stop {r : Result α} (hr : ∀ a, r ≠ .ok a) (f g : α → Result β) :
    r.bind f = r.bind g := by
  cases r with
  | ok a => exact absurd rfl (hr a)
  | err msg => rfl
  | panic => rfl
  | exhausted => rfl
  | running => rfl

theorem bind_ne_ok {r : Result α} (hr : ∀ a, r ≠ .ok a) (f : α → Result β) (b : β) :
    r.bind f ≠ .ok b := by
  rw [bind_of_stop hr f fun _ => .running]
  cases r <;> simp

theorem bind_ne_running {r : Result α} {f : α → Result β} (hr : r ≠ .running)
    (hf : ∀ a, f a ≠ .running) : r.bind f ≠ .running := by
  rcases r.ok_or_stop with ⟨a, rfl⟩ | hstop
  · exact hf a
  · rw [bind_of_stop hstop f fun _ => .panic]
    cases r <;> simp at hr ⊢

end Result

def Action (σ α : Type*) := σ → Result α × σ

/-- A round of a loop hands its variables on to the next one, or ends the loop. -/
inductive Round (τ α : Type*) where
  | next (t : τ)
  | done (a : α)

namespace Round
variable {τ ρ α : Type*}

def map (f : τ → ρ) : Round τ α → Round ρ α
  | .next t => .next (f t)
  | .done a => .done a

/-- `P` holds of the variables of the next round, or `Q` of the result. -/
def All (P : τ → Prop) (Q : α → Prop) : Round τ α → Prop
  | .next t => P t
  | .done a => Q a

end Round

namespace Action
variable {σ : Type v} {τ α β : Type u}

def bind (m : Action σ α) (f : α → Action σ β) : Action σ β := fun s =>
  match m s with
  | (.ok a, s) => f a s
  | (.err msg, s) => (.err msg, s)
  | (.panic, s) => (.panic, s)
  | (.exhausted, s) => (.exhausted, s)
  | (.running, s) => (.running, s)

instance : Monad (Action σ) where
  pure a := fun s => (.ok a, s)
  bind := bind

def lift (r : Result α) : Action σ α := fun s => (r, s)

def fail (msg : String) : Action σ α := fun s => (.err msg, s)

/-- `m.ok()`: an error becomes `none`. -/
def attempt (m : Action σ α) : Action σ (Option α) := fun s =>
  match m s with
  | (.ok a, s) => (.ok (some a), s)
  | (.err _, s) => (.ok none, s)
  | (.panic, s) => (.panic, s)
  | (.exhausted, s) => (.exhausted, s)
  | (.running, s) => (.running, s)

/-- `m`, and then `drop` when `m` comes back. -/
def dropping (m : Action σ α) (drop : σ → σ) : Action σ α := fun s =>
  ((m s).1, if (m s).1.returned then drop (m s).2 else (m s).2)

/-- `m`, and then `drop` when `m` comes back with an error. -/
def droppingOnErr (m : Action σ α) (drop : σ → σ) : Action σ α := fun s =>
  match m s with
  | (.err msg, s) => (.err msg, drop s)
  | r => r

@[simp] theorem lift_ok_bind (a : α) (f : α → Action σ β) : lift (.ok a) >>= f = f a := rfl

theorem dropping_of_running {m : Action σ α} {s s' : σ} (h : m s = (.running, s')) (drop : σ → σ) :
    m.dropping drop s = (.running, s') := by
  unfold dropping
  rw [h]
  rfl

theorem bind_of_ok {m : Action σ α} {s s' : σ} {a : α} (h : m s = (.ok a, s'))
    (f : α → Action σ β) : (m >>= f) s = f a s' := by
  change Action.bind m f s = f a s'
  unfold Action.bind
  rw [h]

/-- A program without a value ends where its first part without one does. -/
theorem bind_of_stop {m : Action σ α} {s s' : σ} {r : Result α} (h : m s = (r, s'))
    (hr : ∀ a, r ≠ .ok a) (f : α → Action σ β) (g : α → Result β) : (m >>= f) s = (r.bind g, s') := by
  change Action.bind m f s = (r.bind g, s')
  unfold Action.bind
  rw [h]
  cases r with
  | ok a => exact absurd rfl (hr a)
  | err msg => rfl
  | panic => rfl
  | exhausted => rfl
  | running => rfl

theorem bind_of_err {m : Action σ α} {s s' : σ} {msg : String} (h : m s = (.err msg, s'))
    (f : α → Action σ β) : (m >>= f) s = (.err msg, s') := bind_of_stop h (by simp) f fun _ => .panic

theorem bind_of_panic {m : Action σ α} {s s' : σ} (h : m s = (.panic, s'))
    (f : α → Action σ β) : (m >>= f) s = (.panic, s') := bind_of_stop h (by simp) f fun _ => .panic

theorem bind_of_running {m : Action σ α} {s s' : σ} (h : m s = (.running, s'))
    (f : α → Action σ β) : (m >>= f) s = (.running, s') := bind_of_stop h (by simp) f fun _ => .panic

theorem bind_of_ne_ok {m : Action σ α} {s : σ} (h : ∀ a, (m s).1 ≠ .ok a) (f : α → Action σ β) :
    ((m >>= f) s).2 = (m s).2 ∧ ∀ b, ((m >>= f) s).1 ≠ .ok b := by
  rw [bind_of_stop (m := m) (s := s) rfl h f fun _ => .panic]
  exact ⟨rfl, Result.bind_ne_ok h _⟩

theorem bind_fst {m : Action σ α} {f : α → Action σ β} {g : α → Result β}
    (hf : ∀ a s, (f a s).1 = g a) (s : σ) : ((m >>= f) s).1 = (m s).1.bind g := by
  rcases (m s).1.ok_or_stop with ⟨a, ha⟩ | hstop
  · rw [bind_of_ok (Prod.ext ha rfl), hf, ha]
    rfl
  · rw [bind_of_stop (m := m) (s := s) rfl hstop f g]

/-- At most `fuel` rounds of a loop. -/
def loop (body : τ → Action σ (Round τ α)) : ℕ → τ → Action σ α
  | 0, _ => fun s => (.running, s)
  | fuel + 1, t => do
    match ← body t with
    | .next t => loop body fuel t
    | .done a => pure a

section Keeps
variable {I : σ → Prop} {Q : α → Prop} {R : β → Prop}

/-- From states with `I` the program does not panic, ends in states with `I`, and returns only
values with `Q`. -/
def Keeps (I : σ → Prop) (m : Action σ α) (Q : α → Prop) : Prop :=
  ∀ s, I s → (m s).1 ≠ .panic ∧ I (m s).2 ∧ ∀ a, (m s).1 = .ok a → Q a

theorem keeps_of_ne {m : Action σ α} (hm : ∀ s, (m s).1 ≠ .panic ∧ ∀ a, (m s).1 ≠ .ok a)
    (hI : ∀ s, I s → I (m s).2) : Keeps I m Q :=
  fun s hs => ⟨(hm s).1, hI s hs, fun a ha => absurd ha ((hm s).2 a)⟩

theorem keeps_pure {a : α} (ha : Q a) : Keeps I (pure a) Q := by
  intro s hs
  refine ⟨by simp [pure], hs, fun b hb => ?_⟩
  rw [← Result.ok.inj hb]
  exact ha

theorem keeps_fail (msg : String) : Keeps (α := α) I (fail msg) Q :=
  keeps_of_ne (by simp [fail]) fun _ hs => hs

theorem Keeps.bind {m : Action σ α} {f : α → Action σ β} (hm : Keeps I m Q)
    (hf : ∀ a, Q a → Keeps I (f a) R) : Keeps I (m >>= f) R := by
  intro s hs
  obtain ⟨hpanic, hstate, hvalue⟩ := hm s hs
  rcases (m s).1.ok_or_stop with ⟨a, ha⟩ | hstop
  · rw [bind_of_ok (Prod.ext ha rfl)]
    exact hf a (hvalue a ha) _ hstate
  · rw [bind_of_stop (m := m) (s := s) rfl hstop f fun _ => .running]
    refine ⟨?_, hstate, fun b hb => absurd hb (Result.bind_ne_ok hstop _ b)⟩
    cases hrun : (m s).1 <;> simp [hrun] at hpanic ⊢

theorem Keeps.mono {Q' : α → Prop} {m : Action σ α} (hm : Keeps I m Q) (hQ : ∀ a, Q a → Q' a) :
    Keeps I m Q' := by
  intro s hs
  obtain ⟨hpanic, hstate, hvalue⟩ := hm s hs
  exact ⟨hpanic, hstate, fun a ha => hQ a (hvalue a ha)⟩

theorem Keeps.dropping {m : Action σ α} (hm : Keeps I m Q) {drop : σ → σ}
    (hdrop : ∀ s, I s → I (drop s)) : Keeps I (m.dropping drop) Q := by
  intro s hs
  obtain ⟨hpanic, hstate, hvalue⟩ := hm s hs
  refine ⟨hpanic, ?_, hvalue⟩
  unfold Action.dropping
  dsimp only
  split_ifs
  · exact hdrop _ hstate
  · exact hstate

theorem Keeps.droppingOnErr {m : Action σ α} (hm : Keeps I m Q) {drop : σ → σ}
    (hdrop : ∀ s, I s → I (drop s)) : Keeps I (m.droppingOnErr drop) Q := by
  intro s hs
  obtain ⟨hpanic, hstate, hvalue⟩ := hm s hs
  unfold Action.droppingOnErr
  cases hrun : m s with
  | mk r s' =>
    rw [hrun] at hpanic hstate hvalue
    cases r with
    | err msg => exact ⟨by simp, hdrop _ hstate, by simp⟩
    | ok a => exact ⟨hpanic, hstate, hvalue⟩
    | panic => exact ⟨hpanic, hstate, hvalue⟩
    | exhausted => exact ⟨hpanic, hstate, hvalue⟩
    | running => exact ⟨hpanic, hstate, hvalue⟩

/-- What each round keeps of the loop variables, the loop keeps. -/
theorem keeps_loop {body : τ → Action σ (Round τ α)} {P : τ → Prop}
    (hbody : ∀ t, P t → Keeps I (body t) (Round.All P Q)) (fuel : ℕ) {t : τ} (ht : P t) :
    Keeps I (loop body fuel t) Q := by
  induction fuel generalizing t with
  | zero => exact keeps_of_ne (by simp [loop]) fun _ hs => hs
  | succ fuel ih =>
    apply Keeps.bind (hbody t ht)
    intro r hr
    cases r with
    | next t => exact ih hr
    | done a => exact keeps_pure hr

end Keeps

section Ends
variable {I J K : σ → Prop}

/-- From states with `I` the program ends in `r`, in a state with `J`. -/
def Ends (I : σ → Prop) (m : Action σ α) (r : Result α) (J : σ → Prop) : Prop :=
  ∀ s, I s → (m s).1 = r ∧ J (m s).2

/-- From states with `I` the program ends in `r`, again in a state with `I`. -/
def Gives (I : σ → Prop) (m : Action σ α) (r : Result α) : Prop := Ends I m r I

theorem gives_pure (a : α) : Gives I (pure a) (.ok a) := fun _ hs => ⟨rfl, hs⟩

theorem gives_fail (msg : String) : Gives (α := α) I (fail msg) (.err msg) := fun _ hs => ⟨rfl, hs⟩

theorem gives_lift (r : Result α) : Gives I (lift r) r := fun _ hs => ⟨rfl, hs⟩

theorem Ends.mono {m : Action σ α} {r : Result α} (hm : Ends I m r J) (h : ∀ s, J s → K s) :
    Ends I m r K := fun s hs => ⟨(hm s hs).1, h _ (hm s hs).2⟩

theorem Ends.ok_bind {m : Action σ α} {f : α → Action σ β} {a : α} {r : Result β}
    (hm : Ends I m (.ok a) J) (hf : Ends J (f a) r K) : Ends I (m >>= f) r K := by
  intro s hs
  obtain ⟨hresult, hstate⟩ := hm s hs
  rw [bind_of_ok (Prod.ext hresult rfl)]
  exact hf _ hstate

/-- A program that does not come back with a value ends what follows it. -/
theorem Ends.bind_of_ne_ok {m : Action σ α} {f : α → Action σ β} {r : Result α}
    (hm : Ends I m r J) (hr : ∀ a, r ≠ .ok a) (g : α → Result β) :
    Ends I (m >>= f) (r.bind g) J := by
  intro s hs
  obtain ⟨rfl, hstate⟩ := hm s hs
  rw [bind_of_stop (m := m) (s := s) rfl hr f g]
  exact ⟨rfl, hstate⟩

theorem Ends.err_bind {m : Action σ α} {f : α → Action σ β} {msg : String}
    (hm : Ends I m (.err msg) J) : Ends I (m >>= f) (.err msg) J :=
  hm.bind_of_ne_ok (by simp) fun _ => .panic

theorem Ends.exhausted_bind {m : Action σ α} {f : α → Action σ β}
    (hm : Ends I m .exhausted J) : Ends I (m >>= f) .exhausted J :=
  hm.bind_of_ne_ok (by simp) fun _ => .panic

theorem Ends.dropping {m : Action σ α} {r : Result α} (hm : Ends I m r J) {drop : σ → σ}
    (hdrop : r.returned = true → ∀ s, J s → K (drop s))
    (hkeep : r.returned = false → ∀ s, J s → K s) : Ends I (m.dropping drop) r K := by
  intro s hs
  obtain ⟨rfl, hstate⟩ := hm s hs
  refine ⟨rfl, ?_⟩
  unfold Action.dropping
  dsimp only
  split_ifs with hreturned
  · exact hdrop hreturned _ hstate
  · exact hkeep (Bool.not_eq_true _ ▸ hreturned) _ hstate

theorem Ends.droppingOnErr {m : Action σ α} {msg : String} (hm : Ends I m (.err msg) J)
    {drop : σ → σ} (hdrop : ∀ s, J s → K (drop s)) :
    Ends I (m.droppingOnErr drop) (.err msg) K := by
  intro s hs
  obtain ⟨hresult, hstate⟩ := hm s hs
  unfold Action.droppingOnErr
  rw [show m s = (.err msg, (m s).2) from Prod.ext hresult rfl]
  exact ⟨rfl, hdrop _ hstate⟩

theorem Ends.droppingOnErr_of_ne {m : Action σ α} {r : Result α} (hm : Ends I m r J)
    (hr : ∀ msg, r ≠ .err msg) (drop : σ → σ) : Ends I (m.droppingOnErr drop) r J := by
  intro s hs
  obtain ⟨hresult, hstate⟩ := hm s hs
  unfold Action.droppingOnErr
  cases hrun : m s with
  | mk r' s' =>
    rw [hrun] at hresult hstate
    obtain rfl : r' = r := hresult
    cases r' with
    | err msg => exact absurd rfl (hr msg)
    | ok a => exact ⟨rfl, hstate⟩
    | panic => exact ⟨rfl, hstate⟩
    | exhausted => exact ⟨rfl, hstate⟩
    | running => exact ⟨rfl, hstate⟩

/-- What each round of a loop over a list keeps, the loop keeps. -/
theorem gives_forM {xs : List τ} {f : τ → Action σ PUnit.{u + 1}}
    (hf : ∀ x ∈ xs, Gives I (f x) (.ok ⟨⟩)) : Gives I (xs.forM f) (.ok ⟨⟩) := by
  induction xs with
  | nil => exact gives_pure _
  | cons x xs ih =>
    apply Ends.ok_bind (hf x List.mem_cons_self)
    exact ih fun y hy => hf y (List.mem_cons_of_mem x hy)

/-- A loop over a list whose rounds keep `I`, and panic exactly at the elements without `p`. -/
theorem forM_returnsIff (xs : List τ) {f : τ → Action σ PUnit.{u + 1}} {p : τ → Prop}
    (hf : ∀ x s, I s → (f x s).1.ReturnsIff (p x) ∧ I (f x s).2) {s : σ} (hs : I s) :
    (xs.forM f s).1.ReturnsIff (∀ x ∈ xs, p x) ∧ I (xs.forM f s).2 := by
  induction xs generalizing s with
  | nil => exact ⟨⟨fun _ => rfl, fun h => absurd (List.forall_mem_nil p) h⟩, hs⟩
  | cons x xs ih =>
    obtain ⟨hresult, hkept⟩ := hf x s hs
    change ((f x >>= fun _ => xs.forM f) s).1.ReturnsIff _ ∧ I ((f x >>= fun _ => xs.forM f) s).2
    by_cases hx : p x
    · rw [bind_of_ok (Prod.ext (hresult.returns hx) rfl)]
      simpa only [List.forall_mem_cons, hx, true_and] using ih hkept
    · rw [bind_of_panic (Prod.ext (hresult.panics hx) rfl)]
      exact ⟨⟨fun h => absurd (h x List.mem_cons_self) hx, fun _ => rfl⟩, hkept⟩

end Ends

end Action

section Iterate
variable {σ : Type v} {ρ τ α : Type u}

def iterate (step : ρ → Result (Round ρ α)) : ℕ → ρ → Result α
  | 0, _ => .running
  | fuel + 1, t => (step t).bind fun
    | .next t => iterate step fuel t
    | .done a => .ok a

/-- One round leads from `t` to `t'`. -/
def Moves (step : ρ → Result (Round ρ α)) (t t' : ρ) : Prop := step t = .ok (.next t')

/-- The rounds from `t` on come back to variables they had before. -/
def Cyclic (step : ρ → Result (Round ρ α)) (t : ρ) : Prop :=
  ∃ u, Relation.ReflTransGen (Moves step) t u ∧ Relation.TransGen (Moves step) u u

variable {step : ρ → Result (Round ρ α)}

theorem iterate_of_moves {t t' : ρ} (h : Moves step t t') (fuel : ℕ) :
    iterate step (fuel + 1) t = iterate step fuel t' := by
  rw [iterate, h]
  rfl

/-- More rounds do not change a result. -/
theorem iterate_mono {fuel : ℕ} {t : ρ} (h : iterate step fuel t ≠ .running) {fuel' : ℕ}
    (hle : fuel ≤ fuel') : iterate step fuel' t = iterate step fuel t := by
  induction fuel generalizing t fuel' with
  | zero => exact absurd rfl h
  | succ fuel ih =>
    obtain ⟨fuel', rfl⟩ := Nat.exists_eq_add_of_le' hle
    rw [← Nat.add_assoc] at *
    rw [iterate] at h ⊢
    rw [iterate]
    rcases (step t).ok_or_stop with ⟨x, hstep⟩ | hstop
    · rw [hstep] at h ⊢
      cases x with
      | next t' => exact ih h (Nat.le_add_left _ _)
      | done a => rfl
    · exact Result.bind_of_stop hstop _ _

theorem Cyclic.exists_moves {t : ρ} (h : Cyclic step t) :
    ∃ t', Moves step t t' ∧ Cyclic step t' := by
  obtain ⟨u, htu, huu⟩ := h
  rcases Relation.ReflTransGen.cases_head htu with rfl | ⟨t', hmove, hrest⟩
  · obtain ⟨t', hmove, hback⟩ := Relation.TransGen.head'_iff.mp huu
    exact ⟨t', hmove, t, hback, huu⟩
  · exact ⟨t', hmove, u, hrest, huu⟩

theorem Cyclic.running {t : ρ} (h : Cyclic step t) (fuel : ℕ) : iterate step fuel t = .running := by
  induction fuel generalizing t with
  | zero => rfl
  | succ fuel ih =>
    obtain ⟨t', hmove, hcyclic⟩ := h.exists_moves
    rw [iterate_of_moves hmove]
    exact ih hcyclic

/-- Over finitely many variables, a loop ends unless it runs into a cycle. -/
theorem iterate_returns_iff {S : Set ρ} (hfinite : S.Finite)
    (hmoves : ∀ t t', Moves step t t' → t' ∈ S) (hrunning : ∀ t, step t ≠ .running) (t : ρ) :
    (∃ fuel, iterate step fuel t ≠ .running) ↔ ¬ Cyclic step t := by
  constructor
  · rintro ⟨fuel, hreturns⟩ hcyclic
    exact hreturns (hcyclic.running fuel)
  intro hacyclic
  have hstep : ∀ u, (∀ u', Moves step u u' → ∃ fuel, iterate step fuel u' ≠ .running) →
      ∃ fuel, iterate step fuel u ≠ .running := by
    intro u hnext
    rcases (step u).ok_or_stop with ⟨x, hu⟩ | hstop
    · cases x with
      | next u' =>
        obtain ⟨fuel, hreturns⟩ := hnext u' hu
        exact ⟨fuel + 1, by rwa [iterate_of_moves hu]⟩
      | done a => exact ⟨1, by simp [iterate, hu]⟩
    · refine ⟨1, ?_⟩
      rw [iterate, Result.bind_of_stop hstop _ fun _ => .panic]
      exact Result.bind_ne_running (hrunning u) (by simp)
  -- on the variables reached from `t`, coming later is a well-founded order
  let V := {u : ρ // u ∈ S ∧ Relation.ReflTransGen (Moves step) t u}
  have hVfinite : Finite V := (hfinite.subset fun u hu => hu.1 : Set.Finite
    {u | u ∈ S ∧ Relation.ReflTransGen (Moves step) t u}).to_subtype
  let later : V → V → Prop := fun u v => Relation.TransGen (Moves step) v.1 u.1
  have htrans : IsTrans V later := ⟨fun u v w huv hvw => hvw.trans huv⟩
  have hirrefl : Std.Irrefl later := ⟨fun u hu => hacyclic ⟨u.1, u.2.2, hu⟩⟩
  have hwf : WellFounded later := Finite.wellFounded_of_trans_of_irrefl later
  have hall : ∀ u : V, ∃ fuel, iterate step fuel u.1 ≠ .running := by
    intro u
    induction u using hwf.induction with
    | _ u ih =>
      apply hstep
      intro u' hmove
      exact ih ⟨u', hmoves _ _ hmove, u.2.2.tail hmove⟩ (Relation.TransGen.single hmove)
  apply hstep
  intro u' hmove
  exact hall ⟨u', hmoves _ _ hmove, Relation.ReflTransGen.single hmove⟩

variable {κ : Type*}

def trail (step : ρ → Result (Round ρ α)) (mark : ρ → List κ) : ℕ → ρ → List κ
  | 0, _ => []
  | fuel + 1, t => mark t ++
    match step t with
    | .ok (.next t) => trail step mark fuel t
    | _ => []

theorem trail_of_moves {mark : ρ → List κ} {t t' : ρ} (h : Moves step t t') (fuel : ℕ) :
    trail step mark (fuel + 1) t = mark t ++ trail step mark fuel t' := by
  rw [trail, h]

theorem trail_of_ends {mark : ρ → List κ} {t : ρ} (h : ∀ t', ¬ Moves step t t') (fuel : ℕ) :
    trail step mark (fuel + 1) t = mark t := by
  rw [trail]
  split
  · rename_i t' hstep
    exact absurd hstep (h t')
  · exact List.append_nil _

/-- What is recorded in any number of rounds is what the variables that are reached record. -/
theorem mem_trail_iff {mark : ρ → List κ} {k : κ} {t : ρ} :
    (∃ fuel, k ∈ trail step mark fuel t) ↔
      ∃ u, Relation.ReflTransGen (Moves step) t u ∧ k ∈ mark u := by
  constructor
  · rintro ⟨fuel, hk⟩
    induction fuel generalizing t with
    | zero => exact absurd hk List.not_mem_nil
    | succ fuel ih =>
      by_cases hmove : ∃ t', Moves step t t'
      · obtain ⟨t', hmove⟩ := hmove
        rw [trail_of_moves hmove] at hk
        rcases List.mem_append.mp hk with hhere | hlater
        · exact ⟨t, .refl, hhere⟩
        · obtain ⟨u, hto, hu⟩ := ih hlater
          exact ⟨u, hto.head hmove, hu⟩
      · rw [trail_of_ends (not_exists.mp hmove)] at hk
        exact ⟨t, .refl, hk⟩
  · rintro ⟨u, hto, hu⟩
    induction hto using Relation.ReflTransGen.head_induction_on with
    | refl => exact ⟨1, List.mem_append_left _ hu⟩
    | head hmove _ ih =>
      obtain ⟨fuel, hk⟩ := ih
      refine ⟨fuel + 1, ?_⟩
      rw [trail_of_moves hmove]
      exact List.mem_append_right _ hk

theorem mem_trail_mono {mark : ρ → List κ} {k : κ} {fuel fuel' : ℕ} (hle : fuel ≤ fuel') {t : ρ}
    (h : k ∈ trail step mark fuel t) : k ∈ trail step mark fuel' t := by
  induction fuel generalizing t fuel' with
  | zero => exact absurd h List.not_mem_nil
  | succ fuel ih =>
    obtain ⟨fuel', rfl⟩ := Nat.exists_eq_add_of_le' hle
    rw [← Nat.add_assoc]
    by_cases hmove : ∃ t', Moves step t t'
    · obtain ⟨t', hmove⟩ := hmove
      rw [trail_of_moves hmove] at h ⊢
      rcases List.mem_append.mp h with hhere | hlater
      · exact List.mem_append_left _ hhere
      · exact List.mem_append_right _ (ih (Nat.le_add_left _ _) hlater)
    · rw [trail_of_ends (not_exists.mp hmove)] at h ⊢
      exact h

/-- A result is reached by rounds that lead from one to the next. -/
theorem iterate_eq_ok_iff {t : ρ} {a : α} :
    (∃ fuel, iterate step fuel t = .ok a) ↔
      ∃ u, Relation.ReflTransGen (Moves step) t u ∧ step u = .ok (.done a) := by
  constructor
  · rintro ⟨fuel, h⟩
    induction fuel generalizing t with
    | zero => exact absurd h (by simp [iterate])
    | succ fuel ih =>
      rw [iterate] at h
      rcases (step t).ok_or_stop with ⟨x, hstep⟩ | hstop
      · rw [hstep] at h
        cases x with
        | next t' =>
          obtain ⟨u, hto, hu⟩ := ih h
          exact ⟨u, hto.head hstep, hu⟩
        | done b =>
          obtain rfl : b = a := Result.ok.inj h
          exact ⟨t, .refl, hstep⟩
      · exact absurd h (Result.bind_ne_ok hstop _ a)
  · rintro ⟨u, hto, hu⟩
    induction hto using Relation.ReflTransGen.head_induction_on with
    | refl => exact ⟨1, by simp [iterate, hu]⟩
    | head hmove _ ih =>
      obtain ⟨fuel, hk⟩ := ih
      exact ⟨fuel + 1, by rwa [iterate_of_moves hmove]⟩

/-- A loop whose rounds, seen through `view`, do the steps of a loop that does not touch the state,
and record what `mark` gives. -/
theorem Action.ends_loop (view : τ → ρ) {I : List κ → σ → Prop} {mark : ρ → List κ}
    {body : τ → Action σ (Round τ α)} {P : τ → Prop}
    (hbody : ∀ t l, P t → ∃ r, Ends (I l) (body t) r (I (l ++ mark (view t))) ∧
      r.bind (fun x => .ok (x.map view)) = step (view t) ∧ ∀ t', r = .ok (.next t') → P t')
    (fuel : ℕ) {t : τ} (ht : P t) (l : List κ) :
    Ends (I l) (loop body fuel t) (iterate step fuel (view t))
      (I (l ++ trail step mark fuel (view t))) := by
  induction fuel generalizing t l with
  | zero =>
    rw [trail, List.append_nil]
    exact fun s hs => ⟨rfl, hs⟩
  | succ fuel ih =>
    obtain ⟨r, hr, hview, hnext⟩ := hbody t l ht
    rcases r.ok_or_stop with ⟨x, rfl⟩ | hstop
    · cases x with
      | next t' =>
        have hmove : Moves step (view t) (view t') := hview.symm
        rw [iterate_of_moves hmove, trail_of_moves hmove, ← List.append_assoc]
        exact hr.ok_bind (ih (hnext t' rfl) _)
      | done a =>
        have hdone : step (view t) = .ok (.done a) := hview.symm
        rw [trail_of_ends (by simp [Moves, hdone]), iterate, hdone]
        exact hr.ok_bind (gives_pure a)
    · have hends : ∀ t', ¬ Moves step (view t) t' := fun t' hmove =>
        Result.bind_ne_ok hstop _ _ (hview.trans hmove)
      rw [trail_of_ends hends, iterate, ← hview]
      have hresult : (r.bind fun x => .ok (x.map view)).bind
          (fun | .next t => iterate step fuel t | .done a => .ok a) = r.bind fun _ => .running := by
        cases r <;> simp at hstop ⊢
      rw [hresult]
      exact hr.bind_of_ne_ok hstop _

end Iterate

end MitosOS.Lib
