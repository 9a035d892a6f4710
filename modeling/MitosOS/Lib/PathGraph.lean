import Mathlib.Data.List.Infix
import Mathlib.Data.Nat.Notation
import Mathlib.Data.Set.Basic

/-! Pointer graphs whose edges are labelled by an index, the paths that start at a root, and
what one pointer update does to them. `D` is the set of paths a client cares about. -/
namespace MitosOS.Lib

/-- The node that an index of a node leads to, if any. -/
abbrev PathGraph (N I : Type*) := N → I → Option N

namespace PathGraph
variable {N I : Type*} {g g' : PathGraph N I} {n t : N} {p q : List I} {D : Set (List I)}

def walk (g : PathGraph N I) : N → List I → Option N
  | n, [] => some n
  | n, i :: p => (g n i).bind fun c => walk g c p

@[simp] theorem walk_nil (g : PathGraph N I) (n : N) : g.walk n [] = some n := rfl

theorem walk_cons (g : PathGraph N I) (n : N) (i : I) (p : List I) :
    g.walk n (i :: p) = (g n i).bind fun c => g.walk c p := rfl

theorem walk_append (g : PathGraph N I) (n : N) (p q : List I) :
    g.walk n (p ++ q) = (g.walk n p).bind fun c => g.walk c q := by
  induction p generalizing n with
  | nil => rfl
  | cons i p ih =>
    rw [List.cons_append, walk_cons, walk_cons, Option.bind_assoc]
    exact congrArg _ (funext fun c => ih c)

theorem walk_concat (g : PathGraph N I) (n : N) (p : List I) (i : I) :
    g.walk n (p ++ [i]) = (g.walk n p).bind fun c => g c i := by
  rw [walk_append]
  refine congrArg _ (funext fun c => ?_)
  cases h : g c i <;> simp [walk_cons, h]

theorem walk_concat_of_eq (h : g.walk n p = some t) (i : I) :
    g.walk n (p ++ [i]) = g t i := by
  rw [walk_concat, h, Option.bind_some]

theorem walk_congr
    (h : ∀ q i, q ++ [i] <+: p → ∀ t, g.walk n q = some t → g' t i = g t i) :
    g'.walk n p = g.walk n p := by
  induction p using List.reverseRecOn with
  | nil => rfl
  | append_singleton p i ih =>
    have hp : g'.walk n p = g.walk n p :=
      ih fun q j hq t ht => h q j (hq.trans (List.prefix_append _ _)) t ht
    rw [walk_concat, walk_concat, hp]
    cases hw : g.walk n p with
    | none => rfl
    | some t =>
      rw [Option.bind_some, Option.bind_some]
      exact h p i (List.prefix_refl _) t hw

/-- The nodes that paths of `D` lead to. -/
def nodes (g : PathGraph N I) (n : N) (D : Set (List I)) : Set N :=
  {t | ∃ p ∈ D, g.walk n p = some t}

def PrefixClosed (D : Set (List I)) : Prop :=
  ∀ p i, p ++ [i] ∈ D → p ∈ D

/-- Every node has at most one path of `D` leading to it. -/
def TreeOn (g : PathGraph N I) (n : N) (D : Set (List I)) : Prop :=
  ∀ p ∈ D, ∀ q ∈ D, ∀ t, g.walk n p = some t → g.walk n q = some t → p = q

theorem PrefixClosed.mem_of_isPrefix (hD : PrefixClosed D) (hp : p ∈ D) (h : q <+: p) : q ∈ D := by
  obtain ⟨r, rfl⟩ := h
  induction r using List.reverseRecOn with
  | nil => simpa using hp
  | append_singleton r i ih => exact ih (hD (q ++ r) i (by rwa [List.append_assoc]))

theorem walk_congr_on (hD : PrefixClosed D)
    (h : ∀ q i, q ++ [i] ∈ D → ∀ t, g.walk n q = some t → g' t i = g t i) (hp : p ∈ D) :
    g'.walk n p = g.walk n p :=
  walk_congr fun q i hq t ht => h q i (hD.mem_of_isPrefix hp hq) t ht

theorem nodes_congr (h : ∀ p ∈ D, g'.walk n p = g.walk n p) : g'.nodes n D = g.nodes n D := by
  ext t
  constructor
  · rintro ⟨p, hp, hw⟩
    exact ⟨p, hp, (h p hp).symm.trans hw⟩
  · rintro ⟨p, hp, hw⟩
    exact ⟨p, hp, (h p hp).trans hw⟩

theorem TreeOn.congr (hT : TreeOn g n D) (h : ∀ p ∈ D, g'.walk n p = g.walk n p) :
    TreeOn g' n D := by
  intro p hp q hq t hpt hqt
  exact hT p hp q hq t ((h p hp).symm.trans hpt) ((h q hq).symm.trans hqt)

/-- Adding one path to a node outside the tree keeps it a tree. -/
theorem TreeOn.attach {f : N} (hT : TreeOn g n D) (hf : f ∉ g.nodes n D)
    (h : ∀ q ∈ D, g'.walk n q = some f ∧ q = p ∨ g'.walk n q = g.walk n q) :
    TreeOn g' n D := by
  intro q hq r hr t hqt hrt
  rcases h q hq with ⟨hqf, rfl⟩ | hq' <;> rcases h r hr with ⟨hrf, rfl⟩ | hr'
  · rfl
  · obtain rfl : f = t := Option.some.inj (hqf.symm.trans hqt)
    exact absurd ⟨r, hr, hr'.symm.trans hrt⟩ hf
  · obtain rfl : f = t := Option.some.inj (hrf.symm.trans hrt)
    exact absurd ⟨q, hq, hq'.symm.trans hqt⟩ hf
  · exact hT q hq r hr t (hq'.symm.trans hqt) (hr'.symm.trans hrt)

/-- How many nodes of a path are still missing. -/
def missing (g : PathGraph N I) : N → List I → ℕ
  | _, [] => 0
  | n, i :: p =>
    match g n i with
    | some c => missing g c p
    | none => p.length + 1

theorem missing_of_some {c : N} {i : I} (h : g n i = some c) :
    g.missing n (i :: p) = g.missing c p := by
  rw [missing, h]

theorem missing_of_none {i : I} (h : g n i = none) : g.missing n (i :: p) = p.length + 1 := by
  rw [missing, h]

theorem missing_le_length (g : PathGraph N I) (n : N) (p : List I) : g.missing n p ≤ p.length := by
  induction p generalizing n with
  | nil => exact le_rfl
  | cons i p ih =>
    cases h : g n i with
    | none => rw [missing_of_none h, List.length_cons]
    | some c =>
      rw [missing_of_some h, List.length_cons]
      exact Nat.le_succ_of_le (ih c)

theorem missing_of_childless (h : ∀ i, g n i = none) (p : List I) : g.missing n p = p.length := by
  cases p with
  | nil => rfl
  | cons i p => rw [missing_of_none (h i), List.length_cons]

/-- The edges a path follows before it breaks off. -/
def trail (g : PathGraph N I) : N → List I → List (N × I)
  | _, [] => []
  | n, i :: p =>
    match g n i with
    | some c => (n, i) :: trail g c p
    | none => []

/-- The first missing edge of a path. -/
def stop (g : PathGraph N I) : N → List I → Option (N × I)
  | _, [] => none
  | n, i :: p =>
    match g n i with
    | some c => stop g c p
    | none => some (n, i)

theorem trail_of_some {c : N} {i : I} (h : g n i = some c) :
    g.trail n (i :: p) = (n, i) :: g.trail c p := by
  rw [trail, h]

theorem trail_of_none {i : I} (h : g n i = none) : g.trail n (i :: p) = [] := by
  rw [trail, h]

theorem stop_of_some {c : N} {i : I} (h : g n i = some c) : g.stop n (i :: p) = g.stop c p := by
  rw [stop, h]

theorem stop_of_none {i : I} (h : g n i = none) : g.stop n (i :: p) = some (n, i) := by
  rw [stop, h]

/-- The edges of the trail exist, and the one where the path breaks off does not. -/
theorem edge_of_trail_or_stop (g : PathGraph N I) (n : N) (p : List I) :
    (∀ e ∈ g.trail n p, ∃ c, g e.1 e.2 = some c) ∧ ∀ e, g.stop n p = some e → g e.1 e.2 = none := by
  induction p generalizing n with
  | nil => exact ⟨fun e he => absurd he List.not_mem_nil, fun e he => absurd he (by simp [stop])⟩
  | cons i p ih =>
    cases hi : g n i with
    | none =>
      rw [trail_of_none hi, stop_of_none hi]
      refine ⟨fun e he => absurd he List.not_mem_nil, fun e he => ?_⟩
      rw [← Option.some.inj he]
      exact hi
    | some c =>
      rw [trail_of_some hi, stop_of_some hi]
      refine ⟨fun e he => ?_, (ih c).2⟩
      rcases List.mem_cons.mp he with rfl | he'
      · exact ⟨c, hi⟩
      · exact (ih c).1 e he'

/-- Paths from a node whose edges only lead back to it stay there. -/
theorem stays_of_loop (h : ∀ i c, g n i = some c → c = n) (p : List I) :
    (∀ e ∈ g.trail n p, e.1 = n) ∧ (∀ e, g.stop n p = some e → e.1 = n) ∧
      ∀ t, g.walk n p = some t → t = n := by
  induction p with
  | nil =>
    refine ⟨fun e he => absurd he List.not_mem_nil, fun e he => ?_, fun t ht => ?_⟩
    · exact absurd he (by simp [stop])
    · exact (Option.some.inj ht).symm
  | cons i p ih =>
    cases hi : g n i with
    | none =>
      rw [trail_of_none hi, stop_of_none hi, walk_cons, hi]
      refine ⟨fun e he => absurd he List.not_mem_nil, fun e he => ?_, fun t ht => ?_⟩
      · rw [← Option.some.inj he]
      · exact absurd ht (by simp)
    | some c =>
      obtain rfl := h i c hi
      rw [trail_of_some hi, stop_of_some hi, walk_cons, hi, Option.bind_some]
      refine ⟨fun e he => ?_, ih.2⟩
      rcases List.mem_cons.mp he with rfl | he'
      · rfl
      · exact ih.1 e he'

theorem stop_of_walk (h : g.walk n p = some t) : g.stop n p = none ∧ g.missing n p = 0 := by
  induction p generalizing n with
  | nil => exact ⟨rfl, rfl⟩
  | cons i p ih =>
    rw [walk_cons] at h
    obtain ⟨c, hc, hw⟩ := Option.bind_eq_some_iff.mp h
    rw [stop_of_some hc, missing_of_some hc]
    exact ih hw

theorem length_trail_add_missing (g : PathGraph N I) (n : N) (p : List I) :
    (g.trail n p).length + g.missing n p = p.length := by
  induction p generalizing n with
  | nil => rfl
  | cons i p ih =>
    cases hi : g n i with
    | none => rw [trail_of_none hi, missing_of_none hi, List.length_nil, Nat.zero_add, List.length_cons]
    | some c =>
      rw [trail_of_some hi, missing_of_some hi, List.length_cons, List.length_cons, ← ih c]
      omega

section Update
variable [DecidableEq N] [DecidableEq I] {i : I} {f : N}

def set (g : PathGraph N I) (t : N) (i : I) (c : Option N) : PathGraph N I :=
  fun t' i' => if t' = t ∧ i' = i then c else g t' i'

def clear (g : PathGraph N I) (f : N) : PathGraph N I :=
  fun t i => if t = f then none else g t i

@[simp] theorem set_same (g : PathGraph N I) (t : N) (i : I) (c : Option N) : g.set t i c t i = c := by
  simp [set]

theorem set_of_ne (g : PathGraph N I) {t t' : N} {i i' : I} (c : Option N) (h : t' ≠ t ∨ i' ≠ i) :
    g.set t i c t' i' = g t' i' := by
  unfold set
  rw [if_neg]
  rintro ⟨h1, h2⟩
  exact h.elim (· h1) (· h2)

theorem walk_set_of_none (hempty : g f i = none) (c : Option N) (hw : g.walk n p = some t) :
    (g.set f i c).walk n p = some t := by
  induction p generalizing n with
  | nil => exact hw
  | cons j p ih =>
    rw [walk_cons] at hw ⊢
    obtain ⟨d, hd, hrest⟩ := Option.bind_eq_some_iff.mp hw
    have hne : n ≠ f ∨ j ≠ i := by
      by_contra hcon
      rw [not_or, not_not, not_not] at hcon
      obtain ⟨rfl, rfl⟩ := hcon
      rw [hempty] at hd
      exact absurd hd (by simp)
    rw [set_of_ne g c hne, hd, Option.bind_some]
    exact ih hrest

omit [DecidableEq I] in
theorem walk_clear_of_not_mem (hD : PrefixClosed D) (hf : f ∉ g.nodes n D) (hp : p ∈ D) :
    (g.clear f).walk n p = g.walk n p :=
  walk_congr_on hD (fun q i hq t ht => by
    have hne : t ≠ f := by
      rintro rfl
      exact hf ⟨q, hD q i hq, ht⟩
    simp [clear, hne]) hp

/-- In a tree, only the paths through the redirected edge can change. -/
theorem walk_set_of_not_isPrefix (hD : PrefixClosed D) (hT : TreeOn g n D) (hp : p ++ [i] ∈ D)
    (hw : g.walk n p = some t) (c : Option N) (hq : q ∈ D) (h : ¬ p ++ [i] <+: q) :
    (g.set t i c).walk n q = g.walk n q := by
  refine walk_congr fun r j hr s hs => set_of_ne g c ?_
  by_contra hcon
  rw [not_or, not_not, not_not] at hcon
  obtain ⟨rfl, rfl⟩ := hcon
  have hrD : r ∈ D := hD r j (hD.mem_of_isPrefix hq hr)
  have : r = p := hT r hrD p (hD p j hp) s hs hw
  subst this
  exact h hr

theorem walk_set_source (hD : PrefixClosed D) (hT : TreeOn g n D) (hp : p ++ [i] ∈ D)
    (hw : g.walk n p = some t) (c : Option N) : (g.set t i c).walk n p = some t := by
  refine (walk_set_of_not_isPrefix hD hT hp hw c (hD p i hp) fun hpre => ?_).trans hw
  have hlen := hpre.length_le
  rw [List.length_append, List.length_singleton] at hlen
  omega

/-- Hanging a childless node on an empty edge adds one path and nothing else. The new node
need not be childless where `D` stops. -/
theorem walk_set_attach (hD : PrefixClosed D) (hT : TreeOn g n D) (hp : p ++ [i] ∈ D)
    (hw : g.walk n p = some t) (hempty : g t i = none) (hft : f ≠ t)
    (hchild : ∀ j, p ++ [i] ++ [j] ∈ D → g f j = none) (hq : q ∈ D) :
    (g.set t i (some f)).walk n q = if q = p ++ [i] then some f else g.walk n q := by
  by_cases hpre : p ++ [i] <+: q
  · obtain ⟨r, rfl⟩ := hpre
    have hhead : (g.set t i (some f)).walk n (p ++ [i]) = some f := by
      rw [walk_concat_of_eq (walk_set_source hD hT hp hw (some f)), set_same]
    cases r with
    | nil => simp only [List.append_nil, if_true, hhead]
    | cons j r =>
      have hj : p ++ [i] ++ [j] ∈ D := by
        refine hD.mem_of_isPrefix hq ⟨r, ?_⟩
        simp
      have hold : g.walk n (p ++ [i]) = none := by rw [walk_concat_of_eq hw, hempty]
      rw [if_neg (by simp), walk_append, hhead, Option.bind_some, walk_cons,
        set_of_ne g _ (Or.inl hft), hchild j hj, Option.bind_none, walk_append, hold,
        Option.bind_none]
  · rw [if_neg (by rintro rfl; exact hpre (List.prefix_refl _))]
    exact walk_set_of_not_isPrefix hD hT hp hw (some f) hq hpre

/-- Clearing an edge whose path no longer path of `D` extends removes just that path. -/
theorem walk_set_detach (hD : PrefixClosed D) (hT : TreeOn g n D) (hp : p ++ [i] ∈ D)
    (hw : g.walk n p = some t) (hlast : ∀ j, p ++ [i] ++ [j] ∉ D) (hq : q ∈ D) :
    (g.set t i none).walk n q = if q = p ++ [i] then none else g.walk n q := by
  by_cases hpre : p ++ [i] <+: q
  · obtain ⟨r, rfl⟩ := hpre
    cases r with
    | nil =>
      simp only [List.append_nil, if_true]
      rw [walk_concat_of_eq (walk_set_source hD hT hp hw none), set_same]
    | cons j r =>
      refine absurd (hD.mem_of_isPrefix hq ⟨r, ?_⟩) (hlast j)
      simp
  · rw [if_neg (by rintro rfl; exact hpre (List.prefix_refl _))]
    exact walk_set_of_not_isPrefix hD hT hp hw none hq hpre

omit [DecidableEq N] in
theorem nodes_attach (hp : p ∈ D) (hold : g.walk n p = none)
    (h : ∀ q ∈ D, g'.walk n q = if q = p then some f else g.walk n q) :
    g'.nodes n D = insert f (g.nodes n D) := by
  ext t
  constructor
  · rintro ⟨q, hq, hqt⟩
    rw [h q hq] at hqt
    split_ifs at hqt with hqp
    · exact Or.inl (Option.some.inj hqt).symm
    · exact Or.inr ⟨q, hq, hqt⟩
  · rintro (rfl | ⟨q, hq, hqt⟩)
    · exact ⟨p, hp, by rw [h p hp, if_pos rfl]⟩
    · refine ⟨q, hq, ?_⟩
      rw [h q hq, if_neg, hqt]
      rintro rfl
      rw [hold] at hqt
      exact Option.noConfusion rfl (heq_of_eq hqt)

/-- Clearing a node outside and hanging it on an empty edge adds this node, tree or not. -/
theorem nodes_grow (hD : PrefixClosed D) (hf : f ∉ g.nodes n D) (hp : p ++ [i] ∈ D)
    (hw : g.walk n p = some t) (hempty : g t i = none) :
    ((g.clear f).set t i (some f)).walk n (p ++ [i]) = some f ∧
      ((g.clear f).set t i (some f)).nodes n D = insert f (g.nodes n D) := by
  have hft : f ≠ t := by
    rintro rfl
    exact hf ⟨p, hD p i hp, hw⟩
  have hclear : (g.clear f) t i = none := by
    rw [clear, if_neg hft.symm, hempty]
  have hkept : ∀ q ∈ D, ∀ c, g.walk n q = some c →
      ((g.clear f).set t i (some f)).walk n q = some c := by
    intro q hq c hc
    exact walk_set_of_none hclear _ ((walk_clear_of_not_mem hD hf hq).trans hc)
  have hnew : ((g.clear f).set t i (some f)).walk n (p ++ [i]) = some f := by
    rw [walk_concat_of_eq (hkept p (hD p i hp) t hw), set_same]
  -- a path of the new graph is an old one, or it ends with the new edge
  have hold : ∀ q, q ∈ D → ∀ c, ((g.clear f).set t i (some f)).walk n q = some c →
      c = f ∨ g.walk n q = some c := by
    intro q
    induction q using List.reverseRecOn with
    | nil => exact fun _ c hc => Or.inr hc
    | append_singleton q j ih =>
      intro hq c hc
      rw [walk_concat] at hc
      obtain ⟨d, hd, hdc⟩ := Option.bind_eq_some_iff.mp hc
      by_cases hedge : d = t ∧ j = i
      · rw [set, if_pos hedge] at hdc
        exact Or.inl (Option.some.inj hdc).symm
      · rw [set, if_neg hedge, clear] at hdc
        split_ifs at hdc with hdf
        rcases ih (hD q j hq) d hd with hcon | hqd
        · exact absurd hcon hdf
        · exact Or.inr ((walk_concat_of_eq hqd j).trans hdc)
  refine ⟨hnew, ?_⟩
  ext c
  constructor
  · rintro ⟨q, hq, hc⟩
    exact (hold q hq c hc).imp id fun hqc => ⟨q, hq, hqc⟩
  · rintro (rfl | ⟨q, hq, hc⟩)
    · exact ⟨_, hp, hnew⟩
    · exact ⟨q, hq, hkept q hq c hc⟩

omit [DecidableEq N] in
theorem nodes_detach (hT : TreeOn g n D) (hp : p ∈ D) (hold : g.walk n p = some f)
    (h : ∀ q ∈ D, g'.walk n q = if q = p then none else g.walk n q) :
    g'.nodes n D = g.nodes n D \ {f} := by
  ext t
  constructor
  · rintro ⟨q, hq, hqt⟩
    rw [h q hq] at hqt
    split_ifs at hqt with hqp
    refine ⟨⟨q, hq, hqt⟩, ?_⟩
    rintro rfl
    exact hqp (hT q hq p hp t hqt hold)
  · rintro ⟨⟨q, hq, hqt⟩, hne⟩
    refine ⟨q, hq, ?_⟩
    rw [h q hq, if_neg, hqt]
    rintro rfl
    exact hne (Option.some.inj (hqt.symm.trans hold))

omit [DecidableEq N] in
theorem TreeOn.detach (hT : TreeOn g n D)
    (h : ∀ q ∈ D, g'.walk n q = if q = p then none else g.walk n q) : TreeOn g' n D := by
  intro q hq r hr t hqt hrt
  rw [h q hq] at hqt
  rw [h r hr] at hrt
  split_ifs at hqt hrt
  exact hT q hq r hr t hqt hrt

end Update

end PathGraph

end MitosOS.Lib
