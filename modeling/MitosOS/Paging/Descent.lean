import MitosOS.Paging.Translation

/-! `next_table` along a path on behalf of user mode, in tables of any shape: the entries it follows
are marked user-accessible, the first absent one gets a chain of fresh tables. Then `map_page`, which
adds the leaf. -/
namespace MitosOS.Paging
open MitosOS.Lib MitosOS.Memory

section Descent
variable {F : Format} {s s' : Machine} {n f : ℕ} {i : Fin 512} {p : List (Fin 512)}

structure Marked (F : Format) (s s' : Machine) (n : ℕ) (i : Fin 512) : Prop where
  pmm : s'.pmm = s.pmm
  entries_eq : ∀ t j, entries s'.mem t j =
    if (t, j) = (n, i) then F.marked (entries s.mem t j) else entries s.mem t j

theorem Marked.graph_eq (hF : F.Lawful) (h : Marked F s s' n i) :
    graph F s'.mem = graph F s.mem := by
  funext t j
  rw [graph, h.entries_eq]
  split_ifs
  · rw [Format.child, hF.isPresent_marked, hF.physicalAddress_marked]
    rfl
  · rfl

theorem nextTables_of_some (hF : F.Lawful) {c : ℕ} (hc : graph F s.mem n i = some c)
    (p : List (Fin 512)) :
    ∃ s₁, Marked F s s₁ n i ∧
      nextTables F true s (n * 4096) (i :: p) = nextTables F true s₁ (c * 4096) p := by
  obtain ⟨hpres, haddr⟩ := isPresent_of_graph_some hF hc
  cases hup : F.upgrade with
  | none =>
    have hstep : nextTable F true s (n * 4096) i = (.ok (c * 4096), s) := by
      unfold nextTable
      simp only [getEntry_frame, hpres, hup, if_true, haddr]
    refine ⟨s, ⟨rfl, fun t j => ?_⟩, by rw [nextTables, hstep]⟩
    rw [Format.marked, hup, ite_self]
  | some up =>
    have hstep : nextTable F true s (n * 4096) i = (.ok (c * 4096),
        { s with mem := setEntry s.mem (n * 4096) i (up (entries s.mem n i)) }) := by
      unfold nextTable
      simp only [getEntry_frame, hpres, hup, if_true, hF.physicalAddress_upgrade hup, haddr]
    refine ⟨{ s with mem := setEntry s.mem (n * 4096) i (up (entries s.mem n i)) },
      ⟨rfl, fun t j => ?_⟩, by rw [nextTables, hstep]⟩
    rw [entries_setEntry, Format.marked, hup]
    by_cases h : t = n ∧ j = i
    · obtain ⟨rfl, rfl⟩ := h
      rw [if_pos ⟨rfl, rfl⟩, if_pos rfl]
    · rw [if_neg h, if_neg (fun hcon => h (Prod.mk.inj hcon))]

theorem nextTables_of_none (hF : F.Lawful) (hc : graph F s.mem n i = none) (p : List (Fin 512)) :
    (nextTables F true s (n * 4096) (i :: p) = (.error .frameAllocationFailed, s) ∧
      ∀ g, ¬ s.pmm.IsFree g) ∨
    ∃ f s', Grown F s s' n i f ∧
      nextTables F true s (n * 4096) (i :: p) = nextTables F true s' (f * 4096) p := by
  rcases nextTable_cases hF true s n i with
    ⟨c, s₁, -, hsome, -⟩ | ⟨hnext, -, hempty⟩ | ⟨f, s₁, hnext, -, hg⟩
  · rw [hc] at hsome
    exact absurd hsome (by simp)
  · left
    exact ⟨by rw [nextTables, hnext], hempty⟩
  · right
    exact ⟨f, s₁, hg, by rw [nextTables, hnext]⟩

/-- What a descent does to tables that are not in the pool: the entries it follows are marked, and the
one it stops at is filled if there is a frame for it. -/
structure Descended (F : Format) (s : Machine) (n : ℕ) (p : List (Fin 512))
    (r : Except MemoryError ℕ) (s' : Machine) : Prop where
  present : ∀ t j, ¬ s.pmm.IsFree t → F.isPresent (entries s.mem t j) = true →
    entries s'.mem t j = if (t, j) ∈ (graph F s.mem).trail n p then
      F.marked (entries s.mem t j) else entries s.mem t j
  absent : ∀ t j, ¬ s.pmm.IsFree t → F.isPresent (entries s.mem t j) = false →
    (graph F s.mem).stop n p ≠ some (t, j) ∨ (∀ g, ¬ s.pmm.IsFree g) →
    entries s'.mem t j = entries s.mem t j
  filled : ∀ t j, ¬ s.pmm.IsFree t → (graph F s.mem).stop n p = some (t, j) →
    (∃ g, s.pmm.IsFree g) → F.isPresent (entries s'.mem t j) = true
  pmm : ∀ t, s'.pmm.IsFree t → s.pmm.IsFree t
  table : ∀ a, r = .ok a → ∃ t, a = t * 4096 ∧
    ((graph F s.mem).walk n p = some t ∨ s.pmm.IsFree t)
  reached : ∀ t, (graph F s.mem).walk n p = some t → r = .ok (t * 4096)

theorem Descended.follow (hF : F.Lawful) {c : ℕ} {r : Except MemoryError ℕ} {s₁ : Machine}
    (hc : graph F s.mem n i = some c) (hm : Marked F s s₁ n i) (h : Descended F s₁ c p r s') :
    Descended F s n (i :: p) r s' := by
  obtain ⟨hpres, habsent, hfilled, hpmm, htable, hreached⟩ := h
  rw [hm.graph_eq hF, hm.pmm] at *
  rw [← PathGraph.stop_of_some hc] at habsent hfilled
  have hwalk : (graph F s.mem).walk n (i :: p) = (graph F s.mem).walk c p := by
    rw [PathGraph.walk_cons, hc, Option.bind_some]
  rw [← hwalk] at htable hreached
  have hfirst := (isPresent_of_graph_some hF hc).1
  refine ⟨fun t j ht hp => ?_, fun t j ht habs hor => ?_, fun t j ht => hfilled t j ht, hpmm,
    htable, hreached⟩
  · have hp' : F.isPresent (entries s₁.mem t j) = true := by
      rw [hm.entries_eq]
      split_ifs
      · rw [hF.isPresent_marked, hp]
      · exact hp
    rw [hpres t j ht hp', PathGraph.trail_of_some hc, hm.entries_eq]
    by_cases heq : (t, j) = (n, i)
    · rw [if_pos heq, hF.marked_marked, ite_self, if_pos (heq ▸ List.mem_cons_self)]
    · rw [if_neg heq]
      simp only [List.mem_cons, heq, false_or]
  · have hne : (t, j) ≠ (n, i) := by
      intro hcon
      obtain ⟨rfl, rfl⟩ := Prod.mk.inj hcon
      rw [habs] at hfirst
      exact absurd hfirst (by decide)
    have hsame : entries s₁.mem t j = entries s.mem t j := by
      rw [hm.entries_eq, if_neg hne]
    rw [← hsame] at habs ⊢
    exact habsent t j ht habs hor

theorem Descended.grow (hF : F.Lawful) {r : Except MemoryError ℕ} {s₁ : Machine}
    (hc : graph F s.mem n i = none) (hg : Grown F s s₁ n i f)
    (h : Descended F s₁ f p r s') : Descended F s n (i :: p) r s' := by
  -- whatever the rest of the descent touches is in the fresh table
  have hloop : ∀ j c, graph F s₁.mem f j = some c → c = f := by
    intro j c hj
    rw [graph, hg.entries_eq] at hj
    by_cases hnew : f = n ∧ j = i
    · rw [if_pos hnew, hF.child_table hg.lt] at hj
      exact (Option.some.inj hj).symm
    · rw [if_neg hnew, if_pos rfl] at hj
      exact absurd hj (by simp [Format.child, hF.isPresent_zero])
  obtain ⟨htrail, hstays, hwalk⟩ := PathGraph.stays_of_loop hloop p
  have hother : ∀ t j, ¬ s.pmm.IsFree t → entries s'.mem t j = entries s₁.mem t j := by
    intro t j ht
    have htf : t ≠ f := by
      rintro rfl
      exact ht hg.wasFree
    have ht₁ : ¬ s₁.pmm.IsFree t := fun hcon => ht ((hg.pmm t).mp hcon).1
    cases hpres : F.isPresent (entries s₁.mem t j) with
    | true =>
      rw [h.present t j ht₁ hpres, if_neg]
      exact fun hmem => htf (htrail (t, j) hmem)
    | false =>
      apply h.absent t j ht₁ hpres
      exact Or.inl fun hcon => htf (hstays (t, j) hcon)
  have hkept : ∀ t j, ¬ s.pmm.IsFree t → (t, j) ≠ (n, i) →
      entries s'.mem t j = entries s.mem t j := by
    intro t j ht hne
    rw [hother t j ht, hg.entries_eq, if_neg (fun hcon => hne (Prod.ext hcon.1 hcon.2)), if_neg]
    rintro rfl
    exact ht hg.wasFree
  refine ⟨fun t j ht hpres => ?_, fun t j ht _ hor => ?_, fun t j ht hstop _ => ?_, ?_,
    fun a ha => ?_, fun t hw => ?_⟩
  · have hne : (t, j) ≠ (n, i) := by
      intro hcon
      obtain ⟨rfl, rfl⟩ := Prod.mk.inj hcon
      rw [isPresent_of_graph_none hc] at hpres
      exact absurd hpres (by decide)
    rw [PathGraph.trail_of_none hc, if_neg List.not_mem_nil, hkept t j ht hne]
  · rcases hor with hstop | hempty
    · rw [PathGraph.stop_of_none hc] at hstop
      exact hkept t j ht fun hcon => hstop (congrArg some hcon.symm)
    · exact absurd hg.wasFree (hempty f)
  · rw [PathGraph.stop_of_none hc] at hstop
    obtain ⟨rfl, rfl⟩ := Prod.mk.inj (Option.some.inj hstop)
    rw [hother n i ht, hg.entries_eq, if_pos ⟨rfl, rfl⟩]
    exact hF.isPresent_table _
  · exact fun t ht => ((hg.pmm t).mp (h.pmm t ht)).1
  · obtain ⟨t, hta, hw | ht⟩ := h.table a ha
    · exact ⟨t, hta, Or.inr (hwalk t hw ▸ hg.wasFree)⟩
    · exact ⟨t, hta, Or.inr ((hg.pmm t).mp ht).1⟩
  · rw [PathGraph.walk_cons, hc] at hw
    exact absurd hw (by simp)

theorem nextTables_descended (hF : F.Lawful) (p : List (Fin 512)) : ∀ (s : Machine) (n : ℕ),
    Descended F s n p (nextTables F true s (n * 4096) p).1 (nextTables F true s (n * 4096) p).2 := by
  induction p with
  | nil =>
    intro s n
    refine ⟨fun t j _ _ => rfl, fun t j _ _ _ => rfl,
      fun t j _ hstop => absurd hstop (by simp [PathGraph.stop]),
      fun t ht => ht, fun a ha => ?_, fun t hw => ?_⟩
    · exact ⟨n, (Except.ok.inj ha).symm, Or.inl rfl⟩
    · rw [← Option.some.inj hw]
      rfl
  | cons i p ih =>
    intro s n
    cases hc : graph F s.mem n i with
    | some c =>
      obtain ⟨s₁, hm, heq⟩ := nextTables_of_some hF hc p
      rw [heq]
      exact (ih s₁ c).follow hF hc hm
    | none =>
      rcases nextTables_of_none hF hc p with ⟨heq, hempty⟩ | ⟨f, s₁, hg, heq⟩
      · rw [heq]
        refine ⟨fun t j _ _ => ?_, fun t j _ _ _ => rfl, fun t j _ _ hfree => ?_, fun t ht => ht,
          fun a ha => absurd ha (by simp), fun t hw => ?_⟩
        · rw [PathGraph.trail_of_none hc, if_neg List.not_mem_nil]
        · obtain ⟨g, hg⟩ := hfree
          exact absurd hg (hempty g)
        · rw [PathGraph.walk_cons, hc] at hw
          exact absurd hw (by simp)
      · rw [heq]
        exact (ih s₁ f).grow hF hc hg

end Descent

section Map
variable {F : Format} {R t virt phys : ℕ} {j : Fin 512} {s : Machine} {flags : MapFlags}

/-- An aligned `map_page` is a descent, and a write to the leaf when it is absent. -/
theorem mapPage_user_cases (hF : F.Lawful) (hvirt : virt % 4096 = 0) (hphys : phys % 4096 = 0)
    (hflags : flags.userAccessible = true) (s : Machine) (R : ℕ) :
    ∃ r s₂, nextTables F true s (R * 4096) (tablePath virt) = (r, s₂) ∧
      Descended F s R (tablePath virt) r s₂ ∧
      (((∀ a, r ≠ .ok a) ∧ (mapPage F s (R * 4096) virt phys flags).2 = s₂) ∨
        ∃ t, r = .ok (t * 4096) ∧
          ((graph F s₂.mem t (tableIndex 12 virt) ≠ none ∧
              (mapPage F s (R * 4096) virt phys flags).2 = s₂) ∨
            (graph F s₂.mem t (tableIndex 12 virt) = none ∧
              (mapPage F s (R * 4096) virt phys flags).2 = { s₂ with
                mem := setEntry s₂.mem (t * 4096) (tableIndex 12 virt) (F.leaf phys flags) }))) := by
  have hdesc := nextTables_descended hF (tablePath virt) s R
  have hsplit : ¬ (virt &&& 0xFFF ≠ 0 ∨ phys &&& 0xFFF ≠ 0) := by
    rw [land_0xFFF, land_0xFFF]
    omega
  unfold mapPage
  rw [if_neg hsplit, hflags]
  generalize nextTables F true s (R * 4096) (tablePath virt) = out at hdesc ⊢
  obtain ⟨r, s₂⟩ := out
  refine ⟨r, s₂, rfl, hdesc, ?_⟩
  cases r with
  | error e => exact Or.inl ⟨fun a => by simp, rfl⟩
  | ok a =>
    right
    obtain ⟨t, rfl, -⟩ := hdesc.table a rfl
    refine ⟨t, rfl, ?_⟩
    cases hleaf : graph F s₂.mem t (tableIndex 12 virt) with
    | none =>
      have hpres := isPresent_of_graph_none hleaf
      right
      refine ⟨rfl, ?_⟩
      simp only [getEntry_frame, hpres, Bool.false_eq_true, if_false]
    | some c =>
      have hpres := (isPresent_of_graph_some hF hleaf).1
      left
      refine ⟨by simp, ?_⟩
      simp only [getEntry_frame, hpres, if_true]

theorem entries_mapPage (hF : F.Lawful) (hvirt : virt % 4096 = 0) (hphys : phys % 4096 = 0)
    (hflags : flags.userAccessible = true) (s : Machine) (R : ℕ) :
    ∃ r s₂, Descended F s R (tablePath virt) r s₂ ∧
      (mapPage F s (R * 4096) virt phys flags).2.pmm = s₂.pmm ∧ ∀ t j,
        entries (mapPage F s (R * 4096) virt phys flags).2.mem t j =
          if r = .ok (t * 4096) ∧ j = tableIndex 12 virt ∧ F.isPresent (entries s₂.mem t j) = false then
            F.leaf phys flags else entries s₂.mem t j := by
  obtain ⟨r, s₂, -, hdesc, hcases⟩ := mapPage_user_cases hF hvirt hphys hflags s R
  refine ⟨r, s₂, hdesc, ?_⟩
  rcases hcases with ⟨hne, heq⟩ | ⟨t', rfl, ⟨hleaf, heq⟩ | ⟨hleaf, heq⟩⟩
  · rw [heq]
    exact ⟨rfl, fun t j => (if_neg fun hcon => hne _ hcon.1).symm⟩
  · rw [heq]
    refine ⟨rfl, fun t j => (if_neg ?_).symm⟩
    rintro ⟨hok, rfl, habs⟩
    obtain rfl : t' = t := by
      have := Except.ok.inj hok
      omega
    apply hleaf
    rw [graph, Format.child, habs]
    rfl
  · rw [heq]
    refine ⟨rfl, fun t j => ?_⟩
    rw [entries_setEntry]
    refine if_congr ⟨?_, ?_⟩ rfl rfl
    · rintro ⟨rfl, rfl⟩
      exact ⟨rfl, rfl, isPresent_of_graph_none hleaf⟩
    · rintro ⟨hok, rfl, -⟩
      have := Except.ok.inj hok
      exact ⟨by omega, rfl⟩

/-- An entry that was present is left alone, or marked when the descent followed it. -/
theorem entries_mapPage_of_present (hF : F.Lawful) (hvirt : virt % 4096 = 0) (hphys : phys % 4096 = 0)
    (hflags : flags.userAccessible = true) (ht : ¬ s.pmm.IsFree t)
    (hpres : F.isPresent (entries s.mem t j) = true) :
    entries (mapPage F s (R * 4096) virt phys flags).2.mem t j =
      if (t, j) ∈ (graph F s.mem).trail R (tablePath virt) then
        F.marked (entries s.mem t j) else entries s.mem t j := by
  obtain ⟨r, s₂, hdesc, -, hentry⟩ := entries_mapPage hF hvirt hphys hflags s R
  have hold := hdesc.present t j ht hpres
  rw [hentry, if_neg, hold]
  rintro ⟨-, -, habs⟩
  rw [hold] at habs
  split_ifs at habs
  · rw [hF.isPresent_marked, hpres] at habs
    exact absurd habs (by decide)
  · rw [hpres] at habs
    exact absurd habs (by decide)

theorem entries_mapPage_of_absent (hF : F.Lawful) (hvirt : virt % 4096 = 0) (hphys : phys % 4096 = 0)
    (hflags : flags.userAccessible = true) (ht : ¬ s.pmm.IsFree t)
    (habs : F.isPresent (entries s.mem t j) = false)
    (hstop : (graph F s.mem).stop R (tablePath virt) ≠ some (t, j) ∨ ∀ g, ¬ s.pmm.IsFree g)
    (hleaf : (graph F s.mem).walk R (tablePath virt) = some t → j ≠ tableIndex 12 virt) :
    entries (mapPage F s (R * 4096) virt phys flags).2.mem t j = entries s.mem t j := by
  obtain ⟨r, s₂, hdesc, -, hentry⟩ := entries_mapPage hF hvirt hphys hflags s R
  rw [hentry, if_neg, hdesc.absent t j ht habs hstop]
  rintro ⟨hr, hj, -⟩
  obtain ⟨u, hu, hw⟩ := hdesc.table _ hr
  obtain rfl : t = u := by omega
  rcases hw with hw | hfree
  · exact hleaf hw hj
  · exact ht hfree

end Map

section Spared
variable {F : Format}

/-- What `map_page` can make of an entry that is not in the pool: it is filled, or marked. -/
def Evolved (F : Format) (e e' : Entry) : Prop :=
  e' = e ∨ (F.isPresent e = false ∧ F.isPresent e' = true) ∨
    (F.isPresent e = true ∧ e' = F.marked e)

theorem Evolved.trans (hF : F.Lawful) {e e' e'' : Entry} (h : Evolved F e e')
    (h' : Evolved F e' e'') : Evolved F e e'' := by
  rcases h with rfl | ⟨habs, hpres⟩ | ⟨hpres, rfl⟩
  · exact h'
  · rcases h' with rfl | ⟨habs', -⟩ | ⟨-, rfl⟩
    · exact Or.inr (Or.inl ⟨habs, hpres⟩)
    · exact absurd (hpres.symm.trans habs') (by decide)
    · exact Or.inr (Or.inl ⟨habs, (hF.isPresent_marked e').trans hpres⟩)
  · rcases h' with rfl | ⟨habs', -⟩ | ⟨-, rfl⟩
    · exact Or.inr (Or.inr ⟨hpres, rfl⟩)
    · rw [hF.isPresent_marked, hpres] at habs'
      exact absurd habs' (by decide)
    · exact Or.inr (Or.inr ⟨hpres, hF.marked_marked e⟩)

theorem Evolved.eq_of_back (hF : F.Lawful) {e e' : Entry} (h : Evolved F e e') (h' : Evolved F e' e) :
    e' = e := by
  rcases h with rfl | ⟨habs, hpres⟩ | ⟨hpres, rfl⟩
  · rfl
  · rcases h' with rfl | ⟨habs', -⟩ | ⟨-, rfl⟩
    · rfl
    · exact absurd (hpres.symm.trans habs') (by decide)
    · rw [hF.isPresent_marked, hpres] at habs
      exact absurd habs (by decide)
  · rcases h' with heq | ⟨habs', -⟩ | ⟨-, heq⟩
    · exact heq.symm
    · rw [hF.isPresent_marked, hpres] at habs'
      exact absurd habs' (by decide)
    · rw [heq, hF.marked_marked, hF.marked_marked]

def SameEntries (S : Set (ℕ × Fin 512)) (m m' : Memory) : Prop :=
  ∀ σ ∈ S, entries m' σ.1 σ.2 = entries m σ.1 σ.2

/-- A user mapping of `virt` finds the entries of `S` as it would leave them: those on the way to the
leaf are marked already, there is no frame for one that is missing, and the leaf is present. -/
structure Spares (F : Format) (S : Set (ℕ × Fin 512)) (R : ℕ) (s : Machine) (virt : ℕ) : Prop where
  followed : ∀ σ ∈ (graph F s.mem).trail R (tablePath virt), σ ∈ S →
    F.marked (entries s.mem σ.1 σ.2) = entries s.mem σ.1 σ.2
  missing : ∀ σ ∈ S, (graph F s.mem).stop R (tablePath virt) = some σ → ∀ g, ¬ s.pmm.IsFree g
  leaf : ∀ t, (t, tableIndex 12 virt) ∈ S → (graph F s.mem).walk R (tablePath virt) = some t →
    F.isPresent (entries s.mem t (tableIndex 12 virt)) = true

/-- A step under which entries in `S` only evolve and no frame is given back, and which leaves the
entries as they were exactly if `C` holds. -/
structure Evolves (F : Format) (S : Set (ℕ × Fin 512)) (s s' : Machine) (C : Prop) : Prop where
  entry : ∀ σ ∈ S, Evolved F (entries s.mem σ.1 σ.2) (entries s'.mem σ.1 σ.2)
  pmm : ∀ f, s'.pmm.IsFree f → s.pmm.IsFree f
  same_iff : SameEntries S s.mem s'.mem ↔ C

variable {S : Set (ℕ × Fin 512)} {s s' s'' : Machine} {C C' : Prop}

theorem Evolves.of_same (h : SameEntries S s.mem s'.mem)
    (hpmm : ∀ f, s'.pmm.IsFree f → s.pmm.IsFree f) : Evolves F S s s' True :=
  ⟨fun σ hσ => Or.inl (h σ hσ), hpmm, iff_true_intro h⟩

theorem Evolves.refl (F : Format) (S : Set (ℕ × Fin 512)) (s : Machine) : Evolves F S s s True :=
  .of_same (fun _ _ => rfl) fun _ hf => hf

theorem Evolves.congr (h : Evolves F S s s' C) (hC : C ↔ C') : Evolves F S s s' C' :=
  ⟨h.entry, h.pmm, h.same_iff.trans hC⟩

theorem Evolves.trans (hF : F.Lawful) (h : Evolves F S s s' C) (h' : Evolves F S s' s'' C') :
    Evolves F S s s'' (C ∧ C') := by
  refine ⟨fun σ hσ => (h.entry σ hσ).trans hF (h'.entry σ hσ), fun f hf => h.pmm f (h'.pmm f hf), ?_⟩
  rw [← h.same_iff, ← h'.same_iff]
  constructor
  · intro hsame
    have hback : SameEntries S s.mem s'.mem := fun σ hσ =>
      (h.entry σ hσ).eq_of_back hF (hsame σ hσ ▸ h'.entry σ hσ)
    exact ⟨hback, fun σ hσ => (hsame σ hσ).trans (hback σ hσ).symm⟩
  · exact fun hsame σ hσ => (hsame.2 σ hσ).trans (hsame.1 σ hσ)

variable {R virt phys : ℕ} {flags : MapFlags} (hvirt : virt % 4096 = 0) (hphys : phys % 4096 = 0)
  (hflags : flags.userAccessible = true) (hS : ∀ σ ∈ S, ¬ s.pmm.IsFree σ.1)
include hvirt hphys hflags hS

/-- A user mapping leaves the entries of `S` as they were exactly when it spares them. -/
theorem mapPage_same_iff (hF : F.Lawful) :
    SameEntries S s.mem (mapPage F s (R * 4096) virt phys flags).2.mem ↔ Spares F S R s virt := by
  obtain ⟨r, s₂, hdesc, -, hentry⟩ := entries_mapPage hF hvirt hphys hflags s R
  have hedges := (graph F s.mem).edge_of_trail_or_stop R (tablePath virt)
  have hleft : ∀ t j, F.isPresent (entries s₂.mem t j) = true →
      F.isPresent (entries (mapPage F s (R * 4096) virt phys flags).2.mem t j) = true := by
    intro t j hpres
    rw [hentry]
    split_ifs
    · exact hF.isPresent_leaf _ _
    · exact hpres
  constructor
  · intro hsame
    refine ⟨fun σ hmem hσ => ?_, fun σ hσ hstop => ?_, fun t hσ hw => ?_⟩
    · obtain ⟨c, hc⟩ := hedges.1 σ hmem
      have hold := entries_mapPage_of_present hF hvirt hphys hflags (hS σ hσ)
        (isPresent_of_graph_some hF hc).1 (R := R)
      rw [if_pos hmem, hsame σ hσ] at hold
      exact hold.symm
    · by_contra hfree
      push Not at hfree
      have hnew := hleft _ _ (hdesc.filled σ.1 σ.2 (hS σ hσ) hstop hfree)
      rw [hsame σ hσ, isPresent_of_graph_none (hedges.2 σ hstop)] at hnew
      exact absurd hnew (by decide)
    · by_contra habs
      rw [Bool.not_eq_true] at habs
      have hnew := hentry t (tableIndex 12 virt)
      have hstop := (PathGraph.stop_of_walk hw).1
      have hold := hdesc.absent t (tableIndex 12 virt) (hS _ hσ) habs (Or.inl (by simp [hstop]))
      rw [if_pos ⟨hdesc.reached t hw, rfl, hold ▸ habs⟩, hsame _ hσ] at hnew
      rw [hnew, hF.isPresent_leaf] at habs
      exact absurd habs (by decide)
  · intro h σ hσ
    cases hpres : F.isPresent (entries s.mem σ.1 σ.2) with
    | true =>
      rw [entries_mapPage_of_present hF hvirt hphys hflags (hS σ hσ) hpres]
      split_ifs with hmem
      · exact h.followed σ hmem hσ
      · rfl
    | false =>
      apply entries_mapPage_of_absent hF hvirt hphys hflags (hS σ hσ) hpres
      · by_cases hstop : (graph F s.mem).stop R (tablePath virt) = some (σ.1, σ.2)
        · exact Or.inr (h.missing σ hσ hstop)
        · exact Or.inl hstop
      · rintro hw hj
        have hleaf := h.leaf σ.1 (hj ▸ hσ) hw
        rw [← hj, hpres] at hleaf
        exact absurd hleaf (by decide)

theorem mapPage_evolves (hF : F.Lawful) :
    Evolves F S s (mapPage F s (R * 4096) virt phys flags).2 (Spares F S R s virt) := by
  obtain ⟨r, s₂, hdesc, hpmm, hentry⟩ := entries_mapPage hF hvirt hphys hflags s R
  refine ⟨fun σ hσ => ?_, fun f hf => hdesc.pmm f (hpmm ▸ hf),
    mapPage_same_iff hvirt hphys hflags hS hF⟩
  have hfirst : Evolved F (entries s.mem σ.1 σ.2) (entries s₂.mem σ.1 σ.2) := by
    cases hpres : F.isPresent (entries s.mem σ.1 σ.2) with
    | true =>
      rw [hdesc.present σ.1 σ.2 (hS σ hσ) hpres]
      split_ifs
      · exact Or.inr (Or.inr ⟨hpres, rfl⟩)
      · exact Or.inl rfl
    | false =>
      by_cases hor : (graph F s.mem).stop R (tablePath virt) ≠ some (σ.1, σ.2) ∨
          ∀ g, ¬ s.pmm.IsFree g
      · exact Or.inl (hdesc.absent σ.1 σ.2 (hS σ hσ) hpres hor)
      · push Not at hor
        exact Or.inr (Or.inl ⟨hpres, hdesc.filled σ.1 σ.2 (hS σ hσ) hor.1 hor.2⟩)
  apply hfirst.trans hF
  rw [hentry]
  split_ifs with hleaf
  · exact Or.inr (Or.inl ⟨hleaf.2.2, hF.isPresent_leaf _ _⟩)
  · exact Or.inl rfl

end Spared

section Outcome
variable {s s' : Machine} {n f : ℕ} {i : Fin 512} {p : List (Fin 512)}

theorem leafSlots_zero {m : Memory} {level n : ℕ} {q : List (Fin 512)}
    (hzero : ∀ j, graph x86Format m n j = none) (hq : q ≠ []) : leafSlots m level n q = none := by
  cases q with
  | nil => exact absurd rfl hq
  | cons j q => rw [leafSlots_cons, hzero, Option.bind_none]

theorem Grown.fresh {s₁ : Machine} (hg : Grown x86Format s s₁ n i f) (hn : ¬ s.pmm.IsFree n) :
    n ≠ f ∧ ¬ s₁.pmm.IsFree f ∧ ∀ j, graph x86Format s₁.mem f j = none := by
  have hne : n ≠ f := by
    rintro rfl
    exact hn hg.wasFree
  refine ⟨hne, fun hcon => ((hg.pmm f).mp hcon).2 rfl, fun j => ?_⟩
  rw [graph, hg.entries_eq, if_neg (fun hcon => hne hcon.1.symm), if_pos rfl]
  simp [Format.child, x86Format_lawful.isPresent_zero]

/-- The descent goes on in the fresh table and leaves the one above as growth made it. -/
theorem Grown.kept {s₁ : Machine} {r : Except MemoryError ℕ} (hg : Grown x86Format s s₁ n i f)
    (hn : ¬ s.pmm.IsFree n) (hrun : nextTables x86Format true s₁ (f * 4096) p = (r, s')) :
    graph x86Format s'.mem n i = some f ∧ X86.isHuge (entries s'.mem n i) = false ∧
      ∀ j, j ≠ i → entries s'.mem n j = entries s.mem n j := by
  obtain ⟨hne, -, hzero⟩ := hg.fresh hn
  have hn₁ : ¬ s₁.pmm.IsFree n := fun hcon => hn ((hg.pmm n).mp hcon).1
  have hdesc := nextTables_descended x86Format_lawful p s₁ f
  rw [hrun] at hdesc
  have hstays := PathGraph.stays_of_loop (g := graph x86Format s₁.mem) (n := f)
    (fun k c hk => by rw [hzero k] at hk; exact absurd hk (by simp)) p
  have hentries : ∀ j, entries s'.mem n j = entries s₁.mem n j := by
    intro j
    cases hpres : X86.isPresent (entries s₁.mem n j) with
    | true =>
      rw [hdesc.present n j hn₁ hpres, if_neg]
      exact fun hmem => hne (hstays.1 (n, j) hmem)
    | false =>
      apply hdesc.absent n j hn₁ hpres
      exact Or.inl fun hcon => hne (hstays.2.1 (n, j) hcon)
  have hnew : entries s'.mem n i = x86Format.table (f * 4096) := by
    rw [hentries, hg.entries_eq, if_pos ⟨rfl, rfl⟩]
  refine ⟨?_, ?_, fun j hj => ?_⟩
  · rw [graph, hnew, x86Format_lawful.child_table hg.lt]
  · rw [hnew]
    exact x86Format_lawful.isBlock_table _
  · rw [hentries, hg.entries_eq, if_neg (fun hcon => hj hcon.2), if_neg hne]

theorem nextTables_fresh (p : List (Fin 512)) : ∀ (s : Machine) (n : ℕ), ¬ s.pmm.IsFree n →
    (∀ j, graph x86Format s.mem n j = none) →
    ∃ r s', nextTables x86Format true s (n * 4096) p = (r, s') ∧
      ((p.length ≤ s.pmm.freeFrames.card ∧
          ∃ t, r = .ok (t * 4096) ∧ (graph x86Format s'.mem).walk n p = some t) ∨
        (s.pmm.freeFrames.card < p.length ∧ (∀ a, r ≠ .ok a) ∧
          ∀ level q, q.length = p.length + 1 → leafSlots s'.mem level n q = none)) := by
  induction p with
  | nil =>
    intro s n _ _
    exact ⟨_, s, rfl, Or.inl ⟨Nat.zero_le _, n, rfl, rfl⟩⟩
  | cons i p ih =>
    intro s n hn hzero
    rw [List.length_cons]
    rcases nextTables_of_none x86Format_lawful (hzero i) p with ⟨heq, hempty⟩ | ⟨f, s₁, hg, heq⟩
    · refine ⟨_, s, heq, Or.inr ⟨?_, fun a => by simp, fun level q hq => ?_⟩⟩
      · rw [BitmapAllocator.card_freeFrames_eq_zero hempty]
        exact Nat.succ_pos _
      · apply leafSlots_zero hzero
        rintro rfl
        exact absurd hq (by simp)
    · obtain ⟨-, hf₁, hzero₁⟩ := hg.fresh hn
      have hcard := BitmapAllocator.card_freeFrames_of_take hg.wasFree hg.pmm
      obtain ⟨r, s', hrun, hres⟩ := ih s₁ f hf₁ hzero₁
      obtain ⟨hchild, hsmall, hold⟩ := hg.kept hn hrun
      refine ⟨r, s', heq.trans hrun, ?_⟩
      rcases hres with ⟨hle, t, hr, hw⟩ | ⟨hlt, hr, hnone⟩
      · refine Or.inl ⟨by omega, t, hr, ?_⟩
        rw [PathGraph.walk_cons, hchild, Option.bind_some, hw]
      · refine Or.inr ⟨by omega, hr, fun level q hq => ?_⟩
        cases q with
        | nil => exact absurd hq (by simp)
        | cons j q =>
          rw [List.length_cons] at hq
          rw [leafSlots_cons]
          by_cases hj : j = i
          · subst hj
            rw [hchild, Option.bind_some, hsmall, if_neg (by simp), hnone _ q (by omega),
              Option.map_none]
          · have habsent : graph x86Format s'.mem n j = none := by
              rw [graph, hold j hj]
              exact hzero j
            rw [habsent, Option.bind_none]

/-- A descent along tables that are not in the pool reaches the table of the leaf exactly when the
pool holds the missing ones. Otherwise the entry it stopped at leads nowhere. -/
theorem nextTables_outcome (p : List (Fin 512)) : ∀ (s : Machine) (n : ℕ),
    (∀ σ ∈ (graph x86Format s.mem).trail n p, ¬ s.pmm.IsFree σ.1) →
    (∀ σ, (graph x86Format s.mem).stop n p = some σ → ¬ s.pmm.IsFree σ.1) →
    ∃ r s', nextTables x86Format true s (n * 4096) p = (r, s') ∧
      (((graph x86Format s.mem).missing n p ≤ s.pmm.freeFrames.card ∧ ∃ t, r = .ok (t * 4096) ∧
          (graph x86Format s'.mem).walk n p = some t) ∨
        (s.pmm.freeFrames.card < (graph x86Format s.mem).missing n p ∧ (∀ a, r ≠ .ok a) ∧
          ∀ σ, (graph x86Format s.mem).stop n p = some σ →
            graph x86Format s'.mem σ.1 σ.2 = none ∨
            ∃ f, graph x86Format s'.mem σ.1 σ.2 = some f ∧
              X86.isHuge (entries s'.mem σ.1 σ.2) = false ∧
              ∀ level q, q.length = (graph x86Format s.mem).missing n p →
                leafSlots s'.mem level f q = none)) := by
  induction p with
  | nil =>
    intro s n _ _
    exact ⟨_, s, rfl, Or.inl ⟨Nat.zero_le _, n, rfl, rfl⟩⟩
  | cons i p ih =>
    intro s n htrail hstop
    cases hc : graph x86Format s.mem n i with
    | some c =>
      rw [PathGraph.trail_of_some hc] at htrail
      rw [PathGraph.stop_of_some hc] at hstop
      obtain ⟨s₁, hm, heq⟩ := nextTables_of_some x86Format_lawful hc p
      have hg := hm.graph_eq x86Format_lawful
      obtain ⟨r, s', hrun, hres⟩ := ih s₁ c
        (fun σ hσ => hm.pmm ▸ htrail σ (List.mem_cons_of_mem _ (hg ▸ hσ)))
        (fun σ hσ => hm.pmm ▸ hstop σ (hg ▸ hσ))
      refine ⟨r, s', heq.trans hrun, ?_⟩
      have hdesc := (nextTables_descended x86Format_lawful p s₁ c).follow x86Format_lawful hc hm
      rw [hrun] at hdesc
      have hchild : graph x86Format s'.mem n i = some c := by
        rw [← hc]
        have hpres := (isPresent_of_graph_some x86Format_lawful hc).1
        exact graph_of_upgraded
          (.of_eq_ite (hdesc.present n i (htrail (n, i) List.mem_cons_self) hpres))
      rw [hg, hm.pmm] at hres
      rw [PathGraph.missing_of_some hc, PathGraph.stop_of_some hc, PathGraph.walk_cons, hchild,
        Option.bind_some]
      exact hres
    | none =>
      have hn : ¬ s.pmm.IsFree n := hstop (n, i) (PathGraph.stop_of_none hc)
      rw [PathGraph.missing_of_none hc, PathGraph.stop_of_none hc]
      rcases nextTables_of_none x86Format_lawful hc p with ⟨heq, hempty⟩ | ⟨f, s₁, hg, heq⟩
      · refine ⟨_, s, heq, Or.inr ⟨?_, fun a => by simp, fun σ hσ => ?_⟩⟩
        · rw [BitmapAllocator.card_freeFrames_eq_zero hempty]
          exact Nat.succ_pos _
        · obtain rfl := Option.some.inj hσ
          exact Or.inl hc
      · obtain ⟨-, hf₁, hzero₁⟩ := hg.fresh hn
        have hcard := BitmapAllocator.card_freeFrames_of_take hg.wasFree hg.pmm
        obtain ⟨r, s', hrun, hres⟩ := nextTables_fresh p s₁ f hf₁ hzero₁
        obtain ⟨hchild, hsmall, -⟩ := hg.kept hn hrun
        refine ⟨r, s', heq.trans hrun, ?_⟩
        rcases hres with ⟨hle, t, hr, hw⟩ | ⟨hlt, hr, hnone⟩
        · refine Or.inl ⟨by omega, t, hr, ?_⟩
          rw [PathGraph.walk_cons, hchild, Option.bind_some, hw]
        · refine Or.inr ⟨by omega, hr, fun σ hσ => ?_⟩
          obtain rfl := Option.some.inj hσ
          exact Or.inr ⟨f, hchild, hsmall, hnone⟩

end Outcome

end MitosOS.Paging
