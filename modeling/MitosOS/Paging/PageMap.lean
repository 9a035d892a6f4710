import MitosOS.Paging.Operations
import Mathlib.Logic.Relation

/-! The table walk as a finite map from 36-bit page numbers to frames and attribute bits. -/
namespace MitosOS.Paging
open MitosOS.Lib MitosOS.Memory

/-- `(virt >> 12) mod 2^36`: the bits of an address the walk looks at. -/
abbrev PageNumber := Fin (2 ^ 36)

def pageNumber (virt : ℕ) : PageNumber := ⟨virt / 4096 % 2 ^ 36, Nat.mod_lt _ (by decide)⟩

/-- What a page is bound to: a frame address and the architecture's encoding of the flags. -/
structure Binding where
  frame : ℕ
  attributes : Entry

abbrev PageMap := PageNumber → Option Binding

def pagePath (p : PageNumber) : List (Fin 512) :=
  [⟨p / 2 ^ 27, by omega⟩, ⟨p / 2 ^ 18 % 512, by omega⟩, ⟨p / 2 ^ 9 % 512, by omega⟩]

def leafIndex (p : PageNumber) : Fin 512 := ⟨p % 512, by omega⟩

def Format.binding (F : Format) (e : Entry) : Option Binding :=
  if F.isPresent e then some ⟨F.physicalAddress e, F.attributes e⟩ else none

/-- The map a table represents: the present leaves at the end of the four-level paths. -/
def represented (F : Format) (m : Memory) (root : ℕ) : PageMap := fun p =>
  ((graph F m).walk root (pagePath p)).bind fun t => F.binding (entries m t (leafIndex p))

theorem pagePath_pageNumber (virt : ℕ) : pagePath (pageNumber virt) = tablePath virt := by
  unfold pagePath tablePath pageNumber
  simp only [List.cons.injEq, and_true]
  refine ⟨Fin.ext ?_, Fin.ext ?_, Fin.ext ?_⟩ <;> simp only [tableIndex_val] <;> omega

theorem leafIndex_pageNumber (virt : ℕ) : leafIndex (pageNumber virt) = tableIndex 12 virt := by
  refine Fin.ext ?_
  simp only [leafIndex, pageNumber, tableIndex_val]
  omega

theorem pagePath_leafIndex_inj {p q : PageNumber} (h : pagePath p = pagePath q)
    (hl : leafIndex p = leafIndex q) : p = q := by
  have hp := p.isLt
  have hq := q.isLt
  simp only [pagePath, List.cons.injEq, and_true, Fin.mk.injEq] at h
  simp only [leafIndex, Fin.mk.injEq] at hl
  refine Fin.ext ?_
  omega

def tablePaths : Set (List (Fin 512)) := {p | p.length ≤ 3}

theorem tablePaths_prefixClosed : PathGraph.PrefixClosed tablePaths := by
  intro p i h
  simp only [tablePaths, Set.mem_ofPred_eq, List.length_append, List.length_singleton] at h ⊢
  omega

theorem concat_mem_tablePaths {q : List (Fin 512)} {i : Fin 512} (hq : q.length ≤ 2) :
    q ++ [i] ∈ tablePaths := by
  change (q ++ [i]).length ≤ 3
  rw [List.length_append, List.length_singleton]
  omega

theorem pagePath_mem (p : PageNumber) : pagePath p ∈ tablePaths := le_refl 3

/-- The tables hang off the root as a tree, none of them is in the allocator's pool, and no
entry above the leaves is a large leaf. -/
structure WellFormed (F : Format) (root : ℕ) (s : Machine) : Prop where
  tree : (graph F s.mem).TreeOn root tablePaths
  reserved : ∀ t ∈ (graph F s.mem).nodes root tablePaths, ¬ s.pmm.IsFree t
  noBlock : ∀ q t i, q.length ≤ 2 → (graph F s.mem).walk root q = some t →
    F.isPresent (entries s.mem t i) = true → F.isBlock (entries s.mem t i) = false

section Step
variable {F : Format} {root n f : ℕ} {s s' : Machine} {q : List (Fin 512)} {i : Fin 512}

theorem WellFormed.ne_of_length (h : WellFormed F root s) {p q : List (Fin 512)} {t u : ℕ}
    (hp : p ∈ tablePaths) (hq : q ∈ tablePaths) (hpt : (graph F s.mem).walk root p = some t)
    (hqu : (graph F s.mem).walk root q = some u) (hlen : p.length ≠ q.length) : t ≠ u := by
  rintro rfl
  exact hlen (congrArg List.length (h.tree p hp q hq t hpt hqu))

theorem WellFormed.revisited (h : WellFormed F root s) (hr : Revisited F s s' n i) :
    WellFormed F root s' := by
  have hg := hr.graph_eq
  refine ⟨by rw [hg]; exact h.tree, by rw [hg, hr.pmm]; exact h.reserved, ?_⟩
  intro q t j hq hw hp
  rw [hg] at hw
  by_cases hc : t = n ∧ j = i
  · obtain ⟨rfl, rfl⟩ := hc
    rw [hr.block]
    exact h.noBlock q t j hq hw (hr.isPresent_iff.mp hp)
  · rw [hr.other t j hc] at hp ⊢
    exact h.noBlock q t j hq hw hp

theorem WellFormed.represented_revisited (h : WellFormed F root s) (hr : Revisited F s s' n i)
    (hq : q.length ≤ 2) (hw : (graph F s.mem).walk root q = some n) :
    represented F s'.mem root = represented F s.mem root := by
  funext p
  unfold represented
  rw [hr.graph_eq]
  cases ht : (graph F s.mem).walk root (pagePath p) with
  | none => rw [Option.bind_none, Option.bind_none]
  | some t =>
    have hne : t ≠ n := h.ne_of_length (pagePath_mem p) (Nat.le_succ_of_le hq) ht hw
      (by change 3 ≠ q.length; omega)
    rw [Option.bind_some, Option.bind_some, hr.other t _ (fun hc => hne hc.1)]

theorem Grown.walk_eq (hF : F.Lawful) {D : Set (List (Fin 512))} (hD : PathGraph.PrefixClosed D)
    (hg : Grown F s s' n i f) (hT : (graph F s.mem).TreeOn root D)
    (hfresh : f ∉ (graph F s.mem).nodes root D) (hq : q ++ [i] ∈ D)
    (hw : (graph F s.mem).walk root q = some n) (hempty : graph F s.mem n i = none)
    {p : List (Fin 512)} (hp : p ∈ D) :
    (graph F s'.mem).walk root p = if p = q ++ [i] then some f
      else (graph F s.mem).walk root p := by
  have hclear : ∀ r ∈ D, ((graph F s.mem).clear f).walk root r = (graph F s.mem).walk root r :=
    fun r hr => PathGraph.walk_clear_of_not_mem hD hfresh hr
  have hne : n ≠ f := by
    rintro rfl
    exact hfresh ⟨q, hD q i hq, hw⟩
  have hfempty : ∀ j, (graph F s.mem).clear f f j = none := fun j => by simp [PathGraph.clear]
  have hnempty : (graph F s.mem).clear f n i = none := by simp [PathGraph.clear, hne, hempty]
  rw [hg.graph_eq hF, ← hclear p hp]
  exact PathGraph.walk_set_attach hD (hT.congr hclear) hq ((hclear q (hD q i hq)).trans hw)
    hnempty hne.symm (fun j _ => hfempty j) hp

theorem WellFormed.fresh (h : WellFormed F root s) (hg : Grown F s s' n i f) :
    f ∉ (graph F s.mem).nodes root tablePaths := fun hf => h.reserved f hf hg.wasFree

theorem WellFormed.grown (hF : F.Lawful) (h : WellFormed F root s) (hg : Grown F s s' n i f)
    (hq : q.length ≤ 2) (hw : (graph F s.mem).walk root q = some n)
    (hempty : graph F s.mem n i = none) : WellFormed F root s' := by
  have hmem : q ++ [i] ∈ tablePaths := concat_mem_tablePaths hq
  have hfresh := h.fresh hg
  have hwalk : ∀ p ∈ tablePaths, _ := fun p hp =>
    hg.walk_eq hF tablePaths_prefixClosed h.tree hfresh hmem hw hempty hp
  have hstep : ∀ p ∈ tablePaths, (graph F s'.mem).walk root p = some f ∧ p = q ++ [i] ∨
      (graph F s'.mem).walk root p = (graph F s.mem).walk root p := by
    intro p hp
    rw [hwalk p hp]
    split_ifs with hc
    · exact Or.inl ⟨rfl, hc⟩
    · exact Or.inr rfl
  refine ⟨h.tree.attach hfresh hstep, ?_, ?_⟩
  · rintro t ⟨p, hp, hpt⟩ hfree
    obtain ⟨hold, hne⟩ := (hg.pmm t).mp hfree
    rcases hstep p hp with ⟨hpf, -⟩ | hp'
    · exact hne (Option.some.inj (hpt.symm.trans hpf))
    · exact h.reserved t ⟨p, hp, hp'.symm.trans hpt⟩ hold
  · intro r t j hr hrt hp
    have hrD : r ∈ tablePaths := Nat.le_succ_of_le hr
    rw [hg.entries_eq] at hp ⊢
    split_ifs at hp ⊢ with h1 h2
    · exact hF.isBlock_table _
    · exact absurd hp (by simp [hF.isPresent_zero])
    · rcases hstep r hrD with ⟨hrf, -⟩ | hr'
      · exact absurd (Option.some.inj (hrt.symm.trans hrf)) h2
      · exact h.noBlock r t j hr (hr'.symm.trans hrt) hp

theorem WellFormed.represented_grown (hF : F.Lawful) (h : WellFormed F root s)
    (hg : Grown F s s' n i f) (hq : q.length ≤ 2) (hw : (graph F s.mem).walk root q = some n)
    (hempty : graph F s.mem n i = none) :
    represented F s'.mem root = represented F s.mem root := by
  have hmem : q ++ [i] ∈ tablePaths := concat_mem_tablePaths hq
  have hfresh := h.fresh hg
  funext p
  unfold represented
  rw [hg.walk_eq hF tablePaths_prefixClosed h.tree hfresh hmem hw hempty (pagePath_mem p)]
  have hnf : n ≠ f := by
    rintro rfl
    exact hfresh ⟨q, Nat.le_succ_of_le hq, hw⟩
  split_ifs with hc
  · have hold : (graph F s.mem).walk root (pagePath p) = none := by
      rw [hc, PathGraph.walk_concat_of_eq hw, hempty]
    rw [hold, Option.bind_some, Option.bind_none, hg.entries_eq,
      if_neg (fun hcon => hnf hcon.1.symm), if_pos rfl]
    simp [Format.binding, hF.isPresent_zero]
  · cases ht : (graph F s.mem).walk root (pagePath p) with
    | none => rw [Option.bind_none, Option.bind_none]
    | some t =>
      have hne : t ≠ n := h.ne_of_length (pagePath_mem p) (Nat.le_succ_of_le hq) ht hw
        (by change 3 ≠ q.length; omega)
      have hnef : t ≠ f := by
        rintro rfl
        exact hfresh ⟨pagePath p, pagePath_mem p, ht⟩
      rw [Option.bind_some, Option.bind_some, hg.entries_eq, if_neg (fun hcon => hne hcon.1),
        if_neg hnef]

/-- Descending keeps the invariant and every binding, and it succeeds exactly when the
allocator still holds the missing tables. -/
theorem WellFormed.nextTables (hF : F.Lawful) (u : Bool) (p : List (Fin 512)) :
    ∀ {s : Machine} {q : List (Fin 512)} {n : ℕ}, WellFormed F root s →
    q.length + p.length ≤ 3 → (graph F s.mem).walk root q = some n →
    ∃ r s', nextTables F u s (n * 4096) p = (r, s') ∧ WellFormed F root s' ∧
      represented F s'.mem root = represented F s.mem root ∧
      ((∃ t, r = .ok (t * 4096) ∧ (graph F s'.mem).walk root (q ++ p) = some t ∧
          (graph F s.mem).missing n p ≤ s.pmm.freeFrames.card) ∨
        (r = .error .frameAllocationFailed ∧
          s.pmm.freeFrames.card < (graph F s.mem).missing n p)) := by
  induction p with
  | nil =>
    intro s q n h _ hw
    refine ⟨_, s, rfl, h, rfl, Or.inl ⟨n, rfl, ?_, Nat.zero_le _⟩⟩
    rw [List.append_nil, hw]
  | cons i p ih =>
    intro s q n h hlen hw
    rw [List.length_cons] at hlen
    have hq : q.length ≤ 2 := by omega
    have happ : q ++ i :: p = q ++ [i] ++ p := by simp
    have hlen' : (q ++ [i]).length + p.length ≤ 3 := by
      rw [List.length_append, List.length_singleton]
      omega
    rcases nextTable_cases hF u s n i with
      ⟨c, s₁, hnext, hc, hr⟩ | ⟨hnext, hc, hnofree⟩ | ⟨f, s₁, hnext, hc, hg⟩
    · have hw₁ : (graph F s₁.mem).walk root (q ++ [i]) = some c := by
        rw [hr.graph_eq, PathGraph.walk_concat_of_eq hw, hc]
      obtain ⟨r, s', hrun, hwf, hrep, hres⟩ := ih (h.revisited hr) hlen' hw₁
      refine ⟨r, s', ?_, hwf, hrep.trans (h.represented_revisited hr hq hw), ?_⟩
      · simp only [MitosOS.Paging.nextTables, hnext]
        exact hrun
      · rw [hr.graph_eq, hr.pmm] at hres
        rw [PathGraph.missing_of_some hc, happ]
        exact hres
    · refine ⟨_, s, ?_, h, rfl, Or.inr ⟨rfl, ?_⟩⟩
      · simp only [MitosOS.Paging.nextTables, hnext]
      · rw [BitmapAllocator.card_freeFrames_eq_zero hnofree, PathGraph.missing_of_none hc]
        exact Nat.succ_pos _
    · have hmem : q ++ [i] ∈ tablePaths := by
        change (q ++ [i]).length ≤ 3
        omega
      have hw₁ : (graph F s₁.mem).walk root (q ++ [i]) = some f := by
        rw [hg.walk_eq hF tablePaths_prefixClosed h.tree (h.fresh hg) hmem hw hc hmem, if_pos rfl]
      obtain ⟨r, s', hrun, hwf, hrep, hres⟩ := ih (h.grown hF hg hq hw hc) hlen' hw₁
      refine ⟨r, s', ?_, hwf, hrep.trans (h.represented_grown hF hg hq hw hc), ?_⟩
      · simp only [MitosOS.Paging.nextTables, hnext]
        exact hrun
      · -- the fresh frame is empty, so all of the remaining path is missing below it
        have hnf : f ≠ n := by
          rintro rfl
          exact h.fresh hg ⟨q, Nat.le_succ_of_le hq, hw⟩
        have hchildless : ∀ j, graph F s₁.mem f j = none := fun j => by
          rw [hg.graph_eq hF, PathGraph.set_of_ne _ _ (Or.inl hnf)]
          simp [PathGraph.clear]
        have hcard := BitmapAllocator.card_freeFrames_of_take hg.wasFree hg.pmm
        rw [PathGraph.missing_of_childless hchildless] at hres
        rw [PathGraph.missing_of_none hc, happ]
        rcases hres with ⟨t, ht, htw, hle⟩ | ⟨hr, hlt⟩
        · exact Or.inl ⟨t, ht, htw, by omega⟩
        · exact Or.inr ⟨hr, by omega⟩

/-- Editing one leaf entry leaves the table tree alone and changes one page. -/
theorem WellFormed.setLeaf (h : WellFormed F root s) {p : PageNumber} {t : ℕ}
    (ht : (graph F s.mem).walk root (pagePath p) = some t) (e : Entry) :
    WellFormed F root { s with mem := setEntry s.mem (t * 4096) (leafIndex p) e } ∧
    represented F (setEntry s.mem (t * 4096) (leafIndex p) e) root =
      Function.update (represented F s.mem root) p (F.binding e) := by
  have hinner : ∀ q, q.length ≤ 2 → ∀ u, (graph F s.mem).walk root q = some u → u ≠ t :=
    fun q hq u hu => h.ne_of_length (Nat.le_succ_of_le hq) (pagePath_mem p) hu ht
      (by change q.length ≠ 3; omega)
  have hwalk : ∀ q ∈ tablePaths,
      (graph F (setEntry s.mem (t * 4096) (leafIndex p) e)).walk root q =
        (graph F s.mem).walk root q := by
    intro q hq
    refine PathGraph.walk_congr_on tablePaths_prefixClosed (fun r j hr u hu => ?_) hq
    have hr' : r.length ≤ 2 := by
      have hlen : (r ++ [j]).length ≤ 3 := hr
      rw [List.length_append, List.length_singleton] at hlen
      omega
    rw [graph_setEntry, PathGraph.set_of_ne _ _ (Or.inl (hinner r hr' u hu))]
  refine ⟨⟨h.tree.congr hwalk, ?_, ?_⟩, ?_⟩
  · change ∀ u ∈ (graph F (setEntry s.mem (t * 4096) (leafIndex p) e)).nodes root tablePaths, _
    rw [PathGraph.nodes_congr hwalk]
    exact h.reserved
  · intro q u j hq hu hp
    have hu' := (hwalk q (Nat.le_succ_of_le hq)).symm.trans hu
    have hsame : entries (setEntry s.mem (t * 4096) (leafIndex p) e) u j = entries s.mem u j := by
      rw [entries_setEntry, if_neg (fun hc => hinner q hq u hu' hc.1)]
    change F.isPresent (entries (setEntry s.mem (t * 4096) (leafIndex p) e) u j) = true at hp
    change F.isBlock (entries (setEntry s.mem (t * 4096) (leafIndex p) e) u j) = false
    rw [hsame] at hp ⊢
    exact h.noBlock q u j hq hu' hp
  · funext p'
    unfold represented
    rw [hwalk _ (pagePath_mem p')]
    by_cases hpp : p' = p
    · subst hpp
      rw [ht, Option.bind_some, Function.update_self, entries_setEntry, if_pos ⟨rfl, rfl⟩]
    · rw [Function.update_of_ne hpp]
      cases hu : (graph F s.mem).walk root (pagePath p') with
      | none => rw [Option.bind_none, Option.bind_none]
      | some u =>
        rw [Option.bind_some, Option.bind_some, entries_setEntry, if_neg]
        rintro ⟨rfl, hl⟩
        exact hpp (pagePath_leafIndex_inj
          (h.tree _ (pagePath_mem p') _ (pagePath_mem p) u hu ht) hl)

end Step

section Operations
variable {F : Format} {root : ℕ} {s : Machine}

theorem Format.Lawful.binding_leaf (hF : F.Lawful) {phys : ℕ} (ha : phys % 4096 = 0)
    (hb : phys < 2 ^ F.physBits) (flags : MapFlags) :
    F.binding (F.leaf phys flags) = some ⟨phys, F.encodeFlags flags⟩ := by
  rw [Format.binding, hF.isPresent_leaf, if_pos rfl, hF.physicalAddress_leaf ha hb,
    hF.attributes_leaf]

theorem binding_eq_none {e : Entry} : F.binding e = none ↔ F.isPresent e = false := by
  unfold Format.binding
  split_ifs with h <;> simp [h]

theorem represented_of_walk {p : PageNumber} {t : ℕ}
    (ht : (graph F s.mem).walk root (pagePath p) = some t) :
    represented F s.mem root p = F.binding (entries s.mem t (leafIndex p)) := by
  rw [represented, ht, Option.bind_some]

/-- The table frames `map_page` has to allocate for an address. -/
def missingTables (F : Format) (m : Memory) (root virt : ℕ) : ℕ :=
  (graph F m).missing root (tablePath virt)

/-- `map_page` installs the leaf it encodes, also for a physical address beyond the width of the
architecture. -/
theorem WellFormed.mapPage_leaf (hF : F.Lawful) (h : WellFormed F root s) (virt phys : ℕ)
    (flags : MapFlags) :
    ∃ r s', mapPage F s (root * 4096) virt phys flags = (r, s') ∧ WellFormed F root s' ∧
      (r = .ok () ↔ virt % 4096 = 0 ∧ phys % 4096 = 0 ∧
        represented F s.mem root (pageNumber virt) = none ∧
        missingTables F s.mem root virt ≤ s.pmm.freeFrames.card) ∧
      represented F s'.mem root = if r = .ok () then
          Function.update (represented F s.mem root) (pageNumber virt)
            (F.binding (F.leaf phys flags))
        else represented F s.mem root := by
  unfold MitosOS.Paging.mapPage
  rw [land_0xFFF, land_0xFFF]
  by_cases halign : virt % 4096 ≠ 0 ∨ phys % 4096 ≠ 0
  · rw [if_pos halign]
    refine ⟨_, s, rfl, h, ?_, by simp⟩
    simp only [reduceCtorEq, false_iff]
    exact fun hc => halign.elim (· hc.1) (· hc.2.1)
  rw [if_neg halign]
  rw [not_or, not_not, not_not] at halign
  obtain ⟨hv, hp⟩ := halign
  obtain ⟨r, s', hrun, hwf, hrep, hres⟩ := h.nextTables hF flags.userAccessible (tablePath virt)
    (q := []) (n := root) (le_refl 3) rfl
  rw [hrun]
  rcases hres with ⟨t, rfl, ht, hle⟩ | ⟨rfl, hlt⟩
  · rw [List.nil_append, ← pagePath_pageNumber] at ht
    have hpage : represented F s.mem root (pageNumber virt) =
        F.binding (getEntry s'.mem (t * 4096) (tableIndex 12 virt)) := by
      rw [← hrep, represented_of_walk ht, leafIndex_pageNumber, entries]
    dsimp only
    by_cases hpres : F.isPresent (getEntry s'.mem (t * 4096) (tableIndex 12 virt)) = true
    · rw [if_pos hpres]
      refine ⟨_, s', rfl, hwf, ?_, by simpa using hrep⟩
      simp only [reduceCtorEq, false_iff]
      intro hc
      rw [hpage, binding_eq_none, hpres] at hc
      exact absurd hc.2.2.1 (by decide)
    · rw [if_neg hpres]
      have hleaf := hwf.setLeaf ht (F.leaf phys flags)
      rw [leafIndex_pageNumber] at hleaf
      refine ⟨_, _, rfl, hleaf.1, ?_, ?_⟩
      · simp only [true_iff]
        refine ⟨hv, hp, ?_, hle⟩
        rw [hpage, binding_eq_none, Bool.eq_false_iff]
        exact hpres
      · rw [if_pos rfl, hleaf.2, hrep]
  · refine ⟨_, s', rfl, hwf, ?_, by simpa using hrep⟩
    simp only [reduceCtorEq, false_iff]
    exact fun hc => absurd hc.2.2.2 (Nat.not_le_of_lt hlt)

theorem WellFormed.mapPage (hF : F.Lawful) (h : WellFormed F root s) (virt phys : ℕ)
    (flags : MapFlags) (hphys : phys < 2 ^ F.physBits) :
    ∃ r s', mapPage F s (root * 4096) virt phys flags = (r, s') ∧ WellFormed F root s' ∧
      (r = .ok () ↔ virt % 4096 = 0 ∧ phys % 4096 = 0 ∧
        represented F s.mem root (pageNumber virt) = none ∧
        missingTables F s.mem root virt ≤ s.pmm.freeFrames.card) ∧
      represented F s'.mem root = if r = .ok () then
          Function.update (represented F s.mem root) (pageNumber virt)
            (some ⟨phys, F.encodeFlags flags⟩)
        else represented F s.mem root := by
  obtain ⟨r, s', heq, hwf, hok, hrep⟩ := h.mapPage_leaf hF virt phys flags
  refine ⟨r, s', heq, hwf, hok, ?_⟩
  rw [hrep]
  split_ifs with hr
  · rw [hF.binding_leaf (hok.mp hr).2.1 hphys]
  · rfl

theorem WellFormed.unmapPage (hF : F.Lawful) (h : WellFormed F root s) (virt : ℕ) :
    ∃ r s', unmapPage F s (root * 4096) virt = (r, s') ∧ WellFormed F root s' ∧
      (r = .ok () ↔ virt % 4096 = 0 ∧ represented F s.mem root (pageNumber virt) ≠ none) ∧
      represented F s'.mem root = if r = .ok () then
          Function.update (represented F s.mem root) (pageNumber virt) none
        else represented F s.mem root := by
  unfold MitosOS.Paging.unmapPage
  rw [land_0xFFF]
  by_cases halign : virt % 4096 ≠ 0
  · rw [if_pos halign]
    refine ⟨_, s, rfl, h, ?_, by simp⟩
    simp only [reduceCtorEq, false_iff]
    exact fun hc => halign hc.1
  rw [if_neg halign, walkTables_eq hF]
  rw [not_not] at halign
  cases ht : (graph F s.mem).walk root (tablePath virt) with
  | none =>
    have hnone : represented F s.mem root (pageNumber virt) = none := by
      rw [represented, pagePath_pageNumber, ht, Option.bind_none]
    refine ⟨_, s, rfl, h, ?_, by simp⟩
    simp only [reduceCtorEq, false_iff]
    exact fun hc => hc.2 hnone
  | some t =>
    rw [← pagePath_pageNumber] at ht
    have hpage : represented F s.mem root (pageNumber virt) =
        F.binding (getEntry s.mem (t * 4096) (tableIndex 12 virt)) := by
      rw [represented_of_walk ht, leafIndex_pageNumber, entries]
    rw [Option.map_some]
    dsimp only
    by_cases hpres : F.isPresent (getEntry s.mem (t * 4096) (tableIndex 12 virt)) = true
    · rw [if_pos hpres]
      have hleaf := h.setLeaf ht 0#64
      rw [leafIndex_pageNumber, binding_eq_none.mpr hF.isPresent_zero] at hleaf
      refine ⟨_, _, rfl, hleaf.1, ?_, ?_⟩
      · simp only [true_iff]
        refine ⟨halign, ?_⟩
        rw [hpage, ne_eq, binding_eq_none, hpres]
        decide
      · rw [if_pos rfl, hleaf.2]
    · rw [if_neg hpres]
      refine ⟨_, s, rfl, h, ?_, by simp⟩
      simp only [reduceCtorEq, false_iff]
      refine fun hc => hc.2 ?_
      rw [hpage, binding_eq_none, Bool.eq_false_iff]
      exact hpres

/-- Where no large leaf is on the way the translation is the represented binding. -/
theorem translateAddr_of_noBlock (hF : F.Lawful) (m : Memory) (root virt : ℕ)
    (hnoBlock : ∀ q t i, q.length ≤ 2 → q ++ [i] <+: tablePath virt →
      (graph F m).walk root q = some t → F.isPresent (entries m t i) = true →
      F.isBlock (entries m t i) = false) :
    translateAddr F m (root * 4096) virt =
      (represented F m root (pageNumber virt)).map fun b => b.frame + virt % 4096 := by
  unfold MitosOS.Paging.translateAddr represented
  rw [pagePath_pageNumber, leafIndex_pageNumber, tablePath, land_0xFFF]
  simp only [getEntry_frame]
  cases h0 : graph F m root (tableIndex 39 virt) with
  | none => simp [PathGraph.walk_cons, h0, isPresent_of_graph_none h0]
  | some c0 =>
  obtain ⟨hp0, ha0⟩ := isPresent_of_graph_some hF h0
  have hw0 : (graph F m).walk root [tableIndex 39 virt] = some c0 :=
    (PathGraph.walk_concat_of_eq (p := []) rfl _).trans h0
  simp only [hp0, ha0, getEntry_frame, Bool.not_true, Bool.false_eq_true, if_false]
  cases h1 : graph F m c0 (tableIndex 30 virt) with
  | none => simp [PathGraph.walk_cons, h0, h1, isPresent_of_graph_none h1]
  | some c1 =>
  obtain ⟨hp1, ha1⟩ := isPresent_of_graph_some hF h1
  have hw1 : (graph F m).walk root [tableIndex 39 virt, tableIndex 30 virt] = some c1 :=
    (PathGraph.walk_concat_of_eq (p := [_]) hw0 _).trans h1
  have hb1 := hnoBlock [tableIndex 39 virt] c0 _ (by simp) ⟨[tableIndex 21 virt], rfl⟩ hw0 hp1
  simp only [hp1, ha1, hb1, getEntry_frame, Bool.not_true, Bool.false_eq_true, if_false]
  cases h2 : graph F m c1 (tableIndex 21 virt) with
  | none => simp [PathGraph.walk_cons, h0, h1, h2, isPresent_of_graph_none h2]
  | some c2 =>
  obtain ⟨hp2, ha2⟩ := isPresent_of_graph_some hF h2
  have hb2 := hnoBlock [tableIndex 39 virt, tableIndex 30 virt] c1 _ (by simp) ⟨[], rfl⟩ hw1 hp2
  simp only [hp2, ha2, hb2, getEntry_frame, Bool.not_true, Bool.false_eq_true, if_false,
    PathGraph.walk_cons, PathGraph.walk_nil, h0, h1, h2, Option.bind_some, Format.binding]
  cases F.isPresent (entries m c2 (tableIndex 12 virt)) <;> rfl

theorem WellFormed.translateAddr (hF : F.Lawful) (h : WellFormed F root s) (virt : ℕ) :
    translateAddr F s.mem (root * 4096) virt =
      (represented F s.mem root (pageNumber virt)).map fun b => b.frame + virt % 4096 :=
  translateAddr_of_noBlock hF s.mem root virt fun q t i hq _ hw hp => h.noBlock q t i hq hw hp

end Operations

section Refinement
variable {F : Format} {root : ℕ} {s s' : Machine}

/-- One call of the table API, or any change of the allocator that does not put a frame in use
as a table back into the pool. -/
inductive ApiStep (F : Format) (root : ℕ) : Machine → Machine → Prop where
  | map (s : Machine) (virt phys : ℕ) (flags : MapFlags) (hphys : phys < 2 ^ F.physBits) :
    ApiStep F root s (mapPage F s (root * 4096) virt phys flags).2
  | unmap (s : Machine) (virt : ℕ) : ApiStep F root s (unmapPage F s (root * 4096) virt).2
  | allocator (s : Machine) (pmm : Pmm)
    (hpmm : ∀ t ∈ (graph F s.mem).nodes root tablePaths, ¬ pmm.IsFree t) :
    ApiStep F root s { s with pmm }

/-- A root frame that was just zeroed and is not in the allocator's pool. -/
structure ZeroedRoot (root : ℕ) (s : Machine) : Prop where
  zero : ∀ x, x / 4096 = root → s.mem x = 0
  reserved : ¬ s.pmm.IsFree root

theorem ZeroedRoot.entries_eq (h : ZeroedRoot root s) (i : Fin 512) :
    entries s.mem root i = 0#64 := by
  rw [entries_congr (m := fun _ => 0) h.zero i, entries_zero]

theorem ZeroedRoot.walk_cons (hF : F.Lawful) (h : ZeroedRoot root s) (i : Fin 512)
    (p : List (Fin 512)) : (graph F s.mem).walk root (i :: p) = none := by
  rw [PathGraph.walk_cons, graph, h.entries_eq, Format.child, hF.isPresent_zero]
  rfl

theorem ZeroedRoot.wellFormed (hF : F.Lawful) (h : ZeroedRoot root s) : WellFormed F root s := by
  have honly : ∀ p t, (graph F s.mem).walk root p = some t → p = [] ∧ t = root := by
    intro p t hp
    cases p with
    | nil => exact ⟨rfl, (Option.some.inj hp).symm⟩
    | cons i p =>
      rw [h.walk_cons hF] at hp
      exact absurd hp (by simp)
  refine ⟨?_, ?_, ?_⟩
  · intro p _ q _ t hp hq
    rw [(honly p t hp).1, (honly q t hq).1]
  · rintro t ⟨p, -, hp⟩
    rw [(honly p t hp).2]
    exact h.reserved
  · intro q t i _ hq hpres
    rw [(honly q t hq).2, h.entries_eq, hF.isPresent_zero] at hpres
    exact absurd hpres (by decide)

theorem ZeroedRoot.represented_eq (hF : F.Lawful) (h : ZeroedRoot root s) :
    represented F s.mem root = fun _ => none := by
  funext p
  rw [represented, pagePath, h.walk_cons hF, Option.bind_none]

theorem ApiStep.wellFormed (hF : F.Lawful) (h : WellFormed F root s)
    (hstep : ApiStep F root s s') : WellFormed F root s' := by
  cases hstep with
  | map virt phys flags hphys =>
    obtain ⟨r, s', heq, hwf, -⟩ := h.mapPage hF virt phys flags hphys
    rw [heq]
    exact hwf
  | unmap virt =>
    obtain ⟨r, s', heq, hwf, -⟩ := h.unmapPage hF virt
    rw [heq]
    exact hwf
  | allocator pmm hpmm => exact ⟨h.tree, hpmm, h.noBlock⟩

theorem WellFormed.of_run (hF : F.Lawful) (h : WellFormed F root s)
    (hrun : Relation.ReflTransGen (ApiStep F root) s s') : WellFormed F root s' := by
  induction hrun with
  | refl => exact h
  | tail _ hstep ih => exact hstep.wellFormed hF ih

/-- On both architectures the table API refines a finite map: from a zeroed root, whatever was
called before, each call succeeds exactly when the map allows it, changes just its own page and
nothing on an error, and translation reads the map. -/
theorem pageTable_refines_map (arch : Arch) (root : ℕ) (s₀ s : Machine)
    (hzero : ZeroedRoot root s₀) (hrun : Relation.ReflTransGen (ApiStep arch.format root) s₀ s) :
    represented arch.format s₀.mem root = (fun _ => none) ∧
    (∀ virt phys flags, phys < 2 ^ arch.format.physBits →
      ∃ r s', mapPage arch.format s (root * 4096) virt phys flags = (r, s') ∧
        (r = .ok () ↔ virt % 4096 = 0 ∧ phys % 4096 = 0 ∧
          represented arch.format s.mem root (pageNumber virt) = none ∧
          missingTables arch.format s.mem root virt ≤ s.pmm.freeFrames.card) ∧
        represented arch.format s'.mem root = if r = .ok () then
            Function.update (represented arch.format s.mem root) (pageNumber virt)
              (some ⟨phys, arch.format.encodeFlags flags⟩)
          else represented arch.format s.mem root) ∧
    (∀ virt, ∃ r s', unmapPage arch.format s (root * 4096) virt = (r, s') ∧
        (r = .ok () ↔ virt % 4096 = 0 ∧
          represented arch.format s.mem root (pageNumber virt) ≠ none) ∧
        represented arch.format s'.mem root = if r = .ok () then
            Function.update (represented arch.format s.mem root) (pageNumber virt) none
          else represented arch.format s.mem root) ∧
    ∀ virt, translateAddr arch.format s.mem (root * 4096) virt =
      (represented arch.format s.mem root (pageNumber virt)).map fun b =>
        b.frame + virt % 4096 := by
  have hF := arch.format_lawful
  have h : WellFormed arch.format root s := (hzero.wellFormed hF).of_run hF hrun
  refine ⟨hzero.represented_eq hF, ?_, ?_, h.translateAddr hF⟩
  · intro virt phys flags hphys
    obtain ⟨r, s', heq, -, hspec⟩ := h.mapPage hF virt phys flags hphys
    exact ⟨r, s', heq, hspec⟩
  · intro virt
    obtain ⟨r, s', heq, -, hspec⟩ := h.unmapPage hF virt
    exact ⟨r, s', heq, hspec⟩

def zeroedMachine : Machine := ⟨fun _ => 0, BitmapAllocator.new.freeRange 0x100 8⟩

theorem zeroedMachine_zeroedRoot : ZeroedRoot 1 zeroedMachine := by
  refine ⟨fun _ _ => rfl, fun hfree => ?_⟩
  rcases (BitmapAllocator.isFree_freeRange _ 0x100 8 1).mp hfree with hnew | ⟨hle, -⟩
  · exact BitmapAllocator.not_isFree_new 1 hnew
  · exact absurd hle (by decide)

def userFlags : MapFlags where
  writable := true
  userAccessible := true
  executeDisable := false
  device := false

def onePage : Machine := (mapPage x86Format zeroedMachine (1 * 4096) 0x8000000000 0x200000 userFlags).2

theorem onePage_ok :
    (mapPage x86Format zeroedMachine (1 * 4096) 0x8000000000 0x200000 userFlags).1 = .ok () := by
  decide +kernel

def twoPages : Machine := (mapPage x86Format onePage (1 * 4096) 0x8000001000 0x300000 userFlags).2

theorem twoPages_run : Relation.ReflTransGen (ApiStep x86Format 1) zeroedMachine twoPages :=
  (Relation.ReflTransGen.single (.map _ 0x8000000000 0x200000 userFlags (by decide))).tail
    (.map _ 0x8000001000 0x300000 userFlags (by decide))

/-- Two pages are mapped, and both are translated. Then the first one is unmapped, and the second one
stays. -/
theorem pageTable_refines_map_twoPages :
    (mapPage x86Format onePage (1 * 4096) 0x8000001000 0x300000 userFlags).1 = .ok () ∧
    translateAddr x86Format twoPages.mem (1 * 4096) 0x8000000234 = some 0x200234 ∧
    ∃ s, unmapPage x86Format twoPages (1 * 4096) 0x8000000000 = (.ok (), s) ∧
      represented x86Format s.mem 1 =
        Function.update (represented x86Format twoPages.mem 1) (pageNumber 0x8000000000) none ∧
      translateAddr x86Format s.mem (1 * 4096) 0x8000000234 = none ∧
      translateAddr x86Format s.mem (1 * 4096) 0x8000001234 = some 0x300234 := by
  have hfacts : (mapPage x86Format onePage (1 * 4096) 0x8000001000 0x300000 userFlags).1 = .ok () ∧
      translateAddr x86Format twoPages.mem (1 * 4096) 0x8000000234 = some 0x200234 ∧
      translateAddr x86Format twoPages.mem (1 * 4096) 0x8000001234 = some 0x300234 := by
    decide +kernel
  obtain ⟨hok, hfirst, hsecond⟩ := hfacts
  obtain ⟨-, -, hunmap, htranslate⟩ :=
    pageTable_refines_map .x86_64 1 _ _ zeroedMachine_zeroedRoot twoPages_run
  obtain ⟨r, s, hrun, hspec, hafter⟩ := hunmap 0x8000000000
  have hbound : represented x86Format twoPages.mem 1 (pageNumber 0x8000000000) ≠ none := by
    intro hnone
    have heq : translateAddr x86Format twoPages.mem (1 * 4096) 0x8000000234 =
        (represented x86Format twoPages.mem 1 (pageNumber 0x8000000000)).map fun b =>
          b.frame + 0x8000000234 % 4096 := htranslate 0x8000000234
    rw [hnone, hfirst] at heq
    exact absurd heq (by simp)
  obtain rfl := hspec.mpr ⟨rfl, hbound⟩
  rw [if_pos rfl] at hafter
  have hstep : ApiStep x86Format 1 twoPages (unmapPage x86Format twoPages (1 * 4096) 0x8000000000).2 :=
    .unmap _ 0x8000000000
  rw [show unmapPage x86Format twoPages (1 * 4096) 0x8000000000 = _ from hrun] at hstep
  obtain ⟨-, -, -, hgone⟩ := pageTable_refines_map .x86_64 1 _ _ zeroedMachine_zeroedRoot
    (twoPages_run.tail hstep)
  refine ⟨hok, hfirst, s, hrun, hafter, (hgone 0x8000000234).trans ?_, (hgone 0x8000001234).trans ?_⟩
  · rw [hafter, show pageNumber 0x8000000234 = pageNumber 0x8000000000 from rfl,
      Function.update_self]
    rfl
  · rw [hafter, Function.update_of_ne (by decide), ← htranslate]
    exact hsecond

end Refinement

end MitosOS.Paging
