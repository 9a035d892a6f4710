import MitosOS.Paging.PageMap

/-! The private half of an address space. A root shares some of its top-level entries with the
kernel; what hangs off the others belongs to the process. Work done for the process is confined
to its own frames and to the allocator's pool. -/
namespace MitosOS.Paging
open MitosOS.Lib MitosOS.Memory

/-- The paths of at most four indices, down to the data pages, that start outside `shared`. -/
def privatePaths (shared : Set (Fin 512)) : Set (List (Fin 512)) :=
  {p | p.length ≤ 4 ∧ ∀ i ∈ p.head?, i ∉ shared}

def owned (F : Format) (shared : Set (Fin 512)) (m : Memory) (root : ℕ) : Set ℕ :=
  (graph F m).nodes root (privatePaths shared)

/-- The private tables and pages form a tree without large leaves, and none of them is in the
allocator's pool. -/
structure Private (F : Format) (shared : Set (Fin 512)) (root : ℕ) (s : Machine) : Prop where
  tree : (graph F s.mem).TreeOn root (privatePaths shared)
  reserved : ∀ t ∈ owned F shared s.mem root, ¬ s.pmm.IsFree t
  noBlock : ∀ q t i, q ++ [i] ∈ privatePaths shared → q.length ≤ 2 →
    (graph F s.mem).walk root q = some t → F.isPresent (entries s.mem t i) = true →
    F.isBlock (entries s.mem t i) = false

/-- The present entries above the leaves, along private paths, all satisfy `P`. -/
def UpperEntries (F : Format) (P : Entry → Prop) (shared : Set (Fin 512)) (root : ℕ) (m : Memory) :
    Prop :=
  ∀ q t i, q ++ [i] ∈ privatePaths shared → q.length ≤ 2 → (graph F m).walk root q = some t →
    F.isPresent (entries m t i) = true → P (entries m t i)

/-- Memory `m'` holds the private tables as `m` does; data pages may differ. -/
def SameTables (F : Format) (shared : Set (Fin 512)) (root : ℕ) (m m' : Memory) : Prop :=
  ∀ q t, q ∈ privatePaths shared → q.length ≤ 3 → (graph F m).walk root q = some t →
    ∀ x, x / 4096 = t → m' x = m x

/-- The frames of the process together with the ones it can still be given. -/
def pool (F : Format) (shared : Set (Fin 512)) (root : ℕ) (s : Machine) : Set ℕ :=
  {f | f ∈ owned F shared s.mem root ∨ s.pmm.IsFree f}

/-- What may have happened since `s₀` on behalf of the process. -/
structure Confined (F : Format) (shared : Set (Fin 512)) (root : ℕ) (s₀ s : Machine) : Prop where
  isPrivate : Private F shared root s
  pool_subset : pool F shared root s ⊆ pool F shared root s₀
  outside : ∀ x, x / 4096 ∉ pool F shared root s₀ → s.mem x = s₀.mem x
  sharedEntries : ∀ i ∈ shared, entries s.mem root i = entries s₀.mem root i

/-- A frame that was taken out of the pool and is not attached to the tree yet. -/
structure InHand (F : Format) (shared : Set (Fin 512)) (root : ℕ) (s₀ s : Machine) (d : ℕ) :
    Prop where
  mem : d ∈ pool F shared root s₀
  notMem : d ∉ pool F shared root s

section Paths
variable {shared : Set (Fin 512)} {p q : List (Fin 512)} {i : Fin 512}

theorem privatePaths_prefixClosed (shared : Set (Fin 512)) :
    PathGraph.PrefixClosed (privatePaths shared) := by
  rintro p i ⟨hlen, hhead⟩
  rw [List.length_append, List.length_singleton] at hlen
  refine ⟨by omega, fun j hj => hhead j ?_⟩
  cases p with
  | nil => simp at hj
  | cons k p => exact hj

theorem nil_mem_privatePaths (shared : Set (Fin 512)) : [] ∈ privatePaths shared :=
  ⟨Nat.zero_le _, fun _ h => by simp at h⟩

theorem mem_privatePaths_cons (hi : i ∉ shared) (hp : p.length ≤ 3) :
    i :: p ∈ privatePaths shared := by
  refine ⟨by rw [List.length_cons]; omega, fun j hj => ?_⟩
  obtain rfl : i = j := by simpa using hj
  exact hi

end Paths

section Steps
variable {F : Format} {shared : Set (Fin 512)} {root n f d : ℕ} {s₀ s s' : Machine}
  {q : List (Fin 512)} {i : Fin 512}

theorem root_mem_owned (F : Format) (shared : Set (Fin 512)) (m : Memory) (root : ℕ) :
    root ∈ owned F shared m root := ⟨[], nil_mem_privatePaths shared, rfl⟩

theorem Private.not_shared (h : Private F shared root s) (hq : q ++ [i] ∈ privatePaths shared)
    (hw : (graph F s.mem).walk root q = some root) : i ∉ shared := by
  have hnil : q = [] := h.tree q (privatePaths_prefixClosed shared q i hq) []
    (nil_mem_privatePaths shared) root hw rfl
  subst hnil
  exact hq.2 i rfl

theorem Private.upper (h : Private F shared root s) :
    UpperEntries F (fun e => F.isBlock e = false) shared root s.mem := h.noBlock

theorem UpperEntries.congr {P : Entry → Prop} {m m' : Memory}
    (h : UpperEntries F P shared root m)
    (hsame : ∀ q t, q ∈ privatePaths shared → q.length ≤ 2 → (graph F m).walk root q = some t →
      ∀ i, entries m' t i = entries m t i) : UpperEntries F P shared root m' := by
  have hD := privatePaths_prefixClosed shared
  intro q t i hq hlen hw hp
  have hold : (graph F m').walk root q = (graph F m).walk root q := by
    apply PathGraph.walk_congr
    intro r j hr u hu
    have hrlen := hr.length_le
    rw [List.length_append, List.length_singleton] at hrlen
    have hrD := hD r j (hD.mem_of_isPrefix (hD q i hq) hr)
    exact congrArg F.child (hsame r u hrD (by omega) hu j)
  rw [hold] at hw
  rw [hsame q t (hD q i hq) hlen hw] at hp ⊢
  exact h q t i hq hlen hw hp

theorem UpperEntries.revisited {P : Entry → Prop} (h : UpperEntries F P shared root s.mem)
    (hr : Revisited F s s' n i) (hP : P (entries s.mem n i) → P (entries s'.mem n i)) :
    UpperEntries F P shared root s'.mem := by
  intro q t j hq hlen hw hp
  rw [hr.graph_eq] at hw
  by_cases hc : t = n ∧ j = i
  · obtain ⟨rfl, rfl⟩ := hc
    exact hP (h q t j hq hlen hw (hr.isPresent_iff.mp hp))
  · rw [hr.other t j hc] at hp ⊢
    exact h q t j hq hlen hw hp

theorem UpperEntries.grown {P : Entry → Prop} (hF : F.Lawful)
    (h : UpperEntries F P shared root s.mem) (hg : Grown F s s' n i f) (hP : P (F.table (f * 4096)))
    (hwalk : ∀ p ∈ privatePaths shared, (graph F s'.mem).walk root p =
      if p = q ++ [i] then some f else (graph F s.mem).walk root p) :
    UpperEntries F P shared root s'.mem := by
  intro r t j hr hlen hrt hp
  rw [hg.entries_eq] at hp ⊢
  split_ifs at hp ⊢ with h1 h2
  · exact hP
  · exact absurd hp (by simp [hF.isPresent_zero])
  · rw [hwalk r (privatePaths_prefixClosed shared r j hr)] at hrt
    split_ifs at hrt
    · exact absurd (Option.some.inj hrt).symm h2
    · exact h r t j hr hlen hrt hp

theorem SameTables.walk_eq {m m' : Memory} (h : SameTables F shared root m m') :
    ∀ p ∈ privatePaths shared, (graph F m').walk root p = (graph F m).walk root p := by
  have hD := privatePaths_prefixClosed shared
  intro p hp
  refine PathGraph.walk_congr_on hD (fun r j hr t ht => ?_) hp
  have hlen := hr.1
  rw [List.length_append, List.length_singleton] at hlen
  exact graph_congr (h r t (hD r j hr) (by omega) ht) j

theorem SameTables.owned_eq {m m' : Memory} (h : SameTables F shared root m m') :
    owned F shared m' root = owned F shared m root := PathGraph.nodes_congr h.walk_eq

/-- A root whose private entries are empty owns nothing but itself. -/
theorem private_of_empty (hempty : ∀ i, i ∉ shared → graph F s.mem root i = none)
    (hroot : ¬ s.pmm.IsFree root) :
    Private F shared root s ∧ owned F shared s.mem root = {root} := by
  have honly : ∀ p ∈ privatePaths shared, ∀ t, (graph F s.mem).walk root p = some t →
      p = [] ∧ t = root := by
    rintro p ⟨-, hhead⟩ t hw
    cases p with
    | nil => exact ⟨rfl, (Option.some.inj hw).symm⟩
    | cons i p =>
      rw [PathGraph.walk_cons, hempty i (hhead i rfl), Option.bind_none] at hw
      exact absurd hw (by simp)
  refine ⟨⟨?_, ?_, ?_⟩, ?_⟩
  · intro p hp q hq t hpt hqt
    rw [(honly p hp t hpt).1, (honly q hq t hqt).1]
  · rintro t ⟨p, hp, hpt⟩
    rw [(honly p hp t hpt).2]
    exact hroot
  · intro q t i hq _ hqt hp
    have hqD := privatePaths_prefixClosed shared q i hq
    obtain ⟨rfl, rfl⟩ := honly q hqD t hqt
    have hi := isPresent_of_graph_none (hempty i (hq.2 i rfl))
    rw [hi] at hp
    exact absurd hp (by decide)
  · ext t
    constructor
    · rintro ⟨p, hp, hpt⟩
      exact (honly p hp t hpt).2
    · rintro rfl
      exact root_mem_owned F shared s.mem t

theorem Private.confined (h : Private F shared root s) : Confined F shared root s s :=
  ⟨h, subset_rfl, fun _ _ => rfl, fun _ _ => rfl⟩

theorem Confined.owned_subset (h : Confined F shared root s₀ s) :
    owned F shared s.mem root ⊆ pool F shared root s₀ := fun _ ht => h.pool_subset (Or.inl ht)

theorem Confined.extend (h : Confined F shared root s₀ s) (hp : Private F shared root s')
    (hpool : pool F shared root s' ⊆ pool F shared root s₀)
    (hmem : ∀ x, x / 4096 ∉ pool F shared root s₀ → s'.mem x = s.mem x)
    (hshared : ∀ i ∈ shared, entries s'.mem root i = entries s.mem root i) :
    Confined F shared root s₀ s' where
  isPrivate := hp
  pool_subset := hpool
  outside x hx := (hmem x hx).trans (h.outside x hx)
  sharedEntries i hi := (hshared i hi).trans (h.sharedEntries i hi)

theorem InHand.congr (hd : InHand F shared root s₀ s d)
    (hpool : pool F shared root s' = pool F shared root s) : InHand F shared root s₀ s' d :=
  ⟨hd.mem, hpool ▸ hd.notMem⟩

theorem Confined.alloc (h : Confined F shared root s₀ s) (ht : Taken s s' d) :
    InHand F shared root s₀ s' d ∧ Confined F shared root s₀ s' ∧
      pool F shared root s = insert d (pool F shared root s') := by
  have hout : d ∉ owned F shared s.mem root := fun hd => h.isPrivate.reserved d hd ht.wasFree
  have hpool : pool F shared root s = insert d (pool F shared root s') := by
    ext g
    simp only [pool, ht.mem, ht.pmm, Set.mem_insert_iff, Set.mem_ofPred_eq]
    constructor
    · rintro (hg | hg)
      · exact Or.inr (Or.inl hg)
      · exact (eq_or_ne g d).imp id fun hne => Or.inr ⟨hg, hne⟩
    · rintro (rfl | hg | hg)
      · exact Or.inr ht.wasFree
      · exact Or.inl hg
      · exact Or.inr hg.1
  have hnot : d ∉ pool F shared root s' := by
    rintro (hd | hd)
    · rw [ht.mem] at hd
      exact hout hd
    · exact ((ht.pmm d).mp hd).2 rfl
  have hsub : pool F shared root s' ⊆ pool F shared root s := by
    rw [hpool]
    exact Set.subset_insert _ _
  refine ⟨⟨h.pool_subset (Or.inr ht.wasFree), hnot⟩, ?_, hpool⟩
  apply h.extend
  · constructor
    · rw [ht.mem]
      exact h.isPrivate.tree
    · intro t htm hft
      rw [ht.mem] at htm
      exact h.isPrivate.reserved t htm ((ht.pmm t).mp hft).1
    · rw [ht.mem]
      exact h.isPrivate.noBlock
  · exact hsub.trans h.pool_subset
  · intro x _
    rw [ht.mem]
  · intro j _
    rw [ht.mem]

theorem Confined.revisited (h : Confined F shared root s₀ s) (hr : Revisited F s s' n i)
    (hq : q ++ [i] ∈ privatePaths shared) (hw : (graph F s.mem).walk root q = some n) :
    Confined F shared root s₀ s' ∧ pool F shared root s' = pool F shared root s := by
  have howned : owned F shared s'.mem root = owned F shared s.mem root := by
    rw [owned, hr.graph_eq, owned]
  have hpool : pool F shared root s' = pool F shared root s := by
    rw [pool, howned, hr.pmm, pool]
  have hn : n ∈ owned F shared s.mem root := ⟨q, privatePaths_prefixClosed shared q i hq, hw⟩
  refine ⟨h.extend ⟨?_, ?_, ?_⟩ (hpool ▸ h.pool_subset) ?_ ?_, hpool⟩
  · rw [hr.graph_eq]
    exact h.isPrivate.tree
  · rw [howned, hr.pmm]
    exact h.isPrivate.reserved
  · exact h.isPrivate.upper.revisited hr hr.block.trans
  · intro x hx
    apply hr.mem
    rintro rfl
    exact hx (h.owned_subset hn)
  · intro j hj
    apply hr.other
    rintro ⟨rfl, rfl⟩
    exact h.isPrivate.not_shared hq hw hj

theorem Confined.grown (hF : F.Lawful) (h : Confined F shared root s₀ s)
    (hg : Grown F s s' n i f) (hq : q ++ [i] ∈ privatePaths shared)
    (hw : (graph F s.mem).walk root q = some n) (hempty : graph F s.mem n i = none) :
    Confined F shared root s₀ s' ∧ pool F shared root s' = pool F shared root s ∧
      (graph F s'.mem).walk root (q ++ [i]) = some f := by
  have hD := privatePaths_prefixClosed shared
  have hfresh : f ∉ owned F shared s.mem root := fun hf => h.isPrivate.reserved f hf hg.wasFree
  have hn : n ∈ owned F shared s.mem root := ⟨q, hD q i hq, hw⟩
  have hwalk : ∀ p ∈ privatePaths shared, (graph F s'.mem).walk root p =
      if p = q ++ [i] then some f else (graph F s.mem).walk root p := fun p hp =>
    hg.walk_eq hF hD h.isPrivate.tree hfresh hq hw hempty hp
  have howned : owned F shared s'.mem root = insert f (owned F shared s.mem root) :=
    PathGraph.nodes_attach hq (by rw [PathGraph.walk_concat_of_eq hw, hempty]) hwalk
  have hpool : pool F shared root s' = pool F shared root s := by
    ext g
    simp only [pool, howned, hg.pmm, Set.mem_insert_iff, Set.mem_ofPred_eq]
    constructor
    · rintro ((rfl | ht) | ht)
      · exact Or.inr hg.wasFree
      · exact Or.inl ht
      · exact Or.inr ht.1
    · rintro (ht | ht)
      · exact Or.inl (Or.inr ht)
      · rcases eq_or_ne g f with rfl | hne
        · exact Or.inl (Or.inl rfl)
        · exact Or.inr ⟨ht, hne⟩
  refine ⟨h.extend ⟨?_, ?_, ?_⟩ (hpool ▸ h.pool_subset) ?_ ?_, hpool, ?_⟩
  · refine h.isPrivate.tree.attach hfresh (p := q ++ [i]) fun p hp => ?_
    rw [hwalk p hp]
    split_ifs with hc
    · exact Or.inl ⟨rfl, hc⟩
    · exact Or.inr rfl
  · intro t ht hft
    obtain ⟨hold, hne⟩ := (hg.pmm t).mp hft
    rw [howned] at ht
    exact h.isPrivate.reserved t (ht.resolve_left hne) hold
  · exact h.isPrivate.upper.grown hF hg (hF.isBlock_table _) hwalk
  · intro x hx
    apply hg.mem_apply
    · rintro rfl
      exact hx (h.owned_subset hn)
    · rintro rfl
      exact hx (h.pool_subset (Or.inr hg.wasFree))
  · intro j hj
    have hroot : root ≠ f := by
      rintro rfl
      exact hfresh (root_mem_owned F shared s.mem root)
    rw [hg.entries_eq, if_neg, if_neg hroot]
    rintro ⟨rfl, rfl⟩
    exact h.isPrivate.not_shared hq hw hj
  · rw [hwalk _ hq, if_pos rfl]

/-- Descending along a private path, whether or not the tables run out on the way. -/
theorem Confined.nextTables (hF : F.Lawful) (u : Bool) (p : List (Fin 512)) :
    ∀ {s : Machine} {q : List (Fin 512)} {n : ℕ}, Confined F shared root s₀ s →
    q ++ p ∈ privatePaths shared → (graph F s.mem).walk root q = some n →
    ∃ r s', nextTables F u s (n * 4096) p = (r, s') ∧ Confined F shared root s₀ s' ∧
      pool F shared root s' = pool F shared root s ∧
      ∀ a, r = .ok a → ∃ t, a = t * 4096 ∧ (graph F s'.mem).walk root (q ++ p) = some t := by
  induction p with
  | nil =>
    intro s q n h _ hw
    refine ⟨_, s, rfl, h, rfl, fun a ha => ⟨n, ?_, ?_⟩⟩
    · exact (Except.ok.inj ha).symm
    · rw [List.append_nil, hw]
  | cons i p ih =>
    intro s q n h hqp hw
    have happ : q ++ i :: p = q ++ [i] ++ p := by simp
    rw [happ] at hqp ⊢
    have hq : q ++ [i] ∈ privatePaths shared :=
      (privatePaths_prefixClosed shared).mem_of_isPrefix hqp (List.prefix_append _ _)
    simp only [MitosOS.Paging.nextTables]
    rcases nextTable_cases hF u s n i with
      ⟨c, s₁, hnext, hc, hr⟩ | ⟨hnext, hc, hnofree⟩ | ⟨f, s₁, hnext, hc, hg⟩
    · obtain ⟨h₁, hpool₁⟩ := h.revisited hr hq hw
      have hw₁ : (graph F s₁.mem).walk root (q ++ [i]) = some c := by
        rw [hr.graph_eq, PathGraph.walk_concat_of_eq hw, hc]
      obtain ⟨r, s', hrun, h', hpool, hres⟩ := ih h₁ hqp hw₁
      exact ⟨r, s', by rw [hnext]; exact hrun, h', hpool.trans hpool₁, hres⟩
    · refine ⟨_, s, by rw [hnext], h, rfl, fun a ha => ?_⟩
      exact Except.noConfusion rfl rfl (heq_of_eq ha)
    · obtain ⟨h₁, hpool₁, hw₁⟩ := h.grown hF hg hq hw hc
      obtain ⟨r, s', hrun, h', hpool, hres⟩ := ih h₁ hqp hw₁
      exact ⟨r, s', by rw [hnext]; exact hrun, h', hpool.trans hpool₁, hres⟩

theorem Private.sameTables (h : Private F shared root s)
    (hsame : SameTables F shared root s.mem s'.mem)
    (hfree : ∀ t ∈ owned F shared s.mem root, ¬ s'.pmm.IsFree t) : Private F shared root s' := by
  refine ⟨h.tree.congr hsame.walk_eq, hsame.owned_eq ▸ hfree, ?_⟩
  exact h.upper.congr fun q t hq hlen hqt => entries_congr (hsame q t hq (by omega) hqt)

theorem Confined.write (h : Confined F shared root s₀ s) {m : Memory}
    (hsame : SameTables F shared root s.mem m)
    (hout : ∀ x, x / 4096 ∉ pool F shared root s₀ → m x = s.mem x) :
    Confined F shared root s₀ { s with mem := m } := by
  refine h.extend (h.isPrivate.sameTables hsame h.isPrivate.reserved) ?_ hout ?_
  · intro g hg
    apply h.pool_subset
    simpa only [pool, hsame.owned_eq] using hg
  · intro j _
    exact entries_congr (hsame [] root (nil_mem_privatePaths shared) (by simp) rfl) j

theorem InHand.not_owned (hd : InHand F shared root s₀ s d) :
    d ∉ owned F shared s.mem root := fun ht => hd.notMem (Or.inl ht)

theorem Confined.writeInHand (h : Confined F shared root s₀ s) (hd : InHand F shared root s₀ s d)
    {m : Memory} (hm : ∀ x, x / 4096 ≠ d → m x = s.mem x) :
    Confined F shared root s₀ { s with mem := m } ∧ InHand F shared root s₀ { s with mem := m } d ∧
      pool F shared root { s with mem := m } = pool F shared root s := by
  have hsame : SameTables F shared root s.mem m := fun q t hq _ ht x hx =>
    hm x fun hxd => hd.not_owned ⟨q, hq, by rw [ht, ← hx, hxd]⟩
  have h' := h.write hsame fun x hx => hm x fun hxd => hx (hxd ▸ hd.mem)
  have hpool : pool F shared root { s with mem := m } = pool F shared root s := by
    simp only [pool, hsame.owned_eq]
  exact ⟨h', hd.congr hpool, hpool⟩

theorem Confined.writeData (h : Confined F shared root s₀ s) {m : Memory}
    (hm : ∀ x, m x ≠ s.mem x → ∃ p ∈ privatePaths shared, p.length = 4 ∧
      (graph F s.mem).walk root p = some (x / 4096)) :
    Confined F shared root s₀ { s with mem := m } ∧
      owned F shared m root = owned F shared s.mem root := by
  have hsame : SameTables F shared root s.mem m := by
    intro q t hq hlen ht x hx
    by_contra hne
    obtain ⟨p, hp, hp4, hpx⟩ := hm x hne
    rw [hx] at hpx
    have heq := h.isPrivate.tree p hp q hq t hpx ht
    rw [heq] at hp4
    omega
  refine ⟨h.write hsame fun x hx => ?_, hsame.owned_eq⟩
  by_contra hne
  obtain ⟨p, hp, -, hpx⟩ := hm x hne
  exact hx (h.owned_subset ⟨p, hp, hpx⟩)

structure LeafSlot (F : Format) (shared : Set (Fin 512)) (root : ℕ) (s : Machine)
    (q : List (Fin 512)) (t : ℕ) (i : Fin 512) : Prop where
  mem : q ++ [i] ∈ privatePaths shared
  length : q.length = 3
  walk : (graph F s.mem).walk root q = some t

theorem LeafSlot.last {t : ℕ} (hl : LeafSlot F shared root s q t i) (j : Fin 512) :
    q ++ [i] ++ [j] ∉ privatePaths shared := by
  intro hj
  have hlen := hj.1
  have hq := hl.length
  simp only [List.length_append, List.length_singleton] at hlen
  omega

theorem LeafSlot.mem_owned {t : ℕ} (hl : LeafSlot F shared root s q t i) :
    t ∈ owned F shared s.mem root :=
  ⟨q, privatePaths_prefixClosed shared q i hl.mem, hl.walk⟩

theorem Private.leaf_ne_root (h : Private F shared root s) {t : ℕ}
    (hl : LeafSlot F shared root s q t i) (hleaf : graph F s.mem t i = some d) : d ≠ root := by
  rintro rfl
  have hw := (PathGraph.walk_concat_of_eq hl.walk i).trans hleaf
  have hnil := h.tree _ hl.mem [] (nil_mem_privatePaths shared) d hw rfl
  exact absurd hnil (by simp)

theorem Private.upper_setLeaf {P : Entry → Prop} (h : Private F shared root s) {t : ℕ}
    (hl : LeafSlot F shared root s q t i) (e : Entry)
    (hupper : UpperEntries F P shared root s.mem) :
    UpperEntries F P shared root (setEntry s.mem (t * 4096) i e) := by
  apply hupper.congr
  intro r u hr hlen hru j
  have hut : u ≠ t := by
    rintro rfl
    have heq := h.tree r hr q (privatePaths_prefixClosed shared q i hl.mem) u hru hl.walk
    have hq := hl.length
    rw [← heq] at hq
    omega
  rw [entries_setEntry, if_neg (fun hc => hut hc.1)]

theorem Private.setLeaf_outside (h : Private F shared root s) {t : ℕ}
    (hl : LeafSlot F shared root s q t i) (e : Entry) :
    (∀ x, x / 4096 ∉ pool F shared root s → setEntry s.mem (t * 4096) i e x = s.mem x) ∧
      ∀ j ∈ shared, entries (setEntry s.mem (t * 4096) i e) root j = entries s.mem root j := by
  constructor
  · intro x hx
    apply setEntry_apply
    rintro rfl
    exact hx (Or.inl hl.mem_owned)
  · intro j hj
    rw [entries_setEntry, if_neg]
    rintro ⟨rfl, rfl⟩
    exact h.not_shared hl.mem hl.walk hj

theorem Confined.attach (h : Confined F shared root s₀ s) (hd : InHand F shared root s₀ s d) {t : ℕ}
    (hl : LeafSlot F shared root s q t i) (hempty : graph F s.mem t i = none) {e : Entry}
    (he : F.child e = some d) :
    Confined F shared root s₀ { s with mem := setEntry s.mem (t * 4096) i e } ∧
      pool F shared root { s with mem := setEntry s.mem (t * 4096) i e } =
        insert d (pool F shared root s) ∧
      ∀ p ∈ privatePaths shared, (graph F (setEntry s.mem (t * 4096) i e)).walk root p =
        if p = q ++ [i] then some d else (graph F s.mem).walk root p := by
  have hdt : d ≠ t := by
    rintro rfl
    exact hd.not_owned hl.mem_owned
  have hwalk : ∀ p ∈ privatePaths shared, (graph F (setEntry s.mem (t * 4096) i e)).walk root p =
      if p = q ++ [i] then some d else (graph F s.mem).walk root p := by
    intro p hp
    rw [graph_setEntry, he]
    exact PathGraph.walk_set_attach (privatePaths_prefixClosed shared) h.isPrivate.tree hl.mem
      hl.walk hempty hdt (fun j hj => absurd hj (hl.last j)) hp
  have hold : (graph F s.mem).walk root (q ++ [i]) = none := by
    rw [PathGraph.walk_concat_of_eq hl.walk, hempty]
  have howned : owned F shared (setEntry s.mem (t * 4096) i e) root =
      insert d (owned F shared s.mem root) := PathGraph.nodes_attach hl.mem hold hwalk
  have hpool : pool F shared root { s with mem := setEntry s.mem (t * 4096) i e } =
      insert d (pool F shared root s) := by
    ext g
    simp only [pool, howned, Set.mem_insert_iff, Set.mem_ofPred_eq, or_assoc]
  obtain ⟨hmem, hshared⟩ := h.isPrivate.setLeaf_outside hl e
  refine ⟨h.extend ⟨?_, ?_, ?_⟩ ?_ ?_ hshared, hpool, hwalk⟩
  · refine h.isPrivate.tree.attach hd.not_owned (p := q ++ [i]) fun p hp => ?_
    change (graph F (setEntry s.mem (t * 4096) i e)).walk root p = _ ∧ _ ∨ _
    rw [hwalk p hp]
    split_ifs with hc
    · exact Or.inl ⟨rfl, hc⟩
    · exact Or.inr rfl
  · intro u hu hfree
    change u ∈ owned F shared (setEntry s.mem (t * 4096) i e) root at hu
    rw [howned] at hu
    rcases hu with rfl | hu
    · exact hd.notMem (Or.inr hfree)
    · exact h.isPrivate.reserved u hu hfree
  · exact h.isPrivate.upper_setLeaf hl e h.isPrivate.upper
  · rw [hpool]
    exact Set.insert_subset hd.mem h.pool_subset
  · intro x hx
    by_cases hxp : x / 4096 ∈ pool F shared root s
    · exact absurd (h.pool_subset hxp) hx
    · exact hmem x hxp

theorem Confined.detach (hF : F.Lawful) (h : Confined F shared root s₀ s) {t : ℕ}
    (hl : LeafSlot F shared root s q t i) (hfull : graph F s.mem t i = some d) :
    Confined F shared root s₀ { s with mem := setEntry s.mem (t * 4096) i 0#64 } ∧
      InHand F shared root s₀ { s with mem := setEntry s.mem (t * 4096) i 0#64 } d ∧
      pool F shared root { s with mem := setEntry s.mem (t * 4096) i 0#64 } =
        pool F shared root s \ {d} ∧
      ∀ p ∈ privatePaths shared, (graph F (setEntry s.mem (t * 4096) i 0#64)).walk root p =
        if p = q ++ [i] then none else (graph F s.mem).walk root p := by
  have hwalk : ∀ p ∈ privatePaths shared,
      (graph F (setEntry s.mem (t * 4096) i 0#64)).walk root p =
        if p = q ++ [i] then none else (graph F s.mem).walk root p := by
    intro p hp
    rw [graph_setEntry, Format.child, hF.isPresent_zero, if_neg Bool.false_ne_true]
    exact PathGraph.walk_set_detach (privatePaths_prefixClosed shared) h.isPrivate.tree hl.mem
      hl.walk hl.last hp
  have hold : (graph F s.mem).walk root (q ++ [i]) = some d := by
    rw [PathGraph.walk_concat_of_eq hl.walk, hfull]
  have hd : d ∈ owned F shared s.mem root := ⟨_, hl.mem, hold⟩
  have hdfree : ¬ s.pmm.IsFree d := h.isPrivate.reserved d hd
  have howned : owned F shared (setEntry s.mem (t * 4096) i 0#64) root =
      owned F shared s.mem root \ {d} :=
    PathGraph.nodes_detach h.isPrivate.tree hl.mem hold hwalk
  have hpool : pool F shared root { s with mem := setEntry s.mem (t * 4096) i 0#64 } =
      pool F shared root s \ {d} := by
    ext g
    simp only [pool, howned, Set.mem_sdiff, Set.mem_singleton_iff, Set.mem_ofPred_eq]
    constructor
    · rintro (⟨hg, hne⟩ | hg)
      · exact ⟨Or.inl hg, hne⟩
      · refine ⟨Or.inr hg, ?_⟩
        rintro rfl
        exact hdfree hg
    · rintro ⟨hg | hg, hne⟩
      · exact Or.inl ⟨hg, hne⟩
      · exact Or.inr hg
  have hsub : pool F shared root s \ {d} ⊆ pool F shared root s₀ :=
    Set.sdiff_subset.trans h.pool_subset
  obtain ⟨hmem, hshared⟩ := h.isPrivate.setLeaf_outside hl 0#64
  refine ⟨h.extend ⟨h.isPrivate.tree.detach hwalk, ?_, ?_⟩ (hpool ▸ hsub) ?_ hshared,
    ⟨h.owned_subset hd, ?_⟩, hpool, hwalk⟩
  · intro u hu
    change u ∈ owned F shared (setEntry s.mem (t * 4096) i 0#64) root at hu
    rw [howned] at hu
    exact h.isPrivate.reserved u hu.1
  · exact h.isPrivate.upper_setLeaf hl 0#64 h.isPrivate.upper
  · intro x hx
    by_cases hxp : x / 4096 ∈ pool F shared root s
    · exact absurd (h.pool_subset hxp) hx
    · exact hmem x hxp
  · rw [hpool]
    exact fun hcon => hcon.2 rfl

theorem Confined.free (h : Confined F shared root s₀ s) (hd : InHand F shared root s₀ s d) :
    Confined F shared root s₀ (vmmFreeFrame s (d * 4096)) ∧
      pool F shared root (vmmFreeFrame s (d * 4096)) ⊆ insert d (pool F shared root s) := by
  have hfree : ∀ g, (vmmFreeFrame s (d * 4096)).pmm.IsFree g → s.pmm.IsFree g ∨ g = d := by
    intro g hg
    rw [vmmFreeFrame, Nat.mul_div_cancel d (by decide), BitmapAllocator.isFree_freeFrame] at hg
    exact hg.imp id fun hg => hg.1
  have hpool : pool F shared root (vmmFreeFrame s (d * 4096)) ⊆
      insert d (pool F shared root s) := by
    rintro g (hg | hg)
    · exact Or.inr (Or.inl hg)
    · rcases hfree g hg with hg | rfl
      · exact Or.inr (Or.inr hg)
      · exact Or.inl rfl
  refine ⟨h.extend ⟨h.isPrivate.tree, ?_, h.isPrivate.noBlock⟩
    (hpool.trans (Set.insert_subset hd.mem h.pool_subset)) (fun _ _ => rfl) fun _ _ => rfl, hpool⟩
  intro t ht hft
  rcases hfree t hft with hft | rfl
  · exact h.isPrivate.reserved t ht hft
  · exact hd.not_owned ht

theorem pool_vmmFreeFrame (hd : d ≠ 0) (hlt : d < 65536) :
    pool F shared root (vmmFreeFrame s (d * 4096)) = insert d (pool F shared root s) := by
  ext g
  simp only [pool, vmmFreeFrame, Nat.mul_div_cancel d (show 0 < 4096 by decide),
    BitmapAllocator.isFree_freeFrame, Set.mem_insert_iff, Set.mem_ofPred_eq]
  constructor
  · rintro (hg | hg | ⟨rfl, -, -⟩)
    · exact Or.inr (Or.inl hg)
    · exact Or.inr (Or.inr hg)
    · exact Or.inl rfl
  · rintro (rfl | hg | hg)
    · exact Or.inr (Or.inr ⟨rfl, hd, hlt⟩)
    · exact Or.inl hg
    · exact Or.inr (Or.inl hg)

theorem Format.Lawful.child_leaf (hF : F.Lawful) (hd : d < 65536) (flags : MapFlags) :
    F.child (F.leaf (d * 4096) flags) = some d := by
  rw [Format.child, hF.isPresent_leaf, if_pos rfl,
    hF.physicalAddress_leaf (Nat.mul_mod_left d 4096) (hF.frame_lt hd),
    Nat.mul_div_cancel d (by decide)]

theorem tablePath_mem {virt : ℕ} (hv : tableIndex 39 virt ∉ shared) (i : Fin 512) :
    tablePath virt ++ [i] ∈ privatePaths shared := mem_privatePaths_cons hv (le_refl 3)

theorem Confined.mapPage (hF : F.Lawful) (h : Confined F shared root s₀ s)
    (hd : InHand F shared root s₀ s d) (hlt : d < 65536) {virt : ℕ}
    (hv : tableIndex 39 virt ∉ shared) (flags : MapFlags) :
    ∃ r s', mapPage F s (root * 4096) virt (d * 4096) flags = (r, s') ∧
      Confined F shared root s₀ s' ∧
      (r = .ok () ∧ pool F shared root s' = insert d (pool F shared root s) ∧
          (graph F s'.mem).walk root (tablePath virt ++ [tableIndex 12 virt]) = some d ∨
        (∃ e, r = .error e) ∧ pool F shared root s' = pool F shared root s) := by
  unfold MitosOS.Paging.mapPage
  by_cases halign : virt &&& 0xFFF ≠ 0 ∨ d * 4096 &&& 0xFFF ≠ 0
  · rw [if_pos halign]
    exact ⟨_, s, rfl, h, Or.inr ⟨⟨_, rfl⟩, rfl⟩⟩
  rw [if_neg halign]
  have hpath := tablePath_mem hv (tableIndex 12 virt)
  have htable : [] ++ tablePath virt ∈ privatePaths shared :=
    privatePaths_prefixClosed shared _ _ hpath
  obtain ⟨r, s₁, hrun, h₁, hpool₁, hres⟩ :=
    h.nextTables hF flags.userAccessible (tablePath virt) htable rfl
  rw [hrun]
  cases r with
  | error e => exact ⟨_, s₁, rfl, h₁, Or.inr ⟨⟨e, rfl⟩, hpool₁⟩⟩
  | ok a =>
    obtain ⟨t, rfl, ht⟩ := hres a rfl
    dsimp only
    by_cases hp : F.isPresent (getEntry s₁.mem (t * 4096) (tableIndex 12 virt)) = true
    · rw [if_pos hp]
      exact ⟨_, s₁, rfl, h₁, Or.inr ⟨⟨_, rfl⟩, hpool₁⟩⟩
    · rw [if_neg hp]
      have hl : LeafSlot F shared root s₁ (tablePath virt) t (tableIndex 12 virt) :=
        ⟨hpath, rfl, ht⟩
      have hempty : graph F s₁.mem t (tableIndex 12 virt) = none := by
        rw [getEntry_frame] at hp
        rw [graph, Format.child, if_neg hp]
      obtain ⟨h', hpool, hwalk⟩ := h₁.attach (hd.congr hpool₁) hl hempty (hF.child_leaf hlt flags)
      refine ⟨_, _, rfl, h', Or.inl ⟨rfl, ?_, ?_⟩⟩
      · rw [hpool, hpool₁]
      · exact (hwalk _ hpath).trans (if_pos rfl)

theorem Confined.mapZeroed (hF : F.Lawful) (h : Confined F shared root s₀ s) (ht : Taken s s' d)
    {virt : ℕ} (hv : tableIndex 39 virt ∉ shared) (flags : MapFlags) :
    ∃ r s₂, MitosOS.Paging.mapPage F { s' with mem := zeroFrame s'.mem (d * 4096) } (root * 4096)
        virt (d * 4096) flags = (r, s₂) ∧
      Confined F shared root s₀ s₂ ∧
      (r = .ok () → pool F shared root s₂ = pool F shared root s ∧
        (graph F s₂.mem).walk root (tablePath virt ++ [tableIndex 12 virt]) = some d) := by
  obtain ⟨hd, h₁, hpool₁⟩ := h.alloc ht
  obtain ⟨h₂, hd₂, hpool₂⟩ := h₁.writeInHand hd fun x hx => zeroFrame_apply _ hx
  obtain ⟨r, s₂, hmap, h', hres⟩ := h₂.mapPage hF hd₂ ht.lt hv flags
  refine ⟨r, s₂, hmap, h', fun hr => ?_⟩
  rcases hres with ⟨-, hpool, hwalk⟩ | ⟨⟨e, rfl⟩, -⟩
  · refine ⟨?_, hwalk⟩
    rw [hpool, hpool₂, hpool₁]
  · exact Except.noConfusion rfl rfl (heq_of_eq hr)

theorem Private.translateAddr_eq (hF : F.Lawful) (h : Private F shared root s) {virt : ℕ}
    (hv : tableIndex 39 virt ∉ shared) :
    translateAddr F s.mem (root * 4096) virt =
      (represented F s.mem root (pageNumber virt)).map fun b => b.frame + virt % 4096 := by
  apply translateAddr_of_noBlock hF
  intro q t i hlen hq hw hp
  have hD := privatePaths_prefixClosed shared
  have hpath := hD (tablePath virt) _ (tablePath_mem hv (tableIndex 12 virt))
  exact h.noBlock q t i (hD.mem_of_isPrefix hpath hq) hlen hw hp

theorem Private.translateAddr (hF : F.Lawful) (h : Private F shared root s) {virt t : ℕ}
    (hv : tableIndex 39 virt ∉ shared) (ht : (graph F s.mem).walk root (tablePath virt) = some t)
    (hleaf : graph F s.mem t (tableIndex 12 virt) = some d) :
    translateAddr F s.mem (root * 4096) virt = some (d * 4096 + virt % 4096) := by
  obtain ⟨hp, ha⟩ := isPresent_of_graph_some hF hleaf
  rw [← pagePath_pageNumber] at ht
  rw [h.translateAddr_eq hF hv, represented_of_walk ht, leafIndex_pageNumber, Format.binding,
    if_pos hp, Option.map_some, ha]

/-- Nobody else's work reaches a process whose frames are left alone. -/
theorem Private.frame (h : Private F shared root s)
    (hmem : ∀ x, x / 4096 ∈ owned F shared s.mem root → s'.mem x = s.mem x)
    (hfree : ∀ t ∈ owned F shared s.mem root, ¬ s'.pmm.IsFree t) :
    Private F shared root s' ∧ owned F shared s'.mem root = owned F shared s.mem root := by
  have hsame : SameTables F shared root s.mem s'.mem := fun q t hq _ hqt x hx =>
    hmem x ⟨q, hq, hx ▸ hqt⟩
  exact ⟨h.sameTables hsame hfree, hsame.owned_eq⟩

end Steps

end MitosOS.Paging
