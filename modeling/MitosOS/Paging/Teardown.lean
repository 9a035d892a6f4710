import MitosOS.Paging.AddressSpace
import MitosOS.Paging.LiveTables
import MitosOS.Paging.UserAccess

/-! Making and tearing down process roots. -/
namespace MitosOS.Paging
open MitosOS.Lib MitosOS.Memory

/-- `active` is CR3 on x86_64 and `mmu::kernel_root()` on aarch64. Both roots are whole frames,
so copying them word by word is one block copy. -/
def createProcessPageTable (arch : Arch) (active : ℕ) (s : Machine) : Option ℕ × Machine :=
  match vmmAllocFrame s with
  | (none, s) => (none, s)
  | (some rootFrame, s) =>
    let m := zeroFrame s.mem rootFrame
    match arch with
    | .x86_64 =>
      (some rootFrame, { s with mem := m.copy rootFrame (alignDown active 0x1000) 4096 })
    | .aarch64 =>
      (some rootFrame, { s with mem := if active ≠ 0 then m.copy rootFrame active 4096 else m })

/-- Run `body` on what each present entry of a table points at, in index order. -/
def forPresent (F : Format) (indices : List (Fin 512)) (table : ℕ)
    (body : Machine → ℕ → Machine) (s : Machine) : Machine :=
  indices.foldl (fun s i =>
    let e := getEntry s.mem table i
    if F.isPresent e then body s (F.physicalAddress e) else s) s

/-- One nesting level of the teardown loops: first everything below, then the frame itself. -/
def freeTarget (F : Format) : ℕ → Machine → ℕ → Machine
  | 0, s, page => vmmFreeFrame s page
  | depth + 1, s, table =>
    vmmFreeFrame (forPresent F (List.finRange 512) table (freeTarget F depth) s) table

/-- Top-level index 0 is the kernel's and is skipped. -/
def freeProcessPageTable (F : Format) (s : Machine) (root : ℕ) : Machine :=
  vmmFreeFrame (forPresent F (List.finRange 512).tail root (freeTarget F 3) s) root

/-- The arguments of the `vmm_free_frame` calls below and at one target, in order. -/
def targetCalls (F : Format) (m : Memory) : ℕ → ℕ → List ℕ
  | 0, page => [page]
  | depth + 1, table =>
    ((List.finRange 512).flatMap fun i =>
      let e := getEntry m table i
      if F.isPresent e then targetCalls F m depth (F.physicalAddress e) else []) ++ [table]

/-- The arguments of all `vmm_free_frame` calls of a teardown, in order. -/
def freeCalls (F : Format) (m : Memory) (root : ℕ) : List ℕ :=
  ((List.finRange 512).tail.flatMap fun i =>
    let e := getEntry m root i
    if F.isPresent e then targetCalls F m 3 (F.physicalAddress e) else []) ++ [root]

section Calls
variable {F : Format}

theorem foldl_vmmFreeFrame_mem (calls : List ℕ) (s : Machine) :
    (calls.foldl vmmFreeFrame s).mem = s.mem := by
  induction calls generalizing s with
  | nil => rfl
  | cons a calls ih => rw [List.foldl_cons, ih, vmmFreeFrame_mem]

/-- Freeing writes no table, so the calls can be read off the memory before the first one. -/
theorem forPresent_eq {body : Machine → ℕ → Machine} (calls : Memory → ℕ → List ℕ)
    (hbody : ∀ s a, body s a = (calls s.mem a).foldl vmmFreeFrame s) (indices : List (Fin 512))
    (table : ℕ) (s : Machine) :
    forPresent F indices table body s = (indices.flatMap fun i =>
      let e := getEntry s.mem table i
      if F.isPresent e then calls s.mem (F.physicalAddress e) else []).foldl vmmFreeFrame s := by
  unfold forPresent
  induction indices generalizing s with
  | nil => rfl
  | cons i indices ih =>
    rw [List.foldl_cons, List.flatMap_cons, List.foldl_append]
    dsimp only
    split_ifs with hp
    · rw [hbody, ih, foldl_vmmFreeFrame_mem]
    · rw [ih, List.foldl_nil]

theorem freeTarget_eq (F : Format) (depth : ℕ) (s : Machine) (a : ℕ) :
    freeTarget F depth s a = (targetCalls F s.mem depth a).foldl vmmFreeFrame s := by
  induction depth generalizing s a with
  | zero => rfl
  | succ depth ih =>
    rw [freeTarget, forPresent_eq (fun m a => targetCalls F m depth a) ih, targetCalls,
      List.foldl_append]
    rfl

theorem freeProcessPageTable_eq (F : Format) (s : Machine) (root : ℕ) :
    freeProcessPageTable F s root = (freeCalls F s.mem root).foldl vmmFreeFrame s := by
  rw [freeProcessPageTable, forPresent_eq (fun m a => targetCalls F m 3 a)
    (freeTarget_eq F 3), freeCalls, List.foldl_append]
  rfl

private theorem mem_entryCalls (hF : F.Lawful) {m : Memory} {depth n a : ℕ} {i : Fin 512}
    (hdepth : ∀ n a, a ∈ targetCalls F m depth (n * 4096) ↔
      ∃ p f, p.length ≤ depth ∧ (graph F m).walk n p = some f ∧ a = f * 4096) :
    (a ∈ if F.isPresent (getEntry m (n * 4096) i) then
        targetCalls F m depth (F.physicalAddress (getEntry m (n * 4096) i)) else []) ↔
      ∃ p f, p.length ≤ depth ∧ (graph F m).walk n (i :: p) = some f ∧ a = f * 4096 := by
  rw [List.mem_ite_nil_right, getEntry_frame]
  constructor
  · rintro ⟨hp, ha⟩
    have hc := graph_of_isPresent hp
    rw [(isPresent_of_graph_some hF hc).2, hdepth] at ha
    obtain ⟨p, f, hlen, hw, rfl⟩ := ha
    refine ⟨p, f, hlen, ?_, rfl⟩
    rw [PathGraph.walk_cons, hc, Option.bind_some, hw]
  · rintro ⟨p, f, hlen, hw, rfl⟩
    rw [PathGraph.walk_cons] at hw
    obtain ⟨c, hc, hcf⟩ := Option.bind_eq_some_iff.mp hw
    obtain ⟨hp, haddr⟩ := isPresent_of_graph_some hF hc
    refine ⟨hp, ?_⟩
    rw [haddr, hdepth]
    exact ⟨p, f, hlen, hcf, rfl⟩

theorem mem_targetCalls (hF : F.Lawful) (m : Memory) (depth n a : ℕ) :
    a ∈ targetCalls F m depth (n * 4096) ↔
      ∃ p f, p.length ≤ depth ∧ (graph F m).walk n p = some f ∧ a = f * 4096 := by
  induction depth generalizing n a with
  | zero =>
    rw [targetCalls, List.mem_singleton]
    constructor
    · rintro rfl
      exact ⟨[], n, le_refl 0, rfl, rfl⟩
    · rintro ⟨p, f, hp, hw, rfl⟩
      obtain rfl : p = [] := List.length_eq_zero_iff.mp (by omega)
      rw [← Option.some.inj hw]
  | succ depth ih =>
    rw [targetCalls, List.mem_append, List.mem_singleton, List.mem_flatMap]
    simp only [mem_entryCalls hF ih]
    constructor
    · rintro (⟨i, -, p, f, hlen, hw, rfl⟩ | rfl)
      · exact ⟨i :: p, f, by rw [List.length_cons]; omega, hw, rfl⟩
      · exact ⟨[], n, Nat.zero_le _, rfl, rfl⟩
    · rintro ⟨p, f, hlen, hw, rfl⟩
      cases p with
      | nil =>
        right
        rw [← Option.some.inj hw]
      | cons i p =>
        rw [List.length_cons] at hlen
        exact Or.inl ⟨i, List.mem_finRange i, p, f, by omega, hw, rfl⟩

private theorem mem_tail_finRange (i : Fin 512) : i ∈ (List.finRange 512).tail ↔ i ≠ 0 := by
  rw [List.finRange_succ, List.tail_cons, List.mem_map]
  constructor
  · rintro ⟨j, -, rfl⟩
    exact Fin.succ_ne_zero j
  · intro hi
    exact ⟨i.pred hi, List.mem_finRange _, Fin.succ_pred i hi⟩

/-- A teardown frees the frames reached through the top-level entries 1..511. -/
theorem mem_freeCalls (hF : F.Lawful) (m : Memory) (n a : ℕ) :
    a ∈ freeCalls F m (n * 4096) ↔ ∃ f ∈ owned F {0} m n, a = f * 4096 := by
  rw [freeCalls, List.mem_append, List.mem_singleton, List.mem_flatMap]
  simp only [mem_entryCalls hF (mem_targetCalls hF m 3), mem_tail_finRange]
  constructor
  · rintro (⟨i, hi, p, f, hlen, hw, rfl⟩ | rfl)
    · exact ⟨f, ⟨i :: p, mem_privatePaths_cons hi hlen, hw⟩, rfl⟩
    · exact ⟨n, root_mem_owned F {0} m n, rfl⟩
  · rintro ⟨f, ⟨p, ⟨hlen, hhead⟩, hw⟩, rfl⟩
    cases p with
    | nil =>
      right
      rw [← Option.some.inj hw]
    | cons i p =>
      rw [List.length_cons] at hlen
      exact Or.inl ⟨i, hhead i rfl, p, f, by omega, hw, rfl⟩

/-- Paths of at most `depth` indices that start in `indices`. -/
private def pathsFrom (depth : ℕ) (indices : List (Fin 512)) : Set (List (Fin 512)) :=
  {p | p.length ≤ depth ∧ ∀ i ∈ p.head?, i ∈ indices}

private theorem cons_mem_pathsFrom {depth : ℕ} {indices : List (Fin 512)} {i : Fin 512}
    {p : List (Fin 512)} (hi : i ∈ indices) (hp : p.length ≤ depth) :
    i :: p ∈ pathsFrom (depth + 1) indices := by
  refine ⟨Nat.succ_le_succ hp, fun j hj => ?_⟩
  obtain rfl : i = j := by simpa using hj
  exact hi

private theorem tableCalls_nodup (hF : F.Lawful) {m : Memory} {n depth : ℕ}
    {indices : List (Fin 512)} (hindices : indices.Nodup)
    (hdepth : ∀ c, (graph F m).TreeOn c {p | p.length ≤ depth} →
      (targetCalls F m depth (c * 4096)).Nodup)
    (htree : (graph F m).TreeOn n (pathsFrom (depth + 1) indices)) :
    ((indices.flatMap fun i =>
      let e := getEntry m (n * 4096) i
      if F.isPresent e then targetCalls F m depth (F.physicalAddress e) else []) ++
        [n * 4096]).Nodup := by
  have hcalls := fun i a => mem_entryCalls (n := n) (a := a) (i := i) hF (mem_targetCalls hF m depth)
  rw [List.nodup_append, List.nodup_flatMap]
  refine ⟨⟨?_, ?_⟩, List.nodup_singleton _, ?_⟩
  · intro i hi
    dsimp only
    split_ifs with hp
    · rw [getEntry_frame] at hp ⊢
      have hc := graph_of_isPresent hp
      rw [(isPresent_of_graph_some hF hc).2]
      apply hdepth
      intro p hp q hq t hpt hqt
      have hcons : ∀ r, (graph F m).walk n (i :: r) = (graph F m).walk _ r := fun r => by
        rw [PathGraph.walk_cons, hc, Option.bind_some]
      have heq := htree _ (cons_mem_pathsFrom hi hp) _ (cons_mem_pathsFrom hi hq) t
        ((hcons p).trans hpt) ((hcons q).trans hqt)
      exact (List.cons.inj heq).2
    · exact List.nodup_nil
  · apply hindices.imp_of_mem
    intro i j hi hj hij a hai haj
    obtain ⟨p, f, hp, hpf, rfl⟩ := (hcalls i a).mp hai
    obtain ⟨q, g, hq, hqg, hfg⟩ := (hcalls j _).mp haj
    obtain rfl : f = g := by omega
    have heq := htree _ (cons_mem_pathsFrom hi hp) _ (cons_mem_pathsFrom hj hq) f hpf hqg
    exact hij (List.cons.inj heq).1
  · intro a ha b hb hab
    rw [List.mem_singleton] at hb
    obtain ⟨i, hi, hai⟩ := List.mem_flatMap.mp ha
    obtain ⟨p, f, hp, hpf, hfa⟩ := (hcalls i a).mp hai
    obtain rfl : f = n := by omega
    have hnil : [] ∈ pathsFrom (depth + 1) indices := ⟨Nat.zero_le _, by simp⟩
    exact absurd (htree _ (cons_mem_pathsFrom hi hp) [] hnil f hpf rfl) (by simp)

private theorem targetCalls_nodup (hF : F.Lawful) {m : Memory} (depth : ℕ) :
    ∀ n, (graph F m).TreeOn n {p | p.length ≤ depth} → (targetCalls F m depth (n * 4096)).Nodup := by
  induction depth with
  | zero =>
    intro n _
    exact List.nodup_singleton _
  | succ depth ih =>
    intro n htree
    apply tableCalls_nodup hF (List.nodup_finRange 512) ih
    intro p hp q hq
    exact htree p hp.1 q hq.1

theorem freeCalls_nodup (hF : F.Lawful) {s : Machine} {n : ℕ} (h : Private F {0} n s) :
    (freeCalls F s.mem (n * 4096)).Nodup := by
  apply tableCalls_nodup hF (List.nodup_finRange 512).tail (targetCalls_nodup hF 3)
  have hmem : ∀ p, p ∈ pathsFrom 4 (List.finRange 512).tail → p ∈ privatePaths {0} := by
    intro p hp
    exact ⟨hp.1, fun i hi => (mem_tail_finRange i).mp (hp.2 i hi)⟩
  intro p hp q hq
  exact h.tree p (hmem p hp) q (hmem q hq)

theorem isFree_foldl_vmmFreeFrame (calls : List ℕ) (s : Machine) (f : ℕ) :
    (calls.foldl vmmFreeFrame s).pmm.IsFree f ↔
      s.pmm.IsFree f ∨ (∃ a ∈ calls, f = a / 4096) ∧ f ≠ 0 ∧ f < 65536 := by
  induction calls generalizing s with
  | nil => simp
  | cons a calls ih =>
    rw [List.foldl_cons, ih, vmmFreeFrame, BitmapAllocator.isFree_freeFrame]
    simp only [List.mem_cons, exists_eq_or_imp]
    constructor
    · rintro ((h | ⟨rfl, h0, hlt⟩) | ⟨h, hrest⟩)
      · exact Or.inl h
      · exact Or.inr ⟨Or.inl rfl, h0, hlt⟩
      · exact Or.inr ⟨Or.inr h, hrest⟩
    · rintro (h | ⟨h | h, h0, hlt⟩)
      · exact Or.inl (Or.inl h)
      · exact Or.inl (Or.inr ⟨h, h ▸ h0, h ▸ hlt⟩)
      · exact Or.inr ⟨h, h0, hlt⟩

theorem freeProcessPageTable_mem (F : Format) (s : Machine) (root : ℕ) :
    (freeProcessPageTable F s root).mem = s.mem := by
  rw [freeProcessPageTable_eq, foldl_vmmFreeFrame_mem]

/-- A teardown puts exactly the private frames back into the pool, as far as the bitmap tracks
them. -/
theorem isFree_freeProcessPageTable (hF : F.Lawful) (s : Machine) (n f : ℕ) :
    (freeProcessPageTable F s (n * 4096)).pmm.IsFree f ↔
      s.pmm.IsFree f ∨ f ∈ owned F {0} s.mem n ∧ f ≠ 0 ∧ f < 65536 := by
  rw [freeProcessPageTable_eq, isFree_foldl_vmmFreeFrame]
  have hcalls : (∃ a ∈ freeCalls F s.mem (n * 4096), f = a / 4096) ↔
      f ∈ owned F {0} s.mem n := by
    simp only [mem_freeCalls hF]
    constructor
    · rintro ⟨a, ⟨g, hg, rfl⟩, rfl⟩
      rw [Nat.mul_div_cancel g (by decide)]
      exact hg
    · intro hf
      exact ⟨_, ⟨f, hf, rfl⟩, (Nat.mul_div_cancel f (by decide)).symm⟩
  rw [hcalls]

end Calls

section Creation
variable {F : Format} {arch : Arch} {active root : ℕ} {s s₁ : Machine}

/-- On aarch64 `mmu::init` has stored a frame address; CR3 may carry flag bits. -/
def HasKernelRoot (arch : Arch) (active : ℕ) : Prop :=
  arch = .aarch64 → active ≠ 0 ∧ active % 4096 = 0

/-- A fresh process root: one frame out of the pool that copies the top level of frame `K`. -/
structure Created (s s₁ : Machine) (K R : ℕ) : Prop where
  wasFree : s.pmm.IsFree R
  pmm : ∀ g, s₁.pmm.IsFree g ↔ s.pmm.IsFree g ∧ g ≠ R
  mem : ∀ x, x / 4096 ≠ R → s₁.mem x = s.mem x
  entries_eq : K ≠ R → ∀ i, entries s₁.mem R i = entries s.mem K i

private theorem entries_copy (m : Memory) {K R : ℕ} (hne : K ≠ R) (i : Fin 512) :
    entries ((zeroFrame m (R * 4096)).copy (R * 4096) (K * 4096) 4096) R i = entries m K i := by
  have hi := i.isLt
  unfold entries getEntry
  rw [Memory.load64_copy _ (by omega), ← getEntry, getEntry_frame, entries_zeroFrame, if_neg hne]
  rfl

private theorem copy_apply (m : Memory) {R x : ℕ} (src : ℕ) (hx : x / 4096 ≠ R) :
    ((zeroFrame m (R * 4096)).copy (R * 4096) src 4096) x = m x := by
  rw [Memory.copy_apply_of_disjoint _ (by omega), zeroFrame_apply _ hx]

theorem createProcessPageTable_some (hk : HasKernelRoot arch active)
    (h : createProcessPageTable arch active s = (some root, s₁)) :
    ∃ R, root = R * 4096 ∧ Created s s₁ (active / 4096) R := by
  rw [createProcessPageTable] at h
  rcases vmmAllocFrame_cases s with ⟨halloc, -⟩ | ⟨R, s₂, halloc, htaken⟩
  · rw [halloc] at h
    exact absurd (congrArg Prod.fst h) (by simp)
  · have halign : alignDown active 0x1000 = active / 4096 * 4096 := by
      have h1 := alignDown_mod active 0x1000
      have h2 := alignDown_div active 0x1000
      omega
    rw [halloc] at h
    refine ⟨R, ?_⟩
    cases arch with
    | x86_64 =>
      simp only [htaken.mem, halign, Prod.mk.injEq, Option.some.injEq] at h
      obtain ⟨rfl, rfl⟩ := h
      exact ⟨rfl, htaken.wasFree, htaken.pmm, fun x hx => copy_apply s.mem _ hx,
        fun hne i => entries_copy s.mem hne i⟩
    | aarch64 =>
      obtain ⟨hne0, hmod⟩ := hk rfl
      have hsrc : active = active / 4096 * 4096 := by omega
      simp only [htaken.mem, if_pos hne0, Prod.mk.injEq, Option.some.injEq] at h
      obtain ⟨rfl, rfl⟩ := h
      refine ⟨rfl, htaken.wasFree, htaken.pmm, fun x hx => copy_apply s.mem _ hx, fun hne i => ?_⟩
      dsimp only
      rw [hsrc, Nat.mul_div_cancel _ (by decide)]
      exact entries_copy s.mem hne i

/-- A fresh root has no private frames but itself when every present entry is shared. -/
theorem Created.isPrivate {K R : ℕ} (h : Created s s₁ K R) (hne : K ≠ R)
    (shared : Set (Fin 512)) (hshared : ∀ i, F.isPresent (entries s.mem K i) = true → i ∈ shared) :
    Private F shared R s₁ ∧ owned F shared s₁.mem R = {R} := by
  have hnone : ∀ i, i ∉ shared → graph F s₁.mem R i = none := by
    intro i hi
    rw [graph, h.entries_eq hne, Format.child, if_neg (fun hp => hi (hshared i hp))]
  exact private_of_empty hnone fun hfree => ((h.pmm R).mp hfree).2 rfl

end Creation

section OwnFrames
variable {F : Format} {R : ℕ} {s₁ s' : Machine} {A : Set ℕ}

/-- The states a process root can be brought to by successful `map_page` calls with freshly
allocated frames at user addresses. `A` collects the frames allocated for the process. -/
inductive Built (F : Format) (root : ℕ) (s₁ : Machine) : Set ℕ → Machine → Prop where
  | created : Built F root s₁ {root / 4096} s₁
  | mapped {A : Set ℕ} {s s₂ s₃ : Machine} {virt d : ℕ} (flags : MapFlags)
    (h : Built F root s₁ A s) (hlow : userSpaceBase ≤ virt) (hhigh : virt < 2 ^ 47)
    (halloc : vmmAllocFrame s = (some d, s₂))
    (hmap : mapPage F s₂ root virt d flags = (.ok (), s₃)) :
    Built F root s₁ (A ∪ {d / 4096} ∪ {f | s₂.pmm.IsFree f ∧ ¬ s₃.pmm.IsFree f}) s₃

theorem tableIndex_user_ne_zero {virt : ℕ} (hlow : userSpaceBase ≤ virt) (hhigh : virt < 2 ^ 48) :
    tableIndex 39 virt ∉ ({0} : Set (Fin 512)) := by
  intro h
  have hval := congrArg Fin.val (Set.mem_singleton_iff.mp h)
  rw [tableIndex_val] at hval
  have hbase : userSpaceBase = 2 ^ 39 := by decide
  rw [hbase] at hlow
  change virt / 2 ^ 39 % 512 = 0 at hval
  omega

/-- A process that only ever mapped fresh frames at user addresses owns nothing else, and all of
it came out of the pool. -/
theorem Built.confined (hF : F.Lawful) (h : Built F (R * 4096) s₁ A s')
    (hpriv : Private F {0} R s₁) (howned : owned F {0} s₁.mem R = {R}) :
    Confined F {0} R s₁ s' ∧ owned F {0} s'.mem R ⊆ A ∧ A ⊆ pool F {0} R s₁ := by
  induction h with
  | created =>
    refine ⟨hpriv.confined, ?_, ?_⟩
    · rw [howned, Nat.mul_div_cancel R (by decide)]
    · rw [Nat.mul_div_cancel R (by decide), Set.singleton_subset_iff]
      exact Or.inl (root_mem_owned F {0} s₁.mem R)
  | @mapped A s s₂ s₃ virt d flags _ hlow hhigh halloc hmap ih =>
    obtain ⟨hconf, hsub, hA⟩ := ih
    obtain ⟨f, rfl, htaken⟩ := vmmAllocFrame_taken halloc
    obtain ⟨hhand, hconf₂, -⟩ := hconf.alloc htaken
    have hv := tableIndex_user_ne_zero hlow (hhigh.trans (by decide))
    obtain ⟨r, s₃', hrun, hconf₃, hres⟩ := hconf₂.mapPage hF hhand htaken.lt hv flags
    obtain ⟨rfl, rfl⟩ := Prod.ext_iff.mp (hmap.symm.trans hrun)
    have hpool₃ : pool F {0} R s₃ = insert f (pool F {0} R s₂) := by
      rcases hres with ⟨-, hpool, -⟩ | ⟨⟨e, he⟩, -⟩
      · exact hpool
      · exact Except.noConfusion rfl rfl (heq_of_eq he)
    rw [Nat.mul_div_cancel f (by decide)]
    refine ⟨hconf₃, ?_, ?_⟩
    · intro t ht
      have hmem : t ∈ insert f (pool F {0} R s₂) := hpool₃ ▸ Or.inl ht
      rcases hmem with rfl | ht₂ | hfree
      · exact Or.inl (Or.inr rfl)
      · rw [htaken.mem] at ht₂
        exact Or.inl (Or.inl (hsub ht₂))
      · exact Or.inr ⟨hfree, hconf₃.isPrivate.reserved t ht⟩
    · rintro t ((ht | rfl) | ⟨hfree, -⟩)
      · exact hA ht
      · exact hhand.mem
      · exact hconf₂.pool_subset (Or.inr hfree)

/-- A teardown on x86_64 frees only what was allocated for the process, and no table of the
kernel, exactly when the kernel's root has no present entry besides entry 0. -/
theorem teardown_frees_own_iff (cr3 root : ℕ) (s s₁ : Machine)
    (hkernel : ∀ level t, LiveTable x86Format s.mem (cr3 / 4096) level t → ¬ s.pmm.IsFree t)
    (hcreate : createProcessPageTable .x86_64 cr3 s = (some root, s₁)) :
    (∀ A s', Built x86Format root s₁ A s' → ∀ a ∈ freeCalls x86Format s'.mem root,
        a / 4096 ∈ A ∧ ∀ level, ¬ LiveTable x86Format s.mem (cr3 / 4096) level (a / 4096)) ↔
      ∀ i : Fin 512, i ≠ 0 → x86Format.isPresent (entries s.mem (cr3 / 4096) i) = false := by
  have hF := x86Format_lawful
  obtain ⟨R, rfl, hnew⟩ := createProcessPageTable_some (fun h => Arch.noConfusion h) hcreate
  have hne : cr3 / 4096 ≠ R := by
    intro heq
    exact hkernel 0 _ .root (heq ▸ hnew.wasFree)
  constructor
  · intro h i hi
    by_contra hp
    rw [Bool.not_eq_false] at hp
    -- the copied entry sends the teardown into the kernel's own table
    have hc := graph_of_isPresent hp
    have hlive := LiveTable.root.child i (by decide) (Or.inl rfl) hc
    have hcopy : (graph x86Format s₁.mem).walk R [i] =
        some (x86Format.physicalAddress (entries s.mem (cr3 / 4096) i) / 4096) := by
      rw [PathGraph.walk_cons, graph, hnew.entries_eq hne]
      change (graph x86Format s.mem (cr3 / 4096) i).bind _ = _
      rw [hc]
      rfl
    have hmem := (mem_freeCalls hF s₁.mem R _).mpr
      ⟨_, ⟨[i], mem_privatePaths_cons hi (Nat.zero_le 3), hcopy⟩, rfl⟩
    have hbad := (h _ s₁ .created _ hmem).2 1
    rw [Nat.mul_div_cancel _ (by decide)] at hbad
    exact hbad hlive
  · intro h A s' hbuilt a ha
    obtain ⟨hpriv, howned⟩ := hnew.isPrivate (F := x86Format) hne {0} fun i hp => by
      by_contra hi
      rw [h i hi] at hp
      exact absurd hp (by decide)
    obtain ⟨-, hsub, hA⟩ := hbuilt.confined hF hpriv howned
    obtain ⟨f, hf, rfl⟩ := (mem_freeCalls hF s'.mem R a).mp ha
    rw [Nat.mul_div_cancel f (by decide)]
    refine ⟨hsub hf, fun level hlive => ?_⟩
    apply hkernel level f hlive
    rcases hA (hsub hf) with hown | hfree
    · rw [howned, Set.mem_singleton_iff] at hown
      exact hown ▸ hnew.wasFree
    · exact ((hnew.pmm f).mp hfree).1

/-- The tables of the Multiboot2 trampoline, with one frame in the pool. -/
def multibootMachine : Machine := ⟨multibootAlias, BitmapAllocator.new.freeFrame 0x100⟩

/-- A process root made from the trampoline's tables, before anything is mapped. -/
def multibootProcess : Machine := (createProcessPageTable .x86_64 0x1000 multibootMachine).2

/-- Tearing down a process that mapped nothing releases the PDPT behind PML4[256]. -/
theorem teardown_frees_kernel_table :
    createProcessPageTable .x86_64 0x1000 multibootMachine = (some 0x100000, multibootProcess) ∧
      Built x86Format 0x100000 multibootProcess {0x100} multibootProcess ∧
      0x2000 ∈ freeCalls x86Format multibootProcess.mem 0x100000 ∧
      LiveTable x86Format multibootMachine.mem 1 1 2 ∧ ¬ multibootProcess.pmm.IsFree 2 ∧
      (freeProcessPageTable x86Format multibootProcess 0x100000).pmm.IsFree 2 := by
  have hcreate : createProcessPageTable .x86_64 0x1000 multibootMachine =
      (some 0x100000, multibootProcess) := Prod.ext (by decide +kernel) rfl
  have hwalk : (graph x86Format multibootProcess.mem).walk 0x100 [256] = some 2 := by
    decide +kernel
  have howned : 2 ∈ owned x86Format {0} multibootProcess.mem 0x100 :=
    ⟨[256], mem_privatePaths_cons (by simp) (Nat.zero_le 3), hwalk⟩
  refine ⟨hcreate, .created, ?_, ?_, ?_, ?_⟩
  · exact (mem_freeCalls x86Format_lawful _ 0x100 _).mpr ⟨2, howned, rfl⟩
  · exact LiveTable.root.child 256 (by decide) (Or.inl rfl) (by decide +kernel)
  · decide +kernel
  · exact (isFree_freeProcessPageTable x86Format_lawful _ 0x100 2).mpr
      (Or.inr ⟨howned, by decide, by decide⟩)

/-- A kernel whose tables hang off entry 0: PML4, PDPT and a PD with one 2 MiB leaf. -/
def lowKernel : Memory :=
  setEntry (setEntry (setEntry (fun _ => 0) 0x3000 0 0x83#64) 0x2000 0 0x3003#64) 0x1000 0 0x2003#64

def lowKernelMachine : Machine := ⟨lowKernel, BitmapAllocator.new.freeRange 4 8⟩

theorem entries_lowKernel (t : ℕ) (i : Fin 512) :
    entries lowKernel t i = if t = 1 ∧ i = 0 then 0x2003#64 else if t = 2 ∧ i = 0 then 0x3003#64 else
      if t = 3 ∧ i = 0 then 0x83#64 else 0#64 := by
  rw [← entries_zero t i, ← entries_setEntry, ← entries_setEntry, ← entries_setEntry]
  rfl

theorem live_lowKernel {level t : ℕ} (h : LiveTable x86Format lowKernel 1 level t) : t < 4 := by
  induction h with
  | root => decide
  | @child level t i c _ _ _ hc _ =>
    have hchild : ∀ e, e = 0x2003#64 ∨ e = 0x3003#64 ∨ e = 0x83#64 ∨ e = 0#64 →
        ∀ c, x86Format.child e = some c → c < 4 := by
      rintro e (rfl | rfl | rfl | rfl) c hc
      · exact Option.some.inj hc ▸ by decide
      · exact Option.some.inj hc ▸ by decide
      · exact Option.some.inj hc ▸ by decide
      · exact absurd hc (by simp [show x86Format.child 0#64 = none by decide])
    apply hchild (entries lowKernel t i) _ c hc
    rw [entries_lowKernel]
    split_ifs <;> simp

/-- A process with one page under such a kernel gives back its page and its tables, and no table of
the kernel. -/
theorem teardown_frees_own_iff_onePage :
    ∃ s₁ A s', createProcessPageTable .x86_64 0x1000 lowKernelMachine = (some 0x4000, s₁) ∧
      Built x86Format 0x4000 s₁ A s' ∧
      translateAddr x86Format s'.mem 0x4000 0x8000000000 = some 0x5000 ∧
      0x5000 ∈ freeCalls x86Format s'.mem 0x4000 ∧ LiveTable x86Format lowKernel 1 1 2 ∧
      ∀ a ∈ freeCalls x86Format s'.mem 0x4000,
        a / 4096 ∈ A ∧ ∀ level, ¬ LiveTable x86Format lowKernel 1 level (a / 4096) := by
  have hcreate : createProcessPageTable .x86_64 0x1000 lowKernelMachine =
      (some 0x4000, (createProcessPageTable .x86_64 0x1000 lowKernelMachine).2) :=
    Prod.ext (by decide +kernel) rfl
  have hown := (teardown_frees_own_iff 0x1000 0x4000 lowKernelMachine _ (fun level t ht hfree => ?_)
    hcreate).mpr fun i hi => ?_
  · have hruns : ((vmmAllocFrame (createProcessPageTable .x86_64 0x1000 lowKernelMachine).2).1 =
          some 0x5000 ∧
        (mapPage x86Format (vmmAllocFrame (createProcessPageTable .x86_64 0x1000
          lowKernelMachine).2).2 0x4000 0x8000000000 0x5000 userFlags).1 = .ok ()) ∧
        translateAddr x86Format (mapPage x86Format (vmmAllocFrame (createProcessPageTable .x86_64
          0x1000 lowKernelMachine).2).2 0x4000 0x8000000000 0x5000 userFlags).2.mem 0x4000
          0x8000000000 = some 0x5000 ∧
        (graph x86Format (mapPage x86Format (vmmAllocFrame (createProcessPageTable .x86_64
          0x1000 lowKernelMachine).2).2 0x4000 0x8000000000 0x5000 userFlags).2.mem).walk 4
          [1, 0, 0, 0] = some 5 := by
      decide +kernel
    obtain ⟨⟨halloc, hmap⟩, htranslate, hwalk⟩ := hruns
    have hbuilt := (@Built.created x86Format 0x4000 _).mapped userFlags
      (by decide : userSpaceBase ≤ 0x8000000000) (by decide) (Prod.ext halloc rfl)
      (Prod.ext hmap rfl)
    refine ⟨_, _, _, hcreate, hbuilt, htranslate, ?_, ?_, hown _ _ hbuilt⟩
    · exact (mem_freeCalls x86Format_lawful _ 4 _).mpr
        ⟨5, ⟨[1, 0, 0, 0], mem_privatePaths_cons (by simp) (by decide), hwalk⟩, rfl⟩
    · exact LiveTable.root.child 0 (by decide) (Or.inl rfl) (by decide +kernel)
  · have hlow := live_lowKernel ht
    rcases (BitmapAllocator.isFree_freeRange _ 4 8 t).mp hfree with hnew | ⟨hle, -⟩
    · exact BitmapAllocator.not_isFree_new t hnew
    · omega
  · change x86Format.isPresent (entries lowKernel 1 i) = false
    rw [entries_lowKernel, if_neg (fun hcon => hi hcon.2), if_neg (fun hcon => hi hcon.2),
      if_neg (fun hcon => hi hcon.2)]
    decide

end OwnFrames

section Trampoline

theorem entries_multibootAlias (t : ℕ) (i : Fin 512) :
    entries multibootAlias t i = if t = 0 ∧ i = 0 then 0x7#64 else
      if t = 3 ∧ i = 0 then 0x83#64 else if t = 2 ∧ i = 0 then 0x3003#64 else
      if t = 1 ∧ i = 256 then 0x2003#64 else 0#64 := by
  rw [← entries_zero t i, ← entries_setEntry, ← entries_setEntry, ← entries_setEntry, ← entries_setEntry]
  rfl

theorem graph_multibootAlias {t c : ℕ} {i : Fin 512} (ht : t ≠ 0)
    (h : graph x86Format multibootAlias t i = some c) :
    t = 3 ∧ i = 0 ∨ t = 2 ∧ i = 0 ∧ c = 3 ∨ t = 1 ∧ i = 256 ∧ c = 2 := by
  rw [graph, entries_multibootAlias, if_neg (fun hcon => ht hcon.1)] at h
  split_ifs at h with h3 h2 h1
  · exact Or.inl h3
  · have hchild : x86Format.child 0x3003#64 = some 3 := by decide
    exact Or.inr (Or.inl ⟨h2.1, h2.2, Option.some.inj (h.symm.trans hchild)⟩)
  · have hchild : x86Format.child 0x2003#64 = some 2 := by decide
    exact Or.inr (Or.inr ⟨h1.1, h1.2, Option.some.inj (h.symm.trans hchild)⟩)
  · have hchild : x86Format.child 0#64 = none := by decide
    exact absurd (h.symm.trans hchild) (by simp)

theorem live_multibootAlias {k t : ℕ} (h : LiveTable x86Format multibootAlias 1 k t) :
    t = k + 1 ∧ k < 3 := by
  induction h with
  | root => exact ⟨rfl, by decide⟩
  | @child level t i c _ hl hblock hc ih =>
    obtain ⟨rfl, -⟩ := ih
    rcases graph_multibootAlias (Nat.succ_ne_zero level) hc with
      ⟨h3, rfl⟩ | ⟨h2, -, rfl⟩ | ⟨h1, -, rfl⟩
    · -- the only entry of the PD is the 2 MiB leaf
      have hhuge : x86Format.isBlock (entries multibootAlias 3 0) = true := by
        rw [entries_multibootAlias]
        decide
      obtain rfl : level = 2 := by omega
      rw [hhuge] at hblock
      exact absurd hblock (by decide)
    · exact ⟨by omega, by omega⟩
    · exact ⟨by omega, by omega⟩

end Trampoline

end MitosOS.Paging
