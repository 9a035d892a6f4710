import MitosOS.Kernel.Processes
import MitosOS.Paging.Dereference
import MitosOS.Paging.UserPages

/-! `sys_munmap` on tables that `map_page` built with frames of the allocator: a call is refused
without a trace, or it takes away exactly the pages of its range. -/
namespace MitosOS.Kernel
open MitosOS.Lib MitosOS.Memory MitosOS.Paging MitosOS.Tasks

/-- The private tables of a root, built by `map_page` with distinct frames of the allocator, in any
order with unmapping and with work elsewhere. `held` are the frames that were obtained and are
not mapped; mapping a frame gives it up, so that it is mapped once. -/
inductive OwnTables (F : Format) (shared : Set (Fin 512)) (root : ℕ) : Set ℕ → Machine → Prop where
  | created {s : Machine} (hempty : ∀ i, i ∉ shared → graph F s.mem root i = none)
    (hroot : ¬ s.pmm.IsFree root) (hpmm : s.pmm.Reachable) : OwnTables F shared root ∅ s
  | alloc {held : Set ℕ} {s s' : Machine} {d : ℕ} (h : OwnTables F shared root held s)
    (halloc : vmmAllocFrame s = (some (d * 4096), s')) : OwnTables F shared root (insert d held) s'
  | map {held : Set ℕ} {s s' : Machine} {d virt : ℕ} {flags : MapFlags}
    (h : OwnTables F shared root held s) (hd : d ∈ held) (hv : tableIndex 39 virt ∉ shared)
    (hmap : mapPage F s (root * 4096) virt (d * 4096) flags = (.ok (), s')) :
    OwnTables F shared root (held \ {d}) s'
  | mapFailed {held : Set ℕ} {s s' : Machine} {d virt : ℕ} {flags : MapFlags} {e : MemoryError}
    (h : OwnTables F shared root held s) (hd : d ∈ held) (hv : tableIndex 39 virt ∉ shared)
    (hmap : mapPage F s (root * 4096) virt (d * 4096) flags = (.error e, s')) :
    OwnTables F shared root held s'
  | unmap {held : Set ℕ} {s s' : Machine} {virt phys : ℕ} (h : OwnTables F shared root held s)
    (hv : tableIndex 39 virt ∉ shared)
    (htranslate : translateAddr F s.mem (root * 4096) virt = some phys)
    (hunmap : unmapPage F s (root * 4096) virt = (.ok (), s')) :
    OwnTables F shared root (insert (phys / 4096) held) s'
  | free {held : Set ℕ} {s : Machine} {d : ℕ} (h : OwnTables F shared root held s) (hd : d ∈ held) :
    OwnTables F shared root (held \ {d}) (vmmFreeFrame s (d * 4096))
  | other {held : Set ℕ} {s s' : Machine} (h : OwnTables F shared root held s)
    (hsame : SameTables F shared root s.mem s'.mem) (hpmm : s'.pmm.Reachable)
    (hkept : ∀ f, f ∈ held ∨ f ∈ owned F shared s.mem root → ¬ s'.pmm.IsFree f) :
    OwnTables F shared root held s'

/-- The part of a root that does not belong to the process: closed to user mode, and with tables
that are neither the process's nor free. -/
structure KernelHalf (F : Format) (shared : Set (Fin 512)) (root : ℕ) (s : Machine) : Prop where
  supervisor : ∀ a, tableIndex 39 a ∈ shared →
    pageIsUserAccessible F s.mem (root * 4096) a false = false
  template : ∀ i ∈ shared, ∃ K, entries s.mem root i = entries s.mem K i ∧
    ∀ level t, LiveTable F s.mem K (level + 1) t → t ∉ pool F shared root s

/-- The frames outside the pool that the process holds, and what the bitmap tracks. -/
structure Holding (F : Format) (shared : Set (Fin 512)) (root : ℕ) (held : Set ℕ) (s : Machine) :
    Prop where
  isPrivate : Private F shared root s
  apart : ∀ d ∈ held, d ∉ pool F shared root s
  tracked : ∀ f, f ∈ held ∨ f ∈ pool F shared root s → f ≠ root → f ≠ 0 ∧ f < 65536

/-- Address `a` names a page of the range. Addresses name pages by bits 12 to 47. -/
def InRange (ptr len a : ℕ) : Prop := ∃ b, ptr ≤ b ∧ b < ptr + len ∧ pageNumber b = pageNumber a

def visited (addr n : ℕ) : Set PageNumber := {p | ∃ k < n, p = pageNumber (addr + k * 0x1000)}

section Range
variable {ptr len a addr n : ℕ}

theorem visited_zero (addr : ℕ) : visited addr 0 = ∅ := by
  ext p
  simp [visited]

theorem visited_succ (addr n : ℕ) :
    visited addr (n + 1) = insert (pageNumber addr) (visited (addr + 0x1000) n) := by
  have hshift : ∀ k, addr + (k + 1) * 0x1000 = addr + 0x1000 + k * 0x1000 := fun k => by omega
  ext p
  constructor
  · rintro ⟨k, hk, rfl⟩
    cases k with
    | zero => exact Or.inl (by rw [Nat.zero_mul, Nat.add_zero])
    | succ k => exact Or.inr ⟨k, by omega, by rw [hshift]⟩
  · rintro (rfl | ⟨k, hk, rfl⟩)
    · exact ⟨0, by omega, by rw [Nat.zero_mul, Nat.add_zero]⟩
    · exact ⟨k + 1, by omega, by rw [hshift]⟩

theorem inRange_iff_visited (hptr : ptr % 4096 = 0) (hlen : len % 4096 = 0) :
    InRange ptr len a ↔ pageNumber a ∈ visited ptr (len / 0x1000) := by
  constructor
  · rintro ⟨b, hlow, hhigh, hpage⟩
    refine ⟨(b - ptr) / 4096, by omega, ?_⟩
    rw [← hpage]
    apply Fin.ext
    change b / 4096 % 2 ^ 36 = (ptr + (b - ptr) / 4096 * 0x1000) / 4096 % 2 ^ 36
    congr 1
    omega
  · rintro ⟨k, hk, hpage⟩
    exact ⟨ptr + k * 0x1000, by omega, by omega, hpage.symm⟩

theorem inRange_iff_of_lt (hptr : ptr % 4096 = 0) (hlen : len % 4096 = 0)
    (hend : ptr + len ≤ 2 ^ 48) (ha : a < 2 ^ 48) : InRange ptr len a ↔ ptr ≤ a ∧ a < ptr + len := by
  constructor
  · rintro ⟨b, hlow, hhigh, hpage⟩
    have hval : b / 4096 % 2 ^ 36 = a / 4096 % 2 ^ 36 := congrArg Fin.val hpage
    omega
  · exact fun h => ⟨a, h.1, h.2, rfl⟩

end Range

section Built
variable {F : Format} {shared : Set (Fin 512)} {root d virt phys : ℕ} {held held' : Set ℕ}
  {s s' : Machine} {flags : MapFlags}

theorem Holding.move (h : Holding F shared root held s) (hprivate : Private F shared root s')
    (hapart : ∀ f ∈ held', f ∉ pool F shared root s')
    (hsub : ∀ f, f ∈ held' ∨ f ∈ pool F shared root s' → f ∈ held ∨ f ∈ pool F shared root s) :
    Holding F shared root held' s' where
  isPrivate := hprivate
  apart := hapart
  tracked f hf := h.tracked f (hsub f hf)

theorem Holding.ne_root (h : Holding F shared root held s) (hd : d ∈ held) : d ≠ root := by
  rintro rfl
  exact h.apart d hd (Or.inl (root_mem_owned F shared s.mem d))

theorem Holding.inHand (h : Holding F shared root held s) (hd : d ∈ held) :
    Confined F shared root (vmmFreeFrame s (d * 4096)) s ∧
      InHand F shared root (vmmFreeFrame s (d * 4096)) s d ∧
      pool F shared root (vmmFreeFrame s (d * 4096)) = insert d (pool F shared root s) := by
  obtain ⟨hne, hlt⟩ := h.tracked d (Or.inl hd) (h.ne_root hd)
  have hpool : pool F shared root (vmmFreeFrame s (d * 4096)) = insert d (pool F shared root s) :=
    pool_vmmFreeFrame hne hlt
  refine ⟨⟨h.isPrivate, ?_, fun _ _ => rfl, fun _ _ => rfl⟩, ⟨?_, h.apart d hd⟩, hpool⟩
  · rw [hpool]
    exact Set.subset_insert _ _
  · rw [hpool]
    exact Set.mem_insert _ _

theorem Holding.created (hempty : ∀ i, i ∉ shared → graph F s.mem root i = none)
    (hroot : ¬ s.pmm.IsFree root) (hpmm : s.pmm.Reachable) : Holding F shared root ∅ s := by
  obtain ⟨hprivate, howned⟩ := private_of_empty hempty hroot
  refine ⟨hprivate, fun d hd => absurd hd (Set.notMem_empty d), ?_⟩
  rintro f (hf | hf | hf) hne
  · exact absurd hf (Set.notMem_empty f)
  · rw [howned] at hf
    exact absurd hf hne
  · refine ⟨?_, hf.lt⟩
    rintro rfl
    exact hpmm.not_isFree_zero hf

theorem Holding.alloc (h : Holding F shared root held s) (ht : Taken s s' d) :
    Holding F shared root (insert d held) s' := by
  obtain ⟨hd, h', hpool⟩ := h.isPrivate.confined.alloc ht
  have hsub : pool F shared root s' ⊆ pool F shared root s := h'.pool_subset
  apply h.move h'.isPrivate
  · rintro f (rfl | hf)
    · exact hd.notMem
    · exact fun hf' => h.apart f hf (hsub hf')
  · rintro f ((rfl | hf) | hf)
    · exact Or.inr hd.mem
    · exact Or.inl hf
    · exact Or.inr (hsub hf)

theorem Holding.map (hF : F.Lawful) (h : Holding F shared root held s) (hd : d ∈ held)
    (hv : tableIndex 39 virt ∉ shared)
    (hmap : mapPage F s (root * 4096) virt (d * 4096) flags = (.ok (), s')) :
    Holding F shared root (held \ {d}) s' := by
  obtain ⟨hconf, hin, -⟩ := h.inHand hd
  obtain ⟨-, hlt⟩ := h.tracked d (Or.inl hd) (h.ne_root hd)
  obtain ⟨r, s₂, hrun, h', hres⟩ := hconf.mapPage hF hin hlt hv flags
  obtain ⟨rfl, rfl⟩ := Prod.mk.inj (hrun.symm.trans hmap)
  rcases hres with ⟨-, hpool, -⟩ | ⟨⟨e, he⟩, -⟩
  · apply h.move h'.isPrivate
    · rintro f ⟨hf, hne⟩ hf'
      rw [hpool] at hf'
      exact h.apart f hf (hf'.resolve_left hne)
    · rw [hpool]
      rintro f (hf | rfl | hf)
      · exact Or.inl hf.1
      · exact Or.inl hd
      · exact Or.inr hf
  · exact absurd he (by simp)

theorem Holding.mapFailed (hF : F.Lawful) (h : Holding F shared root held s) (hd : d ∈ held)
    (hv : tableIndex 39 virt ∉ shared) {e : MemoryError}
    (hmap : mapPage F s (root * 4096) virt (d * 4096) flags = (.error e, s')) :
    Holding F shared root held s' := by
  obtain ⟨hconf, hin, -⟩ := h.inHand hd
  obtain ⟨-, hlt⟩ := h.tracked d (Or.inl hd) (h.ne_root hd)
  obtain ⟨r, s₂, hrun, h', hres⟩ := hconf.mapPage hF hin hlt hv flags
  obtain ⟨rfl, rfl⟩ := Prod.mk.inj (hrun.symm.trans hmap)
  rcases hres with ⟨hok, -, -⟩ | ⟨-, hpool⟩
  · exact absurd hok (by simp)
  · apply h.move h'.isPrivate
    · rw [hpool]
      exact h.apart
    · rw [hpool]
      exact fun f hf => hf

theorem unmapPage_ok (hF : F.Lawful) (h : Private F shared root s)
    (hv : tableIndex 39 virt ∉ shared)
    (htranslate : translateAddr F s.mem (root * 4096) virt = some phys)
    (hunmap : unmapPage F s (root * 4096) virt = (.ok (), s')) :
    ∃ t, LeafSlot F shared root s (tablePath virt) t (tableIndex 12 virt) ∧
      graph F s.mem t (tableIndex 12 virt) = some (phys / 4096) ∧
      s' = { s with mem := setEntry s.mem (t * 4096) (tableIndex 12 virt) 0#64 } := by
  rw [unmapPage, walkTables_eq hF] at hunmap
  split_ifs at hunmap with halign
  · exact absurd (congrArg Prod.fst hunmap) (by simp)
  cases ht : (graph F s.mem).walk root (tablePath virt) with
  | none =>
    rw [ht] at hunmap
    exact absurd (congrArg Prod.fst hunmap) (by simp)
  | some t =>
    rw [ht, Option.map_some] at hunmap
    dsimp only at hunmap
    split_ifs at hunmap with hp
    · have hleaf := graph_of_isPresent (getEntry_frame s.mem t _ ▸ hp)
      have hphys := h.translateAddr hF hv ht hleaf
      rw [htranslate] at hphys
      refine ⟨t, ⟨tablePath_mem hv _, rfl, ht⟩, ?_, (congrArg Prod.snd hunmap).symm⟩
      rw [hleaf]
      congr 1
      have := Option.some.inj hphys
      omega
    · exact absurd (congrArg Prod.fst hunmap) (by simp)

theorem Holding.unmap (hF : F.Lawful) (h : Holding F shared root held s)
    (hv : tableIndex 39 virt ∉ shared)
    (htranslate : translateAddr F s.mem (root * 4096) virt = some phys)
    (hunmap : unmapPage F s (root * 4096) virt = (.ok (), s')) :
    Holding F shared root (insert (phys / 4096) held) s' := by
  obtain ⟨t, hl, hleaf, rfl⟩ := unmapPage_ok hF h.isPrivate hv htranslate hunmap
  obtain ⟨h', hin, hpool, -⟩ := h.isPrivate.confined.detach hF hl hleaf
  apply h.move h'.isPrivate
  · rw [hpool]
    rintro f (rfl | hf) ⟨hf', hne⟩
    · exact hne rfl
    · exact h.apart f hf hf'
  · rw [hpool]
    rintro f ((rfl | hf) | ⟨hf, -⟩)
    · exact Or.inr hin.mem
    · exact Or.inl hf
    · exact Or.inr hf

theorem Holding.free (h : Holding F shared root held s) (hd : d ∈ held) :
    Holding F shared root (held \ {d}) (vmmFreeFrame s (d * 4096)) := by
  obtain ⟨hconf, hin, hpool⟩ := h.inHand hd
  apply h.move (hconf.free hin).1.isPrivate
  · rw [hpool]
    rintro f ⟨hf, hne⟩ (rfl | hf')
    · exact hne rfl
    · exact h.apart f hf hf'
  · rw [hpool]
    rintro f (hf | rfl | hf)
    · exact Or.inl hf.1
    · exact Or.inl hd
    · exact Or.inr hf

theorem Holding.other (h : Holding F shared root held s)
    (hsame : SameTables F shared root s.mem s'.mem) (hpmm : s'.pmm.Reachable)
    (hkept : ∀ f, f ∈ held ∨ f ∈ owned F shared s.mem root → ¬ s'.pmm.IsFree f) :
    Holding F shared root held s' := by
  refine ⟨h.isPrivate.sameTables hsame fun t ht => hkept t (Or.inr ht), ?_, ?_⟩
  · rintro d hd (hown | hfree)
    · rw [hsame.owned_eq] at hown
      exact h.apart d hd (Or.inl hown)
    · exact hkept d (Or.inl hd) hfree
  · rintro f (hf | hf | hf) hne
    · exact h.tracked f (Or.inl hf) hne
    · rw [hsame.owned_eq] at hf
      exact h.tracked f (Or.inr (Or.inl hf)) hne
    · refine ⟨?_, hf.lt⟩
      rintro rfl
      exact hpmm.not_isFree_zero hf

theorem OwnTables.holding (hF : F.Lawful) (h : OwnTables F shared root held s) :
    Holding F shared root held s := by
  induction h with
  | created hempty hroot hpmm => exact .created hempty hroot hpmm
  | @alloc held s s' d _ halloc ih =>
    obtain ⟨f, hframe, htaken⟩ := vmmAllocFrame_taken halloc
    obtain rfl : d = f := by omega
    exact ih.alloc htaken
  | map _ hd hv hmap ih => exact ih.map hF hd hv hmap
  | mapFailed _ hd hv hmap ih => exact ih.mapFailed hF hd hv hmap
  | unmap _ hv htranslate hunmap ih => exact ih.unmap hF hv htranslate hunmap
  | free _ hd ih => exact ih.free hd
  | other _ hsame hpmm hkept ih => exact ih.other hsame hpmm hkept

end Built

section Loop
variable {F : Format} {shared : Set (Fin 512)} {root : ℕ} {s₀ s : Machine}

theorem munmapPage_represented (hF : F.Lawful) (h : Private F shared root s) {addr : ℕ}
    (haligned : addr % 4096 = 0) (hv : tableIndex 39 addr ∉ shared) :
    (∀ p, topIndex p ∉ shared → represented F (munmapPage F (root * 4096) addr s).mem root p =
      if p = pageNumber addr then none else represented F s.mem root p) ∧
    ∀ f, f ∈ munmapPageFrees F (root * 4096) addr s ↔
      ∃ b, represented F s.mem root (pageNumber addr) = some b ∧ b.frame = f * 4096 := by
  have hpv : topIndex (pageNumber addr) ∉ shared := topIndex_pageNumber addr ▸ hv
  rcases munmapPage_cases hF h hv with ⟨heq, hfrees, hnone⟩ | ⟨t, d, hl, hleaf, heq, hfrees⟩
  · rw [heq, hfrees]
    refine ⟨fun p _ => ?_, fun f => ?_⟩
    · split_ifs with hp
      · rw [hp, hnone haligned]
      · rfl
    · rw [hnone haligned]
      simp
  · have ht : (graph F s.mem).walk root (pagePath (pageNumber addr)) = some t := by
      rw [pagePath_pageNumber, hl.walk]
    obtain ⟨hp, haddr⟩ := isPresent_of_graph_some hF hleaf
    rw [heq, hfrees]
    refine ⟨fun p hpp => ?_, fun f => ?_⟩
    · have hset := h.represented_setLeaf hpv ht 0#64 hpp
      rw [leafIndex_pageNumber, binding_eq_none.mpr hF.isPresent_zero] at hset
      exact hset
    · rw [represented_of_walk ht, leafIndex_pageNumber, Format.binding, if_pos hp, haddr,
        List.mem_singleton]
      constructor
      · rintro rfl
        exact ⟨_, rfl, rfl⟩
      · rintro ⟨b, hb, hframe⟩
        rw [← Option.some.inj hb] at hframe
        dsimp only at hframe
        omega

theorem munmapPages_represented (hF : F.Lawful) (n : ℕ) :
    ∀ {addr : ℕ} {s : Machine}, Confined F shared root s₀ s → addr % 4096 = 0 →
    (∀ k < n, tableIndex 39 (addr + k * 0x1000) ∉ shared) →
    (∀ p, topIndex p ∉ shared →
      (p ∈ visited addr n → represented F (munmapPages F (root * 4096) n addr s).mem root p = none) ∧
      (p ∉ visited addr n → represented F (munmapPages F (root * 4096) n addr s).mem root p =
        represented F s.mem root p)) ∧
    ∀ f, f ∈ munmapPagesFrees F (root * 4096) n addr s ↔
      ∃ p ∈ visited addr n, ∃ b, represented F s.mem root p = some b ∧ b.frame = f * 4096 := by
  induction n with
  | zero =>
    intro addr s _ _ _
    rw [visited_zero]
    exact ⟨fun p _ => ⟨fun hp => absurd hp (Set.notMem_empty p), fun _ => rfl⟩,
      fun f => by simp [munmapPagesFrees, munmapPagesLogged]⟩
  | succ n ih =>
    intro addr s h haligned hpages
    obtain ⟨hv, hrest⟩ := private_pages_succ hpages
    obtain ⟨hfirst, hfrees⟩ := munmapPage_represented hF h.isPrivate haligned hv
    obtain ⟨hnext, hfrees'⟩ := ih (munmapPage_confined hF h hv) (by omega) hrest
    rw [visited_succ]
    refine ⟨fun p hp => ?_, fun f => ?_⟩
    · rw [munmapPages_succ]
      by_cases hmem : p ∈ visited (addr + 0x1000) n
      · exact ⟨fun _ => (hnext p hp).1 hmem, fun hnot => absurd (Or.inr hmem) hnot⟩
      · rw [(hnext p hp).2 hmem, hfirst p hp]
        constructor
        · rintro (rfl | hcon)
          · rw [if_pos rfl]
          · exact absurd hcon hmem
        · intro hnot
          rw [if_neg fun heq => hnot (Or.inl heq)]
    · have hprivate : ∀ p ∈ visited (addr + 0x1000) n, topIndex p ∉ shared := by
        rintro p ⟨k, hk, rfl⟩
        rw [topIndex_pageNumber]
        exact hrest k hk
      rw [munmapPagesFrees_succ, List.mem_append, hfrees, hfrees', Set.exists_mem_insert]
      -- a page that the range names twice is gone the second time
      constructor
      · rintro (hb | ⟨p, hp, b, hb, hframe⟩)
        · exact Or.inl hb
        · rw [hfirst p (hprivate p hp)] at hb
          split_ifs at hb
          exact Or.inr ⟨p, hp, b, hb, hframe⟩
      · rintro (hb | ⟨p, hp, b, hb, hframe⟩)
        · exact Or.inl hb
        · by_cases heq : p = pageNumber addr
          · exact Or.inl ⟨b, heq ▸ hb, hframe⟩
          · refine Or.inr ⟨p, hp, b, ?_, hframe⟩
            rw [hfirst p (hprivate p hp), if_neg heq, hb]

end Loop

section Exact
variable {F : Format} {shared : Set (Fin 512)} {root : ℕ} {s s' : Machine}

theorem tableIndex_of_inRange {ptr len a : ℕ} (hptr : ptr % 4096 = 0) (hlen : len % 4096 = 0)
    (hpages : ∀ k < len / 0x1000, tableIndex 39 (ptr + k * 0x1000) ∉ shared)
    (ha : InRange ptr len a) : tableIndex 39 a ∉ shared := by
  obtain ⟨k, hk, hpage⟩ := (inRange_iff_visited hptr hlen).mp ha
  rw [← topIndex_pageNumber, hpage, topIndex_pageNumber]
  exact hpages k hk

/-- Work confined to the process does not show in the kernel's half. -/
theorem KernelHalf.translateAddr_eq (hF : F.Lawful) (hkernel : KernelHalf F shared root s)
    (h : Confined F shared root s s') {a : ℕ} (ha : tableIndex 39 a ∈ shared) :
    translateAddr F s'.mem (root * 4096) a = translateAddr F s.mem (root * 4096) a := by
  obtain ⟨K, hentry, hlive⟩ := hkernel.template _ ha
  have hbefore := (translation_of_live hF hentry fun _ _ _ _ => rfl).1
  have hentry' : entries s'.mem root (tableIndex 39 a) = entries s.mem K (tableIndex 39 a) := by
    rw [h.sharedEntries _ ha, hentry]
  have htables : ∀ level t, LiveTable F s.mem K (level + 1) t →
      ∀ i, entries s'.mem t i = entries s.mem t i := by
    intro level t ht
    apply entries_congr
    rintro x rfl
    exact h.outside x (hlive level _ ht)
  rw [(translation_of_live hF hentry' htables).1, hbefore]

/-- The frames bound to the visited pages are the ones that the addresses of the range translate
into. -/
theorem frames_visited_iff (hF : F.Lawful) (h : Private F shared root s) {ptr len : ℕ}
    (hptr : ptr % 4096 = 0) (hlen : len % 4096 = 0)
    (hpages : ∀ k < len / 0x1000, tableIndex 39 (ptr + k * 0x1000) ∉ shared)
    (hmapped : ∀ a, InRange ptr len a → ∃ b, represented F s.mem root (pageNumber a) = some b)
    {f : ℕ} :
    (∃ p ∈ visited ptr (len / 0x1000), ∃ b,
      represented F s.mem root p = some b ∧ b.frame = f * 4096) ↔
    ∃ a phys, InRange ptr len a ∧ translateAddr F s.mem (root * 4096) a = some phys ∧
      phys / 4096 = f := by
  constructor
  · rintro ⟨p, ⟨k, hk, rfl⟩, b, hb, hframe⟩
    refine ⟨ptr + k * 0x1000, b.frame + (ptr + k * 0x1000) % 4096, ?_, ?_, by omega⟩
    · exact ⟨_, by omega, by omega, rfl⟩
    · rw [h.translateAddr_eq hF (hpages k hk), hb, Option.map_some]
  · rintro ⟨a, phys, ha, hphys, hf⟩
    obtain ⟨b, hb⟩ := hmapped a ha
    obtain ⟨-, d, -, -, -, hframe⟩ := exists_of_represented hF hb
    rw [h.translateAddr_eq hF (tableIndex_of_inRange hptr hlen hpages ha), hb,
      Option.map_some] at hphys
    have hdiv : (d * 4096 + a % 4096) / 4096 = d := by
      rw [Nat.mul_comm, Nat.mul_add_div (by decide),
        Nat.div_eq_of_lt (Nat.mod_lt _ (by decide)), Nat.add_zero]
    refine ⟨_, (inRange_iff_visited hptr hlen).mp ha, b, hb, ?_⟩
    rw [← hf, ← Option.some.inj hphys, hframe, hdiv]

/-- `sys_munmap` is all or nothing and exact: it refuses and changes nothing, or the pages of the
range, all of them mapped before, lose their translation, their frames and no others go back to
the allocator, each of them once, and every other translation stays. -/
theorem sysMunmap_exact (arch : Arch) (shared : Set (Fin 512)) (root : ℕ) (held : Set ℕ)
    (s : Machine) (hbuilt : OwnTables arch.format shared root held s)
    (hkernel : KernelHalf arch.format shared root s) (caller : Task)
    (hroot : caller.memoryRoot = root * 4096) (ptr len : ℕ) :
    sysMunmap arch.format caller ptr len s = (2 ^ 64 - 1, s) ∧
      sysMunmapFrees arch.format caller ptr len s = [] ∨
    ∃ s', sysMunmap arch.format caller ptr len s = (0, s') ∧
      (∀ a, InRange ptr len a →
        (translateAddr arch.format s.mem (root * 4096) a).isSome = true ∧
          translateAddr arch.format s'.mem (root * 4096) a = none) ∧
      (∀ a, ¬ InRange ptr len a → translateAddr arch.format s'.mem (root * 4096) a =
        translateAddr arch.format s.mem (root * 4096) a) ∧
      (∀ f, f ∈ sysMunmapFrees arch.format caller ptr len s ↔ ∃ a phys, InRange ptr len a ∧
        translateAddr arch.format s.mem (root * 4096) a = some phys ∧ phys / 4096 = f) ∧
      Returned s s' (sysMunmapFrees arch.format caller ptr len s) ∧
      (ptr + len ≤ 2 ^ 48 → ∀ a < 2 ^ 48, InRange ptr len a ↔ ptr ≤ a ∧ a < ptr + len) := by
  have hF := arch.format_lawful
  have h := hbuilt.holding hF
  rcases sysMunmap_cases hkernel.supervisor hroot ptr len with
    ⟨hrefused, hnone⟩ | ⟨⟨hptr, hpos, hlen, hvalid⟩, hpages, hrun, hfrees⟩
  · exact Or.inl ⟨hrefused, hnone⟩
  right
  have hconf := munmapPages_confined hF _ h.isPrivate.confined hpages
  obtain ⟨hreturned, -⟩ := munmapPages_returns hF _ h.isPrivate.confined
    (fun f hf => h.tracked f (Or.inr hf)) hpages
  obtain ⟨hrep, hframes⟩ := munmapPages_represented hF _ h.isPrivate.confined hptr hpages
  have hprivate : ∀ a, InRange ptr len a → tableIndex 39 a ∉ shared :=
    fun a ha => tableIndex_of_inRange hptr hlen hpages ha
  have hmapped : ∀ a, InRange ptr len a →
      ∃ b, represented arch.format s.mem root (pageNumber a) = some b := by
    rintro a ⟨b, hlow, hhigh, hpage⟩
    obtain ⟨-, -, hall⟩ := (validateUserRange_eq_true hpos).mp hvalid
    rw [← hpage]
    exact represented_of_accessible hF (hall b hlow hhigh)
  refine ⟨_, hrun, fun a ha => ⟨?_, ?_⟩, fun a ha => ?_, fun f => ?_, hfrees ▸ hreturned,
    fun hend a ha => inRange_iff_of_lt hptr hlen hend ha⟩
  · obtain ⟨b, hb⟩ := hmapped a ha
    rw [h.isPrivate.translateAddr_eq hF (hprivate a ha), hb]
    rfl
  · have hgone := (hrep _ (topIndex_pageNumber a ▸ hprivate a ha)).1
      ((inRange_iff_visited hptr hlen).mp ha)
    rw [hconf.isPrivate.translateAddr_eq hF (hprivate a ha), hgone, Option.map_none]
  · by_cases hv : tableIndex 39 a ∈ shared
    · exact hkernel.translateAddr_eq hF hconf hv
    · have hkept := (hrep _ (topIndex_pageNumber a ▸ hv)).2
        fun hin => ha ((inRange_iff_visited hptr hlen).mpr hin)
      rw [hconf.isPrivate.translateAddr_eq hF hv, h.isPrivate.translateAddr_eq hF hv, hkept]
  · rw [hfrees, hframes]
    exact frames_visited_iff hF h.isPrivate hptr hlen hpages hmapped

end Exact

section ThreePages

/-- A frame of the allocator mapped into root 1. -/
def withPage (virt d : ℕ) (s : Machine) : Machine :=
  (mapPage x86Format (vmmAllocFrame s).2 (1 * 4096) virt (d * 4096) userFlags).2

def threePages : Machine :=
  withPage 0x8000002000 0x105 (withPage 0x8000001000 0x104 (withPage 0x8000000000 0x100 zeroedMachine))

def ownPagesTask : Task := { Task.empty with memoryRoot := 1 * 4096, isRing3 := true }

theorem OwnTables.withPage {held : Set ℕ} {s : Machine} {virt d : ℕ}
    (h : OwnTables x86Format {0} 1 held s) (hv : tableIndex 39 virt ≠ 0)
    (hruns : (vmmAllocFrame s).1 = some (d * 4096) ∧
      (mapPage x86Format (vmmAllocFrame s).2 (1 * 4096) virt (d * 4096) userFlags).1 = .ok ()) :
    OwnTables x86Format {0} 1 (insert d held \ {d}) (withPage virt d s) :=
  (h.alloc (Prod.ext hruns.1 rfl)).map (Set.mem_insert _ _) hv (Prod.ext hruns.2 rfl)

theorem threePages_ownTables : ∃ held, OwnTables x86Format {0} 1 held threePages := by
  have hcreated : OwnTables x86Format {0} 1 ∅ zeroedMachine := by
    refine .created (fun i _ => ?_) zeroedMachine_zeroedRoot.reserved
      (BitmapAllocator.Reachable.new.freeRange 0x100 8)
    rw [graph, zeroedMachine_zeroedRoot.entries_eq]
    decide
  exact ⟨_, ((hcreated.withPage (by decide) (by decide +kernel)).withPage (by decide)
    (by decide +kernel)).withPage (by decide) (by decide +kernel)⟩

theorem threePages_kernelHalf : KernelHalf x86Format {0} 1 threePages := by
  have hzero : entries threePages.mem 1 0 = 0#64 := by decide +kernel
  have htemplate : ∀ i, entries threePages.mem 2 i = 0#64 := by decide +kernel
  constructor
  · intro a ha
    unfold pageIsUserAccessible
    rw [walkTables_eq x86Format_lawful, tablePath, Set.mem_singleton_iff.mp ha, PathGraph.walk_cons,
      graph, hzero]
    rfl
  · intro i hi
    rw [Set.mem_singleton_iff.mp hi]
    refine ⟨2, hzero.trans (htemplate 0).symm, fun level t ht => ?_⟩
    have hempty : ∀ i, graph x86Format threePages.mem 2 i = none := by
      intro i
      rw [graph, htemplate]
      decide
    exact absurd (ht.eq_root hempty).1 (Nat.succ_ne_zero level)

/-- The first two of three pages are unmapped. Their frames go back, and the third page stays. -/
theorem sysMunmap_exact_threePages :
    ∃ s', sysMunmap x86Format ownPagesTask 0x8000000000 0x2000 threePages = (0, s') ∧
      translateAddr x86Format s'.mem (1 * 4096) 0x8000000000 = none ∧
      translateAddr x86Format s'.mem (1 * 4096) 0x8000001000 = none ∧
      translateAddr x86Format s'.mem (1 * 4096) 0x8000002000 = some 0x105000 ∧
      s'.pmm.IsFree 0x100 ∧ s'.pmm.IsFree 0x104 := by
  have hzero : (sysMunmap x86Format ownPagesTask 0x8000000000 0x2000 threePages).1 = 0 := by
    decide +kernel
  have htranslate : translateAddr x86Format threePages.mem (1 * 4096) 0x8000000000 = some 0x100000 ∧
      translateAddr x86Format threePages.mem (1 * 4096) 0x8000001000 = some 0x104000 ∧
      translateAddr x86Format threePages.mem (1 * 4096) 0x8000002000 = some 0x105000 := by
    decide +kernel
  obtain ⟨hfirst, hsecond, hthird⟩ := htranslate
  obtain ⟨held, hown⟩ := threePages_ownTables
  rcases sysMunmap_exact .x86_64 {0} 1 held threePages hown threePages_kernelHalf ownPagesTask rfl
    0x8000000000 0x2000 with ⟨hrefused, -⟩ | ⟨s', hrun, hgone, hkept, hframes, hreturned, hrange⟩
  · rw [show sysMunmap x86Format ownPagesTask 0x8000000000 0x2000 threePages = _ from hrefused] at hzero
    exact absurd hzero (by decide)
  · have hin := hrange (by decide)
    have hin₁ := (hin 0x8000000000 (by decide)).mpr (by decide)
    have hin₂ := (hin 0x8000001000 (by decide)).mpr (by decide)
    have hout := mt (hin 0x8000002000 (by decide)).mp (by decide)
    exact ⟨s', hrun, (hgone _ hin₁).2, (hgone _ hin₂).2, (hkept _ hout).trans hthird,
      (hreturned.pmm _).mpr (Or.inr ((hframes _).mpr ⟨_, _, hin₁, hfirst, by decide⟩)),
      (hreturned.pmm _).mpr (Or.inr ((hframes _).mpr ⟨_, _, hin₂, hsecond, by decide⟩))⟩

end ThreePages

end MitosOS.Kernel
