import MitosOS.Elf.SharedTables
import MitosOS.Paging.KernelMap
import MitosOS.Tasks.Scheduler

/-! Processes as the kernel runs them: the task table and physical memory together, with
`spawn_from_elf`, `sys_munmap`, `exit` and the reclaiming `run_schedule`. -/
namespace MitosOS.Kernel
open MitosOS.Lib MitosOS.Memory MitosOS.Paging MitosOS.Elf MitosOS.Tasks

def userStackTop : ℕ := userSpaceBase + 0x10000000
def userStackPages : ℕ := 4

def userStackFlags : MapFlags where
  writable := true
  userAccessible := true
  executeDisable := true
  device := false

def mapStackPages (F : Format) (root : ℕ) : List ℕ → Machine → Option Unit × Machine
  | [], s => (some (), s)
  | vaddr :: rest, s =>
    match vmmAllocFrame s with
    | (none, s) => (none, s)
    | (some phys, s) =>
      let s := { s with mem := zeroFrame s.mem phys }
      match mapPage F s root vaddr phys userStackFlags with
      | (.error _, s) => (none, s)
      | (.ok (), s) => mapStackPages F root rest s

def allocateUserStack (F : Format) (root : ℕ) (s : Machine) : Option ℕ × Machine :=
  let stackBottom := userStackTop - userStackPages * 4096
  match mapStackPages F root ((List.range userStackPages).map fun i => stackBottom + i * 4096) s with
  | (some (), s) => (some userStackTop, s)
  | (none, s) => (none, s)

/-- The table a new process root copies: CR3 on x86_64, `KERNEL_ROOT` on aarch64. -/
def templateRoot (K : Stacks) (kernelRoot : ℕ) (c : Scheduler) : ℕ :=
  match K.arch with
  | .x86_64 => c.activeRoot
  | .aarch64 => kernelRoot

def spawnFromElf (K : Stacks) (kernelRoot : ℕ) (elf : Bytes) (c : Scheduler) (s : Machine) :
    Outcome Bool × Scheduler × Machine :=
  let (fresh, s) := createProcessPageTable K.arch (templateRoot K kernelRoot c) s
  let (root, owns) := Scheduler.allocateIsolatedPageTable fresh c.activeRoot
  match loadElfToProcess K.arch elf root s with
  | (.panic, s) => (.panic, c, s)
  | (.err _, s) => (.ok false, c, s)
  | (.ok _, s) =>
    match allocateUserStack K.arch.format root s with
    | (none, s) => (.ok false, c, s)
    | (some top, s) =>
      let (spawned, c) := c.spawnIsolatedAt K root owns top
      (.ok spawned, c, s)

/-- One page of `sys_munmap`: the frames that it passes to `vmm_free_frame`, and the machine. -/
def munmapPageLogged (F : Format) (root addr : ℕ) (s : Machine) : List ℕ × Machine :=
  match translateAddr F s.mem root addr with
  | none => ([], s)
  | some phys =>
    match unmapPage F s root addr with
    | (.ok (), s) => ([phys / 4096], vmmFreeFrame s phys)
    | (.error _, s) => ([], s)

/-- The page loop of `sys_munmap`; `len` is a multiple of the page size. -/
def munmapPagesLogged (F : Format) (root : ℕ) : ℕ → ℕ → Machine → List ℕ × Machine
  | 0, _, s => ([], s)
  | n + 1, addr, s =>
    let (frees, s) := munmapPageLogged F root addr s
    let (rest, s) := munmapPagesLogged F root n (addr + 0x1000) s
    (frees ++ rest, s)

def sysMunmapLogged (F : Format) (caller : Task) (ptr len : ℕ) (s : Machine) : ℕ × List ℕ × Machine :=
  if ptr &&& 0xFFF ≠ 0 ∨ len = 0 ∨ len &&& 0xFFF ≠ 0 then (2 ^ 64 - 1, [], s)
  else if !caller.isRing3 || !validateUserRange F s.mem caller.memoryRoot ptr len false then
    (2 ^ 64 - 1, [], s)
  else (0, munmapPagesLogged F caller.memoryRoot (len / 0x1000) ptr s)

def munmapPage (F : Format) (root addr : ℕ) (s : Machine) : Machine :=
  (munmapPageLogged F root addr s).2

def munmapPageFrees (F : Format) (root addr : ℕ) (s : Machine) : List ℕ :=
  (munmapPageLogged F root addr s).1

def munmapPages (F : Format) (root n addr : ℕ) (s : Machine) : Machine :=
  (munmapPagesLogged F root n addr s).2

def munmapPagesFrees (F : Format) (root n addr : ℕ) (s : Machine) : List ℕ :=
  (munmapPagesLogged F root n addr s).1

def sysMunmap (F : Format) (caller : Task) (ptr len : ℕ) (s : Machine) : ℕ × Machine :=
  ((sysMunmapLogged F caller ptr len s).1, (sysMunmapLogged F caller ptr len s).2.2)

def sysMunmapFrees (F : Format) (caller : Task) (ptr len : ℕ) (s : Machine) : List ℕ :=
  (sysMunmapLogged F caller ptr len s).2.1

section Munmap
variable {F : Format} {shared : Set (Fin 512)} {R K : ℕ} {s₀ s : Machine}

theorem munmapPage_cases (hF : F.Lawful) (h : Private F shared R s) {addr : ℕ}
    (hv : tableIndex 39 addr ∉ shared) :
    munmapPage F (R * 4096) addr s = s ∧ munmapPageFrees F (R * 4096) addr s = [] ∧
      (addr % 4096 = 0 → represented F s.mem R (pageNumber addr) = none) ∨
    ∃ t d, LeafSlot F shared R s (tablePath addr) t (tableIndex 12 addr) ∧
      graph F s.mem t (tableIndex 12 addr) = some d ∧
      munmapPage F (R * 4096) addr s = vmmFreeFrame
        { s with mem := setEntry s.mem (t * 4096) (tableIndex 12 addr) 0#64 } (d * 4096) ∧
      munmapPageFrees F (R * 4096) addr s = [d] := by
  unfold munmapPage munmapPageFrees munmapPageLogged
  cases htr : translateAddr F s.mem (R * 4096) addr with
  | none =>
    refine Or.inl ⟨rfl, rfl, fun _ => ?_⟩
    rwa [h.translateAddr_eq hF hv, Option.map_eq_none_iff] at htr
  | some phys =>
    dsimp only
    rw [unmapPage, land_0xFFF]
    by_cases halign : addr % 4096 = 0
    · rw [if_neg (fun hcon => hcon halign), walkTables_eq hF]
      cases ht : (graph F s.mem).walk R (tablePath addr) with
      | none =>
        refine Or.inl ⟨rfl, rfl, fun _ => ?_⟩
        rw [represented, pagePath_pageNumber, ht, Option.bind_none]
      | some t =>
        rw [Option.map_some]
        dsimp only
        by_cases hp : F.isPresent (getEntry s.mem (t * 4096) (tableIndex 12 addr)) = true
        · right
          rw [if_pos hp]
          have hl : LeafSlot F shared R s (tablePath addr) t (tableIndex 12 addr) :=
            ⟨tablePath_mem hv _, rfl, ht⟩
          have hleaf := graph_of_isPresent (getEntry_frame s.mem t _ ▸ hp)
          have hphys := h.translateAddr hF hv ht hleaf
          rw [htr, halign, Nat.add_zero] at hphys
          refine ⟨t, _, hl, hleaf, ?_, ?_⟩
          · rw [Option.some.inj hphys]
          · dsimp only
            rw [Option.some.inj hphys, Nat.mul_div_cancel _ (by decide)]
        · rw [if_neg hp]
          refine Or.inl ⟨rfl, rfl, fun _ => ?_⟩
          rw [getEntry_frame, Bool.not_eq_true] at hp
          rw [← pagePath_pageNumber] at ht
          rw [represented_of_walk ht, leafIndex_pageNumber, binding_eq_none.mpr hp]
    · rw [if_pos halign]
      exact Or.inl ⟨rfl, rfl, fun hcon => absurd hcon halign⟩

theorem munmapPages_succ (F : Format) (root n addr : ℕ) (s : Machine) :
    munmapPages F root (n + 1) addr s =
      munmapPages F root n (addr + 0x1000) (munmapPage F root addr s) := rfl

theorem munmapPagesFrees_succ (F : Format) (root n addr : ℕ) (s : Machine) :
    munmapPagesFrees F root (n + 1) addr s = munmapPageFrees F root addr s ++
      munmapPagesFrees F root n (addr + 0x1000) (munmapPage F root addr s) := rfl

theorem munmapPage_confined (hF : F.Lawful) (h : Confined F shared R s₀ s) {addr : ℕ}
    (hv : tableIndex 39 addr ∉ shared) :
    Confined F shared R s₀ (munmapPage F (R * 4096) addr s) := by
  rcases munmapPage_cases hF h.isPrivate hv with ⟨heq, -⟩ | ⟨t, d, hl, hleaf, heq, -⟩
  · rw [heq]
    exact h
  · obtain ⟨h', hd, -, -⟩ := h.detach hF hl hleaf
    rw [heq]
    exact (h'.free hd).1

theorem private_pages_succ {n addr : ℕ}
    (h : ∀ k < n + 1, tableIndex 39 (addr + k * 0x1000) ∉ shared) :
    tableIndex 39 addr ∉ shared ∧ ∀ k < n, tableIndex 39 (addr + 0x1000 + k * 0x1000) ∉ shared := by
  constructor
  · have hfirst := h 0 (Nat.succ_pos n)
    rwa [Nat.zero_mul, Nat.add_zero] at hfirst
  · intro k hk
    rw [Nat.add_assoc, Nat.add_comm 0x1000, ← Nat.succ_mul]
    exact h (k + 1) (Nat.succ_lt_succ hk)

theorem munmapPages_confined (hF : F.Lawful) (n : ℕ) :
    ∀ {addr : ℕ} {s : Machine}, Confined F shared R s₀ s →
    (∀ k < n, tableIndex 39 (addr + k * 0x1000) ∉ shared) →
    Confined F shared R s₀ (munmapPages F (R * 4096) n addr s) := by
  induction n with
  | zero =>
    intro _ _ h _
    exact h
  | succ n ih =>
    intro addr s h hpages
    obtain ⟨hv, hrest⟩ := private_pages_succ hpages
    exact ih (munmapPage_confined hF h hv) hrest

/-- The kernel's pages fail the user check in every root that shares the kernel's entry 0. -/
theorem pageIsUserAccessible_kernel (hF : F.Lawful) (hK : KernelRoot F K s)
    (hentry : entries s.mem R 0 = entries s.mem K 0) {addr : ℕ} (hv : tableIndex 39 addr = 0)
    (needWrite : Bool) : pageIsUserAccessible F s.mem (R * 4096) addr needWrite = false := by
  have hwalk : (graph F s.mem).walk R (tablePath addr) = (graph F s.mem).walk K (tablePath addr) := by
    rw [tablePath, PathGraph.walk_cons, PathGraph.walk_cons, hv]
    rw [graph, hentry, graph]
  unfold pageIsUserAccessible
  rw [walkTables_eq hF, hwalk]
  cases ht : (graph F s.mem).walk K (tablePath addr) with
  | none => rfl
  | some t =>
    rw [Option.map_some]
    dsimp only
    rw [getEntry_frame]
    by_cases hp : F.isPresent (entries s.mem t (tableIndex 12 addr)) = true
    · have hrep : represented F s.mem K (pageNumber addr) = some
          ⟨F.physicalAddress (entries s.mem t (tableIndex 12 addr)),
            F.attributes (entries s.mem t (tableIndex 12 addr))⟩ := by
        rw [represented, pagePath_pageNumber, ht, Option.bind_some, leafIndex_pageNumber,
          Format.binding, if_pos hp]
      have hsup := hK.supervisor _ _ hrep
      rw [hF.isUserAccessible_attributes] at hsup
      rw [hsup, Bool.and_false, Bool.false_and]
    · rw [Bool.not_eq_true] at hp
      rw [hp, Bool.false_and, Bool.false_and]

theorem sysMunmap_of_kernel {caller : Task} (hring : caller.isRing3 = false) (ptr len : ℕ) :
    (sysMunmap F caller ptr len s).2 = s := by
  unfold sysMunmap sysMunmapLogged
  rw [hring, Bool.not_false, Bool.true_or, if_pos rfl]
  split_ifs <;> rfl

/-- The pages of a range that passed the check are the caller's own when the shared pages all fail it,
also for addresses beyond 2^48 that alias a shared entry. -/
theorem validateUserRange_private
    (hshared : ∀ a, tableIndex 39 a ∈ shared →
      pageIsUserAccessible F s.mem (R * 4096) a false = false) {ptr len : ℕ} (hpos : 0 < len)
    (hvalid : validateUserRange F s.mem (R * 4096) ptr len false = true) :
    ∀ k < len / 0x1000, tableIndex 39 (ptr + k * 0x1000) ∉ shared := by
  obtain ⟨-, -, hpages⟩ := (validateUserRange_eq_true hpos).mp hvalid
  intro k hk hindex
  have hbad := hshared _ hindex
  rw [hpages (ptr + k * 0x1000) (by omega) (by omega)] at hbad
  exact absurd hbad (by decide)

/-- `sys_munmap` refuses and changes nothing, or runs its loop over pages of the caller's own. -/
theorem sysMunmap_cases
    (hshared : ∀ a, tableIndex 39 a ∈ shared →
      pageIsUserAccessible F s.mem (R * 4096) a false = false) {caller : Task}
    (hroot : caller.memoryRoot = R * 4096) (ptr len : ℕ) :
    sysMunmap F caller ptr len s = (2 ^ 64 - 1, s) ∧ sysMunmapFrees F caller ptr len s = [] ∨
    (ptr % 4096 = 0 ∧ 0 < len ∧ len % 4096 = 0 ∧
        validateUserRange F s.mem (R * 4096) ptr len false = true) ∧
      (∀ k < len / 0x1000, tableIndex 39 (ptr + k * 0x1000) ∉ shared) ∧
      sysMunmap F caller ptr len s = (0, munmapPages F (R * 4096) (len / 0x1000) ptr s) ∧
      sysMunmapFrees F caller ptr len s = munmapPagesFrees F (R * 4096) (len / 0x1000) ptr s := by
  unfold sysMunmap sysMunmapFrees sysMunmapLogged
  rw [hroot, land_0xFFF, land_0xFFF]
  split_ifs with hargs hcheck
  · exact Or.inl ⟨rfl, rfl⟩
  · exact Or.inl ⟨rfl, rfl⟩
  · right
    rw [Bool.or_eq_true, not_or, Bool.not_eq_true', Bool.not_eq_false, Bool.not_eq_true',
      Bool.not_eq_false] at hcheck
    have hpos : 0 < len := by omega
    exact ⟨⟨by omega, hpos, by omega, hcheck.2⟩, validateUserRange_private hshared hpos hcheck.2,
      rfl, rfl⟩

theorem kernelEntry_supervisor (hF : F.Lawful) (hK : KernelRoot F K s)
    (hentry : entries s.mem R 0 = entries s.mem K 0) (a : ℕ)
    (ha : tableIndex 39 a ∈ ({0} : Set (Fin 512))) :
    pageIsUserAccessible F s.mem (R * 4096) a false = false :=
  pageIsUserAccessible_kernel hF hK hentry (Set.mem_singleton_iff.mp ha) false

theorem sysMunmap_confined (hF : F.Lawful) (hR : Private F {0} R s) (hK : KernelRoot F K s)
    (hentry : entries s.mem R 0 = entries s.mem K 0) {caller : Task}
    (hroot : caller.memoryRoot = R * 4096) (ptr len : ℕ) :
    Confined F {0} R s (sysMunmap F caller ptr len s).2 := by
  rcases sysMunmap_cases (kernelEntry_supervisor hF hK hentry) hroot ptr len with
    ⟨heq, -⟩ | ⟨-, hpages, heq, -⟩
  · rw [heq]
    exact hR.confined
  · rw [heq]
    exact munmapPages_confined hF _ hR.confined hpages

theorem munmapPage_returns (hF : F.Lawful) (h : Confined F shared R s₀ s)
    (htracked : ∀ f ∈ pool F shared R s, f ≠ R → f ≠ 0 ∧ f < 65536) {addr : ℕ}
    (hv : tableIndex 39 addr ∉ shared) :
    Returned s (munmapPage F (R * 4096) addr s) (munmapPageFrees F (R * 4096) addr s) ∧
      pool F shared R (munmapPage F (R * 4096) addr s) = pool F shared R s := by
  rcases munmapPage_cases hF h.isPrivate hv with ⟨heq, hfrees, -⟩ | ⟨t, d, hl, hleaf, heq, hfrees⟩
  · rw [heq, hfrees]
    exact ⟨.of_pmm_eq rfl, rfl⟩
  · have hd : d ∈ owned F shared s.mem R :=
      ⟨_, hl.mem, (PathGraph.walk_concat_of_eq hl.walk _).trans hleaf⟩
    have hmem : d ∈ pool F shared R s := Or.inl hd
    obtain ⟨hne, hlt⟩ := htracked d hmem (h.isPrivate.leaf_ne_root hl hleaf)
    obtain ⟨-, -, hpool, -⟩ := h.detach hF hl hleaf
    rw [heq, hfrees]
    refine ⟨⟨fun f => ?_, List.nodup_singleton d, ?_⟩, ?_⟩
    · rw [vmmFreeFrame, Nat.mul_div_cancel d (by decide), BitmapAllocator.isFree_freeFrame,
        List.mem_singleton]
      exact or_congr_right (and_iff_left ⟨hne, by omega⟩)
    · intro f hf
      rw [List.mem_singleton.mp hf]
      exact h.isPrivate.reserved d hd
    · rw [pool_vmmFreeFrame hne hlt, hpool, Set.insert_sdiff_singleton, Set.insert_eq_of_mem hmem]

theorem munmapPages_returns (hF : F.Lawful) (n : ℕ) :
    ∀ {addr : ℕ} {s : Machine}, Confined F shared R s₀ s →
    (∀ f ∈ pool F shared R s, f ≠ R → f ≠ 0 ∧ f < 65536) →
    (∀ k < n, tableIndex 39 (addr + k * 0x1000) ∉ shared) →
    Returned s (munmapPages F (R * 4096) n addr s) (munmapPagesFrees F (R * 4096) n addr s) ∧
      pool F shared R (munmapPages F (R * 4096) n addr s) = pool F shared R s := by
  induction n with
  | zero =>
    intro addr s _ _ _
    exact ⟨.of_pmm_eq rfl, rfl⟩
  | succ n ih =>
    intro addr s h htracked hpages
    obtain ⟨hv, hrest⟩ := private_pages_succ hpages
    obtain ⟨hret, hpool⟩ := munmapPage_returns hF h htracked hv
    obtain ⟨hret', hpool'⟩ := ih (munmapPage_confined hF h hv) (hpool ▸ htracked) hrest
    exact ⟨hret.trans hret', hpool'.trans hpool⟩

theorem sysMunmap_returns (hF : F.Lawful) (hR : Private F {0} R s) (hK : KernelRoot F K s)
    (hentry : entries s.mem R 0 = entries s.mem K 0)
    (htracked : ∀ f ∈ pool F {0} R s, f ≠ 0 ∧ f < 65536) {caller : Task}
    (hroot : caller.memoryRoot = R * 4096) (ptr len : ℕ) :
    Returned s (sysMunmap F caller ptr len s).2 (sysMunmapFrees F caller ptr len s) ∧
      pool F {0} R (sysMunmap F caller ptr len s).2 = pool F {0} R s := by
  rcases sysMunmap_cases (kernelEntry_supervisor hF hK hentry) hroot ptr len with
    ⟨heq, hfrees⟩ | ⟨-, hpages, heq, hfrees⟩
  · rw [heq, hfrees]
    exact ⟨.of_pmm_eq rfl, rfl⟩
  · rw [heq, hfrees]
    exact munmapPages_returns hF _ hR.confined (fun f hf _ => htracked f hf) hpages

end Munmap

section Spawn
variable {F : Format} {R : ℕ} {s₀ s : Machine}

/-- A file whose attempted segments lie in the private part of the address space. -/
def UserImage (arch : Arch) (elf : Bytes) : Prop :=
  ∀ h, readHeader arch elf = .ok h → ∀ seg ∈ attemptedSegments elf h (List.range h.phNum),
    userSpaceBase ≤ seg.vaddr ∧ seg.vaddr + seg.memsz ≤ 2 ^ 48

theorem visits_user {seg : Segment} (hlow : userSpaceBase ≤ seg.vaddr)
    (hhigh : seg.vaddr + seg.memsz ≤ 2 ^ 48) {page : ℕ} (h : seg.Visits page) :
    userSpaceBase ≤ page ∧ page < 2 ^ 48 := by
  obtain ⟨k, hk, rfl⟩ := h
  have hbase : userSpaceBase = 2 ^ 39 := by decide
  have hstart := alignDown_mod seg.vaddr 4096
  have hstart' := lt_alignDown_add (a := seg.vaddr) (n := 4096) (by decide)
  have hend := alignDown_le (wrap64 (seg.vaddr + seg.memsz + 4095)) 4096
  have hendmod := alignDown_mod (wrap64 (seg.vaddr + seg.memsz + 4095)) 4096
  rw [wrap64_of_lt (by omega)] at hend hendmod
  unfold Segment.pageCount Segment.endVaddr Segment.startVaddr at *
  rw [wrap64_of_lt (by omega)] at hk
  rw [hbase] at hlow ⊢
  omega

theorem UserImage.pages {arch : Arch} {elf : Bytes} (h : UserImage arch elf) {root page : ℕ}
    {s s' : Machine} (hpage : ElfReaches arch elf root s page s') :
    tableIndex 39 page ∉ ({0} : Set (Fin 512)) := by
  obtain ⟨hd, hhd, i, s₁, hreach, seg, hseg, k, hk, rfl, -⟩ := hpage
  obtain ⟨hlow, hhigh⟩ := h hd hhd seg (mem_attemptedSegments_of_reached hseg hreach)
  obtain ⟨hlow', hhigh'⟩ := visits_user hlow hhigh ⟨k, hk, rfl⟩
  exact tableIndex_user_ne_zero hlow' hhigh'

theorem mapStackPages_confined (hF : F.Lawful) (pages : List ℕ) :
    ∀ {s : Machine}, Confined F {0} R s₀ s →
    (∀ vaddr ∈ pages, tableIndex 39 vaddr ∉ ({0} : Set (Fin 512))) →
    Confined F {0} R s₀ (mapStackPages F (R * 4096) pages s).2 ∧
      ((mapStackPages F (R * 4096) pages s).1 = some () →
        pool F {0} R (mapStackPages F (R * 4096) pages s).2 = pool F {0} R s) := by
  induction pages with
  | nil =>
    intro s h _
    exact ⟨h, fun _ => rfl⟩
  | cons vaddr rest ih =>
    intro s h hpages
    rw [mapStackPages]
    rcases vmmAllocFrame_cases s with ⟨halloc, -⟩ | ⟨d, s₁, halloc, htaken⟩
    · rw [halloc]
      exact ⟨h, fun hsome => absurd hsome (by simp)⟩
    · obtain ⟨r, s', hmap, h', hpool⟩ :=
        h.mapZeroed hF htaken (hpages vaddr List.mem_cons_self) userStackFlags
      rw [halloc]
      dsimp only
      rw [hmap]
      cases r with
      | error e => exact ⟨h', fun hsome => absurd hsome (by simp)⟩
      | ok u =>
        obtain ⟨h₂, hpool₂⟩ := ih h' fun v hv => hpages v (List.mem_cons_of_mem vaddr hv)
        exact ⟨h₂, fun hsome => (hpool₂ hsome).trans (hpool rfl).1⟩

theorem allocateUserStack_confined (hF : F.Lawful) (h : Confined F {0} R s₀ s) :
    Confined F {0} R s₀ (allocateUserStack F (R * 4096) s).2 ∧
      ∀ top, (allocateUserStack F (R * 4096) s).1 = some top → top = userStackTop ∧
        pool F {0} R (allocateUserStack F (R * 4096) s).2 = pool F {0} R s := by
  have hpages : ∀ vaddr ∈ (List.range userStackPages).map fun i =>
      userStackTop - userStackPages * 4096 + i * 4096,
      tableIndex 39 vaddr ∉ ({0} : Set (Fin 512)) := by
    intro vaddr hv
    obtain ⟨i, hi, rfl⟩ := List.mem_map.mp hv
    have hlt : i < 4 := List.mem_range.mp hi
    have hbottom : userStackTop - userStackPages * 4096 = 2 ^ 39 + 0xFFFC000 := by decide
    have hbase : userSpaceBase = 2 ^ 39 := by decide
    rw [hbottom]
    apply tableIndex_user_ne_zero <;> omega
  obtain ⟨h', hpool⟩ := mapStackPages_confined hF _ h hpages
  unfold allocateUserStack
  dsimp only
  cases hrun : mapStackPages F (R * 4096) ((List.range userStackPages).map fun i =>
      userStackTop - userStackPages * 4096 + i * 4096) s with
  | mk r s' =>
    rw [hrun] at h' hpool
    cases r with
    | none => exact ⟨h', fun top htop => absurd htop (by simp)⟩
    | some u => exact ⟨h', fun top htop => ⟨(Option.some.inj htop).symm, hpool rfl⟩⟩

end Spawn

section OutOfMemory
variable (F : Format) (root : ℕ) {s : Machine}

theorem copyPages_of_empty (hempty : ∀ f, ¬ s.pmm.IsFree f) (seg : Segment) (n v off : ℕ) :
    (copyPages F root seg n v off s).2 = s := by
  cases n with
  | zero => rfl
  | succ n => rw [copyPages, vmmAllocFrame_of_empty hempty]

omit F in
theorem loadElfToProcess_of_empty (hempty : ∀ f, ¬ s.pmm.IsFree f) (arch : Arch) (elf : Bytes) :
    (loadElfToProcess arch elf root s).2 = s := by
  apply loadElfToProcess_keeps (P := fun s' => s' = s)
  · rintro seg s' rfl
    exact copyPages_of_empty arch.format root hempty seg seg.pageCount seg.startVaddr 0
  · rfl

theorem allocateUserStack_of_empty (hempty : ∀ f, ¬ s.pmm.IsFree f) :
    allocateUserStack F root s = (none, s) := by
  have hfirst : ∀ vaddr rest, mapStackPages F root (vaddr :: rest) s = (none, s) := by
    intro vaddr rest
    rw [mapStackPages, vmmAllocFrame_of_empty hempty]
  unfold allocateUserStack
  dsimp only
  rw [show List.range userStackPages = [0, 1, 2, 3] from rfl, List.map_cons, hfirst]

end OutOfMemory

theorem createProcessPageTable_none {arch : Arch} {active : ℕ} {s : Machine}
    (h : (createProcessPageTable arch active s).1 = none) :
    createProcessPageTable arch active s = (none, s) ∧ ∀ f, ¬ s.pmm.IsFree f := by
  rcases vmmAllocFrame_cases s with ⟨halloc, hempty⟩ | ⟨f, s₁, halloc, -⟩
  · refine ⟨?_, hempty⟩
    rw [createProcessPageTable, halloc]
  · rw [createProcessPageTable, halloc] at h
    cases arch <;> exact absurd h (by simp)

section Cases
variable {K : Stacks} {kernel : ℕ} {elf : Bytes} {c : Scheduler} {s : Machine}

/-- Without a frame for a new root nothing changes; the parent's root is never written to. -/
theorem spawnFromElf_of_empty (kernelRoot : ℕ) (hempty : ∀ f, ¬ s.pmm.IsFree f) :
    (spawnFromElf K kernelRoot elf c s).1 ≠ .ok true ∧
      (spawnFromElf K kernelRoot elf c s).2 = (c, s) := by
  have hcreate : createProcessPageTable K.arch (templateRoot K kernelRoot c) s = (none, s) := by
    rw [createProcessPageTable, vmmAllocFrame_of_empty hempty]
  have hload := loadElfToProcess_of_empty c.activeRoot hempty K.arch elf
  unfold spawnFromElf
  rw [hcreate]
  dsimp only [Scheduler.allocateIsolatedPageTable]
  cases hrun : loadElfToProcess K.arch elf c.activeRoot s with
  | mk r s' =>
    rw [hrun] at hload
    obtain rfl : s' = s := hload
    cases r with
    | ok entry =>
      dsimp only
      rw [allocateUserStack_of_empty _ _ hempty]
      exact ⟨by simp, rfl⟩
    | err msg => exact ⟨by simp, rfl⟩
    | panic => exact ⟨by simp, rfl⟩

theorem createProcessPageTable_private (hne : kernel ≠ 0)
    (hkernel : KernelRoot aarch64Format kernel s) {root : ℕ} {s₁ : Machine}
    (hcreate : createProcessPageTable .aarch64 (kernel * 4096) s = (some root, s₁)) :
    ∃ R, root = R * 4096 ∧ Created s s₁ kernel R ∧ kernel ≠ R ∧ Private aarch64Format {0} R s₁ ∧
      owned aarch64Format {0} s₁.mem R = {R} := by
  have hactive : HasKernelRoot .aarch64 (kernel * 4096) :=
    fun _ => ⟨by omega, Nat.mul_mod_left kernel 4096⟩
  obtain ⟨R, rfl, hnew⟩ := createProcessPageTable_some hactive hcreate
  rw [Nat.mul_div_cancel kernel (by decide)] at hnew
  have hneR : kernel ≠ R := by
    rintro rfl
    exact hkernel.wellFormed.reserved kernel ⟨[], Nat.zero_le 3, rfl⟩ hnew.wasFree
  have hprivate := hnew.isPrivate (F := aarch64Format) hneR {0} fun i hp => by
    by_contra hi
    rw [hkernel.only_zero i hi] at hp
    exact absurd hp (by decide)
  exact ⟨R, rfl, hnew, hneR, hprivate⟩

/-- What `spawn_from_elf` can do on aarch64: nothing at all when frames have run out, or work
confined to a fresh root, which ends up in the task table or is forgotten. On success no frame of
the pool is lost. -/
theorem spawnFromElf_cases (harch : K.arch = .aarch64) (hne : kernel ≠ 0)
    (hkernel : KernelRoot aarch64Format kernel s) (helf : UserImage .aarch64 elf) :
    (spawnFromElf K (kernel * 4096) elf c s).1 ≠ .ok true ∧
      (spawnFromElf K (kernel * 4096) elf c s).2 = (c, s) ∨
    ∃ R s₁ s' c', (spawnFromElf K (kernel * 4096) elf c s).2 = (c', s') ∧
      Created s s₁ kernel R ∧ kernel ≠ R ∧ owned aarch64Format {0} s₁.mem R = {R} ∧
      Confined aarch64Format {0} R s₁ s' ∧
      (c' = c ∨ c' = (c.spawnIsolatedAt K (R * 4096) true userStackTop).2) ∧
      ((spawnFromElf K (kernel * 4096) elf c s).1 = .ok true →
        pool aarch64Format {0} R s' = pool aarch64Format {0} R s₁ ∧
        c.spawnIsolatedAt K (R * 4096) true userStackTop = (true, c')) := by
  cases hfresh : (createProcessPageTable .aarch64 (kernel * 4096) s).1 with
  | none => exact Or.inl (spawnFromElf_of_empty _ (createProcessPageTable_none hfresh).2)
  | some root =>
    right
    have hcreate : createProcessPageTable .aarch64 (kernel * 4096) s =
        (some root, (createProcessPageTable .aarch64 (kernel * 4096) s).2) := Prod.ext hfresh rfl
    generalize (createProcessPageTable .aarch64 (kernel * 4096) s).2 = s₁ at hcreate
    obtain ⟨R, rfl, hnew, hneR, hpriv, howned⟩ :=
      createProcessPageTable_private hne hkernel hcreate
    obtain ⟨hload, hpool⟩ :=
      loadElfToProcess_confined .aarch64 elf hpriv.confined fun page s' => helf.pages
    unfold spawnFromElf templateRoot
    rw [harch]
    dsimp only
    rw [hcreate, Scheduler.allocateIsolatedPageTable]
    dsimp only
    refine ⟨R, s₁, ?_⟩
    cases hrun : loadElfToProcess .aarch64 elf (R * 4096) s₁ with
    | mk r s₂ =>
      rw [hrun] at hload hpool
      cases r with
      | err msg => exact ⟨s₂, c, rfl, hnew, hneR, howned, hload, Or.inl rfl, by simp⟩
      | panic => exact ⟨s₂, c, rfl, hnew, hneR, howned, hload, Or.inl rfl, by simp⟩
      | ok entry =>
        dsimp only
        obtain ⟨hstack, htop⟩ := allocateUserStack_confined aarch64Format_lawful hload
        cases hrun₂ : allocateUserStack aarch64Format (R * 4096) s₂ with
        | mk top s₃ =>
          change Confined aarch64Format {0} R s₁ (allocateUserStack aarch64Format (R * 4096) s₂).2
            at hstack
          rw [hrun₂] at hstack htop
          have hgoal : allocateUserStack Arch.aarch64.format (R * 4096) s₂ = (top, s₃) := hrun₂
          rw [hgoal]
          cases top with
          | none => exact ⟨s₃, c, rfl, hnew, hneR, howned, hstack, Or.inl rfl, by simp⟩
          | some top =>
            obtain ⟨rfl, hpool₂⟩ := htop top rfl
            refine ⟨s₃, _, rfl, hnew, hneR, howned, hstack, Or.inr rfl, fun hok => ?_⟩
            refine ⟨hpool₂.trans (hpool entry rfl), Prod.ext ?_ rfl⟩
            exact Outcome.ok.inj hok

end Cases

/-- The task table and physical memory, and whether the executing context has exited. -/
structure KernelRun where
  sched : Scheduler
  exited : Bool
  machine : Machine

inductive KernelCall where
  /-- `spawn` of a kernel thread. -/
  | spawnThread
  | spawnFromElf (elf : Bytes)
  | munmap (ptr len : ℕ)
  /-- The running process writes to its own data pages; `m` is the memory afterwards. -/
  | store (m : Memory)
  | exit
  | schedule (sp : ℕ)

def rootFrame (t : Task) : ℕ := t.memoryRoot / 4096

def dataFrames (F : Format) (m : Memory) (R : ℕ) : Set ℕ :=
  {f | ∃ p ∈ privatePaths {0}, p.length = 4 ∧ (graph F m).walk R p = some f}

def KernelRun.caller (k : KernelRun) : Task := k.sched.tasks k.sched.current

/-- An exited context only spins. Files are loaded into user space, and a process can only write
where its own pages are. -/
def KernelCall.Valid (F : Format) (arch : Arch) (k : KernelRun) : KernelCall → Prop
  | .spawnThread => k.exited = false
  | .spawnFromElf elf => k.exited = false ∧ UserImage arch elf
  | .munmap _ _ => k.exited = false
  | .store m => k.exited = false ∧ k.caller.isRing3 = true ∧
      ∀ x, m x ≠ k.machine.mem x → x / 4096 ∈ dataFrames F k.machine.mem (rootFrame k.caller)
  | .exit => k.exited = false
  | .schedule _ => True

def KernelCall.run (K : Stacks) (kernelRoot : ℕ) (k : KernelRun) : KernelCall → KernelRun
  | .spawnThread => { k with sched := (k.sched.spawn K .sharedThread none 0).2 }
  | .spawnFromElf elf =>
    let (_, sched, machine) := Kernel.spawnFromElf K kernelRoot elf k.sched k.machine
    { k with sched := sched, machine := machine }
  | .munmap ptr len =>
    { k with machine := (sysMunmap K.arch.format k.caller ptr len k.machine).2 }
  | .store m => { k with machine := { k.machine with mem := m } }
  | .exit => { k with sched := k.sched.exit, exited := true }
  | .schedule sp =>
    let r := k.sched.runSchedule sp
    { sched := r.sched
      exited := k.exited && decide (r.sched.current = k.sched.current)
      machine := match r.freed with
        | none => k.machine
        | some root => freeProcessPageTable K.arch.format k.machine root }

theorem KernelCall.run_spawnFromElf (K : Stacks) (kernelRoot : ℕ) (elf : Bytes) (k : KernelRun) :
    (KernelCall.spawnFromElf elf).run K kernelRoot k =
      { k with
        sched := (Kernel.spawnFromElf K kernelRoot elf k.sched k.machine).2.1
        machine := (Kernel.spawnFromElf K kernelRoot elf k.sched k.machine).2.2 } := rfl

def KernelStep (K : Stacks) (kernelRoot : ℕ) (k k' : KernelRun) : Prop :=
  ∃ c : KernelCall, c.Valid K.arch.format K.arch k ∧ k' = c.run K kernelRoot k

end MitosOS.Kernel
