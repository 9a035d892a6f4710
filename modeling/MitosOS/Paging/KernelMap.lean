import MitosOS.Paging.PageMap

/-! The aarch64 kernel root: `mmu::init` builds it with `map_page`, four levels deep, and every
process root shares its one top-level entry. -/
namespace MitosOS.Paging
open MitosOS.Lib MitosOS.Memory

/-- Errors of `map_page` are dropped. -/
def identityMapRange (F : Format) (root base size : ℕ) (flags : MapFlags) (s : Machine) : Machine :=
  (List.range ((size + 4096 - 1) / 4096)).foldl (fun s i =>
    (mapPage F s root (base + i * 4096) (base + i * 4096) flags).2) s

def kernelIdentityMapSize : ℕ := 32 * 1024 * 1024
def localBase : ℕ := 0x40000000
def gpioBase : ℕ := 0x3F200000
def uart0Base : ℕ := 0x3F201000
def fbAddr : ℕ := 0xFD000000
def fbSize : ℕ := 4096 * 768

def normalFlags : MapFlags where
  writable := true
  userAccessible := false
  executeDisable := false
  device := false

def deviceFlags : MapFlags where
  writable := true
  userAccessible := false
  executeDisable := true
  device := true

/-- The table building of `mmu::init`; without a frame for the root it spins forever. -/
def mmuInit (s : Machine) : Option ℕ × Machine :=
  match vmmAllocFrame s with
  | (none, s) => (none, s)
  | (some rootFrame, s) =>
    let s := { s with mem := zeroFrame s.mem rootFrame }
    let s := identityMapRange aarch64Format rootFrame 0x0 kernelIdentityMapSize normalFlags s
    let s := identityMapRange aarch64Format rootFrame localBase 4096 deviceFlags s
    let s := identityMapRange aarch64Format rootFrame gpioBase 4096 deviceFlags s
    let s := identityMapRange aarch64Format rootFrame uart0Base 4096 deviceFlags s
    let s := identityMapRange aarch64Format rootFrame fbAddr fbSize deviceFlags s
    (some rootFrame, s)

/-- A root of the kernel's own: real tables that are in use, entry 0 only at the top, and no
page that user code may touch. -/
structure KernelRoot (F : Format) (K : ℕ) (s : Machine) : Prop where
  wellFormed : WellFormed F K s
  only_zero : ∀ i, i ≠ 0 → F.isPresent (entries s.mem K i) = false
  supervisor : ∀ p b, represented F s.mem K p = some b → F.isUserAccessible b.attributes = false

def tableFrames (F : Format) (m : Memory) (root : ℕ) : Set ℕ := (graph F m).nodes root tablePaths

section Build
variable {F : Format} {K n : ℕ} {s s' : Machine} {q : List (Fin 512)}

/-- Descending writes no entry of the root but the one it goes through. -/
theorem WellFormed.nextTables_root (hF : F.Lawful) (u : Bool) (p : List (Fin 512)) :
    ∀ {s : Machine} {q : List (Fin 512)} {n : ℕ}, WellFormed F K s → q.length + p.length ≤ 3 →
    (graph F s.mem).walk K q = some n → ∀ j, (q = [] → ∀ i ∈ p.head?, j ≠ i) →
    entries (MitosOS.Paging.nextTables F u s (n * 4096) p).2.mem K j = entries s.mem K j := by
  induction p with
  | nil =>
    intro s q n _ _ _ j _
    rfl
  | cons i p ih =>
    intro s q n h hlen hw j hj
    rw [List.length_cons] at hlen
    have hq : q.length ≤ 2 := by omega
    have hlen' : (q ++ [i]).length + p.length ≤ 3 := by
      rw [List.length_append, List.length_singleton]
      omega
    have hj' : q ++ [i] = [] → ∀ k ∈ p.head?, j ≠ k := fun hcon => absurd hcon (by simp)
    have hedge : ¬ (K = n ∧ j = i) := by
      rintro ⟨rfl, rfl⟩
      have hnil := h.tree q (Nat.le_succ_of_le hq) [] (Nat.zero_le 3) K hw rfl
      exact hj hnil j rfl rfl
    rcases nextTable_cases hF u s n i with
      ⟨c, s₁, hnext, hc, hr⟩ | ⟨hnext, hc, -⟩ | ⟨f, s₁, hnext, hc, hg⟩
    · have hw₁ : (graph F s₁.mem).walk K (q ++ [i]) = some c := by
        rw [hr.graph_eq, PathGraph.walk_concat_of_eq hw, hc]
      simp only [MitosOS.Paging.nextTables, hnext]
      rw [ih (h.revisited hr) hlen' hw₁ j hj', hr.other K j hedge]
    · simp only [MitosOS.Paging.nextTables, hnext]
    · have hmem : q ++ [i] ∈ tablePaths := by
        change (q ++ [i]).length ≤ 3
        omega
      have hw₁ : (graph F s₁.mem).walk K (q ++ [i]) = some f := by
        rw [hg.walk_eq hF tablePaths_prefixClosed h.tree (h.fresh hg) hmem hw hc hmem, if_pos rfl]
      have hroot : K ≠ f := by
        rintro rfl
        exact h.fresh hg ⟨[], Nat.zero_le 3, rfl⟩
      simp only [MitosOS.Paging.nextTables, hnext]
      rw [ih (h.grown hF hg hq hw hc) hlen' hw₁ j hj', hg.entries_eq, if_neg hedge, if_neg hroot]

theorem WellFormed.mapPage_root (hF : F.Lawful) (h : WellFormed F K s) (virt phys : ℕ)
    (flags : MapFlags) {j : Fin 512} (hj : j ≠ tableIndex 39 virt) :
    entries (MitosOS.Paging.mapPage F s (K * 4096) virt phys flags).2.mem K j =
      entries s.mem K j := by
  unfold MitosOS.Paging.mapPage
  split_ifs with halign
  · rfl
  obtain ⟨r, s₁, hrun, hwf, -, hres⟩ := h.nextTables hF flags.userAccessible (tablePath virt)
    (q := []) (n := K) (le_refl 3) rfl
  have hroot := h.nextTables_root hF flags.userAccessible (tablePath virt) (q := []) (n := K)
    (le_refl 3) rfl j (fun _ i hi => by
      obtain rfl : tableIndex 39 virt = i := Option.some.inj hi
      exact hj)
  rw [hrun] at hroot ⊢
  rcases hres with ⟨t, rfl, ht, -⟩ | ⟨rfl, -⟩
  · dsimp only
    split_ifs
    · exact hroot
    · have hne : K ≠ t := hwf.ne_of_length (p := []) (Nat.zero_le 3) (le_refl 3)
        (PathGraph.walk_nil _ K) ht (by simp [tablePath])
      change entries (setEntry s₁.mem (t * 4096) _ _) K j = _
      rw [entries_setEntry, if_neg (fun hc => hne hc.1)]
      exact hroot
  · exact hroot

theorem ZeroedRoot.kernelRoot (hF : F.Lawful) (h : ZeroedRoot K s) : KernelRoot F K s where
  wellFormed := h.wellFormed hF
  only_zero i _ := by rw [h.entries_eq, hF.isPresent_zero]
  supervisor p b hb := by
    rw [h.represented_eq hF] at hb
    exact absurd hb (by simp)

theorem KernelRoot.mapPage (hF : F.Lawful) (h : KernelRoot F K s) {virt phys : ℕ}
    {flags : MapFlags} (hvirt : virt < 2 ^ 39) (hphys : phys < 2 ^ F.physBits)
    (hflags : flags.userAccessible = false) :
    KernelRoot F K (MitosOS.Paging.mapPage F s (K * 4096) virt phys flags).2 := by
  have hindex : tableIndex 39 virt = 0 := by
    refine Fin.ext ?_
    rw [tableIndex_val, Nat.div_eq_of_lt hvirt]
    rfl
  have hroot := fun (j : Fin 512) (hj : j ≠ 0) =>
    h.wellFormed.mapPage_root hF virt phys flags (j := j) (by rw [hindex]; exact hj)
  obtain ⟨r, s', hrun, hwf, -, hrep⟩ := h.wellFormed.mapPage hF virt phys flags hphys
  rw [hrun] at hroot ⊢
  refine ⟨hwf, ?_, ?_⟩
  · intro j hj
    rw [hroot j hj]
    exact h.only_zero j hj
  · intro p b hb
    rw [hrep] at hb
    split_ifs at hb with hr
    · rw [Function.update_apply] at hb
      split_ifs at hb
      · rw [← Option.some.inj hb, hF.isUserAccessible_encodeFlags]
        exact hflags
      · exact h.supervisor p b hb
    · exact h.supervisor p b hb

/-- Whatever leaves the kernel's tables alone leaves the kernel's root as it was. -/
theorem KernelRoot.frame (h : KernelRoot F K s)
    (hmem : ∀ x, x / 4096 ∈ tableFrames F s.mem K → s'.mem x = s.mem x)
    (hfree : ∀ t ∈ tableFrames F s.mem K, ¬ s'.pmm.IsFree t) :
    KernelRoot F K s' ∧ tableFrames F s'.mem K = tableFrames F s.mem K := by
  have hwalk : ∀ p ∈ tablePaths, (graph F s'.mem).walk K p = (graph F s.mem).walk K p :=
    fun p hp => walk_congr_mem tablePaths_prefixClosed hmem hp
  have hentries : ∀ p ∈ tablePaths, ∀ t, (graph F s.mem).walk K p = some t →
      ∀ i, entries s'.mem t i = entries s.mem t i := by
    intro p hp t ht
    apply entries_congr
    rintro x rfl
    exact hmem x ⟨p, hp, ht⟩
  have htables : tableFrames F s'.mem K = tableFrames F s.mem K := PathGraph.nodes_congr hwalk
  have hrep : represented F s'.mem K = represented F s.mem K := by
    funext p
    have hp : pagePath p ∈ tablePaths := le_refl 3
    rw [represented, hwalk _ hp, represented]
    cases ht : (graph F s.mem).walk K (pagePath p) with
    | none => rw [Option.bind_none, Option.bind_none]
    | some t => rw [Option.bind_some, Option.bind_some, hentries _ hp t ht]
  refine ⟨⟨⟨?_, ?_, ?_⟩, ?_, ?_⟩, htables⟩
  · exact h.wellFormed.tree.congr hwalk
  · intro t ht
    apply hfree
    rw [← htables]
    exact ht
  · intro q t i hq hqt hp
    have hmemq : q ∈ tablePaths := Nat.le_succ_of_le hq
    have hqt' := (hwalk q hmemq).symm.trans hqt
    rw [hentries q hmemq t hqt'] at hp ⊢
    exact h.wellFormed.noBlock q t i hq hqt' hp
  · intro i hi
    rw [hentries [] (Nat.zero_le 3) K rfl]
    exact h.only_zero i hi
  · rw [hrep]
    exact h.supervisor

end Build

end MitosOS.Paging
