import MitosOS.Lib.EventSystem
import MitosOS.Memory.Boot
import MitosOS.Paging.KernelMap
import Mathlib.Order.Interval.Finset.Nat

/-! The aarch64 kernel reaches the frames it allocates through an identity map. `mmu::init` builds
it over the first 32 MiB, while the bitmap tracks 256 MiB. -/
namespace MitosOS.Paging
open MitosOS.Lib MitosOS.Memory

structure MapRange where
  base : ℕ
  size : ℕ
  flags : MapFlags

/-- The addresses and flags that `identity_map_range` passes to `map_page`. -/
def MapRange.calls (r : MapRange) : List (ℕ × MapFlags) :=
  (List.range ((r.size + 4096 - 1) / 4096)).map fun i => (r.base + i * 4096, r.flags)

def mmuInitRanges : List MapRange :=
  [⟨0x0, kernelIdentityMapSize, normalFlags⟩, ⟨localBase, 4096, deviceFlags⟩,
    ⟨gpioBase, 4096, deviceFlags⟩, ⟨uart0Base, 4096, deviceFlags⟩, ⟨fbAddr, fbSize, deviceFlags⟩]

@[irreducible] def mmuInitCalls : List (ℕ × MapFlags) := mmuInitRanges.flatMap MapRange.calls

theorem mmuInitCalls_eq : mmuInitCalls = mmuInitRanges.flatMap MapRange.calls := by
  delta mmuInitCalls
  rfl

def identityMap (F : Format) (root : ℕ) (calls : List (ℕ × MapFlags)) (s : Machine) : Machine :=
  calls.foldl (fun s c => (mapPage F s root c.1 c.1 c.2).2) s

def AllSucceed (F : Format) (root : ℕ) : List (ℕ × MapFlags) → Machine → Prop
  | [], _ => True
  | (addr, flags) :: calls, s =>
    (mapPage F s root addr addr flags).1 = .ok () ∧
      AllSucceed F root calls (mapPage F s root addr addr flags).2

/-- `mmu::init` gets its root frame and none of its mapping calls fails. -/
def MmuInitSucceeds (s : Machine) : Prop :=
  ∃ root s', vmmAllocFrame s = (some root, s') ∧
    AllSucceed aarch64Format root mmuInitCalls { s' with mem := zeroFrame s'.mem root }

theorem identityMap_flatMap (F : Format) (root : ℕ) (ranges : List MapRange) (s : Machine) :
    identityMap F root (ranges.flatMap MapRange.calls) s =
      ranges.foldl (fun s r => identityMapRange F root r.base r.size r.flags s) s := by
  induction ranges generalizing s with
  | nil => rfl
  | cons r ranges ih =>
    have hrange : identityMap F root r.calls s =
        identityMapRange F root r.base r.size r.flags s := by
      rw [identityMap, MapRange.calls, List.foldl_map]
      rfl
    rw [List.foldl_cons, ← ih, ← hrange, List.flatMap_cons, identityMap, List.foldl_append]
    rfl

theorem mmuInit_eq {s s' : Machine} {root : ℕ} (h : vmmAllocFrame s = (some root, s')) :
    mmuInit s = (some root, identityMap aarch64Format root mmuInitCalls
      { s' with mem := zeroFrame s'.mem root }) := by
  have hfold : ∀ (f : ℕ → ℕ → MapFlags → Machine → Machine) (s : Machine),
      mmuInitRanges.foldl (fun s r => f r.base r.size r.flags s) s =
        f fbAddr fbSize deviceFlags (f uart0Base 4096 deviceFlags (f gpioBase 4096 deviceFlags
          (f localBase 4096 deviceFlags (f 0x0 kernelIdentityMapSize normalFlags s)))) :=
    fun f s => rfl
  rw [mmuInitCalls_eq, identityMap_flatMap, hfold (identityMapRange aarch64Format root), mmuInit, h]

/-- The calls of a later run: frames are taken, and any address is given back. -/
inductive FrameEvent where
  | alloc
  | free (addr : ℕ)

def frameSystem : EventSystem Machine FrameEvent where
  Enabled _ _ := True
  next s
    | .alloc => (vmmAllocFrame s).2
    | .free addr => vmmFreeFrame s addr

theorem frameSystem_mem {s s' : Machine} (h : frameSystem.Run s s') : s'.mem = s.mem := by
  have hstep : ∀ t e, t.mem = s.mem → frameSystem.Enabled t e → True →
      (frameSystem.next t e).mem = s.mem := by
    intro t e ht _ _
    cases e with
    | alloc => exact ht
    | free addr => exact ht
  have hmem := h.invariant hstep rfl
  exact hmem

theorem exists_run_alloc {s : Machine} {f : ℕ} (h : s.pmm.IsFree f) :
    ∃ s', frameSystem.Run s s' ∧ (vmmAllocFrame s').1 = some (f * 4096) := by
  obtain ⟨n, hn⟩ := (BitmapAllocator.exists_allocation_iff s.pmm f).mpr h
  clear h
  induction n generalizing s with
  | zero =>
    have halloc : s.pmm.allocateNextFrame.1 = some f := hn
    exact ⟨s, Relation.ReflTransGen.refl, by simp [vmmAllocFrame, halloc]⟩
  | succ n ih =>
    obtain ⟨s', hrun, halloc⟩ := ih (s := (vmmAllocFrame s).2) hn
    exact ⟨s', Relation.ReflTransGen.head ⟨.alloc, trivial, trivial, rfl⟩ hrun, halloc⟩

section Calls
variable {F : Format} {K : ℕ} {s : Machine} {calls : List (ℕ × MapFlags)}

theorem pageNumber_val {addr : ℕ} (h : addr < 2 ^ 32) : (pageNumber addr : ℕ) = addr / 4096 := by
  have hlt : addr / 4096 < 2 ^ 36 := by omega
  exact Nat.mod_eq_of_lt hlt

theorem KernelRoot.identityMap (hF : F.Lawful) (hbits : 32 ≤ F.physBits) (h : KernelRoot F K s)
    (hcalls : ∀ c ∈ calls, c.1 < 2 ^ 32 ∧ c.2.userAccessible = false) :
    KernelRoot F K (identityMap F (K * 4096) calls s) := by
  induction calls generalizing s with
  | nil => exact h
  | cons c calls ih =>
    obtain ⟨hlt, hflags⟩ := hcalls c List.mem_cons_self
    have hphys : c.1 < 2 ^ F.physBits := hlt.trans_le (Nat.pow_le_pow_right (by decide) hbits)
    refine ih (h.mapPage hF (hlt.trans (by decide)) hphys hflags) ?_
    exact fun d hd => hcalls d (List.mem_cons_of_mem c hd)

/-- The pages that were mapped lead to themselves, and every other page is as before. -/
theorem WellFormed.represented_identityMap (hF : F.Lawful) (hbits : 32 ≤ F.physBits)
    (h : WellFormed F K s) (haddr : ∀ c ∈ calls, c.1 < 2 ^ 32)
    (hok : AllSucceed F (K * 4096) calls s) (p : PageNumber) :
    (represented F (identityMap F (K * 4096) calls s).mem K p).map Binding.frame =
      if ∃ c ∈ calls, pageNumber c.1 = p then some ((p : ℕ) * 4096)
      else (represented F s.mem K p).map Binding.frame := by
  induction calls generalizing s with
  | nil => simp [identityMap]
  | cons c calls ih =>
    obtain ⟨addr, flags⟩ := c
    obtain ⟨hfirst, hrest⟩ := hok
    have hlt : addr < 2 ^ 32 := haddr _ List.mem_cons_self
    have hphys : addr < 2 ^ F.physBits := hlt.trans_le (Nat.pow_le_pow_right (by decide) hbits)
    obtain ⟨r, s', hrun, hwf, hiff, hrep⟩ := h.mapPage hF addr addr flags hphys
    rw [hrun] at hfirst hrest
    have haligned : addr % 4096 = 0 := (hiff.mp hfirst).1
    rw [if_pos hfirst] at hrep
    have hpages := ih hwf (fun c hc => haddr c (List.mem_cons_of_mem _ hc)) hrest
    have hstep : identityMap F (K * 4096) ((addr, flags) :: calls) s =
        identityMap F (K * 4096) calls s' := by
      simp only [identityMap, List.foldl_cons, hrun]
    rw [hstep, hpages, hrep, Function.update_apply]
    by_cases hlater : ∃ c ∈ calls, pageNumber c.1 = p
    · have hsome : ∃ c ∈ (addr, flags) :: calls, pageNumber c.1 = p := by
        obtain ⟨c, hc, hp⟩ := hlater
        exact ⟨c, List.mem_cons_of_mem _ hc, hp⟩
      rw [if_pos hlater, if_pos hsome]
    · rw [if_neg hlater]
      by_cases hp : p = pageNumber addr
      · have hself : addr = p * 4096 := by
          rw [hp, pageNumber_val hlt]
          omega
        rw [if_pos hp, if_pos ⟨_, List.mem_cons_self, hp.symm⟩, Option.map_some, ← hself]
      · have hnone : ¬ ∃ c ∈ (addr, flags) :: calls, pageNumber c.1 = p := by
          rintro ⟨c, hc, hcp⟩
          rcases List.mem_cons.mp hc with rfl | hc
          · exact hp hcp.symm
          · exact hlater ⟨c, hc, hcp⟩
        rw [if_neg hp, if_neg hnone]

theorem identityMap_drawn (F : Format) (root : ℕ) (calls : List (ℕ × MapFlags)) (s : Machine) :
    Drawn s (identityMap F root calls s) (3 * calls.length) := by
  induction calls generalizing s with
  | nil => exact .of_pmm_eq rfl 0
  | cons c calls ih =>
    have hfirst := mapPage_drawn F s root c.1 c.1 c.2
    have hrest := ih (mapPage F s root c.1 c.1 c.2).2
    have hall := hfirst.trans hrest
    rw [List.length_cons, Nat.mul_succ, Nat.add_comm]
    exact hall

theorem missingTables_le (F : Format) (m : Memory) (root virt : ℕ) :
    missingTables F m root virt ≤ 3 :=
  PathGraph.missing_le_length _ root (tablePath virt)

/-- With three frames for each call, mapping distinct fresh pages cannot fail. -/
theorem WellFormed.allSucceed (hF : F.Lawful) (hbits : 32 ≤ F.physBits) (h : WellFormed F K s)
    (haddr : ∀ c ∈ calls, c.1 < 2 ^ 32 ∧ c.1 % 4096 = 0) (hdistinct : (calls.map Prod.fst).Nodup)
    (hnew : ∀ c ∈ calls, represented F s.mem K (pageNumber c.1) = none)
    (hfree : 3 * calls.length ≤ s.pmm.freeFrames.card) : AllSucceed F (K * 4096) calls s := by
  induction calls generalizing s with
  | nil => trivial
  | cons c calls ih =>
    obtain ⟨addr, flags⟩ := c
    obtain ⟨hlt, haligned⟩ := haddr _ List.mem_cons_self
    have hphys : addr < 2 ^ F.physBits := hlt.trans_le (Nat.pow_le_pow_right (by decide) hbits)
    have hdrawn := mapPage_drawn F s (K * 4096) addr addr flags
    obtain ⟨r, s', hrun, hwf, hiff, hrep⟩ := h.mapPage hF addr addr flags hphys
    rw [List.length_cons] at hfree
    rw [List.map_cons, List.nodup_cons] at hdistinct
    have hok : r = .ok () := by
      have hmissing := missingTables_le F s.mem K addr
      have hunmapped : represented F s.mem K (pageNumber addr) = none :=
        hnew (addr, flags) List.mem_cons_self
      exact hiff.mpr ⟨haligned, haligned, hunmapped, by omega⟩
    rw [hrun] at hdrawn
    have hcard := hdrawn.card
    rw [if_pos hok] at hrep
    rw [AllSucceed, hrun]
    refine ⟨hok, ih hwf (fun c hc => haddr c (List.mem_cons_of_mem _ hc)) hdistinct.2 ?_ (by omega)⟩
    intro c hc
    have hne : pageNumber c.1 ≠ pageNumber addr := by
      intro heq
      obtain ⟨hlt', haligned'⟩ := haddr c (List.mem_cons_of_mem _ hc)
      have hval := congrArg Fin.val heq
      rw [pageNumber_val hlt', pageNumber_val hlt] at hval
      have hsame : c.1 = addr := by omega
      have hmem : c.1 ∈ calls.map Prod.fst := List.mem_map_of_mem hc
      rw [hsame] at hmem
      exact hdistinct.1 hmem
    rw [hrep, Function.update_of_ne hne]
    exact hnew c (List.mem_cons_of_mem _ hc)

end Calls

section Ranges
variable {r : MapRange} {c : ℕ × MapFlags}

theorem MapRange.mem_calls :
    c ∈ r.calls ↔ ∃ i < (r.size + 4096 - 1) / 4096, c = (r.base + i * 4096, r.flags) := by
  simp [MapRange.calls, eq_comm]

theorem MapRange.bounds_of_mem (h : c ∈ r.calls) : r.base ≤ c.1 ∧ c.1 < r.base + r.size := by
  obtain ⟨i, hi, rfl⟩ := MapRange.mem_calls.mp h
  dsimp only
  omega

theorem MapRange.nodup_calls (r : MapRange) : (r.calls.map Prod.fst).Nodup := by
  have hinj : Function.Injective fun i => r.base + i * 4096 := by
    intro i j hij
    dsimp only at hij
    omega
  simpa [MapRange.calls, Function.comp_def] using List.nodup_range.map hinj

theorem mem_mmuInitCalls : c ∈ mmuInitCalls ↔ ∃ r ∈ mmuInitRanges, c ∈ r.calls := by
  rw [mmuInitCalls_eq, List.mem_flatMap]

theorem length_mmuInitCalls : mmuInitCalls.length = 8963 := by
  simp [mmuInitCalls_eq, mmuInitRanges, MapRange.calls, kernelIdentityMapSize, fbSize]

theorem mmuInitCalls_addr (h : c ∈ mmuInitCalls) : c.1 < 2 ^ 32 ∧ c.1 % 4096 = 0 := by
  obtain ⟨r, hr, hc⟩ := mem_mmuInitCalls.mp h
  have hranges : ∀ r ∈ mmuInitRanges, r.base + r.size ≤ 2 ^ 32 ∧ r.base % 4096 = 0 := by decide
  obtain ⟨hend, haligned⟩ := hranges r hr
  have hbounds := MapRange.bounds_of_mem hc
  obtain ⟨i, -, rfl⟩ := MapRange.mem_calls.mp hc
  dsimp only at hbounds ⊢
  omega

theorem exists_mmuInitCall_iff {f : ℕ} (h : f < 65536) :
    (∃ c ∈ mmuInitCalls, c.1 = f * 4096) ↔ f * 4096 < kernelIdentityMapSize := by
  have hranges : ∀ r ∈ mmuInitRanges, 65536 * 4096 ≤ r.base ∨
      r.base + r.size ≤ kernelIdentityMapSize := by decide
  constructor
  · rintro ⟨c, hc, hcf⟩
    obtain ⟨r, hr, hc⟩ := mem_mmuInitCalls.mp hc
    have hbounds := MapRange.bounds_of_mem hc
    rcases hranges r hr with hhigh | hlow
    · omega
    · omega
  · intro hlt
    have hcall : (f * 4096, normalFlags) ∈
        MapRange.calls ⟨0x0, kernelIdentityMapSize, normalFlags⟩ := by
      refine MapRange.mem_calls.mpr ⟨f, ?_, by simp⟩
      dsimp only
      unfold kernelIdentityMapSize at hlt ⊢
      omega
    exact ⟨_, mem_mmuInitCalls.mpr ⟨_, List.mem_cons_self, hcall⟩, rfl⟩

theorem nodup_mmuInitCalls : (mmuInitCalls.map Prod.fst).Nodup := by
  have hapart : mmuInitRanges.Pairwise fun r r' =>
      r.base + r.size ≤ r'.base ∨ r'.base + r'.size ≤ r.base := by decide
  rw [mmuInitCalls_eq, List.map_flatMap, List.nodup_flatMap]
  refine ⟨fun r _ => r.nodup_calls, hapart.imp ?_⟩
  intro r r' hrr a ha ha'
  obtain ⟨c, hc, rfl⟩ := List.mem_map.mp ha
  obtain ⟨c', hc', heq⟩ := List.mem_map.mp ha'
  have hbounds := MapRange.bounds_of_mem hc
  have hbounds' := MapRange.bounds_of_mem hc'
  omega

end Ranges

section Init
variable {s s' : Machine} {root : ℕ}

theorem vmmAllocFrame_zeroedRoot {f : ℕ} (h : Taken s s' f) :
    ZeroedRoot f { s' with mem := zeroFrame s'.mem (f * 4096) } where
  zero x hx := Memory.fill_apply_of_mem _ 0 (by omega)
  reserved hfree := ((h.pmm f).mp hfree).2 rfl

/-- `mmu::init` leaves a kernel root behind, in the frame that it took. -/
theorem mmuInit_kernelRoot (h : mmuInit s = (some root, s')) :
    ∃ K s₁, root = K * 4096 ∧ vmmAllocFrame s = (some root, s₁) ∧ Taken s s₁ K ∧
      KernelRoot aarch64Format K s' := by
  have hF := aarch64Format_lawful
  have hflags : ∀ r ∈ mmuInitRanges, r.flags.userAccessible = false := by decide
  cases halloc : vmmAllocFrame s with
  | mk r s₁ =>
    cases r with
    | none =>
      rw [mmuInit, halloc] at h
      exact absurd (congrArg Prod.fst h) (by simp)
    | some a =>
      obtain ⟨K, rfl, htaken⟩ := vmmAllocFrame_taken halloc
      rw [mmuInit_eq halloc] at h
      obtain ⟨hroot, rfl⟩ := Prod.mk.inj h
      obtain rfl : K * 4096 = root := Option.some.inj hroot
      refine ⟨K, s₁, rfl, rfl, htaken, ?_⟩
      refine ((vmmAllocFrame_zeroedRoot htaken).kernelRoot hF).identityMap hF (by decide) ?_
      intro c hc
      obtain ⟨r, hr, hcr⟩ := mem_mmuInitCalls.mp hc
      obtain ⟨i, -, rfl⟩ := MapRange.mem_calls.mp hcr
      exact ⟨(mmuInitCalls_addr hc).1, hflags r hr⟩

theorem mmuInitSucceeds_of_card (h : 26890 ≤ s.pmm.freeFrames.card) : MmuInitSucceeds s := by
  rcases vmmAllocFrame_cases s with ⟨-, hempty⟩ | ⟨f, s', halloc, htaken⟩
  · have hcard := BitmapAllocator.card_freeFrames_eq_zero hempty
    omega
  · have hzero := vmmAllocFrame_zeroedRoot htaken
    have hF := aarch64Format_lawful
    have hdrawn := htaken.drawn.card
    refine ⟨_, s', halloc, (hzero.wellFormed hF).allSucceed hF (by decide)
      (fun c hc => mmuInitCalls_addr hc) nodup_mmuInitCalls (fun c _ => ?_) ?_⟩
    · rw [hzero.represented_eq hF]
    · rw [length_mmuInitCalls]
      dsimp only
      omega

/-- The kernel's map after a successful `mmu::init`, on the frames that the bitmap tracks. -/
theorem mmuInit_translate (hinit : mmuInit s = (some root, s')) (hmaps : MmuInitSucceeds s)
    {f : ℕ} (hf : f < 65536) :
    translateAddr aarch64Format s'.mem root (f * 4096) =
      if f * 4096 < kernelIdentityMapSize then some (f * 4096) else none := by
  have hF := aarch64Format_lawful
  obtain ⟨K, s₁, rfl, halloc, htaken, hkernel⟩ := mmuInit_kernelRoot hinit
  obtain ⟨root', s₂, halloc', hok⟩ := hmaps
  obtain ⟨hroot, rfl⟩ := Prod.mk.inj (halloc.symm.trans halloc')
  obtain rfl : K * 4096 = root' := Option.some.inj hroot
  obtain ⟨-, rfl⟩ := Prod.mk.inj ((mmuInit_eq halloc).symm.trans hinit)
  have hzero := vmmAllocFrame_zeroedRoot htaken
  have hmap := (hzero.wellFormed hF).represented_identityMap hF (by decide)
    (fun c hc => (mmuInitCalls_addr hc).1) hok (pageNumber (f * 4096))
  have hpage : (pageNumber (f * 4096) : ℕ) = f := by
    rw [pageNumber_val (by omega)]
    omega
  have hcalls : (∃ c ∈ mmuInitCalls, pageNumber c.1 = pageNumber (f * 4096)) ↔
      f * 4096 < kernelIdentityMapSize := by
    rw [← exists_mmuInitCall_iff hf]
    refine exists_congr fun c => and_congr_right fun hc => ?_
    obtain ⟨hlt, haligned⟩ := mmuInitCalls_addr hc
    rw [Fin.ext_iff, hpage, pageNumber_val hlt]
    omega
  simp only [hcalls, hpage, hzero.represented_eq hF, Option.map_none] at hmap
  rw [hkernel.wellFormed.translateAddr hF, ← hmap]
  simp

/-- A frame that is handed out after boot is identity-mapped exactly if one of the first 8192 frames
is free at the call, that is if the frame lies in the first 32 MiB; any other frame is not mapped at
all. -/
theorem allocated_identityMapped_iff (m : Memory) (r : BootRanges) (root f : ℕ)
    (s₀ s s' : Machine) (hinit : mmuInit ⟨m, bootPmmStatic r⟩ = (some root, s₀))
    (hmaps : MmuInitSucceeds ⟨m, bootPmmStatic r⟩) (hrun : frameSystem.Run s₀ s)
    (halloc : vmmAllocFrame s = (some f, s')) :
    (translateAddr aarch64Format s'.mem root f = some f ↔ ∃ g < 8192, s.pmm.IsFree g) ∧
      (translateAddr aarch64Format s'.mem root f = some f ↔ f < kernelIdentityMapSize) ∧
      (kernelIdentityMapSize ≤ f → translateAddr aarch64Format s'.mem root f = none) := by
  obtain ⟨g, rfl, htaken⟩ := vmmAllocFrame_taken halloc
  -- the allocator takes the lowest frame that is free
  have hlowest : (∃ g' < 8192, s.pmm.IsFree g') ↔ g * 4096 < kernelIdentityMapSize := by
    unfold kernelIdentityMapSize
    constructor
    · rintro ⟨g', hlt, hfree⟩
      have hle := vmmAllocFrame_lowest halloc hfree
      omega
    · exact fun hlt => ⟨g, by omega, htaken.wasFree⟩
  rw [hlowest, htaken.mem, frameSystem_mem hrun, mmuInit_translate hinit hmaps htaken.lt]
  split_ifs with hlow
  · simpa using hlow
  · simpa using hlow

end Init

/-- The ranges that `kmain_common` protects on aarch64, where the heap has 8 MiB, for a kernel image
of 832 KiB. -/
def kmainRangesStatic : BootRanges where
  kernelPhysStart := 0
  kernelPhysEnd := 0x150000
  heapStart := 0x150000
  heapSize := 0x800000
  ramdisk := none

theorem card_bootPmmStatic : 63000 ≤ (bootPmmStatic kmainRangesStatic).freeFrames.card := by
  have hsubset : Finset.Ico 2384 65536 ⊆ (bootPmmStatic kmainRangesStatic).freeFrames := by
    intro f hf
    obtain ⟨hlow, hhigh⟩ := Finset.mem_Ico.mp hf
    rw [BitmapAllocator.mem_freeFrames, isFree_bootPmmStatic]
    refine ⟨by omega, hhigh, ?_⟩
    rintro (hkernel | hheap | ⟨addr, size, hramdisk, -⟩)
    · simp only [InSpan, kmainRangesStatic, wrap64] at hkernel
      omega
    · simp only [InSpan, kmainRangesStatic, wrap64] at hheap
      omega
    · simp [kmainRangesStatic] at hramdisk
  have hcard := Finset.card_le_card hsubset
  rw [Nat.card_Ico] at hcard
  omega

/-- The boot of `kmain_common` gets through `mmu::init` with more than 36000 frames to spare. -/
theorem exists_mmuInit_static :
    ∃ root s₀, mmuInit ⟨fun _ => 0, bootPmmStatic kmainRangesStatic⟩ = (some root, s₀) ∧
      MmuInitSucceeds ⟨fun _ => 0, bootPmmStatic kmainRangesStatic⟩ ∧
      36000 ≤ s₀.pmm.freeFrames.card := by
  have hcard := card_bootPmmStatic
  have hmaps : MmuInitSucceeds ⟨fun _ => 0, bootPmmStatic kmainRangesStatic⟩ :=
    mmuInitSucceeds_of_card (by dsimp only; omega)
  obtain ⟨root, s', halloc, -⟩ := id hmaps
  refine ⟨root, _, mmuInit_eq halloc, hmaps, ?_⟩
  have hroot := vmmAllocFrame_drawn ⟨fun _ => 0, bootPmmStatic kmainRangesStatic⟩
  rw [halloc] at hroot
  have hcalls := identityMap_drawn aarch64Format root mmuInitCalls
    { s' with mem := zeroFrame s'.mem root }
  have hall := (hroot.trans hcalls.of_mem).card
  rw [length_mmuInitCalls] at hall
  dsimp only at hall
  omega

theorem allocated_identityMapped_iff_boot :
    ∃ root s₀ f s', mmuInit ⟨fun _ => 0, bootPmmStatic kmainRangesStatic⟩ = (some root, s₀) ∧
      vmmAllocFrame s₀ = (some f, s') ∧
      (translateAddr aarch64Format s'.mem root f = some f ↔ f < kernelIdentityMapSize) := by
  obtain ⟨root, s₀, hinit, hmaps, hcard⟩ := exists_mmuInit_static
  rcases vmmAllocFrame_cases s₀ with ⟨-, hempty⟩ | ⟨f, s', halloc, -⟩
  · have hzero := BitmapAllocator.card_freeFrames_eq_zero hempty
    omega
  · have hiff := allocated_identityMapped_iff _ _ root (f * 4096) s₀ s₀ s' hinit hmaps
      Relation.ReflTransGen.refl halloc
    exact ⟨root, s₀, f * 4096, s', hinit, halloc, hiff.2.1⟩

/-- The kernel's own boot succeeds, and then hands out a frame at `0x2000000` or above. -/
theorem allocated_frame_unmapped :
    ∃ root s₀ s s' f, mmuInit ⟨fun _ => 0, bootPmmStatic kmainRangesStatic⟩ = (some root, s₀) ∧
      MmuInitSucceeds ⟨fun _ => 0, bootPmmStatic kmainRangesStatic⟩ ∧ frameSystem.Run s₀ s ∧
      vmmAllocFrame s = (some f, s') ∧ translateAddr aarch64Format s'.mem root f = none := by
  obtain ⟨root, s₀, hinit, hmaps, hcard⟩ := exists_mmuInit_static
  obtain ⟨f, hfree, hhigh⟩ : ∃ f, s₀.pmm.IsFree f ∧ 8192 ≤ f := by
    by_contra! hlow
    have hsubset : s₀.pmm.freeFrames ⊆ Finset.range 8192 := by
      intro f hf
      exact Finset.mem_range.mpr (hlow f (BitmapAllocator.mem_freeFrames.mp hf))
    have hle := Finset.card_le_card hsubset
    rw [Finset.card_range] at hle
    omega
  obtain ⟨s, hrun, halloc⟩ := exists_run_alloc hfree
  refine ⟨root, s₀, s, (vmmAllocFrame s).2, f * 4096, hinit, hmaps, hrun, ?_, ?_⟩
  · rw [← halloc]
  · change translateAddr aarch64Format s.mem root (f * 4096) = none
    have hf : f < 65536 := hfree.lt
    have hout : ¬ f * 4096 < kernelIdentityMapSize := by
      unfold kernelIdentityMapSize
      omega
    rw [frameSystem_mem hrun, mmuInit_translate hinit hmaps hf, if_neg hout]

end MitosOS.Paging
