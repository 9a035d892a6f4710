import MitosOS.Lib.Bits
import MitosOS.Memory.Frames

/-! `KernelHal`, through which the AHCI driver obtains DMA memory and physical addresses, and what
`alloc_dma` leaves of a region in the frame allocator. -/
namespace MitosOS.Drivers
open MitosOS.Lib MitosOS.Memory

structure KernelHal where
  physMemOffset : ℕ

namespace KernelHal

def framesNeeded (size : ℕ) : ℕ := wrap64 (size + 4095) / 4096

/-- The physical and the virtual address of a region. The virtual address, which the bytes are
zeroed through, stands for the physical one. -/
def allocDma (hal : KernelHal) (size : ℕ) (s : Machine) : Option (ℕ × ℕ) × Machine :=
  match s.pmm.allocateNextFrame with
  | (none, pmm) => (none, { s with pmm })
  | (some firstFrameIdx, pmm) =>
    let startPhys := firstFrameIdx * 4096
    let virt := wrap64 (startPhys + hal.physMemOffset)
    (some (startPhys, virt), ⟨s.mem.fill startPhys (framesNeeded size * 4096) 0, pmm⟩)

/-- The subtraction of `u64` wraps; there is no address it rejects. -/
def virtToPhys (hal : KernelHal) (virt : ℕ) : Option ℕ :=
  some (wrap64 (virt + (2 ^ 64 - hal.physMemOffset % 2 ^ 64)))

end KernelHal

def cmdTableStride : ℕ := 384

/-- The size `init_port` asks for on behalf of its command tables. -/
def ctbaSize (numSlots : ℕ) : ℕ := numSlots * cmdTableStride

def regionFrames (phys size : ℕ) : Set ℕ :=
  {f | phys / 4096 ≤ f ∧ f < phys / 4096 + (size + 4095) / 4096}

/-- A region that belongs to the driver: its frames came out of the pool, only they were zeroed, and
no later allocation returns one of them. -/
structure OwnedRegion (s s' : Machine) (phys size : ℕ) : Prop where
  wasFree : ∀ f ∈ regionFrames phys size, s.pmm.IsFree f
  reserved : ∀ f ∈ regionFrames phys size, ¬ s'.pmm.IsFree f
  zeroed : ∀ x, s'.mem x ≠ s.mem x → x / 4096 ∈ regionFrames phys size
  kept : ∀ n f, (s'.pmm.afterAllocations n).allocateNextFrame.1 = some f →
    f ∉ regionFrames phys size

section Region
variable {hal : KernelHal} {size : ℕ} {s : Machine}

/-- All that `alloc_dma` does: it takes one frame, whatever the size, and zeroes from there. -/
theorem allocDma_cases (hal : KernelHal) (size : ℕ) (s : Machine) :
    (hal.allocDma size s).1 = none ∧ (∀ f, ¬ s.pmm.IsFree f) ∨
    ∃ d s', hal.allocDma size s = (some (d * 4096, wrap64 (d * 4096 + hal.physMemOffset)), s') ∧
      s.pmm.IsFree d ∧ (∀ g, s'.pmm.IsFree g ↔ s.pmm.IsFree g ∧ g ≠ d) ∧
      s'.mem = s.mem.fill (d * 4096) (KernelHal.framesNeeded size * 4096) 0 := by
  unfold KernelHal.allocDma
  cases halloc : s.pmm.allocateNextFrame with
  | mk r pmm =>
    cases r with
    | none =>
      exact Or.inl ⟨rfl, (BitmapAllocator.allocateNextFrame_none (congrArg Prod.fst halloc)).2⟩
    | some d =>
      obtain ⟨hfree, -, hrest⟩ := BitmapAllocator.allocateNextFrame_some (congrArg Prod.fst halloc)
      rw [halloc] at hrest
      exact Or.inr ⟨d, _, rfl, hfree, hrest, rfl⟩

theorem regionFrames_of_le (hsize : size ≤ 4096) {d f : ℕ} (hf : f ∈ regionFrames (d * 4096) size) :
    f = d := by
  obtain ⟨hlow, hhigh⟩ := hf
  omega

theorem ownedRegion_of_le {s' : Machine} {d : ℕ} (hsize : size ≤ 4096) (hfree : s.pmm.IsFree d)
    (hpmm : ∀ g, s'.pmm.IsFree g ↔ s.pmm.IsFree g ∧ g ≠ d)
    (hmem : s'.mem = s.mem.fill (d * 4096) (KernelHal.framesNeeded size * 4096) 0) :
    OwnedRegion s s' (d * 4096) size := by
  have hreserved : ∀ f ∈ regionFrames (d * 4096) size, ¬ s'.pmm.IsFree f := by
    intro f hf hcon
    exact ((hpmm f).mp hcon).2 (regionFrames_of_le hsize hf)
  refine ⟨fun f hf => regionFrames_of_le hsize hf ▸ hfree, hreserved, fun x hx => ?_,
    fun n f hn hf => ?_⟩
  · by_contra hout
    rw [hmem] at hx
    apply hx
    apply Memory.fill_apply_of_disjoint
    have hneeded : KernelHal.framesNeeded size = (size + 4095) / 4096 := by
      rw [KernelHal.framesNeeded, wrap64_of_lt (by omega)]
    have hout' : ¬ (d * 4096 / 4096 ≤ x / 4096 ∧
        x / 4096 < d * 4096 / 4096 + (size + 4095) / 4096) := hout
    rw [hneeded]
    omega
  · exact hreserved f hf ((BitmapAllocator.exists_allocation_iff _ f).mp ⟨n, hn⟩)

/-- `alloc_dma` takes a single frame out of the pool, so the second frame of a larger region cannot
have been free before the call and reserved after it. -/
theorem ownedRegion_iff {phys virt : ℕ} {s' : Machine}
    (h : hal.allocDma size s = (some (phys, virt), s')) :
    OwnedRegion s s' phys size ↔ size ≤ 4096 := by
  rcases allocDma_cases hal size s with ⟨hnone, -⟩ | ⟨d, s'', halloc, hfree, hpmm, hmem⟩
  · rw [h] at hnone
    exact absurd hnone (by simp)
  rw [halloc] at h
  obtain ⟨haddr, rfl⟩ := Prod.mk.inj h
  obtain ⟨rfl, -⟩ := Prod.mk.inj (Option.some.inj haddr)
  refine ⟨fun howned => ?_, fun hsize => ownedRegion_of_le hsize hfree hpmm hmem⟩
  by_contra hlarge
  have hnext : d + 1 ∈ regionFrames (d * 4096) size := by
    change d * 4096 / 4096 ≤ d + 1 ∧ d + 1 < d * 4096 / 4096 + (size + 4095) / 4096
    omega
  exact howned.reserved _ hnext ((hpmm _).mpr ⟨howned.wasFree _ hnext, by omega⟩)

/-- Every region `alloc_dma` returns belongs to the driver exactly when there is none to return or
the size fits one frame. -/
theorem allocDma_owned_iff (hal : KernelHal) (size : ℕ) (s : Machine) :
    (∀ phys virt s', hal.allocDma size s = (some (phys, virt), s') → OwnedRegion s s' phys size) ↔
      (∀ f, ¬ s.pmm.IsFree f) ∨ size ≤ 4096 := by
  constructor
  · intro h
    rcases allocDma_cases hal size s with ⟨-, hempty⟩ | ⟨d, s', halloc, -, -, -⟩
    · exact Or.inl hempty
    · exact Or.inr ((ownedRegion_iff halloc).mp (h _ _ _ halloc))
  · rintro (hempty | hsize) phys virt s' h
    · rcases allocDma_cases hal size s with ⟨hnone, -⟩ | ⟨d, -, -, hfree, -, -⟩
      · rw [h] at hnone
        exact absurd hnone (by simp)
      · exact absurd hfree (hempty d)
    · exact (ownedRegion_iff h).mpr hsize

/-- Two frames in the pool, and a byte of somebody else's in the frame after them. -/
def twoFrames : Machine :=
  ⟨fun x => if x = 0x102000 then 7 else 0, BitmapAllocator.new.freeRange 0x100 2⟩

/-- The tables of 32 slots take three frames: the second is handed out next, and the third loses
what its owner keeps there. -/
theorem commandTables_shared :
    ∃ s', (KernelHal.mk 0xFFFF800000000000).allocDma (ctbaSize 32) twoFrames =
        (some (0x100000, 0xFFFF800000100000), s') ∧
      s'.pmm.allocateNextFrame.1 = some 0x101 ∧ 0x101 ∈ regionFrames 0x100000 (ctbaSize 32) ∧
      ¬ twoFrames.pmm.IsFree 0x102 ∧ twoFrames.mem 0x102000 = 7 ∧ s'.mem 0x102000 = 0 := by
  refine ⟨_, Prod.ext (by decide +kernel) rfl, by decide +kernel, ⟨by decide, by decide⟩,
    by decide, rfl, ?_⟩
  decide +kernel

end Region

end MitosOS.Drivers
