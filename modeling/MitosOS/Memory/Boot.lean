import MitosOS.Lib.Bits
import MitosOS.Memory.Frames

/-! The boot passes over the frame bitmap. On x86_64: free what the bootloader calls usable, protect
the kernel's own ranges, then reclaim the bootloader's. On aarch64: free everything, then protect. -/
namespace MitosOS.Memory
open MitosOS.Lib

structure MemmapEntry where
  base : BitVec 64
  length : BitVec 64
  typ : BitVec 64
  deriving DecidableEq, Repr

/-- The response of the memory map request: `none` when Limine gave none, and a list of entry
pointers of which some may be null. -/
abbrev Memmap := Option (List (Option MemmapEntry))

def limineMemmapUsable : BitVec 64 := 0#64
def limineMemmapAcpiReclaimable : BitVec 64 := 2#64
def limineMemmapBootloaderReclaimable : BitVec 64 := 5#64

def isUsable (typ : BitVec 64) : Bool := typ == limineMemmapUsable

def isReclaimable (typ : BitVec 64) : Bool :=
  typ == limineMemmapAcpiReclaimable || typ == limineMemmapBootloaderReclaimable

/-- Free the frames of one map entry when its type is wanted; null pointers are skipped. -/
def freeEntry (wanted : BitVec 64 → Bool) (pmm : Pmm) : Option MemmapEntry → Pmm
  | none => pmm
  | some entry =>
    if wanted entry.typ then pmm.freeRange (entry.base.toNat / 4096) (entry.length.toNat / 4096)
    else pmm

def initPmmFromLimine (memmap : Memmap) (pmm : Pmm) : Except String Unit × Pmm :=
  match memmap with
  | none => (.error "Limine memory map response unavailable", pmm)
  | some entries => (.ok (), (entries.foldl (freeEntry isUsable) pmm).reserveRange 0 256)

def reclaimBootMemory (memmap : Memmap) (pmm : Pmm) : Pmm :=
  match memmap with
  | none => pmm
  | some entries => (entries.foldl (freeEntry isReclaimable) pmm).reserveRange 0 256

/-- Reserve the pages from that of `start` to the rounded-up `stop`. The rounding wraps. -/
def reserveSpan (pmm : Pmm) (start stop : ℕ) : Pmm :=
  let startFrame := start / 4096
  let endFrame := wrap64 (stop + 4095) / 4096
  if startFrame < endFrame then pmm.reserveRange startFrame (endFrame - startFrame) else pmm

def protectBootMemory (kernelPhysStart kernelPhysEnd heapStart heapSize : ℕ)
    (ramdisk : Option (ℕ × ℕ)) (pmm : Pmm) : Pmm :=
  let pmm := pmm.reserveRange 0 256
  let pmm := reserveSpan pmm kernelPhysStart kernelPhysEnd
  let pmm := reserveSpan pmm heapStart (heapStart + heapSize)
  match ramdisk with
  | none => pmm
  | some (ramdiskAddr, ramdiskSize) => reserveSpan pmm ramdiskAddr (ramdiskAddr + ramdiskSize)

/-- The ranges `kmain` passes to `protect_boot_memory`. -/
structure BootRanges where
  kernelPhysStart : ℕ
  kernelPhysEnd : ℕ
  heapStart : ℕ
  heapSize : ℕ
  ramdisk : Option (ℕ × ℕ)

def bootPmm (memmap : Memmap) (r : BootRanges) : Pmm :=
  let pmm := (initPmmFromLimine memmap .new).2
  let pmm := protectBootMemory r.kernelPhysStart r.kernelPhysEnd r.heapStart r.heapSize r.ramdisk pmm
  reclaimBootMemory memmap pmm

/-- Some entry of a wanted type has `f` among its whole frames. -/
def Covers (wanted : BitVec 64 → Bool) (entries : List (Option MemmapEntry)) (f : ℕ) : Prop :=
  ∃ e, some e ∈ entries ∧ wanted e.typ = true ∧
    e.base.toNat / 4096 ≤ f ∧ f < e.base.toNat / 4096 + e.length.toNat / 4096

def Memmap.Covers (memmap : Memmap) (wanted : BitVec 64 → Bool) (f : ℕ) : Prop :=
  ∃ entries, memmap = some entries ∧ Memory.Covers wanted entries f

/-- Frame `f` is in a span that `protect_boot_memory` reserves. -/
def InSpan (start stop f : ℕ) : Prop := start / 4096 ≤ f ∧ f < wrap64 (stop + 4095) / 4096

def BootRanges.Protects (r : BootRanges) (f : ℕ) : Prop :=
  InSpan r.kernelPhysStart r.kernelPhysEnd f ∨ InSpan r.heapStart (r.heapStart + r.heapSize) f ∨
    ∃ addr size, r.ramdisk = some (addr, size) ∧ InSpan addr (addr + size) f

theorem isFree_freeEntries (wanted : BitVec 64 → Bool) (entries : List (Option MemmapEntry))
    (pmm : Pmm) (f : ℕ) :
    (entries.foldl (freeEntry wanted) pmm).IsFree f ↔
      pmm.IsFree f ∨ (Covers wanted entries f ∧ f ≠ 0 ∧ f < 65536) := by
  induction entries generalizing pmm with
  | nil => simp [Covers]
  | cons entry entries ih =>
    rw [List.foldl_cons, ih]
    have hhead : (freeEntry wanted pmm entry).IsFree f ↔
        pmm.IsFree f ∨ (Covers wanted [entry] f ∧ f ≠ 0 ∧ f < 65536) := by
      cases entry with
      | none => simp [freeEntry, Covers]
      | some e =>
        by_cases hw : wanted e.typ = true
        · rw [freeEntry, if_pos hw, BitmapAllocator.isFree_freeRange]
          simp [Covers, hw, and_assoc]
        · rw [freeEntry, if_neg hw]
          simp [Covers, hw]
    have hsplit : Covers wanted (entry :: entries) f ↔
        Covers wanted [entry] f ∨ Covers wanted entries f := by
      unfold Covers
      simp only [List.mem_cons, List.not_mem_nil, or_false, or_and_right, exists_or]
    rw [hhead, hsplit, or_and_right, or_assoc]

theorem isFree_reserveSpan (pmm : Pmm) (start stop f : ℕ) :
    (reserveSpan pmm start stop).IsFree f ↔ pmm.IsFree f ∧ ¬ InSpan start stop f := by
  unfold reserveSpan InSpan
  dsimp only
  split_ifs with h
  · rw [BitmapAllocator.isFree_reserveRange, Nat.add_sub_cancel' h.le]
  · refine (and_iff_left ?_).symm
    omega

theorem isFree_protectBootMemory (r : BootRanges) (pmm : Pmm) (f : ℕ) :
    (protectBootMemory r.kernelPhysStart r.kernelPhysEnd r.heapStart r.heapSize r.ramdisk
      pmm).IsFree f ↔ pmm.IsFree f ∧ 256 ≤ f ∧ ¬ r.Protects f := by
  obtain ⟨ks, ke, hs, hz, ramdisk⟩ := r
  unfold protectBootMemory BootRanges.Protects
  cases ramdisk with
  | none =>
    simp only [isFree_reserveSpan, BitmapAllocator.isFree_reserveRange]
    simp only [reduceCtorEq, false_and, exists_false, or_false, not_or, Nat.zero_le, true_and,
      Nat.zero_add, Nat.not_lt]
    tauto
  | some d =>
    obtain ⟨addr, size⟩ := d
    simp only [isFree_reserveSpan, BitmapAllocator.isFree_reserveRange]
    simp only [Option.some.injEq, Prod.mk.injEq, and_assoc, exists_and_left, exists_eq_left',
      not_or, Nat.zero_le, true_and, Nat.zero_add, Nat.not_lt]

/-- A frame the boot passes release: reclaimed, or usable and not protected. -/
def Released (memmap : Memmap) (r : BootRanges) (f : ℕ) : Prop :=
  memmap.Covers isReclaimable f ∨ (memmap.Covers isUsable f ∧ ¬ r.Protects f)

/-- Reclaiming comes last, so it overrides every protection but that of the first 1 MiB. -/
theorem isFree_bootPmm (memmap : Memmap) (r : BootRanges) (f : ℕ) :
    (bootPmm memmap r).IsFree f ↔ 256 ≤ f ∧ f < 65536 ∧ Released memmap r f := by
  unfold bootPmm Released Memmap.Covers
  cases memmap with
  | none => simp [reclaimBootMemory, initPmmFromLimine, isFree_protectBootMemory]
  | some entries =>
    simp only [reclaimBootMemory, initPmmFromLimine, BitmapAllocator.isFree_reserveRange,
      isFree_freeEntries, isFree_protectBootMemory, BitmapAllocator.not_isFree_new,
      Option.some.injEq, exists_eq_left', Nat.zero_le, true_and, Nat.zero_add, Nat.not_lt, false_or]
    constructor
    · tauto
    · rintro ⟨h1, h2, h3⟩
      have hf : f ≠ 0 := by omega
      tauto

/-- `init_pmm_static`: aarch64 has no memory map to read. -/
def initPmmStatic (pmm : Pmm) : Pmm := pmm.freeRange 0 (1024 * 64)

def bootPmmStatic (r : BootRanges) : Pmm :=
  protectBootMemory r.kernelPhysStart r.kernelPhysEnd r.heapStart r.heapSize r.ramdisk
    (initPmmStatic .new)

theorem isFree_bootPmmStatic (r : BootRanges) (f : ℕ) :
    (bootPmmStatic r).IsFree f ↔ 256 ≤ f ∧ f < 65536 ∧ ¬ r.Protects f := by
  rw [bootPmmStatic, isFree_protectBootMemory, initPmmStatic, BitmapAllocator.isFree_freeRange]
  simp only [BitmapAllocator.not_isFree_new, false_or]
  constructor
  · rintro ⟨⟨-, hlt, -⟩, hge, hprotects⟩
    exact ⟨hge, by omega, hprotects⟩
  · rintro ⟨hge, hlt, hprotects⟩
    exact ⟨by omega, hge, hprotects⟩

def Intersects (start stop f : ℕ) : Prop := ∃ x, start ≤ x ∧ x < stop ∧ x / 4096 = f

/-- The frames the boot sequence must never release. -/
def BootRanges.Critical (r : BootRanges) (f : ℕ) : Prop :=
  Intersects 0 0x100000 f ∨ Intersects r.kernelPhysStart r.kernelPhysEnd f ∨
    Intersects r.heapStart (r.heapStart + r.heapSize) f

theorem intersects_low_iff (f : ℕ) : Intersects 0 0x100000 f ↔ f < 256 := by
  constructor
  · rintro ⟨x, -, hx, rfl⟩
    omega
  · intro hf
    exact ⟨f * 4096, by omega, by omega, by omega⟩

/-- The critical frames stay out of the pool exactly when no reclaimable entry covers a frame of
the kernel or the heap that the bitmap tracks, and no usable entry covers one that the wrapped
rounding leaves unprotected. -/
theorem bootPmm_keeps_critical_iff (memmap : Memmap) (r : BootRanges) :
    (∀ f, r.Critical f → ¬ (bootPmm memmap r).IsFree f) ↔
      ∀ f, 256 ≤ f → f < 65536 →
        Intersects r.kernelPhysStart r.kernelPhysEnd f ∨
          Intersects r.heapStart (r.heapStart + r.heapSize) f →
        ¬ memmap.Covers isReclaimable f ∧ (memmap.Covers isUsable f → r.Protects f) := by
  constructor
  · intro h f hlow hhigh hrange
    have hf := h f (Or.inr hrange)
    rw [isFree_bootPmm] at hf
    refine ⟨fun hc => hf ⟨hlow, hhigh, Or.inl hc⟩, fun hu => ?_⟩
    by_contra hp
    exact hf ⟨hlow, hhigh, Or.inr ⟨hu, hp⟩⟩
  · intro h f hcrit hfree
    obtain ⟨hlow, hhigh, hrel⟩ := (isFree_bootPmm memmap r f).mp hfree
    rcases hcrit with hc | hrange
    · rw [intersects_low_iff] at hc
      omega
    · obtain ⟨hnot, hprot⟩ := h f hlow hhigh hrange
      rcases hrel with hcov | ⟨hu, hp⟩
      · exact hnot hcov
      · exact hp (hprot hu)

/-- A map whose bootloader-reclaimable entry lies over the heap at its fixed x86_64 address. -/
def memmapOverHeap : Memmap :=
  some [some ⟨0x150000#64, 0x1000#64, limineMemmapBootloaderReclaimable⟩]

def kmainRanges : BootRanges where
  kernelPhysStart := 0x200000
  kernelPhysEnd := 0x300000
  heapStart := 0x150000
  heapSize := 0xA0000
  ramdisk := none

theorem bootPmm_releases_heap :
    kmainRanges.Critical 0x150 ∧ (bootPmm memmapOverHeap kmainRanges).IsFree 0x150 := by
  refine ⟨Or.inr (Or.inr ⟨0x150000, by decide, by decide, by decide⟩), ?_⟩
  rw [isFree_bootPmm]
  refine ⟨by decide, by decide, Or.inl ⟨_, rfl, _, List.mem_singleton_self _, ?_⟩⟩
  decide

section WholeFrames

def isReleased (typ : BitVec 64) : Bool := isUsable typ || isReclaimable typ

def MemmapEntry.Contains (e : MemmapEntry) (x : ℕ) : Prop :=
  e.base.toNat ≤ x ∧ x < e.base.toNat + e.length.toNat

/-- Byte `x` belongs to an entry of a type that is freed. -/
def Memmap.Contains (memmap : Memmap) (x : ℕ) : Prop :=
  ∃ entries, memmap = some entries ∧ ∃ e, some e ∈ entries ∧ isReleased e.typ = true ∧ e.Contains x

def Memmap.entries (memmap : Memmap) : List MemmapEntry := (memmap.getD []).filterMap id

/-- The entries end below 2^64 and do not overlap. -/
def Memmap.Valid (memmap : Memmap) : Prop :=
  (∀ e ∈ memmap.entries, e.base.toNat + e.length.toNat < 2 ^ 64) ∧
    memmap.entries.Pairwise fun e e' => e.base.toNat + e.length.toNat ≤ e'.base.toNat ∨
      e'.base.toNat + e'.length.toNat ≤ e.base.toNat

/-- The bitmap after `init_pmm_from_limine` and `reclaim_boot_memory`. -/
def releasedPmm (memmap : Memmap) : Pmm :=
  reclaimBootMemory memmap (initPmmFromLimine memmap .new).2

theorem isFree_releasedPmm (memmap : Memmap) (f : ℕ) :
    (releasedPmm memmap).IsFree f ↔ 256 ≤ f ∧ f < 65536 ∧ memmap.Covers isReleased f := by
  have hsplit : ∀ entries, Covers isReleased entries f ↔
      Covers isUsable entries f ∨ Covers isReclaimable entries f := by
    intro entries
    simp only [Covers, isReleased, Bool.or_eq_true, or_and_right, and_or_left, exists_or]
  unfold releasedPmm Memmap.Covers
  cases memmap with
  | none => simp [reclaimBootMemory, initPmmFromLimine]
  | some entries =>
    simp only [reclaimBootMemory, initPmmFromLimine, BitmapAllocator.isFree_reserveRange,
      isFree_freeEntries, BitmapAllocator.not_isFree_new, hsplit, Option.some.injEq,
      exists_eq_left', Nat.zero_le, true_and, Nat.zero_add, Nat.not_lt, false_or]
    constructor
    · tauto
    · rintro ⟨h1, h2, h3⟩
      have hf : f ≠ 0 := by omega
      tauto

/-- The free frames lie entirely in freed entries exactly when, for every freed entry of a page or
more whose first frame is tracked and above the first 1 MiB, the bytes between the page boundary
and its base belong to freed entries as well. -/
theorem freeFrames_usable_iff (memmap : Memmap) :
    (∀ f, (releasedPmm memmap).IsFree f → ∀ x, x / 4096 = f → memmap.Contains x) ↔
      ∀ entries, memmap = some entries → ∀ e, some e ∈ entries → isReleased e.typ = true →
        4096 ≤ e.length.toNat → 256 ≤ e.base.toNat / 4096 → e.base.toNat / 4096 < 65536 →
        ∀ x, e.base.toNat / 4096 * 4096 ≤ x → x < e.base.toNat → memmap.Contains x := by
  constructor
  · intro h entries hmap e he htyp hlen hlow hhigh x hx hx'
    have hfree : (releasedPmm memmap).IsFree (e.base.toNat / 4096) := by
      rw [isFree_releasedPmm]
      exact ⟨hlow, hhigh, entries, hmap, e, he, htyp, le_refl _, by omega⟩
    exact h _ hfree x (by omega)
  · intro h f hfree x hx
    obtain ⟨hlow, hhigh, entries, hmap, e, he, htyp, hfirst, hlast⟩ :=
      (isFree_releasedPmm memmap f).mp hfree
    by_cases hbase : e.base.toNat ≤ x
    · -- the frames of an entry do not reach beyond its end
      exact ⟨entries, hmap, e, he, htyp, hbase, by omega⟩
    · -- below the base only the first frame is left
      exact h entries hmap e he htyp (by omega) (by omega) (by omega) x (by omega) (by omega)

/-- ACPI tables that start in the middle of a page, after memory the firmware keeps. -/
def unalignedMemmap : Memmap :=
  some [some ⟨0x7F00000#64, 0x800#64, 3#64⟩,
    some ⟨0x7F00800#64, 0x1800#64, limineMemmapAcpiReclaimable⟩]

/-- The frame that the two share is handed out. -/
theorem unaligned_frame_released :
    unalignedMemmap.Valid ∧ (releasedPmm unalignedMemmap).IsFree 0x7F00 ∧
      ¬ unalignedMemmap.Contains 0x7F00000 := by
  refine ⟨⟨by decide, by decide⟩, ?_, ?_⟩
  · rw [isFree_releasedPmm]
    refine ⟨by decide, by decide, _, rfl, _, List.mem_cons_of_mem _ (List.mem_singleton_self _), ?_⟩
    decide
  · rintro ⟨entries, hmap, e, he, htyp, hlow, -⟩
    rw [← Option.some.inj hmap] at he
    rcases List.mem_cons.mp he with he | he
    · obtain rfl := Option.some.inj he
      exact absurd htyp (by decide)
    · obtain rfl := Option.some.inj (List.mem_singleton.mp he)
      exact absurd hlow (by decide)

end WholeFrames

end MitosOS.Memory
