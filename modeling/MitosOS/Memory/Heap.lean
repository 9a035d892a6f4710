import MitosOS.Lib.Bits
import MitosOS.Lib.ByteMemory
import Mathlib.Logic.Function.Basic

/-! The kernel heap: a bump allocator in front of nine power-of-two free lists whose links are
stored in the freed blocks. Pointers are the virtual addresses the source works with; memory is
physical and read through `virtToPhys`. -/
namespace MitosOS.Memory
open MitosOS.Lib

/-- A layout that `GlobalAlloc` may be called with: the alignment is a power of two, the size is
not zero, and rounding it up to the alignment stays within `isize::MAX`. -/
structure Layout where
  size : ℕ
  align : ℕ
  align_pow : ∃ k, align = 2 ^ k
  size_pos : 0 < size
  size_le : size + align ≤ 2 ^ 63

def minBlockSize : ℕ := 8

theorem Layout.align_le (l : Layout) : l.align ≤ 2 ^ 62 := by
  obtain ⟨k, hk⟩ := l.align_pow
  have hlt : 2 ^ k < 2 ^ 63 := by
    have hpos := l.size_pos
    have hle := l.size_le
    omega
  have hk' : k < 63 := (Nat.pow_lt_pow_iff_right (by decide)).mp hlt
  rw [hk]
  exact Nat.pow_le_pow_right (by decide) (by omega)

theorem Layout.align_pos (l : Layout) : 0 < l.align := by
  obtain ⟨k, hk⟩ := l.align_pow
  rw [hk]
  exact Nat.two_pow_pos k

/-- `Layout::from_size_align(size.max(MIN_BLOCK_SIZE), align).unwrap()`, which never panics on a
non-zero size. -/
def Layout.clamp (l : Layout) : Layout where
  size := max l.size minBlockSize
  align := l.align
  align_pow := l.align_pow
  size_pos := lt_of_lt_of_le l.size_pos (le_max_left _ _)
  size_le := by
    have hle := l.size_le
    have ha := l.align_le
    unfold minBlockSize
    omega

def nextPowerOfTwo (n : ℕ) : ℕ := if n ≤ 1 then 1 else 2 ^ (Nat.log2 (n - 1) + 1)

/-- The free list for a layout. The rounded size is a power of two, so its trailing zeros are its
logarithm. -/
def targetBucketIndex (layout : Layout) : Option (Fin 9) :=
  let size := nextPowerOfTwo (max layout.size layout.align)
  if h : 2048 < size then none
  else some ⟨Nat.log2 size - 3, by
    have hlog : Nat.log2 size < 12 := by
      by_cases hz : size = 0
      · rw [hz]
        decide
      · exact (Nat.log2_lt hz).mpr (by omega)
    omega⟩

structure FastBlockAllocator where
  /-- Heads of the free lists; 0 is the null pointer. -/
  buckets : Fin 9 → ℕ
  heapStart : ℕ
  heapEnd : ℕ
  nextFreeByte : ℕ

def FastBlockAllocator.new : FastBlockAllocator where
  buckets _ := 0
  heapStart := 0
  heapEnd := 0
  nextFreeByte := 0

/-- The global allocator with the state it depends on: the offset of `phys_to_virt` (0 on
aarch64), the `INITIALIZED` flag and the memory its blocks live in. -/
structure Heap where
  hhdmOffset : ℕ
  initialized : Bool
  allocator : FastBlockAllocator
  mem : Memory

namespace Heap

def physToVirt (h : Heap) (phys : ℕ) : ℕ := wrap64 (phys + h.hhdmOffset)

/-- The physical address behind a pointer; the inverse of `physToVirt`. -/
def phys (h : Heap) (ptr : ℕ) : ℕ := wrap64 (ptr + (2 ^ 64 - h.hhdmOffset % 2 ^ 64))

def next (h : Heap) (node : ℕ) : ℕ := (h.mem.load64 (h.phys node)).toNat

def init (h : Heap) (start size : ℕ) : Heap :=
  { h with
    initialized := true
    allocator := { h.allocator with
      heapStart := start
      heapEnd := wrap64 (start + size)
      nextFreeByte := start } }

/-- The rounded-up start of the next bump allocation. -/
def allocStart (h : Heap) (align : ℕ) : ℕ :=
  alignDown (wrap64 (h.allocator.nextFreeByte + align - 1)) align

/-- Carve a block of exactly the layout's size off the unused end of the heap. -/
def fallbackAlloc (h : Heap) (layout : Layout) : ℕ × Heap :=
  let allocEnd := h.allocStart layout.align + layout.size
  if allocEnd < 2 ^ 64 ∧ allocEnd ≤ h.allocator.heapEnd then
    (h.physToVirt (h.allocStart layout.align),
      { h with allocator := { h.allocator with nextFreeByte := allocEnd } })
  else (0, h)

/-- The free list an allocation is served from, when there is one and it is not empty. -/
def servingBucket (h : Heap) (layout : Layout) : Option (Fin 9) :=
  (targetBucketIndex layout).filter fun index => h.allocator.buckets index != 0

def popBucket (h : Heap) (index : Fin 9) : ℕ × Heap :=
  let node := h.allocator.buckets index
  (node, { h with allocator := { h.allocator with
    buckets := Function.update h.allocator.buckets index (h.next node) } })

def zeroBlock (h : Heap) (ptr size : ℕ) : Heap := { h with mem := h.mem.fill (h.phys ptr) size 0 }

def alloc (h : Heap) (layout : Layout) : ℕ × Heap :=
  if !h.initialized then (0, h)
  else
    let layout := layout.clamp
    let (ptr, h) :=
      match h.servingBucket layout with
      | some index => h.popBucket index
      | none => h.fallbackAlloc layout
    if ptr ≠ 0 then (ptr, h.zeroBlock ptr layout.size) else (ptr, h)

def pushBucket (h : Heap) (index : Fin 9) (ptr : ℕ) : Heap :=
  { h with
    mem := h.mem.store64 (h.phys ptr) (BitVec.ofNat 64 (h.allocator.buckets index))
    allocator := { h.allocator with
      buckets := Function.update h.allocator.buckets index ptr } }

def dealloc (h : Heap) (ptr : ℕ) (layout : Layout) : Heap :=
  if ptr = 0 then h
  else
    match targetBucketIndex layout.clamp with
    | some index => h.pushBucket index ptr
    | none => h

theorem phys_physToVirt (h : Heap) {a : ℕ} (ha : a < 2 ^ 64) : h.phys (h.physToVirt a) = a := by
  unfold phys physToVirt wrap64
  omega

theorem servingBucket_eq_some_iff {h : Heap} {layout : Layout} {index : Fin 9} :
    h.servingBucket layout = some index ↔
      targetBucketIndex layout = some index ∧ h.allocator.buckets index ≠ 0 := by
  unfold servingBucket
  rw [Option.filter_eq_some_iff, bne_iff_ne]

theorem servingBucket_eq_none_of_large {h : Heap} {layout : Layout}
    (hlarge : targetBucketIndex layout = none) : h.servingBucket layout = none := by
  unfold servingBucket
  rw [hlarge]
  rfl

theorem servingBucket_ne_zero {h : Heap} {layout : Layout} {index : Fin 9}
    (hi : h.servingBucket layout = some index) : h.allocator.buckets index ≠ 0 :=
  (servingBucket_eq_some_iff.mp hi).2

theorem alloc_recycled {h : Heap} {layout : Layout} {index : Fin 9} (hinit : h.initialized = true)
    (hserve : h.servingBucket layout.clamp = some index) :
    h.alloc layout = (h.allocator.buckets index,
      (h.popBucket index).2.zeroBlock (h.allocator.buckets index) layout.clamp.size) := by
  have hne := servingBucket_ne_zero hserve
  have hptr : (h.popBucket index).1 = h.allocator.buckets index := rfl
  unfold alloc
  simp only [hinit, hserve, hptr, hne, Bool.not_true, Bool.false_eq_true, if_false, ne_eq,
    not_false_eq_true, if_true]

theorem initialized_of_alloc {h : Heap} {layout : Layout} (hne : (h.alloc layout).1 ≠ 0) :
    h.initialized = true := by
  cases hinit : h.initialized with
  | true => rfl
  | false => simp [alloc, hinit] at hne

/-- Rounding that does not wrap never moves below the bytes already handed out. -/
theorem nextFreeByte_le_allocStart {h : Heap} {align : ℕ} (ha : 0 < align)
    (hw : h.allocator.nextFreeByte + align - 1 < 2 ^ 64) :
    h.allocator.nextFreeByte ≤ h.allocStart align := by
  unfold allocStart
  rw [wrap64_of_lt hw]
  have hlt := lt_alignDown_add (a := h.allocator.nextFreeByte + align - 1) ha
  omega

/-- A successful allocation that no free list serves lies at the rounded-up end of the used part. -/
theorem alloc_carved {h : Heap} {layout : Layout} (hserve : h.servingBucket layout.clamp = none)
    (hne : (h.alloc layout).1 ≠ 0) :
    h.allocStart layout.align + layout.clamp.size < 2 ^ 64 ∧
      (h.alloc layout).1 = h.physToVirt (h.allocStart layout.align) ∧
      (h.alloc layout).2.allocator.nextFreeByte =
        h.allocStart layout.align + layout.clamp.size ∧
      (h.alloc layout).2.hhdmOffset = h.hhdmOffset := by
  have hclamp : layout.clamp.align = layout.align := rfl
  unfold alloc at hne ⊢
  cases hinit : h.initialized with
  | false => simp [hinit] at hne
  | true =>
    simp only [hinit, hserve, Bool.not_true, Bool.false_eq_true, if_false] at hne ⊢
    unfold fallbackAlloc at hne ⊢
    by_cases hend : h.allocStart layout.align + layout.clamp.size < 2 ^ 64 ∧
        h.allocStart layout.align + layout.clamp.size ≤ h.allocator.heapEnd
    · simp only [hclamp, hend, and_self, if_true] at hne ⊢
      by_cases hnull : h.physToVirt (h.allocStart layout.align) = 0
      · simp [hnull] at hne
      · simp only [hnull, ne_eq, not_false_eq_true, if_true]
        exact ⟨trivial, trivial, rfl, rfl⟩
    · simp only [hclamp, hend, if_false, ne_eq, not_true_eq_false] at hne

theorem nextFreeByte_le_heapEnd {h : Heap} {layout : Layout}
    (hserve : h.servingBucket layout.clamp = none) (hne : (h.alloc layout).1 ≠ 0) :
    (h.alloc layout).2.allocator.nextFreeByte ≤ h.allocator.heapEnd := by
  rw [(alloc_carved hserve hne).2.2.1]
  have hinit := initialized_of_alloc hne
  have hclamp : layout.clamp.align = layout.align := rfl
  by_contra hover
  simp [alloc, hinit, hserve, fallbackAlloc, hclamp, hover] at hne

end Heap

end MitosOS.Memory
