import MitosOS.Memory.HeapRuns
import Mathlib.Logic.Function.Iterate

/-! What a freed block is good for. A free list hands its blocks out again without looking at the
alignment they were carved for, and blocks above the largest list are never linked at all. -/
namespace MitosOS.Memory
open MitosOS.Lib

section Buckets

theorem nextPowerOfTwo_eq_pow (n : ℕ) : ∃ k, nextPowerOfTwo n = 2 ^ k := by
  unfold nextPowerOfTwo
  split_ifs
  · exact ⟨0, rfl⟩
  · exact ⟨_, rfl⟩

theorem nextPowerOfTwo_le_pow_iff (n k : ℕ) : nextPowerOfTwo n ≤ 2 ^ k ↔ n ≤ 2 ^ k := by
  have hpos := Nat.two_pow_pos k
  unfold nextPowerOfTwo
  split_ifs with hn
  · omega
  · have hlog : Nat.log2 (n - 1) < k ↔ n - 1 < 2 ^ k := Nat.log2_lt (by omega)
    rw [Nat.pow_le_pow_iff_right (by decide), Nat.succ_le_iff, hlog]
    omega

theorem le_nextPowerOfTwo (n : ℕ) : n ≤ nextPowerOfTwo n := by
  obtain ⟨k, hk⟩ := nextPowerOfTwo_eq_pow n
  rw [hk]
  exact (nextPowerOfTwo_le_pow_iff n k).mp hk.le

theorem nextPowerOfTwo_pow (k : ℕ) : nextPowerOfTwo (2 ^ k) = 2 ^ k :=
  le_antisymm ((nextPowerOfTwo_le_pow_iff _ k).mpr le_rfl) (le_nextPowerOfTwo _)

/-- The lists serve exactly the requests of at most 2048 bytes and alignment. -/
theorem targetBucketIndex_eq_none_iff (layout : Layout) :
    targetBucketIndex layout.clamp = none ↔ 2048 < max layout.size layout.align := by
  have hle := nextPowerOfTwo_le_pow_iff (max layout.clamp.size layout.clamp.align) 11
  have hmax : max layout.clamp.size layout.clamp.align ≤ 2 ^ 11 ↔
      max layout.size layout.align ≤ 2048 := by
    show max (max layout.size 8) layout.align ≤ 2 ^ 11 ↔ _
    omega
  rw [hmax] at hle
  unfold targetBucketIndex
  simp only [dite_eq_left_iff, reduceCtorEq, imp_false, not_not]
  omega

theorem targetBucketIndex_eq_some_iff (layout : Layout) (i : Fin 9) :
    targetBucketIndex layout.clamp = some i ↔
      nextPowerOfTwo (max layout.clamp.size layout.align) = 2 ^ (i.val + 3) := by
  obtain ⟨k, hk⟩ := nextPowerOfTwo_eq_pow (max layout.clamp.size layout.align)
  have h3 : 3 ≤ k := by
    have h8 : 2 ^ 3 ≤ 2 ^ k :=
      ((le_max_right _ _).trans (le_max_left _ _)).trans ((le_nextPowerOfTwo _).trans hk.le)
    exact (Nat.pow_le_pow_iff_right (by decide)).mp h8
  have hpow : 2048 < 2 ^ k ↔ 11 < k := Nat.pow_lt_pow_iff_right (a := 2) (n := 11) (by decide)
  have hclamp : layout.clamp.align = layout.align := rfl
  unfold targetBucketIndex
  simp only [hclamp, hk, Nat.log2_two_pow, Nat.pow_right_inj (le_refl 2)]
  have hi := i.isLt
  split_ifs with hbig
  · have h11 := hpow.mp hbig
    simp only [false_iff]
    omega
  · rw [Option.some_inj, Fin.ext_iff]
    show k - 3 = i.val ↔ _
    omega

/-- A request that goes to list `i` is aligned to at most the list's block size. -/
theorem align_eq_pow_of_targetBucketIndex {layout : Layout} {i : Fin 9}
    (hi : targetBucketIndex layout.clamp = some i) :
    ∃ k, k ≤ i.val + 3 ∧ layout.align = 2 ^ k := by
  obtain ⟨k, hk⟩ := layout.align_pow
  refine ⟨k, ?_, hk⟩
  have hle : 2 ^ k ≤ 2 ^ (i.val + 3) := by
    rw [← hk, ← (targetBucketIndex_eq_some_iff layout i).mp hi]
    exact (le_max_right _ _).trans (le_nextPowerOfTwo _)
  exact (Nat.pow_le_pow_iff_right (by decide)).mp hle

end Buckets

namespace Heap

structure Kept (h h' : Heap) : Prop where
  hhdmOffset : h'.hhdmOffset = h.hhdmOffset
  initialized : h'.initialized = h.initialized
  heapEnd : h'.allocator.heapEnd = h.allocator.heapEnd

theorem Kept.trans {h h' h'' : Heap} (h₁ : Kept h h') (h₂ : Kept h' h'') : Kept h h'' where
  hhdmOffset := h₂.hhdmOffset.trans h₁.hhdmOffset
  initialized := h₂.initialized.trans h₁.initialized
  heapEnd := h₂.heapEnd.trans h₁.heapEnd

theorem fallbackAlloc_kept (h : Heap) (layout : Layout) : Kept h (h.fallbackAlloc layout).2 := by
  unfold fallbackAlloc
  dsimp only
  split_ifs
  · exact ⟨rfl, rfl, rfl⟩
  · exact ⟨rfl, rfl, rfl⟩

theorem alloc_kept (h : Heap) (layout : Layout) : Kept h (h.alloc layout).2 := by
  cases hinit : h.initialized with
  | false =>
    simp only [alloc, hinit, Bool.not_false, if_true]
    exact ⟨rfl, rfl, rfl⟩
  | true =>
    cases hserve : h.servingBucket layout.clamp with
    | some index =>
      rw [alloc_recycled hinit hserve]
      exact ⟨rfl, rfl, rfl⟩
    | none =>
      have hkept := fallbackAlloc_kept h layout.clamp
      simp only [alloc, hinit, hserve, Bool.not_true, Bool.false_eq_true, if_false]
      split_ifs
      · exact hkept.trans ⟨rfl, rfl, rfl⟩
      · exact hkept

theorem dealloc_kept (h : Heap) (ptr : ℕ) (layout : Layout) : Kept h (h.dealloc ptr layout) := by
  unfold dealloc
  split_ifs
  · exact ⟨rfl, rfl, rfl⟩
  · cases targetBucketIndex layout.clamp with
    | none => exact ⟨rfl, rfl, rfl⟩
    | some index => exact ⟨rfl, rfl, rfl⟩

end Heap

section Alignment

theorem Layout.align_dvd_two_pow (l : Layout) : l.align ∣ 2 ^ 64 := by
  obtain ⟨k, hk⟩ := l.align_pow
  have hle : 2 ^ k ≤ 2 ^ 62 := hk ▸ l.align_le
  rw [hk]
  apply Nat.pow_dvd_pow
  exact ((Nat.pow_le_pow_iff_right (by decide)).mp hle).trans (by decide)

theorem Heap.align_dvd_carved (h : Heap) (layout : Layout) (hoff : layout.align ∣ h.hhdmOffset) :
    layout.align ∣ h.physToVirt (h.allocStart layout.align) := by
  unfold Heap.physToVirt wrap64
  rw [Nat.dvd_mod_iff layout.align_dvd_two_pow]
  exact Nat.dvd_add (Nat.dvd_of_mod_eq_zero (alignDown_mod _ _)) hoff

theorem HeapStep.kept {s s' : HeapRun} (hstep : HeapStep s s') : s.heap.Kept s'.heap := by
  obtain ⟨c, -, rfl⟩ := hstep
  cases c with
  | alloc layout =>
    have hkept := s.heap.alloc_kept layout
    unfold HeapCall.run
    dsimp only
    split_ifs
    · exact hkept
    · exact hkept
  | dealloc k =>
    unfold HeapCall.run
    dsimp only
    cases s.live[k]? with
    | none => exact ⟨rfl, rfl, rfl⟩
    | some b => exact s.heap.dealloc_kept b.ptr b.layout
  | write mem => exact ⟨rfl, rfl, rfl⟩

theorem HeapStep.kept_of_run {s s' : HeapRun} (hrun : Relation.ReflTransGen HeapStep s s') :
    s.heap.Kept s'.heap := by
  induction hrun with
  | refl => exact ⟨rfl, rfl, rfl⟩
  | tail _ hstep ih => exact ih.trans hstep.kept

def blockLayout (i : Fin 9) (k : ℕ) (hk : k ≤ i.val + 3) : Layout where
  size := 2 ^ (i.val + 3)
  align := 2 ^ k
  align_pow := ⟨k, rfl⟩
  size_pos := Nat.two_pow_pos _
  size_le := by
    have hi := i.isLt
    have hsize : 2 ^ (i.val + 3) ≤ 2 ^ 62 := Nat.pow_le_pow_right (by decide) (by omega)
    have halign : 2 ^ k ≤ 2 ^ 62 := Nat.pow_le_pow_right (by decide) (by omega)
    omega

theorem targetBucketIndex_blockLayout (i : Fin 9) (k : ℕ) (hk : k ≤ i.val + 3) :
    targetBucketIndex (blockLayout i k hk).clamp = some i := by
  rw [targetBucketIndex_eq_some_iff]
  have h8 : 8 ≤ 2 ^ (i.val + 3) := Nat.pow_le_pow_right (n := 2) (i := 3) (by decide) (by omega)
  have halign : 2 ^ k ≤ 2 ^ (i.val + 3) := Nat.pow_le_pow_right (by decide) hk
  have hmax : max (blockLayout i k hk).clamp.size (blockLayout i k hk).align =
      2 ^ (i.val + 3) := by
    show max (max (2 ^ (i.val + 3)) 8) (2 ^ k) = _
    rw [max_eq_left h8, max_eq_left halign]
  rw [hmax, nextPowerOfTwo_pow]

/-- After any calls, every block the heap can hand out next honours its alignment exactly when
the first block of every free list is aligned to the size of the list's blocks, as far as the
offset of the direct map is. Nothing in `dealloc` sees to that. -/
theorem alloc_aligned_iff (hhdmOffset : ℕ) (mem : Memory) (heapStart heapSize : ℕ) (s : HeapRun)
    (hrun : Relation.ReflTransGen HeapStep
      (HeapRun.start hhdmOffset mem heapStart heapSize) s) :
    (∀ layout : Layout, layout.align ∣ hhdmOffset → (s.heap.alloc layout).1 ≠ 0 →
      layout.align ∣ (s.heap.alloc layout).1) ↔
    ∀ (i : Fin 9) (k : ℕ), k ≤ i.val + 3 → 2 ^ k ∣ hhdmOffset →
      2 ^ k ∣ s.heap.allocator.buckets i := by
  have hkept := HeapStep.kept_of_run hrun
  have hinit : s.heap.initialized = true := hkept.initialized
  have hoffset : s.heap.hhdmOffset = hhdmOffset := hkept.hhdmOffset
  constructor
  · intro haligned i k hk hoff
    by_cases hempty : s.heap.allocator.buckets i = 0
    · rw [hempty]
      exact dvd_zero _
    · have hserve : s.heap.servingBucket (blockLayout i k hk).clamp = some i :=
        Heap.servingBucket_eq_some_iff.mpr ⟨targetBucketIndex_blockLayout i k hk, hempty⟩
      have hptr : (s.heap.alloc (blockLayout i k hk)).1 = s.heap.allocator.buckets i := by
        rw [Heap.alloc_recycled hinit hserve]
      rw [← hptr]
      exact haligned (blockLayout i k hk) hoff (hptr ▸ hempty)
  · intro hheads layout hoff hne
    cases hserve : s.heap.servingBucket layout.clamp with
    | some i =>
      obtain ⟨k, hk, halign⟩ :=
        align_eq_pow_of_targetBucketIndex (Heap.servingBucket_eq_some_iff.mp hserve).1
      rw [Heap.alloc_recycled hinit hserve, halign]
      exact hheads i k hk (halign ▸ hoff)
    | none =>
      rw [(Heap.alloc_carved hserve hne).2.1]
      exact s.heap.align_dvd_carved layout (hoffset ▸ hoff)

/-- As long as nothing was freed, every block is aligned. -/
theorem alloc_aligned_boot :
    Relation.ReflTransGen HeapStep bootHeap (alloc8.run bootHeap) ∧
      ∀ layout : Layout, layout.align ∣ 0xFFFF800000000000 →
        ((alloc8.run bootHeap).heap.alloc layout).1 ≠ 0 →
        layout.align ∣ ((alloc8.run bootHeap).heap.alloc layout).1 := by
  have hrun : Relation.ReflTransGen HeapStep bootHeap (alloc8.run bootHeap) :=
    Relation.ReflTransGen.single ⟨alloc8, trivial, rfl⟩
  have hempty : ∀ i, (alloc8.run bootHeap).heap.allocator.buckets i = 0 := by decide
  refine ⟨hrun, (alloc_aligned_iff 0xFFFF800000000000 (fun _ => 0) 0x150000 0xA0000 _ hrun).mpr ?_⟩
  intro i k _ _
  rw [hempty i]
  exact dvd_zero _

def alloc64 : HeapCall := .alloc (wordLayout 64 (by decide) (by decide))

/-- A word and a 64-byte block behind it are carved, and the 64-byte block is freed. -/
def misalignedRun : HeapRun := (HeapCall.dealloc 0).run (alloc64.run (alloc8.run bootHeap))

/-- A block carved for 8-byte alignment comes back for a request of 64. -/
theorem alloc_misaligned :
    Relation.ReflTransGen HeapStep bootHeap misalignedRun ∧
      (blockLayout 3 6 (by decide)).align ∣ bootHeap.heap.hhdmOffset ∧
      (misalignedRun.heap.alloc (blockLayout 3 6 (by decide))).1 = 0xFFFF800000150008 ∧
      ¬ (blockLayout 3 6 (by decide)).align ∣ 0xFFFF800000150008 := by
  have hlive : 0 < (alloc64.run (alloc8.run bootHeap)).live.length := by decide
  refine ⟨?_, by decide, by decide, by decide⟩
  apply Relation.ReflTransGen.tail _ ⟨.dealloc 0, hlive, rfl⟩
  apply Relation.ReflTransGen.tail _ ⟨alloc64, trivial, rfl⟩
  exact Relation.ReflTransGen.single ⟨alloc8, trivial, rfl⟩

end Alignment

section Rounds

def Heap.round (layout : Layout) (x : ℕ × Heap) : ℕ × Heap := (x.2.dealloc x.1 layout).alloc layout

/-- A client that allocates once and then goes through `n` rounds. -/
def Heap.rounds (h : Heap) (layout : Layout) (n : ℕ) : ℕ × Heap :=
  (Heap.round layout)^[n] (h.alloc layout)

variable {h : Heap} {layout : Layout}

@[simp] theorem Heap.rounds_zero (h : Heap) (layout : Layout) :
    h.rounds layout 0 = h.alloc layout := rfl

theorem Heap.rounds_succ (h : Heap) (layout : Layout) (n : ℕ) :
    h.rounds layout (n + 1) = Heap.round layout (h.rounds layout n) :=
  Function.iterate_succ_apply' _ _ _

theorem Heap.round_small {x : ℕ × Heap} {index : Fin 9}
    (hindex : targetBucketIndex layout.clamp = some index) (hinit : x.2.initialized = true)
    (hne : x.1 ≠ 0) :
    (Heap.round layout x).1 = x.1 ∧
      (Heap.round layout x).2.allocator.nextFreeByte = x.2.allocator.nextFreeByte ∧
      (Heap.round layout x).2.initialized = true := by
  have hfree : x.2.dealloc x.1 layout = x.2.pushBucket index x.1 := by
    simp only [Heap.dealloc, hne, if_false, hindex]
  have hhead : (x.2.pushBucket index x.1).allocator.buckets index = x.1 := by
    show Function.update x.2.allocator.buckets index x.1 index = x.1
    rw [Function.update_self]
  have hserve : (x.2.pushBucket index x.1).servingBucket layout.clamp = some index :=
    Heap.servingBucket_eq_some_iff.mpr ⟨hindex, hhead.symm ▸ hne⟩
  have hpush : (x.2.pushBucket index x.1).initialized = true := hinit
  unfold Heap.round
  rw [hfree, Heap.alloc_recycled hpush hserve, hhead]
  exact ⟨rfl, rfl, hinit⟩

theorem Heap.rounds_small {index : Fin 9} (hindex : targetBucketIndex layout.clamp = some index)
    (hne : (h.alloc layout).1 ≠ 0) (n : ℕ) :
    (h.rounds layout n).1 = (h.alloc layout).1 ∧
      (h.rounds layout n).2.allocator.nextFreeByte =
        (h.alloc layout).2.allocator.nextFreeByte ∧
      (h.rounds layout n).2.initialized = true := by
  induction n with
  | zero =>
    have hinit := (h.alloc_kept layout).initialized.trans (Heap.initialized_of_alloc hne)
    exact ⟨rfl, rfl, hinit⟩
  | succ n ih =>
    obtain ⟨hptr, hnext, hinit⟩ := ih
    obtain ⟨hptr', hnext', hinit'⟩ := Heap.round_small hindex hinit (hptr.symm ▸ hne)
    rw [Heap.rounds_succ]
    exact ⟨hptr'.trans hptr, hnext'.trans hnext, hinit'⟩

theorem Heap.round_large (hlarge : targetBucketIndex layout.clamp = none) (x : ℕ × Heap) :
    Heap.round layout x = x.2.alloc layout := by
  have hfree : x.2.dealloc x.1 layout = x.2 := by
    simp only [Heap.dealloc, hlarge, ite_self]
  unfold Heap.round
  rw [hfree]

/-- Two allocations that no free list serves never end at the same byte, even where rounding up
wraps around. -/
theorem Heap.carved_twice (hlarge : targetBucketIndex layout.clamp = none)
    (hne : (h.alloc layout).1 ≠ 0) (hne' : ((h.alloc layout).2.alloc layout).1 ≠ 0) :
    ((h.alloc layout).2.alloc layout).2.allocator.nextFreeByte ≠
      (h.alloc layout).2.allocator.nextFreeByte := by
  obtain ⟨hlt, -, hnext, -⟩ :=
    Heap.alloc_carved (Heap.servingBucket_eq_none_of_large hlarge) hne
  obtain ⟨-, -, hnext', -⟩ :=
    Heap.alloc_carved (Heap.servingBucket_eq_none_of_large hlarge) hne'
  have hpos := layout.clamp.size_pos
  have hsize := layout.clamp.size_le
  have hclamp : layout.clamp.align = layout.align := rfl
  rw [hclamp] at hsize
  have halign := layout.align_pos
  rw [hnext']
  by_cases hwrap : (h.alloc layout).2.allocator.nextFreeByte + layout.align - 1 < 2 ^ 64
  · have hle := Heap.nextFreeByte_le_allocStart halign hwrap
    omega
  · have hdown : (h.alloc layout).2.allocStart layout.align ≤
        wrap64 ((h.alloc layout).2.allocator.nextFreeByte + layout.align - 1) :=
      alignDown_le _ _
    have hmod : wrap64 ((h.alloc layout).2.allocator.nextFreeByte + layout.align - 1) =
        (h.alloc layout).2.allocator.nextFreeByte + layout.align - 1 - 2 ^ 64 := by
      unfold wrap64
      omega
    omega

/-- From any state, freeing and allocating a block again and again goes on for ever without
using up the heap exactly when neither the size nor the alignment is above 2048. -/
theorem rounds_reuse_iff (h : Heap) (layout : Layout) (hne : (h.alloc layout).1 ≠ 0) :
    (∀ n, (h.rounds layout n).1 ≠ 0 ∧
      (h.rounds layout n).2.allocator.nextFreeByte =
        (h.alloc layout).2.allocator.nextFreeByte) ↔
    layout.size ≤ 2048 ∧ layout.align ≤ 2048 := by
  rw [← max_le_iff, ← not_lt, ← targetBucketIndex_eq_none_iff]
  constructor
  · intro hrounds hlarge
    obtain ⟨hne', hnext⟩ := hrounds 1
    rw [Heap.rounds_succ, Heap.rounds_zero, Heap.round_large hlarge] at hne' hnext
    exact Heap.carved_twice hlarge hne hne' hnext
  · intro hsmall n
    obtain ⟨index, hindex⟩ := Option.ne_none_iff_exists'.mp hsmall
    obtain ⟨hptr, hnext, -⟩ := Heap.rounds_small hindex hne n
    exact ⟨hptr.symm ▸ hne, hnext⟩

/-- A 64-byte buffer is reused for ever. -/
theorem rounds_reuse_word :
    (bootHeap.heap.alloc (wordLayout 64 (by decide) (by decide))).1 ≠ 0 ∧
    ∀ n, (bootHeap.heap.rounds (wordLayout 64 (by decide) (by decide)) n).1 ≠ 0 ∧
      (bootHeap.heap.rounds (wordLayout 64 (by decide) (by decide)) n).2.allocator.nextFreeByte =
        (bootHeap.heap.alloc (wordLayout 64 (by decide) (by decide))).2.allocator.nextFreeByte := by
  have hne : (bootHeap.heap.alloc (wordLayout 64 (by decide) (by decide))).1 ≠ 0 := by
    decide
  exact ⟨hne, (rounds_reuse_iff _ _ hne).mpr ⟨by decide, by decide⟩⟩

def pageLayout : Layout := wordLayout 4096 (by decide) (by decide)

/-- One page-sized buffer, freed before it is allocated again, uses up the 640 KiB of the boot
heap in 160 rounds. -/
theorem rounds_exhaust_boot :
    (bootHeap.heap.alloc pageLayout).1 ≠ 0 ∧
      (bootHeap.heap.alloc pageLayout).2.allocator.nextFreeByte = 0x151000 ∧
      (bootHeap.heap.rounds pageLayout 1).2.allocator.nextFreeByte = 0x152000 ∧
      (bootHeap.heap.rounds pageLayout 160).1 = 0 := by
  refine ⟨by decide, by decide, by decide, by decide +kernel⟩

end Rounds

end MitosOS.Memory
