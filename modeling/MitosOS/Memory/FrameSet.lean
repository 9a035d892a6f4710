import MitosOS.Lib.Refinement
import MitosOS.Memory.Bitmap
import Mathlib.Data.Finset.Max
import Mathlib.Order.Interval.Finset.Nat

/-! The frame bitmap refines a set of free frame numbers. -/
namespace MitosOS.Memory
open MitosOS.Lib

/-- A range of frame numbers whose end does not overflow `usize`. -/
structure FrameRange where
  start : ℕ
  count : ℕ
  end_le : start + count ≤ 2 ^ 64

def FrameRange.frames (r : FrameRange) : Finset ℕ := Finset.Ico r.start (r.start + r.count)

inductive FrameCall where
  | reserveFrame (i : ℕ)
  | freeFrame (i : ℕ)
  | reserveRange (r : FrameRange)
  | freeRange (r : FrameRange)
  | allocateNextFrame

def FrameCall.Frees (f : ℕ) : FrameCall → Prop
  | .freeFrame i => f = i
  | .freeRange r => f ∈ r.frames
  | _ => False

/-- The bitmap; only `allocate_next_frame` returns anything. -/
def bitmapObject (N : ℕ) : CallObject (BitmapAllocator N) FrameCall (Option ℕ) where
  call a
    | .reserveFrame i => (none, a.reserveFrame i)
    | .freeFrame i => (none, a.freeFrame i)
    | .reserveRange r => (none, a.reserveRange r.start r.count)
    | .freeRange r => (none, a.freeRange r.start r.count)
    | .allocateNextFrame => a.allocateNextFrame

/-- A set of free frames below `64 * N`, without frame 0. -/
structure FreeSet (N : ℕ) where
  frames : Finset ℕ
  bounds : ∀ f ∈ frames, 0 < f ∧ f < 64 * N

namespace FreeSet
variable {N : ℕ}

def empty : FreeSet N where
  frames := ∅
  bounds f hf := absurd hf (Finset.notMem_empty f)

def reserve (F : FreeSet N) (taken : Finset ℕ) : FreeSet N where
  frames := F.frames \ taken
  bounds f hf := F.bounds f (Finset.mem_sdiff.mp hf).1

/-- Frame 0 and frames that are not tracked are ignored. -/
def release (F : FreeSet N) (freed : Finset ℕ) : FreeSet N where
  frames := F.frames ∪ freed.filter fun f => 0 < f ∧ f < 64 * N
  bounds f hf := by
    rcases Finset.mem_union.mp hf with hold | hnew
    · exact F.bounds f hold
    · exact (Finset.mem_filter.mp hnew).2

@[simp] theorem mem_reserve {F : FreeSet N} {taken : Finset ℕ} {f : ℕ} :
    f ∈ (F.reserve taken).frames ↔ f ∈ F.frames ∧ f ∉ taken := Finset.mem_sdiff

@[simp] theorem mem_release {F : FreeSet N} {freed : Finset ℕ} {f : ℕ} :
    f ∈ (F.release freed).frames ↔ f ∈ F.frames ∨ f ∈ freed ∧ 0 < f ∧ f < 64 * N := by
  simp [release]

def allocate (F : FreeSet N) : Option ℕ × FreeSet N :=
  if h : F.frames.Nonempty then (some (F.frames.min' h), F.reserve {F.frames.min' h})
  else (none, F)

end FreeSet

def freeSetObject (N : ℕ) : CallObject (FreeSet N) FrameCall (Option ℕ) where
  call F
    | .reserveFrame i => (none, F.reserve {i})
    | .freeFrame i => (none, F.release {i})
    | .reserveRange r => (none, F.reserve r.frames)
    | .freeRange r => (none, F.release r.frames)
    | .allocateNextFrame => F.allocate

section Refinement
variable {N : ℕ}

def Represents (a : BitmapAllocator N) (F : FreeSet N) : Prop := ∀ f, a.IsFree f ↔ f ∈ F.frames

theorem represents_new : Represents (.new : BitmapAllocator N) .empty := by
  intro f
  simp [FreeSet.empty]

theorem Represents.allocate {a : BitmapAllocator N} {F : FreeSet N} (h : Represents a F) :
    a.allocateNextFrame.1 = F.allocate.1 ∧ Represents a.allocateNextFrame.2 F.allocate.2 := by
  unfold FreeSet.allocate
  split_ifs with hF
  · have hmin := (h _).mpr (F.frames.min'_mem hF)
    obtain ⟨g, hg⟩ := BitmapAllocator.allocateNextFrame_isSome hmin
    obtain ⟨hfree, hleast, hrest⟩ := BitmapAllocator.allocateNextFrame_some hg
    have heq : g = F.frames.min' hF :=
      le_antisymm (hleast _ hmin) (F.frames.min'_le g ((h g).mp hfree))
    subst heq
    refine ⟨hg, fun f => ?_⟩
    rw [hrest f, h f]
    simp
  · cases hg : a.allocateNextFrame.1 with
    | none =>
      have hsame := (BitmapAllocator.allocateNextFrame_none hg).1
      rw [hsame]
      exact ⟨rfl, h⟩
    | some g =>
      have hfree := (BitmapAllocator.allocateNextFrame_some hg).1
      exact absurd ⟨g, (h g).mp hfree⟩ hF

theorem bitmap_simulation : (bitmapObject N).Simulation (freeSetObject N) Represents where
  result {a F} h c := by
    cases c with
    | allocateNextFrame => exact h.allocate.1
    | _ => rfl
  next {a F} h c := by
    cases c with
    | reserveFrame i =>
      intro f
      have hset := BitmapAllocator.isFree_reserveFrame a i f
      simp [bitmapObject, freeSetObject, hset, h f]
    | freeFrame i =>
      intro f
      have hset := BitmapAllocator.isFree_freeFrame a i f
      simp only [bitmapObject, freeSetObject, FreeSet.mem_release, Finset.mem_singleton, hset, h f]
      refine or_congr_right (and_congr_right fun hf => ?_)
      subst hf
      simp [Nat.pos_iff_ne_zero]
    | reserveRange r =>
      intro f
      have hset := BitmapAllocator.isFree_reserveRange a r.start r.count f
      simp [bitmapObject, freeSetObject, FrameRange.frames, hset, h f]
    | freeRange r =>
      intro f
      have hset := BitmapAllocator.isFree_freeRange a r.start r.count f
      simp [bitmapObject, freeSetObject, FrameRange.frames, hset, h f, Nat.pos_iff_ne_zero,
        and_assoc]
    | allocateNextFrame => exact h.allocate.2

theorem FreeSet.notMem_call {F : FreeSet N} {f : ℕ} (hf : f ∉ F.frames) {c : FrameCall}
    (hc : ¬ c.Frees f) : f ∉ ((freeSetObject N).call F c).2.frames := by
  cases c with
  | reserveFrame i => simp [freeSetObject, hf]
  | freeFrame i =>
    have hne : f ≠ i := hc
    simp [freeSetObject, hf, hne]
  | reserveRange r => simp [freeSetObject, hf]
  | freeRange r =>
    have hr : f ∉ r.frames := hc
    simp [freeSetObject, hf, hr]
  | allocateNextFrame =>
    change f ∉ F.allocate.2.frames
    unfold FreeSet.allocate
    split_ifs <;> simp [hf]

theorem FreeSet.allocate_eq_some {F : FreeSet N} {f : ℕ} (h : F.allocate.1 = some f) :
    f ∈ F.frames ∧ f ∉ F.allocate.2.frames := by
  unfold FreeSet.allocate at h ⊢
  split_ifs at h ⊢ with hF
  have hmin : F.frames.min' hF = f := Option.some.inj h
  rw [← hmin]
  exact ⟨F.frames.min'_mem hF, by simp⟩

/-- For every sequence of calls on a new bitmap: the results are those of the set of free frames,
the bitmap stands for that set, frame 0 is never returned, and between two calls that return the
same frame some call frees it. -/
theorem bitmap_refines_freeSet (N : ℕ) (calls : List FrameCall) :
    ((bitmapObject N).run .new calls).1 = ((freeSetObject N).run .empty calls).1 ∧
    (∀ f, ((bitmapObject N).after .new calls).IsFree f ↔
      f ∈ ((freeSetObject N).after .empty calls).frames) ∧
    ((bitmapObject N).after .new calls).allocateNextFrame.1 ≠ some 0 ∧
    ∀ f before between, calls = before ++ .allocateNextFrame :: between →
      ((bitmapObject N).after .new before).allocateNextFrame.1 = some f →
      ((bitmapObject N).after .new calls).allocateNextFrame.1 = some f →
      ∃ c ∈ between, c.Frees f := by
  have hrep := fun cs => (bitmap_simulation.run (represents_new (N := N)) cs).2
  refine ⟨(bitmap_simulation.run represents_new calls).1, hrep calls, ?_, ?_⟩
  · intro hzero
    rw [(hrep calls).allocate.1] at hzero
    have hmem := (FreeSet.allocate_eq_some hzero).1
    have hpos := (FreeSet.bounds _ 0 hmem).1
    omega
  · intro f before between hcalls hfirst hsecond
    by_contra hnone
    rw [(hrep before).allocate.1] at hfirst
    rw [(hrep calls).allocate.1] at hsecond
    have htaken := (FreeSet.allocate_eq_some hfirst).2
    have hkept : f ∉ ((freeSetObject N).after
        ((freeSetObject N).after .empty before).allocate.2 between).frames := by
      apply CallObject.after_invariant (I := fun F : FreeSet N => f ∉ F.frames) _ htaken
      intro c hc F hF
      exact FreeSet.notMem_call hF fun hfrees => hnone ⟨c, hc, hfrees⟩
    have hafter : (freeSetObject N).after .empty calls = (freeSetObject N).after
        ((freeSetObject N).after .empty before).allocate.2 between := by
      rw [hcalls, CallObject.after_append]
      rfl
    rw [← hafter] at hkept
    exact hkept (FreeSet.allocate_eq_some hsecond).1

end Refinement

end MitosOS.Memory
