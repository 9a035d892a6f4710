import MitosOS.Lib.Bits
import MitosOS.Lib.Lists
import Mathlib.Data.Finset.Card
import Mathlib.Data.List.FinRange

/-! The physical frame bitmap. A set bit is a reserved frame; `IsFree` reads the bitmap as
the set of frames the allocator may still hand out. -/
namespace MitosOS.Memory
open MitosOS.Lib

structure BitmapAllocator (N : ℕ) where
  bitmap : Vector (BitVec 64) N

namespace BitmapAllocator
variable {N : ℕ}

def new : BitmapAllocator N where
  bitmap := Vector.replicate N (BitVec.allOnes 64)

/-- Take the lowest clear bit of the first word that is not full. -/
@[irreducible] def allocateNextFrame (a : BitmapAllocator N) : Option ℕ × BitmapAllocator N :=
  match (List.finRange N).find? fun i => a.bitmap[i] != BitVec.allOnes 64 with
  | none => (none, a)
  | some i =>
    let bit := (~~~a.bitmap[i]).ctz.toNat
    (some (i * 64 + bit), { bitmap := a.bitmap.set i (a.bitmap[i] ||| 1#64 <<< bit) })

def reserveFrame (a : BitmapAllocator N) (frameIndex : ℕ) : BitmapAllocator N :=
  if h : frameIndex / 64 < N then
    { bitmap := a.bitmap.set (frameIndex / 64)
        (a.bitmap[frameIndex / 64] ||| 1#64 <<< (frameIndex % 64)) }
  else a

def freeFrame (a : BitmapAllocator N) (frameIndex : ℕ) : BitmapAllocator N :=
  if frameIndex = 0 then a
  else if h : frameIndex / 64 < N then
    { bitmap := a.bitmap.set (frameIndex / 64)
        (a.bitmap[frameIndex / 64] &&& ~~~(1#64 <<< (frameIndex % 64))) }
  else a

def reserveRange (a : BitmapAllocator N) (startFrame count : ℕ) : BitmapAllocator N :=
  (List.range count).foldl (fun a i => a.reserveFrame (startFrame + i)) a

def freeRange (a : BitmapAllocator N) (startFrame count : ℕ) : BitmapAllocator N :=
  (List.range count).foldl (fun a i => a.freeFrame (startFrame + i)) a

def IsFree (a : BitmapAllocator N) (f : ℕ) : Prop :=
  ∃ h : f / 64 < N, a.bitmap[f / 64].getLsbD (f % 64) = false

instance (a : BitmapAllocator N) (f : ℕ) : Decidable (a.IsFree f) :=
  inferInstanceAs (Decidable (∃ h : f / 64 < N, a.bitmap[f / 64].getLsbD (f % 64) = false))

theorem IsFree.lt {a : BitmapAllocator N} {f : ℕ} (h : a.IsFree f) : f < 64 * N := by
  obtain ⟨h, -⟩ := h
  omega

private theorem getLsbD_of_full {w : BitVec 64} (hw : w = BitVec.allOnes 64) (f : ℕ) :
    w.getLsbD (f % 64) = true := by
  rw [hw, BitVec.getLsbD_allOnes, decide_eq_true_eq]
  exact Nat.mod_lt _ (by decide)

@[simp] theorem not_isFree_new (f : ℕ) : ¬ (new : BitmapAllocator N).IsFree f := by
  rintro ⟨h, hb⟩
  have hfull : (new : BitmapAllocator N).bitmap[f / 64] = BitVec.allOnes 64 :=
    Vector.getElem_replicate h
  rw [getLsbD_of_full hfull] at hb
  exact Bool.noConfusion hb

private theorem isFree_set_or {a : BitmapAllocator N} {w b f : ℕ} (hw : w < N) (hb : b < 64) :
    (⟨a.bitmap.set w (a.bitmap[w] ||| 1#64 <<< b)⟩ : BitmapAllocator N).IsFree f ↔
      a.IsFree f ∧ f ≠ w * 64 + b := by
  have hf : f % 64 < 64 := Nat.mod_lt _ (by decide)
  unfold IsFree
  by_cases hfw : w = f / 64
  · subst hfw
    simp only [hw, Vector.getElem_set_self, BitVec.getLsbD_or, Lib.getLsbD_one_shiftLeft _ hf,
      Bool.or_eq_false_iff, decide_eq_false_iff_not, exists_true_left]
    constructor
    · rintro ⟨h1, h2⟩
      exact ⟨h1, by omega⟩
    · rintro ⟨h1, h2⟩
      exact ⟨h1, by omega⟩
  · constructor
    · rintro ⟨h, h1⟩
      rw [Vector.getElem_set_ne hw h hfw] at h1
      exact ⟨⟨h, h1⟩, by omega⟩
    · rintro ⟨⟨h, h1⟩, -⟩
      refine ⟨h, ?_⟩
      rw [Vector.getElem_set_ne hw h hfw]
      exact h1

theorem isFree_reserveFrame (a : BitmapAllocator N) (i f : ℕ) :
    (a.reserveFrame i).IsFree f ↔ a.IsFree f ∧ f ≠ i := by
  unfold reserveFrame
  split_ifs with h
  · rw [isFree_set_or h (Nat.mod_lt _ (by decide))]
    have hi : i / 64 * 64 + i % 64 = i := by omega
    rw [hi]
  · constructor
    · intro hf
      refine ⟨hf, ?_⟩
      rintro rfl
      exact h hf.1
    · exact And.left

theorem isFree_freeFrame (a : BitmapAllocator N) (i f : ℕ) :
    (a.freeFrame i).IsFree f ↔ a.IsFree f ∨ (f = i ∧ i ≠ 0 ∧ i < 64 * N) := by
  have hf : f % 64 < 64 := Nat.mod_lt _ (by decide)
  unfold freeFrame
  split_ifs with h0 h
  · simp [h0]
  · unfold IsFree
    by_cases hfw : i / 64 = f / 64
    · have hfN : f / 64 < N := hfw ▸ h
      simp only [hfw, hfN, Vector.getElem_set_self, BitVec.getLsbD_and, BitVec.getLsbD_not,
        Lib.getLsbD_one_shiftLeft _ hf, exists_true_left, hf, decide_true, Bool.true_and,
        Bool.and_eq_false_iff, Bool.not_eq_false', decide_eq_true_eq]
      constructor
      · rintro (h1 | h1)
        · exact Or.inl h1
        · exact Or.inr ⟨by omega, h0, by omega⟩
      · rintro (h1 | ⟨rfl, -, -⟩)
        · exact Or.inl h1
        · exact Or.inr rfl
    · constructor
      · rintro ⟨hN, h1⟩
        rw [Vector.getElem_set_ne h hN hfw] at h1
        exact Or.inl ⟨hN, h1⟩
      · rintro (⟨hN, h1⟩ | ⟨rfl, -, -⟩)
        · refine ⟨hN, ?_⟩
          rw [Vector.getElem_set_ne h hN hfw]
          exact h1
        · exact absurd rfl hfw
  · constructor
    · exact Or.inl
    · rintro (h1 | ⟨rfl, -, hN⟩)
      · exact h1
      · omega

theorem isFree_reserveRange (a : BitmapAllocator N) (s c f : ℕ) :
    (a.reserveRange s c).IsFree f ↔ a.IsFree f ∧ ¬ (s ≤ f ∧ f < s + c) := by
  unfold reserveRange
  induction c with
  | zero => simp
  | succ c ih =>
    rw [List.range_succ, List.foldl_append, List.foldl_cons, List.foldl_nil,
      isFree_reserveFrame, ih, and_assoc]
    refine and_congr_right fun _ => ?_
    omega

theorem isFree_freeRange (a : BitmapAllocator N) (s c f : ℕ) :
    (a.freeRange s c).IsFree f ↔
      a.IsFree f ∨ (s ≤ f ∧ f < s + c ∧ f ≠ 0 ∧ f < 64 * N) := by
  unfold freeRange
  induction c with
  | zero =>
    simp only [List.range_zero, List.foldl_nil, Nat.add_zero]
    constructor
    · exact Or.inl
    · rintro (h | h)
      · exact h
      · omega
  | succ c ih =>
    rw [List.range_succ, List.foldl_append, List.foldl_cons, List.foldl_nil,
      isFree_freeFrame, ih, or_assoc]
    refine or_congr_right ?_
    omega

/-- Allocation fails exactly on an exhausted bitmap, and then changes nothing. -/
theorem allocateNextFrame_none {a : BitmapAllocator N} (h : a.allocateNextFrame.1 = none) :
    a.allocateNextFrame.2 = a ∧ ∀ f, ¬ a.IsFree f := by
  unfold allocateNextFrame at h ⊢
  split at h
  case h_2 => simp at h
  case h_1 hfind =>
    refine ⟨rfl, ?_⟩
    rintro f ⟨hN, hb⟩
    have hw := List.find?_eq_none.mp hfind ⟨f / 64, hN⟩ (List.mem_finRange _)
    simp only [bne_iff_ne, ne_eq, not_not] at hw
    rw [getLsbD_of_full (w := a.bitmap[f / 64]) hw] at hb
    exact Bool.noConfusion hb

/-- A successful allocation takes the least free frame and no other. -/
theorem allocateNextFrame_some {a : BitmapAllocator N} {f : ℕ}
    (h : a.allocateNextFrame.1 = some f) :
    a.IsFree f ∧ (∀ g, a.IsFree g → f ≤ g) ∧
      ∀ g, a.allocateNextFrame.2.IsFree g ↔ a.IsFree g ∧ g ≠ f := by
  unfold allocateNextFrame at h ⊢
  split at h
  case h_1 => simp at h
  case h_2 i hfind =>
    have hne : ~~~a.bitmap[i] ≠ 0#64 := by
      have hp := List.find?_some hfind
      intro hz
      have : a.bitmap[i] = BitVec.allOnes 64 := by
        rw [← BitVec.not_not (b := a.bitmap[i]), hz]
        decide
      simp [this] at hp
    have hbit : (~~~a.bitmap[i]).ctz.toNat < 64 := by
      have := BitVec.ctz_lt_iff_ne_zero.mpr hne
      simpa [BitVec.lt_def] using this
    have hclear : a.bitmap[i].getLsbD (~~~a.bitmap[i]).ctz.toNat = false := by
      have hh := BitVec.getLsbD_true_ctz_of_ne_zero hne
      rw [BitVec.getLsbD_not, Bool.and_eq_true, Bool.not_eq_true'] at hh
      exact hh.2
    have hf : f = i * 64 + (~~~a.bitmap[i]).ctz.toNat := by simpa using h.symm
    have hdiv : f / 64 = i := by omega
    have hmod : f % 64 = (~~~a.bitmap[i]).ctz.toNat := by omega
    refine ⟨⟨hdiv ▸ i.isLt, ?_⟩, ?_, ?_⟩
    · simp only [hdiv, hmod]
      exact hclear
    · rintro g ⟨hgN, hg⟩
      by_contra hlt
      rcases Nat.lt_or_ge (g / 64) i with hw | hw
      · have hp := finRange_find?_lt hfind (j := ⟨g / 64, hgN⟩) hw
        rw [bne_eq_false_iff_eq] at hp
        rw [getLsbD_of_full (w := a.bitmap[g / 64]) hp] at hg
        exact Bool.noConfusion hg
      · have hgi : g / 64 = i := by omega
        have hlow : g % 64 < (~~~a.bitmap[i]).ctz.toNat := by omega
        have hset := BitVec.getLsbD_false_of_lt_ctz hlow
        simp only [hgi] at hg
        rw [BitVec.getLsbD_not, decide_eq_true (Nat.mod_lt g (by decide)), Bool.true_and,
          Bool.not_eq_false'] at hset
        exact Bool.noConfusion (hg.symm.trans hset)
    · intro g
      rw [hf]
      exact isFree_set_or i.isLt hbit

theorem allocateNextFrame_isSome {a : BitmapAllocator N} {f : ℕ} (h : a.IsFree f) :
    ∃ g, a.allocateNextFrame.1 = some g := by
  cases hc : a.allocateNextFrame.1 with
  | none => exact absurd h ((allocateNextFrame_none hc).2 f)
  | some g => exact ⟨g, rfl⟩

/-- The frames still to be handed out, as a finite set. -/
def freeFrames (a : BitmapAllocator N) : Finset ℕ := (Finset.range (64 * N)).filter a.IsFree

@[simp] theorem mem_freeFrames {a : BitmapAllocator N} {f : ℕ} : f ∈ a.freeFrames ↔ a.IsFree f := by
  simp only [freeFrames, Finset.mem_filter, Finset.mem_range]
  exact ⟨And.right, fun h => ⟨h.lt, h⟩⟩

theorem card_freeFrames_eq_zero {a : BitmapAllocator N} (h : ∀ f, ¬ a.IsFree f) :
    a.freeFrames.card = 0 := by
  rw [Finset.card_eq_zero, Finset.eq_empty_iff_forall_notMem]
  exact fun f hf => h f (mem_freeFrames.mp hf)

theorem card_freeFrames_of_take {a b : BitmapAllocator N} {f : ℕ} (hf : a.IsFree f)
    (h : ∀ g, b.IsFree g ↔ a.IsFree g ∧ g ≠ f) : b.freeFrames.card + 1 = a.freeFrames.card := by
  have hb : b.freeFrames = a.freeFrames.erase f := by
    ext g
    rw [mem_freeFrames, h, Finset.mem_erase, mem_freeFrames, and_comm]
  rw [hb, Finset.card_erase_add_one (mem_freeFrames.mpr hf)]

/-- The allocator after `n` more calls of `allocate_next_frame`. -/
def afterAllocations (a : BitmapAllocator N) : ℕ → BitmapAllocator N
  | 0 => a
  | n + 1 => afterAllocations a.allocateNextFrame.2 n

theorem isFree_of_allocateNextFrame {a : BitmapAllocator N} {f : ℕ}
    (h : a.allocateNextFrame.2.IsFree f) : a.IsFree f := by
  cases hc : a.allocateNextFrame.1 with
  | none => rwa [(allocateNextFrame_none hc).1] at h
  | some g => exact (((allocateNextFrame_some hc).2.2 f).mp h).1

/-- The states that calls on a new allocator lead to. The range operations are sequences of the
ones on single frames. -/
inductive Reachable : BitmapAllocator N → Prop where
  | new : Reachable new
  | reserveFrame {a : BitmapAllocator N} (h : Reachable a) (f : ℕ) : Reachable (a.reserveFrame f)
  | freeFrame {a : BitmapAllocator N} (h : Reachable a) (f : ℕ) : Reachable (a.freeFrame f)
  | allocateNextFrame {a : BitmapAllocator N} (h : Reachable a) : Reachable a.allocateNextFrame.2

/-- `free_frame` skips frame 0, so it stays reserved. -/
theorem Reachable.not_isFree_zero {a : BitmapAllocator N} (h : a.Reachable) : ¬ a.IsFree 0 := by
  induction h with
  | new => exact not_isFree_new 0
  | reserveFrame _ f ih => exact fun hfree => ih ((isFree_reserveFrame _ f 0).mp hfree).1
  | freeFrame _ f ih =>
    intro hfree
    rcases (isFree_freeFrame _ f 0).mp hfree with hold | ⟨rfl, hne, -⟩
    · exact ih hold
    · exact hne rfl
  | allocateNextFrame _ ih => exact fun hfree => ih (isFree_of_allocateNextFrame hfree)

theorem Reachable.freeRange {a : BitmapAllocator N} (h : a.Reachable) (s c : ℕ) :
    (a.freeRange s c).Reachable := by
  unfold BitmapAllocator.freeRange
  induction c with
  | zero => exact h
  | succ c ih =>
    rw [List.range_succ, List.foldl_append]
    exact ih.freeFrame (s + c)

/-- Repeated allocation returns exactly the frames that are free at its start. -/
theorem exists_allocation_iff (a : BitmapAllocator N) (f : ℕ) :
    (∃ n, (a.afterAllocations n).allocateNextFrame.1 = some f) ↔ a.IsFree f := by
  constructor
  · rintro ⟨n, hn⟩
    induction n generalizing a with
    | zero => exact (allocateNextFrame_some hn).1
    | succ n ih => exact isFree_of_allocateNextFrame (ih _ hn)
  · -- every call that does not return `f` leaves it free in a smaller pool
    intro hf
    induction hcard : a.freeFrames.card generalizing a with
    | zero =>
      rw [Finset.card_eq_zero] at hcard
      exact absurd (mem_freeFrames.mpr hf) (by simp [hcard])
    | succ k ih =>
      obtain ⟨g, hg⟩ := allocateNextFrame_isSome hf
      obtain ⟨hfree, -, hrest⟩ := allocateNextFrame_some hg
      by_cases hfg : f = g
      · exact ⟨0, by rw [hfg]; exact hg⟩
      · have hsmaller := card_freeFrames_of_take hfree hrest
        obtain ⟨n, hn⟩ := ih a.allocateNextFrame.2 ((hrest f).mpr ⟨hf, hfg⟩) (by omega)
        exact ⟨n + 1, hn⟩

end BitmapAllocator

end MitosOS.Memory
