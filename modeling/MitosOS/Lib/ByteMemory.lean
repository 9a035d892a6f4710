import Mathlib.Data.Nat.Notation
import Mathlib.Order.Basic

/-! Byte-addressed memory with little-endian 64-bit words, and the frame rules of its
writes. Addresses are unbounded; a client states its own bounds. -/
namespace MitosOS.Lib

abbrev Memory := ℕ → BitVec 8

namespace Memory

@[irreducible] def load64 (m : Memory) (a : ℕ) : BitVec 64 :=
  m (a + 7) ++ m (a + 6) ++ m (a + 5) ++ m (a + 4) ++ m (a + 3) ++ m (a + 2) ++ m (a + 1) ++ m a

def store64 (m : Memory) (a : ℕ) (v : BitVec 64) : Memory :=
  fun x => if a ≤ x ∧ x < a + 8 then v.extractLsb' (8 * (x - a)) 8 else m x

def fill (m : Memory) (a n : ℕ) (b : BitVec 8) : Memory :=
  fun x => if a ≤ x ∧ x < a + n then b else m x

/-- Copy `n` bytes from `src` to `dst`; every byte is read before any is written. -/
def copy (m : Memory) (dst src n : ℕ) : Memory :=
  fun x => if dst ≤ x ∧ x < dst + n then m (src + (x - dst)) else m x

def blit (m : Memory) (a : ℕ) (bytes : List (BitVec 8)) : Memory :=
  fun x => if a ≤ x then bytes.getD (x - a) (m x) else m x

theorem load64_congr {m m' : Memory} {a : ℕ} (h : ∀ x, a ≤ x → x < a + 8 → m' x = m x) :
    m'.load64 a = m.load64 a := by
  unfold load64
  rw [h (a + 7) (by omega) (by omega), h (a + 6) (by omega) (by omega),
    h (a + 5) (by omega) (by omega), h (a + 4) (by omega) (by omega),
    h (a + 3) (by omega) (by omega), h (a + 2) (by omega) (by omega),
    h (a + 1) (by omega) (by omega), h a (by omega) (by omega)]

@[simp] theorem load64_store64_same (m : Memory) (a : ℕ) (v : BitVec 64) :
    (m.store64 a v).load64 a = v := by
  have hb : ∀ k < 8, (m.store64 a v) (a + k) = v.extractLsb' (8 * k) 8 := by
    intro k hk
    simp [store64, hk]
  have h0 := hb 0 (by decide)
  rw [Nat.add_zero] at h0
  unfold load64
  rw [hb 7 (by decide), hb 6 (by decide), hb 5 (by decide), hb 4 (by decide), hb 3 (by decide),
    hb 2 (by decide), hb 1 (by decide), h0]
  apply BitVec.eq_of_getLsbD_eq
  intro i hi
  simp only [BitVec.getLsbD_append, BitVec.getLsbD_extractLsb']
  grind

/-- The memory that holds word `k` of `w` at address `8 * k`. -/
def ofWords (w : ℕ → BitVec 64) : Memory := fun x => (w (x / 8)).extractLsb' (8 * (x % 8)) 8

theorem load64_ofWords (w : ℕ → BitVec 64) (k : ℕ) : (ofWords w).load64 (8 * k) = w k := by
  rw [← load64_store64_same (ofWords w) (8 * k) (w k)]
  refine load64_congr fun x hx hx' => ?_
  have hdiv : x / 8 = k := by omega
  have hmod : x % 8 = x - 8 * k := by omega
  rw [store64, if_pos ⟨hx, hx'⟩, ofWords, hdiv, hmod]

theorem store64_apply_of_disjoint {a x : ℕ} (m : Memory) (v : BitVec 64)
    (h : x < a ∨ a + 8 ≤ x) : (m.store64 a v) x = m x := by
  unfold store64
  rw [if_neg (by omega)]

theorem load64_store64_of_disjoint {a b : ℕ} (m : Memory) (v : BitVec 64)
    (h : b + 8 ≤ a ∨ a + 8 ≤ b) : (m.store64 a v).load64 b = m.load64 b :=
  load64_congr fun x hx hx' => store64_apply_of_disjoint m v (by omega)

theorem fill_apply_of_disjoint {a n x : ℕ} (m : Memory) (b : BitVec 8)
    (h : x < a ∨ a + n ≤ x) : (m.fill a n b) x = m x := by
  unfold fill
  rw [if_neg (by omega)]

theorem fill_apply_of_mem {a n x : ℕ} (m : Memory) (b : BitVec 8)
    (h : a ≤ x ∧ x < a + n) : (m.fill a n b) x = b := by
  unfold fill
  rw [if_pos h]

theorem load64_fill_of_disjoint {a n c : ℕ} (m : Memory) (b : BitVec 8)
    (h : c + 8 ≤ a ∨ a + n ≤ c) : (m.fill a n b).load64 c = m.load64 c :=
  load64_congr fun x hx hx' => fill_apply_of_disjoint m b (by omega)

theorem load64_fill_zero {a n c : ℕ} (m : Memory) (h : a ≤ c ∧ c + 8 ≤ a + n) :
    (m.fill a n 0).load64 c = 0 := by
  have hz : ∀ x, c ≤ x → x < c + 8 → (m.fill a n 0) x = (fun _ => 0 : Memory) x :=
    fun x hx hx' => fill_apply_of_mem m 0 (by omega)
  rw [load64_congr hz]
  simp [load64]

theorem copy_apply_of_disjoint {dst src n x : ℕ} (m : Memory)
    (h : x < dst ∨ dst + n ≤ x) : (m.copy dst src n) x = m x := by
  unfold copy
  rw [if_neg (by omega)]

/-- A word of the copied range is the corresponding word of the source. -/
theorem load64_copy {dst src n k : ℕ} (m : Memory) (h : k + 8 ≤ n) :
    (m.copy dst src n).load64 (dst + k) = m.load64 (src + k) := by
  have hb : ∀ j < 8, (m.copy dst src n) (dst + k + j) = m (src + k + j) := by
    intro j hj
    unfold copy
    rw [if_pos (by omega)]
    congr 1
    omega
  have h0 := hb 0 (by decide)
  rw [Nat.add_zero, Nat.add_zero] at h0
  unfold load64
  rw [hb 7 (by decide), hb 6 (by decide), hb 5 (by decide), hb 4 (by decide), hb 3 (by decide),
    hb 2 (by decide), hb 1 (by decide), h0]

theorem blit_apply_of_disjoint {a x : ℕ} (m : Memory) (bytes : List (BitVec 8))
    (h : x < a ∨ a + bytes.length ≤ x) : (m.blit a bytes) x = m x := by
  unfold blit
  split_ifs with hx
  · rw [List.getD_eq_getElem?_getD, List.getElem?_eq_none (by omega), Option.getD_none]
  · rfl

end Memory

end MitosOS.Lib
