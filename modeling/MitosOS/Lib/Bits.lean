import Mathlib.Data.Nat.Bitwise
import Mathlib.Tactic.Ring

/-! Masks and alignment of natural numbers read as machine words. -/
namespace MitosOS.Lib

/-- Wrapping to the width of a 64-bit machine word. -/
def wrap64 (n : ℕ) : ℕ := n % 2 ^ 64

/-- `a & !(n - 1)` for a power of two `n`. -/
def alignDown (a n : ℕ) : ℕ := a - a % n

theorem wrap64_of_lt {n : ℕ} (h : n < 2 ^ 64) : wrap64 n = n := Nat.mod_eq_of_lt h

theorem wrap64_lt (n : ℕ) : wrap64 n < 2 ^ 64 := Nat.mod_lt _ (by decide)

theorem alignDown_le (a n : ℕ) : alignDown a n ≤ a := Nat.sub_le _ _

theorem alignDown_mod (a n : ℕ) : alignDown a n % n = 0 := by
  unfold alignDown
  exact Nat.sub_mod_eq_zero_of_mod_eq (Nat.mod_mod a n).symm

theorem lt_alignDown_add {a n : ℕ} (hn : 0 < n) : a < alignDown a n + n := by
  have h := Nat.mod_lt a hn
  have h' := Nat.mod_le a n
  unfold alignDown
  omega

theorem alignDown_div (a n : ℕ) : alignDown a n / n = a / n := Nat.div_eq_sub_mod_div.symm

/-- A contiguous mask keeps the bits from `lo` up to `lo + k`. -/
theorem land_mask (n lo k : ℕ) :
    n &&& 2 ^ lo * (2 ^ k - 1) = n / 2 ^ lo % 2 ^ k * 2 ^ lo := by
  apply Nat.eq_of_testBit_eq
  intro j
  rw [Nat.testBit_and, Nat.testBit_two_pow_mul, mul_comm (_ % _), Nat.testBit_two_pow_mul,
    Nat.testBit_mod_two_pow, Nat.testBit_div_two_pow, Nat.testBit_two_pow_sub_one]
  by_cases h : lo ≤ j
  · simp only [h, decide_true, Bool.true_and, Nat.sub_add_cancel h]
    exact Bool.and_comm _ _
  · simp [h]

theorem land_shift_ne_zero (e : BitVec 64) {k : ℕ} (hk : k < 64) :
    (e &&& 1#64 <<< k != 0#64) = e.getLsbD k := by
  have hbit : ∀ j, (e &&& 1#64 <<< k).getLsbD j = (decide (j = k) && e.getLsbD k) := by
    intro j
    by_cases hj : j = k
    · subst hj
      simp [hk]
    · simp only [BitVec.getLsbD_and, BitVec.getLsbD_shiftLeft, BitVec.getLsbD_one, hj,
        decide_false, Bool.false_and]
      grind
  cases hb : e.getLsbD k with
  | false =>
    rw [bne_eq_false_iff_eq]
    apply BitVec.eq_of_getLsbD_eq
    intro j _
    rw [hbit, hb]
    simp
  | true =>
    rw [bne_iff_ne]
    intro hz
    have hk' := hbit k
    rw [hz, hb] at hk'
    simp at hk'

theorem getLsbD_one_shiftLeft {w j : ℕ} (k : ℕ) (hj : j < w) :
    (1#w <<< k).getLsbD j = decide (j = k) := by
  rw [BitVec.getLsbD_shiftLeft, BitVec.getLsbD_one]
  grind

theorem getLsbD_setBit {w j : ℕ} (e : BitVec w) (k : ℕ) (hj : j < w) :
    (e ||| 1#w <<< k).getLsbD j = (e.getLsbD j || decide (j = k)) := by
  rw [BitVec.getLsbD_or, getLsbD_one_shiftLeft k hj]

theorem getLsbD_clearBit {w j : ℕ} (e : BitVec w) (k : ℕ) (hj : j < w) :
    (e &&& ~~~(1#w <<< k)).getLsbD j = (e.getLsbD j && !decide (j = k)) := by
  rw [BitVec.getLsbD_and, BitVec.getLsbD_not, getLsbD_one_shiftLeft k hj, decide_eq_true hj,
    Bool.true_and]

theorem land_low (n k : ℕ) : n &&& 2 ^ k - 1 = n % 2 ^ k := Nat.and_two_pow_sub_one_eq_mod n k

end MitosOS.Lib
