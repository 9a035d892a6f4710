import Mathlib.Data.List.Basic
import Mathlib.Logic.Function.Basic
import Mathlib.Tactic.SplitIfs

/-! Ring buffers of `n` cells with one index to read from and one to write to. -/
namespace MitosOS.Lib
variable {α : Type*} {n head tail k : ℕ}

/-- The `k` cells from `head` on, around the end of the ring. -/
def ringContents (n : ℕ) (cell : ℕ → α) (head k : ℕ) : List α :=
  (List.range k).map fun j => cell ((head + j) % n)

/-- The number of cells from `head` up to `tail`. -/
def ringCount (n head tail : ℕ) : ℕ := if head ≤ tail then tail - head else tail + n - head

@[simp] theorem length_ringContents (cell : ℕ → α) :
    (ringContents n cell head k).length = k := by
  simp [ringContents]

theorem ring_index (hhead : head < n) (hk : k < n) :
    (head + k) % n = if head + k < n then head + k else head + k - n := by
  split_ifs with h
  · exact Nat.mod_eq_of_lt h
  · rw [Nat.mod_eq_sub_mod (Nat.le_of_not_lt h)]
    exact Nat.mod_eq_of_lt (by omega)

theorem ring_next (hhead : head < n) : (head + 1) % n = if head + 1 < n then head + 1 else 0 := by
  split_ifs with h
  · exact Nat.mod_eq_of_lt h
  · have hend : head + 1 = n := by omega
    rw [hend, Nat.mod_self]

/-- Reading the first cell leaves the contents from the next one on. -/
theorem ringContents_succ (cell : ℕ → α) (hhead : head < n) :
    ringContents n cell head (k + 1) = cell head :: ringContents n cell ((head + 1) % n) k := by
  have hfirst : cell (head % n) = cell head := by rw [Nat.mod_eq_of_lt hhead]
  have hrest : ∀ j, cell ((head + (j + 1)) % n) = cell (((head + 1) % n + j) % n) := by
    intro j
    rw [Nat.mod_add_mod]
    congr 2
    omega
  simp [ringContents, List.range_succ_eq_map, hfirst, hrest]

/-- Writing the cell after the last one appends to the contents. -/
theorem ringContents_push (cell : ℕ → α) (hhead : head < n) (hk : k < n) (a : α) :
    ringContents n (Function.update cell ((head + k) % n) a) head (k + 1) =
      ringContents n cell head k ++ [a] := by
  have hother : ∀ j < k, (head + j) % n ≠ (head + k) % n := by
    intro j hj
    rw [ring_index hhead (Nat.lt_trans hj hk), ring_index hhead hk]
    split_ifs <;> omega
  have hcells : ∀ j ∈ List.range k,
      Function.update cell ((head + k) % n) a ((head + j) % n) = cell ((head + j) % n) :=
    fun j hj => Function.update_of_ne (hother j (List.mem_range.mp hj)) a cell
  rw [ringContents, ringContents, List.range_succ, List.map_append, List.map_congr_left hcells]
  simp

section Count

theorem ringCount_lt (hhead : head < n) (htail : tail < n) : ringCount n head tail < n := by
  unfold ringCount
  split_ifs <;> omega

theorem ringCount_eq_zero (hhead : head < n) : ringCount n head tail = 0 ↔ head = tail := by
  unfold ringCount
  split_ifs <;> omega

theorem add_ringCount (hhead : head < n) (htail : tail < n) :
    (head + ringCount n head tail) % n = tail := by
  rw [ring_index hhead (ringCount_lt hhead htail)]
  unfold ringCount
  split_ifs <;> omega

/-- One cell always stays empty: the ring is full when `n - 1` cells are taken. -/
theorem ringCount_full (hhead : head < n) (htail : tail < n) :
    (tail + 1) % n = head ↔ ringCount n head tail = n - 1 := by
  rw [ring_next htail]
  unfold ringCount
  split_ifs <;> omega

theorem ringCount_push (hhead : head < n) (htail : tail < n) (hroom : (tail + 1) % n ≠ head) :
    ringCount n head ((tail + 1) % n) = ringCount n head tail + 1 := by
  rw [ring_next htail] at hroom ⊢
  unfold ringCount
  split_ifs at hroom ⊢ <;> omega

theorem ringCount_pop (hhead : head < n) (htail : tail < n) (hne : head ≠ tail) :
    ringCount n head tail = ringCount n ((head + 1) % n) tail + 1 := by
  rw [ring_next hhead]
  unfold ringCount
  split_ifs <;> omega

end Count

end MitosOS.Lib
