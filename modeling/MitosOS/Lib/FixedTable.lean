import Mathlib.Data.List.Basic
import Mathlib.Data.Nat.Notation
import Mathlib.Data.Vector.Basic

/-! Tables of a fixed capacity that are filled from the front; what no longer fits is dropped. -/
namespace MitosOS.Lib

structure FixedTable (α : Type*) (n : ℕ) where
  slots : Vector α n
  count : ℕ

namespace FixedTable
variable {α : Type*} {n : ℕ}

def replicate (n : ℕ) (a : α) : FixedTable α n := ⟨Vector.replicate n a, 0⟩

def push (t : FixedTable α n) (a : α) : FixedTable α n :=
  if h : t.count < n then ⟨t.slots.set t.count a, t.count + 1⟩ else t

def stored (t : FixedTable α n) : List α := t.slots.toList.take t.count

theorem count_push_le {t : FixedTable α n} (h : t.count ≤ n) (a : α) : (t.push a).count ≤ n := by
  unfold push
  split_ifs with hlt
  · exact hlt
  · exact h

theorem length_stored {t : FixedTable α n} (h : t.count ≤ n) : t.stored.length = t.count := by
  simpa [stored] using h

theorem take_stored {t : FixedTable α n} (h : t.count ≤ n) : t.stored.take n = t.stored := by
  rw [List.take_of_length_le]
  rw [length_stored h]
  exact h

/-- A push appends, as long as the capacity allows it. -/
theorem stored_push {t : FixedTable α n} (h : t.count ≤ n) (a : α) :
    (t.push a).stored = (t.stored ++ [a]).take n := by
  have hlength := length_stored h
  unfold push
  split_ifs with hlt
  · have hset : (t.slots.set t.count a).toList.take (t.count + 1) = t.stored ++ [a] := by
      rw [Vector.toList_set, List.take_succ_eq_append_getElem (by simpa using hlt)]
      simp [stored, List.take_set_of_le]
    have hfits : (t.stored ++ [a]).length ≤ n := by
      rw [List.length_append, hlength, List.length_singleton]
      exact hlt
    rw [List.take_of_length_le hfits, ← hset]
    rfl
  · have hfull : t.stored.length = n := by omega
    rw [List.take_left' hfull]

end FixedTable

/-- Cutting off early makes no difference to what is kept. -/
theorem take_take_append {α : Type*} (n : ℕ) (xs ys : List α) :
    (xs.take n ++ ys).take n = (xs ++ ys).take n := by
  simp only [List.take_append, List.take_take, List.length_take, min_self]
  congr 2
  omega

end MitosOS.Lib
