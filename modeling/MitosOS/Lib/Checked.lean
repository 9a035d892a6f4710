import MitosOS.Lib.Action
import MitosOS.Lib.Bits
import Mathlib.Data.List.Basic

/-! Unsigned machine arithmetic in a build with or without overflow checks, and slices of buffers. -/
namespace MitosOS.Lib

section Arithmetic
variable (checks : Bool) (w x y : ℕ)

/-- A sum or a product of `w`-bit unsigned integers. Outside their range, a build with overflow checks
panics and one without them wraps. -/
def overflowing (checks : Bool) (w value : ℕ) : Result ℕ :=
  if value < 2 ^ w then .ok value
  else if checks then .panic
  else .ok (value % 2 ^ w)

def addU : Result ℕ := overflowing checks w (x + y)

def mulU : Result ℕ := overflowing checks w (x * y)

def subU : Result ℕ :=
  if y ≤ x then .ok (x - y)
  else if checks then .panic
  else .ok (x + 2 ^ w - y)

variable {w x y}

theorem addU_of_lt (h : x + y < 2 ^ w) : addU checks w x y = .ok (x + y) := if_pos h

theorem mulU_of_lt (h : x * y < 2 ^ w) : mulU checks w x y = .ok (x * y) := if_pos h

theorem subU_of_le (h : y ≤ x) : subU checks w x y = .ok (x - y) := if_pos h

variable (w x y)

/-- Without overflow checks every sum has a value. -/
theorem exists_addU_eq_ok : ∃ z, addU false w x y = .ok z := by
  by_cases h : x + y < 2 ^ w
  · exact ⟨x + y, addU_of_lt false h⟩
  · exact ⟨(x + y) % 2 ^ w, if_neg h⟩

/-- With overflow checks a sum has the same value, or panics. -/
theorem addU_checked : addU true w x y = addU false w x y ∨ addU true w x y = .panic := by
  by_cases h : x + y < 2 ^ w
  · rw [addU_of_lt true h, addU_of_lt false h]
    exact .inl rfl
  · exact .inr (if_neg h)

end Arithmetic

section Slices
variable {α : Type*} {xs src : List α} {start stop : ℕ}

def slice (xs : List α) (start stop : ℕ) : Result (List α) :=
  if start ≤ stop ∧ stop ≤ xs.length then .ok ((xs.drop start).take (stop - start)) else .panic

def copyFromSlice (xs : List α) (start stop : ℕ) (src : List α) : Result (List α) :=
  if start ≤ stop ∧ stop ≤ xs.length ∧ src.length = stop - start then
    .ok (xs.take start ++ src ++ xs.drop stop)
  else .panic

theorem slice_of_le (hstart : start ≤ stop) (hstop : stop ≤ xs.length) :
    slice xs start stop = .ok ((xs.drop start).take (stop - start)) := if_pos ⟨hstart, hstop⟩

theorem slice_eq_panic_iff : slice xs start stop = .panic ↔ stop < start ∨ xs.length < stop := by
  unfold slice
  split_ifs with h
  · simp only [false_iff]
    omega
  · simp only [true_iff]
    omega

theorem copyFromSlice_of_le (hstart : start ≤ stop) (hstop : stop ≤ xs.length)
    (hsrc : src.length = stop - start) :
    copyFromSlice xs start stop src = .ok (xs.take start ++ src ++ xs.drop stop) :=
  if_pos ⟨hstart, hstop, hsrc⟩

/-! A list with the elements from `start` on replaced by `src`. -/

theorem length_overwrite (hstop : start + src.length = stop) (hlen : stop ≤ xs.length) :
    (xs.take start ++ src ++ xs.drop stop).length = xs.length := by
  rw [List.length_append, List.length_append, List.length_take_of_le (by omega), hstop,
    List.length_drop, Nat.add_sub_cancel' hlen]

theorem take_overwrite (hstop : start + src.length = stop) (hlen : stop ≤ xs.length) :
    (xs.take start ++ src ++ xs.drop stop).take stop = xs.take start ++ src := by
  apply List.take_left'
  rw [List.length_append, List.length_take_of_le (by omega), hstop]

theorem drop_overwrite (hstop : start + src.length = stop) (hlen : stop ≤ xs.length) {n : ℕ}
    (hn : stop ≤ n) : (xs.take start ++ src ++ xs.drop stop).drop n = xs.drop n := by
  have hlength : (xs.take start ++ src).length = stop := by
    rw [List.length_append, List.length_take_of_le (by omega), hstop]
  rw [List.drop_append, List.drop_eq_nil_of_le (hlength.le.trans hn), List.nil_append, hlength,
    List.drop_drop, Nat.add_sub_cancel' hn]

end Slices

end MitosOS.Lib
