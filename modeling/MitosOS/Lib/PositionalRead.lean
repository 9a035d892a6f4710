import MitosOS.Lib.Checked
import Mathlib.Algebra.BigOperators.Group.List.Basic

/-! Reads of a sequence at a position into a buffer, and sequences of such reads. -/
namespace MitosOS.Lib

universe u v

section Reads
variable {α : Type u} {σ : Type v} {I : σ → Prop}
  {read : ℕ → List α → Action σ (ℕ × List α)} {contents : List α}

/-- How many elements are read from `offset` on, and the buffer afterwards. -/
def readAt (contents : List α) (offset : ℕ) (buf : List α) : ℕ × List α :=
  let n := min buf.length (contents.length - offset)
  (n, (contents.drop offset).take n ++ buf.drop n)

/-- One read after the other, each into a buffer of its own and where the last one ended. The result
is what they deliver. -/
def readPieces (read : ℕ → List α → Action σ (ℕ × List α)) : ℕ → List (List α) → Action σ (List α)
  | _, [] => pure []
  | offset, buf :: bufs => do
    let r ← read offset buf
    let rest ← readPieces read (offset + r.1) bufs
    pure (r.2.take r.1 ++ rest)

theorem readAt_of_length_le {offset : ℕ} (h : contents.length ≤ offset) (buf : List α) :
    readAt contents offset buf = (0, buf) := by
  simp [readAt, Nat.sub_eq_zero_of_le h]

theorem readAt_fst_le (offset : ℕ) (buf : List α) :
    (readAt contents offset buf).1 ≤ buf.length := Nat.min_le_left _ _

theorem take_readAt (contents : List α) (offset : ℕ) (buf : List α) :
    (readAt contents offset buf).2.take (readAt contents offset buf).1 =
      (contents.drop offset).take buf.length := by
  have hlen : ((contents.drop offset).take
      (min buf.length (contents.length - offset))).length =
      min buf.length (contents.length - offset) := by
    rw [List.length_take, List.length_drop, min_assoc, min_self]
  unfold readAt
  rw [List.take_left' hlen, ← List.length_drop, ← List.take_eq_take_min]

theorem drop_readAt (contents : List α) (offset : ℕ) (buf : List α) :
    contents.drop (offset + (readAt contents offset buf).1) =
      (contents.drop offset).drop buf.length := by
  rw [List.drop_drop]
  show contents.drop (offset + min buf.length (contents.length - offset)) = _
  by_cases h : buf.length ≤ contents.length - offset
  · rw [min_eq_left h]
  · rw [min_eq_right (by omega), List.drop_eq_nil_of_le (by omega),
      List.drop_eq_nil_of_le (by omega)]

/-- Reads in pieces deliver the sequence in order, whatever the pieces are. -/
theorem readPieces_gives
    (hread : ∀ offset buf, Action.Gives I (read offset buf) (.ok (readAt contents offset buf)))
    (offset : ℕ) (bufs : List (List α)) :
    Action.Gives I (readPieces read offset bufs)
      (.ok ((contents.drop offset).take (bufs.map List.length).sum)) := by
  induction bufs generalizing offset with
  | nil => exact Action.gives_pure []
  | cons buf bufs ih =>
    rw [List.map_cons, List.sum_cons, List.take_add, ← take_readAt, ← drop_readAt]
    exact (hread offset buf).ok_bind ((ih _).ok_bind (Action.gives_pure _))

/-- Non-empty buffers, one for each element, are enough. -/
theorem length_le_sum {bufs : List (List α)} (h : ∀ buf ∈ bufs, buf ≠ []) :
    bufs.length ≤ (bufs.map List.length).sum := by
  induction bufs with
  | nil => rfl
  | cons buf bufs ih =>
    have hbuf := List.length_pos_iff.mpr (h buf List.mem_cons_self)
    have hrest := ih fun b hb => h b (List.mem_cons_of_mem buf hb)
    rw [List.length_cons, List.map_cons, List.sum_cons]
    omega

/-- Reads from the start on, each where the last one ended, deliver `contents` in order: they are
complete after one read of a non-empty buffer for each element at the latest, and from then on nothing
is read. -/
structure ReadsInOrder (I : σ → Prop) (read : ℕ → List α → Action σ (ℕ × List α))
    (contents : List α) : Prop where
  delivered : ∀ bufs, Action.Gives I (readPieces read 0 bufs)
    (.ok (contents.take (bufs.map List.length).sum))
  complete : ∀ bufs, (∀ buf ∈ bufs, buf ≠ []) → contents.length ≤ bufs.length →
    Action.Gives I (readPieces read 0 bufs) (.ok contents)
  ended : ∀ offset buf, contents.length ≤ offset → Action.Gives I (read offset buf) (.ok (0, buf))

theorem readsInOrder
    (hread : ∀ offset buf, Action.Gives I (read offset buf) (.ok (readAt contents offset buf))) :
    ReadsInOrder I read contents where
  delivered bufs := readPieces_gives hread 0 bufs
  complete bufs hne hlen := by
    have hpieces := readPieces_gives hread 0 bufs
    rwa [List.drop_zero, List.take_of_length_le (hlen.trans (length_le_sum hne))] at hpieces
  ended offset buf hoffset := by
    rw [← readAt_of_length_le hoffset buf]
    exact hread offset buf

/-- The same for one start state: the reads may change it, and later ones need not go on for ever. -/
structure ReadsInOrderFrom (s : σ) (read : ℕ → List α → Action σ (ℕ × List α)) (contents : List α) :
    Prop where
  delivered : ∀ bufs, (∀ buf ∈ bufs, buf ≠ []) →
    (readPieces read 0 bufs s).1 = .ok (contents.take (bufs.map List.length).sum)
  complete : ∀ bufs, (∀ buf ∈ bufs, buf ≠ []) → contents.length ≤ bufs.length →
    (readPieces read 0 bufs s).1 = .ok contents
  ended : ∀ bufs, (∀ buf ∈ bufs, buf ≠ []) → ∀ offset buf, contents.length ≤ offset →
    (read offset buf (readPieces read 0 bufs s).2).1 = .ok (0, buf)

end Reads

end MitosOS.Lib
