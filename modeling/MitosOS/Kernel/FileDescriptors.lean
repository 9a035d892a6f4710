import MitosOS.Lib.Refinement
import Mathlib.Data.Set.Card

/-! The descriptor table of `fd.rs`: a list of slots that grows up to a limit and keeps a hole where
a descriptor was closed. -/
namespace MitosOS.Kernel
open MitosOS.Lib

inductive FdError where
  | wouldBlock
  | badRequest
  | ioError
  | noSpace
  deriving DecidableEq, Repr

def maxProcessFds : ℕ := 64

structure FileDescriptorTable (α : Type*) where
  fds : List (Option α)

namespace FileDescriptorTable
variable {α : Type*}

/-- The loop of `allocate`: the first empty slot is filled. -/
def fillFirst (fd : α) : List (Option α) → Option (ℕ × List (Option α))
  | [] => none
  | none :: slots => some (0, some fd :: slots)
  | some obj :: slots => (fillFirst fd slots).map fun r => (r.1 + 1, some obj :: r.2)

/-- A table with the serial line, `uart`, as its first three descriptors. -/
def new (uart : α) : FileDescriptorTable α := ⟨[some uart, some uart, some uart]⟩

def allocate (t : FileDescriptorTable α) (fd : α) : Except FdError ℕ × FileDescriptorTable α :=
  match fillFirst fd t.fds with
  | some (i, fds) => (.ok i, ⟨fds⟩)
  | none =>
    if t.fds.length < maxProcessFds then (.ok t.fds.length, ⟨t.fds ++ [some fd]⟩)
    else (.error .noSpace, t)

def get (t : FileDescriptorTable α) (fd : ℕ) : Except FdError α :=
  match t.fds[fd]? with
  | some (some obj) => .ok obj
  | _ => .error .badRequest

/-- The slot is emptied by `take` whether or not it held an object. -/
def close (t : FileDescriptorTable α) (fd : ℕ) : Except FdError Unit × FileDescriptorTable α :=
  match t.fds[fd]? with
  | some (some _) => (.ok (), ⟨t.fds.set fd none⟩)
  | some none => (.error .badRequest, ⟨t.fds.set fd none⟩)
  | none => (.error .badRequest, t)

def object (t : FileDescriptorTable α) (fd : ℕ) : Option α := t.fds[fd]?.join

section Slots
variable {t t' : FileDescriptorTable α} {slots slots' : List (Option α)} {obj : α} {fd i : ℕ}

theorem get_eq : t.get fd = (t.object fd).elim (.error .badRequest) .ok := by
  unfold get object
  rcases t.fds[fd]? with _ | _ | obj
  · rfl
  · rfl
  · rfl

theorem get_eq_ok_iff : t.get fd = .ok obj ↔ t.object fd = some obj := by
  rw [get_eq]
  cases t.object fd with
  | none => simp
  | some obj' => simp

theorem get_of_update {slot : Option α} (h : t'.object = Function.update t.object fd slot) (i : ℕ) :
    t'.get i = if i = fd then slot.elim (.error .badRequest) .ok else t.get i := by
  rw [get_eq, get_eq, h, Function.update_apply]
  split_ifs
  · rfl
  · rfl

theorem fillFirst_eq_none (h : fillFirst obj slots = none) (hi : i < slots.length) :
    slots[i]?.join ≠ none := by
  induction slots generalizing i with
  | nil => simp at hi
  | cons slot slots ih =>
    cases slot with
    | none => simp [fillFirst] at h
    | some obj' =>
      cases i with
      | zero => simp
      | succ i =>
        rw [List.getElem?_cons_succ]
        exact ih (by simpa [fillFirst] using h) (by simpa using hi)

theorem fillFirst_eq_some (h : fillFirst obj slots = some (fd, slots')) :
    fd < slots.length ∧ slots[fd]?.join = none ∧ (∀ i < fd, slots[i]?.join ≠ none) ∧
      slots' = slots.set fd (some obj) := by
  induction slots generalizing fd slots' with
  | nil => simp [fillFirst] at h
  | cons slot slots ih =>
    cases slot with
    | none =>
      obtain ⟨rfl, rfl⟩ : 0 = fd ∧ some obj :: slots = slots' := by simpa [fillFirst] using h
      simp
    | some obj' =>
      obtain ⟨r, hr, heq⟩ := Option.map_eq_some_iff.mp h
      obtain ⟨rfl, rfl⟩ := Prod.mk.inj heq
      obtain ⟨hlt, hnone, hleast, hset⟩ := ih hr
      refine ⟨by simpa using hlt, by simpa using hnone, ?_, by rw [hset, List.set_cons_succ]⟩
      intro i hi
      cases i with
      | zero => simp
      | succ i =>
        rw [List.getElem?_cons_succ]
        exact hleast i (by omega)

theorem object_set (hfd : fd < t.fds.length) (slot : Option α) :
    object ⟨t.fds.set fd slot⟩ = Function.update t.object fd slot := by
  funext i
  rw [Function.update_apply]
  unfold object
  split_ifs with hi
  · rw [hi, List.getElem?_set_self hfd, Option.join_some]
  · rw [List.getElem?_set_ne (Ne.symm hi)]

theorem object_append (obj : α) :
    object ⟨t.fds ++ [some obj]⟩ = Function.update t.object t.fds.length (some obj) := by
  funext i
  rw [Function.update_apply]
  unfold object
  rcases Nat.lt_trichotomy i t.fds.length with hi | hi | hi
  · rw [List.getElem?_append_left hi, if_neg hi.ne]
  · rw [hi, List.getElem?_concat_length, if_pos rfl, Option.join_some]
  · rw [if_neg hi.ne', List.getElem?_eq_none (by simpa using hi), List.getElem?_eq_none hi.le]

theorem object_of_length_le (h : t.fds.length ≤ fd) : t.object fd = none := by
  rw [object, List.getElem?_eq_none h, Option.join_none]

/-- `allocate` binds the lowest descriptor that is not open, or all of them are open and nothing
changes. -/
theorem allocate_cases (ht : t.fds.length ≤ maxProcessFds) (obj : α) :
    (∃ fd t', t.allocate obj = (.ok fd, t') ∧ fd < maxProcessFds ∧ t.object fd = none ∧
      (∀ i < fd, t.object i ≠ none) ∧ t'.object = Function.update t.object fd (some obj) ∧
      t'.fds.length ≤ maxProcessFds) ∨
    t.allocate obj = (.error .noSpace, t) ∧ ∀ i < maxProcessFds, t.object i ≠ none := by
  unfold allocate
  cases hfill : fillFirst obj t.fds with
  | some r =>
    obtain ⟨hlt, hnone, hleast, hset⟩ := fillFirst_eq_some hfill
    refine Or.inl ⟨r.1, ⟨r.2⟩, rfl, hlt.trans_le ht, hnone, hleast, ?_, ?_⟩
    · rw [hset]
      exact object_set hlt _
    · rw [hset, List.length_set]
      exact ht
  | none =>
    have hfull : ∀ i < t.fds.length, t.object i ≠ none := fun i hi => fillFirst_eq_none hfill hi
    dsimp only
    split_ifs with hroom
    · refine Or.inl ⟨_, _, rfl, hroom, object_of_length_le le_rfl, hfull, object_append obj, ?_⟩
      rw [List.length_append]
      exact hroom
    · exact Or.inr ⟨rfl, fun i hi => hfull i (hi.trans_le (Nat.not_lt.mp hroom))⟩

theorem close_cases (t : FileDescriptorTable α) (fd : ℕ) :
    (∃ t', t.close fd = (.ok (), t') ∧ t.object fd ≠ none ∧
      t'.object = Function.update t.object fd none ∧ t'.fds.length = t.fds.length) ∨
    t.close fd = (.error .badRequest, t) ∧ t.object fd = none := by
  unfold close object
  cases hslot : t.fds[fd]? with
  | none => exact Or.inr ⟨rfl, rfl⟩
  | some slot =>
    obtain ⟨hlt, hget⟩ := List.getElem?_eq_some_iff.mp hslot
    cases slot with
    | none =>
      have hsame : t.fds.set fd none = t.fds := by
        rw [← hget]
        exact List.set_getElem_self hlt
      dsimp only
      rw [hsame]
      exact Or.inr ⟨rfl, rfl⟩
    | some obj => exact Or.inl ⟨_, rfl, by simp, object_set hlt none, List.length_set⟩

theorem allocate_eq_ok_iff (ht : t.fds.length ≤ maxProcessFds) :
    (t.allocate obj).1 = .ok fd ↔
      fd < maxProcessFds ∧ t.object fd = none ∧ ∀ i < fd, t.object i ≠ none := by
  rcases allocate_cases ht obj with ⟨fd', t', heq, hlt, hnone, hleast, -, -⟩ | ⟨heq, hfull⟩
  · rw [heq]
    constructor
    · intro h
      obtain rfl := Except.ok.inj h
      exact ⟨hlt, hnone, hleast⟩
    · rintro ⟨-, hnone', hleast'⟩
      rcases Nat.lt_trichotomy fd fd' with h | h | h
      · exact absurd hnone' (hleast fd h)
      · rw [h]
      · exact absurd hnone (hleast' fd' h)
  · rw [heq]
    exact iff_of_false (by simp) fun h => hfull fd h.1 h.2.1

theorem allocate_eq_noSpace_iff (ht : t.fds.length ≤ maxProcessFds) :
    (t.allocate obj).1 = .error .noSpace ↔ ∀ i < maxProcessFds, t.object i ≠ none := by
  rcases allocate_cases ht obj with ⟨fd', t', heq, hlt, hnone, -, -, -⟩ | ⟨heq, hfull⟩
  · rw [heq]
    exact iff_of_false (by simp) fun h => h fd' hlt hnone
  · rw [heq]
    exact iff_of_true rfl hfull

theorem get_allocate (ht : t.fds.length ≤ maxProcessFds) (hok : (t.allocate obj).1 = .ok fd)
    (i : ℕ) : (t.allocate obj).2.get i = if i = fd then .ok obj else t.get i := by
  rcases allocate_cases ht obj with ⟨fd', t', heq, -, -, -, hobject, -⟩ | ⟨heq, -⟩
  · rw [heq] at hok ⊢
    obtain rfl := Except.ok.inj hok
    exact get_of_update hobject i
  · rw [heq] at hok
    contradiction

theorem allocate_error (ht : t.fds.length ≤ maxProcessFds) {e : FdError}
    (he : (t.allocate obj).1 = .error e) : e = .noSpace ∧ (t.allocate obj).2 = t := by
  rcases allocate_cases ht obj with ⟨fd', t', heq, -, -, -, -, -⟩ | ⟨heq, -⟩
  · rw [heq] at he
    contradiction
  · rw [heq] at he ⊢
    exact ⟨(Except.error.inj he).symm, rfl⟩

theorem close_eq_ok_iff : (t.close fd).1 = .ok () ↔ t.object fd ≠ none := by
  rcases t.close_cases fd with ⟨t', heq, hopen, -, -⟩ | ⟨heq, hnone⟩
  · rw [heq]
    exact iff_of_true rfl hopen
  · rw [heq]
    exact iff_of_false (by simp) fun h => h hnone

theorem get_close (hok : (t.close fd).1 = .ok ()) (i : ℕ) :
    (t.close fd).2.get i = if i = fd then .error .badRequest else t.get i := by
  rcases t.close_cases fd with ⟨t', heq, -, hobject, -⟩ | ⟨heq, -⟩
  · rw [heq]
    exact get_of_update hobject i
  · rw [heq] at hok
    contradiction

theorem close_error {e : FdError} (he : (t.close fd).1 = .error e) :
    e = .badRequest ∧ (t.close fd).2 = t := by
  rcases t.close_cases fd with ⟨t', heq, -, -, -⟩ | ⟨heq, -⟩
  · rw [heq] at he
    contradiction
  · rw [heq] at he ⊢
    exact ⟨(Except.error.inj he).symm, rfl⟩

end Slots

end FileDescriptorTable

inductive FdCall (α : Type*) where
  | allocate (fd : α)
  | close (fd : ℕ)

inductive FdAnswer where
  | allocated (result : Except FdError ℕ)
  | closed (result : Except FdError Unit)

variable {α : Type*}

def fdObject (α : Type*) : CallObject (FileDescriptorTable α) (FdCall α) FdAnswer where
  call t
    | .allocate fd => (.allocated (t.allocate fd).1, (t.allocate fd).2)
    | .close fd => (.closed (t.close fd).1, (t.close fd).2)

/-- What a call and its answer say about the open descriptors. -/
def FdCall.track (bound : ℕ → Option α) : FdCall α × FdAnswer → ℕ → Option α
  | (.allocate obj, .allocated (.ok fd)) => Function.update bound fd (some obj)
  | (.close fd, .closed (.ok ())) => Function.update bound fd none
  | _ => bound

def tableAfter (uart : α) (calls : List (FdCall α)) : FileDescriptorTable α :=
  (fdObject α).after (.new uart) calls

/-- The open descriptors and their objects after a sequence of calls, as the answers tell it. -/
def boundAfter (uart : α) (calls : List (FdCall α)) : ℕ → Option α :=
  (calls.zip ((fdObject α).run (.new uart) calls).1).foldl FdCall.track fun fd =>
    if fd < 3 then some uart else none

section Histories
variable {t : FileDescriptorTable α}

theorem track_call (ht : t.fds.length ≤ maxProcessFds) (c : FdCall α) :
    FdCall.track t.object (c, ((fdObject α).call t c).1) = ((fdObject α).call t c).2.object ∧
      ((fdObject α).call t c).2.fds.length ≤ maxProcessFds := by
  cases c with
  | allocate obj =>
    unfold fdObject
    dsimp only
    rcases FileDescriptorTable.allocate_cases ht obj with
      ⟨fd, t', heq, -, -, -, hobject, hlen⟩ | ⟨heq, -⟩
    · rw [heq]
      exact ⟨hobject.symm, hlen⟩
    · rw [heq]
      exact ⟨rfl, ht⟩
  | close fd =>
    unfold fdObject
    dsimp only
    rcases t.close_cases fd with ⟨t', heq, -, hobject, hlen⟩ | ⟨heq, -⟩
    · rw [heq]
      exact ⟨hobject.symm, hlen.trans_le ht⟩
    · rw [heq]
      exact ⟨rfl, ht⟩

theorem foldl_track (ht : t.fds.length ≤ maxProcessFds) (calls : List (FdCall α)) :
    (calls.zip ((fdObject α).run t calls).1).foldl FdCall.track t.object =
        ((fdObject α).after t calls).object ∧
      ((fdObject α).after t calls).fds.length ≤ maxProcessFds := by
  induction calls generalizing t with
  | nil => exact ⟨rfl, ht⟩
  | cons c calls ih =>
    obtain ⟨hobject, hlen⟩ := track_call ht c
    have hrest := ih hlen
    rw [← hobject] at hrest
    exact hrest

theorem object_new (uart : α) :
    (FileDescriptorTable.new uart).object = fun fd => if fd < 3 then some uart else none := by
  funext fd
  split_ifs with hfd
  · obtain rfl | rfl | rfl : fd = 0 ∨ fd = 1 ∨ fd = 2 := by omega
    · rfl
    · rfl
    · rfl
  · exact FileDescriptorTable.object_of_length_le (Nat.not_lt.mp hfd)

theorem object_tableAfter (uart : α) (calls : List (FdCall α)) :
    boundAfter uart calls = (tableAfter uart calls).object ∧
      (tableAfter uart calls).fds.length ≤ maxProcessFds := by
  have hnew : (FileDescriptorTable.new uart).fds.length ≤ maxProcessFds := by
    change 3 ≤ 64
    decide
  have hrun := foldl_track hnew calls
  rw [object_new] at hrun
  exact hrun

theorem ncard_eq_iff {s : Set ℕ} {n : ℕ} (hs : ∀ i ∈ s, i < n) : s.ncard = n ↔ ∀ i < n, i ∈ s := by
  have hsub : s ⊆ Finset.range n := fun i hi => Finset.mem_coe.mpr (Finset.mem_range.mpr (hs i hi))
  have hcard : (Finset.range n : Set ℕ).ncard = n := by
    rw [Set.ncard_coe_finset, Finset.card_range]
  constructor
  · intro h i hi
    have heq := Set.eq_of_subset_of_ncard_le hsub (hcard.trans h.symm).le (Finset.finite_toSet _)
    rw [heq]
    exact Finset.mem_coe.mpr (Finset.mem_range.mpr hi)
  · intro h
    have hsup : (Finset.range n : Set ℕ) ⊆ s := fun i hi =>
      h i (Finset.mem_range.mp (Finset.mem_coe.mp hi))
    rw [hsub.antisymm hsup, hcard]

end Histories

/-- Descriptor numbers follow the POSIX rule after every sequence of calls, where the calls and their
answers tell what is open. -/
theorem fileDescriptors_lowest_free (uart : α) (calls : List (FdCall α)) :
    (∀ obj fd, ((tableAfter uart calls).allocate obj).1 = .ok fd ↔
      fd < maxProcessFds ∧ boundAfter uart calls fd = none ∧
        ∀ i < fd, boundAfter uart calls i ≠ none) ∧
    (∀ obj, ((tableAfter uart calls).allocate obj).1 = .error .noSpace ↔
      {fd | boundAfter uart calls fd ≠ none}.ncard = 64) ∧
    (∀ fd, ((tableAfter uart calls).close fd).1 = .ok () ↔ boundAfter uart calls fd ≠ none) ∧
    (∀ fd obj, (tableAfter uart calls).get fd = .ok obj ↔
      boundAfter uart calls fd = some obj) ∧
    (∀ obj fd, ((tableAfter uart calls).allocate obj).1 = .ok fd →
      ∀ i, ((tableAfter uart calls).allocate obj).2.get i =
        if i = fd then .ok obj else (tableAfter uart calls).get i) ∧
    (∀ fd, ((tableAfter uart calls).close fd).1 = .ok () →
      ∀ i, ((tableAfter uart calls).close fd).2.get i =
        if i = fd then .error .badRequest else (tableAfter uart calls).get i) ∧
    (∀ obj e, ((tableAfter uart calls).allocate obj).1 = .error e →
      e = .noSpace ∧ ((tableAfter uart calls).allocate obj).2 = tableAfter uart calls) ∧
    ∀ fd e, ((tableAfter uart calls).close fd).1 = .error e →
      e = .badRequest ∧ ((tableAfter uart calls).close fd).2 = tableAfter uart calls := by
  obtain ⟨hbound, hlen⟩ := object_tableAfter uart calls
  rw [hbound]
  generalize tableAfter uart calls = t at hlen ⊢
  have hcard : {fd | t.object fd ≠ none}.ncard = 64 ↔ ∀ i < maxProcessFds, t.object i ≠ none := by
    apply ncard_eq_iff
    intro i hi
    by_contra hge
    exact hi (FileDescriptorTable.object_of_length_le (hlen.trans (Nat.not_lt.mp hge)))
  refine ⟨fun obj fd => FileDescriptorTable.allocate_eq_ok_iff hlen, fun obj => ?_,
    fun fd => FileDescriptorTable.close_eq_ok_iff,
    fun fd obj => FileDescriptorTable.get_eq_ok_iff,
    fun obj fd hok => FileDescriptorTable.get_allocate hlen hok,
    fun fd hok => FileDescriptorTable.get_close hok,
    fun obj e he => FileDescriptorTable.allocate_error hlen he,
    fun fd e he => FileDescriptorTable.close_error he⟩
  rw [hcard]
  exact FileDescriptorTable.allocate_eq_noSpace_iff hlen

end MitosOS.Kernel
