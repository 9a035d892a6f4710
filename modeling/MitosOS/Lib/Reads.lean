import MitosOS.Lib.Action
import MitosOS.Lib.ByteMemory

/-! Reading memory with a record of the addresses that were read, and byte strings laid out in
memory. -/
namespace MitosOS.Lib

namespace Memory

def load16 (m : Memory) (a : ℕ) : BitVec 16 := m (a + 1) ++ m a

def load32 (m : Memory) (a : ℕ) : BitVec 32 := m (a + 3) ++ m (a + 2) ++ m (a + 1) ++ m a

def bytes (m : Memory) (a n : ℕ) : List (BitVec 8) := (List.range' a n).map m

def Holds (m : Memory) : ℕ → List (BitVec 8) → Prop
  | _, [] => True
  | a, b :: bytes => m a = b ∧ Holds m (a + 1) bytes

theorem holds_cons {m : Memory} {a : ℕ} {b : BitVec 8} {bytes : List (BitVec 8)} :
    m.Holds a (b :: bytes) ↔ m a = b ∧ m.Holds (a + 1) bytes := Iff.rfl

theorem holds_append {m : Memory} {a : ℕ} {xs ys : List (BitVec 8)} :
    m.Holds a (xs ++ ys) ↔ m.Holds a xs ∧ m.Holds (a + xs.length) ys := by
  induction xs generalizing a with
  | nil => simp [Holds]
  | cons b xs ih =>
    have hlength : a + (b :: xs).length = a + 1 + xs.length := by
      rw [List.length_cons]
      omega
    rw [List.cons_append, holds_cons, holds_cons, ih, hlength, and_assoc]

end Memory

def le16 (v : BitVec 16) : List (BitVec 8) := [v.extractLsb' 0 8, v.extractLsb' 8 8]

def le32 (v : BitVec 32) : List (BitVec 8) :=
  [v.extractLsb' 0 8, v.extractLsb' 8 8, v.extractLsb' 16 8, v.extractLsb' 24 8]

def le64 (v : BitVec 64) : List (BitVec 8) :=
  [v.extractLsb' 0 8, v.extractLsb' 8 8, v.extractLsb' 16 8, v.extractLsb' 24 8,
    v.extractLsb' 32 8, v.extractLsb' 40 8, v.extractLsb' 48 8, v.extractLsb' 56 8]

namespace Memory
variable {m : Memory} {a : ℕ}

theorem Holds.bytes_eq : ∀ {a : ℕ} {bs : List (BitVec 8)}, m.Holds a bs → m.bytes a bs.length = bs
  | _, [], _ => rfl
  | a, b :: bs, h => by
    obtain ⟨hb, hbs⟩ := h
    rw [bytes, List.length_cons, List.range'_succ, List.map_cons, hb, ← bytes, hbs.bytes_eq]

theorem holds_of_bytes : ∀ {a : ℕ} {bs : List (BitVec 8)}, m.bytes a bs.length = bs → m.Holds a bs
  | _, [], _ => trivial
  | a, b :: bs, h => by
    rw [bytes, List.length_cons, List.range'_succ, List.map_cons, ← bytes] at h
    obtain ⟨hb, hbs⟩ := List.cons.inj h
    exact ⟨hb, holds_of_bytes hbs⟩

theorem Holds.load16_eq {v : BitVec 16} (h : m.Holds a (le16 v)) : m.load16 a = v := by
  obtain ⟨h0, h1, -⟩ := h
  rw [load16, h0, h1]
  apply BitVec.eq_of_getLsbD_eq
  intro i hi
  simp only [BitVec.getLsbD_append, BitVec.getLsbD_extractLsb']
  grind

theorem Holds.load32_eq {v : BitVec 32} (h : m.Holds a (le32 v)) : m.load32 a = v := by
  obtain ⟨h0, h1, h2, h3, -⟩ := h
  rw [load32, h0, h1, h2, h3]
  apply BitVec.eq_of_getLsbD_eq
  intro i hi
  simp only [BitVec.getLsbD_append, BitVec.getLsbD_extractLsb']
  grind

theorem Holds.load64_eq {v : BitVec 64} (h : m.Holds a (le64 v)) : m.load64 a = v := by
  obtain ⟨h0, h1, h2, h3, h4, h5, h6, h7, -⟩ := h
  unfold load64
  rw [h0, h1, h2, h3, h4, h5, h6, h7]
  apply BitVec.eq_of_getLsbD_eq
  intro i hi
  simp only [BitVec.getLsbD_append, BitVec.getLsbD_extractLsb']
  grind

end Memory

/-- A value computed from memory, and the addresses that were read for it. -/
structure Reads (α : Type) where
  value : α
  addrs : List ℕ

namespace Reads
variable {α β : Type}

instance : Monad Reads where
  pure a := ⟨a, []⟩
  bind x f := ⟨(f x.value).value, x.addrs ++ (f x.value).addrs⟩

/-- What follows a read depends on the value read only. -/
theorem bind_congr {x : Reads α} {f g : α → Reads β} (h : f x.value = g x.value) :
    x >>= f = x >>= g := by
  change Reads.mk _ _ = Reads.mk _ _
  rw [h]

theorem value_bind (x : Reads α) (f : α → Reads β) : (x >>= f).value = (f x.value).value := rfl

theorem mem_addrs_bind {x : Reads α} {f : α → Reads β} {a : ℕ} :
    a ∈ (x >>= f).addrs ↔ a ∈ x.addrs ∨ a ∈ (f x.value).addrs := List.mem_append

def u8 (m : Memory) (a : ℕ) : Reads (BitVec 8) := ⟨m a, List.range' a 1⟩
def u16 (m : Memory) (a : ℕ) : Reads (BitVec 16) := ⟨m.load16 a, List.range' a 2⟩
def u32 (m : Memory) (a : ℕ) : Reads (BitVec 32) := ⟨m.load32 a, List.range' a 4⟩
def u64 (m : Memory) (a : ℕ) : Reads (BitVec 64) := ⟨m.load64 a, List.range' a 8⟩
def bytes (m : Memory) (a n : ℕ) : Reads (List (BitVec 8)) := ⟨m.bytes a n, List.range' a n⟩

/-- Every address that was read lies in `[lo, hi)`. -/
def Within (lo hi : ℕ) (x : Reads α) : Prop := ∀ a ∈ x.addrs, lo ≤ a ∧ a < hi

section Bounds
variable {lo hi lo' hi' : ℕ} {m : Memory} {a : ℕ} {x : Reads α}

theorem Within.mono (h : x.Within lo hi) (hlo : lo' ≤ lo) (hhi : hi ≤ hi') : x.Within lo' hi' := by
  intro a ha
  obtain ⟨hge, hlt⟩ := h a ha
  omega

@[simp] theorem within_pure (a : α) : (pure a : Reads α).Within lo hi :=
  fun _ ha => absurd ha List.not_mem_nil

@[simp] theorem within_bind {f : α → Reads β} :
    (x >>= f).Within lo hi ↔ x.Within lo hi ∧ (f x.value).Within lo hi := by
  unfold Within
  constructor
  · intro h
    exact ⟨fun a ha => h a (List.mem_append_left _ ha), fun a ha => h a (List.mem_append_right _ ha)⟩
  · intro h a ha
    rcases List.mem_append.mp ha with hx | hf
    · exact h.1 a hx
    · exact h.2 a hf

theorem within_range' {v : α} {n : ℕ} (hn : 0 < n) :
    (⟨v, List.range' a n⟩ : Reads α).Within lo hi ↔ lo ≤ a ∧ a + n ≤ hi := by
  simp only [Within, List.mem_range'_1]
  constructor
  · intro h
    have hfirst := h a (by omega)
    have hlast := h (a + n - 1) (by omega)
    omega
  · intro h b hb
    omega

@[simp] theorem within_u8 : (u8 m a).Within lo hi ↔ lo ≤ a ∧ a + 1 ≤ hi :=
  within_range' Nat.one_pos

@[simp] theorem within_u16 : (u16 m a).Within lo hi ↔ lo ≤ a ∧ a + 2 ≤ hi :=
  within_range' (Nat.succ_pos 1)

@[simp] theorem within_u32 : (u32 m a).Within lo hi ↔ lo ≤ a ∧ a + 4 ≤ hi :=
  within_range' (Nat.succ_pos 3)

@[simp] theorem within_u64 : (u64 m a).Within lo hi ↔ lo ≤ a ∧ a + 8 ≤ hi :=
  within_range' (Nat.succ_pos 7)

theorem within_bytes {n : ℕ} (hlo : lo ≤ a) (hhi : a + n ≤ hi) : (bytes m a n).Within lo hi := by
  intro b hb
  obtain ⟨hlow, hhigh⟩ := List.mem_range'_1.mp hb
  omega

/-- Every address that was read is one of `S`. -/
def Inside (S : Set ℕ) (x : Reads α) : Prop := ∀ a ∈ x.addrs, a ∈ S

theorem inside_pure (S : Set ℕ) (a : α) : (pure a : Reads α).Inside S :=
  fun _ ha => absurd ha List.not_mem_nil

theorem Inside.bind {S : Set ℕ} {f : α → Reads β} (hx : x.Inside S) (hf : (f x.value).Inside S) :
    (x >>= f).Inside S := by
  intro a ha
  rcases mem_addrs_bind.mp ha with ha | ha
  · exact hx a ha
  · exact hf a ha

theorem Within.inside {S : Set ℕ} (hx : x.Within lo hi) (h : ∀ b, lo ≤ b → b < hi → b ∈ S) :
    x.Inside S := fun b hb => h b (hx b hb).1 (hx b hb).2

end Bounds

section Panics
variable {lo hi : ℕ} {a : α} {x y : Reads (Result α)} {f g : α → Reads (Result β)}

/-- `x`, and then `f` on its value unless `x` has ended the program. -/
def andThen (x : Reads (Result α)) (f : α → Reads (Result β)) : Reads (Result β) where
  value := x.value.bind fun a => (f a).value
  addrs := x.addrs ++
    match x.value with
    | .ok a => (f a).addrs
    | _ => []

theorem within_andThen (hx : x.value = .ok a) :
    (x.andThen f).Within lo hi ↔ x.Within lo hi ∧ (f a).Within lo hi := by
  have hbind : (x.andThen f).addrs = (x >>= fun _ => f a).addrs := by
    change x.addrs ++ _ = x.addrs ++ (f a).addrs
    rw [hx]
  unfold Within
  rw [hbind]
  exact within_bind

theorem mem_addrs_andThen {b : ℕ} (h : b ∈ x.addrs) : b ∈ (x.andThen f).addrs :=
  List.mem_append_left _ h

theorem value_andThen (hx : x.value = .ok a) : (x.andThen f).value = (f a).value := by
  change x.value.bind _ = _
  rw [hx, Result.ok_bind]

/-- `x` does what `y` does, or panics on the way. -/
def StopsIn (x y : Reads (Result α)) : Prop := x = y ∨ x.value = .panic ∧ x.addrs ⊆ y.addrs

theorem StopsIn.refl (x : Reads (Result α)) : StopsIn x x := .inl rfl

/-- A read ahead of both changes nothing. -/
theorem StopsIn.bind {γ : Type} (z : Reads γ) {f g : γ → Reads (Result α)}
    (h : StopsIn (f z.value) (g z.value)) : StopsIn (z >>= f) (z >>= g) := by
  rcases h with heq | ⟨hpanic, hsub⟩
  · exact .inl (bind_congr heq)
  · exact .inr ⟨hpanic, List.append_subset.mpr
      ⟨List.subset_append_left _ _, List.subset_append_of_subset_right _ hsub⟩⟩

theorem StopsIn.andThen (h : StopsIn x y) (hf : ∀ a, StopsIn (f a) (g a)) :
    StopsIn (x.andThen f) (y.andThen g) := by
  rcases h with rfl | ⟨hpanic, hsub⟩
  · cases hx : x.value with
    | ok a =>
      rcases hf a with heq | ⟨hpanic, hsub⟩
      · left
        simp only [Reads.andThen, hx, heq, Result.ok_bind]
      · right
        simp only [Reads.andThen, hx, Result.ok_bind]
        exact ⟨hpanic, List.append_subset.mpr
          ⟨List.subset_append_left _ _, List.subset_append_of_subset_right _ hsub⟩⟩
    | err msg => exact .inl (by simp only [Reads.andThen, hx, Result.err_bind])
    | panic => exact .inl (by simp only [Reads.andThen, hx, Result.panic_bind])
    | exhausted => exact .inl (by simp only [Reads.andThen, hx, Result.exhausted_bind])
    | running => exact .inl (by simp only [Reads.andThen, hx, Result.running_bind])
  · right
    simp only [Reads.andThen, hpanic, Result.panic_bind, List.append_nil]
    exact ⟨trivial, List.subset_append_of_subset_left _ hsub⟩

end Panics

end Reads

end MitosOS.Lib
