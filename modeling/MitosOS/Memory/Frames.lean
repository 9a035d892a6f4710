import MitosOS.Lib.ByteMemory
import MitosOS.Memory.Bitmap

/-! Physical memory together with the global frame allocator. Frame `f` is the page of bytes
`f * 4096 .. f * 4096 + 4096`. Physical memory is read and written through `phys_to_virt`, so
a dereferenced pointer is modelled by the physical address it stands for. -/
namespace MitosOS.Memory
open MitosOS.Lib

/-- `PHYSICAL_PMM` tracks 65536 frames, that is 256 MiB. -/
abbrev Pmm := BitmapAllocator 1024

structure Machine where
  mem : Memory
  pmm : Pmm

def userSpaceBase : ℕ := 1 <<< 39

def vmmAllocFrame (s : Machine) : Option ℕ × Machine :=
  (s.pmm.allocateNextFrame.1.map fun idx => idx * 4096,
    { s with pmm := s.pmm.allocateNextFrame.2 })

def vmmFreeFrame (s : Machine) (addr : ℕ) : Machine :=
  { s with pmm := s.pmm.freeFrame (addr / 4096) }

@[simp] theorem vmmFreeFrame_mem (s : Machine) (addr : ℕ) : (vmmFreeFrame s addr).mem = s.mem := rfl

structure Taken (s s' : Machine) (f : ℕ) : Prop where
  wasFree : s.pmm.IsFree f
  lt : f < 65536
  mem : s'.mem = s.mem
  pmm : ∀ g, s'.pmm.IsFree g ↔ s.pmm.IsFree g ∧ g ≠ f

theorem vmmAllocFrame_cases (s : Machine) :
    (vmmAllocFrame s = (none, s) ∧ ∀ f, ¬ s.pmm.IsFree f) ∨
    ∃ f s', vmmAllocFrame s = (some (f * 4096), s') ∧ Taken s s' f := by
  unfold vmmAllocFrame
  cases ha : s.pmm.allocateNextFrame.1 with
  | none =>
    left
    obtain ⟨hsame, hempty⟩ := BitmapAllocator.allocateNextFrame_none ha
    rw [hsame]
    exact ⟨rfl, hempty⟩
  | some f =>
    right
    obtain ⟨hfree, -, hrest⟩ := BitmapAllocator.allocateNextFrame_some ha
    have hlt := hfree.lt
    exact ⟨f, _, rfl, hfree, by omega, rfl, hrest⟩

theorem vmmAllocFrame_taken {s s' : Machine} {a : ℕ} (h : vmmAllocFrame s = (some a, s')) :
    ∃ f, a = f * 4096 ∧ Taken s s' f := by
  rcases vmmAllocFrame_cases s with ⟨hnone, -⟩ | ⟨f, s₁, hsome, htaken⟩
  · exact absurd (congrArg Prod.fst (h.symm.trans hnone)) (by simp)
  · obtain ⟨hf, rfl⟩ := Prod.mk.inj (h.symm.trans hsome)
    exact ⟨f, Option.some.inj hf, htaken⟩

theorem vmmAllocFrame_lowest {s s' : Machine} {f g : ℕ}
    (h : vmmAllocFrame s = (some (f * 4096), s')) (hg : s.pmm.IsFree g) : f ≤ g := by
  obtain ⟨f', hf', hmul⟩ := Option.map_eq_some_iff.mp (congrArg Prod.fst h)
  obtain ⟨-, hlow, -⟩ := BitmapAllocator.allocateNextFrame_some hf'
  have hle := hlow g hg
  omega

theorem vmmAllocFrame_of_empty {s : Machine} (h : ∀ f, ¬ s.pmm.IsFree f) :
    vmmAllocFrame s = (none, s) := by
  rcases vmmAllocFrame_cases s with ⟨heq, -⟩ | ⟨f, _, -, htaken⟩
  · exact heq
  · exact absurd htaken.wasFree (h f)

/-- At most `n` frames left the pool and none came back. -/
structure Drawn (s s' : Machine) (n : ℕ) : Prop where
  shrinks : ∀ f, s'.pmm.IsFree f → s.pmm.IsFree f
  card : s.pmm.freeFrames.card ≤ s'.pmm.freeFrames.card + n

theorem Drawn.of_pmm_eq {s s' : Machine} (h : s'.pmm = s.pmm) (n : ℕ) : Drawn s s' n where
  shrinks f hf := h ▸ hf
  card := by simp [h]

theorem Drawn.trans {s s' s'' : Machine} {n n' : ℕ} (h : Drawn s s' n) (h' : Drawn s' s'' n') :
    Drawn s s'' (n + n') where
  shrinks f hf := h.shrinks f (h'.shrinks f hf)
  card := by
    have hfirst := h.card
    have hsecond := h'.card
    omega

/-- The pool does not depend on what memory holds. -/
theorem Drawn.of_mem {s s' : Machine} {n : ℕ} {m : Memory} (h : Drawn { s with mem := m } s' n) :
    Drawn s s' n := ⟨h.shrinks, h.card⟩

theorem Drawn.mono {s s' : Machine} {n n' : ℕ} (h : Drawn s s' n) (hn : n ≤ n') :
    Drawn s s' n' where
  shrinks := h.shrinks
  card := by
    have hcard := h.card
    omega

theorem Taken.drawn {s s' : Machine} {f : ℕ} (h : Taken s s' f) : Drawn s s' 1 where
  shrinks g hg := ((h.pmm g).mp hg).1
  card := (BitmapAllocator.card_freeFrames_of_take h.wasFree h.pmm).ge

theorem vmmAllocFrame_drawn (s : Machine) : Drawn s (vmmAllocFrame s).2 1 := by
  rcases vmmAllocFrame_cases s with ⟨halloc, -⟩ | ⟨f, s', halloc, htaken⟩
  · rw [halloc]
    exact .of_pmm_eq rfl 1
  · rw [halloc]
    exact htaken.drawn

/-- The frames of `l` went back into the pool, each of them once, and no other did. -/
structure Returned (s s' : Machine) (l : List ℕ) : Prop where
  pmm : ∀ f, s'.pmm.IsFree f ↔ s.pmm.IsFree f ∨ f ∈ l
  once : l.Nodup
  taken : ∀ f ∈ l, ¬ s.pmm.IsFree f

theorem Returned.of_pmm_eq {s s' : Machine} (h : s'.pmm = s.pmm) : Returned s s' [] where
  pmm f := by simp [h]
  once := List.nodup_nil
  taken f hf := absurd hf List.not_mem_nil

theorem Returned.trans {s s' s'' : Machine} {l l' : List ℕ} (h : Returned s s' l)
    (h' : Returned s' s'' l') : Returned s s'' (l ++ l') where
  pmm f := by rw [h'.pmm, h.pmm, List.mem_append, or_assoc]
  once := by
    refine List.nodup_append.mpr ⟨h.once, h'.once, ?_⟩
    rintro f hf g hg rfl
    exact h'.taken f hg ((h.pmm f).mpr (Or.inr hf))
  taken f hf := by
    rcases List.mem_append.mp hf with hf | hf
    · exact h.taken f hf
    · exact fun hfree => h'.taken f hf ((h.pmm f).mpr (Or.inl hfree))

end MitosOS.Memory
