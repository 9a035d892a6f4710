import MitosOS.Lib.PathGraph
import MitosOS.Memory.Frames
import MitosOS.Paging.Entry

/-! Page tables in physical memory: a table is a frame of 512 entries, and the present
entries make the frames into a pointer graph. -/
namespace MitosOS.Paging
open MitosOS.Lib MitosOS.Memory

instance entryCount_neZero : NeZero 512 := ⟨by decide⟩

def getEntry (m : Memory) (table : ℕ) (i : Fin 512) : Entry := m.load64 (table + 8 * i)

def setEntry (m : Memory) (table : ℕ) (i : Fin 512) (e : Entry) : Memory :=
  m.store64 (table + 8 * i) e

def zeroFrame (m : Memory) (frame : ℕ) : Memory := m.fill frame 4096 0

/-- The 9-bit table index that starts at bit `shift` of an address. -/
def tableIndex (shift virt : ℕ) : Fin 512 :=
  ⟨(virt >>> shift) &&& 0x1FF, Nat.and_lt_two_pow _ (by decide : 0x1FF < 2 ^ 9)⟩

def entries (m : Memory) (n : ℕ) (i : Fin 512) : Entry := getEntry m (n * 4096) i

theorem tableIndex_val (shift virt : ℕ) : (tableIndex shift virt : ℕ) = virt / 2 ^ shift % 512 := by
  change (virt >>> shift) &&& 2 ^ 9 - 1 = virt / 2 ^ shift % 2 ^ 9
  rw [land_low, Nat.shiftRight_eq_div_pow]

theorem land_0xFFF (a : ℕ) : a &&& 0xFFF = a % 4096 := land_low a 12

theorem land_0x1FFFFF (a : ℕ) : a &&& 0x1FFFFF = a % 0x200000 := land_low a 21

theorem land_0x3FFFFFFF (a : ℕ) : a &&& 0x3FFFFFFF = a % 0x40000000 := land_low a 30

theorem entries_congr {m m' : Memory} {n : ℕ} (h : ∀ x, x / 4096 = n → m' x = m x) (i : Fin 512) :
    entries m' n i = entries m n i :=
  Memory.load64_congr fun x hx hx' => h x (by omega)

@[simp] theorem entries_zero (n : ℕ) (i : Fin 512) : entries (fun _ => 0) n i = 0#64 := by
  simp [entries, getEntry, Memory.load64]

theorem entries_setEntry (m : Memory) (n : ℕ) (i : Fin 512) (e : Entry) (n' : ℕ) (i' : Fin 512) :
    entries (setEntry m (n * 4096) i e) n' i' =
      if n' = n ∧ i' = i then e else entries m n' i' := by
  unfold entries getEntry setEntry
  split_ifs with h
  · obtain ⟨rfl, rfl⟩ := h
    exact Memory.load64_store64_same _ _ _
  · refine Memory.load64_store64_of_disjoint m e ?_
    have hi := i.isLt
    have hi' := i'.isLt
    rcases Nat.lt_trichotomy n' n with hn | hn | hn
    · omega
    · have hne : (i' : ℕ) ≠ i := fun hc => h ⟨hn, Fin.ext hc⟩
      omega
    · omega

theorem entries_zeroFrame (m : Memory) (f n : ℕ) (i : Fin 512) :
    entries (zeroFrame m (f * 4096)) n i = if n = f then 0#64 else entries m n i := by
  have hi := i.isLt
  unfold entries getEntry zeroFrame
  split_ifs with h
  · subst h
    exact Memory.load64_fill_zero m (by omega)
  · refine Memory.load64_fill_of_disjoint m 0 ?_
    omega

theorem setEntry_apply (m : Memory) {n x : ℕ} (i : Fin 512) (e : Entry) (h : x / 4096 ≠ n) :
    setEntry m (n * 4096) i e x = m x :=
  Memory.store64_apply_of_disjoint m e (by omega)

theorem zeroFrame_apply (m : Memory) {f x : ℕ} (h : x / 4096 ≠ f) :
    zeroFrame m (f * 4096) x = m x :=
  Memory.fill_apply_of_disjoint m 0 (by omega)

theorem blit_changes_page {m : Memory} {d off x : ℕ} {bytes : List (BitVec 8)}
    (hroom : bytes.length ≤ 4096 - off) (hx : m.blit (d * 4096 + off) bytes x ≠ m x) :
    x / 4096 = d := by
  by_contra hne
  apply hx
  apply Memory.blit_apply_of_disjoint
  omega

def Format.child (F : Format) (e : Entry) : Option ℕ :=
  if F.isPresent e then some (F.physicalAddress e / 4096) else none

def graph (F : Format) (m : Memory) : PathGraph ℕ (Fin 512) := fun n i => F.child (entries m n i)

theorem getEntry_frame (m : Memory) (n : ℕ) (i : Fin 512) :
    getEntry m (n * 4096) i = entries m n i := rfl

theorem isPresent_of_graph_none {F : Format} {m : Memory} {n : ℕ} {i : Fin 512}
    (h : graph F m n i = none) : F.isPresent (entries m n i) = false := by
  unfold graph Format.child at h
  split_ifs at h with hp
  exact Bool.eq_false_iff.mpr hp

theorem graph_of_isPresent {F : Format} {m : Memory} {n : ℕ} {i : Fin 512}
    (h : F.isPresent (entries m n i) = true) :
    graph F m n i = some (F.physicalAddress (entries m n i) / 4096) := by
  rw [graph, Format.child, if_pos h]

theorem isPresent_of_graph_some {F : Format} (hF : F.Lawful) {m : Memory} {n c : ℕ} {i : Fin 512}
    (h : graph F m n i = some c) :
    F.isPresent (entries m n i) = true ∧ F.physicalAddress (entries m n i) = c * 4096 := by
  have hmod := hF.physicalAddress_mod (entries m n i)
  unfold graph Format.child at h
  split_ifs at h with hp
  have hc := Option.some.inj h
  exact ⟨hp, by omega⟩

theorem graph_setEntry (F : Format) (m : Memory) (n : ℕ) (i : Fin 512) (e : Entry) :
    graph F (setEntry m (n * 4096) i e) = (graph F m).set n i (F.child e) := by
  funext n' i'
  unfold graph PathGraph.set
  rw [entries_setEntry]
  split_ifs <;> rfl

theorem graph_zeroFrame {F : Format} (hF : F.Lawful) (m : Memory) (f : ℕ) :
    graph F (zeroFrame m (f * 4096)) = (graph F m).clear f := by
  funext n i
  unfold graph PathGraph.clear
  rw [entries_zeroFrame]
  split_ifs with h
  · simp [Format.child, hF.isPresent_zero]
  · rfl

theorem graph_congr {F : Format} {m m' : Memory} {n : ℕ}
    (h : ∀ x, x / 4096 = n → m' x = m x) (i : Fin 512) : graph F m' n i = graph F m n i :=
  congrArg F.child (entries_congr h i)

theorem walk_congr_mem {F : Format} {m m' : Memory} {n : ℕ} {D : Set (List (Fin 512))}
    (hD : PathGraph.PrefixClosed D)
    (h : ∀ x, x / 4096 ∈ (graph F m).nodes n D → m' x = m x) {p : List (Fin 512)} (hp : p ∈ D) :
    (graph F m').walk n p = (graph F m).walk n p := by
  refine PathGraph.walk_congr_on hD (fun q i hq t ht => ?_) hp
  apply graph_congr
  rintro x rfl
  exact h x ⟨q, hD q i hq, ht⟩

/-- Follow present entries from a table, as the unmapping and checking walks do. -/
def walkTables (F : Format) (m : Memory) : ℕ → List (Fin 512) → Option ℕ
  | table, [] => some table
  | table, i :: p =>
    let e := getEntry m table i
    if F.isPresent e then walkTables F m (F.physicalAddress e) p else none

theorem walkTables_eq {F : Format} (hF : F.Lawful) (m : Memory) (n : ℕ) (p : List (Fin 512)) :
    walkTables F m (n * 4096) p = ((graph F m).walk n p).map (· * 4096) := by
  induction p generalizing n with
  | nil => rfl
  | cons i p ih =>
    rw [walkTables, PathGraph.walk_cons, getEntry_frame]
    cases hc : graph F m n i with
    | none =>
      rw [isPresent_of_graph_none hc, if_neg Bool.false_ne_true, Option.bind_none, Option.map_none]
    | some c =>
      obtain ⟨hp, ha⟩ := isPresent_of_graph_some hF hc
      rw [hp, if_pos rfl, ha, ih, Option.bind_some]

end MitosOS.Paging
