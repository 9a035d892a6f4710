import MitosOS.Paging.KernelMap
import MitosOS.Paging.PageFault

/-! Faults that `handle_page_fault` does not resolve. The tables that `map_page` adds before it
fails stay attached to the root; the frame meant for the page is the one that is lost. -/
namespace MitosOS.Paging
open MitosOS.Lib MitosOS.Memory

/-- The frames that left the pool without becoming tables of the root. -/
def lostFrames (F : Format) (root : ℕ) (s s' : Machine) : Set ℕ :=
  {f | s.pmm.IsFree f ∧ ¬ s'.pmm.IsFree f ∧ f ∉ tableFrames F s'.mem root}

def demandFrame (isPresent : Bool) (s : Machine) : Option ℕ :=
  if isPresent then none else (vmmAllocFrame s).1

/-- The frames that left the pool are the tables that the root gained. -/
structure Attached (F : Format) (root : ℕ) (s s' : Machine) : Prop where
  tables : ∀ f, f ∈ tableFrames F s'.mem root ↔
    f ∈ tableFrames F s.mem root ∨ s.pmm.IsFree f ∧ ¬ s'.pmm.IsFree f
  shrinks : ∀ f, s'.pmm.IsFree f → s.pmm.IsFree f

section Descent
variable {F : Format} {root n f : ℕ} {s s₁ s' : Machine} {q : List (Fin 512)} {i : Fin 512}

theorem Attached.refl (F : Format) (root : ℕ) (s : Machine) : Attached F root s s where
  tables _ := (or_iff_left fun hf => hf.2 hf.1).symm
  shrinks _ hf := hf

theorem Attached.trans (h : Attached F root s s₁) (h' : Attached F root s₁ s') :
    Attached F root s s' where
  tables f := by
    rw [h'.tables, h.tables]
    constructor
    · rintro ((hold | ⟨hfree, hnot⟩) | ⟨hfree, hnot⟩)
      · exact Or.inl hold
      · exact Or.inr ⟨hfree, fun hcon => hnot (h'.shrinks f hcon)⟩
      · exact Or.inr ⟨h.shrinks f hfree, hnot⟩
    · rintro (hold | ⟨hfree, hnot⟩)
      · exact Or.inl (Or.inl hold)
      · by_cases hmid : s₁.pmm.IsFree f
        · exact Or.inr ⟨hmid, hnot⟩
        · exact Or.inl (Or.inr ⟨hfree, hmid⟩)
  shrinks f hf := h.shrinks f (h'.shrinks f hf)

theorem Attached.reserved (h : Attached F root s s')
    (hres : ∀ t ∈ tableFrames F s.mem root, ¬ s.pmm.IsFree t) :
    ∀ t ∈ tableFrames F s'.mem root, ¬ s'.pmm.IsFree t := by
  intro t ht hfree
  rcases (h.tables t).mp ht with hold | ⟨-, hnot⟩
  · exact hres t hold (h.shrinks t hfree)
  · exact hnot hfree

theorem Revisited.attached (hr : Revisited F s s' n i) : Attached F root s s' where
  tables f := by
    rw [tableFrames, hr.graph_eq, hr.pmm, tableFrames]
    exact (or_iff_left fun hf => hf.2 hf.1).symm
  shrinks f hf := hr.pmm ▸ hf

theorem Grown.attached (hF : F.Lawful) (hg : Grown F s s' n i f)
    (hres : ∀ t ∈ tableFrames F s.mem root, ¬ s.pmm.IsFree t) (hq : q ++ [i] ∈ tablePaths)
    (hw : (graph F s.mem).walk root q = some n) (hempty : graph F s.mem n i = none) :
    (graph F s'.mem).walk root (q ++ [i]) = some f ∧ Attached F root s s' := by
  have hfresh : f ∉ tableFrames F s.mem root := fun hf => hres f hf hg.wasFree
  obtain ⟨hnew, hnodes⟩ := PathGraph.nodes_grow tablePaths_prefixClosed hfresh hq hw hempty
  rw [← hg.graph_eq hF] at hnew hnodes
  refine ⟨hnew, fun g => ?_, fun g hgfree => ((hg.pmm g).mp hgfree).1⟩
  rw [tableFrames, hnodes, hg.pmm, Set.mem_insert_iff, or_comm]
  refine or_congr_right ⟨?_, ?_⟩
  · rintro rfl
    exact ⟨hg.wasFree, fun hcon => hcon.2 rfl⟩
  · rintro ⟨hfree, hnot⟩
    by_contra hne
    exact hnot ⟨hfree, hne⟩

/-- However far a descent gets, the frames it takes are tables of the root. -/
theorem nextTables_attached (hF : F.Lawful) (u : Bool) (p : List (Fin 512)) :
    ∀ {s : Machine} {q : List (Fin 512)} {n : ℕ},
    (∀ t ∈ tableFrames F s.mem root, ¬ s.pmm.IsFree t) → q ++ p ∈ tablePaths →
    (graph F s.mem).walk root q = some n →
    Attached F root s (nextTables F u s (n * 4096) p).2 := by
  induction p with
  | nil => exact fun _ _ _ => .refl F root _
  | cons i p ih =>
    intro s q n hres hqp hw
    rw [List.append_cons] at hqp
    have hq : q ++ [i] ∈ tablePaths :=
      tablePaths_prefixClosed.mem_of_isPrefix hqp (List.prefix_append _ _)
    rw [nextTables]
    rcases nextTable_cases hF u s n i with
      ⟨c, s₁, hnext, hc, hr⟩ | ⟨hnext, -, -⟩ | ⟨f, s₁, hnext, hc, hg⟩
    · have h₁ : Attached F root s s₁ := hr.attached
      have hw₁ : (graph F s₁.mem).walk root (q ++ [i]) = some c := by
        rw [hr.graph_eq, PathGraph.walk_concat_of_eq hw, hc]
      rw [hnext]
      exact h₁.trans (ih (h₁.reserved hres) hqp hw₁)
    · rw [hnext]
      exact .refl F root s
    · obtain ⟨hw₁, h₁⟩ := hg.attached hF hres hq hw hc
      rw [hnext]
      exact h₁.trans (ih (h₁.reserved hres) hqp hw₁)

theorem mapPage_error_attached (hF : F.Lawful)
    (hres : ∀ t ∈ tableFrames F s.mem root, ¬ s.pmm.IsFree t) {virt phys : ℕ} {flags : MapFlags}
    {e : MemoryError} (hmap : mapPage F s (root * 4096) virt phys flags = (.error e, s')) :
    Attached F root s s' := by
  have htables := nextTables_attached hF flags.userAccessible (tablePath virt) (q := []) hres
    (le_refl 3) rfl
  unfold mapPage at hmap
  split_ifs at hmap with halign
  · rw [← (Prod.mk.inj hmap).2]
    exact .refl F root s
  · cases hrun : nextTables F flags.userAccessible s (root * 4096) (tablePath virt) with
    | mk r s₁ =>
      rw [hrun] at hmap htables
      cases r with
      | error e' =>
        rw [← (Prod.mk.inj hmap).2]
        exact htables
      | ok pt =>
        dsimp only at hmap
        split_ifs at hmap with hp
        · rw [← (Prod.mk.inj hmap).2]
          exact htables
        · exact absurd (congrArg Prod.fst hmap) (by simp)

theorem mapPage_of_empty (hF : F.Lawful) (hempty : ∀ f, ¬ s.pmm.IsFree f) {virt : ℕ} (phys : ℕ)
    (htable : graph F s.mem root (tableIndex 39 virt) = none) (hvirt : virt % 4096 = 0)
    (hphys : phys % 4096 = 0) (flags : MapFlags) :
    mapPage F s (root * 4096) virt phys flags = (.error .frameAllocationFailed, s) := by
  have halign : ¬ (virt &&& 0xFFF ≠ 0 ∨ phys &&& 0xFFF ≠ 0) := by
    rw [land_0xFFF, land_0xFFF]
    omega
  rw [mapPage, if_neg halign, tablePath, nextTables]
  rcases nextTable_cases hF flags.userAccessible s root (tableIndex 39 virt) with
    ⟨c, s₁, -, hc, -⟩ | ⟨hnext, -, -⟩ | ⟨f, s₁, -, -, hg⟩
  · rw [htable] at hc
    exact absurd hc (by simp)
  · rw [hnext]
  · exact absurd hg.wasFree (hempty f)

end Descent

section Faults
variable {arch : Arch} {regs : RootRegisters} {faultAddr : ℕ} {isPresent isUser : Bool} {s : Machine}

theorem handlePageFault_false
    (h : (handlePageFault arch regs faultAddr isPresent isUser s).1 = some false) :
    (isPresent = true ∨ ∀ f, ¬ s.pmm.IsFree f) ∧
      (handlePageFault arch regs faultAddr isPresent isUser s).2 = s ∧
      demandFrame isPresent s = none ∨
    isPresent = false ∧ ∃ d s₁ e, vmmAllocFrame s = (some (d * 4096), s₁) ∧ Taken s s₁ d ∧
      mapPage arch.format { s₁ with mem := zeroFrame s₁.mem (d * 4096) }
        (faultRoot arch regs faultAddr) (alignDown faultAddr 0x1000) (d * 4096)
        (demandFlags isUser) =
      (.error e, (handlePageFault arch regs faultAddr isPresent isUser s).2) := by
  unfold handlePageFault demandFrame at *
  cases isPresent with
  | true => exact Or.inl ⟨Or.inl rfl, rfl, rfl⟩
  | false =>
    rw [if_neg Bool.false_ne_true] at h
    rw [if_neg Bool.false_ne_true, if_neg Bool.false_ne_true]
    rcases vmmAllocFrame_cases s with ⟨halloc, hempty⟩ | ⟨d, s₁, halloc, htaken⟩
    · rw [halloc] at h ⊢
      exact Or.inl ⟨Or.inr hempty, rfl, rfl⟩
    · rw [halloc] at h ⊢
      dsimp only at h ⊢
      right
      refine ⟨rfl, d, s₁, ?_⟩
      split_ifs at h ⊢ with hzero
      cases hmap : mapPage arch.format { s₁ with mem := zeroFrame s₁.mem (d * 4096) }
          (faultRoot arch regs faultAddr) (alignDown faultAddr 0x1000) (d * 4096)
          (demandFlags isUser) with
      | mk r s₂ =>
        rw [hmap] at h
        cases r with
        | ok u => exact absurd h (by simp)
        | error e => exact ⟨e, rfl, htaken, rfl⟩

theorem tableFrames_zeroFrame {F : Format} (hF : F.Lawful) {m : Memory} {R d : ℕ}
    (hd : d ∉ tableFrames F m R) :
    tableFrames F (zeroFrame m (d * 4096)) R = tableFrames F m R := by
  rw [tableFrames, graph_zeroFrame hF]
  exact PathGraph.nodes_congr fun p hp =>
    PathGraph.walk_clear_of_not_mem tablePaths_prefixClosed hd hp

/-- On sound tables an unresolved fault loses the frame it obtained for the page, and no other. -/
theorem handlePageFault_lostFrames
    (h : (handlePageFault arch regs faultAddr isPresent isUser s).1 = some false)
    {R : ℕ} (hR : faultRoot arch regs faultAddr = R * 4096)
    (hres : ∀ t ∈ tableFrames arch.format s.mem R, ¬ s.pmm.IsFree t) :
    lostFrames arch.format R s (handlePageFault arch regs faultAddr isPresent isUser s).2 =
      {f | demandFrame isPresent s = some (f * 4096)} := by
  have hF := arch.format_lawful
  ext f
  rcases handlePageFault_false h with ⟨-, hsame, hnone⟩ | ⟨rfl, d, s₁, e, halloc, htaken, hmap⟩
  · rw [hsame, Set.mem_ofPred_eq, hnone]
    constructor
    · exact fun hf => absurd hf.1 hf.2.1
    · exact fun hf => absurd hf (by simp)
  · have hdemand : demandFrame false s = some (d * 4096) := by
      rw [demandFrame, if_neg Bool.false_ne_true, halloc]
    rw [hR] at hmap
    have hfresh : d ∉ tableFrames arch.format s.mem R := fun hd => hres d hd htaken.wasFree
    have hzero : tableFrames arch.format (zeroFrame s₁.mem (d * 4096)) R =
        tableFrames arch.format s.mem R := by
      rw [htaken.mem, tableFrames_zeroFrame hF hfresh]
    have hres' : ∀ t ∈ tableFrames arch.format (zeroFrame s₁.mem (d * 4096)) R,
        ¬ s₁.pmm.IsFree t := by
      intro t ht hfree
      rw [hzero] at ht
      exact hres t ht ((htaken.pmm t).mp hfree).1
    have hatt := mapPage_error_attached (s := { s₁ with mem := zeroFrame s₁.mem (d * 4096) }) hF hres'
      hmap
    have htables := hatt.tables
    dsimp only at htables
    rw [hzero] at htables
    rw [Set.mem_ofPred_eq, hdemand]
    constructor
    · rintro ⟨hfree, hnot, hlost⟩
      by_contra hne
      have hfd : f ≠ d := by
        rintro rfl
        exact hne rfl
      exact hlost ((htables f).mpr (Or.inr ⟨(htaken.pmm f).mpr ⟨hfree, hfd⟩, hnot⟩))
    · intro hf
      obtain rfl : d = f := by
        have := Option.some.inj hf
        omega
      have htaken' : ¬ s₁.pmm.IsFree d := fun hcon => ((htaken.pmm d).mp hcon).2 rfl
      refine ⟨htaken.wasFree, fun hcon => htaken' (hatt.shrinks d hcon), fun hcon => ?_⟩
      rcases (htables d).mp hcon with hold | ⟨hfree, -⟩
      · exact hfresh hold
      · exact htaken' hfree

/-- An unresolved fault leaves every frame free or attached, and gives back the one it obtained for
the page, exactly when it obtained none: the entry was reported present, or the pool was empty.
Otherwise, on sound tables, just that frame is lost. -/
theorem unresolvedFault_clean_iff (arch : Arch) (regs : RootRegisters) (faultAddr : ℕ)
    (isPresent isUser : Bool) (s : Machine) :
    (((handlePageFault arch regs faultAddr isPresent isUser s).1 = some false →
        lostFrames arch.format (faultRoot arch regs faultAddr / 4096) s
            (handlePageFault arch regs faultAddr isPresent isUser s).2 = ∅ ∧
          ∀ f, demandFrame isPresent s = some (f * 4096) →
            (handlePageFault arch regs faultAddr isPresent isUser s).2.pmm.IsFree f) ↔
      ((handlePageFault arch regs faultAddr isPresent isUser s).1 = some false →
        isPresent = true ∨ ∀ f, ¬ s.pmm.IsFree f)) ∧
    ((handlePageFault arch regs faultAddr isPresent isUser s).1 = some false →
      (∀ t ∈ tableFrames arch.format s.mem (faultRoot arch regs faultAddr / 4096),
        ¬ s.pmm.IsFree t) →
      lostFrames arch.format (faultRoot arch regs faultAddr / 4096) s
          (handlePageFault arch regs faultAddr isPresent isUser s).2 =
        {f | demandFrame isPresent s = some (f * 4096)}) := by
  refine ⟨imp_congr_right fun h => ?_, fun h hres =>
    handlePageFault_lostFrames h (faultRoot_aligned arch regs faultAddr) hres⟩
  rcases handlePageFault_false h with ⟨hnone, hsame, hdemand⟩ | ⟨rfl, d, s₁, e, halloc, htaken, hmap⟩
  · rw [hsame, hdemand]
    refine ⟨fun _ => hnone, fun _ => ⟨?_, fun f hf => absurd hf (by simp)⟩⟩
    exact Set.eq_empty_of_forall_notMem fun f hf => hf.2.1 hf.1
  · constructor
    · rintro ⟨-, hback⟩
      have hfree := hback d (by rw [demandFrame, if_neg Bool.false_ne_true, halloc])
      have hdrawn := mapPage_drawn arch.format { s₁ with mem := zeroFrame s₁.mem (d * 4096) }
        (faultRoot arch regs faultAddr) (alignDown faultAddr 0x1000) (d * 4096) (demandFlags isUser)
      rw [hmap] at hdrawn
      exact absurd rfl ((htaken.pmm d).mp (hdrawn.shrinks d hfree)).2
    · rintro (hcon | hempty)
      · exact absurd hcon (by decide)
      · exact absurd htaken.wasFree (hempty d)

end Faults

section LastFrame

def lastFrame : Machine := ⟨fun _ => 0, BitmapAllocator.new.freeFrame 0x100⟩

def lastFault : Option Bool × Machine :=
  handlePageFault .x86_64 ⟨0x1000, 0, 0⟩ 0x8000000000 false true lastFrame

theorem isFree_lastFrame (f : ℕ) : lastFrame.pmm.IsFree f ↔ f = 0x100 := by
  rw [lastFrame, BitmapAllocator.isFree_freeFrame]
  constructor
  · rintro (hnew | ⟨rfl, -, -⟩)
    · exact absurd hnew (BitmapAllocator.not_isFree_new f)
    · rfl
  · rintro rfl
    exact Or.inr ⟨rfl, by decide, by decide⟩

theorem lastFrame_taken :
    ∃ s₁, vmmAllocFrame lastFrame = (some (0x100 * 4096), s₁) ∧ s₁.mem = lastFrame.mem ∧
      ∀ f, ¬ s₁.pmm.IsFree f := by
  rcases vmmAllocFrame_cases lastFrame with ⟨-, hempty⟩ | ⟨f, s₁, halloc, htaken⟩
  · exact absurd ((isFree_lastFrame _).mpr rfl) (hempty 0x100)
  · obtain rfl := (isFree_lastFrame f).mp htaken.wasFree
    refine ⟨s₁, halloc, htaken.mem, fun g hg => ?_⟩
    obtain ⟨hfree, hne⟩ := (htaken.pmm g).mp hg
    exact hne ((isFree_lastFrame g).mp hfree)

theorem graph_lastFrame (n : ℕ) (i : Fin 512) : graph x86Format lastFrame.mem n i = none := by
  rw [graph, lastFrame, entries_zero]
  decide

theorem lastFault_false : lastFault.1 = some false := by
  obtain ⟨s₁, halloc, hmem, hempty⟩ := lastFrame_taken
  have htable : graph x86Format (zeroFrame s₁.mem (0x100 * 4096)) 1 (tableIndex 39 0x8000000000) =
      none := by
    rw [graph_zeroFrame x86Format_lawful, PathGraph.clear, if_neg (by decide), hmem, graph_lastFrame]
  have hmap := mapPage_of_empty x86Format_lawful
    (s := { s₁ with mem := zeroFrame s₁.mem (0x100 * 4096) }) hempty (0x100 * 4096) htable
    (by decide) (by decide) (demandFlags true)
  have hroot : faultRoot .x86_64 ⟨0x1000, 0, 0⟩ 0x8000000000 = 1 * 4096 := by decide
  unfold lastFault handlePageFault
  rw [if_neg Bool.false_ne_true, halloc]
  dsimp only
  rw [if_neg (by decide), hroot, show alignDown 0x8000000000 0x1000 = 0x8000000000 by decide]
  rw [show Arch.x86_64.format = x86Format from rfl, hmap]

/-- With one frame left the handler takes it, finds none for the first table and fails: the frame is
in no table and never allocated again. -/
theorem unresolvedFault_loses_lastFrame :
    lastFrame.pmm.IsFree 0x100 ∧ lastFault.1 = some false ∧
      0x100 ∈ lostFrames x86Format 1 lastFrame lastFault.2 := by
  have hroot : faultRoot .x86_64 ⟨0x1000, 0, 0⟩ 0x8000000000 = 1 * 4096 := by decide
  have hres : ∀ t ∈ tableFrames x86Format lastFrame.mem 1, ¬ lastFrame.pmm.IsFree t := by
    rintro t ⟨p, -, hp⟩
    have hloop : ∀ i c, graph x86Format lastFrame.mem 1 i = some c → c = 1 := by
      intro i c hc
      rw [graph_lastFrame] at hc
      exact absurd hc (by simp)
    rw [(PathGraph.stays_of_loop hloop p).2.2 t hp, isFree_lastFrame]
    decide
  have hlost : lostFrames x86Format 1 lastFrame lastFault.2 =
      {f | demandFrame false lastFrame = some (f * 4096)} :=
    handlePageFault_lostFrames lastFault_false hroot hres
  obtain ⟨s₁, halloc, -, -⟩ := lastFrame_taken
  refine ⟨(isFree_lastFrame _).mpr rfl, lastFault_false, ?_⟩
  rw [hlost, Set.mem_ofPred_eq, demandFrame, if_neg Bool.false_ne_true, halloc]

end LastFrame

end MitosOS.Paging
