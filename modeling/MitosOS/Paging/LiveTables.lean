import MitosOS.Memory.Boot
import MitosOS.Paging.Operations

/-! The page tables the MMU can reach from a root, and what booting does to the ones the
bootloader left active. -/
namespace MitosOS.Paging
open MitosOS.Lib MitosOS.Memory

/-- Frame `t` is a page table that the MMU reaches from `root`, `level` entries down. Top-level
entries always point at tables; at the two levels below, a block entry is a leaf instead. -/
inductive LiveTable (F : Format) (m : Memory) (root : ℕ) : ℕ → ℕ → Prop where
  | root : LiveTable F m root 0 root
  | child {level t : ℕ} (i : Fin 512) {c : ℕ} (ht : LiveTable F m root level t) (hl : level < 3)
    (hblock : level = 0 ∨ F.isBlock (entries m t i) = false) (hc : graph F m t i = some c) :
    LiveTable F m root (level + 1) c

theorem LiveTable.eq_root {F : Format} {m : Memory} {root level t : ℕ}
    (h : LiveTable F m root level t) (hempty : ∀ i, graph F m root i = none) :
    level = 0 ∧ t = root := by
  induction h with
  | root => exact ⟨rfl, rfl⟩
  | child i _ _ _ hc ih =>
    rw [ih.2, hempty] at hc
    exact absurd hc (by simp)

/-- The entries the MMU reads for an address, in order, up to the one that ends the walk: an empty
entry, a block, or the entry of the page. -/
def mmuWalk (F : Format) (m : Memory) (root virt : ℕ) : List Entry :=
  let e0 := getEntry m root (tableIndex 39 virt)
  if !F.isPresent e0 then [e0]
  else
    let e1 := getEntry m (F.physicalAddress e0) (tableIndex 30 virt)
    if !F.isPresent e1 || F.isBlock e1 then [e0, e1]
    else
      let e2 := getEntry m (F.physicalAddress e1) (tableIndex 21 virt)
      if !F.isPresent e2 || F.isBlock e2 then [e0, e1, e2]
      else [e0, e1, e2, getEntry m (F.physicalAddress e2) (tableIndex 12 virt)]

/-- A root that has a top-level entry in common with `K`, in a memory that agrees on the tables
of `K` below the top, translates the addresses of that entry as `K` does. -/
theorem translation_of_live {F : Format} (hF : F.Lawful) {m m' : Memory} {K R virt : ℕ}
    (hroot : entries m' R (tableIndex 39 virt) = entries m K (tableIndex 39 virt))
    (hlive : ∀ level t, LiveTable F m K (level + 1) t → ∀ i, entries m' t i = entries m t i) :
    translateAddr F m' (R * 4096) virt = translateAddr F m (K * 4096) virt ∧
      mmuWalk F m' (R * 4096) virt = mmuWalk F m (K * 4096) virt := by
  unfold translateAddr mmuWalk
  simp only [getEntry_frame, hroot]
  cases h0 : graph F m K (tableIndex 39 virt) with
  | none => simp [isPresent_of_graph_none h0]
  | some c0 =>
  have hc0 : LiveTable F m K 1 c0 := LiveTable.root.child _ (by decide) (Or.inl rfl) h0
  obtain ⟨hp0, ha0⟩ := isPresent_of_graph_some hF h0
  simp only [hp0, ha0, getEntry_frame, hlive 0 c0 hc0, Bool.not_true, Bool.false_eq_true, if_false]
  cases h1 : graph F m c0 (tableIndex 30 virt) with
  | none => simp [isPresent_of_graph_none h1]
  | some c1 =>
  obtain ⟨hp1, ha1⟩ := isPresent_of_graph_some hF h1
  cases hb1 : F.isBlock (entries m c0 (tableIndex 30 virt)) with
  | true => simp [hp1]
  | false =>
  have hc1 : LiveTable F m K 2 c1 := hc0.child _ (by decide) (Or.inr hb1) h1
  simp only [hp1, ha1, getEntry_frame, hlive 1 c1 hc1, Bool.not_true, Bool.or_false,
    Bool.false_eq_true, if_false]
  cases h2 : graph F m c1 (tableIndex 21 virt) with
  | none => simp [isPresent_of_graph_none h2]
  | some c2 =>
  obtain ⟨hp2, ha2⟩ := isPresent_of_graph_some hF h2
  cases hb2 : F.isBlock (entries m c1 (tableIndex 21 virt)) with
  | true => simp [hp2]
  | false =>
  have hc2 : LiveTable F m K 3 c2 := hc1.child _ (by decide) (Or.inr hb2) h2
  simp only [hp2, ha2, getEntry_frame, hlive 2 c2 hc2, Bool.not_true, Bool.or_false,
    Bool.false_eq_true, if_false, and_self]

/-- Where the Limine protocol places the active tables: in bootloader-reclaimable entries, above
the first 1 MiB. -/
def TablesReclaimable (memmap : Memmap) (m : Memory) (cr3 : ℕ) : Prop :=
  ∀ level f, LiveTable x86Format m (cr3 / 4096) level f → 256 ≤ f ∧
    ∃ entries e, memmap = some entries ∧ some e ∈ entries ∧
      e.typ = limineMemmapBootloaderReclaimable ∧ e.base.toNat ≤ f * 4096 ∧
      f * 4096 + 4096 ≤ e.base.toNat + e.length.toNat

/-- The active tables are never handed out exactly when each of them lies beyond the frames the
bitmap tracks or is skipped by the boot passes. -/
theorem liveTables_kept_iff (memmap : Memmap) (r : BootRanges) (m : Memory) (cr3 : ℕ) :
    (TablesReclaimable memmap m cr3 →
      ∀ n f, ((bootPmm memmap r).afterAllocations n).allocateNextFrame.1 = some f →
        ∀ level, ¬ LiveTable x86Format m (cr3 / 4096) level f) ↔
    (TablesReclaimable memmap m cr3 →
      ∀ level f, LiveTable x86Format m (cr3 / 4096) level f →
        65536 ≤ f ∨ ¬ Released memmap r f) := by
  refine imp_congr_right fun htables => ?_
  constructor
  · intro h level f hlive
    by_contra hcon
    rw [not_or, not_le, not_not] at hcon
    have hfree : (bootPmm memmap r).IsFree f :=
      (isFree_bootPmm memmap r f).mpr ⟨(htables level f hlive).1, hcon⟩
    obtain ⟨n, hn⟩ := (BitmapAllocator.exists_allocation_iff _ f).mpr hfree
    exact h n f hn level hlive
  · intro h n f hn level hlive
    have hfree := (BitmapAllocator.exists_allocation_iff _ f).mp ⟨n, hn⟩
    obtain ⟨-, hlt, hrel⟩ := (isFree_bootPmm memmap r f).mp hfree
    rcases h level f hlive with hge | hnot
    · omega
    · exact hnot hrel

/-- A map with one bootloader-reclaimable entry of a single frame, where the PML4 is. -/
def memmapOverTables : Memmap :=
  some [some ⟨0x500000#64, 0x1000#64, limineMemmapBootloaderReclaimable⟩]

theorem liveTables_handed_out :
    TablesReclaimable memmapOverTables (fun _ => 0) 0x500000 ∧
      ∃ n, ((bootPmm memmapOverTables kmainRanges).afterAllocations n).allocateNextFrame.1 =
          some 0x500 ∧
        LiveTable x86Format (fun _ => 0) (0x500000 / 4096) 0 0x500 := by
  have hentry : ∀ t i, graph x86Format (fun _ => 0) t i = none := by
    intro t i
    rw [graph, entries_zero]
    decide
  have hfree : (bootPmm memmapOverTables kmainRanges).IsFree 0x500 := by
    rw [isFree_bootPmm]
    refine ⟨by decide, by decide, Or.inl ⟨_, rfl, _, List.mem_singleton_self _, ?_⟩⟩
    decide
  obtain ⟨n, hn⟩ := (BitmapAllocator.exists_allocation_iff _ 0x500).mpr hfree
  refine ⟨fun level f hlive => ?_, n, hn, .root⟩
  obtain ⟨-, rfl⟩ := hlive.eq_root (hentry _)
  exact ⟨by decide, _, _, rfl, List.mem_singleton_self _, by decide⟩

end MitosOS.Paging
