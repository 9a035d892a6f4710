import MitosOS.Elf.Loader
import MitosOS.Lib.Reads
import MitosOS.Paging.Descent
import MitosOS.Paging.Teardown

/-! What loading a file can do to the tables a process shares with the kernel. -/
namespace MitosOS.Elf
open MitosOS.Lib MitosOS.Memory MitosOS.Paging

section Loading
variable {F : Format} {shared : Set (Fin 512)} {R : ℕ} {s₀ s : Machine}

theorem copyPages_confined (hF : F.Lawful) (seg : Segment) (n : ℕ) :
    ∀ (currentVaddr dataOffset : ℕ) {s : Machine}, Confined F shared R s₀ s →
    (∀ k < n, ∀ s', seg.ReachesPage F (R * 4096) k currentVaddr dataOffset s s' →
      tableIndex 39 (currentVaddr + 4096 * k) ∉ shared) →
    Confined F shared R s₀ (copyPages F (R * 4096) seg n currentVaddr dataOffset s).2 ∧
      ((copyPages F (R * 4096) seg n currentVaddr dataOffset s).1 = .ok () →
        pool F shared R (copyPages F (R * 4096) seg n currentVaddr dataOffset s).2 =
          pool F shared R s) := by
  induction n with
  | zero =>
    intro _ _ s h _
    exact ⟨h, fun _ => rfl⟩
  | succ n ih =>
    intro currentVaddr dataOffset s h hpages
    rcases copyPages_succ_cases F (R * 4096) seg currentVaddr dataOffset s with
      ⟨-, hrun⟩ | ⟨d, s₁, halloc, htaken, hcases⟩
    · rw [hrun]
      exact ⟨h, fun hok => Outcome.noConfusion rfl (heq_of_eq hok)⟩
    have hv : tableIndex 39 currentVaddr ∉ shared :=
      hpages 0 (Nat.succ_pos n) _ ((reachesPage_zero halloc).mpr rfl)
    obtain ⟨r, s₃, hmap', h₃, hres⟩ := h.mapZeroed hF htaken hv seg.mapFlags
    rcases hcases with ⟨e, s₂, hmap, hrun⟩ | ⟨s₂, hmap, hrun⟩
    · obtain ⟨-, rfl⟩ := Prod.mk.inj (hmap'.symm.trans hmap)
      rw [hrun]
      exact ⟨h₃, fun hok => Outcome.noConfusion rfl (heq_of_eq hok)⟩
    · obtain ⟨rfl, rfl⟩ := Prod.mk.inj (hmap'.symm.trans hmap)
      obtain ⟨hpool, hwalk⟩ := hres rfl
      have hroom : ((seg.data.drop dataOffset).take
          (seg.bytesToCopy currentVaddr dataOffset)).length ≤ 4096 - seg.pageOffset currentVaddr :=
        (List.length_take_le _ _).trans (Nat.min_le_right _ _)
      obtain ⟨h₄, howned⟩ := h₃.writeData fun x hx =>
        ⟨_, tablePath_mem hv (tableIndex 12 currentVaddr), rfl,
          hwalk.trans (congrArg some (blit_changes_page hroom hx).symm)⟩
      have hrest := ih (currentVaddr + 4096) (dataOffset + seg.bytesToCopy currentVaddr dataOffset) h₄
        fun k hk s' hreach => by
          rw [Nat.add_assoc, Nat.add_comm 4096, ← Nat.mul_succ]
          exact hpages (k + 1) (Nat.succ_lt_succ hk) s' ((reachesPage_succ hrun).mpr hreach)
      rw [hrun]
      refine ⟨hrest.1, fun hok => (hrest.2 hok).trans (Eq.trans ?_ hpool)⟩
      rw [pool, howned, pool]

theorem loadSegments_confined (hF : F.Lawful) (elf : Bytes) (hd : Header) (indices : List ℕ) :
    ∀ {s : Machine}, Confined F shared R s₀ s →
    (∀ i s₁ page s', ReachesHeader F (R * 4096) elf hd indices s i s₁ →
      HeaderReaches F (R * 4096) elf hd i s₁ page s' → tableIndex 39 page ∉ shared) →
    Confined F shared R s₀ (loadSegments F (R * 4096) elf hd indices s).2 ∧
      ((loadSegments F (R * 4096) elf hd indices s).1 = .ok () →
        pool F shared R (loadSegments F (R * 4096) elf hd indices s).2 = pool F shared R s) := by
  induction indices with
  | nil =>
    intro s h _
    exact ⟨h, fun _ => rfl⟩
  | cons i rest ih =>
    intro s h hpages
    have hnext : ∀ {s₁}, loadSegments F (R * 4096) elf hd [i] s = (.ok (), s₁) →
        ∀ j s₂ page s', ReachesHeader F (R * 4096) elf hd rest s₁ j s₂ →
          HeaderReaches F (R * 4096) elf hd j s₂ page s' → tableIndex 39 page ∉ shared :=
      fun hone j s₂ page s' hreach =>
        hpages j s₂ page s' (reachesHeader_cons.mpr (Or.inr ⟨_, hone, hreach⟩))
    rcases loadSegments_cons_cases F (R * 4096) elf s hd i with
      ⟨-, r, hr, heq⟩ | ⟨hseg, heq⟩ | ⟨seg, r, s₁, hseg, hrun, hcont⟩
    · rw [heq]
      exact ⟨h, fun hok => absurd hok hr⟩
    · rw [heq]
      exact ih h (hnext (heq []))
    obtain ⟨h₁, hpool₁⟩ := copyPages_confined hF seg seg.pageCount seg.startVaddr 0 h
      fun k hk s' hreach => hpages i s _ s' (reachesHeader_cons.mpr (Or.inl ⟨rfl, rfl⟩))
        ⟨seg, hseg, k, hk, rfl, hreach⟩
    rw [show copyPages F (R * 4096) seg seg.pageCount seg.startVaddr 0 s = _ from hrun] at h₁ hpool₁
    rcases hcont with ⟨rfl, heq⟩ | ⟨hr, heq⟩
    · obtain ⟨h', hpool'⟩ := ih h₁ (hnext (heq []))
      rw [heq]
      exact ⟨h', fun hok => (hpool' hok).trans (hpool₁ rfl)⟩
    · rw [heq]
      exact ⟨h₁, fun hok => absurd hok hr⟩

theorem loadElfToProcess_confined (arch : Arch) (elf : Bytes)
    (h : Confined arch.format shared R s₀ s)
    (hpages : ∀ page s', ElfReaches arch elf (R * 4096) s page s' → tableIndex 39 page ∉ shared) :
    Confined arch.format shared R s₀ (loadElfToProcess arch elf (R * 4096) s).2 ∧
      ∀ entry, (loadElfToProcess arch elf (R * 4096) s).1 = .ok entry →
        pool arch.format shared R (loadElfToProcess arch elf (R * 4096) s).2 =
          pool arch.format shared R s := by
  rcases loadElfToProcess_cases (R * 4096) elf s arch with
    ⟨msg, -, heq⟩ | ⟨hd, r, s₁, hhd, hrun, hstate, hentry⟩
  · rw [heq]
    exact ⟨h, fun entry hok => absurd hok (by simp)⟩
  · obtain ⟨h₁, hpool₁⟩ := loadSegments_confined arch.format_lawful elf hd (List.range hd.phNum) h
      fun i s₂ page s' hreach hpage => hpages page s' ⟨hd, hhd, i, s₂, hreach, hpage⟩
    rw [hrun] at h₁ hpool₁
    rw [hstate]
    exact ⟨h₁, fun entry hok => hpool₁ (hentry entry hok)⟩

end Loading

section Sparing
variable {F : Format} {S : Set (ℕ × Fin 512)} {R d : ℕ} {s s₁ : Machine}

theorem sameEntries_of_frame {m m' : Memory} (hS : ∀ σ ∈ S, ¬ s.pmm.IsFree σ.1)
    (hd : s.pmm.IsFree d) (h : ∀ x, x / 4096 ≠ d → m' x = m x) : SameEntries S m m' := by
  intro σ hσ
  apply entries_congr
  rintro x hx
  apply h
  rintro rfl
  exact hS σ hσ (hx ▸ hd)

theorem zeroed_evolves (hS : ∀ σ ∈ S, ¬ s.pmm.IsFree σ.1) (ht : Taken s s₁ d) :
    Evolves F S s { s₁ with mem := zeroFrame s₁.mem (d * 4096) } True :=
  .of_same (sameEntries_of_frame hS ht.wasFree fun x hx =>
    (zeroFrame_apply _ hx).trans (congrFun ht.mem x))
    fun f hf => ((ht.pmm f).mp hf).1

/-- The page loop leaves the entries of `S` as they were exactly when each page that it comes to spares
them. -/
theorem copyPages_evolves (hF : F.Lawful) (seg : Segment) (n : ℕ) :
    ∀ (currentVaddr dataOffset : ℕ) {s : Machine}, currentVaddr % 4096 = 0 →
    (∀ σ ∈ S, ¬ s.pmm.IsFree σ.1) →
    Evolves F S s (copyPages F (R * 4096) seg n currentVaddr dataOffset s).2
      (∀ k < n, ∀ s', seg.ReachesPage F (R * 4096) k currentVaddr dataOffset s s' →
        Spares F S R s' (currentVaddr + 4096 * k)) := by
  induction n with
  | zero =>
    intro _ _ s _ _
    exact (Evolves.refl F S s).congr (iff_of_true trivial fun k hk => absurd hk (Nat.not_lt_zero k))
  | succ n ih =>
    intro currentVaddr dataOffset s hvirt hS
    rcases copyPages_succ_cases F (R * 4096) seg currentVaddr dataOffset s with
      ⟨hnone, hrun⟩ | ⟨d, s₁, halloc, htaken, hcases⟩
    · rw [hrun]
      refine (Evolves.refl F S s).congr (iff_of_true trivial ?_)
      intro k _ s' hreach
      cases k with
      | zero =>
        obtain ⟨s₂, phys, s₃, hk, hframe, -⟩ := hreach
        obtain rfl : s = s₂ := congrArg Prod.snd hk
        exact absurd (congrArg Prod.fst (hnone.symm.trans hframe)) (by simp)
      | succ k => exact absurd hreach (not_reachesPage_succ hrun)
    have hzero := zeroed_evolves (F := F) hS htaken
    have hmapped := hzero.trans hF (mapPage_evolves (R := R) hvirt (Nat.mul_mod_left d 4096)
      (rfl : seg.mapFlags.userAccessible = true) (fun σ hσ hfree => hS σ hσ (hzero.pmm _ hfree)) hF)
    rw [true_and] at hmapped
    rcases hcases with ⟨e, s₂, hmap, hrun⟩ | ⟨s₂, hmap, hrun⟩
    · rw [hmap] at hmapped
      rw [hrun]
      refine hmapped.congr ⟨?_, fun h => h 0 (Nat.succ_pos n) _ ((reachesPage_zero halloc).mpr rfl)⟩
      rintro h k - s' hreach
      cases k with
      | zero => exact (reachesPage_zero halloc).mp hreach ▸ h
      | succ k => exact absurd hreach (not_reachesPage_succ hrun)
    · rw [hmap] at hmapped
      have hroom : ((seg.data.drop dataOffset).take
          (seg.bytesToCopy currentVaddr dataOffset)).length ≤ 4096 - seg.pageOffset currentVaddr :=
        (List.length_take_le _ _).trans (Nat.min_le_right _ _)
      have hcopy : Evolves F S s₂ { s₂ with
          mem := s₂.mem.blit (d * 4096 + seg.pageOffset currentVaddr)
            ((seg.data.drop dataOffset).take (seg.bytesToCopy currentVaddr dataOffset)) } True :=
        .of_same (sameEntries_of_frame hS htaken.wasFree fun x hx =>
          not_not.mp fun hne => hx (blit_changes_page hroom hne)) fun f hf => hf
      have hpage := hmapped.trans hF hcopy
      rw [and_true] at hpage
      rw [hrun]
      refine (hpage.trans hF (ih (currentVaddr + 4096)
        (dataOffset + seg.bytesToCopy currentVaddr dataOffset) (by omega)
        fun σ hσ hfree => hS σ hσ (hpage.pmm _ hfree))).congr ?_
      constructor
      · rintro ⟨h, hnext⟩ k hk s' hreach
        cases k with
        | zero => exact (reachesPage_zero halloc).mp hreach ▸ h
        | succ k =>
          rw [Nat.mul_succ, Nat.add_comm (4096 * k), ← Nat.add_assoc]
          exact hnext k (Nat.lt_of_succ_lt_succ hk) s' ((reachesPage_succ hrun).mp hreach)
      · refine fun h => ⟨h 0 (Nat.succ_pos n) _ ((reachesPage_zero halloc).mpr rfl), ?_⟩
        intro k hk s' hreach
        rw [Nat.add_assoc, Nat.add_comm 4096, ← Nat.mul_succ]
        exact h (k + 1) (Nat.succ_lt_succ hk) s' ((reachesPage_succ hrun).mpr hreach)

theorem loadHeader_evolves (hF : F.Lawful) (elf : Bytes) (hd : Header) (i : ℕ)
    (hS : ∀ σ ∈ S, ¬ s.pmm.IsFree σ.1) :
    Evolves F S s (loadSegments F (R * 4096) elf hd [i] s).2
      (∀ page s', HeaderReaches F (R * 4096) elf hd i s page s' → Spares F S R s' page) := by
  rcases loadSegments_cons_cases F (R * 4096) elf s hd i with
    ⟨hbad, r, -, heq⟩ | ⟨hseg, heq⟩ | ⟨seg, r, s₁, hseg, hrun, hcont⟩
  · rw [heq]
    refine (Evolves.refl F S s).congr (iff_of_true trivial ?_)
    rintro page s' ⟨seg, hseg, -⟩
    exact absurd hseg (hbad _)
  · rw [heq]
    refine (Evolves.refl F S s).congr (iff_of_true trivial ?_)
    rintro page s' ⟨seg, hseg', -⟩
    exact absurd (hseg.symm.trans hseg') (by simp)
  · have hcopy := copyPages_evolves (R := R) hF seg seg.pageCount seg.startVaddr 0
      (alignDown_mod seg.vaddr 4096) hS
    rw [show copyPages F (R * 4096) seg seg.pageCount seg.startVaddr 0 s = _ from hrun] at hcopy
    have hone : (loadSegments F (R * 4096) elf hd [i] s).2 = s₁ := by
      rcases hcont with ⟨-, heq⟩ | ⟨-, heq⟩
      · rw [heq]
        rfl
      · rw [heq]
    rw [hone]
    refine hcopy.congr ⟨?_, fun h k hk s' hreach => h _ s' ⟨seg, hseg, k, hk, rfl, hreach⟩⟩
    rintro h page s' ⟨seg', hseg', k, hk, rfl, hreach⟩
    obtain rfl := Option.some.inj (Outcome.ok.inj (hseg.symm.trans hseg'))
    exact h k hk s' hreach

theorem loadSegments_evolves (hF : F.Lawful) (elf : Bytes) (hd : Header) (indices : List ℕ) :
    ∀ {s : Machine}, (∀ σ ∈ S, ¬ s.pmm.IsFree σ.1) →
    Evolves F S s (loadSegments F (R * 4096) elf hd indices s).2
      (∀ i s₁ page s', ReachesHeader F (R * 4096) elf hd indices s i s₁ →
        HeaderReaches F (R * 4096) elf hd i s₁ page s' → Spares F S R s' page) := by
  induction indices with
  | nil =>
    intro s _
    refine (Evolves.refl F S s).congr (iff_of_true trivial ?_)
    rintro i s₁ page s' ⟨pre, post, hsplit, -⟩
    exact absurd hsplit (by simp)
  | cons i rest ih =>
    intro s hS
    have hheader := loadHeader_evolves (R := R) hF elf hd i hS
    have hfirst : ReachesHeader F (R * 4096) elf hd (i :: rest) s i s :=
      reachesHeader_cons.mpr (Or.inl ⟨rfl, rfl⟩)
    rcases @loadSegments_cons F (R * 4096) elf hd i rest s with
      ⟨s₁, hone, hall⟩ | ⟨r, s₁, hr, hone, hall⟩
    · rw [hone] at hheader
      rw [hall]
      refine (hheader.trans hF (ih fun σ hσ hfree => hS σ hσ (hheader.pmm _ hfree))).congr ?_
      constructor
      · rintro ⟨hpages, hnext⟩ j s₂ page s' hreach hpage
        rcases reachesHeader_cons.mp hreach with ⟨rfl, rfl⟩ | ⟨s₃, hone', hreach'⟩
        · exact hpages page s' hpage
        · obtain rfl := congrArg Prod.snd (hone.symm.trans hone')
          exact hnext j s₂ page s' hreach' hpage
      · refine fun h => ⟨fun page s' => h i s page s' hfirst, ?_⟩
        exact fun j s₂ page s' hreach =>
          h j s₂ page s' (reachesHeader_cons.mpr (Or.inr ⟨s₁, hone, hreach⟩))
    · rw [hone] at hheader
      rw [hall]
      refine hheader.congr ⟨?_, fun h page s' => h i s page s' hfirst⟩
      intro h j s₂ page s' hreach hpage
      rcases reachesHeader_cons.mp hreach with ⟨rfl, rfl⟩ | ⟨s₃, hone', -⟩
      · exact h page s' hpage
      · exact absurd (congrArg Prod.fst (hone.symm.trans hone')) hr

theorem loadElfToProcess_same_iff (arch : Arch) (elf : Bytes) (hS : ∀ σ ∈ S, ¬ s.pmm.IsFree σ.1) :
    SameEntries S s.mem (loadElfToProcess arch elf (R * 4096) s).2.mem ↔
      ∀ page s', ElfReaches arch elf (R * 4096) s page s' → Spares arch.format S R s' page := by
  rcases loadElfToProcess_cases (R * 4096) elf s arch with
    ⟨msg, hhd, heq⟩ | ⟨h, r, s₁, hhd, hrun, hstate, -⟩
  · rw [heq]
    refine iff_of_true (fun _ _ => rfl) ?_
    rintro page s' ⟨h, hh, -⟩
    exact absurd (hhd.symm.trans hh) (by simp)
  · have hload := (loadSegments_evolves (R := R) arch.format_lawful elf h (List.range h.phNum)
      hS).same_iff
    rw [hrun] at hload
    rw [hstate, hload]
    constructor
    · rintro hall page s' ⟨h', hh, i, s₂, hreach, hpage⟩
      obtain rfl := Except.ok.inj (hhd.symm.trans hh)
      exact hall i s₂ page s' hreach hpage
    · exact fun hall i s₂ page s' hreach hpage => hall page s' ⟨h, hhd, i, s₂, hreach, hpage⟩

end Sparing

section Shared
variable {F : Format} {K R : ℕ} {s s₁ s₂ : Machine}

def presentEntries (F : Format) (m : Memory) (root : ℕ) : Set (Fin 512) :=
  {i | F.isPresent (entries m root i) = true}

/-- Work confined to a process created from `K` leaves the tables of `K` as they were. -/
theorem live_entries_kept (hnew : Created s s₁ K R)
    (hkernel : ∀ level t, LiveTable F s.mem K level t → ¬ s.pmm.IsFree t)
    (hconf : Confined F (presentEntries F s.mem K) R s₁ s₂) {level t : ℕ}
    (hlive : LiveTable F s.mem K level t) (i : Fin 512) :
    entries s₂.mem t i = entries s.mem t i := by
  have hne : ∀ {level t}, LiveTable F s.mem K level t → t ≠ R := by
    rintro level t hlive rfl
    exact hkernel level t hlive hnew.wasFree
  obtain ⟨-, howned⟩ := hnew.isPrivate (F := F) (hne .root) (presentEntries F s.mem K)
    fun i hp => hp
  have hout : t ∉ pool F (presentEntries F s.mem K) R s₁ := by
    rintro (ht | ht)
    · rw [howned] at ht
      exact hne hlive ht
    · exact hkernel level t hlive ((hnew.pmm t).mp ht).1
  apply entries_congr
  rintro x rfl
  rw [hconf.outside x hout, hnew.mem x (hne hlive)]

/-- The entries of the tables of `K`, and their copies in a root that was created from it. -/
def kernelSlots (F : Format) (m : Memory) (K R : ℕ) : Set (ℕ × Fin 512) :=
  {σ | (∃ level, LiveTable F m K level σ.1) ∨ σ.1 = R ∧ σ.2 ∈ presentEntries F m K}

/-- The tables of `K` are as they were, and a root created from it translates all addresses behind
the entries of `K` as before, through the same entries. -/
structure KernelKept (F : Format) (s : Machine) (K root : ℕ) (s₁ s₂ : Machine) : Prop where
  tables : ∀ level t, LiveTable F s.mem K level t → ∀ i, entries s₂.mem t i = entries s.mem t i
  translation : ∀ virt, tableIndex 39 virt ∈ presentEntries F s.mem K →
    translateAddr F s₂.mem root virt = translateAddr F s₁.mem root virt ∧
      mmuWalk F s₂.mem root virt = mmuWalk F s₁.mem root virt

theorem head_mmuWalk (F : Format) (m : Memory) (R virt : ℕ) :
    (mmuWalk F m (R * 4096) virt).head? = some (entries m R (tableIndex 39 virt)) := by
  unfold mmuWalk
  rw [← getEntry_frame]
  dsimp only
  split_ifs <;> rfl

theorem kernelKept_iff (hF : F.Lawful) (hnew : Created s s₁ K R)
    (hkernel : ∀ level t, LiveTable F s.mem K level t → ¬ s.pmm.IsFree t) :
    KernelKept F s K (R * 4096) s₁ s₂ ↔
      SameEntries (kernelSlots F s.mem K R) s₁.mem s₂.mem := by
  have hneR : ∀ {level t}, LiveTable F s.mem K level t → t ≠ R := by
    rintro level t hlive rfl
    exact hkernel level t hlive hnew.wasFree
  have hkept : ∀ level t, LiveTable F s.mem K level t → ∀ i,
      entries s₁.mem t i = entries s.mem t i := by
    intro level t hlive i
    apply entries_congr
    rintro x rfl
    exact hnew.mem x (hneR hlive)
  constructor
  · rintro ⟨htables, htranslation⟩ σ (⟨level, hlive⟩ | ⟨hR, hp⟩)
    · rw [htables level σ.1 hlive, hkept level σ.1 hlive]
    · -- an address behind the entry
      have hindex : tableIndex 39 (σ.2 * 2 ^ 39) = σ.2 := by
        apply Fin.ext
        rw [tableIndex_val, Nat.mul_div_cancel _ (by decide), Nat.mod_eq_of_lt σ.2.isLt]
      have hwalk := (htranslation (σ.2 * 2 ^ 39) (hindex.symm ▸ hp)).2
      have hhead := congrArg List.head? hwalk
      rw [head_mmuWalk, head_mmuWalk, hindex] at hhead
      rw [hR]
      exact Option.some.inj hhead
  · intro hsame
    have hlive : ∀ level t, LiveTable F s.mem K level t → ∀ i,
        entries s₂.mem t i = entries s.mem t i := fun level t hlive i =>
      (hsame (t, i) (Or.inl ⟨level, hlive⟩)).trans (hkept level t hlive i)
    refine ⟨hlive, fun virt hvirt => ?_⟩
    have htop₁ := hnew.entries_eq (hneR .root) (tableIndex 39 virt)
    have htop := (hsame (R, tableIndex 39 virt) (Or.inr ⟨rfl, hvirt⟩)).trans htop₁
    obtain ⟨ht, hw⟩ := translation_of_live hF htop fun level t h => hlive _ t h
    obtain ⟨ht₁, hw₁⟩ := translation_of_live hF htop₁ fun level t h => hkept _ t h
    exact ⟨ht.trans ht₁.symm, hw.trans hw₁.symm⟩

/-- Loading a file leaves what a process shares with the kernel alone exactly when every page that
the loader comes to spares the kernel's entries. This is so when no such page lies behind a top-level
entry of the kernel's root. -/
theorem loadElf_keeps_kernel_iff (arch : Arch) (elf : Bytes) (active root : ℕ) (s s₁ : Machine)
    (hroot : HasKernelRoot arch active)
    (hkernel : ∀ level t, LiveTable arch.format s.mem (active / 4096) level t → ¬ s.pmm.IsFree t)
    (hcreate : createProcessPageTable arch active s = (some root, s₁)) :
    (KernelKept arch.format s (active / 4096) root s₁ (loadElfToProcess arch elf root s₁).2 ↔
      ∀ page s', ElfReaches arch elf root s₁ page s' → Spares arch.format
        (kernelSlots arch.format s.mem (active / 4096) (root / 4096)) (root / 4096) s' page) ∧
    ((∀ page s', ElfReaches arch elf root s₁ page s' →
        tableIndex 39 page ∉ presentEntries arch.format s.mem (active / 4096)) →
      KernelKept arch.format s (active / 4096) root s₁ (loadElfToProcess arch elf root s₁).2) := by
  obtain ⟨R, rfl, hnew⟩ := createProcessPageTable_some hroot hcreate
  have hkept : ∀ s₂, KernelKept arch.format s (active / 4096) (R * 4096) s₁ s₂ ↔ _ :=
    fun s₂ => kernelKept_iff arch.format_lawful hnew hkernel
  rw [Nat.mul_div_cancel R (by decide), hkept]
  constructor
  · apply loadElfToProcess_same_iff
    rintro σ (⟨level, hlive⟩ | ⟨hR, -⟩) hfree
    · exact hkernel level σ.1 hlive ((hnew.pmm _).mp hfree).1
    · exact ((hnew.pmm _).mp hfree).2 hR
  · intro hpages
    have hne : active / 4096 ≠ R := by
      rintro rfl
      exact hkernel 0 _ .root hnew.wasFree
    have hpriv := (hnew.isPrivate (F := arch.format) hne _ fun i hp => hp).1
    have hconf := (loadElfToProcess_confined arch elf hpriv.confined hpages).1
    rintro σ (⟨level, hlive⟩ | ⟨hR, hp⟩)
    · rw [live_entries_kept hnew hkernel hconf hlive,
        live_entries_kept hnew hkernel hpriv.confined hlive]
    · rw [hR]
      exact hconf.sharedEntries σ.2 hp

/-- A `PT_LOAD` header: one writable page at `vaddr`, no file data. -/
def loadHeaderBytes (vaddr : BitVec 64) : Bytes :=
  [1#8, 0#8, 0#8, 0#8, 6#8, 0#8, 0#8, 0#8] ++ List.replicate 8 0#8 ++ le64 vaddr ++
    List.replicate 16 0#8 ++ 1#8 :: List.replicate 15 0#8

def elfFile (arch : Arch) (vaddrs : List (BitVec 64)) : Bytes :=
  elfMagic ++ [2#8, 1#8] ++ List.replicate 10 0#8 ++
    [2#8, 0#8, BitVec.ofNat 8 (emMachine arch), 0#8] ++ List.replicate 4 0#8 ++
    le64 0x8000000000#64 ++ le64 64#64 ++ List.replicate 14 0#8 ++
    [56#8, 0#8, BitVec.ofNat 8 vaddrs.length, 0#8] ++ List.replicate 6 0#8 ++
    vaddrs.flatMap loadHeaderBytes

def oneSegmentElf (arch : Arch) (vaddr : BitVec 64) : Bytes := elfFile arch [vaddr]

def loaderMachine : Machine := ⟨multibootAlias, BitmapAllocator.new.freeRange 0x100 8⟩

def loaderProcess : Machine := (createProcessPageTable .x86_64 0x1000 loaderMachine).2

/-- A segment in the kernel half hangs a new table into the kernel's own PDPT. -/
theorem loadElf_extends_kernel_table :
    createProcessPageTable .x86_64 0x1000 loaderMachine = (some 0x100000, loaderProcess) ∧
      LiveTable x86Format loaderMachine.mem 1 1 2 ∧
      (loadElfToProcess .x86_64 (oneSegmentElf .x86_64 0xFFFF800040000000) 0x100000
        loaderProcess).1 = .ok 0x8000000000 ∧
      entries loaderMachine.mem 2 1 = 0#64 ∧
      entries (loadElfToProcess .x86_64 (oneSegmentElf .x86_64 0xFFFF800040000000) 0x100000
        loaderProcess).2.mem 2 1 = 0x102007#64 := by
  refine ⟨Prod.ext (by decide +kernel) rfl, ?_, by decide +kernel, by decide +kernel,
    by decide +kernel⟩
  exact LiveTable.root.child 256 (by decide) (Or.inl rfl) (by decide +kernel)

/-- Two segments at the same user page and one in the kernel half. -/
def overlappingElf : Bytes :=
  elfFile .x86_64 [0x8000000000#64, 0x8000000000#64, 0xFFFF800040000000#64]

/-- The loader stops at the second segment, so it never comes to the third one. -/
theorem loadElf_keeps_kernel_iff_overlap :
    (loadElfToProcess .x86_64 overlappingElf 0x100000 loaderProcess).1 =
        .err "Failed to map page for ELF segment" ∧
      KernelKept x86Format loaderMachine 1 0x100000 loaderProcess
        (loadElfToProcess .x86_64 overlappingElf 0x100000 loaderProcess).2 := by
  have hcreate : createProcessPageTable .x86_64 0x1000 loaderMachine =
      (some 0x100000, loaderProcess) := Prod.ext (by decide +kernel) rfl
  have hfree : ∀ t < 4, ¬ loaderMachine.pmm.IsFree t := by decide
  have hkernel : ∀ level t, LiveTable x86Format loaderMachine.mem (0x1000 / 4096) level t →
      ¬ loaderMachine.pmm.IsFree t := by
    intro level t hlive
    obtain ⟨rfl, hlevel⟩ := live_multibootAlias hlive
    exact hfree (level + 1) (by omega)
  have hheader : readHeader .x86_64 overlappingElf = .ok ⟨0x8000000000, 64, 56, 3⟩ := by
    decide +kernel
  have hsegments : ∀ i < 2, segmentAt overlappingElf ⟨0x8000000000, 64, 56, 3⟩ i =
      .ok (some ⟨0x8000000000, [], 1, 6⟩) := by decide +kernel
  have hstops : (loadSegments x86Format 0x100000 overlappingElf ⟨0x8000000000, 64, 56, 3⟩
      (List.range 2) loaderProcess).1 ≠ .ok () := by decide +kernel
  refine ⟨by decide +kernel, ?_⟩
  apply (loadElf_keeps_kernel_iff .x86_64 overlappingElf 0x1000 0x100000 loaderMachine loaderProcess
    (fun h => Arch.noConfusion h) hkernel hcreate).2
  rintro page s' ⟨h, hh, i, s₁, hreach, seg, hseg, k, hk, rfl, -⟩
  obtain rfl := Except.ok.inj (hheader.symm.trans hh)
  obtain ⟨hi, hrun⟩ := reachesHeader_range.mp hreach
  have hi' : i < 3 := hi
  obtain hlt | rfl : i < 2 ∨ i = 2 := by omega
  · obtain rfl := Option.some.inj (Outcome.ok.inj ((hsegments i hlt).symm.trans hseg))
    obtain rfl : k = 0 := Nat.lt_one_iff.mp hk
    change ¬ x86Format.isPresent (entries multibootAlias 1 (tableIndex 39 0x8000000000)) = true
    decide +kernel
  · exact absurd (congrArg Prod.fst hrun) hstops

end Shared

end MitosOS.Elf
