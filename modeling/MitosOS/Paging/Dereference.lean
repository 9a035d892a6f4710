import MitosOS.Paging.PageMap
import MitosOS.Paging.Translation

/-! Whether the MMU translates what `validate_user_range` accepts. The check reads bits 12 to 47 of
a pointer; the MMU of either architecture also looks at the bits above. -/
namespace MitosOS.Paging
open MitosOS.Lib MitosOS.Memory

namespace AArch64

/-- Descriptor type 0b11: a table above the last level, a page at it. -/
def isTable (e : Entry) : Bool := e &&& 0b11#64 == 0b11#64

/-- The access flag, bit 10; without it an access through the entry faults. -/
def isAccessed (e : Entry) : Bool := e &&& 1#64 <<< 10 != 0#64

end AArch64

/-- The TTBR0 walk of a 48-bit address space with 4 KiB pages. -/
def ttbr0Translation (m : Memory) (root virt : ℕ) : Option ℕ :=
  let e0 := getEntry m root (tableIndex 39 virt)
  if !AArch64.isTable e0 then none
  else
    let e1 := getEntry m (AArch64.physicalAddress e0) (tableIndex 30 virt)
    if AArch64.isBlock e1 && AArch64.isAccessed e1 then
      some (alignDown (AArch64.physicalAddress e1) 0x40000000 + virt % 0x40000000)
    else if !AArch64.isTable e1 then none
    else
      let e2 := getEntry m (AArch64.physicalAddress e1) (tableIndex 21 virt)
      if AArch64.isBlock e2 && AArch64.isAccessed e2 then
        some (alignDown (AArch64.physicalAddress e2) 0x200000 + virt % 0x200000)
      else if !AArch64.isTable e2 then none
      else
        let e3 := getEntry m (AArch64.physicalAddress e2) (tableIndex 12 virt)
        if AArch64.isTable e3 && AArch64.isAccessed e3 then
          some (AArch64.physicalAddress e3 + virt % 4096)
        else none

/-- The addresses that the MMU takes to the user root at all. -/
def Addressable : Arch → ℕ → Prop
  | .x86_64, virt => IsCanonical virt
  | .aarch64, virt => virt < 2 ^ 48

instance : ∀ (arch : Arch) (virt : ℕ), Decidable (Addressable arch virt)
  | .x86_64, virt => inferInstanceAs (Decidable (IsCanonical virt))
  | .aarch64, virt => inferInstanceAs (Decidable (virt < 2 ^ 48))

/-- The physical address the hardware accesses; `none` is a fault. -/
def hardwareTranslation (arch : Arch) (m : Memory) (root virt : ℕ) : Option ℕ :=
  match arch with
  | .x86_64 => (cpuTranslation m root virt).map Mapping.phys
  | .aarch64 => if Addressable .aarch64 virt then ttbr0Translation m root virt else none

structure Installed where
  virt : ℕ
  phys : ℕ
  flags : MapFlags

/-- A root that starts zeroed and is built by `map_page` calls alone, while the allocator may
change as long as it gets no table back. The calls that succeeded are listed. -/
inductive MapRun (F : Format) (root : ℕ) (s₀ : Machine) : List Installed → Machine → Prop where
  | start (hzero : ZeroedRoot root s₀) : MapRun F root s₀ [] s₀
  | map {l : List Installed} {s : Machine} (h : MapRun F root s₀ l s) (virt phys : ℕ)
    (flags : MapFlags) (hphys : phys < 2 ^ F.physBits) :
    MapRun F root s₀
      (if (mapPage F s (root * 4096) virt phys flags).1 = .ok () then ⟨virt, phys, flags⟩ :: l else l)
      (mapPage F s (root * 4096) virt phys flags).2
  | allocator {l : List Installed} {s : Machine} (h : MapRun F root s₀ l s) (pmm : Pmm)
    (hpmm : ∀ t ∈ (graph F s.mem).nodes root tablePaths, ¬ pmm.IsFree t) :
    MapRun F root s₀ l { s with pmm }

/-- The range ends before the hole that the MMU does not translate, or starts after it. -/
def RangeAddressable : Arch → ℕ → ℕ → Prop
  | .x86_64, ptr, len => ptr + len ≤ 2 ^ 47 ∨ 2 ^ 64 - 2 ^ 47 ≤ ptr
  | .aarch64, ptr, len => ptr + len ≤ 2 ^ 48

section Walks
variable {R virt : ℕ} {s : Machine}

theorem cpuTranslation_of_canonical (m : Memory) (root : ℕ) (hv : IsCanonical virt) :
    cpuTranslation m root virt = (hardwareWalk m root virt).map (mappingOf virt) := if_pos hv

theorem hardwareTranslation_x86 (m : Memory) (root : ℕ) (hv : IsCanonical virt) :
    hardwareTranslation .x86_64 m root virt = translateAddr x86Format m root virt := by
  have hpage : ∀ e : Entry, alignDown (X86.physicalAddress e) 0x1000 = X86.physicalAddress e := by
    intro e
    have hmod : X86.physicalAddress e % 4096 = 0 := x86Format_lawful.physicalAddress_mod e
    unfold alignDown
    rw [hmod, Nat.sub_zero]
  rw [hardwareTranslation, cpuTranslation_of_canonical m root hv, Option.map_map]
  unfold hardwareWalk translateAddr
  simp only [x86Format_isPresent, x86Format_isBlock, x86Format_physicalAddress, land_0xFFF,
    land_0x1FFFFF, land_0x3FFFFFFF]
  split_ifs
  · rfl
  · rfl
  · rfl
  · rfl
  · rfl
  · rfl
  · simp only [Option.map_some, Function.comp_apply, mappingOf, List.length_cons, List.length_nil,
      leafSize, List.getLastD_cons, List.getLastD_nil, hpage]

section Bits
variable (e : Entry)

theorem AArch64.isTable_iff : AArch64.isTable e = true ↔ e.toNat % 4 = 3 := by
  have h : (e &&& 0b11#64).toNat = e.toNat % 4 := by
    rw [BitVec.toNat_and]
    exact land_low e.toNat 2
  rw [AArch64.isTable, beq_iff_eq, ← BitVec.toNat_inj, h]
  exact Iff.rfl

theorem AArch64.isBlock_iff : AArch64.isBlock e = true ↔ e.toNat % 4 = 1 := by
  have h : (e &&& 0b11#64).toNat = e.toNat % 4 := by
    rw [BitVec.toNat_and]
    exact land_low e.toNat 2
  rw [AArch64.isBlock, beq_iff_eq, ← BitVec.toNat_inj, h]
  exact Iff.rfl

theorem AArch64.isPresent_iff : AArch64.isPresent e = true ↔ e.toNat % 2 = 1 := by
  have h : (e &&& 1#64).toNat = e.toNat % 2 := by
    rw [BitVec.toNat_and]
    exact land_low e.toNat 1
  rw [AArch64.isPresent, bne_iff_ne, ne_eq, ← BitVec.toNat_inj, h]
  change ¬ e.toNat % 2 = 0 ↔ _
  omega

end Bits

theorem AArch64.isTable_of_isPresent {e : Entry} (hpresent : AArch64.isPresent e = true)
    (hblock : AArch64.isBlock e = false) : AArch64.isTable e = true := by
  rw [AArch64.isPresent_iff] at hpresent
  rw [← Bool.not_eq_true, AArch64.isBlock_iff] at hblock
  rw [AArch64.isTable_iff]
  omega

theorem AArch64.absent {e : Entry} (h : AArch64.isPresent e = false) :
    AArch64.isTable e = false ∧ AArch64.isBlock e = false := by
  rw [← Bool.not_eq_true, AArch64.isPresent_iff] at h
  rw [← Bool.not_eq_true, ← Bool.not_eq_true, AArch64.isTable_iff, AArch64.isBlock_iff]
  omega

theorem WellFormed.tableEntry (h : WellFormed aarch64Format R s) {q : List (Fin 512)} {t c : ℕ}
    {i : Fin 512} (hq : q.length ≤ 2) (hw : (graph aarch64Format s.mem).walk R q = some t)
    (hc : graph aarch64Format s.mem t i = some c) :
    AArch64.isPresent (entries s.mem t i) = true ∧ AArch64.isBlock (entries s.mem t i) = false ∧
      AArch64.isTable (entries s.mem t i) = true ∧
      AArch64.physicalAddress (entries s.mem t i) = c * 4096 ∧
      (graph aarch64Format s.mem).walk R (q ++ [i]) = some c := by
  obtain ⟨hp, ha⟩ := isPresent_of_graph_some aarch64Format_lawful hc
  have hb := h.noBlock q t i hq hw hp
  exact ⟨hp, hb, AArch64.isTable_of_isPresent hp hb, ha,
    (PathGraph.walk_concat_of_eq hw i).trans hc⟩

theorem absent_of_graph_none {t : ℕ} {i : Fin 512} (hc : graph aarch64Format s.mem t i = none) :
    AArch64.isPresent (entries s.mem t i) = false ∧ AArch64.isTable (entries s.mem t i) = false ∧
      AArch64.isBlock (entries s.mem t i) = false := by
  have hp : AArch64.isPresent (entries s.mem t i) = false := isPresent_of_graph_none hc
  exact ⟨hp, AArch64.absent hp⟩

theorem hardwareTranslation_aarch64 (h : WellFormed aarch64Format R s) (hv : virt < 2 ^ 48)
    (hleaf : ∀ t, (graph aarch64Format s.mem).walk R (tablePath virt) = some t →
      AArch64.isPresent (entries s.mem t (tableIndex 12 virt)) = true →
      AArch64.isTable (entries s.mem t (tableIndex 12 virt)) = true ∧
        AArch64.isAccessed (entries s.mem t (tableIndex 12 virt)) = true) :
    hardwareTranslation .aarch64 s.mem (R * 4096) virt =
      translateAddr aarch64Format s.mem (R * 4096) virt := by
  have hpresent : aarch64Format.isPresent = AArch64.isPresent := rfl
  have hblock : aarch64Format.isBlock = AArch64.isBlock := rfl
  have haddress : aarch64Format.physicalAddress = AArch64.physicalAddress := rfl
  have hdefined : hardwareTranslation .aarch64 s.mem (R * 4096) virt =
      ttbr0Translation s.mem (R * 4096) virt := if_pos hv
  rw [hdefined]
  unfold ttbr0Translation translateAddr
  simp only [getEntry_frame, hpresent, hblock, haddress, land_0xFFF]
  cases h0 : graph aarch64Format s.mem R (tableIndex 39 virt) with
  | none => simp [absent_of_graph_none h0]
  | some c0 =>
  obtain ⟨hp0, -, ht0, ha0, hw0⟩ := h.tableEntry (q := []) (by simp) rfl h0
  simp only [hp0, ht0, ha0, getEntry_frame, Bool.not_true, Bool.false_eq_true, if_false]
  cases h1 : graph aarch64Format s.mem c0 (tableIndex 30 virt) with
  | none => simp [absent_of_graph_none h1]
  | some c1 =>
  obtain ⟨hp1, hb1, ht1, ha1, hw1⟩ := h.tableEntry (by simp) hw0 h1
  simp only [hp1, hb1, ht1, ha1, getEntry_frame, Bool.not_true, Bool.false_and, Bool.false_eq_true,
    if_false]
  cases h2 : graph aarch64Format s.mem c1 (tableIndex 21 virt) with
  | none => simp [absent_of_graph_none h2]
  | some c2 =>
  obtain ⟨hp2, hb2, ht2, ha2, hw2⟩ := h.tableEntry (by simp) hw1 h2
  simp only [hp2, hb2, ht2, ha2, getEntry_frame, Bool.not_true, Bool.false_and, Bool.false_eq_true,
    if_false]
  cases h3 : AArch64.isPresent (entries s.mem c2 (tableIndex 12 virt)) with
  | false => simp [(AArch64.absent h3).1]
  | true =>
    obtain ⟨ht3, haf⟩ := hleaf c2 hw2 h3
    simp [ht3, haf]

end Walks

section Ranges
variable {arch : Arch} {m : Memory} {root ptr len a : ℕ}

theorem addressable_of_translation {x : ℕ} (h : hardwareTranslation arch m root a = some x) :
    Addressable arch a := by
  by_contra hcon
  cases arch with
  | x86_64 =>
    have hnone : cpuTranslation m root a = none := if_neg hcon
    rw [hardwareTranslation, hnone] at h
    exact absurd h (by simp)
  | aarch64 =>
    rw [hardwareTranslation, if_neg hcon] at h
    exact absurd h (by simp)

/-- The hole cannot lie inside a range all of whose addresses are translated. -/
theorem rangeAddressable_iff (hlen : 0 < len) (hov : ptr + len < 2 ^ 64) :
    RangeAddressable arch ptr len ↔ ∀ a, ptr ≤ a → a < ptr + len → Addressable arch a := by
  cases arch with
  | x86_64 =>
    change ptr + len ≤ 2 ^ 47 ∨ 2 ^ 64 - 2 ^ 47 ≤ ptr ↔
      ∀ a, ptr ≤ a → a < ptr + len → a < 2 ^ 47 ∨ 2 ^ 64 - 2 ^ 47 ≤ a
    constructor
    · intro h a ha ha'
      omega
    · intro h
      by_contra hcon
      have hfirst := h ptr (le_refl _) (by omega)
      have hhole := h (2 ^ 47) (by omega) (by omega)
      omega
  | aarch64 =>
    change ptr + len ≤ 2 ^ 48 ↔ ∀ a, ptr ≤ a → a < ptr + len → a < 2 ^ 48
    constructor
    · intro h a _ ha
      omega
    · intro h
      have hlast := h (ptr + len - 1) (by omega) (by omega)
      omega

end Ranges

section Runs
variable {arch : Arch} {F : Format} {root a : ℕ} {s₀ s : Machine} {l : List Installed}

theorem MapRun.represented (hF : F.Lawful) (h : MapRun F root s₀ l s) :
    WellFormed F root s ∧ ∀ p b, represented F s.mem root p = some b →
      ∃ c ∈ l, pageNumber c.virt = p ∧ b = ⟨c.phys, F.encodeFlags c.flags⟩ := by
  induction h with
  | start hzero =>
    refine ⟨hzero.wellFormed hF, fun p b hb => ?_⟩
    rw [hzero.represented_eq hF] at hb
    exact absurd hb (by simp)
  | map h virt phys flags hphys ih =>
    obtain ⟨r, s', heq, hwf, -, hrep⟩ := ih.1.mapPage hF virt phys flags hphys
    rw [heq]
    refine ⟨hwf, fun p b hb => ?_⟩
    rw [hrep] at hb
    split_ifs at hb ⊢ with hok
    · by_cases hp : p = pageNumber virt
      · rw [hp, Function.update_self] at hb
        exact ⟨_, List.mem_cons_self, hp.symm, (Option.some.inj hb).symm⟩
      · rw [Function.update_of_ne hp] at hb
        obtain ⟨c, hc, hcp⟩ := ih.2 p b hb
        exact ⟨c, List.mem_cons_of_mem _ hc, hcp⟩
    · exact ih.2 p b hb
  | allocator h pmm hpmm ih => exact ⟨⟨ih.1.tree, hpmm, ih.1.noBlock⟩, ih.2⟩

theorem represented_of_accessible (hF : F.Lawful) {needWrite : Bool}
    (h : pageIsUserAccessible F s.mem (root * 4096) a needWrite = true) :
    ∃ b, MitosOS.Paging.represented F s.mem root (pageNumber a) = some b := by
  unfold pageIsUserAccessible at h
  rw [walkTables_eq hF] at h
  unfold MitosOS.Paging.represented
  rw [pagePath_pageNumber, leafIndex_pageNumber]
  cases ht : (graph F s.mem).walk root (tablePath a) with
  | none =>
    rw [ht] at h
    exact absurd h (by simp)
  | some t =>
    rw [ht] at h
    simp only [Option.map_some, getEntry_frame, Bool.and_eq_true] at h
    exact ⟨_, by rw [Option.bind_some, Format.binding, if_pos h.1.1]⟩

/-- The leaves that `map_page` writes on aarch64 are pages with the access flag set. -/
theorem AArch64.isTable_of_attributes {e : Entry} {flags : MapFlags}
    (h : aarch64Format.attributes e = aarch64Format.encodeFlags flags) :
    AArch64.isTable e = true ∧ AArch64.isAccessed e = true := by
  have hkeeps : ∀ b : Entry, ~~~AArch64.addressMask &&& b = b →
      e &&& b = aarch64Format.encodeFlags flags &&& b := by
    intro b hb
    rw [← h, Format.attributes, BitVec.and_assoc]
    exact congrArg (e &&& ·) hb.symm
  have hbits : ∀ flags : MapFlags, aarch64Format.encodeFlags flags &&& 0b11#64 = 0b11#64 ∧
      (aarch64Format.encodeFlags flags &&& 1#64 <<< 10 != 0#64) = true := by
    rintro ⟨w, u, x, d⟩
    revert w u x d
    decide
  constructor
  · rw [AArch64.isTable, hkeeps _ (by decide), (hbits flags).1]
    decide
  · rw [AArch64.isAccessed, hkeeps _ (by decide)]
    exact (hbits flags).2

/-- A page that passes the check is translated to the frame installed for it, if the hardware
translates the address at all. -/
theorem MapRun.translates {needWrite : Bool} (h : MapRun arch.format root s₀ l s)
    (hpage : pageIsUserAccessible arch.format s.mem (root * 4096) a needWrite = true)
    (ha : Addressable arch a) :
    ∃ c ∈ l, pageNumber c.virt = pageNumber a ∧
      hardwareTranslation arch s.mem (root * 4096) a = some (c.phys + a % 4096) := by
  have hF := arch.format_lawful
  obtain ⟨hwf, hcalls⟩ := h.represented hF
  obtain ⟨b, hb⟩ := represented_of_accessible hF hpage
  obtain ⟨c, hc, hcp, rfl⟩ := hcalls _ b hb
  refine ⟨c, hc, hcp, ?_⟩
  have htrans := hwf.translateAddr hF a
  rw [hb, Option.map_some] at htrans
  rw [← htrans]
  cases arch with
  | x86_64 => exact hardwareTranslation_x86 s.mem (root * 4096) ha
  | aarch64 =>
    apply hardwareTranslation_aarch64 hwf ha
    intro t ht hpres
    rw [← pagePath_pageNumber] at ht
    have hleaf : aarch64Format.binding (entries s.mem t (tableIndex 12 a)) =
        some ⟨c.phys, aarch64Format.encodeFlags c.flags⟩ := by
      rw [← leafIndex_pageNumber, ← represented_of_walk ht]
      exact hb
    rw [Format.binding] at hleaf
    split_ifs at hleaf
    exact AArch64.isTable_of_attributes (congrArg Binding.attributes (Option.some.inj hleaf))

/-- Validation yields addresses the hardware translates to the installed frames exactly when no
range whose pages all pass the check reaches into the addresses the MMU does not translate. -/
theorem validated_dereferenceable_iff (arch : Arch) (root : ℕ) (s₀ s : Machine)
    (l : List Installed) (hrun : MapRun arch.format root s₀ l s) (ptr len : ℕ) (hlen : 0 < len)
    (needWrite : Bool) :
    (validateUserRange arch.format s.mem (root * 4096) ptr len needWrite = true →
      ∀ a, ptr ≤ a → a < ptr + len → ∃ c ∈ l, pageNumber c.virt = pageNumber a ∧
        hardwareTranslation arch s.mem (root * 4096) a = some (c.phys + a % 4096)) ↔
    (ptr + len < 2 ^ 64 → userSpaceBase ≤ ptr →
      (∀ a, ptr ≤ a → a < ptr + len →
        pageIsUserAccessible arch.format s.mem (root * 4096) a needWrite = true) →
      RangeAddressable arch ptr len) := by
  rw [validateUserRange_eq_true hlen]
  constructor
  · intro h hov hbase hpages
    apply (rangeAddressable_iff hlen hov).mpr
    intro a ha ha'
    obtain ⟨c, -, -, hc⟩ := h ⟨hov, hbase, hpages⟩ a ha ha'
    exact addressable_of_translation hc
  · intro h hvalid a ha ha'
    obtain ⟨hov, hbase, hpages⟩ := hvalid
    have hrange := (rangeAddressable_iff hlen hov).mp (h hov hbase hpages)
    exact hrun.translates (hpages a ha ha') (hrange a ha ha')

end Runs

section Alias

theorem onePage_mapRun : MapRun x86Format 1 zeroedMachine [⟨0x8000000000, 0x200000, userFlags⟩]
    onePage := by
  have hstep := MapRun.map
    (.start zeroedMachine_zeroedRoot : MapRun x86Format 1 zeroedMachine [] zeroedMachine)
    0x8000000000 0x200000 userFlags (by decide)
  rw [if_pos onePage_ok] at hstep
  exact hstep

/-- The pointer with bit 48 set on top of a mapped page passes the check and is not canonical. -/
theorem validated_alias_faults :
    MapRun x86Format 1 zeroedMachine [⟨0x8000000000, 0x200000, userFlags⟩] onePage ∧
      validateUserRange x86Format onePage.mem (1 * 4096) 0x1008000000000 1 false = true ∧
      hardwareTranslation .x86_64 onePage.mem (1 * 4096) 0x1008000000000 = none := by
  refine ⟨onePage_mapRun, ?_, ?_⟩
  · decide +kernel
  · decide

/-- The pointer to the page itself is translated. -/
theorem validated_dereferenceable_page :
    validateUserRange x86Format onePage.mem (1 * 4096) 0x8000000000 1 false = true ∧
      ∀ a, 0x8000000000 ≤ a → a < 0x8000000000 + 1 →
        ∃ c ∈ [(⟨0x8000000000, 0x200000, userFlags⟩ : Installed)],
          pageNumber c.virt = pageNumber a ∧
          hardwareTranslation .x86_64 onePage.mem (1 * 4096) a = some (c.phys + a % 4096) := by
  have hvalid : validateUserRange x86Format onePage.mem (1 * 4096) 0x8000000000 1 false = true := by
    decide +kernel
  refine ⟨hvalid, ?_⟩
  apply (validated_dereferenceable_iff .x86_64 1 _ _ _ onePage_mapRun 0x8000000000 1 (by decide)
    false).mpr _ hvalid
  exact fun _ _ _ => Or.inl (by decide)

end Alias

end MitosOS.Paging
