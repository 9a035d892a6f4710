import MitosOS.Paging.Dereference
import MitosOS.Paging.UserPages

/-! Single bytes of a process's memory: what the MMU makes of a private address, and what a store to
it changes for the process. -/
namespace MitosOS.Paging
open MitosOS.Lib MitosOS.Memory

/-- A leaf entry through which the MMU translates. -/
def Arch.leafTranslates : Arch → Entry → Bool
  | .x86_64, e => X86.isPresent e
  | .aarch64, e => AArch64.isTable e && AArch64.isAccessed e

theorem mod_page_lt (a : ℕ) : a % 4096 < 4096 := Nat.mod_lt _ (by decide)

def userByte (F : Format) (m : Memory) (root a : ℕ) : Option (BitVec 8) :=
  (pageContent F m root (pageNumber a)).map fun c => c.bytes ⟨a % 4096, mod_page_lt a⟩

section Translation
variable {arch : Arch} {shared : Set (Fin 512)} {root a : ℕ} {s : Machine}

theorem AArch64.isPresent_of_isTable {e : Entry} (h : AArch64.isTable e = true) :
    AArch64.isPresent e = true := by
  rw [AArch64.isTable_iff] at h
  rw [AArch64.isPresent_iff]
  omega

theorem ttbr0Translation_eq (m : Memory) (root virt : ℕ)
    (hnoBlock : ∀ q t i, q.length ≤ 2 → q ++ [i] <+: tablePath virt →
      (graph aarch64Format m).walk root q = some t → AArch64.isPresent (entries m t i) = true →
      AArch64.isBlock (entries m t i) = false) :
    ttbr0Translation m (root * 4096) virt =
      ((graph aarch64Format m).walk root (tablePath virt)).bind fun t =>
        if Arch.aarch64.leafTranslates (entries m t (tableIndex 12 virt)) then
          some (AArch64.physicalAddress (entries m t (tableIndex 12 virt)) + virt % 4096)
        else none := by
  have habsent : ∀ {t : ℕ} {i : Fin 512}, graph aarch64Format m t i = none →
      AArch64.isTable (entries m t i) = false ∧ AArch64.isBlock (entries m t i) = false :=
    fun hc => AArch64.absent (isPresent_of_graph_none hc)
  have hpresent : ∀ {t c : ℕ} {i : Fin 512}, graph aarch64Format m t i = some c →
      AArch64.isPresent (entries m t i) = true ∧
        AArch64.physicalAddress (entries m t i) = c * 4096 :=
    fun hc => isPresent_of_graph_some aarch64Format_lawful hc
  unfold ttbr0Translation tablePath Arch.leafTranslates
  simp only [getEntry_frame]
  cases h0 : graph aarch64Format m root (tableIndex 39 virt) with
  | none => simp [PathGraph.walk_cons, h0, habsent h0]
  | some c0 =>
  obtain ⟨hp0, ha0⟩ := hpresent h0
  have hb0 := hnoBlock [] root _ (by simp) ⟨[tableIndex 30 virt, tableIndex 21 virt], rfl⟩ rfl hp0
  have hw0 : (graph aarch64Format m).walk root [tableIndex 39 virt] = some c0 :=
    (PathGraph.walk_concat_of_eq (p := []) rfl _).trans h0
  simp only [AArch64.isTable_of_isPresent hp0 hb0, ha0, getEntry_frame, Bool.not_true,
    Bool.false_eq_true, if_false]
  cases h1 : graph aarch64Format m c0 (tableIndex 30 virt) with
  | none => simp [PathGraph.walk_cons, h0, h1, habsent h1]
  | some c1 =>
  obtain ⟨hp1, ha1⟩ := hpresent h1
  have hb1 := hnoBlock [tableIndex 39 virt] c0 _ (by simp) ⟨[tableIndex 21 virt], rfl⟩ hw0 hp1
  have hw1 : (graph aarch64Format m).walk root [tableIndex 39 virt, tableIndex 30 virt] = some c1 :=
    (PathGraph.walk_concat_of_eq (p := [_]) hw0 _).trans h1
  simp only [AArch64.isTable_of_isPresent hp1 hb1, hb1, ha1, getEntry_frame, Bool.not_true,
    Bool.false_and, Bool.false_eq_true, if_false]
  cases h2 : graph aarch64Format m c1 (tableIndex 21 virt) with
  | none => simp [PathGraph.walk_cons, h0, h1, h2, habsent h2]
  | some c2 =>
  obtain ⟨hp2, ha2⟩ := hpresent h2
  have hb2 := hnoBlock [tableIndex 39 virt, tableIndex 30 virt] c1 _ (by simp) ⟨[], rfl⟩ hw1 hp2
  simp only [AArch64.isTable_of_isPresent hp2 hb2, hb2, ha2, getEntry_frame, Bool.not_true,
    Bool.false_and, Bool.false_eq_true, if_false, PathGraph.walk_cons, PathGraph.walk_nil, h0, h1, h2,
    Option.bind_some]

/-- For a private address the MMU follows the tables of the process to a leaf. -/
theorem Private.hardwareTranslation_eq (h : Private arch.format shared root s)
    (hv : tableIndex 39 a ∉ shared) (ha : Addressable arch a) :
    hardwareTranslation arch s.mem (root * 4096) a =
      ((graph arch.format s.mem).walk root (tablePath a)).bind fun t =>
        if arch.leafTranslates (entries s.mem t (tableIndex 12 a)) then
          some (arch.format.physicalAddress (entries s.mem t (tableIndex 12 a)) + a % 4096)
        else none := by
  cases arch with
  | x86_64 =>
    have htranslate := Private.translateAddr_eq (F := x86Format) x86Format_lawful h hv
    rw [hardwareTranslation_x86 s.mem _ ha, htranslate, represented, pagePath_pageNumber,
      leafIndex_pageNumber]
    rw [show Arch.x86_64.format = x86Format from rfl]
    cases (graph x86Format s.mem).walk root (tablePath a) with
    | none => rfl
    | some t =>
      rw [Option.bind_some, Option.bind_some, Format.binding]
      unfold Arch.leafTranslates
      rw [x86Format_isPresent]
      split_ifs
      · rfl
      · rfl
  | aarch64 =>
    have hdefined : hardwareTranslation .aarch64 s.mem (root * 4096) a =
        ttbr0Translation s.mem (root * 4096) a := if_pos ha
    rw [hdefined, ttbr0Translation_eq]
    · rfl
    · intro q t i hlen hq hw hp
      have hD := privatePaths_prefixClosed shared
      have hpath := hD (tablePath a) _ (tablePath_mem hv (tableIndex 12 a))
      exact h.noBlock q t i (hD.mem_of_isPrefix hpath hq) hlen hw hp

theorem Private.exists_leaf (h : Private arch.format shared root s) (hv : tableIndex 39 a ∉ shared)
    {phys : ℕ} (htr : hardwareTranslation arch s.mem (root * 4096) a = some phys) :
    ∃ t, (graph arch.format s.mem).walk root (tablePath a) = some t ∧
      arch.format.isPresent (entries s.mem t (tableIndex 12 a)) = true ∧
      phys = arch.format.physicalAddress (entries s.mem t (tableIndex 12 a)) + a % 4096 := by
  rw [h.hardwareTranslation_eq hv (addressable_of_translation htr)] at htr
  obtain ⟨t, ht, hleaf⟩ := Option.bind_eq_some_iff.mp htr
  split_ifs at hleaf with htranslates
  have hpresent : arch.format.isPresent (entries s.mem t (tableIndex 12 a)) = true := by
    cases arch with
    | x86_64 => exact htranslates
    | aarch64 =>
      have htable := (Bool.and_eq_true _ _ ▸ htranslates).1
      exact AArch64.isPresent_of_isTable htable
  exact ⟨t, ht, hpresent, (Option.some.inj hleaf).symm⟩

theorem Private.exists_frame (h : Private arch.format shared root s) (hv : tableIndex 39 a ∉ shared)
    {phys : ℕ} (htr : hardwareTranslation arch s.mem (root * 4096) a = some phys) :
    ∃ d, (graph arch.format s.mem).walk root (leafPath (pageNumber a)) = some d ∧
      phys = d * 4096 + a % 4096 := by
  obtain ⟨t, ht, hpresent, hphys⟩ := h.exists_leaf hv htr
  have hchild := graph_of_isPresent hpresent
  obtain ⟨-, haddress⟩ := isPresent_of_graph_some arch.format_lawful hchild
  refine ⟨arch.format.physicalAddress (entries s.mem t (tableIndex 12 a)) / 4096, ?_, ?_⟩
  · rw [leafPath_pageNumber, PathGraph.walk_concat_of_eq ht, hchild]
  · rw [← haddress]
    exact hphys

theorem Private.userByte_of_translation (h : Private arch.format shared root s)
    (hv : tableIndex 39 a ∉ shared) {phys : ℕ}
    (htr : hardwareTranslation arch s.mem (root * 4096) a = some phys) :
    userByte arch.format s.mem root a = some (s.mem phys) := by
  obtain ⟨t, ht, hpresent, hphys⟩ := h.exists_leaf hv htr
  rw [← pagePath_pageNumber] at ht
  have hbinding := represented_of_walk (F := arch.format) ht
  rw [leafIndex_pageNumber, Format.binding, if_pos hpresent] at hbinding
  rw [userByte, pageContent, hbinding, Option.map_some, Option.map_some, hphys]

theorem Private.hardwareTranslation_of_sameTables (h : Private arch.format shared root s)
    {m : Memory} (hsame : SameTables arch.format shared root s.mem m) (hv : tableIndex 39 a ∉ shared) :
    hardwareTranslation arch m (root * 4096) a = hardwareTranslation arch s.mem (root * 4096) a := by
  by_cases ha : Addressable arch a
  · have h' : Private arch.format shared root { s with mem := m } :=
      h.sameTables hsame h.reserved
    have hpath : tablePath a ∈ privatePaths shared :=
      privatePaths_prefixClosed shared _ _ (tablePath_mem hv (tableIndex 12 a))
    rw [h.hardwareTranslation_eq hv ha]
    change hardwareTranslation arch ({ s with mem := m } : Machine).mem (root * 4096) a = _
    rw [h'.hardwareTranslation_eq hv ha]
    change ((graph arch.format m).walk root (tablePath a)).bind _ = _
    rw [hsame.walk_eq _ hpath]
    cases ht : (graph arch.format s.mem).walk root (tablePath a) with
    | none => rfl
    | some t =>
      have hentry := entries_congr (hsame _ t hpath (le_refl 3) ht) (tableIndex 12 a)
      rw [Option.bind_some, Option.bind_some]
      dsimp only
      rw [hentry]
  · have hnone : ∀ m' : Memory, hardwareTranslation arch m' (root * 4096) a = none := by
      intro m'
      rw [Option.eq_none_iff_forall_ne_some]
      exact fun x hx => ha (addressable_of_translation hx)
    rw [hnone, hnone]

end Translation

section Stores
variable {arch : Arch} {F : Format} {shared : Set (Fin 512)} {root a b d : ℕ} {s : Machine}
  {m : Memory} (byte : BitVec 8)

/-- Two addresses that the MMU translates are the same when they agree in page and offset. -/
theorem Addressable.eq_of_page (ha : Addressable arch a) (hb : Addressable arch b)
    (hlt : a < 2 ^ 64) (hlt' : b < 2 ^ 64) (hpage : pageNumber a = pageNumber b)
    (hoffset : a % 4096 = b % 4096) : a = b := by
  have hval : a / 4096 % 2 ^ 36 = b / 4096 % 2 ^ 36 := congrArg Fin.val hpage
  cases arch with
  | x86_64 =>
    change a < 2 ^ 47 ∨ 2 ^ 64 - 2 ^ 47 ≤ a at ha
    change b < 2 ^ 47 ∨ 2 ^ 64 - 2 ^ 47 ≤ b at hb
    omega
  | aarch64 =>
    change a < 2 ^ 48 at ha
    change b < 2 ^ 48 at hb
    omega

/-- A change of memory that reaches only data pages of the process. -/
def WritesData (F : Format) (shared : Set (Fin 512)) (root : ℕ) (m m' : Memory) : Prop :=
  ∀ x, m' x ≠ m x → ∃ p ∈ privatePaths shared, p.length = 4 ∧
    (graph F m).walk root p = some (x / 4096)

theorem WritesData.refl (F : Format) (shared : Set (Fin 512)) (root : ℕ) (m : Memory) :
    WritesData F shared root m m := fun _ hne => absurd rfl hne

theorem WritesData.sameTables (h : Private F shared root s) (hw : WritesData F shared root s.mem m) :
    SameTables F shared root s.mem m := by
  intro q t hq hlen ht x hx
  by_contra hne
  obtain ⟨p, hp, hfour, hpx⟩ := hw x hne
  rw [hx] at hpx
  have heq := h.tree p hp q hq t hpx ht
  rw [heq] at hfour
  omega

theorem WritesData.isPrivate (h : Private F shared root s) (hw : WritesData F shared root s.mem m) :
    Private F shared root { s with mem := m } := h.sameTables (hw.sameTables h) h.reserved

/-- The tables are the same after the first change, so the second one reaches the same pages. -/
theorem WritesData.trans {m' : Memory} (h : Private F shared root s)
    (hw : WritesData F shared root s.mem m) (hw' : WritesData F shared root m m') :
    WritesData F shared root s.mem m' := by
  intro x hx
  by_cases hfirst : m x = s.mem x
  · obtain ⟨p, hp, hfour, hpx⟩ := hw' x (fun hcon => hx (hcon.trans hfirst))
    rw [(hw.sameTables h).walk_eq p hp] at hpx
    exact ⟨p, hp, hfour, hpx⟩
  · exact hw x hfirst

theorem blit_singleton_apply (m : Memory) (phys x : ℕ) :
    m.blit phys [byte] x = if x = phys then byte else m x := by
  by_cases hx : x = phys
  · rw [if_pos hx, hx]
    simp [Memory.blit]
  · rw [if_neg hx]
    apply Memory.blit_apply_of_disjoint
    rw [List.length_singleton]
    omega

theorem Private.writesData_store (h : Private arch.format shared root s)
    (hv : tableIndex 39 a ∉ shared) {phys : ℕ}
    (htr : hardwareTranslation arch s.mem (root * 4096) a = some phys) :
    WritesData arch.format shared root s.mem (s.mem.blit phys [byte]) := by
  obtain ⟨d, hd, rfl⟩ := h.exists_frame hv htr
  intro x hx
  rw [blit_singleton_apply] at hx
  split_ifs at hx with heq
  · have hframe : x / 4096 = d := by
      have hlt := mod_page_lt a
      omega
    have hmem : leafPath (pageNumber a) ∈ privatePaths shared :=
      leafPath_mem (topIndex_pageNumber a ▸ hv)
    exact ⟨_, hmem, rfl, hframe ▸ hd⟩
  · exact absurd rfl hx

/-- A store to a private address changes what the process finds there, and nothing else. -/
theorem Private.userByte_store (h : Private arch.format shared root s)
    (hv : tableIndex 39 a ∉ shared) {phys : ℕ}
    (htr : hardwareTranslation arch s.mem (root * 4096) a = some phys) (hlt : a < 2 ^ 64)
    (hb : Addressable arch b) (hvb : tableIndex 39 b ∉ shared) (hltb : b < 2 ^ 64) :
    userByte arch.format (s.mem.blit phys [byte]) root b =
      if b = a then some byte else userByte arch.format s.mem root b := by
  have ha := addressable_of_translation htr
  obtain ⟨d, hd, rfl⟩ := h.exists_frame hv htr
  have htop : topIndex (pageNumber a) ∉ shared := topIndex_pageNumber a ▸ hv
  have htop' : topIndex (pageNumber b) ∉ shared := topIndex_pageNumber b ▸ hvb
  have hroom : a % 4096 + [byte].length ≤ 4096 := mod_page_lt a
  have hpage := h.pageContent_blit arch.format_lawful htop hd hroom htop'
  rw [userByte, userByte, hpage]
  by_cases heq : pageNumber b = pageNumber a
  · rw [if_pos heq, heq]
    obtain ⟨c, hc⟩ : ∃ c, pageContent arch.format s.mem root (pageNumber a) = some c := by
      cases hrep : represented arch.format s.mem root (pageNumber a) with
      | none =>
        have hnone := represented_eq_none_iff.mp hrep
        rw [hd] at hnone
        exact absurd hnone (by simp)
      | some bind => exact ⟨_, by rw [pageContent, hrep, Option.map_some]⟩
    rw [hc, Option.map_some, Option.map_some, Option.map_some]
    by_cases hab : b = a
    · rw [if_pos hab, hab]
      simp [overwrite]
    · rw [if_neg hab]
      have hoffset : b % 4096 ≠ a % 4096 :=
        fun hcon => hab (Addressable.eq_of_page hb ha hltb hlt heq hcon)
      congr 1
      unfold overwrite
      dsimp only
      split_ifs with hle
      · rw [List.getD_eq_default _ _ (by rw [List.length_singleton]; omega)]
      · rfl
  · have hab : b ≠ a := fun hcon => heq (by rw [hcon])
    rw [if_neg heq, if_neg hab]

end Stores

end MitosOS.Paging
