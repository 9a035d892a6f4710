import MitosOS.Paging.Translation
import MitosOS.Paging.UserPages

/-! What the MMU lets user mode do at a page: the rights of its leaf, as far as the tables above let
them through. -/
namespace MitosOS.Paging
open MitosOS.Lib MitosOS.Memory

structure Rights where
  user : Bool
  writable : Bool
  executeDisable : Bool
  deriving DecidableEq, Repr

/-- The rights that two entries on one walk leave. -/
def Rights.inter (r r' : Rights) : Rights where
  user := r.user && r'.user
  writable := r.writable && r'.writable
  executeDisable := r.executeDisable || r'.executeDisable

/-- What a table entry lets through. On aarch64 the bits are APTable[0], APTable[1] and UXNTable. -/
def Arch.tableRights : Arch → Entry → Rights
  | .x86_64, e => ⟨X86.isUserAccessible e, X86.isWritable e, e.getLsbD 63⟩
  | .aarch64, e => ⟨!e.getLsbD 61, !e.getLsbD 62, e.getLsbD 60⟩

/-- What a leaf allows. On aarch64 the execute bit is UXN. -/
def Arch.leafRights : Arch → Entry → Rights
  | .x86_64, e => ⟨X86.isUserAccessible e, X86.isWritable e, e.getLsbD 63⟩
  | .aarch64, e => ⟨AArch64.isUserAccessible e, AArch64.isWritable e, e.getLsbD 54⟩

def Arch.rights (arch : Arch) (path : List Entry) : Rights :=
  path.dropLast.foldr (fun e => (arch.tableRights e).inter) (arch.leafRights (path.getLastD 0#64))

def GrantsAll (arch : Arch) (e : Entry) : Prop := arch.tableRights e = ⟨true, true, false⟩

section Bits

theorem X86.isWritable_eq (e : Entry) : X86.isWritable e = e.getLsbD 1 :=
  land_shift_ne_zero e (by decide : 1 < 64)

theorem X86.isUserAccessible_eq (e : Entry) : X86.isUserAccessible e = e.getLsbD 2 :=
  land_shift_ne_zero e (by decide : 2 < 64)

theorem AArch64.isUserAccessible_eq (e : Entry) : AArch64.isUserAccessible e = e.getLsbD 6 :=
  land_shift_ne_zero e (by decide : 6 < 64)

theorem AArch64.isWritable_eq (e : Entry) : AArch64.isWritable e = !e.getLsbD 7 := by
  rw [← land_shift_ne_zero e (by decide : 7 < 64), AArch64.isWritable, bne, Bool.not_not]

theorem Format.getLsbD_attributes (F : Format) (e : Entry) {k : ℕ}
    (hk : (~~~F.addressMask).getLsbD k = true) : (F.attributes e).getLsbD k = e.getLsbD k := by
  rw [Format.attributes, BitVec.getLsbD_and, hk, Bool.and_true]

theorem Arch.leafRights_attributes (arch : Arch) (e : Entry) :
    arch.leafRights (arch.format.attributes e) = arch.leafRights e := by
  have hbit : ∀ k, (~~~arch.format.addressMask).getLsbD k = true →
      (arch.format.attributes e).getLsbD k = e.getLsbD k :=
    fun k hk => arch.format.getLsbD_attributes e hk
  cases arch with
  | x86_64 =>
    simp only [Arch.leafRights, X86.isUserAccessible_eq, X86.isWritable_eq, hbit 2 (by decide),
      hbit 1 (by decide), hbit 63 (by decide)]
  | aarch64 =>
    simp only [Arch.leafRights, AArch64.isUserAccessible_eq, AArch64.isWritable_eq,
      hbit 6 (by decide), hbit 7 (by decide), hbit 54 (by decide)]

/-- The leaf that `map_page` writes grants what its flags say. -/
theorem Arch.leafRights_encodeFlags (arch : Arch) (flags : MapFlags) :
    arch.leafRights (arch.format.encodeFlags flags) =
      ⟨flags.userAccessible, flags.writable, flags.executeDisable⟩ := by
  obtain ⟨w, u, x, d⟩ := flags
  revert arch w u x d
  intro arch
  cases arch with
  | x86_64 => decide
  | aarch64 => decide

theorem grantsAll_table (arch : Arch) (frame : ℕ) : GrantsAll arch (arch.format.table frame) := by
  cases arch with
  | x86_64 =>
    have hbit : ∀ k, X86.addressMask.getLsbD k = false →
        (X86.setFrame frame tableFlags).getLsbD k = (X86.setFrame 0 tableFlags).getLsbD k := by
      intro k hk
      rw [X86.setFrame_eq, BitVec.getLsbD_or, BitVec.getLsbD_and, hk, Bool.and_false, Bool.false_or]
    change Rights.mk _ _ _ = _
    rw [X86.isUserAccessible_eq, X86.isWritable_eq]
    simp only [Arch.format, x86Format, hbit 2 (by decide), hbit 1 (by decide), hbit 63 (by decide)]
    decide
  | aarch64 =>
    have hbit : ∀ k, AArch64.addressMask.getLsbD k = false →
        (AArch64.setFrame frame tableFlags true).getLsbD k =
          (AArch64.setFrame 0 tableFlags true).getLsbD k := by
      intro k hk
      rw [AArch64.setFrame_eq, BitVec.getLsbD_or, BitVec.getLsbD_and, hk, Bool.and_false,
        Bool.false_or]
    change Rights.mk _ _ _ = _
    simp only [Arch.format, aarch64Format, hbit 61 (by decide), hbit 62 (by decide),
      hbit 60 (by decide)]
    decide

/-- New tables take no right away, and marking an entry user-accessible takes none away either. -/
theorem grantsAll_tableRule (arch : Arch) : TableRule arch.format (GrantsAll arch) where
  table := grantsAll_table arch
  upgrade := by
    intro up hup e he
    cases arch with
    | x86_64 =>
      obtain rfl : X86.ensureUserAccessible = up := Option.some.inj hup
      have hupgraded : Upgraded e (X86.ensureUserAccessible e) := Or.inr rfl
      have hnx : e.getLsbD 63 = false := congrArg Rights.executeDisable he
      have hwritable : X86.isWritable e = true := congrArg Rights.writable he
      change Rights.mk _ _ _ = _
      rw [X86.isUserAccessible_ensureUserAccessible, hupgraded.isWritable, hwritable,
        hupgraded.getLsbD (by decide) (by decide), hnx]
    | aarch64 => exact Option.noConfusion rfl (heq_of_eq hup)

end Bits

section Walk
variable {F : Format} {arch : Arch} {shared : Set (Fin 512)} {root virt t : ℕ} {s : Machine}

theorem rights_of_grantsAll {upper : List Entry} (h : ∀ e ∈ upper, GrantsAll arch e) (leaf : Entry) :
    arch.rights (upper ++ [leaf]) = arch.leafRights leaf := by
  rw [Arch.rights, List.dropLast_concat, List.getLastD_concat]
  induction upper with
  | nil => rfl
  | cons e upper ih =>
    have he : arch.tableRights e = ⟨true, true, false⟩ := h e List.mem_cons_self
    rw [List.foldr_cons, ih fun e' he' => h e' (List.mem_cons_of_mem _ he'), he]
    rfl

theorem Private.mmuWalk_eq (hF : F.Lawful) (h : Private F shared root s)
    (hv : tableIndex 39 virt ∉ shared)
    (ht : (graph F s.mem).walk root (tablePath virt) = some t) :
    ∃ upper, mmuWalk F s.mem (root * 4096) virt = upper ++ [entries s.mem t (tableIndex 12 virt)] ∧
      ∀ P, UpperEntries F P shared root s.mem → ∀ e ∈ upper, P e := by
  obtain ⟨c0, h0, ht⟩ := Option.bind_eq_some_iff.mp ht
  obtain ⟨c1, h1, ht⟩ := Option.bind_eq_some_iff.mp ht
  obtain ⟨c2, h2, ht⟩ := Option.bind_eq_some_iff.mp ht
  obtain rfl : c2 = t := Option.some.inj ht
  have hw0 : (graph F s.mem).walk root [tableIndex 39 virt] = some c0 :=
    (PathGraph.walk_concat_of_eq (p := []) rfl _).trans h0
  have hw1 : (graph F s.mem).walk root [tableIndex 39 virt, tableIndex 30 virt] = some c1 :=
    (PathGraph.walk_concat_of_eq (p := [_]) hw0 _).trans h1
  obtain ⟨hp0, ha0⟩ := isPresent_of_graph_some hF h0
  obtain ⟨hp1, ha1⟩ := isPresent_of_graph_some hF h1
  obtain ⟨hp2, ha2⟩ := isPresent_of_graph_some hF h2
  have hpath : ∀ l : List (Fin 512), l.length ≤ 3 → tableIndex 39 virt :: l ∈ privatePaths shared :=
    fun l hl => mem_privatePaths_cons hv hl
  have hb1 := h.noBlock _ _ _ (hpath [tableIndex 30 virt] (by simp)) (by simp) hw0 hp1
  have hb2 := h.noBlock _ _ _ (hpath [tableIndex 30 virt, tableIndex 21 virt] (by simp)) (by simp)
    hw1 hp2
  refine ⟨[entries s.mem root (tableIndex 39 virt), entries s.mem c0 (tableIndex 30 virt),
    entries s.mem c1 (tableIndex 21 virt)], ?_, ?_⟩
  · unfold mmuWalk
    simp only [getEntry_frame, hp0, ha0, hp1, ha1, hb1, hp2, ha2, hb2, Bool.not_true,
      Bool.or_false, Bool.false_eq_true, if_false, List.cons_append, List.nil_append]
  · intro P hup
    simp only [List.forall_mem_cons]
    refine ⟨?_, ?_, ?_, fun e he => absurd he List.not_mem_nil⟩
    · exact hup [] root _ (hpath [] (by simp)) (by simp) rfl hp0
    · exact hup [tableIndex 39 virt] c0 _ (hpath [tableIndex 30 virt] (by simp)) (by simp) hw0 hp1
    · exact hup [tableIndex 39 virt, tableIndex 30 virt] c1 _
        (hpath [tableIndex 30 virt, tableIndex 21 virt] (by simp)) (by simp) hw1 hp2

/-- A private page below tables that take nothing away has the rights it was mapped with. -/
theorem Private.rights_eq (h : Private arch.format shared root s)
    (hup : UpperEntries arch.format (GrantsAll arch) shared root s.mem)
    (hv : tableIndex 39 virt ∉ shared) {b : Binding} {flags : MapFlags}
    (hb : represented arch.format s.mem root (pageNumber virt) = some b)
    (hflags : b.attributes = arch.format.encodeFlags flags) :
    arch.rights (mmuWalk arch.format s.mem (root * 4096) virt) =
      ⟨flags.userAccessible, flags.writable, flags.executeDisable⟩ := by
  have hF := arch.format_lawful
  obtain ⟨t, -, ht, -⟩ := exists_of_represented hF hb
  rw [represented_of_walk ht, leafIndex_pageNumber, Format.binding] at hb
  rw [pagePath_pageNumber] at ht
  split_ifs at hb
  obtain ⟨upper, hwalk, hupper⟩ := h.mmuWalk_eq hF hv ht
  have hattributes : arch.format.attributes (entries s.mem t (tableIndex 12 virt)) =
      arch.format.encodeFlags flags := by
    rw [← hflags, ← Option.some.inj hb]
  rw [hwalk, rights_of_grantsAll (hupper _ hup), ← arch.leafRights_attributes, hattributes,
    arch.leafRights_encodeFlags]

end Walk

end MitosOS.Paging
