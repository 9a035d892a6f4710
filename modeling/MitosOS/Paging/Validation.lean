import MitosOS.Paging.Dereference
import MitosOS.Paging.Rights

/-! `validate_user_range` on tables the kernel built itself: the check reads back the flags that
pages are currently mapped with. -/
namespace MitosOS.Paging
open MitosOS.Lib MitosOS.Memory

/-- The flags each page is currently mapped with. -/
abbrev FlagMap := PageNumber → Option MapFlags

/-- A root that starts zeroed and is edited by `map_page` and `unmap_page` alone, while the allocator
may change as long as it gets no table back. The index follows the calls that succeed. -/
inductive TableRun (F : Format) (root : ℕ) (s₀ : Machine) : FlagMap → Machine → Prop where
  | start (hzero : ZeroedRoot root s₀) : TableRun F root s₀ (fun _ => none) s₀
  | map {cur : FlagMap} {s : Machine} (h : TableRun F root s₀ cur s) (virt phys : ℕ)
    (flags : MapFlags) :
    TableRun F root s₀
      (if (mapPage F s (root * 4096) virt phys flags).1 = .ok () then
        Function.update cur (pageNumber virt) (some flags) else cur)
      (mapPage F s (root * 4096) virt phys flags).2
  | unmap {cur : FlagMap} {s : Machine} (h : TableRun F root s₀ cur s) (virt : ℕ) :
    TableRun F root s₀
      (if (unmapPage F s (root * 4096) virt).1 = .ok () then
        Function.update cur (pageNumber virt) none else cur)
      (unmapPage F s (root * 4096) virt).2
  | allocator {cur : FlagMap} {s : Machine} (h : TableRun F root s₀ cur s) (pmm : Pmm)
    (hpmm : ∀ t ∈ (graph F s.mem).nodes root tablePaths, ¬ pmm.IsFree t) :
    TableRun F root s₀ cur { s with pmm }

inductive LoopOutcome where
  | returned (accepted : Bool)
  | overflow
  | outOfFuel
  deriving DecidableEq, Repr

/-- The page loop with the addition to its cursor checked, for a given number of rounds. -/
def validateLoopChecked (F : Format) (m : Memory) (root lastPage : ℕ) (needWrite : Bool) :
    ℕ → ℕ → LoopOutcome
  | 0, _ => .outOfFuel
  | fuel + 1, page =>
    if !pageIsUserAccessible F m root page needWrite then .returned false
    else if page = lastPage then .returned true
    else if 2 ^ 64 ≤ page + 0x1000 then .overflow
    else validateLoopChecked F m root lastPage needWrite fuel (page + 0x1000)

section Loop
variable {F : Format} {m : Memory} {root : ℕ} {needWrite : Bool}

theorem validateLoopChecked_of_eq (n : ℕ) : ∀ {page fuel : ℕ} {b : Bool},
    page + n * 0x1000 < 2 ^ 64 → n < fuel →
    validateLoop F m root (page + n * 0x1000) needWrite (n + 1) page = some b →
    validateLoopChecked F m root (page + n * 0x1000) needWrite fuel page = .returned b := by
  induction n with
  | zero =>
    intro page fuel b _ hfuel hb
    obtain ⟨fuel, rfl⟩ := Nat.exists_eq_add_one_of_ne_zero (Nat.ne_zero_of_lt hfuel)
    rw [Nat.zero_mul, Nat.add_zero, validateLoop, if_pos (rfl : page = page)] at hb
    rw [Nat.zero_mul, Nat.add_zero, validateLoopChecked, if_pos (rfl : page = page)]
    split_ifs at hb ⊢
    · rw [Option.some.inj hb]
    · rw [Option.some.inj hb]
  | succ n ih =>
    intro page fuel b hend hfuel hb
    obtain ⟨fuel, rfl⟩ := Nat.exists_eq_add_one_of_ne_zero (Nat.ne_zero_of_lt hfuel)
    have hshift : page + (n + 1) * 0x1000 = page + 0x1000 + n * 0x1000 := by omega
    rw [validateLoop] at hb
    rw [validateLoopChecked]
    split_ifs at hb ⊢
    · rw [Option.some.inj hb]
    · rw [Option.some.inj hb]
    · omega
    · rw [hshift] at hb ⊢
      exact ih (by omega) (by omega) hb

theorem validateUserRange_loop {ptr len : ℕ} (hlen : 0 < len) (hov : ptr + len < 2 ^ 64)
    (hbase : userSpaceBase ≤ ptr) {fuel : ℕ}
    (hfuel : (alignDown (ptr + len - 1) 0x1000 - alignDown ptr 0x1000) / 0x1000 < fuel) :
    validateLoopChecked F m root (alignDown (ptr + len - 1) 0x1000) needWrite fuel
      (alignDown ptr 0x1000) = .returned (validateUserRange F m root ptr len needWrite) := by
  have hfirst := alignDown_mod ptr 0x1000
  have hlast := alignDown_mod (ptr + len - 1) 0x1000
  have hle := alignDown_le (ptr + len - 1) 0x1000
  have hlow := alignDown_le ptr 0x1000
  have hhigh := lt_alignDown_add (a := ptr + len - 1) (n := 0x1000) (by decide)
  generalize hn : (alignDown (ptr + len - 1) 0x1000 - alignDown ptr 0x1000) / 0x1000 = n at hfuel
  have hend : alignDown (ptr + len - 1) 0x1000 = alignDown ptr 0x1000 + n * 0x1000 := by omega
  unfold validateUserRange
  rw [if_neg (by omega), if_neg (by omega), if_neg (by omega)]
  dsimp only
  rw [hn, hend, validateLoop_eq, Option.getD_some]
  exact validateLoopChecked_of_eq n (by omega) hfuel (validateLoop_eq F m root _ needWrite n)

end Loop

section Runs
variable {F : Format} {arch : Arch} {root : ℕ} {s₀ s : Machine} {cur : FlagMap} {needWrite : Bool}

theorem TableRun.represented (hF : F.Lawful) (h : TableRun F root s₀ cur s) :
    WellFormed F root s ∧ ∀ p, (represented F s.mem root p).map Binding.attributes =
      (cur p).map F.encodeFlags := by
  induction h with
  | start hzero =>
    refine ⟨hzero.wellFormed hF, fun p => ?_⟩
    rw [hzero.represented_eq hF, Option.map_none, Option.map_none]
  | @map cur s h virt phys flags ih =>
    obtain ⟨r, s', heq, hwf, -, hrep⟩ := ih.1.mapPage_leaf hF virt phys flags
    rw [heq]
    refine ⟨hwf, fun p => ?_⟩
    dsimp only
    rw [hrep]
    split_ifs
    · by_cases hp : p = pageNumber virt
      · rw [hp, Function.update_self, Function.update_self, Format.binding, hF.isPresent_leaf,
          if_pos rfl, Option.map_some, Option.map_some, hF.attributes_leaf]
      · rw [Function.update_of_ne hp, Function.update_of_ne hp, ih.2]
    · exact ih.2 p
  | @unmap cur s h virt ih =>
    obtain ⟨r, s', heq, hwf, -, hrep⟩ := ih.1.unmapPage hF virt
    rw [heq]
    refine ⟨hwf, fun p => ?_⟩
    dsimp only
    rw [hrep]
    split_ifs
    · by_cases hp : p = pageNumber virt
      · rw [hp, Function.update_self, Function.update_self, Option.map_none, Option.map_none]
      · rw [Function.update_of_ne hp, Function.update_of_ne hp, ih.2]
    · exact ih.2 p
  | allocator h pmm hpmm ih => exact ⟨⟨ih.1.tree, hpmm, ih.1.noBlock⟩, ih.2⟩

theorem pageIsUserAccessible_eq (arch : Arch) (m : Memory) (root a : ℕ) (needWrite : Bool) :
    pageIsUserAccessible arch.format m (root * 4096) a needWrite =
      (Paging.represented arch.format m root (pageNumber a)).any fun b =>
        (arch.leafRights b.attributes).user &&
          (!needWrite || (arch.leafRights b.attributes).writable) := by
  have huser : ∀ e, (arch.leafRights e).user = arch.format.isUserAccessible e := by
    cases arch <;> exact fun e => rfl
  have hwritable : ∀ e, (arch.leafRights e).writable = arch.format.isWritable e := by
    cases arch <;> exact fun e => rfl
  unfold pageIsUserAccessible Paging.represented
  rw [walkTables_eq arch.format_lawful, pagePath_pageNumber, leafIndex_pageNumber]
  cases (graph arch.format m).walk root (tablePath a) with
  | none => rfl
  | some t =>
    rw [Option.map_some, Option.bind_some, Format.binding]
    dsimp only
    rw [getEntry_frame]
    split_ifs with hp
    · rw [Option.any_some]
      dsimp only
      rw [arch.leafRights_attributes, huser, hwritable, hp, Bool.true_and]
    · rw [Bool.not_eq_true] at hp
      rw [hp, Bool.false_and, Bool.false_and]
      rfl

/-- A page passes the check when it is currently mapped with the flags that are asked for. -/
theorem TableRun.accessible_iff (h : TableRun arch.format root s₀ cur s) (a : ℕ) :
    pageIsUserAccessible arch.format s.mem (root * 4096) a needWrite = true ↔
      ∃ flags, cur (pageNumber a) = some flags ∧ flags.userAccessible = true ∧
        (needWrite = true → flags.writable = true) := by
  have hcur := (h.represented arch.format_lawful).2 (pageNumber a)
  rw [pageIsUserAccessible_eq]
  cases hrep : Paging.represented arch.format s.mem root (pageNumber a) with
  | none =>
    rw [hrep, Option.map_none] at hcur
    rw [Option.map_eq_none_iff.mp hcur.symm]
    simp
  | some b =>
    rw [hrep, Option.map_some] at hcur
    obtain ⟨flags, hflags, hattributes⟩ := Option.map_eq_some_iff.mp hcur.symm
    rw [Option.any_some, ← hattributes, arch.leafRights_encodeFlags, hflags]
    cases needWrite <;> simp

/-- Range validation is exact on tables the kernel built: a range passes when it is empty, or when it
does not wrap, starts in user space and each of its pages is currently mapped with the flags asked
for. The page loop needs one round per page and never overflows its cursor. -/
theorem validateUserRange_exact (arch : Arch) (root : ℕ) (s₀ s : Machine) (cur : FlagMap)
    (hrun : TableRun arch.format root s₀ cur s) (ptr len : ℕ) (needWrite : Bool) :
    (validateUserRange arch.format s.mem (root * 4096) ptr len needWrite = true ↔
      len = 0 ∨ ptr + len < 2 ^ 64 ∧ userSpaceBase ≤ ptr ∧
        ∀ n, ptr / 4096 ≤ n → n ≤ (ptr + len - 1) / 4096 →
          ∃ flags, cur (pageNumber (n * 4096)) = some flags ∧ flags.userAccessible = true ∧
            (needWrite = true → flags.writable = true)) ∧
    (0 < len → ptr + len < 2 ^ 64 → userSpaceBase ≤ ptr →
      ∀ fuel, (ptr + len - 1) / 4096 - ptr / 4096 < fuel →
        validateLoopChecked arch.format s.mem (root * 4096) (alignDown (ptr + len - 1) 0x1000)
          needWrite fuel (alignDown ptr 0x1000) =
        .returned (validateUserRange arch.format s.mem (root * 4096) ptr len needWrite)) := by
  constructor
  · rcases Nat.eq_zero_or_pos len with rfl | hlen
    · simp [validateUserRange]
    rw [validateUserRange_eq_true hlen]
    have hpage : ∀ a, pageNumber (a / 4096 * 4096) = pageNumber a := by
      intro a
      apply Fin.ext
      change a / 4096 * 4096 / 4096 % 2 ^ 36 = a / 4096 % 2 ^ 36
      rw [Nat.mul_div_cancel _ (by decide)]
    constructor
    · rintro ⟨hov, hbase, hall⟩
      refine Or.inr ⟨hov, hbase, fun n hlo hhi => ?_⟩
      -- the first page may start below the range; every other page starts inside it
      rcases hlo.eq_or_lt with rfl | hlo
      · rw [hpage, ← hrun.accessible_iff]
        exact hall ptr (le_refl _) (by omega)
      · rw [← hrun.accessible_iff]
        exact hall _ (by omega) (by omega)
    · rintro (hzero | ⟨hov, hbase, hall⟩)
      · omega
      · refine ⟨hov, hbase, fun a hlo hhi => ?_⟩
        rw [hrun.accessible_iff, ← hpage]
        exact hall _ (Nat.div_le_div_right hlo) (Nat.div_le_div_right (by omega))
  · intro hlen hov hbase fuel hfuel
    apply validateUserRange_loop hlen hov hbase
    have hfirst := alignDown_div ptr 0x1000
    have hlast := alignDown_div (ptr + len - 1) 0x1000
    have hmod := alignDown_mod ptr 0x1000
    have hmod' := alignDown_mod (ptr + len - 1) 0x1000
    omega

/-- With one page mapped, a range that ends at its last byte passes and one byte more does not. -/
theorem validateUserRange_exact_onePage :
    ∃ cur, TableRun x86Format 1 zeroedMachine cur onePage ∧
      validateUserRange x86Format onePage.mem (1 * 4096) 0x8000000FF0 0x10 true = true ∧
      ¬ validateUserRange x86Format onePage.mem (1 * 4096) 0x8000000FF0 0x11 true = true := by
  have hrun := TableRun.map (F := x86Format) (.start zeroedMachine_zeroedRoot) 0x8000000000 0x200000
    userFlags
  rw [if_pos onePage_ok] at hrun
  refine ⟨_, hrun, ?_, ?_⟩
  · refine (validateUserRange_exact .x86_64 1 _ _ _ hrun 0x8000000FF0 0x10 true).1.mpr
      (Or.inr ⟨by decide, by decide, fun n hlo hhi => ⟨userFlags, ?_, rfl, fun _ => rfl⟩⟩)
    obtain rfl : n = 0x8000000 := by omega
    exact Function.update_self ..
  · intro hvalid
    rcases (validateUserRange_exact .x86_64 1 _ _ _ hrun 0x8000000FF0 0x11 true).1.mp hvalid with
      hlen | ⟨-, -, hall⟩
    · exact absurd hlen (by decide)
    · obtain ⟨flags, hflags, -⟩ := hall 0x8000001 (by decide) (by decide)
      rw [Function.update_of_ne (by decide)] at hflags
      exact absurd hflags (by simp)

end Runs

end MitosOS.Paging
