import MitosOS.Paging.Operations

/-! The syscall layer's pointer check against the walk the x86_64 MMU performs. -/
namespace MitosOS.Paging
open MitosOS.Lib MitosOS.Memory

/-- Check one page by following present entries; only the leaf's permissions are read. -/
def pageIsUserAccessible (F : Format) (m : Memory) (root virt : ℕ) (needWrite : Bool) : Bool :=
  match walkTables F m root (tablePath virt) with
  | none => false
  | some l3 =>
    let leaf := getEntry m l3 (tableIndex 12 virt)
    F.isPresent leaf && F.isUserAccessible leaf && (!needWrite || F.isWritable leaf)

/-- The page loop of `validate_user_range`; `none` when the fuel runs out. -/
def validateLoop (F : Format) (m : Memory) (root lastPage : ℕ) (needWrite : Bool) :
    ℕ → ℕ → Option Bool
  | 0, _ => none
  | fuel + 1, page =>
    if !pageIsUserAccessible F m root page needWrite then some false
    else if page = lastPage then some true
    else validateLoop F m root lastPage needWrite fuel (page + 0x1000)

/-- The fuel is the number of pages from the first to the last one. -/
def validateUserRange (F : Format) (m : Memory) (root ptr len : ℕ) (needWrite : Bool) : Bool :=
  if len = 0 then true
  else if 2 ^ 64 ≤ ptr + len then false
  else if ptr < userSpaceBase then false
  else
    let firstPage := alignDown ptr 0x1000
    let lastPage := alignDown (ptr + len - 1) 0x1000
    (validateLoop F m root lastPage needWrite ((lastPage - firstPage) / 0x1000 + 1)
      firstPage).getD false

theorem validateLoop_eq (F : Format) (m : Memory) (root page : ℕ) (needWrite : Bool) (n : ℕ) :
    validateLoop F m root (page + n * 0x1000) needWrite (n + 1) page =
      some (decide (∀ k ≤ n, pageIsUserAccessible F m root (page + k * 0x1000) needWrite = true)) := by
  induction n generalizing page with
  | zero =>
    rw [validateLoop]
    by_cases hok : pageIsUserAccessible F m root page needWrite = true
    · simp [hok]
    · simp [hok]
  | succ n ih =>
    rw [validateLoop]
    by_cases hok : pageIsUserAccessible F m root page needWrite = true
    · have hne : page ≠ page + (n + 1) * 0x1000 := by omega
      have hshift : ∀ k, page + (k + 1) * 0x1000 = page + 0x1000 + k * 0x1000 := fun k => by omega
      rw [hok, Bool.not_true, if_neg Bool.false_ne_true, if_neg hne, hshift, ih]
      congr 1
      rw [decide_eq_decide]
      constructor
      · intro h k hk
        cases k with
        | zero => simpa using hok
        | succ k =>
          rw [hshift]
          exact h k (by omega)
      · intro h k hk
        rw [← hshift]
        exact h (k + 1) (by omega)
    · have hbad : ¬ ∀ k ≤ n + 1,
          pageIsUserAccessible F m root (page + k * 0x1000) needWrite = true :=
        fun h => hok (by simpa using h 0 (by omega))
      simp [hok, hbad]

theorem tableIndex_alignDown {shift : ℕ} (hs : 12 ≤ shift) (a : ℕ) :
    tableIndex shift (alignDown a 0x1000) = tableIndex shift a := by
  refine Fin.ext ?_
  rw [tableIndex_val, tableIndex_val, show shift = 12 + (shift - 12) by omega, Nat.pow_add,
    ← Nat.div_div_eq_div_mul, ← Nat.div_div_eq_div_mul]
  exact congrArg (fun x => x / 2 ^ (shift - 12) % 512) (alignDown_div a 0x1000)

theorem pageIsUserAccessible_alignDown (F : Format) (m : Memory) (root a : ℕ) (needWrite : Bool) :
    pageIsUserAccessible F m root (alignDown a 0x1000) needWrite =
      pageIsUserAccessible F m root a needWrite := by
  unfold pageIsUserAccessible tablePath
  rw [tableIndex_alignDown (by decide), tableIndex_alignDown (by decide),
    tableIndex_alignDown (by decide), tableIndex_alignDown (by decide)]

theorem validateUserRange_eq_true {F : Format} {m : Memory} {root ptr len : ℕ} {needWrite : Bool}
    (hlen : 0 < len) :
    validateUserRange F m root ptr len needWrite = true ↔
      ptr + len < 2 ^ 64 ∧ userSpaceBase ≤ ptr ∧
        ∀ a, ptr ≤ a → a < ptr + len → pageIsUserAccessible F m root a needWrite = true := by
  unfold validateUserRange
  rw [if_neg (by omega)]
  by_cases hov : 2 ^ 64 ≤ ptr + len
  · rw [if_pos hov]
    simp only [Bool.false_eq_true, false_iff]
    exact fun h => absurd hov (Nat.not_le_of_lt h.1)
  by_cases hlow : ptr < userSpaceBase
  · rw [if_neg hov, if_pos hlow]
    simp only [Bool.false_eq_true, false_iff]
    exact fun h => absurd hlow (Nat.not_lt_of_le h.2.1)
  rw [if_neg hov, if_neg hlow]
  have hfirst := alignDown_mod ptr 0x1000
  have hlast := alignDown_mod (ptr + len - 1) 0x1000
  have hle : alignDown ptr 0x1000 ≤ alignDown (ptr + len - 1) 0x1000 := by
    have h1 := alignDown_le ptr 0x1000
    have h2 := lt_alignDown_add (a := ptr + len - 1) (n := 0x1000) (by decide)
    omega
  obtain ⟨n, hn⟩ : ∃ n, alignDown (ptr + len - 1) 0x1000 = alignDown ptr 0x1000 + n * 0x1000 :=
    ⟨(alignDown (ptr + len - 1) 0x1000 - alignDown ptr 0x1000) / 0x1000, by omega⟩
  have hfuel : (alignDown ptr 0x1000 + n * 0x1000 - alignDown ptr 0x1000) / 0x1000 = n := by omega
  simp only [hn, hfuel, validateLoop_eq, Option.getD_some, decide_eq_true_eq]
  constructor
  · intro h
    refine ⟨by omega, by omega, fun a ha ha' => ?_⟩
    have h1 := lt_alignDown_add (a := ptr + len - 1) (n := 0x1000) (by decide)
    have h2 := alignDown_mod a 0x1000
    have h3 := alignDown_le a 0x1000
    have h4 := lt_alignDown_add (a := a) (n := 0x1000) (by decide)
    have h5 := alignDown_le ptr 0x1000
    have hk := h ((alignDown a 0x1000 - alignDown ptr 0x1000) / 0x1000) (by omega)
    rw [show alignDown ptr 0x1000 + (alignDown a 0x1000 - alignDown ptr 0x1000) / 0x1000 * 0x1000 =
      alignDown a 0x1000 by omega, pageIsUserAccessible_alignDown] at hk
    exact hk
  · rintro ⟨-, -, h⟩ k hk
    have h1 := alignDown_le (ptr + len - 1) 0x1000
    have h2 := lt_alignDown_add (a := ptr) (n := 0x1000) (by decide)
    -- the first page may start below `ptr`; every other page starts inside the range
    by_cases hk0 : k = 0
    · subst hk0
      rw [Nat.zero_mul, Nat.add_zero, pageIsUserAccessible_alignDown]
      exact h ptr (le_refl _) (by omega)
    · exact h _ (by omega) (by omega)

/-- The entries the x86_64 MMU reads for an address, root first, when the walk ends at a present
leaf: a PTE, or a PDPT or PD entry with bit 7 set. -/
def hardwareWalk (m : Memory) (root virt : ℕ) : Option (List Entry) :=
  let e4 := getEntry m root (tableIndex 39 virt)
  if !X86.isPresent e4 then none
  else
    let e3 := getEntry m (X86.physicalAddress e4) (tableIndex 30 virt)
    if !X86.isPresent e3 then none
    else if X86.isHuge e3 then some [e4, e3]
    else
      let e2 := getEntry m (X86.physicalAddress e3) (tableIndex 21 virt)
      if !X86.isPresent e2 then none
      else if X86.isHuge e2 then some [e4, e3, e2]
      else
        let e1 := getEntry m (X86.physicalAddress e2) (tableIndex 12 virt)
        if !X86.isPresent e1 then none else some [e4, e3, e2, e1]

/-- An entry lets ring 3 through: U/S, and R/W for a write. -/
def Grants (needWrite : Bool) (e : Entry) : Prop :=
  X86.isUserAccessible e = true ∧ (needWrite = true → X86.isWritable e = true)

/-- The MMU allows a ring-3 access: the walk ends at a leaf and every entry on it grants. -/
def Ring3Allowed (m : Memory) (root virt : ℕ) (needWrite : Bool) : Prop :=
  ∃ path, hardwareWalk m root virt = some path ∧ ∀ e ∈ path, Grants needWrite e

instance (needWrite : Bool) (e : Entry) : Decidable (Grants needWrite e) :=
  inferInstanceAs (Decidable (_ ∧ _))

/-- The permissions the check does not read: those of the PML4 and PDPT entries, and of the PD
entry unless the PDPT entry is itself a 1 GiB leaf. -/
def UpperEntriesGrant (m : Memory) (root virt : ℕ) (needWrite : Bool) : Prop :=
  let e4 := getEntry m root (tableIndex 39 virt)
  let e3 := getEntry m (X86.physicalAddress e4) (tableIndex 30 virt)
  let e2 := getEntry m (X86.physicalAddress e3) (tableIndex 21 virt)
  Grants needWrite e4 ∧ Grants needWrite e3 ∧ (X86.isHuge e3 = true ∨ Grants needWrite e2)

theorem pageIsUserAccessible_x86 {m : Memory} {root virt : ℕ} {needWrite : Bool}
    (h : pageIsUserAccessible x86Format m root virt needWrite = true) :
    let e4 := getEntry m root (tableIndex 39 virt)
    let e3 := getEntry m (X86.physicalAddress e4) (tableIndex 30 virt)
    let e2 := getEntry m (X86.physicalAddress e3) (tableIndex 21 virt)
    let e1 := getEntry m (X86.physicalAddress e2) (tableIndex 12 virt)
    X86.isPresent e4 = true ∧ X86.isPresent e3 = true ∧ X86.isPresent e2 = true ∧
      X86.isPresent e1 = true ∧ Grants needWrite e1 := by
  intro e4 e3 e2 e1
  have hwalk : walkTables x86Format m root (tablePath virt) =
      if X86.isPresent e4 then if X86.isPresent e3 then if X86.isPresent e2 then
        some (X86.physicalAddress e2) else none else none else none := rfl
  unfold pageIsUserAccessible at h
  rw [hwalk] at h
  split_ifs at h with h4 h3 h2
  have hleaf : (X86.isPresent e1 && X86.isUserAccessible e1 &&
      (!needWrite || X86.isWritable e1)) = true := h
  rw [Bool.and_eq_true, Bool.and_eq_true, Bool.or_eq_true, Bool.not_eq_true'] at hleaf
  obtain ⟨⟨hp, hu⟩, hw⟩ := hleaf
  refine ⟨h4, h3, h2, hp, hu, fun hneed => hw.resolve_left ?_⟩
  rw [hneed]
  decide

/-- For an accepted page, hardware access is exactly a matter of the upper entries. -/
theorem ring3Allowed_iff_upper {m : Memory} {root virt : ℕ} {needWrite : Bool}
    (h : pageIsUserAccessible x86Format m root virt needWrite = true) :
    Ring3Allowed m root virt needWrite ↔ UpperEntriesGrant m root virt needWrite := by
  obtain ⟨h4, h3, h2, h1, hg1⟩ := pageIsUserAccessible_x86 h
  unfold Ring3Allowed hardwareWalk UpperEntriesGrant
  simp only [h4, h3, h2, h1, Bool.not_true, Bool.false_eq_true, if_false]
  generalize getEntry m root (tableIndex 39 virt) = e4 at *
  generalize getEntry m (X86.physicalAddress e4) (tableIndex 30 virt) = e3 at *
  generalize getEntry m (X86.physicalAddress e3) (tableIndex 21 virt) = e2 at *
  generalize getEntry m (X86.physicalAddress e2) (tableIndex 12 virt) = e1 at *
  by_cases hh3 : X86.isHuge e3 = true
  · simp [hh3]
  by_cases hh2 : X86.isHuge e2 = true
  · simp [hh3, hh2]
  · simp [hh3, hh2, hg1]

/-- Validation is sound for a range exactly when, should every page of it pass the check, the
upper entries of every page also let ring 3 through. -/
theorem validateUserRange_sound_iff (m : Memory) (root ptr len : ℕ) (needWrite : Bool) :
    (validateUserRange x86Format m root ptr len needWrite = true →
      ∀ a, ptr ≤ a → a < ptr + len → Ring3Allowed m root a needWrite) ↔
    (ptr + len < 2 ^ 64 → userSpaceBase ≤ ptr →
      (∀ a, ptr ≤ a → a < ptr + len → pageIsUserAccessible x86Format m root a needWrite = true) →
      ∀ a, ptr ≤ a → a < ptr + len → UpperEntriesGrant m root a needWrite) := by
  rcases Nat.eq_zero_or_pos len with rfl | hlen
  · constructor
    · intro _ _ _ _ a ha ha'
      omega
    · intro _ _ a ha ha'
      omega
  rw [validateUserRange_eq_true hlen]
  constructor
  · intro h hov hbase hpages a ha ha'
    exact (ring3Allowed_iff_upper (hpages a ha ha')).mp (h ⟨hov, hbase, hpages⟩ a ha ha')
  · rintro h ⟨hov, hbase, hpages⟩ a ha ha'
    exact (ring3Allowed_iff_upper (hpages a ha ha')).mpr (h hov hbase hpages a ha ha')

/-- The path the Multiboot2 trampoline installs at PML4[256], down to the 2 MiB leaf for physical
0, and a word at physical 0 that happens to read as a user PTE. -/
def multibootAlias : Memory :=
  let m : Memory := fun _ => 0
  let m := setEntry m 0x1000 256 0x2003#64
  let m := setEntry m 0x2000 0 0x3003#64
  let m := setEntry m 0x3000 0 0x83#64
  setEntry m 0 0 0x7#64

/-- The supervisor-only alias of physical memory passes the check: the walk takes the 2 MiB leaf
for a table and reads its permissions from ordinary memory. -/
theorem validateUserRange_accepts_supervisor :
    validateUserRange x86Format multibootAlias 0x1000 0xFFFF800000000000 1 true = true ∧
      ¬ Ring3Allowed multibootAlias 0x1000 0xFFFF800000000000 true := by
  refine ⟨by decide +kernel, ?_⟩
  rintro ⟨path, hpath, hgrants⟩
  have hwalk : hardwareWalk multibootAlias 0x1000 0xFFFF800000000000 =
      some [0x2003#64, 0x3003#64, 0x83#64] := by decide +kernel
  obtain rfl := Option.some.inj (hwalk.symm.trans hpath)
  exact absurd (hgrants 0x2003#64 List.mem_cons_self) (by decide)

end MitosOS.Paging
