import MitosOS.Paging.Tables

/-! `vmm::arch`: growing, editing and reading a four-level table. Both architectures run the
same walk, so it is written once over `Format`; errors keep whatever the walk already did. -/
namespace MitosOS.Paging
open MitosOS.Lib MitosOS.Memory

/-- The table an entry points at, allocated and zeroed first when the entry is not present. -/
def nextTable (F : Format) (userAccessible : Bool) (s : Machine) (table : ℕ) (i : Fin 512) :
    Except MemoryError ℕ × Machine :=
  let e := getEntry s.mem table i
  if F.isPresent e then
    match F.upgrade, userAccessible with
    | some up, true =>
      (.ok (F.physicalAddress (up e)), { s with mem := setEntry s.mem table i (up e) })
    | _, _ => (.ok (F.physicalAddress e), s)
  else
    match vmmAllocFrame s with
    | (none, s) => (.error .frameAllocationFailed, s)
    | (some frame, s) =>
      (.ok (F.physicalAddress (F.table frame)),
        { s with mem := setEntry (zeroFrame s.mem frame) table i (F.table frame) })

def nextTables (F : Format) (userAccessible : Bool) :
    Machine → ℕ → List (Fin 512) → Except MemoryError ℕ × Machine
  | s, table, [] => (.ok table, s)
  | s, table, i :: p =>
    match nextTable F userAccessible s table i with
    | (.error e, s) => (.error e, s)
    | (.ok child, s) => nextTables F userAccessible s child p

def tablePath (virt : ℕ) : List (Fin 512) := [tableIndex 39 virt, tableIndex 30 virt, tableIndex 21 virt]

def mapPage (F : Format) (s : Machine) (root virt phys : ℕ) (flags : MapFlags) :
    Except MemoryError Unit × Machine :=
  if virt &&& 0xFFF ≠ 0 ∨ phys &&& 0xFFF ≠ 0 then (.error .invalidAddress, s)
  else
    match nextTables F flags.userAccessible s root (tablePath virt) with
    | (.error e, s) => (.error e, s)
    | (.ok pt, s) =>
      if F.isPresent (getEntry s.mem pt (tableIndex 12 virt)) then (.error .alreadyMapped, s)
      else (.ok (), { s with mem := setEntry s.mem pt (tableIndex 12 virt) (F.leaf phys flags) })

def unmapPage (F : Format) (s : Machine) (root virt : ℕ) : Except MemoryError Unit × Machine :=
  if virt &&& 0xFFF ≠ 0 then (.error .invalidAddress, s)
  else
    match walkTables F s.mem root (tablePath virt) with
    | none => (.error .invalidAddress, s)
    | some pt =>
      if F.isPresent (getEntry s.mem pt (tableIndex 12 virt)) then
        (.ok (), { s with mem := setEntry s.mem pt (tableIndex 12 virt) 0#64 })
      else (.error .invalidAddress, s)

/-- The physical address behind `virt`, reading 1 GiB and 2 MiB leaves as well. -/
def translateAddr (F : Format) (m : Memory) (root virt : ℕ) : Option ℕ :=
  let e0 := getEntry m root (tableIndex 39 virt)
  if !F.isPresent e0 then none
  else
    let e1 := getEntry m (F.physicalAddress e0) (tableIndex 30 virt)
    if !F.isPresent e1 then none
    else if F.isBlock e1 then
      some (alignDown (F.physicalAddress e1) 0x40000000 + (virt &&& 0x3FFFFFFF))
    else
      let e2 := getEntry m (F.physicalAddress e1) (tableIndex 21 virt)
      if !F.isPresent e2 then none
      else if F.isBlock e2 then
        some (alignDown (F.physicalAddress e2) 0x200000 + (virt &&& 0x1FFFFF))
      else
        let e3 := getEntry m (F.physicalAddress e2) (tableIndex 12 virt)
        if !F.isPresent e3 then none
        else some (F.physicalAddress e3 + (virt &&& 0xFFF))

section NextTable
variable {F : Format} {s s' : Machine} {n f : ℕ} {i : Fin 512}

/-- The effect of `next_table` on an entry that is already present. -/
structure Revisited (F : Format) (s s' : Machine) (n : ℕ) (i : Fin 512) : Prop where
  pmm : s'.pmm = s.pmm
  mem : ∀ x, x / 4096 ≠ n → s'.mem x = s.mem x
  other : ∀ n' i', ¬ (n' = n ∧ i' = i) → entries s'.mem n' i' = entries s.mem n' i'
  child : F.child (entries s'.mem n i) = F.child (entries s.mem n i)
  block : F.isBlock (entries s'.mem n i) = F.isBlock (entries s.mem n i)

/-- The effect of `next_table` on an empty entry when frame `f` is available. -/
structure Grown (F : Format) (s s' : Machine) (n : ℕ) (i : Fin 512) (f : ℕ) : Prop where
  wasFree : s.pmm.IsFree f
  lt : f < 65536
  pmm : ∀ g, s'.pmm.IsFree g ↔ s.pmm.IsFree g ∧ g ≠ f
  mem : s'.mem = setEntry (zeroFrame s.mem (f * 4096)) (n * 4096) i (F.table (f * 4096))

theorem Format.Lawful.frame_lt (hF : F.Lawful) (hf : f < 65536) : f * 4096 < 2 ^ F.physBits := by
  have hpow : 2 ^ 28 ≤ 2 ^ F.physBits := Nat.pow_le_pow_right (by decide) hF.le_physBits
  have hf' : f * 4096 < 2 ^ 28 := by omega
  exact hf'.trans_le hpow

theorem Format.Lawful.child_table (hF : F.Lawful) (hf : f < 65536) :
    F.child (F.table (f * 4096)) = some f := by
  rw [Format.child, hF.isPresent_table, if_pos rfl,
    hF.physicalAddress_table (Nat.mul_mod_left f 4096) (hF.frame_lt hf),
    Nat.mul_div_cancel f (by decide)]

theorem Revisited.graph_eq (h : Revisited F s s' n i) : graph F s'.mem = graph F s.mem := by
  funext n' i'
  unfold graph
  by_cases hc : n' = n ∧ i' = i
  · obtain ⟨rfl, rfl⟩ := hc
    exact h.child
  · rw [h.other n' i' hc]

theorem Revisited.isPresent_iff (h : Revisited F s s' n i) :
    F.isPresent (entries s'.mem n i) = true ↔ F.isPresent (entries s.mem n i) = true := by
  have hchild := congrArg Option.isSome h.child
  unfold Format.child at hchild
  split_ifs at hchild with h1 h2 h2 <;> simp_all

theorem Grown.graph_eq (hF : F.Lawful) (h : Grown F s s' n i f) :
    graph F s'.mem = ((graph F s.mem).clear f).set n i (some f) := by
  rw [h.mem, graph_setEntry, graph_zeroFrame hF, hF.child_table h.lt]

theorem Grown.mem_apply (h : Grown F s s' n i f) {x : ℕ} (hn : x / 4096 ≠ n) (hf : x / 4096 ≠ f) :
    s'.mem x = s.mem x := by
  rw [h.mem, setEntry_apply _ i _ hn, zeroFrame_apply _ hf]

theorem Grown.entries_eq (h : Grown F s s' n i f) (n' : ℕ) (i' : Fin 512) :
    entries s'.mem n' i' = if n' = n ∧ i' = i then F.table (f * 4096)
      else if n' = f then 0#64 else entries s.mem n' i' := by
  rw [h.mem, entries_setEntry, entries_zeroFrame]

private theorem revisited_refl (s : Machine) : Revisited F s s n i where
  pmm := rfl
  mem _ _ := rfl
  other _ _ _ := rfl
  child := rfl
  block := rfl

private theorem revisited_upgrade (hF : F.Lawful) {up : Entry → Entry} (hup : F.upgrade = some up)
    (s : Machine) :
    Revisited F s { s with mem := setEntry s.mem (n * 4096) i (up (entries s.mem n i)) } n i := by
  have hsame : entries (setEntry s.mem (n * 4096) i (up (entries s.mem n i))) n i =
      up (entries s.mem n i) := by
    rw [entries_setEntry, if_pos ⟨rfl, rfl⟩]
  obtain ⟨-, hpres, hblock⟩ := hF.upgrade_keeps up hup (entries s.mem n i)
  refine ⟨rfl, fun x hx => setEntry_apply _ i _ hx, fun n' i' hne => ?_, ?_, ?_⟩
  · exact (entries_setEntry ..).trans (if_neg hne)
  · change F.child (entries (setEntry _ _ _ _) n i) = _
    rw [hsame, Format.child, Format.child, hpres, hF.physicalAddress_upgrade hup]
  · change F.isBlock (entries (setEntry _ _ _ _) n i) = _
    rw [hsame, hblock]

theorem nextTable_cases (hF : F.Lawful) (u : Bool) (s : Machine) (n : ℕ) (i : Fin 512) :
    (∃ c s', nextTable F u s (n * 4096) i = (.ok (c * 4096), s') ∧
      graph F s.mem n i = some c ∧ Revisited F s s' n i) ∨
    (nextTable F u s (n * 4096) i = (.error .frameAllocationFailed, s) ∧
      graph F s.mem n i = none ∧ ∀ g, ¬ s.pmm.IsFree g) ∨
    (∃ f s', nextTable F u s (n * 4096) i = (.ok (f * 4096), s') ∧
      graph F s.mem n i = none ∧ Grown F s s' n i f) := by
  have hmod := hF.physicalAddress_mod (entries s.mem n i)
  have hdiv : F.physicalAddress (entries s.mem n i) / 4096 * 4096 =
      F.physicalAddress (entries s.mem n i) := by omega
  by_cases hp : F.isPresent (entries s.mem n i)
  · left
    have hg := graph_of_isPresent hp
    refine ⟨F.physicalAddress (entries s.mem n i) / 4096, ?_⟩
    rw [hdiv]
    have hp' : F.isPresent (getEntry s.mem (n * 4096) i) = true := hp
    unfold nextTable
    simp only [hp', if_true]
    split
    · next up hup =>
      refine ⟨_, ?_, hg, revisited_upgrade hF hup s⟩
      change (Except.ok (F.physicalAddress (up (entries s.mem n i))), _) = _
      rw [hF.physicalAddress_upgrade hup]
      rfl
    · exact ⟨s, rfl, hg, revisited_refl s⟩
  · right
    have hg : graph F s.mem n i = none := by simp [graph, Format.child, hp]
    have hp' : F.isPresent (getEntry s.mem (n * 4096) i) = false := by
      rw [Bool.not_eq_true] at hp
      exact hp
    rcases vmmAllocFrame_cases s with ⟨halloc, hempty⟩ | ⟨f, s₁, halloc, htaken⟩
    · left
      refine ⟨?_, hg, hempty⟩
      simp [nextTable, hp', halloc]
    · right
      refine ⟨f, ⟨setEntry (zeroFrame s.mem (f * 4096)) (n * 4096) i (F.table (f * 4096)),
        s₁.pmm⟩, ?_, hg, ?_⟩
      · unfold nextTable
        simp only [hp', Bool.false_eq_true, if_false]
        rw [halloc]
        simp only [htaken.mem,
          hF.physicalAddress_table (Nat.mul_mod_left f 4096) (hF.frame_lt htaken.lt)]
      · exact ⟨htaken.wasFree, htaken.lt, htaken.pmm, rfl⟩

end NextTable

section Drawing
variable (F : Format) (u : Bool) (s : Machine)

theorem nextTable_drawn (table : ℕ) (i : Fin 512) : Drawn s (nextTable F u s table i).2 1 := by
  unfold nextTable
  dsimp only
  split_ifs with hp
  · split
    · exact ⟨fun f hf => hf, Nat.le_add_right _ 1⟩
    · exact .of_pmm_eq rfl 1
  · have hdrawn := vmmAllocFrame_drawn s
    cases halloc : vmmAllocFrame s with
    | mk r s' =>
      rw [halloc] at hdrawn
      cases r with
      | none => exact hdrawn
      | some frame => exact ⟨hdrawn.shrinks, hdrawn.card⟩

theorem nextTables_drawn (table : ℕ) (p : List (Fin 512)) :
    Drawn s (nextTables F u s table p).2 p.length := by
  induction p generalizing s table with
  | nil => exact .of_pmm_eq rfl 0
  | cons i p ih =>
    have hstep := nextTable_drawn F u s table i
    rw [nextTables, List.length_cons, Nat.add_comm]
    cases hnext : nextTable F u s table i with
    | mk r s' =>
      rw [hnext] at hstep
      cases r with
      | error e => exact hstep.mono (Nat.le_add_right 1 _)
      | ok child => exact hstep.trans (ih s' child)

theorem mapPage_drawn (root virt phys : ℕ) (flags : MapFlags) :
    Drawn s (mapPage F s root virt phys flags).2 3 := by
  unfold mapPage
  split_ifs with halign
  · exact .of_pmm_eq rfl 3
  have htables : Drawn s (nextTables F flags.userAccessible s root (tablePath virt)).2 3 :=
    nextTables_drawn F flags.userAccessible s root (tablePath virt)
  cases hrun : nextTables F flags.userAccessible s root (tablePath virt) with
  | mk r s' =>
    rw [hrun] at htables
    cases r with
    | error e => exact htables
    | ok pt =>
      dsimp only
      split_ifs
      · exact htables
      · exact ⟨htables.shrinks, htables.card⟩

end Drawing

end MitosOS.Paging
