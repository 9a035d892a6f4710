import MitosOS.Paging.Descent
import MitosOS.Paging.Teardown

/-! `vmm::handle_page_fault`: demand paging of whatever address faulted, and what a fault taken in
ring 3 can do to the part of the address space that every process shares with the kernel. -/
namespace MitosOS.Paging
open MitosOS.Lib MitosOS.Memory

structure RootRegisters where
  cr3 : ℕ
  ttbr0 : ℕ
  ttbr1 : ℕ

/-- The root the handler works on; on aarch64 the upper part of the address space has its own. -/
def faultRoot (arch : Arch) (regs : RootRegisters) (faultAddr : ℕ) : ℕ :=
  match arch with
  | .x86_64 => regs.cr3 &&& 0x000FFFFFFFFFF000
  | .aarch64 =>
    (if faultAddr < 0xFFFF000000000000 then regs.ttbr0 else regs.ttbr1) &&& 0x0000FFFFFFFFF000

def demandFlags (isUser : Bool) : MapFlags where
  writable := true
  userAccessible := isUser
  executeDisable := false
  device := false

/-- Whether the faulting instruction should be retried; `none` is the panic on frame 0. A frame
that could not be mapped is not given back. -/
def handlePageFault (arch : Arch) (regs : RootRegisters) (faultAddr : ℕ) (isPresent isUser : Bool)
    (s : Machine) : Option Bool × Machine :=
  if isPresent then (some false, s)
  else
    match vmmAllocFrame s with
    | (none, s) => (some false, s)
    | (some frame, s) =>
      if frame = 0 then (none, s)
      else
        match mapPage arch.format { s with mem := zeroFrame s.mem frame }
          (faultRoot arch regs faultAddr) (alignDown faultAddr 0x1000) frame
          (demandFlags isUser) with
        | (.ok (), s) => (some true, s)
        | (.error _, s) => (some false, s)


/-- The top-level entries of user space, from `USER_SPACE_BASE` up to the canonical hole. -/
def UserIndex (i : Fin 512) : Prop := 1 ≤ i.val ∧ i.val < 256

instance (i : Fin 512) : Decidable (UserIndex i) := inferInstanceAs (Decidable (_ ∧ _))

/-- Frame `t` is a table that the MMU reaches through entry `i` of the root. -/
inductive LiveUnder (m : Memory) (root : ℕ) (i : Fin 512) : ℕ → ℕ → Prop where
  | top {c : ℕ} (hc : graph x86Format m root i = some c) : LiveUnder m root i 1 c
  | child {level t : ℕ} (j : Fin 512) {c : ℕ} (ht : LiveUnder m root i level t) (hl : level < 3)
    (hsmall : X86.isHuge (entries m t j) = false) (hc : graph x86Format m t j = some c) :
    LiveUnder m root i (level + 1) c

/-- A root copied from a kernel root, possibly with user mappings added since. Its tables are not
in the pool and each is used at one level. What hangs off the user entries is apart from what the
kernel entries share with every other root and holds pages only; large pages of the kernel part
are not marked for ring 3. -/
structure CopiedRoot (R : ℕ) (s : Machine) : Prop where
  reserved : ∀ k t, LiveTable x86Format s.mem R k t → ¬ s.pmm.IsFree t
  level : ∀ k l t, LiveTable x86Format s.mem R k t → LiveTable x86Format s.mem R l t → k = l
  separate : ∀ i j k l t, UserIndex i → ¬ UserIndex j → LiveUnder s.mem R i k t →
    ¬ LiveUnder s.mem R j l t
  userPages : ∀ i k t j, UserIndex i → LiveUnder s.mem R i k t → k < 3 →
    X86.isPresent (entries s.mem t j) = true → X86.isHuge (entries s.mem t j) = false
  supervisor : ∀ k t j, LiveTable x86Format s.mem R k t → k ≠ 0 → k < 3 →
    X86.isPresent (entries s.mem t j) = true → X86.isHuge (entries s.mem t j) = true →
    X86.isUserAccessible (entries s.mem t j) = false

/-- The page of `virt` is mapped, and the entries that keep ring 3 out are all among `V`. -/
def UnlockedBy (m : Memory) (R : ℕ) (V : List TableSlot) (virt : ℕ) : Prop :=
  ∃ l, leafSlots m 0 R (virtPath virt) = some l ∧
    (∃ σ ∈ l, X86.isUserAccessible (entries m σ.1 σ.2) = false) ∧
    ∀ σ ∈ l, X86.isUserAccessible (entries m σ.1 σ.2) = false → σ ∈ V

section Live
variable {m m' : Memory} {R k t : ℕ} {i : Fin 512} {s s' : Machine}

theorem LiveUnder.live (h : LiveUnder m R i k t) : LiveTable x86Format m R k t := by
  induction h with
  | top hc => exact LiveTable.root.child i (by decide) (Or.inl rfl) hc
  | child j _ hl hsmall hc ih => exact ih.child j hl (Or.inr hsmall) hc

theorem LiveUnder.level_ne_zero (h : LiveUnder m R i k t) : k ≠ 0 := by
  cases h <;> omega

theorem childClosed_liveUnder (m : Memory) (R : ℕ) (i : Fin 512) :
    ChildClosed m (LiveUnder m R i) := by
  intro k t j c ht hk hblock hc
  exact ht.child j hk (hblock.resolve_left ht.level_ne_zero) hc

theorem LiveTable.of_entries
    (he : ∀ k t j, LiveTable x86Format m R k t → entries m' t j = entries m t j)
    (h : LiveTable x86Format m' R k t) : LiveTable x86Format m R k t := by
  induction h with
  | root => exact .root
  | child j _ hl hblock hc ih =>
    rw [he _ _ j ih] at hblock
    rw [graph, he _ _ j ih] at hc
    exact ih.child j hl hblock hc

theorem LiveUnder.of_entries
    (he : ∀ k t j, LiveTable x86Format m R k t → entries m' t j = entries m t j)
    (h : LiveUnder m' R i k t) : LiveUnder m R i k t := by
  induction h with
  | top hc =>
    rw [graph, he 0 R i .root] at hc
    exact .top hc
  | child j _ hl hsmall hc ih =>
    rw [he _ _ j ih.live] at hsmall
    rw [graph, he _ _ j ih.live] at hc
    exact ih.child j hl hsmall hc

theorem CopiedRoot.congr (h : CopiedRoot R s)
    (he : ∀ k t j, LiveTable x86Format s.mem R k t → entries s'.mem t j = entries s.mem t j)
    (hfree : ∀ t, s'.pmm.IsFree t → s.pmm.IsFree t) : CopiedRoot R s' where
  reserved k t ht hcon := h.reserved k t (ht.of_entries he) (hfree t hcon)
  level k l t hk hl := h.level k l t (hk.of_entries he) (hl.of_entries he)
  separate i j k l t hi hj hk hl :=
    h.separate i j k l t hi hj (hk.of_entries he) (hl.of_entries he)
  userPages i k t j hi hk hlt hpres := by
    have hold := hk.of_entries he
    rw [he k t j hold.live] at hpres ⊢
    exact h.userPages i k t j hi hold hlt hpres
  supervisor k t j hk h0 hlt hpres hhuge := by
    have hold := hk.of_entries he
    rw [he k t j hold] at hpres hhuge ⊢
    exact h.supervisor k t j hold h0 hlt hpres hhuge

theorem leafSlots_congr_under {i : Fin 512} {q : List (Fin 512)} (hq : 1 + q.length = 4)
    (hroot : entries m' R i = entries m R i)
    (hunder : ∀ k t j, LiveUnder m R i k t → entries m' t j = entries m t j) :
    leafSlots m' 0 R (i :: q) = leafSlots m 0 R (i :: q) := by
  have hP := childClosed_liveUnder m R i
  rw [leafSlots_cons, leafSlots_cons, graph, graph, hroot]
  refine Option.bind_congr fun c hc => ?_
  rw [leafSlots_congr hP hunder (.top hc) hq]

theorem leafSlots_mem_under {i : Fin 512} {q : List (Fin 512)} {l : List TableSlot}
    (hq : 1 + q.length = 4) (hl : leafSlots m 0 R (i :: q) = some l) :
    ∀ σ ∈ l, σ = (R, i) ∨ ∃ k, LiveUnder m R i k σ.1 := by
  have hP := childClosed_liveUnder m R i
  intro σ hσ
  obtain ⟨c, hc, ⟨h0, -, -⟩ | ⟨-, l', hl', rfl⟩⟩ := leafSlots_cons_some hl
  · exact absurd rfl h0
  · rcases List.mem_cons.mp hσ with rfl | hσ'
    · exact Or.inl rfl
    · obtain ⟨⟨k, hk⟩, -⟩ := leafSlots_mem hP (.top hc) hq hl' σ hσ'
      exact Or.inr ⟨k, hk⟩

theorem hardwareWalk_congr_under {virt : ℕ}
    (hroot : entries m' R (tableIndex 39 virt) = entries m R (tableIndex 39 virt))
    (hunder : ∀ k t j, LiveUnder m R (tableIndex 39 virt) k t → entries m' t j = entries m t j) :
    hardwareWalk m' (R * 4096) virt = hardwareWalk m (R * 4096) virt := by
  have hpath : virtPath virt = tableIndex 39 virt ::
      [tableIndex 30 virt, tableIndex 21 virt, tableIndex 12 virt] := rfl
  rw [hardwareWalk_eq, hardwareWalk_eq, hpath, leafSlots_congr_under (by simp) hroot hunder]
  refine Option.map_congr fun l hl => List.map_congr_left fun σ hσ => ?_
  rcases leafSlots_mem_under (by simp) hl σ hσ with rfl | ⟨k, hk⟩
  · exact hroot
  · exact hunder k σ.1 σ.2 hk

end Live

section Map
variable {R t virt phys : ℕ} {j : Fin 512} {s : Machine} {flags : MapFlags}

theorem CopiedRoot.user_path (h : CopiedRoot R s) (hu : UserIndex (tableIndex 39 virt)) :
    (∀ σ ∈ (graph x86Format s.mem).trail R (tablePath virt), σ = (R, tableIndex 39 virt) ∨
        ∃ k, LiveUnder s.mem R (tableIndex 39 virt) k σ.1) ∧
      (∀ σ, (graph x86Format s.mem).stop R (tablePath virt) = some σ →
        σ = (R, tableIndex 39 virt) ∨ ∃ k, LiveUnder s.mem R (tableIndex 39 virt) k σ.1) ∧
      ∀ t, (graph x86Format s.mem).walk R (tablePath virt) = some t →
        ∃ k, LiveUnder s.mem R (tableIndex 39 virt) k t := by
  unfold tablePath
  cases hc : graph x86Format s.mem R (tableIndex 39 virt) with
  | none =>
    rw [PathGraph.trail_of_none hc, PathGraph.stop_of_none hc, PathGraph.walk_cons, hc]
    refine ⟨fun σ hσ => absurd hσ List.not_mem_nil, fun σ hσ => ?_, fun t ht => ?_⟩
    · exact Or.inl (Option.some.inj hσ).symm
    · exact absurd ht (by simp)
  | some c =>
    rw [PathGraph.trail_of_some hc, PathGraph.stop_of_some hc, PathGraph.walk_cons, hc,
      Option.bind_some]
    rcases largeLeaf_or_plainPath (childClosed_liveUnder s.mem R (tableIndex 39 virt))
      [tableIndex 30 virt, tableIndex 21 virt] (.top hc) rfl with
      ⟨k, t, i, ht, -, hk, hhuge, hpres, -⟩ | hplain
    · rw [h.userPages _ k t i hu ht hk hpres] at hhuge
      exact absurd hhuge (by decide)
    · refine ⟨fun σ hσ => ?_, fun σ hσ => ?_, fun t ht => ⟨3, hplain.walk t ht⟩⟩
      · rcases List.mem_cons.mp hσ with rfl | hσ'
        · exact Or.inl rfl
        · exact Or.inr (hplain.tables σ hσ')
      · obtain ⟨k, hk, -⟩ := hplain.stop σ hσ
        exact Or.inr ⟨k, hk⟩

/-- Mapping a user address does not touch the walk for any other part of the address space. -/
theorem CopiedRoot.mapPage_user (h : CopiedRoot R s) (hvirt : virt % 4096 = 0)
    (hphys : phys % 4096 = 0) (hflags : flags.userAccessible = true)
    (hu : UserIndex (tableIndex 39 virt)) {a : ℕ} (ha : ¬ UserIndex (tableIndex 39 a)) :
    hardwareWalk (mapPage x86Format s (R * 4096) virt phys flags).2.mem (R * 4096) a =
      hardwareWalk s.mem (R * 4096) a := by
  obtain ⟨htrail, hstop, hwalk⟩ := h.user_path hu
  have hne : tableIndex 39 a ≠ tableIndex 39 virt := by
    intro hcon
    rw [hcon] at ha
    exact ha hu
  -- a table of the kernel part is neither the root nor below a user entry
  have hkeep : ∀ t j, ¬ s.pmm.IsFree t → (t, j) ≠ (R, tableIndex 39 virt) →
      (∀ k, ¬ LiveUnder s.mem R (tableIndex 39 virt) k t) →
      entries (mapPage x86Format s (R * 4096) virt phys flags).2.mem t j = entries s.mem t j := by
    intro t j ht htop hunder
    cases hpres : X86.isPresent (entries s.mem t j) with
    | true =>
      rw [entries_mapPage_of_present x86Format_lawful hvirt hphys hflags ht hpres, if_neg]
      intro hmem
      rcases htrail (t, j) hmem with hcon | ⟨k, hk⟩
      · exact htop hcon
      · exact hunder k hk
    | false =>
      apply entries_mapPage_of_absent x86Format_lawful hvirt hphys hflags ht hpres
      · refine Or.inl fun hcon => ?_
        rcases hstop (t, j) hcon with hcon | ⟨k, hk⟩
        · exact htop hcon
        · exact hunder k hk
      · intro hcon
        obtain ⟨k, hk⟩ := hwalk t hcon
        exact absurd hk (hunder k)
  have hroot : ∀ k, ¬ LiveUnder s.mem R (tableIndex 39 virt) k R := fun k hk =>
    hk.level_ne_zero (h.level k 0 R hk.live .root)
  apply hardwareWalk_congr_under
  · apply hkeep R _ (h.reserved 0 R .root) _ hroot
    exact fun hcon => hne (Prod.mk.inj hcon).2
  · intro k t j ht
    apply hkeep t j (h.reserved k t ht.live)
    · intro hcon
      obtain ⟨rfl, -⟩ := Prod.mk.inj hcon
      exact ht.level_ne_zero (h.level k 0 t ht.live .root)
    · exact fun l hl => h.separate _ _ l k t hu ha hl ht

theorem all_user_eq_iff {l V : List TableSlot} {E E' : TableSlot → Entry}
    (hentry : ∀ σ ∈ l, E' σ = if σ ∈ V then X86.ensureUserAccessible (E σ) else E σ) :
    ((l.all fun σ => X86.isUserAccessible (E' σ)) = l.all fun σ => X86.isUserAccessible (E σ)) ↔
      ¬ ((∃ σ ∈ l, X86.isUserAccessible (E σ) = false) ∧
        ∀ σ ∈ l, X86.isUserAccessible (E σ) = false → σ ∈ V) := by
  have hnew : (l.all fun σ => X86.isUserAccessible (E' σ)) = true ↔
      ∀ σ ∈ l, X86.isUserAccessible (E σ) = false → σ ∈ V := by
    rw [List.all_eq_true]
    apply forall₂_congr
    intro σ hσ
    rw [hentry σ hσ]
    split_ifs with hV
    · simp [hV, X86.isUserAccessible_ensureUserAccessible]
    · simp [hV]
  have hold : (l.all fun σ => X86.isUserAccessible (E σ)) = true ↔
      ¬ ∃ σ ∈ l, X86.isUserAccessible (E σ) = false := by simp
  have himp : (¬ ∃ σ ∈ l, X86.isUserAccessible (E σ) = false) →
      ∀ σ ∈ l, X86.isUserAccessible (E σ) = false → σ ∈ V :=
    fun hnone σ hσ hout => absurd ⟨σ, hσ, hout⟩ hnone
  rw [Bool.eq_iff_iff, hnew, hold]
  constructor
  · exact fun hiff hboth => hiff.mp hboth.2 hboth.1
  · exact fun hnot => ⟨fun hall hex => hnot ⟨hex, hall⟩, himp⟩

theorem unlockedBy_iff {m : Memory} {V l : List TableSlot} {a : ℕ}
    (hl : leafSlots m 0 R (virtPath a) = some l) :
    UnlockedBy m R V a ↔ (∃ σ ∈ l, X86.isUserAccessible (entries m σ.1 σ.2) = false) ∧
      ∀ σ ∈ l, X86.isUserAccessible (entries m σ.1 σ.2) = false → σ ∈ V := by
  constructor
  · rintro ⟨l', hl', hunlocked⟩
    obtain rfl : l = l' := Option.some.inj (hl.symm.trans hl')
    exact hunlocked
  · exact fun hunlocked => ⟨l, hl, hunlocked⟩

/-- What the CPU makes of a mapped address changes exactly when the entries that kept ring 3 out
are all followed by the descent. -/
theorem CopiedRoot.mapping_eq_iff (h : CopiedRoot R s) (hvirt : virt % 4096 = 0)
    (hphys : phys % 4096 = 0) (hflags : flags.userAccessible = true) {a : ℕ} {l : List TableSlot}
    (hl : leafSlots s.mem 0 R (virtPath a) = some l) :
    (hardwareWalk (mapPage x86Format s (R * 4096) virt phys flags).2.mem (R * 4096) a).map
        (mappingOf a) = (hardwareWalk s.mem (R * 4096) a).map (mappingOf a) ↔
      ¬ UnlockedBy s.mem R ((graph x86Format s.mem).trail R (tablePath virt)) a := by
  set V := (graph x86Format s.mem).trail R (tablePath virt)
  set m' := (mapPage x86Format s (R * 4096) virt phys flags).2.mem
  have hmem := leafSlots_mem (childClosed_liveTable s.mem R) .root rfl hl
  have hentry : ∀ σ ∈ l, entries m' σ.1 σ.2 =
      if σ ∈ V then X86.ensureUserAccessible (entries s.mem σ.1 σ.2)
      else entries s.mem σ.1 σ.2 := by
    intro σ hσ
    obtain ⟨⟨k, hk⟩, hpres⟩ := hmem σ hσ
    exact entries_mapPage_of_present x86Format_lawful hvirt hphys hflags (h.reserved k σ.1 hk) hpres
  have hup : ∀ σ ∈ l, Upgraded (entries s.mem σ.1 σ.2) (entries m' σ.1 σ.2) :=
    fun σ hσ => .of_eq_ite (hentry σ hσ)
  have huser : (mappingOf a (l.map fun σ => entries s.mem σ.1 σ.2)).user =
      l.all fun σ => X86.isUserAccessible (entries s.mem σ.1 σ.2) := by
    unfold mappingOf
    rw [List.all_map]
    rfl
  have hset : ∀ (x : Mapping) (b : Bool), { x with user := b } = x ↔ b = x.user :=
    fun x b => ⟨fun heq => congrArg Mapping.user heq, fun hb => by rw [hb]⟩
  rw [hardwareWalk_eq, hardwareWalk_eq, leafSlots_of_upgraded hl hup, hl, Option.map_some,
    Option.map_some, Option.map_some, Option.map_some, Option.some.injEq,
    mappingOf_upgraded (E := fun σ => entries s.mem σ.1 σ.2) a hup, hset, huser, unlockedBy_iff hl]
  exact all_user_eq_iff hentry

section Kernel
variable (h : CopiedRoot R s)
  (hplain : PlainPath s.mem (LiveTable x86Format s.mem R) 0 R (tablePath virt))
include h hplain

theorem CopiedRoot.outcome : ∃ r s₂,
    nextTables x86Format true s (R * 4096) (tablePath virt) = (r, s₂) ∧
      (((graph x86Format s.mem).missing R (tablePath virt) ≤ s.pmm.freeFrames.card ∧
          ∃ t, r = .ok (t * 4096) ∧ (graph x86Format s₂.mem).walk R (tablePath virt) = some t) ∨
        (s.pmm.freeFrames.card < (graph x86Format s.mem).missing R (tablePath virt) ∧
          (∀ a, r ≠ .ok a) ∧
          ∀ σ, (graph x86Format s.mem).stop R (tablePath virt) = some σ →
            graph x86Format s₂.mem σ.1 σ.2 = none ∨
            ∃ f, graph x86Format s₂.mem σ.1 σ.2 = some f ∧
              X86.isHuge (entries s₂.mem σ.1 σ.2) = false ∧
              ∀ level q, q.length = (graph x86Format s.mem).missing R (tablePath virt) →
                leafSlots s₂.mem level f q = none)) := by
  apply nextTables_outcome
  · intro σ hσ
    obtain ⟨k, hk⟩ := hplain.tables σ hσ
    exact h.reserved k σ.1 hk
  · intro σ hσ
    obtain ⟨k, hk, -⟩ := hplain.stop σ hσ
    exact h.reserved k σ.1 hk

variable (hvirt : virt % 4096 = 0) (hphys : phys % 4096 = 0)
  (hflags : flags.userAccessible = true)
include hvirt hphys hflags

theorem CopiedRoot.mapped_of_enough
    (hcard : (graph x86Format s.mem).missing R (tablePath virt) ≤ s.pmm.freeFrames.card) :
    (leafSlots (mapPage x86Format s (R * 4096) virt phys flags).2.mem 0 R
      (virtPath virt)).isSome = true := by
  obtain ⟨r, s₂, hrun, hout⟩ := h.outcome hplain
  rcases hout with ⟨-, t, hr, hw⟩ | ⟨hlt, -, -⟩
  · obtain ⟨r', s₂', hrun', -, hcases⟩ :=
      mapPage_user_cases x86Format_lawful hvirt hphys hflags s R
    obtain ⟨rfl, rfl⟩ := Prod.mk.inj (hrun.symm.trans hrun')
    rcases hcases with ⟨hne, -⟩ | ⟨t', hr', ⟨hpres, heq⟩ | ⟨habs, heq⟩⟩
    · exact absurd hr (hne _)
    · obtain rfl : t = t' := by
        have := Except.ok.inj (hr.symm.trans hr')
        omega
      rw [heq]
      exact leafSlots_isSome_of_walk _ hw hpres
    · obtain rfl : t = t' := by
        have := Except.ok.inj (hr.symm.trans hr')
        omega
      rw [heq]
      apply leafSlots_isSome_of_walk (t := t)
      · rw [graph_setEntry]
        exact PathGraph.walk_set_of_none habs _ hw
      · rw [graph_setEntry, PathGraph.set_same, Format.child, x86Format_lawful.isPresent_leaf,
          if_pos rfl]
        simp
  · exact absurd hcard (Nat.not_le_of_lt hlt)

/-- When the page is already mapped or the tables cannot be built, nothing new is mapped. -/
theorem CopiedRoot.unmapped_of_failed
    (hfail : (leafSlots s.mem 0 R (virtPath virt)).isSome = true ∨
      s.pmm.freeFrames.card < (graph x86Format s.mem).missing R (tablePath virt))
    {a : ℕ} (ha : leafSlots s.mem 0 R (virtPath a) = none) :
    leafSlots (mapPage x86Format s (R * 4096) virt phys flags).2.mem 0 R (virtPath a) = none := by
  apply leafSlots_none_of_upgraded (childClosed_liveTable s.mem R) _ _ .root rfl ha
  · intro k t i hk hpres
    exact .of_eq_ite (entries_mapPage_of_present x86Format_lawful hvirt hphys hflags
      (h.reserved k t hk) hpres)
  intro k t i hk hlt habs
  have hpres : X86.isPresent (entries s.mem t i) = false := isPresent_of_graph_none habs
  have hsame : ∀ m', entries m' t i = entries s.mem t i → graph x86Format m' t i = none := by
    intro m' hm'
    rw [graph, hm']
    exact habs
  have hmapped : ∀ u, (graph x86Format s.mem).walk R (tablePath virt) = some u →
      graph x86Format s.mem u (tableIndex 12 virt) ≠ none := by
    intro u hw hcon
    rcases hfail with hsome | hcard
    · rw [virtPath, hplain.leaf, hw, Option.bind_some, hcon] at hsome
      exact absurd hsome (by simp)
    · rw [(PathGraph.stop_of_walk hw).2] at hcard
      exact absurd hcard (Nat.not_lt_zero _)
  have hleaf : (graph x86Format s.mem).walk R (tablePath virt) = some t →
      i ≠ tableIndex 12 virt := by
    rintro hw rfl
    exact hmapped t hw habs
  by_cases hstop : (graph x86Format s.mem).stop R (tablePath virt) = some (t, i)
  · have hnowalk : (graph x86Format s.mem).walk R (tablePath virt) = none := by
      rw [Option.eq_none_iff_forall_ne_some]
      intro u hw
      rw [(PathGraph.stop_of_walk hw).1] at hstop
      exact absurd hstop (by simp)
    have hcard := hfail.resolve_left (by rw [virtPath, hplain.leaf, hnowalk]; simp)
    obtain ⟨r, s₂, hrun, ⟨hle, -⟩ | ⟨-, hr, hnowhere⟩⟩ := h.outcome hplain
    · exact absurd hcard (Nat.not_lt_of_le hle)
    obtain ⟨r', s₂', hrun', -, hcases⟩ :=
      mapPage_user_cases x86Format_lawful hvirt hphys hflags s R
    obtain ⟨rfl, rfl⟩ := Prod.mk.inj (hrun.symm.trans hrun')
    rcases hcases with ⟨-, heq⟩ | ⟨u, hok, -⟩
    · -- the chain below hangs at the level of the entry the descent stopped at
      obtain ⟨k', hk', hlevel⟩ := hplain.stop (t, i) hstop
      obtain rfl : k = k' := h.level k k' t hk hk'
      rw [heq]
      rcases hnowhere (t, i) hstop with hnone | ⟨f, hf, hsmall, hq⟩
      · exact Or.inl hnone
      · exact Or.inr ⟨f, hf, hsmall, fun q hlen => hq (k + 1) q (by omega)⟩
    · exact absurd hok (hr _)
  · left
    apply hsame
    exact entries_mapPage_of_absent x86Format_lawful hvirt hphys hflags (h.reserved k t hk) hpres
      (Or.inl hstop) hleaf

end Kernel

def KernelAddress (a : ℕ) : Prop := a < 2 ^ 64 ∧ IsCanonical a ∧ ¬ UserIndex (tableIndex 39 a)

/-- Mapping an address outside user space for ring 3 leaves that part of the address space as the
CPU sees it exactly when nothing is mapped and no page was closed to ring 3 by entries on the way
alone. -/
theorem CopiedRoot.mapPage_kernel_iff (h : CopiedRoot R s) (hvirt : virt % 4096 = 0)
    (hphys : phys % 4096 = 0) (hflags : flags.userAccessible = true)
    (hk : ¬ UserIndex (tableIndex 39 virt)) :
    (∀ a, KernelAddress a →
      (hardwareWalk (mapPage x86Format s (R * 4096) virt phys flags).2.mem (R * 4096) a).map
        (mappingOf a) = (hardwareWalk s.mem (R * 4096) a).map (mappingOf a)) ↔
    ((leafSlots s.mem 0 R (virtPath virt)).isSome = true ∨
        s.pmm.freeFrames.card + (upperSlots s.mem 0 R (tablePath virt)).length < 3) ∧
      ∀ a, KernelAddress a →
        ¬ UnlockedBy s.mem R (upperSlots s.mem 0 R (tablePath virt)) a := by
  have hcanon : KernelAddress (canonicalForm virt) := by
    refine ⟨canonicalForm_lt virt, isCanonical_canonicalForm virt, ?_⟩
    rwa [tableIndex_canonicalForm (by decide)]
  rcases largeLeaf_or_plainPath (childClosed_liveTable s.mem R) (tablePath virt) .root rfl with
    ⟨k, t, i, ht, h0, h3, hhuge, hpres, hl⟩ | hplain
  · -- a large page of the kernel is opened as a whole
    obtain ⟨l, hl, hmem, hsub⟩ := hl (tableIndex 12 virt)
    have hunlocked : ∀ V, (∀ σ ∈ l, σ ∈ V) → UnlockedBy s.mem R V (canonicalForm virt) := by
      intro V hV
      refine ⟨l, by rw [virtPath_canonicalForm]; exact hl, ⟨(t, i), hmem, ?_⟩, fun σ hσ _ => hV σ hσ⟩
      exact h.supervisor k t i ht h0 h3 hpres hhuge
    constructor
    · intro hsame
      refine absurd (hunlocked _ fun σ hσ => (hsub σ hσ).2) ?_
      apply (h.mapping_eq_iff hvirt hphys hflags _).mp (hsame _ hcanon)
      exact l
      rw [virtPath_canonicalForm]
      exact hl
    · intro hcond
      exact absurd (hunlocked _ fun σ hσ => (hsub σ hσ).1) (hcond.2 _ hcanon)
  · have hlength := PathGraph.length_trail_add_missing (graph x86Format s.mem) R (tablePath virt)
    rw [show (tablePath virt).length = 3 from rfl] at hlength
    rw [hplain.upper]
    constructor
    · intro hsame
      constructor
      · by_contra hcon
        rw [not_or, not_lt, Bool.not_eq_true, Option.isSome_eq_false_iff, Option.isNone_iff_eq_none]
          at hcon
        obtain ⟨hnone, hcard⟩ := hcon
        have hsome := h.mapped_of_enough hplain hvirt hphys hflags (by omega)
        have heq := congrArg Option.isSome (hsame _ hcanon)
        rw [hardwareWalk_eq, hardwareWalk_eq, virtPath_canonicalForm, hnone] at heq
        simp only [Option.isSome_map, hsome, Option.map_none, Option.isSome_none] at heq
        exact absurd heq (by decide)
      · intro a ha hun
        have hmapped := hun
        obtain ⟨l, hl, -⟩ := hmapped
        exact (h.mapping_eq_iff hvirt hphys hflags hl).mp (hsame a ha) hun
    · rintro ⟨hfail, hlocked⟩ a ha
      cases hl : leafSlots s.mem 0 R (virtPath a) with
      | some l => exact (h.mapping_eq_iff hvirt hphys hflags hl).mpr (hlocked a ha)
      | none =>
        have hstill := h.unmapped_of_failed hplain hvirt hphys hflags
          (hfail.imp id fun hlt => by omega) hl
        rw [hardwareWalk_eq, hardwareWalk_eq, hstill, hl, Option.map_none, Option.map_none,
          Option.map_none, Option.map_none]

end Map

section Handler
variable {s : Machine} {R : ℕ}

theorem kernelAddress_iff {a : ℕ} (ha : a < 2 ^ 64) (hcanon : IsCanonical a) :
    KernelAddress a ↔ ¬ (userSpaceBase ≤ a ∧ a < 2 ^ 47) := by
  have hbase : userSpaceBase = 2 ^ 39 := by decide
  have hindex := tableIndex_val 39 a
  unfold KernelAddress UserIndex
  unfold IsCanonical at hcanon
  rw [hbase]
  constructor
  · rintro ⟨-, -, h⟩
    omega
  · intro h
    refine ⟨ha, hcanon, ?_⟩
    omega

theorem cpuTranslation_eq_iff {m m' : Memory} {root : ℕ} :
    (∀ a < 2 ^ 64, ¬ (userSpaceBase ≤ a ∧ a < 2 ^ 47) →
      cpuTranslation m' root a = cpuTranslation m root a) ↔
    ∀ a, KernelAddress a →
      (hardwareWalk m' root a).map (mappingOf a) = (hardwareWalk m root a).map (mappingOf a) := by
  unfold cpuTranslation
  constructor
  · intro h a ha
    have hout := (kernelAddress_iff ha.1 ha.2.1).mp ha
    simpa only [if_pos ha.2.1] using h a ha.1 hout
  · intro h a ha hout
    by_cases hcanon : IsCanonical a
    · rw [if_pos hcanon, if_pos hcanon]
      exact h a ((kernelAddress_iff ha hcanon).mpr hout)
    · rw [if_neg hcanon, if_neg hcanon]

theorem faultRoot_aligned (arch : Arch) (regs : RootRegisters) (faultAddr : ℕ) :
    faultRoot arch regs faultAddr = faultRoot arch regs faultAddr / 4096 * 4096 := by
  cases arch with
  | x86_64 =>
    have hmask : faultRoot .x86_64 regs faultAddr = regs.cr3 / 2 ^ 12 % 2 ^ 40 * 2 ^ 12 :=
      land_mask regs.cr3 12 40
    rw [hmask]
    omega
  | aarch64 =>
    have hmask : faultRoot .aarch64 regs faultAddr =
        (if faultAddr < 0xFFFF000000000000 then regs.ttbr0 else regs.ttbr1) / 2 ^ 12 % 2 ^ 36 *
          2 ^ 12 := land_mask _ 12 36
    rw [hmask]
    omega

theorem CopiedRoot.entries_zeroFrame {s₁ : Machine} {d : ℕ} (h : CopiedRoot R s)
    (ht : Taken s s₁ d) {k t : ℕ} (hk : LiveTable x86Format s.mem R k t) (j : Fin 512) :
    entries (zeroFrame s₁.mem (d * 4096)) t j = entries s.mem t j := by
  have hne : t ≠ d := by
    rintro rfl
    exact h.reserved k t hk ht.wasFree
  rw [MitosOS.Paging.entries_zeroFrame, if_neg hne, ht.mem]

theorem tablePath_alignDown (virt : ℕ) : tablePath (alignDown virt 0x1000) = tablePath virt := by
  unfold tablePath
  rw [tableIndex_alignDown (by decide), tableIndex_alignDown (by decide),
    tableIndex_alignDown (by decide)]

theorem virtPath_alignDown (virt : ℕ) : virtPath (alignDown virt 0x1000) = virtPath virt := by
  rw [virtPath, virtPath, tablePath_alignDown, tableIndex_alignDown (by decide)]

theorem mapPage_outcome (out : Except MemoryError Unit × Machine) :
    (match out with
      | (.ok (), s) => (some true, s)
      | (.error _, s) => (some false, s)).2 = out.2 := by
  rcases out with ⟨_ | _, s⟩ <;> rfl

theorem upperSlots_congr {m m' : Memory} {P : ℕ → ℕ → Prop} (hP : ChildClosed m P)
    (he : ∀ k t j, P k t → entries m' t j = entries m t j) (p : List (Fin 512)) :
    ∀ {level n : ℕ}, P level n → level + p.length = 3 →
      upperSlots m' level n p = upperSlots m level n p := by
  induction p with
  | nil => exact fun _ _ => rfl
  | cons i p ih =>
    intro level n hn hlen
    rw [List.length_cons] at hlen
    rw [upperSlots, upperSlots, graph, he level n i hn]
    cases hc : x86Format.child (entries m n i) with
    | none => rw [graph, hc]
    | some c =>
      rw [graph, hc]
      dsimp only
      split_ifs with hhuge
      · rfl
      · rw [ih (hP level n i c hn (by omega) (not_large.mp hhuge) hc) (by omega)]

theorem unlockedBy_congr {m m' : Memory} {R : ℕ} {V : List TableSlot} {a : ℕ}
    (he : ∀ k t j, LiveTable x86Format m R k t → entries m' t j = entries m t j) :
    UnlockedBy m' R V a ↔ UnlockedBy m R V a := by
  have hP := childClosed_liveTable m R
  unfold UnlockedBy
  rw [leafSlots_congr hP he .root rfl]
  refine exists_congr fun l => and_congr_right fun hl => ?_
  have hsame : ∀ σ ∈ l, entries m' σ.1 σ.2 = entries m σ.1 σ.2 := by
    intro σ hσ
    obtain ⟨⟨k, hk⟩, -⟩ := leafSlots_mem hP .root rfl hl σ hσ
    exact he k σ.1 σ.2 hk
  apply and_congr
  · exact exists_congr fun σ => and_congr_right fun hσ => by rw [hsame σ hσ]
  · exact forall₂_congr fun σ hσ => by rw [hsame σ hσ]

/-- A fault in ring 3 leaves everything outside user space as the CPU saw it exactly when it is a
protection fault, no page can be had, the address selects a user entry of the root, or nothing gets
mapped and every page closed to ring 3 is closed by an entry off the faulting address's path. -/
theorem handlePageFault_keeps_kernel_iff (regs : RootRegisters) (faultAddr : ℕ) (isPresent : Bool)
    (s : Machine) (R : ℕ) (hR : R = faultRoot .x86_64 regs faultAddr / 4096)
    (h : CopiedRoot R s) :
    (∀ a < 2 ^ 64, ¬ (userSpaceBase ≤ a ∧ a < 2 ^ 47) →
      cpuTranslation (handlePageFault .x86_64 regs faultAddr isPresent true s).2.mem (R * 4096) a =
        cpuTranslation s.mem (R * 4096) a) ↔
    isPresent = true ∨ s.pmm.IsFree 0 ∨ (∀ f, ¬ s.pmm.IsFree f) ∨
      UserIndex (tableIndex 39 faultAddr) ∨
      (((hardwareWalk s.mem (R * 4096) faultAddr).isSome = true ∨
          s.pmm.freeFrames.card + (upperSlots s.mem 0 R (tablePath faultAddr)).length ≤ 3) ∧
        ∀ a, KernelAddress a →
          ¬ UnlockedBy s.mem R (upperSlots s.mem 0 R (tablePath faultAddr)) a) := by
  have hroot : faultRoot .x86_64 regs faultAddr = R * 4096 := by
    rw [hR]
    exact faultRoot_aligned .x86_64 regs faultAddr
  rw [cpuTranslation_eq_iff]
  unfold handlePageFault
  by_cases hp : isPresent = true
  · rw [if_pos hp]
    exact ⟨fun _ => Or.inl hp, fun _ _ _ => rfl⟩
  rw [if_neg hp]
  rcases vmmAllocFrame_cases s with ⟨halloc, hempty⟩ | ⟨d, s₁, halloc, htaken⟩
  · rw [halloc]
    exact ⟨fun _ => Or.inr (Or.inr (Or.inl hempty)), fun _ _ _ => rfl⟩
  rw [halloc]
  dsimp only
  by_cases hd : d * 4096 = 0
  · obtain rfl : d = 0 := by omega
    rw [if_pos hd]
    refine ⟨fun _ => Or.inr (Or.inl htaken.wasFree), fun _ a _ => ?_⟩
    dsimp only
    rw [htaken.mem]
  have hzero : ¬ s.pmm.IsFree 0 := fun hfree => by
    have hle := vmmAllocFrame_lowest halloc hfree
    omega
  have hsome : ¬ ∀ f, ¬ s.pmm.IsFree f := fun hcon => hcon d htaken.wasFree
  rw [if_neg hd, hroot, mapPage_outcome]
  set s₂ : Machine := { s₁ with mem := zeroFrame s₁.mem (d * 4096) } with hs₂
  have he : ∀ k t j, LiveTable x86Format s.mem R k t → entries s₂.mem t j = entries s.mem t j :=
    fun k t j hk => h.entries_zeroFrame htaken hk j
  have h₂ : CopiedRoot R s₂ := h.congr he fun t ht => ((htaken.pmm t).mp ht).1
  have hwalk : ∀ a, hardwareWalk s₂.mem (R * 4096) a = hardwareWalk s.mem (R * 4096) a := fun a =>
    hardwareWalk_congr_under (he 0 R _ .root) fun k t j ht => he k t j ht.live
  have hvirt := alignDown_mod faultAddr 0x1000
  have hindex : tableIndex 39 (alignDown faultAddr 0x1000) = tableIndex 39 faultAddr :=
    tableIndex_alignDown (by decide) faultAddr
  have hphys := Nat.mul_mod_left d 4096
  by_cases hu : UserIndex (tableIndex 39 faultAddr)
  · refine ⟨fun _ => Or.inr (Or.inr (Or.inr (Or.inl hu))), fun _ a ha => ?_⟩
    rw [← hwalk a]
    exact congrArg _ (h₂.mapPage_user hvirt hphys rfl (hindex ▸ hu) ha.2.2)
  · have hflags : (demandFlags true).userAccessible = true := rfl
    have hiff := h₂.mapPage_kernel_iff hvirt hphys hflags (hindex ▸ hu)
    have hcard := BitmapAllocator.card_freeFrames_of_take htaken.wasFree htaken.pmm
    have hP := childClosed_liveTable s.mem R
    have hleaf : leafSlots s₂.mem 0 R (virtPath faultAddr) =
        leafSlots s.mem 0 R (virtPath faultAddr) := leafSlots_congr hP he .root rfl
    have hupper : upperSlots s₂.mem 0 R (tablePath faultAddr) =
        upperSlots s.mem 0 R (tablePath faultAddr) := upperSlots_congr hP he _ .root rfl
    simp only [hwalk, tablePath_alignDown, virtPath_alignDown, unlockedBy_congr he, hleaf,
      hupper] at hiff
    apply hiff.trans
    rw [hardwareWalk_eq, Option.isSome_map]
    simp only [hp, hzero, hsome, hu, false_or, Bool.false_eq_true]
    refine and_congr_left fun _ => or_congr_right ?_
    change s₁.pmm.freeFrames.card + _ < 3 ↔ _
    omega

end Handler

section Creation
variable {s s₁ : Machine} {K R : ℕ}

theorem Created.live (h : Created s s₁ K R)
    (hkernel : ∀ k t, LiveTable x86Format s.mem K k t → ¬ s.pmm.IsFree t) {k t : ℕ}
    (ht : LiveTable x86Format s₁.mem R k t) :
    k = 0 ∧ t = R ∨ k ≠ 0 ∧ t ≠ R ∧ LiveTable x86Format s.mem K k t ∧
      ∀ j, entries s₁.mem t j = entries s.mem t j := by
  have hne : ∀ k t, LiveTable x86Format s.mem K k t → t ≠ R := by
    intro k t hlive hcon
    exact hkernel k t hlive (hcon ▸ h.wasFree)
  have hold : ∀ k t, LiveTable x86Format s.mem K k t → ∀ j, entries s₁.mem t j = entries s.mem t j :=
    fun k t ht => entries_congr fun x hx => h.mem x (hx ▸ hne k t ht)
  induction ht with
  | root => exact Or.inl ⟨rfl, rfl⟩
  | @child level t i c _ hl hblock hc ih =>
    right
    have hlive : LiveTable x86Format s.mem K (level + 1) c := by
      rcases ih with ⟨rfl, rfl⟩ | ⟨-, -, ht, heq⟩
      · rw [graph, h.entries_eq (hne 0 K .root)] at hc
        exact LiveTable.root.child i (by decide) (Or.inl rfl) hc
      · rw [heq] at hblock
        rw [graph, heq] at hc
        exact ht.child i hl hblock hc
    exact ⟨by omega, hne _ c hlive, hlive, hold _ c hlive⟩

/-- A copy of a kernel root whose user entries are empty is a process root as described above. -/
theorem Created.copiedRoot (h : Created s s₁ K R)
    (hreserved : ∀ k t, LiveTable x86Format s.mem K k t → ¬ s.pmm.IsFree t)
    (hlevel : ∀ k l t, LiveTable x86Format s.mem K k t → LiveTable x86Format s.mem K l t → k = l)
    (hempty : ∀ i, UserIndex i → graph x86Format s.mem K i = none)
    (hsupervisor : ∀ k t j, LiveTable x86Format s.mem K k t → k ≠ 0 → k < 3 →
      X86.isPresent (entries s.mem t j) = true → X86.isHuge (entries s.mem t j) = true →
      X86.isUserAccessible (entries s.mem t j) = false) : CopiedRoot R s₁ := by
  have hKR : K ≠ R := by
    rintro rfl
    exact hreserved 0 K .root h.wasFree
  have huser : ∀ i k t, UserIndex i → ¬ LiveUnder s₁.mem R i k t := by
    intro i k t hi hcon
    induction hcon with
    | top hc =>
      rw [graph, h.entries_eq hKR] at hc
      have hnone := hempty i hi
      rw [graph, hc] at hnone
      exact absurd hnone (by simp)
    | child _ _ _ _ _ ih => exact ih
  constructor
  · intro k t ht hfree
    rcases h.live hreserved ht with ⟨-, rfl⟩ | ⟨-, -, hlive, -⟩
    · exact ((h.pmm t).mp hfree).2 rfl
    · exact hreserved k t hlive ((h.pmm t).mp hfree).1
  · intro k l t hk hl
    rcases h.live hreserved hk with ⟨rfl, rfl⟩ | ⟨-, hne, hk', -⟩
    · rcases h.live hreserved hl with ⟨rfl, -⟩ | ⟨-, hne, -, -⟩
      · rfl
      · exact absurd rfl hne
    · rcases h.live hreserved hl with ⟨-, heq⟩ | ⟨-, -, hl', -⟩
      · exact absurd heq hne
      · exact hlevel k l t hk' hl'
  · exact fun i _ k _ t hi _ hcon => absurd hcon (huser i k t hi)
  · exact fun i k t _ hi hcon => absurd hcon (huser i k t hi)
  · intro k t j ht h0 h3 hpres hhuge
    rcases h.live hreserved ht with ⟨hk, -⟩ | ⟨-, -, hlive, heq⟩
    · exact absurd hk h0
    · rw [heq] at hpres hhuge ⊢
      exact hsupervisor k t j hlive h0 h3 hpres hhuge

end Creation

section Trampoline

def trampolineMachine : Machine := ⟨multibootAlias, BitmapAllocator.new.freeRange 0x100 8⟩

def trampolineProcess : Machine := (createProcessPageTable .x86_64 0x1000 trampolineMachine).2

theorem isFree_trampolineMachine {f : ℕ} (h : trampolineMachine.pmm.IsFree f) : 0x100 ≤ f := by
  rcases (BitmapAllocator.isFree_freeRange _ 0x100 8 f).mp h with hnew | ⟨hle, -⟩
  · exact absurd hnew (BitmapAllocator.not_isFree_new f)
  · exact hle

theorem trampolineMachine_user_none {i : Fin 512} (hi : UserIndex i) :
    graph x86Format trampolineMachine.mem (0x1000 / 4096) i = none := by
  cases hc : graph x86Format trampolineMachine.mem (0x1000 / 4096) i with
  | none => rfl
  | some c =>
    rcases graph_multibootAlias (by decide) hc with ⟨hcon, -⟩ | ⟨hcon, -⟩ | ⟨-, rfl, -⟩
    · exact absurd hcon (by decide)
    · exact absurd hcon (by decide)
    · exact absurd hi (by decide)

theorem trampolineProcess_copiedRoot : CopiedRoot 0x100 trampolineProcess := by
  have hcreate : createProcessPageTable .x86_64 0x1000 trampolineMachine =
      (some 0x100000, trampolineProcess) := Prod.ext (by decide +kernel) rfl
  obtain ⟨R, hR, hcreated⟩ := createProcessPageTable_some (fun hcon => by cases hcon) hcreate
  obtain rfl : R = 0x100 := by omega
  apply hcreated.copiedRoot
  · intro k t ht hfree
    obtain ⟨rfl, hk⟩ := live_multibootAlias ht
    have hge := isFree_trampolineMachine hfree
    omega
  · intro k l t hk hl
    have hk' := (live_multibootAlias hk).1
    have hl' := (live_multibootAlias hl).1
    omega
  · exact fun i hi => trampolineMachine_user_none hi
  · intro k t j ht h0 _ hpres hhuge
    obtain ⟨rfl, -⟩ := live_multibootAlias ht
    change X86.isUserAccessible (entries multibootAlias (k + 1) j) = false
    change X86.isHuge (entries multibootAlias (k + 1) j) = true at hhuge
    rw [entries_multibootAlias, if_neg (fun hcon => absurd hcon.1 (Nat.succ_ne_zero k))] at hhuge ⊢
    split_ifs at hhuge ⊢
    · decide
    · decide
    · decide
    · decide

/-- Touching an unmapped address of the kernel half from ring 3 maps it there for ring 3. -/
theorem handlePageFault_plants_kernel_page :
    CopiedRoot 0x100 trampolineProcess ∧
      cpuTranslation trampolineProcess.mem 0x100000 0xFFFF800040000000 = none ∧
      (handlePageFault .x86_64 ⟨0x100000, 0, 0⟩ 0xFFFF800040000000 false true
        trampolineProcess).1 = some true ∧
      cpuTranslation (handlePageFault .x86_64 ⟨0x100000, 0, 0⟩ 0xFFFF800040000000 false true
        trampolineProcess).2.mem 0x100000 0xFFFF800040000000 =
          some ⟨0x101000, true, true, false⟩ := by
  refine ⟨trampolineProcess_copiedRoot, ?_⟩
  decide +kernel

/-- A fault at the first user address keeps the kernel half of the copied root as it is. -/
theorem handlePageFault_keeps_kernel_user :
    CopiedRoot 0x100 trampolineProcess ∧ ∀ a < 2 ^ 64, ¬ (userSpaceBase ≤ a ∧ a < 2 ^ 47) →
      cpuTranslation (handlePageFault .x86_64 ⟨0x100000, 0, 0⟩ 0x8000000000 false true
          trampolineProcess).2.mem (0x100 * 4096) a =
        cpuTranslation trampolineProcess.mem (0x100 * 4096) a := by
  refine ⟨trampolineProcess_copiedRoot, ?_⟩
  apply (handlePageFault_keeps_kernel_iff ⟨0x100000, 0, 0⟩ 0x8000000000 false trampolineProcess
    0x100 (by decide) trampolineProcess_copiedRoot).mpr
  exact Or.inr (Or.inr (Or.inr (Or.inl (by decide))))

end Trampoline

end MitosOS.Paging
