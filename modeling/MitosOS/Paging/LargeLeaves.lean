import MitosOS.Paging.UserAccess

/-! Large leaves and the three walkers of x86_64. `translate_addr` stops at a 1 GiB or 2 MiB leaf;
`map_page` and `unmap_page` take it for a table and read its data as entries. -/
namespace MitosOS.Paging
open MitosOS.Lib MitosOS.Memory

/-- The base and the size of the memory behind the large leaf that maps an address, if one does. -/
def largeLeaf (m : Memory) (root virt : ℕ) : Option (ℕ × ℕ) :=
  let e0 := getEntry m root (tableIndex 39 virt)
  if !X86.isPresent e0 then none
  else
    let e1 := getEntry m (X86.physicalAddress e0) (tableIndex 30 virt)
    if !X86.isPresent e1 then none
    else if X86.isHuge e1 then some (alignDown (X86.physicalAddress e1) 0x40000000, 0x40000000)
    else
      let e2 := getEntry m (X86.physicalAddress e1) (tableIndex 21 virt)
      if !X86.isPresent e2 then none
      else if X86.isHuge e2 then some (alignDown (X86.physicalAddress e2) 0x200000, 0x200000)
      else none

/-- What `map_page` and `unmap_page` should do at an address behind a large leaf: refuse, and leave
its data alone. -/
structure RefusesLargeLeaf (s : Machine) (root virt phys : ℕ) (flags : MapFlags) (base size : ℕ) :
    Prop where
  map : (mapPage x86Format s root virt phys flags).1 = .error .alreadyMapped
  unmap : ∃ e, (unmapPage x86Format s root virt).1 = .error e
  mapData : ∀ x, base ≤ x → x < base + size →
    (mapPage x86Format s root virt phys flags).2.mem x = s.mem x
  unmapData : ∀ x, base ≤ x → x < base + size → (unmapPage x86Format s root virt).2.mem x = s.mem x

section Walkers
variable {F : Format} {s s' : Machine} {root n t virt phys : ℕ} {flags : MapFlags}

theorem nextTables_error (F : Format) (u : Bool) (p : List (Fin 512)) : ∀ (s : Machine) (a : ℕ)
    {e : MemoryError}, (nextTables F u s a p).1 = .error e → e = .frameAllocationFailed := by
  induction p with
  | nil => exact fun s a e h => absurd h (by simp [nextTables])
  | cons i p ih =>
    intro s a e h
    rw [nextTables] at h
    cases hnext : nextTable F u s a i with
    | mk r s₁ =>
      rw [hnext] at h
      cases r with
      | ok b => exact ih s₁ b h
      | error e' =>
        obtain rfl : e' = e := Except.error.inj h
        have hfst := congrArg Prod.fst hnext
        unfold nextTable at hfst
        dsimp only at hfst
        split_ifs at hfst
        · split at hfst <;> exact absurd hfst (by simp)
        · split at hfst
          · exact (Except.error.inj hfst).symm
          · exact absurd hfst (by simp)

theorem nextTables_of_walk (hF : F.Lawful) (u : Bool) (p : List (Fin 512)) : ∀ (s : Machine) (n : ℕ),
    (graph F s.mem).walk n p = some t →
    ∃ s', nextTables F u s (n * 4096) p = (.ok (t * 4096), s') ∧ graph F s'.mem = graph F s.mem := by
  induction p with
  | nil =>
    intro s n hw
    rw [← Option.some.inj hw]
    exact ⟨s, rfl, rfl⟩
  | cons i p ih =>
    intro s n hw
    obtain ⟨c, hc, hw⟩ := Option.bind_eq_some_iff.mp hw
    rcases nextTable_cases hF u s n i with
      ⟨c', s₁, hnext, hc', hr⟩ | ⟨-, hnone, -⟩ | ⟨-, -, -, hnone, -⟩
    · obtain rfl : c = c' := Option.some.inj (hc.symm.trans hc')
      obtain ⟨s', hrun, hgraph⟩ := ih s₁ c (by rw [hr.graph_eq]; exact hw)
      refine ⟨s', ?_, hgraph.trans hr.graph_eq⟩
      rw [nextTables, hnext]
      exact hrun
    · rw [hc] at hnone
      exact absurd hnone (by simp)
    · rw [hc] at hnone
      exact absurd hnone (by simp)

theorem nextTables_append (F : Format) (u : Bool) (p q : List (Fin 512)) : ∀ {s s' : Machine}
    {a b : ℕ}, nextTables F u s a p = (.ok b, s') →
    nextTables F u s a (p ++ q) = nextTables F u s' b q := by
  induction p with
  | nil =>
    intro s s' a b h
    obtain ⟨ha, rfl⟩ := Prod.mk.inj h
    rw [← Except.ok.inj ha, List.nil_append]
  | cons i p ih =>
    intro s s' a b h
    rw [nextTables] at h
    rw [List.cons_append, nextTables]
    cases hnext : nextTable F u s a i with
    | mk r s₁ =>
      rw [hnext] at h
      cases r with
      | error e => exact absurd (congrArg Prod.fst h) (by simp)
      | ok c => exact ih h

/-- `map_page` reports a page as mapped when the descent ends at a table whose entry is present; it
has then written nothing after the descent. -/
theorem mapPage_alreadyMapped
    (h : (mapPage F s root virt phys flags).1 = .error .alreadyMapped) :
    virt &&& 0xFFF = 0 ∧ ∃ pt, nextTables F flags.userAccessible s root (tablePath virt) =
        (.ok pt, (mapPage F s root virt phys flags).2) ∧
      F.isPresent (getEntry (mapPage F s root virt phys flags).2.mem pt (tableIndex 12 virt)) =
        true := by
  unfold mapPage at h ⊢
  split_ifs at h ⊢ with halign
  · exact absurd h (by simp)
  · rw [not_or, not_not] at halign
    have herror := nextTables_error F flags.userAccessible (tablePath virt) s root (e := .alreadyMapped)
    cases hrun : nextTables F flags.userAccessible s root (tablePath virt) with
    | mk r s₁ =>
      rw [hrun] at h herror
      cases r with
      | error e =>
        obtain rfl : e = .alreadyMapped := Except.error.inj h
        exact absurd (herror rfl) (by simp)
      | ok pt =>
        dsimp only at h ⊢
        split_ifs at h ⊢ with hpres
        exact ⟨halign.1, pt, rfl, hpres⟩

theorem unmapPage_of_alreadyMapped (hF : F.Lawful)
    (ht : (graph F s.mem).walk n (tablePath virt) = some t)
    (h : (mapPage F s (n * 4096) virt phys flags).1 = .error .alreadyMapped) :
    (unmapPage F s (n * 4096) virt).1 = .ok () := by
  obtain ⟨halign, pt, hrun, hpres⟩ := mapPage_alreadyMapped h
  obtain ⟨s', hrun', hgraph⟩ := nextTables_of_walk hF flags.userAccessible (tablePath virt) s n ht
  obtain ⟨hpt, hs'⟩ := Prod.mk.inj (hrun'.symm.trans hrun)
  rw [← hs', ← Except.ok.inj hpt, getEntry_frame] at hpres
  have hleaf := graph_of_isPresent hpres
  rw [hgraph] at hleaf
  unfold unmapPage
  rw [if_neg (not_not.mpr halign), walkTables_eq hF, ht]
  simp only [Option.map_some, getEntry_frame, (isPresent_of_graph_some hF hleaf).1, if_true]

end Walkers

section Leaves
variable {s : Machine} {root virt phys base size : ℕ} {flags : MapFlags}

theorem translateAddr_of_largeLeaf {m : Memory} (h : largeLeaf m root virt = some (base, size)) :
    translateAddr x86Format m root virt = some (base + virt % size) := by
  unfold largeLeaf at h
  unfold translateAddr
  simp only [x86Format_isPresent, x86Format_isBlock, x86Format_physicalAddress, land_0x1FFFFF,
    land_0x3FFFFFFF]
  dsimp only at h
  split_ifs at h ⊢
  · obtain ⟨rfl, rfl⟩ := Prod.mk.inj (Option.some.inj h)
    rfl
  · obtain ⟨rfl, rfl⟩ := Prod.mk.inj (Option.some.inj h)
    rfl

/-- Behind a large leaf the tables of an address seem to exist, or the data of a 1 GiB leaf reads as
an absent directory entry. -/
theorem walk_of_largeLeaf (h : largeLeaf s.mem (root * 4096) virt = some (base, size)) :
    (∃ t, (graph x86Format s.mem).walk root (tablePath virt) = some t) ∨
      ∃ c, (graph x86Format s.mem).walk root [tableIndex 39 virt, tableIndex 30 virt] = some c ∧
        graph x86Format s.mem c (tableIndex 21 virt) = none ∧
        base ≤ c * 4096 ∧ c * 4096 + 4096 ≤ base + size := by
  unfold largeLeaf at h
  simp only [getEntry_frame] at h
  cases h0 : graph x86Format s.mem root (tableIndex 39 virt) with
  | none =>
    have hp : X86.isPresent (entries s.mem root (tableIndex 39 virt)) = false :=
      isPresent_of_graph_none h0
    simp only [hp, Bool.not_false, if_true, reduceCtorEq] at h
  | some c0 =>
  obtain ⟨hp0, ha0⟩ := isPresent_of_graph_some x86Format_lawful h0
  change X86.isPresent _ = true at hp0
  change X86.physicalAddress _ = _ at ha0
  simp only [hp0, ha0, getEntry_frame, Bool.not_true, Bool.false_eq_true, if_false] at h
  cases h1 : graph x86Format s.mem c0 (tableIndex 30 virt) with
  | none =>
    have hp : X86.isPresent (entries s.mem c0 (tableIndex 30 virt)) = false :=
      isPresent_of_graph_none h1
    simp only [hp, Bool.not_false, if_true, reduceCtorEq] at h
  | some c1 =>
  obtain ⟨hp1, ha1⟩ := isPresent_of_graph_some x86Format_lawful h1
  change X86.isPresent _ = true at hp1
  change X86.physicalAddress _ = _ at ha1
  simp only [hp1, ha1, getEntry_frame, Bool.not_true, Bool.false_eq_true, if_false] at h
  have hw : (graph x86Format s.mem).walk root [tableIndex 39 virt, tableIndex 30 virt] = some c1 := by
    rw [PathGraph.walk_cons, h0, Option.bind_some, PathGraph.walk_cons, h1, Option.bind_some,
      PathGraph.walk_nil]
  cases h2 : graph x86Format s.mem c1 (tableIndex 21 virt) with
  | some c2 => exact Or.inl ⟨c2, (PathGraph.walk_concat_of_eq hw _).trans h2⟩
  | none =>
    have hp : X86.isPresent (entries s.mem c1 (tableIndex 21 virt)) = false :=
      isPresent_of_graph_none h2
    simp only [hp, Bool.not_false, if_true] at h
    right
    split_ifs at h
    obtain ⟨rfl, rfl⟩ := Prod.mk.inj (Option.some.inj h)
    refine ⟨c1, hw, h2, alignDown_le _ _, ?_⟩
    have hlt := lt_alignDown_add (a := c1 * 4096) (n := 0x40000000) (by decide)
    have hmod := alignDown_mod (c1 * 4096) 0x40000000
    omega

/-- The walkers never treat a large leaf as one: if `map_page` reports the page as mapped, then
`unmap_page` succeeds on it, or `map_page` has written a table entry into the data of the leaf. -/
theorem not_refusesLargeLeaf (h : largeLeaf s.mem (root * 4096) virt = some (base, size)) :
    ¬ RefusesLargeLeaf s (root * 4096) virt phys flags base size := by
  rintro ⟨hmap, ⟨e, hunmap⟩, hdata, -⟩
  have hF := x86Format_lawful
  rcases walk_of_largeLeaf h with ⟨t, ht⟩ | ⟨c, hw, hnone, hlo, hhi⟩
  · rw [unmapPage_of_alreadyMapped hF ht hmap] at hunmap
    exact absurd hunmap (by simp)
  · obtain ⟨-, pt, hrun, -⟩ := mapPage_alreadyMapped hmap
    obtain ⟨s₁, hrun₁, hgraph⟩ := nextTables_of_walk hF flags.userAccessible _ s root hw
    have hlast := nextTables_append x86Format flags.userAccessible _ [tableIndex 21 virt] hrun₁
    rw [← hgraph] at hnone
    -- the descent went on through the absent entry, so it has been filled
    have hsame : graph x86Format (mapPage x86Format s (root * 4096) virt phys flags).2.mem c
        (tableIndex 21 virt) = graph x86Format s.mem c (tableIndex 21 virt) :=
      graph_congr (fun x hx => hdata x (by omega) (by omega)) _
    rw [← hgraph, hnone] at hsame
    rw [nextTables] at hlast
    rcases nextTable_cases hF flags.userAccessible s₁ c (tableIndex 21 virt) with
      ⟨c', s₂, -, hsome, -⟩ | ⟨hnext, -, -⟩ | ⟨f, s₂, hnext, -, hg⟩
    · rw [hnone] at hsome
      exact absurd hsome (by simp)
    · rw [hnext] at hlast
      exact absurd (congrArg Prod.fst (hlast.symm.trans hrun)) (by simp)
    · rw [hnext] at hlast
      have hstate := congrArg Prod.snd (hlast.symm.trans hrun)
      change s₂ = _ at hstate
      rw [← hstate, graph, hg.entries_eq, if_pos ⟨rfl, rfl⟩, hF.child_table hg.lt] at hsame
      exact absurd hsame (by simp)

/-- `map_page` and `unmap_page` agree with `translate_addr` about large leaves exactly where there is
none: an address behind a 1 GiB or 2 MiB leaf is never refused by both with the data left alone. -/
theorem largeLeaf_refused_iff (s : Machine) (root virt phys : ℕ) (flags : MapFlags) :
    ((∀ base size, largeLeaf s.mem (root * 4096) virt = some (base, size) →
        RefusesLargeLeaf s (root * 4096) virt phys flags base size) ↔
      largeLeaf s.mem (root * 4096) virt = none) ∧
    ∀ base size, largeLeaf s.mem (root * 4096) virt = some (base, size) →
      translateAddr x86Format s.mem (root * 4096) virt = some (base + virt % size) := by
  refine ⟨⟨?_, ?_⟩, fun base size h => translateAddr_of_largeLeaf h⟩
  · intro h
    cases hleaf : largeLeaf s.mem (root * 4096) virt with
    | none => rfl
    | some region => exact absurd (h _ _ hleaf) (not_refusesLargeLeaf hleaf)
  · intro hnone base size hsome
    rw [hnone] at hsome
    exact absurd hsome (by simp)

/-- Behind the trampoline's 2 MiB leaf, `unmap_page` clears the first word of physical memory and
`map_page` overwrites the second one. -/
theorem largeLeaf_data_overwritten :
    largeLeaf multibootAlias 0x1000 0xFFFF800000000000 = some (0, 0x200000) ∧
      translateAddr x86Format multibootAlias 0x1000 0xFFFF800000000000 = some 0 ∧
      (unmapPage x86Format ⟨multibootAlias, BitmapAllocator.new⟩ 0x1000 0xFFFF800000000000).1 =
        .ok () ∧
      multibootAlias 0 = 7#8 ∧
      (unmapPage x86Format ⟨multibootAlias, BitmapAllocator.new⟩ 0x1000 0xFFFF800000000000).2.mem 0 =
        0#8 ∧
      translateAddr x86Format multibootAlias 0x1000 0xFFFF800000001000 = some 0x1000 ∧
      (mapPage x86Format ⟨multibootAlias, BitmapAllocator.new⟩ 0x1000 0xFFFF800000001000 0x5000
        tableFlags).1 = .ok () ∧
      multibootAlias 8 = 0#8 ∧
      (mapPage x86Format ⟨multibootAlias, BitmapAllocator.new⟩ 0x1000 0xFFFF800000001000 0x5000
        tableFlags).2.mem 8 = 7#8 := by
  refine ⟨?_, ?_, ?_, ?_, ?_, ?_, ?_, ?_, ?_⟩ <;> decide +kernel

end Leaves

end MitosOS.Paging
