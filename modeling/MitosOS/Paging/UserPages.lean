import MitosOS.Paging.AddressSpace

/-! What a process finds at its private pages: the attributes of the leaf and the bytes of the
frame. Descending through private tables changes no page; a frame that is allocated, zeroed, mapped
and written adds one. -/
namespace MitosOS.Paging
open MitosOS.Lib MitosOS.Memory

/-- The bytes of a page, with the attribute bits of its leaf. -/
@[ext] structure PageContent where
  attributes : Entry
  bytes : Fin 4096 → BitVec 8

def pageContent (F : Format) (m : Memory) (root : ℕ) (p : PageNumber) : Option PageContent :=
  (represented F m root p).map fun b => ⟨b.attributes, fun i => m (b.frame + i)⟩

theorem topIndex_lt (p : PageNumber) : (p : ℕ) / 2 ^ 27 < 512 := by omega

def topIndex (p : PageNumber) : Fin 512 := ⟨p / 2 ^ 27, topIndex_lt p⟩

def leafPath (p : PageNumber) : List (Fin 512) := pagePath p ++ [leafIndex p]

/-- A property of the entries that `next_table` writes for new tables, kept by its upgrades. -/
structure TableRule (F : Format) (P : Entry → Prop) : Prop where
  table : ∀ frame, P (F.table frame)
  upgrade : ∀ up, F.upgrade = some up → ∀ e, P e → P (up e)

/-- What descending along private paths may do: private paths only become longer, by frames out of
the pool that serve as tables, and only the pool and the tables above the last level are written. -/
structure Deepened (F : Format) (P : Entry → Prop) (shared : Set (Fin 512)) (root : ℕ)
    (s s' : Machine) : Prop where
  isPrivate : Private F shared root s'
  kept : ∀ q ∈ privatePaths shared, ∀ t, (graph F s.mem).walk root q = some t →
    (graph F s'.mem).walk root q = some t
  fresh : ∀ q ∈ privatePaths shared, ∀ t, (graph F s'.mem).walk root q = some t →
    (graph F s.mem).walk root q = some t ∨ q.length ≤ 3 ∧ s.pmm.IsFree t
  written : ∀ x, s'.mem x ≠ s.mem x → s.pmm.IsFree (x / 4096) ∨
    ∃ q ∈ privatePaths shared, q.length ≤ 2 ∧ (graph F s.mem).walk root q = some (x / 4096)
  shrinks : ∀ f, s'.pmm.IsFree f → s.pmm.IsFree f
  upper : UpperEntries F P shared root s.mem → UpperEntries F P shared root s'.mem

section Pages
variable {F : Format} {m m' : Memory} {root : ℕ} {p : PageNumber} {shared : Set (Fin 512)}

theorem topIndex_pageNumber (virt : ℕ) : topIndex (pageNumber virt) = tableIndex 39 virt := by
  apply Fin.ext
  change virt / 4096 % 2 ^ 36 / 2 ^ 27 = _
  rw [tableIndex_val]
  omega

theorem leafPath_pageNumber (virt : ℕ) :
    leafPath (pageNumber virt) = tablePath virt ++ [tableIndex 12 virt] := by
  rw [leafPath, pagePath_pageNumber, leafIndex_pageNumber]

theorem leafPath_mem (hp : topIndex p ∉ shared) : leafPath p ∈ privatePaths shared :=
  mem_privatePaths_cons hp (le_refl 3)

theorem pagePath_mem_privatePaths (hp : topIndex p ∉ shared) : pagePath p ∈ privatePaths shared :=
  privatePaths_prefixClosed shared _ _ (leafPath_mem hp)

theorem leafPath_inj {p q : PageNumber} (h : leafPath p = leafPath q) : p = q := by
  obtain ⟨hpath, hleaf⟩ := List.append_inj h rfl
  exact pagePath_leafIndex_inj hpath (List.singleton_inj.mp hleaf)

theorem exists_of_represented (hF : F.Lawful) {b : Binding} (hb : represented F m root p = some b) :
    ∃ t d, (graph F m).walk root (pagePath p) = some t ∧ graph F m t (leafIndex p) = some d ∧
      (graph F m).walk root (leafPath p) = some d ∧ b.frame = d * 4096 := by
  obtain ⟨t, ht, hbind⟩ := Option.bind_eq_some_iff.mp hb
  unfold Format.binding at hbind
  split_ifs at hbind with hp
  have hc := graph_of_isPresent hp
  obtain ⟨-, haddr⟩ := isPresent_of_graph_some hF hc
  refine ⟨t, _, ht, hc, ?_, ?_⟩
  · rw [leafPath, PathGraph.walk_concat_of_eq ht, hc]
  · rw [← Option.some.inj hbind]
    exact haddr

theorem represented_eq_none_iff :
    represented F m root p = none ↔ (graph F m).walk root (leafPath p) = none := by
  rw [leafPath, PathGraph.walk_concat, represented]
  cases (graph F m).walk root (pagePath p) with
  | none => simp
  | some t =>
    rw [Option.bind_some, Option.bind_some, binding_eq_none, graph, Format.child]
    split_ifs with hp <;> simp [hp]

/-- The content of a page depends on its binding and on the bytes of its frame. -/
theorem pageContent_congr (hF : F.Lawful)
    (hrep : represented F m' root p = represented F m root p)
    (hbytes : ∀ d, (graph F m).walk root (leafPath p) = some d → ∀ x, x / 4096 = d → m' x = m x) :
    pageContent F m' root p = pageContent F m root p := by
  unfold pageContent
  rw [hrep]
  cases hb : represented F m root p with
  | none => rfl
  | some b =>
    obtain ⟨t, d, -, -, hw, hframe⟩ := exists_of_represented hF hb
    rw [Option.map_some, Option.map_some]
    congr 2
    funext i
    have hi := i.isLt
    exact hbytes d hw _ (by omega)

theorem represented_congr {t : ℕ} (ht : (graph F m).walk root (pagePath p) = some t)
    (ht' : (graph F m').walk root (pagePath p) = some t)
    (hleaf : entries m' t (leafIndex p) = entries m t (leafIndex p)) :
    represented F m' root p = represented F m root p := by
  unfold represented
  rw [ht, ht', Option.bind_some, Option.bind_some, hleaf]

end Pages

section Descent
variable {F : Format} {P : Entry → Prop} {shared : Set (Fin 512)} {root n f : ℕ}
  {s s₁ s' : Machine} {q : List (Fin 512)} {i : Fin 512} {p : PageNumber}

theorem Deepened.refl (h : Private F shared root s) : Deepened F P shared root s s where
  isPrivate := h
  kept _ _ _ ht := ht
  fresh _ _ _ ht := Or.inl ht
  written _ hx := absurd rfl hx
  shrinks _ hf := hf
  upper h := h

theorem Deepened.trans (h₁ : Deepened F P shared root s s₁) (h : Deepened F P shared root s₁ s') :
    Deepened F P shared root s s' where
  isPrivate := h.isPrivate
  kept q hq t ht := h.kept q hq t (h₁.kept q hq t ht)
  fresh q hq t ht := by
    rcases h.fresh q hq t ht with ht₁ | ⟨hlen, hfree⟩
    · exact h₁.fresh q hq t ht₁
    · exact Or.inr ⟨hlen, h₁.shrinks t hfree⟩
  written x hx := by
    by_cases hx₁ : s₁.mem x = s.mem x
    · rw [← hx₁] at hx
      rcases h.written x hx with hfree | ⟨q, hq, hlen, hw⟩
      · exact Or.inl (h₁.shrinks _ hfree)
      · rcases h₁.fresh q hq _ hw with hw | ⟨-, hfree⟩
        · exact Or.inr ⟨q, hq, hlen, hw⟩
        · exact Or.inl hfree
    · exact h₁.written x hx₁
  shrinks f hf := h₁.shrinks f (h.shrinks f hf)
  upper hup := h.upper (h₁.upper hup)

theorem Revisited.deepened (h : Private F shared root s) (hr : Revisited F s s' n i)
    (hq : q ++ [i] ∈ privatePaths shared) (hlen : q.length ≤ 2)
    (hw : (graph F s.mem).walk root q = some n)
    (hP : P (entries s.mem n i) → P (entries s'.mem n i)) : Deepened F P shared root s s' where
  isPrivate := (h.confined.revisited hr hq hw).1.isPrivate
  kept q _ t ht := by rw [hr.graph_eq, ht]
  fresh q _ t ht := Or.inl (by rw [← hr.graph_eq, ht])
  written x hx := by
    have hxn : x / 4096 = n := not_imp_comm.mp (hr.mem x) hx
    exact Or.inr ⟨q, privatePaths_prefixClosed shared q i hq, hlen, hxn ▸ hw⟩
  shrinks f hf := hr.pmm ▸ hf
  upper hup := hup.revisited hr hP

theorem Grown.deepened (hF : F.Lawful) (hP : TableRule F P) (h : Private F shared root s)
    (hg : Grown F s s' n i f) (hq : q ++ [i] ∈ privatePaths shared) (hlen : q.length ≤ 2)
    (hw : (graph F s.mem).walk root q = some n) (hempty : graph F s.mem n i = none) :
    Deepened F P shared root s s' := by
  have hD := privatePaths_prefixClosed shared
  have hfresh : f ∉ owned F shared s.mem root := fun hf => h.reserved f hf hg.wasFree
  have hwalk : ∀ p ∈ privatePaths shared, (graph F s'.mem).walk root p =
      if p = q ++ [i] then some f else (graph F s.mem).walk root p := fun p hp =>
    hg.walk_eq hF hD h.tree hfresh hq hw hempty hp
  refine ⟨(h.confined.grown hF hg hq hw hempty).1.isPrivate, ?_, ?_, ?_, ?_, ?_⟩
  · intro p hp t ht
    rw [hwalk p hp, if_neg, ht]
    rintro rfl
    rw [PathGraph.walk_concat_of_eq hw, hempty] at ht
    exact absurd ht (by simp)
  · intro p hp t ht
    rw [hwalk p hp] at ht
    split_ifs at ht with hnew
    · right
      rw [hnew, List.length_append, List.length_singleton, ← Option.some.inj ht]
      exact ⟨by omega, hg.wasFree⟩
    · exact Or.inl ht
  · intro x hx
    by_cases hxf : x / 4096 = f
    · exact Or.inl (hxf ▸ hg.wasFree)
    · have hxn : x / 4096 = n := by
        by_contra hne
        exact hx (hg.mem_apply hne hxf)
      exact Or.inr ⟨q, hD q i hq, hlen, hxn ▸ hw⟩
  · exact fun g hgfree => ((hg.pmm g).mp hgfree).1
  · exact fun hup => hup.grown hF hg (hP.table _) hwalk

theorem nextTable_present (hP : TableRule F P) (u : Bool) {c : ℕ}
    (hc : graph F s.mem n i = some c) (hold : P (entries s.mem n i)) :
    P (entries (nextTable F u s (n * 4096) i).2.mem n i) := by
  have hp : F.isPresent (getEntry s.mem (n * 4096) i) = true := by
    by_contra hne
    rw [getEntry_frame] at hne
    rw [graph, Format.child, if_neg hne] at hc
    exact absurd hc (by simp)
  unfold nextTable
  simp only [hp, if_true]
  split
  · next up hup =>
    rw [entries_setEntry, if_pos ⟨rfl, rfl⟩]
    exact hP.upgrade up hup _ hold
  · exact hold

theorem Private.nextTables (hF : F.Lawful) (hP : TableRule F P) (u : Bool) (p : List (Fin 512)) :
    ∀ {s : Machine} {q : List (Fin 512)} {n : ℕ}, Private F shared root s →
    q ++ p ∈ privatePaths shared → q.length + p.length ≤ 3 →
    (graph F s.mem).walk root q = some n →
    ∃ r s', nextTables F u s (n * 4096) p = (r, s') ∧ Deepened F P shared root s s' ∧
      ∀ a, r = .ok a → ∃ t, a = t * 4096 ∧ (graph F s'.mem).walk root (q ++ p) = some t := by
  induction p with
  | nil =>
    intro s q n h _ _ hw
    refine ⟨_, s, rfl, .refl h, fun a ha => ⟨n, (Except.ok.inj ha).symm, ?_⟩⟩
    rw [List.append_nil, hw]
  | cons i p ih =>
    intro s q n h hqp hlen hw
    have happ : q ++ i :: p = q ++ [i] ++ p := by simp
    rw [List.length_cons] at hlen
    rw [happ] at hqp ⊢
    have hq : q ++ [i] ∈ privatePaths shared :=
      (privatePaths_prefixClosed shared).mem_of_isPrefix hqp (List.prefix_append _ _)
    have hlen' : (q ++ [i]).length + p.length ≤ 3 := by
      rw [List.length_append, List.length_singleton]
      omega
    simp only [MitosOS.Paging.nextTables]
    rcases nextTable_cases hF u s n i with
      ⟨c, s₁, hnext, hc, hr⟩ | ⟨hnext, -, -⟩ | ⟨f, s₁, hnext, hc, hg⟩
    · have hkeeps : P (entries s.mem n i) → P (entries s₁.mem n i) := by
        intro hold
        have hnew := nextTable_present hP u hc hold
        rw [hnext] at hnew
        exact hnew
      have h₁ := hr.deepened h hq (by omega) hw hkeeps
      have hw₁ : (graph F s₁.mem).walk root (q ++ [i]) = some c := by
        rw [hr.graph_eq, PathGraph.walk_concat_of_eq hw, hc]
      obtain ⟨r, s', hrun, h', hres⟩ := ih h₁.isPrivate hqp hlen' hw₁
      exact ⟨r, s', by rw [hnext]; exact hrun, h₁.trans h', hres⟩
    · refine ⟨_, s, by rw [hnext], .refl h, fun a ha => ?_⟩
      exact Except.noConfusion rfl rfl (heq_of_eq ha)
    · have h₁ := hg.deepened hF hP h hq (by omega) hw hc
      obtain ⟨-, -, hw₁⟩ := h.confined.grown hF hg hq hw hc
      obtain ⟨r, s', hrun, h', hres⟩ := ih h₁.isPrivate hqp hlen' hw₁
      exact ⟨r, s', by rw [hnext]; exact hrun, h₁.trans h', hres⟩

theorem Deepened.mem_apply (h : Private F shared root s) (hd : Deepened F P shared root s s')
    {q : List (Fin 512)} (hq : q ∈ privatePaths shared) (hlen : 3 ≤ q.length) {t x : ℕ}
    (hw : (graph F s.mem).walk root q = some t) (hx : x / 4096 = t) : s'.mem x = s.mem x := by
  by_contra hne
  rcases hd.written x hne with hfree | ⟨r, hr, hrlen, hrw⟩
  · exact h.reserved _ ⟨q, hq, hw⟩ (hx ▸ hfree)
  · have heq := h.tree q hq r hr t hw (hx ▸ hrw)
    rw [heq] at hlen
    omega

theorem Deepened.represented_eq (h : Private F shared root s) (hd : Deepened F P shared root s s')
    (hp : topIndex p ∉ shared) : represented F s'.mem root p = represented F s.mem root p := by
  cases ht : (graph F s.mem).walk root (pagePath p) with
  | some t =>
    have hpath := pagePath_mem_privatePaths hp
    apply represented_congr ht (hd.kept _ hpath t ht)
    exact entries_congr (fun x hx => hd.mem_apply h hpath (le_refl 3) ht hx) _
  | none =>
    have hnone : represented F s.mem root p = none := by rw [represented, ht, Option.bind_none]
    rw [hnone]
    rw [represented_eq_none_iff] at hnone ⊢
    cases hw : (graph F s'.mem).walk root (leafPath p) with
    | none => rfl
    | some d =>
      rcases hd.fresh _ (leafPath_mem hp) d hw with hold | ⟨hlen, -⟩
      · rw [hnone] at hold
        exact absurd hold (by simp)
      · exact absurd hlen (by simp [leafPath, pagePath])

theorem Deepened.pageContent_eq (hF : F.Lawful) (h : Private F shared root s)
    (hd : Deepened F P shared root s s') (hp : topIndex p ∉ shared) :
    pageContent F s'.mem root p = pageContent F s.mem root p := by
  apply pageContent_congr hF (hd.represented_eq h hp)
  intro d hw x hx
  exact hd.mem_apply h (leafPath_mem hp) (by simp [leafPath, pagePath]) hw hx

end Descent

section Writes
variable {F : Format} {P : Entry → Prop} {shared : Set (Fin 512)} {root d t : ℕ}
  {s s₁ s₂ : Machine} {m : Memory} {p p' : PageNumber}

theorem SameTables.represented_eq (h : SameTables F shared root s.mem m) (hp : topIndex p ∉ shared) :
    represented F m root p = represented F s.mem root p := by
  have hpath := pagePath_mem_privatePaths hp
  have hwalk := h.walk_eq _ hpath
  cases ht : (graph F s.mem).walk root (pagePath p) with
  | none => rw [represented, represented, hwalk, ht, Option.bind_none, Option.bind_none]
  | some t =>
    apply represented_congr ht (hwalk.trans ht)
    exact entries_congr (h _ t hpath (le_refl 3) ht) _

/-- Writes outside the frames of the process change none of its pages. -/
theorem pageContent_of_owned (hF : F.Lawful)
    (hmem : ∀ x, x / 4096 ∈ owned F shared s.mem root → m x = s.mem x)
    (hp : topIndex p ∉ shared) : pageContent F m root p = pageContent F s.mem root p := by
  apply pageContent_congr hF
  · apply SameTables.represented_eq _ hp
    intro q t hq _ ht x hx
    exact hmem x ⟨q, hq, hx ▸ ht⟩
  · intro d hw x hx
    exact hmem x ⟨_, leafPath_mem hp, hx ▸ hw⟩

theorem Private.represented_setLeaf (h : Private F shared root s) (hp : topIndex p ∉ shared)
    (ht : (graph F s.mem).walk root (pagePath p) = some t) (e : Entry) (hp' : topIndex p' ∉ shared) :
    represented F (setEntry s.mem (t * 4096) (leafIndex p) e) root p' =
      if p' = p then F.binding e else represented F s.mem root p' := by
  have hpath := pagePath_mem_privatePaths hp
  have hpath' := pagePath_mem_privatePaths hp'
  have hwalk : (graph F (setEntry s.mem (t * 4096) (leafIndex p) e)).walk root (pagePath p') =
      (graph F s.mem).walk root (pagePath p') := by
    rw [graph_setEntry]
    apply PathGraph.walk_set_of_not_isPrefix (privatePaths_prefixClosed shared) h.tree
      (leafPath_mem hp) ht _ hpath'
    intro hpre
    exact absurd hpre.length_le (by simp [pagePath])
  split_ifs with heq
  · rw [represented, hwalk, heq, ht, Option.bind_some, entries_setEntry, if_pos ⟨rfl, rfl⟩]
  · cases ht' : (graph F s.mem).walk root (pagePath p') with
    | none => rw [represented, represented, hwalk, ht', Option.bind_none, Option.bind_none]
    | some t' =>
      apply represented_congr ht' (hwalk.trans ht')
      rw [entries_setEntry, if_neg]
      rintro ⟨rfl, hleaf⟩
      exact heq (pagePath_leafIndex_inj (h.tree _ hpath' _ hpath t' ht' ht) hleaf)

theorem Private.pageContent_setLeaf (hF : F.Lawful) (h : Private F shared root s)
    (hp : topIndex p ∉ shared) (ht : (graph F s.mem).walk root (pagePath p) = some t)
    (hlt : d < 65536) (hdt : d ≠ t) (flags : MapFlags) (hp' : topIndex p' ∉ shared) :
    pageContent F (setEntry s.mem (t * 4096) (leafIndex p) (F.leaf (d * 4096) flags)) root p' =
      if p' = p then some ⟨F.encodeFlags flags, fun i => s.mem (d * 4096 + i)⟩
      else pageContent F s.mem root p' := by
  have hrep := h.represented_setLeaf hp ht (F.leaf (d * 4096) flags) hp'
  split_ifs with heq
  · rw [if_pos heq, hF.binding_leaf (Nat.mul_mod_left d 4096) (hF.frame_lt hlt)] at hrep
    rw [pageContent, hrep, Option.map_some]
    congr 2
    funext i
    have hi := i.isLt
    exact setEntry_apply _ _ _ (show (d * 4096 + i) / 4096 ≠ t by omega)
  · rw [if_neg heq] at hrep
    apply pageContent_congr hF hrep
    intro d' hw x hx
    apply setEntry_apply
    rintro rfl
    have hlen := congrArg List.length (h.tree _ (leafPath_mem hp') _ (pagePath_mem_privatePaths hp) _
      hw (hx ▸ ht))
    exact absurd hlen (by simp [leafPath, pagePath])

/-- The bytes of a page after a write that starts at `off`. -/
def overwrite (old : Fin 4096 → BitVec 8) (off : ℕ) (bytes : List (BitVec 8)) :
    Fin 4096 → BitVec 8 :=
  fun i => if off ≤ i then bytes.getD (i - off) (old i) else old i

theorem Private.pageContent_blit (hF : F.Lawful) (h : Private F shared root s)
    (hp : topIndex p ∉ shared) (hw : (graph F s.mem).walk root (leafPath p) = some d) {off : ℕ}
    {bytes : List (BitVec 8)} (hroom : off + bytes.length ≤ 4096) (hp' : topIndex p' ∉ shared) :
    pageContent F (s.mem.blit (d * 4096 + off) bytes) root p' =
      if p' = p then (pageContent F s.mem root p).map fun c =>
        { c with bytes := overwrite c.bytes off bytes }
      else pageContent F s.mem root p' := by
  have hother : ∀ x, x / 4096 ≠ d → s.mem.blit (d * 4096 + off) bytes x = s.mem x := by
    intro x hx
    by_contra hne
    exact hx (blit_changes_page (by omega) hne)
  have hrep : represented F (s.mem.blit (d * 4096 + off) bytes) root p' =
      represented F s.mem root p' := by
    apply SameTables.represented_eq _ hp'
    intro q t hq hlen ht x hx
    apply hother
    rintro hxd
    have heq := h.tree q hq _ (leafPath_mem hp) t ht (by rw [hw, ← hx, hxd])
    rw [heq] at hlen
    exact absurd hlen (by simp [leafPath, pagePath])
  split_ifs with heq
  · subst heq
    rw [pageContent, pageContent, hrep, Option.map_map]
    cases hb : represented F s.mem root p' with
    | none => rfl
    | some b =>
      obtain ⟨-, d', -, -, hw', hframe⟩ := exists_of_represented hF hb
      obtain rfl : d = d' := Option.some.inj (hw.symm.trans hw')
      rw [Option.map_some, Option.map_some, Function.comp_apply, hframe]
      congr 2
      funext i
      unfold Memory.blit overwrite
      simp only [Nat.add_le_add_iff_left, Nat.add_sub_add_left]
  · apply pageContent_congr hF hrep
    intro d' hw' x hx
    apply hother
    rintro rfl
    exact heq (leafPath_inj (h.tree _ (leafPath_mem hp') _ (leafPath_mem hp) _ hw' (hx ▸ hw)))

theorem mapPage_ok {root virt phys : ℕ} {flags : MapFlags}
    (h : mapPage F s root virt phys flags = (.ok (), s₂)) :
    ∃ pt s₁, nextTables F flags.userAccessible s root (tablePath virt) = (.ok pt, s₁) ∧
      F.isPresent (getEntry s₁.mem pt (tableIndex 12 virt)) = false ∧
      s₂ = { s₁ with mem := setEntry s₁.mem pt (tableIndex 12 virt) (F.leaf phys flags) } := by
  unfold mapPage at h
  split_ifs at h
  · exact absurd (congrArg Prod.fst h) (by simp)
  · cases hrun : nextTables F flags.userAccessible s root (tablePath virt) with
    | mk r s₁ =>
      rw [hrun] at h
      cases r with
      | error e => exact absurd (congrArg Prod.fst h) (by simp)
      | ok pt =>
        dsimp only at h
        split_ifs at h with hpres
        · exact absurd (congrArg Prod.fst h) (by simp)
        · exact ⟨pt, s₁, rfl, Bool.eq_false_iff.mpr hpres, (congrArg Prod.snd h).symm⟩

/-- `map_page` with a frame in hand adds the bytes of the frame as a page. -/
theorem Private.mapPage_pageContent (hF : F.Lawful) (hP : TableRule F P)
    (h : Private F shared root s) (hd : d ∉ pool F shared root s) (hlt : d < 65536) {virt : ℕ}
    (hv : tableIndex 39 virt ∉ shared) {flags : MapFlags}
    (hmap : mapPage F s (root * 4096) virt (d * 4096) flags = (.ok (), s₂)) :
    (UpperEntries F P shared root s.mem → UpperEntries F P shared root s₂.mem) ∧
      pageContent F s.mem root (pageNumber virt) = none ∧
      ∀ p, topIndex p ∉ shared → pageContent F s₂.mem root p =
        if p = pageNumber virt then some ⟨F.encodeFlags flags, fun i => s.mem (d * 4096 + i)⟩
        else pageContent F s.mem root p := by
  have hpv : topIndex (pageNumber virt) ∉ shared := topIndex_pageNumber virt ▸ hv
  obtain ⟨pt, s₁, hrun, hempty, rfl⟩ := mapPage_ok hmap
  have htable : [] ++ tablePath virt ∈ privatePaths shared :=
    privatePaths_prefixClosed shared _ _ (tablePath_mem hv (tableIndex 12 virt))
  obtain ⟨r, s₁', hrun', hdeep, hres⟩ :=
    h.nextTables hF hP flags.userAccessible (tablePath virt) htable (le_refl 3) rfl
  obtain ⟨rfl, rfl⟩ := Prod.mk.inj (hrun'.symm.trans hrun)
  obtain ⟨t, rfl, ht⟩ := hres pt rfl
  rw [List.nil_append, ← pagePath_pageNumber] at ht
  -- the frame is neither a table on the way nor written by the descent
  have hdt : d ≠ t := by
    rintro rfl
    rcases hdeep.fresh _ (pagePath_mem_privatePaths hpv) d ht with hold | ⟨-, hfree⟩
    · exact hd (Or.inl ⟨_, pagePath_mem_privatePaths hpv, hold⟩)
    · exact hd (Or.inr hfree)
  have hbytes : ∀ x, x / 4096 = d → s₁'.mem x = s.mem x := by
    intro x hx
    by_contra hne
    rcases hdeep.written x hne with hfree | ⟨q, hq, -, hw⟩
    · exact hd (Or.inr (hx ▸ hfree))
    · exact hd (Or.inl ⟨q, hq, hx ▸ hw⟩)
  rw [getEntry_frame, ← leafIndex_pageNumber] at hempty
  rw [← leafIndex_pageNumber]
  refine ⟨fun hup => ?_, ?_, fun p hp => ?_⟩
  · exact hdeep.isPrivate.upper_setLeaf ⟨leafPath_mem hpv, rfl, ht⟩ _ (hdeep.upper hup)
  · rw [← hdeep.pageContent_eq hF h hpv, pageContent, represented_of_walk ht,
      binding_eq_none.mpr hempty, Option.map_none]
  · rw [hdeep.isPrivate.pageContent_setLeaf hF hpv ht hlt hdt flags hp, hdeep.pageContent_eq hF h hp]
    congr 4
    funext i
    have hi := i.isLt
    exact hbytes _ (by omega)

theorem Private.upperEntries_write (h : Private F shared root s)
    (hup : UpperEntries F P shared root s.mem) {p : PageNumber} (hp : topIndex p ∉ shared)
    (hw : (graph F s.mem).walk root (leafPath p) = some d) {m : Memory}
    (hwrite : ∀ x, m x ≠ s.mem x → x / 4096 = d) : UpperEntries F P shared root m := by
  apply hup.congr
  intro q t hq hlen hqt
  apply entries_congr
  intro x hx
  by_contra hne
  have heq := h.tree q hq _ (leafPath_mem hp) t hqt (by rw [hw, ← hx, hwrite x hne])
  rw [heq] at hlen
  exact absurd hlen (by simp [leafPath, pagePath])

/-- A fresh frame that is zeroed, mapped at a private address and written adds one page. -/
theorem Private.addPage (hF : F.Lawful) (hP : TableRule F P) (h : Private F shared root s)
    (hup : UpperEntries F P shared root s.mem) (ht : Taken s s₁ d) {virt : ℕ}
    (hv : tableIndex 39 virt ∉ shared) {flags : MapFlags}
    (hmap : mapPage F { s₁ with mem := zeroFrame s₁.mem (d * 4096) } (root * 4096) virt (d * 4096)
      flags = (.ok (), s₂)) {off : ℕ} {bytes : List (BitVec 8)} (hroom : off + bytes.length ≤ 4096) :
    Private F shared root { s₂ with mem := s₂.mem.blit (d * 4096 + off) bytes } ∧
      UpperEntries F P shared root (s₂.mem.blit (d * 4096 + off) bytes) ∧
      pageContent F s.mem root (pageNumber virt) = none ∧
      ∀ p, topIndex p ∉ shared →
        pageContent F (s₂.mem.blit (d * 4096 + off) bytes) root p =
          if p = pageNumber virt then
            some ⟨F.encodeFlags flags, overwrite (fun _ => 0) off bytes⟩
          else pageContent F s.mem root p := by
  have hpv : topIndex (pageNumber virt) ∉ shared := topIndex_pageNumber virt ▸ hv
  have hfree : d ∉ owned F shared s.mem root := fun hd => h.reserved d hd ht.wasFree
  obtain ⟨hd₁, h₁, -⟩ := h.confined.alloc ht
  obtain ⟨hz, hdz, -⟩ := h₁.writeInHand hd₁ fun x hx => zeroFrame_apply _ hx
  obtain ⟨r, s₂', hmap', h₂, hres⟩ := hz.mapPage hF hdz ht.lt hv flags
  obtain ⟨rfl, rfl⟩ := Prod.mk.inj (hmap'.symm.trans hmap)
  have hw : (graph F s₂'.mem).walk root (leafPath (pageNumber virt)) = some d := by
    rcases hres with ⟨-, -, hw⟩ | ⟨⟨e, he⟩, -⟩
    · rw [leafPath_pageNumber, hw]
    · exact absurd he (by simp)
  have hsame : ∀ x, x / 4096 ∈ owned F shared s.mem root →
      zeroFrame s₁.mem (d * 4096) x = s.mem x := by
    intro x hx
    rw [zeroFrame_apply, ht.mem]
    rintro rfl
    exact hfree hx
  have hupz : UpperEntries F P shared root (zeroFrame s₁.mem (d * 4096)) :=
    hup.congr fun q t hq _ hqt => entries_congr fun x hx => hsame x ⟨q, hq, hx ▸ hqt⟩
  obtain ⟨hup₂, hnone, hpages⟩ :=
    hz.isPrivate.mapPage_pageContent hF hP hdz.notMem ht.lt hv hmap
  dsimp only at hup₂ hnone hpages
  have hold : ∀ p, topIndex p ∉ shared → pageContent F (zeroFrame s₁.mem (d * 4096)) root p =
      pageContent F s.mem root p := fun p hp => pageContent_of_owned hF hsame hp
  have hwrite : ∀ x, s₂'.mem.blit (d * 4096 + off) bytes x ≠ s₂'.mem x → x / 4096 = d :=
    fun x hx => blit_changes_page (by omega) hx
  obtain ⟨h₃, -⟩ := h₂.writeData (m := s₂'.mem.blit (d * 4096 + off) bytes) fun x hx =>
    ⟨_, leafPath_mem hpv, by simp [leafPath, pagePath], hwrite x hx ▸ hw⟩
  refine ⟨h₃.isPrivate, ?_, ?_, fun p hp => ?_⟩
  · exact h₂.isPrivate.upperEntries_write (hup₂ hupz) hpv hw hwrite
  · rw [← hold _ hpv, hnone]
  · rw [h₂.isPrivate.pageContent_blit hF hpv hw hroom hp, hpages p hp, hpages _ hpv, if_pos rfl,
      Option.map_some]
    split_ifs with heq
    · have hzero : ∀ i : Fin 4096, zeroFrame s₁.mem (d * 4096) (d * 4096 + i) = 0 := by
        intro i
        have hi := i.isLt
        exact Memory.fill_apply_of_mem _ _ (by omega)
      simp only [hzero]
    · exact hold p hp

end Writes

end MitosOS.Paging
