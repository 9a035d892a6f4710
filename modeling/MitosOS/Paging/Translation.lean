import MitosOS.Paging.LiveTables
import MitosOS.Paging.UserAccess

/-! The x86_64 MMU's view of a root: the table slots it reads for an address, and the translation
and rights they add up to. -/
namespace MitosOS.Paging
open MitosOS.Lib MitosOS.Memory

abbrev TableSlot := ℕ × Fin 512

def virtPath (virt : ℕ) : List (Fin 512) := tablePath virt ++ [tableIndex 12 virt]

/-- The slots the MMU reads from table `n` on, when the walk ends at a present leaf. Below the top
level an entry with bit 7 set is itself a leaf. -/
def leafSlots (m : Memory) : ℕ → ℕ → List (Fin 512) → Option (List TableSlot)
  | _, _, [] => some []
  | level, n, i :: q =>
    (graph x86Format m n i).bind fun c =>
      if level ≠ 0 ∧ X86.isHuge (entries m n i) = true then some [(n, i)]
      else (leafSlots m (level + 1) c q).map ((n, i) :: ·)

/-- The present entries the MMU reads along `p`, up to an absent one or a large leaf. -/
def upperSlots (m : Memory) : ℕ → ℕ → List (Fin 512) → List TableSlot
  | _, _, [] => []
  | level, n, i :: p =>
    match graph x86Format m n i with
    | none => []
    | some c =>
      (n, i) :: if level ≠ 0 ∧ X86.isHuge (entries m n i) = true then []
        else upperSlots m (level + 1) c p

/-- Where an address leads, and what ring 3 may do there. -/
structure Mapping where
  phys : ℕ
  user : Bool
  writable : Bool
  executeDisable : Bool
  deriving DecidableEq, Repr

/-- The size of the page behind a walk of the given length. -/
def leafSize : ℕ → ℕ
  | 2 => 0x40000000
  | 3 => 0x200000
  | _ => 0x1000

/-- The rights of a page are those that every entry on the way grants. -/
def mappingOf (virt : ℕ) (path : List Entry) : Mapping where
  phys := alignDown (X86.physicalAddress (path.getLastD 0#64)) (leafSize path.length) +
    virt % leafSize path.length
  user := path.all X86.isUserAccessible
  writable := path.all X86.isWritable
  executeDisable := path.any fun e => e.getLsbD 63

/-- Bits 47 to 63 of the address are equal. -/
def IsCanonical (virt : ℕ) : Prop := virt < 2 ^ 47 ∨ 2 ^ 64 - 2 ^ 47 ≤ virt

instance (virt : ℕ) : Decidable (IsCanonical virt) := inferInstanceAs (Decidable (_ ∨ _))

def cpuTranslation (m : Memory) (root virt : ℕ) : Option Mapping :=
  if IsCanonical virt then (hardwareWalk m root virt).map (mappingOf virt) else none

def canonicalForm (virt : ℕ) : ℕ :=
  if virt % 2 ^ 48 < 2 ^ 47 then virt % 2 ^ 48 else virt % 2 ^ 48 + (2 ^ 64 - 2 ^ 48)

section Addresses

theorem canonicalForm_lt (virt : ℕ) : canonicalForm virt < 2 ^ 64 := by
  unfold canonicalForm
  split_ifs <;> omega

theorem isCanonical_canonicalForm (virt : ℕ) : IsCanonical (canonicalForm virt) := by
  unfold IsCanonical canonicalForm
  split_ifs <;> omega

theorem tableIndex_canonicalForm {shift : ℕ} (hs : shift ≤ 39) (virt : ℕ) :
    tableIndex shift (canonicalForm virt) = tableIndex shift virt := by
  have hlow : canonicalForm virt % 2 ^ 48 = virt % 2 ^ 48 := by
    unfold canonicalForm
    split_ifs <;> omega
  have hmod : ∀ x, x / 2 ^ shift % 512 = x % 2 ^ 48 / 2 ^ shift % 512 := by
    intro x
    have hpow : 2 ^ 48 = 2 ^ shift * (512 * 2 ^ (39 - shift)) := by
      rw [show (512 : ℕ) = 2 ^ 9 from rfl, ← Nat.pow_add, ← Nat.pow_add]
      congr 1
      omega
    rw [hpow, Nat.mod_mul_right_div_self, Nat.mod_mul_right_mod]
  apply Fin.ext
  rw [tableIndex_val, tableIndex_val, hmod, hlow, ← hmod]

theorem virtPath_canonicalForm (virt : ℕ) : virtPath (canonicalForm virt) = virtPath virt := by
  unfold virtPath tablePath
  rw [tableIndex_canonicalForm (by decide), tableIndex_canonicalForm (by decide),
    tableIndex_canonicalForm (by decide), tableIndex_canonicalForm (by decide)]

end Addresses

section Slots
variable {m m' : Memory} {level n : ℕ} {q : List (Fin 512)} {l : List TableSlot}

theorem leafSlots_cons (m : Memory) (level n : ℕ) (i : Fin 512) (q : List (Fin 512)) :
    leafSlots m level n (i :: q) = (graph x86Format m n i).bind fun c =>
      if level ≠ 0 ∧ X86.isHuge (entries m n i) = true then some [(n, i)]
      else (leafSlots m (level + 1) c q).map ((n, i) :: ·) := rfl

theorem not_large {e : Entry} :
    ¬ (level ≠ 0 ∧ X86.isHuge e = true) ↔ level = 0 ∨ X86.isHuge e = false := by
  rw [not_and_or, not_not, Bool.not_eq_true]

/-- The walk of the hardware reads the entries of the leaf slots. -/
theorem hardwareWalk_eq (m : Memory) (root virt : ℕ) :
    hardwareWalk m (root * 4096) virt =
      (leafSlots m 0 root (virtPath virt)).map (List.map fun σ => entries m σ.1 σ.2) := by
  unfold hardwareWalk virtPath tablePath
  simp only [getEntry_frame, List.cons_append, List.nil_append, leafSlots_cons]
  cases h0 : graph x86Format m root (tableIndex 39 virt) with
  | none =>
    have hp : X86.isPresent _ = false := isPresent_of_graph_none h0
    simp [hp]
  | some c0 =>
  obtain ⟨hp0, ha0⟩ := isPresent_of_graph_some x86Format_lawful h0
  change X86.isPresent _ = true at hp0
  change X86.physicalAddress _ = _ at ha0
  simp only [hp0, ha0, getEntry_frame, Bool.not_true, Bool.false_eq_true, if_false]
  cases h1 : graph x86Format m c0 (tableIndex 30 virt) with
  | none =>
    have hp : X86.isPresent _ = false := isPresent_of_graph_none h1
    simp [hp, h1]
  | some c1 =>
  obtain ⟨hp1, ha1⟩ := isPresent_of_graph_some x86Format_lawful h1
  change X86.isPresent _ = true at hp1
  change X86.physicalAddress _ = _ at ha1
  cases hb1 : X86.isHuge (entries m c0 (tableIndex 30 virt)) with
  | true => simp [hp1, h1, hb1]
  | false =>
  simp only [hp1, ha1, getEntry_frame, Bool.not_true, Bool.false_eq_true, if_false]
  cases h2 : graph x86Format m c1 (tableIndex 21 virt) with
  | none =>
    have hp : X86.isPresent _ = false := isPresent_of_graph_none h2
    simp [hp, h1, h2, hb1]
  | some c2 =>
  obtain ⟨hp2, ha2⟩ := isPresent_of_graph_some x86Format_lawful h2
  change X86.isPresent _ = true at hp2
  change X86.physicalAddress _ = _ at ha2
  cases hb2 : X86.isHuge (entries m c1 (tableIndex 21 virt)) with
  | true => simp [hp2, h1, h2, hb1, hb2]
  | false =>
  simp only [hp2, ha2, getEntry_frame, Bool.not_true, Bool.false_eq_true, if_false]
  cases h3 : graph x86Format m c2 (tableIndex 12 virt) with
  | none =>
    have hp : X86.isPresent _ = false := isPresent_of_graph_none h3
    simp [hp, h1, h2, h3, hb1, hb2]
  | some c3 =>
    obtain ⟨hp3, -⟩ := isPresent_of_graph_some x86Format_lawful h3
    change X86.isPresent _ = true at hp3
    simp [hp3, h1, h2, h3, hb1, hb2, leafSlots]

/-- An entry as it was, or with the U/S bit set on top. -/
def Upgraded (e e' : Entry) : Prop := e' = e ∨ e' = X86.ensureUserAccessible e

theorem Upgraded.of_eq_ite {e e' : Entry} {c : Prop} [Decidable c]
    (h : e' = if c then X86.ensureUserAccessible e else e) : Upgraded e e' := by
  rw [h]
  split_ifs
  · exact Or.inr rfl
  · exact Or.inl rfl

theorem Upgraded.isHuge {e e' : Entry} (h : Upgraded e e') : X86.isHuge e' = X86.isHuge e := by
  rcases h with rfl | rfl
  · rfl
  · exact X86.isHuge_ensureUserAccessible e

theorem Upgraded.child {e e' : Entry} (h : Upgraded e e') :
    x86Format.child e' = x86Format.child e := by
  rcases h with rfl | rfl
  · rfl
  · unfold Format.child
    rw [x86Format_lawful.physicalAddress_upgrade rfl]
    exact congrArg (if · = true then _ else _) (X86.isPresent_ensureUserAccessible e)

theorem X86.isUserAccessible_ensureUserAccessible (e : Entry) :
    X86.isUserAccessible (X86.ensureUserAccessible e) = true := by
  unfold X86.isUserAccessible X86.ensureUserAccessible
  rw [land_shift_ne_zero _ (by decide), getLsbD_setBit e 2 (by decide), decide_eq_true rfl,
    Bool.or_true]

theorem Upgraded.getLsbD {e e' : Entry} (h : Upgraded e e') {k : ℕ} (hk : k < 64) (hne : k ≠ 2) :
    e'.getLsbD k = e.getLsbD k := by
  rcases h with rfl | rfl
  · rfl
  · unfold X86.ensureUserAccessible
    rw [getLsbD_setBit e 2 hk, decide_eq_false hne, Bool.or_false]

theorem Upgraded.isWritable {e e' : Entry} (h : Upgraded e e') :
    X86.isWritable e' = X86.isWritable e := by
  unfold X86.isWritable
  rw [land_shift_ne_zero _ (by decide), land_shift_ne_zero _ (by decide),
    h.getLsbD (by decide) (by decide)]

theorem Upgraded.physicalAddress {e e' : Entry} (h : Upgraded e e') :
    X86.physicalAddress e' = X86.physicalAddress e := by
  rcases h with rfl | rfl
  · rfl
  · exact x86Format_lawful.physicalAddress_upgrade rfl e

/-- Along a walk whose entries only gain the U/S bit, ring 3 access is all that can change. -/
theorem mappingOf_upgraded {E E' : TableSlot → Entry} (virt : ℕ)
    (h : ∀ σ ∈ l, Upgraded (E σ) (E' σ)) :
    mappingOf virt (l.map E') = { mappingOf virt (l.map E) with
      user := l.all fun σ => X86.isUserAccessible (E' σ) } := by
  have hlast : X86.physicalAddress ((l.map E').getLastD 0#64) =
      X86.physicalAddress ((l.map E).getLastD 0#64) := by
    rcases List.eq_nil_or_concat l with rfl | ⟨l', σ, rfl⟩
    · rfl
    · rw [List.concat_eq_append, List.map_append, List.map_append, List.map_singleton,
        List.map_singleton, List.getLastD_concat, List.getLastD_concat]
      exact (h σ (by simp)).physicalAddress
  have hwritable : (l.all fun σ => X86.isWritable (E' σ)) = l.all fun σ => X86.isWritable (E σ) := by
    rw [Bool.eq_iff_iff, List.all_eq_true, List.all_eq_true]
    exact forall₂_congr fun σ hσ => by rw [(h σ hσ).isWritable]
  have hnx : (l.any fun σ => (E' σ).getLsbD 63) = l.any fun σ => (E σ).getLsbD 63 := by
    rw [Bool.eq_iff_iff, List.any_eq_true, List.any_eq_true]
    exact exists_congr fun σ => and_congr_right fun hσ => by
      rw [(h σ hσ).getLsbD (by decide) (by decide)]
  unfold mappingOf
  simp only [hlast, List.length_map, List.all_map, List.any_map, Function.comp_def, hwritable, hnx]

theorem graph_of_upgraded {t : ℕ} {i : Fin 512} (h : Upgraded (entries m t i) (entries m' t i)) :
    graph x86Format m' t i = graph x86Format m t i := h.child

theorem leafSlots_cons_some {i : Fin 512} (h : leafSlots m level n (i :: q) = some l) :
    ∃ c, graph x86Format m n i = some c ∧
      ((level ≠ 0 ∧ X86.isHuge (entries m n i) = true ∧ l = [(n, i)]) ∨
        ((level = 0 ∨ X86.isHuge (entries m n i) = false) ∧
          ∃ l', leafSlots m (level + 1) c q = some l' ∧ l = (n, i) :: l')) := by
  rw [leafSlots_cons] at h
  obtain ⟨c, hc, hrest⟩ := Option.bind_eq_some_iff.mp h
  refine ⟨c, hc, ?_⟩
  split_ifs at hrest with hhuge
  · exact Or.inl ⟨hhuge.1, hhuge.2, (Option.some.inj hrest).symm⟩
  · obtain ⟨l', hl', rfl⟩ := Option.map_eq_some_iff.mp hrest
    exact Or.inr ⟨not_large.mp hhuge, l', hl', rfl⟩

theorem leafSlots_of_upgraded (h : leafSlots m level n q = some l)
    (hup : ∀ σ ∈ l, Upgraded (entries m σ.1 σ.2) (entries m' σ.1 σ.2)) :
    leafSlots m' level n q = some l := by
  induction q generalizing level n l with
  | nil => exact h
  | cons i q ih =>
    obtain ⟨c, hc, ⟨hl, hhuge, rfl⟩ | ⟨hsmall, l', hl', rfl⟩⟩ := leafSlots_cons_some h
    · have hfirst := hup (n, i) List.mem_cons_self
      rw [leafSlots_cons, graph_of_upgraded hfirst, hc, Option.bind_some, hfirst.isHuge,
        if_pos ⟨hl, hhuge⟩]
    · have hfirst := hup (n, i) List.mem_cons_self
      rw [leafSlots_cons, graph_of_upgraded hfirst, hc, Option.bind_some, hfirst.isHuge,
        if_neg (not_large.mpr hsmall), ih hl' fun σ hσ => hup σ (List.mem_cons_of_mem _ hσ),
        Option.map_some]

/-- A family of tables, by level, that holds the children of its members. -/
def ChildClosed (m : Memory) (P : ℕ → ℕ → Prop) : Prop :=
  ∀ k t i c, P k t → k < 3 → (k = 0 ∨ X86.isHuge (entries m t i) = false) →
    graph x86Format m t i = some c → P (k + 1) c

theorem childClosed_liveTable (m : Memory) (root : ℕ) :
    ChildClosed m (LiveTable x86Format m root) :=
  fun _ _ i _ ht hk hblock hc => ht.child i hk hblock hc

variable {P : ℕ → ℕ → Prop}

theorem leafSlots_mem (hP : ChildClosed m P) (hn : P level n) (hlen : level + q.length = 4)
    (h : leafSlots m level n q = some l) :
    ∀ σ ∈ l, (∃ k, P k σ.1) ∧ X86.isPresent (entries m σ.1 σ.2) = true := by
  induction q generalizing level n l with
  | nil =>
    obtain rfl : [] = l := Option.some.inj h
    exact fun σ hσ => absurd hσ List.not_mem_nil
  | cons i q ih =>
    obtain ⟨c, hc, hcase⟩ := leafSlots_cons_some h
    have hfirst : (∃ k, P k n) ∧ X86.isPresent (entries m n i) = true :=
      ⟨⟨level, hn⟩, (isPresent_of_graph_some x86Format_lawful hc).1⟩
    rw [List.length_cons] at hlen
    intro σ hσ
    rcases hcase with ⟨-, -, rfl⟩ | ⟨hsmall, l', hl', rfl⟩
    · obtain rfl := List.mem_singleton.mp hσ
      exact hfirst
    · rcases List.mem_cons.mp hσ with rfl | hσ'
      · exact hfirst
      · cases q with
        | nil =>
          obtain rfl : [] = l' := Option.some.inj hl'
          exact absurd hσ' List.not_mem_nil
        | cons j q =>
          rw [List.length_cons] at hlen
          have hchild := hP level n i c hn (by omega) hsmall hc
          exact ih hchild (by rw [List.length_cons]; omega) hl' σ hσ'

theorem leafSlots_none_of_upgraded (hP : ChildClosed m P)
    (hup : ∀ k t i, P k t → X86.isPresent (entries m t i) = true →
      Upgraded (entries m t i) (entries m' t i))
    (habsent : ∀ k t i, P k t → k < 4 → graph x86Format m t i = none →
      graph x86Format m' t i = none ∨
        ∃ f, graph x86Format m' t i = some f ∧ X86.isHuge (entries m' t i) = false ∧
          ∀ q, k + 1 + q.length = 4 → leafSlots m' (k + 1) f q = none)
    (hn : P level n) (hlen : level + q.length = 4) (h : leafSlots m level n q = none) :
    leafSlots m' level n q = none := by
  induction q generalizing level n with
  | nil => exact absurd h (by simp [leafSlots])
  | cons i q ih =>
    rw [List.length_cons] at hlen
    rw [leafSlots_cons] at h ⊢
    cases hc : graph x86Format m n i with
    | none =>
      rcases habsent level n i hn (by omega) hc with hnone | ⟨f, hf, hsmall, hq⟩
      · rw [hnone, Option.bind_none]
      · rw [hf, Option.bind_some, hsmall, if_neg (by simp), hq q (by omega), Option.map_none]
    | some c =>
      have hfirst := hup level n i hn (isPresent_of_graph_some x86Format_lawful hc).1
      rw [hc, Option.bind_some] at h
      rw [graph_of_upgraded hfirst, hc, Option.bind_some, hfirst.isHuge]
      split_ifs at h ⊢ with hhuge
      rw [Option.map_eq_none_iff] at h ⊢
      cases q with
      | nil => exact absurd h (by simp [leafSlots])
      | cons j q =>
        rw [List.length_cons] at hlen
        have hchild := hP level n i c hn (by omega) (not_large.mp hhuge) hc
        exact ih hchild (by rw [List.length_cons]; omega) h

theorem leafSlots_congr (hP : ChildClosed m P)
    (he : ∀ k t i, P k t → entries m' t i = entries m t i) (hn : P level n)
    (hlen : level + q.length = 4) : leafSlots m' level n q = leafSlots m level n q := by
  cases hold : leafSlots m level n q with
  | some l =>
    apply leafSlots_of_upgraded hold
    intro σ hσ
    obtain ⟨⟨k, hk⟩, -⟩ := leafSlots_mem hP hn hlen hold σ hσ
    exact Or.inl (he k σ.1 σ.2 hk)
  | none =>
    apply leafSlots_none_of_upgraded hP _ _ hn hlen hold
    · exact fun k t i hk _ => Or.inl (he k t i hk)
    · intro k t i hk _ hnone
      left
      rw [graph, he k t i hk]
      exact hnone

/-- A table path the MMU follows as the software walk does, because no large leaf cuts it
short. -/
structure PlainPath (m : Memory) (P : ℕ → ℕ → Prop) (level n : ℕ) (p : List (Fin 512)) : Prop where
  upper : upperSlots m level n p = (graph x86Format m).trail n p
  tables : ∀ σ ∈ (graph x86Format m).trail n p, ∃ k, P k σ.1
  stop : ∀ σ, (graph x86Format m).stop n p = some σ →
    ∃ k, P k σ.1 ∧ k + (graph x86Format m).missing n p = 3
  walk : ∀ t, (graph x86Format m).walk n p = some t → P 3 t
  leaf : ∀ j, leafSlots m level n (p ++ [j]) = ((graph x86Format m).walk n p).bind fun t =>
    (graph x86Format m t j).map fun _ => (graph x86Format m).trail n p ++ [(t, j)]

/-- A large leaf maps every address below the table path, and the software walk takes it for a
table. -/
def LargeLeafOn (m : Memory) (P : ℕ → ℕ → Prop) (level n : ℕ) (p : List (Fin 512)) : Prop :=
  ∃ k t i, P k t ∧ k ≠ 0 ∧ k < 3 ∧ X86.isHuge (entries m t i) = true ∧
    X86.isPresent (entries m t i) = true ∧
    ∀ j, ∃ l, leafSlots m level n (p ++ [j]) = some l ∧ (t, i) ∈ l ∧
      ∀ σ ∈ l, σ ∈ upperSlots m level n p ∧ σ ∈ (graph x86Format m).trail n p

theorem PlainPath.nil (hn : P 3 n) : PlainPath m P 3 n [] where
  upper := rfl
  tables σ hσ := absurd hσ List.not_mem_nil
  stop σ hσ := absurd hσ (by simp [PathGraph.stop])
  walk t ht := by
    obtain rfl : n = t := Option.some.inj ht
    exact hn
  leaf j := by
    rw [List.nil_append, leafSlots_cons, PathGraph.walk_nil, Option.bind_some]
    cases hj : graph x86Format m n j with
    | none => rw [Option.bind_none, Option.map_none]
    | some c =>
      rw [Option.bind_some, Option.map_some]
      split_ifs <;> rfl

section Cons
variable {i : Fin 512} {p : List (Fin 512)} {c : ℕ}

theorem PlainPath.of_absent (hn : P level n) (hlen : level + (p.length + 1) = 3)
    (hc : graph x86Format m n i = none) : PlainPath m P level n (i :: p) := by
  have hwalk : (graph x86Format m).walk n (i :: p) = none := by
    rw [PathGraph.walk_cons, hc, Option.bind_none]
  constructor
  · rw [upperSlots, hc, PathGraph.trail_of_none hc]
  · rw [PathGraph.trail_of_none hc]
    exact fun σ hσ => absurd hσ List.not_mem_nil
  · intro σ hσ
    rw [PathGraph.stop_of_none hc] at hσ
    obtain rfl := Option.some.inj hσ
    use level, hn
    rw [PathGraph.missing_of_none hc]
    omega
  · intro t ht
    rw [hwalk] at ht
    exact absurd ht (by simp)
  · intro j
    rw [hwalk, List.cons_append, leafSlots_cons, hc, Option.bind_none, Option.bind_none]

theorem LargeLeafOn.of_huge (hn : P level n) (hlen : level + (p.length + 1) = 3)
    (hc : graph x86Format m n i = some c)
    (hhuge : level ≠ 0 ∧ X86.isHuge (entries m n i) = true) : LargeLeafOn m P level n (i :: p) := by
  have hpres := (isPresent_of_graph_some x86Format_lawful hc).1
  refine ⟨level, n, i, hn, hhuge.1, by omega, hhuge.2, hpres, fun j => ⟨[(n, i)], ?_, ?_, ?_⟩⟩
  · rw [List.cons_append, leafSlots_cons, hc, Option.bind_some, if_pos hhuge]
  · exact List.mem_cons_self
  · intro σ hσ
    obtain rfl := List.mem_singleton.mp hσ
    rw [upperSlots, hc, PathGraph.trail_of_some hc]
    exact ⟨List.mem_cons_self, List.mem_cons_self⟩

variable (hc : graph x86Format m n i = some c)
  (hsmall : ¬ (level ≠ 0 ∧ X86.isHuge (entries m n i) = true))
include hc hsmall

theorem leafSlots_append_of_table (j : Fin 512) : leafSlots m level n (i :: p ++ [j]) =
    (leafSlots m (level + 1) c (p ++ [j])).map ((n, i) :: ·) := by
  rw [List.cons_append, leafSlots_cons, hc, Option.bind_some, if_neg hsmall]

theorem upperSlots_of_table :
    upperSlots m level n (i :: p) = (n, i) :: upperSlots m (level + 1) c p := by
  rw [upperSlots, hc]
  exact congrArg _ (if_neg hsmall)

theorem LargeLeafOn.cons (h : LargeLeafOn m P (level + 1) c p) :
    LargeLeafOn m P level n (i :: p) := by
  obtain ⟨k, t, i', hk, h0, h3, hb, hpres, hl⟩ := h
  refine ⟨k, t, i', hk, h0, h3, hb, hpres, fun j => ?_⟩
  obtain ⟨l, hl, hmem, hsub⟩ := hl j
  refine ⟨(n, i) :: l, ?_, List.mem_cons_of_mem _ hmem, ?_⟩
  · rw [leafSlots_append_of_table hc hsmall, hl, Option.map_some]
  · rw [upperSlots_of_table hc hsmall, PathGraph.trail_of_some hc]
    intro σ hσ
    rcases List.mem_cons.mp hσ with rfl | hσ'
    · exact ⟨List.mem_cons_self, List.mem_cons_self⟩
    · exact ⟨List.mem_cons_of_mem _ (hsub σ hσ').1, List.mem_cons_of_mem _ (hsub σ hσ').2⟩

theorem PlainPath.cons (hn : P level n) (h : PlainPath m P (level + 1) c p) :
    PlainPath m P level n (i :: p) := by
  have hwalk : (graph x86Format m).walk n (i :: p) = (graph x86Format m).walk c p := by
    rw [PathGraph.walk_cons, hc, Option.bind_some]
  constructor
  · rw [upperSlots_of_table hc hsmall, h.upper, PathGraph.trail_of_some hc]
  · rw [PathGraph.trail_of_some hc]
    intro σ hσ
    rcases List.mem_cons.mp hσ with rfl | hσ'
    · exact ⟨level, hn⟩
    · exact h.tables σ hσ'
  · rw [PathGraph.stop_of_some hc, PathGraph.missing_of_some hc]
    exact h.stop
  · rw [hwalk]
    exact h.walk
  · intro j
    rw [leafSlots_append_of_table hc hsmall, h.leaf, hwalk, PathGraph.trail_of_some hc,
      Option.map_bind]
    simp only [Function.comp_def, Option.map_map, List.cons_append]

end Cons

/-- A table path is plain, or the address is mapped by a large leaf that the software walk takes
for a table. -/
theorem largeLeaf_or_plainPath (hP : ChildClosed m P) (p : List (Fin 512)) :
    ∀ {level n : ℕ}, P level n → level + p.length = 3 →
    LargeLeafOn m P level n p ∨ PlainPath m P level n p := by
  induction p with
  | nil =>
    intro level n hn hlen
    obtain rfl : level = 3 := hlen
    exact Or.inr (.nil hn)
  | cons i p ih =>
    intro level n hn hlen
    rw [List.length_cons] at hlen
    cases hc : graph x86Format m n i with
    | none => exact Or.inr (.of_absent hn hlen hc)
    | some c =>
      by_cases hhuge : level ≠ 0 ∧ X86.isHuge (entries m n i) = true
      · exact Or.inl (.of_huge hn hlen hc hhuge)
      · have hchild := hP level n i c hn (by omega) (not_large.mp hhuge) hc
        rcases ih hchild (by omega) with hlarge | hplain
        · exact Or.inl (.cons hc hhuge hlarge)
        · exact Or.inr (.cons hc hhuge hn hplain)

/-- A path of present entries down to a present leaf entry is mapped, large leaf or not. -/
theorem leafSlots_isSome_of_walk {t : ℕ} {j : Fin 512} (p : List (Fin 512))
    (hw : (graph x86Format m).walk n p = some t) (hj : graph x86Format m t j ≠ none) :
    (leafSlots m level n (p ++ [j])).isSome = true := by
  induction p generalizing level n with
  | nil =>
    obtain rfl : n = t := Option.some.inj hw
    obtain ⟨c, hc⟩ := Option.ne_none_iff_exists'.mp hj
    rw [List.nil_append, leafSlots_cons, hc, Option.bind_some]
    split_ifs
    · rfl
    · rfl
  | cons i p ih =>
    rw [PathGraph.walk_cons] at hw
    obtain ⟨c, hc, hw'⟩ := Option.bind_eq_some_iff.mp hw
    rw [List.cons_append, leafSlots_cons, hc, Option.bind_some]
    split_ifs
    · rfl
    · rw [Option.isSome_map]
      exact ih hw'

end Slots

end MitosOS.Paging
