import Mathlib.Data.List.FinRange
import Mathlib.Data.List.Nodup
import Mathlib.Data.List.TakeWhile
import Mathlib.Logic.Function.Basic

/-! Lists a kernel keeps: the first match of a scan over slots, singly linked lists threaded
through storage (`next` is the link a node holds and `null` ends a list), families of them, and
ranges cut into chunks. -/
namespace MitosOS.Lib

theorem finRange_find?_lt {n : ℕ} {p : Fin n → Bool} {i : Fin n}
    (h : (List.finRange n).find? p = some i) {j : Fin n} (hj : j < i) : p j = false := by
  obtain ⟨-, as, bs, hab, has⟩ := List.find?_eq_some_iff_append.mp h
  have hsorted : (as ++ i :: bs).Pairwise (· < ·) := hab ▸ List.pairwise_lt_finRange n
  have hmem : j ∈ as ++ i :: bs := hab ▸ List.mem_finRange j
  rcases List.mem_append.mp hmem with hja | hjb
  · simpa using has j hja
  · have hle : i ≤ j := by
      rcases List.mem_cons.mp hjb with hji | hjbs
      · exact hji.ge
      · exact (List.rel_of_pairwise_cons (List.pairwise_append.mp hsorted).2.1 hjbs).le
    exact absurd hj (not_lt.mpr hle)

section Threaded
variable {N : Type*} {next next' : N → N} {null head v : N} {xs : List N}

/-- The nodes met by following links from `head` until `null`. -/
def Threaded (next : N → N) (null : N) : N → List N → Prop
  | head, [] => head = null
  | head, x :: xs => head = x ∧ x ≠ null ∧ Threaded next null (next x) xs

/-- Storage that keeps the links of the listed nodes keeps the list. -/
theorem Threaded.congr (h : Threaded next null head xs) (hnext : ∀ x ∈ xs, next' x = next x) :
    Threaded next' null head xs := by
  induction xs generalizing head with
  | nil => exact h
  | cons x xs ih =>
    obtain ⟨hhead, hx, hrest⟩ := h
    have hlink : next' x = next x := hnext x List.mem_cons_self
    refine ⟨hhead, hx, ?_⟩
    rw [hlink]
    exact ih hrest fun y hy => hnext y (List.mem_cons_of_mem x hy)

theorem Threaded.pop (h : Threaded next null head xs) (hhead : head ≠ null) :
    ∃ ys, xs = head :: ys ∧ Threaded next null (next head) ys := by
  cases xs with
  | nil => exact absurd h hhead
  | cons x ys =>
    obtain ⟨rfl, -, hrest⟩ := h
    exact ⟨ys, rfl, hrest⟩

theorem Threaded.push (h : Threaded next null head xs) (hv : v ≠ null) (hlink : next' v = head)
    (hnext : ∀ x ∈ xs, next' x = next x) : Threaded next' null v (v :: xs) := by
  refine ⟨rfl, hv, ?_⟩
  rw [hlink]
  exact h.congr hnext

end Threaded

section Family
variable {N : Type*} {k : ℕ} {v : N} {xs : List N}

def allNodes (lists : Fin k → List N) : List N := (List.finRange k).flatMap lists

theorem mem_allNodes {lists : Fin k → List N} : v ∈ allNodes lists ↔ ∃ i, v ∈ lists i := by
  simp [allNodes]

@[simp] theorem allNodes_empty : allNodes (fun _ : Fin k => ([] : List N)) = [] := by
  simp [allNodes, List.flatMap_eq_nil_iff]

private theorem flatMap_update_of_notMem {lists : Fin k → List N} {i : Fin k} {l : List (Fin k)}
    (hi : i ∉ l) : l.flatMap (Function.update lists i xs) = l.flatMap lists := by
  apply List.flatMap_congr
  intro j hj
  apply Function.update_of_ne
  intro hji
  exact hi (hji ▸ hj)

private theorem flatMap_update_cons_perm (lists : Fin k → List N) (i : Fin k) (v : N)
    (xs : List N) {l : List (Fin k)} (hl : l.Nodup) (hi : i ∈ l) :
    (l.flatMap (Function.update lists i (v :: xs))).Perm
      (v :: l.flatMap (Function.update lists i xs)) := by
  induction l with
  | nil => exact absurd hi List.not_mem_nil
  | cons j l ih =>
    obtain ⟨hj, hl'⟩ := List.nodup_cons.mp hl
    rw [List.flatMap_cons, List.flatMap_cons]
    by_cases hij : j = i
    · subst hij
      rw [Function.update_self, Function.update_self, flatMap_update_of_notMem hj,
        flatMap_update_of_notMem hj, List.cons_append]
    · have hi' : i ∈ l := (List.mem_cons.mp hi).resolve_left (Ne.symm hij)
      rw [Function.update_of_ne hij, Function.update_of_ne hij]
      exact ((ih hl' hi').append_left _).trans List.perm_middle

theorem allNodes_perm_of_cons {lists : Fin k → List N} {i : Fin k} (h : lists i = v :: xs) :
    (allNodes lists).Perm (v :: allNodes (Function.update lists i xs)) := by
  have hself : Function.update lists i (v :: xs) = lists := by
    rw [← h]
    exact Function.update_eq_self i lists
  have hperm := flatMap_update_cons_perm lists i v xs (List.nodup_finRange k) (List.mem_finRange i)
  rwa [hself] at hperm

theorem allNodes_update_cons_perm (lists : Fin k → List N) (i : Fin k) (v : N) :
    (allNodes (Function.update lists i (v :: lists i))).Perm (v :: allNodes lists) := by
  have hperm := flatMap_update_cons_perm lists i v (lists i) (List.nodup_finRange k)
    (List.mem_finRange i)
  rwa [Function.update_eq_self] at hperm

end Family

section Scans
variable {α β : Type*} {p q : α → Bool}

/-- Two searches, one of which goes on into `stale`, find the same exactly if the first element that
either of them accepts is accepted by both, and if there is none, `stale` holds nothing to find. -/
theorem find?_append_eq_find?_iff {live stale : List α} :
    (live ++ stale).find? p = live.find? q ↔
      (∀ a, live.find? (fun a => p a || q a) = some a → p a = true ∧ q a = true) ∧
        (live.find? (fun a => p a || q a) = none → stale.find? p = none) := by
  induction live with
  | nil => simp
  | cons a live ih =>
    rw [List.cons_append]
    cases hp : p a <;> cases hq : q a
    · rw [List.find?_cons_of_neg (by simp [hp]), List.find?_cons_of_neg (by simp [hq]),
        List.find?_cons_of_neg (by simp [hp, hq]), ih]
    · -- an element that is found later is accepted, and `a` is not
      rw [List.find?_cons_of_neg (by simp [hp]), List.find?_cons_of_pos hq]
      refine iff_of_false (fun h => ?_) (fun h => ?_)
      · simp [List.find?_some h] at hp
      · simp [(h.1 a (by simp [hq])).1] at hp
    · rw [List.find?_cons_of_pos hp, List.find?_cons_of_neg (by simp [hq])]
      refine iff_of_false (fun h => ?_) (fun h => ?_)
      · simp [List.find?_some h.symm] at hq
      · simp [(h.1 a (by simp [hp])).2] at hq
    · rw [List.find?_cons_of_pos hp, List.find?_cons_of_pos hq]
      simp [hp, hq]

theorem find?_agree_iff {live : List α} {P : Prop} :
    ((∀ a, live.find? (fun a => p a || q a) = some a → p a = true ∧ q a = true) ∧
        (live.find? (fun a => p a || q a) = none → P)) ↔
      (∀ before a after, live = before ++ a :: after → p a ≠ q a →
          ∃ b ∈ before, p b = true ∧ q b = true) ∧
        ((∀ b ∈ live, ¬ (p b = true ∧ q b = true)) → P) := by
  constructor
  · rintro ⟨hsome, hnone⟩
    refine ⟨fun before a after hlive hne => ?_, fun hno => hnone ?_⟩
    · have ha : (p a || q a) = true := by
        cases hp : p a <;> cases hq : q a <;> simp [hp, hq] at hne ⊢
      cases hbefore : before.find? (fun a => p a || q a) with
      | some b =>
        have hfirst : live.find? (fun a => p a || q a) = some b := by
          rw [hlive, List.find?_append, hbefore, Option.some_or]
        exact ⟨b, List.mem_of_find?_eq_some hbefore, hsome b hfirst⟩
      | none =>
        have hfirst : live.find? (fun a => p a || q a) = some a := by
          rw [hlive, List.find?_append, hbefore, Option.none_or]
          exact List.find?_cons_of_pos ha
        exact absurd ((hsome a hfirst).1.trans (hsome a hfirst).2.symm) hne
    · cases hfirst : live.find? (fun a => p a || q a) with
      | none => rfl
      | some b => exact absurd (hsome b hfirst) (hno b (List.mem_of_find?_eq_some hfirst))
  · rintro ⟨hbefore, hno⟩
    refine ⟨fun a hfirst => ?_, fun hnone => hno fun b hb hboth => ?_⟩
    · obtain ⟨ha, before, after, hlive, hskipped⟩ := List.find?_eq_some_iff_append.mp hfirst
      have heq : p a = q a := by
        by_contra hne
        obtain ⟨b, hb, hboth, -⟩ := hbefore before a after hlive hne
        simpa [hboth] using hskipped b hb
      rw [heq, Bool.or_self] at ha
      exact ⟨heq.trans ha, ha⟩
    · simpa [hboth.1] using List.find?_eq_none.mp hnone b hb

/-- Cutting off each block separately keeps what is left when the whole is cut off once. -/
theorem takeWhile_flatMap_prefix (f : β → List α) (blocks : List β) :
    (blocks.flatMap f).takeWhile p <+: blocks.flatMap fun b => (f b).takeWhile p := by
  induction blocks with
  | nil => exact List.prefix_rfl
  | cons b blocks ih =>
    rw [List.flatMap_cons, List.flatMap_cons]
    by_cases hall : ∀ a ∈ f b, p a = true
    · rw [List.takeWhile_append_of_pos hall, List.takeWhile_eq_self_iff.mpr hall]
      exact (List.prefix_append_right_inj _).mpr ih
    · have hcut : ((f b).takeWhile p).length ≠ (f b).length := by
        intro h
        exact hall (List.takeWhile_eq_self_iff.mp ((List.takeWhile_prefix p).eq_of_length h))
      rw [List.takeWhile_append, if_neg hcut]
      exact List.prefix_append _ _

end Scans

theorem getElem?_append_toList {α : Type*} {l : List α} {new : Option α} {i : ℕ} {a : α}
    (h : (l ++ new.toList)[i]? = some a) : l[i]? = some a ∨ i = l.length ∧ new = some a := by
  cases new with
  | none => exact Or.inl (by simpa using h)
  | some b =>
    rw [Option.toList_some] at h
    rcases lt_or_ge i l.length with hi | hi
    · rw [List.getElem?_append_left hi] at h
      exact Or.inl h
    · rw [List.getElem?_append_right hi, List.getElem?_singleton] at h
      split_ifs at h with hlast
      exact Or.inr ⟨by omega, h⟩

/-- Chunks of `c` numbers each, the last cut off at the end, cover a range in order. -/
theorem flatMap_chunks_range' (start len c n : ℕ) :
    (List.range n).flatMap (fun k => List.range' (start + c * k) (min (len - c * k) c)) =
      List.range' start (min len (c * n)) := by
  induction n with
  | zero => simp
  | succ n ih =>
    rw [List.range_succ, List.flatMap_append, ih, List.flatMap_singleton]
    by_cases hn : c * n ≤ len
    · rw [Nat.min_eq_right hn, List.range'_append_1]
      congr 1
      rw [Nat.mul_succ]
      omega
    · have hend : len - c * n = 0 := by omega
      rw [hend, Nat.zero_min, List.range'_zero, List.append_nil, Nat.mul_succ]
      congr 1
      omega

theorem length_splitOn_le {α : Type*} [BEq α] (a : α) (xs : List α) :
    (xs.splitOn a).length ≤ xs.length + 1 := by
  induction xs with
  | nil => simp
  | cons x xs ih =>
    rw [List.splitOn] at ih ⊢
    rw [List.splitOnP_cons_eq_if_modifyHead, List.length_cons]
    split_ifs
    · rw [List.length_cons]
      omega
    · rw [List.length_modifyHead]
      omega

end MitosOS.Lib
