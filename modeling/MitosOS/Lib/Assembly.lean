import MitosOS.Lib.Bits
import MitosOS.Lib.ByteMemory
import Mathlib.Data.List.Nodup
import Mathlib.Logic.Function.Basic

/-! Straight-line machine code over a register file and byte memory, and what saving registers to the
stack and loading them back does. -/
namespace MitosOS.Lib

/-- Instructions that move words between registers and memory. -/
inductive Instr (ρ : Type*) where
  | move (dst src : ρ)
  | add (dst : ρ) (value : BitVec 64)
  | load (dst base : ρ) (offset : ℕ)
  | store (src base : ρ) (offset : ℕ)

structure Cpu (ρ : Type*) where
  regs : ρ → BitVec 64
  mem : Memory

theorem toNat_add_ofNat {v : BitVec 64} {n : ℕ} (h : v.toNat + n < 2 ^ 64) :
    (v + BitVec.ofNat 64 n).toNat = v.toNat + n := by
  rw [BitVec.toNat_add, BitVec.toNat_ofNat, Nat.mod_eq_of_lt (by omega : n < 2 ^ 64),
    Nat.mod_eq_of_lt h]

theorem toNat_sub_ofNat {v : BitVec 64} {n : ℕ} (h : n ≤ v.toNat) :
    (v - BitVec.ofNat 64 n).toNat = v.toNat - n := by
  have hlt := v.isLt
  rw [BitVec.toNat_sub, BitVec.toNat_ofNat, Nat.mod_eq_of_lt (by omega : n < 2 ^ 64)]
  omega

section Semantics
variable {ρ : Type*}

def Cpu.address (s : Cpu ρ) (base : ρ) (offset : ℕ) : ℕ :=
  (s.regs base + BitVec.ofNat 64 offset).toNat

theorem Cpu.address_eq (s : Cpu ρ) (base : ρ) (offset : ℕ)
    (h : (s.regs base).toNat + offset < 2 ^ 64) :
    s.address base offset = (s.regs base).toNat + offset := toNat_add_ofNat h

variable [DecidableEq ρ]

def Cpu.set (s : Cpu ρ) (r : ρ) (v : BitVec 64) : Cpu ρ :=
  { s with regs := Function.update s.regs r v }

def Instr.exec (s : Cpu ρ) : Instr ρ → Cpu ρ
  | .move dst src => s.set dst (s.regs src)
  | .add dst value => s.set dst (s.regs dst + value)
  | .load dst base offset => s.set dst (s.mem.load64 (s.address base offset))
  | .store src base offset =>
    { s with mem := s.mem.store64 (s.address base offset) (s.regs src) }

def runCode (code : List (Instr ρ)) (s : Cpu ρ) : Cpu ρ := code.foldl Instr.exec s

@[simp] theorem runCode_nil (s : Cpu ρ) : runCode [] s = s := rfl

@[simp] theorem runCode_cons (i : Instr ρ) (code : List (Instr ρ)) (s : Cpu ρ) :
    runCode (i :: code) s = runCode code (i.exec s) := rfl

theorem runCode_append (code code' : List (Instr ρ)) (s : Cpu ρ) :
    runCode (code ++ code') s = runCode code' (runCode code s) := List.foldl_append

@[simp] theorem Cpu.set_mem (s : Cpu ρ) (r : ρ) (v : BitVec 64) : (s.set r v).mem = s.mem := rfl

@[simp] theorem Cpu.set_regs_same (s : Cpu ρ) (r : ρ) (v : BitVec 64) : (s.set r v).regs r = v :=
  Function.update_self _ _ _

theorem Cpu.set_regs (s : Cpu ρ) (r : ρ) (v : BitVec 64) (q : ρ) :
    (s.set r v).regs q = if q = r then v else s.regs q := Function.update_apply _ _ _ _

theorem Cpu.set_regs_of_ne (s : Cpu ρ) {r q : ρ} (v : BitVec 64) (h : q ≠ r) :
    (s.set r v).regs q = s.regs q := Function.update_of_ne h _ _

theorem Instr.exec_move (dst src : ρ) (s : Cpu ρ) :
    (Instr.move dst src).exec s = s.set dst (s.regs src) := rfl

theorem Instr.exec_load (dst base : ρ) (offset : ℕ) (s : Cpu ρ)
    (h : (s.regs base).toNat + offset < 2 ^ 64) :
    (Instr.load dst base offset).exec s =
      s.set dst (s.mem.load64 ((s.regs base).toNat + offset)) := by
  rw [Instr.exec, s.address_eq base offset h]

theorem Instr.exec_store (src base : ρ) (offset : ℕ) (s : Cpu ρ)
    (h : (s.regs base).toNat + offset < 2 ^ 64) :
    (Instr.store src base offset).exec s =
      { s with mem := s.mem.store64 ((s.regs base).toNat + offset) (s.regs src) } := by
  rw [Instr.exec, s.address_eq base offset h]

end Semantics

section Frames
variable {ρ : Type*} {m m' : Memory} {c : ρ → BitVec 64}

/-- The words from `a` on are the values that `c` gives to a list of registers. -/
def Framed (m : Memory) (c : ρ → BitVec 64) : ℕ → List ρ → Prop
  | _, [] => True
  | a, r :: rs => m.load64 a = c r ∧ Framed m c (a + 8) rs

theorem Framed.congr {rs : List ρ} : ∀ {a : ℕ},
    (∀ x, a ≤ x → x < a + 8 * rs.length → m' x = m x) → Framed m c a rs → Framed m' c a rs := by
  induction rs with
  | nil => exact fun _ _ => trivial
  | cons r rs ih =>
    intro a hsame h
    rw [List.length_cons] at hsame
    refine ⟨?_, ih (fun x hlow hhigh => hsame x (by omega) (by omega)) h.2⟩
    rw [Memory.load64_congr fun x hlow hhigh => hsame x hlow (by omega)]
    exact h.1

theorem framed_append (m : Memory) (c : ρ → BitVec 64) (rs qs : List ρ) : ∀ a : ℕ,
    Framed m c a (rs ++ qs) ↔ Framed m c a rs ∧ Framed m c (a + 8 * rs.length) qs := by
  induction rs with
  | nil => simp [Framed]
  | cons r rs ih =>
    intro a
    have hnext : a + 8 * (r :: rs).length = a + 8 + 8 * rs.length := by
      rw [List.length_cons]
      omega
    rw [List.cons_append, Framed, Framed, ih, hnext, and_assoc]

/-- Only the values of the listed registers matter. -/
theorem Framed.values {c' : ρ → BitVec 64} {rs : List ρ} : ∀ {a : ℕ},
    (∀ r ∈ rs, c' r = c r) → Framed m c a rs → Framed m c' a rs := by
  induction rs with
  | nil => exact fun _ _ => trivial
  | cons r rs ih =>
    intro a hvalues h
    refine ⟨?_, ih (fun q hq => hvalues q (List.mem_cons_of_mem r hq)) h.2⟩
    rw [hvalues r List.mem_cons_self]
    exact h.1

def frameWord [DecidableEq ρ] (m : Memory) (a : ℕ) (rs : List ρ) (r : ρ) : BitVec 64 :=
  m.load64 (a + 8 * rs.idxOf r)

theorem frameWord_cons_of_ne [DecidableEq ρ] (m : Memory) (a : ℕ) (rs : List ρ) {r q : ρ}
    (h : r ≠ q) : frameWord m a (r :: rs) q = frameWord m (a + 8) rs q := by
  have hnext : a + 8 * (rs.idxOf q + 1) = a + 8 + 8 * rs.idxOf q := by omega
  rw [frameWord, List.idxOf_cons_ne _ h, Nat.succ_eq_add_one, hnext, frameWord]

theorem Framed.word [DecidableEq ρ] {rs : List ρ} {r : ρ} : ∀ {a : ℕ},
    Framed m c a rs → r ∈ rs → frameWord m a rs r = c r := by
  induction rs with
  | nil => exact fun _ hr => absurd hr List.not_mem_nil
  | cons q rs ih =>
    intro a h hr
    by_cases hq : q = r
    · rw [frameWord, hq, List.idxOf_cons_self, Nat.mul_zero, Nat.add_zero, ← hq]
      exact h.1
    · rw [frameWord_cons_of_ne m a rs hq]
      exact ih h.2 ((List.mem_cons.mp hr).resolve_left (Ne.symm hq))

theorem framed_frameWord [DecidableEq ρ] (m : Memory) {rs : List ρ} : ∀ (a : ℕ), rs.Nodup →
    Framed m (frameWord m a rs) a rs := by
  induction rs with
  | nil => exact fun _ _ => trivial
  | cons r rs ih =>
    intro a hnodup
    obtain ⟨hfresh, hnodup'⟩ := List.nodup_cons.mp hnodup
    constructor
    · rw [frameWord, List.idxOf_cons_self, Nat.mul_zero, Nat.add_zero]
    · refine (ih (a + 8) hnodup').values fun q hq => ?_
      have hne : r ≠ q := fun hcon => hfresh (hcon ▸ hq)
      exact frameWord_cons_of_ne m a rs hne

theorem frameWord_congr [DecidableEq ρ] {a : ℕ} {rs : List ρ} {r : ρ} (hr : r ∈ rs)
    (hsame : ∀ x, a ≤ x → x < a + 8 * rs.length → m' x = m x) :
    frameWord m' a rs r = frameWord m a rs r := by
  have hlt := List.idxOf_lt_length_of_mem hr
  exact Memory.load64_congr fun x hlow hhigh => hsame x (by omega) (by omega)

def writeWords (m : Memory) (c : ρ → BitVec 64) : ℕ → List ρ → Memory
  | _, [] => m
  | a, r :: rs => (writeWords m c (a + 8) rs).store64 a (c r)

theorem writeWords_apply (m : Memory) (c : ρ → BitVec 64) (rs : List ρ) : ∀ {a x : ℕ},
    x < a ∨ a + 8 * rs.length ≤ x → writeWords m c a rs x = m x := by
  induction rs with
  | nil => exact fun _ => rfl
  | cons r rs ih =>
    intro a x hx
    rw [List.length_cons] at hx
    rw [writeWords, Memory.store64_apply_of_disjoint _ _ (by omega), ih (by omega)]

theorem framed_writeWords (m : Memory) (c : ρ → BitVec 64) (rs : List ρ) : ∀ a : ℕ,
    Framed (writeWords m c a rs) c a rs := by
  induction rs with
  | nil => exact fun _ => trivial
  | cons r rs ih =>
    intro a
    refine ⟨?_, (ih (a + 8)).congr fun x hlow hhigh => ?_⟩
    · rw [writeWords, Memory.load64_store64_same]
    · rw [writeWords, Memory.store64_apply_of_disjoint _ _ (by omega)]

/-- Storing to one word of a frame changes one register. -/
theorem Framed.store64 [DecidableEq ρ] {a : ℕ} {xs ys : List ρ} {r : ρ} (v : BitVec 64)
    (hxs : r ∉ xs) (hys : r ∉ ys) (h : Framed m c a (xs ++ r :: ys)) :
    Framed (m.store64 (a + 8 * xs.length) v) (Function.update c r v) a (xs ++ r :: ys) := by
  have hvalues : ∀ qs : List ρ, r ∉ qs → ∀ q ∈ qs, Function.update c r v q = c q := by
    intro qs hqs q hq
    have hne : q ≠ r := fun hcon => hqs (hcon ▸ hq)
    exact Function.update_of_ne hne _ _
  rw [framed_append] at h ⊢
  obtain ⟨hfirst, -, hrest⟩ := h
  refine ⟨?_, ?_, ?_⟩
  · apply Framed.congr _ (hfirst.values (hvalues xs hxs))
    exact fun x _ hhigh => Memory.store64_apply_of_disjoint _ _ (by omega)
  · rw [Memory.load64_store64_same, Function.update_self]
  · apply Framed.congr _ (hrest.values (hvalues ys hys))
    exact fun x hlow _ => Memory.store64_apply_of_disjoint _ _ (by omega)

end Frames

section Saving
variable {ρ : Type*} [DecidableEq ρ]

def saveWords (base : ρ) : ℕ → List ρ → List (Instr ρ)
  | _, [] => []
  | offset, r :: rs => .store r base offset :: saveWords base (offset + 8) rs

def loadWords (base : ρ) : ℕ → List ρ → List (Instr ρ)
  | _, [] => []
  | offset, r :: rs => .load r base offset :: loadWords base (offset + 8) rs

theorem runCode_loadWords_mem (base : ρ) (rs : List ρ) : ∀ (offset : ℕ) (s : Cpu ρ),
    (runCode (loadWords base offset rs) s).mem = s.mem := by
  induction rs with
  | nil => exact fun _ _ => rfl
  | cons r rs ih => exact fun offset s => ih (offset + 8) _

theorem run_saveWords (base : ρ) (rs : List ρ) : ∀ (offset : ℕ) (s : Cpu ρ),
    (s.regs base).toNat + offset + 8 * rs.length ≤ 2 ^ 64 →
    (runCode (saveWords base offset rs) s).regs = s.regs ∧
    (∀ x, x < (s.regs base).toNat + offset ∨ (s.regs base).toNat + offset + 8 * rs.length ≤ x →
      (runCode (saveWords base offset rs) s).mem x = s.mem x) ∧
    Framed (runCode (saveWords base offset rs) s).mem s.regs ((s.regs base).toNat + offset) rs := by
  induction rs with
  | nil => exact fun _ s _ => ⟨rfl, fun _ _ => rfl, trivial⟩
  | cons r rs ih =>
    intro offset s hroom
    rw [List.length_cons] at hroom ⊢
    have haddress := s.address_eq base offset (by omega)
    obtain ⟨hregs, hmem, hframe⟩ := ih (offset + 8) ((Instr.store r base offset).exec s)
      (by change (s.regs base).toNat + (offset + 8) + 8 * rs.length ≤ 2 ^ 64; omega)
    change ∀ x, x < (s.regs base).toNat + (offset + 8) ∨ _ → _ at hmem
    change Framed _ s.regs ((s.regs base).toNat + (offset + 8)) rs at hframe
    rw [saveWords, runCode_cons]
    refine ⟨hregs, fun x hx => ?_, ?_, ?_⟩
    · rw [hmem x (by change _ ∨ (s.regs base).toNat + (offset + 8) + 8 * rs.length ≤ x; omega)]
      change s.mem.store64 (s.address base offset) (s.regs r) x = s.mem x
      rw [haddress]
      exact Memory.store64_apply_of_disjoint _ _ (by omega)
    · rw [Memory.load64_congr fun x _ hhigh => hmem x (Or.inl (by omega))]
      change (s.mem.store64 (s.address base offset) (s.regs r)).load64 _ = s.regs r
      rw [haddress, Memory.load64_store64_same]
    · rw [Nat.add_assoc]
      exact hframe

theorem run_loadWords (base : ρ) (rs : List ρ) {c : ρ → BitVec 64} : ∀ (offset : ℕ) (s : Cpu ρ),
    base ∉ rs → rs.Nodup → (s.regs base).toNat + offset + 8 * rs.length ≤ 2 ^ 64 →
    Framed s.mem c ((s.regs base).toNat + offset) rs →
    (runCode (loadWords base offset rs) s).mem = s.mem ∧
    (∀ r ∈ rs, (runCode (loadWords base offset rs) s).regs r = c r) ∧
    ∀ r, r ∉ rs → (runCode (loadWords base offset rs) s).regs r = s.regs r := by
  induction rs with
  | nil => exact fun _ s _ _ _ _ => ⟨rfl, fun r hr => absurd hr List.not_mem_nil, fun _ _ => rfl⟩
  | cons r rs ih =>
    intro offset s hbase hnodup hroom hframe
    rw [List.length_cons] at hroom
    obtain ⟨hfresh, hnodup'⟩ := List.nodup_cons.mp hnodup
    have hne : base ≠ r := fun hcon => hbase (hcon ▸ List.mem_cons_self)
    have haddress := s.address_eq base offset (by omega)
    have hs : (Instr.load r base offset).exec s = s.set r (c r) := by
      change s.set r (s.mem.load64 (s.address base offset)) = _
      rw [haddress, hframe.1]
    have hkept : (s.set r (c r)).regs base = s.regs base := s.set_regs_of_ne _ hne
    obtain ⟨hmem, hloaded, hother⟩ := ih (offset + 8) (s.set r (c r))
      (fun hcon => hbase (List.mem_cons_of_mem r hcon)) hnodup' (by rw [hkept]; omega)
      (by rw [hkept, ← Nat.add_assoc]; exact hframe.2)
    rw [loadWords, runCode_cons, hs]
    refine ⟨hmem, fun q hq => ?_, fun q hq => ?_⟩
    · rcases List.mem_cons.mp hq with rfl | hrest
      · rw [hother q hfresh, Cpu.set_regs_same]
      · exact hloaded q hrest
    · rw [List.mem_cons, not_or] at hq
      rw [hother q hq.2, s.set_regs_of_ne _ hq.1]

def push (sp r : ρ) : List (Instr ρ) := [.add sp (-8), .store r sp 0]

def pop (sp r : ρ) : List (Instr ρ) := [.load r sp 0, .add sp 8]

theorem run_push (sp r : ρ) (s : Cpu ρ) (hne : r ≠ sp) (hroom : 8 ≤ (s.regs sp).toNat) :
    runCode (push sp r) s =
      { (s.set sp (s.regs sp - 8)) with
        mem := s.mem.store64 ((s.regs sp).toNat - 8) (s.regs r) } := by
  have hsub : s.regs sp + -8 = s.regs sp - 8 := by
    rw [BitVec.sub_eq_add_neg]
  have haddress : (s.set sp (s.regs sp - 8)).address sp 0 = (s.regs sp).toNat - 8 := by
    have hlt := (s.regs sp).isLt
    have hnat : (s.regs sp - 8).toNat = (s.regs sp).toNat - 8 := toNat_sub_ofNat hroom
    rw [Cpu.address_eq]
    · rw [Cpu.set_regs_same, hnat, Nat.add_zero]
    · rw [Cpu.set_regs_same, hnat]
      omega
  rw [push, runCode_cons, runCode_cons, runCode_nil, Instr.exec, hsub, Instr.exec, haddress,
    s.set_regs_of_ne _ hne, Cpu.set_mem]

theorem run_pop (sp r : ρ) (s : Cpu ρ) (hne : r ≠ sp) :
    runCode (pop sp r) s =
      (s.set r (s.mem.load64 (s.regs sp).toNat)).set sp (s.regs sp + 8) := by
  have haddress : s.address sp 0 = (s.regs sp).toNat := by
    have hlt := (s.regs sp).isLt
    rw [s.address_eq sp 0 (by omega), Nat.add_zero]
  rw [pop, runCode_cons, runCode_cons, runCode_nil, Instr.exec, Instr.exec, haddress,
    s.set_regs_of_ne _ (Ne.symm hne)]

/-- Pushing a list of registers leaves them in a frame, the last one first. -/
theorem run_pushes (sp : ρ) (rs : List ρ) : ∀ (s : Cpu ρ), sp ∉ rs →
    8 * rs.length ≤ (s.regs sp).toNat →
    ((runCode (rs.flatMap (push sp)) s).regs sp).toNat = (s.regs sp).toNat - 8 * rs.length ∧
    (∀ r, r ≠ sp → (runCode (rs.flatMap (push sp)) s).regs r = s.regs r) ∧
    (∀ x, x < (s.regs sp).toNat - 8 * rs.length ∨ (s.regs sp).toNat ≤ x →
      (runCode (rs.flatMap (push sp)) s).mem x = s.mem x) ∧
    Framed (runCode (rs.flatMap (push sp)) s).mem s.regs ((s.regs sp).toNat - 8 * rs.length)
      rs.reverse := by
  induction rs with
  | nil => exact fun s _ _ => ⟨rfl, fun _ _ => rfl, fun _ _ => rfl, trivial⟩
  | cons r rs ih =>
    intro s hsp hroom
    rw [List.length_cons] at hroom ⊢
    have hne : r ≠ sp := fun hcon => hsp (hcon ▸ List.mem_cons_self)
    have hrest : sp ∉ rs := fun hcon => hsp (List.mem_cons_of_mem r hcon)
    have hpushed := run_push sp r s hne (by omega)
    have hnat : (s.regs sp - 8).toNat = (s.regs sp).toNat - 8 := toNat_sub_ofNat (n := 8) (by omega)
    generalize hs₁ : runCode (push sp r) s = s₁ at hpushed
    have hsp₁ : (s₁.regs sp).toNat = (s.regs sp).toNat - 8 := by
      rw [hpushed, ← hnat]
      exact congrArg BitVec.toNat (s.set_regs_same sp _)
    have hregs₁ : ∀ q, q ≠ sp → s₁.regs q = s.regs q := by
      intro q hq
      rw [hpushed]
      exact s.set_regs_of_ne _ hq
    have hmem₁ : s₁.mem = s.mem.store64 ((s.regs sp).toNat - 8) (s.regs r) := by rw [hpushed]
    obtain ⟨hsp', hregs, hmem, hframe⟩ := ih s₁ hrest (by omega)
    rw [hsp₁] at hsp' hmem hframe
    have hbottom : (s.regs sp).toNat - 8 - 8 * rs.length =
        (s.regs sp).toNat - 8 * (rs.length + 1) := by omega
    rw [hbottom] at hsp' hmem hframe
    rw [List.flatMap_cons, runCode_append, hs₁]
    refine ⟨hsp', fun q hq => ?_, fun x hx => ?_, ?_⟩
    · rw [hregs q hq, hregs₁ q hq]
    · rw [hmem x (by omega), hmem₁, Memory.store64_apply_of_disjoint _ _ (by omega)]
    · rw [List.reverse_cons, framed_append, List.length_reverse]
      refine ⟨hframe.values fun q hq => ?_, ?_, trivial⟩
      · have hmem' : q ∈ rs := List.mem_reverse.mp hq
        exact (hregs₁ q fun hcon => hrest (hcon ▸ hmem')).symm
      · have hlast : (s.regs sp).toNat - 8 * (rs.length + 1) + 8 * rs.length =
            (s.regs sp).toNat - 8 := by omega
        rw [hlast, Memory.load64_congr fun x hlow hhigh => hmem x (Or.inr (by omega)), hmem₁,
          Memory.load64_store64_same]

/-- Popping a list of registers loads them from a frame. -/
theorem run_pops (sp : ρ) (rs : List ρ) {c : ρ → BitVec 64} : ∀ (s : Cpu ρ), sp ∉ rs → rs.Nodup →
    (s.regs sp).toNat + 8 * rs.length < 2 ^ 64 → Framed s.mem c (s.regs sp).toNat rs →
    ((runCode (rs.flatMap (pop sp)) s).regs sp).toNat = (s.regs sp).toNat + 8 * rs.length ∧
    (runCode (rs.flatMap (pop sp)) s).mem = s.mem ∧
    (∀ r ∈ rs, (runCode (rs.flatMap (pop sp)) s).regs r = c r) ∧
    ∀ r, r ∉ rs → r ≠ sp → (runCode (rs.flatMap (pop sp)) s).regs r = s.regs r := by
  induction rs with
  | nil => exact fun s _ _ _ _ => ⟨rfl, rfl, fun r hr => absurd hr List.not_mem_nil, fun _ _ _ => rfl⟩
  | cons r rs ih =>
    intro s hsp hnodup hroom hframe
    rw [List.length_cons] at hroom ⊢
    obtain ⟨hfresh, hnodup'⟩ := List.nodup_cons.mp hnodup
    have hne : r ≠ sp := fun hcon => hsp (hcon ▸ List.mem_cons_self)
    have hrest : sp ∉ rs := fun hcon => hsp (List.mem_cons_of_mem r hcon)
    have hpopped := run_pop sp r s hne
    rw [hframe.1] at hpopped
    have hnat : (s.regs sp + 8).toNat = (s.regs sp).toNat + 8 := toNat_add_ofNat (n := 8) (by omega)
    generalize hs₁ : runCode (pop sp r) s = s₁ at hpopped
    have hsp₁ : (s₁.regs sp).toNat = (s.regs sp).toNat + 8 := by
      rw [hpopped, Cpu.set_regs_same, hnat]
    have hregs₁ : ∀ q, q ≠ sp → q ≠ r → s₁.regs q = s.regs q := by
      intro q hq hqr
      rw [hpopped, Cpu.set_regs_of_ne _ _ hq, Cpu.set_regs_of_ne _ _ hqr]
    have hloaded₁ : s₁.regs r = c r := by
      rw [hpopped, Cpu.set_regs_of_ne _ _ hne, Cpu.set_regs_same]
    have hmem₁ : s₁.mem = s.mem := by
      rw [hpopped]
      rfl
    obtain ⟨hsp', hmem, hloaded, hother⟩ := ih s₁ hrest hnodup' (by omega)
      (by rw [hmem₁, hsp₁]; exact hframe.2)
    rw [List.flatMap_cons, runCode_append, hs₁]
    refine ⟨by omega, hmem.trans hmem₁, fun q hq => ?_, fun q hq hqsp => ?_⟩
    · rcases List.mem_cons.mp hq with rfl | hq'
      · rw [hother q hfresh hne, hloaded₁]
      · exact hloaded q hq'
    · rw [List.mem_cons, not_or] at hq
      rw [hother q hq.2 hqsp, hregs₁ q hqsp hq.1]

/-- A call that comes back has kept the stack pointer, some other registers, and the `size` bytes
from the stack pointer on. -/
structure Returns (kept : List ρ) (sp : ρ) (size : ℕ) (s s' : Cpu ρ) : Prop where
  stack : s'.regs sp = s.regs sp
  regs : ∀ r ∈ kept, s'.regs r = s.regs r
  frame : ∀ x, (s.regs sp).toNat ≤ x → x < (s.regs sp).toNat + size → s'.mem x = s.mem x

/-- A call that only returns a value. -/
theorem Returns.set {kept : List ρ} {sp r : ρ} (size : ℕ) (s : Cpu ρ) (v : BitVec 64) (hsp : r ≠ sp)
    (hkept : r ∉ kept) : Returns kept sp size s (s.set r v) := by
  refine ⟨Cpu.set_regs_of_ne _ _ hsp.symm, fun q hq => ?_, fun x _ _ => by rw [Cpu.set_mem]⟩
  have hne : q ≠ r := fun hcon => hkept (hcon ▸ hq)
  exact Cpu.set_regs_of_ne _ _ hne

end Saving

end MitosOS.Lib
