import MitosOS.Lib.Lists
import MitosOS.Memory.Heap
import Mathlib.Data.List.Perm.Basic
import Mathlib.Logic.Relation

/-! Runs of the heap: which blocks are live, how large each block was when it was carved, and
why live blocks stay apart as long as no free block is handed out for more than that. -/
namespace MitosOS.Memory
open MitosOS.Lib

structure Block where
  ptr : ℕ
  layout : Layout

def Block.bytes (b : Block) : ℕ := max b.layout.size 8

/-- The heap with the blocks in use, and for every block the size the bump allocator cut it to. -/
structure HeapRun where
  heap : Heap
  live : List Block
  carved : ℕ → Option ℕ

def HeapRun.start (hhdmOffset : ℕ) (mem : Memory) (heapStart heapSize : ℕ) : HeapRun where
  heap := Heap.init ⟨hhdmOffset, false, .new, mem⟩ heapStart heapSize
  live := []
  carved _ := none

/-- What clients do: allocate, give back the block at a position of the live list, and change
memory. -/
inductive HeapCall where
  | alloc (layout : Layout)
  | dealloc (k : ℕ)
  | write (mem : Memory)

def Heap.InBlock (h : Heap) (b : Block) (x : ℕ) : Prop :=
  h.phys b.ptr ≤ x ∧ x < h.phys b.ptr + b.bytes

/-- Clients give back only live blocks, and write only into live blocks. -/
def HeapCall.Valid (s : HeapRun) : HeapCall → Prop
  | .alloc _ => True
  | .dealloc k => k < s.live.length
  | .write mem => ∀ x, (∀ b ∈ s.live, ¬ s.heap.InBlock b x) → mem x = s.heap.mem x

def HeapCall.run (s : HeapRun) : HeapCall → HeapRun
  | .alloc layout =>
    let (ptr, heap) := s.heap.alloc layout
    if ptr = 0 then { s with heap }
    else
      { heap
        live := ⟨ptr, layout⟩ :: s.live
        carved :=
          match s.heap.servingBucket layout.clamp with
          | some _ => s.carved
          | none => Function.update s.carved ptr (some layout.clamp.size) }
  | .dealloc k =>
    match s.live[k]? with
    | some b => { s with heap := s.heap.dealloc b.ptr b.layout, live := s.live.eraseIdx k }
    | none => s
  | .write mem => { s with heap := { s.heap with mem } }

/-- A recycled block is at least as large as what is asked for now, and rounding up a bump
allocation does not wrap. -/
def HeapCall.Fits (s : HeapRun) : HeapCall → Prop
  | .alloc layout =>
    match s.heap.servingBucket layout.clamp with
    | some index =>
      ∀ n, s.carved (s.heap.allocator.buckets index) = some n → layout.clamp.size ≤ n
    | none => s.heap.allocator.nextFreeByte + layout.align - 1 < 2 ^ 64
  | _ => True

def HeapStep (s s' : HeapRun) : Prop := ∃ c : HeapCall, c.Valid s ∧ s' = c.run s

def FittingStep (s s' : HeapRun) : Prop := ∃ c : HeapCall, c.Valid s ∧ c.Fits s ∧ s' = c.run s

def HeapRun.Separated (s : HeapRun) : Prop :=
  s.live.Pairwise (fun a b => s.heap.phys a.ptr + a.bytes ≤ s.heap.phys b.ptr ∨
    s.heap.phys b.ptr + b.bytes ≤ s.heap.phys a.ptr) ∧
  ∀ b ∈ s.live, s.heap.allocator.heapStart ≤ s.heap.phys b.ptr ∧
    s.heap.phys b.ptr + b.bytes ≤ s.heap.allocator.heapEnd

/-- Every block was carved once, the free lists and the live list hold each block at most once,
and no live block is used beyond its carved size. -/
structure HeapInv (s : HeapRun) (free : Fin 9 → List ℕ) : Prop where
  initialized : s.heap.initialized = true
  heapEnd_lt : s.heap.allocator.heapEnd < 2 ^ 64
  start_le : s.heap.allocator.heapStart ≤ s.heap.allocator.nextFreeByte
  carved_bounds : ∀ v n, s.carved v = some n → v ≠ 0 ∧ v < 2 ^ 64 ∧ 8 ≤ n ∧
    s.heap.allocator.heapStart ≤ s.heap.phys v ∧
    s.heap.phys v + n ≤ s.heap.allocator.nextFreeByte ∧
    s.heap.phys v + n ≤ s.heap.allocator.heapEnd
  carved_apart : ∀ v w n k, s.carved v = some n → s.carved w = some k → v ≠ w →
    s.heap.phys v + n ≤ s.heap.phys w ∨ s.heap.phys w + k ≤ s.heap.phys v
  threaded : ∀ i, Threaded s.heap.next 0 (s.heap.allocator.buckets i) (free i)
  free_carved : ∀ v ∈ allNodes free, ∃ n, s.carved v = some n
  live_carved : ∀ b ∈ s.live, ∃ n, s.carved b.ptr = some n ∧ b.bytes ≤ n
  nodup : (s.live.map Block.ptr ++ allNodes free).Nodup

section Invariant
variable {s : HeapRun} {free : Fin 9 → List ℕ}

theorem HeapInv.start (hhdmOffset : ℕ) (mem : Memory) (heapStart heapSize : ℕ) :
    HeapInv (HeapRun.start hhdmOffset mem heapStart heapSize) fun _ => [] where
  initialized := rfl
  heapEnd_lt := wrap64_lt _
  start_le := le_refl _
  carved_bounds v n h := absurd h (by simp [HeapRun.start])
  carved_apart v w n k h := absurd h (by simp [HeapRun.start])
  threaded _ := rfl
  free_carved v hv := by
    obtain ⟨i, hi⟩ := mem_allNodes.mp hv
    exact absurd hi List.not_mem_nil
  live_carved b hb := absurd hb List.not_mem_nil
  nodup := by simp [HeapRun.start]

theorem HeapInv.separated (h : HeapInv s free) : s.Separated := by
  constructor
  · have hpair := List.pairwise_map.mp h.nodup.of_append_left
    apply hpair.imp_of_mem
    intro a b ha hb hne
    obtain ⟨n, hn, han⟩ := h.live_carved a ha
    obtain ⟨k, hk, hbk⟩ := h.live_carved b hb
    have hapart := h.carved_apart a.ptr b.ptr n k hn hk hne
    omega
  · intro b hb
    obtain ⟨n, hn, hbn⟩ := h.live_carved b hb
    obtain ⟨-, -, -, hlo, -, hhi⟩ := h.carved_bounds b.ptr n hn
    constructor
    · exact hlo
    · omega

theorem HeapInv.listed_carved (h : HeapInv s free) {v : ℕ}
    (hv : v ∈ s.live.map Block.ptr ++ allNodes free) : ∃ n, s.carved v = some n := by
  cases List.mem_append.mp hv with
  | inl hlive =>
    obtain ⟨b, hb, rfl⟩ := List.mem_map.mp hlive
    obtain ⟨n, hn, -⟩ := h.live_carved b hb
    exact ⟨n, hn⟩
  | inr hfree => exact h.free_carved v hfree

theorem HeapInv.bucket_lt (h : HeapInv s free) (index : Fin 9) :
    s.heap.allocator.buckets index < 2 ^ 64 := by
  by_cases hz : s.heap.allocator.buckets index = 0
  · rw [hz]
    decide
  · obtain ⟨ys, hys, -⟩ := (h.threaded index).pop hz
    have hmem : s.heap.allocator.buckets index ∈ allNodes free :=
      mem_allNodes.mpr ⟨index, by rw [hys]; exact List.mem_cons_self⟩
    obtain ⟨n, hn⟩ := h.free_carved _ hmem
    exact (h.carved_bounds _ n hn).2.1

/-- The free lists keep their links through a write that avoids the bytes of free blocks. -/
theorem HeapInv.threaded_of_write (h : HeapInv s free) {mem : Memory} {lists : Fin 9 → List ℕ}
    (hmem : ∀ v ∈ allNodes lists, ∀ n, s.carved v = some n →
      ∀ x, s.heap.phys v ≤ x → x < s.heap.phys v + n → mem x = s.heap.mem x)
    (hlists : ∀ v ∈ allNodes lists, v ∈ allNodes free) {i : Fin 9} {head : ℕ}
    (ht : Threaded s.heap.next 0 head (lists i)) :
    Threaded (Heap.next { s.heap with mem }) 0 head (lists i) := by
  apply ht.congr
  intro v hv
  have hv' : v ∈ allNodes lists := mem_allNodes.mpr ⟨i, hv⟩
  obtain ⟨n, hn⟩ := h.free_carved v (hlists v hv')
  obtain ⟨-, -, h8, -⟩ := h.carved_bounds v n hn
  apply congrArg BitVec.toNat
  apply Memory.load64_congr
  intro x hx hx'
  have hphys : Heap.phys { s.heap with mem } v = s.heap.phys v := rfl
  rw [hphys] at hx hx'
  apply hmem v hv' n hn x hx
  omega

theorem HeapInv.write_block (h : HeapInv s free) {w k size : ℕ} (hw : s.carved w = some k)
    (hsize : size ≤ k) {mem : Memory}
    (hmem : ∀ x, x < s.heap.phys w ∨ s.heap.phys w + size ≤ x → mem x = s.heap.mem x)
    {v n : ℕ} (hn : s.carved v = some n) (hne : v ≠ w) {x : ℕ} (hx : s.heap.phys v ≤ x)
    (hx' : x < s.heap.phys v + n) : mem x = s.heap.mem x := by
  have hapart := h.carved_apart v w n k hn hw hne
  apply hmem
  omega

theorem HeapInv.pop (h : HeapInv s free) (layout : Layout) {index : Fin 9}
    (hne : s.heap.allocator.buckets index ≠ 0)
    (hfit : ∀ n, s.carved (s.heap.allocator.buckets index) = some n → layout.clamp.size ≤ n) :
    ∃ free', HeapInv
      { heap := (s.heap.popBucket index).2.zeroBlock (s.heap.allocator.buckets index)
          layout.clamp.size
        live := ⟨s.heap.allocator.buckets index, layout⟩ :: s.live
        carved := s.carved } free' := by
  set node := s.heap.allocator.buckets index
  obtain ⟨ys, hys, hrest⟩ := (h.threaded index).pop hne
  have hperm := allNodes_perm_of_cons hys
  have hnodup : (node :: allNodes (Function.update free index ys)).Nodup :=
    hperm.nodup h.nodup.of_append_right
  have hsub : ∀ v ∈ allNodes (Function.update free index ys), v ∈ allNodes free := fun v hv =>
    hperm.mem_iff.mpr (List.mem_cons_of_mem node hv)
  obtain ⟨n, hn⟩ := h.free_carved node (hperm.mem_iff.mpr List.mem_cons_self)
  have hwrite : ∀ v ∈ allNodes (Function.update free index ys), ∀ k, s.carved v = some k →
      ∀ x, s.heap.phys v ≤ x → x < s.heap.phys v + k →
        s.heap.mem.fill (s.heap.phys node) layout.clamp.size 0 x = s.heap.mem x := by
    intro v hv k hk x hx hx'
    have hvn : v ≠ node := by
      intro heq
      exact (List.nodup_cons.mp hnodup).1 (heq ▸ hv)
    exact h.write_block hn (hfit n hn) (fun y hy => Memory.fill_apply_of_disjoint _ _ hy) hk hvn
      hx hx'
  use Function.update free index ys
  exact {
    initialized := h.initialized
    heapEnd_lt := h.heapEnd_lt
    start_le := h.start_le
    carved_bounds := h.carved_bounds
    carved_apart := h.carved_apart
    threaded := by
      intro j
      apply h.threaded_of_write hwrite hsub
      show Threaded _ 0 (Function.update s.heap.allocator.buckets index (s.heap.next node) j) _
      by_cases hj : j = index
      · rw [hj, Function.update_self, Function.update_self]
        exact hrest
      · rw [Function.update_of_ne hj, Function.update_of_ne hj]
        exact h.threaded j
    free_carved := fun v hv => h.free_carved v (hsub v hv)
    live_carved := by
      intro b hb
      cases List.mem_cons.mp hb with
      | inl hbn =>
        rw [hbn]
        exact ⟨n, hn, hfit n hn⟩
      | inr hbl => exact h.live_carved b hbl
    nodup := by
      have hmove : (s.live.map Block.ptr ++ allNodes free).Perm
          (node :: s.live.map Block.ptr ++ allNodes (Function.update free index ys)) :=
        (hperm.append_left _).trans List.perm_middle
      exact hmove.nodup h.nodup }

theorem HeapInv.advance (h : HeapInv s free) {n : ℕ} (hn : s.heap.allocator.nextFreeByte ≤ n) :
    HeapInv { s with heap := { s.heap with
      allocator := { s.heap.allocator with nextFreeByte := n } } } free where
  initialized := h.initialized
  heapEnd_lt := h.heapEnd_lt
  start_le := h.start_le.trans hn
  carved_bounds v k hk := by
    obtain ⟨h0, hlt, h8, hlo, hnext, hend⟩ := h.carved_bounds v k hk
    exact ⟨h0, hlt, h8, hlo, hnext.trans hn, hend⟩
  carved_apart := h.carved_apart
  threaded := h.threaded
  free_carved := h.free_carved
  live_carved := h.live_carved
  nodup := h.nodup

theorem HeapInv.carve (h : HeapInv s free) (layout : Layout) {ptr : ℕ} (old : ℕ) (hptr : ptr ≠ 0)
    (hlt : ptr < 2 ^ 64) (hlo : s.heap.allocator.heapStart ≤ s.heap.phys ptr)
    (hold : ∀ v n, s.carved v = some n → s.heap.phys v + n ≤ old)
    (hstart : old ≤ s.heap.phys ptr)
    (hnext : s.heap.phys ptr + layout.clamp.size = s.heap.allocator.nextFreeByte)
    (hend : s.heap.phys ptr + layout.clamp.size ≤ s.heap.allocator.heapEnd) :
    HeapInv
      { heap := s.heap.zeroBlock ptr layout.clamp.size
        live := ⟨ptr, layout⟩ :: s.live
        carved := Function.update s.carved ptr (some layout.clamp.size) } free := by
  have h8 : 8 ≤ layout.clamp.size := le_max_right _ _
  have hfresh : ∀ v n, s.carved v = some n → v ≠ ptr := by
    intro v n hn heq
    obtain ⟨-, -, hv8, -⟩ := h.carved_bounds v n hn
    have hv := hold v n hn
    rw [heq] at hv
    omega
  have hcases : ∀ v n, Function.update s.carved ptr (some layout.clamp.size) v = some n →
      (v = ptr ∧ n = layout.clamp.size) ∨ s.carved v = some n := by
    intro v n hn
    by_cases hv : v = ptr
    · rw [hv, Function.update_self] at hn
      exact Or.inl ⟨hv, (Option.some.inj hn).symm⟩
    · rw [Function.update_of_ne hv] at hn
      exact Or.inr hn
  have hkeep : ∀ v n, s.carved v = some n →
      Function.update s.carved ptr (some layout.clamp.size) v = some n := by
    intro v n hn
    rw [Function.update_of_ne (hfresh v n hn)]
    exact hn
  exact {
    initialized := h.initialized
    heapEnd_lt := h.heapEnd_lt
    start_le := h.start_le
    carved_bounds := by
      intro v n hn
      rcases hcases v n hn with ⟨rfl, rfl⟩ | hn'
      · exact ⟨hptr, hlt, h8, hlo, hnext.le, hend⟩
      · exact h.carved_bounds v n hn'
    carved_apart := by
      intro v w n k hn hk hvw
      show s.heap.phys v + n ≤ s.heap.phys w ∨ s.heap.phys w + k ≤ s.heap.phys v
      rcases hcases v n hn with ⟨rfl, rfl⟩ | hn' <;> rcases hcases w k hk with ⟨rfl, rfl⟩ | hk'
      · exact absurd rfl hvw
      · exact Or.inr ((hold w k hk').trans hstart)
      · exact Or.inl ((hold v n hn').trans hstart)
      · exact h.carved_apart v w n k hn' hk' hvw
    threaded := by
      intro i
      apply h.threaded_of_write _ (fun v hv => hv) (h.threaded i)
      intro v hv n hn x hx hx'
      have hv' := hold v n hn
      apply Memory.fill_apply_of_disjoint
      omega
    free_carved := by
      intro v hv
      obtain ⟨n, hn⟩ := h.free_carved v hv
      exact ⟨n, hkeep v n hn⟩
    live_carved := by
      intro b hb
      cases List.mem_cons.mp hb with
      | inl hbn =>
        rw [hbn]
        exact ⟨layout.clamp.size, Function.update_self _ _ _, le_refl _⟩
      | inr hbl =>
        obtain ⟨n, hn, hbytes⟩ := h.live_carved b hbl
        exact ⟨n, hkeep b.ptr n hn, hbytes⟩
    nodup := by
      rw [List.map_cons, List.cons_append, List.nodup_cons]
      constructor
      · intro hmem
        obtain ⟨n, hn⟩ := h.listed_carved hmem
        exact hfresh ptr n hn rfl
      · exact h.nodup }

theorem HeapInv.threaded_push (h : HeapInv s free) {ptr n : ℕ} (hn : s.carved ptr = some n)
    (hnotfree : ptr ∉ allNodes free) (index j : Fin 9) :
    Threaded (s.heap.pushBucket index ptr).next 0
      (Function.update s.heap.allocator.buckets index ptr j)
      (Function.update free index (ptr :: free index) j) := by
  obtain ⟨h0, -, h8, -⟩ := h.carved_bounds ptr n hn
  have hold : ∀ i, Threaded (s.heap.pushBucket index ptr).next 0
      (s.heap.allocator.buckets i) (free i) := by
    intro i
    apply h.threaded_of_write _ (fun v hv => hv) (h.threaded i)
    intro v hv m hm x hx hx'
    have hvp : v ≠ ptr := by
      intro heq
      exact hnotfree (heq ▸ hv)
    exact h.write_block hn h8 (fun y hy => Memory.store64_apply_of_disjoint _ _ hy) hm hvp hx hx'
  have hlink : (s.heap.pushBucket index ptr).next ptr = s.heap.allocator.buckets index := by
    show (Memory.load64 (Memory.store64 _ _ _) _).toNat = _
    rw [show (s.heap.pushBucket index ptr).phys ptr = s.heap.phys ptr from rfl,
      Memory.load64_store64_same, BitVec.toNat_ofNat, Nat.mod_eq_of_lt (h.bucket_lt index)]
  by_cases hj : j = index
  · rw [hj, Function.update_self, Function.update_self]
    exact (hold index).push h0 hlink (fun _ _ => rfl)
  · rw [Function.update_of_ne hj, Function.update_of_ne hj]
    exact hold j

theorem HeapInv.dealloc (h : HeapInv s free) {k : ℕ} (hk : k < s.live.length) :
    ∃ free', HeapInv
      { s with
        heap := s.heap.dealloc s.live[k].ptr s.live[k].layout
        live := s.live.eraseIdx k } free' := by
  set b := s.live[k]
  have hlive : (b :: s.live.eraseIdx k).Perm s.live := List.getElem_cons_eraseIdx_perm hk
  have hrest : ∀ b' ∈ s.live.eraseIdx k, b' ∈ s.live := fun b' hb' =>
    hlive.mem_iff.mp (List.mem_cons_of_mem b hb')
  have hnodup : (b.ptr :: (s.live.eraseIdx k).map Block.ptr ++ allNodes free).Nodup :=
    (((hlive.map Block.ptr).append_right _).nodup_iff).mpr h.nodup
  obtain ⟨n, hn, -⟩ := h.live_carved b (hlive.mem_iff.mp List.mem_cons_self)
  have hb0 := (h.carved_bounds b.ptr n hn).1
  unfold Heap.dealloc
  rw [if_neg hb0]
  cases targetBucketIndex b.layout.clamp with
  | none =>
    use free
    exact { h with
      live_carved := fun b' hb' => h.live_carved b' (hrest b' hb')
      nodup := (List.nodup_cons.mp hnodup).2 }
  | some index =>
    have hnotfree : b.ptr ∉ allNodes free := fun hfree =>
      (List.nodup_cons.mp hnodup).1 (List.mem_append_right _ hfree)
    have hperm := allNodes_update_cons_perm free index b.ptr
    use Function.update free index (b.ptr :: free index)
    exact {
      initialized := h.initialized
      heapEnd_lt := h.heapEnd_lt
      start_le := h.start_le
      carved_bounds := h.carved_bounds
      carved_apart := h.carved_apart
      threaded := h.threaded_push hn hnotfree index
      free_carved := by
        intro v hv
        cases List.mem_cons.mp (hperm.mem_iff.mp hv) with
        | inl hvb =>
          rw [hvb]
          exact ⟨n, hn⟩
        | inr hvf => exact h.free_carved v hvf
      live_carved := fun b' hb' => h.live_carved b' (hrest b' hb')
      nodup := by
        have hmove : ((s.live.eraseIdx k).map Block.ptr ++
            allNodes (Function.update free index (b.ptr :: free index))).Perm
            (b.ptr :: (s.live.eraseIdx k).map Block.ptr ++ allNodes free) :=
          (hperm.append_left _).trans List.perm_middle
        exact hmove.nodup_iff.mpr hnodup }

theorem HeapInv.write (h : HeapInv s free) {mem : Memory}
    (hmem : ∀ x, (∀ b ∈ s.live, ¬ s.heap.InBlock b x) → mem x = s.heap.mem x) :
    HeapInv { s with heap := { s.heap with mem } } free where
  initialized := h.initialized
  heapEnd_lt := h.heapEnd_lt
  start_le := h.start_le
  carved_bounds := h.carved_bounds
  carved_apart := h.carved_apart
  threaded i := by
    apply h.threaded_of_write _ (fun v hv => hv) (h.threaded i)
    intro v hv n hn x hx hx'
    apply hmem
    intro b hb hin
    obtain ⟨k, hk, hbytes⟩ := h.live_carved b hb
    have hne : b.ptr ≠ v := by
      intro heq
      have hdisj := List.disjoint_of_nodup_append h.nodup
      exact hdisj (List.mem_map.mpr ⟨b, hb, rfl⟩) (heq ▸ hv)
    have hapart := h.carved_apart b.ptr v k n hk hn hne
    unfold Heap.InBlock at hin
    omega
  free_carved := h.free_carved
  live_carved := h.live_carved
  nodup := h.nodup

/-- A bump allocation, whether it succeeds, fails or lands on the null address. -/
theorem HeapInv.fallback (h : HeapInv s free) (layout : Layout)
    (hserve : s.heap.servingBucket layout.clamp = none)
    (hround : s.heap.allocator.nextFreeByte + layout.align - 1 < 2 ^ 64) :
    HeapInv ((HeapCall.alloc layout).run s) free := by
  have hinit := h.initialized
  unfold HeapCall.run Heap.alloc
  simp only [hinit, hserve, Bool.not_true, Bool.false_eq_true, if_false]
  unfold Heap.fallbackAlloc
  by_cases hend : s.heap.allocStart layout.align + layout.clamp.size < 2 ^ 64 ∧
      s.heap.allocStart layout.align + layout.clamp.size ≤ s.heap.allocator.heapEnd
  · have hle : s.heap.allocator.nextFreeByte ≤ s.heap.allocStart layout.align :=
      Heap.nextFreeByte_le_allocStart layout.align_pos hround
    have hadv := h.advance (n := s.heap.allocStart layout.align + layout.clamp.size) (by omega)
    have hphys : s.heap.phys (s.heap.physToVirt (s.heap.allocStart layout.align)) =
        s.heap.allocStart layout.align := s.heap.phys_physToVirt (by omega)
    have hclamp : layout.clamp.align = layout.align := rfl
    simp only [hclamp, hend, and_self, if_true]
    by_cases hnull : s.heap.physToVirt (s.heap.allocStart layout.align) = 0
    · simp only [hnull, ne_eq, not_true_eq_false, if_false, if_true]
      exact hadv
    · simp only [hnull, ne_eq, not_false_eq_true, if_true, if_false]
      apply hadv.carve layout s.heap.allocator.nextFreeByte hnull (wrap64_lt _)
      · exact (h.start_le.trans hle).trans hphys.ge
      · intro v n hn
        exact (h.carved_bounds v n hn).2.2.2.2.1
      · exact hle.trans hphys.ge
      · exact congrArg (· + layout.clamp.size) hphys
      · exact (congrArg (· + layout.clamp.size) hphys).trans_le hend.2
  · have hclamp : layout.clamp.align = layout.align := rfl
    simp only [hclamp, hend, if_false, ne_eq, not_true_eq_false, if_true]
    exact h

theorem HeapInv.step (h : HeapInv s free) {c : HeapCall} (hvalid : c.Valid s) (hfits : c.Fits s) :
    ∃ free', HeapInv (c.run s) free' := by
  cases c with
  | alloc layout =>
    cases hserve : s.heap.servingBucket layout.clamp with
    | none =>
      use free
      apply h.fallback layout hserve
      simpa only [HeapCall.Fits, hserve] using hfits
    | some index =>
      have hne := Heap.servingBucket_ne_zero hserve
      have hfits' : ∀ n, s.carved (s.heap.allocator.buckets index) = some n →
          layout.clamp.size ≤ n := by
        simpa only [HeapCall.Fits, hserve] using hfits
      obtain ⟨free', hinv⟩ := h.pop layout hne hfits'
      use free'
      simp only [HeapCall.run, Heap.alloc_recycled h.initialized hserve, hserve, hne, if_false]
      exact hinv
  | dealloc k =>
    have hk : k < s.live.length := hvalid
    unfold HeapCall.run
    simp only [List.getElem?_eq_getElem hk]
    exact h.dealloc hk
  | write mem => exact ⟨free, h.write hvalid⟩

theorem HeapInv.of_run {s' : HeapRun} (h : HeapInv s free)
    (hrun : Relation.ReflTransGen FittingStep s s') : ∃ free', HeapInv s' free' := by
  induction hrun with
  | refl => exact ⟨free, h⟩
  | tail _ hstep ih =>
    obtain ⟨free', hinv⟩ := ih
    obtain ⟨c, hvalid, hfits, rfl⟩ := hstep
    exact hinv.step hvalid hfits

end Invariant

/-- In every run in which no recycled block is asked to hold more than it was carved for, live
blocks stay disjoint and inside the heap. -/
theorem heap_blocks_separated (hhdmOffset : ℕ) (mem : Memory) (heapStart heapSize : ℕ)
    (s : HeapRun) (hrun : Relation.ReflTransGen FittingStep
      (HeapRun.start hhdmOffset mem heapStart heapSize) s) : s.Separated := by
  obtain ⟨free, hinv⟩ := (HeapInv.start hhdmOffset mem heapStart heapSize).of_run hrun
  exact hinv.separated

def HeapRun.ranges (s : HeapRun) : List (ℕ × ℕ) :=
  s.live.map fun b => (s.heap.phys b.ptr, b.bytes)

theorem HeapRun.Separated.ranges {s : HeapRun} (h : s.Separated) :
    s.ranges.Pairwise fun a b => a.1 + a.2 ≤ b.1 ∨ b.1 + b.2 ≤ a.1 :=
  List.pairwise_map.mpr h.1

def wordLayout (size : ℕ) (hpos : 0 < size) (hle : size ≤ 4096) : Layout where
  size := size
  align := 8
  align_pow := ⟨3, rfl⟩
  size_pos := hpos
  size_le := by omega

def bootHeap : HeapRun := .start 0xFFFF800000000000 (fun _ => 0) 0x150000 0xA0000

def alloc24 : HeapCall := .alloc (wordLayout 24 (by decide) (by decide))
def alloc8 : HeapCall := .alloc (wordLayout 8 (by decide) (by decide))
def alloc32 : HeapCall := .alloc (wordLayout 32 (by decide) (by decide))

/-- A 24-byte block is carved, freed into the 32-byte list and handed out again as 32 bytes,
although a second block starts right behind its 24 bytes. -/
def overlappingRun : HeapRun :=
  alloc32.run ((HeapCall.dealloc 1).run (alloc8.run (alloc24.run bootHeap)))

theorem heap_blocks_overlap :
    Relation.ReflTransGen HeapStep bootHeap overlappingRun ∧ ¬ overlappingRun.Separated := by
  constructor
  · apply Relation.ReflTransGen.tail _ ⟨alloc32, trivial, rfl⟩
    have hlive : 1 < (alloc8.run (alloc24.run bootHeap)).live.length := by decide
    apply Relation.ReflTransGen.tail _ ⟨.dealloc 1, hlive, rfl⟩
    apply Relation.ReflTransGen.tail _ ⟨alloc8, trivial, rfl⟩
    exact Relation.ReflTransGen.single ⟨alloc24, trivial, rfl⟩
  · intro hsep
    have hranges : overlappingRun.ranges = [(0x150000, 32), (0x150018, 8)] := by decide
    have hpair := hsep.ranges
    rw [hranges, List.pairwise_pair] at hpair
    omega

/-- A 32-byte block is recycled for 24 bytes, which fits. -/
def recyclingRun : HeapRun := alloc24.run ((HeapCall.dealloc 0).run (alloc32.run bootHeap))

theorem heap_blocks_separated_recycling :
    Relation.ReflTransGen FittingStep bootHeap recyclingRun ∧
      recyclingRun.live.length = 1 ∧ recyclingRun.Separated := by
  have hfirst : FittingStep bootHeap (alloc32.run bootHeap) := by
    have hround : bootHeap.heap.allocator.nextFreeByte + 8 - 1 < 2 ^ 64 := by decide
    exact ⟨alloc32, trivial, hround, rfl⟩
  have hfree : FittingStep (alloc32.run bootHeap)
      ((HeapCall.dealloc 0).run (alloc32.run bootHeap)) := by
    have hlive : 0 < (alloc32.run bootHeap).live.length := by decide
    exact ⟨.dealloc 0, hlive, trivial, rfl⟩
  have hagain : FittingStep ((HeapCall.dealloc 0).run (alloc32.run bootHeap)) recyclingRun := by
    have hserve : Heap.servingBucket ((HeapCall.dealloc 0).run (alloc32.run bootHeap)).heap
        (wordLayout 24 (by decide) (by decide)).clamp = some 2 := by decide
    have hcarved : ((HeapCall.dealloc 0).run (alloc32.run bootHeap)).carved
        (((HeapCall.dealloc 0).run (alloc32.run bootHeap)).heap.allocator.buckets 2) = some 32 := by
      decide
    refine ⟨alloc24, trivial, ?_, rfl⟩
    simp only [HeapCall.Fits, alloc24, hserve, hcarved]
    intro n hn
    rw [← Option.some.inj hn]
    decide
  have hrun : Relation.ReflTransGen FittingStep bootHeap recyclingRun :=
    ((Relation.ReflTransGen.single hfirst).tail hfree).tail hagain
  exact ⟨hrun, by decide, heap_blocks_separated _ _ _ _ _ hrun⟩

end MitosOS.Memory
