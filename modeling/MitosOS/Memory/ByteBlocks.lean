import MitosOS.Memory.HeapReuse

/-! Byte vectors on the kernel heap: when it can hold one more, and for how long two buffers that are
allocated and freed together can be used again and again. -/
namespace MitosOS.Memory
open MitosOS.Lib

theorem one_eq_pow : ∃ k, 1 = 2 ^ k := ⟨0, rfl⟩

/-- The layout of a `Vec<u8>` with room for `n` bytes. It has none without bytes, and none above
`isize::MAX`. -/
def byteLayout (n : ℕ) : Option Layout :=
  if h : 0 < n ∧ n < 2 ^ 63 then some ⟨n, 1, one_eq_pow, h.1, h.2⟩ else none

structure BlockSize (n : ℕ) : Prop where
  pos : 0 < n
  lt : n < 2 ^ 63

def bucketOf (n : ℕ) : Option (Fin 9) :=
  (byteLayout n).bind fun layout => targetBucketIndex layout.clamp

/-- What is lost of the heap when a block of `n` bytes is freed. -/
def leak (n : ℕ) : ℕ := if 2048 < n then n else 0

namespace Heap

/-- The block of `Vec::with_capacity(n)` and of `vec![0; n]`. Without bytes there is none, and the
pointer dangles. `none` is a failed allocation. -/
def allocBytes (h : Heap) (n : ℕ) : Option (ℕ × Heap) :=
  if n = 0 then some (1, h)
  else
    (byteLayout n).bind fun layout =>
      if (h.alloc layout).1 = 0 then none else some (h.alloc layout)

def freeBytes (h : Heap) (ptr n : ℕ) : Heap :=
  match byteLayout n with
  | some layout => h.dealloc ptr layout
  | none => h

def afterBytes (h : Heap) (n : ℕ) : Heap := ((h.allocBytes n).map Prod.snd).getD h

/-- The unused end of the heap holds `n` bytes, or a free-list link if that is more. -/
structure Carves (h : Heap) (n : ℕ) : Prop where
  lt : h.allocStart 1 + max n minBlockSize < 2 ^ 64
  le : h.allocStart 1 + max n minBlockSize ≤ h.allocator.heapEnd
  nonNull : h.physToVirt (h.allocStart 1) ≠ 0

def Listed (h : Heap) (n : ℕ) : Prop :=
  ∃ index, bucketOf n = some index ∧ h.allocator.buckets index ≠ 0

def CanHold (h : Heap) (n : ℕ) : Prop :=
  n = 0 ∨ n < 2 ^ 63 ∧ h.initialized = true ∧ (h.Listed n ∨ h.Carves n)

/-- What is left at the end of the heap when blocks of `a` and of `b` bytes were handed out. -/
def roomAfter (h : Heap) (a b : ℕ) : ℕ :=
  h.allocator.heapEnd - ((h.afterBytes a).afterBytes b).allocator.nextFreeByte

/-- Two buffers at a time: `a` bytes, which are freed last, and `b` bytes. -/
def useBuffers (h : Heap) (a b : ℕ) : Option Heap :=
  (h.allocBytes a).bind fun x => (x.2.allocBytes b).map fun y =>
    (y.2.freeBytes y.1 b).freeBytes x.1 a

def useBuffersTimes (a b : ℕ) : ℕ → Heap → Option Heap
  | 0, h => some h
  | n + 1, h => (h.useBuffers a b).bind (useBuffersTimes a b n)

end Heap

section Blocks
variable {h h' : Heap} {n p : ℕ} {index : Fin 9}

theorem byteLayout_eq (hn : BlockSize n) :
    ∃ layout, byteLayout n = some layout ∧ layout.size = n ∧ layout.align = 1 :=
  ⟨_, dif_pos ⟨hn.pos, hn.lt⟩, rfl, rfl⟩

theorem bucketOf_eq {layout : Layout} (hlayout : byteLayout n = some layout) :
    bucketOf n = targetBucketIndex layout.clamp := by
  rw [bucketOf, hlayout]
  rfl

/-- Blocks above 2048 bytes have no free list. -/
theorem bucketOf_eq_none_iff (hn : BlockSize n) : bucketOf n = none ↔ 2048 < n := by
  obtain ⟨layout, hlayout, hsize, halign⟩ := byteLayout_eq hn
  rw [bucketOf_eq hlayout, targetBucketIndex_eq_none_iff, hsize, halign]
  omega

namespace Heap

theorem Kept.refl (h : Heap) : Kept h h := ⟨rfl, rfl, rfl⟩

theorem allocBytes_of_listed (hn : BlockSize n) (hinit : h.initialized = true)
    (hbucket : bucketOf n = some index) (hne : h.allocator.buckets index ≠ 0) :
    ∃ h', h.allocBytes n = some (h.allocator.buckets index, h') ∧
      h'.allocator = { h.allocator with
        buckets := Function.update h.allocator.buckets index (h.next (h.allocator.buckets index)) } ∧
      Kept h h' := by
  obtain ⟨layout, hlayout, -, -⟩ := byteLayout_eq hn
  rw [bucketOf_eq hlayout] at hbucket
  have hserve := servingBucket_eq_some_iff.mpr ⟨hbucket, hne⟩
  have hkept := h.alloc_kept layout
  rw [alloc_recycled hinit hserve] at hkept
  refine ⟨_, ?_, rfl, hkept⟩
  rw [allocBytes, if_neg hn.pos.ne', hlayout, Option.bind_some,
    alloc_recycled hinit hserve, if_neg hne]

theorem servingBucket_of_not_listed {layout : Layout} (hlayout : byteLayout n = some layout)
    (hlist : ¬ h.Listed n) : h.servingBucket layout.clamp = none := by
  cases hserve : h.servingBucket layout.clamp with
  | none => rfl
  | some index =>
    obtain ⟨hbucket, hne⟩ := servingBucket_eq_some_iff.mp hserve
    refine absurd ⟨index, ?_, hne⟩ hlist
    rw [bucketOf, hlayout]
    exact hbucket

theorem allocBytes_of_carves (hn : BlockSize n) (hinit : h.initialized = true)
    (hlist : ¬ h.Listed n) (hcarves : h.Carves n) :
    ∃ h', h.allocBytes n = some (h.physToVirt (h.allocStart 1), h') ∧
      h'.allocator = { h.allocator with nextFreeByte := h.allocStart 1 + max n minBlockSize } ∧
      Kept h h' := by
  obtain ⟨layout, hlayout, hsize, halign⟩ := byteLayout_eq hn
  have hserve := servingBucket_of_not_listed hlayout hlist
  have hclamp : layout.clamp.size = max n minBlockSize := by rw [← hsize]; rfl
  have hclamp' : layout.clamp.align = 1 := halign
  have halloc : h.alloc layout = (h.physToVirt (h.allocStart 1),
      Heap.zeroBlock { h with allocator := { h.allocator with
        nextFreeByte := h.allocStart 1 + max n minBlockSize } }
        (h.physToVirt (h.allocStart 1)) (max n minBlockSize)) := by
    simp only [alloc, hinit, hserve, fallbackAlloc, hclamp, hclamp', hcarves.lt, hcarves.le,
      Bool.not_true, Bool.false_eq_true, if_false, and_self, if_true, ne_eq, hcarves.nonNull,
      not_false_eq_true]
  refine ⟨(h.alloc layout).2, ?_, ?_, h.alloc_kept layout⟩
  · rw [allocBytes, if_neg hn.pos.ne', hlayout, Option.bind_some, halloc,
      if_neg hcarves.nonNull]
  · rw [halloc]
    rfl

theorem allocBytes_eq_none (hpos : 0 < n) (hlist : ¬ h.Listed n)
    (hcarves : h.initialized = true → n < 2 ^ 63 → ¬ h.Carves n) : h.allocBytes n = none := by
  rw [allocBytes, if_neg (Nat.pos_iff_ne_zero.mp hpos)]
  by_cases hlt : n < 2 ^ 63
  swap
  · rw [byteLayout, dif_neg (by omega)]
    rfl
  obtain ⟨layout, hlayout, hsize, halign⟩ := byteLayout_eq ⟨hpos, hlt⟩
  have hserve := servingBucket_of_not_listed hlayout hlist
  have hclamp : layout.clamp.size = max n minBlockSize := by rw [← hsize]; rfl
  have hclamp' : layout.clamp.align = 1 := halign
  rw [hlayout, Option.bind_some, if_pos]
  by_contra hne
  have hinit := initialized_of_alloc hne
  obtain ⟨hend, hptr, -, -⟩ := alloc_carved hserve hne
  have hle := nextFreeByte_le_heapEnd hserve hne
  rw [(alloc_carved hserve hne).2.2.1] at hle
  rw [halign] at hend hptr hle
  rw [hclamp] at hend hle
  exact hcarves hinit hlt ⟨hend, hle, hptr ▸ hne⟩

theorem allocBytes_isSome_iff (h : Heap) (n : ℕ) :
    (h.allocBytes n).isSome = true ↔ h.CanHold n := by
  rcases Nat.eq_zero_or_pos n with rfl | hpos
  · exact iff_of_true rfl (.inl rfl)
  have hzero := Nat.pos_iff_ne_zero.mp hpos
  constructor
  · intro hsome
    have hne : h.allocBytes n ≠ none := by
      intro hnone
      rw [hnone] at hsome
      exact absurd hsome (by simp)
    by_cases hlist : h.Listed n
    · by_contra hcannot
      apply hne
      obtain ⟨index, hbucket, hhead⟩ := hlist
      have hlt : n < 2 ^ 63 := by
        by_contra hlarge
        rw [bucketOf, byteLayout, dif_neg (by omega)] at hbucket
        exact absurd hbucket (by simp)
      have hinit : h.initialized = false := by
        cases hinit : h.initialized with
        | false => rfl
        | true => exact absurd (.inr ⟨hlt, hinit, .inl ⟨index, hbucket, hhead⟩⟩) hcannot
      obtain ⟨layout, hlayout, -, -⟩ := byteLayout_eq ⟨hpos, hlt⟩
      rw [allocBytes, if_neg hzero, hlayout, Option.bind_some, alloc, hinit]
      rfl
    · by_contra hcannot
      refine hne (allocBytes_eq_none hpos hlist fun hinit hlt hcarves => hcannot ?_)
      exact .inr ⟨hlt, hinit, .inr hcarves⟩
  · rintro (rfl | ⟨hlt, hinit, hblock⟩)
    · exact absurd rfl hzero
    by_cases hlist : h.Listed n
    · obtain ⟨index, hbucket, hne⟩ := hlist
      obtain ⟨h', heq, -⟩ := allocBytes_of_listed ⟨hpos, hlt⟩ hinit hbucket hne
      rw [heq]
      rfl
    · obtain ⟨h', heq, -⟩ := allocBytes_of_carves ⟨hpos, hlt⟩ hinit hlist (hblock.resolve_left hlist)
      rw [heq]
      rfl

theorem allocBytes_of_canHold (hcan : h.CanHold n) : ∃ p, h.allocBytes n = some (p, h.afterBytes n) := by
  obtain ⟨x, hx⟩ := Option.isSome_iff_exists.mp ((allocBytes_isSome_iff h n).mpr hcan)
  refine ⟨x.1, ?_⟩
  rw [afterBytes, hx]
  rfl

theorem allocBytes_of_not_canHold (hcannot : ¬ h.CanHold n) : h.allocBytes n = none := by
  rw [← Option.not_isSome_iff_eq_none, allocBytes_isSome_iff]
  exact hcannot

theorem allocBytes_cases (hn : BlockSize n) (halloc : h.allocBytes n = some (p, h')) :
    p ≠ 0 ∧ h.initialized = true ∧ Kept h h' ∧
    ((∃ index, bucketOf n = some index ∧ h.allocator.buckets index = p ∧
        h'.allocator = { h.allocator with
          buckets := Function.update h.allocator.buckets index (h.next p) }) ∨
      ¬ h.Listed n ∧ h.Carves n ∧ p = h.physToVirt (h.allocStart 1) ∧
        h'.allocator = { h.allocator with nextFreeByte := h.allocStart 1 + max n minBlockSize }) := by
  have hcan := (allocBytes_isSome_iff h n).mp (by rw [halloc]; rfl)
  rcases hcan with rfl | ⟨-, hinit, hblock⟩
  · exact absurd rfl hn.pos.ne'
  by_cases hlist : h.Listed n
  · obtain ⟨index, hbucket, hne⟩ := hlist
    obtain ⟨h'', heq, hallocator, hkept⟩ := allocBytes_of_listed hn hinit hbucket hne
    obtain ⟨rfl, rfl⟩ := Prod.mk.inj (Option.some.inj (halloc.symm.trans heq))
    exact ⟨hne, hinit, hkept, .inl ⟨index, hbucket, rfl, hallocator⟩⟩
  · have hcarves := hblock.resolve_left hlist
    obtain ⟨h'', heq, hallocator, hkept⟩ := allocBytes_of_carves hn hinit hlist hcarves
    obtain ⟨rfl, rfl⟩ := Prod.mk.inj (Option.some.inj (halloc.symm.trans heq))
    exact ⟨hcarves.nonNull, hinit, hkept, .inr ⟨hlist, hcarves, rfl, hallocator⟩⟩

end Heap

end Blocks

section Buffers
variable {h h' : Heap} {a b n p : ℕ}

namespace Heap

theorem freeBytes_kept (h : Heap) (ptr n : ℕ) : Kept h (h.freeBytes ptr n) := by
  unfold freeBytes
  split
  · exact h.dealloc_kept ptr _
  · exact .refl h

theorem freeBytes_of_bucket {index : Fin 9} (hp : p ≠ 0) (hbucket : bucketOf n = some index) :
    h.freeBytes p n = h.pushBucket index p := by
  cases hlayout : byteLayout n with
  | none =>
    rw [bucketOf, hlayout] at hbucket
    exact absurd hbucket (by simp)
  | some layout =>
    rw [bucketOf_eq hlayout] at hbucket
    simp only [freeBytes, hlayout, dealloc, hp, if_false, hbucket]

theorem freeBytes_of_none (hbucket : bucketOf n = none) : h.freeBytes p n = h := by
  cases hlayout : byteLayout n with
  | none => simp only [freeBytes, hlayout]
  | some layout =>
    rw [bucketOf_eq hlayout] at hbucket
    simp only [freeBytes, hlayout, dealloc, hbucket, ite_self]

theorem freeBytes_nextFreeByte (h : Heap) (p n : ℕ) :
    (h.freeBytes p n).allocator.nextFreeByte = h.allocator.nextFreeByte := by
  unfold freeBytes
  split
  · unfold dealloc
    split_ifs
    · rfl
    · split <;> rfl
  · rfl

/-- Both free lists hold the blocks that the buffers had before: one behind the other, if it is one
list. -/
structure Ready (h : Heap) (a b : ℕ) : Prop where
  initialized : h.initialized = true
  first : ∀ i, bucketOf a = some i → h.allocator.buckets i ≠ 0
  second : ∀ i, bucketOf b = some i → bucketOf a ≠ some i → h.allocator.buckets i ≠ 0
  behind : ∀ i, bucketOf b = some i → bucketOf a = some i → h.next (h.allocator.buckets i) ≠ 0

theorem pushBucket_buckets (h : Heap) (index : Fin 9) (ptr : ℕ) :
    (h.pushBucket index ptr).allocator.buckets =
      Function.update h.allocator.buckets index ptr := rfl

theorem next_lt (h : Heap) (node : ℕ) : h.next node < 2 ^ 64 := BitVec.isLt _

theorem physToVirt_lt (h : Heap) (phys : ℕ) : h.physToVirt phys < 2 ^ 64 := wrap64_lt _

theorem useBuffers_eq_some_iff : h.useBuffers a b = some h' ↔
    ∃ p h₁ q h₂, h.allocBytes a = some (p, h₁) ∧ h₁.allocBytes b = some (q, h₂) ∧
      h' = (h₂.freeBytes q b).freeBytes p a := by
  unfold useBuffers
  constructor
  · intro heq
    obtain ⟨⟨p, h₁⟩, ha, heq⟩ := Option.bind_eq_some_iff.mp heq
    obtain ⟨⟨q, h₂⟩, hb, rfl⟩ := Option.map_eq_some_iff.mp heq
    exact ⟨p, h₁, q, h₂, ha, hb, rfl⟩
  · rintro ⟨p, h₁, q, h₂, ha, hb, rfl⟩
    rw [ha, Option.bind_some, hb]
    rfl

/-- When both buffers come from one list, the second one is not a stray pointer. -/
theorem second_lt {h₁ h₂ : Heap} {q : ℕ} {i : Fin 9} (ha : BlockSize a)
    (hb : BlockSize b) (hfirst : h.allocBytes a = some (p, h₁))
    (hsecond : h₁.allocBytes b = some (q, h₂)) (hia : bucketOf a = some i)
    (hib : bucketOf b = some i) : q < 2 ^ 64 := by
  obtain ⟨-, -, -, hpa⟩ := allocBytes_cases ha hfirst
  obtain ⟨hq, -, -, hqb⟩ := allocBytes_cases hb hsecond
  rcases hqb with ⟨j, hj, hhead, -⟩ | ⟨-, -, rfl, -⟩
  · obtain rfl : i = j := Option.some.inj (hib.symm.trans hj)
    rcases hpa with ⟨k, hk, -, hallocator⟩ | ⟨hlist, -, -, hallocator⟩
    · obtain rfl : i = k := Option.some.inj (hia.symm.trans hk)
      rw [hallocator] at hhead
      dsimp only at hhead
      rw [Function.update_self] at hhead
      exact hhead ▸ h.next_lt p
    · rw [hallocator] at hhead
      exact absurd ⟨i, hia, hhead.symm ▸ hq⟩ hlist
  · exact h₁.physToVirt_lt _

theorem Ready.of_useBuffers (ha : BlockSize a) (hb : BlockSize b)
    (huse : h.useBuffers a b = some h') : h'.Ready a b := by
  obtain ⟨p, h₁, q, h₂, hfirst, hsecond, rfl⟩ := useBuffers_eq_some_iff.mp huse
  obtain ⟨hp, hinit, hkept, -⟩ := allocBytes_cases ha hfirst
  obtain ⟨hq, -, hkept', -⟩ := allocBytes_cases hb hsecond
  have hkeptAll := ((hkept.trans hkept').trans (h₂.freeBytes_kept q b)).trans
    ((h₂.freeBytes q b).freeBytes_kept p a)
  constructor
  · exact hkeptAll.initialized.trans hinit
  · intro i hi
    rwa [freeBytes_of_bucket hp hi, pushBucket_buckets, Function.update_self]
  · intro i hi hne
    rw [freeBytes_of_bucket hq hi]
    cases hia : bucketOf a with
    | none =>
      rwa [freeBytes_of_none hia, pushBucket_buckets, Function.update_self]
    | some j =>
      have hij : i ≠ j := by
        rintro rfl
        exact hne hia
      rwa [freeBytes_of_bucket hp hia, pushBucket_buckets, Function.update_of_ne hij,
        pushBucket_buckets, Function.update_self]
  · intro i hib hia
    have hlt := second_lt ha hb hfirst hsecond hia hib
    rw [freeBytes_of_bucket hq hib, freeBytes_of_bucket hp hia]
    have hhead : ((h₂.pushBucket i q).pushBucket i p).allocator.buckets i = p :=
      Function.update_self _ _ _
    have hlink : (h₂.pushBucket i q).allocator.buckets i = q := Function.update_self _ _ _
    have hnext : ((h₂.pushBucket i q).pushBucket i p).next p = q := by
      change (Memory.load64 (Memory.store64 _ _ _) _).toNat = q
      rw [hlink, show ((h₂.pushBucket i q).pushBucket i p).phys p = (h₂.pushBucket i q).phys p from rfl,
        Memory.load64_store64_same, BitVec.toNat_ofNat, Nat.mod_eq_of_lt hlt]
    rwa [hhead, hnext]

theorem leak_of_bucket {i : Fin 9} (hn : BlockSize n) (hi : bucketOf n = some i) :
    leak n = 0 := by
  have hsmall : ¬ 2048 < n := by
    rw [← bucketOf_eq_none_iff hn, hi]
    simp
  exact if_neg hsmall

theorem leak_of_none (hn : BlockSize n) (hnone : bucketOf n = none) :
    leak n = n ∧ max n minBlockSize = n := by
  have hlarge := (bucketOf_eq_none_iff hn).mp hnone
  refine ⟨if_pos hlarge, ?_⟩
  unfold minBlockSize
  omega

theorem not_listed_of_none (hnone : bucketOf n = none) : ¬ h.Listed n := by
  rintro ⟨i, hi, -⟩
  rw [hnone] at hi
  exact absurd hi (by simp)

/-- The heap lies in the direct map, and what is in use of it ends inside. -/
structure Mapped (h : Heap) : Prop where
  pos : 0 < h.allocator.nextFreeByte
  le : h.allocator.nextFreeByte ≤ h.allocator.heapEnd
  lt : h.hhdmOffset + h.allocator.heapEnd < 2 ^ 64

theorem Mapped.allocStart_eq (hm : h.Mapped) : h.allocStart 1 = h.allocator.nextFreeByte := by
  have hle := hm.le
  have hlt := hm.lt
  unfold allocStart alignDown
  rw [Nat.add_sub_cancel, Nat.mod_one, Nat.sub_zero, wrap64_of_lt (by omega)]

theorem Mapped.carves_iff (hm : h.Mapped) :
    h.Carves n ↔ h.allocator.nextFreeByte + max n minBlockSize ≤ h.allocator.heapEnd := by
  have hpos := hm.pos
  have hlt := hm.lt
  constructor
  · intro hcarves
    rw [← hm.allocStart_eq]
    exact hcarves.le
  · intro hroom
    have hsize : minBlockSize ≤ max n minBlockSize := le_max_right _ _
    refine ⟨?_, ?_, ?_⟩
    · rw [hm.allocStart_eq]
      omega
    · rwa [hm.allocStart_eq]
    · rw [hm.allocStart_eq, physToVirt, wrap64_of_lt (by omega)]
      omega

theorem Mapped.allocBytes (hm : h.Mapped) (hn : BlockSize n)
    (halloc : h.allocBytes n = some (p, h')) : h'.Mapped := by
  obtain ⟨-, -, hkept, hblock⟩ := allocBytes_cases hn halloc
  have hoffset := hkept.hhdmOffset
  have hend := hkept.heapEnd
  rcases hblock with ⟨i, -, -, hallocator⟩ | ⟨-, hcarves, -, hallocator⟩
  · have hnext : h'.allocator.nextFreeByte = h.allocator.nextFreeByte := by rw [hallocator]
    exact ⟨hnext ▸ hm.pos, hnext ▸ hend ▸ hm.le, hoffset ▸ hend ▸ hm.lt⟩
  · have hnext : h'.allocator.nextFreeByte = h.allocStart 1 + max n minBlockSize := by
      rw [hallocator]
    have hmin : minBlockSize ≤ max n minBlockSize := le_max_right _ _
    refine ⟨?_, ?_, hoffset ▸ hend ▸ hm.lt⟩
    · rw [hnext]
      unfold minBlockSize at hmin ⊢
      omega
    · rw [hnext, hend]
      exact hcarves.le

theorem Mapped.freeBytes (hm : h.Mapped) (p n : ℕ) : (h.freeBytes p n).Mapped := by
  have hkept := h.freeBytes_kept p n
  have hnext := h.freeBytes_nextFreeByte p n
  exact ⟨hnext ▸ hm.pos, hnext ▸ hkept.heapEnd ▸ hm.le, hkept.hhdmOffset ▸ hkept.heapEnd ▸ hm.lt⟩

theorem Mapped.useBuffers (hm : h.Mapped) (ha : BlockSize a)
    (hb : BlockSize b) (huse : h.useBuffers a b = some h') : h'.Mapped := by
  obtain ⟨p, h₁, q, h₂, hfirst, hsecond, rfl⟩ := useBuffers_eq_some_iff.mp huse
  exact (((hm.allocBytes ha hfirst).allocBytes hb hsecond).freeBytes q b).freeBytes p a

/-- A block that is ready, or that no free list takes, costs what is lost of it. -/
theorem Mapped.allocBytes_ready (hm : h.Mapped) (hn : BlockSize n)
    (hinit : h.initialized = true) (hready : ∀ i, bucketOf n = some i → h.allocator.buckets i ≠ 0) :
    ((h.allocBytes n).isSome = true ↔
      leak n ≤ h.allocator.heapEnd - h.allocator.nextFreeByte) ∧
    ∀ p h', h.allocBytes n = some (p, h') →
      h'.allocator.nextFreeByte = h.allocator.nextFreeByte + leak n ∧
      h'.allocator.buckets = (bucketOf n).elim h.allocator.buckets fun i =>
        Function.update h.allocator.buckets i (h.next (h.allocator.buckets i)) := by
  cases hbucket : bucketOf n with
  | some i =>
    have hne := hready i hbucket
    obtain ⟨h₁, heq, hallocator, -⟩ := allocBytes_of_listed hn hinit hbucket hne
    rw [leak_of_bucket hn hbucket, heq]
    refine ⟨iff_of_true rfl (Nat.zero_le _), fun p h' hsome => ?_⟩
    obtain ⟨-, rfl⟩ := Prod.mk.inj (Option.some.inj hsome)
    rw [hallocator]
    exact ⟨rfl, rfl⟩
  | none =>
    have hlist : ¬ h.Listed n := not_listed_of_none hbucket
    obtain ⟨hleak, hmax⟩ := leak_of_none hn hbucket
    have hle := hm.le
    constructor
    · rw [allocBytes_isSome_iff, CanHold, hm.carves_iff, hmax, hleak]
      simp only [hn.pos.ne', hn.lt, hinit, hlist, false_or, true_and]
      omega
    · intro p h' hsome
      obtain ⟨-, -, -, hblock⟩ := allocBytes_cases hn hsome
      rcases hblock with ⟨i, hi, -, -⟩ | ⟨-, -, -, hallocator⟩
      · rw [hbucket] at hi
        exact absurd hi (by simp)
      · rw [hallocator, hm.allocStart_eq, hmax, hleak]
        exact ⟨rfl, rfl⟩

/-- One more use of buffers that are ready costs what is lost of both. -/
theorem Ready.useBuffers (hr : h.Ready a b) (hm : h.Mapped) (ha : BlockSize a)
    (hb : BlockSize b) :
    ((h.useBuffers a b).isSome = true ↔
      leak a + leak b ≤ h.allocator.heapEnd - h.allocator.nextFreeByte) ∧
    ∀ h', h.useBuffers a b = some h' →
      h'.allocator.nextFreeByte = h.allocator.nextFreeByte + (leak a + leak b) ∧
      h'.allocator.heapEnd = h.allocator.heapEnd := by
  obtain ⟨hsome, heffect⟩ := hm.allocBytes_ready ha hr.initialized hr.first
  cases hfirst : h.allocBytes a with
  | none =>
    rw [hfirst] at hsome
    have hnone : h.useBuffers a b = none := by rw [Heap.useBuffers, hfirst]; rfl
    rw [hnone]
    refine ⟨iff_of_false (by simp) fun hroom => ?_, by simp⟩
    exact absurd (hsome.mpr (by omega)) (by simp)
  | some x =>
    obtain ⟨p, h₁⟩ := x
    obtain ⟨hnext, hbuckets⟩ := heffect p h₁ hfirst
    obtain ⟨-, -, hkept, -⟩ := allocBytes_cases ha hfirst
    have hroom := hsome.mp (by rw [hfirst]; rfl)
    have hm₁ := hm.allocBytes ha hfirst
    -- the second list still has its block
    have hready : ∀ i, bucketOf b = some i → h₁.allocator.buckets i ≠ 0 := by
      intro i hi
      rw [hbuckets]
      cases hia : bucketOf a with
      | none => exact hr.second i hi (by rw [hia]; simp)
      | some j =>
        rw [Option.elim_some]
        by_cases hij : i = j
        · subst hij
          rw [Function.update_self]
          exact hr.behind i hi hia
        · rw [Function.update_of_ne hij]
          refine hr.second i hi ?_
          rw [hia]
          exact fun hcon => hij (Option.some.inj hcon).symm
    obtain ⟨hsome₁, heffect₁⟩ := hm₁.allocBytes_ready hb
      (hkept.initialized.trans hr.initialized) hready
    rw [hnext, hkept.heapEnd] at hsome₁
    cases hsecond : h₁.allocBytes b with
    | none =>
      rw [hsecond] at hsome₁
      have hnone : h.useBuffers a b = none := by
        rw [Heap.useBuffers, hfirst, Option.bind_some, hsecond]
        rfl
      rw [hnone]
      refine ⟨iff_of_false (by simp) fun hboth => ?_, by simp⟩
      exact absurd (hsome₁.mpr (by omega)) (by simp)
    | some y =>
      obtain ⟨q, h₂⟩ := y
      obtain ⟨hnext₁, -⟩ := heffect₁ q h₂ hsecond
      obtain ⟨-, -, hkept₁, -⟩ := allocBytes_cases hb hsecond
      have hroom₁ := hsome₁.mp (by rw [hsecond]; rfl)
      have huse : h.useBuffers a b = some ((h₂.freeBytes q b).freeBytes p a) :=
        useBuffers_eq_some_iff.mpr ⟨p, h₁, q, h₂, hfirst, hsecond, rfl⟩
      rw [huse]
      refine ⟨iff_of_true rfl (by omega), fun h' hh' => ?_⟩
      obtain rfl := Option.some.inj hh'
      constructor
      · rw [freeBytes_nextFreeByte, freeBytes_nextFreeByte, hnext₁, hnext]
        omega
      · rw [(freeBytes_kept _ p a).heapEnd, (freeBytes_kept _ q b).heapEnd, hkept₁.heapEnd,
          hkept.heapEnd]

theorem Ready.useBuffersTimes (n : ℕ) : ∀ {h : Heap}, h.Ready a b → h.Mapped → BlockSize a →
    BlockSize b →
    ((useBuffersTimes a b n h).isSome = true ↔
      n * (leak a + leak b) ≤ h.allocator.heapEnd - h.allocator.nextFreeByte) := by
  induction n with
  | zero =>
    intro h _ _ _ _
    rw [Nat.zero_mul]
    exact iff_of_true rfl (Nat.zero_le _)
  | succ n ih =>
    intro h hr hm ha hb
    obtain ⟨hsome, heffect⟩ := hr.useBuffers hm ha hb
    rw [Heap.useBuffersTimes, Nat.succ_mul]
    cases huse : h.useBuffers a b with
    | none =>
      rw [huse] at hsome
      refine iff_of_false (by simp) fun hroom => ?_
      exact absurd (hsome.mpr (by omega)) (by simp)
    | some h' =>
      obtain ⟨hnext, hend⟩ := heffect h' huse
      have hroom := hsome.mp (by rw [huse]; rfl)
      rw [Option.bind_some, ih (.of_useBuffers ha hb huse)
        (hm.useBuffers ha hb huse) ha hb, hnext, hend]
      omega

/-- How often two buffers can be used. The first use finds its blocks or carves them; every further
one loses what no free list takes. -/
theorem Mapped.useBuffersTimes_iff (hm : h.Mapped) (ha : BlockSize a)
    (hb : BlockSize b) (n : ℕ) :
    (useBuffersTimes a b (n + 1) h).isSome = true ↔
      h.CanHold a ∧ (h.afterBytes a).CanHold b ∧
        n * (leak a + leak b) ≤ h.roomAfter a b := by
  rw [Heap.useBuffersTimes, roomAfter]
  by_cases hcanA : h.CanHold a
  swap
  · rw [Heap.useBuffers, allocBytes_of_not_canHold hcanA]
    exact iff_of_false (by simp) fun hcon => hcanA hcon.1
  obtain ⟨p, hfirst⟩ := allocBytes_of_canHold hcanA
  by_cases hcanB : (h.afterBytes a).CanHold b
  swap
  · rw [Heap.useBuffers, hfirst, Option.bind_some, allocBytes_of_not_canHold hcanB]
    exact iff_of_false (by simp) fun hcon => hcanB hcon.2.1
  obtain ⟨q, hsecond⟩ := allocBytes_of_canHold hcanB
  obtain ⟨-, -, hkept, -⟩ := allocBytes_cases ha hfirst
  obtain ⟨-, -, hkept₁, -⟩ := allocBytes_cases hb hsecond
  have huse := useBuffers_eq_some_iff.mpr ⟨p, _, q, _, hfirst, hsecond, rfl⟩
  rw [huse, Option.bind_some, Ready.useBuffersTimes n (.of_useBuffers ha hb huse)
    (hm.useBuffers ha hb huse) ha hb, freeBytes_nextFreeByte, freeBytes_nextFreeByte,
    (freeBytes_kept _ p a).heapEnd, (freeBytes_kept _ q b).heapEnd, hkept₁.heapEnd, hkept.heapEnd]
  simp only [hcanA, hcanB, true_and]

theorem useBuffersTimes_of_le {m : ℕ} (hle : m ≤ n) :
    ∀ {h : Heap}, (useBuffersTimes a b n h).isSome = true → (useBuffersTimes a b m h).isSome = true := by
  induction m generalizing n with
  | zero => exact fun _ => rfl
  | succ m ih =>
    intro h hsome
    obtain ⟨n, rfl⟩ := Nat.exists_eq_add_of_le' hle
    rw [← Nat.add_assoc, Heap.useBuffersTimes] at hsome
    rw [Heap.useBuffersTimes]
    cases huse : h.useBuffers a b with
    | none =>
      rw [huse] at hsome
      exact absurd hsome (by simp)
    | some h' =>
      rw [huse] at hsome
      exact ih (Nat.le_add_left m n) hsome

structure Room (h : Heap) (n : ℕ) : Prop extends h.Mapped where
  initialized : h.initialized = true
  room : h.allocator.nextFreeByte + n ≤ h.allocator.heapEnd

theorem Room.allocBytes {k : ℕ} (hroom : h.Room (max n minBlockSize + k)) (hlt : n < 2 ^ 63) :
    ∃ p h', h.allocBytes n = some (p, h') ∧ h'.Room k := by
  rcases Nat.eq_zero_or_pos n with rfl | hpos
  · have hle := hroom.room
    exact ⟨1, h, rfl, hroom.toMapped, hroom.initialized, by omega⟩
  have hle := hroom.room
  have hcan : h.CanHold n :=
    .inr ⟨hlt, hroom.initialized, .inr (hroom.toMapped.carves_iff.mpr (by omega))⟩
  obtain ⟨p, halloc⟩ := allocBytes_of_canHold hcan
  obtain ⟨-, -, hkept, hblock⟩ := allocBytes_cases ⟨hpos, hlt⟩ halloc
  refine ⟨p, _, halloc, hroom.toMapped.allocBytes ⟨hpos, hlt⟩ halloc,
    hkept.initialized.trans hroom.initialized, ?_⟩
  rw [hkept.heapEnd]
  rcases hblock with ⟨i, -, -, hallocator⟩ | ⟨-, -, -, hallocator⟩
  · rw [hallocator]
    dsimp only
    omega
  · rw [hallocator, hroom.toMapped.allocStart_eq]
    dsimp only
    omega

theorem Room.freeBytes (hroom : h.Room n) (p m : ℕ) : (h.freeBytes p m).Room n := by
  have hkept := h.freeBytes_kept p m
  refine ⟨hroom.toMapped.freeBytes p m, hkept.initialized.trans hroom.initialized, ?_⟩
  rw [h.freeBytes_nextFreeByte, hkept.heapEnd]
  exact hroom.room

theorem exists_room {n : ℕ} (hn : n < 2 ^ 63) : ∃ h : Heap, h.Room n := by
  refine ⟨⟨0, true, ⟨fun _ => 0, 1, n + 1, 1⟩, fun _ => 0⟩, ⟨?_, ?_, ?_⟩, rfl, ?_⟩
  · exact Nat.one_pos
  · exact Nat.le_add_left 1 n
  · change 0 + (n + 1) < 2 ^ 64
    omega
  · exact (Nat.add_comm 1 n).le

end Heap

end Buffers

end MitosOS.Memory
