import MitosOS.Lib.Bits
import MitosOS.Lib.Checked
import MitosOS.Lib.Reads

/-! `parse_multiboot2` of `boot_info.rs`: the walk over the tags that the loader left in memory. Every
access is recorded. Offsets stay below `2 ^ 33`, so only the sum of the usable bytes can overflow. -/
namespace MitosOS.Kernel
open MitosOS.Lib

structure BootInfo where
  fbAddr : BitVec 64
  fbWidth : BitVec 64
  fbHeight : BitVec 64
  fbPitch : BitVec 64
  fbNeedsMapping : Bool
  modAddr : BitVec 64
  modSize : BitVec 64
  memmapEntries : ℕ
  memmapUsableBytes : ℕ

namespace BootInfo

def initial : BootInfo where
  fbAddr := 0#64
  fbWidth := 0#64
  fbHeight := 0#64
  fbPitch := 0#64
  fbNeedsMapping := false
  modAddr := 0#64
  modSize := 0#64
  memmapEntries := 0
  memmapUsableBytes := 0

def mb2TagEnd : ℕ := 0
def mb2TagModule : ℕ := 3
def mb2TagMmap : ℕ := 6
def mb2TagFramebuffer : ℕ := 8
def mb2MemoryAvailable : ℕ := 1
def mb2MaxInfoSize : ℕ := 64 * 1024

structure Progress where
  info : BootInfo
  memmapEntries : ℕ
  memmapUsable : ℕ

/-- The inner `while` loop, over the entries of a memory map. -/
def walkEntries (checks : Bool) (m : Memory) (base entriesEnd entrySize eoff : ℕ) (p : Progress) :
    Reads (Result Progress) :=
  if _h : eoff + 24 ≤ entriesEnd then do
    let len ← Reads.u64 m (base + (eoff + 8))
    let etype ← Reads.u32 m (base + (eoff + 16))
    let usable := if etype.toNat = mb2MemoryAvailable then addU checks 64 p.memmapUsable len.toNat
      else .ok p.memmapUsable
    Reads.andThen ⟨usable, []⟩ fun usable =>
      walkEntries checks m base entriesEnd entrySize (eoff + max entrySize 1)
        { p with memmapEntries := p.memmapEntries + 1, memmapUsable := usable }
  else pure (.ok p)
termination_by entriesEnd - eoff
decreasing_by omega

def framebufferTag (m : Memory) (base offset : ℕ) (p : Progress) : Reads (Result Progress) := do
  let addr ← Reads.u64 m (base + (offset + 8))
  let pitch ← Reads.u32 m (base + (offset + 16))
  let width ← Reads.u32 m (base + (offset + 20))
  let height ← Reads.u32 m (base + (offset + 24))
  pure (.ok { p with info := { p.info with
    fbAddr := addr
    fbWidth := width.setWidth 64
    fbHeight := height.setWidth 64
    fbPitch := pitch.setWidth 64
    fbNeedsMapping := true } })

/-- Only the first module is used. -/
def moduleTag (m : Memory) (base offset : ℕ) (p : Progress) : Reads (Result Progress) :=
  if p.info.modAddr = 0#64 then do
    let modStart ← Reads.u32 m (base + (offset + 8))
    let modEnd ← Reads.u32 m (base + (offset + 12))
    if modStart < modEnd then
      pure (.ok { p with info := { p.info with
        modAddr := modStart.setWidth 64
        modSize := (modEnd - modStart).setWidth 64 } })
    else pure (.ok p)
  else pure (.ok p)

def mmapTag (checks : Bool) (m : Memory) (base offset tagSize : ℕ) (p : Progress) :
    Reads (Result Progress) := do
  let entrySize ← Reads.u32 m (base + (offset + 8))
  walkEntries checks m base (offset + tagSize) entrySize.toNat (offset + 16) p

/-- The `match` on the tag type; a tag too short for its type is skipped. -/
def decodeTag (checks : Bool) (m : Memory) (base offset tagType tagSize : ℕ) (p : Progress) :
    Reads (Result Progress) :=
  if tagType = mb2TagFramebuffer ∧ 24 ≤ tagSize then framebufferTag m base offset p
  else if tagType = mb2TagModule ∧ 16 ≤ tagSize then moduleTag m base offset p
  else if tagType = mb2TagMmap ∧ 16 ≤ tagSize then mmapTag checks m base offset tagSize p
  else pure (.ok p)

def walkTags (checks : Bool) (m : Memory) (base totalSize offset : ℕ) (p : Progress) :
    Reads (Result Progress) :=
  if _h : offset + 8 ≤ totalSize then do
    let tagType ← Reads.u32 m (base + offset)
    let tagSize ← Reads.u32 m (base + (offset + 4))
    if _h : tagType.toNat = mb2TagEnd ∨ tagSize.toNat < 8 then pure (.ok p)
    else
      (decodeTag checks m base offset tagType.toNat tagSize.toNat p).andThen fun p =>
        walkTags checks m base totalSize (offset + alignDown (tagSize.toNat + 7) 8) p
  else pure (.ok p)
termination_by totalSize - offset
decreasing_by
  unfold alignDown
  omega

def Progress.finish (p : Progress) : BootInfo :=
  if 0 < p.memmapEntries then
    { p.info with memmapEntries := p.memmapEntries, memmapUsableBytes := p.memmapUsable }
  else p.info

def totalSize (m : Memory) (base : ℕ) : ℕ := min (m.load32 base).toNat mb2MaxInfoSize

/-- All that happens after the size word has been read. -/
def parseTags (checks : Bool) (m : Memory) (base : ℕ) (info : BootInfo) : Reads (Result BootInfo) :=
  (walkTags checks m base (totalSize m base) 8 ⟨info, 0, 0⟩).andThen fun p => pure (.ok p.finish)

def parseMultiboot2 (checks : Bool) (m : Memory) (physToVirt : ℕ → ℕ) (infoPhys : ℕ)
    (info : BootInfo) : Reads (Result BootInfo) :=
  if infoPhys = 0 then pure (.ok info)
  else do
    let _ ← Reads.u32 m (physToVirt infoPhys)
    parseTags checks m (physToVirt infoPhys) info

/-- A tag that the walk comes to, with `MOD_ADDR` at that time. -/
structure Tag where
  offset : ℕ
  tagType : ℕ
  tagSize : ℕ
  modAddr : BitVec 64

/-- What is read of a tag after its header lies inside the structure. -/
structure Tag.Fits (t : Tag) (m : Memory) (base totalSize : ℕ) : Prop where
  framebuffer : t.tagType = mb2TagFramebuffer → 24 ≤ t.tagSize → t.offset + 28 ≤ totalSize
  modules : t.tagType = mb2TagModule → 16 ≤ t.tagSize → t.modAddr = 0#64 → t.offset + 16 ≤ totalSize
  mmap : t.tagType = mb2TagMmap → 16 ≤ t.tagSize → t.offset + 12 ≤ totalSize
  entries : t.tagType = mb2TagMmap → 16 ≤ t.tagSize →
    ∀ k, 40 + k * max (m.load32 (base + (t.offset + 8))).toNat 1 ≤ t.tagSize →
      t.offset + 36 + k * max (m.load32 (base + (t.offset + 8))).toNat 1 ≤ totalSize

/-- The progress after a tag, in a build without overflow checks. -/
def Progress.afterTag (p : Progress) (m : Memory) (base offset tagType tagSize : ℕ) : Progress :=
  match (decodeTag false m base offset tagType tagSize p).value with
  | .ok p' => p'
  | _ => p

def visited (m : Memory) (base totalSize offset : ℕ) (p : Progress) : List Tag :=
  if _h : offset + 8 ≤ totalSize then
    if _h : (m.load32 (base + offset)).toNat = mb2TagEnd ∨
        (m.load32 (base + (offset + 4))).toNat < 8 then []
    else
      ⟨offset, (m.load32 (base + offset)).toNat, (m.load32 (base + (offset + 4))).toNat,
          p.info.modAddr⟩ ::
        visited m base totalSize
          (offset + alignDown ((m.load32 (base + (offset + 4))).toNat + 7) 8)
          (p.afterTag m base offset (m.load32 (base + offset)).toNat
            (m.load32 (base + (offset + 4))).toNat)
  else []
termination_by totalSize - offset
decreasing_by
  unfold alignDown
  omega

section Entries
variable {checks : Bool} {m : Memory} {base totalSize entriesEnd entrySize eoff : ℕ} {p : Progress}

theorem walkEntries_of_end (h : ¬ eoff + 24 ≤ entriesEnd) :
    walkEntries checks m base entriesEnd entrySize eoff p = pure (.ok p) := by
  rw [walkEntries, dif_neg h]

def usableAfter (checks : Bool) (m : Memory) (base eoff usable : ℕ) : Result ℕ :=
  if (m.load32 (base + (eoff + 16))).toNat = mb2MemoryAvailable then
    addU checks 64 usable (m.load64 (base + (eoff + 8))).toNat
  else .ok usable

theorem walkEntries_of_entry (h : eoff + 24 ≤ entriesEnd) :
    walkEntries checks m base entriesEnd entrySize eoff p = (do
      let _ ← Reads.u64 m (base + (eoff + 8))
      let _ ← Reads.u32 m (base + (eoff + 16))
      Reads.andThen ⟨usableAfter checks m base eoff p.memmapUsable, []⟩ fun usable =>
        walkEntries checks m base entriesEnd entrySize (eoff + max entrySize 1)
          { p with memmapEntries := p.memmapEntries + 1, memmapUsable := usable }) := by
  rw [walkEntries, dif_pos h]
  rfl

theorem exists_usableAfter (m : Memory) (base eoff usable : ℕ) :
    ∃ usable', usableAfter false m base eoff usable = .ok usable' := by
  unfold usableAfter
  split_ifs
  · exact exists_addU_eq_ok 64 usable _
  · exact ⟨usable, rfl⟩

theorem usableAfter_checked (m : Memory) (base eoff usable : ℕ) :
    usableAfter true m base eoff usable = usableAfter false m base eoff usable ∨
      usableAfter true m base eoff usable = .panic := by
  unfold usableAfter
  split_ifs
  · exact addU_checked 64 usable _
  · exact .inl rfl

theorem forall_stride_iff (P : ℕ → Prop) (start stride : ℕ) :
    (∀ k, P (start + k * stride)) ↔ P start ∧ ∀ k, P (start + stride + k * stride) := by
  constructor
  · intro h
    constructor
    · simpa using h 0
    · intro k
      have hk := h (k + 1)
      rwa [Nat.succ_mul, Nat.add_comm (k * stride), ← Nat.add_assoc] at hk
  · intro h k
    cases k with
    | zero => simpa using h.1
    | succ k =>
      rw [Nat.succ_mul, Nat.add_comm (k * stride), ← Nat.add_assoc]
      exact h.2 k

theorem walkEntries_spec (m : Memory) (base totalSize entriesEnd entrySize eoff : ℕ) (p : Progress) :
    (∃ p', (walkEntries false m base entriesEnd entrySize eoff p).value = .ok p') ∧
      ((walkEntries false m base entriesEnd entrySize eoff p).Within base (base + totalSize) ↔
        ∀ k, eoff + k * max entrySize 1 + 24 ≤ entriesEnd →
          eoff + k * max entrySize 1 + 20 ≤ totalSize) := by
  induction hleft : entriesEnd - eoff using Nat.strong_induction_on generalizing eoff p with
  | _ left ih =>
    by_cases hentry : eoff + 24 ≤ entriesEnd
    · obtain ⟨usable, husable⟩ := exists_usableAfter m base eoff p.memmapUsable
      obtain ⟨⟨p', hvalue⟩, hwithin⟩ := ih _ (by omega) (eoff + max entrySize 1)
        { p with memmapEntries := p.memmapEntries + 1, memmapUsable := usable } rfl
      rw [walkEntries_of_entry hentry]
      constructor
      · refine ⟨p', ?_⟩
        change (Reads.andThen ⟨usableAfter false m base eoff p.memmapUsable, []⟩ _).value = _
        rw [Reads.value_andThen husable]
        exact hvalue
      · have hsplit := forall_stride_iff (fun e => e + 24 ≤ entriesEnd → e + 20 ≤ totalSize) eoff
          (max entrySize 1)
        rw [Reads.within_bind, Reads.within_bind, Reads.within_u64, Reads.within_u32,
          Reads.within_andThen husable, hwithin, hsplit]
        constructor
        · rintro ⟨-, ⟨-, hfirst⟩, -, hrest⟩
          exact ⟨fun _ => by omega, hrest⟩
        · rintro ⟨hfirst, hrest⟩
          have hfits := hfirst hentry
          exact ⟨by omega, by omega, fun a ha => absurd ha List.not_mem_nil, hrest⟩
    · rw [walkEntries_of_end hentry]
      refine ⟨⟨p, rfl⟩, ?_⟩
      simp only [Reads.within_pure, true_iff]
      intro k hk
      have hstart : eoff ≤ eoff + k * max entrySize 1 := Nat.le_add_right _ _
      omega

theorem walkEntries_stopsIn (m : Memory) (base entriesEnd entrySize eoff : ℕ) (p : Progress) :
    Reads.StopsIn (walkEntries true m base entriesEnd entrySize eoff p)
      (walkEntries false m base entriesEnd entrySize eoff p) := by
  induction hleft : entriesEnd - eoff using Nat.strong_induction_on generalizing eoff p with
  | _ left ih =>
    by_cases hentry : eoff + 24 ≤ entriesEnd
    · rw [walkEntries_of_entry hentry, walkEntries_of_entry hentry]
      apply Reads.StopsIn.bind
      apply Reads.StopsIn.bind
      apply Reads.StopsIn.andThen
      · rcases usableAfter_checked m base eoff p.memmapUsable with heq | hpanic
        · exact .inl (by rw [heq])
        · exact .inr ⟨hpanic, List.Subset.refl _⟩
      · intro usable
        exact ih _ (by omega) (eoff + max entrySize 1) _ rfl
    · rw [walkEntries_of_end hentry, walkEntries_of_end hentry]
      exact .refl _

end Entries

section Tags
variable {checks : Bool} {m : Memory} {base totalSize offset tagType tagSize : ℕ} {p : Progress}

theorem Tag.fits_framebuffer {t : Tag} (htype : t.tagType = mb2TagFramebuffer)
    (hsize : 24 ≤ t.tagSize) : t.Fits m base totalSize ↔ t.offset + 28 ≤ totalSize := by
  constructor
  · intro h
    exact h.framebuffer htype hsize
  · intro h
    refine ⟨fun _ _ => h, ?_, ?_, ?_⟩
    all_goals
      intro hother
      exact absurd (htype.symm.trans hother) (by decide)

theorem Tag.fits_module {t : Tag} (htype : t.tagType = mb2TagModule) (hsize : 16 ≤ t.tagSize) :
    t.Fits m base totalSize ↔ (t.modAddr = 0#64 → t.offset + 16 ≤ totalSize) := by
  constructor
  · intro h
    exact h.modules htype hsize
  · intro h
    refine ⟨?_, fun _ _ => h, ?_, ?_⟩
    all_goals
      intro hother
      exact absurd (htype.symm.trans hother) (by decide)

theorem Tag.fits_mmap {t : Tag} (htype : t.tagType = mb2TagMmap) (hsize : 16 ≤ t.tagSize) :
    t.Fits m base totalSize ↔ t.offset + 12 ≤ totalSize ∧
      ∀ k, 40 + k * max (m.load32 (base + (t.offset + 8))).toNat 1 ≤ t.tagSize →
        t.offset + 36 + k * max (m.load32 (base + (t.offset + 8))).toNat 1 ≤ totalSize := by
  constructor
  · intro h
    exact ⟨h.mmap htype hsize, h.entries htype hsize⟩
  · intro h
    refine ⟨?_, ?_, fun _ _ => h.1, fun _ _ => h.2⟩
    all_goals
      intro hother
      exact absurd (htype.symm.trans hother) (by decide)

theorem Tag.fits_other {t : Tag} (hfb : ¬ (t.tagType = mb2TagFramebuffer ∧ 24 ≤ t.tagSize))
    (hmod : ¬ (t.tagType = mb2TagModule ∧ 16 ≤ t.tagSize))
    (hmmap : ¬ (t.tagType = mb2TagMmap ∧ 16 ≤ t.tagSize)) : t.Fits m base totalSize where
  framebuffer htype hsize := absurd ⟨htype, hsize⟩ hfb
  modules htype hsize := absurd ⟨htype, hsize⟩ hmod
  mmap htype hsize := absurd ⟨htype, hsize⟩ hmmap
  entries htype hsize := absurd ⟨htype, hsize⟩ hmmap

theorem framebufferTag_spec (m : Memory) (base totalSize offset : ℕ) (p : Progress) :
    (∃ p', (framebufferTag m base offset p).value = .ok p') ∧
      ((framebufferTag m base offset p).Within base (base + totalSize) ↔
        offset + 28 ≤ totalSize) := by
  refine ⟨⟨_, rfl⟩, ?_⟩
  simp only [framebufferTag, Reads.within_bind, Reads.within_u64, Reads.within_u32,
    Reads.within_pure, and_true]
  omega

theorem moduleTag_spec (m : Memory) (base totalSize offset : ℕ) (p : Progress) :
    (∃ p', (moduleTag m base offset p).value = .ok p') ∧
      ((moduleTag m base offset p).Within base (base + totalSize) ↔
        (p.info.modAddr = 0#64 → offset + 16 ≤ totalSize)) := by
  unfold moduleTag
  by_cases hfirst : p.info.modAddr = 0#64
  · rw [if_pos hfirst]
    constructor
    · change ∃ p', (if m.load32 (base + (offset + 8)) < m.load32 (base + (offset + 12)) then _
        else _ : Reads (Result Progress)).value = _
      split_ifs
      · exact ⟨_, rfl⟩
      · exact ⟨_, rfl⟩
    · have hend : ∀ r r' : Progress, ∀ c : Prop, ∀ _ : Decidable c,
          (if c then pure (.ok r) else pure (.ok r') : Reads (Result Progress)).Within base
            (base + totalSize) := by
        intro r r' c _
        split_ifs
        · exact Reads.within_pure _
        · exact Reads.within_pure _
      simp only [Reads.within_bind, Reads.within_u32, hend, and_true, hfirst, true_imp_iff]
      omega
  · rw [if_neg hfirst]
    refine ⟨⟨p, rfl⟩, ?_⟩
    simp only [Reads.within_pure, true_iff]
    intro hcon
    exact absurd hcon hfirst

theorem mmapTag_spec (m : Memory) (base totalSize offset tagSize : ℕ) (p : Progress) :
    (∃ p', (mmapTag false m base offset tagSize p).value = .ok p') ∧
      ((mmapTag false m base offset tagSize p).Within base (base + totalSize) ↔
        offset + 12 ≤ totalSize ∧
          ∀ k, 40 + k * max (m.load32 (base + (offset + 8))).toNat 1 ≤ tagSize →
            offset + 36 + k * max (m.load32 (base + (offset + 8))).toNat 1 ≤ totalSize) := by
  obtain ⟨hvalue, hwithin⟩ := walkEntries_spec m base totalSize (offset + tagSize)
    (m.load32 (base + (offset + 8))).toNat (offset + 16) p
  refine ⟨hvalue, ?_⟩
  have hentry : ∀ stride, (offset + 16 + stride + 24 ≤ offset + tagSize →
      offset + 16 + stride + 20 ≤ totalSize) ↔
        (40 + stride ≤ tagSize → offset + 36 + stride ≤ totalSize) := by
    intro stride
    constructor
    · intro h hle
      have := h (by omega)
      omega
    · intro h hle
      have := h (by omega)
      omega
  rw [mmapTag, Reads.within_bind, Reads.within_u32]
  change _ ∧ (walkEntries false m base (offset + tagSize) (m.load32 (base + (offset + 8))).toNat
    (offset + 16) p).Within base (base + totalSize) ↔ _
  rw [hwithin]
  apply and_congr
  · omega
  · exact forall_congr' fun k => hentry _

theorem decodeTag_spec (m : Memory) (base totalSize offset tagType tagSize : ℕ) (p : Progress) :
    (∃ p', (decodeTag false m base offset tagType tagSize p).value = .ok p') ∧
      ((decodeTag false m base offset tagType tagSize p).Within base (base + totalSize) ↔
        (⟨offset, tagType, tagSize, p.info.modAddr⟩ : Tag).Fits m base totalSize) := by
  unfold decodeTag
  split_ifs with hfb hmod hmmap
  · rw [Tag.fits_framebuffer hfb.1 hfb.2]
    exact framebufferTag_spec m base totalSize offset p
  · rw [Tag.fits_module hmod.1 hmod.2]
    exact moduleTag_spec m base totalSize offset p
  · rw [Tag.fits_mmap hmmap.1 hmmap.2]
    exact mmapTag_spec m base totalSize offset tagSize p
  · exact ⟨⟨p, rfl⟩, iff_of_true (Reads.within_pure _) (Tag.fits_other hfb hmod hmmap)⟩

theorem decodeTag_stopsIn (m : Memory) (base offset tagType tagSize : ℕ) (p : Progress) :
    Reads.StopsIn (decodeTag true m base offset tagType tagSize p)
      (decodeTag false m base offset tagType tagSize p) := by
  unfold decodeTag
  split_ifs
  · exact .refl _
  · exact .refl _
  · exact Reads.StopsIn.bind _ (walkEntries_stopsIn m base _ _ _ p)
  · exact .refl _

theorem decodeTag_value (m : Memory) (base offset tagType tagSize : ℕ) (p : Progress) :
    (decodeTag false m base offset tagType tagSize p).value =
      .ok (p.afterTag m base offset tagType tagSize) := by
  obtain ⟨⟨p', hvalue⟩, -⟩ := decodeTag_spec m base 0 offset tagType tagSize p
  rw [Progress.afterTag, hvalue]

/-- The walk ends at a tag: the end tag, or one shorter than its header. -/
def Stops (m : Memory) (base offset : ℕ) : Prop :=
  (m.load32 (base + offset)).toNat = mb2TagEnd ∨ (m.load32 (base + (offset + 4))).toNat < 8

theorem walkTags_of_end (h : ¬ offset + 8 ≤ totalSize) :
    walkTags checks m base totalSize offset p = pure (.ok p) := by
  rw [walkTags, dif_neg h]

theorem walkTags_of_stop (h : offset + 8 ≤ totalSize) (hstop : Stops m base offset) :
    walkTags checks m base totalSize offset p = (do
      let _ ← Reads.u32 m (base + offset)
      let _ ← Reads.u32 m (base + (offset + 4))
      pure (.ok p)) := by
  rw [walkTags, dif_pos h]
  exact Reads.bind_congr (Reads.bind_congr (dif_pos hstop))

theorem walkTags_of_tag (h : offset + 8 ≤ totalSize) (hstop : ¬ Stops m base offset) :
    walkTags checks m base totalSize offset p = (do
      let _ ← Reads.u32 m (base + offset)
      let _ ← Reads.u32 m (base + (offset + 4))
      (decodeTag checks m base offset (m.load32 (base + offset)).toNat
        (m.load32 (base + (offset + 4))).toNat p).andThen fun p =>
          walkTags checks m base totalSize
            (offset + alignDown ((m.load32 (base + (offset + 4))).toNat + 7) 8) p) := by
  rw [walkTags, dif_pos h]
  exact Reads.bind_congr (Reads.bind_congr (dif_neg hstop))

theorem visited_of_end (h : ¬ offset + 8 ≤ totalSize) : visited m base totalSize offset p = [] := by
  rw [visited, dif_neg h]

theorem visited_of_stop (h : offset + 8 ≤ totalSize) (hstop : Stops m base offset) :
    visited m base totalSize offset p = [] := by
  rw [visited, dif_pos h]
  exact dif_pos hstop

theorem visited_of_tag (h : offset + 8 ≤ totalSize) (hstop : ¬ Stops m base offset) :
    visited m base totalSize offset p =
      ⟨offset, (m.load32 (base + offset)).toNat, (m.load32 (base + (offset + 4))).toNat,
          p.info.modAddr⟩ ::
        visited m base totalSize
          (offset + alignDown ((m.load32 (base + (offset + 4))).toNat + 7) 8)
          (p.afterTag m base offset (m.load32 (base + offset)).toNat
            (m.load32 (base + (offset + 4))).toNat) := by
  rw [visited, dif_pos h]
  exact dif_neg hstop

theorem lt_next_offset (hstop : ¬ Stops m base offset) :
    offset + 8 ≤ offset + alignDown ((m.load32 (base + (offset + 4))).toNat + 7) 8 := by
  have hsize := Nat.not_lt.mp (not_or.mp hstop).2
  unfold alignDown
  omega

/-- Without overflow checks the walk comes to an end, and it stays inside the structure exactly if all
the tags it comes to fit. -/
theorem walkTags_spec (m : Memory) (base totalSize offset : ℕ) (p : Progress) :
    (∃ p', (walkTags false m base totalSize offset p).value = .ok p') ∧
      ((walkTags false m base totalSize offset p).Within base (base + totalSize) ↔
        ∀ t ∈ visited m base totalSize offset p, t.Fits m base totalSize) := by
  induction hleft : totalSize - offset using Nat.strong_induction_on generalizing offset p with
  | _ left ih =>
    by_cases hend : offset + 8 ≤ totalSize
    swap
    · rw [walkTags_of_end hend, visited_of_end hend]
      exact ⟨⟨p, rfl⟩, iff_of_true (Reads.within_pure _) fun t ht => absurd ht List.not_mem_nil⟩
    by_cases hstop : Stops m base offset
    · rw [walkTags_of_stop hend hstop, visited_of_stop hend hstop]
      refine ⟨⟨p, rfl⟩, iff_of_true ?_ fun t ht => absurd ht List.not_mem_nil⟩
      simp only [Reads.within_bind, Reads.within_u32, Reads.within_pure, and_true]
      omega
    · have hnext := lt_next_offset hstop
      have hvalue := decodeTag_value m base offset (m.load32 (base + offset)).toNat
        (m.load32 (base + (offset + 4))).toNat p
      obtain ⟨-, htag⟩ := decodeTag_spec m base totalSize offset (m.load32 (base + offset)).toNat
        (m.load32 (base + (offset + 4))).toNat p
      obtain ⟨⟨p', hrest⟩, hwithin⟩ := ih _ (by omega)
        (offset + alignDown ((m.load32 (base + (offset + 4))).toNat + 7) 8)
        (p.afterTag m base offset (m.load32 (base + offset)).toNat
          (m.load32 (base + (offset + 4))).toNat) rfl
      rw [walkTags_of_tag hend hstop, visited_of_tag hend hstop]
      constructor
      · exact ⟨p', (Reads.value_andThen hvalue).trans hrest⟩
      · rw [Reads.within_bind, Reads.within_bind, Reads.within_u32, Reads.within_u32,
          Reads.within_andThen hvalue, htag, hwithin, List.forall_mem_cons]
        constructor
        · rintro ⟨-, -, hfits⟩
          exact hfits
        · intro hfits
          exact ⟨by omega, by omega, hfits⟩

theorem walkTags_stopsIn (m : Memory) (base totalSize offset : ℕ) (p : Progress) :
    Reads.StopsIn (walkTags true m base totalSize offset p)
      (walkTags false m base totalSize offset p) := by
  induction hleft : totalSize - offset using Nat.strong_induction_on generalizing offset p with
  | _ left ih =>
    by_cases hend : offset + 8 ≤ totalSize
    swap
    · rw [walkTags_of_end hend, walkTags_of_end hend]
      exact .refl _
    by_cases hstop : Stops m base offset
    · rw [walkTags_of_stop hend hstop, walkTags_of_stop hend hstop]
      exact .refl _
    · have hnext := lt_next_offset hstop
      rw [walkTags_of_tag hend hstop, walkTags_of_tag hend hstop]
      apply Reads.StopsIn.bind
      apply Reads.StopsIn.bind
      apply (decodeTag_stopsIn m base offset _ _ p).andThen
      intro p'
      exact ih _ (by omega) _ p' rfl

end Tags

/-- A tag that lies inside the structure fits, if it is not a framebuffer tag that ends before the
height. -/
theorem Tag.fits_of_inside {t : Tag} {m : Memory} {base totalSize : ℕ}
    (hinside : t.offset + t.tagSize ≤ totalSize)
    (hheight : t.tagType = mb2TagFramebuffer → t.tagSize < 24 ∨ 28 ≤ t.tagSize) :
    t.Fits m base totalSize where
  framebuffer htype hsize := by
    have hlong := (hheight htype).resolve_left (Nat.not_lt.mpr hsize)
    omega
  modules _ hsize _ := by omega
  mmap _ hsize := by omega
  entries _ _ k hk := by omega

/-- `parse_multiboot2` comes to an end; a build with overflow checks may panic on the way. After the
size word it reads only inside the structure exactly if all the tags it comes to fit. This is so if
they lie inside the structure and no framebuffer tag ends between its width and its height. -/
theorem multiboot2_reads_within_iff (m : Memory) (physToVirt : ℕ → ℕ) (infoPhys : ℕ)
    (info : BootInfo) (hinfo : infoPhys ≠ 0) :
    (∃ info', (parseMultiboot2 false m physToVirt infoPhys info).value = .ok info') ∧
    Reads.StopsIn (parseMultiboot2 true m physToVirt infoPhys info)
      (parseMultiboot2 false m physToVirt infoPhys info) ∧
    ∃ rest, (parseMultiboot2 false m physToVirt infoPhys info).addrs =
        List.range' (physToVirt infoPhys) 4 ++ rest ∧
      ((∀ a ∈ rest, physToVirt infoPhys ≤ a ∧
          a < physToVirt infoPhys + totalSize m (physToVirt infoPhys)) ↔
        ∀ t ∈ visited m (physToVirt infoPhys) (totalSize m (physToVirt infoPhys)) 8 ⟨info, 0, 0⟩,
          t.Fits m (physToVirt infoPhys) (totalSize m (physToVirt infoPhys))) ∧
      ((∀ t ∈ visited m (physToVirt infoPhys) (totalSize m (physToVirt infoPhys)) 8 ⟨info, 0, 0⟩,
          t.offset + t.tagSize ≤ totalSize m (physToVirt infoPhys) ∧
            (t.tagType = mb2TagFramebuffer → t.tagSize < 24 ∨ 28 ≤ t.tagSize)) →
        ∀ a ∈ rest, physToVirt infoPhys ≤ a ∧
          a < physToVirt infoPhys + totalSize m (physToVirt infoPhys)) := by
  unfold parseMultiboot2
  rw [if_neg hinfo, if_neg hinfo]
  generalize physToVirt infoPhys = base
  obtain ⟨⟨p, hvalue⟩, hwithin⟩ := walkTags_spec m base (totalSize m base) 8 ⟨info, 0, 0⟩
  have hparse : (parseTags false m base info).Within base (base + totalSize m base) ↔
      ∀ t ∈ visited m base (totalSize m base) 8 ⟨info, 0, 0⟩, t.Fits m base (totalSize m base) := by
    rw [parseTags, Reads.within_andThen hvalue, hwithin]
    exact and_iff_left (Reads.within_pure _)
  refine ⟨⟨p.finish, Reads.value_andThen hvalue⟩, ?_, (parseTags false m base info).addrs, rfl,
    hparse, ?_⟩
  · apply Reads.StopsIn.bind
    exact (walkTags_stopsIn m base _ 8 _).andThen fun p => .refl _
  · intro hinside
    apply hparse.mpr
    intro t ht
    obtain ⟨hend, hheight⟩ := hinside t ht
    exact Tag.fits_of_inside hend hheight

/-- A structure of 32 bytes at `0x1000` whose only tag has the type and the size given. -/
def oneTag (tagType tagSize : BitVec 8) : Memory := fun a =>
  if a = 0x1000 then 32#8
  else if a = 0x1008 then tagType
  else if a = 0x100C then tagSize
  else 0#8

/-- A module tag of 16 bytes is read inside the structure. -/
theorem multiboot2_reads_within_module :
    ∃ rest, (parseMultiboot2 false (oneTag 3#8 16#8) id 0x1000 initial).addrs =
        List.range' 0x1000 4 ++ rest ∧ ∀ a ∈ rest, 0x1000 ≤ a ∧ a < 0x1000 + 32 := by
  obtain ⟨-, -, rest, haddrs, -, hinside⟩ :=
    multiboot2_reads_within_iff (oneTag 3#8 16#8) id 0x1000 initial (by decide)
  refine ⟨rest, haddrs, hinside ?_⟩
  change ∀ t ∈ visited (oneTag 3#8 16#8) 0x1000 32 8 ⟨initial, 0, 0⟩, _
  rw [visited_of_tag (by decide) (by unfold Stops; decide), List.forall_mem_cons]
  constructor
  · decide
  · change ∀ t ∈ visited (oneTag 3#8 16#8) 0x1000 32 24 _, _
    rw [visited_of_stop (by decide) (by unfold Stops; decide)]
    exact fun t ht => absurd ht List.not_mem_nil

/-- A framebuffer tag of 24 bytes that ends with the structure: the height is read behind it. A memory
map of 64 bytes at the same place: its entries are read behind the structure. -/
theorem multiboot2_reads_outside :
    totalSize (oneTag 8#8 24#8) 0x1000 = 32 ∧
      0x1020 ∈ (parseMultiboot2 false (oneTag 8#8 24#8) id 0x1000 initial).addrs ∧
      totalSize (oneTag 6#8 64#8) 0x1000 = 32 ∧
      0x1020 ∈ (parseMultiboot2 false (oneTag 6#8 64#8) id 0x1000 initial).addrs := by
  refine ⟨rfl, ?_, rfl, ?_⟩
  · apply Reads.mem_addrs_bind.mpr
    right
    apply Reads.mem_addrs_andThen
    change 0x1020 ∈ (walkTags false (oneTag 8#8 24#8) 0x1000 32 8 ⟨initial, 0, 0⟩).addrs
    rw [walkTags_of_tag (by decide) (by unfold Stops; decide)]
    apply Reads.mem_addrs_bind.mpr
    right
    apply Reads.mem_addrs_bind.mpr
    right
    apply Reads.mem_addrs_andThen
    decide
  · apply Reads.mem_addrs_bind.mpr
    right
    apply Reads.mem_addrs_andThen
    change 0x1020 ∈ (walkTags false (oneTag 6#8 64#8) 0x1000 32 8 ⟨initial, 0, 0⟩).addrs
    rw [walkTags_of_tag (by decide) (by unfold Stops; decide)]
    apply Reads.mem_addrs_bind.mpr
    right
    apply Reads.mem_addrs_bind.mpr
    right
    apply Reads.mem_addrs_andThen
    change 0x1020 ∈ (mmapTag false (oneTag 6#8 64#8) 0x1000 8 64 ⟨initial, 0, 0⟩).addrs
    apply Reads.mem_addrs_bind.mpr
    right
    change 0x1020 ∈ (walkEntries false (oneTag 6#8 64#8) 0x1000 72 0 24 ⟨initial, 0, 0⟩).addrs
    rw [walkEntries_of_entry (by decide)]
    apply Reads.mem_addrs_bind.mpr
    left
    decide

end BootInfo
end MitosOS.Kernel
