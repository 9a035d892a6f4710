import MitosOS.Elf.Totality
import MitosOS.Paging.PageFault
import MitosOS.Paging.Rights

/-! The memory image of a loaded file: which pages of the process it fills, with which bytes and
which rights. -/
namespace MitosOS.Elf
open MitosOS.Lib MitosOS.Memory MitosOS.Paging

structure LoadHeader where
  offset : ℕ
  vaddr : ℕ
  filesz : ℕ
  memsz : ℕ
  flags : ℕ
  deriving DecidableEq, Repr

/-- Program header `i` of a file, when it has that many and the header is `PT_LOAD`. -/
def loadHeader (elf : Bytes) (i : ℕ) : Option LoadHeader :=
  let phStart := (fileHeader elf).phStart i
  if i < (fileHeader elf).phNum ∧ leField elf phStart 4 = ptLoad then
    some ⟨leField elf (phStart + 8) 8, leField elf (phStart + 16) 8, leField elf (phStart + 32) 8,
      leField elf (phStart + 40) 8, leField elf (phStart + 4) 4⟩
  else none

namespace LoadHeader

/-- The addresses from `p_vaddr` rounded down to `p_vaddr + p_memsz` rounded up. -/
def Spans (ph : LoadHeader) (a : ℕ) : Prop :=
  alignDown ph.vaddr 4096 ≤ a ∧ a < alignDown (ph.vaddr + ph.memsz + 4095) 4096

def segment (ph : LoadHeader) (elf : Bytes) : Segment :=
  ⟨ph.vaddr, (elf.drop ph.offset).take ph.filesz, ph.memsz, ph.flags⟩

end LoadHeader

namespace Segment

/-- The byte of the program at an address: file data from `vaddr` on, zero elsewhere. -/
def byteAt (seg : Segment) (a : ℕ) : BitVec 8 :=
  if seg.vaddr ≤ a then seg.data.getD (a - seg.vaddr) 0 else 0

def page (F : Format) (seg : Segment) (p : PageNumber) : PageContent :=
  ⟨F.encodeFlags seg.mapFlags, fun i => seg.byteAt (p * 4096 + i)⟩

def CoversPage (seg : Segment) (p : PageNumber) : Prop :=
  seg.startVaddr ≤ p * 4096 ∧ p * 4096 < seg.endVaddr

end Segment

def kernelEntries : Set (Fin 512) := {i | ¬ UserIndex i}

/-- A process root: the tables of its user half belong to it alone and take no rights away. -/
structure ProcessRoot (arch : Arch) (R : ℕ) (s : Machine) : Prop where
  isPrivate : Private arch.format kernelEntries R s
  upper : UpperEntries arch.format (GrantsAll arch) kernelEntries R s.mem

section Copy
variable {F : Format} {P : Entry → Prop} {shared : Set (Fin 512)} {R : ℕ} {s s' : Machine}

theorem eq_pageNumber_iff {p : PageNumber} {virt : ℕ} (hmod : virt % 4096 = 0)
    (hlt : virt < 2 ^ 48) : p = pageNumber virt ↔ (p : ℕ) * 4096 = virt := by
  rw [Fin.ext_iff]
  change (p : ℕ) = virt / 4096 % 2 ^ 36 ↔ _
  omega

theorem next_page {p cur : ℕ} (hmod : cur % 4096 = 0) (hlo : cur ≤ p * 4096)
    (hne : p * 4096 ≠ cur) : cur + 4096 ≤ p * 4096 := by
  omega

theorem dataOffset_step {vaddr len cur : ℕ} (hfirst : vaddr < cur + 4096) :
    min len (cur - vaddr) + min (len - min len (cur - vaddr)) (4096 - (vaddr - cur)) =
      min len (cur + 4096 - vaddr) := by
  omega

theorem copied_fits (data : Bytes) (dataOffset : ℕ) {pageOffset : ℕ} (h : pageOffset ≤ 4096) :
    pageOffset + ((data.drop dataOffset).take
      (min (data.length - dataOffset) (4096 - pageOffset))).length ≤ 4096 := by
  rw [List.length_take]
  omega

theorem overwrite_eq_byteAt (seg : Segment) {cur : ℕ} (hfirst : seg.vaddr < cur + 4096)
    (i : Fin 4096) :
    overwrite (fun _ => 0) (seg.vaddr - cur)
      ((seg.data.drop (min seg.data.length (cur - seg.vaddr))).take
        (min (seg.data.length - min seg.data.length (cur - seg.vaddr)) (4096 - (seg.vaddr - cur))))
      i = seg.byteAt (cur + i) := by
  have hi := i.isLt
  unfold overwrite Segment.byteAt
  by_cases hlow : seg.vaddr ≤ cur + i
  · rw [if_pos (by omega), if_pos hlow, List.getD_eq_getElem?_getD, List.getD_eq_getElem?_getD]
    by_cases hin : cur + i - seg.vaddr < seg.data.length
    · rw [List.getElem?_take_of_lt (by omega), List.getElem?_drop]
      congr 2
      omega
    · rw [List.getElem?_eq_none (by rw [List.length_take, List.length_drop]; omega),
        List.getElem?_eq_none (by omega)]
  · rw [if_neg (by omega), if_neg hlow]

theorem copyPages_image (hF : F.Lawful) (hP : TableRule F P) (seg : Segment) (n : ℕ) :
    ∀ {cur : ℕ} {s : Machine}, Private F shared R s → UpperEntries F P shared R s.mem →
    cur % 4096 = 0 → seg.vaddr < cur + 4096 → cur + 4096 * n ≤ 2 ^ 48 →
    (∀ p : PageNumber, cur ≤ p * 4096 → p * 4096 < cur + 4096 * n → topIndex p ∉ shared) →
    copyPages F (R * 4096) seg n cur (min seg.data.length (cur - seg.vaddr)) s = (.ok (), s') →
    Private F shared R s' ∧ UpperEntries F P shared R s'.mem ∧
      (∀ p : PageNumber, cur ≤ p * 4096 → p * 4096 < cur + 4096 * n →
        pageContent F s.mem R p = none ∧ pageContent F s'.mem R p = some (seg.page F p)) ∧
      ∀ p, topIndex p ∉ shared → ¬ (cur ≤ p * 4096 ∧ p * 4096 < cur + 4096 * n) →
        pageContent F s'.mem R p = pageContent F s.mem R p := by
  induction n with
  | zero =>
    intro cur s h hup _ _ _ _ hrun
    obtain rfl : s = s' := congrArg Prod.snd hrun
    exact ⟨h, hup, fun p hlo hhi => absurd hlo (by omega), fun p _ _ => rfl⟩
  | succ n ih =>
    intro cur s h hup hmod hfirst hend hpages hrun
    have hhere : ∀ p : PageNumber, p = pageNumber cur ↔ (p : ℕ) * 4096 = cur :=
      fun p => eq_pageNumber_iff hmod (by omega)
    have hv : tableIndex 39 cur ∉ shared := by
      have hcur := (hhere _).mp rfl
      rw [← topIndex_pageNumber]
      exact hpages _ hcur.ge (by omega)
    have hoff : seg.pageOffset cur = seg.vaddr - cur := by
      unfold Segment.pageOffset
      split_ifs <;> omega
    rcases copyPages_succ_cases F (R * 4096) seg cur (min seg.data.length (cur - seg.vaddr)) s with
      ⟨-, hfail⟩ | ⟨d, s₁, -, htaken, ⟨e, s₂, -, hfail⟩ | ⟨s₂, hmap, hnext⟩⟩
    · exact absurd (congrArg Prod.fst ((hfail n).symm.trans hrun)) (by simp)
    · exact absurd (congrArg Prod.fst ((hfail n).symm.trans hrun)) (by simp)
    have hroom := copied_fits seg.data (min seg.data.length (cur - seg.vaddr))
      (show seg.vaddr - cur ≤ 4096 by omega)
    obtain ⟨h₃, hup₃, hnone, hadded⟩ := h.addPage hF hP hup htaken hv hmap hroom
    rw [hnext, Segment.bytesToCopy, hoff, dataOffset_step hfirst] at hrun
    obtain ⟨h', hup', hfilled, hkept⟩ := ih h₃ hup₃ (by omega) (by omega) (by omega)
      (fun p hlo hhi => hpages p (by omega) (by omega)) hrun
    dsimp only at hfilled hkept
    refine ⟨h', hup', fun p hlo hhi => ?_, fun p hp hout => ?_⟩
    · have hp := hpages p hlo hhi
      by_cases hcur : (p : ℕ) * 4096 = cur
      · have hpc := (hhere p).mpr hcur
        refine ⟨hpc ▸ hnone, ?_⟩
        rw [hkept p hp (by omega), hadded p hp, if_pos hpc, Segment.page, hcur]
        congr 2
        funext i
        exact overwrite_eq_byteAt seg hfirst i
      · obtain ⟨hold, hnew⟩ := hfilled p (next_page hmod hlo hcur) (by omega)
        rw [hadded p hp, if_neg (fun heq => hcur ((hhere p).mp heq))] at hold
        exact ⟨hold, hnew⟩
    · rw [hkept p hp (by omega), hadded p hp, if_neg]
      intro heq
      have hval := (hhere p).mp heq
      omega

end Copy

section Segments
variable {F : Format} {P : Entry → Prop} {R i : ℕ} {elf : Bytes} {h : Header} {seg : Segment}
  {s s' : Machine}

theorem not_mem_kernelEntries {p : PageNumber} :
    topIndex p ∉ kernelEntries ↔ userSpaceBase ≤ (p : ℕ) * 4096 ∧ (p : ℕ) * 4096 < 2 ^ 47 := by
  have hbase : userSpaceBase = 2 ^ 39 := by decide
  have hp := p.isLt
  rw [hbase]
  change ¬ ¬ (1 ≤ (p : ℕ) / 2 ^ 27 ∧ (p : ℕ) / 2 ^ 27 < 256) ↔ _
  omega

def Segment.InUserSpace (seg : Segment) : Prop :=
  userSpaceBase ≤ seg.vaddr ∧ seg.vaddr + seg.memsz ≤ 2 ^ 47 - 4096

theorem Segment.InUserSpace.bounds (hseg : seg.InUserSpace) :
    userSpaceBase ≤ seg.startVaddr ∧ seg.vaddr < seg.startVaddr + 4096 ∧
      seg.startVaddr % 4096 = 0 ∧ seg.endVaddr = alignDown (seg.vaddr + seg.memsz + 4095) 4096 ∧
      seg.startVaddr + 4096 * seg.pageCount = max seg.startVaddr seg.endVaddr ∧
      seg.endVaddr ≤ 2 ^ 47 - 4096 ∧ seg.startVaddr ≤ 2 ^ 47 - 4096 := by
  obtain ⟨hlow, hhigh⟩ := hseg
  have hbase : userSpaceBase = 2 ^ 39 := by decide
  have hwrap : wrap64 (seg.vaddr + seg.memsz + 4095) = seg.vaddr + seg.memsz + 4095 :=
    wrap64_of_lt (by omega)
  unfold Segment.pageCount Segment.startVaddr Segment.endVaddr
  rw [hwrap]
  unfold alignDown
  omega

theorem mapAndCopySegment_image (hF : F.Lawful) (hP : TableRule F P)
    (h : Private F kernelEntries R s) (hup : UpperEntries F P kernelEntries R s.mem)
    (hseg : seg.InUserSpace) (hrun : mapAndCopySegment F (R * 4096) seg s = (.ok (), s')) :
    Private F kernelEntries R s' ∧ UpperEntries F P kernelEntries R s'.mem ∧
      (∀ p, seg.CoversPage p →
        pageContent F s.mem R p = none ∧ pageContent F s'.mem R p = some (seg.page F p)) ∧
      ∀ p, topIndex p ∉ kernelEntries → ¬ seg.CoversPage p →
        pageContent F s'.mem R p = pageContent F s.mem R p := by
  obtain ⟨hlow, hfirst, hmod, -, hcount, hend, hstart⟩ := hseg.bounds
  have hzero : min seg.data.length (seg.startVaddr - seg.vaddr) = 0 := by
    have hle : seg.startVaddr ≤ seg.vaddr := alignDown_le _ _
    omega
  have hcovers : ∀ p : PageNumber, seg.startVaddr ≤ p * 4096 ∧
      p * 4096 < seg.startVaddr + 4096 * seg.pageCount ↔ seg.CoversPage p := by
    intro p
    unfold Segment.CoversPage
    rw [hcount]
    omega
  have huser : ∀ p : PageNumber, seg.startVaddr ≤ p * 4096 →
      p * 4096 < seg.startVaddr + 4096 * seg.pageCount → topIndex p ∉ kernelEntries := by
    intro p hlo hhi
    rw [not_mem_kernelEntries]
    omega
  rw [mapAndCopySegment, ← hzero] at hrun
  obtain ⟨h', hup', hfilled, hkept⟩ :=
    copyPages_image hF hP seg _ h hup hmod hfirst (by omega) huser hrun
  refine ⟨h', hup', fun p hp => ?_, fun p hp hout => ?_⟩
  · obtain ⟨hlo, hhi⟩ := (hcovers p).mpr hp
    exact hfilled p hlo hhi
  · exact hkept p hp fun hin => hout ((hcovers p).mp hin)

theorem loadSegments_cons_eq_ok {indices : List ℕ}
    (hrun : loadSegments F R elf h (i :: indices) s = (.ok (), s')) :
    (segmentAt elf h i = .ok none ∧ loadSegments F R elf h indices s = (.ok (), s')) ∨
      ∃ seg s₁, segmentAt elf h i = .ok (some seg) ∧ mapAndCopySegment F R seg s = (.ok (), s₁) ∧
        loadSegments F R elf h indices s₁ = (.ok (), s') := by
  rcases loadSegments_cons_cases F R elf s h i with
    ⟨-, r, hr, heq⟩ | ⟨hat, heq⟩ | ⟨seg, r, s₁, hat, hcopy, ⟨rfl, heq⟩ | ⟨hr, heq⟩⟩
  · rw [heq] at hrun
    exact absurd (congrArg Prod.fst hrun) hr
  · rw [heq] at hrun
    exact Or.inl ⟨hat, hrun⟩
  · rw [heq] at hrun
    exact Or.inr ⟨seg, s₁, hat, hcopy, hrun⟩
  · rw [heq] at hrun
    exact absurd (congrArg Prod.fst hrun) hr

/-- The headers of a file fill the pages of their segments, which were empty and are distinct, and
touch no other page of the process. -/
theorem loadSegments_image (hF : F.Lawful) (hP : TableRule F P) (indices : List ℕ) :
    ∀ {s : Machine}, Private F kernelEntries R s → UpperEntries F P kernelEntries R s.mem →
    (∀ seg ∈ attemptedSegments elf h indices, seg.InUserSpace) →
    loadSegments F (R * 4096) elf h indices s = (.ok (), s') →
    Private F kernelEntries R s' ∧ UpperEntries F P kernelEntries R s'.mem ∧
      (∀ seg ∈ attemptedSegments elf h indices, ∀ p, seg.CoversPage p →
        pageContent F s.mem R p = none ∧ pageContent F s'.mem R p = some (seg.page F p)) ∧
      ∀ p, topIndex p ∉ kernelEntries →
        (∀ seg ∈ attemptedSegments elf h indices, ¬ seg.CoversPage p) →
        pageContent F s'.mem R p = pageContent F s.mem R p := by
  induction indices with
  | nil =>
    intro s hpriv hup _ hrun
    obtain rfl : s = s' := congrArg Prod.snd hrun
    exact ⟨hpriv, hup, fun seg hseg => absurd hseg List.not_mem_nil, fun p _ _ => rfl⟩
  | cons i rest ih =>
    intro s hpriv hup hin hrun
    rw [attemptedSegments] at hin ⊢
    rcases loadSegments_cons_eq_ok hrun with ⟨hat, hrest⟩ | ⟨seg, s₁, hat, hcopy, hrest⟩
    · rw [hat] at hin ⊢
      exact ih hpriv hup hin hrest
    · rw [hat] at hin ⊢
      dsimp only at hin ⊢
      obtain ⟨hpriv₁, hup₁, hfirst, hkept₁⟩ :=
        mapAndCopySegment_image hF hP hpriv hup (hin seg List.mem_cons_self) hcopy
      obtain ⟨hpriv', hup', hfilled, hkept⟩ :=
        ih hpriv₁ hup₁ (fun seg' hseg' => hin seg' (List.mem_cons_of_mem _ hseg')) hrest
      have huser : ∀ seg' ∈ seg :: attemptedSegments elf h rest, ∀ p, seg'.CoversPage p →
          topIndex p ∉ kernelEntries := by
        intro seg' hseg' p hp
        obtain ⟨hlow, -, -, -, -, hend, -⟩ := (hin seg' hseg').bounds
        rw [not_mem_kernelEntries]
        unfold Segment.CoversPage at hp
        omega
      -- a page filled by this segment is not empty for the later ones
      have hdisjoint : ∀ p, seg.CoversPage p → ∀ seg' ∈ attemptedSegments elf h rest,
          ¬ seg'.CoversPage p := by
        intro p hp seg' hseg' hp'
        have hsome := (hfirst p hp).2
        rw [(hfilled seg' hseg' p hp').1] at hsome
        exact absurd hsome (by simp)
      refine ⟨hpriv', hup', fun seg' hseg' p hp => ?_, fun p hp hout => ?_⟩
      · have hpu := huser seg' hseg' p hp
        rcases List.mem_cons.mp hseg' with rfl | hseg'
        · obtain ⟨hnone, hsome⟩ := hfirst p hp
          exact ⟨hnone, (hkept p hpu (hdisjoint p hp)).trans hsome⟩
        · obtain ⟨hnone, hsome⟩ := hfilled seg' hseg' p hp
          refine ⟨?_, hsome⟩
          rw [← hkept₁ p hpu fun hcov => hdisjoint p hcov seg' hseg' hp]
          exact hnone
      · rw [hkept p hp fun seg' hseg' => hout seg' (List.mem_cons_of_mem _ hseg'),
          hkept₁ p hp (hout seg List.mem_cons_self)]

end Segments

section Headers
variable {F : Format} {R i : ℕ} {elf : Bytes} {h : Header} {s s' : Machine}

theorem ite_err_eq_ok {α : Type} {c : Prop} [Decidable c] {msg : String} {r : Outcome α} {a : α} :
    (if c then .err msg else r) = .ok a ↔ ¬ c ∧ r = .ok a := by
  by_cases hc : c <;> simp [hc]

theorem ite_panic_eq_ok {α : Type} {c : Prop} [Decidable c] {r : Outcome α} {a : α} :
    (if c then .panic else r) = .ok a ↔ ¬ c ∧ r = .ok a := by
  by_cases hc : c <;> simp [hc]

theorem leField_lt (bytes : Bytes) (off n : ℕ) : leField bytes off n < 256 ^ n := by
  unfold leField
  have hlen : ((bytes.drop off).take n).length ≤ n := List.length_take_le _ _
  generalize (bytes.drop off).take n = l at hlen
  induction l generalizing n with
  | nil => exact Nat.pow_pos (by decide)
  | cons b l ih =>
    cases n with
    | zero => exact absurd hlen (by simp)
    | succ n =>
      have hb := b.isLt
      have hrest := ih n (Nat.le_of_succ_le_succ hlen)
      rw [List.foldr_cons, Nat.pow_succ]
      omega

theorem le_of_not_wrapped {a b len : ℕ} (ha : a < 256 ^ 8) (hb : b < 256 ^ 8)
    (hfits : ¬ len < wrap64 (a + b)) (hwrap : ¬ wrap64 (a + b) < a) : a + b ≤ len := by
  unfold wrap64 at hfits hwrap
  omega

theorem segmentAt_ok {o : Option Segment} (hi : i < (fileHeader elf).phNum)
    (hok : segmentAt elf (fileHeader elf) i = .ok o) :
    o = (loadHeader elf i).map (LoadHeader.segment · elf) ∧
      ∀ ph, loadHeader elf i = some ph → ph.offset + ph.filesz ≤ elf.length := by
  unfold segmentAt at hok
  unfold loadHeader
  rw [← Header.phStart] at hok
  dsimp only at hok ⊢
  obtain ⟨-, hok⟩ := ite_err_eq_ok.mp hok
  obtain ⟨-, hok⟩ := ite_panic_eq_ok.mp hok
  by_cases hload : leField elf ((fileHeader elf).phStart i) 4 = ptLoad
  · rw [if_neg (not_not.mpr hload)] at hok
    rw [if_pos ⟨hi, hload⟩]
    obtain ⟨-, hok⟩ := ite_err_eq_ok.mp hok
    obtain ⟨hfile, hok⟩ := ite_err_eq_ok.mp hok
    obtain ⟨-, hok⟩ := ite_err_eq_ok.mp hok
    obtain ⟨-, hok⟩ := ite_err_eq_ok.mp hok
    obtain ⟨hwrap, hok⟩ := ite_panic_eq_ok.mp hok
    refine ⟨(Outcome.ok.inj hok).symm, fun ph hph => ?_⟩
    obtain rfl := Option.some.inj hph
    have hoffset := leField_lt elf ((fileHeader elf).phStart i + 8) 8
    have hfilesz := leField_lt elf ((fileHeader elf).phStart i + 32) 8
    exact le_of_not_wrapped hoffset hfilesz hfile hwrap
  · rw [if_pos hload] at hok
    rw [if_neg fun hc => hload hc.2]
    exact ⟨(Outcome.ok.inj hok).symm, fun ph hph => absurd hph (by simp)⟩

theorem segmentAt_of_loadSegments (indices : List ℕ) :
    ∀ {s : Machine}, loadSegments F R elf h indices s = (.ok (), s') →
    ∀ i ∈ indices, ∃ o, segmentAt elf h i = .ok o ∧
      ∀ seg, o = some seg → seg ∈ attemptedSegments elf h indices := by
  induction indices with
  | nil => exact fun _ i hi => absurd hi List.not_mem_nil
  | cons j rest ih =>
    intro s hrun
    rw [attemptedSegments]
    rcases loadSegments_cons_eq_ok hrun with ⟨hat, hrest⟩ | ⟨seg, s₁, hat, -, hrest⟩
    · rw [hat]
      intro i hi
      rcases List.mem_cons.mp hi with rfl | hi
      · exact ⟨none, hat, fun seg hseg => absurd hseg (by simp)⟩
      · exact ih hrest i hi
    · rw [hat]
      intro i hi
      rcases List.mem_cons.mp hi with rfl | hi
      · refine ⟨some seg, hat, fun seg' hseg' => ?_⟩
        rw [← Option.some.inj hseg']
        exact List.mem_cons_self
      · obtain ⟨o, ho, hmem⟩ := ih hrest i hi
        exact ⟨o, ho, fun seg' hseg' => List.mem_cons_of_mem _ (hmem seg' hseg')⟩

theorem mem_attemptedSegments {indices : List ℕ} {seg : Segment}
    (hseg : seg ∈ attemptedSegments elf h indices) :
    ∃ i ∈ indices, segmentAt elf h i = .ok (some seg) := by
  induction indices with
  | nil => exact absurd hseg List.not_mem_nil
  | cons j rest ih =>
    rw [attemptedSegments] at hseg
    split at hseg
    · obtain ⟨i, hi, hat⟩ := ih hseg
      exact ⟨i, List.mem_cons_of_mem _ hi, hat⟩
    · next seg' hat =>
      rcases List.mem_cons.mp hseg with rfl | hseg
      · exact ⟨j, List.mem_cons_self, hat⟩
      · obtain ⟨i, hi, hat⟩ := ih hseg
        exact ⟨i, List.mem_cons_of_mem _ hi, hat⟩
    · exact absurd hseg List.not_mem_nil

theorem lt_phNum_of_loadHeader {ph : LoadHeader} (hph : loadHeader elf i = some ph) :
    i < (fileHeader elf).phNum := by
  by_contra hge
  rw [loadHeader, if_neg fun hc => hge hc.1] at hph
  exact absurd hph (by simp)

theorem fileData_of_load {ph : LoadHeader} (hrun : loadSegments F R elf (fileHeader elf)
      (List.range (fileHeader elf).phNum) s = (.ok (), s')) (hph : loadHeader elf i = some ph) :
    ph.offset + ph.filesz ≤ elf.length := by
  have hi := lt_phNum_of_loadHeader hph
  obtain ⟨o, hat, -⟩ := segmentAt_of_loadSegments _ hrun i (List.mem_range.mpr hi)
  exact (segmentAt_ok hi hat).2 ph hph

theorem segments_of_load (hrun : loadSegments F R elf (fileHeader elf)
      (List.range (fileHeader elf).phNum) s = (.ok (), s')) (seg : Segment) :
    seg ∈ attemptedSegments elf (fileHeader elf) (List.range (fileHeader elf).phNum) ↔
      ∃ i ph, loadHeader elf i = some ph ∧ seg = ph.segment elf := by
  constructor
  · intro hseg
    obtain ⟨i, hi, hat⟩ := mem_attemptedSegments hseg
    obtain ⟨ho, -⟩ := segmentAt_ok (List.mem_range.mp hi) hat
    obtain ⟨ph, hph, heq⟩ := Option.map_eq_some_iff.mp ho.symm
    exact ⟨i, ph, hph, heq.symm⟩
  · rintro ⟨i, ph, hph, rfl⟩
    have hi := lt_phNum_of_loadHeader hph
    obtain ⟨o, hat, hmem⟩ := segmentAt_of_loadSegments _ hrun i (List.mem_range.mpr hi)
    obtain ⟨ho, -⟩ := segmentAt_ok hi hat
    exact hmem _ (by rw [ho, hph, Option.map_some])

end Headers

section Image
variable {arch : Arch} {R a : ℕ} {elf : Bytes} {s s₁ s' : Machine} {K : ℕ}

theorem Created.processRoot (hnew : Created s s₁ K R) (hne : K ≠ R)
    (hempty : ∀ i, UserIndex i → arch.format.isPresent (entries s.mem K i) = false) :
    ProcessRoot arch R s₁ ∧ ∀ a, UserIndex (tableIndex 39 a) →
      translateAddr arch.format s₁.mem (R * 4096) a = none := by
  have hshared : ∀ i, arch.format.isPresent (entries s.mem K i) = true → i ∈ kernelEntries := by
    intro i hp hi
    rw [hempty i hi] at hp
    exact absurd hp (by decide)
  obtain ⟨hpriv, howned⟩ := hnew.isPrivate (F := arch.format) hne kernelEntries hshared
  refine ⟨⟨hpriv, ?_⟩, fun a ha => ?_⟩
  · intro q t i hq _ hw hp
    have hqD := privatePaths_prefixClosed kernelEntries q i hq
    have ht : t ∈ owned arch.format kernelEntries s₁.mem R := ⟨q, hqD, hw⟩
    rw [howned, Set.mem_singleton_iff] at ht
    subst ht
    rw [hnew.entries_eq hne] at hp
    exact absurd (hshared i hp) (hpriv.not_shared hq hw)
  · simp only [translateAddr, getEntry_frame, hnew.entries_eq hne, hempty _ ha, Bool.not_false,
      if_true]

theorem byteAt_segment {ph : LoadHeader} (hfile : ph.offset + ph.filesz ≤ elf.length) :
    (ph.vaddr ≤ a → a < ph.vaddr + ph.filesz →
      elf[ph.offset + (a - ph.vaddr)]? = some ((ph.segment elf).byteAt a)) ∧
    (a < ph.vaddr ∨ ph.vaddr + ph.filesz ≤ a → (ph.segment elf).byteAt a = 0) := by
  have hbyte : (ph.segment elf).byteAt a = if ph.vaddr ≤ a then
      ((elf.drop ph.offset).take ph.filesz).getD (a - ph.vaddr) 0 else 0 := rfl
  rw [hbyte, List.getD_eq_getElem?_getD]
  constructor
  · intro hlo hhi
    rw [if_pos hlo, List.getElem?_take_of_lt (by omega), List.getElem?_drop,
      List.getElem?_eq_getElem (by omega), Option.getD_some]
  · intro hout
    split_ifs with hlo
    · rw [List.getElem?_eq_none (by rw [List.length_take]; omega), Option.getD_none]
    · rfl

theorem ProcessRoot.read (h : ProcessRoot arch R s) {seg : Segment}
    (ha : tableIndex 39 a ∉ kernelEntries) (hlt : a < 2 ^ 48)
    (hpage : pageContent arch.format s.mem R (pageNumber a) =
      some (seg.page arch.format (pageNumber a))) :
    ∃ phys, translateAddr arch.format s.mem (R * 4096) a = some phys ∧
      s.mem phys = seg.byteAt a ∧ arch.rights (mmuWalk arch.format s.mem (R * 4096) a) =
        ⟨true, seg.mapFlags.writable, seg.mapFlags.executeDisable⟩ := by
  obtain ⟨b, hb, hcontent⟩ := Option.map_eq_some_iff.mp hpage
  obtain ⟨hattributes, hbytes⟩ := PageContent.mk.inj hcontent
  refine ⟨b.frame + a % 4096, ?_, ?_, ?_⟩
  · rw [h.isPrivate.translateAddr_eq arch.format_lawful ha, hb, Option.map_some]
  · have hbyte := congrFun hbytes ⟨a % 4096, Nat.mod_lt _ (by decide)⟩
    have haddr : (pageNumber a : ℕ) * 4096 + a % 4096 = a := by
      change a / 4096 % 2 ^ 36 * 4096 + a % 4096 = a
      omega
    dsimp only at hbyte
    rw [haddr] at hbyte
    exact hbyte
  · exact h.isPrivate.rights_eq h.upper ha hb hattributes

theorem tableIndex_not_mem_kernelEntries (hlow : userSpaceBase ≤ a) (hhigh : a < 2 ^ 47) :
    tableIndex 39 a ∉ kernelEntries := by
  have hbase : userSpaceBase = 2 ^ 39 := by decide
  rw [← topIndex_pageNumber, not_mem_kernelEntries]
  change userSpaceBase ≤ a / 4096 % 2 ^ 36 * 4096 ∧ a / 4096 % 2 ^ 36 * 4096 < 2 ^ 47
  omega

theorem loadElfToProcess_ok {root entry : ℕ}
    (hload : loadElfToProcess arch elf root s = (.ok entry, s')) :
    loadSegments arch.format root elf (fileHeader elf) (List.range (fileHeader elf).phNum) s =
      (.ok (), s') := by
  rcases loadElfToProcess_cases root elf s arch with
    ⟨msg, -, heq⟩ | ⟨h, r, s₁, hhd, hrun, hstate, hentry⟩
  · rw [heq] at hload
    exact absurd (congrArg Prod.fst hload) (by simp)
  · obtain rfl := readHeader_eq_fileHeader hhd
    rw [hload] at hstate hentry
    rw [hrun, hentry entry rfl, ← hstate]

theorem spans_iff {ph : LoadHeader} (hseg : (ph.segment elf).InUserSpace) (ha : a < 2 ^ 48) :
    ph.Spans a ↔ (ph.segment elf).CoversPage (pageNumber a) := by
  obtain ⟨-, -, hmod, hend, -⟩ := hseg.bounds
  have hmod' := alignDown_mod ((ph.segment elf).vaddr + (ph.segment elf).memsz + 4095) 4096
  rw [← hend] at hmod'
  have hspans : ph.Spans a ↔ (ph.segment elf).startVaddr ≤ a ∧ a < (ph.segment elf).endVaddr := by
    rw [hend]
    rfl
  rw [hspans]
  change _ ↔ _ ≤ a / 4096 % 2 ^ 36 * 4096 ∧ a / 4096 % 2 ^ 36 * 4096 < _
  omega

/-- The image of a loaded file is the program's memory: from a process root without user mappings,
each page of a `PT_LOAD` segment holds its file bytes and zeros around them, with the rights of the
segment, and no other page of the user half is mapped. -/
theorem loadElf_image (arch : Arch) (elf : Bytes) (R entry : ℕ) (s s' : Machine)
    (hroot : ProcessRoot arch R s)
    (hempty : ∀ a, userSpaceBase ≤ a → a < 2 ^ 47 →
      translateAddr arch.format s.mem (R * 4096) a = none)
    (hin : ∀ i ph, loadHeader elf i = some ph →
      userSpaceBase ≤ ph.vaddr ∧ ph.vaddr + ph.memsz ≤ 2 ^ 47 - 4096)
    (hload : loadElfToProcess arch elf (R * 4096) s = (.ok entry, s')) :
    (∀ i ph, loadHeader elf i = some ph → ∀ a, ph.Spans a →
      ∃ phys, translateAddr arch.format s'.mem (R * 4096) a = some phys ∧
        (ph.vaddr ≤ a → a < ph.vaddr + ph.filesz →
          elf[ph.offset + (a - ph.vaddr)]? = some (s'.mem phys)) ∧
        (a < ph.vaddr ∨ ph.vaddr + ph.filesz ≤ a → s'.mem phys = 0) ∧
        arch.rights (mmuWalk arch.format s'.mem (R * 4096) a) =
          ⟨true, ph.flags &&& 0x2 ≠ 0, ph.flags &&& 0x1 = 0⟩) ∧
    ∀ a, userSpaceBase ≤ a → a < 2 ^ 47 →
      (∀ i ph, loadHeader elf i = some ph → ¬ ph.Spans a) →
      translateAddr arch.format s'.mem (R * 4096) a = none := by
  have hF := arch.format_lawful
  have hrun := loadElfToProcess_ok hload
  have hsegments := segments_of_load hrun
  obtain ⟨hpriv, hup, hfilled, hkept⟩ := loadSegments_image hF (grantsAll_tableRule arch) _
    hroot.isPrivate hroot.upper (fun seg hseg => by
      obtain ⟨i, ph, hph, rfl⟩ := (hsegments seg).mp hseg
      exact hin i ph hph) hrun
  have hroot' : ProcessRoot arch R s' := ⟨hpriv, hup⟩
  refine ⟨fun i ph hph a ha => ?_, fun a hlow hhigh hout => ?_⟩
  · have hseg : (ph.segment elf).InUserSpace := hin i ph hph
    obtain ⟨hstart, -, -, hend, -, hhigh, -⟩ := hseg.bounds
    have hlow : userSpaceBase ≤ a := hstart.trans ha.1
    have hlt : a < 2 ^ 47 := by
      have hlast : a < (ph.segment elf).endVaddr := hend ▸ ha.2
      omega
    have hcovers := (spans_iff hseg (by omega)).mp ha
    have hmem := (hsegments _).mpr ⟨i, ph, hph, rfl⟩
    have hfile := fileData_of_load hrun hph
    obtain ⟨phys, htrans, hbyte, hrights⟩ := hroot'.read
      (tableIndex_not_mem_kernelEntries hlow hlt) (by omega) (hfilled _ hmem _ hcovers).2
    obtain ⟨hdata, hzero⟩ := byteAt_segment (a := a) hfile
    rw [← hbyte] at hdata hzero
    exact ⟨phys, htrans, hdata, hzero, hrights⟩
  · have ha := tableIndex_not_mem_kernelEntries hlow hhigh
    have hout' : ∀ seg ∈ attemptedSegments elf (fileHeader elf)
        (List.range (fileHeader elf).phNum), ¬ seg.CoversPage (pageNumber a) := by
      intro seg hseg hcovers
      obtain ⟨i, ph, hph, rfl⟩ := (hsegments seg).mp hseg
      exact hout i ph hph ((spans_iff (hin i ph hph) (by omega)).mpr hcovers)
    have hsame := hkept (pageNumber a) (topIndex_pageNumber a ▸ ha) hout'
    have hold := hempty a hlow hhigh
    rw [hroot.isPrivate.translateAddr_eq hF ha, Option.map_eq_none_iff] at hold
    rw [hpriv.translateAddr_eq hF ha, Option.map_eq_none_iff]
    rw [pageContent, pageContent, hold, Option.map_none, Option.map_eq_none_iff] at hsame
    exact hsame

/-- A file whose segment starts two bytes before a page boundary: four bytes of file data and four
zeros, writable and not executable. -/
def spanningElf : Bytes :=
  (oneSegmentElf .x86_64 0x8000000FFE).take 96 ++ 4#8 :: List.replicate 7 0#8 ++
    8#8 :: List.replicate 7 0#8 ++ (oneSegmentElf .x86_64 0x8000000FFE).drop 112

theorem trampolineProcess_processRoot : ProcessRoot .x86_64 0x100 trampolineProcess ∧
    ∀ a, userSpaceBase ≤ a → a < 2 ^ 47 →
      translateAddr x86Format trampolineProcess.mem (0x100 * 4096) a = none := by
  have hcreate : createProcessPageTable .x86_64 0x1000 trampolineMachine =
      (some 0x100000, trampolineProcess) := Prod.ext (by decide +kernel) rfl
  obtain ⟨R, hR, hnew⟩ := createProcessPageTable_some (fun hcon => Arch.noConfusion hcon) hcreate
  obtain rfl : R = 0x100 := by omega
  have hempty : ∀ i, UserIndex i →
      Arch.x86_64.format.isPresent (entries trampolineMachine.mem (0x1000 / 4096) i) = false := by
    intro i hi
    apply isPresent_of_graph_none
    exact trampolineMachine_user_none hi
  obtain ⟨hroot, hnone⟩ := Created.processRoot hnew (by decide) hempty
  exact ⟨hroot, fun a hlow hhigh =>
    hnone a (not_not.mp (tableIndex_not_mem_kernelEntries hlow hhigh))⟩

def spanningProcess : Machine :=
  (loadElfToProcess .x86_64 spanningElf (0x100 * 4096) trampolineProcess).2

/-- The last file byte of the spanning segment is found on its second page. -/
theorem loadElf_image_spanning :
    loadElfToProcess .x86_64 spanningElf (0x100 * 4096) trampolineProcess =
        (.ok 0x8000000000, spanningProcess) ∧
      ∃ phys, translateAddr x86Format spanningProcess.mem (0x100 * 4096) 0x8000001001 =
          some phys ∧ spanningProcess.mem phys = 0x46#8 := by
  have hok : (loadElfToProcess .x86_64 spanningElf (0x100 * 4096) trampolineProcess).1 =
      .ok 0x8000000000 := by decide +kernel
  have hload : loadElfToProcess .x86_64 spanningElf (0x100 * 4096) trampolineProcess =
      (.ok 0x8000000000, spanningProcess) := by
    rw [spanningProcess, ← hok]
  have hphNum : (fileHeader spanningElf).phNum = 1 := by decide
  have hheader : loadHeader spanningElf 0 = some ⟨0, 0x8000000FFE, 4, 8, 6⟩ := by decide
  have hin : ∀ i ph, loadHeader spanningElf i = some ph →
      userSpaceBase ≤ ph.vaddr ∧ ph.vaddr + ph.memsz ≤ 2 ^ 47 - 4096 := by
    intro i ph hph
    obtain rfl : i = 0 := by
      have hlt := lt_phNum_of_loadHeader hph
      omega
    obtain rfl := Option.some.inj (hheader.symm.trans hph)
    decide
  have hspans : LoadHeader.Spans ⟨0, 0x8000000FFE, 4, 8, 6⟩ 0x8000001001 := by
    unfold LoadHeader.Spans
    decide
  have hbyte : spanningElf[3]? = some 0x46#8 := by decide
  obtain ⟨hroot, hempty⟩ := trampolineProcess_processRoot
  have himage := loadElf_image .x86_64 spanningElf 0x100 0x8000000000 trampolineProcess
    spanningProcess hroot hempty hin hload
  obtain ⟨phys, htrans, hdata, -⟩ := himage.1 0 _ hheader 0x8000001001 hspans
  have hread : spanningElf[3]? = _ := hdata (by decide) (by decide)
  exact ⟨hload, phys, htrans, Option.some.inj (hread.symm.trans hbyte)⟩

end Image

end MitosOS.Elf
