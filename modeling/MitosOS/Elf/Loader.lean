import MitosOS.Paging.Operations

/-! The ELF64 loader: header checks, the program-header walk, and the loop that maps a segment
page by page. Additions on `usize` wrap and a slice outside the file panics. -/
namespace MitosOS.Elf
open MitosOS.Lib MitosOS.Memory MitosOS.Paging

abbrev Bytes := List (BitVec 8)

inductive Outcome (α : Type) where
  | ok (a : α)
  | err (msg : String)
  | panic
  deriving DecidableEq, Repr

def leField (bytes : Bytes) (off n : ℕ) : ℕ :=
  ((bytes.drop off).take n).foldr (fun b acc => b.toNat + 256 * acc) 0

def elfMagic : Bytes := [0x7F#8, 0x45#8, 0x4C#8, 0x46#8]

def elfClass64 : ℕ := 2
def elfData2Lsb : ℕ := 1
def etExec : ℕ := 2
def etDyn : ℕ := 3
def ptLoad : ℕ := 1

def emMachine : Arch → ℕ
  | .x86_64 => 62
  | .aarch64 => 183

structure Header where
  entryPoint : ℕ
  phOff : ℕ
  phEntsize : ℕ
  phNum : ℕ
  deriving DecidableEq, Repr

def Header.stride (h : Header) : ℕ := max h.phEntsize 56

def readHeader (arch : Arch) (elf : Bytes) : Except String Header :=
  if elf.length < 64 then
    .error "ELF binary is too small to contain a valid header"
  else if elf.take 4 ≠ elfMagic then
    .error "Invalid ELF magic header signature"
  else if leField elf 4 1 ≠ elfClass64 then
    .error "Unsupported ELF class: expected 64-bit (ELFCLASS64)"
  else if leField elf 5 1 ≠ elfData2Lsb then
    .error "Unsupported ELF byte order: expected little-endian"
  else if leField elf 16 2 ≠ etExec ∧ leField elf 16 2 ≠ etDyn then
    .error "Unsupported ELF file type: must be Executable or Shared Object (PIE)"
  else if leField elf 18 2 ≠ emMachine arch then
    .error "ELF architecture mismatch for target CPU"
  else
    let h : Header := ⟨leField elf 24 8, leField elf 32 8, leField elf 54 2, leField elf 56 2⟩
    if h.phOff = 0 ∨ h.phNum = 0 then
      .error "ELF file contains no program headers"
    else if elf.length < wrap64 (h.phOff + h.phNum * h.stride) then
      .error "Truncated ELF file: program headers exceed binary size"
    else .ok h

/-- A `PT_LOAD` segment that passed the checks of `load_elf_to_process`. -/
structure Segment where
  vaddr : ℕ
  data : Bytes
  memsz : ℕ
  flags : ℕ
  deriving DecidableEq, Repr

/-- Program header `i` and the checks on it; `none` when it is not `PT_LOAD`. -/
@[irreducible] def segmentAt (elf : Bytes) (h : Header) (i : ℕ) : Outcome (Option Segment) :=
  let phStart := wrap64 (h.phOff + i * h.stride)
  if elf.length < wrap64 (phStart + 56) then .err "Program header entry out of bounds"
  else if wrap64 (phStart + 56) < phStart then .panic
  else
    let pOffset := leField elf (phStart + 8) 8
    let pVaddr := leField elf (phStart + 16) 8
    let pFilesz := leField elf (phStart + 32) 8
    let pMemsz := leField elf (phStart + 40) 8
    if leField elf phStart 4 ≠ ptLoad then .ok none
    else if pMemsz < pFilesz then .err "Invalid segment size: file size exceeds memory size"
    else if elf.length < wrap64 (pOffset + pFilesz) then .err "Segment file offset out of bounds"
    else if 2 ^ 64 ≤ pVaddr + pMemsz then .err "Segment size overflows the address space"
    else if pVaddr < userSpaceBase ∨ pVaddr + pMemsz < userSpaceBase then
      .err "Segment targets the shared kernel region below USER_SPACE_BASE -- refusing to load"
    else if wrap64 (pOffset + pFilesz) < pOffset then .panic
    else .ok (some ⟨pVaddr, (elf.drop pOffset).take pFilesz, pMemsz, leField elf (phStart + 4) 4⟩)

namespace Segment

def startVaddr (seg : Segment) : ℕ := alignDown seg.vaddr 4096

def endVaddr (seg : Segment) : ℕ := alignDown (wrap64 (seg.vaddr + seg.memsz + 4095)) 4096

/-- How often the page loop runs. Both ends are page-aligned and below 2^64, so its cursor never
wraps. -/
def pageCount (seg : Segment) : ℕ := (seg.endVaddr - seg.startVaddr) / 4096

def Visits (seg : Segment) (page : ℕ) : Prop :=
  ∃ k < seg.pageCount, page = seg.startVaddr + 4096 * k

/-- PF_X is bit 0 and PF_W bit 1 of `p_flags`. -/
def mapFlags (seg : Segment) : MapFlags where
  writable := seg.flags &&& 0x2 ≠ 0
  userAccessible := true
  executeDisable := seg.flags &&& 0x1 = 0
  device := false

def pageOffset (seg : Segment) (currentVaddr : ℕ) : ℕ :=
  if currentVaddr < seg.vaddr then seg.vaddr - currentVaddr else 0

def bytesToCopy (seg : Segment) (currentVaddr dataOffset : ℕ) : ℕ :=
  min (seg.data.length - dataOffset) (4096 - seg.pageOffset currentVaddr)

end Segment

/-- The page loop of `map_and_copy_segment`, with the pages left, the page cursor and the number
of file bytes already copied. -/
def copyPages (F : Format) (root : ℕ) (seg : Segment) :
    ℕ → ℕ → ℕ → Machine → Outcome Unit × Machine
  | 0, _, _, s => (.ok (), s)
  | n + 1, currentVaddr, dataOffset, s =>
    match vmmAllocFrame s with
    | (none, s) => (.err "Out of memory: failed to allocate frame for ELF segment", s)
    | (some physFrame, s) =>
      let s := { s with mem := zeroFrame s.mem physFrame }
      match mapPage F s root currentVaddr physFrame seg.mapFlags with
      | (.error _, s) => (.err "Failed to map page for ELF segment", s)
      | (.ok (), s) =>
        let bytesToCopy := seg.bytesToCopy currentVaddr dataOffset
        let bytes := (seg.data.drop dataOffset).take bytesToCopy
        let s := { s with mem := s.mem.blit (physFrame + seg.pageOffset currentVaddr) bytes }
        copyPages F root seg n (currentVaddr + 4096) (dataOffset + bytesToCopy) s

/-- One round of the page loop: no frame is left, or a fresh frame is zeroed, and mapping it fails
or it is filled and the loop goes on. -/
theorem copyPages_succ_cases (F : Format) (root : ℕ) (seg : Segment) (currentVaddr dataOffset : ℕ)
    (s : Machine) :
    (vmmAllocFrame s = (none, s) ∧ ∀ n, copyPages F root seg (n + 1) currentVaddr dataOffset s =
        (.err "Out of memory: failed to allocate frame for ELF segment", s)) ∨
    ∃ d s₁, vmmAllocFrame s = (some (d * 4096), s₁) ∧ Taken s s₁ d ∧
      ((∃ e s₂, mapPage F { s₁ with mem := zeroFrame s₁.mem (d * 4096) } root currentVaddr (d * 4096)
          seg.mapFlags = (.error e, s₂) ∧
        ∀ n, copyPages F root seg (n + 1) currentVaddr dataOffset s =
          (.err "Failed to map page for ELF segment", s₂)) ∨
      ∃ s₂, mapPage F { s₁ with mem := zeroFrame s₁.mem (d * 4096) } root currentVaddr (d * 4096)
          seg.mapFlags = (.ok (), s₂) ∧
        ∀ n, copyPages F root seg (n + 1) currentVaddr dataOffset s =
          copyPages F root seg n (currentVaddr + 4096)
            (dataOffset + seg.bytesToCopy currentVaddr dataOffset)
            { s₂ with
              mem := s₂.mem.blit (d * 4096 + seg.pageOffset currentVaddr)
                ((seg.data.drop dataOffset).take (seg.bytesToCopy currentVaddr dataOffset)) }) := by
  rcases vmmAllocFrame_cases s with ⟨halloc, -⟩ | ⟨d, s₁, halloc, htaken⟩
  · exact Or.inl ⟨halloc, fun n => by rw [copyPages, halloc]⟩
  · right
    refine ⟨d, s₁, halloc, htaken, ?_⟩
    cases hmap : mapPage F { s₁ with mem := zeroFrame s₁.mem (d * 4096) } root currentVaddr
      (d * 4096) seg.mapFlags with
    | mk r s₂ =>
      cases r with
      | error e => exact Or.inl ⟨e, s₂, rfl, fun n => by rw [copyPages, halloc]; dsimp only; rw [hmap]⟩
      | ok u => exact Or.inr ⟨s₂, rfl, fun n => by rw [copyPages, halloc]; dsimp only; rw [hmap]⟩

def mapAndCopySegment (F : Format) (root : ℕ) (seg : Segment) (s : Machine) :
    Outcome Unit × Machine :=
  copyPages F root seg seg.pageCount seg.startVaddr 0 s

/-- The program-header loop over the indices still to do. -/
def loadSegments (F : Format) (root : ℕ) (elf : Bytes) (h : Header) :
    List ℕ → Machine → Outcome Unit × Machine
  | [], s => (.ok (), s)
  | i :: rest, s =>
    match segmentAt elf h i with
    | .err msg => (.err msg, s)
    | .panic => (.panic, s)
    | .ok none => loadSegments F root elf h rest s
    | .ok (some seg) =>
      match mapAndCopySegment F root seg s with
      | (.ok (), s) => loadSegments F root elf h rest s
      | (r, s) => (r, s)

def loadElfToProcess (arch : Arch) (elf : Bytes) (root : ℕ) (s : Machine) : Outcome ℕ × Machine :=
  match readHeader arch elf with
  | .error msg => (.err msg, s)
  | .ok h =>
    match loadSegments arch.format root elf h (List.range h.phNum) s with
    | (.ok (), s) =>
      if h.entryPoint < userSpaceBase then
        (.err "Entry point is below USER_SPACE_BASE -- refusing to run", s)
      else (.ok h.entryPoint, s)
    | (.err msg, s) => (.err msg, s)
    | (.panic, s) => (.panic, s)

/-- The page loop comes to its page `k` and has a frame for it, taken and zeroed in `s'`. -/
def Segment.ReachesPage (seg : Segment) (F : Format) (root k currentVaddr dataOffset : ℕ)
    (s s' : Machine) : Prop :=
  ∃ s₁ phys s₂, copyPages F root seg k currentVaddr dataOffset s = (.ok (), s₁) ∧
    vmmAllocFrame s₁ = (some phys, s₂) ∧ s' = { s₂ with mem := zeroFrame s₂.mem phys }

section Pages
variable {seg : Segment} {F : Format} {root k v off v' off' : ℕ} {s s₁ s₂ s' : Machine}

theorem reachesPage_zero {phys : ℕ} (halloc : vmmAllocFrame s = (some phys, s₁)) :
    seg.ReachesPage F root 0 v off s s' ↔ s' = { s₁ with mem := zeroFrame s₁.mem phys } := by
  constructor
  · rintro ⟨s₂, phys', s₃, hk, hframe, rfl⟩
    obtain rfl : s = s₂ := congrArg Prod.snd hk
    obtain ⟨hphys, rfl⟩ := Prod.mk.inj (halloc.symm.trans hframe)
    rw [Option.some.inj hphys]
  · rintro rfl
    exact ⟨s, phys, s₁, rfl, halloc, rfl⟩

theorem reachesPage_succ
    (hrun : ∀ n, copyPages F root seg (n + 1) v off s = copyPages F root seg n v' off' s₂) :
    seg.ReachesPage F root (k + 1) v off s s' ↔ seg.ReachesPage F root k v' off' s₂ s' := by
  unfold Segment.ReachesPage
  rw [hrun]

theorem not_reachesPage_succ {msg : String}
    (hrun : ∀ n, copyPages F root seg (n + 1) v off s = (.err msg, s₂)) :
    ¬ seg.ReachesPage F root (k + 1) v off s s' := by
  rintro ⟨s₃, -, -, hk, -⟩
  exact absurd (congrArg Prod.fst ((hrun k).symm.trans hk)) (by simp)

end Pages

/-- The program-header loop comes to header `i`, in state `s'`. -/
def ReachesHeader (F : Format) (root : ℕ) (elf : Bytes) (h : Header) (indices : List ℕ) (s : Machine)
    (i : ℕ) (s' : Machine) : Prop :=
  ∃ pre post, indices = pre ++ i :: post ∧ loadSegments F root elf h pre s = (.ok (), s')

/-- The segment of header `i` has a page that its page loop comes to. -/
def HeaderReaches (F : Format) (root : ℕ) (elf : Bytes) (h : Header) (i : ℕ) (s : Machine) (page : ℕ)
    (s' : Machine) : Prop :=
  ∃ seg, segmentAt elf h i = .ok (some seg) ∧ ∃ k < seg.pageCount,
    page = seg.startVaddr + 4096 * k ∧ seg.ReachesPage F root k seg.startVaddr 0 s s'

/-- Loading a file comes to a page: no header and no page before it ends the loader. -/
def ElfReaches (arch : Arch) (elf : Bytes) (root : ℕ) (s : Machine) (page : ℕ) (s' : Machine) : Prop :=
  ∃ h, readHeader arch elf = .ok h ∧ ∃ i s₁,
    ReachesHeader arch.format root elf h (List.range h.phNum) s i s₁ ∧
    HeaderReaches arch.format root elf h i s₁ page s'

section Inversion
variable (F : Format) (root : ℕ) (elf : Bytes) (s : Machine)

theorem loadSegments_cons_cases (h : Header) (i : ℕ) :
    ((∀ o, segmentAt elf h i ≠ .ok o) ∧
      ∃ r, r ≠ .ok () ∧ ∀ rest, loadSegments F root elf h (i :: rest) s = (r, s)) ∨
    (segmentAt elf h i = .ok none ∧
      ∀ rest, loadSegments F root elf h (i :: rest) s = loadSegments F root elf h rest s) ∨
    ∃ seg r s', segmentAt elf h i = .ok (some seg) ∧ mapAndCopySegment F root seg s = (r, s') ∧
      (r = .ok () ∧
          (∀ rest, loadSegments F root elf h (i :: rest) s = loadSegments F root elf h rest s') ∨
        r ≠ .ok () ∧ ∀ rest, loadSegments F root elf h (i :: rest) s = (r, s')) := by
  cases hseg : segmentAt elf h i with
  | err msg => exact Or.inl ⟨by simp, .err msg, by simp, fun rest => by rw [loadSegments, hseg]⟩
  | panic => exact Or.inl ⟨by simp, .panic, by simp, fun rest => by rw [loadSegments, hseg]⟩
  | ok o =>
    cases o with
    | none => exact Or.inr (Or.inl ⟨rfl, fun rest => by rw [loadSegments, hseg]⟩)
    | some seg =>
      right
      right
      cases hrun : mapAndCopySegment F root seg s with
      | mk r s' =>
        refine ⟨seg, r, s', rfl, hrun, ?_⟩
        cases r with
        | ok u =>
          exact Or.inl ⟨rfl, fun rest => by simp only [loadSegments, hseg, hrun]⟩
        | err msg =>
          exact Or.inr ⟨by simp, fun rest => by simp only [loadSegments, hseg, hrun]⟩
        | panic =>
          exact Or.inr ⟨by simp, fun rest => by simp only [loadSegments, hseg, hrun]⟩

variable {F root elf} {h : Header} {i : ℕ} {s' : Machine}

theorem loadSegments_cons (rest : List ℕ) (s : Machine) :
    (∃ s', loadSegments F root elf h [i] s = (.ok (), s') ∧
      loadSegments F root elf h (i :: rest) s = loadSegments F root elf h rest s') ∨
    ∃ r s', r ≠ .ok () ∧ loadSegments F root elf h [i] s = (r, s') ∧
      loadSegments F root elf h (i :: rest) s = (r, s') := by
  rcases loadSegments_cons_cases F root elf s h i with
    ⟨-, r, hr, heq⟩ | ⟨-, heq⟩ | ⟨seg, r, s', -, -, ⟨-, heq⟩ | ⟨hr, heq⟩⟩
  · exact Or.inr ⟨r, s, hr, heq [], heq rest⟩
  · exact Or.inl ⟨s, heq [], heq rest⟩
  · exact Or.inl ⟨s', heq [], heq rest⟩
  · exact Or.inr ⟨r, s', hr, heq [], heq rest⟩

theorem reachesHeader_cons {j : ℕ} {rest : List ℕ} {s : Machine} :
    ReachesHeader F root elf h (i :: rest) s j s' ↔ (j = i ∧ s' = s) ∨
      ∃ s₁, loadSegments F root elf h [i] s = (.ok (), s₁) ∧
        ReachesHeader F root elf h rest s₁ j s' := by
  constructor
  · rintro ⟨pre, post, hsplit, hrun⟩
    cases pre with
    | nil => exact Or.inl ⟨(List.cons.inj hsplit).1.symm, (congrArg Prod.snd hrun).symm⟩
    | cons k pre =>
      obtain ⟨rfl, hrest⟩ := List.cons.inj hsplit
      rcases loadSegments_cons pre s with ⟨s₁, hone, hall⟩ | ⟨r, s₁, hr, -, hall⟩
      · exact Or.inr ⟨s₁, hone, pre, post, hrest, hall ▸ hrun⟩
      · exact absurd (congrArg Prod.fst (hall.symm.trans hrun)) hr
  · rintro (⟨rfl, rfl⟩ | ⟨s₁, hone, pre, post, rfl, hrun⟩)
    · exact ⟨[], rest, rfl, rfl⟩
    · refine ⟨i :: pre, post, rfl, ?_⟩
      rcases loadSegments_cons pre s with ⟨s₂, hone', hall⟩ | ⟨r, s₂, hr, hone', -⟩
      · obtain rfl := congrArg Prod.snd (hone.symm.trans hone')
        rw [hall, hrun]
      · exact absurd (congrArg Prod.fst (hone'.symm.trans hone)) hr

/-- The headers before header `i` are those the loop has been through when it gets there. -/
theorem reachesHeader_range {n : ℕ} {s : Machine} :
    ReachesHeader F root elf h (List.range n) s i s' ↔
      i < n ∧ loadSegments F root elf h (List.range i) s = (.ok (), s') := by
  constructor
  · rintro ⟨pre, post, hsplit, hrun⟩
    have hlen : i = pre.length ∧ pre.length < n := by
      have hget : (List.range n)[pre.length]? = some i := by simp [hsplit]
      rw [List.getElem?_eq_some_iff] at hget
      obtain ⟨hlt, hval⟩ := hget
      rw [List.getElem_range] at hval
      rw [List.length_range] at hlt
      exact ⟨hval.symm, hlt⟩
    have hpre : pre = List.range pre.length := by
      have htake := congrArg (List.take pre.length) hsplit
      rw [List.take_left, List.take_range, Nat.min_eq_left hlen.2.le] at htake
      exact htake.symm
    rw [hpre, ← hlen.1] at hrun
    exact ⟨hlen.1 ▸ hlen.2, hrun⟩
  · rintro ⟨hi, hrun⟩
    refine ⟨List.range i, (List.range n).drop (i + 1), ?_, hrun⟩
    have htake : (List.range n).take i = List.range i := by
      rw [List.take_range, Nat.min_eq_left hi.le]
    have hdrop : (List.range n).drop i = i :: (List.range n).drop (i + 1) := by
      rw [List.drop_eq_getElem_cons (by simpa using hi), List.getElem_range]
    rw [← htake, ← hdrop, List.take_append_drop]

variable (F root elf)

theorem loadElfToProcess_cases (arch : Arch) :
    (∃ msg, readHeader arch elf = .error msg ∧ loadElfToProcess arch elf root s = (.err msg, s)) ∨
    ∃ h r s', readHeader arch elf = .ok h ∧
      loadSegments arch.format root elf h (List.range h.phNum) s = (r, s') ∧
      (loadElfToProcess arch elf root s).2 = s' ∧
      ∀ entry, (loadElfToProcess arch elf root s).1 = .ok entry → r = .ok () := by
  cases hhd : readHeader arch elf with
  | error msg => exact Or.inl ⟨msg, rfl, by rw [loadElfToProcess, hhd]⟩
  | ok h =>
    right
    cases hrun : loadSegments arch.format root elf h (List.range h.phNum) s with
    | mk r s' =>
      refine ⟨h, r, s', rfl, hrun, ?_⟩
      simp only [loadElfToProcess, hhd, hrun]
      cases r with
      | ok u =>
        dsimp only
        split_ifs <;> exact ⟨rfl, fun _ _ => rfl⟩
      | err msg => exact ⟨rfl, fun entry hok => absurd hok (by simp)⟩
      | panic => exact ⟨rfl, fun entry hok => absurd hok (by simp)⟩

variable {P : Machine → Prop}

theorem loadSegments_keeps (hP : ∀ seg s, P s → P (mapAndCopySegment F root seg s).2) (h : Header)
    (indices : List ℕ) (hs : P s) : P (loadSegments F root elf h indices s).2 := by
  induction indices generalizing s with
  | nil => exact hs
  | cons i rest ih =>
    rcases loadSegments_cons_cases F root elf s h i with
      ⟨-, r, -, heq⟩ | ⟨-, heq⟩ | ⟨seg, r, s', -, hrun, hnext⟩
    · rw [heq]
      exact hs
    · rw [heq]
      exact ih s hs
    have hkept := hP seg s hs
    rw [hrun] at hkept
    rcases hnext with ⟨-, heq⟩ | ⟨-, heq⟩
    · rw [heq]
      exact ih s' hkept
    · rw [heq]
      exact hkept

theorem loadElfToProcess_keeps (arch : Arch)
    (hP : ∀ seg s, P s → P (mapAndCopySegment arch.format root seg s).2) (hs : P s) :
    P (loadElfToProcess arch elf root s).2 := by
  rcases loadElfToProcess_cases root elf s arch with ⟨msg, -, heq⟩ | ⟨h, r, s', -, hrun, hstate, -⟩
  · rw [heq]
    exact hs
  · have hload := loadSegments_keeps arch.format root elf s hP h (List.range h.phNum) hs
    rw [hrun] at hload
    rw [hstate]
    exact hload

end Inversion

/-- The segments the program-header loop comes to, up to the first header it rejects. -/
def attemptedSegments (elf : Bytes) (h : Header) : List ℕ → List Segment
  | [] => []
  | i :: rest =>
    match segmentAt elf h i with
    | .ok none => attemptedSegments elf h rest
    | .ok (some seg) => seg :: attemptedSegments elf h rest
    | _ => []

theorem mem_attemptedSegments_of_reached {F : Format} {root : ℕ} {elf : Bytes} {h : Header} {i : ℕ}
    {seg : Segment} (hseg : segmentAt elf h i = .ok (some seg)) {indices : List ℕ} {s s' : Machine}
    (hreach : ReachesHeader F root elf h indices s i s') : seg ∈ attemptedSegments elf h indices := by
  induction indices generalizing s with
  | nil =>
    obtain ⟨pre, post, hsplit, -⟩ := hreach
    exact absurd hsplit (by simp)
  | cons j rest ih =>
    rw [attemptedSegments]
    rcases reachesHeader_cons.mp hreach with ⟨rfl, -⟩ | ⟨s₁, hone, hrest⟩
    · rw [hseg]
      exact List.mem_cons_self
    · have hmem := ih hrest
      rw [loadSegments] at hone
      cases hj : segmentAt elf h j with
      | err msg => simp [hj] at hone
      | panic => simp [hj] at hone
      | ok o =>
        cases o with
        | none => exact hmem
        | some seg' => exact List.mem_cons_of_mem _ hmem

end MitosOS.Elf
