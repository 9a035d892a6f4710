import MitosOS.Elf.SharedTables

/-! The loader with every addition on file-supplied values checked: a sum that leaves `usize`
panics, as a slice outside the file does. This is the loader built with overflow checks; without
them a sum wraps and the loader goes on with the wrapped value. -/
namespace MitosOS.Elf
open MitosOS.Lib MitosOS.Memory MitosOS.Paging

def fileHeader (elf : Bytes) : Header where
  entryPoint := leField elf 24 8
  phOff := leField elf 32 8
  phEntsize := leField elf 54 2
  phNum := leField elf 56 2

/-- The checks of the header that come before the end of the program-header table is computed. -/
def HeaderAccepted (arch : Arch) (elf : Bytes) : Prop :=
  64 ≤ elf.length ∧ elf.take 4 = elfMagic ∧ leField elf 4 1 = elfClass64 ∧
    leField elf 5 1 = elfData2Lsb ∧ (leField elf 16 2 = etExec ∨ leField elf 16 2 = etDyn) ∧
    leField elf 18 2 = emMachine arch ∧ (fileHeader elf).phOff ≠ 0 ∧ (fileHeader elf).phNum ≠ 0

instance (arch : Arch) (elf : Bytes) : Decidable (HeaderAccepted arch elf) :=
  inferInstanceAs (Decidable (_ ∧ _))

def Header.tableEnd (h : Header) : ℕ := h.phOff + h.phNum * h.stride

def Header.phStart (h : Header) (i : ℕ) : ℕ := wrap64 (h.phOff + i * h.stride)

def fileEnd (elf : Bytes) (h : Header) (i : ℕ) : ℕ :=
  leField elf (h.phStart i + 8) 8 + leField elf (h.phStart i + 32) 8

/-- The checks on program header `i` that come before `p_offset + p_filesz` is computed. -/
def FormsFileEnd (elf : Bytes) (h : Header) (i : ℕ) : Prop :=
  wrap64 (h.phStart i + 56) ≤ elf.length ∧ leField elf (h.phStart i) 4 = ptLoad ∧
    leField elf (h.phStart i + 32) 8 ≤ leField elf (h.phStart i + 40) 8

instance (elf : Bytes) (h : Header) (i : ℕ) : Decidable (FormsFileEnd elf h i) :=
  inferInstanceAs (Decidable (_ ∧ _))

@[irreducible] def segmentAtChecked (elf : Bytes) (h : Header) (i : ℕ) : Outcome (Option Segment) :=
  if 2 ^ 64 ≤ h.phOff + i * h.stride + 56 then .panic
  else if FormsFileEnd elf h i ∧ 2 ^ 64 ≤ fileEnd elf h i then .panic
  else segmentAt elf h i

/-- The rounding is written `vaddr + memsz + PAGE_SIZE - 1`, so a whole page is added first. The
slices of the page loop are cut with what is left of the data and are always in range. -/
@[irreducible] def mapAndCopySegmentChecked (F : Format) (root : ℕ) (seg : Segment) (s : Machine) :
    Outcome Unit × Machine :=
  if 2 ^ 64 ≤ seg.vaddr + seg.memsz + 4096 then (.panic, s) else mapAndCopySegment F root seg s

def loadSegmentsChecked (F : Format) (root : ℕ) (elf : Bytes) (h : Header) :
    List ℕ → Machine → Outcome Unit × Machine
  | [], s => (.ok (), s)
  | i :: rest, s =>
    match segmentAtChecked elf h i with
    | .err msg => (.err msg, s)
    | .panic => (.panic, s)
    | .ok none => loadSegmentsChecked F root elf h rest s
    | .ok (some seg) =>
      match mapAndCopySegmentChecked F root seg s with
      | (.ok (), s) => loadSegmentsChecked F root elf h rest s
      | (r, s) => (r, s)

def loadElfToProcessChecked (arch : Arch) (elf : Bytes) (root : ℕ) (s : Machine) :
    Outcome ℕ × Machine :=
  if HeaderAccepted arch elf ∧ 2 ^ 64 ≤ (fileHeader elf).tableEnd then (.panic, s)
  else
    match readHeader arch elf with
    | .error msg => (.err msg, s)
    | .ok h =>
      match loadSegmentsChecked arch.format root elf h (List.range h.phNum) s with
      | (.ok (), s) =>
        if h.entryPoint < userSpaceBase then
          (.err "Entry point is below USER_SPACE_BASE -- refusing to run", s)
        else (.ok h.entryPoint, s)
      | (.err msg, s) => (.err msg, s)
      | (.panic, s) => (.panic, s)

structure SafeHeader (elf : Bytes) (h : Header) (i : ℕ) : Prop where
  phEnd : h.phOff + i * h.stride + 56 < 2 ^ 64
  fileEnd : FormsFileEnd elf h i → fileEnd elf h i < 2 ^ 64
  memEnd : ∀ seg, segmentAt elf h i = .ok (some seg) → seg.vaddr + seg.memsz + 4096 < 2 ^ 64

section Segments
variable {F : Format} {root : ℕ} {elf : Bytes} {h : Header} {i : ℕ}

theorem segmentAtChecked_of_safe (hsafe : SafeHeader elf h i) :
    segmentAtChecked elf h i = segmentAt elf h i := by
  have hph := hsafe.phEnd
  have hfile : ¬ (FormsFileEnd elf h i ∧ 2 ^ 64 ≤ fileEnd elf h i) := by
    intro hbad
    have hlt := hsafe.fileEnd hbad.1
    omega
  rw [segmentAtChecked, if_neg (by omega), if_neg hfile]

theorem ite_ne_panic {α : Type} {c : Prop} [Decidable c] {r r' : Outcome α}
    (hpos : c → r ≠ .panic) (hneg : ¬ c → r' ≠ .panic) : (if c then r else r') ≠ .panic := by
  by_cases hc : c
  · rw [if_pos hc]
    exact hpos hc
  · rw [if_neg hc]
    exact hneg hc

theorem err_ne_panic {α : Type} (msg : String) : (.err msg : Outcome α) ≠ .panic := by simp

theorem ok_ne_panic {α : Type} (a : α) : Outcome.ok a ≠ .panic := by simp

theorem segmentAt_ne_panic (hsafe : SafeHeader elf h i) : segmentAt elf h i ≠ .panic := by
  have hph := hsafe.phEnd
  have hforms := hsafe.fileEnd
  unfold FormsFileEnd fileEnd Header.phStart at hforms
  have hstart : wrap64 (h.phOff + i * h.stride) = h.phOff + i * h.stride :=
    wrap64_of_lt (by omega)
  rw [hstart, wrap64_of_lt hph] at hforms
  unfold segmentAt
  rw [hstart]
  dsimp only
  rw [wrap64_of_lt hph]
  refine ite_ne_panic (fun _ => err_ne_panic _) fun hend => ?_
  refine ite_ne_panic (fun hwrapped => by omega) fun _ => ?_
  refine ite_ne_panic (fun _ => ok_ne_panic _) fun hload => ?_
  refine ite_ne_panic (fun _ => err_ne_panic _) fun hsize => ?_
  have hlt := hforms ⟨Nat.le_of_not_lt hend, not_not.mp hload, Nat.le_of_not_lt hsize⟩
  rw [wrap64_of_lt hlt]
  refine ite_ne_panic (fun _ => err_ne_panic _) fun _ => ?_
  refine ite_ne_panic (fun _ => err_ne_panic _) fun _ => ?_
  refine ite_ne_panic (fun _ => err_ne_panic _) fun _ => ?_
  exact ite_ne_panic (fun hwrapped => by omega) fun _ => ok_ne_panic _

theorem copyPages_ne_panic (seg : Segment) (n v off : ℕ) (s : Machine) :
    (copyPages F root seg n v off s).1 ≠ .panic := by
  induction n generalizing v off s with
  | zero => simp [copyPages]
  | succ n ih =>
    rw [copyPages]
    split
    · simp
    · dsimp only
      split
      · simp
      · exact ih _ _ _

theorem mapAndCopySegmentChecked_of_lt {seg : Segment}
    (hfits : seg.vaddr + seg.memsz + 4096 < 2 ^ 64) (s : Machine) :
    mapAndCopySegmentChecked F root seg s = mapAndCopySegment F root seg s := by
  unfold mapAndCopySegmentChecked
  exact if_neg (Nat.not_le_of_lt hfits)

theorem mapAndCopySegmentChecked_of_le {seg : Segment}
    (hover : 2 ^ 64 ≤ seg.vaddr + seg.memsz + 4096) (s : Machine) :
    mapAndCopySegmentChecked F root seg s = (.panic, s) := by
  unfold mapAndCopySegmentChecked
  exact if_pos hover

theorem segmentAtChecked_panic_iff :
    (segmentAtChecked elf h i = .panic ∨ ∃ seg, segmentAtChecked elf h i = .ok (some seg) ∧
      2 ^ 64 ≤ seg.vaddr + seg.memsz + 4096) ↔ ¬ SafeHeader elf h i := by
  constructor
  · intro hbad hsafe
    rw [segmentAtChecked_of_safe hsafe] at hbad
    rcases hbad with hpanic | ⟨seg, hseg, hle⟩
    · exact segmentAt_ne_panic hsafe hpanic
    · have hlt := hsafe.memEnd seg hseg
      omega
  · intro hunsafe
    unfold segmentAtChecked
    split_ifs with hph hfile
    · exact Or.inl rfl
    · exact Or.inl rfl
    · right
      by_contra hnone
      refine hunsafe ⟨by omega, ?_, ?_⟩
      · intro hforms
        by_contra hle
        exact hfile ⟨hforms, by omega⟩
      · intro seg hseg
        by_contra hle
        exact hnone ⟨seg, hseg, by omega⟩

theorem loadSegmentsChecked_cons (hsafe : SafeHeader elf h i) (rest : List ℕ) (s : Machine) :
    (loadSegments F root elf h [i] s).1 ≠ .panic ∧
      (∀ s', loadSegments F root elf h [i] s = (.ok (), s') →
        loadSegmentsChecked F root elf h (i :: rest) s = loadSegmentsChecked F root elf h rest s') ∧
      ((loadSegments F root elf h [i] s).1 ≠ .ok () →
        loadSegmentsChecked F root elf h (i :: rest) s = loadSegments F root elf h [i] s) := by
  have hne := segmentAt_ne_panic hsafe
  have hmem := hsafe.memEnd
  rw [loadSegmentsChecked, segmentAtChecked_of_safe hsafe, loadSegments]
  cases hseg : segmentAt elf h i with
  | err msg => simp
  | panic => exact absurd hseg hne
  | ok seg =>
    cases seg with
    | none => simp [loadSegments]
    | some seg =>
      have hcopy : (mapAndCopySegment F root seg s).1 ≠ .panic := copyPages_ne_panic seg _ _ _ s
      dsimp only
      rw [mapAndCopySegmentChecked_of_lt (hmem seg hseg)]
      cases hrun : mapAndCopySegment F root seg s with
      | mk r s' =>
        rw [hrun] at hcopy
        cases r with
        | ok u => simp [loadSegments]
        | err msg => simp
        | panic => exact absurd rfl hcopy

/-- Every header the loop of the unchecked loader gets to is safe. -/
def SafeRun (F : Format) (root : ℕ) (elf : Bytes) (h : Header) (indices : List ℕ) (s : Machine) :
    Prop :=
  ∀ i s', ReachesHeader F root elf h indices s i s' → SafeHeader elf h i

theorem safeRun_cons {rest : List ℕ} {s : Machine} :
    SafeRun F root elf h (i :: rest) s ↔ SafeHeader elf h i ∧
      ∀ s', loadSegments F root elf h [i] s = (.ok (), s') → SafeRun F root elf h rest s' := by
  constructor
  · intro hrun
    exact ⟨hrun i s (reachesHeader_cons.mpr (Or.inl ⟨rfl, rfl⟩)), fun s₁ hstep j s' hreach =>
      hrun j s' (reachesHeader_cons.mpr (Or.inr ⟨s₁, hstep, hreach⟩))⟩
  · intro hrun j s' hreach
    rcases reachesHeader_cons.mp hreach with ⟨rfl, -⟩ | ⟨s₁, hstep, hrest⟩
    · exact hrun.1
    · exact hrun.2 s₁ hstep j s' hrest

/-- The checked loop panics exactly when it gets to an unsafe header, and otherwise it does what the
unchecked loop does. -/
theorem loadSegmentsChecked_spec (F : Format) (root : ℕ) (elf : Bytes) (h : Header)
    (indices : List ℕ) (s : Machine) :
    (SafeRun F root elf h indices s →
      loadSegmentsChecked F root elf h indices s = loadSegments F root elf h indices s ∧
      (loadSegments F root elf h indices s).1 ≠ .panic) ∧
    (¬ SafeRun F root elf h indices s →
      (loadSegmentsChecked F root elf h indices s).1 = .panic) := by
  induction indices generalizing s with
  | nil =>
    have hsafe : SafeRun F root elf h [] s := by
      rintro i s' ⟨pre, post, hsplit, -⟩
      exact absurd hsplit (by simp)
    exact ⟨fun _ => ⟨rfl, by simp [loadSegments]⟩, fun hunsafe => absurd hsafe hunsafe⟩
  | cons i rest ih =>
    by_cases hsafe : SafeHeader elf h i
    · obtain ⟨hne, hgoes, hstops⟩ := loadSegmentsChecked_cons (F := F) hsafe rest s
      rcases loadSegments_cons rest s with ⟨s', hone, hall⟩ | ⟨r, s', hr, hone, hall⟩
      · have hrest : SafeRun F root elf h (i :: rest) s ↔ SafeRun F root elf h rest s' := by
          rw [safeRun_cons, hone]
          simp [hsafe]
        rw [hrest, hgoes s' hone, hall]
        exact ih s'
      · have hrun : SafeRun F root elf h (i :: rest) s := by
          rw [safeRun_cons, hone]
          simp [hsafe, hr]
        rw [hone] at hne hstops
        rw [hstops hr, hall]
        exact ⟨fun _ => ⟨rfl, hne⟩, fun hunsafe => absurd hrun hunsafe⟩
    · have hbad := segmentAtChecked_panic_iff.mpr hsafe
      refine ⟨fun hrun => absurd (safeRun_cons.mp hrun).1 hsafe, fun _ => ?_⟩
      rw [loadSegmentsChecked]
      rcases hbad with hpanic | ⟨seg, hseg, hle⟩
      · rw [hpanic]
      · rw [hseg]
        dsimp only
        rw [mapAndCopySegmentChecked_of_le hle]

theorem safeRun_range {n : ℕ} {s : Machine} :
    SafeRun F root elf h (List.range n) s ↔
      ∀ i < n, (loadSegments F root elf h (List.range i) s).1 = .ok () → SafeHeader elf h i := by
  constructor
  · intro hrun i hi hreach
    exact hrun i _ (reachesHeader_range.mpr ⟨hi, Prod.ext hreach rfl⟩)
  · intro hrun i s' hreach
    obtain ⟨hi, hload⟩ := reachesHeader_range.mp hreach
    exact hrun i hi (congrArg Prod.fst hload)

theorem safeRun_range_of_tableEnd {s : Machine} (hend : h.tableEnd < 2 ^ 64) :
    SafeRun F root elf h (List.range h.phNum) s ↔ ∀ i < h.phNum,
      (loadSegments F root elf h (List.range i) s).1 = .ok () →
      (FormsFileEnd elf h i → fileEnd elf h i < 2 ^ 64) ∧
      ∀ seg, segmentAt elf h i = .ok (some seg) → seg.vaddr + seg.memsz + 4096 < 2 ^ 64 := by
  rw [safeRun_range]
  refine forall₃_congr fun i hi hreach => ?_
  have hstride : 56 ≤ h.stride := Nat.le_max_right _ _
  have hmul : (i + 1) * h.stride ≤ h.phNum * h.stride := Nat.mul_le_mul_right _ hi
  have hph : h.phOff + i * h.stride + 56 < 2 ^ 64 := by
    rw [Header.tableEnd] at hend
    rw [Nat.add_mul, Nat.one_mul] at hmul
    omega
  exact ⟨fun hsafe => ⟨hsafe.fileEnd, hsafe.memEnd⟩, fun hsums => ⟨hph, hsums.1, hsums.2⟩⟩

end Segments

section File
variable {arch : Arch} {elf : Bytes}

theorem readHeader_of_accepted (h : HeaderAccepted arch elf) :
    readHeader arch elf = if elf.length < wrap64 (fileHeader elf).tableEnd then
      .error "Truncated ELF file: program headers exceed binary size" else .ok (fileHeader elf) := by
  obtain ⟨hlen, hmagic, hclass, hdata, htype, hmachine, hoff, hnum⟩ := h
  have htype' : ¬ (leField elf 16 2 ≠ etExec ∧ leField elf 16 2 ≠ etDyn) := by tauto
  have htable : ¬ ((fileHeader elf).phOff = 0 ∨ (fileHeader elf).phNum = 0) := by tauto
  unfold readHeader
  rw [if_neg (Nat.not_lt.mpr hlen), if_neg (not_not.mpr hmagic), if_neg (not_not.mpr hclass),
    if_neg (not_not.mpr hdata), if_neg htype', if_neg (not_not.mpr hmachine)]
  exact if_neg htable

theorem ite_error_eq_ok {c : Prop} [Decidable c] {msg : String} {r : Except String Header}
    {h : Header} : (if c then .error msg else r) = .ok h ↔ ¬ c ∧ r = .ok h := by
  by_cases hc : c <;> simp [hc]

theorem accepted_of_readHeader {h : Header} (hok : readHeader arch elf = .ok h) :
    HeaderAccepted arch elf := by
  unfold readHeader at hok
  simp only [ite_error_eq_ok, not_not, not_and_or, not_or, Nat.not_lt] at hok
  obtain ⟨hlen, hmagic, hclass, hdata, htype, hmachine, ⟨hoff, hnum⟩, _⟩ := hok
  exact ⟨hlen, hmagic, hclass, hdata, htype, hmachine, hoff, hnum⟩

theorem readHeader_eq_fileHeader {h : Header} (hok : readHeader arch elf = .ok h) :
    h = fileHeader elf := by
  have hfields := readHeader_of_accepted (accepted_of_readHeader hok)
  rw [hok] at hfields
  split_ifs at hfields
  exact Except.ok.inj hfields

section Loader
variable {h : Header} {root : ℕ} {s : Machine}

theorem loadElfChecked_of_over
    (hover : HeaderAccepted arch elf ∧ 2 ^ 64 ≤ (fileHeader elf).tableEnd) :
    loadElfToProcessChecked arch elf root s = (.panic, s) := by
  rw [loadElfToProcessChecked, if_pos hover]

theorem loadElfChecked_of_error {msg : String} (hheader : readHeader arch elf = .error msg)
    (hfits : ¬ (HeaderAccepted arch elf ∧ 2 ^ 64 ≤ (fileHeader elf).tableEnd)) :
    loadElfToProcessChecked arch elf root s = (.err msg, s) ∧
      loadElfToProcess arch elf root s = (.err msg, s) := by
  rw [loadElfToProcessChecked, loadElfToProcess, if_neg hfits, hheader]
  exact ⟨rfl, rfl⟩

theorem loadElfChecked_of_safe (hheader : readHeader arch elf = .ok h)
    (hfits : ¬ (HeaderAccepted arch elf ∧ 2 ^ 64 ≤ (fileHeader elf).tableEnd))
    (hrun : SafeRun arch.format root elf h (List.range h.phNum) s) :
    (loadElfToProcess arch elf root s).1 ≠ .panic ∧
      loadElfToProcessChecked arch elf root s = loadElfToProcess arch elf root s := by
  obtain ⟨hsame, hne⟩ :=
    (loadSegmentsChecked_spec arch.format root elf h (List.range h.phNum) s).1 hrun
  rw [loadElfToProcessChecked, loadElfToProcess, if_neg hfits, hheader]
  dsimp only
  rw [hsame]
  refine ⟨?_, rfl⟩
  cases hload : loadSegments arch.format root elf h (List.range h.phNum) s with
  | mk r s' =>
    rw [hload] at hne
    cases r with
    | ok u =>
      dsimp only
      split_ifs <;> simp
    | err msg => exact err_ne_panic msg
    | panic => exact absurd rfl hne

theorem loadElfChecked_of_unsafe (hheader : readHeader arch elf = .ok h)
    (hrun : ¬ SafeRun arch.format root elf h (List.range h.phNum) s) :
    (loadElfToProcessChecked arch elf root s).1 = .panic := by
  have hpanic := (loadSegmentsChecked_spec arch.format root elf h (List.range h.phNum) s).2 hrun
  unfold loadElfToProcessChecked
  split_ifs
  · rfl
  · rw [hheader]
    dsimp only
    cases hload : loadSegmentsChecked arch.format root elf h (List.range h.phNum) s with
    | mk r s' =>
      rw [hload] at hpanic
      have hr : r = .panic := hpanic
      rw [hr]

end Loader

/-- The checked loader panics exactly when the end of the program-header table leaves `usize`, or
some program header that the loop gets to has a file end or a rounded memory end that does. If it
does not panic, it does what the unchecked loader does. -/
theorem loadElf_total_iff (arch : Arch) (elf : Bytes) (root : ℕ) (s : Machine) :
    ((loadElfToProcessChecked arch elf root s).1 ≠ .panic ↔
      (HeaderAccepted arch elf → (fileHeader elf).tableEnd < 2 ^ 64) ∧
      ∀ h, readHeader arch elf = .ok h → ∀ i < h.phNum,
        (loadSegments arch.format root elf h (List.range i) s).1 = .ok () →
        (FormsFileEnd elf h i → fileEnd elf h i < 2 ^ 64) ∧
        ∀ seg, segmentAt elf h i = .ok (some seg) → seg.vaddr + seg.memsz + 4096 < 2 ^ 64) ∧
    ((loadElfToProcessChecked arch elf root s).1 ≠ .panic →
      loadElfToProcessChecked arch elf root s = loadElfToProcess arch elf root s) := by
  by_cases hover : HeaderAccepted arch elf ∧ 2 ^ 64 ≤ (fileHeader elf).tableEnd
  · have hnot : ¬ (HeaderAccepted arch elf → (fileHeader elf).tableEnd < 2 ^ 64) :=
      fun hlt => Nat.not_le_of_lt (hlt hover.1) hover.2
    rw [loadElfChecked_of_over hover]
    exact ⟨iff_of_false (fun hne => hne rfl) fun hsafe => hnot hsafe.1, fun hne => absurd rfl hne⟩
  have htable : HeaderAccepted arch elf → (fileHeader elf).tableEnd < 2 ^ 64 :=
    fun haccepted => Nat.lt_of_not_le fun hle => hover ⟨haccepted, hle⟩
  cases hheader : readHeader arch elf with
  | error msg =>
    rw [(loadElfChecked_of_error hheader hover).1, (loadElfChecked_of_error hheader hover).2]
    refine ⟨iff_of_true (err_ne_panic msg) ⟨htable, ?_⟩, fun _ => rfl⟩
    intro h hok
    contradiction
  | ok h =>
    have hend : h.tableEnd < 2 ^ 64 := by
      rw [readHeader_eq_fileHeader hheader]
      exact htable (accepted_of_readHeader hheader)
    have hsums : SafeRun arch.format root elf h (List.range h.phNum) s ↔ _ :=
      safeRun_range_of_tableEnd hend
    by_cases hrun : SafeRun arch.format root elf h (List.range h.phNum) s
    · obtain ⟨hne, hsame⟩ := loadElfChecked_of_safe hheader hover hrun
      rw [hsame]
      refine ⟨iff_of_true hne ⟨htable, ?_⟩, fun _ => rfl⟩
      intro h' hok
      rw [← Except.ok.inj hok]
      exact hsums.mp hrun
    · have hpanic := loadElfChecked_of_unsafe hheader hrun
      refine ⟨iff_of_false (fun hne => hne hpanic) ?_, fun hne => absurd hpanic hne⟩
      intro hsafe
      exact hrun (hsums.mpr (hsafe.2 h rfl))

/-- A file of one header whose program-header table starts 56 bytes before 2^64. -/
def wrappingElf : Bytes :=
  elfMagic ++ [2#8, 1#8] ++ List.replicate 10 0#8 ++ [2#8, 0#8, 62#8, 0#8] ++
    List.replicate 12 0#8 ++ [0xC8#8] ++ List.replicate 7 0xFF#8 ++ List.replicate 14 0#8 ++
    [56#8, 0#8, 1#8, 0#8] ++ List.replicate 6 0#8

/-- The end of the table wraps to 0 and passes the size check, and so does the end of the header;
then the slice that starts beyond the file panics, with or without overflow checks. -/
theorem loadElf_panics_on_wrapping_table :
    HeaderAccepted .x86_64 wrappingElf ∧ (fileHeader wrappingElf).tableEnd = 2 ^ 64 ∧
      (loadElfToProcessChecked .x86_64 wrappingElf 0x100000 loaderMachine).1 = .panic ∧
      (loadElfToProcess .x86_64 wrappingElf 0x100000 loaderMachine).1 = .panic := by
  decide +kernel

end File

end MitosOS.Elf
