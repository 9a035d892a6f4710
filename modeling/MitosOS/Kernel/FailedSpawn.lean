import MitosOS.Kernel.Processes
import MitosOS.Paging.Dereference

/-! What a `spawn_from_elf` call that returns `false` leaves behind. No failing path gives a frame
back, and the new root is the first frame to be taken. -/
namespace MitosOS.Kernel
open MitosOS.Lib MitosOS.Memory MitosOS.Paging MitosOS.Elf MitosOS.Tasks

/-- What a root makes visible: behind each address a physical address and the byte there. -/
def addressSpace (arch : Arch) (m : Memory) (root virt : ℕ) : Option (ℕ × BitVec 8) :=
  (hardwareTranslation arch m root virt).map fun phys => (phys, m phys)

/-- The free frames, the task table and the caller's address space are as before. -/
structure Unchanged (arch : Arch) (c : Scheduler) (s : Machine) (c' : Scheduler) (s' : Machine) :
    Prop where
  frames : ∀ f, s'.pmm.IsFree f ↔ s.pmm.IsFree f
  table : c' = c
  space : addressSpace arch s'.mem c.activeRoot = addressSpace arch s.mem c.activeRoot

section Drawing
variable (F : Format) (root : ℕ) (s : Machine)

theorem copyPages_drawn (seg : Segment) (n v off : ℕ) :
    Drawn s (copyPages F root seg n v off s).2 (4 * n) := by
  induction n generalizing s v off with
  | zero => exact .of_pmm_eq rfl 0
  | succ n ih =>
    have hfour : 4 * (n + 1) = 1 + (3 + 4 * n) := by omega
    have hdrawn : ∀ {d : ℕ} {s₁ s₂ : Machine} {r}, Taken s s₁ d →
        mapPage F { s₁ with mem := zeroFrame s₁.mem (d * 4096) } root v (d * 4096) seg.mapFlags =
          (r, s₂) → Drawn s s₂ (1 + 3) := by
      intro d s₁ s₂ r htaken hmap
      have hthree := mapPage_drawn F { s₁ with mem := zeroFrame s₁.mem (d * 4096) } root v
        (d * 4096) seg.mapFlags
      rw [hmap] at hthree
      exact htaken.drawn.trans hthree.of_mem
    rw [hfour, ← Nat.add_assoc]
    rcases copyPages_succ_cases F root seg v off s with
      ⟨-, hrun⟩ | ⟨d, s₁, -, htaken, ⟨e, s₂, hmap, hrun⟩ | ⟨s₂, hmap, hrun⟩⟩
    · rw [hrun]
      exact .of_pmm_eq rfl _
    · rw [hrun]
      exact (hdrawn htaken hmap).mono (Nat.le_add_right _ _)
    · rw [hrun]
      exact (hdrawn htaken hmap).trans (ih _ _ _).of_mem

omit F in
theorem loadElfToProcess_shrinks (arch : Arch) (elf : Bytes) :
    ∀ f, (loadElfToProcess arch elf root s).2.pmm.IsFree f → s.pmm.IsFree f := by
  apply loadElfToProcess_keeps (P := fun s' => ∀ f, s'.pmm.IsFree f → s.pmm.IsFree f)
  · intro seg s' hs' f hf
    have hcopy := copyPages_drawn arch.format root s' seg seg.pageCount seg.startVaddr 0
    exact hs' f (hcopy.shrinks f hf)
  · exact fun f hf => hf

theorem mapStackPages_shrinks (pages : List ℕ) :
    ∀ f, (mapStackPages F root pages s).2.pmm.IsFree f → s.pmm.IsFree f := by
  induction pages generalizing s with
  | nil => exact fun f hf => hf
  | cons vaddr rest ih =>
    have hframe := vmmAllocFrame_drawn s
    rw [mapStackPages]
    cases halloc : vmmAllocFrame s with
    | mk frame s₁ =>
      rw [halloc] at hframe
      cases frame with
      | none => exact hframe.shrinks
      | some phys =>
        dsimp only
        have hmap := mapPage_drawn F { s₁ with mem := zeroFrame s₁.mem phys } root vaddr phys
          userStackFlags
        cases hrun : mapPage F { s₁ with mem := zeroFrame s₁.mem phys } root vaddr phys
            userStackFlags with
        | mk r s₂ =>
          rw [hrun] at hmap
          have hdrawn : ∀ f, s₂.pmm.IsFree f → s.pmm.IsFree f :=
            fun f hf => hframe.shrinks f (hmap.shrinks f hf)
          cases r with
          | error e => exact hdrawn
          | ok u => exact fun f hf => hdrawn f (ih s₂ f hf)

theorem allocateUserStack_shrinks :
    ∀ f, (allocateUserStack F root s).2.pmm.IsFree f → s.pmm.IsFree f := by
  have hpages := mapStackPages_shrinks F root s ((List.range userStackPages).map fun i =>
    userStackTop - userStackPages * 4096 + i * 4096)
  unfold allocateUserStack
  dsimp only
  cases hrun : mapStackPages F root ((List.range userStackPages).map fun i =>
      userStackTop - userStackPages * 4096 + i * 4096) s with
  | mk r s' =>
    rw [hrun] at hpages
    cases r with
    | none => exact hpages
    | some u => exact hpages

end Drawing

section Spawning
variable (K : Stacks) (kernelRoot : ℕ) (elf : Bytes) (c : Scheduler) {s : Machine}

theorem createProcessPageTable_taken (arch : Arch) (active : ℕ) (hfree : ∃ f, s.pmm.IsFree f) :
    ∃ f root s', createProcessPageTable arch active s = (some root, s') ∧ s.pmm.IsFree f ∧
      ¬ s'.pmm.IsFree f := by
  rcases vmmAllocFrame_cases s with ⟨-, hempty⟩ | ⟨f, s₁, halloc, htaken⟩
  · obtain ⟨f, hf⟩ := hfree
    exact absurd hf (hempty f)
  · have hgone : ¬ s₁.pmm.IsFree f := fun hcon => ((htaken.pmm f).mp hcon).2 rfl
    unfold createProcessPageTable
    rw [halloc]
    cases arch with
    | x86_64 => exact ⟨f, _, _, rfl, htaken.wasFree, hgone⟩
    | aarch64 => exact ⟨f, _, _, rfl, htaken.wasFree, hgone⟩

theorem spawnFromElf_takes (hfree : ∃ f, s.pmm.IsFree f) :
    ∃ f, s.pmm.IsFree f ∧ ¬ (spawnFromElf K kernelRoot elf c s).2.2.pmm.IsFree f := by
  obtain ⟨f, root, s₁, hcreate, hwas, hgone⟩ :=
    createProcessPageTable_taken K.arch (templateRoot K kernelRoot c) hfree
  have hload := loadElfToProcess_shrinks root s₁ K.arch elf
  refine ⟨f, hwas, ?_⟩
  unfold spawnFromElf
  rw [hcreate]
  dsimp only [Scheduler.allocateIsolatedPageTable]
  cases hrun : loadElfToProcess K.arch elf root s₁ with
  | mk r s₂ =>
    rw [hrun] at hload
    cases r with
    | err msg => exact fun hcon => hgone (hload f hcon)
    | panic => exact fun hcon => hgone (hload f hcon)
    | ok entry =>
      have hstack := allocateUserStack_shrinks K.arch.format root s₂
      dsimp only
      cases hrun₂ : allocateUserStack K.arch.format root s₂ with
      | mk top s₃ =>
        rw [hrun₂] at hstack
        cases top with
        | none => exact fun hcon => hgone (hload f (hstack f hcon))
        | some top => exact fun hcon => hgone (hload f (hstack f hcon))

theorem spawnIsolatedAt_false {root top : ℕ} {owns : Bool}
    (h : (c.spawnIsolatedAt K root owns top).1 = false) :
    (c.spawnIsolatedAt K root owns top).2 = c := by
  unfold Scheduler.spawnIsolatedAt Scheduler.install at h ⊢
  cases hslot : (List.finRange 4).find? fun i => (c.tasks i).state = .terminated with
  | none => rfl
  | some i =>
    rw [hslot] at h
    dsimp only at h
    split_ifs at h

theorem spawnFromElf_false (h : (spawnFromElf K kernelRoot elf c s).1 = .ok false) :
    (spawnFromElf K kernelRoot elf c s).2.1 = c := by
  unfold spawnFromElf at h ⊢
  dsimp only at h ⊢
  split at h
  · rfl
  · rfl
  · split at h
    · rfl
    · exact spawnIsolatedAt_false K c (Outcome.ok.inj h)

/-- A failed call keeps the task table. It also keeps the free frames and the caller's address
space exactly when there was no frame left to start with. -/
theorem failed_spawn_unchanged_iff (s : Machine)
    (hfail : (spawnFromElf K kernelRoot elf c s).1 = .ok false) :
    (spawnFromElf K kernelRoot elf c s).2.1 = c ∧
      (Unchanged K.arch c s (spawnFromElf K kernelRoot elf c s).2.1
        (spawnFromElf K kernelRoot elf c s).2.2 ↔ ∀ f, ¬ s.pmm.IsFree f) := by
  refine ⟨spawnFromElf_false K kernelRoot elf c hfail, ?_, ?_⟩
  · intro h f hf
    obtain ⟨g, hwas, hgone⟩ := spawnFromElf_takes K kernelRoot elf c ⟨f, hf⟩
    exact hgone ((h.frames g).mpr hwas)
  · intro hempty
    have hsame : (spawnFromElf K kernelRoot elf c s).2 = (c, s) :=
      (spawnFromElf_of_empty kernelRoot hempty).2
    rw [hsame]
    exact ⟨fun _ => Iff.rfl, rfl, rfl⟩

def lastFrameMachine : Machine where
  mem _ := 0
  pmm := BitmapAllocator.new.freeFrame 256

/-- An empty file is refused at its first check, and the frame taken for the root is lost. -/
theorem failed_spawn_loses_frame :
    (spawnFromElf exampleStacks 0 [] (.boot 0x1000) lastFrameMachine).1 = .ok false ∧
      lastFrameMachine.pmm.IsFree 256 ∧
      ¬ (spawnFromElf exampleStacks 0 [] (.boot 0x1000) lastFrameMachine).2.2.pmm.IsFree 256 := by
  decide +kernel

def exhaustedMachine : Machine where
  mem _ := 0
  pmm := .new

def overlappingPages : Bytes := elfFile .x86_64 [0x8000000000, 0x8000000000]

theorem spawnFromElf_overlappingPages {s : Machine} (hempty : ∀ f, ¬ s.pmm.IsFree f) :
    (spawnFromElf exampleStacks 0 overlappingPages (.boot 0x1000) s).1 = .ok false := by
  have halloc := vmmAllocFrame_of_empty hempty
  have hheader : readHeader .x86_64 overlappingPages = .ok ⟨0x8000000000, 64, 56, 2⟩ := by
    decide +kernel
  have hseg : segmentAt overlappingPages ⟨0x8000000000, 64, 56, 2⟩ 0 =
      .ok (some ⟨0x8000000000, [], 1, 6⟩) := by decide +kernel
  have hcopy : ∀ root, mapAndCopySegment x86Format root ⟨0x8000000000, [], 1, 6⟩ s =
      (.err "Out of memory: failed to allocate frame for ELF segment", s) := by
    intro root
    change copyPages x86Format root ⟨0x8000000000, [], 1, 6⟩ 1 0x8000000000 0 s = _
    rw [copyPages, halloc]
  have hload : ∀ root, loadElfToProcess .x86_64 overlappingPages root s =
      (.err "Out of memory: failed to allocate frame for ELF segment", s) := by
    intro root
    rw [loadElfToProcess, hheader]
    dsimp only [Arch.format]
    rw [show List.range 2 = [0, 1] from rfl, loadSegments, hseg]
    dsimp only
    rw [hcopy]
  have hcreate : createProcessPageTable exampleStacks.arch
      (templateRoot exampleStacks 0 (.boot 0x1000)) s = (none, s) := by
    rw [createProcessPageTable, halloc]
  unfold spawnFromElf
  rw [hcreate]
  dsimp only [Scheduler.allocateIsolatedPageTable]
  rw [show exampleStacks.arch = .x86_64 from rfl, hload]

/-- With eight free frames the first segment is loaded, the second one fails, and the frames are lost.
With no frame left nothing changes. -/
theorem failed_spawn_unchanged_overlap :
    ((spawnFromElf exampleStacks 0 overlappingPages (.boot 0x1000) zeroedMachine).1 = .ok false ∧
      ¬ Unchanged .x86_64 (.boot 0x1000) zeroedMachine
        (spawnFromElf exampleStacks 0 overlappingPages (.boot 0x1000) zeroedMachine).2.1
        (spawnFromElf exampleStacks 0 overlappingPages (.boot 0x1000) zeroedMachine).2.2) ∧
    (spawnFromElf exampleStacks 0 overlappingPages (.boot 0x1000) exhaustedMachine).1 = .ok false ∧
      Unchanged .x86_64 (.boot 0x1000) exhaustedMachine
        (spawnFromElf exampleStacks 0 overlappingPages (.boot 0x1000) exhaustedMachine).2.1
        (spawnFromElf exampleStacks 0 overlappingPages (.boot 0x1000) exhaustedMachine).2.2 := by
  obtain ⟨hfails, hfree⟩ : (spawnFromElf exampleStacks 0 overlappingPages (.boot 0x1000)
      zeroedMachine).1 = .ok false ∧ zeroedMachine.pmm.IsFree 0x100 := by decide +kernel
  have hempty : ∀ f, ¬ exhaustedMachine.pmm.IsFree f := BitmapAllocator.not_isFree_new
  have hnone := spawnFromElf_overlappingPages hempty
  have hlost := failed_spawn_unchanged_iff exampleStacks 0 overlappingPages (.boot 0x1000)
    zeroedMachine hfails
  have hkept := failed_spawn_unchanged_iff exampleStacks 0 overlappingPages (.boot 0x1000)
    exhaustedMachine hnone
  exact ⟨⟨hfails, fun h => hlost.2.mp h 0x100 hfree⟩, hnone, hkept.2.mpr hempty⟩

end Spawning

end MitosOS.Kernel
