import MitosOS.Fs.Block

/-! `AtaDevice::self_test`: it overwrites the last sector of a disk with a pattern, reads it back and
restores it. The disk may fail any of these steps. -/
namespace MitosOS.Fs
open MitosOS.Lib

/-- `BlockDevice::sector_size`, which no device of the driver overrides. -/
def sectorSize : ℕ := 512

def testPattern : Sector := Vector.ofFn fun i => BitVec.ofNat 8 (i.val % 256)

section Driver
variable {D : Type*} [BlockDevice D]

def readDisk (sectorId : ℕ) : Action D Sector := fun d =>
  (.ofExcept (BlockDevice.readSector d sectorId).1, (BlockDevice.readSector d sectorId).2)

def writeDisk (sectorId : ℕ) (buf : Sector) : Action D Unit := fun d =>
  (.ofExcept (BlockDevice.writeSector d sectorId buf).1,
    (BlockDevice.writeSector d sectorId buf).2)

def selfTest (totalSectors : BitVec 32) : Action D Unit :=
  if totalSectors = 0 then .fail "ATA self-test: device reports zero sectors"
  else if sectorSize ≠ 512 then .fail "ATA self-test: unexpected sector size"
  else do
    let original ← readDisk (totalSectors - 1).toNat
    writeDisk (totalSectors - 1).toNat testPattern
    let readback ← readDisk (totalSectors - 1).toNat
    writeDisk (totalSectors - 1).toNat original
    if readback ≠ testPattern then
      .fail "ATA self-test: readback did not match pattern written"
    else pure ()

end Driver

/-- How one operation of a disk ends. A write that fails may have taken effect. -/
inductive Outcome where
  | succeeds
  | fails
  | failsAfterEffect
  deriving DecidableEq, Repr

/-- A disk with the outcomes of its operations to come, and the writes attempted so far: the sector,
what was written and the outcome. -/
structure FaultyDisk where
  sectors : ℕ → Sector
  outcomes : ℕ → Outcome
  operations : ℕ
  writes : List (ℕ × Sector × Outcome)

namespace FaultyDisk

def next (d : FaultyDisk) : FaultyDisk := { d with operations := d.operations + 1 }

/-- The disk after a write attempt that has taken effect, or not. -/
def attempted (d : FaultyDisk) (sectorId : ℕ) (buf : Sector) (effect : Bool) : FaultyDisk :=
  { d.next with
    sectors := if effect then Function.update d.sectors sectorId buf else d.sectors
    writes := d.writes ++ [(sectorId, buf, d.outcomes d.operations)] }

def readSector (d : FaultyDisk) (sectorId : ℕ) : Except String Sector × FaultyDisk :=
  match d.outcomes d.operations with
  | .succeeds => (.ok (d.sectors sectorId), d.next)
  | .fails => (.error "ATA Device Error during Read", d.next)
  | .failsAfterEffect => (.error "ATA Device Error during Read", d.next)

def writeSector (d : FaultyDisk) (sectorId : ℕ) (buf : Sector) : Except String Unit × FaultyDisk :=
  match d.outcomes d.operations with
  | .succeeds => (.ok (), d.attempted sectorId buf true)
  | .fails => (.error "ATA Device Error during Write", d.attempted sectorId buf false)
  | .failsAfterEffect => (.error "ATA Cache Flush Failed", d.attempted sectorId buf true)

instance : BlockDevice FaultyDisk := ⟨readSector, writeSector⟩

section Operations
variable {d : FaultyDisk} {sectorId : ℕ} {buf : Sector}

theorem read_of_succeeds (h : d.outcomes d.operations = .succeeds) :
    readDisk sectorId d = (.ok (d.sectors sectorId), d.next) := by
  simp only [readDisk, BlockDevice.readSector, readSector, h, Result.ofExcept]

theorem read_of_fails (h : d.outcomes d.operations ≠ .succeeds) :
    readDisk sectorId d = (.err "ATA Device Error during Read", d.next) := by
  cases houtcome : d.outcomes d.operations with
  | succeeds => exact absurd houtcome h
  | fails => simp only [readDisk, BlockDevice.readSector, readSector, houtcome, Result.ofExcept]
  | failsAfterEffect =>
    simp only [readDisk, BlockDevice.readSector, readSector, houtcome, Result.ofExcept]

theorem write_of_succeeds (h : d.outcomes d.operations = .succeeds) :
    writeDisk sectorId buf d = (.ok (), d.attempted sectorId buf true) := by
  simp only [writeDisk, BlockDevice.writeSector, writeSector, h, Result.ofExcept]

theorem write_of_fails (h : d.outcomes d.operations = .fails) :
    writeDisk sectorId buf d =
      (.err "ATA Device Error during Write", d.attempted sectorId buf false) := by
  simp only [writeDisk, BlockDevice.writeSector, writeSector, h, Result.ofExcept]

theorem write_of_failsAfterEffect (h : d.outcomes d.operations = .failsAfterEffect) :
    writeDisk sectorId buf d = (.err "ATA Cache Flush Failed", d.attempted sectorId buf true) := by
  simp only [writeDisk, BlockDevice.writeSector, writeSector, h, Result.ofExcept]

end Operations

end FaultyDisk

def FaultyDisk.fresh (sectors : ℕ → Sector) (outcomes : ℕ → Outcome) : FaultyDisk :=
  ⟨sectors, outcomes, 0, []⟩

/-- The tested sector holds its original contents, or the write that restores them was attempted and
failed. -/
def Restored (totalSectors : BitVec 32) (before after : FaultyDisk) : Prop :=
  let testSector := (totalSectors - 1).toNat
  after.sectors testSector = before.sectors testSector ∨
    ∃ outcome, after.writes.getLast? = some (testSector, before.sectors testSector, outcome) ∧
      after.writes.length = 2 ∧ outcome ≠ .succeeds

/-- Before the restoring write, the sector is restored only if the pattern was what it held. -/
theorem restored_iff_of_pattern {totalSectors : BitVec 32} {before after : FaultyDisk}
    (hpattern : after.sectors (totalSectors - 1).toNat = testPattern)
    (hwrites : after.writes.length = 1) :
    Restored totalSectors before after ↔ before.sectors (totalSectors - 1).toNat = testPattern := by
  unfold Restored
  dsimp only
  rw [hpattern, hwrites, or_iff_left (by simp), eq_comm]

/-- Exactly when the test destroys the sector: it differs from the pattern, the pattern reached the disk,
and the test ended before the restoring write because the write reported failure or the read back
failed. -/
theorem selfTest_restores_iff (totalSectors : BitVec 32) (sectors : ℕ → Sector)
    (outcomes : ℕ → Outcome) :
    Restored totalSectors (.fresh sectors outcomes)
        (selfTest totalSectors (FaultyDisk.fresh sectors outcomes)).2 ↔
      ¬ (totalSectors ≠ 0 ∧ outcomes 0 = .succeeds ∧
        sectors (totalSectors - 1).toNat ≠ testPattern ∧
        (outcomes 1 = .failsAfterEffect ∨ outcomes 1 = .succeeds ∧ outcomes 2 ≠ .succeeds)) := by
  by_cases hzero : totalSectors = 0
  · refine iff_of_true (.inl ?_) (fun h => h.1 hzero)
    rw [selfTest, if_pos hzero]
    rfl
  rw [selfTest, if_neg hzero, if_neg (by decide)]
  -- the first read
  by_cases hread : outcomes 0 = .succeeds
  swap
  · rw [Action.bind_of_err (FaultyDisk.read_of_fails hread)]
    exact iff_of_true (.inl rfl) (fun h => hread h.2.1)
  rw [Action.bind_of_ok (FaultyDisk.read_of_succeeds hread)]
  -- the write of the pattern
  cases hwrite : outcomes 1 with
  | fails =>
    rw [Action.bind_of_err (FaultyDisk.write_of_fails hwrite)]
    exact iff_of_true (.inl rfl) (by simp)
  | failsAfterEffect =>
    rw [Action.bind_of_err (FaultyDisk.write_of_failsAfterEffect hwrite),
      restored_iff_of_pattern (Function.update_self ..) rfl]
    simp only [ne_eq, hzero, not_false_eq_true, hread, true_and, true_or, and_true, not_not]
    rfl
  | succeeds =>
    rw [Action.bind_of_ok (FaultyDisk.write_of_succeeds hwrite)]
    -- the read back
    by_cases hback : outcomes 2 = .succeeds
    swap
    · rw [Action.bind_of_err (FaultyDisk.read_of_fails hback),
        restored_iff_of_pattern (Function.update_self ..) rfl]
      simp only [ne_eq, hzero, not_false_eq_true, hread, hback, true_and, and_self, or_true, and_true,
        not_not]
      rfl
    rw [Action.bind_of_ok (FaultyDisk.read_of_succeeds hback)]
    -- the restoring write
    refine iff_of_true ?_ (by simp [hback])
    cases hrestore : outcomes 3 with
    | succeeds =>
      rw [Action.bind_of_ok (FaultyDisk.write_of_succeeds hrestore)]
      left
      split_ifs <;> simp [FaultyDisk.attempted, FaultyDisk.fresh, Action.fail, pure]
    | fails =>
      rw [Action.bind_of_err (FaultyDisk.write_of_fails hrestore)]
      exact .inr ⟨.fails, by simp [FaultyDisk.attempted, FaultyDisk.next, FaultyDisk.fresh, hrestore],
        rfl, by simp⟩
    | failsAfterEffect =>
      rw [Action.bind_of_err (FaultyDisk.write_of_failsAfterEffect hrestore)]
      left
      simp [FaultyDisk.attempted, FaultyDisk.fresh]

/-- A disk of zeros whose third operation, the read back, fails. -/
def failingReadback : FaultyDisk :=
  .fresh (fun _ => Vector.replicate 512 0) fun n => if n = 2 then .fails else .succeeds

/-- The test of eight sectors ends in an error, with the pattern in the last sector and no attempt to
restore it. -/
theorem selfTest_leaves_pattern :
    (selfTest 8 failingReadback).1 = .err "ATA Device Error during Read" ∧
      (selfTest 8 failingReadback).2.sectors 7 = testPattern ∧
      (selfTest 8 failingReadback).2.writes = [(7, testPattern, .succeeds)] ∧
      failingReadback.sectors 7 ≠ testPattern := by
  refine ⟨rfl, rfl, rfl, fun h => ?_⟩
  have hbyte := congrArg (fun v : Sector => v[1]) h
  simp [failingReadback, FaultyDisk.fresh, testPattern] at hbyte

end MitosOS.Fs
