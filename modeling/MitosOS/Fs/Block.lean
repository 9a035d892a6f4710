import MitosOS.Lib.Checked
import Mathlib.Data.Vector.Basic

/-! The block devices of `block.rs`. A device is a value that its operations replace. -/
namespace MitosOS.Fs
open MitosOS.Lib

abbrev Sector := Vector (BitVec 8) 512

/-- `trait BlockDevice`. A read or a write may fail, and may change the device either way. -/
class BlockDevice (D : Type*) where
  readSector : D → ℕ → Except String Sector × D
  writeSector : D → ℕ → Sector → Except String Unit × D

structure RamBlockDevice where
  sectors : List Sector

namespace RamBlockDevice

def new (sizeInSectors : ℕ) : RamBlockDevice where
  sectors := List.replicate sizeInSectors (Vector.replicate 512 0#8)

def readSector (d : RamBlockDevice) (sectorId : ℕ) : Except String Sector × RamBlockDevice :=
  match d.sectors[sectorId]? with
  | none => (.error "Block read out of bounds", d)
  | some buf => (.ok buf, d)

def writeSector (d : RamBlockDevice) (sectorId : ℕ) (buf : Sector) :
    Except String Unit × RamBlockDevice :=
  if sectorId < d.sectors.length then (.ok (), ⟨d.sectors.set sectorId buf⟩)
  else (.error "Block write out of bounds", d)

instance : BlockDevice RamBlockDevice := ⟨readSector, writeSector⟩

/-- `read_sector` on the bytes, with its index arithmetic. -/
def readBytes (checks : Bool) (data : List (BitVec 8)) (sectorId : ℕ) :
    Result (List (BitVec 8)) := do
  let start ← mulU checks 64 sectorId 512
  let stop ← addU checks 64 start 512
  if data.length < stop then .err "Block read out of bounds" else slice data start stop

theorem readBytes_of_lt (checks : Bool) (data : List (BitVec 8)) {sectorId : ℕ}
    (h : sectorId < 2 ^ 54) :
    readBytes checks data sectorId =
      if data.length < sectorId * 512 + 512 then .err "Block read out of bounds"
      else .ok ((data.drop (sectorId * 512)).take 512) := by
  have hstart : sectorId * 512 < 2 ^ 64 := by omega
  have hle : sectorId * 512 ≤ 2 ^ 63 := by omega
  have hstop : sectorId * 512 + 512 < 2 ^ 64 := (Nat.add_le_add_right hle 512).trans_lt (by decide)
  simp only [readBytes, mulU_of_lt checks hstart, addU_of_lt checks hstop, Result.bind_eq_bind,
    Result.ok_bind]
  split_ifs with hlen
  · rfl
  · rw [slice_of_le (Nat.le_add_right _ _) (Nat.not_lt.mp hlen), Nat.add_sub_cancel_left]

end RamBlockDevice

structure PartitionBlockDevice (D : Type*) where
  inner : D
  lbaOffset : ℕ

namespace PartitionBlockDevice
variable {D : Type*} [BlockDevice D]

/-- The sector of the inner device; the addition wraps. -/
def innerSector (d : PartitionBlockDevice D) (sectorId : ℕ) : ℕ := wrap64 (sectorId + d.lbaOffset)

/-- The same addition in a build with or without overflow checks. -/
def checkedSector (checks : Bool) (d : PartitionBlockDevice D) (sectorId : ℕ) : Result ℕ :=
  addU checks 64 sectorId d.lbaOffset

omit [BlockDevice D] in
theorem checkedSector_of_lt (checks : Bool) (d : PartitionBlockDevice D) {sectorId : ℕ}
    (h : sectorId + d.lbaOffset < 2 ^ 64) :
    d.checkedSector checks sectorId = .ok (d.innerSector sectorId) := by
  rw [checkedSector, addU_of_lt checks h, innerSector, wrap64_of_lt h]

def readSector (d : PartitionBlockDevice D) (sectorId : ℕ) :
    Except String Sector × PartitionBlockDevice D :=
  let (r, inner) := BlockDevice.readSector d.inner (d.innerSector sectorId)
  (r, { d with inner })

def writeSector (d : PartitionBlockDevice D) (sectorId : ℕ) (buf : Sector) :
    Except String Unit × PartitionBlockDevice D :=
  let (r, inner) := BlockDevice.writeSector d.inner (d.innerSector sectorId) buf
  (r, { d with inner })

instance : BlockDevice (PartitionBlockDevice D) := ⟨readSector, writeSector⟩

end PartitionBlockDevice

end MitosOS.Fs
