import MitosOS.Fs.Block

/-! Mounting a FAT32 volume at boot. The partition table and the boot sector of a volume share the
same 512 bytes: `find_first_partition_lba` reads them one way, `Fat32FileSystem::mount` the other. -/
namespace MitosOS.Fs
open MitosOS.Lib

structure Fat32Geometry where
  bytesPerSector : BitVec 16
  sectorsPerCluster : BitVec 8
  reservedSectorCount : BitVec 16
  numFats : BitVec 8
  sectorsPerFat : BitVec 32
  rootCluster : BitVec 32
  firstFatSector : ℕ
  firstDataSector : ℕ
  deriving DecidableEq

/-- Every boot record, of a disk or of a volume, ends in `0x55AA`. -/
def hasSignature (sector : Sector) : Bool := sector[510] == 0x55#8 && sector[511] == 0xAA#8

/-- The boot sector checks of `Fat32FileSystem::mount`, in source order. -/
def readGeometry (buf : Sector) : Except String Fat32Geometry :=
  if !hasSignature buf then .error "Invalid boot sector signature: missing 0x55AA"
  else
    let bytesPerSector := buf[12] ++ buf[11]
    if bytesPerSector.toNat ≠ 512 then
      .error "Unsupported sector size: FAT32 sector size must match system sector size"
    else
      let reservedSectorCount := buf[15] ++ buf[14]
      let sectorsPerFat := buf[39] ++ buf[38] ++ buf[37] ++ buf[36]
      if sectorsPerFat = 0#32 then
        .error "Invalid FAT32 volume: sectors_per_fat cannot be zero"
      else
        .ok {
          bytesPerSector
          sectorsPerCluster := buf[13]
          reservedSectorCount
          numFats := buf[16]
          sectorsPerFat
          rootCluster := buf[47] ++ buf[46] ++ buf[45] ++ buf[44]
          firstFatSector := reservedSectorCount.toNat
          firstDataSector := reservedSectorCount.toNat + buf[16].toNat * sectorsPerFat.toNat }

structure Fat32FileSystem (D : Type*) where
  device : D
  geometry : Fat32Geometry

section Probing
variable {D : Type*} [BlockDevice D]

def Fat32FileSystem.mount (device : D) : Except String (Fat32FileSystem D) :=
  match BlockDevice.readSector device 0 with
  | (.error e, _) => .error e
  | (.ok buf, device) => (readGeometry buf).map fun geometry => ⟨device, geometry⟩

def partitionType (sector0 : Sector) (i : Fin 4) : BitVec 8 :=
  have hi := i.isLt
  sector0[446 + i.val * 16 + 4]

def lbaStart (sector0 : Sector) (i : Fin 4) : BitVec 32 :=
  have hi := i.isLt
  sector0[446 + i.val * 16 + 11] ++ sector0[446 + i.val * 16 + 10] ++ sector0[446 + i.val * 16 + 9] ++
    sector0[446 + i.val * 16 + 8]

def firstPartition (sector0 : Sector) : Option (BitVec 32) :=
  (List.finRange 4).findSome? fun i =>
    if partitionType sector0 i = 0#8 then none
    else if lbaStart sector0 i = 0#32 then none
    else some (lbaStart sector0 i)

def findFirstPartitionLba (device : D) : Except String (Option (BitVec 32)) × D :=
  match BlockDevice.readSector device 0 with
  | (.error e, device) => (.error e, device)
  | (.ok sector0, device) =>
    if !hasSignature sector0 then (.ok none, device) else (.ok (firstPartition sector0), device)

/-- The `Box<dyn BlockDevice>` that a volume is mounted on: the disk or one of its partitions. -/
inductive MountedDevice (D : Type*) where
  | whole (d : D)
  | partition (p : PartitionBlockDevice D)

/-- The sector of the disk behind sector `sectorId` of the volume. -/
def MountedDevice.diskSector : MountedDevice D → ℕ → ℕ
  | .whole _, sectorId => sectorId
  | .partition p, sectorId => p.innerSector sectorId

instance : BlockDevice (MountedDevice D) where
  readSector
    | .whole d, sectorId => (BlockDevice.readSector d sectorId).map id .whole
    | .partition p, sectorId => (BlockDevice.readSector p sectorId).map id .partition
  writeSector
    | .whole d, sectorId, buf => (BlockDevice.writeSector d sectorId buf).map id .whole
    | .partition p, sectorId, buf => (BlockDevice.writeSector p sectorId buf).map id .partition

/-- The probing of `kmain_common`: mount the first partition, or the disk itself if there is none or
the probe fails. -/
def probeAndMount (dev : D) : Except String (Fat32FileSystem (MountedDevice D)) :=
  match findFirstPartitionLba dev with
  | (.ok (some lba), dev) => Fat32FileSystem.mount (.partition ⟨dev, lba.toNat⟩)
  | (.ok none, dev) => Fat32FileSystem.mount (.whole dev)
  | (.error _, dev) => Fat32FileSystem.mount (.whole dev)

theorem readGeometry_signature {buf : Sector} {g : Fat32Geometry} (h : readGeometry buf = .ok g) :
    hasSignature buf = true := by
  cases hsig : hasSignature buf with
  | true => rfl
  | false => simp [readGeometry, hsig] at h

theorem Fat32FileSystem.mount_eq_ok {d : D} {fs : Fat32FileSystem D} :
    mount d = .ok fs ↔
      ∃ boot, BlockDevice.readSector d 0 = (.ok boot, fs.device) ∧
        readGeometry boot = .ok fs.geometry := by
  obtain ⟨device, geometry⟩ := fs
  unfold mount
  cases hread : BlockDevice.readSector d 0 with
  | mk r d' =>
    cases r with
    | error e => simp
    | ok boot =>
      cases hgeom : readGeometry boot with
      | error e => simp [Except.map, hgeom]
      | ok g => simp [Except.map, hgeom, and_comm, eq_comm]

theorem firstPartition_eq_none_iff {sector0 : Sector} :
    firstPartition sector0 = none ↔
      ∀ i, partitionType sector0 i = 0#8 ∨ lbaStart sector0 i = 0#32 := by
  unfold firstPartition
  rw [List.findSome?_eq_none_iff]
  refine forall_congr' fun i => ?_
  simp only [List.mem_finRange, forall_const]
  split_ifs with htype hlba
  · simp [htype]
  · simp [hlba]
  · simp [htype, hlba]

theorem firstPartition_ne_zero {sector0 : Sector} {lba : BitVec 32}
    (h : firstPartition sector0 = some lba) : lba ≠ 0#32 := by
  obtain ⟨i, -, hi⟩ := List.exists_of_findSome?_eq_some h
  split_ifs at hi with htype hlba
  have hlba' : lbaStart sector0 i = lba := Option.some.inj hi
  exact hlba' ▸ hlba

theorem findFirstPartitionLba_of_signature {d d' : D} {boot : Sector}
    (hread : BlockDevice.readSector d 0 = (.ok boot, d')) (hsig : hasSignature boot = true) :
    findFirstPartitionLba d = (.ok (firstPartition boot), d') := by
  simp [findFirstPartitionLba, hread, hsig]

/-- The probe mounts a bare volume as `mount` does exactly if its boot sector holds no partition entry
with a type and a start, and the second read of that sector gives the same geometry. -/
theorem probeAndMount_agrees_iff (d : D) (fs : Fat32FileSystem D)
    (hmount : Fat32FileSystem.mount d = .ok fs) :
    (∃ fs', probeAndMount d = .ok fs' ∧ fs'.geometry = fs.geometry ∧
        ∀ sector < 2 ^ 64, fs'.device.diskSector sector = sector) ↔
      (∀ boot, (BlockDevice.readSector d 0).1 = .ok boot →
        ∀ i, partitionType boot i = 0#8 ∨ lbaStart boot i = 0#32) ∧
      ∃ boot, (BlockDevice.readSector fs.device 0).1 = .ok boot ∧
        readGeometry boot = .ok fs.geometry := by
  obtain ⟨boot, hread, hgeom⟩ := Fat32FileSystem.mount_eq_ok.mp hmount
  have hprobe := findFirstPartitionLba_of_signature hread (readGeometry_signature hgeom)
  have htable : (∀ boot, (BlockDevice.readSector d 0).1 = .ok boot →
      ∀ i, partitionType boot i = 0#8 ∨ lbaStart boot i = 0#32) ↔ firstPartition boot = none := by
    rw [hread, firstPartition_eq_none_iff]
    simp
  rw [htable]
  unfold probeAndMount
  rw [hprobe]
  cases hfirst : firstPartition boot with
  | none =>
    simp only [true_and]
    constructor
    · rintro ⟨fs', hfs', hsame, -⟩
      obtain ⟨boot', hread', hgeom'⟩ := Fat32FileSystem.mount_eq_ok.mp hfs'
      rw [hsame] at hgeom'
      exact ⟨boot', congrArg Prod.fst hread', hgeom'⟩
    · rintro ⟨boot', hread', hgeom'⟩
      have hwhole : BlockDevice.readSector (MountedDevice.whole fs.device) 0 =
          (.ok boot', .whole (BlockDevice.readSector fs.device 0).2) := by
        rw [← hread']
        rfl
      refine ⟨⟨_, fs.geometry⟩, Fat32FileSystem.mount_eq_ok.mpr ⟨boot', hwhole, hgeom'⟩, rfl, ?_⟩
      exact fun sector _ => rfl
  | some lba =>
    simp only [reduceCtorEq, false_and, iff_false]
    rintro ⟨fs', hfs', -, hsectors⟩
    obtain ⟨boot', hread', -⟩ := Fat32FileSystem.mount_eq_ok.mp hfs'
    have hdevice : ∃ inner, fs'.device = .partition ⟨inner, lba.toNat⟩ :=
      ⟨_, (congrArg Prod.snd hread').symm⟩
    obtain ⟨inner, hinner⟩ := hdevice
    have hzero := hsectors 0 (by decide)
    have hlt : lba.toNat < 2 ^ 64 := lba.isLt.trans (by decide)
    rw [hinner, MountedDevice.diskSector, PartitionBlockDevice.innerSector, Nat.zero_add,
      wrap64_of_lt hlt] at hzero
    exact firstPartition_ne_zero hfirst (BitVec.eq_of_toNat_eq hzero)

end Probing

/-- A boot sector with 8 sectors per cluster, 32 reserved sectors, two FATs of 1000 sectors and the
root directory in cluster 2. `code` is what stands at the end of the boot code. -/
def bootSector (code : List (BitVec 8)) : Sector :=
  Vector.ofFn fun i =>
    match i.val with
    | 12 => 0x02#8
    | 13 => 0x08#8
    | 14 => 0x20#8
    | 16 => 0x02#8
    | 36 => 0xE8#8
    | 37 => 0x03#8
    | 44 => 0x02#8
    | 510 => 0x55#8
    | 511 => 0xAA#8
    | i => if 446 ≤ i then code.getD (i - 446) 0#8 else 0#8

def bootGeometry : Fat32Geometry where
  bytesPerSector := 512#16
  sectorsPerCluster := 8#8
  reservedSectorCount := 32#16
  numFats := 2#8
  sectorsPerFat := 1000#32
  rootCluster := 2#32
  firstFatSector := 32
  firstDataSector := 2032

theorem readGeometry_bootSector (code : List (BitVec 8)) :
    readGeometry (bootSector code) = .ok bootGeometry := by
  simp [readGeometry, hasSignature, bootSector, bootGeometry]

theorem mount_bootSector (code : List (BitVec 8)) :
    Fat32FileSystem.mount (⟨[bootSector code]⟩ : RamBlockDevice) =
      .ok ⟨⟨[bootSector code]⟩, bootGeometry⟩ :=
  Fat32FileSystem.mount_eq_ok.mpr ⟨bootSector code, rfl, readGeometry_bootSector code⟩

def missingKernel : List (BitVec 8) :=
  [0x4D#8, 0x69#8, 0x73#8, 0x73#8, 0x69#8, 0x6E#8, 0x67#8, 0x20#8, 0x6B#8, 0x65#8, 0x72#8, 0x6E#8,
    0x65#8, 0x6C#8]

/-- A volume without boot code is mounted where it starts. -/
theorem probeAndMount_agrees_iff_bare :
    ∃ fs, Fat32FileSystem.mount (⟨[bootSector []]⟩ : RamBlockDevice) = .ok fs ∧
      ∃ fs', probeAndMount (⟨[bootSector []]⟩ : RamBlockDevice) = .ok fs' ∧
        fs'.geometry = fs.geometry ∧
        ∀ sector < 2 ^ 64, fs'.device.diskSector sector = sector := by
  refine ⟨_, mount_bootSector [], (probeAndMount_agrees_iff _ _ (mount_bootSector [])).mpr ⟨?_, ?_⟩⟩
  · intro boot hboot i
    obtain rfl : bootSector [] = boot := Except.ok.inj hboot
    left
    have htype : ∀ i, partitionType (bootSector []) i = 0#8 := by
      simp [Fin.forall_fin_succ, partitionType, bootSector]
    exact htype i
  · exact ⟨bootSector [], rfl, readGeometry_bootSector []⟩

/-- Boot code of the text `Missing kernel` reads as a partition at sector `0x6e72656b`. -/
theorem probeAndMount_follows_boot_code :
    (∃ fs, Fat32FileSystem.mount (⟨[bootSector missingKernel]⟩ : RamBlockDevice) = .ok fs) ∧
      probeAndMount (⟨[bootSector missingKernel]⟩ : RamBlockDevice) =
        .error "Block read out of bounds" := by
  refine ⟨⟨_, mount_bootSector missingKernel⟩, ?_⟩
  have hfirst : firstPartition (bootSector missingKernel) = some 0x6E72656B#32 := by
    simp [firstPartition, List.finRange_succ, partitionType, lbaStart, bootSector, missingKernel]
  have hprobe := findFirstPartitionLba_of_signature (d := (⟨[bootSector missingKernel]⟩ :
    RamBlockDevice)) rfl (readGeometry_signature (readGeometry_bootSector missingKernel))
  rw [probeAndMount, hprobe, hfirst]
  simp [Fat32FileSystem.mount, BlockDevice.readSector, PartitionBlockDevice.readSector,
    PartitionBlockDevice.innerSector, RamBlockDevice.readSector, wrap64]

end MitosOS.Fs
