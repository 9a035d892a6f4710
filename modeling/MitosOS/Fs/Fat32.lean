import MitosOS.Fs.Volume
import MitosOS.Lib.Checked
import MitosOS.Lib.Text
import MitosOS.Memory.ByteBlocks

/-! The FAT32 driver of `fat32.rs`: cluster chains, directories, paths and files. Every function runs
in a build with overflow checks (`checks = true`) or without them, and records the sectors it reads.
Its buffers are blocks of the kernel heap; what they hold is a value of its own, so blocks are taken
not to overlap. -/
namespace MitosOS.Fs
open MitosOS.Lib MitosOS.Memory

/-- A sector that is read: by `next_cluster`, for the link of a cluster, or by `read_cluster`. -/
inductive Access where
  | link (cluster sector : ℕ)
  | data (sector : ℕ)
  deriving DecidableEq, Repr

def Access.sector : Access → ℕ
  | .link _ sector => sector
  | .data sector => sector

/-- The device of a mounted volume and the kernel heap, with the reads made so far. -/
structure Session (D : Type*) where
  device : D
  heap : Heap
  log : List Access

/-- A `Vec<u8>`: its block on the heap, and its bytes. -/
structure ByteVec where
  ptr : ℕ
  capacity : ℕ
  bytes : List Byte

/-- A 32-byte directory entry. The struct is packed, so its fields are bytes at fixed places. -/
structure FatDirectoryEntry where
  bytes : List Byte
  deriving DecidableEq, Repr

namespace FatDirectoryEntry

def name (e : FatDirectoryEntry) : List Byte := e.bytes.take 11

def attr (e : FatDirectoryEntry) : Byte := e.bytes.getD 11 0

def field (e : FatDirectoryEntry) (off n : ℕ) : ℕ :=
  ((e.bytes.drop off).take n).foldr (fun b acc => b.toNat + 256 * acc) 0

def firstClusterHigh (e : FatDirectoryEntry) : ℕ := e.field 20 2
def firstClusterLow (e : FatDirectoryEntry) : ℕ := e.field 26 2
def fileSize (e : FatDirectoryEntry) : ℕ := e.field 28 4

def startingCluster (e : FatDirectoryEntry) : ℕ := e.firstClusterHigh <<< 16 ||| e.firstClusterLow

def isFree (e : FatDirectoryEntry) : Bool := e.name.head? == some 0x00 || e.name.head? == some 0xE5

def isEnd (e : FatDirectoryEntry) : Bool := e.name.head? == some 0x00

def attrLongName : Byte := 0x0F
def attrVolumeId : Byte := 0x08
def attrDirectory : Byte := 0x10

def isLfn (e : FatDirectoryEntry) : Bool := e.attr &&& attrLongName == attrLongName

def isDirectory (e : FatDirectoryEntry) : Bool := e.attr &&& attrDirectory != 0

/-- The base and the extension, each up to its first space. -/
def namePart (e : FatDirectoryEntry) : List Byte := (e.name.take 8).takeWhile (· ≠ 0x20)
def extPart (e : FatDirectoryEntry) : List Byte := (e.name.drop 8).takeWhile (· ≠ 0x20)

def getName (lower : Lowercase) (e : FatDirectoryEntry) : List Char :=
  lower.apply
    (if e.extPart = [] then decodeLossy e.namePart
    else decodeLossy e.namePart ++ '.' :: decodeLossy e.extPart)

end FatDirectoryEntry

namespace Fat32Geometry

def spc (g : Fat32Geometry) : ℕ := g.sectorsPerCluster.toNat

def clusterSize (g : Fat32Geometry) : ℕ := g.spc * 512

end Fat32Geometry

/-- The numbers that `mount` can compute. -/
structure Fat32Geometry.Bounded (g : Fat32Geometry) : Prop where
  fat : g.firstFatSector < 2 ^ 16
  data : g.firstDataSector < 2 ^ 41

/-- The guard of both loops over a cluster chain. -/
def Walkable (cluster : ℕ) : Prop := cluster < 0x0FFFFFF8 ∧ 2 ≤ cluster

instance (cluster : ℕ) : Decidable (Walkable cluster) := inferInstanceAs (Decidable (_ ∧ _))

section Driver
variable {D : Type*} [BlockDevice D] (checks : Bool) (lower : Lowercase) (g : Fat32Geometry)

def readSector (access : Access) : Action (Session D) Sector := fun s =>
  match BlockDevice.readSector s.device access.sector with
  | (r, device) => (.ofExcept r, ⟨device, s.heap, s.log ++ [access]⟩)

def allocBytes (n : ℕ) : Action (Session D) ℕ := fun s =>
  match s.heap.allocBytes n with
  | some (ptr, heap) => (.ok ptr, { s with heap })
  | none => (.exhausted, s)

def dropBytes (ptr n : ℕ) (s : Session D) : Session D := { s with heap := s.heap.freeBytes ptr n }

def clusterToSector (cluster : ℕ) : Result ℕ := do
  let index ← subU checks 64 cluster 2
  let sectors ← mulU checks 64 index g.spc
  addU checks 64 g.firstDataSector sectors

def nextCluster (cluster : ℕ) : Action (Session D) ℕ := do
  let fatOffset ← .lift (mulU checks 32 cluster 4)
  let fatSector ← .lift (addU checks 64 g.firstFatSector (fatOffset / 512))
  let entOffset := fatOffset % 512
  let sectorBuf ← readSector (.link cluster fatSector)
  let stop ← .lift (addU checks 64 entOffset 4)
  let bytes ← .lift (slice sectorBuf.toList entOffset stop)
  pure (bytes.foldr (fun b acc => b.toNat + 256 * acc) 0 &&& 0x0FFFFFFF)

/-- The loop of `read_cluster`, with the sectors left, the next one and the buffer. -/
def readSectors (startSector : ℕ) : ℕ → ℕ → List Byte → Action (Session D) (List Byte)
  | 0, _, buf => pure buf
  | n + 1, i, buf => do
    let offset ← .lift (mulU checks 64 i 512)
    let sector ← .lift (addU checks 64 startSector i)
    let sectorBuf ← readSector (.data sector)
    let stop ← .lift (addU checks 64 offset 512)
    let buf ← .lift (copyFromSlice buf offset stop sectorBuf.toList)
    readSectors startSector n (i + 1) buf

def readCluster (cluster : ℕ) (buf : List Byte) : Action (Session D) (List Byte) :=
  if buf.length < g.clusterSize then .fail "Provided buffer is too small for cluster data"
  else do
    let startSector ← .lift (clusterToSector checks g cluster)
    readSectors checks startSector g.spc 0 buf

structure FileWalk where
  cluster : ℕ
  remaining : ℕ
  buf : List Byte
  content : List Byte

def readFileRound (t : FileWalk) : Action (Session D) (Round FileWalk (List Byte)) :=
  if ¬ Walkable t.cluster then pure (.done t.content)
  else do
    let buf ← readCluster checks g t.cluster t.buf
    let bytes ← .lift (slice buf 0 (min t.remaining g.clusterSize))
    let content := t.content ++ bytes
    if t.remaining ≤ g.clusterSize then pure (.done content)
    else do
      let remaining ← .lift (subU checks 64 t.remaining g.clusterSize)
      let cluster ← nextCluster checks g t.cluster
      pure (.next ⟨cluster, remaining, buf, content⟩)

/-- The loop, with the vectors `content` and `clusterBuf` around it. An error drops both, and a file
that was read keeps the first one. -/
def readFileContent (fuel startCluster fileSize : ℕ) : Action (Session D) ByteVec := do
  let content ← allocBytes fileSize
  Action.droppingOnErr (do
    let clusterBuf ← allocBytes g.clusterSize
    Action.dropping (do
      let bytes ← .loop (readFileRound checks g) fuel
        ⟨startCluster, fileSize, List.replicate g.clusterSize 0, []⟩
      pure ⟨content, fileSize, bytes⟩)
      (dropBytes clusterBuf g.clusterSize))
    (dropBytes content fileSize)

/-- The loop over the entries of one cluster, with the entries left and the next one. -/
def searchEntries (buf : List Byte) (targetLower : List Char) :
    ℕ → ℕ → Result (Option FatDirectoryEntry)
  | 0, _ => pure none
  | n + 1, i => do
    let offset ← mulU checks 64 i 32
    let stop ← addU checks 64 offset 32
    let bytes ← slice buf offset stop
    let entry : FatDirectoryEntry := ⟨bytes⟩
    if entry.isEnd then pure none
    else if entry.isFree || entry.isLfn then searchEntries buf targetLower n (i + 1)
    else if entry.getName lower = targetLower then pure (some entry)
    else searchEntries buf targetLower n (i + 1)

structure DirectoryWalk where
  cluster : ℕ
  buf : List Byte

def findRound (targetLower : List Char) (t : DirectoryWalk) :
    Action (Session D) (Round DirectoryWalk FatDirectoryEntry) :=
  if ¬ Walkable t.cluster then .fail "File or directory not found"
  else do
    let buf ← readCluster checks g t.cluster t.buf
    match ← .lift (searchEntries checks lower buf targetLower (g.clusterSize / 32) 0) with
    | some entry => pure (.done entry)
    | none => do
      let cluster ← nextCluster checks g t.cluster
      pure (.next ⟨cluster, buf⟩)

def findInDirectory (fuel dirCluster : ℕ) (targetName : List Char) :
    Action (Session D) FatDirectoryEntry := do
  let clusterBuf ← allocBytes g.clusterSize
  Action.dropping (.loop (findRound checks lower g (lower.apply targetName)) fuel
    ⟨dirCluster, List.replicate g.clusterSize 0⟩) (dropBytes clusterBuf g.clusterSize)

def resolveParts (fuel : ℕ) : List (List Char) → ℕ → Action (Session D) FatDirectoryEntry
  | [], _ => .fail "Path resolution failed"
  | part :: rest, cluster => do
    let entry ← findInDirectory checks lower g fuel cluster part
    if rest = [] then pure entry
    else if !entry.isDirectory then .fail "Parent path component is not a directory"
    else resolveParts fuel rest entry.startingCluster

def resolvePath (fuel : ℕ) (path : List Char) : Action (Session D) FatDirectoryEntry :=
  let trimmedPath := path.dropWhile (· = '/')
  if trimmedPath = [] then .fail "Root has no directory entry of its own"
  else resolveParts checks lower g fuel (trimmedPath.splitOn '/') g.rootCluster.toNat

def readFileByPath (fuel : ℕ) (path : List Char) : Action (Session D) ByteVec := do
  let entry ← resolvePath checks lower g fuel path
  if entry.isDirectory then .fail "Target path is a directory, not a file"
  else readFileContent checks g fuel entry.startingCluster entry.fileSize

end Driver

section Equations
variable {D : Type*} [BlockDevice D] {checks : Bool} {g : Fat32Geometry} {cluster : ℕ}

theorem readGeometry_bounded {boot : Sector} (h : readGeometry boot = .ok g) : g.Bounded := by
  unfold readGeometry at h
  dsimp only at h
  split_ifs at h
  obtain rfl := Except.ok.inj h
  have hreserved := (boot[15] ++ boot[14] : BitVec 16).isLt
  have hfats := (boot[16] : BitVec 8).isLt
  have hsize := (boot[39] ++ boot[38] ++ boot[37] ++ boot[36] : BitVec 32).isLt
  have htables := Nat.mul_le_mul hfats.le hsize.le
  constructor
  · exact hreserved
  · show _ + _ < _
    omega

theorem Fat32FileSystem.mount_bounded {d : D} {fs : Fat32FileSystem D} (h : mount d = .ok fs) :
    fs.geometry.Bounded := by
  obtain ⟨boot, -, hboot⟩ := mount_eq_ok.mp h
  exact readGeometry_bounded hboot

theorem Fat32Geometry.spc_lt (g : Fat32Geometry) : g.spc < 256 := g.sectorsPerCluster.isLt

theorem FatDirectoryEntry.fileSize_lt (e : FatDirectoryEntry) : e.fileSize < 2 ^ 32 := by
  have hbytes : ∀ bytes : List Byte,
      bytes.foldr (fun b acc => b.toNat + 256 * acc) 0 < 256 ^ bytes.length := by
    intro bytes
    induction bytes with
    | nil => simp
    | cons b bytes ih =>
      have hb := b.isLt
      rw [List.foldr_cons, List.length_cons, Nat.pow_succ]
      omega
  have hlen : ((e.bytes.drop 28).take 4).length ≤ 4 := List.length_take_le _ _
  exact (hbytes _).trans_le (Nat.pow_le_pow_right (by decide) hlen)

def fatSector (g : Fat32Geometry) (cluster : ℕ) : ℕ := g.firstFatSector + cluster * 4 / 512

def linkIn (sectorBuf : Sector) (cluster : ℕ) : ℕ :=
  ((sectorBuf.toList.drop (cluster * 4 % 512)).take 4).foldr (fun b acc => b.toNat + 256 * acc) 0 &&&
    0x0FFFFFFF

def dataSector (g : Fat32Geometry) (cluster : ℕ) : ℕ := g.firstDataSector + (cluster - 2) * g.spc

theorem linkIn_lt (sectorBuf : Sector) (cluster : ℕ) : linkIn sectorBuf cluster < 2 ^ 28 :=
  Nat.and_lt_two_pow _ (by decide)

theorem dataSector_lt (hg : g.Bounded) (hc : Walkable cluster) : dataSector g cluster < 2 ^ 42 := by
  have hspc := g.spc_lt
  have hdata := hg.data
  obtain ⟨hhigh, -⟩ := hc
  have hmul : (cluster - 2) * g.spc ≤ 2 ^ 28 * 2 ^ 8 := Nat.mul_le_mul (by omega) (by omega)
  unfold dataSector
  omega

theorem nextCluster_eq (hg : g.Bounded) (hc : Walkable cluster) :
    (nextCluster checks g cluster : Action (Session D) ℕ) =
      readSector (.link cluster (fatSector g cluster)) >>= fun sectorBuf =>
        pure (linkIn sectorBuf cluster) := by
  have hfat := hg.fat
  obtain ⟨hhigh, -⟩ := hc
  have hmul : cluster * 4 < 2 ^ 32 := by omega
  have hsector : g.firstFatSector + cluster * 4 / 512 < 2 ^ 64 := by omega
  have hstop : cluster * 4 % 512 + 4 ≤ 512 := by omega
  have hstop' : cluster * 4 % 512 + 4 < 2 ^ 64 := by omega
  have hslice : ∀ sectorBuf : Sector, slice sectorBuf.toList (cluster * 4 % 512)
      (cluster * 4 % 512 + 4) = .ok ((sectorBuf.toList.drop (cluster * 4 % 512)).take 4) := by
    intro sectorBuf
    rw [slice_of_le (Nat.le_add_right _ _) (by simpa using hstop), Nat.add_sub_cancel_left]
  simp only [nextCluster, mulU_of_lt checks hmul, addU_of_lt checks hsector,
    addU_of_lt checks hstop', hslice, Action.lift_ok_bind]
  rfl

theorem clusterToSector_eq (hg : g.Bounded) (hc : Walkable cluster) :
    clusterToSector checks g cluster = .ok (dataSector g cluster) := by
  have hlt := dataSector_lt hg hc
  unfold dataSector at hlt
  have hmul : (cluster - 2) * g.spc < 2 ^ 64 := by omega
  have hadd : g.firstDataSector + (cluster - 2) * g.spc < 2 ^ 64 := by omega
  simp only [clusterToSector, subU_of_le checks hc.2, mulU_of_lt checks hmul,
    addU_of_lt checks hadd, Result.bind_eq_bind, Result.ok_bind]
  rfl

theorem readCluster_eq (hg : g.Bounded) (hc : Walkable cluster) {buf : List Byte}
    (hbuf : buf.length = g.clusterSize) :
    (readCluster checks g cluster buf : Action (Session D) (List Byte)) =
      readSectors checks (dataSector g cluster) g.spc 0 buf := by
  rw [readCluster, if_neg (by omega), clusterToSector_eq hg hc]
  rfl

theorem readSectors_succ {startSector n i : ℕ} {buf : List Byte} (hstart : startSector < 2 ^ 42)
    (hi : i + n < 256) (hbuf : (i + n + 1) * 512 ≤ buf.length) :
    (readSectors checks startSector (n + 1) i buf : Action (Session D) (List Byte)) =
      readSector (.data (startSector + i)) >>= fun sectorBuf =>
        readSectors checks startSector n (i + 1)
          (buf.take (i * 512) ++ sectorBuf.toList ++ buf.drop (i * 512 + 512)) := by
  have hmul : i * 512 < 2 ^ 64 := by omega
  have hsector : startSector + i < 2 ^ 64 := by omega
  have hend : i * 512 + 512 ≤ 2 ^ 17 := by omega
  have hstop : i * 512 + 512 < 2 ^ 64 := hend.trans_lt (by decide)
  have hcopy : ∀ sectorBuf : Sector, copyFromSlice buf (i * 512) (i * 512 + 512) sectorBuf.toList =
      .ok (buf.take (i * 512) ++ sectorBuf.toList ++ buf.drop (i * 512 + 512)) := by
    intro sectorBuf
    apply copyFromSlice_of_le (Nat.le_add_right _ _) (by omega)
    simp
  simp only [readSectors, mulU_of_lt checks hmul, addU_of_lt checks hsector,
    addU_of_lt checks hstop, hcopy, Action.lift_ok_bind]

def entryAt (bytes : List Byte) (i : ℕ) : FatDirectoryEntry := ⟨(bytes.drop (i * 32)).take 32⟩

def entriesOf (bytes : List Byte) : List FatDirectoryEntry :=
  (List.range' 0 (bytes.length / 32)).map (entryAt bytes)

/-- What the loop over the entries of one cluster finds. -/
def scan (lower : Lowercase) (targetLower : List Char) :
    List FatDirectoryEntry → Option FatDirectoryEntry
  | [] => none
  | entry :: entries =>
    if entry.isEnd then none
    else if entry.isFree || entry.isLfn then scan lower targetLower entries
    else if entry.getName lower = targetLower then some entry
    else scan lower targetLower entries

theorem searchEntries_eq (lower : Lowercase) (targetLower : List Char) {buf : List Byte} {n i : ℕ}
    (hi : (i + n) * 32 ≤ buf.length) (hbuf : buf.length < 2 ^ 63) :
    searchEntries checks lower buf targetLower n i =
      .ok (scan lower targetLower ((List.range' i n).map (entryAt buf))) := by
  induction n generalizing i with
  | zero => rfl
  | succ n ih =>
    have hstart : i * 32 < 2 ^ 64 := by omega
    have hstop : i * 32 + 32 ≤ buf.length := by omega
    have hstop' : i * 32 + 32 < 2 ^ 64 := by omega
    rw [searchEntries, List.range'_succ, List.map_cons, scan, entryAt]
    simp only [mulU_of_lt checks hstart, addU_of_lt checks hstop',
      slice_of_le (Nat.le_add_right _ _) hstop, Result.bind_eq_bind, Result.ok_bind,
      Nat.add_sub_cancel_left, ih (show (i + 1 + n) * 32 ≤ buf.length by omega)]
    split_ifs <;> rfl

theorem resolvePath_root (lower : Lowercase) (fuel : ℕ) {path : List Char}
    (h : path.dropWhile (· = '/') = []) :
    (resolvePath checks lower g fuel path : Action (Session D) FatDirectoryEntry) =
      .fail "Root has no directory entry of its own" := if_pos h

theorem resolvePath_eq (lower : Lowercase) (fuel : ℕ) {path : List Char}
    (h : path.dropWhile (· = '/') ≠ []) :
    (resolvePath checks lower g fuel path : Action (Session D) FatDirectoryEntry) =
      resolveParts checks lower g fuel ((path.dropWhile (· = '/')).splitOn '/')
        g.rootCluster.toNat := if_neg h

end Equations

section SmallVolume

def sectorOf (bytes : List Byte) : Sector := ⟨⟨bytes.takeD 512 0⟩, List.takeD_length 512 bytes 0⟩

/-- The `n` low bytes of a number, lowest first. -/
def littleEndian (value : ℕ) : ℕ → List Byte
  | 0 => []
  | n + 1 => BitVec.ofNat 8 value :: littleEndian (value / 256) n

def fatSectorOf (links : List ℕ) : Sector := sectorOf (links.flatMap (littleEndian · 4))

def directoryEntry (name : List Byte) (attr : Byte) (cluster size : ℕ) : List Byte :=
  name ++ [attr] ++ List.replicate 8 0 ++ littleEndian (cluster / 2 ^ 16) 2 ++ List.replicate 4 0 ++
    littleEndian cluster 2 ++ littleEndian size 4

/-- A boot sector with one reserved sector and one FAT of one sector. With one sector per cluster the
data of cluster `c` stands in sector `c`. -/
def smallBootSector (spc root : Byte) : Sector :=
  Vector.ofFn fun i =>
    match i.val with
    | 12 => 0x02#8
    | 13 => spc
    | 14 => 0x01#8
    | 16 => 0x01#8
    | 36 => 0x01#8
    | 44 => root
    | 510 => 0x55#8
    | 511 => 0xAA#8
    | _ => 0#8

def smallGeometry (spc root : Byte) : Fat32Geometry where
  bytesPerSector := 512#16
  sectorsPerCluster := spc
  reservedSectorCount := 1#16
  numFats := 1#8
  sectorsPerFat := 1#32
  rootCluster := 0#8 ++ 0#8 ++ 0#8 ++ root
  firstFatSector := 1
  firstDataSector := 2

def smallVolume (spc root : Byte) (fat : Sector) (clusters : List Sector) : RamBlockDevice where
  sectors := smallBootSector spc root :: fat :: clusters

theorem mount_smallVolume (spc root : Byte) (fat : Sector) (clusters : List Sector) :
    Fat32FileSystem.mount (smallVolume spc root fat clusters) =
      .ok ⟨smallVolume spc root fat clusters, smallGeometry spc root⟩ := by
  have hgeometry : readGeometry (smallBootSector spc root) = .ok (smallGeometry spc root) := by
    simp [readGeometry, hasSignature, smallBootSector, smallGeometry]
  exact Fat32FileSystem.mount_eq_ok.mpr ⟨smallBootSector spc root, rfl, hgeometry⟩

end SmallVolume

end MitosOS.Fs
