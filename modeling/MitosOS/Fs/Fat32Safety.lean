import MitosOS.Fs.Fat32

/-! What the FAT32 driver does on any disk: its arithmetic stays in range, its slices stay in their
buffers, and each FAT sector it reads is the one computed from a cluster number. The device is any
`BlockDevice`; it may answer the same read differently each time. The heap may be in any state. -/
namespace MitosOS.Fs
open MitosOS.Lib MitosOS.Lib.Action MitosOS.Memory

/-- The reads the driver makes on a volume of geometry `g`. -/
def Access.Sound (g : Fat32Geometry) : Access → Prop
  | .link cluster sector => Walkable cluster ∧ sector = fatSector g cluster
  | .data sector => sector < 2 ^ 43

def Session.Sound {D : Type*} (g : Fat32Geometry) (s : Session D) : Prop :=
  ∀ access ∈ s.log, access.Sound g

theorem Session.sound_of_nil {D : Type*} (g : Fat32Geometry) (device : D) (heap : Heap) :
    Session.Sound g ⟨device, heap, []⟩ := List.forall_mem_nil _

theorem Session.Sound.dropBytes {D : Type*} {g : Fat32Geometry} {s : Session D} (h : s.Sound g)
    (ptr n : ℕ) : (dropBytes ptr n s).Sound g := h

section Driver
variable {D : Type*} [BlockDevice D] {checks : Bool} {lower : Lowercase} {g : Fat32Geometry}

theorem Access.Sound.sector_lt (hg : g.Bounded) {access : Access} (h : access.Sound g) :
    access.sector < 2 ^ 43 := by
  cases access with
  | link cluster sector =>
    obtain ⟨⟨hhigh, -⟩, rfl⟩ := h
    have hfat := hg.fat
    show g.firstFatSector + cluster * 4 / 512 < 2 ^ 43
    omega
  | data sector => exact h

theorem readSector_keeps {access : Access} (h : access.Sound g) :
    Keeps (Session.Sound (D := D) g) (readSector access) fun _ => True := by
  intro s hs
  refine ⟨Result.ofExcept_ne_panic _, ?_, fun _ _ => trivial⟩
  intro a ha
  rcases List.mem_append.mp ha with ha | ha
  · exact hs a ha
  · rw [List.mem_singleton.mp ha]
    exact h

omit [BlockDevice D] in
theorem allocBytes_keeps (n : ℕ) :
    Keeps (Session.Sound (D := D) g) (allocBytes n) fun _ => True := by
  intro s hs
  unfold allocBytes
  cases s.heap.allocBytes n with
  | none => exact ⟨by simp, hs, by simp⟩
  | some x => exact ⟨by simp, hs, fun _ _ => trivial⟩

theorem nextCluster_keeps (hg : g.Bounded) {cluster : ℕ} (hc : Walkable cluster) :
    Keeps (Session.Sound (D := D) g) (nextCluster checks g cluster) fun next => next < 2 ^ 28 := by
  have hsound : (Access.link cluster (fatSector g cluster)).Sound g := ⟨hc, rfl⟩
  rw [nextCluster_eq hg hc]
  apply (readSector_keeps hsound).bind
  intro sectorBuf _
  exact keeps_pure (linkIn_lt sectorBuf cluster)

theorem readSectors_keeps {startSector n i : ℕ} {buf : List Byte} (hstart : startSector < 2 ^ 42)
    (hi : i + n < 256) (hbuf : (i + n) * 512 ≤ buf.length) :
    Keeps (Session.Sound (D := D) g) (readSectors checks startSector n i buf)
      fun buf' => buf'.length = buf.length := by
  induction n generalizing i buf with
  | zero => exact keeps_pure rfl
  | succ n ih =>
    rw [← Nat.add_assoc] at hbuf hi
    rw [readSectors_succ hstart (by omega) hbuf]
    have hsound : (Access.data (startSector + i)).Sound g := by
      show startSector + i < 2 ^ 43
      omega
    apply (readSector_keeps hsound).bind
    intro sectorBuf _
    have hlen : (buf.take (i * 512) ++ sectorBuf.toList ++ buf.drop (i * 512 + 512)).length =
        buf.length := length_overwrite (by rw [Vector.length_toList]) (by omega)
    rw [← hlen, Nat.add_right_comm] at hbuf
    apply (ih (by omega) hbuf).mono
    intro buf' hlen'
    rw [hlen', hlen]

theorem readCluster_keeps (hg : g.Bounded) {cluster : ℕ} (hc : Walkable cluster) {buf : List Byte}
    (hbuf : buf.length = g.clusterSize) :
    Keeps (Session.Sound (D := D) g) (readCluster checks g cluster buf)
      fun buf' => buf'.length = g.clusterSize := by
  rw [readCluster_eq hg hc hbuf]
  have hspc := g.spc_lt
  have hlen : (0 + g.spc) * 512 ≤ buf.length := by
    rw [hbuf, Nat.zero_add]
    rfl
  apply (readSectors_keeps (dataSector_lt hg hc) (by omega) hlen).mono
  intro buf' hbuf'
  rw [hbuf', hbuf]

theorem readFileRound_keeps (hg : g.Bounded) {t : FileWalk} (ht : t.buf.length = g.clusterSize) :
    Keeps (Session.Sound (D := D) g) (readFileRound checks g t)
      (Round.All (fun t => t.buf.length = g.clusterSize) fun _ => True) := by
  by_cases hc : Walkable t.cluster
  · rw [readFileRound, if_neg (not_not.mpr hc)]
    apply (readCluster_keeps hg hc ht).bind
    intro buf hbuf
    have hslice : min t.remaining g.clusterSize ≤ buf.length := by omega
    rw [slice_of_le (Nat.zero_le _) hslice, lift_ok_bind]
    split_ifs with hlast
    · exact keeps_pure (a := Round.done _) trivial
    · rw [subU_of_le checks (by omega), lift_ok_bind]
      apply (nextCluster_keeps hg hc).bind
      intro next _
      exact keeps_pure (a := Round.next _) hbuf
  · rw [readFileRound, if_pos hc]
    exact keeps_pure (a := Round.done _) trivial

theorem readFileContent_keeps (hg : g.Bounded) (fuel startCluster fileSize : ℕ) :
    Keeps (Session.Sound (D := D) g) (readFileContent checks g fuel startCluster fileSize)
      fun _ => True := by
  apply (allocBytes_keeps fileSize).bind
  intro content _
  apply Keeps.droppingOnErr _ fun s hs => hs.dropBytes content fileSize
  apply (allocBytes_keeps g.clusterSize).bind
  intro clusterBuf _
  apply Keeps.dropping _ fun s hs => hs.dropBytes clusterBuf g.clusterSize
  apply (keeps_loop (fun _ ht => readFileRound_keeps hg ht) fuel (by simp)).bind
  intro bytes _
  exact keeps_pure trivial

theorem findRound_keeps (hg : g.Bounded) {targetLower : List Char} {t : DirectoryWalk}
    (ht : t.buf.length = g.clusterSize) :
    Keeps (Session.Sound (D := D) g) (findRound checks lower g targetLower t)
      (Round.All (fun t => t.buf.length = g.clusterSize) fun _ => True) := by
  by_cases hc : Walkable t.cluster
  swap
  · rw [findRound, if_pos hc]
    exact keeps_fail _
  rw [findRound, if_neg (not_not.mpr hc)]
  apply (readCluster_keeps hg hc ht).bind
  intro buf hbuf
  have hspc := g.spc_lt
  have hsize : g.clusterSize = g.spc * 512 := rfl
  rw [searchEntries_eq lower targetLower (by omega) (by omega), lift_ok_bind]
  cases scan lower targetLower ((List.range' 0 (g.clusterSize / 32)).map (entryAt buf)) with
  | some entry => exact keeps_pure (a := Round.done _) trivial
  | none =>
    apply (nextCluster_keeps hg hc).bind
    intro next _
    exact keeps_pure (a := Round.next _) hbuf

theorem findInDirectory_keeps (hg : g.Bounded) (fuel dirCluster : ℕ) (targetName : List Char) :
    Keeps (Session.Sound (D := D) g) (findInDirectory checks lower g fuel dirCluster targetName)
      fun _ => True := by
  apply (allocBytes_keeps g.clusterSize).bind
  intro clusterBuf _
  apply Keeps.dropping _ fun s hs => hs.dropBytes clusterBuf g.clusterSize
  exact keeps_loop (fun _ ht => findRound_keeps hg ht) fuel (by simp)

theorem resolveParts_keeps (hg : g.Bounded) (fuel : ℕ) (parts : List (List Char)) (cluster : ℕ) :
    Keeps (Session.Sound (D := D) g) (resolveParts checks lower g fuel parts cluster)
      fun _ => True := by
  induction parts generalizing cluster with
  | nil => exact keeps_fail _
  | cons part rest ih =>
    unfold resolveParts
    apply (findInDirectory_keeps hg fuel cluster part).bind
    intro entry _
    split_ifs
    · exact keeps_pure trivial
    · exact keeps_fail _
    · exact ih _

theorem resolvePath_keeps (checks : Bool) (lower : Lowercase) (hg : g.Bounded) (fuel : ℕ)
    (path : List Char) :
    Keeps (Session.Sound (D := D) g) (resolvePath checks lower g fuel path) fun _ => True := by
  by_cases hpath : path.dropWhile (· = '/') = []
  · rw [resolvePath_root lower fuel hpath]
    exact keeps_fail _
  · rw [resolvePath_eq lower fuel hpath]
    exact resolveParts_keeps hg fuel _ _

theorem readFileByPath_keeps (checks : Bool) (lower : Lowercase) (hg : g.Bounded) (fuel : ℕ)
    (path : List Char) :
    Keeps (Session.Sound (D := D) g) (readFileByPath checks lower g fuel path) fun _ => True := by
  unfold readFileByPath
  apply (resolvePath_keeps checks lower hg fuel path).bind
  intro entry _
  split_ifs
  · exact keeps_fail _
  · exact readFileContent_keeps hg fuel _ _

/-- The index arithmetic of `block.rs` does not overflow at this sector, on a RAM disk or on a
partition of one. -/
def Addressable (sector : ℕ) : Prop :=
  (∀ data, RamBlockDevice.readBytes true data sector ≠ .panic) ∧
    ∀ p : PartitionBlockDevice RamBlockDevice, p.lbaOffset < 2 ^ 32 →
      ∃ inner, p.checkedSector true sector = .ok inner ∧
        ∀ data, RamBlockDevice.readBytes true data inner ≠ .panic

theorem readBytes_ne_panic {sector : ℕ} (h : sector < 2 ^ 54) (data : List Byte) :
    RamBlockDevice.readBytes true data sector ≠ .panic := by
  rw [RamBlockDevice.readBytes_of_lt true data h]
  split_ifs <;> simp

theorem addressable_of_lt {sector : ℕ} (h : sector < 2 ^ 43) : Addressable sector := by
  refine ⟨readBytes_ne_panic (by omega), fun p hp => ?_⟩
  have hsum : sector + p.lbaOffset < 2 ^ 54 := by omega
  have hword : sector + p.lbaOffset < 2 ^ 64 := by omega
  refine ⟨_, p.checkedSector_of_lt true hword, ?_⟩
  rw [PartitionBlockDevice.innerSector, wrap64_of_lt hword]
  exact readBytes_ne_panic hsum

/-- On any disk that can be mounted, looking up a path and reading a file run without overflow and
without a slice out of range, in the driver and in the devices below it. -/
theorem fat32_arithmetic_in_range (lower : Lowercase) {d : D} {fs : Fat32FileSystem D}
    (hmount : Fat32FileSystem.mount d = .ok fs) (device : D) (heap : Heap) (fuel : ℕ)
    (path : List Char) :
    (resolvePath true lower fs.geometry fuel path ⟨device, heap, []⟩).1 ≠ .panic ∧
      (readFileByPath true lower fs.geometry fuel path ⟨device, heap, []⟩).1 ≠ .panic ∧
      (∀ access ∈ (resolvePath true lower fs.geometry fuel path ⟨device, heap, []⟩).2.log,
        Addressable access.sector) ∧
      ∀ access ∈ (readFileByPath true lower fs.geometry fuel path ⟨device, heap, []⟩).2.log,
        Addressable access.sector := by
  have hg := Fat32FileSystem.mount_bounded hmount
  have hstart := Session.sound_of_nil fs.geometry device heap
  obtain ⟨hresolve, hresolveLog, -⟩ :=
    resolvePath_keeps true lower hg fuel path _ hstart
  obtain ⟨hread, hreadLog, -⟩ :=
    readFileByPath_keeps true lower hg fuel path _ hstart
  refine ⟨hresolve, hread, fun access h => ?_, fun access h => ?_⟩
  · exact addressable_of_lt ((hresolveLog access h).sector_lt hg)
  · exact addressable_of_lt ((hreadLog access h).sector_lt hg)

end Driver

/-- A volume whose root directory is cluster 128, one more than its FAT has entries for. -/
def highRootVolume : RamBlockDevice :=
  smallVolume 1 128 (sectorOf []) (List.replicate 127 (sectorOf []))

/-- A file read on an empty volume. -/
theorem fat32_arithmetic_in_range_small :
    ∃ fs, Fat32FileSystem.mount highRootVolume = .ok fs ∧
      ∀ fuel path, (readFileByPath true asciiLowercase fs.geometry fuel path
        ⟨highRootVolume, bootHeap.heap, []⟩).1 ≠ .panic := by
  refine ⟨_, mount_smallVolume _ _ _ _, fun fuel path => ?_⟩
  exact (fat32_arithmetic_in_range asciiLowercase (mount_smallVolume _ _ _ _) _ _ fuel path).2.1

end MitosOS.Fs
