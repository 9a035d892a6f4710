import MitosOS.Fs.Fat32Chains

/-! What `read_file_content` returns: the bytes along the chain of a file, up to its size or to the
end of the chain. -/
namespace MitosOS.Fs.Volume
open MitosOS.Lib MitosOS.Memory

variable {D : Type*} [BlockDevice D] {v : Volume D} {cluster last remaining : ℕ}
  {clusters : List ℕ} {bytes content result : List Byte}

def bytesOf (v : Volume D) (cluster : ℕ) : List Byte :=
  match v.clusterBytes cluster with
  | .ok bytes => bytes
  | .error _ => []

/-- The links lead from one cluster over the listed ones to a last one that can be read as well, and
the clusters hold `size` bytes. -/
structure Covers (v : Volume D) (cluster : ℕ) (clusters : List ℕ) (last size : ℕ) : Prop where
  chain : v.Chain (fun _ => True) cluster clusters last
  walkable : Walkable last
  readable : ∃ bytes, v.clusterBytes last = .ok bytes
  long : size ≤ (clusters.length + 1) * v.geometry.clusterSize

theorem bytesOf_eq (h : v.clusterBytes cluster = .ok bytes) : v.bytesOf cluster = bytes := by
  simp only [bytesOf, h]

theorem Chain.length_bytes (h : v.Chain (fun _ => True) cluster clusters last) :
    (clusters.flatMap v.bytesOf).length = clusters.length * v.geometry.clusterSize := by
  induction h with
  | nil => simp
  | cons _ hbytes _ _ _ ih =>
    rw [List.flatMap_cons, List.length_append, bytesOf_eq hbytes, length_clusterBytes hbytes, ih,
      List.length_cons, Nat.succ_mul, Nat.add_comm]

theorem Covers.length_content {size : ℕ} (h : v.Covers cluster clusters last size) :
    (((clusters ++ [last]).flatMap v.bytesOf).take size).length = size := by
  obtain ⟨hchain, -, ⟨bytes, hbytes⟩, hlong⟩ := h
  apply List.length_take_of_le
  rw [Nat.succ_mul] at hlong
  rw [List.flatMap_append, List.length_append, hchain.length_bytes, List.flatMap_cons,
    bytesOf_eq hbytes, List.flatMap_nil, List.append_nil, length_clusterBytes hbytes]
  exact hlong

theorem Covers.tail {next size : ℕ} (h : v.Covers cluster (cluster :: clusters) last size)
    (hlink : v.link cluster = .ok next) :
    v.Covers next clusters last (size - v.geometry.clusterSize) := by
  obtain ⟨hchain, hwalkable, hreadable, hlong⟩ := h
  cases hchain with
  | cons _ _ _ hlink' hrest =>
    obtain rfl := Except.ok.inj (hlink.symm.trans hlink')
    refine ⟨hrest, hwalkable, hreadable, ?_⟩
    rw [List.length_cons, Nat.succ_mul] at hlong
    omega

theorem iterate_fileStep_covers (h : v.Covers cluster clusters last remaining) {fuel : ℕ}
    (hfuel : clusters.length < fuel) :
    iterate v.fileStep fuel ⟨cluster, remaining, content⟩ =
      .ok (content ++ ((clusters ++ [last]).flatMap v.bytesOf).take remaining) := by
  induction clusters generalizing cluster remaining content fuel with
  | nil =>
    obtain ⟨hchain, hwalkable, ⟨bytes, hbytes⟩, hlong⟩ := h
    cases hchain
    obtain ⟨fuel, rfl⟩ := Nat.exists_eq_add_of_lt hfuel
    rw [iterate, fileStep_last hwalkable hbytes (by simpa using hlong)]
    simp [bytesOf_eq hbytes]
  | cons c clusters ih =>
    cases h.chain with
    | @cons _ next _ bytes _ hc hbytes _ hlink hrest =>
      obtain ⟨fuel, rfl⟩ := Nat.exists_eq_add_of_lt hfuel
      have hlen := length_clusterBytes hbytes
      rw [iterate, List.cons_append, List.flatMap_cons, bytesOf_eq hbytes, List.take_append, hlen]
      by_cases hlast : remaining ≤ v.geometry.clusterSize
      · rw [fileStep_last hc hbytes hlast, Nat.sub_eq_zero_of_le hlast]
        simp
      · have hmore := Nat.not_le.mp hlast
        rw [fileStep_link hc hbytes hmore, hlink, List.take_of_length_le (hlen.le.trans hmore.le),
          ← List.append_assoc]
        exact ih (h.tail hlink) (by simp; omega)

theorem iterate_fileStep_short (hchain : v.Chain (fun _ => True) cluster clusters last)
    (hend : ¬ Walkable last) (hshort : clusters.length * v.geometry.clusterSize < remaining)
    {fuel : ℕ} (hfuel : clusters.length < fuel) :
    iterate v.fileStep fuel ⟨cluster, remaining, content⟩ =
      .ok (content ++ clusters.flatMap v.bytesOf) := by
  induction hchain generalizing remaining content fuel with
  | nil c =>
    obtain ⟨fuel, rfl⟩ := Nat.exists_eq_add_of_lt hfuel
    rw [iterate, fileStep, if_neg hend]
    simp
  | @cons c next last bytes clusters hc hbytes _ hlink _ ih =>
    obtain ⟨fuel, rfl⟩ := Nat.exists_eq_add_of_lt hfuel
    rw [List.length_cons, Nat.succ_mul] at hshort
    rw [iterate, fileStep_link hc hbytes (by omega), hlink, List.flatMap_cons, bytesOf_eq hbytes,
      ← List.append_assoc]
    exact ih hend (by omega) (by simp; omega)

/-- The content is as long as the file, or as long as its chain if that ends before. -/
theorem length_of_iterate_fileStep {fuel : ℕ}
    (h : iterate v.fileStep fuel ⟨cluster, remaining, content⟩ = .ok result) :
    result.length = content.length + remaining ∨
      ∃ clusters last, v.Chain (fun _ => True) cluster clusters last ∧ ¬ Walkable last ∧
        clusters.length * v.geometry.clusterSize < remaining ∧
        result.length = content.length + clusters.length * v.geometry.clusterSize := by
  induction fuel generalizing cluster remaining content with
  | zero => cases h
  | succ fuel ih =>
    rw [iterate] at h
    by_cases hc : Walkable cluster
    swap
    · rw [fileStep, if_neg hc] at h
      obtain rfl := Result.ok.inj h
      rcases Nat.eq_zero_or_pos remaining with rfl | hpos
      · exact .inl rfl
      · exact .inr ⟨[], cluster, .nil cluster, hc, by simpa using hpos, by simp⟩
    cases hbytes : v.clusterBytes cluster with
    | error e =>
      rw [fileStep_error hc hbytes] at h
      cases h
    | ok bytes =>
      have hlen := length_clusterBytes hbytes
      by_cases hlast : remaining ≤ v.geometry.clusterSize
      · rw [fileStep_last hc hbytes hlast] at h
        obtain rfl := Result.ok.inj h
        left
        rw [List.length_append, List.length_take_of_le (hlast.trans hlen.ge)]
      have hmore := Nat.not_le.mp hlast
      rw [fileStep_link hc hbytes hmore] at h
      cases hlink : v.link cluster with
      | error e =>
        rw [hlink] at h
        cases h
      | ok next =>
        rw [hlink] at h
        rcases ih h with hfull | ⟨clusters, last, hchain, hend, hshort, hresult⟩
        · left
          rw [hfull, List.length_append, hlen]
          omega
        · refine .inr ⟨cluster :: clusters, last, .cons hc hbytes trivial hlink hchain, hend, ?_, ?_⟩
          · rw [List.length_cons, Nat.succ_mul]
            omega
          · rw [hresult, List.length_append, List.length_cons, Nat.succ_mul, hlen]
            omega

theorem HoldsFile.readFileContent_eq {heap : Heap} {fileSize : ℕ} (h : v.HoldsFile heap fileSize)
    (checks : Bool) {fuel startCluster : ℕ}
    (hrun : iterate v.fileStep fuel ⟨startCluster, fileSize, []⟩ = .ok bytes) :
    ∃ ptr, (readFileContent checks v.geometry fuel startCluster fileSize (v.start heap)).1 =
      .ok ⟨ptr, fileSize, bytes⟩ := by
  obtain ⟨ptr, hends⟩ := h.readFileContent_ends [] checks fuel startCluster
  refine ⟨ptr, ?_⟩
  rw [(hends _ (v.at_start heap)).1, hrun, Result.ok_bind]

theorem holdsFile_of_readFileContent {heap : Heap} {checks : Bool}
    {fuel startCluster fileSize : ℕ} {vec : ByteVec}
    (h : (readFileContent checks v.geometry fuel startCluster fileSize (v.start heap)).1 = .ok vec) :
    v.HoldsFile heap fileSize := by
  by_contra hfull
  rw [(readFileContent_fails checks fuel startCluster fileSize hfull _ (v.at_start heap)).1] at h
  cases h

/-- A volume with two files. `a.txt` has 600 bytes in clusters 3 and 4; `bad.txt` claims 2000 bytes
and has cluster 5 alone. -/
def twoFiles : Volume RamBlockDevice :=
  small 2 (fatSectorOf [0, 0, 0x0FFFFFFF, 4, 0x0FFFFFFF, 0x0FFFFFFF])
    [sectorOf (
      directoryEntry [0x41, 0x20, 0x20, 0x20, 0x20, 0x20, 0x20, 0x20, 0x54, 0x58, 0x54] 0x20 3 600 ++
      directoryEntry [0x42, 0x41, 0x44, 0x20, 0x20, 0x20, 0x20, 0x20, 0x54, 0x58, 0x54] 0x20 5 2000),
    sectorOf (List.replicate 512 0x61), sectorOf (List.replicate 512 0x62),
    sectorOf (List.replicate 512 0x63)]

/-- A file of the volume is looked up on every heap. -/
theorem fat32_lookups_end_iff_twoFiles :
    ['/', 'a', '.', 't', 'x', 't'].length < 2 ^ 45 ∧
      ∀ heap, ∃ fuel, (resolvePath false asciiLowercase twoFiles.geometry fuel
        ['/', 'a', '.', 't', 'x', 't'] (twoFiles.start heap)).1 ≠ .running := by
  have hends : ∃ fuel, iterate (twoFiles.dirStep asciiLowercase ['a', '.', 't', 'x', 't']) fuel
      twoFiles.geometry.rootCluster.toNat ≠ .running := ⟨1, by decide +kernel⟩
  have hparts : (['/', 'a', '.', 't', 'x', 't'].dropWhile (· = '/')).splitOn '/' =
      [['a', '.', 't', 'x', 't']] := by decide
  refine ⟨by decide, ?_⟩
  refine ((fat32_lookups_end_iff twoFiles false asciiLowercase).2.1 _ (by decide)).mpr fun _ => ?_
  rw [hparts]
  exact ⟨dir_returns_iff.mp hends, fun _ _ hrest => absurd rfl hrest⟩

theorem twoFiles_covers : twoFiles.Covers 3 [3] 4 600 := by
  have hfirst : twoFiles.clusterBytes 3 = .ok (List.replicate 512 0x61) := by decide +kernel
  have hlast : twoFiles.clusterBytes 4 = .ok (List.replicate 512 0x62) := by decide +kernel
  have hlink : twoFiles.link 3 = .ok 4 := by decide
  exact ⟨.cons (by decide) hfirst trivial hlink (.nil 4), by decide, ⟨_, hlast⟩, by decide⟩

theorem bootHeap_mapped : bootHeap.heap.Mapped := ⟨by decide, by decide, by decide⟩

theorem twoFiles_holdsFile : twoFiles.HoldsFile bootHeap.heap 600 := by
  constructor <;> exact (Heap.allocBytes_isSome_iff _ _).mp (by decide)

theorem exists_sectorsFrom {sector n : ℕ} (h : ∀ i < n, ∃ buf, v.content (sector + i) = .ok buf) :
    ∃ bytes, v.sectorsFrom sector n = .ok bytes := by
  induction n generalizing sector with
  | zero => exact ⟨[], rfl⟩
  | succ n ih =>
    obtain ⟨buf, hbuf⟩ := h 0 (Nat.succ_pos n)
    rw [Nat.add_zero] at hbuf
    obtain ⟨rest, hrest⟩ := @ih (sector + 1) fun i hi => by
      rw [Nat.add_assoc, Nat.add_comm 1 i]
      exact h (i + 1) (Nat.succ_lt_succ hi)
    refine ⟨buf.toList ++ rest, ?_⟩
    rw [sectorsFrom_succ hbuf, hrest]
    rfl

theorem chain_range' {first n : ℕ} (h : ∀ i < n, Walkable (first + i) ∧
    (∃ bytes, v.clusterBytes (first + i) = .ok bytes) ∧ v.link (first + i) = .ok (first + i + 1)) :
    v.Chain (fun _ => True) first (List.range' first n) (first + n) := by
  induction n generalizing first with
  | zero => exact .nil first
  | succ n ih =>
    obtain ⟨hwalkable, ⟨bytes, hbytes⟩, hlink⟩ := h 0 (Nat.succ_pos n)
    have hrest := @ih (first + 1) fun i hi => by
      rw [Nat.add_assoc, Nat.add_comm 1 i]
      exact h (i + 1) (Nat.succ_lt_succ hi)
    rw [List.range'_succ, Nat.add_comm n 1, ← Nat.add_assoc]
    exact .cons hwalkable hbytes trivial hlink hrest

def largeFile : Volume RamBlockDevice :=
  ofRam (mount_smallVolume 128 2
    (fatSectorOf [0, 0, 3, 4, 5, 6, 7, 8, 9, 10, 11, 12, 0x0FFFFFFF])
    (List.replicate 1408 (sectorOf [])))

theorem largeFile_readable {c : ℕ} (hlow : 2 ≤ c) (hhigh : c ≤ 12) :
    ∃ bytes, largeFile.clusterBytes c = .ok bytes := by
  apply exists_sectorsFrom
  intro i hi
  have hsector : dataSector largeFile.geometry c + i = (c - 2) * 128 + i + 2 := by
    change 2 + (c - 2) * 128 + i = _
    omega
  have hi' : i < 128 := hi
  refine ⟨sectorOf [], ?_⟩
  rw [hsector]
  change ((smallVolume 128 2 _ _).readSector _).1 = _
  unfold RamBlockDevice.readSector smallVolume
  dsimp only
  rw [List.getElem?_cons_succ, List.getElem?_cons_succ, List.getElem?_replicate, if_pos (by omega)]

theorem largeFile_covers : largeFile.Covers 2 (List.range' 2 10) 12 655361 := by
  have hlinks : ∀ i < 10, largeFile.link (2 + i) = .ok (2 + i + 1) := by decide
  refine ⟨chain_range' fun i hi => ⟨⟨by omega, by omega⟩, ?_, hlinks i hi⟩, by decide, ?_, by decide⟩
  · exact largeFile_readable (by omega) (by omega)
  · exact largeFile_readable (by decide) (by decide)

end MitosOS.Fs.Volume
