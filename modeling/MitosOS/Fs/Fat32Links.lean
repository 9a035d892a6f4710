import MitosOS.Fs.Fat32Files
import MitosOS.Fs.Fat32Safety

/-! Which links the driver reads. The clusters come from the boot sector, from directory entries and
from the FAT itself, and none of them is compared with the size of the FAT. -/
namespace MitosOS.Fs
open MitosOS.Lib MitosOS.Lib.Action MitosOS.Memory

def LinksInside (g : Fat32Geometry) (log : List Access) : Prop :=
  ∀ cluster sector, .link cluster sector ∈ log →
    g.firstFatSector ≤ sector ∧ sector < g.firstFatSector + g.sectorsPerFat.toNat

def HasLink (g : Fat32Geometry) (cluster : ℕ) : Prop := cluster < 128 * g.sectorsPerFat.toNat

instance (g : Fat32Geometry) (cluster : ℕ) : Decidable (HasLink g cluster) :=
  inferInstanceAs (Decidable (_ < _))

theorem fatSector_lt_iff (g : Fat32Geometry) (cluster : ℕ) :
    fatSector g cluster < g.firstFatSector + g.sectorsPerFat.toNat ↔ HasLink g cluster := by
  unfold fatSector HasLink
  omega

theorem Session.mem_links {D : Type*} {s : Session D} {cluster : ℕ} :
    cluster ∈ s.links ↔ ∃ sector, .link cluster sector ∈ s.log := by
  unfold links
  rw [List.mem_flatMap]
  constructor
  · rintro ⟨access, haccess, hmem⟩
    cases access with
    | link c sector =>
      obtain rfl := List.mem_singleton.mp hmem
      exact ⟨sector, haccess⟩
    | data sector => exact absurd hmem List.not_mem_nil
  · rintro ⟨sector, hsector⟩
    exact ⟨_, hsector, List.mem_singleton.mpr rfl⟩

theorem Session.Sound.linksInside_iff {D : Type*} {g : Fat32Geometry} {s : Session D}
    (hs : s.Sound g) : LinksInside g s.log ↔ ∀ cluster ∈ s.links, HasLink g cluster := by
  constructor
  · intro h cluster hcluster
    obtain ⟨sector, hsector⟩ := Session.mem_links.mp hcluster
    obtain ⟨-, rfl⟩ := hs _ hsector
    exact (fatSector_lt_iff g cluster).mp (h cluster _ hsector).2
  · intro h cluster sector hsector
    obtain ⟨-, rfl⟩ := hs _ hsector
    exact ⟨Nat.le_add_right _ _,
      (fatSector_lt_iff g cluster).mpr (h cluster (Session.mem_links.mpr ⟨_, hsector⟩))⟩

namespace Volume
variable {D : Type*} [BlockDevice D] {v : Volume D} {lower : Lowercase} {cluster c remaining : ℕ}
  {heap : Heap} {parts : List (List Char)} {content : List Byte}

/-- The clusters whose links are read when the parts of a path are looked up: those of every
directory up to the cluster that holds the part. -/
def PathLinks (v : Volume D) (lower : Lowercase) : List (List Char) → ℕ → ℕ → Prop
  | [], _, _ => False
  | part :: rest, cluster, c =>
    v.Reaches (NoMatch lower part) cluster c ∨
      ∃ entry, v.Finds lower part cluster entry ∧ rest ≠ [] ∧ entry.isDirectory = true ∧
        PathLinks v lower rest entry.startingCluster c

/-- The clusters whose links are read for a file: those that leave bytes to read. -/
def FileLinks (v : Volume D) (startCluster fileSize c : ℕ) : Prop :=
  ∃ clusters, v.Chain (fun _ => True) startCluster clusters c ∧ Walkable c ∧
    (∃ bytes, v.clusterBytes c = .ok bytes) ∧
    (clusters.length + 1) * v.geometry.clusterSize < fileSize

theorem pathLinks_of_mem {fuel : ℕ} (h : c ∈ v.resolveTrail lower fuel parts cluster heap) :
    v.PathLinks lower parts cluster c := by
  induction parts generalizing cluster heap with
  | nil => exact absurd h List.not_mem_nil
  | cons part rest ih =>
    cases halloc : heap.allocBytes v.geometry.clusterSize with
    | none =>
      rw [(resolve_of_none halloc).2] at h
      exact absurd h List.not_mem_nil
    | some x =>
      by_cases hfound : ∃ entry, iterate (v.dirStep lower part) fuel cluster = .ok entry ∧
          rest ≠ [] ∧ entry.isDirectory = true
      · obtain ⟨entry, hentry, hrest, hdir⟩ := hfound
        rw [resolveTrail_of_found halloc hentry hrest hdir] at h
        rcases List.mem_append.mp h with hhere | hlater
        · exact .inl (mem_walk_trail_iff.mp ⟨fuel, hhere⟩)
        · exact .inr ⟨entry, finds_iff.mp ⟨fuel, hentry⟩, hrest, hdir, ih hlater⟩
      · rw [resolveTrail_of_some halloc fun entry hentry => by
          by_contra hmore
          rw [not_or, Bool.not_eq_false] at hmore
          exact hfound ⟨entry, hentry, hmore⟩] at h
        exact .inl (mem_walk_trail_iff.mp ⟨fuel, h⟩)

theorem mem_resolveTrail_mono {fuel fuel' : ℕ} (hle : fuel ≤ fuel')
    (h : c ∈ v.resolveTrail lower fuel parts cluster heap) :
    c ∈ v.resolveTrail lower fuel' parts cluster heap := by
  induction parts generalizing cluster heap with
  | nil => exact h
  | cons part rest ih =>
    unfold resolveTrail at h ⊢
    split at h
    · exact absurd h List.not_mem_nil
    · rcases List.mem_append.mp h with hhere | hlater
      · exact List.mem_append_left _ (mem_trail_mono hle hhere)
      · apply List.mem_append_right
        split at hlater
        · rename_i entry hentry
          rw [iterate_mono (by simp [hentry]) hle, hentry]
          dsimp only
          split_ifs at hlater ⊢
          · exact hlater
          · exact ih hlater
        · exact absurd hlater List.not_mem_nil

theorem exists_mem_resolveTrail (hroom : heap.Room (2 ^ 17 * parts.length))
    (h : v.PathLinks lower parts cluster c) :
    ∃ fuel, c ∈ v.resolveTrail lower fuel parts cluster heap := by
  induction parts generalizing cluster heap with
  | nil => exact absurd h id
  | cons part rest ih =>
    rw [List.length_cons, Nat.mul_succ, Nat.add_comm] at hroom
    obtain ⟨ptr, heap', halloc, hrest⟩ := allocCluster_of_room (v := v) hroom
    rcases h with hreaches | ⟨entry, hfinds, hmore, hdir, hlater⟩
    · obtain ⟨fuel, hmem⟩ := mem_walk_trail_iff.mpr hreaches
      refine ⟨fuel, ?_⟩
      rw [resolveTrail, halloc]
      exact List.mem_append_left _ hmem
    · obtain ⟨fuel, hentry⟩ := finds_iff.mpr hfinds
      obtain ⟨fuel', hmem⟩ := ih (hrest.freeBytes ptr v.geometry.clusterSize) hlater
      have hentry' : iterate (v.dirStep lower part) (max fuel fuel') cluster = .ok entry := by
        rw [iterate_mono (by simp [hentry]) (le_max_left fuel fuel'), hentry]
      refine ⟨max fuel fuel', ?_⟩
      rw [resolveTrail_of_found halloc hentry' hmore hdir]
      exact List.mem_append_right _ (mem_resolveTrail_mono (le_max_right fuel fuel') hmem)

theorem fileStep_moves_iff {u : FilePosition} :
    Moves v.fileStep ⟨cluster, remaining, content⟩ u ↔
      Walkable cluster ∧ ∃ bytes, v.clusterBytes cluster = .ok bytes ∧
        v.geometry.clusterSize < remaining ∧ v.link cluster = .ok u.cluster ∧
        u.remaining = remaining - v.geometry.clusterSize ∧ u.content = content ++ bytes := by
  unfold Moves
  by_cases hc : Walkable cluster
  swap
  · simp [fileStep, hc]
  cases hbytes : v.clusterBytes cluster with
  | error e => simp [fileStep_error hc hbytes]
  | ok bytes =>
    by_cases hlast : remaining ≤ v.geometry.clusterSize
    · simp [fileStep_last hc hbytes hlast, Nat.not_lt.mpr hlast]
    have hmore := Nat.not_le.mp hlast
    rw [fileStep_link hc hbytes hmore]
    obtain ⟨next, remaining', content'⟩ := u
    cases hlink : v.link cluster with
    | error e => simp [Result.ofExcept]
    | ok next' => simp [Result.ofExcept, hc, hmore, eq_comm]

theorem chain_of_moves {t u : FilePosition} (h : Relation.ReflTransGen (Moves v.fileStep) t u) :
    ∃ clusters, v.Chain (fun _ => True) t.cluster clusters u.cluster ∧
      clusters.length * v.geometry.clusterSize + u.remaining = t.remaining := by
  induction h using Relation.ReflTransGen.head_induction_on with
  | refl => exact ⟨[], .nil _, by simp⟩
  | head hmove _ ih =>
    obtain ⟨clusters, hchain, hsum⟩ := ih
    obtain ⟨hc, bytes, hbytes, hmore, hlink, hremaining, -⟩ := fileStep_moves_iff.mp hmove
    refine ⟨_, .cons hc hbytes trivial hlink hchain, ?_⟩
    rw [List.length_cons, Nat.succ_mul]
    omega

theorem Chain.exists_moves {last : ℕ} {clusters : List ℕ}
    (h : v.Chain (fun _ => True) cluster clusters last)
    (hmore : clusters.length * v.geometry.clusterSize < remaining) :
    ∃ u : FilePosition,
      Relation.ReflTransGen (Moves v.fileStep) ⟨cluster, remaining, content⟩ u ∧ u.cluster = last ∧
        clusters.length * v.geometry.clusterSize + u.remaining = remaining := by
  induction h generalizing remaining content with
  | nil c => exact ⟨_, .refl, rfl, by simp⟩
  | @cons c next last bytes clusters hc hbytes _ hlink _ ih =>
    rw [List.length_cons, Nat.succ_mul] at hmore ⊢
    obtain ⟨u, hto, hlast, hsum⟩ := @ih (remaining - v.geometry.clusterSize) (content ++ bytes)
      (by omega)
    refine ⟨u, hto.head (fileStep_moves_iff.mpr ⟨hc, bytes, hbytes, ?_, hlink, rfl, rfl⟩), hlast, ?_⟩
    · omega
    · omega

theorem mem_fileMark {t : FilePosition} : c ∈ v.fileMark t ↔
    c = t.cluster ∧ v.geometry.clusterSize < t.remaining ∧ Walkable t.cluster ∧
      ∃ bytes, v.clusterBytes t.cluster = .ok bytes := by
  unfold fileMark
  split_ifs with hmore
  · simp [mem_walkMark, hmore]
  · simp [hmore]

theorem mem_file_trail_iff {startCluster fileSize : ℕ} :
    (∃ fuel, c ∈ trail v.fileStep v.fileMark fuel ⟨startCluster, fileSize, []⟩) ↔
      v.FileLinks startCluster fileSize c := by
  rw [mem_trail_iff]
  constructor
  · rintro ⟨u, hto, hmark⟩
    obtain ⟨rfl, hmore, hc, hbytes⟩ := mem_fileMark.mp hmark
    obtain ⟨clusters, hchain, hsum⟩ := chain_of_moves hto
    refine ⟨clusters, hchain, hc, hbytes, ?_⟩
    rw [Nat.succ_mul]
    dsimp only at hsum
    omega
  · rintro ⟨clusters, hchain, hc, hbytes, hmore⟩
    rw [Nat.succ_mul] at hmore
    obtain ⟨u, hto, rfl, hsum⟩ := @Chain.exists_moves _ _ v _ fileSize [] _ _ hchain (by omega)
    exact ⟨u, hto, mem_fileMark.mpr ⟨rfl, by omega, hc, hbytes⟩⟩

/-- Exactly when links are read only in the FAT. A path lookup follows the links of the root directory
and of the directories on the path, up to the cluster with the entry; a file read follows those of the
file while bytes are left. All the clusters it comes to must have an entry in the FAT. -/
theorem next_cluster_inside_iff (v : Volume D) (checks : Bool) (lower : Lowercase) :
    (∀ path, path.length < 2 ^ 45 →
      ((∀ heap fuel, LinksInside v.geometry
          (resolvePath checks lower v.geometry fuel path (v.start heap)).2.log) ↔
        (path.dropWhile (· = '/') ≠ [] → ∀ c, v.PathLinks lower
          ((path.dropWhile (· = '/')).splitOn '/') v.geometry.rootCluster.toNat c →
          HasLink v.geometry c))) ∧
    ∀ startCluster (fileSize : BitVec 32),
      (∀ heap fuel, LinksInside v.geometry (readFileContent checks v.geometry fuel startCluster
          fileSize.toNat (v.start heap)).2.log) ↔
        ∀ c, v.FileLinks startCluster fileSize.toNat c → HasLink v.geometry c := by
  have hstart : ∀ heap, Session.Sound v.geometry (v.start heap) :=
    Session.sound_of_nil v.geometry v.device
  refine ⟨fun path hlength => ?_, fun startCluster fileSize => ?_⟩
  · by_cases hpath : path.dropWhile (· = '/') = []
    · refine iff_of_true (fun heap fuel => ?_) (absurd hpath)
      rw [resolvePath_root lower fuel hpath]
      exact fun _ _ h => absurd h List.not_mem_nil
    rw [forall_prop_of_true hpath]
    have hinside : ∀ heap fuel, LinksInside v.geometry
        (resolvePath checks lower v.geometry fuel path (v.start heap)).2.log ↔
          ∀ c ∈ v.resolveTrail lower fuel ((path.dropWhile (· = '/')).splitOn '/')
            v.geometry.rootCluster.toNat heap, HasLink v.geometry c := by
      intro heap fuel
      rw [(resolvePath_keeps checks lower v.bounded fuel path _ (hstart heap)).2.1.linksInside_iff,
        resolvePath_eq lower fuel hpath,
        (resolveParts_ends checks fuel _ _ heap [] _ (v.at_start heap)).2, List.nil_append]
    simp only [hinside]
    constructor
    · intro h c hc
      obtain ⟨heap, hroom⟩ := exists_pathRoom hlength
      obtain ⟨fuel, hmem⟩ := exists_mem_resolveTrail hroom hc
      exact h heap fuel c hmem
    · exact fun h heap fuel c hmem => h c (pathLinks_of_mem hmem)
  · have hkept : ∀ heap fuel, Session.Sound v.geometry (readFileContent checks v.geometry fuel
        startCluster fileSize.toNat (v.start heap)).2 := fun heap fuel =>
      (readFileContent_keeps v.bounded fuel startCluster fileSize.toNat _ (hstart heap)).2.1
    simp only [(hkept _ _).linksInside_iff]
    constructor
    · intro h c hc
      obtain ⟨heap, hholds⟩ := v.exists_holdsFile fileSize.isLt
      obtain ⟨fuel, hmem⟩ := mem_file_trail_iff.mpr hc
      obtain ⟨ptr, hends⟩ := hholds.readFileContent_ends [] checks fuel startCluster
      apply h heap fuel c
      rw [(hends _ (v.at_start heap)).2, List.nil_append]
      exact hmem
    · intro h heap fuel c hmem
      by_cases hholds : v.HoldsFile heap fileSize.toNat
      · obtain ⟨ptr, hends⟩ := hholds.readFileContent_ends [] checks fuel startCluster
        rw [(hends _ (v.at_start heap)).2, List.nil_append] at hmem
        exact h c (mem_file_trail_iff.mp ⟨fuel, hmem⟩)
      · rw [(readFileContent_fails checks fuel startCluster _ hholds _ (v.at_start heap)).2] at hmem
        exact absurd hmem List.not_mem_nil

theorem twoFiles_pathLinks {c : ℕ} (h : twoFiles.PathLinks asciiLowercase [['z']] 2 c) : c = 2 := by
  have hlink : twoFiles.link 2 = .ok 0x0FFFFFFF := by decide
  rcases h with ⟨clusters, bytes, hchain, hc, -, -⟩ | ⟨entry, -, hmore, -⟩
  · cases hchain with
    | nil => rfl
    | cons _ _ _ hlink' hrest =>
      obtain rfl := Except.ok.inj (hlink.symm.trans hlink')
      cases hrest with
      | nil => exact absurd hc (by decide)
      | cons hc' => exact absurd hc' (by decide)
  · exact absurd rfl hmore

theorem twoFiles_fileLinks {c : ℕ} (h : twoFiles.FileLinks 3 600 c) : c = 3 := by
  obtain ⟨clusters, hchain, -, -, hmore⟩ := h
  cases hchain with
  | nil => rfl
  | cons _ _ _ _ hrest =>
    have hsize : twoFiles.geometry.clusterSize = 512 := rfl
    rw [List.length_cons, hsize] at hmore
    omega

/-- On the volume with two files, looking up a name that is not there reads the link of the root
directory, and reading `a.txt` the link of its first cluster. Both are in the FAT. -/
theorem next_cluster_inside_iff_twoFiles :
    (∀ heap fuel, LinksInside twoFiles.geometry
      (resolvePath false asciiLowercase twoFiles.geometry fuel ['z'] (twoFiles.start heap)).2.log) ∧
    ∀ heap fuel, LinksInside twoFiles.geometry
      (readFileContent false twoFiles.geometry fuel 3 600 (twoFiles.start heap)).2.log := by
  obtain ⟨hpath, hfile⟩ := next_cluster_inside_iff twoFiles false asciiLowercase
  refine ⟨(hpath ['z'] (by decide)).mpr fun _ c hc => ?_, (hfile 3 600).mpr fun c hc => ?_⟩
  · rw [twoFiles_pathLinks hc]
    decide
  · rw [twoFiles_fileLinks hc]
    decide

end Volume

/-- The link of cluster 128 is read from sector 2, which holds the data of cluster 2. -/
theorem next_cluster_reads_file_data :
    ∃ fs, Fat32FileSystem.mount highRootVolume = .ok fs ∧
      (resolvePath false asciiLowercase fs.geometry 2 ['a']
        ⟨highRootVolume, bootHeap.heap, []⟩).2.log = [.data 128, .link 128 2] ∧
      dataSector fs.geometry 2 = 2 ∧
      fs.geometry.firstFatSector + fs.geometry.sectorsPerFat.toNat = 2 :=
  ⟨_, mount_smallVolume _ _ _ _, by decide +kernel, rfl, rfl⟩

end MitosOS.Fs
