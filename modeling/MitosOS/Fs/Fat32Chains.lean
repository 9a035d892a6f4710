import MitosOS.Fs.Fat32
import MitosOS.Lib.Lists

/-! Cluster chains on a disk that does not change. There the driver computes a function of the
disk's contents: a walk along the links of the FAT. -/
namespace MitosOS.Fs
open MitosOS.Lib MitosOS.Lib.Action MitosOS.Memory

def Access.links : Access → List ℕ
  | .link cluster _ => [cluster]
  | .data _ => []

def Session.links {D : Type*} (s : Session D) : List ℕ := s.log.flatMap Access.links

/-- A mounted volume on a device whose reads depend on the sector alone. -/
structure Volume (D : Type*) [BlockDevice D] where
  device : D
  geometry : Fat32Geometry
  content : ℕ → Except String Sector
  stable : ∀ sector, BlockDevice.readSector device sector = (content sector, device)
  mounted : Fat32FileSystem.mount device = .ok ⟨device, geometry⟩

namespace Volume
variable {D : Type*} [BlockDevice D] (v : Volume D)

def start (heap : Heap) : Session D := ⟨v.device, heap, []⟩

/-- A session on the volume with this heap, in which the links of these clusters were read. -/
structure At (heap : Heap) (links : List ℕ) (s : Session D) : Prop where
  device : s.device = v.device
  heap : s.heap = heap
  links : s.links = links

def sectorsFrom : ℕ → ℕ → Except String (List Byte)
  | _, 0 => .ok []
  | sector, n + 1 => do
    let buf ← v.content sector
    let rest ← sectorsFrom (sector + 1) n
    return buf.toList ++ rest

def clusterBytes (cluster : ℕ) : Except String (List Byte) :=
  v.sectorsFrom (dataSector v.geometry cluster) v.geometry.spc

def link (cluster : ℕ) : Except String ℕ := do
  let buf ← v.content (fatSector v.geometry cluster)
  return linkIn buf cluster

theorem at_start (heap : Heap) : v.At heap [] (v.start heap) := ⟨rfl, rfl, rfl⟩

variable {v} {cluster next : ℕ} {bytes : List Byte} {heap : Heap} {links : List ℕ}

theorem content_boot (v : Volume D) :
    ∃ boot, v.content 0 = .ok boot ∧ readGeometry boot = .ok v.geometry := by
  obtain ⟨boot, hread, hboot⟩ := Fat32FileSystem.mount_eq_ok.mp v.mounted
  rw [v.stable] at hread
  exact ⟨boot, (Prod.mk.inj hread).1, hboot⟩

/-- By the fields of the boot sector, the data of the clusters stands behind the reserved sectors and
all FATs, and the links of the clusters in the first FAT. -/
theorem layout_of_boot {boot : Sector} (h : v.content 0 = .ok boot) (cluster : ℕ) :
    v.clusterBytes cluster = v.sectorsFrom ((boot[15]! ++ boot[14]! : BitVec 16).toNat +
        boot[16]!.toNat * (boot[39]! ++ boot[38]! ++ boot[37]! ++ boot[36]! : BitVec 32).toNat +
        (cluster - 2) * boot[13]!.toNat) boot[13]!.toNat ∧
      v.link cluster = (v.content ((boot[15]! ++ boot[14]! : BitVec 16).toNat + cluster * 4 / 512)).map
        (linkIn · cluster) := by
  obtain ⟨boot', hboot', hgeometry⟩ := v.content_boot
  obtain rfl := Except.ok.inj (h.symm.trans hboot')
  unfold readGeometry at hgeometry
  dsimp only at hgeometry
  split_ifs at hgeometry
  unfold clusterBytes link dataSector fatSector Fat32Geometry.spc
  rw [← Except.ok.inj hgeometry]
  have hbyte : ∀ i, (hi : i < 512) → boot[i]! = boot[i] := fun i hi => getElem!_pos boot i hi
  rw [hbyte 13 (by decide), hbyte 14 (by decide), hbyte 15 (by decide), hbyte 16 (by decide),
    hbyte 36 (by decide), hbyte 37 (by decide), hbyte 38 (by decide), hbyte 39 (by decide)]
  exact ⟨rfl, rfl⟩

theorem bounded (v : Volume D) : v.geometry.Bounded := Fat32FileSystem.mount_bounded v.mounted

theorem link_lt (h : v.link cluster = .ok next) : next < 2 ^ 28 := by
  unfold link at h
  cases hbuf : v.content (fatSector v.geometry cluster) with
  | error e =>
    rw [hbuf] at h
    cases h
  | ok buf =>
    rw [hbuf] at h
    cases h
    exact linkIn_lt buf cluster

theorem sectorsFrom_succ {sector : ℕ} {buf : Sector} (h : v.content sector = .ok buf) (n : ℕ) :
    v.sectorsFrom sector (n + 1) = (v.sectorsFrom (sector + 1) n).map (buf.toList ++ ·) := by
  rw [sectorsFrom, h]
  cases v.sectorsFrom (sector + 1) n <;> rfl

theorem sectorsFrom_error {sector : ℕ} {e : String} (h : v.content sector = .error e) (n : ℕ) :
    v.sectorsFrom sector (n + 1) = .error e := by
  rw [sectorsFrom, h]
  rfl

theorem length_sectorsFrom {sector n : ℕ} (h : v.sectorsFrom sector n = .ok bytes) :
    bytes.length = n * 512 := by
  induction n generalizing sector bytes with
  | zero =>
    cases h
    rfl
  | succ n ih =>
    cases hbuf : v.content sector with
    | error e =>
      rw [sectorsFrom_error hbuf] at h
      cases h
    | ok buf =>
      rw [sectorsFrom_succ hbuf] at h
      cases hrest : v.sectorsFrom (sector + 1) n with
      | error e =>
        rw [hrest] at h
        cases h
      | ok rest =>
        rw [hrest] at h
        cases h
        rw [List.length_append, Vector.length_toList, ih hrest]
        omega

theorem length_clusterBytes (h : v.clusterBytes cluster = .ok bytes) :
    bytes.length = v.geometry.clusterSize := length_sectorsFrom h

theorem readSector_ends (v : Volume D) (heap : Heap) (links : List ℕ) (access : Access) :
    Ends (v.At heap links) (readSector access) (.ofExcept (v.content access.sector))
      (v.At heap (links ++ access.links)) := by
  rintro ⟨device, heap, log⟩ ⟨rfl, rfl, rfl⟩
  unfold readSector
  rw [v.stable]
  refine ⟨rfl, rfl, rfl, ?_⟩
  change (log ++ [access]).flatMap Access.links = log.flatMap Access.links ++ access.links
  rw [List.flatMap_append, List.flatMap_singleton]

theorem readData_gives (v : Volume D) (heap : Heap) (links : List ℕ) (sector : ℕ) :
    Gives (v.At heap links) (readSector (.data sector)) (.ofExcept (v.content sector)) := by
  have hread := v.readSector_ends heap links (.data sector)
  rwa [Access.links, List.append_nil] at hread

theorem nextCluster_ends (v : Volume D) (heap : Heap) (links : List ℕ) (checks : Bool)
    (hc : Walkable cluster) :
    Ends (v.At heap links) (nextCluster checks v.geometry cluster) (.ofExcept (v.link cluster))
      (v.At heap (links ++ [cluster])) := by
  rw [nextCluster_eq v.bounded hc]
  have hread := v.readSector_ends heap links (.link cluster (fatSector v.geometry cluster))
  unfold link
  rw [Access.sector, Access.links] at hread
  cases hbuf : v.content (fatSector v.geometry cluster) with
  | error e =>
    rw [hbuf] at hread
    exact hread.err_bind
  | ok buf =>
    rw [hbuf] at hread
    exact hread.ok_bind (gives_pure _)

theorem readSectors_gives (v : Volume D) (heap : Heap) (links : List ℕ) (checks : Bool)
    {startSector n i : ℕ} {buf : List Byte} (hstart : startSector < 2 ^ 42) (hi : i + n < 256)
    (hbuf : (i + n) * 512 ≤ buf.length) :
    Gives (v.At heap links) (readSectors checks startSector n i buf)
      (.ofExcept ((v.sectorsFrom (startSector + i) n).map fun bytes =>
        buf.take (i * 512) ++ bytes ++ buf.drop ((i + n) * 512))) := by
  induction n generalizing i buf with
  | zero =>
    have hresult : buf.take (i * 512) ++ [] ++ buf.drop ((i + 0) * 512) = buf := by simp
    rw [sectorsFrom, Except.map, hresult]
    exact gives_pure buf
  | succ n ih =>
    rw [← Nat.add_assoc] at hbuf hi
    rw [readSectors_succ hstart (by omega) hbuf]
    have hread := v.readData_gives heap links (startSector + i)
    cases hsector : v.content (startSector + i) with
    | error e =>
      rw [hsector] at hread
      rw [sectorsFrom_error hsector]
      exact Ends.err_bind hread
    | ok sectorBuf =>
      rw [hsector] at hread
      apply Ends.ok_bind hread
      have hstop : i * 512 + sectorBuf.toList.length = i * 512 + 512 := by
        rw [Vector.length_toList]
      have hle : i * 512 + 512 ≤ buf.length := by omega
      have hlen : (buf.take (i * 512) ++ sectorBuf.toList ++ buf.drop (i * 512 + 512)).length =
          buf.length := length_overwrite hstop hle
      have hrest := @ih (i + 1) (buf.take (i * 512) ++ sectorBuf.toList ++ buf.drop (i * 512 + 512))
        (by omega) (by rw [hlen, Nat.add_right_comm]; exact hbuf)
      -- the next sectors are written behind this one
      have hafter : i * 512 + 512 ≤ (i + 1 + n) * 512 := by
        rw [← Nat.succ_mul]
        exact Nat.mul_le_mul_right _ (Nat.le_add_right _ _)
      rw [Nat.succ_mul, take_overwrite hstop hle, drop_overwrite hstop hle hafter,
        Nat.add_right_comm i 1 n, ← Nat.add_assoc] at hrest
      rw [sectorsFrom_succ hsector]
      cases hbytes : v.sectorsFrom (startSector + i + 1) n with
      | error e =>
        rw [hbytes] at hrest
        exact hrest
      | ok bytes =>
        rw [hbytes] at hrest
        simp only [Except.map, List.append_assoc, Nat.add_assoc] at hrest ⊢
        exact hrest

theorem readCluster_gives (v : Volume D) (heap : Heap) (links : List ℕ) (checks : Bool)
    (hc : Walkable cluster) {buf : List Byte} (hbuf : buf.length = v.geometry.clusterSize) :
    Gives (v.At heap links) (readCluster checks v.geometry cluster buf)
      (.ofExcept (v.clusterBytes cluster)) := by
  rw [readCluster_eq v.bounded hc hbuf]
  have hspc := v.geometry.spc_lt
  have hsize : (0 + v.geometry.spc) * 512 = buf.length := by
    rw [hbuf, Nat.zero_add]
    rfl
  have hread := v.readSectors_gives heap links checks (dataSector_lt v.bounded hc) (by omega) hsize.le
  rw [hsize, List.drop_length] at hread
  unfold clusterBytes
  cases hbytes : v.sectorsFrom (dataSector v.geometry cluster) v.geometry.spc with
  | error e =>
    rw [Nat.add_zero, hbytes] at hread
    exact hread
  | ok bytes =>
    rw [Nat.add_zero, hbytes] at hread
    simpa [Except.map] using hread

section Walks
variable {α : Type} {f : List Byte → Option α} {stop : Result α} {P : List Byte → Prop}

/-- One cluster of a walk along the links of the FAT. The walk ends at a cluster where `f` finds
something, or with `stop` behind the last one. -/
def walkStep (v : Volume D) (f : List Byte → Option α) (stop : Result α) (cluster : ℕ) :
    Result (Round ℕ α) :=
  if Walkable cluster then
    (Result.ofExcept (v.clusterBytes cluster)).bind fun bytes =>
      match f bytes with
      | some a => .ok (.done a)
      | none => (Result.ofExcept (v.link cluster)).bind fun next => .ok (.next next)
  else stop.bind fun a => .ok (.done a)

/-- The link of a cluster is read when it can be read itself and `f` finds nothing in it. -/
def walkMark (v : Volume D) (f : List Byte → Option α) (cluster : ℕ) : List ℕ :=
  if Walkable cluster then
    match v.clusterBytes cluster with
    | .ok bytes => if (f bytes).isNone then [cluster] else []
    | .error _ => []
  else []

/-- The links lead from one cluster over the listed ones to `last`. All of them can be read, and
their bytes have `P`. -/
inductive Chain (v : Volume D) (P : List Byte → Prop) : ℕ → List ℕ → ℕ → Prop
  | nil (cluster : ℕ) : Chain v P cluster [] cluster
  | cons {cluster next last : ℕ} {bytes : List Byte} {clusters : List ℕ} :
      Walkable cluster → v.clusterBytes cluster = .ok bytes → P bytes → v.link cluster = .ok next →
      Chain v P next clusters last → Chain v P cluster (cluster :: clusters) last

/-- The links lead from one cluster to another one that can be read, and the bytes of all of them have
`P`. -/
def Reaches (v : Volume D) (P : List Byte → Prop) (cluster last : ℕ) : Prop :=
  ∃ clusters bytes, v.Chain P cluster clusters last ∧ Walkable last ∧
    v.clusterBytes last = .ok bytes ∧ P bytes

def Loops (v : Volume D) (P : List Byte → Prop) (cluster : ℕ) : Prop :=
  ∃ clusters again cycle, v.Chain P cluster clusters again ∧
    cycle ≠ [] ∧ v.Chain P again cycle again

theorem walkStep_error (hc : Walkable cluster) {e : String} (h : v.clusterBytes cluster = .error e) :
    v.walkStep f stop cluster = .err e := by
  rw [walkStep, if_pos hc, h]
  rfl

theorem walkStep_found (hc : Walkable cluster) (h : v.clusterBytes cluster = .ok bytes) {a : α}
    (hfound : f bytes = some a) : v.walkStep f stop cluster = .ok (.done a) := by
  simp only [walkStep, if_pos hc, h, Result.ofExcept, Result.ok_bind, hfound]

theorem walkStep_link (hc : Walkable cluster) (h : v.clusterBytes cluster = .ok bytes)
    (hfound : f bytes = none) :
    v.walkStep f stop cluster =
      (Result.ofExcept (v.link cluster)).bind fun next => .ok (.next next) := by
  simp only [walkStep, if_pos hc, h, Result.ofExcept, Result.ok_bind, hfound]

theorem walkStep_moves_iff : Moves (v.walkStep f stop) cluster next ↔
    Walkable cluster ∧ ∃ bytes, v.clusterBytes cluster = .ok bytes ∧ f bytes = none ∧
      v.link cluster = .ok next := by
  unfold Moves
  by_cases hc : Walkable cluster
  swap
  · rw [walkStep, if_neg hc]
    cases stop <;> simp [hc]
  cases hbytes : v.clusterBytes cluster with
  | error e => simp [walkStep_error hc hbytes]
  | ok bytes =>
    cases hfound : f bytes with
    | some a => simp [walkStep_found hc hbytes hfound, hfound]
    | none =>
      rw [walkStep_link hc hbytes hfound]
      cases hlink : v.link cluster <;> simp [Result.ofExcept, hc, hfound]

theorem walkStep_ne_running (hstop : stop ≠ .running) (cluster : ℕ) :
    v.walkStep f stop cluster ≠ .running := by
  unfold walkStep
  split_ifs
  · apply Result.bind_ne_running (Result.ofExcept_ne_running _)
    intro bytes
    cases f bytes with
    | some a => simp
    | none => exact Result.bind_ne_running (Result.ofExcept_ne_running _) (by simp)
  · exact Result.bind_ne_running hstop (by simp)

theorem reflTransGen_iff_chain {last : ℕ} :
    Relation.ReflTransGen (Moves (v.walkStep f stop)) cluster last ↔
      ∃ clusters, v.Chain (f · = none) cluster clusters last := by
  constructor
  · intro h
    induction h using Relation.ReflTransGen.head_induction_on with
    | refl => exact ⟨[], .nil last⟩
    | head hmove _ ih =>
      obtain ⟨clusters, hchain⟩ := ih
      obtain ⟨hc, bytes, hbytes, hfound, hlink⟩ := walkStep_moves_iff.mp hmove
      exact ⟨_, .cons hc hbytes hfound hlink hchain⟩
  · rintro ⟨clusters, hchain⟩
    induction hchain with
    | nil => exact .refl
    | cons hc hbytes hfound hlink _ ih =>
      exact .head (walkStep_moves_iff.mpr ⟨hc, _, hbytes, hfound, hlink⟩) ih

theorem cyclic_walkStep_iff : Cyclic (v.walkStep f stop) cluster ↔ v.Loops (f · = none) cluster := by
  constructor
  · rintro ⟨again, hto, hcycle⟩
    obtain ⟨next, hmove, hback⟩ := Relation.TransGen.head'_iff.mp hcycle
    obtain ⟨clusters, hchain⟩ := reflTransGen_iff_chain.mp hto
    obtain ⟨cycle, hcycle⟩ := reflTransGen_iff_chain.mp hback
    obtain ⟨hc, bytes, hbytes, hfound, hlink⟩ := walkStep_moves_iff.mp hmove
    exact ⟨clusters, again, again :: cycle, hchain, by simp, .cons hc hbytes hfound hlink hcycle⟩
  · rintro ⟨clusters, again, cycle, hchain, hne, hcycle⟩
    refine ⟨again, reflTransGen_iff_chain.mpr ⟨clusters, hchain⟩, ?_⟩
    cases hcycle with
    | nil => exact absurd rfl hne
    | cons hc hbytes hfound hlink hback =>
      exact .head' (walkStep_moves_iff.mpr ⟨hc, _, hbytes, hfound, hlink⟩)
        (reflTransGen_iff_chain.mpr ⟨_, hback⟩)

/-- A walk ends unless its links lead into a cycle. Links have 28 bits, so there are finitely many
clusters to come to. -/
theorem walk_returns_iff (hstop : stop ≠ .running) :
    (∃ fuel, iterate (v.walkStep f stop) fuel cluster ≠ .running) ↔
      ¬ v.Loops (f · = none) cluster := by
  rw [← cyclic_walkStep_iff]
  apply iterate_returns_iff (Set.finite_lt_nat (2 ^ 28))
  · intro c next hmove
    obtain ⟨-, _, -, -, hlink⟩ := walkStep_moves_iff.mp hmove
    exact link_lt hlink
  · exact walkStep_ne_running hstop

theorem walkMark_end (hc : ¬ Walkable cluster) : v.walkMark f cluster = [] := if_neg hc

theorem walkMark_error (hc : Walkable cluster) {e : String} (h : v.clusterBytes cluster = .error e) :
    v.walkMark f cluster = [] := by
  simp only [walkMark, if_pos hc, h]

theorem walkMark_found (hc : Walkable cluster) (h : v.clusterBytes cluster = .ok bytes) {a : α}
    (hfound : f bytes = some a) : v.walkMark f cluster = [] := by
  simp [walkMark, hc, h, hfound]

theorem walkMark_link (hc : Walkable cluster) (h : v.clusterBytes cluster = .ok bytes)
    (hfound : f bytes = none) : v.walkMark f cluster = [cluster] := by
  simp [walkMark, hc, h, hfound]

theorem mem_walkMark {c : ℕ} : c ∈ v.walkMark f cluster ↔
    c = cluster ∧ Walkable cluster ∧ ∃ bytes, v.clusterBytes cluster = .ok bytes ∧ f bytes = none := by
  by_cases hc : Walkable cluster
  swap
  · simp [walkMark_end hc, hc]
  cases hbytes : v.clusterBytes cluster with
  | error e => simp [walkMark_error hc hbytes]
  | ok bytes =>
    cases hf : f bytes with
    | some a => simp [walkMark_found hc hbytes hf, hf]
    | none => simp [walkMark_link hc hbytes hf, hc, hf]

theorem mem_walk_trail_iff {c : ℕ} :
    (∃ fuel, c ∈ trail (v.walkStep f stop) (v.walkMark f) fuel cluster) ↔
      v.Reaches (f · = none) cluster c := by
  rw [mem_trail_iff]
  constructor
  · rintro ⟨u, hto, hmark⟩
    obtain ⟨rfl, hc, bytes, hbytes, hf⟩ := mem_walkMark.mp hmark
    obtain ⟨clusters, hchain⟩ := reflTransGen_iff_chain.mp hto
    exact ⟨clusters, bytes, hchain, hc, hbytes, hf⟩
  · rintro ⟨clusters, bytes, hchain, hc, hbytes, hf⟩
    exact ⟨c, reflTransGen_iff_chain.mpr ⟨clusters, hchain⟩,
      mem_walkMark.mpr ⟨rfl, hc, bytes, hbytes, hf⟩⟩

end Walks

section Directories
variable {lower : Lowercase} {name : List Char}

def NoMatch (lower : Lowercase) (name : List Char) (bytes : List Byte) : Prop :=
  scan lower (lower.apply name) (entriesOf bytes) = none

def dirStep (v : Volume D) (lower : Lowercase) (name : List Char) :
    ℕ → Result (Round ℕ FatDirectoryEntry) :=
  v.walkStep (fun bytes => scan lower (lower.apply name) (entriesOf bytes))
    (.err "File or directory not found")

def dirMark (v : Volume D) (lower : Lowercase) (name : List Char) : ℕ → List ℕ :=
  v.walkMark fun bytes => scan lower (lower.apply name) (entriesOf bytes)

/-- The first cluster of the directory's chain with an entry for `name` has this one. -/
def Finds (v : Volume D) (lower : Lowercase) (name : List Char) (cluster : ℕ)
    (entry : FatDirectoryEntry) : Prop :=
  ∃ clusters last bytes, v.Chain (NoMatch lower name) cluster clusters last ∧ Walkable last ∧
    v.clusterBytes last = .ok bytes ∧ scan lower (lower.apply name) (entriesOf bytes) = some entry

theorem searchEntries_cluster (checks : Bool) (lower : Lowercase) (targetLower : List Char)
    (hbytes : bytes.length = v.geometry.clusterSize) :
    searchEntries checks lower bytes targetLower (v.geometry.clusterSize / 32) 0 =
      .ok (scan lower targetLower (entriesOf bytes)) := by
  have hspc := v.geometry.spc_lt
  have hsize : v.geometry.clusterSize = v.geometry.spc * 512 := rfl
  rw [searchEntries_eq lower targetLower (by omega) (by omega), ← hbytes]
  rfl

theorem findRound_ends (v : Volume D) (heap : Heap) (links : List ℕ) (checks : Bool)
    (lower : Lowercase) (name : List Char) {t : DirectoryWalk}
    (ht : t.buf.length = v.geometry.clusterSize) :
    ∃ r, Ends (v.At heap links) (findRound checks lower v.geometry (lower.apply name) t) r
        (v.At heap (links ++ v.dirMark lower name t.cluster)) ∧
      r.bind (fun x => .ok (x.map DirectoryWalk.cluster)) = v.dirStep lower name t.cluster ∧
      ∀ t', r = .ok (.next t') → t'.buf.length = v.geometry.clusterSize := by
  unfold dirStep dirMark findRound
  by_cases hc : Walkable t.cluster
  swap
  · rw [if_pos hc, walkStep, if_neg hc, walkMark_end hc, List.append_nil]
    exact ⟨_, gives_fail _, rfl, by simp⟩
  rw [if_neg (not_not.mpr hc)]
  have hread := v.readCluster_gives heap links checks hc ht
  cases hbytes : v.clusterBytes t.cluster with
  | error e =>
    rw [hbytes] at hread
    rw [walkStep_error hc hbytes, walkMark_error hc hbytes, List.append_nil]
    exact ⟨_, Ends.err_bind hread, rfl, by simp⟩
  | ok bytes =>
    rw [hbytes] at hread
    have hlen := length_clusterBytes hbytes
    cases hfound : scan lower (lower.apply name) (entriesOf bytes) with
    | some entry =>
      rw [walkStep_found hc hbytes hfound, walkMark_found hc hbytes hfound, List.append_nil]
      refine ⟨.ok (.done entry), Ends.ok_bind hread ?_, rfl, by simp⟩
      rw [searchEntries_cluster checks lower _ hlen, hfound, lift_ok_bind]
      exact gives_pure _
    | none =>
      rw [walkStep_link hc hbytes hfound, walkMark_link hc hbytes hfound]
      have hnext := v.nextCluster_ends heap links checks hc
      cases hlink : v.link t.cluster with
      | error e =>
        refine ⟨.err e, Ends.ok_bind hread ?_, rfl, by simp⟩
        rw [searchEntries_cluster checks lower _ hlen, hfound, lift_ok_bind]
        rw [hlink] at hnext
        exact hnext.err_bind
      | ok next =>
        refine ⟨.ok (.next ⟨next, bytes⟩), Ends.ok_bind hread ?_, rfl, ?_⟩
        · rw [searchEntries_cluster checks lower _ hlen, hfound, lift_ok_bind]
          rw [hlink] at hnext
          exact hnext.ok_bind (gives_pure _)
        · intro t' ht'
          cases ht'
          exact hlen

end Directories

section Buffers
variable {n ptr : ℕ} {heap' : Heap}

omit [BlockDevice D] in
theorem allocBytes_eq (h : heap.allocBytes n = some (ptr, heap')) (device : D) (log : List Access) :
    allocBytes n ⟨device, heap, log⟩ = (.ok ptr, ⟨device, heap', log⟩) := by
  unfold Fs.allocBytes
  rw [h]

theorem allocBytes_ends (h : heap.allocBytes n = some (ptr, heap')) :
    Ends (v.At heap links) (allocBytes n) (.ok ptr) (v.At heap' links) := by
  rintro ⟨device, heap, log⟩ ⟨rfl, rfl, rfl⟩
  rw [allocBytes_eq h]
  exact ⟨rfl, rfl, rfl, rfl⟩

theorem allocBytes_fails (h : heap.allocBytes n = none) :
    Ends (v.At heap links) (allocBytes n) .exhausted (v.At heap links) := by
  rintro s ⟨hdevice, rfl, hlinks⟩
  unfold Fs.allocBytes
  rw [h]
  exact ⟨rfl, hdevice, rfl, hlinks⟩

theorem At.dropBytes {s : Session D} (h : v.At heap links s) (ptr n : ℕ) :
    v.At (heap.freeBytes ptr n) links (dropBytes ptr n s) :=
  ⟨h.device, congrArg (·.freeBytes ptr n) h.heap, h.links⟩

end Buffers

section Directories
variable {lower : Lowercase} {name : List Char}

/-- The heap after a search with a buffer, which is dropped when the search comes back. -/
def searched (v : Volume D) (r : Result FatDirectoryEntry) (ptr : ℕ) (heap : Heap) : Heap :=
  if r.returned then heap.freeBytes ptr v.geometry.clusterSize else heap

theorem findInDirectory_ends (links : List ℕ) (checks : Bool) (lower : Lowercase) (fuel dirCluster : ℕ)
    (name : List Char) {ptr : ℕ} {heap' : Heap}
    (halloc : heap.allocBytes v.geometry.clusterSize = some (ptr, heap')) :
    Ends (v.At heap links) (findInDirectory checks lower v.geometry fuel dirCluster name)
      (iterate (v.dirStep lower name) fuel dirCluster)
      (v.At (v.searched (iterate (v.dirStep lower name) fuel dirCluster) ptr heap')
        (links ++ trail (v.dirStep lower name) (v.dirMark lower name) fuel dirCluster)) := by
  have hloop := ends_loop DirectoryWalk.cluster
    (fun t l ht => v.findRound_ends heap' l checks lower name ht) fuel
    (t := ⟨dirCluster, List.replicate v.geometry.clusterSize 0⟩) (by simp) links
  refine (allocBytes_ends halloc).ok_bind (hloop.dropping (fun hreturned s hs => ?_)
    (fun hrunning s hs => ?_))
  · rw [searched, if_pos hreturned]
    exact hs.dropBytes ptr _
  · rw [searched, if_neg (by rw [hrunning]; exact Bool.false_ne_true)]
    exact hs

theorem findInDirectory_fails (links : List ℕ) (checks : Bool) (lower : Lowercase) (fuel dirCluster : ℕ)
    (name : List Char) (halloc : heap.allocBytes v.geometry.clusterSize = none) :
    Ends (v.At heap links) (findInDirectory checks lower v.geometry fuel dirCluster name) .exhausted
      (v.At heap links) := (allocBytes_fails halloc).exhausted_bind

theorem findInDirectory_result (checks : Bool) (lower : Lowercase) (fuel dirCluster : ℕ)
    (name : List Char) (hcan : heap.CanHold v.geometry.clusterSize) :
    (findInDirectory checks lower v.geometry fuel dirCluster name (v.start heap)).1 =
      iterate (v.dirStep lower name) fuel dirCluster := by
  obtain ⟨ptr, halloc⟩ := Heap.allocBytes_of_canHold hcan
  exact (findInDirectory_ends [] checks lower fuel dirCluster name halloc _ (v.at_start heap)).1

theorem clusterSize_le (v : Volume D) : max v.geometry.clusterSize minBlockSize ≤ 2 ^ 17 := by
  have hspc := v.geometry.spc_lt
  have hsize : v.geometry.clusterSize = v.geometry.spc * 512 := rfl
  unfold minBlockSize
  omega

theorem allocCluster_of_room {k : ℕ} (hroom : heap.Room (2 ^ 17 + k)) :
    ∃ ptr heap', heap.allocBytes v.geometry.clusterSize = some (ptr, heap') ∧ heap'.Room k := by
  have hle := v.clusterSize_le
  have hlt : v.geometry.clusterSize < 2 ^ 63 := by omega
  apply Heap.Room.allocBytes _ hlt
  exact ⟨hroom.toMapped, hroom.initialized, by have := hroom.room; omega⟩

theorem dir_returns_iff : (∃ fuel, iterate (v.dirStep lower name) fuel cluster ≠ .running) ↔
    ¬ v.Loops (NoMatch lower name) cluster := walk_returns_iff (by simp)

theorem finds_iff {entry : FatDirectoryEntry} :
    (∃ fuel, iterate (v.dirStep lower name) fuel cluster = .ok entry) ↔
      v.Finds lower name cluster entry := by
  rw [iterate_eq_ok_iff]
  constructor
  · rintro ⟨last, hto, hdone⟩
    obtain ⟨clusters, hchain⟩ := reflTransGen_iff_chain.mp hto
    by_cases hc : Walkable last
    swap
    · rw [dirStep, walkStep, if_neg hc] at hdone
      exact absurd hdone (by simp)
    cases hbytes : v.clusterBytes last with
    | error e =>
      rw [dirStep, walkStep_error hc hbytes] at hdone
      exact absurd hdone (by simp)
    | ok bytes =>
      cases hfound : scan lower (lower.apply name) (entriesOf bytes) with
      | some entry' =>
        rw [dirStep, walkStep_found hc hbytes hfound] at hdone
        obtain rfl := Round.done.inj (Result.ok.inj hdone)
        exact ⟨clusters, last, bytes, hchain, hc, hbytes, hfound⟩
      | none =>
        rw [dirStep, walkStep_link hc hbytes hfound] at hdone
        cases hlink : v.link last <;> simp [hlink, Result.ofExcept] at hdone
  · rintro ⟨clusters, last, bytes, hchain, hc, hbytes, hfound⟩
    exact ⟨last, reflTransGen_iff_chain.mpr ⟨clusters, hchain⟩, walkStep_found hc hbytes hfound⟩

/-- The loop over the parts of a path, on the disk's contents and the heap. -/
def resolve (v : Volume D) (lower : Lowercase) (fuel : ℕ) :
    List (List Char) → ℕ → Heap → Result FatDirectoryEntry
  | [], _, _ => .err "Path resolution failed"
  | part :: rest, cluster, heap =>
    match heap.allocBytes v.geometry.clusterSize with
    | none => .exhausted
    | some (ptr, heap) =>
      (iterate (v.dirStep lower part) fuel cluster).bind fun entry =>
        if rest = [] then .ok entry
        else if !entry.isDirectory then .err "Parent path component is not a directory"
        else resolve v lower fuel rest entry.startingCluster
          (heap.freeBytes ptr v.geometry.clusterSize)

def resolveTrail (v : Volume D) (lower : Lowercase) (fuel : ℕ) :
    List (List Char) → ℕ → Heap → List ℕ
  | [], _, _ => []
  | part :: rest, cluster, heap =>
    match heap.allocBytes v.geometry.clusterSize with
    | none => []
    | some (ptr, heap) =>
      trail (v.dirStep lower part) (v.dirMark lower part) fuel cluster ++
        match iterate (v.dirStep lower part) fuel cluster with
        | .ok entry =>
          if rest = [] ∨ entry.isDirectory = false then []
          else resolveTrail v lower fuel rest entry.startingCluster
            (heap.freeBytes ptr v.geometry.clusterSize)
        | _ => []

section Served
variable {part : List Char} {rest : List (List Char)} {fuel ptr : ℕ} {heap' : Heap}
  {entry : FatDirectoryEntry}

theorem resolve_of_none (halloc : heap.allocBytes v.geometry.clusterSize = none) :
    v.resolve lower fuel (part :: rest) cluster heap = .exhausted ∧
      v.resolveTrail lower fuel (part :: rest) cluster heap = [] := by
  simp only [resolve, resolveTrail, halloc, and_self]

theorem resolve_of_some (halloc : heap.allocBytes v.geometry.clusterSize = some (ptr, heap')) :
    v.resolve lower fuel (part :: rest) cluster heap =
      (iterate (v.dirStep lower part) fuel cluster).bind fun entry =>
        if rest = [] then .ok entry
        else if !entry.isDirectory then .err "Parent path component is not a directory"
        else v.resolve lower fuel rest entry.startingCluster
          (heap'.freeBytes ptr v.geometry.clusterSize) := by
  simp only [resolve, halloc]

theorem resolveTrail_of_some (halloc : heap.allocBytes v.geometry.clusterSize = some (ptr, heap'))
    (hstop : ∀ entry, iterate (v.dirStep lower part) fuel cluster = .ok entry →
      rest = [] ∨ entry.isDirectory = false) :
    v.resolveTrail lower fuel (part :: rest) cluster heap =
      trail (v.dirStep lower part) (v.dirMark lower part) fuel cluster := by
  simp only [resolveTrail, halloc]
  split
  · rename_i entry hentry
    rw [if_pos (hstop entry hentry), List.append_nil]
  · exact List.append_nil _

theorem resolveTrail_of_found (halloc : heap.allocBytes v.geometry.clusterSize = some (ptr, heap'))
    (hentry : iterate (v.dirStep lower part) fuel cluster = .ok entry) (hrest : rest ≠ [])
    (hdir : entry.isDirectory = true) :
    v.resolveTrail lower fuel (part :: rest) cluster heap =
      trail (v.dirStep lower part) (v.dirMark lower part) fuel cluster ++
        v.resolveTrail lower fuel rest entry.startingCluster
          (heap'.freeBytes ptr v.geometry.clusterSize) := by
  have hmore : ¬ (rest = [] ∨ entry.isDirectory = false) := by simp [hrest, hdir]
  rw [resolveTrail]
  simp only [halloc, hentry, if_neg hmore]

end Served

theorem resolveParts_ends (checks : Bool) (fuel : ℕ) (parts : List (List Char)) (cluster : ℕ) :
    ∀ (heap : Heap) (links : List ℕ),
    Ends (v.At heap links) (resolveParts checks lower v.geometry fuel parts cluster)
      (v.resolve lower fuel parts cluster heap)
      (fun s => s.links = links ++ v.resolveTrail lower fuel parts cluster heap) := by
  induction parts generalizing cluster with
  | nil =>
    intro heap links s hs
    exact ⟨rfl, hs.links.trans (List.append_nil links).symm⟩
  | cons part rest ih =>
    intro heap links
    cases halloc : heap.allocBytes v.geometry.clusterSize with
    | none =>
      rw [(resolve_of_none halloc).1, (resolve_of_none halloc).2, List.append_nil]
      exact ((findInDirectory_fails links checks lower fuel cluster part halloc).exhausted_bind).mono
        fun s hs => hs.links
    | some x =>
      obtain ⟨ptr, heap'⟩ := x
      have hfind := findInDirectory_ends links checks lower fuel cluster part halloc
      rw [resolve_of_some halloc]
      rcases (iterate (v.dirStep lower part) fuel cluster).ok_or_stop with ⟨entry, hentry⟩ | hstop
      · rw [hentry] at hfind ⊢
        refine hfind.ok_bind ?_
        by_cases hlast : rest = []
        · rw [resolveTrail_of_some halloc fun _ _ => .inl hlast, Result.ok_bind, if_pos hlast,
            if_pos hlast]
          exact fun s hs => ⟨rfl, hs.links⟩
        rw [Result.ok_bind, if_neg hlast, if_neg hlast]
        cases hdir : entry.isDirectory with
        | false =>
          rw [resolveTrail_of_some halloc fun e he => .inr (by
            rw [hentry] at he
            rw [← Result.ok.inj he, hdir])]
          exact fun s hs => ⟨rfl, hs.links⟩
        | true =>
          rw [resolveTrail_of_found halloc hentry hlast hdir, ← List.append_assoc]
          exact ih _ _ _
      · rw [resolveTrail_of_some halloc fun entry hentry => absurd hentry (hstop entry)]
        exact (hfind.bind_of_ne_ok hstop _).mono fun s hs => hs.links

/-- Every directory that is searched for a part of the path has a chain that ends, unless it holds
the part. -/
def SearchesEnd (v : Volume D) (lower : Lowercase) : List (List Char) → ℕ → Prop
  | [], _ => True
  | part :: rest, cluster =>
    ¬ v.Loops (NoMatch lower part) cluster ∧
      ∀ entry, v.Finds lower part cluster entry → rest ≠ [] → entry.isDirectory = true →
        SearchesEnd v lower rest entry.startingCluster

theorem resolve_mono {fuel fuel' : ℕ} (hle : fuel ≤ fuel') {parts : List (List Char)}
    (h : v.resolve lower fuel parts cluster heap ≠ .running) :
    v.resolve lower fuel' parts cluster heap = v.resolve lower fuel parts cluster heap := by
  induction parts generalizing cluster heap with
  | nil => rfl
  | cons part rest ih =>
    cases halloc : heap.allocBytes v.geometry.clusterSize with
    | none => rw [(resolve_of_none halloc).1, (resolve_of_none halloc).1]
    | some x =>
      rw [resolve_of_some halloc] at h ⊢
      have hfind : iterate (v.dirStep lower part) fuel cluster ≠ .running := by
        intro hrunning
        exact h (by rw [hrunning, Result.running_bind])
      rw [resolve_of_some halloc, iterate_mono hfind hle]
      rcases (iterate (v.dirStep lower part) fuel cluster).ok_or_stop with ⟨entry, hentry⟩ | hstop
      · rw [hentry] at h ⊢
        simp only [Result.ok_bind] at h ⊢
        split_ifs at h ⊢
        · rfl
        · rfl
        · exact ih h
      · exact Result.bind_of_stop hstop _ _

theorem resolve_returns {parts : List (List Char)} (h : v.SearchesEnd lower parts cluster)
    (heap : Heap) : ∃ fuel, v.resolve lower fuel parts cluster heap ≠ .running := by
  induction parts generalizing cluster heap with
  | nil => exact ⟨0, by simp [resolve]⟩
  | cons part rest ih =>
    obtain ⟨hends, hrest⟩ := h
    cases halloc : heap.allocBytes v.geometry.clusterSize with
    | none => exact ⟨0, by simp [(resolve_of_none halloc).1]⟩
    | some x =>
      simp only [resolve_of_some halloc]
      obtain ⟨fuel, hfind⟩ := dir_returns_iff.mpr hends
      rcases (iterate (v.dirStep lower part) fuel cluster).ok_or_stop with ⟨entry, hentry⟩ | hstop
      · by_cases hlast : rest = []
        · exact ⟨fuel, by simp [hentry, hlast]⟩
        by_cases hdir : entry.isDirectory = true
        swap
        · exact ⟨fuel, by simp [hentry, hlast, hdir]⟩
        obtain ⟨fuel', hfuel'⟩ := ih (hrest entry (finds_iff.mp ⟨fuel, hentry⟩) hlast hdir)
          (x.2.freeBytes x.1 v.geometry.clusterSize)
        refine ⟨max fuel fuel', ?_⟩
        rw [iterate_mono hfind (le_max_left _ _), hentry, Result.ok_bind, if_neg hlast, hdir,
          Bool.not_true, if_neg (by simp), resolve_mono (le_max_right _ _) hfuel']
        exact hfuel'
      · refine ⟨fuel, ?_⟩
        rw [Result.bind_of_stop hstop _ fun _ => .panic]
        exact Result.bind_ne_running hfind (by simp)

/-- With room for the buffer of every search, a lookup that ends has seen its directories end. -/
theorem searchesEnd_of_resolve {parts : List (List Char)}
    (hroom : heap.Room (2 ^ 17 * parts.length)) {fuel : ℕ}
    (h : v.resolve lower fuel parts cluster heap ≠ .running) : v.SearchesEnd lower parts cluster := by
  induction parts generalizing cluster heap with
  | nil => trivial
  | cons part rest ih =>
    rw [List.length_cons, Nat.mul_succ, Nat.add_comm] at hroom
    obtain ⟨ptr, heap', halloc, hrest⟩ := allocCluster_of_room (v := v) hroom
    rw [resolve_of_some halloc] at h
    have hfind : iterate (v.dirStep lower part) fuel cluster ≠ .running := by
      intro hrunning
      exact h (by rw [hrunning, Result.running_bind])
    refine ⟨dir_returns_iff.mp ⟨fuel, hfind⟩, fun entry hentry hlast hdir => ?_⟩
    obtain ⟨fuel', hentry⟩ := finds_iff.mpr hentry
    -- both numbers of rounds find the same entry
    have hsame : iterate (v.dirStep lower part) fuel cluster = .ok entry := by
      rw [← hentry, ← iterate_mono hfind (le_max_left fuel fuel'),
        iterate_mono (by simp [hentry]) (le_max_right fuel fuel')]
    rw [hsame, Result.ok_bind, if_neg hlast, hdir] at h
    exact ih (hrest.freeBytes ptr _) h

end Directories

section Files
variable {remaining : ℕ} {content : List Byte}

structure FilePosition where
  cluster : ℕ
  remaining : ℕ
  content : List Byte

def fileStep (v : Volume D) (t : FilePosition) : Result (Round FilePosition (List Byte)) :=
  if Walkable t.cluster then
    (Result.ofExcept (v.clusterBytes t.cluster)).bind fun bytes =>
      if t.remaining ≤ v.geometry.clusterSize then .ok (.done (t.content ++ bytes.take t.remaining))
      else (Result.ofExcept (v.link t.cluster)).bind fun next =>
        .ok (.next ⟨next, t.remaining - v.geometry.clusterSize, t.content ++ bytes⟩)
  else .ok (.done t.content)

def fileMark (v : Volume D) (t : FilePosition) : List ℕ :=
  if v.geometry.clusterSize < t.remaining then
    v.walkMark (fun _ => (none : Option Unit)) t.cluster
  else []

theorem fileStep_error (hc : Walkable cluster) {e : String}
    (h : v.clusterBytes cluster = .error e) :
    v.fileStep ⟨cluster, remaining, content⟩ = .err e := by
  rw [fileStep, if_pos hc, h]
  rfl

theorem fileStep_last (hc : Walkable cluster) (h : v.clusterBytes cluster = .ok bytes)
    (hlast : remaining ≤ v.geometry.clusterSize) :
    v.fileStep ⟨cluster, remaining, content⟩ = .ok (.done (content ++ bytes.take remaining)) := by
  simp only [fileStep, if_pos hc, h, Result.ofExcept, Result.ok_bind, if_pos hlast]

theorem fileStep_link (hc : Walkable cluster) (h : v.clusterBytes cluster = .ok bytes)
    (hmore : v.geometry.clusterSize < remaining) :
    v.fileStep ⟨cluster, remaining, content⟩ =
      (Result.ofExcept (v.link cluster)).bind fun next =>
        .ok (.next ⟨next, remaining - v.geometry.clusterSize, content ++ bytes⟩) := by
  simp only [fileStep, if_pos hc, h, Result.ofExcept, Result.ok_bind, if_neg (Nat.not_le.mpr hmore)]

theorem fileMark_end (hc : ¬ Walkable cluster) : v.fileMark ⟨cluster, remaining, content⟩ = [] := by
  simp [fileMark, walkMark_end hc]

theorem fileMark_error (hc : Walkable cluster) {e : String} (h : v.clusterBytes cluster = .error e) :
    v.fileMark ⟨cluster, remaining, content⟩ = [] := by
  simp [fileMark, walkMark_error hc h]

theorem fileMark_last (hlast : remaining ≤ v.geometry.clusterSize) :
    v.fileMark ⟨cluster, remaining, content⟩ = [] := if_neg (Nat.not_lt.mpr hlast)

theorem fileMark_link (hc : Walkable cluster) (h : v.clusterBytes cluster = .ok bytes)
    (hmore : v.geometry.clusterSize < remaining) :
    v.fileMark ⟨cluster, remaining, content⟩ = [cluster] := by
  rw [fileMark, if_pos hmore, walkMark_link hc h rfl]

theorem readFileRound_ends (v : Volume D) (heap : Heap) (links : List ℕ) (checks : Bool)
    {t : FileWalk} (ht : t.buf.length = v.geometry.clusterSize) :
    ∃ r, Ends (v.At heap links) (readFileRound checks v.geometry t) r
        (v.At heap (links ++ v.fileMark ⟨t.cluster, t.remaining, t.content⟩)) ∧
      r.bind (fun x => .ok (x.map fun t => ⟨t.cluster, t.remaining, t.content⟩)) =
        v.fileStep ⟨t.cluster, t.remaining, t.content⟩ ∧
      ∀ t', r = .ok (.next t') → t'.buf.length = v.geometry.clusterSize := by
  unfold readFileRound
  by_cases hc : Walkable t.cluster
  swap
  · rw [if_pos hc, fileStep, if_neg hc, fileMark_end hc, List.append_nil]
    exact ⟨_, gives_pure _, rfl, by simp⟩
  rw [if_neg (not_not.mpr hc)]
  have hread := v.readCluster_gives heap links checks hc ht
  cases hbytes : v.clusterBytes t.cluster with
  | error e =>
    rw [hbytes] at hread
    rw [fileStep_error hc hbytes, fileMark_error hc hbytes, List.append_nil]
    exact ⟨_, Ends.err_bind hread, rfl, by simp⟩
  | ok bytes =>
    rw [hbytes] at hread
    have hlen := length_clusterBytes hbytes
    have hslice : min t.remaining v.geometry.clusterSize ≤ bytes.length := by omega
    by_cases hlast : t.remaining ≤ v.geometry.clusterSize
    · rw [fileStep_last hc hbytes hlast, fileMark_last hlast, List.append_nil]
      refine ⟨.ok (.done (t.content ++ bytes.take t.remaining)), Ends.ok_bind hread ?_, rfl, by simp⟩
      rw [slice_of_le (Nat.zero_le _) hslice, lift_ok_bind, if_pos hlast, min_eq_left hlast]
      exact gives_pure _
    have hmore := Nat.not_le.mp hlast
    rw [fileStep_link hc hbytes hmore, fileMark_link hc hbytes hmore]
    have hnext := v.nextCluster_ends heap links checks hc
    cases hlink : v.link t.cluster with
    | error e =>
      refine ⟨.err e, Ends.ok_bind hread ?_, rfl, by simp⟩
      rw [slice_of_le (Nat.zero_le _) hslice, lift_ok_bind, if_neg hlast,
        subU_of_le checks hmore.le, lift_ok_bind]
      rw [hlink] at hnext
      exact hnext.err_bind
    | ok next =>
      refine ⟨.ok (.next ⟨next, t.remaining - v.geometry.clusterSize, bytes, t.content ++ bytes⟩),
        Ends.ok_bind hread ?_, rfl, ?_⟩
      · rw [slice_of_le (Nat.zero_le _) hslice, lift_ok_bind, if_neg hlast,
          subU_of_le checks hmore.le, lift_ok_bind, min_eq_right hmore.le, Nat.sub_zero,
          List.drop_zero, ← hlen, List.take_length, hlen]
        rw [hlink] at hnext
        exact hnext.ok_bind (gives_pure _)
      · intro t' ht'
        cases ht'
        exact hlen

/-- The heap has room for a file of this size, and then for the buffer of one cluster. -/
structure HoldsFile (v : Volume D) (heap : Heap) (fileSize : ℕ) : Prop where
  content : heap.CanHold fileSize
  clusterBuf : (heap.afterBytes fileSize).CanHold v.geometry.clusterSize

/-- The heap after the blocks `content` and `clusterBuf` were used for a file. -/
def fileRead {α : Type} (v : Volume D) (r : Result α) (fileSize content clusterBuf : ℕ) (heap : Heap) :
    Heap :=
  match r with
  | .ok _ => heap.freeBytes clusterBuf v.geometry.clusterSize
  | .err _ => (heap.freeBytes clusterBuf v.geometry.clusterSize).freeBytes content fileSize
  | _ => heap

theorem readFileContent_ends (links : List ℕ) (checks : Bool) (fuel startCluster fileSize : ℕ)
    {ptr clusterBuf : ℕ} {heap₁ heap₂ : Heap} (hcontent : heap.allocBytes fileSize = some (ptr, heap₁))
    (hbuf : heap₁.allocBytes v.geometry.clusterSize = some (clusterBuf, heap₂)) :
    Ends (v.At heap links) (readFileContent checks v.geometry fuel startCluster fileSize)
      ((iterate v.fileStep fuel ⟨startCluster, fileSize, []⟩).bind fun bytes =>
        .ok ⟨ptr, fileSize, bytes⟩)
      (v.At (v.fileRead (iterate v.fileStep fuel ⟨startCluster, fileSize, []⟩) fileSize ptr
          clusterBuf heap₂)
        (links ++ trail v.fileStep v.fileMark fuel ⟨startCluster, fileSize, []⟩)) := by
  have hloop := ends_loop
    (fun t : FileWalk => FilePosition.mk t.cluster t.remaining t.content)
    (fun t l ht => v.readFileRound_ends heap₂ l checks ht) fuel
    (t := ⟨startCluster, fileSize, List.replicate v.geometry.clusterSize 0, []⟩) (by simp) links
  refine (allocBytes_ends hcontent).ok_bind ?_
  cases hrun : iterate v.fileStep fuel ⟨startCluster, fileSize, []⟩ with
  | ok bytes =>
    rw [hrun] at hloop
    refine Ends.droppingOnErr_of_ne ((allocBytes_ends hbuf).ok_bind
      ((hloop.ok_bind (f := fun bytes => pure (ByteVec.mk ptr fileSize bytes)) (gives_pure _)).dropping
        (K := v.At (heap₂.freeBytes clusterBuf v.geometry.clusterSize) _) ?_
        (by simp [Result.returned]))) (by simp) _
    exact fun _ s hs => hs.dropBytes clusterBuf _
  | err msg =>
    rw [hrun] at hloop
    refine Ends.droppingOnErr ((allocBytes_ends hbuf).ok_bind ((hloop.err_bind).dropping
      (K := v.At (heap₂.freeBytes clusterBuf v.geometry.clusterSize) _) ?_
      (by simp [Result.returned]))) fun s hs => hs.dropBytes ptr fileSize
    exact fun _ s hs => hs.dropBytes clusterBuf _
  -- neither vector is dropped
  | panic | exhausted | running =>
    rw [hrun] at hloop
    exact Ends.droppingOnErr_of_ne ((allocBytes_ends hbuf).ok_bind
      ((hloop.bind_of_ne_ok (by simp) _).dropping (by simp [Result.returned])
        fun _ s hs => hs)) (by simp) _

theorem readFileContent_fails (checks : Bool) (fuel startCluster fileSize : ℕ)
    (h : ¬ v.HoldsFile heap fileSize) :
    Ends (v.At heap links) (readFileContent checks v.geometry fuel startCluster fileSize) .exhausted
      (fun s => s.links = links) := by
  by_cases hcontent : heap.CanHold fileSize
  · obtain ⟨ptr, halloc⟩ := Heap.allocBytes_of_canHold hcontent
    have hbuf : (heap.afterBytes fileSize).allocBytes v.geometry.clusterSize = none :=
      Heap.allocBytes_of_not_canHold fun hbuf => h ⟨hcontent, hbuf⟩
    exact (allocBytes_ends halloc).ok_bind (Ends.droppingOnErr_of_ne
      ((allocBytes_fails hbuf).exhausted_bind.mono fun s hs => hs.links) (by simp) _)
  · have halloc := Heap.allocBytes_of_not_canHold hcontent
    exact (allocBytes_fails halloc).exhausted_bind.mono fun s hs => hs.links

theorem HoldsFile.readFileContent_ends {fileSize : ℕ} (h : v.HoldsFile heap fileSize)
    (links : List ℕ) (checks : Bool) (fuel startCluster : ℕ) : ∃ ptr, Ends (v.At heap links)
      (readFileContent checks v.geometry fuel startCluster fileSize)
      ((iterate v.fileStep fuel ⟨startCluster, fileSize, []⟩).bind fun bytes =>
        .ok ⟨ptr, fileSize, bytes⟩)
      (fun s => s.links = links ++ trail v.fileStep v.fileMark fuel ⟨startCluster, fileSize, []⟩) := by
  obtain ⟨ptr, hcontent⟩ := Heap.allocBytes_of_canHold h.content
  obtain ⟨clusterBuf, hbuf⟩ := Heap.allocBytes_of_canHold h.clusterBuf
  exact ⟨ptr, (Volume.readFileContent_ends links checks fuel startCluster fileSize hcontent hbuf).mono
    fun s hs => hs.links⟩

theorem exists_holdsFile (v : Volume D) {fileSize : ℕ} (hlt : fileSize < 2 ^ 32) :
    ∃ heap, v.HoldsFile heap fileSize := by
  obtain ⟨heap, hroom⟩ := Heap.exists_room (n := max fileSize minBlockSize + (2 ^ 17 + 0))
    (by unfold minBlockSize; omega)
  obtain ⟨ptr, heap', hcontent, hroom'⟩ := hroom.allocBytes (by omega)
  obtain ⟨clusterBuf, heap'', hbuf, -⟩ := allocCluster_of_room (v := v) hroom'
  have hafter : heap.afterBytes fileSize = heap' := by
    rw [Heap.afterBytes, hcontent]
    rfl
  refine ⟨heap, (Heap.allocBytes_isSome_iff _ _).mp (by rw [hcontent]; rfl), ?_⟩
  rw [hafter]
  exact (Heap.allocBytes_isSome_iff _ _).mp (by rw [hbuf]; rfl)

/-- Clusters without sectors give no bytes, so the walk goes on along the links alone. -/
theorem iterate_fileStep_empty (hsize : v.geometry.clusterSize = 0) (hremaining : 0 < remaining)
    (fuel cluster : ℕ) :
    iterate v.fileStep fuel ⟨cluster, remaining, content⟩ =
      iterate (v.walkStep (fun _ => none) (.ok content)) fuel cluster := by
  induction fuel generalizing cluster with
  | zero => rfl
  | succ fuel ih =>
    rw [iterate, iterate]
    by_cases hc : Walkable cluster
    swap
    · rw [fileStep, if_neg hc, walkStep, if_neg hc]
      rfl
    have hspc : v.geometry.spc = 0 := by
      unfold Fat32Geometry.clusterSize at hsize
      omega
    have hbytes : v.clusterBytes cluster = .ok [] := by
      rw [clusterBytes, hspc, sectorsFrom]
    rw [fileStep_link hc hbytes (by omega), walkStep_link hc hbytes rfl]
    cases v.link cluster with
    | error e => rfl
    | ok next =>
      rw [hsize, Nat.sub_zero, List.append_nil]
      exact ih next

/-- Clusters with sectors give bytes, so at most one round for each byte is needed. -/
theorem iterate_fileStep_ne_running (hsize : 0 < v.geometry.clusterSize) {fuel : ℕ}
    (hfuel : remaining < fuel) :
    iterate v.fileStep fuel ⟨cluster, remaining, content⟩ ≠ .running := by
  induction fuel generalizing cluster remaining content with
  | zero => omega
  | succ fuel ih =>
    rw [iterate]
    by_cases hc : Walkable cluster
    swap
    · rw [fileStep, if_neg hc]
      simp
    cases hbytes : v.clusterBytes cluster with
    | error e =>
      rw [fileStep_error hc hbytes]
      simp
    | ok bytes =>
      by_cases hlast : remaining ≤ v.geometry.clusterSize
      · rw [fileStep_last hc hbytes hlast]
        simp
      rw [fileStep_link hc hbytes (Nat.not_le.mp hlast)]
      cases v.link cluster with
      | error e => simp [Result.ofExcept]
      | ok next => exact ih (by omega)

theorem file_returns_iff (v : Volume D) (cluster fileSize : ℕ) :
    (∃ fuel, iterate v.fileStep fuel ⟨cluster, fileSize, []⟩ ≠ .running) ↔
      ¬ (v.geometry.spc = 0 ∧ 0 < fileSize ∧ v.Loops (fun _ => True) cluster) := by
  have hsize : v.geometry.clusterSize = v.geometry.spc * 512 := rfl
  by_cases hspc : v.geometry.spc = 0
  swap
  · simp only [hspc, false_and, not_false_eq_true, iff_true]
    exact ⟨fileSize + 1, iterate_fileStep_ne_running (by omega) (Nat.lt_succ_self _)⟩
  by_cases hfile : 0 < fileSize
  swap
  · simp only [hfile, false_and, and_false, not_false_eq_true, iff_true]
    refine ⟨1, ?_⟩
    rw [iterate]
    by_cases hc : Walkable cluster
    swap
    · rw [fileStep, if_neg hc]
      simp
    have hbytes : v.clusterBytes cluster = .ok [] := by rw [clusterBytes, hspc, sectorsFrom]
    rw [fileStep_last hc hbytes (by omega)]
    simp
  simp only [iterate_fileStep_empty (hsize.trans (by rw [hspc])) hfile, hspc, hfile, true_and]
  rw [walk_returns_iff (by simp)]
  simp only

end Files

/-- Some heap has room for the buffer of every part of a path. -/
theorem exists_pathRoom {path : List Char} (h : path.length < 2 ^ 45) : ∃ heap : Heap,
    heap.Room (2 ^ 17 * ((path.dropWhile (· = '/')).splitOn '/').length) := by
  have hparts := length_splitOn_le '/' (path.dropWhile (· = '/'))
  have hdrop := (List.dropWhile_suffix (l := path) (· = '/')).length_le
  exact Heap.exists_room (by omega)

/-- Exactly when lookups end, whatever the heap. A directory search ends unless the links lead into a
cycle before the name is found; a path lookup ends if its directory searches do; a file read ends
unless clusters have no sectors, bytes are left to read and the links lead into a cycle. -/
theorem fat32_lookups_end_iff (v : Volume D) (checks : Bool) (lower : Lowercase) :
    (∀ dirCluster name,
      (∀ heap, ∃ fuel, (findInDirectory checks lower v.geometry fuel dirCluster name
          (v.start heap)).1 ≠ .running) ↔
        ¬ v.Loops (NoMatch lower name) dirCluster) ∧
    (∀ path, path.length < 2 ^ 45 →
      ((∀ heap, ∃ fuel, (resolvePath checks lower v.geometry fuel path (v.start heap)).1 ≠ .running) ↔
        (path.dropWhile (· = '/') ≠ [] → v.SearchesEnd lower
          ((path.dropWhile (· = '/')).splitOn '/') v.geometry.rootCluster.toNat))) ∧
    ∀ startCluster (fileSize : BitVec 32),
      (∀ heap, ∃ fuel, (readFileContent checks v.geometry fuel startCluster fileSize.toNat
          (v.start heap)).1 ≠ .running) ↔
        ¬ (v.geometry.spc = 0 ∧ 0 < fileSize.toNat ∧ v.Loops (fun _ => True) startCluster) := by
  refine ⟨fun dirCluster name => ?_, fun path hlength => ?_, fun startCluster fileSize => ?_⟩
  · rw [← dir_returns_iff]
    constructor
    · intro h
      obtain ⟨heap, hroom⟩ := Heap.exists_room (n := 2 ^ 17 + 0) (by decide)
      obtain ⟨ptr, heap', halloc, -⟩ := allocCluster_of_room (v := v) hroom
      obtain ⟨fuel, hfuel⟩ := h heap
      rw [(findInDirectory_ends [] checks lower fuel dirCluster name halloc _ (v.at_start heap)).1]
        at hfuel
      exact ⟨fuel, hfuel⟩
    · rintro ⟨fuel, hfuel⟩ heap
      refine ⟨fuel, ?_⟩
      cases halloc : heap.allocBytes v.geometry.clusterSize with
      | none =>
        rw [(findInDirectory_fails [] checks lower fuel dirCluster name halloc _ (v.at_start heap)).1]
        simp
      | some x =>
        rwa [(findInDirectory_ends [] checks lower fuel dirCluster name halloc _ (v.at_start heap)).1]
  · by_cases hpath : path.dropWhile (· = '/') = []
    · refine iff_of_true (fun heap => ⟨0, ?_⟩) (absurd hpath)
      rw [resolvePath_root lower 0 hpath]
      simp [Action.fail]
    rw [forall_prop_of_true hpath]
    have hresult : ∀ heap fuel, (resolvePath checks lower v.geometry fuel path (v.start heap)).1 =
        v.resolve lower fuel ((path.dropWhile (· = '/')).splitOn '/')
          v.geometry.rootCluster.toNat heap := by
      intro heap fuel
      rw [resolvePath_eq lower fuel hpath]
      exact (resolveParts_ends checks fuel _ _ heap [] _ (v.at_start heap)).1
    simp only [hresult]
    constructor
    · intro h
      obtain ⟨heap, hroom⟩ := exists_pathRoom hlength
      obtain ⟨fuel, hfuel⟩ := h heap
      exact searchesEnd_of_resolve hroom hfuel
    · exact fun h heap => resolve_returns h heap
  · rw [← file_returns_iff]
    constructor
    · intro h
      obtain ⟨heap, hholds⟩ := v.exists_holdsFile fileSize.isLt
      obtain ⟨fuel, hfuel⟩ := h heap
      obtain ⟨ptr, hends⟩ := hholds.readFileContent_ends [] checks fuel startCluster
      rw [(hends _ (v.at_start heap)).1] at hfuel
      refine ⟨fuel, fun hrunning => hfuel ?_⟩
      rw [hrunning, Result.running_bind]
    · rintro ⟨fuel, hfuel⟩ heap
      refine ⟨fuel, ?_⟩
      by_cases hholds : v.HoldsFile heap fileSize.toNat
      · obtain ⟨ptr, hends⟩ := hholds.readFileContent_ends [] checks fuel startCluster
        rw [(hends _ (v.at_start heap)).1]
        exact Result.bind_ne_running hfuel (by simp)
      · rw [(readFileContent_fails checks fuel startCluster _ hholds _ (v.at_start heap)).1]
        simp

def ofRam {d : RamBlockDevice} {g : Fat32Geometry} (h : Fat32FileSystem.mount d = .ok ⟨d, g⟩) :
    Volume RamBlockDevice where
  device := d
  geometry := g
  content sector := (d.readSector sector).1
  stable sector := by
    show d.readSector sector = _
    unfold RamBlockDevice.readSector
    cases d.sectors[sector]? <;> rfl
  mounted := h

def small (root : Byte) (fat : Sector) (clusters : List Sector) : Volume RamBlockDevice :=
  ofRam (mount_smallVolume 1 root fat clusters)

/-- A volume whose root directory is empty and linked to itself. -/
def selfLinked : Volume RamBlockDevice :=
  small 2 (fatSectorOf [0, 0, 2]) [sectorOf []]

theorem selfLinked_readCluster {buf : List Byte} (hbuf : buf.length = 512) (heap : Heap)
    (log : List Access) :
    readCluster false selfLinked.geometry 2 buf ⟨selfLinked.device, heap, log⟩ =
      (.ok (sectorOf []).toList, ⟨selfLinked.device, heap, log ++ [.data 2]⟩) := by
  have hread : readSector (.data 2) ⟨selfLinked.device, heap, log⟩ =
      (.ok (sectorOf []), ⟨selfLinked.device, heap, log ++ [.data 2]⟩) := rfl
  have hcopy : buf.take (0 * 512) ++ (sectorOf []).toList ++ buf.drop (0 * 512 + 512) =
      (sectorOf []).toList := by simp [hbuf]
  rw [readCluster_eq selfLinked.bounded (by decide) hbuf]
  show readSectors false 2 1 0 buf _ = _
  rw [readSectors_succ (by decide) (by decide) (by omega), bind_of_ok hread, hcopy]
  rfl

theorem selfLinked_nextCluster (heap : Heap) (log : List Access) :
    nextCluster false selfLinked.geometry 2 ⟨selfLinked.device, heap, log⟩ =
      (.ok 2, ⟨selfLinked.device, heap, log ++ [.link 2 1]⟩) := by
  have hread : readSector (.link 2 1) ⟨selfLinked.device, heap, log⟩ =
      (.ok (fatSectorOf [0, 0, 2]), ⟨selfLinked.device, heap, log ++ [.link 2 1]⟩) := rfl
  have hlink : linkIn (fatSectorOf [0, 0, 2]) 2 = 2 := by decide
  rw [nextCluster_eq selfLinked.bounded (by decide)]
  show (readSector (.link 2 1) >>= fun sectorBuf => pure (linkIn sectorBuf 2)) _ = _
  rw [bind_of_ok hread, hlink]
  rfl

theorem selfLinked_round {buf : List Byte} (hbuf : buf.length = 512) (heap : Heap) (log : List Access) :
    findRound false asciiLowercase selfLinked.geometry ['a'] ⟨2, buf⟩ ⟨selfLinked.device, heap, log⟩ =
      (.ok (.next ⟨2, (sectorOf []).toList⟩),
        ⟨selfLinked.device, heap, log ++ [.data 2] ++ [.link 2 1]⟩) := by
  have hc : Walkable 2 := by decide
  have hsearch : searchEntries false asciiLowercase (sectorOf []).toList ['a'] 16 0 = .ok none := by
    decide +kernel
  rw [findRound, if_neg (not_not.mpr hc), bind_of_ok (selfLinked_readCluster hbuf heap log)]
  show (Action.lift (searchEntries false asciiLowercase (sectorOf []).toList ['a'] 16 0) >>= _) _ = _
  rw [hsearch, lift_ok_bind]
  show (nextCluster false selfLinked.geometry 2 >>= fun next =>
    pure (Round.next (DirectoryWalk.mk next (sectorOf []).toList))) _ = _
  rw [bind_of_ok (selfLinked_nextCluster heap _)]
  rfl

theorem selfLinked_rounds (fuel : ℕ) {buf : List Byte} (hbuf : buf.length = 512)
    (heap : Heap) (log : List Access) :
    Action.loop (findRound false asciiLowercase selfLinked.geometry ['a']) fuel ⟨2, buf⟩
        ⟨selfLinked.device, heap, log⟩ =
      (.running,
        ⟨selfLinked.device, heap, log ++ (List.replicate fuel [.data 2, .link 2 1]).flatten⟩) := by
  induction fuel generalizing buf log with
  | zero => simp [Action.loop]
  | succ fuel ih =>
    rw [Action.loop, bind_of_ok (selfLinked_round hbuf heap log)]
    show Action.loop _ fuel _ _ = _
    rw [ih (Vector.length_toList)]
    simp [List.replicate_succ]

/-- Looking up a name there reads two sectors in each round and never returns. -/
theorem fat32_lookup_runs_forever :
    Fat32FileSystem.mount selfLinked.device = .ok ⟨selfLinked.device, selfLinked.geometry⟩ ∧
      ∃ heap, ∀ fuel, resolvePath false asciiLowercase selfLinked.geometry fuel ['a']
          (selfLinked.start bootHeap.heap) =
        (.running, ⟨selfLinked.device, heap, (List.replicate fuel [.data 2, .link 2 1]).flatten⟩) := by
  refine ⟨selfLinked.mounted, ?_⟩
  obtain ⟨x, halloc⟩ : ∃ x, bootHeap.heap.allocBytes 512 = some x := ⟨_, rfl⟩
  refine ⟨x.2, fun fuel => ?_⟩
  have hloop := selfLinked_rounds fuel (List.length_replicate (n := 512) (a := (0 : Byte))) x.2 []
  have hbuffer := allocBytes_eq halloc selfLinked.device []
  change (findInDirectory false asciiLowercase selfLinked.geometry fuel 2 ['a'] >>= _) _ = _
  apply bind_of_running
  change (allocBytes 512 >>= _) (selfLinked.start bootHeap.heap) = _
  rw [start, bind_of_ok hbuffer]
  exact dropping_of_running hloop _

end Volume
end MitosOS.Fs
