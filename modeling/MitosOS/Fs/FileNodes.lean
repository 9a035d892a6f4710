import MitosOS.Fs.Fat32Files
import MitosOS.Fs.Fat32Safety
import MitosOS.Fs.TarWalk
import MitosOS.Lib.PositionalRead

/-! The file nodes of `tar_adapter.rs` and `fat32_adapter.rs`: how files are looked up, and how they
are read at an offset. A tar node reads a slice of the archive; a FAT32 node reads its whole chain
again in each call, into blocks of the heap that are not all used again. -/
namespace MitosOS.Fs
open MitosOS.Lib MitosOS.Lib.Action MitosOS.Memory

inductive NodeType where
  | file
  | directory
  deriving DecidableEq

structure Metadata where
  name : List Char
  size : ℕ
  nodeType : NodeType

/-- The end of both `read`s: as much of `content` as there is from `offset` on and as fits into the
buffer. -/
def copyOut {α : Type} (checks : Bool) (content : List α) (offset : ℕ) (buf : List α) :
    Result (ℕ × List α) := do
  let left ← subU checks 64 content.length offset
  let copyLen := min buf.length left
  let stop ← addU checks 64 offset copyLen
  let bytes ← slice content offset stop
  let buf ← copyFromSlice buf 0 copyLen bytes
  return (copyLen, buf)

def FileEntry.isDir (e : FileEntry) : Bool := e.typeflag == 0x35

inductive TarNode where
  | root
  | file (entry : FileEntry)
  deriving DecidableEq

namespace TarNode

def lookup (fs : TarFileSystem) (path : List Char) : Option TarNode :=
  let cleanPath := path.dropWhile (· = '/')
  if cleanPath = [] then some .root
  else (fs.find (String.ofList cleanPath)).map .file

def metadata : TarNode → Metadata
  | .root => ⟨['/'], 0, .directory⟩
  | .file entry => ⟨entry.name.toList, entry.size, if entry.isDir then .directory else .file⟩

def read (checks : Bool) : TarNode → ℕ → List Byte → Result (ℕ × List Byte)
  | .root, _, _ => .err "Cannot read root directory as a file"
  | .file entry, offset, buf =>
    if entry.isDir then .err "Cannot read directory as a file"
    else if entry.data.length ≤ offset then .ok (0, buf)
    else copyOut checks entry.data offset buf

end TarNode

/-- A node of a FAT32 volume: a directory, or a file with its directory entry. -/
inductive Fat32Node where
  | directory
  | file (entry : FatDirectoryEntry)
  deriving DecidableEq

namespace Fat32Node
variable {D : Type*} [BlockDevice D]

def lookup (checks : Bool) (lower : Lowercase) (g : Fat32Geometry) (fuel : ℕ) (path : List Char) :
    Action (Session D) (Option Fat32Node) :=
  let cleanPath := path.dropWhile (· = '/')
  if cleanPath = [] then pure (some .directory)
  else do
    match ← (resolvePath checks lower g fuel cleanPath).attempt with
    | none => pure none
    | some entry => pure (some (if entry.isDirectory then .directory else .file entry))

def metadata (lower : Lowercase) : Fat32Node → Metadata
  | .directory => ⟨['/'], 0, .directory⟩
  | .file entry => ⟨entry.getName lower, entry.fileSize, .file⟩

def read (checks : Bool) (g : Fat32Geometry) (fuel : ℕ) :
    Fat32Node → ℕ → List Byte → Action (Session D) (ℕ × List Byte)
  | .directory, _, _ => .fail "Cannot read a directory as a file"
  | .file entry, offset, buf =>
    if entry.fileSize ≤ offset then pure (0, buf)
    else do
      let content ← readFileContent checks g fuel entry.startingCluster entry.fileSize
      Action.dropping (.lift (copyOut checks content.bytes offset buf))
        (dropBytes content.ptr content.capacity)

end Fat32Node

section Copying
variable {α : Type} {checks : Bool} {content : List α} {offset : ℕ}

theorem copyOut_of_le (hoffset : offset ≤ content.length) (hlen : content.length < 2 ^ 64)
    (buf : List α) : copyOut checks content offset buf = .ok (readAt content offset buf) := by
  have hstop : offset + min buf.length (content.length - offset) ≤ content.length := by omega
  have hsrc : ((content.drop offset).take (min buf.length (content.length - offset))).length =
      min buf.length (content.length - offset) - 0 := by
    rw [List.length_take, List.length_drop, min_assoc, min_self, Nat.sub_zero]
  simp only [copyOut, subU_of_le checks hoffset, addU_of_lt checks (hstop.trans_lt hlen),
    slice_of_le (Nat.le_add_right _ _) hstop, Nat.add_sub_cancel_left, Result.bind_eq_bind,
    Result.ok_bind, copyFromSlice_of_le (Nat.zero_le _) (Nat.min_le_left _ _) hsrc]
  rfl

/-- Behind the end of the content no build copies anything: the subtraction overflows, and where it
wraps the slice is out of range. -/
theorem copyOut_of_lt (hoffset : content.length < offset) (buf : List α) :
    copyOut checks content offset buf = .panic := by
  have hslice : ∀ stop, slice content offset stop = .panic := fun stop =>
    slice_eq_panic_iff.mpr (by omega)
  cases checks with
  | true => simp [copyOut, subU, Nat.not_le.mpr hoffset]
  | false =>
    simp only [copyOut, subU, if_neg (Nat.not_le.mpr hoffset), Result.bind_eq_bind, Result.ok_bind,
      Bool.false_eq_true, if_false, addU, overflowing]
    split_ifs <;> simp only [Result.ok_bind, hslice, Result.panic_bind]

end Copying

section Fat32
variable {D : Type*} [BlockDevice D] {v : Volume D} {checks : Bool} {entry : FatDirectoryEntry}
  {offset : ℕ} {contents : List Byte} {fuel : ℕ} {heap heap' : Heap}

def Volume.On (v : Volume D) (heap : Heap) (s : Session D) : Prop := v.At heap s.links s

theorem Volume.on_start (v : Volume D) (heap : Heap) : v.On heap (v.start heap) := v.at_start heap

theorem ends_on {α : Type} {m : Action (Session D) α} {r : Result α}
    (h : ∀ links, ∃ links', Ends (v.At heap links) m r (v.At heap' links')) :
    Ends (v.On heap) m r (v.On heap') := by
  intro s hs
  obtain ⟨links', hends⟩ := h s.links
  obtain ⟨hresult, hstate⟩ := hends s hs
  exact ⟨hresult, hstate.device, hstate.heap, rfl⟩

theorem Volume.holdsFile_iff_useBuffers (v : Volume D) (heap : Heap) (fileSize : ℕ) :
    v.HoldsFile heap fileSize ↔
      (heap.useBuffers fileSize v.geometry.clusterSize).isSome = true := by
  constructor
  · rintro ⟨hcontent, hbuf⟩
    obtain ⟨p, hfirst⟩ := Heap.allocBytes_of_canHold hcontent
    obtain ⟨q, hsecond⟩ := Heap.allocBytes_of_canHold hbuf
    rw [Heap.useBuffers_eq_some_iff.mpr ⟨p, _, q, _, hfirst, hsecond, rfl⟩]
    rfl
  · intro hsome
    obtain ⟨heap', huse⟩ := Option.isSome_iff_exists.mp hsome
    obtain ⟨p, heap₁, q, heap₂, hfirst, hsecond, -⟩ := Heap.useBuffers_eq_some_iff.mp huse
    have hafter : heap.afterBytes fileSize = heap₁ := by
      rw [Heap.afterBytes, hfirst]
      rfl
    refine ⟨(Heap.allocBytes_isSome_iff _ _).mp (by rw [hfirst]; rfl), ?_⟩
    rw [hafter]
    exact (Heap.allocBytes_isSome_iff _ _).mp (by rw [hsecond]; rfl)

theorem fat32_read_result (v : Volume D) (checks : Bool) (hoffset : offset < entry.fileSize)
    (hholds : v.HoldsFile heap entry.fileSize) (fuel : ℕ) (buf : List Byte) :
    (Fat32Node.read checks v.geometry fuel (.file entry) offset buf (v.start heap)).1 =
      (iterate v.fileStep fuel ⟨entry.startingCluster, entry.fileSize, []⟩).bind fun content =>
        copyOut checks content offset buf := by
  obtain ⟨ptr, hends⟩ := hholds.readFileContent_ends [] checks fuel entry.startingCluster
  rw [Fat32Node.read, if_neg (Nat.not_le.mpr hoffset)]
  rw [bind_fst (g := fun content => copyOut checks content.bytes offset buf) (fun _ _ => rfl),
    (hends _ (v.at_start heap)).1, Result.bind_assoc]
  rfl

theorem fat32_read_exhausted (v : Volume D) (checks : Bool) (hoffset : offset < entry.fileSize)
    (hfull : ¬ v.HoldsFile heap entry.fileSize) (links : List ℕ) (fuel : ℕ) (buf : List Byte) :
    Ends (v.At heap links) (Fat32Node.read checks v.geometry fuel (.file entry) offset buf) .exhausted
      (fun s => s.links = links) := by
  rw [Fat32Node.read, if_neg (Nat.not_le.mpr hoffset)]
  exact (Volume.readFileContent_fails checks fuel entry.startingCluster entry.fileSize
    hfull).exhausted_bind

/-- A read that comes back: with a count that fits the buffer, or with an error. -/
def Returns (r : Result (ℕ × List Byte)) (buf : List Byte) : Prop :=
  (∃ n buf', r = .ok (n, buf') ∧ n ≤ buf.length) ∨ ∃ msg, r = .err msg

def EndsBefore (v : Volume D) (entry : FatDirectoryEntry) (offset : ℕ) : Prop :=
  ∃ clusters last, v.Chain (fun _ => True) entry.startingCluster clusters last ∧ ¬ Walkable last ∧
    clusters.length * v.geometry.clusterSize < offset

theorem returns_readAt (offset : ℕ) (buf : List Byte) :
    Returns (.ok (readAt contents offset buf)) buf :=
  .inl ⟨_, _, rfl, readAt_fst_le offset buf⟩

theorem not_returns_of_endsBefore (h : EndsBefore v entry offset) (hoffset : offset < entry.fileSize)
    (fuel : ℕ) (buf : List Byte) :
    ¬ Returns ((iterate v.fileStep fuel ⟨entry.startingCluster, entry.fileSize, []⟩).bind
      fun content => copyOut checks content offset buf) buf := by
  obtain ⟨clusters, last, hchain, hend, hshort⟩ := h
  by_cases hrunning : iterate v.fileStep fuel ⟨entry.startingCluster, entry.fileSize, []⟩ = .running
  · simp [hrunning, Returns]
  have hfuel : clusters.length < max fuel (clusters.length + 1) :=
    (Nat.lt_succ_self _).trans_le (le_max_right _ _)
  have hlen : ([] ++ clusters.flatMap v.bytesOf).length < offset := by
    rw [List.nil_append, hchain.length_bytes]
    exact hshort
  rw [← iterate_mono hrunning (le_max_left fuel (clusters.length + 1)),
    Volume.iterate_fileStep_short hchain hend (hshort.trans hoffset) hfuel, Result.ok_bind,
    copyOut_of_lt hlen]
  simp [Returns]

theorem iterate_fileStep_ne (v : Volume D) (t : Volume.FilePosition) (fuel : ℕ) :
    iterate v.fileStep fuel t ≠ .panic ∧ iterate v.fileStep fuel t ≠ .exhausted := by
  induction fuel generalizing t with
  | zero => simp [iterate]
  | succ fuel ih =>
    obtain ⟨cluster, remaining, content⟩ := t
    rw [iterate]
    by_cases hc : Walkable cluster
    swap
    · simp [Volume.fileStep, hc]
    cases hbytes : v.clusterBytes cluster with
    | error e => simp [Volume.fileStep_error hc hbytes]
    | ok bytes =>
      by_cases hlast : remaining ≤ v.geometry.clusterSize
      · simp [Volume.fileStep_last hc hbytes hlast]
      rw [Volume.fileStep_link hc hbytes (Nat.not_le.mp hlast)]
      cases v.link cluster with
      | error e => simp [Result.ofExcept]
      | ok next => exact ih _

/-- Exactly when a read of an open file comes back. It does not if the offset is in the file but the
heap has no room for the file and a cluster (an allocation fails), if the chain ends before the offset
(the read panics), or if clusters have no sectors and the links lead into a cycle (the read does not
end). -/
theorem fat32_read_returns_iff (v : Volume D) (checks : Bool) (heap : Heap) (entry : FatDirectoryEntry)
    (offset : ℕ) (buf : List Byte) :
    (∃ fuel, Returns
        (Fat32Node.read checks v.geometry fuel (.file entry) offset buf (v.start heap)).1 buf) ↔
      ¬ (offset < entry.fileSize ∧
        (¬ v.HoldsFile heap entry.fileSize ∨ EndsBefore v entry offset ∨
          v.geometry.spc = 0 ∧ v.Loops (fun _ => True) entry.startingCluster)) := by
  by_cases hoffset : offset < entry.fileSize
  swap
  · refine iff_of_true ⟨0, ?_⟩ (fun h => hoffset h.1)
    rw [Fat32Node.read, if_pos (Nat.not_lt.mp hoffset)]
    exact .inl ⟨0, buf, rfl, Nat.zero_le _⟩
  by_cases hholds : v.HoldsFile heap entry.fileSize
  swap
  · refine iff_of_false ?_ (fun h => h ⟨hoffset, .inl hholds⟩)
    rintro ⟨fuel, hreturns⟩
    rw [(fat32_read_exhausted v checks hoffset hholds [] fuel buf _ (v.at_start heap)).1] at hreturns
    simp [Returns] at hreturns
  simp only [fat32_read_result v checks hoffset hholds]
  have hfile := v.file_returns_iff entry.startingCluster entry.fileSize
  constructor
  · rintro ⟨fuel, hreturns⟩ ⟨-, hfull | hbefore | ⟨hspc, hloops⟩⟩
    · exact hfull hholds
    · exact not_returns_of_endsBefore hbefore hoffset fuel buf hreturns
    · have hends : ∃ fuel, iterate v.fileStep fuel
          ⟨entry.startingCluster, entry.fileSize, []⟩ ≠ .running := by
        refine ⟨fuel, fun hrunning => ?_⟩
        rw [hrunning] at hreturns
        simp [Returns] at hreturns
      exact hfile.mp hends ⟨hspc, Nat.zero_lt_of_lt hoffset, hloops⟩
  · intro hcond
    obtain ⟨fuel, hends⟩ := hfile.mpr fun h => hcond ⟨hoffset, .inr (.inr ⟨h.1, h.2.2⟩)⟩
    refine ⟨fuel, ?_⟩
    obtain ⟨hpanic, hexhausted⟩ :=
      iterate_fileStep_ne v ⟨entry.startingCluster, entry.fileSize, []⟩ fuel
    cases hresult : iterate v.fileStep fuel ⟨entry.startingCluster, entry.fileSize, []⟩ with
    | ok content =>
      have hsize := entry.fileSize_lt
      have hlen : offset ≤ content.length ∧ content.length ≤ entry.fileSize := by
        rcases Volume.length_of_iterate_fileStep hresult with
          hfull | ⟨clusters, last, hchain, hend, hshort, hlen⟩
        · rw [hfull, List.length_nil]
          omega
        · rw [hlen, List.length_nil, Nat.zero_add]
          refine ⟨Nat.not_lt.mp fun hbefore => hcond ⟨hoffset, .inr (.inl ?_)⟩, hshort.le⟩
          exact ⟨clusters, last, hchain, hend, hbefore⟩
      rw [Result.ok_bind, copyOut_of_le hlen.1 (by omega)]
      exact returns_readAt offset buf
    | err msg => exact .inr ⟨msg, rfl⟩
    | panic => exact absurd hresult hpanic
    | exhausted => exact absurd hresult hexhausted
    | running => exact absurd hresult hends

/-- `bad.txt` claims 2000 bytes and its chain has 512: a read at offset 600 panics in every build. -/
theorem fat32_read_panics :
    ∃ entry, (Fat32Node.lookup false asciiLowercase Volume.twoFiles.geometry 1
        ['b', 'a', 'd', '.', 't', 'x', 't'] (Volume.twoFiles.start bootHeap.heap)).1 =
        .ok (some (.file entry)) ∧
      entry.fileSize = 2000 ∧
      ∀ checks, (Fat32Node.read checks Volume.twoFiles.geometry 2 (.file entry) 600 [0]
        (Volume.twoFiles.start bootHeap.heap)).1 = .panic := by
  refine ⟨⟨directoryEntry [0x42, 0x41, 0x44, 0x20, 0x20, 0x20, 0x20, 0x20, 0x54, 0x58, 0x54]
    0x20 5 2000⟩, ?_, ?_, ?_⟩
  · decide +kernel
  · decide
  · decide +kernel

/-- The file of a directory entry holds `contents`, in fewer than `fuel` rounds of reading. -/
def HasContents (v : Volume D) (entry : FatDirectoryEntry) (contents : List Byte) (fuel : ℕ) : Prop :=
  entry.fileSize = 0 ∧ contents = [] ∨
    ∃ clusters last, v.Covers entry.startingCluster clusters last entry.fileSize ∧
      contents = ((clusters ++ [last]).flatMap v.bytesOf).take entry.fileSize ∧
      clusters.length < fuel

theorem HasContents.length_eq (h : HasContents v entry contents fuel) :
    contents.length = entry.fileSize := by
  rcases h with ⟨hsize, rfl⟩ | ⟨clusters, last, hcovers, rfl, -⟩
  · exact hsize.symm
  · exact hcovers.length_content

theorem HasContents.clusterSize_pos (h : HasContents v entry contents fuel)
    (hpos : 0 < entry.fileSize) : 0 < v.geometry.clusterSize := by
  rcases h with ⟨hsize, -⟩ | ⟨clusters, last, hcovers, -, -⟩
  · omega
  · have hlong := hcovers.long
    rcases Nat.eq_zero_or_pos v.geometry.clusterSize with hzero | hpos
    · rw [hzero] at hlong
      omega
    · exact hpos

theorem HasContents.read_past (h : HasContents v entry contents fuel) (checks : Bool)
    (hoffset : contents.length ≤ offset) (buf : List Byte) (I : Session D → Prop) :
    Gives I (Fat32Node.read checks v.geometry fuel (.file entry) offset buf) (.ok (0, buf)) := by
  rw [h.length_eq] at hoffset
  rw [Fat32Node.read, if_pos hoffset]
  exact gives_pure _

theorem HasContents.iterate_eq (h : HasContents v entry contents fuel)
    (hoffset : offset < contents.length) :
    iterate v.fileStep fuel ⟨entry.startingCluster, entry.fileSize, []⟩ = .ok contents := by
  have hlen := h.length_eq
  rcases h with ⟨hsize, -⟩ | ⟨clusters, last, hcovers, rfl, hfuel⟩
  · omega
  · rw [Volume.iterate_fileStep_covers hcovers hfuel, List.nil_append]

theorem HasContents.read_inside (h : HasContents v entry contents fuel) (checks : Bool)
    (hoffset : offset < contents.length) (buf : List Byte)
    (huse : heap.useBuffers contents.length v.geometry.clusterSize = some heap') :
    Ends (v.On heap) (Fat32Node.read checks v.geometry fuel (.file entry) offset buf)
      (.ok (readAt contents offset buf)) (v.On heap') := by
  have hrun := h.iterate_eq hoffset
  have hlen := h.length_eq
  have hsize := entry.fileSize_lt
  obtain ⟨ptr, heap₁, clusterBuf, heap₂, hcontent, hbuf, rfl⟩ :=
    Heap.useBuffers_eq_some_iff.mp huse
  rw [hlen] at hcontent hoffset ⊢
  have hcopy : copyOut checks contents offset buf = .ok (readAt contents offset buf) :=
    copyOut_of_le (by omega) (by omega) buf
  refine ends_on fun links => ⟨links ++ trail v.fileStep v.fileMark fuel
    ⟨entry.startingCluster, entry.fileSize, []⟩, ?_⟩
  have hread := Volume.readFileContent_ends links checks fuel entry.startingCluster entry.fileSize
    hcontent hbuf
  rw [hrun, Result.ok_bind, Volume.fileRead] at hread
  rw [Fat32Node.read, if_neg (Nat.not_le.mpr hoffset)]
  refine hread.ok_bind ?_
  rw [hcopy]
  exact Ends.dropping (gives_lift _) (fun _ s hs => hs.dropBytes ptr _) (by simp [Result.returned])

theorem HasContents.read_full (h : HasContents v entry contents fuel) (checks : Bool)
    (hoffset : offset < contents.length) (buf : List Byte)
    (huse : heap.useBuffers contents.length v.geometry.clusterSize = none) :
    Ends (v.On heap) (Fat32Node.read checks v.geometry fuel (.file entry) offset buf) .exhausted
      fun _ => True := by
  rw [h.length_eq] at hoffset huse
  have hfull : ¬ v.HoldsFile heap entry.fileSize := by
    rw [v.holdsFile_iff_useBuffers, huse]
    exact Bool.false_ne_true
  intro s hs
  exact ⟨(fat32_read_exhausted v checks hoffset hfull s.links fuel buf s hs).1, trivial⟩

/-- The buffers of as many reads as there are bytes left are enough: every read of a non-empty buffer
moves on by a byte at least, and behind the end of the file none is needed. -/
theorem HasContents.readPieces_ends (h : HasContents v entry contents fuel) (checks : Bool)
    (offset : ℕ) (bufs : List (List Byte)) (hne : ∀ buf ∈ bufs, buf ≠ [])
    (huse : (Heap.useBuffersTimes contents.length v.geometry.clusterSize (contents.length - offset)
      heap).isSome = true) :
    ∃ heap', Ends (v.On heap)
      (readPieces (Fat32Node.read checks v.geometry fuel (.file entry)) offset bufs)
      (.ok ((contents.drop offset).take (bufs.map List.length).sum)) (v.On heap') := by
  induction bufs generalizing offset heap with
  | nil => exact ⟨heap, gives_pure []⟩
  | cons buf bufs ih =>
    have hbuf := List.length_pos_iff.mpr (hne buf List.mem_cons_self)
    have hrest := fun b hb => hne b (List.mem_cons_of_mem buf hb)
    have hstep : (readAt contents offset buf).1 = min buf.length (contents.length - offset) := rfl
    rw [List.map_cons, List.sum_cons, List.take_add, ← take_readAt, ← drop_readAt]
    by_cases hoffset : offset < contents.length
    · obtain ⟨n, hn⟩ : ∃ n, contents.length - offset = n + 1 :=
        Nat.exists_eq_succ_of_ne_zero (by omega)
      rw [hn, Heap.useBuffersTimes] at huse
      obtain ⟨last, hlast⟩ := Option.isSome_iff_exists.mp huse
      obtain ⟨heap₁, hfirst, hlast⟩ := Option.bind_eq_some_iff.mp hlast
      have hleft : contents.length - (offset + (readAt contents offset buf).1) ≤ n := by omega
      obtain ⟨heap', hends⟩ := ih _ hrest
        (Heap.useBuffersTimes_of_le hleft (Option.isSome_iff_exists.mpr ⟨last, hlast⟩))
      exact ⟨heap', (h.read_inside checks hoffset buf hfirst).ok_bind
        (hends.ok_bind (gives_pure _))⟩
    · have hpast := Nat.not_lt.mp hoffset
      rw [readAt_of_length_le hpast]
      obtain ⟨heap', hends⟩ := ih offset hrest huse
      exact ⟨heap', (h.read_past checks hpast buf (v.On heap)).ok_bind
        (hends.ok_bind (gives_pure _))⟩

theorem HasContents.bytewise_exhausts (h : HasContents v entry contents fuel) (checks : Bool)
    (offset n : ℕ) (hn : offset + n ≤ contents.length)
    (huse : Heap.useBuffersTimes contents.length v.geometry.clusterSize n heap = none) :
    Ends (v.On heap) (readPieces (Fat32Node.read checks v.geometry fuel (.file entry)) offset
      (List.replicate n [0])) .exhausted fun _ => True := by
  induction n generalizing offset heap with
  | zero => exact absurd huse (by simp [Heap.useBuffersTimes])
  | succ n ih =>
    have hoffset : offset < contents.length := by omega
    have hstep : (readAt contents offset [0]).1 = 1 := by
      change min 1 (contents.length - offset) = 1
      omega
    rw [Heap.useBuffersTimes] at huse
    rw [List.replicate_succ]
    cases hfirst : heap.useBuffers contents.length v.geometry.clusterSize with
    | none => exact (h.read_full checks hoffset [0] hfirst).exhausted_bind
    | some heap₁ =>
      rw [hfirst, Option.bind_some] at huse
      refine (h.read_inside checks hoffset [0] hfirst).ok_bind (Ends.exhausted_bind ?_)
      rw [hstep]
      exact ih _ (by omega) huse

theorem HasContents.readsInOrderFrom_iff (h : HasContents v entry contents fuel) (checks : Bool)
    (heap : Heap) :
    ReadsInOrderFrom (v.start heap) (Fat32Node.read checks v.geometry fuel (.file entry)) contents ↔
      (Heap.useBuffersTimes contents.length v.geometry.clusterSize contents.length heap).isSome =
        true := by
  constructor
  · intro hreads
    by_contra hnone
    have hread := h.bytewise_exhausts checks 0 _ (Nat.zero_add _).le
      (Option.not_isSome_iff_eq_none.mp hnone)
    have hdelivered := hreads.delivered (List.replicate contents.length [0]) (by simp)
    rw [(hread _ (v.on_start heap)).1] at hdelivered
    cases hdelivered
  · intro huse
    have hends := fun bufs hne => h.readPieces_ends checks 0 bufs hne huse
    constructor
    · intro bufs hne
      obtain ⟨heap', hends⟩ := hends bufs hne
      exact (hends _ (v.on_start heap)).1
    · intro bufs hne hlength
      obtain ⟨heap', hends⟩ := hends bufs hne
      rw [(hends _ (v.on_start heap)).1, List.drop_zero,
        List.take_of_length_le (hlength.trans (length_le_sum hne))]
    · intro bufs hne offset buf hoffset
      obtain ⟨heap', hends⟩ := hends bufs hne
      exact (h.read_past checks hoffset buf (v.On heap') _ (hends _ (v.on_start heap)).2).1

/-- How often a file can be read: the buffers of the first read must fit, and what every further one
loses must still be there. -/
theorem HasContents.readsInOrderFrom_iff_room (h : HasContents v entry contents fuel) (checks : Bool)
    (hmapped : heap.Mapped) :
    ReadsInOrderFrom (v.start heap) (Fat32Node.read checks v.geometry fuel (.file entry)) contents ↔
      entry.fileSize = 0 ∨ v.HoldsFile heap entry.fileSize ∧
        (entry.fileSize - 1) * (leak entry.fileSize + leak v.geometry.clusterSize) ≤
          heap.roomAfter entry.fileSize v.geometry.clusterSize := by
  rw [h.readsInOrderFrom_iff, h.length_eq]
  rcases Nat.eq_zero_or_pos entry.fileSize with hzero | hpos
  · rw [hzero]
    exact iff_of_true rfl (.inl rfl)
  have hsize := entry.fileSize_lt
  have hcluster := v.clusterSize_le
  obtain ⟨n, hn⟩ := Nat.exists_eq_succ_of_ne_zero (Nat.pos_iff_ne_zero.mp hpos)
  have htimes := hmapped.useBuffersTimes_iff ⟨hpos, by omega⟩
    ⟨h.clusterSize_pos hpos, by omega⟩ n
  have hholds : v.HoldsFile heap entry.fileSize ↔ heap.CanHold entry.fileSize ∧
      (heap.afterBytes entry.fileSize).CanHold v.geometry.clusterSize :=
    ⟨fun h => ⟨h.content, h.clusterBuf⟩, fun h => ⟨h.1, h.2⟩⟩
  rw [hholds, and_assoc]
  rw [show n + 1 = entry.fileSize from hn.symm, show n = entry.fileSize - 1 by omega] at htimes
  simp only [Nat.pos_iff_ne_zero.mp hpos, false_or]
  exact htimes

end Fat32

section Tar
variable {members : List Member} {trailing data : List Byte} {fs : TarFileSystem}
  {path : List Char} {entry : FileEntry}

theorem find_of_lookup (hlookup : TarNode.lookup fs path = some (.file entry)) :
    fs.find (String.ofList (path.dropWhile (· = '/'))) = some entry := by
  unfold TarNode.lookup at hlookup
  dsimp only at hlookup
  split_ifs at hlookup with hroot
  · simp at hlookup
  obtain ⟨entry', hfind, hentry⟩ := Option.map_eq_some_iff.mp hlookup
  obtain rfl := TarNode.file.inj hentry
  exact hfind

theorem exists_member_of_lookup (hnew : TarFileSystem.new (archive members ++ trailing) = some fs)
    (hlookup : TarNode.lookup fs path = some (.file entry)) :
    ∃ m ∈ members, entry = m.entry := by
  have hfiles : fs.files.toList = members.map Member.entry := by
    rw [TarFileSystem.files, data_of_new hnew]
    exact toList_archive members trailing []
  have hmem := List.mem_of_find?_eq_some (find_of_lookup hlookup)
  rw [hfiles] at hmem
  obtain ⟨m, hm, hentry⟩ := List.mem_map.mp hmem
  exact ⟨m, hm, hentry.symm⟩

theorem read_file_eq (hfile : (TarNode.file entry).metadata.nodeType = .file)
    (hlen : entry.data.length < 2 ^ 64) (checks : Bool) (offset : ℕ) (buf : List Byte) :
    TarNode.read checks (.file entry) offset buf = .ok (readAt entry.data offset buf) := by
  have hdir : entry.isDir = false := by
    cases hdir : entry.isDir with
    | false => rfl
    | true => simp [TarNode.metadata, hdir] at hfile
  rw [TarNode.read, hdir, if_neg (by simp)]
  split_ifs with hoffset
  · rw [readAt_of_length_le hoffset]
  · exact copyOut_of_le (Nat.not_le.mp hoffset).le hlen buf

theorem readsInOrder_file (hfile : (TarNode.file entry).metadata.nodeType = .file)
    (hlen : entry.data.length < 2 ^ 64) (checks : Bool) :
    ReadsInOrder (fun _ : Unit => True)
      (fun offset buf => .lift (TarNode.read checks (.file entry) offset buf)) entry.data := by
  apply readsInOrder
  intro offset buf
  rw [read_file_eq hfile hlen]
  exact gives_lift _

theorem tar_read_eq (hnew : TarFileSystem.new (archive members ++ trailing) = some fs)
    (hlookup : TarNode.lookup fs path = some (.file entry))
    (hfile : (TarNode.file entry).metadata.nodeType = .file) (checks : Bool) (offset : ℕ)
    (buf : List Byte) :
    TarNode.read checks (.file entry) offset buf = .ok (readAt entry.data offset buf) := by
  obtain ⟨m, -, rfl⟩ := exists_member_of_lookup hnew hlookup
  exact read_file_eq hfile (m.contents_lt.trans (by decide)) checks offset buf

theorem size_eq_length_iff {p : PlacedEntry} (hp : p ∈ fs.files.placed) :
    p.entry.size = p.entry.data.length ↔ p.offset + 512 + p.entry.size ≤ fs.data.length := by
  obtain ⟨hinside, hdata⟩ := TarIterator.data_of_mem_placed fs.files p hp
  change p.offset + 512 ≤ fs.data.length at hinside
  change p.entry.data = safeDataSlice fs.data (p.offset + 512) p.entry.size at hdata
  rw [hdata, safeDataSlice]
  split_ifs with hfits
  · rw [List.length_take, List.length_drop]
    omega
  · rw [List.length_nil]
    omega

end Tar

def oneFile (spc : Byte) (directory : Sector) (data : List Sector) : Volume RamBlockDevice :=
  .ofRam (mount_smallVolume spc 2 (fatSectorOf [0, 0, 0x0FFFFFFF, 0x0FFFFFFF])
    (directory :: List.replicate (spc.toNat - 1) (sectorOf []) ++ data))

def hiEntry (size : ℕ) : FatDirectoryEntry :=
  ⟨directoryEntry [0x48, 0x49, 0x20, 0x20, 0x20, 0x20, 0x20, 0x20, 0x20, 0x20, 0x20] 0x20 3 size⟩

def helloFile : Volume RamBlockDevice :=
  oneFile 1 (sectorOf (hiEntry 5).bytes) [sectorOf [0x68, 0x65, 0x6C, 0x6C, 0x6F]]

theorem hasContents_oneFile {v : Volume RamBlockDevice} {size : ℕ} {bytes : List Byte}
    (hstart : (hiEntry size).startingCluster = 3) (hsize : (hiEntry size).fileSize = size)
    (hbytes : v.clusterBytes 3 = .ok bytes) (hfits : size ≤ v.geometry.clusterSize) :
    HasContents v (hiEntry size) (bytes.take size) 1 := by
  refine .inr ⟨[], 3, ?_, ?_, Nat.one_pos⟩
  · rw [hstart, hsize]
    exact ⟨.nil 3, by decide, ⟨_, hbytes⟩, hfits.trans (Nat.one_mul _).ge⟩
  · rw [hsize, List.nil_append, List.flatMap_singleton, Volume.bytesOf_eq hbytes]

theorem helloFile_hasContents : HasContents helloFile (hiEntry 5) helloMember.entry.data 1 := by
  have hbytes : helloFile.clusterBytes 3 =
      .ok ([0x68, 0x65, 0x6C, 0x6C, 0x6F] ++ List.replicate 507 0) := by decide +kernel
  exact hasContents_oneFile (by decide) (by decide) hbytes (by decide)

theorem lookup_helloArchive : TarNode.lookup ⟨archive [helloMember] ++ []⟩ ['h', 'i'] =
    some (.file helloMember.entry) := by
  have hfiles : (TarFileSystem.files ⟨archive [helloMember] ++ []⟩).toList = [helloMember.entry] :=
    toList_archive [helloMember] [] []
  rw [TarNode.lookup, TarFileSystem.find, hfiles]
  decide

theorem helloFile_holdsFile : helloFile.HoldsFile bootHeap.heap (hiEntry 5).fileSize := by
  constructor <;> exact (Heap.allocBytes_isSome_iff _ _).mp (by decide)

def slowFile : Volume RamBlockDevice :=
  oneFile 8 (sectorOf (hiEntry 1000).bytes) (List.replicate 8 (sectorOf (List.replicate 512 0x61)))

theorem slowFile_hasContents :
    HasContents slowFile (hiEntry 1000) ((slowFile.bytesOf 3).take 1000) 1 := by
  obtain ⟨bytes, hbytes⟩ : ∃ bytes, slowFile.clusterBytes 3 = .ok bytes := ⟨_, rfl⟩
  rw [Volume.bytesOf_eq hbytes]
  exact hasContents_oneFile (by decide) (by decide) hbytes (by decide)

theorem lookup_hi {v : Volume RamBlockDevice} {s s' : Session RamBlockDevice}
    {entry : FatDirectoryEntry} (hfile : entry.isDirectory = false)
    (hfind : findInDirectory false asciiLowercase v.geometry 1 v.geometry.rootCluster.toNat ['h', 'i']
      s = (.ok entry, s')) :
    Fat32Node.lookup false asciiLowercase v.geometry 1 ['h', 'i'] s =
      (.ok (some (.file entry)), s') := by
  have hresolve : resolvePath false asciiLowercase v.geometry 1 ['h', 'i'] s = (.ok entry, s') := by
    change (findInDirectory false asciiLowercase v.geometry 1 v.geometry.rootCluster.toNat ['h', 'i'] >>=
      _) s = _
    rw [bind_of_ok hfind]
    rfl
  have hattempt : (resolvePath false asciiLowercase v.geometry 1 ['h', 'i']).attempt s =
      (.ok (some entry), s') := by
    unfold attempt
    rw [hresolve]
  change ((resolvePath false asciiLowercase v.geometry 1 ['h', 'i']).attempt >>= _) s = _
  rw [bind_of_ok hattempt]
  dsimp only
  rw [hfile, if_neg Bool.false_ne_true]
  rfl

/-- Reads of a file of any accepted archive deliver its data, in order and nothing else. The size in
its metadata is the number of these bytes exactly if the archive reaches to the end that the header
gives. -/
theorem tar_size_readable_iff (checks : Bool) (data : List Byte) (fs : TarFileSystem)
    (path : List Char) (entry : FileEntry) (hlen : data.length < 2 ^ 64)
    (hnew : TarFileSystem.new data = some fs)
    (hlookup : TarNode.lookup fs path = some (.file entry))
    (hfile : (TarNode.file entry).metadata.nodeType = .file) :
    ReadsInOrder (fun _ : Unit => True)
        (fun offset buf => .lift (TarNode.read checks (.file entry) offset buf)) entry.data ∧
      ∃ p, fs.files.placed.find?
          (fun p => p.entry.name = String.ofList (path.dropWhile (· = '/'))) = some p ∧
        p.entry = entry ∧
        ((TarNode.file entry).metadata.size = entry.data.length ↔
          p.offset + 512 + entry.size ≤ data.length) := by
  obtain rfl := data_of_new hnew
  have hfind := find_of_lookup hlookup
  rw [TarFileSystem.find, TarIterator.toList_eq_map_placed, List.find?_map,
    Option.map_eq_some_iff] at hfind
  obtain ⟨p, hfirst, rfl⟩ := hfind
  have hp := List.mem_of_find?_eq_some hfirst
  have hinside : p.offset + 512 + p.entry.data.length ≤ fs.data.length :=
    (TarIterator.placed_inside fs.files p hp).1
  refine ⟨readsInOrder_file hfile (by omega) checks, p, hfirst, rfl, ?_⟩
  exact size_eq_length_iff hp

theorem tar_size_readable_iff_hello :
    (archive [helloMember] ++ []).length < 2 ^ 64 ∧
      ∃ fs, TarFileSystem.new (archive [helloMember] ++ []) = some fs ∧
        TarNode.lookup fs ['h', 'i'] = some (.file helloMember.entry) ∧
        ReadsInOrder (fun _ : Unit => True)
          (fun offset buf => .lift (TarNode.read true (.file helloMember.entry) offset buf))
          [0x68, 0x65, 0x6C, 0x6C, 0x6F] := by
  have hlen : (archive [helloMember] ++ []).length < 2 ^ 64 := by
    simp only [archive, ustarArchive, List.map_cons, List.map_nil, List.flatMap_cons, List.flatMap_nil,
      List.length_append, List.length_replicate, length_block]
    decide
  have hnew := new_archive [] (List.cons_ne_nil helloMember [])
  obtain ⟨hreads, -⟩ := tar_size_readable_iff true _ _ ['h', 'i'] _ hlen hnew
    lookup_helloArchive rfl
  exact ⟨hlen, _, hnew, lookup_helloArchive, hreads⟩

/-- The archive of a file `hi` of five bytes, cut off after the second of them. -/
def cutArchive : List Byte := helloMember.toUstarMember.header ++ [0x68, 0x65]

/-- The file has the size 5, and a read of it delivers nothing. -/
theorem cut_file_unreadable :
    ∃ fs entry, TarFileSystem.new cutArchive = some fs ∧
      TarNode.lookup fs ['h', 'i'] = some (.file entry) ∧
      (TarNode.file entry).metadata.nodeType = .file ∧
      (TarNode.file entry).metadata.size = 5 ∧
      TarNode.read true (.file entry) 0 [0, 0, 0, 0, 0] = .ok (0, [0, 0, 0, 0, 0]) := by
  have hlength : cutArchive.length = 514 := by
    rw [cutArchive, List.length_append, length_header]
    rfl
  have hfirst : TarIterator.next ⟨cutArchive, 0⟩ =
      (some ⟨"hi", 5, [], 0x30⟩, ⟨cutArchive, 1024⟩) := by
    have hname : helloMember.toUstarMember.filename = "hi" :=
      congrArg FileEntry.name (entry_toUstarMember helloMember)
    have hslice : safeDataSlice cutArchive (0 + 512) 5 = [] := by
      rw [safeDataSlice, hlength]
      rfl
    have hnext := next_header helloMember.toUstarMember [0x68, 0x65] []
    rw [hname] at hnext
    change TarIterator.next ⟨cutArchive, 0⟩ = (some ⟨"hi", 5, safeDataSlice cutArchive (0 + 512) 5,
      0x30⟩, ⟨cutArchive, 1024⟩) at hnext
    rw [hnext, hslice]
  have hlast : TarIterator.next ⟨cutArchive, 1024⟩ = (none, ⟨cutArchive, 1024⟩) := by
    rw [TarIterator.next, hlength]
    rfl
  have hfiles : (TarFileSystem.files ⟨cutArchive⟩).toList = [⟨"hi", 5, [], 0x30⟩] := by
    rw [TarFileSystem.files, TarIterator.toList_of_some hfirst, TarIterator.toList_of_none hlast]
  refine ⟨⟨cutArchive⟩, ⟨"hi", 5, [], 0x30⟩, new_header _ _, ?_, rfl, rfl, rfl⟩
  rw [TarNode.lookup, TarFileSystem.find, hfiles]
  decide

end MitosOS.Fs
