import Mathlib.Data.List.MinMax
import Mathlib.Data.List.Nodup

/-! The mount table of `fs/vfs.rs`. A path goes to the first mount whose path is a string prefix of
it; the routing it is compared with takes the longest prefix that ends at a component boundary. -/
namespace MitosOS.Fs

structure FileSystem (Node : Type*) where
  lookup : List Char → Option Node

structure MountPoint (Node : Type*) where
  path : List Char
  fs : FileSystem Node

structure VirtualFileSystem (Node : Type*) where
  mounts : List (MountPoint Node)

/-- The path that a file system mounted at `mount` is asked for. -/
def lookupPath (mount path : List Char) : List Char :=
  let relativePath := path.drop mount.length
  if relativePath.isEmpty then ['/'] else relativePath

namespace VirtualFileSystem
variable {Node : Type*}

def new : VirtualFileSystem Node := ⟨[]⟩

def mount (v : VirtualFileSystem Node) (path : List Char) (fs : FileSystem Node) :
    VirtualFileSystem Node :=
  ⟨v.mounts ++ [⟨path, fs⟩]⟩

/-- The mount that the loop of `open` stops at, with the path it passes on. -/
def consulted (v : VirtualFileSystem Node) (path : List Char) :
    Option (MountPoint Node × List Char) :=
  (v.mounts.find? fun m => m.path.isPrefixOf path).map fun m => (m, lookupPath m.path path)

def openPath (v : VirtualFileSystem Node) (path : List Char) : Option Node :=
  (v.consulted path).bind fun r => r.1.fs.lookup r.2

def mountAll (calls : List (MountPoint Node)) : VirtualFileSystem Node :=
  calls.foldl (fun v m => v.mount m.path m.fs) new

theorem mounts_foldl_mount (calls : List (MountPoint Node)) (v : VirtualFileSystem Node) :
    (calls.foldl (fun v m => v.mount m.path m.fs) v).mounts = v.mounts ++ calls := by
  induction calls generalizing v with
  | nil => simp
  | cons m calls ih =>
    rw [List.foldl_cons, ih]
    simp [mount]

@[simp] theorem mounts_mountAll (calls : List (MountPoint Node)) :
    (mountAll calls).mounts = calls := by
  simp [mountAll, mounts_foldl_mount, new]

end VirtualFileSystem

/-- `mount` is a prefix of `path` that ends at a component boundary: at either end of `path`, after a
slash or before one. -/
def Covers (mount path : List Char) : Prop :=
  mount <+: path ∧ (mount = [] ∨ mount = path ∨ mount.getLast? = some '/' ∨
    (path.drop mount.length).head? = some '/')

instance (mount path : List Char) : Decidable (Covers mount path) :=
  inferInstanceAs (Decidable (_ ∧ _))

section Routing
variable {Node : Type*} {calls : List (MountPoint Node)} {path : List Char}

/-- The mount with the longest path that covers `path`, and the rest of `path`. -/
def longest (calls : List (MountPoint Node)) (path : List Char) :
    Option (MountPoint Node × List Char) :=
  ((calls.filter fun m => Covers m.path path).argmax fun m => m.path.length).map
    fun m => (m, lookupPath m.path path)

theorem longest_eq_none_iff :
    longest calls path = none ↔ ∀ m ∈ calls, ¬ Covers m.path path := by
  simp [longest, List.argmax_eq_none]

theorem mount_eq_of_length (hdistinct : (calls.map MountPoint.path).Nodup) {m m' : MountPoint Node}
    (hm : m ∈ calls) (hm' : m' ∈ calls) (hstarts : m.path <+: path) (hstarts' : m'.path <+: path)
    (hlength : m.path.length = m'.path.length) : m = m' := by
  have hpath : m.path = m'.path :=
    (List.prefix_of_prefix_length_le hstarts hstarts' hlength.le).eq_of_length hlength
  exact List.inj_on_of_nodup_map hdistinct hm hm' hpath

theorem longest_eq_some_iff (hdistinct : (calls.map MountPoint.path).Nodup) {m : MountPoint Node} :
    longest calls path = some (m, lookupPath m.path path) ↔
      m ∈ calls ∧ Covers m.path path ∧
        ∀ m' ∈ calls, Covers m'.path path → m'.path.length ≤ m.path.length := by
  have hmem : ∀ m', m' ∈ calls.filter (fun m => Covers m.path path) ↔
      m' ∈ calls ∧ Covers m'.path path := by simp
  have hge : ∀ {best : MountPoint Node},
      (calls.filter fun m => Covers m.path path).argmax (fun m => m.path.length) = some best →
      ∀ m' ∈ calls, Covers m'.path path → m'.path.length ≤ best.path.length := by
    intro best hbest m' hm' hcovers
    have hle := List.le_of_mem_argmax ((hmem m').mpr ⟨hm', hcovers⟩) hbest
    exact hle
  constructor
  · intro h
    obtain ⟨m', hmax, heq⟩ := Option.map_eq_some_iff.mp h
    obtain rfl : m' = m := congrArg Prod.fst heq
    obtain ⟨hm, hcovers⟩ := (hmem m').mp (List.argmax_mem hmax)
    exact ⟨hm, hcovers, hge hmax⟩
  · rintro ⟨hm, hcovers, hlongest⟩
    have hne : longest calls path ≠ none := fun hnone => longest_eq_none_iff.mp hnone m hm hcovers
    obtain ⟨r, hr⟩ := Option.ne_none_iff_exists'.mp hne
    obtain ⟨m', hmax, rfl⟩ := Option.map_eq_some_iff.mp hr
    obtain ⟨hm', hcovers'⟩ := (hmem m').mp (List.argmax_mem hmax)
    have hlength : m'.path.length = m.path.length :=
      le_antisymm (hlongest m' hm' hcovers') (hge hmax m hm hcovers)
    rw [hr, mount_eq_of_length hdistinct hm' hm hcovers'.1 hcovers.1 hlength]

theorem covers_self (path : List Char) : Covers path path :=
  ⟨List.prefix_refl path, Or.inr (Or.inl rfl)⟩

/-- The end of `mount` is a component boundary in every path. -/
def SlashEnded (mount : List Char) : Prop := mount = [] ∨ mount.getLast? = some '/'

instance (mount : List Char) : Decidable (SlashEnded mount) := inferInstanceAs (Decidable (_ ∨ _))

theorem covers_iff_of_slashEnded {mount : List Char} (h : SlashEnded mount) :
    Covers mount path ↔ mount <+: path := by
  constructor
  · exact fun hcovers => hcovers.1
  · intro hstarts
    rcases h with hnil | hslash
    · exact ⟨hstarts, Or.inl hnil⟩
    · exact ⟨hstarts, Or.inr (Or.inr (Or.inl hslash))⟩

/-- A letter after a mount path that does not end in a slash continues its last component. -/
theorem not_covers_concat {mount : List Char} (h : ¬ SlashEnded mount) :
    ¬ Covers mount (mount ++ ['x']) := by
  rintro ⟨-, hnil | hself | hslash | hnext⟩
  · exact h (Or.inl hnil)
  · simp at hself
  · exact h (Or.inr hslash)
  · simp at hnext

namespace VirtualFileSystem

theorem consulted_eq_none_iff {v : VirtualFileSystem Node} :
    v.consulted path = none ↔ ∀ m ∈ v.mounts, ¬ m.path <+: path := by
  simp [consulted]

theorem consulted_eq_some_iff {v : VirtualFileSystem Node} {m : MountPoint Node} :
    v.consulted path = some (m, lookupPath m.path path) ↔
      m.path <+: path ∧ ∃ earlier later, v.mounts = earlier ++ m :: later ∧
        ∀ m' ∈ earlier, ¬ m'.path <+: path := by
  have hfind : v.consulted path = some (m, lookupPath m.path path) ↔
      v.mounts.find? (fun m => m.path.isPrefixOf path) = some m := by
    unfold consulted
    constructor
    · intro h
      obtain ⟨m', hm', heq⟩ := Option.map_eq_some_iff.mp h
      obtain rfl : m' = m := congrArg Prod.fst heq
      exact hm'
    · intro h
      rw [h, Option.map_some]
  rw [hfind, List.find?_eq_some_iff_append]
  simp [← List.isPrefixOf_iff_prefix]

end VirtualFileSystem
open VirtualFileSystem

/-- No mount path is a prefix of a later one, and every mount path ends in a slash. -/
structure Routable (calls : List (MountPoint Node)) : Prop where
  unshadowed : calls.Pairwise fun m m' => ¬ m.path <+: m'.path
  slashEnded : ∀ m ∈ calls, SlashEnded m.path

/-- A mount behind one of its own prefixes is not consulted for its own path. -/
theorem unshadowed_of_longest (hdistinct : (calls.map MountPoint.path).Nodup)
    (h : ∀ path, (mountAll calls).consulted path = longest calls path) :
    calls.Pairwise fun m m' => ¬ m.path <+: m'.path := by
  rw [List.pairwise_iff_getElem]
  intro i j hi hj hij hstarts
  have hlongest : longest calls calls[j].path = some (calls[j], lookupPath _ calls[j].path) :=
    (longest_eq_some_iff hdistinct).mpr
      ⟨List.getElem_mem hj, covers_self _, fun m' _ hcovers => hcovers.1.length_le⟩
  rw [← h, consulted_eq_some_iff, mounts_mountAll] at hlongest
  obtain ⟨-, earlier, later, hcalls, hearlier⟩ := hlongest
  have hnodup : calls.Nodup := hdistinct.of_map _
  have hindex : earlier.length = j := by
    have hlt : earlier.length < calls.length := by
      have hlength := congrArg List.length hcalls
      rw [List.length_append, List.length_cons] at hlength
      omega
    have hget : calls[earlier.length] = calls[j] := by
      have hget? := congrArg (fun l => l[earlier.length]?) hcalls
      simpa [List.getElem?_eq_getElem hlt] using hget?
    exact (hnodup.getElem_inj_iff).mp hget
  have hi' : i < earlier.length := by omega
  have hbefore : calls[i] = earlier[i] := by
    have hget? := congrArg (fun l => l[i]?) hcalls
    simpa [List.getElem?_eq_getElem, hi, hi', List.getElem?_append_left hi'] using hget?
  exact hearlier earlier[i] (List.getElem_mem hi') (hbefore ▸ hstarts)

theorem slashEnded_of_longest (hdistinct : (calls.map MountPoint.path).Nodup)
    (h : ∀ path, (mountAll calls).consulted path = longest calls path) :
    ∀ m ∈ calls, SlashEnded m.path := by
  by_contra! hbad
  obtain ⟨bad, hbad, hopen⟩ := hbad
  -- the longest of the mount paths that do not end in a slash, followed by a letter
  have hne : (calls.filter fun m => ¬ SlashEnded m.path).argmax (fun m => m.path.length) ≠ none := by
    rw [Ne, List.argmax_eq_none]
    exact List.ne_nil_of_mem (List.mem_filter.mpr ⟨hbad, by simpa using hopen⟩)
  obtain ⟨m, hmax⟩ := Option.ne_none_iff_exists'.mp hne
  obtain ⟨hm, hm'⟩ := List.mem_filter.mp (List.argmax_mem hmax)
  have hended : ¬ SlashEnded m.path := by simpa using hm'
  have hstarts : m.path <+: m.path ++ ['x'] := List.prefix_append _ _
  cases hconsulted : (mountAll calls).consulted (m.path ++ ['x']) with
  | none =>
    rw [consulted_eq_none_iff, mounts_mountAll] at hconsulted
    exact hconsulted m hm hstarts
  | some r =>
    have hlongest := hconsulted
    rw [h] at hlongest
    obtain ⟨first, -, rfl⟩ := Option.map_eq_some_iff.mp hconsulted
    obtain ⟨hfirst, hcovers, -⟩ := (longest_eq_some_iff hdistinct).mp hlongest
    obtain ⟨-, earlier, later, hcalls, hearlier⟩ := consulted_eq_some_iff.mp hconsulted
    rw [mounts_mountAll] at hcalls
    rcases List.prefix_concat_iff.mp hcovers.1 with heq | hshorter
    · have hopen : ¬ SlashEnded first.path := by simp [SlashEnded, heq]
      have hmem : first ∈ calls.filter fun m => ¬ SlashEnded m.path :=
        List.mem_filter.mpr ⟨hfirst, by simpa using hopen⟩
      have hle := List.le_of_mem_argmax hmem hmax
      simp only [heq, List.length_append, List.length_singleton] at hle
      omega
    · rw [hcalls, List.mem_append, List.mem_cons] at hm
      rcases hm with hbefore | rfl | hafter
      · exact hearlier m hbefore hstarts
      · exact not_covers_concat hended hcovers
      · have hunshadowed := unshadowed_of_longest hdistinct h
        rw [hcalls, List.pairwise_append, List.pairwise_cons] at hunshadowed
        exact hunshadowed.2.1.1 m hafter hshorter

theorem Routable.consulted_eq_longest (hdistinct : (calls.map MountPoint.path).Nodup)
    (h : Routable calls) (path : List Char) :
    (mountAll calls).consulted path = longest calls path := by
  cases hconsulted : (mountAll calls).consulted path with
  | none =>
    have hnone := consulted_eq_none_iff.mp hconsulted
    rw [mounts_mountAll] at hnone
    exact (longest_eq_none_iff.mpr fun m hm hcovers => hnone m hm hcovers.1).symm
  | some r =>
    obtain ⟨m, -, rfl⟩ := Option.map_eq_some_iff.mp hconsulted
    obtain ⟨hstarts, earlier, later, hcalls, hearlier⟩ := consulted_eq_some_iff.mp hconsulted
    rw [mounts_mountAll] at hcalls
    have hm : m ∈ calls := by simp [hcalls]
    have hlater : ∀ m' ∈ later, ¬ m.path <+: m'.path := by
      have hunshadowed := h.unshadowed
      rw [hcalls, List.pairwise_append, List.pairwise_cons] at hunshadowed
      exact hunshadowed.2.1.1
    have hcovers : Covers m.path path := (covers_iff_of_slashEnded (h.slashEnded m hm)).mpr hstarts
    refine ((longest_eq_some_iff hdistinct).mpr ⟨hm, hcovers, fun m' hm' hcovers' => ?_⟩).symm
    rw [hcalls, List.mem_append, List.mem_cons] at hm'
    rcases hm' with hbefore | rfl | hafter
    · exact absurd hcovers'.1 (hearlier m' hbefore)
    · exact le_rfl
    · rcases List.prefix_or_prefix_of_prefix hstarts hcovers'.1 with hle | hle
      · exact absurd hle (hlater m' hafter)
      · exact hle.length_le

/-- `open` consults the longest cover of every path exactly if no mount path is a prefix of a later
one and every mount path ends in a slash. -/
theorem consulted_longest_iff (calls : List (MountPoint Node))
    (hdistinct : (calls.map MountPoint.path).Nodup) :
    (∀ path, (mountAll calls).consulted path = longest calls path) ↔ Routable calls := by
  constructor
  · intro h
    exact ⟨unshadowed_of_longest hdistinct h, slashEnded_of_longest hdistinct h⟩
  · intro h path
    exact h.consulted_eq_longest hdistinct path

end Routing

def numbered (n : ℕ) : FileSystem ℕ := ⟨fun _ => some n⟩

/-- The mounts of `kmain_common`: the archive at `/`, then the volume at `/disk`. -/
def bootMounts : List (MountPoint ℕ) :=
  [⟨"/".toList, numbered 0⟩, ⟨"/disk".toList, numbered 1⟩]

theorem consulted_longest_iff_nested :
    ([⟨"/disk/".toList, numbered 1⟩, ⟨"/".toList, numbered 0⟩].map MountPoint.path).Nodup ∧
      ∀ path, (VirtualFileSystem.mountAll
          [⟨"/disk/".toList, numbered 1⟩, ⟨"/".toList, numbered 0⟩]).consulted path =
        longest [⟨"/disk/".toList, numbered 1⟩, ⟨"/".toList, numbered 0⟩] path := by
  have hdistinct :
      ([⟨"/disk/".toList, numbered 1⟩, ⟨"/".toList, numbered 0⟩].map MountPoint.path).Nodup := by
    decide
  refine ⟨hdistinct, (consulted_longest_iff _ hdistinct).mpr ⟨?_, ?_⟩⟩
  · simp
  · simp [SlashEnded]

/-- With the mounts of the kernel, a path under `/disk` goes to the archive. -/
theorem disk_path_goes_to_archive :
    (bootMounts.map MountPoint.path).Nodup ∧
      (VirtualFileSystem.mountAll bootMounts).openPath "/disk/a".toList = some 0 ∧
      (longest bootMounts "/disk/a".toList).bind (fun r => r.1.fs.lookup r.2) = some 1 := by
  decide

end MitosOS.Fs
