import MitosOS.Fs.Ramdisk
import Mathlib.Data.List.Nodup

/-! Names of archive members. The format splits a long path into a prefix and a name; the reader looks
at the name alone. -/
namespace MitosOS.Fs
open MitosOS.Lib

def UstarMember.ShownInvalid (m : UstarMember) : Prop :=
  isUtf8 m.name = false ∨ m.name = textBytes "<invalid utf8>"

/-- The path of a member: the prefix, a slash and the name, or the name alone. -/
def UstarMember.fullPath (m : UstarMember) : List Byte :=
  if m.directory = [] then m.name else m.directory ++ 0x2F :: m.name

section Names
variable {m : UstarMember} {members : List UstarMember} {path : String}

theorem fullPath_of_directory_nil (h : m.directory = []) : m.fullPath = m.name := if_pos h

theorem filename_of_textBytes (h : textBytes path = m.name) : m.filename = path := by
  rw [UstarMember.filename, ← h, fromUtf8_textBytes]
  rfl

theorem shownInvalid_iff : m.ShownInvalid ↔ m.filename = "<invalid utf8>" := by
  unfold UstarMember.ShownInvalid UstarMember.filename isUtf8
  cases hdecode : fromUtf8 m.name with
  | none => simp
  | some shown =>
    rw [← textBytes_of_fromUtf8 hdecode]
    constructor
    · rintro (hnone | hname)
      · exact absurd hnone (by simp)
      · have hshown := fromUtf8_textBytes shown
        rw [hname, fromUtf8_textBytes] at hshown
        exact (Option.some.inj hshown).symm
    · intro hshown
      exact .inr (congrArg textBytes hshown)

/-- Two members are shown under one name if they have the same name field, or if neither of the two
can be told from one that is not UTF-8. -/
theorem filename_eq_iff {m' : UstarMember} : m.filename = m'.filename ↔
    m.name = m'.name ∨ m.ShownInvalid ∧ m'.ShownInvalid := by
  constructor
  · intro hsame
    by_cases hinvalid : m.ShownInvalid
    · exact .inr ⟨hinvalid, shownInvalid_iff.mpr (hsame ▸ shownInvalid_iff.mp hinvalid)⟩
    have hinvalid' : ¬ m'.ShownInvalid := fun h =>
      hinvalid (shownInvalid_iff.mpr (hsame.trans (shownInvalid_iff.mp h)))
    have hutf8 : ∀ {m : UstarMember}, ¬ m.ShownInvalid → textBytes m.filename = m.name := by
      intro m hvalid
      cases hdecode : fromUtf8 m.name with
      | none => exact absurd (.inl (by rw [isUtf8, hdecode]; rfl)) hvalid
      | some shown =>
        rw [UstarMember.filename, hdecode]
        exact textBytes_of_fromUtf8 hdecode
    exact .inl (by rw [← hutf8 hinvalid, ← hutf8 hinvalid', hsame])
  · rintro (hname | ⟨hinvalid, hinvalid'⟩)
    · rw [UstarMember.filename, UstarMember.filename, hname]
    · exact (shownInvalid_iff.mp hinvalid).trans (shownInvalid_iff.mp hinvalid').symm

theorem nodup_filename_iff : (members.map UstarMember.filename).Nodup ↔
    members.Pairwise fun m m' => m.name ≠ m'.name ∧ ¬ (m.ShownInvalid ∧ m'.ShownInvalid) := by
  rw [List.Nodup, List.pairwise_map]
  simp only [ne_eq, filename_eq_iff, not_or]

/-- A member is shown under its full path only if it has no prefix. What is shown for a name that is
not UTF-8 has no slash. -/
theorem directory_nil_of_filename (hpath : textBytes path = m.fullPath) (hname : m.filename = path) :
    m.directory = [] := by
  by_contra hdirectory
  rw [UstarMember.fullPath, if_neg hdirectory] at hpath
  cases hdecode : fromUtf8 m.name with
  | some shown =>
    have hshown : shown = path := by
      rw [← hname, UstarMember.filename, hdecode]
      rfl
    have hbytes := textBytes_of_fromUtf8 hdecode
    rw [hshown, hpath] at hbytes
    have hlength := congrArg List.length hbytes
    rw [List.length_append, List.length_cons] at hlength
    omega
  | none =>
    have hshown : path = "<invalid utf8>" := by
      rw [← hname, UstarMember.filename, hdecode]
      rfl
    have hslash : 0x2F ∈ textBytes path := by
      rw [hpath]
      exact List.mem_append_right _ List.mem_cons_self
    rw [hshown] at hslash
    exact absurd hslash (by decide)

theorem find?_filename (hnames : (members.map UstarMember.filename).Nodup) (hm : m ∈ members)
    (hname : m.filename = path) :
    (members.map UstarMember.entry).find? (fun e => e.name = path) = some m.entry := by
  induction members with
  | nil => exact absurd hm List.not_mem_nil
  | cons first members ih =>
    rw [List.map_cons, List.nodup_cons] at hnames
    rcases List.mem_cons.mp hm with rfl | hm
    · exact List.find?_cons_of_pos (decide_eq_true hname)
    · have hne : ¬ first.entry.name = path := by
        intro hfirst
        exact hnames.1 (List.mem_map.mpr ⟨m, hm, hname.trans hfirst.symm⟩)
      rw [List.map_cons, List.find?_cons_of_neg (by simpa using hne)]
      exact ih hnames.2 hm

theorem nodup_filename (hdistinct : (members.map UstarMember.fullPath).Nodup)
    (hplain : ∀ m ∈ members, m.directory = [] ∧ ∃ path, textBytes path = m.name) :
    (members.map UstarMember.filename).Nodup := by
  apply List.Nodup.map_on _ hdistinct.of_map
  intro m hm m' hm' hsame
  obtain ⟨hdirectory, path, hpath⟩ := hplain m hm
  obtain ⟨hdirectory', path', hpath'⟩ := hplain m' hm'
  rw [filename_of_textBytes hpath, filename_of_textBytes hpath'] at hsame
  apply List.inj_on_of_nodup_map hdistinct hm hm'
  rw [fullPath_of_directory_nil hdirectory, fullPath_of_directory_nil hdirectory', ← hpath, ← hpath',
    hsame]

end Names

/-- Members with distinct full paths have distinct names and are found by their full paths exactly if
the name fields alone are distinct, at most one of them is shown as invalid, and no member whose path
can be asked for has a prefix. That is so if no member has a prefix and all names are UTF-8. -/
theorem tar_full_paths_iff (members : List UstarMember) (trailing : List Byte) (hne : members ≠ [])
    (hdistinct : (members.map UstarMember.fullPath).Nodup) :
    ∃ fs, TarFileSystem.new (ustarArchive members ++ trailing) = some fs ∧
      fs.files.toList = members.map UstarMember.entry ∧
      (((fs.files.toList.map FileEntry.name).Nodup ∧
          ∀ m ∈ members, ∀ path, textBytes path = m.fullPath → fs.find path = some m.entry) ↔
        (members.Pairwise fun m m' => m.name ≠ m'.name ∧ ¬ (m.ShownInvalid ∧ m'.ShownInvalid)) ∧
          ∀ m ∈ members, (∃ path, textBytes path = m.fullPath) → m.directory = []) ∧
      ((∀ m ∈ members, m.directory = [] ∧ ∃ path, textBytes path = m.name) →
        members.Pairwise fun m m' => m.name ≠ m'.name ∧ ¬ (m.ShownInvalid ∧ m'.ShownInvalid)) := by
  have hfiles : (TarFileSystem.files ⟨ustarArchive members ++ trailing⟩).toList =
      members.map UstarMember.entry := toList_ustarArchive trailing members []
  have hnames : (members.map UstarMember.entry).map FileEntry.name =
      members.map UstarMember.filename := by
    rw [List.map_map]
    rfl
  rw [← nodup_filename_iff]
  refine ⟨_, new_ustarArchive trailing hne, hfiles, ?_, nodup_filename hdistinct⟩
  rw [hfiles, hnames]
  apply and_congr_right
  intro hnodup
  constructor
  · intro hfind m hm hutf8
    obtain ⟨path, hpath⟩ := hutf8
    have hfound := hfind m hm path hpath
    have hname := List.find?_some hfound
    exact directory_nil_of_filename hpath (of_decide_eq_true hname)
  · intro hdirectory m hm path hpath
    have hplain := fullPath_of_directory_nil (hdirectory m hm ⟨path, hpath⟩)
    rw [TarFileSystem.find, hfiles]
    exact find?_filename hnodup hm (filename_of_textBytes (hpath.trans hplain))

/-- A file `x` in the directory `d`; without a directory if `d` is empty. -/
def fileX (d : List Byte) (hle : d.length ≤ 155) (hnul : 0 ∉ d) : UstarMember :=
  { helloMember.toUstarMember with
    name := [0x78]
    directory := d
    name_pos := by decide
    name_le := by decide
    name_nul := by decide
    directory_le := hle
    directory_nul := hnul }

def memberAX : UstarMember := fileX [0x61] (by decide) (by decide)

def memberBX : UstarMember := fileX [0x62] (by decide) (by decide)

theorem tar_full_paths_iff_plain :
    ([helloMember.toUstarMember, fileX [] (by decide) (by decide)].map UstarMember.fullPath).Nodup ∧
      ∃ fs, TarFileSystem.new
          (ustarArchive [helloMember.toUstarMember, fileX [] (by decide) (by decide)] ++ []) = some fs ∧
        (fs.files.toList.map FileEntry.name).Nodup ∧
        fs.find "x" = some (fileX [] (by decide) (by decide)).entry := by
  have hdistinct : ([helloMember.toUstarMember, fileX [] (by decide) (by decide)].map
      UstarMember.fullPath).Nodup := by decide
  have hplain : ∀ m ∈ [helloMember.toUstarMember, fileX [] (by decide) (by decide)],
      m.directory = [] := by
    intro m hm
    rcases List.mem_pair.mp hm with rfl | rfl
    · rfl
    · rfl
  have hutf8 : ∀ m ∈ [helloMember.toUstarMember, fileX [] (by decide) (by decide)],
      m.directory = [] ∧ ∃ path, textBytes path = m.name := by
    intro m hm
    refine ⟨hplain m hm, ?_⟩
    rcases List.mem_pair.mp hm with rfl | rfl
    · exact ⟨"hi", rfl⟩
    · exact ⟨"x", by decide⟩
  obtain ⟨fs, hnew, -, hiff, hnames⟩ := tar_full_paths_iff _ [] (List.cons_ne_nil _ _) hdistinct
  obtain ⟨hnodup, hfind⟩ := hiff.mpr ⟨hnames hutf8, fun m hm _ => hplain m hm⟩
  refine ⟨hdistinct, fs, hnew, hnodup, ?_⟩
  exact hfind _ (List.mem_cons_of_mem _ List.mem_cons_self) "x" (by decide)

/-- `a/x` and `b/x` are two entries with the name `x`, and neither is found by its path. -/
theorem tar_names_collide :
    ([memberAX, memberBX].map UstarMember.fullPath).Nodup ∧
      textBytes "a/x" = memberAX.fullPath ∧
      ∃ fs, TarFileSystem.new (ustarArchive [memberAX, memberBX]) = some fs ∧
        fs.files.toList.map FileEntry.name = ["x", "x"] ∧
        fs.find "a/x" = none ∧ fs.find "b/x" = none := by
  have hnew := new_ustarArchive [] (List.cons_ne_nil memberAX [memberBX])
  have hfiles := toList_ustarArchive [] [memberAX, memberBX] []
  rw [List.append_nil] at hnew hfiles
  rw [List.nil_append] at hfiles
  have hfiles' : (TarFileSystem.files ⟨ustarArchive [memberAX, memberBX]⟩).toList =
      [memberAX.entry, memberBX.entry] := hfiles
  have hname : memberAX.filename = "x" ∧ memberBX.filename = "x" :=
    ⟨filename_of_textBytes (by decide), filename_of_textBytes (by decide)⟩
  have hentry : memberAX.entry.name = "x" ∧ memberBX.entry.name = "x" := hname
  refine ⟨by decide, by decide, _, hnew, ?_, ?_, ?_⟩
  · rw [hfiles', List.map_cons, List.map_cons, List.map_nil, hentry.1, hentry.2]
  · rw [TarFileSystem.find, hfiles']
    simp [hentry.1, hentry.2]
  · rw [TarFileSystem.find, hfiles']
    simp [hentry.1, hentry.2]

end MitosOS.Fs
