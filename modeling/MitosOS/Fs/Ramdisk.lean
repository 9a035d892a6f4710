import MitosOS.Lib.Text
import Mathlib.Tactic.Ring

/-! The USTAR ramdisk of `ramdisk.rs`: an archive is a sequence of 512-byte headers, each followed by
the contents of one member, padded to whole blocks. -/
namespace MitosOS.Fs
open MitosOS.Lib

structure UstarHeader where
  name : List Byte
  size : List Byte
  typeflag : Byte
  magic : List Byte

namespace UstarHeader

def read (bytes : List Byte) : UstarHeader where
  name := bytes.take 100
  size := (bytes.drop 124).take 12
  typeflag := bytes.getD 156 0
  magic := (bytes.drop 257).take 6

/-- The loop of `file_size`: a NUL or a space ends the number, any other byte that is not an octal
digit is skipped. -/
def octalValue (size : ℕ) : List Byte → ℕ
  | [] => size
  | byte :: bytes =>
    if byte = 0x00 ∨ byte = 0x20 then size
    else if 0x30 ≤ byte ∧ byte ≤ 0x37 then octalValue (size <<< 3 ||| (byte - 0x30).toNat) bytes
    else octalValue size bytes

def fileSize (h : UstarHeader) : ℕ := octalValue 0 h.size

def filename (h : UstarHeader) : String :=
  (fromUtf8 (h.name.takeWhile (· ≠ 0))).getD "<invalid utf8>"

def ustar : List Byte := [0x75, 0x73, 0x74, 0x61, 0x72]

def isValid (h : UstarHeader) : Bool := h.magic == ustar ++ [0x00] || h.magic == ustar ++ [0x20]

end UstarHeader

structure FileEntry where
  name : String
  size : ℕ
  data : List Byte
  typeflag : Byte
  deriving DecidableEq

/-- The contents of a member, or nothing if they reach past the end. -/
def safeDataSlice (data : List Byte) (dataStart fileSize : ℕ) : List Byte :=
  if dataStart + fileSize ≤ data.length then (data.drop dataStart).take fileSize else []

structure TarIterator where
  data : List Byte
  offset : ℕ

namespace TarIterator

def next (it : TarIterator) : Option FileEntry × TarIterator :=
  if it.offset + 512 ≤ it.data.length then
    let header := UstarHeader.read (it.data.drop it.offset)
    if header.name.head? = some 0 then (none, it)
    else if !header.isValid then (none, it)
    else
      let fileSize := header.fileSize
      let dataStart := it.offset + 512
      let paddedSize := alignDown (fileSize + 511) 512
      (some ⟨header.filename, fileSize, safeDataSlice it.data dataStart fileSize, header.typeflag⟩,
        { it with offset := dataStart + paddedSize })
  else (none, it)

theorem next_some {it it' : TarIterator} {e : FileEntry} (h : it.next = (some e, it')) :
    it'.data = it.data ∧ it.offset + 512 ≤ it.data.length ∧ it.offset + 512 ≤ it'.offset := by
  unfold next at h
  dsimp only at h
  split_ifs at h with hlen hzero hvalid
  all_goals simp only [Prod.mk.injEq, reduceCtorEq, false_and] at h
  obtain ⟨-, rfl⟩ := h
  exact ⟨rfl, hlen, Nat.le_add_right _ _⟩

def toList (it : TarIterator) : List FileEntry :=
  match _h : it.next with
  | (none, _) => []
  | (some e, it') => e :: it'.toList
termination_by it.data.length - it.offset
decreasing_by
  obtain ⟨hdata, hlen, hoffset⟩ := next_some _h
  rw [hdata]
  omega

theorem toList_of_none {it it' : TarIterator} (h : it.next = (none, it')) : it.toList = [] := by
  unfold toList
  split
  case h_1 => rfl
  case h_2 heq => simp [h] at heq

theorem toList_of_some {it it' : TarIterator} {e : FileEntry} (h : it.next = (some e, it')) :
    it.toList = e :: it'.toList := by
  rw [toList]
  split
  case h_1 heq => simp [h] at heq
  case h_2 e' it'' heq =>
    rw [h] at heq
    obtain ⟨he, hit⟩ := Prod.mk.inj heq
    rw [← Option.some.inj he, ← hit]

end TarIterator

structure TarFileSystem where
  data : List Byte

namespace TarFileSystem

def new (data : List Byte) : Option TarFileSystem :=
  if data.length < 512 then none
  else if !(UstarHeader.read data).isValid then none
  else some ⟨data⟩

def files (fs : TarFileSystem) : TarIterator := ⟨fs.data, 0⟩

def find (fs : TarFileSystem) (targetName : String) : Option FileEntry :=
  fs.files.toList.find? fun entry => entry.name = targetName

end TarFileSystem

/-- The most significant digit first, padded with zeros to the width. -/
def octalDigits : ℕ → ℕ → List Byte
  | 0, _ => []
  | width + 1, n => octalDigits width (n / 8) ++ [BitVec.ofNat 8 (0x30 + n % 8)]

/-- A member of an archive as the format has it: the name and the prefix, here `directory`, are bytes
that end at the first NUL or fill their field. -/
structure UstarMember where
  name : List Byte
  directory : List Byte
  contents : List Byte
  typeflag : Byte
  sizeEnd : Byte
  magicEnd : Byte
  modeUidGid : Vector Byte 24
  mtimeChecksum : Vector Byte 20
  linkname : Vector Byte 100
  versionToDevminor : Vector Byte 82
  pad : Vector Byte 12
  name_pos : 0 < name.length
  name_le : name.length ≤ 100
  name_nul : 0 ∉ name
  directory_le : directory.length ≤ 155
  directory_nul : 0 ∉ directory
  contents_lt : contents.length < 8 ^ 11
  sizeEnd_eq : sizeEnd = 0x00 ∨ sizeEnd = 0x20
  magicEnd_eq : magicEnd = 0x00 ∨ magicEnd = 0x20

namespace UstarMember

def nameField (m : UstarMember) : List Byte := m.name ++ List.replicate (100 - m.name.length) 0

def directoryField (m : UstarMember) : List Byte :=
  m.directory ++ List.replicate (155 - m.directory.length) 0

def sizeField (m : UstarMember) : List Byte := octalDigits 11 m.contents.length ++ [m.sizeEnd]

def magicField (m : UstarMember) : List Byte := UstarHeader.ustar ++ [m.magicEnd]

def fields (m : UstarMember) : List (List Byte) :=
  [m.nameField, m.modeUidGid.toList, m.sizeField, m.mtimeChecksum.toList, [m.typeflag],
    m.linkname.toList, m.magicField, m.versionToDevminor.toList, m.directoryField, m.pad.toList]

def header (m : UstarMember) : List Byte := m.fields.flatten

def paddedContents (m : UstarMember) : List Byte :=
  m.contents ++ List.replicate (alignDown (m.contents.length + 511) 512 - m.contents.length) 0

def block (m : UstarMember) : List Byte := m.header ++ m.paddedContents

/-- The name that the reader shows: the prefix is not part of it. -/
def filename (m : UstarMember) : String :=
  (fromUtf8 m.name).getD "<invalid utf8>"

def entry (m : UstarMember) : FileEntry := ⟨m.filename, m.contents.length, m.contents, m.typeflag⟩

end UstarMember

/-- The members one after the other, then two zero blocks. -/
def ustarArchive (members : List UstarMember) : List Byte :=
  members.flatMap UstarMember.block ++ List.replicate 1024 0

structure Member extends UstarMember where
  path : String
  name_eq : name = textBytes path
  directory_eq : directory = []

def Member.entry (m : Member) : FileEntry := ⟨m.path, m.contents.length, m.contents, m.typeflag⟩

def archive (members : List Member) : List Byte :=
  ustarArchive (members.map Member.toUstarMember)

section Fields
variable (m : UstarMember) (rest : List Byte)

theorem length_octalDigits (width n : ℕ) : (octalDigits width n).length = width := by
  induction width generalizing n with
  | zero => rfl
  | succ width ih => simp [octalDigits, ih]

theorem shiftLeft_or_digit (size : ℕ) {d : ℕ} (hd : d < 8) : size <<< 3 ||| d = size * 8 + d := by
  rw [← Nat.shiftLeft_add_eq_or_of_lt hd, Nat.shiftLeft_eq]

theorem octalValue_digit {d : ℕ} (hd : d < 8) (acc : ℕ) (bytes : List Byte) :
    UstarHeader.octalValue acc (BitVec.ofNat 8 (0x30 + d) :: bytes) =
      UstarHeader.octalValue (acc * 8 + d) bytes := by
  have hbyte : ∀ d < 8, ¬ (BitVec.ofNat 8 (0x30 + d) = 0x00 ∨ BitVec.ofNat 8 (0x30 + d) = 0x20) ∧
      (0x30 ≤ BitVec.ofNat 8 (0x30 + d) ∧ BitVec.ofNat 8 (0x30 + d) ≤ 0x37) ∧
      (BitVec.ofNat 8 (0x30 + d) - 0x30).toNat = d := by decide
  obtain ⟨hend, hrange, hvalue⟩ := hbyte d hd
  rw [UstarHeader.octalValue, if_neg hend, if_pos hrange, hvalue, shiftLeft_or_digit acc hd]

theorem octalValue_octalDigits (width n acc : ℕ) (bytes : List Byte) :
    UstarHeader.octalValue acc (octalDigits width n ++ bytes) =
      UstarHeader.octalValue (acc * 8 ^ width + n % 8 ^ width) bytes := by
  induction width generalizing n bytes with
  | zero => simp [octalDigits, Nat.mod_one]
  | succ width ih =>
    have hvalue : (acc * 8 ^ width + n / 8 % 8 ^ width) * 8 + n % 8 =
        acc * 8 ^ (width + 1) + n % 8 ^ (width + 1) := by
      rw [pow_succ', Nat.mod_mul]
      ring
    rw [octalDigits, List.append_assoc, ih, List.singleton_append,
      octalValue_digit (Nat.mod_lt n (by decide)), hvalue]

theorem length_nameField : m.nameField.length = 100 := by
  have hle := m.name_le
  rw [UstarMember.nameField, List.length_append, List.length_replicate]
  omega

theorem length_directoryField : m.directoryField.length = 155 := by
  have hle := m.directory_le
  rw [UstarMember.directoryField, List.length_append, List.length_replicate]
  omega

theorem length_sizeField : m.sizeField.length = 12 := by
  simp [UstarMember.sizeField, length_octalDigits]

theorem length_magicField : m.magicField.length = 6 := rfl

theorem length_header : m.header.length = 512 := by
  simp [UstarMember.header, UstarMember.fields, length_nameField, length_sizeField,
    length_magicField, length_directoryField]

theorem drop_header {i offset : ℕ} (hi : i < m.fields.length)
    (hoffset : (m.fields.take i).flatten.length = offset) :
    (m.header ++ rest).drop offset =
      m.fields[i] ++ ((m.fields.drop (i + 1)).flatten ++ rest) := by
  have hsplit : m.header ++ rest = (m.fields.take i).flatten ++
      (m.fields[i] ++ ((m.fields.drop (i + 1)).flatten ++ rest)) := by
    rw [UstarMember.header]
    nth_rewrite 1 [← List.take_append_drop i m.fields]
    rw [List.drop_eq_getElem_cons hi]
    simp only [List.flatten_append, List.flatten_cons, List.append_assoc]
  rw [hsplit, List.drop_left' hoffset]

theorem read_header : UstarHeader.read (m.header ++ rest) =
    ⟨m.nameField, m.sizeField, m.typeflag, m.magicField⟩ := by
  have hlengths : (m.fields.take 0).flatten.length = 0 ∧ (m.fields.take 2).flatten.length = 124 ∧
      (m.fields.take 4).flatten.length = 156 ∧ (m.fields.take 6).flatten.length = 257 := by
    simp [UstarMember.fields, length_nameField, length_sizeField]
  obtain ⟨hname, hsize, htypeflag, hmagic⟩ := hlengths
  have hcount : m.fields.length = 10 := rfl
  have hdrop₀ := drop_header m rest (hcount ▸ by decide) hname
  have hdrop₂ := drop_header m rest (hcount ▸ by decide) hsize
  have hdrop₄ := drop_header m rest (hcount ▸ by decide) htypeflag
  have hdrop₆ := drop_header m rest (hcount ▸ by decide) hmagic
  have hname' : (m.header ++ rest).take 100 = m.nameField := by
    rw [List.drop_zero] at hdrop₀
    rw [hdrop₀]
    exact List.take_left' (length_nameField m)
  have hsize' : ((m.header ++ rest).drop 124).take 12 = m.sizeField := by
    rw [hdrop₂]
    exact List.take_left' (length_sizeField m)
  have htypeflag' : (m.header ++ rest).getD 156 0 = m.typeflag := by
    have hhead : (m.header ++ rest).getD 156 0 = ((m.header ++ rest).drop 156).getD 0 0 := by
      simp [List.getD]
    rw [hhead, hdrop₄]
    rfl
  have hmagic' : ((m.header ++ rest).drop 257).take 6 = m.magicField := by
    rw [hdrop₆]
    exact List.take_left' (length_magicField m)
  rw [UstarHeader.read, hname', hsize', htypeflag', hmagic']

theorem fileSize_header : (UstarHeader.read (m.header ++ rest)).fileSize = m.contents.length := by
  have hvalue := octalValue_octalDigits 11 m.contents.length 0 [m.sizeEnd]
  have hend : UstarHeader.octalValue m.contents.length [m.sizeEnd] = m.contents.length := by
    rw [UstarHeader.octalValue, if_pos m.sizeEnd_eq]
  rw [Nat.zero_mul, Nat.zero_add, Nat.mod_eq_of_lt m.contents_lt, hend] at hvalue
  rw [read_header]
  exact hvalue

theorem isValid_header : (UstarHeader.read (m.header ++ rest)).isValid = true := by
  rw [read_header]
  rcases m.magicEnd_eq with hend | hend
  · simp [UstarHeader.isValid, UstarMember.magicField, hend]
  · simp [UstarHeader.isValid, UstarMember.magicField, hend]

theorem filename_header : (UstarHeader.read (m.header ++ rest)).filename = m.filename := by
  have hname : m.nameField.takeWhile (· ≠ 0) = m.name := by
    have hkeep : ∀ b ∈ m.name, decide (b ≠ 0) = true := by
      intro b hb
      rw [decide_eq_true_eq]
      rintro rfl
      exact m.name_nul hb
    rw [UstarMember.nameField, List.takeWhile_append_of_pos hkeep]
    simp
  rw [read_header, UstarHeader.filename, hname, UstarMember.filename]

theorem head_header : (UstarHeader.read (m.header ++ rest)).name.head? ≠ some 0 := by
  rw [read_header]
  have hpos := m.name_pos
  have hnul := m.name_nul
  unfold UstarMember.nameField
  cases hbytes : m.name with
  | nil => simp [hbytes] at hpos
  | cons b bytes =>
    rw [hbytes, List.mem_cons, not_or] at hnul
    simpa using Ne.symm hnul.1

theorem length_paddedContents :
    m.paddedContents.length = alignDown (m.contents.length + 511) 512 := by
  have hle : m.contents.length ≤ alignDown (m.contents.length + 511) 512 := by
    unfold alignDown
    omega
  rw [UstarMember.paddedContents, List.length_append, List.length_replicate]
  omega

/-- At a header the iterator yields its entry, with the contents as far as they are there. -/
theorem next_header (before : List Byte) :
    TarIterator.next ⟨before ++ (m.header ++ rest), before.length⟩ =
      (some ⟨m.filename, m.contents.length, safeDataSlice (before ++ (m.header ++ rest))
          (before.length + 512) m.contents.length, m.typeflag⟩,
        ⟨before ++ (m.header ++ rest),
          before.length + 512 + alignDown (m.contents.length + 511) 512⟩) := by
  have hfits : before.length + 512 ≤ (before ++ (m.header ++ rest)).length := by
    simp only [List.length_append, length_header]
    omega
  unfold TarIterator.next
  dsimp only
  rw [if_pos hfits, List.drop_left, if_neg (head_header m _), isValid_header, fileSize_header,
    filename_header, read_header, Bool.not_true, if_neg (by decide)]

theorem length_block : m.block.length = 512 + alignDown (m.contents.length + 511) 512 := by
  rw [UstarMember.block, List.length_append, length_header, length_paddedContents]

/-- At the start of a member the iterator yields its entry and moves to the next one. -/
theorem next_block (before : List Byte) :
    TarIterator.next ⟨before ++ (m.block ++ rest), before.length⟩ =
      (some m.entry, ⟨before ++ (m.block ++ rest), (before ++ m.block).length⟩) := by
  have hsplit : m.block ++ rest = m.header ++ (m.paddedContents ++ rest) := by
    rw [UstarMember.block, List.append_assoc]
  have hdata : (before ++ (m.block ++ rest)).drop (before.length + 512) =
      m.contents ++ (List.replicate
        (alignDown (m.contents.length + 511) 512 - m.contents.length) 0 ++ rest) := by
    rw [← List.drop_drop, List.drop_left, hsplit, List.drop_left' (length_header m),
      UstarMember.paddedContents, List.append_assoc]
  have hblock := length_block m
  have hfits : before.length + 512 + m.contents.length ≤ (before ++ (m.block ++ rest)).length := by
    simp only [List.length_append, hblock]
    unfold alignDown
    omega
  have hslice : safeDataSlice (before ++ (m.block ++ rest)) (before.length + 512)
      m.contents.length = m.contents := by
    rw [safeDataSlice, if_pos hfits, hdata]
    exact List.take_left' rfl
  have hnext := next_header m (m.paddedContents ++ rest) before
  rw [← hsplit, hslice] at hnext
  rw [hnext, List.length_append, hblock, Nat.add_assoc]
  rfl

theorem next_end (before : List Byte) :
    TarIterator.next ⟨before ++ (List.replicate 1024 0 ++ rest), before.length⟩ =
      (none, ⟨before ++ (List.replicate 1024 0 ++ rest), before.length⟩) := by
  have hhead : (UstarHeader.read ((before ++ (List.replicate 1024 0 ++ rest)).drop
      before.length)).name.head? = some 0 := by
    rw [List.drop_left]
    rfl
  have hfits : before.length + 512 ≤ (before ++ (List.replicate 1024 0 ++ rest)).length := by
    simp only [List.length_append, List.length_replicate]
    omega
  unfold TarIterator.next
  dsimp only
  rw [if_pos hfits, if_pos hhead]

theorem toList_ustarArchive (members : List UstarMember) (before : List Byte) :
    TarIterator.toList ⟨before ++ (ustarArchive members ++ rest), before.length⟩ =
      members.map UstarMember.entry := by
  induction members generalizing before with
  | nil => exact TarIterator.toList_of_none (next_end rest before)
  | cons m members ih =>
    have hsplit : before ++ (ustarArchive (m :: members) ++ rest) =
        before ++ (m.block ++ (ustarArchive members ++ rest)) := by
      simp only [ustarArchive, List.flatMap_cons, List.append_assoc]
    have hrest := ih (before ++ m.block)
    rw [List.append_assoc] at hrest
    rw [hsplit, TarIterator.toList_of_some (next_block m _ before), hrest, List.map_cons]

theorem new_header : TarFileSystem.new (m.header ++ rest) = some ⟨m.header ++ rest⟩ := by
  have hlength : ¬ (m.header ++ rest).length < 512 := by
    rw [List.length_append, length_header]
    omega
  rw [TarFileSystem.new, if_neg hlength, isValid_header]
  rfl

theorem new_ustarArchive {members : List UstarMember} (hne : members ≠ []) :
    TarFileSystem.new (ustarArchive members ++ rest) = some ⟨ustarArchive members ++ rest⟩ := by
  obtain ⟨m, members, rfl⟩ := List.exists_cons_of_ne_nil hne
  have hsplit : ustarArchive (m :: members) ++ rest =
      m.header ++ (m.paddedContents ++ (ustarArchive members ++ rest)) := by
    simp only [ustarArchive, List.flatMap_cons, UstarMember.block, List.append_assoc]
  rw [hsplit]
  exact new_header m _

end Fields

section Members
variable (members : List Member) (rest : List Byte)

theorem entry_toUstarMember (m : Member) : m.toUstarMember.entry = m.entry := by
  rw [UstarMember.entry, UstarMember.filename, m.name_eq, fromUtf8_textBytes]
  rfl

theorem toList_archive (before : List Byte) :
    TarIterator.toList ⟨before ++ (archive members ++ rest), before.length⟩ =
      members.map Member.entry := by
  rw [archive, toList_ustarArchive, List.map_map]
  exact List.map_congr_left fun m _ => entry_toUstarMember m

theorem new_archive {members : List Member} (hne : members ≠ []) :
    TarFileSystem.new (archive members ++ rest) = some ⟨archive members ++ rest⟩ := by
  apply new_ustarArchive
  simpa using hne

end Members

/-- Reading an archive gives back its members, in order and nothing else. -/
theorem archive_read_back (members : List Member) (trailing : List Byte) (hne : members ≠ []) :
    ∃ fs, TarFileSystem.new (archive members ++ trailing) = some fs ∧
      fs.files.toList = members.map Member.entry ∧
      ∀ n, fs.find n = (members.find? fun m => m.path = n).map Member.entry := by
  have hfiles : (TarFileSystem.files ⟨archive members ++ trailing⟩).toList =
      members.map Member.entry := toList_archive members trailing []
  refine ⟨⟨archive members ++ trailing⟩, new_archive trailing hne, hfiles, ?_⟩
  intro n
  rw [TarFileSystem.find, hfiles, List.find?_map]
  rfl

def fileMember (path : String) (contents : List Byte) (hpos : 0 < (textBytes path).length)
    (hle : (textBytes path).length ≤ 100) (hnul : 0 ∉ textBytes path)
    (hlt : contents.length < 8 ^ 11) : Member where
  path := path
  name := textBytes path
  directory := []
  contents := contents
  typeflag := 0x30
  sizeEnd := 0x20
  magicEnd := 0x00
  modeUidGid := Vector.replicate 24 0x30
  mtimeChecksum := Vector.replicate 20 0x31
  linkname := Vector.replicate 100 0
  versionToDevminor := Vector.replicate 82 0
  pad := Vector.replicate 12 0
  name_pos := hpos
  name_le := hle
  name_nul := hnul
  directory_le := Nat.zero_le _
  directory_nul := List.not_mem_nil
  contents_lt := hlt
  sizeEnd_eq := by decide
  magicEnd_eq := by decide
  name_eq := rfl
  directory_eq := rfl

def helloMember : Member :=
  fileMember "hi" [0x68, 0x65, 0x6C, 0x6C, 0x6F] (by decide) (by decide) (by decide) (by decide)

def byeMember : Member :=
  fileMember "by" (List.replicate 600 0x62) (by decide) (by decide) (by decide)
    (by rw [List.length_replicate]; decide)

theorem archive_read_back_hello :
    [helloMember, byeMember] ≠ [] ∧
      ∃ fs, TarFileSystem.new (archive [helloMember, byeMember] ++ []) = some fs ∧
        fs.files.toList = [helloMember.entry, byeMember.entry] ∧
        fs.find "by" = some byeMember.entry := by
  have hne : [helloMember, byeMember] ≠ [] := by simp
  obtain ⟨fs, hnew, hfiles, hfind⟩ := archive_read_back [helloMember, byeMember] [] hne
  exact ⟨hne, fs, hnew, hfiles, hfind "by"⟩

end MitosOS.Fs
