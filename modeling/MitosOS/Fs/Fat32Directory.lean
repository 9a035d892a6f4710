import MitosOS.Fs.Fat32Files
import MitosOS.Lib.Lists
import Mathlib.Data.List.DropRight

/-! Directory search compared with the FAT directory format. The format ends a directory at the first
entry whose name starts with zero; the driver ends only the cluster that holds it. -/
namespace MitosOS.Fs
open MitosOS.Lib MitosOS.Memory

namespace FatDirectoryEntry

def chars (bytes : List Byte) : List Char := bytes.map fun b => Char.ofNat b.toNat

def base (e : FatDirectoryEntry) : List Byte := (e.name.take 8).rdropWhile (· = 0x20)
def extension (e : FatDirectoryEntry) : List Byte := (e.name.drop 8).rdropWhile (· = 0x20)

def shortName (e : FatDirectoryEntry) : List Char :=
  if e.extension = [] then chars e.base else chars e.base ++ '.' :: chars e.extension

def isVolumeLabel (e : FatDirectoryEntry) : Bool := e.attr &&& attrVolumeId != 0

/-- The short name is the target in another case, perhaps. -/
def named (target : List Char) (e : FatDirectoryEntry) : Bool :=
  e.shortName.map Char.toLower == target.map Char.toLower

/-- An entry that the format gives for a name, if it stands before the end of the directory. -/
def accepted (target : List Char) (e : FatDirectoryEntry) : Bool :=
  !e.isFree && !e.isLfn && !e.isVolumeLabel && e.named target

def taken (lower : Lowercase) (target : List Char) (e : FatDirectoryEntry) : Bool :=
  !e.isFree && !e.isLfn && e.getName lower == lower.apply target

/-- An entry that is neither free nor part of a long name. -/
def isCandidate (e : FatDirectoryEntry) : Bool := !e.isFree && !e.isLfn

/-- The name that the driver reads: base and extension are cut at the first space. -/
def cutName (e : FatDirectoryEntry) : List Char :=
  if e.extPart = [] then chars e.namePart else chars e.namePart ++ '.' :: chars e.extPart

def cutNamed (target : List Char) (e : FatDirectoryEntry) : Bool :=
  e.cutName.map Char.toLower == target.map Char.toLower

/-- An entry with the name that both the driver and the format take. -/
def agreed (target : List Char) (e : FatDirectoryEntry) : Bool :=
  e.isCandidate && !e.isVolumeLabel && e.named target && e.cutNamed target

def Ascii (e : FatDirectoryEntry) : Prop := ∀ b ∈ e.name, b.toNat < 0x80

/-- A name in ASCII with spaces only at the ends of its base and of its extension. -/
structure Plain (e : FatDirectoryEntry) : Prop where
  ascii : e.Ascii
  base_padded : ∀ b ∈ (e.name.take 8).dropWhile (· ≠ 0x20), b = 0x20
  extension_padded : ∀ b ∈ (e.name.drop 8).dropWhile (· ≠ 0x20), b = 0x20

end FatDirectoryEntry

/-- The first entry for the name before the end of the directory. -/
def formatFind (target : List Char) (entries : List FatDirectoryEntry) : Option FatDirectoryEntry :=
  (entries.takeWhile fun e => !e.isEnd).find? (·.accepted target)

/-- What the format asks of a directory for the driver to find `target` in it. `live` are the entries
before its end, and `behind` those that the driver comes to after it. -/
structure FollowsFormat (target : List Char) (live behind : List FatDirectoryEntry) : Prop where
  labels : ∀ before e after, live = before ++ e :: after → e.isCandidate = true →
    e.isVolumeLabel = true → e.cutNamed target = true → ∃ b ∈ before, b.agreed target = true
  spaces : ∀ before e after, live = before ++ e :: after → e.isCandidate = true →
    e.isVolumeLabel = false → e.cutNamed target ≠ e.named target →
    ∃ b ∈ before, b.agreed target = true
  stale : (∀ e ∈ live, e.agreed target = false) →
    ∀ e ∈ behind, e.isCandidate = true → e.cutNamed target = false

section Names
open FatDirectoryEntry
variable {e : FatDirectoryEntry} {lower : Lowercase} {target : List Char}

theorem rdropWhile_padded {bytes : List Byte}
    (h : ∀ b ∈ bytes.dropWhile (· ≠ 0x20), b = 0x20) :
    bytes.rdropWhile (· = 0x20) = bytes.takeWhile (· ≠ 0x20) := by
  have hlast : (bytes.takeWhile (· ≠ 0x20)).rdropWhile (· = 0x20) = bytes.takeWhile (· ≠ 0x20) := by
    rw [List.rdropWhile_eq_self_iff]
    intro hne
    simpa using List.mem_takeWhile_imp (List.getLast_mem hne)
  have hpadding : ∀ b ∈ (bytes.dropWhile (· ≠ 0x20)).reverse, decide (b = 0x20) = true := by
    intro b hb
    exact decide_eq_true (h b (List.mem_reverse.mp hb))
  calc bytes.rdropWhile (· = 0x20)
      = (bytes.takeWhile (· ≠ 0x20) ++ bytes.dropWhile (· ≠ 0x20)).rdropWhile (· = 0x20) := by
        rw [List.takeWhile_append_dropWhile]
    _ = (bytes.takeWhile (· ≠ 0x20)).rdropWhile (· = 0x20) := by
        rw [List.rdropWhile, List.reverse_append, List.dropWhile_append_of_pos hpadding,
          List.rdropWhile]
    _ = bytes.takeWhile (· ≠ 0x20) := hlast

theorem isAscii_chars {bytes : List Byte} (h : ∀ b ∈ bytes, b.toNat < 0x80) :
    IsAscii (chars bytes) := by
  intro c hc
  obtain ⟨b, hb, rfl⟩ := List.mem_map.mp hc
  have hlt := h b hb
  have hvalid : b.toNat.isValidChar := .inl (by omega)
  rw [Char.ofNat, dif_pos hvalid]
  exact hlt

theorem getName_of_ascii (h : e.Ascii) : e.getName lower = e.cutName.map Char.toLower := by
  have hbase : ∀ b ∈ e.namePart, b.toNat < 0x80 := fun b hb =>
    h b (List.mem_of_mem_take ((List.takeWhile_prefix _).subset hb))
  have hext : ∀ b ∈ e.extPart, b.toNat < 0x80 := fun b hb =>
    h b (List.mem_of_mem_drop ((List.takeWhile_prefix _).subset hb))
  have hcut : (if e.extPart = [] then decodeLossy e.namePart
      else decodeLossy e.namePart ++ '.' :: decodeLossy e.extPart) = e.cutName := by
    rw [decodeLossy_ascii hbase, decodeLossy_ascii hext]
    rfl
  have hascii : IsAscii e.cutName := by
    unfold cutName
    split_ifs
    · exact isAscii_chars hbase
    · intro c hc
      rcases List.mem_append.mp hc with hc | hc
      · exact isAscii_chars hbase c hc
      rcases List.mem_cons.mp hc with rfl | hc
      · decide
      · exact isAscii_chars hext c hc
  rw [getName, hcut, lower.ascii _ hascii]

theorem taken_of_ascii (hascii : IsAscii target) (h : e.Ascii) :
    e.taken lower target = (e.isCandidate && e.cutNamed target) := by
  rw [taken, isCandidate, cutNamed, getName_of_ascii h, lower.ascii target hascii]

theorem cutName_of_plain (h : e.Plain) : e.cutName = e.shortName := by
  have hbase : e.namePart = e.base := (rdropWhile_padded h.base_padded).symm
  have hext : e.extPart = e.extension := (rdropWhile_padded h.extension_padded).symm
  rw [cutName, shortName, hbase, hext]

/-- For plain names the driver differs from the format in volume labels alone. -/
theorem taken_of_plain (hascii : IsAscii target) (h : e.Plain) :
    e.taken lower target = (!e.isFree && !e.isLfn && e.named target) := by
  rw [taken_of_ascii hascii h.ascii, isCandidate, cutNamed, cutName_of_plain h, named]

theorem accepted_eq : e.accepted target = (e.isCandidate && !e.isVolumeLabel && e.named target) := rfl

theorem agreed_iff (hascii : IsAscii target) (h : e.Ascii) :
    e.agreed target = true ↔ e.taken lower target = true ∧ e.accepted target = true := by
  rw [agreed, taken_of_ascii hascii h, accepted_eq]
  simp only [Bool.and_eq_true]
  tauto

theorem taken_ne_accepted_iff (hascii : IsAscii target) (h : e.Ascii) :
    e.taken lower target ≠ e.accepted target ↔ e.isCandidate = true ∧
      (e.isVolumeLabel = true ∧ e.cutNamed target = true ∨
        e.isVolumeLabel = false ∧ e.cutNamed target ≠ e.named target) := by
  rw [taken_of_ascii hascii h, accepted_eq]
  cases e.isCandidate <;> cases e.isVolumeLabel <;> simp

theorem followsFormat_iff (hascii : IsAscii target) {live behind : List FatDirectoryEntry}
    (hlive : ∀ e ∈ live, e.Ascii) (hbehind : ∀ e ∈ behind, e.Ascii) :
    FollowsFormat target live behind ↔
      (∀ before e after, live = before ++ e :: after → e.taken lower target ≠ e.accepted target →
        ∃ b ∈ before, b.taken lower target = true ∧ b.accepted target = true) ∧
      ((∀ b ∈ live, ¬ (b.taken lower target = true ∧ b.accepted target = true)) →
        ∀ e ∈ behind, e.taken lower target = false) := by
  have hagreed : ∀ b ∈ live, (b.taken lower target = true ∧ b.accepted target = true ↔
      b.agreed target = true) := fun b hb => (agreed_iff hascii (hlive b hb)).symm
  constructor
  · rintro ⟨hlabels, hspaces, hstale⟩
    refine ⟨fun before e after hsplit hne => ?_, fun hno e he => ?_⟩
    · have hmem : ∀ b ∈ before, b ∈ live := fun b hb => hsplit ▸ List.mem_append_left _ hb
      have he : e ∈ live := hsplit ▸ List.mem_append_right _ List.mem_cons_self
      obtain ⟨hcandidate, hmistaken⟩ := (taken_ne_accepted_iff hascii (hlive e he)).mp hne
      obtain ⟨b, hb, hgood⟩ : ∃ b ∈ before, b.agreed target = true := by
        rcases hmistaken with ⟨hlabel, hcut⟩ | ⟨hlabel, hcut⟩
        · exact hlabels before e after hsplit hcandidate hlabel hcut
        · exact hspaces before e after hsplit hcandidate hlabel hcut
      exact ⟨b, hb, (hagreed b (hmem b hb)).mpr hgood⟩
    · have hfree := hstale fun b hb => Bool.not_eq_true _ ▸ (mt (hagreed b hb).mpr (hno b hb))
      rw [taken_of_ascii hascii (hbehind e he), Bool.and_eq_false_iff]
      cases hcandidate : e.isCandidate with
      | false => exact .inl rfl
      | true => exact .inr (hfree e he hcandidate)
  · rintro ⟨hbefore, hno⟩
    have hgood : ∀ before e after, live = before ++ e :: after →
        e.taken lower target ≠ e.accepted target → ∃ b ∈ before, b.agreed target = true := by
      intro before e after hsplit hne
      obtain ⟨b, hb, hboth⟩ := hbefore before e after hsplit hne
      exact ⟨b, hb, (hagreed b (hsplit ▸ List.mem_append_left _ hb)).mp hboth⟩
    have hmistaken : ∀ {before e after}, live = before ++ e :: after →
        (e.taken lower target ≠ e.accepted target ↔ e.isCandidate = true ∧
          (e.isVolumeLabel = true ∧ e.cutNamed target = true ∨
            e.isVolumeLabel = false ∧ e.cutNamed target ≠ e.named target)) := fun {_ e _} hsplit =>
      taken_ne_accepted_iff hascii (hlive e (hsplit ▸ List.mem_append_right _ List.mem_cons_self))
    refine ⟨fun before e after hsplit hcandidate hlabel hcut => ?_,
      fun before e after hsplit hcandidate hlabel hcut => ?_, fun hnone e he hcandidate => ?_⟩
    · exact hgood before e after hsplit ((hmistaken hsplit).mpr ⟨hcandidate, .inl ⟨hlabel, hcut⟩⟩)
    · exact hgood before e after hsplit ((hmistaken hsplit).mpr ⟨hcandidate, .inr ⟨hlabel, hcut⟩⟩)
    · have hfree : ∀ b ∈ live, ¬ (b.taken lower target = true ∧ b.accepted target = true) := by
        intro b hb hboth
        exact absurd ((hnone b hb).symm.trans ((hagreed b hb).mp hboth)) (by simp)
      have htaken := hno hfree e he
      rw [taken_of_ascii hascii (hbehind e he), hcandidate, Bool.true_and] at htaken
      exact htaken

theorem scan_eq (entries : List FatDirectoryEntry) :
    scan lower (lower.apply target) entries =
      (entries.takeWhile fun e => !e.isEnd).find? (taken lower target) := by
  induction entries with
  | nil => rfl
  | cons e entries ih =>
    rw [scan]
    by_cases hend : e.isEnd = true
    · simp [hend]
    rw [List.takeWhile_cons_of_pos (by simp [hend]), if_neg hend]
    by_cases hskip : (e.isFree || e.isLfn) = true
    · have htaken : ¬ e.taken lower target = true := by
        rcases (Bool.or_eq_true _ _).mp hskip with h | h <;> simp [taken, h]
      rw [if_pos hskip, List.find?_cons_of_neg htaken, ih]
    · obtain ⟨hfree, hlfn⟩ : e.isFree = false ∧ e.isLfn = false := by simpa using hskip
      rw [if_neg hskip]
      by_cases hname : e.getName lower = lower.apply target
      · rw [if_pos hname, List.find?_cons_of_pos (by simp [taken, hfree, hlfn, hname])]
      · rw [if_neg hname, List.find?_cons_of_neg (by simp [taken, hname]), ih]

end Names

namespace Volume
open FatDirectoryEntry
variable {D : Type*} [BlockDevice D] {v : Volume D} {lower : Lowercase} {target : List Char}
  {cluster last : ℕ} {clusters : List ℕ}

def entries (v : Volume D) (clusters : List ℕ) : List FatDirectoryEntry :=
  clusters.flatMap fun c => entriesOf (v.bytesOf c)

def live (v : Volume D) (clusters : List ℕ) : List FatDirectoryEntry :=
  (v.entries clusters).takeWhile fun e => !e.isEnd

/-- The entries that the driver comes to: those of each cluster up to the end marker in it. -/
def seen (v : Volume D) (clusters : List ℕ) : List FatDirectoryEntry :=
  clusters.flatMap fun c => (entriesOf (v.bytesOf c)).takeWhile fun e => !e.isEnd

/-- The entries behind the end of the directory that the driver comes to all the same. -/
def stale (v : Volume D) (clusters : List ℕ) : List FatDirectoryEntry :=
  (v.seen clusters).drop (v.live clusters).length

theorem live_append_stale (v : Volume D) (clusters : List ℕ) :
    v.live clusters ++ v.stale clusters = v.seen clusters := by
  have hlive : v.live clusters <+: v.seen clusters := takeWhile_flatMap_prefix _ clusters
  obtain ⟨rest, hrest⟩ := hlive
  rw [stale, ← hrest, List.drop_left]

def found : Option FatDirectoryEntry → Result FatDirectoryEntry
  | some e => .ok e
  | none => .err "File or directory not found"

theorem found_ne_exhausted (a : Option FatDirectoryEntry) : found a ≠ .exhausted := by
  cases a <;> simp [found]

theorem found_inj {a b : Option FatDirectoryEntry} : found a = found b ↔ a = b := by
  cases a <;> cases b <;> simp [found]

theorem iterate_dirStep_chain (hchain : v.Chain (fun _ => True) cluster clusters last)
    (hend : ¬ Walkable last) {fuel : ℕ} (hfuel : clusters.length < fuel) :
    iterate (v.dirStep lower target) fuel cluster =
      found ((v.seen clusters).find? (taken lower target)) := by
  induction hchain generalizing fuel with
  | nil c =>
    obtain ⟨fuel, rfl⟩ := Nat.exists_eq_add_of_lt hfuel
    rw [iterate, dirStep, walkStep, if_neg hend]
    rfl
  | @cons c next last bytes clusters hc hbytes _ hlink _ ih =>
    obtain ⟨fuel, rfl⟩ := Nat.exists_eq_add_of_lt hfuel
    rw [iterate, dirStep, seen, List.flatMap_cons, bytesOf_eq hbytes, List.find?_append, ← scan_eq]
    cases hscan : scan lower (lower.apply target) (entriesOf bytes) with
    | some e =>
      rw [walkStep_found hc hbytes hscan]
      rfl
    | none =>
      rw [walkStep_link hc hbytes hscan, hlink, Option.none_or]
      exact ih hend (by simp; omega)

/-- A directory of two clusters that ends with the first entry of the first; `a` stands in the
second. -/
def endedDirectory : Volume RamBlockDevice :=
  small 2 (fatSectorOf [0, 0, 3, 0x0FFFFFFF])
    [sectorOf [], sectorOf (directoryEntry
      [0x41, 0x20, 0x20, 0x20, 0x20, 0x20, 0x20, 0x20, 0x20, 0x20, 0x20] 0x20 5 10)]

end Volume

end MitosOS.Fs
