import MitosOS.Fs.Ramdisk
import MitosOS.Lib.Checked
import Mathlib.Data.Set.BooleanAlgebra
import Mathlib.Order.CompletePartialOrder
import Mathlib.Order.Interval.Set.Basic

/-! The walk over a tar archive on any bytes: where the entries lie, and that no sum of the walk
leaves its range. -/
namespace MitosOS.Fs
open MitosOS.Lib

section Headers

/-- The loop of `file_size` on a 64-bit word: the shift drops the bits above it. -/
def UstarHeader.octalValue64 (size : ℕ) : List Byte → ℕ
  | [] => size
  | byte :: bytes =>
    if byte = 0x00 ∨ byte = 0x20 then size
    else if 0x30 ≤ byte ∧ byte ≤ 0x37 then
      octalValue64 ((size <<< 3) % 2 ^ 64 ||| (byte - 0x30).toNat) bytes
    else octalValue64 size bytes

theorem octalDigit_lt {byte : Byte} (hdigit : 0x30 ≤ byte ∧ byte ≤ 0x37) :
    (byte - 0x30).toNat < 8 := by
  have hhigh : byte.toNat ≤ 0x37 := hdigit.2
  rw [BitVec.toNat_sub_of_le hdigit.1]
  change byte.toNat - 0x30 < 8
  omega

theorem digit_bound (size n : ℕ) {d : ℕ} (hd : d < 8) :
    (size * 8 + d + 1) * 8 ^ n ≤ (size + 1) * 8 ^ (n + 1) := by
  calc (size * 8 + d + 1) * 8 ^ n
      ≤ (size + 1) * 8 * 8 ^ n := Nat.mul_le_mul_right _ (by omega)
    _ = (size + 1) * 8 ^ (n + 1) := by rw [pow_succ']; ring

theorem skip_bound (size n : ℕ) : (size + 1) * 8 ^ n ≤ (size + 1) * 8 ^ (n + 1) :=
  Nat.mul_le_mul_left _ (Nat.pow_le_pow_right (by decide) (Nat.le_succ n))

theorem octalValue_lt (size : ℕ) (bytes : List Byte) :
    UstarHeader.octalValue size bytes < (size + 1) * 8 ^ bytes.length := by
  induction bytes generalizing size with
  | nil => simp [UstarHeader.octalValue]
  | cons byte bytes ih =>
    rw [UstarHeader.octalValue, List.length_cons]
    split_ifs with hend hdigit
    · exact (Nat.lt_succ_self size).trans_le (Nat.le_mul_of_pos_right _ (Nat.pow_pos (by decide)))
    · rw [shiftLeft_or_digit size (octalDigit_lt hdigit)]
      exact (ih _).trans_le (digit_bound size bytes.length (octalDigit_lt hdigit))
    · exact (ih size).trans_le (skip_bound size bytes.length)

theorem octalValue64_eq (size : ℕ) (bytes : List Byte)
    (hfits : (size + 1) * 8 ^ bytes.length ≤ 2 ^ 64) :
    UstarHeader.octalValue64 size bytes = UstarHeader.octalValue size bytes := by
  induction bytes generalizing size with
  | nil => rfl
  | cons byte bytes ih =>
    rw [List.length_cons] at hfits
    rw [UstarHeader.octalValue64, UstarHeader.octalValue]
    split_ifs with hend hdigit
    · rfl
    · have hd := octalDigit_lt hdigit
      have hbound := (digit_bound size bytes.length hd).trans hfits
      have hpos : 0 < 8 ^ bytes.length := Nat.pow_pos (by decide)
      have hshift : size <<< 3 < 2 ^ 64 := by
        rw [Nat.shiftLeft_eq]
        have hle := (Nat.le_mul_of_pos_right (size * 8 + (byte - 0x30).toNat + 1) hpos).trans hbound
        omega
      rw [Nat.mod_eq_of_lt hshift]
      apply ih
      rwa [shiftLeft_or_digit size hd]
    · exact ih size ((skip_bound size bytes.length).trans hfits)

theorem length_size_read_le (bytes : List Byte) : (UstarHeader.read bytes).size.length ≤ 12 :=
  List.length_take_le _ _

theorem fileSize_read_lt (bytes : List Byte) : (UstarHeader.read bytes).fileSize < 2 ^ 36 := by
  calc (UstarHeader.read bytes).fileSize
      < (0 + 1) * 8 ^ (UstarHeader.read bytes).size.length := octalValue_lt 0 _
    _ ≤ (0 + 1) * 8 ^ 12 :=
      Nat.mul_le_mul_left _ (Nat.pow_le_pow_right (by decide) (length_size_read_le bytes))
    _ = 2 ^ 36 := by decide

def UstarHeader.fileSize64 (h : UstarHeader) : ℕ := UstarHeader.octalValue64 0 h.size

theorem fileSize64_read (bytes : List Byte) :
    (UstarHeader.read bytes).fileSize64 = (UstarHeader.read bytes).fileSize := by
  apply octalValue64_eq
  calc (0 + 1) * 8 ^ (UstarHeader.read bytes).size.length
      ≤ (0 + 1) * 8 ^ 12 :=
        Nat.mul_le_mul_left _ (Nat.pow_le_pow_right (by decide) (length_size_read_le bytes))
    _ ≤ 2 ^ 64 := by decide

theorem read_take (bytes : List Byte) :
    UstarHeader.read (bytes.take 512) = UstarHeader.read bytes := by
  have htypeflag : (bytes.take 512).getD 156 0 = bytes.getD 156 0 := by
    rw [List.getD, List.getD, List.getElem?_take_of_lt (by decide)]
  simp only [UstarHeader.read, List.take_take, List.drop_take, htypeflag]
  rfl

end Headers

structure PlacedEntry where
  offset : ℕ
  entry : FileEntry

def PlacedEntry.range (p : PlacedEntry) : Set ℕ :=
  Set.Ico p.offset (p.offset + 512 + p.entry.data.length)

namespace TarIterator
variable {it it' : TarIterator} {e : FileEntry}

def placed (it : TarIterator) : List PlacedEntry :=
  match _h : it.next with
  | (none, _) => []
  | (some e, it') => ⟨it.offset, e⟩ :: it'.placed
termination_by it.data.length - it.offset
decreasing_by
  obtain ⟨hdata, hlen, hoffset⟩ := next_some _h
  rw [hdata]
  omega

theorem placed_of_none (h : it.next = (none, it')) : it.placed = [] := by
  rw [placed]
  split
  case h_1 => rfl
  case h_2 heq => simp [h] at heq

theorem placed_of_some (h : it.next = (some e, it')) : it.placed = ⟨it.offset, e⟩ :: it'.placed := by
  rw [placed]
  split
  case h_1 heq => simp [h] at heq
  case h_2 e' it'' heq =>
    rw [h] at heq
    obtain ⟨he, hit⟩ := Prod.mk.inj heq
    rw [← Option.some.inj he, ← hit]

theorem toList_eq_map_placed (it : TarIterator) : it.toList = it.placed.map PlacedEntry.entry := by
  induction it using placed.induct with
  | case1 it it' h => rw [toList_of_none h, placed_of_none h, List.map_nil]
  | case2 it e it' h ih => rw [toList_of_some h, placed_of_some h, List.map_cons, ih]

theorem safeDataSlice_spec {data : List Byte} {start : ℕ} (size : ℕ)
    (hstart : start ≤ data.length) :
    (safeDataSlice data start size).length ≤ size ∧
      start + (safeDataSlice data start size).length ≤ data.length ∧
      safeDataSlice data start size =
        (data.drop start).take (safeDataSlice data start size).length := by
  unfold safeDataSlice
  split_ifs with hfits
  · have hlength : ((data.drop start).take size).length = size := by
      rw [List.length_take, List.length_drop]
      omega
    rw [hlength]
    exact ⟨Nat.le_refl _, hfits, rfl⟩
  · exact ⟨Nat.zero_le _, hstart, rfl⟩

theorem next_eq_some (h : it.next = (some e, it')) :
    it.offset + 512 ≤ it.data.length ∧
      e.size = (UstarHeader.read (it.data.drop it.offset)).fileSize ∧
      e.data = safeDataSlice it.data (it.offset + 512) e.size ∧
      it' = ⟨it.data, it.offset + 512 + alignDown (e.size + 511) 512⟩ := by
  unfold next at h
  dsimp only at h
  split_ifs at h with hlen hzero hvalid
  all_goals simp only [Prod.mk.injEq, reduceCtorEq, false_and] at h
  obtain ⟨he, rfl⟩ := h
  obtain rfl := Option.some.inj he
  exact ⟨hlen, rfl, rfl, rfl⟩

theorem next_extent (h : it.next = (some e, it')) :
    it.offset + 512 + e.data.length ≤ it'.offset := by
  obtain ⟨hlen, -, hdata, rfl⟩ := next_eq_some h
  obtain ⟨hsize, -, -⟩ := safeDataSlice_spec e.size hlen
  rw [← hdata] at hsize
  dsimp only
  unfold alignDown
  omega

/-- Later entries start after the iterator's place, so after everything it has passed. -/
theorem offset_le_of_mem_placed (it : TarIterator) : ∀ p ∈ it.placed, it.offset ≤ p.offset := by
  induction it using placed.induct with
  | case1 it it' h => simp [placed_of_none h]
  | case2 it e it' h ih =>
    have hnext := next_extent h
    rw [placed_of_some h]
    intro p hp
    rcases List.mem_cons.mp hp with rfl | hp
    · exact Nat.le_refl _
    · have hlater := ih p hp
      omega

theorem data_of_mem_placed (it : TarIterator) : ∀ p ∈ it.placed,
    p.offset + 512 ≤ it.data.length ∧
      p.entry.data = safeDataSlice it.data (p.offset + 512) p.entry.size := by
  induction it using placed.induct with
  | case1 it it' h => simp [placed_of_none h]
  | case2 it e it' h ih =>
    obtain ⟨hinside, -, hdata, -⟩ := next_eq_some h
    obtain ⟨hsame, -, -⟩ := next_some h
    rw [hsame] at ih
    rw [placed_of_some h]
    intro p hp
    rcases List.mem_cons.mp hp with rfl | hp
    · exact ⟨hinside, hdata⟩
    · exact ih p hp

theorem placed_inside (it : TarIterator) (p : PlacedEntry) (hp : p ∈ it.placed) :
    p.offset + 512 + p.entry.data.length ≤ it.data.length ∧
      p.entry.data = (it.data.drop (p.offset + 512)).take p.entry.data.length := by
  obtain ⟨hlen, hdata⟩ := data_of_mem_placed it p hp
  obtain ⟨-, hinside, heq⟩ := safeDataSlice_spec p.entry.size hlen
  rw [← hdata] at hinside heq
  exact ⟨hinside, heq⟩

theorem placed_disjoint (it : TarIterator) :
    it.placed.Pairwise fun p q => Disjoint p.range q.range := by
  induction it using placed.induct with
  | case1 it it' h => simp [placed_of_none h]
  | case2 it e it' h ih =>
    have hnext := next_extent h
    rw [placed_of_some h, List.pairwise_cons]
    refine ⟨?_, ih⟩
    intro q hq
    have hlater := offset_le_of_mem_placed it' q hq
    rw [Set.disjoint_left]
    intro i hi hi'
    have hstop : i < it.offset + 512 + e.data.length := hi.2
    have hstart : q.offset ≤ i := hi'.1
    omega

theorem length_placed_le (it : TarIterator) :
    512 * it.placed.length ≤ it.data.length - it.offset := by
  induction it using placed.induct with
  | case1 it it' h => simp [placed_of_none h]
  | case2 it e it' h ih =>
    obtain ⟨hsame, hlen, hnext⟩ := next_some h
    rw [hsame] at ih
    rw [placed_of_some h, List.length_cons]
    omega

/-- `next` on 64-bit words, with every access to the archive checked. -/
def nextChecked (checks : Bool) (it : TarIterator) : Result (Option FileEntry × TarIterator) := do
  let headerEnd ← addU checks 64 it.offset 512
  if headerEnd ≤ it.data.length then
    let block ← slice it.data it.offset headerEnd
    let header := UstarHeader.read block
    if header.name.head? = some 0 then pure (none, it)
    else if !header.isValid then pure (none, it)
    else
      let fileSize := header.fileSize64
      let dataStart ← addU checks 64 it.offset 512
      let rounded ← addU checks 64 fileSize 511
      let nextOffset ← addU checks 64 dataStart (alignDown rounded 512)
      let dataStop ← addU checks 64 dataStart fileSize
      let safeData ← if dataStop ≤ it.data.length then slice it.data dataStart dataStop else pure []
      pure (some ⟨header.filename, fileSize, safeData, header.typeflag⟩,
        { it with offset := nextOffset })
  else pure (none, it)

/-- The entries of at most `fuel` calls of `next`, the last of which has to return `None`. -/
def collect (checks : Bool) : ℕ → TarIterator → Result (List FileEntry)
  | 0, _ => .running
  | fuel + 1, it => (it.nextChecked checks).bind fun result =>
    match result.1 with
    | none => .ok []
    | some e => (collect checks fuel result.2).bind fun entries => .ok (e :: entries)

theorem nextChecked_eq (checks : Bool) (hlen : it.data.length < 2 ^ 63)
    (hoffset : it.offset ≤ 2 ^ 63 + 2 ^ 37) : it.nextChecked checks = .ok it.next := by
  have hsize := fileSize_read_lt (it.data.drop it.offset)
  have hheader : addU checks 64 it.offset 512 = .ok (it.offset + 512) := addU_of_lt _ (by omega)
  simp only [nextChecked, next, hheader, Result.bind_eq_bind, Result.ok_bind]
  by_cases hfits : it.offset + 512 ≤ it.data.length
  case neg => rw [if_neg hfits, if_neg hfits]; rfl
  rw [if_pos hfits, if_pos hfits, slice_of_le (Nat.le_add_right _ _) hfits, Nat.add_sub_cancel_left,
    Result.ok_bind, read_take, fileSize64_read]
  split_ifs with hzero hvalid
  · rfl
  · rfl
  generalize (UstarHeader.read (it.data.drop it.offset)).fileSize = fileSize at hsize ⊢
  have hpadded : alignDown (fileSize + 511) 512 ≤ fileSize + 511 := alignDown_le _ _
  rw [addU_of_lt _ (by omega), Result.ok_bind, addU_of_lt _ (by omega), Result.ok_bind,
    addU_of_lt _ (by omega), Result.ok_bind]
  unfold safeDataSlice
  split_ifs with hdata
  · rw [slice_of_le (Nat.le_add_right _ _) hdata, Nat.add_sub_cancel_left]
    rfl
  · rfl

/-- The sums of the walk stay in range because a step starts inside the archive and is short. -/
theorem collect_eq (checks : Bool) (it : TarIterator) (hlen : it.data.length < 2 ^ 63)
    (hoffset : it.offset ≤ 2 ^ 63 + 2 ^ 37) {fuel : ℕ} (hfuel : it.placed.length < fuel) :
    collect checks fuel it = .ok it.toList := by
  induction it using placed.induct generalizing fuel with
  | case1 it it' h =>
    obtain ⟨fuel, rfl⟩ := Nat.exists_eq_succ_of_ne_zero (Nat.ne_zero_of_lt hfuel)
    rw [collect, nextChecked_eq checks hlen hoffset, Result.ok_bind, h, toList_of_none h]
  | case2 it e it' h ih =>
    obtain ⟨fuel, rfl⟩ := Nat.exists_eq_succ_of_ne_zero (Nat.ne_zero_of_lt hfuel)
    rw [placed_of_some h, List.length_cons] at hfuel
    obtain ⟨hinside, hsize, -, rfl⟩ := next_eq_some h
    have hsmall : e.size < 2 ^ 36 := hsize ▸ fileSize_read_lt _
    have hpadded : alignDown (e.size + 511) 512 ≤ e.size + 511 := alignDown_le _ _
    have hrest := ih hlen (by dsimp only; omega) (Nat.lt_of_succ_lt_succ hfuel)
    rw [collect, nextChecked_eq checks hlen hoffset, Result.ok_bind, h, toList_of_some h]
    dsimp only
    rw [hrest, Result.ok_bind]

end TarIterator

theorem data_of_new {data : List Byte} {fs : TarFileSystem}
    (hnew : TarFileSystem.new data = some fs) : fs.data = data := by
  unfold TarFileSystem.new at hnew
  split_ifs at hnew
  rw [← Option.some.inj hnew]

/-- The walk over any bytes that `new` accepts ends after at most one entry for each block, without an
overflow or an access outside the archive in either build. Every entry lies inside the archive, and no
two of them share a byte. A Rust slice has fewer than `2 ^ 63` bytes. -/
theorem tar_walk_safe (checks : Bool) (data : List Byte) (fs : TarFileSystem)
    (hlen : data.length < 2 ^ 63) (hnew : TarFileSystem.new data = some fs) :
    (∀ fuel, data.length / 512 < fuel →
      TarIterator.collect checks fuel fs.files = .ok fs.files.toList) ∧
    fs.files.toList.length ≤ data.length / 512 ∧
    fs.files.toList = fs.files.placed.map PlacedEntry.entry ∧
    (∀ p ∈ fs.files.placed, p.offset + 512 + p.entry.data.length ≤ data.length ∧
      p.entry.data = (data.drop (p.offset + 512)).take p.entry.data.length) ∧
    fs.files.placed.Pairwise fun p q => Disjoint p.range q.range := by
  obtain rfl := data_of_new hnew
  have hcount : fs.files.placed.length ≤ fs.data.length / 512 := by
    have hblocks := TarIterator.length_placed_le fs.files
    simp only [TarFileSystem.files] at hblocks ⊢
    omega
  have hentries := TarIterator.toList_eq_map_placed fs.files
  refine ⟨?_, ?_, hentries, TarIterator.placed_inside fs.files,
    TarIterator.placed_disjoint fs.files⟩
  · intro fuel hfuel
    exact TarIterator.collect_eq checks fs.files hlen (Nat.zero_le _) (hcount.trans_lt hfuel)
  · rw [hentries, List.length_map]
    exact hcount

theorem tar_walk_safe_hello :
    (archive [helloMember, byeMember] ++ []).length < 2 ^ 63 ∧
      ∃ fs, TarFileSystem.new (archive [helloMember, byeMember] ++ []) = some fs ∧
        TarIterator.collect true 8 fs.files = .ok [helloMember.entry, byeMember.entry] ∧
        fs.files.toList.length ≤ 7 ∧
        fs.files.placed.Pairwise fun p q => Disjoint p.range q.range := by
  have hbye : byeMember.contents.length = 600 := List.length_replicate
  have hlength : (archive [helloMember, byeMember] ++ []).length = 3584 := by
    simp only [archive, ustarArchive, List.map_cons, List.map_nil, List.flatMap_cons, List.flatMap_nil,
      List.length_append, List.length_replicate, length_block, hbye]
    rfl
  have hlt : (archive [helloMember, byeMember] ++ []).length < 2 ^ 63 := hlength ▸ by decide
  have hnew := new_archive [] (List.cons_ne_nil helloMember [byeMember])
  have hfiles : (TarFileSystem.files ⟨archive [helloMember, byeMember] ++ []⟩).toList =
      [helloMember.entry, byeMember.entry] := toList_archive [helloMember, byeMember] [] []
  obtain ⟨hcollect, hcount, -, -, hdisjoint⟩ := tar_walk_safe true _ _ hlt hnew
  rw [hlength] at hcollect hcount
  refine ⟨hlt, _, hnew, ?_, hcount, hdisjoint⟩
  rw [hcollect 8 (by decide), hfiles]

end MitosOS.Fs
