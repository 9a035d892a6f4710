import MitosOS.Lib.Bits
import Mathlib.Data.List.Basic

/-! Texts as lists of characters: decoding bytes that need not be UTF-8, and lower case. -/
namespace MitosOS.Lib

abbrev Byte := BitVec 8

def textBytes (s : String) : List (BitVec 8) := s.toUTF8.data.toList.map UInt8.toBitVec

def fromUtf8 (bytes : List (BitVec 8)) : Option String :=
  String.fromUTF8? (bytes.map UInt8.ofBitVec).toByteArray

def isUtf8 (bytes : List (BitVec 8)) : Bool := (fromUtf8 bytes).isSome

theorem fromUtf8_textBytes (s : String) : fromUtf8 (textBytes s) = some s := by
  have hbytes : ((textBytes s).map UInt8.ofBitVec).toByteArray = s.toByteArray := by
    have hsame : UInt8.ofBitVec ∘ UInt8.toBitVec = id := rfl
    rw [textBytes, List.map_map, hsame, List.map_id]
    apply ByteArray.ext
    simp
  unfold fromUtf8 String.fromUTF8?
  rw [hbytes, dif_pos s.isValidUTF8]
  rfl

theorem textBytes_of_fromUtf8 {bytes : List (BitVec 8)} {s : String} (h : fromUtf8 bytes = some s) :
    textBytes s = bytes := by
  unfold fromUtf8 String.fromUTF8? at h
  split_ifs at h with hvalid
  obtain rfl := Option.some.inj h
  have hsame : UInt8.toBitVec ∘ UInt8.ofBitVec = id := rfl
  change ((bytes.map UInt8.ofBitVec).toByteArray.data.toList).map UInt8.toBitVec = bytes
  simp [hsame]

/-- How many bytes follow a lead byte of UTF-8, and the range of the first of them. -/
def leadByte (b : ℕ) : Option (ℕ × ℕ × ℕ) :=
  if 0xC2 ≤ b ∧ b ≤ 0xDF then some (1, 0x80, 0xBF)
  else if b = 0xE0 then some (2, 0xA0, 0xBF)
  else if b = 0xED then some (2, 0x80, 0x9F)
  else if 0xE1 ≤ b ∧ b ≤ 0xEF then some (2, 0x80, 0xBF)
  else if b = 0xF0 then some (3, 0x90, 0xBF)
  else if 0xF1 ≤ b ∧ b ≤ 0xF3 then some (3, 0x80, 0xBF)
  else if b = 0xF4 then some (3, 0x80, 0x8F)
  else none

/-- Read `n` continuation bytes onto `code`. The first byte that is none of them is left to the next
character. -/
def continuation (low high : ℕ) : ℕ → ℕ → List (BitVec 8) → Option ℕ × List (BitVec 8)
  | 0, code, bytes => (some code, bytes)
  | _ + 1, _, [] => (none, [])
  | n + 1, code, b :: bytes =>
    if low ≤ b.toNat ∧ b.toNat ≤ high then
      continuation 0x80 0xBF n (code * 64 + b.toNat % 64) bytes
    else (none, b :: bytes)

/-- At most `n` characters. -/
def decodeLossyFrom : ℕ → List (BitVec 8) → List Char
  | 0, _ => []
  | _ + 1, [] => []
  | n + 1, b :: bytes =>
    if b.toNat < 0x80 then Char.ofNat b.toNat :: decodeLossyFrom n bytes
    else
      match leadByte b.toNat with
      | none => Char.ofNat 0xFFFD :: decodeLossyFrom n bytes
      | some (extra, low, high) =>
        match continuation low high extra (b.toNat % 2 ^ (6 - extra)) bytes with
        | (some code, bytes) => Char.ofNat code :: decodeLossyFrom n bytes
        | (none, bytes) => Char.ofNat 0xFFFD :: decodeLossyFrom n bytes

/-- `String::from_utf8_lossy`: bytes that are not UTF-8 become replacement characters. -/
def decodeLossy (bytes : List (BitVec 8)) : List Char := decodeLossyFrom bytes.length bytes

def IsAscii (text : List Char) : Prop := ∀ c ∈ text, c.toNat < 128

instance (text : List Char) : Decidable (IsAscii text) := List.decidableBAll _ _

/-- `str::to_lowercase`. The tables of Unicode are open except for what they do to ASCII. -/
structure Lowercase where
  apply : List Char → List Char
  ascii : ∀ text, IsAscii text → apply text = text.map Char.toLower

/-- The lower case of ASCII alone. -/
def asciiLowercase : Lowercase where
  apply := List.map Char.toLower
  ascii _ _ := rfl

theorem decodeLossyFrom_ascii {n : ℕ} {bytes : List (BitVec 8)} (hn : bytes.length ≤ n)
    (h : ∀ b ∈ bytes, b.toNat < 0x80) :
    decodeLossyFrom n bytes = bytes.map fun b => Char.ofNat b.toNat := by
  induction bytes generalizing n with
  | nil => cases n <;> rfl
  | cons b bytes ih =>
    cases n with
    | zero => exact absurd hn (by simp)
    | succ n =>
      have hrest := ih (Nat.le_of_succ_le_succ hn) fun c hc => h c (List.mem_cons_of_mem b hc)
      rw [decodeLossyFrom, if_pos (h b List.mem_cons_self), hrest, List.map_cons]

theorem decodeLossy_ascii {bytes : List (BitVec 8)} (h : ∀ b ∈ bytes, b.toNat < 0x80) :
    decodeLossy bytes = bytes.map fun b => Char.ofNat b.toNat := decodeLossyFrom_ascii le_rfl h

end MitosOS.Lib
