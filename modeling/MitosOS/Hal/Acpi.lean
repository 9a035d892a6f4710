import MitosOS.Hal.Madt
import MitosOS.Lib.Text

/-! `hal::acpi`: from the root pointer of the firmware to the tables, with a record of every access.
`V` is `phys_to_virt`. The messages on the UART are left out. -/
namespace MitosOS.Hal.Acpi
open MitosOS.Lib MitosOS.Hal MitosOS.Hal.Madt

def byteSum (bytes : List (BitVec 8)) : BitVec 8 := bytes.foldl (· + ·) 0

inductive RootTable where
  | rsdt (address : ℕ)
  | xsdt (address : ℕ)
  deriving DecidableEq

def RootTable.address : RootTable → ℕ
  | .rsdt address => address
  | .xsdt address => address

def rsdPtr : List (BitVec 8) := textBytes "RSD PTR "

def rsdpIsValid (m : Memory) (rsdp : ℕ) : Reads Bool := do
  let first ← Reads.bytes m rsdp 20
  let signature ← Reads.bytes m rsdp 8
  pure (byteSum first = 0 && signature = rsdPtr)

def rsdpIsValidExtended (m : Memory) (rsdp : ℕ) : Reads Bool := do
  let valid ← rsdpIsValid m rsdp
  if valid then do
    let length ← Reads.u32 m (rsdp + 20)
    if length.toNat < 36 then pure false
    else do
      let all ← Reads.bytes m rsdp length.toNat
      pure (byteSum all = 0)
  else pure false

def parseRsdp (m : Memory) (rsdp : ℕ) : Reads (Except String RootTable) := do
  let signature ← Reads.bytes m rsdp 8
  if signature ≠ rsdPtr then pure (.error "Invalid RSDP signature")
  else do
    let revision ← Reads.u8 m (rsdp + 15)
    if 2 ≤ revision.toNat then do
      let valid ← rsdpIsValidExtended m rsdp
      if valid then do
        let xsdtAddress ← Reads.u64 m (rsdp + 24)
        let rsdtAddress ← Reads.u32 m (rsdp + 16)
        if xsdtAddress ≠ 0 then pure (.ok (.xsdt xsdtAddress.toNat))
        else if rsdtAddress ≠ 0 then pure (.ok (.rsdt rsdtAddress.toNat))
        else pure (.error "ACPI 2.0+ RSDP contains no RSDT or XSDT")
      else pure (.error "Invalid ACPI 2.0+ checksum")
    else do
      let valid ← rsdpIsValid m rsdp
      if valid then do
        let rsdtAddress ← Reads.u32 m (rsdp + 16)
        if rsdtAddress = 0 then pure (.error "ACPI 1.0 RSDP contains no RSDT")
        else pure (.ok (.rsdt rsdtAddress.toNat))
      else pure (.error "Invalid ACPI 1.0 checksum")

def scanRange (m : Memory) (V : ℕ → ℕ) : (phys n : ℕ) → Reads (Option ℕ)
  | _, 0 => pure none
  | phys, n + 1 => do
    let first ← Reads.bytes m (V phys) 16
    if first.take 8 = rsdPtr then do
      let parsed ← parseRsdp m (V phys)
      if parsed.isOk then pure (some (V phys)) else scanRange m V (phys + 16) n
    else scanRange m V (phys + 16) n

def scanEbda (m : Memory) (V : ℕ → ℕ) (ebdaBase : ℕ) : Reads (Option ℕ) :=
  if ebdaBase ≠ 0 then scanRange m V ebdaBase (1024 / 16) else pure none

def scanBiosForRsdp (m : Memory) (V : ℕ → ℕ) : Reads (Option ℕ) := do
  let ebdaSegment ← Reads.u16 m (V 0x40E)
  let found ← scanEbda m V (ebdaSegment.toNat * 16)
  if found.isSome then pure found else scanRange m V 0xE0000 ((0x100000 - 0xE0000) / 16)

/-- The two readings of the address that Limine gave, the likely one first. -/
def readings (V : ℕ → ℕ) (rsdp revision : ℕ) : ℕ × ℕ :=
  if revision = 3 then (V rsdp, rsdp) else (rsdp, V rsdp)

/-- The first half of `init`: try both readings, and dump 16 bytes of each when neither will do. -/
def rootFromLimine (m : Memory) (V : ℕ → ℕ) (rsdp revision : ℕ) : Reads (Option RootTable) := do
  let first ← parseRsdp m (readings V rsdp revision).1
  if first.isOk then pure first.toOption
  else do
    let second ← parseRsdp m (readings V rsdp revision).2
    if second.isOk then pure second.toOption
    else do
      let _ ← Reads.bytes m (readings V rsdp revision).1 16
      let _ ← Reads.bytes m (readings V rsdp revision).2 16
      pure none

/-- The root table that `init` settles on; `limine` is the answer of the boot loader. -/
def findRoot (m : Memory) (V : ℕ → ℕ) (limine : Option ℕ) (revision : ℕ) :
    Reads (Option RootTable) := do
  let root ← limine.elim (pure none) fun rsdp => rootFromLimine m V rsdp revision
  if root.isSome then pure root
  else do
    let found ← scanBiosForRsdp m V
    found.elim (pure none) fun rsdp => do
      let parsed ← parseRsdp m rsdp
      pure parsed.toOption

/-- `size_of::<SdtHeader>()`. -/
def sdtHeaderSize : ℕ := 36

def sdtIsValid (m : Memory) (table : ℕ) : Reads Bool := do
  let length ← Reads.u32 m (table + 4)
  if length.toNat < sdtHeaderSize then pure false
  else do
    let all ← Reads.bytes m table length.toNat
    pure (byteSum all = 0)

/-- `parse_acpi_table`, on what `MADT` holds. The address of the local APIC is read for a message
before the length is looked at. -/
def parseAcpiTable (m : Memory) (table : ℕ) (data : MadtData) : Reads MadtData := do
  let signature ← Reads.bytes m table 4
  let valid ← sdtIsValid m table
  if valid then
    if signature = textBytes "APIC" then do
      let _ ← Reads.u32 m (table + 36)
      let length ← Reads.u32 m (table + 4)
      let parsed ← Madt.parse m table length.toNat
      pure (parsed.getD data)
    else pure data
  else pure data

def parseEntries (m : Memory) (V : ℕ → ℕ) (width : ℕ) (entry : ℕ → Reads ℕ) :
    (ptr n : ℕ) → MadtData → Reads MadtData
  | _, 0, data => pure data
  | ptr, n + 1, data => do
    let address ← entry ptr
    let data ← parseAcpiTable m (V address) data
    parseEntries m V width entry (ptr + width) n data

/-- `parse_xsdt` and `parse_rsdt`, which differ in the signature and the width of an entry. -/
def parseRoot (m : Memory) (V : ℕ → ℕ) (name : String) (width : ℕ) (entry : ℕ → Reads ℕ)
    (address : ℕ) (data : MadtData) : Reads MadtData := do
  let signature ← Reads.bytes m (V address) 4
  if signature ≠ textBytes name then pure data
  else do
    let valid ← sdtIsValid m (V address)
    if valid then do
      let length ← Reads.u32 m (V address + 4)
      let count := (length.toNat - sdtHeaderSize) / width
      if length.toNat < sdtHeaderSize then pure data
      else parseEntries m V width entry (V address + sdtHeaderSize) count data
    else pure data

def entry64 (m : Memory) (ptr : ℕ) : Reads ℕ := do
  let address ← Reads.u64 m ptr
  pure address.toNat

def entry32 (m : Memory) (ptr : ℕ) : Reads ℕ := do
  let address ← Reads.u32 m ptr
  pure address.toNat

def parseXsdt (m : Memory) (V : ℕ → ℕ) : ℕ → MadtData → Reads MadtData :=
  parseRoot m V "XSDT" 8 (entry64 m)

def parseRsdt (m : Memory) (V : ℕ → ℕ) : ℕ → MadtData → Reads MadtData :=
  parseRoot m V "RSDT" 4 (entry32 m)

def parseRootTable (m : Memory) (V : ℕ → ℕ) (data : MadtData) : RootTable → Reads MadtData
  | .xsdt address => parseXsdt m V address data
  | .rsdt address => parseRsdt m V address data

/-- `init`: what `MADT` holds afterwards. -/
def init (m : Memory) (V : ℕ → ℕ) (limine : Option ℕ) (revision : ℕ) (data : MadtData) :
    Reads MadtData := do
  let root ← findRoot m V limine revision
  root.elim (pure data) (parseRootTable m V data)

/-! What the walk comes to, as a function of memory alone. -/

/-- Bytes that pass the checksum of a root pointer of either revision. -/
def RsdpChecked (m : Memory) (rsdp : ℕ) : Prop :=
  m.bytes rsdp 8 = rsdPtr ∧ byteSum (m.bytes rsdp 20) = 0 ∧
  (2 ≤ (m (rsdp + 15)).toNat → 36 ≤ (m.load32 (rsdp + 20)).toNat ∧
    byteSum (m.bytes rsdp (m.load32 (rsdp + 20)).toNat) = 0)

instance (m : Memory) (rsdp : ℕ) : Decidable (RsdpChecked m rsdp) :=
  inferInstanceAs (Decidable (_ ∧ _ ∧ _))

/-- The root table that a root pointer names: the XSDT if it has one. -/
def rootOf (m : Memory) (rsdp : ℕ) : Option RootTable :=
  if 2 ≤ (m (rsdp + 15)).toNat ∧ m.load64 (rsdp + 24) ≠ 0 then
    some (.xsdt (m.load64 (rsdp + 24)).toNat)
  else if m.load32 (rsdp + 16) ≠ 0 then some (.rsdt (m.load32 (rsdp + 16)).toNat)
  else none

def rootAt (m : Memory) (rsdp : ℕ) : Option RootTable :=
  if RsdpChecked m rsdp then rootOf m rsdp else none

def candidates (m : Memory) (V : ℕ → ℕ) (limine : Option ℕ) (revision : ℕ) : List ℕ :=
  (limine.elim [] fun rsdp => [(readings V rsdp revision).1, (readings V rsdp revision).2]) ++
  (if (m.load16 (V 0x40E)).toNat = 0 then []
    else (List.range 64).map fun k => V ((m.load16 (V 0x40E)).toNat * 16 + 16 * k)) ++
  (List.range 8192).map fun k => V (0xE0000 + 16 * k)

def sdtLength (m : Memory) (table : ℕ) : ℕ := (m.load32 (table + 4)).toNat

def SdtChecked (m : Memory) (table : ℕ) : Prop :=
  sdtHeaderSize ≤ sdtLength m table ∧ byteSum (m.bytes table (sdtLength m table)) = 0

instance (m : Memory) (table : ℕ) : Decidable (SdtChecked m table) :=
  inferInstanceAs (Decidable (_ ∧ _))

/-- The entries of a root table with a given signature, as virtual addresses. -/
def entriesOf (m : Memory) (V : ℕ → ℕ) (name : String) (width : ℕ) (entry : ℕ → ℕ) (address : ℕ) :
    List ℕ :=
  if m.bytes (V address) 4 = textBytes name ∧ SdtChecked m (V address) then
    (List.range ((sdtLength m (V address) - sdtHeaderSize) / width)).map fun k =>
      V (entry (V address + sdtHeaderSize + width * k))
  else []

def listed (m : Memory) (V : ℕ → ℕ) : RootTable → List ℕ
  | .xsdt address => entriesOf m V "XSDT" 8 (fun ptr => (m.load64 ptr).toNat) address
  | .rsdt address => entriesOf m V "RSDT" 4 (fun ptr => (m.load32 ptr).toNat) address

def storeTable (m : Memory) (data : MadtData) (table : ℕ) : MadtData :=
  if m.bytes table 4 = textBytes "APIC" ∧ SdtChecked m table then
    (Madt.parse m table (sdtLength m table)).value.getD data
  else data

theorem map_stride_succ {α : Type} (f : ℕ → α) (a width n : ℕ) :
    ((List.range (n + 1)).map fun k => f (a + width * k)) =
      f a :: (List.range n).map fun k => f (a + width + width * k) := by
  rw [List.range_succ_eq_map, List.map_cons, List.map_map, Nat.mul_zero, Nat.add_zero]
  congr 2
  funext k
  change f (a + width * (k + 1)) = f (a + width + width * k)
  rw [Nat.mul_succ, Nat.add_comm (width * k), Nat.add_assoc]

section Values
variable (m : Memory) (V : ℕ → ℕ)

theorem rsdpIsValid_value (rsdp : ℕ) : (rsdpIsValid m rsdp).value = true ↔
    byteSum (m.bytes rsdp 20) = 0 ∧ m.bytes rsdp 8 = rsdPtr := by
  change (decide (byteSum (m.bytes rsdp 20) = 0) && decide (m.bytes rsdp 8 = rsdPtr)) = true ↔ _
  rw [Bool.and_eq_true, decide_eq_true_iff, decide_eq_true_iff]

theorem rsdpIsValidExtended_value (rsdp : ℕ) : (rsdpIsValidExtended m rsdp).value = true ↔
    (byteSum (m.bytes rsdp 20) = 0 ∧ m.bytes rsdp 8 = rsdPtr) ∧
    36 ≤ (m.load32 (rsdp + 20)).toNat ∧
    byteSum (m.bytes rsdp (m.load32 (rsdp + 20)).toNat) = 0 := by
  rw [← rsdpIsValid_value, rsdpIsValidExtended, Reads.value_bind]
  by_cases hvalid : (rsdpIsValid m rsdp).value = true
  · rw [if_pos hvalid, Reads.value_bind]
    change (if (m.load32 (rsdp + 20)).toNat < 36 then pure false else _ : Reads Bool).value = true ↔ _
    by_cases hlength : (m.load32 (rsdp + 20)).toNat < 36
    · rw [if_pos hlength]
      constructor
      · intro hfalse
        exact absurd hfalse Bool.false_ne_true
      · intro h
        omega
    · rw [if_neg hlength, Reads.value_bind]
      change decide (byteSum (m.bytes rsdp (m.load32 (rsdp + 20)).toNat) = 0) = true ↔ _
      rw [decide_eq_true_iff]
      constructor
      · intro hsum
        exact ⟨hvalid, by omega, hsum⟩
      · intro h
        exact h.2.2
  · rw [if_neg hvalid]
    constructor
    · intro hfalse
      exact absurd hfalse Bool.false_ne_true
    · intro h
      exact absurd h.1 hvalid

theorem rsdpChecked_of_extended {rsdp : ℕ} (h : (rsdpIsValidExtended m rsdp).value = true) :
    RsdpChecked m rsdp := by
  obtain ⟨⟨hsum, hsignature⟩, hlength⟩ := (rsdpIsValidExtended_value m rsdp).mp h
  exact ⟨hsignature, hsum, fun _ => hlength⟩

theorem rootOf_extended {rsdp : ℕ} (hrevision : 2 ≤ (m (rsdp + 15)).toNat) : rootOf m rsdp =
    if m.load64 (rsdp + 24) ≠ 0 then some (.xsdt (m.load64 (rsdp + 24)).toNat)
    else if m.load32 (rsdp + 16) ≠ 0 then some (.rsdt (m.load32 (rsdp + 16)).toNat) else none := by
  unfold rootOf
  by_cases hxsdt : m.load64 (rsdp + 24) ≠ 0
  · rw [if_pos ⟨hrevision, hxsdt⟩, if_pos hxsdt]
  · rw [if_neg (fun h => hxsdt h.2), if_neg hxsdt]

theorem rootOf_legacy {rsdp : ℕ} (hrevision : ¬ 2 ≤ (m (rsdp + 15)).toNat) : rootOf m rsdp =
    if m.load32 (rsdp + 16) = 0 then none else some (.rsdt (m.load32 (rsdp + 16)).toNat) := by
  unfold rootOf
  rw [if_neg (fun h => hrevision h.1), ite_not]

/-- `parse_rsdp` accepts exactly the root pointers that pass their checksums and name a table. -/
theorem parseRsdp_value (rsdp : ℕ) : (parseRsdp m rsdp).value.toOption = rootAt m rsdp := by
  rw [parseRsdp, Reads.value_bind]
  change (if m.bytes rsdp 8 ≠ rsdPtr then _ else _ : Reads (Except String RootTable)).value.toOption = _
  by_cases hsignature : m.bytes rsdp 8 = rsdPtr
  · rw [if_neg (not_not.mpr hsignature), Reads.value_bind]
    change (if 2 ≤ (m (rsdp + 15)).toNat then _ else _ : Reads (Except String RootTable)).value.toOption
      = _
    by_cases hrevision : 2 ≤ (m (rsdp + 15)).toNat
    · rw [if_pos hrevision, Reads.value_bind]
      by_cases hvalid : (rsdpIsValidExtended m rsdp).value = true
      · rw [if_pos hvalid, rootAt, if_pos (rsdpChecked_of_extended m hvalid),
          rootOf_extended m hrevision, Reads.value_bind, Reads.value_bind]
        change (if m.load64 (rsdp + 24) ≠ 0 then _ else if m.load32 (rsdp + 16) ≠ 0 then _ else _ :
          Reads (Except String RootTable)).value.toOption = _
        split_ifs <;> rfl
      · have hnone : ¬ RsdpChecked m rsdp := by
          intro h
          exact hvalid ((rsdpIsValidExtended_value m rsdp).mpr ⟨⟨h.2.1, h.1⟩, h.2.2 hrevision⟩)
        rw [if_neg hvalid, rootAt, if_neg hnone]
        rfl
    · rw [if_neg hrevision, Reads.value_bind]
      by_cases hvalid : (rsdpIsValid m rsdp).value = true
      · obtain ⟨hsum, -⟩ := (rsdpIsValid_value m rsdp).mp hvalid
        have hchecked : RsdpChecked m rsdp :=
          ⟨hsignature, hsum, fun hcon => absurd hcon hrevision⟩
        rw [if_pos hvalid, rootAt, if_pos hchecked, rootOf_legacy m hrevision, Reads.value_bind]
        change (if m.load32 (rsdp + 16) = 0 then _ else _ :
          Reads (Except String RootTable)).value.toOption = _
        split_ifs <;> rfl
      · have hnone : ¬ RsdpChecked m rsdp := by
          intro h
          exact hvalid ((rsdpIsValid_value m rsdp).mpr ⟨h.2.1, h.1⟩)
        rw [if_neg hvalid, rootAt, if_neg hnone]
        rfl
  · have hnone : ¬ RsdpChecked m rsdp := fun h => hsignature h.1
    rw [if_pos hsignature, rootAt, if_neg hnone]
    rfl

theorem parseRsdp_isOk (rsdp : ℕ) : (parseRsdp m rsdp).value.isOk = (rootAt m rsdp).isSome := by
  rw [← parseRsdp_value]
  cases (parseRsdp m rsdp).value <;> rfl

theorem scanRange_value (n : ℕ) : ∀ phys, (scanRange m V phys n).value =
    ((List.range n).map fun k => V (phys + 16 * k)).find? fun a => (rootAt m a).isSome := by
  induction n with
  | zero => exact fun _ => rfl
  | succ n ih =>
    intro phys
    have htake : (m.bytes (V phys) 16).take 8 = m.bytes (V phys) 8 := rfl
    rw [map_stride_succ V phys 16, scanRange, Reads.value_bind]
    change (if (m.bytes (V phys) 16).take 8 = rsdPtr then _ else _ : Reads (Option ℕ)).value = _
    rw [htake]
    by_cases hsignature : m.bytes (V phys) 8 = rsdPtr
    · rw [if_pos hsignature, Reads.value_bind, parseRsdp_isOk]
      cases hroot : (rootAt m (V phys)).isSome with
      | true =>
        rw [if_pos rfl, List.find?_cons_of_pos (p := fun a => (rootAt m a).isSome) hroot]
        rfl
      | false =>
        have hskip : ¬ (rootAt m (V phys)).isSome = true := by
          rw [hroot]
          exact Bool.false_ne_true
        rw [if_neg Bool.false_ne_true, ih,
          List.find?_cons_of_neg (p := fun a => (rootAt m a).isSome) hskip]
    · have hnone : rootAt m (V phys) = none := if_neg fun h => hsignature h.1
      have hskip : ¬ (rootAt m (V phys)).isSome = true := by
        rw [hnone]
        exact Bool.false_ne_true
      rw [if_neg hsignature, ih, List.find?_cons_of_neg (p := fun a => (rootAt m a).isSome) hskip]

theorem rootFromLimine_value (rsdp revision : ℕ) : (rootFromLimine m V rsdp revision).value =
    [(readings V rsdp revision).1, (readings V rsdp revision).2].findSome? (rootAt m) := by
  rw [rootFromLimine, Reads.value_bind, parseRsdp_isOk, List.findSome?_cons]
  cases hfirst : rootAt m (readings V rsdp revision).1 with
  | some root =>
    rw [← parseRsdp_value] at hfirst
    exact hfirst
  | none =>
    rw [if_neg (by rw [Option.isSome_none]; exact Bool.false_ne_true), Reads.value_bind, parseRsdp_isOk,
      List.findSome?_cons]
    cases hsecond : rootAt m (readings V rsdp revision).2 with
    | some root =>
      rw [← parseRsdp_value] at hsecond
      exact hsecond
    | none => rfl

theorem findSome?_of_find? {α β : Type} (f : α → Option β) (as : List α) :
    as.findSome? f = (as.find? fun a => (f a).isSome).bind f := by
  induction as with
  | nil => rfl
  | cons a as ih =>
    rw [List.findSome?_cons, List.find?_cons]
    cases hf : f a with
    | some b => exact hf.symm
    | none => exact ih

theorem scanEbda_value (segment : ℕ) : (scanEbda m V (segment * 16)).value =
    (if segment = 0 then [] else (List.range 64).map fun k => V (segment * 16 + 16 * k)).find?
      fun a => (rootAt m a).isSome := by
  unfold scanEbda
  by_cases hebda : segment = 0
  · have hzero : ¬ segment * 16 ≠ 0 := by omega
    rw [if_pos hebda, if_neg hzero]
    rfl
  · have hsome : segment * 16 ≠ 0 := by omega
    rw [if_neg hebda, if_pos hsome, scanRange_value]

theorem scanBiosForRsdp_value : (scanBiosForRsdp m V).value =
    ((if (m.load16 (V 0x40E)).toNat = 0 then []
      else (List.range 64).map fun k => V ((m.load16 (V 0x40E)).toNat * 16 + 16 * k)) ++
      (List.range 8192).map fun k => V (0xE0000 + 16 * k)).find? fun a => (rootAt m a).isSome := by
  have hrest := scanRange_value m V 8192 0xE0000
  rw [scanBiosForRsdp, Reads.value_bind, Reads.value_bind, List.find?_append, ← scanEbda_value,
    ← hrest]
  have hsegment : (Reads.u16 m (V 0x40E)).value = m.load16 (V 0x40E) := rfl
  rw [hsegment]
  cases (scanEbda m V ((m.load16 (V 0x40E)).toNat * 16)).value with
  | some a => rfl
  | none => rfl

theorem findRoot_value (limine : Option ℕ) (revision : ℕ) :
    (findRoot m V limine revision).value = (candidates m V limine revision).findSome? (rootAt m) := by
  have hlimine : (limine.elim (pure none) fun rsdp => rootFromLimine m V rsdp revision).value =
      (limine.elim [] fun rsdp => [(readings V rsdp revision).1, (readings V rsdp revision).2]).findSome?
        (rootAt m) := by
    cases limine with
    | none => rfl
    | some rsdp => exact rootFromLimine_value m V rsdp revision
  rw [candidates, List.append_assoc, List.findSome?_append, ← hlimine, findRoot, Reads.value_bind]
  generalize (limine.elim (pure none) fun rsdp => rootFromLimine m V rsdp revision).value = root
  cases root with
  | some root => rfl
  | none =>
    rw [findSome?_of_find?, ← scanBiosForRsdp_value]
    change (_ >>= _ : Reads (Option RootTable)).value = _
    rw [Reads.value_bind]
    cases (scanBiosForRsdp m V).value with
    | none => rfl
    | some rsdp => exact parseRsdp_value m rsdp

theorem sdtIsValid_value (table : ℕ) : (sdtIsValid m table).value = true ↔ SdtChecked m table := by
  rw [sdtIsValid, Reads.value_bind]
  change (if sdtLength m table < sdtHeaderSize then pure false else _ : Reads Bool).value = true ↔ _
  by_cases hlength : sdtLength m table < sdtHeaderSize
  · rw [if_pos hlength]
    constructor
    · intro hfalse
      exact absurd hfalse Bool.false_ne_true
    · intro h
      exact absurd h.1 (Nat.not_le_of_lt hlength)
  · rw [if_neg hlength, Reads.value_bind]
    change decide (byteSum (m.bytes table (sdtLength m table)) = 0) = true ↔ _
    rw [decide_eq_true_iff]
    constructor
    · intro hsum
      exact ⟨Nat.le_of_not_lt hlength, hsum⟩
    · intro h
      exact h.2

theorem parseAcpiTable_value (table : ℕ) (data : MadtData) :
    (parseAcpiTable m table data).value = storeTable m data table := by
  rw [parseAcpiTable, Reads.value_bind, Reads.value_bind, storeTable]
  by_cases hvalid : (sdtIsValid m table).value = true
  · have hchecked := (sdtIsValid_value m table).mp hvalid
    rw [if_pos hvalid]
    change (if m.bytes table 4 = textBytes "APIC" then _ else _ : Reads MadtData).value = _
    by_cases hsignature : m.bytes table 4 = textBytes "APIC"
    · rw [if_pos hsignature, if_pos ⟨hsignature, hchecked⟩, Reads.value_bind, Reads.value_bind,
        Reads.value_bind]
      rfl
    · rw [if_neg hsignature, if_neg fun h => hsignature h.1]
      rfl
  · rw [if_neg hvalid, if_neg fun h => hvalid ((sdtIsValid_value m table).mpr h.2)]
    rfl

theorem parseEntries_value (width : ℕ) (entry : ℕ → Reads ℕ) (n : ℕ) : ∀ ptr data,
    (parseEntries m V width entry ptr n data).value =
      ((List.range n).map fun k => V (entry (ptr + width * k)).value).foldl (storeTable m) data := by
  induction n with
  | zero => exact fun _ _ => rfl
  | succ n ih =>
    intro ptr data
    rw [map_stride_succ (fun p => V (entry p).value) ptr width, List.foldl_cons, parseEntries,
      Reads.value_bind, Reads.value_bind, parseAcpiTable_value, ih]

theorem parseRoot_value (name : String) (width : ℕ) (entry : ℕ → Reads ℕ) (address : ℕ)
    (data : MadtData) : (parseRoot m V name width entry address data).value =
      (entriesOf m V name width (fun ptr => (entry ptr).value) address).foldl (storeTable m) data := by
  rw [parseRoot, Reads.value_bind, entriesOf]
  change (if m.bytes (V address) 4 ≠ textBytes name then _ else _ : Reads MadtData).value = _
  by_cases hsignature : m.bytes (V address) 4 = textBytes name
  · rw [if_neg (not_not.mpr hsignature), Reads.value_bind]
    by_cases hvalid : (sdtIsValid m (V address)).value = true
    · have hchecked := (sdtIsValid_value m (V address)).mp hvalid
      rw [if_pos hvalid, if_pos ⟨hsignature, hchecked⟩, Reads.value_bind]
      change (if sdtLength m (V address) < sdtHeaderSize then _
        else parseEntries m V width entry (V address + sdtHeaderSize)
          ((sdtLength m (V address) - sdtHeaderSize) / width) data : Reads MadtData).value = _
      rw [if_neg (Nat.not_lt_of_le hchecked.1), parseEntries_value]
    · rw [if_neg hvalid, if_neg fun h => hvalid ((sdtIsValid_value m (V address)).mpr h.2)]
      rfl
  · rw [if_pos hsignature, if_neg fun h => hsignature h.1]
    rfl

theorem parseRootTable_value (data : MadtData) (root : RootTable) :
    (parseRootTable m V data root).value = (listed m V root).foldl (storeTable m) data := by
  cases root with
  | xsdt address => exact parseRoot_value m V "XSDT" 8 (entry64 m) address data
  | rsdt address => exact parseRoot_value m V "RSDT" 4 (entry32 m) address data

theorem init_value (limine : Option ℕ) (revision : ℕ) (data : MadtData) :
    (init m V limine revision data).value =
      ((candidates m V limine revision).findSome? (rootAt m)).elim data fun root =>
        (listed m V root).foldl (storeTable m) data := by
  rw [init, Reads.value_bind, findRoot_value]
  cases (candidates m V limine revision).findSome? (rootAt m) with
  | none => rfl
  | some root => exact parseRootTable_value m V data root

end Values

/-! Which bytes of memory the walk looks at. -/

/-- The bytes of a candidate that are read: its declared length counts only after the signature, the
revision and the first checksum have been accepted. -/
def rsdpExtent (m : Memory) (rsdp : ℕ) : ℕ :=
  if m.bytes rsdp 8 = rsdPtr then
    if 2 ≤ (m (rsdp + 15)).toNat ∧ byteSum (m.bytes rsdp 20) = 0 then
      max 24 (m.load32 (rsdp + 20)).toNat
    else 20
  else 16

/-- The bytes of a table that are read: the address of the local APIC is read from a table of any
length. -/
def sdtExtent (m : Memory) (table : ℕ) : ℕ :=
  if sdtLength m table < sdtHeaderSize then 8 else max 40 (sdtLength m table)

/-- Where `init` may look: the pointer to the EBDA, the candidates, and the tables that were found. -/
def footprint (m : Memory) (V : ℕ → ℕ) (limine : Option ℕ) (revision : ℕ) : Set ℕ :=
  {a | V 0x40E ≤ a ∧ a < V 0x40E + 2} ∪
  {a | ∃ c ∈ candidates m V limine revision, c ≤ a ∧ a < c + rsdpExtent m c} ∪
  {a | ∃ root, (candidates m V limine revision).findSome? (rootAt m) = some root ∧
    ∃ t ∈ V root.address :: listed m V root, t ≤ a ∧ a < t + sdtExtent m t}

section Footprint
variable {m : Memory} {V : ℕ → ℕ}

theorem le_rsdpExtent (m : Memory) (rsdp : ℕ) : 16 ≤ rsdpExtent m rsdp := by
  unfold rsdpExtent
  split_ifs
  · exact Nat.le_trans (by decide) (Nat.le_max_left _ _)
  · decide
  · decide

theorem within_rsdpIsValid {rsdp hi : ℕ} (hhi : rsdp + 20 ≤ hi) :
    (rsdpIsValid m rsdp).Within rsdp hi := by
  rw [rsdpIsValid, Reads.within_bind, Reads.within_bind]
  exact ⟨Reads.within_bytes le_rfl hhi, Reads.within_bytes le_rfl (by omega), Reads.within_pure _⟩

theorem within_rsdpIsValidExtended {rsdp hi : ℕ} (hhi : rsdp + 20 ≤ hi)
    (hlength : byteSum (m.bytes rsdp 20) = 0 → rsdp + 24 ≤ hi ∧
      rsdp + (m.load32 (rsdp + 20)).toNat ≤ hi) :
    (rsdpIsValidExtended m rsdp).Within rsdp hi := by
  rw [rsdpIsValidExtended, Reads.within_bind]
  refine ⟨within_rsdpIsValid hhi, ?_⟩
  by_cases hvalid : (rsdpIsValid m rsdp).value = true
  · obtain ⟨hfield, hall⟩ := hlength ((rsdpIsValid_value m rsdp).mp hvalid).1
    rw [if_pos hvalid, Reads.within_bind, Reads.within_u32]
    refine ⟨⟨by omega, by omega⟩, ?_⟩
    split_ifs
    · exact Reads.within_pure _
    · rw [Reads.within_bind]
      exact ⟨Reads.within_bytes le_rfl hall, Reads.within_pure _⟩
  · rw [if_neg hvalid]
    exact Reads.within_pure _

theorem within_parseRsdp (rsdp : ℕ) :
    (parseRsdp m rsdp).Within rsdp (rsdp + rsdpExtent m rsdp) := by
  have hmin := le_rsdpExtent m rsdp
  rw [parseRsdp, Reads.within_bind]
  refine ⟨Reads.within_bytes le_rfl (by omega), ?_⟩
  change (if m.bytes rsdp 8 ≠ rsdPtr then _ else _ : Reads (Except String RootTable)).Within _ _
  by_cases hsignature : m.bytes rsdp 8 = rsdPtr
  · rw [if_neg (not_not.mpr hsignature), Reads.within_bind, Reads.within_u8]
    refine ⟨⟨by omega, by omega⟩, ?_⟩
    change (if 2 ≤ (m (rsdp + 15)).toNat then _ else _ : Reads (Except String RootTable)).Within _ _
    have hlong : 20 ≤ rsdpExtent m rsdp := by
      rw [rsdpExtent, if_pos hsignature]
      split_ifs
      · exact Nat.le_trans (by decide) (Nat.le_max_left _ _)
      · exact le_rfl
    by_cases hrevision : 2 ≤ (m (rsdp + 15)).toNat
    · rw [if_pos hrevision, Reads.within_bind]
      have hlength : byteSum (m.bytes rsdp 20) = 0 →
          rsdp + 24 ≤ rsdp + rsdpExtent m rsdp ∧
            rsdp + (m.load32 (rsdp + 20)).toNat ≤ rsdp + rsdpExtent m rsdp := by
        intro hsum
        rw [rsdpExtent, if_pos hsignature, if_pos ⟨hrevision, hsum⟩]
        omega
      refine ⟨within_rsdpIsValidExtended (by omega) hlength, ?_⟩
      by_cases hvalid : (rsdpIsValidExtended m rsdp).value = true
      · obtain ⟨⟨hsum, -⟩, hsize, -⟩ := (rsdpIsValidExtended_value m rsdp).mp hvalid
        obtain ⟨-, hall⟩ := hlength hsum
        rw [if_pos hvalid, Reads.within_bind, Reads.within_bind, Reads.within_u64, Reads.within_u32]
        refine ⟨⟨by omega, by omega⟩, ⟨by omega, by omega⟩, ?_⟩
        split_ifs <;> exact Reads.within_pure _
      · rw [if_neg hvalid]
        exact Reads.within_pure _
    · rw [if_neg hrevision, Reads.within_bind]
      refine ⟨within_rsdpIsValid (by omega), ?_⟩
      split_ifs
      · rw [Reads.within_bind, Reads.within_u32]
        refine ⟨⟨by omega, by omega⟩, ?_⟩
        split_ifs <;> exact Reads.within_pure _
      · exact Reads.within_pure _
  · rw [if_pos hsignature]
    exact Reads.within_pure _

variable {S : Set ℕ}

theorem inside_parseRsdp {rsdp : ℕ} (h : ∀ a, rsdp ≤ a → a < rsdp + rsdpExtent m rsdp → a ∈ S) :
    (parseRsdp m rsdp).Inside S := (within_parseRsdp rsdp).inside h

theorem inside_dump {rsdp : ℕ} (h : ∀ a, rsdp ≤ a → a < rsdp + rsdpExtent m rsdp → a ∈ S) :
    (Reads.bytes m rsdp 16).Inside S := by
  have hmin := le_rsdpExtent m rsdp
  exact (Reads.within_bytes le_rfl (Nat.add_le_add_left hmin rsdp)).inside h

theorem inside_scanRange (n : ℕ) : ∀ phys,
    (∀ k < n, ∀ a, V (phys + 16 * k) ≤ a → a < V (phys + 16 * k) + rsdpExtent m (V (phys + 16 * k)) →
      a ∈ S) → (scanRange m V phys n).Inside S := by
  induction n with
  | zero => exact fun _ _ => Reads.inside_pure S _
  | succ n ih =>
    intro phys h
    have hfirst := h 0 (Nat.succ_pos n)
    have hrest : (scanRange m V (phys + 16) n).Inside S := by
      apply ih
      intro k hk
      have hnext := h (k + 1) (Nat.succ_lt_succ hk)
      rw [Nat.mul_succ, Nat.add_comm (16 * k), ← Nat.add_assoc] at hnext
      exact hnext
    rw [scanRange]
    refine (inside_dump hfirst).bind ?_
    split_ifs
    · refine (inside_parseRsdp hfirst).bind ?_
      split_ifs
      · exact Reads.inside_pure S _
      · exact hrest
    · exact hrest

theorem inside_rootFromLimine {rsdp revision : ℕ}
    (h : ∀ c ∈ [(readings V rsdp revision).1, (readings V rsdp revision).2],
      ∀ a, c ≤ a → a < c + rsdpExtent m c → a ∈ S) :
    (rootFromLimine m V rsdp revision).Inside S := by
  have hfirst := h _ List.mem_cons_self
  have hsecond := h _ (List.mem_cons_of_mem _ List.mem_cons_self)
  rw [rootFromLimine]
  refine (inside_parseRsdp hfirst).bind ?_
  split_ifs
  · exact Reads.inside_pure S _
  · refine (inside_parseRsdp hsecond).bind ?_
    split_ifs
    · exact Reads.inside_pure S _
    · exact (inside_dump hfirst).bind ((inside_dump hsecond).bind (Reads.inside_pure S _))

theorem inside_findRoot {limine : Option ℕ} {revision : ℕ}
    (hebda : ∀ a, V 0x40E ≤ a → a < V 0x40E + 2 → a ∈ S)
    (h : ∀ c ∈ candidates m V limine revision, ∀ a, c ≤ a → a < c + rsdpExtent m c → a ∈ S) :
    (findRoot m V limine revision).Inside S := by
  unfold candidates at h
  have hscan : (scanBiosForRsdp m V).Inside S := by
    rw [scanBiosForRsdp]
    refine (Reads.Within.inside (Reads.within_u16.mpr ⟨le_rfl, le_rfl⟩) hebda).bind ?_
    refine Reads.Inside.bind ?_ ?_
    · change (scanEbda m V ((m.load16 (V 0x40E)).toNat * 16)).Inside S
      rw [scanEbda]
      split_ifs with hbase
      · apply inside_scanRange
        intro k hk
        apply h
        rw [if_neg (by omega)]
        exact List.mem_append_left _ (List.mem_append_right _
          (List.mem_map_of_mem (List.mem_range.mpr hk)))
      · exact Reads.inside_pure S _
    · split_ifs
      · exact Reads.inside_pure S _
      · apply inside_scanRange
        intro k hk
        exact h _ (List.mem_append_right _ (List.mem_map_of_mem (List.mem_range.mpr hk)))
  rw [findRoot]
  refine Reads.Inside.bind ?_ ?_
  · cases limine with
    | none => exact Reads.inside_pure S _
    | some rsdp =>
      apply inside_rootFromLimine
      intro c hc
      exact h c (List.mem_append_left _ (List.mem_append_left _ hc))
  · split_ifs
    · exact Reads.inside_pure S _
    · refine hscan.bind ?_
      cases hfound : (scanBiosForRsdp m V).value with
      | none => exact Reads.inside_pure S _
      | some rsdp =>
        rw [scanBiosForRsdp_value] at hfound
        have hmem := List.mem_of_find?_eq_some hfound
        refine (inside_parseRsdp (h rsdp ?_)).bind (Reads.inside_pure S _)
        rw [List.append_assoc]
        exact List.mem_append_right _ hmem

theorem le_sdtExtent (m : Memory) (table : ℕ) : 8 ≤ sdtExtent m table := by
  unfold sdtExtent
  split_ifs
  · exact le_rfl
  · exact Nat.le_trans (by decide) (Nat.le_max_left _ _)

theorem within_sdtIsValid (table : ℕ) :
    (sdtIsValid m table).Within table (table + sdtExtent m table) := by
  have hmin := le_sdtExtent m table
  rw [sdtIsValid, Reads.within_bind, Reads.within_u32]
  refine ⟨⟨by omega, by omega⟩, ?_⟩
  change (if sdtLength m table < sdtHeaderSize then _ else _ : Reads Bool).Within _ _
  by_cases hlength : sdtLength m table < sdtHeaderSize
  · rw [if_pos hlength]
    exact Reads.within_pure _
  · rw [if_neg hlength, Reads.within_bind]
    refine ⟨Reads.within_bytes le_rfl ?_, Reads.within_pure _⟩
    rw [sdtExtent, if_neg hlength]
    exact Nat.add_le_add_left (Nat.le_max_right _ _) table

theorem SdtChecked.extent {table : ℕ} (h : SdtChecked m table) :
    sdtExtent m table = max 40 (sdtLength m table) := if_neg (Nat.not_lt_of_le h.1)

theorem within_parseAcpiTable (table : ℕ) (data : MadtData) :
    (parseAcpiTable m table data).Within table (table + sdtExtent m table) := by
  have hmin := le_sdtExtent m table
  rw [parseAcpiTable, Reads.within_bind, Reads.within_bind]
  refine ⟨Reads.within_bytes le_rfl (by omega), within_sdtIsValid table, ?_⟩
  by_cases hvalid : (sdtIsValid m table).value = true
  · have hextent := ((sdtIsValid_value m table).mp hvalid).extent
    rw [if_pos hvalid, hextent]
    split_ifs
    · rw [Reads.within_bind, Reads.within_bind, Reads.within_bind, Reads.within_u32,
        Reads.within_u32]
      refine ⟨⟨by omega, by omega⟩, ⟨by omega, by omega⟩, ?_, Reads.within_pure _⟩
      have hparse := within_parse m table (sdtLength m table)
      exact hparse.mono le_rfl (Nat.add_le_add_left (Nat.le_max_right _ _) table)
    · exact Reads.within_pure _
  · rw [if_neg hvalid]
    exact Reads.within_pure _

theorem inside_parseAcpiTable {table : ℕ} {data : MadtData}
    (h : ∀ a, table ≤ a → a < table + sdtExtent m table → a ∈ S) :
    (parseAcpiTable m table data).Inside S := (within_parseAcpiTable table data).inside h

theorem inside_parseEntries {width : ℕ} {entry : ℕ → Reads ℕ} {lo hi : ℕ}
    (hentry : ∀ ptr, (entry ptr).Within ptr (ptr + width))
    (hroot : ∀ a, lo ≤ a → a < hi → a ∈ S) (n : ℕ) : ∀ ptr data, lo ≤ ptr → ptr + width * n ≤ hi →
    (∀ k < n, ∀ a, V (entry (ptr + width * k)).value ≤ a →
      a < V (entry (ptr + width * k)).value + sdtExtent m (V (entry (ptr + width * k)).value) → a ∈ S) →
    (parseEntries m V width entry ptr n data).Inside S := by
  induction n with
  | zero => exact fun _ _ _ _ _ => Reads.inside_pure S _
  | succ n ih =>
    intro ptr data hlo hhi h
    rw [Nat.mul_succ] at hhi
    rw [parseEntries]
    refine ((hentry ptr).inside fun a hlow hhigh => hroot a (by omega) (by omega)).bind ?_
    refine (inside_parseAcpiTable (h 0 (Nat.succ_pos n))).bind ?_
    refine ih (ptr + width) _ (by omega) (by omega) ?_
    intro k hk
    have hnext := h (k + 1) (Nat.succ_lt_succ hk)
    rw [Nat.mul_succ, Nat.add_comm (width * k), ← Nat.add_assoc] at hnext
    exact hnext

theorem inside_parseRoot {name : String} {width : ℕ} {entry : ℕ → Reads ℕ} {address : ℕ}
    {data : MadtData} (hentry : ∀ ptr, (entry ptr).Within ptr (ptr + width))
    (h : ∀ t ∈ V address :: entriesOf m V name width (fun ptr => (entry ptr).value) address,
      ∀ a, t ≤ a → a < t + sdtExtent m t → a ∈ S) :
    (parseRoot m V name width entry address data).Inside S := by
  have hroot := h (V address) List.mem_cons_self
  have hheader : sdtHeaderSize = 36 := rfl
  have hvalidRead := within_sdtIsValid (m := m) (V address)
  have hmin := le_sdtExtent m (V address)
  rw [parseRoot]
  refine (Reads.Within.inside (Reads.within_bytes le_rfl (by omega)) hroot).bind ?_
  change (if m.bytes (V address) 4 ≠ textBytes name then _ else _ : Reads MadtData).Inside S
  by_cases hsignature : m.bytes (V address) 4 = textBytes name
  · rw [if_neg (not_not.mpr hsignature)]
    refine (hvalidRead.inside hroot).bind ?_
    by_cases hvalid : (sdtIsValid m (V address)).value = true
    · have hchecked := (sdtIsValid_value m (V address)).mp hvalid
      rw [if_pos hvalid]
      refine (Reads.Within.inside (Reads.within_u32.mpr ⟨by omega, by omega⟩) hroot).bind ?_
      change (if sdtLength m (V address) < sdtHeaderSize then _
        else parseEntries m V width entry (V address + sdtHeaderSize)
          ((sdtLength m (V address) - sdtHeaderSize) / width) data : Reads MadtData).Inside S
      rw [if_neg (Nat.not_lt_of_le hchecked.1)]
      have hcount : width * ((sdtLength m (V address) - sdtHeaderSize) / width) ≤
          sdtLength m (V address) - sdtHeaderSize := Nat.mul_div_le _ _
      have hextent := hchecked.extent
      have hlength := hchecked.1
      refine inside_parseEntries hentry hroot _ _ _ (by omega) (by omega) ?_
      intro k hk
      apply h
      rw [entriesOf, if_pos ⟨hsignature, hchecked⟩]
      exact List.mem_cons_of_mem _ (List.mem_map_of_mem (List.mem_range.mpr hk))
    · rw [if_neg hvalid]
      exact Reads.inside_pure S _
  · rw [if_pos hsignature]
    exact Reads.inside_pure S _

theorem within_entry64 (ptr : ℕ) : (entry64 m ptr).Within ptr (ptr + 8) := by
  rw [entry64, Reads.within_bind, Reads.within_u64]
  exact ⟨⟨le_rfl, le_rfl⟩, Reads.within_pure _⟩

theorem within_entry32 (ptr : ℕ) : (entry32 m ptr).Within ptr (ptr + 4) := by
  rw [entry32, Reads.within_bind, Reads.within_u32]
  exact ⟨⟨le_rfl, le_rfl⟩, Reads.within_pure _⟩

theorem inside_parseRootTable {data : MadtData} {root : RootTable}
    (h : ∀ t ∈ V root.address :: listed m V root, ∀ a, t ≤ a → a < t + sdtExtent m t → a ∈ S) :
    (parseRootTable m V data root).Inside S := by
  cases root with
  | xsdt address => exact inside_parseRoot within_entry64 h
  | rsdt address => exact inside_parseRoot within_entry32 h

end Footprint

theorem bounded_storeTable {m : Memory} {data : MadtData} (h : data.Bounded) (table : ℕ) :
    (storeTable m data table).Bounded := by
  unfold storeTable
  split_ifs
  · cases hparse : (Madt.parse m table (sdtLength m table)).value with
    | none => exact h
    | some parsed => exact bounded_parse hparse
  · exact h

theorem bounded_storeTables {m : Memory} (tables : List ℕ) : ∀ {data : MadtData}, data.Bounded →
    (tables.foldl (storeTable m) data).Bounded := by
  induction tables with
  | nil => exact fun h => h
  | cons table tables ih => exact fun h => ih (bounded_storeTable h table)

/-- Whatever the firmware left in memory: `init` settles on the first candidate with good checksums
that names a root table, hands the listed tables to the parser in order so that the last MADT with a
good checksum stays, fills no array beyond its end, and looks at nothing but the candidates, the root
table and the listed tables, each as far as its accepted header says. -/
theorem init_sound (m : Memory) (V : ℕ → ℕ) (limine : Option ℕ) (revision : ℕ) (data : MadtData) :
    (init m V limine revision data).value =
      ((candidates m V limine revision).findSome? (rootAt m)).elim data
        (fun root => (listed m V root).foldl (storeTable m) data) ∧
    (init m V limine revision data).Inside (footprint m V limine revision) ∧
    (data.Bounded → (init m V limine revision data).value.Bounded) := by
  refine ⟨init_value m V limine revision data, ?_, ?_⟩
  · rw [init]
    refine Reads.Inside.bind (inside_findRoot ?_ ?_) ?_
    · intro a hlow hhigh
      exact .inl (.inl ⟨hlow, hhigh⟩)
    · intro c hc a hlow hhigh
      exact .inl (.inr ⟨c, hc, hlow, hhigh⟩)
    · rw [findRoot_value]
      cases hroot : (candidates m V limine revision).findSome? (rootAt m) with
      | none => exact Reads.inside_pure _ data
      | some root =>
        refine inside_parseRootTable ?_
        intro t ht a hlow hhigh
        exact .inr ⟨root, hroot, t, ht, hlow, hhigh⟩
  · intro h
    rw [init_value]
    cases (candidates m V limine revision).findSome? (rootAt m) with
    | none => exact h
    | some root => exact bounded_storeTables (listed m V root) h

end MitosOS.Hal.Acpi
