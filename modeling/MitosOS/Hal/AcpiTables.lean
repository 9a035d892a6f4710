import MitosOS.Hal.Acpi

/-! Tables as a firmware lays them out, and that `hal::acpi::init` reads the machine back from them. -/
namespace MitosOS.Hal.Acpi
open MitosOS.Lib MitosOS.Hal MitosOS.Hal.Madt

section Sums

theorem foldl_add_byteSum (bytes : List (BitVec 8)) : ∀ c : BitVec 8,
    bytes.foldl (· + ·) c = c + byteSum bytes := by
  induction bytes with
  | nil => exact fun c => (BitVec.add_zero c).symm
  | cons b bytes ih =>
    intro c
    have hzero : byteSum (b :: bytes) = 0#8 + b + byteSum bytes := ih (0#8 + b)
    rw [List.foldl_cons, ih, hzero, BitVec.zero_add, BitVec.add_assoc]

theorem byteSum_append (xs ys : List (BitVec 8)) : byteSum (xs ++ ys) = byteSum xs + byteSum ys := by
  rw [byteSum, List.foldl_append, foldl_add_byteSum]
  rfl

theorem byteSum_cons (b : BitVec 8) (bytes : List (BitVec 8)) :
    byteSum (b :: bytes) = b + byteSum bytes := by
  have hfold : byteSum (b :: bytes) = 0#8 + b + byteSum bytes := foldl_add_byteSum bytes (0#8 + b)
  rw [hfold, BitVec.zero_add]

def checksum (before after : List (BitVec 8)) : BitVec 8 := -(byteSum before + byteSum after)

theorem byteSum_checksum (before after : List (BitVec 8)) :
    byteSum (before ++ checksum before after :: after) = 0 := by
  have hsum : ∀ x y : BitVec 8, x + (-(x + y) + y) = 0 := by
    intro x y
    grind
  rw [byteSum_append, byteSum_cons]
  exact hsum _ _

end Sums

/-- A system description table. `oem` is the rest of the header after the checksum. -/
structure Sdt where
  signature : List (BitVec 8)
  revision : BitVec 8
  oem : List (BitVec 8)
  body : List (BitVec 8)
  signatureLength : signature.length = 4
  oemLength : oem.length = 26
  fits : 36 + body.length < 2 ^ 32

namespace Sdt
variable {m : Memory} {a : ℕ} {t : Sdt}

def length (t : Sdt) : ℕ := 36 + t.body.length

def start (t : Sdt) : List (BitVec 8) := t.signature ++ (le32 (BitVec.ofNat 32 t.length) ++ [t.revision])

def bytes (t : Sdt) : List (BitVec 8) :=
  t.start ++ checksum t.start (t.oem ++ t.body) :: (t.oem ++ t.body)

theorem length_start (t : Sdt) : t.start.length = 9 := by
  rw [start, List.length_append, t.signatureLength]
  rfl

theorem length_bytes (t : Sdt) : t.bytes.length = t.length := by
  rw [bytes, List.length_append, List.length_cons, List.length_append, t.length_start, t.oemLength,
    length]
  omega

theorem holds_start (h : m.Holds a t.bytes) : m.Holds a t.start := (Memory.holds_append.mp h).1

theorem signature_eq (h : m.Holds a t.bytes) : m.bytes a 4 = t.signature := by
  have hsignature := (Memory.holds_append.mp (holds_start h)).1.bytes_eq
  rw [t.signatureLength] at hsignature
  exact hsignature

theorem sdtLength_eq (h : m.Holds a t.bytes) : sdtLength m a = t.length := by
  have hrest := (Memory.holds_append.mp (holds_start h)).2
  rw [t.signatureLength] at hrest
  rw [sdtLength, (Memory.holds_append.mp hrest).1.load32_eq, BitVec.toNat_ofNat]
  exact Nat.mod_eq_of_lt t.fits

theorem checked (h : m.Holds a t.bytes) : SdtChecked m a := by
  have hbytes := h.bytes_eq
  rw [SdtChecked, sdtLength_eq h]
  refine ⟨Nat.le_add_right _ _, ?_⟩
  rw [t.length_bytes] at hbytes
  rw [hbytes]
  exact byteSum_checksum _ _

theorem holds_body (h : m.Holds a t.bytes) : m.Holds (a + 36) t.body := by
  obtain ⟨-, -, hrest⟩ := Memory.holds_append.mp h
  have hbody := (Memory.holds_append.mp hrest).2
  rw [t.length_start, t.oemLength] at hbody
  exact hbody

end Sdt

structure MadtTable where
  revision : BitVec 8
  oem : List (BitVec 8)
  localApicAddress : BitVec 32
  flags : BitVec 32
  entries : List Entry
  oemLength : oem.length = 26
  fits : 44 + (entries.flatMap Entry.bytes).length < 2 ^ 32

namespace MadtTable

def body (t : MadtTable) : List (BitVec 8) :=
  le32 t.localApicAddress ++ (le32 t.flags ++ t.entries.flatMap Entry.bytes)

theorem length_body (t : MadtTable) :
    t.body.length = 8 + (t.entries.flatMap Entry.bytes).length := by
  rw [body, List.length_append, List.length_append, ← Nat.add_assoc]
  rfl

theorem body_fits (t : MadtTable) : 36 + t.body.length < 2 ^ 32 := by
  have h := t.fits
  rw [t.length_body]
  omega

theorem apic_length : (textBytes "APIC").length = 4 := by decide

def sdt (t : MadtTable) : Sdt where
  signature := textBytes "APIC"
  revision := t.revision
  oem := t.oem
  body := t.body
  signatureLength := apic_length
  oemLength := t.oemLength
  fits := t.body_fits

/-- `MADT` holds what the table says, each array as far as it reaches. -/
structure Describes (t : MadtTable) (data : MadtData) : Prop where
  found : data.found = true
  legacyPicPresent : data.legacyPicPresent = (t.flags &&& 1#32 != 0#32)
  localApicAddress : data.localApicAddress =
    ((t.entries.filterMap fun e => e.body.address?).getLast?).getD (t.localApicAddress.setWidth 64)
  cpus : data.cpus.stored = (t.entries.filterMap fun e => e.body.cpu?).take maxCpus
  ioapics : data.ioapics.stored = (t.entries.filterMap fun e => e.body.ioapic?).take maxIoapics
  isos : data.isos.stored = (t.entries.filterMap fun e => e.body.iso?).take maxIsos

variable {m : Memory} {a : ℕ} {t : MadtTable}

theorem parse_describes (h : m.Holds a t.sdt.bytes) :
    ∃ data, (parse m a t.sdt.length).value = some data ∧ t.Describes data := by
  obtain ⟨haddress, hrest⟩ := Memory.holds_append.mp (Sdt.holds_body h)
  obtain ⟨hflags, hentries⟩ := Memory.holds_append.mp hrest
  have haddress' : m.load32 (a + 36) = t.localApicAddress := haddress.load32_eq
  have hflags' : m.load32 (a + 40) = t.flags := hflags.load32_eq
  have hlong : headerSize ≤ t.sdt.length := by
    change 44 ≤ 36 + t.body.length
    rw [t.length_body]
    omega
  have hend : a + t.sdt.length = a + headerSize + (t.entries.flatMap Entry.bytes).length := by
    change a + (36 + t.body.length) = a + 44 + _
    rw [t.length_body]
    omega
  have hwalk := walk_recovers t.entries (MadtData.bounded_start true (t.flags &&& 1#32 != 0#32)
    (t.localApicAddress.setWidth 64)) hentries
  rw [parse_of_header hlong, haddress', hflags', hend]
  exact ⟨_, rfl, hwalk.found, hwalk.legacyPicPresent, hwalk.localApicAddress, hwalk.cpus,
    hwalk.ioapics, hwalk.isos⟩

theorem storeTable_describes (h : m.Holds a t.sdt.bytes) (data : MadtData) :
    t.Describes (storeTable m data a) := by
  obtain ⟨parsed, hparse, hdescribes⟩ := parse_describes h
  rw [storeTable, if_pos ⟨Sdt.signature_eq h, Sdt.checked h⟩, Sdt.sdtLength_eq h, hparse]
  exact hdescribes

end MadtTable

inductive AcpiTable where
  | madt (table : MadtTable)
  | other (table : Sdt) (notApic : table.signature ≠ textBytes "APIC")

namespace AcpiTable

def sdt : AcpiTable → Sdt
  | madt table => table.sdt
  | other table _ => table

def madt? : AcpiTable → Option MadtTable
  | madt table => some table
  | other _ _ => none

end AcpiTable

theorem storeTable_other {m : Memory} {a : ℕ} {t : Sdt} (h : m.Holds a t.bytes)
    (hother : t.signature ≠ textBytes "APIC") (data : MadtData) : storeTable m data a = data := by
  refine if_neg fun hapic => hother ?_
  rw [← Sdt.signature_eq h]
  exact hapic.1

/-- Tables at their virtual addresses: the last MADT of the list is what stays. -/
theorem storeTables_recovers {m : Memory} (data : MadtData) (tables : List (ℕ × AcpiTable)) :
    (∀ t ∈ tables, m.Holds t.1 t.2.sdt.bytes) →
    ((tables.filterMap fun t => t.2.madt?).getLast? = none →
      (tables.map Prod.fst).foldl (storeTable m) data = data) ∧
    ∀ t, (tables.filterMap fun t => t.2.madt?).getLast? = some t →
      t.Describes ((tables.map Prod.fst).foldl (storeTable m) data) := by
  induction tables using List.reverseRecOn with
  | nil =>
    intro _
    exact ⟨fun _ => rfl, fun t ht => absurd ht (Option.some_ne_none t).symm⟩
  | append_singleton tables table ih =>
    intro h
    obtain ⟨hnone, hsome⟩ := ih fun t ht => h t (List.mem_append_left _ ht)
    have hlast := h table (List.mem_append_right _ List.mem_cons_self)
    rw [List.map_append, List.foldl_append, List.filterMap_append, List.getLast?_append]
    obtain ⟨a, madt | ⟨other, hother⟩⟩ := table
    · refine ⟨fun hcon => absurd hcon (Option.some_ne_none madt), ?_⟩
      intro t ht
      obtain rfl := Option.some.inj ht
      exact MadtTable.storeTable_describes hlast _
    · change ((tables.filterMap fun t => t.2.madt?).getLast? = none →
          storeTable m ((tables.map Prod.fst).foldl (storeTable m) data) a = data) ∧
        ∀ t, (tables.filterMap fun t => t.2.madt?).getLast? = some t →
          t.Describes (storeTable m ((tables.map Prod.fst).foldl (storeTable m) data) a)
      rw [storeTable_other hlast hother]
      exact ⟨hnone, hsome⟩

structure Extension where
  xsdtAddress : BitVec 64
  reserved : List (BitVec 8)
  reservedLength : 3 ≤ reserved.length
  fits : 33 + reserved.length < 2 ^ 32

def Extension.start (e : Extension) : List (BitVec 8) :=
  le32 (BitVec.ofNat 32 (33 + e.reserved.length)) ++ le64 e.xsdtAddress

def Extension.bytes (e : Extension) : List (BitVec 8) :=
  e.start ++ checksum e.start e.reserved :: e.reserved

structure Rsdp where
  oem : List (BitVec 8)
  revision : BitVec 8
  rsdtAddress : BitVec 32
  extension : Option Extension
  oemLength : oem.length = 6
  extended : extension.isSome = true ↔ 2 ≤ revision.toNat

namespace Rsdp

def rest (r : Rsdp) : List (BitVec 8) := r.oem ++ (r.revision :: le32 r.rsdtAddress)

def firstPart (r : Rsdp) : List (BitVec 8) := rsdPtr ++ checksum rsdPtr r.rest :: r.rest

def bytes (r : Rsdp) : List (BitVec 8) := r.firstPart ++ r.extension.elim [] Extension.bytes

def xsdt? (r : Rsdp) : Option RootTable :=
  r.extension.bind fun e => if e.xsdtAddress ≠ 0 then some (.xsdt e.xsdtAddress.toNat) else none

def rsdt? (r : Rsdp) : Option RootTable :=
  if r.rsdtAddress ≠ 0 then some (.rsdt r.rsdtAddress.toNat) else none

def root (r : Rsdp) : Option RootTable := r.xsdt?.or r.rsdt?

variable {m : Memory} {a : ℕ} {r : Rsdp}

theorem rsdPtr_length : rsdPtr.length = 8 := by decide

theorem length_rest (r : Rsdp) : r.rest.length = 11 := by
  rw [rest, List.length_append, r.oemLength]
  rfl

theorem length_firstPart (r : Rsdp) : r.firstPart.length = 20 := by
  rw [firstPart, List.length_append, List.length_cons, r.length_rest, rsdPtr_length]

theorem holds_firstPart (h : m.Holds a r.bytes) : m.Holds a r.firstPart :=
  (Memory.holds_append.mp h).1

theorem signature_eq (h : m.Holds a r.bytes) : m.bytes a 8 = rsdPtr := by
  have hsignature := (Memory.holds_append.mp (holds_firstPart h)).1.bytes_eq
  rw [rsdPtr_length] at hsignature
  exact hsignature

theorem byteSum_firstPart (h : m.Holds a r.bytes) : byteSum (m.bytes a 20) = 0 := by
  have hbytes := (holds_firstPart h).bytes_eq
  rw [r.length_firstPart] at hbytes
  rw [hbytes]
  exact byteSum_checksum _ _

theorem fields_eq (h : m.Holds a r.bytes) :
    m (a + 15) = r.revision ∧ m.load32 (a + 16) = r.rsdtAddress := by
  obtain ⟨-, -, hrest⟩ := Memory.holds_append.mp (holds_firstPart h)
  have hfields := (Memory.holds_append.mp hrest).2
  rw [rsdPtr_length, r.oemLength] at hfields
  exact ⟨hfields.1, hfields.2.load32_eq⟩

theorem length_extension (e : Extension) : e.bytes.length = 13 + e.reserved.length := by
  rw [Extension.bytes, List.length_append, List.length_cons]
  change 12 + (e.reserved.length + 1) = _
  omega

theorem extension_eq {e : Extension} (hextension : r.extension = some e) (h : m.Holds a r.bytes) :
    (m.load32 (a + 20)).toNat = 33 + e.reserved.length ∧ m.load64 (a + 24) = e.xsdtAddress ∧
    byteSum (m.bytes a (33 + e.reserved.length)) = 0 := by
  have hbytes := h.bytes_eq
  have hall : r.bytes = r.firstPart ++ e.bytes := by
    rw [bytes, hextension]
    rfl
  rw [hall] at h hbytes
  have hsecond := (Memory.holds_append.mp h).2
  rw [r.length_firstPart] at hsecond
  obtain ⟨hlength, hxsdt⟩ := Memory.holds_append.mp (Memory.holds_append.mp hsecond).1
  refine ⟨?_, hxsdt.load64_eq, ?_⟩
  · rw [hlength.load32_eq, BitVec.toNat_ofNat]
    exact Nat.mod_eq_of_lt e.fits
  · have htotal : (r.firstPart ++ e.bytes).length = 33 + e.reserved.length := by
      rw [List.length_append, r.length_firstPart, length_extension]
      omega
    rw [htotal] at hbytes
    have hfirst : byteSum r.firstPart = 0 := byteSum_checksum _ _
    have hrest : byteSum e.bytes = 0 := byteSum_checksum _ _
    rw [hbytes, byteSum_append, hfirst, hrest]
    rfl

theorem rootAt_eq (h : m.Holds a r.bytes) : rootAt m a = r.root := by
  obtain ⟨hrevision, hrsdt⟩ := fields_eq h
  have hextended := r.extended
  rw [← hrevision] at hextended
  cases hextension : r.extension with
  | none =>
    rw [hextension] at hextended
    have hlegacy : ¬ 2 ≤ (m (a + 15)).toNat := fun hcon => absurd (hextended.mpr hcon) Bool.false_ne_true
    have hchecked : RsdpChecked m a :=
      ⟨signature_eq h, byteSum_firstPart h, fun hcon => absurd hcon hlegacy⟩
    rw [rootAt, if_pos hchecked, rootOf_legacy m hlegacy, hrsdt, root, xsdt?, hextension, rsdt?, ite_not]
    rfl
  | some e =>
    rw [hextension] at hextended
    obtain ⟨hlength, hxsdt, hsum⟩ := extension_eq hextension h
    have hreserved := e.reservedLength
    have hchecked : RsdpChecked m a := by
      refine ⟨signature_eq h, byteSum_firstPart h, fun _ => ?_⟩
      rw [hlength]
      exact ⟨by omega, hsum⟩
    rw [rootAt, if_pos hchecked, rootOf_extended m (hextended.mp rfl), hrsdt, hxsdt, root, xsdt?,
      hextension, rsdt?]
    change _ = (if e.xsdtAddress ≠ 0 then some (RootTable.xsdt e.xsdtAddress.toNat) else none).or _
    by_cases hzero : e.xsdtAddress ≠ 0
    · rw [if_pos hzero, if_pos hzero]
      rfl
    · rw [if_neg hzero, if_neg hzero]
      rfl

end Rsdp

namespace RootTable

def name : RootTable → String
  | rsdt _ => "RSDT"
  | xsdt _ => "XSDT"

def width : RootTable → ℕ
  | rsdt _ => 4
  | xsdt _ => 8

def encode : RootTable → ℕ → List (BitVec 8)
  | rsdt _, address => le32 (BitVec.ofNat 32 address)
  | xsdt _, address => le64 (BitVec.ofNat 64 address)

def decode (m : Memory) : RootTable → ℕ → ℕ
  | rsdt _, ptr => (m.load32 ptr).toNat
  | xsdt _, ptr => (m.load64 ptr).toNat

theorem width_pos (root : RootTable) : 0 < root.width := by
  cases root <;> exact Nat.succ_pos _

theorem length_encode (root : RootTable) (address : ℕ) : (root.encode address).length = root.width := by
  cases root <;> rfl

theorem decode_encode {m : Memory} {root : RootTable} {ptr address : ℕ}
    (hreach : address < 2 ^ (8 * root.width)) (h : m.Holds ptr (root.encode address)) :
    root.decode m ptr = address := by
  cases root with
  | rsdt _ =>
    have hword : m.load32 ptr = BitVec.ofNat 32 address := h.load32_eq
    rw [decode, hword, BitVec.toNat_ofNat]
    exact Nat.mod_eq_of_lt hreach
  | xsdt _ =>
    have hword : m.load64 ptr = BitVec.ofNat 64 address := h.load64_eq
    rw [decode, hword, BitVec.toNat_ofNat]
    exact Nat.mod_eq_of_lt hreach

theorem listed_eq (m : Memory) (V : ℕ → ℕ) (root : RootTable) :
    listed m V root = entriesOf m V root.name root.width (root.decode m) root.address := by
  cases root <;> rfl

theorem entries_eq {m : Memory} {root : RootTable} (addresses : List ℕ) : ∀ {ptr : ℕ},
    (∀ p ∈ addresses, p < 2 ^ (8 * root.width)) →
    m.Holds ptr (addresses.flatMap root.encode) →
    ((List.range addresses.length).map fun k => root.decode m (ptr + root.width * k)) = addresses := by
  induction addresses with
  | nil => exact fun _ _ => rfl
  | cons p addresses ih =>
    intro ptr hreach h
    rw [List.flatMap_cons] at h
    obtain ⟨hfirst, hrest⟩ := Memory.holds_append.mp h
    rw [root.length_encode] at hrest
    rw [List.length_cons, map_stride_succ (root.decode m) ptr root.width,
      decode_encode (hreach p List.mem_cons_self) hfirst,
      ih (fun q hq => hreach q (List.mem_cons_of_mem _ hq)) hrest]

end RootTable

/-- The tables of a machine: a root pointer, the root table that it names, and the tables listed
there with their physical addresses. `slack` is what an odd length leaves after the last entry. -/
structure Firmware where
  rsdp : Rsdp
  root : RootTable
  names : rsdp.root = some root
  tables : List (ℕ × AcpiTable)
  reach : ∀ t ∈ tables, t.1 < 2 ^ (8 * root.width)
  slack : List (BitVec 8)
  slackLength : slack.length < root.width
  rootSdt : Sdt
  rootSignature : rootSdt.signature = textBytes root.name
  rootBody : rootSdt.body = (tables.map Prod.fst).flatMap root.encode ++ slack

namespace Firmware

def madts (fw : Firmware) : List MadtTable := fw.tables.filterMap fun t => t.2.madt?

/-- The tables lie in memory, and no candidate that is looked at before the root pointer passes for
one. -/
structure Installed (fw : Firmware) (m : Memory) (V : ℕ → ℕ) (limine : Option ℕ) (revision : ℕ) :
    Prop where
  root : m.Holds (V fw.root.address) fw.rootSdt.bytes
  tables : ∀ t ∈ fw.tables, m.Holds (V t.1) t.2.sdt.bytes
  rsdp : ∃ before place after, candidates m V limine revision = before ++ place :: after ∧
    m.Holds place fw.rsdp.bytes ∧ ∀ c ∈ before, rootAt m c = none

variable {fw : Firmware} {m : Memory} {V : ℕ → ℕ} {limine : Option ℕ} {revision : ℕ}

theorem Installed.findSome (h : fw.Installed m V limine revision) :
    (candidates m V limine revision).findSome? (rootAt m) = some fw.root := by
  obtain ⟨before, c, after, hsplit, hholds, hbefore⟩ := h.rsdp
  have hnone : before.findSome? (rootAt m) = none := List.findSome?_eq_none_iff.mpr hbefore
  rw [hsplit, List.findSome?_append, hnone, List.findSome?_cons, Rsdp.rootAt_eq hholds, fw.names]
  rfl

theorem length_flatMap_encode (root : RootTable) (addresses : List ℕ) :
    (addresses.flatMap root.encode).length = root.width * addresses.length := by
  induction addresses with
  | nil => rfl
  | cons p addresses ih =>
    rw [List.flatMap_cons, List.length_append, ih, root.length_encode, List.length_cons, Nat.mul_succ,
      Nat.add_comm]

theorem Installed.listed_eq (h : fw.Installed m V limine revision) :
    listed m V fw.root = fw.tables.map fun t => V t.1 := by
  have hcount : (sdtLength m (V fw.root.address) - sdtHeaderSize) / fw.root.width =
      (fw.tables.map Prod.fst).length := by
    rw [Sdt.sdtLength_eq h.root, Sdt.length, fw.rootBody, List.length_append, length_flatMap_encode]
    change (36 + _ - 36) / fw.root.width = _
    rw [Nat.add_sub_cancel_left, Nat.mul_add_div fw.root.width_pos,
      Nat.div_eq_of_lt fw.slackLength, Nat.add_zero]
  have hbody := Sdt.holds_body h.root
  rw [fw.rootBody] at hbody
  have hreach : ∀ p ∈ fw.tables.map Prod.fst, p < 2 ^ (8 * fw.root.width) := by
    intro p hp
    obtain ⟨t, ht, rfl⟩ := List.mem_map.mp hp
    exact fw.reach t ht
  have hentries := RootTable.entries_eq _ hreach (Memory.holds_append.mp hbody).1
  have hsignature : m.bytes (V fw.root.address) 4 = textBytes fw.root.name :=
    (Sdt.signature_eq h.root).trans fw.rootSignature
  rw [RootTable.listed_eq, entriesOf, if_pos ⟨hsignature, Sdt.checked h.root⟩, hcount]
  calc (List.range (fw.tables.map Prod.fst).length).map (fun k =>
          V (fw.root.decode m (V fw.root.address + sdtHeaderSize + fw.root.width * k)))
      = ((List.range (fw.tables.map Prod.fst).length).map fun k =>
          fw.root.decode m (V fw.root.address + 36 + fw.root.width * k)).map V := by
        rw [List.map_map]
        rfl
    _ = (fw.tables.map Prod.fst).map V := by rw [hentries]
    _ = fw.tables.map fun t => V t.1 := List.map_map

/-- Whichever way the root pointer is found and whichever kind of root table it names, `init` leaves
in `MADT` what the last MADT says, and leaves `MADT` alone if there is none. -/
theorem init_recovers (fw : Firmware) (m : Memory) (V : ℕ → ℕ) (limine : Option ℕ) (revision : ℕ)
    (data : MadtData) (h : fw.Installed m V limine revision) :
    (fw.madts.getLast? = none → (init m V limine revision data).value = data) ∧
    ∀ t, fw.madts.getLast? = some t → t.Describes (init m V limine revision data).value := by
  have hvirtual : ∀ t ∈ fw.tables.map fun t => (V t.1, t.2), m.Holds t.1 t.2.sdt.bytes := by
    intro t ht
    obtain ⟨t, hmem, rfl⟩ := List.mem_map.mp ht
    exact h.tables t hmem
  have hmadts : (fw.tables.map fun t => (V t.1, t.2)).filterMap (fun t => t.2.madt?) = fw.madts :=
    List.filterMap_map
  have haddresses : (fw.tables.map fun t => (V t.1, t.2)).map Prod.fst = fw.tables.map fun t => V t.1 :=
    List.map_map
  have hrecovers := storeTables_recovers data _ hvirtual
  rw [hmadts, haddresses] at hrecovers
  rw [init_value, h.findSome]
  change (_ → (listed m V fw.root).foldl (storeTable m) data = data) ∧
    ∀ t : MadtTable, _ → t.Describes ((listed m V fw.root).foldl (storeTable m) data)
  rw [h.listed_eq]
  exact hrecovers

/-! A machine with two tables, whose root pointer Limine gives as a physical address. -/

def hpetTable : Sdt where
  signature := textBytes "HPET"
  revision := 1
  oem := List.replicate 26 0x20
  body := []
  signatureLength := by decide
  oemLength := rfl
  fits := by decide

def smallMadt : MadtTable where
  revision := 3
  oem := List.replicate 26 0x20
  localApicAddress := 0xFEE00000
  flags := 1
  entries := [⟨.localApic 0 0 1, [], by decide⟩, ⟨.ioApic 2 0 0xFEC00000 0, [], by decide⟩]
  oemLength := rfl
  fits := by decide

def smallTables : List (ℕ × AcpiTable) :=
  [(0x300, .madt smallMadt), (0x400, .other hpetTable (by decide))]

def smallFirmware : Firmware where
  rsdp := ⟨List.replicate 6 0x20, 2, 0, some ⟨0x200, [0, 0, 0], by decide, by decide⟩, rfl, by decide⟩
  root := .xsdt 0x200
  names := by decide
  tables := smallTables
  reach := by decide
  slack := []
  slackLength := by decide
  rootSdt := ⟨textBytes "XSDT", 1, List.replicate 26 0x20, le64 0x300 ++ le64 0x400,
    by decide, rfl, by decide⟩
  rootSignature := rfl
  rootBody := by decide

/-- Each table at its place above the offset 0x1000 of the direct map. -/
def smallMemory : Memory := fun a =>
  if a < 0x1200 then smallFirmware.rsdp.bytes.getD (a - 0x1100) 0
  else if a < 0x1300 then smallFirmware.rootSdt.bytes.getD (a - 0x1200) 0
  else if a < 0x1400 then smallMadt.sdt.bytes.getD (a - 0x1300) 0
  else hpetTable.bytes.getD (a - 0x1400) 0

theorem smallFirmware_installed :
    smallFirmware.Installed smallMemory (· + 0x1000) (some 0x100) 3 where
  root := Memory.holds_of_bytes (by decide)
  tables := by
    intro t ht
    rcases List.mem_cons.mp ht with rfl | ht
    · exact Memory.holds_of_bytes (by decide)
    · obtain rfl := List.mem_singleton.mp ht
      exact Memory.holds_of_bytes (by decide)
  rsdp := ⟨[], 0x1100, _, rfl, Memory.holds_of_bytes (by decide),
    fun _ hc => absurd hc List.not_mem_nil⟩

theorem init_recovers_madt : smallMadt.Describes
    (init smallMemory (· + 0x1000) (some 0x100) 3 MadtData.empty).value :=
  (init_recovers smallFirmware smallMemory (· + 0x1000) (some 0x100) 3 MadtData.empty
    smallFirmware_installed).2 smallMadt rfl

end Firmware

end MitosOS.Hal.Acpi
