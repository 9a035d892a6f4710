import MitosOS.Hal.Smp
import MitosOS.Lib.FixedTable
import MitosOS.Lib.Reads

/-! The entry walk of `hal::madt`. Every access is recorded, so that the walk can be shown to stay
inside the table whatever the firmware put there. -/
namespace MitosOS.Hal.Madt
open MitosOS.Lib MitosOS.Hal

def maxIoapics : ℕ := 8
def maxIsos : ℕ := 24

inductive Polarity where
  | conformsToBus
  | activeHigh
  | activeLow
  deriving DecidableEq

inductive TriggerMode where
  | conformsToBus
  | edge
  | level
  deriving DecidableEq

def decodeMpsFlags (flags : BitVec 16) : Polarity × TriggerMode :=
  let polarity :=
    match (flags &&& 0x3#16).toNat with
    | 1 => Polarity.activeHigh
    | 3 => Polarity.activeLow
    | _ => Polarity.conformsToBus
  let trigger :=
    match ((flags >>> 2) &&& 0x3#16).toNat with
    | 1 => TriggerMode.edge
    | 3 => TriggerMode.level
    | _ => TriggerMode.conformsToBus
  (polarity, trigger)

/-- A usable CPU, with all the fields that `parse` stores. -/
structure ProcessorLocalApic extends Hal.ProcessorLocalApic where
  acpiProcessorId : BitVec 8
  onlineCapable : Bool

structure IoApicInfo where
  id : BitVec 8
  address : BitVec 32
  gsiBase : BitVec 32

structure InterruptSourceOverride where
  bus : BitVec 8
  sourceIrq : BitVec 8
  gsi : BitVec 32
  polarity : Polarity
  trigger : TriggerMode

structure MadtData where
  found : Bool
  localApicAddress : BitVec 64
  legacyPicPresent : Bool
  cpus : FixedTable ProcessorLocalApic maxCpus
  ioapics : FixedTable IoApicInfo maxIoapics
  isos : FixedTable InterruptSourceOverride maxIsos

namespace MadtData

def empty : MadtData where
  found := false
  localApicAddress := 0#64
  legacyPicPresent := false
  cpus := .replicate maxCpus ⟨⟨0#32, false⟩, 0#8, false⟩
  ioapics := .replicate maxIoapics ⟨0#8, 0#32, 0#32⟩
  isos := .replicate maxIsos ⟨0#8, 0#8, 0#32, .conformsToBus, .conformsToBus⟩

def pushCpu (data : MadtData) (acpiProcessorId : BitVec 8) (apicId : BitVec 32)
    (enabled onlineCapable : Bool) : MadtData :=
  if !enabled && !onlineCapable then data
  else { data with cpus := data.cpus.push ⟨⟨apicId, enabled⟩, acpiProcessorId, onlineCapable⟩ }

end MadtData

/-- One arm of the `match` for each entry type; an entry too short for its type is skipped. -/
def decodeEntry (m : Memory) (cursor entryType entryLength : ℕ) (data : MadtData) :
    Reads MadtData :=
  match entryType with
  | 0 =>
    if 8 ≤ entryLength then do
      let acpiProcessorId ← Reads.u8 m (cursor + 2)
      let apicId ← Reads.u8 m (cursor + 3)
      let pflags ← Reads.u32 m (cursor + 4)
      pure (data.pushCpu acpiProcessorId (apicId.setWidth 32) (pflags &&& 1#32 != 0#32)
        (pflags &&& 2#32 != 0#32))
    else pure data
  | 1 =>
    if 12 ≤ entryLength then do
      let id ← Reads.u8 m (cursor + 2)
      let address ← Reads.u32 m (cursor + 4)
      let gsiBase ← Reads.u32 m (cursor + 8)
      pure { data with ioapics := data.ioapics.push ⟨id, address, gsiBase⟩ }
    else pure data
  | 2 =>
    if 10 ≤ entryLength then do
      let bus ← Reads.u8 m (cursor + 2)
      let sourceIrq ← Reads.u8 m (cursor + 3)
      let gsi ← Reads.u32 m (cursor + 4)
      let mpsFlags ← Reads.u16 m (cursor + 8)
      let (polarity, trigger) := decodeMpsFlags mpsFlags
      pure { data with isos := data.isos.push ⟨bus, sourceIrq, gsi, polarity, trigger⟩ }
    else pure data
  | 5 =>
    if 12 ≤ entryLength then do
      let address ← Reads.u64 m (cursor + 4)
      pure { data with localApicAddress := address }
    else pure data
  | 9 =>
    if 16 ≤ entryLength then do
      let x2apicId ← Reads.u32 m (cursor + 4)
      let pflags ← Reads.u32 m (cursor + 8)
      let acpiUid ← Reads.u32 m (cursor + 12)
      pure (data.pushCpu (acpiUid.setWidth 8) x2apicId (pflags &&& 1#32 != 0#32)
        (pflags &&& 2#32 != 0#32))
    else pure data
  | _ => pure data

def walk (m : Memory) (entriesEnd cursor : ℕ) (data : MadtData) : Reads MadtData :=
  if _h : cursor + 2 ≤ entriesEnd then do
    let entryType ← Reads.u8 m cursor
    let entryLength ← Reads.u8 m (cursor + 1)
    if _h : entryLength.toNat < 2 ∨ entriesEnd < cursor + entryLength.toNat then pure data
    else do
      let data ← decodeEntry m cursor entryType.toNat entryLength.toNat data
      walk m entriesEnd (cursor + entryLength.toNat) data
  else pure data
termination_by entriesEnd - cursor
decreasing_by omega

section Walk
variable {m : Memory} {entriesEnd cursor : ℕ} {data : MadtData}

theorem walk_of_end (hcursor : ¬ cursor + 2 ≤ entriesEnd) :
    walk m entriesEnd cursor data = pure data := by
  rw [walk, dif_neg hcursor]

theorem walk_of_stop (hcursor : cursor + 2 ≤ entriesEnd)
    (hstop : (m (cursor + 1)).toNat < 2 ∨ entriesEnd < cursor + (m (cursor + 1)).toNat) :
    walk m entriesEnd cursor data = (do
      let _ ← Reads.u8 m cursor
      let _ ← Reads.u8 m (cursor + 1)
      pure data) := by
  rw [walk, dif_pos hcursor]
  exact Reads.bind_congr (Reads.bind_congr (dif_pos hstop))

theorem walk_of_entry (hcursor : cursor + 2 ≤ entriesEnd)
    (hstop : ¬ ((m (cursor + 1)).toNat < 2 ∨ entriesEnd < cursor + (m (cursor + 1)).toNat)) :
    walk m entriesEnd cursor data = (do
      let _ ← Reads.u8 m cursor
      let _ ← Reads.u8 m (cursor + 1)
      let data ← decodeEntry m cursor (m cursor).toNat (m (cursor + 1)).toNat data
      walk m entriesEnd (cursor + (m (cursor + 1)).toNat) data) := by
  rw [walk, dif_pos hcursor]
  exact Reads.bind_congr (Reads.bind_congr (dif_neg hstop))

end Walk

def headerSize : ℕ := 44

/-- What `parse` stores in `MADT`, if anything. -/
def parse (m : Memory) (table length : ℕ) : Reads (Option MadtData) :=
  if length < headerSize then pure none
  else do
    let localApicAddress ← Reads.u32 m (table + 36)
    let flags ← Reads.u32 m (table + 40)
    let data ← walk m (table + length) (table + headerSize) { MadtData.empty with
      found := true
      localApicAddress := localApicAddress.setWidth 64
      legacyPicPresent := flags &&& 1#32 != 0#32 }
    pure (some data)

structure MadtData.Bounded (data : MadtData) : Prop where
  cpus : data.cpus.count ≤ maxCpus
  ioapics : data.ioapics.count ≤ maxIoapics
  isos : data.isos.count ≤ maxIsos

section Soundness
variable {m : Memory} {data : MadtData}

theorem MadtData.Bounded.pushCpu (h : data.Bounded) (acpiProcessorId : BitVec 8)
    (apicId : BitVec 32) (enabled onlineCapable : Bool) :
    (data.pushCpu acpiProcessorId apicId enabled onlineCapable).Bounded := by
  unfold MadtData.pushCpu
  split_ifs
  · exact h
  · exact ⟨FixedTable.count_push_le h.cpus _, h.ioapics, h.isos⟩

theorem decodeEntry_sound (h : data.Bounded) (cursor entryType entryLength : ℕ) :
    (decodeEntry m cursor entryType entryLength data).Within cursor (cursor + entryLength) ∧
      (decodeEntry m cursor entryType entryLength data).value.Bounded := by
  have hskip : (pure data : Reads MadtData).Within cursor (cursor + entryLength) ∧
      (pure data : Reads MadtData).value.Bounded := ⟨Reads.within_pure data, h⟩
  unfold decodeEntry
  split
  case h_1 =>
    split_ifs with hlength
    · refine ⟨?_, h.pushCpu _ _ _ _⟩
      simp only [Reads.within_bind, Reads.within_u8, Reads.within_u32, Reads.within_pure, and_true]
      omega
    · exact hskip
  case h_2 =>
    split_ifs with hlength
    · refine ⟨?_, h.cpus, FixedTable.count_push_le h.ioapics _, h.isos⟩
      simp only [Reads.within_bind, Reads.within_u8, Reads.within_u32, Reads.within_pure, and_true]
      omega
    · exact hskip
  case h_3 =>
    split_ifs with hlength
    · refine ⟨?_, h.cpus, h.ioapics, FixedTable.count_push_le h.isos _⟩
      simp only [Reads.within_bind, Reads.within_u8, Reads.within_u16, Reads.within_u32,
        Reads.within_pure, and_true]
      omega
    · exact hskip
  case h_4 =>
    split_ifs with hlength
    · refine ⟨?_, h.cpus, h.ioapics, h.isos⟩
      simp only [Reads.within_bind, Reads.within_u64, Reads.within_pure, and_true]
      omega
    · exact hskip
  case h_5 =>
    split_ifs with hlength
    · refine ⟨?_, h.pushCpu _ _ _ _⟩
      simp only [Reads.within_bind, Reads.within_u32, Reads.within_pure, and_true]
      omega
    · exact hskip
  case h_6 => exact hskip

/-- The walk stays inside the table and keeps every count within its array. -/
theorem walk_sound (m : Memory) (entriesEnd cursor : ℕ) (h : data.Bounded) :
    (walk m entriesEnd cursor data).Within cursor entriesEnd ∧
      (walk m entriesEnd cursor data).value.Bounded := by
  induction hleft : entriesEnd - cursor using Nat.strong_induction_on generalizing cursor data with
  | _ left ih =>
    by_cases hcursor : cursor + 2 ≤ entriesEnd
    · by_cases hstop : (m (cursor + 1)).toNat < 2 ∨ entriesEnd < cursor + (m (cursor + 1)).toNat
      · rw [walk_of_stop hcursor hstop]
        refine ⟨?_, h⟩
        simp only [Reads.within_bind, Reads.within_u8, Reads.within_pure, and_true]
        omega
      · obtain ⟨hwithin, hbounded⟩ := decodeEntry_sound (m := m) h cursor (m cursor).toNat
          (m (cursor + 1)).toNat
        obtain ⟨hrest, hfinal⟩ :=
          ih _ (by omega) (cursor + (m (cursor + 1)).toNat) hbounded rfl
        rw [walk_of_entry hcursor hstop]
        refine ⟨?_, hfinal⟩
        simp only [Reads.within_bind, Reads.within_u8]
        exact ⟨by omega, by omega, hwithin.mono le_rfl (by omega),
          hrest.mono (Nat.le_add_right _ _) le_rfl⟩
    · rw [walk_of_end hcursor]
      exact ⟨Reads.within_pure data, h⟩

end Soundness

/-- The specified part of an entry after its type and length. -/
inductive Body where
  | localApic (acpiProcessorId apicId : BitVec 8) (flags : BitVec 32)
  | ioApic (id reserved : BitVec 8) (address gsiBase : BitVec 32)
  | sourceOverride (bus sourceIrq : BitVec 8) (gsi : BitVec 32) (flags : BitVec 16)
  | addressOverride (reserved : BitVec 16) (address : BitVec 64)
  | localX2apic (reserved : BitVec 16) (x2apicId flags acpiUid : BitVec 32)
  | other (entryType : BitVec 8) (unknown : entryType ∉ [0#8, 1#8, 2#8, 5#8, 9#8])

namespace Body

def entryType : Body → BitVec 8
  | localApic .. => 0#8
  | ioApic .. => 1#8
  | sourceOverride .. => 2#8
  | addressOverride .. => 5#8
  | localX2apic .. => 9#8
  | other entryType _ => entryType

def bytes : Body → List (BitVec 8)
  | localApic acpiProcessorId apicId flags => [acpiProcessorId, apicId] ++ le32 flags
  | ioApic id reserved address gsiBase => [id, reserved] ++ (le32 address ++ le32 gsiBase)
  | sourceOverride bus sourceIrq gsi flags => [bus, sourceIrq] ++ (le32 gsi ++ le16 flags)
  | addressOverride reserved address => le16 reserved ++ le64 address
  | localX2apic reserved x2apicId flags acpiUid =>
    le16 reserved ++ (le32 x2apicId ++ (le32 flags ++ le32 acpiUid))
  | other .. => []

/-- The CPU that an entry describes, if it is enabled or can be brought online. -/
def usableCpu (acpiProcessorId : BitVec 8) (apicId flags : BitVec 32) : Option ProcessorLocalApic :=
  let enabled := flags &&& 1#32 != 0#32
  let onlineCapable := flags &&& 2#32 != 0#32
  if enabled || onlineCapable then some ⟨⟨apicId, enabled⟩, acpiProcessorId, onlineCapable⟩ else none

def cpu? : Body → Option ProcessorLocalApic
  | localApic acpiProcessorId apicId flags => usableCpu acpiProcessorId (apicId.setWidth 32) flags
  | localX2apic _ x2apicId flags acpiUid => usableCpu (acpiUid.setWidth 8) x2apicId flags
  | _ => none

def ioapic? : Body → Option IoApicInfo
  | ioApic id _ address gsiBase => some ⟨id, address, gsiBase⟩
  | _ => none

def iso? : Body → Option InterruptSourceOverride
  | sourceOverride bus sourceIrq gsi flags =>
    some ⟨bus, sourceIrq, gsi, (decodeMpsFlags flags).1, (decodeMpsFlags flags).2⟩
  | _ => none

def address? : Body → Option (BitVec 64)
  | addressOverride _ address => some address
  | _ => none

end Body

/-- A well-formed entry: the specified part, and whatever its length covers beyond it. -/
structure Entry where
  body : Body
  extra : List (BitVec 8)
  fits : 2 + body.bytes.length + extra.length < 256

namespace Entry

def length (e : Entry) : ℕ := 2 + e.body.bytes.length + e.extra.length

def bytes (e : Entry) : List (BitVec 8) :=
  e.body.entryType :: BitVec.ofNat 8 e.length :: (e.body.bytes ++ e.extra)

end Entry

/-- What a list of entries leaves behind: each table gets its own entries in order, as far as it
reaches, and the last address override wins. -/
structure Recovered (before after : MadtData) (entries : List Entry) : Prop where
  found : after.found = before.found
  legacyPicPresent : after.legacyPicPresent = before.legacyPicPresent
  localApicAddress : after.localApicAddress =
    ((entries.filterMap fun e => e.body.address?).getLast?).getD before.localApicAddress
  cpus : after.cpus.stored =
    (before.cpus.stored ++ entries.filterMap fun e => e.body.cpu?).take maxCpus
  ioapics : after.ioapics.stored =
    (before.ioapics.stored ++ entries.filterMap fun e => e.body.ioapic?).take maxIoapics
  isos : after.isos.stored =
    (before.isos.stored ++ entries.filterMap fun e => e.body.iso?).take maxIsos

section RoundTrip
variable {m : Memory} {data : MadtData}

theorem Entry.length_bytes (e : Entry) : e.bytes.length = e.length := by
  rw [Entry.bytes, Entry.length, List.length_cons, List.length_cons, List.length_append]
  omega

theorem Recovered.nil (h : data.Bounded) : Recovered data data [] where
  found := rfl
  legacyPicPresent := rfl
  localApicAddress := rfl
  cpus := by simp [FixedTable.take_stored h.cpus]
  ioapics := by simp [FixedTable.take_stored h.ioapics]
  isos := by simp [FixedTable.take_stored h.isos]

theorem Recovered.append {data₁ data₂ : MadtData} {xs ys : List Entry} (h : Recovered data data₁ xs)
    (h' : Recovered data₁ data₂ ys) : Recovered data data₂ (xs ++ ys) where
  found := h'.found.trans h.found
  legacyPicPresent := h'.legacyPicPresent.trans h.legacyPicPresent
  localApicAddress := by
    rw [h'.localApicAddress, h.localApicAddress, List.filterMap_append, List.getLast?_append,
      Option.getD_or]
  cpus := by
    rw [h'.cpus, h.cpus, take_take_append, List.filterMap_append, List.append_assoc]
  ioapics := by
    rw [h'.ioapics, h.ioapics, take_take_append, List.filterMap_append, List.append_assoc]
  isos := by
    rw [h'.isos, h.isos, take_take_append, List.filterMap_append, List.append_assoc]

theorem Recovered.single {after : MadtData} {e : Entry} (hfound : after.found = data.found)
    (hpic : after.legacyPicPresent = data.legacyPicPresent)
    (haddress : after.localApicAddress = e.body.address?.getD data.localApicAddress)
    (hcpus : after.cpus.stored = (data.cpus.stored ++ e.body.cpu?.toList).take maxCpus)
    (hioapics : after.ioapics.stored =
      (data.ioapics.stored ++ e.body.ioapic?.toList).take maxIoapics)
    (hisos : after.isos.stored = (data.isos.stored ++ e.body.iso?.toList).take maxIsos) :
    Recovered data after [e] := by
  have hsingle : ∀ {α : Type} (f : Entry → Option α), [e].filterMap f = (f e).toList := by
    intro α f
    cases hf : f e <;> simp [hf]
  refine ⟨hfound, hpic, ?_, ?_, ?_, ?_⟩
  · rw [hsingle, haddress]
    cases e.body.address? <;> rfl
  · rw [hsingle, hcpus]
  · rw [hsingle, hioapics]
  · rw [hsingle, hisos]

theorem pushCpu_stored (h : data.Bounded) (acpiProcessorId : BitVec 8) (apicId flags : BitVec 32) :
    (data.pushCpu acpiProcessorId apicId (flags &&& 1#32 != 0#32)
        (flags &&& 2#32 != 0#32)).cpus.stored =
      (data.cpus.stored ++ (Body.usableCpu acpiProcessorId apicId flags).toList).take maxCpus := by
  unfold MadtData.pushCpu Body.usableCpu
  cases flags &&& 1#32 != 0#32 <;> cases flags &&& 2#32 != 0#32
  · simp [FixedTable.take_stored h.cpus]
  · simp [FixedTable.stored_push h.cpus]
  · simp [FixedTable.stored_push h.cpus]
  · simp [FixedTable.stored_push h.cpus]

theorem pushCpu_frame (data : MadtData) (acpiProcessorId : BitVec 8) (apicId : BitVec 32)
    (enabled onlineCapable : Bool) :
    ∃ cpus, data.pushCpu acpiProcessorId apicId enabled onlineCapable = { data with cpus } := by
  unfold MadtData.pushCpu
  split_ifs
  · exact ⟨data.cpus, rfl⟩
  · exact ⟨_, rfl⟩

/-- What the `match` of `parse` does with the fields of an entry once it has read them. -/
def Body.store : Body → MadtData → MadtData
  | localApic acpiProcessorId apicId flags, data =>
    data.pushCpu acpiProcessorId (apicId.setWidth 32) (flags &&& 1#32 != 0#32)
      (flags &&& 2#32 != 0#32)
  | ioApic id _ address gsiBase, data =>
    { data with ioapics := data.ioapics.push ⟨id, address, gsiBase⟩ }
  | sourceOverride bus sourceIrq gsi flags, data =>
    let (polarity, trigger) := decodeMpsFlags flags
    { data with isos := data.isos.push ⟨bus, sourceIrq, gsi, polarity, trigger⟩ }
  | addressOverride _ address, data => { data with localApicAddress := address }
  | localX2apic _ x2apicId flags acpiUid, data =>
    data.pushCpu (acpiUid.setWidth 8) x2apicId (flags &&& 1#32 != 0#32) (flags &&& 2#32 != 0#32)
  | other .., data => data

theorem decodeEntry_value (body : Body) {cursor length : ℕ} (hbody : m.Holds (cursor + 2) body.bytes)
    (hlength : 2 + body.bytes.length ≤ length) :
    (decodeEntry m cursor body.entryType.toNat length data).value = body.store data := by
  cases body with
  | localApic acpiProcessorId apicId flags =>
    obtain ⟨⟨hid, hapic, -⟩, hflags⟩ := Memory.holds_append.mp hbody
    have hflags' : m.load32 (cursor + 4) = flags := hflags.load32_eq
    have hlong : 8 ≤ length := hlength
    change (decodeEntry m cursor 0 length data).value = _
    rw [Body.store, ← hid, ← hapic, ← hflags', decodeEntry, if_pos hlong]
    rfl
  | ioApic id reserved address gsiBase =>
    obtain ⟨⟨hid, -⟩, hrest⟩ := Memory.holds_append.mp hbody
    obtain ⟨haddress, hgsi⟩ := Memory.holds_append.mp hrest
    have haddress' : m.load32 (cursor + 4) = address := haddress.load32_eq
    have hgsi' : m.load32 (cursor + 8) = gsiBase := hgsi.load32_eq
    have hlong : 12 ≤ length := hlength
    change (decodeEntry m cursor 1 length data).value = _
    rw [Body.store, ← hid, ← haddress', ← hgsi', decodeEntry, if_pos hlong]
    rfl
  | sourceOverride bus sourceIrq gsi flags =>
    obtain ⟨⟨hbus, hirq, -⟩, hrest⟩ := Memory.holds_append.mp hbody
    obtain ⟨hgsi, hflags⟩ := Memory.holds_append.mp hrest
    have hgsi' : m.load32 (cursor + 4) = gsi := hgsi.load32_eq
    have hflags' : m.load16 (cursor + 8) = flags := hflags.load16_eq
    have hlong : 10 ≤ length := hlength
    change (decodeEntry m cursor 2 length data).value = _
    rw [Body.store, ← hbus, ← hirq, ← hgsi', ← hflags', decodeEntry, if_pos hlong]
    rfl
  | addressOverride reserved address =>
    obtain ⟨-, haddress⟩ := Memory.holds_append.mp hbody
    have haddress' : m.load64 (cursor + 4) = address := haddress.load64_eq
    have hlong : 12 ≤ length := hlength
    change (decodeEntry m cursor 5 length data).value = _
    rw [Body.store, ← haddress', decodeEntry, if_pos hlong]
    rfl
  | localX2apic reserved x2apicId flags acpiUid =>
    obtain ⟨-, hrest⟩ := Memory.holds_append.mp hbody
    obtain ⟨hid, hrest⟩ := Memory.holds_append.mp hrest
    obtain ⟨hflags, huid⟩ := Memory.holds_append.mp hrest
    have hid' : m.load32 (cursor + 4) = x2apicId := hid.load32_eq
    have hflags' : m.load32 (cursor + 8) = flags := hflags.load32_eq
    have huid' : m.load32 (cursor + 12) = acpiUid := huid.load32_eq
    have hlong : 16 ≤ length := hlength
    change (decodeEntry m cursor 9 length data).value = _
    rw [Body.store, ← hid', ← hflags', ← huid', decodeEntry, if_pos hlong]
    rfl
  | other entryType unknown =>
    have htype : ∀ k ∈ [0#8, 1#8, 2#8, 5#8, 9#8], entryType.toNat ≠ k.toNat := by
      intro k hk heq
      exact unknown (BitVec.eq_of_toNat_eq heq ▸ hk)
    change (decodeEntry m cursor entryType.toNat length data).value = data
    unfold decodeEntry
    split
    case h_1 heq => exact absurd heq (htype 0#8 (by decide))
    case h_2 heq => exact absurd heq (htype 1#8 (by decide))
    case h_3 heq => exact absurd heq (htype 2#8 (by decide))
    case h_4 heq => exact absurd heq (htype 5#8 (by decide))
    case h_5 heq => exact absurd heq (htype 9#8 (by decide))
    case h_6 => rfl

theorem store_recovered (h : data.Bounded) (e : Entry) : Recovered data (e.body.store data) [e] := by
  have hcpus := FixedTable.take_stored h.cpus
  have hioapics := FixedTable.take_stored h.ioapics
  have hisos := FixedTable.take_stored h.isos
  obtain ⟨body, extra, fits⟩ := e
  cases body with
  | localApic acpiProcessorId apicId flags =>
    have hstored := pushCpu_stored h acpiProcessorId (apicId.setWidth 32) flags
    obtain ⟨cpus, hpush⟩ := pushCpu_frame data acpiProcessorId (apicId.setWidth 32)
      (flags &&& 1#32 != 0#32) (flags &&& 2#32 != 0#32)
    rw [hpush] at hstored
    rw [Body.store, hpush]
    exact .single rfl rfl rfl hstored (by simp [Body.ioapic?, hioapics]) (by simp [Body.iso?, hisos])
  | ioApic id reserved address gsiBase =>
    refine .single rfl rfl rfl ?_ ?_ ?_
    · simp [Body.store, Body.cpu?, hcpus]
    · simp [Body.store, Body.ioapic?, FixedTable.stored_push h.ioapics]
    · simp [Body.store, Body.iso?, hisos]
  | sourceOverride bus sourceIrq gsi flags =>
    refine .single rfl rfl rfl ?_ ?_ ?_
    · simp [Body.store, Body.cpu?, hcpus]
    · simp [Body.store, Body.ioapic?, hioapics]
    · simp [Body.store, Body.iso?, FixedTable.stored_push h.isos]
  | addressOverride reserved address =>
    refine .single rfl rfl rfl ?_ ?_ ?_
    · simp [Body.store, Body.cpu?, hcpus]
    · simp [Body.store, Body.ioapic?, hioapics]
    · simp [Body.store, Body.iso?, hisos]
  | localX2apic reserved x2apicId flags acpiUid =>
    have hstored := pushCpu_stored h (acpiUid.setWidth 8) x2apicId flags
    obtain ⟨cpus, hpush⟩ := pushCpu_frame data (acpiUid.setWidth 8) x2apicId
      (flags &&& 1#32 != 0#32) (flags &&& 2#32 != 0#32)
    rw [hpush] at hstored
    rw [Body.store, hpush]
    exact .single rfl rfl rfl hstored (by simp [Body.ioapic?, hioapics]) (by simp [Body.iso?, hisos])
  | other entryType unknown =>
    refine .single rfl rfl rfl ?_ ?_ ?_
    · simp [Body.store, Body.cpu?, hcpus]
    · simp [Body.store, Body.ioapic?, hioapics]
    · simp [Body.store, Body.iso?, hisos]

theorem decodeEntry_recovers (h : data.Bounded) (e : Entry) {cursor : ℕ}
    (hbytes : m.Holds cursor e.bytes) :
    Recovered data (decodeEntry m cursor e.body.entryType.toNat e.length data).value [e] := by
  have hbody : m.Holds (cursor + 2) e.body.bytes := by
    obtain ⟨-, -, hrest⟩ := hbytes
    exact (Memory.holds_append.mp hrest).1
  have hlength : 2 + e.body.bytes.length ≤ e.length := Nat.le_add_right _ _
  rw [decodeEntry_value e.body hbody hlength]
  exact store_recovered h e

theorem walk_recovers (entries : List Entry) {cursor : ℕ} (h : data.Bounded)
    (hbytes : m.Holds cursor (entries.flatMap Entry.bytes)) :
    Recovered data (walk m (cursor + (entries.flatMap Entry.bytes).length) cursor data).value
      entries := by
  induction entries generalizing cursor data with
  | nil =>
    rw [walk_of_end (by simp)]
    exact Recovered.nil h
  | cons e entries ih =>
    rw [List.flatMap_cons] at hbytes ⊢
    obtain ⟨hentry, hrest⟩ := Memory.holds_append.mp hbytes
    have hend : cursor + (e.bytes ++ entries.flatMap Entry.bytes).length =
        cursor + e.length + (entries.flatMap Entry.bytes).length := by
      rw [List.length_append, e.length_bytes, Nat.add_assoc]
    have hlength : 2 ≤ e.length := by
      unfold Entry.length
      omega
    have htype : m cursor = e.body.entryType := hentry.1
    have hbyte : (m (cursor + 1)).toNat = e.length := by
      rw [hentry.2.1, BitVec.toNat_ofNat]
      exact Nat.mod_eq_of_lt e.fits
    have hstep := decodeEntry_recovers h e hentry
    have hbounded := (decodeEntry_sound (m := m) h cursor e.body.entryType.toNat e.length).2
    rw [e.length_bytes] at hrest
    rw [hend, walk_of_entry (by omega) (by omega), htype, hbyte]
    exact hstep.append (ih hbounded hrest)

theorem MadtData.bounded_empty : MadtData.empty.Bounded :=
  ⟨Nat.zero_le _, Nat.zero_le _, Nat.zero_le _⟩

/-- From a table of well-formed entries `parse` recovers the first CPUs, I/O APICs and overrides in
table order. Whatever the table holds, it is read within its bounds and no array overflows. -/
theorem parse_recovers (m : Memory) (table length : ℕ) :
    (∀ entries : List Entry, m.Holds (table + headerSize) (entries.flatMap Entry.bytes) →
      length = headerSize + (entries.flatMap Entry.bytes).length →
      ∃ data, (parse m table length).value = some data ∧ data.found = true ∧
        data.legacyPicPresent = (m.load32 (table + 40) &&& 1#32 != 0#32) ∧
        data.localApicAddress = ((entries.filterMap fun e => e.body.address?).getLast?).getD
          ((m.load32 (table + 36)).setWidth 64) ∧
        data.cpus.stored = (entries.filterMap fun e => e.body.cpu?).take maxCpus ∧
        data.ioapics.stored = (entries.filterMap fun e => e.body.ioapic?).take maxIoapics ∧
        data.isos.stored = (entries.filterMap fun e => e.body.iso?).take maxIsos) ∧
    (parse m table length).Within table (table + length) ∧
    ∀ data, (parse m table length).value = some data → data.Bounded := by
  have hempty : ∀ found address pic, { MadtData.empty with
      found := found
      localApicAddress := address
      legacyPicPresent := pic : MadtData }.Bounded :=
    fun _ _ _ => ⟨MadtData.bounded_empty.cpus, MadtData.bounded_empty.ioapics,
      MadtData.bounded_empty.isos⟩
  by_cases hshort : length < headerSize
  · have hparse : parse m table length = pure none := if_pos hshort
    rw [hparse]
    refine ⟨fun entries _ hlength => by omega, Reads.within_pure none, fun data hdata => ?_⟩
    simp at hdata
  · have hstart := hempty true ((m.load32 (table + 36)).setWidth 64)
      (m.load32 (table + 40) &&& 1#32 != 0#32)
    have hsound := walk_sound m (table + length) (table + headerSize) hstart
    rw [parse, if_neg hshort]
    refine ⟨fun entries hbytes hlength => ?_, ?_, fun data hdata => ?_⟩
    · have hwalk := walk_recovers entries hstart hbytes
      have hend : table + headerSize + (entries.flatMap Entry.bytes).length = table + length := by
        omega
      rw [hend] at hwalk
      refine ⟨_, rfl, hwalk.found, hwalk.legacyPicPresent, hwalk.localApicAddress, ?_, ?_, ?_⟩
      · exact hwalk.cpus
      · exact hwalk.ioapics
      · exact hwalk.isos
    · have hheader : headerSize = 44 := rfl
      simp only [Reads.within_bind, Reads.within_u32, Reads.within_pure, and_true]
      refine ⟨by omega, by omega, ?_⟩
      exact hsound.1.mono (Nat.le_add_right _ _) le_rfl
    · obtain rfl := Option.some.inj hdata
      exact hsound.2

/-- Two CPUs, one of them in the long form, and between them an entry of an unknown type. -/
def mixedEntries : List Entry :=
  [⟨.localApic 0 3 1, [], by decide⟩, ⟨.other 0x42 (by decide), [7, 7], by decide⟩,
    ⟨.localX2apic 0 0x105 2 1, [], by decide⟩]

def mixedMadt : Memory := fun a =>
  (List.replicate headerSize 0 ++ mixedEntries.flatMap Entry.bytes).getD (a - 0x1000) 0

theorem parse_recovers_mixed : ∃ data, (parse mixedMadt 0x1000 72).value = some data ∧
    data.cpus.stored = [⟨⟨3, true⟩, 0, false⟩, ⟨⟨0x105, false⟩, 1, true⟩] := by
  have hbytes : mixedMadt.Holds (0x1000 + headerSize) (mixedEntries.flatMap Entry.bytes) :=
    Memory.holds_of_bytes (by decide)
  obtain ⟨data, hparse, -, -, -, hcpus, -⟩ :=
    (parse_recovers mixedMadt 0x1000 72).1 mixedEntries hbytes (by decide)
  exact ⟨data, hparse, hcpus⟩

theorem parse_of_header {table length : ℕ} (h : headerSize ≤ length) :
    parse m table length = (do
      let _ ← Reads.u32 m (table + 36)
      let _ ← Reads.u32 m (table + 40)
      let data ← walk m (table + length) (table + headerSize) { MadtData.empty with
        found := true
        localApicAddress := (m.load32 (table + 36)).setWidth 64
        legacyPicPresent := m.load32 (table + 40) &&& 1#32 != 0#32 }
      pure (some data)) := if_neg (Nat.not_lt_of_le h)

theorem MadtData.bounded_start (found pic : Bool) (address : BitVec 64) :
    { MadtData.empty with
      found := found
      localApicAddress := address
      legacyPicPresent := pic : MadtData }.Bounded :=
  ⟨bounded_empty.cpus, bounded_empty.ioapics, bounded_empty.isos⟩

theorem within_parse (m : Memory) (table length : ℕ) :
    (parse m table length).Within table (table + length) := by
  by_cases hshort : length < headerSize
  · rw [parse, if_pos hshort]
    exact Reads.within_pure none
  · have hheader : headerSize = 44 := rfl
    have hwalk := (walk_sound m (table + length) (table + headerSize)
      (MadtData.bounded_start true (m.load32 (table + 40) &&& 1#32 != 0#32)
        ((m.load32 (table + 36)).setWidth 64))).1
    rw [parse_of_header (Nat.le_of_not_lt hshort)]
    simp only [Reads.within_bind, Reads.within_u32, Reads.within_pure, and_true]
    exact ⟨by omega, by omega, hwalk.mono (Nat.le_add_right _ _) le_rfl⟩

theorem bounded_parse {table length : ℕ} (h : (parse m table length).value = some data) :
    data.Bounded := by
  by_cases hshort : length < headerSize
  · rw [parse, if_pos hshort] at h
    exact absurd h (Option.some_ne_none data).symm
  · rw [parse_of_header (Nat.le_of_not_lt hshort)] at h
    obtain rfl := Option.some.inj h
    exact (walk_sound m (table + length) (table + headerSize) (MadtData.bounded_start _ _ _)).2

end RoundTrip

end MitosOS.Hal.Madt
