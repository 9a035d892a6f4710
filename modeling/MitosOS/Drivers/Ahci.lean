import MitosOS.Lib.Bits
import MitosOS.Lib.EventSystem
import Mathlib.Data.Fintype.Basic
import Mathlib.Data.List.FinRange
import Mathlib.Logic.Function.Basic

/-! The AHCI driver: commands, their tables, `issue_command` one access at a time, and the
interrupt handler. -/
namespace MitosOS.Drivers
open Lib

abbrev Port := Fin 32

abbrev CommandSlot := Fin 32

instance portCount_neZero : NeZero 32 := ⟨by decide⟩

inductive AhciError where
  | notAnAhciController
  | portNotPresent
  | deviceNotAta
  | engineStopTimeout
  | engineStartTimeout
  | fisReceiveStopTimeout
  | noFreeCommandSlot
  | commandTimeout
  | taskFileError (status error : BitVec 8)
  | bufferNotSectorAligned
  | bufferTooLargeForOneCommand
  | dmaAllocationFailed
  | addressTranslationFailed
  | requires64BitDma
  deriving DecidableEq, Repr

def ataStsErr : ℕ := 0
def ataStsDrq : ℕ := 3
def ataStsBsy : ℕ := 7

def prdtEntries : ℕ := 9
def maxTransferBytes : ℕ := (prdtEntries - 1) * 4096

structure Buffer where
  addr : ℕ
  len : ℕ
  deriving DecidableEq, Repr

structure HbaPrdtEntry where
  dba : BitVec 32
  dbau : BitVec 32
  dbc : BitVec 32
  deriving DecidableEq, Repr

/-- The bytes of a register FIS that the driver fills in; all others are zero. -/
structure FisRegH2D where
  fisType : BitVec 8
  pmPortC : BitVec 8
  command : BitVec 8
  device : BitVec 8
  lba0 : BitVec 8
  lba1 : BitVec 8
  lba2 : BitVec 8
  lba3 : BitVec 8
  lba4 : BitVec 8
  lba5 : BitVec 8
  countl : BitVec 8
  counth : BitVec 8
  deriving DecidableEq, Repr

structure Request where
  command : BitVec 8
  lba : BitVec 64
  sectorCount : BitVec 16
  write : Bool
  buf : Buffer
  deriving DecidableEq, Repr

/-- What the driver leaves in memory for the device: the header word, the FIS and the PRDT. -/
structure CommandTable where
  dw0 : BitVec 32
  cfis : FisRegH2D
  prdt : List HbaPrdtEntry
  deriving DecidableEq, Repr

/-- One PRDT entry; the byte count is stored less one, with the interrupt bit set. -/
def prdtEntry (phys chunk : ℕ) : HbaPrdtEntry where
  dba := BitVec.ofNat 32 phys
  dbau := BitVec.ofNat 32 (phys / 2 ^ 32)
  dbc := (BitVec.ofNat 32 (chunk - 1) &&& 0x003FFFFF#32) ||| 1#32 <<< 31

/-- The loop of `build_prdt`, with the number of entries still unused. -/
def buildPrdtFrom (virtToPhys : ℕ → Option ℕ) (buf : Buffer) :
    ℕ → ℕ → Except AhciError (List HbaPrdtEntry)
  | 0, offset =>
    if offset < buf.len then .error .bufferTooLargeForOneCommand else .ok []
  | n + 1, offset =>
    if offset < buf.len then
      let virt := wrap64 (buf.addr + offset)
      let chunk := min (4096 - virt % 4096) (buf.len - offset)
      match virtToPhys virt with
      | none => .error .addressTranslationFailed
      | some phys =>
        match buildPrdtFrom virtToPhys buf n (offset + chunk) with
        | .error e => .error e
        | .ok rest => .ok (prdtEntry phys chunk :: rest)
    else .ok []

def buildPrdt (virtToPhys : ℕ → Option ℕ) (buf : Buffer) :
    Except AhciError (List HbaPrdtEntry) :=
  if buf.len = 0 then .ok []
  else if maxTransferBytes < buf.len then .error .bufferTooLargeForOneCommand
  else buildPrdtFrom virtToPhys buf prdtEntries 0

/-- Byte `i` of a word, as `(word >> (8 * i)) as u8`. -/
def byteOf {w : ℕ} (word : BitVec w) (i : ℕ) : BitVec 8 := word.extractLsb' (8 * i) 8

def commandTable (r : Request) (prdt : List HbaPrdtEntry) : CommandTable where
  dw0 := 5#32 ||| (if r.write then 1#32 <<< 6 else 0#32) ||| BitVec.ofNat 32 prdt.length <<< 16
  cfis :=
    { fisType := 0x27#8
      pmPortC := 1#8 <<< 7
      command := r.command
      device := 1#8 <<< 6
      lba0 := byteOf r.lba 0
      lba1 := byteOf r.lba 1
      lba2 := byteOf r.lba 2
      lba3 := byteOf r.lba 3
      lba4 := byteOf r.lba 4
      lba5 := byteOf r.lba 5
      countl := byteOf r.sectorCount 0
      counth := byteOf r.sectorCount 1 }
  prdt := prdt

def findFreeSlot (numSlots : ℕ) (busy : BitVec 32) : Option CommandSlot :=
  (List.finRange 32).find? fun slot => decide (slot.val < numSlots) && !busy.getLsbD slot

/-- Where a call of `issue_command` stands: the shared access it makes next. -/
inductive Call where
  | idle
  | waiting (r : Request) (waited : ℕ)
  | readingSact (r : Request)
  | readingCi (r : Request) (sact : BitVec 32)
  | clearing (r : Request) (slot : CommandSlot)
  | marking (r : Request) (slot : CommandSlot)
  | building (r : Request) (slot : CommandSlot)
  | issuing (slot : CommandSlot)
  | polling (slot : CommandSlot) (timeout : ℕ)
  | checking (slot : CommandSlot) (timeout : ℕ)
  | completing (slot : CommandSlot)
  | releasing (slot : CommandSlot)
  | expiring (slot : CommandSlot)
  | finishing (slot : CommandSlot)
  | returned (slot : Option CommandSlot) (result : Except AhciError Unit)
  deriving DecidableEq

def Call.isOver : Call → Bool
  | .idle | .returned _ _ => true
  | _ => false

/-- The registers, the driver's globals, one call for each port, and the handler: the ports it
found active and the index of its loop. `cleared` is history: the hardware has cleared the bit of
`PORT_CI` since it was last written. -/
structure Ahci where
  baseVirt : ℕ
  numSlots : ℕ
  ci : Port → BitVec 32
  sact : Port → BitVec 32
  tfd : Port → BitVec 32
  tables : Port → CommandSlot → Option CommandTable
  slotCompletion : CommandSlot → Bool
  pendingSlots : BitVec 32
  calls : Port → Call
  handler : Option (BitVec 32 × ℕ)
  cleared : Port → CommandSlot → Bool

namespace Ahci

def goto (s : Ahci) (p : Port) (c : Call) : Ahci := { s with calls := Function.update s.calls p c }

def setCompletion (s : Ahci) (slot : CommandSlot) (done : Bool) : Ahci :=
  { s with slotCompletion := Function.update s.slotCompletion slot done }

def setPending (s : Ahci) (slot : CommandSlot) : Ahci :=
  { s with pendingSlots := s.pendingSlots ||| 1#32 <<< slot.val }

def clearPending (s : Ahci) (slot : CommandSlot) : Ahci :=
  { s with pendingSlots := s.pendingSlots &&& ~~~(1#32 <<< slot.val) }

def writeTable (s : Ahci) (p : Port) (slot : CommandSlot) (t : CommandTable) : Ahci :=
  { s with tables := Function.update s.tables p (Function.update (s.tables p) slot (some t)) }

/-- Writing a one to `PORT_CI` sets that bit and leaves the others. -/
def writeCi (s : Ahci) (p : Port) (slot : CommandSlot) : Ahci :=
  { s with
    ci := Function.update s.ci p (s.ci p ||| 1#32 <<< slot.val)
    cleared := Function.update s.cleared p (Function.update (s.cleared p) slot false) }

def advance (virtToPhys : ℕ → Option ℕ) (s : Ahci) (p : Port) : Ahci :=
  match s.calls p with
  | .idle => s
  | .returned _ _ => s
  | .waiting r waited =>
    if (s.tfd p).getLsbD ataStsBsy || (s.tfd p).getLsbD ataStsDrq then
      if 500000 ≤ waited then s.goto p (.returned none (.error .commandTimeout))
      else s.goto p (.waiting r (waited + 1000))
    else s.goto p (.readingSact r)
  | .readingSact r => s.goto p (.readingCi r (s.sact p))
  | .readingCi r sact =>
    match findFreeSlot s.numSlots (sact ||| s.ci p) with
    | none => s.goto p (.returned none (.error .noFreeCommandSlot))
    | some slot => s.goto p (.clearing r slot)
  | .clearing r slot => (s.setCompletion slot false).goto p (.marking r slot)
  | .marking r slot => (s.setPending slot).goto p (.building r slot)
  | .building r slot =>
    match buildPrdt virtToPhys r.buf with
    | .error e => s.goto p (.returned (some slot) (.error e))
    | .ok prdt => (s.writeTable p slot (commandTable r prdt)).goto p (.issuing slot)
  | .issuing slot => (s.writeCi p slot).goto p (.polling slot 2000000)
  | .polling slot timeout =>
    if s.slotCompletion slot then s.goto p (.finishing slot) else s.goto p (.checking slot timeout)
  | .checking slot timeout =>
    if (s.ci p).getLsbD slot then
      if timeout ≤ 10 then s.goto p (.expiring slot) else s.goto p (.polling slot (timeout - 10))
    else s.goto p (.completing slot)
  | .completing slot => (s.setCompletion slot true).goto p (.releasing slot)
  | .releasing slot => (s.clearPending slot).goto p (.finishing slot)
  | .expiring slot =>
    (s.clearPending slot).goto p (.returned (some slot) (.error .commandTimeout))
  | .finishing slot =>
    if (s.tfd p).getLsbD ataStsErr then
      s.goto p (.returned (some slot)
        (.error (.taskFileError (byteOf (s.tfd p) 0) (byteOf (s.tfd p) 1))))
    else s.goto p (.returned (some slot) (.ok ()))

theorem advance_of_isOver {virtToPhys : ℕ → Option ℕ} {s : Ahci} {p : Port}
    (h : (s.calls p).isOver = true) : s.advance virtToPhys p = s := by
  unfold Ahci.advance
  cases hcall : s.calls p with
  | idle => rfl
  | returned slot result => rfl
  | _ => simp [hcall, Call.isOver] at h

/-- The handler's work for one active port: what is pending in software and no longer in this
port's `PORT_CI` counts as completed. -/
def collect (s : Ahci) (p : Port) : Ahci :=
  let completed := s.pendingSlots &&& ~~~s.ci p
  if completed ≠ 0 then
    { s with
      pendingSlots := s.pendingSlots &&& ~~~completed
      slotCompletion := fun slot => completed.getLsbD slot || s.slotCompletion slot }
  else s

/-- One round of the handler's loop over the ports, or its end. -/
def handle (s : Ahci) : Ahci :=
  match s.handler with
  | none => s
  | some (active, port) =>
    if h : port < 32 then
      { (if active.getLsbD port then s.collect ⟨port, h⟩ else s) with
        handler := some (active, port + 1) }
    else { s with handler := none }

/-- `ahci_irq_handler` is entered and reads `active` from `HBA_IS`. -/
def interrupt (s : Ahci) (active : BitVec 32) : Ahci :=
  if s.baseVirt = 0 then s
  else if active ≠ 0 then { s with handler := some (active, 0) }
  else s

def complete (s : Ahci) (p : Port) (slot : CommandSlot) : Ahci :=
  { s with
    ci := Function.update s.ci p (s.ci p &&& ~~~(1#32 <<< slot.val))
    cleared := Function.update s.cleared p (Function.update (s.cleared p) slot true) }

end Ahci

inductive AhciEvent where
  | call (p : Port) (r : Request)
  | advance (p : Port)
  | interrupt (active : BitVec 32)
  | handle
  | complete (p : Port) (slot : CommandSlot)
  | setTfd (p : Port) (value : BitVec 32)
  | setSact (p : Port) (value : BitVec 32)

/-- The handler runs to its end before the code it interrupted goes on; the device runs freely and
completes only what is in `PORT_CI`. A port takes one call at a time. -/
def AhciEvent.Enabled (s : Ahci) : AhciEvent → Prop
  | .call p _ => s.handler = none ∧ (s.calls p).isOver
  | .advance _ => s.handler = none
  | .interrupt _ => s.handler = none
  | .handle => s.handler ≠ none
  | .complete p slot => (s.ci p).getLsbD slot = true
  | .setTfd _ _ => True
  | .setSact _ _ => True

instance (s : Ahci) : (e : AhciEvent) → Decidable (e.Enabled s)
  | .call p _ => inferInstanceAs (Decidable (s.handler = none ∧ (s.calls p).isOver))
  | .advance _ => inferInstanceAs (Decidable (s.handler = none))
  | .interrupt _ => inferInstanceAs (Decidable (s.handler = none))
  | .handle => inferInstanceAs (Decidable (s.handler ≠ none))
  | .complete p slot => inferInstanceAs (Decidable ((s.ci p).getLsbD slot = true))
  | .setTfd _ _ => inferInstanceAs (Decidable True)
  | .setSact _ _ => inferInstanceAs (Decidable True)

/-- The driver with the controller, over a `Hal` that translates addresses by `virtToPhys`. -/
def ahciSystem (virtToPhys : ℕ → Option ℕ) : EventSystem Ahci AhciEvent where
  Enabled s e := e.Enabled s
  next s
    | .call p r => s.goto p (.waiting r 0)
    | .advance p => s.advance virtToPhys p
    | .interrupt active => s.interrupt active
    | .handle => s.handle
    | .complete p slot => s.complete p slot
    | .setTfd p value => { s with tfd := Function.update s.tfd p value }
    | .setSact p value => { s with sact := Function.update s.sact p value }

instance (virtToPhys : ℕ → Option ℕ) (s : Ahci) (e : AhciEvent) :
    Decidable ((ahciSystem virtToPhys).Enabled s e) := inferInstanceAs (Decidable (e.Enabled s))

end MitosOS.Drivers
