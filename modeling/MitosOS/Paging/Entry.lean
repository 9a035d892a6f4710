import MitosOS.Lib.Bits

/-! Page-table entries of the two architectures, and the encoding facts the table walk
relies on. `Format` collects what `vmm::arch` says about one architecture's entries. -/
namespace MitosOS.Paging
open MitosOS.Lib

structure MapFlags where
  writable : Bool
  userAccessible : Bool
  executeDisable : Bool
  device : Bool
  deriving DecidableEq, Repr

inductive MemoryError where
  | frameAllocationFailed
  | alreadyMapped
  | invalidAddress
  deriving DecidableEq, Repr

abbrev Entry := BitVec 64

/-- The flags `next_table` gives a new intermediate table. -/
def tableFlags : MapFlags where
  writable := true
  userAccessible := true
  executeDisable := false
  device := false

namespace X86

def addressMask : Entry := 0x000FFFFFFFFFF000#64

def isPresent (e : Entry) : Bool := e &&& 1#64 != 0#64

def isUserAccessible (e : Entry) : Bool := e &&& 1#64 <<< 2 != 0#64

def isWritable (e : Entry) : Bool := e &&& 1#64 <<< 1 != 0#64

/-- Bit 7 of a PDPT or PD entry: a 1 GiB or 2 MiB leaf. -/
def isHuge (e : Entry) : Bool := e &&& 1#64 <<< 7 != 0#64

def physicalAddress (e : Entry) : ℕ := (e &&& addressMask).toNat

def setFrame (physAddr : ℕ) (flags : MapFlags) : Entry :=
  let raw := BitVec.ofNat 64 physAddr &&& addressMask ||| 1#64
  let raw := if flags.writable then raw ||| 1#64 <<< 1 else raw
  let raw := if flags.userAccessible then raw ||| 1#64 <<< 2 else raw
  if flags.executeDisable then raw ||| 1#64 <<< 63 else raw

def ensureUserAccessible (e : Entry) : Entry := e ||| 1#64 <<< 2

end X86

namespace AArch64

def addressMask : Entry := 0x0000FFFFFFFFF000#64

def isPresent (e : Entry) : Bool := e &&& 1#64 != 0#64

def isUserAccessible (e : Entry) : Bool := e &&& 1#64 <<< 6 != 0#64

/-- AP[2] (bit 7) is the read-only bit. -/
def isWritable (e : Entry) : Bool := e &&& 1#64 <<< 7 == 0#64

/-- A block descriptor, bits 0b01, which only L1 and L2 can hold. -/
def isBlock (e : Entry) : Bool := e &&& 0b11#64 == 0b01#64

def physicalAddress (e : Entry) : ℕ := (e &&& addressMask).toNat

def setFrame (phys : ℕ) (flags : MapFlags) (isTable : Bool) : Entry :=
  let raw := BitVec.ofNat 64 phys &&& addressMask ||| 0b11#64
  let raw := raw ||| 1#64 <<< 10
  let raw := if !flags.writable then raw ||| 1#64 <<< 7 else raw
  let raw := if flags.userAccessible then raw ||| 1#64 <<< 6 else raw
  let raw := if flags.executeDisable then raw ||| (1#64 <<< 53 ||| 1#64 <<< 54) else raw
  if !isTable && flags.device then raw ||| 1#64 <<< 2 else raw

end AArch64

/-- What one architecture's `PageTableEntry` and `next_table` do with an entry. -/
structure Format where
  /-- Width of a physical address. -/
  physBits : ℕ
  addressMask : Entry
  isPresent : Entry → Bool
  isUserAccessible : Entry → Bool
  isWritable : Entry → Bool
  /-- The large-leaf test of `translate_addr`. -/
  isBlock : Entry → Bool
  /-- The leaf entry `map_page` writes. -/
  leaf : ℕ → MapFlags → Entry
  /-- The entry `next_table` writes for a new table. -/
  table : ℕ → Entry
  /-- What `next_table` does to an existing entry on behalf of a user mapping, if anything. -/
  upgrade : Option (Entry → Entry)
  /-- The non-address bits of a leaf. -/
  encodeFlags : MapFlags → Entry

def Format.physicalAddress (F : Format) (e : Entry) : ℕ := (e &&& F.addressMask).toNat

/-- The bits of an entry outside its address field. -/
def Format.attributes (F : Format) (e : Entry) : Entry := e &&& ~~~F.addressMask

/-- An entry as `next_table` leaves it on behalf of a user mapping. -/
def Format.marked (F : Format) (e : Entry) : Entry :=
  match F.upgrade with
  | some up => up e
  | none => e

def x86Format : Format where
  physBits := 52
  addressMask := X86.addressMask
  isPresent := X86.isPresent
  isUserAccessible := X86.isUserAccessible
  isWritable := X86.isWritable
  isBlock := X86.isHuge
  leaf := X86.setFrame
  table frame := X86.setFrame frame tableFlags
  upgrade := some X86.ensureUserAccessible
  encodeFlags flags := X86.setFrame 0 flags

theorem x86Format_isPresent : x86Format.isPresent = X86.isPresent := rfl

theorem x86Format_isBlock : x86Format.isBlock = X86.isHuge := rfl

theorem x86Format_physicalAddress : x86Format.physicalAddress = X86.physicalAddress := rfl

def aarch64Format : Format where
  physBits := 48
  addressMask := AArch64.addressMask
  isPresent := AArch64.isPresent
  isUserAccessible := AArch64.isUserAccessible
  isWritable := AArch64.isWritable
  isBlock := AArch64.isBlock
  leaf phys flags := AArch64.setFrame phys flags false
  table frame := AArch64.setFrame frame tableFlags true
  upgrade := none
  encodeFlags flags := AArch64.setFrame 0 flags false

inductive Arch where
  | x86_64
  | aarch64
  deriving DecidableEq, Repr

def Arch.format : Arch → Format
  | .x86_64 => x86Format
  | .aarch64 => aarch64Format

structure Format.Lawful (F : Format) : Prop where
  le_physBits : 28 ≤ F.physBits
  physBits_le : F.physBits ≤ 52
  mask : F.addressMask.toNat = 2 ^ 12 * (2 ^ (F.physBits - 12) - 1)
  isPresent_zero : F.isPresent 0#64 = false
  isPresent_leaf : ∀ phys flags, F.isPresent (F.leaf phys flags) = true
  leaf_eq : ∀ phys flags, F.leaf phys flags =
    (BitVec.ofNat 64 phys &&& F.addressMask) ||| F.encodeFlags flags
  encodeFlags_disjoint : ∀ flags, F.encodeFlags flags &&& F.addressMask = 0#64
  isPresent_table : ∀ frame, F.isPresent (F.table frame) = true
  isBlock_table : ∀ frame, F.isBlock (F.table frame) = false
  address_table : ∀ frame, F.table frame &&& F.addressMask =
    BitVec.ofNat 64 frame &&& F.addressMask
  isUserAccessible_attributes : ∀ e, F.isUserAccessible (F.attributes e) = F.isUserAccessible e
  isUserAccessible_encodeFlags : ∀ flags,
    F.isUserAccessible (F.encodeFlags flags) = flags.userAccessible
  upgrade_keeps : ∀ up, F.upgrade = some up → ∀ e, up e &&& F.addressMask = e &&& F.addressMask ∧
    F.isPresent (up e) = F.isPresent e ∧ F.isBlock (up e) = F.isBlock e
  upgrade_upgrade : ∀ up, F.upgrade = some up → ∀ e, up (up e) = up e

namespace X86

theorem isPresent_eq (e : Entry) : isPresent e = e.getLsbD 0 :=
  land_shift_ne_zero e (by decide : 0 < 64)

theorem isHuge_eq (e : Entry) : isHuge e = e.getLsbD 7 :=
  land_shift_ne_zero e (by decide : 7 < 64)

/-- The address field and the flag bits are written independently. -/
theorem setFrame_eq (physAddr : ℕ) (flags : MapFlags) :
    setFrame physAddr flags =
      (BitVec.ofNat 64 physAddr &&& addressMask) ||| setFrame 0 flags := by
  obtain ⟨w, u, x, d⟩ := flags
  cases w <;> cases u <;> cases x <;> simp [setFrame, BitVec.or_assoc]

theorem setFrame_zero_disjoint : ∀ flags, setFrame 0 flags &&& addressMask = 0#64 := by
  rintro ⟨w, u, x, d⟩
  revert w u x d
  decide

private theorem setFrame_zero_bits : ∀ flags, (setFrame 0 flags).getLsbD 0 = true ∧
    (setFrame 0 flags).getLsbD 7 = false := by
  rintro ⟨w, u, x, d⟩
  revert w u x d
  decide

theorem isUserAccessible_setFrame_zero : ∀ flags,
    isUserAccessible (setFrame 0 flags) = flags.userAccessible := by
  rintro ⟨w, u, x, d⟩
  revert w u x d
  decide

theorem isPresent_setFrame (physAddr : ℕ) (flags : MapFlags) :
    isPresent (setFrame physAddr flags) = true := by
  rw [isPresent_eq, setFrame_eq, BitVec.getLsbD_or, (setFrame_zero_bits flags).1, Bool.or_true]

theorem isHuge_setFrame (physAddr : ℕ) (flags : MapFlags) :
    isHuge (setFrame physAddr flags) = false := by
  have hmask : addressMask.getLsbD 7 = false := by decide
  rw [isHuge_eq, setFrame_eq, BitVec.getLsbD_or, BitVec.getLsbD_and, hmask,
    (setFrame_zero_bits flags).2, Bool.and_false, Bool.or_false]

theorem ensureUserAccessible_and_mask (e : Entry) :
    ensureUserAccessible e &&& addressMask = e &&& addressMask := by
  have hbit : (1#64 <<< 2) &&& addressMask = 0#64 := by decide
  unfold ensureUserAccessible
  rw [BitVec.and_or_distrib_right, hbit, BitVec.or_zero]

private theorem getLsbD_ensureUserAccessible (e : Entry) {k : ℕ}
    (hk : (1#64 <<< 2).getLsbD k = false) :
    (ensureUserAccessible e).getLsbD k = e.getLsbD k := by
  unfold ensureUserAccessible
  rw [BitVec.getLsbD_or, hk, Bool.or_false]

theorem ensureUserAccessible_idem (e : Entry) :
    ensureUserAccessible (ensureUserAccessible e) = ensureUserAccessible e := by
  unfold ensureUserAccessible
  rw [BitVec.or_assoc, BitVec.or_self]

theorem isPresent_ensureUserAccessible (e : Entry) :
    isPresent (ensureUserAccessible e) = isPresent e := by
  rw [isPresent_eq, isPresent_eq, getLsbD_ensureUserAccessible e (by decide)]

theorem isHuge_ensureUserAccessible (e : Entry) :
    isHuge (ensureUserAccessible e) = isHuge e := by
  rw [isHuge_eq, isHuge_eq, getLsbD_ensureUserAccessible e (by decide)]

end X86

private theorem or_and_of_disjoint {a b m : Entry} (h : b &&& m = 0#64) :
    (a &&& m ||| b) &&& m = a &&& m := by
  rw [BitVec.and_or_distrib_right, h, BitVec.or_zero, BitVec.and_assoc, BitVec.and_self]

private theorem and_not_and_of_disjoint {e m b : Entry} (h : ~~~m &&& b = b) :
    e &&& ~~~m &&& b = e &&& b := by
  rw [BitVec.and_assoc, h]

theorem x86Format_lawful : x86Format.Lawful where
  le_physBits := by decide
  physBits_le := by decide
  mask := by decide
  isPresent_zero := by decide
  isPresent_leaf := X86.isPresent_setFrame
  leaf_eq := X86.setFrame_eq
  encodeFlags_disjoint := X86.setFrame_zero_disjoint
  isPresent_table frame := X86.isPresent_setFrame frame tableFlags
  isBlock_table frame := X86.isHuge_setFrame frame tableFlags
  address_table frame := by
    change X86.setFrame frame tableFlags &&& X86.addressMask = _
    rw [X86.setFrame_eq]
    exact or_and_of_disjoint (X86.setFrame_zero_disjoint tableFlags)
  isUserAccessible_attributes e := by
    change (e &&& ~~~X86.addressMask &&& 1#64 <<< 2 != 0#64) = _
    rw [and_not_and_of_disjoint (by decide)]
    rfl
  isUserAccessible_encodeFlags := X86.isUserAccessible_setFrame_zero
  upgrade_keeps := by
    rintro up hup e
    obtain rfl : X86.ensureUserAccessible = up := Option.some.inj hup
    exact ⟨X86.ensureUserAccessible_and_mask e, X86.isPresent_ensureUserAccessible e,
      X86.isHuge_ensureUserAccessible e⟩
  upgrade_upgrade := by
    rintro up hup e
    obtain rfl : X86.ensureUserAccessible = up := Option.some.inj hup
    exact X86.ensureUserAccessible_idem e

namespace AArch64

theorem setFrame_eq (phys : ℕ) (flags : MapFlags) (isTable : Bool) :
    setFrame phys flags isTable =
      (BitVec.ofNat 64 phys &&& addressMask) ||| setFrame 0 flags isTable := by
  obtain ⟨w, u, x, d⟩ := flags
  cases w <;> cases u <;> cases x <;> cases d <;> cases isTable <;>
    simp [setFrame, BitVec.or_assoc]

theorem setFrame_zero_disjoint : ∀ flags isTable,
    setFrame 0 flags isTable &&& addressMask = 0#64 := by
  rintro ⟨w, u, x, d⟩
  revert w u x d
  decide

theorem isUserAccessible_setFrame_zero : ∀ flags isTable,
    isUserAccessible (setFrame 0 flags isTable) = flags.userAccessible := by
  rintro ⟨w, u, x, d⟩
  revert w u x d
  decide

private theorem setFrame_zero_bits : ∀ flags isTable,
    setFrame 0 flags isTable &&& 0b11#64 = 0b11#64 := by
  rintro ⟨w, u, x, d⟩
  revert w u x d
  decide

private theorem setFrame_low (phys : ℕ) (flags : MapFlags) (isTable : Bool) :
    setFrame phys flags isTable &&& 0b11#64 = 0b11#64 := by
  have hmask : addressMask &&& 0b11#64 = 0#64 := by decide
  rw [setFrame_eq, BitVec.and_or_distrib_right, BitVec.and_assoc, hmask, BitVec.and_zero,
    BitVec.zero_or, setFrame_zero_bits]

theorem isPresent_setFrame (phys : ℕ) (flags : MapFlags) (isTable : Bool) :
    isPresent (setFrame phys flags isTable) = true := by
  have h : setFrame phys flags isTable &&& 1#64 = 1#64 := by
    have hlow := congrArg (· &&& 1#64) (setFrame_low phys flags isTable)
    simpa [BitVec.and_assoc] using hlow
  rw [isPresent, h]
  decide

theorem isBlock_setFrame (phys : ℕ) (flags : MapFlags) (isTable : Bool) :
    isBlock (setFrame phys flags isTable) = false := by
  rw [isBlock, setFrame_low]
  decide

end AArch64

theorem aarch64Format_lawful : aarch64Format.Lawful where
  le_physBits := by decide
  physBits_le := by decide
  mask := by decide
  isPresent_zero := by decide
  isPresent_leaf phys flags := AArch64.isPresent_setFrame phys flags false
  leaf_eq phys flags := AArch64.setFrame_eq phys flags false
  encodeFlags_disjoint flags := AArch64.setFrame_zero_disjoint flags false
  isPresent_table frame := AArch64.isPresent_setFrame frame tableFlags true
  isBlock_table frame := AArch64.isBlock_setFrame frame tableFlags true
  address_table frame := by
    change AArch64.setFrame frame tableFlags true &&& AArch64.addressMask = _
    rw [AArch64.setFrame_eq]
    exact or_and_of_disjoint (AArch64.setFrame_zero_disjoint tableFlags true)
  isUserAccessible_attributes e := by
    change (e &&& ~~~AArch64.addressMask &&& 1#64 <<< 6 != 0#64) = _
    rw [and_not_and_of_disjoint (by decide)]
    rfl
  isUserAccessible_encodeFlags flags := AArch64.isUserAccessible_setFrame_zero flags false
  upgrade_keeps up hup := Option.noConfusion rfl (heq_of_eq hup)
  upgrade_upgrade up hup := Option.noConfusion rfl (heq_of_eq hup)

theorem Arch.format_lawful : ∀ arch : Arch, arch.format.Lawful
  | .x86_64 => x86Format_lawful
  | .aarch64 => aarch64Format_lawful

namespace Format.Lawful
variable {F : Format}

theorem physicalAddress_eq (hF : F.Lawful) (e : Entry) :
    F.physicalAddress e = e.toNat / 2 ^ 12 % 2 ^ (F.physBits - 12) * 2 ^ 12 := by
  rw [Format.physicalAddress, BitVec.toNat_and, hF.mask, land_mask]

theorem physicalAddress_mod (hF : F.Lawful) (e : Entry) : F.physicalAddress e % 4096 = 0 := by
  rw [hF.physicalAddress_eq]
  exact Nat.mul_mod_left _ _

theorem ofNat_and_mask (hF : F.Lawful) {phys : ℕ} (ha : phys % 4096 = 0)
    (hb : phys < 2 ^ F.physBits) : (BitVec.ofNat 64 phys &&& F.addressMask).toNat = phys := by
  have hw : phys < 2 ^ 64 :=
    hb.trans_le (Nat.pow_le_pow_right (by decide) (by have := hF.physBits_le; omega))
  have hdiv : phys / 2 ^ 12 < 2 ^ (F.physBits - 12) := by
    rw [Nat.div_lt_iff_lt_mul (by decide), ← Nat.pow_add,
      Nat.sub_add_cancel (by have := hF.le_physBits; omega)]
    exact hb
  rw [BitVec.toNat_and, hF.mask, land_mask, BitVec.toNat_ofNat, Nat.mod_eq_of_lt hw,
    Nat.mod_eq_of_lt hdiv]
  omega

theorem physicalAddress_leaf (hF : F.Lawful) {phys : ℕ} (ha : phys % 4096 = 0)
    (hb : phys < 2 ^ F.physBits) (flags : MapFlags) :
    F.physicalAddress (F.leaf phys flags) = phys := by
  rw [Format.physicalAddress, hF.leaf_eq, or_and_of_disjoint (hF.encodeFlags_disjoint flags),
    hF.ofNat_and_mask ha hb]

theorem physicalAddress_table (hF : F.Lawful) {frame : ℕ} (ha : frame % 4096 = 0)
    (hb : frame < 2 ^ F.physBits) : F.physicalAddress (F.table frame) = frame := by
  rw [Format.physicalAddress, hF.address_table, hF.ofNat_and_mask ha hb]

theorem attributes_leaf (hF : F.Lawful) (phys : ℕ) (flags : MapFlags) :
    F.attributes (F.leaf phys flags) = F.encodeFlags flags := by
  have hd := hF.encodeFlags_disjoint flags
  have hsplit : F.encodeFlags flags &&& ~~~F.addressMask = F.encodeFlags flags := by
    apply BitVec.eq_of_getLsbD_eq
    intro i hi
    have hbit := congrArg (BitVec.getLsbD · i) hd
    simp only [BitVec.getLsbD_and, BitVec.getLsbD_zero] at hbit
    simp only [BitVec.getLsbD_and, BitVec.getLsbD_not, hi, decide_true, Bool.true_and]
    cases h1 : (F.encodeFlags flags).getLsbD i <;> cases h2 : F.addressMask.getLsbD i <;>
      simp_all
  have haddr : BitVec.ofNat 64 phys &&& F.addressMask &&& ~~~F.addressMask = 0#64 := by
    rw [BitVec.and_assoc, BitVec.and_not_self]
    exact BitVec.and_zero
  rw [Format.attributes, hF.leaf_eq, BitVec.and_or_distrib_right, haddr, BitVec.zero_or, hsplit]

theorem physicalAddress_upgrade (hF : F.Lawful) {up : Entry → Entry} (hup : F.upgrade = some up)
    (e : Entry) : F.physicalAddress (up e) = F.physicalAddress e := by
  rw [Format.physicalAddress, (hF.upgrade_keeps up hup e).1, Format.physicalAddress]

theorem physicalAddress_marked (hF : F.Lawful) (e : Entry) :
    F.physicalAddress (F.marked e) = F.physicalAddress e := by
  unfold Format.marked
  cases hup : F.upgrade with
  | none => rfl
  | some up => exact hF.physicalAddress_upgrade hup e

theorem isPresent_marked (hF : F.Lawful) (e : Entry) : F.isPresent (F.marked e) = F.isPresent e := by
  unfold Format.marked
  cases hup : F.upgrade with
  | none => rfl
  | some up => exact (hF.upgrade_keeps up hup e).2.1

theorem marked_marked (hF : F.Lawful) (e : Entry) : F.marked (F.marked e) = F.marked e := by
  unfold Format.marked
  cases hup : F.upgrade with
  | none => rfl
  | some up => exact hF.upgrade_upgrade up hup e

end Format.Lawful

end MitosOS.Paging
