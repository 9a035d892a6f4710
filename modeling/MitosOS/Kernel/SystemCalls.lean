import MitosOS.Drivers.Uart
import MitosOS.Kernel.InputRing
import MitosOS.Kernel.Processes
import MitosOS.Paging.UserBytes

/-! The system calls of `syscall.rs`. The kernel reads and writes the caller's buffers through the
tables that the CPU has loaded, one byte after the other. -/
namespace MitosOS.Kernel
open MitosOS.Lib MitosOS.Memory MitosOS.Paging MitosOS.Tasks MitosOS.Drivers

/-- `dequeue_byte` while interrupts are masked; `none` is an index out of bounds. -/
def InputRing.dequeueByte (r : InputRing) : Option (Option (BitVec 8) × InputRing) :=
  if r.head = r.tail then some (none, r)
  else if r.head < bufferSize then
    some (some (r.cell r.head), { r with head := (r.head + 1) % bufferSize })
  else none

/-- The task that makes a call, and the tables the CPU translates with meanwhile. -/
structure Caller where
  arch : Arch
  task : Task
  activeRoot : ℕ

/-- What the calls work on: physical memory, the input ring, and what was sent to the UART. -/
structure CallState where
  machine : Machine
  ring : InputRing
  uart : List (BitVec 8)

inductive CallResult where
  | returned (value : ℕ)
  /-- `task::exit` does not come back. -/
  | exited
  /-- The kernel's own access to an address that the MMU does not translate. -/
  | faulted (addr : ℕ)
  | panicked
  deriving DecidableEq

def callFailed : CallResult := .returned (2 ^ 64 - 1)

/-- What `copy_str` writes at the start of a field of `size` bytes. -/
def copyStr (size : ℕ) (src : List (BitVec 8)) : List (BitVec 8) :=
  src.take (min src.length (size - 1)) ++ [0]

/-- The size of every field of `UtsName`, and of all six. -/
def utsFieldSize : ℕ := 65
def utsNameSize : ℕ := 390

def sysUnknown (sysNum : ℕ) (s : CallState) : CallResult × CallState :=
  (callFailed, { s with
    uart := s.uart ++
      uartWriteStr (textBytes ("mitosOS: Unknown syscall number: " ++ toString sysNum ++ "\n")) })

namespace Caller
variable (c : Caller)

/-- Only the pointers of a ring-3 caller are checked. -/
def validateUserPtr (m : Memory) (ptr len : ℕ) (needWrite : Bool) : Bool :=
  if !c.task.isRing3 then true
  else validateUserRange c.arch.format m c.task.memoryRoot ptr len needWrite

def translate (m : Memory) (addr : ℕ) : Option ℕ := hardwareTranslation c.arch m c.activeRoot addr

/-- The bytes of a slice, or the first address of it that faults. -/
def loadSlice (m : Memory) : ℕ → ℕ → Except ℕ (List (BitVec 8))
  | 0, _ => .ok []
  | len + 1, addr =>
    match c.translate m addr with
    | none => .error addr
    | some phys => (loadSlice m len (addr + 1)).map (m phys :: ·)

/-- Bytes stored from `addr` on, up to the first address that faults. -/
def storeSlice : List (BitVec 8) → ℕ → Memory → Option ℕ × Memory
  | [], _, m => (none, m)
  | byte :: bytes, addr, m =>
    match c.translate m addr with
    | none => (some addr, m)
    | some phys => storeSlice bytes (addr + 1) (m.blit phys [byte])

def sysWrite (fd ptr len : ℕ) (s : CallState) : CallResult × CallState :=
  if (fd ≠ 1 ∧ fd ≠ 2) ∨ ptr = 0 ∨ len = 0 then (callFailed, s)
  else if !c.validateUserPtr s.machine.mem ptr len false then (callFailed, s)
  else
    match c.loadSlice s.machine.mem len ptr with
    | .error addr => (.faulted addr, s)
    | .ok slice =>
      if isUtf8 slice then (.returned len, { s with uart := s.uart ++ uartWriteStr slice })
      else (callFailed, s)

/-- The loop of `sys_read`, with `left` bytes of the buffer still to fill. -/
def readLoop (ptr : ℕ) : ℕ → ℕ → CallState → CallResult × CallState
  | 0, bytesRead, s => (.returned bytesRead, s)
  | left + 1, bytesRead, s =>
    match s.ring.dequeueByte with
    | none => (.panicked, s)
    | some (none, _) => (.returned bytesRead, s)
    | some (some byte, ring) =>
      match c.translate s.machine.mem (ptr + bytesRead) with
      | none => (.faulted (ptr + bytesRead), { s with ring := ring })
      | some phys =>
        readLoop ptr left (bytesRead + 1)
          { s with ring := ring, machine.mem := s.machine.mem.blit phys [byte] }

def sysRead (fd ptr len : ℕ) (s : CallState) : CallResult × CallState :=
  if fd ≠ 0 ∨ ptr = 0 ∨ len = 0 then (callFailed, s)
  else if !c.validateUserPtr s.machine.mem ptr len true then (callFailed, s)
  else c.readLoop ptr len 0 s

/-- `OS_NAME`, `OS_NODENAME`, `OS_VERSION` twice, `OS_ARCH` and the domain, in the order of the
fields of `UtsName`. -/
def utsStrings : List String :=
  ["mitosOS", "mitos", "0.1.0", "0.1.0",
    match c.arch with
    | .x86_64 => "x86_64"
    | .aarch64 => "aarch64",
    "(none)"]

def populate : List String → ℕ → Memory → Option ℕ × Memory
  | [], _, m => (none, m)
  | field :: fields, addr, m =>
    match c.storeSlice (copyStr utsFieldSize (textBytes field)) addr m with
    | (some fault, m) => (some fault, m)
    | (none, m) => populate fields (addr + utsFieldSize) m

/-- `UtsName` consists of bytes, so its alignment is 1. -/
def sysUname (ptr : ℕ) (s : CallState) : CallResult × CallState :=
  if ptr = 0 then (callFailed, s)
  else if !c.validateUserPtr s.machine.mem ptr utsNameSize true then (callFailed, s)
  else if ptr % 1 ≠ 0 then (callFailed, s)
  else
    match c.populate c.utsStrings ptr s.machine.mem with
    | (some addr, m) => (.faulted addr, { s with machine.mem := m })
    | (none, m) => (.returned 0, { s with machine.mem := m })

def syscallHandler (sysNum arg1 arg2 arg3 : ℕ) (s : CallState) : CallResult × CallState :=
  match sysNum with
  | 1 => c.sysWrite arg1 arg2 arg3 s
  | 0 => c.sysRead arg1 arg2 arg3 s
  | 11 =>
    let (value, machine) := sysMunmap c.arch.format c.task arg1 arg2 s.machine
    (.returned value, { s with machine := machine })
  | 60 => (.exited, s)
  | 63 => c.sysUname arg1 s
  | _ => sysUnknown sysNum s

end Caller

/-- The buffer that a call finds in its arguments, for the calls that access one. -/
def callBuffer (sysNum arg1 arg2 arg3 : ℕ) : Option (ℕ × ℕ) :=
  match sysNum with
  | 1 => some (arg2, arg3)
  | 0 => some (arg2, arg3)
  | 63 => some (arg1, utsNameSize)
  | _ => none

/-- The indices that `enqueue_byte` and `dequeue_byte` keep. -/
structure InputRing.InBounds (r : InputRing) : Prop where
  head : r.head < bufferSize
  tail : r.tail < bufferSize

/-- A caller that runs on its own root, where the entries in `shared` are closed to user mode. -/
structure Caller.OnOwnRoot (c : Caller) (shared : Set (Fin 512)) (root : ℕ) (s : Machine) : Prop where
  active : c.activeRoot = root * 4096
  memoryRoot : c.task.memoryRoot = root * 4096
  isPrivate : Private c.arch.format shared root s
  supervisor : ∀ a, tableIndex 39 a ∈ shared → ∀ needWrite,
    pageIsUserAccessible c.arch.format s.mem (root * 4096) a needWrite = false

section Ring
variable {r : InputRing}

theorem InputRing.InBounds.dequeueByte (h : r.InBounds) :
    r.pending = [] ∧ r.dequeueByte = some (none, r) ∨
    ∃ byte r', r.pending = byte :: r'.pending ∧ r.dequeueByte = some (some byte, r') ∧
      r'.InBounds := by
  have hcount : r.pending = [] ↔ r.head = r.tail := by
    rw [← List.length_eq_zero_iff, InputRing.pending_length]
    exact ringCount_eq_zero h.head
  unfold InputRing.dequeueByte
  by_cases hempty : r.head = r.tail
  · left
    rw [if_pos hempty]
    exact ⟨hcount.mpr hempty, rfl⟩
  · right
    rw [if_neg hempty, if_pos h.head]
    exact ⟨_, _, InputRing.pending_pop h.head h.tail hempty, rfl, Nat.mod_lt _ (by decide), h.tail⟩

end Ring

section Buffers
variable {c : Caller} {shared : Set (Fin 512)} {root ptr len : ℕ} {s : Machine}

theorem Caller.OnOwnRoot.range (h : c.OnOwnRoot shared root s) (hring : c.task.isRing3 = true)
    (hpos : 0 < len) {needWrite : Bool}
    (hvalid : c.validateUserPtr s.mem ptr len needWrite = true) :
    ptr + len < 2 ^ 64 ∧ ∀ a, ptr ≤ a → a < ptr + len → tableIndex 39 a ∉ shared := by
  unfold Caller.validateUserPtr at hvalid
  rw [hring, Bool.not_true, if_neg Bool.false_ne_true, h.memoryRoot] at hvalid
  obtain ⟨hend, -, hpages⟩ := (validateUserRange_eq_true hpos).mp hvalid
  refine ⟨hend, fun a hlow hhigh hshared => ?_⟩
  have hbad := h.supervisor a hshared needWrite
  rw [hpages a hlow hhigh] at hbad
  exact absurd hbad (by decide)

/-- Stores into a range of private addresses reach only data pages, also when one of them faults. -/
theorem Caller.storeSlice_writesData (hactive : c.activeRoot = root * 4096)
    (bytes : List (BitVec 8)) : ∀ (addr : ℕ) {s : Machine}, Private c.arch.format shared root s →
    (∀ a, addr ≤ a → a < addr + bytes.length → tableIndex 39 a ∉ shared) →
    WritesData c.arch.format shared root s.mem (c.storeSlice bytes addr s.mem).2 := by
  induction bytes with
  | nil =>
    intro addr s _ _
    exact WritesData.refl _ _ _ _
  | cons byte bytes ih =>
    intro addr s h hrange
    rw [List.length_cons] at hrange
    rw [Caller.storeSlice]
    cases htr : c.translate s.mem addr with
    | none => exact WritesData.refl _ _ _ _
    | some phys =>
      unfold Caller.translate at htr
      rw [hactive] at htr
      have hv := hrange addr (le_refl _) (by omega)
      have hfirst := h.writesData_store byte hv htr
      have hrest := ih (addr + 1) (s := { s with mem := s.mem.blit phys [byte] })
        (hfirst.isPrivate h) (fun a hlow hhigh => hrange a (by omega) (by omega))
      exact hfirst.trans h hrest

/-- A process finds the bytes at `addr`, and everything else as before. -/
def Caller.Placed (c : Caller) (shared : Set (Fin 512)) (root : ℕ) (m : Memory) (addr : ℕ)
    (bytes : List (BitVec 8)) (m' : Memory) : Prop :=
  ∀ b, Addressable c.arch b → tableIndex 39 b ∉ shared → b < 2 ^ 64 →
    userByte c.arch.format m' root b =
      if addr ≤ b ∧ b < addr + bytes.length then bytes[b - addr]?
      else userByte c.arch.format m root b

theorem Caller.storeSlice_placed (hactive : c.activeRoot = root * 4096)
    (bytes : List (BitVec 8)) : ∀ (addr : ℕ) {s : Machine}, Private c.arch.format shared root s →
    (∀ a, addr ≤ a → a < addr + bytes.length → tableIndex 39 a ∉ shared ∧
      (hardwareTranslation c.arch s.mem (root * 4096) a).isSome = true) →
    addr + bytes.length < 2 ^ 64 →
    (c.storeSlice bytes addr s.mem).1 = none ∧
      c.Placed shared root s.mem addr bytes (c.storeSlice bytes addr s.mem).2 := by
  induction bytes with
  | nil =>
    intro addr s _ _ _
    refine ⟨rfl, fun b _ _ _ => ?_⟩
    rw [if_neg (by rw [List.length_nil]; omega)]
    rfl
  | cons byte bytes ih =>
    intro addr s h hrange hend
    rw [List.length_cons] at hrange hend
    obtain ⟨hv, htranslated⟩ := hrange addr (le_refl _) (by omega)
    obtain ⟨phys, hphys⟩ := Option.isSome_iff_exists.mp htranslated
    have htr : c.translate s.mem addr = some phys := by
      rw [Caller.translate, hactive, hphys]
    have hfirst := h.writesData_store byte hv hphys
    have hsame := hfirst.sameTables h
    obtain ⟨hnone, hbytes⟩ := ih (addr + 1) (s := { s with mem := s.mem.blit phys [byte] })
      (hfirst.isPrivate h)
      (fun a hlow hhigh => by
        obtain ⟨hva, hta⟩ := hrange a (by omega) (by omega)
        exact ⟨hva, by rwa [h.hardwareTranslation_of_sameTables hsame hva]⟩)
      (by omega)
    rw [Caller.storeSlice, htr]
    refine ⟨hnone, fun b hb hvb hltb => ?_⟩
    have hstore := h.userByte_store byte hv hphys (by omega) hb hvb hltb
    have hlater := hbytes b hb hvb hltb
    dsimp only at hlater ⊢
    rw [hlater, hstore, List.length_cons]
    by_cases hfirstByte : b = addr
    · rw [if_neg (by omega), if_pos hfirstByte, if_pos (by omega), hfirstByte, Nat.sub_self,
        List.getElem?_cons_zero]
    · rw [if_neg hfirstByte]
      by_cases hin : addr + 1 ≤ b ∧ b < addr + 1 + bytes.length
      · obtain ⟨k, hk⟩ : ∃ k, b - addr = k + 1 := ⟨b - addr - 1, by omega⟩
        rw [if_pos hin, if_pos (by omega), hk, List.getElem?_cons_succ]
        congr 1
        omega
      · rw [if_neg hin, if_neg (by omega)]

theorem Caller.le_storeSlice_fault (c : Caller) {fault : ℕ} (bytes : List (BitVec 8)) :
    ∀ (addr : ℕ) (m : Memory), (c.storeSlice bytes addr m).1 = some fault → addr ≤ fault := by
  induction bytes with
  | nil => exact fun addr m h => absurd h (by simp [Caller.storeSlice])
  | cons byte bytes ih =>
    intro addr m h
    rw [Caller.storeSlice] at h
    cases htr : c.translate m addr with
    | none =>
      rw [htr] at h
      exact le_of_eq (Option.some.inj h)
    | some phys =>
      rw [htr] at h
      exact Nat.le_of_succ_le (ih (addr + 1) _ h)

theorem Caller.storeSlice_append (c : Caller) (bytes rest : List (BitVec 8)) :
    ∀ (addr : ℕ) (m : Memory), (c.storeSlice bytes addr m).1 = none →
      c.storeSlice (bytes ++ rest) addr m =
        c.storeSlice rest (addr + bytes.length) (c.storeSlice bytes addr m).2 := by
  induction bytes with
  | nil => exact fun addr m _ => rfl
  | cons byte bytes ih =>
    intro addr m h
    rw [List.cons_append, Caller.storeSlice, Caller.storeSlice, List.length_cons]
    rw [Caller.storeSlice] at h
    cases htr : c.translate m addr with
    | none =>
      rw [htr] at h
      exact absurd h (by simp)
    | some phys =>
      rw [htr] at h
      dsimp only at h ⊢
      rw [ih (addr + 1) _ h]
      congr 1
      omega

theorem Caller.readLoop_eq (ptr left : ℕ) : ∀ (bytesRead : ℕ) {s : CallState}, s.ring.InBounds →
    ∃ ring : InputRing, ring.InBounds ∧
      c.readLoop ptr left bytesRead s =
        ((c.storeSlice (s.ring.pending.take left) (ptr + bytesRead) s.machine.mem).1.elim
            (.returned (bytesRead + min left s.ring.pending.length)) .faulted,
          { s with
            ring := ring
            machine.mem :=
              (c.storeSlice (s.ring.pending.take left) (ptr + bytesRead) s.machine.mem).2 }) ∧
      ring.pending = s.ring.pending.drop
        ((c.storeSlice (s.ring.pending.take left) (ptr + bytesRead) s.machine.mem).1.elim left
          (· + 1 - (ptr + bytesRead))) := by
  induction left with
  | zero =>
    intro bytesRead s hring
    refine ⟨s.ring, hring, ?_, rfl⟩
    simp [Caller.readLoop, Caller.storeSlice]
  | succ left ih =>
    intro bytesRead s hring
    rw [Caller.readLoop]
    rcases hring.dequeueByte with ⟨hempty, hnone⟩ | ⟨byte, r, hpending, hsome, hr⟩
    · refine ⟨s.ring, hring, ?_, ?_⟩
      · rw [hnone, hempty]
        simp [Caller.storeSlice]
      · rw [hempty, List.drop_nil]
    · rw [hsome, hpending, List.take_succ_cons, Caller.storeSlice]
      dsimp only
      cases htr : c.translate s.machine.mem (ptr + bytesRead) with
      | none =>
        refine ⟨r, hr, rfl, ?_⟩
        rw [Option.elim_some, Nat.add_sub_cancel_left, List.drop_one, List.tail_cons]
      | some phys =>
        dsimp only
        obtain ⟨ring, hin, heq, hrest⟩ := ih (bytesRead + 1)
          (s := { s with ring := r, machine.mem := s.machine.mem.blit phys [byte] }) hr
        rw [← Nat.add_assoc] at heq hrest
        -- a fault lies behind the byte that was just stored
        have hdrop : ring.pending = (byte :: r.pending).drop
            ((c.storeSlice (r.pending.take left) (ptr + bytesRead + 1)
              (s.machine.mem.blit phys [byte])).1.elim (left + 1) (· + 1 - (ptr + bytesRead))) := by
          rw [hrest]
          cases hstore : (c.storeSlice (r.pending.take left) (ptr + bytesRead + 1)
              (s.machine.mem.blit phys [byte])).1 with
          | none => rfl
          | some fault =>
            have hlow := c.le_storeSlice_fault (r.pending.take left) _ _ hstore
            rw [Option.elim_some, Option.elim_some, ← List.drop_succ_cons (a := byte)]
            congr 1
            omega
        have hcount : bytesRead + 1 + min left r.pending.length =
            bytesRead + min (left + 1) (byte :: r.pending).length := by
          rw [List.length_cons]
          omega
        rw [hcount] at heq
        exact ⟨ring, hin, heq, hdrop⟩

theorem copyStr_length_le (src : List (BitVec 8)) :
    (copyStr utsFieldSize src).length ≤ utsFieldSize := by
  simp [copyStr, utsFieldSize]

theorem Caller.populate_writesData (hactive : c.activeRoot = root * 4096) (fields : List String) :
    ∀ (addr : ℕ) {s : Machine}, Private c.arch.format shared root s →
    (∀ a, addr ≤ a → a < addr + utsFieldSize * fields.length → tableIndex 39 a ∉ shared) →
    WritesData c.arch.format shared root s.mem (c.populate fields addr s.mem).2 := by
  induction fields with
  | nil =>
    intro addr s _ _
    exact WritesData.refl _ _ _ _
  | cons field fields ih =>
    intro addr s h hrange
    have hlen := copyStr_length_le (textBytes field)
    rw [List.length_cons, Nat.mul_succ] at hrange
    have hfirst := c.storeSlice_writesData hactive (copyStr utsFieldSize (textBytes field)) addr h
      (fun a hlow hhigh => hrange a hlow (by omega))
    rw [Caller.populate]
    cases hrun : c.storeSlice (copyStr utsFieldSize (textBytes field)) addr s.mem with
    | mk fault m =>
      rw [hrun] at hfirst
      cases fault with
      | some fault => exact hfirst
      | none =>
        have hrest := ih (addr + utsFieldSize) (s := { s with mem := m }) (hfirst.isPrivate h)
          (fun a hlow hhigh => hrange a (by omega) (by omega))
        exact hfirst.trans h hrest

theorem Caller.translate_of_writesData (hactive : c.activeRoot = root * 4096)
    (h : Private c.arch.format shared root s) {m : Memory}
    (hw : WritesData c.arch.format shared root s.mem m) {a : ℕ} (ha : tableIndex 39 a ∉ shared) :
    c.translate m a = c.translate s.mem a := by
  rw [Caller.translate, Caller.translate, hactive]
  exact h.hardwareTranslation_of_sameTables (hw.sameTables h) ha

theorem Caller.loadSlice_error {m : Memory} {fault : ℕ} (len : ℕ) : ∀ addr : ℕ,
    c.loadSlice m len addr = .error fault →
      addr ≤ fault ∧ fault < addr + len ∧ c.translate m fault = none := by
  induction len with
  | zero => exact fun addr h => absurd h (by simp [Caller.loadSlice])
  | succ len ih =>
    intro addr h
    rw [Caller.loadSlice] at h
    cases htr : c.translate m addr with
    | none =>
      rw [htr] at h
      obtain rfl : addr = fault := Except.error.inj h
      exact ⟨le_refl _, by omega, htr⟩
    | some phys =>
      rw [htr] at h
      cases hrest : c.loadSlice m len (addr + 1) with
      | ok slice =>
        rw [hrest] at h
        exact absurd h (by simp [Except.map])
      | error a =>
        rw [hrest] at h
        obtain rfl : a = fault := Except.error.inj h
        obtain ⟨hlow, hhigh, hnone⟩ := ih (addr + 1) hrest
        exact ⟨by omega, by omega, hnone⟩

theorem Caller.storeSlice_fault (hactive : c.activeRoot = root * 4096) (fault : ℕ)
    (bytes : List (BitVec 8)) : ∀ (addr : ℕ) {s : Machine}, Private c.arch.format shared root s →
    (∀ a, addr ≤ a → a < addr + bytes.length → tableIndex 39 a ∉ shared) →
    (c.storeSlice bytes addr s.mem).1 = some fault →
      addr ≤ fault ∧ fault < addr + bytes.length ∧ c.translate s.mem fault = none := by
  induction bytes with
  | nil => exact fun addr s _ _ h => absurd h (by simp [Caller.storeSlice])
  | cons byte bytes ih =>
    intro addr s h hrange hfault
    rw [List.length_cons] at hrange
    rw [Caller.storeSlice] at hfault
    rw [List.length_cons]
    cases htr : c.translate s.mem addr with
    | none =>
      rw [htr] at hfault
      obtain rfl : addr = fault := Option.some.inj hfault
      exact ⟨le_refl _, by omega, htr⟩
    | some phys =>
      rw [htr] at hfault
      rw [Caller.translate, hactive] at htr
      have hfirst := h.writesData_store byte (hrange addr (le_refl _) (by omega)) htr
      obtain ⟨hlow, hhigh, hnone⟩ := ih (addr + 1) (s := { s with mem := s.mem.blit phys [byte] })
        (hfirst.isPrivate h) (fun a hlow hhigh => hrange a (by omega) (by omega)) hfault
      rw [c.translate_of_writesData hactive h hfirst (hrange fault (by omega) (by omega))] at hnone
      exact ⟨by omega, by omega, hnone⟩

theorem Caller.storeSlice_up_to (hactive : c.activeRoot = root * 4096) (bytes : List (BitVec 8))
    {addr i : ℕ} (h : Private c.arch.format shared root s)
    (hrange : ∀ a, addr ≤ a → a < addr + bytes.length → tableIndex 39 a ∉ shared)
    (hend : addr + bytes.length < 2 ^ 64) (hi : i < bytes.length)
    (hmapped : ∀ a, addr ≤ a → a < addr + i → (c.translate s.mem a).isSome = true)
    (hnone : c.translate s.mem (addr + i) = none) :
    c.storeSlice bytes addr s.mem = (some (addr + i), (c.storeSlice (bytes.take i) addr s.mem).2) := by
  have hlen : (bytes.take i).length = i := List.length_take_of_le (le_of_lt hi)
  have hfirst : ∀ a, addr ≤ a → a < addr + (bytes.take i).length → tableIndex 39 a ∉ shared :=
    fun a hlow hhigh => hrange a hlow (by omega)
  obtain ⟨hdone, -⟩ := c.storeSlice_placed hactive (bytes.take i) addr h
    (fun a hlow hhigh => ⟨hfirst a hlow hhigh, by
      rw [← hactive]
      exact hmapped a hlow (by omega)⟩) (by omega)
  have hwrites := c.storeSlice_writesData hactive (bytes.take i) addr h hfirst
  have hafter : c.translate (c.storeSlice (bytes.take i) addr s.mem).2 (addr + i) = none := by
    rw [c.translate_of_writesData hactive h hwrites (hrange (addr + i) (by omega) (by omega)), hnone]
  have hsplit : bytes = bytes.take i ++ bytes[i] :: bytes.drop (i + 1) := by
    rw [List.getElem_cons_drop, List.take_append_drop]
  have hstore := c.storeSlice_append (bytes.take i) (bytes[i] :: bytes.drop (i + 1)) addr s.mem hdone
  rw [← hsplit, hlen, Caller.storeSlice, hafter] at hstore
  exact hstore

theorem Caller.populate_fault (hactive : c.activeRoot = root * 4096) (fault : ℕ)
    (fields : List String) : ∀ (addr : ℕ) {s : Machine}, Private c.arch.format shared root s →
    (∀ a, addr ≤ a → a < addr + utsFieldSize * fields.length → tableIndex 39 a ∉ shared) →
    (c.populate fields addr s.mem).1 = some fault →
      addr ≤ fault ∧ fault < addr + utsFieldSize * fields.length ∧
        c.translate s.mem fault = none := by
  induction fields with
  | nil => exact fun addr s _ _ h => absurd h (by simp [Caller.populate])
  | cons field fields ih =>
    intro addr s h hrange hfault
    have hlen := copyStr_length_le (textBytes field)
    rw [List.length_cons, Nat.mul_succ] at hrange ⊢
    have hfield : ∀ a, addr ≤ a → a < addr + (copyStr utsFieldSize (textBytes field)).length →
        tableIndex 39 a ∉ shared := fun a hlow hhigh => hrange a hlow (by omega)
    have hfirst := c.storeSlice_writesData hactive _ addr h hfield
    have hstore := c.storeSlice_fault hactive fault _ addr h hfield
    rw [Caller.populate] at hfault
    cases hrun : c.storeSlice (copyStr utsFieldSize (textBytes field)) addr s.mem with
    | mk stored m =>
      rw [hrun] at hfirst hstore hfault
      cases stored with
      | some a =>
        obtain ⟨hlow, hhigh, hnone⟩ := hstore hfault
        exact ⟨hlow, by omega, hnone⟩
      | none =>
        obtain ⟨hlow, hhigh, hnone⟩ := ih (addr + utsFieldSize) (s := { s with mem := m })
          (hfirst.isPrivate h) (fun a hlow hhigh => hrange a (by omega) (by omega)) hfault
        rw [c.translate_of_writesData hactive h hfirst (hrange fault (by omega) (by omega))] at hnone
        exact ⟨by omega, by omega, hnone⟩

end Buffers

section Calls
variable {c : Caller} {shared : Set (Fin 512)} {root : ℕ} {s : CallState}

theorem Caller.OnOwnRoot.sysRead (h : c.OnOwnRoot shared root s.machine)
    (hring3 : c.task.isRing3 = true) (hring : s.ring.InBounds) (fd ptr len : ℕ) :
    (c.sysRead fd ptr len s).1 ≠ .panicked ∧ (c.sysRead fd ptr len s).2.ring.InBounds ∧
      (c.sysRead fd ptr len s).2.machine.pmm = s.machine.pmm ∧
      WritesData c.arch.format shared root s.machine.mem
        (c.sysRead fd ptr len s).2.machine.mem := by
  have hrefused : (callFailed, s).1 ≠ .panicked ∧ (callFailed, s).2.ring.InBounds ∧
      (callFailed, s).2.machine.pmm = s.machine.pmm ∧
      WritesData c.arch.format shared root s.machine.mem (callFailed, s).2.machine.mem :=
    ⟨by simp [callFailed], hring, rfl, WritesData.refl _ _ _ _⟩
  unfold Caller.sysRead
  split_ifs with hargs hvalid
  · exact hrefused
  · exact hrefused
  · rw [not_or, not_or] at hargs
    rw [Bool.not_eq_true', Bool.not_eq_false] at hvalid
    obtain ⟨-, hrange⟩ := h.range hring3 (Nat.pos_of_ne_zero hargs.2.2) hvalid
    obtain ⟨ring, hin, heq, -⟩ := c.readLoop_eq ptr len 0 hring
    have htake : (s.ring.pending.take len).length ≤ len := by simp
    have hwrites := c.storeSlice_writesData h.active (s.ring.pending.take len) (ptr + 0) h.isPrivate
      (fun a hlow hhigh => hrange a (by omega) (by omega))
    rw [heq]
    refine ⟨?_, hin, rfl, hwrites⟩
    cases (c.storeSlice (s.ring.pending.take len) (ptr + 0) s.machine.mem).1 with
    | none => exact fun hcon => CallResult.noConfusion hcon
    | some addr => exact fun hcon => CallResult.noConfusion hcon

theorem Caller.OnOwnRoot.sysUname (h : c.OnOwnRoot shared root s.machine)
    (hring3 : c.task.isRing3 = true) (ptr : ℕ) :
    (c.sysUname ptr s).1 ≠ .panicked ∧ (c.sysUname ptr s).2.ring = s.ring ∧
      (c.sysUname ptr s).2.machine.pmm = s.machine.pmm ∧
      WritesData c.arch.format shared root s.machine.mem (c.sysUname ptr s).2.machine.mem := by
  have hrefused : (callFailed, s).1 ≠ .panicked ∧ (callFailed, s).2.ring = s.ring ∧
      (callFailed, s).2.machine.pmm = s.machine.pmm ∧
      WritesData c.arch.format shared root s.machine.mem (callFailed, s).2.machine.mem :=
    ⟨by simp [callFailed], rfl, rfl, WritesData.refl _ _ _ _⟩
  unfold Caller.sysUname
  split_ifs with hnull hvalid halign
  · exact hrefused
  · exact hrefused
  · exact hrefused
  · rw [Bool.not_eq_true', Bool.not_eq_false] at hvalid
    obtain ⟨-, hrange⟩ := h.range hring3 (by decide) hvalid
    have hwrites := c.populate_writesData h.active c.utsStrings ptr h.isPrivate hrange
    cases hrun : c.populate c.utsStrings ptr s.machine.mem with
    | mk fault m =>
      rw [hrun] at hwrites
      cases fault with
      | none => exact ⟨fun hcon => CallResult.noConfusion hcon, rfl, rfl, hwrites⟩
      | some addr => exact ⟨fun hcon => CallResult.noConfusion hcon, rfl, rfl, hwrites⟩

theorem Caller.sysWrite_keeps (c : Caller) (fd ptr len : ℕ) (s : CallState) :
    (c.sysWrite fd ptr len s).1 ≠ .panicked ∧ (c.sysWrite fd ptr len s).2.ring = s.ring ∧
      (c.sysWrite fd ptr len s).2.machine = s.machine := by
  unfold Caller.sysWrite
  split_ifs with hargs hvalid
  · exact ⟨by simp [callFailed], rfl, rfl⟩
  · exact ⟨by simp [callFailed], rfl, rfl⟩
  · cases c.loadSlice s.machine.mem len ptr with
    | error addr => exact ⟨fun hcon => CallResult.noConfusion hcon, rfl, rfl⟩
    | ok slice =>
      dsimp only
      split_ifs
      · exact ⟨fun hcon => CallResult.noConfusion hcon, rfl, rfl⟩
      · exact ⟨by simp [callFailed], rfl, rfl⟩

/-- What a system call of a user process can do to memory: write its data pages, or what
`sys_munmap` does. -/
theorem Caller.OnOwnRoot.syscallHandler (h : c.OnOwnRoot shared root s.machine)
    (hring3 : c.task.isRing3 = true) (hring : s.ring.InBounds) (sysNum arg1 arg2 arg3 : ℕ) :
    (c.syscallHandler sysNum arg1 arg2 arg3 s).1 ≠ .panicked ∧
      (c.syscallHandler sysNum arg1 arg2 arg3 s).2.ring.InBounds ∧
      ((c.syscallHandler sysNum arg1 arg2 arg3 s).2.machine =
          (sysMunmap c.arch.format c.task arg1 arg2 s.machine).2 ∨
        (c.syscallHandler sysNum arg1 arg2 arg3 s).2.machine.pmm = s.machine.pmm ∧
          WritesData c.arch.format shared root s.machine.mem
            (c.syscallHandler sysNum arg1 arg2 arg3 s).2.machine.mem) := by
  have hsame : ∀ {r : CallResult × CallState}, r.1 ≠ .panicked → r.2.ring = s.ring →
      r.2.machine = s.machine → r.1 ≠ .panicked ∧ r.2.ring.InBounds ∧
      (r.2.machine = (sysMunmap c.arch.format c.task arg1 arg2 s.machine).2 ∨
        r.2.machine.pmm = s.machine.pmm ∧
          WritesData c.arch.format shared root s.machine.mem r.2.machine.mem) := by
    intro r hresult hkept hmachine
    rw [hkept, hmachine]
    exact ⟨hresult, hring, Or.inr ⟨rfl, WritesData.refl _ _ _ _⟩⟩
  unfold Caller.syscallHandler
  split
  · obtain ⟨hresult, hkept, hmachine⟩ := c.sysWrite_keeps arg1 arg2 arg3 s
    exact hsame hresult hkept hmachine
  · obtain ⟨hresult, hin, hpmm, hwrites⟩ := h.sysRead hring3 hring arg1 arg2 arg3
    exact ⟨hresult, hin, Or.inr ⟨hpmm, hwrites⟩⟩
  · exact ⟨fun hcon => CallResult.noConfusion hcon, hring, Or.inl rfl⟩
  · exact hsame (fun hcon => CallResult.noConfusion hcon) rfl rfl
  · obtain ⟨hresult, hkept, hpmm, hwrites⟩ := h.sysUname hring3 arg1
    rw [hkept]
    exact ⟨hresult, hring, Or.inr ⟨hpmm, hwrites⟩⟩
  · exact hsame (by simp [sysUnknown, callFailed]) rfl rfl

theorem Caller.sysWrite_fault {fd ptr len fault : ℕ}
    (h : (c.sysWrite fd ptr len s).1 = .faulted fault) :
    ptr ≤ fault ∧ fault < ptr + len ∧ c.translate s.machine.mem fault = none := by
  unfold Caller.sysWrite at h
  split_ifs at h
  · exact absurd h (by simp [callFailed])
  · exact absurd h (by simp [callFailed])
  · cases hload : c.loadSlice s.machine.mem len ptr with
    | error addr =>
      rw [hload] at h
      obtain rfl : addr = fault := CallResult.faulted.inj h
      exact c.loadSlice_error len ptr hload
    | ok slice =>
      rw [hload] at h
      dsimp only at h
      split_ifs at h
      exact absurd h (by simp [callFailed])

theorem Caller.OnOwnRoot.sysRead_fault (h : c.OnOwnRoot shared root s.machine)
    (hring3 : c.task.isRing3 = true) (hring : s.ring.InBounds) {fd ptr len fault : ℕ}
    (hfault : (c.sysRead fd ptr len s).1 = .faulted fault) :
    ptr ≤ fault ∧ fault < ptr + len ∧ c.translate s.machine.mem fault = none := by
  unfold Caller.sysRead at hfault
  split_ifs at hfault with hargs hvalid
  · exact absurd hfault (by simp [callFailed])
  · exact absurd hfault (by simp [callFailed])
  · rw [not_or, not_or] at hargs
    rw [Bool.not_eq_true', Bool.not_eq_false] at hvalid
    obtain ⟨-, hrange⟩ := h.range hring3 (Nat.pos_of_ne_zero hargs.2.2) hvalid
    obtain ⟨ring, -, heq, -⟩ := c.readLoop_eq ptr len 0 hring
    have htake : (s.ring.pending.take len).length ≤ len := by simp
    rw [heq] at hfault
    cases hstore : (c.storeSlice (s.ring.pending.take len) (ptr + 0) s.machine.mem).1 with
    | none =>
      rw [hstore] at hfault
      exact absurd hfault (by simp)
    | some addr =>
      rw [hstore] at hfault
      obtain rfl : addr = fault := CallResult.faulted.inj hfault
      obtain ⟨hlow, hhigh, hnone⟩ := c.storeSlice_fault h.active _ _ (ptr + 0) h.isPrivate
        (fun a hlow hhigh => hrange a (by omega) (by omega)) hstore
      exact ⟨by omega, by omega, hnone⟩

theorem Caller.OnOwnRoot.sysUname_fault (h : c.OnOwnRoot shared root s.machine)
    (hring3 : c.task.isRing3 = true) {ptr fault : ℕ}
    (hfault : (c.sysUname ptr s).1 = .faulted fault) :
    ptr ≤ fault ∧ fault < ptr + utsNameSize ∧ c.translate s.machine.mem fault = none := by
  unfold Caller.sysUname at hfault
  split_ifs at hfault with hnull hvalid halign
  · exact absurd hfault (by simp [callFailed])
  · exact absurd hfault (by simp [callFailed])
  · exact absurd hfault (by simp [callFailed])
  · rw [Bool.not_eq_true', Bool.not_eq_false] at hvalid
    obtain ⟨-, hrange⟩ := h.range hring3 (by decide) hvalid
    have hpopulate := c.populate_fault h.active fault c.utsStrings ptr h.isPrivate hrange
    cases hrun : c.populate c.utsStrings ptr s.machine.mem with
    | mk stored m =>
      rw [hrun] at hpopulate hfault
      cases stored with
      | none => exact absurd hfault (by simp)
      | some addr =>
        obtain rfl : addr = fault := CallResult.faulted.inj hfault
        exact hpopulate rfl

/-- The kernel faults in a call only at an address of the buffer that nothing is mapped at. -/
theorem Caller.OnOwnRoot.syscallHandler_fault (h : c.OnOwnRoot shared root s.machine)
    (hring3 : c.task.isRing3 = true) (hring : s.ring.InBounds) {sysNum arg1 arg2 arg3 fault : ℕ}
    (hfault : (c.syscallHandler sysNum arg1 arg2 arg3 s).1 = .faulted fault) :
    ∃ ptr len, callBuffer sysNum arg1 arg2 arg3 = some (ptr, len) ∧
      ptr ≤ fault ∧ fault < ptr + len ∧ c.translate s.machine.mem fault = none := by
  unfold Caller.syscallHandler at hfault
  split at hfault
  · exact ⟨arg2, arg3, rfl, Caller.sysWrite_fault hfault⟩
  · exact ⟨arg2, arg3, rfl, h.sysRead_fault hring3 hring hfault⟩
  · exact absurd hfault (by simp)
  · exact absurd hfault (by simp)
  · exact ⟨arg1, utsNameSize, rfl, h.sysUname_fault hring3 hfault⟩
  · exact absurd hfault (by simp [sysUnknown, callFailed])

end Calls

end MitosOS.Kernel
