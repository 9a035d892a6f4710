import MitosOS.Kernel.Ownership
import MitosOS.Kernel.SystemCalls

/-! What `sys_read` and `sys_write` do to the bytes that a process finds in its buffers. -/
namespace MitosOS.Kernel
open MitosOS.Lib MitosOS.Memory MitosOS.Paging MitosOS.Tasks MitosOS.Drivers

structure Caller.Accepts (c : Caller) (m : Memory) (ptr len : ℕ) (needWrite : Bool) : Prop where
  nonNull : ptr ≠ 0
  nonEmpty : len ≠ 0
  valid : c.validateUserPtr m ptr len needWrite = true

/-- A buffer that a call accepts, and that the kernel can then access. The check alone does not see
to that: it ignores the upper bits of an address. -/
structure Caller.Buffer (c : Caller) (m : Memory) (ptr len : ℕ) (needWrite : Bool) : Prop
    extends c.Accepts m ptr len needWrite where
  mapped : ∀ a, ptr ≤ a → a < ptr + len → (c.translate m a).isSome = true

section Tables
variable {F : Format} {shared : Set (Fin 512)} {root a : ℕ} {m m' : Memory}

theorem pageIsUserAccessible_of_sameTables (hF : F.Lawful) (hsame : SameTables F shared root m m')
    (hv : tableIndex 39 a ∉ shared) (needWrite : Bool) :
    pageIsUserAccessible F m' (root * 4096) a needWrite =
      pageIsUserAccessible F m (root * 4096) a needWrite := by
  have hpath : tablePath a ∈ privatePaths shared :=
    privatePaths_prefixClosed shared _ _ (tablePath_mem hv (tableIndex 12 a))
  unfold pageIsUserAccessible
  rw [walkTables_eq hF, walkTables_eq hF, hsame.walk_eq _ hpath]
  cases ht : (graph F m).walk root (tablePath a) with
  | none => rfl
  | some t =>
    have hentry := entries_congr (hsame _ t hpath (le_refl 3) ht) (tableIndex 12 a)
    rw [Option.map_some]
    dsimp only
    rw [getEntry_frame, getEntry_frame, hentry]

theorem pageIsUserAccessible_read {needWrite : Bool}
    (h : pageIsUserAccessible F m root a needWrite = true) :
    pageIsUserAccessible F m root a false = true := by
  unfold pageIsUserAccessible at h ⊢
  cases hw : walkTables F m root (tablePath a) with
  | none => rw [hw] at h; exact absurd h (by simp)
  | some t =>
    rw [hw] at h
    dsimp only at h ⊢
    rw [Bool.and_eq_true] at h
    rw [h.1, Bool.not_false, Bool.true_or, Bool.and_true]

end Tables

section Slices
variable {c : Caller} {shared : Set (Fin 512)} {root : ℕ}

/-- A slice of private addresses that the MMU translates holds what the process finds there. -/
theorem Caller.loadSlice_userByte {s : Machine} (h : Private c.arch.format shared root s)
    (hactive : c.activeRoot = root * 4096) (len : ℕ) : ∀ addr : ℕ,
    (∀ a, addr ≤ a → a < addr + len →
      tableIndex 39 a ∉ shared ∧ (c.translate s.mem a).isSome = true) →
    ∃ slice, c.loadSlice s.mem len addr = .ok slice ∧ slice.length = len ∧
      ∀ i < len, slice[i]? = userByte c.arch.format s.mem root (addr + i) := by
  induction len with
  | zero =>
    intro addr _
    exact ⟨[], rfl, rfl, fun i hi => absurd hi (Nat.not_lt_zero i)⟩
  | succ len ih =>
    intro addr hrange
    obtain ⟨hv, htranslated⟩ := hrange addr (le_refl _) (by omega)
    obtain ⟨phys, hphys⟩ := Option.isSome_iff_exists.mp htranslated
    obtain ⟨slice, hload, hlen, hbytes⟩ := ih (addr + 1)
      (fun a hlow hhigh => hrange a (by omega) (by omega))
    have hfirst : userByte c.arch.format s.mem root addr = some (s.mem phys) := by
      apply h.userByte_of_translation hv
      rw [← hactive]
      exact hphys
    refine ⟨s.mem phys :: slice, ?_, congrArg (· + 1) hlen, fun i hi => ?_⟩
    · rw [Caller.loadSlice, hphys]
      dsimp only
      rw [hload]
      rfl
    · cases i with
      | zero => rw [List.getElem?_cons_zero, Nat.add_zero, hfirst]
      | succ i =>
        rw [List.getElem?_cons_succ, hbytes i (by omega)]
        congr 1
        omega

theorem Caller.Buffer.range {s : Machine} {ptr len : ℕ} {needWrite : Bool}
    (hb : c.Buffer s.mem ptr len needWrite) (h : c.OnOwnRoot shared root s)
    (hring3 : c.task.isRing3 = true) : ptr + len < 2 ^ 64 ∧ ∀ a, ptr ≤ a → a < ptr + len →
      tableIndex 39 a ∉ shared ∧ (c.translate s.mem a).isSome = true := by
  obtain ⟨hend, hrange⟩ := h.range hring3 (Nat.pos_of_ne_zero hb.nonEmpty) hb.valid
  exact ⟨hend, fun a hlow hhigh => ⟨hrange a hlow hhigh, hb.mapped a hlow hhigh⟩⟩

/-- Writing data pages leaves a buffer usable, also a shorter one, and also for reading only. -/
theorem Caller.Buffer.after {s : Machine} {m : Memory} {ptr len n : ℕ} {needWrite : Bool}
    (hb : c.Buffer s.mem ptr len needWrite) (h : c.OnOwnRoot shared root s)
    (hring3 : c.task.isRing3 = true) (hw : WritesData c.arch.format shared root s.mem m)
    (hpos : n ≠ 0) (hle : n ≤ len) : c.Buffer m ptr n false := by
  obtain ⟨hend, hrange⟩ := hb.range h hring3
  have hsame := hw.sameTables h.isPrivate
  have hvalid := hb.valid
  unfold Caller.validateUserPtr at hvalid
  rw [hring3, Bool.not_true, if_neg Bool.false_ne_true, h.memoryRoot,
    validateUserRange_eq_true (Nat.pos_of_ne_zero hb.nonEmpty)] at hvalid
  obtain ⟨-, hbase, hpages⟩ := hvalid
  refine ⟨⟨hb.nonNull, hpos, ?_⟩, ?_⟩
  · unfold Caller.validateUserPtr
    rw [hring3, Bool.not_true, if_neg Bool.false_ne_true, h.memoryRoot,
      validateUserRange_eq_true (Nat.pos_of_ne_zero hpos)]
    refine ⟨by omega, hbase, fun a hlow hhigh => ?_⟩
    rw [pageIsUserAccessible_of_sameTables c.arch.format_lawful hsame
      (hrange a hlow (by omega)).1]
    exact pageIsUserAccessible_read (hpages a hlow (by omega))
  · intro a hlow hhigh
    obtain ⟨hv, htranslated⟩ := hrange a hlow (by omega)
    unfold Caller.translate at htranslated ⊢
    rw [h.active] at htranslated ⊢
    rwa [h.isPrivate.hardwareTranslation_of_sameTables hsame hv]

end Slices

section Calls
variable {c : Caller} {shared : Set (Fin 512)} {root : ℕ} {s : CallState} {ptr len : ℕ}

theorem Caller.Accepts.sysRead_eq (hb : c.Accepts s.machine.mem ptr len true) :
    c.sysRead 0 ptr len s = c.readLoop ptr len 0 s := by
  unfold Caller.sysRead
  rw [if_neg (by simp [hb.nonNull, hb.nonEmpty]), hb.valid, if_neg (by simp)]

theorem Caller.OnOwnRoot.storeSlice (h : c.OnOwnRoot shared root s.machine)
    (bytes : List (BitVec 8)) (hend : ptr + bytes.length < 2 ^ 64)
    (hrange : ∀ a, ptr ≤ a → a < ptr + bytes.length →
      tableIndex 39 a ∉ shared ∧ (c.translate s.machine.mem a).isSome = true) :
    (c.storeSlice bytes ptr s.machine.mem).1 = none ∧
      WritesData c.arch.format shared root s.machine.mem (c.storeSlice bytes ptr s.machine.mem).2 ∧
      c.Placed shared root s.machine.mem ptr bytes (c.storeSlice bytes ptr s.machine.mem).2 := by
  unfold Caller.translate at hrange
  rw [h.active] at hrange
  obtain ⟨hnone, hplaced⟩ := c.storeSlice_placed h.active _ ptr h.isPrivate hrange hend
  exact ⟨hnone, c.storeSlice_writesData h.active _ ptr h.isPrivate
    (fun a hlow hhigh => (hrange a hlow hhigh).1), hplaced⟩

/-- What `sys_read` delivers into a buffer that it accepts, when the part of it that is filled is
mapped. -/
theorem Caller.Accepts.sysRead (hb : c.Accepts s.machine.mem ptr len true)
    (h : c.OnOwnRoot shared root s.machine) (hring3 : c.task.isRing3 = true)
    (hring : s.ring.InBounds) (hmapped : ∀ a, ptr ≤ a → a < ptr + min len s.ring.pending.length →
      (c.translate s.machine.mem a).isSome = true) :
    ∃ ring m, c.sysRead 0 ptr len s = (.returned (min len s.ring.pending.length),
        { s with ring := ring, machine.mem := m }) ∧
      ring.pending = s.ring.pending.drop len ∧
      WritesData c.arch.format shared root s.machine.mem m ∧
      c.Placed shared root s.machine.mem ptr (s.ring.pending.take len) m := by
  obtain ⟨hend, hrange⟩ := h.range hring3 (Nat.pos_of_ne_zero hb.nonEmpty) hb.valid
  obtain ⟨ring, -, heq, hrest⟩ := c.readLoop_eq ptr len 0 hring
  have hlen : (s.ring.pending.take len).length = min len s.ring.pending.length := List.length_take
  obtain ⟨hnone, hwrites, hplaced⟩ := h.storeSlice (s.ring.pending.take len) (by omega)
    (fun a hlow hhigh => ⟨hrange a hlow (by omega), hmapped a hlow (by omega)⟩)
  rw [Nat.add_zero, hnone] at heq hrest
  rw [Nat.zero_add, Option.elim_none] at heq
  exact ⟨ring, _, hb.sysRead_eq.trans heq, hrest, hwrites, hplaced⟩

/-- The kernel faults at the first address to be filled that is not mapped: the bytes before it have
arrived, and the one for it is lost. -/
theorem Caller.Accepts.sysRead_faulted (hb : c.Accepts s.machine.mem ptr len true)
    (h : c.OnOwnRoot shared root s.machine) (hring3 : c.task.isRing3 = true)
    (hring : s.ring.InBounds) {i : ℕ} (hi : i < min len s.ring.pending.length)
    (hmapped : ∀ a, ptr ≤ a → a < ptr + i → (c.translate s.machine.mem a).isSome = true)
    (hnone : c.translate s.machine.mem (ptr + i) = none) :
    ∃ ring m, c.sysRead 0 ptr len s = (.faulted (ptr + i),
        { s with ring := ring, machine.mem := m }) ∧
      ring.pending = s.ring.pending.drop (i + 1) ∧
      c.Placed shared root s.machine.mem ptr (s.ring.pending.take i) m := by
  obtain ⟨hend, hrange⟩ := h.range hring3 (Nat.pos_of_ne_zero hb.nonEmpty) hb.valid
  obtain ⟨ring, -, heq, hrest⟩ := c.readLoop_eq ptr len 0 hring
  have hlen : (s.ring.pending.take len).length = min len s.ring.pending.length := List.length_take
  have hstore := c.storeSlice_up_to h.active (s.ring.pending.take len) h.isPrivate
    (fun a hlow hhigh => hrange a hlow (by omega)) (by omega) (by omega) hmapped hnone
  rw [List.take_take, Nat.min_eq_left (by omega)] at hstore
  have hfront : (s.ring.pending.take i).length = i := List.length_take_of_le (by omega)
  obtain ⟨-, -, hplaced⟩ := h.storeSlice (s.ring.pending.take i) (by omega)
    (fun a hlow hhigh => ⟨hrange a hlow (by omega), hmapped a hlow (by omega)⟩)
  rw [Nat.add_zero, hstore] at heq hrest
  rw [Option.elim_some] at heq hrest
  refine ⟨ring, _, hb.sysRead_eq.trans heq, ?_, hplaced⟩
  rw [hrest]
  congr 1
  omega

theorem Caller.Buffer.sysWrite (hb : c.Buffer s.machine.mem ptr len false)
    (h : Private c.arch.format shared root s.machine) (hactive : c.activeRoot = root * 4096)
    (hprivate : ∀ a, ptr ≤ a → a < ptr + len → tableIndex 39 a ∉ shared) {fd : ℕ}
    (hfd : fd = 1 ∨ fd = 2) {slice : List (BitVec 8)} (hlen : slice.length = len)
    (hslice : ∀ i < len, userByte c.arch.format s.machine.mem root (ptr + i) = slice[i]?) :
    c.sysWrite fd ptr len s =
      if isUtf8 slice then (.returned len, { s with uart := s.uart ++ uartWriteStr slice })
      else (callFailed, s) := by
  obtain ⟨loaded, hload, hloaded, hbytes⟩ := c.loadSlice_userByte h hactive len ptr
    (fun a hlow hhigh => ⟨hprivate a hlow hhigh, hb.mapped a hlow hhigh⟩)
  have heq : loaded = slice := by
    apply List.ext_getElem?
    intro i
    by_cases hi : i < len
    · rw [hbytes i hi, hslice i hi]
    · rw [List.getElem?_eq_none (by omega), List.getElem?_eq_none (by omega)]
  unfold Caller.sysWrite
  rw [if_neg (by have := hb.nonNull; have := hb.nonEmpty; omega), hb.valid, if_neg (by simp), hload,
    heq]

end Calls

def KernelRun.asCaller (arch : Arch) (k : KernelRun) : Caller where
  arch := arch
  task := k.caller
  activeRoot := k.sched.activeRoot

theorem KernelRun.Inv.onOwnRoot {kernel : ℕ} {k : KernelRun} (h : k.Inv kernel)
    (hexited : k.exited = false) (hring3 : k.caller.isRing3 = true)
    (hactive : k.caller.memoryRoot = k.sched.activeRoot) :
    (k.asCaller .aarch64).OnOwnRoot {0} (rootFrame k.caller) k.machine := by
  obtain ⟨howns, halign⟩ := h.caller_owns hexited hring3
  constructor
  · exact hactive.symm.trans halign
  · exact halign
  · exact h.memory.isPrivate _ _ howns
  · intro a ha needWrite
    exact pageIsUserAccessible_kernel aarch64Format_lawful h.memory.kernel
      (h.memory.sharedEntry _ _ howns) (Set.mem_singleton_iff.mp ha) needWrite

section Traces

def oneProcess : KernelRun :=
  (KernelCall.schedule 0).run kernelStacks (1 * 4096)
    ((KernelCall.spawnFromElf userElf).run kernelStacks (1 * 4096)
      (KernelCall.spawnThread.run kernelStacks (1 * 4096) (.boot 1 kernelMachine)))

theorem oneProcess_run : Relation.ReflTransGen (KernelStep kernelStacks (1 * 4096))
    (KernelRun.boot 1 kernelMachine) oneProcess := by
  have hthread : KernelStep kernelStacks (1 * 4096) (.boot 1 kernelMachine)
      (KernelCall.spawnThread.run kernelStacks (1 * 4096) (.boot 1 kernelMachine)) :=
    ⟨.spawnThread, rfl, rfl⟩
  have hspawn : KernelStep kernelStacks (1 * 4096)
      (KernelCall.spawnThread.run kernelStacks (1 * 4096) (.boot 1 kernelMachine))
      ((KernelCall.spawnFromElf userElf).run kernelStacks (1 * 4096)
        (KernelCall.spawnThread.run kernelStacks (1 * 4096) (.boot 1 kernelMachine))) :=
    ⟨.spawnFromElf userElf, ⟨rfl, userElf_userImage⟩, rfl⟩
  exact ((Relation.ReflTransGen.single hthread).tail hspawn).tail ⟨.schedule 0, trivial, rfl⟩

def typedRing : InputRing where
  buffer := (Vector.replicate bufferSize 0).set 0 0x68 |>.set 1 0x69
  head := 0
  tail := 2

def typedState (s : Machine) : CallState := ⟨s, typedRing, []⟩

theorem typedRing_inBounds : typedRing.InBounds := ⟨by decide, by decide⟩

theorem typedState_pending (s : Machine) : (typedState s).ring.pending = [0x68, 0x69] := by
  change typedRing.pending = _
  decide

theorem oneProcess_onOwnRoot : (oneProcess.asCaller .aarch64).OnOwnRoot {0}
    (rootFrame oneProcess.caller) oneProcess.machine := by
  have hinv := (KernelRun.Inv.boot kernelMachine_kernelRoot).of_run rfl (by decide) oneProcess_run
  exact hinv.onOwnRoot (by decide +kernel) (by decide +kernel) (by decide +kernel)

theorem oneProcess_isRing3 : (oneProcess.asCaller .aarch64).task.isRing3 = true := by
  decide +kernel

theorem oneProcess_buffer :
    (oneProcess.asCaller .aarch64).Buffer oneProcess.machine.mem 0x8000000000 4 true := by
  refine ⟨⟨by decide, by decide, by decide +kernel⟩, fun a hlow hhigh => ?_⟩
  have hmapped : ∀ i : Fin 4, ((oneProcess.asCaller .aarch64).translate oneProcess.machine.mem
      (0x8000000000 + i.val)).isSome = true := by decide +kernel
  have hi := hmapped ⟨a - 0x8000000000, by omega⟩
  rwa [Nat.add_sub_cancel' hlow] at hi

end Traces

end MitosOS.Kernel
