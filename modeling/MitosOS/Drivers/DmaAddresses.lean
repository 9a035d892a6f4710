import MitosOS.Drivers.Ahci
import MitosOS.Drivers.KernelHal
import MitosOS.Paging.PageMap

/-! `KernelHal::virt_to_phys` against the page tables. The subtraction is right in the direct map of
physical memory, and wrong in the window where the kernel image and its boot stack are. -/
namespace MitosOS.Drivers
open MitosOS.Lib MitosOS.Paging

/-- The initial value of `HHDM_OFFSET`, which a Multiboot2 boot keeps. -/
def defaultHhdmOffset : ℕ := 0xFFFF800000000000

def kernelVma : ℕ := 0xFFFFFFFF80000000

def UpperHalf (v : ℕ) : Prop := 0xFFFF800000000000 ≤ v ∧ v < 2 ^ 64

def trampolineLeaf (i : Fin 512) : Entry := BitVec.ofNat 64 (0x83 + i * 0x200000)

/-- An entry as it was written, up to the accessed and dirty bits, which the CPU sets. -/
def AsWritten (e written : Entry) : Prop := e &&& ~~~0x60#64 = written

/-- The upper half as the Multiboot2 trampoline sets it up and every root copies it: the direct map of
the first GiB behind PML4[256], and the same GiB at `KERNEL_VMA`, behind PML4[511]. -/
structure BootWindows (m : Memory) (root : ℕ) : Prop where
  top : ∀ i : Fin 512, 256 ≤ i.val → AsWritten (entries m root i)
    (if i.val = 256 then 0x2003#64 else if i.val = 511 then 0x4003#64 else 0#64)
  directPdpt : ∀ i : Fin 512, AsWritten (entries m 2 i) (if i.val = 0 then 0x3003#64 else 0#64)
  imagePdpt : ∀ i : Fin 512, AsWritten (entries m 4 i) (if i.val = 510 then 0x5003#64 else 0#64)
  directPd : ∀ i, AsWritten (entries m 3 i) (trampolineLeaf i)
  imagePd : ∀ i, AsWritten (entries m 5 i) (trampolineLeaf i)

section AsWritten
variable {e written : Entry}

theorem AsWritten.isPresent (h : AsWritten e written) :
    x86Format.isPresent e = x86Format.isPresent written := by
  have hbit : (~~~0x60#64).getLsbD 0 = true := by decide
  rw [x86Format_isPresent, X86.isPresent_eq, X86.isPresent_eq, ← h, BitVec.getLsbD_and, hbit,
    Bool.and_true]

theorem AsWritten.isBlock (h : AsWritten e written) :
    x86Format.isBlock e = x86Format.isBlock written := by
  have hbit : (~~~0x60#64).getLsbD 7 = true := by decide
  rw [x86Format_isBlock, X86.isHuge_eq, X86.isHuge_eq, ← h, BitVec.getLsbD_and, hbit, Bool.and_true]

theorem AsWritten.physicalAddress (h : AsWritten e written) :
    x86Format.physicalAddress e = x86Format.physicalAddress written := by
  have hmask : ~~~0x60#64 &&& x86Format.addressMask = x86Format.addressMask := by decide
  rw [Format.physicalAddress, Format.physicalAddress, ← h, BitVec.and_assoc, hmask]

end AsWritten

section Pointwise
variable {hal : KernelHal} {v p : ℕ}

theorem exists_virtToPhys (hal : KernelHal) (v : ℕ) :
    ∃ q < 2 ^ 64, hal.virtToPhys v = some q := ⟨_, wrap64_lt _, rfl⟩

/-- The subtraction finds the address whose direct-map address is `v`. -/
theorem virtToPhys_eq_some_iff (hv : v < 2 ^ 64) (hp : p < 2 ^ 64) :
    hal.virtToPhys v = some p ↔ v = wrap64 (p + hal.physMemOffset) := by
  have hoff := Nat.mod_lt hal.physMemOffset (show 0 < 2 ^ 64 by decide)
  have hadd : wrap64 (p + hal.physMemOffset) = (p + hal.physMemOffset % 2 ^ 64) % 2 ^ 64 :=
    (Nat.add_mod_mod p _ _).symm
  rw [KernelHal.virtToPhys, Option.some_inj, hadd, wrap64]
  generalize hal.physMemOffset % 2 ^ 64 = off at hoff ⊢
  omega

theorem translateAddr_lt {m : Memory} {root : ℕ} (h : translateAddr x86Format m root v = some p) :
    p < 2 ^ 64 := by
  have haddr : ∀ e : Entry, x86Format.physicalAddress e < 2 ^ 52 := by
    intro e
    have hle : x86Format.physicalAddress e ≤ 0x000FFFFFFFFFF000 := Nat.and_le_right
    omega
  have hlarge : ∀ (e : Entry) (n mask : ℕ), mask < 2 ^ 52 →
      alignDown (x86Format.physicalAddress e) n + (v &&& mask) < 2 ^ 64 := by
    intro e n mask land_0x1FFFFF
    have hbase := haddr e
    have hdown := alignDown_le (x86Format.physicalAddress e) n
    have hoff : v &&& mask ≤ mask := Nat.and_le_right
    omega
  simp only [translateAddr] at h
  split_ifs at h
  · exact Option.some.inj h ▸ hlarge _ _ _ (by decide)
  · exact Option.some.inj h ▸ hlarge _ _ _ (by decide)
  · rw [← Option.some.inj h]
    have hoff : v &&& 0xFFF ≤ 0xFFF := Nat.and_le_right
    have hbase := haddr (getEntry m (x86Format.physicalAddress (getEntry m
      (x86Format.physicalAddress (getEntry m (x86Format.physicalAddress (getEntry m root
        (tableIndex 39 v))) (tableIndex 30 v))) (tableIndex 21 v))) (tableIndex 12 v))
    omega

end Pointwise

section Windows
variable {m : Memory} {root : ℕ} {v p : ℕ}

theorem trampolineLeaf_large (i : Fin 512) :
    x86Format.isPresent (trampolineLeaf i) = true ∧ x86Format.isBlock (trampolineLeaf i) = true ∧
      x86Format.physicalAddress (trampolineLeaf i) = i * 0x200000 := by
  revert i
  decide +kernel

theorem translateAddr_of_leaf {e0 e1 : Entry} (pdpt pd : ℕ)
    (h0 : AsWritten (entries m root (tableIndex 39 v)) e0) (hp0 : x86Format.isPresent e0 = true)
    (ha0 : x86Format.physicalAddress e0 = pdpt * 4096)
    (h1 : AsWritten (entries m pdpt (tableIndex 30 v)) e1) (hp1 : x86Format.isPresent e1 = true)
    (hb1 : x86Format.isBlock e1 = false) (ha1 : x86Format.physicalAddress e1 = pd * 4096)
    (h2 : AsWritten (entries m pd (tableIndex 21 v)) (trampolineLeaf (tableIndex 21 v))) :
    translateAddr x86Format m (root * 4096) v =
      some (tableIndex 21 v * 0x200000 + v % 0x200000) := by
  obtain ⟨hp2, hb2, ha2⟩ := trampolineLeaf_large (tableIndex 21 v)
  have halign : alignDown (tableIndex 21 v * 0x200000) 0x200000 = tableIndex 21 v * 0x200000 := by
    rw [alignDown, Nat.mul_mod_left, Nat.sub_zero]
  simp only [translateAddr, getEntry_frame, h0.isPresent, hp0, h0.physicalAddress, ha0, h1.isPresent,
    hp1, h1.isBlock, hb1, h1.physicalAddress, ha1, h2.isPresent, hp2, h2.isBlock, hb2,
    h2.physicalAddress, ha2, Bool.not_true, Bool.false_eq_true, if_false, if_true, land_0x1FFFFF,
    halign]

theorem translateAddr_of_empty (h : AsWritten (entries m root (tableIndex 39 v)) 0#64) :
    translateAddr x86Format m (root * 4096) v = none := by
  simp only [translateAddr, getEntry_frame, h.isPresent, x86Format_lawful.isPresent_zero,
    Bool.not_false, if_true]

theorem translateAddr_of_emptyPdpt {e0 : Entry} (pdpt : ℕ)
    (h0 : AsWritten (entries m root (tableIndex 39 v)) e0) (hp0 : x86Format.isPresent e0 = true)
    (ha0 : x86Format.physicalAddress e0 = pdpt * 4096)
    (h1 : AsWritten (entries m pdpt (tableIndex 30 v)) 0#64) :
    translateAddr x86Format m (root * 4096) v = none := by
  simp only [translateAddr, getEntry_frame, h0.isPresent, hp0, h0.physicalAddress, ha0, h1.isPresent,
    x86Format_lawful.isPresent_zero, Bool.not_true, Bool.not_false, Bool.false_eq_true, if_false,
    if_true]

theorem BootWindows.translateAddr_direct (h : BootWindows m root) (hlow : defaultHhdmOffset ≤ v)
    (hhigh : v < defaultHhdmOffset + 2 ^ 30) :
    translateAddr x86Format m (root * 4096) v = some (v - defaultHhdmOffset) := by
  have h39 := tableIndex_val 39 v
  have h30 := tableIndex_val 30 v
  have h21 := tableIndex_val 21 v
  unfold defaultHhdmOffset at *
  have htop := h.top (tableIndex 39 v) (by omega)
  have hpdpt := h.directPdpt (tableIndex 30 v)
  rw [if_pos (by omega)] at htop hpdpt
  rw [translateAddr_of_leaf 2 3 htop (by decide) (by decide) hpdpt (by decide)
    (by decide) (by decide) (h.directPd _), h21, Option.some_inj]
  omega

theorem BootWindows.translateAddr_image (h : BootWindows m root) (hlow : kernelVma ≤ v)
    (hhigh : v < kernelVma + 2 ^ 30) :
    translateAddr x86Format m (root * 4096) v = some (v - kernelVma) := by
  have h39 := tableIndex_val 39 v
  have h30 := tableIndex_val 30 v
  have h21 := tableIndex_val 21 v
  unfold kernelVma at *
  have htop := h.top (tableIndex 39 v) (by omega)
  have hpdpt := h.imagePdpt (tableIndex 30 v)
  rw [if_neg (by omega), if_pos (by omega)] at htop
  rw [if_pos (by omega)] at hpdpt
  rw [translateAddr_of_leaf 4 5 htop (by decide) (by decide) hpdpt (by decide)
    (by decide) (by decide) (h.imagePd _), h21, Option.some_inj]
  omega

theorem BootWindows.window_of_translateAddr (h : BootWindows m root) (hv : UpperHalf v)
    (hp : translateAddr x86Format m (root * 4096) v = some p) :
    v < defaultHhdmOffset + 2 ^ 30 ∨ kernelVma ≤ v ∧ v < kernelVma + 2 ^ 30 := by
  have h39 := tableIndex_val 39 v
  have h30 := tableIndex_val 30 v
  by_contra hout
  unfold UpperHalf defaultHhdmOffset kernelVma at *
  have htop := h.top (tableIndex 39 v) (by omega)
  split_ifs at htop with hdirect himage
  · have hpdpt := h.directPdpt (tableIndex 30 v)
    rw [if_neg (by omega)] at hpdpt
    rw [translateAddr_of_emptyPdpt 2 htop (by decide) (by decide) hpdpt] at hp
    exact absurd hp (by simp)
  · have hpdpt := h.imagePdpt (tableIndex 30 v)
    rw [if_neg (by omega)] at hpdpt
    rw [translateAddr_of_emptyPdpt 4 htop (by decide) (by decide) hpdpt] at hp
    exact absurd hp (by simp)
  · rw [translateAddr_of_empty htop] at hp
    exact absurd hp (by simp)

/-- In the boot windows the subtraction is right in the direct map and nowhere else. -/
theorem BootWindows.virtToPhys_iff (h : BootWindows m root) {hal : KernelHal}
    (hoff : hal.physMemOffset = defaultHhdmOffset) (hv : UpperHalf v)
    (hp : translateAddr x86Format m (root * 4096) v = some p) :
    hal.virtToPhys v = some p ↔ v < defaultHhdmOffset + 2 ^ 30 := by
  rw [virtToPhys_eq_some_iff hv.2 (translateAddr_lt hp), hoff]
  rcases h.window_of_translateAddr hv hp with hdirect | ⟨hlow, hhigh⟩
  · refine iff_of_true ?_ hdirect
    rw [h.translateAddr_direct hv.1 hdirect] at hp
    have hlow : defaultHhdmOffset ≤ v := hv.1
    rw [← Option.some.inj hp, Nat.sub_add_cancel hlow, wrap64_of_lt hv.2]
  · rw [h.translateAddr_image hlow hhigh] at hp
    rw [← Option.some.inj hp]
    unfold wrap64 kernelVma defaultHhdmOffset at *
    omega

end Windows

section Prdt
variable {vtp vtp' : ℕ → Option ℕ} {buf : Buffer}

theorem buildPrdtFrom_congr (n : ℕ) : ∀ {offset : ℕ},
    (∀ o, offset ≤ o → o < buf.len → vtp (wrap64 (buf.addr + o)) = vtp' (wrap64 (buf.addr + o))) →
    buildPrdtFrom vtp buf n offset = buildPrdtFrom vtp' buf n offset := by
  induction n with
  | zero => exact fun _ => rfl
  | succ n ih =>
    intro offset h
    rw [buildPrdtFrom, buildPrdtFrom]
    split_ifs with hlt
    · dsimp only
      rw [h offset (le_refl _) hlt]
      rw [ih fun o ho hlen => h o ((Nat.le_add_right _ _).trans ho) hlen]
    · rfl

theorem buildPrdt_congr
    (h : ∀ o < buf.len, vtp (wrap64 (buf.addr + o)) = vtp' (wrap64 (buf.addr + o))) :
    buildPrdt vtp buf = buildPrdt vtp' buf := by
  rw [buildPrdt, buildPrdt, buildPrdtFrom_congr prdtEntries fun o _ ho => h o ho]

theorem buildPrdt_head {l : List HbaPrdtEntry} {phys : ℕ} (hpos : 0 < buf.len)
    (haddr : buf.addr < 2 ^ 64) (hphys : vtp buf.addr = some phys) (h : buildPrdt vtp buf = .ok l) :
    l.head? = some (prdtEntry phys (min (4096 - buf.addr % 4096) buf.len)) := by
  unfold buildPrdt at h
  rw [if_neg (Nat.ne_of_gt hpos)] at h
  split_ifs at h
  rw [prdtEntries, buildPrdtFrom, if_pos hpos] at h
  dsimp only at h
  rw [Nat.add_zero, wrap64_of_lt haddr, hphys, Nat.sub_zero] at h
  dsimp only at h
  split at h
  · exact absurd h (by simp)
  · rw [← Except.ok.inj h, List.head?_cons]

theorem prdtEntry_inj {p p' chunk : ℕ} (hp : p < 2 ^ 64) (hp' : p' < 2 ^ 64)
    (h : prdtEntry p chunk = prdtEntry p' chunk) : p = p' := by
  have hlow := congrArg (fun e => e.dba.toNat) h
  have hhigh := congrArg (fun e => e.dbau.toNat) h
  simp only [prdtEntry, BitVec.toNat_ofNat] at hlow hhigh
  omega

end Prdt

/-- With the windows of a Multiboot2 boot `virt_to_phys` is right in the direct map and wrong at every
address of the kernel image, and no other offset would do for both. For any root it agrees on the
kernel addresses exactly when they are direct-map addresses; buffers of such addresses get the right
PRDT and others do not. -/
theorem virtToPhys_agrees_iff (hal : KernelHal) (m : Memory) (root : ℕ) :
    (∀ R, root = R * 4096 → BootWindows m R → hal.physMemOffset = defaultHhdmOffset →
      ∀ v p, UpperHalf v → translateAddr x86Format m root v = some p →
        (hal.virtToPhys v = some p ↔ v < defaultHhdmOffset + 2 ^ 30)) ∧
    (∀ R, root = R * 4096 → BootWindows m R → ¬ ∀ v p, UpperHalf v →
      translateAddr x86Format m root v = some p →
        hal.virtToPhys v = none ∨ hal.virtToPhys v = some p) ∧
    ((∀ v p, UpperHalf v → translateAddr x86Format m root v = some p →
        hal.virtToPhys v = none ∨ hal.virtToPhys v = some p) ↔
      ∀ v p, UpperHalf v → translateAddr x86Format m root v = some p →
        v = wrap64 (p + hal.physMemOffset)) ∧
    (∀ buf : Buffer, (∀ o < buf.len, ∃ p,
        translateAddr x86Format m root (wrap64 (buf.addr + o)) = some p ∧
          wrap64 (buf.addr + o) = wrap64 (p + hal.physMemOffset)) →
      buildPrdt hal.virtToPhys buf = buildPrdt (translateAddr x86Format m root) buf) ∧
    (∀ (buf : Buffer) (p : ℕ), 0 < buf.len → buf.addr < 2 ^ 64 →
      translateAddr x86Format m root buf.addr = some p →
      buf.addr ≠ wrap64 (p + hal.physMemOffset) →
      ∀ l, buildPrdt hal.virtToPhys buf = .ok l →
        l.head? ≠ some (prdtEntry p (min (4096 - buf.addr % 4096) buf.len))) := by
  have hexact : (∀ v p, UpperHalf v → translateAddr x86Format m root v = some p →
        hal.virtToPhys v = none ∨ hal.virtToPhys v = some p) ↔
      ∀ v p, UpperHalf v → translateAddr x86Format m root v = some p →
        v = wrap64 (p + hal.physMemOffset) := by
    refine forall_congr' fun v => forall_congr' fun p => imp_congr_right fun hv =>
      imp_congr_right fun hp => ?_
    rw [← virtToPhys_eq_some_iff hv.2 (translateAddr_lt hp)]
    refine or_iff_right fun hnone => ?_
    obtain ⟨q, -, hsome⟩ := exists_virtToPhys hal v
    rw [hnone] at hsome
    exact absurd hsome (by simp)
  refine ⟨?_, ?_, hexact, ?_, ?_⟩
  · rintro R rfl hwindows hoff v p hv hp
    exact hwindows.virtToPhys_iff hoff hv hp
  · rintro R rfl hwindows hagrees
    rw [hexact] at hagrees
    -- both windows start at physical address 0
    have hdirect := hagrees defaultHhdmOffset 0 ⟨by decide, by decide⟩
      (hwindows.translateAddr_direct (by decide) (by decide))
    have himage := hagrees kernelVma 0 ⟨by decide, by decide⟩
      (hwindows.translateAddr_image (by decide) (by decide))
    exact absurd (hdirect.trans himage.symm) (by decide)
  · intro buf hbuf
    apply buildPrdt_congr
    intro o ho
    obtain ⟨p, hp, hdirect⟩ := hbuf o ho
    rw [hp, virtToPhys_eq_some_iff (wrap64_lt _) (translateAddr_lt hp)]
    exact hdirect
  · intro buf p hpos haddr hp hindirect l hl hhead
    obtain ⟨q, hq, hsome⟩ := exists_virtToPhys hal buf.addr
    have hentry := buildPrdt_head hpos haddr hsome hl
    rw [hhead, Option.some_inj] at hentry
    have heq := prdtEntry_inj (translateAddr_lt hp) hq hentry
    apply hindirect
    rw [← virtToPhys_eq_some_iff haddr (translateAddr_lt hp), heq, hsome]

section Identify

/-- Entry `i` of frame `t` as the trampoline writes it. -/
def trampolineWord (t i : ℕ) : BitVec 64 :=
  if t = 1 then if i = 0 ∨ i = 256 then 0x2003#64 else if i = 511 then 0x4003#64 else 0#64
  else if t = 2 then if i = 0 then 0x3003#64 else 0#64
  else if t = 4 then if i = 510 then 0x5003#64 else 0#64
  else if t = 3 ∨ t = 5 then BitVec.ofNat 64 (0x83 + i * 0x200000)
  else 0#64

/-- Memory with the tables of the Multiboot2 trampoline in frames 1 to 5. -/
def trampolineTables : Memory := Memory.ofWords fun k => trampolineWord (k / 512) (k % 512)

theorem entries_trampolineTables (t : ℕ) (i : Fin 512) :
    entries trampolineTables t i = trampolineWord t i := by
  have hi := i.isLt
  have haddr : t * 4096 + 8 * i = 8 * (t * 512 + i) := by omega
  rw [entries, getEntry, trampolineTables, haddr, Memory.load64_ofWords,
    show (t * 512 + i) / 512 = t by omega, show (t * 512 + i) % 512 = i by omega]

theorem trampolineWord_asWritten (t : ℕ) (i : Fin 512) :
    AsWritten (entries trampolineTables t i) (trampolineWord t i) := by
  have hleaf : ∀ i : Fin 512, BitVec.ofNat 64 (0x83 + i * 0x200000) &&& ~~~0x60#64 =
      BitVec.ofNat 64 (0x83 + i * 0x200000) := by decide +kernel
  rw [entries_trampolineTables, AsWritten, trampolineWord]
  split_ifs
  all_goals first | exact hleaf i | decide

theorem bootWindows_trampolineTables : BootWindows trampolineTables 1 where
  top i hi := by
    have hne : i.val ≠ 0 := by omega
    have hword := trampolineWord_asWritten 1 i
    rw [trampolineWord, if_pos rfl] at hword
    simpa only [hne, false_or] using hword
  directPdpt := trampolineWord_asWritten 2
  imagePdpt := trampolineWord_asWritten 4
  directPd := trampolineWord_asWritten 3
  imagePd := trampolineWord_asWritten 5

/-- The sector buffer of `identify`, on the boot stack in the kernel image. -/
def identifyBuffer : Buffer := ⟨kernelVma + 0x300000, 512⟩

/-- `identify` hands the device an address far from its buffer. -/
theorem identify_prdt_elsewhere :
    BootWindows trampolineTables 1 ∧
      translateAddr x86Format trampolineTables (1 * 4096) identifyBuffer.addr = some 0x300000 ∧
      buildPrdt (translateAddr x86Format trampolineTables (1 * 4096)) identifyBuffer =
        .ok [prdtEntry 0x300000 512] ∧
      (KernelHal.mk defaultHhdmOffset).virtToPhys identifyBuffer.addr = some 0x7FFF80300000 ∧
      buildPrdt (KernelHal.mk defaultHhdmOffset).virtToPhys identifyBuffer =
        .ok [prdtEntry 0x7FFF80300000 512] := by
  have htranslate : translateAddr x86Format trampolineTables (1 * 4096) identifyBuffer.addr =
      some 0x300000 :=
    bootWindows_trampolineTables.translateAddr_image (by decide) (by decide)
  refine ⟨bootWindows_trampolineTables, htranslate, ?_, by decide, by decide⟩
  have hfirst : wrap64 (identifyBuffer.addr + 0) = identifyBuffer.addr := by decide
  rw [buildPrdt, if_neg (by decide), if_neg (by decide), prdtEntries, buildPrdtFrom,
    if_pos (by decide)]
  dsimp only
  rw [hfirst, htranslate]
  rfl

end Identify

end MitosOS.Drivers
