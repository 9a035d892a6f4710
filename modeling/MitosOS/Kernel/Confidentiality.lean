import MitosOS.Kernel.Isolation

/-! System calls read nothing but the caller's own pages: two systems that agree on the frames of the
running process answer it in the same way, whatever else is in their memories. -/
namespace MitosOS.Kernel
open MitosOS.Lib MitosOS.Memory MitosOS.Paging MitosOS.Elf MitosOS.Tasks MitosOS.Drivers

structure Agree (F : Format) (shared : Set (Fin 512)) (root : ℕ) (s₁ s₂ : Machine) : Prop where
  first : Private F shared root s₁
  second : Private F shared root s₂
  mem : ∀ x, x / 4096 ∈ owned F shared s₁.mem root → s₂.mem x = s₁.mem x

/-- Two input rings that hold the same bytes, wherever in their buffers these are. -/
structure InputRing.SameInput (r₁ r₂ : InputRing) : Prop where
  first : r₁.InBounds
  second : r₂.InBounds
  pending : r₂.pending = r₁.pending

structure CallState.Agree (F : Format) (shared : Set (Fin 512)) (root : ℕ) (s₁ s₂ : CallState) :
    Prop where
  machine : Kernel.Agree F shared root s₁.machine s₂.machine
  ring : s₁.ring.SameInput s₂.ring
  uart : s₂.uart = s₁.uart

section Memories
variable {arch : Arch} {F : Format} {shared : Set (Fin 512)} {root a : ℕ} {s₁ s₂ : Machine}

theorem Agree.sameTables (h : Agree F shared root s₁ s₂) :
    SameTables F shared root s₁.mem s₂.mem :=
  fun q _ hq _ ht x hx => h.mem x ⟨q, hq, hx ▸ ht⟩

theorem Agree.translation (h : Agree arch.format shared root s₁ s₂) (hv : tableIndex 39 a ∉ shared) :
    hardwareTranslation arch s₂.mem (root * 4096) a =
      hardwareTranslation arch s₁.mem (root * 4096) a :=
  h.first.hardwareTranslation_of_sameTables h.sameTables hv

theorem owned_of_translation (h : Private arch.format shared root s₁)
    (hv : tableIndex 39 a ∉ shared) {phys : ℕ}
    (htr : hardwareTranslation arch s₁.mem (root * 4096) a = some phys) :
    phys / 4096 ∈ owned arch.format shared s₁.mem root := by
  obtain ⟨d, hd, rfl⟩ := h.exists_frame hv htr
  have hframe : (d * 4096 + a % 4096) / 4096 = d := by
    have hlt := mod_page_lt a
    omega
  rw [hframe]
  exact ⟨_, leafPath_mem (topIndex_pageNumber a ▸ hv), hd⟩

theorem Agree.store (h : Agree arch.format shared root s₁ s₂) (hv : tableIndex 39 a ∉ shared)
    {phys : ℕ} (htr : hardwareTranslation arch s₁.mem (root * 4096) a = some phys)
    (byte : BitVec 8) :
    Agree arch.format shared root { s₁ with mem := s₁.mem.blit phys [byte] }
      { s₂ with mem := s₂.mem.blit phys [byte] } := by
  have hfirst := h.first.writesData_store byte hv htr
  have hsecond := h.second.writesData_store byte hv ((h.translation hv).trans htr)
  refine ⟨hfirst.isPrivate h.first, hsecond.isPrivate h.second, fun x hx => ?_⟩
  dsimp only at hx ⊢
  rw [(hfirst.sameTables h.first).owned_eq] at hx
  rw [blit_singleton_apply, blit_singleton_apply, h.mem x hx]

/-- Two checks of a range agree: a page that the process shares fails both. -/
theorem Agree.validateUserRange (h : Agree F shared root s₁ s₂) (hF : F.Lawful)
    {needWrite : Bool}
    (hfirst : ∀ a, tableIndex 39 a ∈ shared →
      pageIsUserAccessible F s₁.mem (root * 4096) a needWrite = false)
    (hsecond : ∀ a, tableIndex 39 a ∈ shared →
      pageIsUserAccessible F s₂.mem (root * 4096) a needWrite = false) (ptr len : ℕ) :
    validateUserRange F s₂.mem (root * 4096) ptr len needWrite =
      validateUserRange F s₁.mem (root * 4096) ptr len needWrite := by
  have hpage : ∀ a, pageIsUserAccessible F s₂.mem (root * 4096) a needWrite =
      pageIsUserAccessible F s₁.mem (root * 4096) a needWrite := by
    intro a
    by_cases hv : tableIndex 39 a ∈ shared
    · rw [hfirst a hv, hsecond a hv]
    · exact pageIsUserAccessible_of_sameTables hF h.sameTables hv needWrite
  rcases Nat.eq_zero_or_pos len with rfl | hpos
  · unfold Paging.validateUserRange
    rw [if_pos rfl, if_pos rfl]
  · rw [Bool.eq_iff_iff, validateUserRange_eq_true hpos, validateUserRange_eq_true hpos]
    simp only [hpage]

end Memories

section Slices
variable {c : Caller} {shared : Set (Fin 512)} {root : ℕ}

theorem Agree.loadSlice {s₁ s₂ : Machine} (h : Agree c.arch.format shared root s₁ s₂)
    (hactive : c.activeRoot = root * 4096) (len : ℕ) : ∀ addr : ℕ,
    (∀ a, addr ≤ a → a < addr + len → tableIndex 39 a ∉ shared) →
    c.loadSlice s₂.mem len addr = c.loadSlice s₁.mem len addr := by
  induction len with
  | zero => exact fun _ _ => rfl
  | succ len ih =>
    intro addr hrange
    have hv := hrange addr (le_refl _) (by omega)
    have htranslate : c.translate s₂.mem addr = c.translate s₁.mem addr := by
      rw [Caller.translate, Caller.translate, hactive, h.translation hv]
    rw [Caller.loadSlice, Caller.loadSlice, htranslate]
    cases htr : c.translate s₁.mem addr with
    | none => rfl
    | some phys =>
      rw [Caller.translate, hactive] at htr
      have hbyte := h.mem phys (owned_of_translation h.first hv htr)
      dsimp only
      rw [ih (addr + 1) (fun a hlow hhigh => hrange a (by omega) (by omega)), hbyte]

theorem Agree.storeSlice (hactive : c.activeRoot = root * 4096) (bytes : List (BitVec 8)) :
    ∀ (addr : ℕ) {s₁ s₂ : Machine}, Agree c.arch.format shared root s₁ s₂ →
    (∀ a, addr ≤ a → a < addr + bytes.length → tableIndex 39 a ∉ shared) →
    (c.storeSlice bytes addr s₂.mem).1 = (c.storeSlice bytes addr s₁.mem).1 ∧
      Agree c.arch.format shared root { s₁ with mem := (c.storeSlice bytes addr s₁.mem).2 }
        { s₂ with mem := (c.storeSlice bytes addr s₂.mem).2 } := by
  induction bytes with
  | nil => exact fun _ _ _ h _ => ⟨rfl, h⟩
  | cons byte bytes ih =>
    intro addr s₁ s₂ h hrange
    rw [List.length_cons] at hrange
    have hv := hrange addr (le_refl _) (by omega)
    have htranslate : c.translate s₂.mem addr = c.translate s₁.mem addr := by
      rw [Caller.translate, Caller.translate, hactive, h.translation hv]
    rw [Caller.storeSlice, Caller.storeSlice, htranslate]
    cases htr : c.translate s₁.mem addr with
    | none => exact ⟨rfl, h⟩
    | some phys =>
      rw [Caller.translate, hactive] at htr
      exact ih (addr + 1) (h.store hv htr byte)
        (fun a hlow hhigh => hrange a (by omega) (by omega))

theorem Agree.populate (hactive : c.activeRoot = root * 4096) (fields : List String) :
    ∀ (addr : ℕ) {s₁ s₂ : Machine}, Agree c.arch.format shared root s₁ s₂ →
    (∀ a, addr ≤ a → a < addr + utsFieldSize * fields.length → tableIndex 39 a ∉ shared) →
    (c.populate fields addr s₂.mem).1 = (c.populate fields addr s₁.mem).1 ∧
      Agree c.arch.format shared root { s₁ with mem := (c.populate fields addr s₁.mem).2 }
        { s₂ with mem := (c.populate fields addr s₂.mem).2 } := by
  induction fields with
  | nil => exact fun _ _ _ h _ => ⟨rfl, h⟩
  | cons field fields ih =>
    intro addr s₁ s₂ h hrange
    rw [List.length_cons, Nat.mul_succ] at hrange
    have hlen := copyStr_length_le (textBytes field)
    obtain ⟨hfault, hagree⟩ := h.storeSlice hactive (copyStr utsFieldSize (textBytes field)) addr
      (fun a hlow hhigh => hrange a hlow (by omega))
    rw [Caller.populate, Caller.populate]
    cases hrun₁ : c.storeSlice (copyStr utsFieldSize (textBytes field)) addr s₁.mem with
    | mk fault₁ m₁ =>
    cases hrun₂ : c.storeSlice (copyStr utsFieldSize (textBytes field)) addr s₂.mem with
    | mk fault₂ m₂ =>
    rw [hrun₁, hrun₂] at hfault hagree
    dsimp only at hfault hagree
    subst hfault
    cases fault₂ with
    | some fault => exact ⟨rfl, hagree⟩
    | none => exact ih (addr + utsFieldSize) hagree (fun a hlow hhigh => hrange a (by omega) (by omega))

end Slices

section Munmap
variable {F : Format} {shared : Set (Fin 512)} {R addr : ℕ} {s₁ s₂ : Machine}

theorem LeafSlot.walk_leafPath {s : Machine} {t d : ℕ}
    (hl : LeafSlot F shared R s (tablePath addr) t (tableIndex 12 addr))
    (hleaf : graph F s.mem t (tableIndex 12 addr) = some d) :
    (graph F s.mem).walk R (leafPath (pageNumber addr)) = some d := by
  rw [leafPath_pageNumber, PathGraph.walk_concat_of_eq hl.walk, hleaf]

theorem setEntry_agree {m₁ m₂ : Memory} {x : ℕ} (h : m₂ x = m₁ x) (table : ℕ) (i : Fin 512)
    (e : Entry) : setEntry m₂ table i e x = setEntry m₁ table i e x := by
  unfold setEntry Memory.store64
  rw [h]

theorem Agree.munmapPage (hF : F.Lawful) (h : Agree F shared R s₁ s₂)
    (hv : tableIndex 39 addr ∉ shared) (halign : addr % 4096 = 0) :
    Agree F shared R (munmapPage F (R * 4096) addr s₁) (munmapPage F (R * 4096) addr s₂) := by
  have hfirst := (munmapPage_confined hF h.first.confined hv).isPrivate
  have hsecond := (munmapPage_confined hF h.second.confined hv).isPrivate
  have hpath : leafPath (pageNumber addr) ∈ privatePaths shared :=
    leafPath_mem (topIndex_pageNumber addr ▸ hv)
  have hwalk := h.sameTables.walk_eq _ hpath
  rcases munmapPage_cases hF h.first hv with ⟨heq₁, -, hnone₁⟩ | ⟨t₁, d₁, hl₁, hleaf₁, heq₁, -⟩
  · rcases munmapPage_cases hF h.second hv with ⟨heq₂, -, -⟩ | ⟨t₂, d₂, hl₂, hleaf₂, -, -⟩
    · rw [heq₁, heq₂]
      exact h
    · have hnone := represented_eq_none_iff.mp (hnone₁ halign)
      rw [LeafSlot.walk_leafPath hl₂ hleaf₂, hnone] at hwalk
      exact absurd hwalk (by simp)
  · rcases munmapPage_cases hF h.second hv with ⟨-, -, hnone₂⟩ | ⟨t₂, d₂, hl₂, hleaf₂, heq₂, -⟩
    · have hnone := represented_eq_none_iff.mp (hnone₂ halign)
      rw [LeafSlot.walk_leafPath hl₁ hleaf₁, hnone] at hwalk
      exact absurd hwalk (by simp)
    · have htable : t₂ = t₁ := by
        have hsame := h.sameTables.walk_eq _ (privatePaths_prefixClosed shared _ _ hl₁.mem)
        rw [hl₁.walk, hl₂.walk] at hsame
        exact Option.some.inj hsame
      subst htable
      obtain ⟨-, -, -, hafter⟩ := h.first.confined.detach hF hl₁ hleaf₁
      refine ⟨hfirst, hsecond, fun x hx => ?_⟩
      rw [heq₁, vmmFreeFrame_mem] at hx ⊢
      rw [heq₂, vmmFreeFrame_mem]
      obtain ⟨p, hp, hpx⟩ := hx
      rw [hafter p hp] at hpx
      split_ifs at hpx
      exact setEntry_agree (h.mem x ⟨p, hp, hpx⟩) _ _ _

theorem Agree.munmapPages (hF : F.Lawful) (n : ℕ) : ∀ {addr : ℕ} {s₁ s₂ : Machine},
    Agree F shared R s₁ s₂ → (∀ k < n, tableIndex 39 (addr + k * 0x1000) ∉ shared) →
    addr % 4096 = 0 →
    Agree F shared R (munmapPages F (R * 4096) n addr s₁) (munmapPages F (R * 4096) n addr s₂) := by
  induction n with
  | zero => exact fun h _ _ => h
  | succ n ih =>
    intro addr s₁ s₂ h hpages halign
    obtain ⟨hv, hrest⟩ := private_pages_succ hpages
    exact ih (h.munmapPage hF hv halign) hrest (by omega)

end Munmap

section Calls
variable {c : Caller} {shared : Set (Fin 512)} {root : ℕ} {s₁ s₂ : CallState}

theorem InputRing.SameInput.dequeueByte {r₁ r₂ : InputRing} (h : r₁.SameInput r₂) :
    r₁.dequeueByte = some (none, r₁) ∧ r₂.dequeueByte = some (none, r₂) ∨
    ∃ byte r₁' r₂', r₁.dequeueByte = some (some byte, r₁') ∧
      r₂.dequeueByte = some (some byte, r₂') ∧ r₁'.SameInput r₂' := by
  rcases h.first.dequeueByte with ⟨hempty₁, heq₁⟩ | ⟨byte₁, r₁', hpending₁, heq₁, hin₁⟩
  · rcases h.second.dequeueByte with ⟨-, heq₂⟩ | ⟨byte₂, r₂', hpending₂, -, -⟩
    · exact Or.inl ⟨heq₁, heq₂⟩
    · rw [h.pending, hempty₁] at hpending₂
      exact absurd hpending₂ (List.cons_ne_nil _ _).symm
  · rcases h.second.dequeueByte with ⟨hempty₂, -⟩ | ⟨byte₂, r₂', hpending₂, heq₂, hin₂⟩
    · rw [h.pending, hpending₁] at hempty₂
      exact absurd hempty₂ (List.cons_ne_nil _ _)
    · rw [h.pending, hpending₁] at hpending₂
      obtain ⟨rfl, hrest⟩ := List.cons_eq_cons.mp hpending₂
      exact Or.inr ⟨_, r₁', r₂', heq₁, heq₂, hin₁, hin₂, hrest.symm⟩

/-- Equal answers, and states that the process still cannot tell apart. -/
def SameAnswer (F : Format) (shared : Set (Fin 512)) (root : ℕ) (r₁ r₂ : CallResult × CallState) :
    Prop := r₂.1 = r₁.1 ∧ CallState.Agree F shared root r₁.2 r₂.2

theorem CallState.Agree.validateUserPtr (h : CallState.Agree c.arch.format shared root s₁ s₂)
    (h₁ : c.OnOwnRoot shared root s₁.machine) (h₂ : c.OnOwnRoot shared root s₂.machine)
    (ptr len : ℕ) (needWrite : Bool) :
    c.validateUserPtr s₂.machine.mem ptr len needWrite =
      c.validateUserPtr s₁.machine.mem ptr len needWrite := by
  unfold Caller.validateUserPtr
  rw [h₁.memoryRoot, h.machine.validateUserRange c.arch.format_lawful
    (fun a ha => h₁.supervisor a ha needWrite) (fun a ha => h₂.supervisor a ha needWrite)]

theorem CallState.Agree.sysWrite (h : CallState.Agree c.arch.format shared root s₁ s₂)
    (h₁ : c.OnOwnRoot shared root s₁.machine) (h₂ : c.OnOwnRoot shared root s₂.machine)
    (hring3 : c.task.isRing3 = true) (fd ptr len : ℕ) :
    SameAnswer c.arch.format shared root (c.sysWrite fd ptr len s₁) (c.sysWrite fd ptr len s₂) := by
  unfold Caller.sysWrite
  rw [h.validateUserPtr h₁ h₂]
  split_ifs with hargs hvalid
  · exact ⟨rfl, h⟩
  · exact ⟨rfl, h⟩
  · rw [not_or, not_or] at hargs
    rw [Bool.not_eq_true', Bool.not_eq_false] at hvalid
    obtain ⟨-, hrange⟩ := h₁.range hring3 (Nat.pos_of_ne_zero hargs.2.2) hvalid
    rw [h.machine.loadSlice h₁.active len ptr hrange]
    cases c.loadSlice s₁.machine.mem len ptr with
    | error addr => exact ⟨rfl, h⟩
    | ok slice =>
      dsimp only
      split_ifs
      · exact ⟨rfl, ⟨h.machine, h.ring, by rw [h.uart]⟩⟩
      · exact ⟨rfl, h⟩

theorem CallState.Agree.readLoop (hactive : c.activeRoot = root * 4096) (ptr left : ℕ) :
    ∀ (bytesRead : ℕ) {s₁ s₂ : CallState}, CallState.Agree c.arch.format shared root s₁ s₂ →
    (∀ a, ptr + bytesRead ≤ a → a < ptr + bytesRead + left → tableIndex 39 a ∉ shared) →
    SameAnswer c.arch.format shared root (c.readLoop ptr left bytesRead s₁)
      (c.readLoop ptr left bytesRead s₂) := by
  induction left with
  | zero => exact fun _ _ _ h _ => ⟨rfl, h⟩
  | succ left ih =>
    intro bytesRead s₁ s₂ h hrange
    have hv := hrange (ptr + bytesRead) (le_refl _) (by omega)
    have htranslate : c.translate s₂.machine.mem (ptr + bytesRead) =
        c.translate s₁.machine.mem (ptr + bytesRead) := by
      rw [Caller.translate, Caller.translate, hactive, h.machine.translation hv]
    rw [Caller.readLoop, Caller.readLoop, htranslate]
    rcases h.ring.dequeueByte with ⟨heq₁, heq₂⟩ | ⟨byte, r₁, r₂, heq₁, heq₂, hring⟩
    · rw [heq₁, heq₂]
      exact ⟨rfl, h⟩
    · rw [heq₁, heq₂]
      cases htr : c.translate s₁.machine.mem (ptr + bytesRead) with
      | none => exact ⟨rfl, ⟨h.machine, hring, h.uart⟩⟩
      | some phys =>
        rw [Caller.translate, hactive] at htr
        exact ih (bytesRead + 1) ⟨h.machine.store hv htr byte, hring, h.uart⟩
          (fun a hlow hhigh => hrange a (by omega) (by omega))

theorem CallState.Agree.sysRead (h : CallState.Agree c.arch.format shared root s₁ s₂)
    (h₁ : c.OnOwnRoot shared root s₁.machine) (h₂ : c.OnOwnRoot shared root s₂.machine)
    (hring3 : c.task.isRing3 = true) (fd ptr len : ℕ) :
    SameAnswer c.arch.format shared root (c.sysRead fd ptr len s₁) (c.sysRead fd ptr len s₂) := by
  unfold Caller.sysRead
  rw [h.validateUserPtr h₁ h₂]
  split_ifs with hargs hvalid
  · exact ⟨rfl, h⟩
  · exact ⟨rfl, h⟩
  · rw [not_or, not_or] at hargs
    rw [Bool.not_eq_true', Bool.not_eq_false] at hvalid
    obtain ⟨-, hrange⟩ := h₁.range hring3 (Nat.pos_of_ne_zero hargs.2.2) hvalid
    exact CallState.Agree.readLoop h₁.active ptr len 0 h hrange

theorem CallState.Agree.sysUname (h : CallState.Agree c.arch.format shared root s₁ s₂)
    (h₁ : c.OnOwnRoot shared root s₁.machine) (h₂ : c.OnOwnRoot shared root s₂.machine)
    (hring3 : c.task.isRing3 = true) (ptr : ℕ) :
    SameAnswer c.arch.format shared root (c.sysUname ptr s₁) (c.sysUname ptr s₂) := by
  unfold Caller.sysUname
  rw [h.validateUserPtr h₁ h₂]
  split_ifs with hnull hvalid halign
  · exact ⟨rfl, h⟩
  · exact ⟨rfl, h⟩
  · exact ⟨rfl, h⟩
  · rw [Bool.not_eq_true', Bool.not_eq_false] at hvalid
    obtain ⟨-, hrange⟩ := h₁.range hring3 (by decide) hvalid
    obtain ⟨hfault, hagree⟩ := h.machine.populate h₁.active c.utsStrings ptr hrange
    cases hrun₁ : c.populate c.utsStrings ptr s₁.machine.mem with
    | mk fault₁ m₁ =>
    cases hrun₂ : c.populate c.utsStrings ptr s₂.machine.mem with
    | mk fault₂ m₂ =>
    rw [hrun₁, hrun₂] at hfault hagree
    dsimp only at hfault hagree
    subst hfault
    cases fault₂ with
    | some fault => exact ⟨rfl, ⟨hagree, h.ring, h.uart⟩⟩
    | none => exact ⟨rfl, ⟨hagree, h.ring, h.uart⟩⟩

theorem Agree.sysMunmap {s₁ s₂ : Machine} (h : Agree c.arch.format shared root s₁ s₂)
    (h₁ : c.OnOwnRoot shared root s₁) (h₂ : c.OnOwnRoot shared root s₂) (ptr len : ℕ) :
    (sysMunmap c.arch.format c.task ptr len s₂).1 = (sysMunmap c.arch.format c.task ptr len s₁).1 ∧
      Agree c.arch.format shared root (sysMunmap c.arch.format c.task ptr len s₁).2
        (sysMunmap c.arch.format c.task ptr len s₂).2 := by
  have hsup₁ := fun a ha => h₁.supervisor a ha false
  have hvalid := h.validateUserRange c.arch.format_lawful hsup₁
    (fun a ha => h₂.supervisor a ha false) ptr len
  unfold Kernel.sysMunmap sysMunmapLogged
  rw [h₁.memoryRoot, hvalid, land_0xFFF, land_0xFFF]
  split_ifs with hargs hcheck
  · exact ⟨rfl, h⟩
  · exact ⟨rfl, h⟩
  · rw [Bool.or_eq_true, not_or, Bool.not_eq_true', Bool.not_eq_false, Bool.not_eq_true',
      Bool.not_eq_false] at hcheck
    have hpages := validateUserRange_private hsup₁ (by omega) hcheck.2
    exact ⟨rfl, h.munmapPages c.arch.format_lawful _ hpages (by omega)⟩

/-- Whatever a process asks of the kernel, the answer is a function of what it has itself. -/
theorem CallState.Agree.syscallHandler (h : CallState.Agree c.arch.format shared root s₁ s₂)
    (h₁ : c.OnOwnRoot shared root s₁.machine) (h₂ : c.OnOwnRoot shared root s₂.machine)
    (hring3 : c.task.isRing3 = true) (sysNum arg1 arg2 arg3 : ℕ) :
    SameAnswer c.arch.format shared root (c.syscallHandler sysNum arg1 arg2 arg3 s₁)
      (c.syscallHandler sysNum arg1 arg2 arg3 s₂) := by
  unfold Caller.syscallHandler
  split
  · exact h.sysWrite h₁ h₂ hring3 arg1 arg2 arg3
  · exact h.sysRead h₁ h₂ hring3 arg1 arg2 arg3
  · obtain ⟨hvalue, hagree⟩ := h.machine.sysMunmap h₁ h₂ arg1 arg2
    exact ⟨congrArg CallResult.returned hvalue, ⟨hagree, h.ring, h.uart⟩⟩
  · exact ⟨rfl, h⟩
  · exact h.sysUname h₁ h₂ hring3 arg1
  · refine ⟨rfl, ⟨h.machine, h.ring, ?_⟩⟩
    unfold sysUnknown
    rw [h.uart]

end Calls

section Traces

def secondRuns : SystemRun := tick 0x7000 twoRunning

def secondWrites : KernelCall := .store (Function.update secondRuns.kernel.machine.mem 0x10E000 0x41)

def secondWrote : SystemRun :=
  (SystemEvent.kernel secondWrites).next kernelStacks (1 * 4096) secondRuns

def firstRuns (t : SystemRun) : SystemRun := tick 0x9000 (tick 0x8000 t)

theorem tick_mem (sp : ℕ) (t : SystemRun) : (tick sp t).kernel.machine.mem = t.kernel.machine.mem :=
  KernelCall.schedule_mem kernelStacks (1 * 4096) sp t.kernel

theorem firstRuns_mem (t : SystemRun) :
    (firstRuns t).kernel.machine.mem = t.kernel.machine.mem := by
  rw [firstRuns, tick_mem, tick_mem]

theorem Reached.firstRuns {t : SystemRun} (h : Reached t) : Reached (firstRuns t) :=
  (h.tick 0x8000).tick 0x9000

theorem secondRuns_walk :
    (graph aarch64Format secondRuns.kernel.machine.mem).walk (rootFrame secondRuns.kernel.caller)
      (leafPath (pageNumber 0x8000000000)) = some 0x10E := by decide +kernel

theorem secondRuns_reached : Reached secondRuns := (bothLoaded_reached.tick 0x6000).tick 0x7000

theorem secondWrote_reached : Reached secondWrote := by
  have hfacts : secondRuns.kernel.exited = false ∧ secondRuns.kernel.caller.isRing3 = true := by
    decide +kernel
  refine secondRuns_reached.kernel (c := secondWrites) ⟨hfacts.1, hfacts.2, fun x hx => ?_⟩ trivial
  have hx : x = 0x10E000 := by
    by_contra hne
    exact hx (Function.update_of_ne hne _ _)
  subst hx
  exact ⟨_, leafPath_mem (by decide), rfl, secondRuns_walk⟩

theorem tick_sched (sp : ℕ) (t : SystemRun) :
    (tick sp t).kernel.sched = (t.kernel.sched.runSchedule sp).sched := rfl

theorem secondWrote_sched : secondWrote.kernel.sched = secondRuns.kernel.sched := by
  rw [secondWrote, SystemEvent.next_kernel, secondWrites, KernelCall.run]

theorem secondWrote_mem : secondWrote.kernel.machine.mem =
    Function.update secondRuns.kernel.machine.mem 0x10E000 0x41 := by
  rw [secondWrote, SystemEvent.next_kernel, secondWrites, KernelCall.run]

theorem firstRuns_sched :
    (firstRuns secondWrote).kernel.sched = (firstRuns secondRuns).kernel.sched := by
  rw [firstRuns, firstRuns, tick_sched, tick_sched, tick_sched, tick_sched, secondWrote_sched]

theorem SystemEvent.next_kernel_ring (K : Stacks) (kernelRoot : ℕ) (t : SystemRun)
    (c : KernelCall) : ((SystemEvent.kernel c).next K kernelRoot t).ring = t.ring := rfl

theorem firstRuns_ring : (firstRuns secondWrote).ring = (firstRuns secondRuns).ring := by
  rw [firstRuns, firstRuns, tick, tick, SystemEvent.next_kernel_ring, SystemEvent.next_kernel_ring,
    tick, tick, SystemEvent.next_kernel_ring, SystemEvent.next_kernel_ring, secondWrote,
    SystemEvent.next_kernel_ring]

theorem firstRuns_frames : 0x10E ∉ (firstRuns secondRuns).kernel.frames 1 := by
  have hreached := secondRuns_reached.firstRuns
  have hinv := (SystemRun.Inv.boot (by decide) kernelMachine_kernelRoot kernelMachine_zero).of_run
    (K := kernelStacks) rfl (by decide) hreached.1
  have hlive : ((firstRuns secondRuns).kernel.sched.tasks 1).ownsMemoryRoot = true ∧
      ((firstRuns secondRuns).kernel.sched.tasks 2).ownsMemoryRoot = true ∧
      rootFrame ((firstRuns secondRuns).kernel.sched.tasks 2) = rootFrame secondRuns.kernel.caller := by
    decide +kernel
  have hdisjoint := hinv.kernel.run.memory.disjoint 1 2 _ _ (by decide)
    (ownedRoot_of_owns hlive.1) (ownedRoot_of_owns hlive.2.1)
  rw [hlive.2.2, firstRuns_mem] at hdisjoint
  unfold KernelRun.frames
  rw [firstRuns_mem]
  exact Set.disjoint_right.mp hdisjoint ⟨_, leafPath_mem (by decide), secondRuns_walk⟩

end Traces

end MitosOS.Kernel
