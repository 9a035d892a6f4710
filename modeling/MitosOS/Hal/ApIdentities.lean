import MitosOS.Hal.Smp

/-! Who gets which index and which stack during the bring-up of the application processors. -/
namespace MitosOS.Hal
open MitosOS.Lib MitosOS.Memory

section Stacks

theorem alloc_apStack {h : Heap} (hne : (h.alloc apStackLayout).1 ≠ 0) :
    ∃ base, base = wrap64 h.allocator.nextFreeByte ∧ base + apStackSize < 2 ^ 64 ∧
      (h.alloc apStackLayout).1 = h.physToVirt base ∧
      (h.alloc apStackLayout).2.allocator.nextFreeByte = base + apStackSize ∧
      (h.alloc apStackLayout).2.hhdmOffset = h.hhdmOffset := by
  have hserve : h.servingBucket apStackLayout.clamp = none :=
    Heap.servingBucket_eq_none_of_large (by decide)
  have hstart : h.allocStart apStackLayout.align = wrap64 h.allocator.nextFreeByte := by
    unfold Heap.allocStart alignDown
    change _ - _ % 1 = _
    rw [Nat.mod_one, Nat.sub_zero]
    rfl
  have hcarved := Heap.alloc_carved hserve hne
  rw [hstart] at hcarved
  exact ⟨_, rfl, hcarved⟩

/-- Blocks that the heap carves off one after the other make stacks that do not overlap. -/
theorem stackTop_apart {h : Heap} {k k' : ApCall} {base base' : ℕ}
    (hk : k.stack = h.physToVirt base) (hk' : k'.stack = h.physToVirt base')
    (hle : base + apStackSize ≤ base') (hlt : base' + apStackSize < 2 ^ 64)
    (hmod : base % 16 = base' % 16) : StacksApart k'.stackTop k.stackTop := by
  unfold StacksApart ApCall.stackTop
  rw [hk, hk']
  unfold Heap.physToVirt alignDown wrap64 apStackSize at *
  omega

end Stacks

section Invariant

/-- What `start_aps` has handed out so far: indices and stacks are new in every call. -/
structure Smp.Distinct (s : Smp) : Prop where
  index_le : s.nextCpuIndex ≤ maxCpus
  index_lt : ∀ k ∈ s.calls, k.cpuIndex < s.nextCpuIndex
  carved : ∀ k ∈ s.calls, ∃ base, k.stack = s.heap.physToVirt base ∧
    base + apStackSize ≤ s.heap.allocator.nextFreeByte ∧
    base % 16 = s.heap.allocator.nextFreeByte % 16 ∧ s.heap.allocator.nextFreeByte < 2 ^ 64
  pairwise : s.calls.Pairwise fun k k' =>
    k.cpuIndex ≠ k'.cpuIndex ∧ StacksApart k.stackTop k'.stackTop

def ApPc.hasStack : ApPc → Bool
  | .loadCpuIndex | .loadEntry | .jump => true
  | _ => false

def ApPc.hasIndex : ApPc → Bool
  | .loadEntry | .jump => true
  | _ => false

/-- Some call of `start_one_ap` for the core `id` was given the stack. -/
def GaveStack (calls : List ApCall) (id : ApicId) (t : ℕ) : Prop :=
  ∃ k ∈ calls, k.apicId = id ∧ k.stackTop = t

def GaveIndex (calls : List ApCall) (id : ApicId) (i : ℕ) : Prop :=
  ∃ k ∈ calls, k.apicId = id ∧ k.cpuIndex = i

def CoreOwns (calls : List ApCall) (id : ApicId) (core : ApCore) : Prop :=
  (core.pc.hasStack = true → GaveStack calls id core.rsp) ∧
    (core.pc.hasIndex = true → GaveIndex calls id core.rdi)

structure Smp.Published (s : Smp) : Prop where
  stackTop : s.bsp.stackWritten = true → ∀ k ∈ s.calls.head?, s.params.stackTop = k.stackTop
  cpuIndex : s.bsp.indexWritten = true → ∀ k ∈ s.calls.head?, s.params.cpuIndex = k.cpuIndex

structure Smp.Owned (s : Smp) : Prop where
  cores : ∀ id, CoreOwns s.calls id (s.cores id)
  entries : ∀ e ∈ s.entries, GaveStack s.calls e.apicId e.stackTop ∧
    GaveIndex s.calls e.apicId e.cpuIndex

variable {P : Platform} {s : Smp}

theorem GaveStack.cons {calls : List ApCall} {id : ApicId} {t : ℕ} (h : GaveStack calls id t)
    (k : ApCall) : GaveStack (k :: calls) id t := by
  obtain ⟨k', hk', h'⟩ := h
  exact ⟨k', List.mem_cons_of_mem _ hk', h'⟩

theorem GaveIndex.cons {calls : List ApCall} {id : ApicId} {i : ℕ} (h : GaveIndex calls id i)
    (k : ApCall) : GaveIndex (k :: calls) id i := by
  obtain ⟨k', hk', h'⟩ := h
  exact ⟨k', List.mem_cons_of_mem _ hk', h'⟩

theorem CoreOwns.of_fresh {calls : List ApCall} {id : ApicId} {core : ApCore}
    (h : core.pc.hasStack = false) (h' : core.pc.hasIndex = false) : CoreOwns calls id core := by
  constructor
  · intro hs
    rw [h] at hs
    exact absurd hs (by decide)
  · intro hs
    rw [h'] at hs
    exact absurd hs (by decide)

theorem Smp.nextCpu_cases (P : Platform) (s : Smp) :
    (∃ cpu : ProcessorLocalApic, s.nextCpuIndex < maxCpus ∧ (s.heap.alloc apStackLayout).1 ≠ 0 ∧
      (s.nextCpu P).nextCpuIndex = s.nextCpuIndex + 1 ∧
      (s.nextCpu P).heap = (s.heap.alloc apStackLayout).2 ∧
      (s.nextCpu P).calls =
        ⟨cpu.apicId, s.nextCpuIndex, (s.heap.alloc apStackLayout).1⟩ :: s.calls ∧
      (s.nextCpu P).bsp = .writeCr3 ∧ (s.nextCpu P).cores = s.cores ∧
      (s.nextCpu P).entries = s.entries) ∨
    ((s.nextCpu P).nextCpuIndex = s.nextCpuIndex ∧ (s.nextCpu P).heap = s.heap ∧
      (s.nextCpu P).calls = s.calls ∧ (s.nextCpu P).params = s.params ∧
      (s.nextCpu P).cores = s.cores ∧ (s.nextCpu P).entries = s.entries) := by
  unfold Smp.nextCpu
  cases s.cpus with
  | nil => exact Or.inr ⟨rfl, rfl, rfl, rfl, rfl, rfl⟩
  | cons cpu cpus =>
    dsimp only
    split_ifs with hbsp hen hmax hnull
    · exact Or.inr ⟨rfl, rfl, rfl, rfl, rfl, rfl⟩
    · exact Or.inr ⟨rfl, rfl, rfl, rfl, rfl, rfl⟩
    · exact Or.inr ⟨rfl, rfl, rfl, rfl, rfl, rfl⟩
    · exact Or.inr ⟨rfl, rfl, rfl, rfl, rfl, rfl⟩
    · exact Or.inl ⟨cpu, Nat.lt_of_not_le hmax, hnull, rfl, rfl, rfl, rfl, rfl, rfl⟩

theorem Smp.startOneAp_frame (P : Platform) (k : ApCall) (s : Smp) :
    (s.startOneAp P k).nextCpuIndex = s.nextCpuIndex ∧ (s.startOneAp P k).heap = s.heap ∧
      (s.startOneAp P k).calls = s.calls ∧ (s.startOneAp P k).entries = s.entries ∧
      ∀ id, (s.startOneAp P k).cores id = s.cores id ∨
        ((s.startOneAp P k).cores id).pc = .waitForSipi := by
  unfold Smp.startOneAp
  split <;> try exact ⟨rfl, rfl, rfl, rfl, fun _ => Or.inl rfl⟩
  refine ⟨rfl, rfl, rfl, rfl, fun id => ?_⟩
  dsimp only [Smp.sendInit]
  split
  · exact Or.inr rfl
  · exact Or.inl rfl

theorem Smp.apStep_frame (P : Platform) (s : Smp) (id : ApicId) :
    (s.apStep P id).nextCpuIndex = s.nextCpuIndex ∧ (s.apStep P id).heap = s.heap ∧
      (s.apStep P id).calls = s.calls ∧ (s.apStep P id).params = s.params ∧
      (s.apStep P id).bsp = s.bsp := by
  unfold Smp.apStep
  dsimp only
  split <;> try exact ⟨rfl, rfl, rfl, rfl, rfl⟩
  all_goals
    split <;> exact ⟨rfl, rfl, rfl, rfl, rfl⟩

theorem Smp.Distinct.of_eq {s' : Smp} (h : s.Distinct) (hindex : s'.nextCpuIndex = s.nextCpuIndex)
    (hheap : s'.heap = s.heap) (hcalls : s'.calls = s.calls) : s'.Distinct := by
  constructor
  · rw [hindex]
    exact h.index_le
  · rw [hcalls, hindex]
    exact h.index_lt
  · rw [hcalls, hheap]
    exact h.carved
  · rw [hcalls]
    exact h.pairwise

/-- A new call takes the next index and a stack behind all earlier ones. -/
theorem Smp.Distinct.call {s' : Smp} (h : s.Distinct) (id : ApicId)
    (hmax : s.nextCpuIndex < maxCpus) (hne : (s.heap.alloc apStackLayout).1 ≠ 0)
    (hindex : s'.nextCpuIndex = s.nextCpuIndex + 1)
    (hheap : s'.heap = (s.heap.alloc apStackLayout).2)
    (hcalls : s'.calls = ⟨id, s.nextCpuIndex, (s.heap.alloc apStackLayout).1⟩ :: s.calls) :
    s'.Distinct := by
  obtain ⟨base, hbase, hlt, hptr, hfree, hoff⟩ := alloc_apStack hne
  have hvirt : ∀ a, s'.heap.physToVirt a = s.heap.physToVirt a := by
    intro a
    unfold Heap.physToVirt
    rw [hheap, hoff]
  have hfree' : s'.heap.allocator.nextFreeByte = base + apStackSize := by rw [hheap, hfree]
  have hsize : apStackSize % 16 = 0 := by decide
  constructor
  · rw [hindex]
    exact hmax
  · rw [hcalls, hindex]
    intro k hk
    rcases List.mem_cons.mp hk with rfl | hk
    · exact Nat.lt_succ_self _
    · exact (h.index_lt k hk).trans (Nat.lt_succ_self _)
  · rw [hcalls, hfree']
    intro k hk
    rcases List.mem_cons.mp hk with rfl | hk
    · exact ⟨base, hptr.trans (hvirt base).symm, le_refl _, by omega, hlt⟩
    · obtain ⟨b, hb, hle, hmod, hbound⟩ := h.carved k hk
      rw [wrap64_of_lt hbound] at hbase
      exact ⟨b, hb.trans (hvirt b).symm, by omega, by omega, hlt⟩
  · rw [hcalls, List.pairwise_cons]
    refine ⟨fun k hk => ⟨(h.index_lt k hk).ne', ?_⟩, h.pairwise⟩
    obtain ⟨b, hb, hle, hmod, hbound⟩ := h.carved k hk
    rw [wrap64_of_lt hbound] at hbase
    exact stackTop_apart hb hptr (hle.trans hbase.ge) hlt (hmod.trans (by rw [hbase]))

structure Smp.Inv (s : Smp) : Prop where
  distinct : s.Distinct
  published : s.Published
  owned : s.Owned

theorem Smp.Owned.of_cores {s' : Smp} (h : s.Owned) (hcalls : s'.calls = s.calls)
    (hentries : s'.entries = s.entries)
    (hcores : ∀ id, s'.cores id = s.cores id ∨ CoreOwns s.calls id (s'.cores id)) :
    s'.Owned := by
  constructor
  · intro id
    rw [hcalls]
    rcases hcores id with heq | howns
    · rw [heq]
      exact h.cores id
    · exact howns
  · rw [hcalls, hentries]
    exact h.entries

theorem Smp.Inv.nextCpu (h : s.Inv) (hbsp : s.bsp = .nextCpu) : (s.nextCpu P).Inv := by
  rcases s.nextCpu_cases P with
    ⟨cpu, hmax, hne, hindex, hheap, hcalls, hpc, hcores, hentries⟩ |
    ⟨hindex, hheap, hcalls, hparams, hcores, hentries⟩
  · constructor
    · exact h.distinct.call cpu.apicId hmax hne hindex hheap hcalls
    · constructor
      · rw [hpc]
        exact fun hw => absurd hw (by decide)
      · rw [hpc]
        exact fun hw => absurd hw (by decide)
    · constructor
      · intro id
        rw [hcalls, hcores]
        exact ⟨fun hs => ((h.owned.cores id).1 hs).cons _, fun hs => ((h.owned.cores id).2 hs).cons _⟩
      · rw [hcalls, hentries]
        exact fun e he => ⟨(h.owned.entries e he).1.cons _, (h.owned.entries e he).2.cons _⟩
  · constructor
    · exact h.distinct.of_eq hindex hheap hcalls
    · have hstack := h.published.stackTop (by rw [hbsp]; rfl)
      have hidx := h.published.cpuIndex (by rw [hbsp]; rfl)
      constructor
      · rw [hcalls, hparams]
        exact fun _ => hstack
      · rw [hcalls, hparams]
        exact fun _ => hidx
    · exact h.owned.of_cores hcalls hentries fun id => Or.inl (by rw [hcores])

theorem Smp.Published.startOneAp {k : ApCall} (h : s.Published) (hk : s.calls.head? = some k) :
    (s.startOneAp P k).Published := by
  have hcalls := (s.startOneAp_frame P k).2.2.1
  constructor
  · rw [hcalls, hk]
    intro hw k' hk'
    obtain rfl := Option.some.inj hk'
    have hold := fun hs => h.stackTop hs k hk
    unfold Smp.startOneAp at hw ⊢
    split at hw <;> simp_all [BspPc.stackWritten, Smp.sendInit, Smp.sendStartup]
  · rw [hcalls, hk]
    intro hw k' hk'
    obtain rfl := Option.some.inj hk'
    have hold := fun hs => h.cpuIndex hs k hk
    unfold Smp.startOneAp at hw ⊢
    split at hw <;> simp_all [BspPc.indexWritten, Smp.sendInit, Smp.sendStartup]

theorem Smp.Inv.bspStep (h : s.Inv) : (s.bspStep P).Inv := by
  unfold Smp.bspStep
  split
  · next hbsp => exact h.nextCpu hbsp
  · split
    · exact h
    · next k calls hcalls =>
      obtain ⟨hindex, hheap, hsame, hentries, hcores⟩ := s.startOneAp_frame P k
      constructor
      · exact h.distinct.of_eq hindex hheap hsame
      · exact h.published.startOneAp (by rw [hcalls]; rfl)
      · apply h.owned.of_cores hsame hentries
        intro id
        rcases hcores id with heq | hwait
        · exact Or.inl heq
        · exact Or.inr (.of_fresh (by rw [hwait]; rfl) (by rw [hwait]; rfl))

theorem Smp.Inv.startup (h : s.Inv) (id : ApicId) : (s.startup id).Inv := by
  constructor
  · exact h.distinct.of_eq rfl rfl rfl
  · exact ⟨h.published.stackTop, h.published.cpuIndex⟩
  · apply Smp.Owned.of_cores h.owned
    · rfl
    · rfl
    intro id'
    dsimp only [Smp.startup]
    split
    · by_cases hid : id' = id
      · rw [hid, Function.update_self]
        exact Or.inr (.of_fresh rfl rfl)
      · rw [Function.update_of_ne hid]
        exact Or.inl rfl
    · exact Or.inl rfl

/-- A load that meets the condition finds what the core's own call has published. -/
theorem Smp.Inv.loads_own (h : s.Inv) {id : ApicId} (hcalled : s.CalledFor id) :
    (s.bsp.stackWritten = true → GaveStack s.calls id s.params.stackTop) ∧
      (s.bsp.indexWritten = true → GaveIndex s.calls id s.params.cpuIndex) := by
  unfold Smp.CalledFor at hcalled
  obtain ⟨k, hk, hid⟩ := Option.map_eq_some_iff.mp hcalled
  have hmem : k ∈ s.calls := List.mem_of_mem_head? hk
  exact ⟨fun hw => ⟨k, hmem, hid, (h.published.stackTop hw k hk).symm⟩,
    fun hw => ⟨k, hmem, hid, (h.published.cpuIndex hw k hk).symm⟩⟩

theorem Smp.Inv.apStep_owned (h : s.Inv) {id : ApicId} (hguard : ReadsOwnParams s (.ap id)) :
    CoreOwns s.calls id ((s.apStep P id).cores id) := by
  have howns := h.owned.cores id
  unfold Smp.apStep
  dsimp only
  split
  · next hpc =>
    simp only [Smp.setCore, Function.update_self]
    split
    · exact .of_fresh rfl rfl
    · exact .of_fresh rfl rfl
  · next hpc =>
    simp only [Smp.setCore, Function.update_self]
    obtain ⟨hw, hcalled⟩ := hguard.1 hpc
    exact ⟨fun _ => (h.loads_own hcalled).1 hw, fun hs => absurd hs Bool.false_ne_true⟩
  · next hpc =>
    simp only [Smp.setCore, Function.update_self]
    obtain ⟨hw, hcalled⟩ := hguard.2 hpc
    exact ⟨fun _ => howns.1 (by rw [hpc]; rfl), fun _ => (h.loads_own hcalled).2 hw⟩
  · next hpc =>
    simp only [Smp.setCore, Function.update_self]
    exact ⟨fun _ => howns.1 (by rw [hpc]; rfl), fun _ => howns.2 (by rw [hpc]; rfl)⟩
  · split
    · simp only [Smp.setCore, Function.update_self]
      exact .of_fresh rfl rfl
    · simp only [Smp.setCore, Function.update_self]
      exact .of_fresh rfl rfl
  · split
    · simp only [Smp.setCore, Function.update_self]
      exact .of_fresh rfl rfl
    · simp only [Smp.setCore, Function.update_self]
      exact .of_fresh rfl rfl
  all_goals exact howns

theorem Smp.apStep_cores_of_ne (P : Platform) (s : Smp) {id id' : ApicId} (hne : id' ≠ id) :
    (s.apStep P id).cores id' = s.cores id' := by
  unfold Smp.apStep
  dsimp only
  split <;> try exact Function.update_of_ne hne ..
  all_goals first | rfl | (split <;> exact Function.update_of_ne hne ..)

theorem Smp.apStep_entries (P : Platform) (s : Smp) (id : ApicId) :
    (s.apStep P id).entries = s.entries ∨ (s.cores id).pc = .jump ∧
      (s.apStep P id).entries = ⟨id, (s.cores id).rdi, (s.cores id).rsp⟩ :: s.entries := by
  unfold Smp.apStep
  dsimp only
  split <;> try exact Or.inl rfl
  · next hpc =>
    split
    · exact Or.inr ⟨hpc, rfl⟩
    · exact Or.inl rfl
  · split
    · exact Or.inl rfl
    · exact Or.inl rfl

theorem Smp.Inv.apStep (h : s.Inv) {id : ApicId} (hguard : ReadsOwnParams s (.ap id)) :
    (s.apStep P id).Inv := by
  obtain ⟨hindex, hheap, hcalls, hparams, hbsp⟩ := s.apStep_frame P id
  constructor
  · exact h.distinct.of_eq hindex hheap hcalls
  · constructor
    · rw [hcalls, hparams, hbsp]
      exact h.published.stackTop
    · rw [hcalls, hparams, hbsp]
      exact h.published.cpuIndex
  · constructor
    · intro id'
      rw [hcalls]
      by_cases hid : id' = id
      · rw [hid]
        exact h.apStep_owned hguard
      · rw [s.apStep_cores_of_ne P hid]
        exact h.owned.cores id'
    · rw [hcalls]
      rcases s.apStep_entries P id with hsame | ⟨hpc, hnew⟩
      · rw [hsame]
        exact h.owned.entries
      · rw [hnew]
        intro e he
        rcases List.mem_cons.mp he with rfl | he
        · have howns := h.owned.cores id
          exact ⟨howns.1 (by rw [hpc]; rfl), howns.2 (by rw [hpc]; rfl)⟩
        · exact h.owned.entries e he

theorem Smp.Inv.start (cpus : List ProcessorLocalApic) (heap : Heap) :
    (Smp.start cpus heap).Inv := by
  constructor
  · exact ⟨Nat.zero_le _, by simp [Smp.start], by simp [Smp.start], List.Pairwise.nil⟩
  · exact ⟨fun _ => by simp [Smp.start], fun _ => by simp [Smp.start]⟩
  · exact ⟨fun _ => .of_fresh rfl rfl, by simp [Smp.start]⟩

theorem StacksApart.symm {t t' : ℕ} (h : StacksApart t t') : StacksApart t' t := Or.symm h

theorem Smp.Distinct.apart (h : s.Distinct) {k k' : ApCall} (hk : k ∈ s.calls) (hk' : k' ∈ s.calls)
    (hne : k.apicId ≠ k'.apicId) :
    k.cpuIndex ≠ k'.cpuIndex ∧ StacksApart k.stackTop k'.stackTop := by
  have hsymm : Std.Symm fun k k' : ApCall =>
      k.cpuIndex ≠ k'.cpuIndex ∧ StacksApart k.stackTop k'.stackTop :=
    ⟨fun _ _ h => ⟨h.1.symm, h.2.symm⟩⟩
  exact h.pairwise.forall hk hk' fun heq => hne (congrArg ApCall.apicId heq)

theorem Smp.Inv.ownIdentities (h : s.Inv) : s.OwnIdentities := by
  constructor
  · intro e he
    obtain ⟨-, k, hk, -, hindex⟩ := h.owned.entries e he
    rw [← hindex]
    exact (h.distinct.index_lt k hk).trans_le h.distinct.index_le
  · intro e he e' he' hne
    obtain ⟨⟨k, hk, hid, hstack⟩, ⟨l, hl, hlid, hindex⟩⟩ := h.owned.entries e he
    obtain ⟨⟨k', hk', hid', hstack'⟩, ⟨l', hl', hlid', hindex'⟩⟩ := h.owned.entries e' he'
    rw [← hstack, ← hstack', ← hindex, ← hindex']
    constructor
    · exact (h.distinct.apart hl hl' (by rw [hlid, hlid']; exact hne)).1
    · exact (h.distinct.apart hk hk' (by rw [hid, hid']; exact hne)).2

end Invariant

/-- When every core loads its stack and its index from what its own call of `start_one_ap` wrote,
no two cores share an identity. -/
theorem ap_identities_distinct (P : Platform) (cpus : List ProcessorLocalApic) (heap : Heap)
    (s : Smp) (hrun : (smpSystem P).RunWhen ReadsOwnParams (.start cpus heap) s) :
    s.OwnIdentities := by
  have hstep : ∀ s e, s.Inv → (smpSystem P).Enabled s e → ReadsOwnParams s e →
      ((smpSystem P).next s e).Inv := by
    intro s e h _ hguard
    cases e with
    | bsp => exact h.bspStep
    | startup id => exact h.startup id
    | ap id => exact h.apStep hguard
  exact (hrun.invariant hstep (.start cpus heap)).ownIdentities

section Traces

instance (s : Smp) : ∀ e : SmpEvent, Decidable (e.Enabled s)
  | .bsp => inferInstanceAs (Decidable (_ ∧ _))
  | .startup _ => inferInstanceAs (Decidable (_ < _))
  | .ap _ => inferInstanceAs (Decidable (¬ _))

instance (P : Platform) (s : Smp) (e : SmpEvent) : Decidable ((smpSystem P).Enabled s e) :=
  inferInstanceAs (Decidable (e.Enabled s))

instance (s : Smp) (id : ApicId) : Decidable (s.CalledFor id) :=
  inferInstanceAs (Decidable (_ = _))

instance (s : Smp) : ∀ e : SmpEvent, Decidable (ReadsOwnParams s e)
  | .bsp => isTrue trivial
  | .startup _ => isTrue trivial
  | .ap _ => inferInstanceAs (Decidable (_ ∧ _))

def examplePlatform : Platform where
  useX2apic := true
  bspApicId := 0
  targetCr3 := 0x1000
  rustApEntry := 0xFFFFFFFF80200000

def exampleBringUp : Smp :=
  .start [⟨0, true⟩, ⟨1, true⟩, ⟨2, true⟩]
    (Heap.init ⟨0xFFFF800000000000, false, .new, fun _ => 0⟩ 0x150000 0xA0000)

/-- A Startup IPI takes effect, and the core runs up to `AP_ONLINE`. -/
def apArrival (id : ApicId) : List SmpEvent := .startup id :: List.replicate 6 (.ap id)

/-- Core 1 answers only after `start_one_ap` has given up on it and turned to core 2. -/
theorem late_ap_shares_identity :
    ∃ s, (smpSystem examplePlatform).Run exampleBringUp s ∧
      ∃ e ∈ s.entries, ∃ e' ∈ s.entries, e.apicId ≠ e'.apicId ∧ e.cpuIndex = e'.cpuIndex ∧
        e.stackTop = e'.stackTop := by
  apply EventSystem.exists_runWhen
    (List.replicate 122 .bsp ++ apArrival 1 ++ apArrival 2)
  decide

/-- Both cores answer at once. -/
theorem prompt_aps_own_identities :
    ∃ s, (smpSystem examplePlatform).RunWhen ReadsOwnParams exampleBringUp s ∧
      s.entries.length = 2 ∧ s.OwnIdentities := by
  have hreach : ∃ s, (smpSystem examplePlatform).RunWhen ReadsOwnParams exampleBringUp s ∧
      s.entries.length = 2 := by
    apply EventSystem.exists_runWhen
      (List.replicate 9 .bsp ++ apArrival 1 ++ List.replicate 10 .bsp ++ apArrival 2)
    decide
  obtain ⟨s, hrun, hlength⟩ := hreach
  exact ⟨s, hrun, hlength, ap_identities_distinct examplePlatform _ _ s hrun⟩

end Traces

end MitosOS.Hal
