import MitosOS.Lib.EventSystem
import MitosOS.Memory.Heap
import Mathlib.Data.List.Pairwise

/-! `hal::smp`: the boot processor starts the application processors one after the other, and each
of them reads its stack and its index from the one parameter block of the trampoline. -/
namespace MitosOS.Hal
open MitosOS.Lib MitosOS.Memory

abbrev ApicId := BitVec 32

def maxCpus : ℕ := 64

def apStackSize : ℕ := 16 * 1024

/-- The fields of a MADT entry that `start_aps` reads. -/
structure ProcessorLocalApic where
  apicId : ApicId
  enabled : Bool

/-- The parameter block at the end of the trampoline page. -/
structure Params where
  cr3 : ℕ
  stackTop : ℕ
  entry : ℕ
  cpuIndex : ℕ

structure Platform where
  useX2apic : Bool
  bspApicId : ApicId
  targetCr3 : ℕ
  rustApEntry : ℕ

/-- Whether `send_icr` reaches the local APIC `id`; a destination of all ones is a broadcast. -/
def Platform.addresses (P : Platform) (dest id : ApicId) : Bool :=
  if P.useX2apic then dest == 0xFFFFFFFF#32 || id == dest
  else dest &&& 0xFF#32 == 0xFF#32 || id == dest &&& 0xFF#32

structure ApCall where
  apicId : ApicId
  cpuIndex : ℕ
  stack : ℕ

def ApCall.stackTop (k : ApCall) : ℕ := alignDown (wrap64 (k.stack + apStackSize)) 16

/-- The statement of `start_aps` or `start_one_ap` that the boot processor is about to execute. -/
inductive BspPc where
  | nextCpu
  | writeCr3
  | writeStackTop
  | writeEntry
  | writeCpuIndex
  | clearOnline
  | sendInit
  | sendStartup
  | firstWait (left : ℕ)
  | sendSecondStartup
  | secondWait (left : ℕ)
  | readOnline
  | finished
  /-- A panic, or an INIT that reached the boot processor itself. -/
  | stopped
  deriving DecidableEq

/-- Where an application processor is; between `loadCr3` and `jump` it runs the trampoline. -/
inductive ApPc where
  | parked
  | waitForSipi
  | loadCr3
  | loadStackTop
  | loadCpuIndex
  | loadEntry
  | jump
  | rustApEntry
  | online
  | lost
  deriving DecidableEq

structure ApCore where
  pc : ApPc
  rsp : ℕ
  rdi : ℕ
  rax : ℕ

def ApCore.atReset : ApCore where
  pc := .parked
  rsp := 0
  rdi := 0
  rax := 0

/-- One arrival in `rust_ap_entry`, which hands `cpuIndex` to `gdt::init_ap` at once. -/
structure ApEntry where
  apicId : ApicId
  cpuIndex : ℕ
  stackTop : ℕ

/-- The state of the bring-up. `sipis` counts the Startup IPIs that have not taken effect yet;
`calls` and `entries` are the calls of `start_one_ap` and the arrivals so far, latest first. -/
structure Smp where
  cpus : List ProcessorLocalApic
  nextCpuIndex : ℕ
  started : ℕ
  cpusOnline : ℕ
  heap : Heap
  bsp : BspPc
  calls : List ApCall
  params : Params
  apOnline : ℕ → Bool
  sipis : ApicId → ℕ
  cores : ApicId → ApCore
  entries : List ApEntry

def apStackLayout : Layout where
  size := apStackSize
  align := 1
  align_pow := ⟨0, rfl⟩
  size_pos := by decide
  size_le := by decide

namespace Smp

/-- The trampoline has just been copied, with zeros in its parameter block. -/
def start (cpus : List ProcessorLocalApic) (heap : Heap) : Smp where
  cpus := cpus
  nextCpuIndex := 0
  started := 0
  cpusOnline := 1
  heap := heap
  bsp := .nextCpu
  calls := []
  params := ⟨0, 0, 0, 0⟩
  apOnline _ := false
  sipis _ := 0
  cores _ := .atReset
  entries := []

/-- One turn of the loop in `start_aps`, up to the call of `start_one_ap` and its allocation. -/
def nextCpu (P : Platform) (s : Smp) : Smp :=
  match s.cpus with
  | [] => { s with cpusOnline := s.cpusOnline + s.started, bsp := .finished }
  | cpu :: cpus =>
    if cpu.apicId = P.bspApicId then { s with cpus := cpus }
    else if !cpu.enabled then { s with cpus := cpus }
    else if maxCpus ≤ s.nextCpuIndex then { s with cpus := cpus }
    else
      let stack := s.heap.alloc apStackLayout
      if stack.1 = 0 then { s with bsp := .stopped }
      else
        { s with
          cpus := cpus
          nextCpuIndex := s.nextCpuIndex + 1
          heap := stack.2
          calls := ⟨cpu.apicId, s.nextCpuIndex, stack.1⟩ :: s.calls
          bsp := .writeCr3 }

def sendInit (P : Platform) (s : Smp) (dest : ApicId) : Smp :=
  { s with
    cores := fun id =>
      if P.addresses dest id && id != P.bspApicId then { s.cores id with pc := .waitForSipi }
      else s.cores id
    bsp := if P.addresses dest P.bspApicId then .stopped else .sendStartup }

def sendStartup (P : Platform) (s : Smp) (dest : ApicId) (bsp : BspPc) : Smp :=
  { s with
    sipis := fun id => if P.addresses dest id then s.sipis id + 1 else s.sipis id
    bsp := bsp }

/-- The next statement of the call `k` of `start_one_ap`. -/
def startOneAp (P : Platform) (k : ApCall) (s : Smp) : Smp :=
  match s.bsp with
  | .writeCr3 =>
    { s with params := { s.params with cr3 := alignDown P.targetCr3 4096 }, bsp := .writeStackTop }
  | .writeStackTop =>
    { s with params := { s.params with stackTop := k.stackTop }, bsp := .writeEntry }
  | .writeEntry =>
    { s with params := { s.params with entry := P.rustApEntry }, bsp := .writeCpuIndex }
  | .writeCpuIndex =>
    { s with params := { s.params with cpuIndex := k.cpuIndex }, bsp := .clearOnline }
  | .clearOnline =>
    { s with apOnline := Function.update s.apOnline k.cpuIndex false, bsp := .sendInit }
  | .sendInit => s.sendInit P k.apicId
  | .sendStartup => s.sendStartup P k.apicId (.firstWait 1)
  -- `wait_online`: a poll and a delay of one millisecond in every turn
  | .firstWait 0 => { s with bsp := .sendSecondStartup }
  | .firstWait (left + 1) =>
    { s with bsp := if s.apOnline k.cpuIndex then .readOnline else .firstWait left }
  | .sendSecondStartup => s.sendStartup P k.apicId (.secondWait 100)
  | .secondWait 0 => { s with bsp := .readOnline }
  | .secondWait (left + 1) =>
    { s with bsp := if s.apOnline k.cpuIndex then .readOnline else .secondWait left }
  | .readOnline => { s with started := s.started + (s.apOnline k.cpuIndex).toNat, bsp := .nextCpu }
  | .nextCpu | .finished | .stopped => s

def bspStep (P : Platform) (s : Smp) : Smp :=
  if s.bsp = .nextCpu then s.nextCpu P
  else
    match s.calls with
    | [] => s
    | k :: _ => s.startOneAp P k

/-- A Startup IPI takes effect; a core that does not wait for one ignores it. -/
def startup (s : Smp) (id : ApicId) : Smp :=
  { s with
    sipis := Function.update s.sipis id (s.sipis id - 1)
    cores :=
      if (s.cores id).pc = .waitForSipi then
        Function.update s.cores id { s.cores id with pc := .loadCr3 }
      else s.cores }

def setCore (s : Smp) (id : ApicId) (core : ApCore) : Smp :=
  { s with cores := Function.update s.cores id core }

/-- The next access of an application processor to the parameter block, its jump, or
`rust_ap_entry`. -/
def apStep (P : Platform) (s : Smp) (id : ApicId) : Smp :=
  let core := s.cores id
  match core.pc with
  -- 32 bits of CR3 are loaded; paging with any other root than the kernel's loses the core
  | .loadCr3 =>
    s.setCore id { core with
      pc := if s.params.cr3 % 2 ^ 32 = alignDown P.targetCr3 4096 then .loadStackTop else .lost }
  | .loadStackTop => s.setCore id { core with rsp := s.params.stackTop, pc := .loadCpuIndex }
  | .loadCpuIndex => s.setCore id { core with rdi := s.params.cpuIndex, pc := .loadEntry }
  | .loadEntry => s.setCore id { core with rax := s.params.entry, pc := .jump }
  | .jump =>
    if core.rax = P.rustApEntry then
      { s.setCore id { core with pc := .rustApEntry } with
        entries := ⟨id, core.rdi, core.rsp⟩ :: s.entries }
    else s.setCore id { core with pc := .lost }
  -- the index into `AP_ONLINE` is checked
  | .rustApEntry =>
    if core.rdi < maxCpus then
      { s.setCore id { core with pc := .online } with
        apOnline := Function.update s.apOnline core.rdi true }
    else s.setCore id { core with pc := .lost }
  | .parked | .waitForSipi | .online | .lost => s

end Smp

inductive SmpEvent where
  | bsp
  | startup (id : ApicId)
  | ap (id : ApicId)

def SmpEvent.Enabled (s : Smp) : SmpEvent → Prop
  | .bsp => s.bsp ≠ .finished ∧ s.bsp ≠ .stopped
  | .startup id => 0 < s.sipis id
  | .ap id => (s.cores id).pc ∉ [ApPc.parked, .waitForSipi, .online, .lost]

def SmpEvent.next (P : Platform) (s : Smp) : SmpEvent → Smp
  | .bsp => s.bspStep P
  | .startup id => s.startup id
  | .ap id => s.apStep P id

def smpSystem (P : Platform) : EventSystem Smp SmpEvent where
  Enabled := SmpEvent.Enabled
  next := SmpEvent.next P

/-- The boot processor has written `params_stack_top` for its latest call. -/
def BspPc.stackWritten : BspPc → Bool
  | .writeCr3 | .writeStackTop => false
  | _ => true

/-- The boot processor has written `params_cpu_index` for its latest call. -/
def BspPc.indexWritten : BspPc → Bool
  | .writeCr3 | .writeStackTop | .writeEntry | .writeCpuIndex => false
  | _ => true

/-- The latest call of `start_one_ap` is for the core `id`. -/
def Smp.CalledFor (s : Smp) (id : ApicId) : Prop := s.calls.head?.map ApCall.apicId = some id

/-- A core that loads its stack or its index finds the value written by the latest call, and that
call is its own. -/
def ReadsOwnParams (s : Smp) : SmpEvent → Prop
  | .ap id =>
    ((s.cores id).pc = .loadStackTop → s.bsp.stackWritten = true ∧ s.CalledFor id) ∧
      ((s.cores id).pc = .loadCpuIndex → s.bsp.indexWritten = true ∧ s.CalledFor id)
  | _ => True

def StacksApart (t t' : ℕ) : Prop := t + apStackSize ≤ t' ∨ t' + apStackSize ≤ t

/-- No two cores have entered `rust_ap_entry` with one index or with stacks that overlap, and every
index fits the per-core tables. -/
def Smp.OwnIdentities (s : Smp) : Prop :=
  (∀ e ∈ s.entries, e.cpuIndex < maxCpus) ∧
    ∀ e ∈ s.entries, ∀ e' ∈ s.entries, e.apicId ≠ e'.apicId →
      e.cpuIndex ≠ e'.cpuIndex ∧ StacksApart e.stackTop e'.stackTop

end MitosOS.Hal
