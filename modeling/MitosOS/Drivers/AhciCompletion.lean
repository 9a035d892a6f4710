import MitosOS.Drivers.Ahci
import Mathlib.Tactic.Cases

/-! When a command that reports success has been completed by the device. -/
namespace MitosOS.Drivers
open Lib

/-- The slot whose completion flag the call still relies on. -/
def Call.awaits : Call → Option CommandSlot
  | .marking _ slot | .building _ slot | .issuing slot => some slot
  | .polling slot _ | .checking slot _ => some slot
  | _ => none

/-- The command is in `PORT_CI` and its completion is being waited for. -/
def Call.isIssued : Call → Bool
  | .polling _ _ | .checking _ _ => true
  | _ => false

def Call.succeeds : Call → Option CommandSlot
  | .completing slot | .releasing slot | .finishing slot => some slot
  | .returned slot (.ok _) => slot
  | _ => none

/-- The event sets `SLOT_COMPLETION[slot]` because of what it saw on port `p`. -/
def AhciEvent.marks (s : Ahci) (p : Port) (slot : CommandSlot) : AhciEvent → Bool
  | .handle =>
    match s.handler with
    | none => false
    | some (active, port) =>
      port == p.val && active.getLsbD p && s.pendingSlots.getLsbD slot && !(s.ci p).getLsbD slot
  | .advance q => q == p && s.calls p == .completing slot
  | _ => false

/-- A slot is marked complete only for a command that was written to the port looked at. -/
def AhciEvent.Attributed (s : Ahci) (e : AhciEvent) : Prop :=
  ∀ q, ∀ slot ∈ (s.calls q).awaits, ∀ p, e.marks s p slot = true →
    q = p ∧ (s.calls q).isIssued = true

instance (s : Ahci) (e : AhciEvent) : Decidable (e.Attributed s) :=
  inferInstanceAs (Decidable (∀ q, ∀ slot ∈ (s.calls q).awaits, ∀ p, e.marks s p slot = true →
    q = p ∧ (s.calls q).isIssued = true))

/-- What the flags and the register tell a call about its command. -/
structure CallSound (ci : BitVec 32) (done cleared : CommandSlot → Bool) (c : Call) : Prop where
  unissued : ∀ slot, c.awaits = some slot → c.isIssued = false → done slot = false
  register : ∀ slot, c.awaits = some slot → c.isIssued = true → ci.getLsbD slot = false →
    cleared slot = true
  flag : ∀ slot, c.awaits = some slot → c.isIssued = true → done slot = true → cleared slot = true
  succeeded : ∀ slot, c.succeeds = some slot → cleared slot = true

def Ahci.Sound (s : Ahci) : Prop :=
  ∀ p, CallSound (s.ci p) s.slotCompletion (s.cleared p) (s.calls p)

section CallSound
variable {ci : BitVec 32} {done done' cleared : CommandSlot → Bool} {c : Call}

theorem CallSound.settled (hawaits : c.awaits = none)
    (hsucceeds : ∀ slot, c.succeeds = some slot → cleared slot = true) :
    CallSound ci done cleared c := by
  refine ⟨?_, ?_, ?_, hsucceeds⟩
  all_goals
    intro slot hc
    rw [hawaits] at hc
    contradiction

theorem CallSound.congr (h : CallSound ci done cleared c) {c' : Call}
    (hawaits : c'.awaits = c.awaits) (hissued : c'.isIssued = c.isIssued)
    (hsucceeds : c'.succeeds = c.succeeds) : CallSound ci done cleared c' := by
  refine ⟨?_, ?_, ?_, ?_⟩
  · rw [hawaits, hissued]
    exact h.unissued
  · rw [hawaits, hissued]
    exact h.register
  · rw [hawaits, hissued]
    exact h.flag
  · rw [hsucceeds]
    exact h.succeeded

/-- A flag may be set, for the slot a call waits on, once its bit is known to be cleared. -/
theorem CallSound.flags (h : CallSound ci done cleared c)
    (hflag : ∀ slot, c.awaits = some slot → done' slot = true →
      done slot = true ∨ c.isIssued = true ∧ cleared slot = true) :
    CallSound ci done' cleared c where
  unissued slot hc hissued := by
    rw [Bool.eq_false_iff]
    intro hdone
    rcases hflag slot hc hdone with hold | ⟨hi, -⟩
    · simp [h.unissued slot hc hissued] at hold
    · simp [hissued] at hi
  register := h.register
  flag slot hc hissued hdone := by
    rcases hflag slot hc hdone with hold | ⟨-, hcleared⟩
    · exact h.flag slot hc hissued hold
    · exact hcleared
  succeeded := h.succeeded

theorem CallSound.complete (h : CallSound ci done cleared c) (slot : CommandSlot) :
    CallSound (ci &&& ~~~(1#32 <<< slot.val)) done (Function.update cleared slot true) c := by
  have hkeep : ∀ t, cleared t = true → Function.update cleared slot true t = true := by
    intro t ht
    by_cases hts : t = slot
    · rw [hts, Function.update_self]
    · rwa [Function.update_of_ne hts]
  refine ⟨h.unissued, ?_, fun t hc hi hd => hkeep t (h.flag t hc hi hd),
    fun t hc => hkeep t (h.succeeded t hc)⟩
  intro t hc hissued hclear
  by_cases hts : t = slot
  · rw [hts, Function.update_self]
  · apply hkeep t (h.register t hc hissued _)
    have hne : t.val ≠ slot.val := fun hv => hts (Fin.ext hv)
    rw [getLsbD_clearBit ci slot t.isLt] at hclear
    simpa [hne] using hclear

end CallSound

namespace Ahci
variable {virtToPhys : ℕ → Option ℕ} {s : Ahci} {p : Port}

theorem Sound.goto (h : s.Sound) {c : Call}
    (hc : CallSound (s.ci p) s.slotCompletion (s.cleared p) c) : (s.goto p c).Sound := by
  intro q
  by_cases hq : q = p
  · subst hq
    simpa [Ahci.goto] using hc
  · simpa [Ahci.goto, hq] using h q

theorem Sound.leave (h : s.Sound) {c : Call} (hawaits : c.awaits = none)
    (hsucceeds : c.succeeds = none) : (s.goto p c).Sound := by
  apply h.goto (CallSound.settled hawaits _)
  rw [hsucceeds]
  exact fun _ hslot => nomatch hslot

theorem Sound.clearCompletion (h : s.Sound) (slot : CommandSlot) :
    (s.setCompletion slot false).Sound := by
  intro q
  apply (h q).flags
  intro t _ ht
  by_cases hts : t = slot
  · subst hts
    simp [setCompletion] at ht
  · left
    simpa [setCompletion, hts] using ht

theorem Sound.setCompletion (h : s.Sound) {slot : CommandSlot}
    (hfree : ∀ q, (s.calls q).awaits ≠ some slot) : (s.setCompletion slot true).Sound := by
  intro q
  apply (h q).flags
  intro t hq ht
  have hts : t ≠ slot := fun hts => hfree q (hts ▸ hq)
  left
  simpa [Ahci.setCompletion, hts] using ht

theorem Sound.issue (h : s.Sound) {slot : CommandSlot} (hcall : s.calls p = .issuing slot)
    (timeout : ℕ) : ((s.writeCi p slot).goto p (.polling slot timeout)).Sound := by
  have hdone : s.slotCompletion slot = false := by
    apply (h p).unissued slot
    · rw [hcall]; rfl
    · rw [hcall]; rfl
  intro q
  by_cases hq : q = p
  · subst hq
    simp only [Ahci.goto, writeCi, Function.update_self]
    constructor
    · simp [Call.isIssued]
    · intro t ht _ hclear
      obtain rfl : slot = t := Option.some.inj ht
      simp at hclear
    · intro t ht _ hflag
      obtain rfl : slot = t := Option.some.inj ht
      simp [hdone] at hflag
    · simp [Call.succeeds]
  · simpa [Ahci.goto, writeCi, hq] using h q

theorem Sound.collect (h : s.Sound)
    (hattr : ∀ q slot, (s.calls q).awaits = some slot → s.pendingSlots.getLsbD slot = true →
      (s.ci p).getLsbD slot = false → q = p ∧ (s.calls q).isIssued = true) :
    (s.collect p).Sound := by
  unfold Ahci.collect
  dsimp only
  split_ifs
  · intro q
    apply (h q).flags
    intro t hq ht
    rcases Bool.or_eq_true_iff.mp ht with hcompleted | hold
    · right
      rw [BitVec.getLsbD_and, BitVec.getLsbD_not] at hcompleted
      have hbits : s.pendingSlots.getLsbD t = true ∧ (s.ci p).getLsbD t = false := by
        simpa using hcompleted
      obtain ⟨rfl, hissued⟩ := hattr q t hq hbits.1 hbits.2
      exact ⟨hissued, (h q).register t hq hissued hbits.2⟩
    · exact Or.inl hold
  · exact h

theorem Sound.handle (h : s.Sound) (hattr : AhciEvent.handle.Attributed s) : s.handle.Sound := by
  unfold Ahci.handle
  split
  · exact h
  · rename_i active port hhandler
    split_ifs with hport hactive
    · apply h.collect
      intro q slot hq hpending hclear
      apply hattr q slot hq ⟨port, hport⟩
      simpa [AhciEvent.marks, hhandler, hactive, hpending] using hclear
    · exact h
    · exact h

theorem Sound.advance (h : s.Sound) (hattr : (AhciEvent.advance p).Attributed s) :
    (s.advance virtToPhys p).Sound := by
  have hp := h p
  unfold Ahci.advance
  cases hcall : s.calls p with
  | idle => exact h
  | returned slot result => exact h
  | waiting r waited =>
    dsimp only
    split_ifs
    · exact h.leave rfl rfl
    · exact h.leave rfl rfl
    · exact h.leave rfl rfl
  | readingSact r => exact h.leave rfl rfl
  | readingCi r sact =>
    dsimp only
    cases findFreeSlot s.numSlots (sact ||| s.ci p) with
    | none => exact h.leave rfl rfl
    | some slot => exact h.leave rfl rfl
  | clearing r slot =>
    apply (h.clearCompletion slot).goto
    constructor
    · intro t ht _
      obtain rfl : slot = t := Option.some.inj ht
      simp [Ahci.setCompletion]
    all_goals simp [Call.isIssued, Call.succeeds]
  | marking r slot =>
    rw [hcall] at hp
    exact Sound.goto (s := s.setPending slot) h (hp.congr rfl rfl rfl)
  | building r slot =>
    rw [hcall] at hp
    dsimp only
    cases buildPrdt virtToPhys r.buf with
    | error e => exact h.leave rfl rfl
    | ok prdt =>
      exact Sound.goto (s := s.writeTable p slot (commandTable r prdt)) h (hp.congr rfl rfl rfl)
  | issuing slot => exact h.issue hcall 2000000
  | polling slot timeout =>
    rw [hcall] at hp
    dsimp only
    split_ifs with hdone
    · apply h.goto
      apply CallSound.settled rfl
      intro t ht
      obtain rfl : slot = t := Option.some.inj ht
      exact hp.flag slot rfl rfl hdone
    · exact h.goto (hp.congr rfl rfl rfl)
  | checking slot timeout =>
    rw [hcall] at hp
    dsimp only
    split_ifs with hbit htimeout
    · exact h.leave rfl rfl
    · exact h.goto (hp.congr rfl rfl rfl)
    · apply h.goto
      apply CallSound.settled rfl
      intro t ht
      obtain rfl : slot = t := Option.some.inj ht
      exact hp.register slot rfl rfl (by simpa using hbit)
  | completing slot =>
    -- no other call waits on this flag, and this one no longer does
    have hfree : ∀ q, (s.calls q).awaits ≠ some slot := by
      intro q hq
      obtain ⟨rfl, -⟩ := hattr q slot hq p (by simp [AhciEvent.marks, hcall])
      simp [hcall, Call.awaits] at hq
    rw [hcall] at hp
    exact (h.setCompletion hfree).goto (CallSound.settled rfl hp.succeeded)
  | releasing slot =>
    rw [hcall] at hp
    exact Sound.goto (s := s.clearPending slot) h (hp.congr rfl rfl rfl)
  | expiring slot => exact Sound.leave (s := s.clearPending slot) h rfl rfl
  | finishing slot =>
    rw [hcall] at hp
    dsimp only
    split_ifs
    · exact h.leave rfl rfl
    · exact h.goto (hp.congr rfl rfl rfl)

theorem Sound.complete (h : s.Sound) (p : Port) (slot : CommandSlot) :
    (s.complete p slot).Sound := by
  intro q
  by_cases hq : q = p
  · subst hq
    simpa [Ahci.complete] using (h q).complete slot
  · simpa [Ahci.complete, hq] using h q

theorem Sound.step (h : s.Sound) (e : AhciEvent) (hattr : e.Attributed s) :
    ((ahciSystem virtToPhys).next s e).Sound := by
  cases e with
  | call p r => exact h.leave rfl rfl
  | advance p => exact h.advance hattr
  | interrupt active =>
    show (s.interrupt active).Sound
    unfold Ahci.interrupt
    split_ifs
    · exact h
    · exact h
    · exact h
  | handle => exact h.handle hattr
  | complete p slot => exact h.complete p slot
  | setTfd p value => exact h
  | setSact p value => exact h

structure Quiescent (s : Ahci) : Prop where
  calls : ∀ p, s.calls p = .idle
  handler : s.handler = none

theorem Quiescent.sound (h : s.Quiescent) : s.Sound := by
  intro p
  rw [h.calls p]
  exact CallSound.settled rfl fun _ hslot => nomatch hslot

end Ahci

/-- While completions are marked only for commands written to the port looked at, a call that
returns `Ok` has had its bit of `PORT_CI` cleared by the device since it wrote it. -/
theorem issueCommand_ok_completed (virtToPhys : ℕ → Option ℕ) (s₀ s : Ahci) (h₀ : s₀.Quiescent)
    (hrun : (ahciSystem virtToPhys).RunWhen (fun s e => e.Attributed s) s₀ s) (p : Port)
    (slot : CommandSlot) (hreturned : s.calls p = .returned (some slot) (.ok ())) :
    s.cleared p slot = true := by
  have hsound : s.Sound :=
    hrun.invariant (fun _ e hs _ hattr => hs.step e hattr) h₀.sound
  apply (hsound p).succeeded slot
  rw [hreturned]
  rfl

section Traces

def restingAhci : Ahci where
  baseVirt := 0xFEB00000
  numSlots := 1
  ci _ := 0
  sact _ := 0
  tfd _ := 0x50
  tables _ _ := none
  slotCompletion _ := false
  pendingSlots := 0
  calls _ := .idle
  handler := none
  cleared _ _ := false

def readRequest : Request where
  command := 0x25
  lba := 0
  sectorCount := 1
  write := false
  buf := { addr := 0x1000, len := 512 }

theorem restingAhci_quiescent : restingAhci.Quiescent := ⟨fun _ => rfl, rfl⟩

/-- Port 0 has marked its slot pending and not yet written `PORT_CI` when port 1 interrupts. -/
def strayInterrupt : List AhciEvent :=
  .call 0 readRequest :: List.replicate 5 (.advance 0) ++ .interrupt 2 :: List.replicate 33 .handle ++
    List.replicate 4 (.advance 0)

/-- The command is written, the device completes it, and the call finds its bit dropped. -/
def servedCommand : List AhciEvent :=
  .call 0 readRequest :: List.replicate 7 (.advance 0) ++ .complete 0 0 ::
    List.replicate 5 (.advance 0)

/-- The call returns `Ok` with its bit of `PORT_CI` still set. -/
theorem issueCommand_ok_in_flight :
    ∃ s, (ahciSystem some).Run restingAhci s ∧ s.calls 0 = .returned (some 0) (.ok ()) ∧
      s.cleared 0 0 = false ∧ (s.ci 0).getLsbD 0 = true := by
  apply EventSystem.exists_runWhen strayInterrupt
  decide +kernel

theorem issueCommand_ok_completed_read :
    ∃ s, (ahciSystem some).RunWhen (fun s e => e.Attributed s) restingAhci s ∧
      s.calls 0 = .returned (some 0) (.ok ()) ∧ s.cleared 0 0 = true := by
  obtain ⟨s, hrun, hreturned⟩ : ∃ s,
      (ahciSystem some).RunWhen (fun s e => e.Attributed s) restingAhci s ∧
        s.calls 0 = .returned (some 0) (.ok ()) := by
    apply EventSystem.exists_runWhen servedCommand
    decide +kernel
  exact ⟨s, hrun, hreturned,
    issueCommand_ok_completed some restingAhci s restingAhci_quiescent hrun 0 0 hreturned⟩

end Traces

end MitosOS.Drivers
