import MitosOS.Drivers.AhciCompletion

/-! When `issue_command` leaves a bit of `PENDING_SLOTS` behind. -/
namespace MitosOS.Drivers
open Lib

/-- The request that the call has not yet turned into a command table. -/
def Call.request : Call → Option Request
  | .waiting r _ | .readingSact r | .readingCi r _ => some r
  | .clearing r _ | .marking r _ | .building r _ => some r
  | _ => none

/-- The slot whose pending bit the call has set and still has to clear. -/
def Call.holds : Call → Option CommandSlot
  | .building _ slot | .issuing slot | .polling slot _ | .checking slot _ => some slot
  | .completing slot | .releasing slot | .expiring slot => some slot
  | _ => none

theorem Call.holds_of_isOver {c : Call} (h : c.isOver = true) : c.holds = none := by
  cases c with
  | idle => rfl
  | returned slot result => rfl
  | _ => simp [Call.isOver] at h

/-- Calls follow one another, on whatever port, and their requests are among `Q`. -/
def OneAtATime (Q : Request → Prop) (s : Ahci) : AhciEvent → Prop
  | .call _ r => Q r ∧ ∀ q, (s.calls q).isOver = true
  | _ => True

instance (Q : Request → Prop) [DecidablePred Q] (s : Ahci) :
    (e : AhciEvent) → Decidable (OneAtATime Q s e)
  | .call _ r => inferInstanceAs (Decidable (Q r ∧ ∀ q, (s.calls q).isOver = true))
  | .advance _ | .interrupt _ | .handle => inferInstanceAs (Decidable True)
  | .complete _ _ | .setTfd _ _ | .setSact _ _ => inferInstanceAs (Decidable True)

/-- A call that returns with its next access leaves the bit of its slot clear. -/
def Ahci.ReturnsClear (virtToPhys : ℕ → Option ℕ) (s : Ahci) : Prop :=
  ∀ p slot result, s.handler = none → (s.calls p).isOver = false →
    (s.advance virtToPhys p).calls p = .returned (some slot) result →
    (s.advance virtToPhys p).pendingSlots.getLsbD slot = false

/-- The only call in progress sets the pending bits and can build its table. -/
structure CallTidy (virtToPhys : ℕ → Option ℕ) (pending : BitVec 32) (done : CommandSlot → Bool)
    (c : Call) : Prop where
  builds : ∀ r, c.request = some r → ∃ prdt, buildPrdt virtToPhys r.buf = .ok prdt
  owner : ∀ slot : CommandSlot, pending.getLsbD slot = true → c.holds = some slot
  flagged : ∀ slot : CommandSlot, pending.getLsbD slot = true → done slot = true →
    c = .releasing slot
  fresh : ∀ r slot, c = .marking r slot → done slot = false

structure Ahci.TidyAt (virtToPhys : ℕ → Option ℕ) (s : Ahci) (p : Port) : Prop where
  others : ∀ q, q ≠ p → (s.calls q).isOver = true
  call : CallTidy virtToPhys s.pendingSlots s.slotCompletion (s.calls p)

def Ahci.Tidy (virtToPhys : ℕ → Option ℕ) (s : Ahci) : Prop := ∃ p, s.TidyAt virtToPhys p

section CallTidy
variable {virtToPhys : ℕ → Option ℕ} {pending : BitVec 32} {done : CommandSlot → Bool} {c c' : Call}

theorem CallTidy.clear (h : CallTidy virtToPhys pending done c) (hholds : c.holds = none)
    (slot : CommandSlot) : pending.getLsbD slot = false := by
  rw [Bool.eq_false_iff]
  intro hpending
  have hslot := h.owner slot hpending
  rw [hholds] at hslot
  contradiction

theorem CallTidy.of_clear (hclear : ∀ slot : CommandSlot, pending.getLsbD slot = false)
    (hbuilds : ∀ r, c.request = some r → ∃ prdt, buildPrdt virtToPhys r.buf = .ok prdt)
    (hfresh : ∀ r slot, c = .marking r slot → done slot = false) :
    CallTidy virtToPhys pending done c where
  builds := hbuilds
  owner slot hpending := absurd ((hclear slot).symm.trans hpending) Bool.false_ne_true
  flagged slot hpending := absurd ((hclear slot).symm.trans hpending) Bool.false_ne_true
  fresh := hfresh

theorem CallTidy.read (h : CallTidy virtToPhys pending done c) (hholds : c.holds = none)
    (hrequest : c'.request = c.request) (hmarking : ∀ r slot, c' ≠ .marking r slot) :
    CallTidy virtToPhys pending done c' := by
  apply CallTidy.of_clear (h.clear hholds)
  · rw [hrequest]
    exact h.builds
  · exact fun r slot hc => absurd hc (hmarking r slot)

theorem CallTidy.leave (hclear : ∀ slot : CommandSlot, pending.getLsbD slot = false)
    (hrequest : c'.request = none) (hmarking : ∀ r slot, c' ≠ .marking r slot) :
    CallTidy virtToPhys pending done c' := by
  apply CallTidy.of_clear hclear
  · intro r hr
    rw [hrequest] at hr
    contradiction
  · exact fun r slot hc => absurd hc (hmarking r slot)

theorem CallTidy.hold (h : CallTidy virtToPhys pending done c) (hholds : c'.holds = c.holds)
    (hrequest : c'.request = none) (hrelease : ∀ slot, c ≠ .releasing slot)
    (hmarking : ∀ r slot, c' ≠ .marking r slot) : CallTidy virtToPhys pending done c' where
  builds r hr := by
    rw [hrequest] at hr
    contradiction
  owner slot hpending := hholds.trans (h.owner slot hpending)
  flagged slot hpending hdone := absurd (h.flagged slot hpending hdone) (hrelease slot)
  fresh r slot hc := absurd hc (hmarking r slot)

theorem CallTidy.unflag {r : Request} {slot : CommandSlot}
    (h : CallTidy virtToPhys pending done (.clearing r slot)) :
    CallTidy virtToPhys pending (Function.update done slot false) (.marking r slot) := by
  apply CallTidy.of_clear (h.clear rfl)
  · exact h.builds
  · intro r' t ht
    obtain ⟨-, rfl⟩ := Call.marking.inj ht
    exact Function.update_self ..

theorem CallTidy.mark {r : Request} {slot : CommandSlot}
    (h : CallTidy virtToPhys pending done (.marking r slot)) :
    CallTidy virtToPhys (pending ||| 1#32 <<< slot.val) done (.building r slot) := by
  have hset : ∀ t : CommandSlot, (pending ||| 1#32 <<< slot.val).getLsbD t = true → t = slot := by
    intro t ht
    rw [getLsbD_setBit _ _ t.isLt, h.clear rfl t] at ht
    exact Fin.ext (by simpa using ht)
  constructor
  · exact h.builds
  · intro t ht
    rw [hset t ht]
    rfl
  · intro t ht hdone
    rw [hset t ht] at hdone
    exact absurd ((h.fresh r slot rfl).symm.trans hdone) Bool.false_ne_true
  · exact fun r' t ht => absurd ht (by simp)

/-- The flag of a bit that is still set is only up when the call is about to clear the bit. -/
theorem CallTidy.clear_of_flag {slot : CommandSlot} (h : CallTidy virtToPhys pending done c)
    (hholds : c.holds = some slot) (hrelease : c ≠ .releasing slot) (hdone : done slot = true)
    (t : CommandSlot) : pending.getLsbD t = false := by
  rw [Bool.eq_false_iff]
  intro hpending
  obtain rfl : slot = t := Option.some.inj (hholds.symm.trans (h.owner t hpending))
  exact hrelease (h.flagged slot hpending hdone)

theorem CallTidy.complete {slot : CommandSlot}
    (h : CallTidy virtToPhys pending done (.completing slot)) :
    CallTidy virtToPhys pending (Function.update done slot true) (.releasing slot) where
  builds r hr := absurd hr (by simp [Call.request])
  owner := h.owner
  flagged t hpending _ := by
    obtain rfl : slot = t := Option.some.inj (h.owner t hpending)
    rfl
  fresh r t ht := absurd ht (by simp)

theorem CallTidy.clear_of_release {slot : CommandSlot} (h : CallTidy virtToPhys pending done c)
    (hholds : c.holds = some slot) (t : CommandSlot) :
    (pending &&& ~~~(1#32 <<< slot.val)).getLsbD t = false := by
  rw [Bool.eq_false_iff]
  intro hpending
  have hbits : pending.getLsbD t = true ∧ t.val ≠ slot.val := by
    rw [getLsbD_clearBit _ _ t.isLt] at hpending
    simpa using hpending
  obtain rfl : slot = t := Option.some.inj (hholds.symm.trans (h.owner t hbits.1))
  exact hbits.2 rfl

theorem CallTidy.collect (h : CallTidy virtToPhys pending done c) (ci : BitVec 32) :
    CallTidy virtToPhys (pending &&& ~~~(pending &&& ~~~ci))
      (fun slot => (pending &&& ~~~ci).getLsbD slot || done slot) c := by
  have hbits : ∀ (completed : BitVec 32) (t : CommandSlot),
      (pending &&& ~~~completed).getLsbD t = true →
        pending.getLsbD t = true ∧ completed.getLsbD t = false := by
    intro completed t ht
    rw [BitVec.getLsbD_and, BitVec.getLsbD_not] at ht
    simpa using ht
  constructor
  · exact h.builds
  · exact fun t ht => h.owner t (hbits _ t ht).1
  · intro t ht hdone
    rw [(hbits _ t ht).2, Bool.false_or] at hdone
    exact h.flagged t (hbits _ t ht).1 hdone
  · -- a call about to set its bit finds none set, so no flag is raised
    rintro r slot rfl
    rw [BitVec.getLsbD_and, h.clear rfl slot, Bool.false_and, Bool.false_or]
    exact h.fresh r slot rfl

end CallTidy

namespace Ahci
variable {virtToPhys : ℕ → Option ℕ} {s : Ahci} {p : Port}

theorem TidyAt.goto (h : ∀ q, q ≠ p → (s.calls q).isOver = true) {c : Call}
    (hc : CallTidy virtToPhys s.pendingSlots s.slotCompletion c) :
    (s.goto p c).TidyAt virtToPhys p where
  others q hq := by simpa [Ahci.goto, hq] using h q hq
  call := by simpa [Ahci.goto] using hc

theorem TidyAt.advance (h : s.TidyAt virtToPhys p) :
    (s.advance virtToPhys p).TidyAt virtToPhys p := by
  have hp := h.call
  unfold Ahci.advance
  cases hcall : s.calls p with
  | idle => exact h
  | returned slot result => exact h
  | waiting r waited =>
    rw [hcall] at hp
    dsimp only
    split_ifs
    · exact TidyAt.goto h.others (CallTidy.leave (hp.clear rfl) rfl (by simp))
    · exact TidyAt.goto h.others (hp.read rfl rfl (by simp))
    · exact TidyAt.goto h.others (hp.read rfl rfl (by simp))
  | readingSact r =>
    rw [hcall] at hp
    exact TidyAt.goto h.others (hp.read rfl rfl (by simp))
  | readingCi r sact =>
    rw [hcall] at hp
    dsimp only
    cases findFreeSlot s.numSlots (sact ||| s.ci p) with
    | none => exact TidyAt.goto h.others (CallTidy.leave (hp.clear rfl) rfl (by simp))
    | some slot => exact TidyAt.goto h.others (hp.read rfl rfl (by simp))
  | clearing r slot =>
    rw [hcall] at hp
    exact TidyAt.goto (s := s.setCompletion slot false) h.others hp.unflag
  | marking r slot =>
    rw [hcall] at hp
    exact TidyAt.goto (s := s.setPending slot) h.others hp.mark
  | building r slot =>
    rw [hcall] at hp
    obtain ⟨prdt, hbuild⟩ := hp.builds r rfl
    dsimp only
    rw [hbuild]
    exact TidyAt.goto (s := s.writeTable p slot (commandTable r prdt)) h.others
      (hp.hold rfl rfl (by simp) (by simp))
  | issuing slot =>
    rw [hcall] at hp
    exact TidyAt.goto (s := s.writeCi p slot) h.others (hp.hold rfl rfl (by simp) (by simp))
  | polling slot timeout =>
    rw [hcall] at hp
    dsimp only
    split_ifs with hdone
    · have hclear := hp.clear_of_flag rfl (by simp) hdone
      exact TidyAt.goto h.others (CallTidy.leave hclear rfl (by simp))
    · exact TidyAt.goto h.others (hp.hold rfl rfl (by simp) (by simp))
  | checking slot timeout =>
    rw [hcall] at hp
    dsimp only
    split_ifs
    · exact TidyAt.goto h.others (hp.hold rfl rfl (by simp) (by simp))
    · exact TidyAt.goto h.others (hp.hold rfl rfl (by simp) (by simp))
    · exact TidyAt.goto h.others (hp.hold rfl rfl (by simp) (by simp))
  | completing slot =>
    rw [hcall] at hp
    exact TidyAt.goto (s := s.setCompletion slot true) h.others hp.complete
  | releasing slot =>
    rw [hcall] at hp
    exact TidyAt.goto (s := s.clearPending slot) h.others
      (CallTidy.leave (hp.clear_of_release rfl) rfl (by simp))
  | expiring slot =>
    rw [hcall] at hp
    exact TidyAt.goto (s := s.clearPending slot) h.others
      (CallTidy.leave (hp.clear_of_release rfl) rfl (by simp))
  | finishing slot =>
    rw [hcall] at hp
    have hclear := hp.clear rfl
    dsimp only
    split_ifs
    · exact TidyAt.goto h.others (CallTidy.leave hclear rfl (by simp))
    · exact TidyAt.goto h.others (CallTidy.leave hclear rfl (by simp))

theorem TidyAt.handle (h : s.TidyAt virtToPhys p) : s.handle.TidyAt virtToPhys p := by
  have hcollect : ∀ q, (s.collect q).TidyAt virtToPhys p := by
    intro q
    unfold Ahci.collect
    dsimp only
    split_ifs
    · exact ⟨h.others, h.call.collect (s.ci q)⟩
    · exact h
  unfold Ahci.handle
  split
  · exact h
  · split_ifs with hport hactive
    · exact ⟨(hcollect ⟨_, hport⟩).others, (hcollect ⟨_, hport⟩).call⟩
    · exact ⟨h.others, h.call⟩
    · exact ⟨h.others, h.call⟩

theorem Tidy.step {Q : Request → Prop} (h : s.Tidy virtToPhys)
    (hQ : ∀ r, Q r → ∃ prdt, buildPrdt virtToPhys r.buf = .ok prdt) (e : AhciEvent)
    (he : OneAtATime Q s e) : ((ahciSystem virtToPhys).next s e).Tidy virtToPhys := by
  obtain ⟨p, h⟩ := h
  cases e with
  | call q r =>
    obtain ⟨hr, hover⟩ := he
    refine ⟨q, TidyAt.goto (fun q' _ => hover q') ?_⟩
    apply CallTidy.of_clear (h.call.clear (Call.holds_of_isOver (hover p)))
    · intro r' hr'
      obtain rfl : r = r' := Option.some.inj hr'
      exact hQ r hr
    · exact fun r' slot hc => absurd hc (by simp)
  | advance q =>
    by_cases hq : q = p
    · subst hq
      exact ⟨q, h.advance⟩
    · show (s.advance virtToPhys q).Tidy virtToPhys
      rw [advance_of_isOver (h.others q hq)]
      exact ⟨p, h⟩
  | interrupt active =>
    show (s.interrupt active).Tidy virtToPhys
    unfold Ahci.interrupt
    split_ifs
    · exact ⟨p, h⟩
    · exact ⟨p, h.others, h.call⟩
    · exact ⟨p, h⟩
  | handle => exact ⟨p, h.handle⟩
  | complete q slot => exact ⟨p, h.others, h.call⟩
  | setTfd q value => exact ⟨p, h.others, h.call⟩
  | setSact q value => exact ⟨p, h.others, h.call⟩

theorem Tidy.returnsClear (h : s.Tidy virtToPhys) : s.ReturnsClear virtToPhys := by
  obtain ⟨q, h⟩ := h
  intro p slot result _ hbusy hreturned
  obtain rfl : p = q := by
    by_contra hpq
    rw [h.others p hpq] at hbusy
    contradiction
  apply h.advance.call.clear
  rw [hreturned]
  rfl

theorem Quiescent.tidy (h : s.Quiescent) (hpending : s.pendingSlots = 0) : s.Tidy virtToPhys := by
  refine ⟨0, fun q _ => by rw [h.calls q]; rfl, ?_⟩
  rw [h.calls 0, hpending]
  exact CallTidy.leave (fun _ => BitVec.getLsbD_zero) rfl (by simp)

section Failing
variable {Q : Request → Prop} {s₀ : Ahci}

theorem exists_run_free (virtToPhys : ℕ → Option ℕ) (Q : Request → Prop) (h₀ : s₀.Quiescent) :
    ∃ s, (ahciSystem virtToPhys).RunWhen (OneAtATime Q) s₀ s ∧ s.Quiescent ∧
      s.numSlots = s₀.numSlots ∧ s.tfd 0 = 0 ∧ s.sact 0 = 0 ∧ (s.ci 0).getLsbD 0 = false := by
  have hready : (ahciSystem virtToPhys).RunWhen (OneAtATime Q) s₀
      { s₀ with tfd := Function.update s₀.tfd 0 0, sact := Function.update s₀.sact 0 0 } :=
    .tail (.single ⟨.setTfd 0 0, trivial, trivial, rfl⟩) ⟨.setSact 0 0, trivial, trivial, rfl⟩
  cases hci : (s₀.ci 0).getLsbD 0 with
  | false => exact ⟨_, hready, ⟨h₀.calls, h₀.handler⟩, rfl, by simp, by simp, hci⟩
  | true =>
    refine ⟨_, hready.tail ⟨.complete 0 0, hci, trivial, rfl⟩, ⟨h₀.calls, h₀.handler⟩, rfl, ?_⟩
    refine ⟨by simp [ahciSystem, complete], by simp [ahciSystem, complete], ?_⟩
    simp [ahciSystem, complete]

theorem findFreeSlot_zero {numSlots : ℕ} {busy : BitVec 32} (hslots : 0 < numSlots)
    (hbusy : busy.getLsbD 0 = false) : findFreeSlot numSlots busy = some 0 := by
  rw [findFreeSlot, List.finRange_succ, List.find?_cons_of_pos]
  simpa [hslots] using hbusy

theorem run_advance {s' : Ahci} (p : Port)
    (h : (ahciSystem virtToPhys).RunWhen (OneAtATime Q) s₀ s) (hhandler : s.handler = none)
    (hadvance : s.advance virtToPhys p = s') :
    (ahciSystem virtToPhys).RunWhen (OneAtATime Q) s₀ s' :=
  h.tail ⟨.advance p, hhandler, trivial, hadvance⟩

theorem exists_run_building (h₀ : s₀.Quiescent) (hslots : 0 < s₀.numSlots) {r : Request}
    (hr : Q r) :
    ∃ s, (ahciSystem virtToPhys).RunWhen (OneAtATime Q) s₀ s ∧ s.handler = none ∧
      s.calls 0 = .building r 0 ∧ s.pendingSlots.getLsbD 0 = true := by
  obtain ⟨s, hrun, hs, hnum, htfd, hsact, hci⟩ := exists_run_free virtToPhys Q h₀
  have hover : ∀ q, (s.calls q).isOver = true := fun q => by rw [hs.calls q]; rfl
  have hfree : findFreeSlot s.numSlots (s.ci 0) = some 0 := findFreeSlot_zero (by rwa [hnum]) hci
  have hwaiting : (ahciSystem virtToPhys).RunWhen (OneAtATime Q) s₀ (s.goto 0 (.waiting r 0)) :=
    hrun.tail ⟨.call 0 r, ⟨hs.handler, hover 0⟩, ⟨hr, hover⟩, rfl⟩
  have hsacting : (ahciSystem virtToPhys).RunWhen (OneAtATime Q) s₀ (s.goto 0 (.readingSact r)) :=
    run_advance 0 hwaiting hs.handler (by simp [Ahci.advance, Ahci.goto, htfd])
  have hciing : (ahciSystem virtToPhys).RunWhen (OneAtATime Q) s₀ (s.goto 0 (.readingCi r 0)) :=
    run_advance 0 hsacting hs.handler (by simp [Ahci.advance, Ahci.goto, hsact])
  have hclearing : (ahciSystem virtToPhys).RunWhen (OneAtATime Q) s₀ (s.goto 0 (.clearing r 0)) :=
    run_advance 0 hciing hs.handler (by simp [Ahci.advance, Ahci.goto, hfree])
  have hmarking : (ahciSystem virtToPhys).RunWhen (OneAtATime Q) s₀
      ((s.setCompletion 0 false).goto 0 (.marking r 0)) :=
    run_advance 0 hclearing hs.handler (by simp [Ahci.advance, Ahci.goto, Ahci.setCompletion])
  refine ⟨_, run_advance 0 hmarking hs.handler rfl, ?_⟩
  simp [Ahci.advance, Ahci.goto, setPending, Ahci.setCompletion, hs.handler]

end Failing

end Ahci

/-- When calls follow one another, every return leaves the bit of its slot clear exactly when
`build_prdt` succeeds for every request. -/
theorem issueCommand_returns_clear_iff (virtToPhys : ℕ → Option ℕ) (Q : Request → Prop)
    (s₀ : Ahci) (h₀ : s₀.Quiescent) (hpending : s₀.pendingSlots = 0) (hslots : 0 < s₀.numSlots) :
    (∀ s, (ahciSystem virtToPhys).RunWhen (OneAtATime Q) s₀ s → s.ReturnsClear virtToPhys) ↔
      ∀ r, Q r → ∃ prdt, buildPrdt virtToPhys r.buf = .ok prdt := by
  constructor
  · intro hclear r hr
    obtain ⟨s, hrun, hhandler, hcall, hbit⟩ := Ahci.exists_run_building h₀ hslots hr
    cases hbuild : buildPrdt virtToPhys r.buf with
    | ok prdt => exact ⟨prdt, rfl⟩
    | error e =>
      have hadvance : s.advance virtToPhys 0 = s.goto 0 (.returned (some 0) (.error e)) := by
        simp [Ahci.advance, hcall, hbuild]
      have hreturned := hclear s hrun 0 0 (.error e) hhandler (by rw [hcall]; rfl)
      rw [hadvance] at hreturned
      have hbit' := hreturned (by simp [Ahci.goto])
      exact absurd (hbit'.symm.trans hbit) Bool.false_ne_true
  · intro hQ s hrun
    apply Ahci.Tidy.returnsClear
    exact hrun.invariant (fun _ e hs _ he => hs.step hQ e he) (h₀.tidy hpending)

/-- The page of the buffer has no translation: the call returns with its bit set. -/
theorem issueCommand_returns_pending :
    ∃ s, (ahciSystem fun _ => none).RunWhen (OneAtATime (· = readRequest)) restingAhci s ∧
      s.calls 0 = .returned (some 0) (.error .addressTranslationFailed) ∧
      s.pendingSlots.getLsbD 0 = true := by
  apply EventSystem.exists_runWhen (.call 0 readRequest :: List.replicate 6 (.advance 0))
  decide

theorem issueCommand_returns_clear_read :
    ∃ s, (ahciSystem some).RunWhen (OneAtATime (· = readRequest)) restingAhci s ∧
      (s.calls 0).isOver = false ∧
      (s.advance some 0).calls 0 = .returned (some 0) (.ok ()) ∧
      s.ReturnsClear some := by
  obtain ⟨s, hrun, hbusy, hreturned⟩ : ∃ s,
      (ahciSystem some).RunWhen (OneAtATime (· = readRequest)) restingAhci s ∧
        (s.calls 0).isOver = false ∧
        (s.advance some 0).calls 0 = .returned (some 0) (.ok ()) := by
    apply EventSystem.exists_runWhen (.call 0 readRequest :: List.replicate 7 (.advance 0) ++
      .complete 0 0 :: List.replicate 4 (.advance 0))
    decide
  have hbuild : ∀ r, r = readRequest → ∃ prdt, buildPrdt some r.buf = .ok prdt := by
    rintro r rfl
    exact ⟨[prdtEntry 0x1000 512], by decide⟩
  exact ⟨s, hrun, hbusy, hreturned,
    (issueCommand_returns_clear_iff some (· = readRequest) restingAhci restingAhci_quiescent rfl
      Nat.one_pos).mpr hbuild s hrun⟩

end MitosOS.Drivers
