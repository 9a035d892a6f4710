import MitosOS.Fs.Block

/-! The ATA driver of `fs/ata.rs`. A controller is known to it only by what it answers to each `in`
instruction, so it is any sequence of answers; what the driver does to it is the list of its `out`
instructions. -/
namespace MitosOS.Fs.Ata
open MitosOS.Lib MitosOS.Lib.Action

inductive Port where
  | data
  | error
  | sectorCount
  | lbaLow
  | lbaMid
  | lbaHigh
  | driveHead
  | command
  | altStatus
  deriving DecidableEq, Repr

inductive PortWrite where
  | outb (port : Port) (value : BitVec 8)
  | outw (port : Port) (value : BitVec 16)
  deriving DecidableEq, Repr

/-- The answers of the controller, how many of them have been read, and the writes so far. -/
structure Ports where
  answers : ℕ → BitVec 16
  reads : ℕ
  log : List PortWrite

inductive AtaError where
  | timeout
  | deviceError (code : BitVec 8)
  deriving DecidableEq, Repr

def cmdReadSectors : BitVec 8 := 0x20
def cmdWriteSectors : BitVec 8 := 0x30
def cmdCacheFlush : BitVec 8 := 0xE7

def statusErr : BitVec 8 := 1 <<< 0
def statusDrq : BitVec 8 := 1 <<< 3
def statusDf : BitVec 8 := 1 <<< 5
def statusBsy : BitVec 8 := 1 <<< 7

def pollAttempts : ℕ := 1000000

section Driver

def outb (port : Port) (value : BitVec 8) : Action Ports Unit := fun s =>
  (.ok (), { s with log := s.log ++ [.outb port value] })

def outw (port : Port) (value : BitVec 16) : Action Ports Unit := fun s =>
  (.ok (), { s with log := s.log ++ [.outw port value] })

def inw (_port : Port) : Action Ports (BitVec 16) := fun s =>
  (.ok (s.answers s.reads), { s with reads := s.reads + 1 })

def inb (port : Port) : Action Ports (BitVec 8) := do
  let value ← inw port
  pure (value.setWidth 8)

def ioDelay : Action Ports Unit := do
  let _ ← inb .altStatus
  let _ ← inb .altStatus
  let _ ← inb .altStatus
  let _ ← inb .altStatus
  pure ()

/-- The loop of `wait_while_busy`, with the attempts left. Status and command share a port. -/
def waitWhileBusyFrom : ℕ → Action Ports (Except AtaError Unit)
  | 0 => pure (.error .timeout)
  | n + 1 => do
    let status ← inb .command
    if status &&& statusBsy = 0 then pure (.ok ()) else waitWhileBusyFrom n

def waitWhileBusy : Action Ports (Except AtaError Unit) := waitWhileBusyFrom pollAttempts

def waitForDataFrom : ℕ → Action Ports (Except AtaError Unit)
  | 0 => pure (.error .timeout)
  | n + 1 => do
    let status ← inb .command
    if status &&& (statusErr ||| statusDf) ≠ 0 then do
      let code ← inb .error
      pure (.error (.deviceError code))
    else if status &&& statusBsy = 0 ∧ status &&& statusDrq ≠ 0 then pure (.ok ())
    else waitForDataFrom n

def waitForData : Action Ports (Except AtaError Unit) := waitForDataFrom pollAttempts

/-- The register writes that start a transfer of one sector, the same in all three functions. -/
def issue (lba : ℕ) (command : BitVec 8) : Action Ports Unit := do
  outb .driveHead (0xE0 ||| (BitVec.ofNat 8 (lba / 2 ^ 24) &&& 0x0F))
  ioDelay
  outb .sectorCount 1
  outb .lbaLow (BitVec.ofNat 8 lba)
  outb .lbaMid (BitVec.ofNat 8 (lba / 2 ^ 8))
  outb .lbaHigh (BitVec.ofNat 8 (lba / 2 ^ 16))
  outb .command command

def readWords : ℕ → Action Ports (List (BitVec 8))
  | 0 => pure []
  | n + 1 => do
    let word ← inw .data
    let rest ← readWords n
    pure (word.setWidth 8 :: (word >>> 8).setWidth 8 :: rest)

def writeWords : List (BitVec 8) → Action Ports Unit
  | low :: high :: rest => do
    outw .data (low.setWidth 16 ||| high.setWidth 16 <<< 8)
    writeWords rest
  | _ => pure ()

/-- The loop of `read_sectors`, with the sectors left and the next one. -/
def readSectorsFrom (checks : Bool) (lba : ℕ) :
    ℕ → ℕ → List (BitVec 8) → Action Ports (Except AtaError (List (BitVec 8)))
  | 0, _, buf => pure (.ok buf)
  | n + 1, i, buf => do
    let currentLba ← .lift (addU checks 32 lba i)
    match ← waitWhileBusy with
    | .error e => pure (.error e)
    | .ok () => do
      issue currentLba cmdReadSectors
      match ← waitForData with
      | .error e => pure (.error e)
      | .ok () => do
        let start ← .lift (mulU checks 64 i 512)
        let stop ← .lift (addU checks 64 start 512)
        let chunk ← .lift (slice buf start stop)
        let bytes ← readWords (chunk.length / 2)
        readSectorsFrom checks lba n (i + 1) (buf.take start ++ bytes ++ buf.drop stop)

def readSectors (checks : Bool) (lba count : BitVec 32) (buf : List (BitVec 8)) :
    Action Ports (Except AtaError (List (BitVec 8))) :=
  if buf.length ≠ count.toNat * 512 then .lift .panic
  else readSectorsFrom checks lba.toNat count.toNat 0 buf

def flushCache : Action Ports (Except AtaError Unit) := do
  match ← waitWhileBusy with
  | .error e => pure (.error e)
  | .ok () => do
    outb .command cmdCacheFlush
    waitWhileBusy

def transfer {α : Type} (lba : ℕ) (command : BitVec 8) (rest : Action Ports α) :
    Action Ports α := do
  match ← waitWhileBusy with
  | .error _ => .fail "ATA Timeout"
  | .ok () => do
    issue lba command
    rest

def receive : Action Ports (List (BitVec 8)) := do
  match ← waitForData with
  | .error _ => .fail "ATA Device Error during Read"
  | .ok () => readWords 256

def send (buf : Sector) : Action Ports Unit := do
  match ← waitForData with
  | .error _ => .fail "ATA Device Error during Write"
  | .ok () => do
    writeWords buf.toList
    match ← flushCache with
    | .error _ => .fail "ATA Cache Flush Failed"
    | .ok () => pure ()

def readSector (totalSectors : BitVec 32) (sectorId : ℕ) : Action Ports (List (BitVec 8)) :=
  let lba := BitVec.ofNat 32 sectorId
  if totalSectors ≤ lba then .fail "ATA Read Out of Bounds"
  else transfer lba.toNat cmdReadSectors receive

def writeSector (totalSectors : BitVec 32) (sectorId : ℕ) (buf : Sector) : Action Ports Unit :=
  let lba := BitVec.ofNat 32 sectorId
  if totalSectors ≤ lba then .fail "ATA Write Out of Bounds"
  else transfer lba.toNat cmdWriteSectors (send buf)

end Driver

structure Registers where
  driveHead : BitVec 8
  lbaLow : BitVec 8
  lbaMid : BitVec 8
  lbaHigh : BitVec 8

namespace Registers

def lba (r : Registers) : ℕ :=
  r.lbaLow.toNat + 2 ^ 8 * r.lbaMid.toNat + 2 ^ 16 * r.lbaHigh.toNat +
    2 ^ 24 * (r.driveHead &&& 0x0F).toNat

def write (r : Registers) : Port → BitVec 8 → Registers
  | .driveHead, value => { r with driveHead := value }
  | .lbaLow, value => { r with lbaLow := value }
  | .lbaMid, value => { r with lbaMid := value }
  | .lbaHigh, value => { r with lbaHigh := value }
  | _, _ => r

end Registers

/-- A write that makes the controller transfer a sector. -/
def PortWrite.Starts : PortWrite → Prop
  | .outb port value => port = .command ∧ (value = cmdReadSectors ∨ value = cmdWriteSectors)
  | .outw _ _ => False

instance (w : PortWrite) : Decidable w.Starts :=
  match w with
  | .outb _ _ => inferInstanceAs (Decidable (_ ∧ _))
  | .outw _ _ => inferInstanceAs (Decidable False)

def Registers.after (r : Registers) : PortWrite → Registers
  | .outb port value => r.write port value
  | .outw _ _ => r

def transfers (r : Registers) : List PortWrite → List ℕ
  | [] => []
  | w :: log => if w.Starts then r.lba :: transfers r log else transfers (r.after w) log

section Transfers
variable {r : Registers} {l l' : List PortWrite}

def Idle (l : List PortWrite) : Prop := ∀ w ∈ l, ¬ w.Starts

theorem Idle.append (h : Idle l) (h' : Idle l') : Idle (l ++ l') := by
  intro w hw
  rcases List.mem_append.mp hw with hw | hw
  · exact h w hw
  · exact h' w hw

theorem transfers_idle_append (h : Idle l) (r : Registers) (l' : List PortWrite) :
    transfers r (l ++ l') = transfers (l.foldl Registers.after r) l' := by
  induction l generalizing r with
  | nil => rfl
  | cons w l ih =>
    rw [List.cons_append, transfers, if_neg (h w List.mem_cons_self), List.foldl_cons]
    exact ih (fun w' hw' => h w' (List.mem_cons_of_mem w hw')) _

theorem transfers_idle (h : Idle l) (r : Registers) : transfers r l = [] := by
  rw [← List.append_nil l, transfers_idle_append h]
  rfl

def issueWrites (lba : ℕ) (command : BitVec 8) : List PortWrite :=
  [.outb .driveHead (0xE0 ||| (BitVec.ofNat 8 (lba / 2 ^ 24) &&& 0x0F)), .outb .sectorCount 1,
    .outb .lbaLow (BitVec.ofNat 8 lba), .outb .lbaMid (BitVec.ofNat 8 (lba / 2 ^ 8)),
    .outb .lbaHigh (BitVec.ofNat 8 (lba / 2 ^ 16)), .outb .command command]

def addressed (lba : ℕ) : Registers where
  driveHead := 0xE0 ||| (BitVec.ofNat 8 (lba / 2 ^ 24) &&& 0x0F)
  lbaLow := BitVec.ofNat 8 lba
  lbaMid := BitVec.ofNat 8 (lba / 2 ^ 8)
  lbaHigh := BitVec.ofNat 8 (lba / 2 ^ 16)

theorem lba_addressed (lba : ℕ) : (addressed lba).lba = lba % 2 ^ 28 := by
  have hselect : (0xE0 : BitVec 8) &&& 0x0F = 0 := by decide
  have hhead : (0xE0 ||| (BitVec.ofNat 8 (lba / 2 ^ 24) &&& 0x0F)) &&& (0x0F : BitVec 8) =
      BitVec.ofNat 8 (lba / 2 ^ 24) &&& 0x0F := by
    rw [BitVec.and_or_distrib_right, BitVec.and_assoc, BitVec.and_self, hselect]
    exact BitVec.zero_or
  have hbits : (BitVec.ofNat 8 (lba / 2 ^ 24) &&& (0x0F : BitVec 8)).toNat = lba / 2 ^ 24 % 16 := by
    rw [BitVec.toNat_and, BitVec.toNat_ofNat, show (0x0F : BitVec 8).toNat = 2 ^ 4 - 1 from rfl,
      Nat.and_two_pow_sub_one_eq_mod]
    omega
  simp only [Registers.lba, addressed, hhead, hbits, BitVec.toNat_ofNat]
  omega

theorem transfers_issueWrites (lba : ℕ) {command : BitVec 8}
    (hcommand : command = cmdReadSectors ∨ command = cmdWriteSectors) (r : Registers)
    (l : List PortWrite) :
    transfers r (issueWrites lba command ++ l) = lba % 2 ^ 28 :: transfers (addressed lba) l := by
  rw [← lba_addressed]
  simp [issueWrites, transfers, PortWrite.Starts, hcommand, Registers.after, Registers.write,
    addressed]

end Transfers

section Logs
variable {α β : Type} {m : Action Ports α} {f : α → Action Ports β}

def Silent (m : Action Ports α) : Prop := ∀ s, ∃ l, (m s).2.log = s.log ++ l ∧ Idle l

theorem silent_of_log_eq (h : ∀ s, (m s).2.log = s.log) : Silent m := fun s =>
  ⟨[], by rw [h, List.append_nil], List.forall_mem_nil _⟩

theorem silent_pure (a : α) : Silent (pure a) := silent_of_log_eq fun _ => rfl

theorem silent_fail (msg : String) : Silent (.fail msg : Action Ports α) :=
  silent_of_log_eq fun _ => rfl

theorem silent_lift (r : Result α) : Silent (.lift r) := silent_of_log_eq fun _ => rfl

theorem Silent.bind (hm : Silent m) (hf : ∀ a, Silent (f a)) : Silent (m >>= f) := by
  intro s
  obtain ⟨l, hl, hidle⟩ := hm s
  by_cases hok : ∃ a, (m s).1 = .ok a
  · obtain ⟨a, ha⟩ := hok
    obtain ⟨l', hl', hidle'⟩ := hf a (m s).2
    refine ⟨l ++ l', ?_, hidle.append hidle'⟩
    rw [bind_of_ok (Prod.ext ha rfl), hl', hl, List.append_assoc]
  · exact ⟨l, by rw [(bind_of_ne_ok (not_exists.mp hok) f).1, hl], hidle⟩

theorem silent_outw (port : Port) (value : BitVec 16) : Silent (outw port value) := fun s =>
  ⟨[.outw port value], rfl, by simp [Idle, PortWrite.Starts]⟩

theorem silent_inb (port : Port) : Silent (inb port) := silent_of_log_eq fun _ => rfl

theorem silent_waitWhileBusy : Silent waitWhileBusy := by
  have hfrom : ∀ n, Silent (waitWhileBusyFrom n) := by
    intro n
    induction n with
    | zero => exact silent_pure _
    | succ n ih =>
      apply (silent_inb _).bind
      intro status
      split_ifs
      · exact silent_pure _
      · exact ih
  exact hfrom pollAttempts

theorem silent_waitForData : Silent waitForData := by
  have hfrom : ∀ n, Silent (waitForDataFrom n) := by
    intro n
    induction n with
    | zero => exact silent_pure _
    | succ n ih =>
      apply (silent_inb _).bind
      intro status
      split_ifs
      · exact (silent_inb _).bind fun code => silent_pure _
      · exact silent_pure _
      · exact ih
  exact hfrom pollAttempts

theorem silent_readWords (n : ℕ) : Silent (readWords n) := by
  induction n with
  | zero => exact silent_pure _
  | succ n ih =>
    apply (silent_of_log_eq fun _ => rfl : Silent (inw .data)).bind
    intro word
    exact ih.bind fun rest => silent_pure _

theorem silent_writeWords (bytes : List (BitVec 8)) : Silent (writeWords bytes) := by
  induction bytes using writeWords.induct with
  | case1 low high rest ih =>
    rw [writeWords]
    exact (silent_outw _ _).bind fun _ => ih
  | case2 bytes hshort =>
    rw [writeWords]
    · exact silent_pure _
    · exact hshort

theorem silent_flushCache : Silent flushCache := by
  apply silent_waitWhileBusy.bind
  intro r
  cases r with
  | error e => exact silent_pure _
  | ok _ =>
    have hflush : Silent (outb .command cmdCacheFlush) := fun s =>
      ⟨[.outb .command cmdCacheFlush], rfl, by
        simp [Idle, PortWrite.Starts, cmdCacheFlush, cmdReadSectors, cmdWriteSectors]⟩
    exact hflush.bind fun _ => silent_waitWhileBusy

theorem issue_eq (lba : ℕ) (command : BitVec 8) (s : Ports) :
    issue lba command s =
      (.ok (), { s with reads := s.reads + 4, log := s.log ++ issueWrites lba command }) := by
  have hrun : issue lba command s = (.ok (), { s with
      reads := s.reads + 4
      log := s.log ++ [.outb .driveHead (0xE0 ||| (BitVec.ofNat 8 (lba / 2 ^ 24) &&& 0x0F))] ++
        [.outb .sectorCount 1] ++ [.outb .lbaLow (BitVec.ofNat 8 lba)] ++
        [.outb .lbaMid (BitVec.ofNat 8 (lba / 2 ^ 8))] ++
        [.outb .lbaHigh (BitVec.ofNat 8 (lba / 2 ^ 16))] ++ [.outb .command command] }) := rfl
  rw [hrun]
  simp only [List.append_assoc, List.cons_append, List.nil_append, issueWrites]

end Logs

/-- The controller stays busy for all the attempts of `wait_while_busy`. -/
def Busy (s : Ports) : Prop :=
  ∀ k < pollAttempts, (s.answers (s.reads + k)).setWidth 8 &&& statusBsy ≠ 0

theorem waitWhileBusyFrom_eq (n : ℕ) (s : Ports) :
    ∃ s', s'.log = s.log ∧
      ((∀ k < n, (s.answers (s.reads + k)).setWidth 8 &&& statusBsy ≠ 0) ∧
          waitWhileBusyFrom n s = (.ok (.error .timeout), s') ∨
        (¬ ∀ k < n, (s.answers (s.reads + k)).setWidth 8 &&& statusBsy ≠ 0) ∧
          waitWhileBusyFrom n s = (.ok (.ok ()), s')) := by
  induction n generalizing s with
  | zero => exact ⟨s, rfl, .inl ⟨by simp, rfl⟩⟩
  | succ n ih =>
    have hread : inb .command s =
        (.ok ((s.answers s.reads).setWidth 8), { s with reads := s.reads + 1 }) := rfl
    rw [waitWhileBusyFrom, bind_of_ok hread]
    by_cases hready : (s.answers s.reads).setWidth 8 &&& statusBsy = 0
    · rw [if_pos hready]
      exact ⟨{ s with reads := s.reads + 1 }, rfl,
        .inr ⟨fun h => h 0 (Nat.succ_pos n) hready, rfl⟩⟩
    · rw [if_neg hready]
      obtain ⟨s', hlog, hcases⟩ := ih { s with reads := s.reads + 1 }
      have hshift : (∀ k < n, (s.answers (s.reads + 1 + k)).setWidth 8 &&& statusBsy ≠ 0) ↔
          ∀ k < n + 1, (s.answers (s.reads + k)).setWidth 8 &&& statusBsy ≠ 0 := by
        constructor
        · intro h k hk
          cases k with
          | zero => exact hready
          | succ k =>
            rw [Nat.add_comm k 1, ← Nat.add_assoc]
            exact h k (by omega)
        · intro h k hk
          rw [Nat.add_assoc, Nat.add_comm 1 k]
          exact h (k + 1) (by omega)
      rw [hshift] at hcases
      exact ⟨s', hlog, hcases⟩

section Addresses
variable {α : Type} {rest : Action Ports α} {command : BitVec 8}

/-- A transfer is started for one sector, unless the controller stays busy. -/
theorem transfer_log (lba : ℕ)
    (hcommand : command = cmdReadSectors ∨ command = cmdWriteSectors) (hrest : Silent rest)
    (s : Ports) :
    ∃ l, (transfer lba command rest s).2.log = s.log ++ l ∧
      ∀ r, Busy s ∧ transfers r l = [] ∨ ¬ Busy s ∧ transfers r l = [lba % 2 ^ 28] := by
  obtain ⟨s', hlog, ⟨hbusy, hwait⟩ | ⟨hready, hwait⟩⟩ := waitWhileBusyFrom_eq pollAttempts s
  · refine ⟨[], ?_, fun r => .inl ⟨hbusy, rfl⟩⟩
    rw [transfer, waitWhileBusy, bind_of_ok hwait, List.append_nil, ← hlog]
    rfl
  · obtain ⟨l, hl, hidle⟩ := hrest { s' with
      reads := s'.reads + 4
      log := s'.log ++ issueWrites lba command }
    refine ⟨issueWrites lba command ++ l, ?_, fun r => .inr ⟨hready, ?_⟩⟩
    · rw [transfer, waitWhileBusy, bind_of_ok hwait]
      show ((issue lba command >>= fun _ => rest) s').2.log = _
      rw [bind_of_ok (issue_eq lba command s'), hl, hlog, List.append_assoc]
    · rw [transfers_issueWrites lba hcommand, transfers_idle hidle]

/-- The request is refused without a write to any port, or every transfer is one of the sector that was
asked for. -/
def Addresses (r : Registers) (run : Result α × Ports) (outOfBounds : String) (sectorId : ℕ) : Prop :=
  run.1 = .err outOfBounds ∧ run.2.log = [] ∨ ∀ lba ∈ transfers r run.2.log, lba = sectorId

/-- Both functions check the low 32 bits of the sector number and use its low 28 bits. -/
theorem addresses_iff (r : Registers) {total : BitVec 32} {sectorId : ℕ} {outOfBounds : String}
    (hcommand : command = cmdReadSectors ∨ command = cmdWriteSectors) (hrest : Silent rest)
    {s : Ports} (hs : s.log = []) :
    Addresses r ((if total ≤ BitVec.ofNat 32 sectorId then .fail outOfBounds
        else transfer (BitVec.ofNat 32 sectorId).toNat command rest : Action Ports α) s)
      outOfBounds sectorId ↔
      total.toNat ≤ sectorId % 2 ^ 32 ∨ Busy s ∨ sectorId < 2 ^ 28 := by
  have hbound : total ≤ BitVec.ofNat 32 sectorId ↔ total.toNat ≤ sectorId % 2 ^ 32 := by
    rw [BitVec.le_def, BitVec.toNat_ofNat]
  rw [← hbound]
  by_cases hrefused : total ≤ BitVec.ofNat 32 sectorId
  · rw [if_pos hrefused]
    exact iff_of_true (.inl ⟨rfl, hs⟩) (.inl hrefused)
  rw [if_neg hrefused]
  have hsector : (BitVec.ofNat 32 sectorId).toNat % 2 ^ 28 = sectorId % 2 ^ 28 := by
    rw [BitVec.toNat_ofNat]
    omega
  obtain ⟨l, hlog, hcases⟩ :=
    transfer_log (BitVec.ofNat 32 sectorId).toNat hcommand hrest s
  rw [hs, List.nil_append] at hlog
  rw [hsector] at hcases
  unfold Addresses
  rw [hlog]
  rcases hcases r with ⟨hbusy, hnone⟩ | ⟨hready, hone⟩
  · rw [hnone]
    exact iff_of_true (.inr (List.forall_mem_nil _)) (.inr (.inl hbusy))
  · have hne : l ≠ [] := by
      rintro rfl
      cases hone
    rw [hone]
    simp only [hne, and_false, List.mem_singleton, forall_eq, hrefused, hready, false_or]
    omega

theorem silent_receive : Silent receive := by
  apply silent_waitForData.bind
  intro result
  cases result with
  | error e => exact silent_fail _
  | ok _ => exact silent_readWords 256

theorem silent_send (buf : Sector) : Silent (send buf) := by
  apply silent_waitForData.bind
  intro result
  cases result with
  | error e => exact silent_fail _
  | ok _ =>
    apply (silent_writeWords _).bind
    intro _
    apply silent_flushCache.bind
    intro flushed
    cases flushed with
    | error e => exact silent_fail _
    | ok _ => exact silent_pure _

end Addresses

section Ranges
variable {α : Type} {start n : ℕ} {bytes : List (BitVec 8)}

/-- At most `n` transfers are started, of consecutive sectors from `start` on as far as 28 bits tell
them apart; and all `n` of them if the program succeeds. -/
def Ranges (m : Action Ports (Except AtaError α)) (start n : ℕ) : Prop :=
  ∀ s, ∃ l k, (m s).2.log = s.log ++ l ∧ k ≤ n ∧
    (∀ r, transfers r l = (List.range' start k).map (· % 2 ^ 28)) ∧
    ∀ a, (m s).1 = .ok (.ok a) → k = n

theorem ranges_ok (a : α) : Ranges (pure (.ok a)) start 0 := fun _ =>
  ⟨[], 0, (List.append_nil _).symm, le_rfl, fun _ => rfl, fun _ _ => rfl⟩

theorem ranges_of_log_eq {m : Action Ports (Except AtaError α)} (hlog : ∀ s, (m s).2.log = s.log)
    (hvalue : ∀ s a, (m s).1 ≠ .ok (.ok a)) : Ranges m start n := fun s =>
  ⟨[], 0, by rw [hlog, List.append_nil], Nat.zero_le _, fun _ => rfl,
    fun a ha => absurd ha (hvalue s a)⟩

theorem ranges_error (e : AtaError) :
    Ranges (pure (.error e) : Action Ports (Except AtaError α)) start n :=
  ranges_of_log_eq (fun _ => rfl) (by simp [pure])

theorem Silent.ranges_bind {β : Type} {m : Action Ports β}
    {f : β → Action Ports (Except AtaError α)} (hm : Silent m)
    (hf : ∀ b, (∃ s, (m s).1 = .ok b) → Ranges (f b) start n) : Ranges (m >>= f) start n := by
  intro s
  obtain ⟨l, hl, hidle⟩ := hm s
  by_cases hok : ∃ b, (m s).1 = .ok b
  · obtain ⟨b, hb⟩ := hok
    obtain ⟨l', k, hl', hk, htransfers, hall⟩ := hf b ⟨s, hb⟩ (m s).2
    rw [bind_of_ok (Prod.ext hb rfl)]
    refine ⟨l ++ l', k, by rw [hl', hl, List.append_assoc], hk, fun r => ?_, hall⟩
    rw [transfers_idle_append hidle, htransfers]
  · obtain ⟨hstate, hvalue⟩ := bind_of_ne_ok (not_exists.mp hok) f
    refine ⟨l, 0, by rw [hstate, hl], Nat.zero_le _, transfers_idle hidle, fun a ha => ?_⟩
    exact absurd ha (hvalue _)

theorem issue_ranges {lba : ℕ} (hlba : lba % 2 ^ 28 = start % 2 ^ 28)
    {m : Action Ports (Except AtaError α)} (hm : Ranges m (start + 1) n) :
    Ranges (issue lba cmdReadSectors >>= fun _ => m) start (n + 1) := by
  intro s
  obtain ⟨l, k, hl, hk, htransfers, hall⟩ := hm { s with
    reads := s.reads + 4
    log := s.log ++ issueWrites lba cmdReadSectors }
  rw [bind_of_ok (issue_eq lba cmdReadSectors s)]
  refine ⟨issueWrites lba cmdReadSectors ++ l, k + 1, by rw [hl, List.append_assoc],
    Nat.succ_le_succ hk, fun r => ?_, fun a ha => by rw [hall a ha]⟩
  rw [transfers_issueWrites lba (.inl rfl), htransfers, List.range'_succ, List.map_cons, hlba]

theorem addU_lba {checks : Bool} {x y z : ℕ} (h : addU checks 32 x y = .ok z) :
    z % 2 ^ 28 = (x + y) % 2 ^ 28 := by
  unfold addU overflowing at h
  split_ifs at h
  · rw [Result.ok.inj h]
  · rw [← Result.ok.inj h]
    omega

theorem readSectorsFrom_ranges (checks : Bool) (lba n i : ℕ) (buf : List (BitVec 8)) :
    Ranges (readSectorsFrom checks lba n i buf) (lba + i) n := by
  induction n generalizing i buf with
  | zero => exact ranges_ok buf
  | succ n ih =>
    apply (silent_lift _).ranges_bind
    rintro currentLba ⟨_, hlba⟩
    apply silent_waitWhileBusy.ranges_bind
    intro ready _
    cases ready with
    | error e => exact ranges_error e
    | ok _ =>
      apply issue_ranges (addU_lba hlba)
      apply silent_waitForData.ranges_bind
      intro result _
      cases result with
      | error e => exact ranges_error e
      | ok _ =>
        apply (silent_lift _).ranges_bind
        intro start _
        apply (silent_lift _).ranges_bind
        intro stop _
        apply (silent_lift _).ranges_bind
        intro chunk _
        apply (silent_readWords _).ranges_bind
        intro bytes _
        exact ih (i + 1) _

theorem map_mod_range'_iff (start n : ℕ) :
    (List.range' start n).map (· % 2 ^ 28) = List.range' start n ↔ n = 0 ∨ start + n ≤ 2 ^ 28 := by
  have hiff := List.map_inj_left (l := List.range' start n) (f := (· % 2 ^ 28)) (g := id)
  rw [List.map_id] at hiff
  rw [hiff]
  constructor
  · intro h
    by_cases hn : n = 0
    · exact .inl hn
    · have hlast := h (start + n - 1) (List.mem_range'_1.mpr (by omega))
      have hlt := Nat.mod_lt (start + n - 1) (show 0 < 2 ^ 28 by decide)
      rw [id] at hlast
      omega
  · intro h x hx
    have hx := List.mem_range'_1.mp hx
    exact Nat.mod_eq_of_lt (by omega)

theorem readSectors_ranges (checks : Bool) (lba count : BitVec 32) (buf : List (BitVec 8)) :
    Ranges (readSectors checks lba count buf) lba.toNat count.toNat := by
  by_cases hlen : buf.length = count.toNat * 512
  · rw [readSectors, if_neg (not_not.mpr hlen)]
    exact readSectorsFrom_ranges checks lba.toNat count.toNat 0 buf
  · rw [readSectors, if_pos hlen]
    exact ranges_of_log_eq (fun _ => rfl) (by simp [Action.lift])

end Ranges

section Ready
variable {α β : Type} {k : ℕ}

def Ready (s : Ports) : Prop := s.answers = fun _ => 0x08

/-- With a ready controller at least `k` transfers are started. -/
def Issues (m : Action Ports α) (k : ℕ) : Prop :=
  ∀ s, Ready s → ∃ l, (m s).2.log = s.log ++ l ∧ ∀ r, k ≤ (transfers r l).length

theorem Silent.issues_bind {m : Action Ports β} {f : β → Action Ports α} {b : β} (hm : Silent m)
    (hgives : Gives Ready m (.ok b)) (hf : Issues (f b) k) : Issues (m >>= f) k := by
  intro s hs
  obtain ⟨l, hl, hidle⟩ := hm s
  obtain ⟨hvalue, hready⟩ := hgives s hs
  obtain ⟨l', hl', hcount⟩ := hf _ hready
  rw [bind_of_ok (Prod.ext hvalue rfl)]
  refine ⟨l ++ l', by rw [hl', hl, List.append_assoc], fun r => ?_⟩
  rw [transfers_idle_append hidle]
  exact hcount _

theorem issues_issue {lba : ℕ} {m : Action Ports α} (hm : Issues m k) :
    Issues (issue lba cmdReadSectors >>= fun _ => m) (k + 1) := by
  intro s hs
  obtain ⟨l, hl, hcount⟩ := hm { s with
    reads := s.reads + 4
    log := s.log ++ issueWrites lba cmdReadSectors } hs
  rw [bind_of_ok (issue_eq lba cmdReadSectors s)]
  refine ⟨issueWrites lba cmdReadSectors ++ l, by rw [hl, List.append_assoc], fun r => ?_⟩
  rw [transfers_issueWrites lba (.inl rfl), List.length_cons]
  exact Nat.succ_le_succ (hcount _)

theorem inb_of_ready {s : Ports} (hs : Ready s) (port : Port) :
    inb port s = (.ok 0x08, { s with reads := s.reads + 1 }) := by
  change (Result.ok ((s.answers s.reads).setWidth 8), _) = _
  rw [hs]
  rfl

theorem gives_waitWhileBusy : Gives Ready waitWhileBusy (.ok (.ok ())) := by
  intro s hs
  have hpoll : waitWhileBusy = waitWhileBusyFrom (999999 + 1) := rfl
  rw [hpoll, waitWhileBusyFrom, bind_of_ok (inb_of_ready hs _), if_pos (by decide)]
  exact ⟨rfl, hs⟩

theorem gives_waitForData : Gives Ready waitForData (.ok (.ok ())) := by
  intro s hs
  have hpoll : waitForData = waitForDataFrom (999999 + 1) := rfl
  rw [hpoll, waitForDataFrom, bind_of_ok (inb_of_ready hs _), if_neg (by decide), if_pos (by decide)]
  exact ⟨rfl, hs⟩

theorem gives_readWords (n : ℕ) :
    ∃ bytes, bytes.length = 2 * n ∧ Gives Ready (readWords n) (.ok bytes) := by
  induction n with
  | zero => exact ⟨[], rfl, gives_pure []⟩
  | succ n ih =>
    obtain ⟨bytes, hlength, hgives⟩ := ih
    have hword : Gives Ready (inw .data) (.ok 0x08) := fun s hs =>
      ⟨congrArg Result.ok (congrFun hs s.reads), hs⟩
    refine ⟨_, ?_, hword.ok_bind (hgives.ok_bind (gives_pure _))⟩
    rw [List.length_cons, List.length_cons, hlength]
    omega

theorem readSectorsFrom_issues (checks : Bool) {lba n i : ℕ} {buf : List (BitVec 8)} (hk : k ≤ n)
    (hlba : lba + i + k ≤ 2 ^ 32) (hlength : buf.length = (i + n) * 512)
    (hfits : buf.length < 2 ^ 64) : Issues (readSectorsFrom checks lba n i buf) k := by
  induction k generalizing n i buf with
  | zero =>
    intro s _
    obtain ⟨l, k, hl, -⟩ := readSectorsFrom_ranges checks lba n i buf s
    exact ⟨l, hl, fun r => Nat.zero_le _⟩
  | succ k ih =>
    obtain ⟨n, rfl⟩ : ∃ m, n = m + 1 := ⟨n - 1, by omega⟩
    have hadd : addU checks 32 lba i = .ok (lba + i) := addU_of_lt checks (by omega)
    have hstart : mulU checks 64 i 512 = .ok (i * 512) := mulU_of_lt checks (by omega)
    have hstop : addU checks 64 (i * 512) 512 = .ok (i * 512 + 512) := addU_of_lt checks (by omega)
    have hroom : i * 512 + 512 ≤ buf.length := by omega
    have hslice := slice_of_le (Nat.le_add_right (i * 512) 512) hroom
    obtain ⟨bytes, hbytes, hwords⟩ :=
      gives_readWords (((buf.drop (i * 512)).take (i * 512 + 512 - i * 512)).length / 2)
    rw [List.length_take, List.length_drop] at hbytes
    rw [readSectorsFrom, hadd]
    apply (silent_lift _).issues_bind (gives_lift _)
    apply silent_waitWhileBusy.issues_bind gives_waitWhileBusy
    apply issues_issue
    apply silent_waitForData.issues_bind gives_waitForData
    rw [hstart]
    apply (silent_lift _).issues_bind (gives_lift _)
    rw [hstop]
    apply (silent_lift _).issues_bind (gives_lift _)
    rw [hslice]
    apply (silent_lift _).issues_bind (gives_lift _)
    apply (silent_readWords _).issues_bind hwords
    have hsame : (buf.take (i * 512) ++ bytes ++ buf.drop (i * 512 + 512)).length = buf.length := by
      rw [List.length_append, List.length_append, List.length_take, List.length_drop, hbytes]
      omega
    apply ih (by omega) (by omega)
    · omega
    · omega

/-- A range that leaves the 28 bits is followed beyond them. -/
theorem readSectors_issues (checks : Bool) {lba count : BitVec 32} {buf : List (BitVec 8)}
    (hlength : buf.length = count.toNat * 512)
    (hrange : ¬ (count = 0 ∨ lba.toNat + count.toNat ≤ 2 ^ 28)) :
    Issues (readSectors checks lba count buf) (2 ^ 28 - lba.toNat + 1) := by
  rw [not_or, not_le] at hrange
  obtain ⟨hne, hrange⟩ := hrange
  have hpos : 0 < count.toNat := by
    by_contra hzero
    exact hne (BitVec.eq_of_toNat_eq (by simpa using hzero))
  have hcount := count.isLt
  have hlba := lba.isLt
  rw [readSectors, if_neg (not_not.mpr hlength)]
  apply readSectorsFrom_issues checks
  · omega
  · omega
  · rw [Nat.zero_add]
    exact hlength
  · omega

end Ready

def untouched (answers : ℕ → BitVec 16) : Ports := ⟨answers, 0, []⟩

/-- Exactly when the driver transfers the sectors it was asked for. Of a sector number `read_sector` and
`write_sector` check 32 bits and send 28, so a request that is not refused and gets to its command goes
astray from sector `2 ^ 28` on; `read_sectors` goes astray where its range leaves the 28 bits, and with
some controller it does whenever the requested range leaves them. -/
theorem ata_addresses_iff (checks : Bool) (answers : ℕ → BitVec 16) (r : Registers)
    (totalSectors : BitVec 32) :
    (∀ sectorId,
      Addresses r (readSector totalSectors sectorId (untouched answers)) "ATA Read Out of Bounds"
        sectorId ↔
        totalSectors.toNat ≤ sectorId % 2 ^ 32 ∨ Busy (untouched answers) ∨ sectorId < 2 ^ 28) ∧
    (∀ sectorId buf,
      Addresses r (writeSector totalSectors sectorId buf (untouched answers))
        "ATA Write Out of Bounds" sectorId ↔
        totalSectors.toNat ≤ sectorId % 2 ^ 32 ∨ Busy (untouched answers) ∨ sectorId < 2 ^ 28) ∧
    (∀ lba count buf,
      (∀ answers, ∃ issued, transfers r (readSectors checks lba count buf (untouched answers)).2.log =
          List.range' lba.toNat issued) ↔
        buf.length ≠ count.toNat * 512 ∨ count = 0 ∨ lba.toNat + count.toNat ≤ 2 ^ 28) ∧
    ∀ lba count buf, ∃ issued ≤ count.toNat,
      (transfers r (readSectors checks lba count buf (untouched answers)).2.log =
          List.range' lba.toNat issued ↔ issued = 0 ∨ lba.toNat + issued ≤ 2 ^ 28) ∧
        (transfers r (readSectors checks lba count buf (untouched answers)).2.log).length = issued ∧
        ∀ bytes, (readSectors checks lba count buf (untouched answers)).1 = .ok (.ok bytes) →
          issued = count.toNat := by
  refine ⟨fun sectorId => ?_, fun sectorId buf => ?_, fun lba count buf => ?_,
    fun lba count buf => ?_⟩
  · exact addresses_iff r (.inl rfl) silent_receive rfl
  · exact addresses_iff r (.inr rfl) (silent_send buf) rfl
  · constructor
    · intro h
      obtain ⟨issued, hissued⟩ := h fun _ => 0x08
      obtain ⟨l, k, hlog, -, htransfers, -⟩ :=
        readSectors_ranges checks lba count buf (untouched fun _ => 0x08)
      rw [hlog, untouched, List.nil_append] at hissued
      -- a ready controller gets the first sector that 28 bits do not hold
      by_contra hbad
      obtain ⟨hlen, hbad⟩ := not_or.mp hbad
      obtain ⟨l', hlog', hmany⟩ :=
        readSectors_issues checks (not_not.mp hlen) hbad (untouched fun _ => 0x08) rfl
      obtain rfl := List.append_cancel_left (hlog.symm.trans hlog')
      have hk := hmany r
      rw [htransfers, List.length_map, List.length_range'] at hk
      have hsame : k = issued := by
        rw [htransfers] at hissued
        simpa using congrArg List.length hissued
      rw [htransfers, ← hsame, map_mod_range'_iff] at hissued
      omega
    · intro h answers
      obtain ⟨l, k, hlog, hk, htransfers, -⟩ :=
        readSectors_ranges checks lba count buf (untouched answers)
      rcases h with hlen | h
      · refine ⟨0, ?_⟩
        rw [readSectors, if_pos hlen]
        rfl
      · refine ⟨k, ?_⟩
        rw [hlog, untouched, List.nil_append, htransfers, map_mod_range'_iff]
        rcases h with rfl | h
        · exact .inl (Nat.le_zero.mp hk)
        · omega
  · obtain ⟨l, k, hlog, hk, htransfers, hall⟩ :=
      readSectors_ranges checks lba count buf (untouched answers)
    rw [untouched, List.nil_append] at hlog
    refine ⟨k, hk, ?_, ?_, hall⟩
    · rw [untouched, hlog, htransfers, map_mod_range'_iff]
    · rw [untouched, hlog, htransfers, List.length_map, List.length_range']

def ready : Ports := untouched fun _ => 0x08

/-- On a disk of eight sectors a write to sector `2 ^ 32` succeeds, and what it wrote is sector 0. On a
disk of `2 ^ 28 + 1` sectors, the last one is read from sector 0 as well. -/
theorem ata_transfers_sector_zero :
    (writeSector 8 (2 ^ 32) (Vector.replicate 512 0) ready).1 = .ok () ∧
      transfers ⟨0, 0, 0, 0⟩ (writeSector 8 (2 ^ 32) (Vector.replicate 512 0) ready).2.log = [0] ∧
      transfers ⟨0, 0, 0, 0⟩ (readSector 0x10000001 (2 ^ 28) ready).2.log = [0] ∧
      transfers ⟨0, 0, 0, 0⟩ (readSectors false 0x0FFFFFFF 2 (List.replicate 1024 0) ready).2.log =
        [0x0FFFFFFF, 0] := by
  refine ⟨?_, ?_, ?_, ?_⟩
  · decide +kernel
  · decide +kernel
  · decide +kernel
  · decide +kernel

end MitosOS.Fs.Ata
