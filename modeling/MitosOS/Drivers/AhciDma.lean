import MitosOS.Drivers.AhciTransfer

/-! What a transfer does to memory and to the disk. Between the write of `PORT_CI` and the moment
its bit drops the device moves the bytes of a command, in any order; once the bit has dropped it has
moved all of them. -/
namespace MitosOS.Drivers
open Lib

def CommandTable.places (t : CommandTable) : List ℕ :=
  (t.prdt.take (t.dw0 >>> 16).toNat).flatMap fun e => List.range' e.address.toNat e.bytes

/-- The sectors of a command; a count of zero stands for 65536. -/
def FisRegH2D.sectors (f : FisRegH2D) : ℕ := if f.count = 0 then 65536 else f.count.toNat

def FisRegH2D.extent (f : FisRegH2D) : List ℕ := List.range' (512 * f.lba.toNat) (512 * f.sectors)

structure Storage where
  ram : ℕ → BitVec 8
  disk : ℕ → BitVec 8

def Storage.moveByte (t : CommandTable) (s : Storage) (i : ℕ) : Storage :=
  match t.places[i]?, t.cfis.extent[i]? with
  | some place, some byte =>
    if t.cfis.command = ataCmdReadDmaExt ∧ t.dw0.getLsbD 6 = false then
      { s with ram := Function.update s.ram place (s.disk byte) }
    else if t.cfis.command = ataCmdWriteDmaExt ∧ t.dw0.getLsbD 6 = true then
      { s with disk := Function.update s.disk byte (s.ram place) }
    else s
  | _, _ => s

def Storage.execute (t : CommandTable) (s : Storage) : Storage :=
  (List.range t.places.length).foldl (moveByte t) s

structure DmaTransfer where
  transfer : Transfer
  ram : ℕ → BitVec 8
  disks : Port → ℕ → BitVec 8

namespace DmaTransfer

def storage (d : DmaTransfer) (q : Port) : Storage := ⟨d.ram, d.disks q⟩

def setStorage (d : DmaTransfer) (q : Port) (s : Storage) : DmaTransfer :=
  { d with
    ram := s.ram
    disks := Function.update d.disks q s.disk }

def device (d : DmaTransfer) (q : Port) (slot : CommandSlot)
    (work : CommandTable → Storage → Storage) : DmaTransfer :=
  (d.transfer.ahci.tables q slot).elim d fun t => d.setStorage q (work t (d.storage q))

def moves (d : DmaTransfer) : TransferEvent → DmaTransfer
  | .ahci (.complete q slot) => d.device q slot Storage.execute
  | _ => d

end DmaTransfer

inductive DmaEvent where
  | transfer (e : TransferEvent)
  /-- The device moves a byte of a command that it has not completed. -/
  | move (q : Port) (slot : CommandSlot) (i : ℕ)

def dmaSystem (virtToPhys : ℕ → Option ℕ) (p : Port) (buf : Buffer) (write : Bool) :
    EventSystem DmaTransfer DmaEvent where
  Enabled
    | d, .transfer e => (transferSystem virtToPhys p buf write).Enabled d.transfer e
    | d, .move q slot _ => (d.transfer.ahci.ci q).getLsbD slot = true
  next
    | d, .transfer e =>
      { d.moves e with transfer := (transferSystem virtToPhys p buf write).next d.transfer e }
    | d, .move q slot i => d.device q slot fun t s => s.moveByte t i

instance (virtToPhys : ℕ → Option ℕ) (p : Port) (buf : Buffer) (write : Bool) (d : DmaTransfer) :
    (e : DmaEvent) → Decidable ((dmaSystem virtToPhys p buf write).Enabled d e)
  | .transfer e =>
    inferInstanceAs (Decidable ((transferSystem virtToPhys p buf write).Enabled d.transfer e))
  | .move q slot _ => inferInstanceAs (Decidable ((d.transfer.ahci.ci q).getLsbD slot = true))

/-- Only this transfer uses the controller, and completions are marked only for commands that have
been written. -/
def TransferEvent.Undisturbed (t : Transfer) : TransferEvent → Prop
  | .loop => True
  | .ahci e => e.Attributed t.ahci ∧ e.starts = none

instance (t : Transfer) : (e : TransferEvent) → Decidable (e.Undisturbed t)
  | .loop => inferInstanceAs (Decidable True)
  | .ahci e => inferInstanceAs (Decidable (e.Attributed t.ahci ∧ e.starts = none))

def DmaEvent.Undisturbed (d : DmaTransfer) : DmaEvent → Prop
  | .transfer e => e.Undisturbed d.transfer
  | .move _ _ _ => True

instance (d : DmaTransfer) : (e : DmaEvent) → Decidable (e.Undisturbed d)
  | .transfer e => inferInstanceAs (Decidable (e.Undisturbed d.transfer))
  | .move _ _ _ => inferInstanceAs (Decidable True)

/-- The view that a buffer and the `Hal` have of memory: the byte at `virt` lies at `P virt`, pages
are contiguous, and no two bytes of the buffer share a place. -/
structure Layout (virtToPhys : ℕ → Option ℕ) (P : ℕ → ℕ) (buf : Buffer) : Prop where
  translates : ∀ virt a, virtToPhys virt = some a → a = P virt
  bounded : ∀ virt, P virt < 2 ^ 64
  paged : ∀ virt k, virt % 4096 + k < 4096 → P (virt + k) = P virt + k
  injective : ∀ i < buf.len, ∀ j < buf.len, P (buf.addr + i) = P (buf.addr + j) → i = j
  reach : buf.addr + buf.len ≤ 2 ^ 64

section Pieces
variable {virtToPhys : ℕ → Option ℕ} {P : ℕ → ℕ} {buf : Buffer} {write : Bool} {t : CommandTable}

theorem Partitions.places_eq (hbounded : ∀ virt, P virt < 2 ^ 64)
    (hpaged : ∀ virt k, virt % 4096 + k < 4096 → P (virt + k) = P virt + k)
    (hreach : buf.addr + buf.len ≤ 2 ^ 64) (entries : List HbaPrdtEntry) : ∀ {offset : ℕ},
    Partitions (fun virt => BitVec.ofNat 64 (P virt)) buf offset entries →
    entries.flatMap (fun e => List.range' e.address.toNat e.bytes) =
      (List.range' (buf.addr + offset) (buf.len - offset)).map P := by
  induction entries with
  | nil =>
    intro offset h
    have hend : offset = buf.len := h
    rw [hend, Nat.sub_self]
    rfl
  | cons e entries ih =>
    intro offset h
    have hsum := h.sum_bytes
    rw [List.map_cons, List.sum_cons] at hsum
    obtain ⟨haddress, hpage, hrest⟩ := h
    have hpos : 0 < e.bytes := Nat.succ_pos _
    have hplace : e.address.toNat = P (buf.addr + offset) := by
      rw [haddress, wrap64_of_lt (by omega), BitVec.toNat_ofNat]
      exact Nat.mod_eq_of_lt (hbounded _)
    have hfirst : List.range' e.address.toNat e.bytes =
        (List.range' (buf.addr + offset) e.bytes).map P := by
      rw [hplace, List.range'_eq_map_range, List.range'_eq_map_range, List.map_map]
      apply List.map_congr_left
      intro k hk
      have hk := List.mem_range.mp hk
      exact (hpaged _ k (by omega)).symm
    have hsplit : buf.len - offset = e.bytes + (buf.len - (offset + e.bytes)) := by omega
    rw [List.flatMap_cons, ih hrest, hfirst, hsplit, ← List.range'_append_1, List.map_append,
      Nat.add_assoc]

theorem Layout.phys (h : Layout virtToPhys P buf) :
    ∀ virt a, virtToPhys virt = some a → BitVec.ofNat 64 (P virt) = BitVec.ofNat 64 a := by
  intro virt a hvirt
  rw [h.translates virt a hvirt]

theorem CommandTable.Moves.places_eq {part : Piece} (h : t.Moves virtToPhys write part)
    (hlayout : Layout virtToPhys P buf) (hreach : part.slice.addr + part.slice.len ≤ 2 ^ 64) :
    t.places = (List.range' part.slice.addr part.slice.len).map P := by
  have hpartitions := h.slice (fun virt => BitVec.ofNat 64 (P virt)) hlayout.phys
  rw [CommandTable.places, h.entries, List.take_length,
    hpartitions.places_eq hlayout.bounded hlayout.paged hreach]
  rfl

theorem CommandTable.Moves.extent_eq {part : Piece} (h : t.Moves virtToPhys write part)
    (hcount : 0 < part.count) : t.cfis.extent = List.range' (512 * part.lba) (512 * part.count) := by
  have hne : ¬ t.cfis.count = 0 := by
    intro hzero
    have hcounted := h.count
    rw [hzero] at hcounted
    exact absurd hcounted.symm hcount.ne'
  rw [FisRegH2D.extent, FisRegH2D.sectors, if_neg hne, h.lba, h.count]

/-- The command of a piece moves its bytes in the direction of the transfer. -/
theorem CommandTable.Moves.moveByte_eq {part : Piece} (h : t.Moves virtToPhys write part)
    (s : Storage) {i place byte : ℕ} (hplace : t.places[i]? = some place)
    (hbyte : t.cfis.extent[i]? = some byte) : s.moveByte t i =
      if write then { s with disk := Function.update s.disk byte (s.ram place) }
      else { s with ram := Function.update s.ram place (s.disk byte) } := by
  have hcommand := h.command
  have hdirection := h.direction
  unfold Storage.moveByte
  rw [hplace, hbyte]
  cases write with
  | false => exact if_pos ⟨hcommand, hdirection⟩
  | true =>
    have hnot : ¬ (t.cfis.command = ataCmdReadDmaExt ∧ t.dw0.getLsbD 6 = false) := by
      intro hcon
      rw [hcon.2] at hdirection
      exact Bool.false_ne_true hdirection
    exact (if_neg hnot).trans (if_pos ⟨hcommand, hdirection⟩)

theorem CommandTable.Moves.piece_places {lba k : ℕ}
    (h : t.Moves virtToPhys write (piece lba buf k)) (hlayout : Layout virtToPhys P buf)
    (hk : 32768 * k < buf.len) :
    t.places = (List.range' (buf.addr + 32768 * k) (min (buf.len - 32768 * k) 32768)).map P := by
  have hreach := hlayout.reach
  apply h.places_eq hlayout
  change buf.addr + 32768 * k + min (buf.len - 32768 * k) 32768 ≤ 2 ^ 64
  omega

theorem CommandTable.Moves.piece_extent {lba k : ℕ}
    (h : t.Moves virtToPhys write (piece lba buf k)) (hdvd : 512 ∣ buf.len)
    (hk : 32768 * k < buf.len) :
    t.cfis.extent = List.range' (512 * lba + 32768 * k) (min (buf.len - 32768 * k) 32768) := by
  have hpos : 0 < (piece lba buf k).count := by
    change 0 < min (buf.len / 512 - 64 * k) 64
    omega
  have hcount : 512 * (piece lba buf k).count = min (buf.len - 32768 * k) 32768 := by
    change 512 * min (buf.len / 512 - 64 * k) 64 = _
    omega
  have hfirst : 512 * (piece lba buf k).lba = 512 * lba + 32768 * k := by
    change 512 * (lba + 64 * k) = _
    omega
  rw [h.extent_eq hpos, hcount, hfirst]

end Pieces

/-- Memory and disk have changed within the buffer and the sectors only, in the direction of the
transfer, and agree at the offsets in `E`. -/
structure Storage.Carried (s : Storage) (P : ℕ → ℕ) (lba : ℕ) (buf : Buffer) (write : Bool)
    (s₀ : Storage) (E : ℕ → Prop) : Prop where
  ram : ∀ a, write = true ∨ (∀ i < buf.len, a ≠ P (buf.addr + i)) → s.ram a = s₀.ram a
  disk : ∀ b, write = false ∨ b < 512 * lba ∨ 512 * lba + buf.len ≤ b → s.disk b = s₀.disk b
  equal : ∀ i < buf.len, E i → s.disk (512 * lba + i) = s.ram (P (buf.addr + i))

section Carried
variable {virtToPhys : ℕ → Option ℕ} {P : ℕ → ℕ} {lba k : ℕ} {buf : Buffer} {write : Bool}
  {t : CommandTable} {s₀ s : Storage} {E E' : ℕ → Prop}

theorem Storage.Carried.mono (h : s.Carried P lba buf write s₀ E) (hE : ∀ i < buf.len, E' i → E i) :
    s.Carried P lba buf write s₀ E' :=
  ⟨h.ram, h.disk, fun i hi hmem => h.equal i hi (hE i hi hmem)⟩

/-- A byte that is moved agrees from then on, and no other byte is touched. -/
theorem Storage.Carried.move (h : s.Carried P lba buf write s₀ E)
    (hinjective : ∀ i < buf.len, ∀ j < buf.len, P (buf.addr + i) = P (buf.addr + j) → i = j) {j : ℕ}
    (hj : j < buf.len) {s' : Storage} (hs' : s' =
      if write then { s with disk := Function.update s.disk (512 * lba + j) (s.ram (P (buf.addr + j))) }
      else { s with ram := Function.update s.ram (P (buf.addr + j)) (s.disk (512 * lba + j)) }) :
    s'.Carried P lba buf write s₀ fun i => E i ∨ i = j := by
  cases write with
  | false =>
    subst hs'
    refine ⟨?_, h.disk, ?_⟩
    · rintro a (hcon | ha)
      · contradiction
      · exact (Function.update_of_ne (ha j hj) _ _).trans (h.ram a (.inr ha))
    · intro i hi hmem
      change s.disk (512 * lba + i) =
        Function.update s.ram (P (buf.addr + j)) (s.disk (512 * lba + j)) (P (buf.addr + i))
      by_cases hij : i = j
      · rw [hij, Function.update_self]
      · rw [Function.update_of_ne fun hplace => hij (hinjective i hi j hj hplace)]
        exact h.equal i hi (hmem.resolve_right hij)
  | true =>
    subst hs'
    refine ⟨h.ram, ?_, ?_⟩
    · rintro b (hcon | hb)
      · contradiction
      · exact (Function.update_of_ne (by omega) _ _).trans (h.disk b (.inr hb))
    · intro i hi hmem
      change Function.update s.disk (512 * lba + j) (s.ram (P (buf.addr + j))) (512 * lba + i) =
        s.ram (P (buf.addr + i))
      by_cases hij : i = j
      · rw [hij, Function.update_self]
      · rw [Function.update_of_ne (by omega)]
        exact h.equal i hi (hmem.resolve_right hij)

theorem Storage.Carried.moveByte (h : s.Carried P lba buf write s₀ E)
    (hlayout : Layout virtToPhys P buf) (hdvd : 512 ∣ buf.len) (hk : 32768 * k < buf.len)
    (hmoves : t.Moves virtToPhys write (piece lba buf k)) (i : ℕ) :
    (s.moveByte t i).Carried P lba buf write s₀
      fun j => E j ∨ i < t.places.length ∧ j = 32768 * k + i := by
  have hplaces := hmoves.piece_places hlayout hk
  have hlength : t.places.length = min (buf.len - 32768 * k) 32768 := by
    rw [hplaces, List.length_map, List.length_range']
  by_cases hi : i < t.places.length
  · have hrange : i < min (buf.len - 32768 * k) 32768 := hlength ▸ hi
    have hplace : t.places[i]? = some (P (buf.addr + (32768 * k + i))) := by
      rw [hplaces, List.getElem?_map, List.getElem?_range' hrange, Nat.one_mul, Nat.add_assoc]
      rfl
    have hbyte : t.cfis.extent[i]? = some (512 * lba + (32768 * k + i)) := by
      rw [hmoves.piece_extent hdvd hk, List.getElem?_range' hrange, Nat.one_mul, Nat.add_assoc]
    have hmoved := h.move hlayout.injective (j := 32768 * k + i) (by omega)
      (hmoves.moveByte_eq s hplace hbyte)
    exact hmoved.mono fun j _ hmem => hmem.imp_right And.right
  · have hnone : s.moveByte t i = s := by
      unfold Storage.moveByte
      rw [List.getElem?_eq_none (Nat.le_of_not_lt hi)]
    rw [hnone]
    exact h.mono fun j _ hmem => hmem.resolve_right fun hcon => hi hcon.1

theorem Storage.Carried.execute (h : s.Carried P lba buf write s₀ (· < 32768 * k))
    (hlayout : Layout virtToPhys P buf) (hdvd : 512 ∣ buf.len) (hk : 32768 * k < buf.len)
    (hmoves : t.Moves virtToPhys write (piece lba buf k)) :
    (s.execute t).Carried P lba buf write s₀ (· < 32768 * (k + 1)) := by
  have hlength : t.places.length = min (buf.len - 32768 * k) 32768 := by
    rw [hmoves.piece_places hlayout hk, List.length_map, List.length_range']
  have hloop : ∀ n ≤ t.places.length, ((List.range n).foldl (Storage.moveByte t) s).Carried P lba buf
      write s₀ (· < 32768 * k + n) := by
    intro n
    induction n with
    | zero => exact fun _ => h
    | succ n ih =>
      intro hn
      rw [List.range_succ, List.foldl_append]
      have hmoved := (ih (Nat.le_of_succ_le hn)).moveByte hlayout hdvd hk hmoves n
      exact hmoved.mono fun j _ hj => by omega
  exact (hloop _ le_rfl).mono fun j hj hmem => by omega

end Carried

/-- The slot whose command a call may have left in `PORT_CI`. -/
def Call.flight : Call → Option CommandSlot
  | .polling slot _ | .checking slot _ | .expiring slot => some slot
  | .returned slot (.error _) => slot
  | _ => none

/-- Of the issued commands the first `k` have been carried out: all of them, or all but the last,
whose bit is still set. -/
inductive InFlight (s : Ahci) (p : Port) (issued : List CommandTable) : ℕ → Prop
  | idle (register : s.ci p = 0#32) : InFlight s p issued issued.length
  | busy {slot : CommandSlot} {earlier : List CommandTable} {table : CommandTable}
      (call : (s.calls p).flight = some slot) (register : s.ci p = 1#32 <<< slot.val)
      (command : s.tables p slot = some table) (last : issued = earlier ++ [table]) :
      InFlight s p issued earlier.length

/-- A bit that the device has cleared is clear. -/
def Ahci.Registers (s : Ahci) (p : Port) : Prop :=
  ∀ slot, s.cleared p slot = true → (s.ci p).getLsbD slot = false

section Flight
variable {virtToPhys : ℕ → Option ℕ} {s s' : Ahci} {p : Port} {issued : List CommandTable} {k : ℕ}

theorem InFlight.congr (h : InFlight s p issued k) (hcalls : s'.calls p = s.calls p)
    (htables : s'.tables p = s.tables p) (hci : s'.ci p = s.ci p) : InFlight s' p issued k := by
  cases h with
  | idle register => exact .idle (hci.trans register)
  | busy call register command last =>
    rw [← hcalls] at call
    rw [← htables] at command
    exact .busy call (hci.trans register) command last

theorem Ahci.ci_advance (virtToPhys : ℕ → Option ℕ) (hissuing : ∀ slot, s.calls p ≠ .issuing slot) :
    (s.advance virtToPhys p).ci = s.ci ∧ (s.advance virtToPhys p).cleared = s.cleared := by
  unfold Ahci.advance
  cases hcall : s.calls p with
  | issuing slot => exact absurd hcall (hissuing slot)
  | _ =>
    dsimp only
    repeat' split
    all_goals exact ⟨rfl, rfl⟩

theorem Ahci.issuing_or (s : Ahci) (p : Port) :
    (∃ slot, s.calls p = .issuing slot) ∨ ∀ slot, s.calls p ≠ .issuing slot := by
  rw [← not_exists]
  exact Classical.em _

theorem Ahci.advance_issuing {slot : CommandSlot} (hcall : s.calls p = .issuing slot) :
    s.advance virtToPhys p = (s.writeCi p slot).goto p (.polling slot 2000000) := by
  unfold Ahci.advance
  rw [hcall]

theorem Ahci.issues_of_not_issuing (hissuing : ∀ slot, s.calls p ≠ .issuing slot) :
    (AhciEvent.advance p).issues s p = none := by
  unfold AhciEvent.issues
  cases hcall : s.calls p with
  | issuing slot => exact absurd hcall (hissuing slot)
  | _ => rfl

theorem Ahci.Registers.advance (h : s.Registers p) : (s.advance virtToPhys p).Registers p := by
  rcases s.issuing_or p with ⟨slot, hcall⟩ | hnone
  · rw [Ahci.advance_issuing hcall]
    intro t ht
    change Function.update s.cleared p (Function.update (s.cleared p) slot false) p t = true at ht
    change (Function.update s.ci p (s.ci p ||| 1#32 <<< slot.val) p).getLsbD t = false
    rw [Function.update_self] at ht ⊢
    by_cases hslot : t = slot
    · rw [hslot, Function.update_self] at ht
      exact absurd ht Bool.false_ne_true
    · rw [Function.update_of_ne hslot] at ht
      have hne : ¬ t.val = slot.val := fun hv => hslot (Fin.ext hv)
      rw [getLsbD_setBit _ _ t.isLt, h t ht, decide_eq_false hne]
      rfl
  · obtain ⟨hci, hcleared⟩ := Ahci.ci_advance virtToPhys hnone
    intro t ht
    rw [hcleared] at ht
    rw [hci]
    exact h t ht

theorem Ahci.ci_advance_of_ne (s : Ahci) {q : Port} (hq : q ≠ p) :
    (s.advance virtToPhys p).ci q = s.ci q := by
  rcases s.issuing_or p with ⟨slot, hcall⟩ | hnone
  · rw [Ahci.advance_issuing hcall]
    exact Function.update_of_ne hq _ _
  · rw [(Ahci.ci_advance virtToPhys hnone).1]

theorem InFlight.settled (h : InFlight s p issued k) (hflight : (s.calls p).flight = none) :
    s.ci p = 0#32 ∧ k = issued.length := by
  cases h with
  | idle register => exact ⟨register, rfl⟩
  | busy call register command last =>
    rw [hflight] at call
    contradiction

theorem InFlight.goto_busy {c : Call} {slot : CommandSlot} {earlier : List CommandTable}
    {table : CommandTable} (hflight : c.flight = some slot) (hci : s.ci p = 1#32 <<< slot.val)
    (hcommand : s.tables p slot = some table) :
    InFlight (s.goto p c) p (earlier ++ [table]) earlier.length := by
  have hcall : ((s.goto p c).calls p).flight = some slot := by
    change (Function.update s.calls p c p).flight = some slot
    rw [Function.update_self]
    exact hflight
  exact .busy hcall hci hcommand rfl

/-- A call whose command has not been completed is still waiting for it, or has given up. -/
theorem InFlight.advance_busy {slot : CommandSlot} {earlier : List CommandTable}
    {table : CommandTable} (hsound : s.Sound) (hregisters : s.Registers p)
    (hcall : (s.calls p).flight = some slot) (hci : s.ci p = 1#32 <<< slot.val)
    (hcommand : s.tables p slot = some table) :
    InFlight (s.advance virtToPhys p) p (earlier ++ [table]) earlier.length := by
  have hbit : (s.ci p).getLsbD slot = true := by
    rw [hci, getLsbD_one_shiftLeft _ slot.isLt, decide_eq_true rfl]
  have hp := hsound p
  unfold Ahci.advance
  cases hstate : s.calls p with
  | polling slot' timeout =>
    rw [hstate] at hcall hp
    obtain rfl : slot' = slot := Option.some.inj hcall
    dsimp only
    have hdone : ¬ s.slotCompletion slot' = true := by
      intro hdone
      have hclear := hregisters slot' (hp.flag slot' rfl rfl hdone)
      rw [hclear] at hbit
      exact Bool.false_ne_true hbit
    rw [if_neg hdone]
    exact goto_busy rfl hci hcommand
  | checking slot' timeout =>
    rw [hstate] at hcall
    obtain rfl : slot' = slot := Option.some.inj hcall
    dsimp only
    rw [if_pos hbit]
    split_ifs
    · exact goto_busy rfl hci hcommand
    · exact goto_busy rfl hci hcommand
  | expiring slot' =>
    rw [hstate] at hcall
    obtain rfl : slot' = slot := Option.some.inj hcall
    exact goto_busy (s := s.clearPending slot') rfl hci hcommand
  | returned slot' result => exact .busy hcall hci hcommand rfl
  | _ =>
    rw [hstate] at hcall
    contradiction

/-- An access of the call issues at most one command and carries out none. -/
theorem InFlight.advance (h : InFlight s p issued k) (hsound : s.Sound) (hregisters : s.Registers p)
    (htable : ∀ slot, s.calls p = .issuing slot → ∃ table, s.tables p slot = some table) :
    InFlight (s.advance virtToPhys p) p (issued ++ ((AhciEvent.advance p).issues s p).toList) k := by
  rcases s.issuing_or p with ⟨slot, hcall⟩ | hnone
  · obtain ⟨table, hcommand⟩ := htable slot hcall
    have hflight : (s.calls p).flight = none := by
      rw [hcall]
      rfl
    obtain ⟨hci, rfl⟩ := h.settled hflight
    have hissues : (AhciEvent.advance p).issues s p = some table := by
      unfold AhciEvent.issues
      dsimp only
      rw [hcall]
      exact (if_pos rfl).trans hcommand
    rw [Ahci.advance_issuing hcall, hissues]
    refine goto_busy (s := s.writeCi p slot) rfl ?_ hcommand
    change Function.update s.ci p (s.ci p ||| 1#32 <<< slot.val) p = _
    rw [Function.update_self, hci, BitVec.zero_or]
  · rw [Ahci.issues_of_not_issuing hnone, Option.toList_none, List.append_nil]
    cases h with
    | idle register =>
      obtain ⟨hci, -⟩ := Ahci.ci_advance virtToPhys hnone
      exact .idle ((congrFun hci p).trans register)
    | busy call register command last =>
      subst last
      exact advance_busy hsound hregisters call register command

end Flight

/-- Events that leave the registers, the tables and the calls alone. -/
def AhciEvent.isPassive : AhciEvent → Bool
  | .interrupt _ | .handle | .setTfd _ _ | .setSact _ _ => true
  | _ => false

theorem Ahci.frame_passive (virtToPhys : ℕ → Option ℕ) (s : Ahci) {e : AhciEvent}
    (h : e.isPassive = true) :
    ((ahciSystem virtToPhys).next s e).calls = s.calls ∧
    ((ahciSystem virtToPhys).next s e).tables = s.tables ∧
    ((ahciSystem virtToPhys).next s e).ci = s.ci ∧
    ((ahciSystem virtToPhys).next s e).cleared = s.cleared := by
  cases e with
  | interrupt active =>
    change (s.interrupt active).calls = s.calls ∧ (s.interrupt active).tables = s.tables ∧
      (s.interrupt active).ci = s.ci ∧ (s.interrupt active).cleared = s.cleared
    unfold Ahci.interrupt
    split_ifs
    · exact ⟨rfl, rfl, rfl, rfl⟩
    · exact ⟨rfl, rfl, rfl, rfl⟩
    · exact ⟨rfl, rfl, rfl, rfl⟩
  | handle =>
    change s.handle.calls = s.calls ∧ s.handle.tables = s.tables ∧ s.handle.ci = s.ci ∧
      s.handle.cleared = s.cleared
    unfold Ahci.handle Ahci.collect
    dsimp only
    repeat' split
    all_goals exact ⟨rfl, rfl, rfl, rfl⟩
  | setTfd q value => exact ⟨rfl, rfl, rfl, rfl⟩
  | setSact q value => exact ⟨rfl, rfl, rfl, rfl⟩
  | call q r => contradiction
  | advance q => contradiction
  | complete q slot => contradiction

theorem Transfer.next_of_silent {virtToPhys : ℕ → Option ℕ} {p : Port} {buf : Buffer} {write : Bool}
    {t : Transfer} {e : AhciEvent} (h : e.issues t.ahci p = none) :
    (transferSystem virtToPhys p buf write).next t (.ahci e) =
      { t with ahci := (ahciSystem virtToPhys).next t.ahci e } := by
  change { t with
    ahci := (ahciSystem virtToPhys).next t.ahci e
    issued := t.issued ++ (e.issues t.ahci p).toList } = _
  rw [h, Option.toList_none, List.append_nil]

theorem Transfer.Tiling.issuing_table {virtToPhys : ℕ → Option ℕ} {p : Port} {buf : Buffer}
    {lba : BitVec 64} {write : Bool} {t : Transfer} (h : t.Tiling virtToPhys p buf lba write) :
    ∀ slot, t.ahci.calls p = .issuing slot → ∃ table, t.ahci.tables p slot = some table := by
  intro slot hcall
  have hbusy : (t.ahci.calls p).isOver = false := by
    rw [hcall]
    rfl
  obtain ⟨chunkLen, hpc⟩ := h.calling hbusy
  have hstands := h.stands
  rw [hpc] at hstands
  obtain ⟨-, j, -, -, -, hserves⟩ := hstands
  rw [hcall] at hserves
  obtain ⟨-, prdt, -, hcommand⟩ := hserves
  exact ⟨_, hcommand⟩

/-- What is known of a transfer at any time: which part of it has reached memory or the disk. -/
structure DmaTransfer.Moving (virtToPhys : ℕ → Option ℕ) (P : ℕ → ℕ) (p : Port) (buf : Buffer)
    (lba : BitVec 64) (write : Bool) (ram : ℕ → BitVec 8) (disks : Port → ℕ → BitVec 8)
    (d : DmaTransfer) : Prop where
  tiling : d.transfer.Tiling virtToPhys p buf lba write
  sound : d.transfer.ahci.Sound
  registers : d.transfer.ahci.Registers p
  others : ∀ q, q ≠ p → d.transfer.ahci.calls q = .idle ∧ d.transfer.ahci.ci q = 0#32
  settled : d.transfer.pc = .looping ∨ d.transfer.pc = .returned (.ok ()) →
    (d.transfer.ahci.calls p).flight = none
  moved : ∃ k, InFlight d.transfer.ahci p d.transfer.issued k ∧
    (d.storage p).Carried P lba.toNat buf write ⟨ram, disks p⟩ (· < 32768 * k)
  otherDisks : ∀ q, q ≠ p → d.disks q = disks q

section Run
variable {virtToPhys : ℕ → Option ℕ} {P : ℕ → ℕ} {p : Port} {buf : Buffer} {lba : BitVec 64}
  {write : Bool} {ram : ℕ → BitVec 8} {disks : Port → ℕ → BitVec 8} {d : DmaTransfer}

namespace DmaTransfer.Moving

theorem frame (h : d.Moving virtToPhys P p buf lba write ram disks) {s : Ahci}
    (htiling : ({ d.transfer with ahci := s } : Transfer).Tiling virtToPhys p buf lba write)
    (hsound : s.Sound) (hcalls : s.calls = d.transfer.ahci.calls)
    (htables : s.tables = d.transfer.ahci.tables) (hci : s.ci = d.transfer.ahci.ci)
    (hcleared : s.cleared = d.transfer.ahci.cleared) :
    ({ d with transfer := { d.transfer with ahci := s } } : DmaTransfer).Moving virtToPhys P p buf lba
      write ram disks where
  tiling := htiling
  sound := hsound
  registers slot hslot := by
    change s.cleared p slot = true at hslot
    change (s.ci p).getLsbD slot = false
    rw [hcleared] at hslot
    rw [hci]
    exact h.registers slot hslot
  others q hq := by
    change s.calls q = .idle ∧ s.ci q = 0#32
    rw [hcalls, hci]
    exact h.others q hq
  settled hpc := by
    change (s.calls p).flight = none
    rw [hcalls]
    exact h.settled hpc
  moved := by
    obtain ⟨k, hflight, hstorage⟩ := h.moved
    exact ⟨k, hflight.congr (congrFun hcalls p) (congrFun htables p) (congrFun hci p), hstorage⟩
  otherDisks := h.otherDisks

theorem loop (h : d.Moving virtToPhys P p buf lba write ram disks)
    (htiling : (d.transfer.loop p buf write).Tiling virtToPhys p buf lba write) :
    ({ d with transfer := d.transfer.loop p buf write } : DmaTransfer).Moving virtToPhys P p buf lba
      write ram disks := by
  obtain ⟨k, hflight, hstorage⟩ := h.moved
  unfold Transfer.loop at htiling ⊢
  cases hpc : d.transfer.pc with
  | looping =>
    rw [hpc] at htiling
    have hnone := h.settled (.inl hpc)
    obtain ⟨hci, rfl⟩ := hflight.settled hnone
    dsimp only at htiling ⊢
    by_cases hmore : d.transfer.done < buf.len
    · rw [if_pos hmore] at htiling ⊢
      refine ⟨htiling, h.sound.leave rfl rfl, h.registers, ?_, ?_, ⟨_, .idle hci, hstorage⟩,
        h.otherDisks⟩
      · intro q hq
        refine ⟨?_, (h.others q hq).2⟩
        change Function.update d.transfer.ahci.calls p _ q = .idle
        rw [Function.update_of_ne hq]
        exact (h.others q hq).1
      · rintro (hcon | hcon)
        · contradiction
        · contradiction
    · rw [if_neg hmore] at htiling ⊢
      exact ⟨htiling, h.sound, h.registers, h.others, fun _ => hnone, ⟨_, .idle hci, hstorage⟩,
        h.otherDisks⟩
  | calling chunkLen =>
    rw [hpc] at htiling
    dsimp only at htiling ⊢
    split at htiling
    · rename_i slot _ hcall
      have hnone : (d.transfer.ahci.calls p).flight = none := by
        rw [hcall]
        rfl
      exact ⟨htiling, h.sound, h.registers, h.others, fun _ => hnone, ⟨k, hflight, hstorage⟩,
        h.otherDisks⟩
    · refine ⟨htiling, h.sound, h.registers, h.others, ?_, ⟨k, hflight, hstorage⟩, h.otherDisks⟩
      rintro (hcon | hcon)
      · cases hcon
      · cases hcon
    · exact h
  | returned result => exact h

/-- A bit of `PORT_CI` that is set belongs to the last command issued. -/
theorem inFlight (h : d.Moving virtToPhys P p buf lba write ram disks) {q : Port} {slot : CommandSlot}
    (hbit : (d.transfer.ahci.ci q).getLsbD slot = true) : q = p ∧
      d.transfer.ahci.ci p = 1#32 <<< slot.val ∧ (d.transfer.ahci.calls p).flight = some slot ∧
      ∃ earlier table, d.transfer.ahci.tables p slot = some table ∧
        d.transfer.issued = earlier ++ [table] ∧ 32768 * earlier.length < buf.len ∧
        table.Moves virtToPhys write (piece lba.toNat buf earlier.length) ∧
        (d.storage p).Carried P lba.toNat buf write ⟨ram, disks p⟩ (· < 32768 * earlier.length) := by
  obtain rfl : q = p := by
    by_contra hq
    rw [(h.others q hq).2, BitVec.getLsbD_zero] at hbit
    exact Bool.false_ne_true hbit
  obtain ⟨k, hflight, hcarried⟩ := h.moved
  cases hflight with
  | idle register =>
    rw [register, BitVec.getLsbD_zero] at hbit
    exact absurd hbit Bool.false_ne_true
  | @busy slot' earlier table call register command last =>
    obtain rfl : slot = slot' := by
      rw [register, getLsbD_one_shiftLeft _ slot.isLt, decide_eq_true_iff] at hbit
      exact Fin.ext hbit
    have hlast : d.transfer.issued[earlier.length]? = some table := by
      rw [last, List.getElem?_append_right le_rfl, Nat.sub_self]
      rfl
    have hlength := h.tiling.length_le
    rw [last, List.length_append, List.length_singleton] at hlength
    have hmore : 32768 * earlier.length < buf.len := by
      unfold pieceCount at hlength
      omega
    exact ⟨rfl, register, call, earlier, table, command, last, hmore, h.tiling.moves _ table hlast,
      hcarried⟩

theorem storage_device {q : Port} {slot : CommandSlot} {table : CommandTable}
    (hcommand : d.transfer.ahci.tables q slot = some table) (work : CommandTable → Storage → Storage) :
    (d.device q slot work).storage q = work table (d.storage q) ∧
      (d.device q slot work).transfer = d.transfer ∧
      ∀ r, r ≠ q → (d.device q slot work).disks r = d.disks r := by
  unfold DmaTransfer.device
  rw [hcommand]
  refine ⟨?_, rfl, fun r hr => Function.update_of_ne hr _ _⟩
  change (⟨_, Function.update d.disks q _ q⟩ : Storage) = _
  rw [Function.update_self]
  rfl

theorem move (h : d.Moving virtToPhys P p buf lba write ram disks)
    (hlayout : Layout virtToPhys P buf) (hdvd : 512 ∣ buf.len) {q : Port} {slot : CommandSlot}
    (hbit : (d.transfer.ahci.ci q).getLsbD slot = true) (i : ℕ) :
    (d.device q slot fun t s => s.moveByte t i).Moving virtToPhys P p buf lba write ram disks := by
  obtain ⟨rfl, hci, hflight, earlier, table, hcommand, hlast, hmore, hmoves, hcarried⟩ :=
    h.inFlight hbit
  obtain ⟨hstorage, htransfer, hdisks⟩ := storage_device hcommand fun t s => s.moveByte t i
  have hkept := (hcarried.moveByte hlayout hdvd hmore hmoves i).mono fun j _ hj => Or.inl hj
  rw [← hstorage] at hkept
  constructor
  case moved =>
    refine ⟨earlier.length, ?_, hkept⟩
    rw [htransfer, hlast]
    exact .busy hflight hci hcommand rfl
  case otherDisks => exact fun r hr => (hdisks r hr).trans (h.otherDisks r hr)
  all_goals rw [htransfer]
  · exact h.tiling
  · exact h.sound
  · exact h.registers
  · exact h.others
  · exact h.settled

theorem complete (h : d.Moving virtToPhys P p buf lba write ram disks)
    (hlayout : Layout virtToPhys P buf) (hdvd : 512 ∣ buf.len) {q : Port} {slot : CommandSlot}
    (hbit : (d.transfer.ahci.ci q).getLsbD slot = true)
    (htiling : ({ d.transfer with ahci := d.transfer.ahci.complete q slot } : Transfer).Tiling
      virtToPhys p buf lba write) :
    ({ d.moves (.ahci (.complete q slot)) with
        transfer := { d.transfer with ahci := d.transfer.ahci.complete q slot } } : DmaTransfer).Moving
      virtToPhys P p buf lba write ram disks := by
  obtain ⟨rfl, register, -, earlier, table, hcommand, hlast, hmore, hmoves, hcarried⟩ :=
    h.inFlight hbit
  obtain ⟨hstorage, -, hdisks⟩ := storage_device hcommand Storage.execute
  have hci : (d.transfer.ahci.complete q slot).ci q = 0#32 := by
    change Function.update d.transfer.ahci.ci q _ q = _
    rw [Function.update_self, register]
    exact BitVec.and_not_self _
  have hexecuted := hcarried.execute hlayout hdvd hmore hmoves
  rw [← hstorage] at hexecuted
  refine ⟨htiling, h.sound.complete q slot, ?_, ?_, h.settled, ?_, ?_⟩
  · intro t _
    change ((d.transfer.ahci.complete q slot).ci q).getLsbD t = false
    rw [hci]
    exact BitVec.getLsbD_zero
  · intro r hr
    refine ⟨(h.others r hr).1, ?_⟩
    change Function.update d.transfer.ahci.ci q _ r = 0#32
    rw [Function.update_of_ne hr]
    exact (h.others r hr).2
  · refine ⟨d.transfer.issued.length, .idle hci, ?_⟩
    rw [hlast, List.length_append, List.length_singleton]
    exact hexecuted
  · exact fun r hr => (hdisks r hr).trans (h.otherDisks r hr)

theorem advance (h : d.Moving virtToPhys P p buf lba write ram disks)
    (hsound : (d.transfer.ahci.advance virtToPhys p).Sound)
    (htiling : ({ d.transfer with
      ahci := d.transfer.ahci.advance virtToPhys p
      issued := d.transfer.issued ++ ((AhciEvent.advance p).issues d.transfer.ahci p).toList } :
        Transfer).Tiling virtToPhys p buf lba write) :
    ({ d with transfer := { d.transfer with
        ahci := d.transfer.ahci.advance virtToPhys p
        issued := d.transfer.issued ++ ((AhciEvent.advance p).issues d.transfer.ahci p).toList } } :
      DmaTransfer).Moving virtToPhys P p buf lba write ram disks := by
  obtain ⟨k, hflight, hstorage⟩ := h.moved
  have hover : d.transfer.pc = .looping ∨ d.transfer.pc = .returned (.ok ()) →
      (d.transfer.ahci.calls p).isOver = true := by
    have hstands := h.tiling.stands
    rintro (hpc | hpc)
    · rw [hpc] at hstands
      exact hstands.1
    · rw [hpc] at hstands
      exact hstands.1
  refine ⟨htiling, hsound, h.registers.advance, ?_, ?_,
    ⟨k, hflight.advance h.sound h.registers h.tiling.issuing_table, hstorage⟩, h.otherDisks⟩
  · intro q hq
    have hframe := Ahci.frame_advance (s := d.transfer.ahci) (p := q) virtToPhys (Ne.symm hq)
    exact ⟨hframe.1.trans (h.others q hq).1,
      (Ahci.ci_advance_of_ne d.transfer.ahci hq).trans (h.others q hq).2⟩
  · intro hpc
    change ((d.transfer.ahci.advance virtToPhys p).calls p).flight = none
    rw [Ahci.advance_of_isOver (hover hpc)]
    exact h.settled hpc

theorem passive (h : d.Moving virtToPhys P p buf lba write ram disks) {e : AhciEvent}
    (hpassive : e.isPassive = true)
    (hsilent : e ≠ .advance p → e.issues d.transfer.ahci p = none)
    (hsound : ((ahciSystem virtToPhys).next d.transfer.ahci e).Sound)
    (htiling : ((transferSystem virtToPhys p buf write).next d.transfer (.ahci e)).Tiling virtToPhys p
      buf lba write) :
    ((dmaSystem virtToPhys p buf write).next d (.transfer (.ahci e))).Moving virtToPhys P p buf lba
      write ram disks := by
  obtain ⟨hcalls, htables, hci, hcleared⟩ := Ahci.frame_passive virtToPhys d.transfer.ahci hpassive
  have hmoves : d.moves (.ahci e) = d := by
    cases e with
    | complete q slot => contradiction
    | _ => rfl
  have hissues : e.issues d.transfer.ahci p = none := by
    apply hsilent
    rintro rfl
    contradiction
  rw [Transfer.next_of_silent hissues] at htiling
  change ({ d.moves (.ahci e) with
    transfer := (transferSystem virtToPhys p buf write).next d.transfer (.ahci e) } :
      DmaTransfer).Moving virtToPhys P p buf lba write ram disks
  rw [hmoves, Transfer.next_of_silent hissues]
  exact h.frame htiling hsound hcalls htables hci hcleared

theorem transfer (h : d.Moving virtToPhys P p buf lba write ram disks)
    (hlayout : Layout virtToPhys P buf) (hdvd : 512 ∣ buf.len)
    (hlba : lba.toNat + buf.len / 512 ≤ 2 ^ 48) (e : TransferEvent)
    (he : (transferSystem virtToPhys p buf write).Enabled d.transfer e)
    (hquiet : e.Undisturbed d.transfer) :
    ((dmaSystem virtToPhys p buf write).next d (.transfer e)).Moving virtToPhys P p buf lba write ram
      disks := by
  have htiling := h.tiling.step hdvd hlba e he
  cases e with
  | loop => exact h.loop htiling
  | ahci e =>
    have hsound : ((ahciSystem virtToPhys).next d.transfer.ahci e).Sound := h.sound.step e hquiet.1
    -- nothing but an access of the call on this port issues a command
    have hsilent : e ≠ .advance p → e.issues d.transfer.ahci p = none := fun hother =>
      (Ahci.frame virtToPhys he.2 fun hcon => absurd hcon hother).2.2
    cases e with
    | call q r => exact absurd hquiet.2 (Option.some_ne_none q)
    | advance q =>
      by_cases hq : q = p
      · subst hq
        exact h.advance hsound htiling
      · have hidle : (d.transfer.ahci.calls q).isOver = true := by
          rw [(h.others q hq).1]
          rfl
        have hnext : (ahciSystem virtToPhys).next d.transfer.ahci (.advance q) = d.transfer.ahci :=
          Ahci.advance_of_isOver hidle
        have hissues := hsilent fun hcon => hq (AhciEvent.advance.inj hcon)
        change ({ d with
          transfer := (transferSystem virtToPhys p buf write).next d.transfer (.ahci (.advance q)) } :
            DmaTransfer).Moving virtToPhys P p buf lba write ram disks
        rw [Transfer.next_of_silent hissues, hnext]
        exact h
    | complete q slot =>
      have hissues := hsilent fun hcon => AhciEvent.noConfusion hcon
      rw [Transfer.next_of_silent hissues] at htiling
      change ({ d.moves (.ahci (.complete q slot)) with
        transfer := (transferSystem virtToPhys p buf write).next d.transfer
          (.ahci (.complete q slot)) } : DmaTransfer).Moving virtToPhys P p buf lba write ram disks
      rw [Transfer.next_of_silent hissues]
      exact h.complete hlayout hdvd he.1 htiling
    | interrupt active => exact h.passive rfl hsilent hsound htiling
    | handle => exact h.passive rfl hsilent hsound htiling
    | setTfd q value => exact h.passive rfl hsilent hsound htiling
    | setSact q value => exact h.passive rfl hsilent hsound htiling

theorem step (h : d.Moving virtToPhys P p buf lba write ram disks)
    (hlayout : Layout virtToPhys P buf) (hdvd : 512 ∣ buf.len)
    (hlba : lba.toNat + buf.len / 512 ≤ 2 ^ 48) (e : DmaEvent)
    (he : (dmaSystem virtToPhys p buf write).Enabled d e) (hquiet : e.Undisturbed d) :
    ((dmaSystem virtToPhys p buf write).next d e).Moving virtToPhys P p buf lba write ram disks := by
  cases e with
  | transfer e => exact h.transfer hlayout hdvd hlba e he hquiet
  | move q slot i => exact h.move hlayout hdvd he i

theorem start {ahci : Ahci} (hquiescent : ahci.Quiescent) (hci : ∀ q, ahci.ci q = 0#32)
    (hpos : 0 < buf.len) (hdvd : 512 ∣ buf.len) :
    (⟨rwSectors .sata ahci lba buf, ram, disks⟩ : DmaTransfer).Moving virtToPhys P p buf lba write ram
      disks where
  tiling := by
    apply tiling_rwSectors _ hpos hdvd
    rw [hquiescent.calls p]
    rfl
  sound := hquiescent.sound
  registers slot _ := by
    change (ahci.ci p).getLsbD slot = false
    rw [hci p]
    exact BitVec.getLsbD_zero
  others q _ := ⟨hquiescent.calls q, hci q⟩
  settled _ := by
    change (ahci.calls p).flight = none
    rw [hquiescent.calls p]
    rfl
  moved := by
    refine ⟨0, .idle (hci p), fun _ _ => rfl, fun _ _ => rfl, ?_⟩
    exact fun i _ hi => absurd hi (Nat.not_lt_zero i)
  otherDisks _ _ := rfl

end DmaTransfer.Moving

end Run

/-- The data of a transfer. Whatever the device and the interrupts do, and whenever the device
moves the bytes of a command, memory changes within the buffer only and the disk within the sectors
only, in the direction of the transfer; and when `read_sectors` or `write_sectors` returns `Ok`, the
sectors and the buffer hold the same bytes. -/
theorem rwSectors_transfers (virtToPhys : ℕ → Option ℕ) (P : ℕ → ℕ) (p : Port) (ahci : Ahci)
    (lba : BitVec 64) (buf : Buffer) (write : Bool) (ram : ℕ → BitVec 8)
    (disks : Port → ℕ → BitVec 8) (d : DmaTransfer) (hlayout : Layout virtToPhys P buf)
    (hquiescent : ahci.Quiescent) (hci : ∀ q, ahci.ci q = 0#32) (hpos : 0 < buf.len)
    (hdvd : 512 ∣ buf.len) (hlba : lba.toNat + buf.len / 512 ≤ 2 ^ 48)
    (hrun : (dmaSystem virtToPhys p buf write).RunWhen (fun d e => e.Undisturbed d)
      ⟨rwSectors .sata ahci lba buf, ram, disks⟩ d) :
    (∀ a, write = true ∨ (∀ i < buf.len, a ≠ P (buf.addr + i)) → d.ram a = ram a) ∧
    (∀ b, write = false ∨ b < 512 * lba.toNat ∨ 512 * lba.toNat + buf.len ≤ b →
      d.disks p b = disks p b) ∧
    (∀ q, q ≠ p → d.disks q = disks q) ∧
    (d.transfer.pc = .returned (.ok ()) →
      ∀ i < buf.len, d.disks p (512 * lba.toNat + i) = d.ram (P (buf.addr + i))) := by
  have hmoving : d.Moving virtToPhys P p buf lba write ram disks :=
    hrun.invariant (fun _ e hd he hquiet => hd.step hlayout hdvd hlba e he hquiet)
      (DmaTransfer.Moving.start hquiescent hci hpos hdvd)
  obtain ⟨k, hflight, hcarried⟩ := hmoving.moved
  refine ⟨hcarried.ram, hcarried.disk, hmoving.otherDisks, ?_⟩
  intro hok i hi
  have hstands := hmoving.tiling.stands
  rw [hok] at hstands
  obtain ⟨-, rfl⟩ := hflight.settled (hmoving.settled (.inr hok))
  apply hcarried.equal i hi
  rw [hstands.2]
  unfold pieceCount
  omega

/-- The addresses of a machine without paging, up to the width of a pointer. -/
def flatPhys (virt : ℕ) : Option ℕ := if virt < 2 ^ 64 then some virt else none

theorem flatPhys_layout (buf : Buffer) (hreach : buf.addr + buf.len ≤ 2 ^ 64) :
    Layout flatPhys wrap64 buf where
  translates virt a h := by
    unfold flatPhys at h
    split_ifs at h with hlt
    exact (Option.some.inj h).symm.trans (wrap64_of_lt hlt).symm
  bounded := wrap64_lt
  paged virt k hpage := by
    unfold wrap64
    omega
  injective i hi j hj heq := by
    rw [wrap64_of_lt (by omega), wrap64_of_lt (by omega)] at heq
    exact Nat.add_left_cancel heq
  reach := hreach

/-- A read of sector 100 of a disk whose bytes count up. The device moves two bytes early. -/
theorem rwSectors_transfers_sector :
    ∃ d, (dmaSystem flatPhys 0 ⟨0x10000, 512⟩ false).RunWhen (fun d e => e.Undisturbed d)
        ⟨rwSectors .sata restingAhci 100 ⟨0x10000, 512⟩, fun _ => 0, fun _ b => BitVec.ofNat 8 b⟩ d ∧
      d.transfer.pc = .returned (.ok ()) ∧
      ∀ i < 512, d.ram (0x10000 + i) = BitVec.ofNat 8 (51200 + i) := by
  obtain ⟨d, hrun, hok⟩ : ∃ d, (dmaSystem flatPhys 0 ⟨0x10000, 512⟩ false).RunWhen
      (fun d e => e.Undisturbed d)
      ⟨rwSectors .sata restingAhci 100 ⟨0x10000, 512⟩, fun _ => 0, fun _ b => BitVec.ofNat 8 b⟩ d ∧
      d.transfer.pc = .returned (.ok ()) := by
    apply EventSystem.exists_runWhen ((servedChunk.take 8).map .transfer ++
      [.move 0 0 7, .move 0 0 300] ++ (servedChunk.drop 8 ++ [TransferEvent.loop]).map .transfer)
    decide +kernel
  obtain ⟨-, hdisk, -, hequal⟩ := rwSectors_transfers flatPhys wrap64 0 restingAhci 100
    ⟨0x10000, 512⟩ false (fun _ => 0) (fun _ b => BitVec.ofNat 8 b) d
    (flatPhys_layout _ (by decide)) restingAhci_quiescent (fun _ => rfl) (by decide) (by decide)
    (by decide) hrun
  refine ⟨d, hrun, hok, ?_⟩
  intro i hi
  have hplace : wrap64 (0x10000 + i) = 0x10000 + i := wrap64_of_lt (by omega)
  have hsame := hequal hok i hi
  dsimp only at hsame
  rw [hplace, hdisk _ (.inl rfl)] at hsame
  exact hsame.symm

end MitosOS.Drivers
