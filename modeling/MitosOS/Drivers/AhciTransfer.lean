import MitosOS.Drivers.AhciCompletion
import MitosOS.Drivers.Prdt
import MitosOS.Lib.Lists

/-! `read_sectors` and `write_sectors`: the loop that cuts a transfer into commands, and which
commands it issues whatever the device, the interrupts and the other ports do. -/
namespace MitosOS.Drivers
open Lib

inductive DeviceKind where
  | sata
  | satapi
  | portMultiplier
  | enclosureManagement
  deriving DecidableEq, Repr

def ataCmdReadDmaExt : BitVec 8 := 0x25
def ataCmdWriteDmaExt : BitVec 8 := 0x35
def sectorSize : ℕ := 512

/-- Where `rw_sectors` stands: at the head of its loop, in `issue_command` with the next `chunk_len`
bytes, or returned. -/
inductive TransferPc where
  | looping
  | calling (chunkLen : ℕ)
  | returned (result : Except AhciError Unit)
  deriving DecidableEq

/-- The driver with one `rw_sectors` in progress. `issued` is history: the command tables in memory
as `PORT_CI` was written for them. -/
structure Transfer where
  ahci : Ahci
  pc : TransferPc
  done : ℕ
  curLba : BitVec 64
  issued : List CommandTable

def rwSectors (kind : DeviceKind) (ahci : Ahci) (lba : BitVec 64) (buf : Buffer) : Transfer where
  ahci := ahci
  pc :=
    if kind ≠ .sata then .returned (.error .deviceNotAta)
    else if buf.len = 0 ∨ buf.len % sectorSize ≠ 0 then .returned (.error .bufferNotSectorAligned)
    else .looping
  done := 0
  curLba := lba
  issued := []

def chunkSectors (chunkLen : ℕ) : BitVec 16 := BitVec.ofNat 16 (chunkLen / sectorSize)

namespace Transfer
variable (p : Port) (buf : Buffer) (write : Bool)

def request (t : Transfer) (chunkLen : ℕ) : Request where
  command := if write then ataCmdWriteDmaExt else ataCmdReadDmaExt
  lba := t.curLba
  sectorCount := chunkSectors chunkLen
  write := write
  buf := { addr := buf.addr + t.done, len := chunkLen }

/-- One step of the loop: into `issue_command`, or on with what it returned. -/
def loop (t : Transfer) : Transfer :=
  match t.pc with
  | .looping =>
    if t.done < buf.len then
      let chunkLen := min (buf.len - t.done) maxTransferBytes
      { t with
        ahci := t.ahci.goto p (.waiting (t.request buf write chunkLen) 0)
        pc := .calling chunkLen }
    else { t with pc := .returned (.ok ()) }
  | .calling chunkLen =>
    match t.ahci.calls p with
    | .returned _ (.ok _) =>
      { t with
        done := t.done + chunkLen
        curLba := t.curLba + (chunkSectors chunkLen).setWidth 64
        pc := .looping }
    | .returned _ (.error e) => { t with pc := .returned (.error e) }
    | _ => t
  | .returned _ => t

end Transfer

/-- The table the device is handed when the event writes `PORT_CI` of port `p`. -/
def AhciEvent.issues (s : Ahci) (p : Port) : AhciEvent → Option CommandTable
  | .advance q =>
    match s.calls p with
    | .issuing slot => if q = p then s.tables p slot else none
    | _ => none
  | _ => none

def AhciEvent.starts : AhciEvent → Option Port
  | .call p _ => some p
  | _ => none

inductive TransferEvent where
  | loop
  | ahci (e : AhciEvent)

/-- All that can happen around a transfer on port `p`, which is the only one to call `issue_command`
there. -/
def transferSystem (virtToPhys : ℕ → Option ℕ) (p : Port) (buf : Buffer) (write : Bool) :
    EventSystem Transfer TransferEvent where
  Enabled t
    | .loop => t.ahci.handler = none
    | .ahci e => e.Enabled t.ahci ∧ e.starts ≠ some p
  next t
    | .loop => t.loop p buf write
    | .ahci e =>
      { t with
        ahci := (ahciSystem virtToPhys).next t.ahci e
        issued := t.issued ++ (e.issues t.ahci p).toList }

instance (virtToPhys : ℕ → Option ℕ) (p : Port) (buf : Buffer) (write : Bool) (t : Transfer) :
    (e : TransferEvent) → Decidable ((transferSystem virtToPhys p buf write).Enabled t e)
  | .loop => inferInstanceAs (Decidable (t.ahci.handler = none))
  | .ahci e => inferInstanceAs (Decidable (e.Enabled t.ahci ∧ e.starts ≠ some p))

/-- A range of sectors and the slice of the buffer that belongs to it. -/
structure Piece where
  lba : ℕ
  count : ℕ
  slice : Buffer

/-- The parts of a transfer: 64 sectors or 32 KiB each, the last one what is left. -/
def piece (lba : ℕ) (buf : Buffer) (k : ℕ) : Piece where
  lba := lba + 64 * k
  count := min (buf.len / 512 - 64 * k) 64
  slice := { addr := buf.addr + 32768 * k, len := min (buf.len - 32768 * k) 32768 }

def pieceCount (buf : Buffer) : ℕ := (buf.len + 32767) / 32768

def pieces (lba : ℕ) (buf : Buffer) : List Piece :=
  (List.range (pieceCount buf)).map (piece lba buf)

/-- The pieces take up the sectors from `lba` on one after the other, each with its bytes of the
buffer. -/
structure Tiles (lba : ℕ) (buf : Buffer) (pieces : List Piece) : Prop where
  sectors : pieces.flatMap (fun piece => List.range' piece.lba piece.count) =
    List.range' lba (buf.len / 512)
  slices : ∀ piece ∈ pieces, piece.slice =
    { addr := buf.addr + 512 * (piece.lba - lba), len := 512 * piece.count }

namespace FisRegH2D

def lba (f : FisRegH2D) : BitVec 48 := f.lba5 ++ f.lba4 ++ f.lba3 ++ f.lba2 ++ f.lba1 ++ f.lba0

def count (f : FisRegH2D) : BitVec 16 := f.counth ++ f.countl

end FisRegH2D

/-- The command moves the sectors of the piece to or from its slice of the buffer: so for every view
of memory in which addresses lie where the `Hal` translates them. -/
structure CommandTable.Moves (virtToPhys : ℕ → Option ℕ) (write : Bool) (t : CommandTable)
    (piece : Piece) : Prop where
  command : t.cfis.command = if write then 0x35#8 else 0x25#8
  direction : t.dw0.getLsbD 6 = write
  lba : t.cfis.lba.toNat = piece.lba
  count : t.cfis.count.toNat = piece.count
  entries : (t.dw0 >>> 16).toNat = t.prdt.length
  slice : ∀ phys : ℕ → BitVec 64,
    (∀ virt a, virtToPhys virt = some a → phys virt = BitVec.ofNat 64 a) →
      Partitions phys piece.slice 0 t.prdt

theorem pieces_tile (lba : ℕ) {buf : Buffer} (hdvd : 512 ∣ buf.len) :
    Tiles lba buf (pieces lba buf) where
  sectors := by
    have hall : min (buf.len / 512) (64 * pieceCount buf) = buf.len / 512 := by
      unfold pieceCount
      omega
    rw [pieces, List.flatMap_map, ← hall]
    exact flatMap_chunks_range' lba (buf.len / 512) 64 (pieceCount buf)
  slices := by
    obtain ⟨m, hm⟩ := hdvd
    intro part hpart
    obtain ⟨k, -, rfl⟩ := List.mem_map.mp hpart
    simp only [piece, Buffer.mk.injEq]
    omega

section Fis

theorem toNat_append_byte {w : ℕ} (x : BitVec w) (b : BitVec 8) :
    (x ++ b).toNat = x.toNat * 256 + b.toNat := by
  rw [BitVec.toNat_append, ← Nat.shiftLeft_add_eq_or_of_lt b.isLt, Nat.shiftLeft_eq]

theorem toNat_byteOf {w : ℕ} (word : BitVec w) (i : ℕ) :
    (byteOf word i).toNat = word.toNat / 2 ^ (8 * i) % 256 := by
  simp [byteOf, Nat.shiftRight_eq_div_pow]

theorem lba_commandTable (r : Request) (prdt : List HbaPrdtEntry) (h : r.lba.toNat < 2 ^ 48) :
    (commandTable r prdt).cfis.lba.toNat = r.lba.toNat := by
  simp only [FisRegH2D.lba, commandTable, toNat_append_byte, toNat_byteOf]
  omega

theorem count_commandTable (r : Request) (prdt : List HbaPrdtEntry) :
    (commandTable r prdt).cfis.count.toNat = r.sectorCount.toNat := by
  have h := r.sectorCount.isLt
  simp only [FisRegH2D.count, commandTable, toNat_append_byte, toNat_byteOf]
  omega

theorem direction_commandTable (r : Request) (prdt : List HbaPrdtEntry) :
    (commandTable r prdt).dw0.getLsbD 6 = r.write := by
  cases hwrite : r.write with
  | false => simp [commandTable, hwrite]
  | true => simp [commandTable, hwrite]

theorem entries_commandTable (r : Request) (prdt : List HbaPrdtEntry)
    (h : prdt.length ≤ prdtEntries) :
    ((commandTable r prdt).dw0 >>> 16).toNat = prdt.length := by
  have hflags : ∀ write : Bool, (5#32 ||| if write then 1#32 <<< 6 else 0#32) >>> 16 = 0#32 := by
    decide
  have hcount : prdt.length ≤ 9 := h
  show (((5#32 ||| if r.write then 1#32 <<< 6 else 0#32) |||
    BitVec.ofNat 32 prdt.length <<< 16) >>> 16).toNat = prdt.length
  rw [BitVec.ushiftRight_or_distrib, hflags, BitVec.zero_or]
  simp only [BitVec.toNat_ushiftRight, BitVec.toNat_shiftLeft, BitVec.toNat_ofNat,
    Nat.shiftLeft_eq, Nat.shiftRight_eq_div_pow]
  omega

end Fis

section Arguments
variable {virtToPhys : ℕ → Option ℕ} {buf : Buffer} {lba : BitVec 64} {write : Bool} {t : Transfer}

theorem toNat_chunkSectors {chunkLen : ℕ} (h : chunkLen ≤ 32768) :
    (chunkSectors chunkLen).toNat = chunkLen / 512 := by
  rw [chunkSectors, BitVec.toNat_ofNat, sectorSize]
  omega

theorem toNat_add_chunkSectors {cur : BitVec 64} {k : ℕ} (hdvd : 512 ∣ buf.len)
    (hlba : lba.toNat + buf.len / 512 ≤ 2 ^ 48) (hk : 32768 * k < buf.len)
    (hcur : cur.toNat = lba.toNat + 64 * k) :
    (cur + (chunkSectors (min (buf.len - 32768 * k) 32768)).setWidth 64).toNat =
      lba.toNat + min (64 * (k + 1)) (buf.len / 512) := by
  obtain ⟨m, hm⟩ := hdvd
  rw [BitVec.toNat_add, BitVec.toNat_setWidth, toNat_chunkSectors (Nat.min_le_right _ _), hcur]
  omega

theorem Transfer.moves_request {k : ℕ} {prdt : List HbaPrdtEntry} (hdvd : 512 ∣ buf.len)
    (hlba : lba.toNat + buf.len / 512 ≤ 2 ^ 48) (hk : 32768 * k < buf.len)
    (hdone : t.done = 32768 * k) (hcur : t.curLba.toNat = lba.toNat + 64 * k)
    (hbuild : buildPrdt virtToPhys
      (t.request buf write (min (buf.len - t.done) maxTransferBytes)).buf = .ok prdt) :
    (commandTable (t.request buf write (min (buf.len - t.done) maxTransferBytes)) prdt).Moves
      virtToPhys write (piece lba.toNat buf k) := by
  obtain ⟨m, hm⟩ := hdvd
  have hchunk : min (buf.len - t.done) maxTransferBytes = min (buf.len - 32768 * k) 32768 := by
    rw [hdone]
    rfl
  rw [hchunk] at hbuild ⊢
  constructor
  · rfl
  · exact direction_commandTable _ _
  · rw [lba_commandTable]
    · exact hcur
    · show t.curLba.toNat < 2 ^ 48
      rw [hcur]
      omega
  · rw [count_commandTable]
    show (chunkSectors _).toNat = min (buf.len / 512 - 64 * k) 64
    rw [toNat_chunkSectors (Nat.min_le_right _ _)]
    omega
  · exact entries_commandTable _ _ (length_buildPrdt_le hbuild)
  · intro phys hphys
    have hpartitions := (partitions_of_buildPrdt hphys hbuild).2
    rwa [request, hdone] at hpartitions

end Arguments

/-- What a call for request `r` has done when `k` commands went before it and `n` are issued. -/
def Call.Serves (virtToPhys : ℕ → Option ℕ) (tables : CommandSlot → Option CommandTable)
    (r : Request) (k n : ℕ) : Call → Prop
  | .idle => False
  | .waiting r' _ | .readingSact r' | .readingCi r' _ => r' = r ∧ n = k
  | .clearing r' _ | .marking r' _ | .building r' _ => r' = r ∧ n = k
  | .issuing slot => n = k ∧ ∃ prdt, buildPrdt virtToPhys r.buf = .ok prdt ∧
      tables slot = some (commandTable r prdt)
  | .polling _ _ | .checking _ _ | .completing _ | .releasing _ => n = k + 1
  | .expiring _ | .finishing _ | .returned _ (.ok _) => n = k + 1
  | .returned _ (.error _) => n = k ∨ n = k + 1

section Steps
variable {virtToPhys : ℕ → Option ℕ} {s : Ahci} {p : Port} {r : Request} {k n : ℕ}

theorem Ahci.serves_goto {c : Call} (h : c.Serves virtToPhys (s.tables p) r k n) :
    ((s.goto p c).calls p).Serves virtToPhys ((s.goto p c).tables p) r k n := by
  simpa [Ahci.goto] using h

/-- Each access of `issue_command` keeps the count: only the write of `PORT_CI` issues a command. -/
theorem Ahci.serves_advance (h : (s.calls p).Serves virtToPhys (s.tables p) r k n) :
    ((s.advance virtToPhys p).calls p).Serves virtToPhys ((s.advance virtToPhys p).tables p) r k
      (n + ((AhciEvent.advance p).issues s p).toList.length) := by
  unfold AhciEvent.issues Ahci.advance
  cases hcall : s.calls p with
  | idle => exact h
  | returned slot result => exact h
  | waiting r' waited =>
    rw [hcall] at h
    dsimp only
    split_ifs
    · exact serves_goto (Or.inl h.2)
    · exact serves_goto h
    · exact serves_goto h
  | readingSact r' =>
    rw [hcall] at h
    exact serves_goto h
  | readingCi r' sact =>
    rw [hcall] at h
    dsimp only
    cases findFreeSlot s.numSlots (sact ||| s.ci p) with
    | none => exact serves_goto (Or.inl h.2)
    | some slot => exact serves_goto h
  | clearing r' slot =>
    rw [hcall] at h
    exact serves_goto (s := s.setCompletion slot false) h
  | marking r' slot =>
    rw [hcall] at h
    exact serves_goto (s := s.setPending slot) h
  | building r' slot =>
    rw [hcall] at h
    obtain ⟨rfl, hn⟩ := h
    dsimp only
    cases hbuild : buildPrdt virtToPhys r'.buf with
    | error e => exact serves_goto (Or.inl hn)
    | ok prdt =>
      apply serves_goto (s := s.writeTable p slot (commandTable r' prdt))
      exact ⟨hn, prdt, hbuild, by simp [writeTable]⟩
  | issuing slot =>
    rw [hcall] at h
    obtain ⟨hn, prdt, -, htable⟩ := h
    dsimp only
    rw [if_pos rfl, htable, Option.toList_some, List.length_singleton, hn]
    exact serves_goto (s := s.writeCi p slot) rfl
  | polling slot timeout =>
    rw [hcall] at h
    dsimp only
    split_ifs
    · exact serves_goto h
    · exact serves_goto h
  | checking slot timeout =>
    rw [hcall] at h
    dsimp only
    split_ifs
    · exact serves_goto h
    · exact serves_goto h
    · exact serves_goto h
  | completing slot =>
    rw [hcall] at h
    exact serves_goto (s := s.setCompletion slot true) h
  | releasing slot =>
    rw [hcall] at h
    exact serves_goto (s := s.clearPending slot) h
  | expiring slot =>
    rw [hcall] at h
    exact serves_goto (s := s.clearPending slot) (Or.inr h)
  | finishing slot =>
    rw [hcall] at h
    dsimp only
    split_ifs
    · exact serves_goto (Or.inr h)
    · exact serves_goto h

theorem Call.Serves.le {tables : CommandSlot → Option CommandTable} {c : Call}
    (h : c.Serves virtToPhys tables r k n) : n ≤ k + 1 := by
  unfold Call.Serves at h
  split at h
  all_goals first
    | omega
    | exact h.elim

theorem Call.Serves.issues {table : CommandTable}
    (h : (s.calls p).Serves virtToPhys (s.tables p) r k n)
    (hissues : (AhciEvent.advance p).issues s p = some table) :
    n = k ∧ ∃ prdt, buildPrdt virtToPhys r.buf = .ok prdt ∧ table = commandTable r prdt := by
  unfold AhciEvent.issues at hissues
  dsimp only at hissues
  split at hissues
  · rename_i slot hcall
    rw [hcall] at h
    obtain ⟨hn, prdt, hbuild, htable⟩ := h
    rw [if_pos rfl, htable] at hissues
    exact ⟨hn, prdt, hbuild, (Option.some.inj hissues).symm⟩
  · contradiction

theorem Ahci.frame_advance (virtToPhys : ℕ → Option ℕ) {q : Port} (hq : q ≠ p) :
    (s.advance virtToPhys q).calls p = s.calls p ∧
      (s.advance virtToPhys q).tables p = s.tables p := by
  have hgoto : ∀ (s' : Ahci) (c : Call), (s'.goto q c).calls p = s'.calls p := by
    intro s' c
    simp [Ahci.goto, hq.symm]
  have htables : ∀ slot t, (s.writeTable q slot t).tables p = s.tables p := by
    intro slot t
    simp [writeTable, hq.symm]
  unfold Ahci.advance
  repeat' split
  all_goals first
    | exact ⟨rfl, rfl⟩
    | exact ⟨hgoto _ _, rfl⟩
    | exact ⟨hgoto _ _, htables _ _⟩

theorem Ahci.frame (virtToPhys : ℕ → Option ℕ) {e : AhciEvent} (hstarts : e.starts ≠ some p)
    (hquiet : e = .advance p → (s.calls p).isOver = true) :
    ((ahciSystem virtToPhys).next s e).calls p = s.calls p ∧
      ((ahciSystem virtToPhys).next s e).tables p = s.tables p ∧ e.issues s p = none := by
  cases e with
  | call q r =>
    have hq : q ≠ p := fun hq => hstarts (congrArg some hq)
    exact ⟨by simp [ahciSystem, Ahci.goto, hq.symm], rfl, rfl⟩
  | advance q =>
    by_cases hq : q = p
    · subst hq
      have hover := hquiet rfl
      have hsame : (ahciSystem virtToPhys).next s (.advance q) = s := advance_of_isOver hover
      refine ⟨by rw [hsame], by rw [hsame], ?_⟩
      unfold AhciEvent.issues
      dsimp only
      split
      · rename_i slot hcall
        rw [hcall] at hover
        contradiction
      · rfl
    · obtain ⟨hcalls, htables⟩ := frame_advance virtToPhys hq
      refine ⟨hcalls, htables, ?_⟩
      unfold AhciEvent.issues
      dsimp only
      split
      · exact if_neg hq
      · rfl
  | interrupt active =>
    show (s.interrupt active).calls p = s.calls p ∧ (s.interrupt active).tables p = s.tables p ∧ _
    unfold Ahci.interrupt
    split_ifs
    all_goals exact ⟨rfl, rfl, rfl⟩
  | handle =>
    show s.handle.calls p = s.calls p ∧ s.handle.tables p = s.tables p ∧ _
    unfold Ahci.handle Ahci.collect
    dsimp only
    repeat' split
    all_goals exact ⟨rfl, rfl, rfl⟩
  | complete q slot => exact ⟨rfl, rfl, rfl⟩
  | setTfd q value => exact ⟨rfl, rfl, rfl⟩
  | setSact q value => exact ⟨rfl, rfl, rfl⟩

end Steps

section Runs
variable (virtToPhys : ℕ → Option ℕ) (p : Port) (buf : Buffer) (lba : BitVec 64) (write : Bool)

/-- How many commands have been issued when `rw_sectors` stands at a point. -/
def Transfer.Stands (t : Transfer) : TransferPc → Prop
  | .looping =>
    (t.ahci.calls p).isOver = true ∧ t.issued.length ≤ pieceCount buf ∧
      t.done = min (32768 * t.issued.length) buf.len ∧
      t.curLba.toNat = lba.toNat + min (64 * t.issued.length) (buf.len / 512)
  | .calling chunkLen =>
    chunkLen = min (buf.len - t.done) maxTransferBytes ∧
      ∃ k, 32768 * k < buf.len ∧ t.done = 32768 * k ∧ t.curLba.toNat = lba.toNat + 64 * k ∧
        (t.ahci.calls p).Serves virtToPhys (t.ahci.tables p) (t.request buf write chunkLen) k
          t.issued.length
  | .returned (.ok _) => (t.ahci.calls p).isOver = true ∧ t.issued.length = pieceCount buf
  | .returned (.error _) => (t.ahci.calls p).isOver = true ∧ t.issued.length ≤ pieceCount buf

/-- The commands issued so far move the first pieces of the transfer, in order. -/
structure Transfer.Tiling (t : Transfer) : Prop where
  moves : ∀ (i : ℕ) (table : CommandTable), t.issued[i]? = some table →
    table.Moves virtToPhys write (piece lba.toNat buf i)
  stands : t.Stands virtToPhys p buf lba write t.pc

variable {virtToPhys p buf lba write} {t : Transfer}

theorem Transfer.Tiling.frame (h : t.Tiling virtToPhys p buf lba write) {s : Ahci}
    (hcalls : s.calls p = t.ahci.calls p) (htables : s.tables p = t.ahci.tables p) :
    ({ t with ahci := s } : Transfer).Tiling virtToPhys p buf lba write := by
  refine ⟨h.moves, ?_⟩
  have hstands := h.stands
  unfold Transfer.Stands at hstands ⊢
  rw [← hcalls, ← htables] at hstands
  exact hstands

theorem Transfer.Tiling.calling (h : t.Tiling virtToPhys p buf lba write)
    (hbusy : (t.ahci.calls p).isOver = false) : ∃ chunkLen, t.pc = .calling chunkLen := by
  have hstands := h.stands
  cases hpc : t.pc with
  | calling chunkLen => exact ⟨chunkLen, rfl⟩
  | looping =>
    rw [hpc] at hstands
    exact absurd (hstands.1.symm.trans hbusy) (by decide)
  | returned result =>
    rw [hpc] at hstands
    cases result with
    | ok _ => exact absurd (hstands.1.symm.trans hbusy) (by decide)
    | error e => exact absurd (hstands.1.symm.trans hbusy) (by decide)

theorem Transfer.Tiling.loop (h : t.Tiling virtToPhys p buf lba write) (hdvd : 512 ∣ buf.len)
    (hlba : lba.toNat + buf.len / 512 ≤ 2 ^ 48) :
    (t.loop p buf write).Tiling virtToPhys p buf lba write := by
  have hstands := h.stands
  unfold Transfer.loop
  cases hpc : t.pc with
  | looping =>
    rw [hpc] at hstands
    obtain ⟨hover, hissued, hdone, hcur⟩ := hstands
    dsimp only
    split_ifs with hmore
    · have hk : 32768 * t.issued.length < buf.len := by omega
      refine ⟨h.moves, rfl, t.issued.length, hk, ?_, ?_, Ahci.serves_goto ⟨rfl, rfl⟩⟩
      · show t.done = _
        omega
      · show t.curLba.toNat = _
        omega
    · refine ⟨h.moves, hover, ?_⟩
      show t.issued.length = _
      unfold pieceCount at hissued ⊢
      omega
  | calling chunkLen =>
    rw [hpc] at hstands
    obtain ⟨rfl, k, hk, hdone, hcur, hserves⟩ := hstands
    dsimp only
    split
    · rename_i hcall
      rw [hcall] at hserves
      have hissued : t.issued.length = k + 1 := hserves
      refine ⟨h.moves, by rw [hcall]; rfl, ?_, ?_, ?_⟩
      · show t.issued.length ≤ _
        unfold pieceCount
        omega
      · show t.done + min (buf.len - t.done) 32768 = min (32768 * t.issued.length) buf.len
        omega
      · show (t.curLba + (chunkSectors (min (buf.len - t.done) 32768)).setWidth 64).toNat =
          lba.toNat + min (64 * t.issued.length) (buf.len / 512)
        rw [hdone, hissued]
        exact toNat_add_chunkSectors hdvd hlba hk hcur
    · rename_i hcall
      rw [hcall] at hserves
      have hissued : t.issued.length = k ∨ t.issued.length = k + 1 := hserves
      refine ⟨h.moves, by rw [hcall]; rfl, ?_⟩
      show t.issued.length ≤ _
      unfold pieceCount
      omega
    · exact h
  | returned result => exact h

/-- An access of the call issues at most the command of the piece that the call is for. -/
theorem Transfer.Tiling.advance (h : t.Tiling virtToPhys p buf lba write) (hdvd : 512 ∣ buf.len)
    (hlba : lba.toNat + buf.len / 512 ≤ 2 ^ 48) (hbusy : (t.ahci.calls p).isOver = false) :
    ((transferSystem virtToPhys p buf write).next t (.ahci (.advance p))).Tiling virtToPhys p buf
      lba write := by
  obtain ⟨chunkLen, hpc⟩ := h.calling hbusy
  have hstands := h.stands
  rw [hpc] at hstands
  obtain ⟨rfl, k, hk, hdone, hcur, hserves⟩ := hstands
  constructor
  · intro i table hi
    rcases getElem?_append_toList hi with hi | ⟨rfl, hissues⟩
    · exact h.moves i table hi
    · obtain ⟨hissued, prdt, hbuild, rfl⟩ := hserves.issues hissues
      rw [hissued]
      exact Transfer.moves_request hdvd hlba hk hdone hcur hbuild
  · show Transfer.Stands _ _ _ _ _ _ t.pc
    rw [hpc]
    refine ⟨rfl, k, hk, hdone, hcur, ?_⟩
    have hadvance := Ahci.serves_advance hserves
    rwa [← List.length_append] at hadvance

theorem Transfer.Tiling.step (h : t.Tiling virtToPhys p buf lba write) (hdvd : 512 ∣ buf.len)
    (hlba : lba.toNat + buf.len / 512 ≤ 2 ^ 48) (e : TransferEvent)
    (he : (transferSystem virtToPhys p buf write).Enabled t e) :
    ((transferSystem virtToPhys p buf write).next t e).Tiling virtToPhys p buf lba write := by
  cases e with
  | loop => exact h.loop hdvd hlba
  | ahci e =>
    by_cases hquiet : e = .advance p → (t.ahci.calls p).isOver = true
    · obtain ⟨hcalls, htables, hissues⟩ := Ahci.frame virtToPhys he.2 hquiet
      show ({ t with
        ahci := (ahciSystem virtToPhys).next t.ahci e
        issued := t.issued ++ (e.issues t.ahci p).toList } : Transfer).Tiling virtToPhys p buf
          lba write
      rw [hissues, Option.toList_none, List.append_nil]
      exact h.frame hcalls htables
    · obtain ⟨rfl, hbusy⟩ := Classical.not_imp.mp hquiet
      exact h.advance hdvd hlba (Bool.eq_false_iff.mpr hbusy)

theorem tiling_rwSectors {ahci : Ahci} (hover : (ahci.calls p).isOver = true)
    (hpos : 0 < buf.len) (hdvd : 512 ∣ buf.len) :
    (rwSectors .sata ahci lba buf).Tiling virtToPhys p buf lba write := by
  have hpc : (rwSectors .sata ahci lba buf).pc = .looping := by
    simp [rwSectors, sectorSize, hpos.ne', Nat.mod_eq_zero_of_dvd hdvd]
  refine ⟨fun i table hi => absurd hi (by simp [rwSectors]), ?_⟩
  rw [hpc]
  exact ⟨hover, Nat.zero_le _, by simp [rwSectors], by simp [rwSectors]⟩

theorem Transfer.Tiling.forall₂ (h : t.Tiling virtToPhys p buf lba write)
    (hle : t.issued.length ≤ pieceCount buf) :
    List.Forall₂ (CommandTable.Moves virtToPhys write) t.issued
      ((pieces lba.toNat buf).take t.issued.length) := by
  rw [List.forall₂_iff_get]
  constructor
  · simpa [pieces] using hle
  · intro i hi _
    have hmoves := h.moves i _ (List.getElem?_eq_getElem hi)
    simpa [pieces] using hmoves

theorem Transfer.Tiling.length_le (h : t.Tiling virtToPhys p buf lba write) :
    t.issued.length ≤ pieceCount buf := by
  have hstands := h.stands
  cases hpc : t.pc with
  | looping =>
    rw [hpc] at hstands
    exact hstands.2.1
  | calling chunkLen =>
    rw [hpc] at hstands
    obtain ⟨-, k, hk, -, -, hserves⟩ := hstands
    have hcount : t.issued.length ≤ k + 1 := hserves.le
    unfold pieceCount
    omega
  | returned result =>
    rw [hpc] at hstands
    cases result with
    | ok _ => exact hstands.2.le
    | error e => exact hstands.2

end Runs

def servedChunk : List TransferEvent :=
  .loop :: List.replicate 7 (.ahci (.advance 0)) ++ .ahci (.complete 0 0) ::
    List.replicate 5 (.ahci (.advance 0)) ++ [.loop]

end MitosOS.Drivers
