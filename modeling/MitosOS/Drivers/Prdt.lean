import MitosOS.Drivers.Ahci

/-! What a PRDT describes: the pieces of memory that the device transfers, in order. The entries of
`build_prdt` cut the buffer at its page boundaries. -/
namespace MitosOS.Drivers
open MitosOS.Lib

namespace HbaPrdtEntry

def address (e : HbaPrdtEntry) : BitVec 64 := e.dbau ++ e.dba

/-- The length of the piece. The count in `dbc` has 22 bits and is one less. -/
def bytes (e : HbaPrdtEntry) : ℕ := (e.dbc &&& 0x003FFFFF#32).toNat + 1

end HbaPrdtEntry

/-- The entries describe the buffer from `offset` to its end: consecutive pieces, each at the
translated address of its first byte and within one page. -/
def Partitions (phys : ℕ → BitVec 64) (buf : Buffer) : ℕ → List HbaPrdtEntry → Prop
  | offset, [] => offset = buf.len
  | offset, e :: entries =>
    e.address = phys (wrap64 (buf.addr + offset)) ∧
      (buf.addr + offset) % 4096 + e.bytes ≤ 4096 ∧
      Partitions phys buf (offset + e.bytes) entries

section Pieces
variable {phys : ℕ → BitVec 64} {virtToPhys : ℕ → Option ℕ} {buf : Buffer} {offset : ℕ}

theorem address_prdtEntry (p chunk : ℕ) : (prdtEntry p chunk).address = BitVec.ofNat 64 p := by
  apply BitVec.eq_of_toNat_eq
  simp only [HbaPrdtEntry.address, prdtEntry, BitVec.toNat_append, BitVec.toNat_ofNat]
  rw [← Nat.shiftLeft_add_eq_or_of_lt (Nat.mod_lt _ (by decide)), Nat.shiftLeft_eq]
  omega

theorem bytes_prdtEntry (p : ℕ) {chunk : ℕ} (hpos : 0 < chunk) (hle : chunk ≤ 4096) :
    (prdtEntry p chunk).bytes = chunk := by
  have hcount : BitVec.ofNat 32 (chunk - 1) &&& 0x003FFFFF#32 = BitVec.ofNat 32 (chunk - 1) := by
    apply BitVec.eq_of_toNat_eq
    rw [BitVec.toNat_and, BitVec.toNat_ofNat, show (0x003FFFFF#32).toNat = 2 ^ 22 - 1 from rfl,
      Nat.and_two_pow_sub_one_eq_mod]
    omega
  -- the interrupt bit lies above the count
  have hflag : 1#32 <<< 31 &&& 0x003FFFFF#32 = 0#32 := by decide
  rw [HbaPrdtEntry.bytes, prdtEntry, hcount, BitVec.and_or_distrib_right, hcount, hflag,
    BitVec.or_zero, BitVec.toNat_ofNat]
  omega

theorem Partitions.sum_bytes {entries : List HbaPrdtEntry} (h : Partitions phys buf offset entries) :
    offset + (entries.map HbaPrdtEntry.bytes).sum = buf.len := by
  induction entries generalizing offset with
  | nil => exact h
  | cons e entries ih =>
    rw [List.map_cons, List.sum_cons, ← Nat.add_assoc]
    exact ih h.2.2

theorem wrap64_mod_page (a : ℕ) : wrap64 a % 4096 = a % 4096 := Nat.mod_mod_of_dvd a (by decide)

/-- What the loop returns describes the rest of the buffer, for a device that finds each address
where the `Hal` translates it. -/
theorem partitions_of_buildPrdtFrom {n : ℕ} {entries : List HbaPrdtEntry}
    (hphys : ∀ virt a, virtToPhys virt = some a → phys virt = BitVec.ofNat 64 a)
    (hle : offset ≤ buf.len) (h : buildPrdtFrom virtToPhys buf n offset = .ok entries) :
    entries.length ≤ n ∧ Partitions phys buf offset entries := by
  induction n generalizing offset entries with
  | zero =>
    rw [buildPrdtFrom] at h
    split_ifs at h with hlt
    obtain rfl : [] = entries := Except.ok.inj h
    exact ⟨le_rfl, by unfold Partitions; omega⟩
  | succ n ih =>
    rw [buildPrdtFrom] at h
    split_ifs at h with hlt
    swap
    · obtain rfl : [] = entries := Except.ok.inj h
      exact ⟨Nat.zero_le _, by unfold Partitions; omega⟩
    dsimp only at h
    rw [wrap64_mod_page] at h
    have hpage := Nat.mod_lt (buf.addr + offset) (show 0 < 4096 by decide)
    obtain ⟨chunk, hchunk⟩ : ∃ chunk, chunk = min (4096 - (buf.addr + offset) % 4096)
      (buf.len - offset) := ⟨_, rfl⟩
    rw [← hchunk] at h
    cases htranslate : virtToPhys (wrap64 (buf.addr + offset)) with
    | none => simp [htranslate] at h
    | some a =>
      cases hrest : buildPrdtFrom virtToPhys buf n (offset + chunk) with
      | error e => simp [htranslate, hrest] at h
      | ok rest =>
        obtain rfl : prdtEntry a chunk :: rest = entries := by
          simpa [htranslate, hrest] using h
        obtain ⟨hlength, hpartitions⟩ := ih (by omega) hrest
        have hbytes := bytes_prdtEntry a (show 0 < chunk by omega) (by omega)
        refine ⟨Nat.succ_le_succ hlength, ?_, ?_, ?_⟩
        · rw [address_prdtEntry, hphys _ a htranslate]
        · rw [hbytes]
          omega
        · rwa [hbytes]

theorem partitions_of_buildPrdt {entries : List HbaPrdtEntry}
    (hphys : ∀ virt a, virtToPhys virt = some a → phys virt = BitVec.ofNat 64 a)
    (h : buildPrdt virtToPhys buf = .ok entries) :
    entries.length ≤ prdtEntries ∧ Partitions phys buf 0 entries := by
  rw [buildPrdt] at h
  split_ifs at h with hempty
  · obtain rfl : [] = entries := Except.ok.inj h
    exact ⟨Nat.zero_le _, hempty.symm⟩
  · exact partitions_of_buildPrdtFrom hphys (Nat.zero_le _) h

theorem length_buildPrdt_le {entries : List HbaPrdtEntry}
    (h : buildPrdt virtToPhys buf = .ok entries) : entries.length ≤ prdtEntries := by
  have hphys : ∀ virt a, virtToPhys virt = some a →
      BitVec.ofNat 64 ((virtToPhys virt).getD 0) = BitVec.ofNat 64 a := by
    intro virt a hvirt
    rw [hvirt, Option.getD_some]
  exact (partitions_of_buildPrdt hphys h).1

theorem exists_buildPrdtFrom (phys : ℕ → ℕ) {n : ℕ}
    (hroom : offset < buf.len → (buf.addr + offset) % 4096 + (buf.len - offset) ≤ 4096 * n) :
    ∃ entries, buildPrdtFrom (fun virt => some (phys virt)) buf n offset = .ok entries := by
  induction n generalizing offset with
  | zero =>
    have hend : ¬ offset < buf.len := fun hlt => by
      have := hroom hlt
      omega
    exact ⟨[], if_neg hend⟩
  | succ n ih =>
    by_cases hlt : offset < buf.len
    swap
    · exact ⟨[], if_neg hlt⟩
    have hroom := hroom hlt
    have hpage := Nat.mod_lt (buf.addr + offset) (show 0 < 4096 by decide)
    obtain ⟨chunk, hchunk⟩ : ∃ chunk, chunk = min (4096 - (buf.addr + offset) % 4096)
      (buf.len - offset) := ⟨_, rfl⟩
    obtain ⟨entries, hbuild⟩ := @ih (offset + chunk) (by
      -- the piece did not reach the end of the buffer, so it reached the end of the page
      intro hmore
      omega)
    refine ⟨prdtEntry (phys (wrap64 (buf.addr + offset))) chunk :: entries, ?_⟩
    rw [buildPrdtFrom, if_pos hlt]
    dsimp only
    rw [wrap64_mod_page, ← hchunk, hbuild]

end Pieces

/-- A PRDT covers the buffer exactly, and nine entries are always enough. -/
theorem buildPrdt_partitions (phys : ℕ → BitVec 64) (buf : Buffer) (hpos : 1 ≤ buf.len)
    (hlen : buf.len ≤ maxTransferBytes) :
    ∃ entries, buildPrdt (fun virt => some (phys virt).toNat) buf = .ok entries ∧
      1 ≤ entries.length ∧ entries.length ≤ prdtEntries ∧
      Partitions phys buf 0 entries ∧ (entries.map HbaPrdtEntry.bytes).sum = buf.len := by
  have hmax : buf.len ≤ 8 * 4096 := hlen
  have hpage := Nat.mod_lt (buf.addr + 0) (show 0 < 4096 by decide)
  have hroom : 0 < buf.len → (buf.addr + 0) % 4096 + (buf.len - 0) ≤ 4096 * prdtEntries := by
    intro _
    unfold prdtEntries
    omega
  obtain ⟨entries, hloop⟩ := exists_buildPrdtFrom (fun virt => (phys virt).toNat) hroom
  have hbuild : buildPrdt (fun virt => some (phys virt).toNat) buf = .ok entries := by
    rw [buildPrdt, if_neg (by omega), if_neg (Nat.not_lt.mpr hlen), hloop]
  have hphys : ∀ virt a, some (phys virt).toNat = some a → phys virt = BitVec.ofNat 64 a := by
    intro virt a h
    rw [← Option.some.inj h, BitVec.ofNat_toNat, BitVec.setWidth_eq]
  obtain ⟨hlength, hpartitions⟩ := partitions_of_buildPrdt hphys hbuild
  refine ⟨entries, hbuild, ?_, hlength, hpartitions, ?_⟩
  · cases entries with
    | nil =>
      have hempty : 0 = buf.len := hpartitions
      omega
    | cons e entries => exact Nat.succ_le_succ (Nat.zero_le _)
  · have hsum := hpartitions.sum_bytes
    omega

/-- A sector that starts 256 bytes before the end of a page. -/
theorem buildPrdt_partitions_split :
    1 ≤ (⟨0x1F00, 512⟩ : Buffer).len ∧ (⟨0x1F00, 512⟩ : Buffer).len ≤ maxTransferBytes ∧
      ∃ entries, buildPrdt (fun virt => some (BitVec.ofNat 64 virt).toNat) ⟨0x1F00, 512⟩ =
          .ok entries ∧
        Partitions (BitVec.ofNat 64) ⟨0x1F00, 512⟩ 0 entries ∧
        (entries.map HbaPrdtEntry.bytes).sum = 512 := by
  have hpos : 1 ≤ (⟨0x1F00, 512⟩ : Buffer).len := by decide
  have hlen : (⟨0x1F00, 512⟩ : Buffer).len ≤ maxTransferBytes := by decide
  obtain ⟨entries, hbuild, -, -, hpartitions, hsum⟩ :=
    buildPrdt_partitions (BitVec.ofNat 64) ⟨0x1F00, 512⟩ hpos hlen
  exact ⟨hpos, hlen, entries, hbuild, hpartitions, hsum⟩

end MitosOS.Drivers
