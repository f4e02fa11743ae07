import Studix.Base.Memory
import Studix.Misc.Panic

/-!
# The parallel ATA driver

`read_abs_sectors` of `src/devices/pata.c`, and the functions it calls. The driver and the drives
meet at the ports of a bus: the driver writes an address to four registers, split into three bytes
and four bits, issues a command and then reads the sectors word by word from the data port, after it
has waited for each sector until the drive is not busy.

The drives are not part of the kernel. They are what is behind the ports, and `Ata` says what the
driver relies on.

## Main definitions

* `Ports`: what is behind the ports.
* `readStat`, `poll`, `readAbsSectors`: the driver.
* `Ata`: drives that behave as ATA drives.

## Main results

* `poll_spec`: waiting ends, and loses nothing.
* `sendCommand_spec`: the address that the drives take from the registers.
* `readAbsSectors_delivers`: what a read delivers.
-/

namespace Studix.Pata

/-- A word of the data port. -/
abbrev Word := BitVec 16

/-- What is behind the ports: the state after a write to a port, and what a read of a port
returns. -/
structure Ports (σ : Type) where
  outb : σ → ℕ → Byte → σ
  inb : σ → ℕ → Byte × σ
  inw : σ → ℕ → Word × σ

/-! ### Constants -/

/-- `LBA_BITS`. -/
def lbaBits : ℕ := 28

/-- `SECTOR_SIZE`. -/
def sectorSize : ℕ := 512

namespace Port

/-- `DATA`. -/
def data : ℕ := 0

/-- `SECTOR_COUNT`. -/
def sectorCount : ℕ := 2

/-- `LBA_LOW`. -/
def lbaLow : ℕ := 3

/-- `LBA_MID`. -/
def lbaMid : ℕ := 4

/-- `LBA_HIGH`. -/
def lbaHigh : ℕ := 5

/-- `DRIVE_SELECT`. -/
def driveSelect : ℕ := 6

/-- `COM_STAT`. -/
def comStat : ℕ := 7

end Port

/-- `SEL_MASTER`. -/
def selMaster : Byte := 0xA0

/-- `SEL_SLAVE`. -/
def selSlave : Byte := 0xB0

/-- `READ_SECTORS`. -/
def readSectors : Byte := 0x20

/-- `BSY`. -/
def bsy : Byte := 1 <<< 7

/-- `sel_base_port` and `sel_master_or_slave`. -/
structure Selection where
  basePort : ℕ
  masterOrSlave : Byte

/-! ### The driver -/

section

variable {σ : Type} (io : Ports σ)

/-- `read_stat`: the first four values are discarded. -/
def readStat (base : ℕ) (s : σ) : Byte × σ :=
  let s := (io.inb s (base + Port.comStat)).2
  let s := (io.inb s (base + Port.comStat)).2
  let s := (io.inb s (base + Port.comStat)).2
  let s := (io.inb s (base + Port.comStat)).2
  io.inb s (base + Port.comStat)

/-- `poll`. -/
def poll (base : ℕ) : ℕ → σ → Except Stop σ
  | 0, _ => .error .unfinished
  | fuel + 1, s =>
    let (stat, s) := readStat io base s
    if stat &&& bsy ≠ 0 then poll base fuel s else .ok s

/-- `rep insw` of `n` words from a port to the elements of the buffer from `i` on. -/
def repInsw (port : ℕ) : ℕ → ℕ → (ℕ → Word) → σ → (ℕ → Word) × σ
  | 0, _, buf, s => (buf, s)
  | n + 1, i, buf, s =>
    let (w, s) := io.inw s port
    repInsw port n (i + 1) (Function.update buf i w) s

/-- The loop of `read_abs_sectors`, with `n` sectors to go. -/
def sectorLoop (base fuel : ℕ) : ℕ → ℕ → (ℕ → Word) → σ → Except Stop ((ℕ → Word) × σ)
  | 0, _, buf, s => .ok (buf, s)
  | n + 1, i, buf, s => do
    let s ← poll io base fuel s
    let (buf, s) := repInsw io (base + Port.data) (sectorSize / 2) i buf s
    sectorLoop base fuel n (i + sectorSize / 2) buf s

/-- The byte for the drive-select register. -/
def driveByte (masterOrSlave : Byte) (lba : ℕ) : Byte :=
  BitVec.ofNat 8 (lba >>> (lbaBits - 4) ||| masterOrSlave.toNat ||| 1 <<< 6)

/-- The writes of `read_abs_sectors`. -/
def sendCommand (sel : Selection) (lba : ℕ) (sectorCount : Byte) (s : σ) : σ :=
  let s := io.outb s (sel.basePort + Port.driveSelect) (driveByte sel.masterOrSlave lba)
  let s := io.outb s (sel.basePort + Port.sectorCount) sectorCount
  let s := io.outb s (sel.basePort + Port.lbaLow) (BitVec.ofNat 8 (lba &&& 0xFF))
  let s := io.outb s (sel.basePort + Port.lbaMid) (BitVec.ofNat 8 (lba >>> 8 &&& 0xFF))
  let s := io.outb s (sel.basePort + Port.lbaHigh) (BitVec.ofNat 8 (lba >>> 16 &&& 0xFF))
  io.outb s (sel.basePort + Port.comStat) readSectors

/-- `read_abs_sectors`. -/
def readAbsSectors (sel : Selection) (fuel lba : ℕ) (sectorCount : Byte) (buf : ℕ → Word) (s : σ) :
    Except Stop ((ℕ → Word) × σ) := do
  assert (lba >>> lbaBits == 0) "lba >> LBA_BITS == 0"
  sectorLoop io sel.basePort fuel sectorCount.toNat 0 buf (sendCommand io sel lba sectorCount s)

end

/-! ### The drives -/

/-- The sector address in the registers: four bits of the drive-select register and three bytes. -/
def lbaOf (reg : ℕ → Byte) : ℕ :=
  (reg Port.driveSelect).toNat % 16 * 2 ^ 24 + (reg Port.lbaHigh).toNat * 2 ^ 16 +
    (reg Port.lbaMid).toNat * 2 ^ 8 + (reg Port.lbaLow).toNat

/-- Whether the registers select the slave. -/
def slaveOf (reg : ℕ → Byte) : Bool := (reg Port.driveSelect).getLsbD 4

/-- The number of sectors in the registers; 0 stands for 256. -/
def countOf (reg : ℕ → Byte) : ℕ :=
  if reg Port.sectorCount = 0 then 256 else (reg Port.sectorCount).toNat

/-- The words of consecutive sectors. -/
def sectorWords (disk : ℕ → ℕ → Word) (lba count : ℕ) : List Word :=
  (List.range (count * 256)).map fun i => disk (lba + i / 256) (i % 256)

/-- **Drives that behave as ATA drives** behind the ports at `base`. They keep the registers that
are written; on the command, with bit 6 of the drive-select register set, they take the address, the
drive and the count from the registers and then supply the words of the sectors through the data
port. They may be busy before each sector, for a number of reads of the status. -/
structure Ata {σ : Type} (io : Ports σ) (base : ℕ) (disk : Bool → ℕ → ℕ → Word) where
  reg : σ → ℕ → Byte
  words : σ → List Word
  /-- The number of reads of the status until the drive is not busy. -/
  busy : σ → ℕ
  reg_outb : ∀ s p v, Port.sectorCount ≤ p → p ≤ Port.driveSelect →
    reg (io.outb s (base + p) v) = Function.update (reg s) p v
  words_command : ∀ s, (reg s Port.driveSelect).getLsbD 6 = true →
    words (io.outb s (base + Port.comStat) readSectors) =
      sectorWords (disk (slaveOf (reg s))) (lbaOf (reg s)) (countOf (reg s))
  select_command : ∀ s,
    slaveOf (reg (io.outb s (base + Port.comStat) readSectors)) = slaveOf (reg s)
  status_inb : ∀ s, (io.inb s (base + Port.comStat)).1.getLsbD 7 = decide (0 < busy s)
  busy_inb : ∀ s, busy (io.inb s (base + Port.comStat)).2 = busy s - 1
  words_inb : ∀ s, words (io.inb s (base + Port.comStat)).2 = words s
  select_inb : ∀ s, slaveOf (reg (io.inb s (base + Port.comStat)).2) = slaveOf (reg s)
  word_inw : ∀ s w ws, busy s = 0 → words s = w :: ws → (io.inw s (base + Port.data)).1 = w
  words_inw : ∀ s w ws, busy s = 0 → words s = w :: ws → words (io.inw s (base + Port.data)).2 = ws
  busy_inw : ∀ s w ws, busy s = 0 → words s = w :: ws → ¬256 ∣ ws.length →
    busy (io.inw s (base + Port.data)).2 = 0
  select_inw : ∀ s, slaveOf (reg (io.inw s (base + Port.data)).2) = slaveOf (reg s)

/-! ### The command -/

/-- The byte for the drive-select register: the four high bits of the address, the drive, and the
bit that says that the registers hold a sector address. -/
theorem driveByte_spec {masterOrSlave : Byte} {lba : ℕ} (hlba : lba < 2 ^ 28)
    (hsel : masterOrSlave = selMaster ∨ masterOrSlave = selSlave) :
    (driveByte masterOrSlave lba).toNat % 16 = lba / 2 ^ 24 ∧
      (driveByte masterOrSlave lba).getLsbD 4 = decide (masterOrSlave = selSlave) ∧
      (driveByte masterOrSlave lba).getLsbD 6 = true := by
  have hhigh : lba >>> (lbaBits - 4) = lba / 2 ^ 24 := Nat.shiftRight_eq_div_pow lba 24
  have hlt : lba / 2 ^ 24 < 16 := by omega
  rw [driveByte, hhigh]
  generalize lba / 2 ^ 24 = high at hlt
  revert high
  rcases hsel with rfl | rfl <;> decide

/-- A byte of the address. -/
theorem toNat_addressByte (n : ℕ) : (BitVec.ofNat 8 (n &&& 0xFF)).toNat = n % 2 ^ 8 := by
  have hmask : n &&& 0xFF = n % 2 ^ 8 := Nat.and_two_pow_sub_one_eq_mod n 8
  rw [hmask, BitVec.toNat_ofNat, Nat.mod_mod]

variable {σ : Type} {io : Ports σ} {sel : Selection} {base fuel i lba n : ℕ} {sectorCount : Byte}
  {disk : Bool → ℕ → ℕ → Word} {s : σ} {ws rest : List Word}

/-- The registers `reg` after the writes of the driver. -/
def writtenRegs (sel : Selection) (lba : ℕ) (sectorCount : Byte) (reg : ℕ → Byte) : ℕ → Byte :=
  let reg := Function.update reg Port.driveSelect (driveByte sel.masterOrSlave lba)
  let reg := Function.update reg Port.sectorCount sectorCount
  let reg := Function.update reg Port.lbaLow (BitVec.ofNat 8 (lba &&& 0xFF))
  let reg := Function.update reg Port.lbaMid (BitVec.ofNat 8 (lba >>> 8 &&& 0xFF))
  Function.update reg Port.lbaHigh (BitVec.ofNat 8 (lba >>> 16 &&& 0xFF))

theorem driveSelect_writtenRegs (sel : Selection) (lba : ℕ) (sectorCount : Byte) (reg : ℕ → Byte) :
    writtenRegs sel lba sectorCount reg Port.driveSelect = driveByte sel.masterOrSlave lba := rfl

/-- The drives put the address together as the driver split it. -/
theorem lbaOf_writtenRegs (hlba : lba < 2 ^ 28)
    (hsel : sel.masterOrSlave = selMaster ∨ sel.masterOrSlave = selSlave) (sectorCount : Byte)
    (reg : ℕ → Byte) : lbaOf (writtenRegs sel lba sectorCount reg) = lba := by
  have hlow : writtenRegs sel lba sectorCount reg Port.lbaLow = BitVec.ofNat 8 (lba &&& 0xFF) := rfl
  have hmid : writtenRegs sel lba sectorCount reg Port.lbaMid =
    BitVec.ofNat 8 (lba >>> 8 &&& 0xFF) := rfl
  have hhigh : writtenRegs sel lba sectorCount reg Port.lbaHigh =
    BitVec.ofNat 8 (lba >>> 16 &&& 0xFF) := rfl
  rw [lbaOf, driveSelect_writtenRegs, (driveByte_spec hlba hsel).1, hlow, hmid, hhigh,
    toNat_addressByte, toNat_addressByte, toNat_addressByte, Nat.shiftRight_eq_div_pow,
    Nat.shiftRight_eq_div_pow]
  omega

theorem slaveOf_writtenRegs (hlba : lba < 2 ^ 28)
    (hsel : sel.masterOrSlave = selMaster ∨ sel.masterOrSlave = selSlave) (sectorCount : Byte)
    (reg : ℕ → Byte) :
    slaveOf (writtenRegs sel lba sectorCount reg) = decide (sel.masterOrSlave = selSlave) := by
  rw [slaveOf, driveSelect_writtenRegs, (driveByte_spec hlba hsel).2.1]

theorem countOf_writtenRegs (hcount : 0 < sectorCount.toNat) (sel : Selection) (lba : ℕ)
    (reg : ℕ → Byte) : countOf (writtenRegs sel lba sectorCount reg) = sectorCount.toNat := by
  have hreg : writtenRegs sel lba sectorCount reg Port.sectorCount = sectorCount := rfl
  rw [countOf, hreg, if_neg fun hzero => ?_]
  rw [hzero] at hcount
  exact absurd hcount (by decide)

/-- **The drives take the address from the registers** as the driver split it, with the drive and
the count, and supply the sectors. -/
theorem sendCommand_spec (ata : Ata io sel.basePort disk) (hlba : lba < 2 ^ 28)
    (hsel : sel.masterOrSlave = selMaster ∨ sel.masterOrSlave = selSlave)
    (hcount : 0 < sectorCount.toNat) (s : σ) :
    ata.words (sendCommand io sel lba sectorCount s) =
        sectorWords (disk (decide (sel.masterOrSlave = selSlave))) lba sectorCount.toNat ∧
      slaveOf (ata.reg (sendCommand io sel lba sectorCount s)) =
        decide (sel.masterOrSlave = selSlave) := by
  -- The state in which the command is issued.
  obtain ⟨s', hsend, hreg⟩ : ∃ s', sendCommand io sel lba sectorCount s =
      io.outb s' (sel.basePort + Port.comStat) readSectors ∧
      ata.reg s' = writtenRegs sel lba sectorCount (ata.reg s) := by
    refine ⟨_, rfl, ?_⟩
    rw [ata.reg_outb _ _ _ (by decide) (by decide), ata.reg_outb _ _ _ (by decide) (by decide),
      ata.reg_outb _ _ _ (by decide) (by decide), ata.reg_outb _ _ _ (by decide) (by decide),
      ata.reg_outb _ _ _ (by decide) (by decide)]
    rfl
  have hmode : (ata.reg s' Port.driveSelect).getLsbD 6 = true := by
    rw [hreg, driveSelect_writtenRegs, (driveByte_spec hlba hsel).2.2]
  rw [hsend, ata.words_command s' hmode, ata.select_command, hreg, lbaOf_writtenRegs hlba hsel,
    slaveOf_writtenRegs hlba hsel, countOf_writtenRegs hcount]
  exact ⟨rfl, rfl⟩

/-! ### Waiting -/

/-- A step of the driver that leaves the selected drive and the words to come alone. -/
def Waits (ata : Ata io base disk) (s s' : σ) : Prop :=
  ata.words s' = ata.words s ∧ slaveOf (ata.reg s') = slaveOf (ata.reg s)

theorem Waits.trans {ata : Ata io base disk} {s s' s'' : σ} (h : Waits ata s s')
    (h' : Waits ata s' s'') : Waits ata s s'' :=
  ⟨h'.1.trans h.1, h'.2.trans h.2⟩

theorem waits_inb (ata : Ata io base disk) (s : σ) :
    Waits ata s (io.inb s (base + Port.comStat)).2 :=
  ⟨ata.words_inb s, ata.select_inb s⟩

/-- The fifth value of the status is returned. -/
theorem readStat_spec (ata : Ata io base disk) (s : σ) :
    ((readStat io base s).1.getLsbD 7 = decide (4 < ata.busy s)) ∧
      ata.busy (readStat io base s).2 = ata.busy s - 5 ∧ Waits ata s (readStat io base s).2 := by
  simp only [readStat]
  refine ⟨?_, ?_, ?_⟩
  · rw [ata.status_inb, ata.busy_inb, ata.busy_inb, ata.busy_inb, ata.busy_inb]
    exact decide_eq_decide.mpr (by omega)
  · rw [ata.busy_inb, ata.busy_inb, ata.busy_inb, ata.busy_inb, ata.busy_inb]
    omega
  · exact (waits_inb ata _).trans ((waits_inb ata _).trans ((waits_inb ata _).trans
      ((waits_inb ata _).trans (waits_inb ata _))))

theorem and_bsy_ne_zero_iff (stat : Byte) : stat &&& bsy ≠ 0 ↔ stat.getLsbD 7 = true := by
  revert stat
  decide

/-- **Waiting ends**, as soon as the drive is not busy, and loses nothing. -/
theorem poll_spec (ata : Ata io base disk) (s : σ) : ∃ s', (∀ fuel, ata.busy s < fuel →
    poll io base fuel s = .ok s') ∧ ata.busy s' = 0 ∧ Waits ata s s' := by
  induction hbusy : ata.busy s using Nat.strong_induction_on generalizing s with
  | _ b ih =>
    obtain ⟨hstat, hafter, hwaits⟩ := readStat_spec ata s
    rcases Nat.lt_or_ge 4 b with hlt | hle
    · obtain ⟨s', hpoll, hready, hwaits'⟩ := ih (b - 5) (by omega) (readStat io base s).2
        (hafter.trans (by rw [hbusy]))
      refine ⟨s', fun fuel hfuel => ?_, hready, hwaits.trans hwaits'⟩
      obtain ⟨fuel, rfl⟩ : ∃ n, fuel = n + 1 := ⟨fuel - 1, by omega⟩
      have hset : (readStat io base s).1 &&& bsy ≠ 0 :=
        (and_bsy_ne_zero_iff _).mpr (hstat.trans (decide_eq_true (hbusy ▸ hlt)))
      rw [poll]
      simp only [if_pos hset]
      exact hpoll fuel (by omega)
    · refine ⟨(readStat io base s).2, fun fuel hfuel => ?_, by omega, hwaits⟩
      obtain ⟨fuel, rfl⟩ : ∃ n, fuel = n + 1 := ⟨fuel - 1, by omega⟩
      have hclear : ¬(readStat io base s).1 &&& bsy ≠ 0 := by
        rw [and_bsy_ne_zero_iff, hstat, hbusy]
        exact fun h => absurd (of_decide_eq_true h) (by omega)
      rw [poll]
      simp only [if_neg hclear]

/-! ### The transfer -/

/-- The words of the first sector, and those of the sectors behind it. -/
theorem sectorWords_succ (d : ℕ → ℕ → Word) (lba n : ℕ) :
    sectorWords d lba (n + 1) = (List.range 256).map (d lba) ++ sectorWords d (lba + 1) n := by
  have hfirst : (List.range 256).map (fun i => d (lba + i / 256) (i % 256)) =
      (List.range 256).map (d lba) := by
    refine List.map_congr_left fun i hi => ?_
    have hi := List.mem_range.mp hi
    rw [Nat.div_eq_of_lt hi, Nat.mod_eq_of_lt hi, Nat.add_zero]
  have hrest : (List.range (n * 256)).map (fun i => d (lba + (256 + i) / 256) ((256 + i) % 256)) =
      sectorWords d (lba + 1) n := by
    refine List.map_congr_left fun i _ => ?_
    rw [Nat.add_div_left i (by decide), Nat.add_mod_left, Nat.add_assoc lba 1, Nat.add_comm 1]
  rw [sectorWords, Nat.succ_mul, Nat.add_comm, List.range_add, List.map_append,
    List.map_map, hfirst, ← hrest]
  rfl

theorem dvd_length_sectorWords (d : ℕ → ℕ → Word) (lba n : ℕ) :
    256 ∣ (sectorWords d lba n).length := by
  rw [sectorWords, List.length_map, List.length_range]
  exact Nat.dvd_mul_left 256 n

/-- **A transfer of words that belong to one sector.** -/
theorem repInsw_spec (ata : Ata io base disk) (buf : ℕ → Word) (hready : ws ≠ [] → ata.busy s = 0)
    (hwords : ata.words s = ws ++ rest) (hsector : ws.length ≤ 256) (hrest : 256 ∣ rest.length) :
    (∀ j, (repInsw io (base + Port.data) ws.length i buf s).1 j =
        if i ≤ j ∧ j < i + ws.length then ws.getD (j - i) 0 else buf j) ∧
      ata.words (repInsw io (base + Port.data) ws.length i buf s).2 = rest ∧
      slaveOf (ata.reg (repInsw io (base + Port.data) ws.length i buf s).2) =
        slaveOf (ata.reg s) := by
  induction ws generalizing i buf s with
  | nil => exact ⟨fun j => (if_neg (by simp)).symm, hwords, rfl⟩
  | cons w ws ih =>
    have hbusy := hready (List.cons_ne_nil w ws)
    have hlen : (w :: ws).length = ws.length + 1 := rfl
    rw [hlen] at hsector ⊢
    simp only [repInsw]
    rw [ata.word_inw s w (ws ++ rest) hbusy hwords]
    have hready' : ws ≠ [] → ata.busy (io.inw s (base + Port.data)).2 = 0 := by
      intro hne
      have hpos := List.length_pos_iff.mpr hne
      refine ata.busy_inw s w (ws ++ rest) hbusy hwords ?_
      rw [List.length_append, Nat.dvd_add_left hrest]
      exact Nat.not_dvd_of_pos_of_lt hpos (by omega)
    obtain ⟨hbuf, hleft, hselect⟩ := ih (i := i + 1) (Function.update buf i w) hready'
      (ata.words_inw s w (ws ++ rest) hbusy hwords) (by omega)
    refine ⟨fun j => ?_, hleft, hselect.trans (ata.select_inw s)⟩
    rw [hbuf j]
    rcases lt_trichotomy j i with hlt | rfl | hgt
    · rw [if_neg (by omega), if_neg (by omega), Function.update_of_ne hlt.ne]
    · rw [if_neg (by omega), if_pos (by omega), Function.update_self, Nat.sub_self,
        List.getD_cons_zero]
    · rw [Function.update_of_ne hgt.ne', show j - i = j - (i + 1) + 1 by omega, List.getD_cons_succ]
      exact if_congr (by omega) rfl rfl

/-- **The loop over the sectors** delivers all of them, one behind the other. -/
theorem sectorLoop_spec (ata : Ata io base disk) (d : ℕ → ℕ → Word) (n i lba : ℕ) (buf : ℕ → Word)
    (hwords : ata.words s = sectorWords d lba n) :
    ∃ bound buf' s', (∀ fuel, bound ≤ fuel → sectorLoop io base fuel n i buf s = .ok (buf', s')) ∧
      (∀ j, buf' j = if i ≤ j ∧ j < i + n * 256 then d (lba + (j - i) / 256) ((j - i) % 256)
        else buf j) ∧
      slaveOf (ata.reg s') = slaveOf (ata.reg s) := by
  induction n generalizing i lba buf s with
  | zero => exact ⟨0, buf, s, fun _ _ => rfl, fun j => (if_neg (by omega)).symm, rfl⟩
  | succ n ih =>
    obtain ⟨s₁, hpoll, hready, hwords₁, hselect₁⟩ := poll_spec ata s
    rw [hwords, sectorWords_succ] at hwords₁
    have hlen : ((List.range 256).map (d lba)).length = sectorSize / 2 := by simp [sectorSize]
    obtain ⟨hbuf, hleft, hselect₂⟩ := repInsw_spec (i := i) ata buf (fun _ => hready) hwords₁
      (by rw [hlen]; decide) (dvd_length_sectorWords d (lba + 1) n)
    rw [hlen] at hbuf hleft hselect₂
    set r := repInsw io (base + Port.data) (sectorSize / 2) i buf s₁ with hr
    obtain ⟨bound, buf', s', hloop, hbuf', hselect⟩ := ih (i + sectorSize / 2) (lba + 1) r.1 hleft
    refine ⟨max bound (ata.busy s + 1), buf', s', fun fuel hfuel => ?_, fun j => ?_,
      hselect.trans (hselect₂.trans hselect₁)⟩
    · rw [sectorLoop, hpoll fuel (by omega), except_ok_bind]
      exact hloop fuel (by omega)
    · have hsize : sectorSize / 2 = 256 := rfl
      rw [hsize] at hbuf hbuf'
      rw [hbuf' j, hbuf j]
      rcases Nat.lt_or_ge j (i + 256) with hlt | hge
      · rw [if_neg (by omega)]
        refine ite_congr (propext (by omega)) (fun hj => ?_) fun _ => rfl
        have hoffset : j - i < 256 := by omega
        rw [List.getD_eq_getElem _ _ (by simpa using hoffset), List.getElem_map, List.getElem_range,
          Nat.div_eq_of_lt hoffset, Nat.mod_eq_of_lt hoffset, Nat.add_zero]
      · rw [if_neg (c := i ≤ j ∧ j < i + 256) (by omega)]
        refine ite_congr (propext (by omega)) (fun hj => ?_) fun _ => rfl
        obtain ⟨k, rfl⟩ := Nat.exists_eq_add_of_le hge
        rw [Nat.add_sub_cancel_left, Nat.add_assoc i, Nat.add_sub_cancel_left,
          Nat.add_div_left k (by decide), Nat.add_mod_left, Nat.add_assoc lba, Nat.add_comm 1]

/-- The run of a read. -/
theorem readAbsSectors_spec (ata : Ata io sel.basePort disk)
    (hsel : sel.masterOrSlave = selMaster ∨ sel.masterOrSlave = selSlave)
    (hcount : 0 < sectorCount.toNat) (hrange : lba + sectorCount.toNat ≤ 2 ^ 28) (buf : ℕ → Word)
    (s : σ) :
    ∃ bound buf' s',
      (∀ fuel, bound ≤ fuel → readAbsSectors io sel fuel lba sectorCount buf s = .ok (buf', s')) ∧
      (∀ i, buf' i = if i < sectorCount.toNat * 256 then
        disk (decide (sel.masterOrSlave = selSlave)) (lba + i / 256) (i % 256) else buf i) ∧
      slaveOf (ata.reg s') = decide (sel.masterOrSlave = selSlave) := by
  have hlba : lba < 2 ^ 28 := by omega
  have hshift : lba >>> lbaBits = 0 := by
    rw [Nat.shiftRight_eq_div_pow]
    exact Nat.div_eq_of_lt hlba
  obtain ⟨hwords, hselect⟩ := sendCommand_spec ata hlba hsel hcount s
  obtain ⟨bound, buf', s', hloop, hbuf, hselect'⟩ :=
    sectorLoop_spec ata _ sectorCount.toNat 0 lba buf hwords
  refine ⟨bound, buf', s', fun fuel hfuel => ?_, fun i => ?_, hselect'.trans hselect⟩
  · rw [readAbsSectors, hshift]
    exact hloop fuel hfuel
  · rw [hbuf i, Nat.zero_add, Nat.sub_zero]
    exact if_congr (and_iff_right (Nat.zero_le i)) rfl rfl

/-- **What a read delivers.** For every sector address of 28 bits, every count of sectors that stay
within the addresses, and either drive, the driver waits for a bounded number of reads of the status
before each sector and returns. The drive that was selected is selected, the buffer holds the
sectors from the address on, in order, and is otherwise left alone. -/
theorem readAbsSectors_delivers (ata : Ata io sel.basePort disk)
    (hsel : sel.masterOrSlave = selMaster ∨ sel.masterOrSlave = selSlave)
    (hcount : 0 < sectorCount.toNat) (hrange : lba + sectorCount.toNat ≤ 2 ^ 28) (buf : ℕ → Word)
    (s : σ) :
    ∃ bound buf' s',
      (∀ fuel, bound ≤ fuel → readAbsSectors io sel fuel lba sectorCount buf s = .ok (buf', s')) ∧
      slaveOf (ata.reg s') = decide (sel.masterOrSlave = selSlave) ∧
      (∀ i < sectorCount.toNat * sectorSize / 2,
        buf' i = disk (decide (sel.masterOrSlave = selSlave)) (lba + i / 256) (i % 256)) ∧
      ∀ i, sectorCount.toNat * sectorSize / 2 ≤ i → buf' i = buf i := by
  have hhalf : sectorCount.toNat * sectorSize / 2 = sectorCount.toNat * 256 := by
    rw [sectorSize]
    omega
  obtain ⟨bound, buf', s', hrun, hbuf, hselect⟩ :=
    readAbsSectors_spec ata hsel hcount hrange buf s
  refine ⟨bound, buf', s', hrun, hselect, fun i hi => ?_, fun i hi => ?_⟩
  · rw [hbuf i, if_pos (hhalf ▸ hi)]
  · rw [hbuf i, if_neg (not_lt.mpr (hhalf ▸ hi))]

/-! ### A drive -/

/-- The registers of a drive, the words it has still to supply, and how long it is busy. -/
structure Drive where
  reg : ℕ → Byte
  words : List Word
  busy : ℕ

/-- The ports of a bus with such drives, which are busy for three reads of the status before each
sector. -/
def drivePorts (base : ℕ) (disk : Bool → ℕ → ℕ → Word) : Ports Drive where
  outb s port v :=
    if port = base + Port.comStat then
      if v = readSectors then
        { s with
          words := sectorWords (disk (slaveOf s.reg)) (lbaOf s.reg) (countOf s.reg)
          busy := 3 }
      else s
    else { s with reg := Function.update s.reg (port - base) v }
  inb s port :=
    if port = base + Port.comStat then
      (if 0 < s.busy then 0x80 else 0x40, { s with busy := s.busy - 1 })
    else (0, s)
  inw s port :=
    match s.words with
    | [] => (0, s)
    | w :: ws =>
      if port = base + Port.data ∧ s.busy = 0 then
        (w, { s with words := ws, busy := if 256 ∣ ws.length then 3 else 0 })
      else (0, s)

/-- These drives behave as ATA drives. -/
def driveAta (base : ℕ) (disk : Bool → ℕ → ℕ → Word) : Ata (drivePorts base disk) base disk where
  reg := Drive.reg
  words := Drive.words
  busy := Drive.busy
  reg_outb s p v _ hp := by
    have hne : p ≠ Port.comStat := (Nat.lt_succ_of_le hp).ne
    simp only [drivePorts, Nat.add_right_inj, Nat.add_sub_cancel_left, if_neg hne]
  words_command s _ := by simp [drivePorts]
  select_command s := by simp [drivePorts]
  status_inb s := by
    simp only [drivePorts, if_true]
    split_ifs with hbusy
    · exact (decide_eq_true hbusy).symm
    · exact (decide_eq_false hbusy).symm
  busy_inb s := by simp [drivePorts]
  words_inb s := by simp [drivePorts]
  select_inb s := by simp [drivePorts]
  word_inw s w ws hbusy hwords := by simp [drivePorts, hbusy, hwords]
  words_inw s w ws hbusy hwords := by simp [drivePorts, hbusy, hwords]
  busy_inw s w ws hbusy hwords hmid := by simp [drivePorts, hbusy, hwords, hmid]
  select_inw s := by
    simp only [drivePorts]
    split
    · rfl
    · split_ifs <;> rfl

/-- Disks whose words are numbered. -/
def numberedDisk (slave : Bool) (lba i : ℕ) : Word :=
  BitVec.ofNat 16 (lba * 256 + i + if slave then 32768 else 0)

/-- The slave on the primary bus. -/
def primarySlave : Selection := ⟨0x1F0, selSlave⟩

/-- Two sectors of the slave, from sector 5 on. -/
theorem readAbsSectors_delivers_primarySlave :
    primarySlave.masterOrSlave = selSlave ∧ 0 < (2 : Byte).toNat ∧ 5 + (2 : Byte).toNat ≤ 2 ^ 28 ∧
    ∃ bound buf' s', (∀ fuel, bound ≤ fuel →
        readAbsSectors (drivePorts primarySlave.basePort numberedDisk) primarySlave fuel 5 2
          (fun _ => 0) ⟨fun _ => 0, [], 0⟩ = .ok (buf', s')) ∧
      (∀ i < 512, buf' i = numberedDisk true (5 + i / 256) (i % 256)) ∧
      ∀ i, 512 ≤ i → buf' i = 0 := by
  have hcount : 0 < (2 : Byte).toNat := by decide
  have hrange : 5 + (2 : Byte).toNat ≤ 2 ^ 28 := by decide
  obtain ⟨bound, buf', s', hrun, -, hsectors, hrest⟩ := readAbsSectors_delivers
    (driveAta primarySlave.basePort numberedDisk) (.inr rfl) hcount hrange (fun _ => 0)
    ⟨fun _ => 0, [], 0⟩
  exact ⟨rfl, hcount, hrange, bound, buf', s', hrun, hsectors, hrest⟩

end Studix.Pata
