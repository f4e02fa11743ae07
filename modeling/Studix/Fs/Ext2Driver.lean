import Studix.Devices.Pata
import Studix.Fs.Ext2Read

/-!
# The disk behind the filesystem

The filesystem reads sectors as bytes and does not see the ports. What it takes `read_abs_sectors`
to do, `Ext2.readAbsSectors`, is what the driver does on a bus with ATA drives, where the bytes of a
sector are those of its words, low byte first.

## Main definitions

* `bytesOf`, `diskOf`: a buffer and a drive by bytes.

## Main results

* `readAbsSectors_refines`: the driver delivers what the filesystem reads.
-/

namespace Studix.Ext2

open Studix.Pata (Word Ata Ports Selection selMaster selSlave)

/-- Byte `j` of words that lie one behind the other. -/
def wordByte (words : ℕ → Word) (j : ℕ) : Byte := (words (j / 2)).extractLsb' (8 * (j % 2)) 8

/-- A buffer of words as memory. -/
def bytesOf (buf : ℕ → Word) : Memory := wordByte buf

/-- A drive by the bytes of its sectors. -/
def diskOf (disk : ℕ → ℕ → Word) : Disk := fun lba => wordByte (disk lba)

/-- **The driver delivers what the filesystem reads.** -/
theorem readAbsSectors_refines {σ : Type} {io : Ports σ} {sel : Selection} {lba : ℕ}
    {sectorCount : Byte} {disk : Bool → ℕ → ℕ → Word} (ata : Ata io sel.basePort disk)
    (hsel : sel.masterOrSlave = selMaster ∨ sel.masterOrSlave = selSlave)
    (hcount : 0 < sectorCount.toNat) (hrange : lba + sectorCount.toNat ≤ 2 ^ 28) (buf : ℕ → Word)
    (s : σ) :
    ∃ bound buf' s', (∀ fuel, bound ≤ fuel →
        Pata.readAbsSectors io sel fuel lba sectorCount buf s = .ok (buf', s')) ∧
      readAbsSectors (diskOf (disk (decide (sel.masterOrSlave = selSlave)))) lba sectorCount.toNat
        (bytesOf buf) = .ok (bytesOf buf') := by
  obtain ⟨bound, buf', s', hrun, hbuf, -⟩ := Pata.readAbsSectors_spec ata hsel hcount hrange buf s
  refine ⟨bound, buf', s', hrun, ?_⟩
  rw [readAbsSectors_of_lt (by omega), Nat.mod_eq_of_lt sectorCount.isLt]
  refine congrArg Except.ok (funext fun j => ?_)
  simp only [sectorSize, bytesOf, wordByte]
  rw [hbuf (j / 2)]
  rcases Nat.lt_or_ge j (sectorCount.toNat * 512) with hlt | hge
  · -- Byte `j` of the sectors is a byte of word `j / 2`.
    rw [blit_apply_of_mem _ _ (by omega), if_pos (by omega), Nat.sub_zero, diskOf, wordByte,
      show j / 2 / 256 = j / 512 by omega, show j / 2 % 256 = j % 512 / 2 by omega,
      show j % 512 % 2 = j % 2 by omega]
  · rw [blit_apply_of_notMem _ _ (by omega), if_neg (by omega), wordByte]

end Studix.Ext2
