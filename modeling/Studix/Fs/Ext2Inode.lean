import Studix.Fs.Ext2Read

/-!
# Where `read_block` and `read_inode` read

`read_inode` finds the block of an inode and the inode's place in that block, and fetches one sector
from the beginning of the block. Both functions form a byte address in 32 bits and divide it by the
sector size.

## Main definitions

* `inodeAddr`, `inodeBlock`, `offsetInBlock`: where an inode lies.
* `ReadsInode`: `read_inode` fills the structure with the bytes of the inode.
* `readBlockLba`, `readInodeLba`: the first sector that is asked for.

## Main results

* `readsInode_iff`: the inodes that `read_inode` reads.
* `lba_eq_iff`: the blocks whose first sector is asked for.
-/

namespace Studix.Ext2

variable {fs : Ext2Fs} {n : ℕ}

/-! ### The sectors that are asked for -/

/-- The LBA that `read_block` passes to `read_abs_sectors`. -/
def readBlockLba (fs : Ext2Fs) (blockNum : ℕ) : ℕ := wmul blockNum fs.blockSize / sectorSize

/-- The index of inode `n` in its group. -/
def inodeIndex (fs : Ext2Fs) (n : ℕ) : ℕ := wsub n 1 % fs.superblock.inodesPerGroup

/-- The block that `read_inode` reads for inode `n`. -/
def inodeBlock (fs : Ext2Fs) (n : ℕ) : ℕ :=
  wadd (fs.inodeTableAddr (wsub n 1 / fs.superblock.inodesPerGroup))
    (wmul (inodeIndex fs n) inodeSize / fs.blockSize)

/-- The place of inode `n` in its block. -/
def offsetInBlock (fs : Ext2Fs) (n : ℕ) : ℕ := wmul (inodeIndex fs n) inodeSize % fs.blockSize

/-- The LBA that `read_inode` passes to `read_abs_sectors` for inode `n`. -/
def readInodeLba (fs : Ext2Fs) (n : ℕ) : ℕ := wmul (inodeBlock fs n) fs.blockSize / sectorSize

/-- The request of `read_block`. -/
theorem readBlock_eq (fs : Ext2Fs) (b : ℕ) (buf : Memory) :
    readBlock fs b buf =
      readAbsSectors fs.disk (readBlockLba fs b) (fs.blockSize / sectorSize) buf := rfl

/-- The request of `read_inode`, for one sector. -/
theorem readInode_eq (hper : 0 < fs.superblock.inodesPerGroup) (hblock : 0 < fs.blockSize)
    (stack : Memory) (n : ℕ) :
    readInode fs stack n = (do
      let buf ← readAbsSectors fs.disk (readInodeLba fs n) 1 stack
      .ok ⟨fun i => buf (offsetInBlock fs n / 2 * 2 + i)⟩) := by
  have hzero : ¬(fs.superblock.inodesPerGroup = 0 ∨ fs.blockSize = 0) := by omega
  have hsectors : inodeSize / sectorSize + 1 = 1 := by decide
  simp only [readInode, if_neg hzero, hsectors, readInodeLba, inodeBlock, inodeIndex, offsetInBlock]

/-- **Which first sectors are asked for.** For a block size of `1024 << k` and a block whose first
sector lies below `2 ^ 28`, both functions ask for that sector exactly when the block begins in the
first 4 GiB of the disk; behind them the byte address wraps. -/
theorem lba_eq_iff {k b : ℕ} (hblock : fs.blockSize = 1024 <<< k)
    (hlba : b * (fs.blockSize / sectorSize) < 2 ^ 28) :
    (readBlockLba fs b = b * (fs.blockSize / sectorSize) ↔ b * fs.blockSize < 2 ^ 32) ∧
      ∀ n, inodeBlock fs n = b →
        (readInodeLba fs n = b * (fs.blockSize / sectorSize) ↔ b * fs.blockSize < 2 ^ 32) := by
  have hmul : b * fs.blockSize = b * (fs.blockSize / sectorSize) * sectorSize := by
    rw [Nat.mul_assoc, Nat.div_mul_cancel]
    rw [hblock, Nat.shiftLeft_eq]
    exact Dvd.dvd.mul_right (by decide) _
  have hiff : wmul b fs.blockSize / sectorSize = b * (fs.blockSize / sectorSize) ↔
      b * fs.blockSize < 2 ^ 32 := by
    rw [wmul, hmul]
    generalize b * (fs.blockSize / sectorSize) = lba at hlba
    simp only [sectorSize]
    omega
  refine ⟨hiff, fun n hn => ?_⟩
  rw [readInodeLba, hn]
  exact hiff

/-- Block 10 of a small filesystem. -/
theorem lba_eq_sample : sampleFs.blockSize = 1024 <<< 0 ∧
    10 * (sampleFs.blockSize / sectorSize) < 2 ^ 28 ∧
    readBlockLba sampleFs 10 = 10 * (sampleFs.blockSize / sectorSize) :=
  ⟨rfl, by decide, (lba_eq_iff (k := 0) rfl (by decide)).1.mpr (by decide)⟩

/-- With blocks of 4096 bytes, block `2 ^ 20` begins at sector `2 ^ 23`, and sector 0 is read. -/
theorem readBlockLba_wraps :
    2 ^ 20 * (4096 / sectorSize) < 2 ^ 28 ∧
      (∀ buf, readBlock { sampleFs with blockSize := 4096 } (2 ^ 20) buf =
        readAbsSectors sampleFs.disk 0 8 buf) ∧
      readBlockLba { sampleFs with blockSize := 4096 } (2 ^ 20) ≠ 2 ^ 20 * (4096 / sectorSize) := by
  have hzero : readBlockLba { sampleFs with blockSize := 4096 } (2 ^ 20) = 0 := by decide
  refine ⟨by decide, fun buf => ?_, by rw [hzero]; decide⟩
  rw [readBlock_eq, hzero]
  rfl

/-! ### The bytes of an inode -/

/-- The address on the disk of inode `n`, in the inode table of its group. -/
def inodeAddr (fs : Ext2Fs) (n : ℕ) : ℕ :=
  fs.inodeTableAddr ((n - 1) / fs.superblock.inodesPerGroup) * fs.blockSize +
    (n - 1) % fs.superblock.inodesPerGroup * inodeSize

/-- `read_inode` fills the structure with the bytes of inode `n`, whatever the stack held before. -/
def ReadsInode (fs : Ext2Fs) (n : ℕ) : Prop :=
  ∀ stack, ∃ inode, readInode fs stack n = .ok inode ∧
    ∀ i < inodeSize, inode.raw i = diskByte fs.disk (inodeAddr fs n + i)

/-- Where an inode whose bytes lie below 4 GiB is: in its block, at its place, and the block begins
at the sector that is asked for. -/
theorem inodeAddr_eq (hn : 0 < n) (hn32 : n < 2 ^ 32) (hblock : fs.blockSize % sectorSize = 0)
    (hpos : 0 < fs.blockSize) (hlt : inodeAddr fs n + inodeSize ≤ 2 ^ 32) :
    offsetInBlock fs n = (n - 1) % fs.superblock.inodesPerGroup * inodeSize % fs.blockSize ∧
      inodeAddr fs n = readInodeLba fs n * sectorSize + offsetInBlock fs n := by
  have hsub : wsub n 1 = n - 1 := wsub_eq hn hn32
  have hindex : wmul (inodeIndex fs n) inodeSize =
      (n - 1) % fs.superblock.inodesPerGroup * inodeSize := by
    rw [inodeIndex, hsub]
    refine wmul_eq ?_
    rw [inodeAddr] at hlt
    simp only [inodeSize] at *
    omega
  have hoffset : offsetInBlock fs n =
      (n - 1) % fs.superblock.inodesPerGroup * inodeSize % fs.blockSize := by
    rw [offsetInBlock, hindex]
  refine ⟨hoffset, ?_⟩
  rw [readInodeLba, inodeBlock, hindex, hsub, hoffset]
  rw [inodeAddr] at hlt ⊢
  generalize fs.inodeTableAddr ((n - 1) / fs.superblock.inodesPerGroup) = table at *
  generalize (n - 1) % fs.superblock.inodesPerGroup * inodeSize = offset at *
  -- The address is that of the block, and the rest of the offset.
  have hsplit : (table + offset / fs.blockSize) * fs.blockSize + offset % fs.blockSize =
      table * fs.blockSize + offset := by
    rw [Nat.add_mul, Nat.add_assoc, Nat.mul_comm (offset / fs.blockSize), Nat.div_add_mod]
  have hbytes : (table + offset / fs.blockSize) * fs.blockSize < 2 ^ 32 := by
    simp only [inodeSize] at hlt
    omega
  have hnum : table + offset / fs.blockSize < 2 ^ 32 :=
    lt_of_le_of_lt (Nat.le_mul_of_pos_right _ hpos) hbytes
  rw [wadd_eq hnum, wmul_eq hbytes, Nat.div_mul_cancel, hsplit]
  exact Dvd.dvd.mul_left (Nat.dvd_of_mod_eq_zero hblock) _

/-- A byte of the structure that `read_inode` fills: from the disk inside the fetched sector, from
the stack behind it. -/
theorem readInode_spec (hper : 0 < fs.superblock.inodesPerGroup) (hblock : 0 < fs.blockSize)
    (stack : Memory) (n : ℕ) :
    ∃ inode, readInode fs stack n = .ok inode ∧ ∀ i, inode.raw i =
      if offsetInBlock fs n / 2 * 2 + i < sectorSize then
        diskByte fs.disk (readInodeLba fs n * sectorSize + (offsetInBlock fs n / 2 * 2 + i))
      else stack (offsetInBlock fs n / 2 * 2 + i) := by
  have hlba : readInodeLba fs n < 2 ^ 28 := wmul_div_sectorSize_lt _ _
  rw [readInode_eq hper hblock, readAbsSectors_of_lt hlba, except_ok_bind]
  refine ⟨_, rfl, fun i => ?_⟩
  dsimp only
  generalize offsetInBlock fs n / 2 * 2 + i = j
  have hcount : 1 % 2 ^ 8 * sectorSize = sectorSize := rfl
  simp only [hcount]
  split_ifs with hin
  · rw [blit_apply_of_mem _ _ (by omega), diskByte, Nat.sub_zero, Nat.mul_comm,
      Nat.mul_add_div (by decide), Nat.mul_add_mod]
  · rw [blit_apply_of_notMem _ _ (by omega)]

/-- **The inodes that `read_inode` reads.** For a block size of 1024, 2048 or 4096 and an inode
whose bytes lie below 4 GiB, the structure is filled with the bytes of the inode exactly when the
inode lies in the first sector of its block: one of the first four inodes of the block. -/
theorem readsInode_iff (hn : 0 < n) (hn32 : n < 2 ^ 32) (hper : 0 < fs.superblock.inodesPerGroup)
    (hblock : fs.blockSize = 1024 ∨ fs.blockSize = 2048 ∨ fs.blockSize = 4096)
    (hlt : inodeAddr fs n + inodeSize ≤ 2 ^ 32) :
    ReadsInode fs n ↔
      (n - 1) % fs.superblock.inodesPerGroup * inodeSize % fs.blockSize < sectorSize := by
  have hpos : 0 < fs.blockSize := by omega
  have hmod : fs.blockSize % sectorSize = 0 := by
    rcases hblock with h | h | h <;> rw [h] <;> rfl
  obtain ⟨hoffset, haddr⟩ := inodeAddr_eq hn hn32 hmod hpos hlt
  rw [← hoffset]
  -- The place in the block is a multiple of the inode size.
  have hdvd : offsetInBlock fs n % inodeSize = 0 := by
    have hblock128 : inodeSize ∣ fs.blockSize := by
      rcases hblock with h | h | h <;> rw [h] <;> decide
    rw [hoffset, Nat.mod_mod_of_dvd _ hblock128, Nat.mul_mod_left]
  have heven : offsetInBlock fs n / 2 * 2 = offsetInBlock fs n := by
    simp only [inodeSize] at hdvd
    omega
  constructor
  · intro h
    by_contra hout
    -- The stack can hold something else than the disk.
    set stack : Memory := fun _ => diskByte fs.disk (inodeAddr fs n) + 1 with hstack
    obtain ⟨inode, hread, hbytes⟩ := h stack
    obtain ⟨inode', hread', hraw⟩ := readInode_spec hper hpos stack n
    obtain rfl := Except.ok.inj (hread.symm.trans hread')
    have hbyte := hbytes 0 (by decide)
    rw [hraw, heven, Nat.add_zero, if_neg hout, Nat.add_zero, hstack] at hbyte
    generalize diskByte fs.disk (inodeAddr fs n) = byte at hbyte
    simp at hbyte
  · intro hin stack
    obtain ⟨inode, hread, hraw⟩ := readInode_spec hper hpos stack n
    refine ⟨inode, hread, fun i hi => ?_⟩
    rw [hraw, heven, if_pos (by simp only [inodeSize, sectorSize] at *; omega), haddr,
      Nat.add_assoc]

/-- The root inode of a small filesystem. -/
theorem readsInode_sample : sampleFs.blockSize = 1024 ∧ 0 < sampleFs.superblock.inodesPerGroup ∧
    inodeAddr sampleFs 2 + inodeSize ≤ 2 ^ 32 ∧ ReadsInode sampleFs 2 := by
  have hper : 0 < sampleFs.superblock.inodesPerGroup := by decide
  have hlt : inodeAddr sampleFs 2 + inodeSize ≤ 2 ^ 32 := by decide
  exact ⟨rfl, hper, hlt,
    (readsInode_iff (by decide) (by decide) hper (Or.inl rfl) hlt).mpr (by decide)⟩

/-- The fifth inode of a small filesystem lies in the second sector of the inode table's first
block, which is not fetched. -/
theorem readInode_reads_stack : inodeAddr sampleFs 5 + inodeSize ≤ 2 ^ 32 ∧
    (5 - 1) / sampleFs.superblock.inodesPerGroup < sampleFs.numGroups ∧ ¬ReadsInode sampleFs 5 := by
  refine ⟨by decide, by decide, fun h => ?_⟩
  obtain ⟨inode, hread, hbytes⟩ := h fun _ => 0xFF
  have hper : 0 < sampleFs.superblock.inodesPerGroup := by decide
  have hblock : 0 < sampleFs.blockSize := by decide
  obtain ⟨inode', hread', hraw⟩ := readInode_spec hper hblock (fun _ => 0xFF) 5
  obtain rfl := Except.ok.inj (hread.symm.trans hread')
  have hbyte := hbytes 0 (by decide)
  rw [hraw] at hbyte
  exact absurd hbyte (by decide)

end Studix.Ext2
