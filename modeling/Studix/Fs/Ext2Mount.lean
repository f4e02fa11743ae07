import Studix.Fs.Ext2Inode

/-!
# Mounting an ext2 filesystem

`load_superblock` and `load_bgdt` of `src/fs/ext2.c`, with which `ext2_init_fs` begins: the
superblock is copied from the disk, the block size and the number of groups are computed from its
fields, and the group descriptor table is copied to a new buffer. The signature is checked after the
first arithmetic on the fields.

## Main definitions

* `loadSuperblock`, `loadBgdt`, `mountRoot`.
* `LoadsBgdt`, `GroupsCovered`, `MountSafe`: what mounting owes the functions that come after it.

## Main results

* `loadsBgdt_iff`: the images whose group descriptor table is loaded.
* `groupsCovered_iff`: when every inode's group is below `num_groups`.
* `mountSafe_iff`: the superblocks on which mounting is arithmetically safe.
-/

namespace Studix.Ext2

/-! ### The functions -/

/-- `EXT2_SIGNATURE`. -/
def ext2Signature : ℕ := 0xEF53

/-- `SUPERBLOCK_OFFSET`. -/
def superblockOffset : ℕ := 1024

/-- `SUPERBLOCK_LENGTH`. -/
def superblockLength : ℕ := 1024

/-- `SUPERBLOCK_LBA`. -/
def superblockLba : ℕ := superblockOffset / sectorSize

/-- `SUPERBLOCK_SECTORS`. -/
def superblockSectors : ℕ := superblockLength / sectorSize

/-- `sizeof(Ext2_superblock)`. -/
def sizeofSuperblock : ℕ := 84

/-- `load_superblock`, with the contents of the stack. -/
def loadSuperblock (fs : Ext2Fs) (stack : Memory) : Except Stop Ext2Fs := do
  let buf ← readAbsSectors fs.disk superblockLba superblockSectors stack
  let superblock : Ext2Superblock := ⟨blit fs.superblock.raw 0 sizeofSuperblock buf⟩
  if 32 ≤ superblock.log2BlockSize then .error .undefinedShift else
  let blockSize := 1024 <<< superblock.log2BlockSize % 2 ^ 32
  if superblock.blocksPerGroup = 0 then .error .divideError else
  let numGroups := superblock.totalBlocks / superblock.blocksPerGroup
  assert (superblock.signature == ext2Signature) "superblock.signature == EXT2_SIGNATURE"
  .ok { fs with superblock, blockSize, numGroups }

/-- `load_bgdt`, with the contents of the stack and of the new buffer. -/
def loadBgdt (fs : Ext2Fs) (stack fresh : Memory) : Except Stop Ext2Fs := do
  let bgdtSectors := wmul bgdSize fs.numGroups / sectorSize + 1
  if fs.blockSize = 0 then .error .divideError else
  let bgdtBlock := (superblockOffset + superblockLength) / fs.blockSize + 1
  let bgdtLba := wmul bgdtBlock fs.blockSize / sectorSize
  let buf ← readAbsSectors fs.disk bgdtLba bgdtSectors stack
  let bgdtSize := wmul bgdSize fs.numGroups
  .ok { fs with bgdt := blit fresh 0 bgdtSize buf }

/-- The beginning of `ext2_init_fs`, up to the root inode. -/
def mountRoot (fs : Ext2Fs) (stack fresh : Memory) : Except Stop (Ext2Fs × Ext2Inode) := do
  let fs ← loadSuperblock fs stack
  let fs ← loadBgdt fs stack fresh
  let inode ← readInode fs stack rootInodeNum
  .ok (fs, inode)

/-! ### The superblock -/

/-- The superblock of a disk. -/
def superblockOf (disk : Disk) : Ext2Superblock := ⟨fun i => diskByte disk (superblockOffset + i)⟩

/-- The superblock that `load_superblock` leaves: the fields from the disk, in front of the bytes
that lay behind the structure. -/
def copySuperblock (fs : Ext2Fs) (stack : Memory) : Ext2Superblock :=
  ⟨blit fs.superblock.raw 0 sizeofSuperblock (blit stack 0 superblockLength
    fun i => fs.disk (superblockLba + i / sectorSize) (i % sectorSize))⟩

/-- A field of the copy is the disk's. -/
theorem loadLE_copySuperblock (fs : Ext2Fs) (stack : Memory) {o n : ℕ}
    (h : o + n ≤ sizeofSuperblock) :
    loadLE (copySuperblock fs stack).raw o n = loadLE (superblockOf fs.disk).raw o n := by
  refine loadLE_eq_of_bytes fun i hi => ?_
  have hsize : sizeofSuperblock = 84 := rfl
  have hlen : superblockLength = 1024 := rfl
  have haddr : superblockOffset + (o + i) = sectorSize * superblockLba + (o + i) := rfl
  rw [copySuperblock, superblockOf]
  dsimp only
  rw [blit_apply_of_mem _ _ (by omega), blit_apply_of_mem _ _ (by omega), Nat.sub_zero,
    Nat.sub_zero, diskByte, haddr, Nat.mul_add_div (by decide), Nat.mul_add_mod]

theorem copySuperblock_fields (fs : Ext2Fs) (stack : Memory) :
    (copySuperblock fs stack).totalInodes = (superblockOf fs.disk).totalInodes ∧
      (copySuperblock fs stack).totalBlocks = (superblockOf fs.disk).totalBlocks ∧
      (copySuperblock fs stack).log2BlockSize = (superblockOf fs.disk).log2BlockSize ∧
      (copySuperblock fs stack).blocksPerGroup = (superblockOf fs.disk).blocksPerGroup ∧
      (copySuperblock fs stack).inodesPerGroup = (superblockOf fs.disk).inodesPerGroup ∧
      (copySuperblock fs stack).signature = (superblockOf fs.disk).signature :=
  ⟨loadLE_copySuperblock fs stack (by decide), loadLE_copySuperblock fs stack (by decide),
    loadLE_copySuperblock fs stack (by decide), loadLE_copySuperblock fs stack (by decide),
    loadLE_copySuperblock fs stack (by decide), loadLE_copySuperblock fs stack (by decide)⟩

/-- The state that `load_superblock` leaves. -/
def withSuperblock (fs : Ext2Fs) (stack : Memory) : Ext2Fs :=
  { fs with
    superblock := copySuperblock fs stack
    blockSize := 1024 <<< (superblockOf fs.disk).log2BlockSize % 2 ^ 32
    numGroups := (superblockOf fs.disk).totalBlocks / (superblockOf fs.disk).blocksPerGroup }

/-- `load_superblock` by the fields on the disk. -/
theorem loadSuperblock_eq (fs : Ext2Fs) (stack : Memory) :
    loadSuperblock fs stack =
      if 32 ≤ (superblockOf fs.disk).log2BlockSize then .error .undefinedShift
      else if (superblockOf fs.disk).blocksPerGroup = 0 then .error .divideError
      else if (superblockOf fs.disk).signature = ext2Signature then .ok (withSuperblock fs stack)
      else .error (.assertFailed "superblock.signature == EXT2_SIGNATURE") := by
  obtain ⟨-, hblocks, hlog, hper, -, hsig⟩ := copySuperblock_fields fs stack
  have hcount : superblockSectors % 2 ^ 8 * sectorSize = superblockLength := by decide
  have hlba : superblockLba < 2 ^ 28 := by decide
  rw [loadSuperblock, readAbsSectors_of_lt hlba, except_ok_bind, hcount]
  dsimp only
  rw [← copySuperblock, hlog, hper, hblocks, hsig]
  split_ifs with hshift hzero hok
  · rfl
  · rfl
  · rw [beq_iff_eq.mpr hok, assert_true_bind]
    rfl
  · rw [beq_eq_false_iff_ne.mpr hok, assert_false_bind]

/-- A superblock that passes the checks of `load_superblock` is loaded. -/
theorem loadSuperblock_of_accepted {fs : Ext2Fs}
    (h : (superblockOf fs.disk).log2BlockSize < 32 ∧ (superblockOf fs.disk).blocksPerGroup ≠ 0 ∧
      (superblockOf fs.disk).signature = ext2Signature) (stack : Memory) :
    loadSuperblock fs stack = .ok (withSuperblock fs stack) := by
  rw [loadSuperblock_eq, if_neg (not_le.mpr h.1), if_neg h.2.1, if_pos h.2.2]

/-! ### The group descriptor table -/

/-- The address of the block that follows the superblock's. -/
def tableAddr (blockSize : ℕ) : ℕ := (superblockOffset / blockSize + 1) * blockSize

/-- `load_bgdt` leaves the group descriptors of the block that follows the superblock's, whatever
the stack and the new buffer held before. -/
def LoadsBgdt (fs : Ext2Fs) : Prop :=
  ∀ stack fresh, ∃ fs', loadBgdt fs stack fresh = .ok fs' ∧ ∀ g < fs.numGroups, ∀ i < bgdSize,
    fs'.bgdt (bgdSize * g + i) = diskByte fs.disk (tableAddr fs.blockSize + (bgdSize * g + i))

/-- The address that `load_bgdt` reads from. -/
def loadedAddr (blockSize : ℕ) : ℕ :=
  wmul ((superblockOffset + superblockLength) / blockSize + 1) blockSize / sectorSize * sectorSize

/-- The number of bytes that the driver delivers to `load_bgdt`. -/
def deliveredBytes (numGroups : ℕ) : ℕ :=
  (wmul bgdSize numGroups / sectorSize + 1) % 2 ^ 8 * sectorSize

/-- The bytes of the loaded table: from the disk as far as the driver delivers, then from the stack,
and behind the copy what the new buffer held. -/
theorem loadBgdt_spec {fs : Ext2Fs} (hblock : 0 < fs.blockSize) (stack fresh : Memory) :
    ∃ fs', loadBgdt fs stack fresh = .ok fs' ∧ fs'.superblock = fs.superblock ∧
      fs'.blockSize = fs.blockSize ∧ ∀ a, fs'.bgdt a =
        if wmul bgdSize fs.numGroups ≤ a then fresh a
        else if deliveredBytes fs.numGroups ≤ a then stack a
        else diskByte fs.disk (loadedAddr fs.blockSize + a) := by
  have hlba := wmul_div_sectorSize_lt
    ((superblockOffset + superblockLength) / fs.blockSize + 1) fs.blockSize
  rw [loadBgdt]
  simp only [if_neg hblock.ne', readAbsSectors_of_lt hlba, except_ok_bind]
  refine ⟨_, rfl, rfl, rfl, fun a => ?_⟩
  dsimp only
  rw [← deliveredBytes]
  split_ifs with hsize hdelivered
  · rw [blit_apply_of_notMem _ _ (by omega)]
  · rw [blit_apply_of_mem _ _ (by omega), Nat.sub_zero, blit_apply_of_notMem _ _ (by omega)]
  · rw [blit_apply_of_mem _ _ (by omega), Nat.sub_zero, blit_apply_of_mem _ _ (by omega),
      Nat.sub_zero, diskByte, loadedAddr, Nat.mul_comm, Nat.mul_add_div (by decide),
      Nat.mul_add_mod]

/-- For the three block sizes, the address that is read from is the table's for blocks of 4096
bytes, and a block behind it for smaller ones. -/
theorem loadedAddr_eq {b : ℕ} (hblock : b = 1024 ∨ b = 2048 ∨ b = 4096) :
    loadedAddr b = if b = 4096 then tableAddr b else tableAddr b + b := by
  rcases hblock with rfl | rfl | rfl <;> decide

/-- With fewer than 4080 groups the driver delivers the whole table; with more, the number of
sectors does not fit into 8 bits, and the last byte of the table does not come from the disk. -/
theorem delivered_iff (numGroups : ℕ) :
    (∀ a < bgdSize * numGroups, a < wmul bgdSize numGroups ∧ a < deliveredBytes numGroups) ↔
      numGroups < 4080 := by
  have hsector : sectorSize = 512 := rfl
  simp only [show bgdSize = 32 from rfl]
  constructor
  · intro h
    by_contra hmany
    obtain ⟨hcopied, hlast⟩ := h (32 * numGroups - 1) (by omega)
    have hnowrap : 32 * numGroups < 2 ^ 32 := by
      have := wmul_lt 32 numGroups
      omega
    rw [deliveredBytes, show bgdSize = 32 from rfl, wmul_eq hnowrap, hsector] at hlast
    omega
  · intro hfew a ha
    have hnowrap : 32 * numGroups < 2 ^ 32 := by omega
    rw [deliveredBytes, show bgdSize = 32 from rfl, wmul_eq hnowrap, hsector]
    omega

/-- **The images whose table is loaded.** For a block size of 1024, 2048 or 4096 and every number of
groups, the loaded descriptors are those of the block that follows the superblock's exactly when
there are fewer than 4080 groups and either the blocks have 4096 bytes or the image holds the same
descriptors a block further on. -/
theorem loadsBgdt_iff {fs : Ext2Fs}
    (hblock : fs.blockSize = 1024 ∨ fs.blockSize = 2048 ∨ fs.blockSize = 4096) :
    LoadsBgdt fs ↔ fs.numGroups < 4080 ∧ (fs.blockSize = 4096 ∨
      ∀ a < bgdSize * fs.numGroups, diskByte fs.disk (tableAddr fs.blockSize + fs.blockSize + a) =
        diskByte fs.disk (tableAddr fs.blockSize + a)) := by
  have hpos : 0 < fs.blockSize := by omega
  -- Descriptor and byte of a descriptor are one byte of the table.
  have hbyte : LoadsBgdt fs ↔ ∀ stack fresh, ∃ fs', loadBgdt fs stack fresh = .ok fs' ∧
      ∀ a < bgdSize * fs.numGroups,
        fs'.bgdt a = diskByte fs.disk (tableAddr fs.blockSize + a) := by
    have hsize : bgdSize = 32 := rfl
    refine forall_congr' fun stack => forall_congr' fun fresh => exists_congr fun fs' =>
      and_congr_right fun _ => ⟨fun h a ha => ?_, fun h g hg i hi => h _ ?_⟩
    · have hat := h (a / bgdSize) (Nat.div_lt_of_lt_mul ha) (a % bgdSize) (Nat.mod_lt _ (by decide))
      rwa [Nat.div_add_mod] at hat
    · rw [hsize] at *
      omega
  rw [hbyte, ← delivered_iff]
  constructor
  · intro h
    have hin : ∀ a < bgdSize * fs.numGroups,
        a < wmul bgdSize fs.numGroups ∧ a < deliveredBytes fs.numGroups := by
      intro a ha
      by_contra hout
      -- The stack and the new buffer can hold something else than the disk.
      obtain ⟨fs', hload, hbytes⟩ := h
        (fun _ => diskByte fs.disk (tableAddr fs.blockSize + a) + 1)
        (fun _ => diskByte fs.disk (tableAddr fs.blockSize + a) + 1)
      obtain ⟨fs'', hload', -, -, hspec⟩ := loadBgdt_spec hpos
        (fun _ => diskByte fs.disk (tableAddr fs.blockSize + a) + 1)
        (fun _ => diskByte fs.disk (tableAddr fs.blockSize + a) + 1)
      obtain rfl := Except.ok.inj (hload.symm.trans hload')
      have hat := hbytes a ha
      rw [hspec] at hat
      generalize diskByte fs.disk (tableAddr fs.blockSize + a) = byte at hat
      split_ifs at hat with hcopied hdelivered
      · simp at hat
      · simp at hat
      · exact hout ⟨by omega, by omega⟩
    refine ⟨hin, ?_⟩
    by_cases h4096 : fs.blockSize = 4096
    · exact Or.inl h4096
    refine Or.inr fun a ha => ?_
    obtain ⟨fs', hload, hbytes⟩ := h (fun _ => 0) (fun _ => 0)
    obtain ⟨fs'', hload', -, -, hspec⟩ := loadBgdt_spec hpos (fun _ => 0) (fun _ => 0)
    obtain rfl := Except.ok.inj (hload.symm.trans hload')
    obtain ⟨hcopied, hdelivered⟩ := hin a ha
    rw [← hbytes a ha, hspec, if_neg (by omega), if_neg (by omega), loadedAddr_eq hblock,
      if_neg h4096]
  · rintro ⟨hin, hsame⟩ stack fresh
    obtain ⟨fs', hload, -, -, hspec⟩ := loadBgdt_spec hpos stack fresh
    refine ⟨fs', hload, fun a ha => ?_⟩
    obtain ⟨hcopied, hdelivered⟩ := hin a ha
    rw [hspec, if_neg (by omega), if_neg (by omega), loadedAddr_eq hblock]
    split_ifs with h4096
    · rfl
    · exact hsame.resolve_left h4096 a ha

/-! ### Images -/

/-- The static variables before a disk is mounted. -/
def unmounted (disk : Disk) : Ext2Fs := ⟨disk, ⟨fun _ => 0⟩, fun _ => 0, 0, 0⟩

/-- The bytes of a superblock with the given fields, as far as the signature. -/
def superblockBytes (totalInodes totalBlocks log2BlockSize blocksPerGroup inodesPerGroup : ℕ) :
    List Byte :=
  leBytes 4 totalInodes ++ leBytes 4 totalBlocks ++ List.replicate 16 0 ++
    leBytes 4 log2BlockSize ++ leBytes 4 0 ++ leBytes 4 blocksPerGroup ++ leBytes 4 0 ++
    leBytes 4 inodesPerGroup ++ List.replicate 12 0 ++ leBytes 2 ext2Signature

/-- A disk with the given superblock, and a group descriptor in block 2 (of 1024 bytes) whose inode
table is block 5. -/
def imageDisk (superblock : List Byte) : Disk := fun lba o =>
  if lba = 2 then superblock.getD o 0 else if lba = 4 ∧ o = 8 then 5 else 0

/-- Two groups of a filesystem with blocks of 4096 bytes. -/
theorem loadsBgdt_sample : LoadsBgdt { sampleFs with blockSize := 4096, numGroups := 2 } := by
  have hblock : (4096 = 1024 ∨ 4096 = 2048 ∨ 4096 = 4096) := by decide
  exact (loadsBgdt_iff hblock).mpr ⟨by decide, Or.inl rfl⟩

/-- With blocks of 1024 bytes, the descriptor is looked for in block 3. -/
theorem bgdt_of_next_block : ∃ fs,
    loadSuperblock (unmounted (imageDisk (superblockBytes 16 64 0 64 16))) (fun _ => 0) = .ok fs ∧
      fs.blockSize = 1024 ∧ fs.numGroups = 1 ∧ ¬LoadsBgdt fs := by
  refine ⟨withSuperblock (unmounted (imageDisk (superblockBytes 16 64 0 64 16))) (fun _ => 0), ?_,
    by decide +kernel, by decide +kernel, fun h => ?_⟩
  · exact loadSuperblock_of_accepted (by decide +kernel) _
  · have hpos : 0 < (withSuperblock (unmounted (imageDisk (superblockBytes 16 64 0 64 16)))
        fun _ => 0).blockSize := by decide +kernel
    obtain ⟨fs', hload, hbytes⟩ := h (fun _ => 0) (fun _ => 0)
    obtain ⟨fs'', hload', -, -, hspec⟩ := loadBgdt_spec hpos (fun _ => 0) (fun _ => 0)
    obtain rfl := Except.ok.inj (hload.symm.trans hload')
    have hat := hbytes 0 (by decide +kernel) 8 (by decide)
    rw [hspec] at hat
    exact absurd hat (by decide +kernel)

/-! ### The groups of the inodes -/

/-- The group of every inode is one of the loaded groups. -/
def GroupsCovered (fs : Ext2Fs) : Prop :=
  ∀ n, 1 ≤ n → n ≤ fs.superblock.totalInodes →
    wsub n 1 / fs.superblock.inodesPerGroup < fs.numGroups

/-- **When every inode's group is covered.** On a disk that has inodes for all its groups, the last
one included that may be shorter than the others, every inode's group is below the `num_groups` of
`load_superblock` exactly when there is no shorter group. -/
theorem groupsCovered_iff {fs₀ fs : Ext2Fs} {stack : Memory}
    (hload : loadSuperblock fs₀ stack = .ok fs) (hper : 0 < fs.superblock.inodesPerGroup)
    (htotal : fs.superblock.totalInodes = fs.superblock.inodesPerGroup *
      ((fs.superblock.totalBlocks + (fs.superblock.blocksPerGroup - 1)) /
        fs.superblock.blocksPerGroup)) :
    GroupsCovered fs ↔ fs.superblock.blocksPerGroup ∣ fs.superblock.totalBlocks := by
  obtain ⟨hblocks, hgroups⟩ : 0 < fs.superblock.blocksPerGroup ∧
      fs.numGroups = fs.superblock.totalBlocks / fs.superblock.blocksPerGroup := by
    obtain ⟨-, hblocks, -, hgroup, -, -⟩ := copySuperblock_fields fs₀ stack
    rw [loadSuperblock_eq] at hload
    split_ifs at hload with hshift hzero hsig
    obtain rfl := Except.ok.inj hload
    rw [withSuperblock]
    dsimp only
    rw [hblocks, hgroup]
    exact ⟨Nat.pos_of_ne_zero hzero, rfl⟩
  have hlt : fs.superblock.totalInodes < 2 ^ 32 := load32_lt _ _
  rw [GroupsCovered, hgroups]
  generalize fs.superblock.totalInodes = inodes at *
  generalize fs.superblock.inodesPerGroup = per at *
  generalize fs.superblock.totalBlocks = total at *
  generalize fs.superblock.blocksPerGroup = blocks at *
  have hdiv : blocks * (total / blocks) + total % blocks = total := Nat.div_add_mod total blocks
  constructor
  · intro h
    by_contra hpart
    have hrest : 0 < total % blocks := Nat.pos_of_ne_zero fun h => hpart (Nat.dvd_of_mod_eq_zero h)
    -- The last group is the shorter one, and the last inode lies in it.
    have hceil : (total + (blocks - 1)) / blocks = total / blocks + 1 := by
      have hmod := Nat.mod_lt total hblocks
      rw [← hdiv, Nat.add_assoc, Nat.mul_add_div hblocks, Nat.mul_add_div hblocks,
        Nat.div_eq_of_lt hmod, Nat.add_zero]
      congr 1
      refine Nat.div_eq_of_lt_le (by omega) (by omega)
    rw [hceil, Nat.mul_succ] at htotal
    have hlast := h inodes (by omega) le_rfl
    rw [wsub_eq (by omega) hlt, Nat.div_lt_iff_lt_mul hper, Nat.mul_comm] at hlast
    omega
  · rintro hdvd n hn hle
    have hceil : (total + (blocks - 1)) / blocks = total / blocks := by
      obtain ⟨k, rfl⟩ := hdvd
      rw [Nat.mul_add_div hblocks, Nat.mul_div_cancel_left k hblocks,
        Nat.div_eq_of_lt (by omega), Nat.add_zero]
    rw [hceil] at htotal
    rw [wsub_eq hn (by omega), Nat.div_lt_iff_lt_mul hper, Nat.mul_comm]
    omega

/-- Two groups of 64 blocks, with 16 inodes each. -/
theorem groupsCovered_sample : ∃ fs,
    loadSuperblock (unmounted (imageDisk (superblockBytes 32 128 0 64 16))) (fun _ => 0) = .ok fs ∧
      GroupsCovered fs := by
  have hload : loadSuperblock (unmounted (imageDisk (superblockBytes 32 128 0 64 16)))
      (fun _ => 0) =
      .ok (withSuperblock (unmounted (imageDisk (superblockBytes 32 128 0 64 16))) fun _ => 0) :=
    loadSuperblock_of_accepted (by decide +kernel) _
  exact ⟨_, hload, (groupsCovered_iff hload (by decide +kernel) (by decide +kernel)).mpr
    (by decide +kernel)⟩

/-- A disk of 40 blocks with 64 to a group has one group, and `num_groups` is zero. -/
theorem partial_group_not_covered : ∃ fs,
    loadSuperblock (unmounted (imageDisk (superblockBytes 16 40 0 64 16))) (fun _ => 0) = .ok fs ∧
      fs.superblock.totalInodes = fs.superblock.inodesPerGroup *
        ((fs.superblock.totalBlocks + (fs.superblock.blocksPerGroup - 1)) /
          fs.superblock.blocksPerGroup) ∧
      ¬GroupsCovered fs := by
  refine ⟨withSuperblock (unmounted (imageDisk (superblockBytes 16 40 0 64 16))) fun _ => 0, ?_,
    by decide +kernel, fun h => ?_⟩
  · exact loadSuperblock_of_accepted (by decide +kernel) _
  · exact absurd (h 1 le_rfl (by decide +kernel)) (by decide +kernel)

/-! ### Arithmetic on the fields -/

/-- Mounting stops at an `ASSERT`, or it returns with a block size of one sector or more; it never
shifts by the width of the word and never divides by zero. -/
def MountSafe (fs : Ext2Fs) : Prop :=
  ∀ stack fresh, (∃ expr, mountRoot fs stack fresh = .error (.assertFailed expr)) ∨
    ∃ fs' inode, mountRoot fs stack fresh = .ok (fs', inode) ∧
      fs'.blockSize ≠ 0 ∧ sectorSize ∣ fs'.blockSize

/-- The block size of `load_superblock` is a number of sectors as long as it fits into the word. -/
theorem blockSize_of_log2 : ∀ l < 32, (1024 <<< l % 2 ^ 32 = 0 ↔ 21 < l) ∧
    sectorSize ∣ 1024 <<< l % 2 ^ 32 := by
  decide

/-- What mounting does on a superblock that `load_superblock` accepts. -/
theorem mountRoot_of_loadSuperblock {fs fs₁ : Ext2Fs} {stack : Memory}
    (hload : loadSuperblock fs stack = .ok fs₁) (fresh : Memory) :
    (fs₁.blockSize = 0 ∨ fs₁.superblock.inodesPerGroup = 0 →
      mountRoot fs stack fresh = .error .divideError) ∧
    (0 < fs₁.blockSize → 0 < fs₁.superblock.inodesPerGroup →
      ∃ fs' inode, mountRoot fs stack fresh = .ok (fs', inode) ∧
        fs'.blockSize = fs₁.blockSize) := by
  rw [mountRoot, hload, except_ok_bind]
  rcases Nat.eq_zero_or_pos fs₁.blockSize with hzero | hpos
  · refine ⟨fun _ => ?_, fun h => absurd hzero h.ne'⟩
    simp only [loadBgdt, hzero, if_true]
    rfl
  · obtain ⟨fs₂, hbgdt, hsuper, hblock, -⟩ := loadBgdt_spec hpos stack fresh
    rw [hbgdt, except_ok_bind]
    refine ⟨fun h => ?_, fun _ hper => ?_⟩
    · have hper : fs₂.superblock.inodesPerGroup = 0 ∨ fs₂.blockSize = 0 :=
        Or.inl (hsuper ▸ h.resolve_left hpos.ne')
      simp only [readInode, if_pos hper]
      rfl
    · have hper₂ : 0 < fs₂.superblock.inodesPerGroup := hsuper ▸ hper
      obtain ⟨inode, hinode, -⟩ := readInode_spec hper₂ (hblock ▸ hpos) stack rootInodeNum
      rw [hinode]
      exact ⟨fs₂, inode, rfl, hblock⟩

theorem mountRoot_of_error {fs : Ext2Fs} {stack : Memory} {e : Stop}
    (h : loadSuperblock fs stack = .error e) (fresh : Memory) :
    mountRoot fs stack fresh = .error e := by
  rw [mountRoot, h]
  rfl

/-- Safe mounting stops at an `ASSERT` only. -/
theorem MountSafe.assertFailed {fs : Ext2Fs} (h : MountSafe fs) {stack fresh : Memory} {e : Stop}
    (he : mountRoot fs stack fresh = .error e) : ∃ expr, e = .assertFailed expr := by
  rcases h stack fresh with ⟨expr, hexpr⟩ | ⟨fs', inode, hok, -⟩
  · exact ⟨expr, Except.error.inj (he.symm.trans hexpr)⟩
  · rw [he] at hok
    cases hok

/-- **The superblocks on which mounting is arithmetically safe.** There are blocks in a group, and
`log2_block_size` is less than the width of the word: these two are used before the signature is
checked. Where the signature is right, the block size fits into the word, and there are inodes in a
group. -/
theorem mountSafe_iff (fs : Ext2Fs) :
    MountSafe fs ↔ (superblockOf fs.disk).blocksPerGroup ≠ 0 ∧
      (superblockOf fs.disk).log2BlockSize < 32 ∧
      ((superblockOf fs.disk).signature ≠ ext2Signature ∨
        (superblockOf fs.disk).log2BlockSize ≤ 21 ∧ (superblockOf fs.disk).inodesPerGroup ≠ 0) := by
  constructor
  · intro h
    have hload := loadSuperblock_eq fs fun _ => 0
    split_ifs at hload with hshift hzero hsig
    · obtain ⟨expr, hexpr⟩ := h.assertFailed (mountRoot_of_error hload fun _ => 0)
      cases hexpr
    · obtain ⟨expr, hexpr⟩ := h.assertFailed (mountRoot_of_error hload fun _ => 0)
      cases hexpr
    · refine ⟨hzero, by omega, Or.inr ?_⟩
      by_contra hbad
      obtain ⟨-, -, -, -, hper, -⟩ := copySuperblock_fields fs fun _ => 0
      obtain ⟨hstops, -⟩ := mountRoot_of_loadSuperblock hload fun _ => 0
      have hdivide : (withSuperblock fs fun _ => 0).blockSize = 0 ∨
          (withSuperblock fs fun _ => 0).superblock.inodesPerGroup = 0 := by
        rw [withSuperblock]
        dsimp only
        rw [(blockSize_of_log2 _ (by omega)).1, hper]
        omega
      obtain ⟨expr, hexpr⟩ := h.assertFailed (hstops hdivide)
      cases hexpr
    · exact ⟨hzero, by omega, Or.inl hsig⟩
  · rintro ⟨hzero, hshift, hfields⟩ stack fresh
    have hload := loadSuperblock_eq fs stack
    rw [if_neg (by omega), if_neg hzero] at hload
    split_ifs at hload with hsig
    · obtain ⟨hlog, hinodes⟩ := hfields.resolve_left (not_not.mpr hsig)
      obtain ⟨hblock, hdvd⟩ := blockSize_of_log2 _ hshift
      obtain ⟨-, -, -, -, hper, -⟩ := copySuperblock_fields fs stack
      have hpos : (withSuperblock fs stack).blockSize ≠ 0 := by
        rw [withSuperblock]
        dsimp only
        rw [Ne, hblock]
        omega
      have hper' : 0 < (withSuperblock fs stack).superblock.inodesPerGroup :=
        Nat.pos_of_ne_zero (hper ▸ hinodes)
      obtain ⟨fs', inode, hok, hsame⟩ :=
        (mountRoot_of_loadSuperblock hload fresh).2 (Nat.pos_of_ne_zero hpos) hper'
      exact Or.inr ⟨fs', inode, hok, hsame ▸ hpos, hsame ▸ hdvd⟩
    · exact Or.inl ⟨_, mountRoot_of_error hload fresh⟩

/-- With no blocks in a group, `load_superblock` divides by zero, whatever the signature. -/
theorem divides_before_signature :
    mountRoot (unmounted (imageDisk [])) (fun _ => 0) (fun _ => 0) = .error .divideError ∧
      ¬MountSafe (unmounted (imageDisk [])) := by
  have hload : loadSuperblock (unmounted (imageDisk [])) (fun _ => 0) = .error .divideError := by
    rw [loadSuperblock_eq, if_neg (by decide +kernel), if_pos (by decide +kernel)]
  have hstops := mountRoot_of_error hload fun _ => 0
  refine ⟨hstops, fun h => ?_⟩
  obtain ⟨expr, hexpr⟩ := h.assertFailed hstops
  cases hexpr

end Studix.Ext2
