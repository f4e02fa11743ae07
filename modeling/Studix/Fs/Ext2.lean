import Studix.Base.Memory
import Studix.Base.Word
import Studix.Misc.Panic

/-!
# The ext2 filesystem

Reading of `src/fs/ext2.c`. The packed structures of `src/include/ext2.h` are copied byte for byte
from the disk, so they are kept as raw bytes with their fields read at the offsets of the
declarations. An open file (`Ext2File`) keeps its position three ways, as the position in the file,
the index of the current block and the position in that block, together with a buffer that holds
the current block; `ext2_read` refills the buffer as soon as a read reaches the end of a block.

Bytes that C leaves unset (a fresh `kmalloc` buffer, a local array) are parameters.

## Main definitions

* `Disk`, `readAbsSectors`: the disk, and what the driver delivers from it.
* `Ext2Fs`: the static variables of the filesystem; `readBlock`, `readInode`.
* `Ext2Inode`, `Ext2File`, `ext2OpenInode`, `ext2Read`, `ext2NextDirent`.
-/

namespace Studix.Ext2

/-! ### The disk -/

/-- `SECTOR_SIZE`. -/
def sectorSize : ℕ := 512

/-- The bytes of a disk, by sector and by offset in the sector. -/
abbrev Disk := ℕ → ℕ → Byte

/-- `read_abs_sectors` of `src/devices/pata.c`, as the driver delivers it: `sector_count` is a
`uint8_t`, and the sectors from `lba` on are written to the buffer. -/
def readAbsSectors (disk : Disk) (lba sectorCount : ℕ) (buf : Memory) : Except Stop Memory := do
  assert (lba >>> 28 == 0) "lba >> LBA_BITS == 0"
  .ok (blit buf 0 (sectorCount % 2 ^ 8 * sectorSize)
    fun i => disk (lba + i / sectorSize) (i % sectorSize))

/-- Byte `a` of the disk. -/
def diskByte (disk : Disk) (a : ℕ) : Byte := disk (a / sectorSize) (a % sectorSize)

/-! ### On-disk structures -/

/-- `Ext2_superblock`. -/
structure Ext2Superblock where
  raw : Memory

namespace Ext2Superblock

variable (sb : Ext2Superblock)

def totalInodes : ℕ := load32 sb.raw 0

def totalBlocks : ℕ := load32 sb.raw 4

def log2BlockSize : ℕ := load32 sb.raw 24

def blocksPerGroup : ℕ := load32 sb.raw 32

def inodesPerGroup : ℕ := load32 sb.raw 40

def signature : ℕ := loadLE sb.raw 56 2

end Ext2Superblock

/-- `Ext2_inode`. -/
structure Ext2Inode where
  raw : Memory

namespace Ext2Inode

variable (inode : Ext2Inode)

def typeAndPermissions : ℕ := loadLE inode.raw 0 2

/-- Size of the file in bytes. -/
def size : ℕ := load32 inode.raw 4

/-- Direct block pointers. -/
def dbp (i : ℕ) : ℕ := load32 inode.raw (40 + 4 * i)

end Ext2Inode

/-- `INODE_SIZE`, and `sizeof(Ext2_inode)`. -/
def inodeSize : ℕ := 128

/-- `ROOT_INODE`. -/
def rootInodeNum : ℕ := 2

/-- `sizeof(BGD)`. -/
def bgdSize : ℕ := 32

/-- The static variables of `ext2.c`, and the disk. -/
structure Ext2Fs where
  disk : Disk
  superblock : Ext2Superblock
  /-- The block group descriptor table. -/
  bgdt : Memory
  blockSize : ℕ
  numGroups : ℕ

/-- `bgdt[g].inode_table_addr`. -/
def Ext2Fs.inodeTableAddr (fs : Ext2Fs) (g : ℕ) : ℕ := load32 fs.bgdt (bgdSize * g + 8)

/-! ### Blocks and inodes -/

/-- `read_block`. -/
def readBlock (fs : Ext2Fs) (blockNum : ℕ) (buf : Memory) : Except Stop Memory :=
  readAbsSectors fs.disk (wmul blockNum fs.blockSize / sectorSize) (fs.blockSize / sectorSize) buf

/-- `read_inode`. The local sector buffer is `stack`; what `memcpy` reads behind the fetched
sector is whatever lies there. -/
def readInode (fs : Ext2Fs) (stack : Memory) (inodeNum : ℕ) : Except Stop Ext2Inode := do
  let inodeNum := wsub inodeNum 1
  let perGroup := fs.superblock.inodesPerGroup
  if perGroup = 0 ∨ fs.blockSize = 0 then .error .divideError else
  let blockGroup := inodeNum / perGroup
  let iTableBlock := fs.inodeTableAddr blockGroup
  let index := inodeNum % perGroup
  let blockOffset := wmul index inodeSize / fs.blockSize
  let offsetInBlock := wmul index inodeSize % fs.blockSize
  let block := wadd iTableBlock blockOffset
  let numSectors := inodeSize / sectorSize + 1
  let buf ← readAbsSectors fs.disk (wmul block fs.blockSize / sectorSize) numSectors stack
  .ok ⟨fun i => buf (offsetInBlock / 2 * 2 + i)⟩

/-! ### Open files -/

/-- `Ext2_file`. -/
structure Ext2File where
  /-- Inode of the file that's open. -/
  inode : Ext2Inode
  /-- Current position in the whole file, in bytes. -/
  pos : ℕ
  /-- Index of the block we're currently in, a `uint8_t`. -/
  blockIndex : ℕ
  /-- Buffer containing the data in the current block. -/
  buf : Memory
  /-- Position in the current block. -/
  currBlockPos : ℕ

/-- `ext2_open_inode`, with the contents of the stack and of the fresh buffer. -/
def ext2OpenInode (fs : Ext2Fs) (stack fresh : Memory) (inodeNum : ℕ) : Except Stop Ext2File := do
  let inode ← readInode fs stack inodeNum
  let buf ← readBlock fs (inode.dbp 0) fresh
  .ok { inode, pos := 0, blockIndex := 0, buf, currBlockPos := 0 }

/-- The loop of `ext2_read`. An iteration that does not end the loop moves to the next block, so
the fuel of `ext2Read` is never used up before the block index reaches its limit. -/
def ext2ReadLoop (fs : Ext2Fs) (count : ℕ) :
    ℕ → Ext2File → Memory → ℕ → Except Stop (Ext2File × Memory)
  | 0, _, _, _ => .error .unfinished
  | fuel + 1, file, buf, bytesLeft =>
    if bytesLeft = 0 then .ok (file, buf)
    else
      let newBlock := fs.blockSize ≤ wadd file.currBlockPos bytesLeft
      let toCopy := if newBlock then wsub fs.blockSize file.currBlockPos else bytesLeft
      let buf := blit buf (wsub count bytesLeft) toCopy fun i => file.buf (file.currBlockPos + i)
      let file := { file with
        currBlockPos := wadd file.currBlockPos toCopy, pos := wadd file.pos toCopy }
      let bytesLeft := wsub bytesLeft toCopy
      if newBlock then
        let blockIndex := (file.blockIndex + 1) % 2 ^ 8
        if 12 ≤ blockIndex then
          .error (.panic "Indirect block pointers are currently unsupported")
        else do
          let block ← readBlock fs (file.inode.dbp blockIndex) file.buf
          ext2ReadLoop fs count fuel { file with currBlockPos := 0, blockIndex, buf := block } buf
            bytesLeft
      else ext2ReadLoop fs count fuel file buf bytesLeft

/-- `ext2_read`: the file, the buffer and the returned count. -/
def ext2Read (fs : Ext2Fs) (file : Ext2File) (buf : Memory) (count : ℕ) :
    Except Stop (Ext2File × Memory × ℕ) := do
  let count := if file.inode.size < wadd file.pos count then wsub file.inode.size file.pos
    else count
  let (file, buf) ← ext2ReadLoop fs count 16 file buf count
  .ok (file, buf, count)

/-! ### Directories -/

/-- `Ext2_dirent`; the name is the allocated buffer. -/
structure Ext2Dirent where
  inodeNum : ℕ
  totalLen : ℕ
  nameLen : ℕ
  typeIndicator : ℕ
  name : Memory

/-- `READ_SIZE`. -/
def readSize : ℕ := 8

/-- `ext2_next_dirent`: the entry when the result is true, and the file. The contents of the local
arrays and of the fresh name buffer are `stack` and `fresh`. -/
def ext2NextDirent (fs : Ext2Fs) (stack fresh : Memory) (file : Ext2File) :
    Except Stop (Option Ext2Dirent × Ext2File) := do
  let (file, buf, got) ← ext2Read fs file stack readSize
  if got ≠ readSize then .ok (none, file) else
  let inodeNum := load32 buf 0
  let totalLen := loadLE buf 4 2
  let nameLen := (buf 6).toNat
  let typeIndicator := (buf 7).toNat
  let size := nameLen + 1
  let (file, name, got) ← ext2Read fs file fresh (size - 1)
  if got ≠ size - 1 then .ok (none, file) else
  let name := Function.update name (size - 1) 0
  let dirent : Ext2Dirent := { inodeNum, totalLen, nameLen, typeIndicator, name }
  let bytesLeft := wsub totalLen (readSize + size - 1)
  if 0 < bytesLeft then do
    let (file, _, _) ← ext2Read fs file stack bytesLeft
    .ok (some dirent, file)
  else .ok (some dirent, file)

end Studix.Ext2
