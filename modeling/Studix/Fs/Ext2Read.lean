import Studix.Fs.Ext2

/-!
# Sequential reads of an ext2 file

The contents of a file are the blocks of its direct block pointers laid end to end (`fileByte`).
An open file is *positioned* when its three positions agree and its buffer holds the current block;
`ext2_read` goes from one positioned file to another and delivers the bytes in between, whatever
the request and wherever it ends relative to block edges and to the end of the file.

## Main definitions

* `diskBlock`, `fileByte`, `fileBytes`: the contents of a block and of a file.
* `DeliversBlock`: `read_block` delivers the bytes of a disk block.
* `InPlace`, `Positioned`: the invariant of an open file, without and with the contents of its
  buffer.
* `BlockBuffers`: what the buffer holds in each block.
* `ClipsRequest`: one call, for a request of any length.
* `ext2Reads`: a sequence of `ext2_read` calls.

## Main results

* `ext2ReadLoop_spec`, `ext2Read_spec`: one call.
* `clipsRequest_iff`: the requests that are clipped to the rest of the file.
* `ext2Reads_sequential`: any sequence of calls on a freshly opened file.
-/

namespace Studix.Ext2

/-- Byte `j` of disk block `b`. -/
def diskBlock (fs : Ext2Fs) (b j : ℕ) : Byte := diskByte fs.disk (b * fs.blockSize + j)

/-- Byte `i` of the blocks `dbp[0], dbp[1], …` laid end to end. -/
def fileByte (fs : Ext2Fs) (inode : Ext2Inode) (i : ℕ) : Byte :=
  diskBlock fs (inode.dbp (i / fs.blockSize)) (i % fs.blockSize)

/-- The `n` bytes from position `a` of the blocks laid end to end. -/
def fileBytes (fs : Ext2Fs) (inode : Ext2Inode) (a n : ℕ) : List Byte :=
  (List.range n).map fun i => fileByte fs inode (a + i)

/-- `read_block` returns and delivers the bytes of disk block `b`. -/
def DeliversBlock (fs : Ext2Fs) (b : ℕ) : Prop :=
  ∀ buf, ∃ buf', readBlock fs b buf = .ok buf' ∧ ∀ j < fs.blockSize, buf' j = diskBlock fs b j

/-- The three positions of an open file agree, and its buffer holds the current block. -/
structure Positioned (fs : Ext2Fs) (file : Ext2File) : Prop where
  pos_eq : file.pos = file.blockIndex * fs.blockSize + file.currBlockPos
  currBlockPos_lt : file.currBlockPos < fs.blockSize
  buf_eq : ∀ j < fs.blockSize, file.buf j = diskBlock fs (file.inode.dbp file.blockIndex) j

/-- The position of an open file is the beginning of its block and the position in that block. -/
structure InPlace (fs : Ext2Fs) (file : Ext2File) : Prop where
  pos_eq : file.pos = file.blockIndex * fs.blockSize + file.currBlockPos
  currBlockPos_lt : file.currBlockPos < fs.blockSize

/-- What the buffer of an open file holds in each block from the current one on. -/
structure BlockBuffers (fs : Ext2Fs) (file : Ext2File) (bufs : ℕ → Memory) : Prop where
  current : bufs file.blockIndex = file.buf
  next : ∀ i, file.blockIndex ≤ i → i + 1 < 12 →
    readBlock fs (file.inode.dbp (i + 1)) (bufs i) = .ok (bufs (i + 1))

/-- The byte address is below `2 ^ 32`, so that the driver's check of the LBA never fails. -/
theorem wmul_div_sectorSize_lt (a b : ℕ) : wmul a b / sectorSize < 2 ^ 28 := by
  have hlt := wmul_lt a b
  simp only [sectorSize]
  omega

theorem readAbsSectors_of_lt {lba : ℕ} (h : lba < 2 ^ 28) (disk : Disk) (count : ℕ) (buf : Memory) :
    readAbsSectors disk lba count buf = .ok (blit buf 0 (count % 2 ^ 8 * sectorSize)
      fun i => disk (lba + i / sectorSize) (i % sectorSize)) := by
  have hzero : lba >>> 28 = 0 := by
    rw [Nat.shiftRight_eq_div_pow, Nat.div_eq_of_lt h]
  rw [readAbsSectors, hzero]
  rfl

section

variable {fs : Ext2Fs} {file : Ext2File} {bytesLeft : ℕ}

/-- `read_block` always returns: its byte address wraps before the driver's check could fail. -/
theorem exists_readBlock (fs : Ext2Fs) (b : ℕ) (buf : Memory) :
    ∃ buf', readBlock fs b buf = .ok buf' :=
  ⟨_, readAbsSectors_of_lt (wmul_div_sectorSize_lt b fs.blockSize) _ _ _⟩

theorem exists_blockBuffers (fs : Ext2Fs) (file : Ext2File) :
    ∃ bufs, BlockBuffers fs file bufs := by
  choose next hnext using exists_readBlock fs
  let ahead : ℕ → Memory := fun k =>
    k.rec file.buf fun k buf => next (file.inode.dbp (file.blockIndex + k + 1)) buf
  refine ⟨fun i => ahead (i - file.blockIndex), ?_, fun i hi _ => ?_⟩
  · rw [Nat.sub_self]
    rfl
  · obtain ⟨k, rfl⟩ := Nat.exists_eq_add_of_le hi
    rw [Nat.add_assoc, Nat.add_sub_cancel_left, Nat.add_sub_cancel_left, ← Nat.add_assoc]
    exact hnext _ _

theorem Positioned.inPlace (h : Positioned fs file) : InPlace fs file :=
  ⟨h.pos_eq, h.currBlockPos_lt⟩

/-- The byte of a block at a position of the file in place. -/
theorem InPlace.block_add (h : InPlace fs file) {j : ℕ}
    (hj : file.currBlockPos + j < fs.blockSize) :
    (file.pos + j) / fs.blockSize = file.blockIndex ∧
      (file.pos + j) % fs.blockSize = file.currBlockPos + j := by
  have hdiv := Nat.add_mul_div_right (file.currBlockPos + j) file.blockIndex
    (show 0 < fs.blockSize by omega)
  rw [h.pos_eq, Nat.add_assoc, Nat.add_comm]
  exact ⟨by rw [hdiv, Nat.div_eq_of_lt hj, Nat.zero_add],
    by rw [Nat.add_mul_mod_self_right, Nat.mod_eq_of_lt hj]⟩

/-- A file in place inside the direct blocks is in one of them. -/
theorem InPlace.blockIndex_lt (h : InPlace fs file) (hpos : file.pos < 12 * fs.blockSize) :
    file.blockIndex < 12 := by
  rw [h.pos_eq] at hpos
  exact Nat.lt_of_mul_lt_mul_right (Nat.lt_of_le_of_lt (Nat.le_add_right _ _) hpos)

/-- **The loop of `ext2_read`** copies the requested bytes block by block out of what the buffer
holds in each block, behind the part of the caller's buffer that earlier iterations filled, and
leaves the file in place. -/
theorem ext2ReadLoop_walk (fuel count : ℕ) (buf : Memory) {bufs : ℕ → Memory}
    (hbufs : BlockBuffers fs file bufs) (hplace : InPlace fs file)
    (hsize : file.inode.size < 12 * fs.blockSize) (hleft : file.pos + bytesLeft ≤ file.inode.size)
    (hcount : bytesLeft ≤ count) (hcount' : count < 2 ^ 32) (hfuel : 14 ≤ fuel + file.blockIndex) :
    ∃ file' buf', ext2ReadLoop fs count fuel file buf bytesLeft = .ok (file', buf') ∧
      file'.inode = file.inode ∧ file'.pos = file.pos + bytesLeft ∧ InPlace fs file' ∧
      file'.buf = bufs file'.blockIndex ∧ file.blockIndex ≤ file'.blockIndex ∧
      ∀ i, buf' i = if count - bytesLeft ≤ i ∧ i < count then
        bufs ((file.pos + (i - (count - bytesLeft))) / fs.blockSize)
          ((file.pos + (i - (count - bytesLeft))) % fs.blockSize) else buf i := by
  -- Induction on the fuel: an iteration that fills up the block moves to the next one with less
  -- to read; any other iteration is the last.
  induction fuel generalizing file buf bytesLeft with
  | zero =>
    have := hplace.blockIndex_lt (by omega)
    omega
  | succ fuel ih =>
    have hsize32 : file.inode.size < 2 ^ 32 := load32_lt _ _
    have hindex := hplace.blockIndex_lt (by omega)
    have hcurr := hplace.currBlockPos_lt
    rw [ext2ReadLoop]
    by_cases hzero : bytesLeft = 0
    · subst hzero
      refine ⟨file, buf, if_pos rfl, rfl, rfl, hplace, hbufs.current.symm, le_rfl,
        fun i => (if_neg (by omega)).symm⟩
    have hcurrle : file.currBlockPos ≤ file.pos := by
      rw [hplace.pos_eq]
      exact Nat.le_add_left _ _
    have hwadd : wadd file.currBlockPos bytesLeft = file.currBlockPos + bytesLeft :=
      wadd_eq (by omega)
    have hdone : wsub count bytesLeft = count - bytesLeft := wsub_eq hcount hcount'
    rw [if_neg hzero]
    simp only [hwadd, hdone]
    by_cases hnew : fs.blockSize ≤ file.currBlockPos + bytesLeft
    · -- The read reaches the end of the block, which is not the last one.
      have hcopy : wsub fs.blockSize file.currBlockPos = fs.blockSize - file.currBlockPos :=
        wsub_eq hcurr.le (by omega)
      have hnext : file.pos + (fs.blockSize - file.currBlockPos) =
          (file.blockIndex + 1) * fs.blockSize := by
        rw [hplace.pos_eq, Nat.succ_mul]
        omega
      have hindex' : file.blockIndex + 1 < 12 := by
        refine Nat.lt_of_mul_lt_mul_right (a := fs.blockSize) ?_
        omega
      have hmod : (file.blockIndex + 1) % 2 ^ 8 = file.blockIndex + 1 := by omega
      have hpos' : wadd file.pos (fs.blockSize - file.currBlockPos) =
          file.pos + (fs.blockSize - file.currBlockPos) := wadd_eq (by omega)
      have hleft' : wsub bytesLeft (fs.blockSize - file.currBlockPos) =
          bytesLeft - (fs.blockSize - file.currBlockPos) := wsub_eq (by omega) (by omega)
      have hblock := hbufs.next file.blockIndex le_rfl hindex'
      rw [hbufs.current] at hblock
      simp only [if_pos hnew, hcopy, hmod, hpos', hleft', if_neg (not_le.mpr hindex'), hblock]
      obtain ⟨file', buf', hloop, hinode, hfpos, hfile', hfbuf, hfindex, hbuf⟩ := @ih
        { file with currBlockPos := 0, pos := file.pos + (fs.blockSize - file.currBlockPos),
                    blockIndex := file.blockIndex + 1, buf := bufs (file.blockIndex + 1) }
        (bytesLeft - (fs.blockSize - file.currBlockPos))
        (blit buf (count - bytesLeft) (fs.blockSize - file.currBlockPos)
          fun i => file.buf (file.currBlockPos + i))
        ⟨rfl, fun i hi => hbufs.next i (Nat.le_of_succ_le hi)⟩
        ⟨by simpa using hnext, by simp only; omega⟩ hsize (by simp only; omega) (by omega)
        (by simp only; omega)
      refine ⟨file', buf', hloop, hinode, ?_, hfile', hfbuf, Nat.le_of_succ_le hfindex, fun i => ?_⟩
      · rw [hfpos]
        simp only
        omega
      · rw [hbuf i]
        split_ifs with hin hin' hin'
        · have hfrom : file.pos + (fs.blockSize - file.currBlockPos) +
              (i - (count - (bytesLeft - (fs.blockSize - file.currBlockPos)))) =
              file.pos + (i - (count - bytesLeft)) := by omega
          simp only [hfrom]
        · omega
        · obtain ⟨hdiv, hoffset⟩ :=
            hplace.block_add (show file.currBlockPos + (i - (count - bytesLeft)) < _ by omega)
          rw [blit_apply_of_mem _ _ (by omega), hdiv, hoffset, hbufs.current]
        · rw [blit_apply_of_notMem _ _ (by omega)]
    · have hpos' : wadd file.pos bytesLeft = file.pos + bytesLeft := wadd_eq (by omega)
      have hleft' : wsub bytesLeft bytesLeft = 0 := by rw [wsub_eq le_rfl (by omega), Nat.sub_self]
      obtain ⟨fuel, rfl⟩ : ∃ k, fuel = k + 1 := ⟨fuel - 1, by omega⟩
      simp only [if_neg hnew, hwadd, hpos', hleft', ext2ReadLoop, if_true]
      refine ⟨_, _, rfl, rfl, rfl, ⟨?_, by simp only; omega⟩, hbufs.current.symm, le_rfl,
        fun i => ?_⟩
      · simp only [hplace.pos_eq, Nat.add_assoc]
      · split_ifs with hin
        · obtain ⟨hdiv, hoffset⟩ :=
            hplace.block_add (show file.currBlockPos + (i - (count - bytesLeft)) < _ by omega)
          rw [blit_apply_of_mem _ _ (by omega), hdiv, hoffset, hbufs.current]
        · rw [blit_apply_of_notMem _ _ (by omega)]

/-- Blocks that `read_block` delivers are what the buffer of a positioned file holds. -/
theorem BlockBuffers.eq_diskBlock {bufs : ℕ → Memory} (hbufs : BlockBuffers fs file bufs)
    (hread : ∀ i < 12, DeliversBlock fs (file.inode.dbp i)) (hpos : Positioned fs file) {i : ℕ}
    (hi : file.blockIndex ≤ i) (hi12 : i < 12) {j : ℕ} (hj : j < fs.blockSize) :
    bufs i j = diskBlock fs (file.inode.dbp i) j := by
  rcases Nat.eq_or_lt_of_le hi with rfl | hlt
  · rw [hbufs.current, hpos.buf_eq j hj]
  · obtain ⟨k, rfl⟩ : ∃ k, i = k + 1 := ⟨i - 1, by omega⟩
    have hnext := hbufs.next k (by omega) hi12
    obtain ⟨buf', hread', hbytes⟩ := hread (k + 1) hi12 (bufs k)
    rw [Except.ok.inj (hnext.symm.trans hread'), hbytes j hj]

/-- **The loop of `ext2_read`** delivers the bytes from the position of the file on, behind the part
of the buffer that earlier iterations filled, and leaves the file positioned. -/
theorem ext2ReadLoop_spec (fuel count : ℕ) (buf : Memory)
    (hread : ∀ i < 12, DeliversBlock fs (file.inode.dbp i))
    (hpos : Positioned fs file) (hsize : file.inode.size < 12 * fs.blockSize)
    (hleft : file.pos + bytesLeft ≤ file.inode.size) (hcount : bytesLeft ≤ count)
    (hcount' : count < 2 ^ 32) (hfuel : 14 ≤ fuel + file.blockIndex) :
    ∃ file' buf', ext2ReadLoop fs count fuel file buf bytesLeft = .ok (file', buf') ∧
      file'.inode = file.inode ∧ file'.pos = file.pos + bytesLeft ∧ Positioned fs file' ∧
      ∀ i, buf' i = if count - bytesLeft ≤ i ∧ i < count then
        fileByte fs file.inode (file.pos + (i - (count - bytesLeft))) else buf i := by
  obtain ⟨bufs, hbufs⟩ := exists_blockBuffers fs file
  have hblock : 0 < fs.blockSize := Nat.zero_lt_of_lt hpos.currBlockPos_lt
  obtain ⟨file', buf', hloop, hinode, hfpos, hfile', hfbuf, hindex, hbuf⟩ := ext2ReadLoop_walk
    fuel count buf hbufs hpos.inPlace hsize hleft hcount hcount' hfuel
  have hindex' := hfile'.blockIndex_lt (by rw [hfpos]; omega)
  refine ⟨file', buf', hloop, hinode, hfpos, ⟨hfile'.pos_eq, hfile'.currBlockPos_lt,
    fun j hj => ?_⟩, fun i => ?_⟩
  · rw [hfbuf, hinode, hbufs.eq_diskBlock hread hpos hindex hindex' hj]
  · rw [hbuf i]
    split_ifs with hin
    · rw [fileByte]
      refine hbufs.eq_diskBlock hread hpos ?_ ?_ (Nat.mod_lt _ hblock)
      · rw [Nat.le_div_iff_mul_le hblock, hpos.pos_eq]
        omega
      · rw [Nat.div_lt_iff_lt_mul hblock]
        omega
    · rfl

/-- The request that is left behind the end-of-file test, unless the sum in the test wraps. -/
theorem clip_eq {count : ℕ} (hle : file.pos ≤ file.inode.size) (hwrap : file.pos + count < 2 ^ 32) :
    (if file.inode.size < wadd file.pos count then wsub file.inode.size file.pos else count) =
      min count (file.inode.size - file.pos) := by
  rw [wadd_eq hwrap, wsub_eq hle (load32_lt _ _)]
  split_ifs <;> omega

/-- **One call of `ext2_read`** on a positioned file returns the clipped count, delivers that many
bytes of the file and leaves it positioned behind them. -/
theorem ext2Read_spec (buf : Memory) (count : ℕ)
    (hread : ∀ i < 12, DeliversBlock fs (file.inode.dbp i))
    (hpos : Positioned fs file) (hsize : file.inode.size < 12 * fs.blockSize)
    (hle : file.pos ≤ file.inode.size) (hwrap : file.pos + count < 2 ^ 32) :
    ∃ file' buf', ext2Read fs file buf count =
        .ok (file', buf', min count (file.inode.size - file.pos)) ∧
      file'.inode = file.inode ∧
      file'.pos = file.pos + min count (file.inode.size - file.pos) ∧ Positioned fs file' ∧
      ∀ i, buf' i = if i < min count (file.inode.size - file.pos) then
        fileByte fs file.inode (file.pos + i) else buf i := by
  have hsize32 : file.inode.size < 2 ^ 32 := load32_lt _ _
  obtain ⟨file', buf', hloop, hinode, hfpos, hfile', hbuf⟩ := ext2ReadLoop_spec
    16 (min count (file.inode.size - file.pos)) buf hread hpos hsize
    (by omega) le_rfl (by omega) (by omega)
  refine ⟨file', buf', ?_, hinode, hfpos, hfile', fun i => ?_⟩
  · simp only [ext2Read, clip_eq hle hwrap, hloop, except_ok_bind]
  · simpa using hbuf i

/-! ### Requests of any length -/

/-- `ext2_read` copies and returns the request clipped to the rest of the file, and changes no other
byte of the caller's buffer. -/
def ClipsRequest (fs : Ext2Fs) (file : Ext2File) (count : ℕ) : Prop :=
  ∃ content : ℕ → Byte, ∀ buf, ∃ file' buf',
    ext2Read fs file buf count = .ok (file', buf', min count (file.inode.size - file.pos)) ∧
      file'.pos = file.pos + min count (file.inode.size - file.pos) ∧
      ∀ i, buf' i = if i < min count (file.inode.size - file.pos) then content i else buf i

/-- A request that wraps the position is not clipped. -/
theorem returned_of_wrap {count returned : ℕ} {buf buf' : Memory} {file' : Ext2File}
    (hle : file.pos ≤ file.inode.size) (hcount : count < 2 ^ 32) (hwrap : 2 ^ 32 ≤ file.pos + count)
    (h : ext2Read fs file buf count = .ok (file', buf', returned)) : returned = count := by
  have hsum : wadd file.pos count ≤ file.inode.size := by
    have hsize32 : file.inode.size < 2 ^ 32 := load32_lt _ _
    rw [wadd]
    omega
  rw [ext2Read, if_neg (not_lt.mpr hsum)] at h
  obtain ⟨⟨file'', buf''⟩, -, h⟩ := except_bind_eq_ok.mp h
  exact (Prod.mk.inj (Prod.mk.inj (Except.ok.inj h)).2).2.symm

/-- **The requests that are clipped.** On every open file inside its direct blocks, and for every
32-bit request, `ext2_read` copies and returns the request clipped to the rest of the file exactly
when the request does not wrap the position. -/
theorem clipsRequest_iff {count : ℕ} (hplace : InPlace fs file) (hle : file.pos ≤ file.inode.size)
    (hsize : file.inode.size < 12 * fs.blockSize) (hcount : count < 2 ^ 32) :
    ClipsRequest fs file count ↔ file.pos + count < 2 ^ 32 := by
  have hsize32 : file.inode.size < 2 ^ 32 := load32_lt _ _
  constructor
  · rintro ⟨content, h⟩
    by_contra hwrap
    obtain ⟨file', buf', hcall, -⟩ := h fun _ => 0
    have := returned_of_wrap hle hcount (by omega) hcall
    omega
  · intro hwrap
    obtain ⟨bufs, hbufs⟩ := exists_blockBuffers fs file
    refine ⟨fun i => bufs ((file.pos + i) / fs.blockSize) ((file.pos + i) % fs.blockSize),
      fun buf => ?_⟩
    obtain ⟨file', buf', hloop, -, hpos, -, -, -, hbuf⟩ := ext2ReadLoop_walk
      16 (min count (file.inode.size - file.pos)) buf hbufs hplace hsize
      (by omega) le_rfl (by omega) (by omega)
    refine ⟨file', buf', ?_, hpos, fun i => ?_⟩
    · simp only [ext2Read, clip_eq hle hwrap, hloop, except_ok_bind]
    · simpa using hbuf i

end

/-! ### Sequences of calls -/

/-- What one call of `ext2_read` leaves: the file, the caller's buffer and the returned count. -/
structure ReadCall where
  file : Ext2File
  buf : Memory
  returned : ℕ

/-- The bytes that a call delivered. -/
def ReadCall.bytes (call : ReadCall) : List Byte := readBytes call.buf 0 call.returned

/-- The calls `ext2_read(file, buf, c)` for the lengths `c` of a list, one after the other. -/
def ext2Reads (fs : Ext2Fs) (buf : Memory) : Ext2File → List ℕ → Except Stop (List ReadCall)
  | _, [] => .ok []
  | file, c :: counts => do
    let (file, out, returned) ← ext2Read fs file buf c
    let calls ← ext2Reads fs buf file counts
    .ok (⟨file, out, returned⟩ :: calls)

/-- No request of a list wraps the position, which goes from `pos` at most to `size`. -/
def NoWrap (size : ℕ) : ℕ → List ℕ → Prop
  | _, [] => True
  | pos, c :: counts => pos + c < 2 ^ 32 ∧ NoWrap size (min (pos + c) size) counts

/-- Every call returns the request clipped to the rest of the file and leaves the file
positioned. -/
def CallsCorrect (fs : Ext2Fs) : Ext2File → List ℕ → List ReadCall → Prop
  | _, [], [] => True
  | file, c :: counts, call :: calls =>
    call.returned = min c (file.inode.size - file.pos) ∧ call.file.inode = file.inode ∧
      Positioned fs call.file ∧ CallsCorrect fs call.file counts calls
  | _, _, _ => False

theorem fileBytes_add (fs : Ext2Fs) (inode : Ext2Inode) (a n k : ℕ) :
    fileBytes fs inode a (n + k) = fileBytes fs inode a n ++ fileBytes fs inode (a + n) k := by
  simp [fileBytes, List.range_add, Function.comp_def, Nat.add_assoc]

/-- Any sequence of calls on a positioned file. -/
theorem ext2Reads_spec {fs : Ext2Fs} {file : Ext2File} (buf : Memory) {counts : List ℕ}
    (hread : ∀ i < 12, DeliversBlock fs (file.inode.dbp i)) (hpos : Positioned fs file)
    (hsize : file.inode.size < 12 * fs.blockSize) (hle : file.pos ≤ file.inode.size)
    (hwrap : NoWrap file.inode.size file.pos counts) :
    ∃ calls, ext2Reads fs buf file counts = .ok calls ∧
      (calls.map ReadCall.bytes).flatten =
        fileBytes fs file.inode file.pos (min counts.sum (file.inode.size - file.pos)) ∧
      CallsCorrect fs file counts calls := by
  induction counts generalizing file with
  | nil => exact ⟨[], rfl, by simp [fileBytes], trivial⟩
  | cons c counts ih =>
    obtain ⟨file', out, hcall, hinode, hfpos, hfile', hout⟩ :=
      ext2Read_spec buf c hread hpos hsize hle hwrap.1
    have hnext : file'.pos = min (file.pos + c) file.inode.size := by
      rw [hfpos]
      omega
    have hwrap' : NoWrap file'.inode.size file'.pos counts := by
      rw [hinode, hnext]
      exact hwrap.2
    obtain ⟨calls, hcalls, hbytes, hcorrect⟩ := ih (by rwa [hinode]) hfile' (by rwa [hinode])
      (by rw [hinode, hnext]; omega) hwrap'
    refine ⟨⟨file', out, min c (file.inode.size - file.pos)⟩ :: calls, ?_, ?_,
      rfl, hinode, hfile', hcorrect⟩
    · simp only [ext2Reads, hcall, except_ok_bind, hcalls]
    · have hhead : ReadCall.bytes ⟨file', out, min c (file.inode.size - file.pos)⟩ =
          fileBytes fs file.inode file.pos (min c (file.inode.size - file.pos)) := by
        refine List.map_congr_left fun i hi => ?_
        simp only [Nat.zero_add, hout, if_pos (List.mem_range.mp hi)]
      have hlen : min (c :: counts).sum (file.inode.size - file.pos) =
          min c (file.inode.size - file.pos) +
            min counts.sum (file.inode.size - file'.pos) := by
        rw [List.sum_cons, hfpos]
        omega
      rw [List.map_cons, List.flatten_cons, hhead, hbytes, hlen, fileBytes_add, hinode, ← hfpos]

/-- A freshly opened file is at its start and positioned. -/
theorem positioned_of_ext2OpenInode {fs : Ext2Fs} {stack fresh : Memory} {n : ℕ} {file : Ext2File}
    (hopen : ext2OpenInode fs stack fresh n = .ok file)
    (hread : DeliversBlock fs (file.inode.dbp 0)) (hblock : 0 < fs.blockSize) :
    file.pos = 0 ∧ Positioned fs file := by
  obtain ⟨inode, -, hopen⟩ := except_bind_eq_ok.mp hopen
  obtain ⟨block, hfirst, hopen⟩ := except_bind_eq_ok.mp hopen
  obtain rfl := Except.ok.inj hopen
  obtain ⟨block', hfirst', hbytes⟩ := hread fresh
  obtain rfl : block = block' := Except.ok.inj (hfirst.symm.trans hfirst')
  exact ⟨rfl, ⟨by simp, hblock, hbytes⟩⟩

/-- **Sequential reads are chunking-independent and correct.** On a freshly opened file with fewer
than `12 * block_size` bytes whose blocks `read_block` delivers, any list of requests that does not
wrap the position is served without a stop: the bytes delivered are the first bytes of the blocks
laid end to end, as many as were requested and the file has, and every call returns its clipped
request and leaves the file positioned. -/
theorem ext2Reads_sequential {fs : Ext2Fs} {stack fresh : Memory} {n : ℕ} {file : Ext2File}
    (hopen : ext2OpenInode fs stack fresh n = .ok file)
    (hread : ∀ i < 12, DeliversBlock fs (file.inode.dbp i))
    (hsize : file.inode.size < 12 * fs.blockSize) (buf : Memory) (counts : List ℕ)
    (hwrap : NoWrap file.inode.size 0 counts) :
    ∃ calls, ext2Reads fs buf file counts = .ok calls ∧
      (calls.map ReadCall.bytes).flatten =
        fileBytes fs file.inode 0 (min counts.sum file.inode.size) ∧
      CallsCorrect fs file counts calls := by
  obtain ⟨hzero, hpos⟩ := positioned_of_ext2OpenInode hopen (hread 0 (by decide)) (by omega)
  have hspec := ext2Reads_spec buf hread hpos hsize (by omega) (by rwa [hzero])
  simpa only [hzero, Nat.sub_zero] using hspec

/-! ### Blocks that the driver reaches -/

/-- `read_block` delivers every block whose bytes lie below `2 ^ 32`, for block sizes of up to 255
sectors. -/
theorem deliversBlock_of_lt {fs : Ext2Fs} {b : ℕ} (hmul : sectorSize ∣ fs.blockSize)
    (hsectors : fs.blockSize / sectorSize < 2 ^ 8) (hb : b * fs.blockSize < 2 ^ 32) :
    DeliversBlock fs b := by
  intro buf
  obtain ⟨k, hk⟩ := hmul
  have hpos : 0 < sectorSize := by decide
  have hk' : fs.blockSize / sectorSize = k := by rw [hk, Nat.mul_div_cancel_left k hpos]
  have hlba : b * fs.blockSize / sectorSize = b * k := by
    rw [hk, Nat.mul_left_comm, Nat.mul_div_cancel_left _ hpos]
  have hassert : (b * k) >>> 28 = 0 := by
    rw [Nat.shiftRight_eq_div_pow, ← hlba]
    simp only [sectorSize]
    omega
  refine ⟨blit buf 0 fs.blockSize fun i => fs.disk (b * k + i / sectorSize) (i % sectorSize), ?_,
    fun j hj => ?_⟩
  · have hlen : k % 2 ^ 8 * sectorSize = fs.blockSize := by
      rw [Nat.mod_eq_of_lt (hk' ▸ hsectors), Nat.mul_comm, ← hk]
    simp only [readBlock, readAbsSectors, wmul_eq hb, hlba, hassert, hk', hlen]
    rfl
  · rw [blit_apply_of_mem _ _ (by omega), diskBlock, diskByte, Nat.sub_zero, hk, Nat.mul_left_comm,
      Nat.mul_add_div hpos, Nat.mul_add_mod]

/-- For blocks of two sectors, `read_block` delivers the direct blocks of an inode whose bytes lie
below `2 ^ 32`. -/
theorem deliversBlock_dbp {fs : Ext2Fs} {inode : Ext2Inode} (hblock : fs.blockSize = 1024)
    (hdbp : ∀ i < 12, inode.dbp i * fs.blockSize < 2 ^ 32) :
    ∀ i < 12, DeliversBlock fs (inode.dbp i) :=
  fun i hi => deliversBlock_of_lt (hblock ▸ by decide) (hblock ▸ by decide) (hdbp i hi)

/-! ### A small filesystem -/

/-- The two directory entries `.` (inode 2) and `b` (inode 12), of twelve bytes each. -/
def sampleDir : List Byte :=
  [2, 0, 0, 0, 12, 0, 1, 2, 46, 0, 0, 0, 12, 0, 0, 0, 12, 0, 1, 1, 98, 0, 0, 0]

/-- A filesystem with 1024-byte blocks and 16 inodes per group. The inode table is block 5, and
inode 2 is a directory of 24 bytes in block 10, which holds `sampleDir`. -/
def sampleFs : Ext2Fs where
  disk lba o :=
    if lba = 10 then if o = 129 then 0x41 else if o = 132 then 24 else if o = 168 then 10 else 0
    else if lba = 20 then sampleDir.getD o 0 else 0
  superblock := ⟨fun a => if a = 40 then 16 else 0⟩
  bgdt a := if a = 8 then 5 else 0
  blockSize := 1024
  numGroups := 1

/-- The root directory of the small filesystem, opened. -/
theorem open_sampleFs : ∃ file,
    ext2OpenInode sampleFs (fun _ => 0) (fun _ => 0) 2 = .ok file ∧ file.inode.size = 24 ∧
      file.inode.size < 12 * sampleFs.blockSize ∧
      (∀ i < 12, DeliversBlock sampleFs (file.inode.dbp i)) ∧
      fileBytes sampleFs file.inode 0 file.inode.size = sampleDir := by
  obtain ⟨file, hopen, hsize, hdbp, hdir⟩ : ∃ file,
      ext2OpenInode sampleFs (fun _ => 0) (fun _ => 0) 2 = .ok file ∧ file.inode.size = 24 ∧
        (∀ i < 12, file.inode.dbp i * sampleFs.blockSize < 2 ^ 32) ∧
        fileBytes sampleFs file.inode 0 file.inode.size = sampleDir :=
    ⟨_, rfl, by decide +kernel, by decide +kernel, by decide +kernel⟩
  exact ⟨file, hopen, hsize, by rw [hsize]; decide, deliversBlock_dbp rfl hdbp, hdir⟩

/-- The 24 bytes of the sample directory in requests of 10 and 20 bytes. -/
theorem ext2Reads_sequential_sample : ∃ file,
    ext2OpenInode sampleFs (fun _ => 0) (fun _ => 0) 2 = .ok file ∧
      (∀ i < 12, DeliversBlock sampleFs (file.inode.dbp i)) ∧
      file.inode.size < 12 * sampleFs.blockSize ∧ NoWrap file.inode.size 0 [10, 20] ∧
      ∃ calls, ext2Reads sampleFs (fun _ => 0) file [10, 20] = .ok calls ∧
        (calls.map ReadCall.bytes).flatten = fileBytes sampleFs file.inode 0 24 := by
  obtain ⟨file, hopen, hsize, hlt, hread, -⟩ := open_sampleFs
  have hwrap : NoWrap file.inode.size 0 [10, 20] := by
    rw [hsize]
    exact ⟨by decide, by decide, trivial⟩
  obtain ⟨calls, hcalls, hbytes, -⟩ :=
    ext2Reads_sequential hopen hread hlt (fun _ => 0) [10, 20] hwrap
  rw [hsize] at hbytes
  exact ⟨file, hopen, hread, hlt, hwrap, calls, hcalls, hbytes⟩

/-- The root directory of the small filesystem after ten bytes have been read. -/
theorem exists_sample_at_ten : ∃ file, InPlace sampleFs file ∧ file.inode.size = 24 ∧
    file.pos = 10 := by
  obtain ⟨file, hopen, hsize, hlt, hread, -⟩ := open_sampleFs
  obtain ⟨hzero, hpos⟩ := positioned_of_ext2OpenInode hopen (hread 0 (by decide)) (by decide)
  obtain ⟨file', buf', -, hinode, hpos', hfile', -⟩ :=
    ext2Read_spec (fun _ => 0) 10 hread hpos hlt (by omega) (by omega)
  exact ⟨file', hfile'.inPlace, by rw [hinode, hsize], by rw [hpos', hzero, hsize]; rfl⟩

/-- A request of 20 bytes for the 14 that are left. -/
theorem clipsRequest_sample : ∃ file, InPlace sampleFs file ∧ file.pos ≤ file.inode.size ∧
    file.inode.size < 12 * sampleFs.blockSize ∧ ClipsRequest sampleFs file 20 := by
  obtain ⟨file, hplace, hsize, hpos⟩ := exists_sample_at_ten
  have hblock : sampleFs.blockSize = 1024 := rfl
  have hle : file.pos ≤ file.inode.size := by omega
  have hlt : file.inode.size < 12 * sampleFs.blockSize := by omega
  exact ⟨file, hplace, hle, hlt, (clipsRequest_iff hplace hle hlt (by decide)).mpr (by omega)⟩

/-- A request of `2 ^ 32 - 1` bytes for the 14 that are left is not clipped. -/
theorem large_request_not_clipped : ∃ file, InPlace sampleFs file ∧ file.pos ≤ file.inode.size ∧
    file.inode.size < 12 * sampleFs.blockSize ∧ ¬ClipsRequest sampleFs file (2 ^ 32 - 1) := by
  obtain ⟨file, hplace, hsize, hpos⟩ := exists_sample_at_ten
  have hblock : sampleFs.blockSize = 1024 := rfl
  refine ⟨file, hplace, by omega, by omega, fun ⟨content, h⟩ => ?_⟩
  obtain ⟨file', buf', hcall, -⟩ := h fun _ => 0
  have := returned_of_wrap (by omega) (by decide) (by omega) hcall
  omega

end Studix.Ext2
