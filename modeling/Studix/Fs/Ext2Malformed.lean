import Studix.Fs.Ext2Lookup
import Studix.Fs.Ext2Read

/-!
# Malformed directories

The lengths in a directory record come from the disk as they are. `ext2_next_dirent` takes the
header and the name out of `total_len` by an unsigned difference, and reads as many bytes into an
array of that size. The calls on a directory file, whatever its bytes, stay inside their
destinations and inside the file exactly as far as each record that the lengths lead to is as long
as its own header and name, and no end of a record wraps.

## Main definitions

* `DirentRead`, `ext2NextDirentReads`: a call with the reads it makes.
* `SafeCall`: a call returns, fits its destinations and goes forward inside the file.
* `heldBytes`: the bytes of a file as its buffer holds them.
* `LengthsFit`, `nextRecordPos`: the condition on a record, and where the next one begins.

## Main results

* `ext2NextDirentReads_map_snd`: the reads are recorded beside the call.
* `ext2NextDirentReads_spec`: a call at a record whose lengths fit, or at the end.
* `safeCall_iff`: the records at which a call is safe.
* `safeCalls_iff`: the directories on which all calls are safe.
-/

namespace Studix.Ext2

/-! ### Calls with their reads -/

/-- One read of `ext2_next_dirent`. -/
structure DirentRead where
  /-- The size of the destination: 0 where the difference of the lengths is negative. -/
  capacity : ℕ
  /-- The destination before and behind the read. -/
  before : Memory
  after : Memory
  copied : ℕ
  /-- The file that the read leaves. -/
  file : Ext2File

/-- A read copies no more bytes than the destination holds, changes none behind them, and does not
go past the end of the file. -/
structure DirentRead.Within (r : DirentRead) : Prop where
  copied_le : r.copied ≤ r.capacity
  after_eq : ∀ i, r.copied ≤ i → r.after i = r.before i
  pos_le : r.file.pos ≤ r.file.inode.size

/-- `ext2_next_dirent` with its reads in front of its result. -/
def ext2NextDirentReads (fs : Ext2Fs) (stack fresh : Memory) (file : Ext2File) :
    Except Stop (List DirentRead × Option Ext2Dirent × Ext2File) := do
  let (file, buf, got) ← ext2Read fs file stack readSize
  let reads : List DirentRead := [⟨readSize, stack, buf, got, file⟩]
  if got ≠ readSize then .ok (reads, none, file) else
  let inodeNum := load32 buf 0
  let totalLen := loadLE buf 4 2
  let nameLen := (buf 6).toNat
  let typeIndicator := (buf 7).toNat
  let size := nameLen + 1
  let (file, name, got) ← ext2Read fs file fresh (size - 1)
  let reads := reads ++ [⟨size - 1, fresh, name, got, file⟩]
  if got ≠ size - 1 then .ok (reads, none, file) else
  let name := Function.update name (size - 1) 0
  let dirent : Ext2Dirent := { inodeNum, totalLen, nameLen, typeIndicator, name }
  let bytesLeft := wsub totalLen (readSize + size - 1)
  if 0 < bytesLeft then do
    let (file, dummy, got) ← ext2Read fs file stack bytesLeft
    .ok (reads ++ [⟨totalLen - (readSize + size - 1), stack, dummy, got, file⟩], some dirent, file)
  else .ok (reads, some dirent, file)

/-- The reads are recorded beside what `ext2_next_dirent` does. -/
theorem ext2NextDirentReads_map_snd (fs : Ext2Fs) (stack fresh : Memory) (file : Ext2File) :
    (ext2NextDirentReads fs stack fresh file).map Prod.snd =
      ext2NextDirent fs stack fresh file := by
  rw [ext2NextDirentReads, ext2NextDirent]
  rcases ext2Read fs file stack readSize with e | ⟨file₁, buf, got⟩
  · rfl
  simp only [except_ok_bind]
  by_cases hgot : got = readSize
  · rw [if_neg (not_not.mpr hgot), if_neg (not_not.mpr hgot)]
    rcases ext2Read fs file₁ fresh ((buf 6).toNat + 1 - 1) with e | ⟨file₂, name, got₂⟩
    · rfl
    simp only [except_ok_bind]
    by_cases hgot₂ : got₂ = (buf 6).toNat + 1 - 1
    · rw [if_neg (not_not.mpr hgot₂), if_neg (not_not.mpr hgot₂)]
      split_ifs
      · rcases ext2Read fs file₂ stack
          (wsub (loadLE buf 4 2) (readSize + ((buf 6).toNat + 1) - 1)) with e | ⟨file₃, dummy, got₃⟩
        · rfl
        · rfl
      · rfl
    · rw [if_pos hgot₂, if_pos hgot₂]
      rfl
  · rw [if_pos hgot, if_pos hgot]
    rfl

/-- A call returns. It copies no more bytes than each of its destinations holds, stays inside the
file, and goes forward by at least eight bytes where it returns an entry. -/
def SafeCall (fs : Ext2Fs) (unset : Unset) (file : Ext2File) : Prop :=
  ∃ reads dirent file',
    ext2NextDirentReads fs unset.stack unset.fresh file = .ok (reads, dirent, file') ∧
    (∀ r ∈ reads, r.Within) ∧ file'.pos ≤ file'.inode.size ∧
    (dirent.isSome → file.pos + 8 ≤ file'.pos)

/-- The file that `i` calls of `ext2_next_dirent` leave, the first of which meets the unset memory
`unset k`. -/
def afterDirents (fs : Ext2Fs) (unset : ℕ → Unset) (k : ℕ) (file : Ext2File) :
    ℕ → Except Stop Ext2File
  | 0 => .ok file
  | i + 1 => do
    let (_, file) ← ext2NextDirent fs (unset k).stack (unset k).fresh file
    afterDirents fs unset (k + 1) file i

/-! ### Records as the buffer holds them -/

/-- The bytes of a file as its buffer holds them in each block. -/
def heldBytes (fs : Ext2Fs) (bufs : ℕ → Memory) : Memory :=
  fun i => bufs (i / fs.blockSize) (i % fs.blockSize)

/-- They are the bytes of the file where `read_block` delivers its blocks. -/
theorem heldBytes_eq_fileByte {fs : Ext2Fs} {file : Ext2File} {bufs : ℕ → Memory} {i : ℕ}
    (hbufs : BlockBuffers fs file bufs) (hread : ∀ i < 12, DeliversBlock fs (file.inode.dbp i))
    (hpos : Positioned fs file) (hzero : file.pos = 0) (hi : i < 12 * fs.blockSize) :
    heldBytes fs bufs i = fileByte fs file.inode i := by
  have hblock : 0 < fs.blockSize := Nat.zero_lt_of_lt hpos.currBlockPos_lt
  have hfirst : file.blockIndex = 0 := by
    have hmul : file.blockIndex * fs.blockSize = 0 := by
      have := hpos.pos_eq
      omega
    exact (Nat.mul_eq_zero.mp hmul).resolve_right hblock.ne'
  exact hbufs.eq_diskBlock hread hpos (hfirst ▸ Nat.zero_le _)
    ((Nat.div_lt_iff_lt_mul hblock).mpr hi) (Nat.mod_lt _ hblock)

/-- The field `name_len` of the record at a position. -/
def nameLenAt (m : Memory) (pos : ℕ) : ℕ := (m (pos + 6)).toNat

/-- The field `total_len` of the record at a position. -/
def totalLenAt (m : Memory) (pos : ℕ) : ℕ := loadLE m (pos + 4) 2

/-- The lengths of the record at a position, as far as it lies in the file: the record is as long as
its header and name, and the end of no part of it wraps. -/
structure LengthsFit (m : Memory) (size pos : ℕ) : Prop where
  header_lt : pos + readSize < 2 ^ 32
  name_lt : pos + readSize ≤ size → pos + readSize + nameLenAt m pos < 2 ^ 32
  le_totalLen : pos + readSize + nameLenAt m pos ≤ size →
    readSize + nameLenAt m pos ≤ totalLenAt m pos
  padding_lt : pos + readSize + nameLenAt m pos ≤ size → pos + totalLenAt m pos < 2 ^ 32

/-- Where the record behind the one at a position begins: the end of the file, if the record does
not lie in it. -/
def nextRecordPos (m : Memory) (size pos : ℕ) : ℕ :=
  if pos + readSize + nameLenAt m pos ≤ size then min (pos + totalLenAt m pos) size else size

/-- An open file inside its direct blocks whose buffer goes through `bufs`. -/
structure Buffered (fs : Ext2Fs) (bufs : ℕ → Memory) (file : Ext2File) : Prop where
  inPlace : InPlace fs file
  buffers : BlockBuffers fs file bufs
  pos_le : file.pos ≤ file.inode.size
  size_lt : file.inode.size < 12 * fs.blockSize

section

variable {fs : Ext2Fs} {bufs : ℕ → Memory} {file file' : Ext2File} {buf buf' : Memory}
  {count got : ℕ}

/-- **One call of `ext2_read`** on a buffered file, for a request that does not wrap the
position. -/
theorem Buffered.ext2Read (h : Buffered fs bufs file) (buf : Memory)
    (hwrap : file.pos + count < 2 ^ 32) :
    ∃ file' buf', ext2Read fs file buf count =
        .ok (file', buf', min count (file.inode.size - file.pos)) ∧
      file'.inode = file.inode ∧
      file'.pos = file.pos + min count (file.inode.size - file.pos) ∧ Buffered fs bufs file' ∧
      ∀ i, buf' i = if i < min count (file.inode.size - file.pos) then
        heldBytes fs bufs (file.pos + i) else buf i := by
  have hsize32 : file.inode.size < 2 ^ 32 := load32_lt _ _
  have hle := h.pos_le
  obtain ⟨file', buf', hloop, hinode, hpos, hplace, hfbuf, hindex, hbuf⟩ := ext2ReadLoop_walk
    16 (min count (file.inode.size - file.pos)) buf h.buffers h.inPlace h.size_lt
    (by omega) le_rfl (by omega) (by omega)
  have hbufs : BlockBuffers fs file' bufs := by
    refine ⟨hfbuf.symm, fun i hi hi12 => ?_⟩
    rw [hinode]
    exact h.buffers.next i (hindex.trans hi) hi12
  refine ⟨file', buf', ?_, hinode, hpos,
    ⟨hplace, hbufs, by rw [hinode]; omega, by rw [hinode]; exact h.size_lt⟩, fun i => ?_⟩
  · simp only [Ext2.ext2Read, clip_eq hle hwrap, hloop, except_ok_bind]
  · simpa [heldBytes] using hbuf i

/-- A loop of `ext2_read` that returns has moved the position on by the bytes it copied, modulo
`2 ^ 32`, and has stayed inside the block. -/
theorem pos_of_ext2ReadLoop {fuel bytesLeft : ℕ} (hcurr : file.currBlockPos < fs.blockSize)
    (hpos : file.pos < 2 ^ 32) (hleft : bytesLeft < 2 ^ 32)
    (h : ext2ReadLoop fs count fuel file buf bytesLeft = .ok (file', buf')) :
    file'.inode = file.inode ∧ file'.pos = (file.pos + bytesLeft) % 2 ^ 32 ∧
      file'.currBlockPos < fs.blockSize := by
  induction fuel generalizing file buf bytesLeft with
  | zero => cases h
  | succ fuel ih =>
    rw [ext2ReadLoop] at h
    by_cases hzero : bytesLeft = 0
    · rw [if_pos hzero] at h
      obtain ⟨rfl, rfl⟩ := Prod.mk.inj (Except.ok.inj h)
      exact ⟨rfl, by rw [hzero, Nat.add_zero, Nat.mod_eq_of_lt hpos], hcurr⟩
    rw [if_neg hzero] at h
    have hsum : wadd file.currBlockPos bytesLeft ≤ file.currBlockPos + bytesLeft := Nat.mod_le _ _
    by_cases hnew : fs.blockSize ≤ wadd file.currBlockPos bytesLeft
    · -- The copied part ends at the end of the block, inside the request.
      have hblock : fs.blockSize < 2 ^ 32 := hnew.trans_lt (wadd_lt _ _)
      have hcopy : wsub fs.blockSize file.currBlockPos = fs.blockSize - file.currBlockPos :=
        wsub_eq hcurr.le hblock
      have hleft' : wsub bytesLeft (fs.blockSize - file.currBlockPos) =
          bytesLeft - (fs.blockSize - file.currBlockPos) := wsub_eq (by omega) hleft
      simp only [if_pos hnew, hcopy, hleft'] at h
      split_ifs at h
      obtain ⟨block, -, h⟩ := except_bind_eq_ok.mp h
      obtain ⟨hinode, hfpos, hfcurr⟩ := ih (by simp only; omega) (wadd_lt _ _) (by omega) h
      refine ⟨hinode, ?_, hfcurr⟩
      rw [hfpos]
      simp only [wadd]
      omega
    · have hleft' : wsub bytesLeft bytesLeft = 0 := by rw [wsub_eq le_rfl hleft, Nat.sub_self]
      simp only [if_neg hnew, hleft'] at h
      obtain ⟨hinode, hfpos, hfcurr⟩ := ih (not_le.mp hnew) (wadd_lt _ _) (by decide) h
      refine ⟨hinode, ?_, hfcurr⟩
      rw [hfpos, Nat.add_zero, Nat.mod_eq_of_lt (wadd_lt _ _)]
      rfl

/-- The request that the end-of-file test of `ext2_read` leaves. -/
def served (size pos count : ℕ) : ℕ := if size < wadd pos count then wsub size pos else count

/-- A call of `ext2_read` that returns has copied the request that the end-of-file test leaves, and
has moved the position on by it. -/
theorem pos_of_ext2Read (hcurr : file.currBlockPos < fs.blockSize) (hpos : file.pos < 2 ^ 32)
    (hcount : count < 2 ^ 32) (h : ext2Read fs file buf count = .ok (file', buf', got)) :
    got = served file.inode.size file.pos count ∧ file'.inode = file.inode ∧
      file'.pos = (file.pos + got) % 2 ^ 32 ∧ file'.currBlockPos < fs.blockSize := by
  rw [Ext2.ext2Read] at h
  obtain ⟨⟨file'', buf''⟩, hloop, h⟩ := except_bind_eq_ok.mp h
  obtain ⟨rfl, hrest⟩ := Prod.mk.inj (Except.ok.inj h)
  obtain ⟨rfl, rfl⟩ := Prod.mk.inj hrest
  refine ⟨rfl, pos_of_ext2ReadLoop hcurr hpos ?_ hloop⟩
  split_ifs
  · exact wsub_lt _ _
  · exact hcount

end

/-! ### One call -/

section

variable {fs : Ext2Fs} {bufs : ℕ → Memory} {file file' : Ext2File} {stack fresh : Memory}
  {unset : Unset} {reads : List DirentRead} {dirent : Option Ext2Dirent}

/-- A read of a buffered file is within its destination, if the request is. -/
theorem DirentRead.Within.of_buffered {r : DirentRead} {count : ℕ} (hfile : Buffered fs bufs r.file)
    (hcopied : r.copied = min count (file.inode.size - file.pos)) (hcount : count ≤ r.capacity)
    (hafter : ∀ i, r.after i = if i < min count (file.inode.size - file.pos) then
      heldBytes fs bufs (file.pos + i) else r.before i) : r.Within :=
  ⟨by omega, fun i hi => by rw [hafter, if_neg (by omega)], hfile.pos_le⟩

/-- A call that reads a header, with the lengths `n` and `t`, and a name in full. -/
theorem ext2NextDirentReads_of_name {file₁ file₂ : Ext2File} {buf name : Memory} {n t : ℕ}
    (hcall₁ : ext2Read fs file stack readSize = .ok (file₁, buf, readSize))
    (hname : (buf 6).toNat = n) (htotal : loadLE buf 4 2 = t)
    (hcall₂ : ext2Read fs file₁ fresh n = .ok (file₂, name, n)) :
    ext2NextDirentReads fs stack fresh file =
      if 0 < wsub t (readSize + n) then do
        let (file₃, dummy, got) ← ext2Read fs file₂ stack (wsub t (readSize + n))
        .ok ([⟨readSize, stack, buf, readSize, file₁⟩, ⟨n, fresh, name, n, file₂⟩,
            ⟨t - (readSize + n), stack, dummy, got, file₃⟩],
          some ⟨load32 buf 0, t, n, (buf 7).toNat, Function.update name n 0⟩, file₃)
      else .ok ([⟨readSize, stack, buf, readSize, file₁⟩, ⟨n, fresh, name, n, file₂⟩],
        some ⟨load32 buf 0, t, n, (buf 7).toNat, Function.update name n 0⟩, file₂) := by
  rw [ext2NextDirentReads, hcall₁, except_ok_bind]
  simp only [ne_eq, not_true_eq_false, if_false]
  rw [hname, Nat.add_sub_cancel, hcall₂, except_ok_bind]
  simp only [not_true_eq_false, if_false]
  rw [htotal, ← Nat.add_assoc, Nat.add_sub_cancel]
  rfl

/-- **A call at a record whose lengths fit**, or at the end of the file: it stays within its
destinations and leaves the file in front of the next record. -/
theorem ext2NextDirentReads_spec (h : Buffered fs bufs file)
    (hfit : LengthsFit (heldBytes fs bufs) file.inode.size file.pos) (stack fresh : Memory) :
    ∃ reads dirent file', ext2NextDirentReads fs stack fresh file = .ok (reads, dirent, file') ∧
      (∀ r ∈ reads, r.Within) ∧ file'.inode = file.inode ∧
      file'.pos = nextRecordPos (heldBytes fs bufs) file.inode.size file.pos ∧
      Buffered fs bufs file' ∧ (dirent.isSome → file.pos + 8 ≤ file'.pos) := by
  have hle := h.pos_le
  have hsize32 : file.inode.size < 2 ^ 32 := load32_lt _ _
  obtain ⟨hheader_lt, hname_lt, hle_total, hpadding_lt⟩ := hfit
  set nameLen := nameLenAt (heldBytes fs bufs) file.pos with hnameLen
  set totalLen := totalLenAt (heldBytes fs bufs) file.pos with htotalLen
  rw [nextRecordPos, ← hnameLen, ← htotalLen]
  obtain ⟨file₁, buf, hcall₁, hinode₁, hpos₁, hfile₁, hbuf⟩ := h.ext2Read stack hheader_lt
  have hwithin₁ : DirentRead.Within
      ⟨readSize, stack, buf, min readSize (file.inode.size - file.pos), file₁⟩ :=
    .of_buffered hfile₁ rfl le_rfl hbuf
  by_cases hheader : file.pos + readSize ≤ file.inode.size
  swap
  · -- The header is cut off by the end of the file.
    refine ⟨_, none, file₁, ?_, List.forall_mem_singleton.mpr hwithin₁, hinode₁, ?_, hfile₁,
      fun hsome => by cases hsome⟩
    · rw [ext2NextDirentReads, hcall₁, except_ok_bind]
      exact if_pos (by omega)
    · rw [if_neg (by omega)]
      omega
  have hmin₁ : min readSize (file.inode.size - file.pos) = readSize := by omega
  rw [hmin₁] at hcall₁ hpos₁ hwithin₁ hbuf
  have htotal : loadLE buf 4 2 = totalLen := loadLE_eq_of_bytes fun i hi => by
    rw [hbuf, if_pos (by rw [readSize]; omega), Nat.add_assoc]
  have hname : (buf 6).toNat = nameLen := by rw [hbuf, if_pos (by decide), hnameLen, nameLenAt]
  obtain ⟨file₂, name, hcall₂, hinode₂, hpos₂, hfile₂, hname₂⟩ := hfile₁.ext2Read fresh
    (show file₁.pos + nameLen < 2 ^ 32 by rw [hpos₁]; exact hname_lt hheader)
  have hwithin₂ : DirentRead.Within
      ⟨nameLen, fresh, name, min nameLen (file₁.inode.size - file₁.pos), file₂⟩ :=
    .of_buffered hfile₂ rfl le_rfl hname₂
  rw [hinode₁] at hcall₂ hpos₂ hinode₂ hwithin₂
  have hreads₂ := List.forall_mem_cons.mpr ⟨hwithin₁, List.forall_mem_singleton.mpr hwithin₂⟩
  by_cases hnamed : file.pos + readSize + nameLen ≤ file.inode.size
  swap
  · -- The name is cut off.
    refine ⟨_, none, file₂, ?_, hreads₂, hinode₂, ?_, hfile₂, fun hsome => by cases hsome⟩
    · rw [ext2NextDirentReads, hcall₁, except_ok_bind]
      simp only [ne_eq, not_true_eq_false, if_false]
      rw [hname, Nat.add_sub_cancel, hcall₂, except_ok_bind]
      exact if_pos (show min nameLen (file.inode.size - file₁.pos) ≠ nameLen by omega)
    · rw [if_neg hnamed]
      omega
  have hmin₂ : min nameLen (file.inode.size - file₁.pos) = nameLen := by omega
  rw [hmin₂] at hcall₂ hpos₂ hreads₂
  have hlong := hle_total hnamed
  have hlt := hpadding_lt hnamed
  have hleft : wsub totalLen (readSize + nameLen) = totalLen - (readSize + nameLen) :=
    wsub_eq hlong (by omega)
  have hcall : ext2NextDirentReads fs stack fresh file = _ :=
    ext2NextDirentReads_of_name hcall₁ hname htotal hcall₂
  rw [hleft] at hcall
  rw [if_pos hnamed]
  rcases Nat.eq_or_lt_of_le hlong with hnone | hpad
  · -- There is nothing behind the name.
    rw [if_neg (by omega)] at hcall
    refine ⟨_, _, file₂, hcall, hreads₂, hinode₂, by omega, hfile₂, fun _ => ?_⟩
    simp only [readSize] at hpos₁
    omega
  · obtain ⟨file₃, dummy, hcall₃, hinode₃, hpos₃, hfile₃, hdummy⟩ := hfile₂.ext2Read stack
      (show file₂.pos + (totalLen - (readSize + nameLen)) < 2 ^ 32 by omega)
    have hwithin₃ : DirentRead.Within
        ⟨totalLen - (readSize + nameLen), stack, dummy,
          min (totalLen - (readSize + nameLen)) (file₂.inode.size - file₂.pos), file₃⟩ :=
      .of_buffered hfile₃ rfl le_rfl hdummy
    rw [hinode₂] at hpos₃ hinode₃
    rw [if_pos (by omega), hcall₃, except_ok_bind] at hcall
    refine ⟨_, _, file₃, hcall,
      List.forall_mem_append.mpr ⟨hreads₂, List.forall_mem_singleton.mpr hwithin₃⟩, hinode₃,
      by omega, hfile₃, fun _ => ?_⟩
    simp only [readSize] at hpos₁
    omega

/-- What is known of a call that returns: the requests that the end-of-file tests leave, and the
positions modulo `2 ^ 32`, for the lengths `n` and `t` in the header that was read. -/
theorem exists_served (h : Buffered fs bufs file)
    (hcall : ext2NextDirentReads fs stack fresh file = .ok (reads, dirent, file')) :
    ∃ n t, n < 2 ^ 8 ∧ t < 2 ^ 16 ∧
      (file.pos + readSize < 2 ^ 32 → file.pos + readSize ≤ file.inode.size →
        nameLenAt (heldBytes fs bufs) file.pos = n ∧ totalLenAt (heldBytes fs bufs) file.pos = t) ∧
      (served file.inode.size file.pos readSize = readSize →
        ∃ pos₁, pos₁ = (file.pos + readSize) % 2 ^ 32 ∧
        (served file.inode.size pos₁ n = n →
          dirent.isSome ∧ ∃ pos₂, pos₂ = (pos₁ + n) % 2 ^ 32 ∧
            (wsub t (readSize + n) = 0 ∧ file'.pos = pos₂ ∨
              file'.pos = (pos₂ + served file.inode.size pos₂ (wsub t (readSize + n))) % 2 ^ 32 ∧
                ∃ r ∈ reads, r.capacity = t - (readSize + n) ∧
                  r.copied = served file.inode.size pos₂ (wsub t (readSize + n))))) := by
  have hle := h.pos_le
  have hsize32 : file.inode.size < 2 ^ 32 := load32_lt _ _
  obtain ⟨⟨file₁, buf, got₁⟩, hread₁, hcall⟩ := except_bind_eq_ok.mp hcall
  refine ⟨(buf 6).toNat, loadLE buf 4 2, (buf 6).isLt, loadLE_lt _ _ _, fun hwrap hheader => ?_,
    fun hserved₁ => ⟨_, rfl, fun hserved₂ => ?_⟩⟩
  · obtain ⟨file', buf', hread', -, -, -, hbuf⟩ := h.ext2Read stack hwrap
    obtain ⟨rfl, hrest⟩ := Prod.mk.inj (Except.ok.inj (hread₁.symm.trans hread'))
    obtain ⟨rfl, -⟩ := Prod.mk.inj hrest
    have hmin : min readSize (file.inode.size - file.pos) = readSize := by omega
    refine ⟨by rw [hbuf, hmin, if_pos (by decide), nameLenAt],
      (loadLE_eq_of_bytes fun i hi => ?_).symm⟩
    rw [hbuf, hmin, if_pos (by rw [readSize]; omega), Nat.add_assoc]
  obtain ⟨rfl, hinode₁, hpos₁, hcurr₁⟩ :=
    pos_of_ext2Read h.inPlace.currBlockPos_lt (by omega) (by decide) hread₁
  have hpos₁_lt : file₁.pos < 2 ^ 32 := by rw [hpos₁]; exact Nat.mod_lt _ (by decide)
  simp only [ne_eq, hserved₁, not_true_eq_false, if_false, ← Nat.add_assoc,
    Nat.add_sub_cancel] at hcall
  rw [hserved₁] at hpos₁
  obtain ⟨⟨file₂, name, got₂⟩, hread₂, hcall⟩ := except_bind_eq_ok.mp hcall
  obtain ⟨rfl, hinode₂, hpos₂, hcurr₂⟩ :=
    pos_of_ext2Read hcurr₁ hpos₁_lt ((buf 6).isLt.trans (by decide)) hread₂
  have hpos₂_lt : file₂.pos < 2 ^ 32 := by rw [hpos₂]; exact Nat.mod_lt _ (by decide)
  rw [← hpos₁, ← hinode₁] at hserved₂
  simp only [hserved₂, not_true_eq_false, if_false] at hcall
  rw [hserved₂] at hpos₂
  rw [← hpos₁, ← hpos₂]
  split_ifs at hcall with hleft
  · obtain ⟨⟨file₃, dummy, got₃⟩, hread₃, hcall⟩ := except_bind_eq_ok.mp hcall
    obtain ⟨rfl, rfl, rfl⟩ : _ ∧ _ ∧ _ := by
      simpa only [Except.ok.injEq, Prod.mk.injEq] using hcall
    obtain ⟨rfl, -, hpos₃, -⟩ := pos_of_ext2Read hcurr₂ hpos₂_lt (wsub_lt _ _) hread₃
    rw [hinode₂, hinode₁] at hpos₃
    refine ⟨rfl, _, rfl,
      .inr ⟨hpos₃, _, List.mem_append_right _ (List.mem_singleton.mpr rfl), rfl, ?_⟩⟩
    rw [hinode₂, hinode₁]
  · obtain ⟨rfl, rfl, rfl⟩ : _ ∧ _ ∧ _ := by
      simpa only [Except.ok.injEq, Prod.mk.injEq] using hcall
    exact ⟨rfl, _, rfl, .inl ⟨by omega, rfl⟩⟩

/-- The record at which a call is safe has lengths that fit. -/
theorem LengthsFit.of_safeCall (h : Buffered fs bufs file) (hsafe : SafeCall fs unset file) :
    LengthsFit (heldBytes fs bufs) file.inode.size file.pos := by
  obtain ⟨reads, dirent, file', hcall, hwithin, hend, hadvance⟩ := hsafe
  have hle := h.pos_le
  have hsize32 : file.inode.size < 2 ^ 32 := load32_lt _ _
  have hsize32' : file'.inode.size < 2 ^ 32 := load32_lt _ _
  obtain ⟨n, t, hn, ht, hlengths, hserved⟩ := exists_served h hcall
  have hread : readSize = 8 := rfl
  have hheader : file.pos + readSize < 2 ^ 32 := by
    by_contra hwrap
    obtain ⟨pos₁, hpos₁, hserved⟩ := hserved (if_neg (by rw [wadd]; omega))
    obtain ⟨hsome, -⟩ := hserved (if_neg (by rw [wadd]; omega))
    have := hadvance hsome
    omega
  refine ⟨hheader, fun hin => ?_, fun hin => ?_, fun hin => ?_⟩
  · obtain ⟨rfl, rfl⟩ := hlengths hheader (by omega)
    by_contra hwrap
    obtain ⟨pos₁, hpos₁, hserved⟩ := hserved (if_neg (by rw [wadd]; omega))
    obtain ⟨hsome, pos₂, hpos₂, hlast⟩ := hserved (if_neg (by rw [wadd]; omega))
    have hforward := hadvance hsome
    rcases hlast with ⟨-, hlast⟩ | ⟨hlast, r, hr, hcapacity, hcopied⟩
    · omega
    · have hfits := (hwithin r hr).copied_le
      rw [hcopied, hcapacity] at hfits
      simp only [served, wadd, wsub] at hlast hfits
      split_ifs at hlast hfits <;> omega
  · obtain ⟨rfl, rfl⟩ := hlengths hheader (by omega)
    obtain ⟨pos₁, hpos₁, hserved⟩ := hserved (if_neg (by rw [wadd]; omega))
    obtain ⟨-, pos₂, hpos₂, hlast⟩ := hserved (if_neg (by rw [wadd]; omega))
    by_contra hshort
    rcases hlast with ⟨hnone, -⟩ | ⟨-, r, hr, hcapacity, hcopied⟩
    · simp only [wsub] at hnone
      omega
    · have hfits := (hwithin r hr).copied_le
      -- The difference wraps, and with it the sum in the end-of-file test.
      rw [hcopied, hcapacity, wsub_eq_of_lt (by omega) (by omega), served, wadd,
        if_neg (by omega)] at hfits
      omega
  · obtain ⟨rfl, rfl⟩ := hlengths hheader (by omega)
    obtain ⟨pos₁, hpos₁, hserved⟩ := hserved (if_neg (by rw [wadd]; omega))
    obtain ⟨hsome, pos₂, hpos₂, hlast⟩ := hserved (if_neg (by rw [wadd]; omega))
    have hforward := hadvance hsome
    by_contra hwrap
    have hlong : readSize + nameLenAt (heldBytes fs bufs) file.pos ≤
        totalLenAt (heldBytes fs bufs) file.pos := by omega
    rw [wsub_eq hlong (by omega)] at hlast
    rcases hlast with ⟨hnone, hlast⟩ | ⟨hlast, -⟩
    · omega
    · rw [served, wadd, if_neg (by omega)] at hlast
      omega

/-- **The records at which a call is safe** are those whose lengths fit. -/
theorem safeCall_iff (h : Buffered fs bufs file) :
    SafeCall fs unset file ↔ LengthsFit (heldBytes fs bufs) file.inode.size file.pos := by
  refine ⟨.of_safeCall h, fun hfit => ?_⟩
  obtain ⟨reads, dirent, file', hcall, hreads, -, -, hfile', hadvance⟩ :=
    ext2NextDirentReads_spec h hfit unset.stack unset.fresh
  exact ⟨reads, dirent, file', hcall, hreads, hfile'.pos_le, hadvance⟩

/-! ### All calls -/

/-- The calls on a buffered file are safe as far as the lengths of the records from its position on
fit. -/
theorem Buffered.forall_safeCall_iff {unset : ℕ → Unset} (h : Buffered fs bufs file) (k m : ℕ) :
    (∀ i < m, ∀ file', afterDirents fs unset k file i = .ok file' →
        SafeCall fs (unset (k + i)) file') ↔
      ∀ i < m, LengthsFit (heldBytes fs bufs) file.inode.size
        ((nextRecordPos (heldBytes fs bufs) file.inode.size)^[i] file.pos) := by
  -- Induction on the number of calls: a call that is safe leaves a buffered file in front of the
  -- next record.
  induction m generalizing k file with
  | zero => simp
  | succ m ih =>
    have hfirst : (∀ file', afterDirents fs unset k file 0 = .ok file' →
        SafeCall fs (unset (k + 0)) file') ↔
          LengthsFit (heldBytes fs bufs) file.inode.size file.pos := by
      rw [← safeCall_iff h]
      exact ⟨fun hsafe => hsafe file rfl, fun hsafe file' hfile' => Except.ok.inj hfile' ▸ hsafe⟩
    rw [Nat.forall_lt_succ_left, Nat.forall_lt_succ_left, hfirst]
    refine and_congr_right fun hfit => ?_
    obtain ⟨reads, dirent, file₁, hcall, -, hinode, hpos, hfile₁, -⟩ :=
      ext2NextDirentReads_spec h hfit (unset k).stack (unset k).fresh
    have hcall' : ext2NextDirent fs (unset k).stack (unset k).fresh file = .ok (dirent, file₁) := by
      rw [← ext2NextDirentReads_map_snd, hcall]
      rfl
    have hafter : ∀ i,
        afterDirents fs unset k file (i + 1) = afterDirents fs unset (k + 1) file₁ i := by
      intro i
      rw [afterDirents, hcall', except_ok_bind]
    have hrest := ih hfile₁ (k + 1)
    rw [hinode, hpos] at hrest
    simpa only [hafter, Function.iterate_succ_apply, Nat.add_assoc, Nat.add_comm 1] using hrest

/-- **The directories on which all calls are safe.** On a freshly opened file of fewer than
`12 * block_size` bytes, whatever they are, every one of the first `m` calls of `ext2_next_dirent`
returns, fits its destinations, stays inside the file and goes forward with each entry, exactly when
each of the first `m` records that the lengths lead to has lengths that fit. -/
theorem safeCalls_iff {stack₀ fresh₀ : Memory} {n : ℕ}
    (hopen : ext2OpenInode fs stack₀ fresh₀ n = .ok file) (hbufs : BlockBuffers fs file bufs)
    (hsize : file.inode.size < 12 * fs.blockSize) (unset : ℕ → Unset) (m : ℕ) :
    (∀ i < m, ∀ file', afterDirents fs unset 0 file i = .ok file' → SafeCall fs (unset i) file') ↔
      ∀ i < m, LengthsFit (heldBytes fs bufs) file.inode.size
        ((nextRecordPos (heldBytes fs bufs) file.inode.size)^[i] 0) := by
  obtain ⟨inode, -, hrest⟩ := except_bind_eq_ok.mp hopen
  obtain ⟨block, -, hrest⟩ := except_bind_eq_ok.mp hrest
  obtain rfl := Except.ok.inj hrest
  have hbuffered : Buffered fs bufs ⟨inode, 0, 0, block, 0⟩ :=
    ⟨⟨by simp, by simp only at hsize ⊢; omega⟩, hbufs, Nat.zero_le _, hsize⟩
  simpa only [Nat.zero_add] using hbuffered.forall_safeCall_iff 0 m

end

/-! ### Samples -/

/-- The lengths of the two records of the sample directory, and of the end behind them. -/
theorem lengthsFit_sampleDir {m : Memory} (hm : ∀ i < 24, m i = sampleDir.getD i 0) :
    ∀ i < 3, LengthsFit m 24 ((nextRecordPos m 24)^[i] 0) := by
  have hname : nameLenAt m 0 = 1 ∧ nameLenAt m 12 = 1 := by
    rw [nameLenAt, nameLenAt, hm _ (by decide), hm _ (by decide)]
    decide
  have htotal : totalLenAt m 0 = 12 ∧ totalLenAt m 12 = 12 := by
    have hload : ∀ pos ≤ 18, totalLenAt m pos =
        loadLE (fun i => sampleDir.getD i 0) (pos + 4) 2 := fun pos hpos =>
      loadLE_congr fun i hi => hm i (by have := Set.mem_Ico.mp hi; omega)
    rw [hload 0 (by decide), hload 12 (by decide)]
    decide
  have hsecond : nextRecordPos m 24 0 = 12 := by
    rw [nextRecordPos, hname.1, htotal.1]
    decide
  have hend : nextRecordPos m 24 12 = 24 := by
    rw [nextRecordPos, hname.2, htotal.2]
    decide
  intro i hi
  interval_cases i <;> simp only [Function.iterate_succ_apply, Function.iterate_zero_apply, hsecond,
    hend]
  · exact ⟨by decide, fun _ => by rw [hname.1]; decide, fun _ => by rw [hname.1, htotal.1]; decide,
      fun _ => by rw [htotal.1]; decide⟩
  · exact ⟨by decide, fun _ => by rw [hname.2]; decide, fun _ => by rw [hname.2, htotal.2]; decide,
      fun _ => by rw [htotal.2]; decide⟩
  · have hbehind : ¬24 + readSize ≤ 24 := by decide
    exact ⟨by decide, fun h => absurd h hbehind, fun h => absurd (by omega) hbehind,
      fun h => absurd (by omega) hbehind⟩

/-- Three calls on the sample directory are safe. -/
theorem safeCalls_iff_sample : ∃ file,
    ext2OpenInode sampleFs (fun _ => 0) (fun _ => 0) 2 = .ok file ∧ file.inode.size = 24 ∧
      ∀ i < 3, ∀ file',
        afterDirents sampleFs (fun _ => ⟨fun _ => 0, fun _ => 0⟩) 0 file i = .ok file' →
        SafeCall sampleFs ⟨fun _ => 0, fun _ => 0⟩ file' := by
  obtain ⟨file, hopen, hsize, hlt, hread, hdir⟩ := open_sampleFs
  obtain ⟨bufs, hbufs⟩ := exists_blockBuffers sampleFs file
  obtain ⟨hzero, hpos⟩ := positioned_of_ext2OpenInode hopen (hread 0 (by decide)) (by decide)
  refine ⟨file, hopen, hsize, (safeCalls_iff hopen hbufs hlt _ 3).mpr ?_⟩
  rw [hsize] at hdir ⊢
  refine lengthsFit_sampleDir fun i hi => ?_
  rw [heldBytes_eq_fileByte hbufs hread hpos hzero (by simp only [sampleFs]; omega), ← hdir,
    fileBytes, List.getD_eq_getElem _ _ (by simpa using hi), List.getElem_map, List.getElem_range,
    Nat.zero_add]

/-- The small filesystem with a directory of 24 bytes whose first record, of the name `.`, has the
length 0. -/
def zeroLengthFs : Ext2Fs :=
  { sampleFs with
    disk := fun lba o =>
      if lba = 20 then [2, 0, 0, 0, 0, 0, 1, 2, 46].getD o 0 else sampleFs.disk lba o }

/-- The first call on that directory copies `2 ^ 32 - 9` bytes where there is room for none, and
goes back to the start of the file. -/
theorem zero_length_not_safe : ∃ file,
    ext2OpenInode zeroLengthFs (fun _ => 0) (fun _ => 0) 2 = .ok file ∧
      file.inode.size < 12 * zeroLengthFs.blockSize ∧
      (∃ reads dirent file',
        ext2NextDirentReads zeroLengthFs (fun _ => 0) (fun _ => 0) file =
            .ok (reads, dirent, file') ∧
          (∃ r ∈ reads, r.capacity = 0 ∧ r.copied = 2 ^ 32 - 9) ∧ file'.pos = 0) ∧
      ¬∀ i < 1, ∀ file',
        afterDirents zeroLengthFs (fun _ => ⟨fun _ => 0, fun _ => 0⟩) 0 file i = .ok file' →
        SafeCall zeroLengthFs ⟨fun _ => 0, fun _ => 0⟩ file' := by
  obtain ⟨file, hopen, hsize, hreturns⟩ : ∃ file,
      ext2OpenInode zeroLengthFs (fun _ => 0) (fun _ => 0) 2 = .ok file ∧ file.inode.size = 24 ∧
        returns (ext2NextDirentReads zeroLengthFs (fun _ => 0) (fun _ => 0) file) (fun res =>
          res.1.any (fun r => r.capacity == 0 && r.copied == 2 ^ 32 - 9) &&
            res.2.2.pos == 0) = true :=
    ⟨_, rfl, by decide +kernel, by decide +kernel⟩
  obtain ⟨⟨reads, dirent, file'⟩, hcall, htest⟩ := exists_of_returns hreturns
  simp only [Bool.and_eq_true, List.any_eq_true, beq_iff_eq] at htest
  obtain ⟨⟨r, hr, hcapacity, hcopied⟩, hpos⟩ := htest
  refine ⟨file, hopen, by rw [hsize]; decide,
    ⟨reads, dirent, file', hcall, ⟨r, hr, hcapacity, hcopied⟩, hpos⟩, fun hsafe => ?_⟩
  obtain ⟨reads', dirent', file'', hcall', hwithin, -⟩ := hsafe 0 (by decide) file rfl
  obtain ⟨rfl, -⟩ := Prod.mk.inj (Except.ok.inj (hcall.symm.trans hcall'))
  have hle := (hwithin r hr).copied_le
  omega

end Studix.Ext2
