import Studix.Fs.Ext2Vfs

/-!
# Ext2 files behind the virtual filesystem

`ext2_vfs_read` of `src/fs/ext2_vfs.c` cannot seek: it stops the kernel unless the offset it is
given is the position of the open file. `ext2_read` refills its buffer as soon as a block is used
up, so it stops the kernel when a read comes to the end of the twelfth block, also where the file
ends there and nothing of an indirect block is asked for.

The size of the file takes part in a read only by the end-of-file test. The loop of `ext2_read`
therefore does the same on an inode with another size, which carries what is known of files inside
their direct blocks over to files of any size.

## Main definitions

* `Ext2Inode.withSize`: an inode with another size.
* `ext2VfsRead`, `readNodeCalls`: reads of an opened node, one after the other.
* `InOrder`: every read is at the position that the reads before it left.

## Main results

* `ext2Read_within`, `ext2Read_panic`: one call, on files of any size.
* `readNodeCalls_iff`: the sequences of reads that return, and what they return.
-/

namespace Studix.Ext2

open Vfs

/-! ### Files of any size -/

/-- An inode with another size. -/
def Ext2Inode.withSize (inode : Ext2Inode) (size : ℕ) : Ext2Inode := ⟨store32 inode.raw 4 size⟩

@[simp] theorem Ext2Inode.dbp_withSize (inode : Ext2Inode) (size i : ℕ) :
    (inode.withSize size).dbp i = inode.dbp i :=
  load32_store32_of_disjoint (by omega)

theorem Ext2Inode.size_withSize (inode : Ext2Inode) {size : ℕ} (h : size < 2 ^ 32) :
    (inode.withSize size).size = size :=
  load32_store32 h

/-- What a panic at the end of the direct blocks says. -/
def indirectPanic : Stop := .panic "Indirect block pointers are currently unsupported"

section

variable {fs : Ext2Fs} {file : Ext2File} {buf : Memory} {bytesLeft count fuel : ℕ}

/-- The loop of `ext2_read` does not look at the size of the file. -/
theorem ext2ReadLoop_withSize (fs : Ext2Fs) (count size fuel : ℕ) (file : Ext2File) (buf : Memory)
    (bytesLeft : ℕ) :
    ext2ReadLoop fs count fuel file buf bytesLeft =
      (ext2ReadLoop fs count fuel { file with inode := file.inode.withSize size } buf bytesLeft).map
        fun r => ({ r.1 with inode := file.inode }, r.2) := by
  induction fuel generalizing file buf bytesLeft with
  | zero => rfl
  | succ fuel ih =>
    rw [ext2ReadLoop, ext2ReadLoop]
    simp only [Ext2Inode.dbp_withSize]
    split_ifs
    · rfl
    · rfl
    · rcases readBlock fs _ file.buf with e | block
      · rfl
      · exact ih _ _ _
    · exact ih _ _ _

/-- The loop of `ext2_read` up to a position inside the direct blocks. -/
theorem ext2ReadLoop_within (buf : Memory) (hread : ∀ i < 12, DeliversBlock fs (file.inode.dbp i))
    (hpos : Positioned fs file) (hend : file.pos + count < 12 * fs.blockSize)
    (hend32 : file.pos + count < 2 ^ 32) :
    ∃ file' buf', ext2ReadLoop fs count 16 file buf count = .ok (file', buf') ∧
      file'.inode = file.inode ∧ file'.pos = file.pos + count ∧ Positioned fs file' ∧
      ∀ i, buf' i = if i < count then fileByte fs file.inode (file.pos + i) else buf i := by
  obtain ⟨sized, hsized⟩ : ∃ f : Ext2File,
      f = { file with inode := file.inode.withSize (file.pos + count) } := ⟨_, rfl⟩
  have hinode : sized.inode = file.inode.withSize (file.pos + count) := by rw [hsized]
  have hfpos : sized.pos = file.pos := by rw [hsized]
  have hdbp : sized.inode.dbp = file.inode.dbp := by
    rw [hinode]
    exact funext (Ext2Inode.dbp_withSize _ _)
  have hsize : sized.inode.size = file.pos + count := by
    rw [hinode, Ext2Inode.size_withSize _ hend32]
  have hplace : Positioned fs sized := by
    refine ⟨by simpa [hsized] using hpos.pos_eq, by simpa [hsized] using hpos.currBlockPos_lt, ?_⟩
    rw [hdbp]
    simpa [hsized] using hpos.buf_eq
  obtain ⟨f, buf', hloop, hfinode, hpos', hplace', hbuf⟩ := ext2ReadLoop_spec 16 count buf
    (by rwa [hdbp]) hplace (by rw [hsize]; exact hend) (by rw [hsize, hfpos]) le_rfl (by omega)
    (by omega)
  refine ⟨{ f with inode := file.inode }, buf', ?_, rfl, by rw [← hfpos, ← hpos'], ?_, fun i => ?_⟩
  · rw [ext2ReadLoop_withSize fs count (file.pos + count), ← hsized, hloop]
    rfl
  · refine ⟨hplace'.pos_eq, hplace'.currBlockPos_lt, ?_⟩
    have hblock := hplace'.buf_eq
    rwa [hfinode, hdbp] at hblock
  · simpa only [Nat.sub_self, Nat.zero_le, true_and, Nat.sub_zero, fileByte, hdbp, hfpos]
      using hbuf i

/-- A loop that comes to the end of the twelfth block stops the kernel there. -/
theorem ext2ReadLoop_panic (hplace : InPlace fs file) (hindex : file.blockIndex < 12)
    (hend : 12 * fs.blockSize ≤ file.pos + bytesLeft) (hend32 : file.pos + bytesLeft < 2 ^ 32)
    (hfuel : 14 ≤ fuel + file.blockIndex) :
    ext2ReadLoop fs count fuel file buf bytesLeft = .error indirectPanic := by
  -- Induction on the fuel: every iteration fills up its block, until the block is the twelfth.
  induction fuel generalizing file buf bytesLeft with
  | zero => omega
  | succ fuel ih =>
    have hpos := hplace.pos_eq
    have hcurr := hplace.currBlockPos_lt
    have hblocks : (file.blockIndex + 1) * fs.blockSize ≤ 12 * fs.blockSize :=
      Nat.mul_le_mul_right _ hindex
    rw [Nat.succ_mul] at hblocks
    have hnew : fs.blockSize ≤ wadd file.currBlockPos bytesLeft := by
      rw [wadd_eq (by omega)]
      omega
    have hcopy : wsub fs.blockSize file.currBlockPos = fs.blockSize - file.currBlockPos :=
      wsub_eq hcurr.le (by omega)
    have hmod : (file.blockIndex + 1) % 2 ^ 8 = file.blockIndex + 1 := by omega
    rw [ext2ReadLoop, if_neg (by omega)]
    simp only [if_pos hnew, hcopy, hmod]
    split_ifs with hlast
    · rfl
    · obtain ⟨block, hblock⟩ := exists_readBlock fs (file.inode.dbp (file.blockIndex + 1)) file.buf
      have hpos' : wadd file.pos (fs.blockSize - file.currBlockPos) =
          (file.blockIndex + 1) * fs.blockSize := by
        rw [wadd_eq (by omega), Nat.succ_mul]
        omega
      have hleft' : wsub bytesLeft (fs.blockSize - file.currBlockPos) =
          bytesLeft - (fs.blockSize - file.currBlockPos) := wsub_eq (by omega) (by omega)
      rw [hblock, except_ok_bind, hpos', hleft']
      refine ih ⟨rfl, by simp only; omega⟩ (by simp only; omega) ?_ ?_ (by simp only; omega)
      · simp only [Nat.succ_mul]
        omega
      · simp only [Nat.succ_mul]
        omega

/-- **One call of `ext2_read`** that ends inside the direct blocks of a file of any size. -/
theorem ext2Read_within (buf : Memory) (hread : ∀ i < 12, DeliversBlock fs (file.inode.dbp i))
    (hpos : Positioned fs file) (hle : file.pos ≤ file.inode.size)
    (hwrap : file.pos + count < 2 ^ 32)
    (hend : min (file.pos + count) file.inode.size < 12 * fs.blockSize) :
    ∃ file' buf', ext2Read fs file buf count =
        .ok (file', buf', min count (file.inode.size - file.pos)) ∧
      file'.inode = file.inode ∧ file'.pos = min (file.pos + count) file.inode.size ∧
      Positioned fs file' ∧
      readBytes buf' 0 (min count (file.inode.size - file.pos)) =
        fileBytes fs file.inode file.pos (min count (file.inode.size - file.pos)) := by
  have hend' : file.pos + min count (file.inode.size - file.pos) < 12 * fs.blockSize := by omega
  obtain ⟨file', buf', hloop, hinode, hfpos, hfile', hbuf⟩ :=
    ext2ReadLoop_within buf hread hpos hend' (by omega)
  refine ⟨file', buf', ?_, hinode, by omega, hfile', readBytes_congr fun i hi => ?_⟩
  · simp only [ext2Read, clip_eq hle hwrap, hloop, except_ok_bind]
  · rw [Nat.zero_add, hbuf, if_pos hi]

/-- A call of `ext2_read` that comes to the end of the twelfth block. -/
theorem ext2Read_panic (buf : Memory) (hplace : InPlace fs file) (hindex : file.blockIndex < 12)
    (hle : file.pos ≤ file.inode.size) (hwrap : file.pos + count < 2 ^ 32)
    (hend : 12 * fs.blockSize ≤ min (file.pos + count) file.inode.size) :
    ext2Read fs file buf count = .error indirectPanic := by
  simp only [ext2Read, clip_eq hle hwrap]
  rw [ext2ReadLoop_panic hplace hindex (by omega) (by omega) (by omega)]
  rfl

end

/-! ### Reads of a node -/

/-- `ext2_vfs_read`: the count, the caller's buffer, and the node with its open file. -/
def ext2VfsRead (fs : Ext2Fs) (node : FsNode Ext2File) (offset size : ℕ) (buf : Memory) :
    Except Stop (ℕ × Memory × FsNode Ext2File) :=
  match node.impl with
  | none => .error .nullPointer
  | some file =>
    if offset ≠ file.pos then
      .error (.panic "Seeking is currently unsupported for Ext2 files\n")
    else do
      let (file, buf, count) ← ext2Read fs file buf size
      .ok (count, buf, { node with impl := some file })

/-- A call `read_fs_node(node, offset, size, buf)`. -/
structure ReadNodeCall where
  offset : ℕ
  size : ℕ
  buf : Memory

/-- A call of `read_fs_node` on an ext2 node. -/
def readNode (fs : Ext2Fs) (node : FsNode Ext2File) (call : ReadNodeCall) :
    Except Stop (ℕ × Memory × FsNode Ext2File) :=
  readFsNode node (fun offset size s => ext2VfsRead fs s.2 offset size s.1) call.offset call.size
    (call.buf, node)

/-- The calls of a list, one after the other: the bytes that each delivers. -/
def readNodeCalls (fs : Ext2Fs) : FsNode Ext2File → List ReadNodeCall →
    Except Stop (List (List Byte))
  | _, [] => .ok []
  | node, call :: calls => do
    let (count, buf, node) ← readNode fs node call
    let rest ← readNodeCalls fs node calls
    .ok (readBytes buf 0 count :: rest)

/-- Every read is at the position that the reads before it left, from `pos` on. -/
def InOrder (size : ℕ) : ℕ → List ReadNodeCall → Prop
  | _, [] => True
  | pos, call :: calls => call.offset = pos ∧ InOrder size (min (pos + call.size) size) calls

instance decidableInOrder (size : ℕ) :
    ∀ (pos : ℕ) (calls : List ReadNodeCall), Decidable (InOrder size pos calls)
  | _, [] => .isTrue trivial
  | pos, call :: calls =>
    have := decidableInOrder size (min (pos + call.size) size) calls
    inferInstanceAs
      (Decidable (call.offset = pos ∧ InOrder size (min (pos + call.size) size) calls))

/-- The bytes that the calls of a list ask for. -/
def requested (calls : List ReadNodeCall) : ℕ := (calls.map ReadNodeCall.size).sum

section

variable {fs : Ext2Fs} {file : Ext2File} {node : FsNode Ext2File} {call : ReadNodeCall}
  {calls : List ReadNodeCall}

/-- A read at another position. -/
theorem readNode_of_ne (fs : Ext2Fs) (hnode : node.read = true) (himpl : node.impl = some file)
    (hne : call.offset ≠ file.pos) : ∃ text, readNode fs node call = .error (.panic text) := by
  rw [readNode, readFsNode, if_pos hnode, ext2VfsRead, himpl]
  exact ⟨_, if_pos hne⟩

/-- A read at the position of the open file. -/
theorem readNode_of_eq (fs : Ext2Fs) (hnode : node.read = true) (himpl : node.impl = some file)
    (heq : call.offset = file.pos) :
    readNode fs node call = (ext2Read fs file call.buf call.size).map fun r =>
      (r.2.2, r.2.1, { node with impl := some r.1 }) := by
  rw [readNode, readFsNode, if_pos hnode, ext2VfsRead, himpl]
  dsimp only
  rw [if_neg (not_not.mpr heq)]
  rcases ext2Read fs file call.buf call.size with e | r <;> rfl

/-- **A sequence of reads** of an open file inside its direct blocks returns the bytes from its
position on, if the reads are in order and do not come to the end of the twelfth block, and stops
the kernel otherwise. -/
theorem readNodeCalls_spec (hnode : node.read = true) (himpl : node.impl = some file)
    (hread : ∀ i < 12, DeliversBlock fs (file.inode.dbp i)) (hpos : Positioned fs file)
    (hle : file.pos ≤ file.inode.size) (hlt : file.pos < 12 * fs.blockSize)
    (hwrap : NoWrap file.inode.size file.pos (calls.map ReadNodeCall.size)) :
    if InOrder file.inode.size file.pos calls ∧
        min (file.pos + requested calls) file.inode.size < 12 * fs.blockSize then
      ∃ results, readNodeCalls fs node calls = .ok results ∧ results.flatten =
        fileBytes fs file.inode file.pos (min (requested calls) (file.inode.size - file.pos))
    else ∃ text, readNodeCalls fs node calls = .error (.panic text) := by
  induction calls generalizing node file with
  | nil =>
    have hsum : requested [] = 0 := rfl
    rw [if_pos ⟨trivial, by omega⟩]
    exact ⟨[], rfl, by simp [fileBytes, hsum]⟩
  | cons call calls ih =>
    have hsum : requested (call :: calls) = call.size + requested calls := List.sum_cons
    obtain ⟨hwrap, hrest⟩ := hwrap
    by_cases hoffset : call.offset = file.pos
    swap
    · obtain ⟨text, hstop⟩ := readNode_of_ne fs hnode himpl hoffset
      rw [if_neg fun h => hoffset h.1.1]
      exact ⟨text, by rw [readNodeCalls, hstop]; rfl⟩
    have hcall := readNode_of_eq fs hnode himpl hoffset
    by_cases hend : min (file.pos + call.size) file.inode.size < 12 * fs.blockSize
    swap
    · rw [ext2Read_panic _ hpos.inPlace (hpos.inPlace.blockIndex_lt hlt) hle hwrap
        (not_lt.mp hend)] at hcall
      rw [if_neg fun h => hend (by omega)]
      exact ⟨_, by rw [readNodeCalls, hcall]; rfl⟩
    obtain ⟨file', buf', hserved, hinode, hfpos, hfile', hbytes⟩ :=
      ext2Read_within call.buf hread hpos hle hwrap hend
    rw [hserved] at hcall
    have hnext := @ih file' { node with impl := some file' } hnode rfl (by rwa [hinode]) hfile'
      (by rw [hinode, hfpos]; omega) (by rwa [hfpos]) (by rwa [hinode, hfpos])
    rw [hinode, hfpos] at hnext
    have hend' : min (min (file.pos + call.size) file.inode.size + requested calls)
        file.inode.size = min (file.pos + requested (call :: calls)) file.inode.size := by omega
    rw [hend'] at hnext
    by_cases hgood : InOrder file.inode.size (min (file.pos + call.size) file.inode.size) calls ∧
        min (file.pos + requested (call :: calls)) file.inode.size < 12 * fs.blockSize
    · rw [if_pos hgood] at hnext
      obtain ⟨results, hcalls, hflat⟩ := hnext
      rw [if_pos ⟨⟨hoffset, hgood.1⟩, hgood.2⟩]
      refine ⟨readBytes buf' 0 (min call.size (file.inode.size - file.pos)) :: results, ?_, ?_⟩
      · rw [readNodeCalls, hcall]
        simp only [Except.map, except_ok_bind, hcalls]
      have hcount : min (requested (call :: calls)) (file.inode.size - file.pos) =
          min call.size (file.inode.size - file.pos) + min (requested calls)
            (file.inode.size - min (file.pos + call.size) file.inode.size) := by omega
      have hfrom : min (file.pos + call.size) file.inode.size =
          file.pos + min call.size (file.inode.size - file.pos) := by omega
      rw [List.flatten_cons, hbytes, hflat, hcount, fileBytes_add, ← hfrom]
    · rw [if_neg hgood] at hnext
      obtain ⟨text, hstop⟩ := hnext
      rw [if_neg fun h => hgood ⟨h.1.2, h.2⟩]
      exact ⟨text, by rw [readNodeCalls, hcall]; simp only [Except.map, except_ok_bind, hstop]; rfl⟩

end

/-- **The sequences of reads that return.** On a freshly opened node, whatever the size of its file
and as long as no request wraps the position, a sequence of reads returns exactly when every read is
at the position that the reads before it left, and all of them together stay in front of the end of
the twelfth block. They then deliver the bytes of the file from its beginning, as many as were asked
for and the file has. -/
theorem readNodeCalls_iff {fs : Ext2Fs} {stack fresh : Memory} {n : ℕ} {file : Ext2File}
    {node : FsNode Ext2File} {calls : List ReadNodeCall}
    (hopen : ext2OpenInode fs stack fresh n = .ok file) (hnode : node.read = true)
    (himpl : node.impl = some file) (hblock : 0 < fs.blockSize)
    (hread : ∀ i < 12, DeliversBlock fs (file.inode.dbp i))
    (hwrap : NoWrap file.inode.size 0 (calls.map ReadNodeCall.size)) :
    ((∃ results, readNodeCalls fs node calls = .ok results) ↔
      InOrder file.inode.size 0 calls ∧
        min (requested calls) file.inode.size < 12 * fs.blockSize) ∧
    ∀ results, readNodeCalls fs node calls = .ok results → results.flatten =
      fileBytes fs file.inode 0 (min (requested calls) file.inode.size) := by
  obtain ⟨hzero, hpos⟩ := positioned_of_ext2OpenInode hopen (hread 0 (by decide)) hblock
  rw [← hzero] at hwrap
  have hspec := readNodeCalls_spec hnode himpl hread hpos (by omega) (by omega) hwrap
  rw [hzero, Nat.zero_add, Nat.sub_zero] at hspec
  split_ifs at hspec with hgood
  · obtain ⟨results, hcalls, hbytes⟩ := hspec
    refine ⟨iff_of_true ⟨results, hcalls⟩ hgood, fun results' h => ?_⟩
    rw [← Except.ok.inj (hcalls.symm.trans h), hbytes]
  · obtain ⟨text, hstop⟩ := hspec
    rw [hstop]
    refine ⟨iff_of_false ?_ hgood, ?_⟩
    · rintro ⟨results, h⟩
      cases h
    · intro results h
      cases h

/-- A read of ten bytes, and one of twenty behind them. -/
def sampleCalls : List ReadNodeCall := [⟨0, 10, fun _ => 0⟩, ⟨10, 20, fun _ => 0⟩]

/-- The same reads with a byte between them. -/
def gapCalls : List ReadNodeCall := [⟨0, 10, fun _ => 0⟩, ⟨11, 20, fun _ => 0⟩]

/-- The root directory of the small filesystem is read in two requests, and not with a gap of a byte
between them. -/
theorem readNodeCalls_iff_sample : ∃ file,
    ext2OpenInode sampleFs (fun _ => 0) (fun _ => 0) 2 = .ok file ∧
      (∃ results, readNodeCalls sampleFs (openedNode (fun _ => 0) 2 file) sampleCalls =
        .ok results ∧ results.flatten = sampleDir) ∧
      ¬∃ results, readNodeCalls sampleFs (openedNode (fun _ => 0) 2 file) gapCalls =
        .ok results := by
  obtain ⟨file, hopen, hsize, -, hread, hdir⟩ := open_sampleFs
  have hwrap : ∀ calls ∈ [sampleCalls, gapCalls],
      NoWrap file.inode.size 0 (calls.map ReadNodeCall.size) := by
    rw [hsize]
    simp [sampleCalls, gapCalls, NoWrap]
  have hnode : (openedNode (fun _ => 0) 2 file).impl = some file := rfl
  obtain ⟨hreturns, hbytes⟩ :=
    readNodeCalls_iff hopen rfl hnode (by decide) hread (hwrap sampleCalls (by simp))
  obtain ⟨results, hresults⟩ := hreturns.mpr (by rw [hsize]; decide)
  have hcount : min (requested sampleCalls) file.inode.size = file.inode.size := by
    rw [hsize]
    decide
  have hgap := (readNodeCalls_iff hopen rfl hnode (by decide) hread (hwrap gapCalls (by simp))).1
  refine ⟨file, hopen, ⟨results, hresults, ?_⟩, fun h => ?_⟩
  · rw [hbytes results hresults, hcount, hdir]
  · have horder := (hgap.mp h).1
    rw [hsize] at horder
    exact absurd horder (by decide)

end Studix.Ext2
