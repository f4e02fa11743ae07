import Studix.Fs.Ext2Dir
import Studix.Fs.Ext2Lookup
import Studix.Lib.StringOrder

/-!
# Lookup in a directory

On a directory that is a list of records, `ext2_find_in_dir` returns the inode number of the first
record with the name it looks for. A record whose inode number is 0 is unused and keeps the name of
the file that was deleted. The lookup does not skip such records: where one with the name stands in
front of the live one, it returns 0.

## Main definitions

* `firstNamed`, `firstLive`: what the lookup returns, and what it should return.
* `NoStaleBefore`: the first record with the name is live, or all of them are unused.

## Main results

* `findLoop_spec`, `ext2FindInDir_spec`: the lookup on a list of records.
* `findsLive_iff`: the directories in which live records are found.
-/

namespace Studix.Ext2

/-- The inode number of the first record with the name, or 0. -/
def firstNamed (records : List DirRecord) (name : List Byte) : ℕ :=
  ((records.find? fun r => r.name = name).map fun r => r.inodeNum.toNat).getD 0

/-- The inode number of the first live record with the name, or 0. -/
def firstLive (records : List DirRecord) (name : List Byte) : ℕ :=
  firstNamed (records.filter fun r => r.inodeNum ≠ 0) name

/-- If the first record with the name is unused, so are the others. -/
def NoStaleBefore (records : List DirRecord) (name : List Byte) : Prop :=
  ∀ r, (records.find? fun r => r.name = name) = some r → r.inodeNum = 0 →
    ∀ r' ∈ records, r'.name = name → r'.inodeNum = 0

/-! ### Lists of records -/

variable {records : List DirRecord} {r : DirRecord} {name : List Byte}

theorem firstNamed_cons (r : DirRecord) (records : List DirRecord) (name : List Byte) :
    firstNamed (r :: records) name =
      if r.name = name then r.inodeNum.toNat else firstNamed records name := by
  rw [firstNamed, List.find?_cons]
  split_ifs with h
  · simp [h]
  · simp [h, firstNamed]

/-- A live record with the name is looked up with a number that is not 0. -/
theorem firstLive_eq_zero_iff :
    firstLive records name = 0 ↔ ∀ r ∈ records, r.name = name → r.inodeNum = 0 := by
  induction records with
  | nil => simp [firstLive, firstNamed]
  | cons r records ih =>
    rw [List.forall_mem_cons, firstLive]
    by_cases hlive : r.inodeNum = 0
    · rw [List.filter_cons_of_neg (by simpa using hlive), ← firstLive, ih]
      exact ⟨fun h => ⟨fun _ => hlive, h⟩, And.right⟩
    · rw [List.filter_cons_of_pos (by simpa using hlive), firstNamed_cons, ← firstLive]
      have hne : r.inodeNum.toNat ≠ 0 := fun h => hlive (BitVec.eq_of_toNat_eq h)
      split_ifs with hname
      · exact ⟨fun h => absurd h hne, fun h => absurd (h.1 hname) hlive⟩
      · rw [ih]
        exact ⟨fun h => ⟨fun heq => absurd heq hname, h⟩, And.right⟩

/-- **The first record with the name is the first live one**, or none is live, exactly when no
unused record with the name stands in front of a live one. -/
theorem firstNamed_eq_firstLive_iff :
    firstNamed records name = firstLive records name ↔ NoStaleBefore records name := by
  induction records with
  | nil => simp [NoStaleBefore, firstLive]
  | cons r records ih =>
    by_cases hname : r.name = name
    · have hfirst : ((r :: records).find? fun r => r.name = name) = some r :=
        List.find?_cons_of_pos (by simpa using hname)
      rw [firstNamed_cons, if_pos hname, NoStaleBefore, hfirst]
      by_cases hlive : r.inodeNum = 0
      · have hzero : r.inodeNum.toNat = 0 := by rw [hlive]; rfl
        rw [hzero, eq_comm, firstLive_eq_zero_iff]
        exact ⟨fun h _ _ _ => h, fun h => h r rfl hlive⟩
      · refine iff_of_true ?_ fun r' hr' hzero => ?_
        · rw [firstLive, List.filter_cons_of_pos (by simpa using hlive), firstNamed_cons,
            if_pos hname]
        · exact absurd hzero (Option.some.inj hr' ▸ hlive)
    · have hskip : firstLive (r :: records) name = firstLive records name := by
        rw [firstLive, firstLive, List.filter_cons]
        split_ifs
        · rw [firstNamed_cons, if_neg hname]
        · rfl
      have hfirst : ((r :: records).find? fun r => r.name = name) =
          records.find? fun r => r.name = name :=
        List.find?_cons_of_neg (by simpa using hname)
      rw [firstNamed_cons, if_neg hname, hskip, ih, NoStaleBefore, NoStaleBefore, hfirst]
      simp [hname]

/-- The records of a directory take up at least eight bytes each. -/
theorem length_le_length_encodeDir (records : List DirRecord) :
    readSize * records.length ≤ (encodeDir records).length := by
  induction records with
  | nil => exact Nat.zero_le _
  | cons r records ih =>
    rw [encodeDir, List.flatMap_cons, List.length_append, DirRecord.length_encode, ← encodeDir,
      List.length_cons, DirRecord.totalLen, Nat.mul_succ]
    omega

/-! ### The lookup -/

section

variable {fs : Ext2Fs} {file : Ext2File} {unset : ℕ → Unset} {m : Memory} {fuel k n : ℕ}

/-- The name of an entry, compared with a string. -/
theorem strcmp_name {buf : Memory} {stored : List Byte} (hbuf : HoldsName buf stored)
    (hstored : (0 : Byte) ∉ stored) (hlen : stored.length < 2 ^ 8) (hm : IsCString m name) :
    ∃ order, strcmp buf m = .ok order ∧ (order = 0 ↔ stored = name) :=
  strcmp_eq_zero_iff ⟨fun c hc h0 => hstored (h0 ▸ hc), hbuf.1, hbuf.2⟩ hm (by omega)

/-- **The loop of `ext2_find_in_dir`** in front of a list of records. -/
theorem findLoop_spec (hread : ∀ i < 12, DeliversBlock fs (file.inode.dbp i))
    (hsize : file.inode.size < 12 * fs.blockSize) (hat : AtRecords fs file records)
    (hnul : ∀ r ∈ records, (0 : Byte) ∉ r.name) (hm : IsCString m name)
    (hfuel : records.length < fuel) :
    findLoop fs unset m fuel k file = .ok (firstNamed records name) := by
  induction records generalizing file fuel k with
  | nil =>
    obtain ⟨fuel, rfl⟩ := Nat.exists_eq_add_of_lt hfuel
    obtain ⟨file', hnext, -⟩ := ext2NextDirent_nil (unset k).stack (unset k).fresh hread hsize hat
    rw [findLoop, hnext]
    rfl
  | cons r records ih =>
    obtain ⟨fuel, rfl⟩ : ∃ n, fuel = n + 1 := ⟨fuel - 1, by omega⟩
    obtain ⟨dirent, file', hnext, hinode, hat', hnum, -, -, -, hname⟩ :=
      ext2NextDirent_cons (unset k).stack (unset k).fresh hread hsize hat
    obtain ⟨order, hcmp, horder⟩ :=
      strcmp_name hname (hnul r List.mem_cons_self) r.name_length_lt hm
    rw [List.length_cons] at hfuel
    rw [findLoop, hnext, except_ok_bind]
    dsimp only
    rw [hcmp, except_ok_bind, firstNamed_cons]
    simp only [horder]
    split_ifs
    · rw [hnum]
    · exact ih (by rwa [hinode]) (by rwa [hinode]) hat'
        (fun r hr => hnul r (List.mem_cons_of_mem _ hr)) (by omega)

/-- **The lookup of a name in a directory** gives the first record with the name, live or not. -/
theorem ext2FindInDir_spec
    (hopen : ext2OpenInode fs (unset 0).stack (unset 0).fresh n = .ok file)
    (hread : ∀ i < 12, DeliversBlock fs (file.inode.dbp i))
    (hsize : file.inode.size < 12 * fs.blockSize)
    (hdir : fileBytes fs file.inode 0 file.inode.size = encodeDir records)
    (hnul : ∀ r ∈ records, (0 : Byte) ∉ r.name) (hm : IsCString m name) :
    ext2FindInDir fs unset n m = .ok (firstNamed records name) := by
  have hlen := length_le_length_encodeDir records
  have hsize32 : file.inode.size < 2 ^ 32 := load32_lt _ _
  rw [← hdir, fileBytes, List.length_map, List.length_range] at hlen
  simp only [readSize] at hlen
  rw [ext2FindInDir, hopen, except_ok_bind]
  exact findLoop_spec hread hsize (atRecords_of_ext2OpenInode hopen hread hsize hdir) hnul hm
    (by omega)

/-- The lookup in a directory of a filesystem with blocks of two sectors. -/
theorem ext2FindInDir_of_exists (hblock : fs.blockSize = 1024)
    (hfile : ∃ file, ext2OpenInode fs (unset 0).stack (unset 0).fresh n = .ok file ∧
      file.inode.size < 12 * 1024 ∧ (∀ i < 12, file.inode.dbp i * fs.blockSize < 2 ^ 32) ∧
      fileBytes fs file.inode 0 file.inode.size = encodeDir records)
    (hnul : ∀ r ∈ records, (0 : Byte) ∉ r.name) (hm : IsCString m name) :
    ext2FindInDir fs unset n m = .ok (firstNamed records name) := by
  obtain ⟨file, hopen, hsize, hdbp, hdir⟩ := hfile
  exact ext2FindInDir_spec hopen (deliversBlock_dbp hblock hdbp) (hblock ▸ hsize) hdir hnul hm

/-- **The directories in which live records are found.** On a directory of fewer than
`12 * block_size` bytes whose blocks `read_block` delivers, and which is a list of records with
NUL-free names, the lookup of a name returns the first live record with the name, or 0 if there is
none, exactly when the first record with the name is not an unused one with a live one behind it. -/
theorem findsLive_iff
    (hopen : ext2OpenInode fs (unset 0).stack (unset 0).fresh n = .ok file)
    (hread : ∀ i < 12, DeliversBlock fs (file.inode.dbp i))
    (hsize : file.inode.size < 12 * fs.blockSize)
    (hdir : fileBytes fs file.inode 0 file.inode.size = encodeDir records)
    (hnul : ∀ r ∈ records, (0 : Byte) ∉ r.name) (hm : IsCString m name) :
    ext2FindInDir fs unset n m = .ok (firstLive records name) ↔ NoStaleBefore records name := by
  rw [ext2FindInDir_spec hopen hread hsize hdir hnul hm, Except.ok.injEq,
    firstNamed_eq_firstLive_iff]

end

/-! ### Sample directories -/

/-- The contents of unset memory, all zeros. -/
def zeroUnset (_ : ℕ) : Unset := ⟨fun _ => 0, fun _ => 0⟩

/-- The file `b` is found in the sample directory. -/
theorem findsLive_sample : ∃ file,
    ext2OpenInode sampleFs (zeroUnset 0).stack (zeroUnset 0).fresh 2 = .ok file ∧
      fileBytes sampleFs file.inode 0 file.inode.size = encodeDir sampleRecords ∧
      firstLive sampleRecords [98] = 12 ∧
      ext2FindInDir sampleFs zeroUnset 2 (bufferOf [98]) = .ok (firstLive sampleRecords [98]) := by
  obtain ⟨file, hopen, hlt, hread, hdir⟩ := open_sampleDir
  have hname : IsCString (bufferOf [98]) [98] := isCString_bufferOf _ (by decide)
  refine ⟨file, hopen, hdir, by decide,
    (findsLive_iff hopen hread hlt hdir (by decide) hname).mpr fun r hr hzero => ?_⟩
  obtain rfl := Option.some.inj hr
  exact absurd hzero (by decide)

/-- A directory in which the file `b` was deleted and made again: an unused record with its name,
and behind it the live one with inode 12. -/
def staleRecords : List DirRecord :=
  [⟨0, 1, [98], [0, 0, 0], nameB_lt, recordB_lt⟩, ⟨12, 1, [98], [0, 0, 0], nameB_lt, recordB_lt⟩]

/-- The small filesystem with that directory in place of its own. -/
def staleFs : Ext2Fs :=
  { sampleFs with
    disk := fun lba o =>
      if lba = 20 then (encodeDir staleRecords).getD o 0 else sampleFs.disk lba o }

/-- The live file `b` is not found behind the unused record. -/
theorem live_record_not_found : ∃ file,
    ext2OpenInode staleFs (zeroUnset 0).stack (zeroUnset 0).fresh 2 = .ok file ∧
      (∀ i < 12, DeliversBlock staleFs (file.inode.dbp i)) ∧
      file.inode.size < 12 * staleFs.blockSize ∧
      fileBytes staleFs file.inode 0 file.inode.size = encodeDir staleRecords ∧
      firstLive staleRecords [98] = 12 ∧
      ext2FindInDir staleFs zeroUnset 2 (bufferOf [98]) = .ok 0 := by
  obtain ⟨file, hopen, hsize, hdbp, hdir⟩ : ∃ file,
      ext2OpenInode staleFs (zeroUnset 0).stack (zeroUnset 0).fresh 2 = .ok file ∧
        file.inode.size = 24 ∧ (∀ i < 12, file.inode.dbp i * staleFs.blockSize < 2 ^ 32) ∧
        fileBytes staleFs file.inode 0 file.inode.size = encodeDir staleRecords :=
    ⟨_, rfl, by decide +kernel, by decide +kernel, by decide +kernel⟩
  have hread : ∀ i < 12, DeliversBlock staleFs (file.inode.dbp i) := deliversBlock_dbp rfl hdbp
  have hlt : file.inode.size < 12 * staleFs.blockSize := by
    rw [hsize]
    decide
  exact ⟨file, hopen, hread, hlt, hdir, by decide,
    ext2FindInDir_spec hopen hread hlt hdir (by decide) (isCString_bufferOf _ (by decide))⟩

end Studix.Ext2
