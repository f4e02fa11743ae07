import Studix.Fs.Ext2Read
import Studix.Lib.CString

/-!
# Directory files

A directory file is a list of records laid end to end (`DirRecord.encode`). A positioned file in
front of a list of records gives them back one by one: each `ext2_next_dirent` returns the first of
the records and leaves the file in front of the others, wherever records and their padding cross
block edges, and at the end it returns false and stays there.

## Main definitions

* `DirRecord`: a directory record, with the bounds of its length fields.
* `AtRecords`: an open file in front of a list of records.
* `ext2NextDirents`: a number of calls.

## Main results

* `encodeDir_injective`: the bytes of a directory file determine its records.
* `ext2NextDirent_cons`, `ext2NextDirent_nil`: one call of `ext2_next_dirent`.
* `ext2NextDirents_encodeDir`: the calls on a freshly opened directory.
-/

namespace Studix.Ext2

/-! ### Records -/

/-- A record of a directory file: an inode number, a type, a name and the padding that follows
it. -/
structure DirRecord where
  inodeNum : BitVec 32
  typeIndicator : Byte
  name : List Byte
  pad : List Byte
  name_length_lt : name.length < 2 ^ 8
  length_lt : 8 + name.length + pad.length < 2 ^ 16

namespace DirRecord

variable (r : DirRecord)

/-- The length of the record, with its padding. -/
def totalLen : ℕ := readSize + r.name.length + r.pad.length

/-- The eight bytes in front of the name. -/
def header : List Byte :=
  leBytes 4 r.inodeNum.toNat ++
    (leBytes 2 r.totalLen ++ [BitVec.ofNat 8 r.name.length, r.typeIndicator])

/-- The bytes of the record. -/
def encode : List Byte := r.header ++ (r.name ++ r.pad)

@[simp] theorem length_header : r.header.length = readSize := by
  simp [header, readSize]

@[simp] theorem length_encode : r.encode.length = r.totalLen := by
  simp [encode, totalLen, Nat.add_assoc]

/-- The fields of the entry are read back from the header. -/
theorem fields_of_header {buf : Memory} (h : readBytes buf 0 readSize = r.header) :
    load32 buf 0 = r.inodeNum.toNat ∧ loadLE buf 4 2 = r.totalLen ∧
      (buf 6).toNat = r.name.length ∧ buf 7 = r.typeIndicator := by
  obtain ⟨hinode, h⟩ := readBytes_eq_append h
  obtain ⟨htotal, h⟩ := readBytes_eq_append h
  simp only [length_leBytes, readSize, Nat.zero_add, Nat.reduceAdd, Nat.reduceSub]
    at hinode htotal h
  obtain ⟨hname, htype⟩ : buf 6 = BitVec.ofNat 8 r.name.length ∧ buf 7 = r.typeIndicator := by
    simpa [readBytes, List.range_succ] using h
  have hlt := r.length_lt
  have hlt' := r.name_length_lt
  refine ⟨?_, ?_, ?_, htype⟩
  · rw [load32, loadLE_of_readBytes hinode]
    exact Nat.mod_eq_of_lt r.inodeNum.isLt
  · rw [loadLE_of_readBytes htotal, Nat.mod_eq_of_lt (by simp only [totalLen, readSize]; omega)]
  · rw [hname, BitVec.toNat_ofNat, Nat.mod_eq_of_lt hlt']

/-- A record is cut off from what lies behind it by its own length fields. -/
theorem encode_append_injective {r r' : DirRecord} {xs ys : List Byte}
    (h : r.encode ++ xs = r'.encode ++ ys) : r = r' ∧ xs = ys := by
  simp only [encode, List.append_assoc] at h
  obtain ⟨hheader, h⟩ := List.append_inj h (by simp)
  have hbytes : readBytes (bufferOf r.header) 0 readSize = r.header := by
    rw [← r.length_header]
    exact readBytes_bufferOf _
  obtain ⟨hinode, htotal, hname, htype⟩ := r.fields_of_header hbytes
  obtain ⟨hinode', htotal', hname', htype'⟩ := r'.fields_of_header (hbytes.trans hheader)
  obtain ⟨hnames, h⟩ := List.append_inj h (hname.symm.trans hname')
  have hpad : r.pad.length = r'.pad.length := by
    have := htotal.symm.trans htotal'
    simp only [totalLen, hname.symm.trans hname'] at this
    omega
  obtain ⟨hpads, hrest⟩ := List.append_inj h hpad
  refine ⟨?_, hrest⟩
  rw [DirRecord.mk.injEq]
  exact ⟨BitVec.eq_of_toNat_eq (hinode.symm.trans hinode'), htype.symm.trans htype', hnames, hpads⟩

end DirRecord

/-- A directory file with the given records, laid end to end. -/
def encodeDir (records : List DirRecord) : List Byte := records.flatMap DirRecord.encode

theorem encodeDir_cons_ne_nil (r : DirRecord) (rs : List DirRecord) : encodeDir (r :: rs) ≠ [] := by
  intro h
  have hlength := congrArg List.length h
  rw [encodeDir, List.flatMap_cons, List.length_append, DirRecord.length_encode,
    DirRecord.totalLen, readSize] at hlength
  simp only [List.length_nil] at hlength
  omega

/-- The bytes of a directory file determine its records. -/
theorem encodeDir_injective : Function.Injective encodeDir := by
  intro records
  induction records with
  | nil =>
    intro records' h
    cases records' with
    | nil => rfl
    | cons r' rs' => exact absurd h.symm (encodeDir_cons_ne_nil r' rs')
  | cons r rs ih =>
    intro records' h
    cases records' with
    | nil => exact absurd h (encodeDir_cons_ne_nil r rs)
    | cons r' rs' =>
      obtain ⟨rfl, hrest⟩ := DirRecord.encode_append_injective h
      rw [ih hrest]

/-! ### Reading them back -/

/-- The rest of a positioned file is a list of records. -/
structure AtRecords (fs : Ext2Fs) (file : Ext2File) (records : List DirRecord) : Prop where
  positioned : Positioned fs file
  pos_le : file.pos ≤ file.inode.size
  rest : fileBytes fs file.inode file.pos (file.inode.size - file.pos) = encodeDir records

/-- A name as the directory stores it: its bytes in a buffer, with a NUL behind them. -/
def HoldsName (m : Memory) (name : List Byte) : Prop :=
  readBytes m 0 name.length = name ∧ m name.length = 0

section

variable {fs : Ext2Fs} {file : Ext2File} {r : DirRecord} {records : List DirRecord}

/-- Blocks that `read_block` delivers are of at most 255 sectors. -/
theorem blockSize_le_of_deliversBlock {b : ℕ} (h : DeliversBlock fs b) :
    fs.blockSize ≤ 255 * sectorSize := by
  by_contra! hlt
  obtain ⟨buf', hread, hbytes⟩ := h fun j => diskBlock fs b j + 1
  obtain ⟨-, -, hread⟩ := except_bind_eq_ok.mp hread
  have hsectors : fs.blockSize / sectorSize % 2 ^ 8 ≤ 255 :=
    Nat.le_of_lt_succ (Nat.mod_lt _ (by decide))
  have hbyte := hbytes (255 * sectorSize) hlt
  rw [← Except.ok.inj hread, blit_apply_of_notMem _ _
    (Or.inr (by rw [Nat.zero_add]; exact Nat.mul_le_mul_right _ hsectors))] at hbyte
  simp at hbyte

/-- A request inside the file is served in full. -/
theorem ext2Read_inside (buf : Memory) (count : ℕ)
    (hread : ∀ i < 12, DeliversBlock fs (file.inode.dbp i)) (hpos : Positioned fs file)
    (hsize : file.inode.size < 12 * fs.blockSize) (hle : file.pos + count ≤ file.inode.size) :
    ∃ file' buf', ext2Read fs file buf count = .ok (file', buf', count) ∧
      file'.inode = file.inode ∧ file'.pos = file.pos + count ∧ Positioned fs file' ∧
      readBytes buf' 0 count = fileBytes fs file.inode file.pos count := by
  have hsize32 : file.inode.size < 2 ^ 32 := load32_lt _ _
  obtain ⟨file', buf', hcall, hinode, hfpos, hfile', hbuf⟩ :=
    ext2Read_spec buf count hread hpos hsize (by omega) (by omega)
  have hmin : min count (file.inode.size - file.pos) = count := by omega
  rw [hmin] at hcall hfpos
  refine ⟨file', buf', hcall, hinode, hfpos, hfile', readBytes_congr fun i hi => ?_⟩
  rw [Nat.zero_add, hbuf, if_pos (by omega)]

/-- **A record in front of the file is returned**, and the file is left in front of the others. -/
theorem ext2NextDirent_cons (stack fresh : Memory)
    (hread : ∀ i < 12, DeliversBlock fs (file.inode.dbp i))
    (hsize : file.inode.size < 12 * fs.blockSize) (h : AtRecords fs file (r :: records)) :
    ∃ dirent file', ext2NextDirent fs stack fresh file = .ok (some dirent, file') ∧
      file'.inode = file.inode ∧ AtRecords fs file' records ∧
      dirent.inodeNum = r.inodeNum.toNat ∧ dirent.totalLen = r.totalLen ∧
      dirent.nameLen = r.name.length ∧ dirent.typeIndicator = r.typeIndicator.toNat ∧
      HoldsName dirent.name r.name := by
  have hsize32 : file.inode.size < 2 ^ 32 := load32_lt _ _
  have hposle := h.pos_le
  have htotal : r.totalLen = readSize + r.name.length + r.pad.length := rfl
  -- The rest of the file is the header, the name, the padding and the other records.
  have hlen : r.totalLen ≤ file.inode.size - file.pos := by
    have hlen := congrArg List.length h.rest
    simp only [fileBytes, List.length_map, List.length_range, encodeDir, List.flatMap_cons,
      List.length_append, DirRecord.length_encode] at hlen
    omega
  have hrest : readBytes (fileByte fs file.inode) file.pos (file.inode.size - file.pos) =
      r.header ++ (r.name ++ (r.pad ++ encodeDir records)) :=
    h.rest.trans (by simp [encodeDir, DirRecord.encode])
  obtain ⟨hheader, hrest⟩ := readBytes_eq_append hrest
  obtain ⟨hname, hrest⟩ := readBytes_eq_append hrest
  obtain ⟨-, hrest⟩ := readBytes_eq_append hrest
  rw [DirRecord.length_header] at hheader hname hrest
  obtain ⟨file₁, buf, hcall, hinode₁, hpos₁, hfile₁, hbuf⟩ :=
    ext2Read_inside stack readSize hread h.positioned hsize (by omega)
  obtain ⟨hfinode, hftotal, hfname, hftype⟩ := r.fields_of_header (hbuf.trans hheader)
  obtain ⟨file₂, name, hcall₂, hinode₂, hpos₂, hfile₂, hbuf₂⟩ :=
    ext2Read_inside fresh r.name.length (by rwa [hinode₁]) hfile₁
      (by rwa [hinode₁]) (by rw [hinode₁]; omega)
  rw [hinode₁, hpos₁] at hbuf₂
  have hname' : readBytes name 0 r.name.length = r.name := hbuf₂.trans hname
  have hinode₂' : file₂.inode = file.inode := hinode₂.trans hinode₁
  have hleft : wsub r.totalLen (readSize + (r.name.length + 1) - 1) = r.pad.length := by
    have := r.length_lt
    rw [wsub_eq (by omega) (by simp only [htotal, readSize]; omega)]
    omega
  have hholds : HoldsName (Function.update name r.name.length 0) r.name := by
    refine ⟨Eq.trans (readBytes_congr fun i hi => ?_) hname', Function.update_self ..⟩
    rw [Nat.zero_add, Function.update_of_ne hi.ne]
  -- The padding is skipped by a third read, unless there is none.
  obtain ⟨file₃, hcall₃, hinode₃, hpos₃, hfile₃⟩ : ∃ file₃,
      (if 0 < r.pad.length then (ext2Read fs file₂ stack r.pad.length).map Prod.fst
        else .ok file₂) = .ok file₃ ∧ file₃.inode = file.inode ∧
        file₃.pos = file.pos + r.totalLen ∧ Positioned fs file₃ := by
    by_cases hpad : 0 < r.pad.length
    · obtain ⟨file₃, out, hcall₃, hinode₃, hpos₃, hfile₃, -⟩ :=
        ext2Read_inside stack r.pad.length (by rwa [hinode₂']) hfile₂
          (by rwa [hinode₂']) (by rw [hinode₂']; omega)
      refine ⟨file₃, ?_, hinode₃.trans hinode₂', by omega, hfile₃⟩
      rw [if_pos hpad, hcall₃]
      rfl
    · exact ⟨file₂, if_neg hpad, hinode₂', by omega, hfile₂⟩
  have hat : AtRecords fs file₃ records := by
    refine ⟨hfile₃, by rw [hinode₃]; omega, ?_⟩
    rw [hinode₃, hpos₃, ← hrest]
    have hfrom : file.pos + readSize + r.name.length + r.pad.length = file.pos + r.totalLen := by
      omega
    have hcount : file.inode.size - file.pos - readSize - r.name.length - r.pad.length =
        file.inode.size - (file.pos + r.totalLen) := by omega
    rw [hfrom, hcount]
    rfl
  refine ⟨⟨r.inodeNum.toNat, r.totalLen, r.name.length, r.typeIndicator.toNat,
    Function.update name r.name.length 0⟩, file₃, ?_, hinode₃, hat, rfl, rfl, rfl, rfl, hholds⟩
  rw [ext2NextDirent, hcall, except_ok_bind]
  simp only [ne_eq, not_true_eq_false, if_false]
  rw [hfinode, hftotal, hfname, hftype, hleft, Nat.add_sub_cancel, hcall₂, except_ok_bind]
  simp only [not_true_eq_false, if_false]
  by_cases hpad : 0 < r.pad.length
  · rw [if_pos hpad] at hcall₃ ⊢
    cases hthird : ext2Read fs file₂ stack r.pad.length with
    | error e => simp [hthird, Except.map] at hcall₃
    | ok res =>
      obtain rfl : res.1 = file₃ := by simpa [hthird, Except.map] using hcall₃
      rw [except_ok_bind]
  · rw [if_neg hpad] at hcall₃ ⊢
    rw [Except.ok.inj hcall₃]

/-- **At the end of the records** there is no entry, and the file stays there. -/
theorem ext2NextDirent_nil (stack fresh : Memory)
    (hread : ∀ i < 12, DeliversBlock fs (file.inode.dbp i))
    (hsize : file.inode.size < 12 * fs.blockSize) (h : AtRecords fs file []) :
    ∃ file', ext2NextDirent fs stack fresh file = .ok (none, file') ∧
      file'.inode = file.inode ∧ AtRecords fs file' [] := by
  have hblock := blockSize_le_of_deliversBlock (hread 0 (by decide))
  have hend : file.inode.size - file.pos = 0 := by
    have := congrArg List.length h.rest
    simpa [fileBytes, encodeDir] using this
  have hwrap : file.pos + readSize < 2 ^ 32 := by
    have := h.pos_le
    simp only [readSize, sectorSize] at *
    omega
  obtain ⟨file', buf, hcall, hinode, hpos, hfile', -⟩ :=
    ext2Read_spec stack readSize hread h.positioned hsize h.pos_le hwrap
  rw [hend, Nat.min_zero] at hcall hpos
  refine ⟨file', ?_, hinode, hfile', by rw [hinode, hpos]; exact h.pos_le, ?_⟩
  · simp only [ext2NextDirent, hcall, except_ok_bind]
    rw [if_pos (by decide)]
  · rw [hinode, hpos]
    exact h.rest

/-- A freshly opened directory is in front of its records. -/
theorem atRecords_of_ext2OpenInode {stack fresh : Memory} {n : ℕ}
    (hopen : ext2OpenInode fs stack fresh n = .ok file)
    (hread : ∀ i < 12, DeliversBlock fs (file.inode.dbp i))
    (hsize : file.inode.size < 12 * fs.blockSize)
    (hdir : fileBytes fs file.inode 0 file.inode.size = encodeDir records) :
    AtRecords fs file records := by
  obtain ⟨hzero, hpos⟩ := positioned_of_ext2OpenInode hopen (hread 0 (by decide)) (by omega)
  exact ⟨hpos, by omega, by rw [hzero]; exact hdir⟩

/-! ### The whole directory -/

/-- `n` calls of `ext2_next_dirent`, one after the other; the local arrays and the new name buffer
of a call hold `stack i` and `fresh i` where `i` calls come after it. -/
def ext2NextDirents (fs : Ext2Fs) (stack fresh : ℕ → Memory) :
    ℕ → Ext2File → Except Stop (List (Option Ext2Dirent))
  | 0, _ => .ok []
  | n + 1, file => do
    let (dirent, file) ← ext2NextDirent fs (stack n) (fresh n) file
    let dirents ← ext2NextDirents fs stack fresh n file
    .ok (dirent :: dirents)

/-- An entry that holds the inode number, the lengths, the type and the name of a record. -/
structure Ext2Dirent.Holds (dirent : Ext2Dirent) (r : DirRecord) : Prop where
  inodeNum_eq : dirent.inodeNum = r.inodeNum.toNat
  totalLen_eq : dirent.totalLen = r.totalLen
  nameLen_eq : dirent.nameLen = r.name.length
  typeIndicator_eq : dirent.typeIndicator = r.typeIndicator.toNat
  name_eq : HoldsName dirent.name r.name

/-- Calls on a file at the end of its records. -/
theorem ext2NextDirents_nil (stack fresh : ℕ → Memory) (n : ℕ)
    (hread : ∀ i < 12, DeliversBlock fs (file.inode.dbp i))
    (hsize : file.inode.size < 12 * fs.blockSize) (h : AtRecords fs file []) :
    ext2NextDirents fs stack fresh n file = .ok (List.replicate n none) := by
  induction n generalizing file with
  | zero => rfl
  | succ n ih =>
    obtain ⟨file', hcall, hinode, hat⟩ := ext2NextDirent_nil (stack n) (fresh n) hread hsize h
    rw [ext2NextDirents, hcall, except_ok_bind]
    dsimp only
    rw [ih (by rwa [hinode]) (by rwa [hinode]) hat]
    rfl

/-- Calls on a file in front of a list of records: the records in order, and then no entry. -/
theorem ext2NextDirents_spec (stack fresh : ℕ → Memory) (n : ℕ)
    (hread : ∀ i < 12, DeliversBlock fs (file.inode.dbp i))
    (hsize : file.inode.size < 12 * fs.blockSize) (h : AtRecords fs file records) :
    ∃ dirents : List Ext2Dirent,
      ext2NextDirents fs stack fresh (records.length + n) file =
        .ok (dirents.map some ++ List.replicate n none) ∧
      List.Forall₂ Ext2Dirent.Holds dirents records := by
  induction records generalizing file with
  | nil =>
    refine ⟨[], ?_, .nil⟩
    simpa using ext2NextDirents_nil stack fresh n hread hsize h
  | cons r records ih =>
    obtain ⟨dirent, file', hcall, hinode, hat, hnum, htotal, hlen, htype, hname⟩ :=
      ext2NextDirent_cons (stack (records.length + n)) (fresh (records.length + n)) hread hsize h
    obtain ⟨dirents, hrest, hholds⟩ := ih (by rwa [hinode]) (by rwa [hinode]) hat
    refine ⟨dirent :: dirents, ?_, .cons ⟨hnum, htotal, hlen, htype, hname⟩ hholds⟩
    rw [List.length_cons, Nat.add_right_comm, ext2NextDirents, hcall, except_ok_bind]
    dsimp only
    rw [hrest]
    rfl

/-- **Directory decoding undoes encoding.** On a freshly opened directory of fewer than
`12 * block_size` bytes whose blocks `read_block` delivers, and which holds a list of records laid
end to end, repeated calls of `ext2_next_dirent` return the records one by one, each with its inode
number and its name, and then return false, however often they are repeated. -/
theorem ext2NextDirents_encodeDir {stack₀ fresh₀ : Memory} {n : ℕ}
    (hopen : ext2OpenInode fs stack₀ fresh₀ n = .ok file)
    (hread : ∀ i < 12, DeliversBlock fs (file.inode.dbp i))
    (hsize : file.inode.size < 12 * fs.blockSize)
    (hdir : fileBytes fs file.inode 0 file.inode.size = encodeDir records)
    (stack fresh : ℕ → Memory) (m : ℕ) :
    ∃ dirents : List Ext2Dirent,
      ext2NextDirents fs stack fresh (records.length + m) file =
        .ok (dirents.map some ++ List.replicate m none) ∧
      List.Forall₂ Ext2Dirent.Holds dirents records :=
  ext2NextDirents_spec stack fresh m hread hsize (atRecords_of_ext2OpenInode hopen hread hsize hdir)

end

/-! ### The sample directory -/

/-- The name `b` is short enough for a record. -/
theorem nameB_lt : ([98] : List Byte).length < 2 ^ 8 := by decide

/-- A record of twelve bytes for the name `b` is not too long. -/
theorem recordB_lt : 8 + ([98] : List Byte).length + ([0, 0, 0] : List Byte).length < 2 ^ 16 := by
  decide

/-- The records of the sample directory. -/
def sampleRecords : List DirRecord :=
  [⟨2, 2, [46], [0, 0, 0], by decide, by decide⟩, ⟨12, 1, [98], [0, 0, 0], nameB_lt, recordB_lt⟩]

/-- The sample directory, opened. -/
theorem open_sampleDir : ∃ file,
    ext2OpenInode sampleFs (fun _ => 0) (fun _ => 0) 2 = .ok file ∧
      file.inode.size < 12 * sampleFs.blockSize ∧
      (∀ i < 12, DeliversBlock sampleFs (file.inode.dbp i)) ∧
      fileBytes sampleFs file.inode 0 file.inode.size = encodeDir sampleRecords := by
  obtain ⟨file, hopen, -, hlt, hread, hdir⟩ := open_sampleFs
  have hrecords : sampleDir = encodeDir sampleRecords := by decide +kernel
  exact ⟨file, hopen, hlt, hread, hdir.trans hrecords⟩

/-- The sample directory read to its end. -/
theorem ext2NextDirents_sample : ∃ file, ∃ dirents : List Ext2Dirent,
    ext2OpenInode sampleFs (fun _ => 0) (fun _ => 0) 2 = .ok file ∧
      (∀ i < 12, DeliversBlock sampleFs (file.inode.dbp i)) ∧
      file.inode.size < 12 * sampleFs.blockSize ∧
      fileBytes sampleFs file.inode 0 file.inode.size = encodeDir sampleRecords ∧
      ext2NextDirents sampleFs (fun _ _ => 0) (fun _ _ => 0) 3 file =
        .ok (dirents.map some ++ [none]) ∧
      List.Forall₂ Ext2Dirent.Holds dirents sampleRecords := by
  obtain ⟨file, hopen, hlt, hread, hdir⟩ := open_sampleDir
  obtain ⟨dirents, hcalls, hholds⟩ :=
    ext2NextDirents_encodeDir hopen hread hlt hdir (fun _ _ => 0) (fun _ _ => 0) 1
  exact ⟨file, dirents, hopen, hread, hlt, hdir, hcalls, hholds⟩

end Studix.Ext2
