import Studix.Fs.Ext2Inode
import Studix.Fs.Ext2Open
import Studix.Fs.Ext2VfsRead
import Studix.Fs.Ext2Walk

/-!
# Ext2 as a tree of names

What the filesystem is for: paths lead through directories to files. A volume gives the directories
and files by themselves, directories as partial functions from names to numbers. A disk represents a
volume when the bytes of its inodes and blocks are those of the directories and files, in places
that the driver reaches.

On such a disk the lookup of a path is the walk through the volume, and an open followed by reads in
order delivers the contents of the file that the path names. Where a path leads through a file that
is not a directory, the code goes on with the bytes of the file, and nothing is said here.

## Main definitions

* `Volume`, `Volume.lookUp`: directories and files, and what a path names.
* `Stored`, `Content.StoredAs`, `Represents`: bytes, contents, and a volume, on the disk.

## Main results

* `Stored.open_eq`: a stored file is opened, with its contents.
* `lookUp_spec`, `openFsNode_refines`: path lookup and open refine the walk through the volume.
* `open_read_eq_take`: opening a path and reading in order.
-/

namespace Studix.Ext2

open Vfs

/-! ### Volumes -/

/-- What a number stands for: a directory, by the numbers of its entries, or a file. -/
inductive Content
  | directory (entries : List Byte → Option ℕ)
  | file (data : List Byte)

/-- Directories and files under numbers. The root is a directory, and entries are for something. -/
structure Volume where
  content : ℕ → Option Content
  root : ∃ entries, content rootInodeNum = some (.directory entries)
  closed : ∀ {n entries name m}, content n = some (.directory entries) → entries name = some m →
    (content m).isSome

/-- Why a walk fails. -/
inductive WalkError
  | notFound
  | notDirectory
  deriving DecidableEq

namespace Volume

variable (vol : Volume)

/-- The walk along names. -/
def walk : ℕ → List (List Byte) → Except WalkError ℕ
  | n, [] => .ok n
  | n, name :: names =>
    match vol.content n with
    | some (.directory entries) =>
      match entries name with
      | some m => walk m names
      | none => .error .notFound
    | _ => .error .notDirectory

/-- What a path names. Only absolute paths name something. -/
def lookUp (path : List Byte) : Except WalkError ℕ :=
  if path.head? = some slash then vol.walk rootInodeNum (components path.tail)
  else .error .notFound

/-- The number that a lookup returns: 0 for nothing. -/
def number : Except WalkError ℕ → ℕ
  | .ok n => n
  | .error _ => 0

variable {vol}

/-- A walk leads to something. -/
theorem isSome_of_walk {names : List (List Byte)} {n m : ℕ} (hn : (vol.content n).isSome)
    (h : vol.walk n names = .ok m) : (vol.content m).isSome := by
  induction names generalizing n with
  | nil => rwa [← Except.ok.inj h]
  | cons name names ih =>
    rw [walk] at h
    rcases hcontent : vol.content n with _ | entries | data
    · rw [hcontent] at h
      cases h
    · rw [hcontent] at h
      cases hentry : entries name with
      | none =>
        simp only [hentry] at h
        cases h
      | some next =>
        simp only [hentry] at h
        exact ih (vol.closed hcontent hentry) h
    · rw [hcontent] at h
      cases h

theorem isSome_of_lookUp {str : List Byte} {n : ℕ} (h : vol.lookUp str = .ok n) :
    (vol.content n).isSome := by
  obtain ⟨entries, hroot⟩ := vol.root
  rw [lookUp] at h
  split_ifs at h
  exact isSome_of_walk (by rw [hroot]; rfl) h

end Volume

/-! ### Files on the disk -/

/-- Blocks of two, four or eight sectors. -/
structure Geometry (fs : Ext2Fs) : Prop where
  blockSize : fs.blockSize = 1024 ∨ fs.blockSize = 2048 ∨ fs.blockSize = 4096
  inodesPerGroup_pos : 0 < fs.superblock.inodesPerGroup

/-- Inode `n`, by the bytes of the inode table. -/
def inodeOnDisk (fs : Ext2Fs) (n : ℕ) : Ext2Inode :=
  ⟨fun i => diskByte fs.disk (inodeAddr fs n + i)⟩

/-- The bytes of a file are on the disk, inside the direct blocks of inode `n`. The inode is one of
the first four of its block, and it and the blocks lie in the first 4 GiB. -/
structure Stored (fs : Ext2Fs) (n : ℕ) (data : List Byte) : Prop where
  num_pos : 0 < n
  num_lt : n < 2 ^ 32
  inode_lt : inodeAddr fs n + inodeSize ≤ 2 ^ 32
  inode_sector : (n - 1) % fs.superblock.inodesPerGroup * inodeSize % fs.blockSize < sectorSize
  blocks_lt : ∀ i < 12, (inodeOnDisk fs n).dbp i * fs.blockSize < 2 ^ 32
  length_lt : data.length < 12 * fs.blockSize
  size_eq : (inodeOnDisk fs n).size = data.length
  data_eq : fileBytes fs (inodeOnDisk fs n) 0 data.length = data

/-- The entries of a directory, by its live records. -/
def entriesOf (records : List DirRecord) (name : List Byte) : Option ℕ :=
  if firstLive records name = 0 then none else some (firstLive records name)

/-- The bytes that stand for a directory or a file. -/
def Content.StoredAs : Content → List Byte → Prop
  | .directory entries, bytes =>
    ∃ records, entries = entriesOf records ∧ bytes = encodeDir records
  | .file data, bytes => bytes = data

/-- The directories and files of a volume are on the disk. In a directory the first record with a
name is not an unused one with a live one behind it. -/
structure Represents (fs : Ext2Fs) (vol : Volume) : Prop where
  geometry : Geometry fs
  directory : ∀ {n entries}, vol.content n = some (.directory entries) → ∃ records,
    Stored fs n (encodeDir records) ∧ (∀ r ∈ records, (0 : Byte) ∉ r.name) ∧
      (∀ name, NoStaleBefore records name) ∧ entries = entriesOf records
  file : ∀ {n data}, vol.content n = some (.file data) → Stored fs n data

section

variable {fs : Ext2Fs} {n : ℕ} {data : List Byte}

theorem Geometry.blockSize_pos (h : Geometry fs) : 0 < fs.blockSize := by
  have := h.blockSize
  omega

/-- The blocks in the first 4 GiB are delivered. -/
theorem Geometry.deliversBlock (h : Geometry fs) {b : ℕ} (hb : b * fs.blockSize < 2 ^ 32) :
    DeliversBlock fs b := by
  refine deliversBlock_of_lt ?_ ?_ hb <;>
    rcases h.blockSize with hblock | hblock | hblock <;> rw [hblock] <;> decide

/-- An inode stores one file. -/
theorem Stored.data_unique {data' : List Byte} (h : Stored fs n data) (h' : Stored fs n data') :
    data = data' := by
  rw [← h.data_eq, ← h'.data_eq, ← h.size_eq, h'.size_eq]

/-- An inode in the first sector of its block is read. -/
theorem Stored.readInode_eq (h : Stored fs n data) (hgeometry : Geometry fs) (stack : Memory) :
    ∃ inode, readInode fs stack n = .ok inode ∧
      ∀ i < inodeSize, inode.raw i = (inodeOnDisk fs n).raw i := by
  have hmod : fs.blockSize % sectorSize = 0 ∧ inodeSize ∣ fs.blockSize := by
    rcases hgeometry.blockSize with hblock | hblock | hblock <;> rw [hblock] <;> decide
  obtain ⟨hoffset, haddr⟩ :=
    inodeAddr_eq h.num_pos h.num_lt hmod.1 hgeometry.blockSize_pos h.inode_lt
  have hin := h.inode_sector
  rw [← hoffset] at hin
  have hdvd : offsetInBlock fs n % inodeSize = 0 := by
    rw [hoffset, Nat.mod_mod_of_dvd _ hmod.2, Nat.mul_mod_left]
  simp only [inodeSize, sectorSize] at hdvd hin
  have heven : offsetInBlock fs n / 2 * 2 = offsetInBlock fs n := by omega
  obtain ⟨inode, hread, hraw⟩ :=
    readInode_spec hgeometry.inodesPerGroup_pos hgeometry.blockSize_pos stack n
  refine ⟨inode, hread, fun i hi => ?_⟩
  rw [hraw, heven, if_pos (by simp only [inodeSize, sectorSize] at *; omega), inodeOnDisk, haddr]
  dsimp only
  rw [Nat.add_assoc]

/-- **A stored file is opened**, whatever the memory holds that the open does not set. -/
theorem Stored.open_eq (h : Stored fs n data) (hgeometry : Geometry fs) (stack fresh : Memory) :
    ∃ file, ext2OpenInode fs stack fresh n = .ok file ∧
      (∀ i < 12, DeliversBlock fs (file.inode.dbp i)) ∧
      file.inode.size < 12 * fs.blockSize ∧ file.inode.size = data.length ∧
      fileBytes fs file.inode 0 file.inode.size = data := by
  obtain ⟨inode, hinode, hraw⟩ := h.readInode_eq hgeometry stack
  have hfield : ∀ a, a + 4 ≤ inodeSize → load32 inode.raw a = load32 (inodeOnDisk fs n).raw a := by
    intro a ha
    refine load32_congr fun x hx => hraw x ?_
    have := Set.mem_Ico.mp hx
    omega
  have hsize : inode.size = data.length := (hfield 4 (by decide)).trans h.size_eq
  have hdbp : ∀ i < 12, inode.dbp i = (inodeOnDisk fs n).dbp i := fun i hi =>
    hfield (40 + 4 * i) (by simp only [inodeSize]; omega)
  have hread : ∀ i < 12, DeliversBlock fs (inode.dbp i) := fun i hi => by
    rw [hdbp i hi]
    exact hgeometry.deliversBlock (h.blocks_lt i hi)
  obtain ⟨block, hblock, -⟩ := hread 0 (by decide) fresh
  refine ⟨⟨inode, 0, 0, block, 0⟩, ?_, hread, by rw [hsize]; exact h.length_lt, hsize, ?_⟩
  · rw [ext2OpenInode, hinode, except_ok_bind, hblock, except_ok_bind]
  · refine Eq.trans ?_ h.data_eq
    dsimp only
    rw [hsize]
    refine List.map_congr_left fun i hi => ?_
    have hlt := h.length_lt
    have hindex : (0 + i) / fs.blockSize < 12 := by
      rw [Nat.div_lt_iff_lt_mul hgeometry.blockSize_pos]
      have := List.mem_range.mp hi
      omega
    rw [fileByte, hdbp _ hindex, fileByte]

end

/-! ### Paths -/

section

variable {fs : Ext2Fs} {vol : Volume} {n k : ℕ} {entries : List Byte → Option ℕ}
  {content : Content} {name str : List Byte} {names : List (List Byte)} {path m : Memory}

/-- **The lookup of a name in a directory of the volume.** -/
theorem Represents.findInDir_eq (h : Represents fs vol)
    (hdir : vol.content n = some (.directory entries)) (unset : ℕ → Unset)
    (hm : IsCString m name) : ext2FindInDir fs unset n m = .ok ((entries name).getD 0) := by
  obtain ⟨records, hstored, hnul, hstale, rfl⟩ := h.directory hdir
  obtain ⟨file, hopen, hread, hlt, -, hdata⟩ :=
    hstored.open_eq h.geometry (unset 0).stack (unset 0).fresh
  rw [ext2FindInDir_spec hopen hread hlt hdata hnul hm,
    firstNamed_eq_firstLive_iff.mpr (hstale name), entriesOf]
  split_ifs with hzero
  · rw [hzero]
    rfl
  · rfl

/-- Entries have numbers other than 0. -/
theorem Represents.entry_ne_zero (h : Represents fs vol)
    (hdir : vol.content n = some (.directory entries)) {next : ℕ}
    (hentry : entries name = some next) :
    next ≠ 0 := by
  obtain ⟨records, -, -, -, rfl⟩ := h.directory hdir
  rw [entriesOf] at hentry
  split_ifs at hentry with hzero
  rwa [← Option.some.inj hentry]

/-- **The walk of the code is the walk through the volume**, unless that is stopped by a file. -/
theorem resolveFrom_eq_walk (h : Represents fs vol) (unset : ℕ → ℕ → Unset)
    (hnul : ∀ name ∈ names, (0 : Byte) ∉ name) (hwalk : vol.walk n names ≠ .error .notDirectory) :
    resolveFrom (findName fs unset) k n names = .ok (Volume.number (vol.walk n names)) := by
  induction names generalizing n k with
  | nil => rfl
  | cons name names ih =>
    rw [List.forall_mem_cons] at hnul
    rw [Volume.walk] at hwalk ⊢
    rcases hcontent : vol.content n with _ | entries | data
    · rw [hcontent] at hwalk
      exact absurd rfl hwalk
    · rw [hcontent] at hwalk
      have hfind : findName fs unset k n name = .ok ((entries name).getD 0) :=
        h.findInDir_eq hcontent (unset k) (isCString_bufferOf name hnul.1)
      rw [resolveFrom, hfind, except_ok_bind]
      dsimp only at hwalk ⊢
      cases hentry : entries name with
      | none => rfl
      | some next =>
        rw [hentry] at hwalk
        rw [Option.getD_some, if_neg (h.entry_ne_zero hcontent hentry)]
        exact ih hnul.2 hwalk
    · rw [hcontent] at hwalk
      exact absurd rfl hwalk

/-- The lookup of a string is the walk of its components. -/
theorem lookUp_spec (h : Represents fs vol) (unset : ℕ → ℕ → Unset) (hpath : IsCString path str)
    (hlen : str.length < 2 ^ 32) (hwalk : vol.lookUp str ≠ .error .notDirectory) :
    ext2LookUpPath fs unset path = .ok (Volume.number (vol.lookUp str), path) := by
  rw [Volume.lookUp] at hwalk ⊢
  cases str with
  | nil =>
    have hnul : path 0 = 0 := hpath.nul
    rw [ext2LookUpPath, lookUpPathWith, hnul, if_pos (by decide)]
    rfl
  | cons c rest =>
    have hfirst : path 0 = c := hpath.apply (Nat.succ_pos _)
    rw [List.head?_cons] at hwalk ⊢
    by_cases hc : c = slash
    · subst hc
      rw [if_pos rfl, List.tail_cons] at hwalk ⊢
      rw [List.length_cons] at hlen
      have hnul : ∀ name ∈ components rest, (0 : Byte) ∉ name :=
        not_mem_components fun h => hpath.ne_zero 0 (List.mem_cons_of_mem _ h) rfl
      rw [ext2LookUpPath_spec hpath hlen, resolveFrom_eq_walk h unset hnul hwalk]
      rfl
    · rw [if_neg fun h => hc (Option.some.inj h)]
      rw [ext2LookUpPath, lookUpPathWith, hfirst, if_pos hc]
      rfl

/-- What a number of the volume stands for is on the disk. -/
theorem Represents.stored (h : Represents fs vol) (hn : vol.content n = some content) :
    ∃ data, Stored fs n data ∧ content.StoredAs data := by
  cases content with
  | directory entries =>
    obtain ⟨records, hstored, -, -, hentries⟩ := h.directory hn
    exact ⟨encodeDir records, hstored, records, hentries, rfl⟩
  | file data => exact ⟨data, h.file hn, rfl⟩

/-- An open of a path that names something opens what it names. -/
theorem ext2VfsOpen_of_lookUp {node : FsNode Ext2File} (h : Represents fs vol)
    (unset : ℕ → ℕ → Unset) (fresh : Unset) (hname : IsCString node.name str)
    (hlen : str.length < 2 ^ 32) (hlook : vol.lookUp str = .ok n) :
    ∃ file content, ext2VfsOpen fs unset fresh node =
        .ok { node with inode := n, impl := some file } ∧
      ext2OpenInode fs fresh.stack fresh.fresh n = .ok file ∧
      (∀ i < 12, DeliversBlock fs (file.inode.dbp i)) ∧ file.inode.size < 12 * fs.blockSize ∧
      vol.content n = some content ∧
      content.StoredAs (fileBytes fs file.inode 0 file.inode.size) := by
  obtain ⟨content, hcontent⟩ := Option.isSome_iff_exists.mp (Volume.isSome_of_lookUp hlook)
  obtain ⟨data, hstored, hdata⟩ := h.stored hcontent
  obtain ⟨file, hfile, hread, hlt, -, hbytes⟩ :=
    hstored.open_eq h.geometry fresh.stack fresh.fresh
  have hpath : ext2LookUpPath fs unset node.name = .ok (n, node.name) := by
    rw [lookUp_spec h unset hname hlen (by simp [hlook]), hlook]
    rfl
  refine ⟨file, content, ?_, hfile, hread, hlt, hcontent, by rwa [hbytes]⟩
  rw [ext2VfsOpen, hpath, except_ok_bind]
  dsimp only
  rw [if_pos hstored.num_pos.ne', hfile, except_ok_bind]

theorem take_fileBytes (fs : Ext2Fs) (inode : Ext2Inode) (a j k : ℕ) :
    (fileBytes fs inode a k).take j = fileBytes fs inode a (min j k) := by
  rw [fileBytes, ← List.map_take, List.take_range, fileBytes]

end

/-! ### The filesystem refines the volume -/

/-- **Opening refines the walk through the volume.** On a disk that represents a volume, and for
every string as the name of a node: where the string names something as an absolute path, the open
stores its number, and a file at its beginning with the bytes of the file, or with the records of
the directory; where it names nothing, the open leaves the number 0 and no file. Only a path through
a file that is not a directory is left out. -/
theorem openFsNode_refines {fs : Ext2Fs} {vol : Volume} {node : FsNode Ext2File} {str : List Byte}
    (h : Represents fs vol) (unset : ℕ → ℕ → Unset) (fresh : Unset)
    (hname : IsCString node.name str) (hlen : str.length < 2 ^ 32) (hopen : node.open' = true) :
    (∀ n, vol.lookUp str = .ok n → ∃ file,
      openFsNode node (ext2VfsOpen fs unset fresh) =
        .ok { node with inode := n, impl := some file } ∧ file.pos = 0 ∧
      ∃ content, vol.content n = some content ∧
        content.StoredAs (fileBytes fs file.inode 0 file.inode.size)) ∧
    (vol.lookUp str = .error .notFound →
      openFsNode node (ext2VfsOpen fs unset fresh) = .ok { node with inode := 0 }) := by
  rw [openFsNode, if_pos hopen]
  constructor
  · intro n hlook
    obtain ⟨file, content, hvfs, hfile, hread, -, hcontent, hbytes⟩ :=
      ext2VfsOpen_of_lookUp h unset fresh hname hlen hlook
    obtain ⟨hzero, -⟩ :=
      positioned_of_ext2OpenInode hfile (hread 0 (by decide)) h.geometry.blockSize_pos
    exact ⟨file, hvfs, hzero, content, hcontent, hbytes⟩
  · intro hlook
    have hpath : ext2LookUpPath fs unset node.name = .ok (0, node.name) := by
      rw [lookUp_spec h unset hname hlen (by simp [hlook]), hlook]
      rfl
    exact ext2VfsOpen_of_not_found hpath

/-- **Opening a path and reading in order** delivers the contents of the file that the path names,
as many bytes as were asked for and the file has, whatever the sizes of the reads. -/
theorem open_read_eq_take {fs : Ext2Fs} {vol : Volume} {node : FsNode Ext2File} {n : ℕ}
    {str data : List Byte} {calls : List ReadNodeCall} (h : Represents fs vol)
    (unset : ℕ → ℕ → Unset) (fresh : Unset) (hname : IsCString node.name str)
    (hlen : str.length < 2 ^ 32) (hnode : node.open' = true ∧ node.read = true)
    (hlook : vol.lookUp str = .ok n) (hfile : vol.content n = some (.file data))
    (horder : InOrder data.length 0 calls)
    (hwrap : NoWrap data.length 0 (calls.map ReadNodeCall.size)) :
    ∃ node', openFsNode node (ext2VfsOpen fs unset fresh) = .ok node' ∧
      ∃ results, readNodeCalls fs node' calls = .ok results ∧
        results.flatten = data.take (requested calls) := by
  obtain ⟨file, content, hvfs, hopen, hread, hlt, hcontent, hbytes⟩ :=
    ext2VfsOpen_of_lookUp h unset fresh hname hlen hlook
  obtain rfl := Option.some.inj (hfile.symm.trans hcontent)
  have hdata : fileBytes fs file.inode 0 file.inode.size = data := hbytes
  have hsize : file.inode.size = data.length := by
    rw [← hdata, fileBytes, List.length_map, List.length_range]
  obtain ⟨hzero, hpos⟩ :=
    positioned_of_ext2OpenInode hopen (hread 0 (by decide)) h.geometry.blockSize_pos
  obtain ⟨node', hnode'⟩ : ∃ x : FsNode Ext2File,
      x = { node with inode := n, impl := some file } := ⟨_, rfl⟩
  have hread' : node'.read = true := by rw [hnode', hnode.2]
  have himpl : node'.impl = some file := by rw [hnode']
  rw [← hsize, ← hzero] at hwrap horder
  have hspec := readNodeCalls_spec hread' himpl hread hpos (by omega) (by omega) hwrap
  rw [if_pos ⟨horder, by omega⟩, hzero, Nat.sub_zero] at hspec
  obtain ⟨results, hcalls, hflat⟩ := hspec
  refine ⟨node', by rw [openFsNode, if_pos hnode.1, hvfs, hnode'], results, hcalls, ?_⟩
  rw [hflat, ← take_fileBytes, hdata]

/-! ### A small volume -/

/-- A directory with one record has no entry but that. -/
theorem eq_of_entriesOf_singleton {r : DirRecord} {name : List Byte} {m : ℕ}
    (h : entriesOf [r] name = some m) : m = r.inodeNum.toNat := by
  by_cases hlive : r.inodeNum = 0 ∨ r.name ≠ name
  · have hzero : firstLive [r] name = 0 := firstLive_eq_zero_iff.mpr fun r' hr' heq => by
      obtain rfl := List.mem_singleton.mp hr'
      exact hlive.resolve_right (not_not.mpr heq)
    rw [entriesOf, if_pos hzero] at h
    cases h
  · rw [not_or, not_not] at hlive
    have hfirst : firstLive [r] name = r.inodeNum.toNat := by
      rw [firstLive, List.filter_cons_of_pos (by simpa using hlive.1), firstNamed_cons,
        if_pos hlive.2]
    rw [entriesOf, hfirst] at h
    split_ifs at h
    exact (Option.some.inj h).symm

/-- A root directory with one record, and a file under its number. -/
def oneFile (r : DirRecord) (data : List Byte) : Volume where
  content n :=
    if n = rootInodeNum then some (.directory (entriesOf [r]))
    else if n = r.inodeNum.toNat then some (.file data) else none
  root := ⟨entriesOf [r], if_pos rfl⟩
  closed := by
    intro n entries name m hcontent hentry
    have hm : m = r.inodeNum.toNat := by
      split_ifs at hcontent
      · obtain rfl := Content.directory.inj (Option.some.inj hcontent)
        exact eq_of_entriesOf_singleton hentry
      · cases hcontent
    rw [hm, if_pos (rfl : r.inodeNum.toNat = r.inodeNum.toNat)]
    split_ifs <;> rfl

theorem oneFile_represents {fs : Ext2Fs} {r : DirRecord} {data : List Byte}
    (hgeometry : Geometry fs) (hroot : Stored fs rootInodeNum (encodeDir [r]))
    (hfile : Stored fs r.inodeNum.toNat data) (hlive : r.inodeNum ≠ 0)
    (hnul : (0 : Byte) ∉ r.name) :
    Represents fs (oneFile r data) where
  geometry := hgeometry
  directory := by
    intro n entries hcontent
    have hn : n = rootInodeNum ∧ entries = entriesOf [r] := by
      simp only [oneFile] at hcontent
      split_ifs at hcontent with h
      · exact ⟨h, (Content.directory.inj (Option.some.inj hcontent)).symm⟩
      · cases hcontent
    obtain ⟨rfl, rfl⟩ := hn
    refine ⟨[r], hroot, by simpa using hnul, fun name r' hr' hzero => ?_, rfl⟩
    obtain rfl := List.mem_singleton.mp (List.mem_of_find?_eq_some hr')
    exact absurd hzero hlive
  file := by
    intro n d hcontent
    have hn : n = r.inodeNum.toNat ∧ d = data := by
      simp only [oneFile] at hcontent
      split_ifs at hcontent with h₁ h₂
      · cases hcontent
      · exact ⟨h₂, (Content.file.inj (Option.some.inj hcontent)).symm⟩
    obtain ⟨rfl, rfl⟩ := hn
    exact hfile

/-- The root directory with the file `a`, inode 12. -/
def craftedVolume : Volume := oneFile recordA recordB.encode

theorem craftedFs_represents : Represents craftedFs craftedVolume := by
  refine oneFile_represents ⟨.inl rfl, by decide⟩ ?_ ?_ (by decide) (by decide)
  · exact ⟨by decide, by decide, by decide, by decide, by decide +kernel, by decide,
      by decide +kernel, by decide +kernel⟩
  · exact ⟨by decide, by decide, by decide, by decide, by decide +kernel, by decide,
      by decide +kernel, by decide +kernel⟩

/-- The record of the directory itself in a root directory. -/
def recordDot : DirRecord := ⟨2, 2, [46], [0, 0, 0], nameB_lt, recordB_lt⟩

/-- A filesystem whose root directory has no entry but `.`. -/
def dotFs : Ext2Fs :=
  { sampleFs with
    disk := fun lba o =>
      if lba = 10 then if o = 129 then 0x41 else if o = 132 then 12 else if o = 168 then 10 else 0
      else if lba = 20 then recordDot.encode.getD o 0
      else 0 }

/-- The root directory by itself. -/
def dotVolume : Volume := oneFile recordDot recordDot.encode

theorem dotFs_represents : Represents dotFs dotVolume := by
  have hroot : Stored dotFs 2 recordDot.encode :=
    ⟨by decide, by decide, by decide, by decide, by decide +kernel, by decide, by decide +kernel,
      by decide +kernel⟩
  exact oneFile_represents ⟨.inl rfl, by decide⟩ hroot hroot (by decide) (by decide)

theorem lookUp_dot : dotVolume.lookUp [47, 46] = .ok 2 := by decide +kernel

/-- A node with a path as its name. -/
def pathNode (path : List Byte) : FsNode Ext2File :=
  { ext2Root (fun _ => 0) with name := bufferOf path }

theorem lookUp_a : craftedVolume.lookUp [47, 97] = .ok 12 := by decide +kernel

/-- The file `a` is opened, and so is the root directory by its entry `.`. -/
theorem openFsNode_refines_crafted :
    (∃ file, openFsNode (pathNode [47, 97])
        (ext2VfsOpen craftedFs (fun _ => zeroUnset) (zeroUnset 0)) =
          .ok { pathNode [47, 97] with inode := 12, impl := some file } ∧
      fileBytes craftedFs file.inode 0 file.inode.size = recordB.encode) ∧
    ∃ file records, openFsNode (pathNode [47, 46])
        (ext2VfsOpen dotFs (fun _ => zeroUnset) (zeroUnset 0)) =
          .ok { pathNode [47, 46] with inode := 2, impl := some file } ∧
      fileBytes dotFs file.inode 0 file.inode.size = encodeDir records ∧
      entriesOf records [46] = some 2 := by
  constructor
  · obtain ⟨file, hopen, -, content, hcontent, hbytes⟩ :=
      (openFsNode_refines craftedFs_represents (fun _ => zeroUnset) (zeroUnset 0)
        (isCString_bufferOf [47, 97] (by decide)) (by decide)
        (rfl : (pathNode [47, 97]).open' = true)).1 12 lookUp_a
    obtain rfl := Option.some.inj hcontent
    exact ⟨file, hopen, hbytes⟩
  · obtain ⟨file, hopen, -, content, hcontent, hbytes⟩ :=
      (openFsNode_refines dotFs_represents (fun _ => zeroUnset) (zeroUnset 0)
        (isCString_bufferOf [47, 46] (by decide)) (by decide)
        (rfl : (pathNode [47, 46]).open' = true)).1 2 lookUp_dot
    obtain rfl := Option.some.inj hcontent
    obtain ⟨records, hentries, hbytes⟩ := hbytes
    refine ⟨file, records, hopen, hbytes, ?_⟩
    rw [← hentries]
    decide +kernel

/-- The file `a` is read in two requests. -/
theorem open_read_eq_take_crafted : ∃ node',
    openFsNode (pathNode [47, 97]) (ext2VfsOpen craftedFs (fun _ => zeroUnset) (zeroUnset 0)) =
        .ok node' ∧
      ∃ results, readNodeCalls craftedFs node' [⟨0, 5, fun _ => 0⟩, ⟨5, 100, fun _ => 0⟩] =
        .ok results ∧ results.flatten = recordB.encode.take 105 :=
  open_read_eq_take craftedFs_represents (fun _ => zeroUnset) (zeroUnset 0)
    (isCString_bufferOf [47, 97] (by decide)) (by decide) ⟨rfl, rfl⟩ lookUp_a rfl
    (by decide +kernel)
    ⟨by decide, by decide, trivial⟩

end Studix.Ext2
