import Studix.Fs.Ext2Mount
import Studix.Fs.Ext2Volume
import Studix.Term.PrintfItems

/-!
# What the kernel prints of the filesystem

`ext2_init_fs` of `src/fs/ext2.c`, which the kernel calls when it boots. It mounts the filesystem,
prints fields of the superblock and of the root inode, lists the root directory, and looks a path
up. On a disk that represents a volume, the report is made of these fields, of the records of the
root directory in their order on the disk, unused ones included, and of what the path names. The
numbers of the report are printed by `%d`, which fails from ten digits on; a creation time after the
year 2001 is such a number.

## Main definitions

* `ext2InitFs`: the static variables after mounting, and the characters printed.
* `initItems`: the report, by its texts and numbers.

## Main results

* `direntLines_spec`: the list of the root directory.
* `ext2InitFs_iff`: the disks whose report is printed.
-/

namespace Studix.Ext2

open Term

/-! ### The functions -/

namespace Ext2Inode

variable (inode : Ext2Inode)

def uid : ℕ := loadLE inode.raw 2 2

def creationTime : ℕ := load32 inode.raw 12

end Ext2Inode

/-- An argument on the stack. -/
def word (n : ℕ) : BitVec 32 := BitVec.ofNat 32 n

/-- Calls of `term_printf`, with no strings among the arguments. -/
def printfs : List (String × List (BitVec 32)) → Except Stop (List Byte)
  | [] => .ok []
  | call :: calls => do
    let cs ← termPrintf (bufferOf (ascii call.1)) (fun _ => 0) (onStack call.2)
    let rest ← printfs calls
    .ok (cs ++ rest)

/-- What `load_superblock` prints. -/
def superblockReport (fs : Ext2Fs) : Except Stop (List Byte) := printfs [
  (" total inodes    = 0x%X\n", [word fs.superblock.totalInodes]),
  (" total blocks    = 0x%X\n", [word fs.superblock.totalBlocks]),
  (" block size      = %b\n", [word fs.blockSize]),
  (" num blocks      = %d\n", [word fs.superblock.totalBlocks]),
  (" blocks/group    = %d\n", [word fs.superblock.blocksPerGroup]),
  (" inodes/group    = %d\n", [word fs.superblock.inodesPerGroup]),
  (" num groups      = %d\n", [word fs.numGroups])]

/-- What `ext2_init_fs` prints of the root inode. -/
def rootReport (inode : Ext2Inode) : Except Stop (List Byte) := printfs [
  (" / creation time = %d\n", [word inode.creationTime]),
  (" / uid           = %d\n", [word inode.uid]),
  (" / type & perms  = 0x%X\n", [word inode.typeAndPermissions]),
  (" / size          = %d\n", [word inode.size])]

/-- The contents of memory that `ext2_init_fs` and its callees do not set, and the addresses of the
names of the entries. -/
structure InitMemory where
  mount : Unset
  dir : ℕ → Unset
  names : ℕ → BitVec 32
  lookUp : ℕ → ℕ → Unset

/-- The loop over the entries of the root directory, from the `k`-th on. -/
def direntLines (fs : Ext2Fs) (m : InitMemory) : ℕ → ℕ → Ext2File → Except Stop (List Byte)
  | 0, _, _ => .error .unfinished
  | fuel + 1, k, file => do
    let (dirent, file) ← ext2NextDirent fs (m.dir k).stack (m.dir k).fresh file
    match dirent with
    | none => .ok []
    | some dirent => do
      let line ← termPrintf (bufferOf (ascii "  inode %d, name `%s'\n"))
        (fun x => dirent.name (x - (m.names k).toNat)) (onStack [word dirent.inodeNum, m.names k])
      let lines ← direntLines fs m fuel (k + 1) file
      .ok (line ++ lines)

/-- The path that `ext2_init_fs` looks up. -/
def quux : List Byte := ascii "/bar/baz/quux"

/-- What `ext2_init_fs` prints of the inode that it has found. -/
def foundReport (inode : ℕ) : Except Stop (List Byte) :=
  if inode = 0 then .ok (ascii " not found\n") else printfs [(" found: inode = %d\n", [word inode])]

/-- `ext2_init_fs`: the static variables, and the characters printed. -/
def ext2InitFs (fs : Ext2Fs) (m : InitMemory) : Except Stop (Ext2Fs × List Byte) := do
  let fs ← loadSuperblock fs m.mount.stack
  let superblock ← superblockReport fs
  let fs ← loadBgdt fs m.mount.stack m.mount.fresh
  let rootInode ← readInode fs m.mount.stack rootInodeNum
  let root ← rootReport rootInode
  let file ← ext2OpenInode fs (m.dir 0).stack (m.dir 0).fresh rootInodeNum
  let files ← direntLines fs m (2 ^ 32) 1 file
  let (inode, _) ← ext2LookUpPath fs m.lookUp (bufferOf quux)
  let found ← foundReport inode
  .ok (fs, superblock ++ (root ++ (ascii " / files:\n" ++ (files ++
    (ascii " looking for file `/bar/baz/quux'..." ++ found)))))

/-! ### The report -/

/-- A line that ends in a number. -/
def line (label : String) (item : Item) : List Item := chars label ++ ([item] ++ chars "\n")

def superblockItems (fs : Ext2Fs) : List Item :=
  line " total inodes    = 0x" (.hex true (word fs.superblock.totalInodes)) ++
    (line " total blocks    = 0x" (.hex true (word fs.superblock.totalBlocks)) ++
    (line " block size      = " (.size (word fs.blockSize)) ++
    (line " num blocks      = " (.dec (word fs.superblock.totalBlocks)) ++
    (line " blocks/group    = " (.dec (word fs.superblock.blocksPerGroup)) ++
    (line " inodes/group    = " (.dec (word fs.superblock.inodesPerGroup)) ++
    line " num groups      = " (.dec (word fs.numGroups)))))))

def rootItems (inode : Ext2Inode) : List Item :=
  line " / creation time = " (.dec (word inode.creationTime)) ++
    (line " / uid           = " (.dec (word inode.uid)) ++
    (line " / type & perms  = 0x" (.hex true (word inode.typeAndPermissions)) ++
    line " / size          = " (.dec (word inode.size))))

/-- The line of a record, with the name at an address. -/
def recordItems (a : BitVec 32) (r : DirRecord) : List Item :=
  chars "  inode " ++ ([.dec r.inodeNum] ++ (chars ", name `" ++
    ([.string a r.name] ++ chars "'\n")))

def foundItems (inode : ℕ) : List Item :=
  if inode = 0 then chars " not found\n" else line " found: inode = " (.dec (word inode))

/-- The report. What is printed for a name does not depend on its address. -/
def initItems (fs : Ext2Fs) (records : List DirRecord) (found : ℕ) : List Item :=
  superblockItems fs ++ (rootItems (inodeOnDisk fs rootInodeNum) ++ (chars " / files:\n" ++
    (records.flatMap (recordItems 0) ++ (chars " looking for file `/bar/baz/quux'..." ++
      foundItems found))))

/-! ### Printing -/

section

variable {calls : List (String × List (BitVec 32))} {items : List Item} {item : Item}
  {fmt label : String}

theorem printedAll_chars (s : String) : printedAll (chars s) = .ok (ascii s) := by
  rw [printedAll_eq_text, flatMap_text_chars]
  intro item hitem
  obtain ⟨c, -, rfl⟩ := List.mem_map.mp hitem
  trivial

/-- The format of a line is a label and a directive. -/
def IsLine (fmt label : String) (directive : List Byte) : Prop :=
  ascii label ++ (directive ++ ascii "\n") = ascii fmt ∧ 0 ∉ ascii fmt ∧ 37 ∉ ascii label ∧
    (ascii fmt).length < 2 ^ 32

instance (fmt label : String) (directive : List Byte) : Decidable (IsLine fmt label directive) :=
  inferInstanceAs (Decidable (_ ∧ _))

theorem formed_chars {mem : Memory} {s : String} (h : 37 ∉ ascii s) :
    ∀ item ∈ chars s, item.Formed mem := fun item hitem => (printable_chars h item hitem).1

/-- A line in front of other calls. -/
theorem printfs_cons (item : Item) (directive : List Byte) (hformat : item.format = directive)
    (hitem : item.Formed fun _ => 0) (hline : IsLine fmt label directive)
    (hcalls : printfs calls = printedAll items) :
    printfs ((fmt, item.words) :: calls) = printedAll (line label item ++ items) := by
  obtain ⟨hfmt, hnul, hlabel, hlength⟩ := hline
  have hcall : termPrintf (bufferOf (ascii fmt)) (fun _ => 0) (onStack item.words) =
      printedAll (line label item) := by
    refine termPrintf_literal ?_ ?_ hnul hlength ?_
    · simpa [line, hformat] using hfmt
    · simp [line]
    · simp only [line, List.forall_mem_append, List.forall_mem_singleton]
      exact ⟨formed_chars hlabel, hitem, formed_chars (by decide)⟩
  rw [printfs, hcall, hcalls, printedAll_append]

/-- A line behind all other calls. -/
theorem printfs_singleton (item : Item) (directive : List Byte) (hformat : item.format = directive)
    (hitem : item.Formed fun _ => 0) (hline : IsLine fmt label directive) :
    printfs [(fmt, item.words)] = printedAll (line label item) := by
  have hnil : printfs [] = printedAll [] := rfl
  have hlast := printfs_cons item directive hformat hitem hline hnil
  rwa [List.append_nil] at hlast

theorem superblockReport_eq (fs : Ext2Fs) :
    superblockReport fs = printedAll (superblockItems fs) := by
  refine printfs_cons (.hex true _) [37, 88] rfl trivial (by decide) ?_
  refine printfs_cons (.hex true _) [37, 88] rfl trivial (by decide) ?_
  refine printfs_cons (.size _) [37, 98] rfl trivial (by decide) ?_
  refine printfs_cons (.dec _) [37, 100] rfl trivial (by decide) ?_
  refine printfs_cons (.dec _) [37, 100] rfl trivial (by decide) ?_
  refine printfs_cons (.dec _) [37, 100] rfl trivial (by decide) ?_
  exact printfs_singleton (.dec _) [37, 100] rfl trivial (by decide)

theorem rootReport_eq (inode : Ext2Inode) : rootReport inode = printedAll (rootItems inode) := by
  refine printfs_cons (.dec _) [37, 100] rfl trivial (by decide) ?_
  refine printfs_cons (.dec _) [37, 100] rfl trivial (by decide) ?_
  refine printfs_cons (.hex true _) [37, 88] rfl trivial (by decide) ?_
  exact printfs_singleton (.dec _) [37, 100] rfl trivial (by decide)

theorem foundReport_eq (inode : ℕ) : foundReport inode = printedAll (foundItems inode) := by
  rw [foundReport, foundItems]
  split_ifs
  · exact (printedAll_chars _).symm
  · exact printfs_singleton (.dec _) [37, 100] rfl trivial (by decide)

end

section

variable {fs : Ext2Fs} {m : InitMemory} {file : Ext2File} {r : DirRecord}
  {records : List DirRecord} {fuel k : ℕ}

/-- The line of an entry. -/
theorem termPrintf_recordItems {name : Memory} {a : BitVec 32} (hname : HoldsName name r.name)
    (hnul : (0 : Byte) ∉ r.name) (ha : a.toNat + 2 ^ 8 ≤ 2 ^ 32) :
    termPrintf (bufferOf (ascii "  inode %d, name `%s'\n")) (fun x => name (x - a.toNat))
      (onStack [word r.inodeNum.toNat, a]) = printedAll (recordItems 0 r) := by
  have hstr : (Item.string a r.name).Formed fun x => name (x - a.toNat) := by
    have hlength := r.name_length_lt
    refine ⟨?_, by omega⟩
    simp only [Nat.add_sub_cancel_left]
    exact ⟨fun c hc h0 => hnul (h0 ▸ hc), hname.1, hname.2⟩
  have hcall : termPrintf (bufferOf (ascii "  inode %d, name `%s'\n")) (fun x => name (x - a.toNat))
      (onStack [word r.inodeNum.toNat, a]) = printedAll (recordItems a r) := by
    refine termPrintf_literal ?_ ?_ (by decide) (by decide) ?_
    · simp only [recordItems, List.flatMap_append, flatMap_format_chars, List.flatMap_singleton,
        Item.format]
      decide
    · simp [recordItems, Item.words, word]
    · simp only [recordItems, List.forall_mem_append, List.forall_mem_singleton]
      exact ⟨formed_chars (by decide), trivial, formed_chars (by decide), hstr,
        formed_chars (by decide)⟩
  rw [hcall]
  simp only [recordItems, printedAll_append]
  rfl

/-- **The list of a directory** has a line for every record, in the order of the records. -/
theorem direntLines_spec (hread : ∀ i < 12, DeliversBlock fs (file.inode.dbp i))
    (hsize : file.inode.size < 12 * fs.blockSize) (hat : AtRecords fs file records)
    (hnul : ∀ r ∈ records, (0 : Byte) ∉ r.name) (hnames : ∀ k, (m.names k).toNat + 2 ^ 8 ≤ 2 ^ 32)
    (hfuel : records.length < fuel) :
    direntLines fs m fuel k file = printedAll (records.flatMap (recordItems 0)) := by
  induction records generalizing file fuel k with
  | nil =>
    obtain ⟨fuel, rfl⟩ := Nat.exists_eq_add_of_lt hfuel
    obtain ⟨file', hnext, -⟩ := ext2NextDirent_nil (m.dir k).stack (m.dir k).fresh hread hsize hat
    rw [direntLines, hnext]
    rfl
  | cons r records ih =>
    obtain ⟨fuel, rfl⟩ : ∃ n, fuel = n + 1 := ⟨fuel - 1, by omega⟩
    obtain ⟨dirent, file', hnext, hinode, hat', hnum, -, -, -, hname⟩ :=
      ext2NextDirent_cons (m.dir k).stack (m.dir k).fresh hread hsize hat
    rw [List.length_cons] at hfuel
    rw [direntLines, hnext, except_ok_bind]
    dsimp only
    rw [hnum, termPrintf_recordItems hname (hnul r List.mem_cons_self) (hnames k),
      ih (by rwa [hinode]) (by rwa [hinode]) hat' (fun r hr => hnul r (List.mem_cons_of_mem _ hr))
        (by omega),
      List.flatMap_cons, printedAll_append]

/-- `load_bgdt` sets nothing but the group descriptors. -/
theorem fields_of_loadBgdt {fs' : Ext2Fs} {stack fresh : Memory}
    (h : loadBgdt fs stack fresh = .ok fs') : superblockItems fs' = superblockItems fs := by
  rw [loadBgdt] at h
  dsimp only at h
  split_ifs at h
  obtain ⟨buf, -, h⟩ := except_bind_eq_ok.mp h
  obtain rfl := Except.ok.inj h
  rfl

/-- The fields that are printed of an inode. -/
theorem rootItems_congr {inode inode' : Ext2Inode}
    (h : ∀ i < inodeSize, inode.raw i = inode'.raw i) : rootItems inode = rootItems inode' := by
  have hfield : ∀ a n, a + n ≤ inodeSize → loadLE inode.raw a n = loadLE inode'.raw a n := by
    intro a n ha
    refine loadLE_congr fun x hx => h x ?_
    have := Set.mem_Ico.mp hx
    omega
  have htime : inode.creationTime = inode'.creationTime := hfield 12 4 (by decide)
  have huid : inode.uid = inode'.uid := hfield 2 2 (by decide)
  have htype : inode.typeAndPermissions = inode'.typeAndPermissions := hfield 0 2 (by decide)
  have hsize : inode.size = inode'.size := hfield 4 4 (by decide)
  rw [rootItems, rootItems, htime, huid, htype, hsize]

end

/-- **What the kernel prints of the filesystem.** On a disk that represents a volume, `ext2_init_fs`
mounts it and prints the report exactly where every number that it prints in decimal has at most
nine digits. The report lists the records that the disk stores for the root directory, the live ones
among which are its entries, and says what the path names. -/
theorem ext2InitFs_iff {fs fs₁ fs₂ : Ext2Fs} {vol : Volume} {m : InitMemory}
    (hsuper : loadSuperblock fs m.mount.stack = .ok fs₁)
    (hbgdt : loadBgdt fs₁ m.mount.stack m.mount.fresh = .ok fs₂) (h : Represents fs₂ vol)
    (hquux : vol.lookUp quux ≠ .error .notDirectory)
    (hnames : ∀ k, (m.names k).toNat + 2 ^ 8 ≤ 2 ^ 32) :
    ∃ records, Stored fs₂ rootInodeNum (encodeDir records) ∧
      vol.content rootInodeNum = some (.directory (entriesOf records)) ∧
      (ext2InitFs fs m = .ok (fs₂, (initItems fs₂ records
          (Volume.number (vol.lookUp quux))).flatMap Item.text) ↔
        ∀ item ∈ initItems fs₂ records (Volume.number (vol.lookUp quux)), item.FewDigits) := by
  obtain ⟨entries, hroot⟩ := vol.root
  obtain ⟨records, hstored, hnul, -, rfl⟩ := h.directory hroot
  refine ⟨records, hstored, hroot, ?_⟩
  obtain ⟨inode, hinode, hraw⟩ := hstored.readInode_eq h.geometry m.mount.stack
  obtain ⟨file, hopen, hread, hlt, hsize, hdata⟩ :=
    hstored.open_eq h.geometry (m.dir 0).stack (m.dir 0).fresh
  have hlength : records.length < 2 ^ 32 := by
    have hle := length_le_length_encodeDir records
    have hsize32 : file.inode.size < 2 ^ 32 := load32_lt _ _
    rw [← hsize] at hle
    simp only [readSize] at hle
    omega
  have hlines : direntLines fs₂ m (2 ^ 32) 1 file = printedAll (records.flatMap (recordItems 0)) :=
    direntLines_spec hread hlt (atRecords_of_ext2OpenInode hopen hread hlt hdata) hnul
      hnames hlength
  have hpath : ext2LookUpPath fs₂ m.lookUp (bufferOf quux) =
      .ok (Volume.number (vol.lookUp quux), bufferOf quux) :=
    lookUp_spec h m.lookUp (isCString_bufferOf quux (by decide)) (by decide) hquux
  have hrun : ext2InitFs fs m = (printedAll (initItems fs₂ records
      (Volume.number (vol.lookUp quux)))).map (fs₂, ·) := by
    simp only [ext2InitFs, hsuper, hbgdt, hinode, hopen, hlines, hpath, except_ok_bind,
      superblockReport_eq, rootReport_eq, foundReport_eq, initItems, printedAll_append,
      printedAll_chars, fields_of_loadBgdt hbgdt, rootItems_congr hraw]
    -- Both sides stop where one of the four parts does.
    rcases printedAll (superblockItems fs₁) with e | superblock
    · rfl
    rcases printedAll (rootItems (inodeOnDisk fs₂ rootInodeNum)) with e | root
    · rfl
    rcases printedAll (records.flatMap (recordItems 0)) with e | files
    · rfl
    rcases printedAll (foundItems (Volume.number (vol.lookUp quux))) with e | found <;> rfl
  rw [hrun, ← printedAll_eq_text_iff]
  rcases printedAll (initItems fs₂ records (Volume.number (vol.lookUp quux))) with e | cs
  · simp [Except.map]
  · simp [Except.map]

/-! ### A small disk -/

/-- A disk with blocks of 4096 bytes. The root directory has the file `a`, inode 3, of two bytes. -/
def bootDisk : Disk := fun lba o =>
  if lba = 2 then (superblockBytes 16 64 2 64 16).getD o 0
  else if lba = 8 then if o = 8 then 5 else 0
  else if lba = 40 then
    if o = 129 then 0x41 else if o = 132 then 12 else if o = 168 then 10
    else if o = 257 then 0x81 else if o = 260 then 2 else if o = 296 then 11 else 0
  else if lba = 80 then [3, 0, 0, 0, 12, 0, 1, 1, 97, 0, 0, 0].getD o 0
  else if lba = 88 then [104, 105].getD o 0
  else 0

/-- The record of the file `a`. -/
def bootRecord : DirRecord := { recordA with inodeNum := 3 }

/-- Memory of zeros, with the names at address 0. -/
def zeroMemory : InitMemory := ⟨zeroUnset 0, zeroUnset, fun _ => 0, fun _ => zeroUnset⟩

/-- The report of the small disk is printed. -/
theorem ext2InitFs_iff_bootDisk : ∃ fs₂, ext2InitFs (unmounted bootDisk) zeroMemory =
    .ok (fs₂, (initItems fs₂ [bootRecord] 0).flatMap Item.text) := by
  have hsuper : loadSuperblock (unmounted bootDisk) zeroMemory.mount.stack =
      .ok (withSuperblock (unmounted bootDisk) fun _ => 0) :=
    loadSuperblock_of_accepted (by decide +kernel) _
  obtain ⟨fs₂, hbgdt, hdir, hvol, hfew⟩ : ∃ fs₂,
      loadBgdt (withSuperblock (unmounted bootDisk) fun _ => 0)
        zeroMemory.mount.stack zeroMemory.mount.fresh = .ok fs₂ ∧
      Stored fs₂ rootInodeNum (encodeDir [bootRecord]) ∧
      Represents fs₂ (oneFile bootRecord [104, 105]) ∧
      ∀ item ∈ initItems fs₂ [bootRecord] 0, item.FewDigits := by
    refine ⟨_, rfl, ?_⟩
    refine (fun hdir => ⟨hdir, oneFile_represents ⟨.inr (.inr (by decide +kernel)),
      by decide +kernel⟩ hdir ?_ (by decide) (by decide), by decide +kernel⟩) ?_
    · exact ⟨by decide, by decide, by decide +kernel, by decide +kernel, by decide +kernel,
        by decide +kernel, by decide +kernel, by decide +kernel⟩
    · exact ⟨by decide, by decide, by decide +kernel, by decide +kernel, by decide +kernel,
        by decide +kernel, by decide +kernel, by decide +kernel⟩
  have hquux : (oneFile bootRecord [104, 105]).lookUp quux = .error .notFound := by decide +kernel
  have hnames : ∀ k, (zeroMemory.names k).toNat + 2 ^ 8 ≤ 2 ^ 32 := fun _ =>
    (by decide : (0 : BitVec 32).toNat + 2 ^ 8 ≤ 2 ^ 32)
  obtain ⟨records, hstored, -, hiff⟩ :=
    ext2InitFs_iff hsuper hbgdt hvol (by rw [hquux]; rintro ⟨⟩) hnames
  obtain rfl : records = [bootRecord] := encodeDir_injective (hstored.data_unique hdir)
  rw [hquux] at hiff
  exact ⟨fs₂, hiff.mpr hfew⟩

end Studix.Ext2
