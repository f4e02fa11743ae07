import Studix.Fs.Initrd
import Studix.Lib.StringOrder

/-!
# Enumeration and lookup on ramdisk directories

`initrd_read_dir` and `initrd_find_dir` serve both directories of the ramdisk, the root and `/dev`.
Enumeration shifts the index past the synthetic `dev` entry on either of them, so on `/dev` the
first index wraps and nothing is listed; lookup searches the files of the root on either of them.
The two agree on `/dev` exactly when there are no files.

## Main definitions

* `listDir`: the entries up to the first `NULL`.
* `LookupAgrees`: enumeration and lookup of a directory agree.

## Main results

* `lookupAgrees_dev_iff`.
-/

namespace Studix.Initrd

open Vfs

/-- The loop over `read_dir_node(node, i)`, `read_dir_node(node, i + 1)`, … up to the first
`NULL`. -/
def listDirLoop (node : NodeRef) : ℕ → ℕ → State → Except Stop (List DirEntry)
  | 0, _, _ => .error .unfinished
  | fuel + 1, i, rd => do
    let (entry, rd) ← readDir rd node i
    match entry with
    | none => .ok []
    | some entry => do
      let entries ← listDirLoop node fuel (i + 1) rd
      .ok (entry :: entries)

/-- The entries `read_dir_node(node, 0)`, `read_dir_node(node, 1)`, … up to the first `NULL`. -/
def listDir (rd : State) (node : NodeRef) : Except Stop (List DirEntry) :=
  listDirLoop node (2 ^ 32) 0 rd

/-- The names that are listed are the names that are found, with the same inodes. -/
def LookupAgrees (rd : State) (node : NodeRef) : Prop :=
  ∃ entries, listDir rd node = .ok entries ∧
    (∀ buf str, IsCString buf str → str.length < 2 ^ 32 →
      ((∃ ref, findDir rd node buf = .ok (some ref)) ↔
        ∃ entry ∈ entries, IsCString entry.name str)) ∧
    ∀ entry ∈ entries, ∃ ref, findDir rd node entry.name = .ok (some ref) ∧
      (rd.node ref).inode = entry.inode

section

variable {rd : State} {node : NodeRef} {name : Memory} {str : List Byte}

/-- The node of a pointer is a directory of the ramdisk. -/
def IsDir (rd : State) (node : NodeRef) : Prop :=
  (rd.node node).type = dirNode ∧ (rd.node node).readDir = true ∧ (rd.node node).findDir = true

theorem IsDir.readDir_eq (h : IsDir rd node) (index : ℕ) :
    readDir rd node index = initrdReadDir node index rd := by
  rw [readDir, readDirNode, if_pos ⟨by rw [h.1]; decide, h.2.1⟩]

theorem IsDir.findDir_eq (h : IsDir rd node) (name : Memory) :
    findDir rd node name = initrdFindDir rd node name := by
  rw [findDir, findDirNode, if_pos ⟨by rw [h.1]; decide, h.2.2⟩]

/-! ### The device directory -/

/-- Nothing is listed in `/dev`: the first index wraps. -/
theorem listDir_dev (hdir : IsDir rd .dev) (hnum : rd.numRootNodes < 2 ^ 8) :
    listDir rd .dev = .ok [] := by
  have hwrap : wsub 0 1 = 2 ^ 32 - 1 := wsub_eq_of_lt (by decide) (by decide)
  have hread : readDir rd .dev 0 = .ok (none, rd) := by
    rw [hdir.readDir_eq, initrdReadDir, if_neg (by simp), hwrap, if_pos (by omega)]
  rw [listDir, show 2 ^ 32 = 2 ^ 32 - 1 + 1 by norm_num, listDirLoop, hread]
  rfl

/-- The first file of the root is found in `/dev`. -/
theorem findDir_dev_first (hdir : IsDir rd .dev) (hnum : 0 < rd.numRootNodes)
    (hstr : IsCString (rd.rootNodes 0).name str) (hlen : str.length < 2 ^ 32) :
    findDir rd .dev (rd.rootNodes 0).name = .ok (some (.file 0)) := by
  obtain ⟨n, hn⟩ : ∃ n, rd.numRootNodes = n + 1 := ⟨rd.numRootNodes - 1, by omega⟩
  obtain ⟨order, horder, hzero⟩ := strcmp_eq_zero_iff hstr hstr hlen
  rw [hdir.findDir_eq, initrdFindDir, if_neg (by decide), hn, findRootNode, horder, except_ok_bind,
    if_pos (hzero.mpr rfl)]

/-- Without files, `/dev` has no names. -/
theorem findDir_dev_empty (hdir : IsDir rd .dev) (hnum : rd.numRootNodes = 0) (name : Memory) :
    findDir rd .dev name = .ok none := by
  rw [hdir.findDir_eq, initrdFindDir, if_neg (by decide), hnum, findRootNode]

/-- **Enumeration and lookup agree on `/dev` exactly when the root has no files.** -/
theorem lookupAgrees_dev_iff (hdir : IsDir rd .dev) (hnum : rd.numRootNodes < 2 ^ 8)
    (hfirst : 0 < rd.numRootNodes →
      ∃ str, IsCString (rd.rootNodes 0).name str ∧ str.length < 2 ^ 32) :
    LookupAgrees rd .dev ↔ rd.numRootNodes = 0 := by
  constructor
  · rintro ⟨entries, hlist, hfound, -⟩
    obtain rfl : [] = entries := by
      rw [listDir_dev hdir hnum] at hlist
      exact Except.ok.inj hlist
    by_contra hne
    have hpos := Nat.pos_of_ne_zero hne
    obtain ⟨str, hstr, hlen⟩ := hfirst hpos
    obtain ⟨entry, hmem, -⟩ := (hfound _ str hstr hlen).mp
        ⟨_, findDir_dev_first hdir hpos hstr hlen⟩
    simp at hmem
  · intro hzero
    refine ⟨[], listDir_dev hdir hnum, fun buf str _ _ => ?_, by simp⟩
    rw [findDir_dev_empty hdir hzero]
    simp

theorem isDir_dirEntry (entry : DirEntry) (h : IsDir rd node) :
    IsDir { rd with dirEntry := entry } node := by
  cases node <;> exact h

end

/-! ### An image with one file -/

/-- An image with one file `a` of one byte, at address 0. -/
def sampleImage : Memory := fun x =>
  if x = 0 then 1 else if x = 1 then 97 else if x = 129 then 0x01 else if x = 130 then 0x22
  else if x = 133 then 1 else if x = 8705 then 98 else 0

private theorem sampleImage_names : (sampleImage 0).toNat = [[(97 : Byte)]].length ∧
    ∀ i (hi : i < [[(97 : Byte)]].length),
      IsCString (bufferAt sampleImage (headerAddr kernelWord 0 i)) [[(97 : Byte)]][i] ∧
        [[(97 : Byte)]][i].length < maxNameLength := by
  refine ⟨by decide, fun i hi => ?_⟩
  obtain rfl : i = 0 := by simpa using hi
  rw [List.getElem_cons_zero]
  exact ⟨⟨by decide, by decide, by decide⟩, by decide⟩

/-- The file of the sample image is found in `/dev`, which lists nothing. -/
theorem dev_lookup_finds_unlisted_file : ∃ rd,
    initInitrd sampleImage zeroFresh 0 = .ok rd ∧ ¬LookupAgrees rd .dev := by
  obtain ⟨rd, hinit, hnum, -, -, -, -, -, hdev, -, hnodes⟩ :=
    initInitrd_spec zeroFresh [[97]] sampleImage_names.1 sampleImage_names.2
  have hdir : IsDir rd .dev := by
    refine ⟨?_, ?_, ?_⟩ <;> rw [State.node, hdev] <;> rfl
  obtain ⟨str, hstr, hlen⟩ := (hnodes 0 (by decide)).name
  refine ⟨rd, hinit, fun h => ?_⟩
  have hzero := (lookupAgrees_dev_iff hdir (by rw [hnum]; decide)
    fun _ => ⟨str, hstr, hlen.trans_lt (by decide)⟩).mp h
  rw [hnum] at hzero
  simp at hzero

end Studix.Initrd
