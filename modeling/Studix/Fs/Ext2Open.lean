import Studix.Fs.Ext2Find
import Studix.Fs.Ext2Vfs

/-!
# Opening ext2 nodes

`ext2_vfs_open` of `src/fs/ext2_vfs.c` stores the result of the path lookup in the node before it
tests it. Where the lookup finds nothing the node is left with inode number 0 in place of its own,
and later calls look it up in the inode table.

## Main definitions

* `ext2VfsOpen`, `ext2VfsFindDir`, `ext2Root`.
* `KeepsNode`: a call of `open_fs_node` leaves the node as it was.

## Main results

* `ext2VfsOpen_of_not_found`: what a failed open leaves.
* `keepsNode_iff`: the nodes that a failed open leaves as they were.
-/

namespace Studix.Ext2

open Vfs

/-- `ext2_vfs_open`. The path lookup edits the name in the node and puts it back. -/
def ext2VfsOpen (fs : Ext2Fs) (unset : ℕ → ℕ → Unset) (fresh : Unset) (node : FsNode Ext2File) :
    Except Stop (FsNode Ext2File) := do
  let (inode, name) ← ext2LookUpPath fs unset node.name
  let node := { node with inode, name }
  if node.inode ≠ 0 then
    let file ← ext2OpenInode fs fresh.stack fresh.fresh node.inode
    .ok { node with impl := some file }
  else .ok node

/-- `ext2_vfs_find_dir`: a node from `kmalloc`, with its inode number set. -/
def ext2VfsFindDir (fs : Ext2Fs) (unset : ℕ → Unset) (fresh node : FsNode Ext2File)
    (name : Memory) :
    Except Stop (Option (FsNode Ext2File)) := do
  let inode ← ext2FindInDir fs unset node.inode name
  if inode = 0 then .ok none else .ok (some { fresh with inode })

/-- The root node that `ext2_mount` makes, over the contents of the name it gets from `kmalloc`. -/
def ext2Root (name : Memory) : FsNode Ext2File where
  name := Function.update name 0 0
  length := 0
  inode := rootInodeNum
  permissions := 0
  uid := 0
  gid := 0
  type := dirNode
  nodePtr := 0
  impl := none
  read := true
  write := true
  open' := true
  close := true
  readDir := true
  findDir := true

/-- A call of `open_fs_node` returns and leaves the node as it was. -/
def KeepsNode (fs : Ext2Fs) (unset : ℕ → ℕ → Unset) (fresh : Unset) (node : FsNode Ext2File) :
    Prop :=
  openFsNode node (ext2VfsOpen fs unset fresh) = .ok node

variable {fs : Ext2Fs} {unset : ℕ → ℕ → Unset} {fresh : Unset} {node : FsNode Ext2File}
  {path : Memory}

/-- **What a failed open leaves**: the node without its inode number. -/
theorem ext2VfsOpen_of_not_found (hfail : ext2LookUpPath fs unset node.name = .ok (0, path)) :
    ext2VfsOpen fs unset fresh node = .ok { node with inode := 0 } := by
  obtain rfl := path_of_ext2LookUpPath hfail
  rw [ext2VfsOpen, hfail]
  rfl

/-- **The nodes that a failed open leaves as they were** are those whose inode number was 0. -/
theorem keepsNode_iff (hopen : node.open' = true)
    (hfail : ext2LookUpPath fs unset node.name = .ok (0, path)) :
    KeepsNode fs unset fresh node ↔ node.inode = 0 := by
  rw [KeepsNode, openFsNode, if_pos hopen, ext2VfsOpen_of_not_found hfail, Except.ok.injEq]
  exact ⟨fun h => (congrArg FsNode.inode h).symm, fun h => by rw [← h]⟩

/-! ### The mount root -/

/-- The empty name of the mount root is not a path. -/
theorem lookUp_ext2Root (fs : Ext2Fs) (unset : ℕ → ℕ → Unset) (name : Memory) :
    ext2LookUpPath fs unset (ext2Root name).name = .ok (0, (ext2Root name).name) := by
  have hnul : (ext2Root name).name 0 = 0 := by simp [ext2Root]
  rw [ext2LookUpPath, lookUpPathWith, hnul, if_pos (by decide)]

/-- A failed open of the mount root of the small filesystem does not leave it as it was. The node
that it leaves is not changed by another one. -/
theorem keepsNode_iff_root :
    ¬KeepsNode sampleFs (fun _ => zeroUnset) (zeroUnset 0) (ext2Root fun _ => 0) ∧
      KeepsNode sampleFs (fun _ => zeroUnset) (zeroUnset 0)
        { ext2Root fun _ => 0 with inode := 0 } := by
  have hfail := lookUp_ext2Root sampleFs (fun _ => zeroUnset) fun _ => 0
  constructor
  · exact fun h => absurd ((keepsNode_iff rfl hfail).mp h) (by decide)
  · have hagain : ext2LookUpPath sampleFs (fun _ => zeroUnset)
        { ext2Root fun _ => 0 with inode := 0 }.name = .ok (0, (ext2Root fun _ => 0).name) := hfail
    exact (keepsNode_iff rfl hagain).mpr rfl

/-- The file `b` is found in the mount root before it is opened, and not after the open has
failed. -/
theorem failed_open_loses_root : ∃ node : FsNode Ext2File,
    ext2LookUpPath sampleFs (fun _ => zeroUnset) (ext2Root fun _ => 0).name =
        .ok (0, (ext2Root fun _ => 0).name) ∧
      openFsNode (ext2Root fun _ => 0) (ext2VfsOpen sampleFs (fun _ => zeroUnset) (zeroUnset 0)) =
        .ok node ∧
      (ext2Root fun _ => 0).inode = 2 ∧ node.inode = 0 ∧
      findDirNode (ext2Root fun _ => 0)
          (ext2VfsFindDir sampleFs zeroUnset (ext2Root fun _ => 0) (ext2Root fun _ => 0))
          (bufferOf [98]) = .ok (some { ext2Root fun _ => 0 with inode := 12 }) ∧
      findDirNode node (ext2VfsFindDir sampleFs zeroUnset (ext2Root fun _ => 0) node)
          (bufferOf [98]) = .ok none := by
  have hfail := lookUp_ext2Root sampleFs (fun _ => zeroUnset) fun _ => 0
  obtain ⟨file, hopen, hlt, hread, hdir⟩ := open_sampleDir
  have hname : IsCString (bufferOf [98]) [98] := isCString_bufferOf _ (by decide)
  have hfind : ext2FindInDir sampleFs zeroUnset 2 (bufferOf [98]) = .ok 12 :=
    ext2FindInDir_spec hopen hread hlt hdir (by decide) hname
  -- Inode number 0 is looked up behind the inode table, in zeros.
  have hnone : ext2FindInDir sampleFs zeroUnset 0 (bufferOf [98]) = .ok (firstNamed [] [98]) :=
    ext2FindInDir_of_exists rfl
      ⟨_, rfl, by decide +kernel, by decide +kernel, by decide +kernel⟩ (by simp) hname
  refine ⟨_, hfail, ext2VfsOpen_of_not_found hfail, rfl, rfl, ?_, ?_⟩
  · rw [findDirNode, if_pos (by decide), ext2VfsFindDir,
      show (ext2Root fun _ => 0).inode = 2 from rfl, hfind]
    rfl
  · rw [findDirNode, if_pos (by decide), ext2VfsFindDir, hnone]
    rfl

end Studix.Ext2
