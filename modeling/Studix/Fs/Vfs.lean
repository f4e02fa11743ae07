import Studix.Base.Memory
import Studix.Misc.Panic

/-!
# The virtual filesystem

The nodes of `src/include/vfs.h` and the wrappers of `src/fs/vfs.c`. A node carries pointers to the
functions of its filesystem; each filesystem sets a pointer to its own function or leaves it `NULL`,
so a node records which pointers are set, and a wrapper is given what the function behind the
pointer does.

## Main definitions

* `FsNode`, `DirEntry`.
* `readFsNode`, `openFsNode`, `readDirNode`, `findDirNode`.
-/

namespace Studix.Vfs

/-- `MAX_NAME_LENGTH`. -/
def maxNameLength : ℕ := 128

/-- `FILE_NODE`. -/
def fileNode : ℕ := 1

/-- `DIR_NODE`. -/
def dirNode : ℕ := 2

/-- `FS_node`, with `impl` pointing to a value of `Impl`. The function pointers are true where they
are set. -/
structure FsNode (Impl : Type*) where
  name : Memory
  length : ℕ
  inode : ℕ
  permissions : ℕ
  uid : ℕ
  gid : ℕ
  type : ℕ
  nodePtr : ℕ
  impl : Option Impl
  read : Bool
  write : Bool
  open' : Bool
  close : Bool
  readDir : Bool
  findDir : Bool

/-- `Dir_entry`, by its bytes: the name, and the inode behind it. -/
structure DirEntry where
  raw : Memory

namespace DirEntry

def name (entry : DirEntry) : Memory := entry.raw

def inode (entry : DirEntry) : ℕ := load32 entry.raw maxNameLength

end DirEntry

variable {Impl α σ : Type*}

/-- `read_fs_node`: the returned count, and what the function writes to. That is the caller's
buffer, and also the node where the function changes the open file. -/
def readFsNode (node : FsNode Impl) (read : ℕ → ℕ → σ → Except Stop (ℕ × σ)) (offset size : ℕ)
    (s : σ) : Except Stop (ℕ × σ) :=
  if node.read then read offset size s else .ok (0, s)

/-- `open_fs_node`; its flags are not used. -/
def openFsNode (node : FsNode Impl) (open_ : FsNode Impl → Except Stop (FsNode Impl)) :
    Except Stop (FsNode Impl) :=
  if node.open' then open_ node else .ok node

/-- `read_dir_node`. -/
def readDirNode (node : FsNode Impl) (readDir : ℕ → σ → Except Stop (Option α × σ)) (index : ℕ)
    (s : σ) : Except Stop (Option α × σ) :=
  if node.type &&& dirNode ≠ 0 ∧ node.readDir then readDir index s else .ok (none, s)

/-- `find_dir_node`. -/
def findDirNode (node : FsNode Impl) (findDir : Memory → Except Stop (Option α)) (name : Memory) :
    Except Stop (Option α) :=
  if node.type &&& dirNode ≠ 0 ∧ node.findDir then findDir name else .ok none

end Studix.Vfs
