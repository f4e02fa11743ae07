import Studix.Base.Word
import Studix.Fs.Vfs
import Studix.Lib.CString

/-!
# The initial ramdisk

Model of `src/fs/initrd.c` and of the file count of `src/main.c`. The image lies in flat memory:
a byte with the number of files, the table of `File_header`s, and the contents of the files.
`init_initrd` relocates the start of every file in place and makes a node for each. The nodes come
from `kmalloc`, which returns memory outside the image, so they are kept beside the memory with
whatever contents they had; the pointers `initrd_root`, `initrd_dev` and `&root_nodes[i]` are node
references.

`File_header` is declared with `size_t` fields. Its layout is a function of `sizeof(size_t)`; the
kernel's is the one for four bytes.

## Main definitions

* `fileHeaderSize`, `headerAddr`: the layout of the table.
* `Initrd`, `initInitrd`: the state after loading.
* `initrdRead`, `initrdReadDir`, `initrdFindDir`, `fileCount`.

## Main results

* `initInitrd_spec`: loading an image whose headers carry strings.
* `initInitrd_mem`: what loading leaves of the image, in any case.
-/

namespace Studix.Initrd

open Vfs

/-! ### The format -/

/-- `MAX_FILES`. -/
def maxFiles : ℕ := 64

/-- `sizeof(File_header)` where `sizeof(size_t)` is `w`: the name, `start` and `length`. -/
def fileHeaderSize (w : ℕ) : ℕ := maxNameLength + 2 * w

/-- The address of `file_headers[i]` in an image at `location`. -/
def headerAddr (w location i : ℕ) : ℕ := location + 1 + fileHeaderSize w * i

/-- `sizeof(size_t)` in the kernel. -/
def kernelWord : ℕ := 4

/-- The buffer that starts at address `a`. -/
def bufferAt (mem : Memory) (a : ℕ) : Memory := fun k => mem (a + k)

/-! ### Loading -/

/-- A pointer to a node. -/
inductive NodeRef
  | root
  | dev
  | file (i : ℕ)
  deriving DecidableEq, Repr

/-- The static variables of `initrd.c`, with the nodes they point to and the memory. -/
structure State where
  mem : Memory
  location : ℕ
  root : FsNode Unit
  dev : FsNode Unit
  rootNodes : ℕ → FsNode Unit
  numRootNodes : ℕ
  dirEntry : DirEntry

namespace State

variable (rd : State)

/-- The node behind a pointer. -/
def node : NodeRef → FsNode Unit
  | .root => rd.root
  | .dev => rd.dev
  | .file i => rd.rootNodes i

/-- `file_headers[i].name`. -/
def headerName (i : ℕ) : Memory := bufferAt rd.mem (headerAddr kernelWord rd.location i)

/-- `file_headers[i].start`. -/
def headerStart (i : ℕ) : ℕ :=
  load32 rd.mem (headerAddr kernelWord rd.location i + maxNameLength)

/-- `file_headers[i].length`. -/
def headerLength (i : ℕ) : ℕ :=
  load32 rd.mem (headerAddr kernelWord rd.location i + maxNameLength + kernelWord)

end State

/-- The contents of the nodes that `init_initrd` gets from `kmalloc`. -/
structure Fresh where
  root : FsNode Unit
  dev : FsNode Unit
  nodes : ℕ → FsNode Unit

/-- Nodes in zeroed memory. -/
def zeroFresh : Fresh :=
  let node := ⟨fun _ => 0, 0, 0, 0, 0, 0, 0, 0, none, false, false, false, false, false, false⟩
  ⟨node, node, fun _ => node⟩

/-- The fields that `init_initrd` sets in each of its two directory nodes. -/
def asDirectory (node : FsNode Unit) : FsNode Unit :=
  { node with
    permissions := 0, uid := 0, gid := 0, inode := 0, length := 0, type := dirNode, read := false,
    write := false, open' := false, close := false, readDir := true, findDir := true, nodePtr := 0,
    impl := none }

/-- The string `initrd`. -/
def initrdString : List Byte := [105, 110, 105, 116, 114, 100]

/-- The string `dev`. -/
def devString : List Byte := [100, 101, 118]

/-- The body of the loop of `init_initrd`: relocate `file_headers[i].start`, and set up
`root_nodes[i]`. -/
def initFile (location i : ℕ) (s : Memory × (ℕ → FsNode Unit)) :
    Except Stop (Memory × (ℕ → FsNode Unit)) := do
  let (mem, nodes) := s
  let header := headerAddr kernelWord location i
  let start := header + maxNameLength
  let mem := store32 mem start (wadd (load32 mem start) location)
  let name ← strcpy (nodes i).name (bufferAt mem header)
  let node := { nodes i with
    name, permissions := 0, uid := 0, gid := 0, length := load32 mem (start + kernelWord),
    inode := i, type := fileNode, read := true, write := false, open' := false, close := false,
    readDir := false, findDir := false, impl := none }
  .ok (mem, Function.update nodes i node)

/-- `init_initrd(location)`. The static `dir_entry` is zero when the kernel starts; the name `dev`
is written over that of the root node. -/
def initInitrd (mem : Memory) (fresh : Fresh) (location : ℕ) : Except Stop State := do
  let name ← strcpy fresh.root.name (bufferOf initrdString)
  let name ← strcpy name (bufferOf devString)
  let root := { asDirectory fresh.root with name }
  let dev := asDirectory fresh.dev
  let numFiles := (mem location).toNat
  let (mem, rootNodes) ← forLoopM (initFile location) numFiles (mem, fresh.nodes)
  .ok { mem, location, root, dev, rootNodes, numRootNodes := numFiles, dirEntry := ⟨fun _ => 0⟩ }

/-! ### Operations of the nodes -/

/-- `initrd_read`. -/
def initrdRead (rd : State) (node : FsNode Unit) (offset size : ℕ) (buf : Memory) :
    Except Stop (ℕ × Memory) :=
  let length := rd.headerLength node.inode
  if length < offset then .ok (0, buf)
  else
    let size := if length < wadd offset size then wsub length offset else size
    .ok (size, blit buf 0 size (bufferAt rd.mem (wadd (rd.headerStart node.inode) offset)))

/-- Copy a name and an inode to the static `dir_entry` and return it. -/
def fillEntry (rd : State) (name : Memory) (inode : ℕ) :
    Except Stop (Option DirEntry × State) := do
  let raw ← strcpy rd.dirEntry.raw name
  let entry := ⟨store32 raw maxNameLength inode⟩
  .ok (some entry, { rd with dirEntry := entry })

/-- `initrd_read_dir`. Behind the synthetic entry of the root the index is one less, for either
directory. -/
def initrdReadDir (node : NodeRef) (index : ℕ) (rd : State) :
    Except Stop (Option DirEntry × State) :=
  if node = .root ∧ index = 0 then fillEntry rd (bufferOf devString) 0
  else
    let index := wsub index 1
    if rd.numRootNodes ≤ index then .ok (none, rd)
    else fillEntry rd (rd.rootNodes index).name (rd.rootNodes index).inode

/-- The loop of `initrd_find_dir`, with the number of nodes left. -/
def findRootNode (rd : State) (name : Memory) : ℕ → ℕ → Except Stop (Option NodeRef)
  | 0, _ => .ok none
  | left + 1, i => do
    let order ← strcmp name (rd.rootNodes i).name
    if order = 0 then .ok (some (.file i)) else findRootNode rd name left (i + 1)

/-- `initrd_find_dir`. -/
def initrdFindDir (rd : State) (node : NodeRef) (name : Memory) :
    Except Stop (Option NodeRef) := do
  if node = .root then
    let order ← strcmp name (bufferOf devString)
    if order = 0 then .ok (some .dev) else findRootNode rd name rd.numRootNodes 0
  else findRootNode rd name rd.numRootNodes 0

/-- `read_dir_node(node, index)`. -/
def readDir (rd : State) (node : NodeRef) (index : ℕ) : Except Stop (Option DirEntry × State) :=
  readDirNode (rd.node node) (initrdReadDir node) index rd

/-- `find_dir_node(node, name)`. -/
def findDir (rd : State) (node : NodeRef) (name : Memory) : Except Stop (Option NodeRef) :=
  findDirNode (rd.node node) (initrdFindDir rd node) name

/-- The loop of `file_count`, from index `i` and `count` on. -/
def fileCountLoop (dir : NodeRef) : ℕ → ℕ → ℕ → State → Except Stop ℕ
  | 0, _, _, _ => .error .unfinished
  | fuel + 1, i, count, rd => do
    let (dirEntry, rd) ← readDir rd dir i
    match dirEntry with
    | none => .ok count
    | some dirEntry => do
      match ← findDir rd dir dirEntry.name with
      | none => .error .nullPointer
      | some node =>
        fileCountLoop dir fuel (i + 1)
          (if (rd.node node).type = fileNode then count + 1 else count) rd

/-- `file_count(dir)`. -/
def fileCount (rd : State) (dir : NodeRef) : Except Stop ℕ := fileCountLoop dir (2 ^ 32) 0 0 rd

/-! ### What loading leaves -/

section

variable {mem : Memory} {fresh : Fresh} {location : ℕ} {rd : State}

theorem headerAddr_kernel (location i : ℕ) :
    headerAddr kernelWord location i = location + 1 + 136 * i := rfl

/-- The memory after the starts of the first `n` headers have been relocated: nothing else has
changed. -/
structure Relocated (mem : Memory) (location n : ℕ) (mem' : Memory) : Prop where
  starts : ∀ j < n, load32 mem' (headerAddr kernelWord location j + maxNameLength) =
    wadd (load32 mem (headerAddr kernelWord location j + maxNameLength)) location
  others : ∀ x, (∀ j < n, x < headerAddr kernelWord location j + maxNameLength ∨
    headerAddr kernelWord location j + maxNameLength + kernelWord ≤ x) → mem' x = mem x

theorem Relocated.zero : Relocated mem location 0 mem :=
  ⟨fun j hj => absurd hj (Nat.not_lt_zero j), fun _ _ => rfl⟩

/-- The start of a header lies apart from the start of any other, and from names and lengths. -/
private theorem start_apart {i j x : ℕ}
    (hx : x < headerAddr kernelWord location i + maxNameLength ∧
        headerAddr kernelWord location i ≤ x ∨
      headerAddr kernelWord location i + maxNameLength + kernelWord ≤ x ∧
        x < headerAddr kernelWord location i + maxNameLength + kernelWord + 4 ∨
      i ≠ j ∧ headerAddr kernelWord location i ≤ x ∧
        x < headerAddr kernelWord location i + fileHeaderSize kernelWord) :
    x < headerAddr kernelWord location j + maxNameLength ∨
      headerAddr kernelWord location j + maxNameLength + kernelWord ≤ x := by
  have hi := headerAddr_kernel location i
  have hj := headerAddr_kernel location j
  have hname : maxNameLength = 128 := rfl
  have hword : kernelWord = 4 := rfl
  have hsize : fileHeaderSize kernelWord = 136 := rfl
  omega

/-- Relocating the next header. -/
theorem Relocated.succ {n : ℕ} {mem' : Memory} (h : Relocated mem location n mem') :
    Relocated mem location (n + 1)
      (store32 mem' (headerAddr kernelWord location n + maxNameLength)
        (wadd (load32 mem' (headerAddr kernelWord location n + maxNameLength)) location)) := by
  have hword : kernelWord = 4 := rfl
  have hname : maxNameLength = 128 := rfl
  refine ⟨fun j hj => ?_, fun x hx => ?_⟩
  · rcases Nat.lt_or_eq_of_le (Nat.le_of_lt_succ hj) with hlt | rfl
    · have hj := headerAddr_kernel location j
      have hn := headerAddr_kernel location n
      rw [load32_store32_of_disjoint (by omega)]
      exact h.starts j hlt
    · rw [load32_store32 (wadd_lt _ _)]
      congr 1
      refine load32_congr fun x hx => h.others x fun k hk => start_apart (i := j) ?_
      have hsize : fileHeaderSize kernelWord = 136 := rfl
      have := Set.mem_Ico.mp hx
      omega
  · have hn := hx n (Nat.lt_succ_self n)
    rw [store32_apply_of_notMem (by omega)]
    exact h.others x fun j hj => hx j (Nat.lt_succ_of_lt hj)

/-- A relocated image keeps the bytes of each header's name. -/
theorem Relocated.name_eq {n i k : ℕ} {mem' : Memory} (h : Relocated mem location n mem')
    (hk : k < maxNameLength) :
    mem' (headerAddr kernelWord location i + k) = mem (headerAddr kernelWord location i + k) :=
  h.others _ fun _ _ => start_apart (i := i) (by omega)

/-- A relocated image keeps each header's length. -/
theorem Relocated.length_eq {n i : ℕ} {mem' : Memory} (h : Relocated mem location n mem') :
    load32 mem' (headerAddr kernelWord location i + maxNameLength + kernelWord) =
      load32 mem (headerAddr kernelWord location i + maxNameLength + kernelWord) := by
  refine load32_congr fun x hx => h.others x fun j _ => start_apart (i := i) ?_
  have := Set.mem_Ico.mp hx
  omega

/-- **Loading only relocates the starts**, whatever the image holds. -/
theorem initInitrd_mem (h : initInitrd mem fresh location = .ok rd) :
    rd.location = location ∧ rd.numRootNodes = (mem location).toNat ∧
      Relocated mem location rd.numRootNodes rd.mem := by
  obtain ⟨_, -, h⟩ := except_bind_eq_ok.mp h
  obtain ⟨_, -, h⟩ := except_bind_eq_ok.mp h
  obtain ⟨⟨mem', nodes⟩, hloop, h⟩ := except_bind_eq_ok.mp h
  obtain rfl := Except.ok.inj h
  refine ⟨rfl, rfl, ?_⟩
  refine forLoopM_invariant (fun i s => Relocated mem location i s.1) Relocated.zero
    (fun i t t' _ ht hbody => ?_) hloop
  obtain ⟨name, -, hbody⟩ := except_bind_eq_ok.mp hbody
  obtain rfl := Except.ok.inj hbody
  exact ht.succ

/-- A node of a loaded file: its fields, and a name that is a string. -/
structure IsFileNode (mem : Memory) (location i : ℕ) (node : FsNode Unit) : Prop where
  inode_eq : node.inode = i
  length_eq : node.length =
    load32 mem (headerAddr kernelWord location i + maxNameLength + kernelWord)
  type_eq : node.type = fileNode
  read_eq : node.read = true
  name : ∃ str, IsCString node.name str ∧ str.length ≤ maxNameLength

/-- **Loading an image whose headers carry strings** returns, with a node for every header. -/
theorem initInitrd_spec (fresh : Fresh) (names : List (List Byte))
    (hcount : (mem location).toNat = names.length)
    (hnames : ∀ i (hi : i < names.length),
      IsCString (bufferAt mem (headerAddr kernelWord location i)) names[i] ∧
        names[i].length < maxNameLength) :
    ∃ rd, initInitrd mem fresh location = .ok rd ∧ rd.numRootNodes = names.length ∧
      rd.location = location ∧ Relocated mem location names.length rd.mem ∧
      rd.root.type = dirNode ∧ rd.root.readDir = true ∧ rd.root.findDir = true ∧
      rd.dev = asDirectory fresh.dev ∧ rd.dirEntry = ⟨fun _ => 0⟩ ∧
      ∀ i < names.length, IsFileNode mem location i (rd.rootNodes i) := by
  obtain ⟨name₁, t₁, hcopy₁, -, -⟩ := exists_isCString_strcpy fresh.root.name
    (isCString_bufferOf initrdString (by decide)) (by decide)
  obtain ⟨name₂, t₂, hcopy₂, -, -⟩ := exists_isCString_strcpy name₁
    (isCString_bufferOf devString (by decide)) (by decide)
  obtain ⟨⟨mem', nodes⟩, hloop, hrel, hnodes⟩ : ∃ u,
      forLoopM (initFile location) names.length (mem, fresh.nodes) = .ok u ∧
        Relocated mem location names.length u.1 ∧
        ∀ j < names.length, IsFileNode mem location j (u.2 j) := by
    refine forLoopM_total (fun i (s : Memory × (ℕ → FsNode Unit)) =>
      Relocated mem location i s.1 ∧ ∀ j < i, IsFileNode mem location j (s.2 j))
      ⟨Relocated.zero, fun j hj => absurd hj (Nat.not_lt_zero j)⟩ ?_
    rintro i ⟨mem₁, nodes₁⟩ hi ⟨hrel, hnodes⟩
    obtain ⟨hstr, hlen⟩ := hnames i hi
    have hsucc := hrel.succ
    have hstr' : IsCString (bufferAt (store32 mem₁ (headerAddr kernelWord location i +
        maxNameLength)
        (wadd (load32 mem₁ (headerAddr kernelWord location i + maxNameLength)) location))
        (headerAddr kernelWord location i)) names[i] :=
      hstr.congr fun k hk => hsucc.name_eq (by omega)
    obtain ⟨name, t, hcopy, ht, htlen⟩ := exists_isCString_strcpy (nodes₁ i).name hstr'
      (by simp only [maxNameLength] at hlen; omega)
    refine ⟨_, except_bind_of_eq_ok _ hcopy, hsucc, fun j hj => ?_⟩
    dsimp only
    rcases Nat.lt_or_eq_of_le (Nat.le_of_lt_succ hj) with hlt | rfl
    · rw [Function.update_of_ne hlt.ne]
      exact hnodes j hlt
    · rw [Function.update_self]
      exact ⟨rfl, hsucc.length_eq, rfl, rfl, t, ht, by omega⟩
  refine ⟨⟨mem', location, { asDirectory fresh.root with name := name₂ }, asDirectory fresh.dev,
    nodes, names.length, ⟨fun _ => 0⟩⟩, ?_, rfl, rfl, hrel, rfl, rfl, rfl, rfl, rfl, hnodes⟩
  simp only [initInitrd, hcopy₁, except_ok_bind, hcopy₂, hcount, hloop]

end

end Studix.Initrd
