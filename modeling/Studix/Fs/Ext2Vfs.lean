import Studix.Fs.Ext2Dir
import Studix.Fs.Vfs

/-!
# Ext2 directories behind the virtual filesystem

`ext2_vfs_read_dir` of `src/fs/ext2_vfs.c` ignores the index it is given and returns the entry at
the hidden position of the open file. The calls on an opened directory node therefore return its
entries in order, whatever the indices; they agree with the indices exactly along a first ascending
pass. The entry is copied by `strcpy`, which leaves one byte of the fresh `Dir_entry` as it was, so
the memory that `kmalloc` returns takes part in what a caller reads.

## Main definitions

* `ext2VfsReadDir`, and `readDirCalls` for a sequence of calls.
* `IsEntry`: a returned entry is a given record of the directory.

## Main results

* `readDirCalls_ascending`: what an ascending pass returns.
-/

namespace Studix.Ext2

open Vfs

/-! ### The calls -/

/-- One call `read_dir_node(node, index)`, with the contents of the memory it does not set: the
stack, the buffer of the name and the `Dir_entry`. -/
structure ReadDirCall where
  index : ℕ
  stack : Memory
  name : Memory
  entry : Memory

/-- `ext2_vfs_read_dir`: the entry, and the node with its open file. -/
def ext2VfsReadDir (fs : Ext2Fs) (call : ReadDirCall) (_index : ℕ) (node : FsNode Ext2File) :
    Except Stop (Option DirEntry × FsNode Ext2File) :=
  match node.impl with
  | none => .error .nullPointer
  | some file => do
    let (ext2Dir, file) ← ext2NextDirent fs call.stack call.name file
    let node := { node with impl := some file }
    match ext2Dir with
    | none => .ok (none, node)
    | some ext2Dir => do
      let dir ← strcpy (store32 call.entry maxNameLength ext2Dir.inodeNum) ext2Dir.name
      .ok (some ⟨dir⟩, node)

/-- The calls `read_dir_node(node, index)` of a list, one after the other. -/
def readDirCalls (fs : Ext2Fs) :
    FsNode Ext2File → List ReadDirCall → Except Stop (List (Option DirEntry))
  | _, [] => .ok []
  | node, call :: calls => do
    let (entry, node) ← readDirNode node (ext2VfsReadDir fs call) call.index node
    let entries ← readDirCalls fs node calls
    .ok (entry :: entries)

/-- An opened directory node: the node `ext2_mount` makes, with an open file behind it. -/
def openedNode (name : Memory) (inode : ℕ) (file : Ext2File) : FsNode Ext2File where
  name := name
  length := 0
  inode := inode
  permissions := 0
  uid := 0
  gid := 0
  type := dirNode
  nodePtr := 0
  impl := some file
  read := true
  write := true
  open' := true
  close := true
  readDir := true
  findDir := true

theorem openedNode_isDir (name : Memory) (inode : ℕ) (file : Ext2File) :
    (openedNode name inode file).type &&& dirNode ≠ 0 ∧ (openedNode name inode file).readDir :=
  ⟨(by decide : dirNode &&& dirNode ≠ 0), rfl⟩

/-! ### What they return -/

/-- A returned entry is the given record; `NULL` stands for no record. -/
def IsEntry : Option DirEntry → Option DirRecord → Prop
  | none, none => True
  | some entry, some r => entry.inode = r.inodeNum.toNat ∧ IsCString entry.name r.name
  | _, _ => False

/-- The entry that is due fits the fresh `Dir_entry`: its name is short enough for `strcpy` to stay
off the inode, and the byte that `strcpy` skips is zero. -/
def FitsEntry (call : ReadDirCall) (r : DirRecord) : Prop :=
  r.name.length + 1 < maxNameLength ∧ call.entry r.name.length = 0

/-- The calls are an ascending pass from position `k` on, or lie past the end of the directory, and
the entries that are due fit. -/
def Ascending (records : List DirRecord) (k : ℕ) (calls : List ReadDirCall) : Prop :=
  ∀ j (hj : j < calls.length),
    (calls[j].index = k + j ∨ records.length ≤ k + j ∧ records.length ≤ calls[j].index) ∧
      ∀ r, records[k + j]? = some r → FitsEntry calls[j] r

section

variable {fs : Ext2Fs} {file : Ext2File} {r : DirRecord} {records : List DirRecord}
  {node : FsNode Ext2File}

/-- One call in front of a list of records. -/
theorem ext2VfsReadDir_spec (node : FsNode Ext2File) (call : ReadDirCall) (index : ℕ)
    (himpl : node.impl = some file)
    (hread : ∀ i < 12, DeliversBlock fs (file.inode.dbp i))
    (hsize : file.inode.size < 12 * fs.blockSize) (hat : AtRecords fs file records)
    (hnul : ∀ r ∈ records, (0 : Byte) ∉ r.name)
    (hfits : ∀ r, records.head? = some r → FitsEntry call r) :
    ∃ entry file', ext2VfsReadDir fs call index node =
        .ok (entry, { node with impl := some file' }) ∧ file'.inode = file.inode ∧
      AtRecords fs file' records.tail ∧ IsEntry entry records.head? := by
  cases records with
  | nil =>
    obtain ⟨file', hnext, hinode, hat'⟩ := ext2NextDirent_nil call.stack call.name hread hsize hat
    refine ⟨none, file', ?_, hinode, hat', trivial⟩
    simp only [ext2VfsReadDir, himpl, hnext, except_ok_bind]
  | cons r records =>
    obtain ⟨dirent, file', hnext, hinode, hat', hnum, -, -, -, hname⟩ :=
      ext2NextDirent_cons call.stack call.name hread hsize hat
    obtain ⟨hlen, hskip⟩ := hfits r rfl
    have hstr : IsCString dirent.name r.name :=
      ⟨fun c hc h0 => hnul r List.mem_cons_self (h0 ▸ hc), hname.1, hname.2⟩
    obtain ⟨dir, hcopy, hdir, hkeep⟩ := isCString_strcpy
      (store32 call.entry maxNameLength dirent.inodeNum) hstr
      (by simp only [maxNameLength] at hlen; omega)
      (by rw [store32_apply_of_notMem (by omega), hskip])
    refine ⟨some ⟨dir⟩, file', ?_, hinode, hat', ?_, hdir⟩
    · simp only [ext2VfsReadDir, himpl, hnext, except_ok_bind, hcopy]
    · have hsame : load32 dir maxNameLength =
          load32 (store32 call.entry maxNameLength dirent.inodeNum) maxNameLength :=
        load32_congr fun x hx => hkeep x (by have := (Set.mem_Ico.mp hx).1; omega)
      rw [DirEntry.inode, hsame, load32_store32 (by rw [hnum]; exact r.inodeNum.isLt), hnum]

/-- **An ascending pass over a directory returns its entries**, and `NULL` past the end. -/
theorem readDirCalls_spec {k : ℕ} {calls : List ReadDirCall}
    (htype : node.type &&& dirNode ≠ 0 ∧ node.readDir = true) (himpl : node.impl = some file)
    (hread : ∀ i < 12, DeliversBlock fs (file.inode.dbp i))
    (hsize : file.inode.size < 12 * fs.blockSize) (hat : AtRecords fs file (records.drop k))
    (hnul : ∀ r ∈ records, (0 : Byte) ∉ r.name) (hcalls : Ascending records k calls) :
    ∃ entries, readDirCalls fs node calls = .ok entries ∧
      List.Forall₂ (fun call entry => IsEntry entry records[call.index]?) calls entries := by
  -- Induction on the calls; each consumes one of the remaining records.
  induction calls generalizing node file k with
  | nil => exact ⟨[], rfl, .nil⟩
  | cons call calls ih =>
    obtain ⟨hindex, hfits⟩ := hcalls 0 (by simp)
    simp only [List.getElem_cons_zero, Nat.add_zero] at hindex hfits
    obtain ⟨entry, file', hcall, hinode, hat', hentry⟩ := ext2VfsReadDir_spec node call
        call.index himpl
      hread hsize hat (fun r hr => hnul r (List.mem_of_mem_drop hr))
      (fun r hr => hfits r (by rwa [List.head?_drop] at hr))
    have hrest : Ascending records (k + 1) calls := by
      intro j hj
      have := hcalls (j + 1) (by simpa using hj)
      simpa only [List.getElem_cons_succ, Nat.add_assoc, Nat.add_comm 1 j] using this
    obtain ⟨entries, hentries, hall⟩ := @ih file' { node with impl := some file' } (k + 1) htype rfl
      (by rwa [hinode]) (by rwa [hinode]) (by rwa [List.tail_drop] at hat') hrest
    refine ⟨entry :: entries, ?_, .cons ?_ hall⟩
    · simp only [readDirCalls, readDirNode, if_pos htype, hcall, except_ok_bind, hentries]
    · rw [List.head?_drop] at hentry
      rcases hindex with heq | ⟨hk, hi⟩
      · rwa [heq]
      · rw [List.getElem?_eq_none hi]
        rwa [List.getElem?_eq_none hk] at hentry

end

/-- **`read_dir_node` on an opened ext2 directory agrees with the indices along an ascending pass.**
When the `k`-th call on a freshly opened directory is made with index `k`, or lies past the end as
its index does, and the entries that are due fit the fresh memory, every call returns the entry of
its index. -/
theorem readDirCalls_ascending {fs : Ext2Fs} {stack fresh : Memory} {n : ℕ} {file : Ext2File}
    {records : List DirRecord} {calls : List ReadDirCall} (name : Memory)
    (hopen : ext2OpenInode fs stack fresh n = .ok file)
    (hread : ∀ i < 12, DeliversBlock fs (file.inode.dbp i))
    (hsize : file.inode.size < 12 * fs.blockSize)
    (hdir : fileBytes fs file.inode 0 file.inode.size = encodeDir records)
    (hnul : ∀ r ∈ records, (0 : Byte) ∉ r.name) (hcalls : Ascending records 0 calls) :
    ∃ entries, readDirCalls fs (openedNode name n file) calls = .ok entries ∧
      List.Forall₂ (fun call entry => IsEntry entry records[call.index]?) calls entries := by
  have hat := atRecords_of_ext2OpenInode hopen hread hsize hdir
  exact readDirCalls_spec (openedNode_isDir name n file) rfl hread hsize
    (by rwa [List.drop_zero]) hnul hcalls

/-! ### The sample directory -/

/-- Two calls in order and one past the end. -/
theorem readDirCalls_ascending_sample : ∃ file entries,
    ext2OpenInode sampleFs (fun _ => 0) (fun _ => 0) 2 = .ok file ∧
      (∀ i < 12, DeliversBlock sampleFs (file.inode.dbp i)) ∧
      file.inode.size < 12 * sampleFs.blockSize ∧
      fileBytes sampleFs file.inode 0 file.inode.size = encodeDir sampleRecords ∧
      readDirCalls sampleFs (openedNode (fun _ => 0) 2 file)
        ([0, 1, 7].map fun i => ⟨i, fun _ => 0, fun _ => 0, fun _ => 0⟩) = .ok entries ∧
      List.Forall₂ (fun call entry => IsEntry entry sampleRecords[call.index]?)
        ([0, 1, 7].map fun i => (⟨i, fun _ => 0, fun _ => 0, fun _ => 0⟩ : ReadDirCall))
        entries := by
  obtain ⟨file, hopen, hlt, hread, hdir⟩ := open_sampleDir
  have hcalls : Ascending sampleRecords 0
      ([0, 1, 7].map fun i => ⟨i, fun _ => 0, fun _ => 0, fun _ => 0⟩) := by
    intro j hj
    simp only [List.map_cons, List.map_nil, List.length_cons, List.length_nil] at hj
    interval_cases j <;> simp [sampleRecords, FitsEntry, maxNameLength]
  obtain ⟨entries, hentries, hall⟩ :=
    readDirCalls_ascending (fun _ => 0) hopen hread hlt hdir (by decide) hcalls
  exact ⟨file, entries, hopen, hread, hlt, hdir, hentries, hall⟩

/-- A first call with index 1 on the sample directory returns the entry of index 0. -/
theorem first_call_ignores_index : ∃ file entry,
    ext2OpenInode sampleFs (fun _ => 0) (fun _ => 0) 2 = .ok file ∧
      fileBytes sampleFs file.inode 0 file.inode.size = encodeDir sampleRecords ∧
      readDirCalls sampleFs (openedNode (fun _ => 0) 2 file)
        [⟨1, fun _ => 0, fun _ => 0, fun _ => 0⟩] = .ok [some entry] ∧
      IsEntry (some entry) sampleRecords[0]? ∧ ¬IsEntry (some entry) sampleRecords[1]? := by
  obtain ⟨file, hopen, hlt, hread, hdir⟩ := open_sampleDir
  have hat := atRecords_of_ext2OpenInode hopen hread hlt hdir
  obtain ⟨entry, file', hcall, -, -, hentry⟩ := ext2VfsReadDir_spec
    (openedNode (fun _ => 0) 2 file) ⟨1, fun _ => 0, fun _ => 0, fun _ => 0⟩ 1 rfl hread
    hlt hat (by decide)
    (fun r hr => by
      obtain rfl := Option.some.inj hr
      exact ⟨by decide, rfl⟩)
  obtain _ | entry := entry
  · exact hentry.elim
  refine ⟨file, entry, hopen, hdir, ?_, hentry, fun h => ?_⟩
  · rw [readDirCalls, readDirNode, if_pos (openedNode_isDir _ 2 file), hcall]
    rfl
  · exact absurd (hentry.1.symm.trans h.1) (by decide)

end Studix.Ext2
