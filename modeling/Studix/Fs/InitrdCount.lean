import Studix.Fs.InitrdDir

/-!
# The file count of a ramdisk

`kernel_main` loads the ramdisk and prints how many files `file_count` finds in it. Each name passes
through `strcpy` twice, from the image to a node and from the node to the static `dir_entry`, and
`strcpy` skips the byte behind the string: what was in the buffer there stays, and is a further
character of the name unless it is zero. `dir_entry` starts as zeros and keeps the rest of the names
written to it before, so the names that `file_count` looks up are not always those of the nodes. It
then counts an entry under another name, or goes through the null pointer that `find_dir_node`
returns for a name that no node has.

## Main definitions

* `copyOf`, `copied`: what copies to one buffer read as.
* `ZeroBehind`: every copy of a sequence finds a zero in the byte behind the string.
* `nodeNames`, `listed`: the names of the nodes, and those of the entries behind `dev`.
* `Listing`: a root directory whose nodes have given names.

## Main results

* `copied_eq_self_iff`: the sequences of which each string is copied unchanged.
* `findDir_root`: the node found under a name.
* `fileCountLoop_spec`: the count from an entry on.
* `fileCount_initInitrd`: the file count of a loaded image.
* `fileCount_of_sorted`: images of which every file is counted.
-/

namespace Studix.Initrd

open Vfs

/-! ### Copies of strings -/

/-- The string in a buffer after `strcpy` to it: the skipped byte is a character unless it is
zero. -/
def copyOf (old : Memory) (str : List Byte) : List Byte :=
  if old str.length = 0 then str else str ++ [old str.length]

/-- The buffer after `strcpy` of a string to it. -/
def copyOver (old : Memory) (str : List Byte) : Memory := fun k =>
  if k < str.length then str.getD k 0 else if k = str.length + 1 then 0 else old k

/-- What a buffer reads as after each of several strings is copied to it, one after another. -/
def copied : Memory → List (List Byte) → List (List Byte)
  | _, [] => []
  | old, str :: strs => copyOf old str :: copied (copyOver old str) strs

section

variable {src old old' : Memory} {str : List Byte}

theorem strcpy_eq_copyOver (old : Memory) (hsrc : IsCString src str) (hlen : str.length < 2 ^ 32) :
    strcpy old src = .ok (copyOver old str) := by
  obtain ⟨dest, hcopy, hdest⟩ := strcpy_spec old hsrc hlen
  refine hcopy.trans (congrArg _ (funext fun k => ?_))
  rw [hdest, copyOver]
  split_ifs with hk
  · rw [hsrc.apply hk, List.getD_eq_getElem _ _ hk]
  · rfl
  · rfl

theorem isCString_copyOver (old : Memory) (hsrc : IsCString src str) (hlen : str.length < 2 ^ 32) :
    IsCString (copyOver old str) (copyOf old str) := by
  have hcopy := strcpy_eq_copyOver old hsrc hlen
  by_cases hskip : old str.length = 0
  · obtain ⟨dest, hdest, hstr, -⟩ := isCString_strcpy old hsrc hlen hskip
    obtain rfl := Except.ok.inj (hcopy.symm.trans hdest)
    rwa [copyOf, if_pos hskip]
  · obtain ⟨dest, hdest, hstr⟩ := isCString_strcpy_of_ne old hsrc hlen hskip
    obtain rfl := Except.ok.inj (hcopy.symm.trans hdest)
    rwa [copyOf, if_neg hskip]

theorem length_copyOf_le (old : Memory) (str : List Byte) :
    (copyOf old str).length ≤ str.length + 1 := by
  rw [copyOf]
  split_ifs <;> simp

theorem length_copied (old : Memory) (strs : List (List Byte)) :
    (copied old strs).length = strs.length := by
  induction strs generalizing old with
  | nil => rfl
  | cons str strs ih => rw [copied, List.length_cons, List.length_cons, ih]

theorem copyOf_congr (h : old str.length = old' str.length) : copyOf old str = copyOf old' str := by
  rw [copyOf, copyOf, h]

theorem copyOver_congr {k : ℕ} (h : old k = old' k) : copyOver old str k = copyOver old' str k := by
  rw [copyOver, copyOver, h]

end

/-! ### Copies one after another -/

/-- Whenever a string stands behind a longer one, one that is a byte shorter than itself stands
between them: its NUL is the byte that the copy skips. -/
def ZeroBehind (strs : List (List Byte)) : Prop :=
  ∀ front s mid t back, strs = front ++ s :: mid ++ t :: back → t.length < s.length →
    ∃ u ∈ mid, u.length + 1 = t.length

section

variable {strs : List (List Byte)} {str : List Byte} {old : Memory}

/-- Strings in order of length. -/
theorem zeroBehind_of_sorted (h : strs.Pairwise fun s t => s.length ≤ t.length) :
    ZeroBehind strs := by
  rintro front s mid t back rfl hlt
  have hle := (List.pairwise_append.mp h).2.2 s (by simp) t List.mem_cons_self
  omega

/-- Each copy is unchanged exactly when it finds a zero behind the string. -/
theorem copied_eq_self_iff_foldl : copied old strs = strs ↔
    ∀ front str back, strs = front ++ str :: back → front.foldl copyOver old str.length = 0 := by
  induction strs generalizing old with
  | nil =>
    refine iff_of_true rfl fun front str back heq => ?_
    simp at heq
  | cons s strs ih =>
    have hcopy : copyOf old s = s ↔ old s.length = 0 := by
      rw [copyOf]
      split_ifs with hzero
      · exact iff_of_true rfl hzero
      · exact iff_of_false (by simp) hzero
    rw [copied, List.cons.injEq, hcopy, ih]
    constructor
    · rintro ⟨hzero, hrest⟩ front str back heq
      cases front with
      | nil =>
        obtain ⟨rfl, -⟩ := List.cons.inj heq
        exact hzero
      | cons s' front =>
        obtain ⟨rfl, htail⟩ := List.cons.inj heq
        exact hrest front str back htail
    · intro hall
      exact ⟨hall [] s strs rfl, fun front str back heq =>
        hall (s :: front) str back (by simp [heq])⟩

/-- **A byte of a zeroed buffer after several copies** is zero exactly when a NUL has been written
to it after the last character. -/
theorem foldl_copyOver_eq_zero_iff (hnul : ∀ s ∈ strs, (0 : Byte) ∉ s) (n : ℕ) :
    strs.foldl copyOver (fun _ => 0) n = 0 ↔
      ∀ front s mid, strs = front ++ s :: mid → n < s.length → ∃ u ∈ mid, u.length + 1 = n := by
  induction strs using List.reverseRecOn with
  | nil =>
    refine iff_of_true rfl fun front s mid heq => ?_
    simp at heq
  | append_singleton strs t ih =>
    have ih := ih fun s hs => hnul s (List.mem_append_left _ hs)
    rw [List.foldl_append, List.foldl_cons, List.foldl_nil, copyOver]
    split_ifs with hchar hnul'
    · refine iff_of_false (fun hzero => ?_) fun hall => ?_
      · rw [List.getD_eq_getElem _ _ hchar] at hzero
        exact hnul t (by simp) (hzero ▸ List.getElem_mem hchar)
      · obtain ⟨u, hu, -⟩ := hall strs t [] rfl hchar
        simp at hu
    · refine iff_of_true rfl fun front s mid heq hlt => ⟨t, ?_, hnul'.symm⟩
      rcases List.eq_nil_or_concat mid with rfl | ⟨mid, u, rfl⟩
      · obtain ⟨-, rfl⟩ := List.append_singleton_inj.mp heq
        exact absurd hlt hchar
      · have heq' : strs ++ [t] = (front ++ s :: mid) ++ [u] := by simpa using heq
        obtain ⟨-, rfl⟩ := List.append_singleton_inj.mp heq'
        simp
    · rw [ih]
      constructor
      · intro hall front s mid heq hlt
        rcases List.eq_nil_or_concat mid with rfl | ⟨mid, u, rfl⟩
        · obtain ⟨-, rfl⟩ := List.append_singleton_inj.mp heq
          exact absurd hlt hchar
        · have heq' : strs ++ [t] = (front ++ s :: mid) ++ [u] := by simpa using heq
          obtain ⟨hstrs, -⟩ := List.append_singleton_inj.mp heq'
          obtain ⟨v, hv, hlength⟩ := hall front s mid hstrs hlt
          exact ⟨v, by simp [hv], hlength⟩
      · intro hall front s mid heq hlt
        obtain ⟨v, hv, hlength⟩ := hall front s (mid ++ [t]) (by simp [heq]) hlt
        rcases List.mem_append.mp hv with hv | hv
        · exact ⟨v, hv, hlength⟩
        · obtain rfl := List.mem_singleton.mp hv
          exact absurd hlength.symm hnul'

/-- **Strings copied one after another to a zeroed buffer** are read back unchanged exactly when
each of them has a zero behind it. -/
theorem copied_eq_self_iff (hnul : ∀ s ∈ strs, (0 : Byte) ∉ s) :
    copied (fun _ => 0) strs = strs ↔ ZeroBehind strs := by
  rw [copied_eq_self_iff_foldl]
  constructor
  · intro hall front s mid t back heq
    have hfront : ∀ u ∈ front ++ s :: mid, (0 : Byte) ∉ u := fun u hu =>
      hnul u (heq ▸ List.mem_append_left _ hu)
    exact (foldl_copyOver_eq_zero_iff hfront t.length).mp (hall _ t back heq) front s mid rfl
  · rintro hbehind front t back rfl
    refine (foldl_copyOver_eq_zero_iff (fun u hu => hnul u (List.mem_append_left _ hu)) _).mpr ?_
    rintro first s mid rfl
    exact hbehind first s mid t back rfl

end

/-! ### A directory of named nodes -/

/-- The directories of a ramdisk whose nodes are files with given names. A copy of a name stays in
the name of `dir_entry`, but for the NUL behind the longest ones, which the inode overwrites. -/
structure Listing (rd : State) (names : List (List Byte)) : Prop where
  root : IsDir rd .root
  dev : IsDir rd .dev
  dev_inode : rd.dev.inode = 0
  num_eq : rd.numRootNodes = names.length
  num_lt : names.length < 2 ^ 8
  name : ∀ i (hi : i < names.length), IsCString (rd.rootNodes i).name names[i]
  short : ∀ name ∈ names, name.length < maxNameLength
  file_type : ∀ i < names.length, (rd.rootNodes i).type = fileNode
  inode : ∀ i < names.length, (rd.rootNodes i).inode = i

section

variable {rd : State} {names rest : List (List Byte)} {buf : Memory} {str : List Byte}

/-- The names do not depend on the static entry. -/
theorem Listing.setEntry (h : Listing rd names) (entry : DirEntry) :
    Listing { rd with dirEntry := entry } names :=
  ⟨isDir_dirEntry entry h.root, isDir_dirEntry entry h.dev, h.dev_inode, h.num_eq, h.num_lt, h.name,
    h.short, h.file_type, h.inode⟩

/-- The search from a node on returns the first node with the name. -/
theorem findRootNode_eq {i : ℕ} (hbuf : IsCString buf str) (hlen : str.length < 2 ^ 32)
    (hrest : ∀ j (hj : j < rest.length), IsCString (rd.rootNodes (i + j)).name rest[j]) :
    findRootNode rd buf rest.length i =
      .ok ((rest.findIdx? (· == str)).map fun j => .file (i + j)) := by
  induction rest generalizing i with
  | nil => rfl
  | cons name rest ih =>
    obtain ⟨order, horder, hzero⟩ := strcmp_eq_zero_iff hbuf (hrest 0 (Nat.zero_lt_succ _)) hlen
    rw [List.length_cons, findRootNode]
    rw [Nat.add_zero] at horder
    rw [horder, except_ok_bind, List.findIdx?_cons]
    by_cases heq : str = name
    · rw [if_pos (hzero.mpr heq), if_pos (beq_iff_eq.mpr heq.symm)]
      rfl
    · have htail : ∀ j (hj : j < rest.length),
          IsCString (rd.rootNodes (i + 1 + j)).name rest[j] := by
        intro j hj
        have := hrest (j + 1) (Nat.succ_lt_succ hj)
        rwa [List.getElem_cons_succ, ← Nat.add_assoc, Nat.add_right_comm] at this
      rw [if_neg fun h => heq (hzero.mp h), ih htail, if_neg (by simpa using Ne.symm heq)]
      simp only [Option.map_map, Function.comp_def, Nat.add_assoc, Nat.add_comm 1]

/-- **The node found under a name in the root**: `dev`, or the first file of that name. -/
theorem Listing.findDir_root (h : Listing rd names) (hbuf : IsCString buf str)
    (hlen : str.length < 2 ^ 32) :
    findDir rd .root buf =
      .ok (if str = devString then some .dev else (names.findIdx? (· == str)).map .file) := by
  obtain ⟨order, horder, hzero⟩ := strcmp_eq_zero_iff hbuf
    (isCString_bufferOf devString (by decide)) hlen
  rw [h.root.findDir_eq, initrdFindDir, if_pos rfl, horder, except_ok_bind]
  by_cases hdev : str = devString
  · rw [if_pos (hzero.mpr hdev), if_pos hdev]
  · rw [if_neg fun h0 => hdev (hzero.mp h0), if_neg hdev, h.num_eq, findRootNode_eq hbuf hlen]
    · simp only [Nat.zero_add]
    · intro j hj
      rw [Nat.zero_add]
      exact h.name j hj

/-- What the body of `file_count` does with an entry that reads as `str`. -/
theorem Listing.find_cases (h : Listing rd names) (hbuf : IsCString buf str)
    (hlen : str.length < 2 ^ 32) :
    str = devString ∧ (∃ node, findDir rd .root buf = .ok (some node) ∧
        (rd.node node).type ≠ fileNode) ∨
      str ≠ devString ∧ str ∈ names ∧ (∃ node, findDir rd .root buf = .ok (some node) ∧
        (rd.node node).type = fileNode) ∨
      str ≠ devString ∧ str ∉ names ∧ findDir rd .root buf = .ok none := by
  have hfind := h.findDir_root hbuf hlen
  by_cases hdev : str = devString
  · rw [if_pos hdev] at hfind
    refine .inl ⟨hdev, .dev, hfind, ?_⟩
    rw [h.dev.1]
    decide
  · rw [if_neg hdev] at hfind
    refine .inr ?_
    cases hidx : names.findIdx? (· == str) with
    | none =>
      rw [hidx] at hfind
      refine .inr ⟨hdev, fun hmem => ?_, hfind⟩
      have := List.findIdx?_eq_none_iff.mp hidx str hmem
      simp at this
    | some j =>
      rw [hidx] at hfind
      obtain ⟨hj, heq, -⟩ := List.findIdx?_eq_some_iff_getElem.mp hidx
      have hmem : str ∈ names := by
        rw [← beq_iff_eq.mp heq]
        exact List.getElem_mem hj
      exact .inl ⟨hdev, hmem, .file j, hfind, h.file_type j hj⟩

/-- The name of the static entry holds what a buffer does, with a zero in its last byte. -/
def EntryHolds (entry : DirEntry) (buf : Memory) : Prop :=
  (∀ k < maxNameLength, entry.raw k = buf k) ∧ buf (maxNameLength - 1) = 0

/-- An entry that reads as a string, with an inode. -/
def Reads (entry : DirEntry) (str : List Byte) (inode : ℕ) : Prop :=
  IsCString entry.name str ∧ entry.inode = inode

/-- **Filling the static entry** leaves a copy of the name and the inode, and the rest of the name
as `copyOver` does. -/
theorem fillEntry_copy {old name : Memory} {inode : ℕ} (hold : EntryHolds rd.dirEntry old)
    (hname : IsCString name str) (hlen : str.length < maxNameLength) (hinode : inode < 2 ^ 32) :
    ∃ entry, fillEntry rd name inode = .ok (some entry, { rd with dirEntry := entry }) ∧
      Reads entry (copyOf old str) inode ∧ EntryHolds entry (copyOver old str) := by
  obtain ⟨hsame, hlast⟩ := hold
  have hlen' : str.length < 2 ^ 32 := by
    simp only [maxNameLength] at hlen
    omega
  have hcopy := strcpy_eq_copyOver rd.dirEntry.raw hname hlen'
  have hraw : ∀ k < maxNameLength, store32 (copyOver rd.dirEntry.raw str) maxNameLength inode k =
      copyOver rd.dirEntry.raw str k := fun k hk => store32_apply_of_notMem (.inl hk)
  have hfits : (copyOf old str).length < maxNameLength := by
    rcases Nat.lt_or_eq_of_le (Nat.le_sub_one_of_lt hlen) with hlt | heq
    · have := length_copyOf_le old str
      omega
    · rwa [copyOf, if_pos (by rw [heq, hlast])]
  refine ⟨⟨store32 (copyOver rd.dirEntry.raw str) maxNameLength inode⟩, ?_,
    ⟨?_, load32_store32 hinode⟩, fun k hk => ?_, ?_⟩
  · simp only [fillEntry, hcopy, except_ok_bind]
  · rw [← copyOf_congr (hsame _ hlen)] at hfits ⊢
    exact (isCString_copyOver rd.dirEntry.raw hname hlen').congr fun k hk => hraw k (by omega)
  · exact (hraw k hk).trans (copyOver_congr (hsame k hk))
  · rw [copyOver, if_neg (by omega), hlast, ite_self]

/-- The first entry is `dev`. -/
theorem Listing.readDir_zero (h : Listing rd names) (hzero : rd.dirEntry = ⟨fun _ => 0⟩) :
    ∃ entry, readDir rd .root 0 = .ok (some entry, { rd with dirEntry := entry }) ∧
      Reads entry devString 0 ∧ EntryHolds entry (copyOver (fun _ => 0) devString) := by
  rw [h.root.readDir_eq, initrdReadDir, if_pos ⟨rfl, rfl⟩]
  have hold : EntryHolds rd.dirEntry fun _ => 0 := by
    rw [hzero]
    exact ⟨fun _ _ => rfl, rfl⟩
  exact fillEntry_copy hold (isCString_bufferOf devString (by decide)) (by decide) (by decide)

/-- The entry behind `dev` with a given index: a copy of the name of its node, and its number. -/
theorem Listing.readDir_succ (h : Listing rd names) {i : ℕ} {old : Memory} (hi : i < names.length)
    (hold : EntryHolds rd.dirEntry old) :
    ∃ entry, readDir rd .root (i + 1) = .ok (some entry, { rd with dirEntry := entry }) ∧
      Reads entry (copyOf old names[i]) i ∧ EntryHolds entry (copyOver old names[i]) := by
  have hnum := h.num_lt
  have hindex : wsub (i + 1) 1 = i := by rw [wsub_eq (by omega) (by omega), Nat.add_sub_cancel]
  rw [h.root.readDir_eq, initrdReadDir, if_neg (by simp), hindex, if_neg (by rw [h.num_eq]; omega),
    h.inode i hi]
  exact fillEntry_copy hold (h.name i hi) (h.short _ (List.getElem_mem hi)) (by omega)

/-- Behind the last node there is no entry. -/
theorem Listing.readDir_end (h : Listing rd names) :
    readDir rd .root (names.length + 1) = .ok (none, rd) := by
  have hnum := h.num_lt
  have hindex : wsub (names.length + 1) 1 = names.length := by
    rw [wsub_eq (by omega) (by omega), Nat.add_sub_cancel]
  rw [h.root.readDir_eq, initrdReadDir, if_neg (by simp), hindex, if_pos (by rw [h.num_eq])]

/-- What `file_count` makes of the entries behind `dev` that read as `entries`, with `count` files
before them. -/
def countOf (names entries : List (List Byte)) (count : ℕ) : Except Stop ℕ :=
  if ∀ name ∈ entries, name = devString ∨ name ∈ names then
    .ok (count + entries.countP (· ≠ devString))
  else .error .nullPointer

/-- Every entry is counted exactly when each is the name of a node and not `dev`. -/
theorem countOf_eq_ok_iff {entries : List (List Byte)} {n : ℕ} (hn : entries.length = n) :
    countOf names entries 0 = .ok n ↔ ∀ name ∈ entries, name ≠ devString ∧ name ∈ names := by
  rw [countOf]
  split_ifs with hfound
  · rw [Except.ok.injEq, Nat.zero_add, ← hn, List.countP_eq_length]
    refine forall₂_congr fun name hname => ?_
    have := hfound name hname
    simp only [decide_eq_true_eq]
    tauto
  · refine iff_of_false (by simp) fun hall => hfound fun name hname => .inr (hall name hname).2

/-- **The count from an entry on**, by induction on the nodes that are left. -/
theorem fileCountLoop_spec {fuel i count : ℕ} (done : List (List Byte)) {old : Memory}
    (h : Listing rd names) (hnames : names = done ++ rest) (hi : i = done.length)
    (hold : EntryHolds rd.dirEntry old) (hfuel : rest.length < fuel) :
    fileCountLoop .root fuel (i + 1) count rd = countOf names (copied old rest) count := by
  induction rest generalizing rd fuel i count done old with
  | nil =>
    obtain ⟨fuel, rfl⟩ : ∃ n, fuel = n + 1 := ⟨fuel - 1, by omega⟩
    obtain rfl : i = names.length := by rw [hi, hnames, List.append_nil]
    rw [fileCountLoop, h.readDir_end]
    simp [countOf, copied]
  | cons name rest ih =>
    obtain ⟨fuel, rfl⟩ : ∃ n, fuel = n + 1 := ⟨fuel - 1, by omega⟩
    rw [List.length_cons] at hfuel
    have hlt : i < names.length := by
      rw [hnames, List.length_append, List.length_cons]
      omega
    have hname : names[i] = name := by
      simp [hnames, hi]
    obtain ⟨entry, hread, ⟨hstr, -⟩, hraw⟩ := h.readDir_succ hlt hold
    rw [hname] at hstr hraw
    have hshort := h.short _ (List.getElem_mem hlt)
    rw [hname] at hshort
    have hlen := (length_copyOf_le old name).trans_lt
      ((Nat.succ_le_of_lt hshort).trans_lt (by decide : maxNameLength < 2 ^ 32))
    have hnext : ∀ count, fileCountLoop .root fuel (i + 1 + 1) count
        { rd with dirEntry := entry } = countOf names (copied (copyOver old name) rest) count :=
      fun count => ih (done ++ [name]) (h.setEntry entry) (by simp [hnames]) (by simp [hi]) hraw
        (by omega)
    rw [fileCountLoop, hread, except_ok_bind]
    dsimp only
    rcases (h.setEntry entry).find_cases hstr hlen with
      ⟨hdev, node, hfind, htype⟩ | ⟨hdev, hmem, node, hfind, htype⟩ | ⟨hdev, hmem, hfind⟩
    · rw [hfind, except_ok_bind]
      dsimp only
      rw [if_neg htype, hnext]
      simp [countOf, copied, hdev]
    · rw [hfind, except_ok_bind]
      dsimp only
      rw [if_pos htype, hnext]
      simp [countOf, copied, hdev, hmem, Nat.add_assoc, Nat.add_comm 1]
    · rw [hfind, except_ok_bind]
      simp [countOf, copied, hdev, hmem]

/-- The strings of the entries behind `dev`, for nodes with the given names: `dir_entry` is zero
when the kernel starts, and the first entry is `dev`. -/
def listed (names : List (List Byte)) : List (List Byte) :=
  copied (copyOver (fun _ => 0) devString) names

/-- The names behind `dev` are listed unchanged. -/
theorem listed_eq_self_iff (hnul : ∀ s ∈ names, (0 : Byte) ∉ s) :
    listed names = names ↔ ZeroBehind (devString :: names) := by
  have hdev : ∀ s ∈ devString :: names, (0 : Byte) ∉ s :=
    List.forall_mem_cons.mpr ⟨by decide, hnul⟩
  rw [← copied_eq_self_iff hdev, copied, List.cons.injEq]
  exact (and_iff_right (if_pos rfl)).symm

/-- **The file count of a root directory** right after it has been loaded. -/
theorem Listing.fileCount_eq (h : Listing rd names) (hzero : rd.dirEntry = ⟨fun _ => 0⟩) :
    fileCount rd .root = countOf names (listed names) 0 := by
  have hnum := h.num_lt
  obtain ⟨entry, hread, ⟨hname, -⟩, hraw⟩ := h.readDir_zero hzero
  have hentry := h.setEntry entry
  have hfind : findDir { rd with dirEntry := entry } .root entry.name = .ok (some .dev) := by
    rw [hentry.findDir_root hname (by decide), if_pos rfl]
  have htype : ¬(State.node { rd with dirEntry := entry } .dev).type = fileNode := by
    rw [hentry.dev.1]
    decide
  rw [fileCount, show 2 ^ 32 = 2 ^ 32 - 1 + 1 by norm_num, fileCountLoop, hread, except_ok_bind]
  dsimp only
  rw [hfind, except_ok_bind]
  dsimp only
  rw [if_neg htype]
  exact fileCountLoop_spec [] hentry rfl rfl hraw (by omega)

end

/-! ### A loaded image -/

/-- The names of the nodes of an image, in memory that holds `fresh`. -/
def nodeNames (fresh : Fresh) (names : List (List Byte)) : List (List Byte) :=
  names.mapIdx fun i name => copyOf (fresh.nodes i).name name

section

variable {mem : Memory} {fresh : Fresh} {location : ℕ} {rd : State} {names : List (List Byte)}

/-- **The names of the nodes after loading**: each is a copy over what its node held. -/
theorem rootNodes_name (h : initInitrd mem fresh location = .ok rd)
    (hcount : (mem location).toNat = names.length)
    (hnames : ∀ i (hi : i < names.length),
      IsCString (bufferAt mem (headerAddr kernelWord location i)) names[i] ∧
        names[i].length < maxNameLength) {i : ℕ} (hi : i < names.length) :
    IsCString (rd.rootNodes i).name (copyOf (fresh.nodes i).name names[i]) := by
  obtain ⟨_, -, h⟩ := except_bind_eq_ok.mp h
  obtain ⟨_, -, h⟩ := except_bind_eq_ok.mp h
  obtain ⟨⟨mem', nodes⟩, hloop, h⟩ := except_bind_eq_ok.mp h
  obtain rfl := Except.ok.inj h
  rw [hcount] at hloop
  have hfinal := forLoopM_invariant (fun n (s : Memory × (ℕ → FsNode Unit)) =>
      Relocated mem location n s.1 ∧ (∀ j, n ≤ j → s.2 j = fresh.nodes j) ∧
        ∀ j (hj : j < names.length), j < n →
          IsCString (s.2 j).name (copyOf (fresh.nodes j).name names[j]))
    ⟨Relocated.zero, fun _ _ => rfl, fun _ _ hj => absurd hj (Nat.not_lt_zero _)⟩ ?_ hloop
  · exact hfinal.2.2 i hi hi
  rintro n ⟨mem₁, nodes₁⟩ s hn ⟨hrel, hfresh, hdone⟩ hbody
  obtain ⟨name, hcopy, hbody⟩ := except_bind_eq_ok.mp hbody
  obtain rfl := Except.ok.inj hbody
  obtain ⟨hstr, hlen⟩ := hnames n hn
  have hsucc := hrel.succ
  have hstr' : IsCString (bufferAt (store32 mem₁ (headerAddr kernelWord location n + maxNameLength)
      (wadd (load32 mem₁ (headerAddr kernelWord location n + maxNameLength)) location))
      (headerAddr kernelWord location n)) names[n] :=
    hstr.congr fun k hk => hsucc.name_eq (by omega)
  have hlen' : (names[n]).length < 2 ^ 32 := hlen.trans (by decide)
  obtain rfl := Except.ok.inj ((strcpy_eq_copyOver _ hstr' hlen').symm.trans hcopy)
  refine ⟨hsucc, fun j hj => ?_, fun j hj hlt => ?_⟩
  · dsimp only
    rw [Function.update_of_ne (by omega)]
    exact hfresh j (by omega)
  · dsimp only
    rcases Nat.lt_or_eq_of_le (Nat.le_of_lt_succ hlt) with hlt | rfl
    · rw [Function.update_of_ne hlt.ne]
      exact hdone j hj hlt
    · rw [Function.update_self, ← hfresh j le_rfl]
      exact isCString_copyOver _ hstr' hlen'

theorem length_nodeNames (fresh : Fresh) (names : List (List Byte)) :
    (nodeNames fresh names).length = names.length :=
  List.length_mapIdx ..

theorem getElem_nodeNames {i : ℕ} (hi : i < names.length)
    (hi' : i < (nodeNames fresh names).length) :
    (nodeNames fresh names)[i] = copyOf (fresh.nodes i).name names[i] :=
  List.getElem_mapIdx ..

/-- Loading an image gives a root of nodes named `nodeNames`. -/
theorem listing_of_initInitrd (fresh : Fresh) (hcount : (mem location).toNat = names.length)
    (hnames : ∀ i (hi : i < names.length),
      IsCString (bufferAt mem (headerAddr kernelWord location i)) names[i] ∧
        names[i].length + 1 < maxNameLength) :
    ∃ rd, initInitrd mem fresh location = .ok rd ∧ Listing rd (nodeNames fresh names) ∧
      rd.dirEntry = ⟨fun _ => 0⟩ := by
  have hshort : ∀ i (hi : i < names.length),
      IsCString (bufferAt mem (headerAddr kernelWord location i)) names[i] ∧
        names[i].length < maxNameLength := fun i hi =>
    ⟨(hnames i hi).1, by have := (hnames i hi).2; omega⟩
  obtain ⟨rd, hinit, hnum, -, -, htype, hreadDir, hfindDir, hdev, hzero, hnodes⟩ :=
    initInitrd_spec fresh names hcount hshort
  have hlen := length_nodeNames fresh names
  refine ⟨rd, hinit, ?_, hzero⟩
  have hdevDir : IsDir rd .dev := by
    refine ⟨?_, ?_, ?_⟩ <;> rw [State.node, hdev] <;> rfl
  refine ⟨⟨htype, hreadDir, hfindDir⟩, hdevDir, by rw [hdev]; rfl, hnum.trans hlen.symm, ?_, ?_, ?_,
    fun i hi => (hnodes i (hlen ▸ hi)).type_eq, fun i hi => (hnodes i (hlen ▸ hi)).inode_eq⟩
  · rw [hlen, ← hcount]
    exact (mem location).isLt
  · intro i hi
    rw [getElem_nodeNames (hlen ▸ hi) hi]
    exact rootNodes_name hinit hcount hshort (hlen ▸ hi)
  · intro name hname
    obtain ⟨i, hi, rfl⟩ := List.mem_mapIdx.mp hname
    have := length_copyOf_le (fresh.nodes i).name names[i]
    have := (hnames i hi).2
    omega

/-- **The file count that `kernel_main` prints**, for any image of names that a copy leaves short
enough: the entries that are not read as `dev`, if each of them reads as the name of a node, and
else no count, for a null pointer. Every file is counted exactly when no entry reads as `dev` and
each reads as the name of a node. -/
theorem fileCount_initInitrd (mem : Memory) (fresh : Fresh) (location : ℕ)
    (names : List (List Byte)) (hcount : (mem location).toNat = names.length)
    (hnames : ∀ i (hi : i < names.length),
      IsCString (bufferAt mem (headerAddr kernelWord location i)) names[i] ∧
        names[i].length + 1 < maxNameLength) :
    ∃ rd, initInitrd mem fresh location = .ok rd ∧
      fileCount rd .root = countOf (nodeNames fresh names) (listed (nodeNames fresh names)) 0 ∧
      (fileCount rd .root = .ok names.length ↔
        ∀ name ∈ listed (nodeNames fresh names),
          name ≠ devString ∧ name ∈ nodeNames fresh names) := by
  obtain ⟨rd, hinit, hlisting, hzero⟩ := listing_of_initInitrd fresh hcount hnames
  have hcountOf := hlisting.fileCount_eq hzero
  refine ⟨rd, hinit, hcountOf, ?_⟩
  rw [hcountOf]
  exact countOf_eq_ok_iff ((length_copied _ _).trans (length_nodeNames fresh names))

/-- **In zeroed memory every file is counted** when the names stand in order of their lengths and
none is `dev` or shorter than that. -/
theorem fileCount_of_sorted (hcount : (mem location).toNat = names.length)
    (hnames : ∀ i (hi : i < names.length),
      IsCString (bufferAt mem (headerAddr kernelWord location i)) names[i] ∧
        names[i].length + 1 < maxNameLength)
    (hlen : ∀ name ∈ names, devString.length ≤ name.length)
    (hsorted : names.Pairwise fun s t => s.length ≤ t.length) (hdev : devString ∉ names) :
    ∃ rd, initInitrd mem zeroFresh location = .ok rd ∧ fileCount rd .root = .ok names.length := by
  obtain ⟨rd, hinit, hlisting, hzero⟩ := listing_of_initInitrd zeroFresh hcount hnames
  have hself : nodeNames zeroFresh names = names := by
    refine List.ext_getElem (length_nodeNames _ _) fun i hi hi' => ?_
    rw [getElem_nodeNames hi' hi]
    exact if_pos rfl
  have hnul : ∀ s ∈ names, (0 : Byte) ∉ s := by
    intro s hs h0
    obtain ⟨i, hi, rfl⟩ := List.mem_iff_getElem.mp hs
    exact (hnames i hi).1.ne_zero 0 h0 rfl
  have hlisted : listed names = names :=
    (listed_eq_self_iff hnul).mpr (zeroBehind_of_sorted (List.pairwise_cons.mpr ⟨hlen, hsorted⟩))
  refine ⟨rd, hinit, ?_⟩
  rw [hlisting.fileCount_eq hzero, hself, hlisted, countOf_eq_ok_iff rfl]
  exact fun name hname => ⟨fun heq => hdev (heq ▸ hname), hname⟩

end

/-- The image of the one file `hello`, at address 0. -/
def helloImage : Memory := fun x => if x = 0 then 1 else bufferOf [104, 101, 108, 108, 111] (x - 1)

theorem helloImage_names : (helloImage 0).toNat =
      [[(104 : Byte), 101, 108, 108, 111]].length ∧
    ∀ i (hi : i < [[(104 : Byte), 101, 108, 108, 111]].length),
      IsCString (bufferAt helloImage (headerAddr kernelWord 0 i))
          [[(104 : Byte), 101, 108, 108, 111]][i] ∧
        [[(104 : Byte), 101, 108, 108, 111]][i].length + 1 < maxNameLength := by
  refine ⟨by decide, fun i hi => ?_⟩
  obtain rfl : i = 0 := by simpa using hi
  rw [List.getElem_cons_zero]
  exact ⟨⟨by decide, by decide, by decide⟩, by decide⟩

/-- In zeroed memory `hello` is counted. -/
theorem fileCount_helloImage : ∃ rd, initInitrd helloImage zeroFresh 0 = .ok rd ∧
    fileCount rd .root = .ok 1 := by
  obtain ⟨rd, hinit, -, hcount⟩ :=
    fileCount_initInitrd helloImage zeroFresh 0 _ helloImage_names.1 helloImage_names.2
  exact ⟨rd, hinit, hcount.mpr (by decide)⟩

end Studix.Initrd
