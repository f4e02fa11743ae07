import Studix.Fs.Ext2
import Studix.Lib.CString

/-!
# Path lookup

`ext2_find_in_dir` and `ext2_look_up_path` of `src/fs/ext2.c`. A path is walked with a moving
pointer. At each separator the component in front of it is cut off by a NUL in the caller's buffer,
looked up, and the separator is put back, also where the lookup fails.

A lookup meets memory that C leaves unset, once when the directory is opened and once for each entry
that is read from it; `Unset` gives its contents.

## Main definitions

* `Unset`, `ext2FindInDir`.
* `lookUpPathWith`, `ext2LookUpPath`: path lookup over any directory lookup, and over that of ext2.
* `components`, `resolveFrom`: the components of a path, and their lookup one by one.
* `resolve`: the fold of a lookup over the components.

## Main results

* `componentEnd_spec`: the end of the first component of a string.
* `lookUpPathWith_spec`, `lookUpPathWith_eq`: path lookup is the fold, and leaves the path as it
  was.
-/

namespace Studix.Ext2

/-! ### The functions -/

/-- The contents of memory that a function does not set: its local arrays and the buffers that
`kmalloc` returns. -/
structure Unset where
  stack : Memory
  fresh : Memory

/-- The loop of `ext2_find_in_dir`, from the `k`-th call on. -/
def findLoop (fs : Ext2Fs) (unset : ℕ → Unset) (name : Memory) :
    ℕ → ℕ → Ext2File → Except Stop ℕ
  | 0, _, _ => .error .unfinished
  | fuel + 1, k, dir => do
    let (dirent, dir) ← ext2NextDirent fs (unset k).stack (unset k).fresh dir
    match dirent with
    | none => .ok 0
    | some dirent => do
      let order ← strcmp dirent.name name
      if order = 0 then .ok dirent.inodeNum else findLoop fs unset name fuel (k + 1) dir

/-- `ext2_find_in_dir`. -/
def ext2FindInDir (fs : Ext2Fs) (unset : ℕ → Unset) (dirInode : ℕ) (name : Memory) :
    Except Stop ℕ := do
  let dir ← ext2OpenInode fs (unset 0).stack (unset 0).fresh dirInode
  findLoop fs unset name (2 ^ 32) 1 dir

/-- The character `/`. -/
def slash : Byte := 47

/-- The inner loop of `ext2_look_up_path`: the index of the next separator or NUL. -/
def componentEnd (path : Memory) : ℕ → ℕ → Except Stop ℕ
  | 0, _ => .error .unfinished
  | fuel + 1, j =>
    if path j ≠ slash ∧ path j ≠ 0 then componentEnd path fuel (j + 1) else .ok j

/-- The loop of `ext2_look_up_path`, with the pointer at `path[p]`: the result, and the caller's
buffer. The `k`-th lookup is `find k`. -/
def lookUpLoop (find : ℕ → ℕ → Memory → Except Stop ℕ) :
    ℕ → ℕ → Memory → ℕ → ℕ → Except Stop (ℕ × Memory)
  | 0, _, _, _, _ => .error .unfinished
  | fuel + 1, k, path, p, currDirInode => do
    let j ← componentEnd (fun i => path (p + i)) (2 ^ 32) 0
    if path (p + j) = 0 then
      let inode ← find k currDirInode fun i => path (p + i)
      if inode = 0 then .ok (0, path) else .ok (inode, path)
    else
      let path := Function.update path (p + j) 0
      let currDirInode ← find k currDirInode fun i => path (p + i)
      let path := Function.update path (p + j) slash
      if currDirInode = 0 then .ok (0, path)
      else lookUpLoop find fuel (k + 1) path (p + (j + 1)) currDirInode

/-- `ext2_look_up_path` over a lookup in a directory: the result, and the caller's buffer. -/
def lookUpPathWith (find : ℕ → ℕ → Memory → Except Stop ℕ) (path : Memory) :
    Except Stop (ℕ × Memory) :=
  if path 0 ≠ slash then .ok (0, path) else lookUpLoop find (2 ^ 32) 0 path 1 rootInodeNum

/-- `ext2_look_up_path`. -/
def ext2LookUpPath (fs : Ext2Fs) (unset : ℕ → ℕ → Unset) (path : Memory) :
    Except Stop (ℕ × Memory) :=
  lookUpPathWith (fun k => ext2FindInDir fs (unset k)) path

/-! ### Paths -/

/-- The components of a path: what lies between its separators, empty components included. -/
def components (str : List Byte) : List (List Byte) := str.splitOn slash

/-- The lookup of one component after the other, each in the directory that the one before it gave.
The `k`-th lookup is `find k`. -/
def resolveFrom (find : ℕ → ℕ → List Byte → Except Stop ℕ) :
    ℕ → ℕ → List (List Byte) → Except Stop ℕ
  | _, inode, [] => .ok inode
  | k, inode, name :: names => do
    let inode ← find k inode name
    if inode = 0 then .ok 0 else resolveFrom find (k + 1) inode names

/-- A step of the fold: nothing is found below nothing. -/
def resolveStep (find : ℕ → List Byte → ℕ) (inode : ℕ) (name : List Byte) : ℕ :=
  if inode = 0 then 0 else find inode name

/-- The lookup of an absolute path by a function of the directory and the name: the fold of that
function over the components behind the first separator. -/
def resolve (find : ℕ → List Byte → ℕ) (str : List Byte) : ℕ :=
  if str.head? = some slash then (components str.tail).foldl (resolveStep find) rootInodeNum else 0

variable {path : Memory} {str name rest : List Byte} {fuel j k p inode : ℕ}

/-- Nothing is found below nothing. -/
theorem foldl_resolveStep_zero (find : ℕ → List Byte → ℕ) (names : List (List Byte)) :
    names.foldl (resolveStep find) 0 = 0 := by
  induction names with
  | nil => rfl
  | cons name names ih => exact ih

/-- A lookup that is a function of the directory and the name is folded over the components. -/
theorem resolveFrom_eq_foldl (find : ℕ → List Byte → ℕ) (names : List (List Byte)) (k : ℕ)
    (hinode : inode ≠ 0) :
    resolveFrom (fun _ inode name => .ok (find inode name)) k inode names =
      .ok (names.foldl (resolveStep find) inode) := by
  induction names generalizing k inode with
  | nil => rfl
  | cons name names ih =>
    rw [resolveFrom, except_ok_bind, List.foldl_cons, resolveStep, if_neg hinode]
    split_ifs with hzero
    · rw [hzero, foldl_resolveStep_zero]
    · exact ih (k + 1) hzero

/-- A string is a single component, or its first component ends at a separator. -/
theorem components_cases (str : List Byte) :
    (slash ∉ str ∧ components str = [str]) ∨
      ∃ name rest, str = name ++ slash :: rest ∧ slash ∉ name ∧
        components str = name :: components rest := by
  by_cases h : slash ∈ str
  · obtain ⟨name, rest, rfl, hname⟩ := List.eq_append_cons_of_mem h
    exact .inr ⟨name, rest, rfl, hname, List.splitOn_append_cons_self_of_not_mem hname rest⟩
  · exact .inl ⟨h, List.splitOn_eq_singleton h⟩

/-! ### Lookup -/

/-- **The end of the first component** of a string, which a separator or the NUL follows. -/
theorem componentEnd_spec (hpath : IsCString path (name ++ rest)) (hname : slash ∉ name)
    (hend : path name.length = slash ∨ path name.length = 0) (hj : j ≤ name.length)
    (hfuel : name.length < fuel + j) : componentEnd path fuel j = .ok name.length := by
  induction fuel generalizing j with
  | zero => omega
  | succ fuel ih =>
    rw [componentEnd]
    rcases Nat.eq_or_lt_of_le hj with rfl | hlt
    · exact if_neg fun h => hend.elim h.1 h.2
    · have hbyte : path j = name[j] := by
        rw [hpath.apply (by rw [List.length_append]; omega), List.getElem_append_left hlt]
      have hslash : path j ≠ slash := fun h => hname (h ▸ hbyte ▸ List.getElem_mem hlt)
      rw [if_pos ⟨hslash, hpath.apply_ne_zero (by rw [List.length_append]; omega)⟩]
      exact ih hlt (by omega)

/-- The inner loop ends at a separator or a NUL. -/
theorem apply_of_componentEnd {n : ℕ} (h : componentEnd path fuel j = .ok n) :
    path n = slash ∨ path n = 0 := by
  induction fuel generalizing j with
  | zero => cases h
  | succ fuel ih =>
    rw [componentEnd] at h
    split_ifs at h with hnext
    · exact ih h
    · obtain rfl := Except.ok.inj h
      exact or_iff_not_imp_left.mpr fun hslash => not_not.mp fun hnul => hnext ⟨hslash, hnul⟩

section

variable {findInDir : ℕ → ℕ → Memory → Except Stop ℕ} {find : ℕ → ℕ → List Byte → Except Stop ℕ}

/-- Whatever the buffer holds and whatever the lookups do, a loop that returns has put every
separator back. -/
theorem path_of_lookUpLoop {path' : Memory} {r : ℕ}
    (h : lookUpLoop findInDir fuel k path p inode = .ok (r, path')) : path' = path := by
  induction fuel generalizing k p inode with
  | zero => cases h
  | succ fuel ih =>
    obtain ⟨j, hend, h⟩ := except_bind_eq_ok.mp h
    by_cases hlast : path (p + j) = 0
    · rw [if_pos hlast] at h
      obtain ⟨inode', -, h⟩ := except_bind_eq_ok.mp h
      split_ifs at h <;> exact (Prod.mk.inj (Except.ok.inj h)).2.symm
    · have hsep : path (p + j) = slash := (apply_of_componentEnd hend).resolve_right hlast
      have hback : Function.update (Function.update path (p + j) 0) (p + j) slash = path := by
        rw [Function.update_idem, ← hsep, Function.update_eq_self]
      rw [if_neg hlast] at h
      obtain ⟨inode', -, h⟩ := except_bind_eq_ok.mp h
      rw [hback] at h
      split_ifs at h
      · exact (Prod.mk.inj (Except.ok.inj h)).2.symm
      · exact ih h

theorem path_of_ext2LookUpPath {fs : Ext2Fs} {unset : ℕ → ℕ → Unset} {path' : Memory} {r : ℕ}
    (h : ext2LookUpPath fs unset path = .ok (r, path')) : path' = path := by
  rw [ext2LookUpPath, lookUpPathWith] at h
  split_ifs at h
  · exact (Prod.mk.inj (Except.ok.inj h)).2.symm
  · exact path_of_lookUpLoop h

/-- **The loop of `ext2_look_up_path`** looks up the components behind its pointer one by one, and
puts every separator back. -/
theorem lookUpLoop_spec
    (hfind : ∀ k inode m name, IsCString m name → findInDir k inode m = find k inode name)
    (hpath : IsCString (fun i => path (p + i)) str) (hlen : str.length < 2 ^ 32)
    (hfuel : str.length < fuel) :
    lookUpLoop findInDir fuel k path p inode =
      (resolveFrom find k inode (components str)).map (·, path) := by
  induction fuel generalizing k p str inode with
  | zero => omega
  | succ fuel ih =>
    rw [lookUpLoop]
    rcases components_cases str with ⟨hlast, hcomponents⟩ | ⟨name, rest, rfl, hname, hcomponents⟩
    · have hpath' : IsCString (fun i => path (p + i)) (str ++ []) := by rwa [List.append_nil]
      have hend : componentEnd (fun i => path (p + i)) (2 ^ 32) 0 = .ok str.length :=
        componentEnd_spec hpath' hlast (.inr hpath.nul) (Nat.zero_le _) (by omega)
      rw [hend, except_ok_bind, if_pos hpath.nul, hfind _ _ _ _ hpath, hcomponents, resolveFrom]
      cases find k inode str with
      | error e => rfl
      | ok inode' =>
        rw [except_ok_bind, except_ok_bind]
        split_ifs <;> rfl
    · have hsep : path (p + name.length) = slash := by
        have := hpath.apply (i := name.length) (by simp)
        simpa using this
      have hend : componentEnd (fun i => path (p + i)) (2 ^ 32) 0 = .ok name.length :=
        componentEnd_spec hpath hname (.inl hsep) (Nat.zero_le _)
          (by rw [List.length_append] at hlen; omega)
      -- The lookup runs on the component cut off by a NUL; then the separator is put back.
      have hcut : IsCString (fun i => Function.update path (p + name.length) 0 (p + i)) name := by
        refine hpath.truncate.congr fun i _ => ?_
        rcases eq_or_ne i name.length with rfl | hne
        · rw [Function.update_self, Function.update_self]
        · rw [Function.update_of_ne (by omega), Function.update_of_ne hne]
      have hback :
          Function.update (Function.update path (p + name.length) 0) (p + name.length) slash =
          path := by
        rw [Function.update_idem, ← hsep, Function.update_eq_self]
      have hrest : IsCString (fun i => path (p + (name.length + 1) + i)) rest := by
        have hsplit : name ++ slash :: rest = (name ++ [slash]) ++ rest := by simp
        rw [hsplit] at hpath
        refine hpath.drop.congr fun i _ => ?_
        rw [List.length_append, List.length_singleton, Nat.add_assoc]
      rw [List.length_append, List.length_cons] at hlen hfuel
      rw [hend, except_ok_bind, if_neg (by rw [hsep]; decide)]
      dsimp only
      rw [hfind _ _ _ _ hcut, hback, hcomponents, resolveFrom]
      cases find k inode name with
      | error e => rfl
      | ok inode' =>
        rw [except_ok_bind, except_ok_bind]
        split_ifs with hzero
        · rfl
        · exact ih hrest (by omega) (by omega)

/-- Path lookup is the lookup of the components one by one, and leaves the path as it was. -/
theorem lookUpPathWith_spec
    (hfind : ∀ k inode m name, IsCString m name → findInDir k inode m = find k inode name)
    (hpath : IsCString path str) (hlen : str.length < 2 ^ 32) :
    lookUpPathWith findInDir path =
      (if str.head? = some slash then resolveFrom find 0 rootInodeNum (components str.tail)
        else .ok 0).map (·, path) := by
  rw [lookUpPathWith]
  cases str with
  | nil =>
    have hnul : path 0 = 0 := hpath.nul
    rw [if_pos (by rw [hnul]; decide)]
    rfl
  | cons c str =>
    have hfirst : path 0 = c := hpath.apply (i := 0) (by simp)
    rw [hfirst, List.head?_cons]
    by_cases hc : c = slash
    · have hrest : IsCString (fun i => path (1 + i)) str := IsCString.drop (s := [c]) hpath
      rw [List.length_cons] at hlen
      rw [if_neg (not_not.mpr hc), if_pos (by rw [hc]), List.tail_cons]
      exact lookUpLoop_spec hfind hrest (by omega) (by omega)
    · rw [if_pos hc, if_neg fun h => hc (Option.some.inj h)]
      rfl

end

/-- **Path lookup is the fold of the lookup in a directory, and leaves the path as it was**, for
every string and every lookup that is a function of the directory and the name. -/
theorem lookUpPathWith_eq {findInDir : ℕ → ℕ → Memory → Except Stop ℕ} {find : ℕ → List Byte → ℕ}
    (hfind : ∀ k inode m name, IsCString m name → findInDir k inode m = .ok (find inode name))
    (hpath : IsCString path str) (hlen : str.length < 2 ^ 32) :
    lookUpPathWith findInDir path = .ok (resolve find str, path) := by
  rw [lookUpPathWith_spec hfind hpath hlen, resolve]
  split_ifs
  · rw [resolveFrom_eq_foldl find _ 0 (by decide)]
    rfl
  · rfl

/-! ### A small tree -/

/-- The directory entries `a` in the root, inode 11, and `b` in inode 11, inode 12. -/
def sampleFind (inode : ℕ) (name : List Byte) : ℕ :=
  if inode = 2 ∧ name = [97] then 11 else if inode = 11 ∧ name = [98] then 12 else 0

/-- The same lookup on the name in a buffer. -/
def sampleFindInDir (_k inode : ℕ) (m : Memory) : Except Stop ℕ :=
  .ok (if inode = 2 ∧ m 0 = 97 ∧ m 1 = 0 then 11
    else if inode = 11 ∧ m 0 = 98 ∧ m 1 = 0 then 12 else 0)

theorem isCString_singleton {m : Memory} {c : Byte} (hc : c ≠ 0) :
    IsCString m [c] ↔ m 0 = c ∧ m 1 = 0 := by
  refine ⟨fun h => ⟨h.apply (i := 0) (by simp), h.nul⟩, fun h => ⟨?_, ?_, h.2⟩⟩
  · simpa using hc
  · simp [readBytes, h.1]

/-- The path `/a/b` is looked up, and a path through the missing `/b` is not found. -/
theorem lookUpPathWith_eq_sample :
    lookUpPathWith sampleFindInDir (bufferOf [47, 97, 47, 98]) =
        .ok (12, bufferOf [47, 97, 47, 98]) ∧
      lookUpPathWith sampleFindInDir (bufferOf [47, 98, 47, 98]) =
        .ok (0, bufferOf [47, 98, 47, 98]) := by
  have hfind : ∀ k inode m name, IsCString m name →
      sampleFindInDir k inode m = .ok (sampleFind inode name) := by
    intro k inode m name hname
    have hsame : ∀ c : Byte, c ≠ 0 → (m 0 = c ∧ m 1 = 0 ↔ name = [c]) := fun c hc => by
      rw [← isCString_singleton hc]
      exact ⟨hname.unique, fun h => h ▸ hname⟩
    rw [sampleFindInDir, sampleFind]
    simp only [hsame 97 (by decide), hsame 98 (by decide)]
  exact ⟨lookUpPathWith_eq hfind (isCString_bufferOf _ (by decide)) (by decide),
    lookUpPathWith_eq hfind (isCString_bufferOf _ (by decide)) (by decide)⟩

end Studix.Ext2
