import Studix.Fs.Ext2Find

/-!
# Walks through the directory tree

A path lookup on an arbitrary disk goes from inode to inode by the entries that `ext2_next_dirent`
reads from each. It never looks at the type of an inode, so the bytes of a regular file take part in
a walk like those of a directory. A path that leads through such a file is not found exactly when
the bytes of the file, or of a file the rest of the path leads to, end without a live entry for the
next component.

## Main definitions

* `nthDirent`: the calls of `ext2_next_dirent` that a lookup makes.
* `HasEntry`, `LacksEntry`: the first entry with a name, read from the file of an inode.
* `LeadsTo`, `DeadEnd`: what a list of components leads to.
* `StopsAtFiles`: no path is found through a file that is not a directory.

## Main results

* `ext2FindInDir_iff`: the lookup of a name, on any disk.
* `ext2LookUpPath_spec`, `resolveFrom_eq_zero_iff`: the lookup of a path, on any disk.
* `stopsAtFiles_iff`: the disks and paths for which walks stop at files that are not directories.
-/

namespace Studix.Ext2

/-- `S_IFDIR`. -/
def sIfdir : ℕ := 0x4000

/-- The type of an inode, the top hex digit of `type_and_permissions`, is `S_IFDIR`. -/
def Ext2Inode.IsDir (inode : Ext2Inode) : Prop := inode.typeAndPermissions &&& 0xF000 = sIfdir

/-- The `i`-th of the calls of `ext2_next_dirent` on a file, the first of which meets the unset
memory `unset k`. -/
def nthDirent (fs : Ext2Fs) (unset : ℕ → Unset) (k : ℕ) (dir : Ext2File) :
    ℕ → Except Stop (Option Ext2Dirent × Ext2File)
  | 0 => ext2NextDirent fs (unset k).stack (unset k).fresh dir
  | i + 1 => do
    let (_, dir) ← ext2NextDirent fs (unset k).stack (unset k).fresh dir
    nthDirent fs unset (k + 1) dir i

/-- The first `i` calls return entries with other names. -/
def PassesOver (fs : Ext2Fs) (unset : ℕ → Unset) (k : ℕ) (dir : Ext2File) (name : List Byte)
    (i : ℕ) : Prop :=
  ∀ j < i, ∃ dirent dir', nthDirent fs unset k dir j = .ok (some dirent, dir') ∧
    ¬IsCString dirent.name name

/-- The `i`-th call returns the entry with the name and the inode number. -/
def ReturnsEntry (fs : Ext2Fs) (unset : ℕ → Unset) (k : ℕ) (dir : Ext2File) (name : List Byte)
    (i num : ℕ) : Prop :=
  ∃ dirent dir', nthDirent fs unset k dir i = .ok (some dirent, dir') ∧
    IsCString dirent.name name ∧ dirent.inodeNum = num

/-- The `i`-th call returns no entry. -/
def ReturnsNone (fs : Ext2Fs) (unset : ℕ → Unset) (k : ℕ) (dir : Ext2File) (i : ℕ) : Prop :=
  ∃ dir', nthDirent fs unset k dir i = .ok (none, dir')

/-- The first entry with the name that is read from the file `inode` has the inode number `num`. -/
def HasEntry (fs : Ext2Fs) (unset : ℕ → Unset) (inode : ℕ) (name : List Byte) (num : ℕ) : Prop :=
  ∃ dir, ext2OpenInode fs (unset 0).stack (unset 0).fresh inode = .ok dir ∧
    ∃ i < 2 ^ 32, PassesOver fs unset 1 dir name i ∧ ReturnsEntry fs unset 1 dir name i num

/-- The entries that are read from the file `inode` end, and none has the name. -/
def LacksEntry (fs : Ext2Fs) (unset : ℕ → Unset) (inode : ℕ) (name : List Byte) : Prop :=
  ∃ dir, ext2OpenInode fs (unset 0).stack (unset 0).fresh inode = .ok dir ∧
    ∃ i < 2 ^ 32, PassesOver fs unset 1 dir name i ∧ ReturnsNone fs unset 1 dir i

/-- The components lead from one inode to another, through entries with inode numbers that are not
0. The first lookup is the `k`-th. -/
inductive LeadsTo (fs : Ext2Fs) (unset : ℕ → ℕ → Unset) :
    ℕ → ℕ → List (List Byte) → ℕ → Prop
  | nil (k inode : ℕ) : LeadsTo fs unset k inode [] inode
  | cons {k inode next last : ℕ} {name : List Byte} {names : List (List Byte)}
      (hentry : HasEntry fs (unset k) inode name next) (hne : next ≠ 0)
      (hrest : LeadsTo fs unset (k + 1) next names last) :
      LeadsTo fs unset k inode (name :: names) last

/-- The components lead to a file whose bytes end without a live entry for the next of them. -/
def DeadEnd (fs : Ext2Fs) (unset : ℕ → ℕ → Unset) (k inode : ℕ) (names : List (List Byte)) : Prop :=
  ∃ front name back last, names = front ++ name :: back ∧ LeadsTo fs unset k inode front last ∧
    (LacksEntry fs (unset (k + front.length)) last name ∨
      HasEntry fs (unset (k + front.length)) last name 0)

/-- A lookup returns 0 where a component that is not the last leads to an inode that is not a
directory. -/
def StopsAtFiles (fs : Ext2Fs) (unset : ℕ → ℕ → Unset) (path : Memory) (rest : List Byte) : Prop :=
  ∀ front back last inode, components rest = front ++ back → front ≠ [] → back ≠ [] →
    LeadsTo fs unset 0 rootInodeNum front last →
    readInode fs (unset front.length 0).stack last = .ok inode → ¬inode.IsDir →
    ext2LookUpPath fs unset path = .ok (0, path)

/-- Where a component that is not the last leads to an inode that is not a directory, the rest of
the path comes to a dead end. -/
def FilesAreDeadEnds (fs : Ext2Fs) (unset : ℕ → ℕ → Unset) (rest : List Byte) : Prop :=
  ∀ front back last inode, components rest = front ++ back → front ≠ [] → back ≠ [] →
    LeadsTo fs unset 0 rootInodeNum front last →
    readInode fs (unset front.length 0).stack last = .ok inode → ¬inode.IsDir →
    DeadEnd fs unset front.length last back

/-! ### The entries of a file -/

section

variable {fs : Ext2Fs} {unset : ℕ → Unset} {dir dir' : Ext2File} {dirent : Ext2Dirent}
  {stack fresh m : Memory} {name : List Byte} {fuel i k inode r : ℕ}

/-- The name of an entry is a string of at most 255 characters. -/
theorem exists_isCString_name (h : ext2NextDirent fs stack fresh dir = .ok (some dirent, dir')) :
    ∃ stored, IsCString dirent.name stored ∧ stored.length < 2 ^ 8 := by
  obtain ⟨⟨file₁, buf, got₁⟩, -, h⟩ := except_bind_eq_ok.mp h
  dsimp only at h
  by_cases hheader : got₁ ≠ readSize
  · rw [if_pos hheader] at h
    cases h
  rw [if_neg hheader] at h
  obtain ⟨⟨file₂, name, got₂⟩, -, h⟩ := except_bind_eq_ok.mp h
  dsimp only at h
  by_cases hgot : got₂ ≠ (buf 6).toNat + 1 - 1
  · rw [if_pos hgot] at h
    cases h
  rw [if_neg hgot] at h
  have hname : dirent.name = Function.update name ((buf 6).toNat + 1 - 1) 0 := by
    split_ifs at h
    · obtain ⟨⟨file₃, buf₃, got₃⟩, -, h⟩ := except_bind_eq_ok.mp h
      rw [← Option.some.inj (Prod.mk.inj (Except.ok.inj h)).1]
    · rw [← Option.some.inj (Prod.mk.inj (Except.ok.inj h)).1]
  have hlt : (buf 6).toNat < 2 ^ 8 := (buf 6).isLt
  obtain ⟨stored, hstored, hlen⟩ := exists_isCString
    (show dirent.name ((buf 6).toNat + 1 - 1) = 0 by rw [hname, Function.update_self])
  exact ⟨stored, hstored, by omega⟩

/-- The calls behind the first one. -/
theorem nthDirent_succ {next : Option Ext2Dirent × Ext2File}
    (h : ext2NextDirent fs (unset k).stack (unset k).fresh dir = .ok next) (i : ℕ) :
    nthDirent fs unset k dir (i + 1) = nthDirent fs unset (k + 1) next.2 i := by
  rw [nthDirent, h, except_ok_bind]

theorem passesOver_succ
    (h : ext2NextDirent fs (unset k).stack (unset k).fresh dir = .ok (some dirent, dir')) :
    PassesOver fs unset k dir name (i + 1) ↔
      ¬IsCString dirent.name name ∧ PassesOver fs unset (k + 1) dir' name i := by
  refine ⟨fun hpass => ⟨?_, fun j hj => ?_⟩, fun hpass j hj => ?_⟩
  · obtain ⟨dirent', dir'', hcall, hname⟩ := hpass 0 (Nat.succ_pos i)
    obtain rfl := Option.some.inj (Prod.mk.inj (Except.ok.inj (h.symm.trans hcall))).1
    exact hname
  · obtain ⟨dirent', dir'', hcall, hname⟩ := hpass (j + 1) (Nat.succ_lt_succ hj)
    exact ⟨dirent', dir'', (nthDirent_succ h j).symm.trans hcall, hname⟩
  · obtain _ | j := j
    · exact ⟨dirent, dir', h, hpass.1⟩
    · obtain ⟨dirent', dir'', hcall, hname⟩ := hpass.2 j (Nat.lt_of_succ_lt_succ hj)
      exact ⟨dirent', dir'', (nthDirent_succ h j).trans hcall, hname⟩

/-- What a lookup finds behind the first `i` entries. -/
def EndsAt (fs : Ext2Fs) (unset : ℕ → Unset) (k : ℕ) (dir : Ext2File) (name : List Byte) (r i : ℕ) :
    Prop :=
  PassesOver fs unset k dir name i ∧
    (ReturnsEntry fs unset k dir name i r ∨ r = 0 ∧ ReturnsNone fs unset k dir i)

/-- A lookup ends at the first call. -/
theorem endsAt_zero :
    EndsAt fs unset k dir name r 0 ↔
      (∃ dirent dir',
        ext2NextDirent fs (unset k).stack (unset k).fresh dir = .ok (some dirent, dir') ∧
        IsCString dirent.name name ∧ dirent.inodeNum = r) ∨
      r = 0 ∧ ∃ dir', ext2NextDirent fs (unset k).stack (unset k).fresh dir = .ok (none, dir') :=
  and_iff_right fun j hj => absurd hj (Nat.not_lt_zero j)

/-- A lookup ends behind the first call, which returns an entry with another name. -/
theorem endsAt_succ
    (h : ext2NextDirent fs (unset k).stack (unset k).fresh dir = .ok (some dirent, dir')) :
    EndsAt fs unset k dir name r (i + 1) ↔
      ¬IsCString dirent.name name ∧ EndsAt fs unset (k + 1) dir' name r i := by
  rw [EndsAt, passesOver_succ h, ReturnsEntry, ReturnsNone, nthDirent_succ h, and_assoc]
  rfl

/-- **The loop of `ext2_find_in_dir`** returns the number of the first entry with the name, or 0 at
the end of the entries. -/
theorem findLoop_iff (hm : IsCString m name) :
    findLoop fs unset m fuel k dir = .ok r ↔ ∃ i < fuel, EndsAt fs unset k dir name r i := by
  induction fuel generalizing k dir with
  | zero =>
    refine iff_of_false (by rintro ⟨⟩) ?_
    rintro ⟨i, hi, -⟩
    exact absurd hi (Nat.not_lt_zero i)
  | succ fuel ih =>
    rw [findLoop]
    rcases hnext : ext2NextDirent fs (unset k).stack (unset k).fresh dir with e | ⟨_ | dirent, dir'⟩
    · -- A stop is no result, of the loop or of any call.
      refine iff_of_false (by rintro ⟨⟩) ?_
      rintro ⟨_ | i, -, hpass, h⟩
      · rcases h with ⟨dirent, dir', hcall, -⟩ | ⟨-, dir', hcall⟩ <;>
          cases hnext.symm.trans hcall
      · obtain ⟨dirent, dir', hcall, -⟩ := hpass 0 (Nat.succ_pos i)
        cases hnext.symm.trans hcall
    · rw [except_ok_bind]
      refine ⟨fun h => ⟨0, Nat.succ_pos fuel, endsAt_zero.mpr (.inr ⟨?_, dir', hnext⟩)⟩, ?_⟩
      · exact (Except.ok.inj h).symm
      · rintro ⟨_ | i, -, h⟩
        · rcases endsAt_zero.mp h with ⟨dirent, dir'', hcall, -⟩ | ⟨rfl, -⟩
          · cases hnext.symm.trans hcall
          · rfl
        · obtain ⟨dirent, dir'', hcall, -⟩ := h.1 0 (Nat.succ_pos i)
          cases hnext.symm.trans hcall
    · obtain ⟨stored, hstored, hlen⟩ := exists_isCString_name hnext
      obtain ⟨order, hcmp, horder⟩ := strcmp_eq_zero_iff hstored hm (by omega)
      have hname : order = 0 ↔ IsCString dirent.name name :=
        horder.trans ⟨fun h => h ▸ hstored, fun h => hstored.unique h⟩
      rw [except_ok_bind]
      dsimp only
      rw [hcmp, except_ok_bind]
      split_ifs with hzero
      · refine ⟨fun h => ⟨0, Nat.succ_pos fuel, endsAt_zero.mpr
          (.inl ⟨dirent, dir', hnext, hname.mp hzero, Except.ok.inj h⟩)⟩, ?_⟩
        rintro ⟨_ | i, -, h⟩
        · rcases endsAt_zero.mp h with ⟨dirent', dir'', hcall, -, rfl⟩ | ⟨-, dir'', hcall⟩
          · obtain rfl := Option.some.inj (Prod.mk.inj (Except.ok.inj (hnext.symm.trans hcall))).1
            rfl
          · cases hnext.symm.trans hcall
        · exact absurd (hname.mp hzero) ((endsAt_succ hnext).mp h).1
      · have hsame : ¬IsCString dirent.name name := hname.not.mp hzero
        rw [ih]
        constructor
        · rintro ⟨i, hi, h⟩
          exact ⟨i + 1, Nat.succ_lt_succ hi, (endsAt_succ hnext).mpr ⟨hsame, h⟩⟩
        · rintro ⟨_ | i, hi, h⟩
          · rcases endsAt_zero.mp h with ⟨dirent', dir'', hcall, hname', -⟩ | ⟨-, dir'', hcall⟩
            · obtain rfl := Option.some.inj (Prod.mk.inj (Except.ok.inj (hnext.symm.trans hcall))).1
              exact absurd hname' hsame
            · cases hnext.symm.trans hcall
          · exact ⟨i, Nat.lt_of_succ_lt_succ hi, ((endsAt_succ hnext).mp h).2⟩

/-- **The lookup of a name, on any disk**: the number of the first entry with the name, or 0 where
the entries end without one. -/
theorem ext2FindInDir_iff (hm : IsCString m name) :
    ext2FindInDir fs unset inode m = .ok r ↔
      HasEntry fs unset inode name r ∨ r = 0 ∧ LacksEntry fs unset inode name := by
  rw [ext2FindInDir, except_bind_eq_ok]
  simp only [findLoop_iff hm, EndsAt]
  constructor
  · rintro ⟨dir, hopen, i, hi, hpass, hentry | ⟨hzero, hnone⟩⟩
    · exact .inl ⟨dir, hopen, i, hi, hpass, hentry⟩
    · exact .inr ⟨hzero, dir, hopen, i, hi, hpass, hnone⟩
  · rintro (⟨dir, hopen, i, hi, hpass, hentry⟩ | ⟨hzero, dir, hopen, i, hi, hpass, hnone⟩)
    · exact ⟨dir, hopen, i, hi, hpass, .inl hentry⟩
    · exact ⟨dir, hopen, i, hi, hpass, .inr ⟨hzero, hnone⟩⟩

/-- A lookup depends on its buffer only by the name in it. -/
theorem ext2FindInDir_congr {m' : Memory} (hm : IsCString m name) (hm' : IsCString m' name) :
    ext2FindInDir fs unset inode m = ext2FindInDir fs unset inode m' := by
  have hloop : ∀ fuel k dir, findLoop fs unset m fuel k dir = findLoop fs unset m' fuel k dir := by
    intro fuel
    induction fuel with
    | zero => exact fun _ _ => rfl
    | succ fuel ih =>
      intro k dir
      simp only [findLoop, ih, strcmp_congr hm hm']
  simp only [ext2FindInDir, hloop]

end

/-! ### Walks -/

section

variable {fs : Ext2Fs} {unset : ℕ → ℕ → Unset} {path : Memory} {rest : List Byte}
  {front back names : List (List Byte)} {k inode last : ℕ}

/-- The lookup of a name that a buffer holds. -/
def findName (fs : Ext2Fs) (unset : ℕ → ℕ → Unset) (k inode : ℕ) (name : List Byte) :
    Except Stop ℕ :=
  ext2FindInDir fs (unset k) inode (bufferOf name)

/-- **The lookup of an absolute path** looks its components up one by one, on any disk. -/
theorem ext2LookUpPath_spec (hpath : IsCString path (slash :: rest))
    (hlen : rest.length + 1 < 2 ^ 32) :
    ext2LookUpPath fs unset path =
      (resolveFrom (findName fs unset) 0 rootInodeNum (components rest)).map (·, path) := by
  have hfind : ∀ k inode m name, IsCString m name →
      ext2FindInDir fs (unset k) inode m = findName fs unset k inode name :=
    fun k inode m name hm =>
      ext2FindInDir_congr hm (isCString_bufferOf name fun h => hm.ne_zero 0 h rfl)
  rw [ext2LookUpPath, lookUpPathWith_spec hfind hpath hlen]
  rfl

/-- The components of a string have no NUL where the string has none. -/
theorem not_mem_components {str : List Byte} (hstr : (0 : Byte) ∉ str) :
    ∀ name ∈ components str, (0 : Byte) ∉ name := by
  induction hn : str.length using Nat.strong_induction_on generalizing str with
  | _ n ih =>
    rcases components_cases str with ⟨-, hcomponents⟩ | ⟨first, rest, rfl, -, hcomponents⟩
    · rw [hcomponents]
      simpa using hstr
    · rw [List.mem_append, List.mem_cons, not_or, not_or] at hstr
      rw [List.length_append, List.length_cons] at hn
      rw [hcomponents, List.forall_mem_cons]
      exact ⟨hstr.1, ih rest.length (by omega) hstr.2.2 rfl⟩

/-- Components do not lead to the number 0. -/
theorem LeadsTo.ne_zero (h : LeadsTo fs unset k inode names last) (hinode : inode ≠ 0) :
    last ≠ 0 := by
  induction h with
  | nil => exact hinode
  | cons _ hne _ ih => exact ih hne

/-- A walk along components whose lookups were done. -/
theorem resolveFrom_append (hfront : LeadsTo fs unset k inode front last)
    (hnul : ∀ name ∈ front, (0 : Byte) ∉ name) :
    resolveFrom (findName fs unset) k inode (front ++ back) =
      resolveFrom (findName fs unset) (k + front.length) last back := by
  induction hfront with
  | nil => rfl
  | @cons k inode next last name names hentry hne hrest ih =>
    rw [List.forall_mem_cons] at hnul
    have hfind : findName fs unset k inode name = .ok next :=
      (ext2FindInDir_iff (isCString_bufferOf name hnul.1)).mpr (.inl hentry)
    rw [List.cons_append, resolveFrom, hfind, except_ok_bind, if_neg hne, ih hnul.2,
      List.length_cons, Nat.add_assoc, Nat.add_comm 1]

/-- Components lead to one inode. -/
theorem LeadsTo.unique {last' : ℕ} (h : LeadsTo fs unset k inode names last)
    (h' : LeadsTo fs unset k inode names last') (hnul : ∀ name ∈ names, (0 : Byte) ∉ name) :
    last = last' := by
  have hwalk : resolveFrom (findName fs unset) k inode (names ++ []) = .ok last :=
    resolveFrom_append h hnul
  have hwalk' : resolveFrom (findName fs unset) k inode (names ++ []) = .ok last' :=
    resolveFrom_append h' hnul
  exact Except.ok.inj (hwalk.symm.trans hwalk')

/-- **A path is not found exactly where it comes to a dead end.** -/
theorem resolveFrom_eq_zero_iff (hnul : ∀ name ∈ names, (0 : Byte) ∉ name) (hinode : inode ≠ 0) :
    resolveFrom (findName fs unset) k inode names = .ok 0 ↔ DeadEnd fs unset k inode names := by
  induction names generalizing k inode with
  | nil =>
    refine ⟨fun h => absurd (Except.ok.inj h) hinode, ?_⟩
    rintro ⟨front, name, back, last, hsplit, -⟩
    simp at hsplit
  | cons name names ih =>
    rw [List.forall_mem_cons] at hnul
    have hfind : ∀ r, ext2FindInDir fs (unset k) inode (bufferOf name) = .ok r ↔
        HasEntry fs (unset k) inode name r ∨ r = 0 ∧ LacksEntry fs (unset k) inode name :=
      fun r => ext2FindInDir_iff (isCString_bufferOf name hnul.1)
    rw [resolveFrom, except_bind_eq_ok]
    constructor
    · rintro ⟨next, hcall, h⟩
      split_ifs at h with hzero
      · subst hzero
        refine ⟨[], name, names, inode, rfl, .nil k inode, ?_⟩
        exact ((hfind 0).mp hcall).elim .inr fun h => .inl h.2
      · have hentry := ((hfind next).mp hcall).resolve_right fun h => hzero h.1
        obtain ⟨front, name', back, last, rfl, hlead, hend⟩ := (ih hnul.2 hzero).mp h
        refine ⟨name :: front, name', back, last, rfl, .cons hentry hzero hlead, ?_⟩
        rwa [List.length_cons, Nat.add_comm front.length, ← Nat.add_assoc]
    · rintro ⟨front, name', back, last, hsplit, hlead, hend⟩
      cases hlead with
      | nil =>
        obtain ⟨rfl, rfl⟩ := List.cons.inj hsplit
        refine ⟨0, (hfind 0).mpr (hend.elim (fun h => .inr ⟨rfl, h⟩) .inl), if_pos rfl⟩
      | @cons _ _ next _ _ front hentry hne hrest =>
        obtain ⟨rfl, rfl⟩ := List.cons.inj hsplit
        refine ⟨next, (hfind next).mpr (.inl hentry), ?_⟩
        rw [if_neg hne]
        refine (ih hnul.2 hne).mpr ⟨front, name', back, last, rfl, hrest, ?_⟩
        rwa [List.length_cons, Nat.add_comm front.length, ← Nat.add_assoc] at hend

/-- **The walks that stop at files that are not directories**: those whose path, where it leads
through such a file, comes to a dead end behind it. -/
theorem stopsAtFiles_iff (hpath : IsCString path (slash :: rest))
    (hlen : rest.length + 1 < 2 ^ 32) :
    StopsAtFiles fs unset path rest ↔ FilesAreDeadEnds fs unset rest := by
  have hnul : ∀ name ∈ components rest, (0 : Byte) ∉ name :=
    not_mem_components fun h => hpath.ne_zero 0 (List.mem_cons_of_mem _ h) rfl
  refine forall_congr' fun front => forall_congr' fun back => forall_congr' fun last =>
    forall_congr' fun inode => imp_congr_right fun hsplit => imp_congr_right fun hne =>
    imp_congr_right fun _ => imp_congr_right fun hlead => imp_congr_right fun _ =>
    imp_congr_right fun _ => ?_
  rw [hsplit, List.forall_mem_append] at hnul
  have hlast : last ≠ 0 := hlead.ne_zero (by decide)
  rw [ext2LookUpPath_spec hpath hlen, hsplit, resolveFrom_append hlead hnul.1, Nat.zero_add,
    ← resolveFrom_eq_zero_iff hnul.2 hlast]
  cases resolveFrom (findName fs unset) front.length last back with
  | error e => exact ⟨fun h => (nomatch h), fun h => (nomatch h)⟩
  | ok r =>
    refine ⟨fun h => ?_, fun h => ?_⟩
    · rw [(Prod.mk.inj (Except.ok.inj h)).1]
    · rw [Except.ok.inj h]
      rfl

end

/-! ### A regular file with the bytes of a directory -/

/-- The record of the file `a`, inode 12. -/
def recordA : DirRecord := ⟨12, 1, [97], [0, 0, 0], by decide, by decide⟩

/-- The record of a file `b`, inode 13. -/
def recordB : DirRecord := ⟨13, 1, [98], [0, 0, 0], nameB_lt, recordB_lt⟩

/-- A filesystem whose root directory has the entry `a`, a regular file of twelve bytes. These are
the bytes of a directory with the entry `b`. -/
def craftedFs : Ext2Fs :=
  { sampleFs with
    disk := fun lba o =>
      if lba = 10 then if o = 129 then 0x41 else if o = 132 then 12 else if o = 168 then 10 else 0
      else if lba = 12 then
        if o = 385 then 0x81 else if o = 388 then 12 else if o = 424 then 11 else 0
      else if lba = 20 then recordA.encode.getD o 0
      else if lba = 22 then recordB.encode.getD o 0
      else 0 }

/-- The lookups of `a` in the root, and of `b` and `c` in the file. -/
theorem crafted_lookups :
    ext2FindInDir craftedFs zeroUnset 2 (bufferOf [97]) = .ok 12 ∧
      ext2FindInDir craftedFs zeroUnset 12 (bufferOf [98]) = .ok 13 ∧
      ext2FindInDir craftedFs zeroUnset 12 (bufferOf [99]) = .ok 0 := by
  have hroot : ext2FindInDir craftedFs zeroUnset 2 (bufferOf [97]) =
      .ok (firstNamed [recordA] [97]) :=
    ext2FindInDir_of_exists rfl ⟨_, rfl, by decide +kernel, by decide +kernel, by decide +kernel⟩
      (by decide) (isCString_bufferOf _ (by decide))
  have hfile : ∀ c : Byte, c ≠ 0 → ext2FindInDir craftedFs zeroUnset 12 (bufferOf [c]) =
      .ok (firstNamed [recordB] [c]) := fun c hc =>
    ext2FindInDir_of_exists rfl ⟨_, rfl, by decide +kernel, by decide +kernel, by decide +kernel⟩
      (by decide) (isCString_bufferOf [c] (by simpa using hc.symm))
  exact ⟨hroot, hfile 98 (by decide), hfile 99 (by decide)⟩

/-- The inode of `a` is that of a regular file. -/
theorem crafted_file : ∃ inode, readInode craftedFs (zeroUnset 0).stack 12 = .ok inode ∧
    inode.typeAndPermissions = 0x8100 ∧ ¬inode.IsDir :=
  ⟨_, rfl, by decide +kernel, by rw [Ext2Inode.IsDir]; decide +kernel⟩

/-- The name `a` leads to it. -/
theorem crafted_leadsTo : LeadsTo craftedFs (fun _ => zeroUnset) 0 rootInodeNum [[97]] 12 := by
  have hentry : HasEntry craftedFs zeroUnset rootInodeNum [97] 12 :=
    ((ext2FindInDir_iff (isCString_bufferOf [97] (by decide))).mp crafted_lookups.1).resolve_right
      fun h => absurd h.1 (by decide)
  exact .cons hentry (by decide) (.nil 1 12)

/-- The walk along `/a/c` leads to the file and stops there, for no entry in its bytes has the
name. -/
theorem stopsAtFiles_iff_crafted :
    (∃ inode, readInode craftedFs (zeroUnset 0).stack 12 = .ok inode ∧ ¬inode.IsDir) ∧
    LeadsTo craftedFs (fun _ => zeroUnset) 0 rootInodeNum [[97]] 12 ∧
    StopsAtFiles craftedFs (fun _ => zeroUnset) (bufferOf [47, 97, 47, 99]) [97, 47, 99] := by
  obtain ⟨inode, hinode, -, hfile⟩ := crafted_file
  have hpath : IsCString (bufferOf [47, 97, 47, 99]) [47, 97, 47, 99] :=
    isCString_bufferOf _ (by decide)
  refine ⟨⟨inode, hinode, hfile⟩, crafted_leadsTo, (stopsAtFiles_iff hpath (by decide)).mpr ?_⟩
  intro front back last _ hsplit hfront hback hlead _ _
  have hcomponents : components [97, 47, 99] = [[97], [99]] := by decide
  obtain ⟨rfl, rfl⟩ : front = [[97]] ∧ back = [[99]] := by
    rw [hcomponents] at hsplit
    obtain ⟨name, front, rfl⟩ := List.exists_cons_of_ne_nil hfront
    obtain ⟨rfl, hrest⟩ := List.cons.inj hsplit
    rcases List.singleton_eq_append_iff.mp hrest with ⟨rfl, rfl⟩ | ⟨-, rfl⟩
    · exact ⟨rfl, rfl⟩
    · exact absurd rfl hback
  have hlast : last = 12 := hlead.unique crafted_leadsTo (by decide)
  rw [hlast]
  exact (resolveFrom_eq_zero_iff (by decide) (by decide)).mp (by
    rw [resolveFrom, findName, crafted_lookups.2.2]
    rfl)

/-- The path `/a/b` is found through the regular file. -/
theorem path_found_through_file :
    (∃ inode, readInode craftedFs (zeroUnset 0).stack 12 = .ok inode ∧
      inode.typeAndPermissions = 0x8100 ∧ ¬inode.IsDir) ∧
    LeadsTo craftedFs (fun _ => zeroUnset) 0 rootInodeNum [[97]] 12 ∧
    ext2LookUpPath craftedFs (fun _ => zeroUnset) (bufferOf [47, 97, 47, 98]) =
      .ok (13, bufferOf [47, 97, 47, 98]) ∧
    ¬StopsAtFiles craftedFs (fun _ => zeroUnset) (bufferOf [47, 97, 47, 98]) [97, 47, 98] := by
  obtain ⟨hfirst, hsecond, -⟩ := crafted_lookups
  have hpath : ext2LookUpPath craftedFs (fun _ => zeroUnset) (bufferOf [47, 97, 47, 98]) =
      .ok (13, bufferOf [47, 97, 47, 98]) := by
    have hcomponents : components [97, 47, 98] = [[97], [98]] := by decide
    have hfindA : findName craftedFs (fun _ => zeroUnset) 0 rootInodeNum [97] = .ok 12 := hfirst
    have hfindB : findName craftedFs (fun _ => zeroUnset) 1 12 [98] = .ok 13 := hsecond
    rw [ext2LookUpPath_spec (isCString_bufferOf [47, 97, 47, 98] (by decide)) (by decide),
      hcomponents, resolveFrom, hfindA, except_ok_bind, if_neg (by decide), resolveFrom, hfindB,
      except_ok_bind, if_neg (by decide)]
    rfl
  refine ⟨crafted_file, crafted_leadsTo, hpath, fun h => ?_⟩
  obtain ⟨inode, hinode, -, hdir⟩ := crafted_file
  have hzero := h [[97]] [[98]] 12 inode (by decide) (by decide) (by decide) crafted_leadsTo hinode
    hdir
  exact absurd (Prod.mk.inj (Except.ok.inj (hpath.symm.trans hzero))).1 (by decide)

end Studix.Ext2
