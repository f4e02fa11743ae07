import Studix.Tools.MakeInitrd

/-!
# What a ramdisk image can hold

`write_initrd` takes any number of files of any names. Its table has `MAX_FILES` slots, behind which
the data begins; the header of the next file goes to the beginning of the data. The number of files
is stored in one byte, and a name in a field of `MAX_NAME_LENGTH` bytes. None of the limits is
checked, so a directory that does not meet them is written all the same.

## Main definitions

* `FileWrites`, `writeEntriesWrites`: the loop over a directory with the places it writes to.
* `RefusesOrEncodes`: a directory is refused, or the image holds its files and no two writes
  overlap.
* `Encodable`: the files keep to the limits.

## Main results

* `writeEntriesWrites_map_snd`: the writes are recorded beside the loop.
* `encodes_iff`, `refusesOrEncodes_iff`: the directories that are refused or encoded.
-/

namespace Studix.Initrd

open Vfs

/-! ### The writes -/

/-- The places in the image that the header and the contents of a file are written to. -/
structure FileWrites where
  header : Set ℕ
  data : Set ℕ

/-- The writes of `write_file`. -/
def fileWrites (w : ℕ) (out : OutFile) (start length : ℕ) : FileWrites :=
  ⟨Set.Ico out.pos (out.pos + fileHeaderSize w), Set.Ico start (start + length)⟩

/-- The loop of `write_initrd` with the writes for each file in front of its result. -/
def writeEntriesWrites (w : ℕ) (stack : ℕ → Memory) :
    List HostFile → Writer → Except Writer (List FileWrites × Writer)
  | [], st => .ok ([], st)
  | file :: entries, st =>
    if ¬file.opens then .error st
    else if ¬file.stats ∨ 256 ^ w / 2 ≤ file.data.length then .error st
    else if ¬file.regular then writeEntriesWrites w stack entries st
    else do
      let (writes, st') ← writeEntriesWrites w stack entries
        { out := writeFile w (stack st.numFiles) st.out file st.dataEnd file.data.length
          dataEnd := (st.dataEnd + file.data.length) % 256 ^ w
          numFiles := st.numFiles + 1 }
      .ok (fileWrites w st.out st.dataEnd file.data.length :: writes, st')

/-- The writes are recorded beside what the loop does. -/
theorem writeEntriesWrites_map_snd (w : ℕ) (stack : ℕ → Memory) (entries : List HostFile)
    (st : Writer) :
    (writeEntriesWrites w stack entries st).map Prod.snd = writeEntries w stack entries st := by
  induction entries generalizing st with
  | nil => rfl
  | cons file entries ih =>
    rw [writeEntriesWrites, writeEntries]
    split_ifs
    · rfl
    · rw [← ih]
      rcases writeEntriesWrites w stack entries _ with e | ⟨writes, st'⟩
      · rfl
      · rfl
    · exact ih st
    · rfl

/-- The writes for the files of a directory: none when a call fails. -/
def imageWrites (w : ℕ) (stack : ℕ → Memory) (entries : List HostFile) : List FileWrites :=
  match writeEntriesWrites w stack entries
    ⟨OutFile.creat.lseek 1, 1 + fileHeaderSize w * maxFiles, 0⟩ with
  | .error _ => []
  | .ok (writes, _) => writes

/-! ### Directories that are refused or encoded -/

/-- The image holds the files, each name ends inside its field, and no header was written over the
data of a file or over another header. -/
structure Encodes (w : ℕ) (image : OutFile) (writes : List FileWrites) (files : List HostFile) :
    Prop where
  count_eq : (image.bytes 0).toNat = files.length
  headers_disjoint : writes.Pairwise fun f g => Disjoint f.header g.header
  data_disjoint : ∀ f ∈ writes, ∀ g ∈ writes, Disjoint f.header g.data
  name_end : ∀ j < files.length, ∃ k < maxNameLength, image.bytes (headerAddr w 0 j + k) = 0
  file : ∀ j (hj : j < files.length), FileWritten w image (dataStart w files j) j files[j]

/-- `write_initrd` returns an error, or writes an image that holds the regular files of the
directory. -/
def RefusesOrEncodes (w : ℕ) (stack : ℕ → Memory) (rdDir : Option (List HostFile))
    (created : Bool) : Prop :=
  (writeInitrd w stack rdDir created).1 ≠ 0 ∨ ∃ entries, rdDir = some entries ∧
    Encodes w (writeInitrd w stack rdDir created).2 (imageWrites w stack entries)
      (regularFiles entries)

/-- An entry on which a call of the loop fails. -/
def HostFile.Fails (w : ℕ) (file : HostFile) : Prop :=
  ¬file.opens ∨ ¬file.stats ∨ 256 ^ w / 2 ≤ file.data.length

/-- The files keep to the limits of the format: their number fits the count byte, and the table
unless they are all empty, and each name fits its field. -/
structure Encodable (files : List HostFile) : Prop where
  count_lt : files.length < 2 ^ 8
  fitsTable : FitsTable files
  name_lt : ∀ f ∈ files, f.name.length < maxNameLength

/-- The loop gets to the end of the directory when no call fails. -/
theorem writeEntries_isOk_iff (w : ℕ) (stack : ℕ → Memory) (entries : List HostFile) (st : Writer) :
    (∃ st', writeEntries w stack entries st = .ok st') ↔ ∀ f ∈ entries, ¬f.Fails w := by
  induction entries generalizing st with
  | nil => simp [writeEntries]
  | cons file entries ih =>
    rw [writeEntries, List.forall_mem_cons, HostFile.Fails]
    split_ifs with hopen hstat hregular
    · exact iff_of_false (by rintro ⟨_, ⟨⟩⟩) fun h => h.1 (.inr hstat)
    · rw [ih]
      exact ⟨fun h => ⟨fun hfails => hfails.elim (absurd hopen) hstat, h⟩, And.right⟩
    · rw [ih]
      exact ⟨fun h => ⟨fun hfails => hfails.elim (absurd hopen) hstat, h⟩, And.right⟩
    · exact iff_of_false (by rintro ⟨_, ⟨⟩⟩) fun h => h.1 (.inl hopen)

/-! ### The layout of the writes -/

/-- The writes for file `j` of a list. -/
def fileLayout (w : ℕ) (files : List HostFile) (j : ℕ) : FileWrites :=
  ⟨Set.Ico (headerAddr w 0 j) (headerAddr w 0 (j + 1)),
    Set.Ico (dataStart w files j) (dataStart w files (j + 1))⟩

section

variable {w i : ℕ} {stack : ℕ → Memory} {entries files : List HostFile} {st st' : Writer}
  {writes : List FileWrites} {image : OutFile}

/-- A loop that gets to its end has its writes. -/
theorem exists_writes (h : writeEntries w stack entries st = .ok st') :
    ∃ writes, writeEntriesWrites w stack entries st = .ok (writes, st') := by
  rw [← writeEntriesWrites_map_snd] at h
  cases hrun : writeEntriesWrites w stack entries st with
  | error e => simp [hrun, Except.map] at h
  | ok res =>
    obtain rfl : res.2 = st' := by simpa [hrun, Except.map] using h
    exact ⟨res.1, rfl⟩

/-- **The writes of the loop** are those for the files from the `i`-th on, while the end of the data
does not wrap. -/
theorem writes_eq (hrun : writeEntriesWrites w stack entries st = .ok (writes, st'))
    (hpos : st.out.pos = headerAddr w 0 i) (hend : st.dataEnd = dataStart w files i)
    (hfiles : files.drop i = regularFiles entries) (hlt : st.dataEnd < 256 ^ w)
    (hsize : st'.out.size < 256 ^ w) :
    writes = (List.range' i (regularFiles entries).length).map (fileLayout w files) := by
  induction entries generalizing i st writes with
  | nil =>
    obtain ⟨rfl, -⟩ := Prod.mk.inj (Except.ok.inj hrun)
    rfl
  | cons file entries ih =>
    rw [writeEntriesWrites] at hrun
    split_ifs at hrun with hopen hstat hregular
    · obtain ⟨⟨writes', st''⟩, hrest, hrun⟩ := except_bind_eq_ok.mp hrun
      obtain ⟨rfl, rfl⟩ := Prod.mk.inj (Except.ok.inj hrun)
      have htake : regularFiles (file :: entries) = file :: regularFiles entries := by
        simp [regularFiles, hregular]
      rw [htake] at hfiles ⊢
      have hi : i < files.length := by
        by_contra hle
        rw [List.drop_eq_nil_of_le (by omega)] at hfiles
        exact absurd hfiles (by simp)
      rw [List.drop_eq_getElem_cons hi] at hfiles
      obtain ⟨rfl, hdrop⟩ := List.cons.inj hfiles
      have hrest' := congrArg (Except.map Prod.snd) hrest
      rw [writeEntriesWrites_map_snd] at hrest'
      have hend' := add_lt_of_size_writeFile hlt ((size_le_writeEntries hrest').trans_lt hsize)
      have hsucc := dataStart_succ (w := w) hi
      have hnext : (st.dataEnd + files[i].data.length) % 256 ^ w = dataStart w files (i + 1) := by
        rw [hsucc, ← hend]
        exact Nat.mod_eq_of_lt hend'
      rw [ih hrest (by rw [pos_writeFile, hpos, headerAddr_succ]) hnext hdrop
        (Nat.mod_lt _ (by positivity)), List.length_cons, List.range'_succ,
        List.map_cons, fileLayout, hsucc, headerAddr_succ, fileWrites, hpos, hend]
    · have hskip : regularFiles (file :: entries) = regularFiles entries := by
        simp [regularFiles, hregular]
      rw [hskip] at hfiles ⊢
      exact ih hrun hpos hend hfiles hlt

/-- The writes for the regular files of a directory. -/
theorem imageWrites_eq (htable : 1 + fileHeaderSize w * maxFiles < 256 ^ w)
    (himage : writeInitrd w stack (some entries) true = (0, image)) (hsize : image.size < 256 ^ w) :
    imageWrites w stack entries =
      (List.range (regularFiles entries).length).map (fileLayout w (regularFiles entries)) := by
  obtain ⟨st, hrun, -, hle⟩ := writeInitrd_cases himage
  obtain ⟨writes, hwrites⟩ := exists_writes hrun
  rw [imageWrites, hwrites, List.range_eq_range']
  exact writes_eq hwrites rfl rfl rfl htable (hle.trans_lt hsize)

/-! ### The limits -/

/-- Every header of a table with room for its files, or without data behind it, is apart from the
data. -/
theorem FitsTable.disjoint (h : FitsTable files) (w : ℕ) {j : ℕ} (hi : i < files.length)
    (hj : j < files.length) :
    Disjoint (fileLayout w files i).header (fileLayout w files j).data := by
  rw [fileLayout, fileLayout, Set.Ico_disjoint_Ico]
  rcases h with hlen | hempty
  · have hbelow := headerAddr_le_dataStart w files j (show i + 1 ≤ maxFiles by omega)
    omega
  · have hsucc := dataStart_succ (w := w) hj
    rw [hempty _ (List.getElem_mem hj), List.length_nil] at hsucc
    omega

/-- A header behind the table that is apart from the data leaves room for empty files only. -/
theorem data_eq_nil_of_disjoint
    (hdisjoint : ∀ j < files.length,
      Disjoint (fileLayout w files maxFiles).header (fileLayout w files j).data) :
    ∀ f ∈ files, f.data = [] := by
  have hheader : headerAddr w 0 maxFiles < headerAddr w 0 (maxFiles + 1) := by
    have hsize : 0 < fileHeaderSize w := by
      simp only [fileHeaderSize, maxNameLength]
      omega
    rw [headerAddr_succ]
    omega
  -- The header lies where the data begins, so that each of the files in turn ends there.
  have hstart : ∀ j ≤ files.length, dataStart w files j = headerAddr w 0 maxFiles := by
    intro j hj
    induction j with
    | zero => simp [dataStart, headerAddr]
    | succ j ih =>
      have hdisj := hdisjoint j hj
      rw [fileLayout, fileLayout, Set.Ico_disjoint_Ico] at hdisj
      have hmono := dataStart_mono (w := w) (show j ≤ j + 1 by omega) hj
      have := ih (by omega)
      omega
  intro f hf
  obtain ⟨j, hj, rfl⟩ := List.getElem_of_mem hf
  have hsucc := dataStart_succ (w := w) hj
  rw [hstart _ hj, hstart _ hj.le] at hsucc
  exact List.length_eq_zero_iff.mp (by omega)

/-- **The directories that an image holds** are those whose files keep to the limits. -/
theorem encodes_iff (htable : 1 + fileHeaderSize w * maxFiles < 256 ^ w)
    (himage : writeInitrd w stack (some entries) true = (0, image)) (hsize : image.size < 256 ^ w) :
    Encodes w image (imageWrites w stack entries) (regularFiles entries) ↔
      Encodable (regularFiles entries) := by
  have hwrites := imageWrites_eq htable himage hsize
  constructor
  · intro h
    refine ⟨h.count_eq ▸ (image.bytes 0).isLt, ?_, fun f hf => ?_⟩
    · by_cases hlen : (regularFiles entries).length ≤ maxFiles
      · exact .inl hlen
      · have hdata := h.data_disjoint
        rw [hwrites] at hdata
        simp only [List.forall_mem_map, List.mem_range] at hdata
        exact .inr (data_eq_nil_of_disjoint (hdata maxFiles (by omega)))
    · obtain ⟨j, hj, rfl⟩ := List.getElem_of_mem hf
      obtain ⟨k, hk, hzero⟩ := h.name_end j hj
      by_contra hlong
      exact (h.file j hj).name.apply_ne_zero (show k < _ by omega) hzero
  · rintro ⟨hcount, hfits, hnames⟩
    obtain ⟨-, hbyte, hfile⟩ := written_of_writeInitrd htable himage hcount hfits hnames hsize
    refine ⟨hbyte, ?_, ?_,
      fun j hj => ⟨_, hnames _ (List.getElem_mem hj), (hfile j hj).name.nul⟩, hfile⟩
    · rw [hwrites]
      refine List.pairwise_lt_range.map _ fun i j hij => ?_
      rw [fileLayout, fileLayout, Set.Ico_disjoint_Ico]
      have hbelow := headerAddr_mono w (show i + 1 ≤ j from hij)
      omega
    · rw [hwrites]
      simp only [List.forall_mem_map, List.mem_range]
      exact fun i hi j hj => hfits.disjoint w hi hj

end

/-- **The directories that are refused or encoded.** For a `size_t` whose range holds the table, and
an image within that range, `write_initrd` returns an error or writes an image that holds the
regular files of the directory, without overlapping writes, exactly when the files keep to the
limits of the format or a call of the program fails. -/
theorem refusesOrEncodes_iff {w : ℕ} {stack : ℕ → Memory} {rdDir : Option (List HostFile)}
    {created : Bool} (htable : 1 + fileHeaderSize w * maxFiles < 256 ^ w)
    (hsize : (writeInitrd w stack rdDir created).2.size < 256 ^ w) :
    RefusesOrEncodes w stack rdDir created ↔
      ∀ entries, rdDir = some entries → created = true → (∀ f ∈ entries, ¬f.Fails w) →
        Encodable (regularFiles entries) := by
  rcases rdDir with _ | entries
  · exact iff_of_true (.inl one_ne_zero) fun entries h => by cases h
  by_cases hcreated : created = true
  swap
  · refine iff_of_true (.inl ?_) fun _ _ h => absurd h hcreated
    simp [writeInitrd, hcreated]
  subst hcreated
  by_cases hfails : ∀ f ∈ entries, ¬f.Fails w
  · obtain ⟨st, hrun⟩ := (writeEntries_isOk_iff w stack entries
      ⟨OutFile.creat.lseek 1, 1 + fileHeaderSize w * maxFiles, 0⟩).mpr hfails
    have himage : writeInitrd w stack (some entries) true =
        (0, (writeInitrd w stack (some entries) true).2) := by
      simp [writeInitrd, hrun]
    have hiff := encodes_iff htable himage hsize
    refine ⟨?_, fun h => .inr ⟨entries, rfl, hiff.mpr (h entries rfl rfl hfails)⟩⟩
    rintro (hstatus | ⟨dir, hdir, hencodes⟩) dir' hdir' - -
    · exact absurd (congrArg Prod.fst himage) hstatus
    · obtain rfl := Option.some.inj hdir
      obtain rfl := Option.some.inj hdir'
      exact hiff.mp hencodes
  · have hrun := mt (writeEntries_isOk_iff w stack entries
      ⟨OutFile.creat.lseek 1, 1 + fileHeaderSize w * maxFiles, 0⟩).mp hfails
    refine iff_of_true (.inl ?_) fun _ h _ hok => absurd (Option.some.inj h ▸ hok) hfails
    simp only [writeInitrd, not_true_eq_false, if_false]
    split
    · exact one_ne_zero
    · rename_i st hst
      exact absurd ⟨st, hst⟩ hrun

/-! ### A directory with a file too many -/

/-- The entries `.` and `..` of a directory, and `n` files with the names `a`, `aa`, `aaa`, … that
hold the single byte `b`. -/
def directoryOf (n : ℕ) : List HostFile :=
  ⟨[46], true, true, false, [], by decide, by decide⟩ ::
    ⟨[46, 46], true, true, false, [], by decide, by decide⟩ ::
    (List.range n).map fun i =>
      ⟨List.replicate (i + 1) 97, true, true, true, [98], by simp, by simp [List.mem_replicate]⟩

/-- The directory with two files is encoded. -/
theorem refusesOrEncodes_iff_directoryOf_two :
    (writeInitrd 8 (fun _ _ => 0) (some (directoryOf 2)) true).1 = 0 ∧
      RefusesOrEncodes 8 (fun _ _ => 0) (some (directoryOf 2)) true := by
  have hsize : (writeInitrd 8 (fun _ _ => 0) (some (directoryOf 2)) true).2.size < 256 ^ 8 := by
    decide +kernel
  refine ⟨by decide +kernel, (refusesOrEncodes_iff (by decide) hsize).mpr ?_⟩
  intro entries hentries _ _
  obtain rfl := Option.some.inj hentries
  exact ⟨by decide, .inl (by decide), by decide⟩

/-- With 65 files the image is written all the same, and the last header lies over the data of the
first file. -/
theorem last_header_over_first_file :
    (writeInitrd 8 (fun _ _ => 0) (some (directoryOf 65)) true).1 = 0 ∧
      (regularFiles (directoryOf 65)).head?.map HostFile.data = some [98] ∧
      readBytes (writeInitrd 8 (fun _ _ => 0) (some (directoryOf 65)) true).2.bytes
        (dataStart 8 (regularFiles (directoryOf 65)) 0) 1 = [97] ∧
      ¬RefusesOrEncodes 8 (fun _ _ => 0) (some (directoryOf 65)) true := by
  have hstatus : (writeInitrd 8 (fun _ _ => 0) (some (directoryOf 65)) true).1 = 0 := by
    decide +kernel
  have hbyte : readBytes (writeInitrd 8 (fun _ _ => 0) (some (directoryOf 65)) true).2.bytes
      (dataStart 8 (regularFiles (directoryOf 65)) 0) 1 = [97] := by
    decide +kernel
  have hfirst : ∃ h : 0 < (regularFiles (directoryOf 65)).length,
      (regularFiles (directoryOf 65))[0].data = [98] := ⟨by decide +kernel, by decide +kernel⟩
  refine ⟨hstatus, by decide +kernel, hbyte, ?_⟩
  rintro (h | ⟨entries, hentries, hencodes⟩)
  · exact h hstatus
  · obtain rfl := Option.some.inj hentries
    obtain ⟨hlen, hdata⟩ := hfirst
    have hread := (hencodes.file 0 hlen).data
    rw [hdata] at hread
    exact absurd (hread.symm.trans hbyte) (by decide)

end Studix.Initrd
