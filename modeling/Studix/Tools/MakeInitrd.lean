import Studix.Fs.Initrd

/-!
# Writing a ramdisk image

Model of `tools/make_initrd.c`, the host program that writes a ramdisk image. The output is a POSIX
file: its bytes, which read as zero where nothing was written, its size, and the position of the
descriptor; `lseek`, `read` and `write` transfer in full. `write_file` writes a header at the moving
position of the table, jumps to the moving end of the data, writes the contents and jumps back.

`File_header` has the layout of the host compiler, a function of its `sizeof(size_t)`. The stack
memory of the header is filled only where the program sets it.

## Main definitions

* `OutFile`: the output file.
* `HostFile`: an entry of the source directory.
* `writeFile`, `writeInitrd`.
* `FitsTable`: the table has room for a list of files, or there is no data behind it.
* `Written`: the table and the data of a list of files are in place.

## Main results

* `Written.writeFile`: one file more.
* `written_of_writeInitrd`: the image of a whole directory.
-/

namespace Studix.Initrd

open Vfs

/-! ### The output file -/

/-- A POSIX file opened for writing. -/
structure OutFile where
  /-- The contents, zero where nothing was written. -/
  bytes : Memory
  size : ℕ
  /-- The position of the descriptor. -/
  pos : ℕ

namespace OutFile

/-- `creat`: an empty file. -/
def creat : OutFile := ⟨fun _ => 0, 0, 0⟩

/-- `lseek(fd, pos, SEEK_SET)`. -/
def lseek (out : OutFile) (pos : ℕ) : OutFile := { out with pos }

/-- `write(fd, buf, n)`: the `n` bytes at the position; writing nothing does not extend the file. -/
def write (out : OutFile) (buf : Memory) (n : ℕ) : OutFile where
  bytes := blit out.bytes out.pos n buf
  size := if n = 0 then out.size else max out.size (out.pos + n)
  pos := out.pos + n

end OutFile

/-! ### The program -/

/-- An entry that `readdir` returns, with what the host answers about it: whether it can be opened,
whether `fstat` succeeds, whether it is a regular file, and its contents. Names are not empty and
hold no NUL. -/
structure HostFile where
  name : List Byte
  opens : Bool
  stats : Bool
  regular : Bool
  data : List Byte
  name_ne_nil : name ≠ []
  name_ne_zero : (0 : Byte) ∉ name

/-- The host's `strcpy` to a buffer: the characters and the terminating NUL. -/
def hostStrcpy (dest : Memory) (str : List Byte) : Memory :=
  blit dest 0 (str.length + 1) (bufferOf str)

/-- The local `File_header` of `write_file`; `stack` is what the memory held before. -/
def fileHeader (w : ℕ) (stack : Memory) (name : List Byte) (start length : ℕ) : Memory :=
  storeLE (storeLE (hostStrcpy stack name) maxNameLength w start) (maxNameLength + w) w length

/-- `write_file`. -/
def writeFile (w : ℕ) (stack : Memory) (out : OutFile) (file : HostFile) (start length : ℕ) :
    OutFile :=
  let out := out.write (fileHeader w stack file.name start length) (fileHeaderSize w)
  let returnTo := out.pos
  let out := out.lseek start
  let out := out.write (bufferOf file.data) length
  out.lseek returnTo

/-- The variables of `write_initrd`. -/
structure Writer where
  out : OutFile
  dataEnd : ℕ
  numFiles : ℕ

/-- The loop of `write_initrd` over the directory, as far as it gets when a call fails; `size_t` has
`w` bytes and so has `off_t`, whose range a file's size must not exceed for `fstat` to succeed. -/
def writeEntries (w : ℕ) (stack : ℕ → Memory) : List HostFile → Writer → Except Writer Writer
  | [], st => .ok st
  | file :: entries, st =>
    if ¬file.opens then .error st
    else if ¬file.stats ∨ 256 ^ w / 2 ≤ file.data.length then .error st
    else if ¬file.regular then writeEntries w stack entries st
    else
      writeEntries w stack entries
        { out := writeFile w (stack st.numFiles) st.out file st.dataEnd file.data.length
          dataEnd := (st.dataEnd + file.data.length) % 256 ^ w
          numFiles := st.numFiles + 1 }

/-- `write_initrd`: the exit status and the output file, for the entries of the source directory if
it can be opened, and whether the output file can be created. -/
def writeInitrd (w : ℕ) (stack : ℕ → Memory) (rdDir : Option (List HostFile)) (created : Bool) :
    ℕ × OutFile :=
  match rdDir with
  | none => (1, OutFile.creat)
  | some entries =>
    if ¬created then (1, OutFile.creat)
    else
      match writeEntries w stack entries
        ⟨OutFile.creat.lseek 1, 1 + fileHeaderSize w * maxFiles, 0⟩ with
      | .error st => (1, st.out)
      | .ok st => (0, (st.out.lseek 0).write (fun _ => BitVec.ofNat 8 st.numFiles) 1)

/-- The regular files of a directory. -/
def regularFiles (entries : List HostFile) : List HostFile := entries.filter fun f => f.regular

/-! ### The image -/

/-- The offset of the contents of file `j`: behind the table and the files before it. -/
def dataStart (w : ℕ) (files : List HostFile) (j : ℕ) : ℕ :=
  1 + fileHeaderSize w * maxFiles + ((files.take j).map fun f => f.data.length).sum

/-- The table has a slot for each of the files, or there is no data behind it. -/
def FitsTable (files : List HostFile) : Prop := files.length ≤ maxFiles ∨ ∀ f ∈ files, f.data = []

/-- The header and the contents of file `j` are in place. -/
structure FileWritten (w : ℕ) (out : OutFile) (start j : ℕ) (file : HostFile) : Prop where
  name : IsCString (bufferAt out.bytes (headerAddr w 0 j)) file.name
  start_eq : loadLE out.bytes (headerAddr w 0 j + maxNameLength) w = start
  length_eq : loadLE out.bytes (headerAddr w 0 j + maxNameLength + w) w = file.data.length
  data : readBytes out.bytes start file.data.length = file.data
  header_le : headerAddr w 0 (j + 1) ≤ out.size
  data_le : file.data ≠ [] → start + file.data.length ≤ out.size

/-- The table and the data of `files` are in place, and the writer is behind them. -/
structure Written (w : ℕ) (st : Writer) (files : List HostFile) : Prop where
  pos_eq : st.out.pos = headerAddr w 0 files.length
  numFiles_eq : st.numFiles = files.length
  end_eq : st.dataEnd = dataStart w files files.length
  end_lt : st.dataEnd < 256 ^ w
  file : ∀ j (hj : j < files.length),
    FileWritten w st.out (dataStart w files j) j files[j]

section

variable {w : ℕ} {stack : Memory} {out : OutFile} {file : HostFile} {start length : ℕ}

theorem headerAddr_succ (w j : ℕ) :
    headerAddr w 0 (j + 1) = headerAddr w 0 j + fileHeaderSize w := by
  rw [headerAddr, headerAddr, Nat.mul_succ]
  omega

theorem headerAddr_mono (w : ℕ) {i j : ℕ} (h : i ≤ j) : headerAddr w 0 i ≤ headerAddr w 0 j :=
  Nat.add_le_add_left (Nat.mul_le_mul_left _ h) _

theorem headerAddr_le_dataStart (w : ℕ) (files : List HostFile) {i : ℕ} (j : ℕ) (h : i ≤ maxFiles) :
    headerAddr w 0 i ≤ dataStart w files j := by
  have := headerAddr_mono w h
  rw [headerAddr] at this ⊢
  simp only [dataStart, Nat.zero_add] at *
  rw [headerAddr] at this
  omega

theorem dataStart_succ {files : List HostFile} {j : ℕ} (hj : j < files.length) :
    dataStart w files (j + 1) = dataStart w files j + files[j].data.length := by
  have htake : files.take (j + 1) = files.take j ++ [files[j]] := by simp
  rw [dataStart, dataStart, htake, List.map_append, List.sum_append, List.map_singleton,
    List.sum_singleton]
  omega

theorem dataStart_append {files : List HostFile} {j : ℕ} (hj : j ≤ files.length) :
    dataStart w (files ++ [file]) j = dataStart w files j := by
  rw [dataStart, dataStart, List.take_append_of_le_length hj]

theorem dataStart_mono {files : List HostFile} {i j : ℕ} (hij : i ≤ j) (hj : j ≤ files.length) :
    dataStart w files i ≤ dataStart w files j := by
  induction hij with
  | refl => exact le_rfl
  | step hle ih =>
    rw [dataStart_succ (by omega)]
    exact (ih (by omega)).trans (Nat.le_add_right _ _)

/-! ### One file -/

@[simp] theorem pos_writeFile :
    (writeFile w stack out file start length).pos = out.pos + fileHeaderSize w := rfl

theorem FitsTable.of_append {files files' : List HostFile} (h : FitsTable (files ++ files')) :
    FitsTable files :=
  h.imp (fun hlen => by rw [List.length_append] at hlen; omega)
    fun hempty f hf => hempty f (List.mem_append_left _ hf)

/-- The bytes of the file after `write_file`, when the header lies below the data, if there are
any. -/
theorem bytes_writeFile (x : ℕ) (h : out.pos + fileHeaderSize w ≤ start ∨ length = 0) :
    (writeFile w stack out file start length).bytes x =
      if out.pos ≤ x ∧ x < out.pos + fileHeaderSize w then
        fileHeader w stack file.name start length (x - out.pos)
      else if start ≤ x ∧ x < start + length then bufferOf file.data (x - start)
      else out.bytes x := by
  simp only [writeFile, OutFile.write, OutFile.lseek, blit]
  split_ifs <;> first | rfl | omega

theorem size_le_writeFile : out.size ≤ (writeFile w stack out file start length).size := by
  simp only [writeFile, OutFile.write, OutFile.lseek]
  split_ifs <;> omega

theorem header_le_size_writeFile :
    out.pos + fileHeaderSize w ≤ (writeFile w stack out file start length).size := by
  have hpos : fileHeaderSize w ≠ 0 := by
    simp only [fileHeaderSize, maxNameLength]
    omega
  simp only [writeFile, OutFile.write, OutFile.lseek, if_neg hpos]
  split_ifs <;> omega

theorem data_le_size_writeFile (w : ℕ) (stack : Memory) (out : OutFile) (file : HostFile)
    (start : ℕ) (h : length ≠ 0) :
    start + length ≤ (writeFile w stack out file start length).size := by
  simp only [writeFile, OutFile.write, OutFile.lseek, if_neg h]
  omega

/-- The end of the data does not wrap when the file stays within the range of `size_t`. -/
theorem add_lt_of_size_writeFile (hstart : start < 256 ^ w)
    (hsize : (writeFile w stack out file start length).size < 256 ^ w) :
    start + length < 256 ^ w := by
  by_cases hzero : length = 0
  · rwa [hzero, Nat.add_zero]
  · exact (data_le_size_writeFile w stack out file start hzero).trans_lt hsize

/-- The fields of the header that `write_file` fills. -/
theorem fileHeader_spec (w : ℕ) (stack : Memory) {name : List Byte} (hname : (0 : Byte) ∉ name)
    (hlen : name.length < maxNameLength) (hstart : start < 256 ^ w) (hlength : length < 256 ^ w) :
    IsCString (fileHeader w stack name start length) name ∧
      loadLE (fileHeader w stack name start length) maxNameLength w = start ∧
      loadLE (fileHeader w stack name start length) (maxNameLength + w) w = length := by
  refine ⟨(isCString_bufferOf name hname).congr fun i hi => ?_, ?_, ?_⟩
  · rw [fileHeader, storeLE, blit_apply_of_notMem _ _ (by omega), storeLE,
      blit_apply_of_notMem _ _ (by omega), hostStrcpy, blit_apply_of_mem _ _ (by omega),
      Nat.sub_zero]
  · rw [fileHeader, storeLE, loadLE_blit_of_disjoint _ (by omega), loadLE_storeLE,
      Nat.mod_eq_of_lt hstart]
  · rw [fileHeader, loadLE_storeLE, Nat.mod_eq_of_lt hlength]

/-- A header and contents that a later `write_file` leaves alone are still in place. -/
theorem FileWritten.of_eq {out' : OutFile} {j : ℕ} (h : FileWritten w out start j file)
    (hsize : out.size ≤ out'.size)
    (hheader : ∀ x, headerAddr w 0 j ≤ x → x < headerAddr w 0 (j + 1) →
      out'.bytes x = out.bytes x)
    (hdata : ∀ x, start ≤ x → x < start + file.data.length → out'.bytes x = out.bytes x)
    (hname : file.name.length < maxNameLength) : FileWritten w out' start j file := by
  have hsucc := headerAddr_succ w j
  have hfields : fileHeaderSize w = maxNameLength + 2 * w := rfl
  refine ⟨h.name.congr fun k hk => hheader _ (by omega) (by omega), ?_, ?_, ?_,
    h.header_le.trans hsize, fun hne => (h.data_le hne).trans hsize⟩
  · rw [← h.start_eq]
    exact loadLE_eq_of_bytes fun i hi => hheader _ (by omega) (by omega)
  · rw [← h.length_eq]
    exact loadLE_eq_of_bytes fun i hi => hheader _ (by omega) (by omega)
  · refine Eq.trans (readBytes_congr fun i hi => ?_) h.data
    exact hdata _ (by omega) (by omega)

/-- The file that `write_file` has just written. -/
theorem fileWritten_writeFile {j : ℕ} (hpos : out.pos = headerAddr w 0 j)
    (hstart : headerAddr w 0 (j + 1) ≤ start ∨ file.data.length = 0) (hlt : start < 256 ^ w)
    (hlength : file.data.length < 256 ^ w) (hname : file.name.length < maxNameLength) :
    FileWritten w (writeFile w stack out file start file.data.length) start j file := by
  have hsucc := headerAddr_succ w j
  have hfields : fileHeaderSize w = maxNameLength + 2 * w := rfl
  obtain ⟨hstr, hload, hload'⟩ := fileHeader_spec w stack
    file.name_ne_zero hname hlt hlength
  have hheader : ∀ k < fileHeaderSize w,
      (writeFile w stack out file start file.data.length).bytes (headerAddr w 0 j + k) =
        fileHeader w stack file.name start file.data.length k := by
    intro k hk
    rw [bytes_writeFile _ (by omega), if_pos (by omega), hpos, Nat.add_sub_cancel_left]
  refine ⟨hstr.congr fun k hk => hheader k (by omega), ?_, ?_, ?_, ?_, fun hne => ?_⟩
  · refine Eq.trans (loadLE_eq_of_bytes fun i hi => ?_) hload
    rw [Nat.add_assoc, hheader _ (by omega)]
  · refine Eq.trans (loadLE_eq_of_bytes fun i hi => ?_) hload'
    rw [Nat.add_assoc, Nat.add_assoc, ← Nat.add_assoc maxNameLength, hheader _ (by omega)]
  · refine List.ext_getElem (by simp) fun i h₁ h₂ => ?_
    rw [getElem_readBytes, bytes_writeFile _ (by omega), if_neg (by omega), if_pos (by omega),
      Nat.add_sub_cancel_left, bufferOf, List.getD_eq_getElem _ _ h₂]
  · rw [hsucc, ← hpos]
    exact header_le_size_writeFile
  · exact data_le_size_writeFile w stack out file start (by simpa using hne)

/-- **One file more**: when the table has room for it, or there is no data, and the image stays
within the range of `size_t`. -/
theorem Written.writeFile {st : Writer} {files : List HostFile} (h : Written w st files)
    (hroom : FitsTable (files ++ [file])) (hname : file.name.length < maxNameLength)
    (hnames : ∀ f ∈ files, f.name.length < maxNameLength) (hlength : file.data.length < 256 ^ w)
    (hsize : (Initrd.writeFile w stack st.out file st.dataEnd file.data.length).size < 256 ^ w) :
    Written w
      { out := Initrd.writeFile w stack st.out file st.dataEnd file.data.length
        dataEnd := (st.dataEnd + file.data.length) % 256 ^ w
        numFiles := st.numFiles + 1 } (files ++ [file]) := by
  have hpos := h.pos_eq
  have hend := h.end_eq
  have hendlt := h.end_lt
  have hsucc := headerAddr_succ w files.length
  have hstart : ∀ j, headerAddr w 0 (files.length + 1) ≤ dataStart w files j ∨
      ∀ f ∈ files ++ [file], f.data = [] := fun j =>
    hroom.imp_left fun hlen => headerAddr_le_dataStart w files j (by simpa using hlen)
  have htable : headerAddr w 0 (files.length + 1) ≤ st.dataEnd ∨ file.data.length = 0 := by
    rw [hend]
    exact (hstart _).imp_right fun hempty => List.length_eq_zero_iff.mpr (hempty file (by simp))
  have hnowrap : (st.dataEnd + file.data.length) % 256 ^ w = st.dataEnd + file.data.length :=
    Nat.mod_eq_of_lt (add_lt_of_size_writeFile hendlt hsize)
  refine ⟨?_, ?_, ?_, ?_, fun j hj => ?_⟩
  · simp only [pos_writeFile, List.length_append, List.length_singleton, hpos, hsucc]
  · simp [h.numFiles_eq]
  · simp only [hnowrap]
    rw [List.length_append, List.length_singleton, dataStart_succ (by simp),
      dataStart_append le_rfl, ← hend]
    simp
  · exact Nat.mod_lt _ (Nat.pos_of_ne_zero (by simp))
  · rw [List.length_append, List.length_singleton] at hj
    rw [dataStart_append (by omega)]
    rcases Nat.lt_or_eq_of_le (Nat.le_of_lt_succ hj) with hlt | rfl
    · -- An earlier file: its header lies below the new one, its data below the end.
      rw [List.getElem_append_left hlt]
      have hbelow := headerAddr_mono w (show j + 1 ≤ files.length by omega)
      have hdata : dataStart w files j + files[j].data.length ≤ st.dataEnd := by
        rw [hend, ← dataStart_succ hlt]
        exact dataStart_mono (by omega) le_rfl
      have hbehind : headerAddr w 0 (files.length + 1) ≤ dataStart w files j ∨
          files[j].data.length = 0 :=
        (hstart j).imp_right fun hempty => List.length_eq_zero_iff.mpr (hempty files[j] (by simp))
      refine (h.file j hlt).of_eq size_le_writeFile (fun x hx hx' => ?_) (fun x hx hx' => ?_)
        (hnames _ (List.getElem_mem hlt))
      · rw [bytes_writeFile _ (by omega), if_neg (by omega), if_neg (by omega)]
      · rw [bytes_writeFile _ (by omega), if_neg (by omega), if_neg (by omega)]
    · rw [List.getElem_concat_length rfl, ← hend]
      exact fileWritten_writeFile hpos htable hendlt hlength hname

/-! ### A directory -/

/-- The loop only extends the output file. -/
theorem size_le_writeEntries {stack : ℕ → Memory} {entries : List HostFile} {st st' : Writer}
    (h : writeEntries w stack entries st = .ok st') : st.out.size ≤ st'.out.size := by
  induction entries generalizing st with
  | nil =>
    obtain rfl := Except.ok.inj h
    exact le_rfl
  | cons file entries ih =>
    rw [writeEntries] at h
    split_ifs at h with h₁ h₂ h₃
    · exact size_le_writeFile.trans (ih h)
    · exact ih h

/-- **The loop over the directory** puts its regular files behind those already written. -/
theorem Written.writeEntries {stack : ℕ → Memory} {entries files : List HostFile} {st st' : Writer}
    (h : Written w st files) (hrun : writeEntries w stack entries st = .ok st')
    (hroom : FitsTable (files ++ regularFiles entries))
    (hnames : ∀ f ∈ files ++ regularFiles entries, f.name.length < maxNameLength)
    (hsize : st'.out.size < 256 ^ w) : Written w st' (files ++ regularFiles entries) := by
  induction entries generalizing st files with
  | nil =>
    obtain rfl := Except.ok.inj hrun
    simpa [regularFiles] using h
  | cons file entries ih =>
    rw [Initrd.writeEntries] at hrun
    split_ifs at hrun with hopen hstat hregular
    · have htake : files ++ regularFiles (file :: entries) =
          files ++ [file] ++ regularFiles entries := by
        simp [regularFiles, hregular]
      rw [htake] at hroom hnames ⊢
      refine ih ?_ hrun hroom hnames
      refine h.writeFile hroom.of_append (hnames file (by simp))
        (fun f hf => hnames f (by simp [hf])) ?_
        ((size_le_writeEntries hrun).trans_lt hsize)
      push Not at hstat
      exact hstat.2.trans_le (Nat.div_le_self _ _)
    · have hskip : regularFiles (file :: entries) = regularFiles entries := by
        simp [regularFiles, hregular]
      rw [hskip] at hroom hnames ⊢
      exact ih h hrun hroom hnames

end

/-- A `write_initrd` that succeeds gets to the end of the directory and writes the number of files
to the first byte. -/
theorem writeInitrd_cases {w : ℕ} {stack : ℕ → Memory} {entries : List HostFile} {image : OutFile}
    (himage : writeInitrd w stack (some entries) true = (0, image)) :
    ∃ st, writeEntries w stack entries ⟨OutFile.creat.lseek 1, 1 + fileHeaderSize w * maxFiles, 0⟩ =
        .ok st ∧ image = (st.out.lseek 0).write (fun _ => BitVec.ofNat 8 st.numFiles) 1 ∧
      st.out.size ≤ image.size := by
  simp only [writeInitrd, not_true_eq_false, if_false] at himage
  split at himage
  · simp at himage
  · rename_i st hrun
    obtain rfl := (Prod.mk.inj himage).2
    exact ⟨st, hrun, rfl, le_max_left _ _⟩

/-- **The image of a directory**: the number of its regular files, and each of them in place. -/
theorem written_of_writeInitrd {w : ℕ} {stack : ℕ → Memory} {entries : List HostFile}
    {image : OutFile} (htable : 1 + fileHeaderSize w * maxFiles < 256 ^ w)
    (himage : writeInitrd w stack (some entries) true = (0, image))
    (hcount : (regularFiles entries).length < 2 ^ 8) (hroom : FitsTable (regularFiles entries))
    (hnames : ∀ f ∈ regularFiles entries, f.name.length < maxNameLength)
    (hsize : image.size < 256 ^ w) :
    0 < image.size ∧ (image.bytes 0).toNat = (regularFiles entries).length ∧
      ∀ j (hj : j < (regularFiles entries).length),
        FileWritten w image (dataStart w (regularFiles entries) j) j (regularFiles entries)[j] := by
  obtain ⟨st, hrun, rfl, hle⟩ := writeInitrd_cases himage
  have hstart : Written w ⟨OutFile.creat.lseek 1, 1 + fileHeaderSize w * maxFiles, 0⟩ [] :=
    ⟨rfl, rfl, rfl, htable, fun j hj => absurd hj (Nat.not_lt_zero j)⟩
  have hwritten := hstart.writeEntries hrun (by simpa using hroom) (by simpa using hnames)
    (hle.trans_lt hsize)
  rw [List.nil_append] at hwritten
  refine ⟨lt_max_of_lt_right (by simp [OutFile.lseek]), ?_, fun j hj => ?_⟩
  · simp only [OutFile.write, OutFile.lseek, blit]
    rw [if_pos (by omega), hwritten.numFiles_eq, BitVec.toNat_ofNat, Nat.mod_eq_of_lt hcount]
  · have hpos : 0 < headerAddr w 0 j := by
      simp only [headerAddr]
      omega
    have hstart' := headerAddr_le_dataStart w (regularFiles entries) (i := 0) j (by decide)
    have hpos' : 0 < headerAddr w 0 0 := by simp [headerAddr]
    have hkeep : ∀ x, 0 < x → ((st.out.lseek 0).write
        (fun _ => BitVec.ofNat 8 st.numFiles) 1).bytes x = st.out.bytes x := by
      intro x hx
      simp only [OutFile.write, OutFile.lseek]
      exact blit_apply_of_notMem _ _ (Or.inr (by omega))
    exact (hwritten.file j hj).of_eq hle (fun x hx _ => hkeep x (by omega))
      (fun x hx _ => hkeep x (by omega)) (hnames _ (List.getElem_mem hj))

end Studix.Initrd
