import Studix.Tools.MakeInitrd

/-!
# From the host's files to the kernel's nodes

The image that `make_initrd` writes is loaded by the bootloader and taken apart by `init_initrd`.
Where `File_header` has the same layout on both sides, every file comes back with its name, its
length and its contents. The host compiler of the build has eight-byte `size_t` on a 64-bit host,
and then the two layouts differ: the kernel takes the high half of the first start for the first
length, and the first length for the beginning of the second name.

## Main definitions

* `LoadedAt`: an image in memory.
* `Decodes`: what the kernel's headers say about the files.

## Main results

* `initrd_roundTrip`: the round trip with the kernel's layout.
* `decodes_hostImage_iff`: the round trip with the layout of a 64-bit host.
-/

namespace Studix.Initrd

open Vfs

/-- The image lies in memory at `location`. -/
def LoadedAt (mem : Memory) (location : ℕ) (image : OutFile) : Prop :=
  ∀ x < image.size, mem (location + x) = image.bytes x

/-- The kernel's headers list the files: their number, and the name, the relocated start and the
length of each. -/
def Decodes (rd : State) (start : ℕ → ℕ) (files : List HostFile) : Prop :=
  rd.numRootNodes = files.length ∧
    ∀ i (hi : i < files.length), IsCString (rd.headerName i) files[i].name ∧
      rd.headerStart i = wadd (start i) rd.location ∧
      rd.headerLength i = files[i].data.length

section

variable {mem : Memory} {location i : ℕ} {image : OutFile} {rd : State} {file : HostFile}
  {start n : ℕ}

theorem headerAddr_add (w location i : ℕ) :
    headerAddr w location i = location + headerAddr w 0 i := by
  rw [headerAddr, headerAddr]
  omega

theorem LoadedAt.loadLE_eq (h : LoadedAt mem location image) {x k : ℕ} (hx : x + k ≤ image.size) :
    loadLE mem (location + x) k = loadLE image.bytes x k :=
  loadLE_eq_of_bytes fun j hj => by rw [Nat.add_assoc, h _ (by omega)]

/-! ### The kernel's layout -/

/-- The header of a file, in memory before relocation. -/
theorem FileWritten.header_loaded (h : FileWritten kernelWord image start i file)
    (hload : LoadedAt mem location image) (hname : file.name.length < maxNameLength) :
    IsCString (bufferAt mem (headerAddr kernelWord location i)) file.name ∧
      load32 mem (headerAddr kernelWord location i + maxNameLength) = start ∧
      load32 mem (headerAddr kernelWord location i + maxNameLength + kernelWord) =
        file.data.length := by
  have hle := h.header_le
  have hsucc := headerAddr_succ kernelWord i
  have hsize : fileHeaderSize kernelWord = maxNameLength + 8 := rfl
  have hword : kernelWord = 4 := rfl
  rw [headerAddr_add]
  refine ⟨h.name.congr fun k hk => ?_, ?_, ?_⟩
  · rw [bufferAt, Nat.add_assoc]
    exact hload _ (by omega)
  · rw [Nat.add_assoc, load32, hload.loadLE_eq (by omega)]
    exact h.start_eq
  · rw [Nat.add_assoc location, Nat.add_assoc location, load32, hload.loadLE_eq (by omega)]
    exact h.length_eq

/-- The contents of a file, in memory after relocation. -/
theorem FileWritten.data_loaded (h : FileWritten kernelWord image start i file)
    (hload : LoadedAt mem location image) (hrel : Relocated mem location n rd.mem)
    (hn : n ≤ maxFiles) (hstart : headerAddr kernelWord 0 maxFiles ≤ start) {k : ℕ}
    (hk : k < file.data.length) : rd.mem (location + start + k) = file.data[k] := by
  have hle := h.data_le (List.length_pos_iff.mp (by omega))
  have hbyte : image.bytes (start + k) = file.data[k] := by
    have := getElem_readBytes image.bytes start file.data.length (i := k) (by simpa using hk)
    simp only [h.data] at this
    exact this.symm
  rw [hrel.others, Nat.add_assoc, hload _ (by omega), hbyte]
  intro j hj
  have hj := headerAddr_add kernelWord location j
  have hbelow := headerAddr_mono kernelWord (show j + 1 ≤ maxFiles by omega)
  have hsucc := headerAddr_succ kernelWord j
  have hsize : fileHeaderSize kernelWord = maxNameLength + 8 := rfl
  have hword : kernelWord = 4 := rfl
  omega

/-- The count that `initrd_read` returns for a file of the given length. -/
def clippedSize (length offset size : ℕ) : ℕ :=
  if offset ≤ length then min size (length - offset) else 0

/-- **`initrd_read` delivers the clipped slice of a file.** -/
theorem initrdRead_spec {node : FsNode Unit} {offset size : ℕ} {data : List Byte} (buf : Memory)
    (hinode : node.inode = i) (hlength : rd.headerLength i = data.length)
    (hlt : data.length < 2 ^ 32)
    (hdata : ∀ k (hk : offset + k < data.length),
      rd.mem (wadd (rd.headerStart i) offset + k) = data[offset + k])
    (hwrap : offset + size < 2 ^ 32) :
    ∃ buf', initrdRead rd node offset size buf =
        .ok (clippedSize data.length offset size, buf') ∧
      readBytes buf' 0 (clippedSize data.length offset size) = (data.drop offset).take size ∧
      ∀ j, clippedSize data.length offset size ≤ j → buf' j = buf j := by
  by_cases hoff : offset ≤ data.length
  · have hclip : (if data.length < wadd offset size then wsub data.length offset else size) =
        min size (data.length - offset) := by
      rw [wadd_eq hwrap, wsub_eq hoff hlt]
      split_ifs <;> omega
    simp only [clippedSize, if_pos hoff]
    refine ⟨blit buf 0 (min size (data.length - offset))
      (bufferAt rd.mem (wadd (rd.headerStart i) offset)), ?_, ?_,
      fun j hj => blit_apply_of_notMem buf _ (Or.inr (by omega))⟩
    · simp only [initrdRead, hinode, hlength, if_neg (not_lt.mpr hoff), hclip]
    · refine List.ext_getElem (by simp) fun j h₁ h₂ => ?_
      rw [length_readBytes] at h₁
      rw [getElem_readBytes, Nat.zero_add, blit_apply_of_mem _ _ (by omega), Nat.sub_zero, bufferAt,
        List.getElem_take, List.getElem_drop, hdata j (by omega)]
  · have hempty : (data.drop offset).take size = [] := by
      rw [List.drop_eq_nil_of_le (by omega), List.take_nil]
    simp only [clippedSize, if_neg hoff, hempty]
    exact ⟨buf, by simp only [initrdRead, hinode, hlength, if_pos (not_le.mp hoff)], rfl,
      fun _ _ => rfl⟩

end

/-- **The ramdisk round trip.** An image that `write_initrd` has written with the kernel's layout,
of at most `MAX_FILES` regular files with names shorter than `MAX_NAME_LENGTH`, is loaded with a
node for every file: the header keeps the name, the node has the length, and reads deliver the
clipped slices of the contents. -/
theorem initrd_roundTrip {stack : ℕ → Memory} {entries : List HostFile} {image : OutFile}
    {mem : Memory} {location : ℕ} (fresh : Fresh)
    (himage : writeInitrd kernelWord stack (some entries) true = (0, image))
    (hcount : (regularFiles entries).length ≤ maxFiles)
    (hnames : ∀ f ∈ regularFiles entries, f.name.length < maxNameLength)
    (hload : LoadedAt mem location image) (hend : location + image.size < 2 ^ 32) :
    ∃ rd, initInitrd mem fresh location = .ok rd ∧
      rd.numRootNodes = (regularFiles entries).length ∧
      ∀ i (hi : i < (regularFiles entries).length),
        IsCString (rd.headerName i) (regularFiles entries)[i].name ∧
        (rd.rootNodes i).length = (regularFiles entries)[i].data.length ∧
        ∀ offset size buf, offset + size < 2 ^ 32 →
          ∃ buf', readFsNode (rd.rootNodes i) (initrdRead rd (rd.rootNodes i)) offset size buf =
              .ok (clippedSize (regularFiles entries)[i].data.length offset size, buf') ∧
            readBytes buf' 0 (clippedSize (regularFiles entries)[i].data.length offset size) =
              ((regularFiles entries)[i].data.drop offset).take size ∧
            ∀ j, clippedSize (regularFiles entries)[i].data.length offset size ≤ j →
              buf' j = buf j := by
  obtain ⟨hpos, hbyte, hwritten⟩ := written_of_writeInitrd (by decide) himage
    (hcount.trans_lt (by decide)) (.inl hcount) hnames
    (show image.size < 2 ^ 32 by omega)
  generalize regularFiles entries = files at *
  have hheader : ∀ i (hi : i < files.length), _ := fun i hi =>
    (hwritten i hi).header_loaded hload (hnames _ (List.getElem_mem hi))
  obtain ⟨rd, hinit, hnum, hloc, hrel, -, -, -, -, -, hnodes⟩ :=
    initInitrd_spec fresh (files.map HostFile.name)
      (show (mem location).toNat = _ by rw [← Nat.add_zero location, hload 0 hpos, hbyte,
        List.length_map])
      (fun i hi => by
        rw [List.length_map] at hi
        rw [List.getElem_map]
        exact ⟨(hheader i hi).1, hnames _ (List.getElem_mem hi)⟩)
  rw [List.length_map] at hnum hrel hnodes
  refine ⟨rd, hinit, hnum, fun i hi => ?_⟩
  obtain ⟨hname, hstart, hlength⟩ := hheader i hi
  have hlen := hnames _ (List.getElem_mem hi)
  have hnode := hnodes i hi
  have hdatale := (hwritten i hi).data_le
  have hlt : files[i].data.length < 2 ^ 32 := hlength ▸ load32_lt _ _
  refine ⟨?_, hnode.length_eq.trans hlength, fun offset size buf hwrap => ?_⟩
  · refine hname.congr fun k hk => ?_
    rw [State.headerName, hloc]
    exact hrel.name_eq (by omega)
  · rw [readFsNode, if_pos hnode.read_eq]
    refine initrdRead_spec buf hnode.inode_eq ?_ hlt (fun k hk => ?_) hwrap
    · rw [State.headerLength, hloc, hrel.length_eq, hlength]
    · -- There is a byte to read, so the data lies inside the image and no address wraps.
      have hinside := hdatale (List.length_pos_iff.mp (by omega))
      have haddr : wadd (rd.headerStart i) offset + k =
          location + dataStart kernelWord files i + (offset + k) := by
        rw [State.headerStart, hloc, hrel.starts i hi, hstart,
          wadd_eq (a := dataStart _ _ _) (by omega), wadd_eq (by omega)]
        omega
      rw [haddr]
      exact (hwritten i hi).data_loaded hload hrel hcount
        (headerAddr_le_dataStart kernelWord files i le_rfl) hk

/-! ### The layout of a 64-bit host -/

/-- `sizeof(size_t)` on a 64-bit host. -/
def hostWord : ℕ := 8

section

variable {mem : Memory} {location : ℕ} {image : OutFile} {file : HostFile} {files : List HostFile}
  {rd : State} {fresh : Fresh}

/-- What the kernel reads in the first header of a host image: the name and the start, and the high
half of the start in place of the length. -/
theorem FileWritten.first_header_loaded
    (h : FileWritten hostWord image (dataStart hostWord files 0) 0 file)
    (hload : LoadedAt mem location image) (hname : file.name.length < maxNameLength) :
    IsCString (bufferAt mem (headerAddr kernelWord location 0)) file.name ∧
      load32 mem (headerAddr kernelWord location 0 + maxNameLength) = dataStart hostWord files 0 ∧
      load32 mem (headerAddr kernelWord location 0 + maxNameLength + kernelWord) = 0 := by
  have hle : 145 ≤ image.size := h.header_le
  have hstart : loadLE image.bytes 129 8 = 9217 := h.start_eq
  have hsplit := loadLE_add image.bytes 129 4 4
  have hlow := loadLE_lt image.bytes 129 4
  have hparts : loadLE image.bytes 129 4 = 9217 ∧ loadLE image.bytes 133 4 = 0 := by
    norm_num at hsplit hlow
    omega
  refine ⟨h.name.congr fun k hk => ?_, ?_, ?_⟩
  · have hk' : 1 + k < image.size := by
      simp only [maxNameLength] at hname
      omega
    exact (congrArg mem (by simp only [headerAddr]; omega)).trans (hload (1 + k) hk')
  · exact (hload.loadLE_eq (x := 129) (k := 4) (by omega)).trans hparts.1
  · exact (hload.loadLE_eq (x := 133) (k := 4) (by omega)).trans hparts.2

/-- The kernel takes the first length of a host image for 0, so the first file must be empty for the
headers to be right. -/
theorem first_data_eq_nil_of_decodes {start : ℕ → ℕ} (hne : 0 < files.length)
    (h : FileWritten hostWord image (dataStart hostWord files 0) 0 files[0])
    (hload : LoadedAt mem location image) (hname : files[0].name.length < maxNameLength)
    (hinit : initInitrd mem fresh location = .ok rd) (hdecodes : Decodes rd start files) :
    files[0].data = [] := by
  obtain ⟨hloc, -, hrel⟩ := initInitrd_mem hinit
  obtain ⟨-, -, hzero⟩ := h.first_header_loaded hload hname
  have hlength := (hdecodes.2 0 hne).2.2
  rw [State.headerLength, hloc, hrel.length_eq, hzero] at hlength
  exact List.length_eq_zero_iff.mp hlength.symm

/-- The kernel takes the first length of a host image for the beginning of the second name, so
there is no second file when the first is empty and the headers are right. -/
theorem length_le_one_of_decodes {start : ℕ → ℕ} (hne : 0 < files.length)
    (h : FileWritten hostWord image (dataStart hostWord files 0) 0 files[0])
    (hload : LoadedAt mem location image) (hempty : files[0].data = [])
    (hinit : initInitrd mem fresh location = .ok rd) (hdecodes : Decodes rd start files) :
    files.length ≤ 1 := by
  by_contra! htwo
  obtain ⟨hloc, -, hrel⟩ := initInitrd_mem hinit
  have hle : 145 ≤ image.size := h.header_le
  have hlength : loadLE image.bytes 137 8 = 0 := h.length_eq.trans (by rw [hempty]; rfl)
  have hbyte : image.bytes 137 = 0 := by
    rw [loadLE] at hlength
    exact BitVec.eq_of_toNat_eq (show (image.bytes 137).toNat = 0 by omega)
  have hfirst : rd.headerName 1 0 ≠ 0 := (hdecodes.2 1 htwo).1.apply_ne_zero
    (List.length_pos_iff.mpr files[1].name_ne_nil)
  refine hfirst ?_
  calc rd.headerName 1 0 = mem (headerAddr kernelWord location 1 + 0) := by
        rw [State.headerName, hloc]
        exact hrel.name_eq (by decide)
    _ = mem (location + 137) := rfl
    _ = 0 := by rw [hload 137 (by omega), hbyte]

end

/-- **An image written on a 64-bit host is decoded to its files exactly when there are none, or
there is one and it is empty.** -/
theorem decodes_hostImage_iff {stack : ℕ → Memory} {entries : List HostFile} {image : OutFile}
    {mem : Memory} {location : ℕ} (fresh : Fresh)
    (himage : writeInitrd hostWord stack (some entries) true = (0, image))
    (hcount : (regularFiles entries).length ≤ maxFiles)
    (hnames : ∀ f ∈ regularFiles entries, f.name.length < maxNameLength)
    (hload : LoadedAt mem location image) (hend : location + image.size < 2 ^ 32) :
    (∃ rd, initInitrd mem fresh location = .ok rd ∧
      Decodes rd (dataStart hostWord (regularFiles entries)) (regularFiles entries)) ↔
      regularFiles entries = [] ∨ ∃ f, regularFiles entries = [f] ∧ f.data = [] := by
  obtain ⟨hpos, hbyte, hwritten⟩ := written_of_writeInitrd (by decide) himage
    (hcount.trans_lt (by decide)) (.inl hcount) hnames
    (show image.size < 256 ^ hostWord from
      lt_of_lt_of_le (by omega : image.size < 2 ^ 32) (by decide))
  generalize regularFiles entries = files at *
  have hmem : (mem location).toNat = files.length := by
    rw [← Nat.add_zero location, hload 0 hpos, hbyte]
  constructor
  · rintro ⟨rd, hinit, hdecodes⟩
    rcases Nat.eq_zero_or_pos files.length with hnil | hne
    · exact Or.inl (List.length_eq_zero_iff.mp hnil)
    · have hempty := first_data_eq_nil_of_decodes hne (hwritten 0 hne) hload
        (hnames _ (List.getElem_mem hne)) hinit hdecodes
      have hone := length_le_one_of_decodes hne (hwritten 0 hne) hload hempty hinit hdecodes
      obtain ⟨f, rfl⟩ := List.length_eq_one_iff.mp (le_antisymm hone hne)
      exact Or.inr ⟨f, rfl, hempty⟩
  · rintro (rfl | ⟨f, rfl, hempty⟩)
    · obtain ⟨rd, hinit, hnum, -⟩ := initInitrd_spec fresh [] hmem
        fun i hi => absurd hi (Nat.not_lt_zero i)
      exact ⟨rd, hinit, hnum, fun i hi => absurd hi (Nat.not_lt_zero i)⟩
    · have hlen : f.name.length < maxNameLength := hnames f (by simp)
      obtain ⟨hname, hstart, hzero⟩ := (hwritten 0 (by simp)).first_header_loaded hload hlen
      obtain ⟨rd, hinit, hnum, hloc, hrel, -⟩ := initInitrd_spec fresh [f.name] hmem
        fun i hi => by
          obtain rfl : i = 0 := by simpa using hi
          exact ⟨hname, hlen⟩
      refine ⟨rd, hinit, hnum, fun i hi => ?_⟩
      obtain rfl : i = 0 := by simpa using hi
      refine ⟨hname.congr fun k hk => ?_, ?_, ?_⟩
      · rw [State.headerName, hloc]
        exact hrel.name_eq (lt_of_le_of_lt hk hlen)
      · rw [State.headerStart, hloc, hrel.starts 0 (by simp), hstart]
      · rw [State.headerLength, hloc, hrel.length_eq, hzero]
        simp [hempty]

/-! ### Small directories -/

/-- A file `a` with the single byte `b`. -/
def sampleFile : HostFile := ⟨[97], true, true, true, [98], by decide, by decide⟩

/-- A file `d` with the three bytes `e`, `f` and `g`. -/
def longerFile : HostFile := ⟨[100], true, true, true, [101, 102, 103], by simp, by simp⟩

/-- An empty file `a`. -/
def emptyFile : HostFile := { sampleFile with data := [] }

/-- The memory with an image at a place. -/
def loadedImage (image : OutFile) (location : ℕ) : Memory := fun a => image.bytes (a - location)

theorem loadedAt_loadedImage (image : OutFile) (location : ℕ) :
    LoadedAt (loadedImage image location) location image :=
  fun x _ => by rw [loadedImage, Nat.add_sub_cancel_left]

/-- The image of the directory with the two files. -/
def twoFilesImage : OutFile :=
  (writeInitrd kernelWord (fun _ _ => 0) (some [sampleFile, longerFile]) true).2

/-- The image of a directory with one file, written on a 64-bit host. -/
def hostImage (file : HostFile) : OutFile :=
  (writeInitrd hostWord (fun _ _ => 0) (some [file]) true).2

/-- The round trip of two files, loaded at 1 MiB. The second one is read from its second byte on. -/
theorem initrd_roundTrip_twoFiles :
    writeInitrd kernelWord (fun _ _ => 0) (some [sampleFile, longerFile]) true =
        (0, twoFilesImage) ∧
      ∃ rd, initInitrd (loadedImage twoFilesImage 0x100000) zeroFresh 0x100000 = .ok rd ∧
        rd.numRootNodes = 2 ∧
        (IsCString (rd.headerName 0) [97] ∧ (rd.rootNodes 0).length = 1) ∧
        (IsCString (rd.headerName 1) [100] ∧ (rd.rootNodes 1).length = 3) ∧
        ∃ buf', readFsNode (rd.rootNodes 1) (initrdRead rd (rd.rootNodes 1)) 1 10 (fun _ => 0) =
            .ok (2, buf') ∧ readBytes buf' 0 2 = [102, 103] := by
  have himage : writeInitrd kernelWord (fun _ _ => 0) (some [sampleFile, longerFile]) true =
      (0, twoFilesImage) := rfl
  obtain ⟨rd, hinit, hnum, hfiles⟩ := initrd_roundTrip zeroFresh himage (by decide) (by decide)
    (loadedAt_loadedImage twoFilesImage 0x100000) (by decide +kernel)
  obtain ⟨hname, hlength, -⟩ := hfiles 0 (by decide)
  obtain ⟨hname', hlength', hread⟩ := hfiles 1 (by decide)
  obtain ⟨buf', hcall, hbytes, -⟩ := hread 1 10 (fun _ => 0) (by decide)
  exact ⟨himage, rd, hinit, hnum, ⟨hname, hlength⟩, ⟨hname', hlength'⟩, buf', hcall, hbytes⟩

/-- The empty file is decoded from the image of a 64-bit host. -/
theorem decodes_hostImage_iff_emptyFile :
    ∃ rd, initInitrd (loadedImage (hostImage emptyFile) 0x100000) zeroFresh 0x100000 = .ok rd ∧
      Decodes rd (dataStart hostWord [emptyFile]) [emptyFile] := by
  have himage : writeInitrd hostWord (fun _ _ => 0) (some [emptyFile]) true =
      (0, hostImage emptyFile) := rfl
  exact (decodes_hostImage_iff zeroFresh himage (by decide) (by decide)
    (loadedAt_loadedImage _ 0x100000) (by decide +kernel)).mpr (.inr ⟨emptyFile, rfl, rfl⟩)

/-- The file with one byte is not decoded from its image. -/
theorem hostImage_of_sampleFile_not_decoded :
    ¬∃ rd, initInitrd (loadedImage (hostImage sampleFile) 0x100000) zeroFresh 0x100000 = .ok rd ∧
      Decodes rd (dataStart hostWord [sampleFile]) [sampleFile] := by
  rintro ⟨rd, hinit, hdecodes⟩
  have himage : writeInitrd hostWord (fun _ _ => 0) (some [sampleFile]) true =
      (0, hostImage sampleFile) := rfl
  obtain ⟨-, -, hwritten⟩ :=
    written_of_writeInitrd (by decide) himage (by decide) (.inl (by decide)) (by decide)
      (by decide +kernel)
  have hempty := first_data_eq_nil_of_decodes (by decide : 0 < [sampleFile].length)
    (hwritten 0 (by decide)) (loadedAt_loadedImage (hostImage sampleFile) 0x100000)
    (by decide) hinit
    hdecodes
  exact absurd hempty (by decide)

end Studix.Initrd
