import Studix.Fs.InitrdRoundTrip

/-!
# Requests to ramdisk files

`initrd_read` of `src/fs/initrd.c` compares the 32-bit sum of the offset and the size with the
length of the file. Where the sum wraps it is below the offset, so the request passes the comparison
and is copied whole from memory behind the file. The function is run again with a record of the
addresses that its `memcpy` reads.

## Main definitions

* `initrdReadT`: `initrd_read` with the addresses read.
* `InFile`, `StaysInFile`: the addresses of a file, and a request that is clipped to them.

## Main results

* `initrdReadT_eq`: the record changes nothing.
* `staysInFile_iff`: the requests that are clipped.
-/

namespace Studix.Initrd

open Vfs

/-- `initrd_read`, with the addresses that `memcpy` reads. -/
def initrdReadT (rd : State) (node : FsNode Unit) (offset size : ℕ) (buf : Memory) :
    Except Stop ((ℕ × Memory) × List ℕ) :=
  let length := rd.headerLength node.inode
  if length < offset then .ok ((0, buf), [])
  else
    let size := if length < wadd offset size then wsub length offset else size
    let src := wadd (rd.headerStart node.inode) offset
    .ok ((size, blit buf 0 size (bufferAt rd.mem src)), (List.range size).map (wadd src))

/-- An address in `[start, start + length)`, by its distance from the start. -/
def InFile (rd : State) (inode a : ℕ) : Prop :=
  wsub a (rd.headerStart inode) < rd.headerLength inode

/-- A request copies and returns the bytes that the file has of it, and reads no byte outside the
file. -/
def StaysInFile (rd : State) (node : FsNode Unit) (offset size : ℕ) : Prop :=
  ∀ buf, ∃ buf' reads, initrdReadT rd node offset size buf =
      .ok ((clippedSize (rd.headerLength node.inode) offset size, buf'), reads) ∧
    (∀ j, buf' j = if j < clippedSize (rd.headerLength node.inode) offset size then
      rd.mem (wadd (rd.headerStart node.inode) offset + j) else buf j) ∧
    ∀ a ∈ reads, InFile rd node.inode a

variable {rd : State} {node : FsNode Unit} {offset size : ℕ}

/-- The record changes nothing. -/
theorem initrdReadT_eq (buf : Memory) :
    (initrdReadT rd node offset size buf).map Prod.fst = initrdRead rd node offset size buf := by
  rw [initrdReadT, initrdRead]
  dsimp only
  split_ifs <;> rfl

/-- An address that `memcpy` reads, by its distance from the start of the file. -/
theorem wsub_wadd_wadd {start k : ℕ} (hstart : start < 2 ^ 32) (hk : offset + k < 2 ^ 32) :
    wsub (wadd (wadd start offset) k) start = offset + k := by
  simp only [wadd, wsub]
  omega

/-- The comparison with the length clips a request, unless its sum wraps. -/
theorem staysInFile_of_not_wrap (h : rd.headerLength node.inode < offset ∨ offset + size < 2 ^ 32) :
    StaysInFile rd node offset size := by
  intro buf
  have hlength : rd.headerLength node.inode < 2 ^ 32 := load32_lt _ _
  have hstart : rd.headerStart node.inode < 2 ^ 32 := load32_lt _ _
  by_cases hoff : rd.headerLength node.inode < offset
  · refine ⟨buf, [], ?_, fun j => ?_, fun a ha => absurd ha List.not_mem_nil⟩
    · rw [initrdReadT, clippedSize, if_neg (not_le.mpr hoff)]
      exact if_pos hoff
    · rw [clippedSize, if_neg (not_le.mpr hoff), if_neg (Nat.not_lt_zero j)]
  · have hclip : (if rd.headerLength node.inode < wadd offset size then
        wsub (rd.headerLength node.inode) offset else size) =
        clippedSize (rd.headerLength node.inode) offset size := by
      rw [clippedSize, if_pos (not_lt.mp hoff), wadd_eq (h.resolve_left hoff),
        wsub_eq (not_lt.mp hoff) hlength]
      split_ifs <;> omega
    have hcall : initrdReadT rd node offset size buf = .ok
        ((clippedSize (rd.headerLength node.inode) offset size,
          blit buf 0 (clippedSize (rd.headerLength node.inode) offset size)
            (bufferAt rd.mem (wadd (rd.headerStart node.inode) offset))),
        (List.range (clippedSize (rd.headerLength node.inode) offset size)).map
          (wadd (wadd (rd.headerStart node.inode) offset))) := by
      rw [initrdReadT]
      dsimp only
      rw [if_neg hoff, hclip]
    refine ⟨_, _, hcall, fun j => ?_, fun a ha => ?_⟩
    · rw [blit, bufferAt]
      simp only [Nat.zero_le, true_and, Nat.zero_add, Nat.sub_zero]
    · obtain ⟨k, hk, rfl⟩ := List.mem_map.mp ha
      have hk := List.mem_range.mp hk
      rw [clippedSize, if_pos (not_lt.mp hoff)] at hk
      rw [InFile, wsub_wadd_wadd hstart (by omega)]
      omega

/-- A request that wraps is copied whole, which is more than the file has of it. -/
theorem not_staysInFile_of_wrap (hoff : offset ≤ rd.headerLength node.inode)
    (hwrap : 2 ^ 32 ≤ offset + size) (hsize : size < 2 ^ 32) :
    ¬StaysInFile rd node offset size := by
  intro h
  have hlength : rd.headerLength node.inode < 2 ^ 32 := load32_lt _ _
  have hsum : ¬rd.headerLength node.inode < wadd offset size := by
    rw [wadd]
    omega
  obtain ⟨buf', reads, hcall, -, -⟩ := h fun _ => 0
  rw [initrdReadT] at hcall
  dsimp only at hcall
  rw [if_neg (not_lt.mpr hoff), if_neg hsum] at hcall
  have hreturned : size = clippedSize (rd.headerLength node.inode) offset size :=
    congrArg (fun res => res.1.1) (Except.ok.inj hcall)
  rw [clippedSize, if_pos hoff] at hreturned
  omega

/-- **The requests that stay inside the file** are those that begin behind it and those whose offset
and size do not wrap when added. -/
theorem staysInFile_iff (rd : State) (node : FsNode Unit) (offset size : BitVec 32) :
    StaysInFile rd node offset.toNat size.toNat ↔
      rd.headerLength node.inode < offset.toNat ∨ offset.toNat + size.toNat < 2 ^ 32 := by
  refine ⟨fun h => ?_, staysInFile_of_not_wrap⟩
  by_contra! hwrap
  exact not_staysInFile_of_wrap hwrap.1 hwrap.2 size.isLt h

/-- A ramdisk at address 0 whose first file has ten bytes. -/
def tenByteFile : State where
  mem a := if a = 133 then 10 else 0
  location := 0
  root := zeroFresh.root
  dev := zeroFresh.dev
  rootNodes := zeroFresh.nodes
  numRootNodes := 1
  dirEntry := ⟨fun _ => 0⟩

/-- A request of `2 ^ 32 - 1` bytes from offset 1 of the ten bytes is not clipped. -/
theorem large_request_leaves_file : tenByteFile.headerLength (tenByteFile.rootNodes 0).inode = 10 ∧
    ¬StaysInFile tenByteFile (tenByteFile.rootNodes 0) 1 (2 ^ 32 - 1) := by
  have hlength : tenByteFile.headerLength (tenByteFile.rootNodes 0).inode = 10 := by decide +kernel
  exact ⟨hlength, not_staysInFile_of_wrap (by omega) (by decide) (by decide)⟩

end Studix.Initrd
