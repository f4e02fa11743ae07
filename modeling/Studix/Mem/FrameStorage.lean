import Studix.Mem.InitPaging

/-!
# The storage of the frame bitmap

`init_paging` asks `kmalloc` for `BIT_INDEX(num_frames)` bytes, the number of the bitmap's *words*,
and clears as many. The words of the frames from 4096 on lie behind that memory: in the gap in front
of the page directory when the gap is large enough, else in the directory.

## Main definitions

* `reserveBitmap`, `bitmapWord`.
* `PlacedAfter`: the placement allocations behind the bitmap.
* `WordFits`: the word of a frame lies in memory of its own.

## Main results

* `wordFits_iff`: the frames whose words lie in the reserved memory.
* `bitmap_apart_directory_iff`: when the words behind it leave the directory alone.
-/

namespace Studix.Mem

/-- The number of frames of `init_paging`'s physical memory. -/
def bootFrames : ℕ := 0x4000000 / pageSize

/-- The reservation of the bitmap in `init_paging`. -/
def reserveBitmap (alloc : Alloc) (k : Kernel) : Except Stop (ℕ × Kernel) :=
  kmalloc alloc { k with numFrames := bootFrames } (bitIndex bootFrames)

/-- The address of the word of frame `n`, for a bitmap at `frames`. -/
def bitmapWord (frames n : ℕ) : ℕ := frames + 4 * bitIndex n

/-- A word and `size` bytes from `addr` on have no byte in common. -/
def WordApart (word addr size : ℕ) : Prop := word + 4 ≤ addr ∨ addr + size ≤ word

/-- `size` bytes from `addr` on come from the placement allocator after the state `k`, which has not
run over the end of the address space. -/
def PlacedAfter (alloc : Alloc) (k : Kernel) (addr size : ℕ) : Prop :=
  ∃ k₁ align phys r, k₁.kheap = false ∧ k.placementAddr ≤ k₁.placementAddr ∧
    k₁.placementAddr + pageSize ≤ 2 ^ 32 ∧
    kmallocAux alloc k₁ size align phys = .ok (addr, r)

/-- The word of frame `n` lies in the memory that `init_paging` reserves for the bitmap, is cleared,
and is apart from everything the placement allocator hands out afterwards. -/
structure WordFits (alloc : Alloc) (k : Kernel) (n : ℕ) : Prop where
  reserved : ∀ frames k₁, reserveBitmap alloc k = .ok (frames, k₁) →
    frames ≤ bitmapWord frames n ∧ bitmapWord frames n + 4 ≤ k₁.placementAddr
  cleared : ∀ k', placeDirectory alloc k = .ok k' → k'.frames (bitIndex n) = 0
  apart : ∀ frames k₁ addr size, reserveBitmap alloc k = .ok (frames, k₁) →
    PlacedAfter alloc k₁ addr size → WordApart (bitmapWord frames n) addr size

/-- `init_paging` up to the directory begins with the reservation. -/
theorem placeDirectory_eq (alloc : Alloc) (k : Kernel) :
    placeDirectory alloc k = (do
      let (frames, k) ← reserveBitmap alloc k
      let bytes := bitIndex bootFrames
      let k := { k with
        mem := memset k.mem frames 0 bytes
        frames := fun i => if 4 * i < bytes then 0 else k.frames i }
      let (dir, k) ← kmallocA alloc k sizeofPageDir
      .ok { k with
        mem := memset k.mem dir 0 sizeofPageDir
        kernelDir := ⟨dir, fun _ => none, fun _ => 0⟩ }) := rfl

theorem bitIndex_bootFrames : bitIndex bootFrames = 512 := rfl

section

variable {alloc : Alloc} {k : Kernel}

/-- The reserved memory: 512 bytes from `placement_addr` on. -/
theorem reserveBitmap_spec (alloc : Alloc) (hheap : k.kheap = false)
    (hplace : k.placementAddr + 512 < 2 ^ 32) :
    reserveBitmap alloc k = .ok (k.placementAddr,
      { k with numFrames := bootFrames, placementAddr := k.placementAddr + 512 }) := by
  rw [reserveBitmap, bitIndex_bootFrames]
  rw [kmalloc_placement (k := { k with numFrames := bootFrames }) alloc 512 hheap]
  simp only [wadd_eq hplace]

theorem PlacedAfter.le {addr size : ℕ} (h : PlacedAfter alloc k addr size) :
    k.placementAddr ≤ addr := by
  obtain ⟨k₁, align, phys, r, hheap, hle, hend, halloc⟩ := h
  rw [kmallocAux_placement hheap] at halloc
  obtain ⟨haddr, -⟩ := Prod.mk.inj (Except.ok.inj halloc)
  have hbounds := alignUp_bounds hend
  rw [← haddr, Kernel.nextPlacement]
  split_ifs
  · omega
  · exact hle

theorem placedAfter_alignUp (size : ℕ) (hheap : k.kheap = false)
    (hend : k.placementAddr + pageSize ≤ 2 ^ 32) :
    PlacedAfter alloc k (alignUp k.placementAddr) size :=
  ⟨k, true, false, _, hheap, le_rfl, hend, kmallocAux_placement hheap true false⟩

/-- The directory is the next allocation behind the bitmap, on the next page. -/
theorem placeDirectory_placed (alloc : Alloc) (hheap : k.kheap = false)
    (hplace : k.placementAddr + 512 + pageSize ≤ 2 ^ 32) :
    ∃ k', placeDirectory alloc k = .ok k' ∧
      (k'.frames = fun i => if 4 * i < 512 then 0 else k.frames i) ∧
      k'.kernelDir.addr = alignUp (k.placementAddr + 512) ∧
      ∀ frames k₁, reserveBitmap alloc k = .ok (frames, k₁) →
        PlacedAfter alloc k₁ k'.kernelDir.addr sizeofPageDir := by
  have hpage : pageSize = 4096 := rfl
  rw [placeDirectory_eq, reserveBitmap_spec alloc hheap (by omega), except_ok_bind,
    bitIndex_bootFrames]
  dsimp only
  rw [kmallocA_placement, except_ok_bind]
  · refine ⟨_, rfl, rfl, rfl, fun frames k₁ h => ?_⟩
    obtain ⟨-, rfl⟩ := Prod.mk.inj (Except.ok.inj h)
    exact placedAfter_alignUp (k := { k with
      numFrames := bootFrames, placementAddr := k.placementAddr + 512 }) sizeofPageDir hheap hplace
  · exact hheap

/-- **The frames whose words fit.** Wherever `placement_addr` is when `init_paging` is entered, the
word of a frame lies in the memory reserved and cleared for the bitmap, apart from all later
allocations, exactly when the frame is one of the first 4096: a quarter of the bitmap. -/
theorem wordFits_iff (alloc : Alloc) (hheap : k.kheap = false)
    (hplace : k.placementAddr + 512 + pageSize ≤ 2 ^ 32) (n : ℕ) :
    WordFits alloc k n ↔ n < 4096 := by
  have hpage : pageSize = 4096 := rfl
  have hreserve := reserveBitmap_spec alloc hheap (by omega)
  constructor
  · intro h
    obtain ⟨-, hend⟩ := h.reserved _ _ hreserve
    simp only [bitmapWord, bitIndex] at hend
    omega
  · intro hn
    have hword : 4 * bitIndex n + 4 ≤ 512 := by
      rw [bitIndex]
      omega
    refine ⟨fun frames k₁ h => ?_, fun k' h => ?_, fun frames k₁ addr size h hafter => ?_⟩
    · rw [hreserve] at h
      obtain ⟨rfl, rfl⟩ := Prod.mk.inj (Except.ok.inj h)
      simp only [bitmapWord]
      omega
    · obtain ⟨k'', hok, hframes, -, -⟩ := placeDirectory_placed alloc hheap hplace
      rw [hok] at h
      obtain rfl := Except.ok.inj h
      rw [hframes]
      exact if_pos (by omega)
    · rw [hreserve] at h
      obtain ⟨rfl, rfl⟩ := Prod.mk.inj (Except.ok.inj h)
      have hle : k.placementAddr + 512 ≤ addr := hafter.le
      exact Or.inl (by simp only [bitmapWord]; omega)

/-- **When the bitmap leaves the directory alone.** The words of all frames are apart from the page
directory exactly when the directory begins 2048 bytes or more behind the bitmap's beginning. -/
theorem bitmap_apart_directory_iff (alloc : Alloc) (hheap : k.kheap = false)
    (hplace : k.placementAddr + 512 + pageSize ≤ 2 ^ 32) :
    ∃ k', placeDirectory alloc k = .ok k' ∧
      ((∀ n < bootFrames, WordApart (bitmapWord k.placementAddr n) k'.kernelDir.addr
        sizeofPageDir) ↔ k.placementAddr + 2048 ≤ k'.kernelDir.addr) := by
  obtain ⟨k', hok, -, hdir, -⟩ := placeDirectory_placed alloc hheap hplace
  have hbounds := alignUp_bounds hplace
  have hpage : pageSize = 4096 := rfl
  refine ⟨k', hok, ?_⟩
  rw [hdir]
  constructor
  · intro h
    -- The last word is the one that reaches furthest.
    have hlast := h 16383 (by decide)
    simp only [WordApart, bitmapWord, bitIndex, sizeofPageDir] at hlast
    omega
  · intro h n hn
    have hword : bitIndex n ≤ 511 := by
      have hn' : n < 16384 := hn
      rw [bitIndex]
      omega
    exact Or.inl (by simp only [bitmapWord]; omega)

end

/-- The word of the last frame below 16 MiB, for a kernel that ends at 2 MiB. -/
theorem wordFits_bootKernel : bootKernel.kheap = false ∧
    bootKernel.placementAddr + 512 + pageSize ≤ 2 ^ 32 ∧ WordFits (alloc 1) bootKernel 4095 :=
  ⟨rfl, by decide, (wordFits_iff (alloc 1) rfl (by decide) 4095).mpr (by decide)⟩

/-- With `placement_addr` at `0x200C00`, the word of frame 8192 is the first of the directory. -/
theorem bitmap_word_in_directory :
    ∃ k', placeDirectory (alloc 1) { bootKernel with placementAddr := 0x200C00 } = .ok k' ∧
      8192 < bootFrames ∧ bitmapWord 0x200C00 8192 = k'.kernelDir.addr ∧
      ¬∀ n < bootFrames, WordFits (alloc 1) { bootKernel with placementAddr := 0x200C00 } n := by
  obtain ⟨k', hok, -, hdir, -⟩ := placeDirectory_placed (alloc 1)
    (k := { bootKernel with placementAddr := 0x200C00 }) rfl (by decide)
  refine ⟨k', hok, by decide, by rw [hdir]; decide, fun h => ?_⟩
  have hreserve := reserveBitmap_spec (alloc 1)
    (k := { bootKernel with placementAddr := 0x200C00 }) rfl (by decide)
  exact absurd ((h 8192 (by decide)).reserved _ _ hreserve).2 (by decide)

end Studix.Mem
