import Studix.Mem.HeapInvariant

/-!
# Allocations keep the invariant

What `alloc` does to the blocks of the heap. The block comes from a hole: the memory before an
aligned block and the memory behind the block become holes. When no hole is large enough the heap
grows, which may first allocate page tables from holes. `alloc` has no check on several of the
values it computes; `AllocOk` says of a call, and of the calls it makes itself, that they come out
right.

## Main definitions

* `HoleOk`, `GrowOk`, `AllocOk`: the conditions.
* `Allocates`: the blocks before and after an allocation.

## Main results

* `allocFrom_spec`, `makeSpace_spec`, `alloc_spec`.
-/

namespace Studix.Mem

variable {m m' : Memory} {heap : Heap} {index : OrderedArray} {xs ys blocks : List Block}
  {a n total : ℕ} {t : Bool}

/-! ### Writing the pieces of a hole -/

/-- A header with the footer at the end of its block. -/
theorem headerAt_makeFooter_makeHeader (heap : Heap) (m : Memory) (t : Bool) (hn : minBlock ≤ n)
    (hlt : n < 2 ^ 32) :
    HeaderAt (makeFooter (makeHeader m a n t) (a + n - sizeofFooter) a) ⟨a, n, t⟩ ∧
      SameBeside heap a (a + n) m (makeFooter (makeHeader m a n t) (a + n - sizeofFooter) a) := by
  simp only [minBlock, sizeofHeader, sizeofFooter] at hn ⊢
  refine ⟨(headerAt_makeHeader m a t hlt).makeFooter ?_, fun x _ _ hx => ?_⟩
  · simp only [sizeofHeader]
    omega
  · rw [makeFooter_apply_of_notMem, makeHeader_apply_of_notMem]
    · simp only [sizeofHeader]
      omega
    · simp only [sizeofFooter]
      omega

/-- The address of the footer of a block. -/
theorem wsub_sizeofFooter (hn : minBlock ≤ n) (hlt : a + n < 2 ^ 32) :
    wsub (a + n) sizeofFooter = a + n - sizeofFooter := by
  refine wsub_eq ?_ hlt
  simp only [minBlock] at hn
  omega

theorem makeGap_spec (heap : Heap) (m : Memory) (hn : minBlock ≤ n) (hlt : a + n < 2 ^ 32) :
    HeaderAt (makeGap m a (a + n)) ⟨a, n, true⟩ ∧
      SameBeside heap a (a + n) m (makeGap m a (a + n)) := by
  have hsize : wsub (a + n) a = n := by
    rw [wsub_eq (by omega) hlt, Nat.add_sub_cancel_left]
  rw [makeGap, hsize, wsub_sizeofFooter hn hlt]
  exact headerAt_makeFooter_makeHeader heap m true hn (by omega)

theorem makeBlock_spec (heap : Heap) (m : Memory) (hn : minBlock ≤ n) (hlt : a + n < 2 ^ 32) :
    HeaderAt (makeBlock m a n) ⟨a, n, false⟩ ∧
      SameBeside heap a (a + n) m (makeBlock m a n) := by
  rw [makeBlock, wadd_eq hlt, wsub_sizeofFooter hn hlt]
  exact headerAt_makeFooter_makeHeader heap m false hn (by omega)

theorem makeRest_spec (heap : Heap) (m : Memory) (hn : minBlock ≤ n) (hlt : a + n < 2 ^ 32) :
    HeaderAt (makeRest m heap a n) ⟨a, n, true⟩ ∧
      SameBeside heap a (a + n) m (makeRest m heap a n) := by
  have hheader : HeaderAt (makeHeader m a n true) ⟨a, n, true⟩ :=
    headerAt_makeHeader m a true (by omega)
  have hfooter : assocFooter (makeHeader m a n true) a = a + n - 8 := by
    simp only [minBlock] at hn
    have hsize := hheader.size
    simp only at hsize
    rw [assocFooter, hsize, wadd_eq hlt, wsub_eq (by omega) hlt, sizeofFooter]
  simp only [minBlock, sizeofHeader, sizeofFooter] at hn
  simp only [makeRest, hfooter]
  split_ifs with hend
  · refine ⟨hheader.congr fun x hx hx' => ?_, fun x _ _ hx => ?_⟩
    · simp only [sizeofHeader] at hx'
      rw [store32_apply_of_notMem (by omega), store32_apply_of_notMem (by omega)]
    · rw [store32_apply_of_notMem (by omega), store32_apply_of_notMem (by omega),
        makeHeader_apply_of_notMem]
      simp only [sizeofHeader]
      omega
  · refine ⟨hheader, fun x _ _ hx => makeHeader_apply_of_notMem _ ?_⟩
    simp only [sizeofHeader]
    omega

theorem makeHole_spec (heap : Heap) (m : Memory) (hn : minBlock ≤ n) (hlt : a + n < 2 ^ 32) :
    HeaderAt (makeHole m a n) ⟨a, n, true⟩ ∧ SameBeside heap a (a + n) m (makeHole m a n) := by
  have hfooter : wsub (wadd a (headerSize (makeHeader m a n true) a)) sizeofFooter =
      a + n - sizeofFooter := by
    rw [headerSize_makeHeader _ (by omega), wadd_eq hlt]
    refine wsub_eq ?_ hlt
    simp only [minBlock] at hn
    omega
  rw [makeHole, hfooter]
  exact headerAt_makeFooter_makeHeader heap m true hn (by omega)

theorem resizeBlock_spec {n' : ℕ} (heap : Heap) (h : HeaderAt m ⟨a, n', t⟩) (hn : minBlock ≤ n)
    (hlt : a + n < 2 ^ 32) :
    HeaderAt (resizeBlock m a n) ⟨a, n, t⟩ ∧ SameBeside heap a (a + n) m (resizeBlock m a n) := by
  have hheader : HeaderAt (setHeaderSize m a n) ⟨a, n, t⟩ := h.setHeaderSize (by omega)
  have hfooter : assocFooter (setHeaderSize m a n) a = a + n - sizeofFooter := by
    simp only [minBlock] at hn
    rw [assocFooter, headerSize_setHeaderSize (by omega), wadd_eq hlt, wsub_eq (by omega) hlt]
  rw [resizeBlock, hfooter]
  simp only [minBlock, sizeofHeader, sizeofFooter] at hn ⊢
  refine ⟨hheader.makeFooter ?_, fun x _ _ hx => ?_⟩
  · simp only [sizeofHeader]
    omega
  · rw [makeFooter_apply_of_notMem, setHeaderSize_apply_of_notMem (by omega)]
    simp only [sizeofFooter]
    omega

/-! ### A block from a hole -/

/-- The blocks `blocks'` are the blocks `blocks` with a new block of `total` bytes, whose payload
starts at `p`. Holes and blocks that the call took for itself may have come and gone. -/
structure Allocates (blocks blocks' : List Block) (p total : ℕ) (align : Bool) : Prop where
  keeps : ∀ A ∈ blocks, A.tag = false → A ∈ blocks'
  new : ∃ B ∈ blocks', B.tag = false ∧ p = B.addr + sizeofHeader ∧ total ≤ B.size ∧
    (align = true → p % pageSize = 0) ∧ ∀ A ∈ blocks, A.tag = false → A.addr ≠ B.addr

theorem Allocates.of_keeps {blocks₁ blocks₂ : List Block} {p : ℕ} {align : Bool}
    (h : Allocates blocks₁ blocks₂ p total align)
    (hkeeps : ∀ A ∈ blocks, A.tag = false → A ∈ blocks₁) :
    Allocates blocks blocks₂ p total align := by
  obtain ⟨B, hB, htag, hp, hsize, halign, hne⟩ := h.new
  exact ⟨fun A hA hused => h.keeps A (hkeeps A hA hused) hused, B, hB, htag, hp, hsize, halign,
    fun A hA hused => hne A (hkeeps A hA hused) hused⟩

/-- **The new block and the hole behind it.** -/
theorem placeBlock_spec {k k' : Kernel} {p : ℕ} (h : Held m { k.heap with index } xs a n ys)
    (htotal : minBlock ≤ total)
    (hrest : total = n ∨ total + minBlock ≤ n ∧ index.size + 1 ≤ index.maxSize)
    (hplace : placeBlock k m index a n total = .ok (p, k')) :
    p = a + sizeofHeader ∧ (∃ mem index, k' = k.setIndex mem index) ∧
      ∃ zs, HeapInv k'.mem k'.heap (xs ++ ⟨a, total, false⟩ :: (zs ++ ys)) := by
  have hstart := h.start_le
  have hend : a + n ≤ k.heap.endAddr := h.le_end
  have hlt : k.heap.endAddr < 2 ^ 32 := h.bounds.end_lt
  have hle : total ≤ n := by omega
  have hptr : wadd a sizeofHeader = a + sizeofHeader := by
    simp only [minBlock] at htotal
    exact wadd_eq (by omega)
  obtain ⟨hheader, hsame⟩ := makeBlock_spec { k.heap with index } m (a := a) htotal (by omega)
  have hheld := h.congr (hsame.mono le_rfl (by omega))
  rw [placeBlock, hptr] at hplace
  obtain rfl | ⟨hsplit, hroom⟩ := hrest
  · rw [if_neg (lt_irrefl _)] at hplace
    cases hplace
    refine ⟨rfl, ⟨_, _, rfl⟩, [], ?_⟩
    rw [Kernel.setIndex_mem, Kernel.setIndex_heap]
    exact hheld.putBlock hheader
  · have hnew : wadd a total = a + total := wadd_eq (by omega)
    have hleft : wsub n total = n - total := wsub_eq hle (by omega)
    obtain ⟨hrest, hsame'⟩ := makeRest_spec { k.heap with index } (makeBlock m a total)
      (a := a + total) (n := n - total) (by omega) (by omega)
    have hbehind : a + total + (n - total) = a + n := by omega
    rw [hbehind] at hsame'
    have hmin : 0 < minBlock := by decide
    rw [if_pos (by omega), hnew, hleft] at hplace
    obtain ⟨⟨mem, index'⟩, hinsert, hk⟩ := except_bind_eq_ok.mp hplace
    cases hk
    obtain ⟨hcut, hbefore⟩ := (hheld.congr (hsame'.mono (by omega) le_rfl)).cutRest htotal hsplit
      hrest hroom hinsert
    have hheader' := hsame'.headerAt h.bounds hheader hstart htotal
      (by simp only [Tile.end_]; omega) (.inl le_rfl)
    refine ⟨rfl, ⟨_, _, rfl⟩, [⟨a + total, n - total, true⟩], ?_⟩
    rw [Kernel.setIndex_mem, Kernel.setIndex_heap]
    exact hcut.putBlock (hheader'.of_start_le hstart hbefore)

/-- The length of the gap in front of an aligned block in the hole at `e`, if the block's header
lies in the page of `e`. -/
def gapSize (e : ℕ) : ℕ := pageSize - sizeofHeader - e % pageSize

/-- What `alloc` does not check of the hole at `e`: it is not a null entry; the gap before an
aligned block has room for a header and a footer and does not leave the hole, and what it leaves
behind the block is nothing or has room for them; and the index has room for the entries it gets. -/
def HoleOk (k : Kernel) (total : ℕ) (align : Bool) (e : ℕ) : Prop :=
  e ≠ 0 ∧
    if align ∧ ¬aligned (e + sizeofHeader) then
      minBlock + sizeofHeader + e % pageSize ≤ pageSize ∧ gapSize e ≤ headerSize k.mem e ∧
        (headerSize k.mem e = gapSize e + total ∨
          gapSize e + total + minBlock ≤ headerSize k.mem e ∧
            k.heap.index.size + 1 ≤ k.heap.index.maxSize)
    else if headerSize k.mem e < total + minBlock then
      k.heap.index.size + 1 ≤ k.heap.index.maxSize
    else k.heap.index.size + 2 ≤ k.heap.index.maxSize

instance (k : Kernel) (total : ℕ) (align : Bool) (e : ℕ) : Decidable (HoleOk k total align e) :=
  inferInstanceAs (Decidable (_ ∧ _))

theorem findSmallestHole_eq_some {align : Bool} {i : ℕ}
    (h : findSmallestHole m heap total align = some i) :
    i < heap.index.size ∧ holeFits m (slot m heap.index i) total align :=
  ⟨List.mem_range.mp (List.mem_of_find?_eq_some h),
    List.find?_some (p := fun i => holeFits m (slot m heap.index i) total align) h⟩

theorem newHoleLoc_eq {e : ℕ} (he : e % pageSize + sizeofHeader ≤ pageSize)
    (hlt : e + gapSize e < 2 ^ 32) : newHoleLoc e = e + gapSize e := by
  have hand : e &&& 0xFFF = e % pageSize := Nat.and_two_pow_sub_one_eq_mod e 12
  simp only [newHoleLoc, hand, gapSize, wadd, wsub, pageSize, sizeofHeader] at *
  omega

/-- A new block in the memory of a hole. -/
theorem allocates_of_hole {H : Block} {xs' zs : List Block} {p size : ℕ} {align : Bool}
    (h : HeapInv m heap (xs ++ H :: ys)) (hH : H.tag = true) (hxs : xs ⊆ xs')
    (hle : H.addr ≤ a) (hlt : a < H.addr + H.size) (hp : p = a + sizeofHeader)
    (hsize : total ≤ size) (halign : align = true → p % pageSize = 0) :
    Allocates (xs ++ H :: ys) (xs' ++ ⟨a, size, false⟩ :: (zs ++ ys)) p total align := by
  have hH' : H ∈ xs ++ H :: ys := List.mem_append_right _ List.mem_cons_self
  refine ⟨fun A hA htag => ?_, ⟨a, size, false⟩, by simp, rfl, hp, hsize, halign,
    fun A hA htag heq => ?_⟩
  · have hne : A ≠ H := fun hAH => by simp [hAH, hH] at htag
    rcases List.mem_append.mp hA with hA | hA
    · exact List.mem_append_left _ (hxs hA)
    · have hA := (List.mem_cons.mp hA).resolve_left hne
      simp [hA]
  · obtain rfl | hbeside := h.tiles.beside hA hH'
    · simp [hH] at htag
    · have hsize := (h.of_mem hA).2.1
      simp only [Tile.end_, minBlock, sizeofHeader, sizeofFooter] at *
      omega

/-- **A block from the hole that `find_smallest_hole` found.** -/
theorem allocFrom_spec {k k' : Kernel} {p i : ℕ} {align : Bool}
    (hinv : HeapInv k.mem k.heap blocks) (htotal : minBlock ≤ total)
    (hfind : findSmallestHole k.mem k.heap total align = some i)
    (hok : HoleOk k total align (slot k.mem k.heap.index i))
    (halloc : allocFrom k total align i = .ok (p, k')) :
    (∃ mem index, k' = k.setIndex mem index) ∧
      ∃ blocks', HeapInv k'.mem k'.heap blocks' ∧ Allocates blocks blocks' p total align := by
  obtain ⟨hi, hfits⟩ := findSmallestHole_eq_some hfind
  obtain ⟨hne, hok⟩ := hok
  obtain ⟨H, hH, htag, haddr⟩ := hinv.exists_hole hi hne
  obtain ⟨e, hlookup, halloc⟩ := except_bind_eq_ok.mp halloc
  obtain rfl : H.addr = e := by
    obtain ⟨_, _, he⟩ := except_bind_eq_ok.mp hlookup
    exact haddr.trans (Except.ok.inj he)
  rw [← haddr] at hok hfits
  obtain ⟨hstart, hsize, hend⟩ := hinv.of_mem hH
  have hlt := hinv.bounds.end_lt
  have hpos : 0 < minBlock := by decide
  have hheader : headerSize k.mem H.addr = H.size := (hinv.headers H hH).size
  have hptr : wadd H.addr sizeofHeader = H.addr + sizeofHeader := by
    simp only [minBlock] at hsize
    exact wadd_eq (by omega)
  obtain ⟨xs, ys, rfl⟩ := List.append_of_mem hH
  simp only [hheader, hptr] at halloc hok
  simp only [holeFits, hheader, hptr] at hfits
  by_cases hgap : align = true ∧ ¬aligned (H.addr + sizeofHeader) = true
  · -- The block is put behind a gap.
    rw [if_pos hgap] at halloc hok
    obtain ⟨hroom, hle, hrest⟩ := hok
    have hfit : gapSize H.addr + total ≤ H.size := by
      simp only [hgap.1, hgap.2, if_true, Bool.false_eq_true, if_false, decide_eq_true_eq] at hfits
      have hoffset : pageSize - (H.addr + sizeofHeader) % pageSize = gapSize H.addr := by
        simp only [gapSize, pageSize, sizeofHeader, minBlock, sizeofFooter] at *
        omega
      rw [hoffset, wsub_eq hle (by omega)] at hfits
      omega
    have hmin : minBlock ≤ gapSize H.addr := by
      simp only [gapSize]
      omega
    have halign : (H.addr + gapSize H.addr + sizeofHeader) % pageSize = 0 := by
      simp only [gapSize, pageSize, sizeofHeader, minBlock, sizeofFooter] at hroom ⊢
      omega
    obtain ⟨hheader', hsame⟩ := makeGap_spec k.heap k.mem hmin (a := H.addr) (by omega)
    have hheld := hinv.leaveGap htag hmin (by omega) hsame hheader'
    have hgapSize : headerSize (makeGap k.mem H.addr (H.addr + gapSize H.addr)) H.addr =
        gapSize H.addr := hheader'.size
    have hkeep : ¬H.size - total < sizeofHeader + sizeofFooter := by
      simp only [minBlock] at hmin
      omega
    rw [newHoleLoc_eq (by omega) (by omega), hgapSize, wsub_eq (by omega) (by omega),
      wsub_eq (by omega) (by omega), if_neg hkeep] at halloc
    obtain ⟨hp, hk, zs, hinv'⟩ := placeBlock_spec hheld htotal
      (hrest.imp (by omega) fun h => ⟨by omega, h.2⟩) halloc
    exact ⟨hk, _, hinv', allocates_of_hole hinv htag (List.subset_append_left _ _) (by omega)
      (by omega) hp le_rfl fun _ => hp ▸ halign⟩
  · -- The block is put at the start of the hole.
    rw [if_neg hgap] at halloc hok
    have hfit : total ≤ H.size := by
      cases align with
      | false => simpa using hfits
      | true =>
        have hfront : aligned (H.addr + sizeofHeader) = true := by simpa using hgap
        simp only [hfront, if_true, decide_eq_true_eq] at hfits
        rwa [wsub_eq (Nat.zero_le _) (by omega), Nat.sub_zero] at hfits
    have halign : align = true → (H.addr + sizeofHeader) % pageSize = 0 := fun h =>
      aligned_iff.mp (not_not.mp fun hnot => hgap ⟨h, hnot⟩)
    have hroom : k.heap.index.size + 1 ≤ k.heap.index.maxSize := by
      split_ifs at hok <;> omega
    have hheld := hinv.take htag hroom hi haddr.symm
    rw [wsub_eq hfit (by omega)] at halloc
    split_ifs at halloc with hwhole
    · obtain ⟨hp, hk, zs, hinv'⟩ := placeBlock_spec hheld hsize (.inl rfl) halloc
      exact ⟨hk, _, hinv', allocates_of_hole hinv htag (List.Subset.refl _) le_rfl
        (by omega) hp hfit fun h => hp ▸ halign h⟩
    · have hsplit : total + minBlock ≤ H.size := by
        simp only [minBlock]
        omega
      rw [if_neg (by omega)] at hok
      obtain ⟨hp, hk, zs, hinv'⟩ := placeBlock_spec hheld htotal (.inr ⟨hsplit, hok⟩) halloc
      exact ⟨hk, _, hinv', allocates_of_hole hinv htag (List.Subset.refl _) le_rfl
        (by omega) hp le_rfl fun h => hp ▸ halign h⟩

/-! ### Growing the heap -/

/-- The heap of `k'` has the bounds of `heap` and the blocks `blocks`, those in use at least. -/
structure Keeps (heap : Heap) (blocks : List Block) (k' : Kernel) (blocks' : List Block) :
    Prop where
  inv : HeapInv k'.mem k'.heap blocks'
  kheap : k'.kheap = true
  start_eq : k'.heap.startAddr = heap.startAddr
  end_eq : k'.heap.endAddr = heap.endAddr
  keeps : ∀ A ∈ blocks, A.tag = false → A ∈ blocks'

theorem allocFrameAt_eq_ok {k k' : Kernel} {ref : Option PageRef} {kernel writeable : Bool}
    (h : allocFrameAt k ref kernel writeable = .ok k') :
    k'.mem = k.mem ∧ k'.heap = k.heap ∧ k'.kheap = k.kheap := by
  obtain ⟨r, page, frames, page', -, -, -, rfl⟩ := allocFrameAt_cases h
  exact ⟨rfl, rfl, rfl⟩

theorem allocFrameAt_numFrames {k k' : Kernel} {ref : Option PageRef}
    {kernel writeable : Bool} (h : allocFrameAt k ref kernel writeable = .ok k') :
    k'.numFrames = k.numFrames := by
  obtain ⟨r, page, frames, page', -, -, -, rfl⟩ := allocFrameAt_cases h
  rfl

/-- A page table that has to be made is allocated from a hole. -/
def TableOk (k : Kernel) : Prop :=
  ∃ i, findSmallestHole k.mem k.heap (pageTableSize + minBlock) true = some i ∧
    HoleOk k (pageTableSize + minBlock) true (slot k.mem k.heap.index i)

theorem total_eq {size : ℕ} (h : size + minBlock < 2 ^ 32) :
    wadd (wadd size sizeofHeader) sizeofFooter = size + minBlock := by
  simp only [minBlock] at h ⊢
  rw [wadd_eq (a := size) (by omega), wadd_eq (by omega), Nat.add_assoc]

/-- A call of `alloc` that finds a hole. -/
theorem alloc_of_hole {k : Kernel} {depth size i : ℕ} {align : Bool} {r : ℕ × Kernel}
    (hsize : size + minBlock < 2 ^ 32)
    (hfind : findSmallestHole k.mem k.heap (size + minBlock) align = some i)
    (h : alloc depth k size align = .ok r) : allocFrom k (size + minBlock) align i = .ok r := by
  cases depth with
  | zero => cases h
  | succ depth =>
    simpa only [alloc, total_eq hsize, hfind] using h

/-- **`get_page` keeps the invariant**, also when it allocates a page table. -/
theorem getPage_keeps {k k' : Kernel} {depth addr : ℕ} {ref : Option PageRef}
    (hinv : HeapInv k.mem k.heap blocks) (hkheap : k.kheap = true)
    (hok : k.kernelDir.tables (pageRef addr).1 = none → TableOk k)
    (h : getPage (alloc depth) k addr true = .ok (ref, k')) :
    ∃ blocks', Keeps k.heap blocks k' blocks' := by
  by_cases htable : (k.kernelDir.tables (pageRef addr).1).isSome
  · rw [getPage_of_table htable] at h
    cases h
    exact ⟨blocks, hinv, hkheap, rfl, rfl, fun A hA _ => hA⟩
  · obtain ⟨i, hfind, hhole⟩ := hok (Option.not_isSome_iff_eq_none.mp htable)
    simp only [getPage, htable, if_true, Bool.false_eq_true, if_false] at h
    obtain ⟨⟨table, physAddr, k₁⟩, hmalloc, hk'⟩ := except_bind_eq_ok.mp h
    cases hk'
    simp only [kmallocAp, kmallocAux, hkheap, if_true] at hmalloc
    obtain ⟨⟨addr', k₂⟩, halloc, hphys⟩ := except_bind_eq_ok.mp hmalloc
    obtain ⟨rfl, rfl⟩ : addr' = table ∧ k₂ = k₁ := by
      simp only at hphys
      split at hphys
      · cases hphys
      · cases hphys
        exact ⟨rfl, rfl⟩
    obtain ⟨⟨mem, index, rfl⟩, blocks', hinv', hkeeps, B, hB, htag, rfl, hsize, -, -⟩ :=
      allocFrom_spec hinv (Nat.le_add_left _ _) hfind hhole (alloc_of_hole (by decide) hfind halloc)
    refine ⟨blocks', hinv'.congr fun x _ _ hx => ?_, hkheap, rfl, rfl, hkeeps⟩
    have hout := hx B hB htag
    simp only [Payload, Tile.end_, pageTableSize, minBlock] at hout hsize
    have htable : memset mem (B.addr + sizeofHeader) 0 pageSize x = mem x := by
      refine blit_apply_of_notMem mem _ ?_
      simp only [pageSize]
      omega
    exact htable

theorem Keeps.trans {k₁ k₂ : Kernel} {blocks₁ blocks₂ : List Block}
    (h₁ : Keeps heap blocks k₁ blocks₁) (h₂ : Keeps k₁.heap blocks₁ k₂ blocks₂) :
    Keeps heap blocks k₂ blocks₂ :=
  ⟨h₂.inv, h₂.kheap, h₂.start_eq.trans h₁.start_eq, h₂.end_eq.trans h₁.end_eq,
    fun A hA htag => h₂.keeps A (h₁.keeps A hA htag) htag⟩

/-- The page tables that `expand` has to make are allocated from holes. -/
def TablesOk (alloc : Alloc) (k : Kernel) (newSize : ℕ) : Prop :=
  let oldSize := wsub k.heap.endAddr k.heap.startAddr
  ∀ n k', oldSize + pageSize * n < newSize → forLoopM (expandPage alloc oldSize) n k = .ok k' →
    k'.kernelDir.tables (pageRef (wadd k'.heap.startAddr (oldSize + pageSize * n))).1 = none →
      TableOk k'

/-- **The loop of `expand` keeps the invariant.** -/
theorem expandPages_keeps {k k' : Kernel} {depth oldSize count : ℕ}
    (hinv : HeapInv k.mem k.heap blocks) (hkheap : k.kheap = true)
    (hok : ∀ n t, n < count → forLoopM (expandPage (alloc depth) oldSize) n k = .ok t →
      t.kernelDir.tables (pageRef (wadd t.heap.startAddr (oldSize + pageSize * n))).1 = none →
        TableOk t)
    (h : forLoopM (expandPage (alloc depth) oldSize) count k = .ok k') :
    ∃ blocks', Keeps k.heap blocks k' blocks' := by
  -- Each iteration starts in a state that the ones before it have reached.
  refine (forLoopM_invariant
    (fun n t => forLoopM (expandPage (alloc depth) oldSize) n k = .ok t ∧
      ∃ blocks', Keeps k.heap blocks t blocks')
    ⟨rfl, blocks, hinv, hkheap, rfl, rfl, fun A hA _ => hA⟩ ?_ h).2
  rintro n t t' hn ⟨hreach, blocks₁, hkeeps⟩ hbody
  refine ⟨by rw [forLoopM, hreach, except_ok_bind, hbody], ?_⟩
  obtain ⟨⟨ref, t₁⟩, hpage, hframe⟩ := except_bind_eq_ok.mp hbody
  obtain ⟨blocks₂, hkeeps₂⟩ := getPage_keeps hkeeps.inv hkeeps.kheap (hok n t hn hreach) hpage
  obtain ⟨hmem, hheap, hkheap₂⟩ := allocFrameAt_eq_ok hframe
  have hkeeps' : Keeps t.heap blocks₁ t' blocks₂ := by
    refine ⟨?_, hkheap₂.trans hkeeps₂.kheap, ?_, ?_, hkeeps₂.keeps⟩
    · rw [hmem, hheap]
      exact hkeeps₂.inv
    · rw [hheap, hkeeps₂.start_eq]
    · rw [hheap, hkeeps₂.end_eq]
  exact ⟨blocks₂, hkeeps.trans hkeeps'⟩

/-- **`expand` keeps the invariant**, with the new memory in hand. -/
theorem expand_spec {k k' : Kernel} {depth : ℕ} (hinv : HeapInv k.mem k.heap blocks)
    (hkheap : k.kheap = true) (htotal : minBlock ≤ total)
    (hwrap : k.heap.endAddr + total + pageSize ≤ 2 ^ 32)
    (hok : TablesOk (alloc depth) k (alignUp (k.heap.endAddr - k.heap.startAddr + total)))
    (h : expand (alloc depth) k (k.heap.endAddr - k.heap.startAddr + total) = .ok k') :
    k'.kheap = true ∧ ∃ blocks' n, Held k'.mem k'.heap blocks' k.heap.endAddr n [] ∧
      wsub (wsub k'.heap.endAddr k'.heap.startAddr) (k.heap.endAddr - k.heap.startAddr) = n ∧
      ∀ A ∈ blocks, A.tag = false → A ∈ blocks' := by
  have hmin := hinv.bounds.min_le
  have hpos := hinv.bounds.start_pos
  obtain ⟨hle, hlt, hmod⟩ := alignUp_bounds
    (show k.heap.endAddr - k.heap.startAddr + total + pageSize ≤ 2 ^ 32 by omega)
  obtain ⟨_, _, h⟩ := except_bind_eq_ok.mp h
  obtain ⟨_, _, h⟩ := except_bind_eq_ok.mp h
  obtain ⟨k₁, hloop, hk'⟩ := except_bind_eq_ok.mp h
  set newLength := alignUp (k.heap.endAddr - k.heap.startAddr + total)
  obtain ⟨blocks', hkeeps⟩ := expandPages_keeps hinv hkheap
    (fun n t hn => hok n t (by simp only [pageSize] at hn ⊢; omega)) hloop
  have hend : wadd k₁.heap.startAddr newLength = k.heap.startAddr + newLength := by
    rw [hkeeps.start_eq, wadd_eq (by omega)]
  have hheld := hkeeps.inv.grow (k.heap.startAddr + newLength)
    (by rw [hkeeps.end_eq]; omega) (by omega)
    (by rw [hkeeps.start_eq, Nat.add_sub_cancel_left]; exact hmod)
  rw [hkeeps.end_eq] at hheld
  rw [hend] at hk'
  obtain rfl := Except.ok.inj hk'
  refine ⟨hkeeps.kheap, blocks', _, hheld, ?_, hkeeps.keeps⟩
  have hlength : wsub (k.heap.startAddr + newLength) k.heap.startAddr = newLength := by
    rw [wsub_eq (by omega) (by omega), Nat.add_sub_cancel_left]
  simp only [hkeeps.start_eq]
  rw [hlength, wsub_eq (by omega) (by omega)]
  omega

/-- What `make_space` does not check of the index, after the heap has grown from `oldEndAddr`: there
is room for an entry, or the entry at the index it computes is the hole at the old end. -/
def LastOk (k : Kernel) (oldEndAddr : ℕ) : Prop :=
  match (lastHeader k.mem k.heap.index k.heap.index.size).1 with
  | none => k.heap.index.size + 1 ≤ k.heap.index.maxSize
  | some i => slot k.mem k.heap.index i ≠ 0 ∧
      slot k.mem k.heap.index i + headerSize k.mem (slot k.mem k.heap.index i) = oldEndAddr

/-- **The new memory becomes part of a hole.** -/
theorem addSpace_spec {k k' : Kernel} (h : Held k.mem k.heap blocks a n []) (hok : LastOk k a)
    (hadd : addSpace k a n = .ok k') :
    k'.kheap = k.kheap ∧ ∃ blocks', HeapInv k'.mem k'.heap blocks' ∧
      ∀ A ∈ blocks, A.tag = false → A ∈ blocks' := by
  have hend := h.le_end
  have hlt := h.bounds.end_lt
  rw [LastOk] at hok
  rw [addSpace] at hadd
  split at hadd
  next i hi =>
    rw [hi] at hok
    obtain ⟨hne, hlast⟩ := hok
    obtain ⟨e, hlookup, hadd⟩ := except_bind_eq_ok.mp hadd
    obtain ⟨_, hsize, he⟩ := except_bind_eq_ok.mp hlookup
    obtain rfl : slot k.mem k.heap.index i = e := Except.ok.inj he
    obtain ⟨H, hH, htag, haddr⟩ := h.exists_hole (by simpa using hsize) hne
    rw [List.append_nil] at hH
    have hheader := h.headers H (by simpa using hH)
    rw [← haddr, hheader.size] at hlast
    rw [← haddr, hheader.size] at hadd
    -- The hole ends where the new memory starts, so it is the last block.
    obtain ⟨xs, ys, rfl, hxs, hsize, hys⟩ := h.left.exists_eq_append hH
    rw [Tile.end_, hlast] at hys
    obtain rfl := hys.eq_nil (by decide)
    rw [wadd_eq (by omega)] at hadd
    obtain ⟨hheader', hsame⟩ := resizeBlock_spec k.heap (a := H.addr) (n := H.size + n) hheader
      (by omega) (by omega)
    rw [htag] at hheader'
    have hsame' : SameBeside k.heap H.addr (a + n) k.mem (resizeBlock k.mem H.addr (H.size + n)) :=
      hsame.mono le_rfl (by omega)
    have hinv := h.joinLeft htag hsame' hheader'
    obtain rfl := Except.ok.inj hadd
    refine ⟨rfl, xs ++ [⟨H.addr, H.size + n, true⟩], ?_, fun A hA hused => ?_⟩
    · dsimp only
      exact hinv
    · have hne : A ≠ H := fun hAH => by simp [hAH, htag] at hused
      exact List.mem_append_left _ (by simpa [hne] using hA)
  next hi =>
    rw [hi] at hok
    obtain ⟨⟨mem, index⟩, hinsert, hadd⟩ := except_bind_eq_ok.mp hadd
    cases hadd
    obtain ⟨hheader, hsame⟩ := makeHole_spec k.heap k.mem h.size (a := a) (by omega)
    have hinv := (h.congr hsame).putHole hheader hok hinsert
    exact ⟨rfl, _, hinv, fun A hA _ => List.mem_append_left _ hA⟩

/-- What `make_space` does not check: the end of the heap does not wrap, the page tables come from
holes, and the new memory goes to the hole at the end. -/
structure GrowOk (alloc : Alloc) (k : Kernel) (neededSize : ℕ) : Prop where
  no_wrap : k.heap.endAddr + neededSize + pageSize ≤ 2 ^ 32
  tables : TablesOk alloc k (alignUp (k.heap.endAddr - k.heap.startAddr + neededSize))
  last : ∀ k', expand alloc k (k.heap.endAddr - k.heap.startAddr + neededSize) = .ok k' →
    LastOk k' k.heap.endAddr

/-- **`make_space` keeps the invariant.** -/
theorem makeSpace_spec {k k' : Kernel} {depth : ℕ} (hinv : HeapInv k.mem k.heap blocks)
    (hkheap : k.kheap = true) (htotal : minBlock ≤ total) (hok : GrowOk (alloc depth) k total)
    (h : makeSpace (alloc depth) k total = .ok k') :
    k'.kheap = true ∧ ∃ blocks', HeapInv k'.mem k'.heap blocks' ∧
      ∀ A ∈ blocks, A.tag = false → A ∈ blocks' := by
  have hwrap := hok.no_wrap
  have hmin := hinv.bounds.min_le
  have hpos := hinv.bounds.start_pos
  have hsize : wsub k.heap.endAddr k.heap.startAddr = k.heap.endAddr - k.heap.startAddr :=
    wsub_eq (by omega) hinv.bounds.end_lt
  have hnew : wadd (k.heap.endAddr - k.heap.startAddr) total =
      k.heap.endAddr - k.heap.startAddr + total := wadd_eq (by omega)
  rw [makeSpace, hsize, hnew] at h
  obtain ⟨k₁, hexpand, h⟩ := except_bind_eq_ok.mp h
  obtain ⟨hkheap₁, blocks₁, n, hheld, hgrowth, hkeeps₁⟩ :=
    expand_spec hinv hkheap htotal hwrap hok.tables hexpand
  simp only [hgrowth] at h
  obtain ⟨hkheap', blocks', hinv', hkeeps'⟩ := addSpace_spec hheld (hok.last k₁ hexpand) h
  exact ⟨hkheap'.trans hkheap₁, blocks', hinv', fun A hA htag =>
    hkeeps' A (hkeeps₁ A hA htag) htag⟩

/-! ### `alloc` -/

/-- **What a call of `alloc` does not check**: the size with header and footer does not wrap, the
hole it finds can be split, or else the heap can grow and the call it makes then is such a call
again. -/
def AllocOk : ℕ → Kernel → ℕ → Bool → Prop
  | 0, _, _, _ => True
  | depth + 1, k, size, align =>
    size + minBlock < 2 ^ 32 ∧
      match findSmallestHole k.mem k.heap (size + minBlock) align with
      | some i => HoleOk k (size + minBlock) align (slot k.mem k.heap.index i)
      | none => GrowOk (alloc depth) k (size + minBlock) ∧
          ∀ k', makeSpace (alloc depth) k (size + minBlock) = .ok k' → AllocOk depth k' size align

/-- A call that finds a hole depends on the hole only. -/
theorem allocOk_of_hole {k : Kernel} {size i : ℕ} {align : Bool} (hsize : size + minBlock < 2 ^ 32)
    (hfind : findSmallestHole k.mem k.heap (size + minBlock) align = some i)
    (hhole : HoleOk k (size + minBlock) align (slot k.mem k.heap.index i)) (depth : ℕ) :
    AllocOk depth k size align := by
  cases depth with
  | zero => trivial
  | succ depth =>
    refine ⟨hsize, ?_⟩
    rw [hfind]
    exact hhole

/-- **`alloc` keeps the invariant and returns the payload of a new block.** -/
theorem alloc_spec {k k' : Kernel} {depth size p : ℕ} {align : Bool}
    (hinv : HeapInv k.mem k.heap blocks) (hkheap : k.kheap = true)
    (hok : AllocOk depth k size align) (h : alloc depth k size align = .ok (p, k')) :
    k'.kheap = true ∧ ∃ blocks', HeapInv k'.mem k'.heap blocks' ∧
      Allocates blocks blocks' p (size + minBlock) align := by
  induction depth generalizing k blocks with
  | zero => cases h
  | succ depth ih =>
    obtain ⟨hsize, hok⟩ := hok
    cases hfind : findSmallestHole k.mem k.heap (size + minBlock) align with
    | some i =>
      rw [hfind] at hok
      obtain ⟨⟨mem, index, rfl⟩, hblocks⟩ :=
        allocFrom_spec hinv (Nat.le_add_left _ _) hfind hok (alloc_of_hole hsize hfind h)
      exact ⟨hkheap, hblocks⟩
    | none =>
      rw [hfind] at hok
      obtain ⟨hgrow, hagain⟩ := hok
      simp only [alloc, total_eq hsize, hfind] at h
      obtain ⟨k₁, hspace, halloc⟩ := except_bind_eq_ok.mp h
      obtain ⟨hkheap₁, blocks₁, hinv₁, hkeeps⟩ :=
        makeSpace_spec hinv hkheap (Nat.le_add_left _ _) hgrow hspace
      obtain ⟨hkheap', blocks', hinv', hnew⟩ := ih hinv₁ hkheap₁ (hagain k₁ hspace) halloc
      exact ⟨hkheap', blocks', hinv', hnew.of_keeps hkeeps⟩

end Studix.Mem
