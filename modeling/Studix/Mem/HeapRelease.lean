import Studix.Mem.HeapSafety

/-!
# The steps of a release

What the steps of `free` do in the heap of this kernel, whose blocks have their headers and footers.
`unify_left` looks for the footer of the block in front twelve bytes before the block, where a
footer starts eight bytes before it. What it takes for the pointer to a header is then the magic
number of that footer, and the test holds when the payload of the block in front ends with the magic
number (`IsLeftFooter`). Otherwise nothing is merged on the left.

## Main definitions

* `KernelHeap`, `WellFormed`: the heap before the release.

## Main results

* `freeBlock_cases`, `unifyRight_cases`, `freeContract_cases`: what the steps of `free` do.
* `WellFormed.left_footer`: what `unify_left` finds.
* `WellFormed.unifyRight_effect`: what `unify_right` does behind it.
-/

namespace Studix.Mem

variable {m m' : Memory} {heap : Heap} {blocks xs ys : List Block} {B L R : Block} {k k' : Kernel}
  {alloc : Alloc} {header footer : ℕ}

/-! ### The heap of this kernel -/

/-- The heap lies where `init_paging` puts it: the index, ordered by `header_comparer`, from
`HEAP_START` on, and the blocks right behind it. -/
structure KernelHeap (heap : Heap) : Prop where
  comparer : heap.index.comparer = some headerComparer
  array : heap.index.array = heapStart
  maxSize : heap.index.maxSize = heapIndexSize
  start : heap.startAddr = heapStart + 4 * heapIndexSize
  end_le : heap.endAddr ≤ heapStart + heapMaxSize

/-- The heap of this kernel with its blocks. Every block ends with its footer but for a hole at the
end of the heap. -/
structure WellFormed (m : Memory) (heap : Heap) (blocks : List Block) : Prop where
  inv : HeapInv m heap blocks
  layout : KernelHeap heap
  footers : ∀ B ∈ blocks, B.tag = false ∨ B.end_ ≠ heap.endAddr → FooterAt m B

theorem heapMagic_add_lt_heapStart : heapMagic + sizeofHeader < heapStart := by decide

/-! ### The steps of `free` -/

/-- What `unify_right` does. -/
theorem unifyRight_cases {k₁ : Kernel} {footer' : ℕ}
    (h : unifyRight k header footer = .ok (k₁, footer')) :
    (IsHoleAt k.mem (wadd footer sizeofFooter) ∧ ∃ mem i,
      mem = setHeaderSize k.mem header (wadd (headerSize k.mem header)
        (headerSize k.mem (wadd footer sizeofFooter))) ∧
      i < k.heap.index.size ∧ slot mem k.heap.index i = wadd footer sizeofFooter ∧
      k₁ = k.setIndex (orderedArrayRemove mem k.heap.index i).1
        (orderedArrayRemove mem k.heap.index i).2 ∧
      footer' = wsub (wadd (wadd footer sizeofFooter)
        (headerSize mem (wadd footer sizeofFooter))) sizeofFooter) ∨
    ¬IsHoleAt k.mem (wadd footer sizeofFooter) ∧ k₁ = k ∧ footer' = footer := by
  simp only [unifyRight] at h
  by_cases hright : IsHoleAt k.mem (wadd footer sizeofFooter)
  · refine .inl ⟨hright, ?_⟩
    rw [IsHoleAt] at hright
    rw [if_pos hright] at h
    split at h
    · cases h
    next i hfind =>
      obtain ⟨hi, hslot⟩ := findHeaderIndex_eq_some hfind
      obtain ⟨rfl, rfl⟩ := Prod.mk.inj (Except.ok.inj h)
      exact ⟨_, i, rfl, hi, hslot, rfl, rfl⟩
  · refine .inr ⟨hright, ?_⟩
    rw [IsHoleAt] at hright
    rw [if_neg hright] at h
    obtain ⟨rfl, rfl⟩ := Prod.mk.inj (Except.ok.inj h)
    exact ⟨rfl, rfl⟩

/-- The length to which `contract` brings the heap for a hole at `header`. -/
def contractLength (heap : Heap) (header : ℕ) : ℕ :=
  max (alignUp (wsub header heap.startAddr)) heapMinSize

/-- What the end of `free` does: nothing, or the heap gets another end and the hole is resized or
dropped. -/
theorem freeContract_cases (h : freeContract alloc k header footer = .ok k') :
    (wadd footer sizeofFooter ≠ k.heap.endAddr ∧ k' = k) ∨
    wadd footer sizeofFooter = k.heap.endAddr ∧ ∃ loss heap',
      loss = wsub (wsub k.heap.endAddr k.heap.startAddr) (contractLength k.heap header) ∧
      heap' = { k.heap with endAddr := wadd k.heap.startAddr (contractLength k.heap header) } ∧
      ((loss < headerSize k.mem header ∧ k'.heap = heap' ∧
          k'.mem = resizeBlock k.mem header (wsub (headerSize k.mem header) loss)) ∨
        headerSize k.mem header ≤ loss ∧
          ((k'.heap = heap' ∧ k'.mem = k.mem) ∨
            ∃ i < k.heap.index.size, slot k.mem k.heap.index i = header ∧
              k'.mem = (orderedArrayRemove k.mem k.heap.index i).1 ∧
              k'.heap = { heap' with index := (orderedArrayRemove k.mem k.heap.index i).2 })) := by
  simp only [freeContract] at h
  split at h
  next hend =>
    refine .inr ⟨hend, ?_⟩
    obtain ⟨⟨length, k₁⟩, hcontract, h⟩ := except_bind_eq_ok.mp h
    obtain ⟨hlength, hmem, -, hheap⟩ := contract_spec hcontract
    obtain rfl : length = contractLength k.heap header := hlength
    refine ⟨_, _, rfl, rfl, ?_⟩
    simp only [hmem] at h
    split at h
    next hkeep =>
      have hk := (Except.ok.inj h).symm
      refine .inl ⟨hkeep, ?_, ?_⟩
      · rw [hk, ← hheap]
      · rw [hk]
    next hdrop =>
      refine .inr ⟨not_lt.mp hdrop, ?_⟩
      split at h
      · obtain rfl := Except.ok.inj h
        exact .inl ⟨hheap, hmem⟩
      next i hfind =>
        obtain ⟨hi, hslot⟩ := findHeaderIndex_eq_some hfind
        rw [hheap] at hi hslot
        have hk := (Except.ok.inj h).symm
        refine .inr ⟨i, hi, hslot, ?_, ?_⟩
        · rw [hk, Kernel.setIndex_mem, hheap]
        · rw [hk, Kernel.setIndex_heap, hheap]
  next hend =>
    obtain rfl := Except.ok.inj h
    exact .inl ⟨hend, rfl⟩

/-- The steps of `free` behind its checks. -/
theorem freeBlock_cases {left : Memory × ℕ}
    (hleft : unifyLeft (setHeaderIsHole k.mem header true) header footer = left)
    (h : freeBlock alloc k header footer = .ok k') :
    ∃ k₁ footer' k₂, unifyRight { k with mem := left.1 } left.2 footer = .ok (k₁, footer') ∧
      freeContract alloc k₁ left.2 footer' = .ok k₂ ∧
      ((left.2 = header ∧ ∃ mem index,
          orderedArrayInsert k₂.mem k₂.heap.index header = .ok (mem, index) ∧
          k' = k₂.setIndex mem index) ∨
        left.2 ≠ header ∧ k' = k₂) := by
  subst hleft
  obtain ⟨⟨k₁, footer'⟩, hunify, h⟩ := except_bind_eq_ok.mp h
  obtain ⟨k₂, hcontract, h⟩ := except_bind_eq_ok.mp h
  refine ⟨k₁, footer', k₂, hunify, hcontract, ?_⟩
  split at h
  next heq =>
    obtain ⟨⟨mem, index⟩, hinsert, h⟩ := except_bind_eq_ok.mp h
    rw [heq] at hinsert
    exact .inl ⟨heq, mem, index, hinsert, (Except.ok.inj h).symm⟩
  next hne => exact .inr ⟨hne, (Except.ok.inj h).symm⟩

/-! ### What `unify_left` finds -/

namespace WellFormed

variable (hw : WellFormed m heap blocks) (hB : B ∈ blocks)

include hw

theorem start_lt : heapMagic + sizeofHeader < heap.startAddr := by
  have hbase := heapMagic_add_lt_heapStart
  have hstart := hw.layout.start
  omega

theorem end_lt : heap.endAddr < 0xD0000000 := by
  have hend := hw.layout.end_le
  simp only [heapStart, heapMaxSize] at hend
  omega

/-- No slot of the index holds the magic number. -/
theorem slot_ne_magic {i : ℕ} (hi : i < heap.index.maxSize) : slot m heap.index i ≠ heapMagic := by
  have hstart := hw.start_lt
  rcases hw.inv.index.slot_cases hi with hzero | hlisted
  · rw [hzero]
    decide
  · obtain ⟨H, hH, -, haddr⟩ := mem_holes.mp hlisted
    have hle := (hw.inv.of_mem hH).1
    omega

include hB

/-- The first block has no block in front of it, and every other block has one. -/
theorem eq_start_or_exists_left : B.addr = heap.startAddr ∨ ∃ L ∈ blocks, L.end_ = B.addr := by
  obtain ⟨xs, ys, rfl, hxs, -, -⟩ := hw.inv.tiles.exists_eq_append hB
  rcases List.eq_nil_or_concat xs with rfl | ⟨zs, L, rfl⟩
  · exact .inl hxs.symm
  · obtain ⟨c, -, -, -, hend⟩ := tiles_append.mp (List.concat_eq_append ▸ hxs)
    exact .inr ⟨L, by simp, hend⟩

/-- The block that ends in front of the end of the heap has a block behind it. -/
theorem exists_right (hne : B.end_ ≠ heap.endAddr) : ∃ C ∈ blocks, C.addr = B.end_ := by
  obtain ⟨xs, ys, rfl, -, -, hys⟩ := hw.inv.tiles.exists_eq_append hB
  cases ys with
  | nil => exact absurd hys hne
  | cons C ys => exact ⟨C, by simp, hys.1⟩

/-- **What looks like a footer twelve bytes before a block** is not one: its pointer is the magic
number of the footer of the block in front. -/
theorem left_footer (hmagic : footerMagic m (wsub B.addr sizeofHeader) = heapMagic) :
    footerHeader m (wsub B.addr sizeofHeader) = heapMagic ∧ B.addr ≠ heap.startAddr := by
  obtain ⟨hstart, hsize, hend⟩ := hw.inv.of_mem hB
  have hbase := hw.start_lt
  have hlt := hw.end_lt
  simp only [sizeofHeader] at hbase
  have hloc : wsub B.addr sizeofHeader = B.addr - 12 := by
    rw [sizeofHeader, wsub_eq (by omega) (by omega)]
  rw [hloc] at hmagic ⊢
  rcases hw.eq_start_or_exists_left hB with hfirst | ⟨L, hL, hLend⟩
  · -- In front of the first block lies the end of the index.
    have hslot : slot m heap.index (heapIndexSize - 3) = heapMagic := by
      have haddr : heap.index.array + 4 * (heapIndexSize - 3) = B.addr - 12 := by
        rw [hfirst, hw.layout.start, hw.layout.array]
        decide
      rw [slot, haddr]
      exact hmagic
    refine absurd hslot (hw.slot_ne_magic ?_)
    rw [hw.layout.maxSize]
    decide
  · have hLbounds := hw.inv.of_mem hL
    have hmin : 0 < minBlock := by decide
    have hfooter := hw.footers L hL (.inr (by simp only [Tile.end_] at *; omega))
    refine ⟨?_, by simp only [Tile.end_, minBlock, sizeofHeader, sizeofFooter] at *; omega⟩
    have hmagic' := hfooter.magic
    rw [hLend, sizeofFooter, footerMagic] at hmagic'
    rw [footerHeader, show B.addr - 12 + 4 = B.addr - 8 by omega]
    exact hmagic'

/-- The mark on the block does not change what lies before it. -/
theorem left_mark : footerMagic (setHeaderIsHole m B.addr true) (wsub B.addr sizeofHeader) =
      footerMagic m (wsub B.addr sizeofHeader) ∧
    footerHeader (setHeaderIsHole m B.addr true) (wsub B.addr sizeofHeader) =
      footerHeader m (wsub B.addr sizeofHeader) := by
  obtain ⟨hstart, -, hend⟩ := hw.inv.of_mem hB
  have hbase := hw.start_lt
  have hlt := hw.end_lt
  simp only [sizeofHeader] at hbase
  have hloc : wsub B.addr sizeofHeader = B.addr - 12 := by
    rw [sizeofHeader, wsub_eq (by omega) (by omega)]
  rw [hloc]
  exact ⟨footerMagic_congr fun x _ hx => setHeaderIsHole_apply_of_ne true (by omega),
    footerHeader_congr fun x _ hx => setHeaderIsHole_apply_of_ne true (by omega)⟩

/-- The mark on the block does not matter for the test of `unify_left`. -/
theorem isLeftFooter_mark :
    IsLeftFooter (setHeaderIsHole m B.addr true) B.addr ↔ IsLeftFooter m B.addr := by
  have hbase := hw.start_lt
  have hstart := (hw.inv.of_mem hB).1
  simp only [sizeofHeader] at hbase
  obtain ⟨hmagic, hheader⟩ := hw.left_mark hB
  rw [IsLeftFooter, IsLeftFooter, hmagic, hheader]
  refine and_congr_right fun h => ?_
  rw [(hw.left_footer hB h).1, headerIsHole, setHeaderIsHole_apply_of_ne true (by omega),
    ← headerIsHole]

end WellFormed

/-! ### Merging with the hole behind -/

/-- **The hole behind the block** is taken in by the header that `unify_left` returned: that of the
block, or one below the index. -/
theorem WellFormed.unifyRight_effect {mem : Memory} {footer' : ℕ} {k₁ : Kernel}
    (hw : WellFormed k.mem k.heap blocks) (hB : B ∈ blocks)
    (hstore : ∀ x, k.heap.index.array ≤ x → x < k.heap.startAddr → mem x = k.mem x)
    (hbehind : ∀ x, B.end_ ≤ x → mem x = k.mem x)
    (haway : header + sizeofHeader ≤ k.heap.index.array ∨
      k.heap.startAddr ≤ header ∧ header + sizeofHeader ≤ B.end_)
    (h : unifyRight { k with mem } header (B.end_ - sizeofFooter) = .ok (k₁, footer')) :
    (IsHoleAt k.mem B.end_ ∧ ∃ R ∈ blocks, R.tag = true ∧ R.addr = B.end_ ∧
      footer' + sizeofFooter = R.end_ ∧ ∃ mem' i,
        mem' = setHeaderSize mem header (wadd (headerSize mem header) R.size) ∧
        i < k.heap.index.size ∧ slot k.mem k.heap.index i = B.end_ ∧
        (∀ x, k.heap.index.array ≤ x → x < k.heap.startAddr → mem' x = k.mem x) ∧
        k₁.mem = (orderedArrayRemove mem' k.heap.index i).1 ∧
        k₁.heap = { k.heap with index := (orderedArrayRemove mem' k.heap.index i).2 }) ∨
    ¬IsHoleAt k.mem B.end_ ∧ k₁.mem = mem ∧ k₁.heap = k.heap ∧
      footer' + sizeofFooter = B.end_ := by
  have hlt := hw.inv.bounds.end_lt
  have hstorage := hw.inv.bounds.storage
  have hpos := hw.inv.bounds.start_pos
  have hmax := hw.inv.index.size_le
  obtain ⟨hstart, hsize, hend⟩ := hw.inv.of_mem hB
  simp only [minBlock, sizeofHeader, sizeofFooter] at hsize haway
  have hB_end : B.end_ = B.addr + B.size := rfl
  have hnext : wadd (B.end_ - sizeofFooter) sizeofFooter = B.end_ := by
    rw [sizeofFooter, wadd_eq (by omega)]
    omega
  have hhole : IsHoleAt mem B.end_ ↔ IsHoleAt k.mem B.end_ := by
    rw [IsHoleAt, IsHoleAt, headerMagic_congr fun x hx _ => hbehind x hx, headerIsHole,
      hbehind _ (by omega), ← headerIsHole]
  have hnextSize : headerSize mem B.end_ = headerSize k.mem B.end_ :=
    headerSize_congr fun x hx _ => hbehind x (by omega)
  rcases unifyRight_cases h with ⟨hright, mem', i, hmem', hi, hslot, hk₁, hfooter⟩ |
    ⟨hright, hk₁, hfooter⟩
  · refine .inl ?_
    simp only [hnext] at hright hmem' hslot hfooter
    simp only at hi hslot
    have hstore' : ∀ x, k.heap.index.array ≤ x → x < k.heap.startAddr → mem' x = k.mem x := by
      intro x hx hx'
      rw [hmem', setHeaderSize_apply_of_notMem (by omega)]
      exact hstore x hx hx'
    have hslot' : slot mem' k.heap.index i = slot k.mem k.heap.index i :=
      slot_congr fun x hx hx' => hstore' x (by omega) (by omega)
    rw [hslot'] at hslot
    obtain ⟨R, hR, htag, haddr⟩ := hw.inv.exists_hole hi (by omega)
    rw [hslot] at haddr
    have hRsize : headerSize k.mem B.end_ = R.size := haddr ▸ (hw.inv.headers R hR).size
    have hRend := (hw.inv.of_mem hR).2.2
    have hRmin := (hw.inv.of_mem hR).2.1
    simp only [minBlock, sizeofHeader, sizeofFooter] at hRmin
    have hRsize' : headerSize mem' B.end_ = R.size := by
      rw [hmem', headerSize_congr fun x hx hx' => setHeaderSize_apply_of_notMem (by omega),
        hnextSize, hRsize]
    rw [hnextSize, hRsize] at hmem'
    refine ⟨hhole.mp hright, R, hR, htag, haddr, ?_, mem', i, hmem', hi, hslot, hstore', ?_, ?_⟩
    · have hRend_eq : R.end_ = B.end_ + R.size := by rw [Tile.end_, haddr]
      rw [hfooter, hRsize', wadd_eq (by omega), sizeofFooter, wsub_eq (by omega) (by omega)]
      omega
    · rw [hk₁, Kernel.setIndex_mem]
    · rw [hk₁, Kernel.setIndex_heap]
  · simp only [hnext] at hright
    refine .inr ⟨fun hnot => hright (hhole.mpr hnot), ?_, ?_, ?_⟩
    · rw [hk₁]
    · rw [hk₁]
    · rw [hfooter, sizeofFooter]
      omega

/-! ### Heaps that were reached -/

/-- A kernel whose heap has its blocks. -/
structure Reached (k : Kernel) : Prop where
  inv : ∃ blocks, HeapInv k.mem k.heap blocks
  kheap : k.kheap = true
  comparer : k.heap.index.comparer = some headerComparer

/-- What an allocation that finds a hole does not check. -/
def FitsHole (k : Kernel) (size : ℕ) (align : Bool) : Prop :=
  size + minBlock < 2 ^ 32 ∧ ∃ i ∈ findSmallestHole k.mem k.heap (size + minBlock) align,
    HoleOk k (size + minBlock) align (slot k.mem k.heap.index i)

instance (k : Kernel) (size : ℕ) (align : Bool) : Decidable (FitsHole k size align) :=
  inferInstanceAs (Decidable (_ ∧ ∃ i ∈ findSmallestHole _ _ _ _, _))

/-- What can be read off a heap of this kernel: its blocks with their headers and footers. -/
structure LaidOut (m : Memory) (heap : Heap) (blocks : List Block) : Prop where
  tiles : Tiles minBlock heap.startAddr heap.endAddr blocks
  headers : ∀ B ∈ blocks, HeaderAt m B
  footers : ∀ B ∈ blocks, B.tag = false ∨ B.end_ ≠ heap.endAddr → FooterAt m B
  array : heap.index.array = heapStart
  maxSize : heap.index.maxSize = heapIndexSize
  start : heap.startAddr = heapStart + 4 * heapIndexSize
  end_le : heap.endAddr ≤ heapStart + heapMaxSize

theorem laidOut_iff : LaidOut m heap blocks ↔ Tiles minBlock heap.startAddr heap.endAddr blocks ∧
    (∀ B ∈ blocks, HeaderAt m B) ∧
    (∀ B ∈ blocks, B.tag = false ∨ B.end_ ≠ heap.endAddr → FooterAt m B) ∧
    heap.index.array = heapStart ∧ heap.index.maxSize = heapIndexSize ∧
    heap.startAddr = heapStart + 4 * heapIndexSize ∧ heap.endAddr ≤ heapStart + heapMaxSize :=
  ⟨fun h => ⟨h.tiles, h.headers, h.footers, h.array, h.maxSize, h.start, h.end_le⟩,
    fun ⟨h₁, h₂, h₃, h₄, h₅, h₆, h₇⟩ => ⟨h₁, h₂, h₃, h₄, h₅, h₆, h₇⟩⟩

instance (m : Memory) (heap : Heap) (blocks : List Block) : Decidable (LaidOut m heap blocks) :=
  decidable_of_iff _ laidOut_iff.symm

theorem Reached.wellFormed (h : Reached k) (hlaid : LaidOut k.mem k.heap blocks) :
    WellFormed k.mem k.heap blocks := by
  obtain ⟨blocks', hinv⟩ := h.inv
  obtain rfl := tiles_unique hlaid.tiles hinv.tiles hlaid.headers hinv.headers
  exact ⟨hinv, ⟨h.comparer, hlaid.array, hlaid.maxSize, hlaid.start, hlaid.end_le⟩, hlaid.footers⟩

/-- The end of `alloc` keeps the order of the index. -/
theorem placeBlock_comparer {mem : Memory} {index : OrderedArray} {pos holeSize total p : ℕ}
    (h : placeBlock k mem index pos holeSize total = .ok (p, k')) :
    k'.heap.index.comparer = index.comparer := by
  rw [placeBlock] at h
  split at h
  · obtain ⟨⟨mem', index'⟩, hinsert, h⟩ := except_bind_eq_ok.mp h
    have hk := (Prod.mk.inj (Except.ok.inj h)).2.symm
    rw [hk, Kernel.setIndex_heap]
    simp only
    rw [orderedArrayInsert_array hinsert]
  · have hk := (Prod.mk.inj (Except.ok.inj h)).2.symm
    rw [hk, Kernel.setIndex_heap]

theorem Reached.of_alloc {size p : ℕ} {align : Bool} (h : Reached k) (hfits : FitsHole k size align)
    (halloc : Mem.alloc 1 k size align = .ok (p, k')) : Reached k' := by
  obtain ⟨hsize, i, hfind, hhole⟩ := hfits
  obtain ⟨blocks, hinv⟩ := h.inv
  obtain ⟨hkheap, blocks', hinv', -⟩ :=
    alloc_spec hinv h.kheap (allocOk_of_hole hsize hfind hhole 1) halloc
  refine ⟨⟨blocks', hinv'⟩, hkheap, ?_⟩
  have hfrom := alloc_of_hole hsize hfind halloc
  obtain ⟨hi, -⟩ := findSmallestHole_eq_some hfind
  rw [allocFrom, orderedArrayLookup_eq hi, except_ok_bind] at hfrom
  simp only at hfrom
  split at hfrom
  · exact (placeBlock_comparer hfrom).trans h.comparer
  · exact (placeBlock_comparer hfrom).trans h.comparer

/-- Allocations, given by their size and alignment, that all find a hole. -/
def allocAll : List (ℕ × Bool) → Kernel → Except Stop Kernel
  | [], k => .ok k
  | (size, align) :: requests, k =>
    if FitsHole k size align then Mem.alloc 1 k size align >>= fun r => allocAll requests r.2
    else .error .unfinished

/-- The heap of a kernel that starts with zero memory and page tables for all of memory, after some
allocations. -/
def sampleRun (requests : List (ℕ × Bool)) : Except Stop Kernel :=
  sampleHeap >>= fun k => allocAll requests k.withTables

theorem Reached.of_allocAll {requests : List (ℕ × Bool)} (h : Reached k)
    (hrun : allocAll requests k = .ok k') : Reached k' := by
  induction requests generalizing k with
  | nil => rwa [← Except.ok.inj hrun]
  | cons request requests ih =>
    rw [allocAll] at hrun
    split at hrun
    next hfits =>
      obtain ⟨⟨p, k₁⟩, halloc, hrun⟩ := except_bind_eq_ok.mp hrun
      exact ih (h.of_alloc hfits halloc) hrun
    next => cases hrun

theorem reached_of_sampleRun {requests : List (ℕ × Bool)} (h : sampleRun requests = .ok k) :
    Reached k := by
  obtain ⟨k₀, hk₀, hrun⟩ := except_bind_eq_ok.mp h
  have hfirst := firstHeap_of_sampleHeap hk₀
  obtain ⟨k₁, -, hk₁⟩ := except_bind_eq_ok.mp hk₀
  have hreached : Reached k₀.withTables := by
    refine ⟨⟨[firstHole], hfirst.inv⟩, ?_, hfirst.comparer⟩
    rw [← Except.ok.inj hk₁]
    rfl
  exact hreached.of_allocAll hrun

/-- A release in the heap after some allocations, with a test of its result. -/
theorem exists_release {requests : List (ℕ × Bool)} {test : Kernel → Kernel → Bool}
    (h : returns (sampleRun requests) (fun k => decide (LaidOut k.mem k.heap blocks) &&
      returns (free (Mem.alloc 0) k (B.addr + sizeofHeader)) (test k)) = true) :
    ∃ k k', WellFormed k.mem k.heap blocks ∧
      free (Mem.alloc 0) k (B.addr + sizeofHeader) = .ok k' ∧ test k k' = true := by
  obtain ⟨k, hk, h⟩ := exists_of_returns h
  simp only [Bool.and_eq_true, decide_eq_true_eq] at h
  obtain ⟨k', hfree, htest⟩ := exists_of_returns h.2
  exact ⟨k, k', (reached_of_sampleRun hk).wellFormed h.1, hfree, htest⟩

end Studix.Mem
