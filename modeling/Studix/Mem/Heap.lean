import Studix.Mem.Page

/-!
# The heap

Model of `src/mem/heap.c`. A block of the heap starts with a `Header` of twelve bytes and ends with
a `Footer` of eight; both lie in memory, so they are read and written through their addresses. The
index of the holes is an ordered array of header addresses at the start of the heap's memory.

## Main definitions

* `headerMagic`, `headerIsHole`, `headerSize`, `footerMagic`, `footerHeader`: the fields.
* `findSmallestHole`, `makeHeader`, `makeFooter`, `createHeap`, `expand`, `contract`,
  `findHeaderIndex`.

## Main results

* the fields after `make_header` and `make_footer`, and what they leave alone.
* `createHeap_spec`: the heap that `create_heap` makes.
-/

namespace Studix.Mem

/-! ### Headers and footers -/

/-- `HEAP_START`. -/
def heapStart : ℕ := 0xC0000000

/-- `HEAP_INIT_SIZE`. -/
def heapInitSize : ℕ := 0x100000

/-- `HEAP_MIN_SIZE`. -/
def heapMinSize : ℕ := 0x70000

/-- `HEAP_MAX_SIZE`. -/
def heapMaxSize : ℕ := 0xFFFF000

/-- `HEAP_INDEX_SIZE`. -/
def heapIndexSize : ℕ := 0x20000

/-- `HEAP_MAGIC`. -/
def heapMagic : ℕ := 0xBEEFACED

/-- `sizeof(Header)`. -/
def sizeofHeader : ℕ := 12

/-- `sizeof(Footer)`. -/
def sizeofFooter : ℕ := 8

/-- `sizeof(Heap)`. -/
def sizeofHeap : ℕ := 32

/-- `header->magic`. -/
def headerMagic (m : Memory) (header : ℕ) : ℕ := load32 m header

/-- `header->is_hole`. -/
def headerIsHole (m : Memory) (header : ℕ) : Bool := m (header + 4) != 0

/-- `header->size`. -/
def headerSize (m : Memory) (header : ℕ) : ℕ := load32 m (header + 8)

/-- `footer->magic`. -/
def footerMagic (m : Memory) (footer : ℕ) : ℕ := load32 m footer

/-- `footer->header`. -/
def footerHeader (m : Memory) (footer : ℕ) : ℕ := load32 m (footer + 4)

/-- `header->size = size`. -/
def setHeaderSize (m : Memory) (header size : ℕ) : Memory := store32 m (header + 8) size

/-- `header->is_hole = isHole`. -/
def setHeaderIsHole (m : Memory) (header : ℕ) (isHole : Bool) : Memory :=
  blit m (header + 4) 1 fun _ => if isHole then 1 else 0

/-- `footer->header = header`. -/
def setFooterHeader (m : Memory) (footer header : ℕ) : Memory := store32 m (footer + 4) header

/-- `make_header`; the header is at `loc`. -/
def makeHeader (m : Memory) (loc size : ℕ) (isHole : Bool) : Memory :=
  let m := setHeaderSize m loc size
  let m := store32 m loc heapMagic
  setHeaderIsHole m loc isHole

/-- `make_footer`; the footer is at `loc`. -/
def makeFooter (m : Memory) (loc assocHeader : ℕ) : Memory :=
  let m := setFooterHeader m loc assocHeader
  store32 m loc heapMagic

/-- `assoc_footer`. -/
def assocFooter (m : Memory) (header : ℕ) : ℕ :=
  wsub (wadd header (headerSize m header)) sizeofFooter

/-- `header_for`. -/
def headerFor (ptr : ℕ) : ℕ := wsub ptr sizeofHeader

/-- `header_comparer`. -/
def headerComparer (m : Memory) (a b : ℕ) : Bool := headerSize m a < headerSize m b

/-! ### The index -/

/-- The test of `find_smallest_hole` on one header. -/
def holeFits (m : Memory) (header size : ℕ) (align : Bool) : Bool :=
  if align then
    let offset := if aligned (wadd header sizeofHeader) then 0
      else pageSize - wadd header sizeofHeader % pageSize
    size ≤ wsub (headerSize m header) offset
  else size ≤ headerSize m header

/-- `find_smallest_hole`; `none` stands for -1. -/
def findSmallestHole (m : Memory) (heap : Heap) (size : ℕ) (align : Bool) : Option ℕ :=
  (List.range heap.index.size).find? fun i => holeFits m (slot m heap.index i) size align

/-- `find_header_index`; `none` stands for -1. -/
def findHeaderIndex (m : Memory) (heap : Heap) (header : ℕ) : Option ℕ :=
  (List.range heap.index.size).find? fun i => slot m heap.index i = header

/-! ### Bounds of the heap -/

/-- `create_heap`: the heap and its address. -/
def createHeap (alloc : Alloc) (k : Kernel) (start end_ max : ℕ) (supervisor readonly : Bool) :
    Except Stop Kernel := do
  let (heapAddr, k) ← kmalloc alloc k sizeofHeap
  assert (aligned start) "aligned(start)"
  assert (aligned end_) "aligned(end)"
  let (mem, index) := placeOrderedArray k.mem start heapIndexSize (some headerComparer)
  -- The result of `align_up(start)` is not used.
  let start := wadd start (4 * heapIndexSize)
  let mem := makeHeader mem start (wsub end_ start) true
  let (mem, index) ← orderedArrayInsert mem index start
  .ok { k with
    mem, heapAddr
    heap := { index, startAddr := start, endAddr := end_, maxAddr := max, supervisor, readonly } }

/-- The body of the loop of `expand`, for the `n`-th new page. -/
def expandPage (alloc : Alloc) (oldSize n : ℕ) (k : Kernel) : Except Stop Kernel := do
  let (page, k) ← getPage alloc k (wadd k.heap.startAddr (oldSize + pageSize * n)) true
  allocFrameAt k page k.heap.supervisor k.heap.readonly

/-- `expand`. The loop over the new pages does not wrap, since `new_size` is a multiple of the page
size. -/
def expand (alloc : Alloc) (k : Kernel) (newSize : ℕ) : Except Stop Kernel := do
  assert (k.heap.endAddr < wadd k.heap.startAddr newSize)
    "heap->start_addr + new_size > heap->end_addr"
  let newSize := alignUp newSize
  assert (wadd k.heap.startAddr newSize ≤ k.heap.maxAddr)
    "heap->start_addr + new_size <= heap->max_addr"
  let oldSize := wsub k.heap.endAddr k.heap.startAddr
  let k ← forLoopM (expandPage alloc oldSize) ((newSize - oldSize + (pageSize - 1)) / pageSize) k
  .ok { k with heap := { k.heap with endAddr := wadd k.heap.startAddr newSize } }

/-- The loop of `contract`, from `i` down. -/
def contractLoop (alloc : Alloc) (newSize : ℕ) : ℕ → ℕ → Kernel → Except Stop Kernel
  | 0, _, _ => .error .unfinished
  | fuel + 1, i, k =>
    if newSize < i then do
      let (page, k) ← getPage alloc k (wadd k.heap.startAddr i) false
      let k ← freeFrameAt k page
      contractLoop alloc newSize fuel (wsub i pageSize) k
    else .ok k

/-- `contract`: the new size. An iteration of the loop lowers `i` by a page, so the bound on the
iterations is never reached. -/
def contract (alloc : Alloc) (k : Kernel) (newSize : ℕ) : Except Stop (ℕ × Kernel) := do
  assert (wadd k.heap.startAddr newSize < k.heap.endAddr)
    "heap->start_addr + new_size < heap->end_addr"
  let newSize := alignUp newSize
  let newSize := if newSize < heapMinSize then heapMinSize else newSize
  let oldSize := wsub k.heap.endAddr k.heap.startAddr
  let k ← contractLoop alloc newSize (2 ^ 20 + 1) (wsub oldSize pageSize) k
  .ok (newSize, { k with heap := { k.heap with endAddr := wadd k.heap.startAddr newSize } })

/-! ### Fields after an update -/

section

variable {m m' : Memory} {a loc size header x : ℕ}

theorem headerSize_lt (m : Memory) (a : ℕ) : headerSize m a < 2 ^ 32 := load32_lt _ _

theorem headerMagic_congr (h : ∀ x, a ≤ x → x < a + 4 → m' x = m x) :
    headerMagic m' a = headerMagic m a :=
  load32_congr fun x hx => h x (Set.mem_Ico.mp hx).1 (Set.mem_Ico.mp hx).2

theorem headerSize_congr (h : ∀ x, a + 8 ≤ x → x < a + 12 → m' x = m x) :
    headerSize m' a = headerSize m a :=
  load32_congr fun x hx => h x (Set.mem_Ico.mp hx).1 (Set.mem_Ico.mp hx).2

theorem footerMagic_congr (h : ∀ x, a ≤ x → x < a + 4 → m' x = m x) :
    footerMagic m' a = footerMagic m a :=
  load32_congr fun x hx => h x (Set.mem_Ico.mp hx).1 (Set.mem_Ico.mp hx).2

theorem footerHeader_congr (h : ∀ x, a + 4 ≤ x → x < a + 8 → m' x = m x) :
    footerHeader m' a = footerHeader m a :=
  load32_congr fun x hx => h x (Set.mem_Ico.mp hx).1 (Set.mem_Ico.mp hx).2

theorem setHeaderSize_apply_of_notMem (h : x < a + 8 ∨ a + 12 ≤ x) :
    setHeaderSize m a size x = m x :=
  store32_apply_of_notMem h

theorem setHeaderIsHole_apply_of_ne (isHole : Bool) (h : x ≠ a + 4) :
    setHeaderIsHole m a isHole x = m x :=
  blit_apply_of_notMem _ _ (by omega)

theorem headerSize_setHeaderSize (h : size < 2 ^ 32) :
    headerSize (setHeaderSize m a size) a = size :=
  load32_store32 h

theorem headerIsHole_setHeaderIsHole (isHole : Bool) :
    headerIsHole (setHeaderIsHole m a isHole) a = isHole := by
  rw [headerIsHole, setHeaderIsHole, blit_apply_of_mem _ _ (by omega)]
  cases isHole <;> decide

theorem makeHeader_apply_of_notMem (isHole : Bool) (h : x < loc ∨ loc + sizeofHeader ≤ x) :
    makeHeader m loc size isHole x = m x := by
  simp only [sizeofHeader] at h
  rw [makeHeader, setHeaderIsHole_apply_of_ne _ (by omega), store32_apply_of_notMem (by omega),
    setHeaderSize_apply_of_notMem (by omega)]

theorem headerMagic_makeHeader (m : Memory) (loc size : ℕ) (isHole : Bool) :
    headerMagic (makeHeader m loc size isHole) loc = heapMagic := by
  rw [makeHeader, headerMagic_congr fun x _ hx => setHeaderIsHole_apply_of_ne _ (by omega)]
  exact load32_store32 (by decide)

theorem headerSize_makeHeader (isHole : Bool) (h : size < 2 ^ 32) :
    headerSize (makeHeader m loc size isHole) loc = size := by
  rw [makeHeader, headerSize_congr fun x hx _ => setHeaderIsHole_apply_of_ne _ (by omega),
    headerSize_congr fun x hx _ => store32_apply_of_notMem (by omega)]
  exact headerSize_setHeaderSize h

theorem headerIsHole_makeHeader (m : Memory) (loc size : ℕ) (isHole : Bool) :
    headerIsHole (makeHeader m loc size isHole) loc = isHole :=
  headerIsHole_setHeaderIsHole isHole

theorem makeFooter_apply_of_notMem (h : x < loc ∨ loc + sizeofFooter ≤ x) :
    makeFooter m loc header x = m x := by
  simp only [sizeofFooter] at h
  rw [makeFooter, store32_apply_of_notMem (by omega), setFooterHeader,
    store32_apply_of_notMem (by omega)]

theorem footerMagic_makeFooter (m : Memory) (loc header : ℕ) :
    footerMagic (makeFooter m loc header) loc = heapMagic :=
  load32_store32 (by decide)

theorem footerHeader_makeFooter (h : header < 2 ^ 32) :
    footerHeader (makeFooter m loc header) loc = header := by
  rw [makeFooter, footerHeader_congr fun x hx _ => store32_apply_of_notMem (by omega)]
  exact load32_store32 h

end

/-! ### The first heap -/

/-- **The heap that `create_heap` makes**: one hole from the end of the index to the end of the
heap, and an index that lists it and is zero behind it. -/
theorem createHeap_spec {k : Kernel} {start end_ : ℕ} (alloc : Alloc) (max : ℕ)
    (supervisor readonly : Bool) (hheap : k.kheap = false) (hstart : aligned start)
    (hend : aligned end_) (hle : start + 4 * heapIndexSize ≤ end_) (hlt : end_ < 2 ^ 32) :
    ∃ mem, createHeap alloc k start end_ max supervisor readonly = .ok { k with
        mem, placementAddr := wadd k.placementAddr sizeofHeap, heapAddr := k.placementAddr
        heap := ⟨⟨start, 1, heapIndexSize, some headerComparer⟩, start + 4 * heapIndexSize, end_,
          max, supervisor, readonly⟩ } ∧
      (∀ i < heapIndexSize, load32 mem (start + 4 * i) =
        if i = 0 then start + 4 * heapIndexSize else 0) ∧
      headerMagic mem (start + 4 * heapIndexSize) = heapMagic ∧
      headerIsHole mem (start + 4 * heapIndexSize) = true ∧
      headerSize mem (start + 4 * heapIndexSize) = end_ - (start + 4 * heapIndexSize) := by
  have hindex : heapIndexSize = 131072 := rfl
  have hfirst : wadd start (4 * heapIndexSize) = start + 4 * heapIndexSize := wadd_eq (by omega)
  have hsize : wsub end_ (start + 4 * heapIndexSize) = end_ - (start + 4 * heapIndexSize) :=
    wsub_eq hle hlt
  set a : OrderedArray := ⟨start, 0, heapIndexSize, some headerComparer⟩ with ha
  set m := makeHeader (memset k.mem start 0 (heapIndexSize * 4)) (start + 4 * heapIndexSize)
    (end_ - (start + 4 * heapIndexSize)) true with hm
  obtain ⟨mem, p, hinsert, hp, hslot, hframe⟩ :=
    orderedArrayInsert_spec m a (start + 4 * heapIndexSize) rfl (by omega)
  have hzero : ∀ i < heapIndexSize, slot m a i = 0 := by
    intro i hi
    refine load32_eq_zero fun j hj => ?_
    rw [hm, makeHeader_apply_of_notMem _ (by simp only [ha]; omega), memset,
      blit_apply_of_mem _ _ (by simp only [ha]; omega)]
  have hsame : ∀ x, start + 4 ≤ x → mem x = m x := fun x hx =>
    hframe x (by simp only [ha]; omega)
  refine ⟨mem, ?_, fun i hi => ?_, ?_, ?_, ?_⟩
  · simp only [createHeap, kmalloc_placement alloc _ hheap, except_ok_bind,
      placeOrderedArray, hstart, hend, assert, if_true, hfirst, hsize, ← hm, ← ha, hinsert]
    rfl
  · have hi' := hslot i
    rw [hzero i hi, hzero (i - 1) (by omega)] at hi'
    refine Eq.trans hi' ?_
    have hp0 : p = 0 := by simpa [ha] using hp
    split_ifs <;> first | rfl | omega
  · rw [headerMagic_congr fun x hx _ => hsame x (by omega)]
    exact headerMagic_makeHeader _ _ _ _
  · rw [headerIsHole, hsame _ (by omega)]
    exact headerIsHole_makeHeader _ _ _ _
  · rw [headerSize_congr fun x hx _ => hsame x (by omega)]
    exact headerSize_makeHeader _ (by omega)

end Studix.Mem
