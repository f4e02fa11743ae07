import Studix.Mem.HeapGrow

/-!
# The bounds of the heap

`expand` and `contract` check the new end of the heap on sums that may wrap. `expand` rounds the new
size up to whole pages between its two checks; the end of the last page of the address space is
zero.

`alloc` changes the number of holes and the end of the heap, and nothing else of what describes it.

## Main definitions

* `SameFrame`: what `alloc` leaves alone.
* `PagedBounds`, `BoundsKept`: the bounds, before and after a call.
* `InLastPage`: the new end lies in the last page.

## Main results

* `alloc_sameFrame`: nested calls of `alloc` included.
* `PagedBounds.boundsKept_expand_iff`, `PagedBounds.boundsKept_contract`: the bounds after a call
  that returns.
-/

namespace Studix.Mem

variable {heap : Heap} {k k' : Kernel} {alloc : Alloc} {n p size : ℕ} {align : Bool}

/-! ### What `alloc` leaves alone -/

/-- What `alloc` asks of a hole for a payload of `size` bytes. -/
def totalBlockSize (size : ℕ) : ℕ := wadd (wadd size sizeofHeader) sizeofFooter

theorem alloc_of_find (depth : ℕ) {i : ℕ}
    (h : findSmallestHole k.mem k.heap (totalBlockSize size) align = some i) :
    Mem.alloc (depth + 1) k size align = allocFrom k (totalBlockSize size) align i := by
  simp only [Mem.alloc]
  rw [← totalBlockSize, h]

/-- What a call of `alloc` does: it makes space and calls itself, or it takes a hole. -/
theorem alloc_cases {depth : ℕ} (h : Mem.alloc (depth + 1) k size align = .ok (p, k')) :
    (findSmallestHole k.mem k.heap (totalBlockSize size) align = none ∧
      ∃ k₁, makeSpace (Mem.alloc depth) k (totalBlockSize size) = .ok k₁ ∧
        Mem.alloc depth k₁ size align = .ok (p, k')) ∨
    ∃ i, findSmallestHole k.mem k.heap (totalBlockSize size) align = some i ∧
      allocFrom k (totalBlockSize size) align i = .ok (p, k') := by
  simp only [Mem.alloc] at h
  rw [← totalBlockSize] at h
  cases hfind : findSmallestHole k.mem k.heap (totalBlockSize size) align with
  | none =>
    simp only [hfind] at h
    exact .inl ⟨rfl, except_bind_eq_ok.mp h⟩
  | some i =>
    simp only [hfind] at h
    exact .inr ⟨i, rfl, h⟩

/-- The heaps are the same but for the number of holes and the end, and so is the number of
frames. -/
def SameFrame (k k' : Kernel) : Prop :=
  k'.kheap = k.kheap ∧ k'.numFrames = k.numFrames ∧ ∃ size endAddr,
    k'.heap = { k.heap with index := { k.heap.index with size }, endAddr }

theorem SameFrame.refl (k : Kernel) : SameFrame k k := ⟨rfl, rfl, _, _, rfl⟩

theorem SameFrame.trans {k'' : Kernel} (h : SameFrame k k') (h' : SameFrame k' k'') :
    SameFrame k k'' := by
  obtain ⟨hkheap, hnum, size, endAddr, hheap⟩ := h
  obtain ⟨hkheap', hnum', size', endAddr', hheap'⟩ := h'
  exact ⟨hkheap'.trans hkheap, hnum'.trans hnum, size', endAddr', by rw [hheap', hheap]⟩

theorem SameFrame.of_heap (hkheap : k'.kheap = k.kheap) (hnum : k'.numFrames = k.numFrames)
    (hheap : k'.heap = k.heap) : SameFrame k k' :=
  ⟨hkheap, hnum, _, _, hheap⟩

theorem SameFrame.setEnd (h : SameFrame k k') (endAddr : ℕ) :
    SameFrame k { k' with heap := { k'.heap with endAddr } } :=
  h.trans ⟨rfl, rfl, _, _, rfl⟩

theorem SameFrame.startAddr (h : SameFrame k k') : k'.heap.startAddr = k.heap.startAddr := by
  obtain ⟨-, -, _, _, hheap⟩ := h
  rw [hheap]

theorem SameFrame.maxAddr (h : SameFrame k k') : k'.heap.maxAddr = k.heap.maxAddr := by
  obtain ⟨-, -, _, _, hheap⟩ := h
  rw [hheap]

theorem SameFrame.comparer (h : SameFrame k k') :
    k'.heap.index.comparer = k.heap.index.comparer := by
  obtain ⟨-, -, _, _, hheap⟩ := h
  rw [hheap]

/-- The array of the index stays where it is. -/
theorem sameFrame_setIndex {mem : Memory} {index : OrderedArray}
    (h : ∃ size, index = { k.heap.index with size }) : SameFrame k (k.setIndex mem index) := by
  obtain ⟨size, rfl⟩ := h
  exact ⟨rfl, rfl, size, _, rfl⟩

/-- What is asked of the `alloc` that makes page tables. -/
def KeepsFrame (alloc : Alloc) : Prop :=
  ∀ k size align p k', alloc k size align = .ok (p, k') → SameFrame k k'

theorem kmallocAp_sameFrame {table physAddr : ℕ} (hkeeps : KeepsFrame alloc)
    (h : kmallocAp alloc k size = .ok (table, physAddr, k')) : SameFrame k k' := by
  rw [kmallocAp] at h
  by_cases hheap : k.kheap = true
  · simp only [kmallocAux, hheap, if_true] at h
    obtain ⟨⟨addr, k₁⟩, halloc, h⟩ := except_bind_eq_ok.mp h
    simp only at h
    have hframe := hkeeps _ _ _ _ _ halloc
    split at h
    · cases h
    · rwa [← (Prod.mk.inj (Prod.mk.inj (Except.ok.inj h)).2).2]
  · rw [kmallocAux_placement (Bool.eq_false_iff.mpr hheap)] at h
    rw [← (Prod.mk.inj (Prod.mk.inj (Except.ok.inj h)).2).2]
    exact .of_heap rfl rfl rfl

theorem getPage_sameFrame {addr : ℕ} {makeTable : Bool} {ref : Option PageRef}
    (hkeeps : KeepsFrame alloc) (h : getPage alloc k addr makeTable = .ok (ref, k')) :
    SameFrame k k' := by
  rw [getPage] at h
  split_ifs at h with htable
  · rw [← (Prod.mk.inj (Except.ok.inj h)).2]
    exact .refl k
  · obtain ⟨⟨table, physAddr, k₁⟩, hkmalloc, h⟩ := except_bind_eq_ok.mp h
    have hk := (Prod.mk.inj (Except.ok.inj h)).2.symm
    have hframe : SameFrame k k₁ := kmallocAp_sameFrame hkeeps hkmalloc
    rw [hk]
    exact hframe.trans (.of_heap rfl rfl rfl)
  · rw [← (Prod.mk.inj (Except.ok.inj h)).2]
    exact .refl k

theorem expandPage_sameFrame {oldSize : ℕ} (hkeeps : KeepsFrame alloc)
    (h : expandPage alloc oldSize n k = .ok k') : SameFrame k k' := by
  obtain ⟨⟨page, k₁⟩, hpage, hframe⟩ := except_bind_eq_ok.mp h
  obtain ⟨-, hheap, hkheap⟩ := allocFrameAt_eq_ok hframe
  exact (getPage_sameFrame hkeeps hpage).trans
    (.of_heap hkheap (allocFrameAt_numFrames hframe) hheap)

/-- `expand` moves the end of the heap to where it is told. -/
theorem expand_sameFrame {newSize : ℕ} (hkeeps : KeepsFrame alloc)
    (h : expand alloc k newSize = .ok k') :
    SameFrame k k' ∧ k'.heap.endAddr = wadd k.heap.startAddr (alignUp newSize) := by
  obtain ⟨_, -, h⟩ := except_bind_eq_ok.mp h
  obtain ⟨_, -, h⟩ := except_bind_eq_ok.mp h
  obtain ⟨k₁, hloop, h⟩ := except_bind_eq_ok.mp h
  have hframe : SameFrame k k₁ := forLoopM_invariant (fun _ t => SameFrame k t) (.refl k)
    (fun _ _ _ _ ht hbody => ht.trans (expandPage_sameFrame hkeeps hbody)) hloop
  rw [← Except.ok.inj h]
  exact ⟨hframe.setEnd _, by simp only; rw [hframe.startAddr]⟩

theorem exists_size_of_insert {m m' : Memory} {a a' : OrderedArray} {item : ℕ}
    (h : orderedArrayInsert m a item = .ok (m', a')) : ∃ size, a' = { a with size } :=
  ⟨_, orderedArrayInsert_array h⟩

theorem addSpace_sameFrame {oldEnd growth : ℕ} (h : addSpace k oldEnd growth = .ok k') :
    SameFrame k k' := by
  rw [addSpace] at h
  split at h
  · obtain ⟨header, -, h⟩ := except_bind_eq_ok.mp h
    rw [← Except.ok.inj h]
    exact .of_heap rfl rfl rfl
  · obtain ⟨⟨mem, index⟩, hinsert, h⟩ := except_bind_eq_ok.mp h
    rw [← Except.ok.inj h]
    exact sameFrame_setIndex (exists_size_of_insert hinsert)

theorem makeSpace_sameFrame (hkeeps : KeepsFrame alloc) (h : makeSpace alloc k n = .ok k') :
    SameFrame k k' := by
  obtain ⟨k₁, hexpand, hadd⟩ := except_bind_eq_ok.mp h
  exact (expand_sameFrame hkeeps hexpand).1.trans (addSpace_sameFrame hadd)

theorem placeBlock_sameFrame {mem : Memory} {index : OrderedArray} {pos holeSize total : ℕ}
    (hindex : ∃ size, index = { k.heap.index with size })
    (h : placeBlock k mem index pos holeSize total = .ok (p, k')) : SameFrame k k' := by
  obtain ⟨s, rfl⟩ := hindex
  rw [placeBlock] at h
  split at h
  · obtain ⟨⟨mem', index'⟩, hinsert, h⟩ := except_bind_eq_ok.mp h
    rw [← (Prod.mk.inj (Except.ok.inj h)).2]
    obtain ⟨s', hindex'⟩ := exists_size_of_insert hinsert
    exact sameFrame_setIndex ⟨s', hindex'⟩
  · rw [← (Prod.mk.inj (Except.ok.inj h)).2]
    exact sameFrame_setIndex ⟨s, rfl⟩

theorem allocFrom_sameFrame {total i : ℕ} (h : allocFrom k total align i = .ok (p, k')) :
    SameFrame k k' := by
  obtain ⟨pos, -, h⟩ := except_bind_eq_ok.mp h
  dsimp only at h
  split at h
  · exact placeBlock_sameFrame ⟨_, rfl⟩ h
  · exact placeBlock_sameFrame ⟨_, rfl⟩ h

/-- **`alloc` leaves the rest of the heap's description alone.** -/
theorem alloc_sameFrame (depth : ℕ) : KeepsFrame (Mem.alloc depth) := by
  induction depth with
  | zero => exact fun k size align p k' h => by cases h
  | succ depth ih =>
    intro k size align p k' h
    obtain ⟨-, k₁, hspace, halloc⟩ | ⟨i, -, hfrom⟩ := alloc_cases h
    · exact (makeSpace_sameFrame ih hspace).trans (ih _ _ _ _ _ halloc)
    · exact allocFrom_sameFrame hfrom

/-! ### The bounds -/

/-- The bounds of a heap in whole pages. -/
structure PagedBounds (heap : Heap) : Prop where
  start_pages : heap.startAddr % pageSize = 0
  end_pages : heap.endAddr % pageSize = 0
  max_pages : heap.maxAddr % pageSize = 0
  page_le : pageSize ≤ heap.startAddr
  min_le : heap.startAddr + heapMinSize ≤ heap.endAddr
  end_le : heap.endAddr ≤ heap.maxAddr
  max_lt : heap.maxAddr < 2 ^ 32

theorem pagedBounds_iff : PagedBounds heap ↔ heap.startAddr % pageSize = 0 ∧
    heap.endAddr % pageSize = 0 ∧ heap.maxAddr % pageSize = 0 ∧ pageSize ≤ heap.startAddr ∧
    heap.startAddr + heapMinSize ≤ heap.endAddr ∧ heap.endAddr ≤ heap.maxAddr ∧
    heap.maxAddr < 2 ^ 32 :=
  ⟨fun h => ⟨h.start_pages, h.end_pages, h.max_pages, h.page_le, h.min_le, h.end_le, h.max_lt⟩,
    fun ⟨h₁, h₂, h₃, h₄, h₅, h₆, h₇⟩ => ⟨h₁, h₂, h₃, h₄, h₅, h₆, h₇⟩⟩

instance (heap : Heap) : Decidable (PagedBounds heap) := decidable_of_iff _ pagedBounds_iff.symm

/-- The end of `heap'` is a whole number of pages, within the bounds of `heap`. -/
structure BoundsKept (heap heap' : Heap) : Prop where
  start_eq : heap'.startAddr = heap.startAddr
  max_eq : heap'.maxAddr = heap.maxAddr
  end_pages : heap'.endAddr % pageSize = 0
  min_le : heap.startAddr + heapMinSize ≤ heap'.endAddr
  end_le : heap'.endAddr ≤ heap.maxAddr

/-- The checks of `expand`; both are made before anything is changed. -/
def ExpandAdmits (heap : Heap) (newSize : ℕ) : Prop :=
  heap.endAddr < wadd heap.startAddr newSize ∧
    wadd heap.startAddr (alignUp newSize) ≤ heap.maxAddr

/-- A heap of `newSize` bytes ends inside the last page of the address space. -/
def InLastPage (heap : Heap) (newSize : ℕ) : Prop :=
  2 ^ 32 < heap.startAddr + newSize + pageSize ∧ heap.startAddr + newSize < 2 ^ 32

/-- `expand` stops at its own checks exactly when it does not admit the size. -/
theorem expand_admits (h : expand alloc k n = .ok k') : ExpandAdmits k.heap n := by
  obtain ⟨_, hfirst, h⟩ := except_bind_eq_ok.mp h
  obtain ⟨_, hsecond, -⟩ := except_bind_eq_ok.mp h
  exact ⟨by simpa using hfirst, by simpa using hsecond⟩

theorem expand_stops (h : ¬ExpandAdmits k.heap n) :
    ∃ expr, expand alloc k n = .error (.assertFailed expr) := by
  unfold expand
  dsimp only
  by_cases hfirst : k.heap.endAddr < wadd k.heap.startAddr n
  · have hsecond : ¬wadd k.heap.startAddr (alignUp n) ≤ k.heap.maxAddr := fun hle => h ⟨hfirst, hle⟩
    rw [decide_eq_true hfirst, assert_true_bind, decide_eq_false hsecond]
    exact ⟨_, assert_false_bind _ _⟩
  · rw [decide_eq_false hfirst]
    exact ⟨_, assert_false_bind _ _⟩

/-- The end that `expand` computes. -/
theorem PagedBounds.expandedEnd (hb : PagedBounds heap) (hn : n < 2 ^ 32)
    (hadmits : ExpandAdmits heap n) :
    heap.endAddr < heap.startAddr + n ∧ heap.startAddr + n < 2 ^ 32 ∧
      wadd heap.startAddr (alignUp n) =
        (heap.startAddr + n + (pageSize - 1)) / pageSize * pageSize % 2 ^ 32 := by
  have hstart := hb.start_pages
  have hpage := hb.page_le
  have hmin := hb.min_le
  have hend := hb.end_le
  have hmax := hb.max_lt
  obtain ⟨hfirst, -⟩ := hadmits
  rw [alignUp_eq_mod hn]
  simp only [wadd, pageSize, heapMinSize] at *
  omega

/-- **The new end of `expand`** is within the bounds exactly when it does not lie inside the last
page: rounded up to whole pages it is zero there. -/
theorem PagedBounds.boundsKept_expand_iff {depth : ℕ} (hb : PagedBounds k.heap) (hn : n < 2 ^ 32)
    (h : expand (Mem.alloc depth) k n = .ok k') :
    BoundsKept k.heap k'.heap ↔ ¬InLastPage k.heap n := by
  have hstart := hb.start_pages
  have hpage := hb.page_le
  have hmin := hb.min_le
  have hadmits := expand_admits h
  obtain ⟨hframe, hend'⟩ := expand_sameFrame (alloc_sameFrame depth) h
  obtain ⟨hgrows, hwrap, hexpanded⟩ := hb.expandedEnd hn hadmits
  have hle := hadmits.2
  rw [hexpanded] at hend' hle
  constructor
  · rintro ⟨-, -, -, hmin', -⟩ ⟨hlast, -⟩
    rw [hend'] at hmin'
    simp only [pageSize, heapMinSize] at *
    omega
  · intro hlast
    refine ⟨hframe.startAddr, hframe.maxAddr, ?_, ?_, by rwa [hend']⟩
    · rw [hend']
      simp only [pageSize]
      omega
    · rw [hend']
      simp only [InLastPage, pageSize, heapMinSize] at *
      omega

/-- The length that `contract` leaves. -/
theorem PagedBounds.contractedLength (hb : PagedBounds heap)
    (hlt : n < heap.endAddr - heap.startAddr) :
    max (alignUp n) heapMinSize ≤ heap.endAddr - heap.startAddr ∧
      max (alignUp n) heapMinSize % pageSize = 0 := by
  have hstart := hb.start_pages
  have hend_pages := hb.end_pages
  have hmin := hb.min_le
  have hend := hb.end_le
  have hmax := hb.max_lt
  have hround : alignUp n = (n + (pageSize - 1)) / pageSize * pageSize :=
    alignUp_eq (by simp only [pageSize] at *; omega)
  rw [hround]
  simp only [pageSize, heapMinSize] at *
  omega

/-- **`contract` keeps the bounds.** -/
theorem PagedBounds.boundsKept_contract {length : ℕ} (hb : PagedBounds k.heap)
    (hlt : n < k.heap.endAddr - k.heap.startAddr) (h : contract alloc k n = .ok (length, k')) :
    BoundsKept k.heap k'.heap := by
  have hstart := hb.start_pages
  have hend := hb.end_le
  have hmax := hb.max_lt
  obtain ⟨hle, hpages⟩ := hb.contractedLength hlt
  obtain ⟨hlength, -, -, hheap⟩ := contract_spec h
  rw [← hlength] at hle hpages
  have hmin : heapMinSize ≤ length := hlength ▸ le_max_right _ _
  have hsum : wadd k.heap.startAddr length = k.heap.startAddr + length := wadd_eq (by omega)
  rw [hheap]
  refine ⟨rfl, rfl, ?_, ?_, ?_⟩
  · simp only [hsum]
    simp only [pageSize] at *
    omega
  · simp only [hsum]
    omega
  · simp only [hsum]
    omega

end Studix.Mem
