import Studix.Mem.HeapBounds

/-!
# One growth is enough

When `alloc` finds no hole it makes space and tries again. `make_space` adds the new memory to some
hole, or makes a hole of it; it is at least as much as was asked for, so this hole is large enough
for a block that need not be aligned, whichever hole it is.

## Main definitions

* `OnlyHoles`: the heap and what its index lists.

## Main results

* `findSmallestHole_after_makeSpace`: the search that is tried again finds a hole.
-/

namespace Studix.Mem

variable {m : Memory} {heap : Heap} {k k' : Kernel} {alloc : Alloc} {h n i size total : ℕ}

/-- A heap whose index, stored in front of it, lists only holes inside the heap and is not full. -/
structure OnlyHoles (m : Memory) (heap : Heap) : Prop where
  start_pages : heap.startAddr % pageSize = 0
  end_pages : heap.endAddr % pageSize = 0
  page_le : pageSize ≤ heap.startAddr
  start_le : heap.startAddr ≤ heap.endAddr
  end_le : heap.endAddr ≤ heap.maxAddr
  max_lt : heap.maxAddr < 2 ^ 32
  storage : heap.index.array + 4 * heap.index.maxSize ≤ heap.startAddr
  not_full : heap.index.size < heap.index.maxSize
  holes : ∀ i < heap.index.size, headerIsHole m (slot m heap.index i) = true ∧
    heap.startAddr ≤ slot m heap.index i ∧
      slot m heap.index i + headerSize m (slot m heap.index i) ≤ heap.endAddr

theorem onlyHoles_iff : OnlyHoles m heap ↔ heap.startAddr % pageSize = 0 ∧
    heap.endAddr % pageSize = 0 ∧ pageSize ≤ heap.startAddr ∧ heap.startAddr ≤ heap.endAddr ∧
    heap.endAddr ≤ heap.maxAddr ∧ heap.maxAddr < 2 ^ 32 ∧
    heap.index.array + 4 * heap.index.maxSize ≤ heap.startAddr ∧
    heap.index.size < heap.index.maxSize ∧
    ∀ i < heap.index.size, headerIsHole m (slot m heap.index i) = true ∧
      heap.startAddr ≤ slot m heap.index i ∧
      slot m heap.index i + headerSize m (slot m heap.index i) ≤ heap.endAddr :=
  ⟨fun h => ⟨h.start_pages, h.end_pages, h.page_le, h.start_le, h.end_le, h.max_lt, h.storage,
    h.not_full, h.holes⟩, fun ⟨h₁, h₂, h₃, h₄, h₅, h₆, h₇, h₈, h₉⟩ =>
    ⟨h₁, h₂, h₃, h₄, h₅, h₆, h₇, h₈, h₉⟩⟩

instance (m : Memory) (heap : Heap) : Decidable (OnlyHoles m heap) :=
  decidable_of_iff _ onlyHoles_iff.symm

/-! ### The footer of a block that may end at the top of memory -/

/-- The footer lies behind the header. -/
theorem le_footer (hn : minBlock ≤ n) (hle : h + n ≤ 2 ^ 32) :
    h + sizeofHeader ≤ wsub (wadd h n) sizeofFooter := by
  simp only [wadd, wsub, minBlock, sizeofHeader, sizeofFooter] at *
  omega

theorem headerSize_resizeBlock_of_le (hlt : n < 2 ^ 32) (hn : minBlock ≤ n) (hle : h + n ≤ 2 ^ 32) :
    headerSize (resizeBlock m h n) h = n := by
  have hfooter := le_footer hn hle
  rw [resizeBlock, assocFooter, headerSize_setHeaderSize hlt]
  generalize wsub (wadd h n) sizeofFooter = footer at hfooter ⊢
  simp only [sizeofHeader] at hfooter
  rw [headerSize_congr fun x _ hx => makeFooter_apply_of_notMem (.inl (by omega)),
    headerSize_setHeaderSize hlt]

theorem resizeBlock_apply_before {x : ℕ} (hlt : n < 2 ^ 32) (hn : minBlock ≤ n)
    (hle : h + n ≤ 2 ^ 32) (hx : x < h) : resizeBlock m h n x = m x := by
  have hfooter := le_footer hn hle
  rw [resizeBlock, assocFooter, headerSize_setHeaderSize hlt]
  generalize wsub (wadd h n) sizeofFooter = footer at hfooter ⊢
  rw [makeFooter_apply_of_notMem (.inl (by omega)), setHeaderSize_apply_of_notMem (by omega)]

theorem headerSize_makeHole_of_le (hlt : n < 2 ^ 32) (hn : minBlock ≤ n) (hle : h + n ≤ 2 ^ 32) :
    headerSize (makeHole m h n) h = n := by
  have hfooter := le_footer hn hle
  rw [makeHole, headerSize_makeHeader _ hlt]
  generalize wsub (wadd h n) sizeofFooter = footer at hfooter ⊢
  simp only [sizeofHeader] at hfooter
  rw [headerSize_congr fun x _ hx => makeFooter_apply_of_notMem (.inl (by omega)),
    headerSize_makeHeader _ hlt]

/-! ### The retried search -/

/-- The search finds a hole when an entry of the index is large enough. -/
theorem exists_findSmallestHole (hi : i < heap.index.size)
    (hfits : total ≤ headerSize m (slot m heap.index i)) :
    ∃ i, findSmallestHole m heap total false = some i := by
  cases hfind : findSmallestHole m heap total false with
  | some i => exact ⟨i, rfl⟩
  | none =>
    have hnot := List.find?_eq_none.mp hfind i (List.mem_range.mpr hi)
    exact absurd hfits (by simpa [holeFits] using hnot)

/-- The end of `make_space` makes a hole that is at least as large as the new memory. -/
theorem addSpace_large {growth : ℕ} (hstorage : k.heap.index.array + 4 * k.heap.index.maxSize ≤
      k.heap.startAddr) (hpos : 0 < k.heap.startAddr)
    (hroom : k.heap.index.size < k.heap.index.maxSize) (hlt : growth < 2 ^ 32)
    (hmin : minBlock ≤ growth)
    (hholes : ∀ i < k.heap.index.size, k.heap.startAddr ≤ slot k.mem k.heap.index i ∧
      slot k.mem k.heap.index i + headerSize k.mem (slot k.mem k.heap.index i) + growth ≤ 2 ^ 32)
    {oldEnd : ℕ} (hstart : k.heap.startAddr ≤ oldEnd) (hend : oldEnd + growth ≤ 2 ^ 32)
    (h : addSpace k oldEnd growth = .ok k') :
    ∃ i < k'.heap.index.size, growth ≤ headerSize k'.mem (slot k'.mem k'.heap.index i) := by
  rw [addSpace] at h
  cases hlast : (lastHeader k.mem k.heap.index k.heap.index.size).1 with
  | some i =>
    have hi := lastHeader_lt hlast
    simp only [hlast, orderedArrayLookup_eq hi, except_ok_bind] at h
    obtain ⟨habove, hsum⟩ := hholes i hi
    obtain ⟨hole, hslot⟩ : ∃ hole, hole = slot k.mem k.heap.index i := ⟨_, rfl⟩
    rw [← hslot] at h habove hsum
    rw [wadd_eq (by omega)] at h
    have hk := (Except.ok.inj h).symm
    have hmem : k'.mem = resizeBlock k.mem hole (headerSize k.mem hole + growth) := by rw [hk]
    have hheap : k'.heap = k.heap := by rw [hk]
    rw [hheap, hmem]
    refine ⟨i, hi, ?_⟩
    have hslot' : slot (resizeBlock k.mem hole (headerSize k.mem hole + growth)) k.heap.index i =
        hole := by
      refine (slot_congr fun x _ hx => ?_).trans hslot.symm
      exact resizeBlock_apply_before (by omega) (by omega) (by omega) (by omega)
    rw [hslot', headerSize_resizeBlock_of_le (by omega) (by omega) (by omega)]
    exact Nat.le_add_left growth _
  | none =>
    have hmin₀ : 0 < minBlock := by decide
    have hempty : k.heap.index.size = 0 := by
      by_contra hne
      have hzero := lastHeader_eq_none hlast (Nat.pos_of_ne_zero hne)
      have habove := (hholes 0 (Nat.pos_of_ne_zero hne)).1
      omega
    simp only [hlast] at h
    obtain ⟨⟨mem, index⟩, hinsert, hk⟩ := except_bind_eq_ok.mp h
    obtain ⟨hcomparer, -⟩ := assert_bind_eq_ok.mp hinsert
    obtain ⟨mem', p, hinsert', hp, hslot, hframe⟩ := orderedArrayInsert_spec
      (makeHole k.mem oldEnd growth) k.heap.index oldEnd hcomparer (by omega)
    have hinserted := Except.ok.inj (hinsert'.symm.trans hinsert)
    obtain ⟨hmem, hindex⟩ := Prod.mk.inj hinserted
    have hk := (Except.ok.inj hk).symm
    have hmem' : k'.mem = mem' := by rw [hk, ← hmem]; rfl
    have hindex' : k'.heap.index = { k.heap.index with size := k.heap.index.size + 1 } := by
      rw [hk, ← hindex]; rfl
    refine ⟨0, by rw [hindex']; exact Nat.succ_pos _, ?_⟩
    have hslot₀ : slot k'.mem k'.heap.index 0 = oldEnd := by
      have hzero := hslot 0
      rw [if_neg (by omega), if_pos (by omega)] at hzero
      rw [hmem', hindex']
      exact hzero
    rw [hslot₀, hmem', headerSize_congr fun x hx _ => hframe x (.inr (by omega)),
      headerSize_makeHole_of_le hlt hmin hend]

/-- **One growth is enough.** When `make_space` returns and no page table had to be made, the search
that is tried again finds a hole, so `alloc` does not make space again. -/
theorem findSmallestHole_after_makeSpace (hk : OnlyHoles k.mem k.heap)
    (hsize : size + minBlock < 2 ^ 32)
    (htables : NoNewTable k (k.heap.endAddr - k.heap.startAddr + totalBlockSize size))
    (hspace : makeSpace alloc k (totalBlockSize size) = .ok k') :
    ∃ i, findSmallestHole k'.mem k'.heap (totalBlockSize size) false = some i ∧
      ∀ depth, Mem.alloc (depth + 1) k' size false =
        allocFrom k' (totalBlockSize size) false i := by
  have hstart_pages := hk.start_pages
  have hend_pages := hk.end_pages
  have hpage := hk.page_le
  have hle := hk.start_le
  have hend := hk.end_le
  have hmax := hk.max_lt
  have hstorage := hk.storage
  have htotal : totalBlockSize size = size + minBlock := total_eq hsize
  rw [htotal] at htables hspace ⊢
  have hold : wsub k.heap.endAddr k.heap.startAddr = k.heap.endAddr - k.heap.startAddr :=
    wsub_eq hle (by omega)
  obtain ⟨k₁, hexpand, hadd⟩ := except_bind_eq_ok.mp hspace
  rw [hold] at hexpand hadd
  obtain ⟨hwrap, -⟩ := needed_no_wrap hle (by omega) hsize rfl hexpand
  rw [wadd_eq (by omega)] at hexpand
  obtain ⟨-, hmem, hheap⟩ := expand_of_tables hle (by omega) htables hexpand
  -- The new length is the needed one, rounded up to whole pages.
  have hround : alignUp (k.heap.endAddr - k.heap.startAddr + (size + minBlock)) =
      (k.heap.endAddr - k.heap.startAddr + (size + minBlock) + (pageSize - 1)) / pageSize *
        pageSize :=
    alignUp_eq (by simp only [pageSize] at *; omega)
  obtain ⟨length, hlength⟩ : ∃ length, length =
    alignUp (k.heap.endAddr - k.heap.startAddr + (size + minBlock)) := ⟨_, rfl⟩
  rw [← hlength] at hheap hround
  have hpos : 0 < k.heap.startAddr := by
    simp only [pageSize] at hpage
    omega
  have hbounds : k.heap.endAddr - k.heap.startAddr + (size + minBlock) ≤ length ∧
      k.heap.startAddr + length ≤ 2 ^ 32 := by
    rw [hround]
    simp only [pageSize] at *
    omega
  have hnew : wsub k₁.heap.endAddr k₁.heap.startAddr = length := by
    rw [hheap]
    simp only [wadd, wsub]
    omega
  obtain ⟨growth, hgrowth⟩ : ∃ growth, growth = length - (k.heap.endAddr - k.heap.startAddr) :=
    ⟨_, rfl⟩
  simp only [hnew] at hadd
  rw [wsub_eq (by omega) (by omega), ← hgrowth] at hadd
  have hindex₁ : k₁.heap.index = k.heap.index := by rw [hheap]
  have hstart₁ : k₁.heap.startAddr = k.heap.startAddr := by rw [hheap]
  have hroom₁ : ∀ i < k₁.heap.index.size, k₁.heap.startAddr ≤ slot k₁.mem k₁.heap.index i ∧
      slot k₁.mem k₁.heap.index i + headerSize k₁.mem (slot k₁.mem k₁.heap.index i) + growth ≤
        2 ^ 32 := by
    intro i hi
    rw [hindex₁] at hi ⊢
    rw [hmem, hstart₁]
    obtain ⟨-, habove, hinside⟩ := hk.holes i hi
    exact ⟨habove, by omega⟩
  obtain ⟨j, hj, hlarge⟩ := addSpace_large (by rw [hindex₁, hstart₁]; exact hstorage)
    (by rw [hstart₁]; exact hpos) (by rw [hindex₁]; exact hk.not_full) (by omega) (by omega) hroom₁
    (by rw [hstart₁]; exact hle) (by omega) hadd
  obtain ⟨i, hfound⟩ := exists_findSmallestHole hj
    (show size + minBlock ≤ headerSize k'.mem (slot k'.mem k'.heap.index j) by omega)
  refine ⟨i, hfound, fun depth => ?_⟩
  rw [← htotal] at hfound ⊢
  exact alloc_of_find depth hfound

/-- The first heap grows for a block that is larger than the heap. -/
theorem one_growth_first_heap : ∃ k k' i, OnlyHoles k.mem k.heap ∧
    findSmallestHole k.mem k.heap (totalBlockSize firstHole.size) false = none ∧
    makeSpace (Mem.alloc 0) k (totalBlockSize firstHole.size) = .ok k' ∧
    findSmallestHole k'.mem k'.heap (totalBlockSize firstHole.size) false = some i := by
  have hrun : returns sampleHeap (fun k =>
      decide (OnlyHoles k.withTables.mem k.withTables.heap) &&
      decide (findSmallestHole k.withTables.mem k.withTables.heap (totalBlockSize firstHole.size)
        false = none) &&
      returns (makeSpace (Mem.alloc 0) k.withTables (totalBlockSize firstHole.size))
        fun _ => true) = true := by
    decide +kernel
  obtain ⟨k, -, hrun⟩ := exists_of_returns hrun
  simp only [Bool.and_eq_true, decide_eq_true_eq] at hrun
  obtain ⟨⟨hholes, hfind⟩, hrun⟩ := hrun
  obtain ⟨k', hspace, -⟩ := exists_of_returns hrun
  obtain ⟨i, hfound, -⟩ := findSmallestHole_after_makeSpace hholes (by decide)
    (fun n _ => rfl) hspace
  exact ⟨k.withTables, k', i, hholes, hfind, hspace, hfound⟩

end Studix.Mem
