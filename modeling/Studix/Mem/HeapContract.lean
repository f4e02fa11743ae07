import Studix.Mem.HeapEffect

/-!
# Holes to which the heap is contracted

When the hole that `free` makes ends where the heap ends, the heap is contracted to whole pages
behind the header of the hole, and the hole gets what is left of its first page. That may be any
number of bytes below the page size. When nothing is left, `free` lists the hole although its memory
no longer belongs to the heap. When less than a header and a footer is left, the footer overlaps the
header, or the footer of the block in front.

## Main definitions

* `HoleInside`: a hole that `free` lists lies inside the heap.
* `KeepsOthers`: the other blocks in use stay as they are.

## Main results

* `WellFormed.holeInside_iff`: when the hole lies inside the heap.
* `WellFormed.keepsOthers`: when the other blocks stay.
-/

namespace Studix.Mem

variable {m m' : Memory} {heap : Heap} {blocks : List Block} {B : Block} {k k' : Kernel}
  {alloc : Alloc} {header : ℕ}

/-! ### The size of the hole -/

/-- What is left of the hole at `header` when the heap is contracted to it. -/
def keptSize (heap : Heap) (header : ℕ) : ℕ := contractedEnd heap header - header

/-- The sizes that leave no room for a hole: it is gone, or its footer runs over its size. -/
def NoRoom (n : ℕ) : Prop := n = 0 ∨ sizeofFooter < n ∧ n < minBlock

instance (n : ℕ) : Decidable (NoRoom n) := inferInstanceAs (Decidable (_ ∨ _))

section Released

variable (hw : WellFormed k.mem k.heap blocks) (hB : B ∈ blocks)

include hw

/-- Behind the first two words of the heap the memory is that after the release; the index may have
run over those words. -/
theorem Released.mem_above (hreleased : Released k blocks header k') {x : ℕ}
    (hx : k.heap.startAddr + 8 ≤ x) : k'.mem x = releasedMem k.mem k.heap header x := by
  have hstorage := hw.inv.bounds.storage
  have hmax := hw.inv.index.size_le
  refine hreleased.mem_eq x ?_
  rw [newEntries]
  split_ifs <;> omega

include hB

/-- The heap is contracted to an end between the header of the hole and its old end. -/
theorem WellFormed.contractedEnd_bounds : B.addr ≤ contractedEnd k.heap B.addr ∧
    k.heap.startAddr + heapMinSize ≤ contractedEnd k.heap B.addr ∧
    contractedEnd k.heap B.addr ≤ k.heap.endAddr := by
  obtain ⟨hstart, hsize, hend⟩ := hw.inv.of_mem hB
  have hmin := hw.inv.bounds.min_le
  have hlt := hw.inv.bounds.end_lt
  have hpages := hw.inv.bounds.pages
  have hblock : 0 < minBlock := by decide
  have hwrap : B.addr - k.heap.startAddr + pageSize ≤ 2 ^ 32 := by
    have hpos := hw.inv.bounds.start_pos
    simp only [pageSize] at hpages ⊢
    omega
  obtain ⟨hge, hle, -⟩ := contractedLength_bounds hw.inv.bounds hstart (by omega)
  have hup := (alignUp_bounds hwrap).1
  have hlength : alignUp (B.addr - k.heap.startAddr) ≤ contractedLength k.heap B.addr :=
    le_max_left _ _
  rw [contractedEnd]
  omega

variable (hreleased : Released k blocks B.addr k')

include hreleased

theorem Released.headerSize_eq :
    headerSize k'.mem B.addr = headerSize (releasedMem k.mem k.heap B.addr) B.addr := by
  have hstart := (hw.inv.of_mem hB).1
  exact headerSize_congr fun x hx _ => hreleased.mem_above hw (by omega)

/-- The hole keeps its size when it is not shortened. -/
theorem Released.headerSize_merged
    (hnot : ¬(AtEnd k.mem k.heap B.addr ∧ B.addr < contractedEnd k.heap B.addr)) :
    headerSize k'.mem B.addr = mergedSize k.mem B.addr := by
  have hle := hreleased.merged_le
  have hlt := hw.inv.bounds.end_lt
  rw [hreleased.headerSize_eq hw hB, releasedMem, if_neg hnot, headerSize_mergedMem (by omega)]

theorem Released.headerSize_resized (hatEnd : AtEnd k.mem k.heap B.addr)
    (hkept : B.addr < contractedEnd k.heap B.addr) : headerSize k'.mem B.addr =
      headerSize (resizeBlock (mergedMem k.mem B.addr) B.addr (keptSize k.heap B.addr)) B.addr := by
  rw [hreleased.headerSize_eq hw hB, releasedMem, if_pos ⟨hatEnd, hkept⟩, keptSize]

end Released

/-! ### Holes inside the heap -/

/-- The last step of `free` lists the header: it is still that of the block. -/
def Inserts (m : Memory) (header : ℕ) : Prop :=
  (unifyLeft (setHeaderIsHole m header true) header (assocFooter m header)).2 = header

instance (m : Memory) (header : ℕ) : Decidable (Inserts m header) :=
  inferInstanceAs (Decidable (_ = _))

/-- A hole that `free` lists lies inside the heap. -/
def HoleInside (k : Kernel) (header : ℕ) (k' : Kernel) : Prop :=
  Inserts k.mem header →
    k'.heap.startAddr ≤ header ∧ header + headerSize k'.mem header ≤ k'.heap.endAddr

/-- A block is listed unless what lies before it looks like a footer. -/
theorem WellFormed.inserts_iff (hw : WellFormed k.mem k.heap blocks) (hB : B ∈ blocks) :
    Inserts k.mem B.addr ↔ ¬IsLeftFooter k.mem B.addr := by
  obtain ⟨hstart, hsize, hend⟩ := hw.inv.of_mem hB
  have hbase := hw.start_lt
  have hlt := hw.inv.bounds.end_lt
  have hB_end : B.end_ = B.addr + B.size := rfl
  simp only [minBlock, sizeofHeader, sizeofFooter] at hsize
  have hfooter : assocFooter k.mem B.addr = B.end_ - sizeofFooter := by
    rw [assocFooter, hw.headerSize_eq hB, wadd_eq (by omega), hB_end, sizeofFooter,
      wsub_eq (by omega) (by omega)]
  rw [Inserts, hfooter]
  by_cases hleft : IsLeftFooter k.mem B.addr
  · rw [hw.unifyLeft_magic hB hleft]
    exact iff_of_false (by simp only; omega) (not_not.mpr hleft)
  · rw [unifyLeft_of_not fun hmark => hleft ((hw.isLeftFooter_mark hB).mp hmark)]
    exact iff_of_true rfl hleft

/-- **The hole lies inside the heap** unless the heap is contracted to it and leaves no room for
it. -/
theorem WellFormed.holeInside_iff (hw : WellFormed k.mem k.heap blocks) (hB : B ∈ blocks)
    (htag : B.tag = false) (h : free alloc k (B.addr + sizeofHeader) = .ok k') :
    HoleInside k B.addr k' ↔ IsLeftFooter k.mem B.addr ∨
      ¬(AtEnd k.mem k.heap B.addr ∧ NoRoom (keptSize k.heap B.addr)) := by
  rw [HoleInside, hw.inserts_iff hB]
  by_cases hleft : IsLeftFooter k.mem B.addr
  · exact iff_of_true (fun hnot => absurd hleft hnot) (.inl hleft)
  have hreleased := hw.free_effect hB htag hleft h
  obtain ⟨hstart, hsize, hend⟩ := hw.inv.of_mem hB
  obtain ⟨hle, hmin, hle'⟩ := hw.contractedEnd_bounds hB
  have hlt := hw.inv.bounds.end_lt
  have hbase := hw.layout.start
  simp only [hleft, not_false_eq_true, forall_const, false_or, hreleased.start_eq, hstart, true_and,
    hreleased.end_eq, releasedEnd]
  by_cases hatEnd : AtEnd k.mem k.heap B.addr
  · simp only [hatEnd, if_true, true_and]
    have hkept : keptSize k.heap B.addr = contractedEnd k.heap B.addr - B.addr := rfl
    rcases hle.eq_or_lt with heq | hlt'
    · -- Nothing is left of the hole.
      rw [hreleased.headerSize_merged hw hB fun hboth => by omega]
      have hmerged : AtEnd k.mem k.heap B.addr := hatEnd
      have hblock : 0 < minBlock := by decide
      rw [AtEnd] at hmerged
      refine iff_of_false (by omega) (not_not.mpr (.inl (by omega)))
    · rw [hreleased.headerSize_resized hw hB hatEnd hlt']
      have hend : sizeofFooter ≤ B.addr + keptSize k.heap B.addr := by
        simp only [heapMinSize, sizeofFooter] at hmin ⊢
        omega
      by_cases hroom : NoRoom (keptSize k.heap B.addr)
      · obtain hnone | ⟨hover, hover'⟩ := hroom
        · omega
        · -- The footer is written over the size.
          have hlarge : keptSize k.heap B.addr < headerSize
              (resizeBlock (mergedMem k.mem B.addr) B.addr (keptSize k.heap B.addr)) B.addr :=
            lt_headerSize_resizeBlock (by omega) (by omega) hover hover'
          exact iff_of_false (by omega) (not_not.mpr (.inr ⟨hover, hover'⟩))
      · have hexact : headerSize
            (resizeBlock (mergedMem k.mem B.addr) B.addr (keptSize k.heap B.addr)) B.addr =
              keptSize k.heap B.addr :=
          headerSize_resizeBlock (by omega) hend (by rw [NoRoom] at hroom; omega)
        rw [hexact]
        exact iff_of_true (by omega) hroom
  · simp only [hatEnd, if_false, false_and, not_false_eq_true, iff_true]
    rw [hreleased.headerSize_merged hw hB fun hboth => hatEnd hboth.1]
    exact hreleased.merged_le

/-- The first heap after two blocks of 120 bytes. -/
def twoBlocks : List Block :=
  [⟨firstHole.addr, 120, false⟩, ⟨firstHole.addr + 120, 120, false⟩,
    ⟨firstHole.addr + 240, firstHole.size - 240, true⟩]

/-- The second of two small blocks is released: the heap is contracted to its least size. -/
theorem holeInside_two_blocks : ∃ k B k', WellFormed k.mem k.heap twoBlocks ∧ B ∈ twoBlocks ∧
    B.tag = false ∧ free (Mem.alloc 0) k (B.addr + sizeofHeader) = .ok k' ∧
      HoleInside k B.addr k' := by
  obtain ⟨k, k', hw, hfree, htest⟩ := @exists_release twoBlocks ⟨firstHole.addr + 120, 120, false⟩
    [(100, false), (100, false)]
    (fun k _ => decide (¬NoRoom (keptSize k.heap (firstHole.addr + 120)))) (by decide +kernel)
  have hB : (⟨firstHole.addr + 120, 120, false⟩ : Block) ∈ twoBlocks :=
    List.mem_cons_of_mem _ List.mem_cons_self
  refine ⟨k, ⟨firstHole.addr + 120, 120, false⟩, k', hw, hB, rfl, hfree, ?_⟩
  exact (hw.holeInside_iff hB rfl hfree).mpr (.inr fun hboth => of_decide_eq_true htest hboth.2)

/-- The first heap after a block of the least size of the heap and a block of 120 bytes. -/
def atLeastSize : List Block :=
  [⟨firstHole.addr, heapMinSize, false⟩, ⟨firstHole.addr + heapMinSize, 120, false⟩,
    ⟨firstHole.addr + heapMinSize + 120, firstHole.size - heapMinSize - 120, true⟩]

/-- **A hole outside the heap is listed** when the heap is contracted to a block at the start of a
page. -/
theorem free_lists_hole_outside : ∃ k blocks B k', WellFormed k.mem k.heap blocks ∧ B ∈ blocks ∧
    B.tag = false ∧ free (Mem.alloc 0) k (B.addr + sizeofHeader) = .ok k' ∧
      ¬HoleInside k B.addr k' := by
  obtain ⟨k, k', hw, hfree, htest⟩ := @exists_release atLeastSize
    ⟨firstHole.addr + heapMinSize, 120, false⟩ [(heapMinSize - minBlock, false), (100, false)]
    (fun k k' => decide (Inserts k.mem (firstHole.addr + heapMinSize)) &&
      decide (k'.heap.endAddr = firstHole.addr + heapMinSize) &&
      decide (0 < headerSize k'.mem (firstHole.addr + heapMinSize))) (by decide +kernel)
  simp only [Bool.and_eq_true, decide_eq_true_eq] at htest
  obtain ⟨⟨hinserts, hend⟩, hsize⟩ := htest
  refine ⟨k, atLeastSize, ⟨firstHole.addr + heapMinSize, 120, false⟩, k', hw,
    List.mem_cons_of_mem _ List.mem_cons_self, rfl, hfree, fun hinside => ?_⟩
  have hle := (hinside hinserts).2
  simp only at hle
  omega

/-! ### The other blocks -/

/-- The other blocks in use stay as they are. -/
def KeepsOthers (blocks : List Block) (B : Block) (m m' : Memory) : Prop :=
  ∀ C ∈ blocks, C.tag = false → C ≠ B → ∀ x, C.addr ≤ x → x < C.end_ → m' x = m x

/-- The footer of the hole that is left overlaps a block in use in front of it. -/
def ClipsFooter (k : Kernel) (blocks : List Block) (B : Block) : Prop :=
  AtEnd k.mem k.heap B.addr ∧ 0 < keptSize k.heap B.addr ∧
    keptSize k.heap B.addr < sizeofFooter ∧ ∃ L ∈ blocks, L.tag = false ∧ L.end_ = B.addr

/-- The index runs over the header of a block in use. -/
def OverrunsHeader (k : Kernel) (blocks : List Block) (B : Block) : Prop :=
  k.heap.index.maxSize < k.heap.index.size + newEntries k.mem B.addr ∧
    ∃ F ∈ blocks, F.tag = false ∧ F ≠ B ∧ F.addr = k.heap.startAddr

/-- **When a release leaves the other blocks alone.** -/
structure LeavesOthers (k : Kernel) (blocks : List Block) (B : Block) : Prop where
  left : IsLeftFooter k.mem B.addr → ¬AtEnd k.mem k.heap B.addr
  clips : ¬IsLeftFooter k.mem B.addr → ¬ClipsFooter k blocks B
  overruns : ¬IsLeftFooter k.mem B.addr → ¬OverrunsHeader k blocks B

section Others

variable (hw : WellFormed k.mem k.heap blocks) (hB : B ∈ blocks) (htag : B.tag = false)

include hw hB

/-- When the magic number was taken for a header, only the block itself changes. -/
theorem ReleasedLeft.keepsOthers (hleft : ReleasedLeft k B k')
    (hnot : ¬AtEnd k.mem k.heap B.addr) : KeepsOthers blocks B k.mem k'.mem := by
  intro C hC _ hne x hx hx'
  obtain ⟨hstart, hsize, -⟩ := hw.inv.of_mem hB
  have hstartC := (hw.inv.of_mem hC).1
  have hB_end : B.end_ = B.addr + B.size := rfl
  rw [hleft.mem_eq hnot x (by omega)]
  simp only [minBlock, sizeofHeader, sizeofFooter] at hsize
  rcases (hw.inv.tiles.beside hC hB).resolve_left hne with hbefore | hbehind
  · exact leftMem_apply_of_lt hw hB (by omega)
  · exact leftMem_apply_of_le hw hB (by omega)

/-- Another block in use lies in front of the block or behind the hole that it becomes. -/
theorem Released.beside (hreleased : Released k blocks B.addr k') {C : Block} (hC : C ∈ blocks)
    (hused : C.tag = false) (hne : C ≠ B) :
    C.end_ ≤ B.addr ∨ B.addr + mergedSize k.mem B.addr ≤ C.addr := by
  have hbehind := hreleased.behind
  rw [mergedSize]
  rw [hw.headerSize_eq hB] at hbehind ⊢
  rcases (hw.inv.tiles.beside hC hB).resolve_left hne with hbefore | hafter
  · exact .inl hbefore
  refine .inr ?_
  split_ifs with hright
  · obtain ⟨R, hR, hRtag, haddr⟩ := hbehind hright
    have hRsize := (hw.inv.headers R hR).size
    rw [haddr] at hRsize
    rw [hRsize]
    have hCR : C ≠ R := fun heq => by simp [heq, hRtag] at hused
    have hC' := (hw.inv.of_mem hC).2.1
    have hmin : 0 < minBlock := by decide
    rcases (hw.inv.tiles.beside hC hR).resolve_left hCR with hbefore | hbehind
    · simp only [Tile.end_] at hbefore hafter
      omega
    · rw [Tile.end_, haddr] at hbehind
      omega
  · exact hafter

/-- What is in front of the block stays, unless the footer of the hole that is left reaches it. -/
theorem releasedMem_apply_of_lt {x : ℕ} (hx : x < B.addr)
    (hfooter : AtEnd k.mem k.heap B.addr → 0 < keptSize k.heap B.addr →
      x + sizeofFooter < B.addr + keptSize k.heap B.addr) :
    releasedMem k.mem k.heap B.addr x = k.mem x := by
  obtain ⟨hle, -, hle'⟩ := hw.contractedEnd_bounds hB
  have hlt := hw.inv.bounds.end_lt
  have hkept : keptSize k.heap B.addr = contractedEnd k.heap B.addr - B.addr := rfl
  rw [releasedMem, ← hkept]
  split_ifs with hresized
  · rw [resizeBlock_apply_of_lt (by omega) (by omega) (hfooter hresized.1 (by omega)),
      mergedMem_apply_of_notMem (by omega)]
  · exact mergedMem_apply_of_notMem (by omega)

include htag

/-- **A release leaves the other blocks in use alone** under the condition. -/
theorem WellFormed.keepsOthers (hok : LeavesOthers k blocks B)
    (h : free alloc k (B.addr + sizeofHeader) = .ok k') : KeepsOthers blocks B k.mem k'.mem := by
  by_cases hleft : IsLeftFooter k.mem B.addr
  · exact (hw.free_effect_left hB hleft htag h).keepsOthers hw hB (hok.left hleft)
  have hreleased := hw.free_effect hB htag hleft h
  intro C hC hused hne x hx hx'
  obtain ⟨hstart, hsize, hend⟩ := hw.inv.of_mem hB
  obtain ⟨hstartC, hsizeC, hendC⟩ := hw.inv.of_mem hC
  have hstorage := hw.inv.bounds.storage
  have hC_end : C.end_ = C.addr + C.size := rfl
  simp only [minBlock, sizeofHeader, sizeofFooter] at hsize hsizeC
  have hmem : k'.mem x = releasedMem k.mem k.heap B.addr x := by
    by_cases hfirst : x < k.heap.startAddr + 8
    · -- The first block is the only one that the index can reach.
      have haddr : C.addr = k.heap.startAddr := by
        refine (hw.eq_start_or_exists_left hC).resolve_right ?_
        rintro ⟨L, hL, hL_end⟩
        obtain ⟨h₁, h₂, -⟩ := hw.inv.of_mem hL
        simp only [minBlock, sizeofHeader, sizeofFooter, Tile.end_] at h₂ hL_end
        omega
      have hroom : k.heap.index.size + newEntries k.mem B.addr ≤ k.heap.index.maxSize :=
        not_lt.mp fun hover => hok.overruns hleft ⟨hover, C, hC, hused, hne, haddr⟩
      exact hreleased.mem_eq x (by omega)
    · exact hreleased.mem_above hw (not_lt.mp hfirst)
  rw [hmem]
  rcases hreleased.beside hw hB hC hused hne with hbefore | hbehind
  · refine releasedMem_apply_of_lt hw hB (by omega) fun hatEnd hkept => ?_
    by_contra hreach
    simp only [sizeofFooter] at hreach
    -- Less than a footer is left of the hole, so a block ends in front of it.
    obtain ⟨-, hmin, -⟩ := hw.contractedEnd_bounds hB
    have hkeptSize : keptSize k.heap B.addr = contractedEnd k.heap B.addr - B.addr := rfl
    obtain ⟨L, hL, hL_end⟩ := (hw.eq_start_or_exists_left hB).resolve_left fun heq => by
      simp only [heapMinSize] at hmin
      omega
    have hlive : L.tag = true := by
      by_contra hlive
      exact hok.clips hleft ⟨hatEnd, hkept, by simp only [sizeofFooter]; omega, L, hL,
        Bool.eq_false_of_not_eq_true hlive, hL_end⟩
    have hLsize := (hw.inv.of_mem hL).2.1
    simp only [minBlock, sizeofHeader, sizeofFooter] at hLsize
    have hCL : C ≠ L := fun heq => by simp [heq, hlive] at hused
    rcases (hw.inv.tiles.beside hC hL).resolve_left hCL with hbefore' | hbehind'
    · simp only [Tile.end_] at hL_end hbefore'
      omega
    · omega
  · have hle := hreleased.merged_le
    have hmerged : B.size ≤ mergedSize k.mem B.addr := by
      rw [mergedSize, hw.headerSize_eq hB]
      split_ifs <;> omega
    have hnot : ¬AtEnd k.mem k.heap B.addr := fun hatEnd => by
      rw [AtEnd] at hatEnd
      omega
    rw [releasedMem, if_neg fun hboth => hnot hboth.1]
    exact mergedMem_apply_of_notMem (by simp only [sizeofHeader]; omega)

omit hB htag in
/-- An index that runs over the header of a block by one entry overwrites its magic number. -/
theorem Released.not_overrunsHeader (hreleased : Released k blocks B.addr k')
    (hstart : k.heap.startAddr ≤ B.addr)
    (hone : k.heap.index.size + newEntries k.mem B.addr ≤ k.heap.index.maxSize + 1)
    (hkeeps : KeepsOthers blocks B k.mem k'.mem) : ¬OverrunsHeader k blocks B := by
  rintro ⟨hover, F, hF, hused, hne, haddr⟩
  have hbase := hw.start_lt
  have hFsize := (hw.inv.of_mem hF).2.1
  have hF_end : F.end_ = F.addr + F.size := rfl
  simp only [minBlock, sizeofHeader, sizeofFooter] at hFsize hbase
  have hslot : slot k'.mem k'.heap.index k.heap.index.maxSize = heapMagic := by
    have hloc : k.heap.index.array + 4 * k.heap.index.maxSize = F.addr := by
      rw [haddr, hw.layout.start, hw.layout.array, hw.layout.maxSize]
    rw [slot, hreleased.index_eq]
    simp only
    rw [hloc]
    exact (headerMagic_congr fun x hx hx' =>
      hkeeps F hF hused hne x hx (by omega)).trans (hw.inv.headers F hF).magic
  have hlisted : heapMagic ∈ elems k'.mem k'.heap.index := by
    refine mem_elems.mpr ⟨k.heap.index.maxSize, ?_, hslot⟩
    rw [hreleased.index_eq]
    exact hover
  rcases hreleased.entries hone _ hlisted with heq | heq | hhole
  · omega
  · exact absurd heq (by decide)
  · obtain ⟨H, hH, -, heq⟩ := mem_holes.mp hhole
    have hle := (hw.inv.of_mem hH).1
    omega

omit htag in
/-- A footer that overlaps the footer in front of the block changes it: its low byte is no byte of
the magic number behind the first, and no byte of the magic number is the high byte of an address of
the heap. -/
theorem Released.not_clipsFooter (hreleased : Released k blocks B.addr k')
    (hkeeps : KeepsOthers blocks B k.mem k'.mem) : ¬ClipsFooter k blocks B := by
  rintro ⟨hatEnd, hpos, hshort, L, hL, hused, hL_end⟩
  obtain ⟨hle, hmin, hle'⟩ := hw.contractedEnd_bounds hB
  obtain ⟨hstartL, hsizeL, hendL⟩ := hw.inv.of_mem hL
  have hBsize := (hw.inv.of_mem hB).2.1
  have hlt := hw.end_lt
  have hbase := hw.layout.start
  have hkept : keptSize k.heap B.addr = contractedEnd k.heap B.addr - B.addr := rfl
  have hLB : L ≠ B := fun heq => by
    simp only [heq, Tile.end_, minBlock, sizeofHeader, sizeofFooter] at hL_end hBsize
    omega
  have hfooter := hw.footers L hL (.inl hused)
  have hmagic : load32 k.mem (B.addr - 8) = heapMagic := hL_end ▸ hfooter.magic
  have hpointer : load32 k.mem (B.addr - 8 + 4) = L.addr := hL_end ▸ hfooter.header
  simp only [Tile.end_, minBlock, sizeofHeader, sizeofFooter, heapMinSize, heapStart] at *
  set r := keptSize k.heap B.addr
  -- The bytes of the footer in front of the block, before and after the release.
  have hnew : ∀ i < 4, r + i < 8 → k.mem (B.addr - 8 + (r + i)) =
      BitVec.ofNat 8 (heapMagic / 256 ^ i) := by
    intro i hi hri
    rw [← hkeeps L hL hused hLB _ (by omega) (by simp only [Tile.end_]; omega),
      hreleased.mem_above hw (by omega), releasedMem, if_pos ⟨hatEnd, by omega⟩, ← hkept,
      show B.addr - 8 + (r + i) = B.addr + r - sizeofFooter + i by simp only [sizeofFooter]; omega]
    exact resizeBlock_apply_magic (by omega) (by simp only [sizeofFooter]; omega) hi
  rcases Nat.lt_or_ge r 4 with hlow | hhigh
  · have hbyte := toNat_byte k.mem (B.addr - 8) hlow
    rw [hmagic, ← Nat.add_zero r, hnew 0 (by omega) (by omega)] at hbyte
    obtain hr | hr | hr : r = 1 ∨ r = 2 ∨ r = 3 := by omega
    all_goals
      rw [hr] at hbyte
      exact absurd hbyte (by decide)
  · have hbyte := toNat_byte k.mem (B.addr - 8 + 4) (show 3 < 4 by omega)
    have hvalue := hnew (7 - r) (by omega) (by omega)
    rw [hpointer, show B.addr - 8 + 4 + 3 = B.addr - 8 + (r + (7 - r)) by omega, hvalue] at hbyte
    have hrange : 192 ≤ L.addr / 256 ^ 3 % 256 ∧ L.addr / 256 ^ 3 % 256 < 208 := by omega
    rw [← hbyte] at hrange
    obtain hr | hr | hr | hr : 7 - r = 0 ∨ 7 - r = 1 ∨ 7 - r = 2 ∨ 7 - r = 3 := by omega
    all_goals
      rw [hr] at hrange
      exact absurd hrange (by decide)

/-- **When a release leaves the other blocks in use alone.** The condition is enough, and it is
exact where the magic number is not taken for the header of a hole at the end of the heap and the
index does not outgrow its storage by two entries at once. -/
theorem WellFormed.keepsOthers_iff (h : free alloc k (B.addr + sizeofHeader) = .ok k') :
    (LeavesOthers k blocks B → KeepsOthers blocks B k.mem k'.mem) ∧
      ((IsLeftFooter k.mem B.addr → ¬AtEnd k.mem k.heap B.addr) →
        k.heap.index.size + newEntries k.mem B.addr ≤ k.heap.index.maxSize + 1 →
        KeepsOthers blocks B k.mem k'.mem → LeavesOthers k blocks B) := by
  refine ⟨fun hok => hw.keepsOthers hB htag hok h, fun hleft hone hkeeps => ⟨hleft, ?_, ?_⟩⟩
  · exact fun hnot => (hw.free_effect hB htag hnot h).not_clipsFooter hw hB hkeeps
  · exact fun hnot => (hw.free_effect hB htag hnot h).not_overrunsHeader hw
      (hw.inv.of_mem hB).1 hone
      hkeeps

end Others

/-- The second of two small blocks is released: the first one stays. -/
theorem keepsOthers_two_blocks : ∃ k B k', WellFormed k.mem k.heap twoBlocks ∧ B ∈ twoBlocks ∧
    B.tag = false ∧ free (Mem.alloc 0) k (B.addr + sizeofHeader) = .ok k' ∧
      KeepsOthers twoBlocks B k.mem k'.mem := by
  obtain ⟨k, k', hw, hfree, htest⟩ := @exists_release twoBlocks ⟨firstHole.addr + 120, 120, false⟩
    [(100, false), (100, false)]
    (fun k _ => decide (¬IsLeftFooter k.mem (firstHole.addr + 120)) &&
      decide (sizeofFooter ≤ keptSize k.heap (firstHole.addr + 120)) &&
      decide (k.heap.index.size + newEntries k.mem (firstHole.addr + 120) ≤ k.heap.index.maxSize))
    (by decide +kernel)
  have hB : (⟨firstHole.addr + 120, 120, false⟩ : Block) ∈ twoBlocks :=
    List.mem_cons_of_mem _ List.mem_cons_self
  simp only [Bool.and_eq_true, decide_eq_true_eq] at htest
  obtain ⟨⟨hleft, hkept⟩, hroom⟩ := htest
  refine ⟨k, ⟨firstHole.addr + 120, 120, false⟩, k', hw, hB, rfl, hfree, ?_⟩
  refine (hw.keepsOthers_iff hB rfl hfree).1 ⟨fun h => absurd h hleft, fun _ hclips => ?_,
    fun _ hover => absurd hover.1 (not_lt.mpr hroom)⟩
  exact absurd hclips.2.2.1 (not_lt.mpr hkept)

/-- The first heap after a block that ends four bytes before the least size of the heap and a block
of 120 bytes. -/
def beforeLeastSize : List Block :=
  [⟨firstHole.addr, heapMinSize - 4, false⟩, ⟨firstHole.addr + heapMinSize - 4, 120, false⟩,
    ⟨firstHole.addr + heapMinSize + 116, firstHole.size - heapMinSize - 116, true⟩]

/-- **The footer of a block in use is overwritten** when four bytes are left of the hole behind
it. -/
theorem free_damages_left_neighbour : ∃ k blocks B k', WellFormed k.mem k.heap blocks ∧ B ∈ blocks ∧
    B.tag = false ∧ free (Mem.alloc 0) k (B.addr + sizeofHeader) = .ok k' ∧
      ¬KeepsOthers blocks B k.mem k'.mem := by
  obtain ⟨k, k', hw, hfree, htest⟩ := @exists_release beforeLeastSize
    ⟨firstHole.addr + heapMinSize - 4, 120, false⟩
    [(heapMinSize - 4 - minBlock, false), (100, false)]
    (fun k k' => decide (k'.mem (firstHole.addr + heapMinSize - 5) ≠
      k.mem (firstHole.addr + heapMinSize - 5))) (by decide +kernel)
  refine ⟨k, beforeLeastSize, ⟨firstHole.addr + heapMinSize - 4, 120, false⟩, k', hw,
    List.mem_cons_of_mem _ List.mem_cons_self, rfl, hfree, fun hkeeps => ?_⟩
  exact of_decide_eq_true htest (hkeeps ⟨firstHole.addr, heapMinSize - 4, false⟩
    List.mem_cons_self rfl
    (fun heq => absurd (congrArg Tile.size heq) (by decide)) _ (by decide) (by decide))

end Studix.Mem
