import Studix.Mem.HeapContract

/-!
# Merging with the neighbours

What a release makes of the block and its neighbours that are holes. A hole behind the block is
taken in, but the footer that ends the result stays that of the hole behind unless the heap is
contracted. A hole in front of the block is never taken in, since `unify_left` looks for its footer
at the wrong place.

## Main definitions

* `unionStart`, `unionEnd`: the block with its neighbours that are holes.
* `Coalesced`, `FooterOfHole`: what is claimed of the result.

## Main results

* `WellFormed.coalesced_iff`, `WellFormed.footerOfHole_iff`: when the result is as claimed.
-/

namespace Studix.Mem

variable {m m' : Memory} {heap : Heap} {blocks : List Block} {B R L : Block} {k k' : Kernel}
  {alloc : Alloc}

/-! ### The footer of the hole -/

/-- The hole at `header`, if it lies inside the heap, ends with a footer that leads back to it. -/
def FooterOfHole (header : ℕ) (k' : Kernel) : Prop :=
  header + headerSize k'.mem header ≤ k'.heap.endAddr →
    FooterAt k'.mem ⟨header, headerSize k'.mem header, true⟩

section

variable (hw : WellFormed k.mem k.heap blocks) (hB : B ∈ blocks) (htag : B.tag = false)

include hw hB

/-- When the magic number was taken for a header, the footer of the block points to it. -/
theorem ReleasedLeft.not_footerOfHole (hleft : ReleasedLeft k B k')
    (hnot : ¬AtEnd k.mem k.heap B.addr) : ¬FooterOfHole B.addr k' := by
  obtain ⟨hstart, hsize, hend⟩ := hw.inv.of_mem hB
  have hbase := hw.start_lt
  have hB_end : B.end_ = B.addr + B.size := rfl
  simp only [minBlock, sizeofHeader, sizeofFooter] at hsize
  have hown : headerSize k'.mem B.addr = B.size := by
    rw [headerSize_congr fun x hx _ => hleft.mem_eq hnot x (by omega), headerSize_leftMem hw hB]
  have hpointer : footerHeader k'.mem (B.end_ - sizeofFooter) = heapMagic := by
    rw [footerHeader_congr fun x hx _ => hleft.mem_eq hnot x (by
      simp only [sizeofFooter] at hx
      omega), leftMem, setFooterHeader]
    exact load32_store32 (by decide)
  intro hfooter
  rw [FooterOfHole, hown, hleft.end_eq hnot] at hfooter
  have hheader : footerHeader k'.mem (B.end_ - sizeofFooter) = B.addr := (hfooter hend).header
  omega

/-- The hole to which the heap was contracted ends with its footer, if it lies inside the heap. -/
theorem Released.footerOfHole_of_atEnd (hreleased : Released k blocks B.addr k')
    (hatEnd : AtEnd k.mem k.heap B.addr) : FooterOfHole B.addr k' := by
  obtain ⟨hstart, hsize, hend⟩ := hw.inv.of_mem hB
  obtain ⟨hle, hmin, hle'⟩ := hw.contractedEnd_bounds hB
  have hlt := hw.inv.bounds.end_lt
  have hbase := hw.layout.start
  have hkept : keptSize k.heap B.addr = contractedEnd k.heap B.addr - B.addr := rfl
  have hblock : 0 < minBlock := by decide
  intro hinside
  rw [hreleased.end_eq, releasedEnd, if_pos hatEnd] at hinside
  rcases hle.eq_or_lt with heq | hlt'
  · rw [hreleased.headerSize_merged hw hB fun hboth => by omega] at hinside
    have hmerged := hatEnd
    rw [AtEnd] at hmerged
    omega
  have hend' : sizeofFooter ≤ B.addr + keptSize k.heap B.addr := by
    simp only [heapMinSize, sizeofFooter] at hmin ⊢
    omega
  have hresized := hreleased.headerSize_resized hw hB hatEnd hlt'
  have hexact : headerSize k'.mem B.addr = keptSize k.heap B.addr := by
    rw [hresized] at hinside ⊢
    refine headerSize_resizeBlock (by omega) hend' ?_
    by_contra hroom
    have hlarge : keptSize k.heap B.addr < headerSize
        (resizeBlock (mergedMem k.mem B.addr) B.addr (keptSize k.heap B.addr)) B.addr :=
      lt_headerSize_resizeBlock (by omega) (by omega) (by omega) (by omega)
    omega
  rw [hexact]
  refine (footerAt_resizeBlock (m := mergedMem k.mem B.addr) true (by omega) hend').congr hend'
    fun x hx _ => ?_
  simp only [heapMinSize, sizeofFooter, Tile.end_] at hmin hx
  rw [hreleased.mem_above hw (by omega), releasedMem, if_pos ⟨hatEnd, hlt'⟩, ← hkept]

include htag

/-- **The hole ends with a footer that leads back to it** exactly when the heap is contracted to it,
or nothing was merged. -/
theorem WellFormed.footerOfHole_iff (h : free alloc k (B.addr + sizeofHeader) = .ok k') :
    FooterOfHole B.addr k' ↔ AtEnd k.mem k.heap B.addr ∨
      ¬IsLeftFooter k.mem B.addr ∧ ¬IsHoleAt k.mem B.end_ := by
  obtain ⟨hstart, hsize, hend⟩ := hw.inv.of_mem hB
  have hB_end : B.end_ = B.addr + B.size := rfl
  simp only [minBlock, sizeofHeader, sizeofFooter] at hsize
  by_cases hleft : IsLeftFooter k.mem B.addr
  · have hreleased := hw.free_effect_left hB hleft htag h
    by_cases hatEnd : AtEnd k.mem k.heap B.addr
    · refine iff_of_true (fun hinside => ?_) (.inl hatEnd)
      have hend' := hreleased.atEnd hatEnd
      omega
    · exact iff_of_false (hreleased.not_footerOfHole hw hB hatEnd)
        (not_or.mpr ⟨hatEnd, fun hboth => hboth.1 hleft⟩)
  have hreleased := hw.free_effect hB htag hleft h
  by_cases hatEnd : AtEnd k.mem k.heap B.addr
  · exact iff_of_true (hreleased.footerOfHole_of_atEnd hw hB hatEnd) (.inl hatEnd)
  simp only [hatEnd, hleft, false_or, not_false_eq_true, true_and]
  have hmerged := hreleased.headerSize_merged hw hB fun hboth => hatEnd hboth.1
  have hmem : ∀ x, B.addr + 12 ≤ x → k'.mem x = k.mem x := by
    intro x hx
    rw [hreleased.mem_above hw (by omega), releasedMem, if_neg fun hboth => hatEnd hboth.1,
      mergedMem_apply_of_notMem (.inr hx)]
  rw [FooterOfHole, hmerged, hreleased.end_eq, releasedEnd, if_neg hatEnd]
  by_cases hright : IsHoleAt k.mem B.end_
  · -- The footer is that of the hole behind the block.
    refine iff_of_false (fun hfooter => ?_) (not_not.mpr hright)
    have hbehind := hreleased.behind
    rw [hw.headerSize_eq hB, ← hB_end] at hbehind
    obtain ⟨R, hR, -, haddr⟩ := hbehind hright
    have hRsize := (hw.inv.headers R hR).size
    have hRbounds := (hw.inv.of_mem hR).2.1
    rw [haddr] at hRsize
    have hsum : mergedSize k.mem B.addr = B.size + R.size := by
      rw [mergedSize, hw.headerSize_eq hB, ← hB_end, if_pos hright, hRsize]
    have hR_end : R.end_ = B.addr + mergedSize k.mem B.addr := by
      rw [Tile.end_, haddr]
      omega
    have hold := (hw.footers R hR (.inr (hR_end ▸ hatEnd))).header
    have hnew : footerHeader k'.mem (R.end_ - sizeofFooter) = B.addr :=
      hR_end ▸ (hfooter hreleased.merged_le).header
    simp only [minBlock, sizeofHeader, sizeofFooter] at hRbounds hold hnew
    rw [footerHeader_congr fun x hx _ => hmem x (by omega), hold] at hnew
    omega
  · refine iff_of_true (fun _ => ?_) hright
    have hown : mergedSize k.mem B.addr = B.size := by
      rw [mergedSize, hw.headerSize_eq hB, ← hB_end, if_neg hright]
    rw [hown]
    have hfooter : FooterAt k'.mem B := (hw.footers B hB (.inl htag)).congr
      (by simp only [sizeofFooter]; omega) fun x hx _ => hmem x (by
        simp only [sizeofFooter] at hx
        omega)
    exact ⟨hfooter.magic, hfooter.header⟩

end

/-- The first of two small blocks is released: the hole keeps the footer of the block. -/
theorem footerOfHole_two_blocks : ∃ k B k', WellFormed k.mem k.heap twoBlocks ∧ B ∈ twoBlocks ∧
    B.tag = false ∧ free (Mem.alloc 0) k (B.addr + sizeofHeader) = .ok k' ∧
      FooterOfHole B.addr k' := by
  obtain ⟨k, k', hw, hfree, htest⟩ := @exists_release twoBlocks ⟨firstHole.addr, 120, false⟩
    [(100, false), (100, false)]
    (fun k _ => decide (¬IsLeftFooter k.mem firstHole.addr) &&
      decide (¬IsHoleAt k.mem (firstHole.addr + 120))) (by decide +kernel)
  simp only [Bool.and_eq_true, decide_eq_true_eq] at htest
  have hB : (⟨firstHole.addr, 120, false⟩ : Block) ∈ twoBlocks := List.mem_cons_self
  exact ⟨k, ⟨firstHole.addr, 120, false⟩, k', hw, hB, rfl, hfree,
    (hw.footerOfHole_iff hB rfl hfree).mpr (.inr htest)⟩

/-- The first heap after an aligned block, and a block in the gap in front of it. -/
def aroundGap : List Block :=
  [⟨firstHole.addr, 120, false⟩, ⟨firstHole.addr + 120, 3964, true⟩,
    ⟨firstHole.addr + 4084, 120, false⟩, ⟨firstHole.addr + 4204, firstHole.size - 4204, true⟩]

/-- **The footer of the hole behind stays** when a block is merged with it. -/
theorem free_leaves_stale_footer : ∃ k blocks B k', WellFormed k.mem k.heap blocks ∧ B ∈ blocks ∧
    B.tag = false ∧ free (Mem.alloc 0) k (B.addr + sizeofHeader) = .ok k' ∧
      ¬FooterOfHole B.addr k' := by
  obtain ⟨k, k', hw, hfree, htest⟩ := @exists_release aroundGap ⟨firstHole.addr, 120, false⟩
    [(100, true), (100, false)]
    (fun _ k' => decide (firstHole.addr + headerSize k'.mem firstHole.addr ≤ k'.heap.endAddr) &&
      decide (¬FooterAt k'.mem ⟨firstHole.addr, headerSize k'.mem firstHole.addr, true⟩))
    (by decide +kernel)
  simp only [Bool.and_eq_true, decide_eq_true_eq] at htest
  exact ⟨k, aroundGap, ⟨firstHole.addr, 120, false⟩, k', hw, List.mem_cons_self, rfl, hfree,
    fun hfooter => htest.2 (hfooter htest.1)⟩

/-! ### The merged hole -/

/-- Where the block starts together with a hole in front of it. -/
def unionStart (blocks : List Block) (B : Block) : ℕ :=
  ((blocks.find? fun L => L.tag && L.end_ == B.addr).map Tile.addr).getD B.addr

/-- Where the block ends together with a hole behind it. -/
def unionEnd (blocks : List Block) (B : Block) : ℕ :=
  ((blocks.find? fun R => R.tag && R.addr == B.end_).map Tile.end_).getD B.end_

/-- **The block and its neighbours that are holes have become one hole** of a heap that has its
invariant. -/
def Coalesced (blocks : List Block) (B : Block) (k' : Kernel) : Prop :=
  ∃ blocks', HeapInv k'.mem k'.heap blocks' ∧
    ⟨unionStart blocks B, unionEnd blocks B - unionStart blocks B, true⟩ ∈ blocks'

section Union

variable (hw : WellFormed k.mem k.heap blocks) (hB : B ∈ blocks)

theorem unionStart_eq (h : ∀ L ∈ blocks, L.tag = true → L.end_ ≠ B.addr) :
    unionStart blocks B = B.addr := by
  have hnone : (blocks.find? fun L => L.tag && L.end_ == B.addr) = none := by
    refine List.find?_eq_none.mpr fun L hL => ?_
    simpa using h L hL
  rw [unionStart, hnone]
  rfl

theorem exists_unionStart (hL : L ∈ blocks) (htag : L.tag = true) (hend : L.end_ = B.addr) :
    ∃ L ∈ blocks, L.end_ = B.addr ∧ unionStart blocks B = L.addr := by
  cases hfind : blocks.find? fun L => L.tag && L.end_ == B.addr with
  | none =>
    have hnot := List.find?_eq_none.mp hfind L hL
    simp [htag, hend] at hnot
  | some A =>
    have htest := List.find?_some hfind
    simp only [Bool.and_eq_true, beq_iff_eq] at htest
    exact ⟨A, List.mem_of_find?_eq_some hfind, htest.2, by rw [unionStart, hfind]; rfl⟩

include hw hB

/-- The union ends where the block does after it has taken in the hole behind it. -/
theorem WellFormed.unionEnd_eq (hne : B.end_ ≠ k.heap.endAddr) :
    unionEnd blocks B = B.addr + mergedSize k.mem B.addr := by
  obtain ⟨C, hC, haddr⟩ := hw.exists_right hB hne
  have hheader := hw.inv.headers C hC
  have hCsize := hheader.size
  have hB_end : B.addr + B.size = B.end_ := rfl
  rw [haddr] at hCsize
  rw [mergedSize, hw.headerSize_eq hB, hB_end, hCsize]
  have hhole : IsHoleAt k.mem B.end_ ↔ C.tag = true := by
    rw [IsHoleAt, ← haddr, hheader.magic, hheader.isHole]
    exact and_iff_right rfl
  have hsame : ∀ R ∈ blocks, R.addr = B.end_ → R = C := fun R hR heq =>
    hw.inv.tiles.eq_of_addr (by decide) hR hC (heq.trans haddr.symm)
  cases hfind : blocks.find? fun R => R.tag && R.addr == B.end_ with
  | none =>
    have hnot := List.find?_eq_none.mp hfind C hC
    simp only [haddr, beq_self_eq_true, Bool.and_true] at hnot
    rw [unionEnd, hfind, if_neg (hhole.not.mpr hnot)]
    rfl
  | some R =>
    have htest := List.find?_some hfind
    simp only [Bool.and_eq_true, beq_iff_eq] at htest
    obtain rfl := hsame R (List.mem_of_find?_eq_some hfind) htest.2
    rw [unionEnd, hfind, if_pos (hhole.mpr htest.1)]
    simp only [Option.map_some, Option.getD_some, Tile.end_, haddr]
    omega

include hw hB in
/-- The header of a hole in front of the block keeps its size. -/
theorem WellFormed.free_keeps_left_size (htag : B.tag = false) (hL : L ∈ blocks)
    (hend : L.end_ = B.addr) (h : free alloc k (B.addr + sizeofHeader) = .ok k') :
    k'.heap.endAddr < k.heap.startAddr ∨ headerSize k'.mem L.addr = L.size := by
  obtain ⟨hstartL, hsizeL, -⟩ := hw.inv.of_mem hL
  have hL_end : L.end_ = L.addr + L.size := rfl
  simp only [minBlock, sizeofHeader, sizeofFooter] at hsizeL
  by_cases hleft : IsLeftFooter k.mem B.addr
  · have hreleased := hw.free_effect_left hB hleft htag h
    refine or_iff_not_imp_left.mpr fun hnot => ?_
    have hnotEnd : ¬AtEnd k.mem k.heap B.addr := fun hatEnd => hnot (hreleased.atEnd hatEnd)
    rw [headerSize_congr fun x hx _ => hreleased.mem_eq hnotEnd x (by omega),
      headerSize_congr fun x _ hx => leftMem_apply_of_lt hw hB (by omega), hw.headerSize_eq hL]
  · have hreleased := hw.free_effect hB htag hleft h
    refine .inr ?_
    rw [headerSize_congr fun x hx _ => hreleased.mem_above hw (by omega),
      headerSize_congr fun x _ hx => releasedMem_apply_of_lt hw hB (by omega) fun _ _ => by
        simp only [sizeofFooter]
        omega, hw.headerSize_eq hL]

include hw hB in
/-- **When a release merges the block with its neighbours**: no hole ends in front of the block,
what lies there does not look like a footer, the index has room, and the heap is not contracted. -/
theorem WellFormed.coalesced_iff (htag : B.tag = false) (hne : B.end_ ≠ k.heap.endAddr)
    (h : free alloc k (B.addr + sizeofHeader) = .ok k') : Coalesced blocks B k' ↔
      (∀ L ∈ blocks, L.tag = true → L.end_ ≠ B.addr) ∧ ¬IsLeftFooter k.mem B.addr ∧
        k.heap.index.size + newEntries k.mem B.addr ≤ k.heap.index.maxSize ∧
        (AtEnd k.mem k.heap B.addr → contractedEnd k.heap B.addr = k.heap.endAddr) := by
  obtain ⟨hstart, hsize, hend⟩ := hw.inv.of_mem hB
  have hbase := hw.start_lt
  have hunion := hw.unionEnd_eq hB hne
  have hmin : 0 < minBlock := by decide
  have hB_end : B.end_ = B.addr + B.size := rfl
  have hmerged : B.size ≤ mergedSize k.mem B.addr := by
    rw [mergedSize, hw.headerSize_eq hB]
    split_ifs <;> omega
  constructor
  · rintro ⟨blocks', hinv, hU⟩
    obtain ⟨hstartU, hsizeU, hendU⟩ := hinv.of_mem hU
    have hUsize := (hinv.headers _ hU).size
    simp only at hstartU hsizeU hendU hUsize
    have hnoLeft : ∀ L ∈ blocks, L.tag = true → L.end_ ≠ B.addr := by
      intro L hL hLtag hL_end
      obtain ⟨A, hA, hA_end, hunionStart⟩ := exists_unionStart hL hLtag hL_end
      have hAsize : A.end_ = A.addr + A.size := rfl
      have hAbounds := (hw.inv.of_mem hA).1
      rcases hw.free_keeps_left_size hB htag hA hA_end h with hlost | hkept
      · have hstart' : k'.heap.startAddr = k.heap.startAddr := by
          by_cases hleft : IsLeftFooter k.mem B.addr
          · exact (hw.free_effect_left hB hleft htag h).start_eq
          · exact (hw.free_effect hB htag hleft h).start_eq
        omega
      · rw [hunionStart, hkept] at hUsize
        omega
    have hunionStart := unionStart_eq hnoLeft
    rw [hunionStart, hunion] at hU hendU
    have hleft : ¬IsLeftFooter k.mem B.addr := by
      intro hleft
      have hreleased := hw.free_effect_left hB hleft htag h
      by_cases hatEnd : AtEnd k.mem k.heap B.addr
      · have hend' := hreleased.atEnd hatEnd
        omega
      · refine hreleased.unlisted hatEnd ?_
        have hlisted := hinv.index.perm.symm.subset (mem_holes.mpr ⟨_, hU, rfl, rfl⟩)
        exact (List.mem_filter.mp hlisted).1
    have hreleased := hw.free_effect hB htag hleft h
    refine ⟨hnoLeft, hleft, ?_, fun hatEnd => ?_⟩
    · have hroom := hinv.index.size_le
      rwa [hreleased.index_eq] at hroom
    · obtain ⟨-, -, hle⟩ := hw.contractedEnd_bounds hB
      rw [hreleased.end_eq, releasedEnd, if_pos hatEnd] at hendU
      rw [AtEnd] at hatEnd
      omega
  · rintro ⟨hnoLeft, hleft, hroom, hkept⟩
    have hreleased := hw.free_effect hB htag hleft h
    have hok : FreeOk k B.addr := by
      refine ⟨fun hmark => hleft ((hw.isLeftFooter_mark hB).mp hmark), fun hatEnd => ?_, hroom⟩
      have hkept := hkept hatEnd
      rw [contractedEnd] at hkept
      omega
    obtain ⟨-, blocks', hinv, -⟩ := free_spec hw.inv hB htag hok h
    obtain ⟨i, hi, hslot⟩ := mem_elems.mp hreleased.listed
    obtain ⟨H, hH, hHtag, haddr⟩ := hinv.exists_hole hi (by omega)
    rw [hslot] at haddr
    have hHsize : H.size = mergedSize k.mem B.addr := by
      rw [← (hinv.headers H hH).size, haddr]
      by_cases hresized : AtEnd k.mem k.heap B.addr ∧ B.addr < contractedEnd k.heap B.addr
      · have hkept' : keptSize k.heap B.addr = mergedSize k.mem B.addr := by
          have hatEnd := hresized.1
          rw [keptSize, hkept hresized.1]
          rw [AtEnd] at hatEnd
          omega
        have hlt := hw.inv.bounds.end_lt
        have hle := hreleased.merged_le
        rw [hreleased.headerSize_resized hw hB hresized.1 hresized.2, hkept']
        simp only [minBlock] at hsize
        exact headerSize_resizeBlock (by omega) (by omega) (.inr (by simp only [minBlock]; omega))
      · exact hreleased.headerSize_merged hw hB hresized
    refine ⟨blocks', hinv, ?_⟩
    have hU : (⟨unionStart blocks B, unionEnd blocks B - unionStart blocks B, true⟩ : Block) =
        H := by
      rw [unionStart_eq hnoLeft, hunion]
      exact Tile.ext haddr.symm (by simp only; omega) hHtag.symm
    rwa [hU]

end Union

/-- The first of two small blocks is released: it becomes one hole. -/
theorem coalesced_two_blocks : ∃ k B k', WellFormed k.mem k.heap twoBlocks ∧ B ∈ twoBlocks ∧
    B.tag = false ∧ B.end_ ≠ k.heap.endAddr ∧
      free (Mem.alloc 0) k (B.addr + sizeofHeader) = .ok k' ∧ Coalesced twoBlocks B k' := by
  obtain ⟨k, k', hw, hfree, htest⟩ := @exists_release twoBlocks ⟨firstHole.addr, 120, false⟩
    [(100, false), (100, false)]
    (fun k _ => decide (k.heap.endAddr ≠ firstHole.addr + 120) &&
      decide (¬IsLeftFooter k.mem firstHole.addr) &&
      decide (k.heap.index.size + newEntries k.mem firstHole.addr ≤ k.heap.index.maxSize) &&
      decide (¬AtEnd k.mem k.heap firstHole.addr)) (by decide +kernel)
  simp only [Bool.and_eq_true, decide_eq_true_eq] at htest
  obtain ⟨⟨⟨hne, hleft⟩, hroom⟩, hatEnd⟩ := htest
  have hB : (⟨firstHole.addr, 120, false⟩ : Block) ∈ twoBlocks := List.mem_cons_self
  refine ⟨k, ⟨firstHole.addr, 120, false⟩, k', hw, hB, rfl, hne.symm, hfree, ?_⟩
  exact (hw.coalesced_iff hB rfl hne.symm hfree).mpr
    ⟨by decide, hleft, hroom, fun h => absurd h hatEnd⟩

/-- The first heap after an aligned block: a hole in front of it and a hole behind it. -/
def behindGap : List Block :=
  [⟨firstHole.addr, 4084, true⟩, ⟨firstHole.addr + 4084, 120, false⟩,
    ⟨firstHole.addr + 4204, firstHole.size - 4204, true⟩]

/-- **A block is not merged with the hole in front of it.** -/
theorem free_leaves_left_hole : ∃ k blocks B k', WellFormed k.mem k.heap blocks ∧ B ∈ blocks ∧
    B.tag = false ∧ B.end_ ≠ k.heap.endAddr ∧
      free (Mem.alloc 0) k (B.addr + sizeofHeader) = .ok k' ∧ ¬Coalesced blocks B k' := by
  obtain ⟨k, k', hw, hfree, htest⟩ := @exists_release behindGap ⟨firstHole.addr + 4084, 120, false⟩
    [(100, true)]
    (fun k k' => decide (k.heap.endAddr ≠ firstHole.addr + 4204) &&
      decide (headerSize k'.mem firstHole.addr = 4084)) (by decide +kernel)
  simp only [Bool.and_eq_true, decide_eq_true_eq] at htest
  refine ⟨k, behindGap, ⟨firstHole.addr + 4084, 120, false⟩, k', hw,
    List.mem_cons_of_mem _ List.mem_cons_self, rfl, htest.1.symm, hfree, ?_⟩
  rintro ⟨blocks', hinv, hU⟩
  have hsize := (hinv.headers _ hU).size
  simp only at hsize
  rw [show unionStart behindGap ⟨firstHole.addr + 4084, 120, false⟩ = firstHole.addr by decide,
    htest.2] at hsize
  exact absurd hsize (by decide)

end Studix.Mem
