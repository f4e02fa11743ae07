import Studix.Mem.HeapContract

/-!
# The search for an aligned hole

An aligned block starts at the first place in its hole at which its payload starts a page.
`find_smallest_hole` computes the distance of this place from the start of the hole, and `alloc`
computes the place by another formula, which is a page short when the header at that place lies
across the end of a page. The search subtracts the distance from the size of the hole without asking
whether the hole is that long.

## Main definitions

* `alignOffset`: the distance that the search computes.
* `GapsAgree`: both formulas give the first place.
* `FitsAligned`, `SearchRight`: what the search is for.

## Main results

* `alignOffset_isLeast`: the distance leads to the first place.
* `gapsAgree_iff`: when the formula of `alloc` does.
* `searchRight_iff`: when the search is right.
-/

namespace Studix.Mem

variable {m : Memory} {heap : Heap} {pos header size i : ℕ}

/-! ### The place of an aligned block -/

/-- The `offset` of `find_smallest_hole`. -/
def alignOffset (loc : ℕ) : ℕ :=
  if aligned (wadd loc sizeofHeader) then 0 else pageSize - wadd loc sizeofHeader % pageSize

theorem holeFits_align (m : Memory) (header size : ℕ) :
    holeFits m header size true = decide (size ≤ wsub (headerSize m header) (alignOffset header)) :=
  rfl

/-- The places at or behind `pos` for a block whose payload starts a page. -/
def AlignedPlaces (pos : ℕ) : Set ℕ := {loc | pos ≤ loc ∧ aligned (loc + sizeofHeader)}

theorem alignOffset_eq (h : pos + sizeofHeader < 2 ^ 32)
    (hne : ¬aligned (pos + sizeofHeader) = true) :
    alignOffset pos = pageSize - (pos + sizeofHeader) % pageSize := by
  rw [alignOffset, wadd_eq h, if_neg hne]

/-- **The search leads to the first place.** -/
theorem alignOffset_isLeast (h : pos + sizeofHeader < 2 ^ 32) :
    IsLeast (AlignedPlaces pos) (pos + alignOffset pos) := by
  rw [alignOffset, wadd_eq h]
  split_ifs with haligned
  · exact ⟨⟨le_rfl, haligned⟩, fun loc hloc => hloc.1⟩
  · refine ⟨⟨Nat.le_add_right _ _, aligned_iff.mpr ?_⟩, fun loc ⟨hle, hloc⟩ => ?_⟩
    · simp only [pageSize]
      omega
    · have hmod := aligned_iff.mp hloc
      have hne : (pos + sizeofHeader) % pageSize ≠ 0 := fun hzero =>
        haligned (aligned_iff.mpr hzero)
      simp only [pageSize, sizeofHeader] at *
      omega

theorem and_fff (a : ℕ) : a &&& 0xFFF = a % pageSize := Nat.and_two_pow_sub_one_eq_mod a 12

/-- The place that `alloc` computes: at the end of the page of `pos`. -/
theorem newHoleLoc_eq_pageEnd (h : pos < 2 ^ 32) :
    newHoleLoc pos = pos - pos % pageSize + (pageSize - sizeofHeader) := by
  rw [newHoleLoc, and_fff]
  simp only [wadd, wsub, pageSize, sizeofHeader] at *
  omega

/-- `alloc` and the search compute the same place, and it is the first one. -/
def GapsAgree (pos : ℕ) : Prop :=
  newHoleLoc pos = pos + alignOffset pos ∧ IsLeast (AlignedPlaces pos) (newHoleLoc pos)

/-- **The two computations of the place agree** exactly when a header at `pos` lies in one page. -/
theorem gapsAgree_iff (h : pos + pageSize < 2 ^ 32)
    (hne : ¬aligned (pos + sizeofHeader) = true) :
    GapsAgree pos ↔ pos % pageSize + sizeofHeader < pageSize := by
  have hlt : pos + sizeofHeader < 2 ^ 32 := by
    simp only [pageSize, sizeofHeader] at *
    omega
  have hmod : (pos + sizeofHeader) % pageSize ≠ 0 := fun hzero => hne (aligned_iff.mpr hzero)
  have hagree : newHoleLoc pos = pos + alignOffset pos ↔
      pos % pageSize + sizeofHeader < pageSize := by
    rw [newHoleLoc_eq_pageEnd (by omega), alignOffset_eq hlt hne]
    simp only [pageSize, sizeofHeader] at *
    omega
  refine ⟨fun hgaps => hagree.mp hgaps.1, fun hpage => ?_⟩
  have heq := hagree.mpr hpage
  exact ⟨heq, heq ▸ alignOffset_isLeast hlt⟩

/-- At the start of a page. -/
theorem gapsAgree_page_start : GapsAgree heapStart :=
  (gapsAgree_iff (by decide) (by decide)).mpr (by decide)

/-- **Eleven bytes before the end of a page** `alloc` goes back, in front of the hole. -/
theorem gaps_disagree_across_pages : heapStart + 4085 + pageSize < 2 ^ 32 ∧
    ¬aligned (heapStart + 4085 + sizeofHeader) = true ∧ ¬GapsAgree (heapStart + 4085) :=
  ⟨by decide, by decide, fun hgaps => absurd hgaps.1 (by decide)⟩

/-! ### The hole that is found -/

/-- A block of `size` bytes has room in the hole behind the distance to its aligned place. -/
def FitsAligned (m : Memory) (header size : ℕ) : Prop :=
  alignOffset header + size ≤ headerSize m header

/-- The hole is shorter than the distance, and the difference wraps to at least `size`. -/
def WrapsToFit (m : Memory) (header size : ℕ) : Prop :=
  headerSize m header < alignOffset header ∧
    size ≤ 2 ^ 32 - (alignOffset header - headerSize m header)

/-- What the search for an aligned hole returns has room for the block, and it returns -1 only when
no hole has. -/
def SearchRight (m : Memory) (heap : Heap) (size : ℕ) : Prop :=
  (∀ i, findSmallestHole m heap size true = some i →
      i < heap.index.size ∧ FitsAligned m (slot m heap.index i) size) ∧
    (findSmallestHole m heap size true = none →
      ∀ i < heap.index.size, ¬FitsAligned m (slot m heap.index i) size)

theorem alignOffset_le (loc : ℕ) : alignOffset loc ≤ pageSize := by
  rw [alignOffset]
  split_ifs <;> omega

/-- What the test of the search means. -/
theorem holeFits_align_iff :
    holeFits m header size true = true ↔ FitsAligned m header size ∨ WrapsToFit m header size := by
  have hlt := headerSize_lt m header
  have hle := alignOffset_le header
  rw [holeFits_align, decide_eq_true_eq, FitsAligned, WrapsToFit]
  simp only [pageSize] at hle
  rcases Nat.lt_or_ge (headerSize m header) (alignOffset header) with hshort | hlong
  · rw [wsub_eq_of_lt hshort (by omega)]
    omega
  · rw [wsub_eq hlong hlt]
    omega

/-- The search finds the first entry that passes the test. -/
theorem findSmallestHole_first {align : Bool} (h : findSmallestHole m heap size align = some i)
    {j : ℕ} (hj : j < i) : ¬holeFits m (slot m heap.index j) size align = true := by
  obtain ⟨-, -, hbefore⟩ := List.find?_range_eq_some.mp h
  simpa using hbefore j hj

theorem findSmallestHole_eq_none {align : Bool} (h : findSmallestHole m heap size align = none)
    (hi : i < heap.index.size) : ¬holeFits m (slot m heap.index i) size align = true := by
  simpa using List.find?_eq_none.mp h i (List.mem_range.mpr hi)

/-- **The search for an aligned hole is right** exactly when every hole that is too short, but for
which the difference wraps to at least `size`, comes in the index behind a hole that has room. -/
theorem searchRight_iff (m : Memory) (heap : Heap) (size : ℕ) :
    SearchRight m heap size ↔ ∀ i < heap.index.size, WrapsToFit m (slot m heap.index i) size →
      ∃ j < i, FitsAligned m (slot m heap.index j) size := by
  constructor
  · rintro ⟨hsome, hnone⟩ i hi hwraps
    have hfits := holeFits_align_iff.mpr (.inr hwraps)
    cases hfind : findSmallestHole m heap size true with
    | none => exact absurd hfits (findSmallestHole_eq_none hfind hi)
    | some j =>
      -- The search stops at `i` at the latest, and not at a hole that is too short.
      obtain ⟨-, hfits'⟩ := hsome j hfind
      refine ⟨j, lt_of_not_ge fun hle => ?_, hfits'⟩
      rcases Nat.lt_or_eq_of_le hle with hlt | heq
      · exact findSmallestHole_first hfind hlt hfits
      · have hshort := hwraps.1
        rw [heq] at hshort
        rw [FitsAligned] at hfits'
        omega
  · refine fun hcond => ⟨fun i hfind => ?_, fun hfind i hi hfits => ?_⟩
    · obtain ⟨hi, hfits⟩ := findSmallestHole_eq_some hfind
      refine ⟨hi, (holeFits_align_iff.mp hfits).resolve_right fun hwraps => ?_⟩
      obtain ⟨j, hj, hfits'⟩ := hcond i hi hwraps
      exact findSmallestHole_first hfind hj (holeFits_align_iff.mpr (.inl hfits'))
    · exact findSmallestHole_eq_none hfind hi (holeFits_align_iff.mpr (.inl hfits))

/-- **A null entry is taken for a hole** by the search for an aligned block, when the first of two
small blocks was released. `ordered_array_remove` has left the entry at the front of the index, and
its size, read in the zeros of low memory, is less than the distance to the aligned place. -/
theorem short_hole_found : ∃ k k', WellFormed k.mem k.heap twoBlocks ∧
    free (Mem.alloc 0) k (firstHole.addr + sizeofHeader) = .ok k' ∧
      ¬SearchRight k'.mem k'.heap 120 := by
  obtain ⟨k, k', hw, hfree, htest⟩ := @exists_release twoBlocks ⟨firstHole.addr, 120, false⟩
    [(100, false), (100, false)]
    (fun _ k' => decide (findSmallestHole k'.mem k'.heap 120 true = some 0) &&
      decide (headerSize k'.mem (slot k'.mem k'.heap.index 0) <
        alignOffset (slot k'.mem k'.heap.index 0))) (by decide +kernel)
  simp only [Bool.and_eq_true, decide_eq_true_eq] at htest
  refine ⟨k, k', hw, hfree, fun hright => ?_⟩
  have hfits := (hright.1 0 htest.1).2
  rw [FitsAligned] at hfits
  omega

end Studix.Mem
