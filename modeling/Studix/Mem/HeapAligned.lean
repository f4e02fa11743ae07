import Studix.Mem.HeapCarve
import Studix.Mem.HeapSearch

/-!
# An aligned block carved from a hole

An aligned block is put at the first place of its hole at which its payload starts a page. `alloc`
keeps a block from leaving too little of the hole behind it only where the block is put at the start
of the hole: it compares the whole of the hole with the block, and does not look at what is left in
front of an aligned block and behind it.

## Main definitions

* `CarvesAligned`: a hole cut into a block and at most one hole on each side of it.

## Main results

* `placeBlock_effect`: the sizes in the headers after the last part of `alloc`.
* `carvedAligned_iff`: when an aligned allocation cuts its hole so.
-/

namespace Studix.Mem

variable {m m' : Memory} {heap : Heap} {index : OrderedArray} {xs ys blocks : List Block}
  {H : Block} {a n total limit p i size : ℕ} {k : Kernel}

/-- The hole `H`, between `xs` and `ys`, is cut into the block `B` with an aligned payload at `p`
and the holes `front` and `behind`, at most one on each side, and the headers say so. -/
structure CarvesAligned (m : Memory) (heap : Heap) (xs ys : List Block) (H : Block) (p : ℕ)
    (front : List Block) (B : Block) (behind : List Block) : Prop where
  payload : p = B.addr + sizeofHeader
  aligned : p % pageSize = 0
  inside : H.addr ≤ B.addr ∧ B.end_ ≤ H.end_
  length : front.length ≤ 1 ∧ behind.length ≤ 1
  holes : ∀ A ∈ front ++ behind, A.tag = true ∧ headerIsHole m A.addr = true
  tiles : Tiles minBlock heap.startAddr heap.endAddr (xs ++ (front ++ B :: (behind ++ ys)))
  sizes : ∀ A ∈ xs ++ (front ++ B :: (behind ++ ys)), headerSize m A.addr = A.size

/-- The hole `H` is cut into a block and holes beside it. -/
def CarvedAligned (m : Memory) (heap : Heap) (xs ys : List Block) (H : Block) (p : ℕ) : Prop :=
  ∃ front B behind, CarvesAligned m heap xs ys H p front B behind

/-! ### The last part of an allocation -/

/-- The header and the footer of what is left behind a block lie behind the header of the block. -/
theorem headerSize_makeRest (heap : Heap) (m : Memory) {r : ℕ} (htotal : minBlock ≤ total)
    (hr : 0 < r) (hlt : a + total + r < 2 ^ 32) :
    headerSize (makeRest m heap (a + total) r) a = headerSize m a := by
  simp only [minBlock, sizeofHeader, sizeofFooter] at htotal
  have hfooter : assocFooter (makeHeader m (a + total) r true) (a + total) = a + total + r - 8 := by
    rw [assocFooter, headerSize_makeHeader _ (by omega), wadd_eq hlt,
      wsub_eq (by simp only [sizeofFooter]; omega) hlt, sizeofFooter]
  refine headerSize_congr fun x hx hx' => ?_
  have hheader : makeHeader m (a + total) r true x = m x :=
    makeHeader_apply_of_notMem _ (by omega)
  simp only [makeRest, hfooter]
  split_ifs
  · rw [store32_apply_of_notMem (by omega), store32_apply_of_notMem (by omega), hheader]
  · exact hheader

/-- **The headers after the last part of `alloc`**, as far as the index does not reach: the block
has its size, what is left behind it is a hole when there is room for one, and then nothing else
changes. -/
theorem placeBlock_effect (mem : Memory) (hcomparer : index.comparer.isSome)
    (harray : k.heap.index.array ≤ limit) (hlimit : index.array + 4 * (index.size + 1) ≤ limit)
    (hlow : limit ≤ a + 8) (htotal : minBlock ≤ total) (hle : total ≤ n) (hlt : a + n < 2 ^ 32) :
    ∃ mem' index', placeBlock k mem index a n total =
        .ok (a + sizeofHeader, k.setIndex mem' index') ∧
      headerSize mem' a = total ∧
      (total + minBlock ≤ n →
        headerSize mem' (a + total) = n - total ∧ headerIsHole mem' (a + total) = true) ∧
      (total = n ∨ total + minBlock ≤ n → ∀ x, limit ≤ x → x < k.heap.endAddr →
        x < a ∨ a + n ≤ x → mem' x = mem x) := by
  have hmin : 0 < minBlock := by decide
  have hptr : wadd a sizeofHeader = a + sizeofHeader := by
    simp only [minBlock] at htotal
    exact wadd_eq (by omega)
  obtain ⟨hheader, hsame⟩ := makeBlock_spec k.heap mem (a := a) htotal (by omega)
  have hsize : headerSize (makeBlock mem a total) a = total := hheader.size
  rw [placeBlock, hptr]
  rcases Nat.eq_or_lt_of_le hle with rfl | hsplit
  · rw [if_neg (lt_irrefl _)]
    exact ⟨_, _, rfl, hsize, fun h => absurd h (by omega), fun _ x hx hend hout =>
      hsame x (harray.trans hx) hend hout⟩
  · have hnew : wadd a total = a + total := wadd_eq (by omega)
    have hleft : wsub n total = n - total := wsub_eq hle (by omega)
    obtain ⟨mem', hinsert, habove⟩ := orderedArrayInsert_above
      (makeRest (makeBlock mem a total) k.heap (a + total) (n - total)) hcomparer
      (show a + total < 2 ^ 32 by omega) hlimit
    have hkeep : ∀ A, a ≤ A → headerSize mem' A =
        headerSize (makeRest (makeBlock mem a total) k.heap (a + total) (n - total)) A :=
      fun A hA => headerSize_congr fun x hx _ => habove x (by omega)
    rw [if_pos hsplit, hnew, hleft]
    simp only [hinsert]
    refine ⟨mem', _, rfl, ?_, fun hroom => ?_, fun hroom x hx hend hout => ?_⟩
    · rw [hkeep a le_rfl, headerSize_makeRest _ _ htotal (by omega) (by omega), hsize]
    · obtain ⟨hrest, -⟩ := makeRest_spec k.heap (makeBlock mem a total) (a := a + total)
        (n := n - total) (by omega) (by omega)
      simp only [minBlock] at htotal
      refine ⟨(hkeep _ (by omega)).trans hrest.size, ?_⟩
      rw [headerIsHole, habove _ (by simp only [sizeofHeader] at htotal; omega)]
      exact hrest.isHole
    · obtain ⟨-, hsame'⟩ := makeRest_spec k.heap (makeBlock mem a total) (a := a + total)
        (n := n - total) (by omega) (by omega)
      rw [habove x hx, hsame' x (harray.trans hx) hend (by omega),
        hsame x (harray.trans hx) hend (by omega)]

/-- The last part of `alloc` returns the place it is given, whatever the sizes are. -/
theorem placeBlock_returns (k : Kernel) (mem : Memory) (pos holeSize total : ℕ)
    (hcomparer : index.comparer.isSome) :
    ∃ mem' index', placeBlock k mem index pos holeSize total =
      .ok (wadd pos sizeofHeader, k.setIndex mem' index') := by
  rw [placeBlock]
  split
  · obtain ⟨mem', -, hinsert, -⟩ := orderedArrayInsert_spec
      (makeRest (makeBlock mem pos total) k.heap (wadd pos total) (wsub holeSize total)) index
      (wadd pos total) hcomparer (wadd_lt _ _)
    simp only [hinsert]
    exact ⟨_, _, rfl⟩
  · exact ⟨_, _, rfl⟩

/-! ### The hole that is found -/

/-- The hole `H` is what the search for an aligned block of `size` bytes finds; it has room for the
block, and `alloc` computes the place that the search does. -/
structure FindsAligned (k : Kernel) (xs ys : List Block) (H : Block) (i size : ℕ) : Prop where
  inv : HeapInv k.mem k.heap (xs ++ H :: ys)
  find : findSmallestHole k.mem k.heap (size + minBlock) true = some i
  slot_eq : slot k.mem k.heap.index i = H.addr
  fits : alignOffset H.addr + (size + minBlock) ≤ H.size
  agree : ¬aligned (H.addr + sizeofHeader) = true → newHoleLoc H.addr = H.addr + alignOffset H.addr

namespace FindsAligned

variable (h : FindsAligned k xs ys H i size)

include h

omit h in
theorem mem_hole : H ∈ xs ++ H :: ys := List.mem_append_right _ List.mem_cons_self

theorem bounds : k.heap.startAddr ≤ H.addr ∧ H.end_ ≤ k.heap.endAddr ∧ k.heap.endAddr < 2 ^ 32 ∧
    H.end_ = H.addr + H.size ∧ 0 < k.heap.startAddr :=
  ⟨(h.inv.of_mem mem_hole).1, (h.inv.of_mem mem_hole).2.2, h.inv.bounds.end_lt, rfl,
    h.inv.bounds.start_pos⟩

theorem wadd_header : wadd H.addr sizeofHeader = H.addr + sizeofHeader := by
  obtain ⟨hstart, hend, hlt, hsize, -⟩ := h.bounds
  have hfits := h.fits
  simp only [minBlock] at hfits
  exact wadd_eq (by omega)

/-- The distance is zero exactly where the payload of the hole is aligned. -/
theorem alignOffset_eq_zero_iff : alignOffset H.addr = 0 ↔
    aligned (H.addr + sizeofHeader) = true := by
  rw [alignOffset, h.wadd_header]
  split_ifs with haligned
  · simp [haligned]
  · have hlt := Nat.mod_lt (H.addr + sizeofHeader) (show 0 < pageSize by decide)
    exact iff_of_false (by omega) haligned

/-- The block's payload starts a page. -/
theorem payload_aligned : (H.addr + alignOffset H.addr + sizeofHeader) % pageSize = 0 := by
  obtain ⟨hstart, hend, hlt, hsize, -⟩ := h.bounds
  have hfits := h.fits
  simp only [minBlock] at hfits
  exact aligned_iff.mp (alignOffset_isLeast (by omega)).1.2

theorem alloc_eq (depth : ℕ) :
    alloc (depth + 1) k size true = allocFrom k (size + minBlock) true i := by
  obtain ⟨hstart, hend, hlt, hsize, -⟩ := h.bounds
  have hfits := h.fits
  have htotal := total_eq (show size + minBlock < 2 ^ 32 by omega)
  simp only [alloc, htotal, h.find]

/-- The block takes the whole hole when what is left of it is too small. -/
theorem allocFrom_eq : allocFrom k (size + minBlock) true i =
    if aligned (H.addr + sizeofHeader) then
      placeBlock k (orderedArrayRemove k.mem k.heap.index i).1
        (orderedArrayRemove k.mem k.heap.index i).2 H.addr H.size
        (if H.size - (size + minBlock) < minBlock then H.size else size + minBlock)
    else placeBlock k (makeGap k.mem H.addr (H.addr + alignOffset H.addr)) k.heap.index
      (H.addr + alignOffset H.addr)
      (wsub H.size (headerSize (makeGap k.mem H.addr (H.addr + alignOffset H.addr)) H.addr))
      (if H.size - (size + minBlock) < minBlock then H.size else size + minBlock) := by
  obtain ⟨hstart, hend, hlt, hsize, -⟩ := h.bounds
  obtain ⟨hi, -⟩ := findSmallestHole_eq_some h.find
  have hfits := h.fits
  have hheader : headerSize k.mem H.addr = H.size := (h.inv.headers H mem_hole).size
  have hlost : wsub H.size (size + minBlock) = H.size - (size + minBlock) :=
    wsub_eq (by omega) (by omega)
  rw [allocFrom, orderedArrayLookup_eq hi, except_ok_bind, h.slot_eq]
  have hblock : sizeofHeader + sizeofFooter = minBlock := rfl
  simp only [hheader, hlost, h.wadd_header, true_and, hblock]
  by_cases haligned : aligned (H.addr + sizeofHeader) = true
  · simp only [haligned, not_true_eq_false, if_false, if_true]
  · simp only [haligned, h.agree haligned, Bool.false_eq_true, not_false_eq_true, if_true, if_false]

/-- The headers of the other blocks keep their sizes, even when the index reaches the first header's
size. -/
theorem sizes_beside (hlimit : limit ≤ k.heap.startAddr + 8)
    (hframe : ∀ x, limit ≤ x → x < k.heap.endAddr → x < H.addr ∨ H.end_ ≤ x → m' x = k.mem x)
    {A : Block} (hA : A ∈ xs ∨ A ∈ ys) : headerSize m' A.addr = A.size := by
  obtain ⟨c, hxs, rfl, -, hys⟩ := tiles_append.mp h.inv.tiles
  have hmem : A ∈ xs ++ H :: ys := by
    rcases hA with hA | hA
    · exact List.mem_append_left _ hA
    · exact List.mem_append_right _ (List.mem_cons_of_mem _ hA)
  have hbeside : A.end_ ≤ H.addr ∨ H.end_ ≤ A.addr :=
    hA.imp (fun hA => (hxs.bounds hA).2.2) fun hA => (hys.bounds hA).1
  obtain ⟨hstart, hmin, hend⟩ := h.inv.of_mem hmem
  simp only [minBlock, sizeofHeader, sizeofFooter] at hmin
  rw [← (h.inv.headers A hmem).size]
  refine headerSize_congr fun x hx hx' => hframe x (by omega) (by omega) ?_
  simp only [Tile.end_] at hbeside ⊢
  omega

/-- **A hole whose payload is aligned** is cut at its start. -/
theorem alloc_front (depth : ℕ) (haligned : aligned (H.addr + sizeofHeader) = true) :
    ∃ k', alloc (depth + 1) k size true = .ok (H.addr + sizeofHeader, k') ∧
      CarvedAligned k'.mem k'.heap xs ys H (H.addr + sizeofHeader) := by
  obtain ⟨hstart, hend, hlt, hH, hpos⟩ := h.bounds
  obtain ⟨hi, -⟩ := findSmallestHole_eq_some h.find
  obtain ⟨c, hxs, rfl, hHmin, hys⟩ := tiles_append.mp h.inv.tiles
  have hfits := h.fits
  have hstorage := h.inv.bounds.storage
  have hsize := h.inv.index.size_le
  have hpayload := h.payload_aligned
  rw [h.alignOffset_eq_zero_iff.mpr haligned, Nat.add_zero] at hpayload
  obtain ⟨n, hn⟩ : ∃ n, (if H.size - (size + minBlock) < minBlock then H.size
    else size + minBlock) = n := ⟨_, rfl⟩
  have hcut : n = H.size ∨ n + minBlock ≤ H.size := by
    rw [← hn]
    split_ifs <;> omega
  have hmin : minBlock ≤ n := by
    rw [← hn]
    split_ifs <;> omega
  have hcomparer : (orderedArrayRemove k.mem k.heap.index i).2.comparer.isSome :=
    h.inv.index.comparer
  have harray : k.heap.index.array ≤ k.heap.index.array + 4 * (k.heap.index.size + 1 + 1) :=
    Nat.le_add_right _ _
  have hlimit : (orderedArrayRemove k.mem k.heap.index i).2.array +
      4 * ((orderedArrayRemove k.mem k.heap.index i).2.size + 1) ≤
      k.heap.index.array + 4 * (k.heap.index.size + 1 + 1) := le_rfl
  obtain ⟨mem', index', hplace, hblock, hrest, hframe⟩ :=
    placeBlock_effect (k := k) (a := H.addr) (n := H.size)
      (orderedArrayRemove k.mem k.heap.index i).1
      hcomparer harray hlimit (by omega) hmin (by omega) (by omega)
  have hframe' : ∀ x, k.heap.index.array + 4 * (k.heap.index.size + 1 + 1) ≤ x →
      x < k.heap.endAddr → x < H.addr ∨ H.end_ ≤ x → mem' x = k.mem x := fun x hx hlt' hout =>
    (hframe hcut x hx hlt' hout).trans (orderedArrayRemove_above hi le_rfl (by omega))
  refine ⟨k.setIndex mem' index', ?_, ?_⟩
  · rw [h.alloc_eq, h.allocFrom_eq, if_pos haligned, hn, hplace]
  have hothers : ∀ A, A ∈ xs ∨ A ∈ ys → headerSize mem' A.addr = A.size := fun A =>
    h.sizes_beside (by omega) hframe'
  rcases hcut with rfl | hsplit
  · refine ⟨[], ⟨H.addr, H.size, false⟩, [], rfl, hpayload, ⟨le_rfl, le_rfl⟩, by simp, by simp,
      tiles_append.mpr ⟨H.addr, hxs, rfl, hHmin, hys⟩, fun A hA => ?_⟩
    simp only [List.nil_append, List.mem_append, List.mem_cons] at hA
    rcases hA with hA | rfl | hA
    · exact hothers A (.inl hA)
    · exact hblock
    · exact hothers A (.inr hA)
  · obtain ⟨hrestSize, hrestHole⟩ := hrest hsplit
    have hbehind : H.addr + n + (H.size - n) = H.end_ := by omega
    refine ⟨[], ⟨H.addr, n, false⟩, [⟨H.addr + n, H.size - n, true⟩], rfl, hpayload,
      ⟨le_rfl, by simp only [Tile.end_] at *; omega⟩, by simp, by simpa using hrestHole,
      tiles_append.mpr ⟨H.addr, hxs, rfl, hmin, rfl, by simp only; omega, ?_⟩, fun A hA => ?_⟩
    · change Tiles minBlock (H.addr + n + (H.size - n)) k.heap.endAddr ys
      rwa [hbehind]
    simp only [List.nil_append, List.cons_append, List.mem_append, List.mem_cons] at hA
    rcases hA with hA | rfl | rfl | hA
    · exact hothers A (.inl hA)
    · exact hblock
    · exact hrestSize
    · exact hothers A (.inr hA)

/-- **A hole whose payload is not aligned**: the block is put behind the distance, with its own size
when there is room for a hole in front of it. The hole is cut right when there is also room for one
behind it, or nothing is left there. -/
theorem alloc_gap (depth : ℕ) (haligned : ¬aligned (H.addr + sizeofHeader) = true) :
    ∃ mem' index', alloc (depth + 1) k size true =
        .ok (H.addr + alignOffset H.addr + sizeofHeader, k.setIndex mem' index') ∧
      (minBlock ≤ alignOffset H.addr →
        headerSize mem' (H.addr + alignOffset H.addr) = size + minBlock ∧
        (alignOffset H.addr + (size + minBlock) = H.size ∨
            alignOffset H.addr + (size + minBlock) + minBlock ≤ H.size →
          CarvedAligned mem' (k.setIndex mem' index').heap xs ys H
            (H.addr + alignOffset H.addr + sizeofHeader))) := by
  obtain ⟨hstart, hend, hlt, hH, hpos⟩ := h.bounds
  obtain ⟨c, hxs, rfl, hHmin, hys⟩ := tiles_append.mp h.inv.tiles
  have hfits := h.fits
  have hstorage := h.inv.bounds.storage
  have hsize := h.inv.index.size_le
  have hpayload := h.payload_aligned
  have hcomparer := h.inv.index.comparer
  have halloc := (h.alloc_eq depth).trans (h.allocFrom_eq.trans (if_neg haligned))
  generalize alignOffset H.addr = offset at *
  rw [halloc]
  by_cases hmin : minBlock ≤ offset
  swap
  · obtain ⟨mem', index', hplace⟩ := placeBlock_returns k (makeGap k.mem H.addr (H.addr + offset))
      (H.addr + offset) (wsub H.size (headerSize (makeGap k.mem H.addr (H.addr + offset)) H.addr))
      (if H.size - (size + minBlock) < minBlock then H.size else size + minBlock) hcomparer
    rw [wadd_eq (by simp only [minBlock] at hfits; omega)] at hplace
    exact ⟨mem', index', hplace, fun hroom => absurd hroom hmin⟩
  obtain ⟨hheader, hsame⟩ := makeGap_spec k.heap k.mem hmin (a := H.addr) (by omega)
  have hgapSize : headerSize (makeGap k.mem H.addr (H.addr + offset)) H.addr =
      offset := hheader.size
  have hleft : wsub H.size offset = H.size - offset := wsub_eq (by omega) (by omega)
  rw [hgapSize, hleft, if_neg (by omega)]
  have harray : k.heap.index.array ≤ k.heap.index.array + 4 * (k.heap.index.size + 1) :=
    Nat.le_add_right _ _
  obtain ⟨mem', index', hplace, hblock, hrest, hframe⟩ :=
    placeBlock_effect (k := k) (a := H.addr + offset) (n := H.size - offset)
      (makeGap k.mem H.addr (H.addr + offset)) hcomparer harray le_rfl (by omega)
      (Nat.le_add_left minBlock size) (by omega) (by omega)
  refine ⟨mem', index', hplace, fun _ => ⟨hblock, fun hcut => ?_⟩⟩
  have hframe' := hframe (hcut.imp (by omega) (by omega))
  have hothers : ∀ A, A ∈ xs ∨ A ∈ ys → headerSize mem' A.addr = A.size := fun A =>
    h.sizes_beside (by omega) fun x hx hlt' hout =>
      (hframe' x hx hlt' (by omega)).trans (hsame x (by omega) hlt' (by omega))
  -- The header of the hole in front of the block is below what the last part of `alloc` writes.
  have hminBlock : minBlock = 20 := rfl
  have hfrontSize : headerSize mem' H.addr = offset := by
    rw [← hgapSize]
    exact headerSize_congr fun x hx hx' => hframe' x (by omega) (by omega) (by omega)
  have hfrontHole : headerIsHole mem' H.addr = true := by
    rw [headerIsHole, hframe' _ (by omega) (by omega) (by omega)]
    exact hheader.isHole
  rcases hcut with hwhole | hsplit
  · refine ⟨[⟨H.addr, offset, true⟩], ⟨H.addr + offset, size + minBlock, false⟩, [], rfl, hpayload,
      ⟨Nat.le_add_right _ _, by simp only [Tile.end_] at *; omega⟩, by simp,
        by simpa using hfrontHole,
      tiles_append.mpr ⟨H.addr, hxs, rfl, hmin, rfl, Nat.le_add_left _ _, ?_⟩, fun A hA => ?_⟩
    · have hbehind : H.addr + offset + (size + minBlock) = H.end_ := by omega
      change Tiles minBlock (H.addr + offset + (size + minBlock)) k.heap.endAddr ys
      rwa [hbehind]
    simp only [List.nil_append, List.cons_append, List.mem_append, List.mem_cons] at hA
    rcases hA with hA | rfl | rfl | hA
    · exact hothers A (.inl hA)
    · exact hfrontSize
    · exact hblock
    · exact hothers A (.inr hA)
  · obtain ⟨hrestSize, hrestHole⟩ := hrest (by omega)
    refine ⟨[⟨H.addr, offset, true⟩], ⟨H.addr + offset, size + minBlock, false⟩,
      [⟨H.addr + offset + (size + minBlock), H.size - offset - (size + minBlock), true⟩],
        rfl, hpayload,
      ⟨Nat.le_add_right _ _, by simp only [Tile.end_] at *; omega⟩, by simp, fun A hA => ?_,
      tiles_append.mpr ⟨H.addr, hxs, rfl, hmin, rfl, Nat.le_add_left _ _, rfl,
        by simp only; omega, ?_⟩,
      fun A hA => ?_⟩
    · simp only [List.cons_append, List.nil_append, List.mem_cons, List.not_mem_nil, or_false] at hA
      rcases hA with rfl | rfl
      · exact ⟨rfl, hfrontHole⟩
      · exact ⟨rfl, hrestHole⟩
    · have hbehind : H.addr + offset + (size + minBlock) +
          (H.size - offset - (size + minBlock)) = H.end_ := by omega
      change Tiles minBlock (H.addr + offset + (size + minBlock) +
        (H.size - offset - (size + minBlock))) k.heap.endAddr ys
      rwa [hbehind]
    simp only [List.nil_append, List.cons_append, List.mem_append, List.mem_cons] at hA
    rcases hA with hA | rfl | rfl | rfl | hA
    · exact hothers A (.inl hA)
    · exact hfrontSize
    · exact hblock
    · exact hrestSize
    · exact hothers A (.inr hA)

end FindsAligned

/-- **What the cut says about the sizes**: nothing or a hole lies in front of the block, and, when
the header records `total` bytes, nothing or a hole behind it. -/
theorem CarvedAligned.sizes {offset : ℕ} (total : ℕ)
    (htiles : Tiles minBlock heap.startAddr heap.endAddr (xs ++ H :: ys))
    (h : CarvedAligned m heap xs ys H (H.addr + offset + sizeofHeader)) :
    (offset = 0 ∨ minBlock ≤ offset) ∧ (headerSize m (H.addr + offset) = total →
      offset + total = H.size ∨ offset + total + minBlock ≤ H.size) := by
  obtain ⟨front, B, behind, hcut⟩ := h
  obtain ⟨c, hxs, rfl, -, hys⟩ := tiles_append.mp htiles
  obtain ⟨c, hxs', htail⟩ := tiles_append.mp hcut.tiles
  obtain rfl := hxs.end_unique hxs'
  have haddr : B.addr = H.addr + offset := (Nat.add_right_cancel hcut.payload).symm
  obtain ⟨d, hfront, hd, -, htail⟩ := tiles_append.mp htail
  obtain ⟨e, hbehind, hys'⟩ := tiles_append.mp htail
  obtain rfl := hys.start_unique hys'
  refine ⟨?_, fun htotal => ?_⟩
  · cases front with
    | nil =>
      have := tiles_nil.mp hfront
      exact Or.inl (by omega)
    | cons F front =>
      have hle := hfront.2.2.le
      have hmin := hfront.2.1
      have hFaddr := hfront.1
      simp only [Tile.end_] at hle
      exact Or.inr (by omega)
  · have hB : B.size = total := by
      rw [← htotal, ← haddr, hcut.sizes B (by simp)]
    cases behind with
    | nil =>
      have := tiles_nil.mp hbehind
      simp only [Tile.end_] at this
      exact Or.inl (by omega)
    | cons R behind =>
      have hle := hbehind.2.2.le
      have hmin := hbehind.2.1
      have hRaddr := hbehind.1
      simp only [Tile.end_] at hle hRaddr
      exact Or.inr (by omega)

/-- The search in the first heap. -/
theorem findsAligned_first (size : ℕ)
    (hsize : alignOffset firstHole.addr + (size + minBlock) ≤ firstHole.size)
    (hfirst : FirstHeap k) :
    FindsAligned k [] [] firstHole 0 size := by
  have hheader : headerSize k.mem firstHole.addr = firstHole.size :=
    (hfirst.inv.headers firstHole (List.mem_singleton.mpr rfl)).size
  refine ⟨hfirst.inv, ?_, hfirst.slot_zero, hsize, fun _ => by decide⟩
  have hfits : holeFits k.mem (slot k.mem k.heap.index 0) (size + minBlock) true = true := by
    rw [hfirst.slot_zero]
    exact holeFits_align_iff.mpr (Or.inl (by rw [FitsAligned, hheader]; exact hsize))
  rw [findSmallestHole, hfirst.size]
  simp [List.range_succ, hfits]

end Studix.Mem
