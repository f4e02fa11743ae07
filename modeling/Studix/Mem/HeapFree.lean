import Studix.Mem.HeapAlloc

/-!
# Releases keep the invariant

What `free` does to the blocks of the heap. The block is merged with a hole behind it, the heap is
contracted when the result ends at its end, and the result is listed in the index. `unify_left`
reads a footer at the wrong place and `contract` may leave no room for the hole; `FreeOk` says of a
call that neither happens.

## Main definitions

* `FreeOk`: the condition.

## Main results

* `unifyRight_spec`, `contract_spec`, `freeContract_spec`, `free_spec`.
-/

namespace Studix.Mem

variable {m m' : Memory} {heap : Heap} {xs ys blocks : List Block} {a n footer : ℕ}
  {alloc : Alloc} {k k' : Kernel}

/-! ### The condition -/

/-- The test of `unify_right` on the address behind the block. -/
def IsHoleAt (m : Memory) (header : ℕ) : Prop :=
  headerMagic m header = heapMagic ∧ headerIsHole m header = true

instance (m : Memory) (header : ℕ) : Decidable (IsHoleAt m header) :=
  inferInstanceAs (Decidable (_ ∧ _))

/-- The test of `unify_left`: what lies twelve bytes before the block looks like the footer of a
hole. -/
def IsLeftFooter (m : Memory) (header : ℕ) : Prop :=
  footerMagic m (wsub header sizeofHeader) = heapMagic ∧
    headerIsHole m (footerHeader m (wsub header sizeofHeader)) = true

instance (m : Memory) (header : ℕ) : Decidable (IsLeftFooter m header) :=
  inferInstanceAs (Decidable (_ ∧ _))

/-- The size of the block at `header` with a hole behind it. -/
def mergedSize (m : Memory) (header : ℕ) : ℕ :=
  if IsHoleAt m (header + headerSize m header) then
    headerSize m header + headerSize m (header + headerSize m header)
  else headerSize m header

/-- The length of the heap after it has been contracted to the hole at `header`. -/
def contractedLength (heap : Heap) (header : ℕ) : ℕ :=
  max (alignUp (header - heap.startAddr)) heapMinSize

/-- **What a call of `free` does not check**: what lies twelve bytes before the block does not look
like the footer of a hole; a hole at the end of the heap keeps room for its header and its footer;
and the index has room for the entries it gets. -/
structure FreeOk (k : Kernel) (header : ℕ) : Prop where
  left : ¬IsLeftFooter (setHeaderIsHole k.mem header true) header
  last : header + mergedSize k.mem header = k.heap.endAddr →
    header + minBlock ≤ k.heap.startAddr + contractedLength k.heap header
  room : k.heap.index.size + (if IsHoleAt k.mem (header + headerSize k.mem header) then 2 else 1) ≤
    k.heap.index.maxSize

instance (k : Kernel) (header : ℕ) : Decidable (FreeOk k header) :=
  decidable_of_iff (_ ∧ _ ∧ _)
    ⟨fun ⟨hleft, hlast, hroom⟩ => ⟨hleft, hlast, hroom⟩, fun h => ⟨h.left, h.last, h.room⟩⟩

/-! ### Merging with the hole behind -/

theorem findHeaderIndex_eq_some {header i : ℕ} (h : findHeaderIndex m heap header = some i) :
    i < heap.index.size ∧ slot m heap.index i = header :=
  ⟨List.mem_range.mp (List.mem_of_find?_eq_some h),
    by simpa using List.find?_some (p := fun i => decide (slot m heap.index i = header)) h⟩

/-- A hole that the index lists and that starts where the memory in hand ends stands behind it. -/
theorem Held.exists_right {i : ℕ} (h : Held m heap xs a n ys) (hi : i < heap.index.size)
    (hslot : slot m heap.index i = a + n) :
    ∃ U us, ys = U :: us ∧ U.tag = true ∧ U.addr = a + n := by
  have hsize := h.size
  have hmin : 0 < minBlock := by decide
  obtain ⟨U, hU, htag, haddr⟩ := h.exists_hole hi (by omega)
  rw [hslot] at haddr
  have hright : U ∈ ys := by
    refine (List.mem_append.mp hU).resolve_left fun hleft => ?_
    have hend := (h.left.bounds hleft).2.2
    simp only [Tile.end_] at hend
    omega
  obtain ⟨us, rfl, -⟩ := h.right.eq_cons hmin hright haddr
  exact ⟨U, us, rfl, htag, haddr⟩

/-- **The hole behind the block is taken in.** -/
theorem unifyRight_spec (h : Held k.mem k.heap xs a n ys) (hheader : HeaderAt k.mem ⟨a, n, true⟩)
    (hroom : k.heap.index.size + (if IsHoleAt k.mem (a + n) then 2 else 1) ≤ k.heap.index.maxSize)
    (hfooter : footer + sizeofFooter = a + n) {footer' : ℕ}
    (hunify : unifyRight k a footer = .ok (k', footer')) :
    (∃ mem index, k' = k.setIndex mem index ∧ index.size + 1 ≤ index.maxSize) ∧
      ∃ n' zs, Held k'.mem k'.heap xs a n' zs ∧ HeaderAt k'.mem ⟨a, n', true⟩ ∧
        n' = mergedSize k.mem a ∧ footer' + sizeofFooter = a + n' ∧
        ∀ A ∈ ys, A.tag = false → A ∈ zs := by
  have hend := h.le_end
  have hlt := h.bounds.end_lt
  have hsize : headerSize k.mem a = n := hheader.size
  have hmin := h.size
  simp only [minBlock, sizeofHeader, sizeofFooter] at hmin
  have hbehind : wadd footer sizeofFooter = a + n := by
    rw [wadd_eq (by omega), hfooter]
  simp only [unifyRight, hbehind, hsize] at hunify
  rw [mergedSize, hsize]
  by_cases hright : IsHoleAt k.mem (a + n)
  · rw [if_pos hright] at hroom ⊢
    rw [IsHoleAt] at hright
    rw [if_pos hright] at hunify
    set mem := setHeaderSize k.mem a (wadd n (headerSize k.mem (a + n)))
    have hsame : SameBeside k.heap a (a + n) k.mem mem := fun x _ _ hx =>
      setHeaderSize_apply_of_notMem (by omega)
    have hheld := h.congr hsame
    split at hunify
    · cases hunify
    next i hfind =>
      obtain ⟨hi, hslot⟩ := findHeaderIndex_eq_some hfind
      obtain ⟨U, us, rfl, htag, haddr⟩ := hheld.exists_right hi hslot
      have hU : headerSize k.mem (a + n) = U.size := haddr ▸ (h.headers U (by simp)).size
      have hU' : headerSize mem (a + n) = U.size := haddr ▸ (hheld.headers U (by simp)).size
      have hright := h.right.2.2.le
      rw [Tile.end_, haddr] at hright
      have hsum : wadd n (headerSize k.mem (a + n)) = n + U.size := by
        rw [hU, wadd_eq (by omega)]
      have hheader' : HeaderAt mem ⟨a, n + U.size, true⟩ := by
        simp only [mem, hsum]
        exact hheader.setHeaderSize (by omega)
      obtain ⟨hmerged, hbefore⟩ := hheld.mergeRight htag (by omega) hi (hslot.trans haddr.symm)
      obtain ⟨rfl, rfl⟩ := Prod.mk.inj (Except.ok.inj hunify)
      refine ⟨⟨_, _, rfl, hroom⟩, n + U.size, us, hmerged,
        hheader'.of_start_le h.start_le hbefore, by rw [hU], ?_, fun A hA hused => ?_⟩
      · rw [hU', wadd_eq (by omega), wsub_eq (by simp only [sizeofFooter]; omega) (by omega)]
        simp only [sizeofFooter]
        omega
      · refine (List.mem_cons.mp hA).resolve_left fun hAU => ?_
        simp [hAU, htag] at hused
  · rw [if_neg hright] at hroom ⊢
    rw [IsHoleAt] at hright
    rw [if_neg hright] at hunify
    obtain ⟨rfl, rfl⟩ := Prod.mk.inj (Except.ok.inj hunify)
    exact ⟨⟨k.mem, k.heap.index, rfl, hroom⟩, n, ys, h, hheader, rfl, hfooter, fun A hA _ => hA⟩

/-! ### Contracting the heap -/

theorem freeFrameAt_eq_ok {ref : Option PageRef} (h : freeFrameAt k ref = .ok k') :
    k'.mem = k.mem ∧ k'.heap = k.heap ∧ k'.kheap = k.kheap := by
  obtain ⟨r, page, -, -, rfl⟩ := freeFrameAt_cases h
  exact ⟨rfl, rfl, rfl⟩

theorem getPage_false_eq_ok {addr : ℕ} {ref : Option PageRef}
    (h : getPage alloc k addr false = .ok (ref, k')) : k' = k := by
  simp only [getPage, Bool.false_eq_true, if_false] at h
  split at h <;> cases h <;> rfl

/-- The loop of `contract` changes frames and page tables only. -/
theorem contractLoop_eq_ok {newSize fuel i : ℕ}
    (h : contractLoop alloc newSize fuel i k = .ok k') :
    k'.mem = k.mem ∧ k'.heap = k.heap ∧ k'.kheap = k.kheap := by
  induction fuel generalizing i k with
  | zero => cases h
  | succ fuel ih =>
    rw [contractLoop] at h
    split at h
    · obtain ⟨⟨ref, k₁⟩, hpage, hbody⟩ := except_bind_eq_ok.mp h
      obtain ⟨k₂, hframe, hloop⟩ := except_bind_eq_ok.mp hbody
      obtain rfl := getPage_false_eq_ok hpage
      obtain ⟨hmem, hheap, hkheap⟩ := freeFrameAt_eq_ok hframe
      obtain ⟨hmem', hheap', hkheap'⟩ := ih hloop
      exact ⟨hmem'.trans hmem, hheap'.trans hheap, hkheap'.trans hkheap⟩
    · cases h
      exact ⟨rfl, rfl, rfl⟩

/-- **`contract` moves the end of the heap.** -/
theorem contract_spec {newSize length : ℕ} (h : contract alloc k newSize = .ok (length, k')) :
    length = max (alignUp newSize) heapMinSize ∧ k'.mem = k.mem ∧ k'.kheap = k.kheap ∧
      k'.heap = { k.heap with endAddr := wadd k.heap.startAddr length } := by
  obtain ⟨_, _, h⟩ := except_bind_eq_ok.mp h
  obtain ⟨k₁, hloop, h⟩ := except_bind_eq_ok.mp h
  obtain ⟨hmem, hheap, hkheap⟩ := contractLoop_eq_ok hloop
  obtain ⟨rfl, rfl⟩ := Prod.mk.inj (Except.ok.inj h)
  refine ⟨?_, hmem, hkheap, by rw [hheap]⟩
  split_ifs <;> omega

/-- The new length of the heap: whole pages, between the least length and the old one. -/
theorem contractedLength_bounds (hb : HeapBounds heap) (hstart : heap.startAddr ≤ a)
    (ha : a < heap.endAddr) :
    heapMinSize ≤ contractedLength heap a ∧
      contractedLength heap a ≤ heap.endAddr - heap.startAddr ∧
      contractedLength heap a % pageSize = 0 := by
  have hmin := hb.min_le
  have hpages := hb.pages
  have hlt := hb.end_lt
  have hpos := hb.start_pos
  have hwrap : a - heap.startAddr + pageSize ≤ 2 ^ 32 := by
    simp only [pageSize] at hpages ⊢
    omega
  obtain ⟨hle, hup, hmod⟩ := alignUp_bounds hwrap
  simp only [contractedLength, heapMinSize, pageSize] at *
  omega

/-- **The hole in hand at the end of the heap is shortened with it.** -/
theorem freeContract_spec (h : Held k.mem k.heap xs a n ys)
    (hheader : HeaderAt k.mem ⟨a, n, true⟩) (hfooter : footer + sizeofFooter = a + n)
    (hlast : a + n = k.heap.endAddr →
      a + minBlock ≤ k.heap.startAddr + contractedLength k.heap a)
    (hcontract : freeContract alloc k a footer = .ok k') :
    k'.kheap = k.kheap ∧ k'.heap.index = k.heap.index ∧
      ∃ n', Held k'.mem k'.heap xs a n' ys ∧ HeaderAt k'.mem ⟨a, n', true⟩ := by
  have hstart := h.start_le
  have hend := h.le_end
  have hlt := h.bounds.end_lt
  have hpos := h.bounds.start_pos
  have hmin := h.bounds.min_le
  have hpages := h.bounds.pages
  have hsize := h.size
  have hblock : 0 < minBlock := by decide
  have hbehind : wadd footer sizeofFooter = a + n := by
    rw [wadd_eq (by omega), hfooter]
  rw [freeContract, hbehind] at hcontract
  by_cases hatEnd : a + n = k.heap.endAddr
  · rw [if_pos hatEnd] at hcontract
    have hroom := hlast hatEnd
    have hright := h.right
    rw [hatEnd] at hright
    obtain rfl := hright.eq_nil (by decide)
    obtain ⟨⟨newLength, k₁⟩, hk₁, hrest⟩ := except_bind_eq_ok.mp hcontract
    obtain ⟨hlength, hmem, hkheap, hheap⟩ := contract_spec hk₁
    rw [wsub_eq hstart (by omega), ← contractedLength] at hlength
    obtain ⟨hle, hge, hmod⟩ := contractedLength_bounds h.bounds hstart (by omega)
    rw [← hlength] at hroom hle hge hmod
    have hnewEnd : wadd k.heap.startAddr newLength = k.heap.startAddr + newLength :=
      wadd_eq (by omega)
    rw [hnewEnd] at hheap
    have hold : wsub k.heap.endAddr k.heap.startAddr = k.heap.endAddr - k.heap.startAddr :=
      wsub_eq (by omega) hlt
    have hloss : wsub (k.heap.endAddr - k.heap.startAddr) newLength =
        k.heap.endAddr - (k.heap.startAddr + newLength) := by
      rw [wsub_eq hge (by omega)]
      omega
    have hsize₁ : headerSize k₁.mem a = n := by
      rw [hmem]
      exact hheader.size
    have hnewSize : wsub n (k.heap.endAddr - (k.heap.startAddr + newLength)) =
        k.heap.startAddr + newLength - a := by
      rw [wsub_eq (by omega) (by omega)]
      omega
    simp only [hold, hloss, hsize₁, hnewSize] at hrest
    rw [if_pos (by omega)] at hrest
    obtain rfl := Except.ok.inj hrest
    have hshort := h.shrink (k.heap.startAddr + newLength) hroom (by omega) (by omega)
      (by rwa [Nat.add_sub_cancel_left])
    rw [← hheap, ← hmem] at hshort
    rw [← hmem] at hheader
    obtain ⟨hheader', hsame⟩ := resizeBlock_spec k₁.heap hheader hshort.size (by omega)
    refine ⟨hkheap, by rw [hheap], k.heap.startAddr + newLength - a, ?_, ?_⟩
    · dsimp only
      exact hshort.congr hsame
    · dsimp only
      exact hheader'
  · rw [if_neg hatEnd] at hcontract
    cases hcontract
    exact ⟨rfl, rfl, n, h, hheader⟩

/-! ### `free` -/

theorem headerFor_eq (h : a + sizeofHeader < 2 ^ 32) : headerFor (a + sizeofHeader) = a := by
  rw [headerFor, wsub_eq (Nat.le_add_left _ _) h, Nat.add_sub_cancel]

theorem freeChecks_eq_ok {header : ℕ} {u : Unit} : freeChecks m header footer = .ok u ↔
    footerHeader m footer = header ∧ headerMagic m header = heapMagic ∧
      footerMagic m footer = heapMagic := by
  simp only [freeChecks, assert_bind_eq_ok, assert_eq_ok, decide_eq_true_eq]

/-- A call of `free` that returns. -/
theorem free_eq_ok {ptr header : ℕ} (hne : ptr ≠ 0) (hptr : headerFor ptr = header)
    (hfooter : assocFooter k.mem header = footer) :
    free alloc k ptr = .ok k' ↔
      (footerHeader k.mem footer = header ∧ headerMagic k.mem header = heapMagic ∧
        footerMagic k.mem footer = heapMagic) ∧ freeBlock alloc k header footer = .ok k' := by
  subst hptr hfooter
  rw [free, if_neg hne, except_bind_eq_ok]
  simp only [freeChecks_eq_ok]
  constructor
  · rintro ⟨_, hchecks, hblock⟩
    exact ⟨hchecks, hblock⟩
  · rintro ⟨hchecks, hblock⟩
    exact ⟨(), hchecks, hblock⟩

theorem unifyLeft_of_not {header : ℕ} (h : ¬IsLeftFooter m header) :
    unifyLeft m header footer = (m, header) := by
  rw [IsLeftFooter] at h
  rw [unifyLeft, if_neg h]

/-- What `free` does when `unify_left` finds no footer. -/
theorem freeBlock_eq_ok {header : ℕ} {mem : Memory}
    (hleft : unifyLeft (setHeaderIsHole k.mem header true) header footer = (mem, header)) :
    freeBlock alloc k header footer = .ok k' ↔
      ∃ k₁ footer' k₂ mem' index, unifyRight { k with mem } header footer = .ok (k₁, footer') ∧
        freeContract alloc k₁ header footer' = .ok k₂ ∧
        orderedArrayInsert k₂.mem k₂.heap.index header = .ok (mem', index) ∧
        k' = k₂.setIndex mem' index := by
  simp only [freeBlock, hleft, if_true]
  constructor
  · intro h
    obtain ⟨⟨k₁, footer'⟩, hunify, h⟩ := except_bind_eq_ok.mp h
    obtain ⟨k₂, hcontract, h⟩ := except_bind_eq_ok.mp h
    obtain ⟨⟨mem', index⟩, hinsert, h⟩ := except_bind_eq_ok.mp h
    exact ⟨k₁, footer', k₂, mem', index, hunify, hcontract, hinsert, (Except.ok.inj h).symm⟩
  · rintro ⟨k₁, footer', k₂, mem', index, hunify, hcontract, hinsert, rfl⟩
    rw [hunify, except_ok_bind, hcontract, except_ok_bind, hinsert, except_ok_bind]

/-- A block that is marked as a hole stays what it is otherwise. -/
theorem sameBeside_setHeaderIsHole (heap : Heap) (m : Memory) (hn : minBlock ≤ n) (t : Bool) :
    SameBeside heap a (a + n) m (setHeaderIsHole m a t) := by
  simp only [minBlock, sizeofHeader, sizeofFooter] at hn
  exact fun x _ _ hx => setHeaderIsHole_apply_of_ne t (by omega)

/-- The header behind a block does not change when the block is marked as a hole. -/
theorem isHoleAt_setHeaderIsHole (hn : minBlock ≤ n) (t : Bool) :
    IsHoleAt (setHeaderIsHole m a t) (a + n) ↔ IsHoleAt m (a + n) := by
  simp only [minBlock, sizeofHeader, sizeofFooter] at hn
  rw [IsHoleAt, IsHoleAt, headerMagic_congr fun x hx _ => setHeaderIsHole_apply_of_ne t (by omega),
    headerIsHole, setHeaderIsHole_apply_of_ne t (by omega), ← headerIsHole]

theorem mergedSize_setHeaderIsHole (hn : minBlock ≤ n) (hsize : headerSize m a = n) (t : Bool) :
    mergedSize (setHeaderIsHole m a t) a = mergedSize m a := by
  have hown : headerSize (setHeaderIsHole m a t) a = n := by
    rw [headerSize_congr fun x hx _ => setHeaderIsHole_apply_of_ne t (by omega), hsize]
  have hbehind : headerSize (setHeaderIsHole m a t) (a + n) = headerSize m (a + n) := by
    simp only [minBlock, sizeofHeader, sizeofFooter] at hn
    exact headerSize_congr fun x hx _ => setHeaderIsHole_apply_of_ne t (by omega)
  simp only [mergedSize, hown, hsize, hbehind, isHoleAt_setHeaderIsHole hn]

/-- **`free` keeps the invariant and the other blocks in use.** -/
theorem free_spec {B : Block} (hinv : HeapInv k.mem k.heap blocks) (hB : B ∈ blocks)
    (htag : B.tag = false) (hok : FreeOk k B.addr)
    (h : free alloc k (B.addr + sizeofHeader) = .ok k') :
    k'.kheap = k.kheap ∧ ∃ blocks', HeapInv k'.mem k'.heap blocks' ∧
      ∀ A ∈ blocks, A.tag = false → A ≠ B → A ∈ blocks' := by
  obtain ⟨xs, ys, rfl⟩ := List.append_of_mem hB
  have hheld := hinv.hold htag
  have hend := hheld.le_end
  have hlt := hinv.bounds.end_lt
  have hmin := hheld.size
  have hheader : HeaderAt k.mem ⟨B.addr, B.size, false⟩ := htag ▸ hinv.headers B hB
  have hsize : headerSize k.mem B.addr = B.size := hheader.size
  have hfooter : assocFooter k.mem B.addr = B.addr + B.size - sizeofFooter := by
    simp only [minBlock] at hmin
    rw [assocFooter, hsize, wadd_eq (by omega), wsub_eq (by omega) (by omega)]
  have hptr : headerFor (B.addr + sizeofHeader) = B.addr := by
    simp only [minBlock] at hmin
    exact headerFor_eq (by omega)
  obtain ⟨-, hblock⟩ := (free_eq_ok (Nat.succ_ne_zero _) hptr hfooter).mp h
  obtain ⟨k₁, footer', k₂, mem', index, hunify, hcontract, hinsert, rfl⟩ :=
    (freeBlock_eq_ok (unifyLeft_of_not hok.left)).mp hblock
  -- From here on the block is in hand.
  have hheld₀ := hheld.congr (sameBeside_setHeaderIsHole k.heap k.mem hmin true)
  have hroom : k.heap.index.size +
      (if IsHoleAt (setHeaderIsHole k.mem B.addr true) (B.addr + B.size) then 2 else 1) ≤
        k.heap.index.maxSize := by
    simpa only [isHoleAt_setHeaderIsHole hmin, hsize] using hok.room
  have hend₀ : B.addr + B.size - sizeofFooter + sizeofFooter = B.addr + B.size := by
    simp only [minBlock] at hmin
    omega
  obtain ⟨⟨mem₁, index₁, rfl, hroom₁⟩, n, zs, hheld₁, hheader₁, hn, hfooter₁, hkeeps⟩ :=
    unifyRight_spec (k := { k with mem := setHeaderIsHole k.mem B.addr true }) hheld₀
      hheader.setHeaderIsHole hroom hend₀ hunify
  rw [mergedSize_setHeaderIsHole hmin hsize] at hn
  have hlast := hok.last
  rw [← hn] at hlast
  obtain ⟨hkheap, hindex, n', hheld₂, hheader₂⟩ :=
    freeContract_spec hheld₁ hheader₁ hfooter₁ hlast hcontract
  rw [Kernel.setIndex_heap] at hindex
  rw [hindex] at hinsert
  have hinv' := hheld₂.putHole hheader₂ (by rw [hindex]; exact hroom₁)
      (by rw [hindex]; exact hinsert)
  refine ⟨hkheap, xs ++ ⟨B.addr, n', true⟩ :: zs, ?_, fun A hA hused hne => ?_⟩
  · rw [Kernel.setIndex_mem, Kernel.setIndex_heap]
    exact hinv'
  · rcases List.mem_append.mp hA with hA | hA
    · exact List.mem_append_left _ hA
    · have hA := hkeeps A ((List.mem_cons.mp hA).resolve_left hne) hused
      exact List.mem_append_right _ (List.mem_cons_of_mem _ hA)

end Studix.Mem
