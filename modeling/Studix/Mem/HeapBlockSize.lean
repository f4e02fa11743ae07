import Studix.Mem.HeapAligned
import Studix.Mem.HeapBounds

/-!
# The size that a header records

`alloc` adds the lengths of a header and a footer to the size it is asked for without asking whether
the sum wraps. Behind the sum, whatever hole is found and whatever is done with it, the header in
front of the new block records at least that sum, as long as nothing is written over the header
afterwards: neither the entry of the index for what is left of the hole nor the header of what is
left, which comes around the end of memory when the block is longer than all other memory.

## Main definitions

* `SizeRecorded`: the header in front of a payload records enough.
* `TakesHole`: a property of the state in which `alloc` takes a hole.
* `RestOverSize`: what is left of a hole starts in the header of the block.

## Main results

* `headerSize_placeBlock`: the size in the header after the last part of `alloc`.
* `sizeRecorded_iff`: when the header records enough.
-/

namespace Studix.Mem

variable {m mem : Memory} {heap : Heap} {index : OrderedArray} {blocks : List Block} {k k' : Kernel}
  {align : Bool} {a e i p pos r room size total x : ℕ}

/-- The header in front of the payload at `p` records `size` bytes and those of a header and a
footer. -/
def SizeRecorded (k : Kernel) (p size : ℕ) : Prop :=
  size + minBlock ≤ headerSize k.mem (headerFor p)

/-! ### The last part of an allocation -/

/-- The entries of the index do not lie over the size in the header at `pos`, also when it gets two
more. -/
def IndexApart (index : OrderedArray) (pos : ℕ) : Prop :=
  index.array + 4 * (index.size + 2) ≤ pos + 8 ∨ pos + sizeofHeader ≤ index.array

instance (index : OrderedArray) (pos : ℕ) : Decidable (IndexApart index pos) :=
  inferInstanceAs (Decidable (_ ∨ _))

theorem headerFor_wadd (hpos : pos < 2 ^ 32) : headerFor (wadd pos sizeofHeader) = pos := by
  simp only [headerFor, wadd, wsub, sizeofHeader]
  omega

/-- Beside its footer, what is left of a hole is a header. -/
theorem makeRest_apply_beside_footer (heap : Heap) (m : Memory) (hr : r < 2 ^ 32)
    (hfooter : x < wsub (wadd a r) sizeofFooter ∨ wsub (wadd a r) sizeofFooter + sizeofFooter ≤ x) :
    makeRest m heap a r x = makeHeader m a r true x := by
  have hassoc : assocFooter (makeHeader m a r true) a = wsub (wadd a r) sizeofFooter := by
    rw [assocFooter, headerSize_makeHeader true hr]
  simp only [makeRest, hassoc]
  generalize wsub (wadd a r) sizeofFooter = footer at hfooter ⊢
  simp only [sizeofFooter] at hfooter
  split_ifs
  · rw [store32_apply_of_notMem (by omega), store32_apply_of_notMem (by omega)]
  · rfl

/-- A byte of the size in a header. -/
theorem makeHeader_apply_size (m : Memory) (loc : ℕ) (t : Bool) (hi : i < 4) :
    makeHeader m loc size t (loc + 8 + i) = BitVec.ofNat 8 (size / 256 ^ i) := by
  rw [makeHeader, setHeaderIsHole_apply_of_ne _ (by omega), store32_apply_of_notMem (by omega),
    setHeaderSize, store32_apply_add hi]

/-- The footer of the new block is not written over the size in its header. -/
theorem headerSize_makeBlock (m : Memory) (hmin : minBlock ≤ total)
    (hlt : total < 2 ^ 32) : headerSize (makeBlock m pos total) pos = total := by
  have hapart : ∀ x, pos + 8 ≤ x → x < pos + 12 → x < wsub (wadd pos total) sizeofFooter ∨
      wsub (wadd pos total) sizeofFooter + sizeofFooter ≤ x := by
    intro x hx hx'
    simp only [wadd, wsub, minBlock, sizeofHeader, sizeofFooter] at *
    omega
  rw [makeBlock]
  generalize wsub (wadd pos total) sizeofFooter = footer at hapart ⊢
  rw [headerSize_congr fun x hx hx' => makeFooter_apply_of_notMem (hapart x hx hx'),
    headerSize_makeHeader false hlt]

/-- What is left of the hole is not written over the size in the header of the block, unless its
header comes around the end of memory. -/
theorem makeRest_apply_size (heap : Heap) (m : Memory) (hmin : minBlock ≤ total)
    (hlt : total < room) (hroom : room < 2 ^ 32) (hx : pos + 8 ≤ x) (hx' : x < pos + 12)
    (hheader : total + 4 ≤ 2 ^ 32 ∨ x < wadd pos total ∨ wadd pos total + sizeofHeader ≤ x) :
    makeRest m heap (wadd pos total) (wsub room total) x = m x := by
  have hleft : wsub room total = room - total := wsub_eq hlt.le hroom
  have hapart : (x < wadd pos total ∨ wadd pos total + sizeofHeader ≤ x) ∧
      (x < wsub (wadd (wadd pos total) (wsub room total)) sizeofFooter ∨
        wsub (wadd (wadd pos total) (wsub room total)) sizeofFooter + sizeofFooter ≤ x) := by
    rw [hleft]
    simp only [wadd, wsub, minBlock, sizeofHeader, sizeofFooter] at *
    omega
  rw [makeRest_apply_beside_footer heap m (wsub_lt _ _) hapart.2,
    makeHeader_apply_of_notMem true hapart.1]

/-- **The last part of `alloc`**: what the header of the block records is what it is given, as long
as neither the index nor the header of what is left is written there. -/
theorem headerSize_placeBlock (mem : Memory) (hcomparer : index.comparer.isSome)
    (hmin : minBlock ≤ total) (hlt : total < 2 ^ 32) (hroom : room < 2 ^ 32)
    (hrest : total + 4 ≤ 2 ^ 32 ∨ room ≤ total)
    (hindex : index.array + 4 * (index.size + 1) ≤ pos + 8 ∨ pos + sizeofHeader ≤ index.array)
    (h : placeBlock k mem index pos room total = .ok (p, k')) :
    p = wadd pos sizeofHeader ∧ headerSize k'.mem pos = total := by
  rw [placeBlock] at h
  split at h
  next hsplit =>
    obtain ⟨mem', -, hinsert, -, -, hframe⟩ := orderedArrayInsert_spec
      (makeRest (makeBlock mem pos total) k.heap (wadd pos total) (wsub room total)) index
      (wadd pos total) hcomparer (wadd_lt _ _)
    simp only [hinsert, except_ok_bind, Except.ok.injEq, Prod.mk.injEq] at h
    obtain ⟨hp, hk⟩ := h
    simp only [sizeofHeader] at hindex
    have hinserted : headerSize mem' pos =
        headerSize (makeRest (makeBlock mem pos total) k.heap (wadd pos total) (wsub room total))
          pos :=
      headerSize_congr fun x hx hx' => hframe x (by omega)
    have hkept : headerSize
        (makeRest (makeBlock mem pos total) k.heap (wadd pos total) (wsub room total)) pos =
          headerSize (makeBlock mem pos total) pos :=
      headerSize_congr fun x hx hx' =>
        makeRest_apply_size k.heap (makeBlock mem pos total) hmin hsplit
        hroom hx hx' (Or.inl (by omega))
    refine ⟨hp.symm, ?_⟩
    rw [← hk, Kernel.setIndex_mem, hinserted, hkept, headerSize_makeBlock mem hmin hlt]
  next =>
    simp only [Except.ok.injEq, Prod.mk.injEq] at h
    obtain ⟨hp, hk⟩ := h
    refine ⟨hp.symm, ?_⟩
    rw [← hk, Kernel.setIndex_mem, headerSize_makeBlock mem hmin hlt]

/-- **What is left of the hole starts in the header of the block**, when it starts two or three
bytes before it: the first byte of the size becomes zero. -/
theorem headerSize_placeBlock_over (mem : Memory) (hcomparer : index.comparer.isSome)
    (hpos : pos < 2 ^ 32) (hlow : sizeofHeader ≤ pos) (hover : 2 ^ 32 ≤ total + 3)
    (hlt : total < room) (hroom : room < 2 ^ 32)
    (hindex : index.array + 4 * (index.size + 1) ≤ pos + 8 ∨ pos + sizeofHeader ≤ index.array)
    (h : placeBlock k mem index pos room total = .ok (p, k')) :
    p = wadd pos sizeofHeader ∧ headerSize k'.mem pos % 256 = 0 := by
  obtain ⟨mem', -, hinsert, -, -, hframe⟩ := orderedArrayInsert_spec
    (makeRest (makeBlock mem pos total) k.heap (wadd pos total) (wsub room total)) index
    (wadd pos total) hcomparer (wadd_lt _ _)
  rw [placeBlock, if_pos hlt] at h
  simp only [hinsert, except_ok_bind, Except.ok.injEq, Prod.mk.injEq] at h
  obtain ⟨hp, hk⟩ := h
  refine ⟨hp.symm, ?_⟩
  simp only [sizeofHeader] at hindex hlow
  obtain ⟨j, hj⟩ : ∃ j, j = 2 ^ 32 - total := ⟨_, rfl⟩
  have hnew : wadd pos total + 8 + j = pos + 8 := by
    simp only [wadd]
    omega
  have hleft : wsub room total = room - total := wsub_eq hlt.le hroom
  have hapart : pos + 8 < wsub (wadd (wadd pos total) (wsub room total)) sizeofFooter ∨
      wsub (wadd (wadd pos total) (wsub room total)) sizeofFooter + sizeofFooter ≤ pos + 8 := by
    rw [hleft]
    simp only [wadd, wsub, sizeofFooter] at *
    omega
  have hbyte : k'.mem (pos + 8) = BitVec.ofNat 8 0 := by
    rw [← hk, Kernel.setIndex_mem, hframe _ (by omega),
      makeRest_apply_beside_footer k.heap _ (wsub_lt _ _) hapart, ← hnew,
      makeHeader_apply_size _ _ _ (by omega), hleft]
    -- What is left is at most two bytes.
    have hone : 256 ^ 1 ≤ 256 ^ j := Nat.pow_le_pow_right (by decide) (by omega)
    rw [Nat.div_eq_of_lt (by omega)]
  have hfirst := toNat_byte k'.mem (pos + 8) (show 0 < 4 by decide)
  rw [Nat.add_zero, hbyte, pow_zero, Nat.div_one] at hfirst
  exact hfirst.symm

/-! ### The hole that is taken -/

/-- Whether `alloc` puts the block behind a gap. -/
def Gap (e : ℕ) (align : Bool) : Prop := align ∧ ¬aligned (wadd e sizeofHeader)

instance (e : ℕ) (align : Bool) : Decidable (Gap e align) := inferInstanceAs (Decidable (_ ∧ _))

/-- Where `alloc` puts the block in the hole at `e`. -/
def takenPos (e : ℕ) (align : Bool) : ℕ := if Gap e align then newHoleLoc e else e

/-- The bytes of the hole at `e` from the block on. -/
def takenRoom (m : Memory) (e : ℕ) (align : Bool) : ℕ :=
  if Gap e align then wsub (headerSize m e) (headerSize (makeGap m e (newHoleLoc e)) e)
  else headerSize m e

/-- The size of the block from the hole at `e`. -/
def takenSize (m : Memory) (e total : ℕ) : ℕ :=
  if wsub (headerSize m e) total < minBlock then headerSize m e else total

/-- The branch of `alloc` that leaves a gap. -/
theorem allocFrom_gap (hi : i < k.heap.index.size) (hgap : Gap (slot k.mem k.heap.index i) align) :
    allocFrom k total align i =
      placeBlock k (makeGap k.mem (slot k.mem k.heap.index i)
        (newHoleLoc (slot k.mem k.heap.index i)))
        k.heap.index (newHoleLoc (slot k.mem k.heap.index i))
        (takenRoom k.mem (slot k.mem k.heap.index i) align)
        (takenSize k.mem (slot k.mem k.heap.index i) total) := by
  rw [allocFrom, orderedArrayLookup_eq hi, except_ok_bind, takenRoom, takenSize, minBlock,
    if_pos hgap]
  rw [Gap] at hgap
  simp only [if_pos hgap]

/-- Behind the choice of a hole `alloc` places the block in it. -/
theorem allocFrom_eq_placeBlock (hi : i < k.heap.index.size) (total : ℕ) (align : Bool) :
    ∃ mem index, allocFrom k total align i =
        placeBlock k mem index (takenPos (slot k.mem k.heap.index i) align)
          (takenRoom k.mem (slot k.mem k.heap.index i) align)
          (takenSize k.mem (slot k.mem k.heap.index i) total) ∧
      index.array = k.heap.index.array ∧ index.size ≤ k.heap.index.size + 1 ∧
      index.comparer = k.heap.index.comparer := by
  by_cases hgap : Gap (slot k.mem k.heap.index i) align
  · rw [allocFrom_gap hi hgap, takenPos, if_pos hgap]
    exact ⟨_, _, rfl, rfl, Nat.le_succ _, rfl⟩
  · rw [allocFrom, orderedArrayLookup_eq hi, except_ok_bind, takenPos, takenRoom,
      takenSize, minBlock, if_neg hgap, if_neg hgap]
    rw [Gap] at hgap
    simp only [if_neg hgap]
    exact ⟨_, _, rfl, rfl, le_rfl, rfl⟩

theorem takenSize_lt (m : Memory) (e : ℕ) (h : total < 2 ^ 32) : takenSize m e total < 2 ^ 32 := by
  rw [takenSize]
  split_ifs
  · exact headerSize_lt m e
  · exact h

theorem takenPos_lt (align : Bool) (h : e < 2 ^ 32) : takenPos e align < 2 ^ 32 := by
  rw [takenPos]
  split_ifs
  · exact wsub_lt _ _
  · exact h

theorem takenRoom_lt (m : Memory) (e : ℕ) (align : Bool) : takenRoom m e align < 2 ^ 32 := by
  rw [takenRoom]
  split_ifs
  · exact wsub_lt _ _
  · exact headerSize_lt m e

/-- The difference of the sizes wraps only for a small hole and a size that no hole has room for. -/
theorem le_takenSize (hlt : total < 2 ^ 32) (h : total ≤ headerSize m e ∨
    total + minBlock ≤ 2 ^ 32 + headerSize m e) : total ≤ takenSize m e total := by
  have hsize := headerSize_lt m e
  rw [takenSize]
  split_ifs with hwhole
  · simp only [wsub] at hwhole
    omega
  · exact le_rfl

/-- **A block from a hole** has a header that records its size. -/
theorem sizeRecorded_of_allocFrom (hcomparer : k.heap.index.comparer.isSome)
    (hi : i < k.heap.index.size) (hsize : size + minBlock < 2 ^ 32)
    (hle : size + minBlock ≤ takenSize k.mem (slot k.mem k.heap.index i) (size + minBlock))
    (hrest : takenSize k.mem (slot k.mem k.heap.index i) (size + minBlock) + 4 ≤ 2 ^ 32 ∨
      takenRoom k.mem (slot k.mem k.heap.index i) align ≤
        takenSize k.mem (slot k.mem k.heap.index i) (size + minBlock))
    (hindex : IndexApart k.heap.index (takenPos (slot k.mem k.heap.index i) align))
    (h : allocFrom k (size + minBlock) align i = .ok (p, k')) : SizeRecorded k' p size := by
  obtain ⟨mem, index, hplace, harray, hentries, hcomparer'⟩ :=
    allocFrom_eq_placeBlock hi (size + minBlock) align
  rw [hplace] at h
  rw [IndexApart] at hindex
  have hpos := takenPos_lt align (slot_lt k.mem k.heap.index i)
  obtain ⟨hp, hrecorded⟩ := headerSize_placeBlock mem (hcomparer' ▸ hcomparer)
    ((Nat.le_add_left _ _).trans hle) (takenSize_lt _ _ hsize) (takenRoom_lt _ _ _) hrest
    (by omega) h
  rw [SizeRecorded, hp, headerFor_wadd hpos, hrecorded]
  exact hle

/-! ### Growing heaps -/

/-- `P` holds of the state in which `alloc` takes a hole, and of the place of the hole in the
index. -/
def TakesHole (P : Kernel → ℕ → Prop) : ℕ → Kernel → ℕ → Bool → Prop
  | 0, _, _, _ => True
  | depth + 1, k, size, align =>
    match findSmallestHole k.mem k.heap (totalBlockSize size) align with
    | some i => P k i
    | none => ∀ k', makeSpace (alloc depth) k (totalBlockSize size) = .ok k' →
        TakesHole P depth k' size align

/-- **A call of `alloc` that returns has taken a hole**, in one state only. -/
theorem exists_takesHole {depth : ℕ} (h : alloc depth k size align = .ok (p, k')) :
    ∃ k₁ i, SameFrame k k₁ ∧
      findSmallestHole k₁.mem k₁.heap (totalBlockSize size) align = some i ∧
      allocFrom k₁ (totalBlockSize size) align i = .ok (p, k') ∧
      (∀ j, findSmallestHole k.mem k.heap (totalBlockSize size) align = some j → k₁ = k) ∧
      ∀ P, TakesHole P depth k size align ↔ P k₁ i := by
  induction depth generalizing k with
  | zero => cases h
  | succ depth ih =>
    obtain ⟨hfind, k₁, hspace, halloc⟩ | ⟨i, hfind, hfrom⟩ := alloc_cases h
    · obtain ⟨k₂, i, hframe, hfound, hfrom, -, htakes⟩ := ih halloc
      refine ⟨k₂, i, (makeSpace_sameFrame (alloc_sameFrame depth) hspace).trans hframe,
        hfound, hfrom, fun j hj => ?_, fun P => ?_⟩
      · rw [hfind] at hj
        cases hj
      · rw [TakesHole, hfind, ← htakes P]
        refine ⟨fun hP => hP k₁ hspace, fun hP k₃ hk₃ => ?_⟩
        obtain rfl : k₁ = k₃ := Except.ok.inj (hspace.symm.trans hk₃)
        exact hP
    · refine ⟨k, i, .refl k, hfind, hfrom, fun _ _ => rfl, fun P => ?_⟩
      rw [TakesHole, hfind]

/-- What holds of the state in which a hole is taken. -/
theorem alloc_takesHole {P : Kernel → ℕ → Prop} {depth : ℕ}
    (h : alloc depth k size align = .ok (p, k')) (hP : TakesHole P depth k size align) :
    ∃ k₁ i, SameFrame k k₁ ∧
      findSmallestHole k₁.mem k₁.heap (totalBlockSize size) align = some i ∧
      allocFrom k₁ (totalBlockSize size) align i = .ok (p, k') ∧ P k₁ i := by
  obtain ⟨k₁, i, hframe, hfind, hfrom, -, htakes⟩ := exists_takesHole h
  exact ⟨k₁, i, hframe, hfind, hfrom, (htakes P).mp hP⟩

/-- The entries of the index do not lie over the size of the block that `alloc` puts in the hole. -/
def TakesApart (align : Bool) (k : Kernel) (i : ℕ) : Prop :=
  IndexApart k.heap.index (takenPos (slot k.mem k.heap.index i) align)

/-- **A block that is smaller than all memory by a page** has a header that records its size,
whatever the heap looks like. -/
theorem sizeRecorded_of_le {depth : ℕ} (hcomparer : k.heap.index.comparer.isSome)
    (hsize : size + minBlock + pageSize ≤ 2 ^ 32)
    (hindex : TakesHole (TakesApart align) depth k size align)
    (h : alloc depth k size align = .ok (p, k')) : SizeRecorded k' p size := by
  have hpage : minBlock + 4 ≤ pageSize := by decide
  have htotal : totalBlockSize size = size + minBlock := total_eq (by omega)
  obtain ⟨k₁, i, hframe, hfind, hfrom, hapart⟩ := alloc_takesHole h hindex
  rw [htotal] at hfind hfrom
  have hle : size + minBlock ≤
      takenSize k₁.mem (slot k₁.mem k₁.heap.index i) (size + minBlock) :=
    le_takenSize (by omega) (Or.inr (by omega))
  refine sizeRecorded_of_allocFrom (hframe.comparer ▸ hcomparer) (findSmallestHole_eq_some hfind).1
    (by omega) hle (Or.inl ?_) hapart hfrom
  have hlt := headerSize_lt k₁.mem (slot k₁.mem k₁.heap.index i)
  rw [takenSize]
  split_ifs with hwhole
  · simp only [wsub] at hwhole
    omega
  · omega

/-! ### The well-formed heap -/

/-- The hole at `e` is two or three bytes shorter than the distance to the aligned place, and the
size of the block is one of the last three: what is left of the hole, around the end of memory,
starts in the header of the block. -/
def RestOverSize (m : Memory) (e total : ℕ) : Prop :=
  headerSize m e < alignOffset e ∧ newHoleLoc e = e + alignOffset e ∧ 2 ^ 32 ≤ total + 3 ∧
    total + alignOffset e < headerSize m e + 2 ^ 32

instance (m : Memory) (e total : ℕ) : Decidable (RestOverSize m e total) :=
  inferInstanceAs (Decidable (_ ∧ _))

/-- The size in the header of the gap. -/
theorem headerSize_makeGap (m : Memory) {loc : ℕ} (h : ∀ x, e + 8 ≤ x → x < e + 12 →
      x < wsub loc sizeofFooter ∨ wsub loc sizeofFooter + sizeofFooter ≤ x) :
    headerSize (makeGap m e loc) e = wsub loc e := by
  rw [makeGap]
  generalize wsub loc sizeofFooter = footer at h ⊢
  rw [headerSize_congr fun x hx hx' => makeFooter_apply_of_notMem (h x hx hx'),
    headerSize_makeHeader true (wsub_lt _ _)]

/-- What an entry of the index refers to: nothing, or a hole of the heap. -/
def EntryAt (m : Memory) (e : ℕ) : Prop :=
  e = 0 ∨ heapStart + 4 * heapIndexSize ≤ e ∧ minBlock ≤ headerSize m e ∧
    e + headerSize m e ≤ heapStart + heapMaxSize

theorem WellFormed.entryAt (hw : WellFormed m heap blocks) (hi : i < heap.index.size) :
    EntryAt m (slot m heap.index i) := by
  by_cases hne : slot m heap.index i = 0
  · exact Or.inl hne
  obtain ⟨H, hH, -, haddr⟩ := hw.inv.exists_hole hi hne
  obtain ⟨hstart, hmin, hend⟩ := hw.inv.of_mem hH
  have hbase := hw.layout.start
  have htop := hw.layout.end_le
  rw [← haddr]
  refine Or.inr ⟨hbase ▸ hstart, ?_⟩
  rw [(hw.inv.headers H hH).size]
  exact ⟨hmin, hend.trans htop⟩

namespace EntryAt

variable (h : EntryAt m e)

include h

theorem lt : e + 2 * pageSize < 2 ^ 32 := by
  have htop : heapStart + heapMaxSize + 2 * pageSize < 2 ^ 32 := by decide
  rcases h with rfl | ⟨-, -, hend⟩ <;> omega

/-- The distance to an aligned place behind the hole's own. -/
theorem alignOffset_eq_of_gap (hgap : Gap e true) :
    alignOffset e = pageSize - (e + sizeofHeader) % pageSize := by
  have hlt := h.lt
  obtain ⟨-, haligned⟩ := hgap
  simp only [pageSize] at hlt
  rw [alignOffset, if_neg haligned, wadd_eq (by simp only [sizeofHeader]; omega)]

/-- The index is neither in the first two pages nor behind the start of the heap. -/
theorem apart (align : Bool) (hlayout : KernelHeap heap)
    (hentries : heap.index.size ≤ heap.index.maxSize) :
    IndexApart heap.index (takenPos e align) := by
  have hlt := h.lt
  have harray := hlayout.array
  have hmax := hlayout.maxSize
  have hlow : pageSize + sizeofHeader ≤ heapStart := by decide
  have hpages : (heapStart + 4 * heapIndexSize) % pageSize = 0 := by decide
  rw [IndexApart, takenPos, newHoleLoc_eq_pageEnd (by omega)]
  rcases h with rfl | ⟨hstart, -⟩
  · right
    split_ifs <;> simp only [pageSize, sizeofHeader] at * <;> omega
  · left
    split_ifs <;> simp only [pageSize, sizeofHeader] at * <;> omega

/-- What a hole that the search finds for an aligned block lacks, it has on the other side of the
end of memory. -/
theorem takenRoom_of_agree (hgap : Gap e true) (hagree : newHoleLoc e = e + alignOffset e)
    (hmin : minBlock ≤ alignOffset e) (hshort : headerSize m e < alignOffset e) :
    takenRoom m e true = 2 ^ 32 - (alignOffset e - headerSize m e) := by
  have hlt := h.lt
  have hle := alignOffset_le e
  simp only [pageSize] at hlt hle
  simp only [minBlock, sizeofHeader, sizeofFooter] at hmin
  rw [takenRoom, if_pos hgap, hagree, headerSize_makeGap,
    wsub_eq (a := e + alignOffset e) (by omega)
    (by omega), Nat.add_sub_cancel_left]
  · exact wsub_eq_of_lt hshort (by omega)
  · intro x hx hx'
    rw [wsub_eq (by simp only [sizeofFooter]; omega) (by omega)]
    simp only [sizeofFooter]
    omega

/-- When the place behind the gap is in front of the hole, the hole counts as longer. -/
theorem takenRoom_of_disagree (hgap : Gap e true) (hne : newHoleLoc e ≠ e + alignOffset e)
    (hshort : headerSize m e < alignOffset e) : takenRoom m e true ≤ 2 * pageSize := by
  have hlt := h.lt
  have hle := alignOffset_le e
  have hoffset := h.alignOffset_eq_of_gap hgap
  have haligned : (e + sizeofHeader) % pageSize ≠ 0 := by
    obtain ⟨-, hnot⟩ := hgap
    rw [wadd_eq (by simp only [pageSize, sizeofHeader] at *; omega)] at hnot
    exact fun hzero => hnot (aligned_iff.mpr hzero)
  have hsmall : e < 2 ^ 32 := by omega
  have hloc := newHoleLoc_eq_pageEnd hsmall
  -- The header lies across the end of a page.
  have hback : newHoleLoc e < e ∧ e < newHoleLoc e + sizeofHeader ∧
      sizeofHeader ≤ newHoleLoc e := by
    rw [hoffset, hloc] at hne
    rw [hloc]
    simp only [pageSize, sizeofHeader] at *
    omega
  rw [takenRoom, if_pos hgap]
  generalize newHoleLoc e = loc at hback ⊢
  simp only [pageSize, sizeofHeader] at *
  rw [headerSize_makeGap, wsub_eq_of_lt hback.1 (by omega)]
  · simp only [wsub]
    omega
  · intro x hx hx'
    rw [wsub_eq (by simp only [sizeofFooter]; omega) (by omega)]
    simp only [sizeofFooter]
    omega

/-- A hole that is shorter than its distance is not much shorter than a header and a footer. -/
theorem minBlock_le_alignOffset (hshort : headerSize m e < alignOffset e) :
    minBlock ≤ alignOffset e := by
  rcases h with rfl | ⟨-, hmin, -⟩
  · decide
  · omega

/-- A hole that is taken though it is too short is not taken whole. -/
theorem takenSize_of_wraps (hwraps : WrapsToFit m e total) (htotal : total < 2 ^ 32)
    (hlong : headerSize m e < total) : takenSize m e total = total := by
  have hmin := h.minBlock_le_alignOffset hwraps.1
  have hfits := hwraps.2
  rw [takenSize, if_neg]
  simp only [wsub]
  omega

omit h in
/-- A hole at whose start the block is put has room for it. -/
theorem fits_of_not_gap (hfits : holeFits m e total align = true) (hgap : ¬Gap e align) :
    total ≤ headerSize m e := by
  have hlt := headerSize_lt m e
  cases align with
  | false => simpa [holeFits] using hfits
  | true =>
    have haligned : aligned (wadd e sizeofHeader) = true := by simpa [Gap] using hgap
    rw [holeFits_align, alignOffset, if_pos haligned, wsub_eq (Nat.zero_le _) hlt, Nat.sub_zero]
      at hfits
    exact of_decide_eq_true hfits

/-- The block has at least the size that is asked for. -/
theorem le_takenSize_of_fits (hfits : holeFits m e total align = true) (htotal : total < 2 ^ 32) :
    total ≤ takenSize m e total := by
  refine le_takenSize htotal ?_
  by_cases hgap : Gap e align
  · obtain rfl : align = true := hgap.1
    rcases holeFits_align_iff.mp hfits with hroom | hwraps
    · rw [FitsAligned] at hroom
      exact Or.inl (by omega)
    · have hmin := h.minBlock_le_alignOffset hwraps.1
      have hwrapped := hwraps.2
      have hle := alignOffset_le e
      simp only [pageSize] at hle
      exact Or.inr (by omega)
  · exact Or.inl (fits_of_not_gap hfits hgap)

/-- **The header of what is left** does not come around the end of memory but for those holes. -/
theorem rest_fits (hfits : holeFits m e total align = true) (htotal : total < 2 ^ 32)
    (hnot : align = true → ¬RestOverSize m e total) :
    takenSize m e total + 4 ≤ 2 ^ 32 ∨ takenRoom m e align ≤ takenSize m e total := by
  have hlt := headerSize_lt m e
  have hblock : minBlock = 20 := rfl
  by_cases hgap : Gap e align
  · obtain rfl : align = true := hgap.1
    rcases holeFits_align_iff.mp hfits with hroom | hwraps
    · -- The hole is long enough for the distance and the block.
      rw [FitsAligned] at hroom
      left
      rw [takenSize]
      split_ifs with hwhole
      · rw [wsub_eq (by omega) hlt] at hwhole
        have htop : heapStart + heapMaxSize + 4 ≤ 2 ^ 32 := by decide
        rcases h with rfl | ⟨-, -, hend⟩
        · have hnull : alignOffset 0 = 4084 := by decide
          omega
        · omega
      · rw [wsub_eq (by omega) hlt] at hwhole
        omega
    · have hle := alignOffset_le e
      have hshort := hwraps.1
      have hwrapped := hwraps.2
      have hnot := hnot rfl
      simp only [RestOverSize, not_and, not_lt] at hnot
      simp only [pageSize] at hle
      rcases Nat.lt_or_ge (headerSize m e) total with hlong | hlarge
      · -- The block has the size that is asked for.
        have hmin := h.minBlock_le_alignOffset hshort
        rw [h.takenSize_of_wraps hwraps htotal hlong]
        by_cases hagree : newHoleLoc e = e + alignOffset e
        · have hcond := hnot hshort hagree
          rw [h.takenRoom_of_agree hgap hagree hmin hshort]
          omega
        · have hroom := h.takenRoom_of_disagree hgap hagree hshort
          simp only [pageSize] at hroom
          omega
      · left
        rw [takenSize]
        split_ifs <;> omega
  · have hroom := fits_of_not_gap hfits hgap
    rw [takenSize, takenRoom, if_neg hgap]
    split_ifs with hwhole
    · exact Or.inr le_rfl
    · rw [wsub_eq hroom hlt] at hwhole
      omega

end EntryAt

/-- **The size is lost** in the header of a block from one of the other holes. -/
theorem headerSize_rest_over (h : EntryAt k.mem (slot k.mem k.heap.index i))
    (hcomparer : k.heap.index.comparer.isSome) (hi : i < k.heap.index.size)
    (htotal : total < 2 ^ 32)
    (hfits : holeFits k.mem (slot k.mem k.heap.index i) total true = true)
    (hindex : IndexApart k.heap.index (takenPos (slot k.mem k.heap.index i) true))
    (hover : RestOverSize k.mem (slot k.mem k.heap.index i) total)
    (hfrom : allocFrom k total true i = .ok (p, k')) :
    headerSize k'.mem (headerFor p) % 256 = 0 := by
  obtain ⟨mem, index, hplace, harray, hentries, hcomparer'⟩ := allocFrom_eq_placeBlock hi total true
  obtain ⟨e, he⟩ : ∃ e, e = slot k.mem k.heap.index i := ⟨_, rfl⟩
  rw [← he] at h hfits hindex hover hplace
  obtain ⟨hshort, hagree, hlast, hbehind⟩ := hover
  have hlt := h.lt
  have hle := alignOffset_le e
  simp only [pageSize] at hle hlt
  have hgap : Gap e true := by
    refine ⟨rfl, fun haligned => ?_⟩
    rw [alignOffset, if_pos haligned] at hshort
    omega
  have hwraps : WrapsToFit k.mem e total := by
    refine (holeFits_align_iff.mp hfits).resolve_left fun hroom => ?_
    rw [FitsAligned] at hroom
    omega
  have hmin := h.minBlock_le_alignOffset hshort
  have hsize := h.takenSize_of_wraps hwraps htotal (by omega)
  have hpos : takenPos e true = e + alignOffset e := by rw [takenPos, if_pos hgap, hagree]
  have hroom := h.takenRoom_of_agree hgap hagree hmin hshort
  rw [hpos] at hindex
  rw [IndexApart] at hindex
  rw [hplace, hpos, hsize, hroom] at hfrom
  simp only [minBlock] at hmin
  obtain ⟨hp, hrecorded⟩ := headerSize_placeBlock_over mem (hcomparer' ▸ hcomparer)
      (by omega) (by omega)
    hlast (by omega) (by omega) (by omega) hfrom
  rw [hp, headerFor_wadd (by omega)]
  exact hrecorded

/-- **When the header of a block records enough.** In a well-formed heap a call of `alloc` that
returns has written a header whose size is at least the size it was asked for with a header and a
footer, exactly when this sum does not wrap and the hole it has found for an aligned block is not
two or three bytes shorter than the distance to the aligned place, for one of the last sizes. When
the heap has grown, this is so as long as the index has not grown into the header. -/
theorem sizeRecorded_iff {depth : ℕ} (hw : WellFormed k.mem k.heap blocks)
    (hgrown : findSmallestHole k.mem k.heap (totalBlockSize size) align = none →
      TakesHole (TakesApart align) depth k size align)
    (h : alloc depth k size align = .ok (p, k')) :
    SizeRecorded k' p size ↔ size + minBlock < 2 ^ 32 ∧ (align = true → ∀ i,
      findSmallestHole k.mem k.heap (size + minBlock) true = some i →
        ¬RestOverSize k.mem (slot k.mem k.heap.index i) (size + minBlock)) := by
  have hcomparer := hw.inv.index.comparer
  by_cases hsize : size + minBlock < 2 ^ 32
  swap
  · have hlt := headerSize_lt k'.mem (headerFor p)
    refine iff_of_false (fun hrecorded => hsize ?_) fun hboth => hsize hboth.1
    rw [SizeRecorded] at hrecorded
    omega
  have htotal : totalBlockSize size = size + minBlock := total_eq hsize
  simp only [hsize, true_and]
  cases depth with
  | zero => cases h
  | succ depth =>
    obtain ⟨hfind, k₁, hspace, -⟩ | ⟨i, hfind, hfrom⟩ := alloc_cases h
    · -- The heap has grown, so the size is small.
      have hrecorded : SizeRecorded k' p size := by
        refine sizeRecorded_of_le hcomparer ?_ (hgrown hfind) h
        obtain ⟨k₂, hexpand, -⟩ := except_bind_eq_ok.mp hspace
        have hle := hw.inv.tiles.le
        have hlt := hw.inv.bounds.end_lt
        have hstart := hw.layout.start
        have hlow : pageSize ≤ heapStart + 4 * heapIndexSize := by decide
        rw [wsub_eq hle hlt, htotal] at hexpand
        obtain ⟨hwrap, -⟩ := needed_no_wrap hle hlt hsize rfl hexpand
        omega
      refine iff_of_true hrecorded fun halign i hsome => ?_
      rw [htotal, halign, hsome] at hfind
      cases hfind
    · rw [htotal] at hfind hfrom
      obtain ⟨hi, hfits⟩ := findSmallestHole_eq_some hfind
      have hentry := hw.entryAt hi
      have hapart := hentry.apart align hw.layout hw.inv.index.size_le
      constructor
      · rintro hrecorded rfl j hj hover
        obtain rfl := Option.some.inj (hfind.symm.trans hj)
        have hlost := headerSize_rest_over hentry hcomparer hi hsize hfits hapart hover hfrom
        have hlt := headerSize_lt k'.mem (headerFor p)
        have hlast := hover.2.2.1
        rw [SizeRecorded] at hrecorded
        omega
      · intro hnot
        refine sizeRecorded_of_allocFrom hcomparer hi hsize
          (hentry.le_takenSize_of_fits hfits hsize) ?_ hapart hfrom
        refine hentry.rest_fits hfits hsize fun halign hover => ?_
        subst halign
        exact hnot rfl i hfind hover

/-- A block of 100 bytes from the first heap. -/
theorem sizeRecorded_first_heap : ∃ k p k', WellFormed k.mem k.heap [firstHole] ∧
    alloc 1 k 100 false = .ok (p, k') ∧ SizeRecorded k' p 100 := by
  have hrun : returns (sampleRun []) (fun k => decide (LaidOut k.mem k.heap [firstHole]) &&
      (decide (findSmallestHole k.mem k.heap (totalBlockSize 100) false = some 0) &&
        returns (alloc 1 k 100 false) fun _ => true)) = true := by
    decide +kernel
  obtain ⟨k, hk, hrun⟩ := exists_of_returns hrun
  simp only [Bool.and_eq_true, decide_eq_true_eq] at hrun
  obtain ⟨hlaid, hfind, hrun⟩ := hrun
  obtain ⟨⟨p, k'⟩, halloc, -⟩ := exists_of_returns hrun
  have hw := (reached_of_sampleRun hk).wellFormed hlaid
  refine ⟨k, p, k', hw, halloc, (sizeRecorded_iff hw (fun hnone => ?_) halloc).mpr
    ⟨by decide, fun halign => by cases halign⟩⟩
  rw [hfind] at hnone
  cases hnone

/-- **A block of all memory**: the size of the block with header and footer wraps to 19 bytes. -/
theorem size_of_all_memory : ∃ k p k', WellFormed k.mem k.heap [firstHole] ∧
    alloc 1 k (2 ^ 32 - 1) false = .ok (p, k') ∧ ¬SizeRecorded k' p (2 ^ 32 - 1) := by
  have hrun : returns (sampleRun []) (fun k => decide (LaidOut k.mem k.heap [firstHole]) &&
      returns (alloc 1 k (2 ^ 32 - 1) false) fun _ => true) = true := by
    decide +kernel
  obtain ⟨k, hk, hrun⟩ := exists_of_returns hrun
  simp only [Bool.and_eq_true, decide_eq_true_eq] at hrun
  obtain ⟨hlaid, hrun⟩ := hrun
  obtain ⟨⟨p, k'⟩, halloc, -⟩ := exists_of_returns hrun
  refine ⟨k, p, k', (reached_of_sampleRun hk).wellFormed hlaid, halloc, fun hrecorded => ?_⟩
  have hlt := headerSize_lt k'.mem (headerFor p)
  have hmin : 0 < minBlock := by decide
  rw [SizeRecorded] at hrecorded
  omega

end Studix.Mem
