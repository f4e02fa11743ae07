import Studix.Base.Bounded
import Studix.Mem.FrameSearch
import Studix.Mem.HeapBounds
import Studix.Mem.HeapRelease

/-!
# Whether an allocation ends

`alloc` calls itself when it has made space, and `expand` calls it for a page table before the end
of the heap has moved. The first kind of call moves the end of the heap towards its maximal address.
The second one does not: when no hole has room for a page table either, and the two pages that such
a call adds to the heap have none, the same call is made again and again.

## Main definitions

* `Call`, `Call.Next`: the calls that a call of `alloc` makes.
* `Call.Ends`: some bound on the nested calls is enough.
* `Call.Stuck`: a call for a page table that needs a page table.

## Main results

* `alloc_approx`: a larger bound changes nothing in a call that ends.
* `Call.Stuck.not_ends`: a stuck call does not end.
* `call_ends_iff`: which calls end.
-/

namespace Studix.Mem

variable {k k' s : Kernel} {a a' : Alloc} {n p size total i : ℕ} {align : Bool}

/-! ### Larger bounds -/

/-- The calls of `a'` are those of `a`, unless these have used up their bound. -/
def AllocApprox (a a' : Alloc) : Prop :=
  ∀ k size align, Approx Stop.unfinished (a k size align) (a' k size align)

theorem kmallocAux_approx (h : AllocApprox a a') (k : Kernel) (size : ℕ) (align phys : Bool) :
    Approx Stop.unfinished (kmallocAux a k size align phys) (kmallocAux a' k size align phys) := by
  by_cases hheap : k.kheap = true
  · simp only [kmallocAux, hheap, if_true]
    exact (h k size align).bind fun _ => .refl _
  · simp only [kmallocAux, hheap, Bool.false_eq_true, if_false]
    exact .refl _

theorem getPage_approx (h : AllocApprox a a') (k : Kernel) (addr : ℕ) (makeTable : Bool) :
    Approx Stop.unfinished (getPage a k addr makeTable) (getPage a' k addr makeTable) := by
  simp only [getPage]
  split_ifs
  · exact .refl _
  · exact (kmallocAux_approx h k pageTableSize true true).bind fun _ => .refl _
  · exact .refl _

theorem expandPage_approx (h : AllocApprox a a') (oldSize n : ℕ) (k : Kernel) :
    Approx Stop.unfinished (expandPage a oldSize n k) (expandPage a' oldSize n k) :=
  (getPage_approx h k _ true).bind fun _ => .refl _

theorem expandPages_approx (h : AllocApprox a a') (oldSize n : ℕ) (k : Kernel) :
    Approx Stop.unfinished (forLoopM (expandPage a oldSize) n k)
      (forLoopM (expandPage a' oldSize) n k) :=
  .forLoopM (fun n k => expandPage_approx h oldSize n k) n k

theorem expand_approx (h : AllocApprox a a') (k : Kernel) (newSize : ℕ) :
    Approx Stop.unfinished (expand a k newSize) (expand a' k newSize) :=
  (Approx.refl _).bind fun _ => (Approx.refl _).bind fun _ =>
    (expandPages_approx h _ _ k).bind fun _ => .refl _

theorem makeSpace_approx (h : AllocApprox a a') (k : Kernel) (neededSize : ℕ) :
    Approx Stop.unfinished (makeSpace a k neededSize) (makeSpace a' k neededSize) :=
  (expand_approx h k _).bind fun _ => .refl _

theorem alloc_succ (depth : ℕ) (k : Kernel) (size : ℕ) (align : Bool) :
    alloc (depth + 1) k size align =
      match findSmallestHole k.mem k.heap (totalBlockSize size) align with
      | none => makeSpace (alloc depth) k (totalBlockSize size) >>= fun k =>
        alloc depth k size align
      | some i => allocFrom k (totalBlockSize size) align i := rfl

theorem alloc_approx_succ (depth : ℕ) : AllocApprox (alloc depth) (alloc (depth + 1)) := by
  induction depth with
  | zero => exact fun k size align hends => absurd rfl hends
  | succ depth ih =>
    intro k size align
    rw [alloc_succ, alloc_succ (depth + 1)]
    cases findSmallestHole k.mem k.heap (totalBlockSize size) align with
    | none => exact (makeSpace_approx ih k _).bind fun k₁ => ih k₁ size align
    | some i => exact .refl _

/-- **A larger bound changes nothing** in a call that ends. -/
theorem alloc_approx {d d' : ℕ} (h : d ≤ d') : AllocApprox (alloc d) (alloc d') := by
  induction h with
  | refl => exact fun k size align => .refl _
  | step _ ih =>
    exact fun k size align => (ih k size align).trans (alloc_approx_succ _ k size align)

/-! ### What ends by itself -/

theorem assert_ends (x : Bool) (expr : String) : Ends Stop.unfinished (assert x expr) := by
  rw [assert]
  split_ifs <;> simp

theorem orderedArrayInsert_ends (m : Memory) (index : OrderedArray) (item : ℕ) :
    Ends Stop.unfinished (orderedArrayInsert m index item) := by
  rw [orderedArrayInsert]
  refine (assert_ends _ _).bind fun _ _ => ?_
  dsimp only
  split_ifs <;> simp

theorem orderedArrayLookup_ends (m : Memory) (index : OrderedArray) (i : ℕ) :
    Ends Stop.unfinished (orderedArrayLookup m index i) := by
  rw [orderedArrayLookup]
  exact (assert_ends _ _).bind fun _ _ => ends_ok _ _

theorem placeBlock_ends (k : Kernel) (mem : Memory) (index : OrderedArray)
    (pos holeSize total : ℕ) :
    Ends Stop.unfinished (placeBlock k mem index pos holeSize total) := by
  rw [placeBlock]
  split
  · exact (orderedArrayInsert_ends _ _ _).bind fun _ _ => ends_ok _ _
  · exact ends_ok _ _

/-- A call that finds a hole ends. -/
theorem allocFrom_ends (k : Kernel) (total : ℕ) (align : Bool) (i : ℕ) :
    Ends Stop.unfinished (allocFrom k total align i) := by
  refine (orderedArrayLookup_ends _ _ _).bind fun pos _ => ?_
  dsimp only
  split
  · exact placeBlock_ends _ _ _ _ _ _
  · exact placeBlock_ends _ _ _ _ _ _

theorem addSpace_ends (k : Kernel) (oldEndAddr growth : ℕ) :
    Ends Stop.unfinished (addSpace k oldEndAddr growth) := by
  rw [addSpace]
  split
  · exact (orderedArrayLookup_ends _ _ _).bind fun _ _ => ends_ok _ _
  · exact (orderedArrayInsert_ends _ _ _).bind fun _ _ => ends_ok _ _

theorem allocFrameAt_ends (k : Kernel) (ref : Option PageRef) (kernel writeable : Bool) :
    Ends Stop.unfinished (allocFrameAt k ref kernel writeable) := by
  cases ref with
  | none => simp [allocFrameAt]
  | some ref =>
    simp only [allocFrameAt]
    split
    · simp
    · refine Ends.bind ?_ fun _ _ => ends_ok _ _
      simp only [allocFrame]
      split_ifs <;> simp

/-! ### What adding a page changes -/

/-- Frames and page table entries may change, but nothing else. -/
structure KeepsTables (s t : Kernel) : Prop where
  mem : t.mem = s.mem
  heap : t.heap = s.heap
  kheap : t.kheap = s.kheap
  numFrames : t.numFrames = s.numFrames
  tables : ∀ j, (t.kernelDir.tables j).isSome = (s.kernelDir.tables j).isSome

theorem KeepsTables.refl (s : Kernel) : KeepsTables s s := ⟨rfl, rfl, rfl, rfl, fun _ => rfl⟩

theorem KeepsTables.trans {t u : Kernel} (h : KeepsTables s t) (h' : KeepsTables t u) :
    KeepsTables s u :=
  ⟨h'.mem.trans h.mem, h'.heap.trans h.heap, h'.kheap.trans h.kheap, h'.numFrames.trans h.numFrames,
    fun j => (h'.tables j).trans (h.tables j)⟩

/-- An entry gets a frame, if there is a table with it. -/
theorem exists_allocFrameAt {ref : PageRef} (hnum : k.numFrames < 2 ^ 32)
    (htable : (k.kernelDir.tables ref.1).isSome) (kernel writeable : Bool) :
    ∃ k', allocFrameAt k (some ref) kernel writeable = .ok k' ∧ KeepsTables k k' := by
  obtain ⟨table, htable⟩ := Option.isSome_iff_exists.mp htable
  have hentry : k.entry ref = some (table.pages ref.2) := by
    rw [Kernel.entry, htable, Option.map_some]
  obtain ⟨k', h⟩ : ∃ k', allocFrameAt k (some ref) kernel writeable = .ok k' := by
    simp only [allocFrameAt, hentry]
    by_cases hframe : (table.pages ref.2).frame = 0#20
    · exact ⟨_, by rw [allocFrame_of_zero hnum k.frames hframe, except_ok_bind]⟩
    · exact ⟨_, by rw [allocFrame_of_ne_zero hframe, except_ok_bind]⟩
  obtain ⟨hmem, hheap, hkheap⟩ := allocFrameAt_eq_ok h
  exact ⟨k', h, hmem, hheap, hkheap, allocFrameAt_numFrames h, allocFrameAt_tables h⟩

/-! ### Calls -/

/-- A call `alloc(kheap, size, align)` in a state. -/
structure Call where
  state : Kernel
  size : ℕ
  align : Bool

namespace Call

variable {c c' : Call}

/-- The hole that the call finds. -/
def find (c : Call) : Option ℕ :=
  findSmallestHole c.state.mem c.state.heap (totalBlockSize c.size) c.align

/-- The length of the heap. -/
def oldSize (c : Call) : ℕ := wsub c.state.heap.endAddr c.state.heap.startAddr

/-- The length that `make_space` asks for. -/
def newSize (c : Call) : ℕ := wadd c.oldSize (totalBlockSize c.size)

/-- The number of pages that `expand` adds. -/
def newPages (c : Call) : ℕ := (alignUp c.newSize - c.oldSize + (pageSize - 1)) / pageSize

/-- The page table of the `n`-th new page. -/
def tableIndex (c : Call) (n : ℕ) : ℕ :=
  (pageRef (wadd c.state.heap.startAddr (c.oldSize + pageSize * n))).1

/-- The call finds no hole, and `expand` passes its checks. -/
def Grows (c : Call) : Prop := c.find = none ∧ ExpandAdmits c.state.heap c.newSize

/-- The state after the first `n` new pages. -/
def Adds (c : Call) (n : ℕ) (s : Kernel) : Prop :=
  ∃ depth, forLoopM (expandPage (alloc depth) c.oldSize) n c.state = .ok s

/-- The calls that a call makes: one for each page table that `expand` needs, and, when it has made
space, the same call again. -/
inductive Next (c : Call) : Call → Prop
  | table {n : ℕ} {s : Kernel} (hgrows : c.Grows) (hn : n < c.newPages) (hadds : c.Adds n s)
      (hnone : s.kernelDir.tables (c.tableIndex n) = none) : Next c ⟨s, pageTableSize, true⟩
  | again {depth : ℕ} {k' : Kernel} (hfind : c.find = none)
      (hspace : makeSpace (alloc depth) c.state (totalBlockSize c.size) = .ok k') :
      Next c ⟨k', c.size, c.align⟩

/-- The call returns or stops at a failed check: some bound on the nested calls is enough. -/
def Finishes (c : Call) : Prop :=
  ∃ depth, Ends Stop.unfinished (alloc depth c.state c.size c.align)

/-- The call is one for a page table, and the heap has to grow for it by a page that has no page
table either. -/
def Stuck (c : Call) : Prop :=
  c.size = pageTableSize ∧ c.align = true ∧ c.Grows ∧
    ∃ n < c.newPages, c.state.kernelDir.tables (c.tableIndex n) = none

/-! ### What a call that ends says of the calls in it -/

theorem expand_eq (a : Alloc) (h : ExpandAdmits k.heap n) :
    expand a k n = forLoopM (expandPage a (wsub k.heap.endAddr k.heap.startAddr))
        ((alignUp n - wsub k.heap.endAddr k.heap.startAddr + (pageSize - 1)) / pageSize) k >>=
      fun k => .ok { k with
        heap := { k.heap with endAddr := wadd k.heap.startAddr (alignUp n) } } := by
  rw [expand, decide_eq_true h.1, assert_true_bind]
  dsimp only
  rw [decide_eq_true h.2, assert_true_bind]

theorem alloc_of_none {depth : ℕ} (h : c.find = none) :
    alloc (depth + 1) c.state c.size c.align =
      makeSpace (alloc depth) c.state (totalBlockSize c.size) >>= fun k =>
        alloc depth k c.size c.align := by
  rw [find] at h
  rw [alloc_succ, h]

/-- The loop of `expand` leaves the rest of the heap's description alone. -/
theorem Adds.sameFrame (h : c.Adds n s) : SameFrame c.state s := by
  obtain ⟨depth, h⟩ := h
  exact forLoopM_invariant (fun _ t => SameFrame c.state t) (.refl _)
    (fun _ _ _ _ ht hbody => ht.trans (expandPage_sameFrame (alloc_sameFrame depth) hbody)) h

/-- The state after the new pages does not depend on the bound. -/
theorem Adds.eq {depth : ℕ} (h : c.Adds n s)
    (hends : Ends Stop.unfinished (forLoopM (expandPage (alloc depth) c.oldSize) n c.state)) :
    forLoopM (expandPage (alloc depth) c.oldSize) n c.state = .ok s := by
  obtain ⟨d, h⟩ := h
  rw [← h]
  refine Approx.unique (f := fun d => forLoopM (expandPage (alloc d) c.oldSize) n c.state)
    (fun d d' hle => expandPages_approx (alloc_approx hle) _ _ _) hends ?_
  simp only [h]
  exact ends_ok _ _

/-- A page that has no page table is added by a call for one. -/
theorem ends_of_expandPage {oldSize : ℕ} (hkheap : s.kheap = true)
    (hnone : s.kernelDir.tables (pageRef (wadd s.heap.startAddr (oldSize + pageSize * n))).1 = none)
    (h : Ends Stop.unfinished (expandPage a oldSize n s)) :
    Ends Stop.unfinished (a s pageTableSize true) := by
  have hpage := h.of_bind
  simp only [getPage, hnone, Option.isSome_none, Bool.false_eq_true, if_false, if_true] at hpage
  have hmalloc := hpage.of_bind
  simp only [kmallocAp, kmallocAux, hkheap, if_true] at hmalloc
  exact hmalloc.of_bind

/-- **A call that ends has ended in its calls for page tables**, within a smaller bound. -/
theorem ends_table {depth : ℕ} (hkheap : c.state.kheap = true) (hgrows : c.Grows)
    (hn : n < c.newPages) (hadds : c.Adds n s)
    (hnone : s.kernelDir.tables (c.tableIndex n) = none)
    (h : Ends Stop.unfinished (alloc (depth + 1) c.state c.size c.align)) :
    Ends Stop.unfinished (alloc depth s pageTableSize true) := by
  rw [alloc_of_none hgrows.1] at h
  have hexpand : Ends Stop.unfinished (expand (alloc depth) c.state c.newSize) := h.of_bind.of_bind
  rw [expand_eq _ hgrows.2] at hexpand
  have hloop : Ends Stop.unfinished
      (forLoopM (expandPage (alloc depth) c.oldSize) (n + 1) c.state) :=
    hexpand.of_bind.of_forLoopM hn
  have hpage := hloop.of_bind_ok (hadds.eq hloop.of_bind)
  have hframe := hadds.sameFrame
  refine ends_of_expandPage (hframe.1.trans hkheap) ?_ hpage
  rw [hframe.startAddr]
  exact hnone

/-- A call that ends has ended in the call that it makes again. -/
theorem Next.finishes (hkheap : c.state.kheap = true) (h : Next c c') (hc : c.Finishes) :
    c'.Finishes := by
  obtain ⟨depth, hends⟩ := hc
  cases depth with
  | zero => exact absurd rfl hends
  | succ depth =>
    refine ⟨depth, ?_⟩
    cases h with
    | table hgrows hn hadds hnone => exact ends_table hkheap hgrows hn hadds hnone hends
    | again hfind hspace =>
      rw [alloc_of_none hfind] at hends
      refine hends.of_bind_ok ?_
      rw [← hspace]
      refine Approx.unique
        (f := fun d => makeSpace (alloc d) c.state (totalBlockSize c.size))
        (fun d d' hle => makeSpace_approx (alloc_approx hle) _ _) hends.of_bind ?_
      simp only [hspace]
      exact ends_ok _ _

/-! ### Pages that have a page table -/

/-- **The pages that have a page table** are added whatever the calls for page tables do. -/
theorem exists_expandPages (hnum : c.state.numFrames < 2 ^ 32)
    (htables : ∀ i < n, (c.state.kernelDir.tables (c.tableIndex i)).isSome) (a : Alloc) :
    ∃ t, forLoopM (expandPage a c.oldSize) n c.state = .ok t ∧ KeepsTables c.state t := by
  refine forLoopM_total (fun _ t => KeepsTables c.state t) (.refl _) fun i t hi ht => ?_
  have htable : (t.kernelDir.tables (pageRef (wadd t.heap.startAddr
      (c.oldSize + pageSize * i))).1).isSome := by
    rw [ht.tables, ht.heap]
    exact htables i hi
  obtain ⟨u, hframe, hu⟩ := exists_allocFrameAt (ht.numFrames ▸ hnum) htable t.heap.supervisor
    t.heap.readonly
  refine ⟨u, ?_, ht.trans hu⟩
  rw [expandPage, getPage_of_table htable, except_ok_bind]
  exact hframe

/-- A call does not depend on frames and page table entries in what it asks for. -/
theorem Stuck.of_keepsTables (h : c.Stuck) (hkeeps : KeepsTables c.state s) :
    Stuck ⟨s, pageTableSize, true⟩ := by
  obtain ⟨⟨state, size, align⟩, rfl⟩ : ∃ c', c' = c := ⟨c, rfl⟩
  obtain ⟨rfl, rfl, ⟨hfind, hadmits⟩, n, hn, hnone⟩ := h
  simp only [find, newPages, newSize, oldSize, tableIndex] at *
  refine ⟨rfl, rfl, ⟨?_, ?_⟩, n, ?_, ?_⟩
  · simpa only [find, hkeeps.mem, hkeeps.heap] using hfind
  · simpa only [newSize, oldSize, hkeeps.heap] using hadmits
  · simpa only [newPages, newSize, oldSize, hkeeps.heap] using hn
  · rw [← Option.not_isSome_iff_eq_none] at hnone ⊢
    simpa only [tableIndex, oldSize, hkeeps.heap, hkeeps.tables] using hnone

/-- **A stuck call makes a stuck call.** -/
theorem Stuck.exists_next (h : c.Stuck) (hnum : c.state.numFrames < 2 ^ 32) :
    ∃ n s, n < c.newPages ∧ c.Adds n s ∧ s.kernelDir.tables (c.tableIndex n) = none ∧
      KeepsTables c.state s := by
  classical
  obtain ⟨-, -, -, hex⟩ := id h
  -- The first page without a table.
  obtain ⟨hn, hnone⟩ := Nat.find_spec hex
  have hbefore : ∀ i < Nat.find hex, (c.state.kernelDir.tables (c.tableIndex i)).isSome := by
    intro i hi
    have hnot := Nat.find_min hex hi
    rw [not_and, ← ne_eq, Option.ne_none_iff_isSome] at hnot
    exact hnot (hi.trans hn)
  obtain ⟨s, hs, hkeeps⟩ := exists_expandPages hnum hbefore (alloc 0)
  refine ⟨Nat.find hex, s, hn, ⟨0, hs⟩, ?_, hkeeps⟩
  rw [← Option.not_isSome_iff_eq_none, hkeeps.tables, Option.not_isSome_iff_eq_none]
  exact hnone

/-- **A stuck call does not end**, whatever the bound is. -/
theorem Stuck.not_finishes (h : c.Stuck) (hkheap : c.state.kheap = true)
    (hnum : c.state.numFrames < 2 ^ 32) : ¬c.Finishes := by
  rintro ⟨depth, hends⟩
  induction depth generalizing c with
  | zero => exact hends rfl
  | succ depth ih =>
    obtain ⟨n, s, hn, hadds, hnone, hkeeps⟩ := h.exists_next hnum
    exact ih (h.of_keepsTables hkeeps) (hkeeps.kheap.trans hkheap) (hkeeps.numFrames ▸ hnum)
      (ends_table hkheap h.2.2.1 hn hadds hnone hends)

end Call

/-! ### The kernel's heap -/

/-- The heap of this kernel between two calls, with a number of frames of 32 bits. -/
structure InKernel (k : Kernel) : Prop where
  kheap : k.kheap = true
  start : k.heap.startAddr = heapStart + 4 * heapIndexSize
  max : k.heap.maxAddr = heapStart + heapMaxSize
  pages : k.heap.endAddr % pageSize = 0
  end_le : k.heap.endAddr ≤ heapStart + heapMaxSize
  numFrames : k.numFrames < 2 ^ 32

/-- What is asked of the `alloc` that makes page tables. -/
def KeepsKernel (a : Alloc) : Prop :=
  ∀ k size align p k', InKernel k → a k size align = .ok (p, k') → InKernel k'

theorem InKernel.of_heap (h : InKernel k) (hkheap : k'.kheap = k.kheap) (hheap : k'.heap = k.heap)
    (hnum : k'.numFrames = k.numFrames) : InKernel k' :=
  ⟨hkheap.trans h.kheap, hheap ▸ h.start, hheap ▸ h.max, hheap ▸ h.pages, hheap ▸ h.end_le,
    hnum ▸ h.numFrames⟩

theorem InKernel.setIndex (h : InKernel k) (mem : Memory) (index : OrderedArray) :
    InKernel (k.setIndex mem index) :=
  ⟨h.kheap, h.start, h.max, h.pages, h.end_le, h.numFrames⟩

theorem InKernel.setEnd {endAddr : ℕ} (h : InKernel k) (hpages : endAddr % pageSize = 0)
    (hle : endAddr ≤ heapStart + heapMaxSize) :
    InKernel { k with heap := { k.heap with endAddr } } :=
  ⟨h.kheap, h.start, h.max, hpages, hle, h.numFrames⟩

theorem getPage_keepsKernel {addr : ℕ} {makeTable : Bool} {ref : Option PageRef}
    (ha : KeepsKernel a) (hk : InKernel k) (h : getPage a k addr makeTable = .ok (ref, k')) :
    InKernel k' := by
  rw [getPage] at h
  split_ifs at h with htable
  · rw [← (Prod.mk.inj (Except.ok.inj h)).2]
    exact hk
  · obtain ⟨⟨table, physAddr, k₁⟩, hmalloc, h⟩ := except_bind_eq_ok.mp h
    rw [← (Prod.mk.inj (Except.ok.inj h)).2]
    simp only [kmallocAp, kmallocAux, hk.kheap, if_true] at hmalloc
    obtain ⟨⟨addr', k₂⟩, halloc, hphys⟩ := except_bind_eq_ok.mp hmalloc
    have hk₂ := ha _ _ _ _ _ hk halloc
    simp only at hphys
    split at hphys
    · cases hphys
    · rw [← (Prod.mk.inj (Prod.mk.inj (Except.ok.inj hphys)).2).2]
      exact hk₂.of_heap rfl rfl rfl
  · rw [← (Prod.mk.inj (Except.ok.inj h)).2]
    exact hk

theorem expandPages_keepsKernel {oldSize : ℕ} (ha : KeepsKernel a) (hk : InKernel k)
    (h : forLoopM (expandPage a oldSize) n k = .ok k') : InKernel k' := by
  refine forLoopM_invariant (fun _ t => InKernel t) hk (fun n t t' _ ht hbody => ?_) h
  obtain ⟨⟨page, t₁⟩, hpage, hframe⟩ := except_bind_eq_ok.mp hbody
  obtain ⟨-, hheap, hkheap⟩ := allocFrameAt_eq_ok hframe
  exact (getPage_keepsKernel ha ht hpage).of_heap hkheap hheap (allocFrameAt_numFrames hframe)

/-- The end of the heap after `expand` has passed its checks. -/
theorem InKernel.newEnd (hk : InKernel k) (hlt : n < 2 ^ 32) (hadmits : ExpandAdmits k.heap n) :
    wadd k.heap.startAddr (alignUp n) % pageSize = 0 ∧
      wadd k.heap.startAddr (alignUp n) ≤ heapStart + heapMaxSize := by
  refine ⟨?_, hk.max ▸ hadmits.2⟩
  rw [alignUp_eq_mod hlt, hk.start]
  simp only [wadd, pageSize, heapStart, heapIndexSize]
  omega

/-- The end of `make_space` changes the memory and the index. -/
theorem addSpace_setIndex {oldEnd growth : ℕ} (h : addSpace k oldEnd growth = .ok k') :
    ∃ mem index, k' = k.setIndex mem index := by
  rw [addSpace] at h
  split at h
  · obtain ⟨header, -, h⟩ := except_bind_eq_ok.mp h
    exact ⟨_, k.heap.index, (Except.ok.inj h).symm⟩
  · obtain ⟨⟨mem, index⟩, -, h⟩ := except_bind_eq_ok.mp h
    exact ⟨mem, index, (Except.ok.inj h).symm⟩

theorem makeSpace_keepsKernel (ha : KeepsKernel a) (hk : InKernel k)
    (h : makeSpace a k n = .ok k') :
    InKernel k' ∧ k'.heap.endAddr = wadd k.heap.startAddr
      (alignUp (wadd (wsub k.heap.endAddr k.heap.startAddr) n)) := by
  obtain ⟨k₁, hexpand, hadd⟩ := except_bind_eq_ok.mp h
  have hadmits := expand_admits hexpand
  obtain ⟨hpages, hle⟩ := hk.newEnd (wadd_lt _ _) hadmits
  rw [Call.expand_eq _ hadmits] at hexpand
  obtain ⟨k₂, hloop, hk₂⟩ := except_bind_eq_ok.mp hexpand
  have hkernel := expandPages_keepsKernel ha hk hloop
  have hstart : k₂.heap.startAddr = k.heap.startAddr := hkernel.start.trans hk.start.symm
  obtain rfl := Except.ok.inj hk₂
  obtain ⟨mem, index, rfl⟩ := addSpace_setIndex hadd
  rw [hstart]
  exact ⟨(hkernel.setEnd hpages hle).setIndex mem index, rfl⟩

theorem placeBlock_setIndex {mem : Memory} {index : OrderedArray} {pos holeSize : ℕ}
    (h : placeBlock k mem index pos holeSize total = .ok (p, k')) :
    ∃ mem index, k' = k.setIndex mem index := by
  rw [placeBlock] at h
  split at h
  · obtain ⟨⟨mem', index'⟩, -, h⟩ := except_bind_eq_ok.mp h
    exact ⟨_, _, (Prod.mk.inj (Except.ok.inj h)).2.symm⟩
  · exact ⟨_, _, (Prod.mk.inj (Except.ok.inj h)).2.symm⟩

/-- What follows the search changes the memory and the index. -/
theorem allocFrom_setIndex (h : allocFrom k total align i = .ok (p, k')) :
    ∃ mem index, k' = k.setIndex mem index := by
  obtain ⟨pos, -, h⟩ := except_bind_eq_ok.mp h
  dsimp only at h
  split at h
  · exact placeBlock_setIndex h
  · exact placeBlock_setIndex h

/-- **A call leaves the kernel's heap in its bounds.** -/
theorem alloc_keepsKernel (depth : ℕ) : KeepsKernel (alloc depth) := by
  induction depth with
  | zero => exact fun k size align p k' _ h => by cases h
  | succ depth ih =>
    intro k size align p k' hk h
    obtain ⟨-, k₁, hspace, halloc⟩ | ⟨i, -, hfrom⟩ := alloc_cases h
    · exact ih _ _ _ _ _ (makeSpace_keepsKernel ih hk hspace).1 halloc
    · obtain ⟨mem, index, rfl⟩ := allocFrom_setIndex hfrom
      exact hk.setIndex mem index

namespace Call

variable {c c' : Call}

/-- The end of the heap after the growth. -/
def newEnd (c : Call) : ℕ := wadd c.state.heap.startAddr (alignUp c.newSize)

theorem Next.inKernel (hc : InKernel c.state) (h : Next c c') : InKernel c'.state := by
  cases h with
  | table hgrows hn hadds hnone =>
    obtain ⟨depth, hadds⟩ := hadds
    exact expandPages_keepsKernel (alloc_keepsKernel depth) hc hadds
  | again hfind hspace => exact (makeSpace_keepsKernel (alloc_keepsKernel _) hc hspace).1

/-- A call that never makes a stuck call. -/
def Unstuck (c : Call) : Prop := ∀ c', Relation.ReflTransGen Next c c' → ¬c'.Stuck

theorem Unstuck.next (h : c.Unstuck) (hnext : Next c c') : c'.Unstuck :=
  fun c'' hreach => h c'' (.head hnext hreach)

/-! ### Calls that end -/

theorem finishes_of_find {i : ℕ} (h : c.find = some i) : c.Finishes := by
  refine ⟨1, ?_⟩
  rw [find] at h
  rw [alloc_succ, h]
  exact allocFrom_ends _ _ _ _

/-- A call that makes space ends when that does and the call it makes then does. -/
theorem finishes_of_makeSpace {depth : ℕ} (hfind : c.find = none)
    (hspace : Ends Stop.unfinished (makeSpace (alloc depth) c.state (totalBlockSize c.size)))
    (hagain : ∀ k', makeSpace (alloc depth) c.state (totalBlockSize c.size) = .ok k' →
      Finishes ⟨k', c.size, c.align⟩) : c.Finishes := by
  cases hresult : makeSpace (alloc depth) c.state (totalBlockSize c.size) with
  | error e =>
    refine ⟨depth + 1, ?_⟩
    rw [alloc_of_none hfind]
    exact hspace.bind fun k' hk' => by simp [hresult] at hk'
  | ok k' =>
    obtain ⟨d, hends⟩ := hagain k' hresult
    refine ⟨max depth d + 1, ?_⟩
    rw [alloc_of_none hfind, makeSpace_approx (alloc_approx (le_max_left depth d)) _ _ hspace,
      hresult, except_ok_bind]
    rwa [Ends, alloc_approx (le_max_right depth d) _ _ _ hends]

/-- What `get_page` does behind the call for a page table ends. -/
theorem ends_expandPage {oldSize : ℕ} (hkheap : s.kheap = true)
    (h : Ends Stop.unfinished (a s pageTableSize true)) :
    Ends Stop.unfinished (expandPage a oldSize n s) := by
  refine Ends.bind ?_ fun _ _ => allocFrameAt_ends _ _ _ _
  simp only [getPage]
  split_ifs
  · exact ends_ok _ _
  · refine Ends.bind ?_ fun _ _ => ends_ok _ _
    simp only [kmallocAp, kmallocAux, hkheap, if_true]
    refine h.bind fun r _ => ?_
    split <;> simp

/-- **The loop of `expand` ends** when the calls for page tables do. -/
theorem expandPages_finishes (hc : InKernel c.state)
    (htables : ∀ i s, i < n → c.Adds i s → s.kernelDir.tables (c.tableIndex i) = none →
      Finishes ⟨s, pageTableSize, true⟩) :
    ∃ depth, Ends Stop.unfinished (forLoopM (expandPage (alloc depth) c.oldSize) n c.state) := by
  induction n with
  | zero => exact ⟨0, ends_ok _ _⟩
  | succ n ih =>
    obtain ⟨depth, hends⟩ := ih fun i s hi => htables i s (Nat.lt_succ_of_lt hi)
    cases hresult : forLoopM (expandPage (alloc depth) c.oldSize) n c.state with
    | error e =>
      exact ⟨depth, hends.bind fun s hs => by simp [hresult] at hs⟩
    | ok s =>
      have hs : InKernel s := expandPages_keepsKernel (alloc_keepsKernel depth) hc hresult
      have hstart : s.heap.startAddr = c.state.heap.startAddr := hs.start.trans hc.start.symm
      cases htable : s.kernelDir.tables (c.tableIndex n) with
      | none =>
        -- The page table is made within a bound of its own.
        obtain ⟨d, hd⟩ := htables n s (Nat.lt_succ_self n) ⟨depth, hresult⟩ htable
        refine ⟨max depth d, ?_⟩
        have hlarger := expandPages_approx (alloc_approx (le_max_left depth d)) c.oldSize n
            c.state hends
        rw [forLoopM, hlarger, hresult, except_ok_bind]
        refine ends_expandPage hs.kheap ?_
        rwa [Ends, alloc_approx (le_max_right depth d) _ _ _ hd]
      | some table =>
        refine ⟨depth, ?_⟩
        have hpage : (s.kernelDir.tables (pageRef (wadd s.heap.startAddr
            (c.oldSize + pageSize * n))).1).isSome := by
          rw [hstart]
          exact Option.isSome_iff_exists.mpr ⟨table, htable⟩
        rw [forLoopM, hresult, except_ok_bind, expandPage, getPage_of_table hpage, except_ok_bind]
        exact allocFrameAt_ends _ _ _ _

/-- **A call ends** when its calls for page tables do, and the call that it makes again from the new
end of the heap does. -/
theorem finishes_of_next (hc : InKernel c.state)
    (htables : ∀ n s, c.Grows → n < c.newPages → c.Adds n s →
      s.kernelDir.tables (c.tableIndex n) = none → Finishes ⟨s, pageTableSize, true⟩)
    (hagain : ∀ k', c.Grows → Next c ⟨k', c.size, c.align⟩ → InKernel k' →
      k'.heap.endAddr = c.newEnd → Finishes ⟨k', c.size, c.align⟩) : c.Finishes := by
  cases hfind : c.find with
  | some i => exact finishes_of_find hfind
  | none =>
    by_cases hadmits : ExpandAdmits c.state.heap c.newSize
    · have hgrows : c.Grows := ⟨hfind, hadmits⟩
      obtain ⟨depth, hloop⟩ := expandPages_finishes (n := c.newPages) hc
        fun i s hi hadds hnone => htables i s hgrows hi hadds hnone
      have hspace : Ends Stop.unfinished
          (makeSpace (alloc depth) c.state (totalBlockSize c.size)) := by
        have hexpand : Ends Stop.unfinished (expand (alloc depth) c.state c.newSize) := by
          rw [expand_eq _ hadmits]
          exact hloop.bind fun _ _ => ends_ok _ _
        exact hexpand.bind fun _ _ => addSpace_ends _ _ _
      refine finishes_of_makeSpace hfind hspace fun k' hk' => ?_
      obtain ⟨hkernel, hend⟩ := makeSpace_keepsKernel (alloc_keepsKernel depth) hc hk'
      exact hagain k' hgrows (.again hfind hk') hkernel hend
    · -- `expand` stops at one of its checks.
      obtain ⟨expr, hstops⟩ : ∃ expr, expand (alloc 0) c.state c.newSize =
          .error (.assertFailed expr) := expand_stops hadmits
      have hspace : makeSpace (alloc 0) c.state (totalBlockSize c.size) =
          .error (.assertFailed expr) := by
        rw [makeSpace]
        exact congrArg (· >>= _) hstops
      have hends : Ends Stop.unfinished (makeSpace (alloc 0) c.state (totalBlockSize c.size)) := by
        simp [hspace]
      refine finishes_of_makeSpace hfind hends fun k' hk' => ?_
      rw [hspace] at hk'
      cases hk'

/-- The new end, when `expand` passes its checks. -/
theorem newEnd_eq (hc : InKernel c.state) (hgrows : c.Grows) :
    c.state.heap.endAddr + totalBlockSize c.size < 2 ^ 32 ∧
      c.newEnd = (c.state.heap.endAddr + totalBlockSize c.size + (pageSize - 1)) / pageSize *
        pageSize % 2 ^ 32 := by
  have htotal : totalBlockSize c.size < 2 ^ 32 := wadd_lt _ _
  have hend := hc.end_le
  have hcheck := hgrows.2.1
  have hnew : c.newSize < 2 ^ 32 := wadd_lt _ _
  -- The heap and the block end inside the address space, and the start of the heap is a multiple of
  -- the page size.
  have hlength : wadd c.state.heap.startAddr c.newSize =
      wadd c.state.heap.endAddr (totalBlockSize c.size) := by
    rw [newSize, oldSize, hc.start]
    simp only [wadd, wsub, heapStart, heapMaxSize, heapIndexSize] at *
    omega
  have hsum : c.state.heap.endAddr + totalBlockSize c.size < 2 ^ 32 := by
    rw [hlength] at hcheck
    simp only [wadd, heapStart, heapMaxSize] at *
    omega
  refine ⟨hsum, ?_⟩
  rw [wadd_eq hsum] at hlength
  rw [newEnd, alignUp_eq_mod hnew, ← hlength, hc.start]
  simp only [wadd, pageSize, heapStart, heapIndexSize]
  omega

/-- **A call for a page table ends** when it never makes a stuck call: it needs no page table
itself, and the end of the heap moves by two pages until there is a hole or the heap is as long as
it may be. -/
theorem finishes_table (hc : InKernel c.state) (hsize : c.size = pageTableSize)
    (halign : c.align = true)
    (h : c.Unstuck) : c.Finishes := by
  obtain ⟨left, hleft⟩ : ∃ left, left = heapStart + heapMaxSize - c.state.heap.endAddr := ⟨_, rfl⟩
  induction left using Nat.strong_induction_on generalizing c with
  | _ left ih =>
    refine finishes_of_next hc (fun n s hgrows hn hadds hnone => ?_)
      fun k' hgrows hnext hk' hend => ?_
    · -- All new pages have a page table.
      have htables : ∀ i < c.newPages, (c.state.kernelDir.tables (c.tableIndex i)).isSome := by
        intro i hi
        by_contra hmissing
        exact h c .refl ⟨hsize, halign, hgrows, i, hi, Option.not_isSome_iff_eq_none.mp hmissing⟩
      obtain ⟨depth, hloop⟩ := hadds
      obtain ⟨t, hloop', hkeeps⟩ := exists_expandPages hc.numFrames
        (fun i hi => htables i (hi.trans hn)) (alloc depth)
      obtain rfl := Except.ok.inj (hloop'.symm.trans hloop)
      have hsome := htables n hn
      rw [← hkeeps.tables, hnone] at hsome
      cases hsome
    · obtain ⟨-, hnew⟩ := newEnd_eq hc hgrows
      have htotal : totalBlockSize c.size = 4116 := by
        rw [hsize]
        decide
      have hle := hc.end_le
      have hpages := hc.pages
      have hle' := hk'.end_le
      rw [htotal] at hnew
      have hless : heapStart + heapMaxSize - k'.heap.endAddr < left := by
        simp only [pageSize, heapStart, heapMaxSize] at *
        omega
      exact ih _ hless hk' hsize halign (h.next hnext) rfl

/-- The whole pages for the block. -/
def blockPages (c : Call) : ℕ := (totalBlockSize c.size + (pageSize - 1)) / pageSize * pageSize

/-- A call that never makes a stuck call ends when the call that it makes again does. -/
theorem finishes_of_unstuck (hc : InKernel c.state) (h : c.Unstuck)
    (hagain : ∀ k', c.Grows → Unstuck ⟨k', c.size, c.align⟩ → InKernel k' →
      k'.heap.endAddr = c.newEnd → Finishes ⟨k', c.size, c.align⟩) : c.Finishes :=
  finishes_of_next hc
    (fun _ _ hgrows hn hadds hnone => finishes_table (Next.inKernel hc
      (.table hgrows hn hadds hnone))
      rfl rfl (h.next (.table hgrows hn hadds hnone)))
    fun k' hgrows hnext hk' hend => hagain k' hgrows (h.next hnext) hk' hend

/-- **A call from a heap that has come around the end of memory** ends after at most five growths:
the ends are the multiples of the length of the block. -/
theorem finishes_low {i j : ℕ} (hc : InKernel c.state) (h : c.Unstuck) (hij : i + j = 5)
    (hend : c.state.heap.endAddr = j * c.blockPages)
    (hlow : 2 ^ 32 - (heapStart + heapMaxSize) ≤ c.blockPages)
    (hhigh : c.blockPages ≤ 2 ^ 32 - (heapStart + 4 * heapIndexSize)) : c.Finishes := by
  induction i generalizing j c with
  | zero =>
    have hle := hc.end_le
    obtain rfl : j = 5 := by omega
    simp only [heapStart, heapMaxSize] at *
    omega
  | succ i ih =>
    refine finishes_of_unstuck hc h fun k' hgrows hunstuck hk' hend' => ?_
    obtain ⟨hwrap, hnew⟩ := newEnd_eq hc hgrows
    have hnext : c.newEnd = (j + 1) * c.blockPages := by
      have hj : j ≤ 4 := by omega
      rw [hnew]
      simp only [blockPages, pageSize, heapStart, heapMaxSize, heapIndexSize] at *
      interval_cases j <;> omega
    exact ih (c := ⟨k', c.size, c.align⟩) hk' hunstuck (by omega) (hend'.trans hnext) hlow hhigh

/-- **A call ends** when it never makes a stuck call. -/
theorem finishes (hc : InKernel c.state) (h : c.Unstuck)
    (hstart : heapStart + 4 * heapIndexSize ≤ c.state.heap.endAddr)
    (hpos : 0 < totalBlockSize c.size) :
    c.Finishes := by
  obtain ⟨left, hleft⟩ : ∃ left, left = heapStart + heapMaxSize - c.state.heap.endAddr := ⟨_, rfl⟩
  induction left using Nat.strong_induction_on generalizing c with
  | _ left ih =>
    refine finishes_of_unstuck hc h fun k' hgrows hunstuck hk' hend => ?_
    obtain ⟨hwrap, hnew⟩ := newEnd_eq hc hgrows
    have hle := hc.end_le
    have hpages := hc.pages
    by_cases hzero : c.newEnd = 0
    · -- The new end comes around the end of memory.
      have hblock : c.state.heap.endAddr + c.blockPages = 2 ^ 32 := by
        rw [hzero] at hnew
        simp only [blockPages, pageSize, heapStart, heapMaxSize] at *
        omega
      exact finishes_low (c := ⟨k', c.size, c.align⟩) (i := 5) (j := 0) hk' hunstuck rfl
        (by rw [Nat.zero_mul]; exact hend.trans hzero)
        (show 2 ^ 32 - (heapStart + heapMaxSize) ≤ c.blockPages by omega)
        (show c.blockPages ≤ 2 ^ 32 - (heapStart + 4 * heapIndexSize) by omega)
    · have hgreater : c.state.heap.endAddr < c.newEnd := by
        simp only [pageSize, heapStart, heapMaxSize] at *
        omega
      have hle' := hk'.end_le
      have hless : heapStart + heapMaxSize - k'.heap.endAddr < left := by omega
      exact ih _ hless (c := ⟨k', c.size, c.align⟩) hk' hunstuck
        (show heapStart + 4 * heapIndexSize ≤ k'.heap.endAddr by omega) hpos rfl

end Call

theorem WellFormed.inKernel {blocks : List Block} (hw : WellFormed k.mem k.heap blocks)
    (hkheap : k.kheap = true) (hmax : k.heap.maxAddr = heapStart + heapMaxSize)
    (hnum : k.numFrames < 2 ^ 32) : InKernel k := by
  refine ⟨hkheap, hw.layout.start, hmax, ?_, hw.layout.end_le, hnum⟩
  have hpages := hw.inv.bounds.pages
  have hstart := hw.layout.start
  have hle := hw.inv.tiles.le
  have hbase : (heapStart + 4 * heapIndexSize) % pageSize = 0 := by decide
  simp only [pageSize] at *
  omega

/-- **Which calls of `alloc` end.** In a well-formed heap of this kernel a call returns or stops at
a failed check after finitely many nested calls exactly when none of the calls that it makes is
stuck. -/
theorem call_finishes_iff {blocks : List Block} (hw : WellFormed k.mem k.heap blocks)
    (hkheap : k.kheap = true) (hmax : k.heap.maxAddr = heapStart + heapMaxSize)
    (hnum : k.numFrames < 2 ^ 32) (hsize : size + minBlock < 2 ^ 32) (align : Bool) :
    Call.Finishes ⟨k, size, align⟩ ↔
      ∀ c, Relation.ReflTransGen Call.Next ⟨k, size, align⟩ c → ¬c.Stuck := by
  have hk := hw.inKernel hkheap hmax hnum
  refine ⟨fun hfinishes c hreach => ?_, fun h => ?_⟩
  · have hboth : InKernel c.state ∧ c.Finishes := by
      induction hreach with
      | refl => exact ⟨hk, hfinishes⟩
      | tail _ hnext ih => exact ⟨hnext.inKernel ih.1, hnext.finishes ih.1.kheap ih.2⟩
    exact fun hstuck => hstuck.not_finishes hboth.1.kheap hboth.1.numFrames hboth.2
  · have htotal : totalBlockSize size = size + minBlock := total_eq hsize
    have hmin : 0 < minBlock := by decide
    have hstart := hw.layout.start
    have hle := hw.inv.tiles.le
    exact Call.finishes (c := ⟨k, size, align⟩) hk h
      (show heapStart + 4 * heapIndexSize ≤ k.heap.endAddr by omega)
      (show 0 < totalBlockSize size by omega)

/-- A block of 100 bytes from the first heap. -/
theorem call_finishes_first_heap : ∃ k, WellFormed k.mem k.heap [firstHole] ∧
    Call.Finishes ⟨k, 100, false⟩ := by
  have hrun : returns (sampleRun []) (fun k => decide (LaidOut k.mem k.heap [firstHole]) &&
      (decide (findSmallestHole k.mem k.heap (totalBlockSize 100) false = some 0) &&
        decide (k.kheap = true ∧ k.heap.maxAddr = heapStart + heapMaxSize ∧
          k.numFrames < 2 ^ 32))) =
      true := by
    decide +kernel
  obtain ⟨k, hk, hrun⟩ := exists_of_returns hrun
  simp only [Bool.and_eq_true, decide_eq_true_eq] at hrun
  obtain ⟨hlaid, hfind, hkheap, hmax, hnum⟩ := hrun
  have hw := (reached_of_sampleRun hk).wellFormed hlaid
  refine ⟨k, hw, (call_finishes_iff hw hkheap hmax hnum (by decide) false).mpr fun c hreach => ?_⟩
  obtain rfl | ⟨c', hnext, -⟩ := hreach.cases_head
  · exact fun hstuck => absurd (show 100 = pageTableSize from hstuck.1) (by decide)
  · -- The call finds a hole, so it makes no other call.
    have hnone : Call.find ⟨k, 100, false⟩ ≠ none := by
      rw [Call.find, hfind]
      exact Option.some_ne_none _
    cases hnext with
    | table hgrows => exact absurd hgrows.1 hnone
    | again hfind' => exact absurd hfind' hnone

/-- A block that takes the heap up to the end of what one page table maps. -/
def fullBlock : Block := ⟨firstHole.addr, 0x380000, false⟩

/-- The memory of a heap that is one block. -/
def fullMem : Memory := makeBlock (fun _ => 0) fullBlock.addr fullBlock.size

/-- A kernel whose heap is one block in use, with a page table for each address below the end of the
heap. -/
def fullKernel : Kernel where
  mem := fullMem
  placementAddr := 0x200000
  frames := fun _ => 0
  numFrames := 0x4000
  kernelDir := ⟨0, fun i => if i ≤ 768 then some ⟨0, fun _ => .zero⟩ else none, fun _ => 0⟩
  kheap := true
  heap :=
    ⟨⟨heapStart, 0, heapIndexSize, some headerComparer⟩, fullBlock.addr, fullBlock.end_,
      heapStart + heapMaxSize, false, false⟩
  heapAddr := 0

theorem fullMem_spec : HeaderAt fullMem fullBlock ∧ FooterAt fullMem fullBlock ∧
    ∀ x, heapStart ≤ x → x < fullBlock.addr → fullMem x = 0 := by
  obtain ⟨hheader, hsame⟩ := makeBlock_spec fullKernel.heap (fun _ => 0) (a := fullBlock.addr)
    (n := fullBlock.size) (by decide) (by decide)
  refine ⟨hheader, makeBlock_footerAt (fun _ => 0) (by decide) (by decide), fun x hx hx' => ?_⟩
  have hend : fullBlock.addr ≤ fullKernel.heap.endAddr := by decide
  exact hsame x hx (hx'.trans_le hend) (Or.inl hx')

theorem fullKernel_wellFormed : WellFormed fullKernel.mem fullKernel.heap [fullBlock] := by
  obtain ⟨hheader, hfooter, hbelow⟩ := fullMem_spec
  have haddr : fullBlock.addr = heapStart + 4 * heapIndexSize := rfl
  have hmem : fullKernel.mem = fullMem := by rw [fullKernel]
  have hindex : fullKernel.heap.index = ⟨heapStart, 0, heapIndexSize, some headerComparer⟩ := rfl
  have hzero : ∀ j < heapIndexSize, slot fullMem fullKernel.heap.index j = 0 := by
    intro j hj
    refine load32_eq_zero fun i hi => hbelow _ ?_ ?_
    · rw [hindex]
      simp only
      omega
    · rw [hindex]
      simp only
      omega
  rw [hmem]
  constructor
  case inv =>
    refine ⟨⟨by decide, by decide, by decide, by decide, by decide⟩,
      ⟨by rw [hindex]; rfl, Nat.zero_le _, fun j _ hlt => hzero j hlt, List.Perm.refl _⟩,
      ⟨rfl, by decide, rfl⟩, fun B hB => ?_⟩
    rw [List.mem_singleton.mp hB]
    exact hheader
  case layout => exact ⟨by rw [hindex], by rw [hindex], by rw [hindex], haddr, by decide⟩
  case footers =>
    intro B hB _
    rw [List.mem_singleton.mp hB]
    exact hfooter

theorem fullKernel_find (align : Bool) (size : ℕ) : Call.find ⟨fullKernel, size, align⟩ = none := by
  have hempty : fullKernel.heap.index.size = 0 := rfl
  rw [Call.find, findSmallestHole, hempty]
  rfl

/-- **A heap without a hole that ends where a page table ends** needs a page table to grow, and for
the page table it needs to grow. -/
theorem alloc_at_table_end : ∃ k blocks size, WellFormed k.mem k.heap blocks ∧ k.kheap = true ∧
    k.heap.maxAddr = heapStart + heapMaxSize ∧ k.numFrames < 2 ^ 32 ∧ size + minBlock < 2 ^ 32 ∧
    ¬Call.Finishes ⟨k, size, false⟩ := by
  refine ⟨fullKernel, [fullBlock], 100, fullKernel_wellFormed, rfl, rfl, by decide, by decide, ?_⟩
  have hstuck : Call.Stuck ⟨fullKernel, pageTableSize, true⟩ := by
    refine ⟨rfl, rfl, ⟨fullKernel_find _ _, ?_, ?_⟩, 0, ?_, ?_⟩ <;> decide +kernel
  have hnext : Call.Next ⟨fullKernel, 100, false⟩ ⟨fullKernel, pageTableSize, true⟩ := by
    refine .table (n := 0) ⟨fullKernel_find _ _, ?_, ?_⟩ ?_ ⟨0, rfl⟩ ?_ <;> decide +kernel
  exact fun hfinishes => hstuck.not_finishes rfl (by decide) (hnext.finishes rfl hfinishes)

end Studix.Mem
