import Studix.Mem.HeapFree
import Studix.Mem.InitPaging

/-!
# Safety of the heap over whole runs

A run starts with the heap that `init_paging` creates and takes steps: allocations, releases of
allocations that are live, and whatever the rest of the kernel does, which writes to live payloads
and outside the heap. When every step meets its condition (`StepOk`), the live payloads stay
disjoint, inside the heap and off the headers and footers.

## Main definitions

* `Session`, `HeapStep`: the runs.
* `IsBlock`, `Safe`: the property.
* `StepOk`: the condition on the steps.

## Main results

* `createHeap_inv`: the first heap has the invariant.
* `SessionInv.step`: a step keeps it.
* `heapSafety_of_steps_ok`: safety along runs.
-/

namespace Studix.Mem

/-! ### Runs -/

/-- An allocation that has not been freed. -/
structure Live where
  ptr : ℕ
  size : ℕ
  align : Bool
  deriving DecidableEq

/-- The memory subsystem with the live allocations. -/
structure Session where
  kernel : Kernel
  live : List Live

/-- What can happen: an allocation, a release, or something else in the kernel. -/
inductive Action
  | alloc (size : ℕ) (align : Bool)
  | free (ptr : ℕ)
  | other

/-- The bytes of the live payloads. -/
def ClientByte (live : List Live) (x : ℕ) : Prop := ∃ l ∈ live, l.ptr ≤ x ∧ x < l.ptr + l.size

/-- A step of a run. -/
inductive HeapStep : Session → Action → Session → Prop
  | alloc {k k' : Kernel} {live : List Live} {depth size p : ℕ} {align : Bool}
      (h : alloc depth k size align = .ok (p, k')) :
      HeapStep ⟨k, live⟩ (.alloc size align) ⟨k', ⟨p, size, align⟩ :: live⟩
  | free {k k' : Kernel} {live : List Live} {depth : ℕ} {l : Live} (hl : l ∈ live)
      (h : free (Mem.alloc depth) k l.ptr = .ok k') :
      HeapStep ⟨k, live⟩ (.free l.ptr) ⟨k', live.erase l⟩
  | other {k k' : Kernel} {live : List Live} (hheap : k'.heap = k.heap)
    (hkheap : k'.kheap = k.kheap)
      (hmem : ∀ x, k.heap.index.array ≤ x → x < k.heap.endAddr → ¬ClientByte live x →
        k'.mem x = k.mem x) :
      HeapStep ⟨k, live⟩ .other ⟨k', live⟩

/-- The session after `init_paging` has created the heap. -/
def Started (s : Session) : Prop :=
  ∃ (alloc : Alloc) (k₀ k : Kernel) (supervisor readonly : Bool), k₀.kheap = false ∧
    createHeap alloc k₀ heapStart (heapStart + heapInitSize) (heapStart + heapMaxSize) supervisor
      readonly = .ok k ∧ s = ⟨{ k with kheap := true }, []⟩

/-! ### The property -/

/-- The headers found by walking over the blocks from the start of the heap. -/
inductive Walk (m : Memory) (start end_ : ℕ) : ℕ → Prop
  | first (h : start < end_) : Walk m start end_ start
  | next {header : ℕ} (hw : Walk m start end_ header) (h : header + headerSize m header < end_) :
      Walk m start end_ (header + headerSize m header)

/-- A block of the heap: one that the walk finds, one that the index lists, or that of a live
allocation. -/
def IsBlock (s : Session) (header : ℕ) : Prop :=
  Walk s.kernel.mem s.kernel.heap.startAddr s.kernel.heap.endAddr header ∨
    header ≠ 0 ∧ header ∈ elems s.kernel.mem s.kernel.heap.index ∨
    ∃ l ∈ s.live, header + sizeofHeader = l.ptr

/-- The ranges from `a` to `b` and from `c` to `d` do not overlap. -/
def Apart (a b c d : ℕ) : Prop := b ≤ c ∨ d ≤ a

/-- **Heap safety.** -/
structure Safe (s : Session) : Prop where
  disjoint : s.live.Pairwise fun l l' => Apart l.ptr (l.ptr + l.size) l'.ptr (l'.ptr + l'.size)
  inside : ∀ l ∈ s.live, s.kernel.heap.startAddr ≤ l.ptr ∧ l.ptr + l.size ≤ s.kernel.heap.endAddr
  headers : ∀ l ∈ s.live, ∀ h, IsBlock s h → Apart l.ptr (l.ptr + l.size) h (h + sizeofHeader)
  footers : ∀ l ∈ s.live, ∀ h, IsBlock s h → Apart l.ptr (l.ptr + l.size)
    (h + headerSize s.kernel.mem h - sizeofFooter) (h + headerSize s.kernel.mem h)
  aligned : ∀ l ∈ s.live, l.align = true → l.ptr % pageSize = 0

/-! ### The invariant -/

/-- The payload of a live allocation lies in its block. -/
def Live.InBlock (l : Live) (B : Block) : Prop :=
  B.tag = false ∧ l.ptr = B.addr + sizeofHeader ∧ l.size + minBlock ≤ B.size

/-- **The invariant of a session**: the heap has its invariant, and every live allocation has a
block of its own. -/
structure SessionInv (s : Session) (blocks : List Block) : Prop where
  heap : HeapInv s.kernel.mem s.kernel.heap blocks
  kheap : s.kernel.kheap = true
  nodup : (s.live.map Live.ptr).Nodup
  live : ∀ l ∈ s.live, ∃ B ∈ blocks, l.InBlock B
  aligned : ∀ l ∈ s.live, l.align = true → l.ptr % pageSize = 0

variable {s s' : Session} {blocks : List Block} {l l' : Live} {B : Block}

/-- Two live allocations with the same pointer are one. -/
theorem SessionInv.eq_of_ptr (h : SessionInv s blocks) (hl : l ∈ s.live) (hl' : l' ∈ s.live)
    (heq : l.ptr = l'.ptr) : l = l' :=
  List.inj_on_of_nodup_map h.nodup hl hl' heq

/-- A block of the heap is one of the tiles. -/
theorem SessionInv.exists_block (h : SessionInv s blocks) {header : ℕ} (hb : IsBlock s header) :
    ∃ B ∈ blocks, B.addr = header := by
  obtain hwalk | ⟨hne, hlisted⟩ | ⟨l, hl, hptr⟩ := hb
  · -- The walk goes from tile to tile.
    induction hwalk with
    | first hlt =>
      have htiles := h.heap.tiles
      cases blocks with
      | nil => exact absurd htiles hlt.ne
      | cons B blocks => exact ⟨B, List.mem_cons_self, htiles.1⟩
    | @next header _ hlt ih =>
      obtain ⟨B, hB, rfl⟩ := ih
      have hsize := (h.heap.headers B hB).size
      obtain ⟨xs, ys, rfl, -, -, hys⟩ := h.heap.tiles.exists_eq_append hB
      rw [hsize] at hlt ⊢
      cases ys with
      | nil => exact absurd hys hlt.ne
      | cons C ys => exact ⟨C, by simp, hys.1⟩
  · obtain ⟨i, hi, rfl⟩ := mem_elems.mp hlisted
    obtain ⟨B, hB, -, haddr⟩ := h.heap.exists_hole hi hne
    exact ⟨B, hB, haddr⟩
  · obtain ⟨B, hB, -, hB', -⟩ := h.live l hl
    exact ⟨B, hB, by omega⟩

/-- **The invariant implies safety.** -/
theorem SessionInv.safe (h : SessionInv s blocks) : Safe s := by
  -- A live payload keeps away from both tags of every block.
  have htags : ∀ l ∈ s.live, ∀ header, IsBlock s header →
      Apart l.ptr (l.ptr + l.size) header (header + sizeofHeader) ∧
        Apart l.ptr (l.ptr + l.size) (header + headerSize s.kernel.mem header - sizeofFooter)
          (header + headerSize s.kernel.mem header) := by
    intro l hl header hheader
    obtain ⟨B, hB, -, hptr, hsize⟩ := h.live l hl
    obtain ⟨C, hC, rfl⟩ := h.exists_block hheader
    have hCsize := (h.heap.of_mem hC).2.1
    rw [(h.heap.headers C hC).size]
    simp only [Apart, minBlock, sizeofHeader, sizeofFooter] at *
    obtain rfl | hbeside := h.heap.tiles.beside hB hC
    · omega
    · simp only [Tile.end_] at hbeside
      omega
  refine ⟨?_, fun l hl => ?_, fun l hl header hheader => (htags l hl header hheader).1,
    fun l hl header hheader => (htags l hl header hheader).2, h.aligned⟩
  · have hne : s.live.Pairwise fun l l' => l.ptr ≠ l'.ptr := List.pairwise_map.mp h.nodup
    refine hne.imp_of_mem fun {l l'} hl hl' hptr => ?_
    obtain ⟨B, hB, -, hBptr, hsize⟩ := h.live l hl
    obtain ⟨C, hC, -, hCptr, hsize'⟩ := h.live l' hl'
    simp only [Apart, minBlock, sizeofHeader, sizeofFooter] at *
    obtain rfl | hbeside := h.heap.tiles.beside hB hC
    · omega
    · simp only [Tile.end_] at hbeside
      omega
  · obtain ⟨B, hB, -, hptr, hsize⟩ := h.live l hl
    have hbounds := h.heap.of_mem hB
    simp only [minBlock, sizeofHeader, sizeofFooter] at *
    omega

/-- The hole that is the whole first heap. -/
def firstHole : Block :=
  ⟨heapStart + 4 * heapIndexSize, heapInitSize - 4 * heapIndexSize, true⟩

/-- **The first heap**: one hole, which is the only entry of the index. -/
structure FirstHeap (k : Kernel) : Prop where
  inv : HeapInv k.mem k.heap [firstHole]
  comparer : k.heap.index.comparer = some headerComparer
  array : k.heap.index.array = heapStart
  size : k.heap.index.size = 1
  maxSize : k.heap.index.maxSize = heapIndexSize
  slot_zero : slot k.mem k.heap.index 0 = firstHole.addr
  start_eq : k.heap.startAddr = firstHole.addr
  end_eq : k.heap.endAddr = heapStart + heapInitSize

/-- The first heap has the bounds and the one hole of the invariant. -/
theorem firstHeap_inv {m : Memory} {heap : Heap} (harray : heap.index.array = heapStart)
    (hsize : heap.index.size = 1) (hmax : heap.index.maxSize = heapIndexSize)
    (hcomparer : heap.index.comparer.isSome) (hstart : heap.startAddr = firstHole.addr)
    (hend : heap.endAddr = heapStart + heapInitSize)
    (hslot : ∀ i < heapIndexSize, slot m heap.index i = if i = 0 then firstHole.addr else 0)
    (hheader : HeaderAt m firstHole) : HeapInv m heap [firstHole] := by
  have hfirst : slot m heap.index 0 = firstHole.addr := (hslot 0 (by decide)).trans (if_pos rfl)
  refine ⟨⟨?_, ?_, ?_, ?_, ?_⟩, ⟨hcomparer, ?_, fun j hj hlt => ?_, ?_⟩, ?_, fun B hB => ?_⟩
  · rw [harray, hmax, hstart]
    exact le_rfl
  · rw [hstart]
    decide
  · rw [hstart, hend]
    decide
  · rw [hstart, hend]
    decide
  · rw [hend]
    decide
  · rw [hsize, hmax]
    decide
  · rw [hslot j (hmax ▸ hlt), if_neg (by omega)]
  · rw [elems, hsize, List.range_one, List.map_singleton, hfirst]
    decide
  · rw [hstart, hend]
    exact ⟨rfl, by decide, rfl⟩
  · rwa [List.mem_singleton.mp hB]

/-- `create_heap` makes the first heap. -/
theorem createHeap_first {k₀ : Kernel} (alloc : Alloc) (supervisor readonly : Bool)
    (hkheap : k₀.kheap = false) :
    ∃ k, createHeap alloc k₀ heapStart (heapStart + heapInitSize)
      (heapStart + heapMaxSize) supervisor
      readonly = .ok k ∧ FirstHeap k := by
  obtain ⟨mem, hspec, hslot, hmagic, hhole, hsize⟩ := createHeap_spec alloc
    (heapStart + heapMaxSize) supervisor readonly hkheap (show aligned heapStart by decide)
    (show aligned (heapStart + heapInitSize) by decide) (by decide) (by decide)
  refine ⟨_, hspec, firstHeap_inv rfl rfl rfl rfl rfl rfl hslot ⟨hmagic, hhole, hsize⟩,
    rfl, rfl, rfl, rfl, ?_, rfl, rfl⟩
  exact (hslot 0 (by decide)).trans (if_pos rfl)

/-- The index of the first heap has no null entry. -/
theorem FirstHeap.exact {k : Kernel} (h : FirstHeap k) : ExactHeap k.mem k.heap [firstHole] := by
  refine h.inv.exact fun i hi => ?_
  obtain rfl : i = 0 := by
    have hsize := h.size
    omega
  rw [h.slot_zero]
  decide

/-- A session starts with the invariant. -/
theorem started_inv (h : Started s) : ∃ blocks, SessionInv s blocks := by
  obtain ⟨alloc, k₀, k, supervisor, readonly, hkheap, hcreate, rfl⟩ := h
  obtain ⟨k₁, hcreate', hfirst⟩ := createHeap_first alloc supervisor readonly hkheap
  obtain rfl := Except.ok.inj (hcreate'.symm.trans hcreate)
  exact ⟨[firstHole], hfirst.inv, rfl, List.nodup_nil, by simp, by simp⟩

/-! ### Steps -/

/-- The condition on a step. -/
def StepOk (s : Session) : Action → Prop
  | .alloc size align => ∀ depth, AllocOk depth s.kernel size align
  | .free ptr => FreeOk s.kernel (headerFor ptr)
  | .other => True

/-- **A step that meets its condition keeps the invariant.** -/
theorem SessionInv.step {a : Action} (hinv : SessionInv s blocks) (hok : StepOk s a)
    (hstep : HeapStep s a s') : ∃ blocks', SessionInv s' blocks' := by
  cases hstep with
  | alloc h =>
    rename_i k k' live depth size p align
    obtain ⟨hkheap, blocks', hheap, hnew⟩ := alloc_spec hinv.heap hinv.kheap (hok depth) h
    obtain ⟨B, hB, htag, hp, hsize, halign, hne⟩ := hnew.new
    refine ⟨blocks', hheap, hkheap, ?_, fun l hl => ?_, fun l hl => ?_⟩
    · -- The new block starts at no block of a live allocation.
      refine List.nodup_cons.mpr ⟨fun hmem => ?_, hinv.nodup⟩
      obtain ⟨l, hl, hptr⟩ := List.mem_map.mp hmem
      obtain ⟨A, hA, hused, hAptr, -⟩ := hinv.live l hl
      exact hne A hA hused (by simp only at hptr; omega)
    · rcases List.mem_cons.mp hl with rfl | hl
      · exact ⟨B, hB, htag, hp, hsize⟩
      · obtain ⟨A, hA, hin⟩ := hinv.live l hl
        exact ⟨A, hnew.keeps A hA hin.1, hin⟩
    · rcases List.mem_cons.mp hl with rfl | hl
      · exact halign
      · exact hinv.aligned l hl
  | free hl h =>
    rename_i k k' live depth l
    obtain ⟨B, hB, htag, hptr, hsize⟩ := hinv.live l hl
    have hend := (hinv.heap.of_mem hB).2.2
    have hlt := hinv.heap.bounds.end_lt
    have hheader : headerFor l.ptr = B.addr := by
      rw [hptr]
      simp only [minBlock] at hsize
      exact headerFor_eq (by omega)
    rw [StepOk, hheader] at hok
    rw [hptr] at h
    obtain ⟨hkheap, blocks', hheap, hkeeps⟩ := free_spec hinv.heap hB htag hok h
    have hnodup : live.Nodup := hinv.nodup.of_map
    refine ⟨blocks', hheap, hkheap.trans hinv.kheap,
      hinv.nodup.sublist (List.Sublist.map _ List.erase_sublist), fun l' hl' => ?_,
        fun l' hl' => ?_⟩
    · obtain ⟨hne, hmem⟩ := hnodup.mem_erase_iff.mp hl'
      obtain ⟨C, hC, hin⟩ := hinv.live l' hmem
      -- The block of another allocation is another block.
      have hCB : C ≠ B := fun hCB => hne (hinv.eq_of_ptr hmem hl (by rw [hptr, ← hCB, hin.2.1]))
      exact ⟨C, hkeeps C hC hin.1 hCB, hin⟩
    · exact hinv.aligned l' (List.mem_of_mem_erase hl')
  | other hheap hkheap hmem =>
    rename_i k k' live
    refine ⟨blocks, ?_, hkheap.trans hinv.kheap, hinv.nodup, hinv.live, hinv.aligned⟩
    simp only [hheap]
    refine hinv.heap.congr fun x hx hlt hout => hmem x hx hlt ?_
    -- The bytes of live payloads are payloads of blocks in use.
    rintro ⟨l, hl, hle, hltl⟩
    obtain ⟨B, hB, htag, hptr, hsize⟩ := hinv.live l hl
    refine hout B hB htag ?_
    simp only [Payload, Tile.end_, minBlock, sizeofHeader, sizeofFooter] at *
    omega

/-- **Heap safety.** In a run whose steps all meet their conditions, every state reached is safe. -/
theorem heapSafety_of_steps_ok {s₀ : Session} (hstart : Started s₀)
    (hrun : Steps HeapStep StepOk s₀ s) : Safe s := by
  have hinv : ∃ blocks, SessionInv s blocks :=
    Steps.invariant (fun s => ∃ blocks, SessionInv s blocks) (started_inv hstart)
      (fun t a u ⟨blocks, hinv⟩ hok hstep => hinv.step hok hstep) hrun
  obtain ⟨blocks, hinv⟩ := hinv
  exact hinv.safe

/-- The heap of a kernel that starts with zero memory. -/
def sampleHeap : Except Stop Kernel := do
  let k ← createHeap (alloc 0) bootKernel heapStart (heapStart + heapInitSize)
    (heapStart + heapMaxSize) false false
  .ok { k with kheap := true }

/-- Page tables for all of memory. -/
def Kernel.withTables (k : Kernel) : Kernel :=
  { k with kernelDir := ⟨0, fun _ => some ⟨0, fun _ => .zero⟩, fun _ => 0⟩ }

theorem sampleHeap_first : ∃ k, sampleHeap = .ok k ∧ FirstHeap k := by
  obtain ⟨k, hcreate, h⟩ := createHeap_first (alloc 0) false false
    (show bootKernel.kheap = false from rfl)
  exact ⟨{ k with kheap := true }, by rw [sampleHeap, hcreate, except_ok_bind],
    h.inv, h.comparer, h.array, h.size, h.maxSize, h.slot_zero, h.start_eq, h.end_eq⟩

theorem firstHeap_of_sampleHeap {k : Kernel} (h : sampleHeap = .ok k) : FirstHeap k := by
  obtain ⟨k₁, hk₁, hfirst⟩ := sampleHeap_first
  rwa [Except.ok.inj (h.symm.trans hk₁)]

theorem sampleHeap_started {k : Kernel} (h : sampleHeap = .ok k) : Started ⟨k, []⟩ := by
  obtain ⟨k₀, hcreate, hk⟩ := except_bind_eq_ok.mp h
  exact ⟨alloc 0, bootKernel, k₀, false, false, rfl, hcreate, by rw [← Except.ok.inj hk]⟩

/-- A run with two allocations, of which the first is freed. -/
theorem heapSafety_two_allocations : ∃ s₀ s, Started s₀ ∧ Steps HeapStep StepOk s₀ s ∧
    s.live.length = 1 ∧ Safe s := by
  have hrun : returns sampleHeap (fun k =>
      findSmallestHole k.mem k.heap 120 false == some 0 &&
      decide (HoleOk k 120 false (slot k.mem k.heap.index 0)) &&
      returns (alloc 1 k 100 false) fun r =>
        findSmallestHole r.2.mem r.2.heap 220 false == some 2 &&
        decide (HoleOk r.2 220 false (slot r.2.mem r.2.heap.index 2)) &&
        returns (alloc 1 r.2 200 false) fun r' =>
          decide (FreeOk r'.2 (headerFor r.1)) &&
          returns (free (alloc 0) r'.2 r.1) fun _ => true) = true := by
    decide +kernel
  obtain ⟨k, hk, hrun⟩ := exists_of_returns hrun
  simp only [Bool.and_eq_true, beq_iff_eq, decide_eq_true_eq] at hrun
  obtain ⟨⟨hfind, hhole⟩, hrun⟩ := hrun
  obtain ⟨⟨p, k₁⟩, halloc, hrun⟩ := exists_of_returns hrun
  simp only [Bool.and_eq_true, beq_iff_eq, decide_eq_true_eq] at hrun
  obtain ⟨⟨hfind₁, hhole₁⟩, hrun⟩ := hrun
  obtain ⟨⟨q, k₂⟩, halloc₁, hrun⟩ := exists_of_returns hrun
  simp only [Bool.and_eq_true, decide_eq_true_eq] at hrun
  obtain ⟨hok, hrun⟩ := hrun
  obtain ⟨k₃, hfree, -⟩ := exists_of_returns hrun
  have hp : (⟨p, 100, false⟩ : Live) ∈ [⟨q, 200, false⟩, ⟨p, 100, false⟩] := by simp
  have hfreeOk : StepOk ⟨k₂, [⟨q, 200, false⟩, ⟨p, 100, false⟩]⟩ (.free p) := hok
  have hsteps : Steps HeapStep StepOk ⟨k, []⟩
      ⟨k₃, List.erase [⟨q, 200, false⟩, ⟨p, 100, false⟩] ⟨p, 100, false⟩⟩ :=
    ((Steps.refl.tail (.alloc 100 false) (allocOk_of_hole (by decide) hfind hhole)
      (.alloc halloc)).tail (.alloc 200 false) (allocOk_of_hole (by decide) hfind₁ hhole₁)
        (.alloc halloc₁)).tail (.free p) hfreeOk (.free hp hfree)
  have hstart := sampleHeap_started hk
  refine ⟨_, _, hstart, hsteps, ?_, heapSafety_of_steps_ok hstart hsteps⟩
  exact List.length_erase_of_mem hp

/-- **An allocation after the heap has been contracted leaves the heap**: the block that is freed
stays in the index although the heap now ends where it begins. -/
theorem alloc_after_contract_leaves_heap :
    ∃ s₀ s, Started s₀ ∧ Steps HeapStep (fun _ _ => True) s₀ s ∧ ¬Safe s := by
  have hrun : returns (createHeap (alloc 0) bootKernel.withTables heapStart
      (heapStart + heapInitSize)
      (heapStart + heapMaxSize) false false) (fun k =>
        returns (alloc 1 { k with kheap := true } (heapMinSize - minBlock) false) fun r =>
          returns (alloc 1 r.2 100 false) fun r' =>
            returns (free (alloc 0) r'.2 r'.1) fun k₃ =>
              returns (alloc 1 k₃ 100 false) fun r'' => r''.2.heap.endAddr < r''.1 + 100) =
                true := by
    decide +kernel
  obtain ⟨k, hk, hrun⟩ := exists_of_returns hrun
  obtain ⟨⟨p, k₁⟩, halloc₁, hrun⟩ := exists_of_returns hrun
  obtain ⟨⟨q, k₂⟩, halloc₂, hrun⟩ := exists_of_returns hrun
  obtain ⟨k₃, hfree, hrun⟩ := exists_of_returns hrun
  obtain ⟨⟨q', k₄⟩, halloc₃, hrun⟩ := exists_of_returns hrun
  have hq : (⟨q, 100, false⟩ : Live) ∈ [⟨q, 100, false⟩, ⟨p, heapMinSize - minBlock, false⟩] :=
    List.mem_cons_self
  have hsteps : Steps HeapStep (fun _ _ => True) ⟨{ k with kheap := true }, []⟩
      ⟨k₄, ⟨q', 100, false⟩ ::
        List.erase [⟨q, 100, false⟩, ⟨p, heapMinSize - minBlock, false⟩] ⟨q, 100, false⟩⟩ :=
    (((Steps.refl.tail (.alloc (heapMinSize - minBlock) false) trivial (.alloc halloc₁)).tail
      (.alloc 100 false) trivial (.alloc halloc₂)).tail (.free q) trivial (.free hq hfree)).tail
        (.alloc 100 false) trivial (.alloc halloc₃)
  refine ⟨_, _, ⟨alloc 0, bootKernel.withTables, k, false, false, rfl, hk, rfl⟩, hsteps,
    fun hsafe => ?_⟩
  have hinside := (hsafe.inside ⟨q', 100, false⟩ List.mem_cons_self).2
  exact absurd hinside (not_le.mpr (of_decide_eq_true hrun))

end Studix.Mem
