import Studix.Base.Bump
import Studix.Mem.InitPaging

/-!
# Runs of the placement allocator

As long as there is no heap, the four entry points of `src/mem/kmalloc.c` move one pointer,
`placement_addr`, up to the next page where a page-aligned address is asked for and then on by the
size. The sums have 32 bits. While they do not wrap the allocator is a bump allocator.

## Main definitions

* `KmallocFn`, `KmallocCall`, `kmallocCall`, `kmallocAll`: a sequence of calls.
* `KmallocCall.request`: a call as a request to a bump allocator.

## Main results

* `kmallocAll_eq`: while nothing wraps, the calls get what a bump allocator hands out.
* `placement_disjoint`: the memory that a sequence of calls gets.
-/

namespace Studix.Mem

/-- The entry points. -/
inductive KmallocFn
  | kmalloc
  | kmallocA
  | kmallocP
  | kmallocAp
  deriving DecidableEq, Repr

/-- A call of an entry point. -/
structure KmallocCall where
  fn : KmallocFn
  size : ℕ
  deriving DecidableEq, Repr

/-- A call, the address it returned, and the physical address where it reported one. -/
structure Placed where
  call : KmallocCall
  addr : ℕ
  phys : Option ℕ
  deriving DecidableEq, Repr

/-- Whether the entry point returns page-aligned memory. -/
def KmallocFn.pageAligned : KmallocFn → Bool
  | .kmalloc | .kmallocP => false
  | .kmallocA | .kmallocAp => true

/-- Whether the entry point reports the physical address. -/
def KmallocFn.reportsPhys : KmallocFn → Bool
  | .kmalloc | .kmallocA => false
  | .kmallocP | .kmallocAp => true

/-- One call. -/
def kmallocCall (alloc : Alloc) (k : Kernel) (c : KmallocCall) : Except Stop (Placed × Kernel) :=
  match c.fn with
  | .kmalloc => do
    let (addr, k) ← kmalloc alloc k c.size
    .ok (⟨c, addr, none⟩, k)
  | .kmallocA => do
    let (addr, k) ← kmallocA alloc k c.size
    .ok (⟨c, addr, none⟩, k)
  | .kmallocP => do
    let (addr, phys, k) ← kmallocP alloc k c.size
    .ok (⟨c, addr, some phys⟩, k)
  | .kmallocAp => do
    let (addr, phys, k) ← kmallocAp alloc k c.size
    .ok (⟨c, addr, some phys⟩, k)

/-- A sequence of calls. -/
def kmallocAll (alloc : Alloc) : List KmallocCall → Kernel → Except Stop (List Placed × Kernel)
  | [], k => .ok ([], k)
  | c :: cs, k => do
    let (p, k) ← kmallocCall alloc k c
    let (ps, k) ← kmallocAll alloc cs k
    .ok (p :: ps, k)

/-! ### The allocator without wrapping -/

/-- The first multiple of the page size from `n` on. -/
def nextPage (n : ℕ) : ℕ := (n + (pageSize - 1)) / pageSize * pageSize

theorem le_nextPage (n : ℕ) : n ≤ nextPage n := by
  simp only [nextPage, pageSize]
  omega

theorem nextPage_mod (n : ℕ) : nextPage n % pageSize = 0 := Nat.mul_mod_left _ _

/-- `align_up` is the first multiple from its argument on, when that has 32 bits. -/
theorem alignUp_eq_nextPage {n : ℕ} (h : nextPage n < 2 ^ 32) : alignUp n = nextPage n := by
  refine alignUp_eq ?_
  simp only [nextPage, pageSize] at *
  omega

/-- A call as a request: the place it accepts, without wrapping. -/
def KmallocCall.request (c : KmallocCall) : Request where
  fit n := if c.fn.pageAligned then nextPage n else n
  le_fit n := by
    split_ifs
    · exact le_nextPage n
    · exact le_rfl
  size := c.size

/-- What the call gets with the pointer at `n`. -/
def KmallocCall.placed (c : KmallocCall) (n : ℕ) : Placed :=
  ⟨c, c.request.fit n, if c.fn.reportsPhys then some (c.request.fit n) else none⟩

variable {alloc : Alloc} {k : Kernel} {c : KmallocCall} {cs : List KmallocCall}

/-- One call before there is a heap. -/
theorem kmallocCall_placement (alloc : Alloc) (c : KmallocCall) (hheap : k.kheap = false) :
    kmallocCall alloc k c = .ok (⟨c, k.nextPlacement c.fn.pageAligned,
        if c.fn.reportsPhys then some (k.nextPlacement c.fn.pageAligned) else none⟩,
      { k with placementAddr := wadd (k.nextPlacement c.fn.pageAligned) c.size }) := by
  obtain ⟨fn, size⟩ := c
  cases fn with
  | kmalloc =>
    rw [kmallocCall, kmalloc_placement alloc size hheap]
    rfl
  | kmallocA =>
    rw [kmallocCall, kmallocA_placement alloc size hheap]
    rfl
  | kmallocP =>
    rw [kmallocCall, kmallocP, kmallocAux_placement hheap]
    rfl
  | kmallocAp =>
    rw [kmallocCall, kmallocAp, kmallocAux_placement hheap]
    rfl

/-- The place of a call whose range has 32-bit addresses. -/
theorem nextPlacement_eq (hfit : c.request.fit k.placementAddr < 2 ^ 32) :
    k.nextPlacement c.fn.pageAligned = c.request.fit k.placementAddr := by
  simp only [KmallocCall.request, Kernel.nextPlacement] at hfit ⊢
  split_ifs at hfit ⊢
  · exact alignUp_eq_nextPage hfit
  · rfl

/-- **What one call does** while nothing wraps. -/
theorem kmallocCall_eq (alloc : Alloc) (hheap : k.kheap = false)
    (hfit : c.request.fit k.placementAddr + c.size < 2 ^ 32) :
    kmallocCall alloc k c = .ok (c.placed k.placementAddr,
      { k with placementAddr := c.request.fit k.placementAddr + c.size }) := by
  rw [kmallocCall_placement alloc c hheap, nextPlacement_eq (by omega), wadd_eq hfit,
    KmallocCall.placed]

/-- The sequence of what the calls get, from the pointer on. -/
def placedAll : ℕ → List KmallocCall → List Placed
  | _, [] => []
  | n, c :: cs => c.placed n :: placedAll (c.request.fit n + c.size) cs

/-- **While nothing wraps the calls get what a bump allocator hands out.** -/
theorem kmallocAll_eq (alloc : Alloc) (hheap : k.kheap = false)
    (htotal : bumpEnd k.placementAddr (cs.map KmallocCall.request) < 2 ^ 32) :
    kmallocAll alloc cs k = .ok (placedAll k.placementAddr cs,
      { k with placementAddr := bumpEnd k.placementAddr (cs.map KmallocCall.request) }) := by
  induction cs generalizing k with
  | nil => rfl
  | cons c cs ih =>
    have hle := fit_add_size_le_bumpEnd k.placementAddr c.request (cs.map KmallocCall.request)
    rw [List.map_cons] at htotal
    have hcall := kmallocCall_eq alloc hheap (hle.trans_lt htotal)
    have hrest := ih (k := { k with placementAddr := c.request.fit k.placementAddr + c.size }) hheap
      htotal
    rw [kmallocAll, hcall, except_ok_bind]
    simp only [hrest, except_ok_bind]
    rfl

/-- The requests and places of the calls. -/
theorem placedAll_map (n : ℕ) (cs : List KmallocCall) :
    (placedAll n cs).map (fun p => (p.call.request, p.addr)) =
      bumpAddrs n (cs.map KmallocCall.request) := by
  induction cs generalizing n with
  | nil => rfl
  | cons c cs ih => exact congrArg _ (ih (c.request.fit n + c.size))

theorem map_call_placedAll (n : ℕ) (cs : List KmallocCall) :
    (placedAll n cs).map Placed.call = cs := by
  induction cs generalizing n with
  | nil => rfl
  | cons c cs ih => exact congrArg (c :: ·) (ih (c.request.fit n + c.size))

/-- A call gets a place that it accepts, and reports it if it reports one. -/
theorem exists_placed_of_mem {p : Placed} {n : ℕ} (h : p ∈ placedAll n cs) :
    ∃ k, p = p.call.placed k := by
  induction cs generalizing n with
  | nil => cases h
  | cons c cs ih =>
    rcases List.mem_cons.mp h with rfl | hrest
    · exact ⟨n, rfl⟩
    · exact ih hrest

/-- The memory that a call got. -/
def Placed.range (p : Placed) : Set ℕ := Set.Ico p.addr (p.addr + p.call.size)

/-- **The memory that a sequence of calls gets.** While there is no heap, for every value of
`placement_addr` and every sequence of calls for which nothing wraps, the calls get memory in
ascending order, disjoint, and between the first and the last value of `placement_addr`; it is
page-aligned where that is asked for, and the physical address that is reported is the address. -/
theorem placement_disjoint (alloc : Alloc) (cs : List KmallocCall) (hheap : k.kheap = false)
    (htotal : bumpEnd k.placementAddr (cs.map KmallocCall.request) < 2 ^ 32) :
    ∃ ps k', kmallocAll alloc cs k = .ok (ps, k') ∧ ps.map Placed.call = cs ∧
      ps.Pairwise (fun p q => Disjoint p.range q.range) ∧
      ps.Pairwise (fun p q => p.addr + p.call.size ≤ q.addr) ∧
      (∀ p ∈ ps, k.placementAddr ≤ p.addr ∧ p.addr + p.call.size ≤ k'.placementAddr) ∧
      (∀ p ∈ ps, p.call.fn.pageAligned = true → aligned p.addr = true) ∧
      ∀ p ∈ ps, p.phys = if p.call.fn.reportsPhys then some p.addr else none := by
  have hmap := placedAll_map k.placementAddr cs
  have hascending : (placedAll k.placementAddr cs).Pairwise
      fun p q => p.addr + p.call.size ≤ q.addr := by
    have hpairs := bump_pairwise k.placementAddr (cs.map KmallocCall.request)
    rw [← hmap, List.pairwise_map] at hpairs
    exact hpairs
  refine ⟨_, _, kmallocAll_eq alloc hheap htotal, map_call_placedAll _ cs,
    hascending.imp disjoint_Ico_of_le, hascending, fun p hp => ?_, fun p hp haligned => ?_,
    fun p hp => ?_⟩
  · have hmem : (p.call.request, p.addr) ∈ bumpAddrs k.placementAddr (cs.map KmallocCall.request) :=
      hmap ▸ List.mem_map_of_mem hp
    exact bump_bounds hmem
  · obtain ⟨n, hplaced⟩ := exists_placed_of_mem hp
    have haddr : p.addr = nextPage n := by
      rw [hplaced]
      exact if_pos haligned
    rw [haddr, aligned_iff, nextPage_mod]
  · obtain ⟨n, hplaced⟩ := exists_placed_of_mem hp
    rw [hplaced]
    rfl

/-- One call of each entry point. -/
def fourCalls : List KmallocCall :=
  [⟨.kmalloc, 10⟩, ⟨.kmallocA, 4096⟩, ⟨.kmallocP, 20⟩, ⟨.kmallocAp, 0⟩]

/-- The memory that they get from 2 MiB. -/
theorem placement_disjoint_fourCalls : bootKernel.kheap = false ∧
    bumpEnd bootKernel.placementAddr (fourCalls.map KmallocCall.request) < 2 ^ 32 ∧
    ∃ ps k', kmallocAll (fun _ _ _ => .error .unfinished) fourCalls bootKernel = .ok (ps, k') ∧
      ps.map Placed.call = fourCalls ∧
      ps.Pairwise (fun p q => Disjoint p.range q.range) ∧
      ∀ p ∈ ps, bootKernel.placementAddr ≤ p.addr := by
  have htotal : bumpEnd bootKernel.placementAddr (fourCalls.map KmallocCall.request) < 2 ^ 32 := by
    decide
  obtain ⟨ps, k', hrun, hcalls, hdisjoint, -, hbounds, -⟩ :=
    placement_disjoint (fun _ _ _ => .error .unfinished) fourCalls rfl htotal
  exact ⟨rfl, htotal, ps, k', hrun, hcalls, hdisjoint, fun p hp => (hbounds p hp).1⟩

end Studix.Mem
