import Studix.Base.Word
import Studix.Mem.Frame
import Studix.Misc.OrderedArray

/-!
# Pages and the placement allocator

The state of the memory subsystem, with `get_page` of `src/mem/page.c` and the functions of
`src/mem/kmalloc.c`. The kernel's page directory, its page tables and the frame bitmap are kept as
values beside the flat virtual memory, each with the address at which the code places it.

`kmalloc` takes memory from the heap once there is one, and the heap calls `get_page`, which calls
`kmalloc`, when it grows. The functions here take the heap's `alloc` as a parameter.

## Main definitions

* `aligned`, `alignUp`.
* `Heap`, `PageDir`, `Kernel`: the state.
* `kmallocAux`, `getPage`, `allocFrameAt`, `freeFrameAt`.

## Main results

* `alignUp_eq`: the next multiple of the page size.
* `kmallocAux_placement`: an allocation before there is a heap.
* `getPage_of_table`, `getPage_new_table`: what `get_page` does.
-/

namespace Studix.Mem

/-! ### Alignment -/

/-- `aligned`. -/
def aligned (ptr : ℕ) : Bool := ptr &&& 0xFFF == 0

/-- `align_up`. -/
def alignUp (ptr : ℕ) : ℕ :=
  if aligned ptr then ptr else wadd (ptr - ptr % pageSize) pageSize

theorem aligned_iff {ptr : ℕ} : aligned ptr = true ↔ ptr % pageSize = 0 := by
  rw [aligned, show (0xFFF : ℕ) = 2 ^ 12 - 1 by decide, Nat.and_two_pow_sub_one_eq_mod,
    beq_iff_eq, pageSize]

/-- `align_up` is the least multiple of the page size that is not below, unless it wraps. -/
theorem alignUp_eq {ptr : ℕ} (h : ptr + pageSize ≤ 2 ^ 32) :
    alignUp ptr = (ptr + (pageSize - 1)) / pageSize * pageSize := by
  rw [alignUp]
  split_ifs with ha
  · have := aligned_iff.mp ha
    simp only [pageSize] at *
    omega
  · have hne : ¬ptr % pageSize = 0 := fun h => ha (aligned_iff.mpr h)
    simp only [pageSize] at *
    rw [wadd_eq (by omega)]
    omega

theorem alignUp_bounds {ptr : ℕ} (h : ptr + pageSize ≤ 2 ^ 32) :
    ptr ≤ alignUp ptr ∧ alignUp ptr < ptr + pageSize ∧ alignUp ptr % pageSize = 0 := by
  rw [alignUp_eq h]
  simp only [pageSize]
  omega

/-! ### The state -/

/-- `Heap`. -/
structure Heap where
  /-- Index of the holes' headers. -/
  index : OrderedArray
  startAddr : ℕ
  endAddr : ℕ
  maxAddr : ℕ
  supervisor : Bool
  readonly : Bool

/-- `Page_table`, with its address. -/
structure PageTable where
  addr : ℕ
  pages : ℕ → PageEntry

/-- `Page_dir`, with its address. -/
structure PageDir where
  addr : ℕ
  tables : ℕ → Option PageTable
  tablesPhysical : ℕ → ℕ

/-- The state of the memory subsystem: virtual memory and the static variables. -/
structure Kernel where
  mem : Memory
  placementAddr : ℕ
  frames : Frames
  numFrames : ℕ
  kernelDir : PageDir
  /-- Whether `kheap` has been set. -/
  kheap : Bool
  /-- The heap behind `kheap`, and its address. -/
  heap : Heap
  heapAddr : ℕ

/-- What a call `alloc(kheap, size, align)` does. -/
abbrev Alloc := Kernel → ℕ → Bool → Except Stop (ℕ × Kernel)

/-- The position of an entry: the table's index in the directory and the entry's in the table. -/
abbrev PageRef := ℕ × ℕ

/-- The position of the entry of an address. -/
def pageRef (addr : ℕ) : PageRef := (addr / pageSize / 1024, addr / pageSize % 1024)

/-- The entry at a position, if there is a table. -/
def Kernel.entry (k : Kernel) (ref : PageRef) : Option PageEntry :=
  (k.kernelDir.tables ref.1).map fun t => t.pages ref.2

/-- Replace the entry at a position. -/
def PageDir.setEntry (dir : PageDir) (ref : PageRef) (page : PageEntry) : PageDir :=
  { dir with
    tables := Function.update dir.tables ref.1
      ((dir.tables ref.1).map fun t => { t with pages := Function.update t.pages ref.2 page }) }

/-- A new table, with the entry for the processor: present, writeable, user. -/
def PageDir.addTable (dir : PageDir) (index table physAddr : ℕ) : PageDir :=
  { dir with
    tables := Function.update dir.tables index (some ⟨table, fun _ => .zero⟩)
    tablesPhysical := Function.update dir.tablesPhysical index (physAddr ||| 7) }

/-! ### `kmalloc` and `get_page` -/

/-- The address that the placement allocator returns next. -/
def Kernel.nextPlacement (k : Kernel) (align : Bool) : ℕ :=
  if align then alignUp k.placementAddr else k.placementAddr

/-- `kmalloc_aux`: the address, the physical address where it is asked for, and the state. -/
def kmallocAux (alloc : Alloc) (k : Kernel) (size : ℕ) (align phys : Bool) :
    Except Stop (ℕ × ℕ × Kernel) :=
  if k.kheap then do
    let (addr, k) ← alloc k size align
    if phys then
      match k.entry (pageRef addr) with
      | none => .error .nullPointer
      | some page => .ok (addr, wadd (page.frame.toNat * pageSize) (addr &&& 0xFFF), k)
    else .ok (addr, 0, k)
  else
    let placementAddr := k.nextPlacement align
    .ok (placementAddr, if phys then placementAddr else 0,
      { k with placementAddr := wadd placementAddr size })

/-- `kmalloc`. -/
def kmalloc (alloc : Alloc) (k : Kernel) (size : ℕ) : Except Stop (ℕ × Kernel) := do
  let (addr, _, k) ← kmallocAux alloc k size false false
  .ok (addr, k)

/-- `kmalloc_a`. -/
def kmallocA (alloc : Alloc) (k : Kernel) (size : ℕ) : Except Stop (ℕ × Kernel) := do
  let (addr, _, k) ← kmallocAux alloc k size true false
  .ok (addr, k)

/-- `kmalloc_p`. -/
def kmallocP (alloc : Alloc) (k : Kernel) (size : ℕ) : Except Stop (ℕ × ℕ × Kernel) :=
  kmallocAux alloc k size false true

/-- `kmalloc_ap`. -/
def kmallocAp (alloc : Alloc) (k : Kernel) (size : ℕ) : Except Stop (ℕ × ℕ × Kernel) :=
  kmallocAux alloc k size true true

/-- `sizeof(Page_table)`. -/
def pageTableSize : ℕ := 4096

/-- `get_page` on the kernel's directory: the position of the entry, or `none` for `NULL`. -/
def getPage (alloc : Alloc) (k : Kernel) (addr : ℕ) (makeTable : Bool) :
    Except Stop (Option PageRef × Kernel) :=
  let ref := pageRef addr
  if (k.kernelDir.tables ref.1).isSome then .ok (some ref, k)
  else if makeTable then do
    let (table, physAddr, k) ← kmallocAp alloc k pageTableSize
    .ok (some ref, { k with
      mem := memset k.mem table 0 pageSize
      kernelDir := k.kernelDir.addTable ref.1 table physAddr })
  else .ok (none, k)

/-- `alloc_frame` on the entry at a position. -/
def allocFrameAt (k : Kernel) (ref : Option PageRef) (kernel writeable : Bool) :
    Except Stop Kernel :=
  match ref with
  | none => .error .nullPointer
  | some ref =>
    match k.entry ref with
    | none => .error .nullPointer
    | some page => do
      let (frames, page) ← allocFrame k.numFrames k.frames page kernel writeable
      .ok { k with frames, kernelDir := k.kernelDir.setEntry ref page }

/-- `free_frame` on the entry at a position. -/
def freeFrameAt (k : Kernel) (ref : Option PageRef) : Except Stop Kernel :=
  match ref with
  | none => .error .nullPointer
  | some ref =>
    match k.entry ref with
    | none => .error .nullPointer
    | some page =>
      let (frames, page) := freeFrame k.frames page
      .ok { k with frames, kernelDir := k.kernelDir.setEntry ref page }

/-! ### What they do -/

section

variable {alloc : Alloc} {k : Kernel} {addr size : ℕ}

/-- What an `alloc_frame` that returns has done. -/
theorem allocFrameAt_cases {k' : Kernel} {ref : Option PageRef} {kernel writeable : Bool}
    (h : allocFrameAt k ref kernel writeable = .ok k') :
    ∃ r page frames page', ref = some r ∧ k.entry r = some page ∧
      allocFrame k.numFrames k.frames page kernel writeable = .ok (frames, page') ∧
      k' = { k with frames, kernelDir := k.kernelDir.setEntry r page' } := by
  cases ref with
  | none => cases h
  | some r =>
    simp only [allocFrameAt] at h
    split at h
    · cases h
    next page hentry =>
      obtain ⟨⟨frames, page'⟩, hframe, h⟩ := except_bind_eq_ok.mp h
      exact ⟨r, page, frames, page', rfl, hentry, hframe, (Except.ok.inj h).symm⟩

/-- What a `free_frame` that returns has done. -/
theorem freeFrameAt_cases {k' : Kernel} {ref : Option PageRef} (h : freeFrameAt k ref = .ok k') :
    ∃ r page, ref = some r ∧ k.entry r = some page ∧
      k' = { k with
        frames := (freeFrame k.frames page).1
        kernelDir := k.kernelDir.setEntry r (freeFrame k.frames page).2 } := by
  cases ref with
  | none => cases h
  | some r =>
    simp only [freeFrameAt] at h
    split at h
    · cases h
    next page hentry => exact ⟨r, page, rfl, hentry, (Except.ok.inj h).symm⟩

/-- An allocation before there is a heap. -/
theorem kmallocAux_placement (hheap : k.kheap = false) (align phys : Bool) :
    kmallocAux alloc k size align phys =
      .ok (k.nextPlacement align, if phys then k.nextPlacement align else 0,
        { k with placementAddr := wadd (k.nextPlacement align) size }) := by
  simp only [kmallocAux, hheap, Bool.false_eq_true, if_false]

theorem kmalloc_placement (alloc : Alloc) (size : ℕ) (hheap : k.kheap = false) :
    kmalloc alloc k size =
      .ok (k.placementAddr, { k with placementAddr := wadd k.placementAddr size }) := by
  rw [kmalloc, kmallocAux_placement hheap]
  rfl

theorem kmallocA_placement (alloc : Alloc) (size : ℕ) (hheap : k.kheap = false) :
    kmallocA alloc k size = .ok (alignUp k.placementAddr,
      { k with placementAddr := wadd (alignUp k.placementAddr) size }) := by
  rw [kmallocA, kmallocAux_placement hheap]
  rfl

theorem getPage_of_table (h : (k.kernelDir.tables (pageRef addr).1).isSome) (makeTable : Bool) :
    getPage alloc k addr makeTable = .ok (some (pageRef addr), k) := by
  simp only [getPage, h, if_true]

/-- A new table before there is a heap. -/
theorem getPage_new_table (alloc : Alloc) (addr : ℕ) (hheap : k.kheap = false)
    (hnone : k.kernelDir.tables (pageRef addr).1 = none) :
    getPage alloc k addr true = .ok (some (pageRef addr), { k with
      placementAddr := wadd (k.nextPlacement true) pageTableSize
      mem := memset k.mem (k.nextPlacement true) 0 pageSize
      kernelDir := k.kernelDir.addTable (pageRef addr).1 (k.nextPlacement true)
        (k.nextPlacement true) }) := by
  simp only [getPage, hnone, Option.isSome_none, Bool.false_eq_true, if_false, if_true, kmallocAp,
    kmallocAux_placement hheap, except_ok_bind]

end

end Studix.Mem
