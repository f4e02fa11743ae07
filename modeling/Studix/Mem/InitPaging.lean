import Studix.Mem.Alloc

/-!
# Setting up paging

Model of `init_paging` of `src/mem/page.c`. The loop that maps the kernel's own memory runs up to
`placement_addr`, which moves while it runs: `get_page` takes a page from the placement allocator
for every new table. First-fit frames make the mapping an identity, since the loop visits the pages
in the order in which `first_frame` hands the frames out.

The bitmap has a word for every 32 frames, and `init_paging` reserves and clears one *byte* for each
word. The words behind the cleared ones hold whatever memory held; below 14 MiB they are not
reached.

## Main definitions

* `initPaging`.
* `translate`: the address translation of the kernel's directory.
* `Layout`: the state while the pages are mapped.

## Main results

* `identityLoop_spec`: the loop with the moving bound.
* `initPaging_identity`: what is mapped when `init_paging` returns.
-/

namespace Studix.Mem

/-! ### The function -/

/-- `sizeof(Page_dir)`. -/
def sizeofPageDir : ℕ := 8196

/-- The body of the loop that makes the heap's tables, for the `n`-th page. -/
def makeHeapTable (alloc : Alloc) (n : ℕ) (k : Kernel) : Except Stop Kernel := do
  let (_, k) ← getPage alloc k (heapStart + pageSize * n) true
  .ok k

/-- The loop that maps the memory below `placement_addr`, and a page more, from address `i` on. -/
def identityLoop (alloc : Alloc) : ℕ → ℕ → Kernel → Except Stop Kernel
  | 0, _, _ => .error .unfinished
  | fuel + 1, i, k =>
    if i < wadd k.placementAddr pageSize then do
      let (page, k) ← getPage alloc k i true
      let k ← allocFrameAt k page false false
      identityLoop alloc fuel (wadd i pageSize) k
    else .ok k

/-- The body of the loop that maps the heap's pages, for the `n`-th page. -/
def mapHeapPage (alloc : Alloc) (n : ℕ) (k : Kernel) : Except Stop Kernel := do
  let (page, k) ← getPage alloc k (heapStart + pageSize * n) true
  allocFrameAt k page false false

/-- The beginning of `init_paging`: the bitmap and the empty directory. `memset` clears
`BIT_INDEX(num_frames)` bytes of the bitmap. -/
def placeDirectory (alloc : Alloc) (k : Kernel) : Except Stop Kernel := do
  let physMemSize := 0x4000000
  let k := { k with numFrames := physMemSize / pageSize }
  let bytes := bitIndex k.numFrames
  let (frames, k) ← kmalloc alloc k bytes
  let k := { k with
    mem := memset k.mem frames 0 bytes
    frames := fun i => if 4 * i < bytes then 0 else k.frames i }
  let (dir, k) ← kmallocA alloc k sizeofPageDir
  .ok { k with
    mem := memset k.mem dir 0 sizeofPageDir
    kernelDir := ⟨dir, fun _ => none, fun _ => 0⟩ }

/-- `init_paging`, without the registration of the page fault handler and the switch to the
directory. -/
def initPaging (alloc : Alloc) (k : Kernel) : Except Stop Kernel := do
  let k ← placeDirectory alloc k
  let k ← forLoopM (makeHeapTable alloc) (heapInitSize / pageSize) k
  let k ← identityLoop alloc (2 ^ 20) 0 k
  let k ← forLoopM (mapHeapPage alloc) (heapInitSize / pageSize) k
  let k ← createHeap alloc k heapStart (heapStart + heapInitSize) (heapStart + heapMaxSize)
    false false
  .ok { k with kheap := true }

/-- The translation of a virtual address: the directory's entry for the processor is present and
points at the table, and the table's entry is present. -/
def translate (dir : PageDir) (va : ℕ) : Option ℕ :=
  match dir.tables (pageRef va).1 with
  | none => none
  | some t =>
    let page := t.pages (pageRef va).2
    if dir.tablesPhysical (pageRef va).1 = t.addr ||| 7 ∧ page.present then
      some (page.frame.toNat * pageSize + va % pageSize)
    else none

/-! ### The layout of the tables -/

/-- The number of frames whose bits lie in the cleared part of the bitmap. -/
def clearedFrames : ℕ := 4096

/-- The entry that `alloc_frame(page, false, false)` makes of a zeroed one. -/
def mappedEntry (n : ℕ) : PageEntry := ⟨true, false, true, false, false, 0#7, .ofNat 20 n⟩

/-- The index of the heap's table. -/
def heapTableIndex : ℕ := 768

/-- A table in the directory, with its entries. -/
structure HasTable (dir : PageDir) (i addr : ℕ) (pages : ℕ → PageEntry) : Prop where
  table : ∃ t, dir.tables i = some t ∧ t.addr = addr ∧ ∀ p < 1024, t.pages p = pages p
  physical : dir.tablesPhysical i = addr ||| 7

/-- The state while pages are mapped: behind the directory at `base` lie the heap's table and `n`
tables for the memory from address 0 on. The first `j` pages are mapped to the frames of the same
numbers, the first `h` pages of the heap to the frames behind them, and these frames are taken. -/
structure Layout (base n j h : ℕ) (k : Kernel) : Prop where
  kheap_eq : k.kheap = false
  numFrames_eq : k.numFrames = 16384
  bits : ∀ f < clearedFrames, frameBit k.frames f = decide (f < j + h)
  placement_eq : k.placementAddr = base + 16384 + 4096 * n
  dir_eq : k.kernelDir.addr = base
  heapTable : HasTable k.kernelDir heapTableIndex (base + 12288)
    fun p => if p < h then mappedEntry (j + p) else .zero
  identity : ∀ i < n, HasTable k.kernelDir i (base + 16384 + 4096 * i)
    fun p => if 1024 * i + p < j then mappedEntry (1024 * i + p) else .zero
  others : ∀ i, n ≤ i → i ≠ heapTableIndex → k.kernelDir.tables i = none

section

variable {alloc : Alloc} {k : Kernel} {base n j h : ℕ}

theorem pageRef_mul (j : ℕ) : pageRef (pageSize * j) = (j / 1024, j % 1024) := by
  rw [pageRef, Nat.mul_div_cancel_left j (by decide)]

/-- With the frames below `n` taken, `alloc_frame` gives frame `n` to a zeroed entry. -/
theorem allocFrame_next {frames : Frames} {n : ℕ}
    (hbits : ∀ f < clearedFrames, frameBit frames f = decide (f < n)) (hn : n < clearedFrames) :
    ∃ frames', allocFrame 16384 frames .zero false false = .ok (frames', mappedEntry n) ∧
      ∀ f < clearedFrames, frameBit frames' f = decide (f < n + 1) := by
  have hscan : clearedFrames ≤ scannedFrames 16384 := by decide
  have hclear : frameBit frames n = false := by
    rw [hbits n hn, decide_eq_false (lt_irrefl n)]
  have hfound : ∃ n < scannedFrames 16384, frameBit frames n = false := ⟨n, by omega, hclear⟩
  obtain ⟨hfree, -, hbefore⟩ := firstFrame_of_clear hfound
  have hfirst : firstFrame 16384 frames = n := by
    rcases lt_trichotomy (firstFrame 16384 frames) n with hlt | heq | hgt
    · rw [hbits _ (by omega), decide_eq_true hlt] at hfree
      exact absurd hfree (by decide)
    · exact heq
    · rw [hbefore n hgt] at hclear
      exact absurd hclear (by decide)
  have hn' : n < 4096 := hn
  have haddr : n * pageSize % 2 ^ 32 / pageSize = n := by
    rw [Nat.mod_eq_of_lt (by simp only [pageSize]; omega), Nat.mul_div_cancel n (by decide)]
  refine ⟨setFrame frames (n * pageSize % 2 ^ 32), ?_, fun f hf => ?_⟩
  · rw [allocFrame, if_neg (by decide), hfirst, if_neg (by omega)]
    rfl
  · rw [frameBit_setFrame, hbits f hf, haddr, ← Bool.decide_or]
    exact decide_eq_decide.mpr (by omega)

/-! ### Tables -/

theorem HasTable.congr {dir : PageDir} {i addr : ℕ} {pages pages' : ℕ → PageEntry}
    (h : HasTable dir i addr pages) (heq : ∀ p < 1024, pages' p = pages p) :
    HasTable dir i addr pages' := by
  obtain ⟨t, ht, haddr, hpages⟩ := h.table
  exact ⟨⟨t, ht, haddr, fun p hp => by rw [heq p hp, hpages p hp]⟩, h.physical⟩

/-- The entry of a table that is in the directory. -/
theorem HasTable.entry {i addr p : ℕ} {pages : ℕ → PageEntry}
    (h : HasTable k.kernelDir i addr pages) (hp : p < 1024) :
    k.entry (i, p) = some (pages p) := by
  obtain ⟨t, ht, -, hpages⟩ := h.table
  simp [Kernel.entry, ht, hpages p hp]

/-- Replacing an entry of a table. -/
theorem HasTable.setEntry {dir : PageDir} {i addr p : ℕ} {pages : ℕ → PageEntry} (page : PageEntry)
    (h : HasTable dir i addr pages) :
    HasTable (dir.setEntry (i, p) page) i addr (Function.update pages p page) := by
  obtain ⟨t, ht, haddr, hpages⟩ := h.table
  refine ⟨⟨{ t with pages := Function.update t.pages p page }, ?_, haddr, fun q hq => ?_⟩,
    h.physical⟩
  · simp [PageDir.setEntry, ht]
  · rcases eq_or_ne q p with rfl | hne
    · simp only [Function.update_self]
    · simp only [Function.update_of_ne hne, hpages q hq]

/-- Replacing an entry of another table. -/
theorem HasTable.setEntry_of_ne {dir : PageDir} {i i' addr p : ℕ} {pages : ℕ → PageEntry}
    (page : PageEntry) (h : HasTable dir i addr pages) (hne : i ≠ i') :
    HasTable (dir.setEntry (i', p) page) i addr pages := by
  obtain ⟨t, ht, haddr, hpages⟩ := h.table
  refine ⟨⟨t, ?_, haddr, hpages⟩, h.physical⟩
  simp [PageDir.setEntry, Function.update_of_ne hne, ht]

/-- A table that `get_page` has just made. -/
theorem hasTable_addTable (dir : PageDir) (i addr : ℕ) :
    HasTable (dir.addTable i addr addr) i addr fun _ => .zero :=
  ⟨⟨⟨addr, fun _ => .zero⟩, Function.update_self .., rfl, fun _ _ => rfl⟩, Function.update_self ..⟩

/-- Other tables stay. -/
theorem HasTable.addTable_of_ne {dir : PageDir} {i i' addr addr' phys : ℕ}
    {pages : ℕ → PageEntry} (h : HasTable dir i addr pages) (hne : i ≠ i') :
    HasTable (dir.addTable i' addr' phys) i addr pages := by
  obtain ⟨t, ht, haddr, hpages⟩ := h.table
  refine ⟨⟨t, ?_, haddr, hpages⟩, ?_⟩
  · simp only [PageDir.addTable, Function.update_of_ne hne, ht]
  · simp only [PageDir.addTable, Function.update_of_ne hne, h.physical]

/-- `alloc_frame` on a zeroed entry takes the next frame. -/
theorem Layout.allocFrameAt (hk : Layout base n j h k) {i addr p : ℕ} {pages : ℕ → PageEntry}
    (htable : HasTable k.kernelDir i addr pages) (hp : p < 1024) (hzero : pages p = .zero)
    (hlt : j + h < clearedFrames) :
    ∃ frames, Mem.allocFrameAt k (some (i, p)) false false =
        .ok { k with frames, kernelDir := k.kernelDir.setEntry (i, p) (mappedEntry (j + h)) } ∧
      ∀ f < clearedFrames, frameBit frames f = decide (f < j + h + 1) := by
  obtain ⟨frames, halloc, hbits⟩ := allocFrame_next hk.bits hlt
  refine ⟨frames, ?_, hbits⟩
  simp only [Mem.allocFrameAt, htable.entry hp, hzero, hk.numFrames_eq, halloc, except_ok_bind]

/-! ### The memory from address 0 on -/

/-- `get_page` for the next page of the memory from address 0 on makes a table every 1024 pages. -/
theorem Layout.getPage_identity (alloc : Alloc) (hk : Layout base n j 0 k)
    (hbase : base % pageSize = 0)
    (hlt : base < 2 ^ 24) (hj : j < clearedFrames) (hn : n = (j + 1023) / 1024) :
    ∃ k', getPage alloc k (pageSize * j) true = .ok (some (j / 1024, j % 1024), k') ∧
      Layout base (j / 1024 + 1) j 0 k' := by
  have hj' : j < 4096 := hj
  have hpage : pageSize = 4096 := rfl
  by_cases hnew : j % 1024 = 0
  · -- The first page of a table: there is none yet.
    have hindex : n = j / 1024 := by omega
    have hnone : k.kernelDir.tables (j / 1024) = none :=
      hk.others _ hindex.le (by simp only [heapTableIndex]; omega)
    have hplace := hk.placement_eq
    have hnext : k.nextPlacement true = base + 16384 + 4096 * (j / 1024) := by
      rw [Kernel.nextPlacement, if_pos rfl, alignUp, if_pos, hplace, hindex]
      rw [hpage] at hbase
      rw [aligned_iff, hplace, hpage]
      omega
    have hget := getPage_new_table alloc (pageSize * j) hk.kheap_eq
      (by rw [pageRef_mul, hnone])
    rw [hnext, pageRef_mul] at hget
    refine ⟨_, hget, hk.kheap_eq, hk.numFrames_eq, hk.bits, ?_, hk.dir_eq, ?_, fun i hi => ?_,
      fun i hi hne => ?_⟩
    · simp only [pageTableSize]
      rw [wadd_eq (by omega)]
      omega
    · exact hk.heapTable.addTable_of_ne (by simp only [heapTableIndex]; omega)
    · rcases Nat.lt_or_eq_of_le (Nat.le_of_lt_succ hi) with hlt' | rfl
      · exact (hk.identity i (by omega)).addTable_of_ne hlt'.ne
      · refine (hasTable_addTable _ _ _).congr fun p _ => ?_
        rw [if_neg (by omega)]
    · simp only [PageDir.addTable, Function.update_of_ne (show i ≠ j / 1024 by omega)]
      exact hk.others i (by omega) hne
  · have hindex : n = j / 1024 + 1 := by omega
    refine ⟨k, ?_, hindex ▸ hk⟩
    obtain ⟨t, ht, -, -⟩ := (hk.identity (j / 1024) (by omega)).table
    rw [getPage_of_table (by rw [pageRef_mul]; simp [ht]), pageRef_mul]

/-- `alloc_frame` maps the next page of the memory from address 0 on to its own frame. -/
theorem Layout.mapIdentity (hk : Layout base n j 0 k) (hj : j < clearedFrames) (hn : j < 1024 * n)
    (hn' : n ≤ heapTableIndex) :
    ∃ k', Mem.allocFrameAt k (some (j / 1024, j % 1024)) false false = .ok k' ∧
      Layout base n (j + 1) 0 k' := by
  have htable := hk.identity (j / 1024) (by omega)
  obtain ⟨frames, halloc, hbits⟩ := hk.allocFrameAt htable (p := j % 1024) (by omega)
    (if_neg (by omega)) hj
  refine ⟨_, halloc, hk.kheap_eq, hk.numFrames_eq, hbits, hk.placement_eq, hk.dir_eq,
    ?_, fun i hi => ?_, fun i hi hne => ?_⟩
  · exact (hk.heapTable.setEntry_of_ne _ (by omega)).congr fun p _ => by simp
  · rcases eq_or_ne i (j / 1024) with rfl | hne
    · refine (htable.setEntry _).congr fun p hp => ?_
      rcases eq_or_ne p (j % 1024) with rfl | hne
      · rw [Function.update_self, if_pos (by omega), Nat.add_zero, Nat.div_add_mod]
      · rw [Function.update_of_ne hne]
        split_ifs <;> first | rfl | omega
    · refine ((hk.identity i hi).setEntry_of_ne _ hne).congr fun p hp => ?_
      split_ifs <;> first | rfl | omega
  · have hother := hk.others i hi hne
    simp only [PageDir.setEntry, Function.update_of_ne (show i ≠ j / 1024 by omega), hother]

/-- **The loop with the moving bound** ends with every page below `placement_addr` mapped, and a
page more. -/
theorem identityLoop_spec (alloc : Alloc) (fuel : ℕ) (hbase : base % pageSize = 0)
    (hlt : base ≤ 14684671)
    (hk : Layout base ((j + 1023) / 1024) j 0 k) (hj : j ≤ 3600) (hfuel : 3601 ≤ fuel + j) :
    ∃ k' n' j', identityLoop alloc fuel (pageSize * j) k = .ok k' ∧ Layout base n' j' 0 k' ∧
      k'.placementAddr + pageSize ≤ pageSize * j' ∧ j' ≤ 3600 ∧ n' ≤ 4 ∧ j' ≤ 1024 * n' := by
  -- Induction on the fuel; the bound moves by a page every 1024 pages, so that it is caught up with
  -- before page 3600.
  induction fuel generalizing j k with
  | zero => omega
  | succ fuel ih =>
    have hplace := hk.placement_eq
    have hpage : pageSize = 4096 := rfl
    have hmul : pageSize * j = 4096 * j := rfl
    have hmul' : pageSize * (j + 1) = 4096 * (j + 1) := rfl
    have hbound : wadd k.placementAddr pageSize = k.placementAddr + pageSize :=
      wadd_eq (by omega)
    rw [identityLoop, hbound]
    by_cases hin : pageSize * j < k.placementAddr + pageSize
    · have hj' : j < clearedFrames := by
        simp only [clearedFrames]
        omega
      obtain ⟨k₁, hget, hk₁⟩ := hk.getPage_identity alloc hbase (by omega) hj' rfl
      obtain ⟨k₂, halloc, hk₂⟩ := hk₁.mapIdentity hj' (by omega)
        (by simp only [heapTableIndex]; omega)
      have hnext : wadd (pageSize * j) pageSize = pageSize * (j + 1) := by
        rw [wadd_eq (by omega)]
        omega
      rw [if_pos hin, hget, except_ok_bind]
      dsimp only
      rw [halloc, except_ok_bind, hnext]
      have htables : j / 1024 + 1 = (j + 1 + 1023) / 1024 := by omega
      exact ih (htables ▸ hk₂) (by omega) (by omega)
    · exact ⟨k, _, j, if_neg hin, hk, by omega, hj, by omega, by omega⟩

/-! ### The heap -/

/-- The loop that maps the heap's pages. -/
theorem Layout.mapHeap (alloc : Alloc) (hk : Layout base n j 0 k) (hn : n ≤ heapTableIndex)
    (hj : j + 256 < clearedFrames) :
    ∃ k', forLoopM (mapHeapPage alloc) 256 k = .ok k' ∧ Layout base n j 256 k' := by
  refine forLoopM_total (fun h k => Layout base n j h k) hk fun h k hh hk => ?_
  obtain ⟨t, ht, -, -⟩ := hk.heapTable.table
  have href : pageRef (heapStart + pageSize * h) = (heapTableIndex, h) := by
    simp only [pageRef, heapStart, pageSize, heapTableIndex, Prod.mk.injEq]
    omega
  have hget : getPage alloc k (heapStart + pageSize * h) true =
      .ok (some (heapTableIndex, h), k) := by
    rw [getPage_of_table (by rw [href]; simp [ht]), href]
  obtain ⟨frames, halloc, hbits⟩ := hk.allocFrameAt hk.heapTable (p := h) (by omega)
    (if_neg (lt_irrefl h)) (by omega)
  refine ⟨_, (except_bind_of_eq_ok _ hget).trans halloc, hk.kheap_eq, hk.numFrames_eq, hbits,
    hk.placement_eq, hk.dir_eq, ?_, fun i hi => ?_, fun i hi hne => ?_⟩
  · refine (hk.heapTable.setEntry _).congr fun p hp => ?_
    rcases eq_or_ne p h with rfl | hne
    · rw [Function.update_self, if_pos (Nat.lt_succ_self p)]
    · rw [Function.update_of_ne hne]
      split_ifs <;> first | rfl | omega
  · exact (hk.identity i hi).setEntry_of_ne _ (by omega)
  · simp only [PageDir.setEntry, Function.update_of_ne hne, hk.others i hi hne]

/-- The directory lies at the next page behind the bitmap. -/
theorem placeDirectory_spec (alloc : Alloc) (hheap : k.kheap = false)
    (hplace : k.placementAddr ≤ 14 * 2 ^ 20) :
    ∃ k' base, placeDirectory alloc k = .ok k' ∧ base % pageSize = 0 ∧ base ≤ 14684671 ∧
      k'.kheap = false ∧ k'.numFrames = 16384 ∧
      (∀ f < clearedFrames, frameBit k'.frames f = false) ∧
      k'.placementAddr = base + sizeofPageDir ∧
      k'.kernelDir = ⟨base, fun _ => none, fun _ => 0⟩ := by
  have hpage : pageSize = 4096 := rfl
  have hnum : 0x4000000 / pageSize = 16384 := rfl
  have hbytes : bitIndex 16384 = 512 := rfl
  have hnext : wadd k.placementAddr 512 = k.placementAddr + 512 := wadd_eq (by omega)
  have halign := alignUp_eq (show k.placementAddr + 512 + pageSize ≤ 2 ^ 32 by omega)
  have hbase : alignUp (k.placementAddr + 512) ≤ 14684671 := by
    rw [halign, hpage]
    omega
  have hend : wadd (alignUp (k.placementAddr + 512)) sizeofPageDir =
      alignUp (k.placementAddr + 512) + sizeofPageDir :=
    wadd_eq (by simp only [sizeofPageDir]; omega)
  obtain ⟨k', hplaced, hfields⟩ : ∃ k', placeDirectory alloc k = .ok k' ∧ k'.kheap = false ∧
      k'.numFrames = 16384 ∧ (k'.frames = fun i => if 4 * i < 512 then 0 else k.frames i) ∧
      k'.placementAddr = alignUp (k.placementAddr + 512) + sizeofPageDir ∧
      k'.kernelDir = ⟨alignUp (k.placementAddr + 512), fun _ => none, fun _ => 0⟩ := by
    simp only [placeDirectory, hnum, hbytes]
    rw [kmalloc_placement (k := { k with numFrames := 16384 }) alloc 512 hheap, except_ok_bind]
    simp only [hnext]
    rw [kmallocA_placement, except_ok_bind]
    · exact ⟨_, rfl, hheap, rfl, rfl, hend, rfl⟩
    · exact hheap
  obtain ⟨hheap', hnum', hframes, hplace', hdir⟩ := hfields
  refine ⟨k', alignUp (k.placementAddr + 512), hplaced, ?_, hbase, hheap', hnum', fun f hf => ?_,
    hplace', hdir⟩
  · rw [halign, Nat.mul_mod_left]
  · have hword : 4 * bitIndex f < 512 := by
      simp only [clearedFrames, bitIndex] at *
      omega
    simp only [frameBit, hframes, if_pos hword]
    exact BitVec.getLsbD_zero

/-- The loop that makes the heap's table, behind the empty directory. -/
theorem layout_makeHeapTable (alloc : Alloc) (hbase : base % pageSize = 0) (hlt : base < 2 ^ 24)
    (hheap : k.kheap = false) (hnum : k.numFrames = 16384)
    (hbits : ∀ f < clearedFrames, frameBit k.frames f = false)
    (hplace : k.placementAddr = base + sizeofPageDir)
    (hdir : k.kernelDir = ⟨base, fun _ => none, fun _ => 0⟩) :
    ∃ k', forLoopM (makeHeapTable alloc) 256 k = .ok k' ∧ Layout base 0 0 0 k' := by
  have hpage : pageSize = 4096 := rfl
  have href : ∀ n < 256, pageRef (heapStart + pageSize * n) = (heapTableIndex, n) := by
    intro n hn
    simp only [pageRef, heapStart, pageSize, heapTableIndex, Prod.mk.injEq]
    omega
  obtain ⟨k', hloop, -, hlayout⟩ : ∃ k', forLoopM (makeHeapTable alloc) 256 k = .ok k' ∧
      (256 = 0 → k' = k) ∧ (0 < 256 → Layout base 0 0 0 k') := by
    refine forLoopM_total (fun n k' => (n = 0 → k' = k) ∧ (0 < n → Layout base 0 0 0 k'))
      ⟨fun _ => rfl, fun hn => absurd hn (lt_irrefl 0)⟩ ?_
    rintro n k' hn ⟨hzero, hpos⟩
    rcases Nat.eq_zero_or_pos n with rfl | hn'
    · -- The first page: the table is made behind the directory, which ends inside a page.
      obtain rfl := hzero rfl
      have hnext : k'.nextPlacement true = base + 12288 := by
        rw [Kernel.nextPlacement, if_pos rfl, alignUp_eq
          (by simp only [hplace, sizeofPageDir]; omega), hplace]
        simp only [sizeofPageDir, hpage] at *
        omega
      have hget := getPage_new_table alloc (heapStart + pageSize * 0) hheap (by rw [hdir])
      rw [hnext, href 0 (by decide)] at hget
      refine ⟨_, except_bind_of_eq_ok _ hget, by omega, fun _ => ⟨hheap, hnum, ?_, ?_, ?_, ?_,
        fun i hi => absurd hi (Nat.not_lt_zero i), fun i _ hne => ?_⟩⟩
      · intro f hf
        rw [hbits f hf, decide_eq_false (by omega)]
      · simp only [pageTableSize]
        rw [wadd_eq (by omega)]
      · simp only [PageDir.addTable, hdir]
      · exact (hasTable_addTable _ _ _).congr fun p _ => by simp
      · simp only [PageDir.addTable, Function.update_of_ne hne, hdir]
    · have hlayout := hpos hn'
      obtain ⟨t, ht, -, -⟩ := hlayout.heapTable.table
      have hget : getPage alloc k' (heapStart + pageSize * n) true =
          .ok (some (heapTableIndex, n), k') := by
        rw [getPage_of_table (by rw [href n hn]; simp [ht]), href n hn]
      exact ⟨k', except_bind_of_eq_ok _ hget, by omega, fun _ => hlayout⟩
  exact ⟨k', hloop, hlayout (by decide)⟩

/-! ### What is mapped -/

theorem toNat_frame_mappedEntry {n : ℕ} (hn : n < clearedFrames) :
    (mappedEntry n).frame.toNat = n := by
  simp only [clearedFrames] at hn
  rw [mappedEntry, BitVec.toNat_ofNat, Nat.mod_eq_of_lt (by omega)]

/-- The translation through a table of the directory. -/
theorem HasTable.translate_eq {dir : PageDir} {va i p addr : ℕ} {pages : ℕ → PageEntry}
    (h : HasTable dir i addr pages) (href : pageRef va = (i, p)) :
    translate dir va = if (pages p).present then
      some ((pages p).frame.toNat * pageSize + va % pageSize) else none := by
  obtain ⟨t, ht, haddr, hpages⟩ := h.table
  have hp : p < 1024 := by
    rw [← (Prod.mk.inj href).2]
    exact Nat.mod_lt _ (by decide)
  simp only [translate, href, ht, h.physical, haddr, hpages p hp, true_and]

/-- The addresses that a layout translates: those of the first `j` pages, to themselves, and those
of the first `h` pages of the heap, to the frames behind them. -/
theorem Layout.translate_eq_some_iff (hk : Layout base n j h k) (hj : j ≤ 1024 * n)
    (hn : n ≤ heapTableIndex) (hh : h ≤ 1024) (hlt : j + h ≤ clearedFrames) {va pa : ℕ} :
    translate k.kernelDir va = some pa ↔
      (va / pageSize < j ∧ pa = va) ∨
      (768 * 1024 ≤ va / pageSize ∧ va / pageSize < 768 * 1024 + h ∧
        pa = (j + (va / pageSize - 768 * 1024)) * pageSize + va % pageSize) := by
  have href : pageRef va = (va / pageSize / 1024, va / pageSize % 1024) := rfl
  have hva : va / pageSize * pageSize + va % pageSize = va := Nat.div_add_mod' va pageSize
  have hheap : heapTableIndex = 768 := rfl
  generalize hpage : va / pageSize = page at *
  rcases Nat.lt_or_ge (page / 1024) n with hin | hout
  · rw [(hk.identity (page / 1024) hin).translate_eq href]
    simp only [Nat.div_add_mod]
    by_cases hlt' : page < j
    · rw [if_pos hlt', toNat_frame_mappedEntry (by omega), hva]
      simp only [mappedEntry, if_true, Option.some.injEq]
      constructor
      · exact fun h => Or.inl ⟨hlt', h.symm⟩
      · rintro (⟨-, h⟩ | ⟨h, -⟩)
        · exact h.symm
        · omega
    · rw [if_neg hlt']
      simp only [PageEntry.zero, Bool.false_eq_true, if_false, reduceCtorEq, false_iff]
      omega
  · by_cases hheap' : page / 1024 = heapTableIndex
    · rw [hk.heapTable.translate_eq (hheap' ▸ href)]
      have hp : page % 1024 = page - 768 * 1024 := by omega
      by_cases hlt' : page % 1024 < h
      · rw [if_pos hlt', toNat_frame_mappedEntry (by omega)]
        simp only [mappedEntry, if_true, Option.some.injEq, hp]
        constructor
        · exact fun h => Or.inr ⟨by omega, by omega, h.symm⟩
        · rintro (⟨h, -⟩ | ⟨-, -, h⟩)
          · omega
          · exact h.symm
      · rw [if_neg hlt']
        simp only [PageEntry.zero, Bool.false_eq_true, if_false, reduceCtorEq, false_iff]
        omega
    · have hnone : translate k.kernelDir va = none := by
        simp only [translate, href, hk.others _ hout hheap']
      rw [hnone]
      simp only [reduceCtorEq, false_iff]
      omega

end

/-- **The mapping at boot.** When `init_paging` is entered with `placement_addr` at most 14 MiB, it
returns; every address below the final `placement_addr` is translated to itself, and the directory,
the tables and the heap structure lie there; every address of the initial heap is mapped; and no two
mapped pages share a frame. -/
theorem initPaging_identity (alloc : Alloc) (k : Kernel) (hheap : k.kheap = false)
    (hplace : k.placementAddr ≤ 14 * 2 ^ 20) :
    ∃ k', initPaging alloc k = .ok k' ∧
      (∀ va < k'.placementAddr, translate k'.kernelDir va = some va) ∧
      k'.kernelDir.addr + sizeofPageDir ≤ k'.placementAddr ∧
      (∀ i t, k'.kernelDir.tables i = some t → t.addr + pageTableSize ≤ k'.placementAddr) ∧
      k'.heapAddr + sizeofHeap ≤ k'.placementAddr ∧
      (∀ va, heapStart ≤ va → va < heapStart + heapInitSize →
        (translate k'.kernelDir va).isSome) ∧
      ∀ va va' pa pa', translate k'.kernelDir va = some pa →
        translate k'.kernelDir va' = some pa' → pa / pageSize = pa' / pageSize →
        va / pageSize = va' / pageSize := by
  have hpage : pageSize = 4096 := rfl
  have hcleared : clearedFrames = 4096 := rfl
  have hheapIndex : heapTableIndex = 768 := rfl
  have hcount : heapInitSize / pageSize = 256 := rfl
  obtain ⟨k₁, base, hdir, hbase, hbase', hheap₁, hnum₁, hbits₁, hplace₁, hdir₁⟩ :=
    placeDirectory_spec alloc hheap hplace
  obtain ⟨k₂, htables, hk₂⟩ :=
    layout_makeHeapTable alloc hbase (by omega) hheap₁ hnum₁ hbits₁ hplace₁ hdir₁
  obtain ⟨k₃, n, j, hloop, hk₃, hcover, hj, hn, hjn⟩ :=
    identityLoop_spec (j := 0) alloc (2 ^ 20) hbase hbase' hk₂ (by omega) (by omega)
  obtain ⟨k₄, hmap, hk₄⟩ := hk₃.mapHeap alloc (by omega) (by omega)
  obtain ⟨mem, hcreate, -⟩ := createHeap_spec (k := k₄) alloc (heapStart + heapMaxSize) false false
    hk₄.kheap_eq (by decide : aligned heapStart) (by decide : aligned (heapStart + heapInitSize))
    (by decide) (by decide)
  have hplace₃ := hk₃.placement_eq
  have hplace₄ : k₄.placementAddr = k₃.placementAddr := by rw [hk₄.placement_eq, hplace₃]
  have hsize : sizeofHeap = 32 := rfl
  have hfinal : wadd k₄.placementAddr sizeofHeap = k₄.placementAddr + sizeofHeap :=
    wadd_eq (by omega)
  have hmul : pageSize * j = 4096 * j := rfl
  have htranslate : ∀ {va pa : ℕ}, translate k₄.kernelDir va = some pa ↔ _ :=
    hk₄.translate_eq_some_iff hjn (by omega) (by decide) (by omega)
  have hrun : initPaging alloc k = .ok { k₄ with
      mem, placementAddr := k₄.placementAddr + sizeofHeap, heapAddr := k₄.placementAddr
      heap := ⟨⟨heapStart, 1, heapIndexSize, some headerComparer⟩, heapStart + 4 * heapIndexSize,
        heapStart + heapInitSize, heapStart + heapMaxSize, false, false⟩
      kheap := true } := by
    rw [Nat.mul_zero] at hloop
    simp only [initPaging, hdir, except_ok_bind, hcount, htables, hloop, hmap, hcreate, hfinal]
  refine ⟨_, hrun, fun va hva => htranslate.mpr (Or.inl ⟨?_, rfl⟩), ?_, fun i t ht => ?_, le_rfl,
    fun va hva hva' => ?_, fun va va' pa pa' hva hva' hpa => ?_⟩
  · simp only [hpage, hsize] at *
    omega
  · simp only [hk₄.dir_eq, hplace₄, hplace₃, sizeofPageDir]
    omega
  · -- A table is the heap's or one of those for the memory from address 0 on.
    simp only [hplace₄, hplace₃, pageTableSize]
    rcases Nat.lt_or_ge i n with hin | hout
    · obtain ⟨t', ht', haddr, -⟩ := (hk₄.identity i hin).table
      obtain rfl : t = t' := Option.some.inj (ht.symm.trans ht')
      omega
    · by_cases hi : i = heapTableIndex
      · subst hi
        obtain ⟨t', ht', haddr, -⟩ := hk₄.heapTable.table
        obtain rfl : t = t' := Option.some.inj (ht.symm.trans ht')
        omega
      · rw [show k₄.kernelDir.tables i = none from hk₄.others i hout hi] at ht
        exact absurd ht (by simp)
  · refine Option.isSome_iff_exists.mpr ⟨_, htranslate.mpr (Or.inr ⟨?_, ?_, rfl⟩)⟩
    · simp only [heapStart, pageSize] at *
      omega
    · simp only [heapStart, heapInitSize, pageSize] at *
      omega
  · have hframe := htranslate.mp hva
    have hframe' := htranslate.mp hva'
    rw [hpage] at *
    omega

/-- A kernel before `init_paging`, with zeroed memory and `placement_addr` at 2 MiB. -/
def bootKernel : Kernel where
  mem := fun _ => 0
  placementAddr := 0x200000
  frames := fun _ => 0
  numFrames := 0
  kernelDir := ⟨0, fun _ => none, fun _ => 0⟩
  kheap := false
  heap := ⟨⟨0, 0, 0, none⟩, 0, 0, 0, false, false⟩
  heapAddr := 0

/-- The mapping that is set up from 2 MiB. -/
theorem initPaging_identity_bootKernel :
    bootKernel.kheap = false ∧ bootKernel.placementAddr ≤ 14 * 2 ^ 20 ∧
      ∃ k', initPaging (alloc 1) bootKernel = .ok k' ∧
        ∀ va < k'.placementAddr, translate k'.kernelDir va = some va := by
  have hheap : bootKernel.kheap = false := rfl
  have hplace : bootKernel.placementAddr ≤ 14 * 2 ^ 20 := by decide
  obtain ⟨k', hrun, hidentity, -⟩ := initPaging_identity (alloc 1) bootKernel hheap hplace
  exact ⟨hheap, hplace, k', hrun, hidentity⟩

end Studix.Mem
