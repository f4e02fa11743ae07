import Studix.Mem.HeapRelease

/-!
# What a release does to the heap

The effect of `free` on the bytes, the bounds and the index of the heap of this kernel, for every
block in use. There are two cases. When `unify_left` finds nothing, the block becomes a hole, takes
in the hole behind it, is shortened with the heap if it ends where the heap ends, and is listed.
When what lies before the block looks like a footer, the magic number is taken for the header of the
block in front: the block is marked as a hole and its footer points below the heap, but it is not
listed.

## Main definitions

* `mergedMem`, `releasedMem`, `releasedEnd`, `newEntries`: the heap after a release without a left
  neighbour; `Released` collects them.
* `leftMem`, `ReleasedLeft`: the heap after the magic number was taken for a header.

## Main results

* `WellFormed.free_effect`, `WellFormed.free_effect_left`: the two cases.
-/

namespace Studix.Mem

variable {m m' : Memory} {heap : Heap} {blocks : List Block} {B R : Block} {k k' : Kernel}
  {alloc : Alloc} {header : ℕ}

/-! ### The effect -/

/-- The block marked as a hole, with the hole behind it. -/
def mergedMem (m : Memory) (header : ℕ) : Memory :=
  if IsHoleAt m (header + headerSize m header) then
    setHeaderSize (setHeaderIsHole m header true) header (mergedSize m header)
  else setHeaderIsHole m header true

/-- The hole that the block becomes ends at the end of the heap. -/
def AtEnd (m : Memory) (heap : Heap) (header : ℕ) : Prop :=
  header + mergedSize m header = heap.endAddr

instance (m : Memory) (heap : Heap) (header : ℕ) : Decidable (AtEnd m heap header) :=
  inferInstanceAs (Decidable (_ = _))

/-- The end of the heap when it is contracted to the hole at `header`. -/
def contractedEnd (heap : Heap) (header : ℕ) : ℕ := heap.startAddr + contractedLength heap header

/-- The end of the heap after the release. -/
def releasedEnd (m : Memory) (heap : Heap) (header : ℕ) : ℕ :=
  if AtEnd m heap header then contractedEnd heap header else heap.endAddr

/-- The memory of the heap after the release. -/
def releasedMem (m : Memory) (heap : Heap) (header : ℕ) : Memory :=
  if AtEnd m heap header ∧ header < contractedEnd heap header then
    resizeBlock (mergedMem m header) header (contractedEnd heap header - header)
  else mergedMem m header

/-- The number of entries that the index gets. -/
def newEntries (m : Memory) (header : ℕ) : ℕ :=
  if IsHoleAt m (header + headerSize m header) then 2 else 1

/-- The holes that stay. -/
def keptHoles (m : Memory) (header : ℕ) (hs : List ℕ) : List ℕ :=
  if IsHoleAt m (header + headerSize m header) then hs.erase (header + headerSize m header) else hs

theorem keptHoles_subset {hs : List ℕ} {v : ℕ} (hv : v ∈ keptHoles m header hs) : v ∈ hs := by
  rw [keptHoles] at hv
  split_ifs at hv
  · exact List.mem_of_mem_erase hv
  · exact hv

/-- **The effect of `free`** on the heap when `unify_left` merges nothing. -/
structure Released (k : Kernel) (blocks : List Block) (header : ℕ) (k' : Kernel) : Prop where
  behind : IsHoleAt k.mem (header + headerSize k.mem header) →
    ∃ R ∈ blocks, R.tag = true ∧ R.addr = header + headerSize k.mem header
  merged_le : header + mergedSize k.mem header ≤ k.heap.endAddr
  start_eq : k'.heap.startAddr = k.heap.startAddr
  end_eq : k'.heap.endAddr = releasedEnd k.mem k.heap header
  index_eq : k'.heap.index =
    { k.heap.index with size := k.heap.index.size + newEntries k.mem header }
  mem_eq : ∀ x, k.heap.index.array + 4 * (k.heap.index.size + newEntries k.mem header) ≤ x →
    k'.mem x = releasedMem k.mem k.heap header x
  listed : header ∈ elems k'.mem k'.heap.index
  entries : k.heap.index.size + newEntries k.mem header ≤ k.heap.index.maxSize + 1 →
    ∀ v ∈ elems k'.mem k'.heap.index, v = header ∨ v = 0 ∨ v ∈ holes blocks
  lists : k.heap.index.size + newEntries k.mem header ≤ k.heap.index.maxSize →
    Lists k'.mem k'.heap.index (header :: keptHoles k.mem header (holes blocks))

/-- The merged hole differs from what was there in its header only. -/
theorem mergedMem_apply_of_notMem {x : ℕ} (h : x < header + 4 ∨ header + sizeofHeader ≤ x) :
    mergedMem m header x = m x := by
  simp only [sizeofHeader] at h
  rw [mergedMem]
  split_ifs
  · rw [setHeaderSize_apply_of_notMem (by omega), setHeaderIsHole_apply_of_ne true (by omega)]
  · exact setHeaderIsHole_apply_of_ne true (by omega)

theorem headerSize_mergedMem (h : mergedSize m header < 2 ^ 32) :
    headerSize (mergedMem m header) header = mergedSize m header := by
  rw [mergedMem]
  split_ifs with hright
  · exact headerSize_setHeaderSize h
  · rw [headerSize_congr fun x hx _ => setHeaderIsHole_apply_of_ne true (by omega), mergedSize,
      if_neg hright]

theorem resizeBlock_eq {n : ℕ} (hn : n < 2 ^ 32) : resizeBlock m header n =
    makeFooter (setHeaderSize m header n) (wsub (wadd header n) sizeofFooter) header := by
  rw [resizeBlock, assocFooter, headerSize_setHeaderSize hn]

theorem resizeBlock_congr_apply {n x : ℕ} (hn : n < 2 ^ 32) (h : m x = m' x) :
    resizeBlock m header n x = resizeBlock m' header n x := by
  simp only [resizeBlock_eq hn, makeFooter, setFooterHeader, setHeaderSize]
  exact store32_congr_apply (store32_congr_apply (store32_congr_apply h))

/-- What lies before a block stays when it gets another size, if its new end is not before it. -/
theorem resizeBlock_apply_of_lt {n x : ℕ} (hlt : header + n < 2 ^ 32) (hx : x < header + 8)
    (hx' : x + sizeofFooter < header + n) : resizeBlock m header n x = m x := by
  rw [resizeBlock_eq (by omega), wadd_eq hlt, wsub_eq (by omega) hlt,
    makeFooter_apply_of_notMem (.inl (by omega)), setHeaderSize_apply_of_notMem (.inl hx)]

/-- A block that is resized ends with its footer. -/
theorem footerAt_resizeBlock {n : ℕ} (t : Bool) (hlt : header + n < 2 ^ 32)
    (hend : sizeofFooter ≤ header + n) : FooterAt (resizeBlock m header n) ⟨header, n, t⟩ := by
  rw [resizeBlock_eq (by omega), wadd_eq hlt, wsub_eq hend hlt]
  exact footerAt_makeFooter _ ⟨header, n, t⟩ (by simp only; omega)

/-- The footer of a resized block misses its size, if the block is long enough, or so short that the
footer starts before it. -/
theorem headerSize_resizeBlock {n : ℕ} (hlt : header + n < 2 ^ 32)
    (hend : sizeofFooter ≤ header + n)
    (hn : n ≤ sizeofFooter ∨ minBlock ≤ n) : headerSize (resizeBlock m header n) header = n := by
  simp only [minBlock, sizeofHeader, sizeofFooter] at hn hend
  rw [resizeBlock_eq (by omega), wadd_eq hlt, sizeofFooter, wsub_eq hend hlt]
  have hframe : ∀ x, header + 8 ≤ x → x < header + 12 →
      makeFooter (setHeaderSize m header n) (header + n - 8) header x =
        setHeaderSize m header n x := fun x hx hx' =>
    makeFooter_apply_of_notMem (by simp only [sizeofFooter]; omega)
  rw [headerSize_congr hframe, headerSize_setHeaderSize (by omega)]

/-- The bytes of the magic number in the footer of a resized block. -/
theorem resizeBlock_apply_magic {n i : ℕ} (hlt : header + n < 2 ^ 32)
    (hend : sizeofFooter ≤ header + n) (hi : i < 4) :
    resizeBlock m header n (header + n - sizeofFooter + i) =
      BitVec.ofNat 8 (heapMagic / 256 ^ i) := by
  rw [resizeBlock_eq (by omega), wadd_eq hlt, wsub_eq hend hlt, makeFooter, store32_apply_add hi]

/-- The bytes of the pointer in the footer of a resized block. -/
theorem resizeBlock_apply_pointer {n i : ℕ} (hlt : header + n < 2 ^ 32)
    (hend : sizeofFooter ≤ header + n) (hi : i < 4) :
    resizeBlock m header n (header + n - sizeofFooter + 4 + i) =
      BitVec.ofNat 8 (header / 256 ^ i) := by
  rw [resizeBlock_eq (by omega), wadd_eq hlt, wsub_eq hend hlt, makeFooter,
    store32_apply_of_notMem (by omega), setFooterHeader, store32_apply_add hi]

/-- Otherwise a byte of the footer makes the size too large: the high byte of the header's address,
or the high or the low byte of the magic number. -/
theorem lt_headerSize_resizeBlock {n : ℕ} (hlt : header + n < 2 ^ 32) (hstart : heapStart ≤ header)
    (hn : sizeofFooter < n) (hn' : n < minBlock) :
    n < headerSize (resizeBlock m header n) header := by
  simp only [minBlock, sizeofHeader, sizeofFooter, heapStart] at hn hn' hstart
  have hend : sizeofFooter ≤ header + n := by
    simp only [sizeofFooter]
    omega
  have hpointer := resizeBlock_apply_pointer (m := m) hlt hend (show 3 < 4 by omega)
  have hhigh := resizeBlock_apply_magic (m := m) hlt hend (show 3 < 4 by omega)
  have hlow := resizeBlock_apply_magic (m := m) hlt hend (show 0 < 4 by omega)
  set m' := resizeBlock m header n
  have hbyte : ∀ i, i < 4 → (m' (header + 8 + i)).toNat ≤ headerSize m' header := fun i hi =>
    toNat_le_load32 m' (header + 8) hi
  simp only [sizeofFooter] at hpointer hhigh hlow
  rcases Nat.lt_or_ge n 13 with hshort | hlong
  · have hle := hbyte (n - 9) (by omega)
    have htop : header / 256 ^ 3 % 2 ^ 8 = header / 2 ^ 24 := by omega
    rw [show header + 8 + (n - 9) = header + n - 8 + 4 + 3 by omega, hpointer, BitVec.toNat_ofNat,
      htop] at hle
    omega
  rcases Nat.lt_or_ge n 17 with hmiddle | hlong
  · have hle := hbyte (n - 13) (by omega)
    rw [show header + 8 + (n - 13) = header + n - 8 + 3 by omega, hhigh] at hle
    have hvalue : (BitVec.ofNat 8 (heapMagic / 256 ^ 3)).toNat = 190 := by decide
    omega
  · have hle := hbyte (n - 16) (by omega)
    rw [show header + 8 + (n - 16) = header + n - 8 + 0 by omega, hlow] at hle
    have hvalue : (BitVec.ofNat 8 (heapMagic / 256 ^ 0)).toNat = 237 := by decide
    omega

/-- No slot of the index, nor what lies right behind its last slot, is the header of a block in
use. -/
theorem WellFormed.slot_ne_used (hw : WellFormed m heap blocks) (hB : B ∈ blocks)
    (htag : B.tag = false) {j : ℕ} (hj : j ≤ heap.index.maxSize) :
    slot m heap.index j ≠ B.addr := by
  have hbase := hw.start_lt
  have hle := (hw.inv.of_mem hB).1
  intro hslot
  rcases Nat.lt_or_eq_of_le hj with hlt | rfl
  · rcases hw.inv.index.slot_cases hlt with hzero | hlisted
    · omega
    · -- A hole and a block in use do not start at one place.
      obtain ⟨H, hH, hHtag, haddr⟩ := mem_holes.mp hlisted
      have heq := hw.inv.tiles.eq_of_addr (by decide) hH hB (haddr.trans hslot)
      rw [heq, htag] at hHtag
      cases hHtag
  · -- Behind the last slot lies the header of the first block.
    obtain ⟨C, hC, hCaddr⟩ : ∃ C ∈ blocks, C.addr = heap.startAddr := by
      cases blocks with
      | nil => cases hB
      | cons C blocks => exact ⟨C, List.mem_cons_self, hw.inv.tiles.1⟩
    have hmagic := (hw.inv.headers C hC).magic
    have haddr : heap.index.array + 4 * heap.index.maxSize = C.addr := by
      rw [hCaddr, hw.layout.start, hw.layout.array, hw.layout.maxSize]
    rw [slot, haddr] at hslot
    rw [headerMagic, hslot] at hmagic
    omega

/-- Nor is a slot of an index with the same entries. -/
theorem WellFormed.slot_ne_used_of_slots (hw : WellFormed m heap blocks) (hB : B ∈ blocks)
    (htag : B.tag = false) {m' : Memory} {index : OrderedArray}
    (hslots : ∀ j < index.size, ∃ l ≤ heap.index.maxSize, slot m' index j = slot m heap.index l) :
    ∀ j < index.size, slot m' index j ≠ B.addr := by
  intro j hj
  obtain ⟨l, hl, heq⟩ := hslots j hj
  rw [heq]
  exact hw.slot_ne_used hB htag hl

/-- Removing an entry moves slots of the index, or what lies right behind its last slot. -/
theorem WellFormed.exists_slot_remove {mem : Memory} {i j : ℕ} (hw : WellFormed m heap blocks)
    (hsame : ∀ x, heap.index.array ≤ x → x < heap.startAddr + 4 → mem x = m x)
    (hi : i < heap.index.size) (hj : j ≤ heap.index.size) : ∃ l ≤ heap.index.maxSize,
      slot (orderedArrayRemove mem heap.index i).1 heap.index j = slot m heap.index l := by
  have hmax := hw.inv.index.size_le
  have hadjacent := hw.layout.start
  rw [← hw.layout.array, ← hw.layout.maxSize] at hadjacent
  have hold : ∀ l ≤ heap.index.maxSize, slot mem heap.index l = slot m heap.index l := fun l hl =>
    slot_congr fun x hx hx' => hsame x (by omega) (by omega)
  obtain ⟨-, hslots, -⟩ := orderedArrayRemove_spec (m := mem) hi.le
  rw [hslots]
  split_ifs
  · exact ⟨j + 1, by omega, hold (j + 1) (by omega)⟩
  · exact ⟨j, by omega, hold j (by omega)⟩

/-! ### Nothing is merged on the left -/

section Quiet

variable (hw : WellFormed k.mem k.heap blocks) (hB : B ∈ blocks) (htag : B.tag = false)

include hw hB

theorem WellFormed.headerSize_eq : headerSize k.mem B.addr = B.size := (hw.inv.headers B hB).size

/-- What the end of `free` leaves when nothing was merged on the left. -/
theorem WellFormed.freeContract_quiet {footer' : ℕ} {k₁ k₂ : Kernel}
    (hfooter : footer' + sizeofFooter = B.addr + mergedSize k.mem B.addr)
    (hle : B.addr + mergedSize k.mem B.addr ≤ k.heap.endAddr)
    (hge : B.size ≤ mergedSize k.mem B.addr) (hstart₁ : k₁.heap.startAddr = k.heap.startAddr)
    (hend₁ : k₁.heap.endAddr = k.heap.endAddr)
    (hmem₁ : ∀ x, k.heap.index.array + 4 * k.heap.index.size ≤ x →
      k₁.mem x = mergedMem k.mem B.addr x)
    (hslots₁ : ∀ j < k₁.heap.index.size, slot k₁.mem k₁.heap.index j ≠ B.addr)
    (h : freeContract alloc k₁ B.addr footer' = .ok k₂) :
    k₂.heap.startAddr = k.heap.startAddr ∧
      k₂.heap.endAddr = releasedEnd k.mem k.heap B.addr ∧ k₂.heap.index = k₁.heap.index ∧
      (∀ x, k.heap.index.array + 4 * k.heap.index.size ≤ x →
        k₂.mem x = releasedMem k.mem k.heap B.addr x) ∧
      ∀ x < k.heap.startAddr + 4, k₂.mem x = k₁.mem x := by
  have hlt := hw.inv.bounds.end_lt
  have hstorage := hw.inv.bounds.storage
  have hmax := hw.inv.index.size_le
  have hmin := hw.inv.bounds.min_le
  obtain ⟨hstart, hsize, hend⟩ := hw.inv.of_mem hB
  simp only [minBlock, sizeofHeader, sizeofFooter] at hsize
  have hnext : wadd footer' sizeofFooter = B.addr + mergedSize k.mem B.addr := by
    rw [wadd_eq (by omega), hfooter]
  have hmergedSize : headerSize k₁.mem B.addr = mergedSize k.mem B.addr := by
    rw [headerSize_congr fun x hx _ => hmem₁ x (by omega), headerSize_mergedMem (by omega)]
  have hcontract : contractLength k₁.heap B.addr = contractedLength k.heap B.addr := by
    rw [contractLength, hstart₁, wsub_eq hstart (by omega), contractedLength]
  obtain ⟨hlength, hlength', -⟩ := contractedLength_bounds hw.inv.bounds hstart (by omega)
  have hnewEnd : contractedEnd k.heap B.addr = k.heap.startAddr + contractedLength k.heap B.addr :=
    rfl
  have hnewEnd' : wadd k.heap.startAddr (contractedLength k.heap B.addr) =
      contractedEnd k.heap B.addr := wadd_eq (by omega)
  rcases freeContract_cases h with ⟨hne, rfl⟩ | ⟨heq, loss, heap', hloss, hheap', hcases⟩
  · have hnot : ¬AtEnd k.mem k.heap B.addr := by
      rwa [hnext, hend₁] at hne
    rw [releasedEnd, releasedMem, if_neg hnot, if_neg fun hboth => hnot hboth.1]
    exact ⟨hstart₁, hend₁, rfl, hmem₁, fun _ _ => rfl⟩
  · rw [hnext, hend₁] at heq
    rw [hcontract, hend₁, hstart₁, wsub_eq (by omega) hlt, wsub_eq hlength' (by omega)] at hloss
    rw [hcontract, hstart₁, hnewEnd'] at hheap'
    rw [hmergedSize] at hcases
    have hatEnd : AtEnd k.mem k.heap B.addr := heq
    rw [releasedEnd, releasedMem, if_pos hatEnd]
    rcases hcases with ⟨hkeep, hheap, hmem⟩ | ⟨hdrop, ⟨hheap, hmem⟩ | ⟨i, hi, hslot, -⟩⟩
    · -- The hole is shortened with the heap.
      have hrest : wsub (mergedSize k.mem B.addr) loss = contractedEnd k.heap B.addr - B.addr := by
        rw [wsub_eq hkeep.le (by omega)]
        omega
      rw [hrest] at hmem
      rw [if_pos ⟨hatEnd, by omega⟩, hheap, hheap', hmem]
      refine ⟨hstart₁, rfl, rfl, fun x hx => resizeBlock_congr_apply (by omega) (hmem₁ x hx),
        fun x hx => resizeBlock_apply_of_lt (by omega) (by omega) ?_⟩
      simp only [sizeofFooter, heapMinSize] at hlength ⊢
      omega
    · rw [if_neg fun hboth => by have hlt := hboth.2; omega, hheap, hheap', hmem]
      exact ⟨hstart₁, rfl, rfl, hmem₁, fun _ _ => rfl⟩
    · exact absurd hslot (hslots₁ i hi)

/-- What `unify_right` leaves when nothing is merged on the left. -/
theorem WellFormed.unifyRight_quiet {footer' : ℕ} {k₁ : Kernel}
    (h : unifyRight { k with mem := setHeaderIsHole k.mem B.addr true } B.addr
      (B.end_ - sizeofFooter) = .ok (k₁, footer')) :
    (IsHoleAt k.mem B.end_ → ∃ R ∈ blocks, R.tag = true ∧ R.addr = B.end_) ∧
      footer' + sizeofFooter = B.addr + mergedSize k.mem B.addr ∧
      B.addr + mergedSize k.mem B.addr ≤ k.heap.endAddr ∧ B.size ≤ mergedSize k.mem B.addr ∧
      k₁.heap.startAddr = k.heap.startAddr ∧ k₁.heap.endAddr = k.heap.endAddr ∧
      k₁.heap.index =
        { k.heap.index with size := k.heap.index.size + (newEntries k.mem B.addr - 1) } ∧
      (∀ x, k.heap.index.array + 4 * k.heap.index.size ≤ x → k₁.mem x = mergedMem k.mem B.addr x) ∧
      (∀ j < k₁.heap.index.size, ∃ l ≤ k.heap.index.maxSize,
        slot k₁.mem k₁.heap.index j = slot k.mem k.heap.index l) ∧
      (k.heap.index.size + newEntries k.mem B.addr ≤ k.heap.index.maxSize + 1 →
        Lists k₁.mem k₁.heap.index (keptHoles k.mem B.addr (holes blocks))) := by
  have hlt := hw.inv.bounds.end_lt
  have hstorage := hw.inv.bounds.storage
  have hmax := hw.inv.index.size_le
  obtain ⟨hstart, hsize, hend⟩ := hw.inv.of_mem hB
  have hBsize := hw.headerSize_eq hB
  have hB_end : B.addr + B.size = B.end_ := rfl
  simp only [minBlock, sizeofHeader, sizeofFooter] at hsize
  have hstore : ∀ x, k.heap.index.array ≤ x → x < k.heap.startAddr →
      setHeaderIsHole k.mem B.addr true x = k.mem x := fun x _ hx =>
    setHeaderIsHole_apply_of_ne true (by omega)
  have hbehind : ∀ x, B.end_ ≤ x → setHeaderIsHole k.mem B.addr true x = k.mem x := fun x hx =>
    setHeaderIsHole_apply_of_ne true (by omega)
  have hmark : headerSize (setHeaderIsHole k.mem B.addr true) B.addr = B.size := by
    rw [headerSize_congr fun x hx _ => setHeaderIsHole_apply_of_ne true (by omega), hBsize]
  rw [newEntries, keptHoles, mergedMem, mergedSize, hBsize, hB_end]
  rcases hw.unifyRight_effect hB hstore hbehind
    (.inr ⟨hstart, by simp only [sizeofHeader]; omega⟩) h with
    ⟨hright, R, hR, hRtag, haddr, hfooter, mem, i, hmem, hi, hslot, hstore', hk₁, hheap⟩ |
    ⟨hright, hk₁, hheap, hfooter⟩
  · have hRsize : headerSize k.mem B.end_ = R.size := haddr ▸ (hw.inv.headers R hR).size
    have hRend := (hw.inv.of_mem hR).2.2
    have hsum : wadd B.size R.size = B.size + R.size := wadd_eq (by omega)
    have hrend : R.end_ = B.addr + (B.size + R.size) := by
      rw [Tile.end_, haddr]
      omega
    rw [hmark, hsum] at hmem
    simp only [if_pos hright, hRsize]
    obtain ⟨harray, hslots, hframe⟩ := orderedArrayRemove_spec (m := mem) hi.le
    have hindex : k₁.heap.index = { k.heap.index with size := k.heap.index.size + 1 } := by
      rw [hheap]
      exact harray
    refine ⟨fun _ => ⟨R, hR, hRtag, haddr⟩, hfooter.trans hrend, by omega, by omega,
      by rw [hheap], by rw [hheap], hindex,
      fun x hx => ?_, fun j hj => ?_, fun hroom => ?_⟩
    · rw [hk₁, hframe x (.inr hx), hmem]
    · rw [hindex] at hj ⊢
      rw [hk₁]
      refine hw.exists_slot_remove (fun x hx hx' => ?_) hi (by simp only at hj; omega)
      rw [hmem, setHeaderSize_apply_of_notMem (by omega),
        setHeaderIsHole_apply_of_ne true (by omega)]
    · have hlists : Lists mem k.heap.index (holes blocks) :=
        hw.inv.index.congr fun x hx hx' => hstore' x hx (by omega)
      have hcongr : slot mem k.heap.index i = B.end_ := by
        rw [slot_congr fun x hx hx' => hstore' x (by omega) (by omega), hslot]
      have hperm : (holes blocks).Perm
          (slot mem k.heap.index i :: (holes blocks).erase B.end_) := by
        rw [hcongr]
        exact List.perm_cons_erase (mem_holes.mpr ⟨R, hR, hRtag, haddr⟩)
      obtain ⟨hlists', -⟩ := hlists.remove (by omega) hi (by omega) hperm
      rw [hk₁, hheap]
      exact hlists'
  · simp only [if_neg hright]
    refine ⟨fun hnot => absurd hnot hright, hfooter, hend, le_rfl, by rw [hheap], by rw [hheap],
      congrArg Heap.index hheap,
      fun x _ => by rw [hk₁], fun j hj => ?_, fun _ => ?_⟩
    · rw [hk₁, hheap]
      rw [hheap] at hj
      exact ⟨j, by omega, slot_congr fun x hx hx' => hstore x (by omega) (by omega)⟩
    · rw [hk₁, hheap]
      exact hw.inv.index.congr fun x hx hx' => hstore x hx (by omega)

include htag

/-- **The effect of `free`** when what lies twelve bytes before the block does not look like the
footer of a hole. -/
theorem WellFormed.free_effect (hleft : ¬IsLeftFooter k.mem B.addr)
    (h : free alloc k (B.addr + sizeofHeader) = .ok k') : Released k blocks B.addr k' := by
  have hlt := hw.inv.bounds.end_lt
  have hstorage := hw.inv.bounds.storage
  have hpos := hw.inv.bounds.start_pos
  obtain ⟨hstart, hsize, hend⟩ := hw.inv.of_mem hB
  have hBsize := hw.headerSize_eq hB
  have hB_end : B.addr + B.size = B.end_ := rfl
  simp only [minBlock, sizeofHeader, sizeofFooter] at hsize
  have hfooter : assocFooter k.mem B.addr = B.end_ - sizeofFooter := by
    rw [assocFooter, hBsize, wadd_eq (by omega), hB_end, sizeofFooter,
      wsub_eq (by omega) (by omega)]
  have hptr : headerFor (B.addr + sizeofHeader) = B.addr :=
    headerFor_eq (by simp only [sizeofHeader]; omega)
  obtain ⟨-, hblock⟩ := (free_eq_ok (Nat.succ_ne_zero _) hptr hfooter).mp h
  obtain ⟨k₁, footer', k₂, hunify, hcontract, hlast⟩ :=
    freeBlock_cases (unifyLeft_of_not fun hmark => hleft ((hw.isLeftFooter_mark hB).mp hmark))
      hblock
  obtain ⟨hbehind, hfooter', hle, hge, hstart₁, hend₁, hindex₁, hmem₁, hslots₁, hlists₁⟩ :=
    hw.unifyRight_quiet hB hunify
  have hunused := hw.slot_ne_used_of_slots hB htag hslots₁
  obtain ⟨hstart₂, hend₂, hindex₂, hmem₂, hbefore⟩ :=
    hw.freeContract_quiet hB hfooter' hle hge hstart₁ hend₁ hmem₁ hunused hcontract
  rcases hlast with ⟨-, mem, index, hinsert, rfl⟩ | ⟨hne, -⟩
  · have hentries : 1 ≤ newEntries k.mem B.addr := by
      rw [newEntries]
      split_ifs <;> omega
    have hcomparer : k₂.heap.index.comparer.isSome := by
      rw [hindex₂, hindex₁]
      exact hw.inv.index.comparer
    obtain ⟨mem₁, p, hspec, hp, hslot, hframe⟩ :=
      orderedArrayInsert_spec k₂.mem k₂.heap.index B.addr hcomparer (by omega)
    obtain ⟨rfl, rfl⟩ := Prod.mk.inj (Except.ok.inj (hspec.symm.trans hinsert))
    have hsize₂ : k₂.heap.index.size + 1 = k.heap.index.size + newEntries k.mem B.addr := by
      rw [hindex₂, hindex₁]
      simp only
      omega
    have harray₂ : k₂.heap.index.array = k.heap.index.array := by rw [hindex₂, hindex₁]
    have hlists₂ (hroom : k.heap.index.size + newEntries k.mem B.addr ≤ k.heap.index.maxSize + 1) :
        Lists k₂.mem k₂.heap.index (keptHoles k.mem B.addr (holes blocks)) := by
      rw [hindex₂]
      refine (hlists₁ hroom).congr fun x hx hx' => hbefore x ?_
      rw [hindex₁] at hx'
      simp only at hx'
      omega
    have hperm := elems_insert_perm hp hslot
    refine ⟨by rwa [hBsize], hle, hstart₂, hend₂, ?_, fun x hx => ?_,
      hperm.mem_iff.mpr List.mem_cons_self, fun hroom v hv => ?_, fun hroom => ?_⟩
    · rw [Kernel.setIndex_heap]
      simp only
      rw [hsize₂, hindex₂, hindex₁]
    · rw [Kernel.setIndex_mem, hframe x (.inr (by omega)), hmem₂ x (by omega)]
    · rcases List.mem_cons.mp (hperm.mem_iff.mp hv) with rfl | hv
      · exact .inl rfl
      obtain ⟨j, hj, rfl⟩ := mem_elems.mp hv
      have hcases := (hlists₂ hroom).slot_cases (hj.trans_le (hlists₂ hroom).size_le)
      exact .inr (hcases.imp_right fun hkept => keptHoles_subset hkept)
    · have hroom₂ : k₂.heap.index.size + 1 ≤ k₂.heap.index.maxSize := by
        rw [hsize₂, hindex₂, hindex₁]
        exact hroom
      exact ((hlists₂ (by omega)).insert hroom₂ (by omega) (by omega) hinsert).2.1
  · exact absurd rfl hne

end Quiet

/-! ### The magic number is taken for a header -/

/-- The memory of the heap after `unify_left` has taken the magic number for a header: the block is
marked as a hole, and its footer points to the magic number. -/
def leftMem (m : Memory) (B : Block) : Memory :=
  setFooterHeader (setHeaderIsHole m B.addr true) (B.end_ - sizeofFooter) heapMagic

/-- The size that `unify_left` writes behind the magic number. -/
def leftSize (m : Memory) (B : Block) : ℕ := wadd (headerSize m heapMagic) B.size

/-- **The effect of `free`** when `unify_left` takes the magic number for a header. The block is not
listed; if the result ends at the end of the heap, the heap ends before its start. -/
structure ReleasedLeft (k : Kernel) (B : Block) (k' : Kernel) : Prop where
  start_eq : k'.heap.startAddr = k.heap.startAddr
  atEnd : AtEnd k.mem k.heap B.addr → k'.heap.endAddr < k.heap.startAddr
  end_eq : ¬AtEnd k.mem k.heap B.addr → k'.heap.endAddr = k.heap.endAddr
  index_eq : ¬AtEnd k.mem k.heap B.addr → k'.heap.index =
    { k.heap.index with size := k.heap.index.size + (newEntries k.mem B.addr - 1) }
  unlisted : ¬AtEnd k.mem k.heap B.addr → B.addr ∉ elems k'.mem k'.heap.index
  mem_eq : ¬AtEnd k.mem k.heap B.addr → ∀ x, k.heap.startAddr ≤ x → k'.mem x = leftMem k.mem B x

section Left

variable (hw : WellFormed k.mem k.heap blocks) (hB : B ∈ blocks)
  (hleft : IsLeftFooter k.mem B.addr)

include hw

/-- The heap is brought to an end before its start when it is contracted to the magic number. -/
theorem WellFormed.contractLength_magic :
    wadd k.heap.startAddr (contractLength k.heap heapMagic) < k.heap.startAddr := by
  rw [contractLength, hw.layout.start]
  decide

include hB

theorem leftMem_apply_of_lt {x : ℕ} (hx : x < B.addr + 4) : leftMem k.mem B x = k.mem x := by
  obtain ⟨-, hsize, -⟩ := hw.inv.of_mem hB
  have hB_end : B.end_ = B.addr + B.size := rfl
  simp only [minBlock, sizeofHeader, sizeofFooter] at hsize
  rw [leftMem, setFooterHeader, sizeofFooter, store32_apply_of_notMem (by omega),
    setHeaderIsHole_apply_of_ne true (by omega)]

theorem leftMem_apply_of_le {x : ℕ} (hx : B.end_ ≤ x) : leftMem k.mem B x = k.mem x := by
  obtain ⟨-, hsize, -⟩ := hw.inv.of_mem hB
  have hB_end : B.end_ = B.addr + B.size := rfl
  simp only [minBlock, sizeofHeader, sizeofFooter] at hsize
  rw [leftMem, setFooterHeader, sizeofFooter, store32_apply_of_notMem (by omega),
    setHeaderIsHole_apply_of_ne true (by omega)]

theorem headerSize_leftMem : headerSize (leftMem k.mem B) B.addr = B.size := by
  obtain ⟨-, hsize, -⟩ := hw.inv.of_mem hB
  have hB_end : B.end_ = B.addr + B.size := rfl
  simp only [minBlock, sizeofHeader, sizeofFooter] at hsize
  rw [← hw.headerSize_eq hB]
  refine headerSize_congr fun x hx hx' => ?_
  rw [leftMem, setFooterHeader, sizeofFooter, store32_apply_of_notMem (by omega),
    setHeaderIsHole_apply_of_ne true (by omega)]

include hleft

/-- What `unify_left` does. -/
theorem WellFormed.unifyLeft_magic :
    unifyLeft (setHeaderIsHole k.mem B.addr true) B.addr (B.end_ - sizeofFooter) =
      (setHeaderSize (leftMem k.mem B) heapMagic (leftSize k.mem B), heapMagic) := by
  obtain ⟨hstart, hsize, hend⟩ := hw.inv.of_mem hB
  have hbase := hw.start_lt
  have hB_end : B.end_ = B.addr + B.size := rfl
  simp only [minBlock, sizeofHeader, sizeofFooter] at hsize hbase
  have hmark := (hw.isLeftFooter_mark hB).mpr hleft
  have hheader : footerHeader (setHeaderIsHole k.mem B.addr true) (wsub B.addr sizeofHeader) =
      heapMagic := (hw.left_mark hB).2.trans (hw.left_footer hB hleft.1).1
  have hmagicSize : headerSize (leftMem k.mem B) heapMagic = headerSize k.mem heapMagic :=
    headerSize_congr fun x _ hx => leftMem_apply_of_lt hw hB (by omega)
  have hown : headerSize (setHeaderIsHole k.mem B.addr true) B.addr = B.size := by
    rw [headerSize_congr fun x hx _ => setHeaderIsHole_apply_of_ne true (by omega),
      hw.headerSize_eq hB]
  rw [IsLeftFooter] at hmark
  rw [unifyLeft, if_pos hmark]
  simp only [hheader, hown]
  rw [← leftMem, hmagicSize, leftSize]

omit hleft in
/-- What `unify_right` leaves when the magic number was taken for a header. -/
theorem WellFormed.unifyRight_left {mem : Memory} {footer' : ℕ} {k₁ : Kernel} (htag : B.tag = false)
    (hmem : ∀ x, heapStart ≤ x → mem x = leftMem k.mem B x)
    (h : unifyRight { k with mem } heapMagic (B.end_ - sizeofFooter) = .ok (k₁, footer')) :
    footer' + sizeofFooter = B.addr + mergedSize k.mem B.addr ∧
      B.addr + mergedSize k.mem B.addr ≤ k.heap.endAddr ∧
      k₁.heap.startAddr = k.heap.startAddr ∧ k₁.heap.endAddr = k.heap.endAddr ∧
      k₁.heap.index =
        { k.heap.index with size := k.heap.index.size + (newEntries k.mem B.addr - 1) } ∧
      B.addr ∉ elems k₁.mem k₁.heap.index ∧
      ∀ x, k.heap.startAddr ≤ x → k₁.mem x = leftMem k.mem B x := by
  have hstorage := hw.inv.bounds.storage
  have hmax := hw.inv.index.size_le
  have harray := hw.layout.array
  have hmagic := heapMagic_add_lt_heapStart
  obtain ⟨hstart, hsize, hend⟩ := hw.inv.of_mem hB
  have hBsize := hw.headerSize_eq hB
  have hB_end : B.addr + B.size = B.end_ := rfl
  simp only [minBlock, sizeofHeader, sizeofFooter] at hsize hmagic
  have hstore : ∀ x, k.heap.index.array ≤ x → x < k.heap.startAddr + 4 → mem x = k.mem x := by
    intro x hx hx'
    rw [hmem x (by omega), leftMem_apply_of_lt hw hB (by omega)]
  have hbehind : ∀ x, B.end_ ≤ x → mem x = k.mem x := by
    intro x hx
    rw [hmem x (by omega), leftMem_apply_of_le hw hB hx]
  rw [newEntries, mergedSize, hBsize, hB_end]
  rcases hw.unifyRight_effect hB (fun x hx hx' => hstore x hx (by omega)) hbehind
    (.inl (by simp only [sizeofHeader]; omega)) h with
    ⟨hright, R, hR, -, haddr, hfooter, mem', i, hmem', hi, -, -, hk₁, hheap⟩ |
    ⟨hright, hk₁, hheap, hfooter⟩
  · have hRsize : headerSize k.mem B.end_ = R.size := haddr ▸ (hw.inv.headers R hR).size
    have hframe : ∀ x, heapStart ≤ x → mem' x = mem x := fun x hx => by
      rw [hmem', setHeaderSize_apply_of_notMem (by omega)]
    simp only [if_pos hright, hRsize]
    have hRend : R.end_ = B.addr + (B.size + R.size) := by
      rw [Tile.end_, haddr]
      omega
    refine ⟨hfooter.trans hRend, hRend ▸ (hw.inv.of_mem hR).2.2, by rw [hheap], by rw [hheap],
      by rw [hheap]; rfl, fun hlisted => ?_, fun x hx => ?_⟩
    · obtain ⟨j, hj, hslot⟩ := mem_elems.mp hlisted
      rw [hk₁, hheap] at hslot
      rw [hheap] at hj
      obtain ⟨l, hl, heq⟩ := hw.exists_slot_remove
        (fun x hx hx' => (hframe x (by omega)).trans (hstore x hx hx')) hi (Nat.le_of_lt_succ hj)
      exact hw.slot_ne_used hB htag hl (heq.symm.trans hslot)
    · rw [hk₁, (orderedArrayRemove_spec hi.le).2.2 x (.inr (by omega)), hframe x (by omega),
        hmem x (by omega)]
  · simp only [if_neg hright]
    refine ⟨hfooter, hend, by rw [hheap], by rw [hheap], congrArg Heap.index hheap,
      fun hlisted => ?_, fun x hx => by rw [hk₁, hmem x (by omega)]⟩
    obtain ⟨j, hj, hslot⟩ := mem_elems.mp hlisted
    rw [hheap] at hj
    rw [hk₁, hheap, slot_congr fun x hx hx' => hstore x (by omega) (by omega)] at hslot
    exact hw.slot_ne_used hB htag (by omega) hslot

/-- **The effect of `free`** when what lies twelve bytes before the block looks like the footer of a
hole. -/
theorem WellFormed.free_effect_left (htag : B.tag = false)
    (h : free alloc k (B.addr + sizeofHeader) = .ok k') : ReleasedLeft k B k' := by
  have hlt := hw.inv.bounds.end_lt
  have hbase := hw.start_lt
  have hmagic := heapMagic_add_lt_heapStart
  obtain ⟨hstart, hsize, hend⟩ := hw.inv.of_mem hB
  have hB_end : B.addr + B.size = B.end_ := rfl
  simp only [minBlock, sizeofHeader, sizeofFooter] at hsize hmagic
  have hfooter : assocFooter k.mem B.addr = B.end_ - sizeofFooter := by
    rw [assocFooter, hw.headerSize_eq hB, wadd_eq (by omega), hB_end, sizeofFooter,
      wsub_eq (by omega) (by omega)]
  have hptr : headerFor (B.addr + sizeofHeader) = B.addr :=
    headerFor_eq (by simp only [sizeofHeader]; omega)
  obtain ⟨-, hblock⟩ := (free_eq_ok (Nat.succ_ne_zero _) hptr hfooter).mp h
  obtain ⟨k₁, footer', k₂, hunify, hcontract, hlast⟩ :=
    freeBlock_cases (hw.unifyLeft_magic hB hleft) hblock
  simp only at hunify hcontract hlast
  obtain rfl : k' = k₂ := by
    rcases hlast with ⟨heq, -⟩ | ⟨-, heq⟩
    · omega
    · exact heq
  obtain ⟨hfooter', hle, hstart₁, hend₁, hindex₁, hunlisted, hmem₁⟩ := hw.unifyRight_left hB htag
    (fun x hx => setHeaderSize_apply_of_notMem (by omega)) hunify
  have hnext : wadd footer' sizeofFooter = k.heap.endAddr ↔ AtEnd k.mem k.heap B.addr := by
    rw [wadd_eq (by omega), hfooter', AtEnd]
  rcases freeContract_cases hcontract with ⟨hne, rfl⟩ | ⟨heq, loss, heap', -, hheap', hcases⟩
  · rw [hend₁, ne_eq, hnext] at hne
    exact ⟨hstart₁, fun hatEnd => absurd hatEnd hne, fun _ => hend₁, fun _ => hindex₁,
      fun _ => hunlisted, fun _ => hmem₁⟩
  · rw [hend₁, hnext] at heq
    have hlength : contractLength k₁.heap heapMagic = contractLength k.heap heapMagic := by
      rw [contractLength, hstart₁, contractLength]
    have hbounds : k'.heap.startAddr = k.heap.startAddr ∧ k'.heap.endAddr < k.heap.startAddr := by
      have hend' := hw.contractLength_magic
      rw [← hlength] at hend'
      rcases hcases with ⟨-, hheap, -⟩ | ⟨-, ⟨hheap, -⟩ | ⟨i, -, -, -, hheap⟩⟩ <;>
        rw [hheap, hheap', hstart₁] <;> exact ⟨rfl, hend'⟩
    exact ⟨hbounds.1, fun _ => hbounds.2, fun hnot => absurd heq hnot, fun hnot => absurd heq hnot,
      fun hnot => absurd heq hnot, fun hnot => absurd heq hnot⟩

end Left

end Studix.Mem
