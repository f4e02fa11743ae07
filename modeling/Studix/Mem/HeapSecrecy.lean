import Studix.Base.Related
import Studix.Mem.HeapContract

/-!
# What the allocator reads of its users' data

`free` finds the neighbours of a block by the headers and footers beside it. Two heaps that differ
in the payloads of other blocks only are compared: `free` does the same with both as long as it
reads no payload of another block. It reads one word of a payload, the last one of the block in
front: `unify_left` takes it for the magic number of a footer.

## Main definitions

* `payloads`: the bytes that belong to the users of the other blocks.
* `Alike`: two states that differ in some bytes of memory only.

## Main results

* `free_related`: what `free` does with two such heaps when `unify_left` finds the same in both.
* `sameResult_iff`: when the results are the same.
-/

namespace Studix.Mem

variable {D : Set ℕ} {m m' : Memory} {a : OrderedArray} {heap : Heap}
  {blocks : List Block} {B : Block}
  {k k' k₁ k₂ : Kernel} {alloc : Alloc} {footer header i item j n p v x : ℕ}

/-! ### Fields -/

section Fields

variable (heq : Set.EqOn m m' Dᶜ)

include heq

theorem headerMagic_eq_of_beside (h : Beside D header sizeofHeader) :
    headerMagic m header = headerMagic m' header :=
  load32_eq_of_beside heq (h.mono le_rfl (by simp only [sizeofHeader]; omega))

theorem headerIsHole_eq_of_beside (h : Beside D header sizeofHeader) :
    headerIsHole m header = headerIsHole m' header := by
  rw [headerIsHole, headerIsHole]
  simp only [sizeofHeader] at h
  rw [heq (h (header + 4) (by omega) (by omega))]

theorem headerSize_eq_of_beside (h : Beside D header sizeofHeader) :
    headerSize m header = headerSize m' header :=
  load32_eq_of_beside heq (h.mono (by omega) (by simp only [sizeofHeader]; omega))

theorem footerMagic_eq_of_beside (h : Beside D footer sizeofFooter) :
    footerMagic m footer = footerMagic m' footer :=
  load32_eq_of_beside heq (h.mono le_rfl (by simp only [sizeofFooter]; omega))

theorem footerHeader_eq_of_beside (h : Beside D footer sizeofFooter) :
    footerHeader m footer = footerHeader m' footer :=
  load32_eq_of_beside heq (h.mono (by omega) (by simp only [sizeofFooter]; omega))

theorem eqOn_setHeaderIsHole (isHole : Bool) :
    Set.EqOn (setHeaderIsHole m header isHole) (setHeaderIsHole m' header isHole) Dᶜ :=
  eqOn_blit_of_eqOn heq

theorem eqOn_setHeaderSize : Set.EqOn (setHeaderSize m header n) (setHeaderSize m' header n) Dᶜ :=
  eqOn_store32_of_eqOn heq

theorem eqOn_setFooterHeader :
    Set.EqOn (setFooterHeader m footer header) (setFooterHeader m' footer header) Dᶜ :=
  eqOn_store32_of_eqOn heq

theorem eqOn_resizeBlock (hn : n < 2 ^ 32) :
    Set.EqOn (resizeBlock m header n) (resizeBlock m' header n) Dᶜ :=
  fun _ hx => resizeBlock_congr_apply hn (heq hx)

end Fields

/-! ### The index -/

/-- The slots up to slot `n` lie beside `D`. -/
def SlotsBeside (D : Set ℕ) (a : OrderedArray) (n : ℕ) : Prop :=
  ∀ j ≤ n, Beside D (a.array + 4 * j) 4

section Index

variable (heq : Set.EqOn m m' Dᶜ)

include heq

theorem slot_eq_of_beside (h : SlotsBeside D a n) (hj : j ≤ n) : slot m a j = slot m' a j :=
  load32_eq_of_beside heq (h j hj)

theorem findHeaderIndex_eq_of_beside (h : SlotsBeside D heap.index heap.index.size) (header : ℕ) :
    findHeaderIndex m heap header = findHeaderIndex m' heap header := by
  rw [findHeaderIndex, findHeaderIndex]
  refine List.find?_congr fun i hi => ?_
  rw [slot_eq_of_beside heq h (List.mem_range.mp hi).le]

omit heq in
theorem eqOn_removeLoop (h : SlotsBeside D a (i + n)) (heq : Set.EqOn m m' Dᶜ) :
    Set.EqOn (removeLoop a n i m) (removeLoop a n i m') Dᶜ := by
  induction n generalizing i m m' with
  | zero => exact heq
  | succ n ih =>
    rw [removeLoop, removeLoop, slot_eq_of_beside heq h (show i + 1 ≤ i + (n + 1) by omega)]
    refine ih (fun j hj => h j (by omega)) ?_
    exact eqOn_store32_of_eqOn heq

theorem eqOn_orderedArrayRemove (h : SlotsBeside D a a.size) (hi : i ≤ a.size) :
    Set.EqOn (orderedArrayRemove m a i).1 (orderedArrayRemove m' a i).1 Dᶜ :=
  eqOn_removeLoop (h := fun j hj => h j (by omega)) heq

omit heq in
theorem eqOn_shiftLoop {tmp : ℕ} (h : SlotsBeside D a (i + n)) (heq : Set.EqOn m m' Dᶜ) :
    Set.EqOn (shiftLoop a n i tmp m) (shiftLoop a n i tmp m') Dᶜ := by
  induction n generalizing i tmp m m' with
  | zero => exact heq
  | succ n ih =>
    rw [shiftLoop, shiftLoop, slot_eq_of_beside heq h (show i + 1 ≤ i + (n + 1) by omega)]
    refine ih (fun j hj => h j (by omega)) ?_
    exact eqOn_store32_of_eqOn heq

omit heq in
/-- The search for the place depends on its comparisons only. -/
theorem insertPos_congr {less : Memory → ℕ → ℕ → Bool}
    (h : ∀ j < i + n, less m (slot m a j) item = less m' (slot m' a j) item) :
    insertPos less m a item n i = insertPos less m' a item n i := by
  induction n generalizing i with
  | zero => rfl
  | succ n ih =>
    rw [insertPos, insertPos, h i (by omega), ih fun j hj => h j (by omega)]

/-- **Insertions into two memories** do the same when the entries compare the same. -/
theorem orderedArrayInsert_related (h : SlotsBeside D a a.size)
    (hless : ∀ less, a.comparer = some less → ∀ j < a.size,
      less m (slot m a j) item = less m' (slot m' a j) item) :
    Related (fun r r' => r.2 = r'.2 ∧ Set.EqOn r.1 r'.1 Dᶜ) (orderedArrayInsert m a item)
      (orderedArrayInsert m' a item) := by
  rw [orderedArrayInsert, orderedArrayInsert]
  refine Related.bind (R := fun _ _ => True) (Related.refl _ fun _ _ => trivial)
    fun _ _ hsome _ _ => ?_
  obtain ⟨less, hcomparer⟩ := Option.isSome_iff_exists.mp (assert_eq_ok.mp hsome)
  have hplace : insertPos less m a item a.size 0 = insertPos less m' a item a.size 0 :=
    insertPos_congr fun j hj => hless less hcomparer j (by omega)
  have hle := insertPos_le less m' a item a.size 0
  simp only [hcomparer, Option.getD_some, hplace]
  split_ifs with hend
  · exact .ok ⟨rfl, eqOn_store32_of_eqOn heq⟩
  · refine .ok ⟨rfl, ?_⟩
    rw [slot_eq_of_beside heq h (by omega)]
    exact eqOn_shiftLoop (fun j hj => h j (by omega)) (eqOn_store32_of_eqOn heq)

end Index

/-! ### Steps of `free` -/

/-- Two states that differ in bytes of `D` only. -/
def Alike (D : Set ℕ) (k k' : Kernel) : Prop :=
  ∃ m, k' = { k with mem := m } ∧ Set.EqOn k.mem m Dᶜ

theorem Alike.setMem (h : Alike D k k') (heq : Set.EqOn m m' Dᶜ) :
    Alike D { k with mem := m } { k' with mem := m' } := by
  obtain ⟨-, rfl, -⟩ := h
  exact ⟨m', rfl, heq⟩

theorem Alike.setIndex (h : Alike D k k') (heq : Set.EqOn m m' Dᶜ) (a : OrderedArray) :
    Alike D (k.setIndex m a) (k'.setIndex m' a) := by
  obtain ⟨-, rfl, -⟩ := h
  exact ⟨m', rfl, heq⟩

/-- Memory is not looked at to free a frame. -/
theorem freeFrameAt_related (h : Alike D k k') (ref : Option PageRef) :
    Related (Alike D) (freeFrameAt k ref) (freeFrameAt k' ref) := by
  obtain ⟨m, rfl, heq⟩ := h
  cases ref with
  | none => exact .error _
  | some ref =>
    have hentry : Kernel.entry { k with mem := m } ref = k.entry ref := rfl
    simp only [freeFrameAt, hentry]
    cases k.entry ref with
    | none => exact .error _
    | some page => exact .ok ⟨m, rfl, heq⟩

theorem getPage_related (h : Alike D k k') (addr : ℕ) :
    Related (fun r r' => r.1 = r'.1 ∧ Alike D r.2 r'.2) (getPage alloc k addr false)
      (getPage alloc k' addr false) := by
  have halike := h
  obtain ⟨m, rfl, heq⟩ := h
  simp only [getPage, Bool.false_eq_true, if_false]
  split_ifs <;> exact .ok ⟨rfl, halike⟩

theorem contractLoop_related {newSize fuel : ℕ} (h : Alike D k k') :
    Related (Alike D) (contractLoop alloc newSize fuel i k)
      (contractLoop alloc newSize fuel i k') := by
  induction fuel generalizing i k k' with
  | zero => exact .error _
  | succ fuel ih =>
    have hstart : k'.heap.startAddr = k.heap.startAddr := by
      obtain ⟨-, rfl, -⟩ := h
      rfl
    rw [contractLoop, contractLoop, hstart]
    split_ifs
    · refine (getPage_related h _).bind ?_
      rintro ⟨page, k₁⟩ ⟨page', k₁'⟩ - - ⟨rfl, halike⟩
      exact (freeFrameAt_related halike page).bind fun k₂ k₂' _ _ halike' => ih halike'
    · exact .ok h

/-- Nor to contract the heap. -/
theorem contract_related {newSize : ℕ} (h : Alike D k k') :
    Related (fun r r' => r.1 = r'.1 ∧ Alike D r.2 r'.2) (contract alloc k newSize)
      (contract alloc k' newSize) := by
  have hheap : k'.heap = k.heap := by
    obtain ⟨-, rfl, -⟩ := h
    rfl
  rw [contract, contract, hheap]
  generalize 2 ^ 20 + 1 = fuel
  refine Related.bind (R := fun _ _ => True) (Related.refl _ fun _ _ => trivial) fun _ _ _ _ _ => ?_
  refine (contractLoop_related h).bind fun k₁ k₁' _ _ halike => .ok ⟨rfl, ?_⟩
  obtain ⟨m, rfl, heq⟩ := halike
  exact ⟨m, rfl, heq⟩

/-- **Merging with the hole behind** reads the header behind the block. -/
theorem unifyRight_related (h : Alike D k k')
    (hbehind : Beside D (wadd footer sizeofFooter) sizeofHeader)
    (hheader : Beside D header sizeofHeader)
    (hslots : SlotsBeside D k.heap.index k.heap.index.size) :
    Related (fun r r' => Alike D r.1 r'.1 ∧ r.2 = r'.2) (unifyRight k header footer)
      (unifyRight k' header footer) := by
  have halike := h
  obtain ⟨m, rfl, heq⟩ := h
  have hsize : Set.EqOn
      (setHeaderSize k.mem header (wadd (headerSize k.mem header)
        (headerSize k.mem (wadd footer sizeofFooter))))
      (setHeaderSize m header (wadd (headerSize m header)
        (headerSize m (wadd footer sizeofFooter)))) Dᶜ := by
    rw [headerSize_eq_of_beside heq hheader, headerSize_eq_of_beside heq hbehind]
    exact eqOn_setHeaderSize heq
  simp only [unifyRight, headerMagic_eq_of_beside heq hbehind,
    headerIsHole_eq_of_beside heq hbehind]
  split_ifs
  · rw [findHeaderIndex_eq_of_beside hsize hslots, headerSize_eq_of_beside hsize hbehind]
    split
    · exact .error _
    next i hfind =>
      have hi := (findHeaderIndex_eq_some hfind).1
      exact .ok ⟨halike.setIndex (eqOn_orderedArrayRemove hsize hslots hi.le) _, rfl⟩
  · exact .ok ⟨halike, rfl⟩

/-- **The end of `free`** reads the header of the hole. -/
theorem freeContract_related (h : Alike D k k') (hheader : Beside D header sizeofHeader)
    (hslots : SlotsBeside D k.heap.index k.heap.index.size) :
    Related (Alike D) (freeContract alloc k header footer)
      (freeContract alloc k' header footer) := by
  have hheap : k'.heap = k.heap := by
    obtain ⟨-, rfl, -⟩ := h
    rfl
  simp only [freeContract, hheap]
  split_ifs
  · refine (contract_related h).bind ?_
    rintro ⟨length, k₁⟩ ⟨length', k₁'⟩ hcontract - ⟨rfl, halike⟩
    obtain ⟨-, hmem₁, -, hheap₁⟩ := contract_spec hcontract
    have hslots₁ : SlotsBeside D k₁.heap.index k₁.heap.index.size := by
      rw [hheap₁]
      exact hslots
    have halike₁ := halike
    obtain ⟨m, rfl, heq⟩ := halike
    simp only [headerSize_eq_of_beside heq hheader]
    split_ifs
    · exact .ok (halike₁.setMem (eqOn_resizeBlock heq (wsub_lt _ _)))
    · rw [findHeaderIndex_eq_of_beside heq hslots₁]
      split
      · exact .ok halike₁
      next i hfind =>
        have hi := (findHeaderIndex_eq_some hfind).1
        exact .ok (halike₁.setIndex (eqOn_orderedArrayRemove heq hslots₁ hi.le) _)
  · exact .ok h

/-! ### The payloads of the other blocks -/

/-- The bytes between the headers and the footers of the blocks in use other than `B`. -/
def payloads (blocks : List Block) (B : Block) : Set ℕ :=
  {x | ∃ A ∈ blocks, A.tag = false ∧ A ≠ B ∧ A.addr + sizeofHeader ≤ x ∧ x + sizeofFooter < A.end_}

namespace WellFormed

variable {A : Block} (hw : WellFormed m heap blocks)

include hw

/-- What lies before the payload of the first block. -/
theorem beside_of_le (h : p + n ≤ heap.startAddr + sizeofHeader) :
    Beside (payloads blocks B) p n := by
  rintro x - hx' ⟨C, hC, -, -, hxC, -⟩
  have hstart := (hw.inv.of_mem hC).1
  omega

/-- What lies behind the heap. -/
theorem beside_of_end_le (h : heap.endAddr ≤ p) : Beside (payloads blocks B) p n := by
  rintro x hx - ⟨C, hC, -, -, -, hxC⟩
  have hend : C.end_ ≤ heap.endAddr := (hw.inv.of_mem hC).2.2
  omega

theorem beside_header (hA : A ∈ blocks) : Beside (payloads blocks B) A.addr sizeofHeader := by
  rintro x hx hx' ⟨C, hC, -, -, hxC, hxC'⟩
  have hmin := (hw.inv.of_mem hA).2.1
  have hA_end : A.end_ = A.addr + A.size := rfl
  simp only [minBlock] at hmin
  obtain rfl | hbeside := hw.inv.tiles.beside hA hC
  · omega
  · omega

theorem beside_footer (hA : A ∈ blocks) :
    Beside (payloads blocks B) (A.end_ - sizeofFooter) sizeofFooter := by
  rintro x hx hx' ⟨C, hC, -, -, hxC, hxC'⟩
  have hmin := (hw.inv.of_mem hA).2.1
  have hA_end : A.end_ = A.addr + A.size := rfl
  simp only [minBlock] at hmin
  obtain rfl | hbeside := hw.inv.tiles.beside hA hC
  · omega
  · omega

/-- What lies behind a block is a header or lies behind the heap. -/
theorem beside_end (hA : A ∈ blocks) : Beside (payloads blocks B) A.end_ sizeofHeader := by
  by_cases hend : A.end_ = heap.endAddr
  · exact hw.beside_of_end_le hend.ge
  · obtain ⟨C, hC, haddr⟩ := hw.exists_right hA hend
    rw [← haddr]
    exact hw.beside_header hC

theorem slotsBeside : SlotsBeside (payloads blocks B) heap.index (heap.index.size + 2) := by
  intro j hj
  have hstorage := hw.inv.bounds.storage
  have hmax := hw.inv.index.size_le
  exact hw.beside_of_le (by simp only [sizeofHeader]; omega)

/-- What an entry of the index refers to, or the word right behind the index. -/
theorem beside_slot (hB : B ∈ blocks) (hj : j ≤ heap.index.maxSize) :
    Beside (payloads blocks B) (slot m heap.index j) sizeofHeader := by
  have hbase := hw.start_lt
  obtain hlt | rfl := hj.lt_or_eq
  · rcases hw.inv.index.slot_cases hlt with hzero | hlisted
    · rw [hzero]
      exact hw.beside_of_le (by omega)
    · obtain ⟨H, hH, -, haddr⟩ := mem_holes.mp hlisted
      rw [← haddr]
      exact hw.beside_header hH
  · -- Behind the last slot lies the header of the first block.
    have haddr : heap.index.array + 4 * heap.index.maxSize = heap.startAddr := by
      rw [hw.layout.start, hw.layout.array, hw.layout.maxSize]
    obtain ⟨C, hC, hCaddr⟩ : ∃ C ∈ blocks, C.addr = heap.startAddr := by
      cases blocks with
      | nil => cases hB
      | cons C blocks => exact ⟨C, List.mem_cons_self, hw.inv.tiles.1⟩
    have hmagic : slot m heap.index heap.index.maxSize = heapMagic := by
      rw [slot, haddr, ← hCaddr]
      exact (hw.inv.headers C hC).magic
    rw [hmagic]
    exact hw.beside_of_le (by omega)

/-- A heap with the same index, headers and footers is as well-formed. -/
theorem congr (hindex : ∀ x, heap.index.array ≤ x → x < heap.startAddr → m' x = m x)
    (hheaders : ∀ A ∈ blocks, ∀ x, A.addr ≤ x → x < A.addr + sizeofHeader → m' x = m x)
    (hfooters : ∀ A ∈ blocks, ∀ x, A.end_ - sizeofFooter ≤ x → x < A.end_ → m' x = m x) :
    WellFormed m' heap blocks := by
  have hstorage := hw.inv.bounds.storage
  refine ⟨⟨hw.inv.bounds, hw.inv.index.congr fun x hx hx' => hindex x hx (by omega), hw.inv.tiles,
    fun A hA => (hw.inv.headers A hA).congr (hheaders A hA)⟩, hw.layout, fun A hA hends => ?_⟩
  have hmin := (hw.inv.of_mem hA).2.1
  have hA_end : A.end_ = A.addr + A.size := rfl
  simp only [minBlock] at hmin
  exact (hw.footers A hA hends).congr (by omega) (hfooters A hA)

/-- **A heap that differs in payloads only** is as well-formed. -/
theorem of_eqOn (heq : Set.EqOn m m' (payloads blocks B)ᶜ) : WellFormed m' heap blocks := by
  refine hw.congr (fun x hx hx' => ?_)
    (fun A hA x hx hx' => (heq (hw.beside_header hA x hx hx')).symm) fun A hA x hx hx' => ?_
  · have hlow : Beside (payloads blocks B) x 1 := hw.beside_of_le
      (by simp only [sizeofHeader]; omega)
    exact (heq (hlow x le_rfl (by omega))).symm
  · exact (heq (hw.beside_footer hA x hx (by omega))).symm

end WellFormed

/-! ### Two runs of `free` -/

theorem SlotsBeside.congr {a' : OrderedArray} (h : SlotsBeside D a n) (harray : a'.array = a.array)
    (hle : p ≤ n) : SlotsBeside D a' p := fun j hj => by
  rw [harray]
  exact h j (hj.trans hle)

/-- `free` behind `unify_left`, which has left a memory and a header. -/
def freeRest (alloc : Alloc) (k : Kernel) (left : Memory × ℕ) (origHeader footer : ℕ) :
    Except Stop Kernel := do
  let (k, footer) ← unifyRight { k with mem := left.1 } left.2 footer
  let k ← freeContract alloc k left.2 footer
  if left.2 = origHeader then do
    let (mem, index) ← orderedArrayInsert k.mem k.heap.index left.2
    .ok (k.setIndex mem index)
  else .ok k

theorem freeBlock_eq_freeRest (alloc : Alloc) (k : Kernel) (header footer : ℕ) :
    freeBlock alloc k header footer =
      freeRest alloc k (unifyLeft (setHeaderIsHole k.mem header true) header footer)
        header footer :=
  rfl

theorem unifyRight_index {k₁ : Kernel} {footer' : ℕ}
    (h : unifyRight k header footer = .ok (k₁, footer')) :
    k₁.heap.index.array = k.heap.index.array ∧ k₁.heap.index.size ≤ k.heap.index.size + 1 := by
  rcases unifyRight_cases h with ⟨-, mem, i, -, -, -, rfl, -⟩ | ⟨-, rfl, -⟩
  · exact ⟨rfl, le_rfl⟩
  · exact ⟨rfl, Nat.le_succ _⟩

namespace WellFormed

variable (hw : WellFormed k.mem k.heap blocks) (hB : B ∈ blocks)

include hw hB

/-- The entries among which the block is inserted lie beside the payloads. -/
theorem entries_beside {footer' : ℕ}
    (hunify : unifyRight { k with mem := setHeaderIsHole k.mem B.addr true } B.addr
      (B.end_ - sizeofFooter) = .ok (k₁, footer'))
    (hcontract : freeContract alloc k₁ B.addr footer' = .ok k₂) (htag : B.tag = false) :
    k₂.heap.index = k₁.heap.index ∧ k₁.heap.index.comparer = some headerComparer ∧
      ∀ j < k₂.heap.index.size,
        Beside (payloads blocks B) (slot k₂.mem k₂.heap.index j) sizeofHeader := by
  obtain ⟨-, hfooter', hle, hge, hstart₁, hend₁, hindex₁, hmem₁, hslots₁, -⟩ :=
    hw.unifyRight_quiet hB hunify
  have hunused := hw.slot_ne_used_of_slots hB htag hslots₁
  obtain ⟨-, -, hindex₂, -, hbefore⟩ :=
    hw.freeContract_quiet hB hfooter' hle hge hstart₁ hend₁ hmem₁ hunused hcontract
  have hstorage := hw.inv.bounds.storage
  have hmax := hw.inv.index.size_le
  have hnew : newEntries k.mem B.addr ≤ 2 := by
    rw [newEntries]
    split_ifs <;> omega
  refine ⟨hindex₂, by rw [hindex₁]; exact hw.layout.comparer, fun j hj => ?_⟩
  rw [hindex₂] at hj ⊢
  obtain ⟨l, hl, heq⟩ := hslots₁ j hj
  have hkept : slot k₂.mem k₁.heap.index j = slot k₁.mem k₁.heap.index j := by
    refine slot_congr fun x _ hx => hbefore x ?_
    rw [hindex₁] at hj hx
    simp only at hj hx
    omega
  rw [hkept, heq]
  exact hw.beside_slot hB hl

/-- Behind `unify_left`, `free` reads no payload of another block. -/
theorem freeRest_related {mem mem' : Memory} (htag : B.tag = false)
    (heq : Set.EqOn mem mem' (payloads blocks B)ᶜ)
    (hheader : Beside (payloads blocks B) header sizeofHeader)
    (hown : header = B.addr → mem = setHeaderIsHole k.mem B.addr true) :
    Related (Alike (payloads blocks B))
      (freeRest alloc k (mem, header) B.addr (B.end_ - sizeofFooter))
      (freeRest alloc { k with mem := m } (mem', header) B.addr (B.end_ - sizeofFooter)) := by
  have hslots := hw.slotsBeside (B := B)
  have hnext : wadd (B.end_ - sizeofFooter) sizeofFooter = B.end_ := by
    obtain ⟨-, hsize, hend⟩ := hw.inv.of_mem hB
    have hlt := hw.inv.bounds.end_lt
    have hB_end : B.end_ = B.addr + B.size := rfl
    simp only [minBlock] at hsize
    rw [wadd_eq (by omega)]
    omega
  have hbehind : Beside (payloads blocks B) (wadd (B.end_ - sizeofFooter) sizeofFooter)
      sizeofHeader := by
    rw [hnext]
    exact hw.beside_end hB
  have halike : Alike (payloads blocks B) { k with mem } { k with mem := mem' } := ⟨mem', rfl, heq⟩
  rw [freeRest, freeRest]
  refine (unifyRight_related halike hbehind hheader (hslots.congr rfl
    (by simp only; omega))).bind ?_
  rintro ⟨k₁, footer'⟩ ⟨k₁', footer''⟩ hunify - ⟨halike₁, rfl⟩
  obtain ⟨harray₁, hsize₁⟩ := unifyRight_index hunify
  simp only at harray₁ hsize₁
  have hslots₁ : SlotsBeside (payloads blocks B) k₁.heap.index k₁.heap.index.size :=
    hslots.congr harray₁ (by omega)
  refine (freeContract_related halike₁ hheader hslots₁).bind ?_
  intro k₂ k₂' hcontract _ halike₂
  split_ifs with hsame
  · subst hsame
    rw [hown rfl] at hunify
    obtain ⟨hindex₂, hcomparer, hentries⟩ := hw.entries_beside hB hunify hcontract htag
    have halike₃ := halike₂
    obtain ⟨mem₂, rfl, heq₂⟩ := halike₂
    have hslots₂ : SlotsBeside (payloads blocks B) k₂.heap.index k₂.heap.index.size :=
      hslots.congr (by rw [hindex₂, harray₁]) (by rw [hindex₂]; omega)
    refine (orderedArrayInsert_related heq₂ hslots₂ fun less hless j hj => ?_).bind ?_
    · rw [hindex₂, hcomparer] at hless
      obtain rfl := Option.some.inj hless
      simp only [headerComparer]
      rw [← slot_eq_of_beside heq₂ hslots₂ hj.le, headerSize_eq_of_beside heq₂ (hentries j hj),
        headerSize_eq_of_beside heq₂ hheader]
    · rintro ⟨mem₃, index⟩ ⟨mem₃', index'⟩ - - ⟨rfl, heq₃⟩
      exact .ok (halike₃.setIndex heq₃ index)
  · exact .ok halike₂

/-- What `free` does behind its checks, when `unify_left` finds the same before the block. -/
theorem freeBlock_related (htag : B.tag = false) (heq : Set.EqOn k.mem m (payloads blocks B)ᶜ)
    (hw' : WellFormed m k.heap blocks) (hleft : IsLeftFooter k.mem B.addr ↔ IsLeftFooter m B.addr) :
    Related (Alike (payloads blocks B)) (freeBlock alloc k B.addr (B.end_ - sizeofFooter))
      (freeBlock alloc { k with mem := m } B.addr (B.end_ - sizeofFooter)) := by
  have hw₂ : WellFormed { k with mem := m }.mem { k with mem := m }.heap blocks := hw'
  have hbase := hw.start_lt
  have hstart := (hw.inv.of_mem hB).1
  have hheader : Beside (payloads blocks B) B.addr sizeofHeader := hw.beside_header hB
  rw [freeBlock_eq_freeRest, freeBlock_eq_freeRest]
  by_cases hmark : IsLeftFooter k.mem B.addr
  · -- The magic number is taken for a header in both.
    have hmagic : Beside (payloads blocks B) heapMagic sizeofHeader := hw.beside_of_le (by omega)
    have hleftSize : leftSize k.mem B = leftSize m B := by
      rw [leftSize, leftSize, headerSize_eq_of_beside heq hmagic]
    have hmem : Set.EqOn (setHeaderSize (leftMem k.mem B) heapMagic (leftSize k.mem B))
        (setHeaderSize (leftMem m B) heapMagic (leftSize m B)) (payloads blocks B)ᶜ := by
      rw [hleftSize]
      exact eqOn_setHeaderSize (eqOn_setFooterHeader (eqOn_setHeaderIsHole heq true))
    rw [hw.unifyLeft_magic hB hmark, hw₂.unifyLeft_magic hB (hleft.mp hmark)]
    exact hw.freeRest_related hB htag hmem hmagic fun hne => by omega
  · have hmark' : ¬IsLeftFooter m B.addr := fun h => hmark (hleft.mpr h)
    have hunmarked : ¬IsLeftFooter (setHeaderIsHole k.mem B.addr true) B.addr := fun h =>
      hmark ((hw.isLeftFooter_mark hB).mp h)
    have hunmarked' : ¬IsLeftFooter (setHeaderIsHole m B.addr true) B.addr := fun h =>
      hmark' ((hw'.isLeftFooter_mark hB).mp h)
    rw [unifyLeft_of_not hunmarked, unifyLeft_of_not hunmarked']
    exact hw.freeRest_related hB htag (eqOn_setHeaderIsHole heq true) hheader fun _ => rfl

/-- **Two runs of `free`** on heaps that differ in payloads of other blocks only do the same, when
`unify_left` finds the same before the block. -/
theorem free_related (htag : B.tag = false) (heq : Set.EqOn k.mem m (payloads blocks B)ᶜ)
    (hleft : IsLeftFooter k.mem B.addr ↔ IsLeftFooter m B.addr) :
    Related (Alike (payloads blocks B)) (free alloc k (B.addr + sizeofHeader))
      (free alloc { k with mem := m } (B.addr + sizeofHeader)) := by
  have hw' : WellFormed m k.heap blocks := hw.of_eqOn heq
  obtain ⟨hstart, hsize, hend⟩ := hw.inv.of_mem hB
  have hlt := hw.inv.bounds.end_lt
  have hB_end : B.addr + B.size = B.end_ := rfl
  have hheader : Beside (payloads blocks B) B.addr sizeofHeader := hw.beside_header hB
  have hfooter : Beside (payloads blocks B) (B.end_ - sizeofFooter) sizeofFooter :=
    hw.beside_footer hB
  simp only [minBlock, sizeofHeader, sizeofFooter] at hsize
  have hassoc : ∀ {mem : Memory}, WellFormed mem k.heap blocks →
      assocFooter mem B.addr = B.end_ - sizeofFooter := by
    intro mem hmem
    rw [assocFooter, (hmem.inv.headers B hB).size, wadd_eq (by omega), hB_end, sizeofFooter,
      wsub_eq (by omega) (by omega)]
  have hptr : headerFor (B.addr + sizeofHeader) = B.addr :=
    headerFor_eq (by simp only [sizeofHeader]; omega)
  have hchecks : freeChecks m B.addr (B.end_ - sizeofFooter) =
      freeChecks k.mem B.addr (B.end_ - sizeofFooter) := by
    rw [freeChecks, freeChecks, footerHeader_eq_of_beside heq hfooter,
      headerMagic_eq_of_beside heq hheader, footerMagic_eq_of_beside heq hfooter]
  have hne : B.addr + sizeofHeader ≠ 0 := Nat.succ_ne_zero _
  rw [free, free, if_neg hne, if_neg hne]
  simp only [hptr, hassoc hw, hassoc hw', hchecks]
  refine Related.bind (R := fun _ _ => True) (Related.refl _ fun _ _ => trivial) fun _ _ _ _ _ => ?_
  exact hw.freeBlock_related hB htag heq hw' hleft

end WellFormed

/-! ### Equal results -/

/-- **The results are the same**: the index, the end of the heap, and all bytes but those that
belong to the users of the other blocks. -/
structure SameResult (blocks : List Block) (B : Block) (k₁ k₂ : Kernel) : Prop where
  index : k₁.heap.index = k₂.heap.index
  endAddr : k₁.heap.endAddr = k₂.heap.endAddr
  mem : Set.EqOn k₁.mem k₂.mem (payloads blocks B)ᶜ

theorem SameResult.symm (h : SameResult blocks B k₁ k₂) : SameResult blocks B k₂ k₁ :=
  ⟨h.index.symm, h.endAddr.symm, h.mem.symm⟩

/-- When `unify_left` takes the magic number for a header in one heap only, the block is listed in
the other only, or the one heap ends before its start. -/
theorem WellFormed.not_sameResult {k' : Kernel} (hw : WellFormed k.mem k.heap blocks)
    (hw' : WellFormed k'.mem k'.heap blocks) (hB : B ∈ blocks) (htag : B.tag = false)
    (hheap : k'.heap = k.heap) (hleft : IsLeftFooter k.mem B.addr)
    (hleft' : ¬IsLeftFooter k'.mem B.addr) (h₁ : free alloc k (B.addr + sizeofHeader) = .ok k₁)
    (h₂ : free alloc k' (B.addr + sizeofHeader) = .ok k₂) : ¬SameResult blocks B k₁ k₂ := by
  intro hsame
  have hreleased := hw.free_effect_left hB hleft htag h₁
  have hreleased' := hw'.free_effect hB htag hleft' h₂
  obtain ⟨hle, hmin, hle'⟩ := hw'.contractedEnd_bounds hB
  by_cases hatEnd : AtEnd k.mem k.heap B.addr
  · have hend := hreleased.atEnd hatEnd
    have hend' := hreleased'.end_eq
    have htiles := hw'.inv.tiles.le
    rw [← hsame.endAddr, releasedEnd] at hend'
    rw [hheap] at hend' hmin htiles
    split_ifs at hend' <;> omega
  · have hindex := hreleased.index_eq hatEnd
    have hnew : newEntries k.mem B.addr ≤ 2 := by
      rw [newEntries]
      split_ifs <;> omega
    have helems : elems k₁.mem k₁.heap.index = elems k₂.mem k₂.heap.index := by
      rw [← hsame.index]
      refine List.map_congr_left fun j hj => ?_
      have hj := List.mem_range.mp hj
      have hslots : SlotsBeside (payloads blocks B) k₁.heap.index k₁.heap.index.size :=
        hw.slotsBeside.congr (by rw [hindex]) (by rw [hindex]; simp only; omega)
      exact slot_eq_of_beside hsame.mem hslots hj.le
    exact hreleased.unlisted hatEnd (helems ▸ hreleased'.listed)

/-- **When a release does not depend on its users' data.** Two well-formed heaps that differ in
payloads of other blocks in use only are the same after the block has been released, but for these
payloads, exactly when what lies before the block looks like the footer of a hole in both heaps or
in neither. -/
theorem sameResult_iff (hw : WellFormed k.mem k.heap blocks) (hB : B ∈ blocks)
    (htag : B.tag = false)
    (heq : Set.EqOn k.mem m (payloads blocks B)ᶜ)
    (h₁ : free alloc k (B.addr + sizeofHeader) = .ok k₁)
    (h₂ : free alloc { k with mem := m } (B.addr + sizeofHeader) = .ok k₂) :
    SameResult blocks B k₁ k₂ ↔ (IsLeftFooter k.mem B.addr ↔ IsLeftFooter m B.addr) := by
  have hw' : WellFormed { k with mem := m }.mem { k with mem := m }.heap blocks := hw.of_eqOn heq
  constructor
  · intro hsame
    by_cases hleft : IsLeftFooter k.mem B.addr <;> by_cases hleft' : IsLeftFooter m B.addr
    · exact iff_of_true hleft hleft'
    · exact absurd hsame (hw.not_sameResult hw' hB htag rfl hleft hleft' h₁ h₂)
    · exact absurd hsame.symm (hw'.not_sameResult hw hB htag rfl hleft' hleft h₂ h₁)
    · exact iff_of_false hleft hleft'
  · intro hleft
    have hrelated : Related (Alike (payloads blocks B)) (free alloc k (B.addr + sizeofHeader))
        (free alloc { k with mem := m } (B.addr + sizeofHeader)) :=
      hw.free_related hB htag heq hleft
    rw [h₁, h₂] at hrelated
    obtain ⟨mem, rfl, hmem⟩ := hrelated.of_ok
    exact ⟨rfl, rfl, hmem⟩

/-- The last word of the first block's payload. -/
def lastWord : ℕ := firstHole.addr + 108

theorem eqOn_store_lastWord (m : Memory) (v : ℕ) :
    Set.EqOn m (store32 m lastWord v) (payloads twoBlocks ⟨firstHole.addr + 120, 120, false⟩)ᶜ := by
  intro x hx
  refine (store32_apply_of_notMem ?_).symm
  by_contra hin
  have hne : (⟨firstHole.addr, 120, false⟩ : Block) ≠ ⟨firstHole.addr + 120, 120, false⟩ := fun h =>
    absurd (congrArg Tile.addr h) (by decide)
  refine hx ⟨⟨firstHole.addr, 120, false⟩, List.mem_cons_self, rfl, hne, ?_, ?_⟩
  · simp only [lastWord, sizeofHeader] at *
    omega
  · simp only [lastWord, sizeofFooter, Tile.end_] at *
    omega

/-- The second of two blocks is released; the last word of the first one is zero or seven. -/
theorem sameResult_two_blocks : ∃ k m B k₁ k₂, WellFormed k.mem k.heap twoBlocks ∧ B ∈ twoBlocks ∧
    Set.EqOn k.mem m (payloads twoBlocks B)ᶜ ∧ k.mem ≠ m ∧
    free (Mem.alloc 0) k (B.addr + sizeofHeader) = .ok k₁ ∧
    free (Mem.alloc 0) { k with mem := m } (B.addr + sizeofHeader) = .ok k₂ ∧
    SameResult twoBlocks B k₁ k₂ := by
  have hrun : returns (sampleRun [(100, false), (100, false)]) (fun k =>
      decide (LaidOut k.mem k.heap twoBlocks) &&
      (decide (¬IsLeftFooter k.mem (firstHole.addr + 120) ∧
        ¬IsLeftFooter (store32 k.mem lastWord 7) (firstHole.addr + 120) ∧
        k.mem lastWord ≠ store32 k.mem lastWord 7 lastWord) &&
      (returns (free (Mem.alloc 0) k (firstHole.addr + 120 + sizeofHeader)) (fun _ => true) &&
        returns (free (Mem.alloc 0) { k with mem := store32 k.mem lastWord 7 }
          (firstHole.addr + 120 + sizeofHeader)) fun _ => true))) = true := by
    decide +kernel
  obtain ⟨k, hk, hrun⟩ := exists_of_returns hrun
  simp only [Bool.and_eq_true, decide_eq_true_eq] at hrun
  obtain ⟨hlaid, ⟨hleft, hleft', hdiffer⟩, hfree, hfree'⟩ := hrun
  obtain ⟨k₁, hfree, -⟩ := exists_of_returns hfree
  obtain ⟨k₂, hfree', -⟩ := exists_of_returns hfree'
  have hw := (reached_of_sampleRun hk).wellFormed hlaid
  have hB : (⟨firstHole.addr + 120, 120, false⟩ : Block) ∈ twoBlocks :=
    List.mem_cons_of_mem _ List.mem_cons_self
  exact ⟨k, _, _, k₁, k₂, hw, hB, eqOn_store_lastWord k.mem 7, fun heq => hdiffer (congrFun heq _),
    hfree, hfree', (sameResult_iff hw hB rfl (eqOn_store_lastWord k.mem 7) hfree hfree').mpr
      (iff_of_false hleft hleft')⟩

/-- **The last word of a payload is taken for the magic number of a footer**, when the byte behind
the magic number is not zero. -/
theorem payload_steers_free : ∃ k m B k₁ k₂, WellFormed k.mem k.heap twoBlocks ∧
    WellFormed m k.heap twoBlocks ∧ B ∈ twoBlocks ∧ B.tag = false ∧
    Set.EqOn k.mem m (payloads twoBlocks B)ᶜ ∧
    free (Mem.alloc 0) k (B.addr + sizeofHeader) = .ok k₁ ∧
    free (Mem.alloc 0) { k with mem := m } (B.addr + sizeofHeader) = .ok k₂ ∧
    ¬SameResult twoBlocks B k₁ k₂ := by
  have hrun : returns (sampleRun [(100, false), (100, false)]) (fun k =>
      decide (LaidOut k.mem k.heap twoBlocks) &&
      returns (free (Mem.alloc 0) { k with mem := setHeaderIsHole k.mem heapMagic true }
          (firstHole.addr + 120 + sizeofHeader)) fun k₁ =>
        returns (free (Mem.alloc 0)
          { k with mem := store32 (setHeaderIsHole k.mem heapMagic true) lastWord heapMagic }
          (firstHole.addr + 120 + sizeofHeader)) fun k₂ =>
            decide (k₁.heap.index.size ≠ k₂.heap.index.size)) = true := by
    decide +kernel
  obtain ⟨k, hk, hrun⟩ := exists_of_returns hrun
  simp only [Bool.and_eq_true, decide_eq_true_eq] at hrun
  obtain ⟨hlaid, hrun⟩ := hrun
  obtain ⟨k₁, hfree, hrun⟩ := exists_of_returns hrun
  obtain ⟨k₂, hfree', hdiffer⟩ := exists_of_returns hrun
  have hw := (reached_of_sampleRun hk).wellFormed hlaid
  have hbase := hw.start_lt
  have hstart := hw.layout.start
  have harray := hw.layout.array
  have hlow := heapMagic_add_lt_heapStart
  simp only [sizeofHeader] at hlow
  have hsame : ∀ x, heapStart ≤ x → setHeaderIsHole k.mem heapMagic true x = k.mem x := fun x hx =>
    setHeaderIsHole_apply_of_ne true (by omega)
  have hw₁ : WellFormed (setHeaderIsHole k.mem heapMagic true) k.heap twoBlocks := by
    refine hw.congr (fun x hx _ => hsame x (by omega)) (fun A hA x hx _ => hsame x ?_)
      fun A hA x hx _ => hsame x ?_
    · have hA := (hw.inv.of_mem hA).1
      omega
    · obtain ⟨hA, hmin, -⟩ := hw.inv.of_mem hA
      simp only [minBlock, Tile.end_] at hmin hx
      omega
  have hB : (⟨firstHole.addr + 120, 120, false⟩ : Block) ∈ twoBlocks :=
    List.mem_cons_of_mem _ List.mem_cons_self
  have heq := eqOn_store_lastWord (setHeaderIsHole k.mem heapMagic true) heapMagic
  exact ⟨{ k with mem := setHeaderIsHole k.mem heapMagic true }, _, _, k₁, k₂, hw₁,
    hw₁.of_eqOn heq, hB, rfl, heq, hfree, hfree',
    fun hresult => of_decide_eq_true hdiffer (by rw [hresult.index])⟩

end Studix.Mem
