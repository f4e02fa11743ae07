import Studix.Base.Tiling
import Studix.Mem.Alloc

/-!
# The invariant of the heap

The blocks of the heap tile the memory between its bounds. Each has a header that says how long it
is and whether it is a hole, and the index lists the headers of the holes. `alloc` and `free` take
one block out of this order, rewrite it and put the pieces back: `Held` is the heap while the memory
from `a` to `a + n` is in hand, so that its contents do not matter and the index does not list it.

## Main definitions

* `Block`, `HeaderAt`, `FooterAt`, `holes`.
* `HeapInv`: the invariant.
* `Held`: the invariant with one block in hand.
* `ExactHeap`: the blocks and an index without null entries, wherever the heap lies.

## Main results

* `HeapInv.hold`, `HeapInv.take`, `HeapInv.leaveGap`, `HeapInv.grow`: how a block comes in hand.
* `Held.cutRest`, `Held.mergeRight`, `Held.shrink`: what is done with it.
* `Held.putBlock`, `Held.putHole`, `Held.joinLeft`: how it is put back.
-/

namespace Studix.Mem

/-- A block of the heap; the tag says whether it is a hole. -/
abbrev Block := Tile Bool

/-- The least size of a block: its header and its footer. -/
def minBlock : ℕ := sizeofHeader + sizeofFooter

/-! ### Headers in memory -/

/-- The header of a block. -/
structure HeaderAt (m : Memory) (B : Block) : Prop where
  magic : headerMagic m B.addr = heapMagic
  isHole : headerIsHole m B.addr = B.tag
  size : headerSize m B.addr = B.size

theorem headerAt_iff {m : Memory} {B : Block} : HeaderAt m B ↔
    headerMagic m B.addr = heapMagic ∧ headerIsHole m B.addr = B.tag ∧
      headerSize m B.addr = B.size :=
  ⟨fun h => ⟨h.magic, h.isHole, h.size⟩, fun h => ⟨h.1, h.2.1, h.2.2⟩⟩

instance (m : Memory) (B : Block) : Decidable (HeaderAt m B) :=
  decidable_of_iff _ headerAt_iff.symm

section HeaderAt

variable {m m' : Memory} {a n n' : ℕ} {t t' : Bool} {B : Block}

theorem HeaderAt.congr (h : HeaderAt m B)
    (hframe : ∀ x, B.addr ≤ x → x < B.addr + sizeofHeader → m' x = m x) : HeaderAt m' B := by
  simp only [sizeofHeader] at hframe
  refine ⟨?_, ?_, ?_⟩
  · rw [headerMagic_congr fun x hx hx' => hframe x (by omega) (by omega), h.magic]
  · rw [headerIsHole, hframe _ (by omega) (by omega), ← headerIsHole, h.isHole]
  · rw [headerSize_congr fun x hx hx' => hframe x (by omega) (by omega), h.size]

theorem headerAt_makeHeader (m : Memory) (a : ℕ) (t : Bool) (h : n < 2 ^ 32) :
    HeaderAt (makeHeader m a n t) ⟨a, n, t⟩ :=
  ⟨headerMagic_makeHeader _ _ _ _, headerIsHole_makeHeader _ _ _ _, headerSize_makeHeader _ h⟩

theorem HeaderAt.setHeaderSize (h : HeaderAt m ⟨a, n, t⟩) (hlt : n' < 2 ^ 32) :
    HeaderAt (setHeaderSize m a n') ⟨a, n', t⟩ where
  magic := (headerMagic_congr (a := a) fun _ _ hx =>
    setHeaderSize_apply_of_notMem (by omega)).trans h.magic
  isHole := by
    simp only [headerIsHole]
    rw [setHeaderSize_apply_of_notMem (by omega)]
    exact h.isHole
  size := headerSize_setHeaderSize hlt

theorem HeaderAt.setHeaderIsHole (h : HeaderAt m ⟨a, n, t⟩) :
    HeaderAt (setHeaderIsHole m a t') ⟨a, n, t'⟩ where
  magic := (headerMagic_congr (a := a) fun _ _ hx =>
    setHeaderIsHole_apply_of_ne _ (by omega)).trans h.magic
  isHole := headerIsHole_setHeaderIsHole _
  size := (headerSize_congr (a := a) fun _ hx _ =>
    setHeaderIsHole_apply_of_ne _ (by omega)).trans h.size

/-- A footer behind the header leaves it alone. -/
theorem HeaderAt.makeFooter {loc header : ℕ} (h : HeaderAt m B)
    (hloc : B.addr + sizeofHeader ≤ loc) : HeaderAt (makeFooter m loc header) B :=
  h.congr fun _ _ hx => makeFooter_apply_of_notMem (.inl (by omega))

end HeaderAt

/-! ### Footers in memory -/

/-- The footer of a block, which leads back to its header. -/
structure FooterAt (m : Memory) (B : Block) : Prop where
  magic : footerMagic m (B.end_ - sizeofFooter) = heapMagic
  header : footerHeader m (B.end_ - sizeofFooter) = B.addr

theorem footerAt_iff {m : Memory} {B : Block} : FooterAt m B ↔
    footerMagic m (B.end_ - sizeofFooter) = heapMagic ∧
      footerHeader m (B.end_ - sizeofFooter) = B.addr :=
  ⟨fun h => ⟨h.magic, h.header⟩, fun h => ⟨h.1, h.2⟩⟩

instance (m : Memory) (B : Block) : Decidable (FooterAt m B) :=
  decidable_of_iff _ footerAt_iff.symm

theorem FooterAt.congr {m m' : Memory} {B : Block} (h : FooterAt m B) (hend : sizeofFooter ≤ B.end_)
    (hframe : ∀ x, B.end_ - sizeofFooter ≤ x → x < B.end_ → m' x = m x) : FooterAt m' B := by
  refine ⟨?_, ?_⟩
  · rw [footerMagic_congr fun x hx hx' => hframe x hx ?_, h.magic]
    simp only [sizeofFooter] at hend hx'
    omega
  · rw [footerHeader_congr fun x hx hx' => hframe x (by omega) ?_, h.header]
    simp only [sizeofFooter] at hend hx'
    omega

theorem footerAt_makeFooter (m : Memory) (B : Block) (h : B.addr < 2 ^ 32) :
    FooterAt (makeFooter m (B.end_ - sizeofFooter) B.addr) B :=
  ⟨footerMagic_makeFooter _ _ _, footerHeader_makeFooter h⟩

/-! ### The invariant -/

/-- The headers of the holes. -/
def holes (blocks : List Block) : List ℕ := (blocks.filter (·.tag)).map Tile.addr

@[simp] theorem holes_nil : holes [] = [] := rfl

@[simp] theorem holes_append (xs ys : List Block) : holes (xs ++ ys) = holes xs ++ holes ys := by
  simp [holes]

@[simp] theorem holes_cons (B : Block) (xs : List Block) :
    holes (B :: xs) = if B.tag then B.addr :: holes xs else holes xs := by
  cases h : B.tag <;> simp [holes, h]

theorem mem_holes {blocks : List Block} {h : ℕ} :
    h ∈ holes blocks ↔ ∃ B ∈ blocks, B.tag = true ∧ B.addr = h := by
  simp [holes, and_assoc]

/-- The bounds of the heap: whole pages, not below the least size, behind the storage of the
index. -/
structure HeapBounds (heap : Heap) : Prop where
  storage : heap.index.array + 4 * heap.index.maxSize ≤ heap.startAddr
  start_pos : 0 < heap.startAddr
  pages : (heap.endAddr - heap.startAddr) % pageSize = 0
  min_le : heap.startAddr + heapMinSize ≤ heap.endAddr
  end_lt : heap.endAddr < 2 ^ 32

/-- **The invariant of the heap.** -/
structure HeapInv (m : Memory) (heap : Heap) (blocks : List Block) : Prop where
  bounds : HeapBounds heap
  index : Lists m heap.index (holes blocks)
  tiles : Tiles minBlock heap.startAddr heap.endAddr blocks
  headers : ∀ B ∈ blocks, HeaderAt m B

/-- The heap while the memory from `a` to `a + n` is in hand. -/
structure Held (m : Memory) (heap : Heap) (xs : List Block) (a n : ℕ) (ys : List Block) : Prop where
  bounds : HeapBounds heap
  index : Lists m heap.index (holes (xs ++ ys))
  left : Tiles minBlock heap.startAddr a xs
  size : minBlock ≤ n
  right : Tiles minBlock (a + n) heap.endAddr ys
  headers : ∀ B ∈ xs ++ ys, HeaderAt m B

/-- The memory of the heap and its index is the same but for `a` to `b`. -/
def SameBeside (heap : Heap) (a b : ℕ) (m m' : Memory) : Prop :=
  ∀ x, heap.index.array ≤ x → x < heap.endAddr → x < a ∨ b ≤ x → m' x = m x

theorem SameBeside.trans {heap : Heap} {a b : ℕ} {m m' m'' : Memory}
    (h : SameBeside heap a b m m') (h' : SameBeside heap a b m' m'') : SameBeside heap a b m m'' :=
  fun x hx hlt hout => (h' x hx hlt hout).trans (h x hx hlt hout)

theorem SameBeside.mono {heap : Heap} {a b a' b' : ℕ} {m m' : Memory}
    (h : SameBeside heap a b m m') (ha : a' ≤ a) (hb : b ≤ b') : SameBeside heap a' b' m m' :=
  fun x hx hlt hout => h x hx hlt (by omega)

theorem HeapBounds.setIndex {heap : Heap} {index : OrderedArray} (h : HeapBounds heap)
    (harray : index.array = heap.index.array) (hmax : index.maxSize = heap.index.maxSize) :
    HeapBounds { heap with index } :=
  ⟨by simpa only [harray, hmax] using h.storage, h.start_pos, h.pages, h.min_le, h.end_lt⟩

variable {m m' : Memory} {heap : Heap} {index : OrderedArray} {xs ys blocks : List Block}
  {a n r i : ℕ} {t : Bool} {B U : Block}

theorem HeapInv.of_mem (h : HeapInv m heap blocks) (hB : B ∈ blocks) :
    heap.startAddr ≤ B.addr ∧ minBlock ≤ B.size ∧ B.addr + B.size ≤ heap.endAddr :=
  h.tiles.bounds hB

/-- An entry of the index that is not null is the header of a hole. -/
theorem HeapInv.exists_hole (h : HeapInv m heap blocks) (hi : i < heap.index.size)
    (hne : slot m heap.index i ≠ 0) : ∃ B ∈ blocks, B.tag = true ∧ B.addr = slot m heap.index i :=
  mem_holes.mp (h.index.slot_mem hi hne)

/-- **The headers determine the blocks.** -/
theorem tiles_unique {start end_ : ℕ} (hxs : Tiles minBlock start end_ xs)
    (hys : Tiles minBlock start end_ ys) (hx : ∀ B ∈ xs, HeaderAt m B)
    (hy : ∀ B ∈ ys, HeaderAt m B) : xs = ys := by
  have hmin : 0 < minBlock := by decide
  induction xs generalizing ys start with
  | nil =>
    obtain rfl := tiles_nil.mp hxs
    exact (hys.eq_nil hmin).symm
  | cons B xs ih =>
    cases ys with
    | nil =>
      obtain rfl := tiles_nil.mp hys
      exact hxs.eq_nil hmin
    | cons C ys =>
      have hB := hx B List.mem_cons_self
      have hC := hy C List.mem_cons_self
      have haddr : B.addr = C.addr := hxs.1.trans hys.1.symm
      have hBC : B = C := by
        refine Tile.ext haddr ?_ ?_
        · rw [← hB.size, ← hC.size, haddr]
        · rw [← hB.isHole, ← hC.isHole, haddr]
      subst hBC
      rw [ih hxs.2.2 hys.2.2 (fun A hA => hx A (List.mem_cons_of_mem B hA)) fun A hA =>
        hy A (List.mem_cons_of_mem B hA)]

/-- The payload of a block: what lies between its header and its footer. -/
def Payload (B : Block) (x : ℕ) : Prop := B.addr + sizeofHeader ≤ x ∧ x + sizeofFooter < B.end_

/-- **The payloads of the blocks in use may be overwritten.** -/
theorem HeapInv.congr (h : HeapInv m heap blocks)
    (hsame : ∀ x, heap.index.array ≤ x → x < heap.endAddr →
      (∀ B ∈ blocks, B.tag = false → ¬Payload B x) → m' x = m x) : HeapInv m' heap blocks := by
  have hstorage := h.bounds.storage
  have hmin := h.bounds.min_le
  refine { h with index := h.index.congr fun x hx hx' => ?_, headers := fun A hA => ?_ }
  · refine hsame x hx (by omega) fun B hB _ hpayload => ?_
    have hB := (h.of_mem hB).1
    simp only [Payload] at hpayload
    omega
  · obtain ⟨h₁, h₂, h₃⟩ := h.of_mem hA
    simp only [minBlock, sizeofHeader, sizeofFooter] at h₂
    refine (h.headers A hA).congr fun x hx hx' => ?_
    simp only [sizeofHeader] at hx'
    refine hsame x (by omega) (by omega) fun B hB _ hpayload => ?_
    simp only [Payload, sizeofHeader, sizeofFooter] at hpayload
    obtain rfl | hbeside := h.tiles.beside hA hB
    · omega
    · simp only [Tile.end_] at hbeside hpayload
      omega

/-- An insertion into the index changes the memory before the heap only. -/
theorem HeapBounds.insert {hs : List ℕ} {item : ℕ} (hb : HeapBounds heap)
    (hl : Lists m heap.index hs) (hroom : heap.index.size + 1 ≤ heap.index.maxSize)
    (hitem : heap.startAddr ≤ item) (hlt : item < heap.endAddr)
    (hinsert : orderedArrayInsert m heap.index item = .ok (m', index)) :
    HeapBounds { heap with index } ∧ Lists m' index (item :: hs) ∧
      ∀ x, heap.startAddr ≤ x → m' x = m x := by
  have hpos := hb.start_pos
  have hstorage := hb.storage
  obtain ⟨rfl, hl', hframe⟩ :=
    hl.insert hroom (hlt.trans hb.end_lt) (hpos.trans_le hitem).ne' hinsert
  exact ⟨hb.setIndex rfl rfl, hl', fun x hx => hframe x (by omega)⟩

/-- A removal from the index changes the memory before the heap only. -/
theorem HeapBounds.remove {hs hs' : List ℕ} (hb : HeapBounds heap) (hl : Lists m heap.index hs)
    (hroom : heap.index.size + 1 ≤ heap.index.maxSize) (hi : i < heap.index.size)
    (hitem : heap.startAddr ≤ slot m heap.index i)
    (hperm : hs.Perm (slot m heap.index i :: hs')) :
    HeapBounds { heap with index := (orderedArrayRemove m heap.index i).2 } ∧
      Lists (orderedArrayRemove m heap.index i).1 (orderedArrayRemove m heap.index i).2 hs' ∧
      ∀ x, heap.startAddr ≤ x → (orderedArrayRemove m heap.index i).1 x = m x := by
  have hpos := hb.start_pos
  have hstorage := hb.storage
  obtain ⟨hl', hframe⟩ := hl.remove hroom hi (hpos.trans_le hitem).ne' hperm
  exact ⟨hb.setIndex rfl rfl, hl', fun x hx => hframe x (by omega)⟩

/-- The headers of blocks do not depend on the memory before the heap. -/
theorem HeaderAt.of_start_le (h : HeaderAt m B) (hB : heap.startAddr ≤ B.addr)
    (hsame : ∀ x, heap.startAddr ≤ x → m' x = m x) : HeaderAt m' B :=
  h.congr fun x hx _ => hsame x (hB.trans hx)

/-- The header of a block beside the memory that changes stays. -/
theorem SameBeside.headerAt {b : ℕ} (hsame : SameBeside heap a b m m') (hb : HeapBounds heap)
    (h : HeaderAt m B) (hstart : heap.startAddr ≤ B.addr) (hsize : minBlock ≤ B.size)
    (hend : B.end_ ≤ heap.endAddr) (hbeside : B.end_ ≤ a ∨ b ≤ B.addr) : HeaderAt m' B := by
  have hstorage := hb.storage
  simp only [minBlock, sizeofHeader, sizeofFooter, Tile.end_] at hsize hend hbeside
  refine h.congr fun x hx hx' => ?_
  simp only [sizeofHeader] at hx'
  exact hsame x (by omega) (by omega) (by omega)

/-- What the index lists stays when memory from the start of the heap on changes. -/
theorem SameBeside.lists {b : ℕ} {hs : List ℕ} (hsame : SameBeside heap a b m m')
    (hb : HeapBounds heap) (h : Lists m heap.index hs) (ha : heap.startAddr ≤ a) :
    Lists m' heap.index hs := by
  have hstorage := hb.storage
  have hmin := hb.min_le
  exact h.congr fun x hx hx' => hsame x hx (by omega) (by omega)

namespace Held

variable (h : Held m heap xs a n ys)

include h

theorem start_le : heap.startAddr ≤ a := h.left.le

theorem le_end : a + n ≤ heap.endAddr := h.right.le

/-- A block that is not in hand lies beside the memory in hand. -/
theorem beside (hB : B ∈ xs ++ ys) :
    heap.startAddr ≤ B.addr ∧ minBlock ≤ B.size ∧ B.end_ ≤ heap.endAddr ∧
      (B.end_ ≤ a ∨ a + n ≤ B.addr) := by
  have hstart := h.start_le
  have hend := h.le_end
  rcases List.mem_append.mp hB with hB | hB
  · obtain ⟨h₁, h₂, h₃⟩ := h.left.bounds hB
    exact ⟨h₁, h₂, by omega, .inl h₃⟩
  · obtain ⟨h₁, h₂, h₃⟩ := h.right.bounds hB
    exact ⟨by omega, h₂, h₃, .inr h₁⟩

/-- An entry of the index that is not null is the header of a hole that is not in hand. -/
theorem exists_hole (hi : i < heap.index.size) (hne : slot m heap.index i ≠ 0) :
    ∃ B ∈ xs ++ ys, B.tag = true ∧ B.addr = slot m heap.index i :=
  mem_holes.mp (h.index.slot_mem hi hne)

/-- What is in hand may be overwritten. -/
theorem congr (hsame : SameBeside heap a (a + n) m m') : Held m' heap xs a n ys := by
  refine { h with
    index := hsame.lists h.bounds h.index h.start_le
    headers := fun B hB => ?_ }
  obtain ⟨h₁, h₂, h₃, h₄⟩ := h.beside hB
  exact hsame.headerAt h.bounds (h.headers B hB) h₁ h₂ h₃ h₄

/-- **A block with its header is put back in use.** -/
theorem putBlock (hheader : HeaderAt m ⟨a, n, false⟩) :
    HeapInv m heap (xs ++ ⟨a, n, false⟩ :: ys) := by
  refine ⟨h.bounds, ?_, tiles_append.mpr ⟨a, h.left, rfl, h.size, h.right⟩, fun B hB => ?_⟩
  · simpa using h.index
  · rcases List.mem_append.mp hB with hB | hB
    · exact h.headers B (List.mem_append_left _ hB)
    rcases List.mem_cons.mp hB with rfl | hB
    · exact hheader
    · exact h.headers B (List.mem_append_right _ hB)

/-- **A hole with its header is put back and listed.** -/
theorem putHole (hheader : HeaderAt m ⟨a, n, true⟩)
    (hroom : heap.index.size + 1 ≤ heap.index.maxSize)
    (hinsert : orderedArrayInsert m heap.index a = .ok (m', index)) :
    HeapInv m' { heap with index } (xs ++ ⟨a, n, true⟩ :: ys) := by
  have hstart := h.start_le
  have hend := h.le_end
  have hsize := h.size
  simp only [minBlock, sizeofHeader, sizeofFooter] at hsize
  obtain ⟨hb, hl, hsame⟩ := h.bounds.insert h.index hroom hstart (by omega) hinsert
  refine ⟨hb, hl.of_perm ?_, tiles_append.mpr ⟨a, h.left, rfl, h.size, h.right⟩, fun B hB => ?_⟩
  · simpa using List.perm_middle.symm
  · rcases List.mem_append.mp hB with hB | hB
    · exact (h.headers B (List.mem_append_left _ hB)).of_start_le (h.left.bounds hB).1 hsame
    rcases List.mem_cons.mp hB with rfl | hB
    · exact hheader.of_start_le hstart hsame
    · have hB' := List.mem_append_right xs hB
      exact (h.headers B hB').of_start_le (h.beside hB').1 hsame

/-- **The rest behind the first `r` bytes becomes a hole.** -/
theorem cutRest (hr : minBlock ≤ r) (hrest : r + minBlock ≤ n)
    (hheader : HeaderAt m ⟨a + r, n - r, true⟩)
    (hroom : heap.index.size + 1 ≤ heap.index.maxSize)
    (hinsert : orderedArrayInsert m heap.index (a + r) = .ok (m', index)) :
    Held m' { heap with index } xs a r (⟨a + r, n - r, true⟩ :: ys) ∧
      ∀ x, heap.startAddr ≤ x → m' x = m x := by
  have hstart := h.start_le
  have hend := h.le_end
  simp only [minBlock, sizeofHeader, sizeofFooter] at hr hrest
  obtain ⟨hb, hl, hsame⟩ := h.bounds.insert h.index hroom (by omega) (by omega) hinsert
  have hbehind : a + r + (n - r) = a + n := by omega
  refine ⟨⟨hb, hl.of_perm ?_, h.left, hr, ⟨rfl, ?_, ?_⟩, fun B hB => ?_⟩, hsame⟩
  · simpa using List.perm_middle.symm
  · simp only [minBlock, sizeofHeader, sizeofFooter]
    omega
  · simpa only [Tile.end_, hbehind] using h.right
  · rcases List.mem_append.mp hB with hB | hB
    · exact (h.headers B (List.mem_append_left _ hB)).of_start_le (h.left.bounds hB).1 hsame
    rcases List.mem_cons.mp hB with rfl | hB
    · exact hheader.of_start_le (by simp only; omega) hsame
    · have hB' := List.mem_append_right xs hB
      exact (h.headers B hB').of_start_le (h.beside hB').1 hsame

end Held

/-- **The hole behind the memory in hand is merged with it.** -/
theorem Held.mergeRight (h : Held m heap xs a n (U :: ys)) (hU : U.tag = true)
    (hroom : heap.index.size + 1 ≤ heap.index.maxSize) (hi : i < heap.index.size)
    (hslot : slot m heap.index i = U.addr) :
    Held (orderedArrayRemove m heap.index i).1
      { heap with index := (orderedArrayRemove m heap.index i).2 } xs a (n + U.size) ys ∧
      ∀ x, heap.startAddr ≤ x → (orderedArrayRemove m heap.index i).1 x = m x := by
  have hU' := h.beside (List.mem_append_right xs (List.mem_cons_self (a := U)))
  have hperm : (holes (xs ++ U :: ys)).Perm (slot m heap.index i :: holes (xs ++ ys)) := by
    simp [hU, hslot]
  obtain ⟨hb, hl, hsame⟩ := h.bounds.remove h.index hroom hi (hslot ▸ hU'.1) hperm
  obtain ⟨haddr, -, hright⟩ := h.right
  refine ⟨⟨hb, hl, h.left, h.size.trans (Nat.le_add_right _ _), ?_, fun B hB => ?_⟩, hsame⟩
  · rwa [← Nat.add_assoc, ← haddr]
  · have hB' : B ∈ xs ++ U :: ys := by
      rcases List.mem_append.mp hB with hB | hB
      · exact List.mem_append_left _ hB
      · exact List.mem_append_right _ (List.mem_cons_of_mem _ hB)
    exact (h.headers B hB').of_start_le (h.beside hB').1 hsame

/-- **The memory in hand at the end of the heap is shortened.** -/
theorem Held.shrink (h : Held m heap xs a n []) (end_ : ℕ) (ha : a + minBlock ≤ end_)
    (hend : end_ ≤ heap.endAddr) (hmin : heap.startAddr + heapMinSize ≤ end_)
    (hpages : (end_ - heap.startAddr) % pageSize = 0) :
    Held m { heap with endAddr := end_ } xs a (end_ - a) [] where
  bounds := ⟨h.bounds.storage, h.bounds.start_pos, hpages, hmin, hend.trans_lt h.bounds.end_lt⟩
  index := h.index
  left := h.left
  size := by omega
  right := by
    simp only [tiles_nil]
    omega
  headers := h.headers

namespace HeapInv

/-- **A block in use is taken in hand.** -/
theorem hold (h : HeapInv m heap (xs ++ B :: ys)) (hB : B.tag = false) :
    Held m heap xs B.addr B.size ys := by
  obtain ⟨c, hleft, rfl, hsize, hright⟩ := tiles_append.mp h.tiles
  refine ⟨h.bounds, by simpa [hB] using h.index, hleft, hsize, hright, fun A hA => ?_⟩
  exact h.headers A (by simp only [List.mem_append, List.mem_cons] at hA ⊢; tauto)

/-- **A hole is taken in hand, and off the index.** -/
theorem take (h : HeapInv m heap (xs ++ B :: ys)) (hB : B.tag = true)
    (hroom : heap.index.size + 1 ≤ heap.index.maxSize) (hi : i < heap.index.size)
    (hslot : slot m heap.index i = B.addr) :
    Held (orderedArrayRemove m heap.index i).1
      { heap with index := (orderedArrayRemove m heap.index i).2 } xs B.addr B.size ys := by
  have hB' := h.of_mem (List.mem_append_right xs (List.mem_cons_self (a := B)))
  have hperm : (holes (xs ++ B :: ys)).Perm (slot m heap.index i :: holes (xs ++ ys)) := by
    simp [hB, hslot]
  obtain ⟨hb, hl, hsame⟩ := h.bounds.remove h.index hroom hi (hslot ▸ hB'.1) hperm
  obtain ⟨c, hleft, rfl, hsize, hright⟩ := tiles_append.mp h.tiles
  refine ⟨hb, hl, hleft, hsize, hright, fun A hA => ?_⟩
  have hA' : A ∈ xs ++ B :: ys := by
    simp only [List.mem_append, List.mem_cons] at hA ⊢
    tauto
  exact (h.headers A hA').of_start_le (h.of_mem hA').1 hsame

/-- **The first `r` bytes of a hole stay a hole, the rest is taken in hand.** The index lists the
same headers. -/
theorem leaveGap (h : HeapInv m heap (xs ++ B :: ys)) (hB : B.tag = true) (hr : minBlock ≤ r)
    (hrest : r + minBlock ≤ B.size) (hsame : SameBeside heap B.addr (B.addr + r) m m')
    (hheader : HeaderAt m' ⟨B.addr, r, true⟩) :
    Held m' heap (xs ++ [⟨B.addr, r, true⟩]) (B.addr + r) (B.size - r) ys := by
  have hbounds := h.of_mem (List.mem_append_right xs (List.mem_cons_self (a := B)))
  have hstorage := h.bounds.storage
  obtain ⟨c, hleft, rfl, hsize, hright⟩ := tiles_append.mp h.tiles
  have hbehind : B.addr + r + (B.size - r) = B.end_ := by
    simp only [Tile.end_]
    omega
  refine ⟨h.bounds, ?_, tiles_append.mpr ⟨B.addr, hleft, rfl, hr, rfl⟩, by omega,
    hbehind ▸ hright, fun A hA => ?_⟩
  · have hholes : holes (xs ++ [⟨B.addr, r, true⟩] ++ ys) = holes (xs ++ B :: ys) := by
      simp [hB]
    rw [hholes]
    exact hsame.lists h.bounds h.index hbounds.1
  · simp only [List.append_assoc, List.cons_append, List.nil_append, List.mem_append,
      List.mem_cons] at hA
    rcases hA with hA | rfl | hA
    · obtain ⟨h₁, h₂, h₃⟩ := hleft.bounds hA
      have hend := hright.le
      simp only [Tile.end_] at hend
      exact hsame.headerAt h.bounds (h.headers A (List.mem_append_left _ hA)) h₁ h₂ (by omega)
        (.inl h₃)
    · exact hheader
    · obtain ⟨h₁, h₂, h₃⟩ := hright.bounds hA
      exact hsame.headerAt h.bounds (h.headers A (List.mem_append_right _
        (List.mem_cons_of_mem _ hA)))
        (by omega) h₂ h₃ (.inr (by omega))

/-- **New memory at the end of the heap is in hand.** -/
theorem grow (h : HeapInv m heap blocks) (end_ : ℕ) (hend : heap.endAddr + minBlock ≤ end_)
    (hlt : end_ < 2 ^ 32) (hpages : (end_ - heap.startAddr) % pageSize = 0) :
    Held m { heap with endAddr := end_ } blocks heap.endAddr (end_ - heap.endAddr) [] where
  bounds := ⟨h.bounds.storage, h.bounds.start_pos, hpages,
    h.bounds.min_le.trans ((Nat.le_add_right _ _).trans hend),
    hlt⟩
  index := by simpa using h.index
  left := h.tiles
  size := by omega
  right := by
    simp only [tiles_nil]
    omega
  headers := fun B hB => h.headers B (by simpa using hB)

end HeapInv

/-- **The memory in hand is added to the hole in front of it.** -/
theorem Held.joinLeft (h : Held m heap (xs ++ [B]) a n ys) (hB : B.tag = true)
    (hsame : SameBeside heap B.addr (a + n) m m')
    (hheader : HeaderAt m' ⟨B.addr, B.size + n, true⟩) :
    HeapInv m' heap (xs ++ ⟨B.addr, B.size + n, true⟩ :: ys) := by
  obtain ⟨c, hleft, rfl, hsize, hend⟩ := tiles_append.mp h.left
  obtain rfl : B.addr + B.size = a := hend
  have hstart := hleft.le
  have hbehind := h.le_end
  have hholes : holes (xs ++ ⟨B.addr, B.size + n, true⟩ :: ys) = holes (xs ++ [B] ++ ys) := by
    simp [hB]
  refine ⟨h.bounds, hholes ▸ hsame.lists h.bounds h.index hstart,
    tiles_append.mpr ⟨_, hleft, rfl, hsize.trans (Nat.le_add_right _ _), ?_⟩, fun A hA => ?_⟩
  · simpa only [Tile.end_, Nat.add_assoc] using h.right
  · rcases List.mem_append.mp hA with hA | hA
    · obtain ⟨h₁, h₂, h₃⟩ := hleft.bounds hA
      exact hsame.headerAt h.bounds (h.headers A (by simp [hA])) h₁ h₂ (by omega) (.inl h₃)
    rcases List.mem_cons.mp hA with rfl | hA
    · exact hheader
    · obtain ⟨h₁, h₂, h₃⟩ := h.right.bounds hA
      exact hsame.headerAt h.bounds (h.headers A (by simp [hA])) (by omega) h₂ h₃ (.inr h₁)

/-! ### An index without null entries -/

/-- The blocks tile the heap and have their headers, and the index before the heap lists exactly the
holes. Nothing is asked of its storage behind the last entry. -/
structure ExactHeap (m : Memory) (heap : Heap) (blocks : List Block) : Prop where
  storage : heap.index.array + 4 * heap.index.maxSize ≤ heap.startAddr
  end_lt : heap.endAddr < 2 ^ 32
  tiles : Tiles minBlock heap.startAddr heap.endAddr blocks
  headers : ∀ B ∈ blocks, HeaderAt m B
  comparer : heap.index.comparer.isSome
  size_le : heap.index.size ≤ heap.index.maxSize
  index : (elems m heap.index).Perm (holes blocks)

/-- The invariant, when the index has no null entries. -/
theorem HeapInv.exact (h : HeapInv m heap blocks)
    (hne : ∀ i < heap.index.size, slot m heap.index i ≠ 0) : ExactHeap m heap blocks := by
  refine ⟨h.bounds.storage, h.bounds.end_lt, h.tiles, h.headers, h.index.comparer,
    h.index.size_le, ?_⟩
  have hfilter : (elems m heap.index).filter (· ≠ 0) = elems m heap.index := by
    refine List.filter_eq_self.mpr fun v hv => ?_
    obtain ⟨i, hi, rfl⟩ := mem_elems.mp hv
    simpa using hne i hi
  exact hfilter ▸ h.index.perm

/-- The entries of the index do not depend on the memory of the heap. -/
theorem ExactHeap.elems_congr (h : ExactHeap m heap blocks)
    (hsame : ∀ x, heap.index.array ≤ x → x < heap.startAddr → m' x = m x) :
    elems m' heap.index = elems m heap.index := by
  have hstorage := h.storage
  have hsize := h.size_le
  refine List.map_congr_left fun j hj => slot_congr fun x hx hx' => ?_
  have hj := List.mem_range.mp hj
  exact hsame x (by omega) (by omega)

/-- An entry of the index is the header of a hole. -/
theorem ExactHeap.exists_hole (h : ExactHeap m heap blocks) (hi : i < heap.index.size) :
    ∃ B ∈ blocks, B.tag = true ∧ B.addr = slot m heap.index i :=
  mem_holes.mp (h.index.mem_iff.mp (mem_elems.mpr ⟨i, hi, rfl⟩))

/-- A hole has an entry. -/
theorem ExactHeap.exists_slot (h : ExactHeap m heap blocks) (hB : B ∈ blocks)
    (htag : B.tag = true) :
    ∃ i < heap.index.size, slot m heap.index i = B.addr :=
  mem_elems.mp (h.index.mem_iff.mpr (mem_holes.mpr ⟨B, hB, htag, rfl⟩))

end Studix.Mem
