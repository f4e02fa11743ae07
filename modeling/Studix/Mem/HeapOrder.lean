import Studix.Base.Ordered
import Studix.Mem.HeapBlockSize
import Studix.Mem.HeapRetry

/-!
# The order of the index

The index is kept in ascending order of the sizes of its holes, but the sizes are not in the index:
they are in the headers. `make_space` makes a hole larger and `alloc` leaves a smaller hole in front
of an aligned block; both write another size to the header of an entry and leave the entry where it
is.

## Main definitions

* `SortedIndex`: the sizes in the headers ascend.
* `GrowsInOrder`, `LeavesInOrder`: the hole that gets another size does not pass another in the
  order.

## Main results

* `orderedArrayInsert_sorted_iff`: an insertion neither disturbs the order nor restores it.
* `sortedKept_iff`: when the index is in order afterwards.
-/

namespace Studix.Mem

variable {m mem : Memory} {heap : Heap} {index : OrderedArray} {blocks : List Block}
  {k k' k₁ : Kernel}
  {alloc : Alloc} {e growth i j n p pos room size total x : ℕ}

/-- The sizes in the headers that the index refers to ascend. -/
def SortedIndex (m : Memory) (index : OrderedArray) : Prop :=
  MonotoneOn (fun i => headerSize m (slot m index i)) (Set.Iio index.size)

instance (m : Memory) (index : OrderedArray) : Decidable (SortedIndex m index) :=
  decidable_of_iff _ monotoneOn_Iio_iff.symm

/-! ### Insertions -/

/-- **An insertion neither disturbs the order nor restores it**, when the index is not written over
a size. -/
theorem orderedArrayInsert_sorted_iff {m' : Memory} {index' : OrderedArray} {item : ℕ}
    (hcomparer : index.comparer = some headerComparer) (hitem : item < 2 ^ 32)
    (hentries : ∀ i < index.size, index.array + 4 * (index.size + 1) ≤ slot m index i + 8)
    (hlow : index.array + 4 * (index.size + 1) ≤ item + 8)
    (h : orderedArrayInsert m index item = .ok (m', index')) :
    SortedIndex m' index' ↔ SortedIndex m index := by
  obtain ⟨m₁, p, hinsert, hp, hslot, hframe, hbefore, hat⟩ :=
    orderedArrayInsert_place m index item hcomparer hitem
  obtain ⟨rfl, rfl⟩ : m₁ = m' ∧ _ = index' := by
    simpa only [Except.ok.injEq, Prod.mk.injEq] using hinsert.symm.trans h
  have hkept : ∀ A, index.array + 4 * (index.size + 1) ≤ A + 8 → headerSize m₁ A = headerSize m A :=
    fun A hA => headerSize_congr fun x hx _ => hframe x (.inr (by omega))
  refine monotoneOn_inserted_iff (v := headerSize m item) (fun j hj => ?_) (fun hlt => ?_)
    (fun j hj => ?_) hp
  · have hless := hbefore j hj
    simp only [headerComparer, decide_eq_true_eq] at hless
    exact hless.le
  · have hnot := hat hlt
    simp only [headerComparer, decide_eq_false_iff_not, not_lt] at hnot
    exact hnot
  · have hslot' : slot m₁ { index with size := index.size + 1 } j = slot m₁ index j := rfl
    simp only [hslot', hslot j]
    have hnot : ¬index.size < j := by omega
    rcases lt_trichotomy j p with hjp | rfl | hpj
    · rw [if_pos (.inl hjp), if_pos hjp, hkept _ (hentries j (by omega))]
    · rw [if_neg (by omega), if_pos rfl, if_neg (lt_irrefl j), if_pos rfl, hkept _ hlow]
    · rw [if_neg (by omega), if_neg hpj.ne', if_neg hpj.not_gt, if_neg hpj.ne',
        hkept _ (hentries (j - 1) (by omega))]

/-! ### The holes of the index -/

section

variable (h : ExactHeap m heap blocks)

include h

theorem ExactHeap.slot_bounds (hi : i < heap.index.size) : heap.startAddr ≤ slot m heap.index i ∧
    minBlock ≤ headerSize m (slot m heap.index i) ∧
      slot m heap.index i + headerSize m (slot m heap.index i) ≤ heap.endAddr := by
  obtain ⟨B, hB, -, haddr⟩ := h.exists_hole hi
  rw [← haddr, (h.headers B hB).size]
  exact h.tiles.bounds hB

/-- The holes of two entries are beside each other. -/
theorem ExactHeap.slot_beside (hi : i < heap.index.size) (hj : j < heap.index.size) (hne : i ≠ j) :
    slot m heap.index i + headerSize m (slot m heap.index i) ≤ slot m heap.index j ∨
      slot m heap.index j + headerSize m (slot m heap.index j) ≤ slot m heap.index i := by
  have haddrs := h.slot_ne hi hj hne
  obtain ⟨A, hA, -, hAaddr⟩ := h.exists_hole hi
  obtain ⟨B, hB, -, hBaddr⟩ := h.exists_hole hj
  rw [← hAaddr, ← hBaddr] at haddrs ⊢
  rw [(h.headers A hA).size, (h.headers B hB).size]
  obtain rfl | hbeside := h.tiles.beside hA hB
  · exact absurd rfl haddrs
  · exact hbeside

/-- The entries do not change with the memory of the heap. -/
theorem ExactHeap.slot_eq_of_above (m' : Memory) (hi : i < heap.index.size)
    (hsame : ∀ x < heap.startAddr, m' x = m x) : slot m' heap.index i = slot m heap.index i := by
  have hstorage := h.storage
  have hsize := h.size_le
  exact slot_congr fun x _ hx => hsame x (by omega)

end

/-! ### A hole that grows -/

/-- The hole that `make_space` makes larger does not become larger than one that comes behind it. -/
def GrowsInOrder (m : Memory) (index : OrderedArray) (growth : ℕ) : Prop :=
  ∀ j, (lastHeader m index index.size).1 = some j → ∀ i < index.size, j < i →
    headerSize m (slot m index j) + growth ≤ headerSize m (slot m index i)

/-- The new footer of the hole that `make_space` makes larger is not written over the size of
another hole. -/
def GrowsApart (m : Memory) (index : OrderedArray) (growth : ℕ) : Prop :=
  ∀ j, (lastHeader m index index.size).1 = some j → ∀ i < index.size, i ≠ j →
    slot m index j + headerSize m (slot m index j) + growth ≤ slot m index i + 8 ∨
      slot m index i + minBlock ≤ slot m index j + headerSize m (slot m index j) + growth

theorem resizeBlock_apply_of_notMem {h : ℕ} (hlt : n < 2 ^ 32) (hn : minBlock ≤ n)
    (hle : h + n ≤ 2 ^ 32) (hsize : x < h + 8 ∨ h + sizeofHeader ≤ x)
    (hfooter : x + sizeofFooter < h + n ∨ h + n ≤ x) : resizeBlock m h n x = m x := by
  have hassoc : wsub (wadd h n) sizeofFooter = h + n - sizeofFooter := by
    simp only [wadd, wsub, minBlock, sizeofHeader, sizeofFooter] at *
    omega
  rw [resizeBlock, assocFooter, headerSize_setHeaderSize hlt, hassoc]
  simp only [minBlock, sizeofHeader, sizeofFooter] at *
  rw [makeFooter_apply_of_notMem (by simp only [sizeofFooter]; omega),
    setHeaderSize_apply_of_notMem (by omega)]

/-- A hole that is the only entry is in order. -/
theorem sortedIndex_of_size_le (h : index.size ≤ 1) : SortedIndex m index :=
  monotoneOn_Iio_iff.mpr fun j hj i hi => absurd hi (by omega)

/-- A hole that gets more memory stays in order exactly when it does not become larger than one
behind it. -/
theorem ExactHeap.resize_sorted_iff (h : ExactHeap m heap blocks) (hpos : 0 < heap.startAddr)
    (hsorted : SortedIndex m heap.index) (hgrowth : heap.endAddr + growth ≤ 2 ^ 32)
    (hj : j < heap.index.size)
    (hapart : ∀ i < heap.index.size, i ≠ j →
      slot m heap.index j + headerSize m (slot m heap.index j) + growth ≤ slot m heap.index i + 8 ∨
        slot m heap.index i + minBlock ≤
          slot m heap.index j + headerSize m (slot m heap.index j) + growth) :
    SortedIndex (resizeBlock m (slot m heap.index j) (headerSize m (slot m heap.index j) + growth))
        heap.index ↔
      ∀ i < heap.index.size, j < i →
        headerSize m (slot m heap.index j) + growth ≤ headerSize m (slot m heap.index i) := by
  obtain ⟨hstart, hmin, hend⟩ := h.slot_bounds hj
  have hbeside : ∀ i < heap.index.size, i ≠ j → _ := fun i hi hne => h.slot_beside hi hj hne
  have hslot : ∀ i < heap.index.size, _ := fun i hi => h.slot_eq_of_above
    (resizeBlock m (slot m heap.index j) (headerSize m (slot m heap.index j) + growth)) hi
  have hmins : ∀ i < heap.index.size, minBlock ≤ headerSize m (slot m heap.index i) :=
    fun i hi => (h.slot_bounds hi).2.1
  obtain ⟨hole, hhole⟩ : ∃ hole, slot m heap.index j = hole := ⟨_, rfl⟩
  obtain ⟨s, hs⟩ : ∃ s, headerSize m hole = s := ⟨_, rfl⟩
  simp only [hhole, hs] at hstart hmin hend hapart hbeside hslot ⊢
  have hminGrown : minBlock ≤ s + growth := hmin.trans (Nat.le_add_right s growth)
  simp only [minBlock, sizeofHeader, sizeofFooter] at hmin
  have hbefore : ∀ x < heap.startAddr, resizeBlock m hole (s + growth) x = m x := fun x hx =>
    resizeBlock_apply_before (by omega) hminGrown (by omega) (by omega)
  have hgrown : headerSize (resizeBlock m hole (s + growth)) hole = s + growth :=
    headerSize_resizeBlock_of_le (by omega) hminGrown (by omega)
  have hothers : ∀ i < heap.index.size, i ≠ j →
      headerSize (resizeBlock m hole (s + growth)) (slot m heap.index i) =
        headerSize m (slot m heap.index i) := by
    intro i hi hne
    have hfooter := hapart i hi hne
    have hbesidei := hbeside i hi hne
    have hmini := hmins i hi
    simp only [minBlock, sizeofHeader, sizeofFooter] at hfooter hmini
    refine headerSize_congr fun x hx hx' =>
      resizeBlock_apply_of_notMem (by omega) hminGrown (by omega) ?_ ?_
    · simp only [sizeofHeader]
      omega
    · simp only [sizeofFooter]
      omega
  have hat : headerSize (resizeBlock m hole (s + growth))
      (slot (resizeBlock m hole (s + growth)) heap.index j) = s + growth := by
    rw [hslot j hj hbefore, hhole, hgrown]
  have hiff := monotoneOn_of_grown
    (g := fun i => headerSize (resizeBlock m hole (s + growth))
      (slot (resizeBlock m hole (s + growth)) heap.index i)) hsorted hj
    (fun i hi hne => by simp only [hslot i hi hbefore, hothers i hi hne])
    (by simp only [hat, hhole, hs]; exact Nat.le_add_right s growth)
  simp only [hat] at hiff
  exact hiff

/-- **The end of `make_space`** keeps the order exactly when the hole does not become larger than
one behind it. -/
theorem addSpace_sorted_iff {oldEnd : ℕ} (h : ExactHeap k.mem { k.heap with endAddr := e } blocks)
    (hsorted : SortedIndex k.mem k.heap.index) (hpos : 0 < k.heap.startAddr)
    (hgrowth : e + growth ≤ 2 ^ 32) (hapart : GrowsApart k.mem k.heap.index growth)
    (hok : addSpace k oldEnd growth = .ok k') :
    SortedIndex k'.mem k'.heap.index ↔ GrowsInOrder k.mem k.heap.index growth := by
  rw [addSpace] at hok
  cases hlast : (lastHeader k.mem k.heap.index k.heap.index.size).1 with
  | none =>
    -- There is no hole, so the new one is the only one.
    have hempty : k.heap.index.size = 0 := by
      by_contra hne
      have hzero := lastHeader_eq_none hlast (Nat.pos_of_ne_zero hne)
      have habove : k.heap.startAddr ≤ slot k.mem k.heap.index 0 :=
        (h.slot_bounds (Nat.pos_of_ne_zero hne)).1
      omega
    simp only [hlast] at hok
    obtain ⟨⟨mem, index⟩, hinsert, hk⟩ := except_bind_eq_ok.mp hok
    have hindex := orderedArrayInsert_array hinsert
    rw [← Except.ok.inj hk]
    refine iff_of_true (sortedIndex_of_size_le ?_) fun j hj => by simp [hlast] at hj
    simp only [Kernel.setIndex_heap, hindex, hempty, Nat.zero_add, le_refl]
  | some j =>
    have hj := lastHeader_lt hlast
    obtain ⟨-, hmin, hend⟩ := h.slot_bounds hj
    have hlow : slot k.mem k.heap.index j + headerSize k.mem (slot k.mem k.heap.index j) ≤ e := hend
    have habove : k.heap.startAddr ≤ slot k.mem k.heap.index j := (h.slot_bounds hj).1
    have hiff := h.resize_sorted_iff hpos hsorted hgrowth hj (hapart j hlast)
    simp only [hlast, orderedArrayLookup_eq hj, except_ok_bind] at hok
    rw [wadd_eq (by omega)] at hok
    have hmem : k'.mem = resizeBlock k.mem (slot k.mem k.heap.index j)
        (headerSize k.mem (slot k.mem k.heap.index j) + growth) := by rw [← Except.ok.inj hok]
    have hindex : k'.heap.index = k.heap.index := by rw [← Except.ok.inj hok]
    have hgrows : GrowsInOrder k.mem k.heap.index growth ↔ ∀ i < k.heap.index.size, j < i →
        headerSize k.mem (slot k.mem k.heap.index j) + growth ≤
          headerSize k.mem (slot k.mem k.heap.index i) := by
      refine ⟨fun hle => hle j hlast, fun hle j' hj' => ?_⟩
      obtain rfl : j = j' := Option.some.inj (hlast.symm.trans hj')
      exact hle
    rw [hmem, hindex, hgrows]
    exact hiff

/-- `P` holds of the state in which `expand` returns to `make_space`. -/
def GrowsInto (P : Kernel → Prop) (alloc : Alloc) (k : Kernel) (needed : ℕ) : Prop :=
  ∀ k₁, expand alloc k (wadd (wsub k.heap.endAddr k.heap.startAddr) needed) = .ok k₁ → P k₁

/-- The memory by which `make_space` makes the heap longer. -/
def growthFor (heap : Heap) (needed : ℕ) : ℕ :=
  alignUp (heap.endAddr - heap.startAddr + needed) - (heap.endAddr - heap.startAddr)

/-- The index lists exactly the holes below the end `e`, in order. -/
def ListsInOrder (e : ℕ) (k : Kernel) : Prop :=
  ∃ blocks, ExactHeap k.mem { k.heap with endAddr := e } blocks ∧ SortedIndex k.mem k.heap.index

/-- Without a new page table `make_space` adds the new memory in the state before. -/
theorem growsInto_iff_of_tables {P : Memory → OrderedArray → Prop}
    (h : ExactHeap k.mem k.heap blocks)
    (hno_wrap : k.heap.endAddr + n < 2 ^ 32)
    (htables : NoNewTable k (k.heap.endAddr - k.heap.startAddr + n))
    (hexpand : expand alloc k (wadd (wsub k.heap.endAddr k.heap.startAddr) n) = .ok k₁) :
    GrowsInto (fun k => P k.mem k.heap.index) alloc k n ↔ P k.mem k.heap.index := by
  have hle := h.tiles.le
  have hlt := h.end_lt
  have hwrap : wadd (wsub k.heap.endAddr k.heap.startAddr) n =
      k.heap.endAddr - k.heap.startAddr + n := by
    rw [wsub_eq hle hlt, wadd_eq (by omega)]
  have hsame : k₁.mem = k.mem ∧ k₁.heap.index = k.heap.index := by
    rw [hwrap] at hexpand
    obtain ⟨-, hmem, hheap⟩ := expand_of_tables hle hlt htables hexpand
    exact ⟨hmem, by rw [hheap]⟩
  refine ⟨fun hP => ?_, fun hP k₂ hk₂ => ?_⟩
  · have hP₁ : P k₁.mem k₁.heap.index := hP k₁ hexpand
    rwa [hsame.1, hsame.2] at hP₁
  · obtain rfl : k₁ = k₂ := Except.ok.inj (hexpand.symm.trans hk₂)
    rwa [hsame.1, hsame.2]

/-- **`make_space` keeps the order** exactly when the hole it makes larger does not become larger
than one that comes behind it in the index. -/
theorem makeSpace_sorted_iff {depth : ℕ} (h : ExactHeap k.mem k.heap blocks)
    (hsorted : SortedIndex k.mem k.heap.index) (hpos : 0 < k.heap.startAddr)
    (hpages : k.heap.startAddr % pageSize = 0) (hneeded : n < 2 ^ 32)
    (htables : ¬NoNewTable k (k.heap.endAddr - k.heap.startAddr + n) →
      GrowsInto (ListsInOrder k.heap.endAddr) (Mem.alloc depth) k n)
    (hapart : GrowsInto (fun k₁ => GrowsApart k₁.mem k₁.heap.index (growthFor k.heap n))
      (Mem.alloc depth) k n)
    (hok : makeSpace (Mem.alloc depth) k n = .ok k') :
    SortedIndex k'.mem k'.heap.index ↔
      GrowsInto (fun k₁ => GrowsInOrder k₁.mem k₁.heap.index (growthFor k.heap n))
        (Mem.alloc depth) k n := by
  have hle := h.tiles.le
  have hlt := h.end_lt
  obtain ⟨k₁, hexpand, hadd⟩ := except_bind_eq_ok.mp hok
  obtain ⟨hframe, hend⟩ := expand_sameFrame (alloc_sameFrame depth) hexpand
  have hold : wsub k.heap.endAddr k.heap.startAddr = k.heap.endAddr - k.heap.startAddr :=
    wsub_eq hle hlt
  have hno_wrap : k.heap.endAddr + n < 2 ^ 32 :=
    (needed_no_wrap hle hlt hneeded rfl (hold ▸ hexpand)).1
  have hneeds : wadd (k.heap.endAddr - k.heap.startAddr) n =
      k.heap.endAddr - k.heap.startAddr + n :=
    wadd_eq (by omega)
  have hlists : ListsInOrder k.heap.endAddr k₁ := by
    by_cases hnone : NoNewTable k (k.heap.endAddr - k.heap.startAddr + n)
    · rw [hold, hneeds] at hexpand
      obtain ⟨-, hmem, hheap⟩ := expand_of_tables hle hlt hnone hexpand
      refine ⟨blocks, ?_, ?_⟩
      · rw [hmem, hheap]
        exact h
      · rw [hmem, hheap]
        exact hsorted
    · exact htables hnone k₁ hexpand
  have hinto : ∀ P : Kernel → Prop, GrowsInto P (Mem.alloc depth) k n ↔ P k₁ := by
    refine fun P => ⟨fun hP => hP k₁ hexpand, fun hP k₂ hk₂ => ?_⟩
    obtain rfl : k₁ = k₂ := Except.ok.inj (hexpand.symm.trans hk₂)
    exact hP
  -- The new length is the needed one in whole pages, and the heap starts at a page.
  have hround := alignUp_eq_mod (show k.heap.endAddr - k.heap.startAddr + n < 2 ^ 32 by omega)
  have hlength : k.heap.endAddr - k.heap.startAddr + n ≤
        alignUp (k.heap.endAddr - k.heap.startAddr + n) ∧
      k.heap.startAddr + alignUp (k.heap.endAddr - k.heap.startAddr + n) ≤ 2 ^ 32 := by
    simp only [pageSize] at *
    omega
  have hgrowth : wsub (wsub k₁.heap.endAddr k₁.heap.startAddr)
      (wsub k.heap.endAddr k.heap.startAddr) = growthFor k.heap n := by
    rw [hold, hneeds] at hend
    rw [hend, hframe.startAddr, hold, growthFor]
    generalize alignUp (k.heap.endAddr - k.heap.startAddr + n) = length at hlength ⊢
    simp only [wadd, wsub]
    omega
  obtain ⟨blocks₁, hexact, hsorted₁⟩ := hlists
  simp only [hgrowth] at hadd
  rw [hinto] at hapart ⊢
  refine addSpace_sorted_iff hexact hsorted₁ ?_ ?_ hapart hadd
  · rw [hframe.startAddr]
    exact hpos
  · rw [growthFor]
    omega

/-! ### A hole in front of an aligned block -/

/-- An aligned block of `total` bytes in the hole at `e` leaves a hole in front of it, and behind it
nothing or at least the first word of a header. -/
def LeavesGap (m : Memory) (e total : ℕ) : Prop :=
  minBlock ≤ total ∧ Gap e true ∧ e + minBlock ≤ newHoleLoc e ∧
    (newHoleLoc e + total = e + headerSize m e ∨ newHoleLoc e + total + 4 ≤ e + headerSize m e)

instance (m : Memory) (e total : ℕ) : Decidable (LeavesGap m e total) :=
  inferInstanceAs (Decidable (_ ∧ _ ∧ _ ∧ _))

/-- The hole that an aligned block leaves in front of it, in the place of entry `i`, is not smaller
than one that comes before it. -/
def LeavesInOrder (m : Memory) (index : OrderedArray) (i : ℕ) : Prop :=
  ∀ l < i, headerSize m (slot m index l) ≤ newHoleLoc (slot m index i) - slot m index i

instance (m : Memory) (index : OrderedArray) (i : ℕ) : Decidable (LeavesInOrder m index i) :=
  inferInstanceAs (Decidable (∀ _ < _, _))

theorem makeBlock_apply_of_notMem (hmin : minBlock ≤ total) (hlt : pos + total < 2 ^ 32)
    (hx : x < pos ∨ pos + total ≤ x) : makeBlock mem pos total x = mem x := by
  simp only [minBlock, sizeofHeader, sizeofFooter] at hmin
  have hfooter : wsub (wadd pos total) sizeofFooter = pos + total - 8 := by
    simp only [wadd, wsub, sizeofFooter]
    omega
  rw [makeBlock, hfooter, makeFooter_apply_of_notMem (by simp only [sizeofFooter]; omega),
    makeHeader_apply_of_notMem false (by simp only [sizeofHeader]; omega)]

/-- What is left behind the block is written from its footer on, and up to the size of the next
block. -/
theorem makeRest_apply_of_notMem {r : ℕ} (hpos : 8 ≤ pos) (hr : 4 ≤ r) (hlt : pos + r < 2 ^ 32)
    (hx : x + 8 < pos ∨ pos + r + 8 ≤ x) : makeRest mem heap pos r x = mem x := by
  have hfooter : wsub (wadd pos r) sizeofFooter = pos + r - 8 := by
    simp only [wadd, wsub, sizeofFooter]
    omega
  have hbeside : x < wsub (wadd pos r) sizeofFooter ∨
      wsub (wadd pos r) sizeofFooter + sizeofFooter ≤ x := by
    rw [hfooter, sizeofFooter]
    omega
  rw [makeRest_apply_beside_footer heap mem (by omega) hbeside,
    makeHeader_apply_of_notMem true (by simp only [sizeofHeader]; omega)]

/-- Order is a matter of the entries and of the sizes in their headers. -/
theorem sortedIndex_congr {m' : Memory} (hslot : ∀ i < index.size, slot m' index i = slot m index i)
    (hsize : ∀ i < index.size, headerSize m' (slot m index i) = headerSize m (slot m index i)) :
    SortedIndex m' index ↔ SortedIndex m index :=
  monotoneOn_Iio_congr fun i hi => by simp only [hslot i hi, hsize i hi]

/-- **The last part of `alloc`** neither disturbs the order nor restores it, when the holes of the
index lie beside the place of the block. -/
theorem placeBlock_sorted_iff (hcomparer : index.comparer = some headerComparer)
    (hmin : minBlock ≤ total) (hcut : total = room ∨ total + 4 ≤ room) (hlt : pos + room < 2 ^ 32)
    (hstorage : index.array + 4 * index.size ≤ pos)
    (hentries : ∀ i < index.size, index.array + 4 * (index.size + 1) ≤ slot mem index i + 8 ∧
      (slot mem index i + sizeofHeader ≤ pos ∨ pos + room ≤ slot mem index i))
    (h : placeBlock k mem index pos room total = .ok (p, k')) :
    SortedIndex k'.mem k'.heap.index ↔ SortedIndex mem index := by
  have hblock : ∀ x, x < pos ∨ pos + total ≤ x → makeBlock mem pos total x = mem x := fun x hx =>
    makeBlock_apply_of_notMem hmin (by omega) hx
  have hkeeps : ∀ m' : Memory, (∀ x, x < pos ∨ pos + room + 8 ≤ x → m' x = mem x) →
      (∀ i < index.size, slot m' index i = slot mem index i) ∧
        ∀ i < index.size, headerSize m' (slot mem index i) = headerSize mem (slot mem index i) := by
    refine fun m' hsame => ⟨fun i hi => slot_congr fun x _ hx => hsame x (by omega), fun i hi => ?_⟩
    obtain ⟨-, hbeside⟩ := hentries i hi
    simp only [sizeofHeader] at hbeside
    exact headerSize_congr fun x hx hx' => hsame x (by omega)
  simp only [minBlock, sizeofHeader, sizeofFooter] at hmin
  rw [placeBlock] at h
  split at h
  next hsplit =>
    obtain ⟨⟨mem', index'⟩, hinsert, hk⟩ := except_bind_eq_ok.mp h
    simp only [Except.ok.injEq, Prod.mk.injEq] at hk
    rw [wsub_eq hsplit.le (by omega), wadd_eq (by omega)] at hinsert
    have hrest : ∀ x, x < pos ∨ pos + room + 8 ≤ x →
        makeRest (makeBlock mem pos total) k.heap (pos + total) (room - total) x = mem x := by
      intro x hx
      rw [makeRest_apply_of_notMem (by omega) (by omega) (by omega) (by omega), hblock x (by omega)]
    obtain ⟨hslot, hsize⟩ := hkeeps _ hrest
    have hsorted := orderedArrayInsert_sorted_iff hcomparer (by omega)
      (fun i hi => by rw [hslot i hi]; exact (hentries i hi).1) (by omega) hinsert
    rw [← hk.2, Kernel.setIndex_mem, Kernel.setIndex_heap]
    exact hsorted.trans (sortedIndex_congr hslot hsize)
  next hwhole =>
    simp only [Except.ok.injEq, Prod.mk.injEq] at h
    rw [← h.2, Kernel.setIndex_mem, Kernel.setIndex_heap]
    obtain ⟨hslot, hsize⟩ := hkeeps (makeBlock mem pos total) fun x hx => hblock x (by omega)
    exact sortedIndex_congr hslot hsize

/-- The header and the footer of the gap lie in the gap. -/
theorem makeGap_apply_of_notMem {loc : ℕ} (hgap : e + minBlock ≤ loc) (hlt : loc < 2 ^ 32)
    (hx : x < e ∨ loc ≤ x) : makeGap m e loc x = m x := by
  simp only [minBlock, sizeofHeader, sizeofFooter] at hgap
  have hfooter : wsub loc sizeofFooter = loc - 8 := wsub_eq (by simp only [sizeofFooter]; omega) hlt
  rw [makeGap, hfooter, makeFooter_apply_of_notMem (by simp only [sizeofFooter]; omega),
    makeHeader_apply_of_notMem true (by simp only [sizeofHeader]; omega)]

theorem headerSize_makeGap_of_le {loc : ℕ} (hgap : e + minBlock ≤ loc) (hlt : loc < 2 ^ 32) :
    headerSize (makeGap m e loc) e = loc - e := by
  simp only [minBlock, sizeofHeader, sizeofFooter] at hgap
  rw [headerSize_makeGap, wsub_eq (by omega) hlt]
  intro x hx hx'
  rw [wsub_eq (by simp only [sizeofFooter]; omega) hlt]
  simp only [sizeofFooter]
  omega

/-- **The hole that becomes the gap** stays in order exactly when it does not become smaller than
one before it. -/
theorem ExactHeap.makeGap_sorted_iff {loc : ℕ} (h : ExactHeap m heap blocks)
    (hsorted : SortedIndex m heap.index) (hi : i < heap.index.size)
    (hgap : slot m heap.index i + minBlock ≤ loc)
    (hle : loc ≤ slot m heap.index i + headerSize m (slot m heap.index i)) :
    SortedIndex (makeGap m (slot m heap.index i) loc) heap.index ↔
      ∀ l < i, headerSize m (slot m heap.index l) ≤ loc - slot m heap.index i := by
  obtain ⟨hstart, -, hend⟩ := h.slot_bounds hi
  have hlt := h.end_lt
  have hbeside : ∀ j < heap.index.size, j ≠ i → _ := fun j hj hne => h.slot_beside hj hi hne
  have hslot : ∀ j < heap.index.size, _ := fun j hj =>
    h.slot_eq_of_above (makeGap m (slot m heap.index i) loc) hj
  have hmins : ∀ j < heap.index.size, minBlock ≤ headerSize m (slot m heap.index j) :=
    fun j hj => (h.slot_bounds hj).2.1
  obtain ⟨hole, hhole⟩ : ∃ hole, slot m heap.index i = hole := ⟨_, rfl⟩
  simp only [hhole] at hstart hend hbeside hslot hgap hle ⊢
  have happly : ∀ x, x < hole ∨ loc ≤ x → makeGap m hole loc x = m x := fun x hx =>
    makeGap_apply_of_notMem hgap (by omega) hx
  have hbefore : ∀ x < heap.startAddr, makeGap m hole loc x = m x := fun x hx =>
    happly x (by omega)
  have hsize : headerSize (makeGap m hole loc) hole = loc - hole :=
    headerSize_makeGap_of_le hgap (by omega)
  have hothers : ∀ j < heap.index.size, j ≠ i →
      headerSize (makeGap m hole loc) (slot m heap.index j) =
        headerSize m (slot m heap.index j) := by
    intro j hj hne
    have hbesidej := hbeside j hj hne
    have hminj := hmins j hj
    simp only [minBlock, sizeofHeader, sizeofFooter] at hminj
    exact headerSize_congr fun x hx hx' => happly x (by omega)
  have hat : headerSize (makeGap m hole loc) (slot (makeGap m hole loc) heap.index i) =
      loc - hole := by
    rw [hslot i hi hbefore, hhole, hsize]
  have hiff := monotoneOn_of_shrunk
    (g := fun j => headerSize (makeGap m hole loc) (slot (makeGap m hole loc) heap.index j))
    hsorted hi
    (fun j hj hne => by simp only [hslot j hj hbefore, hothers j hj hne])
    (by simp only [hat, hhole]; omega)
  simp only [hat] at hiff
  exact hiff

/-- **`alloc` keeps the order** when it leaves a hole in front of an aligned block, exactly when
this hole is not smaller than one that comes before it in the index. -/
theorem allocFrom_sorted_iff (h : ExactHeap k.mem k.heap blocks)
    (hsorted : SortedIndex k.mem k.heap.index)
    (hcomparer : k.heap.index.comparer = some headerComparer) (hi : i < k.heap.index.size)
    (hgap : LeavesGap k.mem (slot k.mem k.heap.index i) total)
    (hok : allocFrom k total true i = .ok (p, k')) :
    SortedIndex k'.mem k'.heap.index ↔ LeavesInOrder k.mem k.heap.index i := by
  obtain ⟨htotal, hbranch, hfront, hcut⟩ := hgap
  obtain ⟨hstart, -, hend⟩ := h.slot_bounds hi
  have hlt := h.end_lt
  have hstorage := h.storage
  have hindex := h.size_le
  have hbeside : ∀ j < k.heap.index.size, j ≠ i → _ := fun j hj hne => h.slot_beside hj hi hne
  have hbounds : ∀ j < k.heap.index.size, _ := fun j hj => h.slot_bounds hj
  have hslot : ∀ j < k.heap.index.size, _ := fun j hj =>
    h.slot_eq_of_above (makeGap k.mem (slot k.mem k.heap.index i)
      (newHoleLoc (slot k.mem k.heap.index i))) hj
  rw [allocFrom_gap hi hbranch, takenRoom, if_pos hbranch, takenSize] at hok
  have hiff := h.makeGap_sorted_iff hsorted hi hfront (by omega)
  rw [LeavesInOrder, ← hiff]
  obtain ⟨hole, hhole⟩ : ∃ hole, slot k.mem k.heap.index i = hole := ⟨_, rfl⟩
  obtain ⟨s, hs⟩ : ∃ s, headerSize k.mem hole = s := ⟨_, rfl⟩
  simp only [hhole, hs] at hstart hend hbeside hslot hfront hcut hok ⊢
  generalize newHoleLoc hole = loc at hslot hfront hcut hok ⊢
  have hminBlock : minBlock = 20 := rfl
  have hbefore : ∀ x < k.heap.startAddr, makeGap k.mem hole loc x = k.mem x := fun x hx =>
    makeGap_apply_of_notMem hfront (by omega) (by omega)
  have hsize : headerSize (makeGap k.mem hole loc) hole = loc - hole :=
    headerSize_makeGap_of_le hfront (by omega)
  rw [hsize, wsub_eq (by omega) (by omega), wsub_eq (by omega) (by omega), if_neg (by omega)] at hok
  refine placeBlock_sorted_iff hcomparer htotal (by omega) (by omega) (by omega)
    (fun j hj => ?_) hok
  rw [hslot j hj hbefore]
  obtain ⟨hstartj, hminj, -⟩ := hbounds j hj
  refine ⟨by omega, ?_⟩
  obtain rfl | hne := eq_or_ne j i
  · rw [hhole]
    left
    simp only [sizeofHeader]
    omega
  · have hbesidej := hbeside j hj hne
    simp only [sizeofHeader]
    omega

/-- **An aligned allocation that leaves a gap** keeps the order exactly when the gap is not smaller
than a hole that comes before it in the index. -/
theorem alloc_sorted_iff {depth : ℕ} (h : ExactHeap k.mem k.heap blocks)
    (hsorted : SortedIndex k.mem k.heap.index)
    (hcomparer : k.heap.index.comparer = some headerComparer)
    (hgrown : findSmallestHole k.mem k.heap (totalBlockSize size) true = none →
      TakesHole (fun k₁ _ => ListsInOrder k₁.heap.endAddr k₁) depth k size true)
    (hgap : TakesHole (fun k₁ i => LeavesGap k₁.mem (slot k₁.mem k₁.heap.index i)
      (totalBlockSize size)) depth k size true)
    (hok : Mem.alloc depth k size true = .ok (p, k')) :
    SortedIndex k'.mem k'.heap.index ↔
      TakesHole (fun k₁ i => LeavesInOrder k₁.mem k₁.heap.index i) depth k size true := by
  obtain ⟨k₁, i, hframe, hfind, hfrom, hsame, htakes⟩ := exists_takesHole hok
  rw [htakes] at hgap ⊢
  have hlists : ListsInOrder k₁.heap.endAddr k₁ := by
    cases hfirst : findSmallestHole k.mem k.heap (totalBlockSize size) true with
    | none => exact (htakes _).mp (hgrown hfirst)
    | some j =>
      rw [hsame j hfirst]
      exact ⟨blocks, h, hsorted⟩
  obtain ⟨blocks₁, hexact, hsorted₁⟩ := hlists
  exact allocFrom_sorted_iff hexact hsorted₁ (hframe.comparer ▸ hcomparer)
    (findSmallestHole_eq_some hfind).1 hgap hfrom

/-- **When the index stays in order.** In a heap whose index lists exactly the holes, in order, the
index is in order after `make_space` exactly when the hole that gets the new memory does not become
larger than one that comes behind it; and after an aligned allocation that leaves a gap exactly when
the gap is not smaller than a hole that comes before it. When page tables had to be made or the heap
has grown, this is so of the state to which the memory is added or from which the hole is taken. -/
theorem sortedKept_iff (h : ExactHeap k.mem k.heap blocks)
    (hsorted : SortedIndex k.mem k.heap.index)
    (hcomparer : k.heap.index.comparer = some headerComparer) (hpos : 0 < k.heap.startAddr)
    (hpages : k.heap.startAddr % pageSize = 0) (depth : ℕ) :
    (∀ n k', n < 2 ^ 32 →
      (¬NoNewTable k (k.heap.endAddr - k.heap.startAddr + n) →
        GrowsInto (ListsInOrder k.heap.endAddr) (Mem.alloc depth) k n) →
      GrowsInto (fun k₁ => GrowsApart k₁.mem k₁.heap.index (growthFor k.heap n))
        (Mem.alloc depth) k n →
      makeSpace (Mem.alloc depth) k n = .ok k' →
      (SortedIndex k'.mem k'.heap.index ↔
        GrowsInto (fun k₁ => GrowsInOrder k₁.mem k₁.heap.index (growthFor k.heap n))
          (Mem.alloc depth) k n)) ∧
    ∀ size p k', (findSmallestHole k.mem k.heap (totalBlockSize size) true = none →
        TakesHole (fun k₁ _ => ListsInOrder k₁.heap.endAddr k₁) depth k size true) →
      TakesHole (fun k₁ i => LeavesGap k₁.mem (slot k₁.mem k₁.heap.index i) (totalBlockSize size))
        depth k size true →
      Mem.alloc depth k size true = .ok (p, k') →
      (SortedIndex k'.mem k'.heap.index ↔
        TakesHole (fun k₁ i => LeavesInOrder k₁.mem k₁.heap.index i) depth k size true) :=
  ⟨fun _ _ hneeded htables hapart hok =>
      makeSpace_sorted_iff h hsorted hpos hpages hneeded htables hapart hok,
    fun _ _ _ hgrown hgap hok => alloc_sorted_iff h hsorted hcomparer hgrown hgap hok⟩

/-- The first heap stays in order when it gets a page, and when 100 bytes are put at its first
page. -/
theorem sorted_first_heap : ∃ k n k₁ size p k₂, ExactHeap k.mem k.heap [firstHole] ∧
    SortedIndex k.mem k.heap.index ∧ makeSpace (Mem.alloc 1) k n = .ok k₁ ∧
    SortedIndex k₁.mem k₁.heap.index ∧ Mem.alloc 1 k size true = .ok (p, k₂) ∧
    SortedIndex k₂.mem k₂.heap.index := by
  have hrun : returns (sampleRun []) (fun k => decide (LaidOut k.mem k.heap [firstHole]) &&
      (decide (k.heap.index.size = 1 ∧ slot k.mem k.heap.index 0 ≠ 0) &&
      (decide (findSmallestHole k.mem k.heap (totalBlockSize 100) true = some 0 ∧
        LeavesGap k.mem (slot k.mem k.heap.index 0) (totalBlockSize 100)) &&
      (returns (makeSpace (Mem.alloc 1) k pageSize) (fun _ => true) &&
        returns (Mem.alloc 1 k 100 true) fun _ => true)))) = true := by
    decide +kernel
  obtain ⟨k, hk, hrun⟩ := exists_of_returns hrun
  simp only [Bool.and_eq_true, decide_eq_true_eq] at hrun
  obtain ⟨hlaid, ⟨hone, hne⟩, ⟨hfind, hgap⟩, hspace, halloc⟩ := hrun
  obtain ⟨k₁, hspace, -⟩ := exists_of_returns hspace
  obtain ⟨⟨p, k₂⟩, halloc, -⟩ := exists_of_returns halloc
  have hw := (reached_of_sampleRun hk).wellFormed hlaid
  have hexact : ExactHeap k.mem k.heap [firstHole] := by
    refine hw.inv.exact fun i hi => ?_
    obtain rfl : i = 0 := by omega
    exact hne
  have hsorted : SortedIndex k.mem k.heap.index := sortedIndex_of_size_le hone.le
  have htables : NoNewTable k (k.heap.endAddr - k.heap.startAddr + pageSize) := by
    obtain ⟨k₀, -, hk₀⟩ := except_bind_eq_ok.mp hk
    rw [← Except.ok.inj hk₀]
    exact fun _ _ => rfl
  have hno_wrap : k.heap.endAddr + pageSize < 2 ^ 32 := by
    have hend := hw.layout.end_le
    have htop : heapStart + heapMaxSize + pageSize < 2 ^ 32 := by decide
    omega
  obtain ⟨k₃, hexpand, -⟩ := except_bind_eq_ok.mp hspace
  have hlast : ∀ j, (lastHeader k.mem k.heap.index k.heap.index.size).1 = some j → j = 0 :=
    fun j hj => by
      have hlt := lastHeader_lt hj
      omega
  have hpages : k.heap.startAddr % pageSize = 0 := by
    rw [hw.layout.start]
    decide
  obtain ⟨hgrows, htakes⟩ := sortedKept_iff hexact hsorted hw.layout.comparer
    hw.inv.bounds.start_pos hpages 1
  have hapart : GrowsInto (fun k₁ => GrowsApart k₁.mem k₁.heap.index (growthFor k.heap pageSize))
      (Mem.alloc 1) k pageSize := by
    refine (growsInto_iff_of_tables (P := fun m index =>
      GrowsApart m index (growthFor k.heap pageSize))
      hexact hno_wrap htables hexpand).mpr fun j hj i hi hij => ?_
    have hzero := hlast j hj
    omega
  have hinOrder : GrowsInto (fun k₁ => GrowsInOrder k₁.mem k₁.heap.index
      (growthFor k.heap pageSize))
      (Mem.alloc 1) k pageSize := by
    refine (growsInto_iff_of_tables
      (P := fun m index => GrowsInOrder m index (growthFor k.heap pageSize))
      hexact hno_wrap htables hexpand).mpr fun j hj i hi hij => ?_
    omega
  refine ⟨k, pageSize, k₁, 100, p, k₂, hexact, hsorted, hspace, ?_, halloc, ?_⟩
  · exact (hgrows pageSize k₁ (by decide) (fun hnew => absurd htables hnew) hapart hspace).mpr
      hinOrder
  · refine (htakes 100 p k₂ (fun hnone => ?_) ?_ halloc).mpr ?_
    · rw [hfind] at hnone
      cases hnone
    · rw [TakesHole, hfind]
      exact hgap
    · rw [TakesHole, hfind]
      exact fun l hl => absurd hl (Nat.not_lt_zero l)

/-- **The second aligned block** leaves a gap of 3976 bytes behind one of 4084. -/
theorem gap_out_of_order : ∃ k p k' blocks i, ExactHeap k.mem k.heap blocks ∧
    SortedIndex k.mem k.heap.index ∧ k.heap.index.comparer = some headerComparer ∧
    findSmallestHole k.mem k.heap (totalBlockSize 100) true = some i ∧
    LeavesGap k.mem (slot k.mem k.heap.index i) (totalBlockSize 100) ∧
    Mem.alloc 1 k 100 true = .ok (p, k') ∧ ¬SortedIndex k'.mem k'.heap.index := by
  have hrun : returns (sampleRun [(100, true)]) (fun k => decide (LaidOut k.mem k.heap
        [⟨firstHole.addr, 4084, true⟩, ⟨firstHole.addr + 4084, 120, false⟩,
          ⟨firstHole.addr + 4204, firstHole.size - 4204, true⟩]) &&
      (decide ((∀ i < k.heap.index.size, slot k.mem k.heap.index i ≠ 0) ∧
        SortedIndex k.mem k.heap.index) &&
      (decide (findSmallestHole k.mem k.heap (totalBlockSize 100) true = some 1 ∧
        LeavesGap k.mem (slot k.mem k.heap.index 1) (totalBlockSize 100)) &&
      returns (Mem.alloc 1 k 100 true) fun r => decide ¬SortedIndex r.2.mem r.2.heap.index))) =
        true := by
    decide +kernel
  obtain ⟨k, hk, hrun⟩ := exists_of_returns hrun
  simp only [Bool.and_eq_true, decide_eq_true_eq] at hrun
  obtain ⟨hlaid, ⟨hne, hsorted⟩, ⟨hfind, hgap⟩, halloc⟩ := hrun
  obtain ⟨⟨p, k'⟩, halloc, hnot⟩ := exists_of_returns halloc
  have hw := (reached_of_sampleRun hk).wellFormed hlaid
  exact ⟨k, p, k', _, 1, hw.inv.exact hne, hsorted, hw.layout.comparer, hfind, hgap, halloc,
    of_decide_eq_true hnot⟩

end Studix.Mem
