import Studix.Mem.HeapCarve

/-!
# The heap gets new memory

What `make_space` does to the blocks of the heap when no page table has to be made. The new memory
is meant for the hole at the end of the heap, or else for a new hole. The loop over the index counts
how often the address gets higher from one entry to the next highest so far, and takes the count for
the position of the highest entry; so the memory goes to the last hole exactly when the entries up
to that hole's are in ascending order.

## Main definitions

* `SelectsHighest`: what the loop over the index is for.
* `Grows`, `SpaceAdded`: what is meant.
* `NoWrap`, `LastInOrder`: the condition.

## Main results

* `lastHeader_eq_some_iff`: the entry that the loop over the index finds.
* `selectsHighest_iff`: when it is the highest one.
* `expand_of_tables`: the heap after `expand`.
* `spaceAdded_iff`: the new memory becomes part of one hole exactly under the condition.
-/

namespace Studix.Mem

variable {m m' : Memory} {heap : Heap} {index : OrderedArray} {blocks blocks' xs : List Block}
  {B H : Block} {k k' : Kernel} {alloc : Alloc} {i j n p : ℕ}

/-! ### The loop over the index -/

theorem lastHeader_succ (m : Memory) (index : OrderedArray) (n : ℕ) :
    lastHeader m index (n + 1) =
      if (lastHeader m index n).2 < slot m index n then
        (some ((lastHeader m index n).1.elim 0 (· + 1)), slot m index n)
      else lastHeader m index n := rfl

theorem lastHeader_lt (h : (lastHeader m index n).1 = some i) : i < n := by
  induction n generalizing i with
  | zero => cases h
  | succ n ih =>
    rw [lastHeader_succ] at h
    split_ifs at h
    · obtain rfl := Option.some.inj h
      cases hprev : (lastHeader m index n).1 with
      | none => exact Nat.succ_pos n
      | some j => exact Nat.succ_lt_succ (ih hprev)
    · exact Nat.lt_succ_of_lt (ih h)

/-- The value is the highest address so far. -/
theorem slot_le_lastHeader (hj : j < n) : slot m index j ≤ (lastHeader m index n).2 := by
  induction n with
  | zero => exact absurd hj (Nat.not_lt_zero j)
  | succ n ih =>
    rw [lastHeader_succ]
    rcases Nat.lt_succ_iff_lt_or_eq.mp hj with hlt | rfl
    · have hle := ih hlt
      split_ifs
      · simp only
        omega
      · exact hle
    · split_ifs
      · exact le_rfl
      · omega

theorem lastHeader_le {v : ℕ} (h : ∀ j < n, slot m index j ≤ v) : (lastHeader m index n).2 ≤ v := by
  induction n with
  | zero => exact Nat.zero_le v
  | succ n ih =>
    rw [lastHeader_succ]
    split_ifs
    · exact h n (Nat.lt_succ_self n)
    · exact ih fun j hj => h j (by omega)

/-- The first `n` entries are in ascending order. -/
def Ascending (m : Memory) (index : OrderedArray) (n : ℕ) : Prop :=
  ∀ i j, i < j → j < n → slot m index i < slot m index j

/-- Entries in ascending order are all counted. -/
theorem lastHeader_of_ascending (hpos : ∀ j < n, 0 < slot m index j) (hasc : Ascending m index n)
    (hn : 0 < n) : lastHeader m index n = (some (n - 1), slot m index (n - 1)) := by
  induction n with
  | zero => exact absurd hn (lt_irrefl 0)
  | succ n ih =>
    rw [lastHeader_succ, Nat.add_sub_cancel]
    rcases Nat.eq_zero_or_pos n with rfl | hn'
    · exact if_pos (hpos 0 hn)
    · rw [ih (fun j hj => hpos j (by omega)) (fun i j hij hj => hasc i j hij (by omega)) hn',
        if_pos (hasc (n - 1) n (by omega) (by omega))]
      simp only [Option.elim_some, Nat.sub_add_cancel hn']

/-- When all entries are counted they are in ascending order. -/
theorem ascending_of_lastHeader (h : (lastHeader m index (n + 1)).1 = some n) :
    Ascending m index (n + 1) := by
  induction n with
  | zero => exact fun i j hij hj => absurd hij (by omega)
  | succ n ih =>
    rw [lastHeader_succ] at h
    split_ifs at h with hlt
    · have hprev : (lastHeader m index (n + 1)).1 = some n := by
        cases hprev : (lastHeader m index (n + 1)).1 with
        | none => simp [hprev] at h
        | some j => simpa [hprev] using h
      intro i j hij hj
      rcases Nat.lt_succ_iff_lt_or_eq.mp hj with hj' | rfl
      · exact ih hprev i j hij hj'
      · exact (slot_le_lastHeader (by omega)).trans_lt hlt
    · exact absurd (lastHeader_lt h) (lt_irrefl _)

/-- Entries that are not higher are not counted. -/
theorem lastHeader_of_le (hpn : p ≤ n)
    (hle : ∀ j, p ≤ j → j < n → slot m index j ≤ (lastHeader m index p).2) :
    lastHeader m index n = lastHeader m index p := by
  induction n, hpn using Nat.le_induction with
  | base => rfl
  | succ n hpn ih =>
    have hprev := ih fun j hj hlt => hle j hj (by omega)
    rw [lastHeader_succ, hprev, if_neg (not_lt.mpr (hle n hpn (Nat.lt_succ_self n)))]

/-- **The entry that the loop finds.** When entry `p` is the highest, the loop finds it exactly when
the entries up to it are in ascending order. -/
theorem lastHeader_eq_some_iff (hp : p < n) (hpos : ∀ j < n, 0 < slot m index j)
    (hmax : ∀ j < n, j ≠ p → slot m index j < slot m index p) :
    (lastHeader m index n).1 = some p ↔ Ascending m index (p + 1) := by
  have hvalue : (lastHeader m index (p + 1)).2 = slot m index p := by
    refine le_antisymm (lastHeader_le fun j hj => ?_) (slot_le_lastHeader (Nat.lt_succ_self p))
    rcases Nat.lt_succ_iff_lt_or_eq.mp hj with hlt | rfl
    · exact (hmax j (by omega) hlt.ne).le
    · exact le_rfl
  have htail : lastHeader m index n = lastHeader m index (p + 1) := by
    refine lastHeader_of_le hp fun j hj hlt => ?_
    rw [hvalue]
    exact (hmax j hlt (by omega)).le
  rw [htail]
  constructor
  · exact ascending_of_lastHeader
  · intro hasc
    rw [lastHeader_of_ascending (fun j hj => hpos j (by omega)) hasc (Nat.succ_pos p)]
    rfl

/-- Entry `p` has the highest address of the index. -/
def Highest (m : Memory) (index : OrderedArray) (p : ℕ) : Prop :=
  p < index.size ∧ ∀ j < index.size, slot m index j ≤ slot m index p

/-- The loop of `make_space` ends with the position of the header with the highest address. -/
def SelectsHighest (m : Memory) (index : OrderedArray) : Prop :=
  ∃ p, Highest m index p ∧ (lastHeader m index index.size).1 = some p

theorem exists_highest (hsize : 0 < index.size) : ∃ p, Highest m index p := by
  have hne : (Finset.range index.size).Nonempty := Finset.nonempty_range_iff.mpr hsize.ne'
  obtain ⟨p, hp, hmax⟩ := (Finset.range index.size).exists_max_image (slot m index) hne
  exact ⟨p, Finset.mem_range.mp hp, fun j hj => hmax j (Finset.mem_range.mpr hj)⟩

/-- **When the highest hole is selected.** For every index of headers at addresses other than zero
that are all different, the loop ends with the position of the highest one exactly when the entries
up to it are in ascending order. -/
theorem selectsHighest_iff (hsize : 0 < index.size) (hpos : ∀ j < index.size, slot m index j ≠ 0)
    (hdistinct : Set.InjOn (slot m index) (Set.Iio index.size)) :
    SelectsHighest m index ↔ ∀ p, Highest m index p → Ascending m index (p + 1) := by
  have hfound : ∀ p, Highest m index p →
      ((lastHeader m index index.size).1 = some p ↔ Ascending m index (p + 1)) := by
    intro p hp
    refine lastHeader_eq_some_iff hp.1 (fun j hj => Nat.pos_of_ne_zero (hpos j hj))
      fun j hj hne => ?_
    exact lt_of_le_of_ne (hp.2 j hj) fun heq => hne (hdistinct hj hp.1 heq)
  constructor
  · rintro ⟨p, hp, hlast⟩ q hq
    obtain rfl : q = p := hdistinct hq.1 hp.1 (le_antisymm (hp.2 q hq.1) (hq.2 p hp.1))
    exact (hfound q hq).mp hlast
  · intro hasc
    obtain ⟨p, hp⟩ := exists_highest (m := m) hsize
    exact ⟨p, hp, (hfound p hp).mpr (hasc p hp)⟩

/-- An index with headers at `a`, `b` and `c`, stored at address 0. -/
def threeHeaders (a b c : ℕ) : Memory :=
  store32 (store32 (store32 (fun _ => 0) 0 a) 4 b) 8 c

/-- The index of three entries at address 0. -/
def threeEntries : OrderedArray := ⟨0, 3, 4, some headerComparer⟩

/-- The highest of three headers comes second, behind a lower one. -/
theorem selectsHighest_threeHeaders : SelectsHighest (threeHeaders 64 256 128) threeEntries := by
  set index := slot (threeHeaders 64 256 128) threeEntries
  have hpos : ∀ j < 3, index j ≠ 0 := by decide +kernel
  have hdistinct : ∀ i < 3, ∀ j < 3, index i = index j → i = j := by decide +kernel
  have hhighest : ∀ p < 3, (∀ j < 3, index j ≤ index p) → p = 1 := by decide +kernel
  have hlower : index 0 < index 1 := by decide +kernel
  have hinj : Set.InjOn index (Set.Iio threeEntries.size) := fun i hi j hj => hdistinct i hi j hj
  refine (selectsHighest_iff (by decide) hpos hinj).mpr fun p ⟨hp, hmax⟩ => ?_
  obtain rfl := hhighest p hp hmax
  intro i j hij hj
  obtain ⟨rfl, rfl⟩ : i = 0 ∧ j = 1 := by omega
  exact hlower

/-- When a lower header comes between the first and the highest, the loop ends at the lower one. -/
theorem lower_hole_selected : (∀ j < 3, slot (threeHeaders 128 64 256) threeEntries j ≠ 0) ∧
    (lastHeader (threeHeaders 128 64 256) threeEntries 3).1 = some 1 ∧
    Highest (threeHeaders 128 64 256) threeEntries 2 ∧
    ¬SelectsHighest (threeHeaders 128 64 256) threeEntries := by
  have hlast : (lastHeader (threeHeaders 128 64 256) threeEntries threeEntries.size).1 =
      some 1 := by
    decide +kernel
  refine ⟨by decide +kernel, hlast, ⟨by decide, by decide +kernel⟩, ?_⟩
  rintro ⟨p, ⟨-, hmax⟩, hp⟩
  obtain rfl : 1 = p := Option.some.inj (hlast.symm.trans hp)
  exact absurd (hmax 2 (by decide)) (by decide +kernel)

/-! ### The new end -/

/-- The end of the heap after `make_space`, if nothing wraps: the length it needs, in whole
pages. -/
def grownEnd (heap : Heap) (neededSize : ℕ) : ℕ :=
  heap.startAddr +
    (heap.endAddr - heap.startAddr + neededSize + (pageSize - 1)) / pageSize * pageSize

theorem alignUp_eq_mod {ptr : ℕ} (h : ptr < 2 ^ 32) :
    alignUp ptr = (ptr + (pageSize - 1)) / pageSize * pageSize % 2 ^ 32 := by
  rw [alignUp]
  split_ifs with ha
  · have hmod := aligned_iff.mp ha
    simp only [pageSize] at *
    omega
  · have hne : ¬ptr % pageSize = 0 := fun h => ha (aligned_iff.mpr h)
    simp only [pageSize, wadd] at *
    omega

/-- No page table has to be made for the new memory. -/
def NoNewTable (k : Kernel) (newSize : ℕ) : Prop :=
  ∀ n, k.heap.endAddr - k.heap.startAddr + pageSize * n < alignUp newSize →
    (k.kernelDir.tables (pageRef
      (wadd k.heap.startAddr (k.heap.endAddr - k.heap.startAddr + pageSize * n))).1).isSome

theorem allocFrameAt_tables {ref : Option PageRef} {kernel writeable : Bool}
    (h : allocFrameAt k ref kernel writeable = .ok k') (j : ℕ) :
    (k'.kernelDir.tables j).isSome = (k.kernelDir.tables j).isSome := by
  obtain ⟨r, page, frames, page', -, -, -, rfl⟩ := allocFrameAt_cases h
  simp only [PageDir.setEntry]
  by_cases hj : j = r.1
  · subst hj
    rw [Function.update_self, Option.isSome_map]
  · rw [Function.update_of_ne hj]

/-- **The heap after `expand`**, when it makes no page table. -/
theorem expand_of_tables {newSize : ℕ} (hle : k.heap.startAddr ≤ k.heap.endAddr)
    (hlt : k.heap.endAddr < 2 ^ 32) (htables : NoNewTable k newSize)
    (h : expand alloc k newSize = .ok k') :
    k.heap.endAddr < wadd k.heap.startAddr newSize ∧ k'.mem = k.mem ∧
      k'.heap = { k.heap with endAddr := wadd k.heap.startAddr (alignUp newSize) } := by
  have hold : wsub k.heap.endAddr k.heap.startAddr = k.heap.endAddr - k.heap.startAddr :=
    wsub_eq hle hlt
  obtain ⟨_, hassert, h⟩ := except_bind_eq_ok.mp h
  obtain ⟨_, -, h⟩ := except_bind_eq_ok.mp h
  obtain ⟨k₁, hloop, hk'⟩ := except_bind_eq_ok.mp h
  rw [hold] at hloop
  -- The loop changes frames and page table entries only.
  have hinv : k₁.mem = k.mem ∧ k₁.heap = k.heap ∧
      ∀ j, (k₁.kernelDir.tables j).isSome = (k.kernelDir.tables j).isSome := by
    refine forLoopM_invariant (fun _ t => t.mem = k.mem ∧ t.heap = k.heap ∧
      ∀ j, (t.kernelDir.tables j).isSome = (k.kernelDir.tables j).isSome)
      ⟨rfl, rfl, fun _ => rfl⟩ ?_ hloop
    rintro n t t' hn ⟨hmem, hheap, htable⟩ hbody
    have hpage := htables n (by simp only [pageSize] at hn ⊢; omega)
    rw [← htable, ← hheap] at hpage
    rw [expandPage, hheap] at hbody
    rw [hheap] at hpage
    rw [getPage_of_table hpage, except_ok_bind] at hbody
    obtain ⟨hmem', hheap', -⟩ := allocFrameAt_eq_ok hbody
    exact ⟨hmem'.trans hmem, hheap'.trans hheap, fun j =>
      (allocFrameAt_tables hbody j).trans (htable j)⟩
  obtain rfl := Except.ok.inj hk'
  refine ⟨by simpa using hassert, hinv.1, ?_⟩
  simp only [hinv.2.1]

/-! ### What is meant -/

/-- The new memory from `oldEnd` to `newEnd` is added to the hole that ended at `oldEnd`, or becomes
a new hole when there was none. -/
inductive Grows (oldEnd newEnd : ℕ) : List Block → List Block → Prop
  | last {xs : List Block} {H : Block} (htag : H.tag = true) (hend : H.end_ = oldEnd) :
      Grows oldEnd newEnd (xs ++ [H]) (xs ++ [⟨H.addr, H.size + (newEnd - oldEnd), true⟩])
  | new {blocks : List Block} (h : ∀ H ∈ blocks, H.tag = true → H.end_ ≠ oldEnd) :
      Grows oldEnd newEnd blocks (blocks ++ [⟨oldEnd, newEnd - oldEnd, true⟩])

/-- The blocks that do not end at the old end stay. -/
theorem Grows.mem {oldEnd newEnd : ℕ} (h : Grows oldEnd newEnd blocks blocks') (hB : B ∈ blocks)
    (hne : B.end_ ≠ oldEnd) : B ∈ blocks' := by
  cases h with
  | last htag hend =>
    refine List.mem_append_left _ ((List.mem_append.mp hB).resolve_right fun hlast => hne ?_)
    rw [List.mem_singleton.mp hlast, hend]
  | new => exact List.mem_append_left _ hB

/-- The heap of `k'` is that of `k` with the new memory in one hole. -/
def SpaceAdded (k : Kernel) (blocks : List Block) (k' : Kernel) : Prop :=
  ∃ blocks', Grows k.heap.endAddr k'.heap.endAddr blocks blocks' ∧ ExactHeap k'.mem k'.heap blocks'

/-- The hole that ends at the end of the heap comes in the index behind holes in ascending order of
address only. -/
def LastInOrder (m : Memory) (heap : Heap) (blocks : List Block) : Prop :=
  ∃ H ∈ blocks, H.tag = true ∧ H.end_ = heap.endAddr ∧
    ∃ p < heap.index.size, slot m heap.index p = H.addr ∧ Ascending m heap.index (p + 1)

/-! ### The index of the holes -/

section

variable (h : ExactHeap m heap blocks)

include h

theorem ExactHeap.slot_pos (hi : i < heap.index.size) : 0 < slot m heap.index i := by
  obtain ⟨B, hB, -, haddr⟩ := h.exists_hole hi
  have hstart := (h.tiles.bounds hB).1
  have hstorage := h.storage
  have hsize := h.size_le
  omega

theorem ExactHeap.slot_ne (hi : i < heap.index.size) (hj : j < heap.index.size) (hne : i ≠ j) :
    slot m heap.index i ≠ slot m heap.index j := by
  have hnodup : (elems m heap.index).Nodup := by
    refine h.index.nodup_iff.mpr (List.Nodup.sublist ?_ (h.tiles.nodup_addr (by decide)))
    exact List.Sublist.map _ List.filter_sublist
  intro heq
  have hinj := List.nodup_iff_injective_get.mp hnodup
  have hfin := @hinj ⟨i, by simpa using hi⟩ ⟨j, by simpa using hj⟩
    (by simpa only [List.get_eq_getElem, getElem_elems] using heq)
  exact hne (congrArg Fin.val hfin)

/-- The hole at the end of the heap is the highest. -/
theorem ExactHeap.slot_lt_last (hH : H ∈ blocks) (hend : H.end_ = heap.endAddr)
    (hp : p < heap.index.size) (hslot : slot m heap.index p = H.addr) (hj : j < heap.index.size)
    (hne : j ≠ p) : slot m heap.index j < slot m heap.index p := by
  obtain ⟨B, hB, -, haddr⟩ := h.exists_hole hj
  have haddrs := h.slot_ne hj hp hne
  obtain ⟨-, hsize, hle⟩ := h.tiles.bounds hB
  have hmin : 0 < minBlock := by decide
  rw [← haddr, hslot] at haddrs ⊢
  obtain rfl | hbeside := h.tiles.beside hB hH
  · exact absurd rfl haddrs
  · simp only [Tile.end_] at hbeside hend hle
    have hHsize := (h.tiles.bounds hH).2.1
    omega

end

/-! ### The new memory -/

theorem lastHeader_eq_none (h : (lastHeader m index n).1 = none) (hj : j < n) :
    slot m index j = 0 := by
  induction n generalizing j with
  | zero => exact absurd hj (Nat.not_lt_zero j)
  | succ n ih =>
    rw [lastHeader_succ] at h
    split_ifs at h with hlt
    rcases Nat.lt_succ_iff_lt_or_eq.mp hj with hlt' | rfl
    · exact ih h hlt'
    · have hzero : (lastHeader m index j).2 ≤ 0 := lastHeader_le fun i hi => (ih h hi).le
      omega

/-- When there is a hole, the loop finds one. -/
theorem ExactHeap.exists_found (h : ExactHeap m heap blocks) (hne : holes blocks ≠ []) :
    ∃ i W, (lastHeader m heap.index heap.index.size).1 = some i ∧ W ∈ blocks ∧ W.tag = true ∧
      W.addr = slot m heap.index i := by
  have hsize : 0 < heap.index.size := by
    rw [← length_elems m heap.index, h.index.length_eq]
    exact List.length_pos_iff.mpr hne
  cases hfind : (lastHeader m heap.index heap.index.size).1 with
  | none => exact absurd (lastHeader_eq_none hfind hsize) (h.slot_pos hsize).ne'
  | some i =>
    obtain ⟨W, hW, htag, haddr⟩ := h.exists_hole (lastHeader_lt hfind)
    exact ⟨i, W, rfl, hW, htag, haddr⟩

/-- **Without holes** the new memory becomes a hole. -/
theorem addSpace_new {newEnd : ℕ} (h : ExactHeap k.mem k.heap blocks)
    (hmax : 0 < k.heap.index.maxSize) (hnone : k.heap.index.size = 0)
    (hnew : k.heap.endAddr + minBlock ≤ newEnd) (hlt : newEnd < 2 ^ 32) {k₁ : Kernel}
    (hmem : k₁.mem = k.mem) (hheap : k₁.heap = { k.heap with endAddr := newEnd })
    (hadd : addSpace k₁ k.heap.endAddr (newEnd - k.heap.endAddr) = .ok k') :
    k'.heap.endAddr = newEnd ∧ ExactHeap k'.mem k'.heap
      (blocks ++ [⟨k.heap.endAddr, newEnd - k.heap.endAddr, true⟩]) := by
  have hstorage := h.storage
  have hle := h.tiles.le
  have hholes : holes blocks = [] := by
    refine List.eq_nil_of_length_eq_zero ?_
    rw [← h.index.length_eq, length_elems, hnone]
  have hsize : k₁.heap.index.size = 0 := by rw [hheap, hnone]
  rw [addSpace, hsize, hmem] at hadd
  obtain ⟨⟨mem, index⟩, hinsert, hk'⟩ := except_bind_eq_ok.mp hadd
  obtain rfl := Except.ok.inj hk'
  obtain ⟨hheader, hsame⟩ := makeHole_spec { k.heap with endAddr := newEnd } k.mem
    (show minBlock ≤ newEnd - k.heap.endAddr by omega) (a := k.heap.endAddr) (by omega)
  rw [hheap] at hinsert
  obtain ⟨mem', p, hinsert', hp, hslot, hframe⟩ := orderedArrayInsert_spec
    (makeHole k.mem k.heap.endAddr (newEnd - k.heap.endAddr)) k.heap.index k.heap.endAddr h.comparer
    h.end_lt
  obtain ⟨rfl, rfl⟩ := Prod.mk.inj (Except.ok.inj (hinsert'.symm.trans hinsert))
  have habove : ∀ x, k.heap.startAddr ≤ x →
      mem' x = makeHole k.mem k.heap.endAddr (newEnd - k.heap.endAddr) x := fun x hx =>
    hframe x (by omega)
  rw [Kernel.setIndex_mem, Kernel.setIndex_heap, hheap]
  refine ⟨rfl, hstorage, hlt, ?_, fun B hB => ?_, h.comparer, ?_, ?_⟩
  · refine tiles_append.mpr ⟨_, h.tiles, rfl, by simp only; omega, ?_⟩
    simp only [tiles_nil, Tile.end_]
    omega
  · rcases List.mem_append.mp hB with hB | hB
    · obtain ⟨h₁, h₂, h₃⟩ := h.tiles.bounds hB
      refine (h.headers B hB).congr fun x hx hx' => ?_
      simp only [minBlock] at h₂
      simp only [Tile.end_] at h₃
      rw [habove x (h₁.trans hx)]
      exact hsame x (by simp only; omega) (by simp only; omega) (.inl (by omega))
    · obtain rfl := List.mem_singleton.mp hB
      exact hheader.congr fun x hx _ => habove x (hle.trans hx)
  · simp only [hnone]
    omega
  · refine (elems_insert_perm hp hslot).trans ?_
    have helems :
        elems (makeHole k.mem k.heap.endAddr (newEnd - k.heap.endAddr)) k.heap.index = [] := by
      rw [elems, hnone]
      rfl
    simp [helems, hholes]

/-- The hole whose header the loop finds gets the new memory. -/
theorem addSpace_some {newEnd : ℕ} {W : Block} (h : ExactHeap k.mem k.heap blocks)
    (hW : W ∈ blocks) (hfind : (lastHeader k.mem k.heap.index k.heap.index.size).1 = some i)
    (hslot : slot k.mem k.heap.index i = W.addr) {k₁ : Kernel} (hmem : k₁.mem = k.mem)
    (hheap : k₁.heap = { k.heap with endAddr := newEnd }) (hlt : newEnd < 2 ^ 32)
    (hle : k.heap.endAddr ≤ newEnd)
    (hadd : addSpace k₁ k.heap.endAddr (newEnd - k.heap.endAddr) = .ok k') :
    k'.mem = resizeBlock k.mem W.addr (W.size + (newEnd - k.heap.endAddr)) ∧
      k'.heap = { k.heap with endAddr := newEnd } := by
  have hsize : headerSize k.mem W.addr = W.size := (h.headers W hW).size
  have hend := (h.tiles.bounds hW).2.2
  simp only [Tile.end_] at hend
  rw [addSpace, hmem, hheap] at hadd
  simp only [hfind, orderedArrayLookup_eq (lastHeader_lt hfind), hslot, except_ok_bind, hsize]
    at hadd
  rw [wadd_eq (by omega)] at hadd
  have hk := (Except.ok.inj hadd).symm
  refine ⟨?_, ?_⟩
  · rw [hk]
  · rw [hk]

/-- **The hole at the end of the heap** with the new memory. -/
theorem ExactHeap.growLast {newEnd : ℕ} (h : ExactHeap m heap (xs ++ [H])) (htag : H.tag = true)
    (hend : H.end_ = heap.endAddr) (hnew : heap.endAddr ≤ newEnd) (hlt : newEnd < 2 ^ 32) :
    ExactHeap (resizeBlock m H.addr (H.size + (newEnd - heap.endAddr)))
      { heap with endAddr := newEnd }
      (xs ++ [⟨H.addr, H.size + (newEnd - heap.endAddr), true⟩]) := by
  have hstorage := h.storage
  obtain ⟨c, hleft, rfl, hsize, -⟩ := tiles_append.mp h.tiles
  have hstart := hleft.le
  simp only [Tile.end_] at hend
  have hheader : HeaderAt m ⟨H.addr, H.size, true⟩ := htag ▸ h.headers H (by simp)
  obtain ⟨hheader', hsame⟩ := resizeBlock_spec { heap with endAddr := newEnd } hheader
    (hsize.trans (Nat.le_add_right H.size (newEnd - heap.endAddr))) (by omega)
  have helems := h.elems_congr fun x hx hx' => hsame x hx (by simp only; omega) (.inl (by omega))
  refine ⟨hstorage, hlt, ?_, fun B hB => ?_, h.comparer, h.size_le, ?_⟩
  · refine tiles_append.mpr ⟨H.addr, hleft, rfl, by simp only; omega, ?_⟩
    simp only [tiles_nil, Tile.end_]
    omega
  · rcases List.mem_append.mp hB with hB | hB
    · obtain ⟨h₁, h₂, h₃⟩ := hleft.bounds hB
      refine (h.headers B (List.mem_append_left _ hB)).congr fun x hx hx' => ?_
      simp only [minBlock] at h₂
      simp only [Tile.end_] at h₃
      exact hsame x (by simp only; omega) (by simp only; omega) (.inl (by omega))
    · obtain rfl := List.mem_singleton.mp hB
      exact hheader'
  · rw [helems]
    simpa [htag] using h.index

/-- The end of `make_space` keeps the bounds of the heap. -/
theorem addSpace_bounds {oldEnd growth : ℕ} (hadd : addSpace k oldEnd growth = .ok k') :
    k'.heap.startAddr = k.heap.startAddr ∧ k'.heap.endAddr = k.heap.endAddr := by
  rw [addSpace] at hadd
  split at hadd
  · obtain ⟨header, -, hadd⟩ := except_bind_eq_ok.mp hadd
    have hk := (Except.ok.inj hadd).symm
    constructor <;> rw [hk]
  · obtain ⟨⟨mem, index⟩, -, hadd⟩ := except_bind_eq_ok.mp hadd
    have hk := (Except.ok.inj hadd).symm
    constructor <;> rw [hk] <;> rfl

/-- A heap with new memory is not empty. -/
theorem Grows.start_lt {oldEnd newEnd start end_ : ℕ} (h : Grows oldEnd newEnd blocks blocks')
    (htiles : Tiles minBlock start end_ blocks') : start < end_ := by
  have hmin : 0 < minBlock := by decide
  obtain ⟨ys, B, rfl⟩ : ∃ ys B, blocks' = ys ++ [B] := by
    cases h with
    | last => exact ⟨_, _, rfl⟩
    | new => exact ⟨_, _, rfl⟩
  obtain ⟨hle, hsize, hend⟩ := htiles.bounds (t := B) (by simp)
  simp only [Tile.end_] at hend
  omega

/-- The size that is needed does not wrap when `expand` passes its first check. -/
theorem needed_no_wrap {neededSize newSize : ℕ} (hle : k.heap.startAddr ≤ k.heap.endAddr)
    (hlt : k.heap.endAddr < 2 ^ 32) (hneeded : neededSize < 2 ^ 32)
    (hsize : newSize = wadd (k.heap.endAddr - k.heap.startAddr) neededSize)
    (h : expand alloc k newSize = .ok k') :
    k.heap.endAddr + neededSize < 2 ^ 32 ∧ 0 < neededSize := by
  obtain ⟨_, hassert, -⟩ := except_bind_eq_ok.mp h
  have hcheck : k.heap.endAddr < wadd k.heap.startAddr newSize := by simpa using hassert
  subst hsize
  simp only [wadd] at hcheck
  omega

/-- **The new memory becomes part of one hole** exactly when the new end of the heap does not wrap
and either there is no hole, or the hole at the end comes in the index behind holes in ascending
order of address only. -/
theorem spaceAdded_iff {neededSize : ℕ} (h : ExactHeap k.mem k.heap blocks)
    (hmax : 0 < k.heap.index.maxSize)
    (hpages : (k.heap.endAddr - k.heap.startAddr) % pageSize = 0) (hneeded : neededSize < 2 ^ 32)
    (htables : NoNewTable k (k.heap.endAddr - k.heap.startAddr + neededSize))
    (hok : makeSpace alloc k neededSize = .ok k') :
    SpaceAdded k blocks k' ↔ grownEnd k.heap neededSize < 2 ^ 32 ∧
      (holes blocks = [] ∨ LastInOrder k.mem k.heap blocks) := by
  have hle := h.tiles.le
  have hlt := h.end_lt
  have hmin : 0 < minBlock := by decide
  have hold : wsub k.heap.endAddr k.heap.startAddr = k.heap.endAddr - k.heap.startAddr :=
    wsub_eq hle hlt
  obtain ⟨k₁, hexpand, hadd⟩ := except_bind_eq_ok.mp hok
  rw [hold] at hexpand hadd
  obtain ⟨hwrap, hpos⟩ := needed_no_wrap hle hlt hneeded rfl hexpand
  rw [wadd_eq (by omega)] at hexpand
  obtain ⟨-, hmem, hheap⟩ := expand_of_tables hle hlt htables hexpand
  have hgrown : grownEnd k.heap neededSize = k.heap.startAddr +
    (k.heap.endAddr - k.heap.startAddr + neededSize + (pageSize - 1)) / pageSize * pageSize := rfl
  have hround := alignUp_eq_mod
    (show k.heap.endAddr - k.heap.startAddr + neededSize < 2 ^ 32 by omega)
  by_cases hend : grownEnd k.heap neededSize < 2 ^ 32
  · have hnew : wadd k.heap.startAddr
        (alignUp (k.heap.endAddr - k.heap.startAddr + neededSize)) =
          grownEnd k.heap neededSize := by
      rw [hround]
      simp only [wadd] at *
      omega
    rw [hnew] at hheap
    have hlarge : k.heap.endAddr + minBlock ≤ grownEnd k.heap neededSize := by
      rw [hgrown]
      simp only [minBlock, sizeofHeader, sizeofFooter, pageSize] at *
      omega
    have hgrowth : wsub (wsub k₁.heap.endAddr k₁.heap.startAddr)
        (k.heap.endAddr - k.heap.startAddr) = grownEnd k.heap neededSize - k.heap.endAddr := by
      rw [hheap]
      simp only
      rw [wsub_eq (by omega) hend, wsub_eq (by omega) (by omega)]
      omega
    simp only [hgrowth] at hadd
    constructor
    · rintro ⟨blocks', hgrows, hexact⟩
      refine ⟨hend, or_iff_not_imp_left.mpr fun hholes => ?_⟩
      -- The memory goes to the hole `W` that the loop finds; it is right for one block only.
      obtain ⟨i, W, hfind, hW, htag, haddr⟩ := h.exists_found hholes
      obtain ⟨hmem', hheap'⟩ := addSpace_some h hW hfind haddr.symm hmem hheap hend (by omega) hadd
      rw [hheap'] at hgrows
      by_cases hlast : W.end_ = k.heap.endAddr
      · have hi := lastHeader_lt hfind
        refine ⟨W, hW, htag, hlast, i, hi, haddr.symm, ?_⟩
        exact (lastHeader_eq_some_iff hi (fun j hj => h.slot_pos hj)
          fun j hj hne => h.slot_lt_last hW hlast hi haddr.symm hj hne).mp hfind
      · have hsize := (hexact.headers W (hgrows.mem hW hlast)).size
        have hend' := (h.tiles.bounds hW).2.2
        have hmin' := (h.tiles.bounds hW).2.1
        simp only [Tile.end_] at hend'
        obtain ⟨hheader, -⟩ := resizeBlock_spec k.heap (h.headers W hW)
          (show minBlock ≤ W.size + (grownEnd k.heap neededSize - k.heap.endAddr) by omega)
          (by omega)
        rw [hmem', hheader.size] at hsize
        simp only at hsize
        omega
    · rintro ⟨-, hholes | ⟨H, hH, htag, hend', p, hp, hslot, hasc⟩⟩
      · have hsize : k.heap.index.size = 0 := by
          rw [← length_elems k.mem k.heap.index, h.index.length_eq, hholes]
          rfl
        obtain ⟨hend', hexact⟩ := addSpace_new h hmax hsize hlarge hend hmem hheap hadd
        refine ⟨_, hend' ▸ .new fun H hH htag => ?_, hexact⟩
        exact absurd (mem_holes.mpr ⟨H, hH, htag, rfl⟩) (by simp [hholes])
      · have hfind := (lastHeader_eq_some_iff hp (fun j hj => h.slot_pos hj)
          fun j hj hne => h.slot_lt_last hH hend' hp hslot hj hne).mpr hasc
        obtain ⟨hmem', hheap'⟩ := addSpace_some h hH hfind hslot hmem hheap hend (by omega) hadd
        obtain ⟨xs, ys, rfl, -, -, hys⟩ := h.tiles.exists_eq_append hH
        rw [hend'] at hys
        obtain rfl := hys.eq_nil hmin
        refine ⟨_, ?_, hmem' ▸ hheap' ▸ h.growLast htag hend' (by omega) hend⟩
        rw [hheap']
        exact .last htag hend'
  · refine iff_of_false ?_ fun hcond => hend hcond.1
    rintro ⟨blocks', hgrows, hexact⟩
    -- The end wraps to the start of the heap or before it.
    have hlt' := hgrows.start_lt hexact.tiles
    obtain ⟨hstart', hend'⟩ := addSpace_bounds hadd
    rw [hstart', hend', hheap, hround] at hlt'
    simp only [grownEnd, wadd, pageSize] at *
    omega

/-- The first heap grows by a page, which its hole gets. -/
theorem spaceAdded_first_heap : ∃ k k', sampleHeap = .ok k ∧
    makeSpace (Mem.alloc 0) k.withTables 4096 = .ok k' ∧
      SpaceAdded k.withTables [firstHole] k' := by
  have hrun : returns sampleHeap (fun k =>
      returns (makeSpace (Mem.alloc 0) k.withTables 4096) fun _ => true) = true := by
    decide +kernel
  obtain ⟨k, hk, hrun⟩ := exists_of_returns hrun
  obtain ⟨k', hspace, -⟩ := exists_of_returns hrun
  have hfirst := firstHeap_of_sampleHeap hk
  have hexact : ExactHeap k.withTables.mem k.withTables.heap [firstHole] := hfirst.exact
  have hmax : 0 < k.withTables.heap.index.maxSize := by
    rw [Kernel.withTables, hfirst.maxSize]
    decide
  refine ⟨k, k', hk, hspace, ?_⟩
  refine (spaceAdded_iff hexact hmax hfirst.inv.bounds.pages (by decide)
    (fun n _ => rfl) hspace).mpr
    ⟨?_, .inr ⟨firstHole, List.mem_singleton.mpr rfl, rfl, ?_, 0, ?_, hfirst.slot_zero, ?_⟩⟩
  · rw [grownEnd, Kernel.withTables, hfirst.start_eq, hfirst.end_eq]
    decide
  · rw [Kernel.withTables, hfirst.end_eq]
    decide
  · rw [Kernel.withTables, hfirst.size]
    decide
  · exact fun i j hij hj => absurd hij (by omega)

/-- A hole at `B` is cut into a hole of `r` bytes and a block in use. -/
def cutHole (m : Memory) (B : Block) (r : ℕ) : Memory :=
  makeBlock (makeGap m B.addr (B.addr + r)) (B.addr + r) (B.size - r)

theorem ExactHeap.cut {r : ℕ} (h : ExactHeap m heap (xs ++ [B])) (hB : B.tag = true)
    (hr : minBlock ≤ r) (hrest : r + minBlock ≤ B.size) :
    ExactHeap (cutHole m B r) heap
      (xs ++ [⟨B.addr, r, true⟩, ⟨B.addr + r, B.size - r, false⟩]) := by
  have hstorage := h.storage
  have hsize_le := h.size_le
  have hlt := h.end_lt
  obtain ⟨c, hleft, rfl, hsize, hend⟩ := tiles_append.mp h.tiles
  have hstart := hleft.le
  simp only [tiles_nil, Tile.end_] at hend
  obtain ⟨hheader, hsame⟩ := makeGap_spec heap m hr (show B.addr + r < 2 ^ 32 by omega)
  obtain ⟨hheader', hsame'⟩ := makeBlock_spec heap (makeGap m B.addr (B.addr + r))
    (show minBlock ≤ B.size - r by omega) (show B.addr + r + (B.size - r) < 2 ^ 32 by omega)
  rw [← cutHole] at hheader' hsame'
  have hboth : SameBeside heap B.addr heap.endAddr m (cutHole m B r) :=
    (hsame.mono le_rfl (by omega)).trans (hsame'.mono (by omega) (by omega))
  have helems := h.elems_congr fun x hx hx' => hboth x hx (by omega) (.inl (by omega))
  refine ⟨hstorage, hlt, ?_, fun A hA => ?_, h.comparer, h.size_le, ?_⟩
  · refine tiles_append.mpr ⟨B.addr, hleft, rfl, hr, rfl, by simp only; omega, ?_⟩
    simp only [tiles_nil, Tile.end_]
    omega
  · rcases List.mem_append.mp hA with hA | hA
    · obtain ⟨h₁, h₂, h₃⟩ := hleft.bounds hA
      refine (h.headers A (List.mem_append_left _ hA)).congr fun x hx hx' => ?_
      simp only [minBlock] at h₂
      simp only [Tile.end_] at h₃
      exact hboth x (by omega) (by omega) (.inl (by omega))
    rcases List.mem_cons.mp hA with rfl | hA
    · simp only [minBlock] at hr
      exact hheader.congr fun x hx hx' => hsame' x (by simp only at hx; omega)
        (by simp only at hx'; omega) (.inl (by simp only at hx'; omega))
    · obtain rfl := List.mem_singleton.mp hA
      exact hheader'
  · have hindex := h.index
    rw [← helems] at hindex
    simpa [hB] using hindex

/-- The first heap with a hole of 100 bytes in front of a block in use. -/
def Kernel.withHole (k : Kernel) : Kernel :=
  { k.withTables with mem := cutHole k.mem firstHole 100 }

/-- **A hole in front of a block in use gets the new memory**, over the block. -/
theorem make_space_grows_first_hole : ∃ k k' blocks, ExactHeap k.mem k.heap blocks ∧
    makeSpace (Mem.alloc 0) k 4096 = .ok k' ∧ ¬SpaceAdded k blocks k' := by
  have hrun : returns sampleHeap (fun k => returns (makeSpace (Mem.alloc 0) k.withHole 4096)
      fun k' =>
      headerSize k'.mem firstHole.addr ≠ 100) = true := by
    decide +kernel
  obtain ⟨k, hk, hrun⟩ := exists_of_returns hrun
  obtain ⟨k', hspace, hsize⟩ := exists_of_returns hrun
  have hfirst := firstHeap_of_sampleHeap hk
  have hcut : ExactHeap (cutHole k.mem firstHole 100) k.heap
      [⟨firstHole.addr, 100, true⟩, ⟨firstHole.addr + 100, firstHole.size - 100, false⟩] :=
    @ExactHeap.cut _ _ [] firstHole 100 hfirst.exact rfl (by decide) (by decide)
  refine ⟨k.withHole, k', [⟨firstHole.addr, 100, true⟩,
    ⟨firstHole.addr + 100, firstHole.size - 100, false⟩], ?_, hspace, ?_⟩
  · simpa only [Kernel.withHole, Kernel.withTables] using hcut
  · rintro ⟨blocks', hgrows, hexact'⟩
    -- The hole does not end at the end of the heap, so it should have stayed.
    have hmem := hgrows.mem List.mem_cons_self ?_
    · exact of_decide_eq_true hsize (hexact'.headers _ hmem).size
    · simp only [Kernel.withHole, Kernel.withTables, hfirst.end_eq]
      decide

end Studix.Mem
