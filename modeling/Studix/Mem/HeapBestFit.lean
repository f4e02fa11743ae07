import Studix.Mem.HeapOrder

/-!
# The search for a hole is best fit

Without alignment, `find_smallest_hole` returns the first entry of the index whose size is at least
the size asked for. The index is in ascending order of the sizes, so this is a smallest hole that
will do. The position is returned as an `int32_t`, and -1 stands for no hole.

## Main definitions

* `holeIndex`: the value that `find_smallest_hole` returns.
* `Adequate`: the sizes of the holes that will do.

## Main results

* `findSmallestHole_bestFit`: the search is best fit.
-/

namespace Studix.Mem

variable {m : Memory} {heap : Heap} {i n size : ℕ}

/-- The `int32_t` that `find_smallest_hole` returns. -/
def holeIndex (found : Option ℕ) : BitVec 32 := found.elim (-1) (BitVec.ofNat 32)

theorem toInt_holeIndex_some (h : i < 2 ^ 31) : (holeIndex (some i)).toInt = i := by
  have hnat : (BitVec.ofNat 32 i).toNat = i := by
    rw [BitVec.toNat_ofNat, Nat.mod_eq_of_lt (by omega)]
  rw [holeIndex, Option.elim_some, BitVec.toInt_eq_toNat_of_lt (by omega), hnat]

theorem toInt_holeIndex_none : (holeIndex none).toInt = -1 := by
  decide

/-- The sizes of the indexed holes that are at least `size`. -/
def Adequate (m : Memory) (index : OrderedArray) (size : ℕ) : Set ℕ :=
  {n | size ≤ n ∧ ∃ i < index.size, headerSize m (slot m index i) = n}

theorem holeFits_iff {header : ℕ} :
    holeFits m header size false = true ↔ size ≤ headerSize m header := by
  simp only [holeFits, Bool.false_eq_true, if_false, decide_eq_true_eq]

/-- In an index in order, the first hole that will do is a smallest one. -/
theorem isLeast_of_findSmallestHole (hsorted : SortedIndex m heap.index)
    (h : findSmallestHole m heap size false = some i) :
    IsLeast (Adequate m heap.index size) (headerSize m (slot m heap.index i)) := by
  obtain ⟨hi, hfits⟩ := findSmallestHole_eq_some h
  refine ⟨⟨holeFits_iff.mp hfits, i, hi, rfl⟩, ?_⟩
  rintro n ⟨hle, j, hj, rfl⟩
  have hij : i ≤ j := by
    by_contra! hlt
    exact findSmallestHole_first h hlt (holeFits_iff.mpr hle)
  exact hsorted (Set.mem_Iio.mpr hi) (Set.mem_Iio.mpr hj) hij

theorem adequate_eq_empty_of_findSmallestHole (h : findSmallestHole m heap size false = none) :
    Adequate m heap.index size = ∅ := by
  refine Set.eq_empty_of_forall_notMem ?_
  rintro n ⟨hle, j, hj, rfl⟩
  exact findSmallestHole_eq_none h hj (holeFits_iff.mpr hle)

/-- **The search is best fit.** For every heap whose index is in order and every size, the search
returns the position of a hole that is at least `size` and no larger than another that is, and it
returns -1 exactly when there is none. -/
theorem findSmallestHole_bestFit (size : ℕ) (hentries : heap.index.size < 2 ^ 31)
    (hsorted : SortedIndex m heap.index) :
    ((holeIndex (findSmallestHole m heap size false)).toInt = -1 ↔
        Adequate m heap.index size = ∅) ∧
      ((Adequate m heap.index size).Nonempty → ∃ i < heap.index.size,
        (holeIndex (findSmallestHole m heap size false)).toInt = i ∧
          IsLeast (Adequate m heap.index size) (headerSize m (slot m heap.index i))) := by
  cases hfind : findSmallestHole m heap size false with
  | none =>
    have hempty := adequate_eq_empty_of_findSmallestHole hfind
    refine ⟨iff_of_true toInt_holeIndex_none hempty, fun hne => ?_⟩
    exact absurd hempty hne.ne_empty
  | some i =>
    have hi := (findSmallestHole_eq_some hfind).1
    have hleast := isLeast_of_findSmallestHole hsorted hfind
    have hvalue : (holeIndex (some i)).toInt = i := toInt_holeIndex_some (hi.trans hentries)
    refine ⟨iff_of_false (fun h => ?_) (Set.nonempty_of_mem hleast.1).ne_empty, fun _ =>
      ⟨i, hi, hvalue, hleast⟩⟩
    omega

/-- Holes of 24, 40, 40 and 64 bytes, with their headers at 64, 192, 128 and 256. -/
def fourHoles : Memory :=
  setHeaderSize (setHeaderSize (setHeaderSize (setHeaderSize (store32 (store32 (store32 (store32
    (fun _ => 0) 0 64) 4 192) 8 128) 12 256) 64 24) 192 40) 128 40) 256 64

/-- The heap with these holes, its index at address 0. -/
def fourHolesHeap : Heap := ⟨⟨0, 4, 8, some headerComparer⟩, 64, 4096, 8192, true, false⟩

/-- For 30 bytes it is the first hole of 40. -/
theorem findSmallestHole_bestFit_fourHoles : fourHolesHeap.index.size < 2 ^ 31 ∧
    SortedIndex fourHoles fourHolesHeap.index ∧
    ∃ i < 4, (holeIndex (findSmallestHole fourHoles fourHolesHeap 30 false)).toInt = (i : ℕ) ∧
      IsLeast (Adequate fourHoles fourHolesHeap.index 30)
        (headerSize fourHoles (slot fourHoles fourHolesHeap.index i)) := by
  have hentries : fourHolesHeap.index.size < 2 ^ 31 := by decide
  have hsorted : SortedIndex fourHoles fourHolesHeap.index := by decide +kernel
  have hbest := (findSmallestHole_bestFit 30 hentries hsorted).2
  exact ⟨hentries, hsorted, hbest ⟨40, by decide, 1, by decide, by decide +kernel⟩⟩

end Studix.Mem
