import Studix.Base.Ordered
import Studix.Misc.OrderedArray

/-!
# Insertions into an array in order

`ordered_array_insert` asks the comparer for the first element that is not less than the item and
puts the item in front of it. The comparer is asked before anything is written, so the order is the
one that it gives at the call.

## Main definitions

* `InOrder`: the elements are in the order of a comparer.

## Main results

* `orderedArrayInsert_inOrder`: an insertion keeps the order and loses no element.
-/

namespace Studix

variable {m : Memory} {a : OrderedArray} {less : Memory → ℕ → ℕ → Bool} {item p : ℕ} {xs : List ℕ}

/-- No element is less than one before it. -/
def InOrder (less : ℕ → ℕ → Bool) (xs : List ℕ) : Prop := xs.Pairwise fun x y => ¬less y x = true

instance (less : ℕ → ℕ → Bool) (xs : List ℕ) : Decidable (InOrder less xs) :=
  inferInstanceAs (Decidable (xs.Pairwise fun x y => ¬less y x = true))

/-- Order is a matter of what the comparer says about the elements. -/
theorem InOrder.congr {less less' : ℕ → ℕ → Bool} (h : InOrder less xs)
    (hsame : ∀ x ∈ xs, ∀ y ∈ xs, less' x y = less x y) : InOrder less' xs := by
  refine List.Pairwise.imp_of_mem (fun hx hy hnot => ?_) h
  rwa [hsame _ hy _ hx]

/-- The list with the item in front of the first element that is not less. -/
def insertBefore (less : ℕ → ℕ → Bool) (item : ℕ) (xs : List ℕ) : List ℕ :=
  xs.takeWhile (less · item) ++ item :: xs.dropWhile (less · item)

theorem insertBefore_eq_orderedInsert (less : ℕ → ℕ → Bool) (item : ℕ) (xs : List ℕ) :
    insertBefore less item xs = xs.orderedInsert (fun x y => ¬less y x = true) item := by
  rw [List.orderedInsert_eq_take_drop, insertBefore]
  simp only [not_not, Bool.decide_eq_true]

/-- The place that the search finds is the one in front of the first element that is not less. -/
theorem insertIdx_eq_insertBefore (hp : p ≤ a.size)
    (hbefore : ∀ j < p, less m (slot m a j) item = true)
    (hat : p < a.size → less m (slot m a p) item = false) :
    (elems m a).insertIdx p item = insertBefore (less m) item (elems m a) := by
  rw [insertBefore_eq_orderedInsert]
  refine insertIdx_eq_orderedInsert (by simpa using hp) (fun j hj hlt => ?_) fun hlt => ?_
  · rw [getElem_elems]
    exact not_not.mpr (hbefore j hlt)
  · rw [getElem_elems]
    exact Bool.eq_false_iff.mp (hat (by simpa using hlt))

/-- **An insertion keeps the order and loses nothing.** For every comparer that is a strict weak
order and every array in its order with room for the item, the item is put in front of the first
element that is not less, the elements stay in order (also by what the comparer says afterwards,
unless it reads the storage of the array), and no slot from the new size on changes. -/
theorem orderedArrayInsert_inOrder (hcomparer : a.comparer = some less)
    (horder : IsStrictWeakOrder ℕ fun x y => less m x y = true) (hsize : a.size < a.maxSize)
    (hitem : item < 2 ^ 32) (hsorted : InOrder (less m) (elems m a)) :
    ∃ m' a', orderedArrayInsert m a item = .ok (m', a') ∧
      a' = { a with size := a.size + 1 } ∧ a'.size ≤ a'.maxSize ∧
      elems m' a' = insertBefore (less m) item (elems m a) ∧
      InOrder (less m) (elems m' a') ∧
      ((∀ x ∈ elems m' a', ∀ y ∈ elems m' a', less m' x y = less m x y) →
        InOrder (less m') (elems m' a')) ∧
      ∀ j, a'.size ≤ j → slot m' a' j = slot m a j := by
  obtain ⟨m', p, hinsert, hp, hslot, -, hbefore, hat⟩ :=
    orderedArrayInsert_place m a item hcomparer hitem
  have helems : elems m' { a with size := a.size + 1 } = insertBefore (less m) item (elems m a) :=
    (elems_insert hp hslot).trans (insertIdx_eq_insertBefore hp hbefore hat)
  have hkept : InOrder (less m) (elems m' { a with size := a.size + 1 }) := by
    rw [helems, insertBefore_eq_orderedInsert]
    exact pairwise_orderedInsert_of_isStrictWeakOrder horder item hsorted
  refine ⟨m', { a with size := a.size + 1 }, hinsert, rfl, hsize, helems, hkept, hkept.congr,
    fun j hj => ?_⟩
  have hj : a.size < j := hj
  exact (hslot j).trans (if_pos (.inr hj))

/-- An array with the elements 5 and 9, at address 16. -/
def pair59 : OrderedArray := ⟨16, 2, 4, some stdComparer⟩

/-- A 7 is put between them. -/
theorem orderedArrayInsert_inOrder_pair59 : pair59.size < pair59.maxSize ∧
    elems (store32 (store32 (fun _ => 0) 16 5) 20 9) pair59 = [5, 9] ∧
    ∃ m' a', orderedArrayInsert (store32 (store32 (fun _ => 0) 16 5) 20 9) pair59 7 =
        .ok (m', a') ∧ elems m' a' = [5, 7, 9] := by
  have horder : IsStrictWeakOrder ℕ fun x y =>
      stdComparer (store32 (store32 (fun _ => 0) 16 5) 20 9) x y = true := by
    simp only [stdComparer, decide_eq_true_eq]
    exact isStrictWeakOrder_of_isOrderConnected
  have helems : elems (store32 (store32 (fun _ => 0) 16 5) 20 9) pair59 = [5, 9] := by
    decide +kernel
  have hsize : pair59.size < pair59.maxSize := by decide
  have hitem : 7 < 2 ^ 32 := by decide
  obtain ⟨m', a', hinsert, -, -, hafter, -⟩ :=
    orderedArrayInsert_inOrder rfl horder hsize hitem (by rw [helems]; decide)
  refine ⟨hsize, helems, m', a', hinsert, ?_⟩
  rw [hafter, helems]
  decide

end Studix
