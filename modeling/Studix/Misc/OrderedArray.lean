import Studix.Base.Memory
import Studix.Misc.Panic

/-!
# Ordered arrays

Model of `src/misc/ordered_array.c`. The elements are pointers in flat memory; the comparer is a
function that may read the memory behind them. An insertion shifts the elements behind the place it
finds. A removal shifts the elements behind the removed one and then increments the size, where a
decrement is meant: the array ends with two copies of the slot behind its old end.

## Main definitions

* `OrderedArray`, `slot`, `elems`.
* `placeOrderedArray`, `orderedArrayInsert`, `orderedArrayLookup`, `orderedArrayRemove`.
* `DeletesOne`: a removal deletes exactly one element.

## Main results

* `orderedArrayInsert_place`, `orderedArrayRemove_spec`: the slots after each operation, and the
  memory it leaves alone.
* `elems_insert`, `elems_remove`: the elements.
* `not_deletesOne`: no removal deletes exactly one element.
* `Lists.insert`, `Lists.remove`: an array that lists addresses beside null entries keeps doing so
  while there is room.
-/

namespace Studix

/-- `Ordered_array`: the address of its storage, and a comparer that may read memory. -/
structure OrderedArray where
  array : ℕ
  size : ℕ
  maxSize : ℕ
  comparer : Option (Memory → ℕ → ℕ → Bool)

variable {m m' : Memory} {a : OrderedArray} {i j v item : ℕ}

/-- `array->array[i]`. -/
def slot (m : Memory) (a : OrderedArray) (i : ℕ) : ℕ := load32 m (a.array + 4 * i)

/-- `array->array[i] = v`. -/
def setSlot (m : Memory) (a : OrderedArray) (i v : ℕ) : Memory := store32 m (a.array + 4 * i) v

/-- The elements of the array. -/
def elems (m : Memory) (a : OrderedArray) : List ℕ := (List.range a.size).map (slot m a)

/-- `std_comparer`. -/
def stdComparer (_ : Memory) (a b : ℕ) : Bool := a < b

/-- `place_ordered_array`. -/
def placeOrderedArray (m : Memory) (addr maxSize : ℕ)
    (comparer : Option (Memory → ℕ → ℕ → Bool)) : Memory × OrderedArray :=
  (memset m addr 0 (maxSize * 4), ⟨addr, 0, maxSize, comparer⟩)

/-- The loop of `ordered_array_insert` that looks for the place, with `n` elements to go. -/
def insertPos (less : Memory → ℕ → ℕ → Bool) (m : Memory) (a : OrderedArray) (item : ℕ) :
    ℕ → ℕ → ℕ
  | 0, i => i
  | n + 1, i => if less m (slot m a i) item then insertPos less m a item n (i + 1) else i

/-- The loop of `ordered_array_insert` that shifts the elements behind the place. -/
def shiftLoop (a : OrderedArray) : ℕ → ℕ → ℕ → Memory → Memory
  | 0, _, _, m => m
  | n + 1, i, tmp, m => shiftLoop a n (i + 1) (slot m a (i + 1)) (setSlot m a (i + 1) tmp)

/-- `ordered_array_insert`. -/
def orderedArrayInsert (m : Memory) (a : OrderedArray) (item : ℕ) :
    Except Stop (Memory × OrderedArray) := do
  assert a.comparer.isSome "array->comparer"
  let less := a.comparer.getD fun _ _ _ => false
  let i := insertPos less m a item a.size 0
  if i = a.size then .ok (setSlot m a a.size item, { a with size := a.size + 1 })
  else
    let tmp := slot m a i
    .ok (shiftLoop a (a.size - i) i tmp (setSlot m a i item), { a with size := a.size + 1 })

/-- `ordered_array_lookup`. -/
def orderedArrayLookup (m : Memory) (a : OrderedArray) (i : ℕ) : Except Stop ℕ := do
  assert (i < a.size) "i < array->size"
  .ok (slot m a i)

/-- The loop of `ordered_array_remove`, with `n` elements to go. -/
def removeLoop (a : OrderedArray) : ℕ → ℕ → Memory → Memory
  | 0, _, m => m
  | n + 1, i, m => removeLoop a n (i + 1) (setSlot m a i (slot m a (i + 1)))

/-- `ordered_array_remove`. -/
def orderedArrayRemove (m : Memory) (a : OrderedArray) (i : ℕ) : Memory × OrderedArray :=
  (removeLoop a (a.size - i) i m, { a with size := a.size + 1 })

/-! ### Slots -/

theorem slot_lt (m : Memory) (a : OrderedArray) (i : ℕ) : slot m a i < 2 ^ 32 := load32_lt _ _

theorem slot_setSlot (hv : v < 2 ^ 32) :
    slot (setSlot m a i v) a j = if j = i then v else slot m a j := by
  split_ifs with h
  · rw [h, slot, setSlot, load32_store32 hv]
  · rw [slot, setSlot, load32_store32_of_disjoint (by omega), slot]

theorem setSlot_apply_of_notMem {x : ℕ} (h : x < a.array + 4 * i ∨ a.array + 4 * i + 4 ≤ x) :
    setSlot m a i v x = m x :=
  store32_apply_of_notMem h

theorem slot_congr (h : ∀ x, a.array + 4 * i ≤ x → x < a.array + 4 * i + 4 → m' x = m x) :
    slot m' a i = slot m a i :=
  load32_congr fun x hx => h x (Set.mem_Ico.mp hx).1 (Set.mem_Ico.mp hx).2

@[simp] theorem length_elems (m : Memory) (a : OrderedArray) : (elems m a).length = a.size := by
  simp [elems]

theorem getElem_elems (h : i < (elems m a).length) : (elems m a)[i] = slot m a i := by
  simp [elems]

theorem orderedArrayLookup_eq (hi : i < a.size) : orderedArrayLookup m a i = .ok (slot m a i) :=
  assert_bind_eq_ok.mpr ⟨decide_eq_true hi, rfl⟩

theorem mem_elems : v ∈ elems m a ↔ ∃ i < a.size, slot m a i = v := by
  simp [elems]

/-! ### Insertion -/

theorem insertPos_le (less : Memory → ℕ → ℕ → Bool) (m : Memory) (a : OrderedArray)
    (item n i : ℕ) : insertPos less m a item n i ≤ i + n := by
  induction n generalizing i with
  | zero => exact le_rfl
  | succ n ih =>
    rw [insertPos]
    split_ifs
    · exact (ih (i + 1)).trans (by omega)
    · omega

/-- The shifting loop moves each slot behind `i` up to `i + n` one place on, and `tmp` to the
first. -/
private theorem shiftLoop_spec (n tmp : ℕ) (htmp : tmp < 2 ^ 32) :
    (∀ j, slot (shiftLoop a n i tmp m) a j =
      if j ≤ i ∨ i + n < j then slot m a j else if j = i + 1 then tmp else slot m a (j - 1)) ∧
      ∀ x, x < a.array + 4 * (i + 1) ∨ a.array + 4 * (i + n + 1) ≤ x →
        shiftLoop a n i tmp m x = m x := by
  induction n generalizing i tmp m with
  | zero => exact ⟨fun j => (if_pos (by omega)).symm, fun _ _ => rfl⟩
  | succ n ih =>
    obtain ⟨hslot, hframe⟩ := @ih (setSlot m a (i + 1) tmp) (i + 1) _ (slot_lt m a (i + 1))
    refine ⟨fun j => ?_, fun x hx => ?_⟩
    · rw [shiftLoop, hslot, slot_setSlot htmp, slot_setSlot htmp]
      split_ifs <;> first | rfl | omega | (congr 1; omega)
    · rw [shiftLoop, hframe x (by omega), setSlot_apply_of_notMem (by omega)]

/-- The search stops behind elements that are less than the item, at one that is not. -/
theorem insertPos_spec (less : Memory → ℕ → ℕ → Bool) (m : Memory) (a : OrderedArray)
    (item n i : ℕ) :
    (∀ j, i ≤ j → j < insertPos less m a item n i → less m (slot m a j) item = true) ∧
      (insertPos less m a item n i < i + n →
        less m (slot m a (insertPos less m a item n i)) item = false) := by
  induction n generalizing i with
  | zero => exact ⟨fun j hj hlt => absurd hlt (not_lt.mpr hj), fun hlt => absurd hlt (lt_irrefl i)⟩
  | succ n ih =>
    rw [insertPos]
    split_ifs with hless
    · obtain ⟨hbefore, hat⟩ := ih (i + 1)
      refine ⟨fun j hj hlt => ?_, fun hlt => hat (by omega)⟩
      obtain rfl | hj := hj.eq_or_lt
      · exact hless
      · exact hbefore j hj hlt
    · exact ⟨fun j hj hlt => absurd hlt (not_lt.mpr hj), fun _ => Bool.eq_false_iff.mpr hless⟩

/-- **The slots after an insertion**: there is a place up to which nothing changes, the item is put
there and the elements from there on move by one. Nothing else changes in memory. The elements
before the place are less than the item, the one that was there is not. -/
theorem orderedArrayInsert_place (m : Memory) (a : OrderedArray) (item : ℕ)
    {less : Memory → ℕ → ℕ → Bool} (hcomparer : a.comparer = some less) (hitem : item < 2 ^ 32) :
    ∃ m' p, orderedArrayInsert m a item = .ok (m', { a with size := a.size + 1 }) ∧ p ≤ a.size ∧
      (∀ j, slot m' a j = if j < p ∨ a.size < j then slot m a j else if j = p then item
        else slot m a (j - 1)) ∧
      (∀ x, x < a.array ∨ a.array + 4 * (a.size + 1) ≤ x → m' x = m x) ∧
      (∀ j < p, less m (slot m a j) item = true) ∧
      (p < a.size → less m (slot m a p) item = false) := by
  have hless : (a.comparer.getD fun _ _ _ => false) = less := by rw [hcomparer, Option.getD_some]
  have hsome : a.comparer.isSome := by rw [hcomparer, Option.isSome_some]
  have hle := insertPos_le less m a item a.size 0
  obtain ⟨hbefore, hat⟩ := insertPos_spec less m a item a.size 0
  set p := insertPos less m a item a.size 0 with hp
  rw [Nat.zero_add] at hle hat
  have horder : ∀ j < p, less m (slot m a j) item = true := fun j hj => hbefore j (Nat.zero_le j) hj
  by_cases hend : p = a.size
  · refine ⟨setSlot m a a.size item, p, ?_, hle, fun j => ?_, fun x hx => ?_, horder, hat⟩
    · simp only [orderedArrayInsert, hsome, hless, assert, ← hp, if_pos hend]
      rfl
    · rw [slot_setSlot hitem]
      split_ifs <;> first | rfl | omega
    · exact setSlot_apply_of_notMem (by omega)
  · obtain ⟨hslot, hframe⟩ :=
      shiftLoop_spec (m := setSlot m a p item) (a := a) (i := p) (a.size - p) (slot m a p)
        (slot_lt m a p)
    refine ⟨shiftLoop a (a.size - p) p (slot m a p) (setSlot m a p item), p, ?_, hle, fun j => ?_,
      fun x hx => ?_, horder, hat⟩
    · simp only [orderedArrayInsert, hsome, hless, assert, ← hp, if_neg hend]
      rfl
    · rw [hslot, slot_setSlot hitem, slot_setSlot hitem]
      split_ifs <;> first | rfl | omega | (congr 1; omega)
    · rw [hframe x (by omega), setSlot_apply_of_notMem (by omega)]

/-- The slots after an insertion, whatever the comparer is. -/
theorem orderedArrayInsert_spec (m : Memory) (a : OrderedArray) (item : ℕ)
    (hcomparer : a.comparer.isSome) (hitem : item < 2 ^ 32) :
    ∃ m' p, orderedArrayInsert m a item = .ok (m', { a with size := a.size + 1 }) ∧ p ≤ a.size ∧
      (∀ j, slot m' a j = if j < p ∨ a.size < j then slot m a j else if j = p then item
        else slot m a (j - 1)) ∧
      ∀ x, x < a.array ∨ a.array + 4 * (a.size + 1) ≤ x → m' x = m x := by
  obtain ⟨less, hless⟩ := Option.isSome_iff_exists.mp hcomparer
  obtain ⟨m', p, hinsert, hp, hslot, hframe, -⟩ := orderedArrayInsert_place m a item hless hitem
  exact ⟨m', p, hinsert, hp, hslot, hframe⟩

/-- An insertion changes the size of the array only. -/
theorem orderedArrayInsert_array {a' : OrderedArray}
    (h : orderedArrayInsert m a item = .ok (m', a')) : a' = { a with size := a.size + 1 } := by
  obtain ⟨-, h⟩ := assert_bind_eq_ok.mp h
  simp only at h
  split at h <;> exact (Prod.mk.inj (Except.ok.inj h)).2.symm

/-! ### Removal -/

private theorem removeLoop_spec (n : ℕ) :
    (∀ j, slot (removeLoop a n i m) a j =
      if i ≤ j ∧ j < i + n then slot m a (j + 1) else slot m a j) ∧
      ∀ x, x < a.array + 4 * i ∨ a.array + 4 * (i + n) ≤ x → removeLoop a n i m x = m x := by
  induction n generalizing i m with
  | zero => exact ⟨fun j => (if_neg (by omega)).symm, fun _ _ => rfl⟩
  | succ n ih =>
    obtain ⟨hslot, hframe⟩ := @ih (setSlot m a i (slot m a (i + 1))) (i + 1)
    refine ⟨fun j => ?_, fun x hx => ?_⟩
    · rw [removeLoop, hslot, slot_setSlot (slot_lt _ _ _), slot_setSlot (slot_lt _ _ _)]
      split_ifs <;> first | rfl | omega | (congr 1; omega)
    · rw [removeLoop, hframe x (by omega), setSlot_apply_of_notMem (by omega)]

/-- **The slots after a removal**: those from `i` on take the value of the next one, up to the old
size. Nothing else changes in memory. -/
theorem orderedArrayRemove_spec (hi : i ≤ a.size) :
    (orderedArrayRemove m a i).2 = { a with size := a.size + 1 } ∧
      (∀ j, slot (orderedArrayRemove m a i).1 a j =
        if i ≤ j ∧ j < a.size then slot m a (j + 1) else slot m a j) ∧
      ∀ x, x < a.array ∨ a.array + 4 * a.size ≤ x → (orderedArrayRemove m a i).1 x = m x := by
  obtain ⟨hslot, hframe⟩ := removeLoop_spec (m := m) (a := a) (i := i) (a.size - i)
  refine ⟨rfl, fun j => ?_, fun x hx => hframe x (by omega)⟩
  rw [orderedArrayRemove, hslot, Nat.add_sub_of_le hi]

/-! ### Elements -/

/-- The elements after an insertion: the item stands at its place, between the old ones. -/
theorem elems_insert {p : ℕ} (hp : p ≤ a.size)
    (hslot : ∀ j, slot m' a j = if j < p ∨ a.size < j then slot m a j else if j = p then item
      else slot m a (j - 1)) :
    elems m' { a with size := a.size + 1 } = (elems m a).insertIdx p item := by
  refine List.ext_getElem ?_ fun j h₁ h₂ => ?_
  · rw [List.length_insertIdx_of_le_length (by simpa using hp), length_elems, length_elems]
  · rw [length_elems] at h₁
    have hslot' : slot m' { a with size := a.size + 1 } j = slot m' a j := rfl
    simp only at h₁
    rw [getElem_elems, hslot', hslot j, List.getElem_insertIdx]
    split_ifs <;> first | omega | rfl | rw [getElem_elems]

/-- The elements after an insertion are the old ones and the item. -/
theorem elems_insert_perm {p : ℕ} (hp : p ≤ a.size)
    (hslot : ∀ j, slot m' a j = if j < p ∨ a.size < j then slot m a j else if j = p then item
      else slot m a (j - 1)) :
    (elems m' { a with size := a.size + 1 }).Perm (item :: elems m a) := by
  rw [elems_insert hp hslot]
  exact List.perm_insertIdx _ _ (by simpa using hp)

/-- The elements after a removal: the removed one is gone, and the slot behind the old end has been
taken in twice. -/
theorem elems_remove (hi : i < a.size)
    (hslot : ∀ j, slot m' a j = if i ≤ j ∧ j < a.size then slot m a (j + 1) else slot m a j) :
    elems m' { a with size := a.size + 1 } =
      (elems m a).eraseIdx i ++ [slot m a a.size, slot m a a.size] := by
  have hlen : ((elems m a).eraseIdx i).length = a.size - 1 := by
    rw [List.length_eraseIdx_of_lt (by simpa using hi), length_elems]
  refine List.ext_getElem ?_ fun j h₁ h₂ => ?_
  · rw [length_elems, List.length_append, hlen]
    simp only [List.length_cons, List.length_nil]
    omega
  · rw [length_elems] at h₁
    simp only at h₁
    have hslot' : slot m' { a with size := a.size + 1 } j = slot m' a j := rfl
    rw [getElem_elems, hslot', hslot j]
    by_cases hlast : j < a.size - 1
    · rw [List.getElem_append_left (by omega), List.getElem_eraseIdx]
      split_ifs <;> first | omega | rw [getElem_elems]
    · rw [List.getElem_append_right (by omega)]
      obtain hj | hj : j = a.size - 1 ∨ j = a.size := by omega
      · rw [if_pos (by omega)]
        simp only [hlen, hj, Nat.sub_self, List.getElem_cons_zero]
        congr 1
        omega
      · rw [if_neg (by omega)]
        have hone : a.size - ((elems m a).eraseIdx i).length = 1 := by omega
        simp only [hj, hone, List.getElem_cons_succ, List.getElem_cons_zero]

/-- A removal deletes exactly the element at `i`. -/
def DeletesOne (m : Memory) (a : OrderedArray) (i : ℕ) : Prop :=
  (orderedArrayRemove m a i).2.size = a.size - 1 ∧
    elems (orderedArrayRemove m a i).1 (orderedArrayRemove m a i).2 = (elems m a).eraseIdx i

/-- **A removal never deletes exactly one element.** The element is taken out, but the array becomes
longer by one: it ends with two entries more, which hold the slot behind the old end. -/
theorem not_deletesOne (m : Memory) (hsize : a.size ≤ a.maxSize) (hi : i < a.size) :
    ¬DeletesOne m a i ∧ (orderedArrayRemove m a i).2 = { a with size := a.size + 1 } ∧
      (orderedArrayRemove m a i).2.size ≤ a.maxSize + 1 ∧
      elems (orderedArrayRemove m a i).1 (orderedArrayRemove m a i).2 =
        (elems m a).eraseIdx i ++ [slot m a a.size, slot m a a.size] := by
  obtain ⟨harray, hslot, -⟩ := orderedArrayRemove_spec (m := m) hi.le
  have hlonger : (orderedArrayRemove m a i).2.size = a.size + 1 := by rw [harray]
  refine ⟨fun h => ?_, harray, by omega, ?_⟩
  · have := h.1
    omega
  · rw [harray]
    exact elems_remove hi hslot

/-- An array with the single element 5, at address 16. -/
def singleton5 : OrderedArray := ⟨16, 1, 4, none⟩

/-- Removing the only element leaves two null entries. -/
theorem not_deletesOne_singleton5 : singleton5.size ≤ singleton5.maxSize ∧ 0 < singleton5.size ∧
    elems (store32 (fun _ => 0) 16 5) singleton5 = [5] ∧
    ¬DeletesOne (store32 (fun _ => 0) 16 5) singleton5 0 ∧
    elems (orderedArrayRemove (store32 (fun _ => 0) 16 5) singleton5 0).1
      (orderedArrayRemove (store32 (fun _ => 0) 16 5) singleton5 0).2 = [0, 0] := by
  obtain ⟨hnot, -, -, helems⟩ := not_deletesOne (a := singleton5) (i := 0)
    (store32 (fun _ => 0) 16 5) (by decide) (by decide)
  exact ⟨by decide, by decide, by decide +kernel, hnot, helems.trans (by decide +kernel)⟩

/-- The array with one element has two after its removal. -/
theorem removal_adds_an_entry :
    (elems (store32 (fun _ => 0) 16 5) singleton5).length = 1 ∧
      (orderedArrayRemove (store32 (fun _ => 0) 16 5) singleton5 0).2.size = 2 ∧
      ¬DeletesOne (store32 (fun _ => 0) 16 5) singleton5 0 :=
  ⟨by decide, rfl, fun h => absurd h.1 (by decide)⟩

/-! ### Arrays with null entries -/

/-- The array lists the addresses `xs`, each once, among null entries, and its storage is zero
behind its end. -/
structure Lists (m : Memory) (a : OrderedArray) (xs : List ℕ) : Prop where
  comparer : a.comparer.isSome
  size_le : a.size ≤ a.maxSize
  zero : ∀ j, a.size ≤ j → j < a.maxSize → slot m a j = 0
  perm : ((elems m a).filter (· ≠ 0)).Perm xs

namespace Lists

variable {xs ys : List ℕ}

/-- What an array lists depends on its storage only. -/
theorem congr (h : Lists m a xs)
    (hframe : ∀ x, a.array ≤ x → x < a.array + 4 * a.maxSize → m' x = m x) : Lists m' a xs := by
  have hslot : ∀ j < a.maxSize, slot m' a j = slot m a j := fun j hj =>
    slot_congr fun x hx hx' => hframe x (by omega) (by omega)
  have helems : elems m' a = elems m a :=
    List.map_congr_left fun j hj => hslot j ((List.mem_range.mp hj).trans_le h.size_le)
  exact ⟨h.comparer, h.size_le, fun j hj hlt => (hslot j hlt).trans (h.zero j hj hlt),
    helems ▸ h.perm⟩

theorem of_perm (h : Lists m a xs) (hperm : xs.Perm ys) : Lists m a ys :=
  { h with perm := h.perm.trans hperm }

/-- An entry that is not null is listed. -/
theorem slot_mem (h : Lists m a xs) (hi : i < a.size) (hne : slot m a i ≠ 0) :
    slot m a i ∈ xs :=
  h.perm.subset (List.mem_filter.mpr ⟨mem_elems.mpr ⟨i, hi, rfl⟩, by simpa using hne⟩)

/-- What a slot of the storage holds is null or listed. -/
theorem slot_cases (h : Lists m a xs) (hi : i < a.maxSize) : slot m a i = 0 ∨ slot m a i ∈ xs := by
  by_cases hsize : i < a.size
  · exact or_iff_not_imp_left.mpr (h.slot_mem hsize)
  · exact .inl (h.zero i (not_lt.mp hsize) hi)

/-- **An insertion adds its item to the list.** -/
theorem insert {a' : OrderedArray} (h : Lists m a xs) (hroom : a.size + 1 ≤ a.maxSize)
    (hitem : item < 2 ^ 32) (hne : item ≠ 0) (heq : orderedArrayInsert m a item = .ok (m', a')) :
    a' = { a with size := a.size + 1 } ∧ Lists m' a' (item :: xs) ∧
      ∀ x, x < a.array ∨ a.array + 4 * a.maxSize ≤ x → m' x = m x := by
  obtain ⟨m₁, p, hinsert, hp, hslot, hframe⟩ := orderedArrayInsert_spec m a item h.comparer hitem
  obtain ⟨rfl, rfl⟩ : m₁ = m' ∧ _ = a' := by
    simpa only [Except.ok.injEq, Prod.mk.injEq] using hinsert.symm.trans heq
  refine ⟨rfl, ⟨h.comparer, hroom, fun j hj hlt => ?_, ?_⟩, fun x hx => hframe x (by omega)⟩
  · have hj : a.size < j := hj
    refine Eq.trans (hslot j) ?_
    rw [if_pos (.inr hj), h.zero j hj.le hlt]
  · refine ((elems_insert_perm hp hslot).filter _).trans ?_
    rw [List.filter_cons_of_pos (by simpa using hne)]
    exact h.perm.cons item

/-- **A removal takes its entry from the list.** The null entries it adds are not listed. -/
theorem remove (h : Lists m a xs) (hroom : a.size + 1 ≤ a.maxSize) (hi : i < a.size)
    (hne : slot m a i ≠ 0) (hperm : xs.Perm (slot m a i :: ys)) :
    Lists (orderedArrayRemove m a i).1 (orderedArrayRemove m a i).2 ys ∧
      ∀ x, x < a.array ∨ a.array + 4 * a.maxSize ≤ x → (orderedArrayRemove m a i).1 x = m x := by
  obtain ⟨harray, hslot, hframe⟩ := orderedArrayRemove_spec (m := m) hi.le
  set m₁ := (orderedArrayRemove m a i).1
  rw [harray]
  refine ⟨⟨h.comparer, hroom, fun j hj hlt => ?_, ?_⟩, fun x hx => hframe x (by omega)⟩
  · have hj : a.size < j := hj
    refine Eq.trans (hslot j) ?_
    rw [if_neg (by omega), h.zero j hj.le hlt]
  · have herase : ((elems m a).filter (· ≠ 0)).Perm
        (slot m a i :: ((elems m a).eraseIdx i).filter (· ≠ 0)) := by
      have hsplit : (elems m a).Perm (slot m a i :: (elems m a).eraseIdx i) := by
        rw [← getElem_elems (by simpa using hi)]
        exact (List.getElem_cons_eraseIdx_perm (by simpa using hi)).symm
      refine (hsplit.filter _).trans ?_
      rw [List.filter_cons_of_pos (by simpa using hne)]
    have hnull : slot m a a.size = 0 := h.zero _ le_rfl hroom
    rw [elems_remove hi hslot, hnull, List.filter_append]
    simpa using (herase.symm.trans (h.perm.trans hperm)).cons_inv

end Lists

end Studix
