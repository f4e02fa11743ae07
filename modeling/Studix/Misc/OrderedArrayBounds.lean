import Studix.Misc.OrderedArray

/-!
# The storage of an ordered array

The slots that the operations of `src/misc/ordered_array.c` read and write. Each function is run
again over a memory that records the index of every slot accessed. Neither operation looks at
`array->max_size`, and both make the array longer by one and reach the slot behind its old end, so
an array stays within its storage for `max_size` operations.

## Main definitions

* `orderedArrayInsertT`, `orderedArrayRemoveT`: the operations with the record of slots.
* `ArrayRun`: the runs.

## Main results

* `orderedArrayInsertT_spec`, `orderedArrayRemoveT_spec`: they are the operations, and what they
  access.
* `PlacedRun.mem_log`: the slots accessed in a run.
* `array_within_storage_iff`: an array stays within its storage for `max_size` operations.
-/

namespace Studix

/-! ### The operations with the record of slots -/

/-- `array->array[i]`, recorded. -/
def Traced.readSlot (s : Traced ℕ) (a : OrderedArray) (i : ℕ) : ℕ × Traced ℕ :=
  (slot s.mem a i, { s with log := i :: s.log })

/-- `array->array[i] = v`, recorded. -/
def Traced.writeSlot (s : Traced ℕ) (a : OrderedArray) (i v : ℕ) : Traced ℕ :=
  ⟨setSlot s.mem a i v, i :: s.log⟩

/-- `insertPos` with the record. -/
def insertPosT (less : Memory → ℕ → ℕ → Bool) (a : OrderedArray) (item : ℕ) :
    ℕ → ℕ → Traced ℕ → ℕ × Traced ℕ
  | 0, i, s => (i, s)
  | n + 1, i, s =>
    let (v, s) := s.readSlot a i
    if less s.mem v item then insertPosT less a item n (i + 1) s else (i, s)

/-- `shiftLoop` with the record. -/
def shiftLoopT (a : OrderedArray) : ℕ → ℕ → ℕ → Traced ℕ → Traced ℕ
  | 0, _, _, s => s
  | n + 1, i, tmp, s =>
    let (tmp2, s) := s.readSlot a (i + 1)
    shiftLoopT a n (i + 1) tmp2 (s.writeSlot a (i + 1) tmp)

/-- `ordered_array_insert` with the record. -/
def orderedArrayInsertT (s : Traced ℕ) (a : OrderedArray) (item : ℕ) :
    Except Stop (Traced ℕ × OrderedArray) := do
  assert a.comparer.isSome "array->comparer"
  let less := a.comparer.getD fun _ _ _ => false
  let (i, s) := insertPosT less a item a.size 0 s
  if i = a.size then .ok (s.writeSlot a a.size item, { a with size := a.size + 1 })
  else
    let (tmp, s) := s.readSlot a i
    .ok (shiftLoopT a (a.size - i) i tmp (s.writeSlot a i item), { a with size := a.size + 1 })

/-- `removeLoop` with the record. -/
def removeLoopT (a : OrderedArray) : ℕ → ℕ → Traced ℕ → Traced ℕ
  | 0, _, s => s
  | n + 1, i, s =>
    let (v, s) := s.readSlot a (i + 1)
    removeLoopT a n (i + 1) (s.writeSlot a i v)

/-- `ordered_array_remove` with the record. -/
def orderedArrayRemoveT (s : Traced ℕ) (a : OrderedArray) (i : ℕ) : Traced ℕ × OrderedArray :=
  (removeLoopT a (a.size - i) i s, { a with size := a.size + 1 })

variable {s s' : Traced ℕ} {a a' : OrderedArray} {i j item : ℕ}

/-- The record has grown by slots up to `n`. -/
def Reaches (n : ℕ) (s s' : Traced ℕ) : Prop :=
  s.log ⊆ s'.log ∧ ∀ j ∈ s'.log, j ∈ s.log ∨ j ≤ n

theorem Reaches.refl (n : ℕ) (s : Traced ℕ) : Reaches n s s :=
  ⟨List.Subset.refl _, fun _ => .inl⟩

theorem Reaches.trans {n : ℕ} {s s' s'' : Traced ℕ} (h : Reaches n s s') (h' : Reaches n s' s'') :
    Reaches n s s'' :=
  ⟨List.Subset.trans h.1 h'.1, fun j hj => (h'.2 j hj).elim (h.2 j) .inr⟩

theorem reaches_readSlot {n : ℕ} (s : Traced ℕ) (a : OrderedArray) (hi : i ≤ n) :
    Reaches n s (s.readSlot a i).2 := by
  refine ⟨List.subset_cons_self _ _, fun j hj => ?_⟩
  rcases List.mem_cons.mp hj with rfl | hj
  · exact .inr hi
  · exact .inl hj

theorem reaches_writeSlot {n : ℕ} (s : Traced ℕ) (a : OrderedArray) (v : ℕ) (hi : i ≤ n) :
    Reaches n s (s.writeSlot a i v) :=
  reaches_readSlot s a hi

/-! ### What they access -/

theorem insertPosT_spec (less : Memory → ℕ → ℕ → Bool) (a : OrderedArray) (item n i : ℕ)
    (s : Traced ℕ) :
    (insertPosT less a item n i s).1 = insertPos less s.mem a item n i ∧
      (insertPosT less a item n i s).2.mem = s.mem ∧
      Reaches (i + n) s (insertPosT less a item n i s).2 := by
  induction n generalizing i s with
  | zero => exact ⟨rfl, rfl, .refl _ _⟩
  | succ n ih =>
    have hread := reaches_readSlot s a (Nat.le_add_right i (n + 1))
    obtain ⟨hpos, hmem, hreach⟩ := ih (i + 1) (s.readSlot a i).2
    rw [Nat.add_right_comm, Nat.add_assoc] at hreach
    have hstep : insertPosT less a item (n + 1) i s =
        if less s.mem (slot s.mem a i) item then
          insertPosT less a item n (i + 1) (s.readSlot a i).2
        else (i, (s.readSlot a i).2) := rfl
    rw [hstep, insertPos]
    split_ifs
    · exact ⟨hpos, hmem, hread.trans hreach⟩
    · exact ⟨rfl, rfl, hread⟩

theorem shiftLoopT_spec (a : OrderedArray) (n i tmp : ℕ) (s : Traced ℕ) :
    (shiftLoopT a n i tmp s).mem = shiftLoop a n i tmp s.mem ∧
      Reaches (i + n) s (shiftLoopT a n i tmp s) ∧
      (0 < n → i + n ∈ (shiftLoopT a n i tmp s).log) := by
  induction n generalizing i tmp s with
  | zero => exact ⟨rfl, .refl _ _, fun h => absurd h (lt_irrefl 0)⟩
  | succ n ih =>
    obtain ⟨hmem, hreach, hlast⟩ :=
      ih (i + 1) (slot s.mem a (i + 1)) ((s.readSlot a (i + 1)).2.writeSlot a (i + 1) tmp)
    have hbound : i + 1 + n = i + (n + 1) := by omega
    rw [hbound] at hreach hlast
    have haccess : Reaches (i + (n + 1)) s ((s.readSlot a (i + 1)).2.writeSlot a (i + 1) tmp) :=
      (reaches_readSlot s a (by omega)).trans (reaches_writeSlot _ a tmp (by omega))
    refine ⟨hmem, haccess.trans hreach, fun _ => ?_⟩
    rcases Nat.eq_zero_or_pos n with rfl | hn
    · exact hreach.1 List.mem_cons_self
    · exact hlast hn

theorem removeLoopT_spec (a : OrderedArray) (n i : ℕ) (s : Traced ℕ) :
    (removeLoopT a n i s).mem = removeLoop a n i s.mem ∧
      Reaches (i + n) s (removeLoopT a n i s) ∧ (0 < n → i + n ∈ (removeLoopT a n i s).log) := by
  induction n generalizing i s with
  | zero => exact ⟨rfl, .refl _ _, fun h => absurd h (lt_irrefl 0)⟩
  | succ n ih =>
    obtain ⟨hmem, hreach, hlast⟩ :=
      ih (i + 1) ((s.readSlot a (i + 1)).2.writeSlot a i (slot s.mem a (i + 1)))
    have hbound : i + 1 + n = i + (n + 1) := by omega
    rw [hbound] at hreach hlast
    have haccess : Reaches (i + (n + 1)) s
        ((s.readSlot a (i + 1)).2.writeSlot a i (slot s.mem a (i + 1))) :=
      (reaches_readSlot s a (by omega)).trans (reaches_writeSlot _ a _ (by omega))
    refine ⟨hmem, haccess.trans hreach, fun _ => ?_⟩
    rcases Nat.eq_zero_or_pos n with rfl | hn
    · exact hreach.1 (List.mem_cons_of_mem _ List.mem_cons_self)
    · exact hlast hn

/-- **An insertion reaches the slot behind the end**, and none behind that. -/
theorem orderedArrayInsertT_spec (h : orderedArrayInsertT s a item = .ok (s', a')) :
    orderedArrayInsert s.mem a item = .ok (s'.mem, a') ∧ a' = { a with size := a.size + 1 } ∧
      Reaches a.size s s' ∧ a.size ∈ s'.log := by
  obtain ⟨_, hcomparer, h⟩ := except_bind_eq_ok.mp h
  have hassert : assert a.comparer.isSome "array->comparer" = .ok () := hcomparer
  have hle := insertPos_le (a.comparer.getD fun _ _ _ => false) s.mem a item a.size 0
  obtain ⟨hpos, hmem, hreach⟩ :=
    insertPosT_spec (a.comparer.getD fun _ _ _ => false) a item a.size 0 s
  rw [Nat.zero_add] at hle hreach
  rw [orderedArrayInsert, hassert, except_ok_bind]
  simp only at h ⊢
  rw [← hpos] at hle ⊢
  set i := (insertPosT (a.comparer.getD fun _ _ _ => false) a item a.size 0 s).1
  set t := (insertPosT (a.comparer.getD fun _ _ _ => false) a item a.size 0 s).2
  split_ifs at h ⊢ with hend
  · obtain ⟨rfl, rfl⟩ := Prod.mk.inj (Except.ok.inj h)
    refine ⟨?_, rfl, hreach.trans (reaches_writeSlot t a item le_rfl), List.mem_cons_self⟩
    rw [Traced.writeSlot, hmem]
  · obtain ⟨rfl, rfl⟩ := Prod.mk.inj (Except.ok.inj h)
    obtain ⟨hmem', hreach', hlast⟩ := shiftLoopT_spec a (a.size - i) i (slot t.mem a i)
      ((t.readSlot a i).2.writeSlot a i item)
    rw [Nat.add_sub_of_le hle] at hreach' hlast
    have haccess : Reaches a.size t ((t.readSlot a i).2.writeSlot a i item) :=
      (reaches_readSlot t a hle).trans (reaches_writeSlot _ a item hle)
    have hstate : (shiftLoopT a (a.size - i) i (t.readSlot a i).1
        ((t.readSlot a i).2.writeSlot a i item)).mem =
        shiftLoop a (a.size - i) i (slot s.mem a i) (setSlot s.mem a i item) := by
      rw [← hmem]
      exact hmem'
    refine ⟨by rw [hstate], rfl, hreach.trans (haccess.trans hreach'), hlast (by omega)⟩

/-- **A removal reaches the slot behind the end**, and none behind that. -/
theorem orderedArrayRemoveT_spec (s : Traced ℕ) (hi : i < a.size) :
    ((orderedArrayRemoveT s a i).1.mem, (orderedArrayRemoveT s a i).2) =
        orderedArrayRemove s.mem a i ∧
      Reaches a.size s (orderedArrayRemoveT s a i).1 ∧
      a.size ∈ (orderedArrayRemoveT s a i).1.log := by
  obtain ⟨hmem, hreach, hlast⟩ := removeLoopT_spec a (a.size - i) i s
  rw [Nat.add_sub_of_le hi.le] at hreach hlast
  refine ⟨?_, hreach, hlast (by omega)⟩
  rw [orderedArrayRemoveT, hmem, orderedArrayRemove]

/-! ### Runs -/

/-- An operation on an array. -/
inductive ArrayOp
  | insert (item : ℕ)
  | remove (i : ℕ)

/-- The runs of operations that return, with removals of indices below the size. -/
inductive ArrayRun (s₀ : Traced ℕ) (a₀ : OrderedArray) :
    List ArrayOp → Traced ℕ → OrderedArray → Prop
  | nil : ArrayRun s₀ a₀ [] s₀ a₀
  | insert {ops : List ArrayOp} {s s' : Traced ℕ} {a a' : OrderedArray} (item : ℕ)
      (hrun : ArrayRun s₀ a₀ ops s a) (h : orderedArrayInsertT s a item = .ok (s', a')) :
      ArrayRun s₀ a₀ (ops ++ [.insert item]) s' a'
  | remove {ops : List ArrayOp} {s : Traced ℕ} {a : OrderedArray} {i : ℕ}
      (hrun : ArrayRun s₀ a₀ ops s a) (hi : i < a.size) :
      ArrayRun s₀ a₀ (ops ++ [.remove i]) (orderedArrayRemoveT s a i).1
        (orderedArrayRemoveT s a i).2

/-- A run that starts with `place_ordered_array`. -/
def PlacedRun (m : Memory) (addr maxSize : ℕ) (comparer : Memory → ℕ → ℕ → Bool) :
    List ArrayOp → Traced ℕ → OrderedArray → Prop :=
  ArrayRun ⟨(placeOrderedArray m addr maxSize (some comparer)).1, []⟩
    (placeOrderedArray m addr maxSize (some comparer)).2

/-- The array is not longer than its storage, and no slot outside of it has been accessed. -/
def WithinStorage (maxSize : ℕ) (s : Traced ℕ) (a : OrderedArray) : Prop :=
  a.size ≤ maxSize ∧ ∀ j ∈ s.log, j < maxSize

section

variable {m : Memory} {addr maxSize : ℕ} {comparer : Memory → ℕ → ℕ → Bool} {ops : List ArrayOp}

/-- **Every operation makes the array longer.** -/
theorem PlacedRun.size_eq (h : PlacedRun m addr maxSize comparer ops s a) :
    a.size = ops.length := by
  induction h with
  | nil => rfl
  | insert item hrun hinsert ih =>
    obtain ⟨-, rfl, -, -⟩ := orderedArrayInsertT_spec hinsert
    rw [List.length_append, List.length_singleton, ← ih]
  | remove hrun hi ih =>
    rw [List.length_append, List.length_singleton, ← ih]
    rfl

/-- An operation that reaches the slot behind the end. -/
theorem mem_log_append {op : ArrayOp} (hsize : a.size = ops.length) (hreach : Reaches a.size s s')
    (hlast : a.size ∈ s'.log) (ih : j ∈ s.log ↔ j < ops.length) :
    j ∈ s'.log ↔ j < (ops ++ [op]).length := by
  rw [List.length_append, List.length_singleton, ← hsize]
  rw [← hsize] at ih
  constructor
  · intro hj
    rcases hreach.2 j hj with hold | hnew
    · exact Nat.lt_succ_of_lt (ih.mp hold)
    · exact Nat.lt_succ_of_le hnew
  · intro hj
    rcases Nat.lt_succ_iff_lt_or_eq.mp hj with hlt | rfl
    · exact hreach.1 (ih.mpr hlt)
    · exact hlast

/-- **The slots accessed in a run** are those below its length. -/
theorem PlacedRun.mem_log (h : PlacedRun m addr maxSize comparer ops s a) :
    j ∈ s.log ↔ j < ops.length := by
  induction h generalizing j with
  | nil => exact iff_of_false List.not_mem_nil (Nat.not_lt_zero j)
  | @insert ops s s' a a' item hrun hinsert ih =>
    obtain ⟨-, -, hreach, hlast⟩ := orderedArrayInsertT_spec hinsert
    exact mem_log_append (PlacedRun.size_eq hrun) hreach hlast ih
  | @remove ops s a i hrun hi ih =>
    obtain ⟨-, hreach, hlast⟩ := orderedArrayRemoveT_spec s hi
    exact mem_log_append (PlacedRun.size_eq hrun) hreach hlast ih

/-- **An array stays within its storage** for `max_size` operations. -/
theorem array_within_storage_iff (h : PlacedRun m addr maxSize comparer ops s a) :
    WithinStorage maxSize s a ↔ ops.length ≤ maxSize := by
  constructor
  · intro hwithin
    exact h.size_eq ▸ hwithin.1
  · intro hle
    exact ⟨h.size_eq.trans_le hle, fun j hj => (h.mem_log.mp hj).trans_le hle⟩

end

/-- An array with room for one element, into which one is inserted. -/
theorem one_insertion_within_storage : ∃ s a,
    PlacedRun (fun _ => 0) 0x1000 1 stdComparer [.insert 7] s a ∧ WithinStorage 1 s a := by
  have hplaced : PlacedRun (fun _ => 0) 0x1000 1 stdComparer [] _ _ := .nil
  have hrun : PlacedRun (fun _ => 0) 0x1000 1 stdComparer [.insert 7] _ _ := .insert 7 hplaced rfl
  exact ⟨_, _, hrun, (array_within_storage_iff hrun).mpr le_rfl⟩

/-- The element is removed again: the removal reads the slot behind the storage, and the array is
then longer than its storage. -/
theorem removal_leaves_storage : ∃ s a,
    PlacedRun (fun _ => 0) 0x1000 1 stdComparer [.insert 7, .remove 0] s a ∧
      ¬WithinStorage 1 s a := by
  have hplaced : PlacedRun (fun _ => 0) 0x1000 1 stdComparer [] _ _ := .nil
  have hinsert : PlacedRun (fun _ => 0) 0x1000 1 stdComparer [.insert 7] _ _ :=
    .insert 7 hplaced rfl
  have hrun : PlacedRun (fun _ => 0) 0x1000 1 stdComparer [.insert 7, .remove 0] _ _ :=
    .remove hinsert Nat.one_pos
  refine ⟨_, _, hrun, fun hwithin => ?_⟩
  exact absurd (hwithin.2 1 (hrun.mem_log.mpr Nat.one_lt_two)) (lt_irrefl 1)

end Studix
