import Mathlib

/-!
# Finite sequences in order

The first `n` values of a sequence are in order when the sequence is monotone on `Set.Iio n`. Three
changes of a sequence in order: a value grows, a value shrinks, and a value is put between two
others. A list is in order under a strict weak order `lt` when no element is less than one before
it.

## Main results

* `monotoneOn_of_grown`, `monotoneOn_of_shrunk`: after one value has changed, the values are in
  order exactly when it does not pass another.
* `monotoneOn_inserted_iff`: a value put in its place does not disturb the order, and does not
  restore it.
* `pairwise_orderedInsert_of_isStrictWeakOrder`: nor does it under a strict weak order.
-/

namespace Studix

/-! ### Sequences -/

section Sequences

variable {α : Type*} [LinearOrder α] {f g : ℕ → α} {n p : ℕ} {v : α}

theorem monotoneOn_Iio_iff : MonotoneOn f (Set.Iio n) ↔ ∀ j < n, ∀ i < j, f i ≤ f j := by
  constructor
  · intro h j hj i hi
    exact h (Set.mem_Iio.mpr (hi.trans hj)) (Set.mem_Iio.mpr hj) hi.le
  · intro h i _ j hj hij
    obtain rfl | hlt := hij.eq_or_lt
    · exact le_rfl
    · exact h j hj i hlt

theorem le_of_monotoneOn_Iio (h : MonotoneOn f (Set.Iio n)) {i j : ℕ} (hj : j < n) (hij : i < j) :
    f i ≤ f j :=
  monotoneOn_Iio_iff.mp h j hj i hij

/-- Order is a matter of the values. -/
theorem monotoneOn_Iio_congr (h : ∀ j < n, g j = f j) :
    MonotoneOn g (Set.Iio n) ↔ MonotoneOn f (Set.Iio n) :=
  ⟨fun hg => hg.congr fun j hj => h j hj, fun hf => hf.congr fun j hj => (h j hj).symm⟩

/-- A value that grows must not pass those behind it. -/
theorem monotoneOn_of_grown (hf : MonotoneOn f (Set.Iio n)) (hp : p < n)
    (hsame : ∀ j < n, j ≠ p → g j = f j) (hle : f p ≤ g p) :
    MonotoneOn g (Set.Iio n) ↔ ∀ j < n, p < j → g p ≤ f j := by
  constructor
  · intro hg j hj hpj
    rw [← hsame j hj hpj.ne']
    exact le_of_monotoneOn_Iio hg hj hpj
  · intro hbehind
    refine monotoneOn_Iio_iff.mpr fun j hj i hi => ?_
    obtain rfl | hjp := eq_or_ne j p
    · rw [hsame i (hi.trans hj) hi.ne]
      exact (le_of_monotoneOn_Iio hf hj hi).trans hle
    rw [hsame j hj hjp]
    obtain rfl | hip := eq_or_ne i p
    · exact hbehind j hj hi
    · rw [hsame i (hi.trans hj) hip]
      exact le_of_monotoneOn_Iio hf hj hi

/-- A value that shrinks must not pass those before it. -/
theorem monotoneOn_of_shrunk (hf : MonotoneOn f (Set.Iio n)) (hp : p < n)
    (hsame : ∀ j < n, j ≠ p → g j = f j) (hle : g p ≤ f p) :
    MonotoneOn g (Set.Iio n) ↔ ∀ j < p, f j ≤ g p := by
  constructor
  · intro hg j hj
    rw [← hsame j (hj.trans hp) hj.ne]
    exact le_of_monotoneOn_Iio hg hp hj
  · intro hbefore
    refine monotoneOn_Iio_iff.mpr fun j hj i hi => ?_
    obtain rfl | hip := eq_or_ne i p
    · rw [hsame j hj hi.ne']
      exact hle.trans (le_of_monotoneOn_Iio hf hj hi)
    rw [hsame i (hi.trans hj) hip]
    obtain rfl | hjp := eq_or_ne j p
    · exact hbefore i hi
    · rw [hsame j hj hjp]
      exact le_of_monotoneOn_Iio hf hj hi

/-- **A value put in its place** between the others neither disturbs the order nor restores it. -/
theorem monotoneOn_inserted_iff (hbefore : ∀ j < p, f j ≤ v) (hbehind : p < n → v ≤ f p)
    (hg : ∀ j < n + 1, g j = if j < p then f j else if j = p then v else f (j - 1)) (hp : p ≤ n) :
    MonotoneOn g (Set.Iio (n + 1)) ↔ MonotoneOn f (Set.Iio n) := by
  rw [monotoneOn_Iio_iff]
  constructor
  · -- Take the value out again: `f j` is at `j` or at `j + 1`.
    intro h
    have hat : ∀ j < n, f j = g (if j < p then j else j + 1) := by
      intro j hj
      split_ifs with hjp
      · rw [hg j (by omega), if_pos hjp]
      · rw [hg (j + 1) (by omega), if_neg (by omega), if_neg (by omega), Nat.add_sub_cancel]
    refine monotoneOn_Iio_iff.mpr fun j hj i hi => ?_
    rw [hat i (hi.trans hj), hat j hj]
    exact h _ (by split_ifs <;> omega) _ (by split_ifs <;> omega)
  · intro hf j hj i hi
    rw [hg i (hi.trans hj), hg j hj]
    rcases lt_trichotomy j p with hjp | rfl | hpj
    · rw [if_pos (hi.trans hjp), if_pos hjp]
      exact le_of_monotoneOn_Iio hf (hjp.trans_le hp) hi
    · rw [if_pos hi, if_neg (lt_irrefl j), if_pos rfl]
      exact hbefore i hi
    rw [if_neg hpj.not_gt, if_neg hpj.ne']
    have hpn : p < n := by omega
    have hle : f p ≤ f (j - 1) := hf hpn (Set.mem_Iio.mpr (by omega)) (by omega)
    rcases lt_trichotomy i p with hip | rfl | hpi
    · rw [if_pos hip]
      exact (hbefore i hip).trans ((hbehind hpn).trans hle)
    · rw [if_neg (lt_irrefl i), if_pos rfl]
      exact (hbehind hpn).trans hle
    · rw [if_neg hpi.not_gt, if_neg hpi.ne']
      exact hf (Set.mem_Iio.mpr (by omega)) (Set.mem_Iio.mpr (by omega)) (by omega)

end Sequences

/-! ### Lists -/

section Lists

variable {α : Type*} {lt r : α → α → Prop} {l : List α} {x : α} {p : ℕ}

/-- Under a strict weak order, not to be less is transitive. -/
theorem not_lt_trans_of_isStrictWeakOrder (h : IsStrictWeakOrder α lt) {a b c : α}
    (hab : ¬lt b a) (hbc : ¬lt c b) : ¬lt c a := by
  intro hca
  by_cases hlt : lt a b
  · exact hbc (h.trans _ _ _ hca hlt)
  by_cases hlt' : lt b c
  · exact hab (h.trans _ _ _ hlt' hca)
  · exact (h.incomp_trans a b c ⟨hlt, hab⟩ ⟨hlt', hbc⟩).2 hca

/-- **An insertion under a strict weak order** keeps a list in order. -/
theorem pairwise_orderedInsert_of_isStrictWeakOrder (h : IsStrictWeakOrder α lt)
    [DecidableRel fun a b => ¬lt b a] (x : α) (hl : l.Pairwise fun a b => ¬lt b a) :
    (l.orderedInsert (fun a b => ¬lt b a) x).Pairwise fun a b => ¬lt b a := by
  have htotal : Std.Total fun a b => ¬lt b a := by
    refine ⟨fun a b => or_iff_not_imp_left.mpr fun hba hab => ?_⟩
    exact h.irrefl a (h.trans _ _ _ hab (not_not.mp hba))
  have htrans : IsTrans α fun a b => ¬lt b a :=
    ⟨fun a b c hab hbc => not_lt_trans_of_isStrictWeakOrder h hab hbc⟩
  exact hl.orderedInsert x l

/-- A value inserted at the first place that it may take. -/
theorem insertIdx_eq_orderedInsert [DecidableRel r] (hp : p ≤ l.length)
    (hbefore : ∀ j (hj : j < l.length), j < p → ¬r x l[j])
    (hat : ∀ hlt : p < l.length, r x l[p]) : l.insertIdx p x = l.orderedInsert r x := by
  induction l generalizing p with
  | nil =>
    obtain rfl : p = 0 := Nat.le_zero.mp hp
    rfl
  | cons a l ih =>
    cases p with
    | zero =>
      have hhead : r x a := hat (Nat.succ_pos _)
      rw [List.insertIdx_zero, List.orderedInsert_cons_of_le _ _ hhead]
    | succ p =>
      have hhead : ¬r x a := hbefore 0 (Nat.succ_pos _) (Nat.succ_pos p)
      rw [List.insertIdx_succ_cons, List.orderedInsert_of_not_le _ _ hhead]
      congr 1
      exact ih (Nat.le_of_succ_le_succ hp)
        (fun j hj hlt => hbefore (j + 1) (Nat.succ_lt_succ hj) (Nat.succ_lt_succ hlt))
        fun hlt => hat (Nat.succ_lt_succ hlt)

end Lists

end Studix
