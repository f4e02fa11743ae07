import Mathlib

/-!
# Arbitration by a fixed priority

An arbiter keeps at most one request of each line, and grants the line with a request that comes
first in a fixed order. A request on a line that already has one is merged with it.

## Main definitions

* `Arbiter`, `Arbiter.request`, `Arbiter.grant`, `Arbiter.run`.

## Main results

* `Arbiter.grants_served`, `Arbiter.grants_pending`: what a number of grants in a row serve and
  leave.
* `Arbiter.run_count`: every request of a run is served, still there, or merged with another.
-/

namespace Studix

/-- The lines with a request, and the lines granted so far. -/
structure Arbiter (ι : Type*) where
  pending : ι → Bool
  served : List ι

namespace Arbiter

variable {ι : Type*} [DecidableEq ι] {order : List ι} {a : Arbiter ι} {i j : ι}

def request (a : Arbiter ι) (i : ι) : Arbiter ι :=
  { a with pending := Function.update a.pending i true }

/-- The line is granted. -/
def serve (a : Arbiter ι) (i : ι) : Arbiter ι :=
  { a with pending := Function.update a.pending i false, served := a.served ++ [i] }

/-- The line that is granted next. -/
def next (order : List ι) (a : Arbiter ι) : Option ι := order.find? a.pending

/-- Grant the first line with a request, if there is one. -/
def grant (order : List ι) (a : Arbiter ι) : Arbiter ι :=
  match a.next order with
  | some i => a.serve i
  | none => a

/-! ### Grants in a row -/

/-- The line that is granted comes first among those with a request. -/
theorem filter_of_next (horder : order.Nodup) (h : a.next order = some i) :
    order.filter a.pending = i :: order.filter (a.serve i).pending := by
  obtain ⟨hi, before, behind, rfl, hbefore⟩ := List.find?_eq_some_iff_append.mp h
  obtain ⟨-, hbehind, hdisjoint⟩ := List.nodup_append.mp horder
  have hnil : ∀ q : ι → Bool, (∀ j ∈ before, q j = false) → before.filter q = [] := by
    intro q hq
    exact List.filter_eq_nil_iff.mpr fun j hj => by simp [hq j hj]
  have hsame : behind.filter (a.serve i).pending = behind.filter a.pending := by
    refine List.filter_congr fun j hj => ?_
    have hne : j ≠ i := by
      rintro rfl
      exact (List.nodup_cons.mp hbehind).1 hj
    exact Function.update_of_ne hne ..
  have hserved : (a.serve i).pending i = false := Function.update_self ..
  rw [List.filter_append, List.filter_append, List.filter_cons_of_pos hi,
    List.filter_cons_of_neg (by simp [hserved]), hsame, hnil a.pending, hnil]
  · rfl
  · intro j hj
    have hne : j ≠ i := hdisjoint j hj i (List.mem_cons_self ..)
    exact (Function.update_of_ne hne ..).trans (by simpa using hbefore j hj)
  · intro j hj
    simpa using hbefore j hj

omit [DecidableEq ι] in
/-- Without a request nothing is granted. -/
theorem filter_of_next_eq_none (h : a.next order = none) : order.filter a.pending = [] := by
  refine List.filter_eq_nil_iff.mpr fun j hj => ?_
  exact List.find?_eq_none.mp h j hj

/-- **Grants in a row serve the lines with a request in the order of their priority**, each line
once. -/
theorem grants_served (horder : order.Nodup) (n : ℕ) (a : Arbiter ι) :
    ((grant order)^[n] a).served = a.served ++ (order.filter a.pending).take n := by
  induction n generalizing a with
  | zero => simp
  | succ n ih =>
    rw [Function.iterate_succ_apply, ih, grant]
    cases h : a.next order with
    | none => simp [filter_of_next_eq_none h]
    | some i => simp [filter_of_next horder h, serve]

/-- **Grants in a row leave the requests they have not served.** -/
theorem grants_pending (horder : order.Nodup) (n : ℕ) (a : Arbiter ι) :
    order.filter ((grant order)^[n] a).pending = (order.filter a.pending).drop n := by
  induction n generalizing a with
  | zero => simp
  | succ n ih =>
    rw [Function.iterate_succ_apply, ih, grant]
    cases h : a.next order with
    | none => simp [filter_of_next_eq_none h]
    | some i => simp [filter_of_next horder h]

/-! ### Runs -/

/-- What happens to an arbiter. -/
inductive Op (ι : Type*)
  | request (i : ι)
  | grant
  deriving DecidableEq

def step (order : List ι) (a : Arbiter ι) : Op ι → Arbiter ι
  | .request i => a.request i
  | .grant => a.grant order

def run (order : List ι) (a : Arbiter ι) (ops : List (Op ι)) : Arbiter ι := ops.foldl (step order) a

/-- A run of grants only. -/
theorem run_replicate_grant (order : List ι) (n : ℕ) (a : Arbiter ι) :
    a.run order (List.replicate n .grant) = (grant order)^[n] a := by
  induction n generalizing a with
  | zero => rfl
  | succ n ih =>
    rw [List.replicate_succ, Function.iterate_succ_apply, ← ih]
    rfl

/-- The number of requests on a line that were merged with one before. -/
def merged (order : List ι) (i : ι) : Arbiter ι → List (Op ι) → ℕ
  | _, [] => 0
  | a, op :: ops =>
    (if op = .request i ∧ a.pending i then 1 else 0) + merged order i (a.step order op) ops

/-- One step keeps the account of a line. -/
theorem step_count (order : List ι) (a : Arbiter ι) (op : Op ι) (i : ι) :
    (a.step order op).served.count i + ((a.step order op).pending i).toNat +
        (if op = .request i ∧ a.pending i then 1 else 0) =
      a.served.count i + (a.pending i).toNat + if op = .request i then 1 else 0 := by
  cases op with
  | request j =>
    rcases eq_or_ne j i with rfl | hne
    · cases a.pending j <;> simp [step, request]
    · simp [step, request, hne, hne.symm]
  | grant =>
    rw [step, grant]
    cases h : a.next order with
    | none => simp
    | some j =>
      have hj : a.pending j = true := List.find?_some h
      rcases eq_or_ne j i with rfl | hne
      · simp [serve, hj]
      · simp [serve, hne, hne.symm]

/-- **Every request is served, still there, or merged with another.** -/
theorem run_count (order : List ι) (a : Arbiter ι) (ops : List (Op ι)) (i : ι) :
    (a.run order ops).served.count i + ((a.run order ops).pending i).toNat +
        merged order i a ops =
      a.served.count i + (a.pending i).toNat + ops.count (.request i) := by
  induction ops generalizing a with
  | nil => rfl
  | cons op ops ih =>
    have hstep := step_count order a op i
    have hrest := ih (a.step order op)
    rw [run, List.foldl_cons, ← run, merged, List.count_cons]
    simp only [beq_iff_eq]
    omega

end Arbiter

end Studix
