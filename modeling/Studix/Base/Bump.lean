import Mathlib

/-!
# Bump allocation

A bump allocator has one pointer. A request moves the pointer up to a place that it accepts, gets
this place and moves the pointer on by its size. Nothing is ever given back, so the ranges that are
handed out lie one behind the other.

## Main definitions

* `Request`: a size, and the next place that is accepted.
* `bumpAddrs`, `bumpEnd`: the places handed out to a list of requests, and the pointer after them.

## Main results

* `bump_bounds`: the ranges lie between the first and the last value of the pointer.
* `bump_pairwise`: they are disjoint and in ascending order.
-/

namespace Studix

/-- A request for `size` bytes. From the pointer on, `fit` is the next place that it accepts. -/
structure Request where
  fit : ℕ → ℕ
  le_fit : ∀ n, n ≤ fit n
  size : ℕ

/-- The pointer after a list of requests. -/
def bumpEnd : ℕ → List Request → ℕ
  | n, [] => n
  | n, r :: rs => bumpEnd (r.fit n + r.size) rs

/-- The place that each request gets. -/
def bumpAddrs : ℕ → List Request → List (Request × ℕ)
  | _, [] => []
  | n, r :: rs => (r, r.fit n) :: bumpAddrs (r.fit n + r.size) rs

variable {n : ℕ} {r : Request} {rs : List Request} {p q : Request × ℕ}

@[simp] theorem bumpEnd_nil (n : ℕ) : bumpEnd n [] = n := rfl

@[simp] theorem bumpEnd_cons (n : ℕ) (r : Request) (rs : List Request) :
    bumpEnd n (r :: rs) = bumpEnd (r.fit n + r.size) rs := rfl

@[simp] theorem bumpAddrs_cons (n : ℕ) (r : Request) (rs : List Request) :
    bumpAddrs n (r :: rs) = (r, r.fit n) :: bumpAddrs (r.fit n + r.size) rs := rfl

/-- The pointer never moves down. -/
theorem le_bumpEnd (n : ℕ) (rs : List Request) : n ≤ bumpEnd n rs := by
  induction rs generalizing n with
  | nil => exact le_rfl
  | cons r rs ih =>
    have hfit := r.le_fit n
    have hrest := ih (r.fit n + r.size)
    rw [bumpEnd_cons]
    omega

/-- The pointer is behind the range of the first request. -/
theorem fit_add_size_le_bumpEnd (n : ℕ) (r : Request) (rs : List Request) :
    r.fit n + r.size ≤ bumpEnd n (r :: rs) :=
  le_bumpEnd _ rs

/-- **The ranges lie between the first and the last value of the pointer.** -/
theorem bump_bounds (h : p ∈ bumpAddrs n rs) : n ≤ p.2 ∧ p.2 + p.1.size ≤ bumpEnd n rs := by
  induction rs generalizing n with
  | nil => cases h
  | cons r rs ih =>
    have hfit := r.le_fit n
    rcases List.mem_cons.mp h with rfl | hrest
    · exact ⟨hfit, fit_add_size_le_bumpEnd n r rs⟩
    · obtain ⟨hlow, hhigh⟩ := ih hrest
      exact ⟨by omega, hhigh⟩

/-- A range that ends before another starts is disjoint from it. -/
theorem disjoint_Ico_of_le {a b c d : ℕ} (h : b ≤ c) : Disjoint (Set.Ico a b) (Set.Ico c d) :=
  Set.Ico_disjoint_Ico.mpr ((min_le_left b d).trans (h.trans (le_max_right a c)))

/-- **The ranges are disjoint and in ascending order.** -/
theorem bump_pairwise (n : ℕ) (rs : List Request) :
    (bumpAddrs n rs).Pairwise fun p q => p.2 + p.1.size ≤ q.2 := by
  induction rs generalizing n with
  | nil => exact .nil
  | cons r rs ih => exact .cons (fun q hq => (bump_bounds hq).1) (ih (r.fit n + r.size))

end Studix
