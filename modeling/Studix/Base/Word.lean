import Mathlib

/-!
# Unsigned 32-bit arithmetic

Values of `uint32_t`, `size_t` and `uintptr_t` on a 32-bit target are natural numbers below
`2 ^ 32`. Sums and differences of such values wrap; the lemmas say when they do not.

## Main definitions

* `wadd`, `wsub`, `wmul`: the wrapping operations.
-/

namespace Studix

variable {a b : ℕ}

/-- The 32-bit sum `a + b`. -/
def wadd (a b : ℕ) : ℕ := (a + b) % 2 ^ 32

/-- The 32-bit difference `a - b`, for `b` below `2 ^ 32`. -/
def wsub (a b : ℕ) : ℕ := (a + 2 ^ 32 - b) % 2 ^ 32

/-- The 32-bit product `a * b`. -/
def wmul (a b : ℕ) : ℕ := a * b % 2 ^ 32

theorem wadd_lt (a b : ℕ) : wadd a b < 2 ^ 32 := Nat.mod_lt _ (by decide)

theorem wsub_lt (a b : ℕ) : wsub a b < 2 ^ 32 := Nat.mod_lt _ (by decide)

theorem wmul_lt (a b : ℕ) : wmul a b < 2 ^ 32 := Nat.mod_lt _ (by decide)

theorem wadd_eq (h : a + b < 2 ^ 32) : wadd a b = a + b := Nat.mod_eq_of_lt h

theorem wmul_eq (h : a * b < 2 ^ 32) : wmul a b = a * b := Nat.mod_eq_of_lt h

theorem wsub_eq (hle : b ≤ a) (ha : a < 2 ^ 32) : wsub a b = a - b := by
  rw [wsub]
  omega

/-- A difference that wraps. -/
theorem wsub_eq_of_lt (hlt : a < b) (hb : b ≤ 2 ^ 32) : wsub a b = 2 ^ 32 - (b - a) := by
  rw [wsub]
  omega

end Studix
