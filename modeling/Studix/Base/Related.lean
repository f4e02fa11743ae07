import Studix.Base.Memory

/-!
# Two runs

Two runs of a program on inputs that differ where the program does not look. The results of two
fallible computations are related when both stop with the same error, or both return and the results
are related; the relation goes through sequences. Two memories agree outside a set of addresses when
every byte outside it is the same: a value loaded from beside the set is the same, and equal stores
keep the agreement.

## Main definitions

* `Related`: the results of two computations.
* `Beside`: a range of addresses beside a set.

## Main results

* `Related.bind`: sequences of related computations are related.
* `load32_eq_of_beside`, `eqOn_store32_of_eqOn`: loads and stores in memories that agree outside a
  set.
-/

namespace Studix

universe u

variable {ε : Type*} {α β γ δ : Type u} {R : α → β → Prop} {S : γ → δ → Prop}

/-! ### Results -/

/-- Both computations stop with the same error, or both return, and the results are related. -/
inductive Related (R : α → β → Prop) : Except ε α → Except ε β → Prop
  | ok {a : α} {b : β} (h : R a b) : Related R (.ok a) (.ok b)
  | error (e : ε) : Related R (.error e) (.error e)

theorem Related.of_ok {a : α} {b : β} (h : Related R (.ok a : Except ε α) (.ok b)) : R a b := by
  cases h with
  | ok h => exact h

/-- **Sequences of related computations are related.** -/
theorem Related.bind {x : Except ε α} {y : Except ε β} {f : α → Except ε γ} {g : β → Except ε δ}
    (h : Related R x y) (hfg : ∀ a b, x = .ok a → y = .ok b → R a b → Related S (f a) (g b)) :
    Related S (x >>= f) (y >>= g) := by
  cases h with
  | ok h => exact hfg _ _ rfl rfl h
  | error e => exact .error e

/-- A computation is related to itself when its results are. -/
theorem Related.refl {R : α → α → Prop} (x : Except ε α) (h : ∀ a, x = .ok a → R a a) :
    Related R x x := by
  cases x with
  | error e => exact .error e
  | ok a => exact .ok (h a rfl)

/-! ### Memories -/

/-- The `n` addresses from `a` on are not in `D`. -/
def Beside (D : Set ℕ) (a n : ℕ) : Prop := ∀ x, a ≤ x → x < a + n → x ∉ D

section

variable {D : Set ℕ} {m m' : Memory} {a b k n v : ℕ} {f : ℕ → Byte}

theorem Beside.mono (h : Beside D a n) (hab : a ≤ b) (hle : b + k ≤ a + n) : Beside D b k :=
  fun x hx hx' => h x (hab.trans hx) (hx'.trans_le hle)

theorem load32_eq_of_beside (heq : Set.EqOn m m' Dᶜ) (h : Beside D a 4) :
    load32 m a = load32 m' a :=
  load32_congr fun x hx => heq (h x (Set.mem_Ico.mp hx).1 (Set.mem_Ico.mp hx).2)

/-- **Equal blits keep the agreement**, wherever they write. -/
theorem eqOn_blit_of_eqOn (heq : Set.EqOn m m' Dᶜ) : Set.EqOn (blit m a n f) (blit m' a n f) Dᶜ :=
  fun _ hx => blit_congr_apply f (heq hx)

theorem eqOn_store32_of_eqOn (heq : Set.EqOn m m' Dᶜ) :
    Set.EqOn (store32 m a v) (store32 m' a v) Dᶜ :=
  fun _ hx => store32_congr_apply (heq hx)

end

end Studix
