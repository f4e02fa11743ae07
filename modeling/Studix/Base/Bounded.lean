import Studix.Base.Loop

/-!
# Computations within a bound

A recursive program that may not end is run within a bound on the depth of its calls, and an error
of its own says that the bound was used up. A run within a larger bound is then the same run, unless
the bound was used up. The lemmas say this of a program from what it says of the calls in it, and
what a program that ends says of the computations in it.

## Main definitions

* `Ends`: a computation has not used up its bound.
* `Approx`: a computation is another one, unless it has used up its bound.

## Main results

* `Approx.bind`, `Approx.forLoopM`: sequences and loops.
* `Approx.unique`: the runs that end agree.
-/

namespace Studix

universe u

variable {ε : Type*} {α β σ : Type u} {stop : ε} {x y : Except ε α}

/-- The computation has not used up its bound, for which the error `stop` stands. -/
def Ends (stop : ε) (x : Except ε α) : Prop := x ≠ .error stop

/-- The second computation is the first one, unless that has used up its bound. -/
def Approx (stop : ε) (x y : Except ε α) : Prop := Ends stop x → y = x

@[simp] theorem ends_ok (stop : ε) (a : α) : Ends stop (.ok a : Except ε α) := by
  rintro ⟨⟩

@[simp] theorem ends_error_iff {stop e : ε} : Ends stop (.error e : Except ε α) ↔ e ≠ stop :=
  not_congr ⟨Except.error.inj, congrArg Except.error⟩

/-! ### Computations that end -/

theorem Ends.bind {f : α → Except ε β} (hx : Ends stop x) (hf : ∀ a, x = .ok a → Ends stop (f a)) :
    Ends stop (x >>= f) := by
  cases x with
  | error e => exact fun h => hx (congrArg Except.error (Except.error.inj h))
  | ok a => exact hf a rfl

/-- A sequence that ends has ended in its first part. -/
theorem Ends.of_bind {f : α → Except ε β} (h : Ends stop (x >>= f)) : Ends stop x := by
  rintro rfl
  exact h rfl

/-- A sequence that ends has ended in its second part. -/
theorem Ends.of_bind_ok {f : α → Except ε β} {a : α} (h : Ends stop (x >>= f)) (hx : x = .ok a) :
    Ends stop (f a) := by
  rwa [hx, except_ok_bind] at h

/-- A loop that ends has ended in its first iterations. -/
theorem Ends.of_forLoopM {body : ℕ → σ → Except ε σ} {s : σ} {m n : ℕ}
    (h : Ends stop (forLoopM body n s)) (hle : m ≤ n) : Ends stop (forLoopM body m s) := by
  induction hle with
  | refl => exact h
  | step _ ih => exact ih h.of_bind

/-! ### Larger bounds -/

namespace Approx

theorem refl (x : Except ε α) : Approx stop x x := fun _ => rfl

theorem trans {z : Except ε α} (h : Approx stop x y) (h' : Approx stop y z) : Approx stop x z := by
  intro hx
  have hy := h hx
  rw [← hy] at hx
  exact (h' hx).trans hy

/-- A sequence, from its parts. -/
theorem bind {f g : α → Except ε β} (h : Approx stop x y) (hf : ∀ a, Approx stop (f a) (g a)) :
    Approx stop (x >>= f) (y >>= g) := by
  intro hends
  rw [h hends.of_bind]
  cases x with
  | error e => rfl
  | ok a => exact hf a hends

/-- A loop, from its body. -/
theorem forLoopM {body body' : ℕ → σ → Except ε σ} (h : ∀ i s, Approx stop (body i s) (body' i s))
    (n : ℕ) (s : σ) : Approx stop (Studix.forLoopM body n s) (Studix.forLoopM body' n s) := by
  induction n with
  | zero => exact .refl _
  | succ n ih => exact ih.bind (h n)

/-- **The runs that end agree.** -/
theorem unique {f : ℕ → Except ε α} (h : ∀ d d', d ≤ d' → Approx stop (f d) (f d')) {d d' : ℕ}
    (hd : Ends stop (f d)) (hd' : Ends stop (f d')) : f d = f d' := by
  rcases Nat.le_total d d' with hle | hle
  · exact (h d d' hle hd).symm
  · exact h d' d hle hd'

end Approx

end Studix
