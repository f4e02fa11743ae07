import Mathlib

/-!
# Counted loops and runs

Two rules used throughout the development. A counted loop `for (i = 0; i < n; i++)` threads a
state through its body (`forLoop`), and a property indexed by the loop counter that the body
carries from `i` to `i + 1` holds at the exit (`forLoop_invariant`). A run takes one step after
the other (`Steps`), every step meeting a side condition, and a property that each such step
preserves holds in every state reached (`Steps.invariant`).

## Main definitions

* `forLoop`, `forLoopM`: counted loops over a state, without and with a way to stop.
* `Steps`: the states reached by steps that all meet a condition.

## Main results

* `forLoop_invariant`, `forLoopM_invariant`, `forLoopM_total`: the invariant rules of the loops.
* `Steps.invariant`: the invariant rule of runs.
-/

namespace Studix

universe u

variable {σ α ε : Type*}

/-! ### Counted loops -/

/-- The loop `for (i = 0; i < n; i++) s = body(i, s)`. -/
def forLoop (body : ℕ → σ → σ) : ℕ → σ → σ
  | 0, s => s
  | n + 1, s => body n (forLoop body n s)

@[simp] theorem forLoop_zero (body : ℕ → σ → σ) (s : σ) : forLoop body 0 s = s := rfl

/-- **The invariant rule of a counted loop.** -/
theorem forLoop_invariant {body : ℕ → σ → σ} {n : ℕ} {s : σ} (P : ℕ → σ → Prop) (h0 : P 0 s)
    (hstep : ∀ i t, i < n → P i t → P (i + 1) (body i t)) : P n (forLoop body n s) := by
  induction n with
  | zero => exact h0
  | succ n ih =>
    exact hstep n _ (Nat.lt_succ_self n) (ih fun i t hi => hstep i t (Nat.lt_succ_of_lt hi))

/-- A sequence of two computations returns exactly when the first returns and the second returns
from its result. -/
theorem except_bind_eq_ok {α β : Type u} {x : Except ε α} {f : α → Except ε β} {b : β} :
    (x >>= f) = .ok b ↔ ∃ a, x = .ok a ∧ f a = .ok b := by
  cases x <;> simp [bind, Except.bind]

/-- A sequence of two computations stops where the first one or the second one does. -/
theorem except_bind_eq_error {α β : Type u} {x : Except ε α} {f : α → Except ε β} {e : ε} :
    (x >>= f) = .error e ↔ x = .error e ∨ ∃ a, x = .ok a ∧ f a = .error e := by
  cases x <;> simp [bind, Except.bind]

@[simp] theorem except_ok_bind {α β : Type u} (a : α) (f : α → Except ε β) :
    (.ok a >>= f) = f a := rfl

/-- A sequence whose first computation returned goes on with its result. -/
theorem except_bind_of_eq_ok {α β : Type u} {x : Except ε α} {a : α} (f : α → Except ε β)
    (h : x = .ok a) : (x >>= f) = f a := by
  rw [h, except_ok_bind]

/-- The loop `for (i = 0; i < n; i++) s = body(i, s)` whose body may stop the program. -/
def forLoopM (body : ℕ → σ → Except ε σ) : ℕ → σ → Except ε σ
  | 0, s => .ok s
  | n + 1, s => forLoopM body n s >>= body n

/-- **The invariant rule of a counted loop that may stop**: an exit state is reached through
bodies that all returned. -/
theorem forLoopM_invariant {body : ℕ → σ → Except ε σ} {n : ℕ} {s u : σ} (P : ℕ → σ → Prop)
    (h0 : P 0 s) (hstep : ∀ i t t', i < n → P i t → body i t = .ok t' → P (i + 1) t')
    (h : forLoopM body n s = .ok u) : P n u := by
  induction n generalizing u with
  | zero =>
    obtain rfl : s = u := Except.ok.inj h
    exact h0
  | succ n ih =>
    obtain ⟨t, hn, hbody⟩ := except_bind_eq_ok.mp h
    have ht : P n t := ih (fun i v v' hi => hstep i v v' (Nat.lt_succ_of_lt hi)) hn
    exact hstep n t u (Nat.lt_succ_self n) ht hbody

/-- A counted loop whose body returns in every state with the invariant returns, with the
invariant. -/
theorem forLoopM_total {body : ℕ → σ → Except ε σ} {n : ℕ} {s : σ} (P : ℕ → σ → Prop)
    (h0 : P 0 s) (hstep : ∀ i t, i < n → P i t → ∃ t', body i t = .ok t' ∧ P (i + 1) t') :
    ∃ u, forLoopM body n s = .ok u ∧ P n u := by
  induction n with
  | zero => exact ⟨s, rfl, h0⟩
  | succ n ih =>
    obtain ⟨t, hn, ht⟩ := ih fun i t hi => hstep i t (Nat.lt_succ_of_lt hi)
    obtain ⟨u, hbody, hu⟩ := hstep n t (Nat.lt_succ_self n) ht
    exact ⟨u, by rw [forLoopM, hn, except_ok_bind, hbody], hu⟩

/-- A loop that returns has passed through each of its iterations. -/
theorem forLoopM_body_ok {body : ℕ → σ → Except ε σ} {n i : ℕ} {s u : σ}
    (h : forLoopM body n s = .ok u) (hi : i < n) :
    ∃ t t', forLoopM body i s = .ok t ∧ body i t = .ok t' := by
  induction n generalizing u with
  | zero => exact absurd hi (Nat.not_lt_zero i)
  | succ n ih =>
    obtain ⟨t, hn, hbody⟩ := except_bind_eq_ok.mp h
    rcases Nat.lt_succ_iff_lt_or_eq.mp hi with hlt | rfl
    · exact ih hn hlt
    · exact ⟨t, u, hn, hbody⟩

/-- **A loop stops where one of its iterations does.** -/
theorem forLoopM_eq_error_iff {body : ℕ → σ → Except ε σ} {n : ℕ} {s : σ} {e : ε} :
    forLoopM body n s = .error e ↔
      ∃ i < n, ∃ t, forLoopM body i s = .ok t ∧ body i t = .error e := by
  induction n with
  | zero => simp [forLoopM]
  | succ n ih =>
    rw [forLoopM, except_bind_eq_error, ih]
    constructor
    · rintro (⟨i, hi, hstop⟩ | ⟨t, ht, hstop⟩)
      · exact ⟨i, hi.trans (Nat.lt_succ_self n), hstop⟩
      · exact ⟨n, Nat.lt_succ_self n, t, ht, hstop⟩
    · rintro ⟨i, hi, t, ht, hstop⟩
      rcases Nat.lt_succ_iff_lt_or_eq.mp hi with hlt | rfl
      · exact .inl ⟨i, hlt, t, ht, hstop⟩
      · exact .inr ⟨t, ht, hstop⟩

/-! ### Runs -/

/-- The states reached from `s` by steps of `step` whose state and action all meet `ok`. -/
inductive Steps (step : σ → α → σ → Prop) (ok : σ → α → Prop) (s : σ) : σ → Prop
  | refl : Steps step ok s s
  | tail {t u : σ} (a : α) (h : Steps step ok s t) (hok : ok t a) (hstep : step t a u) :
      Steps step ok s u

/-- **The invariant rule of runs.** A property of the first state that every step meeting `ok`
preserves holds in every state reached. -/
theorem Steps.invariant {step : σ → α → σ → Prop} {ok : σ → α → Prop} {s t : σ} (I : σ → Prop)
    (h0 : I s) (hstep : ∀ t a u, I t → ok t a → step t a u → I u) (h : Steps step ok s t) :
    I t := by
  induction h with
  | refl => exact h0
  | tail a _ hok hs ih => exact hstep _ a _ ih hok hs

end Studix
