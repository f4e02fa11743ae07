import Studix.Base.Loop

/-!
# Ways the kernel stops

A failed `ASSERT` (`src/misc/assert.c`) and a `PANIC` (`src/misc/panic.c`) print a message, disable
interrupts and loop forever, so a function that reaches one never returns. The model returns a
`Stop` there. Further constructors stand for an access through a null pointer, a division by zero, a
shift by the width of the word or more, and a loop or recursion that does not end within the bound
it is run for.

## Main definitions

* `Stop`, `assert`.
* `returns`: a computation returns a value that passes a test.
-/

namespace Studix

/-- The reasons for which a kernel function does not return. -/
inductive Stop
  /-- `ASSERT` failed on the expression. -/
  | assertFailed (expr : String)
  /-- `PANIC` with the message. -/
  | panic (message : String)
  /-- An access through a null pointer. -/
  | nullPointer
  /-- A division by zero. -/
  | divideError
  /-- A shift by at least the width of the word. -/
  | undefinedShift
  /-- The bound on loop iterations or nested calls was used up. -/
  | unfinished
  deriving DecidableEq, Repr

/-- `ASSERT(x)`, with the text of `x`. -/
def assert (x : Bool) (expr : String) : Except Stop Unit :=
  if x then .ok () else .error (.assertFailed expr)

@[simp] theorem assert_eq_ok {x : Bool} {expr : String} {u : Unit} :
    assert x expr = .ok u ↔ x = true := by
  cases x <;> simp [assert]

/-- A computation behind an `ASSERT` returns when the assertion holds and the computation
returns. -/
theorem assert_bind_eq_ok {α : Type} {x : Bool} {expr : String} {f : Unit → Except Stop α} {b : α} :
    (assert x expr >>= f) = .ok b ↔ x = true ∧ f () = .ok b := by
  cases x <;> simp [assert, bind, Except.bind]

theorem assert_true_bind {α : Type} (expr : String) (f : Unit → Except Stop α) :
    (assert true expr >>= f) = f () := rfl

theorem assert_false_bind {α : Type} (expr : String) (f : Unit → Except Stop α) :
    (assert false expr >>= f) = .error (.assertFailed expr) := rfl

/-- The computation returns a value that passes the test. -/
def returns {α : Type} (x : Except Stop α) (test : α → Bool) : Bool :=
  match x with
  | .ok a => test a
  | .error _ => false

theorem exists_of_returns {α : Type} {x : Except Stop α} {test : α → Bool}
    (h : returns x test = true) : ∃ a, x = .ok a ∧ test a = true := by
  cases x with
  | error e => cases h
  | ok a => exact ⟨a, rfl, h⟩

end Studix
