import Studix.Term.Printf

/-!
# Hexadecimal output

`term_print_hex` starts at the highest digit of the number, skips zeros down to the lowest digit and
prints the digits from there on. What it prints reads as the number again, and starts with `0` only
when that is all there is.

## Main definitions

* `IsHexDigit`, `hexValue`: the hexadecimal digits, and the number that a string of them stands for.

## Main results

* `leadingHexDigit_spec`: where the first loop ends.
* `termPrintHex_roundTrip`: what is printed.
-/

namespace Studix.Term

/-- The characters `0` to `9`, and `A` to `F` or `a` to `f`. -/
def IsHexDigit (upper : Bool) (c : Byte) : Prop :=
  (48 ≤ c.toNat ∧ c.toNat ≤ 57) ∨
    if upper then 65 ≤ c.toNat ∧ c.toNat ≤ 70 else 97 ≤ c.toNat ∧ c.toNat ≤ 102

instance (upper : Bool) (c : Byte) : Decidable (IsHexDigit upper c) :=
  inferInstanceAs (Decidable ((48 ≤ c.toNat ∧ c.toNat ≤ 57) ∨
    if upper then 65 ≤ c.toNat ∧ c.toNat ≤ 70 else 97 ≤ c.toNat ∧ c.toNat ≤ 102))

/-- The value of a hexadecimal digit of either case. -/
def hexDigitValue (c : Byte) : ℕ :=
  if c.toNat ≤ 57 then c.toNat - 48 else if c.toNat ≤ 70 then c.toNat - 55 else c.toNat - 87

/-- The number that a string of hexadecimal digits stands for. -/
def hexValue (cs : List Byte) : ℕ := cs.foldl (fun v c => 16 * v + hexDigitValue c) 0

variable {x n digit : ℕ} {upper : Bool}

/-! ### Digits -/

theorem isHexDigit_hexChar (upper : Bool) (hdigit : digit < 16) :
    IsHexDigit upper (hexChar upper digit) := by
  revert digit
  cases upper <;> decide

theorem hexDigitValue_hexChar (upper : Bool) (hdigit : digit < 16) :
    hexDigitValue (hexChar upper digit) = digit := by
  revert digit
  cases upper <;> decide

theorem hexChar_eq_zero_iff (upper : Bool) (hdigit : digit < 16) :
    hexChar upper digit = 48 ↔ digit = 0 := by
  revert digit
  cases upper <;> decide

/-- The digit at `shift = 4 * n`. -/
theorem shiftRight_and_eq (x n : ℕ) : x >>> (4 * n) &&& 15 = x / 16 ^ n % 16 := by
  have hmask : x >>> (4 * n) &&& 15 = x >>> (4 * n) % 16 :=
    Nat.and_two_pow_sub_one_eq_mod (x >>> (4 * n)) 4
  have hbase : (2 : ℕ) ^ (4 * n) = 16 ^ n := Nat.pow_mul 2 4 n
  rw [hmask, Nat.shiftRight_eq_div_pow, hbase]

theorem hexDigits_zero (x : ℕ) (upper : Bool) : hexDigits x upper 0 = [hexChar upper (x % 16)] := by
  have hlast := shiftRight_and_eq x 0
  rw [Nat.mul_zero, Nat.shiftRight_zero, Nat.pow_zero, Nat.div_one] at hlast
  rw [hexDigits, hlast]

theorem hexDigits_succ (x : ℕ) (upper : Bool) (n : ℕ) :
    hexDigits x upper (n + 1) = hexChar upper (x / 16 ^ (n + 1) % 16) :: hexDigits x upper n := by
  rw [hexDigits, shiftRight_and_eq]

/-! ### The loops -/

/-- **The first loop** ends at the highest digit that is not zero, or at the lowest. -/
theorem leadingHexDigit_spec (hx : x < 16 ^ (n + 1)) : x < 16 ^ (leadingHexDigit x n + 1) ∧
    (leadingHexDigit x n = 0 ∨ x / 16 ^ leadingHexDigit x n % 16 ≠ 0) := by
  induction n with
  | zero => exact ⟨hx, .inl rfl⟩
  | succ n ih =>
    rw [leadingHexDigit, shiftRight_and_eq]
    split_ifs with hzero
    · refine ih ?_
      have hdigit : x / 16 ^ (n + 1) < 16 := Nat.div_lt_of_lt_mul (Nat.pow_succ .. ▸ hx)
      rw [Nat.mod_eq_of_lt hdigit] at hzero
      exact (Nat.div_eq_zero_iff_lt (by positivity)).mp hzero
    · exact ⟨hx, .inr hzero⟩

/-- What the second loop prints reads as the lowest digits of the number. -/
theorem foldl_hexDigits (x : ℕ) (upper : Bool) (n v : ℕ) :
    (hexDigits x upper n).foldl (fun v c => 16 * v + hexDigitValue c) v =
      16 ^ (n + 1) * v + x % 16 ^ (n + 1) := by
  induction n generalizing v with
  | zero =>
    rw [hexDigits_zero, List.foldl_cons, List.foldl_nil,
      hexDigitValue_hexChar upper (Nat.mod_lt x (by decide)), Nat.zero_add, Nat.pow_one]
  | succ n ih =>
    have hsplit : x % 16 ^ (n + 2) = x % 16 ^ (n + 1) + 16 ^ (n + 1) * (x / 16 ^ (n + 1) % 16) := by
      rw [Nat.pow_succ, Nat.mod_mul]
    rw [hexDigits_succ, List.foldl_cons, ih,
      hexDigitValue_hexChar upper (Nat.mod_lt _ (by decide)), hsplit, Nat.pow_succ 16 (n + 1)]
    ring

theorem isHexDigit_of_mem {c : Byte} (h : c ∈ hexDigits x upper n) : IsHexDigit upper c := by
  induction n with
  | zero =>
    rw [hexDigits_zero, List.mem_singleton] at h
    exact h ▸ isHexDigit_hexChar upper (Nat.mod_lt x (by decide))
  | succ n ih =>
    rw [hexDigits_succ, List.mem_cons] at h
    rcases h with rfl | h
    · exact isHexDigit_hexChar upper (Nat.mod_lt _ (by decide))
    · exact ih h

theorem head?_hexDigits (x : ℕ) (upper : Bool) (n : ℕ) :
    (hexDigits x upper n).head? = some (hexChar upper (x / 16 ^ n % 16)) := by
  cases n with
  | zero => rw [hexDigits_zero, Nat.pow_zero, Nat.div_one, List.head?_cons]
  | succ n => rw [hexDigits_succ, List.head?_cons]

/-! ### What is printed -/

/-- **What is printed reads as the number again.** For every 32-bit number and either case, the
characters are hexadecimal digits of the case, at least one, without a leading zero unless it is the
only one, and they stand for the number. -/
theorem termPrintHex_roundTrip (x : BitVec 32) (upper : Bool) :
    termPrintHex x.toNat upper ≠ [] ∧
      (∀ c ∈ termPrintHex x.toNat upper, IsHexDigit upper c) ∧
      ((termPrintHex x.toNat upper).head? = some 48 → termPrintHex x.toNat upper = [48]) ∧
      hexValue (termPrintHex x.toNat upper) = x.toNat := by
  obtain ⟨hlt, hlead⟩ := leadingHexDigit_spec (x := x.toNat) (n := 7) (x.isLt.trans_eq (by decide))
  rw [termPrintHex]
  set n := leadingHexDigit x.toNat 7
  have hhead := head?_hexDigits x.toNat upper n
  refine ⟨fun hnil => ?_, fun c hc => isHexDigit_of_mem hc, fun hzero => ?_, ?_⟩
  · rw [hnil] at hhead
    cases hhead
  · -- The first digit is zero only where the first loop did not stop at a digit.
    have hdigit : x.toNat / 16 ^ n % 16 = 0 :=
      (hexChar_eq_zero_iff upper (Nat.mod_lt _ (by decide))).mp
      (Option.some.inj (hhead.symm.trans hzero))
    have hn : n = 0 := hlead.resolve_right (not_not.mpr hdigit)
    rw [hn, Nat.pow_zero, Nat.div_one] at hdigit
    rw [hn, hexDigits_zero, hdigit]
    cases upper <;> rfl
  · rw [hexValue, foldl_hexDigits, Nat.mul_zero, Nat.zero_add, Nat.mod_eq_of_lt hlt]

example : termPrintHex 0xBEEF00 true = [66, 69, 69, 70, 48, 48] := by decide

end Studix.Term
