import Studix.Base.Memory
import Studix.Base.Word
import Studix.Misc.Panic

/-!
# Decimal output

`term_print_decu` and `term_print_dec` of `src/term/term_printf.c`. The first loop multiplies a
divisor by ten until it exceeds the number, the second divides the number by it digit by digit. The
divisor has 32 bits, so above `10 ^ 9` the first loop runs past the last power of ten that fits: it
ends at a number that is not a power of ten, or reaches 0 and never ends.

A printing function is given by the characters it passes to `term_putchar`, in order.

## Main definitions

* `termPrintDecu`, `termPrintDec`.
* `decimalDigits`: the canonical decimal digits of a number.

## Main results

* `growDivisor_pow`, `digitLoop_pow`: the two loops on powers of ten.
* `printsDecimal_iff`: the numbers that are printed in decimal.
-/

namespace Studix.Term

/-! ### The functions -/

/-- The first loop of `term_print_decu`: `divisor *= 10` while `divisor <= x`. -/
def growDivisor (x : ℕ) : ℕ → ℕ → Except Stop ℕ
  | 0, _ => .error .unfinished
  | fuel + 1, divisor =>
    if divisor ≤ x then growDivisor x fuel (wmul divisor 10) else .ok divisor

/-- The last loop of `term_print_decu`: a character for each `divisor`, down to 0. -/
def digitLoop (x : ℕ) : ℕ → ℕ → Except Stop (List Byte)
  | 0, _ => .error .unfinished
  | fuel + 1, divisor =>
    if 0 < divisor then do
      let cs ← digitLoop x fuel (divisor / 10)
      .ok (BitVec.ofNat 8 (x / divisor % 10 + 48) :: cs)
    else .ok []

/-- `term_print_decu`; `unsigned long` has 32 bits. -/
def termPrintDecu (x : ℕ) : Except Stop (List Byte) := do
  let divisor ← growDivisor x (2 ^ 32) 1
  let divisor := divisor / 10
  let divisor := if divisor = 0 then 1 else divisor
  digitLoop x (2 ^ 32) divisor

/-- `term_print_dec`; `x = -x` wraps for the least number. -/
def termPrintDec (x : BitVec 32) : Except Stop (List Byte) :=
  if x.toInt < 0 then do
    let cs ← termPrintDecu (-x).toNat
    .ok (45 :: cs)
  else termPrintDecu x.toNat

/-! ### Decimal digits -/

/-- The canonical decimal digits of a number, as characters. -/
def decimalDigits (n : ℕ) : List Byte := (Nat.toDigits 10 n).map fun c => BitVec.ofNat 8 c.toNat

variable {x k divisor fuel : ℕ} {cs : List Byte}

theorem length_decimalDigits_le_iff (hk : 0 < k) :
    (decimalDigits x).length ≤ k ↔ x < 10 ^ k := by
  rw [decimalDigits, List.length_map, Nat.length_toDigits_le_iff (by decide) hk]

theorem decimalDigits_of_lt (hx : x < 10) : decimalDigits x = [BitVec.ofNat 8 (x + 48)] := by
  rw [decimalDigits, Nat.toDigits_of_lt_base hx]
  interval_cases x <;> rfl

theorem decimalDigits_of_le (hx : 10 ≤ x) :
    decimalDigits x = decimalDigits (x / 10) ++ [BitVec.ofNat 8 (x % 10 + 48)] := by
  have hlast := decimalDigits_of_lt (Nat.mod_lt x (by decide : 0 < 10))
  rw [decimalDigits, Nat.toDigits_of_lt_base (Nat.mod_lt x (by decide))] at hlast
  rw [decimalDigits, Nat.toDigits_of_base_le (by decide) hx, List.map_append, hlast, decimalDigits]

/-! ### The loops -/

/-- **The divisor grows to the first power of ten above the number**, while that power fits. -/
theorem growDivisor_pow (hfuel : 9 < fuel + k) (hk : k ≤ 9) (hpow : 10 ^ k ≤ 10 * x ∨ k = 0)
    (hx : x < 10 ^ 9) :
    ∃ n, growDivisor x fuel (10 ^ k) = .ok (10 ^ n) ∧ x < 10 ^ n ∧ (10 ^ n ≤ 10 * x ∨ n = 0) := by
  induction fuel generalizing k with
  | zero => omega
  | succ fuel ih =>
    rw [growDivisor]
    split_ifs with hle
    · have hlt : k < 9 := (Nat.pow_lt_pow_iff_right (by decide : 1 < 10)).mp (hle.trans_lt hx)
      have hwmul : wmul (10 ^ k) 10 = 10 ^ (k + 1) := by
        rw [wmul_eq, Nat.pow_succ]
        have := Nat.pow_le_pow_right (by decide : 0 < 10) hlt
        rw [Nat.pow_succ] at this
        omega
      rw [hwmul]
      exact ih (by omega) hlt (.inl (by rw [Nat.pow_succ]; omega))
    · exact ⟨k, rfl, not_le.mp hle, hpow⟩

/-- A divisor that the loop ends with is above the number, and has 32 bits. -/
theorem lt_of_growDivisor {d : ℕ} (h : growDivisor x fuel divisor = .ok d)
    (hdivisor : divisor < 2 ^ 32) : x < d ∧ d < 2 ^ 32 := by
  induction fuel generalizing divisor with
  | zero => cases h
  | succ fuel ih =>
    rw [growDivisor] at h
    split_ifs at h with hle
    · exact ih h (wmul_lt _ _)
    · obtain rfl := Except.ok.inj h
      exact ⟨not_le.mp hle, hdivisor⟩

/-- The `k + 1` lowest decimal digits of a number, the highest first. -/
def lowDigits (x k : ℕ) : List Byte :=
  (List.range (k + 1)).reverse.map fun i => BitVec.ofNat 8 (x / 10 ^ i % 10 + 48)

theorem lowDigits_succ (x k : ℕ) :
    lowDigits x (k + 1) = lowDigits (x / 10) k ++ [BitVec.ofNat 8 (x % 10 + 48)] := by
  have hshift : ∀ i, x / 10 ^ (i + 1) = x / 10 / 10 ^ i := fun i => by
    rw [Nat.pow_succ', Nat.div_div_eq_div_mul]
  rw [lowDigits, List.range_succ_eq_map, List.reverse_cons, List.map_append, List.map_reverse,
    List.map_map, lowDigits, List.map_reverse]
  simp only [Function.comp_def, Nat.succ_eq_add_one, hshift, List.map_cons, List.map_nil, pow_zero,
    Nat.div_one]

theorem lowDigits_eq_decimalDigits (hlt : x < 10 ^ (k + 1)) (hle : 10 ^ k ≤ x ∨ k = 0) :
    lowDigits x k = decimalDigits x := by
  induction k generalizing x with
  | zero =>
    rw [decimalDigits_of_lt (by simpa using hlt)]
    simp [lowDigits, Nat.mod_eq_of_lt (show x < 10 by simpa using hlt)]
  | succ k ih =>
    rw [Nat.pow_succ] at hlt hle
    have hten : 10 ≤ x := by
      have := Nat.pos_of_ne_zero (pow_ne_zero k (show (10 : ℕ) ≠ 0 by decide))
      omega
    rw [lowDigits_succ, decimalDigits_of_le hten, ih (by omega) (by omega)]

/-- **The digit loop on a power of ten** gives the lowest digits of the number. -/
theorem digitLoop_pow (x : ℕ) (hfuel : k + 1 < fuel) :
    digitLoop x fuel (10 ^ k) = .ok (lowDigits x k) := by
  induction k generalizing fuel with
  | zero =>
    obtain ⟨fuel, rfl⟩ : ∃ n, fuel = n + 2 := ⟨fuel - 2, by omega⟩
    rfl
  | succ k ih =>
    obtain ⟨fuel, rfl⟩ : ∃ n, fuel = n + 1 := ⟨fuel - 1, by omega⟩
    have hdiv : 10 ^ (k + 1) / 10 = 10 ^ k := by
      rw [Nat.pow_succ, Nat.mul_div_cancel _ (by decide)]
    have hsplit : lowDigits x (k + 1) =
        BitVec.ofNat 8 (x / 10 ^ (k + 1) % 10 + 48) :: lowDigits x k := by
      rw [lowDigits, List.range_succ, List.reverse_append]
      rfl
    rw [digitLoop, if_pos (by positivity), hdiv, ih (by omega), except_ok_bind, hsplit]

/-- The digit loop prints no more characters than its divisor has digits. -/
theorem length_le_of_digitLoop {n : ℕ} (h : digitLoop x fuel divisor = .ok cs)
    (hdivisor : divisor < 10 ^ n) : cs.length ≤ n := by
  induction fuel generalizing divisor cs n with
  | zero => cases h
  | succ fuel ih =>
    rw [digitLoop] at h
    split_ifs at h with hpos
    · obtain ⟨cs', hrest, h⟩ := except_bind_eq_ok.mp h
      obtain rfl := Except.ok.inj h
      obtain _ | n := n
      · omega
      · rw [Nat.pow_succ] at hdivisor
        exact Nat.succ_le_succ (ih hrest (by omega))
    · obtain rfl := Except.ok.inj h
      exact Nat.zero_le n

/-! ### What is printed -/

theorem termPrintDecu_of_lt (hx : x < 10 ^ 9) : termPrintDecu x = .ok (decimalDigits x) := by
  obtain ⟨n, hgrow, hlt, hle⟩ : ∃ n, growDivisor x (2 ^ 32) (10 ^ 0) = .ok (10 ^ n) ∧
      x < 10 ^ n ∧ (10 ^ n ≤ 10 * x ∨ n = 0) :=
    growDivisor_pow (by decide) (by decide) (.inr rfl) hx
  rw [pow_zero] at hgrow
  -- The divisor is the first power of ten above the number, or 1 for the number 0.
  obtain ⟨k, hdivisor, hlt', hle'⟩ : ∃ k, (if 10 ^ n / 10 = 0 then 1 else 10 ^ n / 10) = 10 ^ k ∧
      x < 10 ^ (k + 1) ∧ (10 ^ k ≤ x ∨ k = 0) := by
    obtain _ | k := n
    · exact ⟨0, rfl, by omega, .inr rfl⟩
    · have hpow : 0 < 10 ^ k := by positivity
      rw [Nat.pow_succ] at hle
      refine ⟨k, ?_, hlt, .inl (by omega)⟩
      rw [Nat.pow_succ, Nat.mul_div_cancel _ (by decide), if_neg hpow.ne']
  have hk : k ≤ 9 := by
    rcases hle' with hle' | rfl
    · exact ((Nat.pow_lt_pow_iff_right (by decide : 1 < 10)).mp (hle'.trans_lt hx)).le
    · decide
  rw [termPrintDecu, hgrow, except_ok_bind]
  simp only [hdivisor]
  rw [digitLoop_pow x (by omega), lowDigits_eq_decimalDigits hlt' hle']

/-- Numbers from `10 ^ 9` on are printed with at most nine characters, if at all. -/
theorem length_le_of_termPrintDecu (h : termPrintDecu x = .ok cs) : cs.length ≤ 9 := by
  obtain ⟨d, hgrow, h⟩ := except_bind_eq_ok.mp h
  obtain ⟨-, hd⟩ := lt_of_growDivisor hgrow (by decide)
  refine length_le_of_digitLoop h ?_
  split_ifs
  · decide
  · omega

theorem termPrintDecu_eq_iff : termPrintDecu x = .ok (decimalDigits x) ↔ x < 10 ^ 9 :=
  ⟨fun h => (length_decimalDigits_le_iff (by decide)).mp (length_le_of_termPrintDecu h),
    termPrintDecu_of_lt⟩

/-- The decimal representation of a signed number. -/
def signedDigits (x : ℤ) : List Byte := (if x < 0 then [45] else []) ++ decimalDigits x.natAbs

/-- A signed number is printed as its sign and the unsigned number. -/
theorem termPrintDec_eq_ok_iff {x : BitVec 32} :
    termPrintDec x = .ok cs ↔ ∃ digits, termPrintDecu x.toInt.natAbs = .ok digits ∧
      cs = (if x.toInt < 0 then [45] else []) ++ digits := by
  have hlt := x.isLt
  rw [termPrintDec]
  split_ifs with hneg
  · have habs : (-x).toNat = x.toInt.natAbs := by
      rw [BitVec.toNat_neg, BitVec.toInt_eq_toNat_cond] at *
      split_ifs at * <;> omega
    rw [habs, except_bind_eq_ok]
    simp only [Except.ok.injEq, List.singleton_append, eq_comm]
  · have habs : x.toNat = x.toInt.natAbs := by
      rw [BitVec.toInt_eq_toNat_cond] at *
      split_ifs at * <;> omega
    simp [habs]

/-- **The words that are printed in decimal** are those that stand for a number of at most nine
digits, unsigned for `term_print_decu` and signed for `term_print_dec`. -/
theorem printsDecimal_iff (x : BitVec 32) :
    (termPrintDecu x.toNat = .ok (decimalDigits x.toNat) ↔ x.toNat < 10 ^ 9) ∧
      (termPrintDec x = .ok (signedDigits x.toInt) ↔ x.toInt.natAbs < 10 ^ 9) := by
  refine ⟨termPrintDecu_eq_iff, ?_⟩
  rw [termPrintDec_eq_ok_iff, ← termPrintDecu_eq_iff, signedDigits]
  constructor
  · rintro ⟨digits, hdigits, heq⟩
    rw [hdigits, List.append_cancel_left heq]
  · exact fun h => ⟨_, h, rfl⟩

/-- For the largest number the divisor never gets above it. -/
theorem growDivisor_max (fuel : ℕ) (hdivisor : divisor < 2 ^ 32) :
    growDivisor (2 ^ 32 - 1) fuel divisor = .error .unfinished := by
  induction fuel generalizing divisor with
  | zero => rfl
  | succ fuel ih =>
    rw [growDivisor, if_pos (by omega)]
    exact ih (wmul_lt _ _)

/-- The least number of ten digits is printed as `709119810`, and the largest number is never
printed. -/
theorem ten_digits_not_printed :
    (∃ x : BitVec 32, x.toNat = 10 ^ 9 ∧
      termPrintDecu x.toNat = .ok [55, 48, 57, 49, 49, 57, 56, 49, 48] ∧
      termPrintDecu x.toNat ≠ .ok (decimalDigits x.toNat)) ∧
    ∃ x : BitVec 32, x.toNat = 2 ^ 32 - 1 ∧
      ∀ fuel, growDivisor x.toNat fuel 1 = .error .unfinished := by
  refine ⟨⟨1000000000, rfl, by decide +kernel, fun h => ?_⟩, 4294967295, rfl, fun fuel => ?_⟩
  · exact absurd (termPrintDecu_eq_iff.mp h) (by decide)
  · exact growDivisor_max fuel (by decide)

end Studix.Term
