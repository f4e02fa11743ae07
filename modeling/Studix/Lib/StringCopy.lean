import Studix.Base.Word
import Studix.Lib.StringOrder

/-!
# The length of a copied string

`strlen` of `src/lib/string.c` increments the length with every character it looks at, the
terminating NUL included, so it returns one more than the number of characters. `strcpy` advances
its index in the same way and puts the NUL one place too far. Neither shows in a comparison of the
copy with its source when the destination was zero before.

## Main definitions

* `strlen`.
* `CopyAgrees`: what is expected of a copy.

## Main results

* `strlen_eq`: the value of `strlen`.
* `not_copyAgrees`: no copy is as expected, and what the copies have of it.
-/

namespace Studix

/-- The loop of `strlen`. -/
def strlenLoop (str : Memory) : ℕ → ℕ → Except Stop ℕ
  | 0, _ => .error .unfinished
  | fuel + 1, len => if str len = 0 then .ok (wadd len 1) else strlenLoop str fuel (len + 1)

/-- `strlen(str)`. -/
def strlen (str : Memory) : Except Stop ℕ := strlenLoop str (2 ^ 32) 0

variable {m src dest : Memory} {str : List Byte} {i n size : ℕ}

private theorem strlenLoop_eq {fuel : ℕ} (hstr : IsCString m str) (hi : i ≤ str.length)
    (hfuel : str.length < fuel + i) : strlenLoop m fuel i = .ok (wadd str.length 1) := by
  induction fuel generalizing i with
  | zero => omega
  | succ fuel ih =>
    rw [strlenLoop]
    rcases Nat.lt_or_eq_of_le hi with hlt | rfl
    · rw [if_neg (hstr.apply_ne_zero hlt)]
      exact ih hlt (by omega)
    · rw [if_pos hstr.nul]

/-- **`strlen` counts the NUL.** -/
theorem strlen_eq (hstr : IsCString m str) (hlen : str.length + 1 < 2 ^ 32) :
    strlen m = .ok (str.length + 1) := by
  rw [strlen, strlenLoop_eq hstr (Nat.zero_le _) (by omega), wadd_eq hlen]

/-- A copy of a string of `n` characters to a buffer of `size` bytes compares as equal and has the
length of the string, and what is behind its end is left alone. -/
def CopyAgrees (dest src : Memory) (n size : ℕ) : Prop :=
  ∃ dest', strcpy dest src = .ok dest' ∧ strcmp dest' src = .ok 0 ∧ strlen dest' = .ok n ∧
    strlen src = .ok n ∧ ∀ i, n < i → i < size → dest' i = dest i

/-- The copy compares as equal when the byte that `strcpy` skips was zero. -/
theorem strcmp_copy_iff {dest' : Memory} (hsrc : IsCString src str) (hlen : str.length + 1 < 2 ^ 32)
    (hcopy : strcpy dest src = .ok dest') : strcmp dest' src = .ok 0 ↔ dest str.length = 0 := by
  by_cases hskip : dest str.length = 0
  · obtain ⟨d, hcopy', hd, -⟩ := isCString_strcpy dest hsrc (by omega) hskip
    obtain rfl : d = dest' := Except.ok.inj (hcopy'.symm.trans hcopy)
    obtain ⟨r, hcmp, hr⟩ := strcmp_eq_zero_iff hd hsrc (by omega)
    exact iff_of_true (hcmp.trans (congrArg _ (hr.mpr rfl))) hskip
  · obtain ⟨d, hcopy', hd⟩ := isCString_strcpy_of_ne dest hsrc (by omega) hskip
    obtain rfl : d = dest' := Except.ok.inj (hcopy'.symm.trans hcopy)
    obtain ⟨r, hcmp, hr⟩ := strcmp_eq_zero_iff hd hsrc (by simpa using hlen)
    refine iff_of_false (fun hzero => ?_) hskip
    have hsame := hr.mp (Except.ok.inj (hcmp.symm.trans hzero))
    exact absurd (congrArg List.length hsame) (by simp)

/-- **No copy is as expected.** For every string of `n` characters and every buffer of more than
`n + 1` bytes, `strlen` of the string is `n + 1`. The copy compares as equal exactly when byte `n`
of the buffer was zero before, and what is behind its end is left alone exactly when byte `n + 1`
was. -/
theorem not_copyAgrees (dest : Memory) (hsrc : IsCString src str) (hsize : str.length + 1 < size)
    (hfits : size ≤ 2 ^ 32) :
    ¬CopyAgrees dest src str.length size ∧ strlen src = .ok (str.length + 1) ∧
      ∃ dest', strcpy dest src = .ok dest' ∧
        (strcmp dest' src = .ok 0 ↔ dest str.length = 0) ∧
        ((∀ i, str.length < i → i < size → dest' i = dest i) ↔ dest (str.length + 1) = 0) := by
  have hlen : str.length + 1 < 2 ^ 32 := hsize.trans_le hfits
  have hstrlen := strlen_eq hsrc hlen
  obtain ⟨dest', hcopy, hdest⟩ := strcpy_spec dest hsrc (by omega)
  have hbehind : dest' (str.length + 1) = 0 := by
    rw [hdest, if_neg (by omega), if_pos rfl]
  refine ⟨?_, hstrlen, dest', hcopy, strcmp_copy_iff hsrc hlen hcopy, fun hkept => ?_,
    fun hzero i hi _ => ?_⟩
  · rintro ⟨-, -, -, -, hsame, -⟩
    have := Except.ok.inj (hstrlen.symm.trans hsame)
    omega
  · rw [← hkept (str.length + 1) (Nat.lt_succ_self _) hsize, hbehind]
  · rcases eq_or_ne i (str.length + 1) with rfl | hne
    · rw [hbehind, hzero]
    · rw [hdest i, if_neg (by omega), if_neg hne]

/-- A copy of the one-character string `a` to a buffer that holds `xyz`. -/
theorem not_copyAgrees_of_xyz : IsCString (bufferOf [97]) [97] ∧ [(97 : Byte)].length + 1 < 3 ∧
    ¬CopyAgrees (bufferOf [120, 121, 122]) (bufferOf [97]) 1 3 := by
  have hsrc := isCString_bufferOf [97] (by decide)
  have hsize : [(97 : Byte)].length + 1 < 3 := by decide
  exact ⟨hsrc, hsize, (not_copyAgrees (bufferOf [120, 121, 122]) hsrc hsize (by decide)).1⟩

/-- The length of the string `a` is 2, and a copy of it to a buffer that holds `xyz` reads `ay`. -/
theorem copy_reads_old_byte : strlen (bufferOf [97]) = .ok 2 ∧
    (∃ dest', strcpy (bufferOf [120, 121, 122]) (bufferOf [97]) = .ok dest' ∧
      readBytes dest' 0 3 = [97, 121, 0] ∧ strcmp dest' (bufferOf [97]) = .ok 1) ∧
    ¬CopyAgrees (bufferOf [120, 121, 122]) (bufferOf [97]) 1 3 := by
  have hlen : strlen (bufferOf [97]) = .ok 2 := by decide +kernel
  have hcopy : returns (strcpy (bufferOf [120, 121, 122]) (bufferOf [97])) (fun d =>
      decide (readBytes d 0 3 = [97, 121, 0]) && decide (strcmp d (bufferOf [97]) = .ok 1)) =
        true := by
    decide +kernel
  obtain ⟨d, hd, hbytes⟩ := exists_of_returns hcopy
  rw [Bool.and_eq_true, decide_eq_true_eq, decide_eq_true_eq] at hbytes
  refine ⟨hlen, ⟨d, hd, hbytes⟩, ?_⟩
  rintro ⟨-, -, -, -, hsame, -⟩
  exact absurd (hlen.symm.trans hsame) (by decide)

end Studix
