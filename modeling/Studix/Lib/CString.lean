import Studix.Base.Memory
import Studix.Misc.Panic

/-!
# String functions

`strcpy` and `strcmp` of `src/lib/string.c` on NUL-terminated strings. The kernel's `strcpy`
advances the index once more before it writes the terminating zero: it copies the characters, skips
one byte of the destination and clears the next. The copy reads as the source string only where the
skipped byte was zero before; otherwise that byte is an extra character.

Both loops run over a `size_t` index and end at the first NUL of their arguments.

## Main definitions

* `strcpy`, `strcmp`.
* `IsCString`: a buffer holds a string and its terminating NUL.

## Main results

* `strcpy_spec`: the bytes that `strcpy` leaves.
* `isCString_strcpy`: when the copy reads as the source.
* `strcmp_congr`: `strcmp` depends on its second argument by the string.
-/

namespace Studix

/-! ### The functions -/

/-- The loop of `strcpy`: the destination and the index at which it ends. -/
def strcpyLoop (src : Memory) : ℕ → ℕ → Memory → Except Stop (Memory × ℕ)
  | 0, _, _ => .error .unfinished
  | fuel + 1, i, dest =>
    if src i = 0 then .ok (dest, i)
    else strcpyLoop src fuel (i + 1) (Function.update dest i (src i))

/-- `strcpy(dest, src)` between buffers that do not overlap: `dest[++i] = '\0'` after the loop. -/
def strcpy (dest src : Memory) : Except Stop Memory := do
  let (dest, i) ← strcpyLoop src (2 ^ 32) 0 dest
  .ok (Function.update dest (i + 1) 0)

/-- The loop of `strcmp`; `char` is signed. -/
def strcmpLoop (s1 s2 : Memory) : ℕ → ℕ → Except Stop ℤ
  | 0, _ => .error .unfinished
  | fuel + 1, i =>
    if (s1 i).toInt < (s2 i).toInt then .ok (-1)
    else if (s2 i).toInt < (s1 i).toInt then .ok 1
    else if s1 i = 0 then .ok 0
    else strcmpLoop s1 s2 fuel (i + 1)

/-- `strcmp(s1, s2)`. -/
def strcmp (s1 s2 : Memory) : Except Stop ℤ := strcmpLoop s1 s2 (2 ^ 32) 0

/-! ### Buffers that hold a string -/

/-- The buffer holds the characters of `str`, none of which is NUL, and a NUL behind them. -/
structure IsCString (m : Memory) (str : List Byte) : Prop where
  ne_zero : ∀ c ∈ str, c ≠ 0
  bytes : readBytes m 0 str.length = str
  nul : m str.length = 0

/-- A buffer with the bytes of a list and zeros behind them, such as a string literal. -/
def bufferOf (l : List Byte) : Memory := fun i => l.getD i 0

variable {m m' src : Memory} {str t : List Byte} {i : ℕ}

theorem IsCString.apply (h : IsCString m str) (hi : i < str.length) : m i = str[i] := by
  have hbyte := getElem_readBytes m 0 str.length (by simpa using hi)
  simp only [h.bytes, Nat.zero_add] at hbyte
  exact hbyte.symm

theorem IsCString.apply_ne_zero (h : IsCString m str) (hi : i < str.length) : m i ≠ 0 := by
  rw [h.apply hi]
  exact h.ne_zero _ (List.getElem_mem hi)

/-- A buffer that agrees on the string and its NUL holds the string too. -/
theorem IsCString.congr (h : IsCString m str) (heq : ∀ i ≤ str.length, m' i = m i) :
    IsCString m' str where
  ne_zero := h.ne_zero
  bytes := by
    refine Eq.trans (readBytes_congr fun i hi => ?_) h.bytes
    rw [Nat.zero_add, heq i hi.le]
  nul := by rw [heq _ le_rfl, h.nul]

/-- A buffer holds at most one string. -/
theorem IsCString.unique (hs : IsCString m str) (ht : IsCString m t) : str = t := by
  have hlen : str.length = t.length := by
    rcases lt_trichotomy str.length t.length with hlt | heq | hgt
    · exact absurd hs.nul (ht.apply_ne_zero hlt)
    · exact heq
    · exact absurd ht.nul (hs.apply_ne_zero hgt)
  rw [← hs.bytes, ← ht.bytes, hlen]

/-- A buffer with a NUL in it holds a string. -/
theorem exists_isCString {n : ℕ} (h : m n = 0) : ∃ str, IsCString m str ∧ str.length ≤ n := by
  induction n using Nat.strong_induction_on with
  | _ n ih =>
    by_cases hearlier : ∃ i < n, m i = 0
    · obtain ⟨i, hi, hnul⟩ := hearlier
      obtain ⟨str, hstr, hlen⟩ := ih i hi hnul
      exact ⟨str, hstr, hlen.trans hi.le⟩
    · push Not at hearlier
      refine ⟨readBytes m 0 n, ⟨fun c hc => ?_, ?_, ?_⟩, by simp⟩
      · obtain ⟨i, hi, rfl⟩ := List.mem_map.mp hc
        rw [Nat.zero_add]
        exact hearlier i (List.mem_range.mp hi)
      · rw [length_readBytes]
      · rw [length_readBytes, h]

/-- The rest of a string, behind some of its characters. -/
theorem IsCString.drop {s : List Byte} (h : IsCString m (s ++ t)) :
    IsCString (fun i => m (s.length + i)) t where
  ne_zero c hc := h.ne_zero c (List.mem_append_right s hc)
  bytes := by
    refine List.ext_getElem (by simp) fun i h₁ h₂ => ?_
    rw [getElem_readBytes, Nat.zero_add, h.apply (by rw [List.length_append]; omega),
      List.getElem_append_right (Nat.le_add_right _ _)]
    simp only [Nat.add_sub_cancel_left]
  nul := by
    have := h.nul
    rwa [List.length_append] at this

/-- A string cut off by a NUL. -/
theorem IsCString.truncate {s : List Byte} (h : IsCString m (s ++ t)) :
    IsCString (Function.update m s.length 0) s where
  ne_zero c hc := h.ne_zero c (List.mem_append_left t hc)
  bytes := by
    refine List.ext_getElem (by simp) fun i h₁ h₂ => ?_
    rw [getElem_readBytes, Nat.zero_add, Function.update_of_ne h₂.ne,
      h.apply (by rw [List.length_append]; omega), List.getElem_append_left h₂]
  nul := Function.update_self ..

@[simp] theorem readBytes_bufferOf (l : List Byte) : readBytes (bufferOf l) 0 l.length = l := by
  refine List.ext_getElem (by simp) fun i h₁ h₂ => ?_
  rw [getElem_readBytes, Nat.zero_add, bufferOf, List.getD_eq_getElem _ _ h₂]

theorem isCString_bufferOf (str : List Byte) (h : (0 : Byte) ∉ str) :
    IsCString (bufferOf str) str where
  ne_zero c hc h0 := h (h0 ▸ hc)
  bytes := readBytes_bufferOf str
  nul := by simp [bufferOf]

/-! ### Copying -/

private theorem strcpyLoop_spec (fuel : ℕ) (dest : Memory) (hsrc : IsCString src str)
    (hi : i ≤ str.length) (hfuel : str.length < fuel + i) :
    ∃ dest', strcpyLoop src fuel i dest = .ok (dest', str.length) ∧
      ∀ k, dest' k = if i ≤ k ∧ k < str.length then src k else dest k := by
  induction fuel generalizing i dest with
  | zero => omega
  | succ fuel ih =>
    rw [strcpyLoop]
    by_cases hend : i = str.length
    · subst hend
      exact ⟨dest, if_pos hsrc.nul, fun k => (if_neg (by omega)).symm⟩
    · obtain ⟨dest', hloop, hdest⟩ :=
        ih (i := i + 1) (Function.update dest i (src i)) (by omega) (by omega)
      refine ⟨dest', ?_, fun k => ?_⟩
      · rw [if_neg (hsrc.apply_ne_zero (by omega)), hloop]
      · rw [hdest k]
        rcases eq_or_ne k i with rfl | hne
        · rw [if_neg (by omega), if_pos (by omega), Function.update_self]
        · rw [Function.update_of_ne hne]
          split_ifs <;> first | rfl | omega

/-- **What `strcpy` leaves**: the characters of the source, the old byte behind them, a zero one
further, and the old contents elsewhere. -/
theorem strcpy_spec (dest : Memory) (hsrc : IsCString src str) (hlen : str.length < 2 ^ 32) :
    ∃ dest', strcpy dest src = .ok dest' ∧
      ∀ k, dest' k = if k < str.length then src k else if k = str.length + 1 then 0
        else dest k := by
  obtain ⟨dest', hloop, hdest⟩ :=
    strcpyLoop_spec (2 ^ 32) dest hsrc (Nat.zero_le _) (by omega)
  refine ⟨Function.update dest' (str.length + 1) 0, ?_, fun k => ?_⟩
  · simp only [strcpy, hloop, except_ok_bind]
  · rcases eq_or_ne k (str.length + 1) with rfl | hne
    · rw [Function.update_self, if_neg (by omega), if_pos rfl]
    · rw [Function.update_of_ne hne, hdest k, if_neg hne]
      simp only [Nat.zero_le, true_and]

/-- The copy reads as the source when the skipped byte was zero. -/
theorem isCString_strcpy (dest : Memory) (hsrc : IsCString src str)
    (hlen : str.length < 2 ^ 32) (hskip : dest str.length = 0) :
    ∃ dest', strcpy dest src = .ok dest' ∧ IsCString dest' str ∧
      ∀ k, str.length + 2 ≤ k → dest' k = dest k := by
  obtain ⟨dest', hcopy, hdest⟩ := strcpy_spec dest hsrc hlen
  refine ⟨dest', hcopy, hsrc.congr fun i hi => ?_, fun k hk => ?_⟩
  · rw [hdest i]
    rcases Nat.lt_or_eq_of_le hi with hlt | rfl
    · rw [if_pos hlt]
    · rw [if_neg (by omega), if_neg (by omega), hskip, hsrc.nul]
  · rw [hdest k, if_neg (by omega), if_neg (by omega)]

/-- When it was not, it is a further character of the copy. -/
theorem isCString_strcpy_of_ne (dest : Memory) (hsrc : IsCString src str)
    (hlen : str.length < 2 ^ 32) (hskip : dest str.length ≠ 0) :
    ∃ dest', strcpy dest src = .ok dest' ∧ IsCString dest' (str ++ [dest str.length]) := by
  obtain ⟨dest', hcopy, hdest⟩ := strcpy_spec dest hsrc hlen
  refine ⟨dest', hcopy, ?_, ?_, ?_⟩
  · intro c hc
    rcases List.mem_append.mp hc with hc | hc
    · exact hsrc.ne_zero c hc
    · rwa [List.mem_singleton.mp hc]
  · have hhead : readBytes dest' 0 str.length = str := by
      refine Eq.trans (readBytes_congr fun i hi => ?_) hsrc.bytes
      rw [Nat.zero_add, hdest i, if_pos hi]
    rw [List.length_append, readBytes_add, hhead]
    simp [readBytes, hdest]
  · rw [hdest, List.length_append, List.length_singleton, if_neg (by omega), if_pos rfl]

/-- Whatever the skipped byte was, the copy is a string. -/
theorem exists_isCString_strcpy (dest : Memory) (hsrc : IsCString src str)
    (hlen : str.length < 2 ^ 32) :
    ∃ dest' t, strcpy dest src = .ok dest' ∧ IsCString dest' t ∧ t.length ≤ str.length + 1 := by
  by_cases hskip : dest str.length = 0
  · obtain ⟨dest', hcopy, hdest, -⟩ := isCString_strcpy dest hsrc hlen hskip
    exact ⟨dest', str, hcopy, hdest, by omega⟩
  · obtain ⟨dest', hcopy, hdest⟩ := isCString_strcpy_of_ne dest hsrc hlen hskip
    exact ⟨dest', str ++ [dest str.length], hcopy, hdest, by simp⟩

/-! ### Comparing -/

/-- `strcmp` depends on its second argument only by the string. -/
private theorem strcmpLoop_congr {m'' : Memory} (ht : IsCString m' t)
    (ht' : IsCString m'' t) (fuel : ℕ)
    (hi : i ≤ t.length) : strcmpLoop m m' fuel i = strcmpLoop m m'' fuel i := by
  have hbyte : ∀ k ≤ t.length, m' k = m'' k := by
    intro k hk
    rcases Nat.eq_or_lt_of_le hk with rfl | hlt
    · rw [ht.nul, ht'.nul]
    · rw [ht.apply hlt, ht'.apply hlt]
  induction fuel generalizing i with
  | zero => rfl
  | succ fuel ih =>
    rw [strcmpLoop, strcmpLoop, hbyte i hi]
    split_ifs with hlt hgt hnul
    · rfl
    · rfl
    · rfl
    · have hsame : m i = m'' i := BitVec.eq_of_toInt_eq
        (le_antisymm (not_lt.mp hgt) (not_lt.mp hlt))
      refine ih (Nat.lt_of_le_of_ne hi fun hend => hnul ?_)
      rw [hsame, hend, ht'.nul]

theorem strcmp_congr {m'' : Memory} (ht : IsCString m' t) (ht' : IsCString m'' t) :
    strcmp m m' = strcmp m m'' :=
  strcmpLoop_congr ht ht' _ (Nat.zero_le _)

end Studix
