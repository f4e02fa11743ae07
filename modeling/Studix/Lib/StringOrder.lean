import Studix.Lib.CString

/-!
# The order of strings

`strcmp` compares the characters of two strings as signed numbers, the terminating NUL of a string
included, up to the first place at which the strings differ or both end. This is the lexicographic
order of the numbers, so it is a linear order, in which a prefix of a string can be larger than the
string: a byte above `0x7F` is less than NUL.

## Main definitions

* `CString`: a string of the address space.
* `strcmpT`: `strcmp` with the record of the places it reads.
* `stringKey`: the numbers that are compared.

## Main results

* `strcmpT_spec`: the value of `strcmp`, and what it reads.
* `strcmp_eq_zero_iff`, `strcmp_orders`: `strcmp` decides equality and orders strings.
-/

namespace Studix

/-- A NUL-terminated string in a 32-bit address space. -/
structure CString where
  mem : Memory
  chars : List Byte
  isCString : IsCString mem chars
  length_lt : chars.length < 2 ^ 32

/-! ### What is read -/

/-- The loop of `strcmp` with the record of the indices at which it reads the strings. -/
def strcmpLoopT (s1 s2 : Memory) : ℕ → ℕ → List ℕ → Except Stop (ℤ × List ℕ)
  | 0, _, _ => .error .unfinished
  | fuel + 1, i, log =>
    if (s1 i).toInt < (s2 i).toInt then .ok (-1, i :: log)
    else if (s2 i).toInt < (s1 i).toInt then .ok (1, i :: log)
    else if s1 i = 0 then .ok (0, i :: log)
    else strcmpLoopT s1 s2 fuel (i + 1) (i :: log)

/-- `strcmp(s1, s2)` with the record of the indices at which it reads the strings. -/
def strcmpT (s1 s2 : Memory) : Except Stop (ℤ × List ℕ) := strcmpLoopT s1 s2 (2 ^ 32) 0 []

theorem strcmpLoopT_map_fst (s1 s2 : Memory) (fuel i : ℕ) (log : List ℕ) :
    (strcmpLoopT s1 s2 fuel i log).map Prod.fst = strcmpLoop s1 s2 fuel i := by
  induction fuel generalizing i log with
  | zero => rfl
  | succ fuel ih =>
    rw [strcmpLoopT, strcmpLoop]
    split_ifs
    · rfl
    · rfl
    · rfl
    · exact ih (i + 1) (i :: log)

/-- The record does not change the result. -/
theorem strcmpT_map_fst (s1 s2 : Memory) : (strcmpT s1 s2).map Prod.fst = strcmp s1 s2 :=
  strcmpLoopT_map_fst s1 s2 (2 ^ 32) 0 []

/-! ### Lexicographic comparison -/

section Compare

variable {α : Type*} [LinearOrder α]

/-- -1, 0 or 1, as `a` is less than, equal to or greater than `b`. -/
def compareValue (a b : α) : ℤ := if a < b then -1 else if b < a then 1 else 0

variable {a b : α}

theorem compareValue_congr {c d : α} (hlt : a < b ↔ c < d) (hgt : b < a ↔ d < c) :
    compareValue a b = compareValue c d := by
  simp only [compareValue, hlt, hgt]

theorem compareValue_neg_iff : compareValue a b < 0 ↔ a < b := by
  rw [compareValue]
  split_ifs with hlt hgt
  · exact iff_of_true (by decide) hlt
  · exact iff_of_false (by decide) hlt
  · exact iff_of_false (by decide) hlt

theorem compareValue_eq_zero_iff : compareValue a b = 0 ↔ a = b := by
  rw [compareValue]
  split_ifs with hlt hgt
  · exact iff_of_false (by decide) hlt.ne
  · exact iff_of_false (by decide) hgt.ne'
  · exact iff_of_true rfl (le_antisymm (not_lt.mp hgt) (not_lt.mp hlt))

theorem compareValue_swap (a b : α) : compareValue b a = -compareValue a b := by
  rw [compareValue, compareValue]
  split_ifs with hgt hlt
  · exact absurd hlt hgt.not_gt
  · rfl
  · rfl
  · rfl

end Compare

section Lists

variable {a b : ℤ} {l l' : List ℤ}

theorem compareValue_cons_of_lt (h : a < b) : compareValue (a :: l) (b :: l') = -1 :=
  if_pos (List.cons_lt_cons_iff.mpr (.inl h))

theorem compareValue_cons_of_gt (h : b < a) : compareValue (a :: l) (b :: l') = 1 := by
  rw [compareValue_swap, compareValue_cons_of_lt h, neg_neg]

theorem compareValue_cons_self (a : ℤ) (l l' : List ℤ) :
    compareValue (a :: l) (a :: l') = compareValue l l' := by
  have hcons : ∀ l l' : List ℤ, a :: l < a :: l' ↔ l < l' := fun l l' => by
    rw [List.cons_lt_cons_iff, or_iff_right (lt_irrefl a), and_iff_right rfl]
  exact compareValue_congr (hcons l l') (hcons l' l)

end Lists

/-- The numbers that `strcmp` compares: the characters, and the NUL behind them. -/
def stringKey (str : List Byte) : List ℤ := str.map BitVec.toInt ++ [0]

theorem stringKey_injective : Function.Injective stringKey := by
  intro s t h
  have hchars := List.append_cancel_right h
  exact List.map_injective_iff.mpr (fun _ _ => BitVec.eq_of_toInt_eq) hchars

variable {m m' : Memory} {p s t : List Byte}

/-- The character behind a part of a string, or the NUL. -/
theorem IsCString.apply_length (h : IsCString m (p ++ s)) : m p.length = s.headD 0 := by
  cases s with
  | nil =>
    have hnul := h.nul
    rwa [List.append_nil] at hnul
  | cons c s =>
    rw [h.apply (by simp), List.getElem_append_right le_rfl]
    simp

theorem stringKey_eq_cons (s : List Byte) : ∃ l, stringKey s = (s.headD 0).toInt :: l := by
  cases s with
  | nil => exact ⟨[], rfl⟩
  | cons c s => exact ⟨stringKey s, rfl⟩

/-- A rest of a string that starts with NUL is at its end. -/
theorem IsCString.eq_nil_of_headD (h : IsCString m (p ++ s)) (hnul : s.headD 0 = 0) : s = [] := by
  cases s with
  | nil => rfl
  | cons c s => exact absurd hnul (h.ne_zero c (by simp))

/-- **The loop of `strcmp`** behind a common part `p` of both strings. -/
theorem strcmpLoopT_spec {fuel : ℕ} (hs : IsCString m (p ++ s)) (ht : IsCString m' (p ++ t))
    (hfuel : s.length < fuel) (log : List ℕ) :
    ∃ reads, strcmpLoopT m m' fuel p.length log =
        .ok (compareValue (stringKey s) (stringKey t), reads ++ log) ∧
      ∀ i ∈ reads, i ≤ (p ++ s).length ∧ i ≤ (p ++ t).length := by
  induction fuel generalizing p s t log with
  | zero => exact absurd hfuel (Nat.not_lt_zero _)
  | succ fuel ih =>
    obtain ⟨l, hl⟩ := stringKey_eq_cons s
    obtain ⟨l', hl'⟩ := stringKey_eq_cons t
    -- One place is read, and it is not behind the end of either string.
    have hread : ∀ i ∈ [p.length], i ≤ (p ++ s).length ∧ i ≤ (p ++ t).length := by
      intro i hi
      obtain rfl := List.mem_singleton.mp hi
      simp
    rw [strcmpLoopT, hs.apply_length, ht.apply_length]
    split_ifs with hlt hgt hnul
    · exact ⟨[p.length], by rw [hl, hl', compareValue_cons_of_lt hlt]; rfl, hread⟩
    · exact ⟨[p.length], by rw [hl, hl', compareValue_cons_of_gt hgt]; rfl, hread⟩
    · have hsame : s.headD 0 = t.headD 0 :=
        BitVec.eq_of_toInt_eq (le_antisymm (not_lt.mp hgt) (not_lt.mp hlt))
      obtain rfl := hs.eq_nil_of_headD hnul
      obtain rfl := ht.eq_nil_of_headD (hsame ▸ hnul)
      exact ⟨[p.length], by rw [compareValue_eq_zero_iff.mpr rfl]; rfl, hread⟩
    · have hsame : s.headD 0 = t.headD 0 :=
        BitVec.eq_of_toInt_eq (le_antisymm (not_lt.mp hgt) (not_lt.mp hlt))
      obtain _ | ⟨c, s⟩ := s
      · exact absurd rfl hnul
      obtain _ | ⟨d, t⟩ := t
      · exact absurd hsame hnul
      obtain rfl : c = d := hsame
      have hp : (p ++ [c]).length = p.length + 1 := by simp
      obtain ⟨reads, hloop, hreads⟩ := ih (p := p ++ [c]) (s := s) (t := t) (by simpa using hs)
        (by simpa using ht) (Nat.lt_of_succ_lt_succ hfuel) (p.length :: log)
      refine ⟨reads ++ [p.length], ?_, fun i hi => ?_⟩
      · rw [← hp, hloop, List.append_assoc]
        exact congrArg (fun v => Except.ok (v, _)) (compareValue_cons_self c.toInt _ _).symm
      · rcases List.mem_append.mp hi with hi | hi
        · simpa using hreads i hi
        · exact hread i hi

/-- **What `strcmp` returns and reads**: the sign of the comparison of the numbers, and no byte past
the terminator of either string. -/
theorem strcmpT_spec (hs : IsCString m s) (ht : IsCString m' t) (hlen : s.length < 2 ^ 32) :
    ∃ reads, strcmpT m m' = .ok (compareValue (stringKey s) (stringKey t), reads) ∧
      ∀ i ∈ reads, i ≤ s.length ∧ i ≤ t.length := by
  have hs' : IsCString m ([] ++ s) := hs
  have ht' : IsCString m' ([] ++ t) := ht
  obtain ⟨reads, hloop, hreads⟩ := strcmpLoopT_spec hs' ht' hlen []
  rw [List.append_nil] at hloop
  exact ⟨reads, hloop, hreads⟩

theorem strcmp_eq (hs : IsCString m s) (ht : IsCString m' t) (hlen : s.length < 2 ^ 32) :
    strcmp m m' = .ok (compareValue (stringKey s) (stringKey t)) := by
  obtain ⟨reads, hrun, -⟩ := strcmpT_spec hs ht hlen
  rw [← strcmpT_map_fst, hrun]
  rfl

/-- **`strcmp` decides equality of strings.** -/
theorem strcmp_eq_zero_iff (hs : IsCString m s) (ht : IsCString m' t) (hlen : s.length < 2 ^ 32) :
    ∃ r, strcmp m m' = .ok r ∧ (r = 0 ↔ s = t) := by
  refine ⟨_, strcmp_eq hs ht hlen, ?_⟩
  rw [compareValue_eq_zero_iff, stringKey_injective.eq_iff]

/-- **`strcmp` decides equality and orders strings.** For all strings it terminates and reads no
byte past the terminator of either; it returns 0 exactly for equal strings, the opposite with its
arguments exchanged, and "less than" is transitive. -/
theorem strcmp_orders (a b c : CString) : ∃ ab bc ac : ℤ, ∃ reads,
    strcmpT a.mem b.mem = .ok (ab, reads) ∧
      (∀ i ∈ reads, i ≤ a.chars.length ∧ i ≤ b.chars.length) ∧
      strcmp a.mem b.mem = .ok ab ∧ strcmp b.mem c.mem = .ok bc ∧ strcmp a.mem c.mem = .ok ac ∧
      (ab = 0 ↔ a.chars = b.chars) ∧ strcmp b.mem a.mem = .ok (-ab) ∧
      (ab < 0 → bc < 0 → ac < 0) := by
  obtain ⟨reads, hrun, hreads⟩ := strcmpT_spec a.isCString b.isCString a.length_lt
  have hab := strcmp_eq a.isCString b.isCString a.length_lt
  have hba := strcmp_eq b.isCString a.isCString b.length_lt
  have hbc := strcmp_eq b.isCString c.isCString b.length_lt
  have hac := strcmp_eq a.isCString c.isCString a.length_lt
  refine ⟨_, _, _, reads, hrun, hreads, hab, hbc, hac, ?_, ?_, ?_⟩
  · rw [compareValue_eq_zero_iff, stringKey_injective.eq_iff]
  · rw [hba, compareValue_swap]
  · rw [compareValue_neg_iff, compareValue_neg_iff, compareValue_neg_iff]
    exact lt_trans

end Studix
