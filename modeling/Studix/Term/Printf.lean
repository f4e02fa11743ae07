import Studix.Lib.CString
import Studix.Term.Decimal

/-!
# Formatted output

`term_printf` of `src/term/term_printf.c`. The loop advances its index in two places, the step of
the loop and the fetch of the character behind a `%`. Where the format ends in a `%` with no
character of its own, the second one fetches the terminating NUL and the first goes on behind it.

The variadic arguments are the words on the stack behind the format. The functions that print
arguments in other bases are here as well; like those of `Studix.Term.Decimal` they are given by the
characters that they pass to `term_putchar`.

## Main definitions

* `termPrintSize`, `termPrintHex`, `printDirective`.
* `fetch`: what an iteration reads of the format.
* `printfStep`, `termPrintf`: an iteration, and the loop.
* `ReadsFormat`: an index of the format that a run reads.
* `percentsPaired`: every `%` that begins a directive has a character behind it.

## Main results

* `readsWithinFormat_iff`: the formats that are not read behind their NUL.
-/

namespace Studix.Term

/-! ### Arguments -/

/-- The loop of `term_print_size`: the number of times the size is divided by 1024. -/
def sizePrefix (size : ℕ) : ℕ → ℕ → Except Stop ℕ
  | 0, _ => .error .unfinished
  | fuel + 1, i =>
    if 32 ≤ 10 * i then .error .undefinedShift
    else if 1024 < size >>> (10 * i) then sizePrefix size fuel (i + 1)
    else .ok i

/-- The string `KMGTP`. -/
def prefixes : List Byte := [75, 77, 71, 84, 80]

/-- `term_print_size`. -/
def termPrintSize (size : ℕ) : Except Stop (List Byte) := do
  let i ← sizePrefix size 5 0
  let cs ← termPrintDecu (size >>> (10 * i))
  .ok (cs ++ (if 0 < i then [prefixes.getD (i - 1) 0, 105] else []) ++ [66])

/-- The first loop of `term_print_hex`, from `shift = 4 * n` down: the highest digit that is not
zero, or the lowest. -/
def leadingHexDigit (x : ℕ) : ℕ → ℕ
  | 0 => 0
  | n + 1 => if x >>> (4 * (n + 1)) &&& 15 = 0 then leadingHexDigit x n else n + 1

/-- The character of a hexadecimal digit; `CASE_DIFF` is 32. -/
def hexChar (upper : Bool) (digit : ℕ) : Byte :=
  if digit < 10 then BitVec.ofNat 8 (48 + digit)
  else BitVec.ofNat 8 (65 + (digit - 10) + if upper then 0 else 32)

/-- The last loop of `term_print_hex`, from `shift = 4 * n` down. -/
def hexDigits (x : ℕ) (upper : Bool) : ℕ → List Byte
  | 0 => [hexChar upper (x &&& 15)]
  | n + 1 => hexChar upper (x >>> (4 * (n + 1)) &&& 15) :: hexDigits x upper n

/-- `term_print_hex`; `shift` starts at 28. -/
def termPrintHex (x : ℕ) (upper : Bool) : List Byte := hexDigits x upper (leadingHexDigit x 7)

/-- `term_putsn` of the string at an address. -/
def putsnChars (mem : Memory) : ℕ → ℕ → Except Stop (List Byte)
  | 0, _ => .error .unfinished
  | fuel + 1, a =>
    if mem a = 0 then .ok []
    else do
      let cs ← putsnChars mem fuel (wadd a 1)
      .ok (mem a :: cs)

/-- The `switch` of `term_printf` on `fmt_type`, with the argument that is next: the characters
printed, and the number of arguments consumed. -/
def printDirective (mem : Memory) (fmtType : Byte) (arg : BitVec 32) :
    Except Stop (List Byte × ℕ) := do
  if fmtType = 37 then .ok ([37], 0)
  else if fmtType = 100 then .ok (← termPrintDec arg, 1)
  else if fmtType = 117 then .ok (← termPrintDecu arg.toNat, 1)
  else if fmtType = 108 then .ok (← termPrintDecu arg.toNat, 1)
  else if fmtType = 120 then .ok (termPrintHex arg.toNat false, 1)
  else if fmtType = 88 then .ok (termPrintHex arg.toNat true, 1)
  else if fmtType = 98 then .ok (← termPrintSize arg.toNat, 1)
  else if fmtType = 112 then .ok ([48, 120] ++ termPrintHex arg.toNat false, 1)
  else if fmtType = 115 then .ok (← putsnChars mem (2 ^ 32) arg.toNat, 1)
  else if fmtType = 99 then .ok ([arg.setWidth 8], 1)
  else .ok ([], 0)

/-! ### The loop -/

/-- What an iteration of `term_printf` finds in the format. -/
inductive Fetched
  | nul
  | char (c : Byte)
  | directive (fmtType : Byte)
  deriving DecidableEq, Repr

/-- The reads of an iteration that begins at index `i`, the test of the loop and `fmt[++i]` behind a
`%`: what they find, the index after them, and the indices read. -/
def fetch (fmt : Memory) (i : ℕ) : Fetched × ℕ × List ℕ :=
  if fmt i = 0 then (.nul, i, [i])
  else if fmt i ≠ 37 then (.char (fmt i), i, [i])
  else (.directive (fmt (i + 1)), i + 1, [i, i + 1])

/-- The index of `term_printf`, the arguments consumed and the characters printed. -/
structure PrintfState where
  i : ℕ
  arg : ℕ
  out : List Byte

/-- The state in which the loop begins. -/
def PrintfState.init : PrintfState := ⟨0, 0, []⟩

/-- An iteration of the loop; none at the end. -/
def printfStep (fmt mem : Memory) (args : ℕ → BitVec 32) (s : PrintfState) :
    Except Stop (Option PrintfState) :=
  match fetch fmt s.i with
  | (.nul, _, _) => .ok none
  | (.char c, i, _) => .ok (some ⟨i + 1, s.arg, s.out ++ [c]⟩)
  | (.directive fmtType, i, _) => do
    let (cs, consumed) ← printDirective mem fmtType (args s.arg)
    .ok (some ⟨i + 1, s.arg + consumed, s.out ++ cs⟩)

/-- The loop of `term_printf`. -/
def printfLoop (fmt mem : Memory) (args : ℕ → BitVec 32) :
    ℕ → PrintfState → Except Stop (List Byte)
  | 0, _ => .error .unfinished
  | fuel + 1, s => do
    match ← printfStep fmt mem args s with
    | none => .ok s.out
    | some s => printfLoop fmt mem args fuel s

/-- `term_printf(fmt, …)`. -/
def termPrintf (fmt mem : Memory) (args : ℕ → BitVec 32) : Except Stop (List Byte) :=
  printfLoop fmt mem args (2 ^ 32) .init

/-- The states in which iterations of a call begin. -/
def PrintfReaches (fmt mem : Memory) (args : ℕ → BitVec 32) (s : PrintfState) : Prop :=
  Steps (fun s (_ : Unit) s' => printfStep fmt mem args s = .ok (some s')) (fun _ _ => True) .init s

/-- A call reads `fmt[j]`. -/
def ReadsFormat (fmt mem : Memory) (args : ℕ → BitVec 32) (j : ℕ) : Prop :=
  ∃ s, PrintfReaches fmt mem args s ∧ j ∈ (fetch fmt s.i).2.2

/-- Every `%` that begins a directive has a character behind it. -/
def percentsPaired : List Byte → Bool
  | [] => true
  | [c] => c ≠ 37
  | c :: d :: str => if c = 37 then percentsPaired str else percentsPaired (d :: str)

section

variable {fmt mem : Memory} {args : ℕ → BitVec 32} {str : List Byte} {s s' : PrintfState} {i j : ℕ}

/-! ### What an iteration reads -/

/-- The index at which an iteration ends. -/
theorem i_of_printfStep (h : printfStep fmt mem args s = .ok (some s')) :
    fmt s.i ≠ 0 ∧ s'.i = if fmt s.i = 37 then s.i + 2 else s.i + 1 := by
  rw [printfStep, fetch] at h
  split_ifs at h with hnul hchar
  · cases h
  · refine ⟨hnul, ?_⟩
    rw [if_neg hchar, ← Option.some.inj (Except.ok.inj h)]
  · refine ⟨hnul, ?_⟩
    obtain ⟨⟨cs, n⟩, -, h⟩ := except_bind_eq_ok.mp h
    rw [if_pos (not_not.mp hchar), ← Option.some.inj (Except.ok.inj h)]

theorem mem_reads_fetch :
    j ∈ (fetch fmt i).2.2 ↔ j = i ∨ fmt i = 37 ∧ j = i + 1 := by
  rw [fetch]
  split_ifs with hnul hchar
  · simp [hnul]
  · rw [List.mem_singleton]
    exact ⟨.inl, fun h => h.resolve_right fun h => hchar h.1⟩
  · simp [not_not.mp hchar]

/-- Whether directives are paired, from the character at an index on: behind a `%` there is a
character, and the next directive may begin behind it. -/
theorem percentsPaired_drop (hstr : IsCString fmt str) (hi : i < str.length) :
    percentsPaired (str.drop i) = true ↔
      if fmt i = 37 then i + 2 ≤ str.length ∧ percentsPaired (str.drop (i + 2)) = true
      else percentsPaired (str.drop (i + 1)) = true := by
  rw [hstr.apply hi, List.drop_eq_getElem_cons hi]
  by_cases hlast : i + 1 < str.length
  · rw [List.drop_eq_getElem_cons hlast, percentsPaired, ← List.drop_eq_getElem_cons hlast]
    split_ifs with hpercent
    · exact ⟨fun h => ⟨hlast, h⟩, And.right⟩
    · rfl
  · rw [List.drop_eq_nil_of_le (not_lt.mp hlast)]
    split_ifs with hpercent
    · exact ⟨fun h => absurd hpercent (of_decide_eq_true h), fun h => absurd h.1 hlast⟩
    · exact ⟨fun _ => rfl, fun _ => decide_eq_true hpercent⟩

/-! ### Paired formats -/

/-- The index is in the format, in front of paired directives. -/
structure InFormat (str : List Byte) (i : ℕ) : Prop where
  le_length : i ≤ str.length
  paired : percentsPaired (str.drop i) = true

/-- An iteration stays in a paired format. -/
theorem InFormat.step (hstr : IsCString fmt str) (h : InFormat str s.i)
    (hstep : printfStep fmt mem args s = .ok (some s')) : InFormat str s'.i := by
  obtain ⟨hnul, hi⟩ := i_of_printfStep hstep
  have hlt : s.i < str.length := by
    refine lt_of_le_of_ne h.le_length fun heq => hnul ?_
    rw [heq, hstr.nul]
  have hpaired := (percentsPaired_drop hstr hlt).mp h.paired
  rw [hi]
  split_ifs at hpaired ⊢ with hpercent
  · exact ⟨hpaired.1, hpaired.2⟩
  · exact ⟨hlt, hpaired⟩

/-- What an iteration in a paired format reads. -/
theorem InFormat.reads_le (hstr : IsCString fmt str) (h : InFormat str i)
    (hj : j ∈ (fetch fmt i).2.2) : j ≤ str.length := by
  rcases mem_reads_fetch.mp hj with rfl | ⟨hpercent, rfl⟩
  · exact h.le_length
  · have hlt : i < str.length := by
      refine lt_of_le_of_ne h.le_length fun heq => ?_
      rw [heq, hstr.nul] at hpercent
      cases hpercent
    exact hlt

/-- A call with a paired format stays in it. -/
theorem inFormat_of_printfReaches (hstr : IsCString fmt str) (hpaired : percentsPaired str = true)
    (h : PrintfReaches fmt mem args s) : InFormat str s.i :=
  h.invariant (fun s => InFormat str s.i) ⟨Nat.zero_le _, by rwa [PrintfState.init, List.drop_zero]⟩
    fun _ _ _ hin _ hstep => hin.step hstr hstep

/-! ### Formats that end in a lone `%` -/

/-- A branch that returns both ways returns. -/
theorem exists_ok_ite {α : Type} {c : Prop} [Decidable c] {x y : Except Stop α}
    (hx : ∃ a, x = .ok a) (hy : ∃ a, y = .ok a) : ∃ a, (if c then x else y) = .ok a := by
  split_ifs
  · exact hx
  · exact hy

/-- Arguments that are zero are printed, a string at a NUL included. -/
theorem exists_printDirective_zero (fmtType : Byte) :
    ∃ res, printDirective (fun _ => 0) fmtType 0 = .ok res := by
  have hdec : termPrintDec 0 = .ok [48] := by decide +kernel
  have hdecu : termPrintDecu (0 : BitVec 32).toNat = .ok [48] := by decide +kernel
  have hsize : termPrintSize (0 : BitVec 32).toNat = .ok [48, 66] := by decide +kernel
  have hputsn : putsnChars (fun _ => 0) (2 ^ 32) (0 : BitVec 32).toNat = .ok [] := rfl
  rw [printDirective, hdec, hdecu, hsize, hputsn]
  repeat
    refine exists_ok_ite ⟨_, rfl⟩ ?_
  exact ⟨_, rfl⟩

/-- With such arguments, an iteration goes on. -/
theorem exists_printfStep_zero (hne : fmt s.i ≠ 0) :
    ∃ s', printfStep fmt (fun _ => 0) (fun _ => 0) s = .ok (some s') := by
  rw [printfStep, fetch, if_neg hne]
  by_cases hchar : fmt s.i ≠ 37
  · rw [if_pos hchar]
    exact ⟨_, rfl⟩
  · obtain ⟨⟨cs, n⟩, hres⟩ := exists_printDirective_zero (fmt (s.i + 1))
    rw [if_neg hchar]
    exact ⟨_, except_bind_of_eq_ok _ hres⟩

/-- From an index in front of directives that are not paired, a call gets behind the NUL. -/
theorem exists_behind_nul (hstr : IsCString fmt str) (hi : s.i ≤ str.length)
    (hpaired : percentsPaired (str.drop s.i) = false)
    (hreach : PrintfReaches fmt (fun _ => 0) (fun _ => 0) s) :
    ∃ t, PrintfReaches fmt (fun _ => 0) (fun _ => 0) t ∧ t.i = str.length + 1 := by
  -- Induction on the rest of the format; an iteration goes over a character or a whole directive.
  induction hn : str.length - s.i using Nat.strong_induction_on generalizing s with
  | _ n ih =>
    subst hn
    have hlt : s.i < str.length := by
      refine lt_of_le_of_ne hi fun heq => ?_
      rw [List.drop_eq_nil_of_le heq.ge] at hpaired
      cases hpaired
    obtain ⟨s', hstep⟩ := exists_printfStep_zero (s := s) (hstr.apply_ne_zero hlt)
    have hreach' := hreach.tail () trivial hstep
    obtain ⟨-, hi'⟩ := i_of_printfStep hstep
    have hnext := (percentsPaired_drop hstr hlt).not.mp (Bool.not_eq_true _ ▸ hpaired)
    split_ifs at hnext hi' with hpercent
    · by_cases hlast : s.i + 2 ≤ str.length
      · refine ih _ (by omega) (by omega) ?_ hreach' rfl
        rw [hi']
        exact Bool.eq_false_iff.mpr fun h => hnext ⟨hlast, h⟩
      · exact ⟨s', hreach', by omega⟩
    · refine ih _ (by omega) (by omega) ?_ hreach' rfl
      rw [hi']
      exact Bool.eq_false_iff.mpr hnext

/-- **The formats that are not read behind their NUL** are those in which every directive has a
character behind its `%`. -/
theorem readsWithinFormat_iff (hstr : IsCString fmt str) :
    (∀ mem args j, ReadsFormat fmt mem args j → j ≤ str.length) ↔ percentsPaired str = true := by
  constructor
  · intro h
    by_contra hpaired
    obtain ⟨t, hreach, ht⟩ := exists_behind_nul (s := .init) hstr (Nat.zero_le _)
      (by rwa [PrintfState.init, List.drop_zero, ← Bool.not_eq_true]) .refl
    have := h _ _ t.i ⟨t, hreach, mem_reads_fetch.mpr (.inl rfl)⟩
    omega
  · rintro hpaired mem args j ⟨s, hreach, hj⟩
    exact (inFormat_of_printfReaches hstr hpaired hreach).reads_le hstr hj

end

/-- The format `%d%%`, with a `%` at the end that is the character of a directive. -/
theorem readsWithinFormat_percent_d :
    IsCString (bufferOf [37, 100, 37, 37]) [37, 100, 37, 37] ∧
      ∀ mem args j, ReadsFormat (bufferOf [37, 100, 37, 37]) mem args j → j ≤ 4 :=
  have hstr := isCString_bufferOf [37, 100, 37, 37] (by decide)
  ⟨hstr, (readsWithinFormat_iff hstr).mpr (by decide)⟩

/-- The format that is a lone `%` is read behind its NUL. -/
theorem lone_percent_read_behind_nul :
    IsCString (bufferOf [37]) [37] ∧ ReadsFormat (bufferOf [37]) (fun _ => 0) (fun _ => 0) 2 := by
  have hstep : printfStep (bufferOf [37]) (fun _ => 0) (fun _ => 0) .init =
      .ok (some ⟨2, 0, []⟩) := rfl
  exact ⟨isCString_bufferOf [37] (by decide), ⟨2, 0, []⟩, Steps.refl.tail () trivial hstep,
    mem_reads_fetch.mpr (.inl rfl)⟩

end Studix.Term
