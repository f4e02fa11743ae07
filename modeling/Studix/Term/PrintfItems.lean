import Studix.Term.Printf

/-!
# What `term_printf` prints

A format is the writing of a sequence of items: characters, and directives for the arguments. The
loop of `term_printf` reads the items back from the format, takes each argument from the stack as it
comes to its directive, and prints the text of one item behind the other.

## Main definitions

* `Item`: a character of the format, or a directive with its argument.
* `Item.format`, `Item.words`, `Item.text`: how an item is written, the arguments it takes, and what
  is printed for it.
* `Item.printed`, `printedAll`: what the code prints for an item, and for a sequence of items.
* `Item.Formed`, `Item.FewDigits`: the string is in memory, and the number has at most nine digits.

## Main results

* `termPrintSize_spec`: a size is printed in the smallest unit that leaves it up to 1024.
* `printfLoop_items`: what is printed for a format is what is printed for its items.
* `termPrintf_items_iff`: it is the texts of the items exactly where no number has ten digits.
-/

namespace Studix.Term

/-! ### Sizes -/

/-- The unit in which a size is printed, as a power of 1024. -/
def sizeUnit (size : ℕ) : ℕ :=
  if size ≤ 1024 then 0
  else if size / 1024 ≤ 1024 then 1
  else if size / 1024 ^ 2 ≤ 1024 then 2
  else 3

/-- What is printed for a size. -/
def sizeText (size : ℕ) : List Byte :=
  decimalDigits (size / 1024 ^ sizeUnit size) ++
    (if 0 < sizeUnit size then [prefixes.getD (sizeUnit size - 1) 0, 105] else []) ++ [66]

/-- The loop of `term_print_size` ends at the unit. -/
theorem sizePrefix_eq {size : ℕ} (hsize : size < 2 ^ 32) :
    sizePrefix size 5 0 = .ok (sizeUnit size) := by
  have hshift : ∀ i, size >>> (10 * i) = size / 1024 ^ i := fun i => by
    rw [Nat.shiftRight_eq_div_pow, pow_mul]
    rfl
  have hlast : size / 1024 ^ 3 ≤ 1024 := by omega
  simp only [sizePrefix, hshift, sizeUnit, pow_zero, Nat.div_one, zero_add, pow_one, Nat.reduceAdd]
  split_ifs <;> first | rfl | omega

/-- The unit is the smallest that leaves the size up to 1024. -/
theorem sizeUnit_spec {size : ℕ} (hsize : size < 2 ^ 32) : sizeUnit size ≤ 3 ∧
    size / 1024 ^ sizeUnit size ≤ 1024 ∧ ∀ u < sizeUnit size, 1024 < size / 1024 ^ u := by
  rw [sizeUnit]
  split_ifs with h₀ h₁ h₂
  · exact ⟨by decide, by simpa using h₀, by simp⟩
  · refine ⟨by decide, by simpa using h₁, fun u hu => ?_⟩
    interval_cases u
    simpa using h₀
  · refine ⟨by decide, h₂, fun u hu => ?_⟩
    interval_cases u
    · simpa using h₀
    · simpa using h₁
  · refine ⟨le_rfl, by omega, fun u hu => ?_⟩
    interval_cases u
    · simpa using h₀
    · simpa using h₁
    · simpa using h₂

theorem termPrintSize_eq {size : ℕ} (hsize : size < 2 ^ 32) :
    termPrintSize size = .ok (sizeText size) := by
  have hshift : size >>> (10 * sizeUnit size) = size / 1024 ^ sizeUnit size := by
    rw [Nat.shiftRight_eq_div_pow, pow_mul]
    rfl
  have hsmall : size / 1024 ^ sizeUnit size < 10 ^ 9 :=
    (sizeUnit_spec hsize).2.1.trans_lt (by decide)
  rw [termPrintSize, sizePrefix_eq hsize, except_ok_bind, hshift, termPrintDecu_of_lt hsmall,
    except_ok_bind, sizeText]

/-! ### Items -/

/-- A character of a format, or a directive with its argument. -/
inductive Item
  /-- A character that is not a `%`. -/
  | char (c : Byte)
  /-- `%%`. -/
  | percent
  /-- `%d`. -/
  | dec (x : BitVec 32)
  /-- `%u` or `%l`. -/
  | decu (long : Bool) (x : BitVec 32)
  /-- `%x` or `%X`. -/
  | hex (upper : Bool) (x : BitVec 32)
  /-- `%b`. -/
  | size (x : BitVec 32)
  /-- `%p`. -/
  | pointer (x : BitVec 32)
  /-- `%s`, with the string at the address. -/
  | string (a : BitVec 32) (str : List Byte)
  /-- `%c`. -/
  | character (x : BitVec 32)

namespace Item

/-- How an item is written in a format. -/
def format : Item → List Byte
  | char c => [c]
  | percent => [37, 37]
  | dec _ => [37, 100]
  | decu long _ => [37, if long then 108 else 117]
  | hex upper _ => [37, if upper then 88 else 120]
  | size _ => [37, 98]
  | pointer _ => [37, 112]
  | string _ _ => [37, 115]
  | character _ => [37, 99]

/-- The arguments of an item. -/
def words : Item → List (BitVec 32)
  | char _ | percent => []
  | dec x | decu _ x | hex _ x | size x | pointer x | character x => [x]
  | string a _ => [a]

/-- What is printed for an item. -/
def text : Item → List Byte
  | char c => [c]
  | percent => [37]
  | dec x => signedDigits x.toInt
  | decu _ x => decimalDigits x.toNat
  | hex upper x => termPrintHex x.toNat upper
  | size x => sizeText x.toNat
  | pointer x => [48, 120] ++ termPrintHex x.toNat false
  | string _ str => str
  | character x => [x.setWidth 8]

/-- What the code prints for an item. -/
def printed : Item → Except Stop (List Byte)
  | char c => .ok [c]
  | percent => .ok [37]
  | dec x => termPrintDec x
  | decu _ x => termPrintDecu x.toNat
  | hex upper x => .ok (termPrintHex x.toNat upper)
  | size x => termPrintSize x.toNat
  | pointer x => .ok ([48, 120] ++ termPrintHex x.toNat false)
  | string _ str => .ok str
  | character x => .ok [x.setWidth 8]

/-- A character is not a `%`, and a string is in memory. -/
def Formed (mem : Memory) : Item → Prop
  | char c => c ≠ 37
  | string a str => IsCString (fun i => mem (a.toNat + i)) str ∧ a.toNat + str.length < 2 ^ 32
  | _ => True

/-- A number that is printed in decimal has at most nine digits. -/
def FewDigits : Item → Prop
  | dec x => x.toInt.natAbs < 10 ^ 9
  | decu _ x => x.toNat < 10 ^ 9
  | _ => True

instance : (item : Item) → Decidable item.FewDigits
  | dec x => inferInstanceAs (Decidable (x.toInt.natAbs < 10 ^ 9))
  | decu _ x => inferInstanceAs (Decidable (x.toNat < 10 ^ 9))
  | char _ | percent | hex _ _ | size _ | pointer _ | string _ _ | character _ =>
    inferInstanceAs (Decidable True)

end Item

/-- What the code prints for a sequence of items. -/
def printedAll : List Item → Except Stop (List Byte)
  | [] => .ok []
  | item :: items => do
    let cs ← item.printed
    let rest ← printedAll items
    .ok (cs ++ rest)

section

variable {fmt mem : Memory} {args : ℕ → BitVec 32} {str cs : List Byte} {s : PrintfState}
  {item : Item} {items : List Item} {fuel : ℕ}

theorem printedAll_append (items items' : List Item) : printedAll (items ++ items') = (do
    let cs ← printedAll items
    let cs' ← printedAll items'
    .ok (cs ++ cs')) := by
  induction items with
  | nil =>
    rw [List.nil_append, printedAll, except_ok_bind]
    rcases printedAll items' with e | cs <;> rfl
  | cons item items ih =>
    rw [List.cons_append, printedAll, printedAll, ih]
    rcases item.printed with e | cs
    · rfl
    · rcases printedAll items with e | cs
      · rfl
      · rcases printedAll items' with e | cs
        · rfl
        · simp only [except_ok_bind, List.append_assoc]

/-! ### The text of an item -/

/-- An item is printed as its text if its number has at most nine digits. -/
theorem Item.printed_eq_text (hfew : item.FewDigits) : item.printed = .ok item.text := by
  cases item with
  | dec x => exact termPrintDec_eq_ok_iff.mpr ⟨_, termPrintDecu_of_lt hfew, rfl⟩
  | decu long x => exact termPrintDecu_of_lt hfew
  | size x => exact termPrintSize_eq x.isLt
  | _ => rfl

/-- A number with more digits is printed with fewer characters than it has. -/
theorem length_lt_of_termPrintDecu {x : ℕ} (hx : ¬x < 10 ^ 9) (h : termPrintDecu x = .ok cs) :
    cs.length < (decimalDigits x).length := by
  have hlong : ¬(decimalDigits x).length ≤ 9 := (length_decimalDigits_le_iff (by decide)).not.mpr hx
  have hshort := length_le_of_termPrintDecu h
  omega

theorem length_lt_of_termPrintDec {x : BitVec 32} (hx : ¬x.toInt.natAbs < 10 ^ 9)
    (h : termPrintDec x = .ok cs) : cs.length < (signedDigits x.toInt).length := by
  obtain ⟨digits, hdigits, rfl⟩ := termPrintDec_eq_ok_iff.mp h
  have hlength := length_lt_of_termPrintDecu hx hdigits
  rw [signedDigits, List.length_append, List.length_append]
  omega

/-- No item is printed with more characters than its text has, nor with as many if its number has
more than nine digits. -/
theorem Item.length_le_of_printed (h : item.printed = .ok cs) :
    cs.length ≤ item.text.length ∧ (cs.length = item.text.length → item.FewDigits) := by
  by_cases hfew : item.FewDigits
  · obtain rfl := Except.ok.inj ((printed_eq_text hfew).symm.trans h)
    exact ⟨le_rfl, fun _ => hfew⟩
  · have hlt : cs.length < item.text.length := by
      cases item with
      | dec x => exact length_lt_of_termPrintDec hfew h
      | decu long x => exact length_lt_of_termPrintDecu hfew h
      | _ => exact absurd trivial hfew
    exact ⟨hlt.le, fun heq => absurd heq hlt.ne⟩

/-- Items without numbers of ten digits are printed as their texts. -/
theorem printedAll_eq_text (hfew : ∀ item ∈ items, item.FewDigits) :
    printedAll items = .ok (items.flatMap Item.text) := by
  induction items with
  | nil => rfl
  | cons item items ih =>
    rw [List.forall_mem_cons] at hfew
    rw [printedAll, Item.printed_eq_text hfew.1, except_ok_bind, ih hfew.2]
    rfl

/-- What is printed is as long as the texts only if there is no number of ten digits. -/
theorem length_le_of_printedAll (h : printedAll items = .ok cs) :
    cs.length ≤ (items.flatMap Item.text).length ∧
      (cs.length = (items.flatMap Item.text).length → ∀ item ∈ items, item.FewDigits) := by
  induction items generalizing cs with
  | nil =>
    obtain rfl := Except.ok.inj h
    simp
  | cons item items ih =>
    obtain ⟨first, hfirst, h⟩ := except_bind_eq_ok.mp h
    obtain ⟨rest, hrest, h⟩ := except_bind_eq_ok.mp h
    obtain rfl := Except.ok.inj h
    obtain ⟨hle, hfew⟩ := Item.length_le_of_printed hfirst
    obtain ⟨hle', hfew'⟩ := ih hrest
    rw [List.flatMap_cons, List.length_append, List.length_append, List.forall_mem_cons]
    exact ⟨by omega, fun heq => ⟨hfew (by omega), hfew' (by omega)⟩⟩

/-- **Items are printed as their texts** exactly where no number has ten digits. -/
theorem printedAll_eq_text_iff :
    printedAll items = .ok (items.flatMap Item.text) ↔ ∀ item ∈ items, item.FewDigits :=
  ⟨fun h => (length_le_of_printedAll h).2 rfl, printedAll_eq_text⟩

/-! ### The loop -/

/-- The string at an address is printed. -/
theorem putsnChars_eq {a : ℕ} (hstr : IsCString (fun i => mem (a + i)) str)
    (ha : a + str.length < 2 ^ 32) (hfuel : str.length < fuel) :
    putsnChars mem fuel a = .ok str := by
  induction str generalizing a fuel with
  | nil =>
    obtain ⟨k, rfl⟩ := Nat.exists_eq_add_of_lt hfuel
    have hnul : mem a = 0 := hstr.nul
    rw [putsnChars, if_pos hnul]
  | cons c str ih =>
    obtain ⟨k, rfl⟩ := Nat.exists_eq_add_of_lt hfuel
    rw [List.length_cons] at ha hfuel
    have hhead : mem a = c := hstr.apply (Nat.succ_pos _)
    have hne : mem a ≠ 0 := hstr.apply_ne_zero (Nat.succ_pos _)
    have hrest : IsCString (fun i => mem (a + 1 + i)) str := by
      have hdrop := IsCString.drop (s := [c]) (t := str) hstr
      simpa [Nat.add_assoc] using hdrop
    rw [putsnChars, if_neg hne, wadd_eq (by omega), ih hrest (by omega) (by simp; omega),
      except_ok_bind, hhead]

theorem printfStep_char {c : Byte} (hc : fmt s.i = c) (hnul : c ≠ 0) (hpercent : c ≠ 37) :
    printfStep fmt mem args s = .ok (some ⟨s.i + 1, s.arg, s.out ++ [c]⟩) := by
  rw [printfStep, fetch, hc, if_neg hnul, if_pos hpercent]

theorem printfStep_directive {d : Byte} (hpercent : fmt s.i = 37) (hd : fmt (s.i + 1) = d) :
    printfStep fmt mem args s = (printDirective mem d (args s.arg)).map fun printed =>
      some ⟨s.i + 2, s.arg + printed.2, s.out ++ printed.1⟩ := by
  rw [printfStep, fetch, hpercent, if_neg (by decide), if_neg (by decide), hd]
  dsimp only
  cases printDirective mem d (args s.arg) <;> rfl

/-- **One item** is printed by one iteration. -/
theorem printfStep_item (hformed : item.Formed mem) (hnul : ∀ c ∈ item.format, c ≠ 0)
    (hfmt : ∀ j (h : j < item.format.length), fmt (s.i + j) = item.format[j])
    (hargs : ∀ j (h : j < item.words.length), args (s.arg + j) = item.words[j]) :
    printfStep fmt mem args s = (item.printed).map fun cs =>
      some ⟨s.i + item.format.length, s.arg + item.words.length, s.out ++ cs⟩ := by
  have hdirective : ∀ d x, item.format = [37, d] → item.words = [x] →
      printDirective mem d x = (item.printed).map (·, 1) →
      printfStep fmt mem args s = (item.printed).map fun cs =>
        some ⟨s.i + item.format.length, s.arg + item.words.length, s.out ++ cs⟩ := by
    intro d x hformat hwords hprint
    simp only [hformat, hwords] at hfmt hargs
    have hd : fmt (s.i + 1) = d := hfmt 1 (Nat.lt_succ_self 1)
    have harg : args s.arg = x := hargs 0 (Nat.succ_pos _)
    rw [printfStep_directive (hfmt 0 (Nat.succ_pos _)) hd, harg, hprint, hformat, hwords]
    cases item.printed <;> rfl
  have hmap : ∀ y : Except Stop (List Byte), (y >>= fun cs => .ok (cs, 1)) = y.map (·, 1) := by
    rintro (e | cs) <;> rfl
  cases item with
  | char c =>
    exact printfStep_char (hfmt 0 (Nat.succ_pos _)) (hnul c (List.mem_singleton_self c)) hformed
  | percent => exact printfStep_directive (hfmt 0 (Nat.succ_pos _)) (hfmt 1 (by decide))
  | dec x => exact hdirective 100 x rfl rfl (hmap _)
  | decu long x => cases long <;> exact hdirective _ x rfl rfl (hmap _)
  | hex upper x => cases upper <;> exact hdirective _ x rfl rfl rfl
  | size x => exact hdirective 98 x rfl rfl (hmap _)
  | pointer x => exact hdirective 112 x rfl rfl rfl
  | string a str =>
    refine hdirective 115 a rfl rfl ?_
    have hlength : str.length < 2 ^ 32 := by
      have := hformed.2
      omega
    change (putsnChars mem (2 ^ 32) a.toNat >>= fun cs => .ok (cs, 1)) = _
    rw [putsnChars_eq hformed.1 hformed.2 hlength]
    rfl
  | character x => exact hdirective 99 x rfl rfl rfl

/-- **The loop** prints the items from its index on. -/
theorem printfLoop_items (hformed : ∀ item ∈ items, item.Formed mem)
    (hfmt : IsCString (fun j => fmt (s.i + j)) (items.flatMap Item.format))
    (hargs : ∀ j (h : j < (items.flatMap Item.words).length),
      args (s.arg + j) = (items.flatMap Item.words)[j]) (hfuel : items.length < fuel) :
    printfLoop fmt mem args fuel s = (printedAll items).map (s.out ++ ·) := by
  induction items generalizing s fuel with
  | nil =>
    obtain ⟨k, rfl⟩ := Nat.exists_eq_add_of_lt hfuel
    have hnul : fmt s.i = 0 := hfmt.nul
    have hstep : printfStep fmt mem args s = .ok none := by rw [printfStep, fetch, if_pos hnul]
    rw [printfLoop, hstep, except_ok_bind]
    exact congrArg Except.ok (List.append_nil _).symm
  | cons item items ih =>
    obtain ⟨k, rfl⟩ := Nat.exists_eq_add_of_lt hfuel
    rw [List.flatMap_cons] at hfmt
    simp only [List.flatMap_cons] at hargs
    have hstep := printfStep_item (s := s) (hformed item (List.mem_cons_self ..))
      (fun c hc => hfmt.ne_zero c (List.mem_append_left _ hc)) (fun j hj => by
        have hbyte := hfmt.apply (i := j) (by rw [List.length_append]; omega)
        rwa [List.getElem_append_left hj] at hbyte) (fun j hj => by
        have hword := hargs j (by rw [List.length_append]; omega)
        rwa [List.getElem_append_left hj] at hword)
    rw [printfLoop, hstep, printedAll]
    cases item.printed with
    | error e => rfl
    | ok cs =>
      refine (ih (s := ⟨s.i + item.format.length, s.arg + item.words.length, s.out ++ cs⟩)
        (fun item h => hformed item (List.mem_cons_of_mem _ h)) ?_ (fun j hj => ?_) ?_).trans ?_
      · have hdrop := hfmt.drop
        simpa [Nat.add_assoc] using hdrop
      · have hword := hargs (item.words.length + j) (by rw [List.length_append]; omega)
        rw [List.getElem_append_right (Nat.le_add_right _ _)] at hword
        simpa [Nat.add_assoc] using hword
      · rw [List.length_cons]
        omega
      · rw [except_ok_bind]
        cases printedAll items with
        | error e => rfl
        | ok rest => exact congrArg Except.ok (List.append_assoc ..)

/-- Every item is written with a character at least. -/
theorem length_le_format (items : List Item) :
    items.length ≤ (items.flatMap Item.format).length := by
  induction items with
  | nil => rfl
  | cons item items ih =>
    have hitem : 1 ≤ item.format.length := by cases item <;> simp [Item.format]
    rw [List.flatMap_cons, List.length_append, List.length_cons]
    omega

/-- What `term_printf` prints for a format is what is printed for its items, if the arguments are
the words of the items. -/
theorem termPrintf_items (hfmt : IsCString fmt (items.flatMap Item.format))
    (hlength : (items.flatMap Item.format).length < 2 ^ 32)
    (hformed : ∀ item ∈ items, item.Formed mem)
    (hargs : ∀ j (h : j < (items.flatMap Item.words).length),
      args j = (items.flatMap Item.words)[j]) :
    termPrintf fmt mem args = printedAll items := by
  rw [termPrintf, printfLoop_items hformed (by simpa [PrintfState.init] using hfmt)
    (fun j hj => by simpa [PrintfState.init] using hargs j hj)
    ((length_le_format items).trans_lt hlength)]
  cases printedAll items <;> rfl

end

/-- **`term_printf` prints the texts of its items** exactly where no number that it prints in
decimal has more than nine digits. The format may have any characters and directives, the strings
are in memory, and the arguments are the words of the items. -/
theorem termPrintf_items_iff {fmt mem : Memory} {args : ℕ → BitVec 32} {items : List Item}
    (hfmt : IsCString fmt (items.flatMap Item.format))
    (hlength : (items.flatMap Item.format).length < 2 ^ 32)
    (hformed : ∀ item ∈ items, item.Formed mem)
    (hargs : ∀ j (h : j < (items.flatMap Item.words).length),
      args j = (items.flatMap Item.words)[j]) :
    termPrintf fmt mem args = .ok (items.flatMap Item.text) ↔ ∀ item ∈ items, item.FewDigits := by
  rw [termPrintf_items hfmt hlength hformed hargs, printedAll_eq_text_iff]

/-- The message `[%lms] ` before a step of the boot, after 1193 milliseconds. -/
def uptimeItems : List Item :=
  [.char 91, .decu true 1193, .char 109, .char 115, .char 93, .char 32]

/-- The message is printed as `[1193ms] `. -/
theorem termPrintf_items_iff_uptime :
    termPrintf (bufferOf [91, 37, 108, 109, 115, 93, 32]) (fun _ => 0) (fun _ => 1193) =
      .ok [91, 49, 49, 57, 51, 109, 115, 93, 32] := by
  have htext : uptimeItems.flatMap Item.text = [91, 49, 49, 57, 51, 109, 115, 93, 32] := by
    decide +kernel
  rw [← htext]
  exact (termPrintf_items_iff (isCString_bufferOf [91, 37, 108, 109, 115, 93, 32] (by decide))
    (by decide) (by simp [uptimeItems, Item.Formed]) (by simp [uptimeItems, Item.words])).mpr
      (by decide)

/-! ### Calls with string literals -/

/-- The characters of a string literal. -/
def ascii (s : String) : List Byte := s.toList.map fun c => BitVec.ofNat 8 c.toNat

/-- The arguments on the stack. -/
def onStack (words : List (BitVec 32)) (i : ℕ) : BitVec 32 := words.getD i 0

/-- The items of a text without directives. -/
def chars (s : String) : List Item := (ascii s).map .char

/-- An item that is printed as its text. -/
def Item.Printable (mem : Memory) (item : Item) : Prop := item.Formed mem ∧ item.FewDigits

section

variable {mem : Memory} {items l₁ l₂ : List Item} {item : Item}

@[simp] theorem flatMap_format_chars (s : String) : (chars s).flatMap Item.format = ascii s := by
  rw [chars, List.flatMap_map]
  exact List.flatMap_singleton' _

@[simp] theorem flatMap_text_chars (s : String) : (chars s).flatMap Item.text = ascii s := by
  rw [chars, List.flatMap_map]
  exact List.flatMap_singleton' _

@[simp] theorem flatMap_words_chars (s : String) : (chars s).flatMap Item.words = [] := by
  rw [chars, List.flatMap_map]
  exact List.flatMap_eq_nil_iff.mpr fun _ _ => rfl

theorem printable_chars {s : String} (h : 37 ∉ ascii s) : ∀ item ∈ chars s, item.Printable mem := by
  intro item hitem
  obtain ⟨c, hc, rfl⟩ := List.mem_map.mp hitem
  refine ⟨?_, trivial⟩
  rintro rfl
  exact h hc

/-- A format of texts and directives can be printed when the directives can. -/
theorem printable_append (h₁ : ∀ item ∈ l₁, item.Printable mem)
    (h₂ : ∀ item ∈ l₂, item.Printable mem) : ∀ item ∈ l₁ ++ l₂, item.Printable mem := by
  intro item hitem
  rcases List.mem_append.mp hitem with h | h
  · exact h₁ item h
  · exact h₂ item h

theorem printable_singleton (h : item.Printable mem) : ∀ i ∈ [item], i.Printable mem := by
  intro i hi
  rwa [List.mem_singleton.mp hi]

/-- A call of `term_printf` with a string literal. -/
theorem termPrintf_literal {fmt : List Byte} {words : List (BitVec 32)}
    (hfmt : items.flatMap Item.format = fmt) (hwords : items.flatMap Item.words = words)
    (hnul : (0 : Byte) ∉ fmt) (hlength : fmt.length < 2 ^ 32)
    (hformed : ∀ item ∈ items, item.Formed mem) :
    termPrintf (bufferOf fmt) mem (onStack words) = printedAll items := by
  subst hfmt hwords
  refine termPrintf_items (isCString_bufferOf _ hnul) hlength hformed fun j hj => ?_
  rw [onStack, List.getD_eq_getElem _ _ hj]

/-- A call with items that are printed as their texts. -/
theorem termPrintf_text {fmt : List Byte} {words : List (BitVec 32)}
    (hfmt : items.flatMap Item.format = fmt) (hwords : items.flatMap Item.words = words)
    (hnul : (0 : Byte) ∉ fmt) (hlength : fmt.length < 2 ^ 32)
    (hprintable : ∀ item ∈ items, item.Printable mem) :
    termPrintf (bufferOf fmt) mem (onStack words) = .ok (items.flatMap Item.text) := by
  rw [termPrintf_literal hfmt hwords hnul hlength fun item h => (hprintable item h).1]
  exact printedAll_eq_text fun item h => (hprintable item h).2

end

/-- **A size is printed** in the smallest unit that leaves it up to 1024, and rounded down: the unit
is one of the first three of `KMGTP` or none, and what is printed is nothing only for nothing. -/
theorem termPrintSize_spec (x : BitVec 32) : ∃ u v, u ≤ 3 ∧
    termPrintSize x.toNat = .ok (decimalDigits v ++
      (if 0 < u then [prefixes.getD (u - 1) 0, 105] else []) ++ [66]) ∧
    v * 1024 ^ u ≤ x.toNat ∧ x.toNat < (v + 1) * 1024 ^ u ∧ v ≤ 1024 ∧ (v = 0 → x = 0) ∧
    ∀ w < u, 1024 < x.toNat / 1024 ^ w := by
  obtain ⟨hunit, hle, hbefore⟩ := sizeUnit_spec x.isLt
  refine ⟨sizeUnit x.toNat, x.toNat / 1024 ^ sizeUnit x.toNat, hunit, termPrintSize_eq x.isLt,
    Nat.div_mul_le_self _ _, ?_, hle, fun hzero => ?_, hbefore⟩
  · rw [Nat.mul_comm]
    exact Nat.lt_mul_div_succ _ (by positivity)
  · obtain hunit | ⟨u, hu⟩ : sizeUnit x.toNat = 0 ∨ ∃ u, sizeUnit x.toNat = u + 1 :=
      Nat.eq_zero_or_eq_succ_pred _ |>.imp_right fun h => ⟨_, h⟩
    · rw [hunit, pow_zero, Nat.div_one] at hzero
      exact BitVec.eq_of_toNat_eq hzero
    · have hlast := hbefore u (by omega)
      rw [hu, Nat.pow_succ, ← Nat.div_div_eq_div_mul] at hzero
      omega

end Studix.Term
