import Studix.Term.PrintfItems

/-!
# The report of a page fault

`page_fault_handler` of `src/mem/page.c`. It prints the address at fault and what the bits of the
error code say, and then stops the kernel. The processor sets bit 0 for a violation of the
protection of a page that is present, and bit 1 for a write. The code takes bit 0 for the absence of
the page and negates it once more, and it takes bit 1 for a read.

The words that depend on the error code are string literals, which are passed by their addresses.

## Main definitions

* `pageFaultReport`: the characters printed.
* `FaultWords`: the words of a report.

## Main results

* `pageFaultReport_eq`: the report of every fault, which is wrong about the cause and the access.
-/

namespace Studix.Mem

open Term

/-- A report of a page fault, without the address. -/
structure FaultWords where
  cause : String
  access : String
  mode : String
  overwritten : String
  fetch : String
  deriving DecidableEq

/-- The words for the bits of an error code. -/
def faultWords (err : Byte) : FaultWords :=
  let present := !err.getLsbD 0
  let read := err.getLsbD 1
  let user := err.getLsbD 2
  let overwrite := err.getLsbD 3
  let fetch := err.getLsbD 4
  { cause := if present then "protection fault" else "page was not found"
    access := if read then "read" else "write"
    mode := if user then "user" else "kernel"
    overwritten := if overwrite then "" else "not "
    fetch := if fetch then "was" else "not" }

/-- What `page_fault_handler` prints, with the address in `CR2`, the error code, and the addresses
of its string literals. -/
def pageFaultReport (mem : Memory) (literal : String → BitVec 32) (faultAddr err : BitVec 32) :
    Except Stop (List Byte) := do
  let words := faultWords (err.setWidth 8)
  let address ← termPrintf (bufferOf (ascii "Page fault at %p\n")) mem (onStack [faultAddr])
  let access ← termPrintf (bufferOf (ascii " %s\n caused by a %s access in %s mode\n")) mem
    (onStack [literal words.cause, literal words.access, literal words.mode])
  let reserved ← termPrintf (bufferOf (ascii " reserved bits were %soverwritten\n")) mem
    (onStack [literal words.overwritten])
  let fetch ← termPrintf (bufferOf (ascii " %s caused by instruction fetch\n")) mem
    (onStack [literal words.fetch])
  .ok (address ++ access ++ reserved ++ fetch)

/-- The words of all reports. -/
def wordLiterals : List String :=
  ["protection fault", "page was not found", "read", "write", "user", "kernel", "", "not ",
    "was", "not"]

/-- The string literals are in memory. -/
def LiteralsIn (mem : Memory) (literal : String → BitVec 32) : Prop :=
  ∀ s ∈ wordLiterals,
    IsCString (fun i => mem ((literal s).toNat + i)) (ascii s) ∧
      (literal s).toNat + (ascii s).length < 2 ^ 32

/-! ### Printing -/

section

variable {mem : Memory} {literal : String → BitVec 32} {faultAddr err : BitVec 32}

theorem faultWords_literals (e : Byte) : [(faultWords e).cause, (faultWords e).access,
    (faultWords e).mode, (faultWords e).overwritten, (faultWords e).fetch] ⊆
      wordLiterals := by
  simp only [faultWords]
  split_ifs <;> decide

/-- A literal of the report can be printed. -/
theorem printable_literal (hmem : LiteralsIn mem literal) {s : String} {e : Byte}
    (hs : s ∈ [(faultWords e).cause, (faultWords e).access, (faultWords e).mode,
      (faultWords e).overwritten, (faultWords e).fetch]) :
    (Item.string (literal s) (ascii s)).Printable mem :=
  ⟨hmem s (faultWords_literals e hs), trivial⟩

theorem printf_address (mem : Memory) (faultAddr : BitVec 32) :
    termPrintf (bufferOf (ascii "Page fault at %p\n")) mem (onStack [faultAddr]) =
      .ok (ascii "Page fault at 0x" ++ termPrintHex faultAddr.toNat false ++ ascii "\n") := by
  have hprint : termPrintf (bufferOf (ascii "Page fault at %p\n")) mem (onStack [faultAddr]) =
      .ok ((chars "Page fault at " ++ [Item.pointer faultAddr] ++ chars "\n").flatMap Item.text) :=
    termPrintf_text (by simp [Item.format]; rfl) (by simp [Item.words]) (by decide) (by decide)
      (printable_append (printable_append (printable_chars (by decide))
        (printable_singleton ⟨trivial, trivial⟩))
        (printable_chars (by decide)))
  rw [hprint]
  simp only [List.flatMap_append, flatMap_text_chars, List.flatMap_singleton, Item.text]
  rfl

theorem printf_access (hmem : LiteralsIn mem literal) (e : Byte) :
    termPrintf (bufferOf (ascii " %s\n caused by a %s access in %s mode\n")) mem
        (onStack [literal (faultWords e).cause, literal (faultWords e).access,
          literal (faultWords e).mode]) =
      .ok (ascii " " ++ ascii (faultWords e).cause ++ ascii "\n caused by a " ++
        ascii (faultWords e).access ++ ascii " access in " ++ ascii (faultWords e).mode ++
        ascii " mode\n") := by
  have hword : ∀ s, s ∈ [(faultWords e).cause, (faultWords e).access, (faultWords e).mode] →
      ∀ item ∈ [Item.string (literal s) (ascii s)], item.Printable mem := by
    intro s hs
    refine printable_singleton (printable_literal (e := e) hmem ?_)
    exact List.mem_append_left [_, _] hs
  have hprint : termPrintf (bufferOf (ascii " %s\n caused by a %s access in %s mode\n")) mem
      (onStack [literal (faultWords e).cause, literal (faultWords e).access,
        literal (faultWords e).mode]) =
      .ok ((chars " " ++
        [Item.string (literal (faultWords e).cause) (ascii (faultWords e).cause)] ++
        chars "\n caused by a " ++
        [Item.string (literal (faultWords e).access) (ascii (faultWords e).access)] ++
        chars " access in " ++
        [Item.string (literal (faultWords e).mode) (ascii (faultWords e).mode)] ++
        chars " mode\n").flatMap Item.text) := by
    refine termPrintf_text (by simp [Item.format]; rfl) (by simp [Item.words]) (by decide)
      (by decide) ?_
    repeat' refine printable_append ?_ ?_
    · exact printable_chars (by decide)
    · exact hword _ (by simp)
    · exact printable_chars (by decide)
    · exact hword _ (by simp)
    · exact printable_chars (by decide)
    · exact hword _ (by simp)
    · exact printable_chars (by decide)
  rw [hprint]
  simp only [List.flatMap_append, flatMap_text_chars, List.flatMap_singleton, Item.text]

/-- A line with one word. -/
theorem printf_word (hmem : LiteralsIn mem literal) {e : Byte} {before word behind : String}
    {fmt : List Byte} (hword : word ∈ [(faultWords e).cause, (faultWords e).access,
      (faultWords e).mode, (faultWords e).overwritten, (faultWords e).fetch])
    (hfmt : ascii before ++ [37, 115] ++ ascii behind = fmt) (hbefore : 37 ∉ ascii before)
    (hbehind : 37 ∉ ascii behind) (hnul : (0 : Byte) ∉ fmt) (hlength : fmt.length < 2 ^ 32) :
    termPrintf (bufferOf fmt) mem (onStack [literal word]) =
      .ok (ascii before ++ ascii word ++ ascii behind) := by
  have hprint : termPrintf (bufferOf fmt) mem (onStack [literal word]) =
      .ok ((chars before ++ [Item.string (literal word) (ascii word)] ++ chars behind).flatMap
        Item.text) :=
    termPrintf_text (by simpa [Item.format] using hfmt) (by simp [Item.words]) hnul hlength
      (printable_append (printable_append (printable_chars hbefore)
        (printable_singleton (printable_literal hmem hword))) (printable_chars hbehind))
  rw [hprint]
  simp only [List.flatMap_append, flatMap_text_chars, List.flatMap_singleton, Item.text]

end

/-! ### The report -/

/-- The text of a report. -/
def reportText (faultAddr : BitVec 32) (words : FaultWords) : List Byte :=
  ascii "Page fault at 0x" ++ termPrintHex faultAddr.toNat false ++ ascii "\n" ++
    (ascii " " ++ ascii words.cause ++ ascii "\n caused by a " ++ ascii words.access ++
      ascii " access in " ++ ascii words.mode ++ ascii " mode\n") ++
    (ascii " reserved bits were " ++ ascii words.overwritten ++ ascii "overwritten\n") ++
    (ascii " " ++ ascii words.fetch ++ ascii " caused by instruction fetch\n")

/-- What the processor says with an error code: bit 0 is set for a violation of protection, bit 1
for a write, bit 2 for user mode, bit 3 for a reserved bit, and bit 4 for the fetch of an
instruction. -/
def processorWords (err : Byte) : FaultWords where
  cause := if err.getLsbD 0 then "protection fault" else "page was not found"
  access := if err.getLsbD 1 then "write" else "read"
  mode := if err.getLsbD 2 then "user" else "kernel"
  overwritten := if err.getLsbD 3 then "" else "not "
  fetch := if err.getLsbD 4 then "was" else "not"

/-- **The report of a page fault**, for every address and error code, is right about the mode, the
reserved bits and the fetch, and wrong about the cause and the access. -/
theorem pageFaultReport_eq {mem : Memory} {literal : String → BitVec 32}
    (hmem : LiteralsIn mem literal) (faultAddr err : BitVec 32) : ∃ words,
      pageFaultReport mem literal faultAddr err = .ok (reportText faultAddr words) ∧
      words.cause ≠ (processorWords (err.setWidth 8)).cause ∧
      words.access ≠ (processorWords (err.setWidth 8)).access ∧
      words.mode = (processorWords (err.setWidth 8)).mode ∧
      words.overwritten = (processorWords (err.setWidth 8)).overwritten ∧
      words.fetch = (processorWords (err.setWidth 8)).fetch := by
  refine ⟨faultWords (err.setWidth 8), ?_, ?_⟩
  · obtain ⟨e, he⟩ : ∃ e, e = err.setWidth 8 := ⟨_, rfl⟩
    have hreserved : termPrintf (bufferOf (ascii " reserved bits were %soverwritten\n")) mem
        (onStack [literal (faultWords e).overwritten]) =
        .ok (ascii " reserved bits were " ++ ascii (faultWords e).overwritten ++
          ascii "overwritten\n") :=
      printf_word hmem (e := e) (by simp) (by rfl) (by decide) (by decide) (by decide) (by decide)
    have hfetch : termPrintf (bufferOf (ascii " %s caused by instruction fetch\n")) mem
        (onStack [literal (faultWords e).fetch]) =
        .ok (ascii " " ++ ascii (faultWords e).fetch ++ ascii " caused by instruction fetch\n") :=
      printf_word hmem (e := e) (by simp) (by rfl) (by decide) (by decide) (by decide) (by decide)
    rw [← he]
    simp only [pageFaultReport, ← he, printf_address, printf_access hmem, hreserved, hfetch,
      except_ok_bind, reportText]
  · simp only [faultWords, processorWords, and_true]
    constructor
    · cases (err.setWidth 8).getLsbD 0 <;> decide
    · cases (err.setWidth 8).getLsbD 1 <;> decide

/-- String literals in slots of 32 bytes. -/
def slotMemory (a : ℕ) : Byte := (ascii (wordLiterals.getD (a / 32) "")).getD (a % 32) 0

def slotOf (s : String) : BitVec 32 := BitVec.ofNat 32 (32 * wordLiterals.idxOf s)

theorem literalsIn_slots : LiteralsIn slotMemory slotOf := by
  intro s hs
  have hslot : (slotOf s).toNat = 32 * wordLiterals.idxOf s ∧ (ascii s).length < 32 ∧
      (0 : Byte) ∉ ascii s ∧ wordLiterals.getD (wordLiterals.idxOf s) "" = s ∧
      wordLiterals.idxOf s < 10 := by
    revert s
    decide
  obtain ⟨haddr, hlength, hnul, hget, hindex⟩ := hslot
  refine ⟨(isCString_bufferOf (ascii s) hnul).congr fun i hi => ?_, by omega⟩
  rw [haddr, slotMemory, Nat.mul_add_div (by decide), Nat.mul_add_mod, Nat.div_eq_of_lt (by omega),
    Nat.mod_eq_of_lt (by omega), Nat.add_zero, hget, bufferOf]

/-- A write to the address 0x1000, where there is no page. -/
theorem pageFaultReport_eq_slots : ∃ words,
    pageFaultReport slotMemory slotOf 0x1000 2 = .ok (reportText 0x1000 words) ∧
      words.cause ≠ (processorWords ((2 : BitVec 32).setWidth 8)).cause ∧
      words.access ≠ (processorWords ((2 : BitVec 32).setWidth 8)).access ∧
      words.mode = (processorWords ((2 : BitVec 32).setWidth 8)).mode ∧
      words.overwritten = (processorWords ((2 : BitVec 32).setWidth 8)).overwritten ∧
      words.fetch = (processorWords ((2 : BitVec 32).setWidth 8)).fetch :=
  pageFaultReport_eq literalsIn_slots 0x1000 2

end Studix.Mem
